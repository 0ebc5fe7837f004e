import AneLinux.Support.Bytes
import AneLinux.Support.Logged

/-!
# The firmware payload validator

`ane_fw_validate_blob` checks a Mach-O payload against one pinned image before the driver maps
it. It walks seven load commands with 32-bit offsets that it adds without an overflow check,
compares every segment command with a table of three segments and keeps the program counter of
the last thread state. The model keeps the wrapping arithmetic and logs every read of the
payload and every write to `segs_out`. The inner loop over thread states runs on fuel.
-/

namespace AneLinux.Firmware

open AneLinux.Support

/-- One segment of the pinned layout; the name has 16 bytes and a terminator. -/
structure AneFwSeg where
  vmaddr : ℕ
  vmsize : ℕ
  fileoff : ℕ
  filesize : ℕ
  name : Bytes
deriving DecidableEq

/-- A memory access: bytes of the payload, or one entry of `segs_out`. -/
inductive Access
  | read (offset width : ℕ)
  | write (index : ℕ) (seg : AneFwSeg)
deriving DecidableEq

/-- Why the validator stops early: it returns -1 with a reason, or a loop is still running. -/
inductive Stop
  | reason (text : String)
  | running
deriving DecidableEq, Repr

/-- The computations of the validator. -/
abbrev Check := Logged Access Stop

/-- Return -1 with a reason. -/
def reject {α : Type} (text : String) : Check α := Logged.fail (.reason text)

/-- `get_unaligned_le32`. -/
def getUnalignedLe32 (blob : Bytes) (offset : ℕ) : Check ℕ := Logged.emit (.read offset 4) (blob.u32 offset)

/-- `get_unaligned_le64`. -/
def getUnalignedLe64 (blob : Bytes) (offset : ℕ) : Check ℕ := Logged.emit (.read offset 8) (blob.u64 offset)

/-- The value of a 32-bit unsigned expression. -/
def u32 (n : ℕ) : ℕ := n % 2 ^ 32

def aneFwBlobSize : ℕ := 0x1A4000
def aneFwEntryPc : ℕ := 0
def mhMagic64 : ℕ := 0xFEEDFACF
def mhPreload : ℕ := 5
def cpuTypeArm64 : ℕ := 0x0100000C
def lcSegment64 : ℕ := 0x19
def lcUnixthread : ℕ := 0x5
def armThreadState64 : ℕ := 6
def aneFwNcmds : ℕ := 7
def aneFwSizeofCmds : ℕ := 0xAE8
def aneFwFlags : ℕ := 0x200001
def aneFwNsegs : ℕ := 3

/-- A name of at most 16 characters in its 17 bytes. -/
def segName (text : List UInt8) : Bytes := Bytes.ofFn 17 fun i => text.getD i 0

/-- The pinned layout: `__TEXT`, `__DATA` and `__DATA_CONST`. -/
def aneFwExpectedSegs : List AneFwSeg := [
  { vmaddr := 0x000000, vmsize := 0x0E8000, fileoff := 0x004000, filesize := 0x0E8000,
    name := segName [0x5F, 0x5F, 0x54, 0x45, 0x58, 0x54] },
  { vmaddr := 0x0E8000, vmsize := 0x284000, fileoff := 0x0EC000, filesize := 0x0B8000,
    name := segName [0x5F, 0x5F, 0x44, 0x41, 0x54, 0x41] },
  { vmaddr := 0x36C000, vmsize := 0x000000, fileoff := 0x1A4000, filesize := 0x000000,
    name := segName [0x5F, 0x5F, 0x44, 0x41, 0x54, 0x41, 0x5F, 0x43, 0x4F, 0x4E, 0x53, 0x54] }]

/-- The variables the command loop carries. -/
structure Walk where
  off : ℕ
  nsegs : ℕ
  entry : ℕ
deriving DecidableEq, Repr

/-- The table search: the first pinned segment with the given words and name goes to `segs_out`. -/
def matchSegment (blob : Bytes) (segsOut : Bool) (off nsegs vmaddr vmsize fileoff filesize : ℕ) :
    List AneFwSeg → Check Unit
  | [] => reject "segment != pinned layout"
  | seg :: rest =>
    if vmaddr = seg.vmaddr ∧ vmsize = seg.vmsize ∧ fileoff = seg.fileoff ∧ filesize = seg.filesize then do
      let sname ← (Logged.emit (.read (off + 8) 16) (blob.slice (off + 8) (off + 24)) : Check Bytes)
      if sname = seg.name.slice 0 16 then
        if segsOut then Logged.emit (.write nsegs seg) () else pure ()
      else matchSegment blob segsOut off nsegs vmaddr vmsize fileoff filesize rest
    else matchSegment blob segsOut off nsegs vmaddr vmsize fileoff filesize rest

/-- The body of an `LC_SEGMENT_64` command. -/
def segmentCommand (blob : Bytes) (segsOut : Bool) (off nsegs : ℕ) : Check Unit := do
  let vmaddr ← getUnalignedLe64 blob (off + 24)
  let vmsize ← getUnalignedLe64 blob (off + 32)
  let fileoff ← getUnalignedLe64 blob (off + 40)
  let filesize ← getUnalignedLe64 blob (off + 48)
  if blob.size < fileoff ∨ blob.size - fileoff < filesize then
    reject "segment file range out of bounds"
  else if vmsize < filesize then
    reject "filesize > vmsize"
  else
    matchSegment blob segsOut off nsegs vmaddr vmsize fileoff filesize aneFwExpectedSegs

/-- The loop over the thread states of an `LC_UNIXTHREAD` command; the value is `entry`. -/
def threadLoop (blob : Bytes) (off cmdsize : ℕ) : ℕ → ℕ → ℕ → Check ℕ
  | 0, _, _ => Logged.fail .running
  | fuel + 1, p, entry =>
    if u32 (p + 8) ≤ u32 (off + cmdsize) then do
      let flavor ← getUnalignedLe32 blob p
      let count ← getUnalignedLe32 blob (p + 4)
      if u32 (cmdsize + 2 ^ 32 - u32 (p + 2 ^ 32 - off) + 2 ^ 32 - 8) / 4 < count then
        reject "thread state count out of bounds"
      else if flavor = armThreadState64 then
        if count < 66 ∨ u32 (off + cmdsize) < u32 (p + 8 + count * 4) then
          reject "thread state too small for pc"
        else do
          let pc ← getUnalignedLe64 blob (p + 8 + 32 * 8)
          threadLoop blob off cmdsize fuel (u32 (p + (8 + count * 4))) pc
      else threadLoop blob off cmdsize fuel (u32 (p + (8 + count * 4))) entry
    else pure entry

/-- One round of the command loop. -/
def loadCommand (fuel : ℕ) (blob : Bytes) (segsOut : Bool) (sizeofcmds : ℕ) (walk : Walk) : Check Walk :=
  if u32 (32 + sizeofcmds) < u32 (walk.off + 8) ∨ blob.size < u32 (walk.off + 8) then
    reject "load command header out of bounds"
  else do
    let cmd ← getUnalignedLe32 blob walk.off
    let cmdsize ← getUnalignedLe32 blob (walk.off + 4)
    if cmdsize < 8 ∨ u32 (32 + sizeofcmds) < u32 (walk.off + cmdsize) ∨
        blob.size < u32 (walk.off + cmdsize) then
      reject "cmdsize out of bounds"
    else if cmd = lcSegment64 then do
      segmentCommand blob segsOut walk.off walk.nsegs
      pure { off := u32 (walk.off + cmdsize), nsegs := u32 (walk.nsegs + 1), entry := walk.entry }
    else if cmd = lcUnixthread then do
      let entry ← threadLoop blob walk.off cmdsize fuel (u32 (walk.off + 8)) walk.entry
      pure { off := u32 (walk.off + cmdsize), nsegs := walk.nsegs, entry }
    else
      pure { walk with off := u32 (walk.off + cmdsize) }

/-- The command loop with a number of rounds to go. -/
def loadCommands (fuel : ℕ) (blob : Bytes) (segsOut : Bool) (sizeofcmds : ℕ) : ℕ → Walk → Check Walk
  | 0, walk => pure walk
  | rounds + 1, walk => do
    let walk ← loadCommand fuel blob segsOut sizeofcmds walk
    loadCommands fuel blob segsOut sizeofcmds rounds walk

/-- Copy the pinned table to `segs_out` from one index on. -/
def copySegs : ℕ → List AneFwSeg → Check Unit
  | _, [] => pure ()
  | i, seg :: rest => do
    (Logged.emit (.write i seg) () : Check Unit)
    copySegs (i + 1) rest

/-- The checks after the command loop and the outputs; the value is `*entry_out`. -/
def finish (segsOut : Bool) (walk : Walk) : Check ℕ :=
  if walk.nsegs ≠ aneFwNsegs then
    reject "segment count != 3"
  else if walk.entry ≠ aneFwEntryPc then
    reject "entry pc != 0"
  else do
    (if segsOut then copySegs 0 aneFwExpectedSegs else pure () : Check Unit)
    pure walk.entry

/-- The validator; `segsOut` says whether the pointer is there. -/
def aneFwValidateBlob (fuel : ℕ) (blob expectedSha actualSha : Bytes) (segsOut : Bool) : Check ℕ :=
  if blob.size ≠ aneFwBlobSize then
    reject "size != 0x1a4000"
  else if expectedSha.slice 0 32 ≠ actualSha.slice 0 32 then
    reject "sha256 != pinned payload hash"
  else do
    let magic ← getUnalignedLe32 blob 0
    let cputype ← getUnalignedLe32 blob 4
    let filetype ← getUnalignedLe32 blob 12
    let ncmds ← getUnalignedLe32 blob 16
    let sizeofcmds ← getUnalignedLe32 blob 20
    let flags ← getUnalignedLe32 blob 24
    if magic ≠ mhMagic64 then
      reject "magic"
    else if cputype ≠ cpuTypeArm64 then
      reject "cputype"
    else if filetype ≠ mhPreload then
      reject "filetype != MH_PRELOAD"
    else if ncmds ≠ aneFwNcmds ∨ sizeofcmds ≠ aneFwSizeofCmds ∨ flags ≠ aneFwFlags then
      reject "header fields != pinned image"
    else do
      let walk ← loadCommands fuel blob segsOut sizeofcmds ncmds { off := 32, nsegs := 0, entry := 2 ^ 64 - 1 }
      finish segsOut walk

end AneLinux.Firmware
