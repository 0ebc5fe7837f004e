import AneLinux.Support.Method
import AneLinux.Runtime.Pack
import AneLinux.Runtime.HalfBytes

/-!
# The device and its cached programs

`Device` owns the file descriptor of the engine and three caches of buffer objects: workspaces by
size for `submit`, one program per tile for `tile_gemm`, and one program per tile width for
`blob_swap_gemm`, whose weight blob is rewritten on every call. The model keeps the contents of
every buffer, counts the buffers the kernel has handed out, and logs what each submission shows the
engine.

The code is generic in the type of the 16-bit values and in the type of the memory cells. The
engine and the kernel are parameters, `Host`.
-/

namespace AneLinux.Runtime

open AneLinux.Support AneLinux.Staged

/-- Memory cells that hold host bytes and the two bytes of a 16-bit value. -/
class HalfMemory (α M : Type) where
  raw : UInt8 → M
  low : α → M
  high : α → M
  decode : M → M → α
  decode_encode : ∀ a, decode (low a) (high a) = a

/-- A value is its two bytes. -/
theorem ofNat_halfByte (a : Half) :
    BitVec.ofNat 16 ((halfByte a 0).toNat + 256 * (halfByte a 1).toNat) = a := by
  have ha := a.isLt
  apply BitVec.eq_of_toNat_eq
  simp only [halfByte, BitVec.toNat_ofNat, UInt8.toNat_ofNat', Nat.shiftRight_eq_div_pow]
  omega

/-- The memory of the machine: bytes, and half-precision values low byte first. -/
instance : HalfMemory Half UInt8 where
  raw := id
  low a := halfByte a 0
  high a := halfByte a 1
  decode lo hi := BitVec.ofNat 16 (lo.toNat + 256 * hi.toNat)
  decode_encode := ofNat_halfByte

/-- A mapped buffer object: the handle of the kernel and the mapped bytes. -/
structure Buffer (M : Type) where
  handle : ℕ
  contents : List M

/-- What a submission shows the engine. -/
structure Submission (M : Type) where
  tskSize : ℕ
  tdCount : ℕ
  tdSize : ℕ
  pad : ℕ
  command : List M
  source : List M
  output : List M
  btsp : List M

/-- A `Submit` request: its scalars and the buffer object behind `btsp_handle`. -/
structure Request (M : Type) where
  tskSize : ℕ
  tdCount : ℕ
  tdSize : ℕ
  pad : ℕ
  btsp : Buffer M

/-- The four buffers of a workspace. -/
structure Workspace (M : Type) where
  cmd : Buffer M
  out : Buffer M
  src : Buffer M
  btsp : Buffer M

/-- A cached tile program. -/
structure Program (M : Type) where
  cmd : Buffer M
  out : Buffer M
  src : Buffer M
  request : Request M
  srcSlots : ℕ
  srcBytes : ℕ

/-- A tile program whose blob is rewritten, with the arrays it works in. -/
structure BlobProgram (α M : Type) where
  program : Program M
  blobOff : ℕ
  padded : ℕ → ℕ → α
  packed : List α
  source : List α

/-- The key of a tile: the matrix, the tile width and the offsets. -/
structure TileKey where
  matrix : ℕ
  inCols : ℕ
  row0 : ℕ
  col0 : ℕ
deriving DecidableEq, Repr

/-- The sizes of a workspace. -/
structure WorkspaceKey where
  commandSize : ℕ
  sourceSize : ℕ
  outputSize : ℕ
  btspSize : ℕ
deriving DecidableEq, Repr

/-- The device: its caches, the number of buffer objects made so far and the submissions so far. -/
structure Device (α M : Type) where
  qid : Option ℕ
  inits : ℕ
  workspaces : List (WorkspaceKey × Workspace M)
  tileCache : List (TileKey × Program M)
  blobSwapCache : List (ℕ × BlobProgram α M)
  submissions : List (Submission M)

/-- The kernel and the engine: the handle of the `n`-th buffer object, and the output bytes at the
end of the wait for the `n`-th submission. Buffer objects that live together have different handles. -/
structure Host (M : Type) where
  handle : ℕ → ℕ
  respond : ℕ → Submission M → ℕ → M
  handle_injective : Function.Injective handle

/-- Slice assignment of a byte array. -/
def spliceList {M : Type} (bytes : List M) (a b : ℕ) (data : List M) : List M :=
  bytes.take a ++ data ++ bytes.drop (max a b)

section Memory

variable {α M : Type}

/-- `values.tobytes()` in memory cells. -/
def encode [HalfMemory α M] (values : List α) : List M :=
  values.flatMap fun a => [HalfMemory.low a, HalfMemory.high a]

/-- Host bytes of value zero. -/
def zeroBytes (α : Type) {M : Type} [HalfMemory α M] (n : ℕ) : List M :=
  List.replicate n (HalfMemory.raw α 0)

/-- The bytes `00 7c` that stand in the output until the engine writes it. -/
def sentinelBytes (α : Type) {M : Type} [HalfMemory α M] : List M :=
  [HalfMemory.raw α 0x00, HalfMemory.raw α 0x7C]

/-- `np.frombuffer(raw, dtype=np.float16)[: 512 * 32 : 32]`. -/
def outputRows [HalfMemory α M] (bytes : List M) : List α :=
  (List.range 512).map fun r => HalfMemory.decode
    (bytes.getD (2 * (32 * r)) (HalfMemory.raw α 0)) (bytes.getD (2 * (32 * r) + 1) (HalfMemory.raw α 0))

namespace Buffer

/-- `Buffer.write`. -/
def write (buffer : Buffer M) (data : List M) : Py (Buffer M) :=
  if buffer.contents.length < data.length then
    raiseValue s!"buffer overflow: {data.length} > {buffer.contents.length}"
  else .ok { buffer with contents := data ++ buffer.contents.drop data.length }

/-- `map.seek(offset)` and `map.write(data)`. -/
def writeAt (buffer : Buffer M) (offset : ℕ) (data : List M) : Py (Buffer M) :=
  if buffer.contents.length < offset + data.length then
    raiseValue "data out of range"
  else
    let contents := buffer.contents.take offset ++ data ++ buffer.contents.drop (offset + data.length)
    .ok { buffer with contents }

end Buffer

end Memory

/-- The part of a dimension that a tile takes: an offset inside takes what is left up to the limit,
an offset a whole tile past the end takes nothing, and between them the shapes do not match. -/
def tileExtent (limit size offset : ℕ) : Option ℕ :=
  if offset ≤ size then some (min limit (size - offset))
  else if size + limit ≤ offset then some 0
  else none

section Values

variable {α : Type}

/-- `padded[:rows, :cols] = weights[row0 : row0 + rows, col0 : col0 + cols]`. -/
def copyTile (padded : ℕ → ℕ → α) (weights : Array2 α) (row0 col0 inCols : ℕ) : Py (ℕ → ℕ → α) :=
  match tileExtent 512 weights.rows row0, tileExtent inCols weights.cols col0 with
  | some rows, some cols =>
    .ok fun i j => if i < rows ∧ j < cols then weights.entry (row0 + i) (col0 + j) else padded i j
  | _, _ => raiseValue "could not broadcast input array"

/-- `source[: slots * 32 : 32] = activation`. -/
def placeSource [Zero α] (source : List α) (slots : ℕ) (activation : List α) : Py (List α) :=
  if activation.length = slots ∨ activation.length = 1 then
    .ok (source.mapIdx fun i old => if i < slots * 32 ∧ i % 32 = 0 then
      activation.getD (if activation.length = slots then i / 32 else 0) 0 else old)
  else raiseValue s!"could not broadcast input array from shape ({activation.length},) into shape ({slots},)"

/-- The packer of a tile width. -/
def packFor [Zero α] (inCols : ℕ) (padded : ℕ → ℕ → α) (out : Option (List α)) : Py (List α) :=
  if inCols = 256 then packWeights ⟨512, inCols, padded⟩ out else packWeights512 ⟨512, inCols, padded⟩ out

end Values

/-- The start of the blob in the command buffer of a tile program. -/
def blobOffset (inCols : ℕ) : ℕ := if inCols = 256 then weightOffset else (tdSize + 15) / 16 * 16

/-- The places of the source vector of a tile program. -/
def sourceSlots (inCols : ℕ) : ℕ := if inCols = 256 then 256 else 512

/-- The bytes of the source buffer of a tile program. -/
def sourceBytes (inCols : ℕ) : ℕ := if inCols = 256 then srcBytes else srcBytes512

namespace Device

variable {α M : Type}

/-- A device that has just been opened. -/
def fresh (qid : Option ℕ) : Device α M :=
  { qid, inits := 0, workspaces := [], tileCache := [], blobSwapCache := [], submissions := [] }

/-- The queue word of a request. -/
def pad (device : Device α M) : ℕ := match device.qid with
  | none => 0
  | some qid => 0x80 ||| qid

section Code

variable [HalfMemory α M]

/-- `Device.buffer`: `BO_INIT`, then map it; an empty map is refused. -/
def buffer (host : Host M) (size : ℕ) : Method (Device α M) (Buffer M) := do
  let handle ← Method.change fun s => ({ s with inits := s.inits + 1 }, host.handle s.inits)
  if size = 0 then Method.raise (.osError "[Errno 22] Invalid argument")
  else return { handle, contents := zeroBytes α size }

/-- `_workspace_for`. -/
def workspaceFor (host : Host M) (key : WorkspaceKey) : Method (Device α M) (Workspace M) := do
  let cached ← Method.read fun s => find s.workspaces key
  match cached with
  | some workspace => return workspace
  | none => do
    let cmd ← buffer host key.commandSize
    let out ← buffer host key.outputSize
    let src ← buffer host key.sourceSize
    let btsp ← buffer host key.btspSize
    Method.change fun s => ({ s with workspaces := assign s.workspaces key ⟨cmd, out, src, btsp⟩ }, ())
    return ⟨cmd, out, src, btsp⟩

/-- `ioctl(fd, IOCTL_SUBMIT, request)` and the wait: the output buffer afterwards. -/
def ioctlSubmit (host : Host M) (request : Request M) (cmd out src : Buffer M) :
    Method (Device α M) (Buffer M) :=
  Method.change fun s =>
    let submission : Submission M :=
      { tskSize := request.tskSize, tdCount := request.tdCount, tdSize := request.tdSize, pad := request.pad,
        command := cmd.contents, source := src.contents, output := out.contents, btsp := request.btsp.contents }
    ({ s with submissions := s.submissions ++ [submission] },
      { out with contents := (List.range out.contents.length).map (host.respond s.submissions.length submission) })

variable [DecidableEq M]

/-- The output of a submission, unless the sentinel is still there. -/
def readOutput (α : Type) [HalfMemory α M] (bytes : List M) : Py (List M) :=
  if bytes.take 2 = sentinelBytes α then
    .error (.timeoutError "ANE output was not written before timeout")
  else .ok bytes

/-- The part of `submit` that fills the workspace, submits it and reads the output. -/
def runWorkspace (host : Host M) (command source : List M) (outputSize : ℕ) (descriptor : List M) (tdCount : ℕ)
    (key : WorkspaceKey) (workspace : Workspace M) : Method (Device α M) (List M) := do
  let out ← Method.lift (workspace.out.write (List.replicate (outputSize / 2) (sentinelBytes α)).flatten)
  let cmd ← Method.lift (workspace.cmd.write command)
  let src ← Method.lift (workspace.src.write source)
  let btsp ← Method.lift (workspace.btsp.write ((List.range tdCount).foldl (fun bytes i =>
    spliceList bytes (i * tdSpacing) (i * tdSpacing + descriptor.length) descriptor) (zeroBytes α key.btspSize)))
  let pad ← Method.read pad
  let request : Request M := ⟨(tdCount - 1) * tdSpacing + tdSize, tdCount, tdSize, pad, btsp⟩
  let out ← ioctlSubmit host request cmd out src
  Method.change fun s => ({ s with workspaces := assign s.workspaces key ⟨cmd, out, src, btsp⟩ }, ())
  Method.lift (readOutput α (out.contents.take outputSize))

/-- `Device.submit`. -/
def submit (host : Host M) (command source : List M) (outputSize : ℕ) (descriptor : List M) (tdCount : ℕ) :
    Method (Device α M) (List M) :=
  if descriptor.length < tdSize then
    Method.raise (.valueError "descriptor is shorter than td_size")
  else if tdCount < 1 then
    Method.raise (.valueError "td_count must be positive")
  else if command.length ≤ (tdCount - 1) * tdSpacing + tdSize then
    Method.raise (.valueError "command buffer has no KRN region")
  else do
    let btspSize := (tdCount - 1) * tdSpacing + descriptor.length
    let key : WorkspaceKey := ⟨command.length, source.length, outputSize, btspSize⟩
    let workspace ← workspaceFor host key
    runWorkspace host command source outputSize descriptor tdCount key workspace

variable [Zero α]

/-- `Device.gemm`. -/
def gemm (host : Host M) (weights : Array2 α) (activation : List α) (descriptor : List M) :
    Method (Device α M) (List α) :=
  if activation.length ≠ 256 then
    Method.raise (.valueError s!"activation must have shape (256,), got ({activation.length},)")
  else do
    let packed ← Method.lift (packWeights weights none)
    let command := spliceList (zeroBytes α cmdBytes) 0 descriptor.length descriptor
    let command := spliceList command weightOffset (weightOffset + weightBytes) (encode packed)
    let source ← Method.lift (placeSource (List.replicate (srcBytes / 2) 0) 256 activation)
    let bytes ← submit host command (encode source) outBytes descriptor 1
    return outputRows bytes

/-- `Device.gemm512`. -/
def gemm512 (host : Host M) (weights : Array2 α) (activation : List α) (descriptor : List M) :
    Method (Device α M) (List α) :=
  if activation.length ≠ 512 then
    Method.raise (.valueError s!"activation must have shape (512,), got ({activation.length},)")
  else do
    let packed ← Method.lift (packWeights512 weights none)
    let command := spliceList (zeroBytes α ((tdSize + 15) / 16 * 16 + weightBytes512)) 0 descriptor.length descriptor
    let command := spliceList command ((tdSize + 15) / 16 * 16) command.length (encode packed)
    let source ← Method.lift (placeSource (List.replicate (srcBytes512 / 2) 0) 512 activation)
    let bytes ← submit host command (encode source) outBytes descriptor 1
    return outputRows bytes

/-- The command bytes of a tile program. -/
def tileCommand (packed : List α) (descriptor : List M) (inCols : ℕ) : List M :=
  let command := spliceList (zeroBytes α (blobOffset inCols + 2 * packed.length)) 0 descriptor.length descriptor
  spliceList command (blobOffset inCols) command.length (encode packed)

/-- The part of `tile_gemm` and `blob_swap_gemm` that makes the buffers of a program. -/
def makeProgram (host : Host M) (packed : List α) (descriptor : List M) (inCols : ℕ) :
    Method (Device α M) (Program M) := do
  let command := tileCommand packed descriptor inCols
  let cmd ← buffer host command.length
  let out ← buffer host outBytes
  let src ← buffer host (sourceBytes inCols)
  let btsp ← buffer host descriptor.length
  let cmd ← Method.lift (cmd.write command)
  let btsp ← Method.lift (btsp.write descriptor)
  let pad ← Method.read pad
  return { cmd, out, src, request := ⟨tdSize, 1, tdSize, pad, btsp⟩, srcSlots := sourceSlots inCols,
           srcBytes := sourceBytes inCols }

/-- The cached program of a tile, made on the first call. -/
def tileProgram (host : Host M) (key : TileKey) (weights : Array2 α) (descriptor : List M) (inCols : ℕ) :
    Method (Device α M) (Program M) := do
  let cached ← Method.read fun s => find s.tileCache key
  match cached with
  | some program => return program
  | none => do
    let padded ← Method.lift (copyTile (fun _ _ => 0) weights key.row0 key.col0 inCols)
    let packed ← Method.lift (packFor inCols padded none)
    let program ← makeProgram host packed descriptor inCols
    Method.change fun s => ({ s with tileCache := assign s.tileCache key program }, ())
    return program

/-- The part of `tile_gemm` that fills the source, submits the program and reads the output. -/
def runTile (host : Host M) (key : TileKey) (activation : List α) (program : Program M) :
    Method (Device α M) (List α) := do
  let source ← Method.lift (placeSource (List.replicate (program.srcBytes / 2) 0) program.srcSlots activation)
  let src ← Method.lift (program.src.write (encode source))
  let out ← Method.lift (program.out.writeAt 0 (sentinelBytes α))
  let out ← ioctlSubmit host program.request program.cmd out src
  Method.change fun s => ({ s with tileCache := assign s.tileCache key { program with src, out } }, ())
  let bytes ← Method.lift (readOutput α (out.contents.take outBytes))
  return outputRows bytes

/-- `Device.tile_gemm`. -/
def tileGemm (host : Host M) (key : TileKey) (weights : Array2 α) (activation : List α) (descriptor : List M)
    (inCols : ℕ) : Method (Device α M) (List α) := do
  let program ← tileProgram host key weights descriptor inCols
  runTile host key activation program

/-- Keep a changed blob program. -/
def keepBlob (inCols : ℕ) (program : BlobProgram α M) : Method (Device α M) Unit :=
  Method.change fun s => ({ s with blobSwapCache := assign s.blobSwapCache inCols program }, ())

/-- The cached program of a tile width, made on the first call. -/
def blobProgram (host : Host M) (key : TileKey) (weights : Array2 α) (descriptor : List M) (inCols : ℕ) :
    Method (Device α M) (BlobProgram α M) := do
  let cached ← Method.read fun s => find s.blobSwapCache inCols
  match cached with
  | some program => return program
  | none => do
    let padded ← Method.lift (copyTile (fun _ _ => 0) weights key.row0 key.col0 inCols)
    let packed ← Method.lift (packFor inCols padded none)
    let program ← makeProgram host packed descriptor inCols
    let blob : BlobProgram α M :=
      { program, blobOff := blobOffset inCols, padded, packed,
        source := List.replicate (program.srcBytes / 2) 0 }
    keepBlob inCols blob
    return blob

/-- The part of `blob_swap_gemm` that packs the tile into the cached arrays and the command. -/
def rewriteBlob (key : TileKey) (weights : Array2 α) (inCols : ℕ) (blob : BlobProgram α M) :
    Method (Device α M) (BlobProgram α M) := do
  let blob := { blob with padded := fun _ _ => 0 }
  keepBlob inCols blob
  let padded ← Method.lift (copyTile blob.padded weights key.row0 key.col0 inCols)
  let packed ← Method.lift (packFor inCols padded (some blob.packed))
  let cmd ← Method.lift (blob.program.cmd.writeAt blob.blobOff (encode packed))
  let source := List.replicate blob.source.length 0
  let blob := { blob with padded, packed, source, program := { blob.program with cmd } }
  keepBlob inCols blob
  return blob

/-- The part of `blob_swap_gemm` that fills the source, submits the program and reads the output. -/
def runBlob (host : Host M) (activation : List α) (inCols : ℕ) (blob : BlobProgram α M) :
    Method (Device α M) (List α) := do
  let source ← Method.lift (placeSource blob.source blob.program.srcSlots activation)
  let src ← Method.lift (blob.program.src.writeAt 0 (encode source))
  let out ← Method.lift (blob.program.out.writeAt 0 (sentinelBytes α))
  let out ← ioctlSubmit host blob.program.request blob.program.cmd out src
  keepBlob inCols { blob with source, program := { blob.program with src, out } }
  let bytes ← Method.lift (readOutput α (out.contents.take outBytes))
  return outputRows bytes

/-- `Device.blob_swap_gemm`. -/
def blobSwapGemm (host : Host M) (key : TileKey) (weights : Array2 α) (activation : List α) (descriptor : List M)
    (inCols : ℕ) : Method (Device α M) (List α) := do
  let blob ← blobProgram host key weights descriptor inCols
  let blob ← rewriteBlob key weights inCols blob
  runBlob host activation inCols blob

end Code

end Device

end AneLinux.Runtime
