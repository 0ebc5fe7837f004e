import AneLinux.Hwx.RecordStream
import AneLinux.Support.Python

/-!
# Register decoding in the HWX converter

The converter reads two things out of a task descriptor: the register file written by its
record stream, and the coefficient-DMA lanes at fixed header offsets. One extra word
precedes the first record when the low bits of header word 9 are `0b11`, and a record that
runs past the descriptor is an error rather than a partial decode.
-/

namespace AneLinux.Hwx

open AneLinux.Support

/-- The task header ahead of the records. -/
def h13HeaderSize : ℕ := 40

/-- One extra word precedes the first record when header word 9 has low bits `0b11`. -/
def extraHeaderBytes (td : Bytes) : Py ℕ :=
  if td.size < h13HeaderSize then
    raiseValue "task descriptor is shorter than the H13 header"
  else do
    let last ← unpackU32 td (h13HeaderSize - 4)
    return if last &&& 0x3 = 0x3 then 4 else 0

/-- Assign `count` consecutive registers from consecutive words. -/
def storeValues (td : Bytes) (offset register count : ℕ) (registers : Registers) : Py Registers :=
  (List.range count).foldlM (fun registers index => do
    let value ← unpackU32 td (offset + 4 * index)
    return Function.update registers (register + 4 * index) (some value)) registers

/-- The record loop of `walkRegisters`. -/
def walkRegistersLoop (td : Bytes) (registers : Registers) (offset : ℕ) : Py Registers :=
  if offset + 4 ≤ td.size then do
    let header ← unpackU32 td offset
    if header = 0 then
      return registers
    else if td.size < offset + 4 + 4 * recordCount header then
      raiseValue ("register record at " ++ hex offset ++ " runs past the task descriptor")
    else do
      let registers ← storeValues td (offset + 4) (recordRegister header) (recordCount header) registers
      walkRegistersLoop td registers (offset + 4 + 4 * recordCount header)
  else
    return registers
termination_by td.size - offset

/-- The register file of one task descriptor. -/
def walkRegisters (td : Bytes) : Py Registers := do
  let extra ← extraHeaderBytes td
  walkRegistersLoop td (fun _ => none) (h13HeaderSize + extra)

/-- The task's own byte counts for its source and destination surfaces. -/
structure TileDMA where
  sourceRun : ℕ
  sourceTotal : ℕ
  destRun : ℕ
  destTotal : ℕ
deriving DecidableEq, Repr

/-- Read the tile-DMA byte counts; a register the task leaves alone reads as zero. -/
def decodeTileDma (td : Bytes) : Py TileDMA := do
  let registers ← walkRegisters td
  return {
    sourceRun := (registers 0x13810).getD 0
    sourceTotal := (registers 0x13814).getD 0
    destRun := (registers 0x1780C).getD 0
    destTotal := (registers 0x17810).getD 0 }

/-- The coefficient-DMA lanes of one task descriptor. -/
structure KDMALayout where
  enabled : List ℕ
  baseAddresses : List ℕ
  bufferSizes : List ℕ
deriving DecidableEq, Repr

/-- The number of coefficient-DMA lanes. -/
def kdmaLanes : ℕ := 16

/-- The `width`-bit field at `bit` of the word at `byteOffset`. -/
def bits (data : Bytes) (byteOffset bit width : ℕ) : Py ℕ :=
  if data.size < byteOffset + 4 then
    raiseValue "KDMA field exceeds the task descriptor"
  else do
    let value ← unpackU32 data byteOffset
    return (value >>> bit) &&& ((1 <<< width) - 1)

/-- Decode the coefficient-DMA registers of one task descriptor. -/
def decodeKdma (td : Bytes) : Py KDMALayout :=
  if td.size < 180 + 4 * kdmaLanes then
    raiseValue "task descriptor is too short for KDMA registers"
  else do
    let enabled ← (List.range kdmaLanes).mapM fun lane => bits td (52 + 4 * lane) 0 1
    let baseAddresses ← (List.range kdmaLanes).mapM fun lane => bits td (116 + 4 * lane) 6 26
    let bufferSizes ← (List.range kdmaLanes).mapM fun lane => bits td (180 + 4 * lane) 6 26
    return { enabled, baseAddresses, bufferSizes }

/-- The first record sits past the extra word when header word 9 has low bits `0b11`. -/
def firstRecord (td : Bytes) : ℕ := if td.u32 36 &&& 0x3 = 0x3 then 44 else 40

theorem extraHeaderBytes_of_le {td : Bytes} (h : 40 ≤ td.size) :
    extraHeaderBytes td = .ok (firstRecord td - 40) := by
  have hword : unpackU32 td (h13HeaderSize - 4) = .ok (td.u32 36) :=
    unpackU32_of_le (by simpa [h13HeaderSize] using h)
  rw [extraHeaderBytes, if_neg (by simpa [h13HeaderSize] using h), hword, firstRecord]
  split_ifs with hlow <;> simp [hlow]

/-- The assignments of a record whose values come from a word reader. -/
theorem writes_map_range (position register count : ℕ) (word : ℕ → ℕ) :
    (Record.mk position register ((List.range count).map word)).writes =
      (List.range count).map fun i =>
        (⟨position, position + 4 + 4 * i, register + 4 * i, word i⟩ : Write) := by
  apply List.ext_getElem
  · simp [Record.writes]
  · intro i h1 h2
    simp [Record.writes]

/-- Inside the descriptor, the value loop performs the assignments of its record. -/
theorem storeValues_eq {td : Bytes} {offset register count : ℕ} {registers : Registers}
    (h : offset + 4 + 4 * count ≤ td.size) :
    storeValues td (offset + 4) register count registers = .ok (registers.storeAll
      (Record.mk offset register
        ((List.range count).map fun i => td.u32 (offset + 4 + 4 * i))).writes) := by
  rw [writes_map_range, Registers.storeAll, List.foldl_map, storeValues]
  apply foldlM_eq_ok
  intro registers index hindex
  have hlt := List.mem_range.mp hindex
  rw [unpackU32_of_le (by omega)]
  rfl

theorem storeAll_append (m : Registers) (ws vs : List Write) :
    m.storeAll (ws ++ vs) = (m.storeAll ws).storeAll vs := List.foldl_append

/-- The result of a decoder that rejects truncated records. -/
def strictResult (registers : Registers) (walk : RecordWalk) : Py Registers :=
  if walk.reason = .truncated then
    raiseValue ("register record at " ++ hex walk.stop ++ " runs past the task descriptor")
  else
    .ok (registers.storeAll walk.writes)

/-- The record loop computes the record walk of the whole descriptor. -/
theorem walkRegistersLoop_eq (td : Bytes) (registers : Registers) (offset : ℕ) :
    walkRegistersLoop td registers offset =
      strictResult registers (walkRecords td.u32 td.size offset) := by
  fun_induction walkRecords td.u32 td.size offset generalizing registers with
  | case1 offset hle hzero =>
    rw [walkRegistersLoop, if_pos hle, unpackU32_of_le hle, ok_bind, if_pos hzero]
    rfl
  | case2 offset hle hzero hcut =>
    rw [walkRegistersLoop, if_pos hle, unpackU32_of_le hle, ok_bind, if_neg hzero, if_pos hcut]
    rfl
  | case3 offset hle hzero hfit rest ih =>
    rw [walkRegistersLoop, if_pos hle, unpackU32_of_le hle, ok_bind, if_neg hzero, if_neg hfit,
      storeValues_eq (by omega), ok_bind, ih]
    simp only [strictResult, RecordWalk.writes, List.flatMap_cons, storeAll_append]
    rfl
  | case4 offset hle =>
    rw [walkRegistersLoop, if_neg hle]
    rfl

/-- A descriptor with a whole header decodes to the walk from its first record. -/
theorem walkRegisters_eq {td : Bytes} (h : 40 ≤ td.size) : walkRegisters td =
    strictResult (fun _ => none) (walkRecords td.u32 td.size (firstRecord td)) := by
  have hfirst : h13HeaderSize + (firstRecord td - 40) = firstRecord td := by
    unfold firstRecord h13HeaderSize
    split_ifs <;> rfl
  rw [walkRegisters, extraHeaderBytes_of_le h, ok_bind, walkRegistersLoop_eq, hfirst]

/-- A decoding does not read the header words before the last two. -/
theorem walkRegisters_congr {td td' : Bytes} (h : 40 ≤ td.size) (hsize : td'.size = td.size)
    (hget : ∀ i, 32 ≤ i → i < td.size → td'.get i = td.get i) : walkRegisters td' = walkRegisters td := by
  have hword (i : ℕ) (hi : 32 ≤ i) (hend : i + 4 ≤ td.size) : td'.u32 i = td.u32 i :=
    Bytes.u32_congr fun k hk => hget (i + k) (by omega) (by omega)
  have hfirst : firstRecord td' = firstRecord td := by rw [firstRecord, firstRecord, hword 36 (by omega) (by omega)]
  have hstart : 40 ≤ firstRecord td := by
    rw [firstRecord]
    split_ifs <;> omega
  rw [walkRegisters_eq h, walkRegisters_eq (hsize ▸ h), hfirst, hsize,
    walkRecords_congr fun p hp _ hle => hword p (by omega) hle]

/-- The decoder fails only by value errors. -/
theorem walkRegisters_raises (td : Bytes) :
    Meets (walkRegisters td) (fun _ => True) (fun e => e.isValueError = true) := by
  by_cases h : 40 ≤ td.size
  · rw [walkRegisters_eq h, strictResult]
    split_ifs
    · rfl
    · trivial
  · rw [walkRegisters, extraHeaderBytes, if_pos (by simpa [h13HeaderSize] using h)]
    rfl

theorem decodeTileDma_raises (td : Bytes) :
    Meets (decodeTileDma td) (fun _ => True) (fun e => e.isValueError = true) :=
  (walkRegisters_raises td).bind fun _ _ => trivial

/-- A bit field is read only after its bounds check. -/
theorem bits_raises (data : Bytes) (byteOffset bit width : ℕ) :
    Meets (bits data byteOffset bit width) (fun _ => True) (fun e => e.isValueError = true) := by
  unfold bits
  split_ifs with h
  · rfl
  · rw [unpackU32_of_le (by omega)]
    trivial

theorem decodeKdma_raises (td : Bytes) :
    Meets (decodeKdma td) (fun _ => True) (fun e => e.isValueError = true) := by
  unfold decodeKdma
  split_ifs with h
  · rfl
  · refine (Meets.mapM _ _ fun lane _ => bits_raises ..).bind fun _ _ => ?_
    refine (Meets.mapM _ _ fun lane _ => bits_raises ..).bind fun _ _ => ?_
    refine (Meets.mapM _ _ fun lane _ => bits_raises ..).bind fun _ _ => ?_
    trivial

end AneLinux.Hwx
