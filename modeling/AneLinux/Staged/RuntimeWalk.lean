import AneLinux.Staged.TaskStream

/-!
# Three walkers of one record stream

The converter, the staged runtime and the strict stream parser each walk the records of a
task descriptor. The converter places the first record by header word 9, the other two by
header word 0, the task id. All three agree on the record grammar, so they decode the same
register file exactly when the two header words choose the same first record, or when the
walks from both candidate positions happen to give one register file.
-/

namespace AneLinux.Staged

open AneLinux.Support AneLinux.Hwx

/-- The record loop of the staged runtime, which keeps what it has at a truncated record. -/
def walkRegistersLoop (td : Bytes) (registers : Registers) (offset : ℕ) : Py Registers :=
  if offset + 4 ≤ td.size then do
    let word ← unpackU32 td offset
    if word = 0 then
      return registers
    else if td.size < offset + 4 + 4 * recordCount word then
      return registers
    else do
      let registers ← storeValues td (offset + 4) (recordRegister word) (recordCount word) registers
      walkRegistersLoop td registers (offset + 4 + 4 * recordCount word)
  else
    return registers
termination_by td.size - offset

/-- The staged runtime's register file of one task descriptor. -/
def walkRegisters (td : Bytes) : Py Registers := do
  let head ← unpackU32 td 0
  walkRegistersLoop td (fun _ => none) (40 + if head &&& 0x3 = 0x3 then 4 else 0)

/-- The last-writer-wins fold of parsed records. -/
def foldRecords (records : List Record) : Registers := registersOf (records.flatMap Record.writes)

/-- The register file of the records from `start`, if none of them is truncated. -/
def recordFile (td : Bytes) (start : ℕ) : Option Registers :=
  let walk := walkRecords td.u32 td.size start
  if walk.reason = .truncated then none else some (registersOf walk.writes)

/-- The staged runtime and the strict parser both decode the register file `registers`. -/
def WalkersAgree (td : Bytes) (registers : Registers) : Prop :=
  walkRegisters td = .ok registers ∧
    ∃ parse, parseTask td 0 td.size = .ok parse ∧ foldRecords parse.records = registers ∧
      parse.truncated = false

/-- The runtime loop performs the assignments of the record walk, truncated or not. -/
theorem walkRegistersLoop_eq (td : Bytes) (registers : Registers) (offset : ℕ) :
    walkRegistersLoop td registers offset =
      .ok (registers.storeAll (walkRecords td.u32 td.size offset).writes) := by
  fun_induction walkRecords td.u32 td.size offset generalizing registers with
  | case1 offset hle hzero =>
    rw [walkRegistersLoop, if_pos hle, unpackU32_of_le hle, ok_bind, if_pos hzero]
    rfl
  | case2 offset hle hzero hcut =>
    rw [walkRegistersLoop, if_pos hle, unpackU32_of_le hle, ok_bind, if_neg hzero, if_pos hcut]
    rfl
  | case3 offset hle hzero hfit rest ih =>
    rw [walkRegistersLoop, if_pos hle, unpackU32_of_le hle, ok_bind, if_neg hzero, if_neg hfit,
      storeValues_eq (by omega), ok_bind, ih]
    simp only [RecordWalk.writes, List.flatMap_cons, storeAll_append]
    rfl
  | case4 offset hle =>
    rw [walkRegistersLoop, if_neg hle]
    rfl

/-- The runtime walks from the first record that header word 0 selects. -/
theorem walkRegisters_eq {td : Bytes} (h : 4 ≤ td.size) : walkRegisters td =
    .ok (registersOf (walkRecords td.u32 td.size (firstParsedRecord td 0)).writes) := by
  rw [walkRegisters, unpackU32_of_le (by omega), ok_bind, walkRegistersLoop_eq]
  rfl

/-- The strict parser of a whole descriptor walks from the same first record. -/
theorem parseTask_whole {td : Bytes} (h : 4 ≤ td.size) : parseTask td 0 td.size =
    .ok (TaskParse.ofWalk [] (walkRecords td.u32 td.size (firstParsedRecord td 0))) := by
  have hlimit : taskLimit td 0 td.size = td.size := by simp [taskLimit]
  have hword : taskWord td 0 = td.u32 := by
    funext p
    rw [taskWord, Nat.zero_add]
  rw [parseTask_eq (by omega), parsedWalk, hlimit, hword]

/-- The word-0 walkers agree on a register file exactly when it is the one of their own start. -/
theorem walkersAgree_iff {td : Bytes} (h : 4 ≤ td.size) (registers : Registers) :
    WalkersAgree td registers ↔ recordFile td (firstParsedRecord td 0) = some registers := by
  rw [WalkersAgree, walkRegisters_eq h, parseTask_whole h]
  unfold recordFile
  dsimp only
  split_ifs with hreason
  · simp [TaskParse.ofWalk, hreason]
  · simp only [Except.ok.injEq, Option.some.injEq]
    constructor
    · intro hagree
      exact hagree.1
    · intro hfile
      exact ⟨hfile, _, rfl, hfile, by simpa [TaskParse.ofWalk] using hreason⟩

/-- The converter's decoder returns the register file of its own start. -/
theorem recordFile_of_ok {td : Bytes} {registers : Registers} (h : 40 ≤ td.size)
    (hok : Hwx.walkRegisters td = .ok registers) :
    recordFile td (firstRecord td) = some registers := by
  rw [Hwx.walkRegisters_eq h, strictResult] at hok
  unfold recordFile
  dsimp only
  split_ifs at hok with hreason
  · exact absurd hok (raiseValue_ne_ok _ _)
  · rw [if_neg hreason, ← Except.ok.inj hok]
    rfl

/-- The three walkers decode one register file exactly when header words 0 and 9 place the
first record alike, or when the records from byte 40 and from byte 44 give the same file. -/
theorem walkers_agree_iff (td : Bytes) (registers : Registers) (hsize : 40 ≤ td.size)
    (hok : Hwx.walkRegisters td = .ok registers) :
    WalkersAgree td registers ↔
      ((td.u32 0 &&& 0x3 = 0x3 ↔ td.u32 36 &&& 0x3 = 0x3) ∨
        recordFile td 40 = recordFile td 44) := by
  have hfile := recordFile_of_ok hsize hok
  rw [walkersAgree_iff (by omega), ← hfile]
  unfold firstParsedRecord extraWords firstRecord
  by_cases hhead : td.u32 0 &&& 0x3 = 0x3 <;> by_cases hlast : td.u32 36 &&& 0x3 = 0x3
  · simp [hhead, hlast]
  · simp [hhead, hlast, eq_comm]
  · simp [hhead, hlast]
  · simp [hhead, hlast]

/-- A descriptor with given header words 0 and 9 and one record `0x13810 := 1792` at byte 40. -/
def oneRecordTask (head last : ℕ) : Bytes :=
  Bytes.ofNat 52 (head + last <<< (8 * 36) + 0x13810 <<< (8 * 40) + 1792 <<< (8 * 44))

/-- The converter decodes a descriptor whose header word 9 announces no extra word. -/
theorem walkRegisters_oneRecordTask (head last : ℕ)
    (h : (walkRecords (oneRecordTask head last).u32 52 (firstRecord (oneRecordTask head last))).reason ≠
      .truncated) :
    ∃ registers, Hwx.walkRegisters (oneRecordTask head last) = .ok registers ∧ registers =
      registersOf (walkRecords (oneRecordTask head last).u32 52
        (firstRecord (oneRecordTask head last))).writes := by
  refine ⟨_, ?_, rfl⟩
  rw [Hwx.walkRegisters_eq (by simp [oneRecordTask, Bytes.ofNat]), strictResult]
  exact if_neg h

theorem walkers_agree_iff_oneRecordTask : ∃ registers,
    Hwx.walkRegisters (oneRecordTask 0x40 0x26) = .ok registers ∧
      WalkersAgree (oneRecordTask 0x40 0x26) registers := by
  obtain ⟨registers, hok, -⟩ := walkRegisters_oneRecordTask 0x40 0x26 (by decide +kernel)
  exact ⟨registers, hok, (walkers_agree_iff _ registers (by decide) hok).mpr (Or.inl (by decide +kernel))⟩

/-- Task id 3 without an extra word: the word-0 walkers skip the record header and read its
value as a header. -/
theorem walkers_disagree_on_task_three : ∃ registers,
    Hwx.walkRegisters (oneRecordTask 3 0x26) = .ok registers ∧ registers 0x13810 = some 1792 ∧
      ¬ WalkersAgree (oneRecordTask 3 0x26) registers := by
  obtain ⟨registers, hok, hregisters⟩ := walkRegisters_oneRecordTask 3 0x26 (by decide +kernel)
  have hvalue : registers 0x13810 = some 1792 := by
    rw [hregisters]
    decide +kernel
  refine ⟨registers, hok, hvalue, fun hagree => ?_⟩
  have hruntime := hagree.1
  rw [walkRegisters_eq (by decide)] at hruntime
  have hnone : registers 0x13810 = none := by
    rw [← Except.ok.inj hruntime]
    decide +kernel
  rw [hvalue] at hnone
  cases hnone

end AneLinux.Staged
