import AneLinux.Hwx.Registers

/-!
# The strict task-stream parser and its gap-zero mutation

A task stream is a chain of task descriptors linked by the word at `+0x1C`. `parseStream`
follows the chain from offset 0, parses the records of every task and asserts that they are
well formed. `zeroGaps` clears the bytes between a task's record end and the next task base,
then parses again and compares.

The chain and its visited set always hold the same offsets, so one list stands for both. The
parser places the first record by the low bits of header word 0.
-/

namespace AneLinux.Staged

open AneLinux.Support AneLinux.Hwx

/-- One extra header word when header word 0 has low bits `0b11`. -/
def extraWords (head : ℕ) : ℕ := if head &&& 0x3 = 0x3 then 4 else 0

/-- The chain loop: `chain` holds the bases visited so far, in order. -/
def walkChainLoop (content : Bytes) (tskSize : ℕ) (tdCount : ℤ) (chain : List ℕ) (offset : ℕ) :
    Py (List ℕ) :=
  if offset ∉ chain ∧ (chain.length : ℤ) < tdCount then do
    let nxt ← unpackU32 content (offset + 0x1C)
    if nxt = 0 then
      return chain ++ [offset]
    else if nxt % 0x100 ≠ 0 then
      .error (.assertionError ("unaligned task link " ++ hex nxt))
    else if tskSize < nxt + 0x20 then
      .error (.assertionError ("task link " ++ hex nxt ++ " past stream"))
    else
      walkChainLoop content tskSize tdCount (chain ++ [offset]) nxt
  else
    return chain
termination_by (tdCount - chain.length).toNat
decreasing_by simp only [List.length_append, List.length_singleton]; omega

/-- Task bases in next-pointer order, starting at 0. -/
def walkChain (content : Bytes) (tskSize : ℕ) (tdCount : ℤ) : Py (List ℕ) :=
  walkChainLoop content tskSize tdCount [] 0

/-- The records of one task, with the position its walk stopped at. -/
structure TaskParse where
  records : List Record
  stop : ℕ
  terminated : Bool
  truncated : Bool
deriving DecidableEq, Repr

/-- The record loop of `parseTask`; `stop` is the end of the last complete record. -/
def parseTaskLoop (content : Bytes) (base bound : ℕ) (records : List Record) (stop pos : ℕ) :
    Py TaskParse :=
  if base + pos + 4 ≤ content.size ∧ pos + 4 ≤ bound then do
    let word ← unpackU32 content (base + pos)
    if word = 0 then
      return ⟨records, pos, true, false⟩
    else if bound < pos + 4 + 4 * recordCount word ∨
        content.size < base + (pos + 4) + 4 * recordCount word then
      return ⟨records, stop, false, true⟩
    else do
      let values ← (List.range (recordCount word)).mapM fun i =>
        unpackU32 content (base + (pos + 4) + 4 * i)
      parseTaskLoop content base bound (records ++ [⟨pos, recordRegister word, values⟩])
        (pos + 4 + 4 * recordCount word) (pos + 4 + 4 * recordCount word)
  else
    return ⟨records, stop, false, false⟩
termination_by bound - pos

/-- Parse one task's records; `bound` limits the position relative to `base`. -/
def parseTask (content : Bytes) (base bound : ℕ) : Py TaskParse := do
  let head ← unpackU32 content base
  parseTaskLoop content base bound [] (h13HeaderSize + extraWords head)
    (h13HeaderSize + extraWords head)

/-- One parsed task of a stream. -/
structure Task where
  base : ℕ
  records : List Record
  stop : ℕ
  terminated : Bool
deriving DecidableEq, Repr

/-- Parse and assert the tasks of a chain; each is bounded by its successor's base. -/
def parseTasks (content : Bytes) : List ℕ → Py (List Task)
  | [] => return []
  | base :: rest => do
    let bound := rest.headD content.size
    let task ← parseTask content base bound
    if task.truncated then
      .error (.assertionError ("task at " ++ hex base ++ ": record walk truncated"))
    else if ¬ (task.terminated = true ∨ bound ≤ task.stop) then
      .error (.assertionError ("task at " ++ hex base ++
        ": no zero terminator and bound-terminated is short"))
    else if task.stop < h13HeaderSize then
      .error (.assertionError ("task at " ++ hex base ++ ": records end inside the header"))
    else do
      let tasks ← parseTasks content rest
      return ⟨base, task.records, task.stop, task.terminated⟩ :: tasks

/-- Parse and assert the full task stream. -/
def parseStream (content : Bytes) (tdCount : ℤ) : Py (List Task) := do
  let bases ← walkChain content content.size tdCount
  if (bases.length : ℤ) ≠ tdCount then
    .error (.assertionError ("chain reached " ++ toString bases.length ++
      " tasks, header declares " ++ toString tdCount))
  else
    parseTasks content bases

/-- Pair each base of a sorted list with the next one, and the last with the end of content. -/
def slotBounds (size : ℕ) : List ℕ → List (ℕ × ℕ)
  | [] => []
  | base :: rest => (base, rest.headD size) :: slotBounds size rest

/-- The slots of a set of task bases, in address order. -/
def slots (size : ℕ) (bases : List ℕ) : List (ℕ × ℕ) :=
  slotBounds size (bases.insertionSort (· ≤ ·))

/-- Clear the gap of every task; a gap of negative length is refused by `bytes`. -/
def zeroGapsLoop (bounds : List (ℕ × ℕ)) : List Task → Bytes → Py Bytes
  | [], mutated => return mutated
  | task :: rest, mutated => do
    let limit ← lookup bounds task.base (toString task.base)
    if limit < task.base + task.stop then
      raiseValue "negative count"
    else
      zeroGapsLoop bounds rest
        (mutated.splice (task.base + task.stop) limit (Bytes.zeros (limit - (task.base + task.stop))))

/-- Compare the tasks before and after the mutation. -/
def assertSameTasks : List (Task × Task) → Py Unit
  | [] => return ()
  | (before, after) :: rest =>
    if before.records ≠ after.records then
      .error (.assertionError ("task " ++ toString before.base ++ ": records changed after gap zeroing"))
    else if before.stop ≠ after.stop then
      .error (.assertionError ("task " ++ toString before.base ++ ": record end moved"))
    else
      assertSameTasks rest

/-- Compare the header and record bytes of every task. -/
def assertSameBytes (content mutated : Bytes) : List Task → Py Unit
  | [] => return ()
  | task :: rest =>
    if content.slice task.base (task.base + task.stop) ≠
        mutated.slice task.base (task.base + task.stop) then
      .error (.assertionError ("task " ++ hex task.base ++ ": record bytes modified"))
    else
      assertSameBytes content mutated rest

/-- The mutated stream, the tasks before and the tasks after. -/
def zeroGaps (content : Bytes) (tdCount : ℤ) : Py (Bytes × List Task × List Task) := do
  let tasks ← parseStream content tdCount
  let mutated ← zeroGapsLoop (slots content.size (tasks.map Task.base)) tasks content
  let after ← parseStream mutated tdCount
  assertSameTasks (tasks.zip after)
  assertSameBytes content mutated tasks
  return (mutated, tasks, after)

/-- Where the strict parser looks for the first record. -/
def firstParsedRecord (content : Bytes) (base : ℕ) : ℕ := 40 + extraWords (content.u32 base)

/-- The limit of a task's record walk: its bound, or the end of content. -/
def taskLimit (content : Bytes) (base bound : ℕ) : ℕ := min bound (content.size - base)

/-- The word reader of one task. -/
def taskWord (content : Bytes) (base : ℕ) : ℕ → ℕ := fun p => content.u32 (base + p)

/-- The strict parser's record walk of one task. -/
def parsedWalk (content : Bytes) (base bound : ℕ) : RecordWalk :=
  walkRecords (taskWord content base) (taskLimit content base bound) (firstParsedRecord content base)

/-- The parse that reports a record walk. -/
def TaskParse.ofWalk (records : List Record) (walk : RecordWalk) : TaskParse :=
  ⟨records ++ walk.records, walk.stop, decide (walk.reason = .terminator),
    decide (walk.reason = .truncated)⟩

theorem mapM_unpackU32 {content : Bytes} {offset count : ℕ} (h : offset + 4 * count ≤ content.size) :
    (List.range count).mapM (fun i => unpackU32 content (offset + 4 * i)) =
      .ok ((List.range count).map fun i => content.u32 (offset + 4 * i)) := by
  have hread : ∀ is : List ℕ, (∀ i ∈ is, i < count) →
      is.mapM (fun i => unpackU32 content (offset + 4 * i)) =
        .ok (is.map fun i => content.u32 (offset + 4 * i)) := by
    intro is his
    induction is with
    | nil => rfl
    | cons i rest ih =>
      have hi := his i List.mem_cons_self
      rw [List.mapM_cons, unpackU32_of_le (by omega), ok_bind,
        ih fun j hj => his j (List.mem_cons_of_mem i hj)]
      rfl
  exact hread _ fun i hi => List.mem_range.mp hi

/-- The strict parser's loop is the record walk inside its own limit. -/
theorem parseTaskLoop_eq {content : Bytes} {base bound : ℕ} (hbase : base ≤ content.size)
    (records : List Record) (pos : ℕ) :
    parseTaskLoop content base bound records pos pos = .ok (TaskParse.ofWalk records
      (walkRecords (taskWord content base) (taskLimit content base bound) pos)) := by
  have hread {pos : ℕ} (h : base + pos + 4 ≤ content.size) :
      unpackU32 content (base + pos) = .ok (taskWord content base pos) := unpackU32_of_le h
  fun_induction walkRecords (taskWord content base) (taskLimit content base bound) pos
    generalizing records with
  | case1 pos hle hzero =>
    rw [taskLimit] at hle
    rw [parseTaskLoop, if_pos (by omega), hread (by omega), ok_bind, if_pos hzero]
    simp [TaskParse.ofWalk, pure, Except.pure]
  | case2 pos hle hzero hcut =>
    rw [taskLimit] at hle hcut
    rw [parseTaskLoop, if_pos (by omega), hread (by omega), ok_bind, if_neg hzero,
      if_pos (by omega)]
    simp [TaskParse.ofWalk, pure, Except.pure]
  | case3 pos hle hzero hfit rest ih =>
    rw [taskLimit] at hle hfit
    have hvalues (count : ℕ) : (List.range count).map (fun i => content.u32 (base + (pos + 4) + 4 * i)) =
        (List.range count).map fun i => taskWord content base (pos + 4 + 4 * i) := by
      simp only [taskWord, Nat.add_assoc]
    rw [parseTaskLoop, if_pos (by omega), hread (by omega), ok_bind, if_neg hzero,
      if_neg (by omega), mapM_unpackU32 (by omega), ok_bind, hvalues, ih]
    simp only [TaskParse.ofWalk, List.append_assoc, List.singleton_append]
    rfl
  | case4 pos hle =>
    rw [taskLimit] at hle
    rw [parseTaskLoop, if_neg (by omega)]
    simp [TaskParse.ofWalk, pure, Except.pure]

/-- The strict parser computes the record walk from its own first record. -/
theorem parseTask_eq {content : Bytes} {base bound : ℕ} (h : base + 4 ≤ content.size) :
    parseTask content base bound = .ok (TaskParse.ofWalk [] (parsedWalk content base bound)) := by
  rw [parseTask, unpackU32_of_le h, ok_bind]
  exact parseTaskLoop_eq (by omega) [] _

end AneLinux.Staged
