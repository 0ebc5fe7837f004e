import AneLinux.Support.Python
import AneLinux.Support.Closure
import Mathlib.Order.Bounds.Basic

/-!
# Finding the tasks of a text section

A task base is found in one of three ways: its first record header is a write to register
`0x01F800`, a found task links to it by the word at `+0x1C`, or it links forward to a found
task whose 24-bit id is the next one. The search runs a forward chase from every record and
then a backward worklist, and returns the least set with these three closure properties,
on any stream, cyclic links included.
-/

namespace AneLinux.Hwx

open AneLinux.Support

/-- The word is a register write to `0x01F800`, whatever its count. -/
def isTaskRecord (word : ℕ) : Bool := word &&& 0xFFFFFF == 0x01F800

/-- The bytes of a task header together with its first record header. -/
def taskHeaderSize : ℕ := 0x2C

/-- The bases of the aligned record headers among the given word offsets. -/
def collectSeeds (data : Bytes) (contentOffset : ℕ) : List ℕ → Py (List ℕ)
  | [] => return []
  | offset :: rest => do
    let word ← unpackU32 data offset
    let seeds ← collectSeeds data contentOffset rest
    return if isTaskRecord word ∧ (offset - contentOffset - 0x28) % 0x100 = 0 then
      (offset - contentOffset - 0x28) :: seeds else seeds

/-- Follow the links from one seed; `chain` is visited by this chase, `tasks` by any. -/
def followLinks (data : Bytes) (contentOffset contentSize : ℕ) (chain tasks : List ℕ) (current : ℕ) :
    Py (List ℕ) :=
  if current ∉ chain ∧ current + taskHeaderSize ≤ contentSize then do
    let nextPointer ← unpackU32 data (contentOffset + current + 0x1C)
    if nextPointer = 0 ∨ contentSize < nextPointer + taskHeaderSize then
      return tasks.insert current
    else if nextPointer % 0x100 ≠ 0 then
      raiseValue ("unaligned task link " ++ hex nextPointer)
    else
      followLinks data contentOffset contentSize (current :: chain) (tasks.insert current) nextPointer
  else
    return tasks
termination_by unvisited contentSize chain
decreasing_by
  have hvisit : current ∉ chain ∧ current + taskHeaderSize ≤ contentSize := by assumption
  unfold taskHeaderSize at hvisit
  exact unvisited_cons_lt (by omega) hvisit.1

/-- The edges from a task to the aligned bases that link forward to it with the preceding id. -/
def predecessorEdges (data : Bytes) (contentOffset contentSize : ℕ) : List ℕ → Py (List (ℕ × ℕ))
  | [] => return []
  | current :: rest => do
    let nextPointer ← unpackU32 data (contentOffset + current + 0x1C)
    if nextPointer ≤ current ∨ nextPointer % 0x100 ≠ 0 ∨ contentSize < nextPointer + taskHeaderSize then
      predecessorEdges data contentOffset contentSize rest
    else do
      let currentId ← unpackU32 data (contentOffset + current)
      let nextId ← unpackU32 data (contentOffset + nextPointer)
      let edges ← predecessorEdges data contentOffset contentSize rest
      return if nextId &&& 0xFFFFFF = (currentId &&& 0xFFFFFF) + 1 then (nextPointer, current) :: edges
        else edges

/-- The search inside a checked range. -/
def searchTasks (data : Bytes) (contentOffset contentSize : ℕ) : Py (List ℕ) := do
  let seeds ← collectSeeds data contentOffset
    (range (contentOffset + 0x28) (contentOffset + contentSize - 3) 4)
  let tasks ← (seeds.insertionSort (· ≤ ·)).foldlM
    (fun tasks seed => followLinks data contentOffset contentSize [] tasks seed) []
  let edges ← predecessorEdges data contentOffset contentSize
    (range 0 (contentSize + 1 - taskHeaderSize) 0x100)
  return (closure edges tasks tasks).insertionSort (· ≤ ·)

/-- Every linked task descriptor base of one text section, in increasing order. -/
def findTaskOffsets (data : Bytes) (contentOffset contentSize : ℤ) : Py (List ℕ) :=
  if contentOffset < 0 ∨ contentSize < 0 then
    raiseValue "task search range must be non-negative"
  else if (data.size : ℤ) < contentOffset + contentSize then
    raiseValue "task search range exceeds the HWX"
  else
    searchTasks data contentOffset.toNat contentSize.toNat

/-! ## The task relations -/

section Relations

variable (data : Bytes) (contentOffset contentSize : ℕ)

/-- The link word of a base. -/
def nextPointer (base : ℕ) : ℕ := data.u32 (contentOffset + base + 0x1C)

/-- The 24-bit id of a base. -/
def taskId (base : ℕ) : ℕ := data.u32 (contentOffset + base) &&& 0xFFFFFF

/-- A base whose header and first record header lie in the section. -/
def InSection (base : ℕ) : Prop := base + taskHeaderSize ≤ contentSize

/-- An aligned base whose first record is a write to `0x01F800`. -/
def TaskRecord (base : ℕ) : Prop :=
  base % 0x100 = 0 ∧ InSection contentSize base ∧
    isTaskRecord (data.u32 (contentOffset + base + 0x28)) = true

/-- A nonzero link from one base to another inside the section. -/
def TaskLink (base next : ℕ) : Prop :=
  InSection contentSize base ∧ InSection contentSize next ∧ next ≠ 0 ∧
    next = nextPointer data contentOffset base

/-- An aligned base that links forward to an aligned one with the next id. -/
def TaskPredecessor (next base : ℕ) : Prop :=
  base % 0x100 = 0 ∧ InSection contentSize base ∧ InSection contentSize next ∧ base < next ∧
    next % 0x100 = 0 ∧ next = nextPointer data contentOffset base ∧
    taskId data contentOffset next = taskId data contentOffset base + 1

/-- A set of bases with the three closure properties of a task set. -/
structure TaskClosed (tasks : Set ℕ) : Prop where
  records : ∀ base, TaskRecord data contentOffset contentSize base → base ∈ tasks
  links : ∀ base ∈ tasks, ∀ next, TaskLink data contentOffset contentSize base next → next ∈ tasks
  predecessors : ∀ next ∈ tasks, ∀ base,
    TaskPredecessor data contentOffset contentSize next base → base ∈ tasks

/-- A base with a link to an unaligned address inside the section. -/
def UnalignedLink (base : ℕ) : Prop :=
  ∃ next, TaskLink data contentOffset contentSize base next ∧ next % 0x100 ≠ 0

/-- Some base reachable by links from a task record has an unaligned link. -/
def ReachesUnalignedLink : Prop :=
  ∃ seed base, TaskRecord data contentOffset contentSize seed ∧
    Relation.ReflTransGen (TaskLink data contentOffset contentSize) seed base ∧
    UnalignedLink data contentOffset contentSize base

end Relations

end AneLinux.Hwx
