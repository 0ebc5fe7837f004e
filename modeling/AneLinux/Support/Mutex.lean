import Mathlib.Tactic.Basic

/-!
# Threads that share a mutex

A thread holds the mutex at some of its program counters. When every step of a thread leaves the mutex
alone, takes it when it is free, or gives it up, the owner is always the thread whose counter says so. As
long as one thread holds the mutex, no step of another one changes that.
-/

namespace AneLinux.Support

variable {T : Type*}

/-- The owner is the thread that holds the mutex by its counter. -/
def MutexAgrees (holds : T → Bool) (owner : Option T) : Prop := ∀ thread, holds thread = true ↔ owner = some thread

/-- What one step of a thread does to its hold on the mutex and to the owner. -/
inductive MutexStep (thread : T) : Bool → Bool → Option T → Option T → Prop
  | stay (held : Bool) (owner : Option T) : MutexStep thread held held owner owner
  | take : MutexStep thread false true none (some thread)
  | give (owner : Option T) : MutexStep thread true false owner none

variable {thread : T} {holds holds' : T → Bool} {owner owner' : Option T}

/-- A step of one thread keeps the agreement. -/
theorem MutexAgrees.step (h : MutexAgrees holds owner)
    (hstep : MutexStep thread (holds thread) (holds' thread) owner owner')
    (hother : ∀ other, other ≠ thread → holds' other = holds other) : MutexAgrees holds' owner' := by
  intro other
  by_cases hsame : other = thread
  · subst hsame
    have hagrees := h other
    generalize holds other = held at hstep hagrees
    generalize holds' other = held' at hstep
    cases hstep with
    | stay => exact hagrees
    | take => exact ⟨fun _ => rfl, fun _ => rfl⟩
    | give =>
      constructor
      · intro hheld
        cases hheld
      · intro hnone
        cases hnone
  · have hagrees := h other
    have hagreesThread := h thread
    rw [hother other hsame]
    generalize holds thread = held at hstep hagreesThread
    generalize holds' thread = held' at hstep
    cases hstep with
    | stay => exact hagrees
    | take =>
      refine hagrees.trans ⟨fun hnone => ?_, fun hsome => ?_⟩
      · cases hnone
      · exact (hsame (Option.some.inj hsome).symm).elim
    | give =>
      refine hagrees.trans ⟨fun howner => ?_, fun hnone => ?_⟩
      · have hthread := hagreesThread.mp rfl
        exact (hsame (Option.mem_unique howner hthread)).elim
      · cases hnone

/-- While another thread owns the mutex, a step of a thread leaves the owner and does not take the mutex. -/
theorem MutexAgrees.owner_stays (h : MutexAgrees holds owner) {other : T} (howner : owner = some other)
    (hne : other ≠ thread) (hstep : MutexStep thread (holds thread) (holds' thread) owner owner') :
    owner' = some other := by
  have hthread : holds thread = false := by
    rw [Bool.eq_false_iff]
    intro hheld
    exact hne (Option.mem_unique howner ((h thread).mp hheld))
  rw [hthread] at hstep
  generalize holds' thread = held' at hstep
  cases hstep with
  | stay => exact howner
  | take => cases howner

end AneLinux.Support
