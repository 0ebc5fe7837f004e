import Mathlib.Tactic.Basic

/-!
# Computations that leave a log

A C function is modelled with the memory accesses it makes: a computation has a log of events
and either a value or an early return. Sequencing appends the logs and stops at the first
early return. `Safe` states what every event of a computation satisfies together with what
its value satisfies, so that a bounds argument is carried through the code statement by
statement.
-/

namespace AneLinux.Support

universe u v w

/-- A computation: the events it logs and how it ends. -/
structure Logged (ι : Type u) (ε : Type v) (α : Type w) where
  log : List ι
  outcome : Except ε α

namespace Logged

variable {ι : Type u} {ε : Type v} {α β : Type w}

/-- Return a value. -/
def ret (a : α) : Logged ι ε α := ⟨[], .ok a⟩

/-- Return early. -/
def fail (e : ε) : Logged ι ε α := ⟨[], .error e⟩

/-- Log one event and return a value. -/
def emit (event : ι) (a : α) : Logged ι ε α := ⟨[event], .ok a⟩

/-- One computation after another. -/
def andThen (x : Logged ι ε α) (f : α → Logged ι ε β) : Logged ι ε β :=
  match x.outcome with
  | .ok a => ⟨x.log ++ (f a).log, (f a).outcome⟩
  | .error e => ⟨x.log, .error e⟩

instance : Monad (Logged ι ε) where
  pure := ret
  bind := andThen

/-- Every event is allowed, and a value that is returned satisfies the postcondition. -/
def Safe (allowed : ι → Prop) (post : α → Prop) (x : Logged ι ε α) : Prop :=
  (∀ event ∈ x.log, allowed event) ∧ ∀ a, x.outcome = .ok a → post a

variable {x : Logged ι ε α} {f : α → Logged ι ε β} {allowed : ι → Prop} {post mid : α → Prop}

@[simp] theorem log_pure (a : α) : (pure a : Logged ι ε α).log = [] := rfl

@[simp] theorem outcome_pure (a : α) : (pure a : Logged ι ε α).outcome = .ok a := rfl

@[simp] theorem log_fail (e : ε) : (fail e : Logged ι ε α).log = [] := rfl

@[simp] theorem outcome_fail (e : ε) : (fail e : Logged ι ε α).outcome = .error e := rfl

@[simp] theorem log_emit (event : ι) (a : α) : (emit event a : Logged ι ε α).log = [event] := rfl

@[simp] theorem outcome_emit (event : ι) (a : α) : (emit event a : Logged ι ε α).outcome = .ok a := rfl

/-- Logging an event first. -/
@[simp] theorem emit_bind (event : ι) (a : α) :
    (emit event a >>= f) = ⟨event :: (f a).log, (f a).outcome⟩ := rfl

@[simp] theorem fail_bind (e : ε) : ((fail e : Logged ι ε α) >>= f) = fail e := rfl

/-- A value of a sequence comes from values of its parts. -/
theorem outcome_bind_eq_ok {b : β} : (x >>= f).outcome = .ok b ↔
    ∃ a, x.outcome = .ok a ∧ (f a).outcome = .ok b := by
  change (andThen x f).outcome = .ok b ↔ _
  unfold andThen
  cases hx : x.outcome with
  | ok a => simp
  | error e => simp

/-- The events of a sequence whose first part returns a value. -/
theorem log_bind_of_ok {a : α} (h : x.outcome = .ok a) : (x >>= f).log = x.log ++ (f a).log := by
  change (andThen x f).log = _
  unfold andThen
  rw [h]

/-- The events of a sequence whose first part returns early. -/
theorem log_bind_of_error {e : ε} (h : x.outcome = .error e) : (x >>= f).log = x.log := by
  change (andThen x f).log = _
  unfold andThen
  rw [h]

/-- An early return of the first part ends the sequence. -/
theorem outcome_bind_of_error {e : ε} (h : x.outcome = .error e) :
    (x >>= f).outcome = .error e := by
  change (andThen x f).outcome = _
  unfold andThen
  rw [h]

/-- The outcome of a sequence whose first part returns a value. -/
theorem outcome_bind_of_ok {a : α} (h : x.outcome = .ok a) : (x >>= f).outcome = (f a).outcome := by
  change (andThen x f).outcome = _
  unfold andThen
  rw [h]

/-- Returning a function of a value logs nothing more. -/
@[simp] theorem log_bind_pure (g : α → β) : (x >>= fun a => pure (g a)).log = x.log := by
  cases hx : x.outcome with
  | ok a => rw [log_bind_of_ok hx, log_pure, List.append_nil]
  | error e => rw [log_bind_of_error hx]

theorem Safe.pure {a : α} (h : post a) : Safe allowed post (pure a : Logged ι ε α) := by
  refine ⟨by simp, fun b hb => ?_⟩
  cases hb
  exact h

theorem Safe.fail {e : ε} : Safe allowed post (fail e : Logged ι ε α) :=
  ⟨by simp, fun _ h => by simp at h⟩

/-- Logging an allowed event first. -/
theorem Safe.emit_bind {event : ι} {a : α} {post' : β → Prop} (hevent : allowed event)
    (hf : Safe allowed post' (f a)) : Safe allowed post' (Logged.emit event a >>= f) := by
  rw [Logged.emit_bind]
  refine ⟨fun e he => ?_, hf.2⟩
  rcases List.mem_cons.mp he with rfl | he
  · exact hevent
  · exact hf.1 e he

/-- Sequencing. -/
theorem Safe.bind {post' : β → Prop} (hx : Safe allowed mid x)
    (hf : ∀ a, mid a → Safe allowed post' (f a)) : Safe allowed post' (x >>= f) := by
  change Safe allowed post' (andThen x f)
  unfold andThen
  cases hout : x.outcome with
  | ok a =>
    have hfa := hf a (hx.2 a hout)
    refine ⟨fun event hevent => ?_, hfa.2⟩
    rcases List.mem_append.mp hevent with h | h
    · exact hx.1 event h
    · exact hfa.1 event h
  | error e => exact ⟨hx.1, fun b hb => by simp at hb⟩

/-- A value behind a guard that returns early. -/
theorem outcome_guard_eq_ok {c : Prop} [Decidable c] {e : ε} {a : α} :
    (if c then fail e else x).outcome = .ok a ↔ ¬c ∧ x.outcome = .ok a := by
  by_cases hc : c
  · simp [hc]
  · simp [hc]

/-- A guard that returns early. -/
theorem Safe.guard {c : Prop} [Decidable c] {e : ε} (h : ¬c → Safe allowed post x) :
    Safe allowed post (if c then Logged.fail e else x) := by
  by_cases hc : c
  · rw [if_pos hc]
    exact Safe.fail
  · rw [if_neg hc]
    exact h hc

/-- Fewer events may be allowed than are asked for. -/
theorem Safe.weaken {allowed' : ι → Prop} (h : Safe allowed post x) (hevent : ∀ e, allowed e → allowed' e) :
    Safe allowed' post x :=
  ⟨fun event he => hevent event (h.1 event he), h.2⟩

end Logged

end AneLinux.Support
