import Mathlib.Algebra.Order.Group.Multiset

/-!
# What a program has in its custody

A program takes things from a system and gives them back. A taking may fail, at any call the system likes, and a thing
that is given back must be in custody, or the program has misused it. `Settles` says of a step what it leaves in
custody beside everything it does not know of, so that steps compose.
-/

namespace AneLinux.Support

/-- The number of calls so far, what is in custody, and whether something was given back that was not. -/
structure Custody (ρ : Type) where
  calls : ℕ
  held : Multiset ρ
  misused : Bool

/-- A step of a program. -/
abbrev Step (ρ : Type) := StateM (Custody ρ)

namespace Custody

variable {ρ α β : Type}

/-- A call that takes nothing; `succeeds` says which calls succeed. -/
def ask (succeeds : ℕ → Bool) : Step ρ Bool := fun w => (succeeds w.calls, { w with calls := w.calls + 1 })

/-- Take a thing; it is known by the number of the call. -/
def take (succeeds : ℕ → Bool) (thing : ℕ → ρ) : Step ρ (Option ℕ) := fun w =>
  if succeeds w.calls then (some w.calls, { w with calls := w.calls + 1, held := thing w.calls ::ₘ w.held })
  else (none, { w with calls := w.calls + 1 })

/-- Give a thing back. -/
def give [DecidableEq ρ] (thing : ρ) : Step ρ Unit := fun w =>
  ((), if thing ∈ w.held then { w with held := w.held.erase thing } else { w with misused := true })

/-- A program without misuse that holds some things. -/
def Has (held : Multiset ρ) (w : Custody ρ) : Prop := w.held = held ∧ w.misused = false

/-- A step that starts with some things in custody, among others, ends with those that its result says. -/
def Settles (before : Multiset ρ) (step : Step ρ α) (after : α → Multiset ρ) : Prop :=
  ∀ others w, Has (before + others) w → Has (after (step w).1 + others) (step w).2

variable {before mid : Multiset ρ} {step : Step ρ α} {after : α → Multiset ρ} {f : α → Step ρ β}
  {post : β → Multiset ρ}

theorem settles_pure {a : α} (h : after a = before) : Settles before (pure a : Step ρ α) after :=
  fun _ _ hw => h ▸ hw

/-- Sequencing. -/
theorem Settles.bind (hstep : Settles before step after) (hf : ∀ a, Settles (after a) (f a) post) :
    Settles before (step >>= f) post := fun others w h => hf _ others _ (hstep others w h)

/-- What a step does not know of stays in custody. -/
theorem Settles.frame (h : Settles before step after) (kept : Multiset ρ) :
    Settles (before + kept) step fun a => after a + kept := by
  intro others w hw
  rw [add_assoc] at hw ⊢
  exact h _ w hw

theorem Settles.congr (h : Settles before step after) {before' : Multiset ρ} (hbefore : before' = before) :
    Settles before' step after := hbefore ▸ h

/-- Sequencing beside things that the first step does not know of. -/
theorem Settles.bind_frame (hstep : Settles before step after) (kept : Multiset ρ)
    (hf : ∀ a, Settles (after a + kept) (f a) post) : Settles (before + kept) (step >>= f) post :=
  (hstep.frame kept).bind hf

theorem settles_ask (succeeds : ℕ → Bool) : Settles 0 (ask succeeds : Step ρ Bool) fun _ => 0 := fun _ _ h => h

/-- What is taken is held. -/
theorem settles_take (succeeds : ℕ → Bool) (thing : ℕ → ρ) :
    Settles 0 (take succeeds thing) fun taken => taken.elim 0 fun n => {thing n} := by
  rintro others w ⟨hheld, hmisused⟩
  rw [zero_add] at hheld
  rw [take]
  split
  · exact ⟨by rw [hheld]; rfl, hmisused⟩
  · exact ⟨by rw [hheld]; exact (zero_add _).symm, hmisused⟩

/-- Whatever the calls answer, the result of a step satisfies a predicate. -/
def Returns (step : Step ρ α) (P : α → Prop) : Prop := ∀ w, P (step w).1

theorem returns_any (step : Step ρ α) : Returns step fun _ => True := fun _ => trivial

theorem returns_pure {P : α → Prop} {a : α} (h : P a) : Returns (pure a : Step ρ α) P := fun _ => h

/-- What the first step returns, the second may use. -/
theorem Returns.bind {P : α → Prop} {Q : β → Prop} (hstep : Returns step P) (hf : ∀ a, P a → Returns (f a) Q) :
    Returns (step >>= f) Q := fun w => hf _ (hstep w) _

/-- Sequencing after a step whose result does not matter. -/
theorem returns_bind {Q : β → Prop} (hf : ∀ a, Returns (f a) Q) : Returns (step >>= f) Q := fun _ => hf _ _

theorem returns_ask {succeeds : ℕ → Bool} (h : ∀ n, succeeds n = true) :
    Returns (ask succeeds : Step ρ Bool) fun answered => answered = true := fun _ => h _

/-- Where every call succeeds, a thing is taken. -/
theorem returns_take {succeeds : ℕ → Bool} (h : ∀ n, succeeds n = true) (thing : ℕ → ρ) :
    Returns (take succeeds thing) fun taken => taken.isSome := by
  intro w
  rw [take, if_pos (h _)]
  rfl

/-- Sequencing with what is known of the result. -/
theorem Settles.bind_returns {P : α → Prop} (hstep : Settles before step after) (hresult : Returns step P)
    (hf : ∀ a, P a → Settles (after a) (f a) post) : Settles before (step >>= f) post :=
  fun others w h => hf _ (hresult w) others _ (hstep others w h)

/-- A step that may end the program; a result that does says nothing of what is in custody. -/
def Survives (before : Multiset ρ) (step : Step ρ α) (after : α → Option (Multiset ρ)) : Prop :=
  ∀ others w, Has (before + others) w → ∀ held, after (step w).1 = some held → Has (held + others) (step w).2

section Survives

variable {last : β → Option (Multiset ρ)}

theorem survives_pure {b : β} (h : ∀ held, last b = some held → held = before) :
    Survives before (pure b : Step ρ β) last := fun _ _ hw held hheld => h held hheld ▸ hw

/-- Sequencing after a step that does not end the program. -/
theorem Settles.bind_survives (hstep : Settles before step after) (kept : Multiset ρ)
    (hf : ∀ a, Survives (after a + kept) (f a) last) : Survives (before + kept) (step >>= f) last :=
  fun others w h => hf _ others _ (hstep.frame kept others w h)

/-- Sequencing after one that may. -/
theorem Survives.bind {after : α → Option (Multiset ρ)} {P : α → Prop} (hstep : Survives before step after)
    (hresult : Returns step P) (kept : Multiset ρ)
    (hf : ∀ a held, P a → after a = some held → Survives (held + kept) (f a) last)
    (hend : ∀ a, after a = none → ∀ w, last (f a w).1 = none) : Survives (before + kept) (step >>= f) last := by
  intro others w h held hheld
  cases hafter : after (step w).1 with
  | none =>
    rw [show last ((step >>= f) w).1 = none from hend _ hafter _] at hheld
    nomatch hheld
  | some mid =>
    rw [add_assoc] at h
    have hmid := hstep _ w h mid hafter
    rw [← add_assoc] at hmid
    exact hf _ mid (hresult w) hafter others _ hmid held hheld

theorem Survives.congr {after : α → Option (Multiset ρ)} (h : Survives before step after) {before' : Multiset ρ}
    (hbefore : before' = before) : Survives before' step after := hbefore ▸ h

end Survives

/-- What is in custody can be given back. -/
theorem settles_give [DecidableEq ρ] (thing : ρ) : Settles {thing} (give thing) fun _ => 0 := by
  rintro others w ⟨hheld, hmisused⟩
  have hmem : thing ∈ w.held := by
    rw [hheld]
    exact Multiset.mem_add.mpr (.inl (Multiset.mem_singleton_self _))
  rw [give, if_pos hmem]
  refine ⟨?_, hmisused⟩
  rw [hheld, Multiset.singleton_add, Multiset.erase_cons_head, zero_add]

end Custody

end AneLinux.Support
