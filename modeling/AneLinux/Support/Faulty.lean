import AneLinux.Support.Python

/-!
# Computations over calls that may raise

A computation makes outside calls one after another. Which of them raise is up to the
environment: it is a function of the number of the call. A computation `Yields` a value when, in
every environment, it either returns that value or raises because the environment made some call
raise. What a computation yields is then a fact of exact arithmetic, and the environment only
decides whether the caller sees it.
-/

namespace AneLinux.Support

universe u

/-- A computation: from the environment and the number of the next call to a value or an exception. -/
def Faulty (α : Type u) := (ℕ → Option PyError) → ℕ → Py (α × ℕ)

namespace Faulty

variable {α β γ : Type u}

/-- Return a value. -/
def ret (a : α) : Faulty α := fun _ n => .ok (a, n)

/-- An outside call with an exact result. -/
def call (a : α) : Faulty α := fun fails n =>
  match fails n with
  | some e => .error e
  | none => .ok (a, n + 1)

/-- One computation after another. -/
def andThen (m : Faulty α) (f : α → Faulty β) : Faulty β := fun fails n =>
  match m fails n with
  | .ok (a, n') => f a fails n'
  | .error e => .error e

instance : Monad Faulty where
  pure := ret
  bind := andThen

/-- In every environment the computation returns the value, or raises because a call raised. -/
def Yields (m : Faulty α) (a : α) : Prop :=
  ∀ fails n, (∃ n', m fails n = .ok (a, n')) ∨ (∃ e, m fails n = .error e) ∧ ∃ k, fails k ≠ none

theorem Yields.pure (a : α) : Yields (pure a : Faulty α) a := fun _ n => .inl ⟨n, rfl⟩

/-- An outside call yields its exact result. -/
theorem Yields.call (a : α) : Yields (call a) a := by
  intro fails n
  unfold Faulty.call
  cases h : fails n with
  | none => exact .inl ⟨n + 1, rfl⟩
  | some e => exact .inr ⟨⟨e, rfl⟩, n, by simp [h]⟩

/-- Sequencing. -/
theorem Yields.bind {m : Faulty α} {f : α → Faulty β} {a : α} {b : β} (hm : Yields m a) (hf : Yields (f a) b) :
    Yields (m >>= f) b := by
  intro fails n
  change (∃ n', andThen m f fails n = .ok (b, n')) ∨ (∃ e, andThen m f fails n = .error e) ∧ _
  unfold andThen
  rcases hm fails n with ⟨n', hok⟩ | ⟨⟨e, herror⟩, hfails⟩
  · rw [hok]
    exact hf fails n'
  · rw [herror]
    exact .inr ⟨⟨e, rfl⟩, hfails⟩

/-- A loop whose rounds yield the steps of a pure loop yields the result of the pure loop. -/
theorem Yields.foldlM {body : β → γ → Faulty β} {step : β → γ → β} (elements : List γ) (start : β)
    (h : ∀ b, ∀ c ∈ elements, Yields (body b c) (step b c)) :
    Yields (elements.foldlM body start) (elements.foldl step start) := by
  induction elements generalizing start with
  | nil => exact Yields.pure start
  | cons c rest ih =>
    rw [List.foldlM_cons, List.foldl_cons]
    have hfirst := h start c List.mem_cons_self
    exact hfirst.bind (ih _ fun b c hc => h b c (List.mem_cons_of_mem _ hc))

end Faulty

end AneLinux.Support
