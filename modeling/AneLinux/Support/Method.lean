import AneLinux.Support.Python

/-!
# Methods of an object

A method changes its object, may raise, and returns a value when it does not. What it changed
before an exception stays. `Triple` gives a method a precondition, a postcondition that sees the
value it returns, and a condition for the object it leaves behind when it raises.
-/

namespace AneLinux.Support

universe u

/-- A method of an object of type `σ`: the object after it and the value or the exception. -/
def Method (σ : Type u) (α : Type u) := σ → σ × Py α

namespace Method

variable {σ α β γ : Type u}

/-- Return a value. -/
def ret (a : α) : Method σ α := fun s => (s, .ok a)

/-- Raise an exception. -/
def raise (e : PyError) : Method σ α := fun s => (s, .error e)

/-- Read from the object. -/
def read (f : σ → α) : Method σ α := fun s => (s, .ok (f s))

/-- Change the object and return a value of the object before. -/
def change (f : σ → σ × α) : Method σ α := fun s => ((f s).1, .ok (f s).2)

/-- Evaluate an expression that may raise. -/
def lift (x : Py α) : Method σ α := fun s => (s, x)

/-- One method after another. -/
def andThen (m : Method σ α) (f : α → Method σ β) : Method σ β := fun s =>
  match m s with
  | (s', .ok a) => f a s'
  | (s', .error e) => (s', .error e)

instance : Monad (Method σ) where
  pure := ret
  bind := andThen

theorem bind_of_ok {m : Method σ α} {f : α → Method σ β} {s s' : σ} {a : α} (h : m s = (s', .ok a)) :
    (m >>= f) s = f a s' := by
  change andThen m f s = _
  rw [andThen, h]

theorem bind_of_error {m : Method σ α} {f : α → Method σ β} {s s' : σ} {e : PyError}
    (h : m s = (s', .error e)) : (m >>= f) s = (s', .error e) := by
  change andThen m f s = _
  rw [andThen, h]

/-- A sequence returns exactly when both of its halves do. -/
theorem bind_eq_ok {m : Method σ α} {f : α → Method σ β} {s s'' : σ} {b : β} :
    (m >>= f) s = (s'', .ok b) ↔ ∃ s' a, m s = (s', .ok a) ∧ f a s' = (s'', .ok b) := by
  change andThen m f s = _ ↔ _
  unfold andThen
  rcases m s with ⟨s', outcome⟩
  cases outcome with
  | ok a =>
    constructor
    · intro h
      exact ⟨s', a, rfl, h⟩
    · rintro ⟨t, c, hm, h⟩
      cases hm
      exact h
  | error e =>
    constructor
    · intro h
      cases h
    · rintro ⟨t, c, hm, h⟩
      cases hm

/-- Sequencing is associative. -/
theorem bind_bind (m : Method σ α) (f : α → Method σ β) (g : β → Method σ γ) :
    (m >>= f) >>= g = m >>= fun a => f a >>= g := by
  funext s
  change andThen (andThen m f) g s = andThen m (fun a => andThen (f a) g) s
  rw [andThen, andThen, andThen]
  rcases m s with ⟨s', outcome⟩
  cases outcome with
  | ok a => rfl
  | error e => rfl

/-- Methods that do the same to two objects do so when something follows them. -/
theorem bind_congr_at {m m' : Method σ α} {s s' : σ} (h : m s = m' s') (f : α → Method σ β) :
    (m >>= f) s = (m' >>= f) s' := by
  change andThen m f s = andThen m' f s'
  rw [andThen, andThen, h]

@[simp] theorem pure_apply (a : α) (s : σ) : (pure a : Method σ α) s = (s, .ok a) := rfl

@[simp] theorem read_bind (f : σ → α) (g : α → Method σ β) (s : σ) : (read f >>= g) s = g (f s) s := rfl

@[simp] theorem change_bind (f : σ → σ × α) (g : α → Method σ β) (s : σ) :
    (change f >>= g) s = g (f s).2 (f s).1 := rfl

@[simp] theorem lift_ok_bind (a : α) (g : α → Method σ β) (s : σ) :
    ((lift (.ok a) : Method σ α) >>= g) s = g a s := rfl

@[simp] theorem lift_error_bind (e : PyError) (g : α → Method σ β) (s : σ) :
    ((lift (.error e) : Method σ α) >>= g) s = (s, .error e) := rfl

/-- Nothing after a method that returns nothing. -/
theorem bind_lift_unit (m : Method σ PUnit) : (m >>= fun _ => lift (.ok ⟨⟩)) = m := by
  funext s
  change andThen m (fun _ => lift (.ok ⟨⟩)) s = m s
  unfold andThen
  rcases m s with ⟨s', outcome⟩
  cases outcome with
  | ok a => rfl
  | error e => rfl

/-- From `pre` the method returns a value in `post` or raises in `fail`. -/
def Triple (pre : σ → Prop) (m : Method σ α) (post : α → σ → Prop) (fail : σ → Prop) : Prop :=
  ∀ s, pre s → match m s with
    | (s', .ok a) => post a s'
    | (s', .error _) => fail s'

variable {pre fail : σ → Prop} {post : α → σ → Prop} {m : Method σ α}

theorem Triple.pure {a : α} (h : ∀ s, pre s → post a s) : Triple pre (pure a) post fail := h

theorem Triple.raise {e : PyError} (h : ∀ s, pre s → fail s) : Triple pre (raise e) post fail := h

theorem Triple.read {f : σ → α} (h : ∀ s, pre s → post (f s) s) : Triple pre (read f) post fail := h

theorem Triple.change {f : σ → σ × α} (h : ∀ s, pre s → post (f s).2 (f s).1) :
    Triple pre (change f) post fail := h

theorem Triple.lift {x : Py α} (hpost : ∀ s a, x = .ok a → pre s → post a s)
    (hfail : ∀ s e, x = .error e → pre s → fail s) : Triple pre (lift x) post fail := by
  intro s hs
  unfold Method.lift
  cases x with
  | ok a => exact hpost s a rfl hs
  | error e => exact hfail s e rfl hs

/-- Sequencing. -/
theorem Triple.bind {f : α → Method σ β} {post' : β → σ → Prop} (hm : Triple pre m post fail)
    (hf : ∀ a, Triple (post a) (f a) post' fail) : Triple pre (m >>= f) post' fail := by
  intro s hs
  have h := hm s hs
  change match andThen m f s with
    | (s', .ok a) => post' a s'
    | (s', .error _) => fail s'
  unfold andThen
  rcases hms : m s with ⟨s', outcome⟩
  rw [hms] at h
  cases outcome with
  | ok a => exact hf a s' h
  | error e => exact h

/-- An expression that may raise, first in a sequence. -/
theorem Triple.lift_bind {x : Py α} {f : α → Method σ β} {post' : β → σ → Prop}
    (hok : ∀ a, x = .ok a → Triple pre (f a) post' fail) (hfail : ∀ s, pre s → fail s) :
    Triple pre (Method.lift x >>= f) post' fail := by
  cases x with
  | ok a => exact hok a rfl
  | error e => exact hfail

/-- An expression that does not raise, first in a sequence. -/
theorem Triple.lift_ok_bind {a : α} {f : α → Method σ β} {post' : β → σ → Prop}
    (h : Triple pre (f a) post' fail) : Triple pre (Method.lift (.ok a) >>= f) post' fail := h

/-- A read, first in a sequence. -/
theorem Triple.read_bind {g : σ → α} {f : α → Method σ β} {post' : β → σ → Prop}
    (h : ∀ a, Triple pre (f a) post' fail) : Triple pre (Method.read g >>= f) post' fail :=
  fun s hs => h (g s) s hs

/-- Sequencing, with what the first value satisfies kept apart from the object. -/
theorem Triple.bind_value {f : α → Method σ β} {post' : β → σ → Prop} {mid : σ → Prop} {ok : α → Prop}
    (hm : Triple pre m (fun a s => ok a ∧ mid s) fail) (hf : ∀ a, ok a → Triple mid (f a) post' fail) :
    Triple pre (m >>= f) post' fail :=
  Triple.bind hm fun a s hs => hf a hs.1 s hs.2

/-- Consequence. -/
theorem Triple.conseq {pre' fail' : σ → Prop} {post' : α → σ → Prop} (h : Triple pre m post fail)
    (hpre : ∀ s, pre' s → pre s) (hpost : ∀ a s, post a s → post' a s) (hfail : ∀ s, fail s → fail' s) :
    Triple pre' m post' fail' := by
  intro s hs
  have h := h s (hpre s hs)
  rcases hms : m s with ⟨s', outcome⟩
  rw [hms] at h
  cases outcome with
  | ok a => exact hpost a s' h
  | error e => exact hfail s' h

/-- More may hold where the method raises. -/
theorem Triple.weaken_fail {fail' : σ → Prop} (h : Triple pre m post fail) (hfail : ∀ s, fail s → fail' s) :
    Triple pre m post fail' :=
  h.conseq (fun _ hs => hs) (fun _ _ hs => hs) hfail

/-- A loop: `holds` relates the elements passed so far to the loop value, `inv` is about the object. -/
theorem Triple.foldlM {inv : σ → Prop} {body : β → γ → Method σ β} (holds : List γ → β → Prop)
    (elements : List γ)
    (h : ∀ passed c rest b, passed ++ c :: rest = elements → holds passed b →
      Triple inv (body b c) (fun b' s => holds (passed ++ [c]) b' ∧ inv s) fail)
    {start : β} (hstart : holds [] start) :
    Triple inv (elements.foldlM body start) (fun b s => holds elements b ∧ inv s) fail := by
  suffices hrest : ∀ rest passed b, passed ++ rest = elements → holds passed b →
      Triple inv (rest.foldlM body b) (fun b' s => holds elements b' ∧ inv s) fail from
    hrest elements [] start rfl hstart
  intro rest
  induction rest with
  | nil =>
    intro passed b heq hb
    rw [List.append_nil] at heq
    exact Triple.pure fun s hs => ⟨heq ▸ hb, hs⟩
  | cons c rest ih =>
    intro passed b heq hb
    rw [List.foldlM_cons]
    refine Triple.bind_value (h passed c rest b heq hb) fun b' hb' => ?_
    exact ih (passed ++ [c]) b' (by rw [List.append_assoc, List.singleton_append, heq]) hb'

/-- A method that returns one value and keeps an invariant. -/
theorem Triple.returns {inv : σ → Prop} {a : α} (hvalue : ∀ s, inv s → (m s).2 = .ok a)
    (hinv : Triple inv m (fun _ => inv) inv) : Triple inv m (fun b s => b = a ∧ inv s) fail := by
  intro s hs
  have hvalue := hvalue s hs
  have hinv := hinv s hs
  rcases hms : m s with ⟨s', outcome⟩
  rw [hms] at hvalue hinv
  cases outcome with
  | ok b => exact ⟨Except.ok.inj hvalue, hinv⟩
  | error e => cases hvalue

/-- A triple is proved one object at a time. -/
theorem Triple.of_forall (h : ∀ s, pre s → Triple (· = s) m post fail) : Triple pre m post fail :=
  fun s hs => h s hs s rfl

/-- What holds after either end holds of the object afterwards. -/
theorem Triple.always (pre : σ → Prop) {s : σ} (h : Triple pre m (fun _ => fail) fail) (hs : pre s) : fail (m s).1 := by
  have h := h s hs
  rcases hms : m s with ⟨s', outcome⟩
  rw [hms] at h
  cases outcome with
  | ok a => exact h
  | error e => exact h

/-- A method that cannot raise returns the one value it may return. -/
theorem Triple.outcome {s : σ} {a : α} (h : Triple pre m (fun b _ => b = a) fun _ => False) (hs : pre s) :
    (m s).2 = .ok a := by
  have h := h s hs
  rcases hms : m s with ⟨s', outcome⟩
  rw [hms] at h
  cases outcome with
  | ok b => exact congrArg Except.ok h
  | error e => exact h.elim

/-- A method that cannot return raises. -/
theorem Triple.raises {s : σ} (h : Triple pre m (fun _ _ => False) fail) (hs : pre s) : ∃ e, (m s).2 = .error e := by
  have h := h s hs
  rcases hms : m s with ⟨s', outcome⟩
  rw [hms] at h
  cases outcome with
  | ok b => exact h.elim
  | error e => exact ⟨e, rfl⟩

end Method

end AneLinux.Support
