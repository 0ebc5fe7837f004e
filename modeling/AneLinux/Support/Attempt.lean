import Mathlib.Data.List.Basic

/-!
# Computations that keep their state when they raise

An attempt runs on a state and ends in a value or an exception; the state it leaves is there in both cases. It runs
over a base monad, so that one text can be read as a plain function and as a program that talks to a device.

Three kinds of facts are carried through such a text: what a returned value says about the steps before it
(`bind_eq_ok`), what every ending leaves unchanged (`Keeps`), and how two attempts agree (`Agree`). The last one has
an escape: a condition on the state of the second attempt after which nothing more is claimed.
-/

namespace AneLinux.Support

/-- A computation on a state of type `σ` over a base monad. -/
def Attempt (m : Type → Type) (σ ε α : Type) := σ → m (Except ε α × σ)

variable {σ ε α β γ : Type} {a : α} {e : ε} {g : σ → σ}

namespace Attempt

variable {m : Type → Type} [Monad m]

/-- Return a value. -/
def ret (a : α) : Attempt m σ ε α := fun s => pure (.ok a, s)

/-- Raise an exception. -/
def raise (e : ε) : Attempt m σ ε α := fun s => pure (.error e, s)

/-- One computation after another. -/
def andThen (x : Attempt m σ ε α) (f : α → Attempt m σ ε β) : Attempt m σ ε β := fun s =>
  x s >>= fun r => match r.1 with
  | .ok a => f a r.2
  | .error e => pure (.error e, r.2)

instance : Monad (Attempt m σ ε) where
  pure := ret
  bind := andThen

/-- Read from the state. -/
def reads (f : σ → α) : Attempt m σ ε α := fun s => pure (.ok (f s), s)

/-- Change the state. -/
def change (f : σ → σ) : Attempt m σ ε Unit := fun s => pure (.ok (), f s)

/-- A call of the base monad that may raise. -/
def call (x : m (Except ε α)) : Attempt m σ ε α := fun s => x >>= fun r => pure (r, s)

/-- The value of an option, or an exception. -/
def orRaise (e : ε) : Option α → Attempt m σ ε α
  | some a => pure a
  | none => raise e

/-- A loop over a list. -/
def each (f : α → Attempt m σ ε Unit) : List α → Attempt m σ ε Unit
  | [] => pure ()
  | a :: rest => do
    f a
    each f rest

/-- A loop over a list that collects a value a round. -/
def collect (f : α → Attempt m σ ε β) : List α → Attempt m σ ε (List β)
  | [] => pure []
  | a :: rest => do
    let b ← f a
    let bs ← collect f rest
    pure (b :: bs)

end Attempt

/-- An attempt that is a plain function. -/
abbrev Direct (σ ε α : Type) := Attempt Id σ ε α

namespace Direct

open Attempt

variable {x : Direct σ ε α} {f : α → Direct σ ε β} {s s' s'' : σ}

@[simp] theorem pure_apply (a : α) (s : σ) : (pure a : Direct σ ε α) s = (.ok a, s) := rfl

@[simp] theorem raise_apply (e : ε) (s : σ) : (raise e : Direct σ ε α) s = (.error e, s) := rfl

@[simp] theorem reads_apply (g : σ → α) (s : σ) : (reads g : Direct σ ε α) s = (.ok (g s), s) := rfl

@[simp] theorem change_apply (g : σ → σ) (s : σ) : (change g : Direct σ ε Unit) s = (.ok (), g s) := rfl

@[simp] theorem call_apply (r : Except ε α) (s : σ) : (call (m := Id) r : Direct σ ε α) s = (r, s) := rfl

@[simp] theorem reads_bind (g : σ → α) (s : σ) : ((reads g : Direct σ ε α) >>= f) s = f (g s) s := rfl

@[simp] theorem change_bind (g : σ → σ) (f : Unit → Direct σ ε β) (s : σ) :
    ((change g : Direct σ ε Unit) >>= f) s = f () (g s) := rfl

@[simp] theorem pure_bind (a : α) (s : σ) : ((pure a : Direct σ ε α) >>= f) s = f a s := rfl

@[simp] theorem raise_bind (e : ε) (s : σ) : ((raise e : Direct σ ε α) >>= f) s = (.error e, s) := rfl

/-- After a first part that returns, the second runs. -/
theorem bind_of_ok (h : x s = (.ok a, s')) : (x >>= f) s = f a s' := by
  change andThen x f s = _
  simp only [andThen, h]
  rfl

/-- After one that raises, it does not. -/
theorem bind_of_error (h : x s = (.error e, s')) : (x >>= f) s = (.error e, s') := by
  change andThen x f s = _
  simp only [andThen, h]
  rfl

/-- A sequence returns exactly when both of its halves do. -/
theorem bind_eq_ok {b : β} :
    (x >>= f) s = (.ok b, s'') ↔ ∃ a s', x s = (.ok a, s') ∧ f a s' = (.ok b, s'') := by
  rcases hx : x s with ⟨outcome, s'⟩
  cases outcome with
  | ok a =>
    rw [bind_of_ok hx]
    constructor
    · exact fun h => ⟨a, s', rfl, h⟩
    · rintro ⟨c, t, heq, h⟩
      cases heq
      exact h
  | error e =>
    rw [bind_of_error hx]
    constructor
    · intro h
      cases h
    · rintro ⟨c, t, heq, h⟩
      cases heq

/-- An option that is returned was there. -/
theorem orRaise_eq_ok {o : Option α} (h : (orRaise e o : Direct σ ε α) s = (.ok a, s')) : o = some a ∧ s = s' := by
  cases o with
  | some b =>
    cases h
    exact ⟨rfl, rfl⟩
  | none => cases h

theorem change_eq_ok {u : Unit} (h : (change g : Direct σ ε Unit) s = (.ok u, s')) : s' = g s :=
  (Prod.mk.inj h).2.symm

theorem pure_eq_ok {b : α} (h : (pure a : Direct σ ε α) s = (.ok b, s')) : a = b ∧ s = s' := by
  obtain ⟨hok, hs⟩ := Prod.mk.inj h
  exact ⟨Except.ok.inj hok, hs⟩

/-- A loop of one round. -/
theorem collect_singleton_eq_ok {f : α → Direct σ ε β} {bs : List β} (h : collect f [a] s = (.ok bs, s')) :
    ∃ b, f a s = (.ok b, s') ∧ bs = [b] := by
  obtain ⟨b, s₁, hfirst, hrest⟩ := bind_eq_ok.mp h
  obtain ⟨_, s₂, hnil, hlast⟩ := bind_eq_ok.mp hrest
  obtain ⟨rfl, rfl⟩ := pure_eq_ok hnil
  obtain ⟨rfl, rfl⟩ := pure_eq_ok hlast
  exact ⟨b, hfirst, rfl⟩

section Keeping

variable {inv : σ → Prop}

/-- Every ending of the attempt leaves the condition in place. -/
def Keeps (inv : σ → Prop) (x : Direct σ ε α) : Prop := ∀ s, inv s → inv (x s).2

theorem Keeps.pure (a : α) : Keeps inv (Pure.pure a : Direct σ ε α) := fun _ hs => hs

theorem Keeps.raise (e : ε) : Keeps inv (Attempt.raise e : Direct σ ε α) := fun _ hs => hs

theorem Keeps.reads (g : σ → α) : Keeps inv (Attempt.reads g : Direct σ ε α) := fun _ hs => hs

theorem Keeps.call (r : Except ε α) : Keeps inv (Attempt.call (m := Id) r : Direct σ ε α) := fun _ hs => hs

theorem Keeps.change (h : ∀ s, inv s → inv (g s)) : Keeps inv (Attempt.change g : Direct σ ε Unit) := h

theorem Keeps.orRaise (e : ε) (o : Option α) : Keeps inv (Attempt.orRaise e o : Direct σ ε α) := by
  cases o with
  | some a => exact Keeps.pure a
  | none => exact Keeps.raise e

/-- Sequencing. -/
theorem Keeps.bind (hx : Keeps inv x) (hf : ∀ a, Keeps inv (f a)) : Keeps inv (x >>= f) := by
  intro s hs
  have hfirst := hx s hs
  rcases h : x s with ⟨outcome, s'⟩
  rw [h] at hfirst
  cases outcome with
  | ok a =>
    rw [bind_of_ok h]
    exact hf a s' hfirst
  | error e =>
    rw [bind_of_error h]
    exact hfirst

/-- A loop keeps what each round keeps. -/
theorem Keeps.each {g : α → Direct σ ε Unit} (elements : List α) (h : ∀ a ∈ elements, Keeps inv (g a)) :
    Keeps inv (Attempt.each g elements) := by
  induction elements with
  | nil => exact Keeps.pure ()
  | cons a rest ih =>
    exact (h a List.mem_cons_self).bind fun _ => ih fun b hb => h b (List.mem_cons_of_mem a hb)

/-- A collecting loop keeps what each round keeps. -/
theorem Keeps.collect {g : α → Direct σ ε β} (elements : List α) (h : ∀ a ∈ elements, Keeps inv (g a)) :
    Keeps inv (Attempt.collect g elements) := by
  induction elements with
  | nil => exact Keeps.pure []
  | cons a rest ih =>
    exact (h a List.mem_cons_self).bind fun _ =>
      (ih fun b hb => h b (List.mem_cons_of_mem a hb)).bind fun _ => Keeps.pure _

end Keeping

end Direct

section Agreeing

open Attempt Direct

variable {τ δ α' β' : Type} {escape : τ → Prop} {fail pre : σ → τ → Prop} {x : Direct σ ε α} {y : Direct τ δ β}
  {post : α → β → σ → τ → Prop}

/-- Two results: one value, or two exceptions. -/
def Same : Except ε α → Except δ α → Prop
  | .ok a, .ok b => a = b
  | .error _, .error _ => True
  | _, _ => False

/-- Two endings agree: both raise, or both return and the postcondition relates what they return and leave. -/
def Endings (fail : σ → τ → Prop) (post : α → β → σ → τ → Prop) : Except ε α × σ → Except δ β × τ → Prop
  | (.ok a, s), (.ok b, t) => post a b s t
  | (.error _, s), (.error _, t) => fail s t
  | _, _ => False

/-- Two attempts from related states agree, unless the second one escapes. -/
def Agree (escape : τ → Prop) (fail pre : σ → τ → Prop) (x : Direct σ ε α) (y : Direct τ δ β)
    (post : α → β → σ → τ → Prop) : Prop :=
  ∀ s t, pre s t → escape (y t).2 ∨ Endings fail post (x s) (y t)

/-- Endings that return equal values have the same result. -/
theorem Endings.same {x : Except ε α × σ} {y : Except δ α × τ} {inv : σ → τ → Prop}
    (h : Endings fail (fun a b s t => a = b ∧ inv s t) x y) : Same x.1 y.1 := by
  rcases x with ⟨a | a, s⟩ <;> rcases y with ⟨b | b, t⟩
  · trivial
  · exact h.elim
  · exact h.elim
  · exact h.1

/-- What both kinds of endings say of the second state. -/
theorem Endings.right {x : Except ε α × σ} {y : Except δ β × τ} {inv : τ → Prop} (h : Endings fail post x y)
    (hpost : ∀ a b s t, post a b s t → inv t) (hfail : ∀ s t, fail s t → inv t) : inv y.2 := by
  rcases x with ⟨a | a, s⟩ <;> rcases y with ⟨b | b, t⟩
  · exact hfail s t h
  · exact h.elim
  · exact h.elim
  · exact hpost a b s t h

/-- Two returns agree where the postcondition holds. -/
theorem Agree.pure {b : β} (h : ∀ s t, pre s t → post a b s t) :
    Agree escape fail pre (Pure.pure a : Direct σ ε α) (Pure.pure b : Direct τ δ β) post :=
  fun s t hst => Or.inr (h s t hst)

/-- Two refusals agree where failing is allowed. -/
theorem Agree.raise {d : δ} (h : ∀ s t, pre s t → fail s t) :
    Agree escape fail pre (Attempt.raise e : Direct σ ε α) (Attempt.raise d : Direct τ δ β) post :=
  fun s t hst => Or.inr (h s t hst)

/-- Two changes agree where they keep the relation. -/
theorem Agree.change {k : τ → τ} {post : Unit → Unit → σ → τ → Prop} (h : ∀ s t, pre s t → post () () (g s) (k t)) :
    Agree escape fail pre (Attempt.change g : Direct σ ε Unit) (Attempt.change k : Direct τ δ Unit) post :=
  fun s t hst => Or.inr (h s t hst)

/-- Agreement is proved from one pair of states at a time. -/
theorem Agree.of_forall
    (h : ∀ s t, pre s t → Agree escape fail (fun s' t' => s' = s ∧ t' = t) x y post) : Agree escape fail pre x y post :=
  fun s t hst => h s t hst s t ⟨rfl, rfl⟩

/-- Sequencing: what comes after the first halves must not undo the escape. -/
theorem Agree.bind {f : α → Direct σ ε α'} {f' : β → Direct τ δ β'} {post' : α' → β' → σ → τ → Prop}
    (hxy : Agree escape fail pre x y post) (hkeep : ∀ b, Keeps escape (f' b))
    (hf : ∀ a b, Agree escape fail (post a b) (f a) (f' b) post') :
    Agree escape fail pre (x >>= f) (y >>= f') post' := by
  intro s t hst
  rcases hx : x s with ⟨rx, s'⟩
  rcases hy : y t with ⟨ry, t'⟩
  have hends := hxy s t hst
  rw [hx, hy] at hends
  cases ry with
  | ok b =>
    rw [bind_of_ok hy]
    rcases hends with hesc | hends
    · exact Or.inl (hkeep b t' hesc)
    · cases rx with
      | ok a =>
        rw [bind_of_ok hx]
        exact hf a b s' t' hends
      | error e => exact hends.elim
  | error d =>
    rw [bind_of_error hy]
    rcases hends with hesc | hends
    · exact Or.inl hesc
    · cases rx with
      | ok a => exact hends.elim
      | error e =>
        rw [bind_of_error hx]
        exact Or.inr hends

/-- Consequence. -/
theorem Agree.conseq {pre' : σ → τ → Prop} {post' : α → β → σ → τ → Prop} (h : Agree escape fail pre x y post)
    (hpre : ∀ s t, pre' s t → pre s t) (hpost : ∀ a b s t, post a b s t → post' a b s t) :
    Agree escape fail pre' x y post' := by
  intro s t hst
  rcases h s t (hpre s t hst) with hesc | hends
  · exact Or.inl hesc
  · right
    rcases hx : x s with ⟨a | a, s'⟩ <;> rcases hy : y t with ⟨b | b, t'⟩ <;> rw [hx, hy] at hends
    · exact hends
    · exact hends
    · exact hends
    · exact hpost a b s' t' hends

/-- The frame rule: what each attempt keeps on its own stays beside what relates them. -/
theorem Agree.frame {p : σ → Prop} {q : τ → Prop} (h : Agree escape fail pre x y post) (hx : Keeps p x)
    (hy : Keeps q y) :
    Agree escape fail (fun s t => pre s t ∧ p s ∧ q t) x y fun a b s t => post a b s t ∧ p s ∧ q t := by
  rintro s t ⟨hst, hs, ht⟩
  rcases h s t hst with hesc | hends
  · exact Or.inl hesc
  · right
    have hs' := hx s hs
    have ht' := hy t ht
    rcases hx' : x s with ⟨a | a, s'⟩ <;> rcases hy' : y t with ⟨b | b, t'⟩ <;> rw [hx', hy'] at hends <;>
      rw [hx'] at hs' <;> rw [hy'] at ht'
    · exact hends
    · exact hends
    · exact hends
    · exact ⟨hends, hs', ht'⟩

/-- What each attempt says of its own return stands beside what relates them. -/
theorem Agree.returns {p : α → σ → Prop} {q : β → τ → Prop} (h : Agree escape fail pre x y post)
    (hx : ∀ s a s', x s = (.ok a, s') → p a s') (hy : ∀ t b t', y t = (.ok b, t') → q b t') :
    Agree escape fail pre x y fun a b s t => post a b s t ∧ p a s ∧ q b t := by
  intro s t hst
  rcases h s t hst with hesc | hends
  · exact Or.inl hesc
  · right
    rcases hx' : x s with ⟨a | a, s'⟩ <;> rcases hy' : y t with ⟨b | b, t'⟩ <;> rw [hx', hy'] at hends
    · exact hends
    · exact hends
    · exact hends
    · exact ⟨hends, hx s a s' hx', hy t b t' hy'⟩

/-- Loops over one list. -/
theorem Agree.each {f : γ → Direct σ ε Unit} {f' : γ → Direct τ δ Unit} {inv : σ → τ → Prop} (elements : List γ)
    (hkeep : ∀ c ∈ elements, Keeps escape (f' c))
    (h : ∀ c ∈ elements, Agree escape fail inv (f c) (f' c) fun _ _ => inv) :
    Agree escape fail inv (Attempt.each f elements) (Attempt.each f' elements) fun _ _ => inv := by
  induction elements with
  | nil => exact Agree.pure fun _ _ hst => hst
  | cons c rest ih =>
    have hrest : ∀ d ∈ rest, Keeps escape (f' d) := fun d hd => hkeep d (List.mem_cons_of_mem c hd)
    exact (h c List.mem_cons_self).bind (fun _ => Keeps.each rest hrest) fun _ _ =>
      ih hrest fun d hd => h d (List.mem_cons_of_mem c hd)

/-- Loops over related lists that collect equal values. -/
theorem Agree.collect {γ' : Type} {related : γ → γ' → Prop} {f : γ → Direct σ ε α} {f' : γ' → Direct τ δ α}
    {inv : σ → τ → Prop} {elements : List γ} {elements' : List γ'}
    (helements : List.Forall₂ related elements elements') (hkeep : ∀ c, Keeps escape (f' c))
    (h : ∀ c c', related c c' → Agree escape fail inv (f c) (f' c') fun a b s t => a = b ∧ inv s t) :
    Agree escape fail inv (Attempt.collect f elements) (Attempt.collect f' elements')
      fun as bs s t => as = bs ∧ inv s t := by
  induction helements with
  | nil => exact Agree.pure fun _ _ hst => ⟨rfl, hst⟩
  | @cons c c' rest rest' hfirst _ ih =>
    refine (h c c' hfirst).bind
      (fun _ => (Keeps.collect rest' fun d _ => hkeep d).bind fun _ => Keeps.pure _) fun a b => ?_
    rintro s t ⟨rfl, hst⟩
    have hcons : Agree escape fail inv (Attempt.collect f rest >>= fun as => Pure.pure (a :: as))
        (Attempt.collect f' rest' >>= fun bs => Pure.pure (a :: bs)) fun as bs s t => as = bs ∧ inv s t :=
      ih.bind (fun bs => Keeps.pure (a :: bs)) fun as bs => Agree.pure fun s t hpost => ⟨by rw [hpost.1], hpost.2⟩
    exact hcons s t hst

end Agreeing

end AneLinux.Support
