import AneLinux.Support.Python

/-!
# Statements that change an object and may raise

A method that raises keeps the changes it made before the exception. A statement is
therefore a function from an object to the object after it together with the outcome, and a
loop stops at the first statement that raises. `Triple` gives a statement a precondition, a
postcondition for its normal end and one for its exceptional end. The loop rule carries an
invariant that knows how many elements are done.
-/

namespace AneLinux.Support

universe u v

/-- A statement on an object of type `σ`: the object after it and how it ended. -/
abbrev Stmt (σ : Type u) := σ → σ × Py Unit

namespace Stmt

variable {σ : Type u} {α : Type v}

/-- The statement that does nothing. -/
def skip : Stmt σ := fun s => (s, .ok ())

/-- Change the object without raising. -/
def update (change : σ → σ) : Stmt σ := fun s => (change s, .ok ())

/-- Call something outside the object that may raise. -/
def call (outcome : Py Unit) : Stmt σ := fun s => (s, outcome)

/-- One statement after another; an exception skips the second. -/
def seq (first second : Stmt σ) : Stmt σ := fun s =>
  match first s with
  | (s', .ok _) => second s'
  | (s', .error e) => (s', .error e)

/-- Evaluate an expression on the object and go on with its value. -/
def eval (value : σ → Py α) (next : α → Stmt σ) : Stmt σ := fun s =>
  match value s with
  | .ok a => next a s
  | .error e => (s, .error e)

/-- `for a in values: body(a)`. -/
def forEach (body : α → Stmt σ) : List α → Stmt σ
  | [] => skip
  | a :: rest => seq (body a) (forEach body rest)

/-- From `pre` the statement ends normally in `post` or raises in `fail`. -/
def Triple (pre : σ → Prop) (stmt : Stmt σ) (post fail : σ → Prop) : Prop :=
  ∀ s, pre s → match stmt s with
    | (s', .ok _) => post s'
    | (s', .error _) => fail s'

variable {pre mid post fail : σ → Prop} {first second : Stmt σ}

/-- Doing nothing keeps every condition. -/
theorem Triple.skip : Triple pre skip pre fail := fun _ hs => hs

/-- A change of the object reaches what holds of the changed object. -/
theorem Triple.update {change : σ → σ} (h : ∀ s, pre s → post (change s)) :
    Triple pre (update change) post fail := h

/-- A call from outside keeps the object, whichever way it ends. -/
theorem Triple.call {outcome : Py Unit} (hpost : ∀ s, pre s → post s)
    (hfail : ∀ s e, outcome = .error e → pre s → fail s) : Triple pre (call outcome) post fail := by
  intro s hs
  unfold Stmt.call
  cases outcome with
  | ok _ => exact hpost s hs
  | error e => exact hfail s e rfl hs

/-- Sequencing. -/
theorem Triple.seq (hfirst : Triple pre first mid fail) (hsecond : Triple mid second post fail) :
    Triple pre (seq first second) post fail := by
  intro s hs
  have h := hfirst s hs
  unfold Stmt.seq
  rcases hf : first s with ⟨s', outcome⟩
  rw [hf] at h
  cases outcome with
  | ok _ => exact hsecond s' h
  | error e => exact h

/-- An expression that raises fails at once; otherwise its value is known to the rest. -/
theorem Triple.eval {value : σ → Py α} {next : α → Stmt σ}
    (hfail : ∀ s e, pre s → value s = .error e → fail s)
    (hnext : ∀ a, Triple (fun s => pre s ∧ value s = .ok a) (next a) post fail) :
    Triple pre (eval value next) post fail := by
  intro s hs
  unfold Stmt.eval
  cases hv : value s with
  | ok a => exact hnext a s ⟨hs, hv⟩
  | error e => exact hfail s e hs hv

/-- Consequence. -/
theorem Triple.conseq {stmt : Stmt σ} {pre' post' fail' : σ → Prop} (h : Triple pre stmt post fail)
    (hpre : ∀ s, pre' s → pre s) (hpost : ∀ s, post s → post' s) (hfail : ∀ s, fail s → fail' s) :
    Triple pre' stmt post' fail' := by
  intro s hs
  have h := h s (hpre s hs)
  rcases hstmt : stmt s with ⟨s', outcome⟩
  rw [hstmt] at h
  cases outcome with
  | ok _ => exact hpost s' h
  | error e => exact hfail s' h

/-- Less is needed before. -/
theorem Triple.strengthen_pre {stmt : Stmt σ} {pre' : σ → Prop} (h : Triple pre stmt post fail)
    (hpre : ∀ s, pre' s → pre s) : Triple pre' stmt post fail :=
  h.conseq hpre (fun _ hs => hs) fun _ hs => hs

/-- Less is claimed after. -/
theorem Triple.weaken_post {stmt : Stmt σ} {post' : σ → Prop} (h : Triple pre stmt post fail)
    (hpost : ∀ s, post s → post' s) : Triple pre stmt post' fail :=
  h.conseq (fun _ hs => hs) hpost fun _ hs => hs

/-- The loop rule: the invariant advances by one with every element. -/
theorem Triple.forEach {body : α → Stmt σ} {values : List α} {inv : ℕ → σ → Prop}
    (hbody : ∀ k a, values[k]? = some a → Triple (inv k) (body a) (inv (k + 1)) fail) :
    Triple (inv 0) (forEach body values) (inv values.length) fail := by
  induction values generalizing inv with
  | nil => exact Triple.skip
  | cons a rest ih =>
    have hrest : Triple (inv 1) (Stmt.forEach body rest) (inv (rest.length + 1)) fail :=
      @ih (fun k => inv (k + 1)) fun k b hb => hbody (k + 1) b hb
    exact (hbody 0 a rfl).seq hrest

/-- The loop rule for `enumerate(values)`. -/
theorem Triple.enumerate {body : α × ℕ → Stmt σ} {values : List α} {inv : ℕ → σ → Prop}
    (hbody : ∀ k a, values[k]? = some a → Triple (inv k) (body (a, k)) (inv (k + 1)) fail) :
    Triple (inv 0) (Stmt.forEach body values.zipIdx) (inv values.length) fail := by
  have h : Triple (inv 0) (Stmt.forEach body values.zipIdx) (inv values.zipIdx.length) fail := by
    refine Triple.forEach fun k entry hentry => ?_
    rw [List.getElem?_zipIdx] at hentry
    obtain ⟨a, ha, rfl⟩ := Option.map_eq_some_iff.mp hentry
    simpa only [Nat.zero_add] using hbody k a ha
  rwa [List.length_zipIdx] at h

/-- What holds after either end holds of the object afterwards. -/
theorem Triple.always {stmt : Stmt σ} {s : σ} (h : Triple pre stmt post post) (hs : pre s) :
    post (stmt s).1 := by
  have h := h s hs
  rcases hstmt : stmt s with ⟨s', outcome⟩
  rw [hstmt] at h
  cases outcome with
  | ok _ => exact h
  | error e => exact h

/-- A statement that cannot raise ends normally. -/
theorem Triple.ends {stmt : Stmt σ} {s : σ} (h : Triple pre stmt post fun _ => False) (hs : pre s) :
    ∃ s', stmt s = (s', .ok ()) ∧ post s' := by
  have h := h s hs
  rcases hstmt : stmt s with ⟨s', outcome⟩
  rw [hstmt] at h
  cases outcome with
  | ok _ => exact ⟨s', rfl, h⟩
  | error e => exact h.elim

/-- A loop does its job at one element: it gets there without raising, and the rest of the loop,
however it ends, does not undo the job. -/
theorem Triple.enumerate_reaches {body : α × ℕ → Stmt σ} {values : List α} {inv : ℕ → σ → Prop}
    {i : ℕ} {a : α} (ha : values[i]? = some a)
    (hbefore : ∀ k b, k < i → values[k]? = some b →
      Triple (inv k) (body (b, k)) (inv (k + 1)) fun _ => False)
    (hat : Triple (inv i) (body (a, i)) post post)
    (hafter : ∀ entry, Triple post (body entry) post post) :
    Triple (inv 0) (Stmt.forEach body values.zipIdx) post post := by
  have hloop := @Triple.enumerate σ α post body values (fun k s => if k ≤ i then inv k s else post s)
    fun k b hb => ?_
  · refine hloop.conseq (fun s hs => ?_) (fun s hs => ?_) fun _ hs => hs
    · rwa [if_pos (Nat.zero_le i)]
    · have hi := (List.getElem?_eq_some_iff.mp ha).1
      rwa [if_neg (by omega)] at hs
  · rcases Nat.lt_trichotomy k i with hk | rfl | hk
    · refine (hbefore k b hk hb).conseq (fun s hs => ?_) (fun s hs => ?_) fun _ hs => hs.elim
      · rwa [if_pos hk.le] at hs
      · rwa [if_pos (Nat.succ_le_of_lt hk)]
    · rw [Option.mem_unique hb ha]
      refine hat.conseq (fun s hs => ?_) (fun s hs => ?_) fun _ hs => hs
      · rwa [if_pos le_rfl] at hs
      · rwa [if_neg (by omega)]
    · refine (hafter (b, k)).conseq (fun s hs => ?_) (fun s hs => ?_) fun _ hs => hs
      · rwa [if_neg (by omega)] at hs
      · rwa [if_neg (by omega)]

/-! ### Statements that keep more -/

section Projections

universe w

variable {τ : Type w} {π : τ → σ}

/-- A statement on a larger object does to one part what another does to it alone. -/
def Projects (π : τ → σ) (large : Stmt τ) (small : Stmt σ) : Prop := ∀ t, small (π t) = (π (large t).1, (large t).2)

theorem Projects.skip : Projects π Stmt.skip Stmt.skip := fun _ => rfl

theorem Projects.call (outcome : Py Unit) : Projects π (Stmt.call outcome) (Stmt.call outcome) := fun _ => rfl

theorem Projects.seq {large large' : Stmt τ} {small small' : Stmt σ} (h : Projects π large small)
    (h' : Projects π large' small') : Projects π (Stmt.seq large large') (Stmt.seq small small') := by
  intro t
  unfold Stmt.seq
  rw [h t]
  rcases large t with ⟨t', outcome⟩
  cases outcome with
  | ok _ => exact h' t'
  | error e => rfl

/-- What only the larger object records goes before. -/
theorem Projects.record {change : τ → τ} {large : Stmt τ} {small : Stmt σ} (hchange : ∀ t, π (change t) = π t)
    (h : Projects π large small) : Projects π (Stmt.seq (Stmt.update change) large) small := by
  intro t
  have ht := h (change t)
  rw [hchange t] at ht
  exact ht

/-- What only the larger object records goes after a statement that ended normally. -/
theorem Projects.recordAfter {change : τ → τ} {large : Stmt τ} {small : Stmt σ} (hchange : ∀ t, π (change t) = π t)
    (h : Projects π large small) : Projects π (Stmt.seq large (Stmt.update change)) small := by
  intro t
  unfold Stmt.seq
  rw [h t]
  rcases large t with ⟨t', outcome⟩
  cases outcome with
  | ok value => exact Prod.ext (hchange t').symm rfl
  | error e => rfl

theorem Projects.eval {value : σ → Py α} {value' : τ → Py α} {large : α → Stmt τ} {small : α → Stmt σ}
    (hvalue : ∀ t, value (π t) = value' t) (h : ∀ a, Projects π (large a) (small a)) :
    Projects π (Stmt.eval value' large) (Stmt.eval value small) := by
  intro t
  unfold Stmt.eval
  rw [hvalue t]
  cases value' t with
  | ok a => exact h a t
  | error e => rfl

theorem Projects.forEach {large : α → Stmt τ} {small : α → Stmt σ} (h : ∀ a, Projects π (large a) (small a))
    (values : List α) : Projects π (Stmt.forEach large values) (Stmt.forEach small values) := by
  induction values with
  | nil => exact Projects.skip
  | cons a rest ih => exact (h a).seq ih

end Projections

end Stmt

section Prefixes

variable {α : Type u} {β : Type v}

/-- The accumulator of an enumerated loop once `count` elements are done. -/
def foldFirst (step : β → α × ℕ → β) (start : β) (values : List α) (count : ℕ) : β :=
  (values.zipIdx.take count).foldl step start

variable {step : β → α × ℕ → β} {start : β} {values : List α} {k : ℕ}

/-- One more element is one more step. -/
theorem foldFirst_succ {a : α} (h : values[k]? = some a) :
    foldFirst step start values (k + 1) = step (foldFirst step start values k) (a, k) := by
  have hentry : values.zipIdx[k]? = some (a, k) := by
    rw [List.getElem?_zipIdx, h, Option.map_some, Nat.zero_add]
  simp only [foldFirst, List.take_add_one, hentry, Option.toList_some, List.foldl_append, List.foldl_cons,
    List.foldl_nil]

/-- Past the end nothing changes. -/
theorem foldFirst_succ_of_none (h : values[k]? = none) :
    foldFirst step start values (k + 1) = foldFirst step start values k := by
  have hentry : values.zipIdx[k]? = none := by
    rw [List.getElem?_zipIdx, h, Option.map_none]
  simp only [foldFirst, List.take_add_one, hentry, Option.toList_none, List.append_nil]

/-- All elements done is the whole loop. -/
theorem foldFirst_length : foldFirst step start values values.length = values.zipIdx.foldl step start := by
  rw [foldFirst, List.take_of_length_le (by rw [List.length_zipIdx])]

/-- What every step keeps, holds from one prefix to every longer one. -/
theorem foldFirst_mono (keep : β → Prop) (hstep : ∀ b entry, keep b → keep (step b entry)) {n : ℕ}
    (hk : k ≤ n) (h : keep (foldFirst step start values k)) : keep (foldFirst step start values n) := by
  induction hk with
  | refl => exact h
  | step _ ih =>
    rename_i m _
    cases hm : values[m]? with
    | some a => exact foldFirst_succ hm ▸ hstep _ _ ih
    | none => exact foldFirst_succ_of_none hm ▸ ih

end Prefixes

end AneLinux.Support
