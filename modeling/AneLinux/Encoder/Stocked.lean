import AneLinux.Encoder.FusedOrder
import AneLinux.Encoder.Independent
import AneLinux.Encoder.Rooted

/-!
# The invariant of a call with the fusions

What is over has delivered its results: they are in the tables, or they were released when all who fetch them were over.
It has left all it draws on behind, too, so that what is released after a statement is needed by no later one.
-/

namespace AneLinux.Encoder

open AneLinux.Support Attempt Direct

variable {ν V M : Type} [DecidableEq ν]

section Conditions

variable (plan : FusedPlan ν) (kernels : Kernels V M) (stopAfter : ν) (busy : ℕ → Prop) (s : Runner ν V M)

/-- A statement is left behind: it has run, or it is a constant, or a silu whose linear has run. -/
def Behind (y : ℕ) : Prop :=
  s.done y = true ∨ (∃ stmt, plan.program[y]? = some stmt ∧ stmt.op = .const) ∨
    ∃ linear, (linear, y) ∈ plan.silus ∧ s.done linear = true

/-- A result is in the value table; or the call does not stop after it, and either it has host data or whoever fetches
it is over. -/
def Delivered (name : ν) : Prop :=
  (s.values name).isSome = true ∨ name ≠ stopAfter ∧ ((s.hosts name).isSome = true ∨
    ∀ x, plan.Reached stopAfter x → Fetches plan x name → s.done x = true ∧ ¬ busy x)

/-- What a statement that is over leaves: its results, unless they are never stored; all it draws on; the result of the
silu that it computes; the add that a select computes; and the host data of a constant. -/
structure Finished (y : ℕ) : Prop where
  stored : ∀ stmt, plan.program[y]? = some stmt → ∀ name ∈ stmt.names,
    Delivered plan stopAfter busy s name ∨ Dropped plan name ∨ y ∈ plan.gates.map Gate.sigmoid
  drawn : ∀ z, Draws plan.program (FusedAsks plan) y z → Behind plan s z
  silu : ∀ silu stmt, (y, silu) ∈ plan.silus → plan.program[silu]? = some stmt → s.siluDone silu = true →
    Delivered plan stopAfter busy s stmt.name
  added : ∀ fusion ∈ plan.fusions, fusion.later = true → fusion.select = y → s.done fusion.add = true
  host : ∀ stmt, plan.program[y]? = some stmt → stmt.op = .const → (kernels.literal y).toHost.isSome = true →
    (s.hosts stmt.name).isSome = true

/-- The invariant, where `busy` are the statements in progress. -/
structure Stocked (given : List ν) : Prop where
  held : Held plan.toPlan kernels s
  given : ∀ name ∈ given, (s.values name).isSome = true
  begun : ∀ y, busy y → s.done y = true
  ended : ∀ y, s.done y = true → busy y ∨ Finished plan kernels stopAfter busy s y
  behind : ∀ name y, s.has name = true → producer plan.program name = some y → Behind plan s y

end Conditions

/-- Nothing leaves the tables, and no flag is taken back but that of a silu. -/
structure Grows (s s' : Runner ν V M) : Prop where
  values : ∀ name, (s.values name).isSome = true → (s'.values name).isSome = true
  hosts : ∀ name, (s.hosts name).isSome = true → (s'.hosts name).isSome = true
  done : ∀ y, s.done y = true → s'.done y = true
  silus : ∀ silu, s'.siluDone silu = true → s.siluDone silu = true

variable {plan : FusedPlan ν} {kernels : Kernels V M} {given declared wanted : List ν} {stopAfter name : ν}
  {busy : ℕ → Prop} {s s' : Runner ν V M} {x y : ℕ} {stmt : Statement ν} {adds : ℕ → Bool}

section Growing

variable {busy' : ℕ → Prop}

omit [DecidableEq ν] in
theorem Grows.refl (s : Runner ν V M) : Grows s s := ⟨fun _ h => h, fun _ h => h, fun _ h => h, fun _ h => h⟩

omit [DecidableEq ν] in
theorem Grows.trans {s'' : Runner ν V M} (h : Grows s s') (h' : Grows s' s'') : Grows s s'' :=
  ⟨fun name hs => h'.values name (h.values name hs), fun name hs => h'.hosts name (h.hosts name hs),
    fun y hs => h'.done y (h.done y hs), fun silu hs => h.silus silu (h'.silus silu hs)⟩

theorem grows_setValue (s : Runner ν V M) (name : ν) (v : V) : Grows s (s.setValue name v) := by
  refine ⟨fun other hvalue => ?_, fun _ h => h, fun _ h => h, fun _ h => h⟩
  by_cases heq : other = name
  · rw [heq, Runner.setValue_values_self, Option.isSome_some]
  · rwa [Runner.setValue_values_of_ne v heq]

theorem grows_setValues (s : Runner ν V M) (pairs : List (ν × V)) : Grows s (s.setValues pairs) := by
  induction pairs generalizing s with
  | nil => exact Grows.refl s
  | cons pair rest ih => exact (grows_setValue s pair.1 pair.2).trans (ih _)

/-- What is written is there. -/
theorem setValues_of_mem (s : Runner ν V M) {pairs : List (ν × V)} (h : name ∈ pairs.map Prod.fst) :
    ((s.setValues pairs).values name).isSome = true := by
  induction pairs generalizing s with
  | nil => cases h
  | cons pair rest ih =>
    rw [List.map_cons, List.mem_cons] at h
    rcases h with rfl | h
    · refine (grows_setValues (s.setValue pair.1 pair.2) rest).values pair.1 ?_
      rw [Runner.setValue_values_self, Option.isSome_some]
    · exact ih (s.setValue pair.1 pair.2) h

omit [DecidableEq ν] in
theorem grows_begin (s : Runner ν V M) (x : ℕ) : Grows s (s.begin x) :=
  ⟨fun _ h => h, fun _ h => h, fun _ h => Runner.begin_done.mpr (Or.inr h), fun _ h => h⟩

omit [DecidableEq ν] in
theorem grows_discard (s : Runner ν V M) (silu : ℕ) : Grows s (s.discard silu) := by
  refine ⟨fun _ h => h, fun _ h => h, fun _ h => h, fun other hother => ?_⟩
  change Function.update s.siluDone silu false other = true at hother
  by_cases heq : other = silu
  · rw [heq, Function.update_self] at hother
    cases hother
  · rwa [Function.update_of_ne heq] at hother

/-- Running a statement only adds. -/
theorem Executed.grows {literal : Literal V M} (h : Executed plan.toPlan literal x stmt.name s s') : Grows s s' :=
  ⟨fun _ => h.has.1, fun _ => h.has.2, fun _ => h.mono, fun _ hsilu => h.siluDone ▸ hsilu⟩

/-- What is behind stays behind. -/
theorem Behind.mono (h : Behind plan s y) (hgrows : Grows s s') : Behind plan s' y :=
  h.imp (hgrows.done y) fun h => h.imp_right fun ⟨linear, hpair, hdone⟩ => ⟨linear, hpair, hgrows.done linear hdone⟩

/-- What begins was not done before. -/
theorem Delivered.mono (h : Delivered plan stopAfter busy s name) (hgrows : Grows s s')
    (hnew : ∀ y, busy' y → busy y ∨ s.done y = false) : Delivered plan stopAfter busy' s' name := by
  refine h.imp (hgrows.values name) fun h => h.imp_right fun h => h.imp (hgrows.hosts name) fun hended => ?_
  intro x hx hfetches
  obtain ⟨hdone, hidle⟩ := hended x hx hfetches
  refine ⟨hgrows.done x hdone, fun hbusy => ?_⟩
  rcases hnew x hbusy with hbusy | hundone
  · exact hidle hbusy
  · rw [hdone] at hundone
    cases hundone

/-- What is finished stays so. -/
theorem Finished.mono (h : Finished plan kernels stopAfter busy s y) (hgrows : Grows s s')
    (hnew : ∀ y, busy' y → busy y ∨ s.done y = false) : Finished plan kernels stopAfter busy' s' y where
  stored := fun stmt hstmt name hname => (h.stored stmt hstmt name hname).imp_left fun h => h.mono hgrows hnew
  drawn := fun z hdraws => (h.drawn z hdraws).mono hgrows
  silu := fun silu stmt hpair hstmt hsilu => (h.silu silu stmt hpair hstmt (hgrows.silus silu hsilu)).mono hgrows hnew
  added := fun fusion hfusion hlater hselect => hgrows.done _ (h.added fusion hfusion hlater hselect)
  host := fun stmt hstmt hop hhost => hgrows.hosts _ (h.host stmt hstmt hop hhost)

/-- A step: what is done by now was done, or is in progress, or is over; and what the tables have by now they had, or it
comes from what is left behind. -/
theorem Stocked.move (h : Stocked plan kernels stopAfter busy s given) (hgrows : Grows s s')
    (hheld : Held plan.toPlan kernels s') (hbegun : ∀ y, busy' y → s'.done y = true)
    (hnew : ∀ y, busy' y → busy y ∨ s.done y = false)
    (hended : ∀ y, s'.done y = true → busy' y ∨ (s.done y = true ∧ ¬ busy y) ∨
      Finished plan kernels stopAfter busy' s' y)
    (hhas : ∀ name y, s'.has name = true → producer plan.program name = some y →
      s.has name = true ∨ Behind plan s' y) : Stocked plan kernels stopAfter busy' s' given where
  held := hheld
  given := fun name hname => hgrows.values name (h.given name hname)
  begun := hbegun
  ended := fun y hy => (hended y hy).imp_right fun hy => hy.elim
    (fun ⟨hdone, hidle⟩ => ((h.ended y hdone).resolve_left hidle).mono hgrows hnew) id
  behind := fun name y hname hproducer => (hhas name y hname hproducer).elim
    (fun hname => (h.behind name y hname hproducer).mono hgrows) id

end Growing

section Updates

/-- A statement is over. -/
theorem Stocked.finish (h : Stocked plan kernels stopAfter (fun y => busy y ∨ y = x) s given)
    (hfinished : Finished plan kernels stopAfter (fun y => busy y ∨ y = x) s x) :
    Stocked plan kernels stopAfter busy s given := by
  have hless : ∀ y, busy y → (busy y ∨ y = x) ∨ s.done y = false := fun y hy => Or.inl (Or.inl hy)
  refine h.move (Grows.refl s) h.held (fun y hy => h.begun y (Or.inl hy)) hless (fun y hy => ?_)
    fun name y hhas _ => Or.inl hhas
  by_cases hbusy : busy y
  · exact Or.inl hbusy
  by_cases hyx : y = x
  · subst hyx
    exact Or.inr (Or.inr (hfinished.mono (Grows.refl s) hless))
  · exact Or.inr (Or.inl ⟨hy, fun h => h.elim hbusy hyx⟩)

variable (hplan : plan.Formed adds declared)

include hplan

variable (h : Stocked plan kernels stopAfter busy s given)

include h in
/-- A result of a statement that is left behind is stored. -/
theorem Stocked.setValue (hstmt : plan.program[x]? = some stmt) (hconstant : stmt.op ≠ .const)
    (hname : name ∈ stmt.names) (hbehind : Behind plan s x) (v : V) :
    Stocked plan kernels stopAfter busy (s.setValue name v) given := by
  have hgrows := grows_setValue s name v
  refine h.move hgrows ((Held.lasting hplan.plain).setValue s x stmt name v hstmt hconstant hname h.held) h.begun
    (fun _ hy => Or.inl hy) (fun y hy => ?_) fun other y hhas hproducer => ?_
  · by_cases hbusy : busy y
    · exact Or.inl hbusy
    · exact Or.inr (Or.inl ⟨hy, hbusy⟩)
  · by_cases heq : other = name
    · subst heq
      obtain rfl := Option.mem_unique (hplan.plain.single.producer_eq hstmt hname) hproducer
      exact Or.inr (hbehind.mono hgrows)
    · rw [Runner.has, Runner.setValue_values_of_ne v heq] at hhas
      exact Or.inl hhas

include h in
/-- Setting results keeps the stock. -/
theorem Stocked.setValues (hstmt : plan.program[x]? = some stmt) (hconstant : stmt.op ≠ .const)
    (hbehind : Behind plan s x) {pairs : List (ν × V)} (hpairs : ∀ pair ∈ pairs, pair.1 ∈ stmt.names) :
    Stocked plan kernels stopAfter busy (s.setValues pairs) given := by
  induction pairs generalizing s with
  | nil => exact h
  | cons pair rest ih =>
    exact ih (h.setValue hplan hstmt hconstant (hpairs pair List.mem_cons_self) hbehind pair.2)
      (hbehind.mono (grows_setValue s pair.1 pair.2)) fun other hother =>
        hpairs other (List.mem_cons_of_mem pair hother)

include h in
/-- A statement begins. -/
theorem Stocked.begin (hstmt : plan.program[x]? = some stmt) (hconstant : stmt.op ≠ .const)
    (hundone : s.done x = false) : Stocked plan kernels stopAfter (fun y => busy y ∨ y = x) (s.begin x) given := by
  have hgrows := grows_begin s x
  refine h.move hgrows ((Held.lasting hplan.plain).begin s x stmt hstmt hconstant h.held) (fun y hy => ?_)
    (fun y hy => ?_) (fun y hy => ?_) fun other y hhas _ => Or.inl hhas
  · rcases hy with hy | rfl
    · exact hgrows.done y (h.begun y hy)
    · exact Runner.begin_done.mpr (Or.inl rfl)
  · rcases hy with hy | rfl
    · exact Or.inl hy
    · exact Or.inr hundone
  · by_cases hbusy : busy y ∨ y = x
    · exact Or.inl hbusy
    · rw [not_or] at hbusy
      exact Or.inr (Or.inl ⟨(Runner.begin_done.mp hy).resolve_left hbusy.2, hbusy.1⟩)

include h in
/-- So does forgetting a silu. -/
theorem Stocked.discard (silu : ℕ) : Stocked plan kernels stopAfter busy (s.discard silu) given := by
  refine h.move (grows_discard s silu) ((Held.lasting hplan.plain).discard s silu h.held) h.begun
    (fun _ hy => Or.inl hy) (fun y hy => ?_) fun other y hhas _ => Or.inl hhas
  by_cases hbusy : busy y
  · exact Or.inl hbusy
  · exact Or.inr (Or.inl ⟨hy, hbusy⟩)

include h in
/-- Another statement computes one, which is over then. -/
theorem Stocked.pass (hstmt : plan.program[x]? = some stmt) (hconstant : stmt.op ≠ .const) {v : V}
    (hfinished : Finished plan kernels stopAfter busy ((s.setValue stmt.name v).begin x) x) :
    Stocked plan kernels stopAfter busy ((s.setValue stmt.name v).begin x) given := by
  have hgrows := (grows_setValue s stmt.name v).trans (grows_begin _ x)
  have hheld := (Held.lasting hplan.plain).setValue s x stmt stmt.name v hstmt hconstant List.mem_cons_self h.held
  refine h.move hgrows ((Held.lasting hplan.plain).begin _ x stmt hstmt hconstant hheld)
    (fun y hy => hgrows.done y (h.begun y hy)) (fun _ hy => Or.inl hy) (fun y hy => ?_) fun other y hhas hproducer => ?_
  · rcases Runner.begin_done.mp hy with rfl | hy
    · exact Or.inr (Or.inr hfinished)
    · by_cases hbusy : busy y
      · exact Or.inl hbusy
      · exact Or.inr (Or.inl ⟨hy, hbusy⟩)
  · by_cases heq : other = stmt.name
    · subst heq
      obtain rfl := Option.mem_unique (hplan.plain.producer_name hstmt) hproducer
      exact Or.inr (Or.inl (Runner.begin_done.mpr (Or.inl rfl)))
    · left
      change (((s.setValue stmt.name v).values other).isSome || (s.hosts other).isSome) = true at hhas
      rwa [Runner.setValue_values_of_ne v heq] at hhas

omit hplan in
/-- A constant draws on nothing. -/
theorem FusedPlan.Formed.constant_draws_nothing (hplan : plan.Formed adds declared)
    (hstmt : plan.program[x]? = some stmt) (hop : stmt.op = .const) : ¬ Draws plan.program (FusedAsks plan) x y := by
  rintro ⟨name, hask, -⟩
  cases hask with
  | plain hask =>
    cases hask with
    | own hother hname =>
      obtain rfl := Option.mem_unique hstmt hother
      obtain ⟨harrays, hhosts⟩ := hplan.plain.arities.constant x stmt hstmt hop
      rw [harrays, hhosts] at hname
      cases hname
    | shared _ hpair => exact (hplan.plain.not_paired hstmt (by rw [hop]; decide) _).1 hpair
    | scores _ hpair => exact (hplan.plain.not_paired hstmt (by rw [hop]; decide) _).2 hpair
  | summand hfusion =>
    rw [hplan.isSelect hfusion hstmt] at hop
    cases hop

/-- What is over when it is a constant. -/
theorem Finished.constant (hstmt : plan.program[x]? = some stmt) (hop : stmt.op = .const)
    (hvalue : (kernels.literal x).toArray.isSome = true → (s.values stmt.name).isSome = true)
    (hhost : (kernels.literal x).toHost.isSome = true → (s.hosts stmt.name).isSome = true)
    (hwhole : (kernels.literal x).whole = true)
    (harray : stmt.name = stopAfter → (kernels.literal x).toArray.isSome = true) :
    Finished plan kernels stopAfter busy s x where
  stored := by
    intro other hother name hname
    obtain rfl := Option.mem_unique hstmt hother
    rw [hplan.plain.arities.names_eq hstmt (by rw [hop]; decide), List.mem_singleton] at hname
    subst hname
    left
    by_cases hstored : (kernels.literal x).toArray.isSome = true
    · exact Or.inl (hvalue hstored)
    · refine Or.inr ⟨fun heq => hstored (harray heq), Or.inl (hhost ?_)⟩
      cases hliteral : kernels.literal x with
      | text host => rfl
      | inline host array => rfl
      | blob v host =>
        rw [hliteral] at hstored
        exact absurd rfl hstored
      | broken =>
        rw [hliteral] at hwhole
        cases hwhole
  drawn := fun z hdraws => absurd hdraws (hplan.constant_draws_nothing hstmt hop)
  silu := fun silu _ hpair => absurd hpair (hplan.plain.not_linear hstmt (by rw [hop]; decide) silu)
  added := by
    rintro fusion hfusion - rfl
    rw [hplan.isSelect hfusion hstmt] at hop
    cases hop
  host := by
    intro other hother _ hsome
    obtain rfl := Option.mem_unique hstmt hother
    exact hhost hsome

include h in
/-- A constant is over as soon as it is executed. -/
theorem Stocked.constant (hstmt : plan.program[x]? = some stmt) (hop : stmt.op = .const) (hundone : s.done x = false)
    (hexecuted : Executed plan.toPlan (kernels.literal x) x stmt.name s s') (hwhole : (kernels.literal x).whole = true)
    (harray : stmt.name = stopAfter → (kernels.literal x).toArray.isSome = true) :
    Stocked plan kernels stopAfter busy s' given := by
  have hgrows := hexecuted.grows
  refine h.move hgrows (h.held.constant hplan.plain hstmt hop hundone hexecuted)
    (fun y hy => hgrows.done y (h.begun y hy)) (fun _ hy => Or.inl hy) (fun y hy => ?_) fun other y hhas hproducer => ?_
  · rw [hexecuted.done] at hy
    rcases Runner.begin_done.mp hy with rfl | hy
    · refine Or.inr (Or.inr (.constant hplan hstmt hop (fun harray => ?_) (fun hhost => ?_) hwhole harray))
      · rw [hexecuted.value, Option.isSome_or, harray, Bool.true_or]
      · rw [hexecuted.host, Option.isSome_or, hhost, Bool.true_or]
    · by_cases hbusy : busy y
      · exact Or.inl hbusy
      · exact Or.inr (Or.inl ⟨hy, hbusy⟩)
  · by_cases heq : other = stmt.name
    · subst heq
      obtain rfl := Option.mem_unique (hplan.plain.producer_name hstmt) hproducer
      exact Or.inr (Or.inr (Or.inl ⟨stmt, hstmt, hop⟩))
    · obtain ⟨hvalue, hhost, -⟩ := hexecuted.other other heq
      rw [Runner.has, hvalue, hhost] at hhas
      exact Or.inl hhas

end Updates

section Seeking

/-- What a call to which the fusions do no harm is known to do, once it has returned without them. -/
structure Warranted (plan : FusedPlan ν) (kernels : Kernels V M) (given wanted : List ν) (stopAfter : ν) : Prop where
  spared : Spared plan kernels given wanted stopAfter
  computable : ∀ y, plan.Reached stopAfter y → Computable plan.program given (FusedAsks plan) y
  wanted : stopAfter ∈ wanted
  loud : ∀ y, producer plan.program stopAfter = some y → y ∉ plan.gates.map Gate.sigmoid
  array : ∀ k stmt, plan.program[k]? = some stmt → stmt.op = .const → stmt.name = stopAfter →
    (kernels.literal k).toArray.isSome = true

/-- A statement that is being executed: the call gets to it, and what is in progress leads to it. -/
structure Current (plan : FusedPlan ν) (stopAfter : ν) (busy : ℕ → Prop) (x : ℕ) : Prop where
  reached : plan.Reached stopAfter x
  chain : ∀ b, busy b → FusedReaches plan b x

/-- A name that may be asked for: it is given, or the call gets to what produces it, which nothing in progress is. -/
structure Sought (plan : FusedPlan ν) (given : List ν) (stopAfter : ν) (busy : ℕ → Prop) (name : ν) : Prop where
  produced : ∀ y, producer plan.program name = some y →
    plan.Reached stopAfter y ∧ ∀ b, busy b → Relation.TransGen (Draws plan.program (FusedAsks plan)) b y
  provided : producer plan.program name = none → name ∈ given

/-- A name that is asked for while a statement is executed. -/
theorem Current.sought (h : Current plan stopAfter busy x) (hw : Warranted plan kernels given wanted stopAfter)
    (hask : FusedAsks plan x name) : Sought plan given stopAfter busy name where
  produced := fun _ hproducer => ⟨h.reached.tail ⟨name, hask, hproducer⟩, fun b hb =>
    Relation.TransGen.tail' (h.chain b hb) ⟨name, hask, hproducer⟩⟩
  provided := (hw.computable x h.reached).isFine name hask

/-- A sought name's producer is not under way. -/
theorem Sought.not_busy (h : Sought plan given stopAfter busy name)
    (hw : Warranted plan kernels given wanted stopAfter) (hproducer : producer plan.program name = some y) :
    ¬ busy y := by
  intro hbusy
  obtain ⟨hreached, hchain⟩ := h.produced y hproducer
  exact (hw.computable y hreached).acyclic (hchain y hbusy)

/-- What begins leads to itself. -/
theorem Current.begin (h : Current plan stopAfter busy x) : Current plan stopAfter (fun y => busy y ∨ y = x) x where
  reached := h.reached
  chain := by
    rintro b (hb | rfl)
    · exact h.chain b hb
    · exact .refl

/-- A sought name's producer may run now. -/
theorem Sought.current (h : Sought plan given stopAfter busy name) (hproducer : producer plan.program name = some x) :
    Current plan stopAfter busy x where
  reached := (h.produced x hproducer).1
  chain := fun b hb => ((h.produced x hproducer).2 b hb).to_reflTransGen

variable (hplan : plan.Formed adds declared)

include hplan

/-- What is fetched is asked for, under its own name or under that of another half of a split. -/
theorem FusedPlan.Formed.asks_of_fetches (hfetches : Fetches plan x name) :
    FusedAsks plan x name ∨ ∃ other, FusedAsks plan x other ∧ producer plan.program other = producer plan.program name ∧
      (producer plan.program name).isSome = true := by
  cases hfetches with
  | own hstmt _ _ _ hmem => exact Or.inl (.plain (.own hstmt (List.mem_append_left _ hmem)))
  | shared hplaced hpair hstmt hmem =>
    exact Or.inl (.plain (.shared hplaced hpair hstmt (List.mem_append_left _ hmem)))
  | @gate gate _ hgate hhalf =>
    obtain ⟨sigmoid, product, hp⟩ := hplan.plain.arities.gatePlaces (hplan.plain.gates gate hgate)
    obtain ⟨place, -, -, -, ha, hb⟩ := hp.halves
    have hmem : gate.a ∈ product.arrays.filter fun other => decide (other ≠ sigmoid.name) := by
      rw [hp.factors]
      exact List.mem_singleton_self _
    have hask : FusedAsks plan gate.mul gate.a :=
      .plain (.own hp.productAt (List.mem_append_left _ (List.mem_filter.mp hmem).1))
    rcases hhalf with rfl | rfl
    · exact Or.inl hask
    · refine Or.inr ⟨gate.a, hask, ha.trans hb.symm, ?_⟩
      rw [hb, Option.isSome_some]
  | @mask fusion select a c b _ hfusion hselect harrays hmem =>
    refine Or.inl (.plain (.own hselect ?_))
    rw [harrays]
    rcases hmem with rfl | rfl <;> simp
  | summand hfusion hsummand => exact Or.inl (.summand hfusion hsummand)

/-- A name that is fetched by the statement that is executed. -/
theorem Current.sought_of_fetches (h : Current plan stopAfter busy x)
    (hw : Warranted plan kernels given wanted stopAfter) (hfetches : Fetches plan x name) :
    Sought plan given stopAfter busy name := by
  rcases hplan.asks_of_fetches hfetches with hask | ⟨other, hask, heq, hsome⟩
  · exact h.sought hw hask
  · have hother := h.sought hw hask
    refine ⟨fun y hproducer => hother.produced y (heq.trans hproducer), fun hnone => ?_⟩
    rw [hnone] at hsome
    cases hsome

/-- A name that a statement in progress fetches has an array or host data as soon as it is available. -/
theorem Stocked.has_of_fetches (h : Stocked plan kernels stopAfter busy s given)
    (hw : Warranted plan kernels given wanted stopAfter) (hx : Current plan stopAfter busy x) (hbusy : busy x)
    (hfetches : Fetches plan x name) (hidle : Idle plan.toPlan s name) : s.has name = true := by
  have hsought := hx.sought_of_fetches hplan hw hfetches
  rcases hidle with hhas | hdone
  · exact hhas
  have hof (hvalue : (s.values name).isSome = true) : s.has name = true := by rw [Runner.has, hvalue, Bool.true_or]
  cases hproducer : producer plan.program name with
  | none => exact hof (h.given name (hsought.provided hproducer))
  | some y =>
    obtain ⟨stmt, hstmt, hname⟩ := producer_spec hproducer
    have hfinished := (h.ended y (hdone y hproducer)).resolve_left (hsought.not_busy hw hproducer)
    rcases hfinished.stored stmt hstmt name hname with hdelivered | hdropped | hsigmoid
    · rcases hdelivered with hvalue | ⟨-, hhost | hended⟩
      · exact hof hvalue
      · rw [Runner.has, hhost, Bool.or_true]
      · exact absurd hbusy (hended x hx.reached hfetches).2
    · exact absurd hdropped (hw.spared.unread x name hx.reached hfetches)
    · exact absurd hsigmoid (hplan.loud_of_fetches hfetches hproducer)

omit hplan in
/-- What an available name leads to is left behind. -/
theorem Stocked.behind_of_idle (h : Stocked plan kernels stopAfter busy s given) (hidle : Idle plan.toPlan s name)
    (hproducer : producer plan.program name = some y) : Behind plan s y :=
  hidle.elim (fun hhas => h.behind name y hhas hproducer) fun hdone => Or.inl (hdone y hproducer)

/-- With nothing in progress, what is left behind leads only to what is. -/
theorem Stocked.behind_of_reaches (h : Stocked plan kernels stopAfter (fun _ => False) s given)
    (hx : Behind plan s x) (hreach : FusedReaches plan x y) : Behind plan s y := by
  induction hreach with
  | refl => exact hx
  | @tail y z _ hdraws ih =>
    rcases ih with hdone | ⟨stmt, hstmt, hop⟩ | ⟨linear, hpair, hdone⟩
    · exact ((h.ended y hdone).resolve_left id).drawn z hdraws
    · exact absurd hdraws (hplan.constant_draws_nothing hstmt hop)
    · obtain ⟨name, hask, hproducer⟩ := hdraws
      obtain ⟨user, reader, hp⟩ := hplan.plain.arities.siluPair hpair
      have hlinear : name = user.name → Behind plan s z := by
        rintro rfl
        obtain rfl := Option.mem_unique (hplan.plain.producer_name hp.linearAt) hproducer
        exact Or.inl hdone
      cases hask with
      | plain hask =>
        cases hask with
        | own hstmt hname =>
          obtain rfl := Option.mem_unique hp.siluAt hstmt
          rw [hp.arrays, hp.hosts, List.append_nil, List.mem_singleton] at hname
          exact hlinear hname
        | shared _ hisland =>
          exact absurd hisland (hplan.plain.not_paired hp.siluAt (by rw [hp.isSilu]; decide) _).1
        | scores _ hisland =>
          exact absurd hisland (hplan.plain.not_paired hp.siluAt (by rw [hp.isSilu]; decide) _).2
      | summand hfusion =>
        have hop := hplan.isSelect hfusion hp.siluAt
        rw [hp.isSilu] at hop
        cases hop

end Seeking

section Calling

variable {i : ℕ} (hplan : plan.Formed adds declared)

include hplan

/-- A result that a statement retires stays in one of the tables, or whoever fetches it is over. -/
theorem Stocked.delivered_of_release (h : Stocked plan kernels stopAfter (fun _ => False) s given)
    (hw : Warranted plan kernels given wanted stopAfter) (hdue : ∀ y < i + 1, s.done y = true)
    (hhost : HostHeld plan kernels name → (s.hosts name).isSome = true)
    (hdelivered : Delivered plan stopAfter (fun _ => False) s name) :
    Delivered plan stopAfter (fun _ => False) (s.release (retired plan.toPlan (stopAfter :: wanted) i)) name := by
  refine hdelivered.elim (fun hvalue => ?_) Or.inr
  by_cases hretired : retired plan.toPlan (stopAfter :: wanted) i name = true
  · rw [retired, Bool.and_eq_true, decide_eq_true_iff, decide_eq_true_iff] at hretired
    obtain ⟨hlast, hopen⟩ := hretired
    refine Or.inr ⟨fun heq => hopen (heq ▸ List.mem_cons_self), ?_⟩
    by_cases hheld : (s.hosts name).isSome = true
    · exact Or.inl hheld
    refine Or.inr fun x hx hfetches => ⟨?_, id⟩
    rcases hw.spared.due_of_fetches hplan hx hfetches hlast hopen with hle | hheld' | ⟨⟨j, hj, hreach⟩, hop⟩
    · exact hdue x (by omega)
    · exact absurd (hhost hheld') hheld
    · rcases h.behind_of_reaches hplan (Or.inl (hdue j (by omega))) hreach with hdone | ⟨stmt, hstmt, hconstant⟩ |
        ⟨linear, hpair, -⟩
      · exact hdone
      · exact absurd hconstant (hop stmt hstmt).1
      · obtain ⟨user, reader, hp⟩ := hplan.plain.arities.siluPair hpair
        exact absurd hp.isSilu (hop reader hp.siluAt).2
  · left
    change (if retired plan.toPlan (stopAfter :: wanted) i name = true then none else s.values name).isSome = true
    rwa [if_neg hretired]

/-- The names that a statement retires leave the table. -/
theorem Stocked.release (h : Stocked plan kernels stopAfter (fun _ => False) s given)
    (hw : Warranted plan kernels given wanted stopAfter) (hdue : ∀ y < i + 1, s.done y = true)
    (hgiven : ∀ name ∈ given, producer plan.program name = none) :
    Stocked plan kernels stopAfter (fun _ => False) (s.release (retired plan.toPlan (stopAfter :: wanted) i))
      given where
  held := h.held.release _
  given := by
    intro name hname
    have hretired : ¬ retired plan.toPlan (stopAfter :: wanted) i name = true := by
      rw [retired, Bool.and_eq_true, decide_eq_true_iff]
      rintro ⟨hlast, -⟩
      obtain ⟨y, hproducer⟩ := hplan.produced_of_lastUse hlast
      rw [hgiven name hname] at hproducer
      cases hproducer
    change (if retired plan.toPlan (stopAfter :: wanted) i name = true then none else s.values name).isSome = true
    rw [if_neg hretired]
    exact h.given name hname
  begun := fun _ hfalse => hfalse.elim
  ended := by
    intro y hy
    have hfinished := (h.ended y hy).resolve_left id
    refine Or.inr ⟨fun stmt hstmt name hname => ?_, hfinished.drawn, fun silu stmt hpair hstmt hsilu => ?_,
      hfinished.added, hfinished.host⟩
    · refine (hfinished.stored stmt hstmt name hname).imp_left (h.delivered_of_release hplan hw hdue ?_)
      rintro ⟨k, constant, hconstant, hop, rfl, hhost⟩
      obtain rfl := Option.some.inj ((hplan.plain.producer_name hconstant).symm.trans
        (hplan.plain.single.producer_eq hstmt hname))
      exact hfinished.host constant hconstant hop hhost
    · refine h.delivered_of_release hplan hw hdue ?_ (hfinished.silu silu stmt hpair hstmt hsilu)
      rintro ⟨k, constant, hconstant, hop, hname, -⟩
      obtain rfl := hplan.plain.constant_eq hconstant hstmt hname
      obtain ⟨user, reader, hp⟩ := hplan.plain.arities.siluPair hpair
      obtain rfl := Option.mem_unique hconstant hp.siluAt
      rw [hp.isSilu] at hop
      cases hop
  behind := by
    intro name y hhas hproducer
    refine h.behind name y ?_ hproducer
    rw [Runner.has, Bool.or_eq_true] at hhas ⊢
    refine hhas.imp_left fun hvalue => ?_
    change (if retired plan.toPlan (stopAfter :: wanted) i name = true then none else s.values name).isSome = true
      at hvalue
    split_ifs at hvalue
    · cases hvalue
    · exact hvalue

/-- A call starts with what is given and with constants. -/
theorem Stocked.start {inputs : List (ν × V)} (hdeclared : ∀ pair ∈ inputs, pair.1 ∈ declared)
    (hheld : Held plan.toPlan kernels s) (hfresh : Fresh plan.toPlan s)
    (hwhole : ∀ k, s.done k = true → (kernels.literal k).whole = true)
    (hw : Warranted plan kernels (inputs.map Prod.fst) wanted stopAfter) :
    Stocked plan kernels stopAfter (fun _ => False) ((s.reset plan.toPlan).setValues inputs)
      (inputs.map Prod.fst) where
  held := hheld.start hplan.plain hdeclared
  given := fun name hname => setValues_of_mem _ hname
  begun := fun _ hfalse => hfalse.elim
  ended := by
    intro y hy
    right
    have hcached : plan.cache = true ∧ s.done y = true := by
      change (if s.warm plan.toPlan = true then _ else _) = true at hy
      split_ifs at hy with hwarm
      · exact ⟨((Bool.and_eq_true _ _).mp hwarm).1, ((Bool.and_eq_true _ _).mp hy).1⟩
      · exact (Bool.and_eq_true _ _).mp hy
    obtain ⟨hcache, hdone⟩ := hcached
    obtain ⟨stmt, hstmt, hop⟩ := hfresh.constants y hdone
    obtain ⟨hhost, harray⟩ := hheld.known hcache y stmt hstmt hop hdone (hwhole y hdone)
    refine .constant hplan hstmt hop (fun hsome => ?_) (fun hsome => ?_) (hwhole y hdone) (hw.array y stmt hstmt hop)
    · rwa [hplan.plain.start_cached hdeclared s hcache hstmt List.mem_cons_self, harray]
    · rw [← hhost] at hsome
      exact hsome
  behind := by
    intro name y hhas hproducer
    obtain ⟨stmt, hstmt, hname⟩ := producer_spec hproducer
    by_cases hop : stmt.op = .const
    · exact Or.inr (Or.inl ⟨stmt, hstmt, hop⟩)
    have hplain := hplan.plain.plain hstmt hop hname
    rw [Runner.has, hplan.plain.start_values hdeclared s hstmt hname] at hhas
    rw [hheld.no_cached hplain, ite_self] at hhas
    change (false || (s.hosts name).isSome) = true at hhas
    rw [hheld.no_host hplain] at hhas
    cases hhas

end Calling

end AneLinux.Encoder
