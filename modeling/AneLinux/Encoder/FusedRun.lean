import AneLinux.Encoder.FusedStep

/-!
# The fused package finds its operands

Release points are those of the program as written, and the fused package reads the summands of an add at the place of
the select. Where the fusions do no harm (`Spared`), a call that returns without them resolves all it asks for with
them. A summand that only the add before the select reads is released too early.
-/

namespace AneLinux.Encoder

open AneLinux.Support Attempt Direct

variable {ν V M : Type} [DecidableEq ν]

variable {program : Program ν} {kernels : Kernels V M} {device : Job V → Except String (ℕ → V)} {plan : Plan ν}
  {built : Runner ν V M} {adds : ℕ → Bool} {declared wanted : List ν} {stopAfter : ν}

section Building

/-- What building a runner evaluates is whole. -/
abbrev Whole (kernels : Kernels V M) (s : Runner ν V M) : Prop :=
  ∀ k, s.done k = true → (kernels.literal k).whole = true

theorem whole_ensureConstant (name : ν) : Ends (Whole kernels) (ensureConstant kernels (direct device) plan name)
    (fun _ s => Whole kernels s) fun _ _ => True := by
  intro s hs
  unfold ensureConstant
  rw [Direct.reads_bind, id_eq]
  split_ifs with hhas
  · exact hs
  cases hproducer : producer plan.program name with
  | none => trivial
  | some x =>
    obtain ⟨stmt, hstmt, -⟩ := producer_spec hproducer
    dsimp only
    split_ifs with hdone
    · exact hs
    rw [hstmt]
    dsimp only
    split_ifs with hop
    · rw [Direct.change_bind]
      obtain ⟨s', hexecuted, hrun⟩ := evalConst_begin plan kernels device x stmt.name s
      rw [hrun]
      split_ifs with hwhole
      · intro k hk
        rw [hexecuted.done] at hk
        rcases Runner.begin_done.mp hk with rfl | hk
        · exact hwhole
        · exact hs k hk
      · trivial
    · trivial

theorem whole_scalar (name : ν) : Ends (Whole kernels) (scalar (ensureConstant kernels (direct device) plan) name)
    (fun _ s => Whole kernels s) fun _ _ => True :=
  Ends.bind (whole_ensureConstant name) fun _ => Ends.reads_bind fun _ hs =>
    Ends.orRaise (fun _ _ _ heq => heq ▸ hs) fun _ _ _ => trivial

theorem whole_fusedGates (gates : List (Gate ν)) : Ends (Whole kernels) (fusedGates kernels (direct device) plan gates)
    (fun _ s => Whole kernels s) fun _ _ => True := by
  induction gates with
  | nil => exact Ends.pure fun _ hs => hs
  | cons gate rest ih =>
    refine Ends.bind (whole_scalar gate.axis) fun axis => ?_
    split_ifs
    · exact Ends.bind (whole_scalar gate.count) fun count => Ends.bind ih fun gates => Ends.pure fun _ hs => hs
    · exact ih

theorem build_whole {options : Options}
    (hrun : build kernels (direct device) program options (Runner.blank program options.chain) = (.ok plan, built)) :
    Whole kernels built := by
  obtain ⟨islands, s₁, hindex, hrun⟩ := bind_eq_ok.mp hrun
  obtain ⟨hislands, rfl⟩ := orRaise_eq_ok hindex
  obtain ⟨fused, s₂, hfused, hrun⟩ := bind_eq_ok.mp hrun
  obtain ⟨-, rfl⟩ := pure_eq_ok hrun
  refine (whole_fusedGates _).of_ok (fun k hk => ?_) hfused
  cases hk

end Building

section Looping

variable {plan : FusedPlan ν} {given : List ν} {i stop : ℕ} {stmt : Statement ν} {s : Runner ν V M}
  (hw : Warranted plan kernels given wanted stopAfter) (hplan : plan.Formed adds declared)

include hw hplan

omit hplan in
/-- The name that the call stops after is in the table as soon as its statement is over. -/
theorem Stocked.kept (h : Stocked plan kernels stopAfter (fun _ => False) s given)
    (hstmt : plan.program[stop]? = some stmt) (hstop : producer plan.program stopAfter = some stop)
    (hdone : s.done stop = true) : stopAfter ∈ (s.kept wanted stmt).map Prod.fst := by
  obtain ⟨other, hother, hname⟩ := producer_spec hstop
  obtain rfl := Option.mem_unique hstmt hother
  have hvalue : (s.values stopAfter).isSome = true := by
    have hfinished := (h.ended stop hdone).resolve_left id
    rcases hfinished.stored stmt hstmt stopAfter hname with hdelivered | hdropped | hsigmoid
    · exact hdelivered.resolve_right fun hother => hother.1 rfl
    · exact absurd hdropped hw.spared.stop
    · exact absurd hsigmoid (hw.loud stop hstop)
  obtain ⟨v, hv⟩ := Option.isSome_iff_exists.mp hvalue
  refine List.mem_map.mpr ⟨(stopAfter, v), List.mem_filterMap.mpr ⟨stopAfter, hname, ?_⟩, rfl⟩
  rw [if_pos hw.wanted, hv, Option.map_some]

variable (device : Job V → Except String (ℕ → V)) (form : V → V → Bool) (mask : V → V)
  (submit : List V → ℕ → Except String V)

/-- The loop resolves all it asks for, and ends no later than at the name the call stops after. -/
theorem resolves_statementsFusedFrom {rest : Program ν} (hrest : plan.program.drop i = rest)
    (hstop : producer plan.program stopAfter = some stop) (hle : i ≤ stop)
    (hgiven : ∀ name ∈ given, producer plan.program name = none) (keep : List (ν × V)) :
    Ends (AtHand plan kernels given stopAfter i (fun _ => False) [])
      (statementsFusedFrom plan kernels (direct device) (directAb form mask submit) wanted stopAfter i rest keep)
      (fun _ _ => True) fun e s => ¬ Unresolved e s := by
  induction rest generalizing i keep with
  | nil => exact Ends.raise fun _ _ => id
  | cons stmt rest ih =>
    obtain ⟨hstmt, hdrop⟩ := next_of_drop hrest
    have hx : Current plan stopAfter (fun _ => False) i := ⟨⟨i, ⟨stop, hstop, hle⟩, .refl⟩, fun _ hfalse => hfalse.elim⟩
    have hserves := serves_ensureFused device form mask submit hw hplan plan.limit
    refine Ends.bind ((finds_executeFused hserves hw hplan hx hstmt fun name hname => hname).conseq
      (fun s hs => ⟨hs.stocked, hs.due, fun name hname => ?_⟩) fun _ _ hs => hs) fun _ => Ends.reads_bind fun s hs => ?_
    · exact Or.inr fun y hy => hs.due y (hplan.plain.single.producer_lt hstmt hname hy)
    obtain ⟨hs, hdone⟩ := hs
    have hdue : ∀ y < i + 1, s.done y = true := fun y hy =>
      (Nat.lt_succ_iff_lt_or_eq.mp hy).elim (hs.due y) fun heq => heq ▸ hdone
    rintro s' rfl
    rw [id_eq, Direct.change_bind]
    split_ifs with hkept
    · trivial
    · have hlt : i + 1 ≤ stop := by
        refine Nat.lt_of_le_of_ne hle fun heq => hkept ?_
        subst heq
        rw [List.map_append]
        exact List.mem_append_right _ (hs.stocked.kept hw hstmt hstop hdone)
      exact ih hdrop hlt _ _ ⟨hs.stocked.release hplan hw hdue hgiven, hdue, fun _ hno => absurd hno List.not_mem_nil⟩

/-- A call on a runner that is built: when it raises, nothing is unresolved. -/
theorem resolves_runFused {inputs : List (ν × V)} (hdeclared : ∀ pair ∈ inputs, pair.1 ∈ declared)
    (hheld : Held plan.toPlan kernels built) (hfresh : Fresh plan.toPlan built) (hwhole : Whole kernels built)
    (hgiven : given = inputs.map Prod.fst) (hstop : producer plan.program stopAfter = some stop) :
    Ends (fun s => s = built)
      (runFused plan kernels (direct device) (directAb form mask submit) inputs wanted stopAfter) (fun _ _ => True)
      fun e s => ¬ Unresolved e s := by
  subst hgiven
  unfold runFused
  rw [entries_direct]
  rintro _ rfl
  rw [Direct.change_bind]
  have hinputs : ∀ name ∈ inputs.map Prod.fst, producer plan.program name = none := by
    intro name hname
    rw [producer_eq_none]
    obtain ⟨pair, hpair, rfl⟩ := List.mem_map.mp hname
    exact hplan.plain.single.fresh pair.1 (hdeclared pair hpair)
  have hloop := resolves_statementsFusedFrom hw hplan device form mask submit rfl hstop (Nat.zero_le stop) hinputs []
  refine Ends.bind hloop (fun keep => ?_) _ ⟨.start hplan hdeclared hheld hfresh hwhole hw,
    fun y hy => absurd hy (Nat.not_lt_zero y), fun _ hno => absurd hno List.not_mem_nil⟩
  split_ifs
  · intro s _
    rw [collect_settled]
    trivial
  · exact Ends.raise fun _ _ => id

end Looping

section Calls

variable {fusions : List Fusion} {form : V → V → Bool} {mask : V → V} {submit : List V → ℕ → Except String V}
  {inputs kept : List (ν × V)} {options : Options} {final : Runner ν V M}

/-- A call that returns, or raises for something else than an operand or a tensor that is not resolved. -/
def Resolves {α : Type} (ending : Except (Err ν) α × Runner ν V M) : Prop :=
  match ending with
  | (.ok _, _) => True
  | (.error e, s) => ¬ Unresolved e s

/-- Where the fusions do no harm, a call that returns with the switch off resolves all it asks for with the switch
on. -/
theorem runFused_resolves (hsingle : SingleAssignment program declared) (harities : Arities program)
    (hadds : AddArity program adds)
    (hbuild : build kernels (direct device) program options (Runner.blank program options.chain) = (.ok plan, built))
    (hfusions : indexFusions program adds plan.islands = some fusions)
    (hinputs : ∀ pair ∈ inputs, pair.1 ∈ declared)
    (hspared : Spared ⟨plan, fusions⟩ kernels (inputs.map Prod.fst) wanted stopAfter)
    (hrun : run plan kernels (direct device) inputs wanted stopAfter built = (.ok kept, final)) :
    Resolves (runFused ⟨plan, fusions⟩ kernels (direct device) (directAb form mask submit) inputs wanted stopAfter
      built) := by
  obtain ⟨rfl, hplain, hheld, hfresh⟩ := build_fresh hsingle harities hbuild
  have hplan : FusedPlan.Formed ⟨plan, fusions⟩ adds declared := ⟨hplain, hfusions, hadds⟩
  obtain ⟨hwithin, hwanted, stop, hstop, hloud, harray⟩ := run_computable hplain hinputs hheld hfresh hrun
  have hw : Warranted ⟨plan, fusions⟩ kernels (inputs.map Prod.fst) wanted stopAfter := by
    refine ⟨hspared, fun y hy => hspared.computable_fused hplan hwithin hy, hwanted, fun y hy => ?_,
      fun k stmt hstmt hop hname => ?_⟩
    · obtain rfl := Option.mem_unique hstop hy
      exact hloud
    · have hproducer := hplain.producer_name hstmt
      rw [hname, hstop] at hproducer
      obtain rfl := Option.some.inj hproducer
      exact harray stmt hstmt hop
  have hends := resolves_runFused hw hplan device form mask submit hinputs hheld hfresh (build_whole hbuild) rfl hstop
  rcases hfused : runFused ⟨plan, fusions⟩ kernels (direct device) (directAb form mask submit) inputs wanted stopAfter
    built with ⟨e | values, s⟩
  · exact hends.of_error rfl hfused
  · trivial

end Calls

section OneLayer

/-- One attention layer: the select masks the sum of the scores and the content. -/
def sumProgram : Program ℕ :=
  [⟨10, [], .const, none, [], [], false, none⟩,
   ⟨11, [], .const, none, [], [], false, none⟩,
   ⟨21, [], .matmul, some .scores, [0, 3], [10, 10], false, some 4⟩,
   ⟨23, [], .matmul, some .content, [2, 3], [10, 11], false, some 4⟩,
   ⟨26, [], .other, none, [21, 23], [], false, some 4⟩,
   ⟨24, [], .select, some .maskSelect, [0, 1, 26], [], false, some 4⟩,
   ⟨25, [], .matmul, some .attnOut, [24, 3], [10, 10], false, some 4⟩]

/-- Integer kernels for it. -/
def sumKernels : Kernels ℤ ℤ :=
  { layerKernels true with
    literal := fun i => match i with
      | 0 => .inline 0 (some 0)
      | _ => .inline 1 (some 1)
    op := fun i vs _ => match i, vs with
      | 4, [x, y] => some (x + y)
      | 5, [a, c, b] => some (a + c + b)
      | _, [x, y] => some (x * y)
      | _, _ => none }

/-- Its plan with the first and the third island placed. -/
def sumPlan : Plan ℕ := ⟨sumProgram, ⟨true, false, true⟩, true, false, 8, ⟨[(2, 3)], [5], [6]⟩, []⟩

/-- The package for it. -/
def sumAb : OutAb Id ℕ ℤ ℤ :=
  directAb (fun _ _ => true) id fun payload _ => match payload with
    | [s1, s2, fill, mask] => .ok (fill + mask + (s1 + s2))
    | _ => .error "inputs"

theorem addArity_sum : AddArity sumProgram (fun i => i == 4) := by
  intro k stmt hstmt hadd
  obtain ⟨other, hother, -, hk⟩ := isAdd_iff.mp hadd
  obtain rfl := beq_iff_eq.mp hk
  obtain rfl := Option.some.inj hstmt
  exact ⟨rfl, rfl⟩

/-- With the summands wanted, nothing that is read is dropped or released. -/
theorem spared_sum : Spared ⟨sumPlan, [⟨5, 4, false⟩]⟩ sumKernels (layerInputs.map Prod.fst) [21, 23, 25] 25 := by
  have hsummand {name : ℕ} (h : Summand ⟨sumPlan, [⟨5, 4, false⟩]⟩ ⟨5, 4, false⟩ name) : name = 21 ∨ name = 23 :=
    h.of_places rfl rfl rfl
  have hdropped {name : ℕ} (h : Dropped ⟨sumPlan, [⟨5, 4, false⟩]⟩ name) : name = 26 := by
    cases h with
    | select hfusion hlater =>
      rw [List.mem_singleton.mp hfusion] at hlater
      cases hlater
    | add hfusion _ _ hstmt =>
      rw [List.mem_singleton.mp hfusion] at hstmt
      obtain rfl := Option.some.inj hstmt
      rfl
  have hown : ∀ x < 7, x ∉ [4] → x ∉ [5] → (sumProgram[x]?).all (fun stmt => decide (26 ∉ stmt.arrays)) = true := by
    decide
  refine ⟨fun x name _ hfetches hname => ?_, fun hname => ?_, fun fusion hfusion _ _ name hname => ?_,
    fun fusion hfusion hlater => ?_⟩
  · obtain rfl := hdropped hname
    cases hfetches with
    | own hstmt hadd hselect _ hmem =>
      have hall := hown x (List.getElem?_eq_some_iff.mp hstmt).1 hadd hselect
      change sumProgram[x]? = _ at hstmt
      rw [hstmt, Option.all_some, decide_eq_true_iff] at hall
      exact hall hmem
    | shared _ hpair hstmt hmem =>
      obtain ⟨rfl, rfl⟩ := Prod.mk.inj (List.mem_singleton.mp hpair)
      obtain rfl := Option.some.inj hstmt
      exact absurd hmem (by decide)
    | gate hgate => cases hgate
    | mask hfusion hselect harrays hname =>
      obtain rfl := List.mem_singleton.mp hfusion
      obtain rfl := Option.some.inj hselect
      cases harrays
      exact absurd hname (by decide)
    | summand hfusion hname =>
      obtain rfl := List.mem_singleton.mp hfusion
      exact absurd (hsummand hname) (by decide)
  · exact absurd (hdropped hname) (by decide)
  · obtain rfl := List.mem_singleton.mp hfusion
    rcases hsummand hname with rfl | rfl
    · exact Or.inr (Or.inl (by decide))
    · exact Or.inr (Or.inl (by decide))
  · rw [List.mem_singleton.mp hfusion] at hlater
    cases hlater

/-- The add is the last reader of both summands, so they are gone when the select reads them. -/
theorem runFused_unresolved : SingleAssignment sumProgram (layerInputs.map Prod.fst) ∧ Arities sumProgram ∧
    AddArity sumProgram (fun i => i == 4) ∧
    build sumKernels (direct layerDevice) sumProgram ⟨⟨true, false, true⟩, true, false, 8⟩
      (Runner.blank sumProgram true) = (.ok sumPlan, Runner.blank sumProgram true) ∧
    indexFusions sumProgram (fun i => i == 4) sumPlan.islands = some [⟨5, 4, false⟩] ∧
    (run sumPlan sumKernels (direct layerDevice) layerInputs [25] 25 (Runner.blank sumProgram true)).1 =
      .ok [(25, 902)] ∧
    (runFused ⟨sumPlan, [⟨5, 4, false⟩]⟩ sumKernels (direct layerDevice) sumAb layerInputs [25] 25
      (Runner.blank sumProgram true)).1 = .error (.unresolvedTensor 21) ∧
    ¬ Resolves (runFused ⟨sumPlan, [⟨5, 4, false⟩]⟩ sumKernels (direct layerDevice) sumAb layerInputs [25] 25
      (Runner.blank sumProgram true)) := by
  have herror : (runFused ⟨sumPlan, [⟨5, 4, false⟩]⟩ sumKernels (direct layerDevice) sumAb layerInputs [25] 25
      (Runner.blank sumProgram true)).1 = .error (.unresolvedTensor 21) := by decide +kernel
  have hhost : (runFused ⟨sumPlan, [⟨5, 4, false⟩]⟩ sumKernels (direct layerDevice) sumAb layerInputs [25] 25
      (Runner.blank sumProgram true)).2.hosts 21 = none := by decide +kernel
  refine ⟨by decide, by decide, addArity_sum, rfl, by decide, by decide +kernel, herror, fun hresolves => ?_⟩
  generalize runFused ⟨sumPlan, [⟨5, 4, false⟩]⟩ sumKernels (direct layerDevice) sumAb layerInputs [25] 25
    (Runner.blank sumProgram true) = ending at herror hhost hresolves
  obtain ⟨result, s⟩ := ending
  obtain rfl : result = _ := herror
  exact hresolves hhost

/-- With the summands wanted, the call returns. -/
theorem runFused_resolves_sum :
    Resolves (runFused ⟨sumPlan, [⟨5, 4, false⟩]⟩ sumKernels (direct layerDevice) sumAb layerInputs [21, 23, 25] 25
      (Runner.blank sumProgram true)) ∧
    (runFused ⟨sumPlan, [⟨5, 4, false⟩]⟩ sumKernels (direct layerDevice) sumAb layerInputs [21, 23, 25] 25
      (Runner.blank sumProgram true)).1 = .ok [(21, 22), (23, 55), (25, 902)] := by
  have hsingle : SingleAssignment sumProgram (layerInputs.map Prod.fst) := by decide
  have harities : Arities sumProgram := by decide
  have hbuild : build sumKernels (direct layerDevice) sumProgram ⟨⟨true, false, true⟩, true, false, 8⟩
      (Runner.blank sumProgram true) = (.ok sumPlan, Runner.blank sumProgram true) := rfl
  have hfusions : indexFusions sumProgram (fun i => i == 4) sumPlan.islands = some [⟨5, 4, false⟩] := by decide
  have hinputs : ∀ pair ∈ layerInputs, pair.1 ∈ layerInputs.map Prod.fst := by decide
  have hrun : (run sumPlan sumKernels (direct layerDevice) layerInputs [21, 23, 25] 25
      (Runner.blank sumProgram true)).1 = .ok [(21, 22), (23, 55), (25, 902)] := by decide +kernel
  have hfused : (runFused ⟨sumPlan, [⟨5, 4, false⟩]⟩ sumKernels (direct layerDevice) sumAb layerInputs [21, 23, 25] 25
      (Runner.blank sumProgram true)).1 = .ok [(21, 22), (23, 55), (25, 902)] := by decide +kernel
  have hspared := spared_sum
  -- with a plan that is not known, the elaborator has no calls to evaluate
  generalize sumPlan = plan at hbuild hfusions hrun hfused hspared ⊢
  exact ⟨runFused_resolves hsingle harities addArity_sum hbuild hfusions hinputs hspared (Prod.ext hrun rfl), hfused⟩

end OneLayer

end AneLinux.Encoder
