import AneLinux.Encoder.PassStep

/-!
# A pass computes what the program says

Executing a statement whose operands are ready, ensuring a name and going to the next statement all keep what holds
during a pass. So the loop over the statements, whatever it pulls forward and releases, keeps final values alone.
-/

namespace AneLinux.Encoder

open AneLinux.Support Attempt Direct

variable {ν V M : Type} [DecidableEq ν]

variable {plan : Plan ν} {kernels : Kernels V M} {device : Job V → Except String (ℕ → V)} {s s' : Runner ν V M}
  {x i : ℕ} {t : Tables ν V M} {early : ν → Option M} {inputs : List (ν × V)} {stopAfter : ν} {stmt : Statement ν}

section Constants

variable {name : ν}

/-- What evaluating a constant changes: its array and its host data, as far as it has them. -/
structure Evaluated (literal : Literal V M) (name : ν) (s s' : Runner ν V M) : Prop where
  done : s'.done = s.done
  siluDone : s'.siluDone = s.siluDone
  constValues : s'.constValues = s.constValues
  other : ∀ other, other ≠ name → s'.values other = s.values other ∧ s'.hosts other = s.hosts other
  value : s'.values name = literal.toArray.or (s.values name)
  host : s'.hosts name = literal.toHost.or (s.hosts name)

theorem Runner.setHost_hosts_self (y : M) : (s.setHost name y).hosts name = some y := Function.update_self ..

theorem Runner.setHost_hosts_of_ne {other : ν} (y : M) (h : other ≠ name) :
    (s.setHost name y).hosts other = s.hosts other :=
  Function.update_of_ne h ..

theorem evalLiteral_ok (hrun : evalLiteral kernels (direct device) x name s = (.ok (), s')) :
    Evaluated (kernels.literal x) name s s' := by
  unfold evalLiteral at hrun
  cases hliteral : kernels.literal x with
  | text host =>
    rw [hliteral] at hrun
    obtain rfl := change_eq_ok hrun
    exact ⟨rfl, rfl, rfl, fun other hne => ⟨rfl, s.setHost_hosts_of_ne host hne⟩, rfl, s.setHost_hosts_self host⟩
  | inline host array =>
    rw [hliteral] at hrun
    obtain ⟨_, s₁, hfirst, hrun⟩ := bind_eq_ok.mp hrun
    obtain ⟨v, s₂, hsecond, hrun⟩ := bind_eq_ok.mp hrun
    obtain rfl := change_eq_ok hrun
    obtain ⟨rfl, rfl⟩ := orRaise_eq_ok hsecond
    obtain rfl := change_eq_ok hfirst
    exact ⟨rfl, rfl, rfl, fun other hne =>
      ⟨(s.setHost name host).setValue_values_of_ne v hne, s.setHost_hosts_of_ne host hne⟩,
      (s.setHost name host).setValue_values_self name v, s.setHost_hosts_self host⟩
  | blob v host =>
    cases host with
    | none =>
      rw [hliteral] at hrun
      obtain rfl := change_eq_ok hrun
      exact ⟨rfl, rfl, rfl, fun other hne => ⟨s.setValue_values_of_ne v hne, rfl⟩, s.setValue_values_self name v, rfl⟩
    | some host =>
      rw [hliteral] at hrun
      obtain rfl := change_eq_ok hrun
      exact ⟨rfl, rfl, rfl, fun other hne => ⟨s.setValue_values_of_ne v hne, s.setHost_hosts_of_ne host hne⟩,
        s.setValue_values_self name v, s.setHost_hosts_self host⟩
  | broken =>
    rw [hliteral] at hrun
    cases hrun

theorem evalConst_ok (hrun : evalConst plan kernels (direct device) x name s = (.ok (), s')) :
    ∃ s₁, Evaluated (kernels.literal x) name s s₁ ∧ s' = s₁.store plan.cache name := by
  obtain ⟨_, s₁, hfirst, hrun⟩ := bind_eq_ok.mp hrun
  exact ⟨s₁, evalLiteral_ok hfirst, change_eq_ok hrun⟩

/-- Storing a constant keeps the tables. -/
theorem Runner.store_eq (s : Runner ν V M) (cache : Bool) (name : ν) :
    ∃ constants, s.store cache name = { s with constValues := constants } := by
  unfold Runner.store
  split
  · exact ⟨_, rfl⟩
  · exact ⟨s.constValues, rfl⟩

end Constants

section Executing

variable {busy : ℕ → Prop} {ensure : ν → Pass Id ν V M Unit} (hplan : plan.Formed (inputs.map Prod.fst))
  (hsolves : Solves kernels plan.program inputs t) (honTime : OnTime plan kernels t early stopAfter)
  (hturn : plan.Turn stopAfter i) (hcomposes : Composes plan.program plan.chain plan.islands kernels device)

variable (hensure : Ensures plan kernels t early i ensure)

include hensure hplan hsolves honTime hturn hcomposes in
/-- A statement that is no constant and of no fused pair, and its partner in a placed island. -/
theorem executeInner_plain_ok (h : PassInv plan kernels t early i busy (fun _ => False) s) (hdone : s.done x = true)
    (hstmt : plan.program[x]? = some stmt) (hconstant : stmt.op ≠ .const) (hsilu : ∀ linear, (linear, x) ∉ plan.silus)
    (hlinear : ∀ silu, (x, silu) ∉ plan.silus) (hnone : s.values stmt.name = none)
    (hlater : ∀ content, plan.placed.a = true → (x, content) ∈ plan.islands.pairs → i ≤ content)
    (hreach : Reaches plan i x) (hle : i ≤ x) (hquick : Quick plan.program ensure)
    (hready : ∀ name ∈ stmt.arrays ++ stmt.hosts, Available plan s name)
    (hrun : executeInner plan kernels (direct device) ensure x stmt s = (.ok (), s')) :
    After plan kernels t early i busy (fun _ => False) x s s' ∧ Fed plan busy s' x := by
  have hplaces := indexIslands_eq_some hplan.islands
  have hdispatch := hplan.dispatch kernels (direct device) ensure hstmt hconstant
  generalize executeInner plan kernels (direct device) ensure x stmt = run at hdispatch hrun
  cases hdispatch with
  | @islandA content contentStmt hplaced hpair hcontent =>
    obtain ⟨hafter, hpartner, hserved, hservedc⟩ := runIslandA_ok hplan hsolves honTime hturn hensure hcomposes h hdone
      hplaced hpair hstmt hcontent hreach hle (hlater content hplaced hpair) hrun
    refine ⟨hafter, hplan.fed hstmt hserved (fun y _ hy => ?_) fun other otherStmt _ hy hother => ?_⟩
    · rcases hy with hy | hy
      · rwa [← hplaces.content_unique hpair hy]
      · exact absurd hy (hplaces.scores_ne_content hpair)
    · obtain rfl := hplaces.content_unique hpair hy
      obtain rfl := Option.mem_unique hcontent hother
      exact hservedc
  | islandB hselect hop =>
    obtain ⟨hafter, hserved⟩ := runIslandB_ok hplan hsolves honTime hturn hensure hcomposes h hdone hstmt hop hselect
      hreach hle hrun
    exact ⟨hafter, hplan.fed_alone hstmt hserved fun _ => hplan.not_paired hstmt (by rw [hop]; decide)⟩
  | islandC hout hop halone =>
    obtain ⟨hafter, hserved⟩ := runIslandC_ok hplan hsolves honTime hturn hensure hcomposes h hdone hstmt hop hout
      hreach hle hrun
    exact ⟨hafter, hplan.fed_alone hstmt hserved fun _ => halone⟩
  | content hplaced hpair =>
    obtain ⟨hafter, hpartner, hserved⟩ := runContent_ok hplan hsolves honTime hturn hensure hcomposes h hdone hplaced
      hpair hstmt hnone hreach hle hquick hready hrun
    exact ⟨hafter, hplan.fed_content hstmt hserved hpair hpartner⟩
  | gpu halone =>
    obtain ⟨hafter, hserved⟩ := runGpu_ok hplan hsolves honTime hturn hensure hcomposes h hdone hstmt hconstant hsilu
      hlinear hreach hle hready hrun
    exact ⟨hafter, hplan.fed_alone hstmt hserved halone⟩

include hplan in
/-- A statement that is ready and neither a constant nor a silu is done. -/
theorem Ready.done (h : Ready plan s x) (hstmt : plan.program[x]? = some stmt) (hconstant : stmt.op ≠ .const)
    (hsilu : stmt.op ≠ .silu) : s.done x = true := by
  rcases h with hdone | ⟨other, hother, hop⟩ | ⟨linear, hpair, -⟩
  · exact hdone
  · obtain rfl := Option.mem_unique hstmt hother
    exact absurd hop hconstant
  · exact absurd hpair (hplan.not_silu hstmt hsilu linear)

include hplan hsolves in
/-- A constant is executed. -/
theorem executeInner_constant_ok (h : PassInv plan kernels t early i busy (fun y => y = x) s)
    (hundone : s.done x = false) (hstmt : plan.program[x]? = some stmt) (hop : stmt.op = .const)
    (hrun : executeInner plan kernels (direct device) ensure x stmt (s.begin x) = (.ok (), s')) :
    PassInv plan kernels t early i busy (fun _ => False) s' ∧ ∀ y, s'.done y = (s.begin x).done y := by
  have hproducer := hplan.producer_name hstmt
  unfold executeInner at hrun
  rw [if_pos hop] at hrun
  obtain ⟨s₁, hevaluated, rfl⟩ := evalConst_ok hrun
  obtain ⟨constants, hstore⟩ := s₁.store_eq plan.cache stmt.name
  rw [hstore]
  have hdone (y : ℕ) : s₁.done y = (s.begin x).done y := by rw [hevaluated.done]
  refine ⟨h.constant hplan hstmt hop hdone hevaluated.siluDone hevaluated.other ?_ fun y hy => ?_, hdone⟩
  · have hnone : s.values stmt.name = none := by
      rcases h.undone stmt.name x hproducer hundone with hnone | ⟨linear, hpair, -⟩
      · exact hnone
      · exact absurd hpair (hplan.not_silu hstmt (by rw [hop]; decide) linear)
    rw [hevaluated.value, hsolves.values_constant hstmt hop]
    change Option.or _ (s.values stmt.name) = _
    rw [hnone, Option.or_none]
  · have hfinal : t.hosts stmt.name = (kernels.literal x).toHost := by
      rw [hsolves.hosts x stmt hstmt stmt.name List.mem_cons_self, if_pos ⟨hop, rfl⟩]
    rw [hevaluated.host] at hy
    cases hhost : (kernels.literal x).toHost with
    | some z =>
      rw [hhost, Option.some_or] at hy
      rw [hfinal, hhost, hy]
    | none =>
      rw [hhost, Option.none_or] at hy
      have hold := h.hosts stmt.name y hy
      rw [hfinal, hhost] at hold
      cases hold

/-- A statement that is done is not executed again; the flag is set before it runs. -/
theorem execute_eq_ok (hstmt : plan.program[x]? = some stmt)
    (hrun : execute plan kernels (direct device) ensure x s = (.ok (), s')) :
    s.done x = true ∧ s = s' ∨
      s.done x = false ∧ executeInner plan kernels (direct device) ensure x stmt (s.begin x) = (.ok (), s') := by
  unfold execute at hrun
  rw [Direct.reads_bind, id_eq] at hrun
  by_cases hdone : s.done x = true
  · rw [if_pos hdone] at hrun
    exact Or.inl ⟨hdone, (pure_eq_ok hrun).2⟩
  · rw [if_neg hdone] at hrun
    obtain ⟨_, s₁, hbegin, hrun⟩ := bind_eq_ok.mp hrun
    obtain rfl := change_eq_ok hbegin
    rw [hstmt] at hrun
    exact Or.inr ⟨Bool.not_eq_true _ ▸ hdone, hrun⟩

include hplan hsolves in
/-- A silu is executed after its linear. -/
theorem execute_silu_ok (hquick : Quick plan.program ensure)
    (h : PassInv plan kernels t early i busy (fun y => y = x) s) {linear : ℕ} (hpair : (linear, x) ∈ plan.silus)
    (hlinear : s.done linear = true) (hrun : execute plan kernels (direct device) ensure x s = (.ok (), s')) :
    After plan kernels t early i busy (fun _ => False) x s s' ∧ s'.done x = true := by
  obtain ⟨user, reader, hp⟩ := hplan.arities.siluPair hpair
  rcases execute_eq_ok hp.siluAt hrun with ⟨hdone, rfl⟩ | ⟨-, hrun⟩
  · refine ⟨.refl (h.settled fun silu hsilu => ?_), hdone⟩
    rw [hsilu]
    exact hdone
  · exact executeInner_silu_ok hplan hsolves h hquick hpair hp hlinear hrun

include hensure hplan hsolves honTime hturn hcomposes in
/-- A linear that may compute its silu is executed. -/
theorem executeInner_linear_ok (h : PassInv plan kernels t early i busy (fun y => y = x) s) (hdone : s.done x = false)
    (hbusy : PassInv plan kernels t early i (fun y => busy y ∨ y = x) (fun _ => False) (s.begin x)) {silu : ℕ}
    (hpair : (x, silu) ∈ plan.silus) (hstmt : plan.program[x]? = some stmt) (hreach : Reaches plan i x) (hle : i ≤ x)
    (hrun : executeInner plan kernels (direct device) ensure x stmt (s.begin x) = (.ok (), s')) :
    After plan kernels t early i busy (fun silu => (x, silu) ∈ plan.silus) x (s.begin x) s' := by
  obtain ⟨user, reader, hp⟩ := hplan.arities.siluPair hpair
  obtain rfl := Option.mem_unique hstmt hp.linearAt
  rw [executeInner_of_op hplan hstmt (by rw [hp.isLinear]; decide) (by rw [hp.isLinear]; decide)
    (by rw [hp.isLinear]; decide), runGpu_eq_runApply hplan hstmt (by rw [hp.isLinear]; decide)
    (by rw [hp.isLinear]; decide) (by rw [hp.isLinear]; decide) (by rw [hp.isLinear]; simp)] at hrun
  have hfree : ¬ busy x := fun hb => by
    rw [h.begun x hb] at hdone
    cases hdone
  have hfresh : (s.begin x).done silu = false := by
    refine Runner.begin_not_done.mpr ⟨?_, ?_⟩
    · rintro rfl
      exact hplan.not_silu hstmt (by rw [hp.isLinear]; decide) _ hpair
    · by_contra hd
      rw [Bool.not_eq_false] at hd
      rw [h.order x silu hpair hd] at hdone
      cases hdone
  exact runApply_linear_ok hplan hsolves honTime hturn hensure hcomposes hbusy hfree
    (Runner.begin_done.mpr (Or.inl rfl)) hpair hp hfresh hreach hle hrun

include hensure hplan hsolves honTime hturn hcomposes in
/-- Executing a statement whose operands are ready. -/
theorem execute_ok (hquick : Quick plan.program ensure) (h : PassInv plan kernels t early i busy (fun y => y = x) s)
    (hstmt : plan.program[x]? = some stmt) (hreach : Reaches plan i x)
    (hready : ∀ name ∈ stmt.arrays ++ stmt.hosts, Available plan s name)
    (hrun : execute plan kernels (direct device) ensure x s = (.ok (), s')) :
    After plan kernels t early i busy (fun silu => (x, silu) ∈ plan.silus) x s s' ∧ s'.done x = true := by
  by_cases hsilu : ∃ linear, (linear, x) ∈ plan.silus
  · obtain ⟨linear, hpair⟩ := hsilu
    obtain ⟨user, reader, hp⟩ := hplan.arities.siluPair hpair
    obtain rfl := Option.mem_unique hstmt hp.siluAt
    have hname : user.name ∈ stmt.arrays ++ stmt.hosts := by
      rw [hp.arrays]
      exact List.mem_append_left _ (List.mem_singleton_self _)
    have hlinear := (hready _ hname linear (hplan.producer_name hp.linearAt)).done hplan hp.linearAt
      (by rw [hp.isLinear]; decide) (by rw [hp.isLinear]; decide)
    obtain ⟨hafter, hx⟩ := execute_silu_ok hplan hsolves hquick h hpair hlinear hrun
    exact ⟨⟨hafter.inv.weaken fun _ hfalse => hfalse.elim, hafter.kept, hafter.grown⟩, hx⟩
  rcases execute_eq_ok hstmt hrun with ⟨hdone, rfl⟩ | ⟨hdone, hrun⟩
  · refine ⟨.refl ((h.settled fun silu hsilu => ?_).weaken fun _ hfalse => hfalse.elim), hdone⟩
    rw [hsilu]
    exact hdone
  have hle : i ≤ x := by
    by_contra hgt
    rw [h.due x (by omega)] at hdone
    cases hdone
  have hkept (y : ℕ) (hy : s.done y = true) : (s.begin x).done y = true := Runner.begin_done.mpr (Or.inr hy)
  have hgrown (y : ℕ) (hy : (s.begin x).done y = true) :
      s.done y = true ∨ Reaches plan x y ∧ (y = x ∨ Unlocked plan busy y) := by
    rcases Runner.begin_done.mp hy with rfl | hy
    · exact Or.inr ⟨.refl, Or.inl rfl⟩
    · exact Or.inl hy
  have hbegun : (s.begin x).done x = true := Runner.begin_done.mpr (Or.inl rfl)
  by_cases hconstant : stmt.op = .const
  · obtain ⟨hinv, hsame⟩ := executeInner_constant_ok hplan hsolves h hdone hstmt hconstant hrun
    refine ⟨⟨hinv.weaken fun _ hfalse => hfalse.elim, fun y hy => ?_, fun y hy => ?_⟩, ?_⟩
    · rw [hsame]
      exact hkept y hy
    · rw [hsame] at hy
      exact hgrown y hy
    · rw [hsame]
      exact hbegun
  have hnoSilu (linear : ℕ) : (linear, x) ∉ plan.silus := fun hpair => hsilu ⟨linear, hpair⟩
  have hbusy := h.begin hsolves hplan (fun other hother => by
    rwa [← Option.mem_unique hstmt hother]) hnoSilu fun _ _ => hdone
  have hfrom {waiting : ℕ → Prop} (hafter : After plan kernels t early i busy waiting x (s.begin x) s') :
      After plan kernels t early i busy waiting x s s' := by
    refine ⟨hafter.inv, fun y hy => hafter.kept y (hkept y hy), fun y hy => ?_⟩
    rcases hafter.grown y hy with hold | hneed
    · exact hgrown y hold
    · exact Or.inr hneed
  by_cases hlinear : ∃ silu, (x, silu) ∈ plan.silus
  · obtain ⟨silu, hpair⟩ := hlinear
    have hafter := executeInner_linear_ok hplan hsolves honTime hturn hcomposes hensure h hdone hbusy hpair hstmt hreach
      hle hrun
    exact ⟨hfrom hafter, hafter.kept x hbegun⟩
  · have hnone : (s.begin x).values stmt.name = none := by
      rcases h.undone stmt.name x (hplan.producer_name hstmt) hdone with hnone | ⟨linear, hpair, -⟩
      · exact hnone
      · exact absurd hpair (hnoSilu linear)
    obtain ⟨hafter, hfed⟩ := executeInner_plain_ok hplan hsolves honTime hturn hcomposes hensure hbusy hbegun hstmt
      hconstant hnoSilu (fun silu hpair => hlinear ⟨silu, hpair⟩) hnone (fun content hplaced hpair => by
        by_contra hgt
        rw [h.paired hplaced x content hpair (by omega)] at hdone
        cases hdone) hreach hle hquick (fun name hname => (hready name hname).mono hkept) hrun
    have hover := hafter.finish hfed
    exact ⟨hfrom ⟨hover.inv.weaken fun _ hfalse => hfalse.elim, hover.kept, hover.grown⟩, hover.kept x hbegun⟩

include hensure hplan in
/-- The operands of a statement are ensured; the linear of a fused silu may leave the silu waiting. -/
theorem each_operands_ok (h : PassInv plan kernels t early i busy (fun _ => False) s)
    (hstmt : plan.program[x]? = some stmt) (hreach : Reaches plan i x)
    (hrun : each ensure (operands plan.program stmt) s = (.ok (), s')) :
    PassInv plan kernels t early i busy (fun y => y = x) s' ∧ (∀ y, s.done y = true → s'.done y = true) ∧
      (∀ name ∈ stmt.arrays ++ stmt.hosts, Available plan s' name) ∧
      ((∀ name ∈ stmt.arrays ++ stmt.hosts, Free plan busy name) →
        After plan kernels t early i busy (fun y => y = x) x s s') := by
  have hall (havailable : ∀ name ∈ operands plan.program stmt, Available plan s' name) (name : ν)
      (hname : name ∈ stmt.arrays ++ stmt.hosts) : Available plan s' name := fun y hproducer =>
    havailable name (mem_operands.mpr ⟨hname, y, hproducer⟩) y hproducer
  by_cases hsilu : ∃ linear, (linear, x) ∈ plan.silus
  · obtain ⟨linear, hpair⟩ := hsilu
    obtain ⟨user, reader, hp⟩ := hplan.arities.siluPair hpair
    obtain rfl := Option.mem_unique hstmt hp.siluAt
    have hproducer := hplan.producer_name hp.linearAt
    have hoperands : operands plan.program stmt = [user.name] := by
      rw [operands, hp.arrays, hp.hosts, List.append_nil, List.filter_cons_of_pos (by rw [hproducer]; rfl),
        List.filter_nil]
    rw [hoperands] at hrun hall
    obtain ⟨_, s₁, hfirst, hrun⟩ := bind_eq_ok.mp hrun
    obtain ⟨-, rfl⟩ := pure_eq_ok hrun
    have hneeds : Needs plan x linear :=
      .operand hstmt (by rw [hp.arrays]; exact List.mem_append_left _ (List.mem_singleton_self _)) hproducer
    obtain ⟨hafter, havailable⟩ := hensure linear busy user.name s s₁ h (fun y hy =>
      ⟨Option.mem_unique hy hproducer, hreach.tail hneeds⟩) hfirst
    have hinv : PassInv plan kernels t early i busy (fun y => y = x) s₁ := hafter.inv.weaken fun silu hwaiting => by
      obtain ⟨other, hmem, hother⟩ := hwaiting
      obtain rfl := Option.mem_unique hproducer hother
      exact linearSilus_unique_silu hmem hpair
    refine ⟨hinv, hafter.kept, hall fun name hname => ?_, fun _ => After.reroot ⟨hinv, hafter.kept, hafter.grown⟩
      (.single hneeds) fun other hmem => ?_⟩
    · rw [List.mem_singleton.mp hname]
      exact havailable
    · exact absurd hmem (hplan.not_silu hp.linearAt (by rw [hp.isLinear]; decide) other)
  · obtain ⟨hinv, hkept, havailable, hafter⟩ := each_ensure_ok hensure (fun name hname =>
      hplan.needed hstmt (fun linear hpair => hsilu ⟨linear, hpair⟩) .refl (mem_operands.mp hname).1) h hreach hrun
    refine ⟨hinv.weaken fun _ hfalse => hfalse.elim, hkept, hall havailable, fun hfree => ?_⟩
    have hgrown := hafter fun name hname => hfree name (mem_operands.mp hname).1
    exact ⟨hgrown.inv.weaken fun _ hfalse => hfalse.elim, hgrown.kept, hgrown.grown⟩

include hensure hplan hsolves honTime hturn hcomposes in
theorem ensureWith_ok (hquick : Quick plan.program ensure) :
    Ensures plan kernels t early i (ensureWith plan kernels (direct device) ensure) := by
  intro root busy name s s' h hroot hrun
  unfold ensureWith at hrun
  rw [Direct.reads_bind, id_eq] at hrun
  by_cases hhas : s.has name = true
  · rw [if_pos hhas] at hrun
    obtain ⟨-, rfl⟩ := pure_eq_ok hrun
    exact ⟨.refl (h.weaken fun _ hfalse => hfalse.elim), fun y hy => h.ready_of_has hsolves hy hhas⟩
  rw [if_neg hhas] at hrun
  cases hproducer : producer plan.program name with
  | none =>
    rw [hproducer] at hrun
    cases hrun
  | some x =>
    rw [hproducer] at hrun
    dsimp only at hrun
    obtain ⟨rfl, hreach⟩ := hroot x hproducer
    by_cases hdone : s.done x = true
    · rw [if_pos hdone] at hrun
      obtain ⟨-, rfl⟩ := pure_eq_ok hrun
      refine ⟨.refl (h.weaken fun _ hfalse => hfalse.elim), fun y hy => ?_⟩
      obtain rfl := Option.mem_unique hproducer hy
      exact Or.inl hdone
    rw [if_neg hdone] at hrun
    obtain ⟨stmt, hstmt, -⟩ := producer_spec hproducer
    rw [hstmt] at hrun
    obtain ⟨_, s₁, heach, hrun⟩ := bind_eq_ok.mp hrun
    obtain ⟨hinv, -, hready, hoperands⟩ := each_operands_ok hplan hensure h hstmt hreach heach
    obtain ⟨hafter, hover⟩ := execute_ok hplan hsolves honTime hturn hcomposes hensure hquick hinv hstmt hreach hready
      hrun
    have hfree (other : ν) (hother : other ∈ stmt.arrays ++ stmt.hosts) : Free plan busy other := fun y hy =>
      (hafter.inv.needs x y hover (fun hb => hdone (h.begun x hb)) (.operand hstmt hother hy)).2
    have hboth := (hoperands hfree).trans hafter
    refine ⟨⟨hboth.inv.weaken fun silu hpair => ⟨x, hpair, rfl⟩, hboth.kept, hboth.grown⟩, fun y hy => ?_⟩
    obtain rfl := Option.mem_unique hproducer hy
    exact Or.inl hover

theorem ensureWith_quick : Quick plan.program (ensureWith plan kernels (direct device) ensure) := by
  intro name y s s' hproducer hdone hrun
  unfold ensureWith at hrun
  rw [Direct.reads_bind, id_eq] at hrun
  by_cases hhas : s.has name = true
  · rw [if_pos hhas] at hrun
    exact (pure_eq_ok hrun).2
  · rw [if_neg hhas, hproducer] at hrun
    dsimp only at hrun
    rw [if_pos hdone] at hrun
    exact (pure_eq_ok hrun).2

theorem ensure_quick (depth : ℕ) : Quick plan.program (Encoder.ensure plan kernels (direct device) depth) := by
  cases depth with
  | zero => exact ensureWith_quick
  | succ depth => exact ensureWith_quick

include hplan hsolves honTime hturn hcomposes in
/-- However many nested calls are allowed, what is ensured is ready. -/
theorem ensure_ok (depth : ℕ) : Ensures plan kernels t early i (Encoder.ensure plan kernels (direct device) depth) := by
  induction depth with
  | zero =>
    refine ensureWith_ok hplan hsolves honTime hturn hcomposes ?_ ?_
    · intro root busy name s s' _ _ hrun
      cases hrun
    · intro name y s s' _ _ hrun
      cases hrun
  | succ depth ih => exact ensureWith_ok hplan hsolves honTime hturn hcomposes ih (ensure_quick depth)

end Executing

section Passes

variable {waiting : ℕ → Prop} {wanted : List ν} (hplan : plan.Formed (inputs.map Prod.fst))
  (hsolves : Solves kernels plan.program inputs t) (honTime : OnTime plan kernels t early stopAfter)
  (hcomposes : Composes plan.program plan.chain plan.islands kernels device)
  (hunread : ∀ name ∈ wanted, ∀ (k : ℕ) (reader : Statement ν), plan.program[k]? = some reader →
    name ∉ reader.arrays ++ reader.hosts)

include hplan in
/-- Between two statements, everything that a finished one needs is ready. -/
theorem PassInv.ready_of_reaches (h : PassInv plan kernels t early i (fun _ => False) waiting s)
    (hdone : s.done x = true) {y : ℕ} (hreach : Reaches plan x y) : Ready plan s y := by
  induction hreach with
  | refl => exact Or.inl hdone
  | tail _ hneed ih =>
    rcases ih with hz | ⟨other, hother, hop⟩ | ⟨linear, hpair, hlinear⟩
    · exact (h.needs _ _ hz (fun hfalse => hfalse) hneed).1
    · exact absurd hneed (hplan.constant_needs_nothing hother hop)
    · rw [hplan.silu_needs_linear hpair hneed]
      exact Or.inl hlinear

include hplan in
/-- The pass goes to the next statement. -/
theorem PassInv.next (h : PassInv plan kernels t early i (fun _ => False) (fun silu => (i, silu) ∈ plan.silus) s)
    (hdone : s.done i = true)
    (hunpulled : ∀ silu, (i, silu) ∈ plan.silus → Stale s silu → ∀ i' < i, ¬ Reaches plan i' silu) :
    PassInv plan kernels t early (i + 1) (fun _ => False) (fun _ => False) s := by
  refine { h with absent := fun name k v y hk hv hy hnone => ?_, due := fun y hy => ?_,
                  paired := fun hplaced scores content hpair hlt => ?_, window := fun linear silu hpair hstale _ => ?_ }
  · rcases h.absent name k v y hk hv hy hnone with ⟨hk', last, hlast, hlt⟩ | hearly
    · exact Or.inl ⟨hk', last, hlast, Nat.lt_succ_of_lt hlt⟩
    · exact Or.inr hearly
  · rcases Nat.lt_succ_iff_lt_or_eq.mp hy with hy | rfl
    · exact h.due y hy
    · exact hdone
  · rcases Nat.lt_succ_iff_lt_or_eq.mp hlt with hlt | rfl
    · exact h.paired hplaced scores content hpair hlt
    · obtain ⟨stmt, hstmt, hop, -⟩ := (indexIslands_eq_some hplan.islands).scores hpair
      exact (h.needs content scores hdone (fun hfalse => hfalse) (.scores hplaced hpair)).1.done hplan hstmt
        (by rw [hop]; decide) (by rw [hop]; decide)
  · by_cases hwaiting : (i, silu) ∈ plan.silus
    · rw [hplan.unique_linear hwaiting hpair]
      exact ⟨Nat.lt_succ_self i, hunpulled silu hwaiting hstale⟩
    · obtain ⟨hlt, hbefore⟩ := h.window linear silu hpair hstale hwaiting
      exact ⟨Nat.lt_succ_of_lt hlt, hbefore⟩

include hplan hsolves in
/-- Names that are not read any more are released. -/
theorem PassInv.release (h : PassInv plan kernels t early (i + 1) (fun _ => False) (fun _ => False) s)
    {retire : ν → Bool} (hretire : ∀ name, retire name = true → lastUse plan.program plan.gates name = some i) :
    PassInv plan kernels t early (i + 1) (fun _ => False) (fun _ => False) (s.release retire) := by
  refine { h with values := fun name v hv => ?_, undone := fun name y hy hnot => ?_,
                  absent := fun name k v y hk hv hy hnone => ?_,
                  locked := fun _ _ _ hlocked => absurd (fun _ _ hfalse => hfalse) hlocked }
  · have hvalue : s.values name = some v := by
      change (if retire name = true then none else s.values name) = _ at hv
      split_ifs at hv
      exact hv
    exact h.values name v hvalue
  · change (if retire name = true then none else s.values name) = none ∨ _
    split_ifs
    · exact Or.inl rfl
    · exact h.undone name y hy hnot
  · change (if retire name = true then none else s.values name) = none at hnone
    by_cases hold : s.values name = none
    · exact h.absent name k v y hk hv hy hold
    · split_ifs at hnone with hretired
      · refine Or.inl ⟨?_, i, hretire name hretired, Nat.lt_succ_self i⟩
        by_contra hnot
        rw [Bool.not_eq_true] at hnot
        rcases h.undone name k hk hnot with hnone | ⟨linear, hpair, -⟩
        · exact hold hnone
        · obtain ⟨k', stmt, hk', hstmt, hop, -⟩ := hsolves.constant_of_host (h.hosts name y hy)
          obtain rfl := Option.mem_unique hk hk'
          exact hplan.not_silu hstmt (by rw [hop]; decide) linear hpair
      · exact absurd hnone hold

include hplan hsolves honTime hcomposes in
/-- One statement of the loop. -/
theorem execute_next (h : PassInv plan kernels t early i (fun _ => False) (fun _ => False) s)
    (hwithin : plan.Within stopAfter i) (hstmt : plan.program[i]? = some stmt)
    (hrun : execute plan kernels (direct device) (ensure plan kernels (direct device) plan.limit) i s = (.ok (), s')) :
    PassInv plan kernels t early (i + 1) (fun _ => False) (fun _ => False) s' := by
  have hstart : PassInv plan kernels t early i (fun _ => False) (fun y => y = i) s :=
    h.weaken fun _ hfalse => hfalse.elim
  by_cases hsilu : ∃ linear, (linear, i) ∈ plan.silus
  · obtain ⟨linear, hpair⟩ := hsilu
    obtain ⟨user, reader, hp⟩ := hplan.arities.siluPair hpair
    have hlinear := h.due linear (hplan.linear_lt hpair)
    obtain ⟨hafter, hover⟩ := execute_silu_ok hplan hsolves (ensure_quick plan.limit) hstart hpair hlinear hrun
    refine (hafter.inv.weaken fun _ hfalse => hfalse.elim).next hplan hover fun silu hmem => ?_
    exact absurd hmem (hplan.not_linear hp.siluAt (by rw [hp.isSilu]; decide) silu)
  rcases execute_eq_ok hstmt hrun with ⟨hdone, rfl⟩ | ⟨hdone, -⟩
  · refine (h.weaken fun _ hfalse => hfalse.elim).next hplan hdone fun silu hpair hstale => ?_
    exact absurd (h.window i silu hpair hstale fun hfalse => hfalse).1 (Nat.lt_irrefl i)
  have hensure := ensure_ok hplan hsolves honTime ⟨hwithin, fun linear hpair => hsilu ⟨linear, hpair⟩⟩ hcomposes
    plan.limit
  obtain ⟨hafter, hover⟩ := execute_ok hplan hsolves honTime ⟨hwithin, fun linear hpair => hsilu ⟨linear, hpair⟩⟩
    hcomposes hensure (ensure_quick plan.limit) hstart hstmt .refl (fun name hname y hproducer =>
      Or.inl (h.due y (hplan.single.producer_lt hstmt hname hproducer))) hrun
  refine hafter.inv.next hplan hover fun silu hpair _ i' hlt hreach => ?_
  rw [← Bool.not_eq_true] at hdone
  apply hdone
  rcases h.ready_of_reaches hplan (h.due i' hlt) hreach with hsilu | ⟨other, hother, hop⟩ | ⟨linear, hmem, hlinear⟩
  · exact h.order i silu hpair hsilu
  · exact absurd hpair (hplan.not_silu hother (by rw [hop]; decide) i)
  · rwa [hplan.unique_linear hpair hmem] at hlinear

omit [DecidableEq ν] in
theorem mem_kept [DecidableEq ν] {pair : ν × V} (hpair : pair ∈ s.kept wanted stmt) :
    pair.1 ∈ stmt.names ∧ pair.1 ∈ wanted ∧ s.values pair.1 = some pair.2 := by
  obtain ⟨name, hname, hkept⟩ := List.mem_filterMap.mp hpair
  split_ifs at hkept with hwanted
  obtain ⟨v, hv, rfl⟩ := Option.map_eq_some_iff.mp hkept
  exact ⟨hname, hwanted, hv⟩

include hplan hunread in
/-- What is kept of a statement is final. -/
theorem PassInv.kept (h : PassInv plan kernels t early (i + 1) (fun _ => False) (fun _ => False) s)
    (hstmt : plan.program[i]? = some stmt) {pair : ν × V} (hpair : pair ∈ s.kept wanted stmt) :
    t.values pair.1 = some pair.2 := by
  obtain ⟨hname, hwanted, hvalue⟩ := mem_kept hpair
  have hproducer := hplan.single.producer_eq hstmt hname
  refine h.values pair.1 pair.2 hvalue (fun linear silu hmem hlinear => ?_) fun linear silu hmem hsilu hstale => ?_
  · obtain ⟨user, reader, hp⟩ := hplan.arities.siluPair hmem
    have hread := hplan.arities.eq_name hlinear hp.linearAt (by rw [hp.isLinear]; decide)
    refine absurd ?_ (hunread pair.1 hwanted silu reader hp.siluAt)
    rw [hp.arrays, hread]
    exact List.mem_append_left _ (List.mem_singleton_self _)
  · obtain rfl := Option.mem_unique hproducer hsilu
    have hdone := h.due i (Nat.lt_succ_self i)
    rw [hstale.1] at hdone
    cases hdone

/-- A pass that returns has not got past the name it stops after. -/
theorem within_of_statementsFrom {declared : List ν} (hplan : plan.Formed declared) {rest : Program ν}
    (hrest : plan.program.drop i = rest) {keep kept : List (ν × V)} (hopen : stopAfter ∉ keep.map Prod.fst)
    (hrun : statementsFrom plan kernels (direct device) wanted stopAfter i rest keep s = (.ok kept, s')) :
    plan.Within stopAfter i := by
  induction rest generalizing i keep s with
  | nil => cases hrun
  | cons stmt rest ih =>
    obtain ⟨hstmt, hdrop⟩ := next_of_drop hrest
    obtain ⟨_, s₁, _, hrun⟩ := bind_eq_ok.mp hrun
    rw [Direct.reads_bind, id_eq] at hrun
    obtain ⟨_, s₂, _, hrun⟩ := bind_eq_ok.mp hrun
    by_cases hstop : stopAfter ∈ (keep ++ s₁.kept wanted stmt).map Prod.fst
    · rw [List.map_append, List.mem_append] at hstop
      obtain ⟨pair, hpair, rfl⟩ := List.mem_map.mp (hstop.resolve_left hopen)
      exact ⟨i, hplan.single.producer_eq hstmt (mem_kept hpair).1, Nat.le_refl i⟩
    · rw [if_neg hstop] at hrun
      obtain ⟨stop, hproducer, hle⟩ := ih hdrop hstop hrun
      exact ⟨stop, hproducer, by omega⟩

include hplan hsolves honTime hcomposes hunread in
/-- The loop of a pass keeps final values. -/
theorem statementsFrom_ok {rest : Program ν} (hrest : plan.program.drop i = rest) {keep kept : List (ν × V)}
    (h : PassInv plan kernels t early i (fun _ => False) (fun _ => False) s)
    (hkeep : ∀ pair ∈ keep, t.values pair.1 = some pair.2) (hopen : stopAfter ∉ keep.map Prod.fst)
    (hrun : statementsFrom plan kernels (direct device) wanted stopAfter i rest keep s = (.ok kept, s')) :
    ∀ pair ∈ kept, t.values pair.1 = some pair.2 := by
  have hwithin := within_of_statementsFrom hplan hrest hopen hrun
  induction rest generalizing i keep s with
  | nil => cases hrun
  | cons stmt rest ih =>
    obtain ⟨hstmt, hdrop⟩ := next_of_drop hrest
    obtain ⟨_, s₁, hfirst, hrun⟩ := bind_eq_ok.mp hrun
    rw [Direct.reads_bind, id_eq] at hrun
    obtain ⟨_, s₂, hrelease, hrun⟩ := bind_eq_ok.mp hrun
    obtain rfl := change_eq_ok hrelease
    have hnext := execute_next hplan hsolves honTime hcomposes h hwithin hstmt hfirst
    have hkeep' : ∀ pair ∈ keep ++ s₁.kept wanted stmt, t.values pair.1 = some pair.2 := by
      intro pair hpair
      rcases List.mem_append.mp hpair with hold | hnew
      · exact hkeep pair hold
      · exact hnext.kept hplan hunread hstmt hnew
    by_cases hstop : stopAfter ∈ (keep ++ s₁.kept wanted stmt).map Prod.fst
    · rw [if_pos hstop] at hrun
      obtain ⟨rfl, -⟩ := pure_eq_ok hrun
      exact hkeep'
    · rw [if_neg hstop] at hrun
      exact ih hdrop (hnext.release hplan hsolves fun name hname =>
        of_decide_eq_true ((Bool.and_eq_true _ _).mp hname).1) hkeep' hstop hrun
        (within_of_statementsFrom hplan hdrop hstop hrun)

end Passes

end AneLinux.Encoder
