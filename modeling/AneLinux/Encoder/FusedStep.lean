import AneLinux.Encoder.Stocked

/-!
# A step of a call with the fusions

What a statement asks for while it is executed is at hand: an array that is read is in the table or is made from host
data. Each part of a call keeps the invariant, and when it raises, it does not raise for an operand or a tensor that is
not resolved.
-/

namespace AneLinux.Encoder

open AneLinux.Support Attempt Direct

variable {ν V M : Type} [DecidableEq ν]

/-- The exceptions that say that an operand or a tensor is not resolved. A tensor with host data is resolved, also when
no array can be made from the data. -/
def Unresolved (e : Err ν) (s : Runner ν V M) : Prop :=
  match e with
  | .unresolvedOperand _ => True
  | .unresolvedTensor name => s.hosts name = none
  | _ => False

/-- The `out_ab` package on a device. -/
def directAb (form : V → V → Bool) (mask : V → V) (submit : List V → ℕ → Except String V) : OutAb Id ν V V where
  form := form
  mask := mask
  submit := fun payload i => (submit payload i).mapError deviceError

/-- The invariant, while the first statements are done and the names in a list are available. -/
structure AtHand (plan : FusedPlan ν) (kernels : Kernels V M) (given : List ν) (stopAfter : ν) (due : ℕ)
    (busy : ℕ → Prop) (seen : List ν) (s : Runner ν V M) : Prop where
  stocked : Stocked plan kernels stopAfter busy s given
  due : ∀ y < due, s.done y = true
  idle : ∀ name ∈ seen, Idle plan.toPlan s name

/-- A part of a call: when it returns, the names in the second list are available, and when it raises, nothing is
unresolved. -/
abbrev Finds (plan : FusedPlan ν) (kernels : Kernels V M) (given : List ν) (stopAfter : ν) (due : ℕ)
    (busy : ℕ → Prop) {α : Type} (seen : List ν) (p : Pass Id ν V M α) (seen' : List ν) : Prop :=
  Ends (AtHand plan kernels given stopAfter due busy seen) p
    (fun _ s => AtHand plan kernels given stopAfter due busy seen' s) fun e s => ¬ Unresolved e s

/-- What `ensure` does for a name that may be asked for. -/
def Serves (plan : FusedPlan ν) (kernels : Kernels V M) (given : List ν) (stopAfter : ν)
    (ensure : ν → Pass Id ν V M Unit) : Prop :=
  ∀ due busy seen name, Sought plan given stopAfter busy name →
    Finds plan kernels given stopAfter due busy seen (ensure name) (name :: seen)

variable {plan : FusedPlan ν} {adds : ℕ → Bool} {declared given wanted seen : List ν} {kernels : Kernels V M}
  {stopAfter name : ν} {due x : ℕ} {busy : ℕ → Prop} {s : Runner ν V M} {stmt : Statement ν} {fusion : Fusion}
  {device : Job V → Except String (ℕ → V)} {ensure : ν → Pass Id ν V M Unit} {form : V → V → Bool} {mask : V → V}
  {submit : List V → ℕ → Except String V}

section States

variable {seen' : List ν} {s' : Runner ν V M}

theorem Idle.mono {plan : Plan ν} (h : Idle plan s name) (hgrows : Grows s s') : Idle plan s' name := by
  refine h.imp (fun hhas => ?_) fun hdone y hy => hgrows.done y (hdone y hy)
  rw [Runner.has, Bool.or_eq_true] at hhas ⊢
  exact hhas.imp (hgrows.values name) (hgrows.hosts name)

variable (h : AtHand plan kernels given stopAfter due busy seen s)

include h in
theorem AtHand.mono (hgrows : Grows s s') {busy' : ℕ → Prop}
  (hstocked : Stocked plan kernels stopAfter busy' s' given) :
    AtHand plan kernels given stopAfter due busy' seen s' :=
  ⟨hstocked, fun y hy => hgrows.done y (h.due y hy), fun name hname => (h.idle name hname).mono hgrows⟩

include h in
theorem AtHand.of_subset (hsub : ∀ name ∈ seen', name ∈ seen) : AtHand plan kernels given stopAfter due busy seen' s :=
  ⟨h.stocked, h.due, fun name hname => h.idle name (hsub name hname)⟩

theorem Finds.of_subset {α : Type} {p : Pass Id ν V M α} {seen₁ : List ν}
    (h : Finds plan kernels given stopAfter due busy seen p seen₁) (hsub : ∀ name ∈ seen', name ∈ seen₁) :
    Finds plan kernels given stopAfter due busy seen p seen' :=
  h.conseq (fun _ hs => hs) fun _ _ hs => hs.of_subset hsub

/-- A list is read where each of its names is. -/
theorem Finds.collect {α : Type} {read : ν → Pass Id ν V M α} {names : List ν}
    (h : ∀ name ∈ names, Finds plan kernels given stopAfter due busy seen (read name) (name :: seen)) :
    Finds plan kernels given stopAfter due busy seen (Attempt.collect read names) seen := by
  induction names with
  | nil => exact Ends.pure fun _ hs => hs
  | cons name rest ih =>
    refine Ends.bind ((h name List.mem_cons_self).of_subset fun other hother => List.mem_cons_of_mem name hother)
      fun _ => ?_
    exact Ends.bind (ih fun other hother => h other (List.mem_cons_of_mem name hother)) fun _ =>
      Ends.pure fun _ hs => hs

include h in
/-- What is asked for and available leads to what is left behind. -/
theorem AtHand.drawn (hseen : ∀ name, FusedAsks plan x name → name ∈ seen) (z : ℕ)
    (hdraws : Draws plan.program (FusedAsks plan) x z) : Behind plan s z := by
  obtain ⟨name, hask, hproducer⟩ := hdraws
  exact h.stocked.behind_of_idle (h.idle name (hseen name hask)) hproducer

include h in
/-- So does what is asked for and available but for the result of a statement in progress. -/
theorem AtHand.drawn_beside (hplan : FusedPlan.Formed plan adds declared) (hbusy : busy x)
    (hstmt : plan.program[x]? = some stmt) (hbeside : ∀ name, FusedAsks plan y name → name = stmt.name ∨ name ∈ seen)
    (z : ℕ) (hdraws : Draws plan.program (FusedAsks plan) y z) : Behind plan s z := by
  obtain ⟨name, hask, hproducer⟩ := hdraws
  rcases hbeside name hask with rfl | hname
  · obtain rfl := Option.mem_unique (hplan.plain.producer_name hstmt) hproducer
    exact Or.inl (h.stocked.begun _ hbusy)
  · exact h.stocked.behind_of_idle (h.idle name hname) hproducer

/-- A statement that is no constant and no fused select is over when all it draws on is left behind and its results are
stored, and the silu of a linear. -/
theorem Finished.plain (hstmt : plan.program[x]? = some stmt) (hconstant : stmt.op ≠ .const)
    (hselect : x ∉ plan.fusions.map Fusion.select)
    (hdrawn : ∀ z, Draws plan.program (FusedAsks plan) x z → Behind plan s z)
    (hstored : ∀ name ∈ stmt.names,
      Delivered plan stopAfter busy s name ∨ Dropped plan name ∨ x ∈ plan.gates.map Gate.sigmoid)
    (hsilu : ∀ silu reader, (x, silu) ∈ plan.silus → plan.program[silu]? = some reader → s.siluDone silu = true →
      Delivered plan stopAfter busy s reader.name) : Finished plan kernels stopAfter busy s x where
  stored := by
    intro other hother
    obtain rfl := Option.mem_unique hstmt hother
    exact hstored
  drawn := hdrawn
  silu := hsilu
  added := fun fusion hfusion _ heq => absurd (List.mem_map.mpr ⟨fusion, hfusion, heq⟩) hselect
  host := by
    intro other hother hop
    obtain rfl := Option.mem_unique hstmt hother
    exact absurd hop hconstant

/-- What is stored is delivered. -/
theorem delivered_setValue (s : Runner ν V M) (name : ν) (v : V) :
    Delivered plan stopAfter busy (s.setValue name v) name :=
  Or.inl (by rw [Runner.setValue_values_self, Option.isSome_some])

variable (hplan : plan.Formed adds declared)

include hplan

/-- An operation that computes nothing else: it is over when all it draws on is left behind and its result is stored. -/
theorem Finished.alone (hstmt : plan.program[x]? = some stmt)
    (hop : stmt.op ≠ .const ∧ stmt.op ≠ .split ∧ stmt.op ≠ .linear ∧ stmt.op ≠ .select)
    (hdrawn : ∀ z, Draws plan.program (FusedAsks plan) x z → Behind plan s z)
    (hstored : Delivered plan stopAfter busy s stmt.name ∨ Dropped plan stmt.name ∨
      x ∈ plan.gates.map Gate.sigmoid) : Finished plan kernels stopAfter busy s x := by
  refine .plain hstmt hop.1 (hplan.not_select hstmt hop.2.2.2) hdrawn (fun name hname => ?_) fun silu _ hsilu =>
    absurd hsilu (hplan.plain.not_linear hstmt hop.2.2.1 silu)
  rw [hplan.plain.arities.names_eq hstmt hop.2.1, List.mem_singleton] at hname
  rwa [hname]

/-- A fused select is over when its result is stored or dropped, and an add that comes later is done. -/
theorem Finished.select (hfusion : fusion ∈ plan.fusions) (hstmt : plan.program[fusion.select]? = some stmt)
    (hdrawn : ∀ z, Draws plan.program (FusedAsks plan) fusion.select z → Behind plan s z)
    (hstored : Delivered plan stopAfter busy s stmt.name ∨ Dropped plan stmt.name)
    (hadded : fusion.later = true → s.done fusion.add = true) :
    Finished plan kernels stopAfter busy s fusion.select := by
  have hop := hplan.isSelect hfusion hstmt
  refine ⟨fun other hother name hname => ?_, hdrawn, fun silu _ hsilu => ?_, fun other hother hlater heq => ?_,
    fun other hother hconstant => ?_⟩
  · obtain rfl := Option.mem_unique hstmt hother
    rw [hplan.plain.arities.names_eq hstmt (by rw [hop]; decide), List.mem_singleton] at hname
    rw [hname]
    exact hstored.imp_right Or.inl
  · exact absurd hsilu (hplan.plain.not_linear hstmt (by rw [hop]; decide) silu)
  · obtain rfl := hplan.unique hfusion hother heq
    exact hadded hlater
  · obtain rfl := Option.mem_unique hstmt hother
    rw [hop] at hconstant
    cases hconstant

include h in
/-- Another statement computes the result of one, which is over then. -/
theorem AtHand.pass (hstmt : plan.program[x]? = some stmt)
    (hop : stmt.op ≠ .const ∧ stmt.op ≠ .split ∧ stmt.op ≠ .linear ∧ stmt.op ≠ .select)
    (hdrawn : ∀ z, Draws plan.program (FusedAsks plan) x z → Behind plan s z) (v : V) :
    AtHand plan kernels given stopAfter due busy seen ((s.setValue stmt.name v).begin x) := by
  have hgrows := (grows_setValue s stmt.name v).trans (grows_begin _ x)
  refine h.mono hgrows (h.stocked.pass hplan hstmt hop.1 ?_)
  exact .alone hplan hstmt hop (fun z hdraws => (hdrawn z hdraws).mono hgrows)
    (Or.inl ((delivered_setValue s _ v).mono (grows_begin _ x) fun _ hy => Or.inl hy))

end States

section Reading

variable (hserves : Serves plan kernels given stopAfter ensure) (hw : Warranted plan kernels given wanted stopAfter)
  (hx : Current plan stopAfter busy x) (hbusy : busy x)

include hserves in
/-- Host data that is read is there, or it is no constant's. -/
theorem finds_scalar (hsought : Sought plan given stopAfter busy name) :
    Finds plan kernels given stopAfter due busy seen (scalar ensure name) (name :: seen) := by
  refine Ends.bind (hserves due busy seen name hsought) fun _ => Ends.reads_bind fun s hs => ?_
  exact Ends.orRaise (fun _ _ s' heq => heq ▸ hs) fun _ _ _ => id

include hserves hw hx in
theorem finds_requireFlags (i : ℕ) (flags : List (ν × Bool)) (hflags : ∀ flag ∈ flags, FusedAsks plan x flag.1) :
    Finds plan kernels given stopAfter due busy seen (requireFlags kernels ensure i flags)
      (flags.map Prod.fst ++ seen) := by
  induction flags generalizing seen with
  | nil => exact Ends.pure fun _ hs => hs
  | cons flag rest ih =>
    refine Ends.bind (finds_scalar hserves (hx.sought hw (hflags flag List.mem_cons_self))) fun y => ?_
    split_ifs
    · refine Finds.of_subset (ih fun other hother => hflags other (List.mem_cons_of_mem flag hother)) ?_
      intro name hname
      simp only [List.map_cons, List.cons_append, List.mem_cons, List.mem_append] at hname ⊢
      tauto
    · exact Ends.raise fun _ _ => id

include hserves hw hx in
/-- The host values of a statement are read. -/
theorem finds_hosts (hstmt : plan.program[x]? = some stmt) :
    Finds plan kernels given stopAfter due busy seen (collect (scalar ensure) stmt.hosts) seen :=
  Finds.collect fun _ hname => finds_scalar hserves (hx.sought hw (.plain (.own hstmt (List.mem_append_right _ hname))))

variable (hplan : plan.Formed adds declared)

include hserves hw hx hbusy hplan

/-- An array that is fetched is there, or it is made from host data. -/
theorem finds_tensor (hfetches : Fetches plan x name) :
    Finds plan kernels given stopAfter due busy seen (tensor kernels (direct device) ensure name) (name :: seen) := by
  refine Ends.bind (hserves due busy seen name (hx.sought_of_fetches hplan hw hfetches)) fun _ =>
    Ends.reads_bind fun s hs => ?_
  dsimp only [id_eq]
  cases hvalue : s.values name with
  | some v => exact Ends.pure fun s' heq => heq ▸ hs
  | none =>
    refine Ends.orRaise (fun _ _ s' heq => heq ▸ hs) fun _ s' heq => ?_
    have hhas := hs.stocked.has_of_fetches hplan hw hx hbusy hfetches (hs.idle name List.mem_cons_self)
    rw [Runner.has, hvalue, Option.isSome_none, Bool.false_or] at hhas
    rw [heq]
    intro hnone
    rw [Unresolved] at hnone
    rw [hnone] at hhas
    cases hhas

end Reading

section Executing

variable (hserves : Serves plan kernels given stopAfter ensure) (hw : Warranted plan kernels given wanted stopAfter)
  (hx : Current plan stopAfter busy x) (hbusy : busy x) (hplan : plan.Formed adds declared)
  (hstmt : plan.program[x]? = some stmt) (hconstant : stmt.op ≠ .const)

/-- A statement in progress that is over when it returns. -/
abbrev Completes (plan : FusedPlan ν) (kernels : Kernels V M) (given : List ν) (stopAfter : ν) (due : ℕ)
    (busy : ℕ → Prop) (seen : List ν) (p : Pass Id ν V M Unit) (x : ℕ) : Prop :=
  Ends (AtHand plan kernels given stopAfter due busy seen) p
    (fun _ s => AtHand plan kernels given stopAfter due busy seen s ∧ Finished plan kernels stopAfter busy s x)
    fun e s => ¬ Unresolved e s

omit [DecidableEq ν] in
/-- What the device raises is not about operands. -/
theorem not_unresolved_of_mapError [DecidableEq ν] {α : Type} {r : Except String α} {e : Err ν}
    (h : r.mapError deviceError = .error e) (s : Runner ν V M) : ¬ Unresolved e s := by
  cases r with
  | ok a => cases h
  | error message =>
    obtain rfl := Except.error.inj h
    exact id

include hplan hstmt hconstant hbusy

/-- The result of a statement in progress is stored. -/
theorem AtHand.setValue (h : AtHand plan kernels given stopAfter due busy seen s) (hname : name ∈ stmt.names) (v : V) :
    AtHand plan kernels given stopAfter due busy seen (s.setValue name v) :=
  h.mono (grows_setValue s name v)
    (h.stocked.setValue hplan hstmt hconstant hname (Or.inl (h.stocked.begun x hbusy)) v)

variable (hselect : x ∉ plan.fusions.map Fusion.select)

include hselect in
/-- A statement whose only effect is to store its result. -/
theorem completes_store (hop : stmt.op ≠ .split) (hlinear : ∀ silu, (x, silu) ∉ plan.silus)
    (hseen : ∀ name, FusedAsks plan x name → name ∈ seen) (v : V) :
    Completes plan kernels given stopAfter due busy seen (change fun s => s.setValue stmt.name v) x := by
  refine Ends.change fun s hs => ?_
  have hstored := hs.setValue hbusy hplan hstmt hconstant List.mem_cons_self v
  refine ⟨hstored, Finished.plain hstmt hconstant hselect (hstored.drawn hseen) (fun name hname => ?_)
    fun silu _ hpair => absurd hpair (hlinear silu)⟩
  rw [hplan.plain.arities.names_eq hstmt hop, List.mem_singleton] at hname
  subst hname
  exact Or.inl (delivered_setValue s _ v)

include hserves hw hx

omit hconstant in
/-- The output matmul. -/
theorem completes_runIslandC (hop : stmt.op = .matmul) (hseen : ∀ name, FusedAsks plan x name → name ∈ seen)
    (hfetches : ∀ name ∈ stmt.arrays, Fetches plan x name) :
    Completes plan kernels given stopAfter due busy seen (runIslandC kernels (direct device) ensure x stmt) x := by
  have hask {name : ν} (hname : name ∈ stmt.arrays ++ stmt.hosts) : FusedAsks plan x name := .plain (.own hstmt hname)
  refine Ends.orRaise_bind (fun arguments harguments => ?_) fun _ _ => id
  obtain ⟨⟨a, b⟩, ta, tb⟩ := arguments
  obtain ⟨harrays, hhosts⟩ := matmulArguments_eq_some harguments
  refine Ends.bind (Finds.of_subset (finds_requireFlags hserves hw hx x _ fun flag hflag => ?_) fun name hname =>
    List.mem_append_right _ hname) fun _ => ?_
  · simp only [List.mem_cons, List.not_mem_nil, or_false] at hflag
    rcases hflag with rfl | rfl <;> exact hask (by simp [hhosts])
  refine Ends.bind ((finds_tensor hserves hw hx hbusy hplan (hfetches a (by simp [harrays]))).of_subset
    fun name hname => List.mem_cons_of_mem a hname) fun probs => ?_
  refine Ends.bind ((finds_tensor hserves hw hx hbusy hplan (hfetches b (by simp [harrays]))).of_subset
    fun name hname => List.mem_cons_of_mem b hname) fun v_heads => ?_
  refine Ends.call_bind (fun results => ?_) fun e he s _ => not_unresolved_of_mapError he s
  exact completes_store hbusy hplan hstmt (by rw [hop]; decide) (hplan.not_select hstmt (by rw [hop]; decide))
    (by rw [hop]; decide) (hplan.plain.not_linear hstmt (by rw [hop]; decide)) hseen _

omit hconstant in
/-- The fused gate. -/
theorem completes_runGate {gate : Gate ν} (hgate : gate ∈ plan.gates) (hmul : gate.mul = x)
    (hseen : ∀ name, FusedAsks plan x name → name ∈ seen) :
    Completes plan kernels given stopAfter due busy seen (runGate kernels (direct device) ensure x stmt gate) x := by
  obtain ⟨sigmoid, product, hp⟩ := hplan.plain.arities.gatePlaces (hplan.plain.gates gate hgate)
  have hproduct := hp.productAt
  rw [hmul] at hproduct
  obtain rfl := Option.mem_unique hstmt hproduct
  have hop := hp.isProduct
  have hfetches {name : ν} (hname : name = gate.a ∨ name = gate.b) : Fetches plan x name := hmul ▸ .gate hgate hname
  refine Ends.bind ((finds_tensor hserves hw hx hbusy hplan (hfetches (Or.inl rfl))).of_subset
    fun name hname => List.mem_cons_of_mem gate.a hname) fun a => ?_
  refine Ends.bind ((finds_tensor hserves hw hx hbusy hplan (hfetches (Or.inr rfl))).of_subset
    fun name hname => List.mem_cons_of_mem gate.b hname) fun b => ?_
  refine Ends.orRaise_bind (fun v _ => ?_) fun _ _ => id
  exact completes_store hbusy hplan hstmt (by rw [hop]; decide) (hplan.not_select hstmt (by rw [hop]; decide))
    (by rw [hop]; decide) (hplan.plain.not_linear hstmt (by rw [hop]; decide)) hseen _

omit hconstant in
/-- A split. -/
theorem completes_runSplit (hop : stmt.op = .split) (hseen : ∀ name, FusedAsks plan x name → name ∈ seen)
    (hfetches : ∀ name ∈ stmt.arrays, Fetches plan x name) :
    Completes plan kernels given stopAfter due busy seen (runSplit kernels (direct device) ensure x stmt) x := by
  have hother : stmt.op ≠ .const := by
    rw [hop]
    decide
  refine Ends.bind (finds_hosts hserves hw hx hstmt) fun xs => ?_
  split
  · rename_i input harrays
    refine Ends.bind ((finds_tensor hserves hw hx hbusy hplan (hfetches input (by simp [harrays]))).of_subset
      fun name hname => List.mem_cons_of_mem input hname) fun v => ?_
    refine Ends.orRaise_bind (fun parts _ => ?_) fun _ _ => id
    split_ifs with hlength
    · refine Ends.change fun s hs => ?_
      have hpairs : ∀ pair ∈ stmt.names.zip (parts.map (direct device : Backend Id ν V V).ofArray),
          pair.1 ∈ stmt.names := fun pair hpair => (List.of_mem_zip (show (pair.1, pair.2) ∈ _ from hpair)).1
      have hstored := hs.mono (grows_setValues s _)
        (hs.stocked.setValues hplan hstmt hother (Or.inl (hs.stocked.begun x hbusy)) hpairs)
      refine ⟨hstored, Finished.plain hstmt hother (hplan.not_select hstmt (by rw [hop]; decide))
        (hstored.drawn hseen)
        (fun name hname => Or.inl (Or.inl (setValues_of_mem s ?_))) fun silu _ hpair =>
          absurd hpair (hplan.plain.not_linear hstmt (by rw [hop]; decide) silu)⟩
      rwa [List.map_fst_zip (by rw [List.length_map, hlength])]
    · exact Ends.raise fun _ _ => id
  · exact Ends.raise fun _ _ => id

omit hserves hw hx hstmt hconstant hbusy in
/-- A linear leaves the silu to be executed, or it does not. -/
theorem finds_applyLinear (silu : ℕ) (vs : List V) (xs : List M) :
    Finds plan kernels given stopAfter due busy seen (applyLinear kernels x silu vs xs : Pass Id ν V M V) seen := by
  refine Ends.orRaise_bind (fun fused _ => ?_) fun _ _ => id
  split_ifs
  · exact Ends.orRaise (fun _ _ _ hs => hs) fun _ _ _ => id
  · have hdiscard : Finds plan kernels given stopAfter due busy seen
        (change fun s => s.discard silu : Pass Id ν V M Unit) seen :=
      Ends.change fun s hs => hs.mono (grows_discard s silu) (hs.stocked.discard hplan silu)
    exact hdiscard.bind fun _ => Ends.orRaise (fun _ _ _ hs => hs) fun _ _ _ => id

include hselect

/-- An operation; a linear publishes the result of its silu, too. -/
theorem completes_runApply (hop : stmt.op ≠ .split) (hseen : ∀ name, FusedAsks plan x name → name ∈ seen)
    (hfetches : ∀ name ∈ stmt.arrays, Fetches plan x name) :
    Completes plan kernels given stopAfter due busy seen (runApply plan.toPlan kernels (direct device) ensure x stmt)
      x := by
  refine Ends.bind (Finds.collect fun name hname => finds_tensor hserves hw hx hbusy hplan (hfetches name hname))
    fun vs => ?_
  refine Ends.bind (finds_hosts hserves hw hx hstmt) fun xs => ?_
  split
  · rename_i hfind
    refine Ends.orRaise_bind (fun v _ => ?_) fun _ _ => id
    refine completes_store hbusy hplan hstmt hconstant hselect hop (fun silu hpair => ?_) hseen _
    rw [find_linearSilus.mpr hpair] at hfind
    cases hfind
  · rename_i silu hfind
    have hpair := find_linearSilus.mp hfind
    obtain ⟨user, reader, hp⟩ := hplan.plain.arities.siluPair hpair
    refine Ends.bind (finds_applyLinear hplan silu vs xs) fun v => ?_
    rw [hp.siluAt]
    intro s hs
    have hlinear := hs.setValue hbusy hplan hstmt hconstant List.mem_cons_self v
    have hbehind : Behind plan (s.setValue stmt.name v) silu :=
      Or.inr (Or.inr ⟨x, hpair, hlinear.stocked.begun x hbusy⟩)
    have hboth := hlinear.mono (grows_setValue _ reader.name v)
      (hlinear.stocked.setValue hplan hp.siluAt (by rw [hp.isSilu]; decide) List.mem_cons_self hbehind v)
    refine ⟨hboth, Finished.plain hstmt hconstant hselect (hboth.drawn hseen) (fun name hname => Or.inl ?_)
      fun other user hother huser _ => ?_⟩
    · rw [hplan.plain.arities.names_eq hstmt hop, List.mem_singleton] at hname
      subst hname
      exact (delivered_setValue s _ v).mono (grows_setValue _ reader.name v) fun _ hy => Or.inl hy
    · obtain rfl := linearSilus_unique_silu hpair hother
      obtain rfl := Option.mem_unique hp.siluAt huser
      exact delivered_setValue _ _ v

omit hserves hselect hstmt hconstant hbusy in
/-- The silu that a linear has computed is in the table, or it was released. -/
theorem AtHand.delivered_silu (h : AtHand plan kernels given stopAfter due busy seen s)
    (hstmt : plan.program[x]? = some stmt) (hseen : ∀ name, FusedAsks plan x name → name ∈ seen)
    (hsilu : s.siluDone x = true) : Delivered plan stopAfter busy s stmt.name := by
  obtain ⟨linear, hpair⟩ := h.stocked.held.silus x hsilu
  obtain ⟨user, reader, hp⟩ := hplan.plain.arities.siluPair hpair
  have hproducer := hplan.plain.producer_name hp.linearAt
  have hask : FusedAsks plan x user.name := .plain (.own hp.siluAt (by simp [hp.arrays]))
  have hdone : s.done linear = true := by
    rcases h.stocked.behind_of_idle (h.idle _ (hseen _ hask)) hproducer with hdone | ⟨other, hother, hop⟩ |
      ⟨other, hother, -⟩
    · exact hdone
    · obtain rfl := Option.mem_unique hp.linearAt hother
      rw [hp.isLinear] at hop
      cases hop
    · exact absurd hother (hplan.plain.not_silu hp.linearAt (by rw [hp.isLinear]; decide) other)
  have hfinished := (h.stocked.ended linear hdone).resolve_left ((hx.sought hw hask).not_busy hw hproducer)
  exact hfinished.silu x stmt hpair hstmt hsilu

variable (hadd : x ∉ plan.fusions.map Fusion.add)

include hadd

/-- What runs on the GPU, unless another statement computes it. -/
theorem completes_runGpu (hseen : ∀ name, FusedAsks plan x name → name ∈ seen) :
    Completes plan kernels given stopAfter due busy seen (runGpu plan.toPlan kernels (direct device) ensure x stmt)
      x := by
  refine Ends.reads_bind fun s hs => ?_
  have hstart : ∀ s', s' = s → AtHand plan kernels given stopAfter due busy seen s' := fun s' heq => heq ▸ hs
  rw [id_eq]
  split
  · rename_i hsigmoid
    exact Ends.pure fun s' heq => ⟨hstart s' heq, heq ▸ .alone hplan hstmt (by rw [hsigmoid.1]; decide)
      (hs.drawn hseen) (Or.inr (Or.inr hsigmoid.2))⟩
  split
  · rename_i hsilu
    exact Ends.pure fun s' heq => ⟨hstart s' heq, heq ▸ .alone hplan hstmt (by rw [hsilu.1]; decide)
      (hs.drawn hseen) (Or.inl (hs.delivered_silu hw hx hplan hstmt hseen hsilu.2))⟩
  split
  · rename_i gate hfind
    have hmul := List.find?_some hfind
    exact (completes_runGate hserves hw hx hbusy hplan hstmt (List.mem_of_find?_eq_some hfind)
      (of_decide_eq_true hmul) hseen).conseq hstart fun _ _ hs => hs
  · rename_i hfind
    have hmul : x ∉ plan.gates.map Gate.mul := by
      intro hmem
      obtain ⟨gate, hgate, hmul⟩ := List.mem_map.mp hmem
      exact absurd (decide_eq_true hmul) (List.find?_eq_none.mp hfind gate hgate)
    have hfetches : ∀ name ∈ stmt.arrays, Fetches plan x name := fun name hname => .own hstmt hadd hselect hmul hname
    split
    · rename_i hop
      exact (completes_runSplit hserves hw hx hbusy hplan hstmt hop hseen hfetches).conseq hstart fun _ _ hs => hs
    · rename_i hop
      exact (completes_runApply hserves hw hx hbusy hplan hstmt hconstant hselect hop hseen hfetches).conseq hstart
        fun _ _ hs => hs

omit hconstant hselect hadd in
/-- The content of a placed island, which nothing has computed yet. -/
theorem completes_runContent {scores : ℕ} (hpair : (scores, x) ∈ plan.islands.pairs) (hplaced : plan.placed.a = true)
    (hown : ∀ name ∈ stmt.arrays ++ stmt.hosts, name ∈ seen) :
    Ends (fun s => AtHand plan kernels given stopAfter due busy seen s ∧ s.values stmt.name = none)
      (runContent plan.toPlan kernels (direct device) ensure x scores stmt)
      (fun _ s => AtHand plan kernels given stopAfter due busy seen s ∧ Finished plan kernels stopAfter busy s x)
      fun e s => ¬ Unresolved e s := by
  have hplaces := indexIslands_eq_some hplan.plain.islands
  have hop := hplaces.content_op hpair hstmt
  obtain ⟨scoresStmt, hscores, -⟩ := hplaces.scores hpair
  have hconstant : stmt.op ≠ .const := by
    rw [hop]
    decide
  have hselect := hplan.not_select hstmt (by rw [hop]; decide)
  have hseen : ∀ name, FusedAsks plan x name → name ∈ scoresStmt.name :: seen := by
    intro name hask
    rcases hplan.asks_content hpair hstmt hscores hask with hname | rfl
    · exact List.mem_cons_of_mem _ (hown name hname)
    · exact List.mem_cons_self
  have hless {s : Runner ν V M} (h : AtHand plan kernels given stopAfter due busy (scoresStmt.name :: seen) s) :
      AtHand plan kernels given stopAfter due busy seen s := h.of_subset fun name hname => List.mem_cons_of_mem _ hname
  refine Ends.reads_bind fun s hs => ?_
  rw [id_eq, hs.2, Option.isSome_none, if_neg Bool.false_ne_true, hscores]
  have hask : FusedAsks plan x scoresStmt.name := .plain (.scores hplaced hpair hscores)
  have hensure := hserves due busy seen scoresStmt.name (hx.sought hw hask)
  refine Ends.bind (hensure.conseq (fun s' heq => heq ▸ hs.1) fun _ _ hs => hs) fun _ =>
    Ends.reads_bind fun s₁ hs₁ => ?_
  rw [id_eq]
  split_ifs with hvalue
  · exact Ends.pure fun s' heq => ⟨heq ▸ hless hs₁, heq ▸ .alone hplan hstmt (by rw [hop]; decide) (hs₁.drawn hseen)
      (Or.inl (Or.inl hvalue))⟩
  · exact (completes_runGpu hserves hw hx hbusy hplan hstmt hconstant hselect
      (hplan.not_add hstmt (by rw [hop]; decide)) hseen).conseq (fun s' heq => heq ▸ hs₁)
        fun _ _ hs => ⟨hless hs.1, hs.2⟩

omit hconstant hselect hadd in
/-- Both matmuls of a layer: the content is over with the scores. -/
theorem completes_runIslandA {content : ℕ} {contentStmt : Statement ν} (hpair : (x, content) ∈ plan.islands.pairs)
    (hplaced : plan.placed.a = true) (hcontent : plan.program[content]? = some contentStmt) :
    Completes plan kernels given stopAfter due busy seen
      (runIslandA kernels (direct device) ensure x content stmt contentStmt) x := by
  have hplaces := indexIslands_eq_some hplan.plain.islands
  have hop := hplaces.scores_op hpair hstmt
  have hopc := hplaces.content_op hpair hcontent
  have hconstant : stmt.op ≠ .const := by
    rw [hop]
    decide
  have hfetches {name : ν} (hname : name ∈ stmt.arrays) : Fetches plan x name := hplan.fetches_matmul hstmt hop hname
  have hfetchesc {name : ν} (hname : name ∈ contentStmt.arrays) : Fetches plan x name :=
    .shared hplaced hpair hcontent hname
  refine Ends.orRaise_bind (fun arguments harguments => ?_) fun _ _ => id
  obtain ⟨⟨a, b⟩, ta, tb⟩ := arguments
  obtain ⟨harrays, hhosts⟩ := matmulArguments_eq_some harguments
  refine Ends.orRaise_bind (fun argumentsc hargumentsc => ?_) fun _ _ => id
  obtain ⟨⟨c, d⟩, tc, td⟩ := argumentsc
  obtain ⟨harraysc, hhostsc⟩ := matmulArguments_eq_some hargumentsc
  refine Ends.bind (finds_requireFlags hserves hw hx x _ fun flag hflag => ?_) fun _ => ?_
  · simp only [List.mem_cons, List.not_mem_nil, or_false] at hflag
    rcases hflag with rfl | rfl <;> exact .plain (.own hstmt (by simp [hhosts]))
  refine Ends.bind (finds_requireFlags hserves hw hx content _ fun flag hflag => ?_) fun _ => ?_
  · simp only [List.mem_cons, List.not_mem_nil, or_false] at hflag
    rcases hflag with rfl | rfl <;> exact .plain (.shared hplaced hpair hcontent (by simp [hhostsc]))
  refine Ends.bind (finds_tensor hserves hw hx hbusy hplan (hfetches (by simp [harrays]))) fun q_v => ?_
  refine Ends.bind (finds_tensor hserves hw hx hbusy hplan (hfetches (by simp [harrays]))) fun pos_kT => ?_
  refine Ends.bind (finds_tensor hserves hw hx hbusy hplan (hfetchesc (by simp [harraysc]))) fun q_scaled => ?_
  refine Ends.bind (finds_tensor hserves hw hx hbusy hplan (hfetchesc (by simp [harraysc]))) fun k_heads => ?_
  refine Ends.call_bind (fun results => Ends.change fun s hs => ?_) fun e he s _ => not_unresolved_of_mapError he s
  have hread {name : ν} (hname : (name ∈ stmt.arrays ++ stmt.hosts ∨ name ∈ contentStmt.arrays ++ contentStmt.hosts)) :
      name ∈ d :: c :: b :: a :: (([(tc, false), (td, true)].map Prod.fst) ++
        (([(ta, false), (tb, false)].map Prod.fst) ++ seen)) := by
    rw [harrays, hhosts, harraysc, hhostsc] at hname
    simp only [List.cons_append, List.nil_append, List.mem_cons, List.not_mem_nil, or_false, List.map_cons,
      List.map_nil] at hname ⊢
    tauto
  have hfirst := hs.setValue hbusy hplan hstmt hconstant List.mem_cons_self (results 0)
  have hdrawn := hfirst.drawn_beside hplan hbusy hstmt fun name (hask : FusedAsks plan content name) =>
    (hplan.asks_content hpair hcontent hstmt hask).symm.imp_right fun hname => hread (Or.inr hname)
  have hboth := hfirst.pass hplan hcontent (by rw [hopc]; decide) hdrawn (results 1)
  have hdelivered : Delivered plan stopAfter busy
      (((s.setValue stmt.name (results 0)).setValue contentStmt.name (results 1)).begin content) stmt.name :=
    (delivered_setValue s stmt.name (results 0)).mono ((grows_setValue _ contentStmt.name (results 1)).trans
      (grows_begin _ content)) fun _ hy => Or.inl hy
  refine ⟨hboth.of_subset fun name hname => ?_, .alone hplan hstmt (by rw [hop]; decide) (hboth.drawn fun name hask =>
    hread (hplan.asks_scores hpair hstmt hcontent hask)) (Or.inl hdelivered)⟩
  simp only [List.mem_cons, List.mem_append]
  tauto

omit hstmt hconstant hselect hadd in
/-- The fused package: it stores the result of the select, or that of the add that comes later. -/
theorem completes_runFusedAb (hfusion : fusion ∈ plan.fusions) (heq : fusion.select = x)
    (hstmt : plan.program[fusion.select]? = some stmt) (hown : ∀ name ∈ stmt.arrays ++ stmt.hosts, name ∈ seen) :
    Completes plan kernels given stopAfter due busy seen
      (runFusedAb plan kernels (direct device) (directAb form mask submit) ensure x stmt fusion) x := by
  subst heq
  obtain ⟨-, -, select, add, hp⟩ := hplan.places hfusion
  obtain rfl := Option.mem_unique hstmt hp.selectAt
  have hop := hplan.isSelect hfusion hstmt
  have hconstant : stmt.op ≠ .const := by
    rw [hop]
    decide
  refine Ends.orRaise_bind (fun other hother => ?_) fun _ _ => id
  obtain rfl := Option.mem_unique hp.addAt hother
  refine Ends.orRaise_bind (fun pair hsummands => ?_) fun _ _ => id
  obtain ⟨p, q⟩ := pair
  have hsummand {name : ν} (hname : name = p ∨ name = q) : Summand plan fusion name :=
    .mk hp.selectAt hp.addAt hsummands hname
  dsimp only
  split
  · rename_i a c b harrays
    refine Ends.bind (finds_tensor hserves hw hx hbusy hplan (.summand hfusion (hsummand (Or.inl rfl)))) fun s1 => ?_
    refine Ends.bind (finds_tensor hserves hw hx hbusy hplan (.summand hfusion (hsummand (Or.inr rfl)))) fun s2 => ?_
    refine Ends.bind (finds_tensor hserves hw hx hbusy hplan (.mask hfusion hstmt harrays (Or.inl rfl))) fun fill => ?_
    refine Ends.bind (finds_tensor hserves hw hx hbusy hplan (.mask hfusion hstmt harrays (Or.inr rfl))) fun cond => ?_
    have hseen (name : ν) (hask : FusedAsks plan fusion.select name) : name ∈ c :: a :: q :: p :: seen := by
      simp only [List.mem_cons]
      rcases hplan.asks_select hfusion hstmt hask with hname | hname
      · have := hown name hname
        tauto
      · have := hname.of_places hstmt hp.addAt hsummands
        tauto
    have hless {s : Runner ν V M} (h : AtHand plan kernels given stopAfter due busy (c :: a :: q :: p :: seen) s) :
        AtHand plan kernels given stopAfter due busy seen s :=
      h.of_subset fun name hname => by
        simp only [List.mem_cons]
        tauto
    split
    · refine Ends.call_bind (fun z => ?_) fun e he s _ => not_unresolved_of_mapError he s
      split
      · rename_i hlater
        refine Ends.change fun s hs => ?_
        have hdrawn := hs.drawn_beside hplan hbusy hstmt fun name (hask : FusedAsks plan fusion.add name) =>
          (hplan.asks_add hlater hp hsummands hask).imp_right fun heq => by simp [heq]
        have hboth := hs.pass hplan hp.addAt (by rw [hp.isOther]; decide) hdrawn z
        exact ⟨hless hboth, .select hplan hfusion hstmt (hboth.drawn hseen) (Or.inr (.select hfusion hlater hstmt))
          fun _ => Runner.begin_done.mpr (Or.inl rfl)⟩
      · rename_i hearlier
        refine Ends.change fun s hs => ?_
        have hstored := hs.setValue hbusy hplan hstmt hconstant List.mem_cons_self z
        exact ⟨hless hstored, .select hplan hfusion hstmt (hstored.drawn hseen)
          (Or.inl (delivered_setValue s stmt.name z)) fun hlater => absurd hlater hearlier⟩
    · exact Ends.raise fun _ _ => id
  · exact Ends.raise fun _ _ => id

/-- A statement that has no fusion. -/
theorem completes_executeInner (hown : ∀ name ∈ stmt.arrays ++ stmt.hosts, name ∈ seen) :
    Ends (fun s => AtHand plan kernels given stopAfter due busy seen s ∧
        (stmt.op = .matmul → s.values stmt.name = none))
      (executeInner plan.toPlan kernels (direct device) ensure x stmt)
      (fun _ s => AtHand plan kernels given stopAfter due busy seen s ∧ Finished plan kernels stopAfter busy s x)
      fun e s => ¬ Unresolved e s := by
  have hdispatch := hplan.plain.dispatch kernels (direct device) ensure hstmt hconstant
  generalize executeInner plan.toPlan kernels (direct device) ensure x stmt = run at hdispatch
  cases hdispatch with
  | islandA hplaced hpair hcontent =>
    exact (completes_runIslandA hserves hw hx hbusy hplan hstmt hpair hplaced hcontent).conseq (fun _ hs => hs.1)
      fun _ _ hs => hs
  | islandB hmem _ => exact absurd (hplan.mem_selects hmem) hselect
  | islandC _ hop halone =>
    exact (completes_runIslandC hserves hw hx hbusy hplan hstmt hop
      (fun name hask => hown name (hask.own hstmt (fun _ => halone) hselect))
      fun name hname => hplan.fetches_matmul hstmt hop hname).conseq (fun _ hs => hs.1) fun _ _ hs => hs
  | content hplaced hpair =>
    have hop := (indexIslands_eq_some hplan.plain.islands).content_op hpair hstmt
    exact (completes_runContent hserves hw hx hbusy hplan hstmt hpair hplaced hown).conseq
      (fun _ hs => ⟨hs.1, hs.2 hop⟩) fun _ _ hs => hs
  | gpu halone =>
    exact (completes_runGpu hserves hw hx hbusy hplan hstmt hconstant hselect hadd fun name hask =>
      hown name (hask.own hstmt halone hselect)).conseq (fun _ hs => hs.1) fun _ _ hs => hs

omit hselect hadd in
/-- A statement that is no constant, and no add that comes after its select. -/
theorem completes_executeInnerFused (hlate : ∀ fusion ∈ plan.fusions, fusion.later = true → fusion.add ≠ x)
    (hown : ∀ name ∈ stmt.arrays ++ stmt.hosts, name ∈ seen) :
    Ends (fun s => AtHand plan kernels given stopAfter due busy seen s ∧
        (stmt.op = .matmul → s.values stmt.name = none))
      (executeInnerFused plan kernels (direct device) (directAb form mask submit) ensure x stmt)
      (fun _ s => AtHand plan kernels given stopAfter due busy seen s ∧ Finished plan kernels stopAfter busy s x)
      fun e s => ¬ Unresolved e s := by
  unfold executeInnerFused
  rw [if_neg hconstant]
  split
  · rename_i hmem
    obtain ⟨fusion, hfusion, rfl⟩ := List.mem_map.mp hmem
    obtain ⟨-, -, select, add, hp⟩ := hplan.places hfusion
    obtain rfl := Option.mem_unique hstmt hp.addAt
    have hop := hp.isOther
    have hearlier : fusion.later = false := by
      rw [← Bool.not_eq_true]
      exact fun hlater => hlate fusion hfusion hlater rfl
    refine Ends.pure fun s hs => ⟨hs.1, .alone hplan hstmt (by rw [hop]; decide) (hs.1.drawn fun name hask => ?_)
      (Or.inr (Or.inl (.add hfusion hearlier hlate hstmt)))⟩
    exact hown name (hask.own hstmt (fun _ => hplan.plain.not_paired hstmt (by rw [hop]; decide))
      (hplan.not_select hstmt (by rw [hop]; decide)))
  · rename_i hadd
    split
    · rename_i fusion hfind
      have heq := List.find?_some hfind
      rw [decide_eq_true_iff] at heq
      exact (completes_runFusedAb hserves hw hx hbusy hplan (List.mem_of_find?_eq_some hfind) heq (heq ▸ hstmt)
        hown).conseq (fun _ hs => hs.1) fun _ _ hs => hs
    · rename_i hfind
      have hselect : x ∉ plan.fusions.map Fusion.select := by
        intro hmem
        obtain ⟨fusion, hfusion, heq⟩ := List.mem_map.mp hmem
        exact absurd (decide_eq_true heq) (List.find?_eq_none.mp hfind fusion hfusion)
      exact completes_executeInner hserves hw hx hbusy hplan hstmt hconstant hselect hadd hown

end Executing

section Ensuring

variable (hserves : Serves plan kernels given stopAfter ensure) (hw : Warranted plan kernels given wanted stopAfter)
  (hplan : plan.Formed adds declared)

include hw hplan

/-- An add that comes after its select is computed by it. -/
theorem AtHand.done_of_later (h : AtHand plan kernels given stopAfter due busy seen s)
    (hfusion : fusion ∈ plan.fusions) (hlater : fusion.later = true) (hx : Current plan stopAfter busy fusion.add)
    (hstmt : plan.program[fusion.add]? = some stmt) (hown : ∀ name ∈ stmt.arrays ++ stmt.hosts, name ∈ seen) :
    s.done fusion.add = true := by
  obtain ⟨-, -, select, add, hp⟩ := hplan.places hfusion
  have hproducer := hplan.plain.producer_name hp.selectAt
  have hreader : fusion.add ∈ consumers plan.program select.name := by
    rw [hp.later hlater]
    exact List.mem_singleton_self _
  obtain ⟨other, hother, hname⟩ := takes_of_mem_consumers hreader
  obtain rfl := Option.mem_unique hstmt hother
  have hop := hplan.isSelect hfusion hp.selectAt
  have hdone : s.done fusion.select = true := by
    rcases h.stocked.behind_of_idle (h.idle _ (hown _ hname)) hproducer with hdone | ⟨other, hother, hconstant⟩ |
      ⟨linear, hpair, -⟩
    · exact hdone
    · obtain rfl := Option.mem_unique hp.selectAt hother
      rw [hop] at hconstant
      cases hconstant
    · exact absurd hpair (hplan.plain.not_silu hp.selectAt (by rw [hop]; decide) linear)
  have hidle := (hx.sought hw (.plain (.own hstmt hname))).not_busy hw hproducer
  exact ((h.stocked.ended _ hdone).resolve_left hidle).added fusion hfusion hlater rfl

include hserves

/-- Executing a statement whose operands are available. -/
theorem finds_executeFused (hx : Current plan stopAfter busy x) (hstmt : plan.program[x]? = some stmt)
    (hown : ∀ name ∈ stmt.arrays ++ stmt.hosts, name ∈ seen) :
    Ends (AtHand plan kernels given stopAfter due busy seen)
      (executeFused plan kernels (direct device) (directAb form mask submit) ensure x)
      (fun _ s => AtHand plan kernels given stopAfter due busy seen s ∧ s.done x = true)
      fun e s => ¬ Unresolved e s := by
  unfold executeFused
  rw [hstmt]
  refine Ends.reads_bind fun s hs => ?_
  rw [id_eq]
  split_ifs with hdone
  · exact Ends.pure fun s' heq => ⟨heq ▸ hs, heq ▸ hdone⟩
  rw [Bool.not_eq_true] at hdone
  rintro s' rfl
  rw [Direct.change_bind]
  by_cases hop : stmt.op = .const
  · obtain ⟨s₁, hexecuted, hrun⟩ := evalConst_begin plan.toPlan kernels device x stmt.name s'
    unfold executeInnerFused
    dsimp only
    rw [if_pos hop, hrun]
    split_ifs with hwhole
    · refine ⟨hs.mono hexecuted.grows (hs.stocked.constant hplan hstmt hop hdone hexecuted hwhole
        (hw.array x stmt hstmt hop)), ?_⟩
      rw [hexecuted.done]
      exact Runner.begin_done.mpr (Or.inl rfl)
    · exact id
  · have hlate : ∀ fusion ∈ plan.fusions, fusion.later = true → fusion.add ≠ x := by
      rintro fusion hfusion hlater rfl
      rw [hs.done_of_later hw hplan hfusion hlater hx hstmt hown] at hdone
      cases hdone
    have hquiet : stmt.op = .matmul → s'.values stmt.name = none := by
      intro hmatmul
      by_contra hvalue
      have hhas : s'.has stmt.name = true := by
        rw [Runner.has, Option.isSome_iff_ne_none.mpr hvalue, Bool.true_or]
      rcases hs.stocked.behind _ x hhas (hplan.plain.producer_name hstmt) with hended | ⟨other, hother, hconstant⟩ |
        ⟨linear, hpair, -⟩
      · rw [hdone] at hended
        cases hended
      · obtain rfl := Option.mem_unique hstmt hother
        exact hop hconstant
      · exact absurd hpair (hplan.plain.not_silu hstmt (by rw [hmatmul]; decide) linear)
    have hbegun := hs.mono (grows_begin s' x) (hs.stocked.begin hplan hstmt hop hdone)
    refine (completes_executeInnerFused hserves hw hx.begin (Or.inr rfl) hplan hstmt hop hlate hown).conseq
      (fun _ h => h) (fun _ s h => ?_) _ ⟨hbegun, hquiet⟩
    exact ⟨⟨h.1.stocked.finish h.2, h.1.due, h.1.idle⟩, h.1.stocked.begun x (Or.inr rfl)⟩

omit hw hplan in
theorem finds_each (names : List ν) (hnames : ∀ name ∈ names, Sought plan given stopAfter busy name) :
    Finds plan kernels given stopAfter due busy seen (each ensure names) (names ++ seen) := by
  induction names generalizing seen with
  | nil => exact Ends.pure fun _ hs => hs
  | cons name rest ih =>
    refine Ends.bind (hserves due busy seen name (hnames name List.mem_cons_self)) fun _ => ?_
    refine Finds.of_subset (ih fun other hother => hnames other (List.mem_cons_of_mem name hother)) ?_
    intro other hother
    simp only [List.cons_append, List.mem_cons, List.mem_append] at hother ⊢
    tauto

theorem serves_ensureFusedWith : Serves plan kernels given stopAfter
    (ensureFusedWith plan kernels (direct device) (directAb form mask submit) ensure) := by
  intro due busy seen name hsought
  unfold ensureFusedWith
  refine Ends.reads_bind fun s hs => ?_
  have hready {s' : Runner ν V M} (h : AtHand plan kernels given stopAfter due busy seen s')
      (hidle : Idle plan.toPlan s' name) : AtHand plan kernels given stopAfter due busy (name :: seen) s' :=
    ⟨h.stocked, h.due, fun other hother => (List.mem_cons.mp hother).elim (fun heq => heq ▸ hidle) (h.idle other)⟩
  rw [id_eq]
  split_ifs with hhas
  · exact Ends.pure fun s' heq => heq ▸ hready hs (Or.inl hhas)
  cases hproducer : producer plan.program name with
  | none =>
    rw [Runner.has, hs.stocked.given name (hsought.provided hproducer), Bool.true_or] at hhas
    exact absurd rfl hhas
  | some y =>
    dsimp only
    have hidle {s' : Runner ν V M} (hdone : s'.done y = true) : Idle plan.toPlan s' name := by
      refine Or.inr fun z hz => ?_
      obtain rfl := Option.mem_unique hproducer hz
      exact hdone
    split_ifs with hdone
    · exact Ends.pure fun s' heq => heq ▸ hready hs (hidle hdone)
    obtain ⟨stmt, hstmt, -⟩ := producer_spec hproducer
    have hy := hsought.current hproducer
    rw [hstmt]
    have hoperands : Finds plan kernels given stopAfter due busy seen (each ensure (operands plan.program stmt))
        (operands plan.program stmt ++ seen) := finds_each hserves _ fun other hother =>
      hy.sought hw (.plain (.own hstmt (mem_operands.mp hother).1))
    have hown {s' : Runner ν V M}
        (h : AtHand plan kernels given stopAfter due busy (operands plan.program stmt ++ seen) s') :
        AtHand plan kernels given stopAfter due busy (stmt.arrays ++ stmt.hosts ++ seen) s' := by
      refine ⟨h.stocked, h.due, fun other hother => ?_⟩
      rcases List.mem_append.mp hother with hother | hother
      · cases hresult : producer plan.program other with
        | none =>
          refine Or.inr fun k hk => ?_
          rw [hresult] at hk
          cases hk
        | some k => exact h.idle other (List.mem_append_left _ (mem_operands.mpr ⟨hother, k, hresult⟩))
      · exact h.idle other (List.mem_append_right _ hother)
    refine Ends.bind (hoperands.conseq (fun s' heq => heq ▸ hs) fun _ _ h => h) fun _ => ?_
    refine (finds_executeFused hserves hw hplan hy hstmt fun other hother =>
      List.mem_append_left seen hother).conseq (fun _ h => hown h) fun _ s' h => hready (h.1.of_subset ?_) (hidle h.2)
    exact fun other hother => List.mem_append_right _ hother

variable (device form mask submit)

omit hserves ensure in
/-- However many nested calls are allowed. -/
theorem serves_ensureFused (depth : ℕ) :
    Serves plan kernels given stopAfter
      (ensureFused plan kernels (direct device) (directAb form mask submit) depth) := by
  induction depth with
  | zero => exact serves_ensureFusedWith (fun _ _ _ _ _ => Ends.raise fun _ _ => id) hw hplan
  | succ depth ih => exact serves_ensureFusedWith ih hw hplan

end Ensuring

end AneLinux.Encoder
