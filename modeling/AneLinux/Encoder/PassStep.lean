import AneLinux.Encoder.PassInv

/-!
# Executing a statement

Each way to execute a statement writes final values: the operation itself, an island or a fused kernel that composes
what it replaces. The one exception is a linear that the fused kernel did not take: it writes its value under the name
of its silu, too, and the silu is stale until it runs.
-/

namespace AneLinux.Encoder

open AneLinux.Support Attempt Direct

variable {ν V M : Type} [DecidableEq ν]

/-- The islands compute the operations they replace, and the fused kernels the compositions of theirs. -/
structure Composes (program : Program ν) (chain : Bool) (islands : Islands) (kernels : Kernels V M)
    (device : Job V → Except String (ℕ → V)) : Prop where
  silu : ∀ linear silu, (linear, silu) ∈ linearSilus program chain → ∀ vs v, kernels.chainSilu linear vs = some v →
    ∃ u, kernels.op linear vs [] = some u ∧ kernels.op silu [u] [] = some v
  gate : ∀ gate ∈ candidates program, ∀ sigmoid product, program[gate.sigmoid]? = some sigmoid →
    program[gate.mul]? = some product → ∀ a b v, kernels.glu a b = some v →
    ∃ u, kernels.op gate.sigmoid [b] [] = some u ∧
      kernels.op gate.mul (product.arrays.map fun name => if name = sigmoid.name then u else a) [] = some v
  scores : ∀ scores content, (scores, content) ∈ islands.pairs → ∀ q_v pos_kT q_scaled k_heads results,
    device ⟨.attnAKt, [q_v, pos_kT, q_scaled, kernels.swapaxes k_heads], [scores, content]⟩ = .ok results →
    ∀ tx ty, kernels.truth tx = false → kernels.truth ty = false →
      kernels.op scores [q_v, pos_kT] [tx, ty] = some (results 0)
  content : ∀ scores content, (scores, content) ∈ islands.pairs → ∀ q_v pos_kT q_scaled k_heads results,
    device ⟨.attnAKt, [q_v, pos_kT, q_scaled, kernels.swapaxes k_heads], [scores, content]⟩ = .ok results →
    ∀ tx ty, kernels.truth tx = false → kernels.truth ty = true →
      kernels.op content [q_scaled, k_heads] [tx, ty] = some (results 1)
  select : ∀ i ∈ islands.selects, ∀ fill cond matrix_bd results, kernels.selectForm fill cond matrix_bd = true →
    device ⟨.select8head, [kernels.broadcast fill, matrix_bd, kernels.broadcast cond], [i]⟩ = .ok results →
    kernels.op i [fill, cond, matrix_bd] [] = some (results 0)
  out : ∀ i ∈ islands.outs, ∀ probs v_heads results, device ⟨.pv, [probs, v_heads], [i]⟩ = .ok results →
    ∀ tx ty, kernels.truth tx = false → kernels.truth ty = false →
      kernels.op i [probs, v_heads] [tx, ty] = some (results 0)

variable {name a b tx ty : ν} {v u : V} {k content : ℕ} {contentStmt : Statement ν}

section Statements

variable {plan : Plan ν} {kernels : Kernels V M} {t : Tables ν V M} {early : ν → Option M} {i x root : ℕ}
  {busy waiting : ℕ → Prop} {s s' : Runner ν V M} {inputs : List (ν × V)} {stopAfter : ν}
  {device : Job V → Except String (ℕ → V)} {ensure : ν → Pass Id ν V M Unit} {stmt : Statement ν}

/-- Writing a result after a part of a pass. -/
theorem After.setValue (h : After plan kernels t early i busy waiting root s s')
    (hproducer : producer plan.program name = some k) (hdone : s'.done k = true)
    (hsilu : ∀ linear, (linear, k) ∉ plan.silus)
    (hvalue : (∀ linear silu, (linear, silu) ∈ plan.silus → producer plan.program name = some linear →
      s'.siluDone silu = false) → t.values name = some v) :
    After plan kernels t early i busy waiting root s (s'.setValue name v) :=
  ⟨h.inv.setValue hproducer hdone (fun linear hpair => absurd hpair (hsilu linear)) hvalue, h.kept, h.grown⟩

/-- Writing several results. -/
theorem After.setValues (h : After plan kernels t early i busy waiting root s s') (hdone : s'.done k = true)
    (hsilu : ∀ linear, (linear, k) ∉ plan.silus) {pairs : List (ν × V)}
    (hpairs : ∀ pair ∈ pairs, producer plan.program pair.1 = some k ∧ t.values pair.1 = some pair.2) :
    After plan kernels t early i busy waiting root s (s'.setValues pairs) := by
  induction pairs generalizing s' with
  | nil => exact h
  | cons pair rest ih =>
    obtain ⟨hproducer, hvalue⟩ := hpairs pair List.mem_cons_self
    exact ih (h.setValue hproducer hdone hsilu fun _ => hvalue) hdone fun other hother =>
      hpairs other (List.mem_cons_of_mem pair hother)

variable (hplan : plan.Formed (inputs.map Prod.fst)) (hsolves : Solves kernels plan.program inputs t)
  (honTime : OnTime plan kernels t early stopAfter) (hturn : plan.Turn stopAfter i)
  (hensure : Ensures plan kernels t early i ensure)
  (hcomposes : Composes plan.program plan.chain plan.islands kernels device)

include hplan in
/-- An operand of a statement that is no fused silu. -/
theorem Plan.Formed.needed (hstmt : plan.program[x]? = some stmt) (hsilu : ∀ linear, (linear, x) ∉ plan.silus)
    (hroot : Reaches plan root x) (hname : name ∈ stmt.arrays ++ stmt.hosts) : Needed plan root name where
  reached := fun _ hproducer => hroot.tail (.operand hstmt hname hproducer)
  plain := by
    intro linear silu hpair hproducer
    obtain rfl := hplan.reader_of_linear hpair hstmt hname hproducer
    exact hsilu linear hpair

include hplan in
/-- An array operand of a statement that is still to come. -/
theorem Plan.Formed.neededArray (hstmt : plan.program[x]? = some stmt) (hsilu : ∀ linear, (linear, x) ∉ plan.silus)
    (hroot : Reaches plan root x) (hreach : Reaches plan i x) (hle : i ≤ x) (hname : name ∈ stmt.arrays) :
    NeededArray plan i root name where
  toNeeded := hplan.needed hstmt hsilu hroot (List.mem_append_left _ hname)
  reader := ⟨x, stmt, hreach, hstmt, hname⟩
  live := by
    intro y last hproducer hlast
    have hreader : x ∈ consumers plan.program name :=
      mem_consumers.mpr ⟨stmt, hstmt, mem_operands.mpr ⟨List.mem_append_left _ hname, y, hproducer⟩⟩
    exact hle.trans (le_lastUse hreader hlast)

variable (h : PassInv plan kernels t early i busy (fun _ => False) s)

include h hplan hsolves honTime hturn hensure in
/-- The arrays that a statement reads. -/
theorem arrays_ok (hstmt : plan.program[x]? = some stmt) (hsilu : ∀ linear, (linear, x) ∉ plan.silus)
    (hreach : Reaches plan i x) (hle : i ≤ x) {vs : List V}
    (hrun : collect (tensor kernels (direct device) ensure) stmt.arrays s = (.ok vs, s')) :
    After plan kernels t early i busy (fun _ => False) x s s' ∧
      (∀ name ∈ stmt.arrays, Available plan s' name ∧ Free plan busy name) ∧
      stmt.arrays.mapM (t.array kernels) = some vs :=
  collect_ok (fun _ hname _ _ _ hs hread => tensor_ok hensure hplan hsolves honTime hturn hs hreach
    (hplan.neededArray hstmt hsilu .refl hreach hle hname) hread) h hrun

include h hplan hsolves hensure in
/-- The host values that a statement reads. -/
theorem hosts_ok (hstmt : plan.program[x]? = some stmt) (hsilu : ∀ linear, (linear, x) ∉ plan.silus)
    (hreach : Reaches plan i x) {xs : List M} (hrun : collect (scalar ensure) stmt.hosts s = (.ok xs, s')) :
    After plan kernels t early i busy (fun _ => False) x s s' ∧
      (∀ name ∈ stmt.hosts, Available plan s' name ∧ Free plan busy name) ∧ stmt.hosts.mapM t.hosts = some xs :=
  collect_ok (fun _ hname _ _ _ hs hread => scalar_ok hensure hplan hsolves hs hreach
    (hplan.needed hstmt hsilu .refl (List.mem_append_right _ hname)) hread) h hrun

omit [DecidableEq ν] in
/-- The arrays and the host values of a statement make its operands. -/
theorem Served.of_parts [DecidableEq ν] (harrays : ∀ name ∈ stmt.arrays, Available plan s name ∧ Free plan busy name)
    (hhosts : ∀ name ∈ stmt.hosts, Available plan s name ∧ Free plan busy name) : Served plan busy s stmt := by
  intro name hname
  rcases List.mem_append.mp hname with hname | hname
  · exact harrays name hname
  · exact hhosts name hname

include h hplan hsolves honTime hturn hensure hcomposes in
/-- A fused gate writes the value of its product. -/
theorem runGate_ok (hdone : s.done x = true) (hstmt : plan.program[x]? = some stmt) (hreach : Reaches plan i x)
    (hle : i ≤ x) {gate : Gate ν} (hgate : gate ∈ plan.gates) (hmul : gate.mul = x)
    (hready : ∀ name ∈ stmt.arrays ++ stmt.hosts, Available plan s name)
    (hrun : runGate kernels (direct device) ensure x stmt gate s = (.ok (), s')) :
    After plan kernels t early i busy (fun _ => False) x s s' ∧ Served plan busy s' stmt := by
  obtain ⟨sigmoid, product, hp⟩ := hplan.arities.gatePlaces (hplan.gates gate hgate)
  have hproduct := hp.productAt
  rw [hmul] at hproduct
  obtain rfl := Option.mem_unique hstmt hproduct
  have hsilu := hplan.not_silu hstmt (by rw [hp.isProduct]; decide)
  have hhosts := hplan.arities.arrays x stmt hstmt (Or.inr (Or.inl hp.isProduct))
  have hfactor {name : ν} : name ∈ stmt.arrays.filter (fun other => decide (other ≠ sigmoid.name)) ↔
      name = gate.a := by
    rw [hp.factors, List.mem_singleton]
  have hamem : gate.a ∈ stmt.arrays := List.mem_of_mem_filter (hfactor.mpr rfl)
  have hsigmoid : sigmoid.name ∈ stmt.arrays := by
    have hreader : x ∈ consumers plan.program sigmoid.name := by
      rw [hp.onlyReader, hmul]
      exact List.mem_singleton_self x
    obtain ⟨reader, hreader, hmem⟩ := mem_consumers.mp hreader
    obtain rfl := Option.mem_unique hstmt hreader
    rw [mem_operands, hhosts, List.append_nil] at hmem
    exact hmem.1
  have hneeds : Needs plan x gate.sigmoid :=
    .operand hstmt (List.mem_append_left _ hsigmoid) (hplan.producer_name hp.sigmoidAt)
  have hbmem : gate.b ∈ sigmoid.arrays := by
    rw [hp.argument]
    exact List.mem_singleton_self gate.b
  have hbname : NeededArray plan i x gate.b := by
    refine ⟨hplan.needed hp.sigmoidAt (hplan.not_silu hp.sigmoidAt (by rw [hp.isSigmoid]; decide)) (.single hneeds)
      (List.mem_append_left _ hbmem), ⟨gate.sigmoid, sigmoid, hreach.tail hneeds, hp.sigmoidAt, hbmem⟩, ?_⟩
    intro y last _ hlast
    have hstays := mul_le_lastUse hgate hlast
    omega
  obtain ⟨a, s₁, hfirst, hrun⟩ := bind_eq_ok.mp hrun
  obtain ⟨b, s₂, hsecond, hrun⟩ := bind_eq_ok.mp hrun
  obtain ⟨v, s₃, hthird, hrun⟩ := bind_eq_ok.mp hrun
  obtain rfl := change_eq_ok hrun
  obtain ⟨hglu, rfl⟩ := orRaise_eq_ok hthird
  obtain ⟨hafter, hread, ha⟩ := tensor_ok hensure hplan hsolves honTime hturn h hreach
    (hplan.neededArray hstmt hsilu .refl hreach hle hamem) hfirst
  obtain ⟨hafter', -, hb⟩ := tensor_ok hensure hplan hsolves honTime hturn hafter.inv hreach hbname hsecond
  obtain ⟨u, hu, hv⟩ := hcomposes.gate gate (hplan.gates gate hgate) sigmoid stmt hp.sigmoidAt hp.productAt a b v hglu
  have hactivation : t.values sigmoid.name = some u := by
    refine hsolves.values_operation hp.sigmoidAt (by rw [hp.isSigmoid]; decide) (by rw [hp.isSigmoid]; decide)
      ?_ ?_ hu
    · rw [hp.argument, List.mapM_cons, hb]
      rfl
    · rw [(hplan.arities.activation _ _ hp.sigmoidAt (Or.inr hp.isSigmoid)).2]
      rfl
  have hvalue : t.values stmt.name = some v := by
    rw [hmul] at hv
    refine hsolves.values_operation hstmt (by rw [hp.isProduct]; decide) (by rw [hp.isProduct]; decide) ?_ ?_ hv
    · have hfactors : ∀ name ∈ stmt.arrays, t.array kernels name = pure (if name = sigmoid.name then u else a) := by
        intro name hname
        by_cases heq : name = sigmoid.name
        · rw [if_pos heq, heq, Tables.array, hactivation]
          rfl
        · rw [if_neg heq, hfactor.mp (List.mem_filter.mpr ⟨hname, decide_eq_true heq⟩), ha]
          rfl
      rw [mapM_congr_mem hfactors, List.mapM_pure]
      rfl
    · rw [hhosts]
      rfl
  have hall := hafter.trans hafter'
  refine ⟨hall.setValue (hplan.producer_name hstmt) (hall.kept x hdone) hsilu fun _ => hvalue, fun name hname => ?_⟩
  refine ⟨(hready name hname).mono hall.kept, ?_⟩
  rw [hhosts, List.append_nil] at hname
  by_cases heq : name = sigmoid.name
  · rw [heq]
    exact hplan.free (hplan.producer_name hp.sigmoidAt) hp.sigmoidAt (by rw [hp.isSigmoid]; decide)
  · rw [hfactor.mp (List.mem_filter.mpr ⟨hname, decide_eq_true heq⟩)]
    exact hread.2

include h hplan hsolves honTime hturn hensure in
/-- A split writes its parts. -/
theorem runSplit_ok (hdone : s.done x = true) (hstmt : plan.program[x]? = some stmt) (hop : stmt.op = .split)
    (hreach : Reaches plan i x) (hle : i ≤ x) (hrun : runSplit kernels (direct device) ensure x stmt s = (.ok (), s')) :
    After plan kernels t early i busy (fun _ => False) x s s' ∧ Served plan busy s' stmt := by
  have hsilu := hplan.not_silu hstmt (by rw [hop]; decide)
  obtain ⟨xs, s₁, hhosts, hrun⟩ := bind_eq_ok.mp hrun
  obtain ⟨hafter, hserved, hxs⟩ := hosts_ok hplan hsolves hensure h hstmt hsilu hreach hhosts
  rcases harrays : stmt.arrays with _ | ⟨name, _ | ⟨other, rest⟩⟩ <;> rw [harrays] at hrun
  · cases hrun
  · have hname : name ∈ stmt.arrays := by
      rw [harrays]
      exact List.mem_singleton_self name
    obtain ⟨v, s₂, hread, hrun⟩ := bind_eq_ok.mp hrun
    obtain ⟨parts, s₃, hparts, hrun⟩ := bind_eq_ok.mp hrun
    split_ifs at hrun with hlength
    swap
    · cases hrun
    obtain rfl := change_eq_ok hrun
    obtain ⟨hsplit, rfl⟩ := orRaise_eq_ok hparts
    obtain ⟨hafter', hread, hv⟩ := tensor_ok hensure hplan hsolves honTime hturn hafter.inv hreach
      (hplan.neededArray hstmt hsilu .refl hreach hle hname) hread
    have hevaluate : evaluate kernels x stmt t = some (stmt.names.zip parts) := by
      rw [evaluate, hop]
      dsimp only
      rw [hxs, harrays]
      change ((t.array kernels name).bind fun v => (kernels.split x v xs).bind fun parts =>
        if parts.length = stmt.names.length then some (stmt.names.zip parts) else none) = _
      rw [hv, Option.bind_some, hsplit, Option.bind_some, if_pos hlength]
    refine ⟨(hafter.trans hafter').setValues (hafter'.kept x (hafter.kept x hdone)) hsilu fun pair hpair => ?_,
      .of_parts (fun other hother => ?_) fun other hother =>
        ⟨(hserved other hother).1.mono hafter'.kept, (hserved other hother).2⟩⟩
    swap
    · rw [harrays, List.mem_singleton] at hother
      rw [hother]
      exact hread
    have hparts : parts.map (direct (ν := ν) device).ofArray = parts := List.map_id parts
    rw [hparts] at hpair
    have hmem : pair.1 ∈ stmt.names := (List.of_mem_zip (show (pair.1, pair.2) ∈ _ from hpair)).1
    refine ⟨hplan.single.producer_eq hstmt hmem, ?_⟩
    rw [hsolves.values x stmt hstmt pair.1 hmem, hevaluate, Option.bind_some]
    apply (find_eq_some_iff _).mpr hpair
    rw [List.map_fst_zip hlength.ge]
    exact hplan.single.names_nodup hstmt
  · cases hrun

include h hplan hsolves honTime hturn hensure in
/-- What an operation that is neither fused nor placed writes. -/
theorem runApply_plain_ok (hdone : s.done x = true) (hstmt : plan.program[x]? = some stmt)
    (hconstant : stmt.op ≠ .const) (hsplit : stmt.op ≠ .split) (hsilu : ∀ linear, (linear, x) ∉ plan.silus)
    (hlinear : ∀ silu, (x, silu) ∉ plan.silus) (hreach : Reaches plan i x) (hle : i ≤ x)
    (hrun : runApply plan kernels (direct device) ensure x stmt s = (.ok (), s')) :
    After plan kernels t early i busy (fun _ => False) x s s' ∧ Served plan busy s' stmt := by
  obtain ⟨vs, s₁, harrays, hrun⟩ := bind_eq_ok.mp hrun
  obtain ⟨xs, s₂, hhosts, hrun⟩ := bind_eq_ok.mp hrun
  obtain ⟨hafter, hserved, hvs⟩ := arrays_ok hplan hsolves honTime hturn hensure h hstmt hsilu hreach hle harrays
  obtain ⟨hafter', hserved', hxs⟩ := hosts_ok hplan hsolves hensure hafter.inv hstmt hsilu hreach hhosts
  have hnone : find (linearSilus plan.program plan.chain) x = none := by
    cases hfind : find (linearSilus plan.program plan.chain) x with
    | none => rfl
    | some silu => exact absurd (find_linearSilus.mp hfind) (hlinear silu)
  rw [hnone] at hrun
  obtain ⟨v, s₃, hop, hrun⟩ := bind_eq_ok.mp hrun
  obtain rfl := change_eq_ok hrun
  obtain ⟨hv, rfl⟩ := orRaise_eq_ok hop
  refine ⟨(hafter.trans hafter').setValue (hplan.producer_name hstmt) (hafter'.kept x (hafter.kept x hdone)) hsilu
    fun _ => hsolves.values_operation hstmt hconstant hsplit hvs hxs hv, .of_parts (fun name hname => ?_) hserved'⟩
  exact ⟨(hserved name hname).1.mono hafter'.kept, (hserved name hname).2⟩

omit [DecidableEq ν] in
theorem submit_eq_ok {job : Job V} {results : ℕ → V}
    (h : (call ((direct device).submit job) : Pass Id ν V M (ℕ → V)) s = (.ok results, s')) :
    device job = .ok results ∧ s = s' := by
  obtain ⟨hok, hs⟩ := Prod.mk.inj h
  refine ⟨?_, hs⟩
  cases hdevice : device job with
  | ok arrays =>
    change (device job).mapError deviceError = _ at hok
    rw [hdevice] at hok
    exact congrArg Except.ok (Except.ok.inj hok)
  | error e =>
    change (device job).mapError deviceError = _ at hok
    rw [hdevice] at hok
    cases hok

omit [DecidableEq ν] in
theorem matmulArguments_eq_some (h : matmulArguments stmt = some ((a, b), (tx, ty))) :
    stmt.arrays = [a, b] ∧ stmt.hosts = [tx, ty] := by
  unfold matmulArguments at h
  split at h
  · rename_i harrays hhosts
    cases h
    exact ⟨harrays, hhosts⟩
  · cases h

include h hplan hsolves honTime hturn hensure hcomposes in
/-- The mask select on the device. -/
theorem runIslandB_ok (hdone : s.done x = true) (hstmt : plan.program[x]? = some stmt)
    (hop : stmt.op = .select) (hselect : x ∈ plan.islands.selects) (hreach : Reaches plan i x) (hle : i ≤ x)
    (hrun : runIslandB kernels (direct device) ensure x stmt s = (.ok (), s')) :
    After plan kernels t early i busy (fun _ => False) x s s' ∧ Served plan busy s' stmt := by
  have hsilu := hplan.not_silu hstmt (by rw [hop]; decide)
  have hhosts := hplan.arities.arrays x stmt hstmt (Or.inr (Or.inr hop))
  unfold runIslandB at hrun
  rcases harrays : stmt.arrays with _ | ⟨a, _ | ⟨c, _ | ⟨b, _ | ⟨d, rest⟩⟩⟩⟩ <;> rw [harrays] at hrun
  · cases hrun
  · cases hrun
  · cases hrun
  · have hneeded (name : ν) (hname : name ∈ [a, c, b]) : NeededArray plan i x name :=
      hplan.neededArray hstmt hsilu .refl hreach hle (harrays ▸ hname)
    obtain ⟨fill, s₁, hfirst, hrun⟩ := bind_eq_ok.mp hrun
    obtain ⟨cond, s₂, hsecond, hrun⟩ := bind_eq_ok.mp hrun
    obtain ⟨matrix_bd, s₃, hthird, hrun⟩ := bind_eq_ok.mp hrun
    split_ifs at hrun with hform
    swap
    · cases hrun
    obtain ⟨results, s₄, hsubmit, hrun⟩ := bind_eq_ok.mp hrun
    obtain rfl := change_eq_ok hrun
    obtain ⟨hdevice, rfl⟩ := submit_eq_ok hsubmit
    obtain ⟨hafter, hread, hfill⟩ := tensor_ok hensure hplan hsolves honTime hturn h hreach
      (hneeded a (by simp)) hfirst
    obtain ⟨hafter', hread', hcond⟩ := tensor_ok hensure hplan hsolves honTime hturn hafter.inv hreach
      (hneeded c (by simp)) hsecond
    obtain ⟨hafter'', hread'', hmatrix⟩ := tensor_ok hensure hplan hsolves honTime hturn hafter'.inv hreach
      (hneeded b (by simp)) hthird
    have hall := (hafter.trans hafter').trans hafter''
    refine ⟨hall.setValue (hplan.producer_name hstmt) (hall.kept x hdone) hsilu fun _ => ?_, fun name hname => ?_⟩
    swap
    · rw [harrays, hhosts, List.append_nil] at hname
      simp only [List.mem_cons, List.not_mem_nil, or_false] at hname
      rcases hname with rfl | rfl | rfl
      · exact ⟨(hread.1.mono hafter'.kept).mono hafter''.kept, hread.2⟩
      · exact ⟨hread'.1.mono hafter''.kept, hread'.2⟩
      · exact hread''
    refine hsolves.values_operation hstmt (by rw [hop]; decide) (by rw [hop]; decide) ?_ ?_
      (hcomposes.select x hselect fill cond matrix_bd results hform hdevice)
    · rw [harrays]
      simp only [List.mapM_cons, hfill, hcond, hmatrix]
      rfl
    · rw [hhosts]
      rfl
  · cases hrun

/-- Operands that are ready stay ready. -/
theorem operands_mono {names : List ν} (h : ∀ name ∈ names, Available plan s name ∧ Free plan busy name)
    (hkept : ∀ y, s.done y = true → s'.done y = true) :
    ∀ name ∈ names, Available plan s' name ∧ Free plan busy name :=
  fun name hname => ⟨(h name hname).1.mono hkept, (h name hname).2⟩

include hsolves in
/-- The final value of a matmul is what it gives for those of its factors and its flags. -/
theorem Solves.values_matmul (hstmt : plan.program[x]? = some stmt) (hop : stmt.op = .matmul)
    (harrays : stmt.arrays = [a, b]) (hhosts : stmt.hosts = [tx, ty]) {w : V} {fx fy : M}
    (hu : t.array kernels a = some u) (hv : t.array kernels b = some v) (hfx : t.hosts tx = some fx)
    (hfy : t.hosts ty = some fy) (hw : kernels.op x [u, v] [fx, fy] = some w) : t.values stmt.name = some w := by
  refine hsolves.values_operation hstmt (by rw [hop]; decide) (by rw [hop]; decide) ?_ ?_ hw
  · rw [harrays]
    simp only [List.mapM_cons, hu, hv]
    rfl
  · rw [hhosts]
    simp only [List.mapM_cons, hfx, hfy]
    rfl

include h hplan hsolves honTime hturn hensure in
/-- Both factors of a matmul are read. -/
theorem factors_ok {s₁ s₂ : Runner ν V M} (hroot : Reaches plan i root)
    (hneeded : ∀ name ∈ [a, b], NeededArray plan i root name)
    (hfirst : tensor kernels (direct device) ensure a s = (.ok u, s₁))
    (hsecond : tensor kernels (direct device) ensure b s₁ = (.ok v, s₂)) :
    After plan kernels t early i busy (fun _ => False) root s s₂ ∧
      (∀ name ∈ [a, b], Available plan s₂ name ∧ Free plan busy name) ∧
      t.array kernels a = some u ∧ t.array kernels b = some v := by
  obtain ⟨hafter, hread, hu⟩ := tensor_ok hensure hplan hsolves honTime hturn h hroot (hneeded a (by simp)) hfirst
  obtain ⟨hafter', hread', hv⟩ := tensor_ok hensure hplan hsolves honTime hturn hafter.inv hroot
    (hneeded b (by simp)) hsecond
  refine ⟨hafter.trans hafter', List.forall_mem_cons.mpr ⟨?_, List.forall_mem_singleton.mpr hread'⟩, hu, hv⟩
  exact ⟨hread.1.mono hafter'.kept, hread.2⟩

include hplan hsolves hensure in
/-- Both flags of a matmul are as a bundle needs them. -/
theorem flags_ok {wanted wanted' : Bool} (hneeded : ∀ name ∈ [tx, ty], Needed plan root name)
    (h : PassInv plan kernels t early i busy (fun _ => False) s) (hroot : Reaches plan i root)
    (hrun : requireFlags kernels ensure k [(tx, wanted), (ty, wanted')] s = (.ok (), s')) :
    After plan kernels t early i busy (fun _ => False) root s s' ∧
      (∀ name ∈ [tx, ty], Available plan s' name ∧ Free plan busy name) ∧
      ∃ fx fy, (t.hosts tx = some fx ∧ t.hosts ty = some fy) ∧ kernels.truth fx = wanted ∧
        kernels.truth fy = wanted' := by
  obtain ⟨hafter, htruth⟩ := requireFlags_ok hensure hplan hsolves (List.forall_mem_cons.mpr
    ⟨hneeded tx (by simp), List.forall_mem_singleton.mpr (hneeded ty (by simp))⟩) h hroot hrun
  obtain ⟨hready, fx, hfx, hx⟩ := htruth (tx, wanted) (by simp)
  obtain ⟨hready', fy, hfy, hy⟩ := htruth (ty, wanted') (by simp)
  exact ⟨hafter, List.forall_mem_cons.mpr ⟨hready, List.forall_mem_singleton.mpr hready'⟩, fx, fy, ⟨hfx, hfy⟩, hx, hy⟩

include h hplan hsolves honTime hturn hensure hcomposes in
/-- The matmul of the probabilities with the values on the device. -/
theorem runIslandC_ok (hdone : s.done x = true) (hstmt : plan.program[x]? = some stmt) (hop : stmt.op = .matmul)
    (hout : x ∈ plan.islands.outs) (hreach : Reaches plan i x) (hle : i ≤ x)
    (hrun : runIslandC kernels (direct device) ensure x stmt s = (.ok (), s')) :
    After plan kernels t early i busy (fun _ => False) x s s' ∧ Served plan busy s' stmt := by
  have hsilu := hplan.not_silu hstmt (by rw [hop]; decide)
  obtain ⟨⟨⟨a, b⟩, tx, ty⟩, s₀, harguments, hrun⟩ := bind_eq_ok.mp hrun
  obtain ⟨hmatmul, rfl⟩ := orRaise_eq_ok harguments
  obtain ⟨harrays, hhosts⟩ := matmulArguments_eq_some hmatmul
  obtain ⟨_, s₁, hflags, hrun⟩ := bind_eq_ok.mp hrun
  obtain ⟨probs, s₂, hfirst, hrun⟩ := bind_eq_ok.mp hrun
  obtain ⟨v_heads, s₃, hsecond, hrun⟩ := bind_eq_ok.mp hrun
  obtain ⟨results, s₄, hsubmit, hrun⟩ := bind_eq_ok.mp hrun
  obtain rfl := change_eq_ok hrun
  obtain ⟨hdevice, rfl⟩ := submit_eq_ok hsubmit
  obtain ⟨hafter, hready, fx, fy, ⟨hfx, hfy⟩, hx, hy⟩ := flags_ok hplan hsolves hensure (fun name hname =>
    hplan.needed hstmt hsilu .refl (List.mem_append_right _ (hhosts ▸ hname))) h hreach hflags
  obtain ⟨hafter', hready', hprobs, hheads⟩ := factors_ok hplan hsolves honTime hturn hensure hafter.inv hreach
    (fun name hname => hplan.neededArray hstmt hsilu .refl hreach hle (harrays ▸ hname)) hfirst hsecond
  have hall := hafter.trans hafter'
  refine ⟨hall.setValue (hplan.producer_name hstmt) (hall.kept x hdone) hsilu fun _ => ?_,
    .of_parts (harrays ▸ hready') (hhosts ▸ operands_mono hready hafter'.kept)⟩
  exact hsolves.values_matmul hstmt hop harrays hhosts hprobs hheads hfx hfy
    (hcomposes.out x hout probs v_heads results hdevice fx fy hx hy)

include hplan hsolves in
/-- Another statement is over at once. -/
theorem After.over (h : After plan kernels t early i busy (fun _ => False) root s s') (hreach : Reaches plan root x)
    (hstmt : plan.program[x]? = some stmt) (hconstant : stmt.op ≠ .const) (hsilu : stmt.op ≠ .silu)
    (hlinear : stmt.op ≠ .linear) (hfed : Fed plan busy (s'.begin x) x) :
    After plan kernels t early i busy (fun _ => False) root s (s'.begin x) := by
  have hunlocked {y : ℕ} (hy : Unlocked plan busy y) : Unlocked plan (fun z => busy z ∨ z = x) y := by
    intro linear hpair hb
    rcases hb with hb | rfl
    · exact hy linear hpair hb
    · exact hplan.not_linear hstmt hlinear y hpair
  have hbegun := (h.inv.weaken fun _ hfalse => hfalse.elim).begin hsolves hplan (x := x) (fun other hother => by
    rwa [← Option.mem_unique hstmt hother]) (hplan.not_silu hstmt hsilu) fun silu hpair =>
      absurd hpair (hplan.not_linear hstmt hlinear silu)
  refine ⟨hbegun.finish fun y hneed => ⟨(hfed y hneed).1, hunlocked (hfed y hneed).2⟩,
    fun y hy => Runner.begin_done.mpr (Or.inr (h.kept y hy)), fun y hy => ?_⟩
  rcases Runner.begin_done.mp hy with rfl | hy
  · exact Or.inr ⟨hreach, Or.inr fun linear hpair => absurd hpair (hplan.not_silu hstmt hsilu linear)⟩
  · exact h.grown y hy

include hplan hsolves in
/-- Both results of a layer are written, and the content matmul is over. -/
theorem After.islandA (h : After plan kernels t early i busy (fun _ => False) x s s') (hdone : s'.done x = true)
    (hplaced : plan.placed.a = true) (hpair : (x, content) ∈ plan.islands.pairs) (hstmt : plan.program[x]? = some stmt)
    (hop : stmt.op = .matmul) (hcontent : plan.program[content]? = some contentStmt) (hopc : contentStmt.op = .matmul)
    (hserved : Served plan busy s' contentStmt) (hu : t.values stmt.name = some u)
    (hv : t.values contentStmt.name = some v) :
    After plan kernels t early i busy (fun _ => False) x s
      (((s'.setValue stmt.name u).setValue contentStmt.name v).begin content) := by
  have hkept (z : ℕ) (hz : s'.done z = true) : (s'.begin content).done z = true := Runner.begin_done.mpr (Or.inr hz)
  -- the content matmul needs its operands and the scores, which are done
  have hfed : Fed plan busy (s'.begin content) content :=
    hplan.fed_content hcontent (hserved.mono hkept) hpair (hkept x hdone)
  have hover := h.over hplan hsolves (.single (.content hplaced hpair)) hcontent (by rw [hopc]; decide)
    (by rw [hopc]; decide) (by rw [hopc]; decide) hfed
  exact (hover.setValue (hplan.producer_name hstmt) (hkept x hdone) (hplan.not_silu hstmt (by rw [hop]; decide))
    fun _ => hu).setValue (hplan.producer_name hcontent) (Runner.begin_done.mpr (Or.inl rfl))
    (hplan.not_silu hcontent (by rw [hopc]; decide)) fun _ => hv

include h hplan hsolves honTime hturn hensure hcomposes in
/-- Both matmuls of a layer on the device: the content matmul is over, too. -/
theorem runIslandA_ok (hdone : s.done x = true) (hplaced : plan.placed.a = true)
    (hpair : (x, content) ∈ plan.islands.pairs) (hstmt : plan.program[x]? = some stmt)
    (hcontent : plan.program[content]? = some contentStmt) (hreach : Reaches plan i x) (hle : i ≤ x)
    (hlater : i ≤ content)
    (hrun : runIslandA kernels (direct device) ensure x content stmt contentStmt s = (.ok (), s')) :
    After plan kernels t early i busy (fun _ => False) x s s' ∧ s'.done content = true ∧ Served plan busy s' stmt ∧
      Served plan busy s' contentStmt := by
  have hplaces := indexIslands_eq_some hplan.islands
  have hop := hplaces.scores_op hpair hstmt
  have hopc := hplaces.content_op hpair hcontent
  have hsilu := hplan.not_silu hstmt (by rw [hop]; decide)
  have hsiluc := hplan.not_silu hcontent (by rw [hopc]; decide)
  have hneeds : Needs plan x content := .content hplaced hpair
  obtain ⟨⟨⟨a, b⟩, tx, ty⟩, s₀, harguments, hrun⟩ := bind_eq_ok.mp hrun
  obtain ⟨hmatmul, rfl⟩ := orRaise_eq_ok harguments
  obtain ⟨⟨⟨ca, cb⟩, ctx, cty⟩, s₀, harguments', hrun⟩ := bind_eq_ok.mp hrun
  obtain ⟨hmatmul', rfl⟩ := orRaise_eq_ok harguments'
  obtain ⟨harrays, hhosts⟩ := matmulArguments_eq_some hmatmul
  obtain ⟨harraysc, hhostsc⟩ := matmulArguments_eq_some hmatmul'
  obtain ⟨_, s₁, hflags, hrun⟩ := bind_eq_ok.mp hrun
  obtain ⟨_, s₂, hflags', hrun⟩ := bind_eq_ok.mp hrun
  obtain ⟨q_v, s₃, hfirst, hrun⟩ := bind_eq_ok.mp hrun
  obtain ⟨pos_kT, s₄, hsecond, hrun⟩ := bind_eq_ok.mp hrun
  obtain ⟨q_scaled, s₅, hthird, hrun⟩ := bind_eq_ok.mp hrun
  obtain ⟨k_heads, s₆, hfourth, hrun⟩ := bind_eq_ok.mp hrun
  obtain ⟨results, s₇, hsubmit, hrun⟩ := bind_eq_ok.mp hrun
  obtain rfl := change_eq_ok hrun
  obtain ⟨hdevice, rfl⟩ := submit_eq_ok hsubmit
  obtain ⟨h₁, hready, fx, fy, ⟨hfx, hfy⟩, hx, hy⟩ := flags_ok hplan hsolves hensure (fun name hname =>
    hplan.needed hstmt hsilu .refl (List.mem_append_right _ (hhosts ▸ hname))) h hreach hflags
  obtain ⟨h₂, hreadyc, cfx, cfy, ⟨hcfx, hcfy⟩, hcx, hcy⟩ := flags_ok hplan hsolves hensure (fun name hname =>
    hplan.needed hcontent hsiluc (.single hneeds) (List.mem_append_right _ (hhostsc ▸ hname))) h₁.inv hreach hflags'
  obtain ⟨h₄, hfactors, hq, hpos⟩ := factors_ok hplan hsolves honTime hturn hensure h₂.inv hreach
    (fun name hname => hplan.neededArray hstmt hsilu .refl hreach hle (harrays ▸ hname)) hfirst hsecond
  obtain ⟨h₆, hfactorsc, hqs, hk⟩ := factors_ok hplan hsolves honTime hturn hensure h₄.inv hreach
    (fun name hname => hplan.neededArray hcontent hsiluc (.single hneeds) (hreach.tail hneeds) hlater
      (harraysc ▸ hname)) hthird hfourth
  have hscores := hsolves.values_matmul hstmt hop harrays hhosts hq hpos hfx hfy
    (hcomposes.scores x content hpair _ _ _ _ results hdevice fx fy hx hy)
  have hcontents := hsolves.values_matmul hcontent hopc harraysc hhostsc hqs hk hcfx hcfy
    (hcomposes.content x content hpair _ _ _ _ results hdevice cfx cfy hcx hcy)
  have hlast (z : ℕ) (hz : s₂.done z = true) : s₆.done z = true := h₆.kept z (h₄.kept z hz)
  have hserved : Served plan busy s₆ stmt := .of_parts (harrays ▸ operands_mono hfactors h₆.kept)
    (hhosts ▸ operands_mono hready fun z hz => hlast z (h₂.kept z hz))
  have hservedc : Served plan busy s₆ contentStmt :=
    .of_parts (harraysc ▸ hfactorsc) (hhostsc ▸ operands_mono hreadyc hlast)
  have hall := ((h₁.trans h₂).trans h₄).trans h₆
  have hkept (z : ℕ) (hz : s₆.done z = true) : (s₆.begin content).done z = true := Runner.begin_done.mpr (Or.inr hz)
  exact ⟨hall.islandA hplan hsolves (hall.kept x hdone) hplaced hpair hstmt hop hcontent hopc hservedc hscores
    hcontents, Runner.begin_done.mpr (Or.inl rfl), hserved.mono hkept, hservedc.mono hkept⟩

include h hplan hsolves honTime hturn hensure hcomposes in
/-- The part of a statement on the GPU, when no silu is fused with it. -/
theorem runGpu_ok (hdone : s.done x = true) (hstmt : plan.program[x]? = some stmt) (hconstant : stmt.op ≠ .const)
    (hsilu : ∀ linear, (linear, x) ∉ plan.silus) (hlinear : ∀ silu, (x, silu) ∉ plan.silus) (hreach : Reaches plan i x)
    (hle : i ≤ x) (hready : ∀ name ∈ stmt.arrays ++ stmt.hosts, Available plan s name)
    (hrun : runGpu plan kernels (direct device) ensure x stmt s = (.ok (), s')) :
    After plan kernels t early i busy (fun _ => False) x s s' ∧ Served plan busy s' stmt := by
  unfold runGpu at hrun
  rw [Direct.reads_bind, id_eq] at hrun
  by_cases hsigmoid : stmt.op = .sigmoid ∧ x ∈ plan.gates.map Gate.sigmoid
  · rw [if_pos hsigmoid] at hrun
    obtain ⟨-, rfl⟩ := pure_eq_ok hrun
    obtain ⟨gate, hgate, rfl⟩ := List.mem_map.mp hsigmoid.2
    obtain ⟨sigmoid, product, hp⟩ := hplan.arities.gatePlaces (hplan.gates gate hgate)
    obtain rfl := Option.mem_unique hstmt hp.sigmoidAt
    obtain ⟨place, split, hsplit, hop, -, hproducer⟩ := hp.halves
    refine ⟨.refl h, fun name hname => ⟨hready name hname, ?_⟩⟩
    rw [hp.argument, (hplan.arities.activation _ _ hstmt (Or.inr hp.isSigmoid)).2, List.append_nil,
      List.mem_singleton] at hname
    rw [hname]
    exact hplan.free hproducer hsplit (by rw [hop]; decide)
  rw [if_neg hsigmoid] at hrun
  by_cases hfused : stmt.op = .silu ∧ s.siluDone x = true
  · obtain ⟨linear, hpair⟩ := h.fused x hfused.2
    exact absurd hpair (hsilu linear)
  rw [if_neg hfused] at hrun
  cases hgate : plan.gates.find? fun gate => decide (gate.mul = x) with
  | some gate =>
    rw [hgate] at hrun
    have hmul := List.find?_some hgate
    exact runGate_ok hplan hsolves honTime hturn hensure hcomposes h hdone hstmt hreach hle
      (List.mem_of_find?_eq_some hgate) (of_decide_eq_true hmul) hready hrun
  | none =>
    rw [hgate] at hrun
    by_cases hsplit : stmt.op = .split
    · rw [if_pos hsplit] at hrun
      exact runSplit_ok hplan hsolves honTime hturn hensure h hdone hstmt hsplit hreach hle hrun
    · rw [if_neg hsplit] at hrun
      exact runApply_plain_ok hplan hsolves honTime hturn hensure h hdone hstmt hconstant hsplit hsilu hlinear
        hreach hle hrun

/-- A name whose producer is done is ensured at once. -/
def Quick (program : Program ν) (ensure : ν → Pass Id ν V M Unit) : Prop :=
  ∀ name y (s s' : Runner ν V M), producer program name = some y → s.done y = true → ensure name s = (.ok (), s') →
    s = s'

include h hplan hsolves honTime hturn hensure hcomposes in
/-- The content matmul reached first: the scores are done, too. -/
theorem runContent_ok (hdone : s.done x = true) (hplaced : plan.placed.a = true) {scores : ℕ}
    (hpair : (scores, x) ∈ plan.islands.pairs) (hstmt : plan.program[x]? = some stmt)
    (hnone : s.values stmt.name = none) (hreach : Reaches plan i x) (hle : i ≤ x) (hquick : Quick plan.program ensure)
    (hready : ∀ name ∈ stmt.arrays ++ stmt.hosts, Available plan s name)
    (hrun : runContent plan kernels (direct device) ensure x scores stmt s = (.ok (), s')) :
    After plan kernels t early i busy (fun _ => False) x s s' ∧ s'.done scores = true ∧ Served plan busy s' stmt := by
  have hplaces := indexIslands_eq_some hplan.islands
  have hop := hplaces.content_op hpair hstmt
  obtain ⟨scoresStmt, hscores, hops, -⟩ := hplaces.scores hpair
  unfold runContent at hrun
  rw [Direct.reads_bind] at hrun
  simp only [id, hnone, Option.isSome_none, Bool.false_eq_true, if_false, hscores] at hrun
  obtain ⟨_, s₁, hfirst, hrun⟩ := bind_eq_ok.mp hrun
  have hproducer := hplan.producer_name hscores
  have hneeded : Needed plan x scoresStmt.name := by
    refine ⟨fun y hy => ?_, fun linear silu hmem hy => ?_⟩
    · obtain rfl := Option.mem_unique hproducer hy
      exact .single (.scores hplaced hpair)
    · obtain rfl := Option.mem_unique hproducer hy
      exact hplan.not_linear hscores (by rw [hops]; decide) silu hmem
  obtain ⟨-, -, havailable, hafter⟩ := hensure.needed h hreach hneeded hfirst
  have hafter := hafter (hplan.free hproducer hscores (by rw [hops]; decide))
  have hscoresDone : s₁.done scores = true := by
    rcases havailable scores hproducer with hd | ⟨other, hother, hc⟩ | ⟨linear, hmem, -⟩
    · exact hd
    · obtain rfl := Option.mem_unique hscores hother
      rw [hops] at hc
      cases hc
    · exact absurd hmem (hplan.not_silu hscores (by rw [hops]; decide) linear)
  rw [Direct.reads_bind] at hrun
  split_ifs at hrun with hvalue
  · obtain ⟨-, rfl⟩ := pure_eq_ok hrun
    have hfree : ¬ busy scores := fun hb => by
      obtain rfl := hquick scoresStmt.name scores s s₁ hproducer (h.begun scores hb) hfirst
      rw [id_eq, hnone] at hvalue
      cases hvalue
    refine ⟨hafter, hscoresDone, fun name hname => ⟨(hready name hname).mono hafter.kept, fun y hy => ?_⟩⟩
    exact (hafter.inv.needs scores y hscoresDone hfree (.shared hplaced hpair hstmt hname hy)).2
  · obtain ⟨hgpu, hserved⟩ := runGpu_ok hplan hsolves honTime hturn hensure hcomposes hafter.inv
      (hafter.kept x hdone) hstmt (by rw [hop]; decide) (hplan.not_silu hstmt (by rw [hop]; decide))
      (hplan.not_linear hstmt (by rw [hop]; decide)) hreach hle (fun name hname => (hready name hname).mono hafter.kept)
      hrun
    exact ⟨hafter.trans hgpu, hgpu.kept scores hscoresDone, hserved⟩

include hplan hsolves honTime hturn hensure hcomposes in
/-- A linear that may compute its silu: both values are written when it does, and the silu waits when it does not. -/
theorem runApply_linear_ok (h : PassInv plan kernels t early i (fun y => busy y ∨ y = x) (fun _ => False) s)
    (hfree : ¬ busy x) (hdone : s.done x = true) {silu : ℕ} {reader : Statement ν} (hpair : (x, silu) ∈ plan.silus)
    (hp : SiluPair plan.program x silu stmt reader) (hfresh : s.done silu = false)
    (hreach : Reaches plan i x) (hle : i ≤ x)
    (hrun : runApply plan kernels (direct device) ensure x stmt s = (.ok (), s')) :
    After plan kernels t early i busy (fun other => (x, other) ∈ plan.silus) x s s' := by
  have hsilu := hplan.not_silu hp.linearAt (by rw [hp.isLinear]; decide)
  have hname := hplan.producer_name hp.linearAt
  obtain ⟨vs, s₁, harrays, hrun⟩ := bind_eq_ok.mp hrun
  obtain ⟨xs, s₂, hhosts, hrun⟩ := bind_eq_ok.mp hrun
  rw [find_linearSilus.mpr hpair] at hrun
  obtain ⟨v, s₃, happly, hrun⟩ := bind_eq_ok.mp hrun
  obtain ⟨_, s₄, hset, hrun⟩ := bind_eq_ok.mp hrun
  rw [hp.siluAt] at hrun
  obtain rfl := change_eq_ok hrun
  obtain rfl := change_eq_ok hset
  obtain ⟨hafter, hserved, hvs⟩ := arrays_ok hplan hsolves honTime hturn hensure h hp.linearAt hsilu hreach hle harrays
  obtain ⟨hafter', hserved', hxs⟩ := hosts_ok hplan hsolves hensure hafter.inv hp.linearAt hsilu hreach hhosts
  have hall := hafter.trans hafter'
  have hfed : Fed plan (fun y => busy y ∨ y = x) s₂ x := hplan.fed_alone hp.linearAt
    (.of_parts (fun name hname => ⟨(hserved name hname).1.mono hafter'.kept, (hserved name hname).2⟩) hserved')
    fun _ => hplan.not_paired hp.linearAt (by rw [hp.isLinear]; decide)
  have hxs' : xs = [] := by
    rw [hplan.arities.arrays x stmt hp.linearAt (Or.inl hp.isLinear)] at hxs
    exact (Option.some.inj hxs).symm
  subst hxs'
  obtain ⟨fused, s₅, hasked, happly⟩ := bind_eq_ok.mp happly
  obtain ⟨htakes, rfl⟩ := orRaise_eq_ok hasked
  cases fused with
  | true =>
    obtain ⟨hchain, rfl⟩ := orRaise_eq_ok happly
    obtain ⟨u, hu, hv⟩ := hcomposes.silu x silu hpair vs v hchain
    have hlinear : t.values stmt.name = some u := hsolves.values_operation hp.linearAt (by rw [hp.isLinear]; decide)
      (by rw [hp.isLinear]; decide) hvs hxs hu
    have hreader : t.values reader.name = some v := by
      refine hsolves.values_operation hp.siluAt (by rw [hp.isSilu]; decide) (by rw [hp.isSilu]; decide)
        ?_ ?_ hv
      · rw [hp.arrays]
        simp only [List.mapM_cons, Tables.array, hlinear]
        rfl
      · rw [hp.hosts]
        rfl
    have hfusedDone : s₂.siluDone silu = true := by
      by_contra hnot
      rw [Bool.not_eq_true] at hnot
      exact (hall.inv.declined x silu hpair hnot).2.1 (Or.inr rfl)
    have hover := (hall.setValue (v := v) hname (hall.kept x hdone) hsilu fun hpremise => by
      have hnot := hpremise x silu hpair hname
      rw [hfusedDone] at hnot
      cases hnot).finish hfed
    have hwritten := hover.inv.setSilu hplan hpair hp.siluAt (hall.kept x hdone) hfree fun _ => hreader
    exact ⟨hwritten.weaken fun _ hfalse => hfalse.elim, hover.kept, hover.grown⟩
  | false =>
    obtain ⟨_, s₆, hdiscard, happly⟩ := bind_eq_ok.mp happly
    obtain ⟨hv, rfl⟩ := orRaise_eq_ok happly
    obtain rfl := change_eq_ok hdiscard
    have hdeclines : Declines plan.program kernels t x := ⟨stmt, vs, hp.linearAt, hvs, htakes⟩
    have hlinear : t.values stmt.name = some v := hsolves.values_operation hp.linearAt (by rw [hp.isLinear]; decide)
      (by rw [hp.isLinear]; decide) hvs hxs hv
    have hsiluDone : s₂.done silu = false := by
      by_contra hd
      rw [Bool.not_eq_false] at hd
      rcases hall.grown silu hd with hold | ⟨-, rfl | hunlocked⟩
      · rw [hfresh] at hold
        cases hold
      · exact hsilu silu hpair
      · exact hunlocked x hpair (Or.inr rfl)
    have hover := (hall.setValue hname (hall.kept x hdone) hsilu fun _ => hlinear).finish hfed
    have hleft := hover.inv.discard hplan hpair hfree (hall.kept x hdone) hdeclines fun name w hproducer hw => by
      obtain rfl := hplan.arities.eq_name hproducer hp.linearAt (by rw [hp.isLinear]; decide)
      rw [Runner.setValue_values_self] at hw
      rw [hlinear, ← Option.some.inj hw]
    refine ⟨hleft.setSilu hplan hpair hp.siluAt (hall.kept x hdone) hfree fun hnot => ?_, hover.kept, hover.grown⟩
    exact absurd ⟨hsiluDone, Function.update_self ..⟩ hnot

/-- What a statement that is no constant runs as. -/
inductive Dispatch (plan : Plan ν) (kernels : Kernels V M) (backend : Backend Id ν V V)
    (ensure : ν → Pass Id ν V M Unit) (x : ℕ) (stmt : Statement ν) : Pass Id ν V M Unit → Prop
  | islandA {content : ℕ} {contentStmt : Statement ν} (hplaced : plan.placed.a = true)
    (hpair : (x, content) ∈ plan.islands.pairs) (hcontent : plan.program[content]? = some contentStmt) :
    Dispatch plan kernels backend ensure x stmt (runIslandA kernels backend ensure x content stmt contentStmt)
  | islandB (hselect : x ∈ plan.islands.selects) (hop : stmt.op = .select) :
    Dispatch plan kernels backend ensure x stmt (runIslandB kernels backend ensure x stmt)
  | islandC (hout : x ∈ plan.islands.outs) (hop : stmt.op = .matmul)
    (halone : ∀ y, (x, y) ∉ plan.islands.pairs ∧ (y, x) ∉ plan.islands.pairs) :
    Dispatch plan kernels backend ensure x stmt (runIslandC kernels backend ensure x stmt)
  | content {scores : ℕ} (hplaced : plan.placed.a = true) (hpair : (scores, x) ∈ plan.islands.pairs) :
    Dispatch plan kernels backend ensure x stmt (runContent plan kernels backend ensure x scores stmt)
  | gpu (halone : plan.placed.a = true → ∀ y, (x, y) ∉ plan.islands.pairs ∧ (y, x) ∉ plan.islands.pairs) :
    Dispatch plan kernels backend ensure x stmt (runGpu plan kernels backend ensure x stmt)

/-- A matmul of a placed pair runs as its island, and so do placed selects and outputs; the rest runs on the GPU. -/
theorem Plan.Formed.dispatch {declared : List ν} (hplan : plan.Formed declared) (kernels : Kernels V M)
    (backend : Backend Id ν V V) (ensure : ν → Pass Id ν V M Unit) (hstmt : plan.program[x]? = some stmt)
    (hconstant : stmt.op ≠ .const) :
    Dispatch plan kernels backend ensure x stmt (executeInner plan kernels backend ensure x stmt) := by
  have hplaces := indexIslands_eq_some hplan.islands
  unfold executeInner
  rw [if_neg hconstant]
  split
  · rename_i content hplaced hfind
    have hpair := hplaces.find_scores.mp hfind
    obtain ⟨contentStmt, hcontent, -⟩ := hplaces.content hpair
    rw [hcontent]
    exact .islandA hplaced hpair hcontent
  rename_i hscores
  split
  · rename_i hselect
    exact .islandB hselect.2 (op_of_mem_withRole (hplaces.selects ▸ hselect.2) hstmt)
  split
  · rename_i hout
    have hmem := hplaces.outs ▸ hout.2
    refine .islandC hout.2 (op_of_mem_withRole hmem hstmt) fun y => ⟨fun hpair => ?_, fun hpair => ?_⟩
    · cases role_unique hmem (hplaces.mem_scores hpair)
    · cases role_unique hmem (hplaces.mem_content hpair)
  split
  · rename_i hplaced hfind
    exact .content hplaced (hplaces.find_content.mp hfind)
  · rename_i hcontent
    exact .gpu fun hplaced y => ⟨fun hpair => hscores y hplaced (hplaces.find_scores.mpr hpair),
      fun hpair => hcontent y hplaced (hplaces.find_content.mpr hpair)⟩

/-- Constants, matmuls and selects apart, a statement runs on the GPU. -/
theorem executeInner_of_op {declared : List ν} (hplan : plan.Formed declared)
    (hstmt : plan.program[x]? = some stmt) (hconstant : stmt.op ≠ .const) (hmatmul : stmt.op ≠ .matmul)
    (hselect : stmt.op ≠ .select) :
    executeInner plan kernels (direct device) ensure x stmt = runGpu plan kernels (direct device) ensure x stmt := by
  have hdispatch := hplan.dispatch kernels (direct device) ensure hstmt hconstant
  have halone := hplan.not_paired hstmt hmatmul
  generalize executeInner plan kernels (direct device) ensure x stmt = run at hdispatch ⊢
  cases hdispatch with
  | islandA _ hpair _ => exact absurd hpair (halone _).1
  | islandB _ hop => exact absurd hop hselect
  | islandC _ hop _ => exact absurd hop hmatmul
  | content _ hpair => exact absurd hpair (halone _).2
  | gpu _ => rfl

/-- What is neither a gate nor a split nor fused runs as the operation itself. -/
theorem runGpu_eq_runApply {declared : List ν} (hplan : plan.Formed declared)
    (hstmt : plan.program[x]? = some stmt) (hsigmoid : stmt.op ≠ .sigmoid) (hmul : stmt.op ≠ .mul)
    (hsplit : stmt.op ≠ .split) (hfused : ¬ (stmt.op = .silu ∧ s.siluDone x = true)) :
    runGpu plan kernels (direct device) ensure x stmt s = runApply plan kernels (direct device) ensure x stmt s := by
  have hgate : (plan.gates.find? fun gate => decide (gate.mul = x)) = none := by
    cases hfind : plan.gates.find? fun gate => decide (gate.mul = x) with
    | none => rfl
    | some gate =>
      have hplace := List.find?_some hfind
      obtain ⟨sigmoid, product, hg⟩ := hplan.arities.gatePlaces (hplan.gates gate (List.mem_of_find?_eq_some hfind))
      have hproduct := hg.productAt
      rw [of_decide_eq_true hplace] at hproduct
      obtain rfl := Option.mem_unique hstmt hproduct
      exact absurd hg.isProduct hmul
  unfold runGpu
  rw [Direct.reads_bind, id_eq, if_neg (fun hs => hsigmoid hs.1), if_neg hfused, hgate]
  dsimp only
  rw [if_neg hsplit]

include hplan hsolves in
/-- The result of a linear that left its silu alone is read at once. -/
theorem tensor_linear_ok (h : PassInv plan kernels t early i busy waiting s) (hquick : Quick plan.program ensure)
    {linear : ℕ} {user : Statement ν} (hpair : (linear, x) ∈ plan.silus)
    (hp : SiluPair plan.program linear x user stmt) (hlinear : s.done linear = true) (hnot : s.siluDone x = false)
    (hrun : tensor kernels (direct device) ensure user.name (s.begin x) = (.ok v, s')) :
    t.values user.name = some v ∧ s.begin x = s' := by
  have hproducer := hplan.producer_name hp.linearAt
  obtain ⟨_, s₁, hfirst, hrun⟩ := bind_eq_ok.mp hrun
  obtain rfl := hquick user.name linear _ _ hproducer (Runner.begin_done.mpr (Or.inr hlinear)) hfirst
  rw [Direct.reads_bind] at hrun
  cases hvalue : (s.begin x).values user.name with
  | some w =>
    simp only [id, hvalue] at hrun
    obtain ⟨rfl, rfl⟩ := pure_eq_ok hrun
    refine ⟨h.values user.name w hvalue (fun other silu hmem hother => ?_) fun other silu hmem hother => ?_, rfl⟩
    · obtain rfl := Option.mem_unique hproducer hother
      rw [linearSilus_unique_silu hmem hpair]
      exact hnot
    · obtain rfl := Option.mem_unique hproducer hother
      exact absurd hmem (hplan.not_silu hp.linearAt (by rw [hp.isLinear]; decide) other)
  | none =>
    simp only [id, hvalue] at hrun
    obtain ⟨hhost, -⟩ := orRaise_eq_ok hrun
    obtain ⟨y, hy, -⟩ := Option.bind_eq_some_iff.mp hhost
    obtain ⟨k, other, hk, hother, hop, -⟩ := hsolves.constant_of_host (h.hosts user.name y hy)
    obtain rfl := Option.mem_unique hproducer hk
    obtain rfl := Option.mem_unique hp.linearAt hother
    rw [hp.isLinear] at hop
    cases hop

include hplan hsolves in
/-- A fused silu: its linear computed it, or it is computed now. -/
theorem executeInner_silu_ok (h : PassInv plan kernels t early i busy (fun y => y = x) s)
    (hquick : Quick plan.program ensure) {linear : ℕ} {user : Statement ν} (hpair : (linear, x) ∈ plan.silus)
    (hp : SiluPair plan.program linear x user stmt) (hlinear : s.done linear = true)
    (hrun : executeInner plan kernels (direct device) ensure x stmt (s.begin x) = (.ok (), s')) :
    After plan kernels t early i busy (fun _ => False) x s s' ∧ s'.done x = true := by
  have hkept (y : ℕ) (hy : s.done y = true) : (s.begin x).done y = true := Runner.begin_done.mpr (Or.inr hy)
  have hgrown (y : ℕ) (hy : (s.begin x).done y = true) :
      s.done y = true ∨ Reaches plan x y ∧ (y = x ∨ Unlocked plan busy y) := by
    rcases Runner.begin_done.mp hy with rfl | hy
    · exact Or.inr ⟨.refl, Or.inl rfl⟩
    · exact Or.inl hy
  have hbegun : (s.begin x).done x = true := Runner.begin_done.mpr (Or.inl rfl)
  rw [executeInner_of_op hplan hp.siluAt (by rw [hp.isSilu]; decide) (by rw [hp.isSilu]; decide)
    (by rw [hp.isSilu]; decide)] at hrun
  by_cases hfused : stmt.op = .silu ∧ (s.begin x).siluDone x = true
  · unfold runGpu at hrun
    rw [Direct.reads_bind, id_eq, if_neg (by rw [hp.isSilu]; simp), if_pos hfused] at hrun
    obtain ⟨-, rfl⟩ := pure_eq_ok hrun
    refine ⟨⟨h.beginSilu hsolves hplan hpair hlinear fun hstale => ?_, hkept, hgrown⟩, hbegun⟩
    have hnot := hstale.2
    rw [show s.siluDone x = true from hfused.2] at hnot
    cases hnot
  · rw [runGpu_eq_runApply hplan hp.siluAt (by rw [hp.isSilu]; decide) (by rw [hp.isSilu]; decide)
      (by rw [hp.isSilu]; decide) hfused] at hrun
    have hnot : s.siluDone x = false := by
      rw [← Bool.not_eq_true]
      exact fun hsilu => hfused ⟨hp.isSilu, hsilu⟩
    have hnone : find (linearSilus plan.program plan.chain) x = none := by
      cases hfind : find (linearSilus plan.program plan.chain) x with
      | none => rfl
      | some silu =>
        exact absurd (find_linearSilus.mp hfind) (hplan.not_linear hp.siluAt (by rw [hp.isSilu]; decide) silu)
    unfold runApply at hrun
    rw [hp.arrays, hp.hosts, hnone] at hrun
    obtain ⟨vs, s₁, harrays, hrun⟩ := bind_eq_ok.mp hrun
    obtain ⟨xs, s₂, hhosts, hrun⟩ := bind_eq_ok.mp hrun
    obtain ⟨v, s₃, hop, hrun⟩ := bind_eq_ok.mp hrun
    obtain rfl := change_eq_ok hrun
    obtain ⟨hv, rfl⟩ := orRaise_eq_ok hop
    obtain ⟨rfl, rfl⟩ := pure_eq_ok hhosts
    obtain ⟨w, hread, rfl⟩ := collect_singleton_eq_ok harrays
    obtain ⟨hw, rfl⟩ := tensor_linear_ok hplan hsolves h hquick hpair hp hlinear hnot hread
    have hvalue : t.values stmt.name = some v := by
      refine hsolves.values_operation hp.siluAt (by rw [hp.isSilu]; decide) (by rw [hp.isSilu]; decide) ?_ ?_ hv
      · rw [hp.arrays]
        simp only [List.mapM_cons, Tables.array, hw]
        rfl
      · rw [hp.hosts]
        rfl
    have hfree := (h.declined linear x hpair hnot).2.1
    have hset := h.setSilu hplan hpair hp.siluAt hlinear hfree fun _ => hvalue
    have hwritten := hset.beginSilu hsolves hplan hpair hlinear fun _ name w hname hw => by
      obtain rfl := hplan.arities.eq_name hname hp.siluAt (by rw [hp.isSilu]; decide)
      rw [Runner.setValue_values_self] at hw
      rw [hvalue, ← Option.some.inj hw]
    exact ⟨⟨hwritten, hkept, hgrown⟩, hbegun⟩

end Statements

end AneLinux.Encoder
