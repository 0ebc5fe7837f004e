import AneLinux.Encoder.PassRun

/-!
# The first pass of a runner

Building a runner evaluates the constants that say whether a gate can be fused. The first pass starts from the tables
that this leaves, and ends with the values that executing all statements in order gives, when no silu and no constant
is needed before its turn.
-/

namespace AneLinux.Encoder

open AneLinux.Support Attempt Direct

variable {ν V M : Type} [DecidableEq ν]

variable {kernels : Kernels V M} {t : Tables ν V M} {s s' : Runner ν V M} {inputs : List (ν × V)}
  {device : Job V → Except String (ℕ → V)} {plan : Plan ν} {name : ν}

section Construction

variable {program : Program ν} {cache chain : Bool}

/-- What holds while a runner is built: only constants have been evaluated, and to their final values. -/
structure BuildInv (program : Program ν) (t : Tables ν V M) (cache chain : Bool) (s : Runner ν V M) : Prop where
  hosts : ∀ name x, s.hosts name = some x → t.hosts name = some x
  values : ∀ name v, s.values name = some v → t.values name = some v
  constants : ∀ y, s.done y = true → ∃ stmt, program[y]? = some stmt ∧ stmt.op = .const
  evaluated : ∀ name y, producer program name = some y → s.has name = true → s.done y = true
  cached : ∀ name v, find s.constValues name = some v →
    t.values name = some v ∧ ∃ y, producer program name = some y ∧ s.done y = true
  complete : cache = true → ∀ y stmt v, program[y]? = some stmt → s.done y = true → t.values stmt.name = some v →
    find s.constValues stmt.name = some v
  silus : ∀ silu, s.siluDone silu = true ↔ ∃ linear, (linear, silu) ∈ linearSilus program chain

theorem buildInv_blank : BuildInv program t cache chain (Runner.blank program chain) := by
  refine ⟨fun _ _ h => ?_, fun _ _ h => ?_, fun _ h => ?_, fun _ _ _ h => ?_, fun _ _ h => ?_, fun _ _ _ _ _ h => ?_,
    fun silu => ?_⟩
  · cases h
  · cases h
  · cases h
  · cases h
  · cases h
  · cases h
  · rw [Runner.blank, decide_eq_true_iff, List.mem_map]
    constructor
    · intro hmem
      obtain ⟨pair, hpair, rfl⟩ := hmem
      exact ⟨pair.1, hpair⟩
    · intro hmem
      obtain ⟨linear, hpair⟩ := hmem
      exact ⟨(linear, silu), hpair, rfl⟩

/-- The cache after a constant is stored. -/
theorem Runner.find_store (s : Runner ν V M) (cache : Bool) (name other : ν) :
    find (s.store cache name).constValues other =
      if cache = true ∧ name = other then (s.values name).or (find s.constValues other)
      else find s.constValues other := by
  unfold Runner.store
  cases cache with
  | false => rfl
  | true =>
    cases hvalue : s.values name with
    | none => simp
    | some v =>
      simp only [find_assign, true_and, Option.some_or]

variable (hsingle : SingleAssignment program (inputs.map Prod.fst)) (harities : Arities program)
  (hsolves : Solves kernels program inputs t)

include hsingle hsolves in
/-- A constant is evaluated and stored. -/
theorem BuildInv.constant (h : BuildInv program t cache chain s) {x : ℕ} {stmt : Statement ν}
    (hstmt : program[x]? = some stmt) (hop : stmt.op = .const) (hdone : s.done x = false)
    (hevaluated : Evaluated (kernels.literal x) stmt.name (s.begin x) s') :
    BuildInv program t cache chain (s'.store cache stmt.name) := by
  have hproducer := hsingle.producer_eq hstmt List.mem_cons_self
  have hnot : s.has stmt.name = false := by
    rw [← Bool.not_eq_true]
    intro hhas
    rw [h.evaluated stmt.name x hproducer hhas] at hdone
    cases hdone
  rw [Runner.has, Bool.or_eq_false_iff, Option.isSome_eq_false_iff, Option.isSome_eq_false_iff,
    Option.isNone_iff_eq_none, Option.isNone_iff_eq_none] at hnot
  have hvalue : s'.values stmt.name = t.values stmt.name := by
    rw [hevaluated.value, hsolves.values_constant hstmt hop]
    change Option.or _ (s.values stmt.name) = _
    rw [hnot.1, Option.or_none]
  have hhost : s'.hosts stmt.name = t.hosts stmt.name := by
    rw [hevaluated.host, hsolves.hosts x stmt hstmt stmt.name List.mem_cons_self, if_pos ⟨hop, rfl⟩]
    change Option.or _ (s.hosts stmt.name) = _
    rw [hnot.2, Option.or_none]
  have hdone' {y : ℕ} : s'.done y = true ↔ y = x ∨ s.done y = true := by rw [hevaluated.done, Runner.begin_done]
  have hother {name : ν} (hne : name ≠ stmt.name) : s'.values name = s.values name ∧ s'.hosts name = s.hosts name :=
    hevaluated.other name hne
  obtain ⟨constants, hstore⟩ := s'.store_eq cache stmt.name
  have hfind := s'.find_store cache stmt.name
  rw [hevaluated.constValues] at hfind
  rw [hstore] at hfind ⊢
  refine ⟨fun name y hy => ?_, fun name v hv => ?_, fun y hy => ?_, fun name y hy hhas => ?_, fun name v hv => ?_,
    fun hcache y other v hy hyx hv => ?_, fun silu => ?_⟩
  · change s'.hosts name = some y at hy
    by_cases hname : name = stmt.name
    · rw [hname] at hy ⊢
      rw [← hhost, hy]
    · rw [(hother hname).2] at hy
      exact h.hosts name y hy
  · change s'.values name = some v at hv
    by_cases hname : name = stmt.name
    · rw [hname] at hv ⊢
      rw [← hvalue, hv]
    · rw [(hother hname).1] at hv
      exact h.values name v hv
  · rcases hdone'.mp hy with rfl | hy
    · exact ⟨stmt, hstmt, hop⟩
    · exact h.constants y hy
  · apply hdone'.mpr
    by_cases hname : name = stmt.name
    · rw [hname, hproducer] at hy
      exact Or.inl (Option.some.inj hy).symm
    · right
      apply h.evaluated name y hy
      rw [Runner.has, ← (hother hname).1, ← (hother hname).2]
      exact hhas
  · change find constants name = some v at hv
    have hold (hv : find s.constValues name = some v) :
        t.values name = some v ∧ ∃ y, producer program name = some y ∧ s'.done y = true := by
      obtain ⟨hfinal, y, hy, hdone⟩ := h.cached name v hv
      exact ⟨hfinal, y, hy, hdone'.mpr (Or.inr hdone)⟩
    rw [hfind] at hv
    by_cases hname : cache = true ∧ stmt.name = name
    · rw [if_pos hname] at hv
      cases harray : s'.values stmt.name with
      | some w =>
        rw [harray, Option.some_or] at hv
        rw [← hname.2, ← hvalue, harray, hv]
        exact ⟨rfl, x, hproducer, hdone'.mpr (Or.inl rfl)⟩
      | none =>
        rw [harray, Option.none_or] at hv
        exact hold hv
    · rw [if_neg hname] at hv
      exact hold hv
  · change find constants other.name = some v
    rw [hfind]
    by_cases hname : stmt.name = other.name
    · rw [if_pos ⟨hcache, hname⟩, hvalue, hname, hv, Option.some_or]
    · rw [if_neg fun hboth => hname hboth.2]
      refine h.complete hcache y other v hy ((hdone'.mp hyx).resolve_left ?_) hv
      rintro rfl
      exact hname (congrArg Statement.name (Option.mem_unique hstmt hy))
  · change s'.siluDone silu = true ↔ _
    rw [hevaluated.siluDone]
    exact h.silus silu

include hsingle hsolves in
theorem ensureConstant_ok (hprogram : plan.program = program) (h : BuildInv program t plan.cache chain s)
    (hrun : ensureConstant kernels (direct device) plan name s = (.ok (), s')) :
    BuildInv program t plan.cache chain s' := by
  subst hprogram
  unfold ensureConstant at hrun
  rw [Direct.reads_bind, id_eq] at hrun
  by_cases hhas : s.has name = true
  · rw [if_pos hhas] at hrun
    rwa [← (pure_eq_ok hrun).2]
  rw [if_neg hhas] at hrun
  cases hproducer : producer plan.program name with
  | none =>
    rw [hproducer] at hrun
    cases hrun
  | some x =>
    rw [hproducer] at hrun
    dsimp only at hrun
    by_cases hdone : s.done x = true
    · rw [if_pos hdone] at hrun
      rwa [← (pure_eq_ok hrun).2]
    rw [if_neg hdone] at hrun
    obtain ⟨stmt, hstmt, -⟩ := producer_spec hproducer
    rw [hstmt] at hrun
    dsimp only at hrun
    by_cases hop : stmt.op = .const
    · rw [if_pos hop] at hrun
      obtain ⟨_, s₁, hbegin, hrun⟩ := bind_eq_ok.mp hrun
      obtain rfl := change_eq_ok hbegin
      obtain ⟨s₂, hevaluated, rfl⟩ := evalConst_ok hrun
      exact h.constant hsingle hsolves hstmt hop (Bool.not_eq_true _ ▸ hdone) hevaluated
    · rw [if_neg hop] at hrun
      cases hrun

include hsingle hsolves in
theorem scalar_constant_ok (hprogram : plan.program = program) (h : BuildInv program t plan.cache chain s) {x : M}
    (hrun : scalar (ensureConstant kernels (direct device) plan) name s = (.ok x, s')) :
    BuildInv program t plan.cache chain s' := by
  obtain ⟨_, s₁, hfirst, hrun⟩ := bind_eq_ok.mp hrun
  rw [Direct.reads_bind] at hrun
  rw [← (orRaise_eq_ok hrun).2]
  exact ensureConstant_ok hsingle hsolves hprogram h hfirst

include hsingle hsolves in
/-- Looking for the gates evaluates constants, and keeps some of the candidates. -/
theorem fusedGates_ok (hprogram : plan.program = program) {gates fused : List (Gate ν)}
    (h : BuildInv program t plan.cache chain s)
    (hrun : fusedGates kernels (direct device) plan gates s = (.ok fused, s')) :
    BuildInv program t plan.cache chain s' ∧ ∀ gate ∈ fused, gate ∈ gates := by
  induction gates generalizing s fused with
  | nil =>
    obtain ⟨rfl, rfl⟩ := pure_eq_ok hrun
    exact ⟨h, fun _ hgate => hgate⟩
  | cons gate rest ih =>
    obtain ⟨axis, s₁, haxis, hrun⟩ := bind_eq_ok.mp hrun
    have h₁ := scalar_constant_ok hsingle hsolves hprogram h haxis
    by_cases hchannels : kernels.int axis % 3 = 1
    · rw [if_pos hchannels] at hrun
      obtain ⟨count, s₂, hcount, hrun⟩ := bind_eq_ok.mp hrun
      obtain ⟨found, s₃, hfound, hrun⟩ := bind_eq_ok.mp hrun
      obtain ⟨rfl, rfl⟩ := pure_eq_ok hrun
      obtain ⟨hinv, hmem⟩ := ih (scalar_constant_ok hsingle hsolves hprogram h₁ hcount) hfound
      refine ⟨hinv, fun other hother => ?_⟩
      split_ifs at hother
      · rcases List.mem_cons.mp hother with rfl | hother
        · exact List.mem_cons_self
        · exact List.mem_cons_of_mem gate (hmem other hother)
      · exact List.mem_cons_of_mem gate (hmem other hother)
    · rw [if_neg hchannels] at hrun
      obtain ⟨hinv, hmem⟩ := ih h₁ hrun
      exact ⟨hinv, fun other hother => List.mem_cons_of_mem gate (hmem other hother)⟩

include hsingle harities hsolves in
/-- A runner that is built has its plan, and has evaluated constants alone. -/
theorem build_ok {options : Options} {built : Runner ν V M}
    (hrun : build kernels (direct device) program options (Runner.blank program options.chain) = (.ok plan, built)) :
    plan.Formed (inputs.map Prod.fst) ∧ plan.program = program ∧ plan.chain = options.chain ∧
      BuildInv program t plan.cache plan.chain built := by
  obtain ⟨islands, s₁, hindex, hrun⟩ := bind_eq_ok.mp hrun
  obtain ⟨hislands, rfl⟩ := orRaise_eq_ok hindex
  obtain ⟨fused, s₂, hfused, hrun⟩ := bind_eq_ok.mp hrun
  obtain ⟨rfl, rfl⟩ := pure_eq_ok hrun
  obtain ⟨hinv, hmem⟩ := fusedGates_ok hsingle hsolves rfl buildInv_blank hfused
  exact ⟨⟨hsingle, harities, hislands, hmem⟩, rfl, rfl, hinv⟩

end Construction

section FirstRun

/-- A name that is not written keeps its value, whatever the table holds elsewhere. -/
theorem writeAll_congr {values values' : ν → Option V} (h : values name = values' name) (pairs : List (ν × V)) :
    writeAll values pairs name = writeAll values' pairs name := by
  induction pairs generalizing values values' with
  | nil => exact h
  | cons pair rest ih =>
    apply ih
    dsimp only
    by_cases hname : name = pair.1
    · rw [hname, Function.update_self, Function.update_self]
    · rw [Function.update_of_ne hname, Function.update_of_ne hname, h]

omit [DecidableEq ν] in
theorem entries_direct (inputs : List (ν × V)) : entries (direct device : Backend Id ν V V) inputs = inputs :=
  List.map_id inputs

/-- The tables at the start of the first pass. -/
theorem BuildInv.start (h : BuildInv plan.program t plan.cache plan.chain s) (hplan : plan.Formed (inputs.map Prod.fst))
    (hsolves : Solves kernels plan.program inputs t) :
    PassInv plan kernels t s.hosts 0 (fun _ => False) (fun _ => False) ((s.reset plan).setValues inputs) := by
  have hconstant {y : ℕ} (hy : (s.reset plan).done y = true) :
      s.done y = true ∧ ∃ stmt, plan.program[y]? = some stmt ∧ stmt.op = .const := by
    have hdone : s.done y = true := by
      change (if s.warm plan = true then _ else _) = true at hy
      split_ifs at hy
      · exact ((Bool.and_eq_true _ _).mp hy).1
      · exact ((Bool.and_eq_true _ _).mp hy).2
    exact ⟨hdone, h.constants y hdone⟩
  have hfresh {name : ν} {y : ℕ} (hy : producer plan.program name = some y) :
      ((s.reset plan).setValues inputs).values name = (s.reset plan).values name := by
    obtain ⟨stmt, hstmt, hname⟩ := producer_spec hy
    exact writeAll_of_notMem fun hinput =>
      hplan.single.fresh name hinput (List.mem_flatMap.mpr ⟨stmt, List.mem_of_getElem? hstmt, hname⟩)
  have hcached {name : ν} {v : V} (hv : (s.reset plan).values name = some v) :
      s.warm plan = true ∧ find s.constValues name = some v := by
    change (if s.warm plan = true then _ else _) = some v at hv
    split_ifs at hv with hwarm
    exact ⟨hwarm, hv⟩
  have hsilus {linear silu : ℕ} (hpair : (linear, silu) ∈ plan.silus) (hnot : s.siluDone silu = false) : False := by
    rw [(h.silus silu).mpr ⟨linear, hpair⟩] at hnot
    cases hnot
  refine ⟨h.hosts, fun name v hv _ _ => ?_, fun name y hy hnot => ?_, fun name k v x hk hv hx hnone => Or.inr ?_,
    fun y hy => absurd hy (Nat.not_lt_zero y), fun y hy => hy.elim,
    fun _ _ content _ hlt => absurd hlt (Nat.not_lt_zero content), fun x y hx _ hneed => ?_,
    fun _ _ _ hlocked => absurd (fun _ _ hfalse => hfalse) hlocked, fun linear silu hpair hsilu => ?_,
    fun silu hsilu => (h.silus silu).mp hsilu, fun linear silu hpair hsilu => (hsilus hpair hsilu).elim,
    fun linear silu hpair hstale _ => (hsilus hpair hstale.2).elim⟩
  · cases hproducer : producer plan.program name with
    | none =>
      have hempty : (s.reset plan).values name = none := by
        by_contra hne
        obtain ⟨w, hw⟩ := Option.ne_none_iff_exists'.mp hne
        obtain ⟨-, y, hy, -⟩ := h.cached name w (hcached hw).2
        rw [hproducer] at hy
        cases hy
      rw [(hsolves.inputs name hproducer).1, ← hv]
      exact (writeAll_congr hempty inputs).symm
    | some y =>
      rw [hfresh hproducer] at hv
      exact (h.cached name v (hcached hv).2).1
  · left
    rw [hfresh hy]
    by_contra hne
    obtain ⟨w, hw⟩ := Option.ne_none_iff_exists'.mp hne
    obtain ⟨hwarm, hfind⟩ := hcached hw
    obtain ⟨-, y', hy', hdone⟩ := h.cached name w hfind
    obtain rfl := Option.mem_unique hy hy'
    obtain ⟨stmt, hstmt, hop⟩ := h.constants y hdone
    change (if s.warm plan = true then _ else _) = false at hnot
    rw [if_pos hwarm, hdone, hstmt, Option.map_some, hop] at hnot
    cases hnot
  · have hdone : s.done k = true := h.evaluated name k hk (by
      change s.hosts name = some x at hx
      rw [Runner.has, hx, Option.isSome_some, Bool.or_true])
    obtain ⟨stmt, hstmt, hop⟩ := h.constants k hdone
    obtain rfl := hplan.arities.eq_name hk hstmt (by rw [hop]; decide)
    cases hcache : plan.cache with
    | true =>
      have hfind := h.complete hcache k stmt v hstmt hdone hv
      have hwarm : s.warm plan = true := by
        rw [Runner.warm, hcache, Bool.true_and, Bool.not_eq_true', List.isEmpty_eq_false_iff]
        intro hempty
        rw [hempty] at hfind
        cases hfind
      rw [hfresh hk] at hnone
      change (if s.warm plan = true then _ else _) = none at hnone
      rw [if_pos hwarm, hfind] at hnone
      cases hnone
    | false =>
      refine ⟨?_, rfl, hx⟩
      change (if s.warm plan = true then _ else _) = false
      rw [Runner.warm, hcache, Bool.false_and, Bool.false_and]
      rfl
  · obtain ⟨-, stmt, hstmt, hop⟩ := hconstant hx
    exact absurd hneed (hplan.constant_needs_nothing hstmt hop)
  · obtain ⟨-, stmt, hstmt, hop⟩ := hconstant hsilu
    exact absurd hpair (hplan.not_silu hstmt (by rw [hop]; decide) linear)

omit [DecidableEq ν] in
/-- Settled entries are kept as they are. -/
theorem collect_settle {keep kept : List (ν × V)}
    (hrun : collect (settle (M := M) (direct device)) keep s = (.ok kept, s')) : keep = kept := by
  induction keep generalizing s kept with
  | nil => exact (pure_eq_ok hrun).1
  | cons entry rest ih =>
    obtain ⟨first, s₁, hfirst, hrun⟩ := bind_eq_ok.mp hrun
    obtain ⟨others, s₂, hrest, hrun⟩ := bind_eq_ok.mp hrun
    obtain ⟨rfl, rfl⟩ := pure_eq_ok hrun
    rw [ih hrest, ← (pure_eq_ok hfirst).1]

theorem mem_keys_of_missing {wanted : List ν} {keep : List (ν × V)} (h : missing wanted keep = [])
    (hname : name ∈ wanted) : name ∈ keep.map Prod.fst := by
  by_contra hnot
  have hmem : name ∈ missing wanted keep := List.mem_filter.mpr ⟨hname, decide_eq_true hnot⟩
  rw [h] at hmem
  cases hmem

end FirstRun

section Unplaced

variable {inputs : List ν} {early : ν → Option M}

/-- With no island of the first kind, a statement needs what comes before it. -/
theorem Plan.Formed.le_of_reaches (h : plan.Formed inputs) (hplaced : plan.placed.a = false) {x y : ℕ}
    (hreach : Reaches plan x y) : y ≤ x := by
  induction hreach with
  | refl => exact Nat.le_refl x
  | tail _ hneed ih =>
    cases hneed with
    | operand hstmt hname hproducer => exact (h.single.producer_lt hstmt hname hproducer).le.trans ih
    | content hother => exact absurd (hplaced.symm.trans hother) Bool.false_ne_true
    | scores hother => exact absurd (hplaced.symm.trans hother) Bool.false_ne_true
    | shared hother => exact absurd (hplaced.symm.trans hother) Bool.false_ne_true

/-- Then no reader is pulled forward. -/
theorem Plan.Formed.onTime (h : plan.Formed inputs) (hplaced : plan.placed.a = false) (stopAfter : ν) :
    OnTime plan kernels t early stopAfter := by
  refine ⟨fun linear silu _ _ => Or.inr fun i _ hlt _ hreach => ?_, fun _ k stmt _ _ hstmt _ _ _ i reader user hlt _
    hreach huser hmem => ?_⟩
  · have := h.le_of_reaches hplaced hreach
    omega
  · have hbefore := h.single.producer_lt huser (List.mem_append_left _ hmem) (h.producer_name hstmt)
    have := h.le_of_reaches hplaced hreach
    omega

end Unplaced

section OneLayer

/-- The device and the fused kernels of the one-layer program compose what they replace. -/
theorem layer_composes (takes : Bool) :
    Composes layerProgram true ⟨[(3, 7)], [8], [9]⟩ (layerKernels takes) layerDevice := by
  have hpairs : linearSilus layerProgram true = [(2, 4)] := by decide
  have hgates : candidates layerProgram = [] := by decide
  refine ⟨fun linear silu hpair vs v hv => ?_, fun gate hgate => ?_,
    fun scores content hpair q_v pos_kT q_scaled k_heads results hdevice tx ty _ _ => ?_,
    fun scores content hpair q_v pos_kT q_scaled k_heads results hdevice tx ty _ _ => ?_,
    fun i hi fill cond matrix_bd results _ hdevice => ?_, fun i hi probs v_heads results hdevice tx ty _ _ => ?_⟩
  · rw [hpairs] at hpair
    obtain ⟨rfl, rfl⟩ := Prod.mk.inj (List.mem_singleton.mp hpair)
    rcases vs with _ | ⟨x, _ | ⟨weight, _ | ⟨bias, _ | ⟨other, rest⟩⟩⟩⟩ <;> cases hv
    exact ⟨x * weight + bias, rfl, rfl⟩
  · rw [hgates] at hgate
    cases hgate
  · obtain ⟨rfl, rfl⟩ := Prod.mk.inj (List.mem_singleton.mp hpair)
    cases hdevice
    rfl
  · obtain ⟨rfl, rfl⟩ := Prod.mk.inj (List.mem_singleton.mp hpair)
    cases hdevice
    rfl
  · obtain rfl := List.mem_singleton.mp hi
    cases hdevice
    rfl
  · obtain rfl := List.mem_singleton.mp hi
    cases hdevice
    rfl

end OneLayer

section InOrder

/-- The first pass of a runner returns what executing all statements in order gives, with no fusion, nothing pulled
forward and nothing released, when no island pulls a reader forward to a value that is not there yet. -/
theorem run_eq_inOrder {program : Program ν} {options : Options} {built final : Runner ν V M} {wanted : List ν}
    {stopAfter : ν} {kept : List (ν × V)} (hsingle : SingleAssignment program (inputs.map Prod.fst))
    (harities : Arities program)
    (hunread : ∀ name ∈ wanted, ∀ (k : ℕ) (reader : Statement ν), program[k]? = some reader →
      name ∉ reader.arrays ++ reader.hosts)
    (hbuild : build kernels (direct device) program options (Runner.blank program options.chain) = (.ok plan, built))
    (hcomposes : Composes program options.chain plan.islands kernels device)
    (honTime : OnTime plan kernels (inOrder kernels program inputs) built.hosts stopAfter)
    (hrun : run plan kernels (direct device) inputs wanted stopAfter built = (.ok kept, final)) :
    ∀ name ∈ wanted, ∃ v, find kept name = some v ∧ (inOrder kernels program inputs).values name = some v := by
  have hsolves : Solves kernels program inputs (inOrder kernels program inputs) := inOrder_solves hsingle
  obtain ⟨hplan, rfl, hchain, hinv⟩ := build_ok hsingle harities hsolves hbuild
  rw [← hchain] at hcomposes
  obtain ⟨_, s₁, hstart, hrun⟩ := bind_eq_ok.mp hrun
  obtain rfl := change_eq_ok hstart
  obtain ⟨keep, s₂, hloop, hrun⟩ := bind_eq_ok.mp hrun
  split_ifs at hrun with hmissing
  swap
  · cases hrun
  obtain rfl := collect_settle hrun
  have hfirst := hinv.start hplan hsolves
  rw [entries_direct] at hloop
  have hfinal := statementsFrom_ok hplan hsolves honTime hcomposes hunread rfl hfirst
    (fun pair hpair => absurd hpair List.not_mem_nil) List.not_mem_nil hloop
  intro name hname
  have hkey := mem_keys_of_missing hmissing hname
  cases hfind : find keep name with
  | none => exact absurd hkey (find_eq_none_iff.mp hfind)
  | some v => exact ⟨v, rfl, hfinal _ (mem_of_find hfind)⟩

/-- With the first island off the device, the linear that the fused kernel declines does no harm. -/
theorem run_eq_inOrder_oneLayer :
    ∃ v, find [(25, (306867585024 : ℤ))] 25 = some v ∧
      (inOrder (layerKernels false) layerProgram layerInputs).values 25 = some v := by
  have hsingle : SingleAssignment layerProgram (layerInputs.map Prod.fst) := by decide
  have harities : Arities layerProgram := by decide
  have hunread : ∀ stmt ∈ layerProgram, ∀ name ∈ [25], name ∉ stmt.arrays ++ stmt.hosts := by decide
  have hplan : Plan.Formed ⟨layerProgram, ⟨false, true, true⟩, true, false, 8, ⟨[(3, 7)], [8], [9]⟩, []⟩
      (layerInputs.map Prod.fst) := ⟨hsingle, harities, by decide, fun _ hgate => absurd hgate List.not_mem_nil⟩
  have hbuild : build (layerKernels false) (direct layerDevice) layerProgram ⟨⟨false, true, true⟩, true, false, 8⟩
      (Runner.blank layerProgram true) =
        (.ok ⟨layerProgram, ⟨false, true, true⟩, true, false, 8, ⟨[(3, 7)], [8], [9]⟩, []⟩,
          Runner.blank layerProgram true) := rfl
  have hrun : (run ⟨layerProgram, ⟨false, true, true⟩, true, false, 8, ⟨[(3, 7)], [8], [9]⟩, []⟩ (layerKernels false)
      (direct layerDevice) layerInputs [25] 25 (Runner.blank layerProgram true)).1 = .ok [(25, 306867585024)] := by
    decide +kernel
  exact run_eq_inOrder hsingle harities
    (fun name hname k reader hreader => hunread reader (List.mem_of_getElem? hreader) name hname) hbuild
    (layer_composes false) (hplan.onTime rfl 25) (Prod.ext hrun rfl) 25 (List.mem_singleton_self 25)

/-- With the island, the content matmul reads the silu before its turn, and gets the value of the linear. -/
theorem run_reads_linear : SingleAssignment layerProgram (layerInputs.map Prod.fst) ∧ Arities layerProgram ∧
    (∀ stmt ∈ layerProgram, 25 ∉ stmt.arrays ++ stmt.hosts) ∧
    Composes layerProgram layerOptions.chain ⟨[(3, 7)], [8], [9]⟩ (layerKernels false) layerDevice ∧
    (build (layerKernels false) (direct layerDevice) layerProgram layerOptions
      (Runner.blank layerProgram layerOptions.chain)) =
        (.ok ⟨layerProgram, layerOptions.placed, true, false, 8, ⟨[(3, 7)], [8], [9]⟩, []⟩,
          Runner.blank layerProgram layerOptions.chain) ∧
    (run ⟨layerProgram, layerOptions.placed, true, false, 8, ⟨[(3, 7)], [8], [9]⟩, []⟩ (layerKernels false)
      (direct layerDevice) layerInputs [25] 25 (Runner.blank layerProgram layerOptions.chain)).1 =
        .ok [(25, 43838226432)] ∧
    (inOrder (layerKernels false) layerProgram layerInputs).values 25 = some 306867585024 :=
  ⟨by decide, by decide, by decide, layer_composes false, rfl, by decide +kernel, by decide +kernel⟩

end InOrder

end AneLinux.Encoder
