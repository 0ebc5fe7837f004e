import AneLinux.Encoder.Lasting

/-!
# What a runner holds between two calls

A call resets the value table and some of the flags, and leaves the rest: host data, cached constants, the flags of
the constants that it keeps, and the silus that were left alone. What it leaves says what the constants of the program
are, and only grows.
-/

namespace AneLinux.Encoder

open AneLinux.Support Attempt Direct

variable {ν V M : Type} [DecidableEq ν]

variable {plan : Plan ν} {kernels : Kernels V M} {device : Job V → Except String (ℕ → V)} {declared : List ν}
  {s s' : Runner ν V M} {x k : ℕ} {stmt : Statement ν} {name : ν}

section Holding

/-- What a runner holds of the constants between two calls. With the cache on, a constant whose flag is set has its
host data and its array in the tables that stay, unless it could not be evaluated. -/
structure Held (plan : Plan ν) (kernels : Kernels V M) (s : Runner ν V M) : Prop where
  hosts : ∀ name y, s.hosts name = some y → ∃ k stmt, plan.program[k]? = some stmt ∧ stmt.op = .const ∧
    stmt.name = name ∧ (kernels.literal k).toHost = some y
  values : ∀ k stmt v, plan.program[k]? = some stmt → stmt.op = .const → s.values stmt.name = some v →
    (kernels.literal k).toArray = some v
  cached : ∀ name v, find s.constValues name = some v → ∃ k stmt, plan.program[k]? = some stmt ∧ stmt.op = .const ∧
    stmt.name = name ∧ (kernels.literal k).toArray = some v
  known : plan.cache = true → ∀ k stmt, plan.program[k]? = some stmt → stmt.op = .const → s.done k = true →
    (kernels.literal k).whole = true →
    s.hosts stmt.name = (kernels.literal k).toHost ∧ find s.constValues stmt.name = (kernels.literal k).toArray
  unread : plan.cache = true → ∀ k stmt, plan.program[k]? = some stmt → stmt.op = .const → s.done k = false →
    s.hosts stmt.name = none ∧ find s.constValues stmt.name = none
  silus : ∀ silu, s.siluDone silu = true → ∃ linear, (linear, silu) ∈ plan.silus

variable (hplan : plan.Formed declared)

include hplan

/-- A constant has a name of its own. -/
theorem Plan.Formed.constant_ne {constant : Statement ν} (hconstant : plan.program[k]? = some constant)
    (hop : constant.op = .const) (hstmt : plan.program[x]? = some stmt) (hother : stmt.op ≠ .const)
    (hname : name ∈ stmt.names) : constant.name ≠ name := by
  rintro rfl
  obtain rfl := hplan.single.unique hconstant hstmt List.mem_cons_self hname
  obtain rfl := Option.mem_unique hconstant hstmt
  exact hother hop

theorem Plan.Formed.constant_eq {constant : Statement ν} (hconstant : plan.program[k]? = some constant)
    (hstmt : plan.program[x]? = some stmt) (hname : constant.name = stmt.name) : k = x := by
  have hproducer := hplan.producer_name hconstant
  rw [hname, hplan.producer_name hstmt] at hproducer
  exact (Option.some.inj hproducer).symm

/-- Host data under the name of a constant is its own. -/
theorem Held.toHost (h : Held plan kernels s) {constant : Statement ν} (hconstant : plan.program[k]? = some constant)
    {y : M} (hy : s.hosts constant.name = some y) : (kernels.literal k).toHost = some y := by
  obtain ⟨k', other, hother, -, hname, hhost⟩ := h.hosts _ y hy
  obtain rfl := hplan.constant_eq hother hconstant hname
  exact hhost

/-- Executing a constant puts it where it stays. -/
theorem Held.constant (h : Held plan kernels s) (hstmt : plan.program[x]? = some stmt) (hop : stmt.op = .const)
    (hundone : s.done x = false) (hexecuted : Executed plan (kernels.literal x) x stmt.name s s') :
    Held plan kernels s' := by
  have hvalue {v : V} (hv : s'.values stmt.name = some v) : (kernels.literal x).toArray = some v := by
    rw [hexecuted.value] at hv
    cases harray : (kernels.literal x).toArray with
    | some w =>
      rw [harray, Option.some_or] at hv
      exact hv
    | none =>
      rw [harray, Option.none_or] at hv
      rw [← harray]
      exact h.values x stmt v hstmt hop hv
  have hdone {k : ℕ} (hk : s'.done k = true) (hne : k ≠ x) : s.done k = true := by
    rw [hexecuted.done] at hk
    exact (Runner.begin_done.mp hk).resolve_left hne
  have hne {k : ℕ} {other : Statement ν} (hother : plan.program[k]? = some other) (hk : k ≠ x) :
      other.name ≠ stmt.name := fun heq => hk (hplan.constant_eq hother hstmt heq)
  refine ⟨fun name y hy => ?_, fun k other v hother hopo hv => ?_, fun name v hv => ?_,
    fun hcache k other hother hopo hk hwhole => ?_, fun hcache k other hother hopo hk => ?_, fun silu hsilu => ?_⟩
  · by_cases hname : name = stmt.name
    · subst hname
      rw [hexecuted.host] at hy
      cases hhost : (kernels.literal x).toHost with
      | some z =>
        rw [hhost, Option.some_or] at hy
        exact ⟨x, stmt, hstmt, hop, rfl, by rw [hhost, hy]⟩
      | none =>
        rw [hhost, Option.none_or] at hy
        exact h.hosts stmt.name y hy
    · rw [(hexecuted.other name hname).2.1] at hy
      exact h.hosts name y hy
  · by_cases hk : k = x
    · subst hk
      obtain rfl := Option.mem_unique hstmt hother
      exact hvalue hv
    · rw [(hexecuted.other _ (hne hother hk)).1] at hv
      exact h.values k other v hother hopo hv
  · by_cases hname : name = stmt.name
    · subst hname
      rw [hexecuted.cached] at hv
      split_ifs at hv
      · rcases Option.or_eq_some_iff.mp hv with hv | ⟨-, hv⟩
        · exact ⟨x, stmt, hstmt, hop, rfl, hvalue hv⟩
        · exact h.cached stmt.name v hv
      · exact h.cached stmt.name v hv
    · rw [(hexecuted.other name hname).2.2] at hv
      exact h.cached name v hv
  · by_cases hkx : k = x
    · subst hkx
      obtain rfl := Option.mem_unique hstmt hother
      obtain ⟨hhost, hcached⟩ := h.unread hcache k stmt hstmt hop hundone
      rw [hexecuted.host, hexecuted.cached, if_pos ⟨hwhole, hcache⟩, hhost, hcached, Option.or_none, Option.or_none]
      refine ⟨rfl, ?_⟩
      cases hv : s'.values stmt.name with
      | some v => exact (hvalue hv).symm
      | none =>
        rw [hexecuted.value, Option.or_eq_none_iff] at hv
        exact hv.1.symm
    · obtain ⟨-, hhost, hcached⟩ := hexecuted.other _ (hne hother hkx)
      rw [hhost, hcached]
      exact h.known hcache k other hother hopo (hdone hk hkx) hwhole
  · rw [hexecuted.done, Runner.begin_not_done] at hk
    obtain ⟨-, hhost, hcached⟩ := hexecuted.other _ (hne hother hk.1)
    rw [hhost, hcached]
    exact h.unread hcache k other hother hopo hk.2
  · rw [hexecuted.siluDone] at hsilu
    exact h.silus silu hsilu

/-- No part of a pass breaks it. -/
theorem Held.lasting : Lasting plan kernels (Held plan kernels) where
  setValue := by
    intro s x stmt name v hstmt hother hname h
    refine { h with values := fun k constant w hconstant hop hw => h.values k constant w hconstant hop ?_ }
    rwa [Runner.setValue_values_of_ne v (hplan.constant_ne hconstant hop hstmt hother hname)] at hw
  begin := by
    intro s x stmt hstmt hother h
    have hne {k : ℕ} {constant : Statement ν} (hconstant : plan.program[k]? = some constant)
        (hop : constant.op = .const) : k ≠ x := by
      rintro rfl
      obtain rfl := Option.mem_unique hconstant hstmt
      exact hother hop
    refine { h with known := fun hcache k constant hconstant hop hk => ?_,
                    unread := fun hcache k constant hconstant hop hk => ?_ }
    · exact h.known hcache k constant hconstant hop ((Runner.begin_done.mp hk).resolve_left (hne hconstant hop))
    · exact h.unread hcache k constant hconstant hop (Runner.begin_not_done.mp hk).2
  discard := by
    intro s silu h
    refine { h with silus := fun other hother => h.silus other ?_ }
    by_cases hne : other = silu
    · subst hne
      change Function.update s.siluDone other false other = true at hother
      rw [Function.update_self] at hother
      cases hother
    · change Function.update s.siluDone silu false other = true at hother
      rwa [Function.update_of_ne hne] at hother
  constant := fun s s' x stmt hstmt hop hundone hexecuted h => h.constant hplan hstmt hop hundone hexecuted

omit hplan in
theorem Held.release (h : Held plan kernels s) (retired : ν → Bool) : Held plan kernels (s.release retired) := by
  refine { h with values := fun k constant v hconstant hop hv => h.values k constant v hconstant hop ?_ }
  change (if retired constant.name = true then none else s.values constant.name) = some v at hv
  split_ifs at hv
  exact hv

section Starting

variable {inputs : List (ν × V)} (hdeclared : ∀ pair ∈ inputs, pair.1 ∈ declared) {constant : Statement ν}

include hdeclared

/-- The inputs are no results of statements. -/
theorem Plan.Formed.not_input (hstmt : plan.program[x]? = some stmt) (hname : name ∈ stmt.names) :
    name ∉ inputs.map Prod.fst := by
  intro hmem
  obtain ⟨pair, hpair, rfl⟩ := List.mem_map.mp hmem
  exact hplan.single.fresh pair.1 (hdeclared pair hpair)
    (List.mem_flatMap.mpr ⟨stmt, List.mem_of_getElem? hstmt, hname⟩)

/-- A call starts with no result of a statement but the cached constants. -/
theorem Plan.Formed.start_values (s : Runner ν V M) (hstmt : plan.program[x]? = some stmt) (hname : name ∈ stmt.names) :
    ((s.reset plan).setValues inputs).values name = if s.warm plan then find s.constValues name else none :=
  writeAll_of_notMem (hplan.not_input hdeclared hstmt hname)

/-- With the cache on, the constants are in the table at the start exactly as they are cached. -/
theorem Plan.Formed.start_cached (s : Runner ν V M) (hcache : plan.cache = true) (hstmt : plan.program[x]? = some stmt)
    (hname : name ∈ stmt.names) : ((s.reset plan).setValues inputs).values name = find s.constValues name := by
  rw [hplan.start_values hdeclared s hstmt hname, Runner.warm, hcache, Bool.true_and]
  cases s.constValues with
  | nil => rfl
  | cons pair rest => rfl

omit hplan hdeclared in
/-- With the cache on, what is done of the constants stays done. -/
theorem reset_done_constant (s : Runner ν V M) (hcache : plan.cache = true)
    (hconstant : plan.program[k]? = some constant) (hop : constant.op = .const) : (s.reset plan).done k = s.done k := by
  change (if s.warm plan then s.done k && decide ((plan.program[k]?).map Statement.op = some .const)
    else plan.cache && s.done k) = s.done k
  rw [hconstant, Option.map_some, hop, hcache, Bool.true_and, decide_eq_true rfl, Bool.and_true, ite_self]

/-- The next call starts with what the last one held. -/
theorem Held.start (h : Held plan kernels s) : Held plan kernels ((s.reset plan).setValues inputs) where
  hosts := h.hosts
  values := by
    intro k constant v hconstant hop hv
    rw [hplan.start_values hdeclared s hconstant List.mem_cons_self] at hv
    split_ifs at hv
    obtain ⟨k', other, hother, -, hname, harray⟩ := h.cached _ v hv
    obtain rfl := hplan.constant_eq hother hconstant hname
    exact harray
  cached := h.cached
  known := fun hcache k constant hconstant hop hk =>
    h.known hcache k constant hconstant hop ((reset_done_constant s hcache hconstant hop).symm.trans hk)
  unread := fun hcache k constant hconstant hop hk =>
    h.unread hcache k constant hconstant hop ((reset_done_constant s hcache hconstant hop).symm.trans hk)
  silus := h.silus

end Starting

end Holding

section Growing

variable {base : Runner ν V M}

/-- What stays of an earlier state: host data, and with the cache on the flags of constants. -/
structure Beyond (plan : Plan ν) (base s : Runner ν V M) : Prop where
  hosts : ∀ name, (base.hosts name).isSome = true → (s.hosts name).isSome = true
  done : plan.cache = true → ∀ k stmt, plan.program[k]? = some stmt → stmt.op = .const → base.done k = true →
    s.done k = true

theorem Executed.has {literal : Literal V M} (h : Executed plan literal x stmt.name s s') :
    ((s.values name).isSome = true → (s'.values name).isSome = true) ∧
      ((s.hosts name).isSome = true → (s'.hosts name).isSome = true) := by
  by_cases hname : name = stmt.name
  · subst hname
    rw [h.value, h.host]
    constructor
    · intro hv
      rw [Option.isSome_or, hv, Bool.or_true]
    · intro hv
      rw [Option.isSome_or, hv, Bool.or_true]
  · obtain ⟨hvalue, hhost, -⟩ := h.other name hname
    rw [hvalue, hhost]
    exact ⟨id, id⟩

theorem Executed.mono {literal : Literal V M} (h : Executed plan literal x name s s') {y : ℕ} (hy : s.done y = true) :
    s'.done y = true := by
  rw [h.done]
  exact Runner.begin_done.mpr (Or.inr hy)

theorem Beyond.lasting : Lasting plan kernels (Beyond plan base) where
  setValue := fun _ _ _ _ _ _ _ _ h => ⟨h.hosts, h.done⟩
  begin := fun _ _ _ _ _ h => ⟨h.hosts, fun hcache k constant hconstant hop hk =>
    Runner.begin_done.mpr (Or.inr (h.done hcache k constant hconstant hop hk))⟩
  discard := fun _ _ h => ⟨h.hosts, h.done⟩
  constant := fun _ _ _ _ _ _ _ hexecuted h => ⟨fun name hname => hexecuted.has.2 (h.hosts name hname),
    fun hcache k constant hconstant hop hk => hexecuted.mono (h.done hcache k constant hconstant hop hk)⟩

theorem Beyond.start (h : Beyond plan base s) (inputs : List (ν × V)) :
    Beyond plan base ((s.reset plan).setValues inputs) where
  hosts := h.hosts
  done := fun hcache k _ hconstant hop hk =>
    (reset_done_constant s hcache hconstant hop).trans (h.done hcache k _ hconstant hop hk)

end Growing

section Building

variable {program : Program ν} {inv : Runner ν V M → Prop}

/-- Building a runner executes constants alone. -/
theorem keeps_fusedGates (hconstant : ∀ (s s' : Runner ν V M) (x : ℕ) (stmt : Statement ν),
    plan.program[x]? = some stmt → stmt.op = .const → s.done x = false →
    Executed plan (kernels.literal x) x stmt.name s s' → inv s → inv s') (gates : List (Gate ν)) :
    Keeps inv (fusedGates kernels (direct device) plan gates) := by
  have hensure (name : ν) : Keeps inv (ensureConstant kernels (direct device) plan name) := by
    intro s hs
    unfold ensureConstant
    rw [Direct.reads_bind, id_eq]
    split_ifs with hhas
    · exact hs
    cases hproducer : producer plan.program name with
    | none => exact hs
    | some x =>
      obtain ⟨stmt, hstmt, -⟩ := producer_spec hproducer
      dsimp only
      by_cases hdone : s.done x = true
      · rw [if_pos hdone]
        exact hs
      rw [if_neg hdone, hstmt]
      dsimp only
      by_cases hop : stmt.op = .const
      · rw [if_pos hop, Direct.change_bind]
        obtain ⟨s', hexecuted, hrun⟩ := evalConst_begin plan kernels device x stmt.name s
        rw [hrun]
        exact hconstant s s' x stmt hstmt hop (Bool.not_eq_true _ ▸ hdone) hexecuted hs
      · rw [if_neg hop]
        exact hs
  induction gates with
  | nil => exact Keeps.pure _
  | cons gate rest ih =>
    refine (keeps_scalar hensure gate.axis).bind fun axis => ?_
    split_ifs
    · refine (keeps_scalar hensure gate.count).bind fun count => ?_
      exact ih.bind fun gates => Keeps.pure _
    · exact ih

/-- A gate that is fused is one of the candidates. -/
theorem fusedGates_subset {gates fused : List (Gate ν)}
    (hrun : fusedGates kernels (direct device) plan gates s = (.ok fused, s')) : ∀ gate ∈ fused, gate ∈ gates := by
  induction gates generalizing s s' fused with
  | nil =>
    obtain ⟨rfl, -⟩ := pure_eq_ok hrun
    exact fun _ hgate => hgate
  | cons gate rest ih =>
    obtain ⟨axis, s₁, _, hrun⟩ := bind_eq_ok.mp hrun
    by_cases hchannels : kernels.int axis % 3 = 1
    · rw [if_pos hchannels] at hrun
      obtain ⟨count, s₂, _, hrun⟩ := bind_eq_ok.mp hrun
      obtain ⟨found, s₃, hfound, hrun⟩ := bind_eq_ok.mp hrun
      obtain ⟨rfl, -⟩ := pure_eq_ok hrun
      intro other hother
      split_ifs at hother
      · rcases List.mem_cons.mp hother with rfl | hother
        · exact List.mem_cons_self
        · exact List.mem_cons_of_mem gate (ih hfound other hother)
      · exact List.mem_cons_of_mem gate (ih hfound other hother)
    · rw [if_neg hchannels] at hrun
      exact fun other hother => List.mem_cons_of_mem gate (ih hrun other hother)

/-- A runner that no call has changed: what is done are constants, and every silu that a linear may compute is left to
it. -/
structure Fresh (plan : Plan ν) (s : Runner ν V M) : Prop where
  constants : ∀ y, s.done y = true → ∃ stmt, plan.program[y]? = some stmt ∧ stmt.op = .const
  silus : ∀ silu, s.siluDone silu = true ↔ ∃ linear, (linear, silu) ∈ plan.silus

/-- A runner that is built. -/
theorem build_fresh {options : Options} {built : Runner ν V M} (hsingle : SingleAssignment program declared)
    (harities : Arities program)
    (hrun : build kernels (direct device) program options (Runner.blank program options.chain) = (.ok plan, built)) :
    plan.program = program ∧ plan.Formed declared ∧ Held plan kernels built ∧ Fresh plan built := by
  obtain ⟨islands, s₁, hindex, hrun⟩ := bind_eq_ok.mp hrun
  obtain ⟨hislands, rfl⟩ := orRaise_eq_ok hindex
  obtain ⟨fused, s₂, hfused, hrun⟩ := bind_eq_ok.mp hrun
  obtain ⟨rfl, rfl⟩ := pure_eq_ok hrun
  have hplan : Plan.Formed ⟨program, options.placed, options.chain, options.cache, options.limit, islands, fused⟩
      declared := ⟨hsingle, harities, hislands, fusedGates_subset hfused⟩
  have hsilus (silu : ℕ) : (Runner.blank program options.chain : Runner ν V M).siluDone silu = true ↔
      ∃ linear, (linear, silu) ∈ linearSilus program options.chain := by
    rw [Runner.blank, decide_eq_true_iff, List.mem_map]
    constructor
    · rintro ⟨pair, hpair, rfl⟩
      exact ⟨pair.1, hpair⟩
    · rintro ⟨linear, hpair⟩
      exact ⟨(linear, silu), hpair, rfl⟩
  have hkeeps : Keeps (fun s : Runner ν V M =>
      Held ⟨program, options.placed, options.chain, options.cache, options.limit, islands, fused⟩ kernels s ∧
        Fresh ⟨program, options.placed, options.chain, options.cache, options.limit, islands, fused⟩ s)
      (fusedGates kernels (direct device) ⟨program, options.placed, options.chain, options.cache, options.limit,
        islands, []⟩ (candidates program)) :=
    keeps_fusedGates (fun s s' x stmt hstmt hop hundone hexecuted h => ?_) (candidates program)
  · have hblank := hkeeps (Runner.blank program options.chain) ⟨⟨fun _ _ hno => ?_, fun _ _ _ _ _ hno => ?_,
      fun _ _ hno => ?_, fun _ _ _ _ _ hno => ?_, fun _ _ _ _ _ _ => ⟨rfl, rfl⟩, fun silu hsilu =>
        (hsilus silu).mp hsilu⟩, fun _ hno => ?_, hsilus⟩
    · rw [hfused] at hblank
      exact ⟨rfl, hplan, hblank⟩
    all_goals cases hno
  · obtain ⟨hheld, hconstants, hall⟩ := h
    refine ⟨hheld.constant hplan hstmt hop hundone ⟨hexecuted.done, hexecuted.siluDone, hexecuted.other,
      hexecuted.value, hexecuted.host, hexecuted.cached⟩, fun y hy => ?_, fun silu => ?_⟩
    · rw [hexecuted.done] at hy
      rcases Runner.begin_done.mp hy with rfl | hy
      · exact ⟨stmt, hstmt, hop⟩
      · exact hconstants y hy
    · rw [hexecuted.siluDone]
      exact hall silu

end Building

end AneLinux.Encoder
