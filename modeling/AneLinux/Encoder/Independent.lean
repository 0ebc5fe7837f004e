import AneLinux.Encoder.TwinStep

/-!
# The calls on one runner

A call on a runner that has made calls before, returned or raised, gives what the first call on a fresh runner gives:
unless a flag, a host value or a silu that an earlier call left makes a difference to this one. With the constant cache
off, the host data of a constant is such a value: a reader that an island pulls forward gets an array made from it.
-/

namespace AneLinux.Encoder

open AneLinux.Support Attempt Direct

variable {ν V M : Type} [DecidableEq ν]

variable {plan : Plan ν} {kernels : Kernels V M} {device : Job V → Except String (ℕ → V)} {inputs : List (ν × V)}
  {declared wanted : List ν} {stmt : Statement ν} {s f : Runner ν V M} {stopAfter name : ν} {k : ℕ}

section Loops

variable {left : ν → M → Prop} {i : ℕ}

theorem Twin.next (h : Twin plan kernels device left inputs i s f) (hs : s.done i = true) (hf : f.done i = true) :
    Twin plan kernels device left inputs (i + 1) s f := by
  refine { h with due := fun y hy => ?_ }
  rcases Nat.lt_succ_iff_lt_or_eq.mp hy with hy | rfl
  · exact h.due y hy
  · exact ⟨hs, hf⟩

/-- A constant that both have executed is the same on both. -/
theorem Twin.same (h : Twin plan kernels device left inputs i s f) {constant : Statement ν}
    (hconstant : plan.program[k]? = some constant) (hop : constant.op = .const) (hk : k < i) :
    s.values constant.name = f.values constant.name ∧ s.hosts constant.name = f.hosts constant.name := by
  obtain ⟨hs, hf⟩ := h.due k hk
  cases h.constants k constant hconstant hop with
  | same _ value host => exact ⟨value, host⟩
  | ahead _ _ undone =>
    rw [undone] at hf
    cases hf
  | kept _ _ _ undone =>
    rw [undone] at hs
    cases hs
  | pulled _ _ _ undone =>
    rw [undone] at hs
    cases hs

variable (hplan : plan.Formed declared)

include hplan

/-- What is kept of a statement is the same on both. -/
theorem Twin.kept_eq (h : Twin plan kernels device left inputs (i + 1) s f) (hstmt : plan.program[i]? = some stmt) :
    s.kept wanted stmt = f.kept wanted stmt := by
  have hvalue (name : ν) (hname : name ∈ stmt.names) : s.values name = f.values name := by
    by_cases hop : stmt.op = .const
    · rw [hplan.arities.names_eq hstmt (by rw [hop]; decide), List.mem_singleton] at hname
      rw [hname]
      exact (h.same hstmt hop (Nat.lt_succ_self i)).1
    · exact h.values name (hplan.plain hstmt hop hname)
  unfold Runner.kept
  apply List.filterMap_congr
  intro name hname
  rw [hvalue name hname]

/-- A constant is released after it was executed. -/
theorem Plan.Formed.lt_of_lastUse {constant : Statement ν} (hconstant : plan.program[k]? = some constant)
    (hop : constant.op = .const) (hlast : lastUse plan.program plan.gates constant.name = some i) : k < i := by
  rcases List.mem_append.mp (List.max?_eq_some_iff.mp hlast).1 with hreader | hgate
  · obtain ⟨user, huser, hname⟩ := mem_consumers.mp hreader
    exact hplan.single.producer_lt huser (mem_operands.mp hname).1 (hplan.producer_name hconstant)
  · obtain ⟨gate, hgate, -⟩ := List.mem_map.mp hgate
    obtain ⟨hgate, hb⟩ := List.mem_filter.mp hgate
    obtain ⟨sigmoid, product, hp⟩ := hplan.arities.gatePlaces (hplan.gates gate hgate)
    obtain ⟨place, split, hsplit, hops, -, hproducer⟩ := hp.halves
    rw [of_decide_eq_true hb, hplan.producer_name hconstant] at hproducer
    obtain rfl := Option.some.inj hproducer
    obtain rfl := Option.mem_unique hconstant hsplit
    rw [hop] at hops
    cases hops

/-- Both release the same names. -/
theorem Twin.release (h : Twin plan kernels device left inputs (i + 1) s f) {retire : ν → Bool}
    (hretire : ∀ name, retire name = true → lastUse plan.program plan.gates name = some i) :
    Twin plan kernels device left inputs (i + 1) (s.release retire) (f.release retire) := by
  refine { h with heldLeft := h.heldLeft.release retire, heldRight := h.heldRight.release retire,
                  values := fun name hplain => ?_, constants := fun k constant hconstant hop => ?_,
                  given := fun name v hv => h.given name v ?_,
                  linears := fun linear silu user hpair huser hundone => ?_ }
  · change (if retire name = true then none else s.values name) = if retire name = true then none else f.values name
    rw [h.values name hplain]
  · by_cases hretired : retire constant.name = true
    · have hk := hplan.lt_of_lastUse hconstant hop (hretire _ hretired)
      obtain ⟨hs, hf⟩ := h.due k (Nat.lt_succ_of_lt hk)
      obtain ⟨-, hhost⟩ := h.same hconstant hop (Nat.lt_succ_of_lt hk)
      refine .same (hs.trans hf.symm) ?_ hhost
      change (if retire constant.name = true then none else s.values constant.name) =
        if retire constant.name = true then none else f.values constant.name
      rw [if_pos hretired, if_pos hretired]
    · exact (h.constants k constant hconstant hop).congr rfl (if_neg hretired) rfl rfl (if_neg hretired) rfl
  · change (if retire name = true then none else f.values name) = some v at hv
    split_ifs at hv
    exact hv
  · change (if retire user.name = true then none else s.values user.name) = none
    rw [h.linears linear silu user hpair huser hundone, ite_self]

variable (hleft : ∀ i, plan.Within stopAfter i → ∀ (k : ℕ) (stmt : Statement ν) (y : M),
  plan.program[k]? = some stmt → left stmt.name y → i < k → Harmless plan kernels i k stmt.name y)

include hleft

/-- The loop keeps the same values on both, or raises on both. Past the name that it stops after it raises anyway. -/
theorem tracks_statementsFrom {rest : Program ν} (hrest : plan.program.drop i = rest) {keep : List (ν × V)}
    (hopen : stopAfter ∉ keep.map Prod.fst) :
    Agree (fun _ => False) (fun _ _ => True) (Twin plan kernels device left inputs i)
      (statementsFrom plan kernels (direct device) wanted stopAfter i rest keep)
      (statementsFrom plan kernels (direct device) wanted stopAfter i rest keep) fun a b _ _ => a = b := by
  induction rest generalizing i keep with
  | nil => exact Agree.raise fun _ _ _ => trivial
  | cons stmt rest ih =>
    obtain ⟨hstmt, hdrop⟩ := next_of_drop hrest
    by_cases hwithin : plan.Within stopAfter i
    · have hprompt := prompt_ensure kernels device hplan plan.limit
      have hensure : ∀ name, Asked plan i name → Tracks plan kernels device left inputs i
          (Encoder.ensure plan kernels (direct device) plan.limit name) :=
        tracks_ensure hplan (hleft i hwithin) plan.limit
      have hexecute := (tracks_execute hplan (hleft i hwithin) hprompt hensure hstmt .refl).returns
        (p := fun _ s => s.done i = true) (q := fun _ f => f.done i = true)
        (fun s _ s' hrun => by
          have hdone := execute_done device s hplan hprompt hstmt
          rwa [hrun] at hdone)
        fun f _ f' hrun => by
          have hdone := execute_done device f hplan hprompt hstmt
          rwa [hrun] at hdone
      have hsupplied (s f : Runner ν V M) (h : Twin plan kernels device left inputs i s f) :
          Twin plan kernels device left inputs i s f ∧ Supplied plan stmt s ∧ Supplied plan stmt f :=
        ⟨h, fun name hname => Or.inr fun y hy => (h.due y (hplan.single.producer_lt hstmt hname hy)).1,
          fun name hname => Or.inr fun y hy => (h.due y (hplan.single.producer_lt hstmt hname hy)).2⟩
      refine (hexecute.conseq hsupplied fun _ _ _ _ h => h).bind (fun _ _ h => h.elim) fun _ _ => ?_
      rintro s f ⟨⟨-, h⟩, hs, hf⟩
      have hnext := h.next hs hf
      have hrelease := hnext.release hplan fun name (hname : retired plan (stopAfter :: wanted) i name = true) =>
        of_decide_eq_true ((Bool.and_eq_true _ _).mp hname).1
      rw [Direct.reads_bind, Direct.reads_bind, id_eq, id_eq, Direct.change_bind, Direct.change_bind,
        hnext.kept_eq hplan hstmt]
      split_ifs with hstop
      · exact Or.inr rfl
      · exact ih hdrop hstop _ _ hrelease
    · intro s f _
      right
      have hraises (r : Runner ν V M) (kept : List (ν × V)) (r' : Runner ν V M) :
          statementsFrom plan kernels (direct device) wanted stopAfter i (stmt :: rest) keep r ≠ (.ok kept, r') :=
        fun hrun => hwithin (within_of_statementsFrom hplan hrest hopen hrun)
      rcases hs : statementsFrom plan kernels (direct device) wanted stopAfter i (stmt :: rest) keep s with
        ⟨e | kept, s'⟩
      · rcases hf : statementsFrom plan kernels (direct device) wanted stopAfter i (stmt :: rest) keep f with
          ⟨e' | kept, f'⟩
        · trivial
        · exact absurd hf (hraises f kept f')
      · exact absurd hs (hraises s kept s')

end Loops

section Conditions

/-- What a call is started with. With the cache on: nothing is executed but constants that could be evaluated. With the
cache off: host data of a constant that an earlier call left does no harm to a reader that this call executes before
the constant. In both cases, a linear whose silu an earlier call left alone cannot take the fused kernel. -/
structure Steady (plan : Plan ν) (kernels : Kernels V M) (device : Job V → Except String (ℕ → V))
    (inputs : List (ν × V)) (stopAfter : ν) (built s : Runner ν V M) : Prop where
  flags : plan.cache = true → s.constValues = [] → ∀ y, s.done y = true →
    ∃ stmt, plan.program[y]? = some stmt ∧ stmt.op = .const
  evaluated : plan.cache = true → ∀ k stmt, plan.program[k]? = some stmt → stmt.op = .const → s.done k = true →
    (kernels.literal k).whole = true
  hosts : plan.cache = false → ∀ k stmt y, plan.program[k]? = some stmt → s.hosts stmt.name = some y →
    built.hosts stmt.name = none → ∀ i < k, plan.Within stopAfter i → Harmless plan kernels i k stmt.name y
  silus : ∀ linear silu, (linear, silu) ∈ plan.silus → s.siluDone silu = false →
    Barred plan kernels device inputs linear

/-- A runner after a sequence of calls, whether they return or raise. -/
def afterCalls (plan : Plan ν) (kernels : Kernels V M) (device : Job V → Except String (ℕ → V)) (wanted : List ν)
    (stopAfter : ν) (calls : List (List (ν × V))) (s : Runner ν V M) : Runner ν V M :=
  calls.foldl (fun s inputs => (run plan kernels (direct device) inputs wanted stopAfter s).2) s

end Conditions

section Starting

/-- Only constants are cached. -/
theorem Held.no_cached (h : Held plan kernels s) (hplain : plan.Plain name) : find s.constValues name = none := by
  cases hfind : find s.constValues name with
  | none => rfl
  | some v =>
    obtain ⟨k, stmt, hstmt, hop, hname, -⟩ := h.cached name v hfind
    exact absurd hname (hplain k stmt hstmt hop)

/-- At the start, no name has a value but the cached constants. -/
theorem Held.reset_plain (h : Held plan kernels s) (hplain : plan.Plain name) : (s.reset plan).values name = none := by
  change (if s.warm plan = true then find s.constValues name else none) = none
  rw [h.no_cached hplain, ite_self]

/-- At the start, nothing is done but constants. -/
theorem Steady.reset_done {built : Runner ν V M} (h : Steady plan kernels device inputs stopAfter built s) {y : ℕ}
    (hy : ∀ stmt, plan.program[y]? = some stmt → stmt.op ≠ .const) : (s.reset plan).done y = false := by
  have hconst : ¬ (plan.program[y]?).map Statement.op = some .const := by
    intro hmap
    obtain ⟨stmt, hstmt, hop⟩ := Option.map_eq_some_iff.mp hmap
    exact hy stmt hstmt hop
  change (if s.warm plan = true then s.done y && decide ((plan.program[y]?).map Statement.op = some .const)
    else plan.cache && s.done y) = false
  rw [decide_eq_false hconst, Bool.and_false]
  cases hcache : plan.cache with
  | false => rw [Bool.false_and, ite_self]
  | true =>
    cases hcached : s.constValues with
    | cons pair rest =>
      rw [if_pos]
      rw [Runner.warm, hcache, hcached]
      rfl
    | nil =>
      cases hdone : s.done y with
      | false => rw [Bool.and_false, ite_self]
      | true =>
        obtain ⟨stmt, hstmt, hop⟩ := h.flags hcache hcached y hdone
        exact absurd hop (hy stmt hstmt)

variable (hplan : plan.Formed declared) (hdeclared : ∀ pair ∈ inputs, pair.1 ∈ declared)

include hplan hdeclared

/-- What is in the table at the start is an input or a cached constant. -/
theorem Held.start_given (h : Held plan kernels s) {v : V}
    (hv : ((s.reset plan).setValues inputs).values name = some v) : Given plan kernels device inputs name v := by
  cases hproducer : producer plan.program name with
  | none =>
    refine .input hproducer ?_
    rw [← hv]
    exact writeAll_congr (h.reset_plain (plain_of_producer hproducer)).symm inputs
  | some x =>
    obtain ⟨stmt, hstmt, hname⟩ := producer_spec hproducer
    rw [hplan.start_values hdeclared s hstmt hname] at hv
    split_ifs at hv
    obtain ⟨k, constant, hconstant, hop, rfl, harray⟩ := h.cached name v hv
    exact .literal hconstant hop harray

/-- With the cache off, no constant is in the table at the start, and host data stays from the calls before. -/
theorem Held.paired_uncached {left : M → Prop} (hs : Held plan kernels s) (hf : Held plan kernels f)
    (hbeyond : Beyond plan f s) (hcache : plan.cache = false) (hstmt : plan.program[k]? = some stmt)
    (hleft : ∀ y, s.hosts stmt.name = some y → f.hosts stmt.name = none → left y) :
    Paired (kernels.literal k) left k stmt.name ((s.reset plan).setValues inputs)
      ((f.reset plan).setValues inputs) := by
  have hundone (r : Runner ν V M) : (r.reset plan).done k = false := by
    change (if r.warm plan = true then _ else plan.cache && r.done k) = false
    rw [Runner.warm, hcache, Bool.false_and, Bool.false_and]
    rfl
  have hempty (r : Runner ν V M) : ((r.reset plan).setValues inputs).values stmt.name = none := by
    rw [hplan.start_values hdeclared r hstmt List.mem_cons_self, Runner.warm, hcache, Bool.false_and]
    rfl
  have hsame (hhost : s.hosts stmt.name = f.hosts stmt.name) : Paired (kernels.literal k) left k stmt.name
      ((s.reset plan).setValues inputs) ((f.reset plan).setValues inputs) :=
    .same ((hundone s).trans (hundone f).symm) ((hempty s).trans (hempty f).symm) hhost
  cases hsy : s.hosts stmt.name with
  | none =>
    cases hfy : f.hosts stmt.name with
    | none => exact hsame (hsy.trans hfy.symm)
    | some z =>
      have hhas := hbeyond.hosts stmt.name (by rw [hfy, Option.isSome_some])
      rw [hsy] at hhas
      cases hhas
  | some y =>
    cases hfy : f.hosts stmt.name with
    | none =>
      exact .kept y (hleft y hsy hfy) (hs.toHost hplan hstmt hsy) (hundone s) (hempty s) hsy (hundone f) (hempty f) hfy
    | some z =>
      have heq := (hs.toHost hplan hstmt hsy).symm.trans (hf.toHost hplan hstmt hfy)
      exact hsame (hsy.trans (heq.trans hfy.symm))

/-- With the cache on, a constant that was executed is in the tables that stay. -/
theorem Held.paired_cached {left : M → Prop} (hs : Held plan kernels s) (hf : Held plan kernels f)
    (hbeyond : Beyond plan f s) (hcache : plan.cache = true) (hstmt : plan.program[k]? = some stmt)
    (hop : stmt.op = .const) (hevaluated : s.done k = true → (kernels.literal k).whole = true) :
    Paired (kernels.literal k) left k stmt.name ((s.reset plan).setValues inputs)
      ((f.reset plan).setValues inputs) := by
  have hdone (r : Runner ν V M) := reset_done_constant r hcache hstmt hop
  have hvalue (r : Runner ν V M) := hplan.start_cached hdeclared r hcache hstmt List.mem_cons_self
  cases hsk : s.done k with
  | true =>
    have hwhole := hevaluated hsk
    obtain ⟨hhost, hcached⟩ := hs.known hcache k stmt hstmt hop hsk hwhole
    cases hfk : f.done k with
    | true =>
      obtain ⟨hhost', hcached'⟩ := hf.known hcache k stmt hstmt hop hfk hwhole
      refine .same (((hdone s).trans hsk).trans ((hdone f).trans hfk).symm) ?_ (hhost.trans hhost'.symm)
      rw [hvalue s, hvalue f, hcached, hcached']
    | false =>
      obtain ⟨hhost', hcached'⟩ := hf.unread hcache k stmt hstmt hop hfk
      exact .ahead hwhole ((hdone s).trans hsk) ((hdone f).trans hfk) ((hvalue s).trans hcached) hhost
        ((hvalue f).trans hcached') hhost'
  | false =>
    have hfk : f.done k = false := by
      by_contra hfk
      rw [Bool.not_eq_false] at hfk
      rw [hbeyond.done hcache k stmt hstmt hop hfk] at hsk
      cases hsk
    obtain ⟨hhost, hcached⟩ := hs.unread hcache k stmt hstmt hop hsk
    obtain ⟨hhost', hcached'⟩ := hf.unread hcache k stmt hstmt hop hfk
    refine .same (((hdone s).trans hsk).trans ((hdone f).trans hfk).symm) ?_ (hhost.trans hhost'.symm)
    rw [hvalue s, hvalue f, hcached, hcached']

/-- A call starts on both alike. -/
theorem Held.twin (hs : Held plan kernels s) (hf : Held plan kernels f) (hfresh : Fresh plan f)
    (hbeyond : Beyond plan f s) (hsteady : Steady plan kernels device inputs stopAfter f s) :
    Twin plan kernels device (fun name y => plan.cache = false ∧ s.hosts name = some y ∧ f.hosts name = none) inputs 0
      ((s.reset plan).setValues inputs) ((f.reset plan).setValues inputs) := by
  have hundone {y : ℕ} (hy : ∀ stmt, plan.program[y]? = some stmt → stmt.op ≠ .const) :
      (f.reset plan).done y = false := by
    have hfy : f.done y = false := by
      by_contra hfy
      rw [Bool.not_eq_false] at hfy
      obtain ⟨stmt, hstmt, hop⟩ := hfresh.constants y hfy
      exact hy stmt hstmt hop
    change (if f.warm plan = true then f.done y && _ else plan.cache && f.done y) = false
    rw [hfy, Bool.false_and, Bool.and_false, ite_self]
  have hlinear {linear silu : ℕ} (hpair : (linear, silu) ∈ plan.silus) (stmt : Statement ν)
      (hstmt : plan.program[linear]? = some stmt) : stmt.op ≠ .const := fun hop =>
    hplan.not_linear hstmt (by rw [hop]; decide) silu hpair
  refine ⟨hs.start hplan hdeclared, hf.start hplan hdeclared, fun name hplain => ?_, fun y hy => ?_,
    fun k stmt hstmt hop => ?_, fun name v hv => hf.start_given hplan hdeclared hv, fun silu => ?_,
    fun linear silu stmt hpair hstmt _ => ?_, fun y hy => absurd hy (Nat.not_lt_zero y)⟩
  · exact writeAll_congr ((hs.reset_plain hplain).trans (hf.reset_plain hplain).symm) inputs
  · exact (hsteady.reset_done hy).trans (hundone hy).symm
  · cases hcache : plan.cache with
    | false => exact hs.paired_uncached hplan hdeclared hf hbeyond hcache hstmt fun y hy hno => ⟨rfl, hy, hno⟩
    | true =>
      exact hs.paired_cached hplan hdeclared hf hbeyond hcache hstmt hop (hsteady.evaluated hcache k stmt hstmt hop)
  · cases hsilu : s.siluDone silu with
    | true => exact Or.inl (hsilu.trans ((hfresh.silus silu).mpr (hs.silus silu hsilu)).symm)
    | false =>
      cases hfsilu : f.siluDone silu with
      | false => exact Or.inl (hsilu.trans hfsilu.symm)
      | true =>
        obtain ⟨linear, hpair⟩ := (hfresh.silus silu).mp hfsilu
        exact Or.inr ⟨linear, hpair, hsteady.reset_done (hlinear hpair), hsteady.silus linear silu hpair hsilu⟩
  · have hplain := hplan.plain hstmt (hlinear hpair stmt hstmt) List.mem_cons_self
    rw [hplan.start_values hdeclared s hstmt List.mem_cons_self, hs.no_cached hplain, ite_self]

end Starting

section Calls

variable {program : Program ν} {calls : List (List (ν × V))} {options : Options} {built : Runner ν V M}

/-- What every call keeps holds after all of them. -/
theorem afterCalls_keeps {inv : Runner ν V M → Prop}
    (h : ∀ inputs ∈ calls, Keeps inv (run plan kernels (direct device) inputs wanted stopAfter)) (hs : inv s) :
    inv (afterCalls plan kernels device wanted stopAfter calls s) := by
  unfold afterCalls
  induction calls generalizing s with
  | nil => exact hs
  | cons inputs rest ih =>
    exact ih (fun others hothers => h others (List.mem_cons_of_mem inputs hothers)) (h inputs List.mem_cons_self s hs)

omit [DecidableEq ν] in
theorem collect_settled (keep : List (ν × V)) (r : Runner ν V M) :
    collect (settle (M := M) (direct device)) keep r = (.ok keep, r) := by
  induction keep with
  | nil => rfl
  | cons entry rest ih =>
    have hfirst : settle (M := M) (direct device) entry r = (.ok entry, r) := rfl
    rw [collect, bind_of_ok hfirst, bind_of_ok ih]
    rfl

/-- One call on two runners that start alike. -/
theorem Twin.run {left : ν → M → Prop} (hplan : plan.Formed declared)
    (hleft : ∀ i, plan.Within stopAfter i → ∀ (k : ℕ) (stmt : Statement ν) (y : M),
      plan.program[k]? = some stmt → left stmt.name y → i < k → Harmless plan kernels i k stmt.name y)
    (h : Twin plan kernels device left inputs 0 ((s.reset plan).setValues inputs) ((f.reset plan).setValues inputs)) :
    Same (run plan kernels (direct device) inputs wanted stopAfter s).1
      (run plan kernels (direct device) inputs wanted stopAfter f).1 := by
  have hagree : Agree (fun _ => False) (fun _ _ => True) (Twin plan kernels device left inputs 0)
      (statementsFrom plan kernels (direct device) wanted stopAfter 0 plan.program [])
      (statementsFrom plan kernels (direct device) wanted stopAfter 0 plan.program []) fun a b _ _ => a = b :=
    tracks_statementsFrom hplan hleft rfl List.not_mem_nil
  have hloop := (hagree _ _ h).resolve_left id
  unfold Encoder.run
  rw [entries_direct, Direct.change_bind, Direct.change_bind]
  revert hloop
  generalize hs : statementsFrom plan kernels (direct device) wanted stopAfter 0 plan.program []
    ((s.reset plan).setValues inputs) = left
  generalize hf : statementsFrom plan kernels (direct device) wanted stopAfter 0 plan.program []
    ((f.reset plan).setValues inputs) = right
  intro hloop
  rcases left with ⟨e | keep, s'⟩ <;> rcases right with ⟨e' | keep', f'⟩
  · rw [bind_of_error hs, bind_of_error hf]
    trivial
  · exact hloop.elim
  · exact hloop.elim
  · obtain rfl : keep = keep' := hloop
    rw [bind_of_ok hs, bind_of_ok hf]
    split_ifs
    · rw [collect_settled, collect_settled]
      rfl
    · trivial

/-- The calls on one runner are independent: whatever calls were made before, returned or raised, a call returns what
the first call on the runner as it was built returns, or both raise. -/
theorem run_eq_first (hsingle : SingleAssignment program declared) (harities : Arities program)
    (hbuild : build kernels (direct device) program options (Runner.blank program options.chain) = (.ok plan, built))
    (hcalls : ∀ call ∈ calls, ∀ pair ∈ call, pair.1 ∈ declared) (hinputs : ∀ pair ∈ inputs, pair.1 ∈ declared)
    (hsteady : Steady plan kernels device inputs stopAfter built
      (afterCalls plan kernels device wanted stopAfter calls built)) :
    Same (run plan kernels (direct device) inputs wanted stopAfter
        (afterCalls plan kernels device wanted stopAfter calls built)).1
      (run plan kernels (direct device) inputs wanted stopAfter built).1 := by
  obtain ⟨-, hplan, hheld, hfresh⟩ := build_fresh hsingle harities hbuild
  have hafter : Held plan kernels (afterCalls plan kernels device wanted stopAfter calls built) :=
    afterCalls_keeps (fun call hcall => keeps_run (Held.lasting hplan) hplan (fun _ _ hr => hr.release _)
      fun _ hr => hr.start hplan (hcalls call hcall)) hheld
  have hbeyond : Beyond plan built (afterCalls plan kernels device wanted stopAfter calls built) :=
    afterCalls_keeps (fun call _ => keeps_run Beyond.lasting hplan (fun _ _ hr => ⟨hr.hosts, hr.done⟩)
      fun _ hr => hr.start call) ⟨fun _ hhost => hhost, fun _ _ _ _ _ hdone => hdone⟩
  refine (hafter.twin hplan hinputs hheld hfresh hbeyond hsteady).run hplan ?_
  rintro i hwithin k stmt y hstmt ⟨hcache, hhost, hbuilt⟩ hlt
  exact hsteady.hosts hcache k stmt y hstmt hhost hbuilt i hlt hwithin

/-- The plan of the layer, with all islands. -/
def layerPlan (cache : Bool) : Plan ℕ :=
  ⟨layerProgram, ⟨true, true, true⟩, true, cache, 8, ⟨[(3, 7)], [8], [9]⟩, []⟩

/-- With the constant cache on, the second call on the layer gives what the first one gives. -/
theorem run_eq_first_oneLayer :
    Same (run (layerPlan true) (layerKernels true) (direct layerDevice) layerInputs [25] 25
        (afterCalls (layerPlan true) (layerKernels true) layerDevice [25] 25 [layerInputs]
          (Runner.blank layerProgram true))).1
      (run (layerPlan true) (layerKernels true) (direct layerDevice) layerInputs [25] 25
        (Runner.blank layerProgram true)).1 := by
  have hsingle : SingleAssignment layerProgram (layerInputs.map Prod.fst) := by decide
  have harities : Arities layerProgram := by decide
  have hbuild : build (layerKernels true) (direct layerDevice) layerProgram ⟨⟨true, true, true⟩, true, true, 8⟩
      (Runner.blank layerProgram true) = (.ok (layerPlan true), Runner.blank layerProgram true) := rfl
  have hdeclared : ∀ pair ∈ layerInputs, pair.1 ∈ layerInputs.map Prod.fst := by decide
  have hcached : (afterCalls (layerPlan true) (layerKernels true) layerDevice [25] 25 [layerInputs]
      (Runner.blank layerProgram true)).constValues ≠ [] := by decide +kernel
  have hsilu : (afterCalls (layerPlan true) (layerKernels true) layerDevice [25] 25 [layerInputs]
      (Runner.blank layerProgram true)).siluDone 4 = true := by decide +kernel
  have hsilus : (layerPlan true).silus = [(2, 4)] := by decide
  have hsteady : Steady (layerPlan true) (layerKernels true) layerDevice layerInputs 25 (Runner.blank layerProgram true)
      (afterCalls (layerPlan true) (layerKernels true) layerDevice [25] 25 [layerInputs]
        (Runner.blank layerProgram true)) := by
    refine ⟨fun _ hempty => absurd hempty hcached, fun _ k _ _ _ _ => ?_, fun hcache => absurd hcache (by decide),
      fun linear silu hpair hundone => ?_⟩
    · rcases k with _ | _ | k <;> rfl
    · rw [hsilus, List.mem_singleton] at hpair
      obtain ⟨rfl, rfl⟩ := Prod.mk.inj hpair
      rw [hsilu] at hundone
      cases hundone
  -- with a plan that is not known, the elaborator has no calls to evaluate
  generalize layerPlan true = plan at hbuild hsteady ⊢
  exact run_eq_first hsingle harities hbuild (List.forall_mem_singleton.mpr hdeclared) hdeclared hsteady

/-- With the cache off, the second call gives the content matmul a scale made from the host data that the first call
left. -/
theorem run_reads_host : SingleAssignment layerProgram (layerInputs.map Prod.fst) ∧ Arities layerProgram ∧
    build (layerKernels true) (direct layerDevice) layerProgram layerOptions
      (Runner.blank layerProgram layerOptions.chain) = (.ok (layerPlan false), Runner.blank layerProgram true) ∧
    (run (layerPlan false) (layerKernels true) (direct layerDevice) layerInputs [25] 25
      (Runner.blank layerProgram true)).1 = .ok [(25, 306867585024)] ∧
    (run (layerPlan false) (layerKernels true) (direct layerDevice) layerInputs [25] 25
      (afterCalls (layerPlan false) (layerKernels true) layerDevice [25] 25 [layerInputs]
        (Runner.blank layerProgram true))).1 = .ok [(25, 306942526737)] ∧
    ¬ Same (run (layerPlan false) (layerKernels true) (direct layerDevice) layerInputs [25] 25
        (afterCalls (layerPlan false) (layerKernels true) layerDevice [25] 25 [layerInputs]
          (Runner.blank layerProgram true))).1
      (run (layerPlan false) (layerKernels true) (direct layerDevice) layerInputs [25] 25
        (Runner.blank layerProgram true)).1 := by
  have hfirst : (run (layerPlan false) (layerKernels true) (direct layerDevice) layerInputs [25] 25
      (Runner.blank layerProgram true)).1 = .ok [(25, 306867585024)] := by decide +kernel
  have hsecond : (run (layerPlan false) (layerKernels true) (direct layerDevice) layerInputs [25] 25
      (afterCalls (layerPlan false) (layerKernels true) layerDevice [25] 25 [layerInputs]
        (Runner.blank layerProgram true))).1 = .ok [(25, 306942526737)] := by decide +kernel
  refine ⟨by decide, by decide, rfl, hfirst, hsecond, fun hsame => ?_⟩
  rw [hfirst, hsecond] at hsame
  change [(25, (306942526737 : ℤ))] = [(25, 306867585024)] at hsame
  exact absurd hsame (by decide)

end Calls

end AneLinux.Encoder
