import AneLinux.Encoder.Needs
import AneLinux.Encoder.PipelineRun

/-!
# What holds of the tables during a pass

The value table of a pass holds final values: what executing the statements in order gives. There are two exceptions.
A linear whose silu was computed with it has the value of the silu, which nothing but the silu reads. And when the
linear could not take the fused kernel, its own value stands under the name of the silu until the silu runs. A constant
that was read while the runner was built has its host data from the start, without its array.

`PassInv` says so for a state inside the execution of statement `i`: `busy` are the statements in progress, and
`waiting` the silus that are about to run because their linear just ran for them. While a linear is in progress, its
silu has no value, and nothing that reads the silu gets done.
-/

namespace AneLinux.Encoder

open AneLinux.Support

variable {ν V M : Type} {inputs : List (ν × V)} {x y k silu linear : ℕ} {busy waiting waiting' busy' : ℕ → Prop}
  {s s' : Runner ν V M} {name : ν} {v : V} {stmt : Statement ν}

section Conditions

variable [DecidableEq ν]

/-- A linear that cannot take the fused kernel for its operands. -/
def Declines (program : Program ν) (kernels : Kernels V M) (t : Tables ν V M) (linear : ℕ) : Prop :=
  ∃ stmt vs, program[linear]? = some stmt ∧ stmt.arrays.mapM (t.array kernels) = some vs ∧
    kernels.takesChain linear vs = some false

/-- A statement that a pass up to a name gets to. -/
def Plan.Within (plan : Plan ν) (stopAfter : ν) (i : ℕ) : Prop :=
  ∃ stop, producer plan.program stopAfter = some stop ∧ i ≤ stop

/-- A statement in whose turn others are executed: the pass gets to it, and it is no silu of a linear, which comes
before it. -/
structure Plan.Turn (plan : Plan ν) (stopAfter : ν) (i : ℕ) : Prop where
  within : plan.Within stopAfter i
  noSilu : ∀ linear, (linear, i) ∉ plan.silus

/-- No island pulls a reader forward to a value that is not there yet: no statement between a linear and a silu that it
leaves alone needs the silu, unless one before the linear did; and with the constant cache off, a constant that was
read while the runner was built, and whose array is not the one made from its host data, is read as an array in its
turn. -/
structure OnTime (plan : Plan ν) (kernels : Kernels V M) (t : Tables ν V M) (early : ν → Option M) (stopAfter : ν) :
    Prop where
  silus : ∀ linear silu, (linear, silu) ∈ plan.silus → Declines plan.program kernels t linear →
    (∃ i < linear, Reaches plan i silu) ∨
      ∀ i, linear < i → i < silu → plan.Within stopAfter i → ¬ Reaches plan i silu
  constants : plan.cache = false → ∀ k stmt x v, plan.program[k]? = some stmt → early stmt.name = some x →
    (kernels.literal k).toArray = some v → kernels.ofHost x ≠ some v → ∀ i reader user, i < k →
      plan.Within stopAfter i → Reaches plan i reader → plan.program[reader]? = some user → stmt.name ∉ user.arrays

/-- Nobody has computed this silu since its linear left it alone. -/
def Stale (s : Runner ν V M) (silu : ℕ) : Prop := s.done silu = false ∧ s.siluDone silu = false

/-- A statement that need not be executed any more for the sake of others: it is done, it is a constant, or its linear
is done. -/
def Ready (plan : Plan ν) (s : Runner ν V M) (y : ℕ) : Prop :=
  s.done y = true ∨ (∃ stmt, plan.program[y]? = some stmt ∧ stmt.op = .const) ∨
    ∃ linear, (linear, y) ∈ plan.silus ∧ s.done linear = true

/-- A statement that is no silu of a linear in progress. -/
def Unlocked (plan : Plan ν) (busy : ℕ → Prop) (y : ℕ) : Prop := ∀ linear, (linear, y) ∈ plan.silus → ¬ busy linear

/-- The state of a pass inside the execution of statement `i`. -/
structure PassInv (plan : Plan ν) (kernels : Kernels V M) (t : Tables ν V M) (early : ν → Option M) (i : ℕ)
    (busy waiting : ℕ → Prop) (s : Runner ν V M) : Prop where
  hosts : ∀ name x, s.hosts name = some x → t.hosts name = some x
  values : ∀ name v, s.values name = some v →
    (∀ linear silu, (linear, silu) ∈ plan.silus → producer plan.program name = some linear →
      s.siluDone silu = false) →
    (∀ linear silu, (linear, silu) ∈ plan.silus → producer plan.program name = some silu → ¬ Stale s silu) →
    t.values name = some v
  undone : ∀ name y, producer plan.program name = some y → s.done y = false →
    s.values name = none ∨ ∃ linear, (linear, y) ∈ plan.silus ∧ s.done linear = true
  absent : ∀ name k v x, producer plan.program name = some k → t.values name = some v → s.hosts name = some x →
    s.values name = none →
    (s.done k = true ∧ ∃ last, lastUse plan.program plan.gates name = some last ∧ last < i) ∨
      s.done k = false ∧ plan.cache = false ∧ early name = some x
  due : ∀ y < i, s.done y = true
  begun : ∀ y, busy y → s.done y = true
  paired : plan.placed.a = true → ∀ scores content, (scores, content) ∈ plan.islands.pairs → content < i →
    s.done scores = true
  needs : ∀ x y, s.done x = true → ¬ busy x → Needs plan x y → Ready plan s y ∧ Unlocked plan busy y
  locked : ∀ name silu, producer plan.program name = some silu → ¬ Unlocked plan busy silu → s.values name = none
  order : ∀ linear silu, (linear, silu) ∈ plan.silus → s.done silu = true → s.done linear = true
  fused : ∀ silu, s.siluDone silu = true → ∃ linear, (linear, silu) ∈ plan.silus
  declined : ∀ linear silu, (linear, silu) ∈ plan.silus → s.siluDone silu = false →
    s.done linear = true ∧ ¬ busy linear ∧ Declines plan.program kernels t linear
  window : ∀ linear silu, (linear, silu) ∈ plan.silus → Stale s silu → ¬ waiting silu →
    linear < i ∧ ∀ i' < linear, ¬ Reaches plan i' silu

end Conditions

section Changing

variable [DecidableEq ν] {plan : Plan ν} {kernels : Kernels V M} {t : Tables ν V M} {early : ν → Option M} {i : ℕ}

omit [DecidableEq ν] in
theorem Runner.begin_done : (s.begin x).done y = true ↔ y = x ∨ s.done y = true := by
  by_cases hy : y = x
  · subst hy
    simp [Runner.begin]
  · simp [Runner.begin, hy]

omit [DecidableEq ν] in
theorem Runner.begin_not_done : (s.begin x).done y = false ↔ y ≠ x ∧ s.done y = false := by
  by_cases hy : y = x
  · subst hy
    simp [Runner.begin]
  · simp [Runner.begin, hy]

theorem Runner.setValue_values_self (name : ν) (v : V) : (s.setValue name v).values name = some v :=
  Function.update_self ..

theorem Runner.setValue_values_of_ne {other : ν} (v : V) (h : other ≠ name) :
    (s.setValue name v).values other = s.values other :=
  Function.update_of_ne h ..

/-- What was ready stays ready. -/
theorem Ready.mono (h : Ready plan s y) (hdone : ∀ z, s.done z = true → s'.done z = true) : Ready plan s' y := by
  rcases h with hy | hconstant | ⟨linear, hpair, hlinear⟩
  · exact Or.inl (hdone y hy)
  · exact Or.inr (Or.inl hconstant)
  · exact Or.inr (Or.inr ⟨linear, hpair, hdone linear hlinear⟩)

/-- More statements may wait. -/
theorem PassInv.weaken (h : PassInv plan kernels t early i busy waiting s)
    (hle : ∀ silu, waiting silu → waiting' silu) :
    PassInv plan kernels t early i busy waiting' s :=
  { h with window := fun linear silu hpair hstale hnot =>
             h.window linear silu hpair hstale fun hw => hnot (hle silu hw) }

/-- A silu that has run waits no longer. -/
theorem PassInv.settled (h : PassInv plan kernels t early i busy waiting s)
    (hdone : ∀ silu, waiting silu → s.done silu = true) :
    PassInv plan kernels t early i busy (fun _ => False) s := by
  refine { h with window := fun linear silu hpair hstale _ => h.window linear silu hpair hstale fun hw => ?_ }
  have hnot := hstale.1
  rw [hdone silu hw] at hnot
  cases hnot

/-- What is unlocked stays so with fewer busy. -/
theorem Unlocked.mono (h : Unlocked plan busy' y) (hle : ∀ z, busy z → busy' z) :
    Unlocked plan busy y := fun linear hpair hbusy => h linear hpair (hle linear hbusy)

/-- A statement is over when what it needs is ready. -/
theorem PassInv.finish (h : PassInv plan kernels t early i (fun y => busy y ∨ y = x) waiting s)
    (hneeds : ∀ y, Needs plan x y → Ready plan s y ∧ Unlocked plan (fun y => busy y ∨ y = x) y) :
    PassInv plan kernels t early i busy waiting s := by
  refine { h with begun := fun y hy => h.begun y (Or.inl hy), needs := fun z y hdone hfree hneed => ?_,
                  locked := fun name silu hsilu hlocked => h.locked name silu hsilu fun hunlocked =>
                    hlocked (hunlocked.mono fun _ => Or.inl),
                  declined := fun linear silu hpair hsilu => ?_ }
  · have hready : Ready plan s y ∧ Unlocked plan (fun y => busy y ∨ y = x) y := by
      by_cases hz : z = x
      · rw [hz] at hneed
        exact hneeds y hneed
      · exact h.needs z y hdone (fun hbusy => hbusy.elim hfree hz) hneed
    exact ⟨hready.1, hready.2.mono fun _ => Or.inl⟩
  · obtain ⟨hdone, hfree, hdeclines⟩ := h.declined linear silu hpair hsilu
    exact ⟨hdone, fun hbusy => hfree (Or.inl hbusy), hdeclines⟩

/-- A result is written where it belongs. -/
theorem PassInv.setValue (h : PassInv plan kernels t early i busy waiting s)
    (hproducer : producer plan.program name = some k) (hdone : s.done k = true) (hunlocked : Unlocked plan busy k)
    (hvalue : (∀ linear silu, (linear, silu) ∈ plan.silus → producer plan.program name = some linear →
      s.siluDone silu = false) → t.values name = some v) :
    PassInv plan kernels t early i busy waiting (s.setValue name v) := by
  refine { h with values := fun other w hother hlinear hstale => ?_, undone := fun other y hy hnot => ?_,
                  absent := fun other k' w x hk' hw hx hnone => ?_, locked := fun other silu hsilu hlocked => ?_ }
  · by_cases heq : other = name
    · subst heq
      rw [Runner.setValue_values_self] at hother
      rw [← Option.some.inj hother]
      exact hvalue hlinear
    · rw [Runner.setValue_values_of_ne v heq] at hother
      exact h.values other w hother hlinear hstale
  · by_cases heq : other = name
    · subst heq
      obtain rfl := Option.mem_unique hproducer hy
      exact absurd (hdone.symm.trans hnot) (by decide)
    · rw [Runner.setValue_values_of_ne v heq]
      exact h.undone other y hy hnot
  · by_cases heq : other = name
    · subst heq
      rw [Runner.setValue_values_self] at hnone
      cases hnone
    · rw [Runner.setValue_values_of_ne v heq] at hnone
      exact h.absent other k' w x hk' hw hx hnone
  · by_cases heq : other = name
    · subst heq
      obtain rfl := Option.mem_unique hproducer hsilu
      exact absurd hunlocked hlocked
    · rw [Runner.setValue_values_of_ne v heq]
      exact h.locked other silu hsilu hlocked

variable (hsolves : Solves kernels plan.program inputs t)

/-- One more statement is marked done, and at most what it produces changes in the tables. -/
structure Advanced (plan : Plan ν) (x : ℕ) (busy busy' : ℕ → Prop) (s s' : Runner ν V M) : Prop where
  stays : ∀ y, busy y → busy' y
  starts : ∀ y, busy' y → busy y ∨ y = x
  done : ∀ y, s'.done y = (s.begin x).done y
  siluDone : s'.siluDone = s.siluDone
  other : ∀ name, producer plan.program name ≠ some x →
    s'.values name = s.values name ∧ s'.hosts name = s.hosts name
  fresh : ∀ silu, (x, silu) ∈ plan.silus → s.done x = false

namespace Advanced

variable (ha : Advanced plan x busy busy' s s')

include ha

/-- What is done then: the statement, and what was done before. -/
theorem done_iff : s'.done y = true ↔ y = x ∨ s.done y = true := by rw [ha.done, Runner.begin_done]

/-- What is not done then was not done before. -/
theorem undone_iff : s'.done y = false ↔ y ≠ x ∧ s.done y = false := by rw [ha.done, Runner.begin_not_done]

/-- What was done stays done. -/
theorem kept (y : ℕ) (hy : s.done y = true) : s'.done y = true := ha.done_iff.mpr (Or.inr hy)

/-- A silu that is stale then was stale before. -/
theorem stale_iff : Stale s' silu ↔ silu ≠ x ∧ Stale s silu := by
  unfold Stale
  rw [ha.undone_iff, ha.siluDone, and_assoc]

/-- A silu of the statement was not ready before: neither it nor its linear had run. -/
theorem not_ready (h : PassInv plan kernels t early i busy waiting s) (hplan : plan.Formed (inputs.map Prod.fst))
    (hpair : (x, silu) ∈ plan.silus) : ¬ Ready plan s silu := by
  intro hready
  have hnot := ha.fresh silu hpair
  rcases hready with hsilu | ⟨stmt, hstmt, hop⟩ | ⟨linear, hmem, hl⟩
  · rw [h.order x silu hpair hsilu] at hnot
    cases hnot
  · exact hplan.not_silu hstmt (by rw [hop]; decide) x hpair
  · rw [hplan.unique_linear hpair hmem, hnot] at hl
    cases hl

/-- What was ready and waited for no linear in progress waits for none now. -/
theorem unlocked (h : PassInv plan kernels t early i busy waiting s) (hplan : plan.Formed (inputs.map Prod.fst))
    (hready : Ready plan s y) (hy : Unlocked plan busy y) : Unlocked plan busy' y := by
  intro linear hpair hb
  rcases ha.starts linear hb with hb | rfl
  · exact hy linear hpair hb
  · exact ha.not_ready h hplan hpair hready

/-- The values of other statements are still final ones. -/
theorem values (h : PassInv plan kernels t early i busy waiting s) (hx : producer plan.program name ≠ some x)
    (hv : s'.values name = some v)
    (hl : ∀ linear silu, (linear, silu) ∈ plan.silus → producer plan.program name = some linear →
      s'.siluDone silu = false)
    (hold : ∀ linear silu, (linear, silu) ∈ plan.silus → producer plan.program name = some silu → ¬ Stale s' silu) :
    t.values name = some v := by
  rw [(ha.other name hx).1] at hv
  rw [ha.siluDone] at hl
  refine h.values name v hv hl fun linear silu hpair hproducer hs => ?_
  refine hold linear silu hpair hproducer (ha.stale_iff.mpr ⟨?_, hs⟩)
  rintro rfl
  exact hx hproducer

/-- A statement that is not done has no value, or its linear is done. -/
theorem undone (h : PassInv plan kernels t early i busy waiting s) (hproducer : producer plan.program name = some y)
    (hy : s'.done y = false) : s'.values name = none ∨ ∃ linear, (linear, y) ∈ plan.silus ∧ s'.done linear = true := by
  obtain ⟨hyx, hy⟩ := ha.undone_iff.mp hy
  have hx : producer plan.program name ≠ some x := by
    rw [hproducer]
    exact fun heq => hyx (Option.some.inj heq)
  rw [(ha.other name hx).1]
  exact (h.undone name y hproducer hy).imp_right fun ⟨linear, hpair, hl⟩ => ⟨linear, hpair, ha.kept linear hl⟩

/-- Where a value of another statement is missing, there is the reason that there was. -/
theorem absent (h : PassInv plan kernels t early i busy waiting s) {y : M} (hk : producer plan.program name = some k)
    (hx : producer plan.program name ≠ some x) (hv : t.values name = some v) (hy : s'.hosts name = some y)
    (hnone : s'.values name = none) :
    (s'.done k = true ∧ ∃ last, lastUse plan.program plan.gates name = some last ∧ last < i) ∨
      s'.done k = false ∧ plan.cache = false ∧ early name = some y := by
  rw [(ha.other name hx).1] at hnone
  rw [(ha.other name hx).2] at hy
  have hkx : k ≠ x := by
    rintro rfl
    exact hx hk
  exact (h.absent name k v y hk hv hy hnone).imp (fun ⟨hdone, hlast⟩ => ⟨ha.kept k hdone, hlast⟩)
    fun ⟨hdone, hearly⟩ => ⟨ha.undone_iff.mpr ⟨hkx, hdone⟩, hearly⟩

/-- A silu other than the statement that waits for a linear in progress has no value. -/
theorem locked (h : PassInv plan kernels t early i busy waiting s) (hplan : plan.Formed (inputs.map Prod.fst))
    (hsilu : producer plan.program name = some silu) (hx : silu ≠ x) (hl : ¬ Unlocked plan busy' silu) :
    s'.values name = none := by
  have hname : producer plan.program name ≠ some x := by
    rw [hsilu]
    exact fun heq => hx (Option.some.inj heq)
  rw [(ha.other name hname).1]
  by_cases hold : Unlocked plan busy silu
  · have hready : ¬ Ready plan s silu := fun hready => hl (ha.unlocked h hplan hready hold)
    have hundone : s.done silu = false := by
      rw [← Bool.not_eq_true]
      exact fun hdone => hready (Or.inl hdone)
    exact (h.undone name silu hsilu hundone).resolve_right fun hlinear => hready (Or.inr (Or.inr hlinear))
  · exact h.locked name silu hsilu hold

/-- The linear of a silu that was left alone is over. -/
theorem declined (h : PassInv plan kernels t early i busy waiting s) (hpair : (linear, silu) ∈ plan.silus)
    (hsilu : s'.siluDone silu = false) :
    s'.done linear = true ∧ ¬ busy' linear ∧ Declines plan.program kernels t linear := by
  rw [ha.siluDone] at hsilu
  obtain ⟨hl, hfree, hdeclines⟩ := h.declined linear silu hpair hsilu
  refine ⟨ha.kept linear hl, fun hb => ?_, hdeclines⟩
  rcases ha.starts linear hb with hb | heq
  · exact hfree hb
  · rw [heq] at hpair hl
    rw [ha.fresh silu hpair] at hl
    cases hl

end Advanced

/-- The invariant is kept when a statement is marked done that writes final values, if anything, and that runs after
its linear and after what it needs. -/
theorem PassInv.advance (h : PassInv plan kernels t early i busy (fun y => y = x) s)
    (hplan : plan.Formed (inputs.map Prod.fst)) (ha : Advanced plan x busy busy' s s')
    (hhosts : ∀ name y, producer plan.program name = some x → s'.hosts name = some y → t.hosts name = some y)
    (hvalues : ∀ name v, producer plan.program name = some x → s'.values name = some v →
      (∀ linear silu, (linear, silu) ∈ plan.silus → producer plan.program name = some linear → s.siluDone silu =
        false) → t.values name = some v)
    (habsent : ∀ name v y, producer plan.program name = some x → t.values name = some v → s'.hosts name = some y →
      s'.values name ≠ none)
    (hneeds : busy' x ∨ ∀ y, Needs plan x y → Ready plan s' y ∧ Unlocked plan busy' y)
    (hlinear : ∀ linear, (linear, x) ∈ plan.silus → s.done linear = true)
    (hlocked : ¬ Unlocked plan busy x → ∀ name, producer plan.program name = some x → s'.values name = none) :
    PassInv plan kernels t early i busy' (fun _ => False) s' where
  hosts := fun name y hy => by
    by_cases hx : producer plan.program name = some x
    · exact hhosts name y hx hy
    · rw [(ha.other name hx).2] at hy
      exact h.hosts name y hy
  values := fun name v hv hl hold => by
    by_cases hx : producer plan.program name = some x
    · exact hvalues name v hx hv (ha.siluDone ▸ hl)
    · exact ha.values h hx hv hl hold
  undone := fun _ _ hproducer hy => ha.undone h hproducer hy
  absent := fun name k v y hk hv hy hnone => by
    by_cases hx : producer plan.program name = some x
    · exact absurd hnone (habsent name v y hx hv hy)
    · exact ha.absent h hk hx hv hy hnone
  due := fun y hy => ha.kept y (h.due y hy)
  begun := fun y hy => by
    rcases ha.starts y hy with hy | hy
    · exact ha.kept y (h.begun y hy)
    · exact ha.done_iff.mpr (Or.inl hy)
  paired := fun hplaced scores content hpair hlt => ha.kept _ (h.paired hplaced _ _ hpair hlt)
  needs := fun z y hz hfree hneed => by
    rcases ha.done_iff.mp hz with rfl | hz
    · exact hneeds.resolve_left hfree y hneed
    · obtain ⟨hready, hy⟩ := h.needs z y hz (fun hb => hfree (ha.stays z hb)) hneed
      exact ⟨hready.mono ha.kept, ha.unlocked h hplan hready hy⟩
  locked := fun name silu hsilu hl => by
    by_cases hx : silu = x
    · rw [hx] at hsilu hl
      refine hlocked (fun hold => hl fun linear hpair hb => ?_) name hsilu
      rcases ha.starts linear hb with hb | heq
      · exact hold linear hpair hb
      · rw [heq] at hpair
        exact absurd (hplan.linear_lt hpair) (Nat.lt_irrefl x)
    · exact ha.locked h hplan hsilu hx hl
  order := fun linear silu hpair hsilu => by
    rcases ha.done_iff.mp hsilu with heq | hsilu
    · rw [heq] at hpair
      exact ha.kept linear (hlinear linear hpair)
    · exact ha.kept linear (h.order linear silu hpair hsilu)
  fused := fun silu hsilu => h.fused silu (ha.siluDone ▸ hsilu)
  declined := fun _ _ hpair hsilu => ha.declined h hpair hsilu
  window := fun linear silu hpair hsilu _ => by
    obtain ⟨hne, hs⟩ := ha.stale_iff.mp hsilu
    exact h.window linear silu hpair hs hne

include hsolves in
/-- A statement that is no constant and no fused silu begins. -/
theorem PassInv.begin (h : PassInv plan kernels t early i busy (fun y => y = x) s)
    (hplan : plan.Formed (inputs.map Prod.fst)) (hconstant : ∀ stmt, plan.program[x]? = some stmt → stmt.op ≠ .const)
    (hsilu : ∀ linear, (linear, x) ∉ plan.silus)
    (hfresh : ∀ silu, (x, silu) ∈ plan.silus → s.done x = false) :
    PassInv plan kernels t early i (fun y => busy y ∨ y = x) (fun _ => False) (s.begin x) := by
  refine h.advance hplan ⟨fun _ hy => Or.inl hy, fun _ hy => hy, fun _ => rfl, rfl, fun _ _ => ⟨rfl, rfl⟩, hfresh⟩
    (fun name y _ hy => h.hosts name y hy) (fun name v hx hv hl => ?_) (fun name v y hx _ hy _ => ?_)
    (Or.inl (Or.inr rfl)) (fun linear hpair => absurd hpair (hsilu linear)) fun hlocked =>
      absurd (fun linear hpair => absurd hpair (hsilu linear)) hlocked
  · refine h.values name v hv hl fun linear silu hpair hproducer _ => ?_
    obtain rfl := Option.mem_unique hx hproducer
    exact hsilu linear hpair
  · obtain ⟨k, stmt, hk, hstmt, hop, -⟩ := hsolves.constant_of_host (h.hosts name y hy)
    obtain rfl := Option.mem_unique hx hk
    exact hconstant stmt hstmt hop

include hsolves in
/-- A fused silu begins: its linear is done, and a stale value is gone. -/
theorem PassInv.beginSilu (h : PassInv plan kernels t early i busy (fun y => y = x) s)
    (hplan : plan.Formed (inputs.map Prod.fst)) (hpair : (linear, x) ∈ plan.silus) (hlinear : s.done linear = true)
    (hvalue : Stale s x → ∀ name v, producer plan.program name = some x → s.values name = some v →
      t.values name = some v) :
    PassInv plan kernels t early i busy (fun _ => False) (s.begin x) := by
  obtain ⟨user, reader, hp⟩ := hplan.arities.siluPair hpair
  have hfresh (silu : ℕ) (hmem : (x, silu) ∈ plan.silus) : s.done x = false :=
    absurd hmem (hplan.not_linear hp.siluAt (by rw [hp.isSilu]; decide) silu)
  refine h.advance hplan ⟨fun _ hy => hy, fun _ hy => Or.inl hy, fun _ => rfl, rfl, fun _ _ => ⟨rfl, rfl⟩, hfresh⟩
    (fun name y _ hy => h.hosts name y hy) (fun name v hx hv hl => ?_) (fun name v y hx _ hy _ => ?_)
    (Or.inr fun y hneed => ?_) (fun other hmem => ?_) fun hlocked name hx => h.locked name x hx hlocked
  · by_cases hstale : Stale s x
    · exact hvalue hstale name v hx hv
    · refine h.values name v hv hl fun other silu _ hproducer => ?_
      obtain rfl := Option.mem_unique hx hproducer
      exact hstale
  · obtain ⟨k, stmt, hk, hstmt, hop, -⟩ := hsolves.constant_of_host (h.hosts name y hy)
    obtain rfl := Option.mem_unique hx hk
    obtain rfl := Option.mem_unique hstmt hp.siluAt
    have hsilu := hp.isSilu
    rw [hop] at hsilu
    cases hsilu
  · rw [hplan.silu_needs_linear hpair hneed]
    refine ⟨Or.inl (Runner.begin_done.mpr (Or.inr hlinear)), fun other hmem => ?_⟩
    exact absurd hmem (hplan.not_silu hp.linearAt (by rw [hp.isLinear]; decide) other)
  · rw [hplan.unique_linear hpair hmem]
    exact hlinear

/-- A constant is over as soon as it is executed: its array and its host data are the final ones. -/
theorem PassInv.constant (h : PassInv plan kernels t early i busy (fun y => y = x) s)
    (hplan : plan.Formed (inputs.map Prod.fst)) (hstmt : plan.program[x]? = some stmt) (hop : stmt.op = .const)
    (hdone : ∀ y, s'.done y = (s.begin x).done y) (hsilus : s'.siluDone = s.siluDone)
    (hother : ∀ name, name ≠ stmt.name → s'.values name = s.values name ∧ s'.hosts name = s.hosts name)
    (hvalue : s'.values stmt.name = t.values stmt.name)
    (hhost : ∀ y, s'.hosts stmt.name = some y → t.hosts stmt.name = some y) :
    PassInv plan kernels t early i busy (fun _ => False) s' := by
  have hproducer := hplan.single.producer_eq hstmt List.mem_cons_self
  have hsingle {name : ν} (hname : producer plan.program name = some x) : name = stmt.name :=
    hplan.arities.eq_name hname hstmt (by rw [hop]; decide)
  have hadvanced : Advanced plan x busy busy s s' := by
    refine ⟨fun _ hy => hy, fun _ hy => Or.inl hy, hdone, hsilus, fun name hx => hother name ?_,
      fun silu hpair => absurd hpair (hplan.not_linear hstmt (by rw [hop]; decide) silu)⟩
    rintro rfl
    exact hx hproducer
  refine h.advance hplan hadvanced (fun name y hx hy => ?_) (fun name v hx hv _ => ?_) (fun name v y hx hv _ => ?_)
    (Or.inr fun y hneed => absurd hneed (hplan.constant_needs_nothing hstmt hop))
    (fun linear hpair => absurd hpair (hplan.not_silu hstmt (by rw [hop]; decide) linear)) fun hlocked =>
      absurd (fun linear hpair => absurd hpair (hplan.not_silu hstmt (by rw [hop]; decide) linear)) hlocked
  · obtain rfl := hsingle hx
    exact hhost y hy
  · obtain rfl := hsingle hx
    rw [← hvalue, hv]
  · obtain rfl := hsingle hx
    rw [hvalue, hv]
    exact Option.some_ne_none v

/-- The name of a silu is written for its linear. -/
theorem PassInv.setSilu (h : PassInv plan kernels t early i busy waiting s) (hplan : plan.Formed (inputs.map Prod.fst))
    (hpair : (linear, silu) ∈ plan.silus) {reader : Statement ν} (hreader : plan.program[silu]? = some reader)
    (hlinear : s.done linear = true) (hfree : ¬ busy linear) (hvalue : ¬ Stale s silu → t.values reader.name = some v) :
    PassInv plan kernels t early i busy waiting (s.setValue reader.name v) := by
  have hproducer := hplan.single.producer_eq hreader List.mem_cons_self
  refine { h with values := fun other w hother hl hstale => ?_, undone := fun other y hy hnot => ?_,
                  absent := fun other k w x hk hw hx hnone => ?_, locked := fun other other' hsilu hlocked => ?_ }
  · by_cases heq : other = reader.name
    · subst heq
      rw [Runner.setValue_values_self] at hother
      rw [← Option.some.inj hother]
      exact hvalue (hstale linear silu hpair hproducer)
    · rw [Runner.setValue_values_of_ne v heq] at hother
      exact h.values other w hother hl hstale
  · by_cases heq : other = reader.name
    · subst heq
      obtain rfl := Option.mem_unique hproducer hy
      exact Or.inr ⟨linear, hpair, hlinear⟩
    · rw [Runner.setValue_values_of_ne v heq]
      exact h.undone other y hy hnot
  · by_cases heq : other = reader.name
    · subst heq
      rw [Runner.setValue_values_self] at hnone
      cases hnone
    · rw [Runner.setValue_values_of_ne v heq] at hnone
      exact h.absent other k w x hk hw hx hnone
  · by_cases heq : other = reader.name
    · subst heq
      obtain rfl := Option.mem_unique hproducer hsilu
      refine absurd (fun linear' hmem => ?_) hlocked
      rwa [hplan.unique_linear hpair hmem]
    · rw [Runner.setValue_values_of_ne v heq]
      exact h.locked other other' hsilu hlocked

/-- A linear that the fused kernel did not take leaves its silu alone. -/
theorem PassInv.discard (h : PassInv plan kernels t early i busy (fun _ => False) s)
    (hplan : plan.Formed (inputs.map Prod.fst)) (hpair : (x, silu) ∈ plan.silus) (hfree : ¬ busy x)
    (hdone : s.done x = true) (hdeclines : Declines plan.program kernels t x)
    (hvalue : ∀ name v, producer plan.program name = some x → s.values name = some v → t.values name = some v) :
    PassInv plan kernels t early i busy (fun other => (x, other) ∈ plan.silus) (s.discard silu) := by
  have hsiluDone {other : ℕ} (hother : other ≠ silu) : (s.discard silu).siluDone other = s.siluDone other :=
    Function.update_of_ne hother ..
  have hsilu' : (s.discard silu).siluDone silu = false := Function.update_self ..
  refine { h with values := fun name v hv hl hstale => ?_, fused := fun other hother => ?_,
                  declined := fun linear other hmem hnot => ?_, window := fun linear other hmem hstale hwaiting => ?_ }
  · by_cases hx : producer plan.program name = some x
    · exact hvalue name v hx hv
    · refine h.values name v hv (fun linear other hmem hproducer => ?_) fun linear other hmem hproducer hold => ?_
      · have hne : other ≠ silu := by
          rintro rfl
          rw [hplan.unique_linear hpair hmem] at hproducer
          exact hx hproducer
        rw [← hsiluDone hne]
        exact hl linear other hmem hproducer
      · refine hstale linear other hmem hproducer ⟨hold.1, ?_⟩
        by_cases hne : other = silu
        · rw [hne]
          exact hsilu'
        · rw [hsiluDone hne]
          exact hold.2
  · by_cases hne : other = silu
    · rw [hne]
      exact ⟨x, hpair⟩
    · rw [hsiluDone hne] at hother
      exact h.fused other hother
  · by_cases hne : other = silu
    · rw [hne] at hmem
      rw [hplan.unique_linear hpair hmem]
      exact ⟨hdone, hfree, hdeclines⟩
    · rw [hsiluDone hne] at hnot
      exact h.declined linear other hmem hnot
  · have hne : other ≠ silu := by
      rintro rfl
      exact hwaiting hpair
    refine h.window linear other hmem ⟨hstale.1, ?_⟩ fun hfalse => hfalse
    rw [← hsiluDone hne]
    exact hstale.2

include hsolves in
/-- The producer of a name that is in one of the tables is ready. -/
theorem PassInv.ready_of_has (h : PassInv plan kernels t early i busy waiting s)
    (hproducer : producer plan.program name = some y) (hhas : s.has name = true) : Ready plan s y := by
  by_cases hdone : s.done y = true
  · exact Or.inl hdone
  rw [Bool.not_eq_true] at hdone
  rw [Runner.has, Bool.or_eq_true] at hhas
  rcases hhas with hvalue | hhost
  · rcases h.undone name y hproducer hdone with hnone | hlinear
    · rw [hnone] at hvalue
      cases hvalue
    · exact Or.inr (Or.inr hlinear)
  · obtain ⟨x, hx⟩ := Option.isSome_iff_exists.mp hhost
    obtain ⟨k, stmt, hk, hstmt, hop, -⟩ := hsolves.constant_of_host (h.hosts name x hx)
    obtain rfl := Option.mem_unique hproducer hk
    exact Or.inr (Or.inl ⟨stmt, hstmt, hop⟩)

end Changing

section Reading

open Attempt Direct

variable [DecidableEq ν]

/-- A state after a part of a pass that belongs to a statement: what became done there is needed by it, and waits for
no linear in progress. -/
structure After (plan : Plan ν) (kernels : Kernels V M) (t : Tables ν V M) (early : ν → Option M) (i : ℕ)
    (busy waiting : ℕ → Prop) (root : ℕ) (s s' : Runner ν V M) : Prop where
  inv : PassInv plan kernels t early i busy waiting s'
  kept : ∀ y, s.done y = true → s'.done y = true
  grown : ∀ y, s'.done y = true → s.done y = true ∨ Reaches plan root y ∧ (y = root ∨ Unlocked plan busy y)

/-- What is ready for a name: its producer, if it has one. -/
def Available (plan : Plan ν) (s : Runner ν V M) (name : ν) : Prop :=
  ∀ y, producer plan.program name = some y → Ready plan s y

/-- A name that waits for no linear in progress. -/
def Free (plan : Plan ν) (busy : ℕ → Prop) (name : ν) : Prop :=
  ∀ y, producer plan.program name = some y → Unlocked plan busy y

/-- The operands of a statement are ready. -/
def Served (plan : Plan ν) (busy : ℕ → Prop) (s : Runner ν V M) (stmt : Statement ν) : Prop :=
  ∀ name ∈ stmt.arrays ++ stmt.hosts, Available plan s name ∧ Free plan busy name

/-- All that a statement needs is ready. -/
def Fed (plan : Plan ν) (busy : ℕ → Prop) (s : Runner ν V M) (x : ℕ) : Prop :=
  ∀ y, Needs plan x y → Ready plan s y ∧ Unlocked plan busy y

/-- A name that statement `root` needs, and that no fused linear produces. -/
structure Needed (plan : Plan ν) (root : ℕ) (name : ν) : Prop where
  reached : ∀ y, producer plan.program name = some y → Reaches plan root y
  plain : ∀ linear silu, (linear, silu) ∈ plan.silus → producer plan.program name ≠ some linear

/-- A name that is read as an array for statement `root` during statement `i`. -/
structure NeededArray (plan : Plan ν) (i root : ℕ) (name : ν) : Prop extends Needed plan root name where
  reader : ∃ x stmt, Reaches plan i x ∧ plan.program[x]? = some stmt ∧ name ∈ stmt.arrays
  live : ∀ y last, producer plan.program name = some y → lastUse plan.program plan.gates name = some last → i ≤ last

variable (plan : Plan ν) (kernels : Kernels V M) (t : Tables ν V M) (early : ν → Option M) (i : ℕ)

/-- What `ensure` does for a name: its producer is ready afterwards. -/
def Ensures (ensure : ν → Pass Id ν V M Unit) : Prop :=
  ∀ (root : ℕ) (busy : ℕ → Prop) (name : ν) (s s' : Runner ν V M),
    PassInv plan kernels t early i busy (fun _ => False) s →
    (∀ y, producer plan.program name = some y → y = root ∧ Reaches plan i root) → ensure name s = (.ok (), s') →
    After plan kernels t early i busy
        (fun silu => ∃ linear, (linear, silu) ∈ plan.silus ∧ producer plan.program name = some linear) root s s' ∧
      Available plan s' name

variable {plan kernels t early i} {root : ℕ} {s'' : Runner ν V M}

/-- Two parts in a row. -/
theorem After.trans (h : After plan kernels t early i busy waiting root s s')
    (h' : After plan kernels t early i busy waiting' root s' s'') :
    After plan kernels t early i busy waiting' root s s'' := by
  refine ⟨h'.inv, fun y hy => h'.kept y (h.kept y hy), fun y hy => ?_⟩
  rcases h'.grown y hy with hold | hreach
  · exact h.grown y hold
  · exact Or.inr hreach

theorem After.refl (h : PassInv plan kernels t early i busy waiting s) :
    After plan kernels t early i busy waiting root s s := ⟨h, fun _ hy => hy, fun _ hy => Or.inl hy⟩

/-- What a statement needs, another one that needs it needs, too. -/
theorem After.reroot (h : After plan kernels t early i busy waiting x s s') (hreach : Reaches plan root x)
    (hunlocked : Unlocked plan busy x) : After plan kernels t early i busy waiting root s s' := by
  refine ⟨h.inv, h.kept, fun y hy => ?_⟩
  rcases h.grown y hy with hold | ⟨hneed, rfl | hfree⟩
  · exact Or.inl hold
  · exact Or.inr ⟨hreach, Or.inr hunlocked⟩
  · exact Or.inr ⟨hreach.trans hneed, Or.inr hfree⟩

/-- A statement that is fed is no longer under way. -/
theorem After.finish (h : After plan kernels t early i (fun y => busy y ∨ y = x) waiting root s s')
    (hfed : Fed plan (fun y => busy y ∨ y = x) s' x) : After plan kernels t early i busy waiting root s s' := by
  refine ⟨h.inv.finish hfed, h.kept, fun y hy => ?_⟩
  rcases h.grown y hy with hold | ⟨hneed, rfl | hfree⟩
  · exact Or.inl hold
  · exact Or.inr ⟨hneed, Or.inl rfl⟩
  · exact Or.inr ⟨hneed, Or.inr (hfree.mono fun _ => Or.inl)⟩

theorem Available.mono (h : Available plan s name) (hkept : ∀ y, s.done y = true → s'.done y = true) :
    Available plan s' name := fun y hy => (h y hy).mono hkept

theorem Served.mono (h : Served plan busy s stmt) (hkept : ∀ y, s.done y = true → s'.done y = true) :
    Served plan busy s' stmt := fun name hname =>
  ⟨(h name hname).1.mono hkept, (h name hname).2⟩

variable {ensure : ν → Pass Id ν V M Unit} (hensure : Ensures plan kernels t early i ensure)

include hensure in
/-- Ensuring a name that no fused linear produces leaves nothing waiting. -/
theorem Ensures.needed (h : PassInv plan kernels t early i busy (fun _ => False) s) (hroot : Reaches plan i root)
    (hneeded : Needed plan root name) (hrun : ensure name s = (.ok (), s')) :
    PassInv plan kernels t early i busy (fun _ => False) s' ∧ (∀ y, s.done y = true → s'.done y = true) ∧
      Available plan s' name ∧
      (Free plan busy name → After plan kernels t early i busy (fun _ => False) root s s') := by
  cases hproducer : producer plan.program name with
  | none =>
    obtain ⟨hafter, havailable⟩ := hensure root busy name s s' h (fun y hy => by
      rw [hproducer] at hy
      cases hy) hrun
    have hinv : PassInv plan kernels t early i busy (fun _ => False) s' := hafter.inv.weaken fun silu hwaiting => by
      obtain ⟨linear, -, hlinear⟩ := hwaiting
      rw [hproducer] at hlinear
      cases hlinear
    exact ⟨hinv, hafter.kept, havailable, fun _ => ⟨hinv, hafter.kept, hafter.grown⟩⟩
  | some x =>
    have hx := hneeded.reached x hproducer
    obtain ⟨hafter, havailable⟩ := hensure x busy name s s' h
      (fun y hy => ⟨Option.mem_unique hy hproducer, hroot.trans hx⟩) hrun
    have hinv : PassInv plan kernels t early i busy (fun _ => False) s' := hafter.inv.weaken fun silu hwaiting => by
      obtain ⟨linear, hpair, hlinear⟩ := hwaiting
      exact hneeded.plain linear silu hpair hlinear
    exact ⟨hinv, hafter.kept, havailable, fun hfree =>
      After.reroot ⟨hinv, hafter.kept, hafter.grown⟩ hx (hfree x hproducer)⟩

variable {stopAfter : ν} {device : Job V → Except String (ℕ → V)} (hplan : plan.Formed (inputs.map Prod.fst))
  (hsolves : Solves kernels plan.program inputs t) (honTime : OnTime plan kernels t early stopAfter)
  (hturn : plan.Turn stopAfter i)

include honTime hturn in
/-- A silu is not read while it is stale. -/
theorem PassInv.not_stale (h : PassInv plan kernels t early i busy (fun _ => False) s)
    (hname : NeededArray plan i root name) (hpair : (linear, silu) ∈ plan.silus)
    (hproducer : producer plan.program name = some silu) : ¬ Stale s silu := by
  intro hstale
  obtain ⟨x, stmt, hreach, hstmt, hmem⟩ := hname.reader
  have hneeds : Needs plan x silu := .operand hstmt (List.mem_append_left _ hmem) hproducer
  obtain ⟨hlt, hunpulled⟩ := h.window linear silu hpair hstale fun hfalse => hfalse
  obtain ⟨-, -, hdeclines⟩ := h.declined linear silu hpair hstale.2
  have hle : i ≤ silu := by
    by_contra hgt
    have hdone := h.due silu (by omega)
    rw [hstale.1] at hdone
    cases hdone
  rcases honTime.silus linear silu hpair hdeclines with ⟨earlier, hearlier, hpulled⟩ | hlater
  · exact hunpulled earlier hearlier hpulled
  · rcases Nat.lt_or_eq_of_le hle with hbefore | rfl
    · exact hlater i hlt hbefore hturn.within (hreach.tail hneeds)
    · exact hturn.noSilu linear hpair

include hplan hsolves honTime hturn in
/-- A constant is read as an array made from its host data only where that makes no difference. -/
theorem PassInv.ofHost_eq (h : PassInv plan kernels t early i busy waiting s) {name : ν}
    (hname : NeededArray plan i root name) {x : M} (hx : s.hosts name = some x) (hnone : s.values name = none) {w : V}
    (hreal : t.values name = some w) : kernels.ofHost x = some w := by
  obtain ⟨k, stmt, hproducer, hstmt, hop, rfl⟩ := hsolves.constant_of_host (h.hosts name x hx)
  rcases h.absent stmt.name k w x hproducer hreal hx hnone with ⟨-, last, hlast, hlt⟩ | ⟨hdone, hcache, hearly⟩
  · have := hname.live k last hproducer hlast
    omega
  · obtain ⟨reader, user, hreach, huser, hmem⟩ := hname.reader
    have hle : i ≤ k := by
      by_contra hgt
      have hdue := h.due k (by omega)
      rw [hdone] at hdue
      cases hdue
    have harray : (kernels.literal k).toArray = some w := by
      rw [← hsolves.values_constant hstmt hop, hreal]
    rcases Nat.lt_or_eq_of_le hle with hbefore | heq
    · by_contra hne
      exact honTime.constants hcache k stmt x w hstmt hearly harray hne i reader user hbefore hturn.within hreach huser
        hmem
    · rw [heq] at hreach
      rcases Relation.ReflTransGen.cases_head hreach with hself | ⟨next, hneeds, -⟩
      · rw [← hself] at huser
        obtain rfl := Option.mem_unique hstmt huser
        rw [(hplan.arities.constant k stmt hstmt hop).1] at hmem
        cases hmem
      · exact absurd hneeds (hplan.constant_needs_nothing hstmt hop)

include hplan in
/-- A name whose producer is no silu waits for no linear. -/
theorem Plan.Formed.free (hproducer : producer plan.program name = some k) (hstmt : plan.program[k]? = some stmt)
    (hop : stmt.op ≠ .silu) : Free plan busy name := by
  intro y hy linear hpair
  obtain rfl := Option.mem_unique hproducer hy
  exact absurd hpair (hplan.not_silu hstmt hop linear)

include hplan in
/-- What a statement needs is ready when its operands, the other matmul of its island and the operands of that are. -/
theorem Plan.Formed.fed (hstmt : plan.program[x]? = some stmt) (hserved : Served plan busy s stmt)
    (hpartner : ∀ y, plan.placed.a = true → (x, y) ∈ plan.islands.pairs ∨ (y, x) ∈ plan.islands.pairs → s.done y = true)
    (hshared : ∀ content contentStmt, plan.placed.a = true → (x, content) ∈ plan.islands.pairs →
      plan.program[content]? = some contentStmt → Served plan busy s contentStmt) :
    Fed plan busy s x := by
  have hplaces := indexIslands_eq_some hplan.islands
  intro y hneed
  cases hneed with
  | operand hother hname hproducer =>
    obtain rfl := Option.mem_unique hstmt hother
    exact ⟨(hserved _ hname).1 y hproducer, (hserved _ hname).2 y hproducer⟩
  | content hplaced hpair =>
    obtain ⟨other, hother, hop, -⟩ := hplaces.content hpair
    refine ⟨Or.inl (hpartner y hplaced (Or.inl hpair)), fun linear hmem => ?_⟩
    exact absurd hmem (hplan.not_silu hother (by rw [hop]; decide) linear)
  | scores hplaced hpair =>
    obtain ⟨other, hother, hop, -⟩ := hplaces.scores hpair
    refine ⟨Or.inl (hpartner y hplaced (Or.inr hpair)), fun linear hmem => ?_⟩
    exact absurd hmem (hplan.not_silu hother (by rw [hop]; decide) linear)
  | shared hplaced hpair hcontent hname hproducer =>
    have hother := hshared _ _ hplaced hpair hcontent _ hname
    exact ⟨hother.1 y hproducer, hother.2 y hproducer⟩

include hplan in
/-- What a statement in no placed island needs is ready when its operands are. -/
theorem Plan.Formed.fed_alone (hstmt : plan.program[x]? = some stmt) (hserved : Served plan busy s stmt)
    (halone : plan.placed.a = true → ∀ y, (x, y) ∉ plan.islands.pairs ∧ (y, x) ∉ plan.islands.pairs) :
    Fed plan busy s x :=
  hplan.fed hstmt hserved (fun y hplaced hy => absurd hy (not_or.mpr (halone hplaced y)))
    fun y _ hplaced hy _ => absurd hy (halone hplaced y).1

include hplan in
/-- What the content of a layer needs is ready when its operands and the scores are. -/
theorem Plan.Formed.fed_content {scores : ℕ} (hstmt : plan.program[x]? = some stmt)
    (hserved : Served plan busy s stmt) (hpair : (scores, x) ∈ plan.islands.pairs) (hdone : s.done scores = true) :
    Fed plan busy s x := by
  have hplaces := indexIslands_eq_some hplan.islands
  refine hplan.fed hstmt hserved (fun y _ hy => ?_) fun other _ _ hy _ => absurd hpair (hplaces.scores_ne_content hy)
  rcases hy with hy | hy
  · exact absurd hpair (hplaces.scores_ne_content hy)
  · rwa [hplaces.scores_unique hy hpair]

/-- A name with a value waits for no linear in progress. -/
theorem PassInv.free_of_value (h : PassInv plan kernels t early i busy waiting s) (hvalue : s.values name = some v) :
    Free plan busy name := by
  intro y hproducer
  by_contra hlocked
  rw [h.locked name y hproducer hlocked] at hvalue
  cases hvalue

include hplan hsolves in
/-- A name with host data does not, either. -/
theorem PassInv.free_of_host (h : PassInv plan kernels t early i busy waiting s) {name : ν} {x : M}
    (hhost : s.hosts name = some x) : Free plan busy name := by
  intro y hproducer linear hpair
  obtain ⟨k, stmt, hk, hstmt, hop, -⟩ := hsolves.constant_of_host (h.hosts name x hhost)
  obtain rfl := Option.mem_unique hproducer hk
  exact absurd hpair (hplan.not_silu hstmt (by rw [hop]; decide) linear)

include hensure hplan hsolves honTime hturn in
/-- An array that is read is the final value. -/
theorem tensor_ok (h : PassInv plan kernels t early i busy (fun _ => False) s) (hroot : Reaches plan i root)
    {name : ν} (hname : NeededArray plan i root name) {v : V}
    (hrun : tensor kernels (direct device) ensure name s = (.ok v, s')) :
    After plan kernels t early i busy (fun _ => False) root s s' ∧ (Available plan s' name ∧ Free plan busy name) ∧
      t.array kernels name = some v := by
  obtain ⟨_, s₁, hfirst, hrun⟩ := bind_eq_ok.mp hrun
  obtain ⟨hinv, -, havailable, hafter⟩ := hensure.needed h hroot hname.toNeeded hfirst
  rw [Direct.reads_bind] at hrun
  cases hvalue : s₁.values name with
  | some w =>
    simp only [id, hvalue] at hrun
    obtain ⟨rfl, rfl⟩ := pure_eq_ok hrun
    have hfinal : t.values name = some w := hinv.values name w hvalue
      (fun linear silu hpair hproducer => absurd hproducer (hname.plain linear silu hpair))
      (fun linear silu hpair hproducer => hinv.not_stale honTime hturn hname hpair hproducer)
    have hfree := hinv.free_of_value hvalue
    refine ⟨hafter hfree, ⟨havailable, hfree⟩, ?_⟩
    rw [Tables.array, hfinal]
  | none =>
    simp only [id, hvalue] at hrun
    obtain ⟨hhost, rfl⟩ := orRaise_eq_ok hrun
    obtain ⟨x, hx, hofHost⟩ := Option.bind_eq_some_iff.mp hhost
    have hfree := hinv.free_of_host hplan hsolves hx
    refine ⟨hafter hfree, ⟨havailable, hfree⟩, ?_⟩
    have hfinal := hinv.hosts name x hx
    cases hreal : t.values name with
    | none => rw [Tables.array, hreal, hfinal, Option.bind_some, hofHost]
    | some w =>
      rw [Tables.array, hreal, ← hofHost]
      exact (hinv.ofHost_eq hplan hsolves honTime hturn hname hx hvalue hreal).symm

include hensure hplan hsolves in
/-- Host data that is read is the final one. -/
theorem scalar_ok (h : PassInv plan kernels t early i busy (fun _ => False) s) (hroot : Reaches plan i root)
    {name : ν} (hname : Needed plan root name) {x : M} (hrun : scalar ensure name s = (.ok x, s')) :
    After plan kernels t early i busy (fun _ => False) root s s' ∧ (Available plan s' name ∧ Free plan busy name) ∧
      t.hosts name = some x := by
  obtain ⟨_, s₁, hfirst, hrun⟩ := bind_eq_ok.mp hrun
  obtain ⟨hinv, -, havailable, hafter⟩ := hensure.needed h hroot hname hfirst
  rw [Direct.reads_bind] at hrun
  obtain ⟨hhost, rfl⟩ := orRaise_eq_ok hrun
  have hfree := hinv.free_of_host hplan hsolves hhost
  exact ⟨hafter hfree, ⟨havailable, hfree⟩, hinv.hosts name x hhost⟩

/-- A loop that reads names, one by one. -/
theorem collect_ok {β : Type} {read : ν → Pass Id ν V M β} {final : ν → Option β} {names : List ν}
    (hread : ∀ name ∈ names, ∀ s s' b, PassInv plan kernels t early i busy (fun _ => False) s →
      read name s = (.ok b, s') → After plan kernels t early i busy (fun _ => False) root s s' ∧
        (Available plan s' name ∧ Free plan busy name) ∧ final name = some b)
    (h : PassInv plan kernels t early i busy (fun _ => False) s) {values : List β}
    (hrun : collect read names s = (.ok values, s')) :
    After plan kernels t early i busy (fun _ => False) root s s' ∧
      (∀ name ∈ names, Available plan s' name ∧ Free plan busy name) ∧ names.mapM final = some values := by
  induction names generalizing s values with
  | nil =>
    obtain ⟨rfl, rfl⟩ := pure_eq_ok hrun
    exact ⟨.refl h, fun name hmem => absurd hmem List.not_mem_nil, rfl⟩
  | cons name rest ih =>
    obtain ⟨b, s₁, hfirst, hrun⟩ := bind_eq_ok.mp hrun
    obtain ⟨bs, s₂, hrest, hrun⟩ := bind_eq_ok.mp hrun
    obtain ⟨rfl, rfl⟩ := pure_eq_ok hrun
    obtain ⟨hafter, havailable, hb⟩ := hread name List.mem_cons_self s s₁ b h hfirst
    obtain ⟨hafter', havailable', hbs⟩ := ih (fun other hother => hread other (List.mem_cons_of_mem name hother))
      hafter.inv hrest
    refine ⟨hafter.trans hafter', fun other hother => ?_, ?_⟩
    · rcases List.mem_cons.mp hother with rfl | hother
      · exact ⟨havailable.1.mono hafter'.kept, havailable.2⟩
      · exact havailable' other hother
    · rw [List.mapM_cons, hb, hbs]
      rfl

include hensure in
/-- The operands of a statement are ensured before it is executed. -/
theorem each_ensure_ok {names : List ν} (hnames : ∀ name ∈ names, Needed plan root name)
    (h : PassInv plan kernels t early i busy (fun _ => False) s) (hroot : Reaches plan i root)
    (hrun : each ensure names s = (.ok (), s')) :
    PassInv plan kernels t early i busy (fun _ => False) s' ∧ (∀ y, s.done y = true → s'.done y = true) ∧
      (∀ name ∈ names, Available plan s' name) ∧
      ((∀ name ∈ names, Free plan busy name) → After plan kernels t early i busy (fun _ => False) root s s') := by
  induction names generalizing s with
  | nil =>
    obtain ⟨-, rfl⟩ := pure_eq_ok hrun
    exact ⟨h, fun _ hy => hy, fun name hmem => absurd hmem List.not_mem_nil, fun _ => .refl h⟩
  | cons name rest ih =>
    obtain ⟨_, s₁, hfirst, hrest⟩ := bind_eq_ok.mp hrun
    obtain ⟨hinv, hkept, havailable, hafter⟩ := hensure.needed h hroot (hnames name List.mem_cons_self) hfirst
    obtain ⟨hinv', hkept', havailable', hafter'⟩ := ih (fun other hother =>
      hnames other (List.mem_cons_of_mem name hother)) hinv hrest
    refine ⟨hinv', fun y hy => hkept' y (hkept y hy), fun other hother => ?_, fun hfree => ?_⟩
    · rcases List.mem_cons.mp hother with rfl | hother
      · exact havailable.mono hkept'
      · exact havailable' other hother
    · exact (hafter (hfree name List.mem_cons_self)).trans
        (hafter' fun other hother => hfree other (List.mem_cons_of_mem name hother))

include hensure hplan hsolves in
/-- The flags of a bundle are as it needs them. -/
theorem requireFlags_ok {flags : List (ν × Bool)} (hflags : ∀ flag ∈ flags, Needed plan root flag.1)
    (h : PassInv plan kernels t early i busy (fun _ => False) s) (hroot : Reaches plan i root)
    (hrun : requireFlags kernels ensure k flags s = (.ok (), s')) :
    After plan kernels t early i busy (fun _ => False) root s s' ∧
      ∀ flag ∈ flags, (Available plan s' flag.1 ∧ Free plan busy flag.1) ∧
        ∃ x, t.hosts flag.1 = some x ∧ kernels.truth x = flag.2 := by
  induction flags generalizing s with
  | nil =>
    obtain ⟨-, rfl⟩ := pure_eq_ok hrun
    exact ⟨.refl h, fun name hmem => absurd hmem List.not_mem_nil⟩
  | cons flag rest ih =>
    obtain ⟨name, wanted⟩ := flag
    obtain ⟨x, s₁, hfirst, hrun⟩ := bind_eq_ok.mp hrun
    obtain ⟨hafter, havailable, hx⟩ := scalar_ok hensure hplan hsolves h hroot (hflags _ List.mem_cons_self) hfirst
    by_cases htruth : kernels.truth x = wanted
    swap
    · rw [if_neg htruth] at hrun
      cases hrun
    rw [if_pos htruth] at hrun
    obtain ⟨hafter', havailable'⟩ := ih (fun other hother => hflags other (List.mem_cons_of_mem _ hother))
      hafter.inv hrun
    refine ⟨hafter.trans hafter', fun other hother => ?_⟩
    rcases List.mem_cons.mp hother with rfl | hother
    · exact ⟨⟨havailable.1.mono hafter'.kept, havailable.2⟩, x, hx, htruth⟩
    · exact havailable' other hother

end Reading

end AneLinux.Encoder
