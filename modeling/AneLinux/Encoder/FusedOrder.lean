import AneLinux.Encoder.Computable
import AneLinux.Encoder.FusedRunner

/-!
# What the fused package asks for

With the switch on, a fused select asks for the summands of its add, which it reads at its own place. Of the two results
of a fusion only the later one is stored, so the other name is dropped. `Spared` says which programs this does no harm:
nobody reads a dropped name, no summand is released before its select has run, and an add that comes after its select
can be computed at all. Then all that a call gets to is computable with the fusions, too.
-/

namespace AneLinux.Encoder

open AneLinux.Support

variable {ν V M : Type} {program : Program ν} {adds : ℕ → Bool} {fusion : Fusion} {stmt select : Statement ν}
  {plan : FusedPlan ν} {declared : List ν}

section Places

variable [DecidableEq ν] {i : ℕ}

/-- The select and the add of a fusion. -/
structure FusionPlaces (program : Program ν) (adds : ℕ → Bool) (fusion : Fusion) (select add : Statement ν) :
    Prop where
  selectAt : program[fusion.select]? = some select
  addAt : program[fusion.add]? = some add
  isOther : add.op = .other
  isAdd : isAdd program adds fusion.add = true
  earlier : fusion.later = false → ∃ a c b, select.arrays = [a, c, b] ∧ producer program b = some fusion.add
  later : fusion.later = true → consumers program select.name = [fusion.add]

omit [DecidableEq ν] in
theorem isAdd_iff : isAdd program adds i = true ↔
    ∃ stmt, program[i]? = some stmt ∧ stmt.op = .other ∧ adds i = true := by
  unfold isAdd
  cases program[i]? with
  | none => simp
  | some stmt => simp

theorem consumerAdd_eq_some {add : ℕ} (h : consumerAdd program adds stmt = some add) :
    consumers program stmt.name = [add] ∧ isAdd program adds add = true := by
  unfold consumerAdd at h
  split at h
  · rename_i user hreaders
    split_ifs at h with hadd
    obtain rfl := Option.some.inj h
    exact ⟨hreaders, hadd⟩
  · cases h

theorem fusionOf_eq_some (h : fusionOf program adds i = some fusion) :
    fusion.select = i ∧ ∃ select add, FusionPlaces program adds fusion select add := by
  obtain ⟨select, hselect, h⟩ := Option.bind_eq_some_iff.mp h
  split at h
  · rename_i a c b harrays
    obtain ⟨place, hplace, h⟩ := Option.bind_eq_some_iff.mp h
    obtain ⟨inner, hinner, h⟩ := Option.bind_eq_some_iff.mp h
    split_ifs at h with hadd hmul
    · obtain rfl := Option.some.inj h
      obtain ⟨add, hat, hother, -⟩ := isAdd_iff.mp hadd
      refine ⟨rfl, select, add, hselect, hat, hother, hadd, fun _ => ⟨a, c, b, harrays, hplace⟩, fun hlater => ?_⟩
      cases hlater
    · obtain ⟨user, huser, rfl⟩ := Option.map_eq_some_iff.mp h
      obtain ⟨hreaders, hadd⟩ := consumerAdd_eq_some huser
      obtain ⟨add, hat, hother, -⟩ := isAdd_iff.mp hadd
      refine ⟨rfl, select, add, hselect, hat, hother, hadd, fun hearlier => ?_, fun _ => hreaders⟩
      cases hearlier
  · cases h

/-- An add takes two arrays and nothing else. -/
def AddArity {ν : Type} (program : Program ν) (adds : ℕ → Bool) : Prop :=
  ∀ (k : ℕ) (stmt : Statement ν), program[k]? = some stmt → isAdd program adds k = true →
    stmt.arrays.length = 2 ∧ stmt.hosts = []

/-- A plan with the fusions of its selects. -/
structure FusedPlan.Formed (plan : FusedPlan ν) (adds : ℕ → Bool) (declared : List ν) : Prop where
  plain : plan.toPlan.Formed declared
  fusions : indexFusions plan.program adds plan.islands = some plan.fusions
  adds : AddArity plan.program adds

variable (hplan : plan.Formed adds declared)

include hplan

/-- A fusion belongs to a mask select. -/
theorem FusedPlan.Formed.places (hfusion : fusion ∈ plan.fusions) :
    fusion.select ∈ plan.islands.selects ∧ fusionOf plan.program adds fusion.select = some fusion ∧
      ∃ select add, FusionPlaces plan.program adds fusion select add := by
  obtain ⟨select, hselect, hof⟩ := exists_related (mapM_eq_some.mp hplan.fusions).flip hfusion
  obtain ⟨rfl, hplaces⟩ := fusionOf_eq_some hof
  exact ⟨hselect, hof, hplaces⟩

omit hplan in
/-- A select has one fusion. -/
theorem FusedPlan.Formed.unique (hplan : plan.Formed adds declared) {other : Fusion} (hfusion : fusion ∈ plan.fusions)
    (hother : other ∈ plan.fusions) (hselect : other.select = fusion.select) : other = fusion := by
  have hof := (hplan.places hfusion).2.1
  have hof' := (hplan.places hother).2.1
  rw [hselect, hof] at hof'
  exact (Option.some.inj hof').symm

theorem FusedPlan.Formed.isSelect (hfusion : fusion ∈ plan.fusions)
    (hselect : plan.program[fusion.select]? = some select) : select.op = .select := by
  have hmem := (hplan.places hfusion).1
  rw [(indexIslands_eq_some hplan.plain.islands).selects] at hmem
  exact op_of_mem_withRole hmem hselect

end Places

section Demands

variable [DecidableEq ν]

/-- The names of the summands of a fusion. -/
inductive Summand (plan : FusedPlan ν) (fusion : Fusion) : ν → Prop
  | mk {select add : Statement ν} {pair : ν × ν} {name : ν} : plan.program[fusion.select]? = some select →
    plan.program[fusion.add]? = some add → summands plan.program fusion select add = some pair →
    name = pair.1 ∨ name = pair.2 → Summand plan fusion name

/-- The summands of a fusion are the two that are read off its statements. -/
theorem Summand.of_places {add : Statement ν} {pair : ν × ν} {name : ν} (h : Summand plan fusion name)
    (hselect : plan.program[fusion.select]? = some select) (hadd : plan.program[fusion.add]? = some add)
    (hpair : summands plan.program fusion select add = some pair) : name = pair.1 ∨ name = pair.2 := by
  cases h with
  | mk hselect' hadd' hpair' hname =>
    obtain rfl := Option.mem_unique hselect hselect'
    obtain rfl := Option.mem_unique hadd hadd'
    obtain rfl := Option.mem_unique hpair hpair'
    exact hname

/-- The names that executing a statement asks for with the switch on: a fused select asks for its summands, too. -/
inductive FusedAsks (plan : FusedPlan ν) : ℕ → ν → Prop
  | plain {x : ℕ} {name : ν} : Asks plan.toPlan x name → FusedAsks plan x name
  | summand {fusion : Fusion} {name : ν} : fusion ∈ plan.fusions → Summand plan fusion name →
    FusedAsks plan fusion.select name

/-- The names that executing a statement reads as arrays with the switch on. -/
inductive Fetches (plan : FusedPlan ν) : ℕ → ν → Prop
  | own {x : ℕ} {stmt : Statement ν} {name : ν} : plan.program[x]? = some stmt → x ∉ plan.fusions.map Fusion.add →
    x ∉ plan.fusions.map Fusion.select → x ∉ plan.gates.map Gate.mul → name ∈ stmt.arrays → Fetches plan x name
  | shared {scores content : ℕ} {stmt : Statement ν} {name : ν} : plan.placed.a = true →
    (scores, content) ∈ plan.islands.pairs → plan.program[content]? = some stmt → name ∈ stmt.arrays →
    Fetches plan scores name
  | gate {gate : Gate ν} {name : ν} : gate ∈ plan.gates → name = gate.a ∨ name = gate.b → Fetches plan gate.mul name
  | mask {fusion : Fusion} {select : Statement ν} {a c b name : ν} : fusion ∈ plan.fusions →
    plan.program[fusion.select]? = some select → select.arrays = [a, c, b] → name = a ∨ name = c →
    Fetches plan fusion.select name
  | summand {fusion : Fusion} {name : ν} : fusion ∈ plan.fusions → Summand plan fusion name →
    Fetches plan fusion.select name

/-- The results that are not stored: of a select whose add comes later, and of an add that comes before its select,
unless another fusion stores it. -/
inductive Dropped (plan : FusedPlan ν) : ν → Prop
  | select {fusion : Fusion} {stmt : Statement ν} : fusion ∈ plan.fusions → fusion.later = true →
    plan.program[fusion.select]? = some stmt → Dropped plan stmt.name
  | add {fusion : Fusion} {stmt : Statement ν} : fusion ∈ plan.fusions → fusion.later = false →
    (∀ other ∈ plan.fusions, other.later = true → other.add ≠ fusion.add) →
    plan.program[fusion.add]? = some stmt → Dropped plan stmt.name

/-- With the switch on, one statement leads to another. -/
abbrev FusedReaches (plan : FusedPlan ν) : ℕ → ℕ → Prop :=
  Relation.ReflTransGen (Draws plan.program (FusedAsks plan))

/-- What a call up to a name gets to: the statements in order and what they lead to. -/
def FusedPlan.Reached (plan : FusedPlan ν) (stopAfter : ν) (x : ℕ) : Prop :=
  ∃ i, plan.Within stopAfter i ∧ FusedReaches plan i x

/-- A constant with host data, which is never released. -/
def HostHeld (plan : FusedPlan ν) (kernels : Kernels V M) (name : ν) : Prop :=
  ∃ (k : ℕ) (stmt : Statement ν), plan.program[k]? = some stmt ∧ stmt.op = .const ∧ stmt.name = name ∧
    (kernels.literal k).toHost.isSome = true

/-- The programs and calls to which the fusions do no harm. No result that is not stored is read or stopped after; a
summand of an add before its select is kept until some statement has needed the select; and an add after its select can
be computed from the inputs, as it can when the call gets to it. -/
structure Spared (plan : FusedPlan ν) (kernels : Kernels V M) (given wanted : List ν) (stopAfter : ν) : Prop where
  unread : ∀ x name, plan.Reached stopAfter x → Fetches plan x name → ¬ Dropped plan name
  stop : ¬ Dropped plan stopAfter
  live : ∀ fusion ∈ plan.fusions, fusion.later = false → plan.Reached stopAfter fusion.select →
    ∀ name, Summand plan fusion name → HostHeld plan kernels name ∨ name ∈ stopAfter :: wanted ∨
      ∀ last, lastUse plan.program plan.gates name = some last → ∃ i ≤ last, FusedReaches plan i fusion.select
  computable : ∀ fusion ∈ plan.fusions, fusion.later = true → plan.Reached stopAfter fusion.select →
    Computable plan.program given (Asks plan.toPlan) fusion.add

end Demands

section Facts

variable [DecidableEq ν] {x y : ℕ} {name : ν}

/-- A name among the arguments of a statement. -/
def Takes (program : Program ν) (x : ℕ) (name : ν) : Prop :=
  ∃ stmt, program[x]? = some stmt ∧ name ∈ stmt.arrays ++ stmt.hosts

/-- A select whose add comes later. -/
def FusedPlan.Ahead (plan : FusedPlan ν) (x : ℕ) : Prop :=
  ∃ fusion ∈ plan.fusions, fusion.later = true ∧ fusion.select = x

omit [DecidableEq ν] in
theorem Takes.asks [DecidableEq ν] (h : Takes plan.program x name) : Asks plan.toPlan x name := by
  obtain ⟨stmt, hstmt, hname⟩ := h
  exact .own hstmt hname

theorem Takes.mem_consumers (h : Takes program x name) (hproducer : producer program name = some y) :
    x ∈ consumers program name := by
  obtain ⟨stmt, hstmt, hname⟩ := h
  exact AneLinux.Encoder.mem_consumers.mpr ⟨stmt, hstmt, mem_operands.mpr ⟨hname, y, hproducer⟩⟩

theorem takes_of_mem_consumers (h : x ∈ consumers program name) : Takes program x name := by
  obtain ⟨stmt, hstmt, hname⟩ := mem_consumers.mp h
  exact ⟨stmt, hstmt, (mem_operands.mp hname).1⟩

theorem FusedPlan.Reached.tail {stopAfter : ν} (h : plan.Reached stopAfter x)
    (hxy : Draws plan.program (FusedAsks plan) x y) : plan.Reached stopAfter y := by
  obtain ⟨i, hi, hreach⟩ := h
  exact ⟨i, hi, hreach.tail hxy⟩

/-- A summand is an argument of the add, or, when the add comes later, of the select. -/
theorem Summand.takes (h : Summand plan fusion name) :
    Takes plan.program fusion.add name ∨ fusion.later = true ∧ Takes plan.program fusion.select name := by
  cases h with
  | @mk select add pair _ hselect hadd hsummands hname =>
    unfold summands at hsummands
    split_ifs at hsummands with hlater
    · split at hsummands
      · rename_i a c b x harrays hfind
        cases hsummands
        rcases hname with rfl | rfl
        · exact Or.inl ⟨add, hadd, (mem_operands.mp (List.mem_of_find?_eq_some hfind)).1⟩
        · exact Or.inr ⟨hlater, select, hselect, by simp [harrays]⟩
      · cases hsummands
    · split at hsummands
      · rename_i x y harrays
        cases hsummands
        refine Or.inl ⟨add, hadd, ?_⟩
        rcases hname with rfl | rfl <;> simp [harrays]
      · cases hsummands

variable (hplan : plan.Formed adds declared)

include hplan

/-- A select draws on the add before it. -/
theorem FusedPlan.Formed.draws_earlier (hfusion : fusion ∈ plan.fusions) (hearlier : fusion.later = false) :
    Draws plan.program (Asks plan.toPlan) fusion.select fusion.add := by
  obtain ⟨-, -, select, add, hp⟩ := hplan.places hfusion
  obtain ⟨a, c, b, harrays, hproducer⟩ := hp.earlier hearlier
  exact ⟨b, .own hp.selectAt (by simp [harrays]), hproducer⟩

/-- A select whose add comes later is read by the add alone. -/
theorem FusedPlan.Formed.reader_of_ahead (hfusion : fusion ∈ plan.fusions) (hlater : fusion.later = true)
    (hdraws : Draws plan.program (Asks plan.toPlan) x fusion.select) : x = fusion.add := by
  obtain ⟨-, -, select, add, hp⟩ := hplan.places hfusion
  have hop := hplan.isSelect hfusion hp.selectAt
  have hplaces := indexIslands_eq_some hplan.plain.islands
  obtain ⟨name, hask, hproducer⟩ := hdraws
  have hname := hplan.plain.arities.eq_name hproducer hp.selectAt (by rw [hop]; decide)
  have hreader {z : ℕ} (htakes : Takes plan.program z name) : z = fusion.add := by
    have hmem := htakes.mem_consumers hproducer
    rw [hname, hp.later hlater] at hmem
    exact List.mem_singleton.mp hmem
  cases hask with
  | own hstmt hmem => exact hreader ⟨_, hstmt, hmem⟩
  | shared _ hpair hcontent hmem =>
    have heq := hreader ⟨_, hcontent, hmem⟩
    exact absurd (heq ▸ hpair) (hplan.plain.not_paired hp.addAt (by rw [hp.isOther]; decide) _).2
  | @scores _ _ stmt _ hpair hstmt =>
    rw [hplan.plain.producer_name hstmt] at hproducer
    rw [Option.some.inj hproducer] at hpair
    exact absurd hpair (hplan.plain.not_paired hp.selectAt (by rw [hop]; decide) _).1

/-- No select draws on a select whose add comes later. -/
theorem FusedPlan.Formed.not_ahead_of_select (hfusion : fusion ∈ plan.fusions)
    (hdraws : Draws plan.program (Asks plan.toPlan) fusion.select y) : ¬ plan.Ahead y := by
  rintro ⟨other, hother, hlater, rfl⟩
  have heq := hplan.reader_of_ahead hother hlater hdraws
  obtain ⟨-, -, select, add, hp⟩ := hplan.places hfusion
  obtain ⟨-, -, select', add', hp'⟩ := hplan.places hother
  have hop := hplan.isSelect hfusion hp.selectAt
  have hadd := hp'.addAt
  rw [← heq] at hadd
  obtain rfl := Option.mem_unique hp.selectAt hadd
  rw [hp'.isOther] at hop
  cases hop

/-- A statement that is no select has no fusion. -/
theorem FusedPlan.Formed.not_select (hstmt : plan.program[x]? = some stmt) (hop : stmt.op ≠ .select) :
    x ∉ plan.fusions.map Fusion.select := by
  intro hmem
  obtain ⟨fusion, hfusion, rfl⟩ := List.mem_map.mp hmem
  exact hop (hplan.isSelect hfusion hstmt)

/-- Only operations without a rule of their own are fused adds. -/
theorem FusedPlan.Formed.not_add (hstmt : plan.program[x]? = some stmt) (hop : stmt.op ≠ .other) :
    x ∉ plan.fusions.map Fusion.add := by
  intro hmem
  obtain ⟨fusion, hfusion, rfl⟩ := List.mem_map.mp hmem
  obtain ⟨-, -, select, add, hp⟩ := hplan.places hfusion
  obtain rfl := Option.mem_unique hstmt hp.addAt
  exact hop hp.isOther

/-- A matmul fetches its own arrays. -/
theorem FusedPlan.Formed.fetches_matmul (hstmt : plan.program[x]? = some stmt) (hop : stmt.op = .matmul)
    (hname : name ∈ stmt.arrays) : Fetches plan x name := by
  refine .own hstmt (hplan.not_add hstmt (by rw [hop]; decide)) (hplan.not_select hstmt (by rw [hop]; decide))
    (fun hmem => ?_) hname
  obtain ⟨gate, hgate, rfl⟩ := List.mem_map.mp hmem
  obtain ⟨sigmoid, product, hp⟩ := hplan.plain.arities.gatePlaces (hplan.plain.gates gate hgate)
  obtain rfl := Option.mem_unique hstmt hp.productAt
  rw [hp.isProduct] at hop
  cases hop

omit hplan in
/-- Outside the placed islands and the fusions, a statement asks for its arguments alone. -/
theorem FusedAsks.own (hask : FusedAsks plan x name) (hstmt : plan.program[x]? = some stmt)
    (halone : plan.placed.a = true → ∀ y, (x, y) ∉ plan.islands.pairs ∧ (y, x) ∉ plan.islands.pairs)
    (hselect : x ∉ plan.fusions.map Fusion.select) : name ∈ stmt.arrays ++ stmt.hosts := by
  cases hask with
  | plain hask =>
    cases hask with
    | own hother hname =>
      obtain rfl := Option.mem_unique hstmt hother
      exact hname
    | shared hplaced hpair => exact absurd hpair (halone hplaced _).1
    | scores hplaced hpair => exact absurd hpair (halone hplaced _).2
  | summand hfusion => exact absurd (List.mem_map_of_mem hfusion) hselect

/-- The scores of a placed island ask for the arguments of both matmuls. -/
theorem FusedPlan.Formed.asks_scores {content : ℕ} {contentStmt : Statement ν}
    (hpair : (x, content) ∈ plan.islands.pairs) (hstmt : plan.program[x]? = some stmt)
    (hcontent : plan.program[content]? = some contentStmt) (hask : FusedAsks plan x name) :
    name ∈ stmt.arrays ++ stmt.hosts ∨ name ∈ contentStmt.arrays ++ contentStmt.hosts := by
  have hplaces := indexIslands_eq_some hplan.plain.islands
  cases hask with
  | plain hask =>
    cases hask with
    | own hother hname =>
      obtain rfl := Option.mem_unique hstmt hother
      exact Or.inl hname
    | shared _ hother hplace hname =>
      obtain rfl := hplaces.content_unique hpair hother
      obtain rfl := Option.mem_unique hcontent hplace
      exact Or.inr hname
    | scores _ hother => exact absurd hother (hplaces.scores_ne_content hpair)
  | summand hfusion =>
    have hop := hplaces.scores_op hpair hstmt
    rw [hplan.isSelect hfusion hstmt] at hop
    cases hop

/-- The content of a placed island asks for its arguments and the scores. -/
theorem FusedPlan.Formed.asks_content {scores : ℕ} {scoresStmt : Statement ν}
    (hpair : (scores, x) ∈ plan.islands.pairs) (hstmt : plan.program[x]? = some stmt)
    (hscores : plan.program[scores]? = some scoresStmt) (hask : FusedAsks plan x name) :
    name ∈ stmt.arrays ++ stmt.hosts ∨ name = scoresStmt.name := by
  have hplaces := indexIslands_eq_some hplan.plain.islands
  cases hask with
  | plain hask =>
    cases hask with
    | own hother hname =>
      obtain rfl := Option.mem_unique hstmt hother
      exact Or.inl hname
    | shared _ hother => exact absurd hpair (hplaces.scores_ne_content hother)
    | scores _ hother hplace =>
      obtain rfl := hplaces.scores_unique hpair hother
      obtain rfl := Option.mem_unique hscores hplace
      exact Or.inr rfl
  | summand hfusion =>
    have hop := hplaces.content_op hpair hstmt
    rw [hplan.isSelect hfusion hstmt] at hop
    cases hop

/-- A fused select asks for its arguments and the summands. -/
theorem FusedPlan.Formed.asks_select (hfusion : fusion ∈ plan.fusions)
    (hstmt : plan.program[fusion.select]? = some stmt) (hask : FusedAsks plan fusion.select name) :
    name ∈ stmt.arrays ++ stmt.hosts ∨ Summand plan fusion name := by
  have halone := hplan.plain.not_paired hstmt (by rw [hplan.isSelect hfusion hstmt]; decide)
  generalize hx : fusion.select = x at hask hstmt halone
  cases hask with
  | plain hask =>
    cases hask with
    | own hother hname =>
      obtain rfl := Option.mem_unique hstmt hother
      exact Or.inl hname
    | shared _ hpair => exact absurd hpair (halone _).1
    | scores _ hpair => exact absurd hpair (halone _).2
  | summand hother hsummand =>
    obtain rfl := hplan.unique hfusion hother hx.symm
    exact Or.inr hsummand

/-- The add that comes after its select asks for the select and for the one summand that the select lacks. -/
theorem FusedPlan.Formed.asks_add {add : Statement ν} {pair : ν × ν} (hlater : fusion.later = true)
    (hp : FusionPlaces plan.program adds fusion select add)
    (hsummands : summands plan.program fusion select add = some pair) (hask : FusedAsks plan fusion.add name) :
    name = select.name ∨ name = pair.1 := by
  have hop : add.op ≠ .matmul ∧ add.op ≠ .select := by
    rw [hp.isOther]
    decide
  have hown := hask.own hp.addAt (fun _ => hplan.plain.not_paired hp.addAt hop.1)
    (hplan.not_select hp.addAt hop.2)
  by_cases hname : name = select.name
  · exact Or.inl hname
  right
  have hreader : fusion.add ∈ consumers plan.program select.name := by
    rw [hp.later hlater]
    exact List.mem_singleton_self _
  obtain ⟨other, hother, hmem⟩ := takes_of_mem_consumers hreader
  obtain rfl := Option.mem_unique hp.addAt hother
  rw [summands, if_pos hlater] at hsummands
  split at hsummands
  · rename_i a c b x harrays hfind
    cases hsummands
    have hx := (mem_operands.mp (List.mem_of_find?_eq_some hfind)).1
    have hne := List.find?_some hfind
    rw [decide_eq_true_iff] at hne
    obtain ⟨hlength, hhosts⟩ := hplan.adds _ add hp.addAt hp.isAdd
    obtain ⟨u, w, hpair⟩ := List.length_eq_two.mp hlength
    rw [hpair, hhosts] at hown hmem hx
    simp only [List.append_nil, List.mem_cons, List.not_mem_nil, or_false] at hown hmem hx
    -- One of the two arrays is the select, so there is one other.
    rcases hmem with hmem | hmem
    · rcases hx with rfl | rfl
      · exact absurd hmem.symm hne
      · exact hown.resolve_left fun heq => hname (heq.trans hmem.symm)
    · rcases hx with rfl | rfl
      · exact hown.resolve_right fun heq => hname (heq.trans hmem.symm)
      · exact absurd hmem.symm hne
  · cases hsummands

/-- All mask selects are fused. -/
theorem FusedPlan.Formed.mem_selects (hselect : x ∈ plan.islands.selects) : x ∈ plan.fusions.map Fusion.select := by
  obtain ⟨fusion, hfusion, hof⟩ := exists_related (mapM_eq_some.mp hplan.fusions) hselect
  exact List.mem_map.mpr ⟨fusion, hfusion, (fusionOf_eq_some hof).1⟩

/-- What produces the sigmoid of a fused gate is read by its product alone, which does not fetch it. -/
theorem FusedPlan.Formed.loud_of_fetches (hfetches : Fetches plan x name)
    (hproducer : producer plan.program name = some y) : y ∉ plan.gates.map Gate.sigmoid := by
  intro hmem
  obtain ⟨gate, hgate, rfl⟩ := List.mem_map.mp hmem
  obtain ⟨sigmoid, product, hp⟩ := hplan.plain.arities.gatePlaces (hplan.plain.gates gate hgate)
  have hname := hplan.plain.arities.eq_name hproducer hp.sigmoidAt (by rw [hp.isSigmoid]; decide)
  have hreader {z : ℕ} {stmt : Statement ν} (hstmt : plan.program[z]? = some stmt)
      (hmem : name ∈ stmt.arrays ++ stmt.hosts) : z = gate.mul ∧ stmt.op = .mul := by
    have htakes : Takes plan.program z name := ⟨stmt, hstmt, hmem⟩
    have hz := htakes.mem_consumers hproducer
    rw [hname, hp.onlyReader, List.mem_singleton] at hz
    subst hz
    obtain rfl := Option.mem_unique hstmt hp.productAt
    exact ⟨rfl, hp.isProduct⟩
  cases hfetches with
  | own hstmt _ _ hmul hmem =>
    obtain ⟨rfl, -⟩ := hreader hstmt (List.mem_append_left _ hmem)
    exact hmul (List.mem_map_of_mem hgate)
  | shared _ hpair hstmt hmem =>
    obtain ⟨content, hcontent, hop, -⟩ := (indexIslands_eq_some hplan.plain.islands).content hpair
    obtain rfl := Option.mem_unique hstmt hcontent
    rw [(hreader hstmt (List.mem_append_left _ hmem)).2] at hop
    cases hop
  | @gate other _ hother hhalf =>
    obtain ⟨_, _, hp'⟩ := hplan.plain.arities.gatePlaces (hplan.plain.gates other hother)
    obtain ⟨place, split, hsplit, hop, ha, hb⟩ := hp'.halves
    have hplace : producer plan.program name = some place := by
      rcases hhalf with rfl | rfl
      · exact ha
      · exact hb
    obtain rfl := Option.mem_unique hproducer hplace
    obtain rfl := Option.mem_unique hsplit hp.sigmoidAt
    rw [hp.isSigmoid] at hop
    cases hop
  | @mask fusion select a c b _ hfusion hselect harrays hmem =>
    have hop := hplan.isSelect hfusion hselect
    have hmem : name ∈ select.arrays ++ select.hosts := by
      rw [harrays]
      rcases hmem with rfl | rfl <;> simp
    rw [(hreader hselect hmem).2] at hop
    cases hop
  | @summand fusion _ hfusion hsummand =>
    obtain ⟨-, -, select, add, hplaces⟩ := hplan.places hfusion
    rcases hsummand.takes with ⟨stmt, hstmt, hmem⟩ | ⟨-, stmt, hstmt, hmem⟩
    · have hop := hplaces.isOther
      obtain rfl := Option.mem_unique hstmt hplaces.addAt
      rw [(hreader hstmt hmem).2] at hop
      cases hop
    · have hop := hplan.isSelect hfusion hstmt
      rw [(hreader hstmt hmem).2] at hop
      cases hop

/-- A name that has a last use is the result of a statement. -/
theorem FusedPlan.Formed.produced_of_lastUse {last : ℕ} (h : lastUse plan.program plan.gates name = some last) :
    ∃ y, producer plan.program name = some y := by
  have hmem := List.max?_mem h
  rw [List.mem_append] at hmem
  rcases hmem with hreader | hgate
  · obtain ⟨stmt, -, hname⟩ := mem_consumers.mp hreader
    exact (mem_operands.mp hname).2
  · obtain ⟨gate, hgate, -⟩ := List.mem_map.mp hgate
    obtain ⟨hgate, heq⟩ := List.mem_filter.mp hgate
    obtain ⟨sigmoid, product, hp⟩ := hplan.plain.arities.gatePlaces (hplan.plain.gates gate hgate)
    obtain ⟨place, -, -, -, -, hb⟩ := hp.halves
    exact ⟨place, of_decide_eq_true heq ▸ hb⟩

variable {kernels : Kernels V M} {given wanted : List ν} {stopAfter : ν}
  (hspared : Spared plan kernels given wanted stopAfter)

include hspared

/-- No summand that is read is the result of a select whose add comes later. -/
theorem Spared.not_ahead (hfusion : fusion ∈ plan.fusions) (hreached : plan.Reached stopAfter fusion.select)
    (hsummand : Summand plan fusion name) (hproducer : producer plan.program name = some y) : ¬ plan.Ahead y := by
  rintro ⟨other, hother, hlater, rfl⟩
  obtain ⟨-, -, select, add, hp⟩ := hplan.places hother
  have hname := hplan.plain.arities.eq_name hproducer hp.selectAt
    (by rw [hplan.isSelect hother hp.selectAt]; decide)
  apply hspared.unread fusion.select name hreached (.summand hfusion hsummand)
  rw [hname]
  exact .select hother hlater hp.selectAt

/-- What the calls get to with the fusions is computable without them. -/
theorem Spared.computable_plain
    (hwithin : ∀ y, plan.Within stopAfter y → Computable plan.program given (Asks plan.toPlan) y)
    (hreached : plan.Reached stopAfter x) : Computable plan.program given (Asks plan.toPlan) x := by
  obtain ⟨i, hi, hreach⟩ := hreached
  induction hreach with
  | refl => exact hwithin i hi
  | @tail y z hreach hdraws ih =>
    obtain ⟨name, hask, hproducer⟩ := hdraws
    cases hask with
    | plain hask => exact ih.of_draws ⟨name, hask, hproducer⟩
    | @summand fusion _ hfusion hsummand =>
      rcases hsummand.takes with htakes | ⟨-, htakes⟩
      · have hadd : Computable plan.program given (Asks plan.toPlan) fusion.add := by
          cases hlater : fusion.later with
          | true => exact hspared.computable fusion hfusion hlater ⟨i, hi, hreach⟩
          | false => exact ih.of_draws (hplan.draws_earlier hfusion hlater)
        exact hadd.of_draws ⟨name, htakes.asks, hproducer⟩
      · exact ih.of_draws ⟨name, htakes.asks, hproducer⟩

/-- A statement that is reached is computable with the fusions, unless it is a select whose add comes later. -/
def Settled (plan : FusedPlan ν) (given : List ν) (stopAfter : ν) (x : ℕ) : Prop :=
  plan.Reached stopAfter x → ¬ plan.Ahead x → Computable plan.program given (FusedAsks plan) x

/-- A select whose add comes later draws on what the add draws on, and on its own arguments. -/
theorem Spared.computable_ahead (hfusion : fusion ∈ plan.fusions) (hlater : fusion.later = true)
    (hreached : plan.Reached stopAfter fusion.select)
    (hselect : Computable plan.program given (Asks plan.toPlan) fusion.select)
    (hadd : Computable plan.program given (Asks plan.toPlan) fusion.add)
    (hown : ∀ z, Draws plan.program (Asks plan.toPlan) fusion.select z → Settled plan given stopAfter z)
    (hother : ∀ z, Draws plan.program (Asks plan.toPlan) fusion.add z → Settled plan given stopAfter z) :
    Computable plan.program given (FusedAsks plan) fusion.select := by
  have hunique {other : Fusion} (hmem : other ∈ plan.fusions) (heq : other.select = fusion.select) :
      other = fusion := hplan.unique hfusion hmem heq
  generalize hx : fusion.select = x at hreached hselect hown ⊢
  refine .intro (fun name hask hnone => ?_) fun z hdraws => ?_
  · cases hask with
    | plain hask => exact hselect.isFine name hask hnone
    | @summand other _ hmem hsummand =>
      obtain rfl := hunique hmem hx.symm
      rcases hsummand.takes with htakes | ⟨-, htakes⟩
      · exact hadd.isFine name htakes.asks hnone
      · exact hselect.isFine name htakes.asks hnone
  · have hz := hreached.tail hdraws
    obtain ⟨name, hask, hproducer⟩ := hdraws
    cases hask with
    | plain hask =>
      have hdraws : Draws plan.program (Asks plan.toPlan) x z := ⟨name, hask, hproducer⟩
      exact hown z hdraws hz (hplan.not_ahead_of_select hfusion (hx ▸ hdraws))
    | @summand other _ hmem hsummand =>
      obtain rfl := hunique hmem hx.symm
      have hnot := hspared.not_ahead hplan hfusion hreached hsummand hproducer
      rcases hsummand.takes with htakes | ⟨-, htakes⟩
      · exact hother z ⟨name, htakes.asks, hproducer⟩ hz hnot
      · exact hown z ⟨name, htakes.asks, hproducer⟩ hz hnot

/-- By induction on what is computable without the fusions: a statement and all it draws on are settled. The step goes
two deep, since the only reader of a select whose add comes later is that add. -/
theorem Spared.settled (h : Computable plan.program given (Asks plan.toPlan) x) :
    Settled plan given stopAfter x ∧
      ∀ z, Draws plan.program (Asks plan.toPlan) x z → Settled plan given stopAfter z := by
  induction h with
  | @intro x hfine hbelow ih =>
    have hx : Computable plan.program given (Asks plan.toPlan) x := .intro hfine hbelow
    refine ⟨fun hreached hahead => ?_, fun z hdraws => (ih z hdraws).1⟩
    refine .intro (fun name hask hnone => ?_) fun z hdraws => ?_
    · cases hask with
      | plain hask => exact hfine name hask hnone
      | @summand fusion _ hfusion hsummand =>
        rcases hsummand.takes with htakes | ⟨-, htakes⟩
        · cases hlater : fusion.later with
          | true => exact absurd ⟨fusion, hfusion, hlater, rfl⟩ hahead
          | false =>
            exact (hbelow _ (hplan.draws_earlier hfusion hlater)).isFine name htakes.asks hnone
        · exact hfine name htakes.asks hnone
    · have hz := hreached.tail hdraws
      obtain ⟨name, hask, hproducer⟩ := hdraws
      cases hask with
      | plain hask =>
        have hdraws : Draws plan.program (Asks plan.toPlan) x z := ⟨name, hask, hproducer⟩
        by_cases hselect : plan.Ahead z
        · obtain ⟨fusion, hfusion, hlater, rfl⟩ := hselect
          obtain rfl := hplan.reader_of_ahead hfusion hlater hdraws
          exact hspared.computable_ahead hplan hfusion hlater hz (hbelow _ hdraws) hx (ih _ hdraws).2
            fun y hy => (ih y hy).1
        · exact (ih z hdraws).1 hz hselect
      | @summand fusion _ hfusion hsummand =>
        have hnot := hspared.not_ahead hplan hfusion hreached hsummand hproducer
        rcases hsummand.takes with htakes | ⟨hlater, -⟩
        · cases hlater : fusion.later with
          | true => exact absurd ⟨fusion, hfusion, hlater, rfl⟩ hahead
          | false =>
            exact (ih _ (hplan.draws_earlier hfusion hlater)).2 z ⟨name, htakes.asks, hproducer⟩ hz hnot
        · exact absurd ⟨fusion, hfusion, hlater, rfl⟩ hahead

/-- What the calls get to with the fusions is computable with them. -/
theorem Spared.computable_fused
    (hwithin : ∀ y, plan.Within stopAfter y → Computable plan.program given (Asks plan.toPlan) y)
    (hreached : plan.Reached stopAfter x) : Computable plan.program given (FusedAsks plan) x := by
  have hx := hspared.computable_plain hplan hwithin hreached
  obtain ⟨hsettled, hown⟩ := hspared.settled hplan hx
  by_cases hahead : plan.Ahead x
  · obtain ⟨fusion, hfusion, hlater, rfl⟩ := hahead
    have hadd := hspared.computable fusion hfusion hlater hreached
    exact hspared.computable_ahead hplan hfusion hlater hreached hx hadd hown (hspared.settled hplan hadd).2
  · exact hsettled hreached hahead

/-- Who fetches a name that is released does so no later, or is needed no later by a statement that is due, or finds
host data. -/
theorem Spared.due_of_fetches (hreached : plan.Reached stopAfter x) (hfetches : Fetches plan x name) {last : ℕ}
    (hlast : lastUse plan.program plan.gates name = some last) (hopen : name ∉ stopAfter :: wanted) :
    x ≤ last ∨ HostHeld plan kernels name ∨ (∃ j ≤ last, FusedReaches plan j x) ∧
      ∀ stmt, plan.program[x]? = some stmt → stmt.op ≠ .const ∧ stmt.op ≠ .silu := by
  obtain ⟨y, hproducer⟩ := hplan.produced_of_lastUse hlast
  have hle {z : ℕ} (htakes : Takes plan.program z name) : z ≤ last := le_lastUse (htakes.mem_consumers hproducer) hlast
  cases hfetches with
  | own hstmt _ _ _ hmem => exact Or.inl (hle ⟨_, hstmt, List.mem_append_left _ hmem⟩)
  | @shared _ content _ _ hplaced hpair hstmt hmem =>
    obtain ⟨scores, hscores, hop, -⟩ := (indexIslands_eq_some hplan.plain.islands).scores hpair
    refine Or.inr (Or.inr ⟨⟨content, hle ⟨_, hstmt, List.mem_append_left _ hmem⟩, .single ?_⟩, fun stmt hx => ?_⟩)
    · exact ⟨scores.name, .plain (.scores hplaced hpair hscores), hplan.plain.producer_name hscores⟩
    · obtain rfl := Option.mem_unique hscores hx
      rw [hop]
      decide
  | @gate gate _ hgate hhalf =>
    obtain ⟨sigmoid, product, hp⟩ := hplan.plain.arities.gatePlaces (hplan.plain.gates gate hgate)
    rcases hhalf with rfl | rfl
    · have hmem : gate.a ∈ product.arrays.filter fun other => decide (other ≠ sigmoid.name) := by
        rw [hp.factors]
        exact List.mem_singleton_self _
      exact Or.inl (hle ⟨product, hp.productAt, List.mem_append_left _ (List.mem_filter.mp hmem).1⟩)
    · exact Or.inl (mul_le_lastUse hgate hlast)
  | @mask fusion select a c b _ hfusion hselect harrays hmem =>
    refine Or.inl (hle ⟨select, hselect, ?_⟩)
    rw [harrays]
    rcases hmem with rfl | rfl <;> simp
  | @summand fusion _ hfusion hsummand =>
    cases hlater : fusion.later with
    | true =>
      left
      obtain ⟨-, -, select, add, hp⟩ := hplan.places hfusion
      rcases hsummand.takes with htakes | ⟨-, htakes⟩
      · have hreader : fusion.add ∈ consumers plan.program select.name := by
          rw [hp.later hlater]
          exact List.mem_singleton_self _
        obtain ⟨stmt, hstmt, hmem⟩ := takes_of_mem_consumers hreader
        have hlt := hplan.plain.single.producer_lt hstmt hmem (hplan.plain.producer_name hp.selectAt)
        exact (hlt.trans_le (hle htakes)).le
      · exact hle htakes
    | false =>
      rcases hspared.live fusion hfusion hlater hreached name hsummand with hhost | hprotected | hlive
      · exact Or.inr (Or.inl hhost)
      · exact absurd hprotected hopen
      · refine Or.inr (Or.inr ⟨hlive last hlast, fun stmt hstmt => ?_⟩)
        rw [hplan.isSelect hfusion hstmt]
        decide

end Facts

end AneLinux.Encoder
