import AneLinux.Encoder.InOrder

/-!
# What a statement needs

Executing a statement executes what produces its operands. An island of the first kind needs the operands of both
matmuls of its layer, and the content matmul, reached first, needs the scores. These are the edges of a relation on
the statements. In single-assignment form an operand comes from before, so the relation leaves the statements before
a place only through the pair of an island.
-/

namespace AneLinux.Encoder

open AneLinux.Support

/-- The arities of the operations: a constant takes nothing, an activation one array, and a linear, a product and a
select arrays alone; only a split has several results. -/
structure Arities {ν : Type} (program : Program ν) : Prop where
  constant : ∀ (i : ℕ) (stmt : Statement ν), program[i]? = some stmt → stmt.op = .const →
    stmt.arrays = [] ∧ stmt.hosts = []
  activation : ∀ (i : ℕ) (stmt : Statement ν), program[i]? = some stmt → stmt.op = .silu ∨ stmt.op = .sigmoid →
    stmt.arrays.length = 1 ∧ stmt.hosts = []
  arrays : ∀ (i : ℕ) (stmt : Statement ν), program[i]? = some stmt →
    stmt.op = .linear ∨ stmt.op = .mul ∨ stmt.op = .select → stmt.hosts = []
  single : ∀ (i : ℕ) (stmt : Statement ν), program[i]? = some stmt → stmt.op ≠ .split → stmt.more = []

variable {ν : Type} {program : Program ν} {inputs : List ν}

/-- The arities are a condition on each statement. -/
theorem arities_iff : Arities program ↔ ∀ stmt ∈ program, (stmt.op = .const → stmt.arrays = [] ∧ stmt.hosts = []) ∧
    (stmt.op = .silu ∨ stmt.op = .sigmoid → stmt.arrays.length = 1 ∧ stmt.hosts = []) ∧
    (stmt.op = .linear ∨ stmt.op = .mul ∨ stmt.op = .select → stmt.hosts = []) ∧
    (stmt.op ≠ .split → stmt.more = []) := by
  constructor
  · intro h stmt hmem
    obtain ⟨i, hget⟩ := List.mem_iff_getElem?.mp hmem
    exact ⟨h.constant i stmt hget, h.activation i stmt hget, h.arrays i stmt hget, h.single i stmt hget⟩
  · intro h
    have hstmt {i : ℕ} {stmt : Statement ν} (hget : program[i]? = some stmt) := h stmt (List.mem_of_getElem? hget)
    exact ⟨fun _ _ hget => (hstmt hget).1, fun _ _ hget => (hstmt hget).2.1, fun _ _ hget => (hstmt hget).2.2.1,
      fun _ _ hget => (hstmt hget).2.2.2⟩

instance (program : Program ν) : Decidable (Arities program) := decidable_of_iff' _ arities_iff

variable {i silu linear : ℕ} {stmt : Statement ν} {name : ν} {gate : Gate ν} {chain : Bool}

theorem Arities.names_eq (h : Arities program) (hstmt : program[i]? = some stmt) (hop : stmt.op ≠ .split) :
    stmt.names = [stmt.name] := by
  rw [Statement.names, h.single i stmt hstmt hop]

section Places

/-- Which statements carry a role. -/
theorem mem_withRole {op : Op} {role : Role} :
    i ∈ withRole program op role ↔ ∃ stmt, program[i]? = some stmt ∧ stmt.op = op ∧ stmt.role = some role := by
  rw [withRole, List.mem_filter, List.mem_range]
  constructor
  · intro h
    obtain ⟨hi, hrole⟩ := h
    rw [List.getElem?_eq_getElem hi, Option.any_some, decide_eq_true_iff] at hrole
    exact ⟨program[i], List.getElem?_eq_getElem hi, hrole⟩
  · intro h
    obtain ⟨stmt, hstmt, hrole⟩ := h
    refine ⟨(List.getElem?_eq_some_iff.mp hstmt).1, ?_⟩
    rw [hstmt, Option.any_some, decide_eq_true_iff]
    exact hrole

/-- A statement at a listed place has the operation of the list. -/
theorem op_of_mem_withRole {op : Op} {role : Role} (hmem : i ∈ withRole program op role)
    (hstmt : program[i]? = some stmt) : stmt.op = op := by
  obtain ⟨other, hother, hop, -⟩ := mem_withRole.mp hmem
  rwa [Option.mem_unique hstmt hother]

/-- A statement has one pattern. -/
theorem role_unique {op op' : Op} {role role' : Role} (h : i ∈ withRole program op role)
    (h' : i ∈ withRole program op' role') : role = role' := by
  obtain ⟨stmt, hstmt, -, hrole⟩ := mem_withRole.mp h
  obtain ⟨other, hother, -, hrole'⟩ := mem_withRole.mp h'
  obtain rfl := Option.mem_unique hstmt hother
  exact Option.mem_unique hrole hrole'

theorem nodup_withRole (op : Op) (role : Role) : (withRole program op role).Nodup :=
  List.Nodup.filter _ List.nodup_range

/-- The places of the islands. -/
structure IslandPlaces (program : Program ν) (islands : Islands) : Prop where
  pairs : islands.pairs = (withRole program .matmul .scores).zip (withRole program .matmul .content)
  counts : (withRole program .matmul .scores).length = (withRole program .matmul .content).length
  selects : islands.selects = withRole program .select .maskSelect
  outs : islands.outs = withRole program .matmul .attnOut

/-- Indexed islands are placed. -/
theorem indexIslands_eq_some {islands : Islands} (h : indexIslands program = some islands) :
    IslandPlaces program islands := by
  unfold indexIslands at h
  dsimp only at h
  split_ifs at h with hcounts
  obtain rfl := Option.some.inj h
  exact ⟨rfl, hcounts.1, rfl, rfl⟩

variable {islands : Islands} {k : ℕ}

theorem IslandPlaces.mem_scores (h : IslandPlaces program islands) (hpair : (i, k) ∈ islands.pairs) :
    i ∈ withRole program .matmul .scores := by
  rw [h.pairs] at hpair
  exact (List.of_mem_zip hpair).1

theorem IslandPlaces.mem_content (h : IslandPlaces program islands) (hpair : (i, k) ∈ islands.pairs) :
    k ∈ withRole program .matmul .content := by
  rw [h.pairs] at hpair
  exact (List.of_mem_zip hpair).2

theorem IslandPlaces.scores (h : IslandPlaces program islands) (hpair : (i, k) ∈ islands.pairs) :
    ∃ stmt, program[i]? = some stmt ∧ stmt.op = .matmul ∧ stmt.role = some .scores :=
  mem_withRole.mp (h.mem_scores hpair)

theorem IslandPlaces.content (h : IslandPlaces program islands) (hpair : (i, k) ∈ islands.pairs) :
    ∃ stmt, program[k]? = some stmt ∧ stmt.op = .matmul ∧ stmt.role = some .content :=
  mem_withRole.mp (h.mem_content hpair)

/-- The scores of a layer are a matmul. -/
theorem IslandPlaces.scores_op (h : IslandPlaces program islands) (hpair : (i, k) ∈ islands.pairs)
    (hstmt : program[i]? = some stmt) : stmt.op = .matmul := op_of_mem_withRole (h.mem_scores hpair) hstmt

/-- The content of a layer is a matmul. -/
theorem IslandPlaces.content_op (h : IslandPlaces program islands) (hpair : (i, k) ∈ islands.pairs)
    (hstmt : program[k]? = some stmt) : stmt.op = .matmul := op_of_mem_withRole (h.mem_content hpair) hstmt

/-- The scores of a layer are not the content of another one. -/
theorem IslandPlaces.scores_ne_content (h : IslandPlaces program islands) {j : ℕ} (hpair : (i, k) ∈ islands.pairs) :
    (j, i) ∉ islands.pairs := fun hother => by
  cases role_unique (h.mem_scores hpair) (h.mem_content hother)

/-- A layer is found from its scores, and from its content. -/
theorem IslandPlaces.find_scores (h : IslandPlaces program islands) :
    find islands.pairs i = some k ↔ (i, k) ∈ islands.pairs := by
  apply find_eq_some_iff
  rw [h.pairs, List.map_fst_zip h.counts.le]
  exact nodup_withRole ..

/-- A content half finds its scores. -/
theorem IslandPlaces.find_content (h : IslandPlaces program islands) :
    find (islands.pairs.map Prod.swap) k = some i ↔ (i, k) ∈ islands.pairs := by
  have hkeys : ((islands.pairs.map Prod.swap).map Prod.fst).Nodup := by
    rw [List.map_map, h.pairs]
    change (((withRole program .matmul .scores).zip (withRole program .matmul .content)).map Prod.snd).Nodup
    rw [List.map_snd_zip h.counts.ge]
    exact nodup_withRole ..
  rw [find_eq_some_iff hkeys, List.mem_map]
  constructor
  · intro hswap
    obtain ⟨pair, hpair, heq⟩ := hswap
    rw [← Prod.swap_swap pair, heq] at hpair
    exact hpair
  · exact fun hpair => ⟨(i, k), hpair, rfl⟩

/-- Scores belong to one content. -/
theorem IslandPlaces.content_unique (h : IslandPlaces program islands) {j : ℕ} (hpair : (i, k) ∈ islands.pairs)
    (hother : (i, j) ∈ islands.pairs) : k = j :=
  Option.mem_unique (h.find_scores.mpr hpair) (h.find_scores.mpr hother)

/-- Content belongs to one matmul of scores. -/
theorem IslandPlaces.scores_unique (h : IslandPlaces program islands) {j : ℕ} (hpair : (i, k) ∈ islands.pairs)
    (hother : (j, k) ∈ islands.pairs) : i = j :=
  Option.mem_unique (h.find_content.mpr hpair) (h.find_content.mpr hother)

end Places

variable [DecidableEq ν]

/-- With one result, what a statement produces is its name. -/
theorem Arities.eq_name (h : Arities program) (hproducer : producer program name = some i)
    (hstmt : program[i]? = some stmt) (hop : stmt.op ≠ .split) : name = stmt.name := by
  obtain ⟨other, hother, hname⟩ := producer_spec hproducer
  obtain rfl := Option.mem_unique hstmt hother
  rwa [h.names_eq hstmt hop, List.mem_singleton] at hname

section Readers

/-- A statement reads a name exactly when the name is among its operands. -/
theorem mem_consumers :
    i ∈ consumers program name ↔ ∃ stmt, program[i]? = some stmt ∧ name ∈ operands program stmt := by
  simp only [consumers, List.mem_flatten, List.mem_mapIdx]
  constructor
  · intro h
    obtain ⟨places, ⟨k, hk, rfl⟩, hi⟩ := h
    obtain ⟨other, hother, rfl⟩ := List.mem_map.mp hi
    rw [List.mem_filter, decide_eq_true_iff] at hother
    exact ⟨program[k], List.getElem?_eq_getElem hk, hother.2 ▸ hother.1⟩
  · intro h
    obtain ⟨stmt, hstmt, hname⟩ := h
    obtain ⟨hi, rfl⟩ := List.getElem?_eq_some_iff.mp hstmt
    refine ⟨_, ⟨i, hi, rfl⟩, List.mem_map.mpr ⟨name, ?_, rfl⟩⟩
    exact List.mem_filter.mpr ⟨hname, decide_eq_true rfl⟩

/-- Nothing is released before a statement that reads it. -/
theorem le_lastUse {gates : List (Gate ν)} {last : ℕ} (hreader : i ∈ consumers program name)
    (h : lastUse program gates name = some last) : i ≤ last :=
  (List.max?_eq_some_iff.mp h).2 i (List.mem_append_left _ hreader)

/-- The argument of a fused sigmoid stays until the product. -/
theorem mul_le_lastUse {gates : List (Gate ν)} (hgate : gate ∈ gates) {last : ℕ}
    (h : lastUse program gates gate.b = some last) : gate.mul ≤ last := by
  have hread : gate ∈ gates.filter fun other => decide (other.b = gate.b) :=
    List.mem_filter.mpr ⟨hgate, decide_eq_true rfl⟩
  exact (List.max?_eq_some_iff.mp h).2 gate.mul
    (List.mem_append_right _ (List.mem_map.mpr ⟨gate, hread, rfl⟩))

end Readers

section Fusions

/-- The silu of a linear is its only reader. -/
theorem siluOf_eq_some (h : siluOf program stmt = some silu) :
    stmt.op = .linear ∧ consumers program stmt.name = [silu] ∧
      ∃ user, program[silu]? = some user ∧ user.op = .silu ∧ user.arrays[0]? = some stmt.name := by
  unfold siluOf at h
  split at h
  · cases h
  · rename_i hlinear
    split at h
    · rename_i user huser
      split_ifs at h with hsilu
      obtain rfl := Option.some.inj h
      refine ⟨by_contra fun hne => hlinear (Or.inl hne), huser, ?_⟩
      cases hstmt : program[user]? with
      | none =>
        rw [hstmt] at hsilu
        cases hsilu
      | some reader =>
        rw [hstmt, Option.any_some, decide_eq_true_iff] at hsilu
        exact ⟨reader, rfl, hsilu⟩
    · cases h

/-- Which linears are merged with their silu. -/
theorem mem_linearSilus :
    (linear, silu) ∈ linearSilus program chain ↔
      chain = true ∧ ∃ stmt, program[linear]? = some stmt ∧ siluOf program stmt = some silu := by
  unfold linearSilus
  cases chain with
  | false => simp
  | true =>
    simp only [if_true, List.mem_flatten, List.mem_mapIdx, true_and]
    constructor
    · intro h
      obtain ⟨pairs, ⟨place, hplace, rfl⟩, hpair⟩ := h
      rw [Option.mem_toList, Option.map_eq_some_iff] at hpair
      obtain ⟨other, hsilu, heq⟩ := hpair
      cases heq
      exact ⟨_, List.getElem?_eq_getElem hplace, hsilu⟩
    · intro h
      obtain ⟨stmt, hstmt, hsilu⟩ := h
      obtain ⟨hi, rfl⟩ := List.getElem?_eq_some_iff.mp hstmt
      refine ⟨_, ⟨linear, hi, rfl⟩, ?_⟩
      rw [Option.mem_toList, hsilu, Option.map_some]

/-- A linear and the silu that it may compute. -/
structure SiluPair (program : Program ν) (linear silu : ℕ) (user reader : Statement ν) : Prop where
  linearAt : program[linear]? = some user
  isLinear : user.op = .linear
  siluAt : program[silu]? = some reader
  isSilu : reader.op = .silu
  onlyReader : consumers program user.name = [silu]
  arrays : reader.arrays = [user.name]
  hosts : reader.hosts = []

/-- A merged pair, with its user. -/
theorem Arities.siluPair (h : Arities program) (hpair : (linear, silu) ∈ linearSilus program chain) :
    ∃ user reader, SiluPair program linear silu user reader := by
  obtain ⟨-, user, huser, hsilu⟩ := mem_linearSilus.mp hpair
  obtain ⟨hlinear, hreaders, reader, hreader, hop, hfirst⟩ := siluOf_eq_some hsilu
  obtain ⟨hlength, hhosts⟩ := h.activation silu reader hreader (Or.inl hop)
  obtain ⟨name, harrays⟩ := List.length_eq_one_iff.mp hlength
  rw [harrays] at hfirst
  refine ⟨user, reader, huser, hlinear, hreader, hop, hreaders, ?_, hhosts⟩
  rw [harrays, Option.some.inj hfirst]

/-- A linear has one silu, and a silu one linear. -/
theorem linearSilus_unique_silu {other : ℕ} (h : (linear, silu) ∈ linearSilus program chain)
    (hother : (linear, other) ∈ linearSilus program chain) : silu = other := by
  obtain ⟨-, user, huser, hsilu⟩ := mem_linearSilus.mp h
  obtain ⟨-, user', huser', hsilu'⟩ := mem_linearSilus.mp hother
  obtain rfl := Option.mem_unique huser huser'
  exact Option.mem_unique hsilu hsilu'

/-- A linear finds its silu. -/
theorem find_linearSilus :
    find (linearSilus program chain) linear = some silu ↔ (linear, silu) ∈ linearSilus program chain := by
  constructor
  · exact mem_of_find
  · intro h
    exact find_of_unique h fun other hother => (linearSilus_unique_silu h hother).symm

/-- A gate that may be fused. -/
structure GatePlaces (program : Program ν) (gate : Gate ν) (sigmoid product : Statement ν) : Prop where
  sigmoidAt : program[gate.sigmoid]? = some sigmoid
  isSigmoid : sigmoid.op = .sigmoid
  productAt : program[gate.mul]? = some product
  isProduct : product.op = .mul
  factors : product.arrays.filter (fun other => decide (other ≠ sigmoid.name)) = [gate.a]
  argument : sigmoid.arrays = [gate.b]
  onlyReader : consumers program sigmoid.name = [gate.mul]
  halves : ∃ place split, program[place]? = some split ∧ split.op = .split ∧ producer program gate.a = some place ∧
    producer program gate.b = some place

/-- Which gates are candidates. -/
theorem mem_candidates :
    gate ∈ candidates program ↔ ∃ i stmt, program[i]? = some stmt ∧ gateOf program i stmt = some gate := by
  simp only [candidates, List.mem_flatten, List.mem_mapIdx]
  constructor
  · intro h
    obtain ⟨gates, ⟨i, hi, rfl⟩, hgate⟩ := h
    exact ⟨i, program[i], List.getElem?_eq_getElem hi, Option.mem_toList.mp hgate⟩
  · intro h
    obtain ⟨i, stmt, hstmt, hgate⟩ := h
    obtain ⟨hi, rfl⟩ := List.getElem?_eq_some_iff.mp hstmt
    exact ⟨_, ⟨i, hi, rfl⟩, Option.mem_toList.mpr hgate⟩

/-- The three statements of a gate. -/
theorem Arities.gatePlaces (h : Arities program) (hgate : gate ∈ candidates program) :
    ∃ sigmoid product, GatePlaces program gate sigmoid product := by
  obtain ⟨i, sigmoid, hsigmoid, hgate⟩ := mem_candidates.mp hgate
  unfold gateOf at hgate
  split_ifs at hgate with hop
  split at hgate
  · rename_i mul hreader
    obtain ⟨product, hproduct, hgate⟩ := Option.bind_eq_some_iff.mp hgate
    obtain ⟨b, hb, hgate⟩ := Option.bind_eq_some_iff.mp hgate
    dsimp only at hgate
    split at hgate
    · rename_i a hfactors
      obtain ⟨_, ha, hgate⟩ := Option.bind_eq_some_iff.mp hgate
      obtain rfl := Option.some.inj ha
      obtain ⟨place, hplace, hgate⟩ := Option.bind_eq_some_iff.mp hgate
      obtain ⟨split, hsplit, hgate⟩ := Option.bind_eq_some_iff.mp hgate
      obtain ⟨input, hinput, hgate⟩ := Option.bind_eq_some_iff.mp hgate
      obtain ⟨parent, hparent, hgate⟩ := Option.bind_eq_some_iff.mp hgate
      obtain ⟨axis, haxis, hgate⟩ := Option.bind_eq_some_iff.mp hgate
      obtain ⟨count, hcount, hgate⟩ := Option.bind_eq_some_iff.mp hgate
      split_ifs at hgate with hplaces
      obtain rfl := Option.some.inj hgate
      obtain ⟨hmul, hproducer, hdivides, -⟩ := hplaces
      have hop : sigmoid.op = .sigmoid := not_not.mp hop
      obtain ⟨name, harrays⟩ := List.length_eq_one_iff.mp (h.activation i sigmoid hsigmoid (Or.inr hop)).1
      rw [harrays] at hb
      refine ⟨sigmoid, product, hsigmoid, hop, hproduct, hmul, hfactors, ?_, hreader,
        place, split, hsplit, hdivides, hplace, hproducer⟩
      rw [harrays, ← Option.some.inj hb]
    · obtain ⟨_, ha, -⟩ := Option.bind_eq_some_iff.mp hgate
      cases ha
  · cases hgate

end Fusions

section Relation

/-- What the build pass found in a program of these arities in single-assignment form. -/
structure Plan.Formed (plan : Plan ν) (inputs : List ν) : Prop where
  single : SingleAssignment plan.program inputs
  arities : Arities plan.program
  islands : indexIslands plan.program = some plan.islands
  gates : ∀ gate ∈ plan.gates, gate ∈ candidates plan.program

/-- The linears of a plan with the silus they may compute. -/
abbrev Plan.silus (plan : Plan ν) : List (ℕ × ℕ) := linearSilus plan.program plan.chain

/-- One statement needs another: the one that produces an operand, or the other matmul of a placed island; the scores
need the operands of the content, too. -/
inductive Needs (plan : Plan ν) : ℕ → ℕ → Prop
  | operand {x y : ℕ} {stmt : Statement ν} {name : ν} : plan.program[x]? = some stmt →
    name ∈ stmt.arrays ++ stmt.hosts → producer plan.program name = some y → Needs plan x y
  | content {scores content : ℕ} : plan.placed.a = true → (scores, content) ∈ plan.islands.pairs →
    Needs plan scores content
  | scores {scores content : ℕ} : plan.placed.a = true → (scores, content) ∈ plan.islands.pairs →
    Needs plan content scores
  | shared {scores content y : ℕ} {stmt : Statement ν} {name : ν} : plan.placed.a = true →
    (scores, content) ∈ plan.islands.pairs → plan.program[content]? = some stmt → name ∈ stmt.arrays ++ stmt.hosts →
    producer plan.program name = some y → Needs plan scores y

/-- One statement needs another, at once or through others. -/
abbrev Reaches (plan : Plan ν) : ℕ → ℕ → Prop := Relation.ReflTransGen (Needs plan)

end Relation

section Plans

variable {plan : Plan ν} (h : plan.Formed inputs) {x y : ℕ}

include h

theorem Plan.Formed.producer_name (hstmt : plan.program[x]? = some stmt) : producer plan.program stmt.name = some x :=
  h.single.producer_eq hstmt List.mem_cons_self

theorem Plan.Formed.not_silu (hstmt : plan.program[x]? = some stmt) (hop : stmt.op ≠ .silu) (linear : ℕ) :
    (linear, x) ∉ plan.silus := by
  intro hpair
  obtain ⟨user, reader, hp⟩ := h.arities.siluPair hpair
  obtain rfl := Option.mem_unique hstmt hp.siluAt
  exact hop hp.isSilu

theorem Plan.Formed.not_linear (hstmt : plan.program[x]? = some stmt) (hop : stmt.op ≠ .linear) (silu : ℕ) :
    (x, silu) ∉ plan.silus := by
  intro hpair
  obtain ⟨user, reader, hp⟩ := h.arities.siluPair hpair
  obtain rfl := Option.mem_unique hstmt hp.linearAt
  exact hop hp.isLinear

/-- Only matmuls are in the pairs. -/
theorem Plan.Formed.not_paired (hstmt : plan.program[x]? = some stmt) (hop : stmt.op ≠ .matmul) (y : ℕ) :
    (x, y) ∉ plan.islands.pairs ∧ (y, x) ∉ plan.islands.pairs := by
  have hplaces := indexIslands_eq_some h.islands
  exact ⟨fun hpair => hop (hplaces.scores_op hpair hstmt), fun hpair => hop (hplaces.content_op hpair hstmt)⟩

/-- A constant needs nothing. -/
theorem Plan.Formed.constant_needs_nothing (hstmt : plan.program[x]? = some stmt) (hop : stmt.op = .const) :
    ¬ Needs plan x y := by
  intro hneeds
  have halone := h.not_paired hstmt (by rw [hop]; decide)
  cases hneeds with
  | operand hother hname _ =>
    obtain rfl := Option.mem_unique hstmt hother
    obtain ⟨harrays, hhosts⟩ := h.arities.constant x stmt hstmt hop
    rw [harrays, hhosts] at hname
    cases hname
  | content _ hpair => exact (halone _).1 hpair
  | scores _ hpair => exact (halone _).2 hpair
  | shared _ hpair => exact (halone _).1 hpair

/-- A silu needs its linear alone. -/
theorem Plan.Formed.silu_needs_linear (hpair : (linear, x) ∈ plan.silus) (hneeds : Needs plan x y) : y = linear := by
  obtain ⟨user, reader, hp⟩ := h.arities.siluPair hpair
  have halone := h.not_paired hp.siluAt (by rw [hp.isSilu]; decide)
  cases hneeds with
  | operand hother hname hproducer =>
    obtain rfl := Option.mem_unique hp.siluAt hother
    rw [hp.arrays, hp.hosts, List.append_nil, List.mem_singleton] at hname
    rw [hname, h.single.producer_eq hp.linearAt List.mem_cons_self] at hproducer
    exact (Option.some.inj hproducer).symm
  | content _ hisland => exact absurd hisland (halone _).1
  | scores _ hisland => exact absurd hisland (halone _).2
  | shared _ hisland => exact absurd hisland (halone _).1

/-- A linear comes before its silu. -/
theorem Plan.Formed.linear_lt (hpair : (linear, x) ∈ plan.silus) : linear < x := by
  obtain ⟨user, reader, hp⟩ := h.arities.siluPair hpair
  have hmem : user.name ∈ reader.arrays ++ reader.hosts := by
    rw [hp.arrays]
    exact List.mem_append_left _ List.mem_cons_self
  exact h.single.producer_lt hp.siluAt hmem (h.producer_name hp.linearAt)

/-- A silu has one linear. -/
theorem Plan.Formed.unique_linear {other : ℕ} (hpair : (linear, x) ∈ plan.silus) (hother : (other, x) ∈ plan.silus) :
    other = linear := by
  obtain ⟨user, reader, hp⟩ := h.arities.siluPair hother
  apply h.silu_needs_linear hpair
  refine .operand hp.siluAt ?_ (h.single.producer_eq hp.linearAt List.mem_cons_self)
  rw [hp.arrays]
  exact List.mem_append_left _ List.mem_cons_self

/-- The result of a linear that may compute its silu is read by the silu alone. -/
theorem Plan.Formed.reader_of_linear (hpair : (linear, silu) ∈ plan.silus) (hstmt : plan.program[x]? = some stmt)
    (hname : name ∈ stmt.arrays ++ stmt.hosts) (hproducer : producer plan.program name = some linear) : x = silu := by
  obtain ⟨user, reader, hp⟩ := h.arities.siluPair hpair
  have hne : user.op ≠ .split := by
    rw [hp.isLinear]
    decide
  obtain rfl := h.arities.eq_name hproducer hp.linearAt hne
  have hreader : x ∈ consumers plan.program user.name :=
    mem_consumers.mpr ⟨stmt, hstmt, mem_operands.mpr ⟨hname, linear, hproducer⟩⟩
  rw [hp.onlyReader] at hreader
  exact List.mem_singleton.mp hreader

end Plans

end AneLinux.Encoder
