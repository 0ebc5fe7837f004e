import AneLinux.Qwen.Parity
import AneLinux.Support.TopScores
import Mathlib.Algebra.Order.BigOperators.Group.List
import Mathlib.Data.Finset.Card

/-!
# The overlap of the best tokens

`compare_logits` reports how many of the reference's ten best tokens the candidate has among its own ten best.
`np.isin` looks a token up in the whole array, so a token counts when it is among the candidate's best of any step.
The overlap is that of the steps exactly when no token of the reference is among the candidate's best of another step
alone.
-/

namespace AneLinux.Qwen

open AneLinux.Support

/-- `-x`: the sign bit changes. -/
def F32.neg (x : F32) : F32 := x ^^^ 0x80000000

/-- `np.argpartition` of one row. -/
abbrev Argpartition := List F32 → ℕ → List ℕ

/-- The first positions, up to `kth`, get the indices of the smallest values. -/
def Argpartition.Partitions (argpartition : Argpartition) : Prop :=
  ∀ values kth, kth < values.length → (∀ value ∈ values, value.isFinite = true) →
    IsArgpartition (values.map F32.rank) (kth + 1) (argpartition values kth)

/-- `_top_k`. -/
def topK (argpartition : Argpartition) (values : Tensor) (k : ℕ) : List (List ℕ) :=
  values.rows.map fun row => (argpartition (row.map F32.neg) (k - 1)).take k

/-- `np.sum(np.isin(rows, others), axis=1)`: of each row, how many elements are anywhere in the other array. -/
def sumIsin (rows others : List (List ℕ)) : List ℕ := rows.map fun row => row.countP fun token => token ∈ others.flatten

/-- `np.mean`, exactly. -/
def mean (values : List ℚ) : ℚ := values.sum / values.length

/-- `top10_overlap` of `compare_logits`. -/
def top10Overlap (argpartition : Argpartition) (reference candidate : Tensor) : ℚ :=
  let k := min 10 reference.vocabulary
  let referenceTop := topK argpartition reference k
  let candidateTop := topK argpartition candidate k
  mean ((sumIsin referenceTop candidateTop).map fun count : ℕ => (count : ℚ) / k)

/-- The metrics of a comparison with the overlap as it is computed. -/
def Arithmetic.withOverlap (arithmetic : Arithmetic ℚ) (argpartition : Argpartition) : Arithmetic ℚ :=
  { arithmetic with
    logitMetrics := fun reference candidate =>
      { arithmetic.logitMetrics reference candidate with
        top10Overlap := top10Overlap argpartition reference candidate } }

/-- The tokens with the `k` best logits of a step: fewer than `k` logits are better. -/
def bestTokens (k : ℕ) (row : List F32) : Finset ℕ :=
  (Finset.range row.length).filter fun token => betterCount (row.map F32.rank) (row.getD token 0).rank < k

/-- The overlap of the steps: of each step, the share of the reference's best tokens that the candidate has there. -/
def stepOverlap (reference candidate : Tensor) : ℚ :=
  let k := min 10 reference.vocabulary
  mean ((reference.rows.zip candidate.rows).map fun step =>
    ((bestTokens k step.1 ∩ bestTokens k step.2).card : ℚ) / k)

/-- No two logits of a step are equal. -/
def Tensor.WithoutTies (t : Tensor) : Prop := ∀ row ∈ t.rows, (row.map F32.rank).Nodup

/-- A best token of the reference that the candidate has among its best of any step is among those of the same step. -/
def NoForeignMatch (reference candidate : Tensor) : Prop :=
  ∀ step ∈ reference.rows.zip candidate.rows, ∀ other ∈ candidate.rows,
    bestTokens (min 10 reference.vocabulary) step.1 ∩ bestTokens (min 10 reference.vocabulary) other ⊆
      bestTokens (min 10 reference.vocabulary) step.2

variable {t reference candidate : Tensor} {k : ℕ} {argpartition : Argpartition}

section Rows

variable {row : List F32} {token : ℕ}

/-- Fields without the sign bit stay. -/
theorem F32.extract_neg (x : F32) {start length : ℕ} (hfield : (0x80000000 : F32).extractLsb' start length = 0) :
    x.neg.extractLsb' start length = x.extractLsb' start length := by
  rw [F32.neg, BitVec.extractLsb'_xor, hfield]
  exact BitVec.xor_zero

theorem F32.isFinite_neg (x : F32) : x.neg.isFinite = x.isFinite := by
  rw [F32.isFinite, F32.isFinite, x.extract_neg (by decide)]

/-- The negated value has the opposite place. -/
theorem F32.rank_neg (x : F32) : x.neg.rank = -x.rank := by
  have hsign : x.neg.msb = !x.msb := by
    rw [F32.neg, BitVec.msb_xor]
    have hone : (0x80000000 : F32).msb = true := by decide
    rw [hone, Bool.xor_true]
  rw [F32.rank, F32.rank, x.extract_neg (by decide), hsign]
  cases x.msb with
  | false => rfl
  | true => exact (neg_neg _).symm

/-- The rows of an array of rank two have its second dimension. -/
theorem Tensor.length_of_mem_rows (hrank : t.shape.length = 2) (hrow : row ∈ t.rows) : row.length = t.vocabulary := by
  obtain ⟨step, hstep, rfl⟩ := List.mem_map.mp hrow
  obtain ⟨shape, values, hsize⟩ := t
  obtain ⟨steps, vocabulary, rfl⟩ := List.length_eq_two.mp hrank
  have hlt : step < steps := List.mem_range.mp hstep
  have hvalues : values.length = steps * vocabulary := by
    rw [hsize, List.prod_cons, List.prod_singleton]
  have hle : (step + 1) * vocabulary ≤ steps * vocabulary := Nat.mul_le_mul_right _ hlt
  rw [Nat.succ_mul] at hle
  change ((values.drop (step * vocabulary)).take vocabulary).length = vocabulary
  rw [List.length_take, List.length_drop, hvalues]
  omega

theorem Tensor.isFinite_of_mem_rows (hfinite : t.isFinite = true) (hrow : row ∈ t.rows) :
    ∀ value ∈ row, value.isFinite = true := by
  obtain ⟨step, _, rfl⟩ := List.mem_map.mp hrow
  intro value hvalue
  exact List.all_eq_true.mp hfinite value (List.mem_of_mem_drop (List.mem_of_mem_take hvalue))

/-- The tokens of `_top_k` are the best ones, each once. -/
theorem topK_row (hpart : argpartition.Partitions) (hfinite : ∀ value ∈ row, value.isFinite = true)
    (hties : (row.map F32.rank).Nodup) (hk : 1 ≤ k) (hle : k ≤ row.length) :
    ((argpartition (row.map F32.neg) (k - 1)).take k).Nodup ∧
      ((argpartition (row.map F32.neg) (k - 1)).take k).toFinset = bestTokens k row := by
  have hnegated : (row.map F32.neg).map F32.rank = (row.map F32.rank).map (fun rank => -rank) := by
    rw [List.map_map, List.map_map]
    exact List.map_congr_left fun x _ => F32.rank_neg x
  have hpartition : IsArgpartition ((row.map F32.rank).map fun rank => -rank) k
      (argpartition (row.map F32.neg) (k - 1)) := by
    have hlt : k - 1 < (row.map F32.neg).length := by
      rw [List.length_map]
      omega
    have hnegatedFinite : ∀ value ∈ row.map F32.neg, value.isFinite = true := by
      intro value hvalue
      obtain ⟨x, hx, rfl⟩ := List.mem_map.mp hvalue
      rw [F32.isFinite_neg]
      exact hfinite x hx
    have hkth := hpart (row.map F32.neg) (k - 1) hlt hnegatedFinite
    rwa [hnegated, Nat.sub_add_cancel hk] at hkth
  have hlength : (row.map F32.rank).length = row.length := List.length_map _
  have hreverse := hpartition.reverse (fun _ _ => neg_lt_neg) (hle.trans hlength.ge)
  constructor
  · exact (hpartition.perm.nodup_iff.mpr List.nodup_range).sublist (List.take_sublist k _)
  · ext token
    rw [List.mem_toFinset, bestTokens, Finset.mem_filter, Finset.mem_range]
    by_cases htoken : token < row.length
    · have hrank : (row.map F32.rank)[token]? = some (row.getD token 0).rank := by
        rw [List.getElem?_map, List.getD_eq_getElem?_getD, List.getElem?_eq_getElem htoken]
        rfl
      have hdistinct : ∀ j, (row.map F32.rank)[j]? = some (row.getD token 0).rank → j = token := by
        intro j hj
        have hlt := (List.getElem?_eq_some_iff.mp hj).1
        exact (List.getElem?_inj hlt hties).mp (hj.trans hrank.symm)
      have hmem := hreverse.mem_drop_iff hrank hdistinct
      rw [hlength, List.drop_reverse, List.mem_reverse, hpartition.length, List.length_map, hlength,
        Nat.sub_sub_self hle] at hmem
      rw [hmem, and_iff_right htoken]
    · have hnot : token ∉ (argpartition (row.map F32.neg) (k - 1)).take k := by
        intro hmem
        have hlt := hpartition.mem_iff.mp (List.mem_of_mem_take hmem)
        rw [List.length_map, hlength] at hlt
        exact htoken hlt
      exact iff_of_false hnot fun h => htoken h.1

end Rows

section Counts

variable {α : Type} {values : List α} {f g : α → ℕ}

/-- Sums of counts of which none exceeds its partner agree exactly when the counts do. -/
theorem sum_map_eq_iff (hle : ∀ a ∈ values, f a ≤ g a) :
    (values.map f).sum = (values.map g).sum ↔ ∀ a ∈ values, f a = g a := by
  induction values with
  | nil => exact ⟨fun _ a ha => absurd ha List.not_mem_nil, fun _ => rfl⟩
  | cons a rest ih =>
    rw [List.forall_mem_cons] at hle ⊢
    rw [List.map_cons, List.map_cons, List.sum_cons, List.sum_cons, ← ih hle.2]
    have hrest : (rest.map f).sum ≤ (rest.map g).sum := List.sum_le_sum hle.2
    have ha := hle.1
    omega

theorem sum_map_cast_div (values : List α) (f : α → ℕ) (k : ℕ) :
    (values.map fun a => (f a : ℚ) / k).sum = ((values.map f).sum : ℚ) / k := by
  induction values with
  | nil => exact (zero_div _).symm
  | cons a rest ih =>
    rw [List.map_cons, List.sum_cons, ih, List.map_cons, List.sum_cons, Nat.cast_add, add_div]

/-- Means of shares of which none exceeds its partner agree exactly when the shares do. -/
theorem mean_eq_iff (hk : k ≠ 0) (hle : ∀ a ∈ values, f a ≤ g a) :
    mean (values.map fun a => (g a : ℚ) / k) = mean (values.map fun a => (f a : ℚ) / k) ↔
      ∀ a ∈ values, f a = g a := by
  by_cases hne : values = []
  · subst hne
    exact iff_of_true rfl fun a ha => absurd ha List.not_mem_nil
  have hlength : (values.length : ℚ) ≠ 0 := Nat.cast_ne_zero.mpr (List.length_pos_iff.mpr hne).ne'
  have hk' : (k : ℚ) ≠ 0 := Nat.cast_ne_zero.mpr hk
  rw [mean, mean, List.length_map, List.length_map, sum_map_cast_div, sum_map_cast_div, div_left_inj' hlength,
    div_left_inj' hk', Nat.cast_inj, eq_comm, sum_map_eq_iff hle]

end Counts

section Overlap

/-- Counting without doubles is a cardinality. -/
theorem countP_eq_card {tokens : List ℕ} (hnodup : tokens.Nodup) (p : ℕ → Bool) :
    tokens.countP p = (tokens.toFinset.filter fun token => p token).card := by
  rw [List.countP_eq_length_filter, ← List.toFinset_filter, List.toFinset_card_of_nodup (hnodup.filter p)]

/-- The best tokens of a row that are among the best of some step of the candidate. -/
def foundTokens (k : ℕ) (row : List F32) (candidate : Tensor) : Finset ℕ :=
  (bestTokens k row).filter fun token => ∃ other ∈ candidate.rows, token ∈ bestTokens k other

/-- What `_top_k` gives for every step of an array. -/
def ListsBest (argpartition : Argpartition) (k : ℕ) (t : Tensor) : Prop :=
  ∀ row ∈ t.rows, ((argpartition (row.map F32.neg) (k - 1)).take k).Nodup ∧
    ((argpartition (row.map F32.neg) (k - 1)).take k).toFinset = bestTokens k row

/-- The tokens listed are the best of some row. -/
theorem mem_flatten_topK (hcandidate : ListsBest argpartition k candidate) {token : ℕ} :
    token ∈ (topK argpartition candidate k).flatten ↔ ∃ other ∈ candidate.rows, token ∈ bestTokens k other := by
  rw [topK, ← List.flatMap_def, List.mem_flatMap]
  refine exists_congr fun other => and_congr_right fun hother => ?_
  rw [← (hcandidate other hother).2, List.mem_toFinset]

/-- A token counts when it is among the best of any step. -/
theorem sumIsin_topK (hreference : ListsBest argpartition k reference)
    (hcandidate : ListsBest argpartition k candidate) :
    sumIsin (topK argpartition reference k) (topK argpartition candidate k) =
      reference.rows.map fun row => (foundTokens k row candidate).card := by
  have hrows : topK argpartition reference k =
      reference.rows.map fun row => (argpartition (row.map F32.neg) (k - 1)).take k := rfl
  rw [sumIsin, hrows, List.map_map]
  refine List.map_congr_left fun row hrow => ?_
  obtain ⟨hnodup, hbest⟩ := hreference row hrow
  rw [Function.comp, countP_eq_card hnodup, hbest, foundTokens]
  congr 1
  refine Finset.filter_congr fun token _ => ?_
  rw [decide_eq_true_iff]
  exact mem_flatten_topK hcandidate

/-- A shared best token counts as found. -/
theorem inter_subset_foundTokens {left right : List F32} (hright : right ∈ candidate.rows) :
    bestTokens k left ∩ bestTokens k right ⊆ foundTokens k left candidate := by
  intro token htoken
  obtain ⟨hleft, hbest⟩ := Finset.mem_inter.mp htoken
  exact Finset.mem_filter.mpr ⟨hleft, right, hright, hbest⟩

/-- A step counts right when what is found in any step is found in the same one. -/
theorem card_inter_eq_iff {left right : List F32} (hright : right ∈ candidate.rows) :
    (bestTokens k left ∩ bestTokens k right).card = (foundTokens k left candidate).card ↔
      ∀ other ∈ candidate.rows, bestTokens k left ∩ bestTokens k other ⊆ bestTokens k right := by
  constructor
  · intro hcard other hother token htoken
    have hsame := Finset.eq_of_subset_of_card_le (inter_subset_foundTokens hright) hcard.ge
    have hfound := inter_subset_foundTokens hother htoken
    rw [← hsame] at hfound
    exact (Finset.mem_inter.mp hfound).2
  · intro hforeign
    refine congrArg Finset.card ((inter_subset_foundTokens hright).antisymm fun token htoken => ?_)
    obtain ⟨hleft, other, hother, hbest⟩ := Finset.mem_filter.mp htoken
    exact Finset.mem_inter.mpr ⟨hleft, hforeign other hother (Finset.mem_inter.mpr ⟨hleft, hbest⟩)⟩

/-- What is computed: of each step, the share of the reference's best tokens that the candidate has in any step. -/
theorem top10Overlap_eq (hsteps : reference.steps = candidate.steps)
    (hreference : ListsBest argpartition (min 10 reference.vocabulary) reference)
    (hcandidate : ListsBest argpartition (min 10 reference.vocabulary) candidate) :
    top10Overlap argpartition reference candidate = mean ((reference.rows.zip candidate.rows).map fun step =>
      ((foundTokens (min 10 reference.vocabulary) step.1 candidate).card : ℚ) / (min 10 reference.vocabulary : ℕ)) := by
  have hlength : reference.rows.length = candidate.rows.length := by
    rw [Tensor.rows, Tensor.rows, List.length_map, List.length_map, hsteps]
  have hrows : reference.rows = (reference.rows.zip candidate.rows).map Prod.fst :=
    (List.map_fst_zip hlength.le).symm
  rw [top10Overlap, sumIsin_topK hreference hcandidate, List.map_map, hrows, List.map_map, ← hrows]
  rfl

/-- The overlap of two arrays of equal shape is that of the steps when no token is found in another step alone, and only
then. -/
theorem top10Overlap_eq_iff (hsteps : reference.steps = candidate.steps) (hvocabulary : reference.vocabulary ≠ 0)
    (hreference : ListsBest argpartition (min 10 reference.vocabulary) reference)
    (hcandidate : ListsBest argpartition (min 10 reference.vocabulary) candidate) :
    top10Overlap argpartition reference candidate = stepOverlap reference candidate ↔
      NoForeignMatch reference candidate := by
  have hk : min 10 reference.vocabulary ≠ 0 := by omega
  rw [top10Overlap_eq hsteps hreference hcandidate, stepOverlap]
  refine (mean_eq_iff hk fun step hstep => ?_).trans (forall₂_congr fun step hstep => ?_)
  · exact Finset.card_le_card (inter_subset_foundTokens (List.of_mem_zip hstep).2)
  · exact card_inter_eq_iff (List.of_mem_zip hstep).2

end Overlap

section Reports

variable {arithmetic : Arithmetic ℚ} {thresholds : Thresholds ℚ} {generatedStart : ℕ} {report : RunReport ℚ}

/-- A report is made of finite arrays of equal shape and rank two. -/
theorem compareLogits_eq_ok (h : compareLogits arithmetic thresholds reference candidate generatedStart = .ok report) :
    reference.shape = candidate.shape ∧ reference.shape.length = 2 ∧ reference.isFinite = true ∧
      candidate.isFinite = true ∧ (reference.dropRows generatedStart).vocabulary ≠ 0 ∧
      report.metrics = arithmetic.logitMetrics (reference.dropRows generatedStart)
        (candidate.dropRows generatedStart) := by
  unfold compareLogits at h
  split at h
  · cases h
  next hrank =>
  split at h
  · cases h
  next hshape =>
  split at h
  · cases h
  split at h
  · cases h
  next hfinite =>
  simp only at h
  split at h
  · cases h
  next hvocabulary =>
  obtain rfl := Except.ok.inj h
  rw [not_or, not_not, not_not] at hrank
  rw [not_or, Bool.not_eq_false, Bool.not_eq_false] at hfinite
  exact ⟨not_not.mp hshape, hrank.1, hfinite.1, hfinite.2, hvocabulary, rfl⟩

/-- Finite arrays of equal shape with a step and a token left are reported on. -/
theorem exists_report (hshape : reference.shape = candidate.shape) (hrank : reference.shape.length = 2)
    (hstart : generatedStart < reference.steps) (hfinite : reference.isFinite = true)
    (hfinite' : candidate.isFinite = true) (hvocabulary : (reference.dropRows generatedStart).vocabulary ≠ 0) :
    ∃ report, compareLogits arithmetic thresholds reference candidate generatedStart = .ok report := by
  have hrank' : candidate.shape.length = 2 := hshape ▸ hrank
  have hranks : ¬(reference.shape.length ≠ 2 ∨ candidate.shape.length ≠ 2) := by omega
  have hfinites : ¬(reference.isFinite = false ∨ candidate.isFinite = false) := by
    rw [hfinite, hfinite']
    decide
  rw [compareLogits, if_neg hranks, if_neg (not_not.mpr hshape), if_neg (not_not.mpr hstart), if_neg hfinites]
  simp only
  rw [if_neg hvocabulary]
  exact ⟨_, rfl⟩

theorem Tensor.shape_dropRows (hrank : t.shape.length = 2) (start : ℕ) :
    (t.dropRows start).shape = [t.steps - start, t.vocabulary] := by
  obtain ⟨shape, values, hsize⟩ := t
  obtain ⟨steps, vocabulary, rfl⟩ := List.length_eq_two.mp hrank
  rfl

theorem Tensor.isFinite_dropRows (hfinite : t.isFinite = true) (start : ℕ) : (t.dropRows start).isFinite = true := by
  obtain ⟨shape, values, hsize⟩ := t
  cases shape with
  | nil => exact hfinite
  | cons steps rest =>
    refine List.all_eq_true.mpr fun value hvalue => List.all_eq_true.mp hfinite value ?_
    exact List.mem_of_mem_drop hvalue

/-- `_top_k` lists the best tokens of every step. -/
theorem listsBest_of_withoutTies (hpart : argpartition.Partitions) (hrank : t.shape.length = 2)
    (hfinite : t.isFinite = true) (hties : t.WithoutTies) (hk : 1 ≤ k) (hle : k ≤ t.vocabulary) :
    ListsBest argpartition k t := by
  intro row hrow
  exact topK_row hpart (Tensor.isFinite_of_mem_rows hfinite hrow) (hties row hrow) hk
    (hle.trans (Tensor.length_of_mem_rows hrank hrow).ge)

/-- The reported overlap is that of the steps exactly when no best token of the reference is among the candidate's best
of another step and not of its own. -/
theorem compareLogits_top10Overlap_iff (hpart : argpartition.Partitions)
    (hreport : compareLogits (arithmetic.withOverlap argpartition) thresholds reference candidate generatedStart =
      .ok report)
    (hreference : (reference.dropRows generatedStart).WithoutTies)
    (hcandidate : (candidate.dropRows generatedStart).WithoutTies) :
    report.metrics.top10Overlap =
        stepOverlap (reference.dropRows generatedStart) (candidate.dropRows generatedStart) ↔
      NoForeignMatch (reference.dropRows generatedStart) (candidate.dropRows generatedStart) := by
  obtain ⟨hshape, hrank, hfinite, hfinite', hvocabulary, hmetrics⟩ := compareLogits_eq_ok hreport
  have hrank' : candidate.shape.length = 2 := hshape ▸ hrank
  have hleft := Tensor.shape_dropRows hrank generatedStart
  have hright := Tensor.shape_dropRows hrank' generatedStart
  have hsame : (reference.dropRows generatedStart).shape = (candidate.dropRows generatedStart).shape := by
    rw [hleft, hright, Tensor.steps, Tensor.vocabulary, Tensor.steps, Tensor.vocabulary, hshape]
  have hsteps : (reference.dropRows generatedStart).steps = (candidate.dropRows generatedStart).steps := by
    rw [Tensor.steps, Tensor.steps, hsame]
  have hcolumns : (reference.dropRows generatedStart).vocabulary = (candidate.dropRows generatedStart).vocabulary := by
    rw [Tensor.vocabulary, Tensor.vocabulary, hsame]
  have hk : 1 ≤ min 10 (reference.dropRows generatedStart).vocabulary := by omega
  rw [hmetrics]
  refine top10Overlap_eq_iff hsteps hvocabulary ?_ ?_
  · exact listsBest_of_withoutTies hpart (by rw [hleft]; rfl) (Tensor.isFinite_dropRows hfinite _) hreference hk
      (min_le_right _ _)
  · exact listsBest_of_withoutTies hpart (by rw [hright]; rfl) (Tensor.isFinite_dropRows hfinite' _) hcandidate hk
      (hcolumns ▸ min_le_right _ _)

end Reports

/-- Sorting the whole row is one way to partition it. -/
def sortedArgpartition : Argpartition := fun values _ => argsort (values.map F32.rank)

/-- Sorting is a partition. -/
theorem sortedArgpartition_partitions : sortedArgpartition.Partitions := by
  intro values kth _ _
  exact argsort_isArgpartition (values.map F32.rank) (kth + 1)

/-- The logits of a step of eleven tokens, of which one has the smallest. -/
def logitsWithout (token : ℕ) : List F32 :=
  (List.range 11).map fun i => if i = token then 0x3f800000 else 0x40000000 + i

/-- Two steps of eleven tokens. -/
def twoSteps (first second : ℕ) : Tensor where
  shape := [2, 11]
  values := logitsWithout first ++ logitsWithout second
  size_eq := rfl

/-- The gate of the overlap alone. -/
def overlapGate : Thresholds ℚ := { top10Overlap := 99 / 100, maxAbsoluteLogitError := 1, meanAbsoluteLogitError := 1,
                                    relativeL2Error := 1 }

theorem twoSteps_withoutTies :
    (twoSteps 0 0).WithoutTies ∧ (twoSteps 1 1).WithoutTies ∧ (twoSteps 1 0).WithoutTies := by
  unfold Tensor.WithoutTies
  decide

theorem twoSteps_reported (first second : ℕ) (hfinite : (twoSteps first second).isFinite = true) :
    ∃ report, compareLogits (exactArithmetic.withOverlap sortedArgpartition) overlapGate (twoSteps 0 0)
      (twoSteps first second) 0 = .ok report := by
  refine exists_report rfl rfl (by decide) (by decide) hfinite ?_
  rw [Tensor.dropRows_zero]
  decide

theorem compareLogits_top10Overlap_iff_twoSteps :
    ∃ report, compareLogits (exactArithmetic.withOverlap sortedArgpartition) overlapGate (twoSteps 0 0)
      (twoSteps 1 1) 0 = .ok report ∧ report.metrics.top10Overlap = stepOverlap (twoSteps 0 0) (twoSteps 1 1) := by
  obtain ⟨report, hreport⟩ := twoSteps_reported 1 1 (by decide)
  have hiff := compareLogits_top10Overlap_iff sortedArgpartition_partitions hreport
  rw [Tensor.dropRows_zero, Tensor.dropRows_zero] at hiff
  refine ⟨report, hreport, (hiff twoSteps_withoutTies.1 twoSteps_withoutTies.2.1).mpr ?_⟩
  unfold NoForeignMatch
  decide +kernel

/-- The reference's best tokens of the first step are all found, one of them in the candidate's second step. -/
theorem compareLogits_counts_other_step :
    ∃ report, compareLogits (exactArithmetic.withOverlap sortedArgpartition) overlapGate (twoSteps 0 0)
      (twoSteps 1 0) 0 = .ok report ∧ report.metrics.top10Overlap = 1 ∧
        stepOverlap (twoSteps 0 0) (twoSteps 1 0) = 19 / 20 := by
  have hreference : ListsBest sortedArgpartition (min 10 (twoSteps 0 0).vocabulary) (twoSteps 0 0) :=
    listsBest_of_withoutTies sortedArgpartition_partitions rfl (by decide) twoSteps_withoutTies.1 (by decide)
      (by decide)
  have hcandidate : ListsBest sortedArgpartition (min 10 (twoSteps 0 0).vocabulary) (twoSteps 1 0) :=
    listsBest_of_withoutTies sortedArgpartition_partitions rfl (by decide) twoSteps_withoutTies.2.2 (by decide)
      (by decide)
  obtain ⟨report, hreport⟩ := twoSteps_reported 1 0 (by decide)
  obtain ⟨-, -, -, -, -, hmetrics⟩ := compareLogits_eq_ok hreport
  rw [Tensor.dropRows_zero, Tensor.dropRows_zero] at hmetrics
  refine ⟨report, hreport, ?_, by decide +kernel⟩
  rw [hmetrics]
  have hsteps : (twoSteps 0 0).steps = (twoSteps 1 0).steps := rfl
  refine (top10Overlap_eq hsteps hreference hcandidate).trans ?_
  decide +kernel

end AneLinux.Qwen
