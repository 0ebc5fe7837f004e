import Mathlib.Data.List.Count
import Mathlib.Data.List.Range
import Mathlib.Order.Lattice

/-!
# The indices of the best scores

`argpartition` returns the indices of some scores in an order that puts none with a better score before the
position `kth` and none with a worse score after it; within the two parts the order is open. The indices from
`kth` on are the best ones: `mem_drop_iff` says that they are those with few better scores, so two partitions
of the same scores agree on every score that is unlike the others.
-/

namespace AneLinux.Support

variable {S : Type*} [LinearOrder S]

/-- What `argpartition(scores, kth)` promises of its result. -/
structure IsArgpartition (scores : List S) (kth : ℕ) (order : List ℕ) : Prop where
  perm : order.Perm (List.range scores.length)
  split : ∀ i ∈ order.take kth, ∀ j ∈ order.drop kth, ∀ a b, scores[i]? = some a → scores[j]? = some b → a ≤ b

/-- The score of an index is better than `a`. -/
def beats (scores : List S) (a : S) (i : ℕ) : Bool := scores[i]?.any (a < ·)

/-- How many scores are better than `a`. -/
def betterCount (scores : List S) (a : S) : ℕ := (List.range scores.length).countP (beats scores a)

variable {scores : List S} {kth i : ℕ} {order : List ℕ} {a b : S}

theorem beats_eq_true_iff : beats scores a i = true ↔ ∃ b, scores[i]? = some b ∧ a < b := by
  rw [beats, Option.any_eq_true]
  simp only [decide_eq_true_eq]

/-- Indices without a score are better than nothing. -/
theorem betterCount_eq_countP_range {n : ℕ} (hn : scores.length ≤ n) :
    betterCount scores a = (List.range n).countP (beats scores a) := by
  obtain ⟨more, rfl⟩ := Nat.exists_eq_add_of_le hn
  have hmore : ((List.range more).map (scores.length + ·)).countP (beats scores a) = 0 := by
    rw [List.countP_eq_zero]
    intro i hi hbeats
    obtain ⟨j, -, rfl⟩ := List.mem_map.mp hi
    rw [beats, List.getElem?_eq_none (Nat.le_add_right _ _)] at hbeats
    cases hbeats
  rw [List.range_add, List.countP_append, hmore, Nat.add_zero, betterCount]

theorem IsArgpartition.length (h : IsArgpartition scores kth order) : order.length = scores.length := by
  rw [h.perm.length_eq, List.length_range]

theorem IsArgpartition.mem_iff (h : IsArgpartition scores kth order) : i ∈ order ↔ i < scores.length := by
  rw [h.perm.mem_iff, List.mem_range]

theorem IsArgpartition.betterCount_eq (h : IsArgpartition scores kth order) (a : S) :
    betterCount scores a = (order.take kth).countP (beats scores a) + (order.drop kth).countP (beats scores a) := by
  rw [← List.countP_append, List.take_append_drop, betterCount, h.perm.countP_eq]

theorem not_beats_self (ha : scores[i]? = some a) : ¬ beats scores a i = true := by
  rw [beats_eq_true_iff]
  rintro ⟨b, hb, hlt⟩
  rw [ha] at hb
  exact lt_irrefl _ (Option.some.inj hb ▸ hlt)

theorem betterCount_lt_length (ha : scores[i]? = some a) : betterCount scores a < scores.length := by
  have hi : i ∈ List.range scores.length := List.mem_range.mpr (List.getElem?_eq_some_iff.mp ha).1
  have hle : betterCount scores a ≤ (List.range scores.length).length := List.countP_le_length
  rw [List.length_range] at hle
  refine lt_of_le_of_ne hle fun hall => not_beats_self ha ?_
  exact List.countP_eq_length.mp (hall.trans List.length_range.symm) i hi

/-- An index with a score unlike the others is among the best ones if and only if few scores are better. -/
theorem IsArgpartition.mem_drop_iff (h : IsArgpartition scores kth order) (ha : scores[i]? = some a)
    (hdistinct : ∀ j, scores[j]? = some a → j = i) :
    i ∈ order.drop kth ↔ betterCount scores a < scores.length - kth := by
  have hdrop : (order.drop kth).length = scores.length - kth := by rw [List.length_drop, h.length]
  rw [h.betterCount_eq]
  constructor
  · intro hi
    have htake : (order.take kth).countP (beats scores a) = 0 := by
      rw [List.countP_eq_zero]
      intro j hj hbeats
      obtain ⟨b, hb, hlt⟩ := beats_eq_true_iff.mp hbeats
      exact absurd (h.split j hj i hi b a hb ha) (not_le.mpr hlt)
    rw [htake, Nat.zero_add, ← hdrop]
    refine lt_of_le_of_ne List.countP_le_length fun hall => ?_
    exact not_beats_self ha (List.countP_eq_length.mp hall i hi)
  · intro hcount
    by_contra hi
    have hmem : i ∈ order := h.mem_iff.mpr (List.getElem?_eq_some_iff.mp ha).1
    rw [← List.take_append_drop kth order, List.mem_append] at hmem
    have htake := hmem.resolve_right hi
    have hall : (order.drop kth).countP (beats scores a) = (order.drop kth).length := by
      rw [List.countP_eq_length]
      intro j hj
      have hlt := h.mem_iff.mp (List.mem_of_mem_drop hj)
      have hb : scores[j]? = some scores[j] := List.getElem?_eq_getElem hlt
      refine beats_eq_true_iff.mpr ⟨_, hb, lt_of_le_of_ne (h.split i htake j hj _ _ ha hb) fun hsame => ?_⟩
      rw [← hsame] at hb
      rw [hdistinct j hb] at hj
      exact hi hj
    omega

/-- If some score is above a bound, so is the score of one of the best. -/
theorem IsArgpartition.exists_mem_drop (h : IsArgpartition scores kth order) (hkth : kth < scores.length)
    (ha : scores[i]? = some a) : ∃ j ∈ order.drop kth, ∃ b, scores[j]? = some b ∧ a ≤ b := by
  have hmem : i ∈ order := h.mem_iff.mpr (List.getElem?_eq_some_iff.mp ha).1
  rw [← List.take_append_drop kth order, List.mem_append] at hmem
  rcases hmem with htake | hdrop
  · have hne : order.drop kth ≠ [] := by
      rw [Ne, List.drop_eq_nil_iff, h.length]
      exact Nat.not_le.mpr hkth
    obtain ⟨j, hj⟩ := List.exists_mem_of_ne_nil _ hne
    have hlt := h.mem_iff.mp (List.mem_of_mem_drop hj)
    exact ⟨j, hj, _, List.getElem?_eq_getElem hlt, h.split i htake j hj _ _ ha (List.getElem?_eq_getElem hlt)⟩
  · exact ⟨i, hdrop, a, ha, le_refl a⟩

/-- The order turned round is the one of the scores turned round: the first indices become the best. -/
theorem IsArgpartition.reverse {T : Type*} [LinearOrder T] {f : S → T} (hf : StrictAnti f)
    (h : IsArgpartition (scores.map f) kth order) (hkth : kth ≤ scores.length) :
    IsArgpartition scores (scores.length - kth) order.reverse := by
  have hlength : order.length = scores.length := h.length.trans (List.length_map f)
  have hsplit : order.length - (scores.length - kth) = kth := by omega
  constructor
  · have hperm := h.perm
    rw [List.length_map] at hperm
    exact (List.reverse_perm order).trans hperm
  · intro i hi j hj a b ha hb
    rw [List.take_reverse, hsplit, List.mem_reverse] at hi
    rw [List.drop_reverse, hsplit, List.mem_reverse] at hj
    have hfa : (scores.map f)[i]? = some (f a) := by rw [List.getElem?_map, ha, Option.map_some]
    have hfb : (scores.map f)[j]? = some (f b) := by rw [List.getElem?_map, hb, Option.map_some]
    exact hf.le_iff_ge.mp (h.split j hj i hi (f b) (f a) hfb hfa)

section Argsort

variable [Inhabited S]

/-- The indices in the order of their scores. -/
def argsort (scores : List S) : List ℕ :=
  (List.range scores.length).mergeSort fun i j => decide (scores.getD i default ≤ scores.getD j default)

/-- Sorting is one way to partition. -/
theorem argsort_isArgpartition (scores : List S) (kth : ℕ) : IsArgpartition scores kth (argsort scores) := by
  have hsorted : (argsort scores).Pairwise fun i j =>
      decide (scores.getD i default ≤ scores.getD j default) = true := by
    refine List.pairwise_mergeSort (fun i j k hij hjk => ?_) (fun i j => ?_) _
    · exact decide_eq_true ((of_decide_eq_true hij).trans (of_decide_eq_true hjk))
    · rw [Bool.or_eq_true, decide_eq_true_iff, decide_eq_true_iff]
      exact le_total _ _
  refine ⟨List.mergeSort_perm _ _, fun i hi j hj a b ha hb => ?_⟩
  rw [← List.take_append_drop kth (argsort scores), List.pairwise_append] at hsorted
  have hle := of_decide_eq_true (hsorted.2.2 i hi j hj)
  rwa [List.getD_eq_getElem?_getD, List.getD_eq_getElem?_getD, ha, hb] at hle

end Argsort

end AneLinux.Support
