import Mathlib.Algebra.BigOperators.Group.List.Basic
import Mathlib.Data.List.MinMax

/-!
# Folding by halves

A list whose length is a power of two is folded in rounds. A round applies an operation to the two halves, place by
place, so the list gets half as long; after the last round one element is left. What every round keeps (the sum, for
an addition; the maximum, for the larger of two) the last element has.
-/

namespace AneLinux.Support

variable {α β : Type*} {op : α → α → α} {values left right : List α} {half k : ℕ}

/-- A round: both halves of a list, place by place. -/
def foldHalves (op : α → α → α) (values : List α) : List α :=
  List.zipWith op (values.take (values.length / 2)) (values.drop (values.length / 2))

theorem length_foldHalves (h : values.length = 2 * half) : (foldHalves op values).length = half := by
  rw [foldHalves, List.length_zipWith, List.length_take, List.length_drop, h]
  omega

/-- The two halves of a list of even length. -/
theorem length_halves (h : values.length = 2 * half) :
    (values.take (values.length / 2)).length = (values.drop (values.length / 2)).length := by
  rw [List.length_take, List.length_drop, h]
  omega

/-- After the rounds one element is left, and it has what every round keeps. -/
theorem exists_iterate_foldHalves {fold : List α → β}
    (hround : ∀ {values : List α} {half : ℕ}, values.length = 2 * half → fold (foldHalves op values) = fold values)
    (h : values.length = 2 ^ k) :
    ∃ last, (foldHalves op)^[k] values = [last] ∧ fold [last] = fold values := by
  induction k generalizing values with
  | zero =>
    obtain ⟨last, rfl⟩ := List.length_eq_one_iff.mp h
    exact ⟨last, rfl, rfl⟩
  | succ k ih =>
    rw [pow_succ'] at h
    obtain ⟨last, hlast, hfold⟩ := ih (length_foldHalves h)
    exact ⟨last, hlast, hfold.trans (hround h)⟩

theorem sum_foldHalves [AddCommMonoid α] (h : values.length = 2 * half) :
    (foldHalves (· + ·) values).sum = values.sum := by
  rw [foldHalves, ← List.sum_add_sum_eq_sum_zipWith_of_length_eq _ _ (length_halves h), ← List.sum_append,
    List.take_append_drop]

theorem maximum_append [LinearOrder α] : (left ++ right).maximum = max left.maximum right.maximum := by
  induction left with
  | nil => exact (max_eq_right bot_le).symm
  | cons a left ih => rw [List.cons_append, List.maximum_cons, List.maximum_cons, ih, max_assoc]

theorem maximum_zipWith_max [LinearOrder α] (h : left.length = right.length) :
    (List.zipWith max left right).maximum = max left.maximum right.maximum := by
  induction left generalizing right with
  | nil =>
    obtain rfl := List.length_eq_zero_iff.mp h.symm
    exact (max_self _).symm
  | cons a left ih =>
    obtain ⟨b, right, rfl⟩ := List.exists_cons_of_length_eq_add_one h.symm
    rw [List.zipWith_cons_cons, List.maximum_cons, List.maximum_cons, List.maximum_cons, ih (Nat.succ.inj h),
      WithBot.coe_max, max_max_max_comm]

theorem maximum_foldHalves [LinearOrder α] (h : values.length = 2 * half) :
    (foldHalves max values).maximum = values.maximum := by
  rw [foldHalves, maximum_zipWith_max (length_halves h), ← maximum_append, List.take_append_drop]

end AneLinux.Support
