import Mathlib.Data.List.Infix

/-!
# Occurrences of a text in a text

Python's `count` and `index` of a text inside another one. A text that is put together from parts has the occurrences
of its parts, and no others, when no occurrence starts in one part and reaches into the next.
-/

namespace AneLinux.Occurrence

variable {α : Type*} {p xs ys zs : List α} {a : α}

/-- No occurrence starts in the first part and reaches into the second one. -/
def Uncut (p xs ys : List α) : Prop := ∀ zs, zs <:+ xs → zs ≠ [] → p <+: zs ++ ys → p <+: zs

theorem Uncut.tail (h : Uncut p (a :: xs) ys) : Uncut p xs ys :=
  fun zs hzs => h zs (hzs.trans (List.suffix_cons a xs))

/-- An occurrence at the head of the first part lies in it. -/
theorem Uncut.prefix_iff (h : Uncut p (a :: xs) ys) : p <+: a :: (xs ++ ys) ↔ p <+: a :: xs :=
  ⟨h (a :: xs) List.suffix_rfl (List.cons_ne_nil a xs), fun hp => hp.trans (List.prefix_append (a :: xs) ys)⟩

/-- A prefix of two parts is one of the first part or reaches into the second. -/
theorem prefix_append_cases (h : p <+: zs ++ ys) : p <+: zs ∨ ∃ reach, reach ≠ [] ∧ p = zs ++ reach ∧ reach <+: ys := by
  by_cases hlen : p.length ≤ zs.length
  · exact .inl (List.prefix_of_prefix_length_le h (List.prefix_append zs ys) hlen)
  · obtain ⟨reach, rfl⟩ := List.prefix_of_prefix_length_le (List.prefix_append zs ys) h (by omega)
    refine .inr ⟨reach, ?_, rfl, (List.prefix_append_right_inj zs).mp h⟩
    rintro rfl
    exact hlen (by simp)

/-- A part that starts with a letter which the text has at most at its head is not reached. -/
theorem uncut_of_notMem_tail (h : a ∉ p.tail) : Uncut p xs (a :: ys) := by
  intro zs _ hne hp
  obtain hp | ⟨reach, hreach, rfl, hys⟩ := prefix_append_cases hp
  · exact hp
  · obtain ⟨b, reach, rfl⟩ := List.exists_cons_of_ne_nil hreach
    obtain ⟨z, zs, rfl⟩ := List.exists_cons_of_ne_nil hne
    obtain ⟨rfl, -⟩ := List.cons_prefix_cons.mp hys
    exact (h (by simp)).elim

/-- A single letter with which the text does not end is not reached. -/
theorem uncut_singleton (h : p.getLast? ≠ some a) : Uncut p xs [a] := by
  intro zs _ _ hp
  obtain hp | ⟨reach, hreach, rfl, hys⟩ := prefix_append_cases hp
  · exact hp
  · obtain ⟨b, reach, rfl⟩ := List.exists_cons_of_ne_nil hreach
    obtain ⟨rfl, htail⟩ := List.cons_prefix_cons.mp hys
    obtain rfl := List.prefix_nil.mp htail
    exact (h (by simp)).elim

/-- No occurrence starts in a part without the first letter of the text. -/
theorem uncut_of_head (h : ∀ b ∈ xs, p.head? ≠ some b) : Uncut p xs ys := by
  intro zs hzs hne hp
  obtain ⟨z, zs, rfl⟩ := List.exists_cons_of_ne_nil hne
  cases p with
  | nil => exact List.nil_prefix
  | cons b p =>
    obtain ⟨rfl, -⟩ := List.cons_prefix_cons.mp hp
    exact (h b (hzs.subset List.mem_cons_self) rfl).elim

theorem uncut_cons (hhead : p <+: a :: (xs ++ ys) → p <+: a :: xs) (h : Uncut p xs ys) : Uncut p (a :: xs) ys := by
  intro zs hzs hne hp
  obtain rfl | hzs := List.suffix_cons_iff.mp hzs
  · exact hhead hp
  · exact h zs hzs hne hp

/-- What occurs in a slice occurs in the whole, inside the slice. -/
theorem exists_of_infix_slice {i n : ℕ} (h : p <:+: (xs.drop i).take n) :
    ∃ k, i ≤ k ∧ k + p.length ≤ i + n ∧ p <+: xs.drop k := by
  obtain ⟨front, back, hslice⟩ := h
  have hlen := congrArg List.length hslice
  simp only [List.length_append, List.length_take] at hlen
  refine ⟨i + front.length, by omega, by omega, ?_⟩
  rw [← List.drop_drop, ← List.take_append_drop n (xs.drop i), ← hslice, List.append_assoc, List.append_assoc,
    List.drop_left]
  exact List.prefix_append p _

theorem infix_append (hp : p ≠ []) (h : Uncut p xs ys) : p <:+: xs ++ ys ↔ p <:+: xs ∨ p <:+: ys := by
  induction xs with
  | nil => simp [hp]
  | cons x xs ih =>
    rw [List.cons_append, List.infix_cons_iff, List.infix_cons_iff, h.prefix_iff, ih h.tail, or_assoc]

/-- A text in the middle of two parts without it occurs there, and nowhere else. -/
theorem prefix_drop_iff {i : ℕ} (hbefore : Uncut p xs (p ++ ys)) (hafter : Uncut p p ys) (hxs : ¬ p <:+: xs)
    (hys : ¬ p <:+: ys) : p <+: (xs ++ (p ++ ys)).drop i ↔ i = xs.length := by
  constructor
  · intro hp
    obtain hlt | heq | hlt := Nat.lt_trichotomy i xs.length
    · rw [List.drop_append_of_le_length hlt.le] at hp
      have hne : xs.drop i ≠ [] := by simpa using hlt
      exact (hxs ((hbefore _ (List.drop_suffix i xs) hne hp).isInfix.trans (List.drop_suffix i xs).isInfix)).elim
    · exact heq
    · obtain ⟨k, rfl⟩ := Nat.exists_eq_add_of_lt hlt
      rw [Nat.add_assoc, ← List.drop_drop, List.drop_left] at hp
      by_cases hk : k + 1 < p.length
      · rw [List.drop_append_of_le_length hk.le] at hp
        have hlen := (hafter _ (List.drop_suffix (k + 1) p) (by simpa using hk) hp).length_le
        rw [List.length_drop] at hlen
        omega
      · obtain ⟨j, hj⟩ := Nat.exists_eq_add_of_le (Nat.not_lt.mp hk)
        rw [hj, ← List.drop_drop, List.drop_left] at hp
        exact (hys (hp.isInfix.trans (List.drop_suffix j ys).isInfix)).elim
  · rintro rfl
    rw [List.drop_left]
    exact List.prefix_append p ys

variable [DecidableEq α]

/-- The occurrences that `count` finds after the next `skip` letters, which belong to the one found last. -/
def countFrom (p : List α) : ℕ → List α → ℕ
  | _, [] => 0
  | skip + 1, _ :: xs => countFrom p skip xs
  | 0, x :: xs => if p <+: x :: xs then countFrom p (p.length - 1) xs + 1 else countFrom p 0 xs

/-- `count`: how often a text occurs, without overlaps, from the left. -/
def count (p xs : List α) : ℕ := countFrom p 0 xs

/-- `index`: the place of the first occurrence. -/
def index (p : List α) : List α → Option ℕ
  | [] => if p = [] then some 0 else none
  | x :: xs => if p <+: x :: xs then some 0 else (index p xs).map (· + 1)

theorem countFrom_append {skip : ℕ} (h : Uncut p xs ys) (hskip : skip ≤ xs.length) :
    countFrom p skip (xs ++ ys) = countFrom p skip xs + count p ys := by
  induction xs generalizing skip with
  | nil =>
    obtain rfl : skip = 0 := by simpa using hskip
    simp [countFrom, count]
  | cons x xs ih =>
    rw [List.cons_append]
    cases skip with
    | succ skip =>
      rw [countFrom, countFrom]
      exact ih h.tail (by simpa using hskip)
    | zero =>
      simp only [countFrom, h.prefix_iff]
      split
      · next hstart =>
        have hlen := hstart.length_le
        rw [List.length_cons] at hlen
        rw [ih h.tail (by omega)]
        omega
      · exact ih h.tail (Nat.zero_le _)

/-- The occurrences in two parts are those of the one and those of the other. -/
theorem count_append (h : Uncut p xs ys) : count p (xs ++ ys) = count p xs + count p ys :=
  countFrom_append h (Nat.zero_le _)

theorem count_eq_zero (h : ¬ p <:+: xs) : count p xs = 0 := by
  induction xs with
  | nil => rfl
  | cons x xs ih =>
    rw [List.infix_cons_iff, not_or] at h
    rw [count, countFrom, if_neg h.1]
    exact ih h.2

/-- A text that starts with an occurrence. -/
theorem count_self (hp : p ≠ []) : count p p = 1 := by
  obtain ⟨a, p, rfl⟩ := List.exists_cons_of_ne_nil hp
  have hskip (xs : List α) : countFrom (a :: p) xs.length xs = 0 := by
    induction xs with
    | nil => rfl
    | cons x xs ih => exact ih
  rw [count, countFrom, if_pos List.prefix_rfl, List.length_cons, Nat.add_sub_cancel, hskip]

theorem index_of_prefix (h : p <+: xs) : index p xs = some 0 := by
  cases xs with
  | nil => rw [index, if_pos (List.prefix_nil.mp h)]
  | cons x xs => rw [index, if_pos h]

/-- The first occurrence lies behind a part that has none. -/
theorem index_append (h : Uncut p xs ys) (hfree : ¬ p <:+: xs) :
    index p (xs ++ ys) = (index p ys).map (· + xs.length) := by
  induction xs with
  | nil => simp
  | cons x xs ih =>
    rw [List.infix_cons_iff, not_or] at hfree
    rw [List.cons_append, index, if_neg fun hstart => hfree.1 (h.prefix_iff.mp hstart), ih h.tail hfree.2,
      Option.map_map]
    rfl

end AneLinux.Occurrence
