import AneLinux.Support.Python
import Mathlib.Data.List.Induction

/-!
# Dictionaries and sorted sets

A dictionary comprehension keeps the last value of every key. A table with unique keys can be read in any
order, and `sorted` of a set does not depend on the order its elements come in.
-/

namespace AneLinux.Support

variable {κ : Type*} {key : κ} {values : List κ}

section Dictionaries

variable {α : Type*} [DecidableEq κ]

/-- A dictionary comprehension over pairs. -/
def dict (pairs : List (κ × α)) : List (κ × α) :=
  pairs.foldl (fun table pair => assign table pair.1 pair.2) []

theorem mem_of_find {table : List (κ × α)} {value : α} (h : find table key = some value) : (key, value) ∈ table := by
  induction table with
  | nil => cases h
  | cons entry rest ih =>
    rw [find] at h
    by_cases hkey : entry.1 = key
    · rw [if_pos hkey] at h
      obtain rfl := hkey
      rw [← Option.some.inj h]
      exact List.mem_cons_self
    · rw [if_neg hkey] at h
      exact List.mem_cons_of_mem _ (ih h)

/-- A read finds nothing exactly when the table does not have the key. -/
theorem find_eq_none_iff {table : List (κ × α)} : find table key = none ↔ key ∉ table.map Prod.fst := by
  induction table with
  | nil => exact ⟨fun _ => List.not_mem_nil, fun _ => rfl⟩
  | cons entry rest ih =>
    rw [find, List.map_cons, List.mem_cons, not_or, eq_comm (a := key)]
    by_cases hkey : entry.1 = key
    · rw [if_pos hkey]
      exact ⟨fun h => absurd h (Option.some_ne_none _), fun h => absurd hkey h.1⟩
    · rw [if_neg hkey, ih]
      exact ⟨fun h => ⟨hkey, h⟩, fun h => h.2⟩

/-- With unique keys a read finds every pair of the table. -/
theorem find_eq_some_iff {table : List (κ × α)} (hkeys : (table.map Prod.fst).Nodup) {value : α} :
    find table key = some value ↔ (key, value) ∈ table := by
  refine ⟨mem_of_find, fun hmem => ?_⟩
  induction table with
  | nil => cases hmem
  | cons entry rest ih =>
    rw [List.map_cons, List.nodup_cons] at hkeys
    rw [find]
    rcases List.mem_cons.mp hmem with heq | hrest
    · obtain rfl := heq
      rw [if_pos rfl]
    · have hne : entry.1 ≠ key := by
        rintro rfl
        exact hkeys.1 (List.mem_map.mpr ⟨_, hrest, rfl⟩)
      rw [if_neg hne]
      exact ih hkeys.2 hrest

/-- A read finds a pair whose key has no other value. -/
theorem find_of_unique {table : List (κ × α)} {value : α} (hmem : (key, value) ∈ table)
    (hunique : ∀ other, (key, other) ∈ table → other = value) : find table key = some value := by
  induction table with
  | nil => cases hmem
  | cons entry rest ih =>
    rw [find]
    by_cases hkey : entry.1 = key
    · rw [if_pos hkey, hunique entry.2 (hkey ▸ List.mem_cons_self)]
    · rw [if_neg hkey]
      rcases List.mem_cons.mp hmem with heq | hrest
      · exact absurd (congrArg Prod.fst heq).symm hkey
      · exact ih hrest fun other hother => hunique other (List.mem_cons_of_mem _ hother)

theorem find_foldl_assign (pairs table : List (κ × α)) (key : κ) :
    find (pairs.foldl (fun table pair => assign table pair.1 pair.2) table) key =
      (find pairs.reverse key).or (find table key) := by
  induction pairs generalizing table with
  | nil => rfl
  | cons pair rest ih =>
    have happend : ∀ l : List (κ × α), find (l ++ [pair]) key =
        (find l key).or (if pair.1 = key then some pair.2 else none) := by
      intro l
      induction l with
      | nil => rfl
      | cons entry l ihl =>
        rw [List.cons_append, find, find, ihl]
        by_cases hkey : entry.1 = key
        · rw [if_pos hkey, if_pos hkey, Option.some_or]
        · rw [if_neg hkey, if_neg hkey]
    rw [List.foldl_cons, ih, find_assign, List.reverse_cons, happend, Option.or_assoc]
    congr 1
    by_cases hkey : pair.1 = key
    · rw [if_pos hkey, if_pos hkey, Option.some_or]
    · rw [if_neg hkey, if_neg hkey, Option.none_or]

/-- A dictionary comprehension is read from its last pair on. -/
theorem find_dict (pairs : List (κ × α)) (key : κ) : find (dict pairs) key = find pairs.reverse key := by
  rw [dict, find_foldl_assign, find, Option.or_none]

/-- With unique keys a dictionary comprehension holds exactly its pairs. -/
theorem find_dict_eq_some_iff {pairs : List (κ × α)} (hkeys : (pairs.map Prod.fst).Nodup) {value : α} :
    find (dict pairs) key = some value ↔ (key, value) ∈ pairs := by
  have hreverse : (pairs.reverse.map Prod.fst).Nodup := by
    rw [List.map_reverse, List.nodup_reverse]
    exact hkeys
  rw [find_dict, find_eq_some_iff hreverse, List.mem_reverse]

theorem map_fst_assign (table : List (κ × α)) (key : κ) (value : α) :
    (assign table key value).map Prod.fst =
      if key ∈ table.map Prod.fst then table.map Prod.fst else table.map Prod.fst ++ [key] := by
  induction table with
  | nil => rfl
  | cons entry rest ih =>
    rw [assign]
    by_cases hkey : entry.1 = key
    · rw [if_pos hkey, if_pos]
      · rw [List.map_cons, List.map_cons, hkey]
      · rw [List.map_cons, hkey]
        exact List.mem_cons_self
    · rw [if_neg hkey, List.map_cons, ih, List.map_cons]
      by_cases hmem : key ∈ rest.map Prod.fst
      · rw [if_pos hmem, if_pos (List.mem_cons_of_mem _ hmem)]
      · rw [if_neg hmem, if_neg, List.cons_append]
        rw [List.mem_cons, not_or]
        exact ⟨Ne.symm hkey, hmem⟩

/-- An assignment keeps the keys unique. -/
theorem nodup_keys_assign {table : List (κ × α)} (h : (table.map Prod.fst).Nodup) (key : κ) (value : α) :
    ((assign table key value).map Prod.fst).Nodup := by
  rw [map_fst_assign]
  split_ifs with hkey
  · exact h
  · exact List.nodup_append.mpr ⟨h, List.nodup_singleton _, fun a ha b hb hab =>
      hkey (List.mem_singleton.mp hb ▸ hab ▸ ha)⟩

/-- The keys of a dictionary comprehension are unique, and they are the keys of its pairs. -/
theorem keys_dict (pairs : List (κ × α)) :
    ((dict pairs).map Prod.fst).Nodup ∧ ∀ key, key ∈ (dict pairs).map Prod.fst ↔ key ∈ pairs.map Prod.fst := by
  induction pairs using List.reverseRecOn with
  | nil => exact ⟨List.nodup_nil, fun key => Iff.rfl⟩
  | append_singleton rest pair ih =>
    have hdict : dict (rest ++ [pair]) = assign (dict rest) pair.1 pair.2 := by
      rw [dict, List.foldl_append]
      rfl
    rw [hdict, map_fst_assign]
    obtain ⟨hnodup, hmem⟩ := ih
    by_cases hkey : pair.1 ∈ (dict rest).map Prod.fst
    · rw [if_pos hkey]
      refine ⟨hnodup, fun key => ?_⟩
      rw [hmem, List.map_append, List.mem_append, List.map_singleton, List.mem_singleton]
      constructor
      · exact Or.inl
      · rintro (h | rfl)
        · exact h
        · exact (hmem _).mp hkey
    · rw [if_neg hkey]
      refine ⟨?_, fun key => ?_⟩
      · rw [List.nodup_append]
        refine ⟨hnodup, List.nodup_singleton _, ?_⟩
        rintro a ha b hb rfl
        rw [List.mem_singleton] at hb
        exact hkey (hb ▸ ha)
      · rw [List.mem_append, hmem, List.map_append, List.mem_append, List.map_singleton]

/-- A dictionary with one key deleted. -/
def del (table : List (κ × α)) (key : κ) : List (κ × α) := table.filter fun entry => entry.1 ≠ key

/-- A deleted key is gone, and every other key keeps its value. -/
theorem find_del (table : List (κ × α)) (key k : κ) :
    find (del table key) k = if key = k then none else find table k := by
  induction table with
  | nil => exact (ite_self none).symm
  | cons entry rest ih =>
    rw [del] at ih
    by_cases hkey : entry.1 = key
    · rw [del, List.filter_cons_of_neg (by simpa using hkey), ih, find]
      by_cases hk : key = k
      · rw [if_pos hk, if_pos hk]
      · rw [if_neg hk, if_neg hk, if_neg (hkey ▸ hk)]
    · rw [del, List.filter_cons_of_pos (by simpa using hkey), find, find, ih]
      by_cases hk : entry.1 = k
      · rw [if_pos hk, if_pos hk, if_neg fun h => hkey (hk.trans h.symm)]
      · rw [if_neg hk, if_neg hk]

theorem nodup_keys_del {table : List (κ × α)} (h : (table.map Prod.fst).Nodup) (key : κ) :
    ((del table key).map Prod.fst).Nodup :=
  h.sublist (List.filter_sublist.map Prod.fst)

/-- With unique keys a deletion takes one entry. -/
theorem perm_cons_del {table : List (κ × α)} (hkeys : (table.map Prod.fst).Nodup) {entry : κ × α}
    (hentry : entry ∈ table) : (entry :: del table entry.1).Perm table := by
  induction table with
  | nil => cases hentry
  | cons first rest ih =>
    rw [List.map_cons, List.nodup_cons] at hkeys
    rcases List.mem_cons.mp hentry with rfl | hrest
    · have hkept : del (entry :: rest) entry.1 = rest := by
        rw [del, List.filter_cons_of_neg (by simp)]
        refine List.filter_eq_self.mpr fun other hother => decide_eq_true fun hkey => hkeys.1 ?_
        exact List.mem_map.mpr ⟨other, hother, hkey⟩
      rw [hkept]
    · have hne : first.1 ≠ entry.1 := fun hkey => hkeys.1 (List.mem_map.mpr ⟨entry, hrest, hkey.symm⟩)
      have hkept : del (first :: rest) entry.1 = first :: del rest entry.1 :=
        List.filter_cons_of_pos (decide_eq_true hne)
      rw [hkept]
      exact (List.Perm.swap first entry _).trans ((ih hkeys.2 hrest).cons first)

/-- Writes to missing keys add their entries at the end. -/
theorem foldl_assign_eq_append {pairs table : List (κ × α)} (h : (table.map Prod.fst ++ pairs.map Prod.fst).Nodup) :
    pairs.foldl (fun table pair => assign table pair.1 pair.2) table = table ++ pairs := by
  induction pairs generalizing table with
  | nil => exact (List.append_nil table).symm
  | cons pair rest ih =>
    rw [List.map_cons] at h
    have hmissing : find table pair.1 = none := by
      refine find_eq_none_iff.mpr fun hmem => ?_
      exact List.disjoint_of_nodup_append h hmem List.mem_cons_self
    rw [List.foldl_cons, assign_of_find_none hmissing, ih, List.append_assoc]
    · rfl
    · rw [List.map_append, List.append_assoc]
      exact h

/-- `table.setdefault(key, []).append(value)` for every pair. -/
def group (pairs : List (κ × α)) : List (κ × List α) :=
  pairs.foldl (fun table pair => assign table pair.1 ((find table pair.1).getD [] ++ [pair.2])) []

/-- The values that pairs have under one key. -/
def valuesOf (pairs : List (κ × α)) (key : κ) : List α := (pairs.filter fun pair => pair.1 = key).map Prod.snd

theorem mem_valuesOf {pairs : List (κ × α)} {value : α} : value ∈ valuesOf pairs key ↔ (key, value) ∈ pairs := by
  unfold valuesOf
  rw [List.mem_map]
  constructor
  · rintro ⟨pair, hpair, rfl⟩
    obtain ⟨hmem, hkey⟩ := List.mem_filter.mp hpair
    obtain rfl := of_decide_eq_true hkey
    exact hmem
  · intro hmem
    exact ⟨(key, value), List.mem_filter.mpr ⟨hmem, decide_eq_true rfl⟩, rfl⟩

theorem group_append_singleton (pairs : List (κ × α)) (pair : κ × α) : group (pairs ++ [pair]) =
    assign (group pairs) pair.1 ((find (group pairs) pair.1).getD [] ++ [pair.2]) := by
  rw [group, List.foldl_append]
  rfl

theorem valuesOf_append_singleton (pairs : List (κ × α)) (pair : κ × α) (key : κ) :
    valuesOf (pairs ++ [pair]) key = valuesOf pairs key ++ if pair.1 = key then [pair.2] else [] := by
  unfold valuesOf
  rw [List.filter_append, List.map_append, List.filter_singleton]
  by_cases hkey : pair.1 = key
  · rw [if_pos hkey, decide_eq_true hkey]
    rfl
  · rw [if_neg hkey, decide_eq_false hkey]
    rfl

/-- A group holds the values of its key in the order they came. -/
theorem find_group (pairs : List (κ × α)) (key : κ) : find (group pairs) key =
    if valuesOf pairs key = [] then none else some (valuesOf pairs key) := by
  induction pairs using List.reverseRecOn with
  | nil => rfl
  | append_singleton rest pair ih =>
    rw [group_append_singleton, find_assign, valuesOf_append_singleton]
    by_cases hkey : pair.1 = key
    · rw [if_pos hkey, if_pos hkey, if_neg (List.append_ne_nil_of_right_ne_nil _ (List.cons_ne_nil _ _)), hkey, ih]
      by_cases hnone : valuesOf rest key = []
      · rw [if_pos hnone, hnone]
        rfl
      · rw [if_neg hnone]
        rfl
    · rw [if_neg hkey, if_neg hkey, List.append_nil, ih]

/-- `table.setdefault(key, []).extend(values)` for every pair. -/
def gather (pairs : List (κ × List α)) : List (κ × List α) :=
  pairs.foldl (fun table pair => assign table pair.1 ((find table pair.1).getD [] ++ pair.2)) []

theorem nodup_keys_group (pairs : List (κ × α)) : ((group pairs).map Prod.fst).Nodup := by
  induction pairs using List.reverseRecOn with
  | nil => exact List.nodup_nil
  | append_singleton rest pair ih =>
    rw [group_append_singleton]
    exact nodup_keys_assign ih _ _

/-- The groups are the nonempty value lists by key. -/
theorem mem_group {pairs : List (κ × α)} {entry : κ × List α} :
    entry ∈ group pairs ↔ entry.2 ≠ [] ∧ entry.2 = valuesOf pairs entry.1 := by
  rw [← find_eq_some_iff (nodup_keys_group pairs), find_group]
  split_ifs with hnone
  · rw [hnone]
    exact ⟨False.elim, fun h => absurd h.2 h.1⟩
  · rw [Option.some.injEq]
    exact ⟨fun h => ⟨h ▸ hnone, h.symm⟩, fun h => h.2.symm⟩

/-- Grouping keeps all the values. -/
theorem perm_flatMap_group (pairs : List (κ × α)) : ((group pairs).flatMap Prod.snd).Perm (pairs.map Prod.snd) := by
  have happend (table : List (κ × List α)) (key : κ) (value : α) :
      ((assign table key ((find table key).getD [] ++ [value])).flatMap Prod.snd).Perm
        (table.flatMap Prod.snd ++ [value]) := by
    induction table with
    | nil => exact List.Perm.refl _
    | cons entry rest ih =>
      rw [find, assign]
      by_cases hkey : entry.1 = key
      · rw [if_pos hkey, if_pos hkey, List.flatMap_cons, List.flatMap_cons, Option.getD_some, List.append_assoc,
          List.append_assoc]
        exact List.perm_append_comm.append_left entry.2
      · rw [if_neg hkey, if_neg hkey, List.flatMap_cons, List.flatMap_cons, List.append_assoc]
        exact ih.append_left entry.2
  induction pairs using List.reverseRecOn with
  | nil => exact List.Perm.refl _
  | append_singleton rest pair ih =>
    rw [group_append_singleton, List.map_append]
    exact (happend _ _ _).trans (ih.append_right _)

end Dictionaries

section Sorted

variable [LinearOrder κ]

/-- `sorted(values)`. -/
def sorted (values : List κ) : List κ := values.insertionSort (· ≤ ·)

theorem mem_sorted {a : κ} : a ∈ sorted values ↔ a ∈ values :=
  (List.perm_insertionSort (· ≤ ·) values).mem_iff

/-- A sorted list depends on its elements only. -/
theorem sorted_eq_of_perm {values' : List κ} (h : values'.Perm values) : sorted values' = sorted values := by
  have hperm : (sorted values').Perm (sorted values) :=
    ((List.perm_insertionSort (· ≤ ·) values').trans h).trans (List.perm_insertionSort (· ≤ ·) values).symm
  exact hperm.eq_of_pairwise (fun a b _ _ hab hba => le_antisymm hab hba)
    (List.pairwise_insertionSort (· ≤ ·) values') (List.pairwise_insertionSort (· ≤ ·) values)

/-- A sorted set depends on its elements only. -/
theorem sorted_eq_of_mem_iff {values' : List κ} (hnodup : values.Nodup) (hnodup' : values'.Nodup)
    (h : ∀ a, a ∈ values' ↔ a ∈ values) : sorted values' = sorted values :=
  sorted_eq_of_perm ((List.perm_ext_iff_of_nodup hnodup' hnodup).mpr h)

end Sorted

end AneLinux.Support
