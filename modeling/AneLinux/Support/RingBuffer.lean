import Mathlib.Data.List.Basic

/-!
# Ring buffers and scattered writes

A ring of `size` slots takes its `n`-th entry in slot `n % size`. After any number of entries a
slot holds the latest entry whose index is congruent to it, and the live slots hold exactly the
last entries. The second part of the module is about a loop that writes one place after another:
a place it meets once holds the value written there, and every other place is unchanged.
-/

namespace AneLinux.Support

universe u

/-- The index of the latest of `n` entries that went to slot `j`. -/
def latest (n size j : ℕ) : ℕ := n - 1 - (n - 1 - j) % size

/-- The latest index is the greatest index congruent to the slot. -/
structure IsLatest (n size j i : ℕ) : Prop where
  lt : i < n
  slot : i % size = j
  greatest : ∀ k < n, k % size = j → k ≤ i

section Ring

variable {n size j : ℕ}

/-- The remainder of a sum with a multiple. -/
theorem sub_mod_add {a b : ℕ} (hab : b ≤ a) (hb : b < size) : (a - (a - b) % size) % size = b := by
  have hdecomp := Nat.div_add_mod (a - b) size
  have hstart : a - (a - b) % size = b + size * ((a - b) / size) := by omega
  rw [hstart, Nat.add_mul_mod_self_left, Nat.mod_eq_of_lt hb]

/-- Fewer steps than there are slots lead to another slot. -/
theorem add_mod_ne {d : ℕ} (n : ℕ) (hpos : 0 < d) (hlt : d < size) : (n + d) % size ≠ n % size := by
  intro h
  have hsum := Nat.div_add_mod (n + d) size
  have hn := Nat.div_add_mod n size
  have hdiv : n / size < (n + d) / size := by
    by_contra hle
    have := Nat.mul_le_mul_left size (Nat.not_lt.mp hle)
    omega
  have hmul := Nat.mul_le_mul_left size hdiv
  rw [Nat.mul_succ] at hmul
  omega

/-- The slot that is written holds the new entry. -/
theorem latest_succ_self (n size : ℕ) : latest (n + 1) size (n % size) = n := by
  have hdecomp := Nat.div_add_mod n size
  have hdrop : n - n % size = size * (n / size) := by omega
  rw [latest, Nat.add_sub_cancel, hdrop, Nat.mul_mod_right, Nat.sub_zero]

/-- The other slots keep their latest entry. -/
theorem latest_succ_of_ne (hj : j < n) (hsize : j < size) (hne : j ≠ n % size) :
    latest (n + 1) size j = latest n size j := by
  rw [latest, latest, Nat.add_sub_cancel]
  have hdecomp := Nat.div_add_mod (n - j) size
  have hpos : 0 < (n - j) % size := by
    rcases Nat.eq_zero_or_pos ((n - j) % size) with hzero | hpos
    · exfalso
      apply hne
      have hn : n = j + size * ((n - j) / size) := by omega
      rw [hn, Nat.add_mul_mod_self_left, Nat.mod_eq_of_lt hsize]
    · exact hpos
  have hlt : (n - j) % size < size := Nat.mod_lt _ (by omega)
  have hpred : (n - 1 - j) % size = (n - j) % size - 1 := by
    have hshift : n - 1 - j = (n - j) % size - 1 + size * ((n - j) / size) := by omega
    rw [hshift, Nat.add_mul_mod_self_left, Nat.mod_eq_of_lt (by omega)]
  rw [hpred]
  omega

/-- The latest index is what its name says. -/
theorem isLatest_latest (hj : j < n) (hsize : j < size) : IsLatest n size j (latest n size j) := by
  have hmod := Nat.mod_le (n - 1 - j) size
  refine ⟨by rw [latest]; omega, ?_, fun k hk hslot => ?_⟩
  · exact sub_mod_add (by omega) hsize
  · have hkdecomp := Nat.div_add_mod k size
    have hlt : (n - 1 - j) % size < size := Nat.mod_lt _ (by omega)
    have hdecomp := Nat.div_add_mod (n - 1 - j) size
    have hlatest : latest n size j = j + size * ((n - 1 - j) / size) := by
      rw [latest]
      omega
    have hle : k / size ≤ (n - 1 - j) / size := by
      rw [Nat.le_div_iff_mul_le (by omega), Nat.mul_comm]
      omega
    have hmul := Nat.mul_le_mul_left size hle
    rw [hlatest]
    omega

/-- The latest index of a slot is one of the last indices. -/
theorem IsLatest.window {i : ℕ} (h : IsLatest n size j i) (hsize : 0 < size) : n ≤ i + size := by
  by_contra hlt
  have hnext := h.greatest (i + size) (by omega) (by rw [Nat.add_mod_right]; exact h.slot)
  omega

/-- Each of the last indices is the latest one of its slot. -/
theorem isLatest_of_window {i : ℕ} (hi : i < n) (hwindow : n ≤ i + size) : IsLatest n size (i % size) i := by
  refine ⟨hi, rfl, fun k hk hslot => ?_⟩
  by_contra hlt
  have hk' := Nat.div_add_mod k size
  have hi' := Nat.div_add_mod i size
  have hdiv : i / size < k / size := by
    by_contra hle
    have := Nat.mul_le_mul_left size (Nat.not_lt.mp hle)
    omega
  have hmul := Nat.mul_le_mul_left size hdiv
  rw [Nat.mul_succ] at hmul
  omega

/-- Each of the last entries is found in its slot. -/
theorem latest_of_window {i : ℕ} (hi : i < n) (hwindow : n ≤ i + size) (hslot : i % size < n)
    (hsize : 0 < size) : latest n size (i % size) = i := by
  have hwin := isLatest_of_window hi hwindow
  have hlatest := isLatest_latest hslot (Nat.mod_lt i hsize)
  exact Nat.le_antisymm (hwin.greatest _ hlatest.lt hlatest.slot) (hlatest.greatest i hi rfl)

end Ring

section Writes

variable {ι : Type u} {α : Type u} {κ : Type u} [DecidableEq κ]

/-- Write the value of every element of a list at its place. -/
def writeAll (place : ι → κ) (value : ι → α) (elements : List ι) (memory : κ → α) : κ → α :=
  elements.foldl (fun memory element => Function.update memory (place element) (value element)) memory

/-- A place that no element has is unchanged. -/
theorem writeAll_of_ne {place : ι → κ} {value : ι → α} {elements : List ι} {memory : κ → α} {k : κ}
    (h : ∀ element ∈ elements, k ≠ place element) : writeAll place value elements memory k = memory k := by
  induction elements generalizing memory with
  | nil => rfl
  | cons element rest ih =>
    rw [List.forall_mem_cons] at h
    rw [writeAll, List.foldl_cons, ← writeAll, ih h.2, Function.update_of_ne h.1]

/-- A place that one element has holds the value of that element. -/
theorem writeAll_of_mem {place : ι → κ} {value : ι → α} {elements : List ι} {memory : κ → α} {element : ι}
    (hmem : element ∈ elements) (hinj : ∀ other ∈ elements, place other = place element → other = element) :
    writeAll place value elements memory (place element) = value element := by
  induction elements generalizing memory with
  | nil => simp at hmem
  | cons first rest ih =>
    rw [List.forall_mem_cons] at hinj
    rw [writeAll, List.foldl_cons, ← writeAll]
    by_cases hrest : element ∈ rest
    · exact ih hrest hinj.2
    · have hfirst : element = first := (List.mem_cons.mp hmem).resolve_right hrest
      subst hfirst
      rw [writeAll_of_ne, Function.update_self]
      intro other hother hplace
      exact hrest (hinj.2 other hother hplace.symm ▸ hother)

end Writes

end AneLinux.Support
