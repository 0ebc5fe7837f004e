import Mathlib.Data.Finset.Sort
import Mathlib.Order.Interval.Finset.Nat

/-!
# Elements spread by insertions

One value is inserted into a list at several places. The elements of the list keep their order, and what an insertion
does is told by where it moves them. Insertions at ascending places each end up where they were made; the elements land
around them, and this tells where, from the set of the places alone.
-/

namespace AneLinux.Support

variable {α : Type*} {one : α} {old new : List α} {pos pos' : ℕ → ℕ}

/-- The elements of the old list stand in their order at the given places of the new one, and the filler everywhere
else. -/
structure Spread (one : α) (old new : List α) (pos : ℕ → ℕ) : Prop where
  mono : ∀ s t, s < t → t < old.length → pos s < pos t
  bound : ∀ t < old.length, pos t < new.length
  kept : ∀ t < old.length, new[pos t]? = old[t]?
  filled : ∀ i < new.length, (∀ t < old.length, pos t ≠ i) → new[i]? = some one

/-- Where an insertion moves a place. -/
def shift (i p : ℕ) : ℕ := if p < i then p else p + 1

theorem Spread.refl (one : α) (old : List α) : Spread one old old id where
  mono _ _ h _ := h
  bound _ h := h
  kept _ _ := rfl
  filled i hi h := (h i hi rfl).elim

theorem Spread.congr (h : Spread one old new pos) (hpos : ∀ t < old.length, pos' t = pos t) :
    Spread one old new pos' where
  mono s t hst ht := by
    rw [hpos s (hst.trans ht), hpos t ht]
    exact h.mono s t hst ht
  bound t ht := hpos t ht ▸ h.bound t ht
  kept t ht := hpos t ht ▸ h.kept t ht
  filled i hi hne := h.filled i hi fun t ht => hpos t ht ▸ hne t ht

/-- One more insertion. -/
theorem Spread.insertIdx (h : Spread one old new pos) {i : ℕ} (hi : i ≤ new.length) :
    Spread one old (new.insertIdx i one) fun t => shift i (pos t) where
  mono s t hst ht := by
    have := h.mono s t hst ht
    simp only [shift]
    split <;> split <;> omega
  bound t ht := by
    have := h.bound t ht
    rw [List.length_insertIdx_of_le_length hi]
    simp only [shift]
    split <;> omega
  kept t ht := by
    rw [← h.kept t ht]
    simp only [shift]
    split
    · next hlt => rw [List.getElem?_insertIdx_of_lt hlt]
    · next hle => rw [List.getElem?_insertIdx_of_gt (by omega), Nat.add_sub_cancel]
  filled j hj hne := by
    rw [List.length_insertIdx_of_le_length hi] at hj
    obtain hlt | rfl | hgt := Nat.lt_trichotomy j i
    · rw [List.getElem?_insertIdx_of_lt hlt]
      refine h.filled j (by omega) fun t ht heq => hne t ht ?_
      rw [heq, shift, if_pos hlt]
    · rw [List.getElem?_insertIdx_self, if_pos hi]
    · rw [List.getElem?_insertIdx_of_gt hgt]
      refine h.filled (j - 1) (by omega) fun t ht heq => hne t ht ?_
      rw [heq, shift, if_neg (by omega)]
      omega

/-- Insertions into a list that itself comes from insertions. -/
theorem Spread.trans {mid : List α} (h : Spread one old mid pos) (h' : Spread one mid new pos') :
    Spread one old new (pos' ∘ pos) where
  mono s t hst ht := h'.mono _ _ (h.mono s t hst ht) (h.bound t ht)
  bound t ht := h'.bound _ (h.bound t ht)
  kept t ht := (h'.kept _ (h.bound t ht)).trans (h.kept t ht)
  filled i hi hne := by
    by_cases hsome : ∃ j < mid.length, pos' j = i
    · obtain ⟨j, hj, rfl⟩ := hsome
      rw [h'.kept j hj]
      exact h.filled j hj fun t ht heq => hne t ht (congrArg pos' heq)
    · push Not at hsome
      exact h'.filled i hi hsome

/-- The place of an element other than the filler can be told from the new list. -/
theorem Spread.pos_eq (h : Spread one old new pos) (h' : Spread one old new pos') {t : ℕ} (ht : t < old.length)
    (hne : old[t]? ≠ some one) : pos t = pos' t := by
  have hearlier {pos pos' : ℕ → ℕ} (h : Spread one old new pos) (h' : Spread one old new pos') {t : ℕ}
      (ht : t < old.length) (hne : old[t]? ≠ some one)
      (ih : ∀ s < t, old[s]? ≠ some one → pos s = pos' s) : ¬ pos t < pos' t := by
    intro hlt
    -- The other spread has an element here, an earlier one.
    by_cases hsome : ∃ s < old.length, pos' s = pos t
    · obtain ⟨s, hs, heq⟩ := hsome
      have hkept : old[s]? = old[t]? := by rw [← h'.kept s hs, heq, h.kept t ht]
      have hst : s < t := by
        by_contra hle
        obtain rfl | hgt := (not_lt.mp hle).eq_or_lt
        · omega
        · have := h'.mono t s hgt hs
          omega
      have hagree := ih s hst (hkept ▸ hne)
      have := h.mono s t hst ht
      omega
    · push Not at hsome
      have hfilled := h'.filled (pos t) (h.bound t ht) hsome
      rw [h.kept t ht] at hfilled
      exact hne hfilled
  induction t using Nat.strong_induction_on with
  | _ t ih =>
    have ih' : ∀ s < t, old[s]? ≠ some one → pos s = pos' s := fun s hs hsne => ih s hs (hs.trans ht) hsne
    have hle := hearlier h h' ht hne ih'
    have hge := hearlier h' h ht hne fun s hs hsne => (ih' s hs hsne).symm
    omega

/-- Elements that are the filler may be counted at other places. -/
theorem Spread.of_agree (h : Spread one old new pos) (hmono : ∀ s t, s < t → t < old.length → pos' s < pos' t)
    (hbound : ∀ t < old.length, pos' t < new.length)
    (hagree : ∀ t < old.length, old[t]? ≠ some one → pos' t = pos t) : Spread one old new pos' := by
  have hinj (s t : ℕ) (hs : s < old.length) (ht : t < old.length) (heq : pos' s = pos' t) : s = t := by
    obtain hlt | rfl | hgt := Nat.lt_trichotomy s t
    · have := hmono s t hlt ht
      omega
    · rfl
    · have := hmono t s hgt hs
      omega
  have hother (i : ℕ) (hi : i < new.length) (hne : ∀ s < old.length, old[s]? ≠ some one → pos s ≠ i) :
      new[i]? = some one := by
    by_cases hsome : ∃ s < old.length, pos s = i
    · obtain ⟨s, hs, rfl⟩ := hsome
      rw [h.kept s hs]
      by_contra hs'
      exact hne s hs hs' rfl
    · push Not at hsome
      exact h.filled i hi hsome
  refine ⟨hmono, hbound, fun t ht => ?_, fun i hi hne => ?_⟩
  · by_cases hone : old[t]? = some one
    · rw [hone]
      refine hother _ (hbound t ht) fun s hs hs' heq => ?_
      rw [← hagree s hs hs'] at heq
      exact hs' (hinj s t hs ht heq ▸ hone)
    · rw [hagree t ht hone, h.kept t ht]
  · exact hother i hi fun s hs hs' => hagree s hs hs' ▸ hne s hs

/-! ## Ascending places -/

/-- How many places of a set are in front of one. -/
def ahead (s : Finset ℕ) (a : ℕ) : ℕ := (s.filter (· < a)).card

/-- Where the elements land around the places of a set: behind each place that has at most so many elements in
front. -/
def landing (s : Finset ℕ) (t : ℕ) : ℕ := t + (s.filter fun a => a ≤ t + ahead s a).card

variable {s : Finset ℕ} {p t : ℕ}

theorem landing_strictMono (s : Finset ℕ) : StrictMono (landing s) := by
  intro t t' h
  have hcard : (s.filter fun a => a ≤ t + ahead s a).card ≤ (s.filter fun a => a ≤ t' + ahead s a).card := by
    refine Finset.card_le_card (Finset.monotone_filter_right s fun a _ ha => ?_)
    omega
  rw [landing, landing]
  omega

theorem landing_le (s : Finset ℕ) (t : ℕ) : landing s t ≤ t + s.card :=
  Nat.add_le_add_left (Finset.card_filter_le _ _) t

/-- Between two places there are no more places than numbers. -/
theorem ahead_le (s : Finset ℕ) (a b : ℕ) : ahead s b ≤ ahead s a + (b - a) := by
  have hsub : s.filter (· < b) ⊆ s.filter (· < a) ∪ Finset.Ico a b := by
    intro x hx
    obtain ⟨hxs, hxb⟩ := Finset.mem_filter.mp hx
    by_cases hxa : x < a
    · exact Finset.mem_union_left _ (Finset.mem_filter.mpr ⟨hxs, hxa⟩)
    · exact Finset.mem_union_right _ (Finset.mem_Ico.mpr ⟨not_lt.mp hxa, hxb⟩)
  calc ahead s b ≤ (s.filter (· < a) ∪ Finset.Ico a b).card := Finset.card_le_card hsub
    _ ≤ ahead s a + (Finset.Ico a b).card := Finset.card_union_le _ _
    _ = ahead s a + (b - a) := by rw [Nat.card_Ico]

/-- No element lands on a place of the set. -/
theorem landing_notMem (s : Finset ℕ) (t : ℕ) : landing s t ∉ s := by
  intro hmem
  by_cases hp : landing s t ≤ t + ahead s (landing s t)
  · -- The place itself and all in front of it are counted.
    have hsub : insert (landing s t) (s.filter (· < landing s t)) ⊆ s.filter fun a => a ≤ t + ahead s a := by
      refine Finset.insert_subset (Finset.mem_filter.mpr ⟨hmem, hp⟩) fun a ha => ?_
      obtain ⟨has, hlt⟩ := Finset.mem_filter.mp ha
      have := ahead_le s a (landing s t)
      exact Finset.mem_filter.mpr ⟨has, by omega⟩
    have hcard := Finset.card_le_card hsub
    rw [Finset.card_insert_of_notMem (by simp)] at hcard
    have : landing s t = t + (s.filter fun a => a ≤ t + ahead s a).card := rfl
    rw [ahead] at hp
    omega
  · -- Only places in front of it are counted.
    have hsub : (s.filter fun a => a ≤ t + ahead s a) ⊆ s.filter (· < landing s t) := by
      intro a ha
      obtain ⟨has, hle⟩ := Finset.mem_filter.mp ha
      refine Finset.mem_filter.mpr ⟨has, ?_⟩
      by_contra hge
      have := ahead_le s (landing s t) a
      omega
    have hcard := Finset.card_le_card hsub
    have : landing s t = t + (s.filter fun a => a ≤ t + ahead s a).card := rfl
    rw [ahead] at hp
    omega

/-- A place behind all others moves the elements that land at it or behind. -/
theorem landing_insert (hp : ∀ a ∈ s, a < p) : landing (insert p s) t = shift p (landing s t) := by
  have hnotMem : p ∉ s := fun h => (hp p h).false
  have hahead (a : ℕ) (ha : a ∈ insert p s) : ahead (insert p s) a = ahead s a := by
    have hle : a ≤ p := by
      obtain rfl | ha := Finset.mem_insert.mp ha
      · exact le_rfl
      · exact (hp a ha).le
    rw [ahead, ahead, Finset.filter_insert, if_neg (by omega)]
  have hself : ahead s p = s.card := by
    rw [ahead, Finset.filter_true_of_mem hp]
  have hfilter : ((insert p s).filter fun a => a ≤ t + ahead (insert p s) a) =
      (insert p s).filter fun a => a ≤ t + ahead s a :=
    Finset.filter_congr fun a ha => by rw [hahead a ha]
  rw [landing, hfilter, Finset.filter_insert, hself]
  split
  · next hle =>
    -- Then every place of the set is counted.
    have hall : (s.filter fun a => a ≤ t + ahead s a) = s := by
      refine Finset.filter_true_of_mem fun a ha => ?_
      have hlt := hp a ha
      have := ahead_le s a p
      omega
    rw [Finset.card_insert_of_notMem (by simp [hnotMem]), landing, hall, shift, if_neg (by omega)]
    omega
  · next hgt =>
    have := landing_le s t
    rw [shift, if_pos (by omega), landing]

/-- The places of one part of a set can be counted first, and those of the other part among what is there then. -/
theorem landing_union {u : Finset ℕ} (hdisjoint : Disjoint s u) :
    landing (s ∪ u) t = landing u (t + (s.filter fun a => a ≤ t + ahead (s ∪ u) a).card) := by
  have hahead (p : ℕ) : ahead (s ∪ u) p = ahead s p + ahead u p := by
    rw [ahead, Finset.filter_union, Finset.card_union_of_disjoint (hdisjoint.mono (Finset.filter_subset _ _)
      (Finset.filter_subset _ _)), ahead, ahead]
  have hbehind (p : ℕ) : p ≤ t + ahead (s ∪ u) p ↔
      p ≤ t + (s.filter fun a => a ≤ t + ahead (s ∪ u) a).card + ahead u p := by
    constructor
    · intro hp
      have hsub : s.filter (· < p) ⊆ s.filter fun a => a ≤ t + ahead (s ∪ u) a := by
        refine Finset.monotone_filter_right s fun a _ ha => ?_
        have := ahead_le (s ∪ u) a p
        omega
      have hcard := Finset.card_le_card hsub
      rw [hahead, ahead] at hp
      omega
    · intro hp
      by_contra hlt
      have hsub : (s.filter fun a => a ≤ t + ahead (s ∪ u) a) ⊆ s.filter (· < p) := by
        refine Finset.monotone_filter_right s fun a _ ha => ?_
        have := ahead_le (s ∪ u) p a
        omega
      have hcard := Finset.card_le_card hsub
      rw [hahead, ahead] at hlt
      omega
  have hfilter : (u.filter fun p => p ≤ t + ahead (s ∪ u) p) =
      u.filter fun p => p ≤ t + (s.filter fun a => a ≤ t + ahead (s ∪ u) a).card + ahead u p :=
    Finset.filter_congr fun p _ => hbehind p
  rw [landing, Finset.filter_union, Finset.card_union_of_disjoint (hdisjoint.mono (Finset.filter_subset _ _)
    (Finset.filter_subset _ _)), hfilter, landing, add_assoc]

/-- Elements in their order that avoid all places land where the places say, when nothing else is there. -/
theorem eq_landing {n : ℕ} (hbound : ∀ a ∈ s, a < n + s.card) (hmono : ∀ i j, i < j → j < n → pos i < pos j)
    (hpos : ∀ t < n, pos t < n + s.card) (havoid : ∀ t < n, pos t ∉ s) (ht : t < n) : pos t = landing s t := by
  have hcard : (Finset.range (n + s.card) \ s).card = n := by
    rw [Finset.card_sdiff_of_subset fun a ha => Finset.mem_range.mpr (hbound a ha), Finset.card_range,
      Nat.add_sub_cancel]
  -- Both enumerate what is left below the bound.
  have hunique {f : ℕ → ℕ} (hmono : ∀ i j, i < j → j < n → f i < f j) (hpos : ∀ t < n, f t < n + s.card)
      (havoid : ∀ t < n, f t ∉ s) : (fun i : Fin n => f i) = (Finset.range (n + s.card) \ s).orderEmbOfFin hcard :=
    Finset.orderEmbOfFin_unique hcard
      (fun i => Finset.mem_sdiff.mpr ⟨Finset.mem_range.mpr (hpos i i.isLt), havoid i i.isLt⟩)
      fun i j hij => hmono i j hij j.isLt
  have hlanding := hunique (fun i j hij _ => landing_strictMono s hij)
    (fun t ht => (landing_le s t).trans_lt (by omega)) fun t _ => landing_notMem s t
  exact congrFun ((hunique hmono hpos havoid).trans hlanding.symm) ⟨t, ht⟩

end AneLinux.Support
