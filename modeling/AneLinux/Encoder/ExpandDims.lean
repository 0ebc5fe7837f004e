import AneLinux.Support.Insertion
import Mathlib.Tactic.Linarith

/-!
# The axes of `expand_dims`

The encoder runner inserts the axes of a statement one at a time, in the order of their raw values. An array package
counts a negative axis from the rank of the array it gets, and here that is an intermediate array without the axes that
come later. All negative axes come before the others, so each is counted as if no new axis came to stand behind it.
-/

namespace AneLinux.Encoder

open AneLinux.Support

/-- A host-side constant as it holds axes. -/
inductive AxesConstant
  | sequence (values : List ℤ)
  | single (value : ℤ)

/-- `EncoderRunner.ints`, of the constant that the token names. -/
def ints : AxesConstant → List ℤ
  | .sequence values => values
  | .single value => [value]

/-- The arrays of the array package: their shapes, their elements in row-major order, and `mx.expand_dims`. -/
structure MxArrays (τ β ε : Type) where
  shape : τ → List ℕ
  elements : τ → β
  expandDims : τ → ℤ → Except ε τ

variable {τ β ε : Type} {mx : MxArrays τ β ε} {x : τ} {old : List ℕ} {rank : ℕ}

section Apply

/-- `expand_dims` of `EncoderRunner.apply`. -/
def MxArrays.applyExpandDims (mx : MxArrays τ β ε) (x : τ) (axes : AxesConstant) : Except ε τ :=
  ((ints axes).mergeSort fun a b => a ≤ b).foldlM mx.expandDims x

/-- The documented behaviour: an axis of the result is inserted, a negative one is counted from the back, and an axis
that the result has not is refused. -/
structure MxArrays.Documented (mx : MxArrays τ β ε) : Prop where
  inserts : ∀ x axis, -((mx.shape x).length + 1 : ℤ) ≤ axis → axis ≤ (mx.shape x).length →
    ∃ y, mx.expandDims x axis = .ok y ∧ mx.elements y = mx.elements x ∧
      mx.shape y = (mx.shape x).insertIdx (axis % ((mx.shape x).length + 1)).toNat 1
  refuses : ∀ x axis, ¬ (-((mx.shape x).length + 1 : ℤ) ≤ axis ∧ axis ≤ (mx.shape x).length) →
    ∃ error, mx.expandDims x axis = .error error

end Apply

/-! ## What the program says -/

/-- The place of an axis in the output. -/
def placeOf (rank : ℕ) (axis : ℤ) : ℕ := (axis % rank).toNat

/-- Axes of an output: in its range, and at different places. -/
structure AxesOf (rank : ℕ) (axes : List ℤ) : Prop where
  range : ∀ a ∈ axes, -(rank : ℤ) ≤ a ∧ a < rank
  distinct : (axes.map (placeOf rank)).Nodup

/-- A shape has new dimensions of size 1 at the axes, and the old ones in their order at the other places. -/
def InsertedAt (axes : List ℤ) (old new : List ℕ) : Prop :=
  new.length = old.length + axes.length ∧
    ∃ pos, Spread 1 old new pos ∧ ∀ t < old.length, ∀ a ∈ axes, pos t ≠ placeOf (old.length + axes.length) a

/-- How many of the axes come to stand behind one of them. -/
def behind (rank : ℕ) (axes : List ℤ) (a : ℤ) : ℕ := axes.countP fun b => placeOf rank a < placeOf rank b

/-- The condition: every negative axis is one of the input or the place before all of its dimensions, and the
dimensions that it skips for the new axes behind it are of size 1. -/
structure AxesHarmless (old : List ℕ) (axes : List ℤ) : Prop where
  inRange : ∀ a ∈ axes, -(old.length + 1 : ℤ) ≤ a
  skipped : ∀ a ∈ axes, a < 0 → ∀ t < old.length, a + old.length + 1 ≤ t →
    t < a + old.length + 1 + behind (old.length + axes.length) axes a → old[t]? = some 1

/-! ## The insertions -/

section Insertions

variable {pos : ℕ → ℕ}

/-- Where the elements are after insertions at negative axes. -/
def afterNegative (rank : ℕ) (axes : List ℤ) (t : ℕ) : ℕ := t + axes.countP fun a : ℤ => a + rank + 1 ≤ t

/-- One insertion, as far as the shape tells. -/
theorem expandDims_spread (hmx : mx.Documented) {axis : ℤ} (h : Spread 1 old (mx.shape x) pos)
    (hlo : -((mx.shape x).length + 1 : ℤ) ≤ axis) (hhi : axis ≤ (mx.shape x).length) :
    ∃ y, mx.expandDims x axis = .ok y ∧ mx.elements y = mx.elements x ∧
      (mx.shape y).length = (mx.shape x).length + 1 ∧
      Spread 1 old (mx.shape y) fun t => shift (axis % ((mx.shape x).length + 1)).toNat (pos t) := by
  obtain ⟨y, hy, helements, hshape⟩ := hmx.inserts x axis hlo hhi
  have hplace : (axis % ((mx.shape x).length + 1)).toNat ≤ (mx.shape x).length := by
    have := Int.emod_lt_of_pos axis (by omega : (0 : ℤ) < (mx.shape x).length + 1)
    omega
  refine ⟨y, hy, helements, ?_, hshape ▸ h.insertIdx hplace⟩
  rw [hshape, List.length_insertIdx_of_le_length hplace]

/-- The insertions at ascending negative axes, after some of them. -/
theorem negative_foldlM (hmx : mx.Documented) (earlier rest : List ℤ) (x₀ : τ)
    (hsorted : (earlier ++ rest).Pairwise (· < ·)) (hneg : ∀ a ∈ earlier ++ rest, a < 0)
    (hlo : ∀ a ∈ rest, -(old.length + 1 : ℤ) ≤ a)
    (hlen : (mx.shape x).length = old.length + earlier.length) (helements : mx.elements x = mx.elements x₀)
    (h : Spread 1 old (mx.shape x) (afterNegative old.length earlier)) :
    ∃ y, rest.foldlM mx.expandDims x = .ok y ∧ mx.elements y = mx.elements x₀ ∧
      (mx.shape y).length = old.length + (earlier ++ rest).length ∧
      Spread 1 old (mx.shape y) (afterNegative old.length (earlier ++ rest)) := by
  induction rest generalizing earlier x with
  | nil => exact ⟨x, rfl, helements, by simpa using hlen, by simpa using h⟩
  | cons axis rest ih =>
    obtain ⟨haxis, hlo⟩ := List.forall_mem_cons.mp hlo
    have hnegAxis : axis < 0 := hneg axis (by simp)
    have hearlier : ∀ a ∈ earlier, a < axis := fun a ha =>
      (List.pairwise_append.mp hsorted).2.2 a ha axis List.mem_cons_self
    obtain ⟨y, hy, hyElements, hyLen, hySpread⟩ := expandDims_spread hmx h (by omega) (by omega : axis ≤ _)
    have hplace : (axis % ((mx.shape x).length + 1)).toNat = (axis + old.length + 1 + earlier.length).toNat := by
      rw [← Int.add_emod_right, Int.emod_eq_of_lt (by omega) (by omega), hlen]
      congr 1
      push_cast
      omega
    have happend : earlier ++ axis :: rest = (earlier ++ [axis]) ++ rest := by simp
    have hmoved (t : ℕ) : afterNegative old.length (earlier ++ [axis]) t =
        shift (axis % ((mx.shape x).length + 1)).toNat (afterNegative old.length earlier t) := by
      rw [hplace, afterNegative, List.countP_append, afterNegative, shift]
      have hcount := List.countP_le_length (p := fun a : ℤ => decide (a + old.length + 1 ≤ t)) (l := earlier)
      by_cases ht : axis + old.length + 1 ≤ t
      · have hall : earlier.countP (fun a : ℤ => a + old.length + 1 ≤ t) = earlier.length := by
          refine List.countP_eq_length.mpr fun a ha => decide_eq_true ?_
          have := hearlier a ha
          omega
        rw [hall, if_neg (by omega), List.countP_singleton, if_pos (decide_eq_true ht), Nat.add_assoc]
      · rw [if_pos (by omega), List.countP_singleton, if_neg (ne_true_of_eq_false (decide_eq_false ht)), Nat.add_zero]
    rw [List.foldlM_cons, hy]
    rw [happend] at hsorted hneg ⊢
    exact ih _ hsorted hneg hlo (by rw [hyLen, hlen, List.length_append]; rfl) (hyElements.trans helements)
      (hySpread.congr fun t _ => hmoved t)

/-- Ascending axes of an output leave room for those that follow. -/
theorem add_length_lt {bound : ℤ} {axis : ℤ} {rest : List ℤ} (hsorted : (axis :: rest).Pairwise (· < ·))
    (hbound : ∀ a ∈ axis :: rest, a < bound) : axis + rest.length < bound := by
  induction rest generalizing axis with
  | nil => simpa using hbound axis List.mem_cons_self
  | cons next rest ih =>
    obtain ⟨hlt, hsorted⟩ := List.pairwise_cons.mp hsorted
    have := hlt next List.mem_cons_self
    have := ih hsorted fun a ha => hbound a (List.mem_cons_of_mem axis ha)
    rw [List.length_cons]
    push_cast
    omega

/-- The places of axes that are not negative. -/
def plainPlaces (axes : List ℤ) : Finset ℕ := (axes.map Int.toNat).toFinset

/-- The insertions at ascending axes that are not negative, after some of them. -/
theorem nonnegative_foldlM (hmx : mx.Documented) (earlier rest : List ℤ) (x₀ : τ)
    (hsorted : (earlier ++ rest).Pairwise (· < ·)) (hnonneg : ∀ a ∈ earlier ++ rest, 0 ≤ a)
    (hbound : ∀ a ∈ rest, a < (old.length + (earlier ++ rest).length : ℕ))
    (hlen : (mx.shape x).length = old.length + earlier.length) (helements : mx.elements x = mx.elements x₀)
    (h : Spread 1 old (mx.shape x) (landing (plainPlaces earlier))) :
    ∃ y, rest.foldlM mx.expandDims x = .ok y ∧ mx.elements y = mx.elements x₀ ∧
      (mx.shape y).length = old.length + (earlier ++ rest).length ∧
      Spread 1 old (mx.shape y) (landing (plainPlaces (earlier ++ rest))) := by
  induction rest generalizing earlier x with
  | nil => exact ⟨x, rfl, helements, by simpa using hlen, by simpa using h⟩
  | cons axis rest ih =>
    have haxis : 0 ≤ axis := hnonneg axis (by simp)
    have hearlier : ∀ a ∈ earlier, a < axis := fun a ha =>
      (List.pairwise_append.mp hsorted).2.2 a ha axis List.mem_cons_self
    have hroom := add_length_lt (List.pairwise_append.mp hsorted).2.1 hbound
    rw [List.length_append, List.length_cons] at hroom
    push_cast at hroom
    obtain ⟨y, hy, hyElements, hyLen, hySpread⟩ := expandDims_spread hmx h (by omega : _ ≤ axis) (by omega)
    have hplace : (axis % ((mx.shape x).length + 1)).toNat = axis.toNat := by
      rw [Int.emod_eq_of_lt haxis (by omega)]
    have happend : earlier ++ axis :: rest = (earlier ++ [axis]) ++ rest := by simp
    have hplaces : plainPlaces (earlier ++ [axis]) = insert axis.toNat (plainPlaces earlier) := by
      rw [plainPlaces, plainPlaces, List.map_append, List.toFinset_append, Finset.union_comm]
      rfl
    have hmoved (t : ℕ) : landing (plainPlaces (earlier ++ [axis])) t =
        shift (axis % ((mx.shape x).length + 1)).toNat (landing (plainPlaces earlier) t) := by
      rw [hplaces, hplace]
      refine landing_insert fun p hp => ?_
      obtain ⟨a, ha, rfl⟩ := List.mem_map.mp (List.mem_toFinset.mp hp)
      have := hearlier a ha
      have := hnonneg a (List.mem_append_left _ ha)
      omega
    rw [List.foldlM_cons, hy]
    rw [happend] at hsorted hnonneg hbound ⊢
    exact ih _ hsorted hnonneg (fun a ha => hbound a (List.mem_cons_of_mem axis ha))
      (by rw [hyLen, hlen, List.length_append]; rfl) (hyElements.trans helements) (hySpread.congr fun t _ => hmoved t)

end Insertions

/-! ## The output -/

section Output

variable {axes : List ℤ}

/-- Ascending axes are the negative ones, followed by the others. -/
theorem sorted_eq_append {axes : List ℤ} (hsorted : axes.Pairwise (· < ·)) :
    axes = axes.filter (· < 0) ++ axes.filter (0 ≤ ·) := by
  induction axes with
  | nil => rfl
  | cons a rest ih =>
    obtain ⟨hlt, hsorted⟩ := List.pairwise_cons.mp hsorted
    by_cases ha : a < 0
    · rw [List.filter_cons_of_pos (by simpa using ha), List.filter_cons_of_neg (by simpa using ha), List.cons_append,
        ← ih hsorted]
    · have hrest : ∀ b ∈ rest, 0 ≤ b := fun b hb => by
        have := hlt b hb
        omega
      rw [List.filter_cons_of_neg (by simpa using ha), List.filter_cons_of_pos (by simpa using ha),
        List.filter_eq_nil_iff.mpr fun b hb => by simpa using hrest b hb,
        List.filter_eq_self.mpr fun b hb => by simpa using hrest b hb, List.nil_append]

/-- The axes in the order of their insertion. -/
def sortedAxes (axes : List ℤ) : List ℤ := axes.mergeSort fun a b => a ≤ b

theorem perm_sortedAxes (axes : List ℤ) : (sortedAxes axes).Perm axes := List.mergeSort_perm _ _

theorem pairwise_sortedAxes (hnodup : axes.Nodup) : (sortedAxes axes).Pairwise (· < ·) := by
  have hle : (sortedAxes axes).Pairwise (· ≤ ·) := by
    refine (List.pairwise_mergeSort (fun a b c hab hbc => ?_) (fun a b => ?_) _).imp fun h => of_decide_eq_true h
    · exact decide_eq_true ((of_decide_eq_true hab).trans (of_decide_eq_true hbc))
    · simpa using le_total a b
  have hne : (sortedAxes axes).Pairwise (· ≠ ·) := (perm_sortedAxes axes).nodup_iff.mpr hnodup
  exact hle.imp₂ (fun a b hle hne => lt_of_le_of_ne hle hne) hne

/-- The places of the axes of an output. -/
def places (rank : ℕ) (axes : List ℤ) : Finset ℕ := (axes.map (placeOf rank)).toFinset

theorem placeOf_cast {a : ℤ} (hlo : -(rank : ℤ) ≤ a) (hhi : a < rank) :
    (placeOf rank a : ℤ) = if a < 0 then a + rank else a := by
  rw [placeOf]
  split
  · rw [← Int.add_emod_right, Int.emod_eq_of_lt (by omega) (by omega)]
    omega
  · rw [Int.emod_eq_of_lt (by omega) hhi]
    omega

theorem AxesOf.nodup (h : AxesOf rank axes) : axes.Nodup := h.distinct.of_map _

theorem AxesOf.card (h : AxesOf rank axes) : (places rank axes).card = axes.length := by
  rw [places, List.toFinset_card_of_nodup h.distinct, List.length_map]

theorem AxesOf.lt (h : AxesOf rank axes) {p : ℕ} (hp : p ∈ places rank axes) : p < rank := by
  obtain ⟨a, ha, rfl⟩ := List.mem_map.mp (List.mem_toFinset.mp hp)
  have hcast := placeOf_cast (h.range a ha).1 (h.range a ha).2
  have := h.range a ha
  split at hcast <;> omega

/-- The places with a property are as many as the axes whose place has it. -/
theorem card_filter_places (hdistinct : (axes.map (placeOf rank)).Nodup) (p : ℕ → Prop) [DecidablePred p] :
    ((places rank axes).filter p).card = axes.countP fun a => p (placeOf rank a) := by
  have hfilter : (places rank axes).filter p = ((axes.map (placeOf rank)).filter fun i => p i).toFinset := by
    ext i
    simp [places]
  rw [hfilter, List.toFinset_card_of_nodup (hdistinct.filter _), ← List.countP_eq_length_filter, List.countP_map]
  rfl

/-- Of the other places, those in front of a place and those behind it are all. -/
theorem AxesOf.ahead_add_behind (h : AxesOf rank axes) {a : ℤ} (ha : a ∈ axes) :
    ahead (places rank axes) (placeOf rank a) + 1 + behind rank axes a = axes.length := by
  have hbehind : behind rank axes a = ((places rank axes).filter (placeOf rank a < ·)).card :=
    (card_filter_places h.distinct _).symm
  have hmem : placeOf rank a ∈ places rank axes := List.mem_toFinset.mpr (List.mem_map_of_mem ha)
  have hsplit : places rank axes = (places rank axes).filter (· < placeOf rank a) ∪
      ({placeOf rank a} ∪ (places rank axes).filter (placeOf rank a < ·)) := by
    ext p
    simp only [Finset.mem_union, Finset.mem_filter, Finset.mem_singleton]
    constructor
    · intro hp
      obtain hlt | heq | hgt := Nat.lt_trichotomy p (placeOf rank a)
      · exact .inl ⟨hp, hlt⟩
      · exact .inr (.inl heq)
      · exact .inr (.inr ⟨hp, hgt⟩)
    · rintro (⟨hp, -⟩ | rfl | ⟨hp, -⟩)
      · exact hp
      · exact hmem
      · exact hp
  have hcard := congrArg Finset.card hsplit
  rw [Finset.card_union_of_disjoint, Finset.card_union_of_disjoint, Finset.card_singleton, h.card] at hcard
  · rw [hbehind, ahead]
    omega
  · simp
  · rw [Finset.disjoint_left]
    intro p hp hp'
    simp only [Finset.mem_union, Finset.mem_filter, Finset.mem_singleton] at hp hp'
    omega

/-- Two counts, of which one counts all that the other does, are the same if it counts no more. -/
theorem countP_eq_iff_of_imp {p q : ℤ → Bool} (h : ∀ a ∈ axes, q a → p a) :
    axes.countP p = axes.countP q ↔ ∀ a ∈ axes, p a → q a := by
  induction axes with
  | nil => simp
  | cons a rest ih =>
    obtain ⟨ha, hrest⟩ := List.forall_mem_cons.mp h
    have hle := List.countP_mono_left hrest
    rw [List.countP_cons, List.countP_cons, List.forall_mem_cons, ← ih hrest]
    cases hp : p a <;> cases hq : q a
    · simp
    · exact absurd (ha hq) (by simp [hp])
    · simp
      omega
    · simp

/-- Where the dimensions are after all insertions, and where they are to be: at the same places, but for those that a
negative axis skips. -/
theorem landing_places_eq_iff {r : ℕ} (h : AxesOf (r + axes.length) axes) {t : ℕ} :
    landing (plainPlaces (axes.filter (0 ≤ ·))) (afterNegative r (axes.filter (· < 0)) t) =
        landing (places (r + axes.length) axes) t ↔
      ∀ a ∈ axes, a < 0 → a + r + 1 ≤ t → ¬ t < a + r + 1 + behind (r + axes.length) axes a := by
  set rank := r + axes.length with hrank
  have hnegative : ((axes.filter (· < 0)).map (placeOf rank)).Nodup :=
    h.distinct.sublist (List.filter_sublist.map _)
  have hplain : ∀ a ∈ axes.filter (0 ≤ ·), a.toNat = placeOf rank a := by
    intro a ha
    obtain ⟨ha, hnonneg⟩ := List.mem_filter.mp ha
    rw [placeOf, Int.emod_eq_of_lt (of_decide_eq_true hnonneg) (h.range a ha).2]
  have hplainPlaces : plainPlaces (axes.filter (0 ≤ ·)) = places rank (axes.filter (0 ≤ ·)) := by
    rw [plainPlaces, places, List.map_congr_left hplain]
  have hunion : places rank axes = places rank (axes.filter (· < 0)) ∪ plainPlaces (axes.filter (0 ≤ ·)) := by
    rw [hplainPlaces]
    ext p
    simp only [places, Finset.mem_union, List.mem_toFinset, List.mem_map, List.mem_filter, decide_eq_true_eq]
    constructor
    · rintro ⟨a, ha, rfl⟩
      obtain hneg | hnonneg := lt_or_ge a 0
      · exact .inl ⟨a, ⟨ha, hneg⟩, rfl⟩
      · exact .inr ⟨a, ⟨ha, hnonneg⟩, rfl⟩
    · rintro (⟨a, ⟨ha, -⟩, rfl⟩ | ⟨a, ⟨ha, -⟩, rfl⟩)
      · exact ⟨a, ha, rfl⟩
      · exact ⟨a, ha, rfl⟩
  have hdisjoint : Disjoint (places rank (axes.filter (· < 0))) (plainPlaces (axes.filter (0 ≤ ·))) := by
    rw [hplainPlaces, Finset.disjoint_left]
    intro p hp hp'
    obtain ⟨a, ha, rfl⟩ := List.mem_map.mp (List.mem_toFinset.mp hp)
    obtain ⟨b, hb, heq⟩ := List.mem_map.mp (List.mem_toFinset.mp hp')
    obtain ⟨ha, hneg⟩ := List.mem_filter.mp ha
    obtain ⟨hb, hnonneg⟩ := List.mem_filter.mp hb
    have hab : b = a := List.inj_on_of_nodup_map h.distinct hb ha heq
    simp only [decide_eq_true_eq] at hneg hnonneg
    omega
  -- A negative axis is in front of a dimension in the output only if it was when it was inserted.
  have hplace (a : ℤ) (ha : a ∈ axes) (hneg : a < 0) :
      placeOf rank a ≤ t + ahead (places rank axes) (placeOf rank a) ↔ a + r + 1 + behind rank axes a ≤ t := by
    have hcast := placeOf_cast (h.range a ha).1 (h.range a ha).2
    have hcount := h.ahead_add_behind ha
    rw [if_pos hneg] at hcast
    omega
  rw [hunion, landing_union hdisjoint, ← hunion, (landing_strictMono _).injective.eq_iff, afterNegative,
    card_filter_places hnegative, Nat.add_left_cancel_iff, List.countP_filter, List.countP_filter, countP_eq_iff_of_imp]
  · simp only [Bool.and_eq_true, decide_eq_true_eq, and_imp, not_lt]
    refine forall₂_congr fun a ha => ⟨fun h hneg hle => ?_, fun h hle hneg => ?_⟩
    · exact (hplace a ha hneg).mp (h hle hneg).1
    · exact ⟨(hplace a ha hneg).mpr (h hneg hle), hneg⟩
  · intro a ha hq
    simp only [Bool.and_eq_true, decide_eq_true_eq] at hq ⊢
    have := (hplace a ha hq.2).mp hq.1
    omega

/-- When the first axis is in range, all insertions are made. -/
theorem applyExpandDims_runs (hmx : mx.Documented) {axes : AxesConstant}
    (h : AxesOf ((mx.shape x).length + (ints axes).length) (ints axes))
    (hlo : ∀ a ∈ ints axes, -((mx.shape x).length + 1 : ℤ) ≤ a) :
    ∃ y, mx.applyExpandDims x axes = .ok y ∧ mx.elements y = mx.elements x ∧
      (mx.shape y).length = (mx.shape x).length + (ints axes).length ∧
      Spread 1 (mx.shape x) (mx.shape y) fun t => landing (plainPlaces ((ints axes).filter (0 ≤ ·)))
        (afterNegative (mx.shape x).length ((ints axes).filter (· < 0)) t) := by
  have hperm := perm_sortedAxes (ints axes)
  have hsorted := pairwise_sortedAxes h.nodup
  have hsplit := sorted_eq_append hsorted
  have hlength := congrArg List.length hsplit
  rw [List.length_append, hperm.length_eq] at hlength
  obtain ⟨mid, hmid, hmidElements, hmidLen, hmidSpread⟩ := negative_foldlM hmx []
    ((sortedAxes (ints axes)).filter (· < 0)) x (hsorted.filter _) (by simp)
    (fun a ha => hlo a (hperm.mem_iff.mp (List.mem_of_mem_filter ha))) rfl rfl
    ((Spread.refl 1 (mx.shape x)).congr fun t _ => rfl)
  obtain ⟨y, hy, hyElements, hyLen, hySpread⟩ := nonnegative_foldlM hmx []
    ((sortedAxes (ints axes)).filter (0 ≤ ·)) mid (hsorted.filter _) (by simp)
    (fun a ha => by
      have := (h.range a (hperm.mem_iff.mp (List.mem_of_mem_filter ha))).2
      rw [hmidLen, List.nil_append, List.nil_append]
      omega)
    rfl rfl ((Spread.refl 1 (mx.shape mid)).congr fun t _ => rfl)
  rw [List.nil_append] at hmidLen hmidSpread hyLen hySpread
  refine ⟨y, ?_, hyElements.trans hmidElements, by omega, (hmidSpread.trans hySpread).congr fun t _ => ?_⟩
  · change (sortedAxes (ints axes)).foldlM mx.expandDims x = _
    rw [hsplit, List.foldlM_append, hmid]
    exact hy
  · rw [Function.comp, afterNegative, afterNegative, (hperm.filter _).countP_eq, plainPlaces, plainPlaces,
      List.toFinset_eq_of_perm _ _ ((hperm.filter _).map _)]

/-- When there is an axis out of range, the first insertion raises. -/
theorem inRange_of_applyExpandDims (hmx : mx.Documented) {axes : AxesConstant} {y : τ} (hnodup : (ints axes).Nodup)
    (hy : mx.applyExpandDims x axes = .ok y) : ∀ a ∈ ints axes, -((mx.shape x).length + 1 : ℤ) ≤ a := by
  intro a ha
  by_contra hlt
  have hmem := (perm_sortedAxes (ints axes)).mem_iff.mpr ha
  have hsorted := pairwise_sortedAxes hnodup
  change (sortedAxes (ints axes)).foldlM mx.expandDims x = .ok y at hy
  cases hlist : sortedAxes (ints axes) with
  | nil =>
    rw [hlist] at hmem
    cases hmem
  | cons first rest =>
    rw [hlist] at hmem hsorted hy
    have hfirst : first ≤ a := by
      obtain rfl | hrest := List.mem_cons.mp hmem
      · exact le_rfl
      · exact ((List.pairwise_cons.mp hsorted).1 a hrest).le
    obtain ⟨error, herror⟩ := hmx.refuses x first (by omega)
    rw [List.foldlM_cons, herror] at hy
    cases hy

/-- `expand_dims` inserts the axes where the program says exactly if no negative axis is out of range for the input or
skips a dimension of another size than 1. -/
theorem applyExpandDims_inserts_iff (mx : MxArrays τ β ε) (hmx : mx.Documented) (x : τ) (axes : AxesConstant)
    (h : AxesOf ((mx.shape x).length + (ints axes).length) (ints axes)) :
    (∃ y, mx.applyExpandDims x axes = .ok y ∧ mx.elements y = mx.elements x ∧
        InsertedAt (ints axes) (mx.shape x) (mx.shape y)) ↔ AxesHarmless (mx.shape x) (ints axes) := by
  have hcard := h.card
  constructor
  · rintro ⟨y, hy, -, hlen, pos, hpos, havoid⟩
    have hlo := inRange_of_applyExpandDims hmx h.nodup hy
    obtain ⟨y', hy', -, -, hspread⟩ := applyExpandDims_runs hmx h hlo
    obtain rfl := Except.ok.inj (hy.symm.trans hy')
    refine ⟨hlo, fun a ha hneg t ht hge hlt => ?_⟩
    have hlanding : pos t = landing (places ((mx.shape x).length + (ints axes).length) (ints axes)) t := by
      refine eq_landing (n := (mx.shape x).length) (fun p hp => by
          rw [hcard]
          exact h.lt hp) hpos.mono
        (fun t ht => by
          rw [hcard, ← hlen]
          exact hpos.bound t ht) (fun t ht hmem => ?_) ht
      obtain ⟨a, ha, heq⟩ := List.mem_map.mp (List.mem_toFinset.mp hmem)
      exact havoid t ht a ha heq.symm
    by_contra hone
    have hsame := hspread.pos_eq hpos ht hone
    rw [hlanding] at hsame
    exact (landing_places_eq_iff h).mp hsame a ha hneg hge hlt
  · intro hharmless
    obtain ⟨y, hy, helements, hlen, hspread⟩ := applyExpandDims_runs hmx h hharmless.inRange
    refine ⟨y, hy, helements, hlen, landing (places ((mx.shape x).length + (ints axes).length) (ints axes)),
      hspread.of_agree (fun s t hst _ => landing_strictMono _ hst) (fun t ht => ?_) (fun t ht hone => ?_),
      fun t _ a ha heq => landing_notMem (places ((mx.shape x).length + (ints axes).length) (ints axes)) t ?_⟩
    · have := landing_le (places ((mx.shape x).length + (ints axes).length) (ints axes)) t
      omega
    · refine ((landing_places_eq_iff h).mpr fun a ha hneg hge hlt => hone ?_).symm
      exact hharmless.skipped a ha hneg t ht hge hlt
    · rw [heq]
      exact List.mem_toFinset.mpr (List.mem_map_of_mem ha)

end Output

/-- Arrays that are their shapes. -/
def shapeArrays : MxArrays (List ℕ) Unit Unit where
  shape x := x
  elements _ := ()
  expandDims x axis :=
    if -(x.length + 1 : ℤ) ≤ axis ∧ axis ≤ x.length then .ok (x.insertIdx (axis % (x.length + 1)).toNat 1)
    else .error ()

theorem documented_shapeArrays : shapeArrays.Documented where
  inserts _ _ hlo hhi := ⟨_, if_pos ⟨hlo, hhi⟩, rfl, rfl⟩
  refuses _ _ h := ⟨(), if_neg h⟩

/-- The last two axes of an output of rank 3: the new dimensions come out at the two sides of the old one. -/
theorem applyExpandDims_skips :
    AxesOf 3 [-2, -1] ∧ shapeArrays.applyExpandDims [5] (.sequence [-2, -1]) = .ok [1, 5, 1] ∧
      ¬ ∃ y, shapeArrays.applyExpandDims [5] (.sequence [-2, -1]) = .ok y ∧
        shapeArrays.elements y = shapeArrays.elements [5] ∧ InsertedAt [-2, -1] [5] (shapeArrays.shape y) := by
  have hsorted : sortedAxes [-2, -1] = [-2, -1] := List.mergeSort_of_pairwise (by decide)
  have happly : shapeArrays.applyExpandDims [5] (.sequence [-2, -1]) = .ok [1, 5, 1] := by
    change (sortedAxes [-2, -1]).foldlM shapeArrays.expandDims [5] = _
    rw [hsorted]
    rfl
  refine ⟨⟨by decide, by decide⟩, happly, ?_⟩
  rintro ⟨y, hy, -, -, pos, hpos, havoid⟩
  obtain rfl := Except.ok.inj (happly.symm.trans hy)
  have hbound : pos 0 < 3 := hpos.bound 0 (by decide)
  have hkept : [1, 5, 1][pos 0]? = some 5 := hpos.kept 0 (by decide)
  have hplaces : placeOf 3 (-2) = 1 ∧ placeOf 3 (-1) = 2 := by decide
  have hone : pos 0 ≠ 1 := hplaces.1 ▸ havoid 0 (by decide) (-2) (by decide)
  have hzero : pos 0 ≠ 0 := by
    intro heq
    rw [heq] at hkept
    cases hkept
  have htwo : pos 0 ≠ 2 := hplaces.2 ▸ havoid 0 (by decide) (-1) (by decide)
  omega

/-- An axis before the only dimension and one behind it. -/
theorem applyExpandDims_inserts_iff_both :
    ∃ y, shapeArrays.applyExpandDims [5] (.sequence [0, -1]) = .ok y ∧
      shapeArrays.elements y = shapeArrays.elements [5] ∧ InsertedAt [0, -1] [5] (shapeArrays.shape y) :=
  (applyExpandDims_inserts_iff shapeArrays documented_shapeArrays [5] (.sequence [0, -1])
    ⟨by decide, by decide⟩).mpr ⟨by decide, by
      intro a ha hneg t ht hge hlt
      obtain rfl : a = -1 := by
        simp [ints] at ha
        omega
      have hbehind : behind 3 [0, -1] (-1) = 0 := by decide
      have hlt' : (t : ℤ) < -1 + 1 + 1 + behind 3 [0, -1] (-1) := hlt
      rw [hbehind] at hlt'
      have hge' : (-1 + 1 + 1 : ℤ) ≤ t := hge
      omega⟩

end AneLinux.Encoder
