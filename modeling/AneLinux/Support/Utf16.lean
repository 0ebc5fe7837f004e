import Mathlib.Data.List.Basic

/-!
# UTF-16

A character is one unit, or a pair of a high and a low surrogate. Decoding is strict: a surrogate outside a pair is an
error. A cut of an encoded text is the encoding of a part of the text, or goes through a pair; then the front part ends
with a high surrogate and cannot be decoded.
-/

namespace AneLinux.Support

/-- The first unit of a pair. -/
def IsHigh (u : ℕ) : Prop := 0xD800 ≤ u ∧ u < 0xDC00

/-- The second unit of a pair. -/
def IsLow (u : ℕ) : Prop := 0xDC00 ≤ u ∧ u < 0xE000

instance (u : ℕ) : Decidable (IsHigh u) := inferInstanceAs (Decidable (_ ∧ _))

instance (u : ℕ) : Decidable (IsLow u) := inferInstanceAs (Decidable (_ ∧ _))

/-- The units of a character. -/
def unitsOf (c : Char) : List ℕ :=
  if c.toNat < 0x10000 then [c.toNat]
  else [0xD800 + (c.toNat - 0x10000) / 0x400, 0xDC00 + (c.toNat - 0x10000) % 0x400]

/-- The units of a text. -/
def encodeUtf16 (text : List Char) : List ℕ := text.flatMap unitsOf

/-- The text of units. -/
def decodeUtf16 : List ℕ → Option (List Char)
  | [] => some []
  | u :: rest =>
    if IsHigh u then
      match rest with
      | [] => none
      | v :: rest =>
        if IsLow v then (decodeUtf16 rest).map (Char.ofNat (0x10000 + (u - 0xD800) * 0x400 + (v - 0xDC00)) :: ·)
        else none
    else if IsLow u then none
    else (decodeUtf16 rest).map (Char.ofNat u :: ·)

variable {text : List Char} {units rest : List ℕ} {c : Char} {u n : ℕ}

/-- The code point of a character is no surrogate. -/
theorem toNat_cases (c : Char) : c.toNat < 0xD800 ∨ 0xDFFF < c.toNat ∧ c.toNat < 0x110000 := c.valid

theorem decodeUtf16_unit (hhigh : ¬IsHigh u) (hlow : ¬IsLow u) :
    decodeUtf16 (u :: rest) = (decodeUtf16 rest).map (Char.ofNat u :: ·) := by
  rw [decodeUtf16.eq_def]
  simp only
  rw [if_neg hhigh, if_neg hlow]

/-- A character in front of units is decoded in front of them. -/
theorem decodeUtf16_unitsOf_append (c : Char) (rest : List ℕ) :
    decodeUtf16 (unitsOf c ++ rest) = (decodeUtf16 rest).map (c :: ·) := by
  have hcases := toNat_cases c
  rw [unitsOf]
  split
  · rename_i hsmall
    have hhigh : ¬IsHigh c.toNat := by
      unfold IsHigh
      omega
    have hlow : ¬IsLow c.toNat := by
      unfold IsLow
      omega
    rw [List.singleton_append, decodeUtf16_unit hhigh hlow, Char.ofNat_toNat]
  · rename_i hlarge
    have hhigh : IsHigh (0xD800 + (c.toNat - 0x10000) / 0x400) := by
      unfold IsHigh
      omega
    have hlow : IsLow (0xDC00 + (c.toNat - 0x10000) % 0x400) := by
      unfold IsLow
      omega
    have hpoint : 0x10000 + (0xD800 + (c.toNat - 0x10000) / 0x400 - 0xD800) * 0x400 +
        (0xDC00 + (c.toNat - 0x10000) % 0x400 - 0xDC00) = c.toNat := by omega
    rw [List.cons_append, List.singleton_append, decodeUtf16, if_pos hhigh, if_pos hlow, hpoint, Char.ofNat_toNat]

/-- An encoded text in front of units is decoded in front of them. -/
theorem decodeUtf16_encode_append (text : List Char) (rest : List ℕ) :
    decodeUtf16 (encodeUtf16 text ++ rest) = (decodeUtf16 rest).map (text ++ ·) := by
  induction text with
  | nil =>
    rw [encodeUtf16, List.flatMap_nil, List.nil_append]
    exact Option.map_id'.symm
  | cons c text ih =>
    have hcons : encodeUtf16 (c :: text) ++ rest = unitsOf c ++ (encodeUtf16 text ++ rest) := by
      rw [encodeUtf16, List.flatMap_cons, List.append_assoc, encodeUtf16]
    rw [hcons, decodeUtf16_unitsOf_append, ih, Option.map_map]
    rfl

/-- Units that end with a high surrogate cannot be decoded. -/
theorem not_isHigh_of_decodeUtf16 (h : decodeUtf16 units = some text) (hlast : units.getLast? = some u) :
    ¬IsHigh u := by
  fun_induction decodeUtf16 units generalizing text with
  | case1 => cases hlast
  | case2 u' hhigh => cases h
  | case3 u' hhigh v rest hlow ih =>
    cases hrest : decodeUtf16 rest with
    | none =>
      rw [hrest] at h
      cases h
    | some more =>
      rw [List.getLast?_cons_cons] at hlast
      cases rest with
      | nil =>
        obtain rfl : v = u := Option.some.inj hlast
        exact fun hhigh' => absurd hhigh'.2 (Nat.not_lt.mpr hlow.1)
      | cons w rest => exact ih hrest hlast
  | case4 u' hhigh v rest hlow => cases h
  | case5 u' rest hhigh hlow => cases h
  | case6 u' rest hhigh hlow ih =>
    cases hrest : decodeUtf16 rest with
    | none =>
      rw [hrest] at h
      cases h
    | some more =>
      cases rest with
      | nil =>
        obtain rfl : u' = u := Option.some.inj hlast
        exact hhigh
      | cons w rest => exact ih hrest hlast

/-- A cut of an encoded text is between two characters, or behind the high surrogate of one. -/
theorem encodeUtf16_cut (text : List Char) (n : ℕ) :
    (∃ front back, text = front ++ back ∧ encodeUtf16 front = (encodeUtf16 text).take n ∧
      encodeUtf16 back = (encodeUtf16 text).drop n) ∨
    ∃ u, IsHigh u ∧ 0 < n ∧ (encodeUtf16 text)[n - 1]? = some u := by
  induction text generalizing n with
  | nil => exact .inl ⟨[], [], rfl, List.take_nil.symm, List.drop_nil.symm⟩
  | cons c text ih =>
    have hcons : encodeUtf16 (c :: text) = unitsOf c ++ encodeUtf16 text := List.flatMap_cons
    rcases Nat.eq_zero_or_pos n with rfl | hpos
    · exact .inl ⟨[], c :: text, rfl, rfl, rfl⟩
    by_cases hwhole : (unitsOf c).length ≤ n
    · obtain ⟨m, rfl⟩ := Nat.exists_eq_add_of_le hwhole
      obtain ⟨front, back, rfl, hfront, hback⟩ | ⟨u, hhigh, hm, hu⟩ := ih m
      · refine .inl ⟨c :: front, back, rfl, ?_, ?_⟩
        · rw [hcons, List.take_length_add_append, ← hfront]
          rfl
        · rw [hcons, List.drop_length_add_append, hback]
      · refine .inr ⟨u, hhigh, hpos, ?_⟩
        rw [hcons, List.getElem?_append_right (by omega), ← hu]
        congr 1
        omega
    · -- The cut is inside the character, which is then a pair.
      have hcases := toNat_cases c
      rw [unitsOf] at hwhole hcons
      split at hwhole
      · rw [List.length_singleton] at hwhole
        omega
      · rename_i hlarge
        rw [if_neg hlarge] at hcons
        have hone : n = 1 := by
          have hpair : ¬2 ≤ n := hwhole
          omega
        refine .inr ⟨0xD800 + (c.toNat - 0x10000) / 0x400, ?_, hpos, ?_⟩
        · unfold IsHigh
          omega
        · rw [hcons, hone]
          rfl

end AneLinux.Support
