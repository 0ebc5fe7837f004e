import AneLinux.Fat.Reader
import Mathlib.Data.List.TakeWhile

/-!
# Long names

A long name is stored thirteen UTF-16 units to an entry, the last part first; the last part ends with a terminator and
padding if there is room. `entries` decodes every part on its own, up to the first padding and the first terminator. So
the entries of a name are decoded to the name exactly when no character is split across two parts and none is the
padding.
-/

namespace AneLinux.Fat

open AneLinux.Support

/-- A long name: some characters other than the terminator, at most 255 units. -/
structure LongName where
  text : List Char
  text_ne_nil : text ≠ []
  no_terminator : Char.ofNat 0 ∉ text
  length_le : (encodeUtf16 text).length ≤ 255

/-- A part of a name with a terminator and padding behind it if there is room. -/
def fill (units : List ℕ) : List ℕ :=
  if units.length < 13 then units ++ 0 :: List.replicate (12 - units.length) 0xFFFF else units

/-- The parts of a name, the first one first. -/
def parts : ℕ → List ℕ → List (List ℕ)
  | 0, _ => []
  | count + 1, units => fill (units.take 13) :: parts count (units.drop 13)

/-- Where a unit is in an entry. -/
def unitPlace (i : ℕ) : ℕ := if i < 5 then 1 + 2 * i else if i < 11 then 14 + 2 * (i - 5) else 28 + 2 * (i - 11)

/-- An entry that holds a part of a long name; its other bytes are free. -/
structure IsFragment (e : Bytes) (number : ℕ) (units : List ℕ) : Prop where
  size_eq : e.size = 32
  number_eq : (e.get 0).toNat = number
  attr_eq : e.get 11 = 0x0F
  units_eq : ∀ i < 13, e.leNat (unitPlace i) 2 = units.getD i 0

namespace LongName

/-- How many parts the name has. -/
def count (name : LongName) : ℕ := ((encodeUtf16 name.text).length + 12) / 13

/-- The parts of the name. -/
def parts (name : LongName) : List (List ℕ) := Fat.parts name.count (encodeUtf16 name.text)

/-- The number of a part; the last one is marked. -/
def number (name : LongName) (k : ℕ) : ℕ := if k + 1 = name.count then k + 1 + 0x40 else k + 1

/-- The entries that hold the name, in the order on disk. -/
def Holds (name : LongName) (fragments : List Bytes) : Prop :=
  List.Forall₂ (fun e part => IsFragment e (name.number part.2) part.1) fragments.reverse name.parts.zipIdx

/-- No character is split across two parts, and none is the padding. -/
structure Whole (name : LongName) : Prop where
  no_padding : padding ∉ name.text
  unsplit : ∀ i u, i % 13 = 12 → (encodeUtf16 name.text)[i]? = some u → ¬IsHigh u

end LongName

section Parts

variable {e : Bytes} {units : List ℕ} {text front stray short : List Char} {texts : List (List Char)} {count number : ℕ}
  {fragments : List Bytes} {name : LongName}

/-- The text of a part. -/
def partText (units : List ℕ) : Option (List Char) := (decodeUtf16 units).map cutText

/-- Parts and their texts. -/
abbrev PartsDecode (parts : List (List ℕ)) (texts : List (List Char)) : Prop :=
  List.Forall₂ (fun units text => partText units = some text) parts texts

/-- Entries and what they add to a long name. -/
abbrev EntriesDecode (fragments : List Bytes) (texts : List (List Char)) : Prop :=
  List.Forall₂ (fun e text => fragmentText e = .ok text) fragments texts

theorem padding_notMem_cutText (text : List Char) : padding ∉ cutText text := by
  intro hmem
  have hpadding := List.mem_takeWhile_imp (List.takeWhile_subset _ hmem)
  exact of_decide_eq_true hpadding rfl

/-- Behind a text without terminator and padding the cut is at the terminator. -/
theorem cutText_fill (hpadding : padding ∉ text) (hterminator : Char.ofNat 0 ∉ text) (n : ℕ) :
    cutText text = text ∧ cutText (text ++ Char.ofNat 0 :: List.replicate n padding) = text := by
  have hfront : ∀ c ∈ text, decide (c ≠ padding) = true := by
    rintro c hc
    exact decide_eq_true fun heq => hpadding (heq ▸ hc)
  have hzero : ∀ c ∈ text, decide (c ≠ Char.ofNat 0) = true := by
    rintro c hc
    exact decide_eq_true fun heq => hterminator (heq ▸ hc)
  have hzeros : text.takeWhile (· ≠ Char.ofNat 0) = text := List.takeWhile_eq_self_iff.mpr hzero
  constructor
  · rw [cutText, List.takeWhile_eq_self_iff.mpr hfront, hzeros]
  · have hcut : (text ++ Char.ofNat 0 :: List.replicate n padding).takeWhile (· ≠ padding) =
        text ++ [Char.ofNat 0] := by
      rw [List.takeWhile_append_of_pos hfront, List.takeWhile_cons_of_pos (by decide)]
      congr 2
      cases n with
      | zero => rfl
      | succ n => rw [List.replicate_succ, List.takeWhile_cons_of_neg (by simp)]
    rw [cutText, hcut, List.takeWhile_append_of_pos hzero, List.takeWhile_cons_of_neg (by simp), List.append_nil]

theorem decodeUtf16_padding (n : ℕ) : decodeUtf16 (List.replicate n 0xFFFF) = some (List.replicate n padding) := by
  induction n with
  | zero => rfl
  | succ n ih =>
    rw [List.replicate_succ, decodeUtf16_unit (by decide) (by decide), ih]
    rfl

/-- A part made of whole characters is decoded to them. -/
theorem partText_fill (hpadding : padding ∉ front) (hterminator : Char.ofNat 0 ∉ front) :
    partText (fill (encodeUtf16 front)) = some front := by
  have hcut := cutText_fill hpadding hterminator (12 - (encodeUtf16 front).length)
  rw [partText, fill]
  split
  · rw [decodeUtf16_encode_append, decodeUtf16_unit (by decide) (by decide), decodeUtf16_padding]
    exact congrArg some hcut.2
  · have hdecode := decodeUtf16_encode_append front []
    rw [List.append_nil] at hdecode
    have hself : decodeUtf16 (encodeUtf16 front) = some front := by
      rw [hdecode, decodeUtf16, Option.map_some, List.append_nil]
    rw [hself]
    exact congrArg some hcut.1

theorem encodeUtf16_eq_nil_iff : encodeUtf16 text = [] ↔ text = [] := by
  rw [encodeUtf16, List.flatMap_eq_nil_iff]
  constructor
  · intro h
    cases text with
    | nil => rfl
    | cons c text =>
      have hc := h c List.mem_cons_self
      rw [unitsOf] at hc
      split at hc
      · cases hc
      · cases hc
  · rintro rfl c hc
    cases hc

/-- The parts of a name without split characters are decoded to it. -/
theorem parts_decode (hpadding : padding ∉ text) (hterminator : Char.ofNat 0 ∉ text)
    (hunsplit : ∀ i u, i % 13 = 12 → (encodeUtf16 text)[i]? = some u → ¬IsHigh u)
    (hcount : (encodeUtf16 text).length ≤ 13 * count) :
    ∃ texts, PartsDecode (parts count (encodeUtf16 text)) texts ∧ texts.flatten = text := by
  induction count generalizing text with
  | zero =>
    have hnil : encodeUtf16 text = [] := List.eq_nil_of_length_eq_zero (by omega)
    exact ⟨[], List.Forall₂.nil, (encodeUtf16_eq_nil_iff.mp hnil).symm⟩
  | succ count ih =>
    obtain ⟨front, back, rfl, hfront, hback⟩ | ⟨u, hhigh, -, hu⟩ := encodeUtf16_cut text 13
    · rw [List.mem_append, not_or] at hpadding hterminator
      obtain ⟨texts, htexts, hflatten⟩ := ih hpadding.2 hterminator.2 (fun i u hi hu => by
          rw [hback, List.getElem?_drop] at hu
          exact hunsplit (13 + i) u (by omega) hu) (by
        rw [hback, List.length_drop]
        omega)
      refine ⟨front :: texts, ?_, by rw [List.flatten_cons, hflatten]⟩
      rw [parts, ← hfront, ← hback]
      exact List.Forall₂.cons (partText_fill hpadding.1 hterminator.1) htexts
    · exact absurd hhigh (hunsplit 12 u rfl hu)

/-- If the parts can be decoded, none ends with a high surrogate. -/
theorem unsplit_of_parts (h : PartsDecode (parts count units) texts) {i u : ℕ} (hi : i % 13 = 12)
    (hlt : i < 13 * count) (hu : units[i]? = some u) : ¬IsHigh u := by
  induction count generalizing units texts i with
  | zero => exact absurd hlt (Nat.not_lt_zero i)
  | succ count ih =>
    rw [parts] at h
    cases h with
    | cons hfirst hrest =>
      by_cases hfront : i < 13
      · obtain rfl : i = 12 := by omega
        obtain ⟨hlong, -⟩ := List.getElem?_eq_some_iff.mp hu
        have hlength : (units.take 13).length = 13 := by
          rw [List.length_take]
          omega
        obtain ⟨text, htext, -⟩ := Option.map_eq_some_iff.mp hfirst
        rw [fill, if_neg (by omega)] at htext
        refine not_isHigh_of_decodeUtf16 htext ?_
        rw [List.getLast?_eq_getElem?, hlength, List.getElem?_take_of_lt (by omega)]
        exact hu
      · have hback : (units.drop 13)[i - 13]? = some u := by
          rw [List.getElem?_drop, Nat.add_sub_cancel' (Nat.le_of_not_lt hfront)]
          exact hu
        have hturn : (i - 13) % 13 = 12 := by omega
        exact ih hrest hturn (by omega) hback

theorem padding_notMem_flatten (h : PartsDecode (parts count units) texts) : padding ∉ texts.flatten := by
  rw [List.mem_flatten]
  rintro ⟨text, htext, hmem⟩
  obtain ⟨i, hi, rfl⟩ := List.getElem_of_mem htext
  have hpart := List.forall₂_iff_get.mp h
  obtain ⟨whole, -, hcut⟩ := Option.map_eq_some_iff.mp (hpart.2 i (by rw [hpart.1]; exact hi) hi)
  rw [List.get_eq_getElem] at hcut
  rw [← hcut] at hmem
  exact padding_notMem_cutText whole hmem

theorem length_fill (units : List ℕ) : (fill (units.take 13)).length = 13 := by
  rw [fill]
  split
  · rename_i hshort
    rw [List.length_append, List.length_cons, List.length_replicate]
    omega
  · rename_i hlong
    have hle := List.length_take_le 13 units
    omega

/-- Every part has thirteen units. -/
theorem length_of_mem_parts {part : List ℕ} (hpart : part ∈ parts count units) : part.length = 13 := by
  induction count generalizing units with
  | zero => cases hpart
  | succ count ih =>
    rcases List.mem_cons.mp hpart with rfl | hpart
    · exact length_fill units
    · exact ih hpart

/-- The bytes of an entry that are decoded are its units, one behind the other. -/
theorem IsFragment.leNat_slices (h : IsFragment e number units) {i : ℕ} (hi : i < 13) :
    (e.slice 1 11 ++ e.slice 14 26 ++ e.slice 28 32).leNat (2 * i) 2 = units.getD i 0 := by
  have hfirst : (e.slice 1 11).size = 10 := by
    rw [Bytes.size_slice, h.size_eq]
    rfl
  have hfront : (e.slice 1 11 ++ e.slice 14 26).size = 22 := by
    rw [Bytes.size_append, hfirst, Bytes.size_slice, h.size_eq]
    rfl
  rw [← h.units_eq i hi]
  refine Bytes.leNat_congr fun k hk => ?_
  rw [Bytes.get_append, hfront, Bytes.get_append, hfirst, unitPlace]
  by_cases hfive : i < 5
  · rw [if_pos (by omega), if_pos (by omega), if_pos hfive, Bytes.get_slice_of_lt _ (by omega)]
    congr 1
    omega
  · rw [if_neg hfive]
    by_cases heleven : i < 11
    · rw [if_pos (by omega), if_neg (by omega), if_pos heleven, Bytes.get_slice_of_lt _ (by omega)]
      congr 1
      omega
    · rw [if_neg (by omega), if_neg heleven, Bytes.get_slice_of_lt _ (by omega)]
      congr 1
      omega

/-- The units of an entry are decoded as a part. -/
theorem fragmentText_eq_ok_iff (h : IsFragment e number units) (hlength : units.length = 13) :
    fragmentText e = .ok text ↔ partText units = some text := by
  have hsize : (e.slice 1 11 ++ e.slice 14 26 ++ e.slice 28 32).size = 26 := by
    rw [Bytes.size_append, Bytes.size_append, Bytes.size_slice, Bytes.size_slice, Bytes.size_slice, h.size_eq]
    rfl
  have hunits : (List.range 13).map (fun i => (e.slice 1 11 ++ e.slice 14 26 ++ e.slice 28 32).leNat (2 * i) 2) =
      units := by
    apply List.ext_getElem
    · rw [List.length_map, List.length_range, hlength]
    · intro i hi hi'
      rw [List.getElem_map, List.getElem_range, h.leNat_slices (by omega), List.getD_eq_getElem?_getD,
        List.getElem?_eq_getElem hi', Option.getD_some]
  have heven : ¬26 % 2 ≠ 0 := by decide
  rw [fragmentText, decodeUtf16le, hsize, if_neg heven, hunits, partText]
  cases decodeUtf16 units with
  | none =>
    constructor
    · intro herror
      cases herror
    · intro hnone
      cases hnone
  | some whole =>
    exact ⟨fun hok => congrArg some (Except.ok.inj hok), fun hsome => congrArg Except.ok (Option.some.inj hsome)⟩

/-- No fragment's text holds padding. -/
theorem padding_notMem_fragmentText (h : fragmentText e = .ok text) : padding ∉ text := by
  obtain ⟨whole, -, hcut⟩ := bind_eq_ok.mp h
  obtain rfl := Except.ok.inj hcut
  exact padding_notMem_cutText whole

/-- An entry that is taken for a part of a long name. -/
structure Collected (e : Bytes) : Prop where
  size_eq : e.size = 32
  not_end : e.get 0 ≠ 0
  not_deleted : e.get 0 ≠ 0xE5
  attr_eq : e.get 11 = 0x0F

theorem length_parts (count : ℕ) (units : List ℕ) : (parts count units).length = count := by
  induction count generalizing units with
  | zero => rfl
  | succ count ih => rw [parts, List.length_cons, ih]

/-- The numbers of the parts are neither the end mark nor the mark of a deleted entry. -/
theorem LongName.Holds.collected (h : name.Holds fragments) : ∀ e ∈ fragments, Collected e := by
  intro e he
  obtain ⟨hlength, hfragment⟩ := List.forall₂_iff_get.mp h
  obtain ⟨k, hk, rfl⟩ := List.getElem_of_mem (List.mem_reverse.mpr he)
  have hk' : k < name.parts.zipIdx.length := hlength ▸ hk
  have hpart := hfragment k hk hk'
  rw [List.get_eq_getElem, List.get_eq_getElem, List.getElem_zipIdx] at hpart
  have hcount : k < name.count := by
    rwa [List.length_zipIdx, LongName.parts, length_parts] at hk'
  have hnumber : 0 < name.number (0 + k) ∧ name.number (0 + k) < 0xE5 := by
    have hle := name.length_le
    rw [LongName.count] at hcount
    rw [LongName.number]
    split
    · omega
    · omega
  have hfirst := hpart.number_eq
  refine ⟨hpart.size_eq, fun hzero => ?_, fun hdeleted => ?_, hpart.attr_eq⟩
  · rw [hzero] at hfirst
    exact absurd hfirst hnumber.1.ne
  · rw [hdeleted] at hfirst
    exact absurd hfirst hnumber.2.ne'

/-- The entries of a name are decoded as its parts, in reverse. -/
theorem LongName.Holds.texts_iff (h : name.Holds fragments) :
    EntriesDecode fragments texts ↔ PartsDecode name.parts texts.reverse := by
  rw [EntriesDecode, PartsDecode, ← List.forall₂_reverse_iff]
  obtain ⟨hlength, hfragment⟩ := List.forall₂_iff_get.mp h
  rw [List.length_zipIdx] at hlength
  rw [List.forall₂_iff_get, List.forall₂_iff_get]
  refine and_congr (by rw [hlength]) ?_
  have hstep : ∀ i (hi : i < fragments.reverse.length) (hi' : i < name.parts.length) (hi'' : i < texts.reverse.length),
      fragmentText (fragments.reverse.get ⟨i, hi⟩) = .ok (texts.reverse.get ⟨i, hi''⟩) ↔
        partText (name.parts.get ⟨i, hi'⟩) = some (texts.reverse.get ⟨i, hi''⟩) := by
    intro i hi hi' hi''
    have hpart := hfragment i hi (by rwa [List.length_zipIdx])
    rw [List.get_eq_getElem, List.get_eq_getElem, List.getElem_zipIdx] at hpart
    exact fragmentText_eq_ok_iff hpart (length_of_mem_parts (List.getElem_mem hi'))
  constructor
  · intro hall i hi hi'
    exact (hstep i (hi.trans_eq hlength.symm) hi hi').mp (hall i (hi.trans_eq hlength.symm) hi')
  · intro hall i hi hi'
    exact (hstep i hi (hi.trans_eq hlength) hi').mpr (hall i (hi.trans_eq hlength) hi')

/-- A long name comes out behind other text exactly when there is none and the name is whole. -/
theorem LongName.Holds.name_iff (h : name.Holds fragments) (hstray : padding ∉ stray) (hshort : padding ∉ short) :
    (∃ texts, EntriesDecode fragments texts ∧
      (if texts.reverse.flatten ++ stray ≠ [] then texts.reverse.flatten ++ stray else short) = name.text) ↔
      stray = [] ∧ name.Whole := by
  have hcount : (encodeUtf16 name.text).length ≤ 13 * name.count := by
    rw [LongName.count]
    omega
  constructor
  · rintro ⟨texts, htexts, hname⟩
    have hparts := h.texts_iff.mp htexts
    have hunsplit : ∀ i u, i % 13 = 12 → (encodeUtf16 name.text)[i]? = some u → ¬IsHigh u := by
      intro i u hi hu
      exact unsplit_of_parts hparts hi ((List.getElem?_eq_some_iff.mp hu).1.trans_le hcount) hu
    have hclean : padding ∉ name.text := by
      rw [← hname]
      split
      · rw [List.mem_append, not_or]
        exact ⟨padding_notMem_flatten hparts, hstray⟩
      · exact hshort
    obtain ⟨whole, hwhole, hflatten⟩ := parts_decode hclean name.no_terminator hunsplit hcount
    have hsame : texts.reverse = whole := by
      have hfunction : Relator.RightUnique fun units text => partText units = some text :=
        fun units text text' ht ht' => Option.mem_unique ht ht'
      exact hfunction.forall₂ hparts hwhole
    rw [hsame, hflatten, if_pos (List.append_ne_nil_of_left_ne_nil name.text_ne_nil stray),
      List.append_right_eq_self] at hname
    exact ⟨hname, hclean, hunsplit⟩
  · rintro ⟨rfl, hwhole⟩
    obtain ⟨texts, htexts, hflatten⟩ := parts_decode hwhole.no_padding name.no_terminator hwhole.unsplit hcount
    refine ⟨texts.reverse, h.texts_iff.mpr (by rwa [List.reverse_reverse]), ?_⟩
    rw [List.reverse_reverse, hflatten, List.append_nil, if_pos name.text_ne_nil]

end Parts

end AneLinux.Fat
