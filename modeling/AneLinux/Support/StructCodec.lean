import AneLinux.Support.Python
import Mathlib.Algebra.BigOperators.Group.List.Basic

/-!
# Little-endian structures

A structure format is the list of the widths of its fields. Packing checks every value
against its width and concatenates the little-endian words; unpacking reads the words back
at their running offsets. The two are inverse, and a packed field can also be read at its
own offset by a consumer that knows nothing of the other fields.
-/

namespace AneLinux.Support

open Bytes

/-- Pack one unsigned field of `width` bytes; a value that does not fit is a struct error. -/
def packField (width : ℕ) (value : ℤ) : Py Bytes :=
  if 0 ≤ value ∧ value < 256 ^ width then .ok (ofNat width value.toNat) else .error .structError

/-- `struct.pack` for a little-endian format without padding. -/
def pack : List (ℕ × ℤ) → Py Bytes
  | [] => .ok empty
  | (width, value) :: rest => do
    let field ← packField width value
    let tail ← pack rest
    return field ++ tail

/-- The words of a format read from `offset`. -/
def unpack (d : Bytes) : ℕ → List ℕ → List ℕ
  | _, [] => []
  | offset, width :: rest => d.leNat offset width :: unpack d (offset + width) rest

/-- The little-endian bytes of a number read back as the number, cut to the width. -/
theorem leNat_ofNat (size value offset width : ℕ) (h : offset + width ≤ size) :
    (ofNat size value).leNat offset width = value >>> (8 * offset) % 256 ^ width := by
  induction width generalizing offset with
  | zero => simp [leNat, Nat.mod_one]
  | succ width ih =>
    have hshift : value >>> (8 * (offset + 1)) = value >>> (8 * offset) / 256 := by
      rw [Nat.mul_add, Nat.shiftRight_add]
      exact Nat.shiftRight_eq_div_pow _ 8
    have hbyte : ((ofNat size value).get offset).toNat = value >>> (8 * offset) % 256 := by
      rw [ofNat, get_ofFn, if_pos (by omega), UInt8.toNat_ofNat']
    rw [leNat, ih (offset + 1) (by omega), hshift, hbyte, pow_succ', Nat.mod_mul]

/-- `struct.pack_into("<Q", data, offset, value)` on a mutable buffer. -/
def packU64 (d : Bytes) (offset value : ℕ) : Py Bytes :=
  if offset + 8 ≤ d.size ∧ value < 2 ^ 64 then .ok (d.putLE offset 8 value) else .error .structError

variable {d : Bytes} {offset value width : ℕ}

theorem packU64_eq_ok {e : Bytes} : packU64 d offset value = .ok e ↔
    (offset + 8 ≤ d.size ∧ value < 2 ^ 64) ∧ d.putLE offset 8 value = e := by
  unfold packU64
  split_ifs with h
  · exact ⟨fun he => ⟨h, Except.ok.inj he⟩, fun he => congrArg Except.ok he.2⟩
  · exact ⟨fun he => (by cases he), fun he => absurd he.1 h⟩

/-- A number written at its place reads back. -/
theorem leNat_putLE (hsize : offset + width ≤ d.size) (hvalue : value < 256 ^ width) :
    (d.putLE offset width value).leNat offset width = value := by
  have hword : (d.putLE offset width value).leNat offset width = (ofNat width value).leNat 0 width :=
    leNat_congr fun k hk => by
      rw [get_putLE d hk hsize, Nat.zero_add, ofNat, get_ofFn, if_pos hk]
  rw [hword, leNat_ofNat width value 0 width (by omega), Nat.mul_zero, Nat.shiftRight_zero]
  exact Nat.mod_eq_of_lt hvalue

/-- A number elsewhere is kept. -/
theorem leNat_putLE_of_ne {other w : ℕ} (h : other + w ≤ offset ∨ offset + width ≤ other) :
    (d.putLE offset width value).leNat other w = d.leNat other w :=
  leNat_congr fun k hk => get_putLE_of_ne d (by omega)

/-- A word written at its place reads back. -/
theorem u32_putLE (hsize : offset + 4 ≤ d.size) (hvalue : value < 2 ^ 32) :
    (d.putLE offset 4 value).u32 offset = value := leNat_putLE hsize hvalue

theorem leNat_append_left (a b : Bytes) (h : offset + width ≤ a.size) :
    (a ++ b).leNat offset width = a.leNat offset width :=
  leNat_congr fun _ hk => get_append_left a b (by omega)

theorem leNat_append_right (a b : Bytes) (offset width : ℕ) :
    (a ++ b).leNat (a.size + offset) width = b.leNat offset width := by
  apply leNat_congr
  intro k hk
  rw [get_append_right a b (by omega)]
  congr 1
  omega

theorem unpack_append_right (a b : Bytes) (offset : ℕ) (widths : List ℕ) :
    unpack (a ++ b) (a.size + offset) widths = unpack b offset widths := by
  induction widths generalizing offset with
  | nil => rfl
  | cons width rest ih =>
    rw [unpack, unpack, leNat_append_right, Nat.add_assoc, ih]

/-- What a successful packing read back: its length, its words, and the range of every value. -/
theorem pack_eq_ok {fields : List (ℕ × ℤ)} (h : pack fields = .ok d) :
    d.size = (fields.map Prod.fst).sum ∧
      unpack d 0 (fields.map Prod.fst) = fields.map (fun field => field.2.toNat) ∧
      ∀ field ∈ fields, 0 ≤ field.2 ∧ field.2 < 256 ^ field.1 := by
  induction fields generalizing d with
  | nil =>
    cases h
    exact ⟨rfl, rfl, by simp⟩
  | cons field rest ih =>
    obtain ⟨width, value⟩ := field
    obtain ⟨head, hhead, h⟩ := bind_eq_ok.mp h
    obtain ⟨tail, htail, h⟩ := bind_eq_ok.mp h
    obtain ⟨hsize, hwords, hrange⟩ := ih htail
    unfold packField at hhead
    split_ifs at hhead with hvalue
    have hd := Except.ok.inj h
    obtain rfl := Except.ok.inj hhead
    subst hd
    have hwidth : (ofNat width value.toNat).size = width := rfl
    have hword : (ofNat width value.toNat ++ tail).leNat 0 width = value.toNat := by
      rw [leNat_append_left _ _ (by rw [hwidth]; omega), leNat_ofNat _ _ _ _ (by omega)]
      refine Nat.mod_eq_of_lt ?_
      have hlt := hvalue.2
      rw [← Int.toNat_of_nonneg hvalue.1] at hlt
      exact_mod_cast hlt
    refine ⟨?_, ?_, ?_⟩
    · rw [size_append, hsize, hwidth]
      rfl
    · have htailWords := unpack_append_right (ofNat width value.toNat) tail 0 (rest.map Prod.fst)
      rw [hwidth] at htailWords
      rw [List.map_cons, List.map_cons, unpack, Nat.zero_add, hword]
      exact congrArg _ (htailWords.trans hwords)
    · intro field hfield
      rcases List.mem_cons.mp hfield with rfl | hfield
      · exact hvalue
      · exact hrange field hfield

theorem unpack_append (d : Bytes) (offset : ℕ) (widths more : List ℕ) :
    unpack d offset (widths ++ more) = unpack d offset widths ++ unpack d (offset + widths.sum) more := by
  induction widths generalizing offset with
  | nil => rfl
  | cons width rest ih =>
    rw [List.cons_append, unpack, unpack, ih, List.sum_cons, Nat.add_assoc, List.cons_append]

/-- An array of words of one width is read at its index. -/
theorem unpack_replicate (d : Bytes) (offset count width : ℕ) :
    unpack d offset (List.replicate count width) =
      (List.range count).map fun i => d.leNat (offset + width * i) width := by
  induction count generalizing offset with
  | zero => rfl
  | succ count ih =>
    rw [List.replicate_succ, unpack, ih, List.range_succ_eq_map, List.map_cons, List.map_map]
    refine congrArg₂ _ rfl (List.map_congr_left fun i _ => ?_)
    have hindex : offset + width + width * i = offset + width * (i + 1) := by ring
    rw [hindex]
    rfl

end AneLinux.Support
