import AneLinux.Firmware.Validate
import AneLinux.Support.BitField
import Mathlib.Order.Bounds.Basic

/-!
# Doorbell words

A ring notification packs an offset, a size code and a unit into one word. The receiver gets the ring size back as
the code times the unit. The encoder divides by one number for each unit, the decoder shifts by a table, and for the
larger unit the two do not agree.
-/

namespace AneLinux.Firmware

open AneLinux.Support

/-- The bits of a field of a word. -/
structure BitRange where
  high : ℕ
  low : ℕ

/-- How many bits a field has. -/
def BitRange.width (field : BitRange) : ℕ := field.high - field.low + 1

/-- `GENMASK_ULL`. -/
def genmaskUll (field : BitRange) : ℕ := (2 ^ field.width - 1) <<< field.low

/-- `FIELD_PREP`. -/
def fieldPrep (field : BitRange) (value : ℕ) : ℕ := value <<< field.low &&& genmaskUll field

/-- `FIELD_GET`. -/
def fieldGet (field : BitRange) (word : ℕ) : ℕ := (word &&& genmaskUll field) >>> field.low

/-- `DIV_ROUND_UP` on 32-bit numbers. -/
def divRoundUp (n d : ℕ) : ℕ := u32 (n + d - 1) / d

def sz1M : ℕ := 0x100000
def aneEpDoorbellOffset : BitRange := ⟨43, 0⟩
def aneEpDoorbellSizeField : BitRange := ⟨51, 44⟩
def aneEpDoorbellUnit : BitRange := ⟨53, 52⟩

/-- `ane_ep_doorbell_encode`. -/
def aneEpDoorbellEncode (offset size : ℕ) : ℕ :=
  let unit := if sz1M ≤ size then 2 else 1
  let code := divRoundUp size (u32 (1 <<< (unit * 12)))
  offset &&& genmaskUll aneEpDoorbellOffset ||| fieldPrep aneEpDoorbellSizeField code |||
    fieldPrep aneEpDoorbellUnit unit

/-- The `shift` table of the decoder. -/
def doorbellShift (unit : ℕ) : ℕ := [0, 12, 20, 21].getD unit 0

/-- `ane_ep_doorbell_size`. -/
def aneEpDoorbellSize (msg : ℕ) : ℕ :=
  let unit := fieldGet aneEpDoorbellUnit msg
  u32 (fieldGet aneEpDoorbellSizeField msg <<< doorbellShift unit)

/-- The unit that a size is to be rounded to: 4 KiB below 1 MiB, 1 MiB at or above. -/
def sizeUnit (size : ℕ) : ℕ := if size < sz1M then 0x1000 else sz1M

/-- The word means a ring: the size rounded up to its unit, and the offset. -/
structure Rings (word offset size : ℕ) : Prop where
  size : IsLeast {m | sizeUnit size ∣ m ∧ size ≤ m} (aneEpDoorbellSize word)
  offset : fieldGet aneEpDoorbellOffset word = offset

section Fields

/-- A prepared field is the value, cut to the width, in its place. -/
theorem fieldPrep_eq (field : BitRange) (value : ℕ) :
    fieldPrep field value = 2 ^ field.low * (value % 2 ^ field.width) := by
  rw [fieldPrep, genmaskUll, and_mask_eq, Nat.shiftLeft_shiftRight]

/-- A field that is read is a field of the word. -/
theorem fieldGet_eq (field : BitRange) (word : ℕ) : fieldGet field word = word / 2 ^ field.low % 2 ^ field.width := by
  rw [fieldGet, genmaskUll, and_mask_eq, Nat.shiftRight_eq_div_pow, Nat.mul_div_cancel_left _ (Nat.two_pow_pos _),
    Nat.shiftRight_eq_div_pow]

end Fields

section Word

variable {offset size : ℕ}

/-- The fields of the word do not overlap. -/
theorem aneEpDoorbellEncode_eq (hoffset : offset < 2 ^ 32) (size : ℕ) :
    aneEpDoorbellEncode offset size = offset +
      2 ^ 44 * (divRoundUp size (u32 (1 <<< ((if sz1M ≤ size then 2 else 1) * 12))) % 2 ^ 8) +
      2 ^ 52 * (if sz1M ≤ size then 2 else 1) := by
  have hlow : offset &&& genmaskUll aneEpDoorbellOffset = offset := by
    have hmask : genmaskUll aneEpDoorbellOffset = 2 ^ 44 - 1 := rfl
    rw [hmask, Nat.and_two_pow_sub_one_eq_mod]
    exact Nat.mod_eq_of_lt (hoffset.trans (by decide))
  unfold aneEpDoorbellEncode
  dsimp only
  rw [hlow, fieldPrep_eq, fieldPrep_eq]
  generalize divRoundUp size _ = code
  generalize hunit : (if sz1M ≤ size then 2 else 1) = unit
  have hsmall : unit < 2 ^ 2 := by
    rw [← hunit]
    split <;> decide
  change offset ||| 2 ^ 44 * (code % 2 ^ 8) ||| 2 ^ 52 * (unit % 2 ^ 2) =
    offset + 2 ^ 44 * (code % 2 ^ 8) + 2 ^ 52 * unit
  have hcode : code % 2 ^ 8 < 2 ^ 8 := Nat.mod_lt _ (by decide)
  rw [Nat.mod_eq_of_lt hsmall, Nat.or_comm offset, ← Nat.two_pow_add_eq_or_of_lt (by omega),
    Nat.or_comm, ← Nat.two_pow_add_eq_or_of_lt (by omega)]
  omega

/-- The offset comes back. -/
theorem offset_aneEpDoorbellEncode (hoffset : offset < 2 ^ 32) (size : ℕ) :
    fieldGet aneEpDoorbellOffset (aneEpDoorbellEncode offset size) = offset := by
  rw [aneEpDoorbellEncode_eq hoffset, fieldGet_eq]
  generalize divRoundUp size _ % 2 ^ 8 = code
  generalize (if sz1M ≤ size then 2 else 1) = unit
  change (offset + 2 ^ 44 * code + 2 ^ 52 * unit) / 2 ^ 0 % 2 ^ 44 = offset
  omega

/-- The unit comes back, and the code without the bits that do not fit. -/
theorem aneEpDoorbellSize_encode (hoffset : offset < 2 ^ 32) (size : ℕ) :
    aneEpDoorbellSize (aneEpDoorbellEncode offset size) =
      if sz1M ≤ size then u32 (divRoundUp size 0x1000000 % 2 ^ 8 * sz1M)
      else u32 (divRoundUp size 0x1000 % 2 ^ 8 * 0x1000) := by
  have hcode (n : ℕ) : n % 2 ^ 8 < 2 ^ 8 := Nat.mod_lt _ (by decide)
  unfold aneEpDoorbellSize
  rw [aneEpDoorbellEncode_eq hoffset, fieldGet_eq, fieldGet_eq]
  by_cases hlarge : sz1M ≤ size
  · rw [if_pos hlarge, if_pos hlarge]
    have hword := hcode (divRoundUp size 0x1000000)
    change u32 (((offset + 2 ^ 44 * (divRoundUp size 0x1000000 % 2 ^ 8) + 2 ^ 52 * 2) / 2 ^ 44 % 2 ^ 8) <<<
      doorbellShift ((offset + 2 ^ 44 * (divRoundUp size 0x1000000 % 2 ^ 8) + 2 ^ 52 * 2) / 2 ^ 52 % 2 ^ 2)) = _
    generalize divRoundUp size 0x1000000 % 2 ^ 8 = code at hword ⊢
    have hsize : (offset + 2 ^ 44 * code + 2 ^ 52 * 2) / 2 ^ 44 % 2 ^ 8 = code := by omega
    have hunit : (offset + 2 ^ 44 * code + 2 ^ 52 * 2) / 2 ^ 52 % 2 ^ 2 = 2 := by omega
    rw [hsize, hunit, Nat.shiftLeft_eq]
    rfl
  · rw [if_neg hlarge, if_neg hlarge]
    have hword := hcode (divRoundUp size 0x1000)
    change u32 (((offset + 2 ^ 44 * (divRoundUp size 0x1000 % 2 ^ 8) + 2 ^ 52 * 1) / 2 ^ 44 % 2 ^ 8) <<<
      doorbellShift ((offset + 2 ^ 44 * (divRoundUp size 0x1000 % 2 ^ 8) + 2 ^ 52 * 1) / 2 ^ 52 % 2 ^ 2)) = _
    generalize divRoundUp size 0x1000 % 2 ^ 8 = code at hword ⊢
    have hsize : (offset + 2 ^ 44 * code + 2 ^ 52 * 1) / 2 ^ 44 % 2 ^ 8 = code := by omega
    have hunit : (offset + 2 ^ 44 * code + 2 ^ 52 * 1) / 2 ^ 52 % 2 ^ 2 = 1 := by omega
    rw [hsize, hunit, Nat.shiftLeft_eq]
    rfl

end Word

/-- The least multiple of a unit that is not below a size. -/
theorem isLeast_multiple_iff {unit size value : ℕ} (hunit : 0 < unit) :
    IsLeast {m | unit ∣ m ∧ size ≤ m} value ↔ value = (size + unit - 1) / unit * unit := by
  have hleast : IsLeast {m | unit ∣ m ∧ size ≤ m} ((size + unit - 1) / unit * unit) := by
    constructor
    · refine ⟨Nat.dvd_mul_left _ _, ?_⟩
      have hlt : size + unit - 1 < (size + unit - 1) / unit * unit + unit := Nat.lt_div_mul_add hunit
      omega
    · rintro m ⟨⟨k, rfl⟩, hle⟩
      rw [Nat.mul_comm unit k]
      apply Nat.mul_le_mul_right
      rw [Nat.div_le_iff_le_mul_add_pred hunit]
      omega
  constructor
  · exact fun h => h.unique hleast
  · rintro rfl
    exact hleast

/-- A ring size survives the word exactly up to one MiB: from there on the encoder counts 16 MiB and the decoder
1 MiB. -/
theorem aneEpDoorbellEncode_rings_iff {offset size : ℕ} (hoffset : offset < 2 ^ 32) (hsize : 1 ≤ size)
    (hfits : (size + sizeUnit size - 1) / sizeUnit size ≤ 255) :
    Rings (aneEpDoorbellEncode offset size) offset size ↔ size ≤ sz1M := by
  have hrings : Rings (aneEpDoorbellEncode offset size) offset size ↔
      aneEpDoorbellSize (aneEpDoorbellEncode offset size) =
        (size + sizeUnit size - 1) / sizeUnit size * sizeUnit size := by
    have hunit : 0 < sizeUnit size := by
      unfold sizeUnit
      split <;> decide
    rw [← isLeast_multiple_iff hunit]
    exact ⟨fun h => h.size, fun h => ⟨h, offset_aneEpDoorbellEncode hoffset size⟩⟩
  rw [hrings, aneEpDoorbellSize_encode hoffset]
  by_cases hlarge : sz1M ≤ size
  · have hunit : sizeUnit size = sz1M := if_neg (Nat.not_lt.mpr hlarge)
    rw [hunit] at hfits ⊢
    rw [if_pos hlarge]
    clear hrings hunit
    unfold divRoundUp u32 sz1M at *
    have hwrap : (size + 0x1000000 - 1) % 2 ^ 32 = size + 0x1000000 - 1 := Nat.mod_eq_of_lt (by omega)
    have hcode : (size + 0x1000000 - 1) / 0x1000000 ≤ 16 := by omega
    rw [hwrap, Nat.mod_eq_of_lt (a := (size + 0x1000000 - 1) / 0x1000000) (by omega), Nat.mod_eq_of_lt (by omega)]
    constructor
    · intro heq
      have hsame : (size + 0x1000000 - 1) / 0x1000000 = (size + 0x100000 - 1) / 0x100000 := by omega
      omega
    · intro hle
      obtain rfl : size = 0x100000 := by omega
      rfl
  · have hunit : sizeUnit size = 0x1000 := if_pos (Nat.not_le.mp hlarge)
    rw [hunit] at hfits ⊢
    rw [if_neg hlarge]
    clear hrings hunit
    unfold divRoundUp u32 sz1M at *
    omega

/-- A ring of 64 KiB. -/
theorem aneEpDoorbellEncode_rings_64k : Rings (aneEpDoorbellEncode 0x4000 0x10000) 0x4000 0x10000 :=
  (aneEpDoorbellEncode_rings_iff (by decide) (by decide) (by decide)).mpr (by decide)

/-- A ring of 2 MiB comes back as 1 MiB. -/
theorem aneEpDoorbellSize_halves : (0x200000 + sizeUnit 0x200000 - 1) / sizeUnit 0x200000 ≤ 255 ∧
    aneEpDoorbellSize (aneEpDoorbellEncode 0x4000 0x200000) = 0x100000 ∧
    ¬ Rings (aneEpDoorbellEncode 0x4000 0x200000) 0x4000 0x200000 := by
  have hsize : aneEpDoorbellSize (aneEpDoorbellEncode 0x4000 0x200000) = 0x100000 := by decide
  refine ⟨by decide, hsize, fun h => ?_⟩
  have hle := h.size.1.2
  rw [hsize] at hle
  exact absurd hle (by decide)

end AneLinux.Firmware
