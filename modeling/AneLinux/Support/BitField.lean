import Mathlib.Data.Nat.Bitwise
import Mathlib.Tactic.Ring

/-!
# Fields of a word

A field of a word is the `width` bits at `shift`. Replacing a field clears its bits and puts a
value there; every other bit stays. A word is known by a set of fields and the bits outside them.
-/

namespace AneLinux.Support

/-- The field of a word. -/
def fieldAt (word shift width : ℕ) : ℕ := word >>> shift &&& (2 ^ width - 1)

/-- The word with the field cleared and the value in its place. -/
def replaceField (word shift width value : ℕ) : ℕ :=
  word - (word &&& (2 ^ width - 1) <<< shift) ||| value <<< shift

section Fields

variable {word other shift width value bit : ℕ}

/-- A field has the bits of its word. -/
theorem testBit_fieldAt (word shift width bit : ℕ) :
    (fieldAt word shift width).testBit bit = (decide (bit < width) && word.testBit (shift + bit)) := by
  rw [fieldAt, Nat.and_two_pow_sub_one_eq_mod, Nat.testBit_mod_two_pow, Nat.testBit_shiftRight]

/-- Equal fields have equal bits. -/
theorem testBit_eq_of_fieldAt_eq (h : fieldAt word shift width = fieldAt other shift width) (hlo : shift ≤ bit)
    (hhi : bit < shift + width) : word.testBit bit = other.testBit bit := by
  have hbit := congrArg (fun field => field.testBit (bit - shift)) h
  have hin : decide (bit - shift < width) = true := decide_eq_true (by omega)
  simp only [testBit_fieldAt, hin, Bool.true_and, Nat.add_sub_cancel' hlo] at hbit
  exact hbit

/-- The bits under the mask of a field are the field in its place. -/
theorem and_mask_eq (word shift width : ℕ) :
    word &&& (2 ^ width - 1) <<< shift = 2 ^ shift * (word >>> shift % 2 ^ width) := by
  apply Nat.eq_of_testBit_eq
  intro bit
  rw [Nat.testBit_and, Nat.testBit_shiftLeft, Nat.testBit_two_pow_sub_one, Nat.testBit_two_pow_mul,
    Nat.testBit_mod_two_pow, Nat.testBit_shiftRight]
  by_cases hbit : shift ≤ bit
  · rw [Nat.add_sub_cancel' hbit, Bool.and_left_comm, Bool.and_comm (word.testBit bit)]
  · simp [hbit]

/-- A word with a field cleared: what is above it, and what is below it. -/
theorem sub_and_mask_eq (word shift width : ℕ) : word - (word &&& (2 ^ width - 1) <<< shift) =
    2 ^ shift * (2 ^ width * (word >>> shift / 2 ^ width)) + word % 2 ^ shift := by
  have hword : word = 2 ^ shift * (word >>> shift) + word % 2 ^ shift := by
    rw [Nat.shiftRight_eq_div_pow]
    exact (Nat.div_add_mod word (2 ^ shift)).symm
  have hhigh : 2 ^ shift * (word >>> shift) = 2 ^ shift * (2 ^ width * (word >>> shift / 2 ^ width)) +
      2 ^ shift * (word >>> shift % 2 ^ width) := by
    rw [← Nat.mul_add, Nat.div_add_mod]
  rw [and_mask_eq]
  omega

/-- A replaced field has the bits of the value; every other bit is kept. -/
theorem testBit_replaceField (word shift width bit : ℕ) (h : value < 2 ^ width) :
    (replaceField word shift width value).testBit bit =
      if shift ≤ bit ∧ bit < shift + width then value.testBit (bit - shift) else word.testBit bit := by
  have hlow : word % 2 ^ shift < 2 ^ shift := Nat.mod_lt _ (Nat.two_pow_pos shift)
  rw [replaceField, Nat.testBit_or, sub_and_mask_eq, Nat.testBit_two_pow_mul_add _ hlow, Nat.testBit_shiftLeft]
  by_cases hbelow : bit < shift
  · rw [if_pos hbelow, if_neg (by omega), Nat.testBit_mod_two_pow]
    simp [hbelow]
  · rw [if_neg hbelow, Nat.testBit_two_pow_mul, ← Nat.shiftRight_eq_div_pow, Nat.testBit_shiftRight,
      Nat.testBit_shiftRight]
    by_cases hin : bit < shift + width
    · have hout : decide (bit - shift ≥ width) = false := decide_eq_false (by omega)
      have hge : decide (bit ≥ shift) = true := decide_eq_true (by omega)
      rw [if_pos ⟨by omega, hin⟩, hout, hge, Bool.false_and, Bool.false_or, Bool.true_and]
    · have hout : decide (bit - shift ≥ width) = true := decide_eq_true (by omega)
      have hvalue : value.testBit (bit - shift) = false :=
        Nat.testBit_lt_two_pow (h.trans_le (Nat.pow_le_pow_right (by decide) (by omega)))
      have hplace : shift + (width + (bit - shift - width)) = bit := by omega
      rw [if_neg (by omega), hout, hvalue, Bool.and_false, Bool.or_false, Bool.true_and, hplace]

/-- The replaced field holds the value. -/
theorem fieldAt_replaceField (word shift : ℕ) (h : value < 2 ^ width) :
    fieldAt (replaceField word shift width value) shift width = value := by
  apply Nat.eq_of_testBit_eq
  intro bit
  rw [testBit_fieldAt, testBit_replaceField _ _ _ _ h]
  by_cases hbit : bit < width
  · rw [if_pos (by omega), Nat.add_sub_cancel_left, decide_eq_true hbit, Bool.true_and]
  · rw [decide_eq_false hbit, Bool.false_and]
    exact (Nat.testBit_lt_two_pow (h.trans_le (Nat.pow_le_pow_right (by decide) (by omega)))).symm

/-- A field apart from the replaced one is kept. -/
theorem fieldAt_replaceField_of_ne {other w : ℕ} (word : ℕ) (h : value < 2 ^ width)
    (hne : other + w ≤ shift ∨ shift + width ≤ other) :
    fieldAt (replaceField word shift width value) other w = fieldAt word other w := by
  apply Nat.eq_of_testBit_eq
  intro bit
  rw [testBit_fieldAt, testBit_fieldAt, testBit_replaceField _ _ _ _ h]
  by_cases hbit : bit < w
  · rw [if_neg (by omega)]
  · rw [decide_eq_false hbit, Bool.false_and, Bool.false_and]

end Fields

end AneLinux.Support
