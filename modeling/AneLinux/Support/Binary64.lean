import Mathlib.Data.Nat.Log
import Mathlib.Tactic.Ring

/-!
# The quotient of two integers as a double

A double is a multiple of its least unit `2 ^ -p` with at most 53 significant bits; `p` is 1074. The quotient of
two integers is rounded to the nearest double, to the even one of two. `le_ceilQuotient_mul` says that its ceiling
is not too small as long as the multiple it stands for is below `2 ^ 53`.

Doubles are counted in least units, so that all numbers are natural. Overflow is left out.
-/

namespace AneLinux.Support

/-- The nearest integer to a quotient, the even one of two. -/
def roundHalfEven (num den : ℕ) : ℕ :=
  let q := num / den
  let r := num % den
  if 2 * r < den then q else if den < 2 * r then q + 1 else q + q % 2

variable {num den k p a b : ℕ}

theorem div_le_roundHalfEven : num / den ≤ roundHalfEven num den := by
  simp only [roundHalfEven]
  split
  · exact Nat.le_refl _
  · split
    · exact Nat.le_succ _
    · exact Nat.le_add_right _ _

/-- A quotient above a midpoint is rounded up. -/
theorem lt_roundHalfEven (hden : 0 < den) (h : (2 * k + 1) * den < 2 * num) : k < roundHalfEven num den := by
  have hdiv := Nat.div_add_mod num den
  have hmod : num % den < den := Nat.mod_lt num hden
  rw [Nat.add_mul, Nat.one_mul, Nat.mul_assoc, Nat.mul_comm k den] at h
  rcases Nat.lt_trichotomy k (num / den) with hless | hsame | hmore
  · exact Nat.lt_of_lt_of_le hless div_le_roundHalfEven
  · rw [← hsame] at hdiv
    simp only [roundHalfEven]
    rw [if_neg (by omega), if_pos (by omega), ← hsame]
    exact Nat.lt_succ_self k
  · have hstep := Nat.mul_le_mul_left den hmore
    rw [Nat.succ_eq_add_one, Nat.mul_add, Nat.mul_one] at hstep
    omega

/-- `a / b`, in least units. -/
def quotientUnits (p a b : ℕ) : ℕ :=
  let scaled := a * 2 ^ p
  let e := Nat.log2 (scaled / b) - 52
  roundHalfEven scaled (b * 2 ^ e) * 2 ^ e

/-- `math.ceil(a / b)`. -/
def ceilQuotient (p a b : ℕ) : ℕ := (quotientUnits p a b + (2 ^ p - 1)) / 2 ^ p

theorem quotientUnits_le : quotientUnits p a b ≤ ceilQuotient p a b * 2 ^ p := by
  have hpos : 0 < 2 ^ p := Nat.two_pow_pos p
  have hlt := Nat.lt_div_mul_add (a := quotientUnits p a b + (2 ^ p - 1)) hpos
  unfold ceilQuotient
  omega

/-- A quotient more than `k` is rounded to more than `k` while `k * b` is below `2 ^ 53`. -/
theorem lt_quotientUnits (hp : 53 ≤ p) (hb : 0 < b) (hk : 0 < k) (hsmall : k * b < 2 ^ 53) (hlt : k * b < a) :
    k * 2 ^ p < quotientUnits p a b := by
  have hpos : 0 < 2 ^ p := Nat.two_pow_pos p
  have hscaled : k * 2 ^ p * b + 2 ^ p ≤ a * 2 ^ p := by
    have hmul := Nat.mul_le_mul_right (2 ^ p) hlt
    rwa [Nat.succ_eq_add_one, Nat.add_mul, Nat.one_mul, Nat.mul_right_comm] at hmul
  have hquot : k * 2 ^ p ≤ a * 2 ^ p / b := by
    rw [Nat.le_div_iff_mul_le hb]
    omega
  have hspos : a * 2 ^ p / b ≠ 0 := by
    have := Nat.mul_pos hk hpos
    omega
  have hlow : 2 ^ (a * 2 ^ p / b).log2 ≤ a * 2 ^ p / b := Nat.log2_self_le hspos
  simp only [quotientUnits]
  generalize he : (a * 2 ^ p / b).log2 - 52 = e
  have hlog : (a * 2 ^ p / b).log2 = e + 52 := by
    have hbig : 2 ^ 53 ≤ a * 2 ^ p / b :=
      (Nat.pow_le_pow_right (by decide) hp).trans ((Nat.le_mul_of_pos_left _ hk).trans hquot)
    have := (Nat.le_log2 hspos).mpr hbig
    omega
  rw [hlog] at hlow
  have hden : 0 < b * 2 ^ e := Nat.mul_pos hb (Nat.two_pow_pos e)
  rcases Nat.lt_or_ge (k * 2 ^ p) (2 ^ (e + 52)) with hbelow | habove
  · have hfloor : 2 ^ 52 ≤ a * 2 ^ p / (b * 2 ^ e) := by
      rw [← Nat.div_div_eq_div_mul, Nat.le_div_iff_mul_le (Nat.two_pow_pos e), ← Nat.pow_add, Nat.add_comm]
      exact hlow
    calc k * 2 ^ p < 2 ^ (e + 52) := hbelow
      _ = 2 ^ 52 * 2 ^ e := by rw [Nat.add_comm, Nat.pow_add]
      _ ≤ _ := Nat.mul_le_mul_right _ (hfloor.trans div_le_roundHalfEven)
  · have hkb : k ≤ k * b := Nat.le_mul_of_pos_right k hb
    have hep : e ≤ p := by
      by_contra hpe
      have hpow : 2 ^ 53 * 2 ^ p ≤ 2 ^ (e + 52) := by
        rw [← Nat.pow_add]
        exact Nat.pow_le_pow_right (by decide) (by omega)
      have hle : 2 ^ 53 ≤ k := Nat.le_of_mul_le_mul_right (hpow.trans habove) hpos
      omega
    have hunits : k * 2 ^ p = k * 2 ^ (p - e) * 2 ^ e := by
      rw [Nat.mul_assoc, ← Nat.pow_add, Nat.sub_add_cancel hep]
    have hhalf : b * 2 ^ e < 2 * 2 ^ p := by
      refine Nat.lt_of_mul_lt_mul_left (a := 2 ^ 52) ?_
      calc 2 ^ 52 * (b * 2 ^ e) = 2 ^ (e + 52) * b := by rw [Nat.pow_add]; ring
        _ ≤ k * 2 ^ p * b := Nat.mul_le_mul_right b habove
        _ = k * b * 2 ^ p := Nat.mul_right_comm _ _ _
        _ < 2 ^ 53 * 2 ^ p := Nat.mul_lt_mul_of_pos_right hsmall hpos
        _ = 2 ^ 52 * (2 * 2 ^ p) := by ring
    rw [hunits]
    refine Nat.mul_lt_mul_of_pos_right (lt_roundHalfEven hden ?_) (Nat.two_pow_pos e)
    have hexpand : (2 * (k * 2 ^ (p - e)) + 1) * (b * 2 ^ e) = 2 * (k * 2 ^ p * b) + b * 2 ^ e := by
      rw [hunits]
      ring
    rw [hexpand]
    omega

/-- The ceiling of a quotient times the divisor is not below the dividend, if it is positive and below `2 ^ 53`. -/
theorem le_ceilQuotient_mul (hp : 53 ≤ p) (hpos : 0 < ceilQuotient p a b * b)
    (hsmall : ceilQuotient p a b * b < 2 ^ 53) :
    a ≤ ceilQuotient p a b * b := by
  by_contra hlt
  have hk := Nat.pos_of_mul_pos_right hpos
  have hb := Nat.pos_of_mul_pos_left hpos
  exact Nat.lt_irrefl _ ((lt_quotientUnits hp hb hk hsmall (Nat.not_le.mp hlt)).trans_le quotientUnits_le)

end AneLinux.Support
