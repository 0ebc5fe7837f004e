import Mathlib.Data.BitVec
import AneLinux.Staged.Decoder

/-!
# 16-bit values in byte buffers

Array views over a mapped buffer read and write two bytes at a time, low byte first. A buffer is
known by the values it holds, and a write changes the value at its own offset only.
-/

namespace AneLinux.Runtime

open AneLinux.Support AneLinux.Staged

/-- The `float16` at a byte offset. -/
def halfAt (d : Bytes) (offset : ℕ) : Half := BitVec.ofNat 16 (d.leNat offset 2)

/-- Store a `float16` at a byte offset. -/
def putHalf (d : Bytes) (offset : ℕ) (value : Half) : Bytes := d.putLE offset 2 value.toNat

/-- One of the two bytes of a `float16`. -/
def halfByte (value : Half) (k : ℕ) : UInt8 := UInt8.ofNat (value.toNat >>> (8 * k))

/-- `values.tobytes()`. -/
def tobytes (values : List Half) : Bytes :=
  Bytes.ofFn (2 * values.length) fun i => halfByte (values.getD (i / 2) 0) (i % 2)

@[simp] theorem size_putHalf (d : Bytes) (offset : ℕ) (value : Half) :
    (putHalf d offset value).size = d.size := rfl

@[simp] theorem size_tobytes (values : List Half) : (tobytes values).size = 2 * values.length := rfl

/-- The two bytes of a stored value. -/
theorem get_eq_halfByte (d : Bytes) (offset : ℕ) {k : ℕ} (hk : k < 2) :
    d.get (offset + k) = halfByte (halfAt d offset) k := by
  have hlt := d.leNat_lt offset 2
  rw [d.get_eq_leNat_shiftRight offset 2 k hk, halfByte, halfAt, BitVec.toNat_ofNat,
    Nat.mod_eq_of_lt (by omega)]

/-- A value is read off its two bytes. -/
theorem halfAt_of_bytes {d : Bytes} {offset : ℕ} {value : Half}
    (h : ∀ k < 2, d.get (offset + k) = halfByte value k) : halfAt d offset = value := by
  have hvalue := value.isLt
  have hlow : (d.get offset).toNat = value.toNat % 256 := by
    have := h 0 (by omega)
    simp only [Nat.add_zero, halfByte, Nat.mul_zero, Nat.shiftRight_zero] at this
    rw [this, UInt8.toNat_ofNat']
  have hhigh : (d.get (offset + 1)).toNat = value.toNat / 256 % 256 := by
    have := h 1 (by omega)
    simp only [halfByte, Nat.mul_one, Nat.shiftRight_eq_div_pow] at this
    rw [this, UInt8.toNat_ofNat']
  apply BitVec.eq_of_toNat_eq
  rw [halfAt, BitVec.toNat_ofNat, Bytes.leNat, Bytes.leNat, Bytes.leNat, hlow, hhigh]
  omega

/-- The value that was stored. -/
theorem halfAt_putHalf_self (d : Bytes) {offset : ℕ} (value : Half) (h : offset + 2 ≤ d.size) :
    halfAt (putHalf d offset value) offset = value :=
  halfAt_of_bytes fun _ hk => Bytes.get_putLE d hk h

/-- A store keeps the values at other places. -/
theorem halfAt_putHalf_of_ne (d : Bytes) {offset other : ℕ} (value : Half)
    (h : other + 2 ≤ offset ∨ offset + 2 ≤ other) : halfAt (putHalf d offset value) other = halfAt d other :=
  halfAt_of_bytes fun k hk => by
    rw [← get_eq_halfByte d other hk]
    exact Bytes.get_putLE_of_ne d (by omega)

/-- A region of a buffer is the bytes of a list exactly when it holds the values of the list. -/
theorem slice_eq_tobytes_iff {d : Bytes} {start : ℕ} {values : List Half}
    (hsize : start + 2 * values.length ≤ d.size) :
    d.slice start (start + 2 * values.length) = tobytes values ↔
      ∀ i < values.length, halfAt d (start + 2 * i) = values.getD i 0 := by
  have hget : ∀ i k, i < values.length → k < 2 →
      (d.slice start (start + 2 * values.length)).get (2 * i + k) = d.get (start + 2 * i + k) := by
    intro i k hi hk
    rw [Bytes.get_slice_of_lt d (by omega), Nat.add_assoc]
  have hbyte : ∀ i k, i < values.length → k < 2 →
      (tobytes values).get (2 * i + k) = halfByte (values.getD i 0) k := by
    intro i k hi hk
    rw [tobytes, Bytes.get_ofFn, if_pos (by omega), show (2 * i + k) / 2 = i by omega,
      show (2 * i + k) % 2 = k by omega]
  constructor
  · intro h i hi
    apply halfAt_of_bytes
    intro k hk
    rw [← hget i k hi hk, h, hbyte i k hi hk]
  · intro h
    apply Bytes.ext_get
    · rw [Bytes.size_slice, size_tobytes]
      omega
    · intro j hj
      rw [Bytes.size_slice] at hj
      have hk : j % 2 < 2 := Nat.mod_lt j (by omega)
      have hsplit : j = 2 * (j / 2) + j % 2 := by omega
      rw [hsplit, hget _ _ (by omega) hk, hbyte _ _ (by omega) hk, get_eq_halfByte d _ hk, h _ (by omega)]

end AneLinux.Runtime
