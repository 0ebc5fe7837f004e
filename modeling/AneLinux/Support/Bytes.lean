import Mathlib.Data.Nat.Bitwise
import Mathlib.Tactic.Ring

/-!
# Byte strings, slices and little-endian words

A byte string is a length and an indexed family of bytes that vanishes past the
length. Slices, concatenations and overwrites are given by the byte each index
reads, so facts about a rewritten buffer reduce to one comparison of indices.

Reads here are total. The bounds check that a reader performs before decoding a
word belongs to the caller.
-/

namespace AneLinux.Support

/-- A finite byte string; every index past the length reads as zero. -/
structure Bytes where
  size : ℕ
  get : ℕ → UInt8
  get_of_size_le : ∀ i, size ≤ i → get i = 0

variable {a b i j offset w : ℕ} {d : Bytes}

namespace Bytes

/-- Two byte strings of one length that agree inside it are equal. -/
@[ext] theorem ext_get {a b : Bytes} (hsize : a.size = b.size)
    (hget : ∀ i, i < a.size → a.get i = b.get i) : a = b := by
  obtain ⟨n, f, hf⟩ := a
  obtain ⟨m, g, hg⟩ := b
  obtain rfl : n = m := hsize
  have hfg : f = g := by
    funext i
    by_cases hi : i < n
    · exact hget i hi
    · rw [hf i (by omega), hg i (by omega)]
  subst hfg
  rfl

instance : DecidableEq Bytes := fun a b =>
  decidable_of_iff (a.size = b.size ∧ ∀ i < a.size, a.get i = b.get i)
    ⟨fun h => ext_get h.1 h.2, fun h => h ▸ ⟨rfl, fun _ _ => rfl⟩⟩

/-- The byte string of a given length with the given bytes. -/
def ofFn (size : ℕ) (f : ℕ → UInt8) : Bytes where
  size := size
  get i := if i < size then f i else 0
  get_of_size_le i hi := if_neg (by omega)

@[simp] theorem size_ofFn (n : ℕ) (f : ℕ → UInt8) : (ofFn n f).size = n := rfl

@[simp] theorem get_ofFn (n : ℕ) (f : ℕ → UInt8) (i : ℕ) :
    (ofFn n f).get i = if i < n then f i else 0 := rfl

/-- The byte string whose little-endian value is `value`, cut to `size` bytes. -/
def ofNat (size value : ℕ) : Bytes := ofFn size fun i => UInt8.ofNat (value >>> (8 * i))

/-- The byte string with the given numbers placed at the given byte offsets. -/
def ofFields (size : ℕ) (fields : List (ℕ × ℕ)) : Bytes :=
  ofNat size (fields.foldl (fun value field => value + field.2 <<< (8 * field.1)) 0)

/-- A run of zero bytes. -/
def zeros (n : ℕ) : Bytes := ofFn n fun _ => 0

/-- The empty byte string. -/
def empty : Bytes := zeros 0

/-- The half-open slice from `a` to `b`, clamped to the length as an array slice is. -/
def slice (d : Bytes) (a b : ℕ) : Bytes := ofFn (min b d.size - a) fun i => d.get (a + i)

/-- Concatenation. -/
def append (a b : Bytes) : Bytes :=
  ofFn (a.size + b.size) fun i => if i < a.size then a.get i else b.get (i - a.size)

instance : Append Bytes := ⟨append⟩

/-- Byte strings one behind the other. -/
def join (parts : List Bytes) : Bytes := parts.foldr (· ++ ·) empty

/-- Slice assignment: the bytes from `a` to `b` are replaced by `r`, whatever its length. -/
def splice (d : Bytes) (a b : ℕ) (r : Bytes) : Bytes :=
  d.slice 0 a ++ r ++ d.slice (max a b) d.size

@[simp] theorem size_zeros (n : ℕ) : (zeros n).size = n := rfl

@[simp] theorem get_zeros (n i : ℕ) : (zeros n).get i = 0 := by
  simp [zeros]

@[simp] theorem size_empty : empty.size = 0 := rfl

@[simp] theorem size_slice (d : Bytes) (a b : ℕ) : (d.slice a b).size = min b d.size - a := rfl

/-- A slice reads the original byte shifted by its start. -/
theorem get_slice (d : Bytes) (a b i : ℕ) :
    (d.slice a b).get i = if i < min b d.size - a then d.get (a + i) else 0 := rfl

/-- Inside the cut, a slice reads the shifted byte without looking at the length. -/
theorem get_slice_of_lt (d : Bytes) (h : a + i < b) : (d.slice a b).get i = d.get (a + i) := by
  rw [get_slice]
  split_ifs with hi
  · rfl
  · exact (d.get_of_size_le _ (by omega)).symm

@[simp] theorem size_append (a b : Bytes) : (a ++ b).size = a.size + b.size := rfl

/-- A concatenation reads its left part, then its right part. -/
theorem get_append (a b : Bytes) (i : ℕ) :
    (a ++ b).get i = if i < a.size then a.get i else b.get (i - a.size) := by
  change (if i < a.size + b.size then (if i < a.size then a.get i else b.get (i - a.size)) else 0) = _
  split_ifs with h1 h2 h2
  · rfl
  · rfl
  · omega
  · exact (b.get_of_size_le _ (by omega)).symm

theorem get_append_left (a b : Bytes) (h : i < a.size) : (a ++ b).get i = a.get i := by
  rw [get_append, if_pos h]

theorem get_append_right (a b : Bytes) (h : a.size ≤ i) : (a ++ b).get i = b.get (i - a.size) := by
  rw [get_append, if_neg (by omega)]

theorem append_assoc (a b c : Bytes) : a ++ b ++ c = a ++ (b ++ c) := by
  apply ext_get
  · simp only [size_append]; omega
  · intro i _
    simp only [get_append, size_append]
    split_ifs with h1 h2 h3 h3 <;> first | rfl | omega | (congr 1; omega)

@[simp] theorem append_empty (a : Bytes) : a ++ empty = a := by
  apply ext_get
  · simp
  · intro i hi
    exact get_append_left _ _ (by simpa using hi)

/-- What follows a common front can be compared alone. -/
theorem append_right_inj (a : Bytes) {b c : Bytes} : a ++ b = a ++ c ↔ b = c := by
  refine ⟨fun h => ?_, fun h => h ▸ rfl⟩
  have hsize : b.size = c.size := Nat.add_left_cancel (congrArg Bytes.size h)
  apply ext_get hsize
  intro i _
  have hget : (a ++ b).get (a.size + i) = (a ++ c).get (a.size + i) := by rw [h]
  rwa [get_append_right _ _ (by omega), get_append_right _ _ (by omega), Nat.add_sub_cancel_left] at hget

/-- Cutting a concatenation at its seam returns the left part. -/
@[simp] theorem slice_append_left (a b : Bytes) : (a ++ b).slice 0 a.size = a := by
  apply ext_get
  · simp
  · intro i hi
    have hi' : i < a.size := by simp at hi; omega
    rw [get_slice_of_lt _ (by omega), Nat.zero_add, get_append_left _ _ hi']

/-- A slice past the seam is a slice of the right part. -/
theorem slice_append_right (a b : Bytes) (i j : ℕ) :
    (a ++ b).slice (a.size + i) (a.size + j) = b.slice i j := by
  apply ext_get
  · simp only [size_slice, size_append]; omega
  · intro k hk
    simp only [size_slice, size_append] at hk
    rw [get_slice_of_lt _ (by omega), get_slice_of_lt _ (by omega),
      get_append_right _ _ (by omega)]
    congr 1
    omega

/-- A slice that ends before the seam is a slice of the left part. -/
theorem slice_append_of_le (a b : Bytes) (h : j ≤ a.size) : (a ++ b).slice i j = a.slice i j := by
  apply ext_get
  · simp only [size_slice, size_append]; omega
  · intro k hk
    simp only [size_slice, size_append] at hk
    rw [get_slice_of_lt _ (by omega), get_slice_of_lt _ (by omega), get_append_left _ _ (by omega)]

/-- Adjacent slices join. -/
theorem slice_append_slice (d : Bytes) {c : ℕ} (hab : a ≤ b) (hbc : b ≤ c) :
    d.slice a b ++ d.slice b c = d.slice a c := by
  apply ext_get
  · simp only [size_append, size_slice]; omega
  · intro i hi
    simp only [size_append, size_slice] at hi
    rw [get_slice_of_lt _ (by omega), get_append]
    split_ifs with h
    · simp only [size_slice] at h
      rw [get_slice_of_lt _ (by omega)]
    · simp only [size_slice] at h ⊢
      rw [get_slice_of_lt _ (by omega)]
      congr 1
      omega

/-- Slices compose by adding their starts. -/
theorem slice_slice (d : Bytes) (a b i j : ℕ) (h : a + j ≤ b) :
    (d.slice a b).slice i j = d.slice (a + i) (a + j) := by
  apply ext_get
  · simp only [size_slice]; omega
  · intro k hk
    simp only [size_slice] at hk
    rw [get_slice_of_lt _ (by omega), get_slice_of_lt _ (by omega), get_slice_of_lt _ (by omega)]
    congr 1
    omega

/-- A slice of no width is empty. -/
theorem slice_of_le (d : Bytes) (h : b ≤ a) : d.slice a b = empty := by
  apply ext_get
  · simp only [size_slice, size_empty]; omega
  · intro i hi
    simp only [size_slice] at hi
    omega

/-- Assigning a slice of the same length keeps the total length. -/
theorem size_splice_of_eq {r : Bytes} (hab : a ≤ b) (hb : b ≤ d.size) (hr : r.size = b - a) :
    (d.splice a b r).size = d.size := by
  simp only [splice, size_append, size_slice, hr]
  omega

/-- Assigning a slice of the same length changes exactly the bytes of that slice. -/
theorem get_splice_of_eq {r : Bytes} (hab : a ≤ b) (hb : b ≤ d.size) (hr : r.size = b - a) (i : ℕ) :
    (d.splice a b r).get i = if a ≤ i ∧ i < b then r.get (i - a) else d.get i := by
  have hleft : (d.slice 0 a).size = a := by simp only [size_slice]; omega
  have hmid : (d.slice 0 a ++ r).size = b := by rw [size_append, hleft, hr]; omega
  rw [splice, get_append, hmid, Nat.max_eq_right hab]
  split_ifs with h1 h2 h2
  · rw [get_append_right _ _ (by omega), hleft]
  · rw [get_append_left _ _ (by omega), get_slice_of_lt _ (by omega), Nat.zero_add]
  · omega
  · by_cases hi : i < d.size
    · rw [get_slice_of_lt _ (by omega)]
      congr 1
      omega
    · rw [d.get_of_size_le i (by omega)]
      exact (d.slice b d.size).get_of_size_le _ (by simp only [size_slice]; omega)

/-- The little-endian value of the `w` bytes from `offset`. -/
def leNat (d : Bytes) (offset : ℕ) : ℕ → ℕ
  | 0 => 0
  | w + 1 => (d.get offset).toNat + 256 * leNat d (offset + 1) w

/-- The unsigned 32-bit word at `offset`. -/
def u32 (d : Bytes) (offset : ℕ) : ℕ := d.leNat offset 4

/-- The unsigned 64-bit word at `offset`. -/
def u64 (d : Bytes) (offset : ℕ) : ℕ := d.leNat offset 8

/-- A word of `w` bytes is below `256 ^ w`. -/
theorem leNat_lt (d : Bytes) (offset w : ℕ) : d.leNat offset w < 256 ^ w := by
  induction w generalizing offset with
  | zero => simp [leNat]
  | succ w ih =>
    have hbyte : (d.get offset).toNat < 256 := (d.get offset).toNat_lt
    have hrest := ih (offset + 1)
    rw [leNat, pow_succ]
    omega

theorem u32_lt (d : Bytes) (offset : ℕ) : d.u32 offset < 2 ^ 32 := by
  simpa [u32] using d.leNat_lt offset 4

/-- A word whose last byte is zero has three bytes. -/
theorem u32_lt_of_get_eq_zero (h : d.get (offset + 3) = 0) : d.u32 offset < 2 ^ 24 := by
  have hlow := d.leNat_lt offset 3
  have hlast : (d.get (offset + 1 + 1 + 1)).toNat = 0 := by
    rw [show offset + 1 + 1 + 1 = offset + 3 from rfl, h]
    rfl
  simp only [u32, leNat] at hlow ⊢
  omega

/-- A word of zero bytes is zero. -/
theorem u32_eq_zero (h : ∀ k < 4, d.get (offset + k) = 0) : d.u32 offset = 0 := by
  have hbyte (k : ℕ) (hk : k < 4) : (d.get (offset + k)).toNat = 0 := by
    rw [h k hk]
    rfl
  have h0 := hbyte 0 (by omega)
  have h1 := hbyte 1 (by omega)
  have h2 := hbyte 2 (by omega)
  have h3 := hbyte 3 (by omega)
  simp only [u32, leNat]
  simp only [Nat.add_assoc, Nat.add_zero, Nat.reduceAdd] at h0 h1 h2 h3 ⊢
  omega

/-- A word depends only on the bytes it covers. -/
theorem leNat_congr {e : Bytes} (h : ∀ k < w, d.get (i + k) = e.get (j + k)) : d.leNat i w = e.leNat j w := by
  induction w generalizing i j with
  | zero => rfl
  | succ w ih =>
    have hhead : d.get i = e.get j := by simpa using h 0 (by omega)
    have htail : ∀ k < w, d.get (i + 1 + k) = e.get (j + 1 + k) := by
      intro k hk
      have := h (k + 1) (by omega)
      rwa [show i + (k + 1) = i + 1 + k by omega, show j + (k + 1) = j + 1 + k by omega] at this
    rw [leNat, leNat, hhead, ih htail]

/-- A word depends only on its four bytes. -/
theorem u32_congr {e : Bytes} (h : ∀ k < 4, d.get (i + k) = e.get (j + k)) : d.u32 i = e.u32 j := leNat_congr h

/-- A word inside a slice is the word at the shifted offset. -/
theorem u32_slice (d : Bytes) (h : a + offset + 4 ≤ b) : (d.slice a b).u32 offset = d.u32 (a + offset) := by
  apply u32_congr
  intro k hk
  rw [get_slice_of_lt _ (by omega), Nat.add_assoc]

/-- Byte `k` of a word is its value shifted down by `8 * k` bits. -/
theorem get_eq_leNat_shiftRight (d : Bytes) (offset w k : ℕ) (hk : k < w) :
    d.get (offset + k) = UInt8.ofNat (d.leNat offset w >>> (8 * k)) := by
  induction w generalizing offset k with
  | zero => omega
  | succ w ih =>
    have hbyte : (d.get offset).toNat < 256 := (d.get offset).toNat_lt
    cases k with
    | zero =>
      apply UInt8.toNat_inj.mp
      rw [leNat, UInt8.toNat_ofNat', Nat.mul_zero, Nat.shiftRight_zero, Nat.add_zero]
      omega
    | succ k =>
      have hshift : d.leNat offset (w + 1) >>> (8 * (k + 1)) =
          d.leNat (offset + 1) w >>> (8 * k) := by
        rw [leNat, Nat.mul_succ, Nat.add_comm (8 * k) 8, Nat.shiftRight_add]
        congr 1
        rw [Nat.shiftRight_eq_div_pow]
        omega
      rw [hshift, ← ih (offset + 1) k (by omega)]
      congr 1
      omega

/-- Overwrite the `w` bytes from `offset` with the little-endian bytes of `value`. -/
def putLE (d : Bytes) (offset w value : ℕ) : Bytes where
  size := d.size
  get i := if offset ≤ i ∧ i < offset + w ∧ i < d.size then
      UInt8.ofNat (value >>> (8 * (i - offset))) else d.get i
  get_of_size_le i hi := by
    rw [if_neg (by omega)]
    exact d.get_of_size_le i hi

@[simp] theorem size_putLE (d : Bytes) (offset w value : ℕ) : (d.putLE offset w value).size = d.size := rfl

/-- Bytes outside the overwritten word are kept. -/
theorem get_putLE_of_ne (d : Bytes) {value : ℕ} (h : i < offset ∨ offset + w ≤ i) :
    (d.putLE offset w value).get i = d.get i := if_neg (by omega)

/-- Byte `k` of the overwritten word is the value shifted down by `8 * k` bits. -/
theorem get_putLE (d : Bytes) {value k : ℕ} (hk : k < w) (hsize : offset + w ≤ d.size) :
    (d.putLE offset w value).get (offset + k) = UInt8.ofNat (value >>> (8 * k)) := by
  change (if _ then _ else _) = _
  rw [if_pos (by omega), Nat.add_sub_cancel_left]

end Bytes

end AneLinux.Support
