import AneLinux.Runtime.Elementwise

/-!
# The rotary embedding

The reference rotates the two halves of the first `rotary_dim` columns by the angles of the position. The engine works
on one head at a time: it multiplies the row by a vector of cosines and its swapped halves by a vector of signed sines,
both padded with zeros to 64 lanes, and adds the products. The tables of cosines and sines are computed alike on both
sides; they are arbitrary here.
-/

namespace AneLinux.Runtime

open AneLinux.Support

variable {R : Type}

/-- `np.cos(frequencies)` and `np.sin(frequencies)` for a position, a rotary dimension and theta; the frequencies have
one entry for each element of `np.arange(0, rotary_dim, 2)`. -/
structure RotaryTables (R : Type) where
  cosine : ℤ → ℕ → ℚ → ℕ → R
  sine : ℤ → ℕ → ℚ → ℕ → R

/-- `np.concatenate` of a vector of some width and another one. -/
def concatenate (width : ℕ) (front back : ℕ → R) : ℕ → R := fun i => if i < width then front i else back (i - width)

/-- A matrix as the list of its rows. -/
def rowsOf (heads width : ℕ) (entry : ℕ → ℕ → R) : List (List R) :=
  (List.range heads).map fun head => (List.range width).map (entry head)

/-! ## The engine -/

namespace TensorOperations

variable [CommRing R]

/-- One head of `TensorOperations.rope`. -/
def rotateHead (cosine sine : ℕ → R) (rotaryDim : ℕ) (row : ℕ → R) : Faulty (ℕ → R) := do
  let half := rotaryDim / 2
  let directFactors := chunk rotaryDim 0 (concatenate half cosine cosine)
  let crossFactors := chunk rotaryDim 0 (concatenate half (fun i => -sine i) sine)
  let direct := chunk rotaryDim 0 row
  let cross := chunk rotaryDim 0 (concatenate (rotaryDim - half) (fun i => row (half + i)) row)
  let direct ← runElementwise .mul direct directFactors
  let cross ← runElementwise .mul cross crossFactors
  runElementwise .add direct cross

/-- The loop of `TensorOperations.rope`. -/
def rotateHeads (cosine sine : ℕ → R) (rotaryDim heads : ℕ) (rows : ℕ → ℕ → R) : Faulty (ℕ → ℕ → R) :=
  (List.range heads).foldlM (fun result head => do
    let rotated ← rotateHead cosine sine rotaryDim (rows head)
    return Function.update result head (setRange (result head) 0 rotaryDim rotated)) rows

/-- `TensorOperations.rope`. -/
def rope (tables : RotaryTables R) (array : NdArray R) (position : ℤ) (rotaryDim : ℕ) (theta : ℚ)
    (fails : ℕ → Option PyError) : Py (List (List R)) := do
  value array "value"
  match array.shape with
  | [heads, width] =>
    if rotaryDim < 2 ∨ laneCount < rotaryDim ∨ rotaryDim % 2 ≠ 0 then
      raiseValue s!"rotary_dim must be even and between 2 and {laneCount}"
    else if width < rotaryDim then
      raiseValue s!"rotary_dim {rotaryDim} exceeds value width {width}"
    else if position < 0 then
      raiseValue "position must be a non-negative integer"
    else if theta ≤ 0 then
      raiseValue "theta must be positive"
    else
      let cosine := tables.cosine position rotaryDim theta
      let sine := tables.sine position rotaryDim theta
      let (result, _) ← rotateHeads cosine sine rotaryDim heads (fun head c => array.entry (head * width + c)) fails 0
      return rowsOf heads width result
  | shape => raiseValue s!"value shape must be two-dimensional, got {shapeText shape}"

end TensorOperations

/-! ## The reference -/

/-- Some columns of a matrix. -/
structure Columns (R : Type) where
  width : ℕ
  entry : ℕ → ℕ → R

/-- `matrix[:, start:stop]`. -/
def Columns.slice (matrix : Columns R) (start stop : ℕ) : Columns R :=
  { width := min stop matrix.width - start, entry := fun head c => matrix.entry head (start + c) }

/-- The column an operand gives to a column of the result: a single one is stretched. -/
def Columns.stretched (matrix : Columns R) (head c : ℕ) : R :=
  matrix.entry head (if matrix.width = 1 then 0 else c)

/-- An operation on two operands, place by place. -/
def Columns.combine (operation : R → R → R) (left right : Columns R) : Py (Columns R) :=
  let entry head c := operation (left.stretched head c) (right.stretched head c)
  if left.width = right.width ∨ right.width = 1 then .ok { width := left.width, entry }
  else if left.width = 1 then .ok { width := right.width, entry }
  else raiseValue "operands could not be broadcast together"

/-- `matrix[:, start:stop] = value`. -/
def Columns.assign (matrix : Columns R) (start stop : ℕ) (value : Columns R) : Py (Columns R) :=
  if value.width = min stop matrix.width - start ∨ value.width = 1 then
    .ok { matrix with
      entry := fun head c =>
        if start ≤ c ∧ c < min stop matrix.width then value.stretched head (c - start) else matrix.entry head c }
  else raiseValue "could not broadcast input array"

/-- The sum or the difference of two products. -/
def Columns.products [Mul R] (operation : R → R → R) (a x b y : Columns R) : Py (Columns R) := do
  let left ← a.combine (· * ·) x
  let right ← b.combine (· * ·) y
  left.combine operation right

namespace AneQwenModel

/-- `rope` of the model. -/
def rope [CommRing R] (tables : RotaryTables R) (x : Columns R) (position : ℤ) (rotaryDim : ℕ) (theta : ℚ) :
    Py (Columns R) := do
  let out := x
  let frequencies := (rotaryDim + 1) / 2
  let cosine : Columns R := { width := frequencies, entry := fun _ => tables.cosine position rotaryDim theta }
  let sine : Columns R := { width := frequencies, entry := fun _ => tables.sine position rotaryDim theta }
  let rotated := out.slice 0 rotaryDim
  let half := rotaryDim / 2
  let left := rotated.slice 0 half
  let right := rotated.slice half rotated.width
  let front ← Columns.products (· - ·) left cosine right sine
  let out ← out.assign 0 half front
  let back ← Columns.products (· + ·) right cosine left sine
  out.assign half rotaryDim back

end AneQwenModel

/-! ## One head -/

section Rotation

variable [CommRing R] {cosine sine row : ℕ → R} {rows : ℕ → ℕ → R} {half heads : ℕ}

/-- A column of a rotated row. -/
def rotatedEntry (cosine sine : ℕ → R) (half : ℕ) (row : ℕ → R) (c : ℕ) : R :=
  if c < half then row c * cosine c - row (half + c) * sine c
  else if c < 2 * half then row c * cosine (c - half) + row (c - half) * sine (c - half)
  else row c

/-- The products with the padded factors add up to the rotated columns. -/
theorem rotateHead_yields : ∃ lanes, (TensorOperations.rotateHead cosine sine (2 * half) row).Yields lanes ∧
    ∀ c < 2 * half, lanes c = rotatedEntry cosine sine half row c := by
  refine ⟨_, (Faulty.Yields.call _).bind ((Faulty.Yields.call _).bind (Faulty.Yields.call _)), fun c hc => ?_⟩
  have hhalf : 2 * half / 2 = half := Nat.mul_div_cancel_left half two_pos
  have hswapped : 2 * half - half = half := by omega
  simp only [hhalf, hswapped, chunk, if_pos hc, Nat.zero_add, concatenate, rotatedEntry]
  by_cases hfront : c < half
  · simp only [if_pos hfront]
    ring
  · simp only [if_neg hfront]

omit [CommRing R] in
theorem foldl_setRange_heads {lanes : ℕ → ℕ → R} {width head : ℕ} :
    (List.range heads).foldl (fun result head => Function.update result head (setRange (result head) 0 width
      (lanes head))) rows head = if head < heads then setRange (rows head) 0 width (lanes head) else rows head := by
  induction heads with
  | zero => rfl
  | succ heads ih =>
    rw [List.range_succ, List.foldl_append, List.foldl_cons, List.foldl_nil]
    by_cases hlast : head = heads
    · subst hlast
      rw [Function.update_self, ih, if_neg (lt_irrefl head), if_pos head.lt_succ_self]
    · rw [Function.update_of_ne hlast, ih]
      exact if_congr (by omega) rfl rfl

/-- All heads: each row is rotated once. -/
theorem rotateHeads_yields : ∃ result, (TensorOperations.rotateHeads cosine sine (2 * half) heads rows).Yields result ∧
    ∀ head < heads, ∀ c, result head c = rotatedEntry cosine sine half (rows head) c := by
  choose lanes hlanes hrotated using fun head => rotateHead_yields (R := R)
  refine ⟨_, Faulty.Yields.foldlM _ rows fun result head _ => (hlanes head).bind (Faulty.Yields.pure _),
    fun head hhead c => ?_⟩
  rw [foldl_setRange_heads, if_pos hhead, setRange]
  by_cases hc : c < 2 * half
  · rw [if_pos ⟨Nat.zero_le c, by omega⟩]
    exact hrotated head c hc
  · rw [if_neg (by omega), rotatedEntry, if_neg (by omega), if_neg hc]

end Rotation

/-! ## The reference -/

namespace Columns

variable {matrix left right value : Columns R} {start stop width : ℕ}

theorem stretched_of_lt {head c : ℕ} (h : c < matrix.width) : matrix.stretched head c = matrix.entry head c := by
  rw [stretched]
  split
  · next hone => rw [show c = 0 by omega]
  · rfl

/-- Operands of one width. -/
theorem combine_of_width (operation : R → R → R) (hleft : left.width = width) (hright : right.width = width) :
    ∃ result, left.combine operation right = .ok result ∧ result.width = width ∧
      ∀ head, ∀ c < width, result.entry head c = operation (left.entry head c) (right.entry head c) := by
  refine ⟨_, if_pos (.inl (hleft.trans hright.symm)), hleft, fun head c hc => ?_⟩
  exact congrArg₂ operation (stretched_of_lt (by omega)) (stretched_of_lt (by omega))

theorem products_of_width [Mul R] (operation : R → R → R) {a x b y : Columns R} (ha : a.width = width)
    (hx : x.width = width) (hb : b.width = width) (hy : y.width = width) :
    ∃ result, products operation a x b y = .ok result ∧ result.width = width ∧ ∀ head, ∀ c < width,
      result.entry head c = operation (a.entry head c * x.entry head c) (b.entry head c * y.entry head c) := by
  obtain ⟨left, hleft, hleftWidth, hleftEntry⟩ := combine_of_width (· * ·) ha hx
  obtain ⟨right, hright, hrightWidth, hrightEntry⟩ := combine_of_width (· * ·) hb hy
  obtain ⟨result, hresult, hwidth, hentry⟩ := combine_of_width operation hleftWidth hrightWidth
  refine ⟨result, ?_, hwidth, fun head c hc => ?_⟩
  · rw [products, hleft, ok_bind, hright, ok_bind, hresult]
  · rw [hentry head c hc, hleftEntry head c hc, hrightEntry head c hc]

/-- A value of the width of the slice. -/
theorem assign_of_width (hstop : stop ≤ matrix.width) (hvalue : value.width = stop - start) :
    ∃ result, matrix.assign start stop value = .ok result ∧ result.width = matrix.width ∧
      ∀ head c, result.entry head c =
        if start ≤ c ∧ c < stop then value.entry head (c - start) else matrix.entry head c := by
  refine ⟨_, if_pos (.inl (by rw [min_eq_left hstop, hvalue])), rfl, fun head c => ?_⟩
  simp only [min_eq_left hstop]
  split
  · exact stretched_of_lt (by omega)
  · rfl

end Columns

/-- The reference rotates every row. -/
theorem AneQwenModel.rope_of_even [CommRing R] {tables : RotaryTables R} {x : Columns R} {position : ℤ} {half : ℕ}
    {theta : ℚ} (hwidth : 2 * half ≤ x.width) :
    ∃ out, AneQwenModel.rope tables x position (2 * half) theta = .ok out ∧ out.width = x.width ∧
      ∀ head c, out.entry head c = rotatedEntry (tables.cosine position (2 * half) theta)
        (tables.sine position (2 * half) theta) half (x.entry head) c := by
  have hhalf : 2 * half / 2 = half := Nat.mul_div_cancel_left half two_pos
  have hfrequencies : (2 * half + 1) / 2 = half := by omega
  let cosine : Columns R := { width := half, entry := fun _ => tables.cosine position (2 * half) theta }
  let sine : Columns R := { width := half, entry := fun _ => tables.sine position (2 * half) theta }
  let left := (x.slice 0 (2 * half)).slice 0 half
  let right := (x.slice 0 (2 * half)).slice half (x.slice 0 (2 * half)).width
  have hleft : left.width = half := by
    simp only [left, Columns.slice]
    omega
  have hright : right.width = half := by
    simp only [right, Columns.slice]
    omega
  have hleftEntry (head c : ℕ) : left.entry head c = x.entry head c := by
    simp only [left, Columns.slice, Nat.zero_add]
  have hrightEntry (head c : ℕ) : right.entry head c = x.entry head (half + c) := by
    simp only [right, Columns.slice, Nat.zero_add]
  obtain ⟨front, hfront, hfrontWidth, hfrontEntry⟩ :=
    @Columns.products_of_width R half _ (· - ·) left cosine right sine hleft rfl hright rfl
  obtain ⟨middle, hmiddle, hmiddleWidth, hmiddleEntry⟩ :=
    @Columns.assign_of_width R x front 0 half (by omega) hfrontWidth
  obtain ⟨back, hback, hbackWidth, hbackEntry⟩ :=
    @Columns.products_of_width R half _ (· + ·) right cosine left sine hright rfl hleft rfl
  obtain ⟨out, hout, houtWidth, houtEntry⟩ :=
    @Columns.assign_of_width R middle back half (2 * half) (by omega) (by omega)
  refine ⟨out, ?_, houtWidth.trans hmiddleWidth, fun head c => ?_⟩
  · simp only [AneQwenModel.rope, hhalf, hfrequencies]
    change (Columns.products (· - ·) left cosine right sine >>= _) = _
    rw [hfront, ok_bind, hmiddle, ok_bind]
    change (Columns.products (· + ·) right cosine left sine >>= _) = _
    rw [hback, ok_bind, hout]
  · rw [houtEntry, rotatedEntry]
    by_cases hfirst : c < half
    · rw [if_neg (by omega), hmiddleEntry, if_pos ⟨Nat.zero_le c, hfirst⟩, if_pos hfirst, Nat.sub_zero,
        hfrontEntry head c hfirst, hleftEntry, hrightEntry]
    · rw [if_neg hfirst]
      by_cases hsecond : c < 2 * half
      · rw [if_pos ⟨by omega, hsecond⟩, if_pos hsecond, hbackEntry head _ (by omega), hleftEntry, hrightEntry,
          Nat.add_sub_cancel' (by omega)]
      · rw [if_neg (by omega), if_neg hsecond, hmiddleEntry, if_neg (by omega)]

/-! ## Both sides -/

section Agreement

variable [CommRing R] {tables : RotaryTables R} {array : NdArray R} {position : ℤ} {rotaryDim heads width : ℕ}
  {theta : ℚ}

omit [CommRing R] in
/-- A finite `float16` array with elements passes the checks. -/
theorem TensorOperations.value_of_finite {name : String} (hdtype : array.dtype = .float16)
    (hfinite : array.finite = true) (hsize : array.shape.prod ≠ 0) : TensorOperations.value array name = .ok () := by
  rw [TensorOperations.value, if_neg (not_not.mpr hdtype), if_neg hsize, hfinite, if_neg Bool.noConfusion]

/-- The engine and the reference give the same matrix for any number of heads but none, and leave the columns from
`rotary_dim` on as they are. -/
theorem rope_agrees (hdtype : array.dtype = .float16) (hfinite : array.finite = true)
    (hshape : array.shape = [heads, width]) (hheads : 0 < heads) (heven : rotaryDim % 2 = 0) (htwo : 2 ≤ rotaryDim)
    (hlanes : rotaryDim ≤ 64) (hwidth : rotaryDim ≤ width) (hposition : 0 ≤ position) (htheta : 0 < theta) :
    ∃ out : Columns R,
      AneQwenModel.rope tables { width, entry := fun head c => array.entry (head * width + c) } position rotaryDim
          theta = .ok out ∧
        out.width = width ∧
        TensorOperations.rope tables array position rotaryDim theta (fun _ => none) =
          .ok (rowsOf heads width out.entry) ∧
        ∀ head c, rotaryDim ≤ c → out.entry head c = array.entry (head * width + c) := by
  obtain ⟨half, rfl⟩ : ∃ half, rotaryDim = 2 * half := ⟨rotaryDim / 2, by omega⟩
  let x : Columns R := { width, entry := fun head c => array.entry (head * width + c) }
  obtain ⟨out, hout, houtWidth, hentry⟩ := AneQwenModel.rope_of_even (R := R) (x := x) hwidth
  refine ⟨out, hout, houtWidth, ?_, fun head c hc => ?_⟩
  · have hsize : array.shape.prod ≠ 0 := by
      rw [hshape, List.prod_cons, List.prod_singleton]
      exact Nat.mul_ne_zero (by omega) (by omega)
    obtain ⟨result, hyields, hresult⟩ := rotateHeads_yields (R := R)
    obtain ⟨n, hok⟩ | ⟨-, k, hk⟩ := hyields (fun _ => none) 0
    · rw [TensorOperations.rope, TensorOperations.value_of_finite hdtype hfinite hsize, ok_bind, hshape]
      simp only
      rw [if_neg (by rw [laneCount]; omega), if_neg (by omega), if_neg (by omega), if_neg (not_le.mpr htheta), hok,
        ok_bind]
      refine congrArg Except.ok (List.map_congr_left fun head hhead => List.map_congr_left fun c _ => ?_)
      exact (hresult head (List.mem_range.mp hhead) c).trans (hentry head c).symm
    · exact absurd rfl hk
  · rw [hentry, rotatedEntry, if_neg (by omega), if_neg (by omega)]

end Agreement

/-- Tables of constants. -/
def constantTables : RotaryTables ℤ := { cosine := fun _ _ _ _ => 2, sine := fun _ _ _ _ => 3 }

/-- Rows of three columns, numbered from 1 on. -/
def numbered (heads : ℕ) : NdArray ℤ :=
  { dtype := .float16, finite := true, shape := [heads, 3], entry := fun i => (i : ℤ) + 1 }

/-- One head, two of whose three columns are rotated. -/
theorem rope_agrees_numbered : ∃ out : Columns ℤ,
    AneQwenModel.rope constantTables { width := 3, entry := fun head c => (numbered 1).entry (head * 3 + c) } 37 2
        10000000 = .ok out ∧
      out.width = 3 ∧
      TensorOperations.rope constantTables (numbered 1) 37 2 10000000 (fun _ => none) = .ok (rowsOf 1 3 out.entry) ∧
      ∀ head c, 2 ≤ c → out.entry head c = (numbered 1).entry (head * 3 + c) :=
  rope_agrees rfl rfl rfl (by decide) (by decide) (by decide) (by decide) (by decide) (by decide) (by decide)

/-- Without heads the engine raises and the reference returns the empty matrix. -/
theorem rope_rejects_no_heads :
    TensorOperations.rope constantTables (numbered 0) 37 2 10000000 (fun _ => none) =
        raiseValue "value must not be empty" ∧
      ∃ out : Columns ℤ, AneQwenModel.rope constantTables
        { width := 3, entry := fun head c => (numbered 0).entry (head * 3 + c) } 37 2 10000000 = .ok out :=
  ⟨rfl, _, rfl⟩

end AneLinux.Runtime
