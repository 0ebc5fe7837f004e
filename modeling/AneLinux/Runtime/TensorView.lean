import AneLinux.Runtime.HalfBytes

/-!
# Array views over mapped buffers

`tensor_view` lays a four-dimensional `float16` array over a buffer with the plane and row strides
of a surface. The view is refused when it does not fit. Assignments through it store one value after
another; when different places of the view do not overlap, an assignment changes its own places only.
-/

namespace AneLinux.Runtime

open AneLinux.Support AneLinux.Staged

/-- The six shape words of a surface. -/
structure Nchw where
  batch : ℕ
  channels : ℕ
  height : ℕ
  width : ℕ
  planeStride : ℕ
  rowStride : ℕ
deriving DecidableEq, Repr

/-- A place of a view with one batch. -/
structure Place where
  head : ℕ
  row : ℕ
  col : ℕ
deriving DecidableEq, Repr

variable {v : Nchw} {d : Bytes}

namespace Nchw

/-- The shape words of a surface, unpacked. -/
def ofList : List ℕ → Py Nchw
  | [batch, channels, height, width, planeStride, rowStride] =>
    .ok ⟨batch, channels, height, width, planeStride, rowStride⟩
  | _ => raiseValue "not enough values to unpack (expected 6)"

/-- `nchw[:4]`. -/
def shape (v : Nchw) : List ℕ := [v.batch, v.channels, v.height, v.width]

/-- The byte offset of a place. -/
def address (v : Nchw) (p : Place) : ℕ := p.head * v.planeStride + p.row * v.rowStride + 2 * p.col

/-- The bytes from the start of the buffer to the end of the last value. -/
def extent (v : Nchw) : ℕ :=
  if v.batch = 0 ∨ v.channels = 0 ∨ v.height = 0 ∨ v.width = 0 then 0
  else (v.batch - 1) * (v.channels * v.planeStride) + (v.channels - 1) * v.planeStride +
    (v.height - 1) * v.rowStride + 2 * (v.width - 1) + 2

/-- The strides are numbers of the machine. -/
def Representable (v : Nchw) : Prop := v.channels * v.planeStride < 2 ^ 63 ∧ v.planeStride < 2 ^ 63 ∧
  v.rowStride < 2 ^ 63

instance (v : Nchw) : Decidable v.Representable := inferInstanceAs (Decidable (_ ∧ _ ∧ _))

/-- A place inside the shape. -/
def Inside (v : Nchw) (p : Place) : Prop := p.head < v.channels ∧ p.row < v.height ∧ p.col < v.width

/-- The values at different places do not share a byte. -/
def NonOverlapping (v : Nchw) : Prop := ∀ p q, v.Inside p → v.Inside q → p ≠ q →
  v.address p + 2 ≤ v.address q ∨ v.address q + 2 ≤ v.address p

/-- A place inside the shape ends inside the extent. -/
theorem address_le_extent (hbatch : v.batch = 1) {p : Place} (h : v.Inside p) : v.address p + 2 ≤ v.extent := by
  obtain ⟨hhead, hrow, hcol⟩ := h
  have hplane : p.head * v.planeStride ≤ (v.channels - 1) * v.planeStride := Nat.mul_le_mul_right _ (by omega)
  have hrows : p.row * v.rowStride ≤ (v.height - 1) * v.rowStride := Nat.mul_le_mul_right _ (by omega)
  rw [address, extent, if_neg (by omega), hbatch, Nat.sub_self, Nat.zero_mul]
  omega

end Nchw

/-- `tensor_view`: whether the array fits the buffer. -/
def tensorView (d : Bytes) (v : Nchw) : Py Unit :=
  if ¬v.Representable then .error (.overflowError "Python int too large to convert to C ssize_t")
  else if d.size < v.extent then
    raiseValue "strides is incompatible with shape of requested array and size of buffer"
  else .ok ()

theorem tensorView_eq_ok_iff : tensorView d v = .ok () ↔ v.Representable ∧ v.extent ≤ d.size := by
  unfold tensorView
  by_cases hrep : v.Representable
  · by_cases hsize : d.size < v.extent
    · simp [hrep, hsize, raiseValue]
    · simp [hrep, hsize, Nat.not_lt.mp hsize]
  · simp [hrep]

/-- A view fits every buffer of the same size. -/
theorem tensorView_congr {e : Bytes} (v : Nchw) (h : e.size = d.size) : tensorView e v = tensorView d v := by
  rw [tensorView, tensorView, h]

/-- Assign values through a view, one after another. -/
def assignCells (v : Nchw) (d : Bytes) (cells : List (Place × Half)) : Bytes :=
  cells.foldl (fun d cell => putHalf d (v.address cell.1) cell.2) d

@[simp] theorem size_assignCells (v : Nchw) (d : Bytes) (cells : List (Place × Half)) :
    (assignCells v d cells).size = d.size := by
  induction cells generalizing d with
  | nil => rfl
  | cons cell cells ih =>
    rw [assignCells, List.foldl_cons]
    exact (ih _).trans (size_putHalf ..)

/-- Places far from all assigned ones keep their values. -/
theorem halfAt_assignCells_of_far {cells : List (Place × Half)} {offset : ℕ}
    (h : ∀ cell ∈ cells, offset + 2 ≤ v.address cell.1 ∨ v.address cell.1 + 2 ≤ offset) :
    halfAt (assignCells v d cells) offset = halfAt d offset := by
  induction cells generalizing d with
  | nil => rfl
  | cons cell cells ih =>
    rw [List.forall_mem_cons] at h
    rw [assignCells, List.foldl_cons]
    exact (ih h.2).trans (halfAt_putHalf_of_ne d cell.2 h.1)

section Assign

variable {cells : List (Place × Half)} {p : Place}

/-- A place that is not assigned keeps its value. -/
theorem halfAt_assignCells_of_ne (hv : v.NonOverlapping) (hinside : ∀ cell ∈ cells, v.Inside cell.1)
    (hp : v.Inside p) (h : ∀ cell ∈ cells, cell.1 ≠ p) :
    halfAt (assignCells v d cells) (v.address p) = halfAt d (v.address p) :=
  halfAt_assignCells_of_far fun cell hcell =>
    (hv cell.1 p (hinside cell hcell) hp (h cell hcell)).symm

/-- A place that is assigned one value, however often, holds it. -/
theorem halfAt_assignCells_of_mem (hv : v.NonOverlapping) (hbatch : v.batch = 1) (hsize : v.extent ≤ d.size)
    (hinside : ∀ cell ∈ cells, v.Inside cell.1) {value : Half} (hmem : (p, value) ∈ cells)
    (honly : ∀ cell ∈ cells, cell.1 = p → cell.2 = value) :
    halfAt (assignCells v d cells) (v.address p) = value := by
  have hp := hinside _ hmem
  induction cells generalizing d with
  | nil => cases hmem
  | cons cell cells ih =>
    rw [List.forall_mem_cons] at hinside honly
    rw [assignCells, List.foldl_cons]
    by_cases hlater : (p, value) ∈ cells
    · exact ih hsize hinside.2 hlater honly.2
    · have hcell : cell = (p, value) := (List.mem_cons.mp hmem).elim Eq.symm fun h => absurd h hlater
      have hnone : ∀ other ∈ cells, other.1 ≠ p := by
        intro other hother heq
        apply hlater
        rw [← honly.2 other hother heq, ← heq]
        exact hother
      rw [hcell]
      refine (halfAt_assignCells_of_ne hv hinside.2 hp hnone).trans ?_
      exact halfAt_putHalf_self d value ((Nchw.address_le_extent hbatch hp).trans hsize)

end Assign

end AneLinux.Runtime
