import AneLinux.Hwx.Header
import AneLinux.Runtime.TensorView
import Mathlib.Tactic.Positivity

/-!
# Strides that keep elements apart

The converter derives the plane and row strides of a surface, and `tensor_view` lays the array of the
surface over a buffer with them. Elements stay apart when a row holds its values and a plane is its
rows. The padded-plane convention has this by construction. A plane that the task's byte counts state
is checked against one row only, so that its rows may be shorter than their values.
-/

namespace AneLinux.Runtime

open AneLinux.Support AneLinux.Hwx

/-- An element of a view: its batch and its place there. -/
structure Element where
  batch : ℕ
  place : Place
deriving DecidableEq, Repr

namespace Nchw

/-- The byte offset of an element under the strides of `tensor_view`. -/
def elementAddress (v : Nchw) (element : Element) : ℕ :=
  element.batch * (v.channels * v.planeStride) + v.address element.place

/-- An element of the shape. -/
def Holds (v : Nchw) (element : Element) : Prop := element.batch < v.batch ∧ v.Inside element.place

/-- The elements occupy pairwise disjoint byte pairs inside the planes. -/
structure Unaliased (v : Nchw) : Prop where
  inside : ∀ element, v.Holds element → v.elementAddress element + 2 ≤ v.batch * v.channels * v.planeStride
  disjoint : ∀ element other, v.Holds element → v.Holds other → element ≠ other →
    v.elementAddress element + 2 ≤ v.elementAddress other ∨ v.elementAddress other + 2 ≤ v.elementAddress element

/-- A row holds its values, a plane is its rows, and no two elements share a byte. -/
structure Apart (v : Nchw) : Prop where
  row : 2 * v.width ≤ v.rowStride
  plane : v.planeStride = v.height * v.rowStride
  unaliased : v.Unaliased

/-- The row of an element, counted over all planes. -/
def line (v : Nchw) (element : Element) : ℕ :=
  (element.batch * v.channels + element.place.head) * v.height + element.place.row

variable {v : Nchw} {element other : Element}

/-- When a plane is its rows, an element lies in its own row. -/
theorem elementAddress_eq (hplane : v.planeStride = v.height * v.rowStride) :
    v.elementAddress element = v.line element * v.rowStride + 2 * element.place.col := by
  rw [elementAddress, address, line, hplane]
  ring

/-- A pair of a high and a low digit is known by its number. -/
theorem digits_inj {base a b i j : ℕ} (hi : i < base) (hj : j < base) (h : a * base + i = b * base + j) :
    a = b ∧ i = j := by
  have hpos : 0 < base := by omega
  have hhigh : ∀ c k : ℕ, k < base → (c * base + k) / base = c := by
    intro c k hk
    rw [Nat.mul_comm, Nat.mul_add_div hpos, Nat.div_eq_of_lt hk, Nat.add_zero]
  have hab : a = b := by rw [← hhigh a i hi, h, hhigh b j hj]
  subst hab
  exact ⟨rfl, Nat.add_left_cancel h⟩

/-- Elements of one row differ in their column only. -/
theorem eq_of_line_eq (helement : v.Holds element) (hother : v.Holds other) (hline : v.line element = v.line other)
    (hcol : element.place.col = other.place.col) : element = other := by
  obtain ⟨batch, head, row, col⟩ := element
  obtain ⟨batch', head', row', col'⟩ := other
  obtain ⟨-, hhead, hrow, -⟩ := helement
  obtain ⟨-, hhead', hrow', -⟩ := hother
  obtain ⟨hplanes, rfl⟩ := digits_inj hrow hrow' hline
  obtain ⟨rfl, rfl⟩ := digits_inj hhead hhead' hplanes
  obtain rfl : col = col' := hcol
  rfl

/-- The row of an element is one of all the rows. -/
theorem line_lt (helement : v.Holds element) : v.line element + 1 ≤ v.batch * v.channels * v.height := by
  obtain ⟨hbatch, hhead, hrow, -⟩ := helement
  have hplane : element.batch * v.channels + element.place.head + 1 ≤ v.batch * v.channels := by
    have hle : (element.batch + 1) * v.channels ≤ v.batch * v.channels := Nat.mul_le_mul_right _ hbatch
    rw [Nat.add_mul, Nat.one_mul] at hle
    omega
  have hle : (element.batch * v.channels + element.place.head + 1) * v.height ≤ v.batch * v.channels * v.height :=
    Nat.mul_le_mul_right _ hplane
  rw [Nat.add_mul, Nat.one_mul] at hle
  rw [line]
  omega

/-- An element ends before the next row begins. -/
theorem elementAddress_le (hrow : 2 * v.width ≤ v.rowStride) (hplane : v.planeStride = v.height * v.rowStride)
    (helement : v.Holds element) {next : ℕ} (hnext : v.line element + 1 ≤ next) :
    v.elementAddress element + 2 ≤ next * v.rowStride := by
  have hcol := helement.2.2.2
  have hle : (v.line element + 1) * v.rowStride ≤ next * v.rowStride := Nat.mul_le_mul_right _ hnext
  rw [Nat.add_mul, Nat.one_mul] at hle
  rw [elementAddress_eq hplane]
  omega

/-- Rows that hold their values and planes that are their rows keep the elements apart. -/
theorem Unaliased.of_strides (hrow : 2 * v.width ≤ v.rowStride)
    (hplane : v.planeStride = v.height * v.rowStride) : v.Unaliased := by
  constructor
  · intro element helement
    have hlast := elementAddress_le hrow hplane helement (line_lt helement)
    rwa [Nat.mul_assoc _ v.height, ← hplane] at hlast
  · intro element other helement hother hne
    have hbelow (a b : Element) : v.line b * v.rowStride ≤ v.elementAddress b := by
      rw [elementAddress_eq hplane]
      omega
    rcases Nat.lt_trichotomy (v.line element) (v.line other) with hlt | heq | hlt
    · exact Or.inl ((elementAddress_le hrow hplane helement hlt).trans (hbelow element other))
    · have hcol : element.place.col ≠ other.place.col := fun hcol => hne (eq_of_line_eq helement hother heq hcol)
      rw [elementAddress_eq hplane, elementAddress_eq hplane, heq]
      omega
    · exact Or.inr ((elementAddress_le hrow hplane hother hlt).trans (hbelow other element))

end Nchw

/-! ## The derived strides -/

/-- The byte counts of a task state the plane of a surface: one run for every plane, or one run for
the whole surface, which is cut into planes of one size. -/
def StatesPlane (planes total run plane : ℤ) : Prop :=
  0 < run ∧ (total = planes * run ∧ plane = run ∨ total = run ∧ total = planes * plane)

section Strides

variable {n channels height width : ℕ} {total run plane : ℤ}

/-- The padded convention: a row holds its values and a plane is its rows. -/
theorem shapeStrides_eq (hheight : 0 < height) (hwidth : 0 < width) :
    ∃ row : ℕ, 2 * width ≤ row ∧ shapeStrides height width = .ok (((height * row : ℕ) : ℤ), (row : ℤ)) := by
  have hrow : 0 ≤ max 0x40 ((width : ℤ) * 2 + 0x3F - ((width : ℤ) * 2 + 0x3F) % 0x40) :=
    le_max_of_le_left (by norm_num)
  refine ⟨(max 0x40 ((width : ℤ) * 2 + 0x3F - ((width : ℤ) * 2 + 0x3F) % 0x40)).toNat, by omega, ?_⟩
  rw [shapeStrides, if_neg (by omega), Nat.cast_mul, Int.toNat_of_nonneg hrow]
  rfl

/-- A stated plane is taken when it is whole rows and holds one row of values. -/
theorem deriveStrides_of_states (hn : 0 < n) (hchannels : 0 < channels) (hheight : 0 < height)
    (hwidth : 0 < width) (hstates : StatesPlane (n * channels) total run plane) :
    deriveStrides ⟨n, channels, height, width⟩ total run =
      if plane % height ≠ 0 ∨ plane < width * 2 then shapeStrides height width
      else .ok (plane, plane / height) := by
  obtain ⟨hrun, hcases⟩ := hstates
  have hplanes : (0 : ℤ) < n * channels := by positivity
  obtain ⟨row, -, hshape⟩ := shapeStrides_eq hheight hwidth
  have htotal : 0 < total := by
    rcases hcases with ⟨rfl, -⟩ | ⟨rfl, -⟩
    · positivity
    · exact hrun
  have hmod : total % run = 0 := by
    rcases hcases with ⟨rfl, -⟩ | ⟨rfl, -⟩
    · exact Int.mul_emod_left ..
    · exact Int.emod_self
  have hplane : (if total / run = n * channels then some run
      else if total / run = 1 ∧ total % (n * channels) = 0 then some (total / (n * channels)) else none) =
        some plane := by
    rcases hcases with ⟨rfl, rfl⟩ | ⟨rfl, hcut⟩
    · rw [Int.mul_ediv_cancel _ hrun.ne', if_pos rfl]
    · rw [Int.ediv_self hrun.ne']
      split_ifs with hone hcond
      · rw [← hone, one_mul] at hcut
        rw [hcut]
      · rw [hcut, Int.mul_ediv_cancel_left _ hplanes.ne']
      · exact absurd ⟨rfl, by rw [hcut]; exact Int.mul_emod_right ..⟩ hcond
  have hstated : ¬(total ≤ 0 ∨ run ≤ 0 ∨ (n : ℤ) * channels ≤ 0 ∨ (height : ℤ) ≤ 0 ∨ total % run ≠ 0) := by
    omega
  rw [deriveStrides, hshape, ok_bind, if_neg hstated]
  dsimp only
  rw [hplane]
  rfl

/-- Where the byte counts state no plane, the padded convention is used. -/
theorem deriveStrides_of_silent (hheight : 0 < height) (hwidth : 0 < width)
    (hsilent : ∀ plane, ¬StatesPlane (n * channels) total run plane) :
    deriveStrides ⟨n, channels, height, width⟩ total run = shapeStrides height width := by
  obtain ⟨row, -, hshape⟩ := shapeStrides_eq hheight hwidth
  rw [deriveStrides, hshape, ok_bind]
  split_ifs with hcounts
  · rfl
  · simp only [not_or, not_le, not_not, ne_eq] at hcounts
    obtain ⟨htotal, hrun, hplanes, -, hmod⟩ := hcounts
    have hrows : total = total / run * run := (Int.ediv_mul_cancel (Int.dvd_of_emod_eq_zero hmod)).symm
    have hnone : (if total / run = n * channels then some run
        else if total / run = 1 ∧ total % (n * channels) = 0 then some (total / (n * channels)) else none) =
          none := by
      split_ifs with hall hone
      · exact absurd ⟨hrun, Or.inl ⟨by rw [← hall]; exact hrows, rfl⟩⟩ (hsilent run)
      · refine absurd ⟨hrun, Or.inr ⟨by rw [hone.1, one_mul] at hrows; exact hrows, ?_⟩⟩
          (hsilent (total / (n * channels)))
        exact (Int.mul_ediv_cancel' (Int.dvd_of_emod_eq_zero hone.2)).symm
      · rfl
    dsimp only
    rw [hnone]
    rfl

/-- The derived strides keep the elements of every shape apart exactly when a stated plane that is
whole rows and holds one row of values holds all rows. -/
theorem deriveStrides_apart_iff (n channels height width : ℕ) (total run : ℤ) (hn : 0 < n)
    (hchannels : 0 < channels) (hheight : 0 < height) (hwidth : 0 < width) :
    (∃ plane row : ℕ, deriveStrides ⟨n, channels, height, width⟩ total run = .ok ((plane : ℤ), (row : ℤ)) ∧
      Nchw.Apart ⟨n, channels, height, width, plane, row⟩) ↔
    ∀ plane, StatesPlane (n * channels) total run plane → (height : ℤ) ∣ plane → 2 * (width : ℤ) ≤ plane →
      2 * width * height ≤ plane := by
  have hpadded (hsame : deriveStrides ⟨n, channels, height, width⟩ total run = shapeStrides height width) :
      ∃ plane row : ℕ, deriveStrides ⟨n, channels, height, width⟩ total run = .ok ((plane : ℤ), (row : ℤ)) ∧
        Nchw.Apart ⟨n, channels, height, width, plane, row⟩ := by
    obtain ⟨row, hrow, hshape⟩ := shapeStrides_eq hheight hwidth
    exact ⟨height * row, row, hsame.trans hshape, hrow, rfl, Nchw.Unaliased.of_strides hrow rfl⟩
  constructor
  · rintro ⟨plane', row, hderive, hrow, hplane, -⟩ plane hstates hwhole hfits
    rw [deriveStrides_of_states hn hchannels hheight hwidth hstates,
      if_neg (by rw [not_or]; exact ⟨not_not.mpr (Int.emod_eq_zero_of_dvd hwhole), by omega⟩)] at hderive
    obtain ⟨rfl, -⟩ := Prod.mk.inj (Except.ok.inj hderive)
    dsimp only at hrow hplane
    rw [hplane, Nat.mul_comm height]
    exact_mod_cast Nat.mul_le_mul_right height hrow
  · intro hholds
    by_cases hstates : ∃ plane, StatesPlane (n * channels) total run plane
    · obtain ⟨plane, hstates⟩ := hstates
      have hderive := deriveStrides_of_states hn hchannels hheight hwidth hstates
      split_ifs at hderive with hrefused
      · exact hpadded hderive
      · rw [not_or, not_not] at hrefused
        obtain ⟨row, hrow⟩ := Int.dvd_of_emod_eq_zero hrefused.1
        have hheight' : (0 : ℤ) < height := by exact_mod_cast hheight
        have hlarge := hholds plane hstates ⟨row, hrow⟩ (by omega)
        have hvalues : 2 * (width : ℤ) ≤ row := by
          rw [hrow, mul_comm (height : ℤ)] at hlarge
          exact le_of_mul_le_mul_right hlarge hheight'
        lift row to ℕ using by omega
        refine ⟨height * row, row, ?_, ?_⟩
        · rw [hderive, hrow, Int.mul_ediv_cancel_left _ hheight'.ne']
          push_cast
          rfl
        · have hrow' : 2 * width ≤ row := by exact_mod_cast hvalues
          exact ⟨hrow', rfl, Nchw.Unaliased.of_strides hrow' rfl⟩
    · rw [not_exists] at hstates
      exact hpadded (deriveStrides_of_silent hheight hwidth hstates)

end Strides

/-- A surface of 64 planes of one row, one run for every plane. -/
theorem deriveStrides_apart_iff_rows : ∃ plane row : ℕ,
    deriveStrides ⟨(1 : ℕ), (64 : ℕ), (1 : ℕ), (16 : ℕ)⟩ 4096 64 = .ok ((plane : ℤ), (row : ℤ)) ∧
      Nchw.Apart ⟨1, 64, 1, 16, plane, row⟩ :=
  (deriveStrides_apart_iff 1 64 1 16 4096 64 (by decide) (by decide) (by decide) (by decide)).mpr (by
    intro plane hstates _ hfits
    omega)

/-- A plane of two rows of two values is stated as four bytes: the rows get a stride of two bytes, and
the last value of a row shares its bytes with the first value of the next one. -/
theorem deriveStrides_aliases : deriveStrides ⟨1, 1, 2, 2⟩ 4 4 = .ok (4, 2) ∧
    ¬Nchw.Apart ⟨1, 1, 2, 2, 4, 2⟩ ∧
    Nchw.Holds ⟨1, 1, 2, 2, 4, 2⟩ ⟨0, 0, 0, 1⟩ ∧ Nchw.Holds ⟨1, 1, 2, 2, 4, 2⟩ ⟨0, 0, 1, 0⟩ ∧
    Nchw.elementAddress ⟨1, 1, 2, 2, 4, 2⟩ ⟨0, 0, 0, 1⟩ = Nchw.elementAddress ⟨1, 1, 2, 2, 4, 2⟩ ⟨0, 0, 1, 0⟩ :=
  ⟨by decide, fun h => absurd h.row (by decide), ⟨by decide, by decide, by decide, by decide⟩,
    ⟨by decide, by decide, by decide, by decide⟩, by decide⟩

end AneLinux.Runtime
