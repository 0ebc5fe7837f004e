import AneLinux.Runtime.Elementwise
import AneLinux.Support.Halving

/-!
# Reductions over 64 lanes

`_reduce` folds a vector in six submissions. Each puts the two halves of the lanes still in use into the front of two
vectors of zeros; the lanes behind the halves get some value too, but the next round does not take them. The sum of
squares reduces each chunk of a row, puts the result into the lane of that chunk and reduces these lanes in turn.
-/

namespace AneLinux.Runtime

open AneLinux.Support

variable {R : Type}

/-- `ELEMENTWISE_MODES`. -/
inductive ElementwiseMode
  | add
  | mul
  | max
  | sq
deriving DecidableEq, Repr

/-- The name of a mode. -/
def ElementwiseMode.name : ElementwiseMode → String
  | .add => "add"
  | .mul => "mul"
  | .max => "max"
  | .sq => "sq"

/-- `run_elementwise`: one submission of a mode with two vectors. -/
abbrev Backend (R : Type) := ElementwiseMode → List R → List R → Py (NdArray R)

/-- A mode is exact: it computes a function in each lane. -/
def Backend.Exact [Zero R] (backend : Backend R) (mode : ElementwiseMode) (value : R → R → R) : Prop :=
  ∀ left right, left.length = laneCount → right.length = laneCount →
    backend mode left right = .ok (halfVector (List.zipWith value left right))

/-- `lanes[:width] = values`; numpy stretches a single value. -/
def assignSlice (lanes : List R) (width : ℕ) (values : List R) : Py (List R) :=
  if values.length = width then .ok (values ++ lanes.drop width)
  else match values with
    | [value] => .ok (List.replicate width value ++ lanes.drop width)
    | _ => raiseValue (s!"could not broadcast input array from shape {shapeText [values.length]} " ++
        s!"into shape {shapeText [width]}")

/-- `lanes[i] = value`. -/
def assignIndex (lanes : List R) (i : ℕ) (value : R) : Py (List R) :=
  if i < lanes.length then .ok (lanes.set i value) else .error .indexError

section Code

variable [Zero R]

namespace Softmax128

/-- `Softmax128._const`. -/
def const (value : R) : List R := List.replicate laneCount value

/-- `Softmax128._run`. -/
def run (backend : Backend R) (mode : ElementwiseMode) (left right : List R) : Py (List R) := do
  let result ← backend mode left right
  if result.dtype ≠ .float16 ∨ result.shape ≠ [laneCount] then
    .error (.runtimeError (s!"elementwise {mode.name} output must be ({laneCount},) float16, " ++
      s!"got {shapeText result.shape} {result.dtype.name}"))
  else return (List.range laneCount).map result.entry

/-- The loop of `Softmax128._reduce`. -/
def reduceLoop (backend : Backend R) (mode : ElementwiseMode) (width : ℕ) (current : List R) : Py (List R) :=
  if 1 < width then do
    let half := width / 2
    let front ← assignSlice (const 0) half (current.take half)
    let back ← assignSlice (const 0) half ((current.take width).drop half)
    let current ← run backend mode front back
    reduceLoop backend mode half current
  else return current
termination_by width

/-- `Softmax128._reduce`. -/
def reduce (backend : Backend R) (mode : ElementwiseMode) (values : List R) : Py R := do
  let current ← reduceLoop backend mode laneCount values
  index current 0

end Softmax128

namespace Normalization

open Softmax128

/-- One chunk of `Normalization._sum_squares`; a chunk is its offset and its index. -/
def addPartial (backend : Backend R) (row partials : List R) (chunk : ℕ × ℕ) : Py (List R) := do
  let squared ← run backend .sq ((row.drop chunk.1).take laneCount) (const 0)
  let total ← reduce backend .add squared
  assignIndex partials chunk.2 total

/-- `Normalization._sum_squares`. -/
def sumSquares (backend : Backend R) (row : List R) : Py R := do
  let partials ← (range 0 row.length laneCount).zipIdx.foldlM (addPartial backend row) (const 0)
  reduce backend .add partials

end Normalization

end Code

/-! ## The rounds -/

variable {values : List R} {backend : Backend R}

section Rounds

variable {left right : List R} {value : R → R → R} {width half k : ℕ}

theorem assignSlice_of_length {lanes : List R} (h : values.length = width) :
    assignSlice lanes width values = .ok (values ++ lanes.drop width) := if_pos h

theorem assignIndex_of_lt {lanes : List R} {i : ℕ} {value : R} (h : i < lanes.length) :
    assignIndex lanes i value = .ok (lanes.set i value) := if_pos h

theorem length_zipWith_lanes (hleft : left.length = laneCount) (hright : right.length = laneCount) :
    (List.zipWith value left right).length = laneCount := by
  rw [List.length_zipWith, hleft, hright, min_self]

namespace Softmax128

theorem length_const {value : R} : (const value).length = laneCount := List.length_replicate

variable [Zero R] {mode : ElementwiseMode}

/-- An exact submission. -/
theorem run_of_exact (hexact : backend.Exact mode value) (hleft : left.length = laneCount)
    (hright : right.length = laneCount) : run backend mode left right = .ok (List.zipWith value left right) := by
  have hlength := @length_zipWith_lanes R _ _ value hleft hright
  have hshape : (halfVector (List.zipWith value left right)).shape = [laneCount] := congrArg ([·]) hlength
  have haccepted : ¬((halfVector (List.zipWith value left right)).dtype ≠ .float16 ∨
      (halfVector (List.zipWith value left right)).shape ≠ [laneCount]) :=
    not_or.mpr ⟨not_not.mpr rfl, not_not.mpr hshape⟩
  rw [run, hexact left right hleft hright, ok_bind, if_neg haccepted]
  refine congrArg Except.ok (List.ext_getElem ?_ fun i hi hlt => ?_)
  · rw [List.length_map, List.length_range, hlength]
  · rw [List.getElem_map, List.getElem_range]
    exact List.getD_eq_getElem _ 0 hlt

/-- A half of the lanes in front of zeros. -/
theorem length_front (hvalues : values.length = half) (hhalf : half ≤ laneCount) :
    (values ++ (const (0 : R)).drop half).length = laneCount := by
  rw [List.length_append, hvalues, List.length_drop, length_const]
  omega

/-- The rounds fold the lanes in use; what they leave in the lanes behind these is never taken. -/
theorem reduceLoop_of_exact (hexact : backend.Exact mode value) (hwidth : 2 ^ k ≤ laneCount)
    (hvalues : values.length = laneCount) :
    ∃ lanes, reduceLoop backend mode (2 ^ k) values = .ok lanes ∧
      lanes.take 1 = (foldHalves value)^[k] (values.take (2 ^ k)) := by
  induction k generalizing values with
  | zero =>
    rw [reduceLoop]
    exact ⟨values, rfl, rfl⟩
  | succ k ih =>
    rw [pow_succ'] at hwidth ⊢
    have hpos : 0 < 2 ^ k := Nat.two_pow_pos k
    have hused : (values.take (2 * 2 ^ k)).length = 2 * 2 ^ k := by
      rw [List.length_take]
      omega
    have hfront : (values.take (2 ^ k)).length = 2 ^ k := by
      rw [List.length_take]
      omega
    have hback : ((values.take (2 * 2 ^ k)).drop (2 ^ k)).length = 2 ^ k := by
      rw [List.length_drop, hused]
      omega
    have hleft := length_front hfront (by omega)
    have hright := length_front hback (by omega)
    obtain ⟨lanes, hlanes, htake⟩ := ih (by omega) (length_zipWith_lanes hleft hright)
    refine ⟨lanes, ?_, ?_⟩
    · rw [reduceLoop, if_pos (by omega)]
      simp only [Nat.mul_div_cancel_left _ two_pos]
      rw [assignSlice_of_length hfront, ok_bind, assignSlice_of_length hback, ok_bind,
        run_of_exact hexact hleft hright, ok_bind, hlanes]
    · rw [htake, Function.iterate_succ_apply, List.take_zipWith, List.take_left' hfront, List.take_left' hback,
        foldHalves, hused, Nat.mul_div_cancel_left _ two_pos, List.take_take, min_eq_left (by omega)]

/-- A reduction returns an element that has what every round keeps. -/
theorem reduce_of_exact {β : Type} {fold : List R → β} (hexact : backend.Exact mode value)
    (hround : ∀ {values : List R} {half : ℕ}, values.length = 2 * half → fold (foldHalves value values) = fold values)
    (hvalues : values.length = laneCount) :
    ∃ last, reduce backend mode values = .ok last ∧ fold [last] = fold values := by
  have hwidth : laneCount = 2 ^ 6 := rfl
  obtain ⟨lanes, hlanes, htake⟩ := reduceLoop_of_exact hexact hwidth.ge hvalues
  rw [← hwidth] at hlanes htake
  obtain ⟨last, hlast, hfold⟩ := exists_iterate_foldHalves hround (hvalues.trans hwidth)
  have hfirst : lanes.take 1 = [last] := by rw [htake, List.take_of_length_le hvalues.le, hlast]
  refine ⟨last, ?_, hfold⟩
  rw [reduce, hlanes, ok_bind, index_eq_ok, ← List.getElem?_take_of_lt one_pos, hfirst]
  rfl

end Softmax128

end Rounds

/-! ## Sums and maxima -/

namespace Softmax128

theorem reduce_add [AddCommMonoid R] (hadd : backend.Exact .add (· + ·)) (hvalues : values.length = laneCount) :
    reduce backend .add values = .ok values.sum := by
  obtain ⟨last, hlast, hsum⟩ := reduce_of_exact hadd sum_foldHalves hvalues
  rw [hlast, ← hsum, List.sum_singleton]

theorem reduce_max [Zero R] [LinearOrder R] (hmax : backend.Exact .max max) (hvalues : values.length = laneCount) :
    ∃ last, reduce backend .max values = .ok last ∧ values.maximum = last := by
  obtain ⟨last, hlast, hmaximum⟩ := reduce_of_exact hmax maximum_foldHalves hvalues
  exact ⟨last, hlast, hmaximum.symm.trans (List.maximum_singleton last)⟩

end Softmax128
namespace Normalization

open Softmax128

section Chunks

variable {row partials : List R} {n : ℕ}

/-- The chunks of a row and their indices. -/
theorem zipIdx_range (h : row.length = laneCount * n) :
    (range 0 row.length laneCount).zipIdx = (List.range n).map fun i => (laneCount * i, i) := by
  have hcount : (row.length - 0 + (laneCount - 1)) / laneCount = n := by
    rw [h, laneCount]
    omega
  rw [range, hcount]
  refine List.ext_getElem (by simp) fun i _ _ => ?_
  simp

variable [NonUnitalNonAssocSemiring R]

/-- The squares of a chunk, added up into the lane of the chunk. -/
theorem addPartial_of_exact (hadd : backend.Exact .add (· + ·)) (hsq : backend.Exact .sq fun x _ => x * x)
    (hrow : laneCount * (n + 1) ≤ row.length) (hpartials : partials.length = laneCount) (hn : n < laneCount) :
    addPartial backend row partials (laneCount * n, n) =
      .ok (partials.set n (((row.drop (laneCount * n)).take laneCount).map fun x => x * x).sum) := by
  have hchunk : ((row.drop (laneCount * n)).take laneCount).length = laneCount := by
    rw [List.length_take, List.length_drop]
    rw [mul_add_one] at hrow
    omega
  have hsquared : List.zipWith (fun x _ : R => x * x) ((row.drop (laneCount * n)).take laneCount) (const 0) =
      ((row.drop (laneCount * n)).take laneCount).map fun x => x * x := by
    refine List.ext_getElem ?_ fun i _ _ => ?_
    · rw [List.length_zipWith, List.length_map, hchunk, length_const, min_self]
    · rw [List.getElem_zipWith, List.getElem_map]
  rw [addPartial, run_of_exact hsq hchunk length_const, ok_bind, hsquared,
    reduce_add hadd (by rw [List.length_map, hchunk]), ok_bind, assignIndex_of_lt (by rw [hpartials]; exact hn)]

/-- After some chunks their lanes add up to the squares of these chunks, and the other lanes are zero. -/
theorem foldlM_addPartial (hadd : backend.Exact .add (· + ·)) (hsq : backend.Exact .sq fun x _ => x * x)
    (hrow : laneCount * n ≤ row.length) (hn : n ≤ laneCount) :
    ∃ sums, ((List.range n).map fun i => (laneCount * i, i)).foldlM (addPartial backend row) (const 0) =
        .ok (sums ++ List.replicate (laneCount - n) 0) ∧
      sums.length = n ∧ sums.sum = ((row.take (laneCount * n)).map fun x => x * x).sum := by
  induction n with
  | zero => exact ⟨[], rfl, rfl, rfl⟩
  | succ n ih =>
    obtain ⟨sums, hloop, hlength, hsum⟩ := ih (le_trans (Nat.mul_le_mul_left _ n.le_succ) hrow) (by omega)
    have hpartials : (sums ++ List.replicate (laneCount - n) 0).length = laneCount := by
      rw [List.length_append, hlength, List.length_replicate]
      omega
    refine ⟨sums ++ [(((row.drop (laneCount * n)).take laneCount).map fun x => x * x).sum], ?_, ?_, ?_⟩
    · rw [List.range_succ, List.map_append, List.foldlM_append, hloop, ok_bind, List.map_singleton,
        List.foldlM_cons, addPartial_of_exact hadd hsq hrow hpartials (by omega), ok_bind, List.foldlM_nil]
      have hlane : laneCount - n = laneCount - (n + 1) + 1 := by omega
      rw [List.set_append_right _ _ hlength.le, hlength, Nat.sub_self, hlane, List.replicate_succ, List.set_cons_zero,
        List.append_assoc, List.singleton_append]
      rfl
    · rw [List.length_append, hlength, List.length_singleton]
    · rw [List.sum_append, hsum, List.sum_singleton, mul_add_one, List.take_add, List.map_append, List.sum_append]

theorem sumSquares_of_exact (hadd : backend.Exact .add (· + ·)) (hsq : backend.Exact .sq fun x _ => x * x)
    (hlength : laneCount ∣ row.length) (hle : row.length ≤ laneCount * laneCount) :
    sumSquares backend row = .ok (row.map fun x => x * x).sum := by
  obtain ⟨n, hn⟩ := hlength
  have hnle : n ≤ laneCount := Nat.le_of_mul_le_mul_left (hn.ge.trans hle) (by decide)
  obtain ⟨sums, hloop, hsums, hsum⟩ := foldlM_addPartial hadd hsq hn.ge hnle
  have hpartials : (sums ++ List.replicate (laneCount - n) 0).length = laneCount := by
    rw [List.length_append, hsums, List.length_replicate]
    omega
  rw [sumSquares, zipIdx_range hn, hloop, ok_bind, reduce_add hadd hpartials, List.sum_append, hsum, ← hn,
    List.take_length, List.sum_replicate, nsmul_zero, add_zero]

end Chunks

end Normalization

/-- With exact submissions a reduction is the sum or the maximum of its 64 elements, and the sum of squares of a row is
that of all its elements. -/
theorem reductions_exact [NonUnitalNonAssocSemiring R] [LinearOrder R] {backend : Backend R}
    (hadd : backend.Exact .add (· + ·)) (hmax : backend.Exact .max max) (hsq : backend.Exact .sq fun x _ => x * x) :
    (∀ values, values.length = laneCount → Softmax128.reduce backend .add values = .ok values.sum) ∧
      (∀ values, values.length = laneCount → ∃ greatest, Softmax128.reduce backend .max values = .ok greatest ∧
        IsGreatest {x | x ∈ values} greatest) ∧
      ∀ row, laneCount ∣ row.length → row.length ≤ 4096 →
        Normalization.sumSquares backend row = .ok (row.map fun x => x * x).sum := by
  refine ⟨fun values hvalues => Softmax128.reduce_add hadd hvalues, fun values hvalues => ?_,
    fun row hlength hle => Normalization.sumSquares_of_exact hadd hsq hlength hle⟩
  obtain ⟨greatest, hreduce, hmaximum⟩ := Softmax128.reduce_max hmax hvalues
  obtain ⟨hmem, hle⟩ := List.maximum_eq_coe_iff.mp hmaximum
  exact ⟨greatest, hreduce, hmem, fun x hx => hle x hx⟩

/-- An engine that computes integers exactly. -/
def exactBackend : Backend ℤ := fun mode left right => .ok (halfVector (match mode with
  | .add => List.zipWith (· + ·) left right
  | .mul => List.zipWith (· * ·) left right
  | .max => List.zipWith max left right
  | .sq => List.zipWith (fun x _ => x * x) left right))

/-- Negative elements, whose maximum is not one of the zeros in the unused lanes. -/
theorem reductions_exact_negative :
    Softmax128.reduce exactBackend .add ((List.range 64).map fun i : ℕ => -1 - (i : ℤ)) = .ok (-2080) ∧
      Softmax128.reduce exactBackend .max ((List.range 64).map fun i : ℕ => -1 - (i : ℤ)) = .ok (-1) ∧
      Normalization.sumSquares exactBackend ((List.range 128).map fun i : ℕ => (i : ℤ)) = .ok 690880 := by
  obtain ⟨hsum, hmax, hsquares⟩ := @reductions_exact ℤ _ _ exactBackend (fun _ _ _ _ => rfl) (fun _ _ _ _ => rfl)
    (fun _ _ _ _ => rfl)
  have hlength : ((List.range 128).map fun i : ℕ => (i : ℤ)).length = 128 := by
    rw [List.length_map, List.length_range]
  refine ⟨(hsum _ (by decide)).trans (congrArg Except.ok (by decide +kernel)), ?_,
    (hsquares _ ⟨2, hlength⟩ (by omega)).trans (congrArg Except.ok (by decide +kernel))⟩
  obtain ⟨greatest, hreduce, hgreatest⟩ := hmax ((List.range 64).map fun i : ℕ => -1 - (i : ℤ)) (by decide)
  have hone : IsGreatest {x | x ∈ (List.range 64).map fun i : ℕ => -1 - (i : ℤ)} (-1) := by
    refine ⟨List.mem_map.mpr ⟨0, by decide, rfl⟩, fun x hx => ?_⟩
    obtain ⟨i, -, rfl⟩ := List.mem_map.mp hx
    omega
  rw [hreduce, le_antisymm (hone.2 hgreatest.1) (hgreatest.2 hone.1)]

end AneLinux.Runtime
