import AneLinux.Runtime.Routes
import Mathlib.Algebra.BigOperators.Ring.Finset

/-!
# The engine in exact arithmetic

Values are elements of a semiring and a memory cell is a host byte or one half of a value. The
exact engine unpacks the weights from the command it is shown, with the blob offset and the shift of
the tile width of the descriptor, and multiplies them by the strided source. What a route shows the
engine is then the product of the zero-padded tile and the activation.
-/

namespace AneLinux.Runtime

open AneLinux.Support

variable {R : Type}

/-- A memory cell: a byte of the host, or one of the two bytes of a value. -/
inductive Cell (R : Type)
  | raw (byte : UInt8)
  | low (value : R)
  | high (value : R)
deriving DecidableEq

instance [Zero R] : HalfMemory R (Cell R) where
  raw := .raw
  low := .low
  high := .high
  decode
    | .low value, .high _ => value
    | _, _ => 0
  decode_encode _ := rfl

/-- The value at a byte offset. -/
def valueAt [Zero R] (bytes : List (Cell R)) (offset : ℕ) : R :=
  HalfMemory.decode (bytes.getD offset (.raw 0)) (bytes.getD (offset + 1) (.raw 0))

/-- The empty values before the weights of a block. -/
def blobShift (inCols : ℕ) : ℕ := if inCols = 256 then 6 else 0

/-- A cell behind a prefix. -/
theorem getD_append_add {before rest : List (Cell R)} (k : ℕ) :
    (before ++ rest).getD (before.length + k) (.raw 0) = rest.getD k (.raw 0) := by
  rw [List.getD_eq_getElem?_getD, List.getElem?_append_right (Nat.le_add_right _ _), Nat.add_sub_cancel_left,
    List.getD_eq_getElem?_getD]

variable {inCols row col : ℕ} {activation : List R}

section Engine

variable [CommSemiring R]

/-- The weight the engine reads for a row and a column. -/
def unpackedWeight (inCols : ℕ) (command : List (Cell R)) (row col : ℕ) : R :=
  valueAt command (blobOffset inCols + 2 * blobIndex (blobShift inCols) row col)

/-- One row of the product the engine computes. -/
def engineProduct (inCols : ℕ) (submission : Submission (Cell R)) (row : ℕ) : R :=
  ∑ col ∈ Finset.range inCols,
    unpackedWeight inCols submission.command row col * valueAt submission.source (2 * (32 * col))

/-- The engine answers every submission with the product for the tile width of its descriptor. -/
def ExactEngine (host : Host (Cell R)) (width : List (Cell R) → ℕ) : Prop :=
  ∀ n submission row, row < 512 →
    host.respond n submission (2 * (32 * row)) = .low (engineProduct (width submission.btsp) submission row) ∧
    host.respond n submission (2 * (32 * row) + 1) = .high (engineProduct (width submission.btsp) submission row)

/-- The answer of the exact engine. -/
theorem answer_exact [DecidableEq R] {host : Host (Cell R)} {width : List (Cell R) → ℕ}
    (h : ExactEngine host width) (n : ℕ) (submission : Submission (Cell R)) :
    Device.answer host n submission =
      .ok ((List.range 512).map (engineProduct (width submission.btsp) submission)) := by
  have hfirst := h n submission 0 (by decide)
  have hsentinel : ((List.range outBytes).map (host.respond n submission)).take 2 ≠ sentinelBytes R := by
    rw [← List.map_take, List.take_range, show min 2 outBytes = 2 from rfl]
    intro heq
    have hcell : host.respond n submission 0 = .raw 0x00 := (List.cons.inj heq).1
    rw [hfirst.1] at hcell
    cases hcell
  have hget {k : ℕ} (hk : k < outBytes) :
      ((List.range outBytes).map (host.respond n submission)).getD k (HalfMemory.raw R 0) =
        host.respond n submission k := by
    rw [List.getD_eq_getElem?_getD, List.getElem?_map, List.getElem?_range hk]
    rfl
  rw [Device.answer, Device.readOutput, if_neg hsentinel]
  refine congrArg Except.ok ?_
  unfold outputRows
  refine List.map_congr_left fun row hrow => ?_
  have hrow := List.mem_range.mp hrow
  have hbytes : outBytes = 32768 := rfl
  obtain ⟨hlow, hhigh⟩ := h n submission row hrow
  rw [hget (by omega), hget (by omega), hlow, hhigh]
  rfl

/-- A value of an encoded list is read back at its offset. -/
theorem valueAt_encode {before after : List (Cell R)} {values : List R} {i : ℕ} (hi : i < values.length) :
    valueAt (before ++ encode values ++ after) (before.length + 2 * i) = values.getD i 0 := by
  induction values generalizing before i with
  | nil => exact absurd hi (Nat.not_lt_zero i)
  | cons a values ih =>
    have hcons : (encode (a :: values) : List (Cell R)) = [.low a, .high a] ++ encode values := rfl
    cases i with
    | zero =>
      rw [hcons, valueAt, List.append_assoc, getD_append_add, Nat.add_assoc, getD_append_add]
      rfl
    | succ i =>
      have hlength : before.length + 2 * (i + 1) = (before ++ [Cell.low a, Cell.high a]).length + 2 * i := by
        simp only [List.length_append, List.length_cons, List.length_nil]
        omega
      rw [hcons, ← List.append_assoc before, hlength, ih (Nat.lt_of_succ_lt_succ hi)]
      rfl

/-- A place of a blob inside its bytes. -/
theorem getD_packedBlob {shift bytes i : ℕ} (entry : ℕ → ℕ → R) (hi : i < bytes / 2) :
    (packedBlob shift inCols bytes entry).getD i 0 = packedValue shift inCols entry i 0 := by
  rw [List.getD_eq_getElem?_getD, packedBlob, List.getElem?_map, List.getElem?_range hi]
  rfl

/-- The place of an entry in the blob of its tile width. -/
theorem getD_tileBlob (hwidth : inCols = 256 ∨ inCols = 512) (entry : ℕ → ℕ → R) (hrow : row < 512)
    (hcol : col < inCols) :
    blobIndex (blobShift inCols) row col < (tileBlob inCols entry).length ∧
      (tileBlob inCols entry).getD (blobIndex (blobShift inCols) row col) 0 = entry row col := by
  rcases hwidth with rfl | rfl
  · have hlt : blobIndex 6 row col < weightBytes / 2 := blobIndex_lt fitsBlock_256 hrow hcol
    rw [tileBlob, if_pos rfl, blobShift, if_pos rfl, length_packedBlob, getD_packedBlob entry hlt]
    exact ⟨hlt, packedValue_blobIndex fitsBlock_256 hrow hcol⟩
  · have hlt : blobIndex 0 row col < weightBytes512 / 2 :=
      (blobIndex_lt fitsBlock_512 hrow hcol).trans (by decide)
    rw [tileBlob, if_neg (by decide), blobShift, if_neg (by decide), length_packedBlob, getD_packedBlob entry hlt]
    exact ⟨hlt, packedValue_blobIndex fitsBlock_512 hrow hcol⟩

/-- The engine reads the entries of the tile out of the command. -/
theorem unpackedWeight_tileBytes (hwidth : inCols = 256 ∨ inCols = 512) (descriptor tail : List (Cell R))
    (entry : ℕ → ℕ → R) (hrow : row < 512) (hcol : col < inCols) :
    unpackedWeight inCols (tileBytes descriptor inCols entry ++ tail) row col = entry row col := by
  obtain ⟨hlt, hentry⟩ := getD_tileBlob hwidth entry hrow hcol
  have hread := @valueAt_encode R _ (commandHead R descriptor (blobOffset inCols)) tail _ _ hlt
  rw [length_commandHead, hentry] at hread
  exact hread

/-- The engine reads the activation out of the source. -/
theorem valueAt_stridedSource (hwidth : inCols = 256 ∨ inCols = 512) (hlength : activation.length = inCols)
    (hcol : col < inCols) :
    valueAt (encode (Device.stridedSource inCols activation)) (2 * (32 * col)) = activation.getD col 0 := by
  have hslots : sourceSlots inCols = inCols := by
    rcases hwidth with rfl | rfl
    · rfl
    · rfl
  have hplaces : 32 * inCols = sourceBytes inCols / 2 := by
    rcases hwidth with rfl | rfl
    · rfl
    · rfl
  have hlt : 32 * col < (Device.stridedSource inCols activation).length := by
    rw [Device.stridedSource, List.length_map, List.length_range]
    omega
  have hread := @valueAt_encode R _ [] [] _ _ hlt
  rw [List.nil_append, List.append_nil, List.length_nil, Nat.zero_add] at hread
  rw [hread, Device.stridedSource, List.getD_eq_getElem?_getD, List.getElem?_map, List.getElem?_range (by omega),
    Option.map_some, Option.getD_some, if_pos (by omega), if_pos (hlength.trans hslots.symm),
    Nat.mul_div_cancel_left _ (by decide)]

/-- The product of what a route shows the engine is the product of the tile and the activation. -/
theorem engineProduct_shown (hwidth : inCols = 256 ∨ inCols = 512) {submission : Submission (Cell R)}
    {descriptor tail : List (Cell R)} {entry : ℕ → ℕ → R}
    (hcommand : submission.command = tileBytes descriptor inCols entry ++ tail)
    (hsource : submission.source = encode (Device.stridedSource inCols activation))
    (hlength : activation.length = inCols) (hrow : row < 512) :
    engineProduct inCols submission row = ∑ col ∈ Finset.range inCols, entry row col * activation.getD col 0 := by
  refine Finset.sum_congr rfl fun col hcol => ?_
  have hcol := Finset.mem_range.mp hcol
  rw [hcommand, hsource, unpackedWeight_tileBytes hwidth descriptor tail entry hrow hcol,
    valueAt_stridedSource hwidth hlength hcol]

/-- A method that shows the tile and the activation returns their product. -/
theorem returns_of_submits [DecidableEq R] {host : Host (Cell R)} {width : List (Cell R) → ℕ}
    (hexact : ExactEngine host width) (hwidth : inCols = 256 ∨ inCols = 512)
    {method : Method (Device R (Cell R)) (List R)} {s : Device R (Cell R)} {descriptor tail : List (Cell R)}
    (hdescriptor : width descriptor = inCols) {entry : ℕ → ℕ → R} (hlength : activation.length = inCols)
    (h : Device.Submits host method s (tileBytes descriptor inCols entry ++ tail)
      (encode (Device.stridedSource inCols activation)) descriptor) :
    (method s).2 = .ok ((List.range 512).map fun row =>
      ∑ col ∈ Finset.range inCols, entry row col * activation.getD col 0) := by
  obtain ⟨submission, hanswer, -, hcommand, hsource, hbtsp⟩ := h
  rw [hanswer, answer_exact hexact, hbtsp, hdescriptor]
  refine congrArg Except.ok (List.map_congr_left fun row hrow => ?_)
  exact engineProduct_shown hwidth hcommand hsource hlength (List.mem_range.mp hrow)

end Engine

end AneLinux.Runtime
