import AneLinux.Support.Python

/-!
# The packed weight blob

The engine reads the weights of a 512-row tile from a blob of 16-bit values. Blocks of 16384
values hold 32 rows each, column after column. The packer for 256 columns leaves the first six
values of a block empty and half of the block unused; the packer for 512 columns fills its
blocks. Both are one packer with two parameters. Every place of the blob is either the place of
one matrix entry or zero.
-/

namespace AneLinux.Runtime

open AneLinux.Support

universe u

/-- A two-dimensional array; only entries inside the shape are ever read. -/
structure Array2 (α : Type u) where
  rows : ℕ
  cols : ℕ
  entry : ℕ → ℕ → α

def tdSize : ℕ := 0x274
def tdSpacing : ℕ := 0x300
def weightOffset : ℕ := 0x274
def weightBytes : ℕ := 0x80000
def weightBytes512 : ℕ := 0x100000
def cmdBytes : ℕ := 0x8000
def srcBytes : ℕ := 0x4000
def srcBytes512 : ℕ := 0x8000
def outBytes : ℕ := 0x8000

/-- Values in one block of the blob. -/
def blockHalves : ℕ := 16384

/-- The place of a matrix entry in a blob whose blocks start with `shift` empty values. -/
def blobIndex (shift row col : ℕ) : ℕ := row / 32 * blockHalves + shift + col * 32 + row % 32

variable {α : Type u}

/-- The value at one place of a blob that held `old` there. -/
def packedValue (shift inCols : ℕ) (entry : ℕ → ℕ → α) (i : ℕ) (old : α) : α :=
  let block := i / blockHalves
  let lane := i % blockHalves
  if block < 16 ∧ shift ≤ lane ∧ lane < shift + inCols * 32 then
    entry (block * 32 + (lane - shift) % 32) ((lane - shift) / 32)
  else old

section Pack

variable [Zero α]

/-- `_pack_buffer`: a zeroed blob, in place when the caller gives one. -/
def packBuffer (size : ℕ) (out : Option (List α)) : Py (List α) :=
  match out with
  | none => .ok (List.replicate size 0)
  | some values =>
    if values.length ≠ size then
      raiseValue s!"output buffer must be float16 with {size} elements"
    else .ok (List.replicate size 0)

/-- The packers: check the shape, zero the blob and fill the blocks. -/
def packTile (shift inCols bytes : ℕ) (matrix : Array2 α) (out : Option (List α)) : Py (List α) :=
  if matrix.rows ≠ 512 ∨ matrix.cols ≠ inCols then
    raiseValue s!"weights must have shape (512, {inCols}), got ({matrix.rows}, {matrix.cols})"
  else do
    let blob ← packBuffer (bytes / 2) out
    return blob.mapIdx (packedValue shift inCols matrix.entry)

/-- Pack a `(512, 256)` matrix. -/
def packWeights (matrix : Array2 α) (out : Option (List α)) : Py (List α) :=
  packTile 6 256 weightBytes matrix out

/-- Pack a `(512, 512)` matrix. -/
def packWeights512 (matrix : Array2 α) (out : Option (List α)) : Py (List α) :=
  packTile 0 512 weightBytes512 matrix out

/-- The blob of a matrix, place by place. -/
def packedBlob (shift inCols bytes : ℕ) (entry : ℕ → ℕ → α) : List α :=
  (List.range (bytes / 2)).map fun i => packedValue shift inCols entry i 0

@[simp] theorem length_packedBlob (shift inCols bytes : ℕ) (entry : ℕ → ℕ → α) :
    (packedBlob shift inCols bytes entry).length = bytes / 2 := by
  simp [packedBlob]

/-- A packer that is given no blob, or one of the right length, returns the blob of the matrix. -/
theorem packTile_eq {shift inCols bytes : ℕ} {matrix : Array2 α} {out : Option (List α)}
    (hrows : matrix.rows = 512) (hcols : matrix.cols = inCols)
    (hout : ∀ values, out = some values → values.length = bytes / 2) :
    packTile shift inCols bytes matrix out = .ok (packedBlob shift inCols bytes matrix.entry) := by
  have hbuffer : packBuffer (bytes / 2) out = .ok (List.replicate (bytes / 2) (0 : α)) := by
    cases out with
    | none => rfl
    | some values => simp [packBuffer, hout values rfl]
  rw [packTile, if_neg (by simp [hrows, hcols]), hbuffer, ok_bind]
  refine congrArg Except.ok (List.ext_getElem ?_ fun i hi hi' => ?_)
  · simp
  · simp [packedBlob]

end Pack

/-- The shift leaves room for the columns of a block. -/
def FitsBlock (shift inCols : ℕ) : Prop := shift + inCols * 32 ≤ blockHalves

theorem fitsBlock_256 : FitsBlock 6 256 := by
  unfold FitsBlock blockHalves
  omega

theorem fitsBlock_512 : FitsBlock 0 512 := by
  unfold FitsBlock blockHalves
  omega

section Layout

variable {shift inCols : ℕ} {entry other : ℕ → ℕ → α} {old : α}

/-- The place of an entry holds the entry. -/
theorem packedValue_blobIndex (hfits : FitsBlock shift inCols) {row col : ℕ} (hrow : row < 512)
    (hcol : col < inCols) : packedValue shift inCols entry (blobIndex shift row col) old = entry row col := by
  unfold FitsBlock at hfits
  have hcols : col * 32 + 32 ≤ inCols * 32 := by omega
  have hblock : blobIndex shift row col / blockHalves = row / 32 := by
    unfold blobIndex blockHalves at *
    omega
  have hlane : blobIndex shift row col % blockHalves = shift + col * 32 + row % 32 := by
    unfold blobIndex blockHalves at *
    omega
  simp only [packedValue, hblock, hlane]
  rw [if_pos (by omega)]
  congr 1
  · omega
  · omega

/-- A place that is the place of no entry keeps its value, and the place of an entry depends on
that entry only. -/
theorem packedValue_congr {i : ℕ}
    (h : ∀ row col, row < 512 → col < inCols → i = blobIndex shift row col → entry row col = other row col) :
    packedValue shift inCols entry i old = packedValue shift inCols other i old := by
  simp only [packedValue]
  by_cases hplace : i / blockHalves < 16 ∧ shift ≤ i % blockHalves ∧ i % blockHalves < shift + inCols * 32
  · rw [if_pos hplace, if_pos hplace]
    apply h
    · omega
    · omega
    · unfold blobIndex blockHalves at *
      omega
  · rw [if_neg hplace, if_neg hplace]

/-- Different entries have different places. -/
theorem blobIndex_inj (hfits : FitsBlock shift inCols) {row col row' col' : ℕ} (hcol : col < inCols)
    (hcol' : col' < inCols) (h : blobIndex shift row col = blobIndex shift row' col') :
    row = row' ∧ col = col' := by
  unfold FitsBlock at hfits
  have hcols : col * 32 + 32 ≤ inCols * 32 := by omega
  have hcols' : col' * 32 + 32 ≤ inCols * 32 := by omega
  unfold blobIndex blockHalves at *
  omega

/-- The places of the entries lie in sixteen blocks. -/
theorem blobIndex_lt (hfits : FitsBlock shift inCols) {row col : ℕ} (hrow : row < 512) (hcol : col < inCols) :
    blobIndex shift row col < 16 * blockHalves := by
  unfold FitsBlock at hfits
  have hcols : col * 32 + 32 ≤ inCols * 32 := by omega
  unfold blobIndex blockHalves at *
  omega

end Layout

end AneLinux.Runtime
