import AneLinux.Runtime.ExactEngine
import AneLinux.Runtime.Elementwise

/-!
# Tiled projection

`QwenModel.projection` multiplies a matrix by a vector on the engine. It cuts the matrix into tiles
of 512 rows and 256 or 512 columns, sends every tile through one of three routes, adds the products
of the tiles of one row band and copies the used rows. In exact arithmetic the result is the plain
matrix-vector product, whatever the device has multiplied before.
-/

namespace AneLinux.Runtime

open AneLinux.Support

variable {R M : Type}

/-- The parts of a model that a projection reads. `persistent` says that the device has tile programs
and the environment does not turn them off. -/
structure QwenModel (M : Type) where
  cpuReference : Bool
  tensorRuntime : Bool
  persistent : Bool
  descriptor : List M
  descriptor512 : List M

/-- The descriptor of a tile width. -/
def QwenModel.descriptorFor (model : QwenModel M) (inCols : ℕ) : List M :=
  if inCols = 512 then model.descriptor512 else model.descriptor

section Code

variable [CommSemiring R]

/-- `matrix @ activation`. -/
def mulVec (matrix : Array2 R) (activation : List R) : List R :=
  (List.range matrix.rows).map fun row =>
    ∑ col ∈ Finset.range matrix.cols, matrix.entry row col * activation.getD col 0

/-- `matrix @ activation` with its shape check. -/
def matmul (matrix : Array2 R) (activation : List R) : Py (List R) :=
  if activation.length ≠ matrix.cols then
    raiseValue "matmul: Input operand 1 has a mismatch in its core dimension 0"
  else .ok (mulVec matrix activation)

/-- `x = np.zeros(in_cols)`, then `x[:cols] = activation[col0 : col0 + cols]`. -/
def tileActivation (activation : List R) (col0 cols inCols : ℕ) : Py (List R) :=
  let part := (activation.drop col0).take cols
  if part.length = cols then .ok (part ++ List.replicate (inCols - cols) 0)
  else if part.length = 1 then .ok (List.replicate cols (part.getD 0 0) ++ List.replicate (inCols - cols) 0)
  else raiseValue s!"could not broadcast input array from shape ({part.length},) into shape ({cols},)"

variable [HalfMemory R M] [DecidableEq M]

/-- The product of one tile, through the route of the model. -/
def tileProduct (host : Host M) (model : QwenModel M) (mid : ℕ) (matrix : Array2 R) (x : List R)
    (inCols row0 col0 : ℕ) : Method (Device R M) (List R) :=
  let descriptor := model.descriptorFor inCols
  if model.persistent then
    if 100000000 ≤ matrix.rows * matrix.cols then
      Device.tileGemm host ⟨mid, inCols, row0, col0⟩ matrix x descriptor inCols
    else Device.blobSwapGemm host ⟨mid, inCols, row0, col0⟩ matrix x descriptor inCols
  else
    let rows := min 512 (matrix.rows - row0)
    let cols := min inCols (matrix.cols - col0)
    let tile : Array2 R :=
      ⟨512, inCols, fun i j => if i < rows ∧ j < cols then matrix.entry (row0 + i) (col0 + j) else 0⟩
    if inCols = 512 then Device.gemm512 host tile x descriptor else Device.gemm host tile x descriptor

/-- One round of the loop over the columns: the sum so far and one more tile. -/
def addTile (host : Host M) (model : QwenModel M) (mid : ℕ) (matrix : Array2 R) (activation : List R)
    (memory : ℕ → R) (inCols row0 : ℕ) (acc : Option (List R)) (col0 : ℕ) :
    Method (Device R M) (Option (List R)) := do
  let x ← Method.lift (tileActivation activation col0 (min inCols (matrix.cols - col0)) inCols)
  let part ← tileProduct host model mid matrix x inCols row0 col0
  match acc with
  | none => return some part
  | some acc => do
    let sum ← Method.lift (TensorOperations.add (halfVector acc) (halfVector part) memory fun _ => none)
    return some sum

/-- One round of the loop over the rows: the sum of the tiles of the band, copied to the result. -/
def addBand (host : Host M) (model : QwenModel M) (mid : ℕ) (matrix : Array2 R) (activation : List R)
    (memory : ℕ → R) (inCols : ℕ) (result : ℕ → R) (row0 : ℕ) : Method (Device R M) (ℕ → R) := do
  let acc ← (range 0 matrix.cols inCols).foldlM
    (addTile host model mid matrix activation memory inCols row0) none
  match acc with
  | none => Method.raise (.valueError "projection matrix must have at least one column")
  | some acc => return setRange result row0 (min 512 (matrix.rows - row0)) fun i => acc.getD i 0

/-- `QwenModel.projection`; `memory` is what fresh memory holds. -/
def QwenModel.projection (host : Host M) (model : QwenModel M) (mid : ℕ) (matrix : Array2 R)
    (activation : List R) (inCols : Option ℕ) (memory : ℕ → R) : Method (Device R M) (List R) :=
  if model.cpuReference then Method.lift (matmul matrix activation)
  else if model.tensorRuntime = false then
    Method.raise (.runtimeError "ANE tensor runtime is required; CPU and GPU tensor fallback is disabled")
  else do
    let inCols := inCols.getD (if 512 ≤ matrix.cols then 512 else 256)
    let result ← (range 0 matrix.rows 512).foldlM
      (addBand host model mid matrix activation memory inCols) memory
    return (List.range matrix.rows).map result

end Code

/-- The descriptors of a model are programs of the two tile widths, as long as a task. -/
structure QwenModel.Provides (model : QwenModel M) (width : List M → ℕ) : Prop where
  width256 : width model.descriptor = 256
  width512 : width model.descriptor512 = 512
  length256 : tdSize ≤ model.descriptor.length
  length512 : tdSize ≤ model.descriptor512.length

variable {inCols row0 col0 mid : ℕ} {host : Host (Cell R)} {width : List (Cell R) → ℕ} {model : QwenModel (Cell R)}
  {heap : ℕ → Array2 R} {matrix : Array2 R} {x activation : List R} {fail : Device R (Cell R) → Prop}
  {passed rest : List ℕ}

theorem QwenModel.Provides.descriptorFor {model : QwenModel M} {width : List M → ℕ} (h : model.Provides width)
    (hwidth : inCols = 256 ∨ inCols = 512) :
    width (model.descriptorFor inCols) = inCols ∧ tdSize ≤ (model.descriptorFor inCols).length := by
  rcases hwidth with rfl | rfl
  · exact ⟨h.width256, h.length256⟩
  · exact ⟨h.width512, h.length512⟩

section Tile

variable [CommSemiring R] [DecidableEq R]

/-- The product of a padded tile and a vector, row by row. -/
def tileRows (matrix : Array2 R) (x : List R) (inCols row0 col0 : ℕ) : List R :=
  (List.range 512).map fun row =>
    ∑ col ∈ Finset.range inCols, paddedTile matrix row0 col0 row col * x.getD col 0

omit [DecidableEq R] in
/-- The part of the matrix that the tile copies is the padded tile. -/
theorem sum_copied_eq (hrow0 : row0 ≤ matrix.rows) (hcol0 : col0 ≤ matrix.cols) (x : List R) :
    ((List.range 512).map fun row => ∑ col ∈ Finset.range inCols,
      (if row < min 512 (matrix.rows - row0) ∧ col < min inCols (matrix.cols - col0) then
        matrix.entry (row0 + row) (col0 + col) else 0) * x.getD col 0) = tileRows matrix x inCols row0 col0 := by
  refine List.map_congr_left fun row hrow => Finset.sum_congr rfl fun col hcol => ?_
  have hrow := List.mem_range.mp hrow
  have hcol := Finset.mem_range.mp hcol
  have hinside : row < min 512 (matrix.rows - row0) ∧ col < min inCols (matrix.cols - col0) ↔
      row0 + row < matrix.rows ∧ col0 + col < matrix.cols := by omega
  simp only [paddedTile, hinside]

omit [CommSemiring R] [DecidableEq R] in
theorem ne_nil_of_tdSize_le {descriptor : List (Cell R)} (h : tdSize ≤ descriptor.length) : descriptor ≠ [] := by
  intro hnil
  rw [hnil, List.length_nil] at h
  exact absurd h (by decide)

omit [CommSemiring R] [DecidableEq R] in
/-- The source of a tile program takes a vector of the tile width. -/
theorem takesActivation (hwidth : inCols = 256 ∨ inCols = 512) (hx : x.length = inCols) :
    Device.TakesActivation inCols x := by
  refine .inl (hx.trans ?_)
  rcases hwidth with rfl | rfl
  · rfl
  · rfl

/-- A tile program returns the product of the zero-padded tile, and keeps the device ready. -/
theorem tileGemm_returns (hexact : ExactEngine host width) (hmodel : model.Provides width)
    (hwidth : inCols = 256 ∨ inCols = 512) (hrow0 : row0 ≤ (heap mid).rows) (hcol0 : col0 ≤ (heap mid).cols)
    (hx : x.length = inCols) :
    Method.Triple (Device.Ready model.descriptorFor heap)
      (Device.tileGemm host ⟨mid, inCols, row0, col0⟩ (heap mid) x (model.descriptorFor inCols) inCols)
      (fun part s => part = tileRows (heap mid) x inCols row0 col0 ∧ Device.Ready model.descriptorFor heap s)
      fail := by
  obtain ⟨hdescriptor, hlength⟩ := hmodel.descriptorFor hwidth
  refine Method.Triple.returns (fun s hs => ?_) (Device.tileGemm_ready host ⟨mid, inCols, row0, col0⟩ x)
  have hsubmits := @Device.tileGemm_submits R (Cell R) _ heap s ⟨mid, inCols, row0, col0⟩ x _ _ host _ hs
    ⟨hwidth, .inl hrow0, .inl hcol0⟩ (ne_nil_of_tdSize_le hlength) (takesActivation hwidth hx)
  rw [← List.append_nil (tileBytes _ _ _)] at hsubmits
  exact returns_of_submits hexact hwidth hdescriptor hx hsubmits

/-- So does the program whose blob is swapped. -/
theorem blobSwapGemm_returns (hexact : ExactEngine host width) (hmodel : model.Provides width)
    (hwidth : inCols = 256 ∨ inCols = 512) (hrow0 : row0 ≤ (heap mid).rows) (hcol0 : col0 ≤ (heap mid).cols)
    (hx : x.length = inCols) :
    Method.Triple (Device.Ready model.descriptorFor heap)
      (Device.blobSwapGemm host ⟨mid, inCols, row0, col0⟩ (heap mid) x (model.descriptorFor inCols) inCols)
      (fun part s => part = tileRows (heap mid) x inCols row0 col0 ∧ Device.Ready model.descriptorFor heap s)
      fail := by
  obtain ⟨hdescriptor, hlength⟩ := hmodel.descriptorFor hwidth
  refine Method.Triple.returns (fun s hs => ?_)
    (Device.blobSwapGemm_ready host ⟨mid, inCols, row0, col0⟩ (heap mid) x inCols)
  have hsubmits := @Device.blobSwapGemm_submits R (Cell R) _ heap s ⟨mid, inCols, row0, col0⟩ inCols (heap mid) x
    _ _ host _ hs ⟨hwidth, .inl hrow0, .inl hcol0⟩ (ne_nil_of_tdSize_le hlength) (takesActivation hwidth hx)
  rw [← List.append_nil (tileBytes _ _ _)] at hsubmits
  exact returns_of_submits hexact hwidth hdescriptor hx hsubmits

/-- A workspace of the narrow width returns the product of the tile that is copied. -/
theorem gemm_returns (hexact : ExactEngine host width) (hmodel : model.Provides width) (hrow0 : row0 ≤ (heap mid).rows)
    (hcol0 : col0 ≤ (heap mid).cols) (hx : x.length = 256) :
    Method.Triple (Device.Ready model.descriptorFor heap)
      (Device.gemm host ⟨512, 256, fun i j => if i < min 512 ((heap mid).rows - row0) ∧
        j < min 256 ((heap mid).cols - col0) then (heap mid).entry (row0 + i) (col0 + j) else 0⟩ x
        (model.descriptorFor 256))
      (fun part s => part = tileRows (heap mid) x 256 row0 col0 ∧ Device.Ready model.descriptorFor heap s) fail := by
  obtain ⟨hdescriptor, hlength⟩ := hmodel.descriptorFor (.inl rfl)
  rw [← sum_copied_eq hrow0 hcol0]
  refine Method.Triple.returns (fun s hs => ?_) (Device.gemm_ready host _ x _)
  exact returns_of_submits hexact (.inl rfl) hdescriptor hx (Device.gemm_submits hs.workspaces hlength _ hx)

/-- So does one of the wide width. -/
theorem gemm512_returns (hexact : ExactEngine host width) (hmodel : model.Provides width)
    (hrow0 : row0 ≤ (heap mid).rows) (hcol0 : col0 ≤ (heap mid).cols) (hx : x.length = 512) :
    Method.Triple (Device.Ready model.descriptorFor heap)
      (Device.gemm512 host ⟨512, 512, fun i j => if i < min 512 ((heap mid).rows - row0) ∧
        j < min 512 ((heap mid).cols - col0) then (heap mid).entry (row0 + i) (col0 + j) else 0⟩ x
        (model.descriptorFor 512))
      (fun part s => part = tileRows (heap mid) x 512 row0 col0 ∧ Device.Ready model.descriptorFor heap s) fail := by
  obtain ⟨hdescriptor, hlength⟩ := hmodel.descriptorFor (.inr rfl)
  rw [← sum_copied_eq hrow0 hcol0]
  refine Method.Triple.returns (fun s hs => ?_) (Device.gemm512_ready host _ x _)
  have hsubmits := @Device.gemm512_submits R (Cell R) s _ x _ _ host _ hs.workspaces hlength
    (fun i j => if i < min 512 ((heap mid).rows - row0) ∧ j < min 512 ((heap mid).cols - col0) then
      (heap mid).entry (row0 + i) (col0 + j) else 0) hx
  rw [← List.append_nil (tileBytes _ _ _)] at hsubmits
  exact returns_of_submits hexact (.inr rfl) hdescriptor hx hsubmits

/-- Every route returns the product of the zero-padded tile, and keeps the device ready. -/
theorem tileProduct_returns (hexact : ExactEngine host width) (hmodel : model.Provides width)
    (hwidth : inCols = 256 ∨ inCols = 512) (hrow0 : row0 ≤ (heap mid).rows) (hcol0 : col0 ≤ (heap mid).cols)
    (hx : x.length = inCols) :
    Method.Triple (Device.Ready model.descriptorFor heap) (tileProduct host model mid (heap mid) x inCols row0 col0)
      (fun part s => part = tileRows (heap mid) x inCols row0 col0 ∧ Device.Ready model.descriptorFor heap s)
      fail := by
  unfold tileProduct
  split
  · split
    · exact tileGemm_returns hexact hmodel hwidth hrow0 hcol0 hx
    · exact blobSwapGemm_returns hexact hmodel hwidth hrow0 hcol0 hx
  · rcases hwidth with rfl | rfl
    · rw [if_neg (by decide)]
      exact gemm_returns hexact hmodel hrow0 hcol0 hx
    · rw [if_pos rfl]
      exact gemm512_returns hexact hmodel hrow0 hcol0 hx

end Tile

section Band

variable [CommSemiring R]

/-- One term of the product, zero outside the matrix. -/
def bandTerm (matrix : Array2 R) (activation : List R) (row0 row col : ℕ) : R :=
  if row0 + row < matrix.rows ∧ col < matrix.cols then matrix.entry (row0 + row) col * activation.getD col 0 else 0

/-- The products of a band with the first columns. -/
def bandRows (matrix : Array2 R) (activation : List R) (row0 cols : ℕ) : List R :=
  (List.range 512).map fun row => ∑ col ∈ Finset.range cols, bandTerm matrix activation row0 row col

theorem getD_map_range {f : ℕ → R} {i n : ℕ} (hi : i < n) : ((List.range n).map f).getD i 0 = f i := by
  rw [List.getD_eq_getElem?_getD, List.getElem?_map, List.getElem?_range hi]
  rfl

/-- The slice of the activation for a tile. -/
theorem tileActivation_ok (hlength : activation.length = matrix.cols) (hcol0 : col0 ≤ matrix.cols) :
    ∃ x, tileActivation activation col0 (min inCols (matrix.cols - col0)) inCols = .ok x ∧ x.length = inCols ∧
      ∀ col, col < inCols → col0 + col < matrix.cols → x.getD col 0 = activation.getD (col0 + col) 0 := by
  have hpart : ((activation.drop col0).take (min inCols (matrix.cols - col0))).length =
      min inCols (matrix.cols - col0) := by
    rw [List.length_take, List.length_drop, hlength]
    omega
  refine ⟨_, by rw [tileActivation, if_pos hpart], ?_, fun col hcol hinside => ?_⟩
  · rw [List.length_append, hpart, List.length_replicate]
    omega
  · rw [List.getD_eq_getElem?_getD, List.getElem?_append_left (by omega), List.getElem?_take_of_lt (by omega),
      List.getElem?_drop, ← List.getD_eq_getElem?_getD]

/-- A tile contributes the terms of its columns. -/
theorem tileRows_eq
    (hx : ∀ col, col < inCols → col0 + col < matrix.cols → x.getD col 0 = activation.getD (col0 + col) 0) :
    tileRows matrix x inCols row0 col0 = (List.range 512).map fun row =>
      ∑ col ∈ Finset.range inCols, bandTerm matrix activation row0 row (col0 + col) := by
  refine List.map_congr_left fun row _ => Finset.sum_congr rfl fun col hcol => ?_
  rw [paddedTile, bandTerm]
  by_cases hinside : row0 + row < matrix.rows ∧ col0 + col < matrix.cols
  · rw [if_pos hinside, if_pos hinside, hx col (Finset.mem_range.mp hcol) hinside.2]
  · rw [if_neg hinside, if_neg hinside, zero_mul]

/-- The first tile of a band. -/
theorem bandRows_first (hx : ∀ col, col < inCols → 0 + col < matrix.cols → x.getD col 0 = activation.getD (0 + col) 0) :
    tileRows matrix x inCols row0 0 = bandRows matrix activation row0 inCols := by
  rw [tileRows_eq hx, bandRows]
  simp only [Nat.zero_add]

/-- One more tile of a band. -/
theorem bandRows_add
    (hx : ∀ col, col < inCols → col0 + col < matrix.cols → x.getD col 0 = activation.getD (col0 + col) 0)
    (memory : ℕ → R) :
    TensorOperations.add (halfVector (bandRows matrix activation row0 col0))
      (halfVector (tileRows matrix x inCols row0 col0)) memory (fun _ => none) =
        .ok (bandRows matrix activation row0 (col0 + inCols)) := by
  have hlength : (bandRows matrix activation row0 col0).length = 512 := by simp [bandRows]
  rw [TensorOperations.add_halfVector (List.ne_nil_of_length_pos (by omega)) (by simp [bandRows, tileRows]), hlength]
  refine congrArg Except.ok (List.map_congr_left fun row hrow => ?_)
  have hrow := List.mem_range.mp hrow
  rw [tileRows_eq hx, bandRows, getD_map_range hrow, getD_map_range hrow, Finset.sum_range_add]

/-- The whole width of the matrix gives the product. -/
theorem getD_bandRows {row cols : ℕ} (hrow : row < 512) (hinside : row0 + row < matrix.rows)
    (hcols : matrix.cols ≤ cols) :
    (bandRows matrix activation row0 cols).getD row 0 =
      ∑ col ∈ Finset.range matrix.cols, matrix.entry (row0 + row) col * activation.getD col 0 := by
  obtain ⟨extra, rfl⟩ := Nat.exists_eq_add_of_le hcols
  rw [bandRows, getD_map_range hrow, Finset.sum_range_add]
  have hextra : ∑ col ∈ Finset.range extra, bandTerm matrix activation row0 row (matrix.cols + col) = 0 :=
    Finset.sum_eq_zero fun col _ => if_neg (by omega)
  rw [hextra, add_zero]
  exact Finset.sum_congr rfl fun col hcol => if_pos ⟨hinside, Finset.mem_range.mp hcol⟩

end Band

/-- The element of a range after some of its elements. -/
theorem range_element {stop step : ℕ} (hstep : 0 < step) {c : ℕ} (h : passed ++ c :: rest = range 0 stop step) :
    c = step * passed.length ∧ c < stop := by
  have hget : (range 0 stop step)[passed.length]? = some c := by
    rw [← h, List.getElem?_append_right (Nat.le_refl _), Nat.sub_self]
    rfl
  rw [range, List.getElem?_map, Option.map_eq_some_iff] at hget
  obtain ⟨i, hi, rfl⟩ := hget
  have hindex := List.getElem?_eq_some_iff.mp hi
  obtain ⟨hlt, heq⟩ := hindex
  rw [List.getElem_range] at heq
  refine ⟨by rw [← heq, Nat.zero_add], ?_⟩
  have hmem : 0 + step * i ∈ range 0 stop step := by
    rw [← h]
    simp
  obtain ⟨j, -, hj⟩ := (mem_range hstep).mp hmem
  exact hj

/-- The tile width of a call is one of the two. -/
theorem width_of_inCols {inCols : Option ℕ} (h : inCols = none ∨ inCols = some 256 ∨ inCols = some 512) :
    inCols.getD (if 512 ≤ matrix.cols then 512 else 256) = 256 ∨
      inCols.getD (if 512 ≤ matrix.cols then 512 else 256) = 512 := by
  rcases h with rfl | rfl | rfl
  · by_cases hcols : 512 ≤ matrix.cols
    · exact .inr (if_pos hcols)
    · exact .inl (if_neg hcols)
  · exact .inl rfl
  · exact .inr rfl

section Projection

variable [CommSemiring R] [DecidableEq R]

/-- The sum after some tiles of a band. -/
def bandAfter (matrix : Array2 R) (activation : List R) (row0 inCols : ℕ) (passed : List ℕ) : Option (List R) :=
  if passed = [] then none else some (bandRows matrix activation row0 (inCols * passed.length))

/-- The product of a tile is added to the sum of a band. -/
def accumulate (memory : ℕ → R) (acc : Option (List R)) (part : List R) :
    Method (Device R (Cell R)) (Option (List R)) :=
  match acc with
  | none => return some part
  | some acc => do
    let sum ← Method.lift (TensorOperations.add (halfVector acc) (halfVector part) memory fun _ => none)
    return some sum

omit [DecidableEq R] in
/-- One more tile takes the sum of a band to the terms of its columns. -/
theorem accumulate_returns {inv : Device R (Cell R) → Prop} (memory : ℕ → R) (hinCols : 0 < inCols)
    (hpassed : passed ++ col0 :: rest = range 0 matrix.cols inCols)
    (hvalues : ∀ col, col < inCols → col0 + col < matrix.cols → x.getD col 0 = activation.getD (col0 + col) 0) :
    Method.Triple inv
      (accumulate memory (bandAfter matrix activation row0 inCols passed) (tileRows matrix x inCols row0 col0))
      (fun acc s => acc = bandAfter matrix activation row0 inCols (passed ++ [col0]) ∧ inv s) fail := by
  obtain ⟨hcol0, -⟩ := range_element hinCols hpassed
  have hnext : inCols * (passed ++ [col0]).length = col0 + inCols := by
    rw [List.length_append, List.length_singleton, Nat.mul_succ, hcol0]
  by_cases hnil : passed = []
  · rw [hnil, List.length_nil, Nat.mul_zero] at hcol0
    rw [hcol0] at hvalues
    rw [bandAfter, if_pos hnil, bandAfter, if_neg (by simp), hnext, hcol0, bandRows_first hvalues, Nat.zero_add]
    exact Method.Triple.pure fun s hs => ⟨rfl, hs⟩
  · rw [bandAfter, if_neg hnil, bandAfter, if_neg (by simp), hnext, ← hcol0, accumulate]
    simp only [bandRows_add hvalues memory]
    exact Method.Triple.lift_ok_bind (Method.Triple.pure fun s hs => ⟨rfl, hs⟩)

/-- One round of the loop over the columns adds the terms of one tile. -/
theorem addTile_returns (hexact : ExactEngine host width) (hmodel : model.Provides width)
    (hwidth : inCols = 256 ∨ inCols = 512) (hrow0 : row0 ≤ (heap mid).rows)
    (hlength : activation.length = (heap mid).cols) (memory : ℕ → R)
    (hpassed : passed ++ col0 :: rest = range 0 (heap mid).cols inCols) :
    Method.Triple (Device.Ready model.descriptorFor heap)
      (addTile host model mid (heap mid) activation memory inCols row0
        (bandAfter (heap mid) activation row0 inCols passed) col0)
      (fun acc s => acc = bandAfter (heap mid) activation row0 inCols (passed ++ [col0]) ∧
        Device.Ready model.descriptorFor heap s) fail := by
  have hinCols : 0 < inCols := by omega
  obtain ⟨-, hlt⟩ := range_element hinCols hpassed
  obtain ⟨x, hslice, hx, hvalues⟩ := tileActivation_ok hlength hlt.le
  unfold addTile
  rw [hslice]
  refine Method.Triple.lift_ok_bind ?_
  refine Method.Triple.bind_value (tileProduct_returns hexact hmodel hwidth hrow0 hlt.le hx) fun part hpart => ?_
  rw [hpart]
  exact accumulate_returns memory hinCols hpassed hvalues

/-- One round of the loop over the rows writes the product of its rows. -/
theorem addBand_returns (hexact : ExactEngine host width) (hmodel : model.Provides width)
    (hwidth : inCols = 256 ∨ inCols = 512) (hrow0 : row0 ≤ (heap mid).rows) (hcols : 0 < (heap mid).cols)
    (hlength : activation.length = (heap mid).cols) (memory result : ℕ → R) :
    Method.Triple (Device.Ready model.descriptorFor heap)
      (addBand host model mid (heap mid) activation memory inCols result row0)
      (fun result' s => (result' = setRange result row0 (min 512 ((heap mid).rows - row0)) fun i =>
        (bandRows (heap mid) activation row0
          (inCols * (range 0 (heap mid).cols inCols).length)).getD i 0) ∧
        Device.Ready model.descriptorFor heap s) fail := by
  have hrange : range 0 (heap mid).cols inCols ≠ [] := by
    intro hnil
    have hmem := (@mem_range 0 (heap mid).cols inCols 0 (by omega)).mpr ⟨0, rfl, hcols⟩
    rw [hnil] at hmem
    cases hmem
  refine Method.Triple.bind_value (Method.Triple.foldlM
    (fun passed acc => acc = bandAfter (heap mid) activation row0 inCols passed) _
      (fun passed col0 rest acc hpassed hacc => ?_) rfl) fun acc hacc => ?_
  · subst hacc
    exact addTile_returns hexact hmodel hwidth hrow0 hlength memory hpassed
  · rw [bandAfter, if_neg hrange] at hacc
    subst hacc
    exact Method.Triple.pure fun s hs => ⟨rfl, hs⟩

/-- A result whose bands have been written holds the product. -/
def Written (matrix : Array2 R) (activation : List R) (passed : List ℕ) (result : ℕ → R) : Prop :=
  ∀ row0 ∈ passed, ∀ i, row0 ≤ i → i < row0 + 512 → i < matrix.rows →
    result i = ∑ col ∈ Finset.range matrix.cols, matrix.entry i col * activation.getD col 0

omit [DecidableEq R] in
/-- Writing one more band. -/
theorem Written.setRange {result : ℕ → R} (h : Written matrix activation passed result) {cols : ℕ}
    (hcols : matrix.cols ≤ cols) :
    Written matrix activation (passed ++ [row0]) (setRange result row0 (min 512 (matrix.rows - row0)) fun i =>
      (bandRows matrix activation row0 cols).getD i 0) := by
  intro other hother i hle hlt hrows
  rw [Runtime.setRange]
  by_cases hhere : row0 ≤ i ∧ i < row0 + min 512 (matrix.rows - row0)
  · rw [if_pos hhere, getD_bandRows (by omega) (by omega) hcols, Nat.add_sub_cancel' hhere.1]
  · rw [if_neg hhere]
    rcases List.mem_append.mp hother with hold | hnew
    · exact h other hold i hle hlt hrows
    · obtain rfl := List.mem_singleton.mp hnew
      exact absurd ⟨hle, by omega⟩ hhere

/-- A projection on a ready device returns the matrix-vector product and leaves the device ready. -/
theorem projection_returns (hexact : ExactEngine host width) (hmodel : model.Provides width)
    (hruntime : model.tensorRuntime = true) (hcols : 0 < (heap mid).cols)
    (hlength : activation.length = (heap mid).cols) {inCols : Option ℕ}
    (hinCols : inCols = none ∨ inCols = some 256 ∨ inCols = some 512) (memory : ℕ → R) :
    Method.Triple (Device.Ready model.descriptorFor heap)
      (model.projection host mid (heap mid) activation inCols memory)
      (fun result s => result = mulVec (heap mid) activation ∧ Device.Ready model.descriptorFor heap s) fail := by
  unfold QwenModel.projection
  split
  · rw [matmul, if_neg (not_not.mpr hlength)]
    exact fun s hs => ⟨rfl, hs⟩
  rw [if_neg (by simp [hruntime])]
  have hwidth := @width_of_inCols R (heap mid) inCols hinCols
  generalize inCols.getD (if 512 ≤ (heap mid).cols then 512 else 256) = tileCols at hwidth
  have hcover : (heap mid).cols ≤ tileCols * (range 0 (heap mid).cols tileCols).length := by
    rw [range, List.length_map, List.length_range, Nat.sub_zero]
    rcases hwidth with rfl | rfl
    · omega
    · omega
  refine Method.Triple.bind_value (Method.Triple.foldlM (Written (heap mid) activation) _
    (fun passed row0 rest result hpassed hresult => ?_) fun row0 hrow0 => by cases hrow0) fun result hresult => ?_
  · have hrow0 := (range_element (by decide) hpassed).2
    have hband := @addBand_returns R tileCols row0 mid host width model heap activation fail _ _ hexact hmodel hwidth
      hrow0.le hcols hlength memory result
    refine hband.conseq (fun _ hs => hs) (fun result' s hs => ⟨?_, hs.2⟩) fun _ hs => hs
    rw [hs.1]
    exact hresult.setRange hcover
  · refine Method.Triple.pure fun s hs => ⟨List.map_congr_left fun i hi => ?_, hs⟩
    have hi := List.mem_range.mp hi
    refine hresult (512 * (i / 512)) ((mem_range (by decide)).mpr ⟨i / 512, ?_, ?_⟩) i ?_ ?_ hi
    · omega
    · omega
    · omega
    · omega

/-- Tiled projection is the matrix-vector product: for every history of consistent calls, every
matrix with a column, every activation of its width, both tile widths and every route. -/
theorem projection_eq_mulVec (hexact : ExactEngine host width) (hmodel : model.Provides width)
    (hruntime : model.tensorRuntime = true) (qid : Option ℕ) (history : List (Call R (Cell R)))
    (hhistory : ∀ call ∈ history, call.Consistent model.descriptorFor heap) (mid : ℕ)
    (hcols : 0 < (heap mid).cols) (activation : List R) (hlength : activation.length = (heap mid).cols)
    (inCols : Option ℕ) (hinCols : inCols = none ∨ inCols = some 256 ∨ inCols = some 512) (memory : ℕ → R) :
    (model.projection host mid (heap mid) activation inCols memory
      (afterCalls host (Device.fresh qid) history)).2 = .ok (mulVec (heap mid) activation) := by
  have hready := afterCalls_ready host hhistory (Device.ready_fresh model.descriptorFor heap qid)
  have htriple := (projection_returns hexact hmodel hruntime hcols hlength hinCols memory :
    Method.Triple _ _ _ fun _ => False) _ hready
  rcases hrun : model.projection host mid (heap mid) activation inCols memory
    (afterCalls host (Device.fresh qid) history) with ⟨s', outcome⟩
  rw [hrun] at htriple
  cases outcome with
  | ok result => exact congrArg Except.ok htriple.1
  | error e => exact htriple.elim

end Projection

/-- A kernel with an exact engine. -/
def exactHost [CommSemiring R] (width : List (Cell R) → ℕ) : Host (Cell R) where
  handle n := n + 1
  respond _ submission k :=
    if k % 64 = 0 then .low (engineProduct (width submission.btsp) submission (k / 64))
    else .high (engineProduct (width submission.btsp) submission (k / 64))
  handle_injective := Nat.succ_injective

theorem exactHost_exact [CommSemiring R] (width : List (Cell R) → ℕ) : ExactEngine (exactHost width) width := by
  intro n submission row _
  have hrow : 2 * (32 * row) / 64 = row := by omega
  have hnext : (2 * (32 * row) + 1) / 64 = row := by omega
  simp only [exactHost, hrow, hnext]
  exact ⟨if_pos (by omega), if_neg (by omega)⟩

/-- Descriptors of zeros and of ones. -/
def plainModel : QwenModel (Cell ℕ) where
  cpuReference := false
  tensorRuntime := true
  persistent := true
  descriptor := List.replicate tdSize (.raw 0)
  descriptor512 := List.replicate tdSize (.raw 1)

/-- The tile width of the two descriptors. -/
def plainWidth (descriptor : List (Cell ℕ)) : ℕ := if descriptor.head? = some (.raw 1) then 512 else 256

theorem plainModel_provides : plainModel.Provides plainWidth := by
  have hsize : tdSize = 627 + 1 := rfl
  refine ⟨?_, ?_, List.length_replicate.ge, List.length_replicate.ge⟩
  · rw [plainModel, hsize, List.replicate_succ]
    rfl
  · rw [plainModel, hsize, List.replicate_succ]
    rfl

/-- A row times a column, after a blob swap with another matrix. -/
theorem projection_eq_mulVec_afterSwap :
    (plainModel.projection (exactHost plainWidth) 0 ⟨1, 2, fun _ col => col + 1⟩ [10, 100] none (fun _ => 7)
      (afterCalls (exactHost plainWidth) (Device.fresh none)
        [.blobSwapGemm ⟨1, 256, 0, 0⟩ ⟨600, 300, fun row _ => row⟩ (List.replicate 256 1)
          (plainModel.descriptorFor 256) 256])).2 = .ok [210] := by
  refine (@projection_eq_mulVec ℕ (exactHost plainWidth) plainWidth plainModel (fun _ => ⟨1, 2, fun _ col => col + 1⟩)
    _ _ (exactHost_exact plainWidth) plainModel_provides rfl none _ ?_ 0 (by decide) [10, 100] rfl none (.inl rfl)
      fun _ => 7).trans (by decide)
  intro call hcall
  obtain rfl := List.mem_singleton.mp hcall
  rfl

end AneLinux.Runtime
