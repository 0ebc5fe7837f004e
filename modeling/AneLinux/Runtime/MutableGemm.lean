import AneLinux.Runtime.HalfBytes
import AneLinux.Runtime.Pack
import AneLinux.Support.RingBuffer

/-!
# A GEMM program whose weights change in place

`MutableGemm` keeps its packed weights in the command buffer and changes one row or one column
of the matrix through an array view of that buffer. The places a row or a column goes to are the
places of the packer, so a sequence of writes acts on the matrix behind the blob. The constructor
copies the whole descriptor to the front of the buffer and clears only what lies behind it.
-/

namespace AneLinux.Runtime

open AneLinux.Support AneLinux.Staged

/-- The row of the output the program waits on. -/
def completionRow : ℕ := 511

/-- The size of the command buffer. -/
def commandSize : ℕ := weightOffset + weightBytes

/-- The values in the weight region. -/
def weightHalves : ℕ := weightBytes / 2

/-- A program: its buffers and the number of rows it returns. -/
structure MutableGemm where
  command : Bytes
  btsp : Bytes
  outputRows : ℕ
  closed : Bool
  size_command : command.size = commandSize
  one_le_outputRows : 1 ≤ outputRows
  outputRows_le : outputRows ≤ completionRow

/-- `MutableGemm._vector`: the values of a one-dimensional array of the given size. -/
def vector (value : HalfArray) (size : ℕ) (name : String) : Py (List Half) :=
  if value.shape ≠ [size] then
    raiseValue (name ++ s!" shape and dtype must be ({size},) float16, got " ++ shapeText value.shape ++
      " float16")
  else .ok value.data

variable {gemm : MutableGemm} {base : ℕ → Half} {entry : ℕ → ℕ → Half}

namespace MutableGemm

/-- The command buffer the constructor prepares. -/
def initialCommand (descriptor : Bytes) : Bytes :=
  (Bytes.zeros commandSize).splice 0 descriptor.size descriptor

/-- `MutableGemm.__init__`. -/
def init (descriptor : Bytes) (outputRows : ℕ) (timeout : ℚ) : Py MutableGemm :=
  if h : ¬(1 ≤ outputRows ∧ outputRows ≤ completionRow) then
    raiseValue s!"output_rows must be in 1..{completionRow}"
  else if descriptor.size < tdSize then
    raiseValue "descriptor is shorter than td_size"
  else if timeout ≤ 0 then
    raiseValue "timeout must be positive"
  else if hsize : (initialCommand descriptor).size = commandSize then
    .ok { command := initialCommand descriptor, btsp := descriptor, outputRows, closed := false,
          size_command := hsize, one_le_outputRows := (not_not.mp h).1, outputRows_le := (not_not.mp h).2 }
  else
    raiseValue s!"buffer overflow: {(initialCommand descriptor).size} > {commandSize}"

/-- The value at one place of the weight view. -/
def weight (gemm : MutableGemm) (k : ℕ) : Half := halfAt gemm.command (weightOffset + 2 * k)

/-- The bytes of the weight region. -/
def weightRegion (gemm : MutableGemm) : Bytes := gemm.command.slice weightOffset (weightOffset + weightBytes)

/-- Store values through the weight view, one after another. -/
def storeCommand (place : ℕ → ℕ) (value : ℕ → Half) (elements : List ℕ) (command : Bytes) : Bytes :=
  elements.foldl (fun d e => putHalf d (weightOffset + 2 * place e) (value e)) command

/-- A store keeps the size of the buffer. -/
theorem size_storeCommand (place : ℕ → ℕ) (value : ℕ → Half) (elements : List ℕ) (command : Bytes) :
    (storeCommand place value elements command).size = command.size := by
  induction elements generalizing command with
  | nil => rfl
  | cons e rest ih => exact ih _

/-- Assign to a part of the weight view. -/
def store (gemm : MutableGemm) (place : ℕ → ℕ) (value : ℕ → Half) (elements : List ℕ) : MutableGemm where
  command := storeCommand place value elements gemm.command
  btsp := gemm.btsp
  outputRows := gemm.outputRows
  closed := gemm.closed
  size_command := (size_storeCommand ..).trans gemm.size_command
  one_le_outputRows := gemm.one_le_outputRows
  outputRows_le := gemm.outputRows_le

/-- `_ensure_open`. -/
def ensureOpen (gemm : MutableGemm) : Py Unit :=
  if gemm.closed then .error (.runtimeError "mutable GEMM is closed") else .ok ()

/-- `write_row`: a strided slice of one block. -/
def writeRow (gemm : MutableGemm) (row : ℤ) (values : HalfArray) : Py MutableGemm := do
  ensureOpen gemm
  if ¬(0 ≤ row ∧ row < gemm.outputRows) then
    raiseValue s!"row must be in 0..{gemm.outputRows - 1}"
  else
    let values ← vector values 256 "row values"
    return gemm.store (fun i => row.toNat / 32 * blockHalves + (6 + row.toNat % 32 + 32 * i))
      (fun i => values.getD i 0) (List.range 256)

/-- `write_column`: one place for each output row. -/
def writeColumn (gemm : MutableGemm) (column : ℤ) (values : HalfArray) : Py MutableGemm := do
  ensureOpen gemm
  if ¬(0 ≤ column ∧ column < 256) then
    raiseValue "column must be in 0..255"
  else
    let values ← vector values gemm.outputRows "column values"
    return gemm.store (fun r => r / 32 * blockHalves + (6 + column.toNat * 32 + r % 32))
      (fun r => values.getD r 0) (List.range gemm.outputRows)

/-- The sentinel in the output: positive infinity. -/
def sentinel : Half := 0x7C00

/-- `np.isfinite`. -/
def isFinite (value : Half) : Bool := value &&& 0x7C00 != 0x7C00

/-- The source buffer: one value every 32 places. -/
def sourceValues (activation : List Half) : List Half :=
  (List.range (srcBytes / 2)).map fun i =>
    if i < 256 * 32 ∧ i % 32 = 0 then activation.getD (i / 32) 0 else 0

/-- `run`: submit and read one value per output row. The engine gives the output buffer, at the end
of the wait, from the command, source and descriptor buffers. -/
def run (gemm : MutableGemm) (engine : Bytes → Bytes → Bytes → Bytes) (activation : HalfArray) :
    Py (List Half) := do
  ensureOpen gemm
  let activation ← vector activation 256 "activation"
  let output := engine gemm.command (tobytes (sourceValues activation)) gemm.btsp
  if halfAt output (completionRow * 32 * 2) = sentinel then
    .error (.timeoutError "ANE mutable GEMM did not complete before timeout")
  else
    let result := (List.range gemm.outputRows).map fun r => halfAt output (r * 32 * 2)
    if result.all isFinite then return result
    else .error (.runtimeError "ANE mutable GEMM returned a non-finite output")

section Store

variable {other : ℕ → ℕ → Half}

/-- A store acts on the weight view as the same writes in the same order. -/
theorem weight_store {place : ℕ → ℕ} {value : ℕ → Half} {elements : List ℕ}
    (hplace : ∀ e ∈ elements, place e < weightHalves) :
    (gemm.store place value elements).weight = writeAll place value elements gemm.weight := by
  have hcommand : ∀ command : Bytes, command.size = commandSize →
      (fun k => halfAt (storeCommand place value elements command) (weightOffset + 2 * k)) =
        writeAll place value elements fun k => halfAt command (weightOffset + 2 * k) := by
    induction elements with
    | nil => exact fun _ _ => rfl
    | cons e rest ih =>
      intro command hsize
      rw [List.forall_mem_cons] at hplace
      have hfirst : (fun k => halfAt (putHalf command (weightOffset + 2 * place e) (value e))
          (weightOffset + 2 * k)) =
          Function.update (fun k => halfAt command (weightOffset + 2 * k)) (place e) (value e) := by
        funext k
        by_cases hk : k = place e
        · subst hk
          rw [Function.update_self]
          apply halfAt_putHalf_self
          have := hplace.1
          simp only [hsize, commandSize, weightHalves, weightBytes] at this ⊢
          omega
        · rw [Function.update_of_ne hk]
          exact halfAt_putHalf_of_ne _ _ (by omega)
      rw [writeAll, List.foldl_cons, ← hfirst]
      exact ih hplace.2 _ hsize
  exact hcommand gemm.command gemm.size_command

/-- The weight view shows a matrix over a background. -/
def Shows (gemm : MutableGemm) (base : ℕ → Half) (entry : ℕ → ℕ → Half) : Prop :=
  ∀ k, gemm.weight k = packedValue 6 256 entry k (base k)

/-- A store at the places of some entries replaces these entries of the matrix. -/
theorem shows_store (h : gemm.Shows base entry) (row col : ℕ → ℕ) {place : ℕ → ℕ} {value : ℕ → Half} {elements : List ℕ}
    (hplace : ∀ e, place e = blobIndex 6 (row e) (col e))
    (hrow : ∀ e ∈ elements, row e < 512) (hcol : ∀ e ∈ elements, col e < 256)
    (hinj : ∀ a ∈ elements, ∀ b ∈ elements, row a = row b → col a = col b → a = b)
    (hhit : ∀ e ∈ elements, other (row e) (col e) = value e)
    (hmiss : ∀ r c, (∀ e ∈ elements, ¬(row e = r ∧ col e = c)) → other r c = entry r c) :
    (gemm.store place value elements).Shows base other := by
  intro k
  have hlt : ∀ e ∈ elements, place e < weightHalves := by
    intro e he
    rw [hplace]
    exact blobIndex_lt fitsBlock_256 (hrow e he) (hcol e he)
  rw [weight_store hlt]
  by_cases hk : ∃ e ∈ elements, k = place e
  · obtain ⟨e, he, rfl⟩ := hk
    have hunique : ∀ a ∈ elements, place a = place e → a = e := by
      intro a ha hae
      rw [hplace, hplace] at hae
      obtain ⟨hr, hc⟩ := blobIndex_inj fitsBlock_256 (hcol a ha) (hcol e he) hae
      exact hinj a ha e he hr hc
    rw [writeAll_of_mem he hunique, hplace, packedValue_blobIndex fitsBlock_256 (hrow e he) (hcol e he),
      hhit e he]
  · rw [writeAll_of_ne fun e he hke => hk ⟨e, he, hke⟩, h k]
    apply packedValue_congr
    intro r c _ _ hkrc
    rw [hmiss r c]
    intro e he ⟨hre, hce⟩
    exact hk ⟨e, he, by rw [hplace, hre, hce, hkrc]⟩

/-- The matrix with one row replaced. -/
def setRow (entry : ℕ → ℕ → Half) (row : ℕ) (values : List Half) : ℕ → ℕ → Half :=
  fun r c => if r = row ∧ c < 256 then values.getD c 0 else entry r c

/-- The matrix with the first rows of one column replaced. -/
def setColumn (entry : ℕ → ℕ → Half) (rows column : ℕ) (values : List Half) : ℕ → ℕ → Half :=
  fun r c => if c = column ∧ r < rows then values.getD r 0 else entry r c

/-- Two programs differ in their weights only. -/
def SameProgram (gemm next : MutableGemm) : Prop :=
  next.btsp = gemm.btsp ∧ next.outputRows = gemm.outputRows ∧ next.closed = gemm.closed

/-- Every program shows the matrix at the places of the packer over its own weights. -/
theorem shows_weight (gemm : MutableGemm) :
    gemm.Shows gemm.weight fun r c => gemm.weight (blobIndex 6 r c) := by
  intro k
  simp only [packedValue]
  by_cases hplace : k / blockHalves < 16 ∧ 6 ≤ k % blockHalves ∧ k % blockHalves < 6 + 256 * 32
  · rw [if_pos hplace]
    congr 1
    unfold blobIndex blockHalves at *
    omega
  · rw [if_neg hplace]

/-- The weight at the place of an entry is the entry that shows. -/
theorem Shows.weight_blobIndex (h : gemm.Shows base entry) {r c : ℕ} (hr : r < 512) (hc : c < 256) :
    gemm.weight (blobIndex 6 r c) = entry r c := by
  rw [h, packedValue_blobIndex fitsBlock_256 hr hc]

/-- A store changes the weights only. -/
theorem sameProgram_store (place : ℕ → ℕ) (value : ℕ → Half) (elements : List ℕ) :
    gemm.SameProgram (gemm.store place value elements) := ⟨rfl, rfl, rfl⟩

/-- A row write in range replaces one row of the matrix. -/
theorem writeRow_shows (h : gemm.Shows base entry) (hopen : gemm.closed = false) {row : ℕ}
    (hrow : row < gemm.outputRows) {values : HalfArray} (hshape : values.shape = [256]) :
    ∃ next, gemm.writeRow row values = .ok next ∧ gemm.SameProgram next ∧
      next.Shows base (setRow entry row values.data) := by
  have hrows := gemm.outputRows_le
  rw [completionRow] at hrows
  have hcall : gemm.writeRow row values =
      .ok (gemm.store (fun i => (row : ℤ).toNat / 32 * blockHalves + (6 + (row : ℤ).toNat % 32 + 32 * i))
        (fun i => values.data.getD i 0) (List.range 256)) := by
    simp only [writeRow, ensureOpen, hopen, Bool.false_eq_true, if_false, ok_bind, vector, hshape, ne_eq,
      not_true_eq_false]
    rw [if_neg (by omega)]
    rfl
  refine ⟨_, hcall, sameProgram_store .., ?_⟩
  · apply shows_store h (fun _ => row) (fun i => i)
    · intro i
      simp only [blobIndex, Int.toNat_natCast]
      omega
    · intro _ _
      omega
    · intro i hi
      exact List.mem_range.mp hi
    · intro a _ b _ _ hab
      exact hab
    · intro i hi
      rw [setRow, if_pos ⟨rfl, List.mem_range.mp hi⟩]
    · intro r c hmiss
      rw [setRow, if_neg]
      intro ⟨hr, hc⟩
      exact hmiss c (List.mem_range.mpr hc) ⟨hr.symm, rfl⟩

/-- A column write in range replaces the first rows of one column of the matrix. -/
theorem writeColumn_shows (h : gemm.Shows base entry) (hopen : gemm.closed = false) {column : ℕ}
    (hcolumn : column < 256) {values : HalfArray} (hshape : values.shape = [gemm.outputRows]) :
    ∃ next, gemm.writeColumn column values = .ok next ∧ gemm.SameProgram next ∧
      next.Shows base (setColumn entry gemm.outputRows column values.data) := by
  have hrows := gemm.outputRows_le
  rw [completionRow] at hrows
  have hcall : gemm.writeColumn column values =
      .ok (gemm.store (fun r => r / 32 * blockHalves + (6 + (column : ℤ).toNat * 32 + r % 32))
        (fun r => values.data.getD r 0) (List.range gemm.outputRows)) := by
    simp only [writeColumn, ensureOpen, hopen, Bool.false_eq_true, if_false, ok_bind, vector, hshape, ne_eq,
      not_true_eq_false]
    rw [if_neg (by omega)]
    rfl
  refine ⟨_, hcall, sameProgram_store .., ?_⟩
  · apply shows_store h (fun r => r) (fun _ => column)
    · intro r
      simp only [blobIndex, Int.toNat_natCast]
      omega
    · intro r hr
      have := List.mem_range.mp hr
      omega
    · intro _ _
      exact hcolumn
    · intro a _ b _ hab _
      exact hab
    · intro r hr
      rw [setColumn, if_pos ⟨rfl, List.mem_range.mp hr⟩]
    · intro r c hmiss
      rw [setColumn, if_neg]
      intro ⟨hc, hr⟩
      exact hmiss r (List.mem_range.mpr hr) ⟨rfl, hc.symm⟩

end Store

/-- A call of `write_row` or `write_column`. -/
inductive Write
  | row (index : ℤ) (values : HalfArray)
  | column (index : ℤ) (values : HalfArray)

/-- The row or column exists and the values have its length. -/
def Write.InRange (rows : ℕ) : Write → Prop
  | .row index values => (0 ≤ index ∧ index < rows) ∧ values.shape = [256]
  | .column index values => (0 ≤ index ∧ index < 256) ∧ values.shape = [rows]

/-- Make a call. -/
def perform (gemm : MutableGemm) : Write → Py MutableGemm
  | .row index values => gemm.writeRow index values
  | .column index values => gemm.writeColumn index values

/-- The same assignment to a plain matrix. -/
def assignMatrix (rows : ℕ) (entry : ℕ → ℕ → Half) : Write → ℕ → ℕ → Half
  | .row index values => setRow entry index.toNat values.data
  | .column index values => setColumn entry rows index.toNat values.data

/-- The matrix of a sequence of assignments to the zero matrix. -/
def assignedMatrix (rows : ℕ) (writes : List Write) : Array2 Half :=
  ⟨512, 256, writes.foldl (assignMatrix rows) fun _ _ => 0⟩

section Run

/-- A call in range acts on the matrix behind the blob. -/
theorem perform_shows (h : gemm.Shows base entry) (hopen : gemm.closed = false) {write : Write}
    (hrange : write.InRange gemm.outputRows) : ∃ next, gemm.perform write = .ok next ∧
      gemm.SameProgram next ∧ next.Shows base (assignMatrix gemm.outputRows entry write) := by
  cases write with
  | row index values =>
    obtain ⟨⟨hpos, hlt⟩, hshape⟩ := hrange
    lift index to ℕ using hpos
    exact writeRow_shows h hopen (by omega) hshape
  | column index values =>
    obtain ⟨⟨hpos, hlt⟩, hshape⟩ := hrange
    lift index to ℕ using hpos
    exact writeColumn_shows h hopen (by omega) hshape

/-- A sequence of calls in range acts on the matrix behind the blob, in order. -/
theorem performAll_shows (writes : List Write) (h : gemm.Shows base entry) (hopen : gemm.closed = false)
    (hrange : ∀ write ∈ writes, write.InRange gemm.outputRows) :
    ∃ final, writes.foldlM perform gemm = .ok final ∧ gemm.SameProgram final ∧
      final.Shows base (writes.foldl (assignMatrix gemm.outputRows) entry) := by
  induction writes generalizing gemm entry with
  | nil => exact ⟨gemm, rfl, ⟨rfl, rfl, rfl⟩, h⟩
  | cons write rest ih =>
    rw [List.forall_mem_cons] at hrange
    obtain ⟨next, hnext, ⟨hbtsp, hrows, hclosed⟩, hshows⟩ := perform_shows h hopen hrange.1
    rw [← hrows] at hrange hshows
    obtain ⟨final, hfinal, ⟨hbtsp', hrows', hclosed'⟩, hfinalShows⟩ := ih hshows (hclosed.trans hopen) hrange.2
    refine ⟨final, ?_, ⟨hbtsp'.trans hbtsp, hrows'.trans hrows, hclosed'.trans hclosed⟩, ?_⟩
    · rw [List.foldlM_cons, hnext, ok_bind, hfinal]
    · rw [List.foldl_cons, ← hrows]
      exact hfinalShows

/-- The weight region is the bytes of a blob exactly when the view shows the values of the blob. -/
theorem weightRegion_eq_iff {values : List Half} (hlength : values.length = weightHalves) :
    gemm.weightRegion = tobytes values ↔ ∀ k < weightHalves, gemm.weight k = values.getD k 0 := by
  have hbytes : weightBytes = 2 * values.length := by
    rw [hlength]
    rfl
  rw [weightRegion, hbytes, slice_eq_tobytes_iff, hlength]
  · rfl
  · rw [gemm.size_command, commandSize, hbytes]

end Run

section Init

variable {descriptor : Bytes} {outputRows : ℕ} {timeout : ℚ}

/-- The prepared command buffer reads as the descriptor followed by zeros. -/
theorem get_initialCommand (descriptor : Bytes) (i : ℕ) : (initialCommand descriptor).get i = descriptor.get i := by
  have hempty : ((Bytes.zeros commandSize).slice 0 0).size = 0 := by simp
  rw [initialCommand, Bytes.splice]
  by_cases hi : i < descriptor.size
  · rw [Bytes.get_append_left _ _ (by rw [Bytes.size_append, hempty]; omega),
      Bytes.get_append_right _ _ (by omega), hempty, Nat.sub_zero]
  · rw [Bytes.get_append_right _ _ (by rw [Bytes.size_append, hempty]; omega),
      descriptor.get_of_size_le i (by omega)]
    simp [Bytes.get_slice]

theorem size_initialCommand (descriptor : Bytes) :
    (initialCommand descriptor).size = descriptor.size + (commandSize - descriptor.size) := by
  simp [initialCommand, Bytes.splice]

/-- What the constructor accepts and builds. -/
theorem init_eq_ok (h : init descriptor outputRows timeout = .ok gemm) :
    gemm.command = initialCommand descriptor ∧ gemm.outputRows = outputRows ∧ gemm.closed = false ∧
      descriptor.size ≤ commandSize := by
  unfold init at h
  split at h
  · simp at h
  split at h
  · simp at h
  split at h
  · simp at h
  split at h
  · rename_i hsize
    cases h
    rw [size_initialCommand] at hsize
    exact ⟨rfl, rfl, rfl, by omega⟩
  · simp at h

/-- The packed blob of a matrix of assignments. -/
theorem packWeights_assignedMatrix (rows : ℕ) (writes : List Write) :
    packWeights (assignedMatrix rows writes) none =
      .ok (packedBlob 6 256 weightBytes (assignedMatrix rows writes).entry) :=
  packTile_eq rfl rfl nofun

/-- A value of the packed blob. -/
theorem getD_packedBlob {k : ℕ} (hk : k < weightHalves) :
    (packedBlob 6 256 weightBytes entry).getD k 0 = packedValue 6 256 entry k 0 := by
  rw [weightHalves] at hk
  rw [List.getD_eq_getElem?_getD, packedBlob, List.getElem?_map, List.getElem?_range hk]
  rfl

/-- A matrix of zeros over a background of zeros packs to zeros. -/
theorem packedValue_zero (k : ℕ) : packedValue 6 256 (fun _ _ => (0 : Half)) k 0 = 0 := by
  simp [packedValue]

/-- A program refines the plain matrix: its calls in range return, and after each sequence of them
the weight region is the packed matrix of the same assignments. -/
def Refines (gemm : MutableGemm) : Prop :=
  ∀ writes : List Write, (∀ write ∈ writes, write.InRange gemm.outputRows) →
    ∃ final packed, writes.foldlM perform gemm = .ok final ∧
      packWeights (assignedMatrix gemm.outputRows writes) none = .ok packed ∧
      final.weightRegion = tobytes packed

/-- A fresh program that refines the matrix had nothing behind the task descriptor. -/
theorem tail_eq_zero_of_refines (hinit : init descriptor outputRows timeout = .ok gemm) (h : gemm.Refines)
    {i : ℕ} (hi : weightOffset ≤ i) : descriptor.get i = 0 := by
  obtain ⟨hcommand, -, -, hsize⟩ := init_eq_ok hinit
  obtain ⟨final, packed, hfinal, hpacked, hregion⟩ := h [] (by simp)
  cases hfinal
  rw [packWeights_assignedMatrix] at hpacked
  rw [← Except.ok.inj hpacked, weightRegion_eq_iff (length_packedBlob ..)] at hregion
  by_cases hlt : i < commandSize
  · have hk : (i - weightOffset) / 2 < weightHalves := by
      simp only [commandSize, weightHalves, weightBytes] at hlt ⊢
      omega
    have hweight : gemm.weight ((i - weightOffset) / 2) = 0 := by
      rw [hregion _ hk, getD_packedBlob hk]
      exact packedValue_zero _
    have hsplit : i = weightOffset + 2 * ((i - weightOffset) / 2) + (i - weightOffset) % 2 := by omega
    rw [← get_initialCommand, ← hcommand, hsplit, get_eq_halfByte _ _ (Nat.mod_lt _ (by omega))]
    change halfByte (gemm.weight ((i - weightOffset) / 2)) _ = 0
    rw [hweight]
    simp [halfByte]
  · exact descriptor.get_of_size_le i (by omega)

/-- A fresh program with nothing behind the task descriptor shows the zero matrix. -/
theorem shows_zero_of_tail (hinit : init descriptor outputRows timeout = .ok gemm)
    (htail : ∀ i, weightOffset ≤ i → descriptor.get i = 0) : gemm.Shows (fun _ => 0) fun _ _ => 0 := by
  intro k
  rw [packedValue_zero]
  apply halfAt_of_bytes
  intro b _
  rw [(init_eq_ok hinit).1, get_initialCommand, htail _ (by omega)]
  simp [halfByte]

/-- The weight region follows a plain matrix through every sequence of row and column writes
exactly when the descriptor has no byte set from the weight offset on. -/
theorem refines_iff_descriptor_tail (descriptor : Bytes) (outputRows : ℕ) (timeout : ℚ) (gemm : MutableGemm)
    (hinit : init descriptor outputRows timeout = .ok gemm) :
    gemm.Refines ↔ ∀ i, weightOffset ≤ i → descriptor.get i = 0 := by
  constructor
  · intro h i hi
    exact tail_eq_zero_of_refines hinit h hi
  · intro htail writes hrange
    have hopen := (init_eq_ok hinit).2.2.1
    obtain ⟨final, hfinal, -, hshows⟩ := performAll_shows writes (shows_zero_of_tail hinit htail) hopen hrange
    refine ⟨final, _, hfinal, packWeights_assignedMatrix _ writes, ?_⟩
    rw [weightRegion_eq_iff (length_packedBlob ..)]
    intro k hk
    rw [hshows k, getD_packedBlob hk]
    rfl

/-- A fresh program of 256 rows over a descriptor that fits. -/
def fresh (descriptor : Bytes) (h : (initialCommand descriptor).size = commandSize) : MutableGemm where
  command := initialCommand descriptor
  btsp := descriptor
  outputRows := 256
  closed := false
  size_command := h
  one_le_outputRows := by decide
  outputRows_le := by decide

/-- With a bare task descriptor the constructor builds a program that refines the matrix. -/
theorem refines_iff_descriptor_tail_bare :
    init (Bytes.zeros tdSize) 256 10 = .ok (fresh (Bytes.zeros tdSize) rfl) ∧
      (fresh (Bytes.zeros tdSize) rfl).Refines :=
  ⟨rfl, (refines_iff_descriptor_tail (Bytes.zeros tdSize) 256 10 _ rfl).mpr fun i _ => Bytes.get_zeros _ i⟩

/-- A descriptor of two more bytes, the first of them set. -/
def longDescriptor : Bytes := Bytes.ofFields 0x276 [(0x274, 1)]

/-- The constructor accepts the longer descriptor, and its last bytes stay in the weight region. -/
theorem longDescriptor_not_refines :
    init longDescriptor 256 10 = .ok (fresh longDescriptor rfl) ∧ ¬(fresh longDescriptor rfl).Refines := by
  refine ⟨rfl, fun h => ?_⟩
  have hbyte : longDescriptor.get weightOffset ≠ 0 := by decide
  exact hbyte (@tail_eq_zero_of_refines _ longDescriptor 256 10 rfl h _ (Nat.le_refl _))

end Init

end MutableGemm

end AneLinux.Runtime
