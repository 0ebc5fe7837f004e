import AneLinux.Runtime.Device

/-!
# What the parts of a device method do

Each part of the methods of a device has its outcomes stated here once: making a buffer, looking up
a workspace, packing a tile and making the program of a tile. The bytes of a new program are the
head that the descriptor determines, followed by the blob of the zero-padded tile.
-/

namespace AneLinux.Runtime

open AneLinux.Support

variable {α M : Type}

variable {size offset inCols : ℕ} {weights : Array2 α} {key : TileKey}

section Bytes

variable [HalfMemory α M]

@[simp] theorem length_encode (values : List α) : (encode values : List M).length = 2 * values.length := by
  induction values with
  | nil => rfl
  | cons a values ih =>
    change (encode values).length + 1 + 1 = _
    rw [ih, List.length_cons]
    omega

@[simp] theorem length_zeroBytes (n : ℕ) : (zeroBytes α n : List M).length = n := by simp [zeroBytes]

@[simp] theorem length_sentinelBytes : (sentinelBytes α : List M).length = 2 := rfl

/-- The first `n` bytes of a command: the descriptor, cut or filled up with zeros. -/
def commandHead (α : Type) [HalfMemory α M] (descriptor : List M) (n : ℕ) : List M :=
  (descriptor ++ zeroBytes α (n - descriptor.length)).take n

@[simp] theorem length_commandHead (descriptor : List M) (n : ℕ) : (commandHead α descriptor n).length = n := by
  simp [commandHead]
  omega

/-- A descriptor copied to the front of a zeroed command leaves its head there. -/
theorem take_splice_descriptor {n : ℕ} (h : n ≤ size) (descriptor : List M) :
    (spliceList (zeroBytes α size) 0 descriptor.length descriptor).take n = commandHead α descriptor n := by
  rw [spliceList, commandHead, List.take_zero, List.nil_append, Nat.zero_max, List.take_append, List.take_append]
  congr 1
  simp only [zeroBytes, List.drop_replicate, List.take_replicate]
  congr 1
  omega

/-- The descriptor grows the block only when longer. -/
theorem length_splice_descriptor (size : ℕ) (descriptor : List M) :
    (spliceList (zeroBytes α size) 0 descriptor.length descriptor).length = max size descriptor.length := by
  simp [spliceList]
  omega

end Bytes

namespace Buffer

variable {buffer buffer' : Buffer M} {data : List M}

/-- A write that fits replaces the front. -/
theorem write_of_le (h : data.length ≤ buffer.contents.length) :
    buffer.write data = .ok { buffer with contents := data ++ buffer.contents.drop data.length } := by
  rw [write, if_neg (Nat.not_lt.mpr h)]

/-- Data as long as the buffer becomes its contents. -/
theorem write_of_length_eq (h : data.length = buffer.contents.length) :
    buffer.write data = .ok { buffer with contents := data } := by
  rw [write_of_le h.le, h, List.drop_length, List.append_nil]

/-- A write at an offset that fits. -/
theorem writeAt_of_le (h : offset + data.length ≤ buffer.contents.length) :
    buffer.writeAt offset data = .ok
      { buffer with
        contents := buffer.contents.take offset ++ data ++ buffer.contents.drop (offset + data.length) } := by
  rw [writeAt, if_neg (Nat.not_lt.mpr h)]

/-- Writing keeps the handle. -/
theorem handle_write (h : buffer.write data = .ok buffer') : buffer'.handle = buffer.handle := by
  unfold write at h
  split at h
  · cases h
  · cases h
    rfl

/-- So does writing at an offset. -/
theorem handle_writeAt (h : buffer.writeAt offset data = .ok buffer') : buffer'.handle = buffer.handle := by
  unfold writeAt at h
  split at h
  · cases h
  · cases h
    rfl

end Buffer

section Tile

/-- The offsets of a tile fit the matrix, and the tile width is one of the two. -/
def FitsTile (weights : Array2 α) (key : TileKey) (inCols : ℕ) : Prop :=
  (inCols = 256 ∨ inCols = 512) ∧ (key.row0 ≤ weights.rows ∨ weights.rows + 512 ≤ key.row0) ∧
    (key.col0 ≤ weights.cols ∨ weights.cols + inCols ≤ key.col0)

variable [Zero α]

/-- The tile at an offset, with zeros outside the matrix. -/
def paddedTile (weights : Array2 α) (row0 col0 : ℕ) (i j : ℕ) : α :=
  if row0 + i < weights.rows ∧ col0 + j < weights.cols then weights.entry (row0 + i) (col0 + j) else 0

/-- The blob of a tile width. -/
def tileBlob (inCols : ℕ) (entry : ℕ → ℕ → α) : List α :=
  if inCols = 256 then packedBlob 6 256 weightBytes entry else packedBlob 0 512 weightBytes512 entry

/-- The bytes of the blob of a tile width. -/
def blobBytes (inCols : ℕ) : ℕ := if inCols = 256 then weightBytes else weightBytes512

/-- A tile's blob fills its bytes. -/
theorem two_mul_length_tileBlob (inCols : ℕ) (entry : ℕ → ℕ → α) :
    2 * (tileBlob inCols entry).length = blobBytes inCols := by
  unfold tileBlob blobBytes
  split
  · rw [length_packedBlob]
    rfl
  · rw [length_packedBlob]
    rfl

/-- The blob depends on its entries alone. -/
theorem packedBlob_congr {shift bytes : ℕ} {entry other : ℕ → ℕ → α}
    (h : ∀ i j, i < 512 → j < inCols → entry i j = other i j) :
    packedBlob shift inCols bytes entry = packedBlob shift inCols bytes other := by
  refine List.map_congr_left fun i _ => packedValue_congr fun row col hrow hcol _ => h row col hrow hcol

/-- An offset inside, or a tile past the end, has an extent. -/
theorem tileExtent_of_le {limit : ℕ} (h : offset ≤ size ∨ size + limit ≤ offset) :
    ∃ n, tileExtent limit size offset = some n ∧ ∀ i, i < limit → (i < n ↔ offset + i < size) := by
  unfold tileExtent
  by_cases hle : offset ≤ size
  · exact ⟨_, if_pos hle, fun i hi => by omega⟩
  · exact ⟨0, by rw [if_neg hle, if_pos (by omega)], fun i hi => by omega⟩

/-- Between them the shapes do not match. -/
theorem tileExtent_eq_none {limit : ℕ} (h : ¬(offset ≤ size ∨ size + limit ≤ offset)) :
    tileExtent limit size offset = none := by
  unfold tileExtent
  rw [if_neg (by omega), if_neg (by omega)]

/-- A tile that fits is copied and packed to the blob of the zero-padded tile. -/
theorem copyTile_packFor (h : FitsTile weights key inCols) :
    ∃ padded, copyTile (fun _ _ => 0) weights key.row0 key.col0 inCols = .ok padded ∧
      ∀ out, (∀ values, out = some values → 2 * values.length = blobBytes inCols) →
        packFor inCols padded out = .ok (tileBlob inCols (paddedTile weights key.row0 key.col0)) := by
  obtain ⟨hcols, hrow0, hcol0⟩ := h
  obtain ⟨rows, hrows, hrows_lt⟩ := tileExtent_of_le hrow0
  obtain ⟨cols, hcolumns, hcols_lt⟩ := tileExtent_of_le hcol0
  refine ⟨_, by rw [copyTile, hrows, hcolumns], fun out hout => ?_⟩
  have hentry : ∀ i j, i < 512 → j < inCols →
      (if i < rows ∧ j < cols then weights.entry (key.row0 + i) (key.col0 + j) else 0) =
        paddedTile weights key.row0 key.col0 i j := by
    intro i j hi hj
    simp only [paddedTile, hrows_lt i hi, hcols_lt j hj]
  rcases hcols with rfl | rfl
  · have hlength : ∀ values, out = some values → values.length = weightBytes / 2 := by
      intro values hvalues
      have htwice := hout values hvalues
      rw [blobBytes, if_pos rfl] at htwice
      omega
    rw [packFor, if_pos rfl, tileBlob, if_pos rfl, packWeights]
    exact (packTile_eq rfl rfl hlength).trans (congrArg Except.ok (packedBlob_congr hentry))
  · have hlength : ∀ values, out = some values → values.length = weightBytes512 / 2 := by
      intro values hvalues
      have htwice := hout values hvalues
      rw [blobBytes, if_neg (by decide)] at htwice
      omega
    rw [packFor, if_neg (by decide), tileBlob, if_neg (by decide), packWeights512]
    exact (packTile_eq rfl rfl hlength).trans (congrArg Except.ok (packedBlob_congr hentry))

/-- A tile that does not fit is refused while it is copied or packed. -/
theorem copyTile_packFor_error {β σ : Type} (h : ¬FitsTile weights key inCols) (base : ℕ → ℕ → α)
    (out : Option (List α)) (s : σ) (next : (ℕ → ℕ → α) → List α → Method σ β) : ∃ e, (do
      let padded ← Method.lift (copyTile base weights key.row0 key.col0 inCols)
      let packed ← Method.lift (packFor inCols padded out)
      next padded packed : Method σ β) s = (s, .error e) := by
  by_cases hrow0 : key.row0 ≤ weights.rows ∨ weights.rows + 512 ≤ key.row0
  · by_cases hcol0 : key.col0 ≤ weights.cols ∨ weights.cols + inCols ≤ key.col0
    · have hcols : ¬(inCols = 256 ∨ inCols = 512) := fun hcols => h ⟨hcols, hrow0, hcol0⟩
      obtain ⟨rows, hrows, -⟩ := tileExtent_of_le hrow0
      obtain ⟨cols, hcolumns, -⟩ := tileExtent_of_le hcol0
      simp only [copyTile, hrows, hcolumns, Method.lift_ok_bind]
      rw [packFor, if_neg (by tauto), packWeights512, packTile, if_pos (.inr (by tauto))]
      exact ⟨_, rfl⟩
    · rw [copyTile, tileExtent_eq_none hcol0]
      cases tileExtent 512 weights.rows key.row0 with
      | none => exact ⟨_, rfl⟩
      | some rows => exact ⟨_, rfl⟩
  · rw [copyTile, tileExtent_eq_none hrow0]
    exact ⟨_, rfl⟩

theorem blobOffset_pos (inCols : ℕ) : 0 < blobOffset inCols := by
  unfold blobOffset
  split
  · decide
  · decide

theorem sourceBytes_pos (inCols : ℕ) : 0 < sourceBytes inCols := by
  unfold sourceBytes
  split
  · decide
  · decide

end Tile

namespace Device

section Grown

variable {s : Device α M}

/-- The device after `n` more `BO_INIT` calls. -/
def grown (s : Device α M) (n : ℕ) : Device α M := { s with inits := s.inits + n }

@[simp] theorem grown_inits (n : ℕ) : (s.grown n).inits = s.inits + n := rfl

end Grown

section Buffers

variable [HalfMemory α M] {host : Host M} {s : Device α M}

/-- A buffer of positive size is opened with zeros. -/
theorem buffer_of_pos (h : size ≠ 0) : buffer host size s =
    (s.grown 1, .ok { handle := host.handle s.inits, contents := zeroBytes α size }) := by
  rw [buffer, Method.change_bind, if_neg h]
  rfl

/-- An empty buffer is refused. -/
theorem buffer_of_zero (h : size = 0) :
    buffer host size s = (s.grown 1, .error (.osError "[Errno 22] Invalid argument")) := by
  rw [buffer, Method.change_bind, if_pos h]
  rfl

/-- The `n`-th of the buffers made next. -/
def made (host : Host M) (s : Device α M) (n size : ℕ) : Buffer M :=
  { handle := host.handle (s.inits + n), contents := zeroBytes α size }

/-- Four buffers are made one after another; the first refused one ends it. -/
theorem four_buffers {β : Type} (a b c d : ℕ)
    (next : Buffer M → Buffer M → Buffer M → Buffer M → Method (Device α M) β) :
    ((a ≠ 0 ∧ b ≠ 0 ∧ c ≠ 0 ∧ d ≠ 0) ∧ (do
        let first ← buffer host a
        let second ← buffer host b
        let third ← buffer host c
        let fourth ← buffer host d
        next first second third fourth : Method (Device α M) β) s =
      next (made host s 0 a) (made host s 1 b) (made host s 2 c) (made host s 3 d) (s.grown 4)) ∨
    ((a = 0 ∨ b = 0 ∨ c = 0 ∨ d = 0) ∧ ∃ n e, 1 ≤ n ∧ (do
        let first ← buffer host a
        let second ← buffer host b
        let third ← buffer host c
        let fourth ← buffer host d
        next first second third fourth : Method (Device α M) β) s = (s.grown n, .error e)) := by
  by_cases ha : a = 0
  · exact .inr ⟨.inl ha, 1, _, Nat.le_refl 1, Method.bind_of_error (buffer_of_zero ha)⟩
  rw [Method.bind_of_ok (buffer_of_pos ha)]
  by_cases hb : b = 0
  · exact .inr ⟨.inr (.inl hb), 2, _, by omega, Method.bind_of_error (buffer_of_zero hb)⟩
  rw [Method.bind_of_ok (buffer_of_pos hb)]
  by_cases hc : c = 0
  · exact .inr ⟨.inr (.inr (.inl hc)), 3, _, by omega, Method.bind_of_error (buffer_of_zero hc)⟩
  rw [Method.bind_of_ok (buffer_of_pos hc)]
  by_cases hd : d = 0
  · exact .inr ⟨.inr (.inr (.inr hd)), 4, _, by omega, Method.bind_of_error (buffer_of_zero hd)⟩
  rw [Method.bind_of_ok (buffer_of_pos hd)]
  exact .inl ⟨⟨ha, hb, hc, hd⟩, rfl⟩

/-- The workspace made of the next four buffers. -/
def newWorkspace (host : Host M) (s : Device α M) (key : WorkspaceKey) : Workspace M :=
  { cmd := made host s 0 key.commandSize, out := made host s 1 key.outputSize,
    src := made host s 2 key.sourceSize, btsp := made host s 3 key.btspSize }

/-- A workspace is cached, or made of four new buffers, or refused for a buffer of no bytes. -/
theorem workspaceFor_cases (key : WorkspaceKey) :
    (∃ workspace, find s.workspaces key = some workspace ∧ workspaceFor host key s = (s, .ok workspace)) ∨
    (find s.workspaces key = none ∧
      (key.commandSize ≠ 0 ∧ key.outputSize ≠ 0 ∧ key.sourceSize ≠ 0 ∧ key.btspSize ≠ 0) ∧
      workspaceFor host key s =
        ({ s.grown 4 with workspaces := assign s.workspaces key (newWorkspace host s key) },
          .ok (newWorkspace host s key))) ∨
    (find s.workspaces key = none ∧
      (key.commandSize = 0 ∨ key.outputSize = 0 ∨ key.sourceSize = 0 ∨ key.btspSize = 0) ∧
      ∃ n e, 1 ≤ n ∧ workspaceFor host key s = (s.grown n, .error e)) := by
  rw [workspaceFor, Method.read_bind]
  cases hfind : find s.workspaces key with
  | some workspace => exact .inl ⟨workspace, rfl, rfl⟩
  | none =>
    rcases @four_buffers α M _ host s (Workspace M) key.commandSize key.outputSize key.sourceSize key.btspSize _
      with ⟨hsizes, heq⟩ | ⟨hzero, n, e, hn, heq⟩
    · exact .inr (.inl ⟨rfl, hsizes, heq⟩)
    · exact .inr (.inr ⟨rfl, hzero, n, e, hn, heq⟩)

end Buffers

section Command

variable [HalfMemory α M] {host : Host M} {s : Device α M}

/-- The command of a tile program: the head and the blob. -/
theorem tileCommand_eq (packed : List α) (descriptor : List M) (inCols : ℕ) :
    tileCommand packed descriptor inCols =
      commandHead α descriptor (blobOffset inCols) ++ encode packed := by
  have hlength := @length_splice_descriptor α M _ (blobOffset inCols + 2 * packed.length) descriptor
  simp only [tileCommand]
  rw [spliceList, hlength, take_splice_descriptor (Nat.le_add_right _ _), List.drop_of_length_le, List.append_nil]
  rw [hlength]
  exact Nat.le_max_right _ _

/-- The command's length: its head, then the weights. -/
theorem length_tileCommand (packed : List α) (descriptor : List M) (inCols : ℕ) :
    (tileCommand packed descriptor inCols).length = blobOffset inCols + 2 * packed.length := by
  rw [tileCommand_eq, List.length_append, length_commandHead, length_encode]

/-- The program made of the next four buffers. -/
def newProgram (host : Host M) (s : Device α M) (packed : List α) (descriptor : List M) (inCols : ℕ) :
    Program M :=
  { cmd := { handle := host.handle s.inits, contents := tileCommand packed descriptor inCols },
    out := made host s 1 outBytes,
    src := made host s 2 (sourceBytes inCols),
    request := ⟨tdSize, 1, tdSize, s.pad, { handle := host.handle (s.inits + 3), contents := descriptor }⟩,
    srcSlots := sourceSlots inCols,
    srcBytes := sourceBytes inCols }

/-- A descriptor with bytes makes a program. -/
theorem makeProgram_of_ne_nil (packed : List α) {descriptor : List M} (h : descriptor ≠ []) (inCols : ℕ) :
    makeProgram host packed descriptor inCols s =
      (s.grown 4, .ok (newProgram host s packed descriptor inCols)) := by
  have hcommand := length_tileCommand packed descriptor inCols
  have hoffset := blobOffset_pos inCols
  have hsource := sourceBytes_pos inCols
  have hdescriptor := List.length_pos_iff.mpr h
  rcases @four_buffers α M _ host s (Program M) (tileCommand packed descriptor inCols).length outBytes
    (sourceBytes inCols) descriptor.length _ with ⟨-, heq⟩ | ⟨hzero, -⟩
  · refine heq.trans ?_
    rw [Buffer.write_of_length_eq (length_zeroBytes _).symm, Method.lift_ok_bind,
      Buffer.write_of_length_eq (length_zeroBytes _).symm, Method.lift_ok_bind]
    rfl
  · have hout : outBytes ≠ 0 := by decide
    omega

/-- An empty descriptor is refused when its buffer is made. -/
theorem makeProgram_nil (packed : List α) (inCols : ℕ) :
    ∃ n e, 1 ≤ n ∧ makeProgram host packed ([] : List M) inCols s = (s.grown n, .error e) := by
  rcases @four_buffers α M _ host s (Program M) (tileCommand packed ([] : List M) inCols).length outBytes
    (sourceBytes inCols) 0 _ with ⟨hsizes, -⟩ | ⟨-, n, e, hn, heq⟩
  · exact absurd rfl hsizes.2.2.2
  · exact ⟨n, e, hn, heq⟩

end Command

section Programs

variable [HalfMemory α M] [Zero α] {host : Host M} {s : Device α M}

/-- The program a fitting tile makes. -/
def tileProgramOf (host : Host M) (s : Device α M) (key : TileKey) (weights : Array2 α) (descriptor : List M)
    (inCols : ℕ) : Program M :=
  newProgram host s (tileBlob inCols (paddedTile weights key.row0 key.col0)) descriptor inCols

/-- A fitting tile with a descriptor makes its program. -/
theorem tileProgram_made {descriptor : List M} (hfind : find s.tileCache key = none)
    (hfits : FitsTile weights key inCols) (hdescriptor : descriptor ≠ []) :
    tileProgram host key weights descriptor inCols s =
      ({ s.grown 4 with
          tileCache := assign s.tileCache key (tileProgramOf host s key weights descriptor inCols) },
        .ok (tileProgramOf host s key weights descriptor inCols)) := by
  obtain ⟨padded, hcopy, hpack⟩ := copyTile_packFor hfits
  rw [tileProgram, Method.read_bind, hfind]
  simp only [hcopy, Method.lift_ok_bind, hpack none (by simp)]
  rw [Method.bind_of_ok (makeProgram_of_ne_nil _ hdescriptor inCols)]
  rfl

/-- A tile program is cached, made from the tile, refused for its arguments, or refused half made. -/
theorem tileProgram_cases (key : TileKey) (weights : Array2 α) (descriptor : List M) (inCols : ℕ) :
    (∃ program, find s.tileCache key = some program ∧
      tileProgram host key weights descriptor inCols s = (s, .ok program)) ∨
    (find s.tileCache key = none ∧ FitsTile weights key inCols ∧ descriptor ≠ [] ∧
      tileProgram host key weights descriptor inCols s =
        ({ s.grown 4 with
            tileCache := assign s.tileCache key (tileProgramOf host s key weights descriptor inCols) },
          .ok (tileProgramOf host s key weights descriptor inCols))) ∨
    (find s.tileCache key = none ∧ ¬FitsTile weights key inCols ∧
      ∃ e, tileProgram host key weights descriptor inCols s = (s, .error e)) ∨
    (find s.tileCache key = none ∧ FitsTile weights key inCols ∧ descriptor = [] ∧
      ∃ n e, 1 ≤ n ∧ tileProgram host key weights descriptor inCols s = (s.grown n, .error e)) := by
  rw [tileProgram, Method.read_bind]
  cases hfind : find s.tileCache key with
  | some program => exact .inl ⟨program, rfl, rfl⟩
  | none =>
    by_cases hfits : FitsTile weights key inCols
    · by_cases hdescriptor : descriptor = []
      · obtain ⟨padded, hcopy, hpack⟩ := copyTile_packFor hfits
        obtain ⟨n, e, hn, heq⟩ := @makeProgram_nil α M _ host s (tileBlob inCols (paddedTile weights key.row0 key.col0))
          inCols
        refine .inr (.inr (.inr ⟨rfl, hfits, hdescriptor, n, e, hn, ?_⟩))
        rw [hdescriptor]
        simp only [hcopy, Method.lift_ok_bind, hpack none (by simp)]
        rw [Method.bind_of_error heq]
      · refine .inr (.inl ⟨rfl, hfits, hdescriptor, ?_⟩)
        rw [← tileProgram_made hfind hfits hdescriptor, tileProgram, Method.read_bind, hfind]
    · obtain ⟨e, heq⟩ := copyTile_packFor_error hfits (fun _ _ => 0) none s (fun _ packed => do
        let program ← makeProgram host packed descriptor inCols
        Method.change fun s => ({ s with tileCache := assign s.tileCache key program }, ())
        return program)
      exact .inr (.inr (.inl ⟨rfl, hfits, e, heq⟩))

/-- A blob program is cached, made from the tile, refused for its arguments, or refused half made. -/
theorem blobProgram_cases (key : TileKey) (weights : Array2 α) (descriptor : List M) (inCols : ℕ) :
    (∃ blob, find s.blobSwapCache inCols = some blob ∧
      blobProgram host key weights descriptor inCols s = (s, .ok blob)) ∨
    (find s.blobSwapCache inCols = none ∧ FitsTile weights key inCols ∧ descriptor ≠ [] ∧
      ∃ padded, copyTile (fun _ _ => 0) weights key.row0 key.col0 inCols = .ok padded ∧
      ∀ blob : BlobProgram α M, blob = {
          program := tileProgramOf host s key weights descriptor inCols,
          blobOff := blobOffset inCols,
          padded := padded,
          packed := tileBlob inCols (paddedTile weights key.row0 key.col0),
          source := List.replicate (sourceBytes inCols / 2) 0 } →
      blobProgram host key weights descriptor inCols s =
        ({ s.grown 4 with blobSwapCache := assign s.blobSwapCache inCols blob }, .ok blob)) ∨
    (find s.blobSwapCache inCols = none ∧ ¬FitsTile weights key inCols ∧
      ∃ e, blobProgram host key weights descriptor inCols s = (s, .error e)) ∨
    (find s.blobSwapCache inCols = none ∧ FitsTile weights key inCols ∧ descriptor = [] ∧
      ∃ n e, 1 ≤ n ∧ blobProgram host key weights descriptor inCols s = (s.grown n, .error e)) := by
  rw [blobProgram, Method.read_bind]
  cases hfind : find s.blobSwapCache inCols with
  | some blob => exact .inl ⟨blob, rfl, rfl⟩
  | none =>
    by_cases hfits : FitsTile weights key inCols
    · obtain ⟨padded, hcopy, hpack⟩ := copyTile_packFor hfits
      by_cases hdescriptor : descriptor = []
      · obtain ⟨n, e, hn, heq⟩ := @makeProgram_nil α M _ host s (tileBlob inCols (paddedTile weights key.row0 key.col0))
          inCols
        refine .inr (.inr (.inr ⟨rfl, hfits, hdescriptor, n, e, hn, ?_⟩))
        rw [hdescriptor]
        simp only [hcopy, Method.lift_ok_bind, hpack none (by simp)]
        rw [Method.bind_of_error heq]
      · refine .inr (.inl ⟨rfl, hfits, hdescriptor, padded, hcopy, fun blob hblob => ?_⟩)
        simp only [hcopy, Method.lift_ok_bind, hpack none (by simp)]
        rw [Method.bind_of_ok (makeProgram_of_ne_nil _ hdescriptor inCols), hblob]
        rfl
    · obtain ⟨e, heq⟩ := copyTile_packFor_error hfits (fun _ _ => 0) none s (fun padded packed => do
        let program ← makeProgram host packed descriptor inCols
        let blob : BlobProgram α M :=
          { program, blobOff := blobOffset inCols, padded, packed,
            source := List.replicate (program.srcBytes / 2) 0 }
        keepBlob inCols blob
        return blob)
      exact .inr (.inr (.inl ⟨rfl, hfits, e, heq⟩))

end Programs

end Device

end AneLinux.Runtime
