import AneLinux.Runtime.Close

/-!
# Three routes to the engine

A tile can be multiplied through `gemm` and `gemm512`, through its cached program, or through the
program of its width, whose blob is rewritten. The routes keep buffers from one call to the next.
`Ready` says what the kept buffers hold between calls, every call keeps it, and from a ready device
every route submits the same command and the same source for the same tile.
-/

namespace AneLinux.Runtime

open AneLinux.Support

variable {α M : Type}

/-- The buffers of a workspace have the sizes of its key. -/
structure Workspace.Fits (workspace : Workspace M) (key : WorkspaceKey) : Prop where
  cmd : workspace.cmd.contents.length = key.commandSize
  out : workspace.out.contents.length = key.outputSize
  src : workspace.src.contents.length = key.sourceSize
  btsp : workspace.btsp.contents.length = key.btspSize

/-- A program has the buffers of its width and the descriptor it was made with. -/
structure Program.Serves (program : Program M) (descriptor : List M) (inCols : ℕ) : Prop where
  out : program.out.contents.length = outBytes
  src : program.src.contents.length = sourceBytes inCols
  btsp : program.request.btsp.contents = descriptor
  slots : program.srcSlots = sourceSlots inCols
  bytes : program.srcBytes = sourceBytes inCols

section Ready

variable [HalfMemory α M]

/-- The command a tile is submitted with. -/
def tileBytes [Zero α] (descriptor : List M) (inCols : ℕ) (entry : ℕ → ℕ → α) : List M :=
  commandHead α descriptor (blobOffset inCols) ++ encode (tileBlob inCols entry)

/-- The program of a width serves it, and its command is the head followed by the last blob. -/
structure BlobProgram.Serves (blob : BlobProgram α M) (descriptor : List M) (inCols : ℕ) : Prop where
  program : blob.program.Serves descriptor inCols
  nonempty : descriptor ≠ []
  width : inCols = 256 ∨ inCols = 512
  cmd : blob.program.cmd.contents = commandHead α descriptor (blobOffset inCols) ++ encode blob.packed
  blobOff : blob.blobOff = blobOffset inCols
  packed : 2 * blob.packed.length = blobBytes inCols
  source : blob.source.length = sourceBytes inCols / 2

/-- What the kept buffers hold between calls: `descriptors` has the descriptor of each width and
`heap` the matrix behind each identity. -/
structure Device.Ready [Zero α] (descriptors : ℕ → List M) (heap : ℕ → Array2 α) (s : Device α M) : Prop where
  workspaces : ∀ key workspace, find s.workspaces key = some workspace → workspace.Fits key
  tiles : ∀ key program, find s.tileCache key = some program →
    program.Serves (descriptors key.inCols) key.inCols ∧ program.cmd.contents =
      tileBytes (descriptors key.inCols) key.inCols (paddedTile (heap key.matrix) key.row0 key.col0)
  blobs : ∀ inCols blob, find s.blobSwapCache inCols = some blob → blob.Serves (descriptors inCols) inCols

end Ready

namespace Buffer

variable {buffer buffer' : Buffer M} {data : List M}

/-- A write keeps the size of the buffer. -/
theorem length_write (h : buffer.write data = .ok buffer') : buffer'.contents.length = buffer.contents.length := by
  unfold write at h
  split at h
  · cases h
  · cases h
    simp only [List.length_append, List.length_drop]
    omega

/-- A write at an offset keeps the size of the buffer. -/
theorem length_writeAt {offset : ℕ} (h : buffer.writeAt offset data = .ok buffer') :
    buffer'.contents.length = buffer.contents.length := by
  unfold writeAt at h
  split at h
  · cases h
  · cases h
    simp only [List.length_append, List.length_drop, List.length_take]
    omega

end Buffer

variable {descriptors : ℕ → List M} {heap : ℕ → Array2 α} {s : Device α M} {workspace : Workspace M} {key : TileKey}
  {inCols : ℕ} {blob : BlobProgram α M} {descriptor command source : List M} {weights : Array2 α} {activation : List α}

namespace Device

section New

variable [HalfMemory α M]

/-- A new workspace has the sizes of its key. -/
theorem newWorkspace_fits (host : Host M) (s : Device α M) (key : WorkspaceKey) :
    (newWorkspace host s key).Fits key :=
  ⟨length_zeroBytes _, length_zeroBytes _, length_zeroBytes _, length_zeroBytes _⟩

/-- A new program serves its width. -/
theorem newProgram_serves (host : Host M) (s : Device α M) (packed : List α) (descriptor : List M) (inCols : ℕ) :
    (newProgram host s packed descriptor inCols).Serves descriptor inCols :=
  ⟨length_zeroBytes _, length_zeroBytes _, rfl, rfl, rfl⟩

end New

section Keep

variable [HalfMemory α M] [Zero α]

/-- A fresh device is ready. -/
theorem ready_fresh (descriptors : ℕ → List M) (heap : ℕ → Array2 α) (qid : Option ℕ) :
    Ready descriptors heap (fresh qid : Device α M) :=
  ⟨fun _ _ h => by simp [fresh, find] at h, fun _ _ h => by simp [fresh, find] at h,
    fun _ _ h => by simp [fresh, find] at h⟩

theorem Ready.grown (h : Ready descriptors heap s) (n : ℕ) : Ready descriptors heap (s.grown n) :=
  ⟨h.workspaces, h.tiles, h.blobs⟩

theorem Ready.submissions (h : Ready descriptors heap s) (log : List (Submission M)) :
    Ready descriptors heap { s with submissions := log } :=
  ⟨h.workspaces, h.tiles, h.blobs⟩

/-- A workspace of the right sizes can be kept. -/
theorem Ready.keepWorkspace (h : Ready descriptors heap s) {key : WorkspaceKey} (hfits : workspace.Fits key) :
    Ready descriptors heap { s with workspaces := assign s.workspaces key workspace } := by
  refine ⟨fun k kept hkept => ?_, h.tiles, h.blobs⟩
  simp only [find_assign] at hkept
  split at hkept
  · next heq =>
    cases hkept
    exact heq ▸ hfits
  · exact h.workspaces k kept hkept

/-- A program that shows its tile can be kept. -/
theorem Ready.keepTile (h : Ready descriptors heap s) {program : Program M}
    (hserves : program.Serves (descriptors key.inCols) key.inCols)
    (hcmd : program.cmd.contents = tileBytes (descriptors key.inCols) key.inCols
      (paddedTile (heap key.matrix) key.row0 key.col0)) :
    Ready descriptors heap { s with tileCache := assign s.tileCache key program } := by
  refine ⟨h.workspaces, fun k kept hkept => ?_, h.blobs⟩
  simp only [find_assign] at hkept
  split at hkept
  · next heq =>
    cases hkept
    exact heq ▸ ⟨hserves, hcmd⟩
  · exact h.tiles k kept hkept

/-- A blob program that serves its width can be kept. -/
theorem Ready.keepBlob (h : Ready descriptors heap s) (hserves : blob.Serves (descriptors inCols) inCols) :
    Ready descriptors heap { s with blobSwapCache := assign s.blobSwapCache inCols blob } := by
  refine ⟨h.workspaces, h.tiles, fun k kept hkept => ?_⟩
  simp only [find_assign] at hkept
  split at hkept
  · next heq =>
    cases hkept
    exact heq ▸ hserves
  · exact h.blobs k kept hkept

/-- A new blob program serves its width. -/
theorem newBlob_serves (host : Host M) (s : Device α M) (key : TileKey) (weights : Array2 α)
    (hdescriptor : descriptor ≠ []) (hwidth : inCols = 256 ∨ inCols = 512) (padded : ℕ → ℕ → α) :
    BlobProgram.Serves
      { program := tileProgramOf host s key weights descriptor inCols,
        blobOff := blobOffset inCols,
        padded := padded,
        packed := tileBlob inCols (paddedTile weights key.row0 key.col0),
        source := List.replicate (sourceBytes inCols / 2) 0 } descriptor inCols :=
  ⟨newProgram_serves .., hdescriptor, hwidth, tileCommand_eq .., rfl, two_mul_length_tileBlob .., List.length_replicate⟩

/-- A workspace of the right sizes, on a device still ready. -/
theorem workspaceFor_ready (host : Host M) (key : WorkspaceKey) :
    Method.Triple (Ready descriptors heap) (workspaceFor host key)
      (fun workspace t => workspace.Fits key ∧ Ready descriptors heap t) (Ready descriptors heap) := by
  intro s hs
  rcases @workspaceFor_cases α M _ host s key with ⟨workspace, hfind, heq⟩ | ⟨-, -, heq⟩ | ⟨-, -, n, e, -, heq⟩
  · rw [heq]
    exact ⟨hs.workspaces key workspace hfind, hs⟩
  · rw [heq]
    exact ⟨newWorkspace_fits host s key, (hs.grown 4).keepWorkspace (newWorkspace_fits host s key)⟩
  · rw [heq]
    exact hs.grown n

/-- The program of a tile shows the matrix behind the key. -/
theorem tileProgram_ready (host : Host M) (key : TileKey) :
    Method.Triple (Ready descriptors heap)
      (tileProgram host key (heap key.matrix) (descriptors key.inCols) key.inCols)
      (fun program t => (program.Serves (descriptors key.inCols) key.inCols ∧ program.cmd.contents =
        tileBytes (descriptors key.inCols) key.inCols (paddedTile (heap key.matrix) key.row0 key.col0)) ∧
          Ready descriptors heap t) (Ready descriptors heap) := by
  intro s hs
  rcases tileProgram_cases key (heap key.matrix) (descriptors key.inCols) key.inCols with
    ⟨program, hfind, heq⟩ | ⟨-, -, -, heq⟩ | ⟨-, -, e, heq⟩ | ⟨-, -, -, n, e, -, heq⟩
  · rw [heq]
    exact ⟨hs.tiles key program hfind, hs⟩
  · rw [heq]
    have hserves := newProgram_serves host s
      (tileBlob key.inCols (paddedTile (heap key.matrix) key.row0 key.col0)) (descriptors key.inCols) key.inCols
    exact ⟨⟨hserves, tileCommand_eq ..⟩, (hs.grown 4).keepTile hserves (tileCommand_eq ..)⟩
  · rw [heq]
    exact hs
  · rw [heq]
    exact hs.grown n

/-- The program of a width serves it. -/
theorem blobProgram_ready (host : Host M) (key : TileKey) (weights : Array2 α) (inCols : ℕ) :
    Method.Triple (Ready descriptors heap) (blobProgram host key weights (descriptors inCols) inCols)
      (fun blob t => blob.Serves (descriptors inCols) inCols ∧ Ready descriptors heap t)
      (Ready descriptors heap) := by
  intro s hs
  rcases blobProgram_cases key weights (descriptors inCols) inCols with
    ⟨blob, hfind, heq⟩ | ⟨-, hfits, hdescriptor, padded, -, heq⟩ | ⟨-, -, e, heq⟩ | ⟨-, -, -, n, e, -, heq⟩
  · rw [heq]
    exact ⟨hs.blobs inCols blob hfind, hs⟩
  · rw [heq _ rfl]
    have hserves := newBlob_serves host s key weights hdescriptor hfits.1 padded
    exact ⟨hserves, (hs.grown 4).keepBlob hserves⟩
  · rw [heq]
    exact hs
  · rw [heq]
    exact hs.grown n

variable [DecidableEq M]

theorem runWorkspace_ready (host : Host M) {key : WorkspaceKey} (hfits : workspace.Fits key) (command source : List M)
    (outputSize : ℕ) (descriptor : List M) (tdCount : ℕ) :
    Method.Triple (Ready descriptors heap)
      (runWorkspace host command source outputSize descriptor tdCount key workspace)
      (fun _ => Ready descriptors heap) (Ready descriptors heap) := by
  refine Method.Triple.lift_bind (fun out hout => ?_) fun t ht => ht
  refine Method.Triple.lift_bind (fun cmd hcmd => ?_) fun t ht => ht
  refine Method.Triple.lift_bind (fun src hsrc => ?_) fun t ht => ht
  refine Method.Triple.lift_bind (fun btsp hbtsp => ?_) fun t ht => ht
  refine Method.Triple.read_bind fun pad => ?_
  refine Method.Triple.bind_value (ioctlSubmit_triple fun t ht log => ht.submissions log) fun out' hout' => ?_
  refine Method.Triple.bind (Method.Triple.change fun t ht => ?_) fun _ =>
    Method.Triple.lift (fun _ _ _ ht => ht) fun _ _ _ ht => ht
  exact ht.keepWorkspace ⟨(Buffer.length_write hcmd).trans hfits.cmd,
    (hout'.2.trans (Buffer.length_write hout)).trans hfits.out,
    (Buffer.length_write hsrc).trans hfits.src, (Buffer.length_write hbtsp).trans hfits.btsp⟩

theorem submit_ready (host : Host M) (command source : List M) (outputSize : ℕ) (descriptor : List M)
    (tdCount : ℕ) : Method.Triple (Ready descriptors heap)
      (submit host command source outputSize descriptor tdCount)
      (fun _ => Ready descriptors heap) (Ready descriptors heap) := by
  unfold submit
  split
  · exact Method.Triple.raise fun t ht => ht
  · split
    · exact Method.Triple.raise fun t ht => ht
    · split
      · exact Method.Triple.raise fun t ht => ht
      · exact Method.Triple.bind_value (workspaceFor_ready host _) fun workspace hfits =>
          runWorkspace_ready host hfits command source outputSize descriptor tdCount

/-- Packing, placing and submitting, as `gemm` and `gemm512` do. -/
theorem submitted_ready (host : Host M) (packed placed : Py (List α)) (command : List α → List M) (outputSize : ℕ)
    (descriptor : List M) (tdCount : ℕ) :
    Method.Triple (Ready descriptors heap) (do
        let packed ← Method.lift packed
        let source ← Method.lift placed
        let bytes ← submit host (command packed) (encode source) outputSize descriptor tdCount
        return outputRows bytes : Method (Device α M) (List α))
      (fun _ => Ready descriptors heap) (Ready descriptors heap) := by
  refine Method.Triple.lift_bind (fun packed _ => ?_) fun t ht => ht
  refine Method.Triple.lift_bind (fun source _ => ?_) fun t ht => ht
  exact Method.Triple.bind (submit_ready host _ _ _ _ _) fun bytes => Method.Triple.pure fun t ht => ht

/-- The staged route leaves the device ready. -/
theorem gemm_ready (host : Host M) (weights : Array2 α) (activation : List α) (descriptor : List M) :
    Method.Triple (Ready descriptors heap) (gemm host weights activation descriptor)
      (fun _ => Ready descriptors heap) (Ready descriptors heap) := by
  unfold gemm
  split
  · exact Method.Triple.raise fun t ht => ht
  · exact submitted_ready host _ _ _ _ _ _

/-- So does its wide form. -/
theorem gemm512_ready (host : Host M) (weights : Array2 α) (activation : List α) (descriptor : List M) :
    Method.Triple (Ready descriptors heap) (gemm512 host weights activation descriptor)
      (fun _ => Ready descriptors heap) (Ready descriptors heap) := by
  unfold gemm512
  split
  · exact Method.Triple.raise fun t ht => ht
  · exact submitted_ready host _ _ _ _ _ _

/-- So does the tiled route. -/
theorem tileGemm_ready (host : Host M) (key : TileKey) (activation : List α) :
    Method.Triple (Ready descriptors heap)
      (tileGemm host key (heap key.matrix) activation (descriptors key.inCols) key.inCols)
      (fun _ => Ready descriptors heap) (Ready descriptors heap) := by
  refine Method.Triple.bind_value (tileProgram_ready host key) fun program hprogram => ?_
  refine Method.Triple.lift_bind (fun source _ => ?_) fun t ht => ht
  refine Method.Triple.lift_bind (fun src hsrc => ?_) fun t ht => ht
  refine Method.Triple.lift_bind (fun out hout => ?_) fun t ht => ht
  refine Method.Triple.bind_value (ioctlSubmit_triple fun t ht log => ht.submissions log) fun out' hout' => ?_
  refine Method.Triple.bind (Method.Triple.change fun t ht => ?_) fun _ =>
    Method.Triple.lift_bind (fun bytes _ => Method.Triple.pure fun t ht => ht) fun t ht => ht
  refine ht.keepTile ?_ hprogram.2
  exact { hprogram.1 with
    out := (hout'.2.trans (Buffer.length_writeAt hout)).trans hprogram.1.out
    src := (Buffer.length_write hsrc).trans hprogram.1.src }

end Keep

section Rewrite

variable [HalfMemory α M] [Zero α]

/-- A blob program after its blob has been rewritten. -/
def rewritten (blob : BlobProgram α M) (descriptor : List M) (inCols : ℕ) (padded entry : ℕ → ℕ → α) :
    BlobProgram α M :=
  { blob with
    program := { blob.program with
      cmd := { blob.program.cmd with contents := tileBytes descriptor inCols entry } },
    padded := padded,
    packed := tileBlob inCols entry,
    source := List.replicate blob.source.length 0 }

/-- Rewriting the weights keeps the slots. -/
theorem rewritten_serves (h : blob.Serves descriptor inCols) (padded entry : ℕ → ℕ → α) :
    (rewritten blob descriptor inCols padded entry).Serves descriptor inCols where
  program := ⟨h.program.out, h.program.src, h.program.btsp, h.program.slots, h.program.bytes⟩
  nonempty := h.nonempty
  width := h.width
  cmd := rfl
  blobOff := h.blobOff
  packed := two_mul_length_tileBlob inCols entry
  source := List.length_replicate.trans h.source

/-- A tile that fits replaces the whole blob. -/
theorem rewriteBlob_of_fits (h : blob.Serves descriptor inCols) (hfits : FitsTile weights key inCols) :
    ∃ padded, ∀ blob',
      blob' = rewritten blob descriptor inCols padded (paddedTile weights key.row0 key.col0) →
      rewriteBlob key weights inCols blob s = ({ s with
        blobSwapCache := assign (assign s.blobSwapCache inCols { blob with padded := fun _ _ => 0 }) inCols blob' },
          .ok blob') := by
  obtain ⟨padded, hcopy, hpack⟩ := copyTile_packFor hfits
  have hpacked := hpack (some blob.packed) fun values hvalues => by
    cases hvalues
    exact h.packed
  have htake : blob.program.cmd.contents.take blob.blobOff = commandHead α descriptor (blobOffset inCols) := by
    rw [h.cmd, h.blobOff]
    exact List.take_left' (length_commandHead _ _)
  have hlength : blob.program.cmd.contents.length = blobOffset inCols + blobBytes inCols := by
    rw [h.cmd, List.length_append, length_commandHead, length_encode, h.packed]
  have hwrite : blob.program.cmd.writeAt blob.blobOff
      (encode (tileBlob inCols (paddedTile weights key.row0 key.col0))) = .ok { blob.program.cmd with
        contents := tileBytes descriptor inCols (paddedTile weights key.row0 key.col0) } := by
    have hend : blob.blobOff + (encode (tileBlob inCols (paddedTile weights key.row0 key.col0)) : List M).length =
        blob.program.cmd.contents.length := by
      rw [hlength, length_encode, two_mul_length_tileBlob, h.blobOff]
    rw [Buffer.writeAt_of_le hend.le, hend, List.drop_length, List.append_nil, htake]
    rfl
  refine ⟨padded, fun blob' hblob' => ?_⟩
  rw [rewriteBlob, keepBlob, Method.change_bind]
  simp only [hcopy, hpacked, hwrite, Method.lift_ok_bind]
  rw [hblob']
  rfl

/-- A tile that does not fit leaves the blob as it is. -/
theorem rewriteBlob_of_not_fits (hfits : ¬FitsTile weights key inCols) :
    ∃ e, rewriteBlob key weights inCols blob s =
      ({ s with blobSwapCache := assign s.blobSwapCache inCols { blob with padded := fun _ _ => 0 } }, .error e) := by
  rw [rewriteBlob, keepBlob, Method.change_bind]
  exact copyTile_packFor_error hfits _ _ _ _

/-- Rewriting the blob keeps the device ready. -/
theorem rewriteBlob_ready (h : blob.Serves (descriptors inCols) inCols) (key : TileKey) (weights : Array2 α) :
    Method.Triple (Ready descriptors heap) (rewriteBlob key weights inCols blob)
      (fun blob t => blob.Serves (descriptors inCols) inCols ∧ Ready descriptors heap t)
      (Ready descriptors heap) := by
  intro s hs
  have hkept : BlobProgram.Serves { blob with padded := fun _ _ => 0 } (descriptors inCols) inCols :=
    ⟨h.program, h.nonempty, h.width, h.cmd, h.blobOff, h.packed, h.source⟩
  by_cases hfits : FitsTile weights key inCols
  · obtain ⟨padded, heq⟩ := rewriteBlob_of_fits h hfits
    rw [heq _ rfl]
    exact ⟨rewritten_serves h _ _, (hs.keepBlob hkept).keepBlob (rewritten_serves h _ _)⟩
  · obtain ⟨e, heq⟩ := rewriteBlob_of_not_fits (α := α) (M := M) (s := s) hfits
    rw [heq]
    exact hs.keepBlob hkept

end Rewrite

section Source

variable [Zero α]

/-- The activations a tile width takes: one value for each place, or one for all of them. -/
def TakesActivation (inCols : ℕ) (activation : List α) : Prop :=
  activation.length = sourceSlots inCols ∨ activation.length = 1

/-- The source vector of an activation: every 32nd value. -/
def stridedSource (inCols : ℕ) (activation : List α) : List α :=
  (List.range (sourceBytes inCols / 2)).map fun i => if i < sourceSlots inCols * 32 ∧ i % 32 = 0 then
    activation.getD (if activation.length = sourceSlots inCols then i / 32 else 0) 0 else 0

theorem length_stridedSource (inCols : ℕ) (activation : List α) :
    2 * (stridedSource inCols activation).length = sourceBytes inCols := by
  rw [stridedSource, List.length_map, List.length_range]
  unfold sourceBytes
  split
  · rfl
  · rfl

/-- An activation that fits is laid out with its stride. -/
theorem placeSource_of_takes (h : TakesActivation inCols activation) :
    placeSource (List.replicate (sourceBytes inCols / 2) 0) (sourceSlots inCols) activation =
      .ok (stridedSource inCols activation) := by
  unfold TakesActivation at h
  rw [placeSource, if_pos h]
  refine congrArg Except.ok (List.ext_getElem ?_ fun i hi hi' => ?_)
  · simp [stridedSource]
  · simp [stridedSource]

/-- Any other is refused. -/
theorem placeSource_of_not_takes (h : ¬TakesActivation inCols activation) (source : List α) :
    ∃ e, placeSource source (sourceSlots inCols) activation = .error e := by
  unfold TakesActivation at h
  rw [placeSource, if_neg h]
  exact ⟨_, rfl⟩

variable [HalfMemory α M]

theorem length_tileBytes (descriptor : List M) (inCols : ℕ) (entry : ℕ → ℕ → α) :
    (tileBytes descriptor inCols entry).length = blobOffset inCols + blobBytes inCols := by
  rw [tileBytes, List.length_append, length_commandHead, length_encode, two_mul_length_tileBlob]

/-- The source of a tile is never empty. -/
theorem encode_stridedSource_ne_nil (inCols : ℕ) (activation : List α) :
    (encode (stridedSource inCols activation) : List M) ≠ [] := by
  have hlength : (encode (stridedSource inCols activation) : List M).length = sourceBytes inCols := by
    rw [length_encode, length_stridedSource]
  have hpos := sourceBytes_pos inCols
  intro hnil
  rw [hnil, List.length_nil] at hlength
  omega

end Source

/-- The workspace of a command with one task. -/
def taskKey (command source descriptor : List M) : WorkspaceKey :=
  ⟨command.length, source.length, outBytes, (1 - 1) * tdSpacing + descriptor.length⟩

/-- One descriptor in a task buffer of its size. -/
theorem splice_one [HalfMemory α M] (command source descriptor : List M) : (List.range 1).foldl (fun bytes i =>
    spliceList bytes (i * tdSpacing) (i * tdSpacing + descriptor.length) descriptor)
      (zeroBytes α (taskKey command source descriptor).btspSize) = descriptor := by
  simp [List.range_one, spliceList, zeroBytes, taskKey]

section Submit

variable [HalfMemory α M] [DecidableEq M]

/-- The answer to the `n`-th submission. -/
def answer (host : Host M) (n : ℕ) (submission : Submission M) : Py (List α) := do
  let bytes ← readOutput α ((List.range outBytes).map (host.respond n submission))
  return outputRows bytes

/-- The method makes one submission, which shows the engine these bytes, and returns its answer. -/
def Submits (host : Host M) (method : Method (Device α M) (List α)) (s : Device α M)
    (command source descriptor : List M) : Prop :=
  ∃ submission, (method s).2 = answer host s.submissions.length submission ∧
    (method s).1.submissions = s.submissions ++ [submission] ∧ submission.command = command ∧
    submission.source = source ∧ submission.btsp = descriptor

variable {host : Host M}

theorem Submits.lift_ok {β : Type} {a : β} {next : β → Method (Device α M) (List α)}
    (h : Submits host (next a) s command source descriptor) :
    Submits host (Method.lift (.ok a) >>= next) s command source descriptor := h

theorem Submits.read {β : Type} {f : Device α M → β} {next : β → Method (Device α M) (List α)}
    (h : Submits host (next (f s)) s command source descriptor) :
    Submits host (Method.read f >>= next) s command source descriptor := h

/-- A method that goes on as another one, with no submission made so far. -/
theorem Submits.of_eq {m m' : Method (Device α M) (List α)} {s' : Device α M} (heq : m s = m' s')
    (hlog : s'.submissions = s.submissions) (h : Submits host m' s' command source descriptor) :
    Submits host m s command source descriptor := by
  unfold Submits at *
  rwa [heq, ← hlog]

/-- The end of the two program routes: submit, keep the program, read the output. -/
theorem submits_program {request : Request M} {cmd out src : Buffer M}
    {keep : Buffer M → Device α M → Device α M × Unit} (hout : out.contents.length = outBytes)
    (hkeep : ∀ out t, (keep out t).1.submissions = t.submissions) :
    Submits host (do
      let out ← ioctlSubmit host request cmd out src
      Method.change (keep out)
      let bytes ← Method.lift (readOutput α (out.contents.take outBytes))
      return outputRows bytes) s cmd.contents src.contents request.btsp.contents := by
  have htake (bytes : ℕ → M) : ((List.range out.contents.length).map bytes).take outBytes =
      (List.range outBytes).map bytes := by
    rw [hout, List.take_of_length_le (by simp)]
  refine ⟨⟨request.tskSize, request.tdCount, request.tdSize, request.pad, cmd.contents, src.contents,
    out.contents, request.btsp.contents⟩, ?_, ?_, rfl, rfl, rfl⟩
  · simp only [ioctlSubmit, Method.change_bind, htake, answer]
    cases readOutput α ((List.range outBytes).map (host.respond s.submissions.length _)) with
    | ok bytes => rfl
    | error e => rfl
  · simp only [ioctlSubmit, Method.change_bind, htake]
    cases readOutput α ((List.range outBytes).map (host.respond s.submissions.length _)) with
    | ok bytes => exact hkeep _ _
    | error e => exact hkeep _ _

/-- A workspace of the right sizes is submitted with the bytes it is given. -/
theorem runWorkspace_submits (h : workspace.Fits (taskKey command source descriptor)) :
    Submits host (do
      let bytes ← runWorkspace host command source outBytes descriptor 1
        (taskKey command source descriptor) workspace
      return outputRows bytes) s command source descriptor := by
  have hout : ((List.replicate (outBytes / 2) (sentinelBytes α)).flatten : List M).length =
      workspace.out.contents.length := by
    rw [h.out, List.length_flatten, List.map_replicate, List.sum_replicate_nat, length_sentinelBytes]
    rfl
  have hbtsp : descriptor.length = workspace.btsp.contents.length := by
    rw [h.btsp]
    exact (Nat.zero_add _).symm
  unfold runWorkspace
  generalize ((List.replicate (outBytes / 2) (sentinelBytes α)).flatten : List M) = filler at hout ⊢
  simp only [Method.bind_bind]
  rw [Buffer.write_of_length_eq hout]
  refine Submits.lift_ok ?_
  rw [Buffer.write_of_length_eq h.cmd.symm]
  refine Submits.lift_ok ?_
  rw [Buffer.write_of_length_eq h.src.symm]
  refine Submits.lift_ok ?_
  rw [splice_one, Buffer.write_of_length_eq hbtsp]
  refine Submits.lift_ok (Submits.read ?_)
  let keep (out : Buffer M) (t : Device α M) : Device α M × Unit := ({ t with
    workspaces := assign t.workspaces
      (taskKey command source descriptor)
      ⟨⟨workspace.cmd.handle, command⟩, out, ⟨workspace.src.handle, source⟩, ⟨workspace.btsp.handle, descriptor⟩⟩ },
        ())
  have hkeep (out : Buffer M) (t : Device α M) : (keep out t).1.submissions = t.submissions := rfl
  exact submits_program (hout.trans h.out) hkeep

/-- An accepted `submit` of one task shows the engine its arguments. -/
theorem submit_submits (hs : ∀ key workspace, find s.workspaces key = some workspace → workspace.Fits key)
    (hdescriptor : tdSize ≤ descriptor.length) (hcommand : tdSize < command.length) (hsource : source ≠ []) :
    Submits host (do
      let bytes ← submit host command source outBytes descriptor 1
      return outputRows bytes) s command source descriptor := by
  have hsubmit : submit host command source outBytes descriptor 1 = (workspaceFor host
      (taskKey command source descriptor) >>=
        runWorkspace host command source outBytes descriptor 1
          (taskKey command source descriptor) : Method (Device α M) (List M)) := by
    rw [submit, if_neg (by omega), if_neg (by omega), if_neg (by omega)]
    rfl
  rw [hsubmit]
  rcases @workspaceFor_cases α M _ host s (taskKey command source descriptor)
    with ⟨workspace, hfind, heq⟩ | ⟨-, -, heq⟩ | ⟨-, hzero, -⟩
  · exact Submits.of_eq (Method.bind_congr_at (Method.bind_of_ok heq) _) rfl
      (runWorkspace_submits (hs _ workspace hfind))
  · exact Submits.of_eq (Method.bind_congr_at (Method.bind_of_ok heq) _) rfl
      (runWorkspace_submits (newWorkspace_fits host s _))
  · have hsource := List.length_pos_iff.mpr hsource
    have hout : outBytes ≠ 0 := by decide
    have hsize : 0 < tdSize := by decide
    simp only [taskKey] at hzero
    omega

variable [Zero α]

/-- A served tile program is submitted with its command and the activation. -/
theorem runTile_submits {program : Program M} (h : program.Serves descriptor inCols)
    (htakes : TakesActivation inCols activation) (key : TileKey) :
    Submits host (runTile host key activation program) s program.cmd.contents
      (encode (stridedSource inCols activation)) descriptor := by
  have hsource : (encode (stridedSource inCols activation) : List M).length = program.src.contents.length := by
    rw [length_encode, length_stridedSource, h.src]
  have hout : 0 + (sentinelBytes α : List M).length ≤ program.out.contents.length := by
    rw [h.out, length_sentinelBytes]
    decide
  have hlength : (sentinelBytes α ++ program.out.contents.drop 2).length = outBytes := by
    rw [List.length_append, List.length_drop, h.out, length_sentinelBytes]
    rfl
  unfold runTile
  rw [h.bytes, h.slots, placeSource_of_takes htakes]
  refine Submits.lift_ok ?_
  rw [Buffer.write_of_length_eq hsource]
  refine Submits.lift_ok ?_
  rw [Buffer.writeAt_of_le hout]
  refine Submits.lift_ok ?_
  rw [← h.btsp]
  exact submits_program hlength fun out t => rfl

/-- A served blob program is submitted with its command and the activation. -/
theorem runBlob_submits (h : blob.Serves descriptor inCols)
    (hzero : blob.source = List.replicate (sourceBytes inCols / 2) 0) (htakes : TakesActivation inCols activation) :
    Submits host (runBlob host activation inCols blob) s blob.program.cmd.contents
      (encode (stridedSource inCols activation)) descriptor := by
  have hsource : 0 + (encode (stridedSource inCols activation) : List M).length = blob.program.src.contents.length := by
    rw [Nat.zero_add, length_encode, length_stridedSource, h.program.src]
  have hout : 0 + (sentinelBytes α : List M).length ≤ blob.program.out.contents.length := by
    rw [h.program.out, length_sentinelBytes]
    decide
  have hlength : (sentinelBytes α ++ blob.program.out.contents.drop 2).length = outBytes := by
    rw [List.length_append, List.length_drop, h.program.out, length_sentinelBytes]
    rfl
  unfold runBlob
  rw [hzero, h.program.slots, placeSource_of_takes htakes]
  refine Submits.lift_ok ?_
  rw [Buffer.writeAt_of_le hsource.le, hsource, List.drop_length, List.append_nil, List.take_zero, List.nil_append]
  refine Submits.lift_ok ?_
  rw [Buffer.writeAt_of_le hout]
  refine Submits.lift_ok ?_
  rw [← h.program.btsp]
  exact submits_program hlength fun out t => rfl

/-- The tile as an array of its own. -/
def tileArray (inCols : ℕ) (entry : ℕ → ℕ → α) : Array2 α := ⟨512, inCols, entry⟩

/-- `gemm` shows the engine the tile; a descriptor that is longer than the command stays behind it. -/
theorem gemm_submits (hs : ∀ key workspace, find s.workspaces key = some workspace → workspace.Fits key)
    (hdescriptor : tdSize ≤ descriptor.length) (entry : ℕ → ℕ → α) (hactivation : activation.length = 256) :
    Submits host (gemm host (tileArray 256 entry) activation descriptor) s
      (tileBytes descriptor 256 entry ++ descriptor.drop (weightOffset + weightBytes))
      (encode (stridedSource 256 activation)) descriptor := by
  have hplace : placeSource (List.replicate (srcBytes / 2) 0) 256 activation = .ok (stridedSource 256 activation) :=
    @placeSource_of_takes α 256 activation _ (.inl hactivation)
  have hpack : packWeights (tileArray 256 entry) none = .ok (packedBlob 6 256 weightBytes entry) :=
    packTile_eq rfl rfl (by simp)
  have htail : (spliceList (zeroBytes α cmdBytes) 0 descriptor.length descriptor).drop
      (max weightOffset (weightOffset + weightBytes)) = descriptor.drop (weightOffset + weightBytes) := by
    have hend : cmdBytes ≤ weightOffset + weightBytes := by decide
    rw [Nat.max_eq_right (Nat.le_add_right _ _), spliceList, List.take_zero, List.nil_append, List.drop_append]
    rw [List.drop_of_length_le (l := (zeroBytes α cmdBytes).drop _), List.append_nil]
    rw [List.length_drop, length_zeroBytes]
    omega
  have hcommand : spliceList (spliceList (zeroBytes α cmdBytes) 0 descriptor.length descriptor) weightOffset
      (weightOffset + weightBytes) (encode (packedBlob 6 256 weightBytes entry)) =
        tileBytes descriptor 256 entry ++ descriptor.drop (weightOffset + weightBytes) := by
    rw [spliceList, take_splice_descriptor (by decide), htail]
    rfl
  unfold gemm
  rw [if_neg (not_not.mpr hactivation), hpack]
  refine Submits.lift_ok ?_
  rw [hplace]
  refine Submits.lift_ok ?_
  simp only [hcommand]
  refine submit_submits hs hdescriptor ?_ (encode_stridedSource_ne_nil 256 activation)
  rw [List.length_append, length_tileBytes]
  exact Nat.lt_add_right _ (by decide)

/-- `gemm512` shows the engine the tile. -/
theorem gemm512_submits (hs : ∀ key workspace, find s.workspaces key = some workspace → workspace.Fits key)
    (hdescriptor : tdSize ≤ descriptor.length) (entry : ℕ → ℕ → α) (hactivation : activation.length = 512) :
    Submits host (gemm512 host (tileArray 512 entry) activation descriptor) s
      (tileBytes descriptor 512 entry) (encode (stridedSource 512 activation)) descriptor := by
  have hplace : placeSource (List.replicate (srcBytes512 / 2) 0) 512 activation = .ok (stridedSource 512 activation) :=
    @placeSource_of_takes α 512 activation _ (.inl hactivation)
  have hpack : packWeights512 (tileArray 512 entry) none = .ok (packedBlob 0 512 weightBytes512 entry) :=
    packTile_eq rfl rfl (by simp)
  have hlength : 2 * (packedBlob 0 512 weightBytes512 entry).length = weightBytes512 := by
    rw [length_packedBlob]
    rfl
  have hcommand := tileCommand_eq (packedBlob 0 512 weightBytes512 entry) descriptor 512
  have hoffset : blobOffset 512 = (tdSize + 15) / 16 * 16 := rfl
  simp only [tileCommand, hlength, hoffset] at hcommand
  unfold gemm512
  rw [if_neg (not_not.mpr hactivation), hpack]
  refine Submits.lift_ok ?_
  rw [hplace]
  refine Submits.lift_ok ?_
  simp only [hcommand]
  refine submit_submits hs hdescriptor ?_ (encode_stridedSource_ne_nil 512 activation)
  change tdSize < (tileBytes descriptor 512 entry).length
  rw [length_tileBytes]
  decide

/-- `tile_gemm` shows the engine the tile of the matrix behind the key. -/
theorem tileGemm_submits (hs : Ready descriptors heap s) (hfits : FitsTile (heap key.matrix) key key.inCols)
    (hdescriptor : descriptors key.inCols ≠ []) (htakes : TakesActivation key.inCols activation) :
    Submits host (tileGemm host key (heap key.matrix) activation (descriptors key.inCols) key.inCols) s
      (tileBytes (descriptors key.inCols) key.inCols (paddedTile (heap key.matrix) key.row0 key.col0))
      (encode (stridedSource key.inCols activation)) (descriptors key.inCols) := by
  rcases tileProgram_cases key (heap key.matrix) (descriptors key.inCols) key.inCols with
    ⟨program, hfind, heq⟩ | ⟨-, -, -, heq⟩ | ⟨-, hnot, -⟩ | ⟨-, -, hnil, -⟩
  · obtain ⟨hserves, hcmd⟩ := hs.tiles key program hfind
    rw [← hcmd]
    exact Submits.of_eq (Method.bind_of_ok heq) rfl (runTile_submits hserves htakes key)
  · rw [tileBytes, ← tileCommand_eq]
    exact Submits.of_eq (Method.bind_of_ok heq) rfl (runTile_submits (newProgram_serves ..) htakes key)
  · exact absurd hfits hnot
  · exact absurd hnil hdescriptor

/-- From a program that serves the width, the tile replaces whatever the blob held. -/
theorem swapBlob_submits (h : blob.Serves descriptor inCols) (hfits : FitsTile weights key inCols)
    (htakes : TakesActivation inCols activation) :
    Submits host (rewriteBlob key weights inCols blob >>= runBlob host activation inCols) s
      (tileBytes descriptor inCols (paddedTile weights key.row0 key.col0))
      (encode (stridedSource inCols activation)) descriptor := by
  obtain ⟨padded, heq⟩ := rewriteBlob_of_fits h hfits
  have hzero : (rewritten blob descriptor inCols padded (paddedTile weights key.row0 key.col0)).source =
      List.replicate (sourceBytes inCols / 2) 0 := by
    rw [rewritten, h.source]
  exact Submits.of_eq (Method.bind_of_ok (heq _ rfl)) rfl (runBlob_submits (rewritten_serves h _ _) hzero htakes)

/-- `blob_swap_gemm` shows the engine the tile, whatever the device multiplied before. -/
theorem blobSwapGemm_submits (hs : Ready descriptors heap s) (hfits : FitsTile weights key inCols)
    (hdescriptor : descriptors inCols ≠ []) (htakes : TakesActivation inCols activation) :
    Submits host (blobSwapGemm host key weights activation (descriptors inCols) inCols) s
      (tileBytes (descriptors inCols) inCols (paddedTile weights key.row0 key.col0))
      (encode (stridedSource inCols activation)) (descriptors inCols) := by
  rcases blobProgram_cases key weights (descriptors inCols) inCols with
    ⟨blob, hfind, heq⟩ | ⟨-, -, -, padded, -, heq⟩ | ⟨-, hnot, -⟩ | ⟨-, -, hnil, -⟩
  · exact Submits.of_eq (Method.bind_of_ok heq) rfl
      (swapBlob_submits (hs.blobs inCols blob hfind) hfits htakes)
  · exact Submits.of_eq (Method.bind_of_ok (heq _ rfl)) rfl
      (swapBlob_submits (newBlob_serves host s key weights hdescriptor hfits.1 padded) hfits htakes)
  · exact absurd hfits hnot
  · exact absurd hnil hdescriptor

/-- A run of a blob program keeps the device ready. -/
theorem runBlob_ready (h : blob.Serves (descriptors inCols) inCols) (activation : List α) :
    Method.Triple (Ready descriptors heap) (runBlob host activation inCols blob)
      (fun _ => Ready descriptors heap) (Ready descriptors heap) := by
  refine Method.Triple.lift_bind (fun source hsource => ?_) fun t ht => ht
  refine Method.Triple.lift_bind (fun src hsrc => ?_) fun t ht => ht
  refine Method.Triple.lift_bind (fun out hout => ?_) fun t ht => ht
  refine Method.Triple.bind_value (ioctlSubmit_triple fun t ht log => ht.submissions log) fun out' hout' => ?_
  refine Method.Triple.bind (Method.Triple.change fun t ht => ?_) fun _ =>
    Method.Triple.lift_bind (fun bytes _ => Method.Triple.pure fun t ht => ht) fun t ht => ht
  refine ht.keepBlob ⟨⟨?_, ?_, h.program.btsp, h.program.slots, h.program.bytes⟩, h.nonempty, h.width, h.cmd,
    h.blobOff, h.packed, (length_placeSource hsource).trans h.source⟩
  · exact (hout'.2.trans (Buffer.length_writeAt hout)).trans h.program.out
  · exact (Buffer.length_writeAt hsrc).trans h.program.src

/-- The swapping route leaves the device ready. -/
theorem blobSwapGemm_ready (host : Host M) (key : TileKey) (weights : Array2 α) (activation : List α)
    (inCols : ℕ) : Method.Triple (Ready descriptors heap)
      (blobSwapGemm host key weights activation (descriptors inCols) inCols)
      (fun _ => Ready descriptors heap) (Ready descriptors heap) :=
  Method.Triple.bind_value (blobProgram_ready host key weights inCols) fun _ hblob =>
    Method.Triple.bind_value (rewriteBlob_ready hblob key weights) fun _ hblob' => runBlob_ready hblob' activation

end Submit

end Device

/-- The call uses the descriptor of its width, and `tile_gemm` the matrix behind its key. -/
def Call.Consistent (descriptors : ℕ → List M) (heap : ℕ → Array2 α) : Call α M → Prop
  | .submit _ _ _ _ _ => True
  | .gemm _ _ _ => True
  | .gemm512 _ _ _ => True
  | .tileGemm key weights _ descriptor inCols =>
    weights = heap key.matrix ∧ inCols = key.inCols ∧ descriptor = descriptors inCols
  | .blobSwapGemm _ _ _ descriptor inCols => descriptor = descriptors inCols

section Run

variable [HalfMemory α M] [DecidableEq M] [Zero α]

/-- Every consistent call keeps the device ready, whether it returns or raises. -/
theorem perform_ready (host : Host M) {call : Call α M} (hcall : call.Consistent descriptors heap)
    (hs : s.Ready descriptors heap) : (perform host call s).Ready descriptors heap := by
  cases call with
  | submit command source outputSize descriptor tdCount =>
    exact (Device.submit_ready host command source outputSize descriptor tdCount).always _ hs
  | gemm weights activation descriptor => exact (Device.gemm_ready host weights activation descriptor).always _ hs
  | gemm512 weights activation descriptor =>
    exact (Device.gemm512_ready host weights activation descriptor).always _ hs
  | tileGemm key weights activation descriptor inCols =>
    obtain ⟨rfl, rfl, rfl⟩ := hcall
    exact (Device.tileGemm_ready host key activation).always _ hs
  | blobSwapGemm key weights activation descriptor inCols =>
    obtain rfl := hcall
    exact (Device.blobSwapGemm_ready host key weights activation inCols).always _ hs

/-- A run of consistent calls keeps the device ready. -/
theorem afterCalls_ready (host : Host M) {calls : List (Call α M)}
    (hcalls : ∀ call ∈ calls, call.Consistent descriptors heap) (hs : s.Ready descriptors heap) :
    (afterCalls host s calls).Ready descriptors heap := by
  induction calls generalizing s with
  | nil => exact hs
  | cons call calls ih =>
    rw [List.forall_mem_cons] at hcalls
    exact ih hcalls.2 (perform_ready host hcalls.1 hs)

end Run

end AneLinux.Runtime
