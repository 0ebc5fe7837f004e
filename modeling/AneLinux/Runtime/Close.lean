import AneLinux.Runtime.DeviceSteps

/-!
# Which buffer objects closing the device frees

`close` frees the first three buffers of every cached tile program and the four buffers of every
workspace. A tile program has a fourth buffer, the one behind `btsp_handle`, which only its request
names: it is never freed. A buffer whose map is refused has been made by the kernel and is not kept
at all. The ledger of the device compares the buffers it holds with the buffers the kernel made;
every call either keeps the two in step or falls behind for good.
-/

namespace AneLinux.Runtime

open AneLinux.Support AneLinux.Staged

variable {α M : Type}

/-- The handles a program gives back. -/
def Program.handles (program : Program M) : List ℕ :=
  [program.cmd.handle, program.out.handle, program.src.handle]

/-- The handles a workspace gives back. -/
def Workspace.handles (workspace : Workspace M) : List ℕ :=
  [workspace.cmd.handle, workspace.out.handle, workspace.src.handle, workspace.btsp.handle]

namespace Device

/-- The handles `close` passes to `BO_FREE`, in order. -/
def held (device : Device α M) : List ℕ :=
  device.tileCache.flatMap (fun entry => entry.2.handles) ++
    device.blobSwapCache.flatMap (fun entry => entry.2.program.handles) ++
      device.workspaces.flatMap fun entry => entry.2.handles

/-- `Device.close`: the handles it frees and the device afterwards. -/
def close (device : Device α M) : List ℕ × Device α M :=
  (device.held, { device with workspaces := [], tileCache := [], blobSwapCache := [] })

/-- The number of cached programs. -/
def programs (device : Device α M) : ℕ := device.tileCache.length + device.blobSwapCache.length

end Device

/-- A call of one of the methods of a device. -/
inductive Call (α M : Type)
  | submit (command source : List M) (outputSize : ℕ) (descriptor : List M) (tdCount : ℕ)
  | gemm (weights : Array2 α) (activation : List α) (descriptor : List M)
  | gemm512 (weights : Array2 α) (activation : List α) (descriptor : List M)
  | tileGemm (key : TileKey) (weights : Array2 α) (activation : List α) (descriptor : List M) (inCols : ℕ)
  | blobSwapGemm (key : TileKey) (weights : Array2 α) (activation : List α) (descriptor : List M) (inCols : ℕ)

/-- The call makes a tile program, or gets to a buffer of no bytes. -/
def Call.Leaks : Call α M → Prop
  | .submit command source outputSize descriptor tdCount =>
    (tdSize ≤ descriptor.length ∧ 1 ≤ tdCount ∧ (tdCount - 1) * tdSpacing + tdSize < command.length) ∧
      (outputSize = 0 ∨ source.length = 0)
  | .gemm _ _ _ => False
  | .gemm512 _ _ _ => False
  | .tileGemm key weights _ _ inCols => FitsTile weights key inCols
  | .blobSwapGemm key weights _ _ inCols => FitsTile weights key inCols

variable {host : Host M} {s s' s'' : Device α M} {key : TileKey} {inCols : ℕ} {blob : BlobProgram α M} {leaks : Prop}
  {descriptor : List M}

namespace Device

section Ledger

/-- Two states of a device with the same buffers. -/
structure SameLedger (s s' : Device α M) : Prop where
  inits : s'.inits = s.inits
  held : s'.held = s.held
  programs : s'.programs = s.programs
  known : ∀ key, find s'.workspaces key = none ↔ find s.workspaces key = none

theorem SameLedger.refl (s : Device α M) : SameLedger s s := ⟨rfl, rfl, rfl, fun _ => Iff.rfl⟩

theorem SameLedger.trans (h : SameLedger s s') (h' : SameLedger s' s'') : SameLedger s s'' :=
  ⟨h'.inits.trans h.inits, h'.held.trans h.held, h'.programs.trans h.programs,
    fun key => (h'.known key).trans (h.known key)⟩

@[simp] theorem grown_held (n : ℕ) : (s.grown n).held = s.held := rfl

@[simp] theorem grown_programs (n : ℕ) : (s.grown n).programs = s.programs := rfl

/-- A logged submission changes no buffer. -/
theorem SameLedger.submissions (log : List (Submission M)) : SameLedger s { s with submissions := log } :=
  ⟨rfl, rfl, rfl, fun _ => Iff.rfl⟩

/-- A workspace written back under its key keeps its buffers. -/
theorem SameLedger.workspaces {key : WorkspaceKey} {old workspace : Workspace M}
    (hfind : find s.workspaces key = some old) (h : workspace.handles = old.handles) :
    SameLedger s { s with workspaces := assign s.workspaces key workspace } := by
  refine ⟨rfl, ?_, rfl, fun k => ?_⟩
  · simp only [Device.held, flatMap_assign_of_find Workspace.handles hfind h]
  · simp only [find_assign]
    by_cases hk : key = k
    · rw [if_pos hk, ← hk, hfind]
      simp
    · rw [if_neg hk]

/-- A tile program written back under its key keeps its buffers. -/
theorem SameLedger.tileCache {old program : Program M} (hfind : find s.tileCache key = some old)
    (h : program.handles = old.handles) : SameLedger s { s with tileCache := assign s.tileCache key program } := by
  refine ⟨rfl, ?_, ?_, fun _ => Iff.rfl⟩
  · simp only [Device.held, flatMap_assign_of_find Program.handles hfind h]
  · simp only [Device.programs, length_assign_of_find hfind]

/-- A blob program written back under its width keeps its buffers. -/
theorem SameLedger.blobSwapCache {old : BlobProgram α M} (hfind : find s.blobSwapCache inCols = some old)
    (h : blob.program.handles = old.program.handles) :
    SameLedger s { s with blobSwapCache := assign s.blobSwapCache inCols blob } := by
  refine ⟨rfl, ?_, ?_, fun _ => Iff.rfl⟩
  · simp only [Device.held, flatMap_assign_of_find (fun blob : BlobProgram α M => blob.program.handles) hfind h]
  · simp only [Device.programs, length_assign_of_find hfind]

end Ledger

section Effect

/-- The cached workspaces have a source and an output of some bytes. -/
def NoEmptyWorkspace (s : Device α M) : Prop :=
  ∀ key, find s.workspaces key ≠ none → key.outputSize ≠ 0 ∧ key.sourceSize ≠ 0

/-- What a call does to the buffers: it keeps some of the new ones, at most all but one of each new
program, and all of them unless it leaks. -/
structure Effect (host : Host M) (leaks : Prop) (s s' : Device α M) : Prop where
  kept : ∃ kept : List ℕ, List.Perm s'.held (s.held ++ kept.map host.handle) ∧ kept.Nodup ∧
    ∀ i ∈ kept, s.inits ≤ i ∧ i < s'.inits
  inits_le : s.inits ≤ s'.inits
  programs_le : s.programs ≤ s'.programs
  bound : s'.held.length + s'.programs + s.inits ≤ s.held.length + s.programs + s'.inits
  clean : ¬leaks → s'.held.length + s.inits = s.held.length + s'.inits ∧ s'.programs = s.programs
  lossy : leaks → 0 < s'.programs ∨ s'.held.length + s.inits < s.held.length + s'.inits
  noEmpty : NoEmptyWorkspace s'

theorem SameLedger.noEmptyWorkspace (h : SameLedger s s') (hs : NoEmptyWorkspace s) : NoEmptyWorkspace s' :=
  fun key hkey => hs key fun hnone => hkey ((h.known key).mpr hnone)

/-- The effect of a call with the same buffers; a leak has been made before it. -/
theorem SameLedger.effect (h : SameLedger s s') (hs : NoEmptyWorkspace s) (hleaks : leaks → 0 < s.programs) :
    Effect host leaks s s' where
  kept := ⟨[], by simp [h.held], List.nodup_nil, by simp⟩
  inits_le := h.inits.ge
  programs_le := h.programs.ge
  bound := by rw [h.inits, h.held, h.programs]
  clean _ := ⟨by rw [h.inits, h.held], h.programs⟩
  lossy hl := .inl (h.programs ▸ hleaks hl)
  noEmpty := h.noEmptyWorkspace hs

/-- An effect is not disturbed by changes that keep the buffers. -/
theorem Effect.same (h : Effect host leaks s s') (h' : SameLedger s' s'') : Effect host leaks s s'' where
  kept := by rw [h'.held, h'.inits]; exact h.kept
  inits_le := by rw [h'.inits]; exact h.inits_le
  programs_le := by rw [h'.programs]; exact h.programs_le
  bound := by rw [h'.inits, h'.held, h'.programs]; exact h.bound
  clean := by rw [h'.inits, h'.held, h'.programs]; exact h.clean
  lossy := by rw [h'.inits, h'.held, h'.programs]; exact h.lossy
  noEmpty := h'.noEmptyWorkspace h.noEmpty

/-- Buffers that are made and not kept. -/
theorem Effect.refused (hs : NoEmptyWorkspace s) (hleaks : leaks) {n : ℕ} (hn : 1 ≤ n) :
    Effect host leaks s (s.grown n) where
  kept := ⟨[], by simp, List.nodup_nil, by simp⟩
  inits_le := Nat.le_add_right _ _
  programs_le := Nat.le_refl _
  bound := by simp only [grown_inits, grown_held, grown_programs]; omega
  clean h := absurd hleaks h
  lossy _ := .inr (by simp only [grown_inits, grown_held]; omega)
  noEmpty := hs

/-- A new workspace keeps its four buffers. -/
theorem Effect.workspace [HalfMemory α M] (hs : NoEmptyWorkspace s) {key : WorkspaceKey}
    (hfind : find s.workspaces key = none) (hsizes : key.outputSize ≠ 0 ∧ key.sourceSize ≠ 0) (hleaks : ¬leaks) :
    Effect host leaks s
      { s.grown 4 with workspaces := assign s.workspaces key (newWorkspace host s key) } := by
  have hheld : held { s.grown 4 with workspaces := assign s.workspaces key (newWorkspace host s key) } =
      s.held ++ [s.inits + 0, s.inits + 1, s.inits + 2, s.inits + 3].map host.handle := by
    simp only [held, assign_of_find_none hfind, List.flatMap_append, List.append_assoc]
    rfl
  refine ⟨⟨_, .of_eq hheld, ?_, ?_⟩, Nat.le_add_right _ _, Nat.le_refl _, ?_, fun _ => ⟨?_, rfl⟩,
    fun h => absurd h hleaks, ?_⟩
  · simp
  · intro i hi
    simp only [List.mem_cons, List.not_mem_nil, or_false] at hi
    simp only [grown_inits]
    omega
  · rw [hheld]
    simp only [List.length_append, List.length_map, List.length_cons, List.length_nil, grown_inits]
    change _ + s.programs + _ ≤ _
    omega
  · rw [hheld]
    simp only [List.length_append, List.length_map, List.length_cons, List.length_nil, grown_inits]
    omega
  · intro k hk
    simp only [find_assign] at hk
    by_cases hkey : key = k
    · exact hkey ▸ hsizes
    · rw [if_neg hkey] at hk
      exact hs k hk

/-- A new program keeps three of its four buffers. -/
theorem Effect.program (hs : NoEmptyWorkspace s) (hleaks : leaks)
    (hheld : List.Perm s'.held (s.held ++ [s.inits, s.inits + 1, s.inits + 2].map host.handle))
    (hinits : s'.inits = s.inits + 4) (hprograms : s'.programs = s.programs + 1)
    (hworkspaces : s'.workspaces = s.workspaces) : Effect host leaks s s' := by
  have hlength : s'.held.length = s.held.length + 3 := by simpa using hheld.length_eq
  refine ⟨⟨_, hheld, by simp, ?_⟩, by omega, by omega, by omega, fun h => absurd hleaks h, fun _ => .inl (by omega), ?_⟩
  · intro i hi
    simp only [List.mem_cons, List.not_mem_nil, or_false] at hi
    omega
  · unfold NoEmptyWorkspace
    rw [hworkspaces]
    exact hs

/-- A submission returns the output buffer it was given, and logs itself. -/
theorem ioctlSubmit_triple {request : Request M} {cmd out src : Buffer M} {pre fail : Device α M → Prop}
    (h : ∀ t, pre t → ∀ log, pre { t with submissions := log }) :
    Method.Triple pre (ioctlSubmit host request cmd out src)
      (fun out' t => (out'.handle = out.handle ∧ out'.contents.length = out.contents.length) ∧ pre t) fail :=
  Method.Triple.change fun t ht => ⟨⟨rfl, by simp⟩, h t ht _⟩

/-- The buffers of the blob program of a width, while a call changes it. -/
structure Swaps (s : Device α M) (inCols : ℕ) (handles : List ℕ) (t : Device α M) : Prop where
  same : SameLedger s t
  cached : ∃ blob, find t.blobSwapCache inCols = some blob ∧ blob.program.handles = handles

theorem keepBlob_swaps {handles : List ℕ} (h : blob.program.handles = handles) :
    Method.Triple (Swaps s inCols handles) (keepBlob inCols blob) (fun _ => Swaps s inCols handles) (SameLedger s) := by
  refine Method.Triple.change fun t ht => ?_
  obtain ⟨old, hold, hhandles⟩ := ht.cached
  exact ⟨ht.same.trans (SameLedger.blobSwapCache hold (h.trans hhandles.symm)), blob, by simp [find_assign], h⟩

end Effect

section Rewrite

variable [HalfMemory α M] [Zero α]

/-- Rewriting the blob of a cached program keeps the buffers. -/
theorem rewriteBlob_swaps (key : TileKey) (weights : Array2 α) :
    Method.Triple (Swaps s inCols blob.program.handles) (rewriteBlob key weights inCols blob)
      (fun blob' t => blob'.program.handles = blob.program.handles ∧ Swaps s inCols blob.program.handles t)
      (SameLedger s) := by
  refine Method.Triple.bind (keepBlob_swaps rfl) fun _ => ?_
  refine Method.Triple.lift_bind (fun padded _ => ?_) fun t ht => ht.same
  refine Method.Triple.lift_bind (fun packed _ => ?_) fun t ht => ht.same
  refine Method.Triple.lift_bind (fun cmd hcmd => ?_) fun t ht => ht.same
  have hhandles : ({ blob.program with cmd } : Program M).handles = blob.program.handles := by
    simp only [Program.handles, Buffer.handle_writeAt hcmd]
  exact Method.Triple.bind (keepBlob_swaps hhandles) fun _ => Method.Triple.pure fun t ht => ⟨hhandles, ht⟩

end Rewrite

section Calls

variable [HalfMemory α M] [DecidableEq M]

/-- A run of a cached workspace keeps the buffers. -/
theorem runWorkspace_same {key : WorkspaceKey} {workspace : Workspace M}
    (hfind : find s.workspaces key = some workspace) (command source : List M) (outputSize : ℕ)
    (descriptor : List M) (tdCount : ℕ) :
    SameLedger s (runWorkspace host command source outputSize descriptor tdCount key workspace s).1 := by
  refine Method.Triple.always (fun t => SameLedger s t ∧ t.workspaces = s.workspaces) ?_
    ⟨SameLedger.refl s, rfl⟩
  refine Method.Triple.lift_bind (fun out hout => ?_) fun t ht => ht.1
  refine Method.Triple.lift_bind (fun cmd hcmd => ?_) fun t ht => ht.1
  refine Method.Triple.lift_bind (fun src hsrc => ?_) fun t ht => ht.1
  refine Method.Triple.lift_bind (fun btsp hbtsp => ?_) fun t ht => ht.1
  refine Method.Triple.read_bind fun pad => ?_
  refine Method.Triple.bind_value (ioctlSubmit_triple fun t ht log => ⟨ht.1.trans (.submissions log), ht.2⟩)
    fun out' hout' => ?_
  refine Method.Triple.bind (Method.Triple.change fun t ht => ?_) fun _ =>
    Method.Triple.lift (fun _ _ _ ht => ht) fun _ _ _ ht => ht
  refine ht.1.trans (SameLedger.workspaces (ht.2 ▸ hfind) ?_)
  rw [Workspace.handles, Workspace.handles, hout'.1, Buffer.handle_write hout, Buffer.handle_write hcmd,
    Buffer.handle_write hsrc, Buffer.handle_write hbtsp]

/-- The effect of `submit`. -/
theorem submit_effect (hs : NoEmptyWorkspace s) (command source : List M) (outputSize : ℕ) (descriptor : List M)
    (tdCount : ℕ) : Effect host (Call.Leaks (.submit command source outputSize descriptor tdCount : Call α M)) s
      (submit host command source outputSize descriptor tdCount s).1 := by
  unfold submit Call.Leaks
  by_cases hdescriptor : descriptor.length < tdSize
  · rw [if_pos hdescriptor]
    exact (SameLedger.refl s).effect hs fun h => by omega
  by_cases hcount : tdCount < 1
  · rw [if_neg hdescriptor, if_pos hcount]
    exact (SameLedger.refl s).effect hs fun h => by omega
  by_cases hcommand : command.length ≤ (tdCount - 1) * tdSpacing + tdSize
  · rw [if_neg hdescriptor, if_neg hcount, if_pos hcommand]
    exact (SameLedger.refl s).effect hs fun h => by omega
  rw [if_neg hdescriptor, if_neg hcount, if_neg hcommand]
  have hsize : tdSize ≠ 0 := by decide
  rcases @workspaceFor_cases α M _ host s
      ⟨command.length, source.length, outputSize, (tdCount - 1) * tdSpacing + descriptor.length⟩
    with ⟨workspace, hfind, heq⟩ | ⟨hfind, hsizes, heq⟩ | ⟨hfind, hzero, n, e, hn, heq⟩
  · rw [Method.bind_of_ok heq]
    have hsizes := hs _ (by rw [hfind]; exact Option.some_ne_none _)
    exact (runWorkspace_same hfind ..).effect hs fun h => by simp_all
  · rw [Method.bind_of_ok heq]
    refine (Effect.workspace hs hfind ⟨hsizes.2.1, hsizes.2.2.1⟩ fun h => ?_).same
      (runWorkspace_same (by simp [find_assign]) ..)
    exact h.2.elim hsizes.2.1 hsizes.2.2.1
  · rw [Method.bind_of_error heq]
    refine Effect.refused hs ⟨by omega, ?_⟩ hn
    rcases hzero with h | h | h | h
    · exact absurd (show command.length = 0 from h) (by omega)
    · exact .inl h
    · exact .inr h
    · exact absurd (show (tdCount - 1) * tdSpacing + descriptor.length = 0 from h) (by omega)

/-- The effect of a call that packs, places its source and submits buffers of some bytes. -/
theorem submitted_effect (hs : NoEmptyWorkspace s) {packed placed : Py (List α)} {command : List α → List M}
    {outputSize : ℕ} {tdCount : ℕ} (houtput : outputSize ≠ 0) (hplaced : ∀ source, placed = .ok source → source ≠ []) :
    Effect host False s ((do
      let packed ← Method.lift packed
      let source ← Method.lift placed
      let bytes ← submit host (command packed) (encode source) outputSize descriptor tdCount
      return outputRows bytes : Method (Device α M) (List α)) s).1 := by
  cases packed with
  | error e => exact (SameLedger.refl s).effect hs False.elim
  | ok packed =>
    cases placed with
    | error e => exact (SameLedger.refl s).effect hs False.elim
    | ok source =>
      simp only [Method.lift_ok_bind]
      have heffect := @submit_effect α M host s _ _ hs (command packed) (encode source) outputSize descriptor tdCount
      have hleaks :
          ¬Call.Leaks (.submit (command packed) (encode source) outputSize descriptor tdCount : Call α M) := by
        intro h
        have hlength := List.length_pos_iff.mpr (hplaced source rfl)
        rw [Call.Leaks, length_encode] at h
        omega
      rw [propext (iff_false_intro hleaks)] at heffect
      rcases hrun : submit host (command packed) (encode source) outputSize descriptor tdCount s with ⟨s', outcome⟩
      rw [hrun] at heffect
      cases outcome with
      | ok bytes => rw [Method.bind_of_ok hrun]; exact heffect
      | error e => rw [Method.bind_of_error hrun]; exact heffect

variable [Zero α]

/-- A run of a cached tile program keeps the buffers. -/
theorem runTile_same {program : Program M} (hfind : find s.tileCache key = some program) (activation : List α) :
    SameLedger s (runTile host key activation program s).1 := by
  refine Method.Triple.always (fun t => SameLedger s t ∧ t.tileCache = s.tileCache) ?_
    ⟨SameLedger.refl s, rfl⟩
  refine Method.Triple.lift_bind (fun source _ => ?_) fun t ht => ht.1
  refine Method.Triple.lift_bind (fun src hsrc => ?_) fun t ht => ht.1
  refine Method.Triple.lift_bind (fun out hout => ?_) fun t ht => ht.1
  refine Method.Triple.bind_value (ioctlSubmit_triple fun t ht log => ⟨ht.1.trans (.submissions log), ht.2⟩)
    fun out' hout' => ?_
  refine Method.Triple.bind (Method.Triple.change fun t ht => ?_) fun _ =>
    Method.Triple.lift_bind (fun bytes _ => Method.Triple.pure fun t ht => ht) fun t ht => ht
  refine ht.1.trans (SameLedger.tileCache (ht.2 ▸ hfind) ?_)
  simp only [Program.handles, hout'.1, Buffer.handle_writeAt hout, Buffer.handle_write hsrc]

/-- A run of a cached blob program keeps the buffers. -/
theorem runBlob_swaps {handles : List ℕ} (hblob : blob.program.handles = handles) (activation : List α) :
    Method.Triple (Swaps s inCols handles) (runBlob host activation inCols blob) (fun _ => SameLedger s)
      (SameLedger s) := by
  refine Method.Triple.lift_bind (fun source _ => ?_) fun t ht => ht.same
  refine Method.Triple.lift_bind (fun src hsrc => ?_) fun t ht => ht.same
  refine Method.Triple.lift_bind (fun out hout => ?_) fun t ht => ht.same
  refine Method.Triple.bind_value
    (ioctlSubmit_triple fun t ht log => ⟨ht.same.trans (.submissions log), ht.cached⟩) fun out' hout' => ?_
  have hhandles : ({ blob.program with src, out := out' } : Program M).handles = handles := by
    rw [← hblob]
    simp only [Program.handles, Buffer.handle_writeAt hsrc, hout'.1, Buffer.handle_writeAt hout]
  refine Method.Triple.bind (keepBlob_swaps hhandles) fun _ => ?_
  exact Method.Triple.lift_bind (fun bytes _ => Method.Triple.pure fun t ht => ht.same) fun t ht => ht.same

/-- A call on a cached blob program keeps the buffers. -/
theorem swapBlob_same (hfind : find s.blobSwapCache inCols = some blob) (key : TileKey) (weights : Array2 α)
    (activation : List α) :
    SameLedger s ((rewriteBlob key weights inCols blob >>= runBlob host activation inCols) s).1 := by
  refine Method.Triple.always (Swaps s inCols blob.program.handles) ?_ ⟨SameLedger.refl s, blob, hfind, rfl⟩
  exact Method.Triple.bind_value (rewriteBlob_swaps key weights) fun blob' hblob' => runBlob_swaps hblob' activation

/-- A placed source is as long as the vector it was placed in. -/
theorem length_placeSource {source placed : List α} {slots : ℕ} {activation : List α}
    (h : placeSource source slots activation = .ok placed) : placed.length = source.length := by
  unfold placeSource at h
  split at h
  · cases h
    exact List.length_mapIdx
  · cases h

/-- What is placed in a vector of zeros is not empty. -/
theorem placeSource_ne_nil {placed : List α} {n slots : ℕ} {activation : List α} (hn : 0 < n)
    (h : placeSource (List.replicate n 0) slots activation = .ok placed) : placed ≠ [] := by
  have hlength := length_placeSource h
  rw [List.length_replicate] at hlength
  exact List.ne_nil_of_length_pos (hlength ▸ hn)

/-- The effect of `gemm`. -/
theorem gemm_effect (hs : NoEmptyWorkspace s) (weights : Array2 α) (activation : List α) (descriptor : List M) :
    Effect host False s (gemm host weights activation descriptor s).1 := by
  unfold gemm
  split
  · exact (SameLedger.refl s).effect hs False.elim
  · exact submitted_effect hs (by decide) fun source hsource => placeSource_ne_nil (by decide) hsource

/-- The effect of `gemm512`. -/
theorem gemm512_effect (hs : NoEmptyWorkspace s) (weights : Array2 α) (activation : List α) (descriptor : List M) :
    Effect host False s (gemm512 host weights activation descriptor s).1 := by
  unfold gemm512
  split
  · exact (SameLedger.refl s).effect hs False.elim
  · exact submitted_effect hs (by decide) fun source hsource => placeSource_ne_nil (by decide) hsource

/-- The buffers after the first call of `tile_gemm` for a tile. -/
theorem tileGemm_made {weights : Array2 α} (hfind : find s.tileCache key = none) (hfits : FitsTile weights key inCols)
    (hdescriptor : descriptor ≠ []) (activation : List α) :
    SameLedger { s.grown 4 with
        tileCache := assign s.tileCache key (tileProgramOf host s key weights descriptor inCols) }
      (tileGemm host key weights activation descriptor inCols s).1 := by
  unfold tileGemm
  rw [Method.bind_of_ok (tileProgram_made hfind hfits hdescriptor)]
  exact runTile_same (by rw [find_assign, if_pos rfl]) activation

/-- The effect of `tile_gemm`. -/
theorem tileGemm_effect (hs : NoEmptyWorkspace s) (key : TileKey) (weights : Array2 α) (activation : List α)
    (descriptor : List M) (inCols : ℕ) :
    Effect host (FitsTile weights key inCols) s
      (tileGemm host key weights activation descriptor inCols s).1 := by
  rcases tileProgram_cases key weights descriptor inCols with
    ⟨program, hfind, heq⟩ | ⟨hfind, hfits, hdescriptor, -⟩ | ⟨-, hfits, e, heq⟩ | ⟨-, hfits, -, n, e, hn, heq⟩
  · rw [tileGemm, Method.bind_of_ok heq]
    exact (runTile_same hfind activation).effect hs fun _ =>
      Nat.add_pos_left (length_pos_of_find hfind) _
  · refine Effect.same (Effect.program hs hfits ?_ ?_ ?_ ?_) (tileGemm_made hfind hfits hdescriptor activation)
    · simp only [held, assign_of_find_none hfind, List.flatMap_append, List.flatMap_cons, List.flatMap_nil,
        List.append_nil, List.append_assoc]
      refine (List.perm_append_left_iff _).mpr ?_
      exact List.perm_append_comm.trans (.of_eq (List.append_assoc ..))
    · rfl
    · simp only [programs, assign_of_find_none hfind, List.length_append, List.length_singleton]
      exact Nat.add_right_comm ..
    · rfl
  · rw [tileGemm, Method.bind_of_error heq]
    exact (SameLedger.refl s).effect hs fun h => absurd h hfits
  · rw [tileGemm, Method.bind_of_error heq]
    exact Effect.refused hs hfits hn

/-- The effect of `blob_swap_gemm`. -/
theorem blobSwapGemm_effect (hs : NoEmptyWorkspace s) (key : TileKey) (weights : Array2 α) (activation : List α)
    (descriptor : List M) (inCols : ℕ) :
    Effect host (FitsTile weights key inCols) s
      (blobSwapGemm host key weights activation descriptor inCols s).1 := by
  unfold blobSwapGemm
  rcases blobProgram_cases key weights descriptor inCols with
    ⟨blob, hfind, heq⟩ | ⟨hfind, hfits, -, padded, -, heq⟩ | ⟨-, hfits, e, heq⟩ | ⟨-, hfits, -, n, e, hn, heq⟩
  · rw [Method.bind_of_ok heq]
    exact (swapBlob_same hfind key weights activation).effect hs fun _ =>
      Nat.add_pos_right _ (length_pos_of_find hfind)
  · rw [Method.bind_of_ok (heq _ rfl)]
    refine Effect.same (Effect.program hs hfits ?_ ?_ ?_ ?_)
      (swapBlob_same (by rw [find_assign, if_pos rfl]) key weights activation)
    · simp only [held, assign_of_find_none hfind, List.flatMap_append, List.flatMap_cons, List.flatMap_nil,
        List.append_nil, List.append_assoc]
      refine (List.perm_append_left_iff _).mpr ((List.perm_append_left_iff _).mpr ?_)
      exact List.perm_append_comm
    · rfl
    · simp only [programs, assign_of_find_none hfind, List.length_append, List.length_singleton]
      rfl
    · rfl
  · rw [Method.bind_of_error heq]
    exact (SameLedger.refl s).effect hs fun h => absurd h hfits
  · rw [Method.bind_of_error heq]
    exact Effect.refused hs hfits hn

end Calls

end Device

section Run

variable [HalfMemory α M] [DecidableEq M] [Zero α]

/-- The device after a call, whether it returns or raises. -/
def perform (host : Host M) (call : Call α M) (s : Device α M) : Device α M :=
  match call with
  | .submit command source outputSize descriptor tdCount =>
    (Device.submit host command source outputSize descriptor tdCount s).1
  | .gemm weights activation descriptor => (Device.gemm host weights activation descriptor s).1
  | .gemm512 weights activation descriptor => (Device.gemm512 host weights activation descriptor s).1
  | .tileGemm key weights activation descriptor inCols =>
    (Device.tileGemm host key weights activation descriptor inCols s).1
  | .blobSwapGemm key weights activation descriptor inCols =>
    (Device.blobSwapGemm host key weights activation descriptor inCols s).1

/-- The device after a sequence of calls. -/
def afterCalls (host : Host M) (s : Device α M) (calls : List (Call α M)) : Device α M :=
  calls.foldl (fun s call => perform host call s) s

/-- Every call has its effect. -/
theorem perform_effect (host : Host M) (hs : s.NoEmptyWorkspace) (call : Call α M) :
    Device.Effect host call.Leaks s (perform host call s) := by
  cases call with
  | submit command source outputSize descriptor tdCount =>
    exact Device.submit_effect hs command source outputSize descriptor tdCount
  | gemm weights activation descriptor => exact Device.gemm_effect hs weights activation descriptor
  | gemm512 weights activation descriptor => exact Device.gemm512_effect hs weights activation descriptor
  | tileGemm key weights activation descriptor inCols =>
    exact Device.tileGemm_effect hs key weights activation descriptor inCols
  | blobSwapGemm key weights activation descriptor inCols =>
    exact Device.blobSwapGemm_effect hs key weights activation descriptor inCols

end Run

namespace Device

/-- The buffers a device holds are different buffers it has made, and each program lacks one. -/
structure Ledger (host : Host M) (s : Device α M) : Prop where
  owned : ∃ owned : List ℕ, List.Perm s.held (owned.map host.handle) ∧ owned.Nodup ∧ ∀ i ∈ owned, i < s.inits
  bound : s.held.length + s.programs ≤ s.inits
  noEmpty : s.NoEmptyWorkspace

/-- The device holds as many buffers as it has made. -/
def Complete (s : Device α M) : Prop := s.held.length = s.inits

theorem ledger_fresh (host : Host M) (qid : Option ℕ) : Ledger host (fresh qid : Device α M) :=
  ⟨⟨[], .refl _, List.nodup_nil, by simp⟩, Nat.le_refl 0, fun _ h => absurd rfl h⟩

theorem Effect.ledger (h : Effect host leaks s s') (hs : Ledger host s) : Ledger host s' := by
  obtain ⟨kept, hheld, hnodup, hrange⟩ := h.kept
  obtain ⟨owned, howned, hnodup', hlt⟩ := hs.owned
  refine ⟨⟨owned ++ kept, ?_, ?_, ?_⟩, ?_, h.noEmpty⟩
  · rw [List.map_append]
    exact hheld.trans (howned.append_right _)
  · refine hnodup'.append hnodup fun i hi hi' => ?_
    exact absurd (hlt i hi) (Nat.not_lt.mpr (hrange i hi').1)
  · intro i hi
    rcases List.mem_append.mp hi with hi | hi
    · exact (hlt i hi).trans_le h.inits_le
    · exact (hrange i hi).2
  · have := h.bound
    have := hs.bound
    have := h.inits_le
    omega

/-- The device stays complete exactly through calls that do not leak. -/
theorem Effect.complete_iff (h : Effect host leaks s s') (hs : Ledger host s) :
    Complete s' ↔ Complete s ∧ ¬leaks := by
  have hbound := h.bound
  have hprograms := h.programs_le
  have hledger := hs.bound
  unfold Complete
  constructor
  · intro hcomplete
    refine ⟨by omega, fun hleaks => ?_⟩
    rcases h.lossy hleaks with hlossy | hlossy
    · omega
    · omega
  · rintro ⟨hcomplete, hleaks⟩
    have hclean := (h.clean hleaks).1
    omega

/-- A device that holds as many buffers as it has made frees each exactly once, and only such a
device does. -/
theorem Ledger.count_close_iff (h : Ledger host s) :
    (∀ n < s.inits, s.close.1.count (host.handle n) = 1) ↔ Complete s := by
  obtain ⟨owned, hheld, hnodup, hlt⟩ := h.owned
  have hcount (n : ℕ) : s.close.1.count (host.handle n) = owned.count n := by
    rw [show s.close.1 = s.held from rfl, hheld.count_eq, List.count_map_of_injective _ _ host.handle_injective]
  have hsubset : owned ⊆ List.range s.inits := fun i hi => List.mem_range.mpr (hlt i hi)
  have hsubperm := List.subperm_of_subset hnodup hsubset
  have hlength : s.held.length = owned.length := by rw [hheld.length_eq, List.length_map]
  simp only [hcount, Complete, hlength]
  constructor
  · intro hall
    have hback : List.range s.inits ⊆ owned := by
      intro n hn
      apply List.count_pos_iff.mp
      rw [hall n (List.mem_range.mp hn)]
      exact Nat.one_pos
    have hle := (List.subperm_of_subset List.nodup_range hback).length_le
    have hge := hsubperm.length_le
    rw [List.length_range] at hle hge
    exact Nat.le_antisymm hge hle
  · intro heq n hn
    have hperm := hsubperm.perm_of_length_le (by rw [List.length_range, heq])
    exact List.count_eq_one_of_mem hnodup (hperm.mem_iff.mpr (List.mem_range.mpr hn))

end Device

section Close

variable [HalfMemory α M] [DecidableEq M] [Zero α]

/-- A run keeps the ledger, and the device is complete after it exactly when no call leaked. -/
theorem afterCalls_ledger (host : Host M) (calls : List (Call α M)) (s : Device α M) (hs : s.Ledger host) :
    (afterCalls host s calls).Ledger host ∧
      ((afterCalls host s calls).Complete ↔ s.Complete ∧ ∀ call ∈ calls, ¬call.Leaks) := by
  induction calls generalizing s with
  | nil => exact ⟨hs, by simp [afterCalls]⟩
  | cons call calls ih =>
    have heffect := perform_effect host hs.noEmpty call
    obtain ⟨hledger, hcomplete⟩ := ih (perform host call s) (heffect.ledger hs)
    refine ⟨hledger, hcomplete.trans ?_⟩
    rw [heffect.complete_iff hs, List.forall_mem_cons, and_assoc]

/-- Closing the device frees every buffer object the device made exactly once, if and only if no
call made a tile program or got to a buffer of no bytes. -/
theorem close_frees_each_once_iff (host : Host M) (qid : Option ℕ) (calls : List (Call α M)) :
    (∀ n < (afterCalls host (Device.fresh qid) calls).inits,
        (afterCalls host (Device.fresh qid) calls).close.1.count (host.handle n) = 1) ↔
      ∀ call ∈ calls, ¬call.Leaks := by
  obtain ⟨hledger, hcomplete⟩ := afterCalls_ledger host calls (Device.fresh qid) (Device.ledger_fresh host qid)
  rw [hledger.count_close_iff, hcomplete]
  exact and_iff_right rfl

/-- The first tile program of a device takes four buffers and gives back three. -/
theorem afterCalls_oneTile (host : Host M) (qid : Option ℕ) {weights : Array2 α} (hfits : FitsTile weights key inCols)
    (hdescriptor : descriptor ≠ []) (activation : List α) :
    (afterCalls host (Device.fresh qid) [.tileGemm key weights activation descriptor inCols]).inits = 4 ∧
      (afterCalls host (Device.fresh qid) [.tileGemm key weights activation descriptor inCols]).close.1 =
        [host.handle 0, host.handle 1, host.handle 2] := by
  have hsame := @Device.tileGemm_made α M host (Device.fresh qid) key inCols descriptor _ _ _ weights rfl hfits
    hdescriptor activation
  exact ⟨hsame.inits, hsame.held⟩

end Close

/-- A kernel that counts its handles up from one, and an engine that answers with ones. -/
def countingHost : Host UInt8 where
  handle n := n + 1
  respond _ _ _ := 1
  handle_injective := Nat.succ_injective

/-- A `tile_gemm` call on one whole tile of zeros. -/
def oneTileCall : Call Half UInt8 :=
  .tileGemm ⟨0, 256, 0, 0⟩ ⟨512, 256, fun _ _ => 0⟩ (List.replicate 256 0) (List.replicate tdSize 0) 256

/-- One tile program makes four buffers; closing the device frees three of them. -/
theorem oneTileCall_leaks_btsp :
    (afterCalls countingHost (Device.fresh none) [oneTileCall]).inits = 4 ∧
      (afterCalls countingHost (Device.fresh none) [oneTileCall]).close.1 = [1, 2, 3] ∧
      (afterCalls countingHost (Device.fresh none) [oneTileCall]).close.1.count (countingHost.handle 3) = 0 := by
  have hfits : FitsTile (⟨512, 256, fun _ _ => 0⟩ : Array2 Half) ⟨0, 256, 0, 0⟩ 256 :=
    ⟨.inl rfl, .inl (Nat.zero_le _), .inl (Nat.zero_le _)⟩
  have hdescriptor : List.replicate tdSize (0 : UInt8) ≠ [] := by
    rw [Ne, List.replicate_eq_nil_iff]
    decide
  obtain ⟨hinits, hclose⟩ := afterCalls_oneTile countingHost none hfits hdescriptor (List.replicate 256 0)
  rw [oneTileCall, hinits, hclose]
  exact ⟨rfl, rfl, rfl⟩

end AneLinux.Runtime
