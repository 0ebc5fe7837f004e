import AneLinux.Runtime.Routes

/-!
# The blob swap has no memory

`blob_swap_gemm` works in one program per tile width: the padded tile, the packed blob, the source
vector and the command buffer are those of the earlier calls. What the last call of a run submits
depends on its own arguments only, and for the descriptors and activations that `gemm` and `gemm512`
take it is what they submit for the zero-padded tile. A descriptor that is longer than a whole
256-column command is the exception: `gemm` leaves its end behind the blob.
-/

namespace AneLinux.Runtime

open AneLinux.Support AneLinux.Staged

variable {α M : Type}

/-- The arguments of a `blob_swap_gemm` call, except the descriptor. -/
structure SwapCall (α : Type) where
  key : TileKey
  weights : Array2 α
  activation : List α
  inCols : ℕ

/-- The call with the descriptor of its width. -/
def SwapCall.call (descriptors : ℕ → List M) (swap : SwapCall α) : Call α M :=
  .blobSwapGemm swap.key swap.weights swap.activation (descriptors swap.inCols) swap.inCols

/-- The arguments that get a call to its submission. -/
def SwapCall.Accepted (descriptors : ℕ → List M) (swap : SwapCall α) : Prop :=
  FitsTile swap.weights swap.key swap.inCols ∧ Device.TakesActivation swap.inCols swap.activation ∧
    descriptors swap.inCols ≠ []

/-- The command and source bytes of what a call submits. -/
def submitted (s s' : Device α M) : List (List M × List M) :=
  (s'.submissions.drop s.submissions.length).map fun submission => (submission.command, submission.source)

variable {s : Device α M} {heap : ℕ → Array2 α} {swap : SwapCall α}

/-- A method that submits once has submitted the bytes it showed. -/
theorem submitted_of_submits [HalfMemory α M] [DecidableEq M] {host : Host M} {method : Method (Device α M) (List α)}
    {command source descriptor : List M} (h : Device.Submits host method s command source descriptor) :
    submitted s (method s).1 = [(command, source)] := by
  obtain ⟨submission, -, hlog, hcommand, hsource, -⟩ := h
  rw [submitted, hlog, List.drop_left, List.map_singleton, hcommand, hsource]

section Swap

variable [HalfMemory α M] [DecidableEq M] [Zero α] {host : Host M} {descriptors : ℕ → List M}

/-- The call of `gemm` or `gemm512` for the zero-padded tile. -/
def SwapCall.gemmCall (descriptors : ℕ → List M) (swap : SwapCall α) : Call α M :=
  let tile := Device.tileArray swap.inCols (paddedTile swap.weights swap.key.row0 swap.key.col0)
  if swap.inCols = 512 then .gemm512 tile swap.activation (descriptors swap.inCols)
  else .gemm tile swap.activation (descriptors swap.inCols)

/-- The device after a run of blob swaps. -/
def afterSwaps (host : Host M) (qid : Option ℕ) (descriptors : ℕ → List M) (swaps : List (SwapCall α)) :
    Device α M :=
  afterCalls host (Device.fresh qid) (swaps.map (SwapCall.call descriptors))

theorem afterSwaps_ready (host : Host M) (qid : Option ℕ) (descriptors : ℕ → List M) (swaps : List (SwapCall α))
    (heap : ℕ → Array2 α) : (afterSwaps host qid descriptors swaps).Ready descriptors heap := by
  refine afterCalls_ready host (fun call hcall => ?_) (Device.ready_fresh descriptors heap qid)
  obtain ⟨swap, -, rfl⟩ := List.mem_map.mp hcall
  rfl

/-- What an accepted call submits. -/
theorem submitted_of_accepted (hs : s.Ready descriptors heap) (h : swap.Accepted descriptors) :
    submitted s (perform host (swap.call descriptors) s) =
      [(tileBytes (descriptors swap.inCols) swap.inCols
        (paddedTile swap.weights swap.key.row0 swap.key.col0),
          encode (Device.stridedSource swap.inCols swap.activation))] :=
  submitted_of_submits (Device.blobSwapGemm_submits hs h.1 h.2.2 h.2.1)

/-- A served program submits nothing for arguments that do not fit. -/
theorem swapBlob_refused {descriptor : List M} {blob : BlobProgram α M} {key : TileKey} {weights : Array2 α}
    {activation : List α} {inCols : ℕ} (hblob : blob.Serves descriptor inCols)
    (h : ¬(FitsTile weights key inCols ∧ Device.TakesActivation inCols activation)) :
    ((Device.rewriteBlob key weights inCols blob >>= Device.runBlob host activation inCols) s).1.submissions =
      s.submissions := by
  by_cases hfits : FitsTile weights key inCols
  · obtain ⟨padded, heq⟩ := Device.rewriteBlob_of_fits hblob hfits
    have hslots : (Device.rewritten blob descriptor inCols padded
        (paddedTile weights key.row0 key.col0)).program.srcSlots = sourceSlots inCols :=
      hblob.program.slots
    rw [Method.bind_of_ok (heq _ rfl), Device.runBlob, hslots]
    obtain ⟨e, he⟩ := Device.placeSource_of_not_takes (fun htakes => h ⟨hfits, htakes⟩)
      (Device.rewritten blob descriptor inCols padded (paddedTile weights key.row0 key.col0)).source
    rw [he]
    rfl
  · obtain ⟨e, heq⟩ := Device.rewriteBlob_of_not_fits (α := α) (M := M) (s := s) hfits
    rw [Method.bind_of_error heq]

/-- A call that is not accepted submits nothing. -/
theorem submitted_of_not_accepted (hs : s.Ready descriptors heap) (h : ¬swap.Accepted descriptors) :
    submitted s (perform host (swap.call descriptors) s) = [] := by
  have hlog : (Device.blobSwapGemm host swap.key swap.weights swap.activation (descriptors swap.inCols)
      swap.inCols s).1.submissions = s.submissions := by
    unfold SwapCall.Accepted at h
    rcases Device.blobProgram_cases swap.key swap.weights (descriptors swap.inCols) swap.inCols with
      ⟨blob, hfind, heq⟩ | ⟨-, hfits, hdescriptor, padded, -, heq⟩ | ⟨-, -, e, heq⟩ | ⟨-, -, -, n, e, -, heq⟩
    · have hserves := hs.blobs swap.inCols blob hfind
      rw [Device.blobSwapGemm, Method.bind_of_ok heq]
      exact swapBlob_refused hserves fun haccepted => h ⟨haccepted.1, haccepted.2, hserves.nonempty⟩
    · have hserves := Device.newBlob_serves host s swap.key swap.weights hdescriptor hfits.1 padded
      rw [Device.blobSwapGemm, Method.bind_of_ok (heq _ rfl)]
      exact swapBlob_refused hserves fun haccepted => h ⟨haccepted.1, haccepted.2, hdescriptor⟩
    · rw [Device.blobSwapGemm, Method.bind_of_error heq]
    · rw [Device.blobSwapGemm, Method.bind_of_error heq]
      rfl
  change submitted s (Device.blobSwapGemm _ _ _ _ _ _ _).1 = []
  rw [submitted, hlog, List.drop_length, List.map_nil]

/-- What `gemm` or `gemm512` submits for the zero-padded tile. -/
theorem submitted_gemmCall (hs : s.Ready descriptors heap) (hwidth : swap.inCols = 256 ∨ swap.inCols = 512)
    (hactivation : swap.activation.length = swap.inCols) (hdescriptor : tdSize ≤ (descriptors swap.inCols).length) :
    submitted s (perform host (swap.gemmCall descriptors) s) =
      [(tileBytes (descriptors swap.inCols) swap.inCols
          (paddedTile swap.weights swap.key.row0 swap.key.col0) ++
            (if swap.inCols = 256 then (descriptors swap.inCols).drop (weightOffset + weightBytes) else []),
          encode (Device.stridedSource swap.inCols swap.activation))] := by
  obtain ⟨key, weights, activation, inCols⟩ := swap
  rcases hwidth with rfl | rfl
  · rw [if_pos rfl]
    exact submitted_of_submits (Device.gemm_submits hs.workspaces hdescriptor _ hactivation)
  · rw [if_neg (show ¬512 = 256 by decide), List.append_nil]
    exact submitted_of_submits (Device.gemm512_submits hs.workspaces hdescriptor _ hactivation)

/-- The last call of a run of blob swaps submits bytes that its own arguments determine. They are the
bytes `gemm` or `gemm512` submits for the zero-padded tile and the same activation, when the
descriptor is one they take and ends with the command. -/
theorem blobSwap_memoryless (host : Host M) (qid : Option ℕ) (descriptors : ℕ → List M)
    (earlier : List (SwapCall α)) (last : SwapCall α) :
    (∀ other : List (SwapCall α),
      submitted (afterSwaps host qid descriptors earlier)
          (perform host (last.call descriptors) (afterSwaps host qid descriptors earlier)) =
        submitted (afterSwaps host qid descriptors other)
          (perform host (last.call descriptors) (afterSwaps host qid descriptors other))) ∧
    (last.Accepted descriptors → last.activation.length = last.inCols →
      tdSize ≤ (descriptors last.inCols).length →
      (last.inCols = 256 → (descriptors last.inCols).length ≤ weightOffset + weightBytes) →
      ∃ command source,
        submitted (afterSwaps host qid descriptors earlier)
          (perform host (last.call descriptors) (afterSwaps host qid descriptors earlier)) = [(command, source)] ∧
        submitted (afterSwaps host qid descriptors earlier)
          (perform host (last.gemmCall descriptors) (afterSwaps host qid descriptors earlier)) =
            [(command, source)]) := by
  have hready := fun swaps => afterSwaps_ready host qid descriptors swaps fun _ : ℕ => last.weights
  refine ⟨fun other => ?_, fun haccepted hactivation hdescriptor hlength => ?_⟩
  · by_cases haccepted : last.Accepted descriptors
    · rw [submitted_of_accepted (hready earlier) haccepted, submitted_of_accepted (hready other) haccepted]
    · rw [submitted_of_not_accepted (hready earlier) haccepted, submitted_of_not_accepted (hready other) haccepted]
  · refine ⟨_, _, submitted_of_accepted (hready earlier) haccepted, ?_⟩
    rw [submitted_gemmCall (hready earlier) haccepted.1.1 hactivation hdescriptor]
    by_cases hwidth : last.inCols = 256
    · rw [if_pos hwidth, List.drop_of_length_le (hlength hwidth), List.append_nil]
    · rw [if_neg hwidth, List.append_nil]

end Swap

/-- A call on a whole tile of one value. -/
def wholeTileSwap (value : Half) : SwapCall Half :=
  { key := ⟨0, 256, 0, 0⟩, weights := ⟨512, 256, fun _ _ => value⟩, activation := List.replicate 256 value,
    inCols := 256 }

/-- A call on a matrix of one row and one column. -/
def raggedSwap : SwapCall Half :=
  { key := ⟨1, 256, 0, 0⟩, weights := ⟨1, 1, fun _ _ => 1⟩, activation := List.replicate 256 1, inCols := 256 }

/-- A descriptor of zeros, for every width. -/
def zeroDescriptor (n : ℕ) : ℕ → List UInt8 := fun _ => List.replicate n 0

@[simp] theorem length_zeroDescriptor (n inCols : ℕ) : (zeroDescriptor n inCols).length = n :=
  List.length_replicate

theorem accepted_of_zero {n : ℕ} (hn : n ≠ 0) {swap : SwapCall Half}
    (hcols : swap.inCols = 256) (hrow : swap.key.row0 = 0) (hcol : swap.key.col0 = 0)
    (hactivation : swap.activation.length = 256) : swap.Accepted (zeroDescriptor n) := by
  refine ⟨⟨.inl hcols, .inl (by omega), .inl (by omega)⟩, .inl ?_, fun hnil => hn ?_⟩
  · rw [hactivation, hcols]
    rfl
  · rw [← length_zeroDescriptor n swap.inCols, hnil, List.length_nil]

/-- After a whole tile, a ragged one submits what `gemm` submits for it. -/
theorem blobSwap_memoryless_ragged : ∃ command source,
    submitted (afterSwaps countingHost none (zeroDescriptor tdSize) [wholeTileSwap 3])
      (perform countingHost (raggedSwap.call (zeroDescriptor tdSize))
        (afterSwaps countingHost none (zeroDescriptor tdSize) [wholeTileSwap 3])) =
          [(command, source)] ∧
    submitted (afterSwaps countingHost none (zeroDescriptor tdSize) [wholeTileSwap 3])
      (perform countingHost (raggedSwap.gemmCall (zeroDescriptor tdSize))
        (afterSwaps countingHost none (zeroDescriptor tdSize) [wholeTileSwap 3])) =
          [(command, source)] := by
  refine (blobSwap_memoryless countingHost none (zeroDescriptor tdSize) [wholeTileSwap 3]
    raggedSwap).2 ?_ List.length_replicate ?_ fun _ => ?_
  · exact accepted_of_zero (by decide) rfl rfl rfl List.length_replicate
  · rw [length_zeroDescriptor]
  · rw [length_zeroDescriptor]
    decide

/-- With a descriptor one byte longer than a 256-column command, `gemm` submits one byte more. -/
theorem longDescriptor_submits_differ :
    submitted (afterSwaps countingHost none (zeroDescriptor (weightOffset + weightBytes + 1)) [])
      (perform countingHost ((wholeTileSwap 0).call (zeroDescriptor (weightOffset + weightBytes + 1)))
        (afterSwaps countingHost none (zeroDescriptor (weightOffset + weightBytes + 1)) [])) ≠
    submitted (afterSwaps countingHost none (zeroDescriptor (weightOffset + weightBytes + 1)) [])
      (perform countingHost ((wholeTileSwap 0).gemmCall (zeroDescriptor (weightOffset + weightBytes + 1)))
        (afterSwaps countingHost none (zeroDescriptor (weightOffset + weightBytes + 1)) [])) := by
  have hready := afterSwaps_ready countingHost none (zeroDescriptor (weightOffset + weightBytes + 1))
    [] fun _ => (wholeTileSwap 0).weights
  have haccepted : (wholeTileSwap 0).Accepted (zeroDescriptor (weightOffset + weightBytes + 1)) :=
    accepted_of_zero (Nat.succ_ne_zero _) rfl rfl rfl List.length_replicate
  have hdescriptor : tdSize ≤ (zeroDescriptor (weightOffset + weightBytes + 1) 256).length := by
    rw [length_zeroDescriptor]
    decide
  rw [submitted_of_accepted hready haccepted,
    submitted_gemmCall hready (.inl rfl) List.length_replicate hdescriptor,
    if_pos (show (wholeTileSwap 0).inCols = 256 from rfl)]
  intro heq
  have hlength := congrArg (fun pair => (pair.1 : List UInt8).length) (List.cons.inj heq).1
  simp only [List.length_append, List.length_drop, length_zeroDescriptor] at hlength
  omega

end AneLinux.Runtime
