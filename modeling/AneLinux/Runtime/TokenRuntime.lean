import AneLinux.Support.Ledger
import AneLinux.Runtime.MutableGemm

/-!
# What a failed token runtime leaves behind

`QwenTokenRuntime.__init__` builds an elementwise backend, four programs for every attention layer and one runner for
every recurrent layer, and closes what it has recorded when anything raises. The backend and the runners close what they
have allocated themselves; a `MutableGemm` does not, and the backend does so for an `Exception` only.
-/

namespace AneLinux.Runtime

open AneLinux.Support AneLinux.Support.Attempt AneLinux.Support.Ledger AneLinux.Staged

/-- `ELEMENTWISE_BYTES`. -/
def elementwiseBytes : ℕ := 0x4000

/-- The checks of `ElementwiseBackend.__init__`: every mode has a descriptor of the right size. -/
def checkDescriptors (descriptors : String → Option ℕ) : Py Unit :=
  let missing := ["add", "max", "mul", "sq"].filter fun mode => (descriptors mode).isNone
  if missing ≠ [] then
    raiseValue ("missing elementwise descriptors: [" ++ ", ".intercalate (missing.map fun mode => "'" ++ mode ++ "'") ++
      "]")
  else match ["add", "mul", "max", "sq"].find? fun mode => descriptors mode != some elementwiseBytes with
    | some mode => raiseValue s!"{mode} descriptor must be {elementwiseBytes} bytes"
    | none => .ok ()

/-- The buffers of an `ElementwiseBackend`. -/
structure ElementwiseBackend where
  output : ℕ
  left : ℕ
  right : ℕ
  descriptor : ℕ

/-- The buffers that `ElementwiseBackend.close` closes, in order. -/
def ElementwiseBackend.buffers (backend : ElementwiseBackend) : List ℕ :=
  [backend.output, backend.left, backend.right, backend.descriptor]

/-- `ElementwiseBackend.__init__`; call number `n` of `device.buffer` raises `e`. -/
def ElementwiseBackend.init (n : ℕ) (e : PyError) (descriptors : String → Option ℕ) :
    Direct Ledger PyError ElementwiseBackend := do
  call (checkDescriptors descriptors)
  let built ← Scope.guarded PyError.isException do
    let output ← Scope.enter n e
    let left ← Scope.enter n e
    let right ← Scope.enter n e
    let descriptor ← Scope.enter n e
    pure (⟨output, left, right, descriptor⟩ : ElementwiseBackend)
  pure built.1

/-- The buffers of a `MutableGemm`. -/
structure GemmBuffers where
  command : ℕ
  output : ℕ
  source : ℕ
  btsp : ℕ

/-- The buffers that `MutableGemm.close` closes, in order. -/
def GemmBuffers.buffers (gemm : GemmBuffers) : List ℕ := [gemm.command, gemm.output, gemm.source, gemm.btsp]

namespace MutableGemm

/-- The checks of `MutableGemm.__init__`. -/
def checkArguments (descriptor : Bytes) (outputRows : ℕ) (timeout : ℚ) : Py Unit :=
  if ¬(1 ≤ outputRows ∧ outputRows ≤ completionRow) then
    raiseValue s!"output_rows must be in 1..{completionRow}"
  else if descriptor.size < tdSize then
    raiseValue "descriptor is shorter than td_size"
  else if timeout ≤ 0 then
    raiseValue "timeout must be positive"
  else .ok ()

/-- `self.command.write(command)`. -/
def writeCommand (descriptor : Bytes) : Py Unit :=
  if (initialCommand descriptor).size = commandSize then .ok ()
  else raiseValue s!"buffer overflow: {(initialCommand descriptor).size} > {commandSize}"

end MutableGemm

/-- `MutableGemm.__init__`, as far as its buffers go. -/
def GemmBuffers.init (n : ℕ) (e : PyError) (descriptor : Bytes) (outputRows : ℕ) :
    Direct Ledger PyError GemmBuffers := do
  call (MutableGemm.checkArguments descriptor outputRows 10)
  let command ← acquire n e
  let output ← acquire n e
  let source ← acquire n e
  let btsp ← acquire n e
  call (MutableGemm.writeCommand descriptor)
  pure ⟨command, output, source, btsp⟩

/-- A recurrent artifact: whether it has a workspace, and how the steps of a construction end that make no buffer. -/
structure RecurrentArtifact where
  opened : Py Unit
  workspaceSize : ℕ
  copied : Py Unit
  bootstrap : Py Unit
  patched : Py Unit
  layout : Py Unit
  initialized : Py Unit

/-- The number of buffers of a runner. -/
def RecurrentArtifact.buffers (artifact : RecurrentArtifact) : ℕ := if artifact.workspaceSize = 0 then 4 else 5

/-- The buffer of the workspace, if there is one. -/
def enterWorkspace (n : ℕ) (e : PyError) (artifact : RecurrentArtifact) : Direct Scope PyError Unit :=
  if artifact.workspaceSize = 0 then pure ()
  else do
    let _ ← Scope.enter n e
    pure ()

/-- `ProjectionRunner.__init__`: the buffers on its stack. -/
def projectionRunner (n : ℕ) (e : PyError) (artifact : RecurrentArtifact) : Direct Ledger PyError (List ℕ) := do
  let built ← Scope.guarded (fun _ => true) do
    call artifact.opened
    let _command ← Scope.enter n e
    call artifact.copied
    enterWorkspace n e artifact
    let _source ← Scope.enter n e
    let _output ← Scope.enter n e
    call artifact.bootstrap
    let _btsp ← Scope.enter n e
    call artifact.patched
  pure built.2

/-- `RecurrentRunner.__init__`: a runner whose layout is refused is closed. -/
def recurrentRunner (n : ℕ) (e : PyError) (artifact : RecurrentArtifact) : Direct Ledger PyError (List ℕ) := do
  let stack ← projectionRunner n e artifact
  match artifact.layout with
  | .ok _ => pure stack
  | .error d => do
    change (Ledger.release stack.reverse)
    raise d

/-- A `QwenTokenRuntime` under construction: the device, and what it has recorded to close. -/
structure QwenTokenRuntime where
  device : Ledger
  closed : Bool
  elementwise : Option ElementwiseBackend
  programs : List GemmBuffers
  recurrentRunners : List (List ℕ)

/-- The arguments of the constructor. -/
structure TokenSetup where
  descriptor : Bytes
  elementwiseDescriptors : String → Option ℕ
  recurrentArtifact : RecurrentArtifact
  fullLayers : ℤ
  recurrentLayers : ℤ

namespace QwenTokenRuntime

/-- Call something that knows the device only. -/
def onDevice {α : Type} (x : Direct Ledger PyError α) : Direct QwenTokenRuntime PyError α := fun s =>
  ((x s.device).1, { s with device := (x s.device).2 })

/-- The buffers that are closed with the recorded parts, in order; a runner closes its stack from the top. -/
def owned (s : QwenTokenRuntime) : List ℕ :=
  s.recurrentRunners.flatMap List.reverse ++ s.programs.flatMap GemmBuffers.buffers ++
    s.elementwise.toList.flatMap ElementwiseBackend.buffers

/-- `close`. -/
def close (s : QwenTokenRuntime) : QwenTokenRuntime :=
  if s.closed then s else { s with device := s.device.release s.owned, closed := true }

/-- Build a `MutableGemm` and record it. -/
def addProgram (n : ℕ) (e : PyError) (descriptor : Bytes) (outputRows : ℕ) : Direct QwenTokenRuntime PyError Unit := do
  let program ← onDevice (GemmBuffers.init n e descriptor outputRows)
  change fun s => { s with programs := s.programs ++ [program] }

/-- The two programs of one head of an attention layer: `CONTEXT` rows for the scores and `ATTENTION_DIMENSION` for the
values. -/
def addHead (n : ℕ) (e : PyError) (descriptor : Bytes) : Direct QwenTokenRuntime PyError Unit := do
  addProgram n e descriptor 128
  addProgram n e descriptor 256

/-- Build a runner and record it. -/
def recordRunner (n : ℕ) (e : PyError) (artifact : RecurrentArtifact) : Direct QwenTokenRuntime PyError Unit := do
  let runner ← onDevice (recurrentRunner n e artifact)
  change fun s => { s with recurrentRunners := s.recurrentRunners ++ [runner] }

/-- A runner of a recurrent layer is given its state once it is recorded. -/
def addRunner (n : ℕ) (e : PyError) (artifact : RecurrentArtifact) : Direct QwenTokenRuntime PyError Unit := do
  recordRunner n e artifact
  call artifact.initialized

/-- Build the elementwise backend and record it. -/
def recordBackend (n : ℕ) (e : PyError) (descriptors : String → Option ℕ) : Direct QwenTokenRuntime PyError Unit := do
  let backend ← onDevice (ElementwiseBackend.init n e descriptors)
  change fun s => { s with elementwise := some backend }

/-- The `try` block of the constructor; an attention layer has `KV_HEADS` heads. -/
def build (n : ℕ) (e : PyError) (setup : TokenSetup) : Direct QwenTokenRuntime PyError Unit := do
  recordBackend n e setup.elementwiseDescriptors
  each (fun _ => each (fun _ => addHead n e setup.descriptor) (List.range 2)) (List.range setup.fullLayers.toNat)
  each (fun _ => addRunner n e setup.recurrentArtifact) (List.range setup.recurrentLayers.toNat)

/-- An object with nothing recorded, on a device that has made no buffer for it. -/
def fresh : QwenTokenRuntime where
  device := ⟨0, []⟩
  closed := false
  elementwise := none
  programs := []
  recurrentRunners := []

/-- `QwenTokenRuntime.__init__`: how it ends, and the object with the device it leaves behind. -/
def init (n : ℕ) (e : PyError) (setup : TokenSetup) : Py Unit × QwenTokenRuntime :=
  if setup.fullLayers < 0 ∨ setup.recurrentLayers < 0 then
    (raiseValue "layer counts must be non-negative", fresh)
  else match build n e setup fresh with
    | (.ok _, s) => (.ok (), s)
    | (.error d, s) => (.error d, s.close)

end QwenTokenRuntime

variable {n start : ℕ} {e : PyError}

section Parts

/-- A backend has four buffers; if making one of them raises an `Exception`, the ones before it are closed. -/
theorem ElementwiseBackend.init_constructs (descriptors : String → Option ℕ) :
    Constructs n e start (ElementwiseBackend.init n e descriptors) 4
      (fun backend => backend.buffers = List.range' start 4)
      (if e.isException then (List.range' start (n - start)).reverse else []) := by
  have hbody : Scope.Enters n e start (do
      let output ← Scope.enter n e
      let left ← Scope.enter n e
      let right ← Scope.enter n e
      let descriptor ← Scope.enter n e
      pure (⟨output, left, right, descriptor⟩ : ElementwiseBackend))
      (1 + (1 + (1 + (1 + 0)))) fun backend => backend.buffers = List.range' start 4 := by
    refine Scope.Enters.enter.bind fun output houtput => Scope.Enters.enter.bind fun left hleft =>
      Scope.Enters.enter.bind fun right hright => Scope.Enters.enter.bind fun descriptor hdescriptor =>
        Scope.Enters.pure ?_
    rw [ElementwiseBackend.buffers, houtput, hleft, hright, hdescriptor]
    rfl
  refine Constructs.call_bind fun _ => ?_
  exact (hbody.guarded PyError.isException).bind_step fun _ hbuilt => Constructs.pure hbuilt.1

/-- A `MutableGemm` has four buffers, and closes none of them when the next one raises. -/
theorem GemmBuffers.init_constructs (descriptor : Bytes) (outputRows : ℕ) :
    Constructs n e start (GemmBuffers.init n e descriptor outputRows) 4
      (fun gemm => gemm.buffers = List.range' start 4) [] := by
  have hbuffers : Constructs n e start (do
      let command ← acquire n e
      let output ← acquire n e
      let source ← acquire n e
      let btsp ← acquire n e
      call (MutableGemm.writeCommand descriptor)
      pure (⟨command, output, source, btsp⟩ : GemmBuffers))
      (1 + (1 + (1 + (1 + 0)))) (fun gemm => gemm.buffers = List.range' start 4) [] := by
    refine Constructs.acquire_bind ?_
    refine Constructs.acquire_bind ?_
    refine Constructs.acquire_bind ?_
    refine Constructs.acquire_bind ?_
    exact Constructs.call_bind fun _ => Constructs.pure rfl
  exact Constructs.call_bind fun _ => hbuffers

theorem enterWorkspace_enters (artifact : RecurrentArtifact) :
    Scope.Enters n e start (enterWorkspace n e artifact) (artifact.buffers - 4) fun _ => True := by
  rw [enterWorkspace, RecurrentArtifact.buffers]
  by_cases hworkspace : artifact.workspaceSize = 0
  · rw [if_pos hworkspace, if_pos hworkspace]
    exact Scope.Enters.pure trivial
  · rw [if_neg hworkspace, if_neg hworkspace]
    exact Scope.Enters.enter.bind fun _ _ => Scope.Enters.pure trivial

/-- A projection runner closes what it has made, whatever is raised. -/
theorem projectionRunner_constructs (artifact : RecurrentArtifact) :
    Constructs n e start (projectionRunner n e artifact) artifact.buffers
      (fun stack => stack = List.range' start artifact.buffers) (List.range' start (n - start)).reverse := by
  have hcount : 0 + (1 + (0 + (artifact.buffers - 4 + (1 + (1 + (0 + (1 + 0))))))) = artifact.buffers := by
    rw [RecurrentArtifact.buffers]
    split
    · rfl
    · rfl
  have hopened : Scope.Enters n e start (call (m := Id) artifact.opened) 0 fun _ => True := Scope.Enters.call _
  have hbody := hopened.bind fun _ _ =>
    Scope.Enters.enter.bind fun _ _ => (Scope.Enters.call artifact.copied).bind fun _ _ =>
      (enterWorkspace_enters artifact).bind fun _ _ => Scope.Enters.enter.bind fun _ _ =>
        Scope.Enters.enter.bind fun _ _ => (Scope.Enters.call artifact.bootstrap).bind fun _ _ =>
          Scope.Enters.enter.bind fun _ _ => Scope.Enters.call artifact.patched
  rw [hcount] at hbody
  exact (hbody.guarded fun _ => true).bind_step fun _ hbuilt => Constructs.pure hbuilt.2

/-- So does a recurrent runner. -/
theorem recurrentRunner_constructs (artifact : RecurrentArtifact) :
    Constructs n e start (recurrentRunner n e artifact) artifact.buffers
      (fun stack => stack = List.range' start artifact.buffers) (List.range' start (n - start)).reverse := by
  refine (projectionRunner_constructs artifact).bind_step fun stack hstack => ?_
  cases artifact.layout with
  | ok _ => exact Constructs.pure hstack
  | error d =>
    intro s hs hle
    exact .inl (hs.trans_le hle)

end Parts

namespace QwenTokenRuntime

/-- Every buffer made before number `n` has been closed once. -/
def ClosesEach (n : ℕ) (s : QwenTokenRuntime) : Prop := ∀ buffer < n, s.device.released.count buffer = 1

/-- Nothing is closed, and the recorded parts own the buffers made so far. -/
structure Owns (start : ℕ) (s : QwenTokenRuntime) : Prop where
  open_ : s.closed = false
  device : s.device = ⟨start, []⟩
  owned : s.owned.Perm (List.range start)

/-- From `start` buffers a statement records `k` more; when call number `n` raises in it, `close` leaves every earlier
buffer closed once exactly if `clean` holds. -/
def Builds (n : ℕ) (e : PyError) (clean : Prop) (start : ℕ) (x : Direct QwenTokenRuntime PyError Unit) (k : ℕ) : Prop :=
  ∀ s : QwenTokenRuntime, s.Owns start → start ≤ n → match x s with
    | (.ok _, s') => start + k ≤ n ∧ s'.Owns (start + k)
    | (.error d, s') => s'.device.acquired ≤ n ∨
      (d = e ∧ n < start + k ∧ s'.closed = false ∧ s'.device.acquired = n + 1 ∧ (ClosesEach n s'.close ↔ clean))

section Builds

variable {k l : ℕ} {clean : Prop}

theorem Builds.bind {x y : Direct QwenTokenRuntime PyError Unit} (hx : Builds n e clean start x k)
    (hy : Builds n e clean (start + k) y l) : Builds n e clean start (x >>= fun _ => y) (k + l) := by
  intro s hs hle
  have hfirst := hx s hs hle
  rcases hrun : x s with ⟨outcome, s'⟩
  rw [hrun] at hfirst
  cases outcome with
  | ok u =>
    rw [Direct.bind_of_ok hrun, ← Nat.add_assoc]
    exact hy s' hfirst.2 hfirst.1
  | error d =>
    rw [Direct.bind_of_error hrun]
    rcases hfirst with hother | ⟨hd, hlt, hrest⟩
    · exact .inl hother
    · exact .inr ⟨hd, by omega, hrest⟩

/-- A step that makes no buffer. -/
theorem Builds.call (r : Py Unit) : Builds n e clean start (Attempt.call (m := Id) r) 0 := by
  intro s hs hle
  cases r with
  | ok u => exact ⟨hle, hs⟩
  | error d =>
    left
    rw [hs.device]
    exact hle

/-- Rounds of a loop that all record the same number of buffers. -/
theorem Builds.each {x : Direct QwenTokenRuntime PyError Unit} {rounds : List ℕ}
    (h : ∀ i < rounds.length, Builds n e clean (start + i * k) x k) :
    Builds n e clean start (Attempt.each (fun _ => x) rounds) (rounds.length * k) := by
  induction rounds generalizing start with
  | nil =>
    rw [List.length_nil, Nat.zero_mul]
    exact fun s hs hle => ⟨hle, hs⟩
  | cons round rounds ih =>
    have hfirst := h 0 (Nat.zero_lt_succ _)
    rw [Nat.zero_mul, Nat.add_zero] at hfirst
    have hrest := ih fun i hi => by
      have hnext := h (i + 1) (Nat.succ_lt_succ hi)
      rwa [Nat.succ_mul, Nat.add_comm (i * k), ← Nat.add_assoc] at hnext
    rw [List.length_cons, Nat.succ_mul, Nat.add_comm (rounds.length * k)]
    exact hfirst.bind hrest

/-- With the buffers of a part that did not come about either all freed or all left, `close` closes each buffer once
exactly if they are freed or there are none. -/
theorem closesEach_close_iff {s : QwenTokenRuntime} {freed : List ℕ} (hle : start ≤ n) (hopen : s.closed = false)
    (hdevice : s.device = ⟨n + 1, freed⟩) (howned : s.owned.Perm (List.range start))
    (hfreed : freed = (List.range' start (n - start)).reverse ∨ freed = []) :
    ClosesEach n s.close ↔ (freed = [] → n = start) := by
  have hcount (buffer : ℕ) : s.close.device.released.count buffer =
      freed.count buffer + (List.range start).count buffer := by
    rw [close, hopen, if_neg Bool.false_ne_true, Ledger.release, hdevice, List.count_append, howned.count_eq]
  have hrange (buffer : ℕ) : (List.range start).count buffer = if buffer < start then 1 else 0 := by
    rw [List.nodup_range.count]
    simp only [List.mem_range]
  rw [ClosesEach]
  simp only [hcount, hrange]
  rcases hfreed with hall | hnone
  · refine iff_of_true (fun buffer hbuffer => ?_) fun hnil => ?_
    · rw [hall, List.count_reverse, (List.nodup_range' 1).count]
      simp only [List.mem_range'_1]
      split
      · rw [if_neg (by omega)]
      · rw [if_pos (by omega)]
    · rw [hall, List.reverse_eq_nil_iff, List.range'_eq_nil_iff] at hnil
      omega
  · rw [hnone]
    simp only [List.count_nil, Nat.zero_add, forall_const]
    constructor
    · intro heach
      by_contra hne
      have hlast := heach start (by omega)
      rw [if_neg (Nat.lt_irrefl start)] at hlast
      cases hlast
    · rintro rfl buffer hbuffer
      rw [if_pos hbuffer]

/-- A part that is constructed on the device and recorded. -/
theorem Builds.record {α : Type} {x : Direct Ledger PyError α} {record : α → QwenTokenRuntime → QwenTokenRuntime}
    {buffers : α → List ℕ} {freed : List ℕ}
    (hx : Constructs n e start x k (fun part => buffers part = List.range' start k) freed)
    (hrecord : ∀ part s, s.owned.Perm (List.range start) →
      (record part s).closed = s.closed ∧ (record part s).device = s.device ∧
        (record part s).owned.Perm (s.owned ++ buffers part))
    (hfreed : freed = (List.range' start (n - start)).reverse ∨ freed = [])
    (hclean : start ≤ n → n < start + k → (clean ↔ (freed = [] → n = start))) :
    Builds n e clean start (onDevice x >>= fun part => Attempt.change (record part)) k := by
  intro s hs hle
  have hpart := hx s.device (by rw [hs.device]) hle
  rcases hrun : x s.device with ⟨outcome, device⟩
  have hdevice : onDevice x s = (outcome, { s with device := device }) := by
    rw [onDevice, hrun]
  rw [hrun] at hpart
  cases outcome with
  | ok part =>
    obtain ⟨hroom, rfl, hbuffers⟩ := hpart
    rw [Direct.bind_of_ok hdevice]
    obtain ⟨hclosed, hledger, howned⟩ :=
      hrecord part { s with device := { s.device with acquired := start + k } } hs.owned
    refine ⟨hroom, hclosed.trans hs.open_, hledger.trans ?_, howned.trans ?_⟩
    · rw [hs.device]
    · rw [hbuffers, List.range_add, ← List.range'_eq_map_range]
      exact hs.owned.append_right _
  | error d =>
    rw [Direct.bind_of_error hdevice]
    rcases hpart with hother | ⟨hd, hlt, rfl⟩
    · exact .inl hother
    · refine .inr ⟨hd, hlt, hs.open_, rfl, ?_⟩
      rw [hclean hle hlt]
      refine closesEach_close_iff hle hs.open_ ?_ hs.owned hfreed
      rw [hs.device]
      rfl

end Builds

/-- When a failed construction closes every buffer: the failing call is not one of a backend that is interrupted, and is
the first one of a `MutableGemm` if it is one of a `MutableGemm` at all. -/
def CleansUp (n : ℕ) (e : PyError) (setup : TokenSetup) : Prop :=
  (1 ≤ n → n < 4 → e.isException = true) ∧ (4 ≤ n → n < 4 + 16 * setup.fullLayers.toNat → n % 4 = 0)

section Construction

variable {setup : TokenSetup}

theorem addProgram_builds (hstart : 4 ≤ start) (haligned : start % 4 = 0)
    (hend : start + 4 ≤ 4 + 16 * setup.fullLayers.toNat) (outputRows : ℕ) :
    Builds n e (CleansUp n e setup) start (addProgram n e setup.descriptor outputRows) 4 := by
  refine Builds.record (GemmBuffers.init_constructs setup.descriptor outputRows) (fun program s _ => ⟨rfl, rfl, ?_⟩)
    (.inr rfl) fun hle hlt => ?_
  · simp only [owned, List.flatMap_append, List.flatMap_singleton, List.append_assoc]
    exact (List.perm_append_comm.append_left _).append_left _
  · constructor
    · rintro ⟨-, hgemm⟩ -
      have hfirst := hgemm (by omega) (by omega)
      omega
    · intro hfirst
      have hn := hfirst rfl
      exact ⟨fun _ _ => by omega, fun _ _ => by omega⟩

theorem addHead_builds (hstart : 4 ≤ start) (haligned : start % 4 = 0)
    (hend : start + 8 ≤ 4 + 16 * setup.fullLayers.toNat) :
    Builds n e (CleansUp n e setup) start (addHead n e setup.descriptor) 8 :=
  (addProgram_builds hstart haligned (by omega) 128).bind (addProgram_builds (by omega) (by omega) (by omega) 256)

theorem addRunner_builds (hstart : 4 + 16 * setup.fullLayers.toNat ≤ start) :
    Builds n e (CleansUp n e setup) start (addRunner n e setup.recurrentArtifact) setup.recurrentArtifact.buffers := by
  have hrecord : Builds n e (CleansUp n e setup) start (recordRunner n e setup.recurrentArtifact)
      setup.recurrentArtifact.buffers := by
    refine Builds.record (recurrentRunner_constructs setup.recurrentArtifact) (fun runner s _ => ⟨rfl, rfl, ?_⟩)
      (.inl rfl) fun hle _ => ?_
    · simp only [owned, List.flatMap_append, List.flatMap_singleton, List.append_assoc]
      have hmoved := List.perm_append_comm.trans ((List.reverse_perm runner).append_left
        (s.programs.flatMap GemmBuffers.buffers ++ s.elementwise.toList.flatMap ElementwiseBackend.buffers))
      rw [List.append_assoc (s.programs.flatMap _)] at hmoved
      exact hmoved.append_left _
    · refine iff_of_true ⟨fun _ _ => by omega, fun _ _ => by omega⟩ fun hnil => ?_
      rw [List.reverse_eq_nil_iff, List.range'_eq_nil_iff] at hnil
      omega
  exact hrecord.bind (Builds.call setup.recurrentArtifact.initialized)

/-- The first part: nothing is recorded before it. -/
theorem recordBackend_builds :
    Builds n e (CleansUp n e setup) 0 (recordBackend n e setup.elementwiseDescriptors) 4 := by
  refine Builds.record (ElementwiseBackend.init_constructs setup.elementwiseDescriptors)
    (fun backend s howned => ⟨rfl, rfl, ?_⟩) ?_ fun _ hlt => ?_
  · rw [List.range_zero, List.perm_nil] at howned
    have hparts := howned
    rw [owned, List.append_eq_nil_iff, List.append_eq_nil_iff] at hparts
    rw [howned, owned, hparts.1.1, hparts.1.2]
    exact .of_eq (by simp)
  · cases e.isException
    · exact .inr rfl
    · exact .inl rfl
  · cases hexception : e.isException
    · rw [CleansUp, hexception]
      simp
      omega
    · rw [CleansUp, hexception]
      simp
      omega

/-- The whole construction. -/
theorem build_builds : Builds n e (CleansUp n e setup) 0 (build n e setup)
    (4 + (16 * setup.fullLayers.toNat + setup.recurrentLayers.toNat * setup.recurrentArtifact.buffers)) := by
  refine recordBackend_builds.bind ?_
  have hlayers : Builds n e (CleansUp n e setup) (0 + 4)
      (each (fun _ => each (fun _ => addHead n e setup.descriptor) (List.range 2))
        (List.range setup.fullLayers.toNat))
      ((List.range setup.fullLayers.toNat).length * ((List.range 2).length * 8)) := by
    refine Builds.each fun i hi => Builds.each fun j hj => addHead_builds ?_ ?_ ?_
    all_goals
      simp only [List.length_range] at hi hj ⊢
      omega
  rw [List.length_range, List.length_range] at hlayers
  have hcount : setup.fullLayers.toNat * (2 * 8) = 16 * setup.fullLayers.toNat := by omega
  rw [hcount] at hlayers
  refine hlayers.bind ?_
  have hrunners : Builds n e (CleansUp n e setup) (0 + 4 + 16 * setup.fullLayers.toNat)
      (each (fun _ => addRunner n e setup.recurrentArtifact) (List.range setup.recurrentLayers.toNat))
      ((List.range setup.recurrentLayers.toNat).length * setup.recurrentArtifact.buffers) :=
    Builds.each fun i _ => addRunner_builds (by omega)
  rwa [List.length_range] at hrunners

theorem acquired_close (s : QwenTokenRuntime) : s.close.device.acquired = s.device.acquired := by
  unfold close
  split
  · rfl
  · rfl

theorem owns_fresh : fresh.Owns 0 := ⟨rfl, rfl, List.Perm.refl _⟩

/-- When call number `n` of `device.buffer` raises, the constructor raises the same, and every buffer made before it has
been closed exactly once if and only if the construction cleans up. -/
theorem init_closesEach_iff (n : ℕ) (e : PyError) (setup : TokenSetup)
    (hcalled : (init n e setup).2.device.acquired = n + 1) :
    (init n e setup).1 = .error e ∧ (ClosesEach n (init n e setup).2 ↔ CleansUp n e setup) := by
  rw [init] at hcalled ⊢
  split at hcalled
  · cases hcalled
  rename_i hcounts
  rw [if_neg hcounts]
  have hbuild := (build_builds : Builds n e (CleansUp n e setup) 0 _ _) fresh owns_fresh (Nat.zero_le n)
  rcases hrun : build n e setup fresh with ⟨outcome, s⟩
  rw [hrun] at hbuild hcalled
  cases outcome with
  | ok u =>
    have hacquired : s.device.acquired = n + 1 := hcalled
    have hroom := hbuild.1
    rw [hbuild.2.device] at hacquired
    dsimp only at hacquired
    omega
  | error d =>
    rcases hbuild with hother | ⟨rfl, -, hopen, hacquired, hcloses⟩
    · have hacquired : s.close.device.acquired = n + 1 := hcalled
      rw [acquired_close] at hacquired
      omega
    · exact ⟨rfl, hcloses⟩

/-- A setup of one attention layer and one recurrent layer in which nothing else raises. -/
def plainSetup : TokenSetup where
  descriptor := Bytes.zeros tdSize
  elementwiseDescriptors _ := some elementwiseBytes
  recurrentArtifact := ⟨.ok (), 1, .ok (), .ok (), .ok (), .ok (), .ok ()⟩
  fullLayers := 1
  recurrentLayers := 1

/-- The second buffer of the runner fails. -/
theorem init_closesEach_iff_runner :
    (init 21 (.osError "ENOMEM") plainSetup).2.device.acquired = 22 ∧
      (init 21 (.osError "ENOMEM") plainSetup).1 = .error (.osError "ENOMEM") ∧
      (ClosesEach 21 (init 21 (.osError "ENOMEM") plainSetup).2 ↔ CleansUp 21 (.osError "ENOMEM") plainSetup) := by
  have hcalled : (init 21 (.osError "ENOMEM") plainSetup).2.device.acquired = 22 := by decide
  exact ⟨hcalled, init_closesEach_iff 21 (.osError "ENOMEM") plainSetup hcalled⟩

/-- The second buffer of the first `MutableGemm` fails, and the first one stays open. -/
theorem init_leaks :
    (init 5 (.osError "ENOMEM") plainSetup).2.device = ⟨6, [0, 1, 2, 3]⟩ ∧
      ¬ ClosesEach 5 (init 5 (.osError "ENOMEM") plainSetup).2 := by
  have hdevice : (init 5 (.osError "ENOMEM") plainSetup).2.device = ⟨6, [0, 1, 2, 3]⟩ := by decide
  refine ⟨hdevice, fun hcloses => ?_⟩
  have hfifth := hcloses 4 (by decide)
  rw [hdevice] at hfifth
  exact absurd hfifth (by decide)

end Construction

end QwenTokenRuntime

end AneLinux.Runtime
