import AneLinux.Anec.Header
import AneLinux.Hwx.Registers
import AneLinux.Hwx.TaskSearch

/-!
# Binding buffers to banks

Four submitters build a request by hand: the production probe, the projection runner, a stage
of the head-tail chain, and the sequential diagnostic loop. Each allocates a buffer for every
role and places its handle in a bank of the request. The header's geometry says which role a
bank has: outputs from bank 4, inputs after them. What the buffers contain is left out; a
splice of task zero and the bootstrap change contents, never a bank.
-/

namespace AneLinux.Anec

open AneLinux.Support AneLinux.Hwx

/-- What a submitter allocated a buffer for. -/
inductive Role
  | command
  | workspace
  | source
  | output
  | bootstrap
deriving DecidableEq, Repr

/-- A buffer object of the device. -/
structure BufferObject where
  role : Role
  size : ℕ
deriving DecidableEq, Repr

/-- A submission: task geometry, the bound banks, the bootstrap buffer and the queue bits. -/
structure Request where
  tskSize : ℕ
  tdCount : ℕ
  tdSize : ℕ
  handles : List (ℕ × BufferObject)
  bootstrap : BufferObject
  pad : ℕ
deriving DecidableEq, Repr

/-- The queue bits of a request. -/
def submissionPad (qid : Option ℕ) : ℕ :=
  match qid with
  | none => 0
  | some qid => 0x80 ||| qid

/-- The task bases of an artifact. -/
def taskBases (file : Bytes) (tskSize : ℕ) : Py (List ℕ) := findTaskOffsets file contentStart tskSize

/-- Bind the buffers of a list of surfaces to consecutive banks. -/
def bindSurfaces (role : Role) (handles : List (ℕ × BufferObject)) :
    ℕ → List Surface → List (ℕ × BufferObject)
  | _, [] => handles
  | bank, surface :: rest => bindSurfaces role (assign handles bank ⟨role, surface.bytes⟩) (bank + 1) rest

/-- The command bank, and the workspace bank when the program has a workspace. -/
def bindWorkspace (stage : Geometry) : List (ℕ × BufferObject) :=
  let handles := [(0, ⟨.command, stage.contentSize⟩)]
  if stage.workspaceSize = 0 then handles else assign handles 3 ⟨.workspace, stage.workspaceSize⟩

/-- The production probe: outputs at bank 4 on, inputs directly after. -/
def probeRequest (file : Bytes) (qid : Option ℕ) (tdSizeArg tdCountArg : Option ℤ) (tdStart : ℤ) :
    Py Request := do
  let header ← loadAnecHeader file
  let stage ← stageGeometry header
  let tdSize : ℤ := tdSizeArg.getD stage.tdSize
  let tdCount : ℤ := tdCountArg.getD stage.tdCount
  if tdCount < 1 ∨ tdSize < 1 ∨ (stage.taskStreamSize : ℤ) < tdSize then
    raiseValue "invalid task geometry"
  else do
    let bases ← taskBases file stage.taskStreamSize
    if bases.length ≠ stage.tdCount then
      raiseValue ("header has " ++ toString stage.tdCount ++ " tasks, found " ++ toString bases.length)
    else if tdStart < 0 ∨ (stage.tdCount : ℤ) < tdStart + tdCount then
      raiseValue "td range is out of range"
    else do
      let _ ← (bases.drop tdStart.toNat).mapM fun base =>
        decodeKdma (file.slice (contentStart + base) (contentStart + base + tdSize.toNat))
      let bootstrapSize := if tdStart = 0 then stage.taskStreamSize
        else (tdCount.toNat - 1) * 0x300 + tdSize.toNat
      let handles := bindSurfaces .output (bindWorkspace stage) 4 stage.outputSurfaces
      return {
        tskSize := stage.taskStreamSize
        tdCount := tdCount.toNat
        tdSize := tdSize.toNat
        handles := bindSurfaces .source handles (4 + stage.dstCount) stage.inputSurfaces
        bootstrap := ⟨.bootstrap, bootstrapSize⟩
        pad := submissionPad qid }

/-- The projection runner: one output at bank 4, one input at bank 5. -/
def projectionRequest (name : String) (file : Bytes) (qid : Option ℕ) : Py Request := do
  let header ← loadAnecHeader file
  let stage ← stageGeometry header
  if stage.srcCount ≠ 1 ∨ stage.dstCount ≠ 1 then
    raiseValue "projection must have one input and one output"
  else if stage.tdCount < 1 ∨ stage.tdSize < 1 ∨ stage.taskStreamSize < stage.tdSize then
    raiseValue "invalid task geometry"
  else if file.size < contentStart + stage.contentSize then
    raiseValue ("truncated artifact: " ++ name ++ " is " ++ toString file.size ++ " bytes, needs " ++
      toString (contentStart + stage.contentSize))
  else do
    let input ← index stage.inputSurfaces 0
    let output ← index stage.outputSurfaces 0
    let bases ← taskBases file stage.taskStreamSize
    if bases.length ≠ stage.tdCount then
      raiseValue ("header has " ++ toString stage.tdCount ++ " tasks, found " ++ toString bases.length)
    else
      return {
        tskSize := stage.taskStreamSize
        tdCount := stage.tdCount
        tdSize := stage.tdSize
        handles := assign (assign (bindWorkspace stage) 4 ⟨.output, output.bytes⟩) 5 ⟨.source, input.bytes⟩
        bootstrap := ⟨.bootstrap, stage.taskStreamSize⟩
        pad := submissionPad qid }

/-- The checks of the chain on one of its stages. -/
def validateChainStage (stage : Geometry) : Py Unit :=
  if stage.srcCount ≠ 1 ∨ stage.dstCount ≠ 1 then
    raiseValue ("expected one input and output, got " ++ toString stage.srcCount ++ "/" ++
      toString stage.dstCount)
  else if stage.tdCount < 1 ∨ stage.tdSize < 1 then raiseValue "invalid task geometry"
  else if stage.taskStreamSize < stage.tdSize then raiseValue "invalid task geometry"
  else if stage.workspaceSize = 0 then raiseValue "chain stage declares no workspace"
  else return ()

/-- A stage of the chain: the source at bank 4, the output at bank 5. -/
def runChainStage (file : Bytes) (stage : Geometry) (qid : Option ℕ) : Py Request := do
  let bases ← taskBases file stage.taskStreamSize
  if bases.length ≠ stage.tdCount then
    raiseValue ("header has " ++ toString stage.tdCount ++ " tasks, found " ++ toString bases.length)
  else do
    let input ← index stage.inputSurfaces 0
    let output ← index stage.outputSurfaces 0
    let handles := assign [(0, ⟨.command, stage.contentSize⟩)] 3 ⟨.workspace, stage.workspaceSize⟩
    return {
      tskSize := stage.taskStreamSize
      tdCount := stage.tdCount
      tdSize := stage.tdSize
      handles := assign (assign handles 4 ⟨.source, input.bytes⟩) 5 ⟨.output, output.bytes⟩
      bootstrap := ⟨.bootstrap, stage.taskStreamSize⟩
      pad := submissionPad qid }

/-- A tuple of numbers as an f-string prints it. -/
def tupleText (values : List ℕ) : String := "(" ++ ", ".intercalate (values.map toString) ++ ")"

/-- The tail's input has to be what the head's output holds. -/
def validateHandoff (head tail : Geometry) : Py Unit :=
  if head.srcCount ≠ 1 ∨ head.dstCount ≠ 1 then raiseValue "sequential chain stages must be single-port"
  else if tail.srcCount ≠ 1 ∨ tail.dstCount ≠ 1 then raiseValue "sequential chain stages must be single-port"
  else do
    let headOut ← index head.outputSurfaces 0
    let tailIn ← index tail.inputSurfaces 0
    if headOut.nchw ≠ tailIn.nchw then
      raiseValue ("handoff shape mismatch: head output " ++ tupleText headOut.nchw ++ " != tail source " ++
        tupleText tailIn.nchw)
    else if headOut.bytes < tailIn.bytes then
      raiseValue ("tail source buffer " ++ hex tailIn.bytes ++ " exceeds saved head output " ++
        hex headOut.bytes)
    else if head.workspaceSize = 0 ∨ tail.workspaceSize = 0 then
      raiseValue "chain stages must declare a workspace"
    else return ()

/-- The requests of a chain whose head stage completes, head first. -/
def chainRequests (headFile tailFile : Bytes) (qid : Option ℕ) : Py (Request × Request) := do
  let headHeader ← loadAnecHeader headFile
  let head ← stageGeometry headHeader
  let tailHeader ← loadAnecHeader tailFile
  let tail ← stageGeometry tailHeader
  validateChainStage head
  validateChainStage tail
  validateHandoff head tail
  let headRequest ← runChainStage headFile head qid
  let tailRequest ← runChainStage tailFile tail qid
  return (headRequest, tailRequest)

/-- The diagnostic loop: one request for every task of the range, the source at bank 4 and the
output at bank 5. -/
def diagnosticRequests (file : Bytes) (tdStart : ℤ) (tdCountArg : Option ℤ) : Py (List Request) := do
  let header ← loadAnecHeader file
  let count : ℤ := tdCountArg.getD (header.tdCount - tdStart)
  if tdStart < 0 ∨ count < 1 ∨ (header.tdCount : ℤ) < tdStart + count then
    raiseValue "task range is out of bounds"
  else do
    let source ← index header.tiles 5
    let output ← index header.tiles 4
    let workspace ← index header.tiles 3
    let _ ← taskBases file header.taskStreamSize
    let handles : List (ℕ × BufferObject) := [(0, ⟨.command, header.contentSize⟩)]
    let handles := if workspace * tileBytes = 0 then handles
      else assign handles 3 ⟨.workspace, workspace * tileBytes⟩
    return List.replicate count.toNat {
      tskSize := header.taskStreamSize
      tdCount := 1
      tdSize := header.tdSize
      handles := assign (assign handles 4 ⟨.source, source * tileBytes⟩) 5 ⟨.output, output * tileBytes⟩
      bootstrap := ⟨.bootstrap, header.tdSize⟩
      pad := 0x81 }

/-! ## The banks of a single-port program -/

/-- The role that the geometry gives a bank. -/
def bankRole (stage : Geometry) (bank : ℕ) : Option Role :=
  if bank ∈ stage.outputSurfaces.map Surface.bdx then some .output
  else if bank ∈ stage.inputSurfaces.map Surface.bdx then some .source
  else none

/-- The buffer in a bank has the role of the bank and at least its tiles. -/
def BankOk (stage : Geometry) (request : Request) (bank : ℕ) : Prop :=
  ∃ buffer, find request.handles bank = some buffer ∧ bankRole stage bank = some buffer.role ∧
    stage.tiles.getD bank 0 * tileBytes ≤ buffer.size

/-- Both surface banks of a single-port program are bound as the header declares. -/
def BanksOk (stage : Geometry) (request : Request) : Prop := BankOk stage request 4 ∧ BankOk stage request 5

/-- The surfaces of a single-port program: the output in bank 4, the input in bank 5. -/
structure SinglePort (stage : Geometry) : Prop where
  srcCount : stage.srcCount = 1
  dstCount : stage.dstCount = 1
  output : ∃ nchw, stage.outputSurfaces = [⟨4, stage.tiles.getD 4 0 * tileBytes, nchw⟩]
  input : ∃ nchw, stage.inputSurfaces = [⟨5, stage.tiles.getD 5 0 * tileBytes, nchw⟩]

variable {header : AnecHeader} {stage : Geometry} {file : Bytes} {qid : Option ℕ}

theorem surface_eq_ok {bdx : ℕ} {slot : Surface} (h : surface header bdx = .ok slot) :
    ∃ nchw, slot = ⟨bdx, header.tiles.getD bdx 0 * tileBytes, nchw⟩ := by
  obtain ⟨count, hcount, h⟩ := bind_eq_ok.mp h
  unfold index at hcount
  split at hcount
  · rename_i value hvalue
    cases hcount
    refine ⟨(header.nchw.drop (bdx * 6)).take 6, ?_⟩
    rw [List.getD_eq_getElem?_getD, hvalue, Option.getD_some]
    exact (Except.ok.inj h).symm
  · cases hcount

/-- The geometry of a single-port header. -/
theorem stageGeometry_singlePort (h : stageGeometry header = .ok stage) (hsrc : header.srcCount = 1)
    (hdst : header.dstCount = 1) : SinglePort stage := by
  rw [stageGeometry, hsrc, hdst] at h
  obtain ⟨outputs, houtputs, h⟩ := bind_eq_ok.mp h
  obtain ⟨inputs, hinputs, h⟩ := bind_eq_ok.mp h
  obtain ⟨workspace, -, h⟩ := bind_eq_ok.mp h
  have hone {bank : ℕ} {slots : List Surface}
      (hslots : (List.range' bank 1).mapM (surface header) = .ok slots) :
      ∃ nchw, slots = [⟨bank, header.tiles.getD bank 0 * tileBytes, nchw⟩] := by
    rw [List.range'_one, List.mapM_cons] at hslots
    obtain ⟨slot, hslot, hslots⟩ := bind_eq_ok.mp hslots
    obtain ⟨nchw, rfl⟩ := surface_eq_ok hslot
    exact ⟨nchw, (Except.ok.inj hslots).symm⟩
  cases h
  exact ⟨rfl, rfl, hone houtputs, hone hinputs⟩

/-- In a single-port program bank 4 is the output and bank 5 the input. -/
theorem SinglePort.bankRole_four (h : SinglePort stage) : bankRole stage 4 = some .output := by
  obtain ⟨nchw, houtput⟩ := h.output
  simp [bankRole, houtput]

theorem SinglePort.bankRole_five (h : SinglePort stage) : bankRole stage 5 = some .source := by
  obtain ⟨_, houtput⟩ := h.output
  obtain ⟨_, hinput⟩ := h.input
  simp [bankRole, houtput, hinput]

/-- Output at bank 4 and input at bank 5, each of its surface's bytes, is what the header declares. -/
theorem SinglePort.banksOk (h : SinglePort stage) {request : Request} {handles : List (ℕ × BufferObject)}
    (hhandles : request.handles = assign (assign handles 4 ⟨.output, stage.tiles.getD 4 0 * tileBytes⟩) 5
      ⟨.source, stage.tiles.getD 5 0 * tileBytes⟩) :
    BanksOk stage request := by
  refine ⟨⟨⟨.output, stage.tiles.getD 4 0 * tileBytes⟩, ?_, h.bankRole_four, Nat.le_refl _⟩,
    ⟨⟨.source, stage.tiles.getD 5 0 * tileBytes⟩, ?_, h.bankRole_five, Nat.le_refl _⟩⟩
  · rw [hhandles, find_assign, if_neg (by decide), find_assign, if_pos rfl]
  · rw [hhandles, find_assign, if_pos rfl]

/-- A source buffer at bank 4 is not what the header declares. -/
theorem SinglePort.not_banksOk (h : SinglePort stage) {request : Request} {handles : List (ℕ × BufferObject)}
    {sourceSize : ℕ} {output : BufferObject}
    (hhandles : request.handles = assign (assign handles 4 ⟨.source, sourceSize⟩) 5 output) :
    ¬ BanksOk stage request := by
  rintro ⟨⟨buffer, hbuffer, hrole, -⟩, -⟩
  rw [hhandles, find_assign, if_neg (by decide), find_assign, if_pos rfl] at hbuffer
  rw [h.bankRole_four, ← Option.some.inj hbuffer] at hrole
  cases hrole

/-! ## The four submitters -/

/-- The probe binds the surfaces of a single-port program where the header declares them. -/
theorem probeRequest_banksOk {tdSizeArg tdCountArg : Option ℤ} {tdStart : ℤ}
    (hheader : loadAnecHeader file = .ok header) (hstage : stageGeometry header = .ok stage)
    (hport : SinglePort stage) :
    Meets (probeRequest file qid tdSizeArg tdCountArg tdStart) (BanksOk stage) (fun _ => True) := by
  obtain ⟨outputNchw, houtput⟩ := hport.output
  obtain ⟨inputNchw, hinput⟩ := hport.input
  rw [probeRequest, hheader, ok_bind, hstage, ok_bind, houtput, hinput, hport.dstCount]
  refine Meets.guard trivial fun _ => ?_
  refine (Meets.any _).bind fun bases _ => ?_
  refine Meets.guard trivial fun _ => Meets.guard trivial fun _ => ?_
  refine (Meets.any _).bind fun _ _ => ?_
  exact hport.banksOk rfl

/-- The projection runner binds the surfaces of its program where the header declares them. -/
theorem projectionRequest_banksOk {name : String} (hheader : loadAnecHeader file = .ok header)
    (hstage : stageGeometry header = .ok stage) (hport : SinglePort stage) :
    Meets (projectionRequest name file qid) (BanksOk stage) (fun _ => True) := by
  obtain ⟨outputNchw, houtput⟩ := hport.output
  obtain ⟨inputNchw, hinput⟩ := hport.input
  rw [projectionRequest, hheader, ok_bind, hstage, ok_bind, houtput, hinput]
  refine Meets.guard trivial fun _ => Meets.guard trivial fun _ => Meets.guard trivial fun _ => ?_
  refine (Meets.any (taskBases file stage.taskStreamSize)).bind fun bases _ => ?_
  refine Meets.guard trivial fun _ => ?_
  exact hport.banksOk rfl

/-- A chain stage binds its source to the output's bank. -/
theorem runChainStage_not_banksOk (hport : SinglePort stage) :
    Meets (runChainStage file stage qid) (fun request => ¬ BanksOk stage request) (fun _ => True) := by
  refine (Meets.any _).bind fun bases _ => Meets.guard trivial fun _ => ?_
  refine (Meets.any _).bind fun input _ => (Meets.any _).bind fun output _ => ?_
  exact hport.not_banksOk rfl

/-- Every request of the diagnostic loop binds its source to the output's bank. -/
theorem diagnosticRequests_not_banksOk {tdStart : ℤ} {tdCountArg : Option ℤ} (hport : SinglePort stage) :
    Meets (diagnosticRequests file tdStart tdCountArg)
      (fun requests => requests ≠ [] ∧ ∀ request ∈ requests, ¬ BanksOk stage request) (fun _ => True) := by
  refine (Meets.any _).bind fun header _ => Meets.guard trivial fun hrange => ?_
  refine (Meets.any _).bind fun source _ => (Meets.any _).bind fun output _ => ?_
  refine (Meets.any _).bind fun workspace _ => (Meets.any _).bind fun bases _ => ?_
  refine ⟨fun hempty => ?_, fun request hrequest => ?_⟩
  · rw [List.replicate_eq_nil_iff] at hempty
    omega
  · rw [(List.mem_replicate.mp hrequest).2]
    exact hport.not_banksOk rfl

/-- On every single-port artifact the probe and the projection runner bind both surface banks
as the header declares, and no request of the chain or of the diagnostic loop does. -/
theorem submitters_bind_banks (file tailFile : Bytes) (name : String) (header : AnecHeader) (stage : Geometry)
    (qid : Option ℕ) (tdSizeArg tdCountArg : Option ℤ) (tdStart : ℤ)
    (hheader : loadAnecHeader file = .ok header) (hstage : stageGeometry header = .ok stage)
    (hsrc : header.srcCount = 1) (hdst : header.dstCount = 1) :
    (∀ request, probeRequest file qid tdSizeArg tdCountArg tdStart = .ok request → BanksOk stage request) ∧
    (∀ request, projectionRequest name file qid = .ok request → BanksOk stage request) ∧
    (∀ headRequest tailRequest, chainRequests file tailFile qid = .ok (headRequest, tailRequest) →
      ¬ BanksOk stage headRequest) ∧
    (∀ headRequest tailRequest, chainRequests tailFile file qid = .ok (headRequest, tailRequest) →
      ¬ BanksOk stage tailRequest) ∧
    (∀ requests, diagnosticRequests file tdStart tdCountArg = .ok requests →
      requests ≠ [] ∧ ∀ request ∈ requests, ¬ BanksOk stage request) := by
  have hport := stageGeometry_singlePort hstage hsrc hdst
  refine ⟨fun request h => (probeRequest_banksOk hheader hstage hport).value h,
    fun request h => (projectionRequest_banksOk hheader hstage hport).value h,
    fun headRequest tailRequest h => ?_, fun headRequest tailRequest h => ?_,
    fun requests h => (diagnosticRequests_not_banksOk hport).value h⟩
  · rw [chainRequests, hheader, ok_bind, hstage, ok_bind] at h
    obtain ⟨tailHeader, -, h⟩ := bind_eq_ok.mp h
    obtain ⟨tail, -, h⟩ := bind_eq_ok.mp h
    obtain ⟨_, -, h⟩ := bind_eq_ok.mp h
    obtain ⟨_, -, h⟩ := bind_eq_ok.mp h
    obtain ⟨_, -, h⟩ := bind_eq_ok.mp h
    obtain ⟨head, hhead, h⟩ := bind_eq_ok.mp h
    obtain ⟨_, -, h⟩ := bind_eq_ok.mp h
    cases h
    exact (runChainStage_not_banksOk hport).value hhead
  · obtain ⟨headHeader, -, h⟩ := bind_eq_ok.mp h
    obtain ⟨head, -, h⟩ := bind_eq_ok.mp h
    rw [hheader, ok_bind, hstage, ok_bind] at h
    obtain ⟨_, -, h⟩ := bind_eq_ok.mp h
    obtain ⟨_, -, h⟩ := bind_eq_ok.mp h
    obtain ⟨_, -, h⟩ := bind_eq_ok.mp h
    obtain ⟨_, -, h⟩ := bind_eq_ok.mp h
    obtain ⟨tail, htail, h⟩ := bind_eq_ok.mp h
    cases h
    exact (runChainStage_not_banksOk hport).value htail

/-- An artifact with one task, a workspace of one tile, an output of three and an input of two. -/
def singlePortArtifact : Bytes :=
  Bytes.ofFields 0x1110 [(0, 0x110), (8, 0x100), (12, 1), (16, 0x100), (24, 0x10), (32, 1), (36, 1), (52, 1),
    (56, 3), (60, 2), (0x1028, 0x1F800)]

theorem submitters_bind_banks_singlePort : ∃ stage request headRequest tailRequest,
    probeRequest singlePortArtifact none none none 0 = .ok request ∧ BanksOk stage request ∧
    chainRequests singlePortArtifact singlePortArtifact none = .ok (headRequest, tailRequest) ∧
    ¬ BanksOk stage headRequest := by
  obtain ⟨header, hheader, hports⟩ := @exists_ok_of_map _ _ _ (loadAnecHeader singlePortArtifact)
    (fun header => (header.srcCount, header.dstCount, (stageGeometry header).toBool)) (1, 1, true)
    (by decide +kernel)
  obtain ⟨hsrc, hdst, hstage⟩ :
      header.srcCount = 1 ∧ header.dstCount = 1 ∧ (stageGeometry header).toBool = true := by
    simpa only [Prod.mk.injEq] using hports
  obtain ⟨stage, hstage⟩ := exists_ok_of_toBool hstage
  obtain ⟨request, hrequest⟩ : ∃ request, probeRequest singlePortArtifact none none none 0 = .ok request :=
    exists_ok_of_toBool (by decide +kernel)
  obtain ⟨⟨headRequest, tailRequest⟩, hchain⟩ : ∃ requests,
      chainRequests singlePortArtifact singlePortArtifact none = .ok requests :=
    exists_ok_of_toBool (by decide +kernel)
  obtain ⟨hprobe, -, hhead, -⟩ := submitters_bind_banks singlePortArtifact singlePortArtifact "" header stage
    none none none 0 hheader hstage hsrc hdst
  exact ⟨stage, request, headRequest, tailRequest, hrequest, hprobe request hrequest, hchain,
    hhead headRequest tailRequest hchain⟩

/-- The chain binds the two-tile source to bank 4, whose output surface has three tiles. -/
theorem chain_swaps_banks : ∃ header stage headRequest tailRequest,
    loadAnecHeader singlePortArtifact = .ok header ∧ header.srcCount = 1 ∧ header.dstCount = 1 ∧
    stageGeometry header = .ok stage ∧
    chainRequests singlePortArtifact singlePortArtifact none = .ok (headRequest, tailRequest) ∧
    find headRequest.handles 4 = some ⟨.source, 2 * tileBytes⟩ ∧ bankRole stage 4 = some .output ∧
    stage.tiles.getD 4 0 = 3 := by
  obtain ⟨header, hheader, hports⟩ := @exists_ok_of_map _ _ _ (loadAnecHeader singlePortArtifact)
    (fun header => (header.srcCount, header.dstCount,
      (stageGeometry header).map fun stage => (bankRole stage 4, stage.tiles.getD 4 0)))
    (1, 1, .ok (some .output, 3)) (by decide +kernel)
  obtain ⟨hsrc, hdst, hstage⟩ : header.srcCount = 1 ∧ header.dstCount = 1 ∧ _ := by
    simpa only [Prod.mk.injEq] using hports
  obtain ⟨stage, hstage, hbank⟩ := exists_ok_of_map hstage
  obtain ⟨⟨headRequest, tailRequest⟩, hchain, hhandle⟩ := @exists_ok_of_map _ _ _
    (chainRequests singlePortArtifact singlePortArtifact none)
    (fun requests => find requests.1.handles 4) (some ⟨.source, 2 * tileBytes⟩) (by decide +kernel)
  obtain ⟨hrole, htiles⟩ := Prod.mk.inj hbank
  exact ⟨header, stage, headRequest, tailRequest, hheader, hsrc, hdst, hstage, hchain, hhandle, hrole, htiles⟩

end AneLinux.Anec
