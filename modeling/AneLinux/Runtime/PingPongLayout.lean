import AneLinux.Anec.Submit
import AneLinux.Runtime.StateRunners

/-!
# The two surfaces of a ping-pong artifact

The constructors of both runners read the two surfaces off the artifact's header and compare their
four dimensions. Each surface has strides and a buffer size of its own. A state that the engine wrote
through the output surface is read back through the source surface once the buffers are swapped, and
each buffer has to hold either view.
-/

namespace AneLinux.Runtime

open AneLinux.Support AneLinux.Staged AneLinux.Anec

/-- The surfaces of a runner and the bytes of their buffers. -/
structure Surfaces where
  source : Nchw
  output : Nchw
  sourceBytes : ℕ
  outputBytes : ℕ

/-- A mapping of a buffer object; one of no bytes is refused. -/
def mapBuffer (size : ℕ) : Py Unit := if size = 0 then .error (.osError "[Errno 22] Invalid argument") else .ok ()

/-- `ProjectionRunner.__init__`, up to the surfaces it keeps. -/
def projectionSurfaces (name : String) (file : Bytes) : Py Surfaces := do
  let header ← loadAnecHeader file
  let stage ← stageGeometry header
  if stage.srcCount ≠ 1 ∨ stage.dstCount ≠ 1 then
    raiseValue "projection must have one input and one output"
  else if stage.tdCount < 1 ∨ stage.tdSize < 1 ∨ stage.taskStreamSize < stage.tdSize then
    raiseValue "invalid task geometry"
  else if file.size < contentStart + stage.contentSize then
    raiseValue ("truncated artifact: " ++ name ++ " is " ++ toString file.size ++ " bytes, needs " ++
      toString (contentStart + stage.contentSize))
  else do
    let input ← index stage.inputSurfaces 0
    let output ← index stage.outputSurfaces 0
    mapBuffer stage.contentSize
    mapBuffer input.bytes
    mapBuffer output.bytes
    let bases ← taskBases file stage.taskStreamSize
    if bases.length ≠ stage.tdCount then
      raiseValue ("header has " ++ toString stage.tdCount ++ " tasks, found " ++ toString bases.length)
    else if file.size < contentStart + stage.taskStreamSize then
      raiseValue "task stream exceeds the artifact"
    else if stage.taskStreamSize < bases.getLastD 0 + 0x20 then
      raiseValue "terminal task header exceeds the task stream"
    else do
      let source ← Nchw.ofList input.nchw
      let target ← Nchw.ofList output.nchw
      return { source, output := target, sourceBytes := input.bytes, outputBytes := output.bytes }

/-- The two runners. -/
inductive Runner
  | recurrent
  | kv (kvHeads : ℕ)

namespace Runner

/-- The layout check of a runner. -/
def validateLayout (first second : ℕ) (surfaces : Surfaces) : Runner → Py Layout
  | .recurrent => RecurrentRunner.validateLayout surfaces.source surfaces.output
  | .kv kvHeads => KvStateRunner.validateLayout surfaces.source surfaces.output kvHeads first second

/-- The constructor of a runner whose source and output buffers get the handles `first` and `second`. -/
def construct (runner : Runner) (name : String) (file : Bytes) (first second : ℕ) : Py (Surfaces × Layout) := do
  let surfaces ← projectionSurfaces name file
  let layout ← runner.validateLayout first second surfaces
  return (surfaces, layout)

/-- The calls on a runner. -/
def Call : Runner → Type
  | .recurrent => RecurrentRunner.Call
  | .kv _ => KvStateRunner.Call

/-- The method a call runs. -/
def method (layout : Layout) (timeout : String) : (runner : Runner) → runner.Call → Method PingPong Unit
  | .recurrent => RecurrentRunner.Call.method layout timeout
  | .kv kvHeads => KvStateRunner.Call.method layout timeout kvHeads

/-- The call is a step. -/
def IsStep : (runner : Runner) → runner.Call → Prop
  | .recurrent, .step _ _ => True
  | .kv _, .step _ _ _ => True
  | _, _ => False

/-- What a snapshot of a runner returns. -/
def State : Runner → Type
  | .recurrent => Tensor
  | .kv _ => Tensor × Tensor

/-- The snapshot made of the state rows. -/
def state (layout : Layout) : (runner : Runner) → Tensor → runner.State
  | .recurrent => id
  | .kv _ => KvStateRunner.caches layout

/-- `snapshot_state` or `snapshot_cache`. -/
def snapshot (layout : Layout) (s : PingPong) : (runner : Runner) → Py runner.State
  | .recurrent => RecurrentRunner.snapshotState layout s
  | .kv _ => KvStateRunner.snapshotCache layout s

end Runner

namespace Layout

/-- The state rows the engine wrote, through the strides of the output surface. -/
def writtenRows (layout : Layout) (contents : Bytes) : Tensor :=
  layout.onState fun head row col => halfAt contents (layout.output.address ⟨head, layout.firstState + row, col⟩)

end Layout

/-- After every successful step of every run the snapshot is what the engine wrote, and both buffers
are large enough for either view. -/
structure ReadsBack (runner : Runner) (surfaces : Surfaces) (layout : Layout) (first second : ℕ) : Prop where
  fits : ∀ v ∈ [surfaces.source, surfaces.output], v.Representable ∧
    v.extent ≤ surfaces.sourceBytes ∧ v.extent ≤ surfaces.outputBytes
  reads : ∀ (timeout : String) (handles : ℕ → ℕ) (memory : ℕ → Bytes),
    (memory first).size = surfaces.sourceBytes → (memory second).size = surfaces.outputBytes →
    ∀ (calls : List runner.Call) (call : runner.Call), runner.IsStep call →
      let before := Method.runAll (calls.map (runner.method layout timeout))
        (PingPong.allocated first second handles memory)
      let after := runner.method layout timeout call before.1
      after.2.isOk = true →
      runner.snapshot layout after.1 =
        .ok (runner.state layout (layout.writtenRows (after.1.memory after.1.source)))

/-- The two surfaces place every value at the same offset. -/
def Surfaces.SameStrides (surfaces : Surfaces) : Prop :=
  surfaces.source.rowStride = surfaces.output.rowStride ∧
    (surfaces.source.channels = 1 ∨ surfaces.source.planeStride = surfaces.output.planeStride)

/-! ## Sizes of the buffers -/

variable {first second : ℕ} {surfaces : Surfaces} {s : PingPong} {runner : Runner} {layout : Layout}

namespace PingPong

/-- The sizes of the buffer objects are as before. -/
def SameSizes (s s' : PingPong) : Prop := ∀ handle, (s'.memory handle).size = (s.memory handle).size

theorem size_update {memory : ℕ → Bytes} {target : ℕ} {contents : Bytes}
    (h : contents.size = (memory target).size) (handle : ℕ) :
    (Function.update memory target contents handle).size = (memory handle).size := by
  by_cases heq : handle = target
  · rw [heq, Function.update_self, h]
  · rw [Function.update_of_ne heq]

/-- Staging keeps the sizes. -/
theorem sameSizes_stage (layout : Layout) (cells : List (Place × Half)) (s : PingPong) :
    SameSizes s (s.stage layout cells) := size_update (size_assignCells ..)

/-- A call of the engine keeps them. -/
theorem sameSizes_worked (layout : Layout) (cells : List (Place × Half)) (respond : Bytes → Bytes → Answer)
    (s : PingPong) : SameSizes s (worked layout cells respond s).1 := by
  intro handle
  refine (size_update ?_ handle).trans ((size_update ?_ handle).trans (sameSizes_stage layout cells s handle))
  · exact Bytes.size_ofFn ..
  · exact size_assignCells ..

/-- The two buffers are bound and have their sizes. -/
structure Sized (first second : ℕ) (surfaces : Surfaces) (s : PingPong) : Prop where
  bound : Bound first second s
  source : (s.memory first).size = surfaces.sourceBytes
  output : (s.memory second).size = surfaces.outputBytes

section Sized

theorem Sized.with_memory (h : Sized first second surfaces s) {memory : ℕ → Bytes}
    (hsizes : SameSizes s { s with memory }) : Sized first second surfaces { s with memory } :=
  ⟨h.bound.with_memory memory, (hsizes first).trans h.source, (hsizes second).trans h.output⟩

/-- So does swapping the surfaces. -/
theorem Sized.swapped (h : Sized first second surfaces s) : Sized first second surfaces s.swapped :=
  ⟨h.bound.swapped, h.source, h.output⟩

/-- The source buffer has the size of one of the two surfaces. -/
theorem Sized.size_source (h : Sized first second surfaces s) :
    (s.memory s.source).size = surfaces.sourceBytes ∨ (s.memory s.source).size = surfaces.outputBytes := by
  rcases h.bound.pair with ⟨hsource, -⟩ | ⟨hsource, -⟩
  · rw [hsource]
    exact .inl h.source
  · rw [hsource]
    exact .inr h.output

/-- Filling keeps the surfaces' sizes. -/
theorem fill_sized (layout : Layout) (cells : List (Place × Half)) :
    Method.Triple (Sized first second surfaces) (fill layout cells) (fun _ => Sized first second surfaces)
      (Sized first second surfaces) := by
  refine Method.Triple.read_bind fun view => Method.Triple.lift_bind (fun _ _ => ?_) fun s hs => hs
  exact Method.Triple.change fun s hs => hs.with_memory (sameSizes_stage layout cells s)

/-- A step keeps the surfaces' sizes. -/
theorem advance_sized (layout : Layout) (timeoutText nonFiniteText : String) (cells : List (Place × Half))
    (respond : Bytes → Bytes → Answer) :
    Method.Triple (Sized first second surfaces) (advance layout timeoutText nonFiniteText cells respond)
      (fun _ => Sized first second surfaces) (Sized first second surfaces) := by
  intro s hs
  have hworked := hs.with_memory (sameSizes_worked layout cells respond s)
  rcases advance_cases layout timeoutText nonFiniteText cells respond s with
    ⟨e, he⟩ | ⟨e, he⟩ | ⟨e, he⟩ | ⟨-, -, -, -, hok⟩
  · rw [he]
    exact hs
  · rw [he]
    exact hs.with_memory (sameSizes_stage layout cells s)
  · rw [he]
    exact hworked
  · rw [hok]
    exact hworked.swapped

end Sized

end PingPong

namespace Runner

/-- Every call keeps the buffers and their sizes. -/
theorem method_sized (layout : Layout) (timeout : String) (runner : Runner) (call : runner.Call)
    (hs : s.Sized first second surfaces) : (runner.method layout timeout call s).1.Sized first second surfaces := by
  refine Method.Triple.always (PingPong.Sized first second surfaces) ?_ hs
  cases runner with
  | recurrent =>
    cases call with
    | initializeState state =>
      exact Method.Triple.lift_bind (fun _ _ => PingPong.fill_sized _ _) fun s hs => hs
    | step inputs respond =>
      refine Method.Triple.bind ?_ fun _ => Method.Triple.pure fun s hs => hs
      refine Method.Triple.lift_bind (fun _ _ => ?_) fun s hs => hs
      refine Method.Triple.lift_bind (fun _ _ => ?_) fun s hs => hs
      refine Method.Triple.lift_bind (fun _ _ => ?_) fun s hs => hs
      refine Method.Triple.lift_bind (fun _ _ => ?_) fun s hs => hs
      exact Method.Triple.lift_bind (fun _ _ => PingPong.advance_sized _ _ _ _ _) fun s hs => hs
  | kv kvHeads =>
    cases call with
    | initializeCache => exact PingPong.fill_sized _ _
    | step key value respond =>
      refine Method.Triple.lift_bind (fun _ _ => ?_) fun s hs => hs
      refine Method.Triple.lift_bind (fun _ _ => ?_) fun s hs => hs
      exact Method.Triple.bind (PingPong.advance_sized _ _ _ _ _) fun _ => Method.Triple.pure fun s hs => hs

/-- Every run keeps the buffers and their sizes. -/
theorem runAll_sized (layout : Layout) (timeout : String) (runner : Runner) (calls : List runner.Call)
    (hs : s.Sized first second surfaces) :
    (Method.runAll (calls.map (runner.method layout timeout)) s).1.Sized first second surfaces := by
  induction calls generalizing s with
  | nil => exact hs
  | cons call calls ih => exact ih (runner.method_sized layout timeout call hs)

/-! ## What the constructors establish -/

/-- An accepted artifact: a valid layout over the two surfaces, with a first state row in every snapshot. -/
structure Accepted (runner : Runner) (surfaces : Surfaces) (layout : Layout) : Prop where
  valid : layout.Valid
  source : layout.source = surfaces.source
  output : layout.output = surfaces.output
  inputs : 0 < layout.firstState
  firstRow : ∀ states others, runner.state layout states = runner.state layout others →
    ∀ head col, states head 0 col = others head 0 col

/-- A runner that is built accepts its surfaces. -/
theorem construct_eq_ok {name : String} {file : Bytes}
    (h : runner.construct name file first second = .ok (surfaces, layout)) : Accepted runner surfaces layout := by
  obtain ⟨surfaces', -, h⟩ := bind_eq_ok.mp h
  obtain ⟨layout', hlayout, h⟩ := bind_eq_ok.mp h
  obtain ⟨rfl, rfl⟩ := Prod.mk.inj (Except.ok.inj h)
  cases runner with
  | recurrent =>
    obtain ⟨hfields, -⟩ := RecurrentRunner.validateLayout_eq_ok hlayout
    refine ⟨RecurrentRunner.valid_of_validateLayout hlayout, by rw [hfields], by rw [hfields],
      hfields ▸ Nat.succ_pos _, ?_⟩
    intro states others heq head col
    exact congrFun (congrFun (congrFun heq head) 0) col
  | kv kvHeads =>
    obtain ⟨hfields, -, -, -, hheight, -⟩ := KvStateRunner.validateLayout_eq_ok hlayout
    refine ⟨KvStateRunner.valid_of_validateLayout hlayout, by rw [hfields], by rw [hfields],
      hfields ▸ Nat.succ_pos _, ?_⟩
    intro states others heq head col
    have hkeys := congrFun (congrFun (congrFun (congrArg Prod.fst heq) head) 0) col
    have hcontext : 0 < (layout'.source.height - 3) / 2 := by
      rw [hfields]
      change 0 < (surfaces'.source.height - 3) / 2
      omega
    change (if 0 < _ then states head (0 + 0) col else 0) = (if 0 < _ then others head (0 + 0) col else 0) at hkeys
    rw [if_pos hcontext, if_pos hcontext] at hkeys
    exact hkeys

/-- A snapshot is made of the state rows of the source. -/
theorem snapshot_eq_map (layout : Layout) (s : PingPong) (runner : Runner) :
    runner.snapshot layout s = (s.snapshot layout).map (runner.state layout) := by
  cases runner with
  | recurrent =>
    change s.snapshot layout = _
    cases s.snapshot layout with
    | ok rows => rfl
    | error e => rfl
  | kv kvHeads => exact KvStateRunner.snapshotCache_eq_map layout s

end Runner

namespace Surfaces

/-- Equal strides give equal offsets. -/
theorem SameStrides.address_eq (h : surfaces.SameStrides) {p : Place} (hp : surfaces.source.Inside p) :
    surfaces.source.address p = surfaces.output.address p := by
  obtain ⟨hrow, hplane⟩ := h
  unfold Nchw.address
  rcases hplane with hone | hplane
  · have hhead : p.head = 0 := by
      have hlt := hp.1
      omega
    rw [hhead, hrow, Nat.zero_mul, Nat.zero_mul]
  · rw [hrow, hplane]

/-- Equal strides and shapes give equal extents. -/
theorem SameStrides.extent_eq (h : surfaces.SameStrides) (hshape : surfaces.output.shape = surfaces.source.shape)
    (hbatch : surfaces.source.batch = 1) : surfaces.output.extent = surfaces.source.extent := by
  obtain ⟨hrow, hplane⟩ := h
  simp only [Nchw.shape, List.cons.injEq, and_true] at hshape
  obtain ⟨hb, hc, hh, hw⟩ := hshape
  unfold Nchw.extent
  rw [hb, hc, hh, hw, hrow, hbatch, Nat.sub_self, Nat.zero_mul, Nat.zero_mul]
  rcases hplane with hone | hplane
  · rw [hone, Nat.sub_self, Nat.zero_mul, Nat.zero_mul]
  · rw [hplane]

end Surfaces

/-! ## A step whose answer tells two places apart -/

/-- Zeros with a one in a single byte. -/
def spike (target : ℕ) : ℕ → UInt8 := fun i => if i = target then 1 else 0

/-- An engine that answers with a spike. -/
def spiked (target : ℕ) : Bytes → Bytes → Answer := fun _ _ => ⟨none, spike target⟩

section Spike

variable {size target offset : ℕ}

theorem halfAt_spike_high (hsize : target < size) (h : offset + 1 = target) :
    halfAt (Bytes.ofFn size (spike target)) offset = 0x100 := by
  apply halfAt_of_bytes
  intro k hk
  rw [Bytes.get_ofFn, if_pos (by omega), spike]
  rcases (show k = 0 ∨ k = 1 by omega) with rfl | rfl
  · rw [if_neg (by omega)]
    rfl
  · rw [if_pos h]
    rfl

theorem halfAt_spike_before (h : offset + 1 < target) : halfAt (Bytes.ofFn size (spike target)) offset = 0 := by
  apply halfAt_of_bytes
  intro k hk
  have hbyte : halfByte 0 k = 0 := by
    rcases (show k = 0 ∨ k = 1 by omega) with rfl | rfl
    · rfl
    · rfl
  have hspike : spike target (offset + k) = 0 := if_neg (by omega)
  rw [Bytes.get_ofFn, hspike, ite_self, hbyte]

/-- Small values are finite. -/
theorem isFinite_of_lt {x : Half} (h : x.toNat < 0x7C00) : isFinite x = true := by
  have hle : (x &&& 0x7C00).toNat ≤ x.toNat := by
    rw [BitVec.toNat_and]
    exact Nat.and_le_left
  rw [isFinite, bne_iff_ne]
  intro heq
  rw [heq] at hle
  exact absurd h (Nat.not_lt.mpr hle)

/-- Finite values are not infinite. -/
theorem isInf_of_isFinite {x : Half} (h : isFinite x = true) : isInf x = false := by
  rw [isFinite, bne_iff_ne] at h
  rw [isInf, beq_eq_false_iff_ne]
  intro heq
  apply h
  calc x &&& 0x7C00 = (x &&& 0x7FFF) &&& 0x7C00 := by rw [BitVec.and_assoc]; rfl
    _ = 0x7C00 := by rw [heq]; rfl

theorem isFinite_spike (size target offset : ℕ) :
    isFinite (halfAt (Bytes.ofFn size (spike target)) offset) = true := by
  have hbyte (i : ℕ) : ((Bytes.ofFn size (spike target)).get i).toNat ≤ 1 := by
    rw [Bytes.get_ofFn, spike]
    split
    · split
      · exact Nat.le_refl 1
      · exact Nat.zero_le 1
    · exact Nat.zero_le 1
  apply isFinite_of_lt
  have hlow := hbyte offset
  have hhigh := hbyte (offset + 1)
  rw [halfAt, BitVec.toNat_ofNat, Bytes.leNat, Bytes.leNat, Bytes.leNat]
  omega

end Spike

namespace PingPong

/-- A finite completion row ends the wait with a swap. -/
theorem finish_of_finite (timeoutText nonFiniteText : String)
    (h : (layout.completionValues (s.memory s.output)).all isFinite = true) :
    finish layout timeoutText nonFiniteText s =
      (s.swapped, .ok (layout.completionValues (s.memory s.output))) := by
  have hinf : (layout.completionValues (s.memory s.output)).any isInf ≠ true := by
    intro hany
    obtain ⟨x, hx, hxinf⟩ := List.any_eq_true.mp hany
    rw [isInf_of_isFinite (List.all_eq_true.mp h x hx)] at hxinf
    cases hxinf
  unfold finish
  rw [Method.read_bind, if_neg hinf, if_neg (by rw [h]; decide)]
  rfl

/-- A step on views that fit, whose engine raises nothing and answers with a finite row. -/
theorem advance_of_finite {cells : List (Place × Half)} {respond : Bytes → Bytes → Answer}
    (timeoutText nonFiniteText : String) (hsource : tensorView (s.memory s.source) layout.source = .ok ())
    (houtput : tensorView ((s.stage layout cells).memory s.output) layout.output = .ok ())
    (herror : (worked layout cells respond s).2 = none)
    (hfinite : (layout.completionValues ((worked layout cells respond s).1.memory s.output)).all isFinite = true) :
    advance layout timeoutText nonFiniteText cells respond s =
      ((worked layout cells respond s).1.swapped,
        .ok (layout.completionValues ((worked layout cells respond s).1.memory s.output))) := by
  have hview : tensorView ((s.stage layout cells).memory (s.stage layout cells).output) layout.output = .ok () :=
    houtput
  unfold advance
  rw [Method.read_bind, hsource, Method.lift_ok_bind, Method.change_bind, Method.read_bind, hview,
    Method.lift_ok_bind, Method.change_bind, Method.change_bind, ← worked, herror]
  exact finish_of_finite timeoutText nonFiniteText hfinite

end PingPong

/-- An array of zeros. -/
def zeroArray (shape : List ℕ) : NdArray Half := { dtype := .float16, finite := true, shape, entry := fun _ => 0 }

theorem requireArray_zeroArray (shape : List ℕ) (name : String) : requireArray (zeroArray shape) shape name = .ok () :=
  if_neg (by simp [zeroArray])

namespace Runner

/-- A step on zeros. -/
def zeroStep (layout : Layout) (respond : Bytes → Bytes → Answer) : (runner : Runner) → runner.Call
  | .recurrent =>
    let vector := zeroArray [layout.source.channels, layout.source.width]
    let gate := zeroArray [layout.source.channels]
    .step ⟨vector, vector, vector, gate, gate⟩ respond
  | .kv kvHeads => .step (zeroArray [kvHeads, layout.source.width]) (zeroArray [kvHeads, layout.source.width]) respond

theorem isStep_zeroStep (layout : Layout) (respond : Bytes → Bytes → Answer) (runner : Runner) :
    runner.IsStep (runner.zeroStep layout respond) := by
  cases runner with
  | recurrent => trivial
  | kv kvHeads => trivial

/-- A step on zeros passes its checks. -/
theorem method_zeroStep (layout : Layout) (timeout : String) (respond : Bytes → Bytes → Answer) (runner : Runner) :
    ∃ timeoutText nonFiniteText cells, runner.method layout timeout (runner.zeroStep layout respond) =
      PingPong.advance layout timeoutText nonFiniteText cells respond >>= fun _ => pure () := by
  cases runner with
  | recurrent =>
    let vector := zeroArray [layout.source.channels, layout.source.width]
    let gate := zeroArray [layout.source.channels]
    have hstep : RecurrentRunner.step layout timeout ⟨vector, vector, vector, gate, gate⟩ respond =
        PingPong.advance layout ("ANE recurrent update did not complete within " ++ timeout ++ " seconds")
          "ANE recurrent update returned a non-finite output"
          (RecurrentRunner.inputCells layout ⟨vector, vector, vector, gate, gate⟩) respond := by
      rw [RecurrentRunner.step, requireArray_zeroArray, requireArray_zeroArray, requireArray_zeroArray,
        requireArray_zeroArray, requireArray_zeroArray]
      rfl
    exact ⟨_, _, _, congrArg (fun m => m >>= fun _ => pure ()) hstep⟩
  | kv kvHeads =>
    let vector := zeroArray [kvHeads, layout.source.width]
    have hstep : KvStateRunner.step layout timeout kvHeads vector vector respond =
        PingPong.advance layout ("ANE KV state update did not complete within " ++ timeout ++ " seconds")
          "ANE KV state update returned a non-finite completion row"
          (KvStateRunner.inputCells layout kvHeads vector vector) respond >>= fun _ => pure () := by
      rw [KvStateRunner.step, requireArray_zeroArray, requireArray_zeroArray]
      rfl
    exact ⟨_, _, _, hstep⟩

/-- A step on zeros, answered with a spike, returns when the views fit, and the spike is in the source. -/
theorem method_zeroStep_spiked (timeout : String) (target : ℕ) (hbound : s.Bound first second) (hne : first ≠ second)
    (hsource : tensorView (s.memory s.source) layout.source = .ok ())
    (houtput : tensorView (s.memory s.output) layout.output = .ok ()) :
    (runner.method layout timeout (runner.zeroStep layout (spiked target)) s).2.isOk = true ∧
      ∃ after, (runner.method layout timeout (runner.zeroStep layout (spiked target)) s).1 = after ∧
        after.memory after.source = Bytes.ofFn (s.memory s.output).size (spike target) := by
  obtain ⟨timeoutText, nonFiniteText, cells, hmethod⟩ := method_zeroStep layout timeout (spiked target) runner
  have hdistinct := hbound.ne hne
  have hleft : (PingPong.worked layout cells (spiked target) s).1.memory s.output =
      Bytes.ofFn (s.memory s.output).size (spike target) :=
    PingPong.worked_memory_output hbound.input hbound.output hdistinct
  have hview : tensorView ((s.stage layout cells).memory s.output) layout.output = .ok () := by
    rw [PingPong.stage_memory_output hdistinct]
    exact houtput
  have hfinite : (layout.completionValues
      ((PingPong.worked layout cells (spiked target) s).1.memory s.output)).all isFinite = true := by
    rw [hleft, List.all_eq_true]
    intro x hx
    obtain ⟨p, -, rfl⟩ := List.mem_map.mp hx
    exact isFinite_spike ..
  rw [hmethod, Method.bind_of_ok
    (PingPong.advance_of_finite timeoutText nonFiniteText hsource hview rfl hfinite)]
  exact ⟨rfl, _, rfl, hleft⟩

end Runner

section ReadsBack

/-- With equal strides every reachable state is read back through either surface. -/
theorem readsBack_of_sameStrides (haccepted : Runner.Accepted runner surfaces layout)
    (hsame : surfaces.SameStrides) (hsource : surfaces.source.Representable)
    (houtput : surfaces.output.Representable)
    (hfits : surfaces.source.extent ≤ min surfaces.sourceBytes surfaces.outputBytes) :
    ReadsBack runner surfaces layout first second := by
  have hvalid := haccepted.valid
  have hshape := hvalid.shape
  have hbatch := hvalid.batch
  rw [haccepted.source, haccepted.output] at hshape
  rw [haccepted.source] at hbatch
  have hextent := hsame.extent_eq hshape hbatch
  have hboth := le_min_iff.mp hfits
  refine ⟨?_, ?_⟩
  · intro v hv
    rcases List.mem_cons.mp hv with rfl | hv
    · exact ⟨hsource, hboth⟩
    · rw [List.mem_singleton.mp hv, hextent]
      exact ⟨houtput, hboth⟩
  · intro timeout handles memory hfirst hsecond calls call _ before after _
    have hstart : (PingPong.allocated first second handles memory).Sized first second surfaces :=
      ⟨PingPong.bound_allocated handles memory, hfirst, hsecond⟩
    have hafter : after.1.Sized first second surfaces :=
      runner.method_sized layout timeout call (runner.runAll_sized layout timeout calls hstart)
    have hview : tensorView (after.1.memory after.1.source) layout.source = .ok () := by
      rw [haccepted.source]
      refine tensorView_eq_ok_iff.mpr ⟨hsource, ?_⟩
      rcases hafter.size_source with hsize | hsize
      · rw [hsize]
        exact hboth.1
      · rw [hsize]
        exact hboth.2
    have hrows : layout.stateRows (after.1.memory after.1.source) =
        layout.writtenRows (after.1.memory after.1.source) := by
      refine Layout.onState_congr fun head row col _ hinside => ?_
      rw [haccepted.source] at hinside ⊢
      rw [haccepted.output, hsame.address_eq hinside]
    rw [Runner.snapshot_eq_map, PingPong.snapshot_of_fits hview, hrows]
    rfl

/-- A spike at the higher of two offsets tells them apart. -/
theorem halfAt_spike_ne {size low high : ℕ} (hlt : low < high) (hsize : high + 2 ≤ size) :
    halfAt (Bytes.ofFn size (spike (high + 1))) low ≠ halfAt (Bytes.ofFn size (spike (high + 1))) high := by
  rw [halfAt_spike_before (Nat.add_lt_add_right hlt 1), halfAt_spike_high hsize rfl]
  decide

/-- The first state row of every head is a place of both surfaces. -/
theorem Runner.Accepted.inside (h : Runner.Accepted runner surfaces layout) {head : ℕ}
    (hhead : head < surfaces.source.channels) :
    surfaces.source.Inside ⟨head, layout.firstState, 0⟩ ∧ surfaces.output.Inside ⟨head, layout.firstState, 0⟩ := by
  have hstate : layout.firstState < layout.source.height - 1 := h.valid.state
  have hwidth := h.valid.width
  have hshape := h.valid.shape
  rw [h.source] at hstate hwidth
  rw [h.source, h.output] at hshape
  simp only [Nchw.shape, List.cons.injEq, and_true] at hshape
  obtain ⟨-, hchannels, hheight, hcols⟩ := hshape
  have hrow : layout.firstState < surfaces.source.height := Nat.lt_of_lt_of_le hstate (Nat.sub_le _ _)
  exact ⟨⟨hhead, hrow, hwidth⟩, ⟨hchannels ▸ hhead, hheight ▸ hrow, hcols ▸ hwidth⟩⟩

/-- When the state is read back, a spike reads the same at the two offsets of a first state row. -/
theorem ReadsBack.halfAt_spike_eq (h : ReadsBack runner surfaces layout first second)
    (haccepted : Runner.Accepted runner surfaces layout) (hne : first ≠ second) {head : ℕ}
    (hhead : head < surfaces.source.channels) (target : ℕ) :
    halfAt (Bytes.ofFn surfaces.outputBytes (spike target))
        (surfaces.source.address ⟨head, layout.firstState, 0⟩) =
      halfAt (Bytes.ofFn surfaces.outputBytes (spike target))
        (surfaces.output.address ⟨head, layout.firstState, 0⟩) := by
  obtain ⟨hsource, hsourceFirst, hsourceSecond⟩ := h.fits _ List.mem_cons_self
  obtain ⟨houtput, -, houtputSecond⟩ := h.fits _ (List.mem_cons_of_mem _ List.mem_cons_self)
  let memory : ℕ → Bytes := fun handle =>
    Bytes.zeros (if handle = first then surfaces.sourceBytes else surfaces.outputBytes)
  have hfirst : (memory first).size = surfaces.sourceBytes := if_pos rfl
  have hsecond : (memory second).size = surfaces.outputBytes := if_neg hne.symm
  obtain ⟨hok, after, hafter, hcontents⟩ := Runner.method_zeroStep_spiked "10.0" target
    (PingPong.bound_allocated (fun _ => 0) memory) hne
    (tensorView_eq_ok_iff.mpr ⟨haccepted.source ▸ hsource, haccepted.source ▸ hfirst ▸ hsourceFirst⟩)
    (tensorView_eq_ok_iff.mpr ⟨haccepted.output ▸ houtput, haccepted.output ▸ hsecond ▸ houtputSecond⟩)
  have hreads : runner.snapshot layout after =
      .ok (runner.state layout (layout.writtenRows (after.memory after.source))) := by
    rw [← hafter]
    exact h.reads "10.0" (fun _ => 0) memory hfirst hsecond [] _ (runner.isStep_zeroStep layout _) hok
  have hview : tensorView (after.memory after.source) layout.source = .ok () := by
    rw [hcontents, haccepted.source]
    exact tensorView_eq_ok_iff.mpr ⟨hsource, hsecond ▸ hsourceSecond⟩
  rw [Runner.snapshot_eq_map, PingPong.snapshot_of_fits hview] at hreads
  have hrow := haccepted.firstRow _ _ (Except.ok.inj hreads) head 0
  have hrange : head < layout.source.channels ∧ 0 < layout.stateCount ∧ 0 < layout.source.width :=
    ⟨haccepted.source ▸ hhead, Nat.sub_pos_of_lt haccepted.valid.state, haccepted.valid.width⟩
  rw [Layout.stateRows, Layout.writtenRows, Layout.onState, Layout.onState, if_pos hrange, if_pos hrange, hcontents,
    haccepted.source, haccepted.output] at hrow
  rw [← hsecond]
  exact hrow

/-- When the state is read back, the two surfaces place the first state row of a head at one offset. -/
theorem ReadsBack.address_eq (h : ReadsBack runner surfaces layout first second)
    (haccepted : Runner.Accepted runner surfaces layout) (hne : first ≠ second) {head : ℕ}
    (hhead : head < surfaces.source.channels) :
    surfaces.source.address ⟨head, layout.firstState, 0⟩ = surfaces.output.address ⟨head, layout.firstState, 0⟩ := by
  have hbatch := haccepted.valid.batch
  have hbatch' : surfaces.output.batch = 1 := by
    have hshape := haccepted.valid.shape
    rw [haccepted.output] at hshape
    exact (List.cons.inj hshape).1.trans hbatch
  rw [haccepted.source] at hbatch
  obtain ⟨hinside, hinside'⟩ := haccepted.inside hhead
  have hsource := (Nchw.address_le_extent hbatch hinside).trans (h.fits _ List.mem_cons_self).2.2
  have houtput := (Nchw.address_le_extent hbatch' hinside').trans
    (h.fits _ (List.mem_cons_of_mem _ List.mem_cons_self)).2.2
  rcases Nat.lt_trichotomy (surfaces.source.address ⟨head, layout.firstState, 0⟩)
    (surfaces.output.address ⟨head, layout.firstState, 0⟩) with hlt | heq | hlt
  · exact absurd (h.halfAt_spike_eq haccepted hne hhead _) (halfAt_spike_ne hlt houtput)
  · exact heq
  · exact absurd (h.halfAt_spike_eq haccepted hne hhead _).symm (halfAt_spike_ne hlt hsource)

/-- A runner reads back what its engine wrote, and both buffers hold either view, exactly when the
strides that matter agree, they are numbers of the machine, and the smaller buffer holds the surface. -/
theorem readsBack_iff_sameStrides (name : String) (file : Bytes) (hne : first ≠ second)
    (h : runner.construct name file first second = .ok (surfaces, layout)) :
    ReadsBack runner surfaces layout first second ↔ surfaces.SameStrides ∧ surfaces.source.Representable ∧
      surfaces.output.Representable ∧ surfaces.source.extent ≤ min surfaces.sourceBytes surfaces.outputBytes := by
  have haccepted := Runner.construct_eq_ok h
  constructor
  · intro hreads
    have hsource := hreads.fits _ List.mem_cons_self
    have houtput := hreads.fits _ (List.mem_cons_of_mem _ List.mem_cons_self)
    have hheads := haccepted.valid.heads
    rw [haccepted.source] at hheads
    have hrow : surfaces.source.rowStride = surfaces.output.rowStride := by
      have haddress := hreads.address_eq haccepted hne hheads
      simp only [Nchw.address, Nat.zero_mul, Nat.zero_add, Nat.mul_zero, Nat.add_zero] at haddress
      exact Nat.eq_of_mul_eq_mul_left haccepted.inputs haddress
    refine ⟨⟨hrow, ?_⟩, hsource.1, houtput.1, le_min hsource.2.1 hsource.2.2⟩
    rcases Nat.eq_or_lt_of_le hheads with hone | hmore
    · exact .inl hone.symm
    · have haddress := hreads.address_eq haccepted hne hmore
      simp only [Nchw.address, Nat.one_mul, Nat.mul_zero, Nat.add_zero, hrow] at haddress
      exact .inr (Nat.add_right_cancel haddress)
  · rintro ⟨hsame, hsource, houtput, hfits⟩
    exact readsBack_of_sameStrides haccepted hsame hsource houtput hfits

end ReadsBack

/-- An artifact with one task and surfaces of one head of dimension two, each in a buffer of one tile. The
rows of the source are 4 bytes apart, those of the output `rowStride` bytes. -/
def stateArtifact (rowStride : ℕ) : Bytes :=
  Bytes.ofFields 0x1110 [(0, 0x110), (8, 0x100), (12, 1), (16, 0x100), (24, 0x10), (32, 1), (36, 1), (56, 1), (60, 1),
    (360, 1), (368, 1), (376, 7), (384, 2), (392, 0x400), (400, rowStride),
    (408, 1), (416, 1), (424, 7), (432, 2), (440, 0x400), (448, 4), (0x1028, 0x1F800)]

theorem readsBack_iff_sameStrides_stateArtifact : ∃ surfaces layout,
    Runner.recurrent.construct "state" (stateArtifact 4) 1 2 = .ok (surfaces, layout) ∧
      ReadsBack .recurrent surfaces layout 1 2 := by
  obtain ⟨⟨surfaces, layout⟩, hconstruct, hvalues⟩ := @exists_ok_of_map _ _ _
    (Runner.recurrent.construct "state" (stateArtifact 4) 1 2)
    (fun built => (built.1.source, built.1.output, built.1.sourceBytes, built.1.outputBytes))
    (⟨1, 1, 7, 2, 0x400, 4⟩, ⟨1, 1, 7, 2, 0x400, 4⟩, 0x4000, 0x4000) (by decide +kernel)
  simp only [Prod.mk.injEq] at hvalues
  obtain ⟨hsource, houtput, hfirst, hsecond⟩ := hvalues
  refine ⟨surfaces, layout, hconstruct, (readsBack_iff_sameStrides _ _ (by decide) hconstruct).mpr ?_⟩
  rw [Surfaces.SameStrides, hsource, houtput, hfirst, hsecond]
  decide

/-- An accepted artifact whose output rows are 64 bytes apart: the snapshot is not what was written. -/
theorem stateArtifact_not_readsBack : ∃ surfaces layout,
    Runner.recurrent.construct "state" (stateArtifact 64) 1 2 = .ok (surfaces, layout) ∧
      ¬ ReadsBack .recurrent surfaces layout 1 2 := by
  obtain ⟨⟨surfaces, layout⟩, hconstruct, hvalues⟩ := @exists_ok_of_map _ _ _
    (Runner.recurrent.construct "state" (stateArtifact 64) 1 2)
    (fun built => (built.1.source, built.1.output, built.2.firstState))
    (⟨1, 1, 7, 2, 0x400, 4⟩, ⟨1, 1, 7, 2, 0x400, 64⟩, 4) (by decide +kernel)
  simp only [Prod.mk.injEq] at hvalues
  obtain ⟨hsource, houtput, hstate⟩ := hvalues
  refine ⟨surfaces, layout, hconstruct, fun hreads => ?_⟩
  have haddress := @hreads.address_eq _ _ _ _ _ (Runner.construct_eq_ok hconstruct) (by decide) 0
    (by rw [hsource]; decide)
  rw [hsource, houtput, hstate] at haddress
  exact absurd haddress (by decide)

end AneLinux.Runtime
