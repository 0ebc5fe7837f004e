import AneLinux.Hwx.ConvertFile
import Mathlib.Data.List.Induction

/-!
# The bytes the task registers are decoded from

The parser decodes the first task with a leading record, but cuts the bytes it decodes to the
extent of the first task. When the two differ, the decoder reads into the next task or stops
short of the task's own end. The values are those of the task's own bytes exactly when the
records that only one of the two ranges holds leave the tile-DMA registers alone.
-/

namespace AneLinux.Hwx

open AneLinux.Support

/-- The registers of the tile-DMA byte counts. -/
def tileDmaRegisters : List ℕ := [0x13810, 0x13814, 0x1780C, 0x17810]

/-- The byte counts of a register file. -/
def tileDmaOf (registers : Registers) : TileDMA where
  sourceRun := (registers 0x13810).getD 0
  sourceTotal := (registers 0x13814).getD 0
  destRun := (registers 0x1780C).getD 0
  destTotal := (registers 0x17810).getD 0

/-- Both decoders give the image's values on the bytes of a task. -/
def DecodesTo (td : Bytes) (image : HWXImage) : Prop :=
  decodeTileDma td = .ok image.tileDma ∧ decodeKdma td = .ok image.kdma

/-- The first task with a leading record, where it ends, and the extent of the first task. -/
structure FirstRecordTask (data : Bytes) (text : Section) (base limit extent : ℕ) : Prop where
  tasks : ∃ first rest before after,
    findTaskOffsets data text.fileOffset text.size = .ok (first :: rest) ∧
      extent = rest.head?.getD text.size - first ∧ first :: rest = before ++ base :: after ∧
      limit = after.head?.getD text.size ∧
      (∀ other ∈ before, isTaskRecord (data.u32 (text.fileOffset + other + 0x28)) = false) ∧
      isTaskRecord (data.u32 (text.fileOffset + base + 0x28)) = true

/-- The record walk of the task at `start` inside a limit. -/
def taskWalk (data : Bytes) (start limit : ℕ) : RecordWalk :=
  walkRecords (fun p => data.u32 (start + p)) limit (if data.u32 (start + 36) &&& 0x3 = 0x3 then 44 else 40)

/-- The records of the task at `start` that a larger limit holds and a smaller one does not. -/
def recordsBetween (data : Bytes) (start small large : ℕ) : List Record :=
  (taskWalk data start large).records.drop (taskWalk data start small).records.length

/-- Further assignments give the tile-DMA registers the values they have, zero when unassigned. -/
def LeavesTileDma (shared further : List Write) : Prop :=
  ∀ register ∈ tileDmaRegisters, ∀ value, registersOf further register = some value →
    value = (registersOf shared register).getD 0

/-- The task's own range holds the coefficient-DMA header, its records end inside it, and the
records that only it or only the parsed range holds leave the tile-DMA registers alone. -/
structure RangesAgree (data : Bytes) (start own parsed : ℕ) : Prop where
  header : 244 ≤ own
  complete : (taskWalk data start own).reason ≠ .truncated
  between : LeavesTileDma (taskWalk data start (min own parsed)).writes
    ((recordsBetween data start (min own parsed) (max own parsed)).flatMap Record.writes)

/-! ## Walks inside two limits -/

section Walks

variable {word : ℕ → ℕ} {small large pos : ℕ}

/-- A complete walk extends the walk inside a smaller limit. -/
theorem walkRecords_extends (h : (walkRecords word large pos).reason ≠ .truncated) (hle : small ≤ large) :
    ∃ further, (walkRecords word large pos).records = (walkRecords word small pos).records ++ further := by
  fun_induction walkRecords word large pos with
  | case1 pos hroom hzero =>
    refine ⟨[], ?_⟩
    rw [walkRecords]
    split_ifs
    · rfl
    · rfl
  | case2 => exact absurd rfl h
  | case3 pos hroom hzero hfit rest ih =>
    rw [walkRecords]
    split_ifs with hsmall hcut
    · exact ⟨_, rfl⟩
    · obtain ⟨further, hfurther⟩ := ih h
      exact ⟨further, congrArg (List.cons _) hfurther⟩
    · exact ⟨_, rfl⟩
  | case4 pos hroom =>
    refine ⟨[], ?_⟩
    rw [walkRecords, if_neg (by omega)]
    rfl

end Walks

/-- The last assignment wins. -/
theorem storeAll_eq_or (m : Registers) (ws : List Write) (register : ℕ) :
    m.storeAll ws register = (registersOf ws register).or (m register) := by
  induction ws using List.reverseRecOn with
  | nil => rfl
  | append_singleton ws w ih =>
    have hlast (start : Registers) : start.storeAll (ws ++ [w]) =
        Function.update (start.storeAll ws) w.address (some w.value) := storeAll_append ..
    rw [registersOf, hlast, hlast]
    by_cases hregister : register = w.address
    · rw [hregister, Function.update_self, Function.update_self, Option.some_or]
    · rw [Function.update_of_ne hregister, Function.update_of_ne hregister]
      exact ih

/-- Further assignments keep the byte counts exactly when they leave their registers alone. -/
theorem tileDmaOf_append_iff (shared further : List Write) :
    tileDmaOf (registersOf (shared ++ further)) = tileDmaOf (registersOf shared) ↔
      LeavesTileDma shared further := by
  have hregister (register : ℕ) : (registersOf (shared ++ further) register).getD 0 =
      (registersOf shared register).getD 0 ↔ ∀ value, registersOf further register = some value →
        value = (registersOf shared register).getD 0 := by
    rw [registersOf, storeAll_append, storeAll_eq_or]
    change ((registersOf further register).or (registersOf shared register)).getD 0 = _ ↔ _
    cases registersOf further register with
    | none => simp
    | some value => simp
  simp only [tileDmaOf, TileDMA.mk.injEq, hregister, LeavesTileDma, tileDmaRegisters, List.forall_mem_cons,
    List.not_mem_nil, false_imp_iff, implies_true, and_true]

/-! ## Decoding a slice -/

section Slices

variable {data : Bytes} {start own parsed extent : ℕ} {image : HWXImage}

/-- The tile-DMA decode of a slice is that of its record walk. -/
theorem decodeTileDma_slice {stop : ℕ} {values : TileDMA} (hstop : stop ≤ data.size) (hheader : start + 40 ≤ stop) :
    decodeTileDma (data.slice start stop) = .ok values ↔
      (taskWalk data start (stop - start)).reason ≠ .truncated ∧
        tileDmaOf (registersOf (taskWalk data start (stop - start)).writes) = values := by
  have hsize : (data.slice start stop).size = stop - start := by
    rw [Bytes.size_slice, Nat.min_eq_left hstop]
  have hfirst : firstRecord (data.slice start stop) =
      if data.u32 (start + 36) &&& 0x3 = 0x3 then 44 else 40 := by
    rw [firstRecord, Bytes.u32_slice _ (by omega)]
  have hwalk : walkRecords (data.slice start stop).u32 (data.slice start stop).size
      (firstRecord (data.slice start stop)) = taskWalk data start (stop - start) := by
    rw [hfirst, hsize, taskWalk]
    apply walkRecords_congr
    intro p _ _ hp
    exact Bytes.u32_slice _ (by omega)
  rw [decodeTileDma, walkRegisters_eq (by omega), hwalk, strictResult]
  split_ifs with hreason
  · simp [hreason, raiseValue]
  · rw [and_iff_right hreason]
    exact ⟨Except.ok.inj, congrArg Except.ok⟩

/-- A descriptor too short for its header has no tile-DMA values. -/
theorem decodeKdma_size {td : Bytes} {kdma : KDMALayout} (h : decodeKdma td = .ok kdma) : 244 ≤ td.size := by
  by_contra hshort
  have hraise : td.size < 180 + 4 * kdmaLanes := by
    rw [kdmaLanes]
    omega
  rw [decodeKdma, if_pos hraise] at h
  exact absurd h (raiseValue_ne_ok _ _)

/-- The coefficient-DMA decode reads the header words only. -/
theorem decodeKdma_congr {td other : Bytes} (htd : 244 ≤ td.size) (hother : 244 ≤ other.size)
    (h : ∀ p, p + 4 ≤ 244 → other.u32 p = td.u32 p) : decodeKdma other = decodeKdma td := by
  have hbits (offset bit width : ℕ) (hoffset : offset + 4 ≤ 244) :
      bits other offset bit width = bits td offset bit width := by
    rw [bits, bits, if_neg (by omega), if_neg (by omega), unpackU32_of_le (by omega), unpackU32_of_le (by omega),
      h offset hoffset]
  have hlane (offset bit width : ℕ) (hoffset : offset ≤ 180) :
      ((List.range kdmaLanes).mapM fun lane => bits other (offset + 4 * lane) bit width) =
        (List.range kdmaLanes).mapM fun lane => bits td (offset + 4 * lane) bit width := by
    apply mapM_congr_mem
    intro lane hmem
    have hlt := List.mem_range.mp hmem
    rw [kdmaLanes] at hlt
    exact hbits _ _ _ (by omega)
  rw [decodeKdma, decodeKdma, if_neg (by rw [kdmaLanes]; omega), if_neg (by rw [kdmaLanes]; omega),
    hlane 52 0 1 (by omega), hlane 116 6 26 (by omega), hlane 180 6 26 (by omega)]

/-- Two complete walks of one task give the same byte counts exactly when the records between
their limits leave the tile-DMA registers alone. -/
theorem tileDmaOf_taskWalk_iff {small large : ℕ} (hle : small ≤ large)
    (hlarge : (taskWalk data start large).reason ≠ .truncated) :
    tileDmaOf (registersOf (taskWalk data start large).writes) =
        tileDmaOf (registersOf (taskWalk data start small).writes) ↔
      LeavesTileDma (taskWalk data start small).writes
        ((recordsBetween data start small large).flatMap Record.writes) := by
  obtain ⟨further, hfurther⟩ := walkRecords_extends hlarge hle
  have hbetween : recordsBetween data start small large = further := by
    rw [recordsBetween]
    exact (congrArg (List.drop _) hfurther).trans List.drop_left
  have hwrites : (taskWalk data start large).writes =
      (taskWalk data start small).writes ++ further.flatMap Record.writes := by
    rw [RecordWalk.writes, RecordWalk.writes, ← List.flatMap_append]
    exact congrArg (List.flatMap Record.writes) hfurther
  rw [hwrites, tileDmaOf_append_iff, hbetween]

/-- When the parsed range decodes to the image's values, the own range does exactly when the
two ranges agree. -/
theorem decodesTo_own_iff (hown : start + own ≤ data.size)
    (hparsed : DecodesTo (data.slice start (start + extent)) image) :
    DecodesTo (data.slice start (start + own)) image ↔
      RangesAgree data start own (min extent (data.size - start)) := by
  obtain ⟨htile, hkdma⟩ := hparsed
  have hheader := decodeKdma_size hkdma
  rw [Bytes.size_slice] at hheader
  have hcut : data.slice start (start + extent) = data.slice start (start + min extent (data.size - start)) := by
    apply Bytes.ext_get
    · rw [Bytes.size_slice, Bytes.size_slice]
      omega
    · intro i hi
      rw [Bytes.size_slice] at hi
      rw [Bytes.get_slice_of_lt _ (by omega), Bytes.get_slice_of_lt _ (by omega)]
  rw [hcut] at htile hkdma
  generalize hparsed : min extent (data.size - start) = parsed at htile hkdma
  have hparsedSize : 244 ≤ parsed ∧ start + parsed ≤ data.size := by omega
  rw [decodeTileDma_slice hparsedSize.2 (by omega), Nat.add_sub_cancel_left] at htile
  obtain ⟨hcomplete, htile⟩ := htile
  have hbetween (hownComplete : (taskWalk data start own).reason ≠ .truncated) :
      tileDmaOf (registersOf (taskWalk data start own).writes) = image.tileDma ↔
        LeavesTileDma (taskWalk data start (min own parsed)).writes
          ((recordsBetween data start (min own parsed) (max own parsed)).flatMap Record.writes) := by
    rw [← htile]
    rcases Nat.le_total own parsed with hle | hle
    · rw [Nat.min_eq_left hle, Nat.max_eq_right hle, ← tileDmaOf_taskWalk_iff hle hcomplete]
      exact eq_comm
    · rw [Nat.min_eq_right hle, Nat.max_eq_left hle, ← tileDmaOf_taskWalk_iff hle hownComplete]
  constructor
  · intro h
    have hownHeader := decodeKdma_size h.2
    rw [Bytes.size_slice] at hownHeader
    have hdecode := (decodeTileDma_slice hown (by omega)).mp h.1
    rw [Nat.add_sub_cancel_left] at hdecode
    exact ⟨by omega, hdecode.1, (hbetween hdecode.1).mp hdecode.2⟩
  · intro h
    have hownHeader := h.header
    refine ⟨(decodeTileDma_slice hown (by omega)).mpr ?_, ?_⟩
    · rw [Nat.add_sub_cancel_left]
      exact ⟨h.complete, (hbetween h.complete).mpr h.between⟩
    · rw [← hkdma]
      apply decodeKdma_congr
      · rw [Bytes.size_slice]
        omega
      · rw [Bytes.size_slice]
        omega
      · intro p hp
        rw [Bytes.u32_slice _ (by omega), Bytes.u32_slice _ (by omega)]

end Slices

/-! ## The parser's slice -/

/-- The search for the first record returns the first task that has one. -/
theorem firstRecordTask_eq_ok {data : Bytes} {start base : ℕ} {tasks : List ℕ}
    (h : firstRecordTask data start tasks = .ok base) : ∃ before after, tasks = before ++ base :: after ∧
      (∀ other ∈ before, isTaskRecord (data.u32 (start + other + 0x28)) = false) ∧
      isTaskRecord (data.u32 (start + base + 0x28)) = true := by
  induction tasks with
  | nil => cases h
  | cons offset rest ih =>
    rw [firstRecordTask] at h
    obtain ⟨word, hword, h⟩ := bind_eq_ok.mp h
    obtain ⟨-, rfl⟩ := unpackU32_eq_ok.mp hword
    split_ifs at h with hrecord
    · obtain rfl := Except.ok.inj h
      exact ⟨[], rest, rfl, by simp, hrecord⟩
    · obtain ⟨before, after, rfl, hbefore, hbase⟩ := ih h
      refine ⟨offset :: before, after, rfl, ?_, hbase⟩
      rw [List.forall_mem_cons]
      exact ⟨Bool.eq_false_iff.mpr hrecord, hbefore⟩

/-- The parser decodes the first task with a leading record, cut to the extent of the first. -/
theorem deriveImage_decodes {data : Bytes} (commands : LoadCommands) (required : Required) :
    Meets (deriveImage data commands required) (fun image => ∃ base limit extent,
      FirstRecordTask data required.text base limit extent ∧
        DecodesTo (data.slice (required.text.fileOffset + base) (required.text.fileOffset + base + extent)) image)
      fun _ => True := by
  obtain ⟨textSegmentOffset, textSegmentSize, text, kernel, inputSections, outputSections⟩ := required
  refine Meets.guard trivial fun _ => ?_
  refine (Meets.any _).bind fun inputSize _ => ?_
  refine (Meets.any _).bind fun outputSize _ => ?_
  refine (Meets.any _).bind fun workspaceSize _ => ?_
  refine Meets.guard trivial fun hstart => ?_
  obtain rfl := Decidable.not_not.mp hstart
  cases hfound : findTaskOffsets data text.fileOffset text.size with
  | error e => trivial
  | ok tasks =>
    cases tasks with
    | nil => trivial
    | cons first others =>
      refine Meets.guard trivial fun _ => Meets.guard trivial fun _ => ?_
      refine Meets.guard trivial fun _ => Meets.guard trivial fun _ => ?_
      refine (Meets.returns _).bind fun base hrecord => ?_
      refine (Meets.returns _).bind fun kdma hkdma => ?_
      refine (Meets.returns _).bind fun tileDma htile => ?_
      obtain ⟨before, after, hsplit, hbefore, hbase⟩ := firstRecordTask_eq_ok hrecord
      exact ⟨base, _, _, ⟨first, others, before, after, hfound, rfl, hsplit, rfl, hbefore, hbase⟩, htile, hkdma⟩

/-- The task's own range lies in the file. -/
theorem FirstRecordTask.own_range {data : Bytes} {text : Section} {base limit extent : ℕ}
    (h : FirstRecordTask data text base limit extent) : base < limit ∧ text.fileOffset + limit ≤ data.size := by
  obtain ⟨first, rest, before, after, hfound, -, hsplit, rfl, -⟩ := h.tasks
  obtain ⟨hroom, hsorted, hplaced, -⟩ := (findTaskOffsets_meets ..).value hfound
  have hinside (other : ℕ) (hother : other ∈ first :: rest) : other + 0x2C ≤ text.size := by
    have := (hplaced other hother).2
    rwa [InSection, taskHeaderSize] at this
  rw [hsplit] at hsorted hinside
  have hbase := hinside base (by simp)
  cases after with
  | nil =>
    rw [List.head?_nil, Option.getD_none]
    omega
  | cons next after =>
    have hnext := hinside next (by simp)
    have hlt : base < next := (List.pairwise_cons.mp (List.pairwise_append.mp hsorted).2.1).1 next (by simp)
    rw [List.head?_cons, Option.getD_some]
    omega

/-- On every accepted container the decoded values are those of the task's own bytes exactly
when the two ranges agree. -/
theorem parseHwx_decodes_own_iff (data : Bytes) (image : HWXImage) (h : parseHwx data = .ok image) :
    ∃ commands text base limit extent, readLoadCommands data = .ok commands ∧
      find commands.sections ("__TEXT", "__text") = some text ∧
      FirstRecordTask data text base limit extent ∧
      (DecodesTo (data.slice (text.fileOffset + base) (text.fileOffset + limit)) image ↔
        RangesAgree data (text.fileOffset + base) (limit - base)
          (min extent (data.size - (text.fileOffset + base)))) := by
  obtain ⟨commands, hcommands, h⟩ := bind_eq_ok.mp h
  obtain ⟨required, hrequired, h⟩ := bind_eq_ok.mp h
  have htext := ((requireSections_meets commands).value hrequired).text
  obtain ⟨base, limit, extent, htask, hdecodes⟩ := (deriveImage_decodes commands required).value h
  refine ⟨commands, required.text, base, limit, extent, hcommands, htext, htask, ?_⟩
  obtain ⟨hlt, hroom⟩ := htask.own_range
  have hlimit : required.text.fileOffset + limit = required.text.fileOffset + base + (limit - base) := by omega
  rw [hlimit]
  exact decodesTo_own_iff (by omega) hdecodes

theorem parseHwx_decodes_own_iff_container : ∃ image, parseHwx (container 0x100 [(0x28, 0x1F800)] none) = .ok image ∧
    ∃ commands text base limit extent,
      readLoadCommands (container 0x100 [(0x28, 0x1F800)] none) = .ok commands ∧
      find commands.sections ("__TEXT", "__text") = some text ∧
      FirstRecordTask (container 0x100 [(0x28, 0x1F800)] none) text base limit extent ∧
      (DecodesTo ((container 0x100 [(0x28, 0x1F800)] none).slice (text.fileOffset + base) (text.fileOffset + limit))
          image ↔
        RangesAgree (container 0x100 [(0x28, 0x1F800)] none) (text.fileOffset + base) (limit - base)
          (min extent ((container 0x100 [(0x28, 0x1F800)] none).size - (text.fileOffset + base)))) := by
  obtain ⟨image, himage⟩ := exists_ok_of_toBool
    (show (parseHwx (container 0x100 [(0x28, 0x1F800)] none)).toBool = true by decide +kernel)
  exact ⟨image, himage, parseHwx_decodes_own_iff _ image himage⟩

/-- Two tasks linked 0, 0x100: the first has no record, the second fills 0x100 bytes with one and
states its source run of 7 behind them. -/
def secondTask : Bytes :=
  container 0x300 [(0x1C, 0x100), (0x100, 1), (0x128, 52 <<< 26 + 0x1F800), (0x200, 0x13810), (0x204, 7)] none

/-- The parser cuts the second task to the extent of the first and misses its source run. -/
theorem parseHwx_cuts_task : ∃ image text, parseHwx secondTask = .ok image ∧
    find image.sections ("__TEXT", "__text") = some text ∧ FirstRecordTask secondTask text 0x100 0x300 0x100 ∧
    ¬ DecodesTo (secondTask.slice (text.fileOffset + 0x100) (text.fileOffset + 0x300)) image := by
  have hfields : (parseHwx secondTask).map (fun image =>
      (image.tileDma.sourceRun, find image.sections ("__TEXT", "__text"))) =
        .ok (0, some ⟨"__TEXT", "__text", 0, 0x300, 0x300⟩) := by decide +kernel
  obtain ⟨image, himage, hfields⟩ := exists_ok_of_map hfields
  obtain ⟨hrun, htext⟩ := Prod.mk.inj hfields
  refine ⟨image, _, himage, htext, ⟨0, [0x100], [0], [], by decide +kernel, rfl, rfl, rfl, by decide +kernel,
    by decide +kernel⟩, fun hdecodes => ?_⟩
  have hown : (decodeTileDma (secondTask.slice (0x300 + 0x100) (0x300 + 0x300))).map TileDMA.sourceRun = .ok 7 := by
    decide +kernel
  rw [hdecodes.1] at hown
  exact absurd (hrun.symm.trans (Except.ok.inj hown)) (by decide)

end AneLinux.Hwx
