import AneLinux.Hwx.Parse
import AneLinux.Hwx.TaskClosure

/-!
# What the HWX parser accepts

Every read of the parser sits behind a range check, so a malformed container ends in a value
error: no struct error, index error, missing key or exhausted iterator escapes. What is
accepted satisfies one record of geometry relations, `ImageLayout`, which the converters use.
-/

namespace AneLinux.Hwx

open AneLinux.Support

/-- The exceptions that `except ValueError` catches. -/
abbrev ValueErrorOnly (e : PyError) : Prop := e.isValueError = true

/-! ## Load commands -/

variable {data : Bytes}

/-- A structure read inside the data succeeds. -/
theorem unpackFrom_of_le {α : Type} {offset size : ℕ} {fields : α} (h : offset + size ≤ data.size) :
    unpackFrom data offset size fields = .ok fields := if_pos h

theorem decodeName_raises (raw : List UInt8) :
    Meets (decodeName raw) (fun _ => True) ValueErrorOnly := by
  unfold decodeName
  split_ifs
  · trivial
  · rfl

/-- Every declared segment lies in the file. -/
def SegmentsInFile (data : Bytes) (commands : LoadCommands) : Prop :=
  ∀ name fileOffset fileSize, find commands.segments name = some (fileOffset, fileSize) →
    fileOffset + fileSize ≤ data.size

section Commands

variable {commands : LoadCommands}

/-- Recording a section leaves the segments alone. -/
theorem readSection_meets {fileSize offset : ℕ} (hroom : offset + 80 ≤ data.size)
    (hsegments : SegmentsInFile data commands) :
    Meets (readSection data fileSize commands offset) (SegmentsInFile data) ValueErrorOnly := by
  rw [readSection, unpackSectionHeader, unpackFrom_of_le hroom, ok_bind]
  refine (decodeName_raises _).bind fun name _ => ?_
  refine (decodeName_raises _).bind fun segment _ => ?_
  exact Meets.guard rfl fun _ => Meets.guard rfl fun _ => hsegments

/-- A segment is recorded only after its file range was checked. -/
theorem readSegment_meets {commandOffset commandSize : ℕ}
    (hroom : commandOffset + commandSize ≤ data.size) (hsegments : SegmentsInFile data commands) :
    Meets (readSegment data commandOffset commandSize commands) (SegmentsInFile data) ValueErrorOnly := by
  refine Meets.guard rfl fun hshort => ?_
  obtain ⟨command, hcommand⟩ : ∃ command, unpackSegmentCommand data commandOffset = .ok command :=
    ⟨_, unpackFrom_of_le (by omega)⟩
  rw [hcommand, ok_bind]
  refine (decodeName_raises _).bind fun segment _ => ?_
  refine Meets.guard rfl fun hfile => Meets.guard rfl fun htable => ?_
  refine Meets.foldlM _ _ _ ?_ fun state hstate index hindex => ?_
  · intro name fileOffset fileSize hlookup
    rw [find_assign] at hlookup
    split_ifs at hlookup with hname
    · cases hlookup
      exact Nat.le_of_not_lt hfile
    · exact hsegments name fileOffset fileSize hlookup
  · have hlt := List.mem_range.mp hindex
    exact readSection_meets (by omega) hstate

/-- The command loop stays inside the command table. -/
theorem readCommands_meets {commandsEnd : ℕ} (hend : commandsEnd ≤ data.size) (count : ℕ)
    {commandOffset : ℕ} (hsegments : SegmentsInFile data commands) :
    Meets (readCommands data commandsEnd count commandOffset commands)
      (fun result => SegmentsInFile data result.2) ValueErrorOnly := by
  induction count generalizing commandOffset commands with
  | zero => exact hsegments
  | succ count ih =>
    refine Meets.guard rfl fun htruncated => ?_
    rw [unpackFrom_of_le (by omega), ok_bind]
    refine Meets.guard rfl fun hsize => ?_
    rw [not_or] at hsize
    split_ifs with hsegment
    · exact (readSegment_meets (by omega) hsegments).bind fun next hnext => ih hnext
    · exact ih hsegments

theorem readLoadCommands_meets (data : Bytes) :
    Meets (readLoadCommands data) (SegmentsInFile data) ValueErrorOnly := by
  have hempty : SegmentsInFile data LoadCommands.empty := by
    intro name fileOffset fileSize hlookup
    cases hlookup
  refine Meets.guard rfl fun hsize => ?_
  rw [not_or] at hsize
  rw [unpackFrom_of_le (by omega), ok_bind]
  refine Meets.guard rfl fun hmagic => Meets.guard rfl fun htable => ?_
  refine (readCommands_meets (Nat.le_of_not_lt htable) _ hempty).bind fun result hresult => ?_
  exact Meets.guard rfl fun _ => hresult

end Commands

/-! ## Required sections -/

/-- The required entries of a command table, as they were looked up. -/
structure RequiredOf (commands : LoadCommands) (required : Required) : Prop where
  segment : find commands.segments "__TEXT" = some (required.textSegmentOffset, required.textSegmentSize)
  text : find commands.sections ("__TEXT", "__text") = some required.text
  kernel : find commands.sections ("__TEXT", "__const") = some required.kernel

/-- The lookups fail only by a missing key. -/
theorem lookupRequired_meets (commands : LoadCommands) :
    Meets (lookupRequired commands) (RequiredOf commands) (fun e => ∃ key, e = .keyError key) := by
  unfold lookupRequired
  refine (lookup_raises ..).bind fun segment hsegment => ?_
  refine (lookup_raises ..).bind fun text htext => ?_
  refine (lookup_raises ..).bind fun kernel hkernel => ?_
  refine (lookup_raises ..).bind fun inputs _ => ?_
  refine (lookup_raises ..).bind fun outputs _ => ?_
  exact ⟨hsegment, htext, hkernel⟩

/-- A missing key is reported as a value error. -/
theorem requireSections_meets (commands : LoadCommands) :
    Meets (requireSections commands) (RequiredOf commands) ValueErrorOnly := by
  have hlookup := lookupRequired_meets commands
  revert hlookup
  unfold requireSections
  cases lookupRequired commands with
  | ok required => exact id
  | error e =>
    rintro ⟨key, rfl⟩
    rfl

theorem span_raises (entries : List (ℕ × ℕ)) : Meets (span entries) (fun _ => True) ValueErrorOnly := by
  cases entries with
  | nil => rfl
  | cons entry rest => trivial

theorem workspaceSpan_raises (workspaceSections : List (ℕ × ℕ)) :
    Meets (workspaceSpan workspaceSections) (fun _ => True) ValueErrorOnly := by
  unfold workspaceSpan
  split_ifs
  · trivial
  · exact span_raises _

/-! ## Tasks -/

/-- A search over natural bounds returns a sorted least task set inside the file. -/
theorem findTaskOffsets_meets (data : Bytes) (contentOffset contentSize : ℕ) :
    Meets (findTaskOffsets data contentOffset contentSize)
      (fun tasks => contentOffset + contentSize ≤ data.size ∧ tasks.Pairwise (· < ·) ∧
        (∀ base ∈ tasks, base % 0x100 = 0 ∧ InSection contentSize base) ∧
        IsLeast {found | TaskClosed data contentOffset contentSize found} {base | base ∈ tasks})
      ValueErrorOnly := by
  refine Meets.guard rfl fun _ => Meets.guard rfl fun hend => ?_
  have hroom : contentOffset + contentSize ≤ data.size := by omega
  have hspec := searchTasks_spec hroom
  rw [Int.toNat_natCast, Int.toNat_natCast]
  revert hspec
  cases searchTasks data contentOffset contentSize with
  | ok tasks =>
    rintro ⟨hsorted, hplaced, hleast, -⟩
    exact ⟨hroom, hsorted, hplaced, hleast⟩
  | error e =>
    rintro ⟨⟨message, rfl⟩, -⟩
    rfl

/-- A least task set that is not empty holds a task record. -/
theorem exists_taskRecord_of_isLeast {contentOffset contentSize first : ℕ} {found : Set ℕ}
    (hleast : IsLeast {found | TaskClosed data contentOffset contentSize found} found) (hfirst : first ∈ found) :
    ∃ base ∈ found, TaskRecord data contentOffset contentSize base := by
  by_contra hnone
  have hempty : TaskClosed data contentOffset contentSize ∅ :=
    ⟨fun base hbase => hnone ⟨base, hleast.1.records base hbase, hbase⟩, fun base hbase => hbase.elim,
      fun base hbase => hbase.elim⟩
  exact hleast.2 hempty hfirst

/-- Among tasks inside the file, one of them a record, the search for the first record returns. -/
theorem firstRecordTask_meets {textSegmentOffset : ℕ} {tasks : List ℕ}
    (hroom : ∀ base ∈ tasks, textSegmentOffset + base + 0x2C ≤ data.size)
    (hrecord : ∃ base ∈ tasks, isTaskRecord (data.u32 (textSegmentOffset + base + 0x28)) = true) :
    Meets (firstRecordTask data textSegmentOffset tasks) (fun base => base ∈ tasks) ValueErrorOnly := by
  induction tasks with
  | nil =>
    obtain ⟨base, hbase, -⟩ := hrecord
    cases hbase
  | cons offset rest ih =>
    have hfits := hroom offset List.mem_cons_self
    rw [firstRecordTask, unpackU32_of_le (by omega), ok_bind]
    split_ifs with hword
    · exact List.mem_cons_self
    · obtain ⟨base, hbase, hmatch⟩ := hrecord
      have hrest : base ∈ rest := by
        rcases List.mem_cons.mp hbase with rfl | hbase
        · exact absurd hmatch hword
        · exact hbase
      exact (ih (fun b hb => hroom b (List.mem_cons_of_mem offset hb)) ⟨base, hrest, hmatch⟩).mono
        fun b hb => List.mem_cons_of_mem offset hb

/-! ## The accepted geometry -/

/-- The relations between an accepted image, its file and its two main sections. -/
structure ImageLayout (data : Bytes) (image : HWXImage) (text kernel : Section) : Prop where
  textSection : find image.sections ("__TEXT", "__text") = some text
  kernelSection : find image.sections ("__TEXT", "__const") = some kernel
  contentOffset : image.contentOffset = text.fileOffset
  taskStreamSize : image.taskStreamSize = text.size
  textInFile : text.fileOffset + text.size ≤ data.size
  tasks : ∃ tasks, findTaskOffsets data text.fileOffset text.size = .ok tasks ∧
    1 ≤ tasks.length ∧ image.tdCount = tasks.length
  kernelFile : kernel.fileOffset = image.contentOffset + image.kernelOffset
  kernelOffset : image.kernelOffset = align16 image.taskStreamSize
  kernelSize : image.kernelSize = kernel.size + ((kernelExtra image.sections).map Section.size).getD 0
  split : ∀ extra, kernelExtra image.sections = some extra →
    extra.fileOffset = kernel.fileOffset + kernel.size + image.kernelGap ∧
      image.contentSize = image.kernelOffset + image.kernelSize
  whole : kernelExtra image.sections = none → image.kernelGap = 0 ∧
    image.kernelOffset + image.kernelSize ≤ image.contentSize ∧
    image.tdOffset + image.tdSize ≤ image.contentSize ∧
    image.contentOffset + image.contentSize ≤ data.size
  kernelIsBlob : image.kernelIsBlob =
    isWeightBlob (data.slice kernel.fileOffset (kernel.fileOffset + blobHeaderSize + 4))

/-- The derivation fails only by value errors, and what it returns has the layout relations. -/
theorem deriveImage_meets {commands : LoadCommands} {required : Required} (hsegments : SegmentsInFile data commands)
    (hrequired : RequiredOf commands required) :
    Meets (deriveImage data commands required)
      (fun image => ImageLayout data image required.text required.kernel) ValueErrorOnly := by
  obtain ⟨textSegmentOffset, textSegmentSize, text, kernel, inputSections, outputSections⟩ := required
  have hsegment := hsegments _ _ _ hrequired.segment
  refine Meets.guard rfl fun hoverlap => ?_
  refine (span_raises _).bind fun inputSize _ => ?_
  refine (span_raises _).bind fun outputSize _ => ?_
  refine (workspaceSpan_raises _).bind fun workspaceSize _ => ?_
  refine Meets.guard rfl fun hstart => ?_
  rw [ne_eq, Decidable.not_not] at hstart
  subst hstart
  have htasks := findTaskOffsets_meets data text.fileOffset text.size
  revert htasks
  cases hfound : findTaskOffsets data text.fileOffset text.size with
  | error e => exact id
  | ok tasks =>
    rintro ⟨hroom, -, hplaced, hleast⟩
    cases tasks with
    | nil => rfl
    | cons first others =>
      refine Meets.guard rfl fun htd => Meets.guard rfl fun hkernel => ?_
      refine Meets.guard rfl fun halign => Meets.guard rfl fun hempty => ?_
      obtain ⟨base, hbase, hrecord⟩ := exists_taskRecord_of_isLeast hleast (List.mem_cons_self : first ∈ _)
      have hinside : ∀ base ∈ first :: others, text.fileOffset + base + 0x2C ≤ data.size := by
        intro base hbase
        have := (hplaced base hbase).2
        unfold InSection taskHeaderSize at this
        omega
      refine (firstRecordTask_meets hinside ⟨base, hbase, hrecord.2.2⟩).bind fun kdmaOffset _ => ?_
      refine (decodeKdma_raises _).bind fun kdma _ => ?_
      refine (decodeTileDma_raises _).bind fun tileDma _ => ?_
      rw [not_or] at hkernel
      have hkernelFile : text.fileOffset + (kernel.fileOffset - text.fileOffset) = kernel.fileOffset := by
        omega
      refine ⟨hrequired.text, hrequired.kernel, rfl, rfl, hroom, ⟨_, hfound, by simp, rfl⟩, hkernelFile.symm,
        Decidable.not_not.mp halign, rfl, fun extra hextra => ?_, fun hextra => ?_, ?_⟩
      · dsimp only at hextra ⊢
        simp only [hextra, Option.any_some, decide_eq_true_eq] at hoverlap
        simp only [hextra, Option.map_some, Option.getD_some, Option.isSome_some, if_true]
        exact ⟨by omega, trivial⟩
      · dsimp only at hextra ⊢
        have hfits := not_and.mp hkernel.2 hextra
        simp only [hextra, Option.map_none, Option.getD_none, Option.isSome_none, Nat.add_zero,
          Nat.sub_zero] at hfits ⊢
        exact ⟨trivial, Nat.le_of_not_lt hfits, Nat.le_of_not_lt htd, hsegment⟩
      · dsimp only
        rw [hkernelFile]

/-- The parser fails only by value errors, and what it returns has the layout relations. -/
theorem parseHwx_meets (data : Bytes) : Meets (parseHwx data)
    (fun image => ∃ text kernel, ImageLayout data image text kernel) ValueErrorOnly := by
  refine (readLoadCommands_meets data).bind fun commands hsegments => ?_
  refine (requireSections_meets commands).bind fun required hrequired => ?_
  exact (deriveImage_meets hsegments hrequired).mono fun image himage => ⟨_, _, himage⟩

/-- Rounding up to sixteen does not go below. -/
theorem le_align16 (n : ℕ) : n ≤ align16 n := by
  unfold align16
  omega

/-- The parser raises nothing but value errors, and accepts only a container whose kernel sits
at the aligned end of a task stream with at least one task; without a second kernel section
the stream, the kernel and the first task lie in the content and the content in the file. -/
theorem parseHwx_consistent (data : Bytes) : Meets (parseHwx data)
    (fun image => image.kernelOffset = align16 image.taskStreamSize ∧ 1 ≤ image.tdCount ∧
      (find image.sections ("__KERN_0", "__kern_0") = none →
        image.taskStreamSize ≤ image.kernelOffset ∧
        image.kernelOffset + image.kernelSize ≤ image.contentSize ∧
        image.tdOffset + image.tdSize ≤ image.contentSize ∧
        image.contentOffset + image.contentSize ≤ data.size))
    (fun e => e.isValueError = true) := by
  refine (parseHwx_meets data).mono ?_
  rintro image ⟨text, kernel, hlayout⟩
  obtain ⟨tasks, -, hpositive, hcount⟩ := hlayout.tasks
  refine ⟨hlayout.kernelOffset, hcount ▸ hpositive, fun hextra => ?_⟩
  obtain ⟨-, hkernel, htd, hcontent⟩ := hlayout.whole hextra
  exact ⟨hlayout.kernelOffset ▸ le_align16 _, hkernel, htd, hcontent⟩

end AneLinux.Hwx
