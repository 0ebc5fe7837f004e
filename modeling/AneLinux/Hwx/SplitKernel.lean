import AneLinux.Hwx.ConvertFile

/-!
# The file ranges of a split kernel

The parser checks the range of a section against the file only when the segment command that
declares it has a nonzero file size, and it skips the kernel bound for a container with a second
kernel section. The ranges the kernel is spliced from are inside the file exactly when those
that a command without file bytes declares are.
-/

namespace AneLinux.Hwx

open AneLinux.Support AneLinux.Anec

/-- A section header in the file, with the file size of the segment command that declares it. -/
structure DeclaredSection where
  segmentFileSize : ℕ
  offset : ℕ
deriving DecidableEq, Repr

/-- The section headers of the load command at an offset; only segment commands have some. -/
def segmentDeclares (data : Bytes) (commandOffset : ℕ) : List DeclaredSection :=
  if data.u32 commandOffset = 0x19 then
    (List.range (data.u32 (commandOffset + 64))).map fun index =>
      ⟨data.u64 (commandOffset + 48), commandOffset + 72 + index * 80⟩
  else []

/-- The section headers of consecutive load commands. -/
def commandsDeclare (data : Bytes) : ℕ → ℕ → List DeclaredSection
  | 0, _ => []
  | count + 1, commandOffset =>
    segmentDeclares data commandOffset ++
      commandsDeclare data count (commandOffset + data.u32 (commandOffset + 4))

/-- All section headers of a file. -/
def declaredSections (data : Bytes) : List DeclaredSection := commandsDeclare data (data.u32 16) 32

/-- A section header spells a key and a section. -/
def Spells (data : Bytes) (header : DeclaredSection) (key : SectionKey) (found : Section) : Prop :=
  decodeName (nameBytes data (header.offset + 16)) = .ok key.1 ∧
    decodeName (nameBytes data header.offset) = .ok key.2 ∧
    found = ⟨key.1, key.2, data.u64 (header.offset + 32), data.u64 (header.offset + 40),
      data.u32 (header.offset + 48)⟩

/-- The two sections a split kernel is spliced from. -/
def kernelKeys : List SectionKey := [("__TEXT", "__const"), ("__KERN_0", "__kern_0")]

/-- Both kernel ranges lie in the file, and every conversion writes the whole kernel. -/
structure SplitKernelWhole (data : Bytes) (image : HWXImage) : Prop where
  ranges : ∀ key ∈ kernelKeys, ∀ found, find image.sections key = some found →
    found.fileOffset + found.size ≤ data.size
  written : ∀ inCh outCh inShape outShape blob tdSizeOverride converted file,
    convertHwxFile data inCh outCh inShape outShape blob tdSizeOverride none = .ok (converted, file) →
    file.size = contentStart + image.kernelOffset + image.kernelSize

/-- A kernel section that a command without file bytes declares lies in the file anyway. -/
def UncheckedInFile (data : Bytes) : Prop :=
  ∀ header ∈ declaredSections data, header.segmentFileSize = 0 → ∀ key ∈ kernelKeys, ∀ found,
    Spells data header key found → found.fileOffset + found.size ≤ data.size

/-! ## What the load commands record -/

/-- The recorded sections are those of some section headers, each in the file where it was
checked, and every header of a segment other than `__FVMLIB` is recorded. -/
structure Recorded (data : Bytes) (headers : List DeclaredSection) (commands : LoadCommands) : Prop where
  sound : ∀ key found, find commands.sections key = some found → ∃ header ∈ headers,
    Spells data header key found ∧ (header.segmentFileSize ≠ 0 → found.fileOffset + found.size ≤ data.size)
  complete : ∀ header ∈ headers, ∀ key found, Spells data header key found → key.1 ≠ "__FVMLIB" →
    find commands.sections key = some found

section Records

variable {data : Bytes} {headers : List DeclaredSection} {commands : LoadCommands}

theorem recorded_empty : Recorded data [] LoadCommands.empty where
  sound key found hfind := by cases hfind
  complete header hheader := by cases hheader

/-- One section header is recorded. -/
theorem readSection_records (h : Recorded data headers commands) (fileSize offset : ℕ) :
    Meets (readSection data fileSize commands offset) (Recorded data (headers ++ [⟨fileSize, offset⟩]))
      fun _ => True := by
  refine (Meets.returns _).bind fun header hheader => ?_
  have hroom : offset + 80 ≤ data.size := by
    by_contra hshort
    rw [unpackSectionHeader, unpackFrom, if_neg hshort] at hheader
    cases hheader
  rw [unpackSectionHeader, unpackFrom_of_le hroom] at hheader
  obtain rfl := Except.ok.inj hheader
  refine (Meets.returns _).bind fun name hname => ?_
  refine (Meets.returns _).bind fun segment hsegment => ?_
  refine Meets.guard trivial fun hfile => Meets.guard trivial fun hduplicate => ?_
  refine ⟨fun key found hfind => ?_, fun header hheader key found hspells hkey => ?_⟩
  · rw [find_assign] at hfind
    split_ifs at hfind with hsame
    · obtain rfl := Option.some.inj hfind
      subst hsame
      refine ⟨⟨fileSize, offset⟩, List.mem_append_right _ List.mem_cons_self, ⟨hsegment, hname, rfl⟩,
        fun hchecked => ?_⟩
      exact Nat.le_of_not_lt (not_and.mp hfile hchecked)
    · obtain ⟨header, hheader, hspells⟩ := h.sound key found hfind
      exact ⟨header, List.mem_append_left _ hheader, hspells⟩
  · rw [find_assign]
    rcases List.mem_append.mp hheader with hold | hnew
    · have hfound := h.complete header hold key found hspells hkey
      have hother : (segment, name) ≠ key := by
        rintro rfl
        exact hduplicate ⟨by rw [hfound]; rfl, hkey⟩
      rw [if_neg hother, hfound]
    · obtain rfl := List.mem_singleton.mp hnew
      obtain ⟨hspelled, hnamed, rfl⟩ := hspells
      have hkeySegment : segment = key.1 := Except.ok.inj (hsegment.symm.trans hspelled)
      have hkeyName : name = key.2 := Except.ok.inj (hname.symm.trans hnamed)
      rw [hkeySegment, hkeyName, if_pos rfl]

/-- Consecutive section headers are recorded. -/
theorem readSections_record (h : Recorded data headers commands) (fileSize table : ℕ) (indices : List ℕ) :
    Meets (indices.foldlM (fun commands index => readSection data fileSize commands (table + index * 80)) commands)
      (Recorded data (headers ++ indices.map fun index => ⟨fileSize, table + index * 80⟩)) fun _ => True := by
  induction indices generalizing headers commands with
  | nil =>
    rw [List.map_nil, List.append_nil]
    exact h
  | cons index rest ih =>
    rw [List.foldlM_cons]
    refine (readSection_records h fileSize (table + index * 80)).bind fun next hnext => ?_
    have htail := ih hnext
    rwa [List.append_assoc] at htail

/-- The section headers of a segment command are recorded. -/
theorem readSegment_records (h : Recorded data headers commands) (commandOffset commandSize : ℕ)
    (hsegment : data.u32 commandOffset = 0x19) :
    Meets (readSegment data commandOffset commandSize commands)
      (Recorded data (headers ++ segmentDeclares data commandOffset)) fun _ => True := by
  refine Meets.guard trivial fun _ => ?_
  refine (Meets.returns _).bind fun command hcommand => ?_
  have hroom : commandOffset + 72 ≤ data.size := by
    by_contra hshort
    rw [unpackSegmentCommand, unpackFrom, if_neg hshort] at hcommand
    cases hcommand
  rw [unpackSegmentCommand, unpackFrom_of_le hroom] at hcommand
  have hfields := Except.ok.inj hcommand
  refine (Meets.any _).bind fun segment _ => ?_
  refine Meets.guard trivial fun _ => Meets.guard trivial fun _ => ?_
  have hstart : Recorded data headers { commands with
      segments := assign commands.segments segment (command.fileOffset, command.fileSize) } :=
    ⟨h.sound, h.complete⟩
  have hrecords := readSections_record hstart command.fileSize (commandOffset + 72)
    (List.range command.sectionCount)
  have hheaders : segmentDeclares data commandOffset = (List.range command.sectionCount).map fun index =>
      ⟨command.fileSize, commandOffset + 72 + index * 80⟩ := by
    rw [segmentDeclares, if_pos hsegment, ← hfields]
  rw [hheaders]
  exact hrecords

/-- The section headers of consecutive load commands are recorded. -/
theorem readCommands_record (h : Recorded data headers commands) (commandsEnd count commandOffset : ℕ) :
    Meets (readCommands data commandsEnd count commandOffset commands)
      (fun result => Recorded data (headers ++ commandsDeclare data count commandOffset) result.2)
      fun _ => True := by
  induction count generalizing headers commands commandOffset with
  | zero =>
    rw [commandsDeclare, List.append_nil]
    exact h
  | succ count ih =>
    refine Meets.guard trivial fun _ => ?_
    refine (Meets.returns _).bind fun words hwords => ?_
    have hroom : commandOffset + 8 ≤ data.size := by
      by_contra hshort
      rw [unpackFrom, if_neg hshort] at hwords
      cases hwords
    rw [unpackFrom_of_le hroom] at hwords
    obtain rfl := Except.ok.inj hwords
    refine Meets.guard trivial fun _ => ?_
    rw [commandsDeclare, ← List.append_assoc]
    by_cases hsegment : data.u32 commandOffset = 0x19
    · dsimp only
      rw [if_pos hsegment]
      exact (readSegment_records h _ _ hsegment).bind fun next hnext => ih hnext _
    · dsimp only
      rw [if_neg hsegment]
      have hnone : segmentDeclares data commandOffset = [] := if_neg hsegment
      rw [hnone, List.append_nil]
      exact ih h _

/-- The load commands of a file record its section headers. -/
theorem readLoadCommands_records (data : Bytes) :
    Meets (readLoadCommands data) (Recorded data (declaredSections data)) fun _ => True := by
  refine Meets.guard trivial fun hsize => ?_
  rw [not_or] at hsize
  rw [unpackFrom_of_le (by omega), ok_bind]
  refine Meets.guard trivial fun _ => Meets.guard trivial fun _ => ?_
  refine (readCommands_record recorded_empty _ _ _).bind fun result hresult => ?_
  exact Meets.guard trivial fun _ => hresult

end Records

/-! ## The spliced ranges -/

/-- The image lists the sections of the load commands. -/
theorem deriveImage_sections (data : Bytes) (commands : LoadCommands) (required : Required) :
    Meets (deriveImage data commands required) (fun image => image.sections = commands.sections)
      fun _ => True := by
  refine Meets.guard trivial fun _ => ?_
  refine (Meets.any _).bind fun inputSize _ => ?_
  refine (Meets.any _).bind fun outputSize _ => ?_
  refine (Meets.any _).bind fun workspaceSize _ => ?_
  refine Meets.guard trivial fun _ => ?_
  refine (Meets.any _).bind fun tasks _ => ?_
  cases tasks with
  | nil => trivial
  | cons first others =>
    refine Meets.guard trivial fun _ => Meets.guard trivial fun _ => ?_
    refine Meets.guard trivial fun _ => Meets.guard trivial fun _ => ?_
    refine (Meets.any _).bind fun base _ => ?_
    refine (Meets.any _).bind fun kdma _ => ?_
    exact (Meets.any _).bind fun tileDma _ => rfl

/-- A conversion of a split container whose ranges lie in the file writes the whole kernel. -/
theorem written_of_ranges {data : Bytes} {image converted : HWXImage} {extra : Section}
    (h : parseHwx data = .ok image) (hextra : kernelExtra image.sections = some extra)
    (hfile : extra.fileOffset + extra.size ≤ data.size) {inCh outCh : ℤ} {inShape outShape : Option Shape}
    {blob : Option Bytes} {tdSizeOverride : Option ℤ} {file : Bytes}
    (hconvert : convertHwxFile data inCh outCh inShape outShape blob tdSizeOverride none = .ok (converted, file)) :
    file.size = contentStart + image.kernelOffset + image.kernelSize := by
  obtain ⟨header, payload, spliced, hparse, hheader, hpayload, hspliced, rfl⟩ := convertHwxFile_eq_ok hconvert
  obtain rfl : image = converted := Except.ok.inj (h.symm.trans hparse)
  obtain ⟨text, kernel, hlayout⟩ := (parseHwx_meets data).value h
  have hcontent := contentLayout_of_payload hlayout (fun other hother => by
    obtain rfl := Option.mem_unique hextra hother
    exact hfile) hpayload hspliced
  rw [Bytes.size_append, buildHeader_padded hheader, hcontent.size, (hlayout.split extra hextra).2, Nat.add_assoc]

/-- In an accepted split container both kernel ranges lie in the file, and the whole kernel is
written, exactly when the kernel sections that a segment command without file bytes declares
lie in the file. -/
theorem parseHwx_splitKernel_iff (data : Bytes) (image : HWXImage) (h : parseHwx data = .ok image)
    (hsplit : (find image.sections ("__KERN_0", "__kern_0")).isSome) :
    SplitKernelWhole data image ↔ UncheckedInFile data := by
  obtain ⟨commands, hcommands, hderive⟩ := bind_eq_ok.mp h
  obtain ⟨required, -, hderive⟩ := bind_eq_ok.mp hderive
  have hsections := (deriveImage_sections data commands required).value hderive
  have hrecorded := (readLoadCommands_records data).value hcommands
  constructor
  · intro hwhole header hheader _ key hkey found hspells
    have hother : key.1 ≠ "__FVMLIB" := by
      simp only [kernelKeys, List.mem_cons, List.not_mem_nil, or_false] at hkey
      rcases hkey with rfl | rfl
      · decide
      · decide
    apply hwhole.ranges key hkey
    rw [hsections]
    exact hrecorded.complete header hheader key found hspells hother
  · intro hunchecked
    have hranges (key : SectionKey) (hkey : key ∈ kernelKeys) (found : Section)
        (hfound : find image.sections key = some found) : found.fileOffset + found.size ≤ data.size := by
      rw [hsections] at hfound
      obtain ⟨header, hheader, hspells, hchecked⟩ := hrecorded.sound key found hfound
      by_cases hempty : header.segmentFileSize = 0
      · exact hunchecked header hheader hempty key hkey found hspells
      · exact hchecked hempty
    obtain ⟨extra, hextra⟩ := Option.isSome_iff_exists.mp hsplit
    refine ⟨hranges, fun inCh outCh inShape outShape blob tdSizeOverride converted file hconvert => ?_⟩
    exact written_of_ranges h hextra (hranges _ (by simp [kernelKeys]) extra hextra) hconvert

theorem parseHwx_splitKernel_iff_container : ∃ image,
    parseHwx (container 0x100 [(0x28, 0x1F800)] (some 0x10)) = .ok image ∧
      (SplitKernelWhole (container 0x100 [(0x28, 0x1F800)] (some 0x10)) image ↔
        UncheckedInFile (container 0x100 [(0x28, 0x1F800)] (some 0x10))) := by
  have hsplit : (parseHwx (container 0x100 [(0x28, 0x1F800)] (some 0x10))).map (fun image =>
      (find image.sections ("__KERN_0", "__kern_0")).isSome) = .ok true := by decide +kernel
  obtain ⟨image, himage, hsplit⟩ := exists_ok_of_map hsplit
  exact ⟨image, himage, parseHwx_splitKernel_iff _ image himage hsplit⟩

/-- The second kernel section has 0x10 bytes left in the file, declares 0x20, and belongs to a
segment command without file bytes. -/
def shortKernel : Bytes :=
  ((container 0x100 [(0x28, 0x1F800)] (some 0x10)).putLE (496 + 48) 8 0).putLE (568 + 40) 8 0x20

/-- The parser accepts the short kernel, and the converter writes 0x20 of its 0x30 bytes. -/
theorem parseHwx_accepts_short_kernel : ∃ image file, parseHwx shortKernel = .ok image ∧
    convertHwxFile shortKernel 1 1 none none none none none = .ok (image, file) ∧
    (find image.sections ("__KERN_0", "__kern_0")).isSome ∧
    image.kernelSize = 0x30 ∧ file.size = contentStart + image.kernelOffset + 0x20 ∧
    ¬ SplitKernelWhole shortKernel image := by
  have hfields : (convertHwxFile shortKernel 1 1 none none none none none).map (fun result =>
      ((find result.1.sections ("__KERN_0", "__kern_0")).isSome, result.1.kernelSize, result.1.kernelOffset,
        result.2.size)) = .ok (true, 0x30, 0x100, 0x1120) := by decide +kernel
  obtain ⟨⟨image, file⟩, hconvert, hfields⟩ := exists_ok_of_map hfields
  obtain ⟨_, _, _, himage, -⟩ := convertHwxFile_eq_ok hconvert
  obtain ⟨hsplit, hkernel, hoffset, hsize⟩ := by simpa only [Prod.mk.injEq] using hfields
  refine ⟨image, file, himage, hconvert, hsplit, hkernel, by rw [hsize, hoffset]; rfl, fun hwhole => ?_⟩
  have hwritten := hwhole.written _ _ _ _ _ _ _ _ hconvert
  rw [hsize, hoffset, hkernel] at hwritten
  exact absurd hwritten (by decide)

end AneLinux.Hwx
