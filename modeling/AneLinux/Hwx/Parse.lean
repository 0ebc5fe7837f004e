import AneLinux.Hwx.Image
import AneLinux.Hwx.TaskSearch

/-!
# Parsing an HWX container

An HWX is a Mach-O file. The parser walks its load commands, collects the sections of every
segment, and derives the payload geometry from the text segment, its task stream, the kernel
section and, in a split container, the second kernel section. Every read of the file is a
checked one here, so that a read outside the file would show as a struct error.
-/

namespace AneLinux.Hwx

open AneLinux.Support

/-- Read a fixed-size structure: the whole of it has to lie in the data. -/
def unpackFrom {α : Type} (data : Bytes) (offset size : ℕ) (fields : α) : Py α :=
  if offset + size ≤ data.size then .ok fields else .error .structError

/-- The bytes of a name field up to its first NUL. -/
def nameBytes (data : Bytes) (offset : ℕ) : List UInt8 :=
  ((List.range 16).map fun i => data.get (offset + i)).takeWhile fun b => b ≠ 0

/-- Decode a NUL-padded ASCII name. -/
def decodeName (raw : List UInt8) : Py String :=
  if raw.all fun b => b < 0x80 then
    .ok (String.ofList (raw.map fun b => Char.ofNat b.toNat))
  else
    .error .unicodeDecodeError

/-- What the load commands of a file declare. -/
structure LoadCommands where
  sections : List (SectionKey × Section)
  segments : List (String × (ℕ × ℕ))
  sectionRanges : List (SectionKey × List (ℕ × ℕ))
deriving DecidableEq, Repr

/-- No command read yet. -/
def LoadCommands.empty : LoadCommands := ⟨[], [], []⟩

/-- The section header fields the parser reads. -/
structure SectionHeader where
  rawName : List UInt8
  rawSegment : List UInt8
  address : ℕ
  size : ℕ
  fileOffset : ℕ

/-- `struct.unpack_from("<16s16sQQIIIIIIII", data, offset)`. -/
def unpackSectionHeader (data : Bytes) (offset : ℕ) : Py SectionHeader :=
  unpackFrom data offset 80 {
    rawName := nameBytes data offset
    rawSegment := nameBytes data (offset + 16)
    address := data.u64 (offset + 32)
    size := data.u64 (offset + 40)
    fileOffset := data.u32 (offset + 48) }

/-- The segment command fields the parser reads. -/
structure SegmentCommand where
  rawSegment : List UInt8
  fileOffset : ℕ
  fileSize : ℕ
  sectionCount : ℕ

/-- `struct.unpack_from("<II16sQQQQiiII", data, offset)`. -/
def unpackSegmentCommand (data : Bytes) (offset : ℕ) : Py SegmentCommand :=
  unpackFrom data offset 72 {
    rawSegment := nameBytes data (offset + 8)
    fileOffset := data.u64 (offset + 40)
    fileSize := data.u64 (offset + 48)
    sectionCount := data.u32 (offset + 64) }

/-- Read one section header and record it; only `__FVMLIB` sections may repeat a name. -/
def readSection (data : Bytes) (fileSize : ℕ) (commands : LoadCommands) (offset : ℕ) :
    Py LoadCommands := do
  let header ← unpackSectionHeader data offset
  let name ← decodeName header.rawName
  let segment ← decodeName header.rawSegment
  if fileSize ≠ 0 ∧ data.size < header.fileOffset + header.size then
    raiseValue ("section " ++ segment ++ "," ++ name ++ " exceeds the file")
  else if (find commands.sections (segment, name)).isSome ∧ segment ≠ "__FVMLIB" then
    raiseValue ("duplicate Mach-O section " ++ segment ++ "," ++ name)
  else
    return {
      sections := assign commands.sections (segment, name)
        ⟨segment, name, header.address, header.size, header.fileOffset⟩
      segments := commands.segments
      sectionRanges := assign commands.sectionRanges (segment, name)
        ((find commands.sectionRanges (segment, name)).getD [] ++ [(header.address, header.size)]) }

/-- Read one segment command with all of its sections. -/
def readSegment (data : Bytes) (commandOffset commandSize : ℕ) (commands : LoadCommands) :
    Py LoadCommands :=
  if commandSize < 72 then
    raiseValue "truncated LC_SEGMENT_64"
  else do
    let command ← unpackSegmentCommand data commandOffset
    let segment ← decodeName command.rawSegment
    if data.size < command.fileOffset + command.fileSize then
      raiseValue ("segment " ++ segment ++ " exceeds the file")
    else if commandOffset + commandSize < commandOffset + 72 + command.sectionCount * 80 then
      raiseValue ("sections exceed " ++ segment ++ " load command")
    else
      (List.range command.sectionCount).foldlM
        (fun commands index => readSection data command.fileSize commands (commandOffset + 72 + index * 80))
        { commands with segments := assign commands.segments segment (command.fileOffset, command.fileSize) }

/-- Read the given number of load commands; returns the offset past the last one. -/
def readCommands (data : Bytes) (commandsEnd : ℕ) : ℕ → ℕ → LoadCommands → Py (ℕ × LoadCommands)
  | 0, commandOffset, commands => return (commandOffset, commands)
  | count + 1, commandOffset, commands =>
    if commandsEnd < commandOffset + 8 then
      raiseValue "truncated Mach-O load command"
    else do
      let (command, commandSize) ← unpackFrom data commandOffset 8
        (data.u32 commandOffset, data.u32 (commandOffset + 4))
      if commandSize < 8 ∨ commandsEnd < commandOffset + commandSize then
        raiseValue "invalid Mach-O load command size"
      else do
        let commands ← if command = 0x19 then readSegment data commandOffset commandSize commands
          else .ok commands
        readCommands data commandsEnd count (commandOffset + commandSize) commands

/-- Read the Mach-O header and its load command table. -/
def readLoadCommands (data : Bytes) : Py LoadCommands :=
  if data.size < 32 ∨ data.size % 4 ≠ 0 then
    raiseValue "HWX must have a 32-byte header and 4-byte alignment"
  else do
    let (magic, ncmds, sizeofcmds) ← unpackFrom data 0 32 (data.u32 0, data.u32 16, data.u32 20)
    if magic ≠ 0xFEEDFACF ∧ magic ≠ 0xBEEFFACE then
      raiseValue ("expected 64-bit little-endian Mach-O, got " ++ hex magic)
    else if data.size < 32 + sizeofcmds then
      raiseValue "Mach-O load commands exceed the file"
    else do
      let (commandOffset, commands) ← readCommands data (32 + sizeofcmds) ncmds 32 LoadCommands.empty
      if commandOffset ≠ 32 + sizeofcmds then
        raiseValue "Mach-O load command table has trailing bytes"
      else
        return commands

/-- The segments and sections that every container has to have. -/
structure Required where
  textSegmentOffset : ℕ
  textSegmentSize : ℕ
  text : Section
  kernel : Section
  inputSections : List (ℕ × ℕ)
  outputSections : List (ℕ × ℕ)
deriving DecidableEq, Repr

/-- Look the required entries up, one dictionary read after the other. -/
def lookupRequired (commands : LoadCommands) : Py Required := do
  let (textSegmentOffset, textSegmentSize) ← lookup commands.segments "__TEXT" "__TEXT"
  let text ← lookup commands.sections ("__TEXT", "__text") "('__TEXT', '__text')"
  let kernel ← lookup commands.sections ("__TEXT", "__const") "('__TEXT', '__const')"
  let inputSections ← lookup commands.sectionRanges ("__FVMLIB", "__const") "('__FVMLIB', '__const')"
  let outputSections ← lookup commands.sectionRanges ("__FVMLIB", "__data") "('__FVMLIB', '__data')"
  return { textSegmentOffset, textSegmentSize, text, kernel, inputSections, outputSections }

/-- `except KeyError`: a missing entry becomes a value error that names it. -/
def requireSections (commands : LoadCommands) : Py Required :=
  match lookupRequired commands with
  | .error (.keyError key) => raiseValue ("missing required Mach-O section: " ++ key)
  | result => result

/-- The address span of a list of ranges. -/
def span : List (ℕ × ℕ) → Py ℕ
  | [] => raiseValue "max() iterable argument is empty"
  | (address, size) :: rest =>
    return rest.foldl (fun top entry => max top (entry.1 + entry.2)) (address + size) -
      rest.foldl (fun low entry => min low entry.1) address

/-- The span of the workspace sections, zero when there is none. -/
def workspaceSpan (workspaceSections : List (ℕ × ℕ)) : Py ℕ :=
  if workspaceSections.isEmpty then .ok 0 else span workspaceSections

/-- Round up to a multiple of sixteen. -/
def align16 (n : ℕ) : ℕ := n + 0xF - (n + 0xF) % 0x10

/-- The first task with a leading record. -/
def firstRecordTask (data : Bytes) (textSegmentOffset : ℕ) : List ℕ → Py ℕ
  | [] => .error .stopIteration
  | offset :: rest => do
    let word ← unpackU32 data (textSegmentOffset + offset + 0x28)
    if isTaskRecord word then return offset else firstRecordTask data textSegmentOffset rest

/-- The second kernel section of a split container. -/
def kernelExtra (sections : List (SectionKey × Section)) : Option Section :=
  find sections ("__KERN_0", "__kern_0")

/-- Derive the payload geometry once the required entries are there. -/
def deriveImage (data : Bytes) (commands : LoadCommands) (required : Required) : Py HWXImage := do
  let { textSegmentOffset, textSegmentSize, text, kernel, inputSections, outputSections } := required
  let extra := kernelExtra commands.sections
  let kernelEnd := kernel.fileOffset + kernel.size
  if extra.any fun extra => extra.fileOffset < kernelEnd then
    raiseValue "overlapping split-kernel sections"
  else do
    let kernelGap := (extra.map fun extra => extra.fileOffset - kernelEnd).getD 0
    let kernelSize := kernel.size + (extra.map Section.size).getD 0
    let inputSize ← span inputSections
    let outputSize ← span outputSections
    let workspaceSections := (find commands.sectionRanges ("__DATA", "__bss")).getD []
    let workspaceSize ← workspaceSpan workspaceSections
    if textSegmentOffset ≠ text.fileOffset then
      raiseValue "__TEXT,__text must start the __TEXT file payload"
    else do
      let taskOffsets ← findTaskOffsets data text.fileOffset text.size
      match taskOffsets with
      | [] => raiseValue "expected at least one task descriptor in __TEXT"
      | first :: others =>
        let tdOffset := first + text.fileOffset - textSegmentOffset
        let tdSize := others.head?.getD text.size - first
        let kernelOffset := kernel.fileOffset - textSegmentOffset
        if textSegmentSize < tdOffset + tdSize then
          raiseValue "task descriptor exceeds the __TEXT payload"
        else if kernel.fileOffset < textSegmentOffset ∨
            extra = none ∧ textSegmentSize < kernelOffset + kernelSize then
          raiseValue "kernel section exceeds the __TEXT payload"
        else if kernelOffset ≠ align16 text.size then
          raiseValue ("kernel section at " ++ hex kernelOffset ++ " is not at align16(tsk_size) = " ++
            hex (align16 text.size))
        else if inputSize = 0 ∨ outputSize = 0 then
          raiseValue "empty input or output buffer span"
        else do
          let kdmaOffset ← firstRecordTask data textSegmentOffset taskOffsets
          let td := data.slice (textSegmentOffset + kdmaOffset) (textSegmentOffset + kdmaOffset + tdSize)
          let kdma ← decodeKdma td
          let tileDma ← decodeTileDma td
          let start := textSegmentOffset + kernelOffset
          return {
            sections := commands.sections
            contentOffset := textSegmentOffset
            contentSize := if extra.isSome then kernelOffset + kernelSize else textSegmentSize - kernelGap
            taskStreamSize := text.size
            tdOffset
            tdCount := taskOffsets.length
            tdSize
            kernelOffset
            kernelSize
            workspaceSize
            inputSize
            outputSize
            inputSections
            outputSections
            kdma
            tileDma
            kernelIsBlob := isWeightBlob (data.slice start (start + blobHeaderSize + 4))
            kernelGap
            kernelPart1 := kernelSize - (extra.map Section.size).getD 0
            kernelExtraOff := (extra.map Section.fileOffset).getD 0 }

/-- Parse Mach-O sections and derive the payload geometry. -/
def parseHwx (data : Bytes) : Py HWXImage := do
  let commands ← readLoadCommands data
  let required ← requireSections commands
  deriveImage data commands required

end AneLinux.Hwx
