import AneLinux.Hwx.ParseSpec
import AneLinux.Hwx.Header

/-!
# The streaming converter

The artifact is the header, padding up to `0x1000`, and the content. The content is copied
from the text payload in chunks; a kernel that has to be substituted, because it is a weight
blob or because a gap separates its two sections, is written in place of the kernel range.
The loader finds the task stream at `0x1000` and the kernel at the aligned end of the stream.
-/

namespace AneLinux.Hwx

open AneLinux.Support AneLinux.Anec

/-- The longest stretch written at once. -/
def chunkSize : ℕ := 16 * 1024 * 1024

/-- Copy the bytes from `start` to `stop` to the output, one chunk after the other. -/
def copySpan (data : Bytes) (output : Bytes) (start stop : ℕ) : Bytes :=
  if start < stop then
    copySpan data (output ++ data.slice start (min (start + chunkSize) stop)) (min (start + chunkSize) stop) stop
  else
    output
termination_by stop - start
decreasing_by
  unfold chunkSize
  omega

/-- Copy the text payload, substituting the kernel section when a payload is given. -/
def writeContent (output data : Bytes) (image : HWXImage) (payload : Option Bytes) : Bytes :=
  match payload with
  | none => copySpan data output image.contentOffset (image.contentSize + image.contentOffset)
  | some payload =>
    let kernelEnd := image.kernelOffset + image.kernelSize
    let output := copySpan data output image.contentOffset (image.kernelOffset + image.contentOffset)
    copySpan data (output ++ payload) (kernelEnd + image.kernelGap + image.contentOffset)
      (image.contentSize + image.contentOffset)

/-- A shape argument, by default one row of the given channels. -/
def shapeOr (channels : ℤ) (shape : Option Shape) : Shape := shape.getD ⟨1, channels, 1, 1⟩

/-- The substituted kernel: the blob payload, or the two sections of a gapped split kernel. -/
def splicedPayload (data : Bytes) (image : HWXImage) (payload : Option Bytes) : Py (Option Bytes) :=
  if payload = none ∧ image.kernelGap ≠ 0 then do
    let extra ← lookup image.sections ("__KERN_0", "__kern_0") "('__KERN_0', '__kern_0')"
    let part1 := image.kernelSize - extra.size
    let start := image.contentOffset + image.kernelOffset
    return some (data.slice start (start + part1) ++
      data.slice extra.fileOffset (extra.fileOffset + extra.size))
  else
    return payload

/-- Convert a container; returns the image and the written file. The branch that re-lays the
task stream calls a function the module does not define. -/
def convertHwxFile (data : Bytes) (inCh outCh : ℤ) (inShape outShape : Option Shape) (blob : Option Bytes)
    (tdSizeOverride uniformStride : Option ℤ) : Py (HWXImage × Bytes) := do
  let image ← parseHwx data
  if uniformStride.isSome then do
    let _ ← findTaskOffsets data image.contentOffset image.contentSize
    .error (.nameError "uniform_task_relayout")
  else do
    let header ← buildHeader image (shapeOr inCh inShape) (shapeOr outCh outShape) tdSizeOverride
    let payload ← kernelPayload image blob
    let payload ← splicedPayload data image payload
    return (image, writeContent (header ++ Bytes.zeros (contentStart - header.size)) data image payload)

/-- The chunks of a span join to the span. -/
theorem copySpan_eq (data output : Bytes) (start stop : ℕ) :
    copySpan data output start stop = output ++ data.slice start stop := by
  fun_induction copySpan data output start stop with
  | case1 output start hlt ih =>
    rw [ih, Bytes.append_assoc, Bytes.slice_append_slice]
    · omega
    · omega
  | case2 output start hle => rw [Bytes.slice_of_le _ (by omega), Bytes.append_empty]

/-! ## Layout of the content -/

/-- The content that follows the padded header. -/
def contentBytes (data : Bytes) (image : HWXImage) (payload : Option Bytes) : Bytes :=
  match payload with
  | none => data.slice image.contentOffset (image.contentOffset + image.contentSize)
  | some payload =>
    data.slice image.contentOffset (image.contentOffset + image.kernelOffset) ++ (payload ++
      data.slice (image.contentOffset + image.kernelOffset + image.kernelSize + image.kernelGap)
        (image.contentOffset + image.contentSize))

theorem writeContent_eq (output data : Bytes) (image : HWXImage) (payload : Option Bytes) :
    writeContent output data image payload = output ++ contentBytes data image payload := by
  cases payload with
  | none =>
    rw [writeContent, copySpan_eq, Nat.add_comm image.contentSize]
    rfl
  | some payload =>
    have hstart : image.kernelOffset + image.kernelSize + image.kernelGap + image.contentOffset =
        image.contentOffset + image.kernelOffset + image.kernelSize + image.kernelGap := by omega
    rw [writeContent, copySpan_eq, copySpan_eq, Nat.add_comm image.kernelOffset image.contentOffset,
      Nat.add_comm image.contentSize, hstart, Bytes.append_assoc, Bytes.append_assoc]
    rfl

/-- The kernel bytes the loader has to find: the payload the blob names, or the sections. -/
def KernelBytes (data : Bytes) (sections : List (SectionKey × Section)) (kernel : Section)
    (blob : Option Bytes) (size : ℕ) (bytes : Bytes) : Prop :=
  if isWeightBlob (data.slice kernel.fileOffset (kernel.fileOffset + blobHeaderSize + 4)) then
    ∃ file record, blob = some file ∧ NamesPayload file size record ∧
      blobPayloadOffset file size = .ok (recordPayload file record) ∧
      bytes = file.slice (recordPayload file record) (recordPayload file record + size)
  else
    match kernelExtra sections with
    | some extra => bytes = data.slice kernel.fileOffset (kernel.fileOffset + kernel.size) ++
        data.slice extra.fileOffset (extra.fileOffset + extra.size)
    | none => bytes = data.slice kernel.fileOffset (kernel.fileOffset + kernel.size)

theorem KernelBytes.of_split {data : Bytes} {sections : List (SectionKey × Section)} {kernel extra : Section}
    {blob : Option Bytes} {size : ℕ}
    (hblob : isWeightBlob (data.slice kernel.fileOffset (kernel.fileOffset + blobHeaderSize + 4)) = false)
    (hextra : kernelExtra sections = some extra) : KernelBytes data sections kernel blob size
      (data.slice kernel.fileOffset (kernel.fileOffset + kernel.size) ++
        data.slice extra.fileOffset (extra.fileOffset + extra.size)) := by
  rw [KernelBytes, if_neg (by rw [hblob]; exact Bool.false_ne_true), hextra]

theorem KernelBytes.of_whole {data : Bytes} {sections : List (SectionKey × Section)} {kernel : Section}
    {blob : Option Bytes} {size : ℕ}
    (hblob : isWeightBlob (data.slice kernel.fileOffset (kernel.fileOffset + blobHeaderSize + 4)) = false)
    (hextra : kernelExtra sections = none) : KernelBytes data sections kernel blob size
      (data.slice kernel.fileOffset (kernel.fileOffset + kernel.size)) := by
  rw [KernelBytes, if_neg (by rw [hblob]; exact Bool.false_ne_true), hextra]

/-- What the loader reads out of a content: its length, its task stream and its kernel. -/
structure ContentLayout (data : Bytes) (image : HWXImage) (text kernel : Section) (blob : Option Bytes)
    (content : Bytes) : Prop where
  size : content.size = image.contentSize
  stream : content.slice 0 text.size = data.slice text.fileOffset (text.fileOffset + text.size)
  kernelRoom : image.kernelOffset + image.kernelSize ≤ content.size
  kernelBytes : KernelBytes data image.sections kernel blob image.kernelSize
    (content.slice image.kernelOffset (image.kernelOffset + image.kernelSize))

section Content

variable {data : Bytes} {image : HWXImage} {text kernel : Section} {blob : Option Bytes}

/-- A container whose second kernel section is in the file has its whole kernel in the file. -/
theorem ImageLayout.kernel_in_file (h : ImageLayout data image text kernel)
    (hfile : ∀ extra, kernelExtra image.sections = some extra → extra.fileOffset + extra.size ≤ data.size) :
    image.contentOffset + image.kernelOffset + kernel.size ≤ data.size := by
  have hplace := h.kernelFile
  cases hextra : kernelExtra image.sections with
  | none =>
    have hwhole := h.whole hextra
    have hsize := h.kernelSize
    rw [hextra, Option.map_none, Option.getD_none] at hsize
    omega
  | some extra =>
    have hsplit := (h.split extra hextra).1
    have := hfile extra hextra
    omega

/-- The kernel of an accepted image lies in its content. -/
theorem ImageLayout.kernel_in_content (h : ImageLayout data image text kernel) :
    image.kernelOffset + image.kernelSize ≤ image.contentSize := by
  cases hextra : kernelExtra image.sections with
  | none => exact (h.whole hextra).2.1
  | some extra => exact (h.split extra hextra).2.ge

/-- A substituted content: the text up to the kernel, the payload, and what follows it. -/
theorem ContentLayout.of_payload (h : ImageLayout data image text kernel) {payload : Bytes}
    (hfile : ∀ extra, kernelExtra image.sections = some extra → extra.fileOffset + extra.size ≤ data.size)
    (hsize : payload.size = image.kernelSize)
    (hpayload : KernelBytes data image.sections kernel blob image.kernelSize payload) :
    ContentLayout data image text kernel blob (contentBytes data image (some payload)) := by
  have hkernel := h.kernel_in_file hfile
  have hroom := h.kernel_in_content
  have hstart : (data.slice image.contentOffset (image.contentOffset + image.kernelOffset)).size =
      image.kernelOffset := by
    rw [Bytes.size_slice]
    omega
  have htext : text.size ≤ image.kernelOffset := by
    rw [h.kernelOffset, h.taskStreamSize]
    exact le_align16 _
  have hend : (data.slice (image.contentOffset + image.kernelOffset + image.kernelSize + image.kernelGap)
      (image.contentOffset + image.contentSize)).size =
        image.contentSize - (image.kernelOffset + image.kernelSize) := by
    rw [Bytes.size_slice]
    cases hextra : kernelExtra image.sections with
    | none =>
      have hwhole := h.whole hextra
      omega
    | some extra =>
      have hcontent := (h.split extra hextra).2
      omega
  have hcontent : (contentBytes data image (some payload)).size = image.contentSize := by
    rw [contentBytes, Bytes.size_append, Bytes.size_append, hstart, hsize, hend]
    omega
  refine ⟨hcontent, ?_, hcontent ▸ hroom, ?_⟩
  · rw [contentBytes, Bytes.slice_append_of_le _ _ (by omega), Bytes.slice_slice _ _ _ _ _ (by omega),
      h.contentOffset, Nat.add_zero]
  · have hcut := Bytes.slice_append_right
      (data.slice image.contentOffset (image.contentOffset + image.kernelOffset))
      (payload ++ data.slice (image.contentOffset + image.kernelOffset + image.kernelSize + image.kernelGap)
        (image.contentOffset + image.contentSize)) 0 image.kernelSize
    rw [hstart, Nat.add_zero, ← hsize, Bytes.slice_append_left] at hcut
    rw [contentBytes, ← hsize, hcut, hsize]
    exact hpayload

/-- A verbatim content: the sections are contiguous in the file already. -/
theorem ContentLayout.of_verbatim (h : ImageLayout data image text kernel)
    (hfile : ∀ extra, kernelExtra image.sections = some extra → extra.fileOffset + extra.size ≤ data.size)
    (hblob : image.kernelIsBlob = false) (hgap : image.kernelGap = 0) :
    ContentLayout data image text kernel blob (contentBytes data image none) := by
  have hroom := h.kernel_in_content
  have hplace := h.kernelFile
  have hsize := h.kernelSize
  have hnotBlob := h.kernelIsBlob.symm.trans hblob
  have hend : image.contentOffset + image.contentSize ≤ data.size := by
    cases hextra : kernelExtra image.sections with
    | none => exact (h.whole hextra).2.2.2
    | some extra =>
      have hsplit := h.split extra hextra
      have := hfile extra hextra
      rw [hextra, Option.map_some, Option.getD_some] at hsize
      omega
  have htext : text.size ≤ image.contentSize := by
    have := h.kernelOffset
    have := le_align16 image.taskStreamSize
    have := h.taskStreamSize
    omega
  have hcontent : (contentBytes data image none).size = image.contentSize := by
    rw [contentBytes, Bytes.size_slice]
    omega
  refine ⟨hcontent, ?_, hcontent ▸ hroom, ?_⟩
  · rw [contentBytes, Bytes.slice_slice _ _ _ _ _ (by omega), h.contentOffset, Nat.add_zero]
  · rw [contentBytes, Bytes.slice_slice _ _ _ _ _ (by omega), ← Nat.add_assoc, ← hplace]
    cases hextra : kernelExtra image.sections with
    | none =>
      rw [hextra, Option.map_none, Option.getD_none, Nat.add_zero] at hsize
      rw [hsize]
      exact KernelBytes.of_whole hnotBlob hextra
    | some extra =>
      have hsplit := (h.split extra hextra).1
      rw [hextra, Option.map_some, Option.getD_some] at hsize
      have hbytes := @KernelBytes.of_split data _ kernel extra blob image.kernelSize hnotBlob hextra
      rwa [hsplit, hgap, Nat.add_zero, Bytes.slice_append_slice _ (by omega) (by omega), Nat.add_assoc,
        ← hsize] at hbytes

/-- The content written for an accepted image has the loader's layout. -/
theorem contentLayout_of_payload (h : ImageLayout data image text kernel)
    (hfile : ∀ extra, kernelExtra image.sections = some extra → extra.fileOffset + extra.size ≤ data.size)
    {payload spliced : Option Bytes} (hpayload : kernelPayload image blob = .ok payload)
    (hspliced : splicedPayload data image payload = .ok spliced) :
    ContentLayout data image text kernel blob (contentBytes data image spliced) := by
  unfold splicedPayload at hspliced
  rcases kernelPayload_eq_ok hpayload with ⟨hblob, rfl⟩ | ⟨file, offset, hblob, hfileBlob, hoffset, hroom, rfl⟩
  · have hnotBlob := h.kernelIsBlob.symm.trans hblob
    split_ifs at hspliced with hgap
    · obtain ⟨extra, hlookup, hspliced⟩ := bind_eq_ok.mp hspliced
      have hextra : kernelExtra image.sections = some extra := (lookup_raises ..).value hlookup
      have hsize := h.kernelSize
      have hkernel := h.kernel_in_file hfile
      have hroom := hfile extra hextra
      have hplace := h.kernelFile
      rw [hextra, Option.map_some, Option.getD_some] at hsize
      obtain rfl := Except.ok.inj hspliced
      have hpart : image.kernelSize - extra.size = kernel.size := by omega
      rw [hpart, ← hplace]
      refine ContentLayout.of_payload h hfile ?_ (KernelBytes.of_split hnotBlob hextra)
      simp only [Bytes.size_append, Bytes.size_slice]
      omega
    · obtain rfl := Except.ok.inj hspliced
      exact ContentLayout.of_verbatim h hfile hblob (by simpa using hgap)
  · rw [if_neg (by simp)] at hspliced
    obtain rfl := Except.ok.inj hspliced
    refine ContentLayout.of_payload h hfile ?_ ?_
    · rw [Bytes.size_slice]
      omega
    · rw [KernelBytes, if_pos (h.kernelIsBlob ▸ hblob)]
      obtain ⟨record, hnames, hstated⟩ := blobPayloadOffset_named hoffset
      rw [hstated] at hoffset ⊢
      exact ⟨file, record, hfileBlob, hnames, hoffset, rfl⟩

/-- The decomposition of a converted file: header, padding, content. -/
theorem convertHwxFile_eq_ok {inCh outCh : ℤ} {inShape outShape : Option Shape} {tdSizeOverride : Option ℤ}
    {file : Bytes}
    (h : convertHwxFile data inCh outCh inShape outShape blob tdSizeOverride none = .ok (image, file)) :
    ∃ header payload spliced, parseHwx data = .ok image ∧
      buildHeader image (shapeOr inCh inShape) (shapeOr outCh outShape) tdSizeOverride = .ok header ∧
      kernelPayload image blob = .ok payload ∧ splicedPayload data image payload = .ok spliced ∧
      file = header ++ Bytes.zeros (contentStart - header.size) ++ contentBytes data image spliced := by
  obtain ⟨parsed, hparse, h⟩ := bind_eq_ok.mp h
  rw [if_neg (by simp)] at h
  obtain ⟨header, hheader, h⟩ := bind_eq_ok.mp h
  obtain ⟨payload, hpayload, h⟩ := bind_eq_ok.mp h
  obtain ⟨spliced, hspliced, h⟩ := bind_eq_ok.mp h
  obtain ⟨rfl, rfl⟩ := Prod.mk.inj (Except.ok.inj h)
  exact ⟨header, payload, spliced, hparse, hheader, hpayload, hspliced, writeContent_eq ..⟩

end Content

/-- The written file is as long as its header says; the loader finds the text section at the
content start and the kernel, substituted or spliced where needed, at the aligned end of the
task stream. -/
theorem convertHwxFile_layout (data : Bytes) (inCh outCh : ℤ) (inShape outShape : Option Shape)
    (blob : Option Bytes) (tdSizeOverride : Option ℤ) (image : HWXImage) (file : Bytes)
    (h : convertHwxFile data inCh outCh inShape outShape blob tdSizeOverride none = .ok (image, file))
    (hfile : ∀ extra, find image.sections ("__KERN_0", "__kern_0") = some extra →
      extra.fileOffset + extra.size ≤ data.size) :
    ∃ text kernel, find image.sections ("__TEXT", "__text") = some text ∧
      find image.sections ("__TEXT", "__const") = some kernel ∧
      file.size = contentStart + (decodeHeader file).contentSize ∧
      (decodeHeader file).taskStreamSize = text.size ∧
      file.slice contentStart (contentStart + (decodeHeader file).taskStreamSize) =
        data.slice text.fileOffset (text.fileOffset + text.size) ∧
      contentStart + align16 (decodeHeader file).taskStreamSize + (decodeHeader file).kernelSize ≤ file.size ∧
      KernelBytes data image.sections kernel blob (decodeHeader file).kernelSize
        (file.slice (contentStart + align16 (decodeHeader file).taskStreamSize)
          (contentStart + align16 (decodeHeader file).taskStreamSize + (decodeHeader file).kernelSize)) := by
  obtain ⟨header, payload, spliced, hparse, hheader, hpayload, hspliced, rfl⟩ := convertHwxFile_eq_ok h
  obtain ⟨text, kernel, hlayout⟩ := (parseHwx_meets data).value hparse
  have hcontent := contentLayout_of_payload hlayout hfile hpayload hspliced
  obtain ⟨_, _, _, _, -, -, -, hsize, hdecode⟩ := buildHeader_eq_ok hheader
  have hpadded := buildHeader_padded hheader
  generalize contentBytes data image spliced = content at hcontent ⊢
  have hfields : decodeHeader (header ++ Bytes.zeros (contentStart - header.size) ++ content) =
      decodeHeader header := by
    rw [Bytes.append_assoc, decodeHeader_append hsize]
  have hslice (i j : ℕ) : (header ++ Bytes.zeros (contentStart - header.size) ++ content).slice
      (contentStart + i) (contentStart + j) = content.slice i j := by
    have hcut := Bytes.slice_append_right (header ++ Bytes.zeros (contentStart - header.size)) content i j
    rwa [hpadded] at hcut
  have hstream := hslice 0 text.size
  rw [Nat.add_zero] at hstream
  rw [hfields, hdecode]
  dsimp only
  rw [← hlayout.kernelOffset, Nat.add_assoc, hslice, hlayout.taskStreamSize, hstream, Bytes.size_append,
    hpadded, hcontent.size]
  refine ⟨text, kernel, hlayout.textSection, hlayout.kernelSection, rfl, rfl, hcontent.stream, ?_,
    hcontent.kernelBytes⟩
  have hroom := hcontent.kernelRoom
  rw [hcontent.size] at hroom
  omega

/-! ## A small container -/

/-- The little-endian number of an ASCII name. -/
def nameWord (name : String) : ℕ := name.toList.foldr (fun c value => c.toNat + 256 * value) 0

/-- The fields of a segment command. -/
def segmentFields (offset size : ℕ) (name : String) (fileOffset fileSize sectionCount : ℕ) : List (ℕ × ℕ) :=
  [(offset, 0x19), (offset + 4, size), (offset + 8, nameWord name), (offset + 40, fileOffset),
    (offset + 48, fileSize), (offset + 64, sectionCount)]

/-- The fields of a section header. -/
def sectionFields (offset : ℕ) (segment name : String) (address size fileOffset : ℕ) : List (ℕ × ℕ) :=
  [(offset, nameWord name), (offset + 16, nameWord segment), (offset + 32, address), (offset + 40, size),
    (offset + 48, fileOffset)]

/-- A container with one input and one output of `0x40` bytes, a text section at `0x300` that
holds the given words, a constant section of `0x10` bytes and, past the given gap, a second
kernel section of `0x10` bytes. -/
def container (textSize : ℕ) (words : List (ℕ × ℕ)) (gap : Option ℕ) : Bytes :=
  let kernel := 0x300 + textSize
  let common := segmentFields 32 232 "__TEXT" 0x300 (textSize + 0x10) 2 ++
    sectionFields 104 "__TEXT" "__text" 0 textSize 0x300 ++
    sectionFields 184 "__TEXT" "__const" 0 0x10 kernel ++ segmentFields 264 232 "__FVMLIB" 0 0 2 ++
    sectionFields 336 "__FVMLIB" "__const" 0 0x40 0 ++ sectionFields 416 "__FVMLIB" "__data" 0x4000 0x40 0 ++
    words.map (fun word => (0x300 + word.1, word.2)) ++ [(kernel, 0x1111)]
  match gap with
  | none => Bytes.ofFields (kernel + 0x10) ([(0, 0xFEEDFACF), (16, 2), (20, 464)] ++ common)
  | some gap => Bytes.ofFields (kernel + 0x20 + gap) ([(0, 0xFEEDFACF), (16, 3), (20, 616)] ++ common ++
      segmentFields 496 152 "__KERN_0" (kernel + 0x10 + gap) 0x10 1 ++
      sectionFields 568 "__KERN_0" "__kern_0" 0 0x10 (kernel + 0x10 + gap) ++
      [(kernel + 0x10 + gap, 0x2222)])

theorem convertHwxFile_layout_container : ∃ image file,
    convertHwxFile (container 0x100 [(0x28, 0x1F800)] (some 0x10)) 1 1 none none none none none =
      .ok (image, file) ∧ file.size = contentStart + (decodeHeader file).contentSize := by
  obtain ⟨⟨image, file⟩, hconvert, hfile⟩ :=
    @exists_ok_of_map _ _ _ (convertHwxFile (container 0x100 [(0x28, 0x1F800)] (some 0x10)) 1 1 none none
      none none none) (fun result => (kernelExtra result.1.sections).all fun extra =>
        extra.fileOffset + extra.size ≤ (container 0x100 [(0x28, 0x1F800)] (some 0x10)).size) true
      (by decide +kernel)
  obtain ⟨text, kernel, -, -, hsize, -⟩ := convertHwxFile_layout _ _ _ _ _ _ _ image file hconvert
    fun extra hextra => by simpa [kernelExtra, hextra] using hfile
  exact ⟨image, file, hconvert, hsize⟩

end AneLinux.Hwx
