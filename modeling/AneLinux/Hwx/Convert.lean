import AneLinux.Hwx.ConvertFile
import AneLinux.Hwx.StampWalk

/-!
# The in-memory converter

The whole content is taken from the file in one slice, a weight blob's payload replaces the
kernel range, and the task stream is stamped and rewired in place. The stream lies ahead of
the kernel, so the stamped bytes are those of the text section.
-/

namespace AneLinux.Hwx

open AneLinux.Support AneLinux.Anec

/-- The content before the task stream is patched. -/
def sourceContent (data : Bytes) (image : HWXImage) (payload : Option Bytes) : Bytes :=
  let content := data.slice image.contentOffset (image.contentOffset + image.contentSize)
  match payload with
  | none => content
  | some payload => content.splice image.kernelOffset (image.kernelOffset + image.kernelSize) payload

/-- The number of ports the rewiring pass assumes. -/
def portCount (sections : List (ℕ × ℕ)) : ℕ := if sections.isEmpty then 1 else sections.length

/-- Convert a container whose channel roles the caller has verified. -/
def convertHwx (data : Bytes) (inCh outCh : ℤ) (inShape outShape : Option Shape) (blob : Option Bytes)
    (contiguousInputFirst : Bool) : Py Bytes :=
  if contiguousInputFirst ≠ true then
    raiseValue "caller must verify contiguous input-first channel roles"
  else do
    let image ← parseHwx data
    let header ← buildHeader image (shapeOr inCh inShape) (shapeOr outCh outShape) none
    let payload ← kernelPayload image blob
    let (content, _, _) ← patchTaskNid (sourceContent data image payload) image.taskStreamSize 0x40
    let (content, _) ← rewireSurfaceChannels content image.taskStreamSize (portCount image.inputSections)
      (portCount image.outputSections)
    return header ++ Bytes.zeros (contentStart - header.size) ++ content

section Stream

variable {data : Bytes} {image : HWXImage} {text kernel : Section}

/-- The task stream lies in the content, ahead of the kernel. -/
theorem ImageLayout.stream_in_content (h : ImageLayout data image text kernel) :
    image.taskStreamSize ≤ image.kernelOffset ∧ image.taskStreamSize ≤ image.contentSize ∧
      image.contentOffset + image.taskStreamSize ≤ data.size := by
  have hkernel := h.kernel_in_content
  have halign := le_align16 image.taskStreamSize
  have hoffset := h.kernelOffset
  have hfile := h.textInFile
  have hstart := h.contentOffset
  have hsize := h.taskStreamSize
  exact ⟨by omega, by omega, by omega⟩

/-- The source content has the text section's bytes in its task stream. -/
theorem sourceContent_stream (h : ImageLayout data image text kernel) (payload : Option Bytes) :
    image.taskStreamSize ≤ (sourceContent data image payload).size ∧
      ∀ i < image.taskStreamSize,
        (sourceContent data image payload).get i = data.get (image.contentOffset + i) := by
  obtain ⟨hkernel, hcontent, hfile⟩ := h.stream_in_content
  have hslice : image.taskStreamSize ≤
      (data.slice image.contentOffset (image.contentOffset + image.contentSize)).size := by
    rw [Bytes.size_slice]
    omega
  cases payload with
  | none => exact ⟨hslice, fun i hi => Bytes.get_slice_of_lt _ (by omega)⟩
  | some payload =>
    have hfront : image.taskStreamSize ≤ ((data.slice image.contentOffset
        (image.contentOffset + image.contentSize)).slice 0 image.kernelOffset).size := by
      rw [Bytes.size_slice]
      omega
    refine ⟨?_, fun i hi => ?_⟩
    · simp only [sourceContent, Bytes.splice, Bytes.size_append]
      omega
    · rw [sourceContent, Bytes.splice, Bytes.append_assoc, Bytes.get_append_left _ _ (by omega),
        Bytes.get_slice_of_lt _ (by omega), Nat.zero_add, Bytes.get_slice_of_lt _ (by omega)]

/-- A word of the source content's task stream is a word of the text section. -/
theorem u32_sourceContent (h : ImageLayout data image text kernel) (payload : Option Bytes) {offset : ℕ}
    (hroom : offset + 4 ≤ image.taskStreamSize) :
    (sourceContent data image payload).u32 offset = data.u32 (image.contentOffset + offset) := by
  apply Bytes.u32_congr
  intro k hk
  rw [(sourceContent_stream h payload).2 _ (by omega), Nat.add_assoc]

end Stream

/-- The decomposition of a converted artifact: header, padding, and the content after the
stamp run and the rewiring pass. -/
theorem convertHwx_eq_ok {data : Bytes} {inCh outCh : ℤ} {inShape outShape : Option Shape}
    {blob : Option Bytes} {file : Bytes}
    (h : convertHwx data inCh outCh inShape outShape blob true = .ok file) :
    ∃ image header payload seen rewired count, parseHwx data = .ok image ∧
      buildHeader image (shapeOr inCh inShape) (shapeOr outCh outShape) none = .ok header ∧
      kernelPayload image blob = .ok payload ∧
      patchTaskNid (sourceContent data image payload) image.taskStreamSize 0x40 =
        .ok (stampBytes (sourceContent data image payload) seen, seen, seen.length) ∧
      StampRun (sourceContent data image payload) image.taskStreamSize [] 0 seen ∧
      rewireSurfaceChannels (stampBytes (sourceContent data image payload) seen) image.taskStreamSize
        (portCount image.inputSections) (portCount image.outputSections) = .ok (rewired, count) ∧
      file = header ++ Bytes.zeros (contentStart - header.size) ++ rewired := by
  rw [convertHwx, if_neg (by simp)] at h
  obtain ⟨image, hparse, h⟩ := bind_eq_ok.mp h
  obtain ⟨header, hheader, h⟩ := bind_eq_ok.mp h
  obtain ⟨payload, hpayload, h⟩ := bind_eq_ok.mp h
  obtain ⟨text, kernel, hlayout⟩ := (parseHwx_meets data).value hparse
  obtain ⟨seen, hpatch, hrun⟩ := patchTaskNidLoop_run (sourceContent_stream hlayout payload).1 [] 0 0
  rw [stampBytes_nil, List.length_nil, Nat.zero_add, Nat.sub_zero] at hpatch
  rw [patchTaskNid, hpatch, ok_bind] at h
  obtain ⟨⟨rewired, count⟩, hrewired, h⟩ := bind_eq_ok.mp h
  exact ⟨image, header, payload, seen, rewired, count, hparse, hheader, hpayload, hpatch, hrun, hrewired,
    (Except.ok.inj h).symm⟩

end AneLinux.Hwx
