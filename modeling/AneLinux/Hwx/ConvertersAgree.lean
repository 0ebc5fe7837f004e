import AneLinux.Hwx.StampedTasks

/-!
# The two converters compared

The streaming converter splices a split kernel and leaves the task stream alone; the
in-memory converter copies the content in one slice and patches the stream. Up to the patched
bytes the two outputs agree when the slice happens to be the spliced content. They part on a
split container with a gap, where the slice holds the gap instead of the kernel's tail.
-/

namespace AneLinux.Hwx

open AneLinux.Support AneLinux.Anec

/-- The task stream of an image, as the file has it. -/
def textStream (data : Bytes) (image : HWXImage) : Bytes :=
  data.slice image.contentOffset (image.contentOffset + image.taskStreamSize)

/-- A content byte that patching may change: the nid byte or a selector byte of a task that
offset 0 reaches. -/
def PatchedByte (stream : Bytes) (tskSize i : ℕ) : Prop :=
  ∃ base, StreamReach stream tskSize base ∧
    (i = base + 2 ∨ base + 0x24 ≤ tskSize ∧ base + 0x20 ≤ i ∧ i < base + 0x24)

/-- Two artifacts of equal length that differ only in patched content bytes. -/
structure OutputsAgree (stream : Bytes) (tskSize : ℕ) (memory streamed : Bytes) : Prop where
  size : memory.size = streamed.size
  bytes : ∀ i, memory.get i ≠ streamed.get i → ∃ j, i = contentStart + j ∧ PatchedByte stream tskSize j

/-- One slice holds the whole kernel: it is a blob's payload, or its two sections have no gap
between them, or the gap starts with the same bytes as the second section. -/
def KernelContiguous (data : Bytes) (image : HWXImage) : Prop :=
  image.kernelIsBlob = true ∨ image.kernelGap = 0 ∨ ∀ extra, kernelExtra image.sections = some extra →
    data.slice (image.contentOffset + image.kernelOffset + (image.kernelSize - extra.size))
        (image.contentOffset + image.kernelOffset + image.kernelSize) =
      data.slice extra.fileOffset (extra.fileOffset + extra.size)

section Contents

variable {data : Bytes} {image : HWXImage} {text kernel : Section} {blob payload spliced : Option Bytes}

/-- A substituted payload lands in the same place in both contents. -/
theorem sourceContent_some (h : ImageLayout data image text kernel) (payload : Bytes) :
    sourceContent data image (some payload) = contentBytes data image (some payload) := by
  have hkernel := h.kernel_in_content
  have hfront : (data.slice image.contentOffset (image.contentOffset + image.contentSize)).slice 0
      image.kernelOffset = data.slice image.contentOffset (image.contentOffset + image.kernelOffset) := by
    rw [Bytes.slice_slice _ _ _ _ _ (by omega), Nat.add_zero]
  have hback : (data.slice image.contentOffset (image.contentOffset + image.contentSize)).slice
      (image.kernelOffset + image.kernelSize)
      (data.slice image.contentOffset (image.contentOffset + image.contentSize)).size =
      data.slice (image.contentOffset + image.kernelOffset + image.kernelSize + image.kernelGap)
        (image.contentOffset + image.contentSize) := by
    cases hextra : kernelExtra image.sections with
    | none =>
      rw [(h.whole hextra).1, Nat.add_zero]
      apply Bytes.ext_get
      · simp only [Bytes.size_slice]
        omega
      · intro i hi
        simp only [Bytes.size_slice] at hi
        rw [Bytes.get_slice_of_lt _ (by simp only [Bytes.size_slice]; omega), Bytes.get_slice_of_lt _ (by omega),
          Bytes.get_slice_of_lt _ (by omega)]
        congr 1
        omega
    | some extra =>
      have hcontent := (h.split extra hextra).2
      rw [Bytes.slice_of_le _ (by rw [Bytes.size_slice]; omega), Bytes.slice_of_le _ (by omega)]
  rw [sourceContent, Bytes.splice, hfront, Nat.max_eq_right (by omega), hback, contentBytes,
    Bytes.append_assoc]

/-- The slice is the spliced content exactly when it holds the whole kernel. -/
theorem sourceContent_eq_iff (h : ImageLayout data image text kernel)
    (hpayload : kernelPayload image blob = .ok payload)
    (hspliced : splicedPayload data image payload = .ok spliced) :
    sourceContent data image payload = contentBytes data image spliced ↔ KernelContiguous data image := by
  unfold splicedPayload at hspliced
  rcases kernelPayload_eq_ok hpayload with ⟨hblob, rfl⟩ | ⟨file, offset, hblob, -, -, -, rfl⟩
  · split_ifs at hspliced with hgap
    · obtain ⟨extra, hlookup, hspliced⟩ := bind_eq_ok.mp hspliced
      have hextra : kernelExtra image.sections = some extra := (lookup_raises ..).value hlookup
      obtain rfl := Except.ok.inj hspliced
      have hcontent := (h.split extra hextra).2
      have hsize := h.kernelSize
      rw [hextra, Option.map_some, Option.getD_some] at hsize
      have hcut : data.slice image.contentOffset (image.contentOffset + image.contentSize) =
          data.slice image.contentOffset (image.contentOffset + image.kernelOffset) ++
            (data.slice (image.contentOffset + image.kernelOffset)
              (image.contentOffset + image.kernelOffset + (image.kernelSize - extra.size)) ++
            data.slice (image.contentOffset + image.kernelOffset + (image.kernelSize - extra.size))
              (image.contentOffset + image.kernelOffset + image.kernelSize)) := by
        rw [Bytes.slice_append_slice _ (by omega) (by omega), Bytes.slice_append_slice _ (by omega) (by omega),
          hcontent, Nat.add_assoc]
      have hempty : data.slice (image.contentOffset + image.kernelOffset + image.kernelSize + image.kernelGap)
          (image.contentOffset + image.contentSize) = Bytes.empty := Bytes.slice_of_le _ (by omega)
      rw [sourceContent, contentBytes, hcut, hempty, Bytes.append_empty, Bytes.append_right_inj,
        Bytes.append_right_inj]
      constructor
      · intro heq
        refine Or.inr (Or.inr fun extra' hextra' => ?_)
        obtain rfl := Option.mem_unique hextra hextra'
        exact heq
      · rintro (hisBlob | hzero | heq)
        · exact absurd hisBlob (by rw [hblob]; exact Bool.false_ne_true)
        · exact absurd hzero hgap.2
        · exact heq extra hextra
    · obtain rfl := Except.ok.inj hspliced
      exact ⟨fun _ => Or.inr (Or.inl (by simpa using hgap)), fun _ => rfl⟩
  · rw [if_neg (by simp)] at hspliced
    obtain rfl := Except.ok.inj hspliced
    exact ⟨fun _ => Or.inl hblob, fun _ => sourceContent_some h _⟩

end Contents

/-! ## Patched bytes -/

variable {content other rewired : Bytes} {tskSize : ℕ}

/-- An offset that is reached has its header in a stream that holds the first header. -/
theorem StreamReach.fits {base : ℕ} (h : StreamReach content tskSize base) (hstart : 0x20 ≤ tskSize) :
    base + 0x20 ≤ tskSize := by
  rcases Relation.ReflTransGen.cases_tail h with rfl | ⟨prior, -, hlink⟩
  · omega
  · exact hlink.2.1

/-- A patched byte lies in the task stream. -/
theorem PatchedByte.lt {stream : Bytes} {i : ℕ} (h : PatchedByte stream tskSize i) (hstart : 0x20 ≤ tskSize) :
    i < tskSize := by
  obtain ⟨base, hbase, hplace⟩ := h
  have := hbase.fits hstart
  omega

/-- Links depend only on the bytes of the stream. -/
theorem streamLink_congr (h : ∀ i < tskSize, content.get i = other.get i) :
    StreamLink content tskSize = StreamLink other tskSize := by
  funext base next
  refine propext ?_
  unfold StreamLink
  by_cases hbase : base + 0x20 ≤ tskSize
  · have hword : content.u32 (base + 0x1C) = other.u32 (base + 0x1C) :=
      Bytes.u32_congr fun k hk => h _ (by omega)
    rw [hword]
  · exact ⟨fun hlink => absurd hlink.1 hbase, fun hlink => absurd hlink.1 hbase⟩

/-- So does what offset 0 reaches. -/
theorem streamReach_congr (h : ∀ i < tskSize, content.get i = other.get i) :
    StreamReach content tskSize = StreamReach other tskSize := by
  unfold StreamReach
  rw [streamLink_congr h]

/-- Whether stamps disturb links depends only on the bytes of the stream. -/
theorem undisturbed_congr {bases : Set ℕ} (h : ∀ i < tskSize, content.get i = other.get i)
    (hbases : ∀ base ∈ bases, base + 0x20 ≤ tskSize) (hcontent : Undisturbed content bases) :
    Undisturbed other bases := by
  intro stamped hstamped base hbase hlo hhi
  have hroom := hbases base hbase
  rw [← h (stamped + 2) (by omega)]
  exact hcontent stamped hstamped base hbase hlo hhi

section Patched

variable {srcCount dstCount count : ℕ} {seen : List ℕ}

/-- Both passes leave the bytes past the stream alone. -/
theorem patched_frame (hrun : StampRun content tskSize [] 0 seen)
    (hrewired : rewireSurfaceChannels (stampBytes content seen) tskSize srcCount dstCount =
      .ok (rewired, count)) :
    rewired.size = content.size ∧ ∀ i, tskSize ≤ i → rewired.get i = content.get i := by
  obtain ⟨hsize, hkeep⟩ := rewireSurfaceChannels_frame (fun _ _ next _ _ _ => Set.mem_univ next)
    (fun _ => Set.mem_univ 0) hrewired
  refine ⟨hsize, fun i hi => ?_⟩
  rw [hkeep i fun base _ hroom => by omega]
  refine get_stampBytes_of_ne fun offset hoffset heq => ?_
  have hroom := (hrun.shape.2.2.2 offset hoffset).resolve_left (by simp)
  omega

/-- Where stamps do not disturb the links of the reachable tasks, both passes change only
patched bytes of those. -/
theorem patched_bytes (hstart : 0x20 ≤ tskSize) (hrun : StampRun content tskSize [] 0 seen)
    (hreach : Undisturbed content {base | StreamReach content tskSize base})
    (hrewired : rewireSurfaceChannels (stampBytes content seen) tskSize srcCount dstCount =
      .ok (rewired, count)) {i : ℕ} (hdiff : rewired.get i ≠ content.get i) :
    PatchedByte content tskSize i := by
  have hseen : ∀ base ∈ seen, StreamReach content tskSize base :=
    hrun.subset hreach (fun base hbase next hlink => Relation.ReflTransGen.tail hbase hlink) (by simp)
      Relation.ReflTransGen.refl
  have hlinks : ∀ base ∈ {base | StreamReach content tskSize base}, ∀ next,
      next = (stampBytes content seen).u32 (base + 0x1C) → next ≠ 0 → next + 0x24 ≤ tskSize →
      next ∈ {base | StreamReach content tskSize base} := by
    intro base hbase next hword hzero hroom
    rw [u32_stampBytes_link hreach hseen hbase] at hword
    exact Relation.ReflTransGen.tail hbase ⟨StreamReach.fits hbase hstart, by omega, hzero, hword⟩
  obtain ⟨-, hkeep⟩ := rewireSurfaceChannels_frame hlinks (fun _ => Relation.ReflTransGen.refl) hrewired
  by_contra hnot
  refine hdiff ?_
  have hselector : ∀ base ∈ {base | StreamReach content tskSize base}, base + 0x24 ≤ tskSize →
      i < base + 0x20 ∨ base + 0x24 ≤ i := by
    intro base hbase hroom
    by_contra hin
    exact hnot ⟨base, hbase, Or.inr ⟨hroom, by omega, by omega⟩⟩
  rw [hkeep i hselector]
  exact get_stampBytes_of_ne fun offset hoffset heq => hnot ⟨offset, hseen offset hoffset, Or.inl heq⟩

end Patched

/-! ## The comparison -/

/-- The streamed content has the text section's bytes in its task stream. -/
theorem contentBytes_stream {data : Bytes} {image : HWXImage} {text kernel : Section}
    (h : ImageLayout data image text kernel) (payload : Option Bytes) :
    ∀ i < image.taskStreamSize, (contentBytes data image payload).get i = data.get (image.contentOffset + i) := by
  obtain ⟨hkernel, hcontent, hfile⟩ := h.stream_in_content
  intro i hi
  cases payload with
  | none => exact Bytes.get_slice_of_lt _ (by omega)
  | some payload =>
    rw [contentBytes, Bytes.get_append_left _ _ (by rw [Bytes.size_slice]; omega),
      Bytes.get_slice_of_lt _ (by omega)]

section Outputs

variable {front source spliced stream : Bytes}

/-- Artifacts that agree were written from one content, if the passes keep to the stream. -/
theorem OutputsAgree.eq_content (h : OutputsAgree stream tskSize (front ++ rewired) (front ++ spliced))
    (hfront : front.size = contentStart) (hstart : 0x20 ≤ tskSize) (hsize : rewired.size = source.size)
    (hpast : ∀ i, tskSize ≤ i → rewired.get i = source.get i)
    (hstream : ∀ i < tskSize, source.get i = spliced.get i) : source = spliced := by
  have hsizes := h.size
  rw [Bytes.size_append, Bytes.size_append, hsize] at hsizes
  apply Bytes.ext_get (by omega)
  intro i _
  by_cases hi : i < tskSize
  · exact hstream i hi
  · by_contra hdiff
    have hbytes : (front ++ rewired).get (contentStart + i) ≠ (front ++ spliced).get (contentStart + i) := by
      rw [Bytes.get_append_right _ _ (by omega), Bytes.get_append_right _ _ (by omega), hfront,
        Nat.add_sub_cancel_left, hpast i (by omega)]
      exact hdiff
    obtain ⟨j, hj, hpatched⟩ := h.bytes _ hbytes
    have := hpatched.lt hstart
    omega

/-- Artifacts of one content agree if the passes change only patched bytes. -/
theorem outputsAgree_of_patched (hfront : front.size = contentStart) (hsize : rewired.size = source.size)
    (hpatched : ∀ i, rewired.get i ≠ source.get i → PatchedByte stream tskSize i) :
    OutputsAgree stream tskSize (front ++ rewired) (front ++ source) := by
  refine ⟨?_, fun i hdiff => ?_⟩
  · rw [Bytes.size_append, Bytes.size_append, hsize]
  · have hi : contentStart ≤ i := by
      by_contra hlow
      rw [Bytes.get_append_left _ _ (by omega), Bytes.get_append_left _ _ (by omega)] at hdiff
      exact hdiff rfl
    rw [Bytes.get_append_right _ _ (by omega), Bytes.get_append_right _ _ (by omega), hfront] at hdiff
    exact ⟨i - contentStart, by omega, hpatched _ hdiff⟩

end Outputs

/-- Outputs that agree force a contiguous kernel; a contiguous kernel makes them agree, as long
as no nid byte of a reachable task lands in the link word of one. -/
theorem converters_agree_iff (data : Bytes) (inCh outCh : ℤ) (inShape outShape : Option Shape)
    (blob : Option Bytes) (memory streamed : Bytes) (image : HWXImage)
    (hmemory : convertHwx data inCh outCh inShape outShape blob true = .ok memory)
    (hstreamed : convertHwxFile data inCh outCh inShape outShape blob none none = .ok (image, streamed)) :
    (OutputsAgree (textStream data image) image.taskStreamSize memory streamed →
      KernelContiguous data image) ∧
    (KernelContiguous data image →
      Undisturbed (textStream data image)
        {base | StreamReach (textStream data image) image.taskStreamSize base} →
      OutputsAgree (textStream data image) image.taskStreamSize memory streamed) := by
  obtain ⟨header, payload, spliced, hparse, hheader, hpayload, hspliced, rfl⟩ := convertHwxFile_eq_ok hstreamed
  obtain ⟨image', header', payload', seen, rewired, count, hparse', hheader', hpayload', -, hrun, hrewired,
    rfl⟩ := convertHwx_eq_ok hmemory
  obtain rfl := Except.ok.inj (hparse.symm.trans hparse')
  obtain rfl := Except.ok.inj (hheader.symm.trans hheader')
  obtain rfl := Except.ok.inj (hpayload.symm.trans hpayload')
  obtain ⟨text, kernel, hlayout⟩ := (parseHwx_meets data).value hparse
  have hfront := buildHeader_padded hheader
  have hstart : 0x20 ≤ image.taskStreamSize := by
    obtain ⟨tasks, hfound⟩ := hlayout.foundTasks
    have := hfound.start_fits
    omega
  obtain ⟨-, hsource⟩ := sourceContent_stream hlayout payload
  obtain ⟨hsize, hpast⟩ := patched_frame hrun hrewired
  rw [← sourceContent_eq_iff hlayout hpayload hspliced]
  constructor
  · intro hagree
    refine hagree.eq_content hfront hstart hsize hpast fun i hi => ?_
    rw [hsource i hi, contentBytes_stream hlayout spliced i hi]
  · intro hkernel hundisturbed
    have hstream : ∀ i < image.taskStreamSize,
        (textStream data image).get i = (sourceContent data image payload).get i := by
      intro i hi
      rw [hsource i hi]
      exact Bytes.get_slice_of_lt _ (by omega)
    rw [streamReach_congr hstream] at hundisturbed
    have hquiet := undisturbed_congr hstream (fun base hbase => StreamReach.fits hbase hstart) hundisturbed
    rw [← hkernel]
    refine outputsAgree_of_patched hfront hsize fun i hdiff => ?_
    unfold PatchedByte
    rw [streamReach_congr hstream]
    exact patched_bytes hstart hrun hquiet hrewired hdiff

theorem converters_agree_iff_container : ∃ memory streamed image,
    convertHwx (container 0x100 [(0x28, 0x1F800)] none) 1 1 none none none true = .ok memory ∧
    convertHwxFile (container 0x100 [(0x28, 0x1F800)] none) 1 1 none none none none none =
      .ok (image, streamed) ∧
    OutputsAgree (textStream (container 0x100 [(0x28, 0x1F800)] none) image) image.taskStreamSize memory
      streamed := by
  obtain ⟨memory, hmemory⟩ : ∃ memory,
      convertHwx (container 0x100 [(0x28, 0x1F800)] none) 1 1 none none none true = .ok memory :=
    exists_ok_of_toBool (by decide +kernel)
  obtain ⟨⟨image, streamed⟩, hstreamed, hfields⟩ := @exists_ok_of_map _ _ _
    (convertHwxFile (container 0x100 [(0x28, 0x1F800)] none) 1 1 none none none none none)
    (fun result => (result.1.kernelGap, result.1.taskStreamSize,
      (textStream (container 0x100 [(0x28, 0x1F800)] none) result.1).u32 0x1C)) (0, 0x100, 0)
    (by decide +kernel)
  obtain ⟨hgap, hsize, hword⟩ : image.kernelGap = 0 ∧ image.taskStreamSize = 0x100 ∧
      (textStream (container 0x100 [(0x28, 0x1F800)] none) image).u32 0x1C = 0 := by
    simpa only [Prod.mk.injEq] using hfields
  have hreach (base : ℕ) (hbase : StreamReach (textStream (container 0x100 [(0x28, 0x1F800)] none) image)
      image.taskStreamSize base) : base = 0 := by
    induction hbase with
    | refl => rfl
    | tail _ hlink ih =>
      subst ih
      exact absurd (hlink.2.2.2.trans hword) hlink.2.2.1
  refine ⟨memory, streamed, image, hmemory, hstreamed,
    (converters_agree_iff _ _ _ _ _ _ memory streamed image hmemory hstreamed).2 (Or.inr (Or.inl hgap)) ?_⟩
  intro stamped hstamped base hbase hlo hhi
  rw [hreach stamped hstamped, hreach base hbase] at hlo
  omega

/-- A gap between the kernel sections: the in-memory converter writes the gap where the
streaming one writes the second section. -/
theorem converters_part_on_gap : ∃ memory streamed image,
    convertHwx (container 0x100 [(0x28, 0x1F800)] (some 0x10)) 1 1 none none none true = .ok memory ∧
    convertHwxFile (container 0x100 [(0x28, 0x1F800)] (some 0x10)) 1 1 none none none none none =
      .ok (image, streamed) ∧
    ¬ OutputsAgree (textStream (container 0x100 [(0x28, 0x1F800)] (some 0x10)) image) image.taskStreamSize
      memory streamed := by
  obtain ⟨memory, hmemory, hgapByte⟩ := @exists_ok_of_map _ _ _
    (convertHwx (container 0x100 [(0x28, 0x1F800)] (some 0x10)) 1 1 none none none true)
    (fun memory => memory.get 0x1110) 0 (by decide +kernel)
  obtain ⟨⟨image, streamed⟩, hstreamed, hfields⟩ := @exists_ok_of_map _ _ _
    (convertHwxFile (container 0x100 [(0x28, 0x1F800)] (some 0x10)) 1 1 none none none none none)
    (fun result => (result.1.taskStreamSize, result.2.get 0x1110)) (0x100, 0x22) (by decide +kernel)
  obtain ⟨hsize, htailByte⟩ : image.taskStreamSize = 0x100 ∧ streamed.get 0x1110 = 0x22 :=
    Prod.mk.inj hfields
  refine ⟨memory, streamed, image, hmemory, hstreamed, fun hagree => ?_⟩
  have hdiff : memory.get 0x1110 ≠ streamed.get 0x1110 := by
    rw [hgapByte, htailByte]
    decide
  obtain ⟨j, hj, hpatched⟩ := hagree.bytes _ hdiff
  have hlt := hpatched.lt (by omega)
  unfold contentStart at hj
  omega

end AneLinux.Hwx
