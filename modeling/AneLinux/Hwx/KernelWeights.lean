import AneLinux.Hwx.ConvertFile

/-!
# Sampling a kernel for weights

The batch driver looks for nonzero bytes in windows of 4 KiB, taken at a step of an eighth of the
kernel (at least 64 KiB) within its first 256 KiB, and in the last 64 KiB. The kernel of the
artifact may differ from the sampled file range: it leaves out the gap of a split kernel, and a
weight blob is replaced by its payload.
-/

namespace AneLinux.Hwx

open AneLinux.Support

/-- `any(data[start:stop])`. -/
def anyByte (data : Bytes) (start stop : ℕ) : Bool :=
  (List.range (data.slice start stop).size).any fun k => (data.slice start stop).get k != 0

/-- `_kernel_has_weights`. -/
def kernelHasWeights (data : Bytes) (image : HWXImage) : Bool :=
  if image.kernelSize = 0 then false
  else
    let start := image.contentOffset + image.kernelOffset
    let stop := start + image.kernelSize
    let step := max 0x10000 (image.kernelSize / 8)
    (range start (min (start + 0x40000) stop) step).any (fun offset => anyByte data offset (offset + 0x1000)) ||
      anyByte data (max start (stop - 0x10000)) stop

/-! ## Sampled places -/

/-- The file positions that are sampled for a kernel range. -/
def Sampled (start size p : ℕ) : Prop :=
  (∃ i, start + max 0x10000 (size / 8) * i < min (start + 0x40000) (start + size) ∧
    start + max 0x10000 (size / 8) * i ≤ p ∧ p < start + max 0x10000 (size / 8) * i + 0x1000) ∨
  max start (start + size - 0x10000) ≤ p ∧ p < start + size

/-- The file positions the kernel of the artifact is copied from, where it is not a weight blob. -/
def KernelPlace (sections : List (SectionKey × Section)) (kernel : Section) (p : ℕ) : Prop :=
  kernel.fileOffset ≤ p ∧ p < kernel.fileOffset + kernel.size ∨
    ∃ extra, kernelExtra sections = some extra ∧ extra.fileOffset ≤ p ∧ p < extra.fileOffset + extra.size

/-- A byte string with a nonzero byte. -/
def Live (bytes : Bytes) : Prop := ∃ k < bytes.size, bytes.get k ≠ 0

section Sampling

variable {data bytes : Bytes} {image : HWXImage} {kernel : Section} {start stop size : ℕ}

/-- A byte outside the data reads as zero. -/
theorem lt_size_of_ne_zero {d : Bytes} {p : ℕ} (h : d.get p ≠ 0) : p < d.size := by
  by_contra hpast
  exact h (d.get_of_size_le p (by omega))

theorem anyByte_iff : anyByte data start stop = true ↔ ∃ p, start ≤ p ∧ p < stop ∧ data.get p ≠ 0 := by
  unfold anyByte
  simp only [List.any_eq_true, List.mem_range, Bytes.size_slice, bne_iff_ne]
  constructor
  · rintro ⟨k, hk, hbyte⟩
    rw [Bytes.get_slice_of_lt _ (by omega)] at hbyte
    exact ⟨start + k, by omega, by omega, hbyte⟩
  · rintro ⟨p, hlow, hhigh, hbyte⟩
    have hsize := lt_size_of_ne_zero hbyte
    refine ⟨p - start, by omega, ?_⟩
    rwa [Bytes.get_slice_of_lt _ (by omega), Nat.add_sub_cancel' hlow]

/-- The sampler answers yes exactly when a sampled position is nonzero. -/
theorem kernelHasWeights_iff : kernelHasWeights data image = true ↔
    ∃ p, Sampled (image.contentOffset + image.kernelOffset) image.kernelSize p ∧ data.get p ≠ 0 := by
  have hstep : 0 < max 0x10000 (image.kernelSize / 8) := lt_max_of_lt_left (by decide)
  unfold kernelHasWeights
  by_cases hsize : image.kernelSize = 0
  · rw [if_pos hsize, hsize]
    refine iff_of_false Bool.false_ne_true ?_
    rintro ⟨p, ⟨i, hi, -⟩ | ⟨hlow, hhigh⟩, -⟩
    · omega
    · omega
  rw [if_neg hsize]
  simp only [Bool.or_eq_true, List.any_eq_true, mem_range hstep, anyByte_iff]
  constructor
  · rintro (⟨offset, ⟨i, rfl, hi⟩, p, hlow, hhigh, hbyte⟩ | ⟨p, hlow, hhigh, hbyte⟩)
    · exact ⟨p, Or.inl ⟨i, hi, hlow, hhigh⟩, hbyte⟩
    · exact ⟨p, Or.inr ⟨hlow, hhigh⟩, hbyte⟩
  · rintro ⟨p, ⟨i, hi, hlow, hhigh⟩ | ⟨hlow, hhigh⟩, hbyte⟩
    · exact Or.inl ⟨_, ⟨i, rfl, hi⟩, p, hlow, hhigh, hbyte⟩
    · exact Or.inr ⟨p, hlow, hhigh, hbyte⟩

/-- The first window is sampled. -/
theorem sampled_first {k : ℕ} (hsize : 0 < size) (hk : k < 0x1000) : Sampled start size (start + k) :=
  Or.inl ⟨0, by rw [Nat.mul_zero]; omega, by omega, by omega⟩

/-- A slice is live exactly when the data has a nonzero byte there. -/
theorem live_slice_iff : Live (data.slice start stop) ↔ ∃ p, start ≤ p ∧ p < stop ∧ data.get p ≠ 0 := by
  rw [← anyByte_iff]
  unfold anyByte Live
  simp only [List.any_eq_true, List.mem_range, bne_iff_ne]

/-- A concatenation is live exactly when one of its parts is. -/
theorem live_append_iff {a b : Bytes} : Live (a ++ b) ↔ Live a ∨ Live b := by
  constructor
  · rintro ⟨k, hk, hbyte⟩
    rw [Bytes.size_append] at hk
    rw [Bytes.get_append] at hbyte
    by_cases hleft : k < a.size
    · rw [if_pos hleft] at hbyte
      exact Or.inl ⟨k, hleft, hbyte⟩
    · rw [if_neg hleft] at hbyte
      exact Or.inr ⟨k - a.size, by omega, hbyte⟩
  · rintro (⟨k, hk, hbyte⟩ | ⟨k, hk, hbyte⟩)
    · exact ⟨k, by rw [Bytes.size_append]; omega, by rwa [Bytes.get_append_left _ _ hk]⟩
    · refine ⟨a.size + k, by rw [Bytes.size_append]; omega, ?_⟩
      rwa [Bytes.get_append_right _ _ (by omega), Nat.add_sub_cancel_left]

/-- The kernel of the artifact is live exactly when the file has a nonzero byte in its sections. -/
theorem live_kernelBytes_iff {blob : Option Bytes}
    (hplain : isWeightBlob (data.slice kernel.fileOffset (kernel.fileOffset + blobHeaderSize + 4)) = false)
    (hbytes : KernelBytes data image.sections kernel blob image.kernelSize bytes) :
    Live bytes ↔ ∃ p, KernelPlace image.sections kernel p ∧ data.get p ≠ 0 := by
  rw [KernelBytes, if_neg (by rw [hplain]; exact Bool.false_ne_true)] at hbytes
  cases hextra : kernelExtra image.sections with
  | none =>
    rw [hextra] at hbytes
    subst hbytes
    rw [live_slice_iff]
    refine exists_congr fun p => ⟨fun h => ⟨Or.inl ⟨h.1, h.2.1⟩, h.2.2⟩, ?_⟩
    rintro ⟨⟨hlow, hhigh⟩ | ⟨extra, hfound, -⟩, hbyte⟩
    · exact ⟨hlow, hhigh, hbyte⟩
    · rw [hextra] at hfound
      cases hfound
  | some extra =>
    rw [hextra] at hbytes
    subst hbytes
    rw [live_append_iff, live_slice_iff, live_slice_iff, ← exists_or]
    refine exists_congr fun p => ⟨?_, ?_⟩
    · rintro (⟨hlow, hhigh, hbyte⟩ | ⟨hlow, hhigh, hbyte⟩)
      · exact ⟨Or.inl ⟨hlow, hhigh⟩, hbyte⟩
      · exact ⟨Or.inr ⟨extra, hextra, hlow, hhigh⟩, hbyte⟩
    · rintro ⟨⟨hlow, hhigh⟩ | ⟨other, hfound, hlow, hhigh⟩, hbyte⟩
      · exact Or.inl ⟨hlow, hhigh, hbyte⟩
      · obtain rfl : extra = other := Option.mem_unique hextra hfound
        exact Or.inr ⟨hlow, hhigh, hbyte⟩

/-- A weight blob has a nonzero byte in its first window. -/
theorem sampled_blob (hblob : isWeightBlob (data.slice start (start + blobHeaderSize + 4)) = true)
    (hsize : 0 < size) : ∃ p, Sampled start size p ∧ data.get p ≠ 0 := by
  unfold isWeightBlob at hblob
  split_ifs at hblob
  rw [beq_iff_eq, Bytes.u32_slice _ (by omega)] at hblob
  by_contra hnone
  rw [not_exists] at hnone
  have hzero (k : ℕ) (hk : k < 4) : data.get (start + blobHeaderSize + k) = (Bytes.zeros 0).get (0 + k) := by
    rw [Bytes.get_zeros]
    by_contra hbyte
    refine hnone _ ⟨?_, hbyte⟩
    rw [Nat.add_assoc]
    exact sampled_first hsize (by unfold blobHeaderSize; omega)
  rw [Bytes.u32_congr hzero] at hblob
  exact absurd hblob (by decide)

end Sampling

/-- The samples tell whether the kernel of the artifact is live: the payload of a weight blob is live
or empty; of any other kernel a nonzero byte shows in the samples, and where the kernel is all zero,
so is what is sampled beside it, in the gap of a split kernel or past its end. -/
def SamplesDecide (data bytes : Bytes) (image : HWXImage) (kernel : Section) : Prop :=
  if image.kernelIsBlob then image.kernelSize = 0 ∨ Live bytes
  else
    ((∃ p, KernelPlace image.sections kernel p ∧ data.get p ≠ 0) →
      ∃ p, Sampled (image.contentOffset + image.kernelOffset) image.kernelSize p ∧ data.get p ≠ 0) ∧
    ((∀ p, KernelPlace image.sections kernel p → data.get p = 0) →
      ∀ p, Sampled (image.contentOffset + image.kernelOffset) image.kernelSize p →
        ¬ KernelPlace image.sections kernel p → data.get p = 0)

/-- The sampler tells whether the kernel of the artifact has a nonzero byte exactly when the samples
decide it. -/
theorem kernelHasWeights_exact_iff (data bytes : Bytes) (image : HWXImage) (kernel : Section) (blob : Option Bytes)
    (hparse : parseHwx data = .ok image) (hkernel : find image.sections ("__TEXT", "__const") = some kernel)
    (hbytes : KernelBytes data image.sections kernel blob image.kernelSize bytes) :
    (kernelHasWeights data image = true ↔ Live bytes) ↔ SamplesDecide data bytes image kernel := by
  obtain ⟨text, parsed, hlayout⟩ := (parseHwx_meets data).value hparse
  obtain rfl : kernel = parsed := Option.mem_unique hkernel hlayout.kernelSection
  have hplace := hlayout.kernelFile
  have hflag := hlayout.kernelIsBlob
  rw [kernelHasWeights_iff, SamplesDecide]
  cases hblob : image.kernelIsBlob with
  | true =>
    rw [hblob] at hflag
    rw [if_pos rfl]
    rcases Nat.eq_zero_or_pos image.kernelSize with hempty | hpos
    · have hdead : ¬ Live bytes := by
        rw [KernelBytes, if_pos hflag.symm, hempty] at hbytes
        obtain ⟨file, record, -, -, -, rfl⟩ := hbytes
        rintro ⟨k, hk, -⟩
        rw [Bytes.size_slice] at hk
        omega
      have hunsampled : ¬ ∃ p, Sampled (image.contentOffset + image.kernelOffset) image.kernelSize p ∧
          data.get p ≠ 0 := by
        rintro ⟨p, ⟨i, hi, -⟩ | ⟨hlow, hhigh⟩, -⟩
        · omega
        · omega
      exact iff_of_true (iff_of_false hunsampled hdead) (Or.inl hempty)
    · have hsampled := sampled_blob hflag.symm hpos
      rw [hplace] at hsampled
      rw [or_iff_right (by omega)]
      exact ⟨fun h => h.mp hsampled, fun hlive => iff_of_true hsampled hlive⟩
  | false =>
    rw [hblob] at hflag
    rw [if_neg Bool.false_ne_true, live_kernelBytes_iff hflag.symm hbytes]
    constructor
    · intro h
      refine ⟨h.mpr, fun hzero p hsampled _ => ?_⟩
      by_contra hbyte
      obtain ⟨q, hq, hlive⟩ := h.mp ⟨p, hsampled, hbyte⟩
      exact hlive (hzero q hq)
    · rintro ⟨hshows, hquiet⟩
      refine ⟨fun hsampled => ?_, hshows⟩
      by_contra hdead
      have hzero (p : ℕ) (hp : KernelPlace image.sections kernel p) : data.get p = 0 := by
        by_contra hbyte
        exact hdead ⟨p, hp, hbyte⟩
      obtain ⟨p, hp, hbyte⟩ := hsampled
      by_cases hkernelPlace : KernelPlace image.sections kernel p
      · exact hbyte (hzero p hkernelPlace)
      · exact hbyte (hquiet hzero p hp hkernelPlace)

theorem kernelHasWeights_exact_iff_container : ∃ image kernel bytes,
    parseHwx (container 0x100 [(0x28, 0x1F800)] none) = .ok image ∧
      ((kernelHasWeights (container 0x100 [(0x28, 0x1F800)] none) image = true ↔ Live bytes) ↔
        SamplesDecide (container 0x100 [(0x28, 0x1F800)] none) bytes image kernel) := by
  obtain ⟨image, hparse, hresult⟩ := @exists_ok_of_map _ _ _ (parseHwx (container 0x100 [(0x28, 0x1F800)] none))
    (fun image => (find image.sections ("__TEXT", "__const"), kernelExtra image.sections))
    (some ⟨"__TEXT", "__const", 0, 0x10, 0x400⟩, none) (by decide +kernel)
  obtain ⟨hkernel, hextra⟩ := Prod.mk.inj hresult
  have hplain : isWeightBlob ((container 0x100 [(0x28, 0x1F800)] none).slice 0x400 (0x400 + blobHeaderSize + 4)) =
      false := by decide +kernel
  exact ⟨image, _, _, hparse, kernelHasWeights_exact_iff _ _ image _ none hparse hkernel
    (KernelBytes.of_whole hplain hextra)⟩

/-- The headers and the text section of a container with a kernel of `0x11100` bytes at `0x400`. -/
def wideHead : Bytes := Bytes.ofFields 0x400 ([(0, 0xFEEDFACF), (16, 2), (20, 464)] ++
  segmentFields 32 232 "__TEXT" 0x300 0x11200 2 ++ sectionFields 104 "__TEXT" "__text" 0 0x100 0x300 ++
  sectionFields 184 "__TEXT" "__const" 0 0x11100 0x400 ++ segmentFields 264 232 "__FVMLIB" 0 0 2 ++
  sectionFields 336 "__FVMLIB" "__const" 0 0x40 0 ++ sectionFields 416 "__FVMLIB" "__data" 0x4000 0x40 0 ++
  [(0x328, 0x1F800)])

/-- A container whose only nonzero weight lies between the first window and the last 64 KiB. -/
def sparseWeights : Bytes := wideHead ++ Bytes.ofFn 0x11100 fun i => if i = 0x1080 then 1 else 0

/-- The byte of a position in the kernel. -/
theorem get_sparseWeights {p : ℕ} (hp : 0x400 ≤ p) :
    sparseWeights.get p = if p = 0x1480 then 1 else 0 := by
  rw [sparseWeights, Bytes.get_append_right _ _ (show wideHead.size ≤ p from hp), Bytes.get_ofFn]
  change (if p - 0x400 < 0x11100 then if p - 0x400 = 0x1080 then 1 else 0 else 0) = _
  split_ifs <;> first | rfl | omega

/-- The sampler sees no weights, and the artifact carries one. -/
theorem kernelHasWeights_misses_byte : ∃ image kernel, parseHwx sparseWeights = .ok image ∧
    find image.sections ("__TEXT", "__const") = some kernel ∧
    KernelBytes sparseWeights image.sections kernel none image.kernelSize
      (sparseWeights.slice kernel.fileOffset (kernel.fileOffset + kernel.size)) ∧
    Live (sparseWeights.slice kernel.fileOffset (kernel.fileOffset + kernel.size)) ∧
    kernelHasWeights sparseWeights image = false := by
  obtain ⟨image, hparse, hresult⟩ := @exists_ok_of_map _ _ _ (parseHwx sparseWeights)
    (fun image => (find image.sections ("__TEXT", "__const"), kernelExtra image.sections,
      image.contentOffset + image.kernelOffset, image.kernelSize))
    (some ⟨"__TEXT", "__const", 0, 0x11100, 0x400⟩, none, 0x400, 0x11100) (by decide +kernel)
  obtain ⟨hkernel, hrest⟩ := Prod.mk.inj hresult
  obtain ⟨hextra, hrest⟩ := Prod.mk.inj hrest
  obtain ⟨hstart, hsize⟩ := Prod.mk.inj hrest
  have hplain : isWeightBlob (sparseWeights.slice 0x400 (0x400 + blobHeaderSize + 4)) = false := by decide +kernel
  refine ⟨image, _, hparse, hkernel, KernelBytes.of_whole hplain hextra, ?_, ?_⟩
  · refine live_slice_iff.mpr ⟨0x1480, by decide, by decide, ?_⟩
    rw [get_sparseWeights (by decide), if_pos rfl]
    decide
  · rw [← Bool.not_eq_true, kernelHasWeights_iff, hstart, hsize]
    rintro ⟨p, hsampled, hbyte⟩
    have hlow : 0x400 ≤ p ∧ p ≠ 0x1480 := by
      have hstep : max 0x10000 (0x11100 / 8) = 0x10000 := rfl
      rcases hsampled with ⟨i, hi, hfrom, hto⟩ | ⟨hfrom, hto⟩
      · rw [hstep] at hi hfrom hto
        omega
      · omega
    rw [get_sparseWeights hlow.1, if_neg hlow.2] at hbyte
    exact hbyte rfl

end AneLinux.Hwx
