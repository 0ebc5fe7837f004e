import AneLinux.Staged.Stride
import AneLinux.Anec.Header
import AneLinux.Hwx.ParseSpec

/-!
# Normalizing the stream of an artifact

`normalize` replaces the task stream of an ANEC file by its uniform-stride layout. The loader finds the kernel
behind the stream, aligned to 16 bytes. When the length of the stream changes, `normalize` moves the content
twice, the second time at the old offset in the buffer it already resized, and it leaves the content size in the
header as it was: `normalize_keepsKernel_iff`.
-/

namespace AneLinux.Staged

open AneLinux.Support AneLinux.Hwx AneLinux.Anec

/-- `normalize`: the bytes that are written, for a given stride or the chosen one. -/
def normalize (file : Bytes) (stride : Option ℕ) : Py Bytes := do
  let header ← loadAnecHeader file
  let stage ← stageGeometry header
  let oldStream := stage.taskStreamSize
  let view := file.slice contentStart (contentStart + oldStream)
  let (chain, chosen) ← chooseLayout view stage.tdCount oldStream
  let newTdSize := stride.getD chosen
  let (newStream, _) ← normalizeStride view chain newTdSize
  let data ← packU32 file 8 newTdSize
  let data ← packU64 data 16 newStream.size
  let data := data.splice contentStart (contentStart + oldStream) newStream
  if newStream.size ≠ oldStream then
    return data.slice 0 contentStart ++ newStream ++ data.slice (contentStart + oldStream) data.size
  else return data

/-- The task stream of an artifact. -/
def streamOf (file : Bytes) : Bytes :=
  file.slice contentStart (contentStart + (decodeHeader file).taskStreamSize)

/-- The kernel of an artifact, where libane binds it: behind the stream, aligned to 16 bytes. -/
def kernelOf (file : Bytes) (kernelSize : ℕ) : Bytes :=
  file.slice (contentStart + align16 (decodeHeader file).taskStreamSize)
    (contentStart + align16 (decodeHeader file).taskStreamSize + kernelSize)

/-- The content size of an artifact is the length of its content, and the content holds the task stream. -/
structure Described (file : Bytes) : Prop where
  size : file.size = contentStart + (decodeHeader file).contentSize
  stream : (decodeHeader file).taskStreamSize ≤ (decodeHeader file).contentSize

/-- The output holds the new stream, the kernel of the input where the loader looks for it, and the length that its
header gives. -/
structure KernelKept (file out newStream : Bytes) : Prop where
  stream : streamOf out = newStream
  kernel : kernelOf out (decodeHeader file).kernelSize = kernelOf file (decodeHeader file).kernelSize
  size : out.size = contentStart + (decodeHeader out).contentSize

section Proofs

variable {file out : Bytes} {stride : Option ℕ}

/-- The geometry repeats the header. -/
theorem stageGeometry_eq_ok {header : AnecHeader} {stage : Geometry} (h : stageGeometry header = .ok stage) :
    stage.tdCount = header.tdCount ∧ stage.taskStreamSize = header.taskStreamSize := by
  rw [stageGeometry] at h
  obtain ⟨outputs, -, h⟩ := bind_eq_ok.mp h
  obtain ⟨inputs, -, h⟩ := bind_eq_ok.mp h
  obtain ⟨workspace, -, h⟩ := bind_eq_ok.mp h
  rw [← Except.ok.inj h]
  exact ⟨rfl, rfl⟩

/-- The new stream has one slot for each task of the chain. -/
theorem size_of_normalizeStride {content new : Bytes} {chain : List ℕ} {tdCount stride : ℕ} {mapping : List (ℕ × ℕ)}
    (hchain : walkLinks content tdCount = .ok chain) (h : normalizeStride content chain stride = .ok (new, mapping)) :
    new.size = chain.length * stride := by
  rw [size_rewriteLinks (normalizeStride_eq_ok hchain h).2, size_joinSlots, List.length_map]
  intro task htask
  exact strideTask_body_size_le htask

/-- The header that `normalize` writes. -/
def stamped (file : Bytes) (tdSize streamSize : ℕ) : Bytes := (file.putLE 8 4 tdSize).putLE 16 8 streamSize

/-- The file that `normalize` writes with a new stream. -/
def placed (file newStream : Bytes) (tdSize : ℕ) : Bytes :=
  let oldStream := (decodeHeader file).taskStreamSize
  let data := (stamped file tdSize newStream.size).splice contentStart (contentStart + oldStream) newStream
  if newStream.size ≠ oldStream then
    data.slice 0 contentStart ++ newStream ++ data.slice (contentStart + oldStream) data.size
  else data

/-- What a successful run did. -/
theorem normalize_eq_ok (h : normalize file stride = .ok out) : ∃ chain chosen newStream mapping,
    chooseLayout (streamOf file) (decodeHeader file).tdCount (decodeHeader file).taskStreamSize = .ok (chain, chosen) ∧
      normalizeStride (streamOf file) chain (stride.getD chosen) = .ok (newStream, mapping) ∧
      newStream.size < 2 ^ 64 ∧ out = placed file newStream (stride.getD chosen) := by
  rw [normalize] at h
  obtain ⟨header, hheader, h⟩ := bind_eq_ok.mp h
  obtain ⟨stage, hstage, h⟩ := bind_eq_ok.mp h
  obtain ⟨hcount, hstream⟩ := stageGeometry_eq_ok hstage
  rw [(loadAnecHeader_eq_ok hheader).2] at hcount hstream
  dsimp only at h
  rw [hcount, hstream] at h
  obtain ⟨⟨chain, chosen⟩, hlayout, h⟩ := bind_eq_ok.mp h
  obtain ⟨⟨newStream, mapping⟩, hnew, h⟩ := bind_eq_ok.mp h
  obtain ⟨first, hfirst, h⟩ := bind_eq_ok.mp h
  obtain ⟨second, hsecond, h⟩ := bind_eq_ok.mp h
  obtain ⟨-, rfl⟩ := packU32_eq_ok.mp hfirst
  obtain ⟨⟨-, hsmall⟩, rfl⟩ := packU64_eq_ok.mp hsecond
  refine ⟨chain, chosen, newStream, mapping, hlayout, hnew, hsmall, ?_⟩
  rw [placed]
  split at h
  · rename_i hdiffers
    rw [if_pos hdiffers]
    exact (Except.ok.inj h).symm
  · rename_i hsame
    rw [if_neg hsame]
    exact (Except.ok.inj h).symm

/-- The stamped header differs in the task size and the stream size. -/
theorem decodeHeader_stamped (tdSize : ℕ) {streamSize : ℕ} (hsize : anecHeaderSize ≤ file.size)
    (hstream : streamSize < 2 ^ 64) :
    (decodeHeader (stamped file tdSize streamSize)).contentSize = (decodeHeader file).contentSize ∧
      (decodeHeader (stamped file tdSize streamSize)).taskStreamSize = streamSize := by
  constructor
  · exact (leNat_putLE_of_ne (.inl (by omega))).trans (leNat_putLE_of_ne (.inl (by omega)))
  · exact leNat_putLE (by rw [Bytes.size_putLE]; unfold anecHeaderSize at hsize; omega) hstream

/-- The written file starts with the stamped header. -/
theorem get_placed {newStream : Bytes} {tdSize p : ℕ} (hfile : contentStart ≤ file.size) (hp : p < contentStart) :
    (placed file newStream tdSize).get p = (stamped file tdSize newStream.size).get p := by
  have hsize : (stamped file tdSize newStream.size).size = file.size := rfl
  have hhead (d : Bytes) (hd : contentStart ≤ d.size) : (d.slice 0 contentStart).size = contentStart := by
    rw [Bytes.size_slice]
    omega
  have hget (d : Bytes) (hd : contentStart ≤ d.size) (a b : Bytes) :
      (d.slice 0 contentStart ++ a ++ b).get p = d.get p := by
    rw [Bytes.append_assoc, Bytes.get_append_left _ _ (by rw [hhead d hd]; exact hp),
      Bytes.get_slice_of_lt _ (by omega), Nat.zero_add]
  rw [placed]
  split
  · rw [hget _ ?_, Bytes.splice, hget _ (hsize ▸ hfile)]
    rw [Bytes.splice, Bytes.append_assoc, Bytes.size_append, hhead _ (hsize ▸ hfile)]
    exact Nat.le_add_right _ _
  · rw [Bytes.splice, hget _ (hsize ▸ hfile)]

/-- The length of the written file: a stream of another length moves the content twice. -/
theorem size_placed (newStream : Bytes) (tdSize : ℕ) (hfile : Described file) :
    (placed file newStream tdSize).size = contentStart +
      if newStream.size = (decodeHeader file).taskStreamSize then (decodeHeader file).contentSize
      else newStream.size +
        (newStream.size + (decodeHeader file).contentSize - 2 * (decodeHeader file).taskStreamSize) := by
  obtain ⟨hsize, hstream⟩ := hfile
  have hstamped : (stamped file tdSize newStream.size).size = file.size := rfl
  rw [placed, Bytes.splice]
  split_ifs <;> simp only [Bytes.size_append, Bytes.size_slice, hstamped] <;> omega

/-- A stream of the same length is written in its place. -/
theorem get_placed_of_size_eq {newStream : Bytes} (tdSize : ℕ) (hfile : Described file)
    (hsame : newStream.size = (decodeHeader file).taskStreamSize) (p : ℕ) :
    (placed file newStream tdSize).get p =
      if contentStart ≤ p ∧ p < contentStart + (decodeHeader file).taskStreamSize then newStream.get (p - contentStart)
      else (stamped file tdSize newStream.size).get p := by
  have hfits : contentStart + (decodeHeader file).taskStreamSize ≤ (stamped file tdSize newStream.size).size := by
    change _ ≤ file.size
    rw [hfile.size]
    exact Nat.add_le_add_left hfile.stream _
  rw [placed, if_neg (not_not.mpr hsame)]
  exact Bytes.get_splice_of_eq (Nat.le_add_right _ _) hfits (by rw [hsame, Nat.add_sub_cancel_left]) p

/-- A stream of the same length keeps the rest of the file. -/
theorem keepsKernel_placed {newStream : Bytes} {tdSize : ℕ} (hfile : Described file)
    (hheader : (decodeHeader (placed file newStream tdSize)).contentSize = (decodeHeader file).contentSize ∧
      (decodeHeader (placed file newStream tdSize)).taskStreamSize = newStream.size)
    (hsame : newStream.size = (decodeHeader file).taskStreamSize) :
    KernelKept file (placed file newStream tdSize) newStream := by
  have hsize := size_placed newStream tdSize hfile
  have hget := get_placed_of_size_eq tdSize hfile hsame
  rw [if_pos hsame] at hsize
  obtain ⟨hcontent, hstream⟩ := hheader
  have hfits := hfile.stream
  have haligned := le_align16 (decodeHeader file).taskStreamSize
  refine ⟨?_, ?_, ?_⟩
  · rw [streamOf, hstream]
    refine Bytes.ext_get ?_ fun p hp => ?_
    · rw [Bytes.size_slice, hsize]
      omega
    · rw [Bytes.size_slice, hsize] at hp
      rw [Bytes.get_slice_of_lt _ (by omega), hget, if_pos (by omega), Nat.add_sub_cancel_left]
  · rw [kernelOf, kernelOf, hstream, hsame]
    refine Bytes.ext_get ?_ fun p hp => ?_
    · rw [Bytes.size_slice, Bytes.size_slice, hsize, hfile.size]
    · rw [Bytes.size_slice] at hp
      rw [Bytes.get_slice_of_lt _ (by omega), Bytes.get_slice_of_lt _ (by omega), hget, if_neg (by omega)]
      rw [stamped, Bytes.get_putLE_of_ne _ (.inr ?_), Bytes.get_putLE_of_ne _ (.inr ?_)] <;> unfold contentStart <;>
        omega
  · rw [hsize, hcontent]

/-- `normalize` keeps the kernel where the loader looks exactly when the new stream is as long as the old one. -/
theorem normalize_keepsKernel_iff (file out : Bytes) (stride : Option ℕ) (hfile : Described file)
    (h : normalize file stride = .ok out) : ∃ chain chosen newStream mapping,
    chooseLayout (streamOf file) (decodeHeader file).tdCount (decodeHeader file).taskStreamSize = .ok (chain, chosen) ∧
      normalizeStride (streamOf file) chain (stride.getD chosen) = .ok (newStream, mapping) ∧
      (KernelKept file out newStream ↔ chain.length * stride.getD chosen = (decodeHeader file).taskStreamSize) := by
  obtain ⟨chain, chosen, newStream, mapping, hlayout, hnew, hsmall, rfl⟩ := normalize_eq_ok h
  have hchain : walkLinks (streamOf file) (decodeHeader file).tdCount = .ok chain := by
    obtain ⟨walked, hwalked, hrest⟩ := bind_eq_ok.mp hlayout
    obtain ⟨largest, -, hrest⟩ := bind_eq_ok.mp hrest
    rwa [(Prod.mk.inj (Except.ok.inj hrest)).1] at hwalked
  have hstart : contentStart ≤ file.size := hfile.size ▸ Nat.le_add_right _ _
  have hheader : decodeHeader (placed file newStream (stride.getD chosen)) =
      decodeHeader (stamped file (stride.getD chosen) newStream.size) :=
    decodeHeader_congr fun p hp => get_placed hstart (Nat.lt_of_lt_of_le hp (by decide))
  have hfields := decodeHeader_stamped (stride.getD chosen) (hstart.trans' (by decide)) hsmall
  rw [← hheader] at hfields
  refine ⟨chain, chosen, newStream, mapping, hlayout, hnew, ?_⟩
  rw [← size_of_normalizeStride hchain hnew]
  refine ⟨fun hkept => ?_, fun hsame => keepsKernel_placed hfile hfields hsame⟩
  by_contra hdiffers
  have hsize := hkept.size
  have hstream := hfile.stream
  rw [size_placed newStream _ hfile, if_neg hdiffers, hfields.1] at hsize
  omega

/-- An artifact with one task and 16 kernel bytes behind a task stream of the given size. -/
def oneTaskFile (streamSize : ℕ) : Bytes :=
  Bytes.ofFields (contentStart + streamSize + 0x10) [(0, streamSize + 0x10), (8, streamSize), (12, 1), (16, streamSize),
    (24, 0x10), (contentStart + streamSize, 7)]

theorem normalize_keepsKernel_iff_sameSize : ∃ out newStream,
    normalize (oneTaskFile 0x100) none = .ok out ∧ KernelKept (oneTaskFile 0x100) out newStream := by
  obtain ⟨out, hout⟩ : ∃ out, normalize (oneTaskFile 0x100) none = .ok out := exists_ok_of_toBool (by decide +kernel)
  have hfile : Described (oneTaskFile 0x100) := ⟨by decide +kernel, by decide +kernel⟩
  obtain ⟨chain, chosen, newStream, mapping, hlayout, -, hiff⟩ := normalize_keepsKernel_iff _ _ _ hfile hout
  have hchosen : chooseLayout (streamOf (oneTaskFile 0x100)) (decodeHeader (oneTaskFile 0x100)).tdCount
      (decodeHeader (oneTaskFile 0x100)).taskStreamSize = .ok ([0], 0x100) := by decide +kernel
  obtain ⟨rfl, rfl⟩ := Prod.mk.inj (Except.ok.inj (hlayout.symm.trans hchosen))
  exact ⟨out, newStream, hout, hiff.mpr (by decide +kernel)⟩

/-- With a stream of `0x80` bytes the new stream is `0x80` bytes longer, and the kernel another `0x80` bytes behind
where the loader looks. -/
theorem normalize_loses_kernel : Described (oneTaskFile 0x80) ∧ ∃ out,
    normalize (oneTaskFile 0x80) none = .ok out ∧ kernelOf out 0x10 = Bytes.zeros 0x10 ∧
      kernelOf (oneTaskFile 0x80) 0x10 = Bytes.ofNat 0x10 7 ∧ out.size = contentStart + 0x190 ∧
      (decodeHeader out).contentSize = 0x90 ∧ ∀ newStream, ¬ KernelKept (oneTaskFile 0x80) out newStream := by
  obtain ⟨out, hout⟩ : ∃ out, normalize (oneTaskFile 0x80) none = .ok out := exists_ok_of_toBool (by decide +kernel)
  obtain ⟨chain, chosen, newStream, mapping, hlayout, hnew, -, hplaced⟩ := normalize_eq_ok hout
  have hchosen : chooseLayout (streamOf (oneTaskFile 0x80)) (decodeHeader (oneTaskFile 0x80)).tdCount
      (decodeHeader (oneTaskFile 0x80)).taskStreamSize = .ok ([0], 0x100) := by decide +kernel
  obtain ⟨rfl, rfl⟩ := Prod.mk.inj (Except.ok.inj (hlayout.symm.trans hchosen))
  have hstream : normalizeStride (streamOf (oneTaskFile 0x80)) [0] 0x100 = .ok (Bytes.zeros 0x100, [(0, 0)]) := by
    decide +kernel
  obtain ⟨rfl, -⟩ := Prod.mk.inj (Except.ok.inj (hnew.symm.trans hstream))
  subst hplaced
  have hkernel :
      kernelOf (placed (oneTaskFile 0x80) (Bytes.zeros 0x100) 0x100) 0x10 ≠ kernelOf (oneTaskFile 0x80) 0x10 := by
    decide +kernel
  have hsize : (decodeHeader (oneTaskFile 0x80)).kernelSize = 0x10 := by decide +kernel
  refine ⟨⟨by decide +kernel, by decide +kernel⟩, _, hout, by decide +kernel, by decide +kernel, by decide +kernel,
    by decide +kernel, fun newStream hkept => ?_⟩
  have hsame := hkept.kernel
  rw [hsize] at hsame
  exact hkernel hsame

end Proofs

end AneLinux.Staged
