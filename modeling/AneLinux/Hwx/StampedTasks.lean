import AneLinux.Hwx.Convert

/-!
# The stamped offsets and the counted tasks

The header counts the tasks that the search finds; the stamp follows one chain from offset 0
with a shorter header bound. The two sets coincide exactly when the tasks form a single chain
from offset 0 and no task links to a header that only the stamp's bound admits.
-/

namespace AneLinux.Hwx

open AneLinux.Support AneLinux.Anec

/-- A base that every closed task set contains. -/
def IsTask (data : Bytes) (contentOffset contentSize base : ℕ) : Prop :=
  ∀ found, TaskClosed data contentOffset contentSize found → base ∈ found

/-- The FIFO nid of a task header word. -/
def nidBits (data : Bytes) (offset : ℕ) : ℕ := data.u32 offset >>> 16 &&& 0xFF

/-- The stamped offsets are the tasks, every task of the output carries nid `0x40`, and the
stamp changed no word other than a task's first. -/
structure EveryTaskStamped (content stamped file : Bytes) (seen tasks : List ℕ) (tdCount : ℕ) : Prop where
  sameSet : ∀ base, base ∈ seen ↔ base ∈ tasks
  count : (tasks.filter fun base => nidBits file (contentStart + base) = 0x40).length = tdCount
  frame : ∀ i, (∀ base ∈ tasks, i < base ∨ base + 4 ≤ i) → stamped.get i = content.get i

/-- The tasks of a stream form one chain from offset 0, none of them links to a header that
does not fit, and none names another FIFO. -/
structure SingleChain (data : Bytes) (contentOffset contentSize : ℕ) : Prop where
  first : IsTask data contentOffset contentSize 0
  chain : ∀ base, IsTask data contentOffset contentSize base →
    Relation.ReflTransGen (TaskLink data contentOffset contentSize) 0 base
  tail : ∀ base, IsTask data contentOffset contentSize base → nextPointer data contentOffset base ≠ 0 →
    nextPointer data contentOffset base + 0x20 ≤ contentSize →
    nextPointer data contentOffset base + 0x2C ≤ contentSize
  nid : ∀ base, IsTask data contentOffset contentSize base →
    nidBits data (contentOffset + base) = 0 ∨ nidBits data (contentOffset + base) = 0x40

theorem nidBits_eq (data : Bytes) (offset : ℕ) : nidBits data offset = (data.get (offset + 2)).toNat := by
  rw [nidBits, Bytes.get_eq_leNat_shiftRight data offset 4 2 (by omega), UInt8.toNat_ofNat']
  exact Nat.and_two_pow_sub_one_eq_mod _ 8

/-- A byte with the nid bit set is the nid exactly when it held nothing else. -/
theorem or_nid_eq_iff (byte : UInt8) : (byte ||| 0x40).toNat = 0x40 ↔ byte.toNat = 0 ∨ byte.toNat = 0x40 := by
  have hall : ∀ n < 256, n ||| 64 = 64 ↔ n = 0 ∨ n = 64 := by decide +kernel
  rw [UInt8.toNat_or]
  exact hall byte.toNat byte.toNat_lt

variable {payload : Option Bytes} {base : ℕ}

section Accepted

variable {data : Bytes} {image : HWXImage} {text kernel : Section} {tasks seen : List ℕ}

/-- The found tasks of an accepted image, with the facts that the search guarantees. -/
structure FoundTasks (data : Bytes) (image : HWXImage) (tasks : List ℕ) : Prop where
  search : findTaskOffsets data image.contentOffset image.taskStreamSize = .ok tasks
  nonempty : ∃ base, base ∈ tasks
  length : image.tdCount = tasks.length
  placed : ∀ base ∈ tasks, base % 0x100 = 0 ∧ base + 0x2C ≤ image.taskStreamSize
  isTask : ∀ base, base ∈ tasks ↔ IsTask data image.contentOffset image.taskStreamSize base
  closed : TaskClosed data image.contentOffset image.taskStreamSize {base | base ∈ tasks}

theorem ImageLayout.foundTasks (h : ImageLayout data image text kernel) :
    ∃ tasks, FoundTasks data image tasks := by
  obtain ⟨tasks, hsearch, hpositive, hcount⟩ := h.tasks
  rw [← h.contentOffset, ← h.taskStreamSize] at hsearch
  obtain ⟨-, -, hplaced, hleast⟩ := (findTaskOffsets_meets ..).value hsearch
  refine ⟨tasks, hsearch, List.exists_mem_of_length_pos hpositive, hcount, hplaced, fun base => ?_, hleast.1⟩
  exact ⟨fun hbase found hfound => hleast.2 hfound hbase, fun hbase => hbase _ hleast.1⟩

/-- A stamp-bounded link between tasks of the source content is a link of the text section. -/
theorem StreamLink.taskLink (h : ImageLayout data image text kernel) {next : ℕ}
    (hlink : StreamLink (sourceContent data image payload) image.taskStreamSize base next)
    (hbase : base + 0x2C ≤ image.taskStreamSize) (hnext : next + 0x2C ≤ image.taskStreamSize) :
    TaskLink data image.contentOffset image.taskStreamSize base next := by
  obtain ⟨-, -, hzero, hword⟩ := hlink
  rw [u32_sourceContent h payload (by omega), ← Nat.add_assoc] at hword
  exact ⟨hbase, hnext, hzero, hword⟩

/-- A link of the text section is one that the stamp follows. -/
theorem TaskLink.streamLink (h : ImageLayout data image text kernel) {next : ℕ}
    (hlink : TaskLink data image.contentOffset image.taskStreamSize base next) :
    StreamLink (sourceContent data image payload) image.taskStreamSize base next := by
  obtain ⟨hbase, hnext, hzero, hword⟩ := hlink
  unfold InSection taskHeaderSize at hbase hnext
  refine ⟨by omega, by omega, hzero, ?_⟩
  rw [u32_sourceContent h payload (by omega), ← Nat.add_assoc]
  exact hword

/-- The link word of a base, read in the source content. -/
theorem nextPointer_sourceContent (h : ImageLayout data image text kernel) (payload : Option Bytes)
    (hbase : base + 0x20 ≤ image.taskStreamSize) :
    (sourceContent data image payload).u32 (base + 0x1C) = nextPointer data image.contentOffset base := by
  rw [u32_sourceContent h payload (by omega), ← Nat.add_assoc]
  rfl

/-- Tasks are aligned, so stamping them disturbs none of their links. -/
theorem FoundTasks.undisturbed (hfound : FoundTasks data image tasks) (content : Bytes) :
    Undisturbed content {base | base ∈ tasks} :=
  undisturbed_of_aligned fun base hbase => (hfound.placed base hbase).1

/-- The first offset fits in a stream that has a task. -/
theorem FoundTasks.start_fits (hfound : FoundTasks data image tasks) : 0x2C ≤ image.taskStreamSize := by
  obtain ⟨base, hbase⟩ := hfound.nonempty
  have := (hfound.placed base hbase).2
  omega

/-- A stamp run over exactly the tasks is closed under links and reaches every task. -/
theorem FoundTasks.follows (hfound : FoundTasks data image tasks) {content : Bytes}
    (hrun : StampRun content image.taskStreamSize [] 0 seen) (hsame : ∀ base, base ∈ seen ↔ base ∈ tasks) :
    (∀ base ∈ seen, ∀ next, StreamLink content image.taskStreamSize base next → next ∈ seen) ∧
      ∀ base ∈ seen, StreamReach content image.taskStreamSize base := by
  obtain ⟨hclosed, hreach⟩ := hrun.follows (hfound.undisturbed content)
    (fun base hbase => (hsame base).mp hbase) (by simp)
  exact ⟨hclosed, fun base hbase => (hreach base hbase).resolve_left (by simp)⟩

/-- In an output whose stamped offsets are the tasks, a task carries nid `0x40` exactly when
its source header named no other FIFO. -/
theorem FoundTasks.nid_output (hfound : FoundTasks data image tasks) (h : ImageLayout data image text kernel)
    (hrun : StampRun (sourceContent data image payload) image.taskStreamSize [] 0 seen)
    (hsame : ∀ base, base ∈ seen ↔ base ∈ tasks) {srcCount dstCount count : ℕ} {rewired front : Bytes}
    (hrewired : rewireSurfaceChannels (stampBytes (sourceContent data image payload) seen) image.taskStreamSize
      srcCount dstCount = .ok (rewired, count))
    (hfront : front.size = contentStart) (hbase : base ∈ tasks) :
    nidBits (front ++ rewired) (contentStart + base) = 0x40 ↔
      nidBits data (image.contentOffset + base) = 0 ∨ nidBits data (image.contentOffset + base) = 0x40 := by
  obtain ⟨hclosed, -⟩ := hfound.follows hrun hsame
  obtain ⟨hstream, hbytes⟩ := sourceContent_stream h payload
  have hlinks : ∀ task ∈ {task | task ∈ tasks}, ∀ next,
      next = (stampBytes (sourceContent data image payload) seen).u32 (task + 0x1C) → next ≠ 0 →
      next + 0x24 ≤ image.taskStreamSize → next ∈ {task | task ∈ tasks} := by
    intro task htask next hword hzero hroom
    rw [u32_stampBytes_link (hfound.undisturbed _) (fun o ho => (hsame o).mp ho) htask] at hword
    have htaskRoom := (hfound.placed task htask).2
    exact (hsame next).mp (hclosed task ((hsame task).mpr htask) next
      ⟨by omega, by omega, hzero, hword⟩)
  have hstart : 0 ∈ {task | task ∈ tasks} := by
    have hfits := hfound.start_fits
    exact (hsame 0).mp (hrun.shape.2.1 (by omega))
  have halign := (hfound.placed base hbase).1
  have hroom := (hfound.placed base hbase).2
  have hkept : rewired.get (base + 2) = (stampBytes (sourceContent data image payload) seen).get (base + 2) := by
    refine (rewireSurfaceChannels_frame hlinks (fun _ => hstart) hrewired).2 _ fun task htask _ => ?_
    have := (hfound.placed task htask).1
    omega
  have hbyte : (front ++ rewired).get (contentStart + base + 2) =
      data.get (image.contentOffset + base + 2) ||| 0x40 := by
    rw [Bytes.get_append_right _ _ (by omega), hfront, Nat.add_assoc, Nat.add_sub_cancel_left, hkept,
      get_stampBytes_of_mem ((hsame base).mpr hbase) (by omega), hbytes _ (by omega), Nat.add_assoc]
  rw [nidBits_eq, nidBits_eq, hbyte]
  exact or_nid_eq_iff _

/-- Stamped tasks form a single chain. -/
theorem FoundTasks.singleChain (hfound : FoundTasks data image tasks) (h : ImageLayout data image text kernel)
    (hrun : StampRun (sourceContent data image payload) image.taskStreamSize [] 0 seen)
    (hsame : ∀ base, base ∈ seen ↔ base ∈ tasks)
    (hnid : ∀ base ∈ tasks, nidBits data (image.contentOffset + base) = 0 ∨
      nidBits data (image.contentOffset + base) = 0x40) :
    SingleChain data image.contentOffset image.taskStreamSize := by
  obtain ⟨hclosed, hreach⟩ := hfound.follows hrun hsame
  have hfits := hfound.start_fits
  have hstart : 0 ∈ seen := hrun.shape.2.1 (by omega)
  have hroom {base : ℕ} (hbase : base ∈ seen) : base + 0x2C ≤ image.taskStreamSize :=
    (hfound.placed base ((hsame base).mp hbase)).2
  refine ⟨(hfound.isTask 0).mp ((hsame 0).mp hstart), fun base hbase => ?_, fun base hbase hzero hnext => ?_,
    fun base hbase => hnid base ((hfound.isTask base).mpr hbase)⟩
  · have hpath := hreach base ((hsame base).mpr ((hfound.isTask base).mpr hbase))
    have hlinked : base ∈ seen ∧
        Relation.ReflTransGen (TaskLink data image.contentOffset image.taskStreamSize) 0 base := by
      clear hbase
      induction hpath with
      | refl => exact ⟨hstart, Relation.ReflTransGen.refl⟩
      | tail _ hlink ih =>
        have hnext := hclosed _ ih.1 _ hlink
        exact ⟨hnext, ih.2.tail (hlink.taskLink h (hroom ih.1) (hroom hnext))⟩
    exact hlinked.2
  · have hmem := (hsame base).mpr ((hfound.isTask base).mpr hbase)
    have hbaseRoom := hroom hmem
    have hword := nextPointer_sourceContent h payload (show base + 0x20 ≤ image.taskStreamSize by omega)
    exact hroom (hclosed base hmem _ ⟨by omega, hnext, hzero, hword.symm⟩)

/-- On a single chain the stamp visits exactly the tasks. -/
theorem SingleChain.sameSet (hchain : SingleChain data image.contentOffset image.taskStreamSize)
    (hfound : FoundTasks data image tasks) (h : ImageLayout data image text kernel)
    (hrun : StampRun (sourceContent data image payload) image.taskStreamSize [] 0 seen) (base : ℕ) :
    base ∈ seen ↔ base ∈ tasks := by
  have hbases := hfound.undisturbed (sourceContent data image payload)
  have hfits := hfound.start_fits
  have hclosed : ∀ task ∈ {task | task ∈ tasks}, ∀ next,
      StreamLink (sourceContent data image payload) image.taskStreamSize task next →
      next ∈ {task | task ∈ tasks} := by
    intro task htask next hlink
    have hroom := (hfound.placed task htask).2
    have hnext : next + 0x2C ≤ image.taskStreamSize := by
      have hword := hlink.2.2.2
      rw [nextPointer_sourceContent h payload (by omega)] at hword
      have htail := hchain.tail task ((hfound.isTask task).mp htask) (hword ▸ hlink.2.2.1) (hword ▸ hlink.2.1)
      omega
    exact hfound.closed.links task htask next (hlink.taskLink h hroom hnext)
  have hsub := hrun.subset hbases hclosed (by simp) ((hfound.isTask 0).mpr hchain.first)
  refine ⟨fun hbase => hsub base hbase, fun hbase => ?_⟩
  obtain ⟨hlinks, -⟩ := hrun.follows hbases hsub (by simp)
  have hpath := hchain.chain base ((hfound.isTask base).mp hbase)
  clear hbase
  induction hpath with
  | refl => exact hrun.shape.2.1 (by omega)
  | tail _ hlink ih => exact hlinks _ ih _ (hlink.streamLink h)

end Accepted

/-- On an accepted container every counted task is stamped exactly when the tasks form a
single chain from offset 0. -/
theorem convertHwx_stamps_iff (data : Bytes) (inCh outCh : ℤ) (inShape outShape : Option Shape)
    (blob : Option Bytes) (file : Bytes)
    (h : convertHwx data inCh outCh inShape outShape blob true = .ok file) :
    ∃ image payload stamped seen patched tasks, parseHwx data = .ok image ∧
      kernelPayload image blob = .ok payload ∧
      patchTaskNid (sourceContent data image payload) image.taskStreamSize 0x40 =
        .ok (stamped, seen, patched) ∧
      findTaskOffsets data image.contentOffset image.taskStreamSize = .ok tasks ∧
      (EveryTaskStamped (sourceContent data image payload) stamped file seen tasks image.tdCount ↔
        SingleChain data image.contentOffset image.taskStreamSize) := by
  obtain ⟨image, header, payload, seen, rewired, count, hparse, hheader, hpayload, hpatch, hrun, hrewired,
    rfl⟩ := convertHwx_eq_ok h
  obtain ⟨text, kernel, hlayout⟩ := (parseHwx_meets data).value hparse
  obtain ⟨tasks, hfound⟩ := hlayout.foundTasks
  have hfront := buildHeader_padded hheader
  refine ⟨image, payload, _, seen, _, tasks, hparse, hpayload, hpatch, hfound.search, fun hstamped => ?_,
    fun hchain => ?_⟩
  · have hcount := hstamped.count.trans hfound.length
    rw [List.length_filter_eq_length_iff] at hcount
    refine hfound.singleChain hlayout hrun hstamped.sameSet fun base hbase => ?_
    exact (hfound.nid_output hlayout hrun hstamped.sameSet hrewired hfront hbase).mp
      (by simpa using hcount base hbase)
  · have hsame := hchain.sameSet hfound hlayout hrun
    refine ⟨hsame, ?_, fun i hi => get_stampBytes_of_ne fun offset hoffset heq => ?_⟩
    · rw [hfound.length, List.length_filter_eq_length_iff]
      intro base hbase
      have hnid := hchain.nid base ((hfound.isTask base).mp hbase)
      simpa using (hfound.nid_output hlayout hrun hsame hrewired hfront hbase).mpr hnid
    · have := hi offset ((hsame offset).mp hoffset)
      omega

/-- The tasks of a stream are the ones the search returns. -/
theorem isTask_iff_mem {data : Bytes} {contentOffset contentSize : ℕ} {tasks : List ℕ}
    (h : findTaskOffsets data contentOffset contentSize = .ok tasks) (base : ℕ) :
    IsTask data contentOffset contentSize base ↔ base ∈ tasks := by
  obtain ⟨-, -, -, hleast⟩ := (findTaskOffsets_meets ..).value h
  exact ⟨fun hbase => hbase _ hleast.1, fun hbase found hfound => hleast.2 hfound hbase⟩

/-- Two tasks, the first of which links to the second. -/
def pairContainer : Bytes := container 0x200 [(0x1C, 0x100), (0x28, 0x1F800), (0x128, 0x1F800)] none

/-- Both tasks of a linked pair are stamped. -/
theorem convertHwx_stamps_iff_pairContainer : ∃ file image payload stamped seen patched tasks,
    convertHwx pairContainer 1 1 none none none true = .ok file ∧ parseHwx pairContainer = .ok image ∧
    patchTaskNid (sourceContent pairContainer image payload) image.taskStreamSize 0x40 =
      .ok (stamped, seen, patched) ∧
    EveryTaskStamped (sourceContent pairContainer image payload) stamped file seen tasks image.tdCount := by
  obtain ⟨file, hfile⟩ : ∃ file, convertHwx pairContainer 1 1 none none none true = .ok file :=
    exists_ok_of_toBool (by decide +kernel)
  obtain ⟨image, payload, stamped, seen, patched, tasks, hparse, -, hpatch, -, hiff⟩ :=
    convertHwx_stamps_iff _ _ _ _ _ _ file hfile
  obtain ⟨image', hparse', hfields⟩ := @exists_ok_of_map _ _ _ (parseHwx pairContainer)
    (fun image => (image.contentOffset, image.taskStreamSize)) (0x300, 0x200) (by decide +kernel)
  obtain rfl := Except.ok.inj (hparse.symm.trans hparse')
  obtain ⟨hoffset, hsize⟩ := Prod.mk.inj hfields
  have hsearch : findTaskOffsets pairContainer (0x300 : ℕ) (0x200 : ℕ) = .ok [0, 0x100] := by decide +kernel
  have htask (base : ℕ) : IsTask pairContainer 0x300 0x200 base ↔ base = 0 ∨ base = 0x100 := by
    rw [isTask_iff_mem hsearch, List.mem_pair]
  have hlink : TaskLink pairContainer 0x300 0x200 0 0x100 :=
    ⟨by unfold InSection; decide, by unfold InSection; decide, by decide, by decide +kernel⟩
  refine ⟨file, image, payload, stamped, seen, patched, tasks, hfile, hparse, hpatch, hiff.mpr ?_⟩
  rw [hoffset, hsize]
  refine ⟨(htask 0).mpr (.inl rfl), fun base hbase => ?_, fun base hbase hnext => ?_, fun base hbase => ?_⟩ <;>
    rcases (htask base).mp hbase with rfl | rfl
  · exact .refl
  · exact .single hlink
  · exact fun _ => by decide +kernel
  · exact absurd hnext (by decide +kernel)
  · exact .inl (by decide +kernel)
  · exact .inl (by decide +kernel)

/-- Two unlinked tasks: the header counts both, and only the one at offset 0 is stamped. -/
theorem convertHwx_misses_second_chain : ∃ file image stamped seen patched tasks,
    convertHwx (container 0x200 [(0x28, 0x1F800), (0x128, 0x1F800)] none) 1 1 none none none true = .ok file ∧
    parseHwx (container 0x200 [(0x28, 0x1F800), (0x128, 0x1F800)] none) = .ok image ∧
    kernelPayload image none = .ok none ∧
    patchTaskNid (sourceContent (container 0x200 [(0x28, 0x1F800), (0x128, 0x1F800)] none) image none)
      image.taskStreamSize 0x40 = .ok (stamped, seen, patched) ∧
    findTaskOffsets (container 0x200 [(0x28, 0x1F800), (0x128, 0x1F800)] none) image.contentOffset
      image.taskStreamSize = .ok tasks ∧
    ¬ EveryTaskStamped (sourceContent (container 0x200 [(0x28, 0x1F800), (0x128, 0x1F800)] none) image none)
      stamped file seen tasks image.tdCount := by
  obtain ⟨file, hfile⟩ : ∃ file, convertHwx (container 0x200 [(0x28, 0x1F800), (0x128, 0x1F800)] none) 1 1
      none none none true = .ok file := exists_ok_of_toBool (by decide +kernel)
  obtain ⟨image, hparse, hfields⟩ := @exists_ok_of_map _ _ _
    (parseHwx (container 0x200 [(0x28, 0x1F800), (0x128, 0x1F800)] none))
    (fun image => (image.contentOffset, image.taskStreamSize, kernelPayload image none, (patchTaskNid
      (sourceContent (container 0x200 [(0x28, 0x1F800), (0x128, 0x1F800)] none) image none)
      image.taskStreamSize 0x40).map fun result => result.2.1)) (0x300, 0x200, .ok none, .ok [0])
    (by decide +kernel)
  obtain ⟨hoffset, hsize, hpayload, hseen⟩ :
      image.contentOffset = 0x300 ∧ image.taskStreamSize = 0x200 ∧ kernelPayload image none = .ok none ∧ _ := by
    simpa only [Prod.mk.injEq] using hfields
  obtain ⟨⟨stamped, seen, patched⟩, hpatch, hseen⟩ := exists_ok_of_map hseen
  refine ⟨file, image, stamped, seen, patched, [0, 0x100], hfile, hparse, hpayload, hpatch, ?_,
    fun hstamped => ?_⟩
  · rw [hoffset, hsize]
    decide +kernel
  · have hmem := (hstamped.sameSet 0x100).mpr (by decide)
    obtain rfl : seen = [0] := hseen
    exact absurd hmem (by decide)

end AneLinux.Hwx
