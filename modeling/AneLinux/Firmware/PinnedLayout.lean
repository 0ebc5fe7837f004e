import AneLinux.Firmware.CommandWalk
import Mathlib.Algebra.Order.BigOperators.Group.Finset

/-!
# What an accepted payload looks like

The pinned image has seven consecutive load commands that fill the command area, each pinned
segment once, and a last program counter of zero. The validator follows wrapping offsets, does
not compare the end of its walk with the end of the command area, does not record which pinned
segment a command matched, and stores a segment before it counts them. Acceptance therefore
means the pinned layout exactly when the command sizes add up and no segment is repeated, and
the stores stay in `segs_out` exactly when no fourth segment command is met.
-/

namespace AneLinux.Firmware

open AneLinux.Support

/-- The size and the header words of a payload are the pinned ones. -/
structure HeaderPasses (blob : Bytes) : Prop where
  size : blob.size = aneFwBlobSize
  magic : blob.u32 0 = mhMagic64
  cputype : blob.u32 4 = cpuTypeArm64
  filetype : blob.u32 12 = mhPreload
  ncmds : blob.u32 16 = aneFwNcmds
  sizeofcmds : blob.u32 20 = aneFwSizeofCmds
  flags : blob.u32 24 = aneFwFlags

/-- The reads of the header. -/
def headerReads : List Access := [.read 0 4, .read 4 4, .read 12 4, .read 16 4, .read 20 4, .read 24 4]

/-- The walk of the validator over the commands of a payload. -/
def commandWalk (fuel : ℕ) (blob : Bytes) (segsOut : Bool) : Check Walk :=
  loadCommands fuel blob segsOut aneFwSizeofCmds aneFwNcmds (walkAt blob 0 (2 ^ 64 - 1))

variable {blob sha : Bytes} {fuel : ℕ}

section Validator

variable {segsOut : Bool}

/-- Past the hash check the validator either rejects the header or walks the commands. -/
theorem aneFwValidateBlob_cases (hsize : blob.size = aneFwBlobSize) :
    (HeaderPasses blob ∧ aneFwValidateBlob fuel blob sha sha segsOut =
      ⟨headerReads ++ (commandWalk fuel blob segsOut >>= finish segsOut).log,
        (commandWalk fuel blob segsOut >>= finish segsOut).outcome⟩) ∨
    (¬HeaderPasses blob ∧ ∃ text, aneFwValidateBlob fuel blob sha sha segsOut =
      ⟨headerReads, .error (.reason text)⟩) := by
  rw [aneFwValidateBlob, if_neg (not_not.mpr hsize), if_neg (not_not.mpr rfl)]
  simp only [getUnalignedLe32, Logged.emit_bind]
  by_cases hmagic : blob.u32 0 ≠ mhMagic64
  · exact .inr ⟨fun h => hmagic h.magic, _, by rw [if_pos hmagic]; rfl⟩
  rw [if_neg hmagic]
  by_cases hcputype : blob.u32 4 ≠ cpuTypeArm64
  · exact .inr ⟨fun h => hcputype h.cputype, _, by rw [if_pos hcputype]; rfl⟩
  rw [if_neg hcputype]
  by_cases hfiletype : blob.u32 12 ≠ mhPreload
  · exact .inr ⟨fun h => hfiletype h.filetype, _, by rw [if_pos hfiletype]; rfl⟩
  rw [if_neg hfiletype]
  by_cases hfields : blob.u32 16 ≠ aneFwNcmds ∨ blob.u32 20 ≠ aneFwSizeofCmds ∨ blob.u32 24 ≠ aneFwFlags
  · refine .inr ⟨fun h => ?_, _, by rw [if_pos hfields]; rfl⟩
    rcases hfields with hncmds | hsizeofcmds | hflags
    · exact hncmds h.ncmds
    · exact hsizeofcmds h.sizeofcmds
    · exact hflags h.flags
  rw [if_neg hfields]
  simp only [not_or, not_not] at hmagic hcputype hfiletype hfields
  obtain ⟨hncmds, hsizeofcmds, hflags⟩ := hfields
  refine .inl ⟨⟨hsize, hmagic, hcputype, hfiletype, hncmds, hsizeofcmds, hflags⟩, ?_⟩
  rw [hncmds, hsizeofcmds]
  rfl

/-- The walk starts inside the command area. -/
theorem commandOffset_zero_le (blob : Bytes) : commandOffset blob 0 ≤ commandLimit := by
  show 32 ≤ 32 + aneFwSizeofCmds
  omega

/-- An accepted payload passed every check, had three segment commands and a last counter of zero. -/
theorem accepted_passes {entry : ℕ} (hok : (aneFwValidateBlob fuel blob sha sha segsOut).outcome = .ok entry) :
    HeaderPasses blob ∧ (∀ i < aneFwNcmds, CommandPasses blob (commandOffset blob i)) ∧
      segmentCount blob aneFwNcmds = aneFwNsegs ∧ (pcsFrom blob 0 aneFwNcmds).getLastD (2 ^ 64 - 1) = 0 := by
  by_cases hsize : blob.size = aneFwBlobSize
  · rcases aneFwValidateBlob_cases hsize with ⟨hheader, heq⟩ | ⟨-, text, heq⟩
    · rw [heq, Logged.outcome_bind_eq_ok] at hok
      obtain ⟨last, hwalk, hfinish⟩ := hok
      obtain ⟨hpasses, hlast⟩ := loadCommands_ok hsize aneFwNcmds (by omega) (commandOffset_zero_le blob) hwalk
      simp only [finish, reject, Logged.outcome_guard_eq_ok, not_not] at hfinish
      obtain ⟨hcount, hentry, -⟩ := hfinish
      rw [hlast, Nat.zero_add] at hcount hentry
      exact ⟨hheader, fun i hi => hpasses i (Nat.zero_le i) (by omega), hcount, hentry⟩
    · rw [heq] at hok
      simp at hok
  · rw [aneFwValidateBlob, if_pos hsize] at hok
    simp [reject] at hok

end Validator

/-- The sum of the sizes of the first commands. -/
def sizeSum (blob : Bytes) (n : ℕ) : ℕ := ∑ i ∈ Finset.range n, cmdsizeAt blob (commandOffset blob i)

/-- The pinned layout of the load commands. -/
structure PinnedLayout (blob : Bytes) : Prop where
  consecutive : ∀ i < aneFwNcmds,
    commandOffset blob (i + 1) = commandOffset blob i + cmdsizeAt blob (commandOffset blob i)
  ends : commandOffset blob aneFwNcmds = 32 + aneFwSizeofCmds
  pinned : ∀ i < aneFwNcmds, cmdAt blob (commandOffset blob i) = lcSegment64 →
    ∃ seg ∈ aneFwExpectedSegs, Matches blob (commandOffset blob i) seg
  once : ∀ seg ∈ aneFwExpectedSegs, ∃! i, i < aneFwNcmds ∧
    cmdAt blob (commandOffset blob i) = lcSegment64 ∧ Matches blob (commandOffset blob i) seg
  entry : (pcsFrom blob 0 aneFwNcmds).getLast? = some aneFwEntryPc

/-- No two segment commands of the walk have one address. -/
def DistinctSegments (blob : Bytes) : Prop :=
  ∀ i < aneFwNcmds, ∀ j < aneFwNcmds, cmdAt blob (commandOffset blob i) = lcSegment64 ∧
    cmdAt blob (commandOffset blob j) = lcSegment64 ∧
    blob.u64 (commandOffset blob i + 24) = blob.u64 (commandOffset blob j + 24) → i = j

instance (blob : Bytes) : Decidable (DistinctSegments blob) :=
  inferInstanceAs (Decidable (∀ i < aneFwNcmds, ∀ j < aneFwNcmds, _ ∧ _ ∧ _ → i = j))

section Layout

/-- The walk is at the wrapped sum of the sizes. -/
theorem commandOffset_eq_sizeSum (n : ℕ) : commandOffset blob n = u32 (32 + sizeSum blob n) := by
  induction n with
  | zero => rfl
  | succ n ih =>
    rw [sizeSum, Finset.sum_range_succ, ← sizeSum, commandOffset, commandEnd]
    generalize cmdsizeAt blob (commandOffset blob n) = size
    rw [ih, u32, u32, u32]
    omega

/-- Sizes that fill the command area are added without a wrap. -/
theorem commandOffset_of_sizeSum {n : ℕ} (hsum : sizeSum blob aneFwNcmds = aneFwSizeofCmds)
    (hn : n ≤ aneFwNcmds) : commandOffset blob n = 32 + sizeSum blob n := by
  have hle : sizeSum blob n ≤ aneFwSizeofCmds := by
    rw [← hsum]
    exact Finset.sum_le_sum_of_subset (Finset.range_mono hn)
  rw [commandOffset_eq_sizeSum, u32]
  rw [aneFwSizeofCmds] at hle
  omega

/-- Consecutive commands are at the sum of the sizes. -/
theorem commandOffset_of_consecutive (n : ℕ)
    (h : ∀ i < n, commandOffset blob (i + 1) = commandOffset blob i + cmdsizeAt blob (commandOffset blob i)) :
    commandOffset blob n = 32 + sizeSum blob n := by
  induction n with
  | zero => rfl
  | succ n ih =>
    rw [h n (by omega), sizeSum, Finset.sum_range_succ, ← sizeSum, ih fun i hi => h i (by omega), Nat.add_assoc]

/-- A pinned segment is known by its address. -/
theorem aneFwExpectedSegs_inj {a b : AneFwSeg} (ha : a ∈ aneFwExpectedSegs) (hb : b ∈ aneFwExpectedSegs)
    (h : a.vmaddr = b.vmaddr) : a = b := by
  simp only [aneFwExpectedSegs, List.mem_cons, List.not_mem_nil, or_false] at ha hb
  rcases ha with rfl | rfl | rfl
  · rcases hb with rfl | rfl | rfl
    · rfl
    · simp at h
    · simp at h
  · rcases hb with rfl | rfl | rfl
    · simp at h
    · rfl
    · simp at h
  · rcases hb with rfl | rfl | rfl
    · simp at h
    · simp at h
    · rfl

/-- The addresses of the pinned segments. -/
def pinnedAddresses : Finset ℕ := (aneFwExpectedSegs.map AneFwSeg.vmaddr).toFinset

/-- Three segment commands with different pinned addresses are the three pinned segments. -/
theorem exists_command_of_distinct (hpinned : ∀ i < aneFwNcmds, cmdAt blob (commandOffset blob i) = lcSegment64 →
      ∃ seg ∈ aneFwExpectedSegs, Matches blob (commandOffset blob i) seg)
    (hcount : segmentCount blob aneFwNcmds = aneFwNsegs) (hdistinct : DistinctSegments blob)
    {seg : AneFwSeg} (hseg : seg ∈ aneFwExpectedSegs) :
    ∃ i < aneFwNcmds, cmdAt blob (commandOffset blob i) = lcSegment64 ∧
      Matches blob (commandOffset blob i) seg := by
  let commands := (Finset.range aneFwNcmds).filter fun i => cmdAt blob (commandOffset blob i) = lcSegment64
  have hmem : ∀ i, i ∈ commands ↔ i < aneFwNcmds ∧ cmdAt blob (commandOffset blob i) = lcSegment64 := by
    simp [commands]
  have hcard : commands.card = pinnedAddresses.card := by
    rw [← Nat.count_eq_card_filter_range]
    exact hcount
  have hmaps : ∀ i ∈ commands, blob.u64 (commandOffset blob i + 24) ∈ pinnedAddresses := by
    intro i hi
    obtain ⟨hlt, hcmd⟩ := (hmem i).mp hi
    obtain ⟨found, hfound, hmatch⟩ := hpinned i hlt hcmd
    rw [hmatch.vmaddr, pinnedAddresses, List.mem_toFinset]
    exact List.mem_map_of_mem hfound
  have hinj : ∀ i ∈ commands, ∀ j ∈ commands,
      blob.u64 (commandOffset blob i + 24) = blob.u64 (commandOffset blob j + 24) → i = j := by
    intro i hi j hj heq
    obtain ⟨hilt, hicmd⟩ := (hmem i).mp hi
    obtain ⟨hjlt, hjcmd⟩ := (hmem j).mp hj
    exact hdistinct i hilt j hjlt ⟨hicmd, hjcmd, heq⟩
  have haddress : seg.vmaddr ∈ pinnedAddresses := by
    rw [pinnedAddresses, List.mem_toFinset]
    exact List.mem_map_of_mem hseg
  obtain ⟨i, hi, haddr⟩ := Finset.surj_on_of_inj_on_of_card_le
    (fun i _ => blob.u64 (commandOffset blob i + 24)) hmaps (fun i j hi hj => hinj i hi j hj)
    hcard.ge seg.vmaddr haddress
  obtain ⟨hlt, hcmd⟩ := (hmem i).mp hi
  obtain ⟨found, hfound, hmatch⟩ := hpinned i hlt hcmd
  obtain rfl : found = seg := aneFwExpectedSegs_inj hfound hseg (by rw [← hmatch.vmaddr, ← haddr])
  exact ⟨i, hlt, hcmd, hmatch⟩

/-- Sizes that fill the command area and distinct segments give the pinned layout. -/
theorem pinnedLayout_of_sizeSum (hpasses : ∀ i < aneFwNcmds, CommandPasses blob (commandOffset blob i))
    (hcount : segmentCount blob aneFwNcmds = aneFwNsegs)
    (hentry : (pcsFrom blob 0 aneFwNcmds).getLast? = some aneFwEntryPc)
    (hsum : sizeSum blob aneFwNcmds = aneFwSizeofCmds) (hdistinct : DistinctSegments blob) :
    PinnedLayout blob := by
  have hpinned : ∀ i < aneFwNcmds, cmdAt blob (commandOffset blob i) = lcSegment64 →
      ∃ seg ∈ aneFwExpectedSegs, Matches blob (commandOffset blob i) seg :=
    fun i hi => (hpasses i hi).segment
  refine ⟨fun i hi => ?_, ?_, hpinned, fun seg hseg => ?_, hentry⟩
  · have hnext := commandOffset_of_sizeSum hsum (n := i + 1) hi
    rw [sizeSum, Finset.sum_range_succ, ← sizeSum, ← Nat.add_assoc] at hnext
    rwa [← commandOffset_of_sizeSum hsum (Nat.le_of_lt hi)] at hnext
  · rw [commandOffset_of_sizeSum hsum (Nat.le_refl _), hsum]
  · obtain ⟨i, hi, hcmd, hmatch⟩ := exists_command_of_distinct hpinned hcount hdistinct hseg
    refine ⟨i, ⟨hi, hcmd, hmatch⟩, fun j ⟨hj, hjcmd, hjmatch⟩ => ?_⟩
    exact hdistinct j hj i hi ⟨hjcmd, hcmd, hjmatch.vmaddr.trans hmatch.vmaddr.symm⟩

/-- In the pinned layout the sizes fill the command area. -/
theorem PinnedLayout.sizeSum_eq (h : PinnedLayout blob) : sizeSum blob aneFwNcmds = aneFwSizeofCmds := by
  have hends := h.ends
  rw [commandOffset_of_consecutive aneFwNcmds h.consecutive] at hends
  omega

/-- In the pinned layout the segments have different addresses. -/
theorem PinnedLayout.distinct (h : PinnedLayout blob) : DistinctSegments blob := by
  intro i hi j hj ⟨hicmd, hjcmd, haddr⟩
  obtain ⟨a, ha, hamatch⟩ := h.pinned i hi hicmd
  obtain ⟨b, hb, hbmatch⟩ := h.pinned j hj hjcmd
  obtain rfl : a = b := aneFwExpectedSegs_inj ha hb (by rw [← hamatch.vmaddr, ← hbmatch.vmaddr, haddr])
  exact (h.once a ha).unique ⟨hi, hicmd, hamatch⟩ ⟨hj, hjcmd, hbmatch⟩

/-- A last element that is not the default is there. -/
theorem getLast?_of_getLastD {α : Type} {values : List α} {d a : α} (h : values.getLastD d = a) (hne : d ≠ a) :
    values.getLast? = some a := by
  rw [List.getLastD_eq_getLast?] at h
  cases hlast : values.getLast? with
  | none => simp [hlast, hne] at h
  | some b => simpa [hlast] using h

/-- An accepted payload has the pinned layout exactly when its command sizes add up to the
command area and its segment commands have different addresses. -/
theorem accepted_pinnedLayout_iff (fuel : ℕ) (blob sha : Bytes) (segsOut : Bool) (entry : ℕ)
    (hok : (aneFwValidateBlob fuel blob sha sha segsOut).outcome = .ok entry) :
    PinnedLayout blob ↔ sizeSum blob aneFwNcmds = aneFwSizeofCmds ∧ DistinctSegments blob := by
  obtain ⟨-, hpasses, hcount, hlast⟩ := accepted_passes hok
  have hentry : (pcsFrom blob 0 aneFwNcmds).getLast? = some aneFwEntryPc :=
    getLast?_of_getLastD hlast (by decide)
  constructor
  · intro h
    exact ⟨h.sizeSum_eq, h.distinct⟩
  · intro ⟨hsum, hdistinct⟩
    exact pinnedLayout_of_sizeSum hpasses hcount hentry hsum hdistinct

/-- The fields of a pinned segment command at an offset. -/
def segmentFields (off cmdsize : ℕ) (seg : AneFwSeg) : List (ℕ × ℕ) :=
  [(off, lcSegment64), (off + 4, cmdsize), (off + 8, seg.name.leNat 0 16), (off + 24, seg.vmaddr),
    (off + 32, seg.vmsize), (off + 40, seg.fileoff), (off + 48, seg.filesize)]

/-- The fields of a thread command with one zeroed thread state. -/
def threadFields (off cmdsize : ℕ) : List (ℕ × ℕ) :=
  [(off, lcUnixthread), (off + 4, cmdsize), (off + 8, armThreadState64), (off + 12, 66)]

/-- A payload with the pinned header and the given command fields. -/
def payload (commands : List (ℕ × ℕ)) : Bytes :=
  Bytes.ofFields aneFwBlobSize ([(0, mhMagic64), (4, cpuTypeArm64), (12, mhPreload), (16, aneFwNcmds),
    (20, aneFwSizeofCmds), (24, aneFwFlags)] ++ commands)

/-- The `__TEXT` segment of the pinned table. -/
def textSeg : AneFwSeg := aneFwExpectedSegs.getD 0 ⟨0, 0, 0, 0, Bytes.empty⟩

/-- A payload with the three pinned segments, a thread and three more commands that fill the area. -/
def pinnedPayload : Bytes := payload (segmentFields 32 72 textSeg ++
  segmentFields 104 72 (aneFwExpectedSegs.getD 1 textSeg) ++
  segmentFields 176 72 (aneFwExpectedSegs.getD 2 textSeg) ++ threadFields 248 280 ++
  [(532, 8), (540, 8), (548, 2280)])

/-- The pinned payload is accepted and has the pinned layout. -/
theorem accepted_pinnedLayout_iff_pinnedPayload : PinnedLayout pinnedPayload :=
  (accepted_pinnedLayout_iff 400 pinnedPayload (Bytes.zeros 32) true 0 (by decide +kernel)).mpr
    ⟨by decide +kernel, by decide +kernel⟩

/-- A payload with the `__TEXT` segment three times whose commands end long before the area does. -/
def repeatedPayload : Bytes := payload (segmentFields 32 72 textSeg ++ segmentFields 104 72 textSeg ++
  segmentFields 176 72 textSeg ++ threadFields 248 280 ++ [(532, 8), (540, 8), (548, 8)])

/-- A payload that is accepted without the pinned layout. -/
theorem repeatedPayload_accepted :
    (aneFwValidateBlob 400 repeatedPayload (Bytes.zeros 32) (Bytes.zeros 32) true).outcome = .ok 0 ∧
      ¬PinnedLayout repeatedPayload := by
  refine ⟨by decide +kernel, fun h => ?_⟩
  have hsum : sizeSum repeatedPayload aneFwNcmds ≠ aneFwSizeofCmds := by decide +kernel
  exact hsum h.sizeSum_eq

end Layout

/-- The validator reads inside the payload and writes inside an array of three entries, however
long its loops have run, and it halts. -/
structure StaysInside (blob sha : Bytes) : Prop where
  reads : ∀ fuel offset width,
    .read offset width ∈ (aneFwValidateBlob fuel blob sha sha true).log → offset + width ≤ blob.size
  writes : ∀ fuel index seg,
    .write index seg ∈ (aneFwValidateBlob fuel blob sha sha true).log → index < aneFwNsegs
  halts : ∃ enough, ∀ fuel, enough ≤ fuel →
    (aneFwValidateBlob fuel blob sha sha true).outcome ≠ .error .running

/-- The walk gets through commands that include more than three segment commands. -/
def MeetsFourSegments (blob : Bytes) : Prop :=
  HeaderPasses blob ∧ ∃ n ≤ aneFwNcmds, (∀ i < n, CommandPasses blob (commandOffset blob i)) ∧
    aneFwNsegs < segmentCount blob n

section Accesses

/-- The outputs are the entries of the pinned table. -/
theorem finish_safe (blob : Bytes) (segsOut : Bool) (walk : Walk) :
    Logged.Safe (Allowed blob fun index => index < aneFwNsegs) (fun _ => True) (finish segsOut walk) := by
  apply Logged.Safe.guard
  intro _
  apply Logged.Safe.guard
  intro _
  have hcopy : Logged.Safe (Allowed blob fun index => index < aneFwNsegs) (fun _ => True)
      (if segsOut then copySegs 0 aneFwExpectedSegs else pure () : Check Unit) := by
    cases segsOut with
    | true => exact ⟨by simp [copySegs, aneFwExpectedSegs, Allowed, aneFwNsegs], fun _ _ => trivial⟩
    | false => exact Logged.Safe.pure trivial
  exact hcopy.bind fun _ _ => Logged.Safe.pure trivial

/-- The reads of the header are inside the payload. -/
theorem headerReads_inside (hsize : blob.size = aneFwBlobSize) (entries : ℕ → Prop) :
    ∀ access ∈ headerReads, Allowed blob entries access := by
  simp [headerReads, Allowed, hsize, aneFwBlobSize]

/-- The outputs are written without waiting for a loop. -/
theorem finish_halts (segsOut : Bool) (walk : Walk) : (finish segsOut walk).outcome ≠ .error .running := by
  unfold finish
  split
  · simp [reject]
  · split
    · simp [reject]
    · cases segsOut with
      | true =>
        intro h
        cases h
      | false =>
        intro h
        cases h

/-- Every read of the validator is inside the payload. -/
theorem aneFwValidateBlob_reads : Logged.Safe (Allowed blob fun _ => True) (fun _ => True)
    (aneFwValidateBlob fuel blob sha sha true) := by
  by_cases hsize : blob.size = aneFwBlobSize
  · have hheader := headerReads_inside hsize fun _ => True
    rcases aneFwValidateBlob_cases hsize with ⟨-, heq⟩ | ⟨-, text, heq⟩
    · rw [heq]
      refine ⟨fun access haccess => ?_, fun _ _ => trivial⟩
      rcases List.mem_append.mp haccess with h | h
      · exact hheader access h
      have hwalk : Logged.Safe (Allowed blob fun _ => True) (fun _ => True)
          (commandWalk fuel blob true >>= finish true) :=
        (loadCommands_safe hsize aneFwNcmds (commandOffset_zero_le blob)).bind fun walk _ =>
          Logged.Safe.weaken (finish_safe blob true walk) (fun access haccess => by
            cases access with
            | read offset width => exact haccess
            | write index seg => trivial)
      exact hwalk.1 access h
    · rw [heq]
      exact ⟨hheader, fun _ _ => trivial⟩
  · rw [aneFwValidateBlob, if_pos hsize]
    exact Logged.Safe.fail

/-- With fuel for the command area the validator halts. -/
theorem aneFwValidateBlob_halts (hfuel : commandLimit < 8 * fuel) :
    (aneFwValidateBlob fuel blob sha sha true).outcome ≠ .error .running := by
  by_cases hsize : blob.size = aneFwBlobSize
  · rcases aneFwValidateBlob_cases hsize with ⟨-, heq⟩ | ⟨-, text, heq⟩
    · rw [heq]
      have hwalk := @loadCommands_halts blob (walkAt blob 0 (2 ^ 64 - 1)) fuel true hsize hfuel aneFwNcmds
        (commandOffset_zero_le blob)
      cases hout : (commandWalk fuel blob true).outcome with
      | ok last =>
        rw [Logged.outcome_bind_of_ok hout]
        exact finish_halts true last
      | error stop =>
        rw [Logged.outcome_bind_of_error hout]
        intro h
        cases h
        exact hwalk hout
    · simp [heq]
  · rw [aneFwValidateBlob, if_pos hsize]
    simp [reject]

/-- Behind a count there is a last segment command. -/
theorem exists_segment_of_lt_segmentCount {k : ℕ} (n : ℕ) (h : k < segmentCount blob n) :
    ∃ j < n, cmdAt blob (commandOffset blob j) = lcSegment64 ∧ k ≤ segmentCount blob j := by
  induction n with
  | zero => simp [segmentCount] at h
  | succ n ih =>
    rw [segmentCount, Nat.count_succ, ← segmentCount] at h
    by_cases hsegment : cmdAt blob (commandOffset blob n) = lcSegment64
    · rw [if_pos hsegment] at h
      exact ⟨n, by omega, hsegment, by omega⟩
    · rw [if_neg hsegment] at h
      obtain ⟨j, hj, hcmd, hle⟩ := ih (by omega)
      exact ⟨j, by omega, hcmd, hle⟩

/-- Every write is to one of the three entries, or is made at a fourth segment command. -/
theorem wrote_lt_or_meets {index : ℕ} (hwrote : Wrote (aneFwValidateBlob fuel blob sha sha true).log index) :
    index < aneFwNsegs ∨ MeetsFourSegments blob := by
  by_cases hsize : blob.size = aneFwBlobSize
  · rcases aneFwValidateBlob_cases hsize with ⟨hheader, heq⟩ | ⟨-, text, heq⟩
    · have hloop : Wrote (commandWalk fuel blob true).log index → index < aneFwNsegs ∨ MeetsFourSegments blob := by
        intro h
        obtain ⟨j, hj, hreached⟩ := segmentReached_of_wrote hsize aneFwNcmds (by omega) (commandOffset_zero_le blob) h
        by_cases hindex : index < aneFwNsegs
        · exact .inl hindex
        · right
          refine ⟨hheader, j + 1, by omega, fun i hi => hreached.passes i (Nat.zero_le i) (by omega), ?_⟩
          rw [segmentCount, Nat.count_succ, if_pos hreached.segment, ← segmentCount, ← hreached.index_eq]
          omega
      have hquiet : ¬Wrote headerReads index := by simp [headerReads]
      rw [heq, wrote_append] at hwrote
      have hwrote := hwrote.resolve_left hquiet
      cases hout : (commandWalk fuel blob true).outcome with
      | error stop =>
        rw [Logged.log_bind_of_error hout] at hwrote
        exact hloop hwrote
      | ok last =>
        rw [Logged.log_bind_of_ok hout, wrote_append] at hwrote
        rcases hwrote with h | ⟨seg, h⟩
        · exact hloop h
        · exact .inl ((finish_safe blob true last).1 _ h)
    · rw [heq] at hwrote
      simp [headerReads] at hwrote
  · rw [aneFwValidateBlob, if_pos hsize] at hwrote
    simp [reject] at hwrote

/-- At a fourth segment command the validator writes past the three entries. -/
theorem exists_wrote_of_meets (hmeets : MeetsFourSegments blob) (hfuel : commandLimit < 8 * fuel) :
    ∃ index, aneFwNsegs ≤ index ∧ Wrote (aneFwValidateBlob fuel blob sha sha true).log index := by
  obtain ⟨hheader, n, hn, hall, hcount⟩ := hmeets
  obtain ⟨j, hj, hsegment, hle⟩ := exists_segment_of_lt_segmentCount n hcount
  have hwrote : Wrote (commandWalk fuel blob true).log (segmentCount blob j) :=
    wrote_of_segmentReached hheader.size hfuel aneFwNcmds (by omega) (commandOffset_zero_le blob) (by omega)
      ⟨Nat.zero_le j, fun l _ hl => hall l (by omega), hsegment, rfl⟩
  refine ⟨segmentCount blob j, hle, ?_⟩
  rcases aneFwValidateBlob_cases hheader.size with ⟨-, heq⟩ | ⟨hfails, -⟩
  · rw [heq, wrote_append]
    right
    cases hout : (commandWalk fuel blob true).outcome with
    | error stop => rwa [Logged.log_bind_of_error hout]
    | ok last => exact Logged.log_bind_of_ok hout ▸ wrote_append.mpr (.inl hwrote)
  · exact absurd hheader hfails

/-- The validator stays inside its buffers exactly when its walk meets no fourth segment command. -/
theorem staysInside_iff (blob sha : Bytes) : StaysInside blob sha ↔ ¬MeetsFourSegments blob := by
  constructor
  · intro h hmeets
    obtain ⟨index, hle, seg, hwrite⟩ := @exists_wrote_of_meets blob sha 400 hmeets (by decide)
    have := h.writes 400 index seg hwrite
    omega
  · intro hmeets
    refine ⟨fun fuel offset width hread => aneFwValidateBlob_reads.1 _ hread, fun fuel index seg hwrite => ?_,
      400, fun fuel hfuel => aneFwValidateBlob_halts ?_⟩
    · exact (wrote_lt_or_meets ⟨seg, hwrite⟩).resolve_right hmeets
    · have hlimit : commandLimit < 8 * 400 := by decide
      omega

/-- A payload with four `__TEXT` segment commands. -/
def fourSegmentPayload : Bytes := payload (segmentFields 32 72 textSeg ++ segmentFields 104 72 textSeg ++
  segmentFields 176 72 textSeg ++ segmentFields 248 72 textSeg)

/-- The fourth segment command is stored past the end of `segs_out`. -/
theorem fourSegmentPayload_writes_past_end : ¬StaysInside fourSegmentPayload (Bytes.zeros 32) := by
  intro h
  have hwrite : .write 3 textSeg ∈
      (aneFwValidateBlob 400 fourSegmentPayload (Bytes.zeros 32) (Bytes.zeros 32) true).log := by
    decide +kernel
  have := h.writes 400 3 textSeg hwrite
  rw [aneFwNsegs] at this
  omega

end Accesses

end AneLinux.Firmware
