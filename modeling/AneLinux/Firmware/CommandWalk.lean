import AneLinux.Firmware.Validate
import Mathlib.Data.Nat.Count
import Mathlib.Tactic.Linarith

/-!
# What the command walk computes

The positions of the load commands, the thread states inside one command and the checks one
command passes are stated on the payload alone. One lemma per loop of the validator relates it
to these: its outcome, the accesses it logs, and that it halts. The offset never leaves the
command area, although a single 32-bit addition may wrap, and a wrapped command has no thread
state to read.
-/

namespace AneLinux.Firmware

open AneLinux.Support

/-- Where the command area ends. -/
def commandLimit : ℕ := 32 + aneFwSizeofCmds

def cmdAt (blob : Bytes) (off : ℕ) : ℕ := blob.u32 off

def cmdsizeAt (blob : Bytes) (off : ℕ) : ℕ := blob.u32 (off + 4)

/-- Where the walk goes after the command at an offset. -/
def commandEnd (blob : Bytes) (off : ℕ) : ℕ := u32 (off + cmdsizeAt blob off)

/-- Where the walk finds a load command. -/
def commandOffset (blob : Bytes) : ℕ → ℕ
  | 0 => 32
  | i + 1 => commandEnd blob (commandOffset blob i)

/-- The positions of the thread states between two offsets. -/
def threadStates (blob : Bytes) (stop p : ℕ) : List ℕ :=
  if p + 8 ≤ stop then p :: threadStates blob stop (p + 8 + blob.u32 (p + 4) * 4) else []
termination_by stop - p

/-- A thread state ends inside its command and, when it has a program counter, contains it. -/
def ThreadStateFits (blob : Bytes) (stop p : ℕ) : Prop :=
  p + 8 + blob.u32 (p + 4) * 4 ≤ stop ∧ (blob.u32 p = armThreadState64 → 66 ≤ blob.u32 (p + 4))

/-- The program counters of a list of thread states. -/
def threadPcs (blob : Bytes) (states : List ℕ) : List ℕ :=
  (states.filter fun p => blob.u32 p = armThreadState64).map fun p => blob.u64 (p + 8 + 32 * 8)

/-- The thread states of the command at an offset. -/
def commandStates (blob : Bytes) (off : ℕ) : List ℕ :=
  if cmdAt blob off = lcUnixthread then threadStates blob (commandEnd blob off) (off + 8) else []

/-- The segment command at an offset is a given pinned segment. -/
structure Matches (blob : Bytes) (off : ℕ) (seg : AneFwSeg) : Prop where
  vmaddr : blob.u64 (off + 24) = seg.vmaddr
  vmsize : blob.u64 (off + 32) = seg.vmsize
  fileoff : blob.u64 (off + 40) = seg.fileoff
  filesize : blob.u64 (off + 48) = seg.filesize
  name : blob.slice (off + 8) (off + 24) = seg.name.slice 0 16

/-- The command at an offset passes the checks the validator makes on a command. -/
structure CommandPasses (blob : Bytes) (off : ℕ) : Prop where
  header : off + 8 ≤ commandLimit
  size : 8 ≤ cmdsizeAt blob off
  bound : commandEnd blob off ≤ commandLimit
  segment : cmdAt blob off = lcSegment64 → ∃ seg ∈ aneFwExpectedSegs, Matches blob off seg
  thread : ∀ p ∈ commandStates blob off, ThreadStateFits blob (commandEnd blob off) p

/-- Reads inside the payload and writes to some entries of `segs_out`. -/
def Allowed (blob : Bytes) (entries : ℕ → Prop) : Access → Prop
  | .read offset width => offset + width ≤ blob.size
  | .write index _ => entries index

variable {blob : Bytes} {offset off p index i : ℕ} {α : Type} {f : ℕ → Check α} {seg : AneFwSeg} {walk : Walk}

section Reads

variable {entries : ℕ → Prop} {post : α → Prop}

/-- A 32-bit read inside the payload, and what follows it. -/
theorem safe_getUnalignedLe32 (h : offset + 4 ≤ blob.size)
    (hf : Logged.Safe (Allowed blob entries) post (f (blob.u32 offset))) :
    Logged.Safe (Allowed blob entries) post (getUnalignedLe32 blob offset >>= f) :=
  Logged.Safe.emit_bind h hf

/-- A 64-bit read inside the payload, and what follows it. -/
theorem safe_getUnalignedLe64 (h : offset + 8 ≤ blob.size)
    (hf : Logged.Safe (Allowed blob entries) post (f (blob.u64 offset))) :
    Logged.Safe (Allowed blob entries) post (getUnalignedLe64 blob offset >>= f) :=
  Logged.Safe.emit_bind h hf

end Reads

/-- The first thread state contributes its program counter when it has one. -/
theorem threadPcs_cons (blob : Bytes) (p : ℕ) (rest : List ℕ) : threadPcs blob (p :: rest) =
    if blob.u32 p = armThreadState64 then blob.u64 (p + 8 + 32 * 8) :: threadPcs blob rest
    else threadPcs blob rest := by
  by_cases h : blob.u32 p = armThreadState64
  · simp [threadPcs, h]
  · simp [threadPcs, h]

section Thread

variable {cmdsize stop : ℕ}

/-- What holds of the bounds of a thread command: a position past the header lies in an unwrapped command. -/
structure ThreadBounds (off cmdsize stop : ℕ) : Prop where
  stop_eq : u32 (off + cmdsize) = stop
  stop_le : stop ≤ commandLimit
  exact : off + 8 ≤ stop → off + cmdsize = stop

/-- The bounds hold for every command that passes the size check. -/
theorem threadBounds_of_le (hoff : off ≤ commandLimit) (hsize : cmdsize < 2 ^ 32)
    (hend : u32 (off + cmdsize) ≤ commandLimit) : ThreadBounds off cmdsize (u32 (off + cmdsize)) := by
  refine ⟨rfl, hend, fun h => ?_⟩
  simp only [u32, commandLimit, aneFwSizeofCmds] at h hoff hend ⊢
  omega

/-- One round of the loop in unbounded arithmetic. -/
theorem threadLoop_succ (h : ThreadBounds off cmdsize stop) (hp : off + 8 ≤ p) (hlimit : p ≤ commandLimit)
    (fuel entry : ℕ) :
    threadLoop blob off cmdsize (fuel + 1) p entry =
      if p + 8 ≤ stop then do
        let flavor ← getUnalignedLe32 blob p
        let count ← getUnalignedLe32 blob (p + 4)
        if stop < p + 8 + count * 4 then reject "thread state count out of bounds"
        else if flavor = armThreadState64 then
          if count < 66 then reject "thread state too small for pc"
          else do
            let pc ← getUnalignedLe64 blob (p + 8 + 32 * 8)
            threadLoop blob off cmdsize fuel (p + 8 + count * 4) pc
        else threadLoop blob off cmdsize fuel (p + 8 + count * 4) entry
      else pure entry := by
  have hstop := h.stop_le
  simp only [commandLimit, aneFwSizeofCmds] at hlimit hstop
  have hp8 : u32 (p + 8) = p + 8 := Nat.mod_eq_of_lt (by omega)
  rw [threadLoop, h.stop_eq, hp8]
  by_cases hround : p + 8 ≤ stop
  · rw [if_pos hround, if_pos hround]
    have hexact := h.exact (by omega)
    have hroom : u32 (cmdsize + 2 ^ 32 - u32 (p + 2 ^ 32 - off) + 2 ^ 32 - 8) = stop - p - 8 := by
      simp only [u32]
      omega
    rw [hroom]
    simp only [getUnalignedLe32, Logged.emit_bind]
    by_cases hcount : stop < p + 8 + blob.u32 (p + 4) * 4
    · rw [if_pos hcount, if_pos (by omega)]
    · have hnext : u32 (p + (8 + blob.u32 (p + 4) * 4)) = p + 8 + blob.u32 (p + 4) * 4 := by
        simp only [u32]
        omega
      have hstate : u32 (p + 8 + blob.u32 (p + 4) * 4) = p + 8 + blob.u32 (p + 4) * 4 := by
        simp only [u32]
        omega
      rw [if_neg hcount, if_neg (by omega), hnext, hstate]
      simp only [hcount, or_false]
  · rw [if_neg hround, if_neg hround]

/-- The next position of the loop keeps its bounds. -/
theorem threadLoop_next (h : ThreadBounds off cmdsize stop) {count : ℕ} (hp : off + 8 ≤ p)
    (hcount : ¬stop < p + 8 + count * 4) : off + 8 ≤ p + 8 + count * 4 ∧ p + 8 + count * 4 ≤ commandLimit := by
  have := h.stop_le
  omega

/-- Every read of the loop is inside the command area. -/
theorem threadLoop_safe (h : ThreadBounds off cmdsize stop) (hblob : blob.size = aneFwBlobSize) (entries : ℕ → Prop)
    (fuel : ℕ) {entry : ℕ} (hp : off + 8 ≤ p) (hlimit : p ≤ commandLimit) :
    Logged.Safe (Allowed blob entries) (fun _ => True) (threadLoop blob off cmdsize fuel p entry) := by
  have hstop := h.stop_le
  simp only [commandLimit, aneFwSizeofCmds] at hstop
  rw [aneFwBlobSize] at hblob
  induction fuel generalizing p entry with
  | zero => exact Logged.Safe.fail
  | succ fuel ih =>
    rw [threadLoop_succ h hp hlimit]
    by_cases hround : p + 8 ≤ stop
    · rw [if_pos hround]
      apply safe_getUnalignedLe32 (by omega)
      apply safe_getUnalignedLe32 (by omega)
      apply Logged.Safe.guard
      intro hcount
      obtain ⟨hp', hlimit'⟩ := threadLoop_next h hp hcount
      by_cases hflavor : blob.u32 p = armThreadState64
      · rw [if_pos hflavor]
        apply Logged.Safe.guard
        intro hsmall
        apply safe_getUnalignedLe64 (by omega)
        exact ih hp' hlimit'
      · rw [if_neg hflavor]
        exact ih hp' hlimit'
    · rw [if_neg hround]
      exact Logged.Safe.pure trivial

/-- The loop accepts exactly the thread states that fit, and keeps the last program counter. -/
theorem threadLoop_outcome (h : ThreadBounds off cmdsize stop) (fuel : ℕ) {entry value : ℕ} (hp : off + 8 ≤ p)
    (hlimit : p ≤ commandLimit) (hok : (threadLoop blob off cmdsize fuel p entry).outcome = .ok value) :
    (∀ q ∈ threadStates blob stop p, ThreadStateFits blob stop q) ∧
      value = (threadPcs blob (threadStates blob stop p)).getLastD entry := by
  induction fuel generalizing p entry with
  | zero => simp [threadLoop] at hok
  | succ fuel ih =>
    rw [threadLoop_succ h hp hlimit] at hok
    rw [threadStates]
    by_cases hround : p + 8 ≤ stop
    · rw [if_pos hround] at hok ⊢
      simp only [getUnalignedLe32, getUnalignedLe64, Logged.emit_bind, reject,
        Logged.outcome_guard_eq_ok] at hok
      obtain ⟨hcount, hok⟩ := hok
      obtain ⟨hp', hlimit'⟩ := threadLoop_next h hp hcount
      by_cases hflavor : blob.u32 p = armThreadState64
      · rw [if_pos hflavor, Logged.outcome_guard_eq_ok] at hok
        obtain ⟨hfits, hvalue⟩ := ih hp' hlimit' hok.2
        refine ⟨List.forall_mem_cons.mpr ⟨⟨by omega, fun _ => by omega⟩, hfits⟩, ?_⟩
        rw [threadPcs_cons, if_pos hflavor, List.getLastD_cons]
        exact hvalue
      · rw [if_neg hflavor] at hok
        obtain ⟨hfits, hvalue⟩ := ih hp' hlimit' hok
        refine ⟨List.forall_mem_cons.mpr ⟨⟨by omega, fun hf => absurd hf hflavor⟩, hfits⟩, ?_⟩
        rw [threadPcs_cons, if_neg hflavor]
        exact hvalue
    · rw [if_neg hround] at hok ⊢
      simp only [Logged.outcome_pure, Except.ok.injEq] at hok
      exact ⟨by simp, by simp [threadPcs, hok]⟩

/-- With fuel for every eight bytes the loop halts, and it rejects only a state that does not fit. -/
theorem threadLoop_decides (h : ThreadBounds off cmdsize stop) (fuel : ℕ) {entry : ℕ} (hp : off + 8 ≤ p)
    (hlimit : p ≤ commandLimit) (hfuel : commandLimit < p + 8 * fuel) :
    (∃ value, (threadLoop blob off cmdsize fuel p entry).outcome = .ok value) ∨
      (∃ text, (threadLoop blob off cmdsize fuel p entry).outcome = .error (.reason text)) ∧
        ∃ q ∈ threadStates blob stop p, ¬ThreadStateFits blob stop q := by
  induction fuel generalizing p entry with
  | zero => omega
  | succ fuel ih =>
    rw [threadLoop_succ h hp hlimit, threadStates]
    by_cases hround : p + 8 ≤ stop
    · rw [if_pos hround, if_pos hround]
      simp only [getUnalignedLe32, getUnalignedLe64, Logged.emit_bind, reject]
      by_cases hcount : stop < p + 8 + blob.u32 (p + 4) * 4
      · rw [if_pos hcount]
        exact .inr ⟨⟨_, rfl⟩, p, List.mem_cons_self, fun hfits => by have := hfits.1; omega⟩
      obtain ⟨hp', hlimit'⟩ := threadLoop_next h hp hcount
      rw [if_neg hcount]
      by_cases hflavor : blob.u32 p = armThreadState64
      · rw [if_pos hflavor]
        by_cases hsmall : blob.u32 (p + 4) < 66
        · rw [if_pos hsmall]
          exact .inr ⟨⟨_, rfl⟩, p, List.mem_cons_self, fun hfits => by have := hfits.2 hflavor; omega⟩
        rw [if_neg hsmall]
        exact (ih hp' hlimit' (by omega)).imp id fun ⟨hreject, q, hq, hmisfit⟩ =>
          ⟨hreject, q, List.mem_cons_of_mem p hq, hmisfit⟩
      · rw [if_neg hflavor]
        exact (ih hp' hlimit' (by omega)).imp id fun ⟨hreject, q, hq, hmisfit⟩ =>
          ⟨hreject, q, List.mem_cons_of_mem p hq, hmisfit⟩
    · rw [if_neg hround]
      exact .inl ⟨entry, rfl⟩

end Thread

/-- A log contains a write to an entry of `segs_out`. -/
def Wrote (log : List Access) (index : ℕ) : Prop := ∃ seg, Access.write index seg ∈ log

section Wrote

variable {log : List Access}

@[simp] theorem not_wrote_nil : ¬Wrote [] index := by simp [Wrote]

theorem wrote_append {first second : List Access} :
    Wrote (first ++ second) index ↔ Wrote first index ∨ Wrote second index := by
  simp [Wrote, exists_or]

@[simp] theorem wrote_read_cons {width : ℕ} : Wrote (.read offset width :: log) index ↔ Wrote log index := by
  simp [Wrote]

@[simp] theorem wrote_write_singleton {entry : ℕ} : Wrote [.write entry seg] index ↔ index = entry := by
  simp [Wrote]

/-- Only allowed entries are written. -/
theorem not_wrote_of_safe {entries : ℕ → Prop} {post : α → Prop} {x : Check α}
    (h : Logged.Safe (Allowed blob entries) post x) (hentries : ¬entries index) : ¬Wrote x.log index :=
  fun ⟨_, hwrite⟩ => hentries (h.1 _ hwrite)

end Wrote

section Segment

variable {nsegs : ℕ}

/-- The words and the name a segment command is compared by. -/
theorem matches_iff : Matches blob off seg ↔
    (blob.u64 (off + 24) = seg.vmaddr ∧ blob.u64 (off + 32) = seg.vmsize ∧
      blob.u64 (off + 40) = seg.fileoff ∧ blob.u64 (off + 48) = seg.filesize) ∧
      blob.slice (off + 8) (off + 24) = seg.name.slice 0 16 :=
  ⟨fun h => ⟨⟨h.vmaddr, h.vmsize, h.fileoff, h.filesize⟩, h.name⟩,
    fun ⟨⟨h₁, h₂, h₃, h₄⟩, h₅⟩ => ⟨h₁, h₂, h₃, h₄, h₅⟩⟩

/-- The table search compares one command with the segments of a table. -/
def searchTable (blob : Bytes) (segsOut : Bool) (off nsegs : ℕ) : List AneFwSeg → Check Unit :=
  matchSegment blob segsOut off nsegs (blob.u64 (off + 24)) (blob.u64 (off + 32))
    (blob.u64 (off + 40)) (blob.u64 (off + 48))

/-- The search ends at the first segment the command matches. -/
theorem searchTable_cons (segsOut : Bool) (seg : AneFwSeg) (rest : List AneFwSeg) :
    (Matches blob off seg ∧ (searchTable blob segsOut off nsegs (seg :: rest)).outcome = .ok () ∧
      (searchTable blob segsOut off nsegs (seg :: rest)).log =
        .read (off + 8) 16 :: if segsOut then [.write nsegs seg] else []) ∨
    (¬Matches blob off seg ∧
      (searchTable blob segsOut off nsegs (seg :: rest)).outcome =
        (searchTable blob segsOut off nsegs rest).outcome ∧
      ∃ reads, (reads = [] ∨ reads = [.read (off + 8) 16]) ∧
        (searchTable blob segsOut off nsegs (seg :: rest)).log =
          reads ++ (searchTable blob segsOut off nsegs rest).log) := by
  rw [matches_iff]
  unfold searchTable
  rw [matchSegment]
  by_cases hwords : blob.u64 (off + 24) = seg.vmaddr ∧ blob.u64 (off + 32) = seg.vmsize ∧
      blob.u64 (off + 40) = seg.fileoff ∧ blob.u64 (off + 48) = seg.filesize
  · rw [if_pos hwords, Logged.emit_bind]
    by_cases hname : blob.slice (off + 8) (off + 24) = seg.name.slice 0 16
    · rw [if_pos hname]
      left
      cases segsOut with
      | true => exact ⟨⟨hwords, hname⟩, rfl, rfl⟩
      | false => exact ⟨⟨hwords, hname⟩, rfl, rfl⟩
    · rw [if_neg hname]
      exact .inr ⟨fun h => hname h.2, rfl, _, .inr rfl, rfl⟩
  · rw [if_neg hwords]
    exact .inr ⟨fun h => hwords h.1, rfl, _, .inl rfl, rfl⟩

/-- The search accepts a command that matches a segment of the table and rejects every other one. -/
theorem searchTable_outcome (segsOut : Bool) (segs : List AneFwSeg) :
    ((searchTable blob segsOut off nsegs segs).outcome = .ok () ∧ ∃ seg ∈ segs, Matches blob off seg) ∨
    ((∃ text, (searchTable blob segsOut off nsegs segs).outcome = .error (.reason text)) ∧
      ∀ seg ∈ segs, ¬Matches blob off seg) := by
  induction segs with
  | nil => exact .inr ⟨⟨_, rfl⟩, by simp⟩
  | cons seg rest ih =>
    rcases searchTable_cons segsOut seg rest with ⟨hmatch, hok, -⟩ | ⟨hno, houtcome, -⟩
    · exact .inl ⟨hok, seg, List.mem_cons_self, hmatch⟩
    · rw [houtcome]
      rcases ih with ⟨hok, other, hother, hmatch⟩ | ⟨herror, hnone⟩
      · exact .inl ⟨hok, other, List.mem_cons_of_mem _ hother, hmatch⟩
      · exact .inr ⟨herror, List.forall_mem_cons.mpr ⟨hno, hnone⟩⟩

/-- The search writes the current entry exactly when it finds a segment. -/
theorem searchTable_wrote (segs : List AneFwSeg) (index : ℕ) :
    Wrote (searchTable blob true off nsegs segs).log index ↔
      (∃ seg ∈ segs, Matches blob off seg) ∧ index = nsegs := by
  induction segs with
  | nil => simp [searchTable, matchSegment, reject]
  | cons seg rest ih =>
    rcases @searchTable_cons blob off nsegs true seg rest with ⟨hmatch, -, hlog⟩ | ⟨hno, -, reads, hreads, hlog⟩
    · simp [hlog, hmatch]
    · have hquiet : ¬Wrote reads index := by
        rcases hreads with rfl | rfl
        · simp
        · simp
      rw [hlog, wrote_append, ih]
      simp [hquiet, hno]

/-- The search reads the name of the command and writes the current entry only. -/
theorem searchTable_safe (segsOut : Bool) (segs : List AneFwSeg) (hname : off + 24 ≤ blob.size) :
    Logged.Safe (Allowed blob fun index => index = nsegs) (fun _ => True)
      (searchTable blob segsOut off nsegs segs) := by
  refine ⟨?_, fun _ _ => trivial⟩
  have hread : Allowed blob (fun index => index = nsegs) (.read (off + 8) 16) := by
    show off + 8 + 16 ≤ blob.size
    omega
  induction segs with
  | nil => simp [searchTable, matchSegment, reject]
  | cons seg rest ih =>
    rcases searchTable_cons segsOut seg rest with ⟨-, -, hlog⟩ | ⟨-, -, reads, hreads, hlog⟩
    · rw [hlog]
      rw [List.forall_mem_cons]
      refine ⟨hread, ?_⟩
      cases segsOut with
      | true => simp [Allowed]
      | false => simp
    · rw [hlog]
      intro access haccess
      rcases List.mem_append.mp haccess with h | h
      · rcases hreads with rfl | rfl
        · simp at h
        · rw [List.mem_singleton.mp h]
          exact hread
      · exact ih access h

/-- The pinned segments lie in the payload and are no longer in the file than in memory. -/
theorem aneFwExpectedSegs_inside : ∀ seg ∈ aneFwExpectedSegs, ¬(aneFwBlobSize < seg.fileoff ∨
    aneFwBlobSize - seg.fileoff < seg.filesize) ∧ ¬seg.vmsize < seg.filesize := by
  simp [aneFwExpectedSegs, aneFwBlobSize]

/-- The segment body is four reads, two guards and the table search. -/
theorem segmentCommand_eq (segsOut : Bool) : segmentCommand blob segsOut off nsegs =
    (do
      let _ ← getUnalignedLe64 blob (off + 24)
      let _ ← getUnalignedLe64 blob (off + 32)
      let _ ← getUnalignedLe64 blob (off + 40)
      let _ ← getUnalignedLe64 blob (off + 48)
      if blob.size < blob.u64 (off + 40) ∨ blob.size - blob.u64 (off + 40) < blob.u64 (off + 48) then
        reject "segment file range out of bounds"
      else if blob.u64 (off + 32) < blob.u64 (off + 48) then reject "filesize > vmsize"
      else searchTable blob segsOut off nsegs aneFwExpectedSegs) := by
  simp only [segmentCommand, searchTable, getUnalignedLe64, Logged.emit_bind]

/-- The bounds that the body of a segment checks hold of every pinned segment. -/
theorem Matches.inside (h : Matches blob off seg) (hseg : seg ∈ aneFwExpectedSegs) (hblob : blob.size = aneFwBlobSize) :
    ¬(blob.size < blob.u64 (off + 40) ∨ blob.size - blob.u64 (off + 40) < blob.u64 (off + 48)) ∧
      ¬blob.u64 (off + 32) < blob.u64 (off + 48) := by
  rw [hblob, h.fileoff, h.filesize, h.vmsize]
  exact aneFwExpectedSegs_inside seg hseg

/-- The segment body accepts a pinned segment and rejects every other one. -/
theorem segmentCommand_outcome (segsOut : Bool) (hblob : blob.size = aneFwBlobSize) :
    ((segmentCommand blob segsOut off nsegs).outcome = .ok () ∧
      ∃ seg ∈ aneFwExpectedSegs, Matches blob off seg) ∨
    ((∃ text, (segmentCommand blob segsOut off nsegs).outcome = .error (.reason text)) ∧
      ∀ seg ∈ aneFwExpectedSegs, ¬Matches blob off seg) := by
  simp only [segmentCommand_eq, getUnalignedLe64, Logged.emit_bind]
  by_cases hrange : blob.size < blob.u64 (off + 40) ∨ blob.size - blob.u64 (off + 40) < blob.u64 (off + 48)
  · rw [if_pos hrange]
    exact .inr ⟨⟨_, rfl⟩, fun seg hseg hmatch => (hmatch.inside hseg hblob).1 hrange⟩
  rw [if_neg hrange]
  by_cases hmemory : blob.u64 (off + 32) < blob.u64 (off + 48)
  · rw [if_pos hmemory]
    exact .inr ⟨⟨_, rfl⟩, fun seg hseg hmatch => (hmatch.inside hseg hblob).2 hmemory⟩
  rw [if_neg hmemory]
  exact searchTable_outcome segsOut aneFwExpectedSegs

/-- The segment body writes the current entry exactly for a pinned segment. -/
theorem segmentCommand_wrote (hblob : blob.size = aneFwBlobSize) (index : ℕ) :
    Wrote (segmentCommand blob true off nsegs).log index ↔
      (∃ seg ∈ aneFwExpectedSegs, Matches blob off seg) ∧ index = nsegs := by
  simp only [segmentCommand_eq, getUnalignedLe64, Logged.emit_bind, wrote_read_cons]
  by_cases hrange : blob.size < blob.u64 (off + 40) ∨ blob.size - blob.u64 (off + 40) < blob.u64 (off + 48)
  · rw [if_pos hrange]
    refine ⟨fun h => absurd h not_wrote_nil, fun ⟨⟨seg, hseg, hmatch⟩, _⟩ => ?_⟩
    exact absurd hrange (hmatch.inside hseg hblob).1
  rw [if_neg hrange]
  by_cases hmemory : blob.u64 (off + 32) < blob.u64 (off + 48)
  · rw [if_pos hmemory]
    refine ⟨fun h => absurd h not_wrote_nil, fun ⟨⟨seg, hseg, hmatch⟩, _⟩ => ?_⟩
    exact absurd hmemory (hmatch.inside hseg hblob).2
  rw [if_neg hmemory]
  exact searchTable_wrote aneFwExpectedSegs index

/-- The segment body reads inside the payload and writes the current entry only. -/
theorem segmentCommand_safe (segsOut : Bool) (hend : off + 56 ≤ blob.size) :
    Logged.Safe (Allowed blob fun index => index = nsegs) (fun _ => True)
      (segmentCommand blob segsOut off nsegs) := by
  rw [segmentCommand_eq]
  apply safe_getUnalignedLe64 (by omega)
  apply safe_getUnalignedLe64 (by omega)
  apply safe_getUnalignedLe64 (by omega)
  apply safe_getUnalignedLe64 (by omega)
  apply Logged.Safe.guard
  intro _
  apply Logged.Safe.guard
  intro _
  exact searchTable_safe segsOut aneFwExpectedSegs (by omega)

end Segment

section Command

variable {next : Walk} {fuel : ℕ} {segsOut : Bool}

/-- The variables of the loop after a command. -/
def advance (blob : Bytes) (walk : Walk) : Walk where
  off := commandEnd blob walk.off
  nsegs := if cmdAt blob walk.off = lcSegment64 then u32 (walk.nsegs + 1) else walk.nsegs
  entry := (threadPcs blob (commandStates blob walk.off)).getLastD walk.entry

/-- A round of the command loop for an offset inside the command area. -/
theorem loadCommand_eq (hblob : blob.size = aneFwBlobSize) (hoff : walk.off ≤ commandLimit) :
    loadCommand fuel blob segsOut aneFwSizeofCmds walk =
      (if commandLimit < walk.off + 8 then reject "load command header out of bounds"
      else do
        let _ ← getUnalignedLe32 blob walk.off
        let _ ← getUnalignedLe32 blob (walk.off + 4)
        if cmdsizeAt blob walk.off < 8 ∨ commandLimit < commandEnd blob walk.off then
          reject "cmdsize out of bounds"
        else if cmdAt blob walk.off = lcSegment64 then do
          segmentCommand blob segsOut walk.off walk.nsegs
          pure { off := commandEnd blob walk.off, nsegs := u32 (walk.nsegs + 1), entry := walk.entry }
        else if cmdAt blob walk.off = lcUnixthread then do
          let entry ← threadLoop blob walk.off (cmdsizeAt blob walk.off) fuel (walk.off + 8) walk.entry
          pure { off := commandEnd blob walk.off, nsegs := walk.nsegs, entry }
        else pure { walk with off := commandEnd blob walk.off }) := by
  have hlimit : u32 (32 + aneFwSizeofCmds) = commandLimit := by decide
  have hinside : commandLimit < blob.size := by
    rw [hblob]
    decide
  have hstart : u32 (walk.off + 8) = walk.off + 8 := by
    simp only [u32, commandLimit, aneFwSizeofCmds] at hoff ⊢
    omega
  have hguard : ∀ offset, (commandLimit < offset ∨ blob.size < offset) ↔ commandLimit < offset := by
    intro offset
    omega
  rw [loadCommand, hlimit, hstart]
  simp only [hguard]
  rfl

/-- The thread bounds of a command inside the command area. -/
theorem threadBounds_command (hoff : walk.off ≤ commandLimit) (hend : commandEnd blob walk.off ≤ commandLimit) :
    ThreadBounds walk.off (cmdsizeAt blob walk.off) (commandEnd blob walk.off) :=
  threadBounds_of_le hoff (blob.u32_lt _) hend

/-- The two command kinds with a body are different. -/
theorem lcUnixthread_ne_lcSegment64 : lcUnixthread ≠ lcSegment64 := by decide

theorem commandStates_of_ne (h : cmdAt blob off ≠ lcUnixthread) : commandStates blob off = [] :=
  if_neg h

theorem commandStates_of_eq (h : cmdAt blob off = lcUnixthread) :
    commandStates blob off = threadStates blob (commandEnd blob off) (off + 8) :=
  if_pos h

/-- A round that goes on has passed the checks of its command. -/
theorem loadCommand_ok (hblob : blob.size = aneFwBlobSize) (hoff : walk.off ≤ commandLimit)
    (hok : (loadCommand fuel blob segsOut aneFwSizeofCmds walk).outcome = .ok next) :
    CommandPasses blob walk.off ∧ next = advance blob walk := by
  rw [loadCommand_eq hblob hoff] at hok
  simp only [getUnalignedLe32, Logged.emit_bind, reject, Logged.outcome_guard_eq_ok, not_or, not_lt] at hok
  obtain ⟨hheader, ⟨hsize, hend⟩, hok⟩ := hok
  by_cases hsegment : cmdAt blob walk.off = lcSegment64
  · have hstates : commandStates blob walk.off = [] :=
      commandStates_of_ne fun h => lcUnixthread_ne_lcSegment64 (h.symm.trans hsegment)
    rw [if_pos hsegment, Logged.outcome_bind_eq_ok] at hok
    obtain ⟨_, hbody, hok⟩ := hok
    cases hok
    rcases segmentCommand_outcome segsOut hblob with ⟨-, hmatch⟩ | ⟨⟨text, herror⟩, -⟩
    · exact ⟨⟨hheader, hsize, hend, fun _ => hmatch, by simp [hstates]⟩,
        by simp [advance, hsegment, hstates, threadPcs]⟩
    · rw [herror] at hbody
      exact absurd hbody (by simp)
  rw [if_neg hsegment] at hok
  by_cases hthread : cmdAt blob walk.off = lcUnixthread
  · rw [if_pos hthread, Logged.outcome_bind_eq_ok] at hok
    obtain ⟨entry, hloop, hok⟩ := hok
    cases hok
    have hbounds := threadBounds_command hoff hend
    obtain ⟨hfits, hvalue⟩ := threadLoop_outcome hbounds fuel (Nat.le_refl _) hheader hloop
    rw [← commandStates_of_eq hthread] at hfits hvalue
    exact ⟨⟨hheader, hsize, hend, fun h => absurd h hsegment, hfits⟩,
      by simp only [advance, if_neg hsegment, hvalue]⟩
  · rw [if_neg hthread] at hok
    cases hok
    have hstates := commandStates_of_ne hthread
    exact ⟨⟨hheader, hsize, hend, fun h => absurd h hsegment, by simp [hstates]⟩,
      by simp [advance, hsegment, hstates, threadPcs]⟩

/-- With enough fuel a round halts, and it stops early only at a command that fails a check. -/
theorem loadCommand_decides (hblob : blob.size = aneFwBlobSize) (hoff : walk.off ≤ commandLimit)
    (hfuel : commandLimit < 8 * fuel) :
    (∃ next, (loadCommand fuel blob segsOut aneFwSizeofCmds walk).outcome = .ok next) ∨
      (∃ text, (loadCommand fuel blob segsOut aneFwSizeofCmds walk).outcome = .error (.reason text)) ∧
        ¬CommandPasses blob walk.off := by
  rw [loadCommand_eq hblob hoff]
  by_cases hheader : commandLimit < walk.off + 8
  · rw [if_pos hheader]
    exact .inr ⟨⟨_, rfl⟩, fun h => by have := h.header; omega⟩
  rw [if_neg hheader]
  simp only [getUnalignedLe32, Logged.emit_bind]
  by_cases hsize : cmdsizeAt blob walk.off < 8 ∨ commandLimit < commandEnd blob walk.off
  · rw [if_pos hsize]
    exact .inr ⟨⟨_, rfl⟩, fun h => by have := h.size; have := h.bound; omega⟩
  rw [if_neg hsize]
  by_cases hsegment : cmdAt blob walk.off = lcSegment64
  · rw [if_pos hsegment]
    rcases segmentCommand_outcome segsOut hblob with ⟨hok, -⟩ | ⟨⟨text, herror⟩, hnone⟩
    · left
      rw [Logged.outcome_bind_of_ok hok]
      exact ⟨_, rfl⟩
    · right
      rw [Logged.outcome_bind_of_error herror]
      refine ⟨⟨text, rfl⟩, fun h => ?_⟩
      obtain ⟨seg, hseg, hmatch⟩ := h.segment hsegment
      exact hnone seg hseg hmatch
  rw [if_neg hsegment]
  by_cases hthread : cmdAt blob walk.off = lcUnixthread
  · rw [if_pos hthread]
    have hbounds := @threadBounds_command blob walk hoff (by omega)
    rcases threadLoop_decides hbounds fuel (Nat.le_refl _) (by omega) (by omega)
      with ⟨entry, hok⟩ | ⟨⟨text, herror⟩, p, hp, hmisfit⟩
    · left
      rw [Logged.outcome_bind_of_ok hok]
      exact ⟨_, rfl⟩
    · right
      rw [Logged.outcome_bind_of_error herror]
      refine ⟨⟨text, rfl⟩, fun h => hmisfit (h.thread p ?_)⟩
      rw [commandStates_of_eq hthread]
      exact hp
  · rw [if_neg hthread]
    exact .inl ⟨_, rfl⟩

/-- A round reads inside the payload, and only a segment command writes, to the current entry. -/
theorem loadCommand_allowed (hblob : blob.size = aneFwBlobSize) (hoff : walk.off ≤ commandLimit) :
    Logged.Safe
      (Allowed blob fun index => cmdAt blob walk.off = lcSegment64 ∧ index = walk.nsegs) (fun _ => True)
      (loadCommand fuel blob segsOut aneFwSizeofCmds walk) := by
  have hroom : commandLimit + 56 ≤ blob.size := by
    rw [hblob]
    decide
  rw [loadCommand_eq hblob hoff]
  apply Logged.Safe.guard
  intro hheader
  apply safe_getUnalignedLe32 (by omega)
  apply safe_getUnalignedLe32 (by omega)
  apply Logged.Safe.guard
  intro hsize
  by_cases hsegment : cmdAt blob walk.off = lcSegment64
  · rw [if_pos hsegment]
    simp only [hsegment, true_and]
    exact (segmentCommand_safe segsOut (by omega)).bind fun _ _ => Logged.Safe.pure trivial
  rw [if_neg hsegment]
  by_cases hthread : cmdAt blob walk.off = lcUnixthread
  · rw [if_pos hthread]
    have hbounds := @threadBounds_command blob walk hoff (by omega)
    exact (threadLoop_safe hbounds hblob _ fuel (Nat.le_refl _) (by omega)).bind fun _ _ => Logged.Safe.pure trivial
  · rw [if_neg hthread]
    exact Logged.Safe.pure trivial

/-- A round writes `segs_out` exactly at a segment command that passes its checks. -/
theorem loadCommand_wrote (hblob : blob.size = aneFwBlobSize) (hoff : walk.off ≤ commandLimit) (index : ℕ) :
    Wrote (loadCommand fuel blob true aneFwSizeofCmds walk).log index ↔
      CommandPasses blob walk.off ∧ cmdAt blob walk.off = lcSegment64 ∧ index = walk.nsegs := by
  by_cases hsegment : cmdAt blob walk.off = lcSegment64
  · have hstates : commandStates blob walk.off = [] :=
      commandStates_of_ne fun h => lcUnixthread_ne_lcSegment64 (h.symm.trans hsegment)
    rw [loadCommand_eq hblob hoff]
    by_cases hheader : commandLimit < walk.off + 8
    · rw [if_pos hheader]
      exact ⟨fun h => absurd h not_wrote_nil, fun h => by have := h.1.header; omega⟩
    rw [if_neg hheader]
    simp only [getUnalignedLe32, Logged.emit_bind, wrote_read_cons]
    by_cases hsize : cmdsizeAt blob walk.off < 8 ∨ commandLimit < commandEnd blob walk.off
    · rw [if_pos hsize]
      exact ⟨fun h => absurd h not_wrote_nil, fun h => by have := h.1.size; have := h.1.bound; omega⟩
    rw [if_neg hsize, if_pos hsegment, Logged.log_bind_pure, segmentCommand_wrote hblob]
    constructor
    · intro ⟨hmatch, hindex⟩
      exact ⟨⟨by omega, by omega, by omega, fun _ => hmatch, by simp [hstates]⟩, hsegment, hindex⟩
    · intro ⟨hpasses, _, hindex⟩
      exact ⟨hpasses.segment hsegment, hindex⟩
  · have hquiet : ¬Wrote (loadCommand fuel blob true aneFwSizeofCmds walk).log index :=
      not_wrote_of_safe (loadCommand_allowed hblob hoff) fun h => hsegment h.1
    exact ⟨fun h => absurd h hquiet, fun h => absurd h.2.1 hsegment⟩

end Command

section Commands

variable {fuel : ℕ} {segsOut : Bool}

/-- The number of segment commands among the first commands of the walk. -/
def segmentCount (blob : Bytes) (n : ℕ) : ℕ :=
  Nat.count (fun i => cmdAt blob (commandOffset blob i) = lcSegment64) n

/-- The program counters of the commands from one command on. -/
def pcsFrom (blob : Bytes) (i rounds : ℕ) : List ℕ :=
  (List.range' i rounds).flatMap fun j => threadPcs blob (commandStates blob (commandOffset blob j))

/-- The program counters of the first command come first. -/
theorem pcsFrom_succ (i rounds : ℕ) : pcsFrom blob i (rounds + 1) =
    threadPcs blob (commandStates blob (commandOffset blob i)) ++ pcsFrom blob (i + 1) rounds := by
  rw [pcsFrom, pcsFrom, List.range'_succ, List.flatMap_cons]

/-- The last element of a concatenation, with a default. -/
theorem getLastD_append (first second : List α) (a : α) :
    (first ++ second).getLastD a = second.getLastD (first.getLastD a) := by
  rw [List.getLastD_eq_getLast?, List.getLastD_eq_getLast?, List.getLastD_eq_getLast?, List.getLast?_append]
  cases second.getLast? with
  | none => simp
  | some b => simp

/-- The variables of the loop before a command. -/
def walkAt (blob : Bytes) (i entry : ℕ) : Walk := ⟨commandOffset blob i, segmentCount blob i, entry⟩

/-- A command takes the variables of the loop to the next command. -/
theorem advance_walkAt {entry : ℕ} (hi : i < 2 ^ 32 - 1) : advance blob (walkAt blob i entry) =
    walkAt blob (i + 1) ((threadPcs blob (commandStates blob (commandOffset blob i))).getLastD entry) := by
  have hcount : segmentCount blob i ≤ i := Nat.count_le _
  have hnowrap : u32 (segmentCount blob i + 1) = segmentCount blob i + 1 := Nat.mod_eq_of_lt (by omega)
  simp only [advance, walkAt, commandOffset, hnowrap, Walk.mk.injEq, true_and, and_true]
  rw [segmentCount, segmentCount, Nat.count_succ]
  by_cases hsegment : cmdAt blob (commandOffset blob i) = lcSegment64
  · rw [if_pos hsegment, if_pos hsegment]
  · rw [if_neg hsegment, if_neg hsegment, Nat.add_zero]

/-- A walk that goes on has passed the checks of all its commands. -/
theorem loadCommands_ok (hblob : blob.size = aneFwBlobSize) (rounds : ℕ) {entry : ℕ} {last : Walk}
    (hrounds : i + rounds ≤ aneFwNcmds) (hoff : commandOffset blob i ≤ commandLimit)
    (hok : (loadCommands fuel blob segsOut aneFwSizeofCmds rounds (walkAt blob i entry)).outcome = .ok last) :
    (∀ j, i ≤ j → j < i + rounds → CommandPasses blob (commandOffset blob j)) ∧
      last = walkAt blob (i + rounds) ((pcsFrom blob i rounds).getLastD entry) := by
  rw [aneFwNcmds] at hrounds
  induction rounds generalizing i entry with
  | zero =>
    simp only [loadCommands, Logged.outcome_pure, Except.ok.injEq] at hok
    exact ⟨fun j _ _ => by omega, by simp [← hok, pcsFrom]⟩
  | succ rounds ih =>
    rw [loadCommands, Logged.outcome_bind_eq_ok] at hok
    obtain ⟨next, hfirst, hok⟩ := hok
    obtain ⟨hpasses, hnext⟩ := loadCommand_ok hblob hoff hfirst
    rw [advance_walkAt (by omega)] at hnext
    subst hnext
    obtain ⟨hrest, hlast⟩ := @ih (i + 1) _ (by omega) hpasses.bound hok
    refine ⟨fun j hij hj => ?_, ?_⟩
    · rcases Nat.eq_or_lt_of_le hij with rfl | hlt
      · exact hpasses
      · exact hrest j hlt (by omega)
    · rw [hlast, pcsFrom_succ, getLastD_append, Nat.add_right_comm, Nat.add_assoc]

/-- With enough fuel a walk halts. -/
theorem loadCommands_halts (hblob : blob.size = aneFwBlobSize) (hfuel : commandLimit < 8 * fuel) (rounds : ℕ)
    (hoff : walk.off ≤ commandLimit) :
    (loadCommands fuel blob segsOut aneFwSizeofCmds rounds walk).outcome ≠ .error .running := by
  induction rounds generalizing walk with
  | zero => simp [loadCommands]
  | succ rounds ih =>
    rw [loadCommands]
    rcases loadCommand_decides hblob hoff hfuel with ⟨next, hok⟩ | ⟨⟨text, herror⟩, -⟩
    · obtain ⟨hpasses, rfl⟩ := loadCommand_ok hblob hoff hok
      rw [Logged.outcome_bind_of_ok hok]
      exact ih hpasses.bound
    · rw [Logged.outcome_bind_of_error herror]
      simp

/-- Every read of a walk is inside the payload. -/
theorem loadCommands_safe (hblob : blob.size = aneFwBlobSize) (rounds : ℕ) (hoff : walk.off ≤ commandLimit) :
    Logged.Safe (Allowed blob fun _ => True) (fun _ => True)
      (loadCommands fuel blob segsOut aneFwSizeofCmds rounds walk) := by
  induction rounds generalizing walk with
  | zero => exact Logged.Safe.pure trivial
  | succ rounds ih =>
    have hfirst : Logged.Safe (Allowed blob fun _ => True) (fun next => next.off ≤ commandLimit)
        (loadCommand fuel blob segsOut aneFwSizeofCmds walk) := by
      refine ⟨fun access haccess => ?_, fun next hok => ?_⟩
      · have hallowed := (loadCommand_allowed hblob hoff).1 access haccess
        cases access with
        | read offset width => exact hallowed
        | write index seg => trivial
      · obtain ⟨hpasses, rfl⟩ := loadCommand_ok hblob hoff hok
        exact hpasses.bound
    exact hfirst.bind fun next hnext => ih hnext

/-- A segment command the walk gets to, with the number of segment commands before it. -/
structure SegmentReached (blob : Bytes) (i j index : ℕ) : Prop where
  from_le : i ≤ j
  passes : ∀ l, i ≤ l → l ≤ j → CommandPasses blob (commandOffset blob l)
  segment : cmdAt blob (commandOffset blob j) = lcSegment64
  index_eq : index = segmentCount blob j

/-- Every write of a walk is at a segment command the walk gets to. -/
theorem segmentReached_of_wrote (hblob : blob.size = aneFwBlobSize) (rounds : ℕ) {entry : ℕ}
    (hrounds : i + rounds ≤ aneFwNcmds) (hoff : commandOffset blob i ≤ commandLimit)
    (hwrote : Wrote (loadCommands fuel blob true aneFwSizeofCmds rounds (walkAt blob i entry)).log index) :
    ∃ j < i + rounds, SegmentReached blob i j index := by
  rw [aneFwNcmds] at hrounds
  induction rounds generalizing i entry with
  | zero => simp [loadCommands] at hwrote
  | succ rounds ih =>
    rw [loadCommands] at hwrote
    have hhere : Wrote (loadCommand fuel blob true aneFwSizeofCmds (walkAt blob i entry)).log index →
        ∃ j < i + (rounds + 1), SegmentReached blob i j index := by
      intro h
      obtain ⟨hpasses, hsegment, hindex⟩ := (loadCommand_wrote hblob hoff index).mp h
      refine ⟨i, by omega, Nat.le_refl i, fun l hil hli => ?_, hsegment, hindex⟩
      obtain rfl : l = i := by omega
      exact hpasses
    cases hout : (loadCommand fuel blob true aneFwSizeofCmds (walkAt blob i entry)).outcome with
    | error stop =>
      rw [Logged.log_bind_of_error hout] at hwrote
      exact hhere hwrote
    | ok next =>
      obtain ⟨hpasses, rfl⟩ := loadCommand_ok hblob hoff hout
      rw [Logged.log_bind_of_ok hout, wrote_append, advance_walkAt (by omega)] at hwrote
      rcases hwrote with h | h
      · exact hhere h
      · obtain ⟨j, hj, hreached⟩ := @ih (i + 1) _ (by omega) hpasses.bound h
        refine ⟨j, by omega, Nat.le_of_succ_le hreached.from_le, fun l hil hlj => ?_, hreached.segment,
          hreached.index_eq⟩
        rcases Nat.eq_or_lt_of_le hil with rfl | hlt
        · exact hpasses
        · exact hreached.passes l hlt hlj

/-- With enough fuel a walk writes at every segment command it gets to. -/
theorem wrote_of_segmentReached (hblob : blob.size = aneFwBlobSize) (hfuel : commandLimit < 8 * fuel) (rounds : ℕ)
    {j entry : ℕ} (hrounds : i + rounds ≤ aneFwNcmds) (hoff : commandOffset blob i ≤ commandLimit)
    (hj : j < i + rounds) (hreached : SegmentReached blob i j index) :
    Wrote (loadCommands fuel blob true aneFwSizeofCmds rounds (walkAt blob i entry)).log index := by
  rw [aneFwNcmds] at hrounds
  induction rounds generalizing i entry with
  | zero =>
    have := hreached.from_le
    omega
  | succ rounds ih =>
    have hpasses := hreached.passes i (Nat.le_refl i) hreached.from_le
    rcases @loadCommand_decides blob (walkAt blob i entry) fuel true hblob hoff hfuel
      with ⟨next, hok⟩ | ⟨-, hfails⟩
    · obtain ⟨-, rfl⟩ := loadCommand_ok hblob hoff hok
      rw [loadCommands, Logged.log_bind_of_ok hok, wrote_append, advance_walkAt (by omega)]
      rcases Nat.eq_or_lt_of_le hreached.from_le with rfl | hlt
      · left
        exact (loadCommand_wrote hblob hoff index).mpr ⟨hpasses, hreached.segment, hreached.index_eq⟩
      · right
        exact @ih (i + 1) _ (by omega) hpasses.bound (by omega)
          ⟨hlt, fun l hil hlj => hreached.passes l (by omega) hlj, hreached.segment, hreached.index_eq⟩
    · exact absurd hpasses hfails

end Commands

end AneLinux.Firmware
