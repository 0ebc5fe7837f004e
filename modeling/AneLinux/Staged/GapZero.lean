import AneLinux.Staged.TaskStream

/-!
# What gap zeroing does to the converter's decode

`zeroGaps` decides where a task's records end with its own parser. The converter's decoder
may start its walk at another word, or walk on past the bound the parser used, and then
reads words of the gap. The mutation therefore keeps the meaning of a task exactly when the
decoder, walking the original bytes, takes no surviving register value from the gap.
-/

namespace AneLinux.Staged

open AneLinux.Support AneLinux.Hwx

/-- The converter's record walk over the original slot of one task. -/
def decoderWalk (content : Bytes) (base limit : ℕ) : RecordWalk :=
  walkRecords (taskWord content base) (limit - base)
    (if content.u32 (base + 36) &&& 0x3 = 0x3 then 44 else 40)

/-- The converter's walk of one slot does not depend on the words from `gap` on: it does not
run off the slot from a header in the gap, and no register's last value comes from the gap. -/
def GapSilent (content : Bytes) (base limit gap : ℕ) : Prop :=
  let walk := decoderWalk content base limit
  if walk.reason = .truncated then walk.stop < gap
  else registersOf walk.writes = registersOf (keptWrites gap walk.writes)

/-- Every gap of the stream is silent for the converter's walk. -/
def GapsSilent (content : Bytes) (tdCount : ℤ) : Prop :=
  ∀ tasks, parseStream content tdCount = .ok tasks → ∀ task ∈ tasks, ∀ limit,
    (task.base, limit) ∈ slots content.size (tasks.map Task.base) →
      GapSilent content task.base limit task.stop

/-- The converter's decoder and the task links read the same in both streams. -/
def SameMeaning (content mutated : Bytes) (bases : List ℕ) : Prop :=
  ∀ slot ∈ slots content.size bases,
    Hwx.walkRegisters (mutated.slice slot.1 slot.2) = Hwx.walkRegisters (content.slice slot.1 slot.2) ∧
      mutated.u32 (slot.1 + 0x1C) = content.u32 (slot.1 + 0x1C)

/-! ## The chain and its slots -/

/-- A chain under construction: distinct aligned bases whose headers are inside the content. -/
structure ChainOk (content : Bytes) (chain : List ℕ) : Prop where
  nodup : chain.Nodup
  aligned : ∀ base ∈ chain, base % 0x100 = 0
  inside : ∀ base ∈ chain, base + 0x20 ≤ content.size

variable {content mutated : Bytes} {tdCount : ℤ} {bases : List ℕ} {size base limit : ℕ} {task : Task}
  {tasks after : List Task}

/-- One visited base extends a chain. -/
theorem ChainOk.snoc {chain : List ℕ} {offset : ℕ} (h : ChainOk content chain) (hnew : offset ∉ chain)
    (haligned : offset % 0x100 = 0) (hinside : offset + 0x20 ≤ content.size) :
    ChainOk content (chain ++ [offset]) where
  nodup := by
    rw [List.nodup_append]
    refine ⟨h.nodup, List.nodup_singleton _, ?_⟩
    rintro a ha b hb rfl
    exact hnew (List.mem_singleton.mp hb ▸ ha)
  aligned base hbase := by
    rcases List.mem_append.mp hbase with hbase | hbase
    · exact h.aligned base hbase
    · rw [List.mem_singleton.mp hbase, haligned]
  inside base hbase := by
    rcases List.mem_append.mp hbase with hbase | hbase
    · exact h.inside base hbase
    · rw [List.mem_singleton.mp hbase]
      exact hinside

/-- The chain loop keeps the chain well formed. -/
theorem walkChainLoop_ok {tskSize : ℕ} {chain : List ℕ} {offset : ℕ} (hchain : ChainOk content chain)
    (haligned : offset % 0x100 = 0) (h : walkChainLoop content tskSize tdCount chain offset = .ok bases) :
    ChainOk content bases := by
  fun_induction walkChainLoop content tskSize tdCount chain offset with
  | case1 chain offset hcond ih =>
    obtain ⟨nxt, hread, h⟩ := bind_eq_ok.mp h
    have hinside := (unpackU32_eq_ok.mp hread).1
    have hsnoc := hchain.snoc hcond.1 haligned (by omega)
    split_ifs at h with hzero hunaligned hpast
    · exact Except.ok.inj h ▸ hsnoc
    · exact ih nxt hsnoc (by omega) h
  | case2 chain offset hcond => exact Except.ok.inj h ▸ hchain

theorem walkChain_ok {tskSize : ℕ} (h : walkChain content tskSize tdCount = .ok bases) : ChainOk content bases :=
  walkChainLoop_ok ⟨List.nodup_nil, by simp, by simp⟩ rfl h

/-- In a sorted list of bases, a slot ends at or before every later base. -/
theorem mem_slotBounds (hsorted : bases.Pairwise (· < ·)) (hsize : ∀ base ∈ bases, base < size)
    (h : (base, limit) ∈ slotBounds size bases) :
    base ∈ bases ∧ base < limit ∧ limit ≤ size ∧ ∀ other ∈ bases, other ≤ base ∨ limit ≤ other := by
  induction bases with
  | nil => cases h
  | cons first rest ih =>
    have hlt : ∀ other ∈ rest, first < other := (List.pairwise_cons.mp hsorted).1
    have hrest := (List.pairwise_cons.mp hsorted).2
    rcases List.mem_cons.mp h with heq | hmem
    · obtain ⟨rfl, rfl⟩ := Prod.mk.inj heq
      cases rest with
      | nil =>
        have hbase := hsize base List.mem_cons_self
        exact ⟨List.mem_cons_self, hbase, Nat.le_refl _, fun other hother =>
          Or.inl (Nat.le_of_eq (List.mem_singleton.mp hother))⟩
      | cons second tail =>
        have hsecond := hlt second List.mem_cons_self
        refine ⟨List.mem_cons_self, hsecond, (hsize second (by simp)).le, fun other hother => ?_⟩
        rcases List.mem_cons.mp hother with rfl | hother
        · exact Or.inl (Nat.le_refl _)
        · rcases List.mem_cons.mp hother with rfl | hother
          · exact Or.inr (Nat.le_refl _)
          · exact Or.inr ((List.pairwise_cons.mp hrest).1 other hother).le
    · obtain ⟨hin, hbl, hls, hothers⟩ := ih hrest (fun b hb => hsize b (List.mem_cons_of_mem _ hb)) hmem
      refine ⟨List.mem_cons_of_mem _ hin, hbl, hls, fun other hother => ?_⟩
      rcases List.mem_cons.mp hother with rfl | hother
      · exact Or.inl (hlt base hin).le
      · exact hothers other hother

/-- Reading the slot table of distinct bases finds the slot of the base. -/
theorem find_slotBounds (hnodup : bases.Nodup) (h : (base, limit) ∈ slotBounds size bases) :
    find (slotBounds size bases) base = some limit := by
  have hkeys : ∀ bases : List ℕ, (slotBounds size bases).map Prod.fst = bases := by
    intro bases
    induction bases with
    | nil => rfl
    | cons first rest ih => rw [slotBounds, List.map_cons, ih]
  induction bases with
  | nil => cases h
  | cons first rest ih =>
    rw [slotBounds] at h ⊢
    rcases List.mem_cons.mp h with heq | hmem
    · obtain ⟨rfl, rfl⟩ := Prod.mk.inj heq
      exact if_pos rfl
    · have hin : base ∈ rest := by
        rw [← hkeys rest]
        exact List.mem_map_of_mem hmem
      have hne : first ≠ base := by
        rintro rfl
        exact (List.nodup_cons.mp hnodup).1 hin
      rw [find, if_neg hne]
      exact ih (List.nodup_cons.mp hnodup).2 hmem

/-- The slots of distinct bases lie inside the content and do not overlap, and the slot table is read by base. -/
theorem slots_of_nodup (hnodup : bases.Nodup) (hinside : ∀ base ∈ bases, base < size)
    (h : (base, limit) ∈ slots size bases) :
    base ∈ bases ∧ base < limit ∧ limit ≤ size ∧ (∀ other ∈ bases, other ≤ base ∨ limit ≤ other) ∧
      find (slots size bases) base = some limit := by
  have hperm := List.perm_insertionSort (· ≤ ·) bases
  obtain ⟨hin, hlt, hle, hothers⟩ := mem_slotBounds (insertionSort_pairwise_lt hnodup)
    (fun b hb => hinside b (hperm.mem_iff.mp hb)) h
  exact ⟨hperm.mem_iff.mp hin, hlt, hle, fun other hother => hothers other (hperm.mem_iff.mpr hother),
    find_slotBounds (hperm.nodup_iff.mpr hnodup) h⟩

/-- The slots of a parsed chain do not overlap, and the slot table is read by base. -/
theorem slots_spec (hchain : ChainOk content bases) (h : (base, limit) ∈ slots content.size bases) :
    base ∈ bases ∧ base < limit ∧ limit ≤ content.size ∧
      (∀ other ∈ bases, other ≤ base ∨ limit ≤ other) ∧
      find (slots content.size bases) base = some limit :=
  slots_of_nodup hchain.nodup (fun b hb => Nat.lt_of_lt_of_le (by omega) (hchain.inside b hb)) h

/-- Every base of a chain has a slot. -/
theorem exists_slot (h : base ∈ bases) : ∃ limit, (base, limit) ∈ slots size bases := by
  have hbounds : ∀ bs : List ℕ, base ∈ bs → ∃ limit, (base, limit) ∈ slotBounds size bs := by
    intro bs hbs
    induction bs with
    | nil => cases hbs
    | cons first rest ih =>
      rcases List.mem_cons.mp hbs with rfl | hbs
      · exact ⟨_, List.mem_cons_self⟩
      · obtain ⟨limit, hlimit⟩ := ih hbs
        exact ⟨limit, List.mem_cons_of_mem _ hlimit⟩
  exact hbounds _ ((List.perm_insertionSort (· ≤ ·) bases).mem_iff.mpr h)

/-! ## The parsed tasks -/

/-- What the assertions of `parseStream` leave true of one task. -/
structure TaskOk (content : Bytes) (task : Task) : Prop where
  header : 40 ≤ task.stop
  walk : ∃ bound, task.stop = (parsedWalk content task.base bound).stop ∧
    (parsedWalk content task.base bound).reason ≠ .truncated ∧
    (task.terminated = true → (parsedWalk content task.base bound).reason = .terminator)

theorem TaskOk.stop_mod (h : TaskOk content task) : task.stop % 4 = 0 := by
  obtain ⟨bound, hstop, -⟩ := h.walk
  rw [hstop, parsedWalk, walkRecords_stop_mod, firstParsedRecord, extraWords]
  split_ifs <;> rfl

/-- A parsed chain has one well-formed task per base, in order. -/
theorem parseTasks_ok (hinside : ∀ base ∈ bases, base + 4 ≤ content.size) (h : parseTasks content bases = .ok tasks) :
    tasks.map Task.base = bases ∧ ∀ task ∈ tasks, TaskOk content task := by
  induction bases generalizing tasks with
  | nil =>
    cases h
    exact ⟨rfl, by simp⟩
  | cons base rest ih =>
    rw [parseTasks, parseTask_eq (hinside base List.mem_cons_self), ok_bind] at h
    split_ifs at h with htrunc hterm hshort
    obtain ⟨tail, htail, h⟩ := bind_eq_ok.mp h
    obtain ⟨hbases, htasks⟩ := ih (fun b hb => hinside b (List.mem_cons_of_mem base hb)) htail
    cases h
    refine ⟨by rw [List.map_cons, hbases], fun task htask => ?_⟩
    rcases List.mem_cons.mp htask with rfl | htask
    · have hreason : (parsedWalk content base (rest.headD content.size)).reason ≠ .truncated := by
        simpa [TaskParse.ofWalk] using htrunc
      have hstop : 40 ≤ (parsedWalk content base (rest.headD content.size)).stop := by
        simpa [TaskParse.ofWalk, h13HeaderSize] using hshort
      exact ⟨hstop, rest.headD content.size, rfl, hreason, fun hterminated => by
        simpa [TaskParse.ofWalk] using hterminated⟩
    · exact htasks task htask

/-- A parsed stream is a well-formed chain of well-formed tasks. -/
theorem parseStream_ok (h : parseStream content tdCount = .ok tasks) :
    ChainOk content (tasks.map Task.base) ∧ ∀ task ∈ tasks, TaskOk content task := by
  obtain ⟨bases, hbases, h⟩ := bind_eq_ok.mp h
  split_ifs at h with hcount
  have hchain := walkChain_ok hbases
  obtain ⟨hmap, htasks⟩ := parseTasks_ok (fun base hbase => by have := hchain.inside base hbase; omega) h
  exact ⟨hmap ▸ hchain, htasks⟩

/-! ## The mutation -/

/-- Byte `i` lies in the gap of one of the tasks. -/
def InGap (bounds : List (ℕ × ℕ)) (tasks : List Task) (i : ℕ) : Prop :=
  ∃ task ∈ tasks, ∃ limit, find bounds task.base = some limit ∧ task.base + task.stop ≤ i ∧ i < limit

/-- The gap loop clears exactly the gap bytes, and every gap has a length. -/
theorem zeroGapsLoop_spec {bounds : List (ℕ × ℕ)} {start : Bytes}
    (hbounds : ∀ task ∈ tasks, ∀ limit, find bounds task.base = some limit → limit ≤ start.size)
    (h : zeroGapsLoop bounds tasks start = .ok mutated) :
    mutated.size = start.size ∧
      (∀ i, InGap bounds tasks i → mutated.get i = 0) ∧
      (∀ i, ¬ InGap bounds tasks i → mutated.get i = start.get i) ∧
      ∀ task ∈ tasks, ∃ limit, find bounds task.base = some limit ∧ task.base + task.stop ≤ limit := by
  induction tasks generalizing start with
  | nil =>
    cases h
    exact ⟨rfl, by simp [InGap], by simp, by simp⟩
  | cons task rest ih =>
    rw [zeroGapsLoop] at h
    obtain ⟨limit, hlimit, h⟩ := bind_eq_ok.mp h
    have hlookup : find bounds task.base = some limit := (lookup_raises ..).value hlimit
    split_ifs at h with hneg
    · exact absurd h (raiseValue_ne_ok _ _)
    have hle := hbounds task List.mem_cons_self limit hlookup
    have hsize : (start.splice (task.base + task.stop) limit
        (Bytes.zeros (limit - (task.base + task.stop)))).size = start.size :=
      Bytes.size_splice_of_eq (by omega) hle (by simp)
    have hget (i : ℕ) : (start.splice (task.base + task.stop) limit
        (Bytes.zeros (limit - (task.base + task.stop)))).get i =
          if task.base + task.stop ≤ i ∧ i < limit then 0 else start.get i := by
      rw [Bytes.get_splice_of_eq (by omega) hle (by simp), Bytes.get_zeros]
    obtain ⟨hmsize, hzero, hkeep, hgaps⟩ := ih (fun t ht l hl => by
      rw [hsize]
      exact hbounds t (List.mem_cons_of_mem task ht) l hl) h
    have hgap (i : ℕ) : InGap bounds (task :: rest) i ↔
        (task.base + task.stop ≤ i ∧ i < limit) ∨ InGap bounds rest i := by
      simp [InGap, hlookup]
    refine ⟨hmsize.trans hsize, fun i hi => ?_, fun i hi => ?_, fun t ht => ?_⟩
    · by_cases hrest : InGap bounds rest i
      · exact hzero i hrest
      · rw [hkeep i hrest, hget, if_pos (((hgap i).mp hi).resolve_right hrest)]
    · rw [hgap, not_or] at hi
      rw [hkeep i hi.2, hget, if_neg hi.1]
    · rcases List.mem_cons.mp ht with rfl | ht
      · exact ⟨limit, hlookup, by omega⟩
      · exact hgaps t ht

/-- What gap zeroing leaves in one slot: the header and records, then zeros. -/
structure SlotCleared (content mutated : Bytes) (base limit stop : ℕ) : Prop where
  size : mutated.size = content.size
  fits : base + stop ≤ limit
  inside : limit ≤ content.size
  kept : ∀ i, base ≤ i → i < base + stop → mutated.get i = content.get i
  cleared : ∀ i, base + stop ≤ i → i < limit → mutated.get i = 0

/-- A mutation that returned parsed its input and ran the gap loop over it. -/
theorem zeroGaps_ok (h : zeroGaps content tdCount = .ok (mutated, tasks, after)) :
    parseStream content tdCount = .ok tasks ∧
      zeroGapsLoop (slots content.size (tasks.map Task.base)) tasks content = .ok mutated := by
  obtain ⟨tasks', hparse, h⟩ := bind_eq_ok.mp h
  obtain ⟨mutated', hloop, h⟩ := bind_eq_ok.mp h
  obtain ⟨after', -, h⟩ := bind_eq_ok.mp h
  obtain ⟨-, -, h⟩ := bind_eq_ok.mp h
  obtain ⟨-, -, h⟩ := bind_eq_ok.mp h
  cases h
  exact ⟨hparse, hloop⟩

/-- Each task of a mutated stream keeps its own records, and only its own gap is cleared. -/
theorem zeroGaps_slot (h : zeroGaps content tdCount = .ok (mutated, tasks, after)) (htask : task ∈ tasks)
    (hslot : (task.base, limit) ∈ slots content.size (tasks.map Task.base)) :
    SlotCleared content mutated task.base limit task.stop := by
  obtain ⟨hparse, hloop⟩ := zeroGaps_ok h
  have hchain := (parseStream_ok hparse).1
  have hslots (t : Task) (ht : t ∈ tasks) (l : ℕ)
      (hl : find (slots content.size (tasks.map Task.base)) t.base = some l) :
      (t.base, l) ∈ slots content.size (tasks.map Task.base) := by
    obtain ⟨l', hl'⟩ := exists_slot (List.mem_map_of_mem ht)
    obtain rfl : l = l' := Option.mem_unique hl (slots_spec hchain hl').2.2.2.2
    exact hl'
  obtain ⟨hsize, hzero, hkeep, hgaps⟩ := zeroGapsLoop_spec
    (fun t ht l hl => (slots_spec hchain (hslots t ht l hl)).2.2.1) hloop
  obtain ⟨-, -, hle, hothers, hlookup⟩ := slots_spec hchain hslot
  have hfits : task.base + task.stop ≤ limit := by
    obtain ⟨l, hl, hfit⟩ := hgaps task htask
    obtain rfl : l = limit := Option.mem_unique hl hlookup
    exact hfit
  refine ⟨hsize, hfits, hle, fun i hbase hstop => ?_, fun i hstop hlimit => ?_⟩
  · apply hkeep
    rintro ⟨t, ht, l, hl, hgap, hlt⟩
    obtain ⟨-, -, -, hothers', -⟩ := slots_spec hchain (hslots t ht l hl)
    rcases hothers t.base (List.mem_map_of_mem ht) with hleft | hright
    · rcases hothers' task.base (List.mem_map_of_mem htask) with hleft' | hright'
      · have hsame : t = task :=
          List.inj_on_of_nodup_map hchain.nodup ht htask (Nat.le_antisymm hleft hleft')
        subst hsame
        omega
      · omega
    · omega
  · exact hzero i ⟨task, htask, limit, hlookup, hstop, hlimit⟩

/-! ## The decode of one slot -/

/-- The converter's decoder over a slot is its record walk there. -/
theorem walkRegisters_slot (hheader : base + 40 ≤ limit) (hinside : limit ≤ content.size) :
    Hwx.walkRegisters (content.slice base limit) =
      strictResult (fun _ => none) (decoderWalk content base limit) := by
  have hsize : (content.slice base limit).size = limit - base := by
    rw [Bytes.size_slice, Nat.min_eq_left hinside]
  have hfirst : firstRecord (content.slice base limit) =
      if content.u32 (base + 36) &&& 0x3 = 0x3 then 44 else 40 := by
    rw [firstRecord, Bytes.u32_slice _ (by omega)]
  rw [Hwx.walkRegisters_eq (by omega), hsize, hfirst, decoderWalk]
  congr 1
  apply walkRecords_congr
  intro p _ _ hp
  exact Bytes.u32_slice _ (by omega)

/-- The words of a cleared slot: the original ones before the gap, zero inside it. -/
theorem SlotCleared.taskWord_eq {stop : ℕ} (h : SlotCleared content mutated base limit stop) :
    (∀ p, p + 4 ≤ stop → taskWord mutated base p = taskWord content base p) ∧
      ∀ p, stop ≤ p → p + 4 ≤ limit - base → taskWord mutated base p = 0 := by
  refine ⟨fun p hp => ?_, fun p hstop hp => ?_⟩
  · exact Bytes.u32_congr fun k hk => h.kept _ (by omega) (by omega)
  · have hzero : mutated.u32 (base + p) = (Bytes.zeros 4).u32 0 := by
      apply Bytes.u32_congr
      intro k hk
      rw [h.cleared _ (by omega) (by omega), Bytes.get_zeros]
    exact hzero

/-- Clearing a gap keeps the decode of its slot exactly when the gap is silent. -/
theorem SlotCleared.sameDecode_iff {stop : ℕ} (h : SlotCleared content mutated base limit stop) (hheader : 40 ≤ stop)
    (hmod : stop % 4 = 0) :
    Hwx.walkRegisters (mutated.slice base limit) = Hwx.walkRegisters (content.slice base limit) ↔
      GapSilent content base limit stop := by
  obtain ⟨hbefore, hafter⟩ := h.taskWord_eq
  have hfits := h.fits
  have hinside := h.inside
  have hstart : mutated.u32 (base + 36) = content.u32 (base + 36) := hbefore 36 (by omega)
  have hslot := h.size
  rw [walkRegisters_slot (by omega) (by omega), walkRegisters_slot (by omega) (by omega), GapSilent]
  unfold decoderWalk
  rw [hstart]
  generalize hfirst : (if content.u32 (base + 36) &&& 0x3 = 0x3 then 44 else 40) = first
  have hfirstmod : first % 4 = 0 := by
    rw [← hfirst]
    split_ifs <;> rfl
  have hkeep : ∀ p, first ≤ p → p % 4 = first % 4 → p < stop →
      taskWord mutated base p = taskWord content base p :=
    fun p _ hp hlt => hbefore p (by omega)
  by_cases htrunc : (walkRecords (taskWord content base) (limit - base) first).reason = .truncated
  · rw [if_pos htrunc, strictResult, strictResult, if_pos htrunc]
    constructor
    · intro hsame
      by_contra hstop
      obtain ⟨hreason, -⟩ := walkRecords_cut_writes (by omega) hkeep
        (fun p _ hp hl => hafter p hp hl) (fun _ => by omega)
      rw [if_neg hreason] at hsame
      exact raiseValue_ne_ok _ _ hsame.symm
    · intro hstop
      obtain ⟨hreason, hpos⟩ := walkRecords_cut_truncated (by omega) hkeep htrunc hstop
      rw [if_pos hreason, hpos]
  · obtain ⟨hreason, hwrites⟩ := walkRecords_cut_writes (by omega) hkeep
      (fun p _ hp hl => hafter p hp hl) (fun ht => absurd ht htrunc)
    rw [if_neg htrunc, strictResult, strictResult, if_neg htrunc, if_neg hreason, hwrites,
      Except.ok.injEq]
    exact eq_comm

/-! ## Streams on which the two decoders agree -/

/-- When header words 0 and 9 agree on the extra word, and the records end at a zero word or
fill the slot, the gap is silent. -/
theorem TaskOk.gapSilent (h : TaskOk content task)
    (hagree : content.u32 task.base &&& 0x3 = 0x3 ↔ content.u32 (task.base + 36) &&& 0x3 = 0x3)
    (hfits : task.base + task.stop ≤ limit) (hend : task.terminated = true ∨ limit < task.base + task.stop + 4) :
    GapSilent content task.base limit task.stop := by
  obtain ⟨bound, hstop, hreason, hterminated⟩ := h.walk
  have hfirst : (if content.u32 (task.base + 36) &&& 0x3 = 0x3 then 44 else 40) =
      firstParsedRecord content task.base := by
    unfold firstParsedRecord extraWords
    split_ifs <;> tauto
  have hzero : task.stop + 4 ≤ limit - task.base → taskWord content task.base task.stop = 0 := by
    intro hroom
    rcases hend with hterm | hfull
    · rw [hstop]
      exact (walkRecords_terminator (hterminated hterm)).1
    · omega
  rw [hstop] at hzero
  have hlimit : (parsedWalk content task.base bound).stop ≤ limit - task.base := by omega
  obtain ⟨hrecords, hpos, hcomplete⟩ := walkRecords_relimit hreason hlimit hzero
  rw [GapSilent, decoderWalk, hfirst, if_neg hcomplete, hstop, keptWrites_eq_self]
  intro w hw
  have hlt := walkRecords_write_lt hcomplete w hw
  rwa [hpos] at hlt

/-- A stream whose tasks all place their first record alike, and whose records end at a zero
word or fill the slot, has only silent gaps. -/
theorem gapsSilent_of_agree (h : zeroGaps content tdCount = .ok (mutated, tasks, after))
    (hagree : ∀ task ∈ tasks, content.u32 task.base &&& 0x3 = 0x3 ↔ content.u32 (task.base + 36) &&& 0x3 = 0x3)
    (hend : ∀ task ∈ tasks, task.terminated = true ∨ ∀ limit, (task.base, limit) ∈ slots content.size
      (tasks.map Task.base) → limit < task.base + task.stop + 4) :
    GapsSilent content tdCount := by
  have hparse := (zeroGaps_ok h).1
  intro tasks' hparse' task htask limit hlimit
  obtain rfl : tasks = tasks' := Except.ok.inj (hparse.symm.trans hparse')
  exact ((parseStream_ok hparse).2 task htask).gapSilent (hagree task htask)
    (zeroGaps_slot h htask hlimit).fits ((hend task htask).imp id fun hfull => hfull limit hlimit)

/-! ## The stream as a whole -/

/-- Gap zeroing keeps the meaning of the stream exactly when every gap is silent for the
converter's walk of the original bytes. -/
theorem zeroGaps_sameMeaning_iff (content mutated : Bytes) (tdCount : ℤ) (tasks after : List Task)
    (h : zeroGaps content tdCount = .ok (mutated, tasks, after)) :
    SameMeaning content mutated (tasks.map Task.base) ↔ GapsSilent content tdCount := by
  have hparse := (zeroGaps_ok h).1
  obtain ⟨hchain, htasks⟩ := parseStream_ok hparse
  have hslot (task : Task) (htask : task ∈ tasks) (limit : ℕ)
      (hlimit : (task.base, limit) ∈ slots content.size (tasks.map Task.base)) :
      (Hwx.walkRegisters (mutated.slice task.base limit) =
          Hwx.walkRegisters (content.slice task.base limit) ∧
        mutated.u32 (task.base + 0x1C) = content.u32 (task.base + 0x1C)) ↔
      GapSilent content task.base limit task.stop := by
    have hcleared := zeroGaps_slot h htask hlimit
    have hok := htasks task htask
    have hheader := hok.header
    have hlink : mutated.u32 (task.base + 0x1C) = content.u32 (task.base + 0x1C) :=
      hcleared.taskWord_eq.1 0x1C (by omega)
    rw [and_iff_left hlink]
    exact hcleared.sameDecode_iff hheader hok.stop_mod
  constructor
  · intro hsame tasks' hparse' task htask limit hlimit
    obtain rfl : tasks = tasks' := Except.ok.inj (hparse.symm.trans hparse')
    exact (hslot task htask limit hlimit).mp (hsame _ hlimit)
  · rintro hsilent ⟨base, limit⟩ hlimit
    obtain ⟨task, htask, rfl⟩ := List.mem_map.mp (slots_spec hchain hlimit).1
    exact (hslot task htask limit hlimit).mpr (hsilent tasks hparse task htask limit hlimit)

/-- One task of 56 bytes with the given header word 9, a zero word at byte 40 and one record
`0x13810 := 1792` at byte 44. -/
def extraWordTask (last : ℕ) : Bytes :=
  Bytes.ofNat 56 (0x40 + last <<< (8 * 36) + 0x13810 <<< (8 * 44) + 1792 <<< (8 * 48))

theorem zeroGaps_sameMeaning_iff_plainTask :
    SameMeaning (extraWordTask 0x26) (Bytes.ofNat 56 (0x40 + 0x26 <<< (8 * 36))) [0] := by
  have hzero : zeroGaps (extraWordTask 0x26) 1 =
      .ok (Bytes.ofNat 56 (0x40 + 0x26 <<< (8 * 36)), [⟨0, [], 40, true⟩], [⟨0, [], 40, true⟩]) := by
    decide +kernel
  exact (zeroGaps_sameMeaning_iff _ _ _ _ _ hzero).mpr
    (gapsSilent_of_agree hzero (by decide +kernel) (by simp))

/-- A task whose extra header word is zero: the parser ends its records at byte 40, and the
mutation clears the record the converter decodes at byte 44. -/
theorem zeroGaps_clears_decoded_record : ∃ mutated tasks after,
    zeroGaps (extraWordTask 0x23) 1 = .ok (mutated, tasks, after) ∧
      ¬ SameMeaning (extraWordTask 0x23) mutated (tasks.map Task.base) := by
  refine ⟨Bytes.ofNat 56 (0x40 + 0x23 <<< (8 * 36)), [⟨0, [], 40, true⟩], [⟨0, [], 40, true⟩],
    by decide +kernel, fun hsame => ?_⟩
  have hdecode := (hsame (0, 56) (by decide +kernel)).1
  have hvalue := congrArg (fun r : Py Registers => r.map fun m => m 0x13810) hdecode
  exact absurd hvalue (by decide +kernel)

end AneLinux.Staged
