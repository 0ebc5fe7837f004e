import AneLinux.Staged.GapZero

/-!
# Whose records a parsed task holds

The parser compares positions relative to a task with the next base, which is an offset from
the start of the stream. The two agree for the first task only. A later task may therefore
read records past its own slot, and does so exactly when its record stream does not close
there: a record header of the slot announces values beyond it, or the records fill the slot
and the next task's header word 0, nonzero, is taken for one more record header.
-/

namespace AneLinux.Staged

open AneLinux.Support AneLinux.Hwx

/-- Every record of a task ends at or before the next task's base. -/
def RecordsInOwnSlot (content : Bytes) (tasks : List Task) : Prop :=
  ∀ before task after, tasks = before ++ task :: after → ∀ record ∈ task.records,
    task.base + record.position + 4 + 4 * record.values.length ≤ (after.map Task.base).headD content.size

/-- The record stream of the slot between two bases closes inside it: it ends at a zero word,
or it fills the slot and the next task's header word 0 is zero. -/
def SlotCloses (content : Bytes) (base next : ℕ) : Prop :=
  let walk := walkRecords (taskWord content base) (next - base) (firstParsedRecord content base)
  walk.reason = .terminator ∨ walk.reason = .exhausted ∧ content.u32 next = 0

/-- The slots of every task of the chain but the first and the last close. -/
def SlotsClose (content : Bytes) (tdCount : ℤ) : Prop :=
  ∀ bases, walkChain content content.size tdCount = .ok bases →
    ∀ before base next after, bases = before ++ base :: next :: after → before ≠ [] →
      SlotCloses content base next

/-! ## Record walks and limits -/

section Walks

variable {word : ℕ → ℕ} {limit pos : ℕ}

/-- Every record of a walk ends inside its limit. -/
theorem record_end_le_limit {record : Record} (hrecord : record ∈ (walkRecords word limit pos).records) :
    record.position + 4 + 4 * record.values.length ≤ limit := by
  fun_induction walkRecords word limit pos with
  | case1 => cases hrecord
  | case2 => cases hrecord
  | case3 pos hle hzero hfit rest ih =>
    rcases List.mem_cons.mp hrecord with rfl | hrecord
    · simp only [List.length_map, List.length_range]
      omega
    · exact ih hrecord
  | case4 => cases hrecord

/-- A walk that ran out of words stopped within a word of its limit. -/
theorem walkRecords_exhausted (h : (walkRecords word limit pos).reason = .exhausted) (hpos : pos ≤ limit) :
    limit < (walkRecords word limit pos).stop + 4 ∧ (walkRecords word limit pos).stop ≤ limit := by
  fun_induction walkRecords word limit pos with
  | case1 => cases h
  | case2 => cases h
  | case3 pos hle hzero hfit rest ih => exact ih h (by omega)
  | case4 pos hle => exact ⟨by dsimp only; omega, hpos⟩

/-- A complete walk keeps its records inside a smaller limit exactly when the walk inside that
limit ends at a zero word, or is exhausted where the larger one stops too. -/
theorem records_end_le_iff {slot : ℕ} (hreason : (walkRecords word limit pos).reason ≠ .truncated)
    (hslot : slot ≤ limit) :
    (∀ record ∈ (walkRecords word limit pos).records,
        record.position + 4 + 4 * record.values.length ≤ slot) ↔
      (walkRecords word slot pos).reason = .terminator ∨
        (walkRecords word slot pos).reason = .exhausted ∧
          ((walkRecords word slot pos).stop + 4 ≤ limit → word (walkRecords word slot pos).stop = 0) := by
  fun_induction walkRecords word limit pos with
  | case1 pos hle hzero =>
    rw [walkRecords]
    split_ifs with hroom
    · simp
    · simp [hzero]
  | case2 pos hle hzero hcut => exact absurd rfl hreason
  | case3 pos hle hzero hfit rest ih =>
    rw [List.forall_mem_cons, ih hreason, List.length_map, List.length_range]
    conv_rhs => rw [walkRecords]
    split_ifs with hroom hcut
    · simp
      omega
    · dsimp only
      exact and_iff_right (by omega)
    · simp only [true_and, false_or, hle, hzero, forall_const, iff_false, not_and]
      omega
  | case4 pos hle =>
    rw [walkRecords, if_neg (by omega)]
    simp [hle]

end Walks

/-! ## The chain and its parse -/

variable {content : Bytes} {bases : List ℕ}

/-- The chain loop extends the chain it starts from. -/
theorem walkChainLoop_prefix {tskSize : ℕ} {tdCount : ℤ} {chain : List ℕ} {offset : ℕ}
    (h : walkChainLoop content tskSize tdCount chain offset = .ok bases) : ∃ more, bases = chain ++ more := by
  fun_induction walkChainLoop content tskSize tdCount chain offset with
  | case1 chain offset hcond ih =>
    obtain ⟨nxt, -, h⟩ := bind_eq_ok.mp h
    split_ifs at h with hzero hunaligned hpast
    · exact ⟨[offset], (Except.ok.inj h).symm⟩
    · obtain ⟨more, hmore⟩ := ih nxt h
      exact ⟨offset :: more, hmore.trans (List.append_assoc _ _ _)⟩
  | case2 chain offset hcond => exact ⟨[], by rw [List.append_nil, Except.ok.inj h]⟩

/-- A chain starts at offset 0. -/
theorem walkChain_head {tskSize : ℕ} {tdCount : ℤ} {base : ℕ} {rest : List ℕ}
    (h : walkChain content tskSize tdCount = .ok (base :: rest)) : base = 0 := by
  rw [walkChain, walkChainLoop] at h
  split_ifs at h
  · obtain ⟨nxt, -, h⟩ := bind_eq_ok.mp h
    split_ifs at h
    · exact (List.cons.inj (Except.ok.inj h)).1.symm
    · obtain ⟨more, hmore⟩ := walkChainLoop_prefix h
      exact (List.cons.inj hmore).1
  · cases Except.ok.inj h

/-- Each parsed task holds the records of the parser's own walk, and that walk is complete. -/
theorem parseTasks_walk {tasks : List Task} (hinside : ∀ base ∈ bases, base + 4 ≤ content.size)
    (h : parseTasks content bases = .ok tasks) {before after : List Task} {task : Task}
    (htasks : tasks = before ++ task :: after) :
    task.records = (parsedWalk content task.base ((after.map Task.base).headD content.size)).records ∧
      (parsedWalk content task.base ((after.map Task.base).headD content.size)).reason ≠ .truncated := by
  induction bases generalizing tasks before with
  | nil =>
    cases h
    exact absurd htasks.symm (by simp)
  | cons base rest ih =>
    have hrest : ∀ b ∈ rest, b + 4 ≤ content.size := fun b hb => hinside b (List.mem_cons_of_mem base hb)
    rw [parseTasks, parseTask_eq (hinside base List.mem_cons_self), ok_bind] at h
    split_ifs at h with htrunc hterm hshort
    obtain ⟨tail, htail, h⟩ := bind_eq_ok.mp h
    obtain rfl := Except.ok.inj h
    cases before with
    | nil =>
      obtain ⟨rfl, rfl⟩ := List.cons.inj htasks
      rw [(parseTasks_ok hrest htail).1]
      exact ⟨rfl, by simpa [TaskParse.ofWalk] using htrunc⟩
    | cons first before => exact ih hrest htail (List.cons.inj htasks).2

/-! ## The stream as a whole -/

/-- A task after the first keeps its records in its own slot exactly when the slot closes. -/
theorem slot_records_iff {base next : ℕ} (haligned : base % 0x100 = 0) (hnextAligned : next % 0x100 = 0)
    (hpositive : 0 < base) (hascending : base < next) (hinside : next + 0x20 ≤ content.size)
    (hreason : (parsedWalk content base next).reason ≠ .truncated) :
    (∀ record ∈ (parsedWalk content base next).records,
        base + record.position + 4 + 4 * record.values.length ≤ next) ↔ SlotCloses content base next := by
  have hslot : next - base ≤ taskLimit content base next := by
    rw [taskLimit]
    omega
  have hshift (position count : ℕ) : base + position + 4 + 4 * count ≤ next ↔
      position + 4 + 4 * count ≤ next - base := by omega
  simp only [hshift]
  rw [parsedWalk, records_end_le_iff hreason hslot, SlotCloses]
  apply or_congr_right
  apply and_congr_right
  intro hexhausted
  have hstop : (walkRecords (taskWord content base) (next - base) (firstParsedRecord content base)).stop =
      next - base := by
    have hfirst : firstParsedRecord content base ≤ 44 ∧ firstParsedRecord content base % 4 = 0 := by
      rw [firstParsedRecord, extraWords]
      split_ifs <;> omega
    have hmod := @walkRecords_stop_mod (taskWord content base) (next - base) (firstParsedRecord content base)
    have hend := walkRecords_exhausted hexhausted (by omega)
    omega
  rw [hstop, taskWord, Nat.add_sub_cancel' hascending.le]
  exact forall_prop_of_true (by rw [taskLimit]; omega)

/-- A parsed task after the first keeps its records in its own slot exactly when the slot closes. -/
theorem task_records_iff {before after : List Task} {task next : Task} (hchain : ChainOk content bases)
    (h : parseTasks content bases = .ok (before ++ task :: next :: after))
    (hascending : ((before ++ task :: next :: after).map Task.base).Pairwise (· < ·)) (hbefore : before ≠ []) :
    (∀ record ∈ task.records, task.base + record.position + 4 + 4 * record.values.length ≤ next.base) ↔
      SlotCloses content task.base next.base := by
  have hinside : ∀ base ∈ bases, base + 4 ≤ content.size := fun base hbase =>
    Nat.le_trans (Nat.add_le_add_left (by decide) base) (hchain.inside base hbase)
  have hmap := (parseTasks_ok hinside h).1
  have htask : task.base ∈ bases := hmap ▸ List.mem_map_of_mem (by simp)
  have hnext : next.base ∈ bases := hmap ▸ List.mem_map_of_mem (by simp)
  obtain ⟨first, rest, rfl⟩ := List.exists_cons_of_ne_nil hbefore
  obtain ⟨hrecords, hreason⟩ := parseTasks_walk hinside h rfl
  simp only [List.map_append, List.map_cons, List.cons_append, List.pairwise_cons, List.mem_append,
    List.mem_cons, List.pairwise_append] at hascending
  rw [hrecords]
  exact slot_records_iff (hchain.aligned _ htask) (hchain.aligned _ hnext)
    (Nat.lt_of_le_of_lt (Nat.zero_le _) (hascending.1 _ (Or.inr (Or.inl rfl))))
    (hascending.2.2.1.1 _ (Or.inl rfl)) (hchain.inside _ hnext) hreason

/-- The records of every parsed task lie in its own slot exactly when the slots after the first
and before the last close. -/
theorem parseStream_attributes_iff (content : Bytes) (tdCount : ℤ) (tasks : List Task)
    (h : parseStream content tdCount = .ok tasks) (hascending : (tasks.map Task.base).Pairwise (· < ·)) :
    RecordsInOwnSlot content tasks ↔ SlotsClose content tdCount := by
  obtain ⟨bases, hbases, h⟩ := bind_eq_ok.mp h
  split_ifs at h with hcount
  have hchain := walkChain_ok hbases
  have hinside : ∀ base ∈ bases, base + 4 ≤ content.size := fun base hbase =>
    Nat.le_trans (Nat.add_le_add_left (by decide) base) (hchain.inside base hbase)
  have hmap := (parseTasks_ok hinside h).1
  constructor
  · intro hown bases' hbases' before base next after hsplit hbefore
    obtain rfl : bases = bases' := Except.ok.inj (hbases.symm.trans hbases')
    rw [← hmap, List.map_eq_append_iff] at hsplit
    obtain ⟨first, rest, htasks, rfl, hrest⟩ := hsplit
    obtain ⟨task, rest', rfl, rfl, hrest'⟩ := List.map_eq_cons_iff.mp hrest
    obtain ⟨follower, last, rfl, rfl, -⟩ := List.map_eq_cons_iff.mp hrest'
    subst htasks
    exact (task_records_iff hchain h hascending fun hnil => hbefore (by rw [hnil]; rfl)).mp (hown first task _ rfl)
  · intro hclose before task after htasks record hrecord
    have hend : record.position + 4 + 4 * record.values.length ≤
        taskLimit content task.base ((after.map Task.base).headD content.size) := by
      apply record_end_le_limit
      rwa [(parseTasks_walk hinside h htasks).1] at hrecord
    rw [taskLimit] at hend
    cases after with
    | nil =>
      rw [List.map_nil, List.headD_nil] at hend ⊢
      omega
    | cons next after =>
      cases before with
      | nil =>
        have hfirst : task.base = 0 := by
          rw [← hmap, htasks] at hbases
          exact walkChain_head hbases
        rw [List.map_cons, List.headD_cons] at hend ⊢
        omega
      | cons first rest =>
        subst htasks
        refine (task_records_iff hchain h hascending (List.cons_ne_nil _ _)).mpr ?_ record hrecord
        refine hclose bases hbases ((first :: rest).map Task.base) _ _ (after.map Task.base) ?_ (by simp)
        rw [← hmap, List.map_append, List.map_cons, List.map_cons, List.map_cons]

/-- A stream of 0x230 bytes with tasks linked 0, 0x100, 0x200, and one record of the middle
task with the given number of values less one. -/
def threeTasks (count : ℕ) : Bytes :=
  Bytes.ofFields 0x230 [(0x1C, 0x100), (0x11C, 0x200), (0x128, count <<< 26 + 0x100)]

theorem parseStream_attributes_iff_twoValues :
    RecordsInOwnSlot (threeTasks 1) [⟨0, [], 40, true⟩, ⟨0x100, [⟨40, 0x100, [0, 0]⟩], 52, true⟩,
      ⟨0x200, [], 40, true⟩] ↔ SlotsClose (threeTasks 1) 3 :=
  parseStream_attributes_iff _ _ _ (by decide +kernel) (by decide +kernel)

/-- The middle task declares 64 values: the parser accepts the stream and gives that task a
record that ends in the third one. -/
theorem parseStream_takes_successor : ∃ tasks, parseStream (threeTasks 63) 3 = .ok tasks ∧
    (tasks.map Task.base).Pairwise (· < ·) ∧ ¬ RecordsInOwnSlot (threeTasks 63) tasks := by
  refine ⟨[⟨0, [], 40, true⟩, ⟨0x100, [⟨40, 0x100, List.replicate 64 0⟩], 300, true⟩, ⟨0x200, [], 40, true⟩],
    by decide +kernel, by decide +kernel, fun hown => ?_⟩
  exact absurd (hown [_] _ [_] rfl _ (List.mem_singleton.mpr rfl)) (by decide)

end AneLinux.Staged
