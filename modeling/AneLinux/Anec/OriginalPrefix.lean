import AneLinux.Anec.Bootstrap
import AneLinux.Hwx.ParseSpec
import Mathlib.Data.List.Chain

/-!
# The original-layout prefix

`buildOriginalPrefix` terminates the task at position `k` of the sorted base list, while the
engine runs the tasks in the order of their links. The stream it returns runs exactly the first
`k` tasks when the two orders agree at `k`: the `k`-th task of the chain is the `k`-th base.
-/

namespace AneLinux.Anec

open AneLinux.Support AneLinux.Hwx

/-- A task links to the next one: aligned, nonzero, with its header inside the stream. -/
def NextTask (stream : Bytes) (task next : ℕ) : Prop :=
  next = stream.u32 (task + 0x1C) ∧ next ≠ 0 ∧ next % 0x100 = 0 ∧ next + 0x20 ≤ stream.size

/-- Following the links from `first` visits the given tasks and then `task`. -/
def Visits (stream : Bytes) (first : ℕ) (visited : List ℕ) (task : ℕ) : Prop :=
  (visited ++ [task]).head? = some first ∧ (visited ++ [task]).IsChain (NextTask stream)

/-- The terminal fields of a task are set. -/
structure Terminal (stream : Bytes) (task : ℕ) : Prop where
  header : stream.get (task + 3) &&& 0x03 = 0x03
  nextSizeLow : stream.get (task + 6) = 0
  nextSizeHigh : stream.get (task + 7) &&& 0x01 = 0
  link : stream.u32 (task + 0x1C) = 0

/-- A stream differs from the original in the terminal fields of one task only. -/
structure DiffersAt (original stream : Bytes) (task : ℕ) : Prop where
  size : stream.size = original.size
  before : ∀ i < task, stream.get i = original.get i
  kept : ∀ k, stream.get (task + k) &&& keptByTermination k = original.get (task + k) &&& keptByTermination k

/-- The stream runs exactly the first `k` tasks of the original chain: it differs from the
original only in the terminal fields of the `k`-th one, and stops there. -/
def RunsFirst (original stream : Bytes) (first k : ℕ) : Prop :=
  ∃ visited task, visited.length + 1 = k ∧ Visits original first visited task ∧
    Visits stream first visited task ∧ DiffersAt original stream task ∧ Terminal stream task

/-- The `k`-th task of the chain is reached there for the first time, and is the given base, or
both are terminal as they are. -/
def ChainOrderAgrees (original : Bytes) (first k base : ℕ) : Prop :=
  ∃ visited task, visited.length + 1 = k ∧ Visits original first visited task ∧ task ∉ visited ∧
    (task = base ∨ Terminal original task ∧ Terminal original base)

variable {stream original : Bytes} {first task base : ℕ} {visited : List ℕ}

/-! ## Terminal tasks -/

theorem terminal_header (byte : UInt8) : (byte ||| 0x03) &&& 0x03 = 0x03 ∧
    (byte &&& 0x03 = 0x03 → byte ||| 0x03 = byte) := by
  have hall : ∀ n : Fin 256, (UInt8.ofNat n ||| 0x03) &&& 0x03 = 0x03 ∧
      (UInt8.ofNat n &&& 0x03 = 0x03 → UInt8.ofNat n ||| 0x03 = UInt8.ofNat n) := by decide +kernel
  have hbyte := hall ⟨byte.toNat, byte.toNat_lt⟩
  rwa [UInt8.ofNat_toNat] at hbyte

theorem terminal_nextSize (byte : UInt8) : byte &&& 0xFE &&& 0x01 = 0 ∧
    (byte &&& 0x01 = 0 → byte &&& 0xFE = byte) := by
  have hall : ∀ n : Fin 256, UInt8.ofNat n &&& 0xFE &&& 0x01 = 0 ∧
      (UInt8.ofNat n &&& 0x01 = 0 → UInt8.ofNat n &&& 0xFE = UInt8.ofNat n) := by decide +kernel
  have hbyte := hall ⟨byte.toNat, byte.toNat_lt⟩
  rwa [UInt8.ofNat_toNat] at hbyte

/-- A word is zero when its bytes are, and conversely. -/
theorem u32_eq_zero_iff (d : Bytes) (offset : ℕ) : d.u32 offset = 0 ↔ ∀ k < 4, d.get (offset + k) = 0 := by
  constructor
  · intro h k hk
    rw [d.get_eq_leNat_shiftRight offset 4 k hk, ← Bytes.u32, h, Nat.zero_shiftRight]
    rfl
  · intro h
    have hzero : d.u32 offset = (Bytes.zeros 4).u32 0 := by
      apply Bytes.u32_congr
      intro k hk
      rw [h k hk, Bytes.get_zeros]
    exact hzero

/-- A terminated task is terminal. -/
theorem terminal_terminated (h : task + 0x20 ≤ stream.size) : Terminal (terminated stream task) task where
  header := by
    rw [get_terminated h]
    exact (terminal_header _).1
  nextSizeLow := by
    rw [get_terminated h]
    rfl
  nextSizeHigh := by
    rw [get_terminated h]
    exact (terminal_nextSize _).1
  link := by
    rw [u32_eq_zero_iff]
    intro k hk
    rw [Nat.add_assoc, get_terminated h, terminalByte, if_neg (by omega), if_neg (by omega),
      if_neg (by omega), if_pos (by omega)]

/-- Terminating a terminal task changes nothing. -/
theorem Terminal.terminated_eq (h : Terminal stream task) (hstream : task + 0x20 ≤ stream.size) :
    terminated stream task = stream := by
  apply Bytes.ext_get
  · rfl
  intro i hi
  by_cases hbefore : i < task
  · exact get_terminated_of_lt hbefore
  obtain ⟨k, rfl⟩ := Nat.exists_eq_add_of_le (Nat.le_of_not_lt hbefore)
  rw [get_terminated hstream, terminalByte]
  split_ifs with h3 h6 h7 hlink
  · rw [h3]
    exact (terminal_header _).2 h.header
  · rw [h6, h.nextSizeLow]
  · rw [h7]
    exact (terminal_nextSize _).2 h.nextSizeHigh
  · obtain ⟨m, rfl⟩ := Nat.exists_eq_add_of_le hlink.1
    rw [← Nat.add_assoc]
    exact ((u32_eq_zero_iff _ _).mp h.link m (by omega)).symm
  · rfl

theorem Terminal.congr (h : Terminal stream task)
    (hsame : ∀ k < 0x20, original.get (task + k) = stream.get (task + k)) : Terminal original task where
  header := by rw [hsame 3 (by omega), h.header]
  nextSizeLow := by rw [hsame 6 (by omega), h.nextSizeLow]
  nextSizeHigh := by rw [hsame 7 (by omega), h.nextSizeHigh]
  link := by
    rw [← h.link]
    apply Bytes.u32_congr
    intro k hk
    rw [Nat.add_assoc, hsame _ (by omega)]

theorem differsAt_terminated (h : task + 0x20 ≤ stream.size) : DiffersAt stream (terminated stream task) task where
  size := rfl
  before _ hi := get_terminated_of_lt hi
  kept k := by rw [get_terminated h, terminalByte_and_kept]

/-- A header away from the changed task is the original one. -/
theorem DiffersAt.get_of_ne (h : DiffersAt original stream task) (htask : task % 0x100 = 0)
    (hbase : base % 0x100 = 0) (hne : base ≠ task) {k : ℕ} (hk : k < 0x20) :
    stream.get (base + k) = original.get (base + k) := by
  by_cases hbefore : base < task
  · exact h.before _ (by omega)
  · obtain ⟨m, hm⟩ := Nat.exists_eq_add_of_le (show task ≤ base + k by omega)
    have hkept := h.kept m
    rw [← hm, keptByTermination, if_neg (by omega), if_neg (by omega), if_neg (by omega),
      if_neg (by omega)] at hkept
    have hall (byte : UInt8) : byte &&& 0xFF = byte := UInt8.and_neg_one
    rwa [hall, hall] at hkept

/-! ## Chains -/

/-- Every task of a chain from an aligned one is aligned. -/
theorem Visits.aligned (h : Visits stream first visited task) (hfirst : first % 0x100 = 0) :
    ∀ a ∈ visited ++ [task], a % 0x100 = 0 := by
  intro a ha
  obtain ⟨before, after, hsplit⟩ := List.append_of_mem ha
  rcases List.eq_nil_or_concat before with rfl | ⟨earlier, prior, rfl⟩
  · have hhead := h.1
    rw [hsplit] at hhead
    obtain rfl := Option.some.inj hhead
    exact hfirst
  · have hchain := h.2
    rw [hsplit, List.concat_eq_append, List.append_assoc, List.singleton_append,
      List.isChain_append_cons_cons] at hchain
    exact hchain.2.1.2.2.1

/-- Two consecutive tasks of a chain: the first of them is among those before the last. -/
theorem mem_visited_of_eq {a b : ℕ} {before after : List ℕ} (h : visited ++ [task] = before ++ a :: b :: after) :
    a ∈ visited := by
  rcases List.eq_nil_or_concat (b :: after) with hnil | ⟨inner, last, hinner⟩
  · cases hnil
  · rw [hinner, List.concat_eq_append, ← List.cons_append, ← List.append_assoc] at h
    rw [(List.append_inj' h rfl).1]
    simp

/-- A chain is followed in any stream of the same size that keeps the links of the tasks before the last. -/
theorem Visits.congr (h : Visits original first visited task) (hsize : stream.size = original.size)
    (hlinks : ∀ a ∈ visited, stream.u32 (a + 0x1C) = original.u32 (a + 0x1C)) :
    Visits stream first visited task := by
  refine ⟨h.1, List.isChain_iff_forall_rel_of_append_cons_cons.mpr fun a b before after hsplit => ?_⟩
  obtain ⟨hnext, hrest⟩ := List.isChain_iff_forall_rel_of_append_cons_cons.mp h.2 hsplit
  rw [NextTask, hlinks a (mem_visited_of_eq hsplit), hsize]
  exact ⟨hnext, hrest⟩

/-- A chain that goes on from a task has a link there. -/
theorem Visits.not_mem_of_link (h : Visits stream first visited task) (hlink : stream.u32 (task + 0x1C) = 0) :
    task ∉ visited := by
  intro hmem
  obtain ⟨before, after, rfl⟩ := List.append_of_mem hmem
  have hchain := h.2
  rw [List.append_assoc, List.cons_append] at hchain
  cases after with
  | nil =>
    rw [List.nil_append, List.isChain_append_cons_cons] at hchain
    exact hchain.2.1.2.1 (hchain.2.1.1.trans hlink)
  | cons next after =>
    rw [List.cons_append, List.isChain_append_cons_cons] at hchain
    exact hchain.2.1.2.1 (hchain.2.1.1.trans hlink)

/-! ## The prefix -/

/-- The terminated stream runs the first `k` tasks exactly when the chain order agrees at `k`. -/
theorem terminated_runsFirst_iff {k : ℕ} (hfirst : first % 0x100 = 0) (hbase : base % 0x100 = 0)
    (hstream : base + 0x20 ≤ original.size) :
    RunsFirst original (terminated original base) first k ↔ ChainOrderAgrees original first k base := by
  have hdiffers := differsAt_terminated hstream
  have hterminal := terminal_terminated hstream
  constructor
  · intro h
    obtain ⟨visited, task, hk, horiginal, hvisits, hat, hstop⟩ := h
    refine ⟨visited, task, hk, horiginal, hvisits.not_mem_of_link hstop.link, ?_⟩
    have htask : task % 0x100 = 0 := hvisits.aligned hfirst task (by simp)
    by_cases hsame : task = base
    · exact Or.inl hsame
    · refine Or.inr ⟨hstop.congr fun m hm => ?_, hterminal.congr fun m hm => ?_⟩
      · exact (hdiffers.get_of_ne hbase htask hsame hm).symm
      · exact (hat.get_of_ne htask hbase (Ne.symm hsame) hm).symm
  · intro h
    obtain ⟨visited, task, hk, horiginal, hnew, hlast⟩ := h
    rcases hlast with rfl | ⟨hstop, hend⟩
    · refine ⟨visited, task, hk, horiginal, ?_, hdiffers, hterminal⟩
      apply horiginal.congr size_terminated
      intro a ha
      apply Bytes.u32_congr
      intro m hm
      have haligned := horiginal.aligned hfirst a (List.mem_append_left _ ha)
      rw [Nat.add_assoc]
      exact hdiffers.get_of_ne hbase haligned (fun heq => hnew (heq ▸ ha)) (by omega)
    · rw [hend.terminated_eq hstream]
      exact ⟨visited, task, hk, horiginal, horiginal, ⟨rfl, fun _ _ => rfl, fun _ => rfl⟩, hstop⟩

/-- For every artifact and every count of its tasks, the prefix is built, and runs exactly the
first tasks of the chain when and only when the chain order agrees with the base order there. -/
theorem buildOriginalPrefix_runsFirst_iff (data : Bytes) (start taskStreamSize : ℕ) (bases : List ℕ)
    (hbases : findTaskOffsets data start taskStreamSize = .ok bases) (first : ℕ)
    (hfirst : bases.head? = some first) (k base : ℕ) (hk : 1 ≤ k) (hbase : bases[k - 1]? = some base) :
    (∃ stream, buildOriginalPrefix data start taskStreamSize bases k = .ok stream ∧
      RunsFirst (data.slice start (start + taskStreamSize)) stream first k) ↔
      ChainOrderAgrees (data.slice start (start + taskStreamSize)) first k base := by
  obtain ⟨hroom, -, hplaced, -⟩ := (findTaskOffsets_meets ..).value hbases
  obtain ⟨hlast, hvalue⟩ := List.getElem?_eq_some_iff.mp hbase
  obtain ⟨hbaseAligned, hbaseInside⟩ := hplaced base (hvalue ▸ List.getElem_mem hlast)
  have hfirstAligned := (hplaced first (List.mem_of_mem_head? hfirst)).1
  have hsize : (data.slice start (start + taskStreamSize)).size = taskStreamSize := by
    rw [Bytes.size_slice]
    omega
  have hinside : base + 0x20 ≤ (data.slice start (start + taskStreamSize)).size := by
    rw [InSection, taskHeaderSize] at hbaseInside
    omega
  have hbuild : buildOriginalPrefix data start taskStreamSize bases k =
      .ok (terminated (data.slice start (start + taskStreamSize)) base) := by
    have hindex : index bases ((k : ℤ).toNat - 1) = .ok base := index_eq_ok.mpr hbase
    have hend : ((start : ℤ) + taskStreamSize).toNat = start + taskStreamSize := by omega
    rw [buildOriginalPrefix, if_neg (by omega), copyTaskStream, if_neg (by omega), Int.toNat_natCast, hend]
    change (index bases ((k : ℤ).toNat - 1) >>= fun task : ℕ =>
      terminateTask (data.slice start (start + taskStreamSize)) task) = _
    rw [hindex, ok_bind, terminateTask_eq hinside]
  rw [hbuild, ← terminated_runsFirst_iff hfirstAligned hbaseAligned hinside]
  constructor
  · intro h
    obtain ⟨stream, hstream, hruns⟩ := h
    rwa [Except.ok.inj hstream]
  · exact fun h => ⟨_, rfl, h⟩

/-- A stream of 0x22C bytes with the links 0, `second`, `third` and a task record at 0. -/
def linkedStream (second third : ℕ) : Bytes :=
  Bytes.ofFields 0x22C [(0x1C, second), (0x28, 0x1F800), (second + 0x1C, third)]

theorem buildOriginalPrefix_runsFirst_iff_ascending :
    (∃ stream, buildOriginalPrefix (linkedStream 0x100 0x200) 0 0x22C [0, 0x100, 0x200] 2 = .ok stream ∧
      RunsFirst ((linkedStream 0x100 0x200).slice 0 (0 + 0x22C)) stream 0 2) ↔
      ChainOrderAgrees ((linkedStream 0x100 0x200).slice 0 (0 + 0x22C)) 0 2 0x100 :=
  buildOriginalPrefix_runsFirst_iff _ 0 0x22C _ (by decide +kernel) 0 rfl 2 0x100 (by decide) rfl

/-- Tasks linked 0, 0x200, 0x100: the prefix of two tasks terminates the third one. -/
theorem buildOriginalPrefix_runs_all :
    findTaskOffsets (linkedStream 0x200 0x100) 0 0x22C = .ok [0, 0x100, 0x200] ∧
      ¬ ∃ stream, buildOriginalPrefix (linkedStream 0x200 0x100) 0 0x22C [0, 0x100, 0x200] 2 = .ok stream ∧
        RunsFirst ((linkedStream 0x200 0x100).slice 0 (0 + 0x22C)) stream 0 2 := by
  refine ⟨by decide +kernel, fun h => ?_⟩
  obtain ⟨stream, hbuild, visited, task, hk, horiginal, -, -, hterminal⟩ := h
  obtain ⟨a, rfl⟩ := List.length_eq_one_iff.mp (show visited.length = 1 by omega)
  obtain rfl : a = 0 := Option.some.inj horiginal.1
  have hnext := (List.isChain_pair.mp horiginal.2).1
  have hlink : (buildOriginalPrefix (linkedStream 0x200 0x100) 0 0x22C [0, 0x100, 0x200] 2).map
      (·.u32 0x21C) = .ok 0x100 := by decide +kernel
  rw [hbuild] at hlink
  have htask : task = 0x200 := hnext.trans (by decide +kernel)
  have hstop := hterminal.link
  rw [htask] at hstop
  exact absurd (hstop.symm.trans (Except.ok.inj hlink)) (by decide)

end AneLinux.Anec
