import AneLinux.Anec.Submit
import AneLinux.Hwx.HeaderExtents
import AneLinux.Support.Dict

/-!
# Channel totals of an artifact

The staged runtime reads the byte counts of every channel out of the task descriptors. It measures
each task by the distance to the next base, in a table keyed by the bases inside the content, and
looks the task up by its place in the file. A place in the file is `0x1000` past the base, so the
lookup misses, or finds the task `0x1000` bytes further on.
-/

namespace AneLinux.Staged

open AneLinux.Support AneLinux.Anec AneLinux.Hwx

/-- The descriptors linked from `offset` on, at most `count` of them. -/
def linkedTasks (data : Bytes) : ℕ → List ℕ → ℕ → Py (List ℕ)
  | 0, _, _ => return []
  | count + 1, seen, offset =>
    if offset ∈ seen then
      return []
    else do
      let next ← unpackU32 data (offset + 0x1C)
      if next = 0 then
        return [offset]
      else do
        let chain ← linkedTasks data count (offset :: seen) (contentStart + next)
        return offset :: chain

/-- The distance from every bound to the next one, and from the last one to the end in the file. -/
def measureTasks (taskStreamSize : ℕ) : List ℕ → List (ℕ × ℕ)
  | [] => []
  | base :: rest =>
    (base, min (rest.head?.getD (contentStart + taskStreamSize) - base) 0x40000) ::
      measureTasks taskStreamSize rest

/-- The extents of the tasks by base. -/
def extentOf (taskStreamSize : ℕ) (bases : List ℕ) : List (ℕ × ℕ) :=
  dict (measureTasks taskStreamSize (sorted bases))

/-- The bytes the decoder takes for the task at one place in the file. -/
def inspectedTask (data : Bytes) (stage : Geometry) (bases : List ℕ) (base : ℕ) : Bytes :=
  let extent := (find (extentOf stage.taskStreamSize bases) base).getD stage.tdSize
  data.slice base (base + max extent stage.tdSize)

/-- A word pair that can be the run and the total of a window. -/
def isCountPair (validTotals : Option (List ℕ)) (run total : ℕ) : Bool :=
  total ≠ 0 ∧ run ≠ 0 ∧ 0x20 ≤ run ∧ run ≤ total ∧ 0x400 ≤ total ∧ validTotals.all fun totals => total ∈ totals

/-- The count pairs among adjacent words of a descriptor. -/
def countPairs (validTotals : Option (List ℕ)) (td : Bytes) : List (ℕ × ℕ) :=
  let words := (range 40 (td.size - 3) 4).map td.u32
  (words.zip words.tail).filter fun pair => isCountPair validTotals pair.1 pair.2

/-- Raise the read total of a channel, or its write total for the destination field. -/
def raiseTotal (shift : ℕ) (totals pair : ℕ × ℕ) : ℕ × ℕ :=
  if shift = 12 then (totals.1, max totals.2 pair.2) else (max totals.1 pair.2, totals.2)

/-- Raise the totals of the channel in one field of a selector. -/
def addChannel (selector : ℕ) (pairs : List (ℕ × ℕ)) (channels : List (ℕ × ℕ × ℕ)) (shift : ℕ) :
    List (ℕ × ℕ × ℕ) :=
  let channel := selector >>> shift &&& 0x1F
  if channel = 0 then
    channels
  else
    assign channels channel (pairs.foldl (raiseTotal shift) ((find channels channel).getD (0, 0)))

/-- Raise the totals of the channels one task names. -/
def addTask (data : Bytes) (stage : Geometry) (bases : List ℕ) (validTotals : Option (List ℕ))
    (channels : List (ℕ × ℕ × ℕ)) (base : ℕ) : Py (List (ℕ × ℕ × ℕ)) := do
  let td := inspectedTask data stage bases base
  let selector ← unpackU32 td 32
  return [0, 6, 12, 18].foldl (addChannel selector (countPairs validTotals td)) channels

/-- `decode_channels`: the geometry and the read and write totals of every channel. -/
def decodeChannels (data : Bytes) (validTotals : Option (List ℕ)) : Py (Geometry × List (ℕ × ℕ × ℕ)) := do
  let header ← loadAnecHeader data
  let stage ← stageGeometry header
  let bases ← taskBases data stage.taskStreamSize
  let chain ← linkedTasks data stage.tdCount [] contentStart
  let channels ← chain.foldlM (addTask data stage bases validTotals) []
  return (stage, channels)

/-! ## True extents -/

/-- The base after a base, or the end after the last one. -/
def nextBase (bases : List ℕ) (stop base : ℕ) : ℕ := (bases.find? (base < ·)).getD stop

section Measures

variable {bases : List ℕ} {base size : ℕ}

theorem lt_nextBase {stop : ℕ} (h : base < stop) : base < nextBase bases stop base := by
  unfold nextBase
  cases hfind : bases.find? (base < ·) with
  | none => exact h
  | some next => simpa using List.find?_some hfind

theorem nextBase_le {stop : ℕ} (h : ∀ base ∈ bases, base ≤ stop) : nextBase bases stop base ≤ stop := by
  unfold nextBase
  cases hfind : bases.find? (base < ·) with
  | none => exact le_refl stop
  | some next => exact h next (List.mem_of_find?_eq_some hfind)

/-- The next base is no further than any greater one. -/
theorem nextBase_le_of_mem {stop later : ℕ} (hsorted : bases.Pairwise (· < ·)) (hmem : later ∈ bases)
    (hlt : base < later) : nextBase bases stop base ≤ later := by
  induction bases with
  | nil => cases hmem
  | cons first rest ih =>
    obtain ⟨hfirst, hrest⟩ := List.pairwise_cons.mp hsorted
    unfold nextBase
    rw [List.find?_cons]
    by_cases hbefore : base < first
    · rw [decide_eq_true hbefore]
      rcases List.mem_cons.mp hmem with rfl | hlater
      · exact le_refl _
      · exact (hfirst later hlater).le
    · rw [decide_eq_false hbefore]
      rcases List.mem_cons.mp hmem with rfl | hlater
      · exact absurd hlt hbefore
      · exact ih hrest hlater

/-- Every base of a sorted list is measured by the distance to its next base. -/
theorem mem_measureTasks (hsorted : bases.Pairwise (· < ·)) {extent : ℕ} :
    (base, extent) ∈ measureTasks size bases ↔
      base ∈ bases ∧ extent = min (nextBase bases (contentStart + size) base - base) 0x40000 := by
  induction bases with
  | nil => simp [measureTasks]
  | cons first rest ih =>
    obtain ⟨hfirst, hrest⟩ := List.pairwise_cons.mp hsorted
    have hhead : nextBase (first :: rest) (contentStart + size) first =
        rest.head?.getD (contentStart + size) := by
      unfold nextBase
      rw [List.find?_cons, decide_eq_false (lt_irrefl first)]
      cases rest with
      | nil => rfl
      | cons next rest =>
        rw [List.find?_cons, decide_eq_true (hfirst next List.mem_cons_self)]
        rfl
    have htail (hbase : base ∈ rest) : nextBase (first :: rest) (contentStart + size) base =
        nextBase rest (contentStart + size) base := by
      unfold nextBase
      rw [List.find?_cons, decide_eq_false (Nat.lt_asymm (hfirst base hbase))]
    rw [measureTasks, List.mem_cons, List.mem_cons, Prod.mk.injEq, ih hrest, ← hhead]
    constructor
    · rintro (⟨rfl, rfl⟩ | ⟨hbase, rfl⟩)
      · exact ⟨Or.inl rfl, rfl⟩
      · exact ⟨Or.inr hbase, by rw [htail hbase]⟩
    · rintro ⟨rfl | hbase, rfl⟩
      · exact Or.inl ⟨rfl, rfl⟩
      · exact Or.inr ⟨hbase, by rw [htail hbase]⟩

/-- A place in the file has the extent of the base of that number, if there is one. -/
theorem find_extentOf (hsorted : bases.Pairwise (· < ·)) : find (extentOf size bases) base =
    if base ∈ bases then some (min (nextBase bases (contentStart + size) base - base) 0x40000) else none := by
  have hkeys : ((measureTasks size bases).map Prod.fst).Nodup := by
    have hbases : (measureTasks size bases).map Prod.fst = bases := by
      clear hsorted
      induction bases with
      | nil => rfl
      | cons first rest ih => rw [measureTasks, List.map_cons, ih]
    rw [hbases]
    exact hsorted.imp Nat.ne_of_lt
  have hsame : sorted bases = bases := List.Pairwise.insertionSort_eq (hsorted.imp Nat.le_of_lt)
  unfold extentOf
  rw [hsame]
  by_cases hbase : base ∈ bases
  · rw [if_pos hbase]
    exact (find_dict_eq_some_iff hkeys).mpr ((mem_measureTasks hsorted).mpr ⟨hbase, rfl⟩)
  · rw [if_neg hbase]
    refine Option.eq_none_iff_forall_not_mem.mpr fun extent hextent => hbase ?_
    exact ((mem_measureTasks hsorted).mp ((find_dict_eq_some_iff hkeys).mp hextent)).1

end Measures

/-- The task at a base is measured right: the header's descriptor size is the distance to the next
base, or reaches past it only where the file ends. Where the place of the task in the file is a base
as well, the larger of the descriptor size and that task's extent is the distance. -/
structure MeasuredRight (data : Bytes) (stage : Geometry) (bases : List ℕ) (base : ℕ) : Prop where
  missed : contentStart + base ∉ bases →
    nextBase bases stage.taskStreamSize base - base = stage.tdSize ∨
      nextBase bases stage.taskStreamSize base - base ≤ stage.tdSize ∧
        data.size = contentStart + nextBase bases stage.taskStreamSize base
  shifted : contentStart + base ∈ bases →
    nextBase bases stage.taskStreamSize base - base =
      max (min (nextBase bases (contentStart + stage.taskStreamSize) (contentStart + base) -
        (contentStart + base)) 0x40000) stage.tdSize

/-- The decoder takes exactly the bytes up to the next base for a task that is measured right. -/
theorem inspectedTask_eq_iff {data : Bytes} {stage : Geometry} {bases : List ℕ} {base : ℕ}
    (htasks : taskBases data stage.taskStreamSize = .ok bases) (hbase : base ∈ bases) :
    inspectedTask data stage bases (contentStart + base) =
        data.slice (contentStart + base) (contentStart + nextBase bases stage.taskStreamSize base) ↔
      MeasuredRight data stage bases base := by
  obtain ⟨hroom, hsorted, hplaced, -⟩ := findTaskOffsets_eq_ok htasks
  have hinside (other : ℕ) (h : other ∈ bases) : other + 0x2C ≤ stage.taskStreamSize := (hplaced other h).2
  have hlt := @lt_nextBase bases base stage.taskStreamSize (by have := hinside base hbase; omega)
  have hle := @nextBase_le bases base stage.taskStreamSize fun other h => by have := hinside other h; omega
  have hsizes (stop stop' : ℕ) : data.slice (contentStart + base) stop = data.slice (contentStart + base) stop' ↔
      min stop data.size - (contentStart + base) = min stop' data.size - (contentStart + base) := by
    constructor
    · intro h
      exact congrArg Bytes.size h
    · intro h
      apply Bytes.ext_get h
      intro i hi
      rw [Bytes.size_slice] at hi
      rw [Bytes.get_slice_of_lt _ (by omega), Bytes.get_slice_of_lt _ (by omega)]
  unfold inspectedTask
  dsimp only
  rw [find_extentOf hsorted, hsizes]
  by_cases hkey : contentStart + base ∈ bases
  · have hafter := @nextBase_le_of_mem bases base stage.taskStreamSize _ hsorted hkey (by unfold contentStart; omega)
    have hlast := hinside _ hkey
    rw [if_pos hkey, Option.getD_some]
    constructor
    · intro h
      exact ⟨fun hmissed => absurd hkey hmissed, fun _ => by omega⟩
    · intro h
      have hdistance := h.shifted hkey
      omega
  · rw [if_neg hkey, Option.getD_none]
    constructor
    · intro h
      exact ⟨fun _ => by omega, fun hshifted => absurd hshifted hkey⟩
    · intro h
      have hdistance := h.missed hkey
      omega

/-! ## Reported totals -/

/-- The count pair with this total that begins at the `k`-th word of the records of the task. -/
structure PairAt (data : Bytes) (validTotals : Option (List ℕ)) (start stop total k : ℕ) : Prop where
  inside : start + 40 + 4 * k + 8 ≤ stop
  isTotal : data.u32 (start + 40 + 4 * k + 4) = total
  isPair : isCountPair validTotals (data.u32 (start + 40 + 4 * k)) total = true

/-- A total of a count pair inside a task whose selector names the channel in one of the fields. -/
def OwnTotal (data : Bytes) (stage : Geometry) (bases : List ℕ) (validTotals : Option (List ℕ))
    (fields : List ℕ) (channel total : ℕ) : Prop :=
  ∃ base ∈ bases, (∃ shift ∈ fields, data.u32 (contentStart + base + 32) >>> shift &&& 0x1F = channel) ∧
    ∃ k, PairAt data validTotals (contentStart + base)
      (contentStart + nextBase bases stage.taskStreamSize base) total k

/-- Every nonzero total of a table comes from a task that names its channel: read totals in the
source fields, write totals in the destination field. -/
def OwnTotals (data : Bytes) (stage : Geometry) (bases : List ℕ) (validTotals : Option (List ℕ))
    (channels : List (ℕ × ℕ × ℕ)) : Prop :=
  ∀ channel totals, find channels channel = some totals →
    (totals.1 ≠ 0 → OwnTotal data stage bases validTotals [0, 6, 18] channel totals.1) ∧
      (totals.2 ≠ 0 → OwnTotal data stage bases validTotals [12] channel totals.2)

/-- The pairs of a descriptor are adjacent words of its records. -/
theorem exists_of_mem_countPairs {validTotals : Option (List ℕ)} {td : Bytes} {pair : ℕ × ℕ}
    (h : pair ∈ countPairs validTotals td) :
    ∃ k, 40 + 4 * k + 8 ≤ td.size ∧ td.u32 (40 + 4 * k) = pair.1 ∧ td.u32 (40 + 4 * k + 4) = pair.2 ∧
      isCountPair validTotals pair.1 pair.2 = true := by
  obtain ⟨hzip, hpair⟩ := List.mem_filter.mp h
  obtain ⟨k, hk⟩ := List.mem_iff_getElem?.mp hzip
  obtain ⟨hrun, htotal⟩ := List.getElem?_zip_eq_some.mp hk
  rw [range, List.map_map, List.getElem?_map] at hrun
  rw [List.getElem?_tail, range, List.map_map, List.getElem?_map] at htotal
  obtain ⟨i, hi, hrun⟩ := Option.map_eq_some_iff.mp hrun
  obtain ⟨j, hj, htotal⟩ := Option.map_eq_some_iff.mp htotal
  obtain ⟨hfirst, rfl⟩ := List.getElem?_eq_some_iff.mp hi
  obtain ⟨hbound, rfl⟩ := List.getElem?_eq_some_iff.mp hj
  rw [List.length_range] at hbound
  rw [List.getElem_range] at hrun htotal
  exact ⟨k, by omega, hrun, htotal, hpair⟩

/-- Raised totals are the start's or those of a pair. -/
theorem raiseTotals_from (shift : ℕ) (pairs : List (ℕ × ℕ)) (start : ℕ × ℕ) :
    ((pairs.foldl (raiseTotal shift) start).1 = start.1 ∨
        shift ≠ 12 ∧ ∃ pair ∈ pairs, (pairs.foldl (raiseTotal shift) start).1 = pair.2) ∧
      ((pairs.foldl (raiseTotal shift) start).2 = start.2 ∨
        shift = 12 ∧ ∃ pair ∈ pairs, (pairs.foldl (raiseTotal shift) start).2 = pair.2) := by
  induction pairs generalizing start with
  | nil => exact ⟨Or.inl rfl, Or.inl rfl⟩
  | cons pair rest ih =>
    obtain ⟨hread, hwrite⟩ := ih (raiseTotal shift start pair)
    rw [List.foldl_cons]
    have hlater {p : ℕ → Prop} : (∃ other ∈ rest, p other.2) → ∃ other ∈ pair :: rest, p other.2 := by
      rintro ⟨other, hother, hp⟩
      exact ⟨other, List.mem_cons_of_mem _ hother, hp⟩
    by_cases hshift : shift = 12
    · have hstep : raiseTotal shift start pair = (start.1, max start.2 pair.2) := if_pos hshift
      rw [hstep] at hread hwrite ⊢
      refine ⟨hread.imp_right fun h => absurd hshift h.1, ?_⟩
      rcases hwrite with hwrite | ⟨-, hwrite⟩
      · rcases max_choice start.2 pair.2 with hmax | hmax
        · exact Or.inl (hwrite.trans hmax)
        · exact Or.inr ⟨hshift, pair, List.mem_cons_self, hwrite.trans hmax⟩
      · exact Or.inr ⟨hshift, hlater hwrite⟩
    · have hstep : raiseTotal shift start pair = (max start.1 pair.2, start.2) := if_neg hshift
      rw [hstep] at hread hwrite ⊢
      refine ⟨?_, hwrite.imp_right fun h => absurd h.1 hshift⟩
      rcases hread with hread | ⟨-, hread⟩
      · rcases max_choice start.1 pair.2 with hmax | hmax
        · exact Or.inl (hread.trans hmax)
        · exact Or.inr ⟨hshift, pair, List.mem_cons_self, hread.trans hmax⟩
      · exact Or.inr ⟨hshift, hlater hread⟩

section Totals

variable {data : Bytes} {stage : Geometry} {bases : List ℕ} {validTotals : Option (List ℕ)} {base : ℕ}

/-- One field of a task's selector keeps the totals own, when the pairs are the task's own. -/
theorem OwnTotals.addChannel {channels pairs} (h : OwnTotals data stage bases validTotals channels)
    (hbase : base ∈ bases) (hpairs : ∀ pair ∈ pairs, ∃ k, PairAt data validTotals (contentStart + base)
      (contentStart + nextBase bases stage.taskStreamSize base) pair.2 k) {shift : ℕ}
    (hshift : shift ∈ [0, 6, 12, 18]) :
    OwnTotals data stage bases validTotals
      (addChannel (data.u32 (contentStart + base + 32)) pairs channels shift) := by
  unfold Staged.addChannel
  dsimp only
  split_ifs
  · exact h
  · intro channel totals hfind
    rw [find_assign] at hfind
    split_ifs at hfind with hchannel
    · obtain rfl := Option.some.inj hfind
      have hstart : (((find channels (data.u32 (contentStart + base + 32) >>> shift &&& 0x1F)).getD (0, 0)).1 ≠ 0 →
            OwnTotal data stage bases validTotals [0, 6, 18] channel
              ((find channels (data.u32 (contentStart + base + 32) >>> shift &&& 0x1F)).getD (0, 0)).1) ∧
          (((find channels (data.u32 (contentStart + base + 32) >>> shift &&& 0x1F)).getD (0, 0)).2 ≠ 0 →
            OwnTotal data stage bases validTotals [12] channel
              ((find channels (data.u32 (contentStart + base + 32) >>> shift &&& 0x1F)).getD (0, 0)).2) := by
        cases hold : find channels (data.u32 (contentStart + base + 32) >>> shift &&& 0x1F) with
        | none => exact ⟨fun hne => absurd rfl hne, fun hne => absurd rfl hne⟩
        | some old => exact hchannel ▸ h _ old hold
      obtain ⟨hread, hwrite⟩ := raiseTotals_from shift pairs
        ((find channels (data.u32 (contentStart + base + 32) >>> shift &&& 0x1F)).getD (0, 0))
      constructor
      · intro hne
        rcases hread with hread | ⟨hnot, pair, hpair, hread⟩
        · rw [hread] at hne ⊢
          exact hstart.1 hne
        · refine ⟨base, hbase, ⟨shift, ?_, hchannel⟩, hread ▸ hpairs pair hpair⟩
          simp only [List.mem_cons, List.not_mem_nil, or_false] at hshift ⊢
          omega
      · intro hne
        rcases hwrite with hwrite | ⟨hfield, pair, hpair, hwrite⟩
        · rw [hwrite] at hne ⊢
          exact hstart.2 hne
        · exact ⟨base, hbase, ⟨shift, List.mem_singleton.mpr hfield, hchannel⟩, hwrite ▸ hpairs pair hpair⟩
    · exact h channel totals hfind

/-- One task whose bytes end at the next base keeps the totals own. -/
theorem OwnTotals.addTask {channels} (h : OwnTotals data stage bases validTotals channels) (hbase : base ∈ bases)
    (htd : inspectedTask data stage bases (contentStart + base) =
      data.slice (contentStart + base) (contentStart + nextBase bases stage.taskStreamSize base)) :
    Meets (addTask data stage bases validTotals channels (contentStart + base))
      (OwnTotals data stage bases validTotals) fun _ => True := by
  unfold Staged.addTask
  dsimp only
  rw [htd]
  refine (Meets.returns _).bind fun selector hselector => ?_
  obtain ⟨hroom, rfl⟩ := unpackU32_eq_ok.mp hselector
  rw [Bytes.size_slice] at hroom
  rw [Bytes.u32_slice _ (by omega)]
  have hpairs (pair : ℕ × ℕ) (hpair : pair ∈ countPairs validTotals
      (data.slice (contentStart + base) (contentStart + nextBase bases stage.taskStreamSize base))) :
      ∃ k, PairAt data validTotals (contentStart + base)
        (contentStart + nextBase bases stage.taskStreamSize base) pair.2 k := by
    obtain ⟨k, hsize, hrun, htotal, hcount⟩ := exists_of_mem_countPairs hpair
    rw [Bytes.size_slice] at hsize
    rw [Bytes.u32_slice _ (by omega)] at hrun htotal
    refine ⟨k, by omega, ?_, ?_⟩
    · rw [← htotal, Nat.add_assoc (contentStart + base), Nat.add_assoc (contentStart + base)]
    · rw [Nat.add_assoc (contentStart + base), hrun]
      exact hcount
  exact List.foldlRecOn _ _ h fun channels hchannels shift hshift => hchannels.addChannel hbase hpairs hshift

end Totals

/-- The decoder reads every task to its true extent: up to the next base or the end of the stream,
and every total it reports for a channel comes from a task whose selector names that channel. -/
structure ReadsTrueExtents (data : Bytes) (stage : Geometry) (bases : List ℕ)
    (validTotals : Option (List ℕ)) : Prop where
  extents : ∀ base ∈ bases, inspectedTask data stage bases (contentStart + base) =
    data.slice (contentStart + base) (contentStart + nextBase bases stage.taskStreamSize base)
  totals : ∀ channels, decodeChannels data validTotals = .ok (stage, channels) →
    OwnTotals data stage bases validTotals channels

/-- On an artifact whose chain is the set of task bases, the decoder reads every task to its true
extent exactly when every task is measured right. -/
theorem decodeChannels_reads_extents_iff (data : Bytes) (validTotals : Option (List ℕ)) (header : AnecHeader)
    (stage : Geometry) (bases chain : List ℕ) (hheader : loadAnecHeader data = .ok header)
    (hstage : stageGeometry header = .ok stage) (htasks : taskBases data stage.taskStreamSize = .ok bases)
    (hchain : linkedTasks data stage.tdCount [] contentStart = .ok chain)
    (hset : ∀ offset, offset ∈ chain ↔ ∃ base ∈ bases, offset = contentStart + base) :
    ReadsTrueExtents data stage bases validTotals ↔ ∀ base ∈ bases, MeasuredRight data stage bases base := by
  constructor
  · intro h base hbase
    exact (inspectedTask_eq_iff htasks hbase).mp (h.extents base hbase)
  · intro h
    have hextents (base : ℕ) (hbase : base ∈ bases) := (inspectedTask_eq_iff htasks hbase).mpr (h base hbase)
    refine ⟨hextents, fun channels hresult => ?_⟩
    rw [decodeChannels, hheader, ok_bind, hstage, ok_bind, htasks, ok_bind, hchain, ok_bind] at hresult
    obtain ⟨found, hfound, hresult⟩ := bind_eq_ok.mp hresult
    obtain rfl : found = channels := congrArg Prod.snd (Except.ok.inj hresult)
    have hown : Meets (chain.foldlM (addTask data stage bases validTotals) [])
        (OwnTotals data stage bases validTotals) fun _ => True := by
      apply Meets.foldlM
      · intro channel totals hfind
        cases hfind
      · intro channels hchannels offset hoffset
        obtain ⟨base, hbase, rfl⟩ := (hset offset).mp hoffset
        exact hchannels.addTask hbase (hextents base hbase)
    exact hown.value hfound

/-- Two tasks of `0x100` bytes: the first names channel 4, the second channel 5, and the second alone
has a count pair. -/
def twoTaskArtifact (tdSize : ℕ) : Bytes :=
  Bytes.ofFields 0x1300 [(0, 0x300), (8, tdSize), (12, 2), (16, 0x200), (24, 0x100), (32, 1), (36, 1), (0x101C, 0x100),
    (0x1020, 4), (0x1028, 0x1F800), (0x1120, 5), (0x1128, 0x1F800), (0x1140, 0x40), (0x1144, 0x400)]

/-- The header, geometry, bases, chain and channels of the artifact, from what its tests evaluate to. -/
theorem twoTaskArtifact_loads {tdSize : ℕ} {channels : List (ℕ × ℕ × ℕ)}
    (hgeometry : (loadAnecHeader (twoTaskArtifact tdSize)).map (fun header => (stageGeometry header).map fun stage =>
      (stage.tdSize, stage.tdCount, stage.taskStreamSize)) = .ok (.ok (tdSize, 2, 0x200)))
    (htasks : taskBases (twoTaskArtifact tdSize) 0x200 = .ok [0, 0x100])
    (hchain : linkedTasks (twoTaskArtifact tdSize) 2 [] contentStart = .ok [0x1000, 0x1100])
    (hchannels : (decodeChannels (twoTaskArtifact tdSize) none).map Prod.snd = .ok channels) :
    ∃ header stage, loadAnecHeader (twoTaskArtifact tdSize) = .ok header ∧ stageGeometry header = .ok stage ∧
      taskBases (twoTaskArtifact tdSize) stage.taskStreamSize = .ok [0, 0x100] ∧
      linkedTasks (twoTaskArtifact tdSize) stage.tdCount [] contentStart = .ok [0x1000, 0x1100] ∧
      stage.tdSize = tdSize ∧ stage.tdCount = 2 ∧ stage.taskStreamSize = 0x200 ∧
      decodeChannels (twoTaskArtifact tdSize) none = .ok (stage, channels) := by
  obtain ⟨header, hheader, h⟩ := exists_ok_of_map hgeometry
  obtain ⟨stage, hstage, h⟩ := exists_ok_of_map h
  obtain ⟨hsize, h⟩ := Prod.mk.inj h
  obtain ⟨hcount, hstream⟩ := Prod.mk.inj h
  rw [← hstream] at htasks
  rw [← hcount] at hchain
  obtain ⟨result, hresult, rfl⟩ := exists_ok_of_map hchannels
  refine ⟨header, stage, hheader, hstage, htasks, hchain, hsize, hcount, hstream, ?_⟩
  have hfirst : result.1 = stage := by
    rw [decodeChannels, hheader, ok_bind, hstage, ok_bind, htasks, ok_bind, hchain, ok_bind] at hresult
    obtain ⟨found, -, hresult⟩ := bind_eq_ok.mp hresult
    exact (congrArg Prod.fst (Except.ok.inj hresult)).symm
  rw [hresult, ← hfirst]

/-- The chain of the artifact is the set of its bases. -/
theorem twoTaskArtifact_chain (offset : ℕ) :
    offset ∈ [0x1000, 0x1100] ↔ ∃ base ∈ [0, 0x100], offset = contentStart + base := by
  simp [contentStart]

theorem decodeChannels_reads_extents_iff_two : ∃ header stage,
    loadAnecHeader (twoTaskArtifact 0x100) = .ok header ∧ stageGeometry header = .ok stage ∧
      ReadsTrueExtents (twoTaskArtifact 0x100) stage [0, 0x100] none := by
  obtain ⟨header, stage, hheader, hstage, htasks, hchain, hsize, hcount, hstream, -⟩ :=
    @twoTaskArtifact_loads 0x100 [(4, 0, 0), (5, 0x400, 0)] (by decide +kernel)
      (by decide +kernel) (by decide +kernel) (by decide +kernel)
  refine ⟨header, stage, hheader, hstage, (decodeChannels_reads_extents_iff _ none header stage _ _ hheader hstage
    htasks hchain twoTaskArtifact_chain).mpr fun base hbase => ?_⟩
  have hnot : contentStart + base ∉ [0, 0x100] := by
    simp only [List.mem_cons, List.not_mem_nil, or_false, contentStart]
    omega
  refine ⟨fun _ => Or.inl ?_, fun hkey => absurd hkey hnot⟩
  rw [hsize, hstream]
  revert base
  decide

/-- With descriptors of `0x1F8` bytes the first task is read into the second, and the second's total
is reported for the channel of the first. -/
theorem decodeChannels_reads_into_next_task : ∃ header stage bases chain,
    loadAnecHeader (twoTaskArtifact 0x1F8) = .ok header ∧ stageGeometry header = .ok stage ∧
      taskBases (twoTaskArtifact 0x1F8) stage.taskStreamSize = .ok bases ∧
      linkedTasks (twoTaskArtifact 0x1F8) stage.tdCount [] contentStart = .ok chain ∧
      chain.length = stage.tdCount ∧ (∀ offset, offset ∈ chain ↔ ∃ base ∈ bases, offset = contentStart + base) ∧
      decodeChannels (twoTaskArtifact 0x1F8) none = .ok (stage, [(4, 0x400, 0), (5, 0x400, 0)]) ∧
      ¬ OwnTotal (twoTaskArtifact 0x1F8) stage bases none [0, 6, 18] 4 0x400 ∧
      ¬ ReadsTrueExtents (twoTaskArtifact 0x1F8) stage bases none := by
  obtain ⟨header, stage, hheader, hstage, htasks, hchain, hsize, hcount, hstream, hresult⟩ :=
    @twoTaskArtifact_loads 0x1F8 [(4, 0x400, 0), (5, 0x400, 0)] (by decide +kernel) (by decide +kernel)
      (by decide +kernel) (by decide +kernel)
  have hforeign : ¬ OwnTotal (twoTaskArtifact 0x1F8) stage [0, 0x100] none [0, 6, 18] 4 0x400 := by
    rintro ⟨base, hbase, hnames, k, hinside, htotal, -⟩
    rw [hstream] at hinside
    rcases List.mem_cons.mp hbase with rfl | hbase
    · have hk : k < 0x40 := by
        have hnext : nextBase [0, 0x100] 0x200 0 = 0x100 := by decide
        omega
      have hwords : ∀ k < 0x40, (twoTaskArtifact 0x1F8).u32 (contentStart + 0 + 40 + 4 * k + 4) ≠ 0x400 := by
        decide +kernel
      exact hwords k hk htotal
    · obtain rfl := List.mem_singleton.mp hbase
      revert hnames
      decide +kernel
  refine ⟨header, stage, _, _, hheader, hstage, htasks, hchain, hcount.symm, twoTaskArtifact_chain, hresult, hforeign,
    fun h => hforeign ?_⟩
  exact (h.totals _ hresult 4 (0x400, 0) (by decide)).1 (by decide)

end AneLinux.Staged
