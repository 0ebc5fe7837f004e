import Mathlib.Data.List.Basic
import Mathlib.Data.Nat.Bitwise
import Mathlib.Tactic.Ring

/-!
# The register-record stream of a task descriptor

A record is a header word followed by register values. The header carries the register
byte address in bits 0..25 and the value count less one in bits 26..31. A stream ends at
a zero word, at the limit of the descriptor, or at a record that runs past that limit.

The walk is stated over an arbitrary word reader. The decoders of the repository differ
in where they start, in their limit, and in what they do with a truncated record; each
of them is an instance of this walk.
-/

namespace AneLinux.Hwx

/-- The register address in a record header. -/
def recordRegister (header : ℕ) : ℕ := header &&& 0x3FFFFFF

/-- The number of values a record header announces. -/
def recordCount (header : ℕ) : ℕ := (header >>> 26) + 1

/-- One record: the position of its header, its first register and its values. -/
structure Record where
  position : ℕ
  register : ℕ
  values : List ℕ
deriving DecidableEq, Repr

/-- Why a record walk stopped. -/
inductive Stop
  | terminator
  | exhausted
  | truncated
deriving DecidableEq, Repr

/-- The complete records of a walk, and where and why it stopped. -/
structure RecordWalk where
  records : List Record
  stop : ℕ
  reason : Stop
deriving DecidableEq, Repr

/-- Walk the records from `pos` inside `limit`, reading words with `word`. -/
def walkRecords (word : ℕ → ℕ) (limit pos : ℕ) : RecordWalk :=
  if pos + 4 ≤ limit then
    if word pos = 0 then
      ⟨[], pos, .terminator⟩
    else if limit < pos + 4 + 4 * recordCount (word pos) then
      ⟨[], pos, .truncated⟩
    else
      let rest := walkRecords word limit (pos + 4 + 4 * recordCount (word pos))
      ⟨⟨pos, recordRegister (word pos),
        (List.range (recordCount (word pos))).map fun i => word (pos + 4 + 4 * i)⟩ :: rest.records,
        rest.stop, rest.reason⟩
  else
    ⟨[], pos, .exhausted⟩
termination_by limit - pos

/-- A decoded register file. -/
abbrev Registers := ℕ → Option ℕ

/-- One register assignment, with the record header and the word it was read from. -/
structure Write where
  header : ℕ
  position : ℕ
  address : ℕ
  value : ℕ
deriving DecidableEq, Repr

/-- The assignments of one record, in order. -/
def Record.writes (r : Record) : List Write :=
  r.values.mapIdx fun i value => ⟨r.position, r.position + 4 + 4 * i, r.register + 4 * i, value⟩

/-- The assignments of a walk, in order. -/
def RecordWalk.writes (w : RecordWalk) : List Write := w.records.flatMap Record.writes

/-- Perform one assignment. -/
def Registers.store (m : Registers) (w : Write) : Registers :=
  Function.update m w.address (some w.value)

/-- Perform assignments in order, so that the last writer of a register wins. -/
def Registers.storeAll (m : Registers) (ws : List Write) : Registers := ws.foldl Registers.store m

/-- The register file of a list of assignments. -/
def registersOf (ws : List Write) : Registers := Registers.storeAll (fun _ => none) ws

variable {word word' : ℕ → ℕ} {limit pos : ℕ}

/-- A walk never stops before its start. -/
theorem le_walkRecords_stop : pos ≤ (walkRecords word limit pos).stop := by
  fun_induction walkRecords word limit pos with
  | case1 => exact Nat.le_refl _
  | case2 => exact Nat.le_refl _
  | case3 pos hle hzero hfit rest ih => exact Nat.le_trans (by omega) ih
  | case4 => exact Nat.le_refl _

/-- Every position of a walk is word aligned with its start. -/
theorem walkRecords_stop_mod : (walkRecords word limit pos).stop % 4 = pos % 4 := by
  fun_induction walkRecords word limit pos with
  | case1 => rfl
  | case2 => rfl
  | case3 pos hle hzero hfit rest ih => exact ih.trans (by omega)
  | case4 => rfl

/-- Every record of a walk lies at or after its start. -/
theorem le_position_of_mem_walkRecords {r : Record} (hr : r ∈ (walkRecords word limit pos).records) :
    pos ≤ r.position := by
  fun_induction walkRecords word limit pos with
  | case1 => cases hr
  | case2 => cases hr
  | case3 pos hle hzero hfit rest ih =>
    rcases List.mem_cons.mp hr with rfl | hr
    · exact Nat.le_refl _
    · have := ih hr
      omega
  | case4 => cases hr

/-- A walk that stopped at a terminator read a zero word inside its limit. -/
theorem walkRecords_terminator (h : (walkRecords word limit pos).reason = .terminator) :
    word (walkRecords word limit pos).stop = 0 ∧ (walkRecords word limit pos).stop + 4 ≤ limit := by
  fun_induction walkRecords word limit pos with
  | case1 pos hle hzero => exact ⟨hzero, hle⟩
  | case2 => cases h
  | case3 pos hle hzero hfit rest ih => exact ih h
  | case4 => cases h

/-- A walk reads only the words up to its stop, so a reader that agrees there walks alike. -/
theorem walkRecords_congr
    (h : ∀ p, pos ≤ p → p % 4 = pos % 4 → p + 4 ≤ limit → word' p = word p) :
    walkRecords word' limit pos = walkRecords word limit pos := by
  fun_induction walkRecords word limit pos with
  | case1 pos hle hzero =>
    rw [walkRecords, if_pos hle, h pos (Nat.le_refl _) rfl hle, if_pos hzero]
  | case2 pos hle hzero hcut =>
    rw [walkRecords, if_pos hle, h pos (Nat.le_refl _) rfl hle, if_neg hzero, if_pos hcut]
  | case3 pos hle hzero hfit rest ih =>
    have hvalues : (List.range (recordCount (word pos))).map (fun i => word' (pos + 4 + 4 * i)) =
        (List.range (recordCount (word pos))).map fun i => word (pos + 4 + 4 * i) := by
      apply List.map_congr_left
      intro i hi
      have := List.mem_range.mp hi
      exact h _ (by omega) (by omega) (by omega)
    rw [walkRecords, if_pos hle, h pos (Nat.le_refl _) rfl hle, if_neg hzero, if_neg hfit,
      ih fun p hp hmod hlim => h p (by omega) (by omega) hlim, hvalues]
  | case4 pos hle => rw [walkRecords, if_neg hle]

/-- A complete walk is the same inside any limit that holds it and lets it stop there. -/
theorem walkRecords_relimit {limit' : ℕ} (hreason : (walkRecords word limit pos).reason ≠ .truncated)
    (hstop : (walkRecords word limit pos).stop ≤ limit')
    (hend : (walkRecords word limit pos).stop + 4 ≤ limit' → word (walkRecords word limit pos).stop = 0) :
    (walkRecords word limit' pos).records = (walkRecords word limit pos).records ∧
      (walkRecords word limit' pos).stop = (walkRecords word limit pos).stop ∧
      (walkRecords word limit' pos).reason ≠ .truncated := by
  have hstopped (p : ℕ) (hp : p + 4 ≤ limit' → word p = 0) :
      (walkRecords word limit' p).records = [] ∧ (walkRecords word limit' p).stop = p ∧
        (walkRecords word limit' p).reason ≠ .truncated := by
    rw [walkRecords]
    split_ifs with hle hzero
    · simp
    · exact absurd (hp hle) hzero
    · exact absurd (hp hle) hzero
    · simp
  fun_induction walkRecords word limit pos with
  | case1 pos hle hzero => exact hstopped pos hend
  | case2 pos hle hzero hcut => exact absurd rfl hreason
  | case3 pos hle hzero hfit rest ih =>
    have hnext : pos + 4 + 4 * recordCount (word pos) ≤ rest.stop := le_walkRecords_stop
    have hlimit : rest.stop ≤ limit' := hstop
    obtain ⟨hrecords, hpos, hrest⟩ := ih hreason hstop hend
    rw [walkRecords, if_pos (by omega), if_neg hzero, if_neg (by omega)]
    exact ⟨congrArg (List.cons _) hrecords, hpos, hrest⟩
  | case4 pos hle => exact hstopped pos hend

/-- Every assignment of a complete walk was read before its stop. -/
theorem walkRecords_write_lt (hreason : (walkRecords word limit pos).reason ≠ .truncated) :
    ∀ w ∈ (walkRecords word limit pos).writes,
      w.header < (walkRecords word limit pos).stop ∧ w.position < (walkRecords word limit pos).stop := by
  fun_induction walkRecords word limit pos with
  | case1 => intro w hw; cases hw
  | case2 => exact absurd rfl hreason
  | case3 pos hle hzero hfit rest ih =>
    have hnext : pos + 4 + 4 * recordCount (word pos) ≤ rest.stop := le_walkRecords_stop
    intro w hw
    rcases List.mem_append.mp hw with hw | hw
    · obtain ⟨i, hi, rfl⟩ := List.mem_mapIdx.mp hw
      have hcount : i < recordCount (word pos) := by simpa using hi
      exact ⟨Nat.lt_of_lt_of_le (by dsimp only; omega) hnext,
        Nat.lt_of_lt_of_le (by dsimp only; omega) hnext⟩
    · exact ih hreason w hw
  | case4 => intro w hw; cases hw

/-! ## Streams cut by zero words -/

/-- A record with the values at or past `cut` read as zero. -/
def Record.zeroFrom (cut : ℕ) (r : Record) : Record :=
  { r with values := r.values.mapIdx fun i value => if r.position + 4 + 4 * i < cut then value else 0 }

/-- The assignments that survive when every word at or past `cut` reads as zero. -/
def keptWrites (cut : ℕ) (ws : List Write) : List Write :=
  (ws.filter fun w => decide (w.header < cut)).map fun w =>
    { w with value := if w.position < cut then w.value else 0 }

/-- The assignments of a record that survive a cut are those of the zeroed record, or none. -/
theorem keptWrites_record (cut : ℕ) (r : Record) :
    keptWrites cut r.writes = if r.position < cut then (r.zeroFrom cut).writes else [] := by
  have hheader : ∀ w ∈ r.writes, w.header = r.position := by
    intro w hw
    obtain ⟨i, hi, rfl⟩ := List.mem_mapIdx.mp hw
    rfl
  by_cases hr : r.position < cut
  · have hfilter : r.writes.filter (fun w => decide (w.header < cut)) = r.writes :=
      List.filter_eq_self.mpr fun w hw => by simpa [hheader w hw] using hr
    rw [if_pos hr, keptWrites, hfilter]
    apply List.ext_getElem
    · simp [Record.writes, Record.zeroFrom]
    · intro i h1 h2
      simp [Record.writes, Record.zeroFrom]
  · have hfilter : r.writes.filter (fun w => decide (w.header < cut)) = [] :=
      List.filter_eq_nil_iff.mpr fun w hw => by simpa [hheader w hw] using hr
    rw [if_neg hr, keptWrites, hfilter, List.map_nil]

theorem keptWrites_append (cut : ℕ) (ws vs : List Write) :
    keptWrites cut (ws ++ vs) = keptWrites cut ws ++ keptWrites cut vs := by
  simp [keptWrites]

/-- Assignments read entirely before the cut all survive it. -/
theorem keptWrites_eq_self {cut : ℕ} {ws : List Write}
    (h : ∀ w ∈ ws, w.header < cut ∧ w.position < cut) : keptWrites cut ws = ws := by
  have hfilter : ws.filter (fun w => decide (w.header < cut)) = ws :=
    List.filter_eq_self.mpr fun w hw => by simpa using (h w hw).1
  rw [keptWrites, hfilter]
  conv_rhs => rw [← List.map_id ws]
  apply List.map_congr_left
  intro w hw
  rw [if_pos (h w hw).2]
  rfl

/-- No assignment of a walk that starts past the cut survives it. -/
theorem keptWrites_walk_of_le {cut : ℕ} (h : cut ≤ pos) :
    keptWrites cut (walkRecords word limit pos).writes = [] := by
  have hfilter : ∀ rs : List Record, (∀ r ∈ rs, cut ≤ r.position) →
      keptWrites cut (rs.flatMap Record.writes) = [] := by
    intro rs hrs
    induction rs with
    | nil => rfl
    | cons r rest ih =>
      have hr := hrs r List.mem_cons_self
      rw [List.flatMap_cons, keptWrites_append, keptWrites_record, if_neg (by omega),
        ih fun s hs => hrs s (List.mem_cons_of_mem r hs), List.nil_append]
  exact hfilter _ fun r hr => h.trans (le_position_of_mem_walkRecords hr)

/-- Zeroing every word from `cut` on leaves the truncations before it as they were. -/
theorem walkRecords_cut_truncated {cut : ℕ} (hmod : cut % 4 = pos % 4)
    (hbefore : ∀ p, pos ≤ p → p % 4 = pos % 4 → p < cut → word' p = word p)
    (htrunc : (walkRecords word limit pos).reason = .truncated)
    (hstop : (walkRecords word limit pos).stop < cut) :
    (walkRecords word' limit pos).reason = .truncated ∧
      (walkRecords word' limit pos).stop = (walkRecords word limit pos).stop := by
  fun_induction walkRecords word limit pos with
  | case1 => cases htrunc
  | case2 pos hle hzero hcut =>
    rw [walkRecords, if_pos hle, hbefore pos (Nat.le_refl _) rfl hstop, if_neg hzero, if_pos hcut]
    exact ⟨rfl, rfl⟩
  | case3 pos hle hzero hfit rest ih =>
    have hpos : pos < cut := by
      have hnext : pos + 4 + 4 * recordCount (word pos) ≤ rest.stop := le_walkRecords_stop
      have hrest : rest.stop < cut := hstop
      omega
    rw [walkRecords, if_pos hle, hbefore pos (Nat.le_refl _) rfl hpos, if_neg hzero, if_neg hfit]
    exact ih (by omega) (fun p hp hpm hpc => hbefore p (by omega) (by omega) hpc) htrunc hstop
  | case4 => cases htrunc

/-- Zeroing every word from `cut` on keeps exactly the assignments made before it,
unless the walk was truncated before the cut. -/
theorem walkRecords_cut_writes {cut : ℕ} (hmod : cut % 4 = pos % 4)
    (hbefore : ∀ p, pos ≤ p → p % 4 = pos % 4 → p < cut → word' p = word p)
    (hafter : ∀ p, p % 4 = pos % 4 → cut ≤ p → p + 4 ≤ limit → word' p = 0)
    (hstop : (walkRecords word limit pos).reason = .truncated → cut ≤ (walkRecords word limit pos).stop) :
    (walkRecords word' limit pos).reason ≠ .truncated ∧
      (walkRecords word' limit pos).writes = keptWrites cut (walkRecords word limit pos).writes := by
  fun_induction walkRecords word limit pos with
  | case1 pos hle hzero =>
    have hword : word' pos = 0 := by
      by_cases hpos : pos < cut
      · rw [hbefore pos (Nat.le_refl _) rfl hpos, hzero]
      · exact hafter pos rfl (by omega) hle
    rw [walkRecords, if_pos hle, if_pos hword]
    exact ⟨by simp, rfl⟩
  | case2 pos hle hzero hcut =>
    have hpos : cut ≤ pos := hstop rfl
    rw [walkRecords, if_pos hle, if_pos (hafter pos rfl hpos hle)]
    exact ⟨by simp, rfl⟩
  | case3 pos hle hzero hfit rest ih =>
    by_cases hpos : pos < cut
    · obtain ⟨hreason, hwrites⟩ := ih (by omega)
        (fun p hp hpm hpc => hbefore p (by omega) (by omega) hpc)
        (fun p hpm hpc hpl => hafter p (by omega) hpc hpl) hstop
      have hvalues : (List.range (recordCount (word pos))).map (fun i => word' (pos + 4 + 4 * i)) =
          ((List.range (recordCount (word pos))).map fun i => word (pos + 4 + 4 * i)).mapIdx
            fun i value => if pos + 4 + 4 * i < cut then value else 0 := by
        apply List.ext_getElem
        · simp
        · intro i h1 h2
          have hi : i < recordCount (word pos) := by simpa using h1
          simp only [List.getElem_map, List.getElem_range, List.getElem_mapIdx]
          split_ifs with hlt
          · exact hbefore _ (by omega) (by omega) hlt
          · exact hafter _ (by omega) (by omega) (by omega)
      rw [walkRecords, if_pos hle, hbefore pos (Nat.le_refl _) rfl hpos, if_neg hzero, if_neg hfit]
      refine ⟨hreason, ?_⟩
      rw [RecordWalk.writes, List.flatMap_cons, RecordWalk.writes, List.flatMap_cons,
        keptWrites_append, keptWrites_record, if_pos hpos, hvalues]
      exact congrArg _ hwrites
    · have hword := hafter pos rfl (by omega) hle
      have hnone : keptWrites cut (walkRecords word limit pos).writes = [] :=
        keptWrites_walk_of_le (by omega)
      rw [walkRecords, if_pos hle, if_neg hzero, if_neg hfit] at hnone
      rw [walkRecords, if_pos hle, if_pos hword]
      exact ⟨by simp, hnone.symm⟩
  | case4 pos hle =>
    rw [walkRecords, if_neg hle]
    exact ⟨by simp, rfl⟩

end AneLinux.Hwx
