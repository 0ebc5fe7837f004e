import AneLinux.Hwx.RecordStream
import Mathlib.Data.List.Nodup

/-!
# What the registers tell of a copy that is cut

A copy of a record stream that is cut reads as zero behind the cut, and the word that holds the cut has fewer than
four bytes left. Where no register is assigned twice, a copy that gives the same registers holds every word of every
record and stops where the stream stops: `CutCopy.holdsRecords`. A register that is assigned twice can hide that a
record was lost.
-/

namespace AneLinux.Hwx

/-! ## Streams that assign a register once -/

/-- The register of an assignment and its value. -/
def Write.assigned (w : Write) : ℕ × ℕ := (w.address, w.value)

/-- No register is assigned twice. -/
def RecordWalk.AssignsOnce (walk : RecordWalk) : Prop := (walk.writes.map Write.address).Nodup

instance (walk : RecordWalk) : Decidable walk.AssignsOnce :=
  inferInstanceAs (Decidable (walk.writes.map Write.address).Nodup)

section Once

variable {ws vs : List Write} {address value : ℕ}

/-- Assignments give their registers as keys. -/
theorem map_fst_assigned (ws : List Write) : (ws.map Write.assigned).map Prod.fst = ws.map Write.address := by
  rw [List.map_map]
  rfl

/-- Where no register is assigned twice, a register holds what it is assigned, or else what it held. -/
theorem storeAll_eq_some_iff (honce : (ws.map Write.address).Nodup) {m : Registers} :
    m.storeAll ws address = some value ↔
      (address, value) ∈ ws.map Write.assigned ∨ address ∉ ws.map Write.address ∧ m address = some value := by
  induction ws generalizing m with
  | nil => simp [Registers.storeAll]
  | cons w rest ih =>
    rw [List.map_cons, List.nodup_cons] at honce
    rw [Registers.storeAll, List.foldl_cons, ← Registers.storeAll, ih honce.2, List.map_cons, List.map_cons,
      List.mem_cons, List.mem_cons, Registers.store]
    by_cases hsame : address = w.address
    · subst hsame
      have hfresh : (w.address, value) ∉ rest.map Write.assigned := fun hmem =>
        honce.1 (map_fst_assigned rest ▸ List.mem_map_of_mem hmem)
      rw [Function.update_self, Write.assigned]
      simp [hfresh, honce.1, eq_comm]
    · rw [Function.update_of_ne hsame, Write.assigned]
      simp [hsame]

/-- Where no register is assigned twice, the same registers mean the same assignments in some order. -/
theorem perm_of_registersOf_eq (h : (ws.map Write.address).Nodup) (h' : (vs.map Write.address).Nodup)
    (hsame : registersOf vs = registersOf ws) : (vs.map Write.assigned).Perm (ws.map Write.assigned) := by
  have hnodup {us : List Write} (hus : (us.map Write.address).Nodup) : (us.map Write.assigned).Nodup :=
    List.Nodup.of_map Prod.fst (by rwa [map_fst_assigned])
  refine (List.perm_ext_iff_of_nodup (hnodup h') (hnodup h)).mpr fun ⟨address, value⟩ => ?_
  have hiff {us : List Write} (hus : (us.map Write.address).Nodup) :
      registersOf us address = some value ↔ (address, value) ∈ us.map Write.assigned := by
    rw [registersOf, storeAll_eq_some_iff hus]
    simp
  rw [← hiff h', ← hiff h, hsame]

/-- Lists with the same entries in some order begin alike where their first keys are the same and no key occurs
twice. -/
theorem eq_of_perm_of_keys {first first' rest rest' : List (ℕ × ℕ)} (hperm : (first' ++ rest').Perm (first ++ rest))
    (hkeys : first'.map Prod.fst = first.map Prod.fst) (honce : ((first ++ rest).map Prod.fst).Nodup) :
    first' = first := by
  have hlength : first'.length = first.length := by
    rw [← List.length_map Prod.fst, hkeys, List.length_map]
  refine List.ext_getElem hlength fun i hleft hright => ?_
  refine List.inj_on_of_nodup_map honce ?_ ?_ ?_
  · exact hperm.subset (List.mem_append_left _ (List.getElem_mem hleft))
  · exact List.mem_append_left _ (List.getElem_mem hright)
  · have hkey := List.getElem_of_eq hkeys (by rwa [List.length_map])
    rwa [List.getElem_map, List.getElem_map] at hkey

end Once

/-! ## Walks of a copy -/

/-- A copy of a stream from `pos` on: each word is copied, or the copy is cut before its end and zero behind it. -/
def CutCopy (word word' : ℕ → ℕ) (pos : ℕ) : Prop :=
  ∀ p, pos ≤ p → word' p = word p ∨ word' p < 2 ^ 24 ∧ ∀ q, p + 4 ≤ q → word' q = 0

section Copy

variable {word word' : ℕ → ℕ} {limit limit' pos : ℕ}

/-- The header of a record of one value is its register. -/
theorem eq_recordRegister_of_recordCount_eq_one {header : ℕ} (h : recordCount header = 1) :
    header = recordRegister header := by
  rw [recordCount, Nat.shiftRight_eq_div_pow] at h
  rw [recordRegister, show 0x3FFFFFF = 2 ^ 26 - 1 from rfl, Nat.and_two_pow_sub_one_eq_mod]
  omega

/-- A header cut to three bytes announces one value. -/
theorem recordCount_of_lt {header : ℕ} (h : header < 2 ^ 24) : recordCount header = 1 := by
  rw [recordCount, Nat.shiftRight_eq_div_pow]
  omega

/-- The assignments of a record that is read from a stream. -/
def recordAssigned (word : ℕ → ℕ) (pos : ℕ) : List (ℕ × ℕ) :=
  (List.range (recordCount (word pos))).map fun i => (recordRegister (word pos) + 4 * i, word (pos + 4 + 4 * i))

/-- A record has at least one value. -/
theorem recordCount_pos (header : ℕ) : 0 < recordCount header := Nat.succ_pos _

/-- A record assigns as many registers as its header announces. -/
theorem length_recordAssigned (word : ℕ → ℕ) (pos : ℕ) :
    (recordAssigned word pos).length = recordCount (word pos) := by
  rw [recordAssigned, List.length_map, List.length_range]

/-- What a value of a record is assigned to. -/
theorem mem_recordAssigned {i : ℕ} (hi : i < recordCount (word pos)) :
    (recordRegister (word pos) + 4 * i, word (pos + 4 + 4 * i)) ∈ recordAssigned word pos :=
  List.mem_map_of_mem (List.mem_range.mpr hi)

/-- A record assigns something. -/
theorem recordAssigned_ne_nil (word : ℕ → ℕ) (pos : ℕ) : recordAssigned word pos ≠ [] :=
  List.ne_nil_of_mem (mem_recordAssigned (recordCount_pos _))

/-- A walk that reads a record assigns its values first. -/
theorem assigned_walkRecords_of_record (hle : pos + 4 ≤ limit) (hheader : word pos ≠ 0)
    (hfits : pos + 4 + 4 * recordCount (word pos) ≤ limit) :
    (walkRecords word limit pos).writes.map Write.assigned = recordAssigned word pos ++
        (walkRecords word limit (pos + 4 + 4 * recordCount (word pos))).writes.map Write.assigned ∧
      (walkRecords word limit pos).stop = (walkRecords word limit (pos + 4 + 4 * recordCount (word pos))).stop ∧
      (walkRecords word limit pos).reason = (walkRecords word limit (pos + 4 + 4 * recordCount (word pos))).reason := by
  rw [walkRecords, if_pos hle, if_neg hheader, if_neg (Nat.not_lt.mpr hfits)]
  refine ⟨?_, rfl, rfl⟩
  rw [RecordWalk.writes, List.flatMap_cons, List.map_append]
  congr 1
  refine List.ext_getElem (by simp [Record.writes, recordAssigned]) fun i hleft hright => ?_
  simp [Record.writes, recordAssigned, Write.assigned]

/-- A walk that assigns nothing and is not cut off reads a zero word, or stops where there is no word. -/
theorem walkRecords_of_no_writes (hreason : (walkRecords word limit pos).reason ≠ .truncated)
    (hnone : (walkRecords word limit pos).writes.map Write.assigned = []) :
    (walkRecords word limit pos).stop = pos ∧ (pos + 4 ≤ limit → word pos = 0) := by
  by_cases hle : pos + 4 ≤ limit
  · by_cases hzero : word pos = 0
    · rw [walkRecords, if_pos hle, if_pos hzero]
      exact ⟨rfl, fun _ => hzero⟩
    · by_cases hfits : pos + 4 + 4 * recordCount (word pos) ≤ limit
      · rw [(assigned_walkRecords_of_record hle hzero hfits).1, List.append_eq_nil_iff] at hnone
        exact absurd hnone.1 (recordAssigned_ne_nil word pos)
      · rw [walkRecords, if_pos hle, if_neg hzero, if_pos (Nat.not_le.mp hfits)] at hreason
        cases hreason rfl
  · rw [walkRecords, if_neg hle]
    exact ⟨rfl, fun h => absurd h hle⟩

/-- A walk from a zero word reads nothing. -/
theorem walkRecords_of_zero (hzero : word pos = 0) :
    (walkRecords word limit pos).records = [] ∧ (walkRecords word limit pos).reason ≠ .truncated := by
  rw [walkRecords]
  split_ifs <;> simp

/-- A walk from a zero word assigns nothing. -/
theorem assigned_walkRecords_of_zero (hzero : word pos = 0) :
    (walkRecords word limit pos).writes.map Write.assigned = [] := by
  rw [RecordWalk.writes, (walkRecords_of_zero hzero).1]
  rfl

/-- A copy of a later part is a copy. -/
theorem CutCopy.mono {pos' : ℕ} (h : CutCopy word word' pos) (hle : pos ≤ pos') : CutCopy word word' pos' :=
  fun p hp => h p (hle.trans hp)

/-- A header that is cut is not the header of a stream that assigns the same: fewer than four bytes of it announce
one value, which is zero, and nothing follows. -/
theorem CutCopy.header_eq (h : CutCopy word word' pos) (hle : pos + 4 ≤ limit) (hheader : word pos ≠ 0)
    (hfits : pos + 4 + 4 * recordCount (word pos) ≤ limit)
    (hreason : (walkRecords word' limit' pos).reason ≠ .truncated)
    (hsame : ((walkRecords word' limit' pos).writes.map Write.assigned).Perm
      ((walkRecords word limit pos).writes.map Write.assigned)) :
    pos + 4 ≤ limit' ∧ word' pos = word pos ∧ pos + 4 + 4 * recordCount (word pos) ≤ limit' := by
  have hassigned := (assigned_walkRecords_of_record hle hheader hfits).1
  have hsome : (walkRecords word' limit' pos).writes.map Write.assigned ≠ [] := by
    intro hnone
    rw [hnone, List.nil_perm, hassigned, List.append_eq_nil_iff] at hsame
    exact recordAssigned_ne_nil word pos hsame.1
  have hroom : pos + 4 ≤ limit' := by
    by_contra hshort
    rw [walkRecords, if_neg hshort] at hsome
    exact hsome rfl
  have hheader' : word' pos ≠ 0 := fun hzero => hsome (assigned_walkRecords_of_zero hzero)
  have hfits' : pos + 4 + 4 * recordCount (word' pos) ≤ limit' := by
    by_contra hcut
    rw [walkRecords, if_pos hroom, if_neg hheader', if_pos (Nat.not_le.mp hcut)] at hreason
    exact hreason rfl
  suffices hcopied : word' pos = word pos from ⟨hroom, hcopied, hcopied ▸ hfits'⟩
  rcases h pos (Nat.le_refl _) with hcopied | ⟨hshort, hzero⟩
  · exact hcopied
  have hcount := recordCount_of_lt hshort
  have hcopied : (walkRecords word' limit' pos).writes.map Write.assigned = recordAssigned word' pos := by
    rw [(assigned_walkRecords_of_record hroom hheader' hfits').1,
      assigned_walkRecords_of_zero (hzero (pos + 4 + 4 * recordCount (word' pos)) (by omega)), List.append_nil]
  rw [hcopied, hassigned] at hsame
  -- One assignment, so the header of the stream announces one value too, of the same register.
  have hlength := hsame.length_eq
  rw [List.length_append, length_recordAssigned, length_recordAssigned, hcount] at hlength
  have hcount' : recordCount (word pos) = 1 := by
    have hpositive := recordCount_pos (word pos)
    omega
  have hregister : recordRegister (word pos) = recordRegister (word' pos) := by
    have hmem := hsame.symm.subset (List.mem_append_left _ (mem_recordAssigned (recordCount_pos (word pos))))
    obtain ⟨i, hi, hpair⟩ := List.mem_map.mp hmem
    rw [hcount, List.mem_range, Nat.lt_one_iff] at hi
    subst hi
    exact (Prod.mk.inj hpair).1.symm
  rw [eq_recordRegister_of_recordCount_eq_one hcount, eq_recordRegister_of_recordCount_eq_one hcount', hregister]

/-- A copy holds the records of a stream inside its own limit: every word up to their end, and where they end its walk
can stop. -/
structure HoldsRecords (word word' : ℕ → ℕ) (limit limit' pos : ℕ) : Prop where
  fits : (walkRecords word limit pos).stop ≤ limit'
  words : ∀ p, pos ≤ p → p % 4 = pos % 4 → p < (walkRecords word limit pos).stop → word' p = word p
  stops : (walkRecords word limit pos).stop + 4 ≤ limit' → word' (walkRecords word limit pos).stop = 0

/-- A copy that holds the records of a stream has the same records. -/
theorem HoldsRecords.records_eq (h : HoldsRecords word word' limit limit' pos)
    (hreason : (walkRecords word limit pos).reason ≠ .truncated) :
    (walkRecords word' limit' pos).records = (walkRecords word limit pos).records ∧
      (walkRecords word' limit' pos).reason ≠ .truncated := by
  have hmod : (walkRecords word limit pos).stop % 4 = pos % 4 := walkRecords_stop_mod
  obtain ⟨hrecords, hpos, hcut⟩ := walkRecords_relimit hreason (Nat.le_refl _) fun hroom => by omega
  have hsame : walkRecords word' (walkRecords word limit pos).stop pos =
      walkRecords word (walkRecords word limit pos).stop pos :=
    walkRecords_congr fun p hp hpm hle => h.words p hp hpm (by omega)
  rw [← hsame] at hrecords hpos hcut
  obtain ⟨hrecords', -, hcut'⟩ := walkRecords_relimit hcut (hpos.symm ▸ h.fits) (hpos.symm ▸ h.stops)
  exact ⟨hrecords'.trans hrecords, hcut'⟩

/-- Of a walk without records a copy holds everything when its own walk finds none. -/
theorem holdsRecords_of_no_writes (hlimit : pos ≤ limit') (hreason : (walkRecords word limit pos).reason ≠ .truncated)
    (hreason' : (walkRecords word' limit' pos).reason ≠ .truncated)
    (hnone : (walkRecords word limit pos).writes.map Write.assigned = [])
    (hnone' : (walkRecords word' limit' pos).writes.map Write.assigned = []) :
    HoldsRecords word word' limit limit' pos := by
  have hstop := (walkRecords_of_no_writes hreason hnone).1
  exact ⟨hstop.symm ▸ hlimit, fun p hp _ hlt => absurd hlt (Nat.not_lt.mpr (hstop.symm ▸ hp)),
    hstop.symm ▸ (walkRecords_of_no_writes hreason' hnone').2⟩

/-- A copy that may be cut and that assigns the same as the stream, once each, holds its records. -/
theorem CutCopy.holdsRecords (h : CutCopy word word' pos) (hlimit : pos ≤ limit')
    (hreason : (walkRecords word limit pos).reason ≠ .truncated)
    (hreason' : (walkRecords word' limit' pos).reason ≠ .truncated)
    (honce : (walkRecords word limit pos).AssignsOnce)
    (hsame : ((walkRecords word' limit' pos).writes.map Write.assigned).Perm
      ((walkRecords word limit pos).writes.map Write.assigned)) :
    HoldsRecords word word' limit limit' pos := by
  induction pos using walkRecords.induct word limit with
  | case1 pos hle hzero =>
    have hnone : (walkRecords word limit pos).writes.map Write.assigned = [] := assigned_walkRecords_of_zero hzero
    exact holdsRecords_of_no_writes hlimit hreason hreason' hnone (List.perm_nil.mp (hnone ▸ hsame))
  | case2 pos hle hzero hcut =>
    rw [walkRecords, if_pos hle, if_neg hzero, if_pos hcut] at hreason
    exact absurd rfl hreason
  | case3 pos hle hzero hfits ih =>
    obtain ⟨hassigned, hstop, hrest⟩ := assigned_walkRecords_of_record hle hzero (Nat.not_lt.mp hfits)
    obtain ⟨hroom, hheader, hfits'⟩ := h.header_eq hle hzero (Nat.not_lt.mp hfits) hreason' hsame
    obtain ⟨hassigned', -, hrest'⟩ := assigned_walkRecords_of_record hroom (hheader ▸ hzero) (hheader ▸ hfits')
    rw [RecordWalk.AssignsOnce, ← map_fst_assigned, hassigned] at honce
    rw [hassigned, hassigned'] at hsame
    have hkeys : (recordAssigned word' pos).map Prod.fst = (recordAssigned word pos).map Prod.fst := by
      rw [recordAssigned, recordAssigned, List.map_map, List.map_map, hheader]
      rfl
    have hfirst := eq_of_perm_of_keys hsame hkeys honce
    rw [hfirst, List.perm_append_left_iff, hheader] at hsame
    rw [hrest] at hreason
    rw [hrest', hheader] at hreason'
    rw [List.map_append, map_fst_assigned] at honce
    have hlater := ih (h.mono (by omega)) hfits' hreason hreason' (List.nodup_append.mp honce).2.1 hsame
    refine ⟨hstop.symm ▸ hlater.fits, fun p hp hmod hlt => ?_, hstop.symm ▸ hlater.stops⟩
    by_cases hinside : p < pos + 4 + 4 * recordCount (word pos)
    · rcases Nat.eq_or_lt_of_le hp with rfl | hafter
      · exact hheader
      · -- The values of the record are the same one by one.
        obtain ⟨i, rfl⟩ : ∃ i, p = pos + 4 + 4 * i := ⟨(p - pos - 4) / 4, by omega⟩
        rw [recordAssigned, recordAssigned, hheader] at hfirst
        exact (Prod.mk.inj (List.map_inj_left.mp hfirst i (List.mem_range.mpr (by omega)))).2
    · exact hlater.words p (Nat.not_lt.mp hinside) (by omega) (hstop ▸ hlt)
  | case4 pos hle =>
    have hnone : (walkRecords word limit pos).writes.map Write.assigned = [] := by
      rw [walkRecords, if_neg hle]
      rfl
    exact holdsRecords_of_no_writes hlimit hreason hreason' hnone (List.perm_nil.mp (hnone ▸ hsame))

end Copy

end AneLinux.Hwx
