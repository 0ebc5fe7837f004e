import AneLinux.Qwen.Compare

/-!
# The verdict and the order of prompts

The entries of a prompt are what an archive holds under its name, with the name taken off. What is loaded
for a prompt depends on these entries alone, so that prompts can change places together with their
entries. Tokens are found by id in both files. So the report on a candidate whose prompts changed places
is the report on the candidate itself, and a passed report says that tokens and first choices agree.
-/

namespace AneLinux.Qwen

open AneLinux.Support

section Names

variable {number : Numbering} {start name suffix full : List Char} {archive : Archive}

/-- What follows a given start. -/
theorem afterStart_eq_some : afterStart start full = some suffix ↔ full = start ++ suffix := by
  induction start generalizing full with
  | nil => exact ⟨Option.some.inj, congrArg some⟩
  | cons c start ih =>
    cases full with
    | nil =>
      constructor
      · intro h
        cases h
      · intro h
        cases h
    | cons d full =>
      rw [afterStart, List.cons_append, List.cons.injEq]
      by_cases hcd : c = d
      · rw [if_pos hcd, ih]
        exact ⟨fun h => ⟨hcd.symm, h⟩, And.right⟩
      · rw [if_neg hcd]
        constructor
        · intro h
          cases h
        · rintro ⟨rfl, -⟩
          exact (hcd rfl).elim

/-- A start in two parts is taken off in turn. -/
theorem afterStart_append (start start' full : List Char) :
    afterStart (start ++ start') full = (afterStart start full).bind (afterStart start') := by
  induction start generalizing full with
  | nil => rfl
  | cons c start ih =>
    cases full with
    | nil => rfl
    | cons d full =>
      rw [List.cons_append, afterStart, afterStart]
      by_cases hcd : c = d
      · rw [if_pos hcd, if_pos hcd, ih]
      · rw [if_neg hcd, if_neg hcd]
        rfl

/-- What may follow the name of a prompt: nothing, or the mark of a run. -/
def isEntry (suffix : List Char) : Bool := suffix.isEmpty || (afterStart "_run_".toList suffix).isSome

/-- The rest of an entry name of a prompt. -/
def entrySuffix (name full : List Char) : Option (List Char) := (afterStart name full).filter isEntry

/-- The entries of a prompt, without its name. -/
def promptEntries (name : List Char) (archive : Archive) : Archive :=
  archive.filterMap fun entry => (entrySuffix name entry.1).map fun suffix => (suffix, entry.2)

/-- An entry's suffix, read off its name. -/
theorem entrySuffix_eq_some : entrySuffix name full = some suffix ↔ full = name ++ suffix ∧ isEntry suffix := by
  rw [entrySuffix, Option.filter_eq_some_iff, afterStart_eq_some]

/-- An entry is found under its full name in the archive. -/
theorem find_promptEntries (hsuffix : isEntry suffix) :
    find (promptEntries name archive) suffix = find archive (name ++ suffix) := by
  induction archive with
  | nil => rfl
  | cons entry rest ih =>
    unfold promptEntries at ih ⊢
    rw [List.filterMap_cons, find]
    cases hentry : entrySuffix name entry.1 with
    | none =>
      have hne : entry.1 ≠ name ++ suffix := by
        intro heq
        rw [entrySuffix_eq_some.mpr ⟨heq, hsuffix⟩] at hentry
        cases hentry
      rw [if_neg hne]
      exact ih
    | some other =>
      obtain ⟨hfull, -⟩ := entrySuffix_eq_some.mp hentry
      rw [Option.map_some, find, hfull]
      by_cases hother : other = suffix
      · rw [if_pos hother, if_pos (by rw [hother])]
      · rw [if_neg hother, if_neg (fun heq => hother (List.append_cancel_left heq))]
        exact ih

/-- A prompt's entry is the archive's. -/
theorem read_promptEntries (hsuffix : isEntry suffix) :
    ((promptEntries name archive).read suffix).toOption = (archive.read (name ++ suffix)).toOption := by
  have hfind : find (promptEntries name archive).reverse suffix = find archive.reverse (name ++ suffix) := by
    rw [← find_promptEntries hsuffix, promptEntries, promptEntries, List.filterMap_reverse]
  unfold Archive.read lookup
  rw [hfind]
  cases find archive.reverse (name ++ suffix) with
  | none => rfl
  | some t => rfl

/-- Put the name of the prompt back in front of a key. -/
def withName (name : List Char) (key : ℕ × List Char) : ℕ × List Char := (key.1, name ++ key.2)

/-- The numbered keys of a prompt are those of its entries. -/
theorem numberedKeys_promptEntries (number : Numbering) (name : List Char) (archive : Archive) :
    numberedKeys number (name ++ "_run_".toList) (archive.map Prod.fst) =
      (numberedKeys number "_run_".toList ((promptEntries name archive).map Prod.fst)).map
        (List.map (withName name)) := by
  induction archive with
  | nil => rfl
  | cons entry rest ih =>
    unfold promptEntries at ih ⊢
    rw [List.map_cons, numberedKeys, ih, afterStart_append, List.filterMap_cons]
    cases hafter : afterStart name entry.1 with
    | none => simp only [entrySuffix, hafter, Option.filter_none, Option.map_none, Option.bind_none]
    | some suffix =>
      cases hrun : afterStart "_run_".toList suffix with
      | none =>
        by_cases hempty : isEntry suffix
        · simp only [entrySuffix, hafter, Option.filter_some, hempty, if_true, Option.map_some, List.map_cons,
            numberedKeys, Option.bind_some, hrun, Option.bind_none]
        · simp only [entrySuffix, hafter, Option.filter_some, hempty, Option.map_none, Option.bind_some, hrun,
            Option.bind_none, Bool.false_eq_true, if_false]
      | some tail =>
        have hentry : isEntry suffix = true := by
          rw [isEntry, hrun, Option.isSome_some, Bool.or_true]
        simp only [entrySuffix, hafter, Option.filter_some, hentry, if_true, Option.map_some, List.map_cons,
          numberedKeys, Option.bind_some, hrun]
        cases hnumber : number tail with
        | none => rfl
        | some value =>
          cases value with
          | error e => rfl
          | ok index =>
            simp only [ok_bind]
            cases numberedKeys number "_run_".toList _ with
            | error e => rfl
            | ok others =>
              have hfull := afterStart_eq_some.mp hafter
              rw [hfull]
              rfl

/-- A key is numbered through the mark of a run. -/
theorem isEntry_of_mem_numberedKeys {names : List (List Char)} {keys : List (ℕ × List Char)}
    (h : numberedKeys number "_run_".toList names = .ok keys) : ∀ key ∈ keys, isEntry key.2 := by
  induction names generalizing keys with
  | nil =>
    cases h
    intro key hkey
    cases hkey
  | cons full rest ih =>
    rw [numberedKeys] at h
    cases hrun : afterStart "_run_".toList full with
    | none =>
      rw [hrun] at h
      exact ih h
    | some tail =>
      rw [hrun, Option.bind_some] at h
      cases hnumber : number tail with
      | none =>
        rw [hnumber] at h
        exact ih h
      | some value =>
        rw [hnumber] at h
        obtain ⟨index, -, h⟩ := bind_eq_ok.mp h
        obtain ⟨others, hothers, h⟩ := bind_eq_ok.mp h
        cases h
        intro key hkey
        rcases List.mem_cons.mp hkey with rfl | hkey
        · rw [isEntry, hrun, Option.isSome_some, Bool.or_true]
        · exact ih hothers key hkey

/-- Keys keep their order under a common name. -/
theorem sortKeys_map_withName (name : List Char) (keys : List (ℕ × List Char)) :
    sortKeys (keys.map (withName name)) = (sortKeys keys).map (withName name) := by
  have hmono : StrictMono (fun l : List Char => name ++ l) := fun l l' hl => List.append_left_lt hl
  unfold sortKeys
  refine (List.map_insertionSort _ _ _ _ ?_).symm
  intro a _ b _
  simp only [withName, hmono.le_iff_le]

/-- Whether keys are contiguous does not depend on the name. -/
theorem contiguousKeys_map_withName (name : List Char) (keys : List (ℕ × List Char)) (message message' : String) :
    (contiguousKeys (keys.map (withName name)) message).toOption =
      (contiguousKeys keys message').toOption.map (List.map (name ++ ·)) := by
  have hnumbers : ∀ l : List (ℕ × List Char), (l.map (withName name)).map Prod.fst = l.map Prod.fst := by
    intro l
    rw [List.map_map]
    rfl
  unfold contiguousKeys
  rw [sortKeys_map_withName, hnumbers, List.length_map]
  by_cases hrange : (sortKeys keys).map Prod.fst = List.range keys.length
  · rw [if_neg (not_not.mpr hrange), if_neg (not_not.mpr hrange)]
    simp only [Except.toOption, Option.map_some, List.map_map]
    rfl
  · rw [if_pos hrange, if_pos hrange]
    rfl

/-- When a prompt has an entry of its bare name. -/
theorem mem_names_promptEntries (name : List Char) (archive : Archive) :
    [] ∈ (promptEntries name archive).map Prod.fst ↔ name ∈ archive.map Prod.fst := by
  constructor
  · intro h
    obtain ⟨entry, hentry, hnil⟩ := List.mem_map.mp h
    obtain ⟨whole, hwhole, hrest⟩ := List.mem_filterMap.mp hentry
    obtain ⟨suffix, hsuffix, rfl⟩ := Option.map_eq_some_iff.mp hrest
    obtain ⟨hfull, -⟩ := entrySuffix_eq_some.mp hsuffix
    obtain rfl : suffix = [] := hnil
    rw [List.append_nil] at hfull
    exact List.mem_map.mpr ⟨whole, hwhole, hfull⟩
  · intro h
    obtain ⟨whole, hwhole, rfl⟩ := List.mem_map.mp h
    refine List.mem_map.mpr ⟨([], whole.2), List.mem_filterMap.mpr ⟨whole, hwhole, ?_⟩, rfl⟩
    rw [entrySuffix_eq_some.mpr ⟨(List.append_nil whole.1).symm, rfl⟩, Option.map_some]

/-- The keys of a prompt are those of its entries, and all of them are entry names. -/
theorem namedRunKeys_promptEntries (number : Numbering) (name : List Char) (archive : Archive) :
    (namedRunKeys number archive name).toOption =
      (namedRunKeys number (promptEntries name archive) []).toOption.map (List.map (name ++ ·)) := by
  unfold namedRunKeys
  rw [numberedKeys_promptEntries, List.nil_append]
  cases numberedKeys number "_run_".toList ((promptEntries name archive).map Prod.fst) with
  | error e => rfl
  | ok keys =>
    simp only [Except.map, ok_bind, ne_eq, List.map_eq_nil_iff]
    by_cases hkeys : keys = []
    · rw [if_neg (not_not.mpr hkeys), if_neg (not_not.mpr hkeys)]
      by_cases hname : name ∈ archive.map Prod.fst
      · rw [if_pos hname, if_pos ((mem_names_promptEntries name archive).mpr hname)]
        simp [Except.toOption, pure, Except.pure]
      · rw [if_neg hname, if_neg (fun h => hname ((mem_names_promptEntries name archive).mp h))]
        rfl
    · rw [if_pos hkeys, if_pos hkeys]
      exact contiguousKeys_map_withName name keys _ _

theorem isEntry_of_mem_namedRunKeys {keys : List (List Char)} (h : namedRunKeys number archive [] = .ok keys) :
    ∀ key ∈ keys, isEntry key := by
  unfold namedRunKeys at h
  obtain ⟨repeated, hrepeated, h⟩ := bind_eq_ok.mp h
  intro key hkey
  by_cases hnil : repeated = []
  · rw [if_neg (not_not.mpr hnil)] at h
    cases h
    split at hkey
    · rw [List.mem_singleton] at hkey
      rw [hkey]
      rfl
    · cases hkey
  · rw [if_pos hnil, contiguousKeys] at h
    split at h
    · cases h
    · cases h
      obtain ⟨numbered, hnumbered, rfl⟩ := List.mem_map.mp hkey
      have hmem := (List.perm_insertionSort _ repeated).mem_iff.mp hnumbered
      exact isEntry_of_mem_numberedKeys hrepeated numbered hmem

/-- The runs of the prompt of a name. -/
def namedRuns (number : Numbering) (archive : Archive) (name : List Char) : Py (List Tensor) := do
  let keys ← namedRunKeys number archive name
  keys.mapM archive.read

/-- The runs of a prompt depend on its entries alone. -/
theorem namedRuns_promptEntries (number : Numbering) (name : List Char) (archive : Archive) :
    (namedRuns number archive name).toOption = (namedRuns number (promptEntries name archive) []).toOption := by
  unfold namedRuns
  rw [toOption_bind, toOption_bind, namedRunKeys_promptEntries]
  cases hkeys : namedRunKeys number (promptEntries name archive) [] with
  | error e => rfl
  | ok keys =>
    have hentries := isEntry_of_mem_namedRunKeys hkeys
    simp only [Except.toOption, Option.map_some, Option.bind_some]
    change ((keys.map (name ++ ·)).mapM archive.read).toOption = (keys.mapM (promptEntries name archive).read).toOption
    rw [toOption_mapM, toOption_mapM, List.mapM_map]
    exact mapM_congr_mem fun key hkey => (read_promptEntries (hentries key hkey)).symm

end Names

/-- Position `j` of the second store holds what position `i` of the first one holds. -/
def SameEntries : LogitStore → ℕ → LogitStore → ℕ → Prop
  | .shards _ files, i, .shards _ files', j => files' j = files i
  | .archive file, i, .archive file', j =>
    file'.map (promptEntries (promptName j)) = file.map (promptEntries (promptName i))
  | _, _, _, _ => False

variable {store store' : LogitStore} {i : ℕ} {places : ℕ ≃ ℕ} {candidate candidate' : RunFile} {id : String}

/-- What is loaded for a position depends on its entries alone; the texts of errors name the position. -/
theorem loadPromptRuns_of_sameEntries {j : ℕ} (number : Numbering) (h : SameEntries store i store' j) :
    (loadPromptRuns number store' j).toOption = (loadPromptRuns number store i).toOption := by
  cases store with
  | shards path files =>
    cases store' with
    | archive file' => exact h.elim
    | shards path' files' =>
      have hfiles : files' j = files i := h
      unfold loadPromptRuns
      simp only [hfiles]
      cases files i with
      | none => rfl
      | some archive =>
        simp only [toOption_bind]
        congr 1
        funext repeated
        congr 1
        unfold contiguousKeys
        split
        · rfl
        · rfl
  | archive file =>
    cases store' with
    | shards path' files' => exact h.elim
    | archive file' =>
      have hentries : file'.map (promptEntries (promptName j)) = file.map (promptEntries (promptName i)) := h
      cases file with
      | none =>
        rw [Option.map_none, Option.map_eq_none_iff] at hentries
        rw [hentries]
        rfl
      | some archive =>
        rw [Option.map_some, Option.map_eq_some_iff] at hentries
        obtain ⟨archive', rfl, hentries⟩ := hentries
        change (namedRuns number archive' (promptName j)).toOption = (namedRuns number archive (promptName i)).toOption
        rw [namedRuns_promptEntries, hentries, ← namedRuns_promptEntries]

/-- The prompts of a candidate changed places, together with their logits. -/
structure Reordered (places : ℕ ≃ ℕ) (candidate candidate' : RunFile) (store store' : LogitStore) : Prop where
  metadata : { candidate' with prompts := candidate.prompts } = candidate
  rows : ∀ i, candidate'.rows[places i]? = candidate.rows[i]?
  entries : ∀ i, i < candidate.rows.length → SameEntries store i store' (places i)

namespace Reordered

/-- Reordering keeps the rows. -/
theorem mem_rows (h : Reordered places candidate candidate' store store') (row : RunRow) :
    row ∈ candidate'.rows ↔ row ∈ candidate.rows := by
  rw [List.mem_iff_getElem?, List.mem_iff_getElem?]
  constructor
  · rintro ⟨j, hj⟩
    refine ⟨places.symm j, ?_⟩
    rw [← h.rows, Equiv.apply_symm_apply]
    exact hj
  · rintro ⟨i, hi⟩
    exact ⟨places i, (h.rows i).trans hi⟩

/-- With unique ids a row has one position. -/
theorem eq_of_ids {file : RunFile} (hids : file.ids.Nodup) {j : ℕ} {row row' : RunRow} (hi : file.rows[i]? = some row)
    (hj : file.rows[j]? = some row') (hid : row.id = row'.id) : i = j := by
  have hi' : file.ids[i]? = some row.id := by
    rw [RunFile.ids, List.getElem?_map, hi]
    rfl
  have hj' : file.ids[j]? = some row.id := by
    rw [RunFile.ids, List.getElem?_map, hj, hid]
    rfl
  have hlt : i < file.ids.length := (List.getElem?_eq_some_iff.mp hi').1
  exact (List.getElem?_inj hlt hids).mp (hi'.trans hj'.symm)

/-- Reordering keeps the ids distinct. -/
theorem ids_nodup (h : Reordered places candidate candidate' store store') (hids : candidate.ids.Nodup) :
    candidate'.ids.Nodup := by
  rw [RunFile.ids, List.nodup_iff_getElem?_ne_getElem?]
  intro a b hab hb heq
  rw [List.length_map] at hb
  obtain ⟨row, hrow⟩ : ∃ row, candidate'.rows[a]? = some row :=
    ⟨_, List.getElem?_eq_getElem (hab.trans hb)⟩
  obtain ⟨row', hrow'⟩ : ∃ row', candidate'.rows[b]? = some row' := ⟨_, List.getElem?_eq_getElem hb⟩
  rw [List.getElem?_map, List.getElem?_map, hrow, hrow'] at heq
  have hsource : ∀ j, candidate.rows[places.symm j]? = candidate'.rows[j]? := by
    intro j
    rw [← h.rows, Equiv.apply_symm_apply]
  have hplaces := eq_of_ids hids ((hsource a).trans hrow) ((hsource b).trans hrow') (Option.some.inj heq)
  exact hab.ne (places.symm.injective hplaces)

end Reordered

/-- With unique ids a row is found under its id. -/
theorem find_rowsById {rows : List RunRow} (hids : (rows.map RunRow.id).Nodup) {row : RunRow} :
    find (rowsById rows) id = some row ↔ row ∈ rows ∧ row.id = id := by
  have hkeys : ((rows.map fun row => (row.id, row)).map Prod.fst).Nodup := by
    rw [List.map_map]
    exact hids
  rw [rowsById, find_dict_eq_some_iff hkeys, List.mem_map]
  constructor
  · rintro ⟨row', hmem, heq⟩
    obtain ⟨hid, rfl⟩ := Prod.mk.inj heq
    exact ⟨hmem, hid⟩
  · rintro ⟨hmem, rfl⟩
    exact ⟨row, hmem, rfl⟩

theorem mem_keys_rowsById {rows : List RunRow} : id ∈ (rowsById rows).map Prod.fst ↔ ∃ row ∈ rows, row.id = id := by
  rw [rowsById, (keys_dict _).2, List.map_map, List.mem_map]
  rfl

/-- With unique ids the position of a row is found under its id. -/
theorem find_candidateIndices {file : RunFile} (hids : file.ids.Nodup) :
    find (dict (file.rows.zipIdx.map fun entry => (entry.1.id, entry.2))) id = some i ↔
      ∃ row, file.rows[i]? = some row ∧ row.id = id := by
  have hkeys : ((file.rows.zipIdx.map fun entry => (entry.1.id, entry.2)).map Prod.fst).Nodup := by
    have hfst : (file.rows.zipIdx.map fun entry => (entry.1.id, entry.2)).map Prod.fst = file.ids := by
      rw [List.map_map, RunFile.ids, ← List.zipIdx_map_fst 0 file.rows, List.map_map]
      simp [Function.comp_def]
    rw [hfst]
    exact hids
  rw [find_dict_eq_some_iff hkeys, List.mem_map]
  constructor
  · rintro ⟨⟨row, j⟩, hmem, heq⟩
    obtain ⟨hid, rfl⟩ := Prod.mk.inj heq
    exact ⟨row, List.mem_zipIdx_iff_getElem?.mp hmem, hid⟩
  · rintro ⟨row, hrow, rfl⟩
    exact ⟨(row, i), List.mem_zipIdx_iff_getElem?.mpr hrow, rfl⟩

namespace Reordered

variable (h : Reordered places candidate candidate' store store')

include h in
/-- A row is found by its id in either order. -/
theorem find_rowsById_eq (hids : candidate.ids.Nodup) (id : String) :
    find (rowsById candidate'.rows) id = find (rowsById candidate.rows) id := by
  apply Option.ext
  intro row
  rw [find_rowsById (h.ids_nodup hids), find_rowsById hids, h.mem_rows]

include h in
theorem mem_keys_iff (id : String) :
    id ∈ (rowsById candidate'.rows).map Prod.fst ↔ id ∈ (rowsById candidate.rows).map Prod.fst := by
  simp only [mem_keys_rowsById, h.mem_rows]

include h in
/-- Tokens compare alike in either order. -/
theorem compareTokens_eq (hids : candidate.ids.Nodup) (reference : List (String × RunRow)) (id : String) :
    compareTokens reference (rowsById candidate'.rows) id = compareTokens reference (rowsById candidate.rows) id := by
  unfold compareTokens lookup
  rw [h.find_rowsById_eq hids]

include h in
/-- So do the metadata. -/
theorem metadataErrors_eq (reference : RunFile) (contract : Contract) :
    metadataErrors reference candidate' contract = metadataErrors reference candidate contract := by
  rw [← h.metadata]
  rfl

include h in
/-- The token report does not depend on the order of the candidate. -/
theorem compareTokenSequences_eq (hids : candidate.ids.Nodup) (reference : RunFile) (contract : Contract) :
    compareTokenSequences reference candidate' contract = compareTokenSequences reference candidate contract := by
  have hmissing : ((rowsById reference.rows).map Prod.fst).filter
      (fun id => decide (id ∉ (rowsById candidate'.rows).map Prod.fst)) =
      ((rowsById reference.rows).map Prod.fst).filter
        (fun id => decide (id ∉ (rowsById candidate.rows).map Prod.fst)) := by
    simp only [h.mem_keys_iff]
  have hcommon : ((rowsById reference.rows).map Prod.fst).filter
      (fun id => decide (id ∈ (rowsById candidate'.rows).map Prod.fst)) =
      ((rowsById reference.rows).map Prod.fst).filter
        (fun id => decide (id ∈ (rowsById candidate.rows).map Prod.fst)) := by
    simp only [h.mem_keys_iff]
  have hunexpected : sorted (((rowsById candidate'.rows).map Prod.fst).filter
      fun id => decide (id ∉ (rowsById reference.rows).map Prod.fst)) =
      sorted (((rowsById candidate.rows).map Prod.fst).filter
        fun id => decide (id ∉ (rowsById reference.rows).map Prod.fst)) := by
    refine sorted_eq_of_mem_iff ((keys_dict _).1.filter _) ((keys_dict _).1.filter _) fun id => ?_
    rw [List.mem_filter, List.mem_filter]
    exact and_congr_left fun _ => h.mem_keys_iff id
  unfold compareTokenSequences
  simp only [h.metadataErrors_eq, hmissing, hcommon, hunexpected, h.compareTokens_eq hids]

include h in
/-- A prompt's index moves with its row. -/
theorem find_candidateIndices_eq (hids : candidate.ids.Nodup) (id : String) :
    find (dict (candidate'.rows.zipIdx.map fun entry => (entry.1.id, entry.2))) id =
      (find (dict (candidate.rows.zipIdx.map fun entry => (entry.1.id, entry.2))) id).map places := by
  apply Option.ext
  intro j
  rw [find_candidateIndices (h.ids_nodup hids), Option.map_eq_some_iff]
  constructor
  · rintro ⟨row, hrow, hid⟩
    refine ⟨places.symm j, (find_candidateIndices hids).mpr ⟨row, ?_, hid⟩, Equiv.apply_symm_apply places j⟩
    rw [← h.rows, Equiv.apply_symm_apply]
    exact hrow
  · rintro ⟨i, hi, rfl⟩
    obtain ⟨row, hrow, hid⟩ := (find_candidateIndices hids).mp hi
    exact ⟨row, (h.rows i).trans hrow, hid⟩

variable {F : Type} (number : Numbering) (arithmetic : Arithmetic F) (thresholds : Thresholds F) (contract : Contract)
  (referenceLogits : LogitStore)

include h in
/-- One prompt compares alike. -/
theorem comparePrompt_eq (hids : candidate.ids.Nodup) (referencePrompts : List (String × RunRow)) (index : ℕ)
    (row : RunRow) :
    (comparePrompt number arithmetic thresholds contract referenceLogits store' referencePrompts
        (dict (candidate'.rows.zipIdx.map fun entry => (entry.1.id, entry.2))) index row).toOption =
      (comparePrompt number arithmetic thresholds contract referenceLogits store referencePrompts
        (dict (candidate.rows.zipIdx.map fun entry => (entry.1.id, entry.2))) index row).toOption := by
  unfold comparePrompt
  rw [toOption_bind, toOption_bind, h.find_candidateIndices_eq hids]
  congr 1
  funext referenceRuns
  cases hfind : find (dict (candidate.rows.zipIdx.map fun entry => (entry.1.id, entry.2))) row.id with
  | none => rfl
  | some i =>
    obtain ⟨found, hfound, -⟩ := (find_candidateIndices hids).mp hfind
    have hlength : i < candidate.rows.length := (List.getElem?_eq_some_iff.mp hfound).1
    simp only [Option.map_some]
    rw [toOption_bind, toOption_bind, loadPromptRuns_of_sameEntries number (h.entries i hlength)]

include h in
/-- All prompts compare alike. -/
theorem comparePrompts_eq (hids : candidate.ids.Nodup) (referencePrompts : List (String × RunRow)) (rows : List RunRow)
    (index : ℕ) (report : LogitReport F) :
    (comparePrompts number arithmetic thresholds contract referenceLogits store' referencePrompts
        (dict (candidate'.rows.zipIdx.map fun entry => (entry.1.id, entry.2))) index rows report).toOption =
      (comparePrompts number arithmetic thresholds contract referenceLogits store referencePrompts
        (dict (candidate.rows.zipIdx.map fun entry => (entry.1.id, entry.2))) index rows report).toOption := by
  induction rows generalizing index report with
  | nil => rfl
  | cons row rest ih =>
    rw [comparePrompts, comparePrompts, toOption_bind, toOption_bind, h.comparePrompt_eq _ _ _ _ _ hids]
    congr 1
    funext prompt
    exact ih _ _

include h in
/-- The report does not depend on the order of the candidate: both comparisons raise or both give one report. -/
theorem compareRunFiles_eq (hids : candidate.ids.Nodup) (reference : RunFile)
    (referenceCheckpoints candidateCheckpoints : Option Archive) :
    (compareRunFiles number arithmetic thresholds contract referenceLogits store' reference candidate'
        referenceCheckpoints candidateCheckpoints).toOption =
      (compareRunFiles number arithmetic thresholds contract referenceLogits store reference candidate
        referenceCheckpoints candidateCheckpoints).toOption := by
  unfold compareRunFiles
  rw [h.compareTokenSequences_eq hids, toOption_bind, toOption_bind]
  congr 1
  funext tokenParity
  rw [toOption_bind, toOption_bind]
  congr 1
  funext referenceRows
  rw [toOption_bind, toOption_bind, h.comparePrompts_eq _ _ _ _ _ hids]

end Reordered

end AneLinux.Qwen
