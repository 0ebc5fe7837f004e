import AneLinux.Qwen.PromptOrder
import Mathlib.Algebra.Order.Field.Rat
import Mathlib.Data.List.ReduceOption

/-!
# What a passed comparison says

A report passes when the metadata, the tokens and the logits of every prompt pass. Read back through
the loops, this gives the same ids, the same tokens for every id, the same number of runs and the same
first choice at every compared step of every run.
-/

namespace AneLinux.Qwen

open AneLinux.Support

/-- `t[0:]` is the array itself. -/
theorem Tensor.dropRows_zero (t : Tensor) : t.dropRows 0 = t := by
  obtain ⟨shape, values, size_eq⟩ := t
  cases shape with
  | nil => rfl
  | cons steps rest =>
    unfold dropRows
    simp only [Nat.sub_zero, Nat.zero_mul, List.drop_zero]

/-- A mean of booleans is one when all of them are true. -/
theorem all_of_mean_eq_one {values : List Bool} (h : (values.count true : ℚ) / (values.length : ℚ) = 1) :
    ∀ value ∈ values, value = true := by
  have hlength : (values.length : ℚ) ≠ 0 := by
    intro hzero
    rw [hzero, div_zero] at h
    exact zero_ne_one h
  have hcount : values.count true = values.length := by
    rw [div_eq_one_iff_eq hlength] at h
    exact_mod_cast h
  intro value hvalue
  exact (List.count_eq_length.mp hcount value hvalue).symm

/-- Lists of one length whose elements agree in pairs under two functions have one image. -/
theorem map_eq_map_of_zipWith {α β : Type*} [BEq β] [LawfulBEq β] {f : α → β} {left right : List α}
    (hlength : left.length = right.length)
    (h : ∀ same ∈ List.zipWith (fun a b => f a == f b) left right, same = true) : left.map f = right.map f := by
  induction left generalizing right with
  | nil =>
    cases right with
    | nil => rfl
    | cons b right => cases hlength
  | cons a left ih =>
    cases right with
    | nil => cases hlength
    | cons b right =>
      rw [List.zipWith_cons_cons, List.forall_mem_cons] at h
      rw [List.map_cons, List.map_cons, eq_of_beq h.1, ih (Nat.succ.inj hlength) h.2]

section Reports

variable {F : Type} {number : Numbering} {arithmetic : Arithmetic F} {thresholds : Thresholds F} {contract : Contract}
  {referenceLogits candidateLogits : LogitStore}

/-- Logits that pass have the same first choice in every row. -/
theorem compareLogits_passed {reference candidate : Tensor} {report : RunReport F}
    (h : compareLogits arithmetic thresholds reference candidate 0 = .ok report) (hpassed : report.passed = true) :
    reference.rows.map argmax = candidate.rows.map argmax := by
  unfold compareLogits at h
  split at h
  · cases h
  · split at h
    · cases h
    · next hshape =>
      split at h
      · cases h
      · split at h
        · cases h
        · simp only [Tensor.dropRows_zero] at h
          split at h
          · cases h
          · obtain rfl := Except.ok.inj h
            simp only [Bool.and_eq_true, decide_eq_true_eq] at hpassed
            have hall := all_of_mean_eq_one hpassed.1.1.1.1
            refine map_eq_map_of_zipWith ?_ hall
            rw [Tensor.rows, Tensor.rows, List.length_map, List.length_map, Tensor.steps, Tensor.steps,
              not_not.mp hshape]

/-- Two runs have the same first choice at every compared step. -/
def SameChoices (contract : Contract) (promptTokens : ℕ) (run run' : Tensor) : Prop :=
  ∃ left right, generatedLogits run promptTokens contract.newTokens = .ok left ∧
    generatedLogits run' promptTokens contract.newTokens = .ok right ∧ left.rows.map argmax = right.rows.map argmax

theorem compareRun_passed {promptTokens : ℕ} {run run' : Tensor} {report : RunReport F}
    (h : compareRun arithmetic thresholds contract promptTokens run run' = .ok report)
    (hpassed : report.passed = true) : SameChoices contract promptTokens run run' := by
  unfold compareRun at h
  obtain ⟨left, hleft, h⟩ := bind_eq_ok.mp h
  obtain ⟨right, hright, h⟩ := bind_eq_ok.mp h
  exact ⟨left, right, hleft, hright, compareLogits_passed h hpassed⟩

/-- The runs of a prompt agree: as many of them, and the same first choices in each. -/
def RunsAgree (number : Numbering) (contract : Contract) (referenceLogits candidateLogits : LogitStore)
    (promptTokens i j : ℕ) : Prop :=
  ∃ runs runs', loadPromptRuns number referenceLogits i = .ok runs ∧
    loadPromptRuns number candidateLogits j = .ok runs' ∧ runs.length = runs'.length ∧
    ∀ pair ∈ runs.zip runs', SameChoices contract promptTokens pair.1 pair.2

/-- A prompt that passes is in the candidate, and its runs agree. -/
theorem comparePrompt_passed {referencePrompts : List (String × RunRow)} {candidateIndices : List (String × ℕ)}
    {i : ℕ} {row : RunRow} {report : PromptReport F} (hrow : find referencePrompts row.id = some row)
    (h : comparePrompt number arithmetic thresholds contract referenceLogits candidateLogits referencePrompts
      candidateIndices i row = .ok report) (hpassed : report.passed = true) :
    ∃ j, find candidateIndices row.id = some j ∧
      RunsAgree number contract referenceLogits candidateLogits (row.promptTokenIds.getD []).length i j := by
  unfold comparePrompt at h
  obtain ⟨runs, hruns, h⟩ := bind_eq_ok.mp h
  cases hfind : find candidateIndices row.id with
  | none =>
    rw [hfind] at h
    cases h
    cases hpassed
  | some j =>
    rw [hfind] at h
    obtain ⟨runs', hruns', h⟩ := bind_eq_ok.mp h
    split at h
    · cases h
      cases hpassed
    · split at h
      · cases h
        cases hpassed
      · next hcount =>
        obtain ⟨found, hfound, h⟩ := bind_eq_ok.mp h
        rw [lookup, hrow] at hfound
        cases hfound
        obtain ⟨promptTokenIds, hids, h⟩ := bind_eq_ok.mp h
        obtain ⟨reports, hreports, h⟩ := bind_eq_ok.mp h
        cases h
        have htokens : row.promptTokenIds.getD [] = promptTokenIds := by
          cases hrowIds : row.promptTokenIds with
          | none =>
            rw [hrowIds] at hids
            cases hids
          | some ids =>
            rw [hrowIds] at hids
            cases hids
            rfl
        refine ⟨j, rfl, runs, runs', hruns, hruns', not_not.mp hcount, fun pair hpair => ?_⟩
        obtain ⟨run, hrun, hreport⟩ := exists_related (mapM_eq_ok.mp hreports) hpair
        rw [htokens]
        exact compareRun_passed hreport (List.all_eq_true.mp hpassed run hrun)

/-- When the loop passes, every row passes. -/
theorem comparePrompts_passed {referencePrompts : List (String × RunRow)} {candidateIndices : List (String × ℕ)}
    {rows : List RunRow} {start : ℕ} {report report' : LogitReport F}
    (h : comparePrompts number arithmetic thresholds contract referenceLogits candidateLogits referencePrompts
      candidateIndices start rows report = .ok report') (hpassed : report'.passed = true) :
    report.passed = true ∧ ∀ i row, rows[i]? = some row → ∃ prompt,
      comparePrompt number arithmetic thresholds contract referenceLogits candidateLogits referencePrompts
        candidateIndices (start + i) row = .ok prompt ∧ prompt.passed = true := by
  induction rows generalizing start report with
  | nil =>
    cases h
    refine ⟨hpassed, fun i row hrow => ?_⟩
    cases hrow
  | cons first rest ih =>
    rw [comparePrompts] at h
    obtain ⟨prompt, hprompt, h⟩ := bind_eq_ok.mp h
    obtain ⟨hboth, hrest⟩ := ih h
    rw [Bool.and_eq_true] at hboth
    refine ⟨hboth.1, fun i row hrow => ?_⟩
    cases i with
    | zero =>
      cases hrow
      exact ⟨prompt, hprompt, hboth.2⟩
    | succ i =>
      rw [List.getElem?_cons_succ] at hrow
      rw [← Nat.add_assoc, Nat.add_right_comm]
      exact hrest i row hrow

/-- When the tokens pass, both files have the same ids, and the tokens of each id agree. -/
theorem compareTokenSequences_passed {reference candidate : RunFile} {report : TokenReport}
    (hreference : reference.ids.Nodup) (hcandidate : candidate.ids.Nodup)
    (h : compareTokenSequences reference candidate contract = .ok report) (hpassed : report.passed = true) :
    (∀ id, id ∈ reference.ids ↔ id ∈ candidate.ids) ∧
      ∀ row ∈ reference.rows, ∀ row' ∈ candidate.rows, row.id = row'.id →
        ∃ ids, promptGeneratedIds row = .ok ids ∧ promptGeneratedIds row' = .ok ids := by
  unfold compareTokenSequences at h
  obtain ⟨compared, hcompared, h⟩ := bind_eq_ok.mp h
  obtain rfl := Except.ok.inj h
  simp only [Bool.and_eq_true, List.isEmpty_iff] at hpassed
  obtain ⟨⟨⟨hmissing, hunexpected⟩, hmismatches⟩, -⟩ := hpassed
  have hnone : ∀ {ids ids' : List String}, sorted (ids.filter fun id => decide (id ∉ ids')) = [] →
      ∀ id ∈ ids, id ∈ ids' := by
    intro ids ids' hempty id hid
    by_contra hid'
    have hmem : id ∈ sorted (ids.filter fun id => decide (id ∉ ids')) :=
      mem_sorted.mpr (List.mem_filter.mpr ⟨hid, decide_eq_true hid'⟩)
    rw [hempty] at hmem
    cases hmem
  have hkeys : ∀ {file : RunFile} {id : String}, id ∈ (rowsById file.rows).map Prod.fst ↔ id ∈ file.ids := by
    intro file id
    rw [mem_keys_rowsById, RunFile.ids, List.mem_map]
  refine ⟨fun id => ⟨fun hid => ?_, fun hid => ?_⟩, fun row hrow row' hrow' hid => ?_⟩
  · exact hkeys.mp (hnone hmissing id (hkeys.mpr hid))
  · exact hkeys.mp (hnone hunexpected id (hkeys.mpr hid))
  · have hcommon : row.id ∈ sorted (((rowsById reference.rows).map Prod.fst).filter
        fun id => decide (id ∈ (rowsById candidate.rows).map Prod.fst)) := by
      refine mem_sorted.mpr (List.mem_filter.mpr ⟨mem_keys_rowsById.mpr ⟨row, hrow, rfl⟩, decide_eq_true ?_⟩)
      exact mem_keys_rowsById.mpr ⟨row', hrow', hid.symm⟩
    obtain ⟨outcome, houtcome, htokens⟩ := exists_related (mapM_eq_ok.mp hcompared) hcommon
    unfold compareTokens lookup at htokens
    rw [(find_rowsById hreference).mpr ⟨hrow, rfl⟩, (find_rowsById hcandidate).mpr ⟨hrow', hid.symm⟩] at htokens
    simp only [ok_bind] at htokens
    obtain ⟨expected, hexpected, htokens⟩ := bind_eq_ok.mp htokens
    obtain ⟨actual, hactual, htokens⟩ := bind_eq_ok.mp htokens
    obtain rfl := Except.ok.inj htokens
    by_cases hsame : expected = actual
    · exact ⟨expected, hexpected, hsame ▸ hactual⟩
    · rw [if_neg hsame] at houtcome
      have hmem := List.reduceOption_mem_iff.mpr houtcome
      rw [hmismatches] at hmem
      cases hmem

/-- What two runs have in common when they pass. -/
structure Parity (number : Numbering) (contract : Contract) (reference candidate : RunFile)
    (referenceLogits candidateLogits : LogitStore) : Prop where
  ids : ∀ id, id ∈ reference.ids ↔ id ∈ candidate.ids
  tokens : ∀ row ∈ reference.rows, ∀ row' ∈ candidate.rows, row.id = row'.id →
    ∃ ids, promptGeneratedIds row = .ok ids ∧ promptGeneratedIds row' = .ok ids
  runs : ∀ i j row row', reference.rows[i]? = some row → candidate.rows[j]? = some row' → row.id = row'.id →
    RunsAgree number contract referenceLogits candidateLogits (row.promptTokenIds.getD []).length i j

/-- A comparison that passes has parity. -/
theorem compareRunFiles_passed {reference candidate : RunFile}
    {referenceCheckpoints candidateCheckpoints : Option Archive}
    {report : ParityReport F} (hreference : reference.ids.Nodup) (hcandidate : candidate.ids.Nodup)
    (h : compareRunFiles number arithmetic thresholds contract referenceLogits candidateLogits reference candidate
      referenceCheckpoints candidateCheckpoints = .ok report) (hpassed : report.passed = true) :
    Parity number contract reference candidate referenceLogits candidateLogits := by
  unfold compareRunFiles at h
  obtain ⟨tokens, htokens, h⟩ := bind_eq_ok.mp h
  obtain ⟨rows, hrows, h⟩ := bind_eq_ok.mp h
  obtain ⟨logits, hlogits, h⟩ := bind_eq_ok.mp h
  obtain ⟨layers, -, h⟩ := bind_eq_ok.mp h
  obtain rfl := Except.ok.inj h
  simp only [Bool.and_eq_true] at hpassed
  obtain ⟨⟨htokensPassed, hlogitsPassed⟩, -⟩ := hpassed
  obtain rfl : reference.rows = rows := by
    unfold RunFile.rows
    cases hprompts : reference.prompts with
    | none =>
      rw [hprompts] at hrows
      cases hrows
    | some prompts =>
      rw [hprompts] at hrows
      exact Except.ok.inj hrows
  obtain ⟨hids, hequal⟩ := compareTokenSequences_passed hreference hcandidate htokens htokensPassed
  obtain ⟨-, hprompts⟩ := comparePrompts_passed hlogits hlogitsPassed
  refine ⟨hids, hequal, fun i j row row' hrow hrow' hid => ?_⟩
  obtain ⟨prompt, hprompt, hpromptPassed⟩ := hprompts i row hrow
  rw [Nat.zero_add] at hprompt
  have hfind := (find_rowsById hreference).mpr ⟨List.mem_of_getElem? hrow, rfl⟩
  obtain ⟨j', hj', hruns⟩ := comparePrompt_passed hfind hprompt hpromptPassed
  obtain ⟨found, hfound, hfoundId⟩ := (find_candidateIndices hcandidate).mp hj'
  obtain rfl := Reordered.eq_of_ids hcandidate hfound hrow' (hfoundId.trans hid)
  exact hruns

/-- The verdict on unique ids does not depend on the order of the candidate's prompts, and when it is positive
the two runs have parity. -/
theorem compareRunFiles_orderIndependent_and_parity (number : Numbering) (arithmetic : Arithmetic F)
    (thresholds : Thresholds F) (contract : Contract) (reference candidate : RunFile)
    (referenceLogits candidateLogits : LogitStore) (referenceCheckpoints candidateCheckpoints : Option Archive)
    (hreference : reference.ids.Nodup) (hcandidate : candidate.ids.Nodup) :
    (∀ places candidate' candidateLogits', Reordered places candidate candidate' candidateLogits candidateLogits' →
      (compareRunFiles number arithmetic thresholds contract referenceLogits candidateLogits' reference candidate'
          referenceCheckpoints candidateCheckpoints).toOption =
        (compareRunFiles number arithmetic thresholds contract referenceLogits candidateLogits reference candidate
          referenceCheckpoints candidateCheckpoints).toOption) ∧
      ∀ report, compareRunFiles number arithmetic thresholds contract referenceLogits candidateLogits reference
          candidate referenceCheckpoints candidateCheckpoints = .ok report → report.passed = true →
        Parity number contract reference candidate referenceLogits candidateLogits := by
  refine ⟨fun places candidate' candidateLogits' hreordered => ?_, fun report hreport hpassed => ?_⟩
  · exact hreordered.compareRunFiles_eq number arithmetic thresholds contract referenceLogits hcandidate reference
      referenceCheckpoints candidateCheckpoints
  · exact compareRunFiles_passed hreference hcandidate hreport hpassed

end Reports

/-- `isdigit` and `int` of a text of ASCII digits. -/
def asciiNumber : Numbering := fun text =>
  if text ≠ [] ∧ text.all Char.isDigit then some (.ok (text.foldl (fun n c => 10 * n + (c.toNat - 48)) 0)) else none

/-- The metrics of a run compared with itself. -/
def exactArithmetic : Arithmetic ℚ where
  atMost a b := decide (a ≤ b)
  logitMetrics _ _ := ⟨1, 0, 0, 0⟩
  layerMetrics _ _ := ⟨0, 0, 0⟩

/-- A contract of one new token. -/
def oneTokenContract : Contract :=
  { modelBytes := 1, modelSha256 := "model", layers := 1, corpusSha256 := "", corpusPrompts := 2, newTokens := 1 }

/-- A run of two prompts in an order. -/
def twoPrompts (first second : RunRow) : RunFile where
  modelBytes := some 1
  modelSha256 := some "model"
  maxNewTokens := some 1
  nLayers := some 1
  prompts := some [first, second]

/-- A prompt with one generated token. -/
def oneTokenRow (id : String) (token : ℤ) : RunRow :=
  { id, generatedIds := some [token], runs := none, promptTokenIds := some [1, 2] }

/-- One step of three logits with a choice. -/
def choice (token : ℕ) : Tensor where
  shape := [1, 3]
  values := (List.range 3).map fun i => if i = token then 0x3f800000 else 0
  size_eq := rfl

/-- The archive of two prompts. -/
def twoChoices (first second : ℕ) : LogitStore :=
  .archive (some [("prompt_000".toList, choice first), ("prompt_001".toList, choice second)])

theorem twoChoices_reordered : Reordered (Equiv.swap 0 1) (twoPrompts (oneTokenRow "b" 2) (oneTokenRow "a" 1))
    (twoPrompts (oneTokenRow "a" 1) (oneTokenRow "b" 2)) (twoChoices 2 1) (twoChoices 1 2) where
  metadata := rfl
  rows i := by
    match i with
    | 0 => rfl
    | 1 => rfl
    | i + 2 =>
      rw [Equiv.swap_apply_of_ne_of_ne (by omega) (by omega)]
      rfl
  entries i hi := by
    match i with
    | 0 => exact (rfl : some _ = some _)
    | 1 => exact (rfl : some _ = some _)
    | i + 2 => exact absurd hi (by simp [twoPrompts, RunFile.rows])

/-- Two prompts that change places pass as before. -/
theorem compareRunFiles_orderIndependent_and_parity_swapped :
    (compareRunFiles asciiNumber exactArithmetic ⟨9 / 10, 1 / 4, 1 / 50, 1 / 100⟩ oneTokenContract (twoChoices 2 1)
        (twoChoices 1 2) (twoPrompts (oneTokenRow "b" 2) (oneTokenRow "a" 1))
        (twoPrompts (oneTokenRow "a" 1) (oneTokenRow "b" 2)) none none).toOption =
      (compareRunFiles asciiNumber exactArithmetic ⟨9 / 10, 1 / 4, 1 / 50, 1 / 100⟩ oneTokenContract (twoChoices 2 1)
        (twoChoices 2 1) (twoPrompts (oneTokenRow "b" 2) (oneTokenRow "a" 1))
        (twoPrompts (oneTokenRow "b" 2) (oneTokenRow "a" 1)) none none).toOption ∧
      Parity asciiNumber oneTokenContract (twoPrompts (oneTokenRow "b" 2) (oneTokenRow "a" 1))
        (twoPrompts (oneTokenRow "b" 2) (oneTokenRow "a" 1)) (twoChoices 2 1) (twoChoices 2 1) := by
  obtain ⟨horder, hparity⟩ := compareRunFiles_orderIndependent_and_parity asciiNumber exactArithmetic
    ⟨9 / 10, 1 / 4, 1 / 50, 1 / 100⟩ oneTokenContract (twoPrompts (oneTokenRow "b" 2) (oneTokenRow "a" 1))
    (twoPrompts (oneTokenRow "b" 2) (oneTokenRow "a" 1)) (twoChoices 2 1) (twoChoices 2 1) none none
    (by decide) (by decide)
  refine ⟨horder _ _ _ twoChoices_reordered, ?_⟩
  refine hparity _ rfl ?_
  decide +kernel

end AneLinux.Qwen
