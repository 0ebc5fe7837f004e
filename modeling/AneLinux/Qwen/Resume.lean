import AneLinux.Qwen.Corpus

/-!
# What a resumed corpus run reports

The prompts of a run are independent of each other: the result of a position is the leftover of that
position, if it passes `load_completed_prompt`, and else what the process of this run writes. The check
of a leftover looks at its prompt id, at the number of generated tokens and at its logits. It does not
compare the model, the layers or the prompt text, so `result.json` may mix models.
-/

namespace AneLinux.Qwen

open AneLinux.Support

variable {args : Arguments} {world : ℕ → Answer} {dir dir' : Directory} {position newTokens : ℕ} {row : CorpusRow}

/-- An accepted prompt file is the one at its position, and it has a first prompt. -/
theorem loadCompletedPrompt_eq_some {result : ResultFile}
    (h : loadCompletedPrompt dir position row newTokens = .ok (some result)) :
    dir.results position = some result ∧ ∃ prompt, result.prompts[0]? = some prompt := by
  unfold loadCompletedPrompt at h
  cases hresult : dir.results position with
  | none => simp [hresult] at h
  | some result' =>
    cases hlogits : dir.logits position with
    | none => simp [hresult, hlogits] at h
    | some logits =>
      simp only [hresult, hlogits] at h
      obtain ⟨prompt, hprompt, h⟩ := bind_eq_ok.mp h
      obtain ⟨run, -, h⟩ := bind_eq_ok.mp h
      split at h
      · cases h
      · split at h
        · cases h
        · split at h
          · cases h
          · cases h
            exact ⟨rfl, prompt, index_eq_ok.mp hprompt⟩

/-- The check of a position reads the files of this position only. -/
theorem loadCompletedPrompt_congr (hresults : dir'.results position = dir.results position)
    (hlogits : dir'.logits position = dir.logits position) :
    loadCompletedPrompt dir' position row newTokens = loadCompletedPrompt dir position row newTokens := by
  unfold loadCompletedPrompt
  rw [hresults, hlogits]

/-- The result a run reports for a position: the leftover, or what its process writes. -/
def outcome (args : Arguments) (world : ℕ → Answer) (dir : Directory) (position : ℕ) (row : CorpusRow) :
    ResultFile :=
  match loadCompletedPrompt dir position row args.contract.newTokens with
  | .ok (some result) => result
  | _ => promptResult args row (world position)

/-- Two directories with the same files from `position` on. -/
def SameFrom (position : ℕ) (dir dir' : Directory) : Prop :=
  ∀ j, position ≤ j → dir'.results j = dir.results j ∧ dir'.logits j = dir.logits j

/-- Two directories with the same files before `position`. -/
def SameBefore (position : ℕ) (dir dir' : Directory) : Prop :=
  ∀ j, j < position → dir'.results j = dir.results j

/-- A process that ends well has written both files of its position, and nothing else. -/
theorem runProcess_eq_ok {answer : Answer} (h : runProcess args position row answer dir = (dir', .ok ())) :
    dir' = (dir.putLogits position answer.logits).putResult position (promptResult args row answer) := by
  unfold runProcess at h
  simp only [Method.change_bind] at h
  split at h
  · next hdone =>
    rw [hdone] at h
    exact (congrArg Prod.fst h).symm
  · cases congrArg Prod.snd h

/-- The work on one prompt: its result, its file, and what it leaves alone. -/
theorem completePrompt_eq_ok {result : ResultFile}
    (h : completePrompt args position row (world position) dir = (dir', .ok result)) :
    result = outcome args world dir position row ∧ dir'.results position = some result ∧
      (∃ prompt, result.prompts[0]? = some prompt) ∧ dir'.summary = dir.summary ∧
      SameFrom (position + 1) dir dir' ∧ SameBefore position dir dir' := by
  unfold completePrompt at h
  rw [Method.read_bind] at h
  obtain ⟨start, leftover, hstart, h⟩ := Method.bind_eq_ok.mp h
  obtain ⟨rfl, hleftover⟩ := Prod.mk.inj hstart
  unfold outcome
  cases leftover with
  | some kept =>
    cases h
    obtain ⟨hfile, hprompt⟩ := loadCompletedPrompt_eq_some hleftover
    rw [hleftover]
    exact ⟨rfl, hfile, hprompt, rfl, fun j _ => ⟨rfl, rfl⟩, fun j _ => rfl⟩
  | none =>
    obtain ⟨middle, _, hrun, h⟩ := Method.bind_eq_ok.mp h
    have hmiddle := runProcess_eq_ok hrun
    rw [Method.read_bind] at h
    obtain ⟨final, loaded, hfinal, h⟩ := Method.bind_eq_ok.mp h
    obtain ⟨rfl, hloaded⟩ := Prod.mk.inj hfinal
    cases loaded with
    | none => cases congrArg Prod.snd h
    | some written =>
      cases h
      obtain ⟨hfile, hprompt⟩ := loadCompletedPrompt_eq_some hloaded
      have hresult : dir'.results position = some (promptResult args row (world position)) := by
        rw [hmiddle]
        exact Function.update_self _ _ _
      have hother : ∀ j, j ≠ position → dir'.results j = dir.results j ∧ dir'.logits j = dir.logits j := by
        intro j hj
        rw [hmiddle]
        exact ⟨Function.update_of_ne hj _ _, Function.update_of_ne hj _ _⟩
      rw [hleftover]
      refine ⟨Option.mem_unique hfile hresult, hfile, hprompt, ?_, ?_, ?_⟩
      · rw [hmiddle]
        rfl
      · exact fun j hj => hother j (by omega)
      · exact fun j hj => (hother j (by omega)).1

/-- `result.json` states the identity of the first result and lists the first prompt of each. -/
def SummaryOf (completed : List ResultFile) (summary : Option ResultFile) : Prop :=
  ∃ first prompts, completed.head? = some first ∧ summary = some { identity := first.identity, prompts } ∧
    completed.map (fun item => item.prompts[0]?) = prompts.map some

/-- `write_summary` replaces `result.json` and keeps the prompt files. -/
theorem writeSummary_eq_ok {completed : List ResultFile} (h : writeSummary completed dir = (dir', .ok ())) :
    SummaryOf completed dir'.summary ∧ dir'.results = dir.results ∧ dir'.logits = dir.logits := by
  cases completed with
  | nil => cases congrArg Prod.snd h
  | cons first rest =>
    obtain ⟨start, prompts, hstart, h⟩ := Method.bind_eq_ok.mp h
    obtain ⟨rfl, hprompts⟩ := Prod.mk.inj hstart
    obtain rfl := congrArg Prod.fst h
    refine ⟨⟨first, prompts, rfl, rfl, ?_⟩, rfl, rfl⟩
    have hpairs := (mapM_eq_ok.mp hprompts).imp fun item prompt hitem => index_eq_ok.mp hitem
    rw [← List.forall₂_eq_eq_eq, List.forall₂_map_left_iff, List.forall₂_map_right_iff]
    exact hpairs

/-- The results of a run, position by position. -/
def outcomes (args : Arguments) (world : ℕ → Answer) (dir : Directory) : ℕ → List CorpusRow → List ResultFile
  | _, [] => []
  | position, row :: rest => outcome args world dir position row :: outcomes args world dir (position + 1) rest

theorem outcomes_congr (rows : List CorpusRow) (h : SameFrom position dir dir') :
    outcomes args world dir' position rows = outcomes args world dir position rows := by
  induction rows generalizing position with
  | nil => rfl
  | cons row rest ih =>
    obtain ⟨hresults, hlogits⟩ := h position le_rfl
    have htail : SameFrom (position + 1) dir dir' := fun j hj => h j (by omega)
    rw [outcomes, outcomes, ih htail, outcome, outcome, loadCompletedPrompt_congr hresults hlogits]

theorem getElem?_outcomes (rows : List CorpusRow) (i : ℕ) :
    (outcomes args world dir position rows)[i]? =
      rows[i]?.map fun row => outcome args world dir (position + i) row := by
  induction rows generalizing position i with
  | nil => rfl
  | cons row rest ih =>
    cases i with
    | zero => rfl
    | succ i =>
      rw [outcomes, List.getElem?_cons_succ, List.getElem?_cons_succ, ih, Nat.add_right_comm, Nat.add_assoc]

/-- The loop: every position ends with its result, and the last summary lists all of them. -/
theorem completePrompts_eq_ok {rows : List CorpusRow} {completed : List ResultFile}
    (h : completePrompts args world position rows completed dir = (dir', .ok ())) :
    (∀ i result, (outcomes args world dir position rows)[i]? = some result →
        dir'.results (position + i) = some result) ∧
      SameBefore position dir dir' ∧ (rows = [] → dir'.summary = dir.summary) ∧
      (rows ≠ [] → SummaryOf (completed ++ outcomes args world dir position rows) dir'.summary) := by
  induction rows generalizing position completed dir with
  | nil =>
    cases h
    refine ⟨fun i result hi => ?_, fun j _ => rfl, fun _ => rfl, fun hne => (hne rfl).elim⟩
    cases hi
  | cons row rest ih =>
    obtain ⟨first, result, hfirst, h⟩ := Method.bind_eq_ok.mp h
    obtain ⟨rfl, hfile, hprompt, -, hfrom, hbefore⟩ := completePrompt_eq_ok hfirst
    obtain ⟨second, _, hsecond, h⟩ := Method.bind_eq_ok.mp h
    obtain ⟨hsummary, hresults, hlogits⟩ := writeSummary_eq_ok hsecond
    obtain ⟨hpositions, hkept, hnil, hcons⟩ := ih h
    have hsame : SameFrom (position + 1) dir second := by
      intro j hj
      rw [hresults, hlogits]
      exact hfrom j hj
    rw [outcomes_congr rest hsame] at hpositions hcons
    refine ⟨?_, ?_, fun hne => (List.cons_ne_nil row rest hne).elim, fun _ => ?_⟩
    · intro i result hi
      cases i with
      | zero =>
        rw [outcomes, List.getElem?_cons_zero] at hi
        rw [← Option.some.inj hi, Nat.add_zero, hkept position (Nat.lt_succ_self position), hresults]
        exact hfile
      | succ i =>
        rw [outcomes, List.getElem?_cons_succ] at hi
        rw [← Nat.add_assoc, Nat.add_right_comm]
        exact hpositions i result hi
    · intro j hj
      rw [hkept j (by omega), hresults]
      exact hbefore j hj
    · rw [outcomes]
      by_cases hrest : rest = []
      · rw [hnil hrest, hrest, outcomes]
        exact hsummary
      · have hlast := hcons hrest
        rw [List.append_assoc, List.singleton_append] at hlast
        exact hlast

/-- A successful run passed the checks of its inputs and then its loop. -/
theorem main_eq_ok (h : main args world dir = (dir', .ok ())) :
    loadInputs args = .ok () ∧ completePrompts args world 0 args.rows [] dir = (dir', .ok ()) := by
  unfold main at h
  split at h
  · cases congrArg Prod.snd h
  · obtain ⟨start, _, hstart, h⟩ := Method.bind_eq_ok.mp h
    obtain ⟨rfl, hinputs⟩ := Prod.mk.inj hstart
    exact ⟨hinputs, h⟩

/-- The model file is the one the contract names. -/
theorem loadInputs_eq_ok (h : loadInputs args = .ok ()) :
    args.model.bytes = args.contract.modelBytes ∧ args.model.sha256 = args.contract.modelSha256 := by
  unfold loadInputs at h
  split at h
  · cases h
  · next hbytes =>
    split at h
    · cases h
    · next hsha => exact ⟨not_not.mp hbytes, not_not.mp hsha⟩

/-- A prompt file states the identity of the contract and holds the text of the corpus row. -/
def Matches (contract : Contract) (row : CorpusRow) (file : ResultFile) : Prop :=
  file.identity = contract.identity ∧ ∀ prompt, file.prompts[0]? = some prompt → prompt.prompt = row.text

/-- Every row of `result.json` comes from the prompt file of its position, which states the identity that
`result.json` states and the contract asks for, and holds the text of the corpus row. -/
def Unmixed (args : Arguments) (dir : Directory) : Prop :=
  ∀ summary, dir.summary = some summary → ∀ j prompt, summary.prompts[j]? = some prompt →
    ∃ file row, dir.results j = some file ∧ file.prompts[0]? = some prompt ∧
      file.identity = summary.identity ∧ file.identity = args.contract.identity ∧
      args.rows[j]? = some row ∧ prompt.prompt = row.text

/-- A position may be started on: a leftover that passes the check matches the contract, and the layers of a
model that will be run are those of the contract. -/
def CleanPosition (args : Arguments) (dir : Directory) (position : ℕ) (row : CorpusRow) : Prop :=
  match loadCompletedPrompt dir position row args.contract.newTokens with
  | .ok (some leftover) => Matches args.contract row leftover
  | _ => args.model.layers = args.contract.layers

/-- A directory a run may be started in. -/
def CleanStart (args : Arguments) (dir : Directory) : Prop :=
  (args.rows = [] → ∀ summary, dir.summary = some summary → summary.prompts = []) ∧
    ∀ position row, args.rows[position]? = some row → CleanPosition args dir position row

/-- A process writes what matches the contract when the model has the layers of the contract. -/
theorem matches_promptResult_iff (answer : Answer) (hinputs : loadInputs args = .ok ()) :
    Matches args.contract row (promptResult args row answer) ↔ args.model.layers = args.contract.layers := by
  obtain ⟨hbytes, hsha⟩ := loadInputs_eq_ok hinputs
  constructor
  · intro h
    exact congrArg Identity.nLayers h.1
  · intro h
    refine ⟨?_, ?_⟩
    · rw [promptResult, Contract.identity, hbytes, hsha, h]
    · intro prompt hprompt
      rw [← Option.some.inj hprompt]

theorem cleanPosition_iff (world : ℕ → Answer) (hinputs : loadInputs args = .ok ()) :
    CleanPosition args dir position row ↔ Matches args.contract row (outcome args world dir position row) := by
  unfold CleanPosition outcome
  split
  · exact Iff.rfl
  · exact (matches_promptResult_iff (world position) hinputs).symm

/-- A run is unmixed exactly when the result of each position matches the contract. -/
theorem unmixed_iff_matches (hloop : completePrompts args world 0 args.rows [] dir = (dir', .ok ()))
    (hrows : args.rows ≠ []) :
    Unmixed args dir' ↔ ∀ position row, args.rows[position]? = some row →
      Matches args.contract row (outcome args world dir position row) := by
  obtain ⟨hpositions, -, -, hsummary⟩ := completePrompts_eq_ok hloop
  obtain ⟨first, prompts, hfirst, hsummary, hlist⟩ := hsummary hrows
  rw [List.nil_append] at hfirst hlist
  have hpoint : ∀ j, (args.rows[j]?.map fun row => (outcome args world dir j row).prompts[0]?) =
      prompts[j]?.map some := by
    intro j
    have hj := congrArg (fun l => l[j]?) hlist
    simp only [List.getElem?_map, getElem?_outcomes, Nat.zero_add, Option.map_map] at hj
    exact hj
  have hfile : ∀ j row, args.rows[j]? = some row → dir'.results j = some (outcome args world dir j row) := by
    intro j row hrow
    have hitem : (outcomes args world dir 0 args.rows)[j]? = some (outcome args world dir j row) := by
      rw [getElem?_outcomes, hrow, Nat.zero_add]
      rfl
    have hfile := hpositions j _ hitem
    rwa [Nat.zero_add] at hfile
  constructor
  · intro h position row hrow
    have hhead := hpoint position
    rw [hrow, Option.map_some, eq_comm, Option.map_eq_some_iff] at hhead
    obtain ⟨prompt, hprompt, hhead⟩ := hhead
    obtain ⟨file, row', hresult, -, -, hidentity, hrow', htext⟩ := h _ hsummary position prompt hprompt
    obtain rfl := Option.mem_unique hrow hrow'
    obtain rfl := Option.mem_unique (hfile position row hrow) hresult
    refine ⟨hidentity, fun other hother => ?_⟩
    obtain rfl := Option.some.inj (hhead.trans hother)
    exact htext
  · intro h summary hs j prompt hprompt
    obtain rfl := Option.mem_unique hsummary hs
    have hhead := hpoint j
    rw [hprompt, Option.map_some, Option.map_eq_some_iff] at hhead
    obtain ⟨row, hrow, hhead⟩ := hhead
    have hmatches := h j row hrow
    have hstart : first.identity = args.contract.identity := by
      rw [List.head?_eq_getElem?, getElem?_outcomes, Option.map_eq_some_iff] at hfirst
      obtain ⟨row₀, hrow₀, rfl⟩ := hfirst
      exact (h 0 row₀ hrow₀).1
    exact ⟨_, row, hfile j row hrow, hhead, hmatches.1.trans hstart.symm, hmatches.1, hrow,
      hmatches.2 prompt hhead⟩

/-- A successful run from a directory is unmixed exactly when the directory was a clean start. -/
theorem main_unmixed_iff (h : main args world dir = (dir', .ok ())) : Unmixed args dir' ↔ CleanStart args dir := by
  obtain ⟨hinputs, hloop⟩ := main_eq_ok h
  by_cases hrows : args.rows = []
  · obtain ⟨-, -, hsame, -⟩ := completePrompts_eq_ok hloop
    unfold Unmixed CleanStart
    rw [hsame hrows, hrows]
    constructor
    · intro hunmixed
      refine ⟨fun _ summary hsummary => ?_, fun position row hrow => by cases hrow⟩
      rw [List.eq_nil_iff_forall_not_mem]
      intro prompt hmem
      obtain ⟨j, hj⟩ := List.getElem?_of_mem hmem
      obtain ⟨file, row, -, -, -, -, hrow, -⟩ := hunmixed summary hsummary j prompt hj
      cases hrow
    · intro hclean summary hsummary j prompt hprompt
      rw [hclean.1 rfl summary hsummary] at hprompt
      cases hprompt
  · rw [unmixed_iff_matches hloop hrows, CleanStart]
    constructor
    · intro hmatches
      exact ⟨fun hnil => (hrows hnil).elim,
        fun position row hrow => (cleanPosition_iff world hinputs).mpr (hmatches position row hrow)⟩
    · intro hclean position row hrow
      exact (cleanPosition_iff world hinputs).mp (hclean.2 position row hrow)

/-- After any history of runs, a successful run is unmixed exactly when every leftover that passes the resume
check matches the contract and a model that is run has the layers of the contract. -/
theorem resumedRun_unmixed_iff (history : List (Arguments × (ℕ → Answer))) (args : Arguments) (world : ℕ → Answer)
    (h : (main args world (afterRuns history)).2 = .ok ()) :
    Unmixed args (main args world (afterRuns history)).1 ↔ CleanStart args (afterRuns history) :=
  main_unmixed_iff (Prod.ext rfl h)

/-- A run of one prompt on the model with a digest. -/
def onePromptRun (sha256 : String) : Arguments where
  contract :=
    { modelBytes := 8, modelSha256 := sha256, layers := 24, corpusSha256 := "c", corpusPrompts := 1, newTokens := 2 }
  model := { bytes := 8, sha256 := sha256, layers := 24 }
  corpusSha256 := "c"
  rows := [{ id := "p000", category := "facts", text := "hello" }]
  backend := .cpu
  recurrentAnec := none

/-- A process that gets as far as `stage` and generates two tokens. -/
def twoTokens (stage : Stage) : ℕ → Answer :=
  fun _ => { stage, generated := [1, 2], logits := { shape := [2, 4], finite := true } }

/-- A run that was stopped between the two files of its prompt, and is run again. -/
theorem resumedRun_unmixed_iff_stopped :
    (main (onePromptRun "a") (twoTokens .done) (afterRuns [(onePromptRun "a", twoTokens .logits)])).2 = .ok () ∧
      (Unmixed (onePromptRun "a")
          (main (onePromptRun "a") (twoTokens .done) (afterRuns [(onePromptRun "a", twoTokens .logits)])).1 ↔
        CleanStart (onePromptRun "a") (afterRuns [(onePromptRun "a", twoTokens .logits)])) :=
  ⟨by decide, resumedRun_unmixed_iff _ _ _ (by decide)⟩

/-- A run on a second model takes over the prompt of the first, and reports the first model. -/
theorem secondModel_mixed :
    (main (onePromptRun "b") (twoTokens .done) (afterRuns [(onePromptRun "a", twoTokens .done)])).2 = .ok () ∧
      ¬ Unmixed (onePromptRun "b")
        (main (onePromptRun "b") (twoTokens .done) (afterRuns [(onePromptRun "a", twoTokens .done)])).1 := by
  refine ⟨by decide, fun h => ?_⟩
  obtain ⟨file, row, hfile, -, -, hidentity, -⟩ := h _ rfl 0 _ rfl
  obtain rfl := Option.some.inj hfile
  revert hidentity
  decide

end AneLinux.Qwen
