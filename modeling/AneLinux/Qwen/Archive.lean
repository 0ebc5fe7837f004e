import AneLinux.Qwen.Parity

/-!
# The archive of logits

`save_logits` names the logits of a run after its prompt and its number, both padded to three digits, and
`load_prompt_runs` finds the runs of a prompt by the start of their names. Past the third digit the names grow, but the
mark between the two numbers still tells them apart: every prompt gets its own runs back, in order.
-/

namespace AneLinux.Qwen

open AneLinux.Support

/-- `f"{index:03d}"`. -/
def indexText (index : ℕ) : List Char :=
  let digits := Nat.toDigits 10 index
  List.replicate (3 - digits.length) '0' ++ digits

/-- `prompt_NNN_run_NNN`. -/
def runName (promptIndex runIndex : ℕ) : List Char := promptName promptIndex ++ "_run_".toList ++ indexText runIndex

/-- One run of a prompt is put under its name. -/
def saveRun (promptIndex : ℕ) (arrays : Archive) (run : Tensor × ℕ) : Py Archive :=
  if run.1.shape.length ≠ 2 ∨ run.1.steps = 0 then
    .error (.runtimeError "reference run produced an empty or invalid logits trace")
  else .ok (assign arrays (runName promptIndex run.2) run.1)

/-- The runs of one prompt. -/
def savePrompt (arrays : Archive) (prompt : List Tensor × ℕ) : Py Archive :=
  if prompt.1 = [] then .error (.runtimeError s!"prompt {prompt.2} produced no logits runs")
  else prompt.1.zipIdx.foldlM (saveRun prompt.2) arrays

/-- `save_logits`: the arrays that are stored, in order. -/
def saveLogits (logitsByPrompt : List (List Tensor)) : Py Archive :=
  if logitsByPrompt = [] then .error (.runtimeError "reference run produced no logits")
  else logitsByPrompt.zipIdx.foldlM savePrompt []

/-- `isdigit` holds of the text of a number, and `int` reads it back. -/
def Numbering.Reads (number : Numbering) (index : ℕ) : Prop := number (indexText index) = some (.ok index)

section Names

theorem promptName_eq (index : ℕ) : promptName index = "prompt_".toList ++ indexText index :=
  List.append_assoc _ _ _

/-- A padded number is made of digits. -/
theorem isDigit_of_mem_indexText {index : ℕ} {c : Char} (hc : c ∈ indexText index) : c.isDigit = true := by
  rcases List.mem_append.mp hc with hzero | hdigit
  · rw [List.eq_of_mem_replicate hzero]
    rfl
  · exact Nat.isDigit_of_mem_toDigits (by decide) (by decide) hdigit

/-- A padded number is read back. -/
theorem ofDigitChars_indexText (index : ℕ) : Nat.ofDigitChars 10 (indexText index) 0 = index := by
  rw [indexText, Nat.ofDigitChars_append, Nat.ofDigitChars_replicate_zero, Nat.mul_zero, Nat.ofDigitChars_ten_toDigits]

theorem indexText_injective : Function.Injective indexText := by
  intro i j h
  rw [← ofDigitChars_indexText i, h, ofDigitChars_indexText]

theorem underscore_notMem_indexText (index : ℕ) : '_' ∉ indexText index := by
  intro hmem
  exact absurd (isDigit_of_mem_indexText hmem) (by decide)

/-- Two texts without a mark are apart in front of the first mark. -/
theorem append_mark_inj {mark : Char} {a b x y : List Char} (ha : mark ∉ a) (hb : mark ∉ b)
    (h : a ++ mark :: x = b ++ mark :: y) : a = b ∧ x = y := by
  induction a generalizing b with
  | nil =>
    cases b with
    | nil => exact ⟨rfl, (List.cons.inj h).2⟩
    | cons d b => exact absurd ((List.cons.inj h).1 ▸ List.mem_cons_self) hb
  | cons c a ih =>
    cases b with
    | nil => exact absurd ((List.cons.inj h).1.symm ▸ List.mem_cons_self) ha
    | cons d b =>
      obtain ⟨rfl, hrest⟩ := List.cons.inj h
      obtain ⟨rfl, hxy⟩ := ih (fun hmem => ha (List.mem_cons_of_mem c hmem))
        (fun hmem => hb (List.mem_cons_of_mem c hmem)) hrest
      exact ⟨rfl, hxy⟩

/-- The name of a run starts like the runs of a prompt only if it is one of them. -/
theorem afterStart_runName (i p r : ℕ) :
    afterStart (promptName i ++ "_run_".toList) (runName p r) = if p = i then some (indexText r) else none := by
  split
  · rename_i hp
    rw [hp, afterStart_eq_some, runName]
  · rename_i hp
    cases hafter : afterStart (promptName i ++ "_run_".toList) (runName p r) with
    | none => rfl
    | some suffix =>
      have hname := afterStart_eq_some.mp hafter
      rw [runName, promptName_eq, promptName_eq, List.append_assoc, List.append_assoc, List.append_assoc,
        List.append_assoc, List.append_cancel_left_eq] at hname
      exact absurd (indexText_injective (append_mark_inj (underscore_notMem_indexText p)
        (underscore_notMem_indexText i) hname).1) hp

/-- Different runs have different names. -/
theorem runName_inj {p q r s : ℕ} (h : runName p r = runName q s) : p = q ∧ r = s := by
  have hafter := afterStart_runName q p r
  rw [h, afterStart_runName q q s, if_pos rfl] at hafter
  split at hafter
  · rename_i hpq
    exact ⟨hpq, (indexText_injective (Option.some.inj hafter)).symm⟩
  · cases hafter

end Names

variable {number : Numbering} {prompts : List (List Tensor)} {i : ℕ}

section Saved

/-- The arrays of one prompt. -/
def savedRuns (prompt : List Tensor × ℕ) : Archive := prompt.1.zipIdx.map fun run => (runName prompt.2 run.2, run.1)

/-- The arrays of all prompts. -/
def savedPrompts (prompts : List (List Tensor × ℕ)) : Archive := prompts.flatMap savedRuns

/-- A run that can be saved: rank two and at least one step. -/
def Savable (run : Tensor) : Prop := run.shape.length = 2 ∧ run.steps ≠ 0

theorem foldlM_saveRun {promptIndex : ℕ} {runs : List (Tensor × ℕ)} (hruns : ∀ run ∈ runs, Savable run.1)
    (arrays : Archive) : runs.foldlM (saveRun promptIndex) arrays =
      .ok ((runs.map fun run => (runName promptIndex run.2, run.1)).foldl
        (fun table pair => assign table pair.1 pair.2) arrays) := by
  induction runs generalizing arrays with
  | nil => rfl
  | cons run rest ih =>
    obtain ⟨hrank, hsteps⟩ := hruns run List.mem_cons_self
    have hsaved : saveRun promptIndex arrays run = .ok (assign arrays (runName promptIndex run.2) run.1) := by
      rw [saveRun, if_neg]
      rintro (hshape | hempty)
      · exact hshape hrank
      · exact hsteps hempty
    rw [List.foldlM_cons, hsaved, ok_bind, ih fun other hother => hruns other (List.mem_cons_of_mem run hother)]
    rfl

theorem foldlM_savePrompt {prompts : List (List Tensor × ℕ)} (hprompts : ∀ prompt ∈ prompts, prompt.1 ≠ [])
    (hruns : ∀ prompt ∈ prompts, ∀ run ∈ prompt.1, Savable run) (arrays : Archive) :
    prompts.foldlM savePrompt arrays =
      .ok ((savedPrompts prompts).foldl (fun table pair => assign table pair.1 pair.2) arrays) := by
  induction prompts generalizing arrays with
  | nil => rfl
  | cons prompt rest ih =>
    have hprompt : ∀ run ∈ prompt.1.zipIdx, Savable run.1 := by
      intro run hrun
      exact hruns prompt List.mem_cons_self run.1 (List.fst_mem_of_mem_zipIdx hrun)
    rw [List.foldlM_cons, savePrompt, if_neg (hprompts prompt List.mem_cons_self), foldlM_saveRun hprompt, ok_bind,
      ih (fun other hother => hprompts other (List.mem_cons_of_mem prompt hother))
        fun other hother => hruns other (List.mem_cons_of_mem prompt hother)]
    have hsaved : savedPrompts (prompt :: rest) = savedRuns prompt ++ savedPrompts rest := rfl
    rw [hsaved, List.foldl_append]
    rfl

/-- The names of the arrays are all different. -/
theorem nodup_savedPrompts (prompts : List (List Tensor)) :
    ((savedPrompts prompts.zipIdx).map Prod.fst).Nodup := by
  have hindices {β : Type} (values : List β) : values.zipIdx.Pairwise fun a b => a.2 ≠ b.2 := by
    have hrange : (values.zipIdx.map Prod.snd).Nodup := by
      rw [List.zipIdx_map_snd]
      exact List.nodup_range' 1
    exact List.pairwise_map.mp hrange
  rw [savedPrompts, List.map_flatMap, List.nodup_flatMap]
  constructor
  · intro prompt _
    rw [savedRuns, List.map_map, List.Nodup, List.pairwise_map]
    exact (hindices prompt.1).imp fun hne hname => hne (runName_inj hname).2
  · refine (hindices prompts).imp fun {a b} hne => List.disjoint_left.mpr fun name ha hb => ?_
    simp only [savedRuns, List.map_map, List.mem_map, Function.comp] at ha hb
    obtain ⟨_, _, rfl⟩ := ha
    obtain ⟨_, _, hname⟩ := hb
    exact hne (runName_inj hname).1.symm

/-- Logits that can be saved are stored under the names of their runs. -/
theorem saveLogits_eq (hne : prompts ≠ []) (hprompts : ∀ runs ∈ prompts, runs ≠ [])
    (hruns : ∀ runs ∈ prompts, ∀ run ∈ runs, Savable run) :
    saveLogits prompts = .ok (savedPrompts prompts.zipIdx) := by
  have hmem : ∀ prompt ∈ prompts.zipIdx, prompt.1 ∈ prompts := fun prompt => List.fst_mem_of_mem_zipIdx
  have hnodup := nodup_savedPrompts prompts
  rw [saveLogits, if_neg hne, foldlM_savePrompt (fun prompt hprompt => hprompts _ (hmem prompt hprompt))
    fun prompt hprompt => hruns _ (hmem prompt hprompt), foldl_assign_eq_append, List.nil_append]
  rwa [List.map_nil, List.nil_append]

/-- Every array is read under its name. -/
theorem read_savedPrompts {name : List Char} {run : Tensor} (hmem : (name, run) ∈ savedPrompts prompts.zipIdx) :
    (savedPrompts prompts.zipIdx).read name = .ok run := by
  have hnodup : ((savedPrompts prompts.zipIdx).reverse.map Prod.fst).Nodup := by
    rw [List.map_reverse, List.nodup_reverse]
    exact nodup_savedPrompts prompts
  rw [Archive.read, lookup, (find_eq_some_iff hnodup).mpr (List.mem_reverse.mpr hmem)]

end Saved

section Loaded

theorem numberedKeys_append {start : List Char} {left right : List (List Char)} {keys keys' : List (ℕ × List Char)}
    (hleft : numberedKeys number start left = .ok keys) (hright : numberedKeys number start right = .ok keys') :
    numberedKeys number start (left ++ right) = .ok (keys ++ keys') := by
  induction left generalizing keys with
  | nil =>
    obtain rfl := Except.ok.inj hleft
    exact hright
  | cons name rest ih =>
    rw [List.cons_append, numberedKeys]
    rw [numberedKeys] at hleft
    cases hname : (afterStart start name).bind number with
    | none =>
      rw [hname] at hleft
      exact ih hleft
    | some value =>
      rw [hname] at hleft
      simp only [bind_eq_ok] at hleft
      obtain ⟨index, rfl, others, hothers, hkeys⟩ := hleft
      obtain rfl := Except.ok.inj hkeys
      simp only [ih hothers, ok_bind]
      rfl

/-- The numbered names of a prompt among those of one prompt. -/
theorem numberedKeys_savedRuns {p : ℕ} {runs : List (Tensor × ℕ)} (hnumber : p = i → ∀ run ∈ runs, number.Reads run.2) :
    numberedKeys number (promptName i ++ "_run_".toList) (runs.map fun run => runName p run.2) =
      .ok (if p = i then runs.map fun run => (run.2, runName i run.2) else []) := by
  induction runs with
  | nil =>
    split
    · rfl
    · rfl
  | cons run rest ih =>
    rw [List.map_cons, numberedKeys, afterStart_runName,
      ih fun hp other hother => hnumber hp other (List.mem_cons_of_mem run hother)]
    by_cases hp : p = i
    · have hindex : number (indexText run.2) = some (.ok run.2) := hnumber hp run List.mem_cons_self
      rw [if_pos hp, if_pos hp, if_pos hp, Option.bind_some, hindex, List.map_cons, hp]
      rfl
    · simp only [if_neg hp, Option.bind_none]

/-- One position of an enumerated list. -/
theorem flatMap_zipIdx_single {β γ : Type} {values : List β} {k : ℕ} {x : β} (hx : values[i]? = some x)
    (f : β → List γ) : (values.zipIdx k).flatMap (fun entry => if entry.2 = k + i then f entry.1 else []) = f x := by
  induction values generalizing k i with
  | nil => cases hx
  | cons y rest ih =>
    rw [List.zipIdx_cons, List.flatMap_cons]
    cases i with
    | zero =>
      obtain rfl := Option.some.inj hx
      have hrest : (rest.zipIdx (k + 1)).flatMap (fun entry => if entry.2 = k + 0 then f entry.1 else []) = [] := by
        refine List.flatMap_eq_nil_iff.mpr fun entry hentry => if_neg ?_
        have hle := List.le_snd_of_mem_zipIdx hentry
        omega
      rw [hrest, List.append_nil]
      exact if_pos rfl
    | succ i =>
      have hsum : k + (i + 1) = k + 1 + i := by omega
      have hfirst : ¬k = k + (i + 1) := by omega
      rw [if_neg hfirst, List.nil_append, hsum]
      exact ih hx

/-- The numbered runs of a prompt. -/
def numberedRuns (i : ℕ) (runs : List Tensor) : List (ℕ × List Char) :=
  runs.zipIdx.map fun run => (run.2, runName i run.2)

/-- The numbered names of a prompt among those of all prompts. -/
theorem numberedKeys_savedPrompts {prompts : List (List Tensor × ℕ)}
    (hnumber : ∀ prompt ∈ prompts, prompt.2 = i → ∀ r < prompt.1.length, number.Reads r) :
    numberedKeys number (promptName i ++ "_run_".toList) ((savedPrompts prompts).map Prod.fst) =
      .ok (prompts.flatMap fun prompt => if prompt.2 = i then numberedRuns i prompt.1 else []) := by
  induction prompts with
  | nil => rfl
  | cons prompt rest ih =>
    have hnames : (savedPrompts (prompt :: rest)).map Prod.fst =
        (prompt.1.zipIdx.map fun run => runName prompt.2 run.2) ++ (savedPrompts rest).map Prod.fst := by
      have hsaved : savedPrompts (prompt :: rest) = savedRuns prompt ++ savedPrompts rest := rfl
      rw [hsaved, List.map_append, savedRuns, List.map_map]
      rfl
    have hprompt : prompt.2 = i → ∀ run ∈ prompt.1.zipIdx, number.Reads run.2 := by
      intro hi run hrun
      exact hnumber prompt List.mem_cons_self hi run.2 (List.snd_lt_of_mem_zipIdx hrun)
    rw [hnames, numberedKeys_append (numberedKeys_savedRuns hprompt)
      (ih fun other hother => hnumber other (List.mem_cons_of_mem prompt hother))]
    rfl

/-- The runs of a prompt are numbered in order and without a gap. -/
theorem contiguousKeys_numberedRuns (i : ℕ) (runs : List Tensor) (message : String) :
    contiguousKeys (numberedRuns i runs) message = .ok (runs.zipIdx.map fun run => runName i run.2) := by
  have hfst : (numberedRuns i runs).map Prod.fst = List.range runs.length := by
    rw [numberedRuns, List.map_map, List.range_eq_range', ← List.zipIdx_map_snd 0 runs]
    rfl
  have hsorted : sortKeys (numberedRuns i runs) = numberedRuns i runs := by
    refine List.Pairwise.insertionSort_eq ?_
    have hlt : ((numberedRuns i runs).map Prod.fst).Pairwise (· < ·) := by
      rw [hfst]
      exact List.pairwise_lt_range
    exact (List.pairwise_map.mp hlt).imp Or.inl
  have hlength : (numberedRuns i runs).length = runs.length := by rw [numberedRuns, List.length_map, List.length_zipIdx]
  rw [contiguousKeys, hsorted, hfst, hlength, if_neg (not_not.mpr rfl), numberedRuns, List.map_map]
  rfl

/-- The runs of a prompt are found under their names, in order. -/
theorem archiveRunKeys_savedPrompts {runs : List Tensor} (hi : prompts[i]? = some runs) (hne : runs ≠ [])
    (hnumber : ∀ r < runs.length, number.Reads r) :
    archiveRunKeys number (savedPrompts prompts.zipIdx) i = .ok (runs.zipIdx.map fun run => runName i run.2) := by
  have hreads : ∀ prompt ∈ prompts.zipIdx, prompt.2 = i → ∀ r < prompt.1.length, number.Reads r := by
    rintro prompt hprompt rfl
    obtain rfl := Option.mem_unique (List.mem_zipIdx_iff_getElem?.mp hprompt) hi
    exact hnumber
  have hkeys := numberedKeys_savedPrompts hreads
  have hsingle := flatMap_zipIdx_single (k := 0) hi (numberedRuns i)
  rw [Nat.zero_add] at hsingle
  rw [hsingle] at hkeys
  have hruns : numberedRuns i runs ≠ [] := by
    rw [numberedRuns, ne_eq, List.map_eq_nil_iff, List.zipIdx_eq_nil_iff]
    exact hne
  rw [archiveRunKeys, namedRunKeys, hkeys, ok_bind, if_pos hruns, contiguousKeys_numberedRuns]

end Loaded

/-- Saved logits are loaded again: every prompt gets its own runs, in order, however many prompts and runs there are. -/
theorem loadPromptRuns_saveLogits {number : Numbering} {prompts : List (List Tensor)}
    (hprompts : ∀ runs ∈ prompts, runs ≠ []) (hruns : ∀ runs ∈ prompts, ∀ run ∈ runs, Savable run) {i : ℕ}
    {runs : List Tensor} (hi : prompts[i]? = some runs) (hnumber : ∀ r < runs.length, number.Reads r) :
    (do let archive ← saveLogits prompts; loadPromptRuns number (.archive (some archive)) i) = .ok runs := by
  have hmem := List.mem_of_getElem? hi
  have hread : (runs.zipIdx.map fun run => runName i run.2).mapM (savedPrompts prompts.zipIdx).read = .ok runs := by
    rw [mapM_eq_ok, List.forall₂_iff_get]
    refine ⟨by rw [List.length_map, List.length_zipIdx], fun j hj hj' => ?_⟩
    rw [List.get_eq_getElem, List.get_eq_getElem, List.getElem_map, List.getElem_zipIdx, Nat.zero_add]
    refine read_savedPrompts (List.mem_flatMap.mpr ⟨(runs, i), List.mem_zipIdx_iff_getElem?.mpr hi, ?_⟩)
    exact List.mem_map.mpr ⟨(runs[j], j), List.mem_zipIdx_iff_getElem?.mpr (List.getElem?_eq_getElem hj'), rfl⟩
  rw [saveLogits_eq (List.ne_nil_of_mem hmem) hprompts hruns, ok_bind, loadPromptRuns,
    archiveRunKeys_savedPrompts hi (hprompts runs hmem) hnumber, ok_bind, hread]

/-- ASCII digits are read as numbers. -/
theorem asciiNumber_reads (index : ℕ) : asciiNumber.Reads index := by
  have hne : indexText index ≠ [] := List.append_ne_nil_of_right_ne_nil _ Nat.toDigits_ne_nil
  have hdigits : (indexText index).all Char.isDigit := List.all_eq_true.mpr fun c => isDigit_of_mem_indexText
  have hvalue := ofDigitChars_indexText index
  rw [Numbering.Reads, asciiNumber, if_pos ⟨hne, hdigits⟩]
  exact congrArg (fun value => some (Except.ok value)) hvalue

/-- The last of 1001 prompts, behind the names of three digits. -/
theorem loadPromptRuns_saveLogits_thousand :
    (do let archive ← saveLogits (List.replicate 1001 [choice 2, choice 1])
        loadPromptRuns asciiNumber (.archive (some archive)) 1000) = .ok [choice 2, choice 1] := by
  have hprompts : ∀ runs ∈ List.replicate 1001 [choice 2, choice 1], runs = [choice 2, choice 1] :=
    fun runs => List.eq_of_mem_replicate
  refine loadPromptRuns_saveLogits (fun runs hruns => ?_) (fun runs hruns run hrun => ?_)
    (List.getElem?_replicate_of_lt (by decide)) fun r _ => asciiNumber_reads r
  · rw [hprompts runs hruns]
    exact List.cons_ne_nil _ _
  · rw [hprompts runs hruns] at hrun
    rcases List.mem_pair.mp hrun with rfl | rfl
    · exact ⟨rfl, by decide⟩
    · exact ⟨rfl, by decide⟩

end AneLinux.Qwen
