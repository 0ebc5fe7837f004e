import AneLinux.Qwen.Corpus
import AneLinux.Support.Dict
import Mathlib.Data.String.Basic

/-!
# The parity verdict

`compare-qwen-reference` compares two result files and the logits that belong to them. The tokens are
compared by prompt id. The logits of the reference are found by the position of a row, those of the
candidate by the position its id has in the candidate. The logits of a run are one shard per prompt or
one archive with the prompt in the entry names.

The error metrics are float32 arithmetic and stay a parameter (`Arithmetic`), the comparison of two finite
float32 values and with it `argmax` do not.
-/

namespace AneLinux.Qwen

open AneLinux.Support

/-- A float32 value. -/
abbrev F32 := BitVec 32

namespace F32

/-- `np.isfinite`. -/
def isFinite (x : F32) : Bool := x.extractLsb' 23 8 != 255

/-- The place of a finite value in the order of the finite values; both zeros share theirs. -/
def rank (x : F32) : ℤ :=
  if x.msb then - ((x.extractLsb' 0 31).toNat : ℤ) else ((x.extractLsb' 0 31).toNat : ℤ)

end F32

/-- A float32 array in C order. -/
structure Tensor where
  shape : List ℕ
  values : List F32
  size_eq : values.length = shape.prod
deriving DecidableEq

namespace Tensor

/-- The first dimension. -/
def steps (t : Tensor) : ℕ := t.shape.getD 0 0

/-- The second dimension. -/
def vocabulary (t : Tensor) : ℕ := t.shape.getD 1 0

/-- The rows of an array of rank two. -/
def rows (t : Tensor) : List (List F32) :=
  (List.range t.steps).map fun step => (t.values.drop (step * t.vocabulary)).take t.vocabulary

/-- `t[start:]`. -/
def dropRows (t : Tensor) (start : ℕ) : Tensor :=
  match t with
  | { shape := [], values, size_eq } => { shape := [], values, size_eq }
  | { shape := steps :: rest, values, size_eq } =>
    { shape := (steps - start) :: rest, values := values.drop (start * rest.prod),
      size_eq := by rw [List.length_drop, size_eq, List.prod_cons, List.prod_cons, Nat.sub_mul] }

/-- `np.isfinite(t).all()`. -/
def isFinite (t : Tensor) : Bool := t.values.all F32.isFinite

end Tensor

/-- `np.argmax` of a row of finite values: the first of the largest. -/
def argmax (row : List F32) : ℕ :=
  row.findIdx fun value => row.all fun other => decide (other.rank ≤ value.rank)

/-- The error metrics of a run; `F` is a Python float. -/
structure Metrics (F : Type) where
  top10Overlap : F
  maxAbsoluteLogitError : F
  meanAbsoluteLogitError : F
  relativeL2Error : F

/-- The error metrics of a checkpoint layer. -/
structure LayerMetrics (F : Type) where
  maxAbsoluteError : F
  meanAbsoluteError : F
  relativeL2Error : F

/-- The floating-point arithmetic of the comparison. -/
structure Arithmetic (F : Type) where
  atMost : F → F → Bool
  logitMetrics : Tensor → Tensor → Metrics F
  layerMetrics : Tensor → Tensor → LayerMetrics F

/-- `contract["numeric_thresholds"]`, with the fields of the metrics they bound. -/
abbrev Thresholds := Metrics

/-- What `compare_logits` reports. -/
structure RunReport (F : Type) where
  generatedSteps : ℕ
  top1TokenMatch : ℚ
  metrics : Metrics F
  passed : Bool

section Comparisons

variable {F : Type} (arithmetic : Arithmetic F) (thresholds : Thresholds F)

/-- `compare_logits`. -/
def compareLogits (reference candidate : Tensor) (generatedStart : ℕ) : Py (RunReport F) :=
  if reference.shape.length ≠ 2 ∨ candidate.shape.length ≠ 2 then
    raiseValue "logits must be rank-2 [steps, vocabulary]"
  else if reference.shape ≠ candidate.shape then
    raiseValue ("logit shapes differ: " ++ shapeText reference.shape ++ " != " ++ shapeText candidate.shape)
  else if ¬ generatedStart < reference.steps then raiseValue "generated logits start is outside the trace"
  else if reference.isFinite = false ∨ candidate.isFinite = false then raiseValue "logits contain non-finite values"
  else
    let reference := reference.dropRows generatedStart
    let candidate := candidate.dropRows generatedStart
    if reference.vocabulary = 0 then raiseValue "attempt to get argmax of an empty sequence"
    else
      let top1Match := List.zipWith (fun left right => argmax left == argmax right) reference.rows candidate.rows
      let top1TokenMatch : ℚ := (top1Match.count true : ℚ) / (top1Match.length : ℚ)
      let metrics := arithmetic.logitMetrics reference candidate
      .ok { generatedSteps := reference.steps, top1TokenMatch, metrics,
            passed := decide (top1TokenMatch = 1) &&
              arithmetic.atMost thresholds.top10Overlap metrics.top10Overlap &&
              arithmetic.atMost metrics.maxAbsoluteLogitError thresholds.maxAbsoluteLogitError &&
              arithmetic.atMost metrics.meanAbsoluteLogitError thresholds.meanAbsoluteLogitError &&
              arithmetic.atMost metrics.relativeL2Error thresholds.relativeL2Error }

/-- The report on one checkpoint layer. -/
inductive LayerReport (F : Type)
  | failed (error : String)
  | compared (metrics : LayerMetrics F) (passed : Bool)

/-- `layer.get("passed", False)`. -/
def LayerReport.passed : LayerReport F → Bool
  | .failed _ => false
  | .compared _ passed => passed

/-- An `npz` archive: its entries in the order of the file. -/
abbrev Archive := List (List Char × Tensor)

/-- `archive[key]`: of entries with one name the last is read. -/
def Archive.read (archive : Archive) (key : List Char) : Py Tensor :=
  lookup archive.reverse key (String.ofList key)

/-- What `compare_checkpoints` reports. -/
structure CheckpointReport (F : Type) where
  missingInCandidate : List (List Char)
  unexpectedInCandidate : List (List Char)
  layers : List (List Char × LayerReport F)
  passed : Bool

/-- The layer loop of `compare_checkpoints`. -/
def compareLayer (left right : Tensor) : LayerReport F :=
  if left.shape ≠ right.shape then
    .failed ("shapes differ: " ++ shapeText left.shape ++ " != " ++ shapeText right.shape)
  else if left.isFinite = false ∨ right.isFinite = false then .failed "checkpoint contains non-finite values"
  else
    let metrics := arithmetic.layerMetrics left right
    .compared metrics (arithmetic.atMost metrics.maxAbsoluteError thresholds.maxAbsoluteLogitError &&
      arithmetic.atMost metrics.meanAbsoluteError thresholds.meanAbsoluteLogitError &&
      arithmetic.atMost metrics.relativeL2Error thresholds.relativeL2Error)

/-- `compare_checkpoints`. -/
def compareCheckpoints (reference candidate : Archive) : Py (CheckpointReport F) := do
  let referenceNames := reference.map Prod.fst
  let candidateNames := candidate.map Prod.fst
  let common := sorted (referenceNames.dedup.filter fun name => name ∈ candidateNames)
  let missing := sorted (referenceNames.dedup.filter fun name => name ∉ candidateNames)
  let unexpected := sorted (candidateNames.dedup.filter fun name => name ∉ referenceNames)
  let layers ← common.mapM fun name => do
    let left ← reference.read name
    let right ← candidate.read name
    return (name, compareLayer arithmetic thresholds left right)
  return { missingInCandidate := missing, unexpectedInCandidate := unexpected, layers,
           passed := missing.isEmpty && unexpected.isEmpty && layers.all fun layer => layer.2.passed }

end Comparisons

/-- A row of `prompts`; `runs` holds the `generated_ids` of each run. -/
structure RunRow where
  id : String
  generatedIds : Option (List ℤ)
  runs : Option (List (Option (List ℤ)))
  promptTokenIds : Option (List ℤ)
deriving DecidableEq, Repr

/-- A result file as the comparison reads it; every field may be absent. -/
structure RunFile where
  modelBytes : Option ℕ
  modelSha256 : Option String
  maxNewTokens : Option ℕ
  nLayers : Option ℕ
  prompts : Option (List RunRow)
deriving DecidableEq, Repr

/-- `get("prompts", [])`. -/
def RunFile.rows (file : RunFile) : List RunRow := file.prompts.getD []

/-- The ids of the rows. -/
def RunFile.ids (file : RunFile) : List String := file.rows.map RunRow.id

/-- `prompt_generated_ids`. -/
def promptGeneratedIds (row : RunRow) : Py (List ℤ) :=
  match row.generatedIds with
  | some ids => .ok ids
  | none =>
    match (row.runs.getD []).map fun run => run.getD [] with
    | [] => .ok []
    | first :: rest =>
      if rest.any fun sequence => sequence != first then
        raiseValue ("prompt " ++ row.id ++ " has divergent token runs")
      else .ok first

/-- `generated_logits`. -/
def generatedLogits (logits : Tensor) (promptTokens newTokens : ℕ) : Py Tensor :=
  if logits.shape.length ≠ 2 then raiseValue "logits must be rank-2 [steps, vocabulary]"
  else if logits.steps = newTokens then .ok logits
  else
    let prefillSteps := promptTokens - 1
    if logits.steps = prefillSteps + newTokens then .ok (logits.dropRows prefillSteps)
    else raiseValue ("logit trace has " ++ toString logits.steps ++ " steps; expected " ++ toString newTokens ++
      " generated or " ++ toString (prefillSteps + newTokens) ++ " prefill-plus-generated steps")

/-- A prompt whose tokens differ. -/
structure Mismatch where
  id : String
  reference : List ℤ
  candidate : List ℤ
deriving DecidableEq, Repr

/-- What `compare_token_sequences` reports. -/
structure TokenReport where
  missing : List String
  unexpected : List String
  mismatches : List Mismatch
  metadataErrors : List String
  matchedPrompts : ℕ
  passed : Bool
deriving DecidableEq, Repr

/-- The fields that do not match the contract. -/
def metadataErrors (reference candidate : RunFile) (contract : Contract) : List String :=
  let fields : List (String × Bool × Bool) :=
    [("model_bytes", reference.modelBytes == some contract.modelBytes,
        candidate.modelBytes == some contract.modelBytes),
     ("model_sha256", reference.modelSha256 == some contract.modelSha256,
       candidate.modelSha256 == some contract.modelSha256),
     ("max_new_tokens", reference.maxNewTokens == some contract.newTokens,
       candidate.maxNewTokens == some contract.newTokens),
     ("n_layers", reference.nLayers == some contract.layers, candidate.nLayers == some contract.layers)]
  fields.flatMap fun field =>
    (if field.2.1 then [] else ["reference " ++ field.1 ++ " does not match contract"]) ++
      (if field.2.2 then [] else ["candidate " ++ field.1 ++ " does not match contract"])

/-- `{row["id"]: row for row in rows}`. -/
def rowsById (rows : List RunRow) : List (String × RunRow) := dict (rows.map fun row => (row.id, row))

/-- The comparison of the tokens of one prompt. -/
def compareTokens (reference candidate : List (String × RunRow)) (id : String) : Py (Option Mismatch) := do
  let referenceRow ← lookup reference id id
  let expectedIds ← promptGeneratedIds referenceRow
  let candidateRow ← lookup candidate id id
  let actualIds ← promptGeneratedIds candidateRow
  return if expectedIds = actualIds then none else some { id, reference := expectedIds, candidate := actualIds }

/-- `compare_token_sequences`. -/
def compareTokenSequences (reference candidate : RunFile) (contract : Contract) : Py TokenReport := do
  let errors := metadataErrors reference candidate contract
  let referencePrompts := rowsById reference.rows
  let candidatePrompts := rowsById candidate.rows
  let referenceIds := referencePrompts.map Prod.fst
  let candidateIds := candidatePrompts.map Prod.fst
  let missing := sorted (referenceIds.filter fun id => id ∉ candidateIds)
  let unexpected := sorted (candidateIds.filter fun id => id ∉ referenceIds)
  let compared ← (sorted (referenceIds.filter fun id => id ∈ candidateIds)).mapM fun id =>
    compareTokens referencePrompts candidatePrompts id
  let mismatches := compared.reduceOption
  return { missing, unexpected, mismatches, metadataErrors := errors,
           matchedPrompts := referencePrompts.length - missing.length,
           passed := missing.isEmpty && unexpected.isEmpty && mismatches.isEmpty && errors.isEmpty }

/-- `name.startswith(start)` and what follows it. -/
def afterStart : List Char → List Char → Option (List Char)
  | [], name => some name
  | _ :: _, [] => none
  | c :: start, d :: name => if c = d then afterStart start name else none

/-- `text.isdigit()`, and `int(text)` if so. -/
abbrev Numbering := List Char → Option (Py ℕ)

/-- The name of a prompt, `prompt_NNN`. -/
def promptName (promptIndex : ℕ) : List Char :=
  let digits := Nat.toDigits 10 promptIndex
  "prompt_".toList ++ List.replicate (3 - digits.length) '0' ++ digits

/-- The names that continue `start` with a number, each with its number. -/
def numberedKeys (number : Numbering) (start : List Char) : List (List Char) → Py (List (ℕ × List Char))
  | [] => .ok []
  | name :: rest =>
    match (afterStart start name).bind number with
    | none => numberedKeys number start rest
    | some value => do
      let index ← value
      let others ← numberedKeys number start rest
      return (index, name) :: others

/-- `list.sort()` of pairs. -/
def sortKeys (keys : List (ℕ × List Char)) : List (ℕ × List Char) :=
  keys.insertionSort fun a b => a.1 < b.1 ∨ a.1 = b.1 ∧ a.2 ≤ b.2

/-- The numbered names in order; their numbers must be 0, 1, 2 and so on. -/
def contiguousKeys (keys : List (ℕ × List Char)) (message : String) : Py (List (List Char)) :=
  if (sortKeys keys).map Prod.fst ≠ List.range keys.length then raiseValue message
  else .ok ((sortKeys keys).map Prod.snd)

/-- `_archive_run_keys` for a prompt of a name. -/
def namedRunKeys (number : Numbering) (archive : Archive) (name : List Char) : Py (List (List Char)) := do
  let repeated ← numberedKeys number (name ++ "_run_".toList) (archive.map Prod.fst)
  if repeated ≠ [] then contiguousKeys repeated ("run archive has non-contiguous keys for " ++ String.ofList name)
  else return if name ∈ archive.map Prod.fst then [name] else []

/-- `_archive_run_keys`. -/
def archiveRunKeys (number : Numbering) (archive : Archive) (promptIndex : ℕ) : Py (List (List Char)) :=
  namedRunKeys number archive (promptName promptIndex)

/-- Where the logits of a run are: a directory of shards or one archive. -/
inductive LogitStore
  | shards (path : String) (files : ℕ → Option Archive)
  | archive (file : Option Archive)

/-- `load_prompt_runs`. -/
def loadPromptRuns (number : Numbering) (store : LogitStore) (promptIndex : ℕ) : Py (List Tensor) :=
  match store with
  | .shards path files =>
    match files promptIndex with
    | none => .error (.osError "No such file or directory")
    | some archive => do
      let repeated ← numberedKeys number "run_".toList (archive.map Prod.fst)
      let keys ← contiguousKeys repeated ("run shard has non-contiguous keys: " ++ path ++ "/" ++
        String.ofList (promptName promptIndex) ++ ".npz")
      keys.mapM archive.read
  | .archive none => .error (.osError "No such file or directory")
  | .archive (some archive) => do
    let keys ← archiveRunKeys number archive promptIndex
    keys.mapM archive.read

/-- The report on one prompt. -/
inductive PromptReport (F : Type)
  | failed (error : String)
  | compared (runs : List (RunReport F))

/-- Whether a prompt passed. -/
def PromptReport.passed {F : Type} : PromptReport F → Bool
  | .failed _ => false
  | .compared runs => runs.all RunReport.passed

/-- The report on all logits. -/
structure LogitReport (F : Type) where
  prompts : List (String × PromptReport F)
  passed : Bool

/-- What `compare_run_files` reports. -/
structure ParityReport (F : Type) where
  tokenParity : TokenReport
  logitParity : LogitReport F
  layerParity : Option (CheckpointReport F ⊕ String)
  passed : Bool

section Runs

variable {F : Type} (number : Numbering) (arithmetic : Arithmetic F) (thresholds : Thresholds F) (contract : Contract)
  (referenceLogits candidateLogits : LogitStore)

/-- The comparison of one run. -/
def compareRun (promptTokens : ℕ) (reference candidate : Tensor) : Py (RunReport F) := do
  let referenceValues ← generatedLogits reference promptTokens contract.newTokens
  let candidateValues ← generatedLogits candidate promptTokens contract.newTokens
  compareLogits arithmetic thresholds referenceValues candidateValues 0

/-- The comparison of the logits of one prompt. -/
def comparePrompt (referencePrompts : List (String × RunRow)) (candidateIndices : List (String × ℕ)) (index : ℕ)
    (row : RunRow) : Py (PromptReport F) := do
  let referenceRuns ← loadPromptRuns number referenceLogits index
  match find candidateIndices row.id with
  | none => return .failed ("candidate is missing prompt " ++ row.id)
  | some candidateIndex => do
    let candidateRuns ← loadPromptRuns number candidateLogits candidateIndex
    if referenceRuns = [] ∨ candidateRuns = [] then
      return .failed ("missing logits arrays reference=" ++ toString referenceRuns.length ++ " candidate=" ++
        toString candidateRuns.length)
    else if referenceRuns.length ≠ candidateRuns.length then
      return .failed ("run counts differ reference=" ++ toString referenceRuns.length ++ " candidate=" ++
        toString candidateRuns.length)
    else do
      let referenceRow ← lookup referencePrompts row.id row.id
      let promptTokenIds ← (match referenceRow.promptTokenIds with
        | some ids => .ok ids
        | none => .error (.keyError "prompt_token_ids"))
      let runs ← (referenceRuns.zip candidateRuns).mapM fun pair =>
        compareRun arithmetic thresholds contract promptTokenIds.length pair.1 pair.2
      return .compared runs

/-- The loop over the rows of the reference. -/
def comparePrompts (referencePrompts : List (String × RunRow)) (candidateIndices : List (String × ℕ)) :
    ℕ → List RunRow → LogitReport F → Py (LogitReport F)
  | _, [], report => return report
  | index, row :: rest, report => do
    let prompt ← comparePrompt number arithmetic thresholds contract referenceLogits candidateLogits referencePrompts
      candidateIndices index row
    comparePrompts referencePrompts candidateIndices (index + 1) rest
      { prompts := assign report.prompts row.id prompt, passed := report.passed && prompt.passed }

/-- The comparison of the checkpoints, if there are any. -/
def layerParity (reference candidate : Option Archive) : Py (Option (CheckpointReport F ⊕ String)) :=
  match reference, candidate with
  | none, none => return none
  | some reference, some candidate => do
    let report ← compareCheckpoints arithmetic thresholds reference candidate
    return some (.inl report)
  | _, _ => return some (.inr "checkpoint path pair is incomplete")

/-- `checkpoint_report is None or checkpoint_report["passed"]`. -/
def layersPassed : Option (CheckpointReport F ⊕ String) → Bool
  | none => true
  | some (.inl report) => report.passed
  | some (.inr _) => false

/-- `compare_run_files`. -/
def compareRunFiles (reference candidate : RunFile) (referenceCheckpoints candidateCheckpoints : Option Archive) :
    Py (ParityReport F) := do
  let tokenParity ← compareTokenSequences reference candidate contract
  let referenceRows ← (match reference.prompts with
    | some rows => .ok rows
    | none => .error (.keyError "prompts"))
  let candidateIndices := dict (candidate.rows.zipIdx.map fun entry => (entry.1.id, entry.2))
  let logitParity ← comparePrompts number arithmetic thresholds contract referenceLogits candidateLogits
    (rowsById referenceRows) candidateIndices 0 referenceRows { prompts := [], passed := true }
  let layers ← layerParity arithmetic thresholds referenceCheckpoints candidateCheckpoints
  return { tokenParity, logitParity, layerParity := layers,
           passed := tokenParity.passed && logitParity.passed && layersPassed layers }

end Runs

end AneLinux.Qwen
