import AneLinux.Support.Method

/-!
# Resumable corpus runs

`run-qwen-corpus` runs one process per prompt and keeps a result file and a logits file for each. A
prompt whose files pass `load_completed_prompt` is not run again. After every prompt `result.json` is
written anew: it states the identity of the first completed prompt and holds one row per prompt.

A directory is known by what its files hold. The process that runs a prompt may end before, between or
after its two writes.
-/

namespace AneLinux.Qwen

open AneLinux.Support

/-- What a result file states about the model and the generation. -/
structure Identity where
  modelBytes : ℕ
  modelSha256 : String
  maxNewTokens : ℕ
  nLayers : ℕ
deriving DecidableEq, Repr

/-- A row of a result file; `runs` are the generated ids of each run. -/
structure PromptRow where
  id : String
  category : String
  prompt : String
  runs : List (List ℕ)
deriving DecidableEq, Repr

/-- A result file of one prompt, or `result.json`. -/
structure ResultFile where
  identity : Identity
  prompts : List PromptRow
deriving DecidableEq, Repr

/-- The array `run_000` of a logits file. -/
structure LogitsFile where
  shape : List ℕ
  finite : Bool
deriving DecidableEq, Repr

/-- An output directory: `prompt_NNN.json`, `prompt_NNN.npz` and `result.json`. -/
structure Directory where
  results : ℕ → Option ResultFile
  logits : ℕ → Option LogitsFile
  summary : Option ResultFile

/-- A directory without files. -/
def Directory.empty : Directory := { results := fun _ => none, logits := fun _ => none, summary := none }

/-- A row of the corpus. -/
structure CorpusRow where
  id : String
  category : String
  text : String
deriving DecidableEq, Repr

/-- The contract. -/
structure Contract where
  modelBytes : ℕ
  modelSha256 : String
  layers : ℕ
  corpusSha256 : String
  corpusPrompts : ℕ
  newTokens : ℕ

/-- The identity the contract asks for. -/
def Contract.identity (contract : Contract) : Identity :=
  { modelBytes := contract.modelBytes, modelSha256 := contract.modelSha256,
    maxNewTokens := contract.newTokens, nLayers := contract.layers }

/-- A model file: its size, its digest and the layers it has. -/
structure ModelFile where
  bytes : ℕ
  sha256 : String
  layers : ℕ

inductive Backend
  | ane
  | cpu
deriving DecidableEq

/-- What the tool is called with. -/
structure Arguments where
  contract : Contract
  model : ModelFile
  corpusSha256 : String
  rows : List CorpusRow
  backend : Backend
  recurrentAnec : Option String

/-- How far the process of one prompt gets. -/
inductive Stage
  | nothing
  | logits
  | both
  | done
deriving DecidableEq

/-- What the process of one prompt does. -/
structure Answer where
  stage : Stage
  generated : List ℕ
  logits : LogitsFile

/-- `load_inputs`. -/
def loadInputs (args : Arguments) : Py Unit :=
  if args.model.bytes ≠ args.contract.modelBytes then raiseValue "model size does not match contract"
  else if args.model.sha256 ≠ args.contract.modelSha256 then raiseValue "model SHA-256 does not match contract"
  else if args.corpusSha256 ≠ args.contract.corpusSha256 then raiseValue "corpus SHA-256 does not match contract"
  else if args.rows.length ≠ args.contract.corpusPrompts then raiseValue "prompt count does not match contract"
  else .ok ()

/-- `load_completed_prompt`. -/
def loadCompletedPrompt (dir : Directory) (position : ℕ) (row : CorpusRow) (newTokens : ℕ) :
    Py (Option ResultFile) :=
  match dir.results position, dir.logits position with
  | some result, some logits => do
    let prompt ← index result.prompts 0
    let run ← index prompt.runs 0
    if prompt.id ≠ row.id ∨ run.length ≠ newTokens then return none
    else if logits.shape.length ≠ 2 ∨ logits.shape.head? ≠ some newTokens then return none
    else if logits.finite = false then return none
    else return some result
  | _, _ => .ok none

/-- `write_summary`. -/
def writeSummary (completed : List ResultFile) : Method Directory Unit :=
  match completed with
  | [] => Method.raise (.valueError "no completed prompts")
  | first :: _ => do
    let prompts ← Method.lift (completed.mapM fun item => index item.prompts 0)
    Method.change fun dir => ({ dir with summary := some { identity := first.identity, prompts } }, ())

/-- The result file the process of a prompt writes. -/
def promptResult (args : Arguments) (row : CorpusRow) (answer : Answer) : ResultFile where
  identity := { modelBytes := args.model.bytes, modelSha256 := args.model.sha256,
                maxNewTokens := args.contract.newTokens, nLayers := args.model.layers }
  prompts := [{ id := row.id, category := row.category, prompt := row.text, runs := [answer.generated] }]

/-- Store a logits file. -/
def Directory.putLogits (dir : Directory) (position : ℕ) (logits : LogitsFile) : Directory :=
  { dir with logits := Function.update dir.logits position (some logits) }

/-- Store a result file. -/
def Directory.putResult (dir : Directory) (position : ℕ) (result : ResultFile) : Directory :=
  { dir with results := Function.update dir.results position (some result) }

/-- `subprocess.run(command, check=True)`: the logits are replaced before the result. -/
def runProcess (args : Arguments) (position : ℕ) (row : CorpusRow) (answer : Answer) : Method Directory Unit := do
  let write : Directory → Directory := fun dir =>
    match answer.stage with
    | .nothing => dir
    | .logits => dir.putLogits position answer.logits
    | _ => (dir.putLogits position answer.logits).putResult position (promptResult args row answer)
  Method.change fun dir => (write dir, ())
  if answer.stage = .done then return () else Method.raise .calledProcessError

/-- The work on one prompt: take its files if they are complete, else run its process. -/
def completePrompt (args : Arguments) (position : ℕ) (row : CorpusRow) (answer : Answer) :
    Method Directory ResultFile := do
  let leftover ← Method.read fun dir => loadCompletedPrompt dir position row args.contract.newTokens
  match ← Method.lift leftover with
  | some result => return result
  | none => do
    runProcess args position row answer
    let loaded ← Method.read fun dir => loadCompletedPrompt dir position row args.contract.newTokens
    match ← Method.lift loaded with
    | some result => return result
    | none => Method.raise (.runtimeError ("prompt " ++ row.id ++ " produced invalid artifacts"))

/-- The loop of `main`. -/
def completePrompts (args : Arguments) (world : ℕ → Answer) :
    ℕ → List CorpusRow → List ResultFile → Method Directory Unit
  | _, [], _ => return ()
  | position, row :: rest, completed => do
    let result ← completePrompt args position row (world position)
    writeSummary (completed ++ [result])
    completePrompts args world (position + 1) rest (completed ++ [result])

/-- `main`; `world` is what the process of each prompt does, if it is started. -/
def main (args : Arguments) (world : ℕ → Answer) : Method Directory Unit := do
  if args.backend = .ane ∧ args.recurrentAnec = none then
    Method.raise (.systemExit "--backend ane requires --recurrent-anec")
  else do
    Method.lift (loadInputs args)
    completePrompts args world 0 args.rows []

/-- The directory after a sequence of runs, finished or not, that began with an empty one. -/
def afterRuns (history : List (Arguments × (ℕ → Answer))) : Directory :=
  history.foldl (fun dir run => (main run.1 run.2 dir).1) Directory.empty

end AneLinux.Qwen
