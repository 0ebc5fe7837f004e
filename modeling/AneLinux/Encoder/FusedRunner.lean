import AneLinux.Encoder.PipelineRun

/-!
# The runner with the fused A→B package

With the switch on, the mask select of a layer runs as one package with an add: the add whose result it masks, or, when
it masks a product, the add that alone reads the select. The package reads the summands itself. The add is never
executed, and of the two results only the later one is stored. Release points stay those of the program as written.

What the switch leaves alone is the text of the plain runner, and with no fusion the two are one.
-/

namespace AneLinux.Encoder

open AneLinux.Support Attempt

/-- A select that runs with an add: the places of both, and whether the add comes later, as the reader of the select. -/
structure Fusion where
  select : ℕ
  add : ℕ
  later : Bool
deriving DecidableEq, Repr

/-- What the runner is given and has found, with the fusions. -/
structure FusedPlan (ν : Type) extends Plan ν where
  fusions : List Fusion

/-- The `out_ab` package: the check of the fill and of the condition, how the condition is bound, and the submit. -/
structure OutAb (m : Type → Type) (ν V E : Type) where
  form : V → V → Bool
  mask : V → V
  submit : List V → ℕ → m (Except (Err ν) E)

section Indexing

variable {ν : Type} [DecidableEq ν] (program : Program ν) (adds : ℕ → Bool)

/-- Whether a statement is an add; `adds` tells which of the operations without a rule of their own are. -/
def isAdd (i : ℕ) : Bool := (program[i]?).any fun stmt => decide (stmt.op = .other) && adds i

/-- `_fused_ab_consumer_add`: the only reader of the select, if it is an add. -/
def consumerAdd (stmt : Statement ν) : Option ℕ :=
  match consumers program stmt.name with
  | [user] => if isAdd program adds user then some user else none
  | _ => none

/-- The fusion of a mask select, from what produces its third array. -/
def fusionOf (i : ℕ) : Option Fusion := do
  let stmt ← program[i]?
  match stmt.arrays with
  | [_, _, b] => do
    let place ← producer program b
    let inner ← program[place]?
    if isAdd program adds place then some ⟨i, place, false⟩
    else if inner.op = .mul then (consumerAdd program adds stmt).map fun add => ⟨i, add, true⟩
    else none
  | _ => none

/-- The fusions, or nothing when one of the selects cannot be fused and the runner is not built. -/
def indexFusions (islands : Islands) : Option (List Fusion) := islands.selects.mapM (fusionOf program adds)

/-- The names of the two summands. -/
def summands (fusion : Fusion) (stmt add : Statement ν) : Option (ν × ν) :=
  if fusion.later then
    match stmt.arrays, (operands program add).find? fun name => decide (name ≠ stmt.name) with
    | [_, _, b], some x => some (x, b)
    | _, _ => none
  else match add.arrays with
    | [x, y] => some (x, y)
    | _ => none

end Indexing

section Execution

variable {m : Type → Type} [Monad m] {ν V E M : Type} [DecidableEq ν]
variable (plan : FusedPlan ν) (kernels : Kernels V M) (backend : Backend m ν V E) (outAb : OutAb m ν V E)

section Reading

variable (ensure : ν → Pass m ν E M Unit)

/-- `_run_fused_ab`. -/
def runFusedAb (i : ℕ) (stmt : Statement ν) (fusion : Fusion) : Pass m ν E M Unit := do
  let add ← orRaise (.missingArgument i) plan.program[fusion.add]?
  let (x, y) ← orRaise (.missingArgument i) (summands plan.program fusion stmt add)
  match stmt.arrays with
  | [a, c, _] => do
    let s1 ← tensor kernels backend ensure x
    let s2 ← tensor kernels backend ensure y
    let fill ← tensor kernels backend ensure a
    let cond ← tensor kernels backend ensure c
    if outAb.form fill cond then do
      let z ← call (outAb.submit [s1, s2, kernels.broadcast fill, outAb.mask cond] i)
      if fusion.later then change fun s => (s.setValue add.name z).begin fusion.add
      else change fun s => s.setValue stmt.name z
    else raise (.selectForm i)
  | _ => raise (.missingArgument i)

/-- `_execute_inner` with the switch on: a fused add is skipped. -/
def executeInnerFused (i : ℕ) (stmt : Statement ν) : Pass m ν E M Unit :=
  if stmt.op = .const then evalConst plan.toPlan kernels backend i stmt.name
  else if i ∈ plan.fusions.map Fusion.add then pure ()
  else match plan.fusions.find? fun fusion => decide (fusion.select = i) with
  | some fusion => runFusedAb plan kernels backend outAb ensure i stmt fusion
  | none => executeInner plan.toPlan kernels backend ensure i stmt

/-- `execute`. -/
def executeFused (i : ℕ) : Pass m ν E M Unit := do
  let s ← reads id
  if s.done i then pure ()
  else do
    change fun s => s.begin i
    match plan.program[i]? with
    | some stmt => executeInnerFused plan kernels backend outAb ensure i stmt
    | none => pure ()

/-- `ensure`, with the nested calls it makes. -/
def ensureFusedWith (name : ν) : Pass m ν E M Unit := do
  let s ← reads id
  if s.has name then pure ()
  else match producer plan.program name with
  | none => raise (.unresolvedOperand name)
  | some i =>
    if s.done i then pure ()
    else do
      match plan.program[i]? with
      | some stmt => each ensure (operands plan.program stmt)
      | none => pure ()
      executeFused plan kernels backend outAb ensure i

end Reading

/-- `ensure`. -/
def ensureFused : ℕ → ν → Pass m ν E M Unit
  | 0 => ensureFusedWith plan kernels backend outAb fun _ => raise .recursion
  | depth + 1 => ensureFusedWith plan kernels backend outAb (ensureFused depth)

/-- The loop of `run`. -/
def statementsFusedFrom (wanted : List ν) (stopAfter : ν) :
    ℕ → Program ν → List (ν × E) → Pass m ν E M (List (ν × E))
  | _, [], _ => raise (.neverReached stopAfter)
  | i, stmt :: rest, keep => do
    executeFused plan kernels backend outAb (ensureFused plan kernels backend outAb plan.limit) i
    let s ← reads id
    let keep := keep ++ s.kept wanted stmt
    change fun s => s.release (retired plan.toPlan (stopAfter :: wanted) i)
    if stopAfter ∈ keep.map Prod.fst then pure keep else statementsFusedFrom wanted stopAfter (i + 1) rest keep

/-- `run`. -/
def runFused (inputs : List (ν × V)) (wanted : List ν) (stopAfter : ν) : Pass m ν E M (List (ν × V)) := do
  change fun s => (s.reset plan.toPlan).setValues (entries backend inputs)
  let keep ← statementsFusedFrom plan kernels backend outAb wanted stopAfter 0 plan.program []
  if missing wanted keep = [] then collect (settle backend) keep else raise (.neverProduced (missing wanted keep))

end Execution

section Unfused

variable {m : Type → Type} [Monad m] {ν V E M : Type} [DecidableEq ν] (plan : Plan ν) (kernels : Kernels V M)
  (backend : Backend m ν V E) (outAb : OutAb m ν V E)

theorem executeFused_nil (ensure : ν → Pass m ν E M Unit) (i : ℕ) :
    executeFused ⟨plan, []⟩ kernels backend outAb ensure i = execute plan kernels backend ensure i := by
  have hinner : executeInnerFused ⟨plan, []⟩ kernels backend outAb ensure i =
      executeInner plan kernels backend ensure i := by
    funext stmt
    unfold executeInnerFused
    by_cases hconstant : stmt.op = .const
    · rw [if_pos hconstant, executeInner, if_pos hconstant]
    · rw [if_neg hconstant, if_neg (by exact List.not_mem_nil)]
      rfl
  unfold executeFused execute
  generalize executeInnerFused ⟨plan, []⟩ kernels backend outAb ensure i = inner at hinner ⊢
  subst hinner
  rfl

theorem ensureFused_nil (depth : ℕ) :
    ensureFused (M := M) ⟨plan, []⟩ kernels backend outAb depth = ensure plan kernels backend depth := by
  have hwith (inner : ν → Pass m ν E M Unit) (name : ν) :
      ensureFusedWith ⟨plan, []⟩ kernels backend outAb inner name = ensureWith plan kernels backend inner name := by
    have hexecute := funext fun i => executeFused_nil plan kernels backend outAb inner i
    unfold ensureFusedWith ensureWith
    generalize executeFused ⟨plan, []⟩ kernels backend outAb inner = executed at hexecute ⊢
    subst hexecute
    rfl
  induction depth with
  | zero => exact funext fun name => hwith _ name
  | succ depth ih =>
    funext name
    rw [ensureFused, ih]
    exact hwith _ name

theorem statementsFusedFrom_nil (wanted : List ν) (stopAfter : ν) (i : ℕ) (rest : Program ν) (keep : List (ν × E)) :
    statementsFusedFrom (M := M) ⟨plan, []⟩ kernels backend outAb wanted stopAfter i rest keep =
      statementsFrom plan kernels backend wanted stopAfter i rest keep := by
  induction rest generalizing i keep with
  | nil => rfl
  | cons stmt rest ih =>
    rw [statementsFusedFrom, statementsFrom, ensureFused_nil]
    simp only [ih, executeFused_nil]

/-- With no fusion, the runner is the plain one. -/
theorem runFused_nil (inputs : List (ν × V)) (wanted : List ν) (stopAfter : ν) :
    runFused (M := M) ⟨plan, []⟩ kernels backend outAb inputs wanted stopAfter =
      run plan kernels backend inputs wanted stopAfter := by
  unfold runFused run
  simp only [statementsFusedFrom_nil]

end Unfused

end AneLinux.Encoder
