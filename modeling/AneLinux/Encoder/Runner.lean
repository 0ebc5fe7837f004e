import AneLinux.Encoder.Program
import AneLinux.Support.Attempt
import AneLinux.Support.Python

/-!
# The encoder runner

A pass executes the statements in order. Constants are materialised, the placed islands are submitted to the device,
a fused gate or a fused linear runs as one kernel, and everything else is one operation on the values in the table.
An island reads operands that the program computes later; `ensure` executes what is missing, and each statement has a
flag so that it runs once. A name leaves the table after its last reader.

The operations, the kernels and the device are parameters. The runner is written over a base monad and over what an
entry of the table is, so that the pass that waits for the device and the pass that does not are the same text.
-/

namespace AneLinux.Encoder

open AneLinux.Support Attempt

/-- Why a pass stops. -/
inductive Err (ν : Type)
  | unresolvedOperand (name : ν)
  | unresolvedTensor (name : ν)
  | notHostConstant (name : ν)
  | missingArgument (i : ℕ)
  | constant (i : ℕ)
  | operation (i : ℕ)
  | transposed (i : ℕ)
  | selectForm (i : ℕ)
  | splitCount (i : ℕ)
  | unbalancedIslands
  | neverReached (name : ν)
  | neverProduced (names : List ν)
  | recursion
  | device (message : String)
deriving DecidableEq, Repr

/-- What evaluating a constant stores. A text is host data alone; an inline literal stores its host data first, and
its array when the items have the shape; a blob stores its array, and its host data when it is a scalar. -/
inductive Literal (V M : Type)
  | text (host : M)
  | inline (host : M) (array : Option V)
  | blob (array : V) (host : Option M)
  | broken

/-- The island bundles. -/
inductive Bundle
  | attnAKt
  | select8head
  | pv
deriving DecidableEq, Repr

/-- A submit: the bundle, the marshalled inputs, and the statements whose results it returns. -/
structure Job (V : Type) where
  bundle : Bundle
  payload : List V
  outputs : List ℕ
deriving DecidableEq, Repr

/-- The operations and kernels, and how host data is read. -/
structure Kernels (V M : Type) where
  literal : ℕ → Literal V M
  op : ℕ → List V → List M → Option V
  split : ℕ → V → List M → Option (List V)
  glu : V → V → Option V
  chainSilu : ℕ → List V → Option V
  takesChain : ℕ → List V → Option Bool
  ofHost : M → Option V
  truth : M → Bool
  int : M → ℤ
  swapaxes : V → V
  broadcast : V → V
  selectForm : V → V → V → Bool

/-- What an entry of the table is and how the device is reached. -/
structure Backend (m : Type → Type) (ν V E : Type) where
  ofArray : V → E
  array : E → Option V
  wait : E → m (Except (Err ν) V)
  submit : Job V → m (Except (Err ν) (ℕ → E))

/-- The placed islands. -/
structure Placed where
  a : Bool
  b : Bool
  c : Bool
deriving DecidableEq, Repr

/-- A program with what the runner is given and has found in it: the placed islands, the switches for chain fusion and
for the constant cache, the nested calls the interpreter allows, the islands and the fused gates. -/
structure Plan (ν : Type) where
  program : Program ν
  placed : Placed
  chain : Bool
  cache : Bool
  limit : ℕ
  islands : Islands
  gates : List (Gate ν)

/-- The state of a runner: the value table, the host data of the constants, which statements are done, which silus
their linears compute, and the cached constants. -/
structure Runner (ν E M : Type) where
  values : ν → Option E
  hosts : ν → Option M
  done : ℕ → Bool
  siluDone : ℕ → Bool
  constValues : List (ν × E)

section Tables

variable {ν E M : Type} [DecidableEq ν]

/-- Write the value table. -/
def Runner.setValue (s : Runner ν E M) (name : ν) (e : E) : Runner ν E M :=
  { s with values := Function.update s.values name (some e) }

theorem Runner.setValue_self {s : Runner ν E M} {name : ν} {e : E} (h : s.values name = some e) :
    s.setValue name e = s := by
  unfold Runner.setValue
  rw [← h, Function.update_eq_self]

/-- Write several names. -/
def writeAll (values : ν → Option E) (pairs : List (ν × E)) : ν → Option E :=
  pairs.foldl (fun values pair => Function.update values pair.1 (some pair.2)) values

def Runner.setValues (s : Runner ν E M) (pairs : List (ν × E)) : Runner ν E M :=
  { s with values := writeAll s.values pairs }

/-- Write the host table. -/
def Runner.setHost (s : Runner ν E M) (name : ν) (x : M) : Runner ν E M :=
  { s with hosts := Function.update s.hosts name (some x) }

/-- Set the flag of a statement. -/
def Runner.begin (s : Runner ν E M) (i : ℕ) : Runner ν E M := { s with done := Function.update s.done i true }

/-- The silu is no longer computed by its linear. -/
def Runner.discard (s : Runner ν E M) (i : ℕ) : Runner ν E M :=
  { s with siluDone := Function.update s.siluDone i false }

/-- Drop the names that a statement retires. -/
def Runner.release (s : Runner ν E M) (retired : ν → Bool) : Runner ν E M :=
  { s with values := fun name => if retired name then none else s.values name }

/-- `eval_const` keeps the array of a constant in the cache when it is on. -/
def Runner.store (s : Runner ν E M) (cache : Bool) (name : ν) : Runner ν E M :=
  match cache, s.values name with
  | true, some e => { s with constValues := assign s.constValues name e }
  | _, _ => s

/-- Whether `ensure` finds a name in one of the tables. -/
def Runner.has (s : Runner ν E M) (name : ν) : Bool := (s.values name).isSome || (s.hosts name).isSome

end Tables

/-- An attempt on a runner. -/
abbrev Pass (m : Type → Type) (ν E M α : Type) := Attempt m (Runner ν E M) (Err ν) α

section Execution

variable {m : Type → Type} [Monad m] {ν V E M : Type} [DecidableEq ν]
variable (plan : Plan ν) (kernels : Kernels V M) (backend : Backend m ν V E)

/-- `_eval_const`. -/
def evalLiteral (i : ℕ) (name : ν) : Pass m ν E M Unit :=
  match kernels.literal i with
  | .text host => change fun s => s.setHost name host
  | .inline host array => do
    change fun s => s.setHost name host
    let v ← orRaise (.constant i) array
    change fun s => s.setValue name (backend.ofArray v)
  | .blob v none => change fun s => s.setValue name (backend.ofArray v)
  | .blob v (some host) => change fun s => (s.setValue name (backend.ofArray v)).setHost name host
  | .broken => raise (.constant i)

/-- `eval_const`. -/
def evalConst (i : ℕ) (name : ν) : Pass m ν E M Unit := do
  evalLiteral kernels backend i name
  change fun s => s.store plan.cache name

section Reading

variable (ensure : ν → Pass m ν E M Unit)

/-- `tensor`: an entry that is not settled is waited for and replaced, and a constant without one is made from its
host data. -/
def tensor (name : ν) : Pass m ν E M V := do
  ensure name
  let s ← reads id
  match s.values name with
  | some e =>
    match backend.array e with
    | some v => pure v
    | none => do
      let v ← call (backend.wait e)
      change fun s => s.setValue name (backend.ofArray v)
      pure v
  | none => orRaise (.unresolvedTensor name) ((s.hosts name).bind kernels.ofHost)

/-- `scalar`: only constants are read as host data. -/
def scalar (name : ν) : Pass m ν E M M := do
  ensure name
  let s ← reads id
  orRaise (.notHostConstant name) (s.hosts name)

/-- The flags a bundle needs, checked in order. -/
def requireFlags (i : ℕ) : List (ν × Bool) → Pass m ν E M Unit
  | [] => pure ()
  | (name, wanted) :: rest => do
    let x ← scalar ensure name
    if kernels.truth x = wanted then requireFlags i rest else raise (.transposed i)

/-- The arguments of a matmul: its two factors and the flags that transpose them. -/
def matmulArguments (stmt : Statement ν) : Option ((ν × ν) × (ν × ν)) :=
  match stmt.arrays, stmt.hosts with
  | [x, y], [tx, ty] => some ((x, y), (tx, ty))
  | _, _ => none

/-- `_run_island_a`: both matmuls of a layer in one submit; the bundle takes the key transposed. -/
def runIslandA (scores content : ℕ) (stmt contentStmt : Statement ν) : Pass m ν E M Unit := do
  let ((x, y), (tx, ty)) ← orRaise (.missingArgument scores) (matmulArguments stmt)
  let ((cx, cy), (ctx, cty)) ← orRaise (.missingArgument content) (matmulArguments contentStmt)
  requireFlags kernels ensure scores [(tx, false), (ty, false)]
  requireFlags kernels ensure content [(ctx, false), (cty, true)]
  let q_v ← tensor kernels backend ensure x
  let pos_kT ← tensor kernels backend ensure y
  let q_scaled ← tensor kernels backend ensure cx
  let k_heads ← tensor kernels backend ensure cy
  let results ← call (backend.submit ⟨.attnAKt, [q_v, pos_kT, q_scaled, kernels.swapaxes k_heads], [scores, content]⟩)
  change fun s => ((s.setValue stmt.name (results 0)).setValue contentStmt.name (results 1)).begin content

/-- `_run_island_b`: the mask select, its fill and its condition expanded. -/
def runIslandB (i : ℕ) (stmt : Statement ν) : Pass m ν E M Unit := do
  match stmt.arrays with
  | [a, c, b] => do
    let fill ← tensor kernels backend ensure a
    let cond ← tensor kernels backend ensure c
    let matrix_bd ← tensor kernels backend ensure b
    if kernels.selectForm fill cond matrix_bd then do
      let results ← call (backend.submit
        ⟨.select8head, [kernels.broadcast fill, matrix_bd, kernels.broadcast cond], [i]⟩)
      change fun s => s.setValue stmt.name (results 0)
    else raise (.selectForm i)
  | _ => raise (.missingArgument i)

/-- `_run_island_c`: the matmul of the probabilities with the values. -/
def runIslandC (i : ℕ) (stmt : Statement ν) : Pass m ν E M Unit := do
  let ((x, y), (tx, ty)) ← orRaise (.missingArgument i) (matmulArguments stmt)
  requireFlags kernels ensure i [(tx, false), (ty, false)]
  let probs ← tensor kernels backend ensure x
  let v_heads ← tensor kernels backend ensure y
  let results ← call (backend.submit ⟨.pv, [probs, v_heads], [i]⟩)
  change fun s => s.setValue stmt.name (results 0)

/-- The fused gate: one kernel for the sigmoid and the product. -/
def runGate (i : ℕ) (stmt : Statement ν) (gate : Gate ν) : Pass m ν E M Unit := do
  let a ← tensor kernels backend ensure gate.a
  let b ← tensor kernels backend ensure gate.b
  let v ← orRaise (.operation i) (kernels.glu a b)
  change fun s => s.setValue stmt.name (backend.ofArray v)

/-- `apply_split`, with one part for each name. -/
def runSplit (i : ℕ) (stmt : Statement ν) : Pass m ν E M Unit := do
  let xs ← collect (scalar ensure) stmt.hosts
  match stmt.arrays with
  | [x] => do
    let v ← tensor kernels backend ensure x
    let parts ← orRaise (.operation i) (kernels.split i v xs)
    if parts.length = stmt.names.length then
      change fun s => s.setValues (stmt.names.zip (parts.map backend.ofArray))
    else raise (.splitCount i)
  | _ => raise (.missingArgument i)

/-- `apply` on a linear that may compute a silu: the kernel that does both, or the linear alone, and then the silu
statement is left to run. -/
def applyLinear (i silu : ℕ) (vs : List V) (xs : List M) : Pass m ν E M V := do
  let fused ← orRaise (.operation i) (kernels.takesChain i vs)
  if fused then orRaise (.operation i) (kernels.chainSilu i vs)
  else do
    change fun s => s.discard silu
    orRaise (.operation i) (kernels.op i vs xs)

/-- `apply`: the arguments, then the operation; the result of a linear is published under the name of its silu, too. -/
def runApply (i : ℕ) (stmt : Statement ν) : Pass m ν E M Unit := do
  let vs ← collect (tensor kernels backend ensure) stmt.arrays
  let xs ← collect (scalar ensure) stmt.hosts
  match find (linearSilus plan.program plan.chain) i with
  | none => do
    let v ← orRaise (.operation i) (kernels.op i vs xs)
    change fun s => s.setValue stmt.name (backend.ofArray v)
  | some silu => do
    let v ← applyLinear kernels i silu vs xs
    change fun s => s.setValue stmt.name (backend.ofArray v)
    match plan.program[silu]? with
    | some siluStmt => change fun s => s.setValue siluStmt.name (backend.ofArray v)
    | none => pure ()

/-- The part of a statement that runs on the GPU, when nothing else has produced its result. -/
def runGpu (i : ℕ) (stmt : Statement ν) : Pass m ν E M Unit := do
  let s ← reads id
  if stmt.op = .sigmoid ∧ i ∈ plan.gates.map Gate.sigmoid then pure ()
  else if stmt.op = .silu ∧ s.siluDone i then pure ()
  else match plan.gates.find? fun gate => decide (gate.mul = i) with
  | some gate => runGate kernels backend ensure i stmt gate
  | none =>
    if stmt.op = .split then runSplit kernels backend ensure i stmt else runApply plan kernels backend ensure i stmt

/-- The content matmul, reached first, runs the island of its layer; when that produces it, it is done. -/
def runContent (i scores : ℕ) (stmt : Statement ν) : Pass m ν E M Unit := do
  let s ← reads id
  if (s.values stmt.name).isSome then runGpu plan kernels backend ensure i stmt
  else match plan.program[scores]? with
  | none => raise (.missingArgument i)
  | some scoresStmt => do
    ensure scoresStmt.name
    let s ← reads id
    if (s.values stmt.name).isSome then pure () else runGpu plan kernels backend ensure i stmt

/-- `_execute_inner`. -/
def executeInner (i : ℕ) (stmt : Statement ν) : Pass m ν E M Unit :=
  if stmt.op = .const then evalConst plan kernels backend i stmt.name
  else match plan.placed.a, find plan.islands.pairs i with
  | true, some content => do
    let contentStmt ← orRaise (.missingArgument i) plan.program[content]?
    runIslandA kernels backend ensure i content stmt contentStmt
  | a, _ =>
    if plan.placed.b ∧ i ∈ plan.islands.selects then runIslandB kernels backend ensure i stmt
    else if plan.placed.c ∧ i ∈ plan.islands.outs then runIslandC kernels backend ensure i stmt
    else match a, find (plan.islands.pairs.map Prod.swap) i with
    | true, some scores => runContent plan kernels backend ensure i scores stmt
    | _, _ => runGpu plan kernels backend ensure i stmt

/-- `execute`: the flag is set before the statement runs. -/
def execute (i : ℕ) : Pass m ν E M Unit := do
  let s ← reads id
  if s.done i then pure ()
  else do
    change fun s => s.begin i
    match plan.program[i]? with
    | some stmt => executeInner plan kernels backend ensure i stmt
    | none => pure ()

/-- `ensure`, with the nested calls it makes. -/
def ensureWith (name : ν) : Pass m ν E M Unit := do
  let s ← reads id
  if s.has name then pure ()
  else match producer plan.program name with
  | none => raise (.unresolvedOperand name)
  | some i =>
    if s.done i then pure ()
    else do
      match plan.program[i]? with
      | some stmt => each ensure (operands plan.program stmt)
      | none => pure ()
      execute plan kernels backend ensure i

end Reading

/-- `ensure`: the interpreter allows a limited number of nested calls. -/
def ensure : ℕ → ν → Pass m ν E M Unit
  | 0 => ensureWith plan kernels backend fun _ => raise .recursion
  | depth + 1 => ensureWith plan kernels backend (ensure depth)

/-- The names that are released after a statement. -/
def retired (protect : List ν) (i : ℕ) (name : ν) : Bool :=
  decide (lastUse plan.program plan.gates name = some i) && decide (name ∉ protect)

/-- What is kept of a statement: the wanted names that the table has. -/
def Runner.kept (s : Runner ν E M) (wanted : List ν) (stmt : Statement ν) : List (ν × E) :=
  stmt.names.filterMap fun name => if name ∈ wanted then (s.values name).map fun e => (name, e) else none

/-- The loop of `run`: what is wanted is kept as it is produced, until the last wanted name is. -/
def statementsFrom (wanted : List ν) (stopAfter : ν) : ℕ → Program ν → List (ν × E) → Pass m ν E M (List (ν × E))
  | _, [], _ => raise (.neverReached stopAfter)
  | i, stmt :: rest, keep => do
    execute plan kernels backend (ensure plan kernels backend plan.limit) i
    let s ← reads id
    let keep := keep ++ s.kept wanted stmt
    change fun s => s.release (retired plan (stopAfter :: wanted) i)
    if stopAfter ∈ keep.map Prod.fst then pure keep else statementsFrom wanted stopAfter (i + 1) rest keep

/-- The entry of a kept value, waited for when it is not settled. -/
def settle (entry : ν × E) : Pass m ν E M (ν × V) :=
  match backend.array entry.2 with
  | some v => pure (entry.1, v)
  | none => do
    let v ← call (backend.wait entry.2)
    pure (entry.1, v)

/-- The wanted names that were not kept. -/
def missing (wanted : List ν) (keep : List (ν × E)) : List ν :=
  wanted.filter fun name => decide (name ∉ keep.map Prod.fst)

/-- A pass is warm when the cache is on and filled. -/
def Runner.warm (plan : Plan ν) (s : Runner ν E M) : Bool := plan.cache && !s.constValues.isEmpty

/-- The start of a pass. A warm one takes the constants from the cache, which stay done; with the cache off, every
statement runs again. -/
def Runner.reset (plan : Plan ν) (s : Runner ν E M) : Runner ν E M :=
  { s with
    values := fun name => if s.warm plan then find s.constValues name else none
    done := fun i =>
      if s.warm plan then s.done i && decide ((plan.program[i]?).map Statement.op = some .const)
      else plan.cache && s.done i }

/-- The inputs as entries. -/
def entries (inputs : List (ν × V)) : List (ν × E) := inputs.map fun pair => (pair.1, backend.ofArray pair.2)

/-- `run`. -/
def run (inputs : List (ν × V)) (wanted : List ν) (stopAfter : ν) : Pass m ν E M (List (ν × V)) := do
  change fun s => (s.reset plan).setValues (entries backend inputs)
  let keep ← statementsFrom plan kernels backend wanted stopAfter 0 plan.program []
  if missing wanted keep = [] then collect (settle backend) keep else raise (.neverProduced (missing wanted keep))

end Execution

section Construction

variable {m : Type → Type} [Monad m] {ν V E M : Type} [DecidableEq ν]
variable (kernels : Kernels V M) (backend : Backend m ν V E)

/-- What the runner is given beside the program: the placed islands, the switches and the nested calls. -/
structure Options where
  placed : Placed
  chain : Bool
  cache : Bool
  limit : ℕ
deriving DecidableEq, Repr

/-- A runner that has read nothing: every silu that a linear may compute is left to it. -/
def Runner.blank (program : Program ν) (chain : Bool) : Runner ν E M where
  values := fun _ => none
  hosts := fun _ => none
  done := fun _ => false
  siluDone := fun i => decide (i ∈ (linearSilus program chain).map Prod.snd)
  constValues := []

/-- `ensure` while the runner is built: what is read is a constant, and anything else ends the construction. -/
def ensureConstant (plan : Plan ν) (name : ν) : Pass m ν E M Unit := do
  let s ← reads id
  if s.has name then pure ()
  else match producer plan.program name with
  | none => raise (.unresolvedOperand name)
  | some i =>
    if s.done i then pure ()
    else match plan.program[i]? with
    | none => raise (.unresolvedOperand name)
    | some stmt =>
      if stmt.op = .const then do
        change fun s => s.begin i
        evalConst plan kernels backend i stmt.name
      else raise (.notHostConstant name)

/-- `_index_fusions`: the gates whose split halves the channel axis, read in order. -/
def fusedGates (plan : Plan ν) : List (Gate ν) → Pass m ν E M (List (Gate ν))
  | [] => pure []
  | gate :: rest => do
    let axis ← scalar (ensureConstant kernels backend plan) gate.axis
    if kernels.int axis % 3 = 1 then do
      let count ← scalar (ensureConstant kernels backend plan) gate.count
      let gates ← fusedGates plan rest
      pure (if kernels.int count = 2 then gate :: gates else gates)
    else fusedGates plan rest

/-- `__init__`. -/
def build (program : Program ν) (options : Options) : Pass m ν E M (Plan ν) := do
  let islands ← orRaise .unbalancedIslands (indexIslands program)
  let plan : Plan ν :=
    ⟨program, options.placed, options.chain, options.cache, options.limit, islands, []⟩
  let gates ← fusedGates kernels backend plan (candidates program)
  pure { plan with gates := gates }

/-- A runner from its construction on: it is built and makes passes, until one raises. -/
def session (program : Program ν) (options : Options) (wanted : List ν) (stopAfter : ν)
    (calls : List (List (ν × V))) : Pass m ν E M (List (List (ν × V))) := do
  let plan ← build kernels backend program options
  collect (fun inputs => run plan kernels backend inputs wanted stopAfter) calls

end Construction

section OneLayer

/-- One attention layer behind a linear with bias and its silu. The content matmul reads the silu scaled by a constant,
and the scores come before both. -/
def layerProgram : Program ℕ :=
  [⟨10, [], .const, none, [], [], false, none⟩,
   ⟨11, [], .const, none, [], [], false, none⟩,
   ⟨20, [], .linear, none, [0, 1, 2], [], true, some 3⟩,
   ⟨21, [], .matmul, some .scores, [0, 3], [10, 10], false, some 4⟩,
   ⟨22, [], .silu, none, [20], [], false, some 3⟩,
   ⟨12, [], .const, none, [], [], false, none⟩,
   ⟨26, [], .mul, none, [22, 12], [], false, some 4⟩,
   ⟨23, [], .matmul, some .content, [26, 3], [10, 11], false, some 4⟩,
   ⟨24, [], .select, some .maskSelect, [0, 1, 21], [], false, some 4⟩,
   ⟨25, [], .matmul, some .attnOut, [24, 23], [10, 10], false, some 4⟩]

/-- Integer kernels for it. The scale is 0.1 in units of 2^-27: its array holds the half-precision value, and an array
made from its host data the single-precision one. `takes` says whether the linear can take the fused kernel. -/
def layerKernels (takes : Bool) : Kernels ℤ ℤ where
  literal := fun i => match i with
    | 0 => .inline 0 (some 0)
    | 1 => .inline 1 (some 1)
    | _ => .inline 13421773 (some 13418496)
  op := fun i vs _ => match i, vs with
    | 2, [x, weight, bias] => some (x * weight + bias)
    | 4, [x] => some (7 * x)
    | 8, [a, c, b] => some (a + c + b)
    | _, [x, y] => some (x * y)
    | _, _ => none
  split := fun _ _ _ => none
  glu := fun _ _ => none
  chainSilu := fun _ vs => match vs with
    | [x, weight, bias] => some (7 * (x * weight + bias))
    | _ => none
  takesChain := fun _ _ => some takes
  ofHost := some
  truth := fun x => decide (x ≠ 0)
  int := id
  swapaxes := id
  broadcast := id
  selectForm := fun _ _ _ => true

/-- The device on its islands. -/
def layerDevice (job : Job ℤ) : Except String (ℕ → ℤ) :=
  match job.bundle, job.payload with
  | .attnAKt, [q_v, pos_kT, q_scaled, k_headsT] =>
    .ok fun output => if output = 0 then q_v * pos_kT else q_scaled * k_headsT
  | .select8head, [fill, matrix_bd, cond] => .ok fun _ => fill + cond + matrix_bd
  | .pv, [probs, v_heads] => .ok fun _ => probs * v_heads
  | _, _ => .error "inputs"

/-- The inputs of a pass. -/
def layerInputs : List (ℕ × ℤ) := [(0, 2), (1, 3), (2, 5), (3, 11)]

/-- All islands placed, chain fusion on and the constant cache off. -/
def layerOptions : Options := ⟨⟨true, true, true⟩, true, false, 8⟩

end OneLayer

end AneLinux.Encoder
