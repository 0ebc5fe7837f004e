import Mathlib.Data.List.Basic

/-!
# MIL programs and what the encoder runner finds in them

A program is a list of statements. Before it runs anything, the runner pairs the matmuls of the attention islands,
looks for the two fusions of the feed-forward and convolution modules, and notes after which statement each name can
be released. Whether a gate is fused depends on the axis and the count of its split, which are constants.

Arguments are kept in the two kinds the operations read them in: arrays and host values.
-/

namespace AneLinux.Encoder

/-- The operations with rules of their own; the others are told apart by their meaning alone. -/
inductive Op
  | const
  | split
  | sigmoid
  | silu
  | mul
  | linear
  | matmul
  | select
  | other
deriving DecidableEq, Repr

/-- The name patterns of the islands. -/
inductive Role
  | scores
  | content
  | attnOut
  | maskSelect
deriving DecidableEq, Repr

/-- A statement: its results, its operation, the pattern its first name matches, the names read as arrays and as host
values, whether it has a bias, and the rank of its result when it has a shape. -/
structure Statement (ν : Type) where
  name : ν
  more : List ν
  op : Op
  role : Option Role
  arrays : List ν
  hosts : List ν
  biased : Bool
  rank : Option ℕ
deriving DecidableEq, Repr

/-- The results of a statement. -/
def Statement.names {ν : Type} (stmt : Statement ν) : List ν := stmt.name :: stmt.more

/-- The statements in order. -/
abbrev Program (ν : Type) := List (Statement ν)

variable {ν : Type} [DecidableEq ν]

section Indexing

/-- The statement that produces a name: the last one, as in a dictionary. -/
def producer (program : Program ν) (name : ν) : Option ℕ :=
  (List.range program.length).reverse.find? fun i => (program[i]?).any fun stmt => decide (name ∈ stmt.names)

/-- The arguments that are results of statements. -/
def operands (program : Program ν) (stmt : Statement ν) : List ν :=
  (stmt.arrays ++ stmt.hosts).filter fun name => (producer program name).isSome

/-- The statements that read a name, once for each time they do. -/
def consumers (program : Program ν) (name : ν) : List ℕ :=
  (program.mapIdx fun i stmt =>
    ((operands program stmt).filter fun other => decide (other = name)).map fun _ => i).flatten

/-- The places of the statements with an operation and a pattern. -/
def withRole (program : Program ν) (op : Op) (role : Role) : List ℕ :=
  (List.range program.length).filter fun i => (program[i]?).any fun stmt => stmt.op = op ∧ stmt.role = some role

/-- The statements that run on the device: pairs of score matmuls, mask selects and output matmuls. -/
structure Islands where
  pairs : List (ℕ × ℕ)
  selects : List ℕ
  outs : List ℕ
deriving DecidableEq, Repr

/-- `_index_islands`: the sets have to be of one size. -/
def indexIslands (program : Program ν) : Option Islands :=
  let scores := withRole program .matmul .scores
  let content := withRole program .matmul .content
  let outs := withRole program .matmul .attnOut
  let selects := withRole program .select .maskSelect
  if scores.length = content.length ∧ content.length = outs.length ∧ outs.length = selects.length then
    some ⟨scores.zip content, selects, outs⟩
  else none

/-- A gate that may be fused: the places of its sigmoid and its product, the other factor, the argument of the sigmoid,
and the axis and the count of the split that both come from. -/
structure Gate (ν : Type) where
  sigmoid : ℕ
  mul : ℕ
  a : ν
  b : ν
  axis : ν
  count : ν
deriving DecidableEq, Repr

/-- The gate of a sigmoid: its only reader multiplies it with the other half of the split of an array of rank 3. -/
def gateOf (program : Program ν) (i : ℕ) (stmt : Statement ν) : Option (Gate ν) :=
  if stmt.op ≠ .sigmoid then none
  else match consumers program stmt.name with
  | [mul] => do
    let product ← program[mul]?
    let b ← stmt.arrays[0]?
    let a ← match product.arrays.filter fun other => decide (other ≠ stmt.name) with
      | [a] => some a
      | _ => none
    let place ← producer program a
    let split ← program[place]?
    let input ← split.arrays[0]?
    let parent ← (producer program input).bind fun place => program[place]?
    let axis ← split.hosts[0]?
    let count ← split.hosts[1]?
    if product.op = .mul ∧ producer program b = some place ∧ split.op = .split ∧ parent.rank = some 3 then
      some ⟨i, mul, a, b, axis, count⟩
    else none
  | _ => none

/-- The gates in the order of their sigmoids. -/
def candidates (program : Program ν) : List (Gate ν) :=
  (program.mapIdx fun i stmt => (gateOf program i stmt).toList).flatten

/-- The silu that a linear with bias may compute with it: its only reader. -/
def siluOf (program : Program ν) (stmt : Statement ν) : Option ℕ :=
  if stmt.op ≠ .linear ∨ stmt.biased = false then none
  else match consumers program stmt.name with
  | [silu] =>
    if (program[silu]?).any fun user => user.op = .silu ∧ user.arrays[0]? = some stmt.name then some silu else none
  | _ => none

/-- The linears with the silus they may compute, when chain fusion is on. -/
def linearSilus (program : Program ν) (chain : Bool) : List (ℕ × ℕ) :=
  if chain then (program.mapIdx fun i stmt => ((siluOf program stmt).map fun silu => (i, silu)).toList).flatten else []

/-- `_last_use`: the last statement that reads a name; the argument of a fused sigmoid is read by its product. -/
def lastUse (program : Program ν) (gates : List (Gate ν)) (name : ν) : Option ℕ :=
  (consumers program name ++ (gates.filter fun gate => decide (gate.b = name)).map Gate.mul).max?

end Indexing

end AneLinux.Encoder
