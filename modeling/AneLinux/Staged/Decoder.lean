import AneLinux.Support.Statement
import Mathlib.Algebra.BigOperators.Group.List.Basic

/-!
# The staged decoder

A manifest lists the programs of the chain with the lanes they read and write. One decode
step puts the hidden row into lane `x`, then feeds every program its sources from the lanes
or from the position's context tables, runs it, and stores its outputs under their lanes.
The lanes outlive a step: a step that raises leaves behind what it had stored. The loaded
programs are a parameter, `Engine`, which says what each bank write, each submission and
each output read of one step does.
-/

namespace AneLinux.Staged

open AneLinux.Support

/-- The bits of a `float16` value. -/
abbrev Half := BitVec 16

/-- The `float16` values the host writes into its tables: `0.0`, `1.0` and `-1e4`. -/
def halfZero : Half := 0x0000

@[inherit_doc halfZero] def halfOne : Half := 0x3C00

@[inherit_doc halfZero] def halfMasked : Half := 0xF0E2

/-- A `float16` array: its shape and its values in row-major order. -/
@[ext] structure HalfArray where
  shape : List ℕ
  data : List Half
  size_eq : data.length = shape.prod
deriving DecidableEq

namespace HalfArray

/-- The array of the given shape with one value throughout. -/
def full (shape : List ℕ) (value : Half) : HalfArray :=
  ⟨shape, List.replicate shape.prod value, List.length_replicate⟩

/-- `array.reshape(shape)`. -/
def reshape (array : HalfArray) (shape : List ℕ) : Py HalfArray :=
  if h : array.data.length = shape.prod then .ok ⟨shape, array.data, h⟩
  else raiseValue "cannot reshape array"

/-- The values as one row, `reshape(1, -1)`. -/
def row (values : List Half) : HalfArray := ⟨[1, values.length], values, by simp⟩

/-- A reshape succeeds exactly when the number of values is kept. -/
theorem reshape_isOk_iff {array : HalfArray} {shape : List ℕ} :
    (∃ value, array.reshape shape = .ok value) ↔ array.data.length = shape.prod := by
  unfold reshape
  by_cases h : array.data.length = shape.prod
  · simp [h]
  · simp [h]

end HalfArray

/-! ## The manifest -/

/-- Where a program's input comes from. -/
inductive SourceKind
  | lane
  | stateIn
  | ctx
deriving DecidableEq, Repr

/-- One entry of a program's `srcs`. -/
structure Source where
  port : String
  kind : SourceKind
  lane : String
  shape : List ℕ
deriving DecidableEq, Repr

/-- One entry of a program's `dsts`. -/
structure Dst where
  port : String
  lane : String
  shape : List ℕ
deriving DecidableEq, Repr

/-- One program of the chain. -/
structure Program where
  srcs : List Source
  dsts : List Dst
deriving DecidableEq, Repr

/-- The chain and the length of the context tables. -/
structure Manifest where
  maxLen : ℕ
  programs : List Program
deriving DecidableEq, Repr

/-- The source at a slot of a program. -/
def Manifest.source (m : Manifest) (program slot : ℕ) : Option Source :=
  m.programs[program]?.bind fun p => p.srcs[slot]?

/-- The dst at a slot of a program. -/
def Manifest.dst (m : Manifest) (program slot : ℕ) : Option Dst :=
  m.programs[program]?.bind fun p => p.dsts[slot]?

@[simp] theorem Manifest.source_of_program {m : Manifest} {i : ℕ} {program : Program}
    (h : m.programs[i]? = some program) (slot : ℕ) : m.source i slot = program.srcs[slot]? := by
  rw [Manifest.source, h, Option.bind_some]

@[simp] theorem Manifest.dst_of_program {m : Manifest} {i : ℕ} {program : Program}
    (h : m.programs[i]? = some program) (slot : ℕ) : m.dst i slot = program.dsts[slot]? := by
  rw [Manifest.dst, h, Option.bind_some]

/-! ## The host tables -/

/-- The rows of the rotary tables. -/
structure Rope where
  cosp : List HalfArray
  sinp : List HalfArray

/-- The arrays `oh`, `inv` and `mask` of one position. -/
def oneHot (maxLen position : ℕ) : HalfArray where
  shape := [1, maxLen, 1]
  data := (List.range maxLen).map fun i => if i = position then halfOne else halfZero
  size_eq := by simp

@[inherit_doc oneHot] def invHot (maxLen position : ℕ) : HalfArray where
  shape := [1, maxLen, 1]
  data := (List.range maxLen).map fun i => if i = position then halfZero else halfOne
  size_eq := by simp

@[inherit_doc oneHot] def causalMask (maxLen position : ℕ) : HalfArray where
  shape := [1, 1, maxLen]
  data := (List.range maxLen).map fun i => if i < position + 1 then halfZero else halfMasked
  size_eq := by simp

/-- `context_arrays`: the tables of one position; a position past the tables is an index error. -/
def contextArrays (maxLen position : ℕ) (rope : Rope) : Py (List (String × HalfArray)) := do
  if maxLen ≤ position then .error .indexError
  else
    let cosp ← index rope.cosp position
    let sinp ← index rope.sinp position
    .ok [("oh", oneHot maxLen position), ("inv", invHot maxLen position),
      ("mask", causalMask maxLen position), ("cosp", cosp), ("sinp", sinp)]

/-- The array a context source gets, `context[lane].reshape(shape)`. -/
def contextValue (context : List (String × HalfArray)) (source : Source) : Py HalfArray :=
  lookup context source.lane source.lane >>= (·.reshape source.shape)

/-! ## One step -/

/-- What the loaded programs do in one step: the outcome of each `write_bank` and `execute`, and
the array each `read_output` returns, which has the shape asked for. -/
structure Engine where
  writeBank : ℕ → String → HalfArray → Py Unit
  execute : ℕ → List (String × List ℕ) → Py Unit
  readOutput : ℕ → String → List ℕ → Py HalfArray
  readOutput_shape : ∀ {program port shape value},
    readOutput program port shape = .ok value → value.shape = shape

/-- The arguments of one `step` call and the engine it meets. -/
structure Call where
  hidden : List Half
  rope : Rope
  engine : Engine

/-- One `write_bank` call: the program, the slot of its source, and the array handed over. -/
structure BankWrite where
  program : ℕ
  slot : ℕ
  value : HalfArray
deriving DecidableEq

/-- The lanes during a step, and the bank writes so far. -/
structure StepState where
  lanes : List (String × HalfArray)
  writes : List BankWrite

/-- `staged.write_bank(port, value)`. -/
def writeBank (engine : Engine) (program slot : ℕ) (port : String) (value : HalfArray) :
    Stmt StepState :=
  Stmt.seq (Stmt.update fun s => { s with writes := s.writes ++ [⟨program, slot, value⟩] })
    (Stmt.call (engine.writeBank program port value))

/-- The body of the loop over `srcs`; a resident state is left on the device. -/
def feedSource (engine : Engine) (context : List (String × HalfArray)) (program : ℕ) :
    Source × ℕ → Stmt StepState := fun (source, slot) =>
  match source.kind with
  | .stateIn => Stmt.skip
  | .lane => Stmt.eval (fun s => lookup s.lanes source.lane source.lane)
      (writeBank engine program slot source.port)
  | .ctx => Stmt.eval (fun _ => contextValue context source)
      (writeBank engine program slot source.port)

section Kinds

variable {engine : Engine} {context : List (String × HalfArray)} {program slot : ℕ} {source : Source}

theorem feedSource_of_stateIn (h : source.kind = .stateIn) :
    feedSource engine context program (source, slot) = Stmt.skip := by
  simp only [feedSource, h]

theorem feedSource_of_lane (h : source.kind = .lane) : feedSource engine context program (source, slot) =
    Stmt.eval (fun s => lookup s.lanes source.lane source.lane)
      (writeBank engine program slot source.port) := by
  simp only [feedSource, h]

theorem feedSource_of_ctx (h : source.kind = .ctx) : feedSource engine context program (source, slot) =
    Stmt.eval (fun _ => contextValue context source) (writeBank engine program slot source.port) := by
  simp only [feedSource, h]

end Kinds

/-- The body of the loop over `dsts`: the output goes to its lane. -/
def storeOutput (engine : Engine) (program : ℕ) (dst : Dst) : Stmt StepState :=
  Stmt.eval (fun _ => engine.readOutput program dst.port dst.shape) fun value =>
    Stmt.update fun s => { s with lanes := assign s.lanes dst.lane value }

/-- The ports handed to `execute`, with their shapes. -/
def outputPorts (dsts : List Dst) : List (String × List ℕ) :=
  dsts.foldl (fun ports dst => assign ports dst.port dst.shape) []

/-- The body of the loop over the programs. -/
def runProgram (m : Manifest) (call : Call) (position : ℕ) : Program × ℕ → Stmt StepState :=
  fun (program, i) =>
    Stmt.eval (fun _ => contextArrays m.maxLen position call.rope) fun context =>
      Stmt.seq (Stmt.forEach (feedSource call.engine context i) program.srcs.zipIdx)
        (Stmt.seq (Stmt.call (call.engine.execute i (outputPorts program.dsts)))
          (Stmt.forEach (storeOutput call.engine i) program.dsts))

/-- What a decoder keeps between steps. -/
structure Decoder where
  lanes : List (String × HalfArray)
  position : ℕ

/-- A decoder that has just been built or reset. -/
def Decoder.initial : Decoder := ⟨[], 0⟩

/-- The hidden row of a call as lane `x` gets it. -/
def Call.hiddenRow (call : Call) : HalfArray := HalfArray.row call.hidden

/-- The loop of `step` over all programs, from the lanes the decoder holds. -/
def runPrograms (m : Manifest) (call : Call) (d : Decoder) : StepState × Py Unit :=
  Stmt.forEach (runProgram m call d.position) m.programs.zipIdx
    ⟨assign d.lanes "x" call.hiddenRow, []⟩

/-- The decoder after a step, the step's bank writes, and the hidden values it returns. -/
structure StepResult where
  decoder : Decoder
  writes : List BankWrite
  result : Py (List Half)

/-- `StagedDecoder.step`. -/
def step (m : Manifest) (call : Call) (d : Decoder) : StepResult :=
  match runPrograms m call d with
  | (s, .ok _) => ⟨⟨s.lanes, d.position + 1⟩, s.writes, (lookup s.lanes "h" "h").map HalfArray.data⟩
  | (s, .error e) => ⟨⟨s.lanes, d.position⟩, s.writes, .error e⟩

/-- The states of a decoder over any sequence of steps and resets. -/
inductive Reachable (m : Manifest) : Decoder → Prop
  | initial : Reachable m Decoder.initial
  | step {d : Decoder} (call : Call) : Reachable m d → Reachable m (step m call d).decoder
  | reset {d : Decoder} : Reachable m d → Reachable m Decoder.initial

/-! ## What a context source needs -/

/-- The number of values in a row of a rotary table. -/
def rowSize (rows : List HalfArray) (position : ℕ) : ℕ :=
  (rows[position]?.map fun row => row.data.length).getD 0

/-- The number of values of a context table, given the sizes of the rotary rows. -/
def contextSize (maxLen cosSize sinSize : ℕ) (lane : String) : Option ℕ :=
  if lane = "oh" ∨ lane = "inv" ∨ lane = "mask" then some maxLen
  else if lane = "cosp" then some cosSize
  else if lane = "sinp" then some sinSize
  else none

section Context

variable {maxLen position : ℕ} {rope : Rope} {context : List (String × HalfArray)}

/-- The tables exist exactly at the positions the host tables cover. -/
theorem contextArrays_eq_ok : contextArrays maxLen position rope = .ok context ↔
    position < maxLen ∧ ∃ cosp sinp, rope.cosp[position]? = some cosp ∧
      rope.sinp[position]? = some sinp ∧
        [("oh", oneHot maxLen position), ("inv", invHot maxLen position),
          ("mask", causalMask maxLen position), ("cosp", cosp), ("sinp", sinp)] = context := by
  have hindex (rows : List HalfArray) (row : HalfArray) :
      index rows position = .ok row ↔ rows[position]? = some row := by
    unfold index
    cases rows[position]? with
    | none => simp
    | some value => simp
  unfold contextArrays
  by_cases hposition : maxLen ≤ position
  · simp [hposition]
  · simp only [hposition, if_false, bind_eq_ok, hindex, Except.ok.injEq]
    constructor
    · rintro ⟨cosp, hcosp, sinp, hsinp, hcontext⟩
      exact ⟨by omega, cosp, sinp, hcosp, hsinp, hcontext⟩
    · rintro ⟨-, cosp, sinp, hcosp, hsinp, hcontext⟩
      exact ⟨cosp, hcosp, sinp, hsinp, hcontext⟩

/-- Every table has its size. -/
theorem contextArrays_size (h : contextArrays maxLen position rope = .ok context) (lane : String) :
    (find context lane).map (fun array => array.data.length) =
      contextSize maxLen (rowSize rope.cosp position) (rowSize rope.sinp position) lane := by
  obtain ⟨-, cosp, sinp, hcosp, hsinp, rfl⟩ := contextArrays_eq_ok.mp h
  simp only [find, contextSize, rowSize, hcosp, hsinp, eq_comm (a := lane)]
  by_cases hoh : "oh" = lane
  · simp [hoh, oneHot]
  · by_cases hinv : "inv" = lane
    · simp [hoh, hinv, invHot]
    · by_cases hmask : "mask" = lane
      · simp [hoh, hinv, hmask, causalMask]
      · simp only [hoh, hinv, hmask, if_false, or_self]
        split_ifs <;> rfl

/-- A context source gets an array exactly when its table has as many values as its shape. -/
theorem contextValue_isOk_iff (h : contextArrays maxLen position rope = .ok context) (source : Source) :
    (∃ value, contextValue context source = .ok value) ↔
      contextSize maxLen (rowSize rope.cosp position) (rowSize rope.sinp position) source.lane =
        some source.shape.prod := by
  rw [← contextArrays_size h source.lane]
  unfold contextValue lookup
  cases find context source.lane with
  | none => simp
  | some array => simp [HalfArray.reshape_isOk_iff]

end Context

end AneLinux.Staged
