import AneLinux.Support.Method
import AneLinux.Runtime.TensorView
import AneLinux.Runtime.Elementwise

/-!
# State in two alternating buffers

`RecurrentRunner` and `KvStateRunner` keep their state in the buffer bound as source. A step writes
its inputs next to the state, submits, and waits for the last row of the output. Only when that row
is finite are the two buffers swapped, with their banks in the request. A step that fails has spoiled
input rows of the source and anything in the output; the state rows of the source are as before.

The buffers are known by their handles. The engine works on the buffers the request names.
-/

namespace AneLinux.Runtime

open AneLinux.Support AneLinux.Staged

/-- Positive infinity in half precision. -/
def halfInf : Half := 0x7C00

/-- `np.isinf`. -/
def isInf (x : Half) : Bool := x &&& 0x7FFF == 0x7C00

/-- `np.isfinite`. -/
def isFinite (x : Half) : Bool := x &&& 0x7C00 != 0x7C00

/-- Values by head, row and column; zero outside the shape. -/
abbrev Tensor := ℕ → ℕ → ℕ → Half

/-- The surfaces of a runner: the state rows start at `firstState` and end before the last row, and
`declared` are the places of a head that the program reads besides the state. -/
structure Layout where
  source : Nchw
  output : Nchw
  firstState : ℕ
  declared : ℕ → ℕ → Bool

namespace Layout

/-- The row the runner waits on. -/
def completionRow (layout : Layout) : ℕ := layout.source.height - 1

/-- The number of state rows. -/
def stateCount (layout : Layout) : ℕ := layout.completionRow - layout.firstState

/-- The places of one row. -/
def rowPlaces (layout : Layout) (row : ℕ) : List Place :=
  (List.range layout.source.channels).flatMap fun head =>
    (List.range layout.source.width).map fun col => ⟨head, row, col⟩

/-- `view[0, :, row, :] = values`. -/
def rowCells (layout : Layout) (row : ℕ) (values : ℕ → ℕ → Half) : List (Place × Half) :=
  (layout.rowPlaces row).map fun p => (p, values p.head p.col)

/-- `view[0, :, row, col] = values`. -/
def columnCells (layout : Layout) (row col : ℕ) (values : ℕ → Half) : List (Place × Half) :=
  (List.range layout.source.channels).map fun head => (⟨head, row, col⟩, values head)

/-- `view[...] = 0`. -/
def zeroCells (layout : Layout) : List (Place × Half) :=
  (List.range layout.source.height).flatMap fun row => layout.rowCells row fun _ _ => 0

/-- The values of the row the runner waits on, in a buffer bound as output. -/
def completionValues (layout : Layout) (contents : Bytes) : List Half :=
  (layout.rowPlaces layout.completionRow).map fun p => halfAt contents (layout.output.address p)

/-- Values for the state rows, counted from the first of them. -/
def onState (layout : Layout) (values : Tensor) : Tensor := fun head row col =>
  if head < layout.source.channels ∧ row < layout.stateCount ∧ col < layout.source.width then
    values head row col
  else 0

/-- The state rows of a buffer. -/
def stateRows (layout : Layout) (contents : Bytes) : Tensor :=
  layout.onState fun head row col => halfAt contents (layout.source.address ⟨head, layout.firstState + row, col⟩)

end Layout

/-- What a submission ends with: whether the call raised, and the bytes left in the output buffer. -/
structure Answer where
  error : Option PyError
  output : ℕ → UInt8

/-- The buffers of a runner: the handles of `self.source` and `self.output`, the handles in the
request by bank, and the contents of the buffer objects by handle. -/
structure PingPong where
  source : ℕ
  output : ℕ
  handles : ℕ → ℕ
  memory : ℕ → Bytes

namespace PingPong

/-- The runner after its constructor: the output is bound to bank 4 and the source to bank 5. -/
def allocated (source output : ℕ) (handles : ℕ → ℕ) (memory : ℕ → Bytes) : PingPong :=
  { source, output, handles := Function.update (Function.update handles 4 output) 5 source, memory }

/-- Assign through a view of the source buffer. -/
def stage (layout : Layout) (cells : List (Place × Half)) (s : PingPong) : PingPong :=
  { s with memory := Function.update s.memory s.source (assignCells layout.source (s.memory s.source) cells) }

/-- Mark the row of the output buffer the runner waits on. -/
def arm (layout : Layout) (s : PingPong) : PingPong :=
  let cells := layout.rowCells layout.completionRow fun _ _ => halfInf
  { s with memory := Function.update s.memory s.output (assignCells layout.output (s.memory s.output) cells) }

/-- The engine reads the buffer in bank 5 and leaves its answer in the buffer in bank 4. -/
def submitted (respond : Bytes → Bytes → Answer) (s : PingPong) : PingPong × Option PyError :=
  let input := s.memory (s.handles 5)
  let output := s.memory (s.handles 4)
  let answer := respond input output
  ({ s with memory := Function.update s.memory (s.handles 4) (Bytes.ofFn output.size answer.output) },
    answer.error)

/-- `self.source, self.output = self.output, self.source` and the two banks. -/
def swapped (s : PingPong) : PingPong :=
  { s with source := s.output, output := s.source,
           handles := Function.update (Function.update s.handles 4 s.source) 5 s.output }

/-- The end of a step: wait for the completion row and swap the buffers when it is finite. -/
def finish (layout : Layout) (timeoutText nonFiniteText : String) : Method PingPong (List Half) := do
  let result ← Method.read fun s => layout.completionValues (s.memory s.output)
  if result.any isInf = true then Method.raise (.timeoutError timeoutText)
  else if result.all isFinite = false then Method.raise (.runtimeError nonFiniteText)
  else do
    Method.change fun s => (s.swapped, ())
    return result

/-- The part that both `step` methods share: write the inputs, submit, wait and swap. -/
def advance (layout : Layout) (timeoutText nonFiniteText : String) (cells : List (Place × Half))
    (respond : Bytes → Bytes → Answer) : Method PingPong (List Half) := do
  let sourceView ← Method.read fun s => tensorView (s.memory s.source) layout.source
  Method.lift sourceView
  Method.change fun s => (s.stage layout cells, ())
  let outputView ← Method.read fun s => tensorView (s.memory s.output) layout.output
  Method.lift outputView
  Method.change fun s => (s.arm layout, ())
  let error ← Method.change (submitted respond)
  match error with
  | some e => Method.raise e
  | none => finish layout timeoutText nonFiniteText

/-- The part that both `initialize` methods share: assign through a view of the source buffer. -/
def fill (layout : Layout) (cells : List (Place × Half)) : Method PingPong Unit := do
  let sourceView ← Method.read fun s => tensorView (s.memory s.source) layout.source
  Method.lift sourceView
  Method.change fun s => (s.stage layout cells, ())

/-- The state rows, read through a view of the source buffer. -/
def snapshot (layout : Layout) (s : PingPong) : Py Tensor := do
  tensorView (s.memory s.source) layout.source
  return layout.stateRows (s.memory s.source)

end PingPong

/-- `_require` of both runners. -/
def requireArray (value : NdArray Half) (shape : List ℕ) (name : String) : Py Unit :=
  if value.dtype ≠ .float16 ∨ value.shape ≠ shape then
    raiseValue (name ++ " shape and dtype must be " ++ shapeText shape ++ " float16, got " ++
      shapeText value.shape ++ " " ++ value.dtype.name)
  else .ok ()

namespace RecurrentRunner

/-- `_validate_recurrent_layout`: the layout of an accepted artifact. -/
def validateLayout (source output : Nchw) : Py Layout :=
  if source.shape ≠ output.shape then
    raiseValue "recurrent tensor layout requires matching input and output"
  else if source.batch ≠ 1 ∨ source.channels < 1 ∨ source.width < 2 ∨ source.height ≠ source.width + 5 then
    raiseValue "recurrent tensor layout must be (1, heads, dimension + 5, dimension)"
  else .ok { source, output, firstState := 4, declared := fun row col => row < 3 || (row == 3 && col < 2) }

/-- The places `initialize` assigns: everything, then the state rows. -/
def stateCells (layout : Layout) (state : NdArray Half) : List (Place × Half) :=
  layout.zeroCells ++ (List.range layout.source.width).flatMap fun row =>
    layout.rowCells (4 + row) fun head col =>
      state.entry ((head * layout.source.width + row) * layout.source.width + col)

/-- `RecurrentRunner.initialize`. -/
def initializeState (layout : Layout) (state : NdArray Half) : Method PingPong Unit := do
  Method.lift (requireArray state [layout.source.channels, layout.source.width, layout.source.width] "state")
  PingPong.fill layout (stateCells layout state)

/-- The arguments of a step. -/
structure Inputs where
  q : NdArray Half
  k : NdArray Half
  v : NdArray Half
  beta : NdArray Half
  decay : NdArray Half

/-- The places a step assigns in the source. -/
def inputCells (layout : Layout) (inputs : Inputs) : List (Place × Half) :=
  layout.rowCells 0 (fun head col => inputs.q.entry (head * layout.source.width + col)) ++
    layout.rowCells 1 (fun head col => inputs.k.entry (head * layout.source.width + col)) ++
    layout.rowCells 2 (fun head col => inputs.v.entry (head * layout.source.width + col)) ++
    layout.columnCells 3 0 inputs.beta.entry ++ layout.columnCells 3 1 inputs.decay.entry

/-- `RecurrentRunner.step`; `timeout` is the time limit as the message shows it. -/
def step (layout : Layout) (timeout : String) (inputs : Inputs) (respond : Bytes → Bytes → Answer) :
    Method PingPong (List Half) := do
  let vectorShape := [layout.source.channels, layout.source.width]
  let gateShape := [layout.source.channels]
  Method.lift (requireArray inputs.q vectorShape "q")
  Method.lift (requireArray inputs.k vectorShape "k")
  Method.lift (requireArray inputs.v vectorShape "v")
  Method.lift (requireArray inputs.beta gateShape "beta")
  Method.lift (requireArray inputs.decay gateShape "decay")
  PingPong.advance layout ("ANE recurrent update did not complete within " ++ timeout ++ " seconds")
    "ANE recurrent update returned a non-finite output" (inputCells layout inputs) respond

/-- `RecurrentRunner.snapshot_state`. -/
def snapshotState (layout : Layout) (s : PingPong) : Py Tensor := s.snapshot layout

end RecurrentRunner

namespace KvStateRunner

/-- `_validate_kv_layout`: the layout of an accepted artifact. -/
def validateLayout (source output : Nchw) (kvHeads sourceHandle outputHandle : ℕ) : Py Layout :=
  if source.shape ≠ output.shape then
    raiseValue "KV tensor layout requires matching input and output"
  else if source.batch ≠ 1 ∨ source.channels < 1 ∨ source.height < 5 ∨ source.width < 1 ∨
      (source.height - 3) % 2 ≠ 0 then
    raiseValue "KV tensor layout must be (1, heads, 2 * context + 3, dimension)"
  else if kvHeads < 1 ∨ source.channels % kvHeads ≠ 0 then
    raiseValue "query heads must be divisible by KV heads"
  else if sourceHandle = outputHandle then
    raiseValue "KV state requires distinct input and output buffers"
  else .ok { source, output, firstState := 2, declared := fun row _ => row < 2 }

/-- `KvStateRunner.initialize`. -/
def initializeCache (layout : Layout) : Method PingPong Unit := PingPong.fill layout layout.zeroCells

/-- The places a step assigns in the source: every KV head is repeated for its group. -/
def inputCells (layout : Layout) (kvHeads : ℕ) (key value : NdArray Half) : List (Place × Half) :=
  let groupSize := layout.source.channels / kvHeads
  layout.rowCells 0 (fun head col => key.entry (head / groupSize * layout.source.width + col)) ++
    layout.rowCells 1 (fun head col => value.entry (head / groupSize * layout.source.width + col))

/-- `KvStateRunner.step`. -/
def step (layout : Layout) (timeout : String) (kvHeads : ℕ) (key value : NdArray Half)
    (respond : Bytes → Bytes → Answer) : Method PingPong Unit := do
  Method.lift (requireArray key [kvHeads, layout.source.width] "key")
  Method.lift (requireArray value [kvHeads, layout.source.width] "value")
  let _ ← PingPong.advance layout ("ANE KV state update did not complete within " ++ timeout ++ " seconds")
    "ANE KV state update returned a non-finite completion row" (inputCells layout kvHeads key value) respond
  return ()

/-- The rows of a tensor from one on. -/
def rowsFrom (state : Tensor) (start count : ℕ) : Tensor := fun head row col =>
  if row < count then state head (start + row) col else 0

/-- The key rows and the value rows of a state. -/
def caches (layout : Layout) (state : Tensor) : Tensor × Tensor :=
  let context := (layout.source.height - 3) / 2
  (rowsFrom state 0 context, rowsFrom state context context)

/-- `KvStateRunner.snapshot_cache`: the key rows and the value rows. -/
def snapshotCache (layout : Layout) (s : PingPong) : Py (Tensor × Tensor) := do
  let state ← s.snapshot layout
  return caches layout state

end KvStateRunner

end AneLinux.Runtime
