import AneLinux.Runtime.HalfBytes

/-!
# Staged banks

A program keeps one bank per channel, sized for the window of the channel, and a pair of buffers
for every resident state. An array is staged row by row: a row shorter than 64 bytes sits at the
head of 64 bytes, longer rows are dense. What is staged has to fill the window. An output is read
back dense, or by the heads of its rows where the window is larger than the array.
-/

namespace AneLinux.Staged

open AneLinux.Support AneLinux.Runtime

/-! ## The staged layout -/

/-- The bytes a short row takes in a window. -/
def stagedRow : ℕ := 64

/-- The values of a row: `shape[-1]`, one for a scalar. -/
def HalfArray.columns (array : HalfArray) : ℕ := array.shape.getLastD 1

/-- Rows of zeros whose heads are the rows of the array. -/
def windowRows (rows columns : ℕ) (values : List Half) : List Half :=
  (List.range (rows * (stagedRow / 2))).map fun i =>
    if i % (stagedRow / 2) < columns then values.getD (i / (stagedRow / 2) * columns + i % (stagedRow / 2)) 0 else 0

/-- The bytes of an array as the engine finds them. -/
def stagedPayload (array : HalfArray) : Py Bytes :=
  if array.shape.length < 2 ∨ stagedRow ≤ array.columns * 2 then
    return tobytes array.data
  else if array.columns = 0 then
    .error .zeroDivisionError
  else
    return tobytes (windowRows (array.data.length / array.columns) array.columns array.data)

/-- `staged_bytes`: the payload has to fill the window. -/
def stagedBytes (array : HalfArray) (window : ℕ) : Py Bytes := do
  let payload ← stagedPayload array
  if payload.size ≠ window then
    raiseValue ("staged " ++ toString payload.size ++ " B does not fill the declared " ++ toString window ++
      " B window")
  else
    return payload

/-- `mod_staged_window`: the window bytes of a logical shape. -/
def modStagedWindow (shape : List ℕ) : Py ℕ :=
  match shape.getLast? with
  | none => .error .indexError
  | some columns => return max (shape.dropLast.prod * columns * 2) (shape.dropLast.prod * stagedRow)

/-- `np.frombuffer(raw, dtype=np.float16).reshape(shape)`. -/
def fromBuffer (raw : Bytes) (shape : List ℕ) : Py HalfArray :=
  if raw.size % 2 ≠ 0 then
    raiseValue "buffer size must be a multiple of element size"
  else if h : raw.size / 2 = shape.prod then
    return ⟨shape, (List.range (raw.size / 2)).map fun i => halfAt raw (2 * i), by simp [h]⟩
  else
    raiseValue "cannot reshape array"

/-- The heads of the 64-byte rows of a window, `width` bytes each. -/
def rowHeads (raw : Bytes) (width : ℕ) : Bytes :=
  Bytes.ofFn (raw.size / stagedRow * min width stagedRow) fun i =>
    raw.get (i / min width stagedRow * stagedRow + i % min width stagedRow)

/-! ## Banks and states -/

/-- Round up to a whole tile. -/
def tileBytes (size : ℕ) : ℕ := (max size 1 + 0x3FFF) / 0x4000 * 0x4000

/-- The front of a buffer replaced by the data, as far as the buffer goes. -/
def overwritten (buffer data : Bytes) : Bytes :=
  Bytes.ofFn buffer.size fun i => if i < data.size then data.get i else buffer.get i

/-- `Buffer.write`. -/
def storeBuffer (buffer data : Bytes) : Py Bytes :=
  if buffer.size < data.size then
    raiseValue ("buffer overflow: " ++ toString data.size ++ " > " ++ toString buffer.size)
  else
    return overwritten buffer data

@[simp] theorem size_overwritten (buffer data : Bytes) : (overwritten buffer data).size = buffer.size := rfl

/-- The memory of a loaded program: the channel of every port, the window of every channel, the
bank of every channel, which is a tile-aligned buffer for its window, and the pairs of state
buffers by input and output channel, the one the engine reads next in front. -/
structure StagedProgram where
  binding : List (String × ℕ)
  window : List (ℕ × ℕ)
  banks : List (ℕ × Bytes)
  states : List ((ℕ × ℕ) × (Bytes × Bytes))
  bank_of_window : ∀ {channel total}, find window channel = some total →
    ∃ bank, find banks channel = some bank ∧ bank.size = tileBytes total

namespace StagedProgram

/-- A write to a bank keeps the bank of every channel at its size. -/
theorem find_assign_bank {window : List (ℕ × ℕ)} {banks : List (ℕ × Bytes)} {channel : ℕ} {old new : Bytes}
    (hbanks : ∀ {channel total}, find window channel = some total →
      ∃ bank, find banks channel = some bank ∧ bank.size = tileBytes total)
    (hold : find banks channel = some old) (hsize : new.size = old.size) {other total : ℕ}
    (hother : find window other = some total) :
    ∃ bank, find (assign banks channel new) other = some bank ∧ bank.size = tileBytes total := by
  obtain ⟨bank, hbank, htile⟩ := hbanks hother
  rw [find_assign]
  by_cases hsame : channel = other
  · subst hsame
    obtain rfl : old = bank := Option.mem_unique hold hbank
    exact ⟨new, if_pos rfl, hsize.trans htile⟩
  · exact ⟨bank, by rw [if_neg hsame, hbank], htile⟩

/-- A program with zeroed banks and no states. -/
def allocated (binding : List (String × ℕ)) (window : List (ℕ × ℕ)) : StagedProgram where
  binding := binding
  window := window
  banks := window.map fun entry => (entry.1, Bytes.zeros (tileBytes entry.2))
  states := []
  bank_of_window := by
    intro channel total h
    induction window with
    | nil => cases h
    | cons entry rest ih =>
      obtain ⟨key, size⟩ := entry
      rw [List.map_cons, find]
      rw [find] at h
      by_cases hkey : key = channel
      · rw [if_pos hkey] at h ⊢
        obtain rfl := Option.some.inj h
        exact ⟨_, rfl, rfl⟩
      · rw [if_neg hkey] at h ⊢
        exact ih h

/-- Register a pair of state buffers. -/
def putState (p : StagedProgram) (channels : ℕ × ℕ) (pair : Bytes × Bytes) : StagedProgram :=
  { p with states := assign p.states channels pair }

/-- `add_state`: a zeroed pair of buffers, one for the window of each port. -/
def addState (p : StagedProgram) (inPort outPort : String) : Py StagedProgram := do
  let inChannel ← lookup p.binding inPort inPort
  let inTotal ← lookup p.window inChannel (toString inChannel)
  let outChannel ← lookup p.binding outPort outPort
  let outTotal ← lookup p.window outChannel (toString outChannel)
  return p.putState (inChannel, outChannel) (Bytes.zeros (tileBytes inTotal), Bytes.zeros (tileBytes outTotal))

/-- Put data into the bank of a channel. -/
def storeBank (p : StagedProgram) (channel : ℕ) (data : Bytes) : Py StagedProgram :=
  match h : find p.banks channel with
  | none => .error (.keyError (toString channel))
  | some bank =>
    if bank.size < data.size then
      raiseValue ("buffer overflow: " ++ toString data.size ++ " > " ++ toString bank.size)
    else
      return { p with
        banks := assign p.banks channel (overwritten bank data)
        bank_of_window := find_assign_bank p.bank_of_window h (size_overwritten bank data) }

/-- `write_bank`. -/
def writeBank (p : StagedProgram) (port : String) (array : HalfArray) : Py StagedProgram := do
  let channel ← lookup p.binding port port
  let total ← lookup p.window channel (toString channel)
  let payload ← stagedBytes array total
  p.storeBank channel payload

/-- `write_state`: the array goes to the buffer in front. -/
def writeState (p : StagedProgram) (inPort outPort : String) (array : HalfArray) : Py StagedProgram := do
  let inChannel ← lookup p.binding inPort inPort
  let outChannel ← lookup p.binding outPort outPort
  let pair ← lookup p.states (inChannel, outChannel) ("(" ++ toString inChannel ++ ", " ++ toString outChannel ++ ")")
  let total ← lookup p.window inChannel (toString inChannel)
  let payload ← stagedBytes array total
  let front ← storeBuffer pair.1 payload
  return p.putState (inChannel, outChannel) (front, pair.2)

/-- `read_output`. -/
def readOutput (p : StagedProgram) (port : String) (shape : List ℕ) : Py HalfArray := do
  let channel ← lookup p.binding port port
  let bank ← lookup p.banks channel (toString channel)
  let total ← lookup p.window channel (toString channel)
  let logicalSize := shape.prod * 2
  if logicalSize < total ∧ total % stagedRow = 0 then
    let raw := bank.slice 0 total
    if raw.size % stagedRow ≠ 0 then
      raiseValue "cannot reshape array"
    else
      match shape.getLast? with
      | none => .error .indexError
      | some columns => fromBuffer ((rowHeads raw (columns * 2)).slice 0 logicalSize) shape
  else
    fromBuffer (bank.slice 0 logicalSize) shape

/-- `read_state`: the values at the start of the buffer in front. -/
def readState (p : StagedProgram) (inPort outPort : String) (shape : List ℕ) : Py HalfArray := do
  let inChannel ← lookup p.binding inPort inPort
  let outChannel ← lookup p.binding outPort outPort
  let pair ← lookup p.states (inChannel, outChannel) ("(" ++ toString inChannel ++ ", " ++ toString outChannel ++ ")")
  fromBuffer (pair.1.slice 0 (shape.prod * 2)) shape

end StagedProgram

end AneLinux.Staged
