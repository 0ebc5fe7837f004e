import AneLinux.Support.Dict

/-!
# Dispatch plans and zero-copy sinks

`execute_plan` runs the programs of a dispatch plan. An output tensor goes to a map from which later
programs read, unless the caller asked for it and its buffer is large enough: then it goes to that buffer
only. A later program that reads such a tensor finds a staged input of the same name or nothing.

The device is a function from what was sent to a program to the bytes of its outputs. Buffers of the
caller do not overlap. Sinks should not change what a plan computes: `SinkLaw`.
-/

namespace AneLinux.Inproc

open AneLinux.Support

abbrev Buffer := List UInt8

/-- A binding of a program to a tensor. -/
structure Binding where
  tensor : String
  logicalBytes : ℕ

/-- A program of the manifest. -/
structure Program where
  payload : String
  inputs : List Binding
  outputs : List Binding

/-- A bundle: the programs of its manifest, the manifest index of each validated program, the dispatch plan and
the names of the manifest outputs. -/
structure Bundle where
  programs : List Program
  validated : List ℕ
  dispatchPlan : List ℕ
  outputs : List String

/-- The device: manifest index, what was sent, output position and byte. -/
abbrev Device := ℕ → List Buffer → ℕ → ℕ → UInt8

/-- The staged inputs; a null pointer counts as missing. -/
abbrev Inputs := String → Option Buffer

/-- The buffers of the caller, by tensor. -/
abbrev Sinks := String → Option Buffer

/-- What a plan has produced so far, and the buffers of the caller. -/
structure Store where
  produced : String → Option Buffer
  sinks : Sinks

/-- `lookup`: a produced tensor that is not empty, else a staged input. -/
def Store.lookup (store : Store) (inputs : Inputs) (name : String) : Option Buffer :=
  match store.produced name with
  | some made => if made.isEmpty then inputs name else some made
  | none => inputs name

/-- The checks of one input of a program; its result is what is sent. -/
def stageInput (inputs : Inputs) (store : Store) (program : Program) (binding : Binding) : Except String Buffer :=
  match store.lookup inputs binding.tensor with
  | none =>
    .error ("program '" ++ program.payload ++ "' input tensor '" ++ binding.tensor ++ "' has no staged value")
  | some span =>
    if span.length < binding.logicalBytes then
      .error ("tensor '" ++ binding.tensor ++ "' payload is " ++ toString span.length ++
        " bytes, manifest requires " ++ toString binding.logicalBytes)
    else .ok span

/-- `produced[name] = bytes`. -/
def Store.produce (store : Store) (name : String) (bytes : Buffer) : Store :=
  { store with produced := Function.update store.produced name (some bytes) }

/-- Fill the beginning of the caller's buffer of a tensor. -/
def Store.deliver (store : Store) (name : String) (bytes sink : Buffer) : Store :=
  { store with sinks := Function.update store.sinks name (some (bytes ++ sink.drop bytes.length)) }

/-- A tensor that was produced has its new bytes. -/
theorem Store.produced_produce_self (store : Store) (name : String) (bytes : Buffer) :
    (store.produce name bytes).produced name = some bytes := Function.update_self _ _ _

/-- Producing a tensor leaves the others alone. -/
theorem Store.produced_produce_of_ne (store : Store) {name other : String} (h : other ≠ name) (bytes : Buffer) :
    (store.produce name bytes).produced other = store.produced other := Function.update_of_ne h _ _

/-- A buffer that was filled begins with the bytes. -/
theorem Store.sinks_deliver_self (store : Store) (name : String) (bytes sink : Buffer) :
    (store.deliver name bytes sink).sinks name = some (bytes ++ sink.drop bytes.length) := Function.update_self _ _ _

/-- Filling a buffer leaves the others alone. -/
theorem Store.sinks_deliver_of_ne (store : Store) {name other : String} (h : other ≠ name) (bytes sink : Buffer) :
    (store.deliver name bytes sink).sinks other = store.sinks other := Function.update_of_ne h _ _

/-- The bytes of an output. -/
def Binding.bytes (binding : Binding) (value : ℕ → UInt8) : Buffer := (List.range binding.logicalBytes).map value

/-- Read one output: into the caller's buffer if it is asked for and fits, else into the map. -/
def readOutput (value : ℕ → UInt8) (binding : Binding) (store : Store) : Store :=
  match store.sinks binding.tensor with
  | some sink =>
    if binding.logicalBytes ≤ sink.length then store.deliver binding.tensor (binding.bytes value) sink
    else store.produce binding.tensor (binding.bytes value)
  | none => store.produce binding.tensor (binding.bytes value)

/-- Read the outputs of a program from `position` on. -/
def readOutputs (value : ℕ → ℕ → UInt8) : ℕ → List Binding → Store → Store
  | _, [], store => store
  | position, binding :: rest, store =>
    readOutputs value (position + 1) rest (readOutput (value position) binding store)

/-- One entry of the dispatch plan. -/
def runProgram (device : Device) (bundle : Bundle) (inputs : Inputs) (store : Store) (index : ℕ) :
    Except String Store :=
  match bundle.validated[index]?, bundle.programs[index]? with
  | some manifestIndex, some program => do
    let sent ← program.inputs.mapM (stageInput inputs store program)
    return readOutputs (device manifestIndex sent) 0 program.outputs store
  | _, _ => .error "dispatch plan references unknown program"

/-- The completeness check: a manifest output that is not asked for must have been produced. -/
def checkOutputs (sinks : Sinks) (store : Store) : List String → Except String Unit
  | [] => .ok ()
  | name :: rest =>
    if (sinks name).isSome then checkOutputs sinks store rest
    else if (store.produced name).isNone then .error ("manifest output '" ++ name ++ "' was never produced")
    else checkOutputs sinks store rest

/-- `execute_plan`. -/
def executePlan (device : Device) (bundle : Bundle) (inputs : Inputs) (sinks : Sinks) : Except String Store := do
  let store ← bundle.dispatchPlan.foldlM (runProgram device bundle inputs) { produced := fun _ => none, sinks }
  checkOutputs sinks store bundle.outputs
  return store

/-- `execute_plan` without sinks. -/
def executePlain (device : Device) (bundle : Bundle) (inputs : Inputs) : Except String Store :=
  executePlan device bundle inputs fun _ => none

/-- An output the caller of `ane_inproc_submit` asks for: its name and its buffer, either of which may be null. -/
structure OutputRequest where
  name : Option String
  data : Option Buffer

/-- The logical bytes of every tensor that a program of the manifest writes; the last binding counts. -/
def logicalOutputs (bundle : Bundle) : List (String × ℕ) :=
  dict (bundle.programs.flatMap fun program =>
    program.outputs.map fun binding => (binding.tensor, binding.logicalBytes))

/-- The output validation of `ane_inproc_submit`: the sinks, or the text it fails with. -/
def acceptOutputs (bundle : Bundle) : List OutputRequest → Sinks → Except String Sinks
  | [], sinks => .ok sinks
  | request :: rest, sinks =>
    match request.name with
    | none => .error "ane_inproc_submit: bad output descriptor"
    | some name =>
      match find (logicalOutputs bundle) name, request.data with
      | none, _ => .error ("unknown manifest output '" ++ name ++ "'")
      | some _, none => .error ("output '" ++ name ++ "' buffer smaller than manifest logical bytes")
      | some logical, some data =>
        if data.length < logical then
          .error ("output '" ++ name ++ "' buffer smaller than manifest logical bytes")
        else acceptOutputs bundle rest (Function.update sinks name (some data))

/-- A run without sinks ends well and has produced all tensors asked for. -/
def Delivers (device : Device) (bundle : Bundle) (inputs : Inputs) (sinks : Sinks) : Prop :=
  ∃ plain, executePlain device bundle inputs = .ok plain ∧
    ∀ name, (sinks name).isSome → (plain.produced name).isSome

/-- Sinks do not change what a plan computes: the run with sinks ends well exactly when the run without them
delivers, and then every buffer asked for begins with the bytes that run produced. -/
structure SinkLaw (device : Device) (bundle : Bundle) (inputs : Inputs) (sinks : Sinks) : Prop where
  succeeds : (∃ store, executePlan device bundle inputs sinks = .ok store) ↔ Delivers device bundle inputs sinks
  holds : ∀ store plain, executePlan device bundle inputs sinks = .ok store →
    executePlain device bundle inputs = .ok plain → ∀ name bytes, (sinks name).isSome →
      plain.produced name = some bytes → ∃ buffer, store.sinks name = some buffer ∧ buffer.take bytes.length = bytes

end AneLinux.Inproc
