import AneLinux.Inproc.Plan

/-!
# What sizes tell of a dispatch plan

Whether a plan ends does not depend on the device: a program can be staged when every input is found long
enough, among what earlier programs wrote and among the staged inputs. So a run is one of sizes, which says
whether it ends, and one of bytes that cannot fail: `executePlan_eq_ok`.

An `Outlook` follows two runs of sizes at once, one without sinks and one with them. A read is stale where the
two find different writes; what a program writes is spoiled if the program reads something stale or spoiled.
-/

namespace AneLinux.Inproc

open AneLinux.Support

/-! ## Sizes -/

/-- The program at an index of the plan, with its key on the device. -/
def Bundle.entry (bundle : Bundle) (index : ℕ) : Option (ℕ × Program) :=
  match bundle.validated[index]?, bundle.programs[index]? with
  | some manifestIndex, some program => some (manifestIndex, program)
  | _, _ => none

/-- Whether an output goes to the caller's buffer. -/
def Binding.sunk (sinks : Sinks) (binding : Binding) : Bool :=
  (sinks binding.tensor).any fun sink => decide (binding.logicalBytes ≤ sink.length)

/-- The sizes of what is in the map behind an output. -/
def Binding.resize (sinks : Sinks) (sizes : String → ℕ) (binding : Binding) : String → ℕ :=
  if binding.sunk sinks then sizes else Function.update sizes binding.tensor binding.logicalBytes

/-- The sizes of what is in the map behind a program. -/
def Program.resize (sinks : Sinks) (sizes : String → ℕ) (program : Program) : String → ℕ :=
  program.outputs.foldl (Binding.resize sinks) sizes

/-- The size that a read finds: that of the tensor in the map, else that of a staged input. -/
def sizeFound (inputs : Inputs) (sizes : String → ℕ) (name : String) : Option ℕ :=
  if sizes name = 0 then (inputs name).map List.length else some (sizes name)

/-- Whether a program finds all its inputs long enough. -/
def Program.suited (inputs : Inputs) (sizes : String → ℕ) (program : Program) : Bool :=
  program.inputs.all fun binding =>
    (sizeFound inputs sizes binding.tensor).any fun size => decide (binding.logicalBytes ≤ size)

/-- Whether every program of a plan is known and finds its inputs. -/
def staged (bundle : Bundle) (inputs : Inputs) (sinks : Sinks) : (String → ℕ) → List ℕ → Bool
  | _, [] => true
  | sizes, index :: rest =>
    match bundle.entry index with
    | some (_, program) => program.suited inputs sizes && staged bundle inputs sinks (program.resize sinks sizes) rest
    | none => false

/-- A tensor is written by a program of a plan. -/
def Bundle.Writes (bundle : Bundle) (plan : List ℕ) (name : String) : Prop :=
  ∃ index ∈ plan, ∃ key program, bundle.entry index = some (key, program) ∧
    ∃ binding ∈ program.outputs, binding.tensor = name

/-- The plan runs to its end with these sinks: every program finds its inputs, and every manifest output that is not
asked for is written. -/
def Bundle.Completes (bundle : Bundle) (inputs : Inputs) (sinks : Sinks) : Prop :=
  staged bundle inputs sinks (fun _ => 0) bundle.dispatchPlan = true ∧
    ∀ name ∈ bundle.outputs, sinks name = none → bundle.Writes bundle.dispatchPlan name

/-- The plan runs to its end without sinks and writes every tensor asked for. -/
def Bundle.Fulfils (bundle : Bundle) (inputs : Inputs) (sinks : Sinks) : Prop :=
  bundle.Completes inputs (fun _ => none) ∧ ∀ name, (sinks name).isSome → bundle.Writes bundle.dispatchPlan name

/-- Two runs of sizes: the bytes of the last write of a tensor, those of its last write that stays in the map with
sinks, and whether its last write is spoiled. -/
structure Outlook where
  made : String → ℕ
  kept : String → ℕ
  spoiled : String → Bool

/-- Nothing is written yet. -/
def Outlook.start : Outlook := ⟨fun _ => 0, fun _ => 0, fun _ => false⟩

/-- Whether a program reads something stale or spoiled. -/
def Program.spoiled (outlook : Outlook) (program : Program) : Bool :=
  program.inputs.any fun binding =>
    outlook.spoiled binding.tensor || decide (outlook.made binding.tensor ≠ outlook.kept binding.tensor)

/-- One output; without bytes nothing is spoiled. -/
def Outlook.write (sinks : Sinks) (spoiled : Bool) (outlook : Outlook) (binding : Binding) : Outlook where
  made := binding.resize (fun _ => none) outlook.made
  kept := binding.resize sinks outlook.kept
  spoiled := Function.update outlook.spoiled binding.tensor (spoiled && decide (0 < binding.logicalBytes))

/-- The outputs of a program. -/
def Outlook.run (sinks : Sinks) (outlook : Outlook) (program : Program) : Outlook :=
  program.outputs.foldl (Outlook.write sinks (program.spoiled outlook)) outlook

/-- The outlook behind a plan. -/
def Bundle.outlook (bundle : Bundle) (sinks : Sinks) : Outlook → List ℕ → Outlook
  | outlook, [] => outlook
  | outlook, index :: rest =>
    match bundle.entry index with
    | some (_, program) => bundle.outlook sinks (outlook.run sinks program) rest
    | none => bundle.outlook sinks outlook rest

/-! ## Bytes -/

/-- What the map holds of a tensor; of a tensor that was not written, no byte. -/
def Store.value (store : Store) (name : String) : Buffer := (store.produced name).getD []

/-- What is sent to a program that finds its inputs. -/
def Program.sent (inputs : Inputs) (store : Store) (program : Program) : List Buffer :=
  program.inputs.map fun binding => (store.lookup inputs binding.tensor).getD []

/-- A plan whose programs all find their inputs. -/
def advance (device : Device) (bundle : Bundle) (inputs : Inputs) : List ℕ → Store → Store
  | [], store => store
  | index :: rest, store =>
    match bundle.entry index with
    | some (key, program) =>
      advance device bundle inputs rest
        (readOutputs (device key (program.sent inputs store)) 0 program.outputs store)
    | none => advance device bundle inputs rest store

/-- The store before the plan. -/
def Store.start (sinks : Sinks) : Store := { produced := fun _ => none, sinks }

variable {store : Store} {sinks : Sinks} {bundle : Bundle} {inputs : Inputs} {device : Device}

section Output

variable {binding : Binding}

/-- The output of a binding has its logical size. -/
@[simp] theorem Binding.length_bytes (binding : Binding) (value : ℕ → UInt8) :
    (binding.bytes value).length = binding.logicalBytes := by
  rw [bytes, List.length_map, List.length_range]

/-- An output that fits the caller's buffer overwrites its beginning. -/
theorem readOutput_of_sunk (value : ℕ → UInt8) (h : binding.sunk store.sinks = true) :
    ∃ sink, store.sinks binding.tensor = some sink ∧ binding.logicalBytes ≤ sink.length ∧
      readOutput value binding store = store.deliver binding.tensor (binding.bytes value) sink := by
  rw [Binding.sunk, Option.any_eq_true] at h
  obtain ⟨sink, hsink, hfits⟩ := h
  rw [decide_eq_true_eq] at hfits
  refine ⟨sink, hsink, hfits, ?_⟩
  unfold readOutput
  simp only [hsink]
  rw [if_pos hfits]

/-- Any other output goes to the map. -/
theorem readOutput_of_not_sunk (value : ℕ → UInt8) (h : binding.sunk store.sinks = false) :
    readOutput value binding store = store.produce binding.tensor (binding.bytes value) := by
  rw [Binding.sunk] at h
  unfold readOutput
  cases hsink : store.sinks binding.tensor with
  | none => rfl
  | some sink =>
    rw [hsink, Option.any_some, decide_eq_false_iff_not] at h
    exact if_neg h

/-- What the map holds behind an output. -/
theorem value_readOutput (value : ℕ → UInt8) : (readOutput value binding store).value =
    if binding.sunk store.sinks then store.value
    else Function.update store.value binding.tensor (binding.bytes value) := by
  cases h : binding.sunk store.sinks with
  | true =>
    obtain ⟨sink, -, -, hread⟩ := readOutput_of_sunk value h
    rw [hread, if_pos rfl]
    rfl
  | false =>
    rw [readOutput_of_not_sunk value h, if_neg Bool.false_ne_true]
    funext name
    by_cases hname : name = binding.tensor
    · rw [hname, Function.update_self, Store.value, Store.produced_produce_self, Option.getD_some]
    · rw [Function.update_of_ne hname, Store.value, Store.produced_produce_of_ne _ hname]
      rfl

end Output

/-! ## A run of sizes beside a run of bytes -/

/-- The buffers of the caller have the sizes that were asked for. -/
def Room (sinks : Sinks) (store : Store) : Prop :=
  ∀ name, (store.sinks name).map List.length = (sinks name).map List.length

/-- A store has the sizes of a run of sizes. -/
structure Sized (sinks : Sinks) (sizes : String → ℕ) (store : Store) : Prop where
  room : Room sinks store
  length : ∀ name, (store.value name).length = sizes name

section Sizes

variable {sizes : String → ℕ}

/-- Whether an output goes to a buffer depends on the size of the buffer only. -/
theorem Room.sunk_eq (h : Room sinks store) (binding : Binding) : binding.sunk store.sinks = binding.sunk sinks := by
  have hsize := h binding.tensor
  rw [Binding.sunk, Binding.sunk]
  cases hstore : store.sinks binding.tensor with
  | none =>
    rw [hstore, Option.map_none, eq_comm, Option.map_eq_none_iff] at hsize
    rw [hsize]
  | some buffer =>
    rw [hstore, Option.map_some, eq_comm, Option.map_eq_some_iff] at hsize
    obtain ⟨sink, hsink, hlength⟩ := hsize
    rw [hsink, Option.any_some, Option.any_some, hlength]

/-- An output keeps the sizes of the buffers. -/
theorem Room.output (h : Room sinks store) (value : ℕ → UInt8) (binding : Binding) :
    Room sinks (readOutput value binding store) := by
  cases hsunk : binding.sunk store.sinks with
  | true =>
    obtain ⟨sink, hsink, hfits, hread⟩ := readOutput_of_sunk value hsunk
    intro name
    rw [hread]
    by_cases hname : name = binding.tensor
    · rw [hname, Store.sinks_deliver_self, ← h binding.tensor, hsink, Option.map_some, Option.map_some,
        List.length_append, List.length_drop, Binding.length_bytes]
      congr 1
      omega
    · rw [Store.sinks_deliver_of_ne _ hname]
      exact h name
  | false =>
    rw [readOutput_of_not_sunk value hsunk]
    exact h

/-- The sizes behind an output. -/
theorem Sized.output (h : Sized sinks sizes store) (value : ℕ → UInt8) (binding : Binding) :
    Sized sinks (binding.resize sinks sizes) (readOutput value binding store) := by
  refine ⟨h.room.output value binding, fun name => ?_⟩
  rw [value_readOutput, h.room.sunk_eq, Binding.resize]
  split
  · exact h.length name
  · by_cases hname : name = binding.tensor
    · rw [hname, Function.update_self, Function.update_self, Binding.length_bytes]
    · rw [Function.update_of_ne hname, Function.update_of_ne hname, h.length]

/-- The sizes behind the outputs of a program. -/
theorem Sized.outputs (h : Sized sinks sizes store) (value : ℕ → ℕ → UInt8) (position : ℕ)
    (bindings : List Binding) :
    Sized sinks (bindings.foldl (Binding.resize sinks) sizes) (readOutputs value position bindings store) := by
  induction bindings generalizing position sizes store with
  | nil => exact h
  | cons binding rest ih => exact ih (h.output (value position) binding) (position + 1)

/-- Before the plan all sizes are zero. -/
theorem sized_start (sinks : Sinks) : Sized sinks (fun _ => 0) (Store.start sinks) := ⟨fun _ => rfl, fun _ => rfl⟩

/-- A read finds what the map holds, or a staged input where it holds no byte. -/
theorem Store.lookup_eq (store : Store) (inputs : Inputs) (name : String) :
    store.lookup inputs name = if store.value name = [] then inputs name else some (store.value name) := by
  rw [lookup, value]
  cases store.produced name with
  | none => exact (if_pos rfl).symm
  | some made => cases made <;> rfl

/-- The size that a read finds. -/
theorem Sized.lookup_length (h : Sized sinks sizes store) (inputs : Inputs) (name : String) :
    (store.lookup inputs name).map List.length = sizeFound inputs sizes name := by
  rw [store.lookup_eq, sizeFound, ← h.length]
  by_cases hvalue : store.value name = []
  · rw [if_pos hvalue, if_pos (by rw [hvalue]; rfl)]
  · rw [if_neg hvalue, if_neg (by rwa [List.length_eq_zero_iff])]
    rfl

/-- The checks of an input let through what they read, where it is long enough. -/
theorem stageInput_eq_ok {program : Program} {binding : Binding} {span : Buffer} :
    stageInput inputs store program binding = .ok span ↔
      store.lookup inputs binding.tensor = some span ∧ binding.logicalBytes ≤ span.length := by
  unfold stageInput
  cases store.lookup inputs binding.tensor with
  | none => exact ⟨fun h => (nomatch h), fun h => (nomatch h.1)⟩
  | some found =>
    dsimp only
    split
    · rename_i hshort
      refine ⟨fun h => (nomatch h), ?_⟩
      rintro ⟨hfound, hlong⟩
      rw [← Option.some.inj hfound] at hlong
      omega
    · rename_i hlong
      rw [Except.ok.injEq, Option.some.injEq]
      exact ⟨fun h => ⟨h, h ▸ Nat.not_lt.mp hlong⟩, And.left⟩

/-- A program is staged exactly when it finds its inputs long enough, and then what it finds is sent. -/
theorem Sized.stage_eq_ok (h : Sized sinks sizes store) {program : Program} {sent : List Buffer} :
    program.inputs.mapM (stageInput inputs store program) = .ok sent ↔
      program.suited inputs sizes = true ∧ sent = program.sent inputs store := by
  rw [mapM_eq_ok, Program.suited, Program.sent, List.all_eq_true]
  induction program.inputs generalizing sent with
  | nil =>
    rw [List.forall₂_nil_left_iff]
    exact ⟨fun hnil => ⟨fun _ hmem => absurd hmem List.not_mem_nil, hnil⟩, And.right⟩
  | cons binding rest ih =>
    rw [List.forall₂_cons_left_iff, List.forall_mem_cons, List.map_cons, ← h.lookup_length]
    constructor
    · rintro ⟨span, others, hspan, hrest, rfl⟩
      obtain ⟨hlookup, hlong⟩ := stageInput_eq_ok.mp hspan
      obtain ⟨hsuited, rfl⟩ := ih.mp hrest
      rw [hlookup]
      exact ⟨⟨decide_eq_true hlong, hsuited⟩, rfl⟩
    · rintro ⟨⟨hfirst, hsuited⟩, rfl⟩
      rw [Option.any_eq_true] at hfirst
      obtain ⟨size, hsize, hlong⟩ := hfirst
      obtain ⟨span, hlookup, rfl⟩ := Option.map_eq_some_iff.mp hsize
      refine ⟨span, _, stageInput_eq_ok.mpr ⟨hlookup, of_decide_eq_true hlong⟩, ih.mpr ⟨hsuited, rfl⟩, ?_⟩
      rw [hlookup]
      rfl

/-- One entry of the plan runs exactly when it is known and finds its inputs. -/
theorem Sized.runProgram_eq_ok (h : Sized sinks sizes store) {index : ℕ} {next : Store} :
    runProgram device bundle inputs store index = .ok next ↔
      ∃ key program, bundle.entry index = some (key, program) ∧ program.suited inputs sizes = true ∧
        next = readOutputs (device key (program.sent inputs store)) 0 program.outputs store := by
  unfold runProgram Bundle.entry
  cases bundle.validated[index]? with
  | none => exact ⟨fun hrun => (nomatch hrun), fun ⟨_, _, hentry, _⟩ => (nomatch hentry)⟩
  | some key =>
    cases bundle.programs[index]? with
    | none => exact ⟨fun hrun => (nomatch hrun), fun ⟨_, _, hentry, _⟩ => (nomatch hentry)⟩
    | some program =>
      dsimp only
      rw [bind_eq_ok]
      constructor
      · rintro ⟨sent, hsent, hnext⟩
        obtain ⟨hsuited, rfl⟩ := h.stage_eq_ok.mp hsent
        exact ⟨key, program, rfl, hsuited, (Except.ok.inj hnext).symm⟩
      · rintro ⟨key', program', hentry, hsuited, rfl⟩
        obtain ⟨rfl, rfl⟩ := Prod.mk.inj (Option.some.inj hentry)
        exact ⟨_, h.stage_eq_ok.mpr ⟨hsuited, rfl⟩, rfl⟩

/-- A plan runs exactly when sizes say so, and then as if nothing could fail. -/
theorem Sized.run_eq_ok (h : Sized sinks sizes store) (plan : List ℕ) {final : Store} :
    plan.foldlM (runProgram device bundle inputs) store = .ok final ↔
      staged bundle inputs sinks sizes plan = true ∧ final = advance device bundle inputs plan store := by
  induction plan generalizing sizes store with
  | nil =>
    rw [List.foldlM_nil, staged, advance]
    exact ⟨fun hrun => ⟨rfl, (Except.ok.inj hrun).symm⟩, fun hfinal => congrArg Except.ok hfinal.2.symm⟩
  | cons index rest ih =>
    rw [List.foldlM_cons, bind_eq_ok, staged, advance]
    constructor
    · rintro ⟨next, hnext, hrest⟩
      obtain ⟨key, program, hentry, hsuited, rfl⟩ := h.runProgram_eq_ok.mp hnext
      rw [hentry]
      dsimp only
      rw [hsuited, Bool.true_and]
      exact (ih (h.outputs _ _ _)).mp hrest
    · cases hentry : bundle.entry index with
      | none => exact fun hstaged => absurd hstaged.1 Bool.false_ne_true
      | some entry =>
        obtain ⟨key, program⟩ := entry
        dsimp only
        rw [Bool.and_eq_true]
        rintro ⟨⟨hsuited, hstaged⟩, hfinal⟩
        exact ⟨_, h.runProgram_eq_ok.mpr ⟨key, program, hentry, hsuited, rfl⟩,
          (ih (h.outputs _ _ _)).mpr ⟨hstaged, hfinal⟩⟩

end Sizes

/-! ## What a run has produced -/

section Produced

variable {name : String}

/-- An output produces its tensor if that is not asked for. -/
theorem produced_readOutput (value : ℕ → UInt8) (binding : Binding) (hname : store.sinks name = none) :
    ((readOutput value binding store).produced name).isSome ↔
      (store.produced name).isSome ∨ binding.tensor = name := by
  cases hsunk : binding.sunk store.sinks with
  | true =>
    obtain ⟨sink, hsink, -, hread⟩ := readOutput_of_sunk value hsunk
    have hne : binding.tensor ≠ name := by
      rintro rfl
      cases hsink.symm.trans hname
    rw [hread, or_iff_left hne]
    exact Iff.rfl
  | false =>
    rw [readOutput_of_not_sunk value hsunk]
    by_cases hsame : name = binding.tensor
    · rw [hsame, Store.produced_produce_self]
      exact ⟨fun _ => .inr rfl, fun _ => rfl⟩
    · rw [Store.produced_produce_of_ne _ hsame, or_iff_left fun heq => hsame heq.symm]

/-- The outputs of a program keep the sizes of the buffers. -/
theorem Room.outputs (h : Room sinks store) (value : ℕ → ℕ → UInt8) (position : ℕ) (bindings : List Binding) :
    Room sinks (readOutputs value position bindings store) := by
  induction bindings generalizing position store with
  | nil => exact h
  | cons binding rest ih => exact ih (h.output (value position) binding) (position + 1)

/-- There is no buffer for a tensor that is not asked for. -/
theorem Room.sinks_eq_none (h : Room sinks store) (hname : sinks name = none) : store.sinks name = none := by
  have hsize := h name
  rwa [hname, Option.map_none, Option.map_eq_none_iff] at hsize

/-- A program produces the tensors it writes that are not asked for. -/
theorem produced_readOutputs (h : Room sinks store) (hname : sinks name = none) (value : ℕ → ℕ → UInt8)
    (position : ℕ) (bindings : List Binding) :
    ((readOutputs value position bindings store).produced name).isSome ↔
      (store.produced name).isSome ∨ ∃ binding ∈ bindings, binding.tensor = name := by
  induction bindings generalizing position store with
  | nil => simp [readOutputs]
  | cons binding rest ih =>
    rw [readOutputs, ih (h.output (value position) binding), produced_readOutput _ _ (h.sinks_eq_none hname), or_assoc,
      List.exists_mem_cons_iff]

/-- A plan produces the tensors it writes that are not asked for. -/
theorem produced_advance (h : Room sinks store) (hname : sinks name = none) (plan : List ℕ) :
    ((advance device bundle inputs plan store).produced name).isSome ↔
      (store.produced name).isSome ∨ bundle.Writes plan name := by
  induction plan generalizing store with
  | nil => simp [advance, Bundle.Writes]
  | cons index rest ih =>
    rw [advance, Bundle.Writes, List.exists_mem_cons_iff]
    cases hentry : bundle.entry index with
    | none =>
      rw [ih h]
      simp [Bundle.Writes]
    | some entry =>
      obtain ⟨key, program⟩ := entry
      dsimp only
      rw [ih (h.outputs _ _ _), produced_readOutputs h hname, or_assoc]
      simp [Bundle.Writes]

/-- The completeness check wants every manifest output that is not asked for. -/
theorem checkOutputs_eq_ok {outputs : List String} :
    checkOutputs sinks store outputs = .ok () ↔
      ∀ name ∈ outputs, sinks name = none → (store.produced name).isSome := by
  induction outputs with
  | nil => exact ⟨fun _ _ hmem => absurd hmem List.not_mem_nil, fun _ => rfl⟩
  | cons first rest ih =>
    rw [checkOutputs, List.forall_mem_cons]
    cases hsink : sinks first with
    | some sink =>
      rw [if_pos Option.isSome_some, ih]
      exact ⟨fun h => ⟨fun hnone => (nomatch hnone), h⟩, And.right⟩
    | none =>
      rw [if_neg (by simp)]
      cases hmade : store.produced first with
      | none =>
        rw [if_pos Option.isNone_none]
        exact ⟨fun h => (nomatch h), fun h => (nomatch h.1 rfl)⟩
      | some bytes =>
        rw [if_neg (by simp), ih]
        exact ⟨fun h => ⟨fun _ => Option.isSome_some, h⟩, And.right⟩

/-- `execute_plan` ends exactly when sizes say so, whatever the device computes, and then with the bytes of a run
that cannot fail. -/
theorem executePlan_eq_ok :
    executePlan device bundle inputs sinks = .ok store ↔ bundle.Completes inputs sinks ∧
      store = advance device bundle inputs bundle.dispatchPlan (Store.start sinks) := by
  have hcheck : (∀ name ∈ bundle.outputs, sinks name = none →
      ((advance device bundle inputs bundle.dispatchPlan (Store.start sinks)).produced name).isSome) ↔
      ∀ name ∈ bundle.outputs, sinks name = none → bundle.Writes bundle.dispatchPlan name := by
    refine forall₃_congr fun name _ hname => ?_
    rw [produced_advance (sized_start sinks).room hname]
    exact ⟨fun h => h.resolve_left Bool.false_ne_true, .inr⟩
  have hrun (final : Store) :
      bundle.dispatchPlan.foldlM (runProgram device bundle inputs) (.start sinks) = .ok final ↔ _ :=
    (sized_start sinks).run_eq_ok bundle.dispatchPlan
  rw [Bundle.Completes, ← hcheck]
  constructor
  · intro h
    obtain ⟨final, hfinal, h⟩ := bind_eq_ok.mp h
    obtain ⟨_, hchecked, h⟩ := bind_eq_ok.mp h
    obtain rfl := Except.ok.inj h
    obtain ⟨hstaged, rfl⟩ := (hrun final).mp hfinal
    exact ⟨⟨hstaged, checkOutputs_eq_ok.mp hchecked⟩, rfl⟩
  · rintro ⟨⟨hstaged, hproduced⟩, rfl⟩
    exact bind_eq_ok.mpr ⟨_, (hrun _).mpr ⟨hstaged, rfl⟩,
      bind_eq_ok.mpr ⟨(), checkOutputs_eq_ok.mpr hproduced, rfl⟩⟩

/-- So a run without sinks delivers exactly when sizes say so. -/
theorem delivers_iff : Delivers device bundle inputs sinks ↔ bundle.Fulfils inputs sinks := by
  have hmade (name : String) :
      ((advance device bundle inputs bundle.dispatchPlan (Store.start fun _ => none)).produced name).isSome ↔
        bundle.Writes bundle.dispatchPlan name := by
    rw [produced_advance (sized_start fun _ => none).room rfl]
    exact ⟨fun h => h.resolve_left Bool.false_ne_true, .inr⟩
  constructor
  · rintro ⟨plain, hplain, hdelivered⟩
    obtain ⟨hcompletes, rfl⟩ := executePlan_eq_ok.mp hplain
    exact ⟨hcompletes, fun name hname => (hmade name).mp (hdelivered name hname)⟩
  · rintro ⟨hcompletes, hwrites⟩
    exact ⟨_, executePlan_eq_ok.mpr ⟨hcompletes, rfl⟩, fun name hname => (hmade name).mpr (hwrites name hname)⟩

end Produced

end AneLinux.Inproc
