import AneLinux.Inproc.Outlook
import Mathlib.Data.UInt

/-!
# When zero-copy sinks change nothing

Sinks change nothing when both runs are stopped, or when both end and the last write of every tensor asked for
fits its buffer and hangs on no stale read: `Agreeing` follows two such runs, whatever the device computes.

Conversely, where a tensor that is delivered hangs on a stale read, some device tells the difference. The device
of `marking` compares what a program is sent with what the run with sinks sends it. It answers with one mark if
both agree, with another if not, and both marks differ from every staged input of that name: `Marked` follows
such runs. The device must know which entry of the plan it runs, so no program may be dispatched twice.
-/

namespace AneLinux.Inproc

open AneLinux.Support

/-! ## The condition -/

/-- The last write of every tensor asked for fits its buffer and is not spoiled. -/
def Bundle.Intact (bundle : Bundle) (sinks : Sinks) : Prop :=
  ∀ name sink, sinks name = some sink →
    (bundle.outlook sinks .start bundle.dispatchPlan).made name ≤ sink.length ∧
      (bundle.outlook sinks .start bundle.dispatchPlan).spoiled name = false

/-- Both runs are stopped, or both end and nothing that is delivered is spoiled. -/
def Harmless (bundle : Bundle) (inputs : Inputs) (sinks : Sinks) : Prop :=
  ¬ bundle.Completes inputs sinks ∧ ¬ bundle.Fulfils inputs sinks ∨
    bundle.Completes inputs sinks ∧ bundle.Fulfils inputs sinks ∧ bundle.Intact sinks

/-- What `load_bundle` promises of a bundle: the plan is a permutation of the programs, so none is dispatched twice,
and their keys on the device are unique. -/
structure Bundle.Loaded (bundle : Bundle) : Prop where
  plan : bundle.dispatchPlan.Nodup
  keys : bundle.validated.Nodup

/-! ## Two runs on one device -/

/-- The run without sinks beside the run with them: they agree on what is not spoiled. What the map keeps of a tensor
asked for was too long for its buffer. -/
structure Agreeing (sinks : Sinks) (outlook : Outlook) (plain store : Store) : Prop where
  made : Sized (fun _ => none) outlook.made plain
  kept : Sized sinks outlook.kept store
  long : ∀ name sink, sinks name = some sink → outlook.kept name = 0 ∨ sink.length < outlook.kept name
  same : ∀ name, outlook.spoiled name = false → outlook.made name = outlook.kept name →
    plain.value name = store.value name
  buffers : ∀ name buffer, store.sinks name = some buffer → outlook.spoiled name = false →
    outlook.made name ≤ buffer.length → buffer.take (outlook.made name) = plain.value name

variable {sinks : Sinks} {store plain : Store} {value : ℕ → UInt8} {name : String} {outlook : Outlook} {spoiled : Bool}
  {bundle : Bundle} {inputs : Inputs}

section Writes

variable {binding : Binding}

/-- An output that does not go to the buffer of its tensor is too long for it. -/
theorem Binding.lt_of_not_sunk {sink : Buffer} (h : binding.sunk sinks = false)
    (hsink : sinks binding.tensor = some sink) : sink.length < binding.logicalBytes := by
  rw [sunk, hsink, Option.any_some, decide_eq_false_iff_not] at h
  exact Nat.not_le.mp h

/-- A buffer behind an output: it is as before, or it begins with the output. -/
theorem sinks_readOutput {buffer : Buffer} (h : (readOutput value binding store).sinks name = some buffer) :
    store.sinks name = some buffer ∧ (name = binding.tensor → binding.sunk store.sinks = false) ∨
      name = binding.tensor ∧ buffer.take binding.logicalBytes = binding.bytes value := by
  cases hsunk : binding.sunk store.sinks with
  | true =>
    obtain ⟨sink, -, -, hread⟩ := readOutput_of_sunk value hsunk
    rw [hread] at h
    by_cases hname : name = binding.tensor
    · subst hname
      rw [Store.sinks_deliver_self] at h
      rw [← Option.some.inj h]
      exact .inr ⟨rfl, List.take_left' (binding.length_bytes value)⟩
    · rw [Store.sinks_deliver_of_ne _ hname] at h
      exact .inl ⟨h, fun heq => absurd heq hname⟩
  | false =>
    rw [readOutput_of_not_sunk value hsunk] at h
    exact .inl ⟨h, fun _ => rfl⟩

/-- What the map holds of a tensor behind an output of it. -/
theorem value_readOutput_self (value : ℕ → UInt8) : (readOutput value binding store).value binding.tensor =
    if binding.sunk store.sinks then store.value binding.tensor else binding.bytes value := by
  rw [value_readOutput]
  split
  · rfl
  · rw [Function.update_self]

/-- An output leaves the other tensors of the map alone. -/
theorem value_readOutput_of_ne (value : ℕ → UInt8) (h : name ≠ binding.tensor) :
    (readOutput value binding store).value name = store.value name := by
  rw [value_readOutput]
  split
  · rfl
  · rw [Function.update_of_ne h]

/-- The size of a tensor behind an output of it. -/
theorem Binding.resize_self (sizes : String → ℕ) :
    binding.resize sinks sizes binding.tensor =
      if binding.sunk sinks then sizes binding.tensor else binding.logicalBytes := by
  rw [resize]
  split
  · rfl
  · rw [Function.update_self]

/-- An output leaves the sizes of the other tensors alone. -/
theorem Binding.resize_of_ne (sizes : String → ℕ) (h : name ≠ binding.tensor) :
    binding.resize sinks sizes name = sizes name := by
  rw [resize]
  split
  · rfl
  · rw [Function.update_of_ne h]

/-- The outlook on a tensor behind an output of it. -/
theorem Outlook.write_self (sinks : Sinks) (spoiled : Bool) (outlook : Outlook) (binding : Binding) :
    (outlook.write sinks spoiled binding).made binding.tensor = binding.logicalBytes ∧
    (outlook.write sinks spoiled binding).kept binding.tensor =
      (if binding.sunk sinks then outlook.kept binding.tensor else binding.logicalBytes) ∧
    (outlook.write sinks spoiled binding).spoiled binding.tensor =
      (spoiled && decide (0 < binding.logicalBytes)) :=
  ⟨Function.update_self .., binding.resize_self _, Function.update_self ..⟩

/-- An output leaves the outlook on the other tensors alone. -/
theorem Outlook.write_of_ne (sinks : Sinks) (spoiled : Bool) (outlook : Outlook) (h : name ≠ binding.tensor) :
    (outlook.write sinks spoiled binding).made name = outlook.made name ∧
    (outlook.write sinks spoiled binding).kept name = outlook.kept name ∧
    (outlook.write sinks spoiled binding).spoiled name = outlook.spoiled name :=
  ⟨Function.update_of_ne h .., binding.resize_of_ne _ h, Function.update_of_ne h ..⟩

end Writes

section Agreement

/-- Before the plan the two runs agree. -/
theorem agreeing_start (sinks : Sinks) : Agreeing sinks .start (.start fun _ => none) (.start sinks) where
  made := sized_start _
  kept := sized_start _
  long _ _ _ := .inl rfl
  same _ _ _ := rfl
  buffers _ _ _ _ _ := rfl

variable (h : Agreeing sinks outlook plain store)

include h in
/-- One output of a program that computes the same in both runs, unless it is spoiled. -/
theorem Agreeing.output {value' : ℕ → UInt8} (hvalue : spoiled = false → value = value') (binding : Binding) :
    Agreeing sinks (outlook.write sinks spoiled binding) (readOutput value binding plain)
      (readOutput value' binding store) := by
  obtain ⟨hmade, hkept, hspoiled⟩ := outlook.write_self sinks spoiled binding
  have hplain : (readOutput value binding plain).value binding.tensor = binding.bytes value := by
    rw [value_readOutput_self, h.made.room.sunk_eq]
    rfl
  -- Without bytes there is nothing to compare.
  have hbytes (hclean : (spoiled && decide (0 < binding.logicalBytes)) = false) :
      binding.bytes value = binding.bytes value' := by
    cases hspoils : spoiled with
    | false => rw [hvalue hspoils]
    | true =>
      rw [hspoils, Bool.true_and, decide_eq_false_iff_not, Nat.not_lt, Nat.le_zero] at hclean
      rw [Binding.bytes, Binding.bytes, hclean]
      rfl
  refine ⟨h.made.output value binding, h.kept.output value' binding, fun name sink hsink => ?_, fun name => ?_,
    fun name buffer hbuffer => ?_⟩
  · by_cases hname : name = binding.tensor
    · subst hname
      rw [hkept]
      split
      next => exact h.long _ sink hsink
      next hsunk => exact .inr (binding.lt_of_not_sunk (Bool.eq_false_of_not_eq_true hsunk) hsink)
    · rw [(outlook.write_of_ne sinks spoiled hname).2.1]
      exact h.long name sink hsink
  · by_cases hname : name = binding.tensor
    · subst hname
      rw [hmade, hkept, hspoiled, hplain, value_readOutput_self, h.kept.room.sunk_eq]
      intro hclean hsizes
      split at hsizes
      next hsunk =>
        -- The map was left as it was: an older output of this size would have fitted the buffer too.
        rw [if_pos hsunk]
        rw [Binding.sunk, Option.any_eq_true] at hsunk
        obtain ⟨sink, hsink, hfits⟩ := hsunk
        have hlong := h.long _ sink hsink
        have hlength := h.kept.length binding.tensor
        rw [decide_eq_true_eq] at hfits
        have hold : store.value binding.tensor = [] := List.eq_nil_of_length_eq_zero (by omega)
        have hnew : binding.bytes value = [] :=
          List.eq_nil_of_length_eq_zero (by rw [binding.length_bytes]; omega)
        rw [hold, hnew]
      next hsunk =>
        rw [if_neg hsunk]
        exact hbytes hclean
    · obtain ⟨hmade, hkept, hspoiled⟩ := outlook.write_of_ne sinks spoiled hname
      rw [hmade, hkept, hspoiled, value_readOutput_of_ne _ hname, value_readOutput_of_ne _ hname]
      exact h.same name
  · by_cases hname : name = binding.tensor
    · subst hname
      rw [hmade, hspoiled, hplain]
      intro hclean hroom
      rcases sinks_readOutput hbuffer with ⟨hold, hsunk⟩ | ⟨-, htake⟩
      · have hshort := binding.lt_of_not_sunk (hsunk rfl) hold
        omega
      · rw [htake, hbytes hclean]
    · obtain ⟨hmade, -, hspoiled⟩ := outlook.write_of_ne sinks spoiled hname
      rw [hmade, hspoiled, value_readOutput_of_ne _ hname]
      rcases sinks_readOutput hbuffer with ⟨hold, -⟩ | ⟨hsame, -⟩
      · exact h.buffers name buffer hold
      · exact absurd hsame hname

include h in
/-- The outputs of a program that computes the same in both runs, unless it is spoiled. -/
theorem Agreeing.outputs {value value' : ℕ → ℕ → UInt8} (hvalue : spoiled = false → value = value') (position : ℕ)
    (bindings : List Binding) :
    Agreeing sinks (bindings.foldl (Outlook.write sinks spoiled) outlook) (readOutputs value position bindings plain)
      (readOutputs value' position bindings store) := by
  induction bindings generalizing position outlook plain store with
  | nil => exact h
  | cons binding rest ih =>
    exact ih (h.output (fun hclean => congrFun (hvalue hclean) position) binding) (position + 1)

include h in
/-- A program that reads nothing stale or spoiled is sent the same in both runs. -/
theorem Agreeing.sent_eq {program : Program} (hclean : program.spoiled outlook = false) :
    program.sent inputs plain = program.sent inputs store := by
  rw [Program.spoiled, List.any_eq_false] at hclean
  refine List.map_congr_left fun binding hbinding => ?_
  have hread := hclean binding hbinding
  rw [Bool.or_eq_true, decide_eq_true_eq, not_or, not_not, Bool.not_eq_true] at hread
  rw [plain.lookup_eq, store.lookup_eq, h.same _ hread.1 hread.2]

include h in
/-- A plan keeps the two runs in agreement, whatever the device computes. -/
theorem Agreeing.run (device : Device) (plan : List ℕ) :
    Agreeing sinks (bundle.outlook sinks outlook plan) (advance device bundle inputs plan plain)
      (advance device bundle inputs plan store) := by
  induction plan generalizing outlook plain store with
  | nil => exact h
  | cons index rest ih =>
    rw [Bundle.outlook, advance, advance]
    cases bundle.entry index with
    | none => exact ih h
    | some entry => exact ih (h.outputs (fun hclean => by rw [h.sent_eq hclean]) 0 entry.2.outputs)

end Agreement

/-! ## A device that tells stale reads -/

/-- A byte that no staged input of this name begins with, one for each verdict. -/
def mark (inputs : Inputs) (name : String) (spoiled : Bool) : UInt8 :=
  ((inputs name).bind List.head?).getD 0 + if spoiled then 2 else 1

/-- What the run with sinks sends to a program when every output is a row of clean marks. -/
def Program.expected (inputs : Inputs) (kept : String → ℕ) (program : Program) : List Buffer :=
  program.inputs.map fun binding =>
    if kept binding.tensor = 0 then (inputs binding.tensor).getD []
    else List.replicate (kept binding.tensor) (mark inputs binding.tensor false)

/-- The device that marks what a program writes by whether it was sent what the run with sinks sends. -/
def marking (bundle : Bundle) (inputs : Inputs) (sinks : Sinks) : (String → ℕ) → List ℕ → Device
  | _, [] => fun _ _ _ _ => 0
  | kept, index :: rest =>
    match bundle.entry index with
    | some (key, program) => fun other sent position byte =>
      if other = key then
        mark inputs ((program.outputs[position]?.map Binding.tensor).getD "")
          (decide (sent ≠ program.expected inputs kept))
      else marking bundle inputs sinks (program.resize sinks kept) rest other sent position byte
    | none => marking bundle inputs sinks kept rest

/-- The keys of the programs of a plan. -/
def Bundle.keys (bundle : Bundle) (plan : List ℕ) : List ℕ :=
  plan.filterMap fun index => (bundle.entry index).map Prod.fst

/-- The two runs on the marking device: with sinks every mark is clean, without them those of spoiled writes are
not. -/
structure Marked (inputs : Inputs) (sinks : Sinks) (outlook : Outlook) (plain store : Store) : Prop where
  plainRoom : Room (fun _ => none) plain
  room : Room sinks store
  made : ∀ name, plain.value name = List.replicate (outlook.made name) (mark inputs name (outlook.spoiled name))
  kept : ∀ name, store.value name = List.replicate (outlook.kept name) (mark inputs name false)
  positive : ∀ name, outlook.spoiled name = true → 0 < outlook.made name
  buffers : ∀ name buffer, store.sinks name = some buffer → outlook.made name ≤ buffer.length →
    buffer.take (outlook.made name) = List.replicate (outlook.made name) (mark inputs name false)

section Marks

/-- The two marks of a tensor differ. -/
theorem mark_ne (inputs : Inputs) (name : String) : mark inputs name true ≠ mark inputs name false := by
  rw [mark, mark, ne_eq, UInt8.add_right_inj]
  decide

/-- A row of marks is no staged input of its tensor. -/
theorem staged_ne_marks (inputs : Inputs) (name : String) {n : ℕ} (hn : n ≠ 0) (spoiled : Bool) :
    (inputs name).getD [] ≠ List.replicate n (mark inputs name spoiled) := by
  obtain ⟨n, rfl⟩ := Nat.exists_eq_succ_of_ne_zero hn
  intro h
  rw [List.replicate_succ] at h
  cases hinput : inputs name with
  | none =>
    rw [hinput] at h
    cases h
  | some bytes =>
    rw [hinput, Option.getD_some] at h
    have hhead : mark inputs name spoiled = mark inputs name spoiled + if spoiled then 2 else 1 := by
      conv_lhs => rw [mark, hinput, Option.bind_some, h, List.head?_cons, Option.getD_some]
    rw [left_eq_add] at hhead
    cases spoiled <;> cases hhead

/-- Before the plan there are no marks. -/
theorem marked_start (inputs : Inputs) (sinks : Sinks) :
    Marked inputs sinks .start (.start fun _ => none) (.start sinks) where
  plainRoom _ := rfl
  room _ := rfl
  made _ := rfl
  kept _ := rfl
  positive _ h := nomatch h
  buffers _ _ _ _ := rfl

variable (h : Marked inputs sinks outlook plain store)

include h in
/-- A program is sent what the run with sinks sends exactly when it reads nothing stale or spoiled. -/
theorem Marked.sent_eq_iff (program : Program) :
    program.sent inputs plain = program.expected inputs outlook.kept ↔ program.spoiled outlook = false := by
  rw [Program.sent, Program.expected, List.map_inj_left, Program.spoiled, List.any_eq_false]
  refine forall₂_congr fun binding _ => ?_
  rw [Bool.or_eq_true, decide_eq_true_eq, not_or, not_not, Bool.not_eq_true, plain.lookup_eq, h.made]
  by_cases hmade : outlook.made binding.tensor = 0
  · have hclean : outlook.spoiled binding.tensor = false := by
      by_contra hspoiled
      have hpos := h.positive _ (Bool.eq_true_of_not_eq_false hspoiled)
      omega
    rw [hmade, List.replicate_zero, if_pos rfl, and_iff_right hclean]
    by_cases hkept : outlook.kept binding.tensor = 0
    · rw [if_pos hkept, hkept]
      exact ⟨fun _ => rfl, fun _ => rfl⟩
    · rw [if_neg hkept]
      exact ⟨fun heq => absurd heq (staged_ne_marks inputs _ hkept _), fun heq => absurd heq.symm hkept⟩
  · rw [if_neg (by rwa [List.replicate_eq_nil_iff]), Option.getD_some]
    by_cases hkept : outlook.kept binding.tensor = 0
    · rw [if_pos hkept, hkept]
      exact ⟨fun heq => absurd heq.symm (staged_ne_marks inputs _ hmade _), fun heq => absurd heq.2 hmade⟩
    · rw [if_neg hkept]
      constructor
      · intro heq
        obtain ⟨hsizes, hmarks⟩ := List.replicate_inj.mp heq
        refine ⟨?_, hsizes⟩
        by_contra hspoiled
        rw [Bool.eq_true_of_not_eq_false hspoiled] at hmarks
        exact mark_ne inputs binding.tensor (hmarks.resolve_left hmade)
      · rintro ⟨hclean, hsizes⟩
        rw [hclean, hsizes]

/-- An output of one byte throughout is a row. -/
theorem Binding.bytes_const (binding : Binding) (byte : UInt8) :
    binding.bytes (fun _ => byte) = List.replicate binding.logicalBytes byte := by
  rw [bytes, List.map_const', List.length_range]

include h in
/-- One marked output. -/
theorem Marked.output {value' : ℕ → UInt8} {binding : Binding}
    (hvalue : value = fun _ => mark inputs binding.tensor spoiled)
    (hvalue' : value' = fun _ => mark inputs binding.tensor false) :
    Marked inputs sinks (outlook.write sinks spoiled binding) (readOutput value binding plain)
      (readOutput value' binding store) := by
  obtain ⟨hmade, hkept, hspoiled⟩ := outlook.write_self sinks spoiled binding
  refine ⟨h.plainRoom.output value binding, h.room.output value' binding, fun name => ?_, fun name => ?_,
    fun name => ?_, fun name buffer hbuffer => ?_⟩
  all_goals by_cases hname : name = binding.tensor
  · subst hname
    rw [hmade, hspoiled, value_readOutput_self, h.plainRoom.sunk_eq, hvalue, Binding.bytes_const]
    by_cases hpos : 0 < binding.logicalBytes
    · rw [decide_eq_true hpos, Bool.and_true]
      rfl
    · rw [Nat.eq_zero_of_not_pos hpos]
      rfl
  · obtain ⟨hmade, -, hspoiled⟩ := outlook.write_of_ne sinks spoiled hname
    rw [hmade, hspoiled, value_readOutput_of_ne _ hname]
    exact h.made name
  · subst hname
    rw [hkept, value_readOutput_self, h.room.sunk_eq, hvalue', Binding.bytes_const]
    split
    · exact h.kept _
    · rfl
  · rw [(outlook.write_of_ne sinks spoiled hname).2.1, value_readOutput_of_ne _ hname]
    exact h.kept name
  · subst hname
    rw [hmade, hspoiled, Bool.and_eq_true, decide_eq_true_eq]
    exact And.right
  · obtain ⟨hmade, -, hspoiled⟩ := outlook.write_of_ne sinks spoiled hname
    rw [hmade, hspoiled]
    exact h.positive name
  · subst hname
    rw [hmade]
    intro hroom
    rcases sinks_readOutput hbuffer with ⟨hold, hsunk⟩ | ⟨-, htake⟩
    · have hshort := binding.lt_of_not_sunk (hsunk rfl) hold
      omega
    · rw [htake, hvalue', Binding.bytes_const]
  · rw [(outlook.write_of_ne sinks spoiled hname).1]
    rcases sinks_readOutput hbuffer with ⟨hold, -⟩ | ⟨hsame, -⟩
    · exact h.buffers name buffer hold
    · exact absurd hsame hname

include h in
/-- The marked outputs of a program. -/
theorem Marked.outputs {value value' : ℕ → ℕ → UInt8} {position : ℕ} {bindings : List Binding}
    (hvalue : ∀ i binding, bindings[i]? = some binding → value (position + i) =
      fun _ => mark inputs binding.tensor spoiled)
    (hvalue' : ∀ i binding, bindings[i]? = some binding → value' (position + i) =
      fun _ => mark inputs binding.tensor false) :
    Marked inputs sinks (bindings.foldl (Outlook.write sinks spoiled) outlook)
      (readOutputs value position bindings plain)
      (readOutputs value' position bindings store) := by
  induction bindings generalizing position outlook plain store with
  | nil => exact h
  | cons binding rest ih =>
    refine ih (h.output (hvalue 0 binding rfl) (hvalue' 0 binding rfl)) (fun i other hother => ?_)
      fun i other hother => ?_
    · rw [Nat.add_right_comm]
      exact hvalue (i + 1) other hother
    · rw [Nat.add_right_comm]
      exact hvalue' (i + 1) other hother

/-- What the map keeps behind a program. -/
theorem Outlook.kept_run (sinks : Sinks) (outlook : Outlook) (program : Program) :
    (outlook.run sinks program).kept = program.resize sinks outlook.kept := by
  rw [run, Program.resize]
  generalize program.spoiled outlook = spoiled
  induction program.outputs generalizing outlook with
  | nil => rfl
  | cons binding rest ih => exact ih (outlook.write sinks spoiled binding)

include h in
/-- A plan on a device that marks its programs. -/
theorem Marked.run {device : Device} {plan : List ℕ} (hkeys : (bundle.keys plan).Nodup)
    (hdevice : ∀ key ∈ bundle.keys plan, device key = marking bundle inputs sinks outlook.kept plan key) :
    Marked inputs sinks (bundle.outlook sinks outlook plan) (advance device bundle inputs plan plain)
      (advance device bundle inputs plan store) := by
  induction plan generalizing outlook plain store with
  | nil => exact h
  | cons index rest ih =>
    rw [Bundle.outlook, advance, advance]
    cases hentry : bundle.entry index with
    | none =>
      rw [Bundle.keys, List.filterMap_cons_none (by rw [hentry]; rfl)] at hkeys hdevice
      refine ih h hkeys fun key hkey => ?_
      rw [hdevice key hkey, marking, hentry]
    | some entry =>
      obtain ⟨key, program⟩ := entry
      rw [Bundle.keys, List.filterMap_cons_some (by rw [hentry]; rfl)] at hkeys hdevice
      obtain ⟨hfresh, hkeys⟩ := List.nodup_cons.mp hkeys
      have hanswer (sent : List Buffer) (i : ℕ) (binding : Binding) (hbinding : program.outputs[i]? = some binding) :
          device key sent (0 + i) =
            fun _ => mark inputs binding.tensor (decide (sent ≠ program.expected inputs outlook.kept)) := by
        funext byte
        rw [hdevice key List.mem_cons_self, marking, hentry, Nat.zero_add]
        dsimp only
        rw [if_pos rfl, hbinding]
        rfl
      have hplain : decide (program.sent inputs plain ≠ program.expected inputs outlook.kept) =
          program.spoiled outlook := by
        rw [Bool.eq_iff_iff, decide_eq_true_eq, ne_eq, h.sent_eq_iff, Bool.not_eq_false]
      have hsunk : program.sent inputs store = program.expected inputs outlook.kept := by
        refine List.map_congr_left fun binding _ => ?_
        rw [store.lookup_eq, h.kept]
        by_cases hkept : outlook.kept binding.tensor = 0
        · rw [hkept, List.replicate_zero, if_pos rfl, if_pos rfl]
        · rw [if_neg (by rwa [List.replicate_eq_nil_iff]), if_neg hkept, Option.getD_some]
      have hstep : Marked inputs sinks (outlook.run sinks program)
          (readOutputs (device key (program.sent inputs plain)) 0 program.outputs plain)
          (readOutputs (device key (program.sent inputs store)) 0 program.outputs store) :=
        h.outputs (fun i binding hbinding => by rw [hanswer _ i binding hbinding, hplain])
          fun i binding hbinding => by rw [hanswer _ i binding hbinding, hsunk, decide_eq_false (not_not.mpr rfl)]
      refine ih hstep hkeys fun other hother => ?_
      have hne : other ≠ key := by
        rintro rfl
        exact hfresh hother
      change _ = marking bundle inputs sinks (outlook.run sinks program).kept rest other
      rw [hdevice other (List.mem_cons_of_mem key hother), marking, hentry, Outlook.kept_run]
      dsimp only
      funext sent position byte
      rw [if_neg hne]

/-- The programs of a loaded plan have keys of their own. -/
theorem Bundle.Loaded.nodup_keys (h : bundle.Loaded) : (bundle.keys bundle.dispatchPlan).Nodup := by
  have hkey {index key : ℕ} (hentry : (bundle.entry index).map Prod.fst = some key) :
      bundle.validated[index]? = some key := by
    unfold Bundle.entry at hentry
    split at hentry
    next manifestIndex _ hvalidated _ => exact hvalidated.trans hentry
    next => cases hentry
  refine List.Nodup.filterMap (fun index index' key hleft hright => ?_) h.plan
  obtain ⟨hlt, hvalue⟩ := List.getElem?_eq_some_iff.mp (hkey hleft)
  obtain ⟨hlt', hvalue'⟩ := List.getElem?_eq_some_iff.mp (hkey hright)
  exact (List.Nodup.getElem_inj_iff h.keys).mp (hvalue.trans hvalue'.symm)

end Marks

/-! ## The law -/

section Law

variable {device : Device}

/-- The law wants both runs to end or neither; whether they do does not depend on the device. -/
theorem sinkLaw_succeeds_iff :
    ((∃ store, executePlan device bundle inputs sinks = .ok store) ↔ Delivers device bundle inputs sinks) ↔
      (bundle.Completes inputs sinks ↔ bundle.Fulfils inputs sinks) := by
  have hends : (∃ store, executePlan device bundle inputs sinks = .ok store) ↔ bundle.Completes inputs sinks :=
    ⟨fun ⟨_, hrun⟩ => (executePlan_eq_ok.mp hrun).1, fun h => ⟨_, executePlan_eq_ok.mpr ⟨h, rfl⟩⟩⟩
  rw [hends, delivers_iff]

/-- Harmless sinks change nothing, whatever the device computes. -/
theorem Harmless.sinkLaw (h : Harmless bundle inputs sinks) (device : Device) :
    SinkLaw device bundle inputs sinks := by
  refine ⟨sinkLaw_succeeds_iff.mpr ?_, fun store plain hstore hplain name bytes hname hbytes => ?_⟩
  · rcases h with ⟨hcompletes, hfulfils⟩ | ⟨hcompletes, hfulfils, -⟩
    · exact iff_of_false hcompletes hfulfils
    · exact iff_of_true hcompletes hfulfils
  · obtain ⟨hcompletes, rfl⟩ := executePlan_eq_ok.mp hstore
    obtain ⟨-, rfl⟩ := executePlan_eq_ok.mp hplain
    rcases h with ⟨hstopped, -⟩ | ⟨-, -, hintact⟩
    · exact absurd hcompletes hstopped
    obtain ⟨sink, hsink⟩ := Option.isSome_iff_exists.mp hname
    obtain ⟨hfits, hclean⟩ := hintact name sink hsink
    have hruns : Agreeing sinks (bundle.outlook sinks .start bundle.dispatchPlan)
        (advance device bundle inputs bundle.dispatchPlan (.start fun _ => none))
        (advance device bundle inputs bundle.dispatchPlan (.start sinks)) :=
      (agreeing_start sinks).run device bundle.dispatchPlan
    have hroom := hruns.kept.room name
    rw [hsink, Option.map_some, Option.map_eq_some_iff] at hroom
    obtain ⟨buffer, hbuffer, hlength⟩ := hroom
    have hvalue :
        Store.value (advance device bundle inputs bundle.dispatchPlan (.start fun _ => none)) name = bytes := by
      rw [Store.value, hbytes, Option.getD_some]
    refine ⟨buffer, hbuffer, ?_⟩
    rw [← hvalue, hruns.made.length, hruns.buffers name buffer hbuffer hclean (by omega)]

/-- On the marking device the law holds only if nothing that is delivered is spoiled. -/
theorem Bundle.Loaded.intact (h : bundle.Loaded) (hcompletes : bundle.Completes inputs sinks)
    (hfulfils : bundle.Fulfils inputs sinks)
    (hlaw : SinkLaw (marking bundle inputs sinks (fun _ => 0) bundle.dispatchPlan) bundle inputs sinks) :
    bundle.Intact sinks := by
  intro name sink hsink
  have hname : (sinks name).isSome := by rw [hsink, Option.isSome_some]
  have hmarked : Marked inputs sinks (bundle.outlook sinks .start bundle.dispatchPlan)
      (advance (marking bundle inputs sinks (fun _ => 0) bundle.dispatchPlan) bundle inputs bundle.dispatchPlan
        (.start fun _ => none))
      (advance (marking bundle inputs sinks (fun _ => 0) bundle.dispatchPlan) bundle inputs bundle.dispatchPlan
        (.start sinks)) :=
    (marked_start inputs sinks).run h.nodup_keys fun _ _ => rfl
  obtain ⟨plain, hplain, hdelivered⟩ := delivers_iff.mpr hfulfils
  obtain ⟨bytes, hbytes⟩ := Option.isSome_iff_exists.mp (hdelivered name hname)
  obtain ⟨buffer, hbuffer, htake⟩ :=
    hlaw.holds _ _ (executePlan_eq_ok.mpr ⟨hcompletes, rfl⟩) hplain name bytes hname hbytes
  obtain ⟨-, rfl⟩ := executePlan_eq_ok.mp hplain
  have hvalue := hmarked.made name
  rw [Store.value, hbytes, Option.getD_some] at hvalue
  have hroom := hmarked.room name
  rw [hbuffer, hsink, Option.map_some, Option.map_some, Option.some.injEq] at hroom
  -- The buffer begins with as many bytes as were written last.
  have hfits : (bundle.outlook sinks .start bundle.dispatchPlan).made name ≤ buffer.length := by
    have hlength := congrArg List.length htake
    rw [hvalue, List.length_replicate, List.length_take] at hlength
    omega
  refine ⟨hroom ▸ hfits, ?_⟩
  by_contra hspoiled
  rw [Bool.not_eq_false] at hspoiled
  have hmarks := hmarked.buffers name buffer hbuffer hfits
  rw [hvalue, List.length_replicate, hmarks, hspoiled, List.replicate_inj] at htake
  have hpositive := hmarked.positive name hspoiled
  rcases htake.2 with hzero | hsame
  · omega
  · exact mark_ne inputs name hsame.symm

/-- The law on every device, exactly: harmless sinks change nothing, and sinks that change nothing on any device are
harmless. -/
theorem sinkLaw_iff (bundle : Bundle) (inputs : Inputs) (sinks : Sinks) :
    (Harmless bundle inputs sinks → ∀ device, SinkLaw device bundle inputs sinks) ∧
      (bundle.Loaded → (∀ device, SinkLaw device bundle inputs sinks) → Harmless bundle inputs sinks) := by
  refine ⟨Harmless.sinkLaw, fun hloaded hlaw => ?_⟩
  have hlaw := hlaw (marking bundle inputs sinks (fun _ => 0) bundle.dispatchPlan)
  have hends := sinkLaw_succeeds_iff.mp hlaw.succeeds
  by_cases hcompletes : bundle.Completes inputs sinks
  · have hfulfils := hends.mp hcompletes
    exact .inr ⟨hcompletes, hfulfils, hloaded.intact hcompletes hfulfils hlaw⟩
  · exact .inl ⟨hcompletes, mt hends.mpr hcompletes⟩

/-- Two programs, the second reads what the first writes. -/
def chainBundle : Bundle where
  programs :=
    [{ payload := "p0"
       inputs := [{ tensor := "a", logicalBytes := 1 }]
       outputs := [{ tensor := "x", logicalBytes := 1 }] },
     { payload := "p1"
       inputs := [{ tensor := "x", logicalBytes := 1 }]
       outputs := [{ tensor := "y", logicalBytes := 1 }] }]
  validated := [0, 1]
  dispatchPlan := [0, 1]
  outputs := ["y"]

/-- A device that adds one to the first byte it gets. -/
def addOne : Device := fun _ sent _ _ => ((sent.head?.bind List.head?).getD 0) + 1

/-- One staged byte. -/
def stagedA : Inputs := fun name => if name = "a" then some [5] else none

/-- The caller asks for the tensor between the programs as well. -/
def chainRequests : List OutputRequest :=
  [{ name := some "x", data := some [0] }, { name := some "y", data := some [0] }]

/-- The buffers of that request. -/
def chainSinks : Sinks := Function.update (Function.update (fun _ => none) "x" (some [0])) "y" (some [0])

/-- The two programs are dispatched once each. -/
theorem chainBundle_loaded : chainBundle.Loaded := ⟨by decide, by decide⟩

/-- Asked for the last tensor alone, or with nothing staged, the two programs obey the law on every device. Asked for
both tensors they do not. -/
theorem sinkLaw_iff_chain :
    (∀ device, SinkLaw device chainBundle stagedA (Function.update (fun _ => none) "y" (some [0]))) ∧
      (∀ device, SinkLaw device chainBundle (fun _ => none) chainSinks) ∧
      ¬ ∀ device, SinkLaw device chainBundle stagedA chainSinks := by
  have hwrites : chainBundle.Writes [0, 1] "y" := ⟨1, by decide, 1, _, rfl, _, List.mem_cons_self, rfl⟩
  have hfinal (name : String) (hname : name ∈ chainBundle.outputs) : chainBundle.Writes [0, 1] name :=
    List.mem_singleton.mp hname ▸ hwrites
  have hplain : chainBundle.Completes stagedA fun _ => none := ⟨by decide, fun name hname _ => hfinal name hname⟩
  refine ⟨(sinkLaw_iff _ _ _).1 (.inr ⟨⟨by decide, fun name hname _ => hfinal name hname⟩, ⟨hplain, fun name => ?_⟩,
    fun name sink => ?_⟩), (sinkLaw_iff _ _ _).1 (.inl ⟨fun h => ?_, fun h => ?_⟩), fun hlaw => ?_⟩
  · by_cases hy : name = "y"
    · exact fun _ => hy ▸ hwrites
    · rw [Function.update_of_ne hy]
      exact fun h => nomatch h
  · by_cases hy : name = "y"
    · rw [hy, Function.update_self]
      rintro hsink
      rw [← Option.some.inj hsink]
      exact ⟨by decide, by decide⟩
    · rw [Function.update_of_ne hy]
      exact fun h => nomatch h
  · exact absurd h.1 (by decide)
  · exact absurd h.1.1 (by decide)
  · rcases (sinkLaw_iff _ _ _).2 chainBundle_loaded hlaw with ⟨-, hstopped⟩ | ⟨hends, -⟩
    · refine hstopped ⟨hplain, fun name hname => ?_⟩
      by_cases hy : name = "y"
      · exact hy ▸ hwrites
      by_cases hx : name = "x"
      · exact hx ▸ ⟨0, by decide, 0, _, rfl, _, List.mem_cons_self, rfl⟩
      · rw [chainSinks, Function.update_of_ne hy, Function.update_of_ne hx] at hname
        cases hname
    · exact absurd hends.1 (by decide)

/-- The request is accepted and the plan delivers without sinks, but with them it throws. -/
theorem chain_throws :
    (∃ sinks, acceptOutputs chainBundle chainRequests (fun _ => none) = .ok sinks ∧
      Delivers addOne chainBundle stagedA sinks ∧ ¬ SinkLaw addOne chainBundle stagedA sinks) := by
  have hthrows : ∀ store, executePlan addOne chainBundle stagedA chainSinks ≠ .ok store := by
    intro store h
    cases h
  have hdelivers : Delivers addOne chainBundle stagedA chainSinks := by
    refine ⟨_, rfl, fun name hname => ?_⟩
    by_cases hy : name = "y"
    · subst hy
      decide
    · by_cases hx : name = "x"
      · subst hx
        decide
      · rw [chainSinks, Function.update_of_ne hy, Function.update_of_ne hx] at hname
        cases hname
  refine ⟨chainSinks, rfl, hdelivers, fun hlaw => ?_⟩
  obtain ⟨store, hstore⟩ := hlaw.succeeds.mpr hdelivers
  exact hthrows store hstore

end Law

end AneLinux.Inproc
