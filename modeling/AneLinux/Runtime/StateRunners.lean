import AneLinux.Runtime.PingPongAtomic

/-!
# Runs of the recurrent and the key/value runner

Both validators accept layouts whose input rows come before the state rows and whose last row is
neither. The inputs of a step are assigned to the declared places exactly. So each call on a runner
is atomic for its snapshot, and a run of calls ends in the state of the calls that returned.
-/

namespace AneLinux.Runtime

open AneLinux.Support AneLinux.Staged

variable {layout : Layout} {cell : Place × Half} {source output nchw : Nchw} {first second kvHeads : ℕ}
  {program : Tensor → Tensor}

namespace Layout

/-- The cells of one row. -/
theorem mem_rowCells {row : ℕ} {values : ℕ → ℕ → Half} :
    cell ∈ layout.rowCells row values ↔ cell.1.head < layout.source.channels ∧ cell.1.row = row ∧
      cell.1.col < layout.source.width ∧ cell.2 = values cell.1.head cell.1.col := by
  obtain ⟨⟨head, place, col⟩, value⟩ := cell
  unfold rowCells rowPlaces
  constructor
  · intro h
    simp only [List.mem_map, List.mem_flatMap, List.mem_range, Prod.mk.injEq] at h
    obtain ⟨p, ⟨head', hhead, col', hcol, rfl⟩, hp, rfl⟩ := h
    obtain ⟨rfl, rfl, rfl⟩ := Place.mk.inj hp
    exact ⟨hhead, rfl, hcol, rfl⟩
  · dsimp only
    rintro ⟨hhead, rfl, hcol, rfl⟩
    simp only [List.mem_map, List.mem_flatMap, List.mem_range, Prod.mk.injEq]
    exact ⟨_, ⟨head, hhead, col, hcol, rfl⟩, rfl, rfl⟩

/-- The cells of one column. -/
theorem mem_columnCells {row col : ℕ} {values : ℕ → Half} :
    cell ∈ layout.columnCells row col values ↔ cell.1.head < layout.source.channels ∧ cell.1.row = row ∧
      cell.1.col = col ∧ cell.2 = values cell.1.head := by
  obtain ⟨⟨head, place, lane⟩, value⟩ := cell
  unfold columnCells
  constructor
  · intro h
    simp only [List.mem_map, List.mem_range, Prod.mk.injEq] at h
    obtain ⟨head', hhead, hp, rfl⟩ := h
    obtain ⟨rfl, rfl, rfl⟩ := Place.mk.inj hp
    exact ⟨hhead, rfl, rfl, rfl⟩
  · dsimp only
    rintro ⟨hhead, rfl, rfl, rfl⟩
    simp only [List.mem_map, List.mem_range, Prod.mk.injEq]
    exact ⟨head, hhead, rfl, rfl⟩

/-- Zeros are assigned to every place. -/
theorem mem_zeroCells : cell ∈ layout.zeroCells ↔ layout.source.Inside cell.1 ∧ cell.2 = 0 := by
  unfold zeroCells
  simp only [List.mem_flatMap, List.mem_range, mem_rowCells]
  constructor
  · rintro ⟨row, hrow, hhead, rfl, hcol, hvalue⟩
    exact ⟨⟨hhead, hrow, hcol⟩, hvalue⟩
  · rintro ⟨⟨hhead, hrow, hcol⟩, hvalue⟩
    exact ⟨cell.1.row, hrow, hhead, rfl, hcol, hvalue⟩

end Layout

namespace RecurrentRunner

/-- The inputs of a step by place. -/
def Inputs.rows (layout : Layout) (inputs : Inputs) : Tensor := fun head row col =>
  if row = 0 then inputs.q.entry (head * layout.source.width + col)
  else if row = 1 then inputs.k.entry (head * layout.source.width + col)
  else if row = 2 then inputs.v.entry (head * layout.source.width + col)
  else if col = 0 then inputs.beta.entry head
  else inputs.decay.entry head

/-- A state given to `initialize`, by place. -/
def stateTensor (layout : Layout) (state : NdArray Half) : Tensor := fun head row col =>
  state.entry ((head * layout.source.width + row) * layout.source.width + col)

section Layout

/-- What `_validate_recurrent_layout` checks. -/
theorem validateLayout_eq_ok (h : validateLayout source output = .ok layout) :
    layout = { source, output, firstState := 4, declared := fun row col => row < 3 || (row == 3 && col < 2) } ∧
      source.shape = output.shape ∧ source.batch = 1 ∧ 1 ≤ source.channels ∧ 2 ≤ source.width ∧
      source.height = source.width + 5 := by
  unfold validateLayout at h
  split at h
  · cases h
  · next hshape =>
    split at h
    · cases h
    · next hdims => exact ⟨(Except.ok.inj h).symm, not_not.mp hshape, by omega⟩

theorem valid_of_validateLayout (h : validateLayout source output = .ok layout) : layout.Valid := by
  obtain ⟨rfl, hshape, hbatch, hheads, hwidth, hheight⟩ := validateLayout_eq_ok h
  refine ⟨hbatch, hheads, Nat.le_of_succ_le hwidth, hshape.symm, ?_, ?_⟩
  · change 4 < source.height - 1
    omega
  · intro row col hdeclared
    change row < 4
    simp only [Bool.or_eq_true, Bool.and_eq_true, decide_eq_true_eq, beq_iff_eq] at hdeclared
    omega

/-- A step assigns the declared places. -/
theorem covers_inputCells (h : validateLayout source output = .ok layout) (inputs : Inputs) :
    layout.Covers (inputs.rows layout) (inputCells layout inputs) := by
  obtain ⟨rfl, -, -, -, hwidth, hheight⟩ := validateLayout_eq_ok h
  intro cell
  obtain ⟨⟨head, row, col⟩, value⟩ := cell
  simp only [inputCells, List.mem_append, Layout.mem_rowCells, Layout.mem_columnCells, Nchw.Inside, Inputs.rows,
    Bool.or_eq_true, Bool.and_eq_true, decide_eq_true_eq, beq_iff_eq]
  constructor
  · rintro ((((⟨hhead, rfl, hcol, hvalue⟩ | ⟨hhead, rfl, hcol, hvalue⟩) | ⟨hhead, rfl, hcol, hvalue⟩) |
      ⟨hhead, rfl, rfl, hvalue⟩) | ⟨hhead, rfl, rfl, hvalue⟩)
    all_goals exact ⟨⟨hhead, by omega, by omega⟩, by omega, hvalue⟩
  · rintro ⟨⟨hhead, -, hcol⟩, hrow, hvalue⟩
    have hcases : row = 0 ∨ row = 1 ∨ row = 2 ∨ (row = 3 ∧ col = 0) ∨ (row = 3 ∧ col = 1) := by omega
    rcases hcases with rfl | rfl | rfl | ⟨rfl, rfl⟩ | ⟨rfl, rfl⟩
    · exact .inl (.inl (.inl (.inl ⟨hhead, rfl, hcol, hvalue⟩)))
    · exact .inl (.inl (.inl (.inr ⟨hhead, rfl, hcol, hvalue⟩)))
    · exact .inl (.inl (.inr ⟨hhead, rfl, hcol, hvalue⟩))
    · exact .inl (.inr ⟨hhead, rfl, rfl, hvalue⟩)
    · exact .inr ⟨hhead, rfl, rfl, hvalue⟩

end Layout

/-- A call on the runner; a step comes with what the engine does in it. -/
inductive Call where
  | initializeState (state : NdArray Half)
  | step (inputs : Inputs) (respond : Bytes → Bytes → Answer)

namespace Call

/-- The method a call runs. -/
def method (layout : Layout) (timeout : String) : Call → Method PingPong Unit
  | .initializeState state => RecurrentRunner.initializeState layout state
  | .step inputs respond => do
    let _ ← RecurrentRunner.step layout timeout inputs respond
    return ()

/-- What a call does to the state when it returns. -/
def effect (layout : Layout) (program : Tensor → Tensor) : Call → Tensor → Tensor
  | .initializeState state => fun _ => layout.onState (stateTensor layout state)
  | .step inputs _ => layout.next program (inputs.rows layout)

/-- The engine runs the program in every step. -/
def Obeys (layout : Layout) (program : Tensor → Tensor) : Call → Prop
  | .initializeState _ => True
  | .step _ respond => layout.Obeys program respond

end Call

section Atomic

theorem initializeState_atomic (h : validateLayout nchw nchw = .ok layout) (hv : nchw.NonOverlapping)
    (state : NdArray Half) :
    Method.Atomic (PingPong.Bound first second) (PingPong.snapshot layout)
      (fun _ => layout.onState (stateTensor layout state)) (initializeState layout state) := by
  have hvalid := valid_of_validateLayout h
  obtain ⟨rfl, -, -, -, -, hheight⟩ := validateLayout_eq_ok h
  unfold initializeState stateCells
  refine Method.Atomic.lift_bind fun _ => PingPong.fill_atomic hvalid hv ?_ ?_ ?_
  · intro cell hcell
    obtain ⟨row, hrow, hcell⟩ := List.mem_flatMap.mp hcell
    obtain ⟨hhead, hplace, hcol, -⟩ := Layout.mem_rowCells.mp hcell
    have hrow : row < nchw.width := List.mem_range.mp hrow
    have hinside : cell.1.row < nchw.height := by omega
    exact ⟨hhead, hinside, hcol⟩
  · intro cell hcell row hplace _
    obtain ⟨row', -, hcell⟩ := List.mem_flatMap.mp hcell
    obtain ⟨-, hplace', -, hvalue⟩ := Layout.mem_rowCells.mp hcell
    have heq : row' = row := Nat.add_left_cancel (hplace'.symm.trans hplace)
    rw [hvalue, heq]
    rfl
  · intro head row col hrow hinside
    have hwidth : row < nchw.width := by
      have hcount : row < nchw.height - 1 - 4 := hrow
      omega
    exact List.mem_flatMap.mpr ⟨row, List.mem_range.mpr hwidth,
      Layout.mem_rowCells.mpr ⟨hinside.1, rfl, hinside.2.2, rfl⟩⟩

theorem step_atomic (h : validateLayout nchw nchw = .ok layout) (hv : nchw.NonOverlapping) (hne : first ≠ second)
    (timeout : String) (inputs : Inputs) {respond : Bytes → Bytes → Answer} (hobeys : layout.Obeys program respond) :
    Method.Atomic (PingPong.Bound first second) (PingPong.snapshot layout)
      (layout.next program (inputs.rows layout)) (step layout timeout inputs respond) := by
  have hvalid := valid_of_validateLayout h
  have hcells := covers_inputCells h inputs
  obtain ⟨rfl, -⟩ := validateLayout_eq_ok h
  unfold step
  refine Method.Atomic.lift_bind fun _ => Method.Atomic.lift_bind fun _ => Method.Atomic.lift_bind fun _ =>
    Method.Atomic.lift_bind fun _ => Method.Atomic.lift_bind fun _ => ?_
  exact PingPong.advance_atomic hvalid rfl hv hcells hobeys hne _ _

/-- Every call is atomic for the snapshot. -/
theorem call_atomic (h : validateLayout nchw nchw = .ok layout) (hv : nchw.NonOverlapping) (hne : first ≠ second)
    (timeout : String) {call : Call} (hobeys : call.Obeys layout program) :
    Method.Atomic (PingPong.Bound first second) (snapshotState layout) (call.effect layout program)
      (call.method layout timeout) := by
  cases call with
  | initializeState state => exact initializeState_atomic h hv state
  | step inputs respond => exact (step_atomic h hv hne timeout inputs hobeys).bind_pure

end Atomic

end RecurrentRunner

namespace KvStateRunner

/-- The inputs of a step by place. -/
def inputRows (layout : Layout) (kvHeads : ℕ) (key value : NdArray Half) : Tensor := fun head row col =>
  let entry := head / (layout.source.channels / kvHeads) * layout.source.width + col
  if row = 0 then key.entry entry else value.entry entry

section Layout

variable {sourceHandle outputHandle : ℕ}

variable (h : validateLayout source output kvHeads sourceHandle outputHandle = .ok layout)

include h in
/-- What `_validate_kv_layout` checks. -/
theorem validateLayout_eq_ok : layout = { source, output, firstState := 2, declared := fun row _ => row < 2 } ∧
      source.shape = output.shape ∧ source.batch = 1 ∧ 1 ≤ source.channels ∧ 5 ≤ source.height ∧
      1 ≤ source.width ∧ (source.height - 3) % 2 = 0 ∧ 1 ≤ kvHeads ∧ source.channels % kvHeads = 0 ∧
      sourceHandle ≠ outputHandle := by
  unfold validateLayout at h
  split at h
  · cases h
  · next hshape =>
    split at h
    · cases h
    · next hdims =>
      split at h
      · cases h
      · next hheads =>
        split at h
        · cases h
        · next hhandles =>
          rw [not_or] at hheads
          exact ⟨(Except.ok.inj h).symm, not_not.mp hshape, by omega, by omega, by omega, by omega, by omega,
            by omega, not_not.mp hheads.2, hhandles⟩

include h in
theorem valid_of_validateLayout : layout.Valid := by
  obtain ⟨rfl, hshape, hbatch, hheads, hheight, hwidth, -⟩ := validateLayout_eq_ok h
  refine ⟨hbatch, hheads, hwidth, hshape.symm, ?_, ?_⟩
  · change 2 < source.height - 1
    omega
  · intro row col hdeclared
    exact of_decide_eq_true hdeclared

include h in
/-- A step assigns the declared places. -/
theorem covers_inputCells (key value : NdArray Half) :
    layout.Covers (inputRows layout kvHeads key value) (inputCells layout kvHeads key value) := by
  obtain ⟨rfl, -, -, -, hheight, -⟩ := validateLayout_eq_ok h
  intro cell
  obtain ⟨⟨head, row, col⟩, x⟩ := cell
  simp only [inputCells, List.mem_append, Layout.mem_rowCells, Nchw.Inside, inputRows, decide_eq_true_eq]
  constructor
  · rintro (⟨hhead, rfl, hcol, hvalue⟩ | ⟨hhead, rfl, hcol, hvalue⟩)
    · exact ⟨⟨hhead, by omega, hcol⟩, by omega, hvalue⟩
    · exact ⟨⟨hhead, by omega, hcol⟩, by omega, hvalue⟩
  · rintro ⟨⟨hhead, -, hcol⟩, hrow, hvalue⟩
    have hcases : row = 0 ∨ row = 1 := by omega
    rcases hcases with rfl | rfl
    · exact .inl ⟨hhead, rfl, hcol, hvalue⟩
    · exact .inr ⟨hhead, rfl, hcol, hvalue⟩

end Layout

/-- A call on the runner; a step comes with what the engine does in it. -/
inductive Call where
  | initializeCache
  | step (key value : NdArray Half) (respond : Bytes → Bytes → Answer)

namespace Call

/-- The method a call runs. -/
def method (layout : Layout) (timeout : String) (kvHeads : ℕ) : Call → Method PingPong Unit
  | .initializeCache => KvStateRunner.initializeCache layout
  | .step key value respond => KvStateRunner.step layout timeout kvHeads key value respond

/-- What a call does to the cache when it returns. -/
def effect (layout : Layout) (kvHeads : ℕ) (program : Tensor → Tensor) : Call → Tensor → Tensor
  | .initializeCache => fun _ _ _ _ => 0
  | .step key value _ => layout.next program (inputRows layout kvHeads key value)

/-- The engine runs the program in every step. -/
def Obeys (layout : Layout) (program : Tensor → Tensor) : Call → Prop
  | .initializeCache => True
  | .step _ _ respond => layout.Obeys program respond

end Call

section Atomic

variable (h : validateLayout nchw nchw kvHeads first second = .ok layout)

include h in
/-- Filling the cache is atomic. -/
theorem initializeCache_atomic (hv : nchw.NonOverlapping) :
    Method.Atomic (PingPong.Bound first second) (PingPong.snapshot layout) (fun _ _ _ _ => 0)
      (initializeCache layout) := by
  have hvalid := valid_of_validateLayout h
  obtain ⟨rfl, -⟩ := validateLayout_eq_ok h
  have hzero (layout : Layout) : layout.onState (fun _ _ _ => 0) = fun _ _ _ => 0 := by
    funext head row col
    exact ite_self 0
  unfold initializeCache
  rw [← List.nil_append (Layout.zeroCells _), ← hzero]
  refine PingPong.fill_atomic hvalid hv ?_ ?_ ?_
  · intro cell hcell
    exact (Layout.mem_zeroCells.mp hcell).1
  · intro cell hcell row _ _
    exact (Layout.mem_zeroCells.mp hcell).2
  · intro head row col _ hinside
    exact Layout.mem_zeroCells.mpr ⟨hinside, rfl⟩

include h in
theorem step_atomic (hv : nchw.NonOverlapping) (timeout : String) (key value : NdArray Half)
    {respond : Bytes → Bytes → Answer} (hobeys : layout.Obeys program respond) :
    Method.Atomic (PingPong.Bound first second) (PingPong.snapshot layout)
      (layout.next program (inputRows layout kvHeads key value))
      (step layout timeout kvHeads key value respond) := by
  have hvalid := valid_of_validateLayout h
  have hcells := covers_inputCells h key value
  obtain ⟨rfl, -, -, -, -, -, -, -, -, hne⟩ := validateLayout_eq_ok h
  unfold step
  refine Method.Atomic.lift_bind fun _ => Method.Atomic.lift_bind fun _ => Method.Atomic.bind_pure ?_
  exact PingPong.advance_atomic hvalid rfl hv hcells hobeys hne _ _

include h in
/-- Every call is atomic for the state rows. -/
theorem call_atomic (hv : nchw.NonOverlapping) (timeout : String) {call : Call} (hobeys : call.Obeys layout program) :
    Method.Atomic (PingPong.Bound first second) (PingPong.snapshot layout) (call.effect layout kvHeads program)
      (call.method layout timeout kvHeads) := by
  cases call with
  | initializeCache => exact initializeCache_atomic h hv
  | step key value respond => exact step_atomic h hv timeout key value hobeys

end Atomic

/-- The caches of a snapshot. -/
theorem snapshotCache_eq_map (layout : Layout) (s : PingPong) :
    snapshotCache layout s = (s.snapshot layout).map (caches layout) := by
  rw [snapshotCache]
  cases s.snapshot layout with
  | ok state => rfl
  | error e => rfl

end KvStateRunner

/-- After any run of calls of which any number raise, the snapshot of either runner is the first
snapshot with the effects of the calls that returned, in order. The request names the source in bank 5
and the output in bank 4, and these are the two buffers the constructor allocated. -/
theorem runs_atomic {nchw : Nchw} (hv : nchw.NonOverlapping) {first second : ℕ} (hne : first ≠ second)
    (handles : ℕ → ℕ) (memory : ℕ → Bytes) (timeout : String) (program : Tensor → Tensor) :
    let start := PingPong.allocated first second handles memory
    (∀ layout, RecurrentRunner.validateLayout nchw nchw = .ok layout →
      ∀ calls : List RecurrentRunner.Call, (∀ call ∈ calls, call.Obeys layout program) →
        let run := Method.runAll (calls.map (RecurrentRunner.Call.method layout timeout)) start
        RecurrentRunner.snapshotState layout run.1 = (RecurrentRunner.snapshotState layout start).map
            (Method.effectsOf (calls.map (RecurrentRunner.Call.effect layout program)) run.2) ∧
          run.1.Bound first second ∧ run.1.source ≠ run.1.output) ∧
    ∀ kvHeads layout, KvStateRunner.validateLayout nchw nchw kvHeads first second = .ok layout →
      ∀ calls : List KvStateRunner.Call, (∀ call ∈ calls, call.Obeys layout program) →
        let run := Method.runAll (calls.map (KvStateRunner.Call.method layout timeout kvHeads)) start
        KvStateRunner.snapshotCache layout run.1 = (start.snapshot layout).map (fun state =>
            KvStateRunner.caches layout
              (Method.effectsOf (calls.map (KvStateRunner.Call.effect layout kvHeads program)) run.2 state)) ∧
          run.1.Bound first second ∧ run.1.source ≠ run.1.output := by
  intro start
  have hstart : PingPong.Bound first second start := PingPong.bound_allocated handles memory
  refine ⟨?_, ?_⟩
  · intro layout h calls hobeys
    obtain ⟨hbound, hview⟩ := Method.runAll_atomic
      (fun call hcall => RecurrentRunner.call_atomic h hv hne timeout (hobeys call hcall)) hstart
    exact ⟨hview, hbound, hbound.ne hne⟩
  · intro kvHeads layout h calls hobeys
    obtain ⟨hbound, hview⟩ := Method.runAll_atomic
      (fun call hcall => KvStateRunner.call_atomic h hv timeout (hobeys call hcall)) hstart
    refine ⟨?_, hbound, hbound.ne hne⟩
    rw [KvStateRunner.snapshotCache_eq_map, hview]
    cases start.snapshot layout with
    | ok state => rfl
    | error e => rfl

/-- A surface that both runners accept: one head of dimension two. -/
def smallSurface : Nchw := ⟨1, 1, 7, 2, 28, 4⟩

theorem smallSurface_nonOverlapping : smallSurface.NonOverlapping := by
  rintro ⟨head, row, col⟩ ⟨head', row', col'⟩ ⟨hhead, -, hcol⟩ ⟨hhead', -, hcol'⟩ hne
  change head < 1 at hhead
  change head' < 1 at hhead'
  change col < 2 at hcol
  change col' < 2 at hcol'
  rw [Ne, Place.mk.injEq] at hne
  change head * 28 + row * 4 + 2 * col + 2 ≤ head' * 28 + row' * 4 + 2 * col' ∨
    head' * 28 + row' * 4 + 2 * col' + 2 ≤ head * 28 + row * 4 + 2 * col
  omega

/-- An engine that answers with the first input row in the first state row and zeros elsewhere. -/
def rowCopy (target : ℕ) : Bytes → Bytes → Answer := fun input _ =>
  { error := none, output := fun i => if i / 4 = target then input.get (i % 4) else 0 }

/-- What that engine computes. -/
def rowCopyProgram (target : ℕ) : Tensor → Tensor := fun values head row col =>
  if row = target then values head 0 col else 0

/-- An engine that never answers: the values stay infinite. -/
def silent : Bytes → Bytes → Answer := fun _ _ =>
  { error := none, output := fun i => if i % 2 = 0 then 0 else 0x7C }

/-- A layout over the small surface. -/
def smallLayout (firstState : ℕ) (declared : ℕ → ℕ → Bool) : Layout :=
  { source := smallSurface, output := smallSurface, firstState, declared }

theorem silent_obeys (firstState : ℕ) (declared : ℕ → ℕ → Bool) (program : Tensor → Tensor) :
    (smallLayout firstState declared).Obeys program silent := by
  intro input output _ hview _ left hfinite
  have hsize : 28 ≤ output.size := (tensorView_eq_ok_iff.mp hview).2
  have hvalue : halfAt (Bytes.ofFn output.size (silent input output).output) 24 = 0x7C00 := by
    apply halfAt_of_bytes
    intro k hk
    rw [Bytes.get_ofFn, if_pos (by omega)]
    rcases (show k = 0 ∨ k = 1 by omega) with rfl | rfl
    · rfl
    · rfl
  have hmem : (⟨0, 6, 0⟩ : Place) ∈ (smallLayout firstState declared).rowPlaces 6 := List.mem_cons_self
  have hrow := List.all_eq_true.mp hfinite _ (List.mem_map_of_mem hmem)
  change isFinite (halfAt (Bytes.ofFn output.size (silent input output).output) 24) = true at hrow
  rw [hvalue] at hrow
  cases hrow

theorem rowCopy_obeys {firstState : ℕ} {declared : ℕ → ℕ → Bool} (hdeclared : ∀ col < 2, declared 0 col = true) :
    (smallLayout firstState declared).Obeys (rowCopyProgram 4) (rowCopy 4) := by
  intro input output _ hview _ left _ p hp
  obtain ⟨head, row, col⟩ := p
  obtain ⟨hhead, hrow, hcol⟩ := hp
  change head < 1 at hhead
  change row < 7 at hrow
  change col < 2 at hcol
  have hsize : 28 ≤ output.size := (tensorView_eq_ok_iff.mp hview).2
  obtain rfl : head = 0 := by omega
  have hreads : (smallLayout firstState declared).Reads ⟨0, 0, col⟩ :=
    ⟨⟨Nat.zero_lt_one, Nat.zero_lt_succ 6, hcol⟩, .inr (hdeclared col hcol)⟩
  apply halfAt_of_bytes
  intro k hk
  change (Bytes.ofFn output.size (rowCopy 4 input output).output).get (0 * 28 + row * 4 + 2 * col + k) =
    halfByte (if row = 4 then (if (smallLayout firstState declared).Reads ⟨0, 0, col⟩ then
      halfAt input (0 * 28 + 0 * 4 + 2 * col) else 0) else 0) k
  rw [if_pos hreads, Bytes.get_ofFn, if_pos (by omega)]
  change (if (0 * 28 + row * 4 + 2 * col + k) / 4 = 4 then
    input.get ((0 * 28 + row * 4 + 2 * col + k) % 4) else 0) = _
  by_cases htarget : row = 4
  · rw [if_pos htarget, if_pos (by omega), ← get_eq_halfByte input _ hk]
    congr 1
    omega
  · rw [if_neg htarget, if_neg (by omega)]
    rcases (show k = 0 ∨ k = 1 by omega) with rfl | rfl
    · rfl
    · rfl

/-- A vector of ones of the shape a step asks for. -/
def ones (shape : List ℕ) : NdArray Half := { dtype := .float16, finite := true, shape, entry := fun _ => 0x3C00 }

/-- A first step that times out and a second one that returns, on both runners. -/
theorem runs_atomic_smallSurface :
    let start := PingPong.allocated 1 2 (fun _ => 0) fun _ => Bytes.zeros 28
    let inputs : RecurrentRunner.Inputs :=
      ⟨ones [1, 2], ones [1, 2], ones [1, 2], ones [1], ones [1]⟩
    let layout := smallLayout 4 fun row col => row < 3 || (row == 3 && col < 2)
    let calls := [RecurrentRunner.Call.step inputs silent, .step inputs (rowCopy 4)]
    let run := Method.runAll (calls.map (RecurrentRunner.Call.method layout "10.0")) start
    let cache := smallLayout 2 fun row _ => row < 2
    let updates := [KvStateRunner.Call.step (ones [1, 2]) (ones [1, 2]) silent,
      .step (ones [1, 2]) (ones [1, 2]) (rowCopy 4)]
    let cacheRun := Method.runAll (updates.map (KvStateRunner.Call.method cache "10.0" 1)) start
    RecurrentRunner.snapshotState layout run.1 = (RecurrentRunner.snapshotState layout start).map
        (Method.effectsOf (calls.map (RecurrentRunner.Call.effect layout (rowCopyProgram 4))) run.2) ∧
      KvStateRunner.snapshotCache cache cacheRun.1 = (start.snapshot cache).map fun state =>
        KvStateRunner.caches cache
          (Method.effectsOf (updates.map (KvStateRunner.Call.effect cache 1 (rowCopyProgram 4))) cacheRun.2 state) := by
  intro start inputs layout calls run cache updates cacheRun
  have hboth := runs_atomic smallSurface_nonOverlapping (show 1 ≠ 2 by decide) (fun _ => 0)
    (fun _ => Bytes.zeros 28) "10.0" (rowCopyProgram 4)
  refine ⟨(hboth.1 layout rfl calls ?_).1, (hboth.2 1 cache rfl updates ?_).1⟩
  · intro call hcall
    rcases List.mem_cons.mp hcall with rfl | hcall
    · exact silent_obeys _ _ _
    · rw [List.mem_singleton.mp hcall]
      exact rowCopy_obeys fun _ _ => rfl
  · intro call hcall
    rcases List.mem_cons.mp hcall with rfl | hcall
    · exact silent_obeys _ _ _
    · rw [List.mem_singleton.mp hcall]
      exact rowCopy_obeys fun _ _ => rfl

end AneLinux.Runtime
