import AneLinux.Support.Atomic
import AneLinux.Runtime.PingPong

/-!
# Steps of a ping-pong runner are atomic

When the two surfaces have the same strides and these do not overlap, a step either applies the
program to its inputs and the state, or leaves the state as it was. The buffers stay the two that
were allocated, and the request names the one bound as output in bank 4 and the source in bank 5.
-/

namespace AneLinux.Runtime

open AneLinux.Support AneLinux.Staged

variable {layout : Layout} {cells : List (Place × Half)} {inputs : Tensor} {first second : ℕ} {s : PingPong}
  {respond : Bytes → Bytes → Answer}

namespace Layout

/-- What the validators of both runners establish. -/
structure Valid (layout : Layout) : Prop where
  batch : layout.source.batch = 1
  heads : 1 ≤ layout.source.channels
  width : 1 ≤ layout.source.width
  shape : layout.output.shape = layout.source.shape
  state : layout.firstState < layout.completionRow
  declared : ∀ row col, layout.declared row col = true → row < layout.firstState

/-- A place the program reads. -/
def Reads (layout : Layout) (p : Place) : Prop :=
  layout.source.Inside p ∧
    ((layout.firstState ≤ p.row ∧ p.row < layout.completionRow) ∨ layout.declared p.row p.col = true)

instance (layout : Layout) (p : Place) : Decidable (layout.Reads p) :=
  inferInstanceAs (Decidable ((_ ∧ _ ∧ _) ∧ ((_ ∧ _) ∨ _)))

/-- What the program sees of the source buffer. -/
def declaredView (layout : Layout) (contents : Bytes) : Tensor := fun head row col =>
  if layout.Reads ⟨head, row, col⟩ then halfAt contents (layout.source.address ⟨head, row, col⟩) else 0

/-- Inputs and a state, as the program sees them. -/
def compose (layout : Layout) (inputs state : Tensor) : Tensor := fun head row col =>
  if layout.Reads ⟨head, row, col⟩ then
    if layout.firstState ≤ row then state head (row - layout.firstState) col else inputs head row col
  else 0

/-- The state after a step of the program. -/
def next (layout : Layout) (program : Tensor → Tensor) (inputs state : Tensor) : Tensor :=
  layout.onState fun head row col => program (layout.compose inputs state) head (layout.firstState + row) col

/-- The assigned places are the declared ones, with the values of the inputs. -/
def Covers (layout : Layout) (inputs : Tensor) (cells : List (Place × Half)) : Prop :=
  ∀ cell, cell ∈ cells ↔ layout.source.Inside cell.1 ∧ layout.declared cell.1.row cell.1.col = true ∧
    cell.2 = inputs cell.1.head cell.1.row cell.1.col

/-- A place among the state rows. -/
theorem inside_state {head row col : ℕ} (hhead : head < layout.source.channels) (hrow : row < layout.stateCount)
    (hcol : col < layout.source.width) : layout.source.Inside ⟨head, layout.firstState + row, col⟩ := by
  have hcount : layout.stateCount = layout.source.height - 1 - layout.firstState := rfl
  refine ⟨hhead, ?_, hcol⟩
  change layout.firstState + row < layout.source.height
  omega

/-- States are equal when their values at the places of the state rows are. -/
theorem onState_congr {values others : Tensor}
    (h : ∀ head row col, row < layout.stateCount → layout.source.Inside ⟨head, layout.firstState + row, col⟩ →
      values head row col = others head row col) :
    layout.onState values = layout.onState others := by
  funext head row col
  unfold onState
  split
  · next hin => exact h head row col hin.2.1 (inside_state hin.1 hin.2.1 hin.2.2)
  · rfl

section Assign

variable {contents : Bytes}

/-- Inputs leave the state rows alone. -/
theorem stateRows_assign (h : layout.Valid) (hv : layout.source.NonOverlapping) (hcells : layout.Covers inputs cells) :
    layout.stateRows (assignCells layout.source contents cells) = layout.stateRows contents := by
  apply onState_congr
  intro head row col _ hinside
  refine halfAt_assignCells_of_ne hv (fun cell hcell => ((hcells cell).mp hcell).1) hinside
    fun cell hcell heq => ?_
  have hrow := h.declared _ _ ((hcells cell).mp hcell).2.1
  rw [heq] at hrow
  exact absurd hrow (Nat.not_lt.mpr (Nat.le_add_right _ _))

/-- After the inputs are assigned, the program sees them next to the state. -/
theorem declaredView_assign (h : layout.Valid) (hv : layout.source.NonOverlapping)
    (hsize : layout.source.extent ≤ contents.size) (hcells : layout.Covers inputs cells) :
    layout.declaredView (assignCells layout.source contents cells) =
      layout.compose inputs (layout.stateRows contents) := by
  funext head row col
  unfold declaredView compose
  by_cases hreads : layout.Reads ⟨head, row, col⟩
  · rw [if_pos hreads, if_pos hreads]
    obtain ⟨hinside, hrow⟩ := hreads
    by_cases hstate : layout.firstState ≤ row
    · have hcount : layout.stateCount = layout.completionRow - layout.firstState := rfl
      have hlt : row < layout.completionRow := by
        rcases hrow with hrow | hdeclared
        · exact hrow.2
        · exact absurd (h.declared _ _ hdeclared) (Nat.not_lt.mpr hstate)
      rw [if_pos hstate, ← stateRows_assign h hv hcells, stateRows, onState,
        if_pos ⟨hinside.1, by omega, hinside.2.2⟩, Nat.add_sub_cancel' hstate]
    · rw [if_neg hstate]
      have hdeclared : layout.declared row col = true := hrow.resolve_left fun hrow => hstate hrow.1
      refine halfAt_assignCells_of_mem hv h.batch hsize (fun cell hcell => ((hcells cell).mp hcell).1)
        ((hcells (⟨head, row, col⟩, inputs head row col)).mpr ⟨hinside, hdeclared, rfl⟩) ?_
      intro cell hcell heq
      rw [((hcells cell).mp hcell).2.2, heq]
  · rw [if_neg hreads, if_neg hreads]

end Assign

/-- An engine that runs a program. On buffers that hold the two views, when it raises nothing and the
completion row is finite, every place of the output holds what the program computes from the places
it reads. Otherwise it may leave anything. -/
def Obeys (layout : Layout) (program : Tensor → Tensor) (respond : Bytes → Bytes → Answer) : Prop :=
  ∀ input output, tensorView input layout.source = .ok () → tensorView output layout.output = .ok () →
    (respond input output).error = none →
    let left := Bytes.ofFn output.size (respond input output).output
    (layout.completionValues left).all isFinite = true →
    ∀ p, layout.output.Inside p →
      halfAt left (layout.output.address p) = program (layout.declaredView input) p.head p.row p.col

end Layout

namespace PingPong

/-- The request names the source in bank 5 and the output in bank 4, and these are the two buffers. -/
structure Bound (first second : ℕ) (s : PingPong) : Prop where
  input : s.handles 5 = s.source
  output : s.handles 4 = s.output
  pair : (s.source = first ∧ s.output = second) ∨ (s.source = second ∧ s.output = first)

section Buffers

theorem bound_allocated (handles : ℕ → ℕ) (memory : ℕ → Bytes) :
    Bound first second (allocated first second handles memory) := ⟨rfl, rfl, .inl ⟨rfl, rfl⟩⟩

theorem Bound.ne (h : Bound first second s) (hne : first ≠ second) : s.source ≠ s.output := by
  rcases h.pair with ⟨hsource, houtput⟩ | ⟨hsource, houtput⟩
  · rw [hsource, houtput]
    exact hne
  · rw [hsource, houtput]
    exact hne.symm

/-- Changes of the contents keep the binding. -/
theorem Bound.with_memory (h : Bound first second s) (memory : ℕ → Bytes) :
    Bound first second { s with memory } := ⟨h.input, h.output, h.pair⟩

theorem Bound.swapped (h : Bound first second s) : Bound first second s.swapped :=
  ⟨rfl, rfl, h.pair.symm.imp And.symm And.symm⟩

end Buffers

/-- The runner when the wait ends: inputs written, output marked, the engine done. -/
def worked (layout : Layout) (cells : List (Place × Half)) (respond : Bytes → Bytes → Answer)
    (s : PingPong) : PingPong × Option PyError :=
  submitted respond ((s.stage layout cells).arm layout)

/-- The wait ends with an exception, or with a finite row and the buffers swapped. -/
theorem finish_cases (layout : Layout) (timeoutText nonFiniteText : String) (s : PingPong) :
    (∃ e, finish layout timeoutText nonFiniteText s = (s, .error e)) ∨
    ((layout.completionValues (s.memory s.output)).all isFinite = true ∧
      finish layout timeoutText nonFiniteText s =
        (s.swapped, .ok (layout.completionValues (s.memory s.output)))) := by
  unfold finish
  rw [Method.read_bind]
  split
  · exact .inl ⟨_, rfl⟩
  · split
    · exact .inl ⟨_, rfl⟩
    · next hfinite => exact .inr ⟨Bool.of_not_eq_false hfinite, rfl⟩

/-- Everything a step can do once its arguments are checked. -/
theorem advance_cases (layout : Layout) (timeoutText nonFiniteText : String) (cells : List (Place × Half))
    (respond : Bytes → Bytes → Answer) (s : PingPong) :
    (∃ e, advance layout timeoutText nonFiniteText cells respond s = (s, .error e)) ∨
    (∃ e, advance layout timeoutText nonFiniteText cells respond s = (s.stage layout cells, .error e)) ∨
    (∃ e, advance layout timeoutText nonFiniteText cells respond s =
      ((worked layout cells respond s).1, .error e)) ∨
    (tensorView (s.memory s.source) layout.source = .ok () ∧
      tensorView ((s.stage layout cells).memory s.output) layout.output = .ok () ∧
      (worked layout cells respond s).2 = none ∧
      (layout.completionValues ((worked layout cells respond s).1.memory s.output)).all isFinite = true ∧
      advance layout timeoutText nonFiniteText cells respond s =
        ((worked layout cells respond s).1.swapped,
          .ok (layout.completionValues ((worked layout cells respond s).1.memory s.output)))) := by
  unfold advance
  rw [Method.read_bind]
  cases tensorView (s.memory s.source) layout.source with
  | error e => exact .inl ⟨e, rfl⟩
  | ok _ =>
    rw [Method.lift_ok_bind, Method.change_bind, Method.read_bind]
    change _ ∨ _ ∨ _ ∨ (_ ∧ tensorView ((s.stage layout cells).memory (s.stage layout cells).output) _ = _ ∧ _)
    cases tensorView ((s.stage layout cells).memory (s.stage layout cells).output) layout.output with
    | error e => exact .inr (.inl ⟨e, rfl⟩)
    | ok _ =>
      refine .inr (.inr ?_)
      rw [Method.lift_ok_bind, Method.change_bind, Method.change_bind, ← worked]
      cases (worked layout cells respond s).2 with
      | some e => exact .inl ⟨e, rfl⟩
      | none =>
        rcases finish_cases layout timeoutText nonFiniteText (worked layout cells respond s).1 with
          ⟨e, he⟩ | ⟨hfinite, hswap⟩
        · exact .inl ⟨e, he⟩
        · exact .inr ⟨rfl, rfl, rfl, hfinite, hswap⟩

section Contents

theorem stage_memory_source (layout : Layout) (cells : List (Place × Half)) (s : PingPong) :
    (s.stage layout cells).memory s.source = assignCells layout.source (s.memory s.source) cells :=
  Function.update_self ..

theorem stage_memory_output (hne : s.source ≠ s.output) :
    (s.stage layout cells).memory s.output = s.memory s.output := Function.update_of_ne hne.symm ..

/-- When the wait ends, the source holds what it held and the inputs. -/
theorem worked_memory_source (houtput : s.handles 4 = s.output) (hne : s.source ≠ s.output) :
    (worked layout cells respond s).1.memory s.source =
      assignCells layout.source (s.memory s.source) cells := by
  change Function.update _ (s.handles 4) _ s.source = _
  rw [houtput, Function.update_of_ne hne]
  change Function.update _ s.output _ s.source = _
  rw [Function.update_of_ne hne, stage_memory_source]

/-- What the engine left in the output buffer of a step. -/
def left (layout : Layout) (cells : List (Place × Half)) (respond : Bytes → Bytes → Answer) (s : PingPong) :
    Bytes :=
  Bytes.ofFn (s.memory s.output).size
    (respond (assignCells layout.source (s.memory s.source) cells)
      (((s.stage layout cells).arm layout).memory s.output)).output

theorem size_arm_memory_output (hne : s.source ≠ s.output) :
    (((s.stage layout cells).arm layout).memory s.output).size = (s.memory s.output).size := by
  have harmed : ((s.stage layout cells).arm layout).memory s.output =
      assignCells layout.output ((s.stage layout cells).memory s.output)
        (layout.rowCells layout.completionRow fun _ _ => halfInf) := Function.update_self ..
  rw [harmed, size_assignCells, stage_memory_output hne]

/-- The engine reads the source with the inputs in it. -/
theorem arm_memory_source (hne : s.source ≠ s.output) :
    ((s.stage layout cells).arm layout).memory s.source =
      assignCells layout.source (s.memory s.source) cells := by
  change Function.update _ s.output _ s.source = _
  rw [Function.update_of_ne hne, stage_memory_source]

theorem worked_memory_output (hinput : s.handles 5 = s.source) (houtput : s.handles 4 = s.output)
    (hne : s.source ≠ s.output) :
    (worked layout cells respond s).1.memory s.output = left layout cells respond s := by
  have hwritten : (worked layout cells respond s).1.memory (s.handles 4) =
      Bytes.ofFn (((s.stage layout cells).arm layout).memory (s.handles 4)).size
        (respond (((s.stage layout cells).arm layout).memory (s.handles 5))
          (((s.stage layout cells).arm layout).memory (s.handles 4))).output := Function.update_self ..
  rw [houtput, hinput] at hwritten
  rw [hwritten, size_arm_memory_output hne, arm_memory_source hne, left]

theorem worked_error (hinput : s.handles 5 = s.source) (houtput : s.handles 4 = s.output)
    (hne : s.source ≠ s.output) :
    (worked layout cells respond s).2 =
      (respond (assignCells layout.source (s.memory s.source) cells)
        (((s.stage layout cells).arm layout).memory s.output)).error := by
  change (respond (((s.stage layout cells).arm layout).memory (s.handles 5))
    (((s.stage layout cells).arm layout).memory (s.handles 4))).error = _
  rw [houtput, hinput, arm_memory_source hne]

/-- A snapshot depends on the state rows and the size of the source only. -/
theorem snapshot_congr {s' : PingPong} (hsize : (s'.memory s'.source).size = (s.memory s.source).size)
    (hrows : layout.stateRows (s'.memory s'.source) = layout.stateRows (s.memory s.source)) :
    s'.snapshot layout = s.snapshot layout := by
  rw [snapshot, snapshot, tensorView_congr layout.source hsize, hrows]

theorem snapshot_of_fits (h : tensorView (s.memory s.source) layout.source = .ok ()) :
    s.snapshot layout = .ok (layout.stateRows (s.memory s.source)) := by
  rw [snapshot, h]
  rfl

end Contents

section Atomic

variable {program : Tensor → Tensor}

/-- A finite answer of an engine that runs a program leaves the next state. -/
theorem stateRows_left (h : layout.Valid) (hsame : layout.output = layout.source) (hv : layout.source.NonOverlapping)
    (hcells : layout.Covers inputs cells) (hobeys : layout.Obeys program respond) (hs : Bound first second s)
    (hne : first ≠ second) (hsource : tensorView (s.memory s.source) layout.source = .ok ())
    (hview : tensorView (s.memory s.output) layout.output = .ok ()) (herror : (worked layout cells respond s).2 = none)
    (hfinite : (layout.completionValues (left layout cells respond s)).all isFinite = true) :
    layout.stateRows (left layout cells respond s) =
      layout.next program inputs (layout.stateRows (s.memory s.source)) := by
  have hdistinct := hs.ne hne
  rw [worked_error hs.input hs.output hdistinct] at herror
  have hwrites := hobeys _ _ ((tensorView_congr _ (size_assignCells ..)).trans hsource)
    ((tensorView_congr _ (size_arm_memory_output hdistinct)).trans hview) herror
  rw [size_arm_memory_output hdistinct, ← left,
    Layout.declaredView_assign h hv (tensorView_eq_ok_iff.mp hsource).2 hcells] at hwrites
  apply Layout.onState_congr
  intro head row col _ hinside
  have hplace := hwrites hfinite ⟨head, layout.firstState + row, col⟩ (hsame ▸ hinside)
  rw [hsame] at hplace
  exact hplace

/-- A step applies the program to the inputs and the state when it returns, and keeps the state
when it raises. -/
theorem advance_atomic (h : layout.Valid) (hsame : layout.output = layout.source)
    (hv : layout.source.NonOverlapping) (hcells : layout.Covers inputs cells)
    (hobeys : layout.Obeys program respond) (hne : first ≠ second) (timeoutText nonFiniteText : String) :
    Method.Atomic (Bound first second) (snapshot layout) (layout.next program inputs)
      (advance layout timeoutText nonFiniteText cells respond) := by
  intro s hs
  have hdistinct := hs.ne hne
  rcases advance_cases layout timeoutText nonFiniteText cells respond s with
    ⟨e, he⟩ | ⟨e, he⟩ | ⟨e, he⟩ | ⟨hsource, hview, herror, hfinite, hok⟩
  · exact Method.Atomic.of_error he hs rfl
  · refine Method.Atomic.of_error he (hs.with_memory _) (snapshot_congr ?_ ?_)
    · change ((s.stage layout cells).memory s.source).size = _
      rw [stage_memory_source, size_assignCells]
    · change layout.stateRows ((s.stage layout cells).memory s.source) = _
      rw [stage_memory_source, Layout.stateRows_assign h hv hcells]
  · refine Method.Atomic.of_error he (hs.with_memory _) (snapshot_congr ?_ ?_)
    · change ((worked layout cells respond s).1.memory s.source).size = _
      rw [worked_memory_source hs.output hdistinct, size_assignCells]
    · change layout.stateRows ((worked layout cells respond s).1.memory s.source) = _
      rw [worked_memory_source hs.output hdistinct, Layout.stateRows_assign h hv hcells]
  · rw [worked_memory_output hs.input hs.output hdistinct] at hfinite
    rw [stage_memory_output hdistinct] at hview
    have hmemory : (worked layout cells respond s).1.swapped.memory
        (worked layout cells respond s).1.swapped.source = left layout cells respond s :=
      worked_memory_output hs.input hs.output hdistinct
    have hfits : tensorView (left layout cells respond s) layout.source = .ok () := by
      rw [← hsame]
      exact hview
    refine Method.Atomic.of_ok hok (hs.with_memory _).swapped ?_
    rw [snapshot_of_fits (hmemory ▸ hfits), snapshot_of_fits hsource, hmemory,
      stateRows_left h hsame hv hcells hobeys hs hne hsource hview herror hfinite]
    rfl

/-- Assigning the state rows last sets the state. -/
theorem fill_atomic (h : layout.Valid) (hv : layout.source.NonOverlapping) {before : List (Place × Half)}
    {state : Tensor} (hcells : ∀ cell ∈ cells, layout.source.Inside cell.1)
    (hvalue : ∀ cell ∈ cells, ∀ row, cell.1.row = layout.firstState + row → row < layout.stateCount →
      cell.2 = state cell.1.head row cell.1.col)
    (hall : ∀ head row col, row < layout.stateCount →
      layout.source.Inside ⟨head, layout.firstState + row, col⟩ →
      (⟨head, layout.firstState + row, col⟩, state head row col) ∈ cells) :
    Method.Atomic (Bound first second) (snapshot layout) (fun _ => layout.onState state)
      (fill layout (before ++ cells)) := by
  intro s hs
  cases hview : tensorView (s.memory s.source) layout.source with
  | error e =>
    refine Method.Atomic.of_error (e := e) ?_ hs rfl
    rw [fill, Method.read_bind, hview]
    rfl
  | ok _ =>
    have hok : fill layout (before ++ cells) s = (s.stage layout (before ++ cells), .ok ()) := by
      rw [fill, Method.read_bind, hview]
      rfl
    have hmemory : (s.stage layout (before ++ cells)).memory (s.stage layout (before ++ cells)).source =
        assignCells layout.source (assignCells layout.source (s.memory s.source) before) cells := by
      refine (stage_memory_source ..).trans ?_
      rw [assignCells, List.foldl_append]
      rfl
    have hsize : layout.source.extent ≤ (assignCells layout.source (s.memory s.source) before).size := by
      rw [size_assignCells]
      exact (tensorView_eq_ok_iff.mp hview).2
    refine Method.Atomic.of_ok hok (hs.with_memory _) ?_
    rw [snapshot_of_fits hview, snapshot_of_fits, hmemory]
    · refine congrArg Except.ok (Layout.onState_congr ?_)
      intro head row col hrow hinside
      refine halfAt_assignCells_of_mem hv h.batch hsize hcells (hall head row col hrow hinside) ?_
      intro cell hcell heq
      rw [hvalue cell hcell row (by rw [heq]) hrow, heq]
    · rw [hmemory, tensorView_congr layout.source ((size_assignCells ..).trans (size_assignCells ..)), hview]

end Atomic

end PingPong

end AneLinux.Runtime
