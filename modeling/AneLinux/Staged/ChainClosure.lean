import AneLinux.Staged.Banks
import AneLinux.Staged.LanePointers

/-!
# Chain closure and the lanes of a step

The verifier goes over the manifest once: a lane source needs an earlier output of its lane, a state
needs a resident input at its in port, and two programs end a group. The runtime's lanes outlive a
step, so the reads of a step are followed here in a log of the lanes it sets and reads. A closed
manifest lets no program read a lane that the same step has not set. It says nothing about the out
ports of the states, which the manifest names in the states alone, and it does not ask any program to
produce lane `h`.
-/

namespace AneLinux.Staged

open AneLinux.Support

/-- One entry of a program's `states`. -/
structure ResidentState where
  inPort : String
  outPort : String
deriving DecidableEq, Repr

/-- One program of the manifest with its resident states and its group mark. -/
structure ChainProgram extends Program where
  states : List ResidentState
  groupEnd : Bool
deriving DecidableEq, Repr

/-- The manifest the verifier reads. -/
structure ChainManifest where
  maxLen : ℕ
  programs : List ChainProgram
deriving DecidableEq, Repr

/-- The chain of a manifest, as a step runs it. -/
def ChainManifest.chain (m : ChainManifest) : Manifest := ⟨m.maxLen, m.programs.map ChainProgram.toProgram⟩

/-- The captured checksums of one program. -/
structure Golden where
  srcs : List String
  dsts : List String
deriving DecidableEq, Repr

/-- The lane sources that neither the host nor an earlier program produces. -/
def laneProblems (index : ℕ) (produced : List String) (srcs : List Source) : List String :=
  (srcs.filter fun source => source.kind = .lane ∧ source.lane ∉ produced ∧ source.lane ≠ "x").map fun source =>
    "program " ++ toString index ++ ": lane " ++ source.lane ++ " never produced"

/-- The counts that differ from those of the captures. -/
def goldenProblems (index : ℕ) (goldens : List (String × Golden)) (program : ChainProgram) : List String :=
  match find goldens (toString index) with
  | none => []
  | some gold =>
    (if gold.srcs.length ≠ program.srcs.length then
      ["program " ++ toString index ++ ": " ++ toString program.srcs.length ++ " srcs vs goldens " ++
        toString gold.srcs.length] else []) ++
    if gold.dsts.length ≠ program.dsts.length then
      ["program " ++ toString index ++ ": " ++ toString program.dsts.length ++ " dsts vs goldens " ++
        toString gold.dsts.length] else []

/-- The ports of a program's resident inputs. -/
def residentPorts (program : Program) : List String :=
  (program.srcs.filter fun source => source.kind = .stateIn).map Source.port

/-- The states whose in port is no resident input. -/
def stateProblems (index : ℕ) (program : ChainProgram) : List String :=
  (program.states.filter fun state => state.inPort ∉ residentPorts program.toProgram).map fun state =>
    "program " ++ toString index ++ ": state in " ++ state.inPort ++ " not a src"

/-- A last output `h` outside the end of a group. -/
def outputProblems (index : ℕ) (program : ChainProgram) : List String :=
  if program.dsts.getLast?.map Dst.lane = some "h" ∧ program.groupEnd = false then
    ["program " ++ toString index ++ ": h output without group_end"]
  else
    []

/-- The loop over the programs. -/
def programProblems (goldens : List (String × Golden)) : ℕ → List String → List ChainProgram → List String
  | _, _, [] => []
  | index, produced, program :: rest =>
    laneProblems index produced program.srcs ++ goldenProblems index goldens program ++
      stateProblems index program ++ outputProblems index program ++
        programProblems goldens (index + 1) (produced ++ program.dsts.map Dst.lane) rest

/-- The programs that end a group. -/
def groupEnds (programs : List ChainProgram) : List ℕ :=
  (programs.zipIdx.filter fun entry => entry.1.groupEnd).map Prod.snd

/-- `check_chain_closure`. -/
def checkChainClosure (m : ChainManifest) (goldens : List (String × Golden)) : List String :=
  programProblems goldens 0 [] m.programs ++
    if groupEnds m.programs ≠ [20, 37] ∧ (groupEnds m.programs).length ≠ 2 then
      ["group_end programs " ++ toString (groupEnds m.programs) ++ " != 2 chunk finals"]
    else
      []

/-- The goldens capture every program of the manifest. -/
def Captured (m : ChainManifest) (goldens : List (String × Golden)) : Prop :=
  ∀ i < m.programs.length, ∃ gold, find goldens (toString i) = some gold

/-! ## The log of a step -/

/-- What a step does to its lanes. -/
inductive LaneEvent
  | set (lane : String)
  | read (lane : String)
deriving DecidableEq, Repr

/-- The state of a step and its log so far. -/
structure LoggedStep where
  state : StepState
  events : List LaneEvent

/-- Add an entry to the log. -/
def log (event : LaneEvent) : Stmt LoggedStep := Stmt.update fun t => { t with events := t.events ++ [event] }

/-- A statement of the step that the log does not see. -/
def unlogged (stmt : Stmt StepState) : Stmt LoggedStep := fun t => (⟨(stmt t.state).1, t.events⟩, (stmt t.state).2)

/-- The body of the loop over `srcs`: a lane source reads its lane. -/
def logSource (engine : Engine) (context : List (String × HalfArray)) (program : ℕ) (entry : Source × ℕ) :
    Stmt LoggedStep :=
  if entry.1.kind = .lane then
    Stmt.seq (log (.read entry.1.lane)) (unlogged (feedSource engine context program entry))
  else
    unlogged (feedSource engine context program entry)

/-- The body of the loop over `dsts`: an output that was read sets its lane. -/
def logOutput (engine : Engine) (program : ℕ) (dst : Dst) : Stmt LoggedStep :=
  Stmt.seq (unlogged (storeOutput engine program dst)) (log (.set dst.lane))

/-- The body of the loop over the programs. -/
def logProgram (m : Manifest) (call : Call) (position : ℕ) (entry : Program × ℕ) : Stmt LoggedStep :=
  Stmt.eval (fun _ => contextArrays m.maxLen position call.rope) fun context =>
    Stmt.seq (Stmt.forEach (logSource call.engine context entry.2) entry.1.srcs.zipIdx)
      (Stmt.seq (Stmt.call (call.engine.execute entry.2 (outputPorts entry.1.dsts)))
        (Stmt.forEach (logOutput call.engine entry.2) entry.1.dsts))

/-- The loop of `step` over all programs with its log, which begins with lane `x`. -/
def logPrograms (m : Manifest) (call : Call) (d : Decoder) : LoggedStep × Py Unit :=
  Stmt.forEach (logProgram m call d.position) m.programs.zipIdx
    ⟨⟨assign d.lanes "x" call.hiddenRow, []⟩, [.set "x"]⟩

/-- The lanes the programs of a step set and read. -/
def programEvents (m : Manifest) (call : Call) (d : Decoder) : List LaneEvent := (logPrograms m call d).1.events

/-- The lanes a step sets and reads: the lane it returns is read once all programs are done. -/
def stepEvents (m : Manifest) (call : Call) (d : Decoder) : List LaneEvent :=
  programEvents m call d ++ if (logPrograms m call d).2.toBool then [.read "h"] else []

/-- Every read comes after the same lane was set. -/
def ReadsAreSet (events : List LaneEvent) : Prop :=
  ∀ (k : ℕ) (lane : String), events[k]? = some (.read lane) → ∃ j < k, events[j]? = some (.set lane)

theorem unlogged_projects (stmt : Stmt StepState) : Stmt.Projects LoggedStep.state (unlogged stmt) stmt :=
  fun _ => rfl

/-- The log does not change what a step does. -/
theorem logPrograms_projects (m : Manifest) (call : Call) (d : Decoder) :
    runPrograms m call d = ((logPrograms m call d).1.state, (logPrograms m call d).2) := by
  have hsource (context : List (String × HalfArray)) (i : ℕ) (entry : Source × ℕ) :
      Stmt.Projects LoggedStep.state (logSource call.engine context i entry)
        (feedSource call.engine context i entry) := by
    unfold logSource
    split_ifs
    · exact Stmt.Projects.record (fun _ => rfl) (unlogged_projects _)
    · exact unlogged_projects _
  have houtput (i : ℕ) (dst : Dst) : Stmt.Projects LoggedStep.state (logOutput call.engine i dst)
      (storeOutput call.engine i dst) :=
    Stmt.Projects.recordAfter (fun _ => rfl) (unlogged_projects _)
  have hprogram (entry : Program × ℕ) : Stmt.Projects LoggedStep.state (logProgram m call d.position entry)
      (runProgram m call d.position entry) := by
    refine Stmt.Projects.eval (fun _ => rfl) fun context => ?_
    refine (Stmt.Projects.forEach (hsource context entry.2) _).seq ((Stmt.Projects.call _).seq ?_)
    exact Stmt.Projects.forEach (houtput entry.2) _
  exact Stmt.Projects.forEach hprogram m.programs.zipIdx ⟨⟨assign d.lanes "x" call.hiddenRow, []⟩, [.set "x"]⟩

/-! ## What the verifier checks -/

variable {i : ℕ} {m : Manifest} {d : Decoder}

section Checked

variable {goldens : List (String × Golden)}

/-- A program without problems reads produced lanes only, and its states begin at resident inputs. -/
theorem programProblems_cons_eq_nil {index : ℕ} {produced : List String} {program : ChainProgram}
    {rest : List ChainProgram} (h : programProblems goldens index produced (program :: rest) = []) :
    (∀ source ∈ program.srcs, source.kind = .lane → source.lane = "x" ∨ source.lane ∈ produced) ∧
      (∀ state ∈ program.states, state.inPort ∈ residentPorts program.toProgram) ∧
        programProblems goldens (index + 1) (produced ++ program.dsts.map Dst.lane) rest = [] := by
  rw [programProblems, List.append_eq_nil_iff, List.append_eq_nil_iff, List.append_eq_nil_iff,
    List.append_eq_nil_iff] at h
  obtain ⟨⟨⟨⟨hlanes, -⟩, hstates⟩, -⟩, hrest⟩ := h
  refine ⟨fun source hsource hkind => ?_, fun state hstate => ?_, hrest⟩
  · by_contra hnot
    rw [not_or] at hnot
    have hproblem := List.filter_eq_nil_iff.mp (List.map_eq_nil_iff.mp hlanes) source hsource
    exact hproblem (decide_eq_true ⟨hkind, hnot.2, hnot.1⟩)
  · by_contra hnot
    exact List.filter_eq_nil_iff.mp (List.map_eq_nil_iff.mp hstates) state hstate (decide_eq_true hnot)

/-- A closed program list reads only lanes of the host, of the programs already done, or of its own
earlier programs. -/
theorem programProblems_eq_nil {index : ℕ} {produced : List String} {programs : List ChainProgram}
    (h : programProblems goldens index produced programs = []) {program : ChainProgram}
    (hprogram : programs[i]? = some program) :
    (∀ source ∈ program.srcs, source.kind = .lane → source.lane = "x" ∨ source.lane ∈ produced ∨
      ∃ k < i, ∃ earlier, programs[k]? = some earlier ∧ source.lane ∈ earlier.dsts.map Dst.lane) ∧
        ∀ state ∈ program.states, state.inPort ∈ residentPorts program.toProgram := by
  induction programs generalizing index produced i with
  | nil => cases hprogram
  | cons first rest ih =>
    obtain ⟨hlanes, hstates, hrest⟩ := programProblems_cons_eq_nil h
    cases i with
    | zero =>
      obtain rfl := Option.some.inj hprogram
      exact ⟨fun source hsource hkind => (hlanes source hsource hkind).imp_right Or.inl, hstates⟩
    | succ i =>
      obtain ⟨hlanes, hstates⟩ := ih hrest hprogram
      refine ⟨fun source hsource hkind => ?_, hstates⟩
      rcases hlanes source hsource hkind with hx | hproduced | ⟨k, hk, earlier, hearlier, hlane⟩
      · exact Or.inl hx
      · rcases List.mem_append.mp hproduced with hold | hfirst
        · exact Or.inr (Or.inl hold)
        · exact Or.inr (Or.inr ⟨0, Nat.succ_pos i, first, rfl, hfirst⟩)
      · exact Or.inr (Or.inr ⟨k + 1, Nat.succ_lt_succ hk, earlier, hearlier, hlane⟩)

end Checked

/-- An output of a program gives its lane an origin for the programs after it. -/
theorem named_of_dst {k : ℕ} {program : Program} {dst : Dst} (hprogram : m.programs[i]? = some program)
    (hdst : dst ∈ program.dsts) (hk : i < k) : ∃ o, (pointersBefore m k).named dst.lane = some o := by
  obtain ⟨slot, hslot⟩ := List.mem_iff_getElem?.mp hdst
  refine pointersBefore_named hk ?_
  rw [pointersBefore_succ hprogram]
  refine foldFirst_mono (fun p => ∃ o, p.named dst.lane = some o)
    (fun p entry => Pointers.named_kept p i entry dst.lane)
    (Nat.succ_le_of_lt (List.getElem?_eq_some_iff.mp hslot).1) ?_
  rw [foldFirst_succ hslot, Pointers.named_record, if_pos rfl]
  exact ⟨_, rfl⟩

/-- Lane `x` has an origin all along. -/
theorem named_x (m : Manifest) (i : ℕ) : ∃ o, (pointersBefore m i).named "x" = some o :=
  pointersBefore_named (Nat.zero_le i) ⟨.host0, rfl⟩

/-- In a closed manifest every lane source has an origin when its program is reached. -/
theorem lanesReady_of_closed {m : ChainManifest} {goldens : List (String × Golden)}
    (h : checkChainClosure m goldens = []) (i : ℕ) : LanesReady m.chain i := by
  intro j source hsource hkind
  obtain ⟨plain, hplain, hslot⟩ := Option.bind_eq_some_iff.mp hsource
  obtain ⟨program, hprogram, rfl⟩ := Option.map_eq_some_iff.mp ((List.getElem?_map ..).symm.trans hplain)
  obtain ⟨hlanes, -⟩ := programProblems_eq_nil (List.append_eq_nil_iff.mp h).1 hprogram
  rcases hlanes source (List.mem_of_getElem? hslot) hkind with hx | hnone | ⟨k, hk, earlier, hearlier, hlane⟩
  · rw [hx]
    exact named_x m.chain i
  · cases hnone
  · obtain ⟨dst, hdst, hlane⟩ := List.mem_map.mp hlane
    rw [← hlane]
    refine named_of_dst ?_ hdst hk
    exact (List.getElem?_map ..).trans (congrArg (Option.map ChainProgram.toProgram) hearlier)

/-! ## The log of a closed chain -/

/-- An entry that is no unset read keeps every read set. -/
theorem ReadsAreSet.append {events : List LaneEvent} (h : ReadsAreSet events) {event : LaneEvent}
    (hevent : ∀ lane, event = .read lane → .set lane ∈ events) : ReadsAreSet (events ++ [event]) := by
  intro k lane hread
  have hold (j : ℕ) (hj : j < events.length) (found : LaneEvent) (h : events[j]? = some found) :
      (events ++ [event])[j]? = some found :=
    (List.getElem?_append_left hj).trans h
  rcases Nat.lt_or_ge k events.length with hk | hk
  · rw [List.getElem?_append_left hk] at hread
    obtain ⟨j, hj, hset⟩ := h k lane hread
    exact ⟨j, hj, hold j (hj.trans hk) _ hset⟩
  · have hlast := (List.getElem?_eq_some_iff.mp hread).1
    rw [List.length_append, List.length_singleton] at hlast
    obtain rfl : k = events.length := by omega
    rw [List.getElem?_concat_length] at hread
    obtain ⟨j, hset⟩ := List.mem_iff_getElem?.mp (hevent lane (Option.some.inj hread))
    have hj := (List.getElem?_eq_some_iff.mp hset).1
    exact ⟨j, hj, hold j hj _ hset⟩

/-- The lanes track the pointers, every lane with an origin was set, and every read came after. -/
structure Logged (m : Manifest) (call : Call) (held : List (String × HalfArray)) (p : Pointers)
    (t : LoggedStep) : Prop where
  tracks : Tracks m call held p t.state.lanes
  announced : ∀ lane, (∃ o, p.named lane = some o) → .set lane ∈ t.events
  settled : ReadsAreSet t.events

section Runs

variable {call : Call} {held : List (String × HalfArray)} {p : Pointers}

/-- Feeding a source leaves the lanes alone. -/
theorem feedSource_lanes (engine : Engine) (context : List (String × HalfArray)) (program : ℕ)
    (entry : Source × ℕ) (s : StepState) : (feedSource engine context program entry s).1.lanes = s.lanes := by
  obtain ⟨source, slot⟩ := entry
  cases hkind : source.kind with
  | stateIn =>
    rw [feedSource_of_stateIn hkind]
    rfl
  | lane =>
    rw [feedSource_of_lane hkind]
    unfold Stmt.eval
    dsimp only
    cases lookup s.lanes source.lane source.lane with
    | ok value => rfl
    | error e => rfl
  | ctx =>
    rw [feedSource_of_ctx hkind]
    unfold Stmt.eval
    dsimp only
    cases contextValue context source with
    | ok value => rfl
    | error e => rfl

/-- Feeding a source keeps the log in order; a lane source has an origin when it is reached. -/
theorem logSource_logged {engine : Engine} {context : List (String × HalfArray)} {entry : Source × ℕ}
    (hready : entry.1.kind = .lane → ∃ o, p.named entry.1.lane = some o) :
    Stmt.Triple (Logged m call held p) (logSource engine context i entry) (Logged m call held p)
      fun t => ReadsAreSet t.events := by
  have hfeed : Stmt.Triple (Logged m call held p) (unlogged (feedSource engine context i entry))
      (Logged m call held p) fun t => ReadsAreSet t.events := by
    intro t ht
    have hlanes := feedSource_lanes engine context i entry t.state
    unfold unlogged
    rcases hfed : feedSource engine context i entry t.state with ⟨s, outcome⟩
    rw [hfed] at hlanes
    cases outcome with
    | ok _ => exact ⟨hlanes ▸ ht.tracks, ht.announced, ht.settled⟩
    | error e => exact ht.settled
  unfold logSource
  split_ifs with hkind
  · refine Stmt.Triple.seq (Stmt.Triple.update fun t ht => ?_) hfeed
    refine ⟨ht.tracks, fun lane hlane => List.mem_append_left _ (ht.announced lane hlane), ?_⟩
    apply ht.settled.append
    intro lane hread
    obtain rfl := LaneEvent.read.inj hread
    exact ht.announced _ (hready hkind)
  · exact hfeed

/-- Storing an output records its slot and sets its lane. -/
theorem logOutput_logged {slot : ℕ} {dst : Dst} (hdst : m.dst i slot = some dst) :
    Stmt.Triple (Logged m call held p) (logOutput call.engine i dst) (Logged m call held (p.record i (dst, slot)))
      fun t => ReadsAreSet t.events := by
  intro t ht
  unfold logOutput Stmt.seq unlogged storeOutput Stmt.eval
  cases hread : call.engine.readOutput i dst.port dst.shape with
  | error e => exact ht.settled
  | ok value =>
    refine ⟨ht.tracks.record hdst hread, fun lane hlane => ?_, ?_⟩
    · rw [Pointers.named_record] at hlane
      split_ifs at hlane with hsame
      · rw [← hsame]
        exact List.mem_append_right _ List.mem_cons_self
      · exact List.mem_append_left _ (ht.announced lane hlane)
    · apply ht.settled.append
      intro lane h
      cases h

/-- One program of a closed chain: the step comes to the next one with its log in order, or raises. -/
theorem logProgram_logged {position : ℕ} {program : Program} (hprogram : m.programs[i]? = some program)
    (hready : LanesReady m i) :
    Stmt.Triple (Logged m call held (pointersBefore m i)) (logProgram m call position (program, i))
      (Logged m call held (pointersBefore m (i + 1))) fun t => ReadsAreSet t.events := by
  unfold logProgram
  refine Stmt.Triple.eval (fun t e ht _ => ht.settled) fun context => ?_
  have hfeed := @Stmt.Triple.enumerate _ _ (fun t => ReadsAreSet t.events) (logSource call.engine context i)
    program.srcs (fun _ => Logged m call held (pointersBefore m i)) fun j source hslot =>
      logSource_logged fun hkind => hready j source ((Manifest.source_of_program hprogram j).trans hslot) hkind
  have hexecute : Stmt.Triple (Logged m call held (pointersBefore m i))
      (Stmt.call (call.engine.execute i (outputPorts program.dsts))) (Logged m call held (pointersBefore m i))
      fun t => ReadsAreSet t.events :=
    Stmt.Triple.call (fun _ ht => ht) fun t e _ ht => ht.settled
  have hstore := @Stmt.Triple.forEach _ _ (fun t => ReadsAreSet t.events) (logOutput call.engine i) program.dsts
    (fun slot => Logged m call held (foldFirst (Pointers.record i) (pointersBefore m i) program.dsts slot))
    fun slot dst hslot => by
      rw [foldFirst_succ hslot]
      exact logOutput_logged ((Manifest.dst_of_program hprogram slot).trans hslot)
  rw [← pointersBefore_succ hprogram] at hstore
  exact (hfeed.seq (hexecute.seq hstore)).strengthen_pre fun t ht => ht.1

end Runs

/-- A whole step of a closed chain: it ends with its log in order, whichever way it ends. -/
theorem logPrograms_logged (hready : ∀ i, LanesReady m i) (call : Call) (d : Decoder) :
    ReadsAreSet (programEvents m call d) ∧ ((logPrograms m call d).2 = .ok () →
      Logged m call d.lanes (pointersBefore m m.programs.length) (logPrograms m call d).1) := by
  have hloop := @Stmt.Triple.enumerate _ _ (fun t => ReadsAreSet t.events) (logProgram m call d.position) m.programs
    (fun i => Logged m call d.lanes (pointersBefore m i)) fun i program hprogram =>
      logProgram_logged hprogram (hready i)
  have hstart : Logged m call d.lanes (pointersBefore m 0)
      ⟨⟨assign d.lanes "x" call.hiddenRow, []⟩, [.set "x"]⟩ := by
    refine ⟨Tracks.start m call d.lanes, fun lane hlane => ?_, ?_⟩
    · obtain ⟨o, ho⟩ := hlane
      change Pointers.start.named lane = some o at ho
      simp only [Pointers.named, Pointers.start, find] at ho
      split_ifs at ho with hx
      rw [hx]
      exact List.mem_cons_self
    · exact @ReadsAreSet.append [] (fun k lane h => by cases h) (.set "x") fun lane h => by cases h
  have hend := hloop _ hstart
  unfold programEvents
  have hwhole : Stmt.forEach (logProgram m call d.position) m.programs.zipIdx
      ⟨⟨assign d.lanes "x" call.hiddenRow, []⟩, [.set "x"]⟩ = logPrograms m call d := rfl
  rw [hwhole] at hend
  rcases hrun : logPrograms m call d with ⟨t, outcome⟩
  rw [hrun] at hend
  cases outcome with
  | ok _ => exact ⟨hend.settled, fun _ => hend⟩
  | error e => exact ⟨hend, fun h => by cases h⟩

/-! ## The lanes a decoder holds -/

/-- Every held lane is the host's or has an output of its name in the chain. -/
def HeldNamed (m : Manifest) (lanes : List (String × HalfArray)) : Prop :=
  ∀ lane value, find lanes lane = some value → ∃ o, (pointersBefore m m.programs.length).named lane = some o

/-- Storing under a named lane keeps the held lanes named. -/
theorem HeldNamed.assign {lanes : List (String × HalfArray)} (h : HeldNamed m lanes) {lane : String}
    (hlane : ∃ o, (pointersBefore m m.programs.length).named lane = some o) (value : HalfArray) :
    HeldNamed m (assign lanes lane value) := by
  intro other found hfound
  rw [find_assign] at hfound
  split_ifs at hfound with hsame
  · exact hsame ▸ hlane
  · exact h other found hfound

/-- A step stores outputs of the chain only. -/
theorem runPrograms_heldNamed (call : Call) (h : HeldNamed m d.lanes) :
    HeldNamed m (runPrograms m call d).1.lanes := by
  have hprogram (i : ℕ) (program : Program) (hprogram : m.programs[i]? = some program) :
      Stmt.Triple (fun s => HeldNamed m s.lanes) (runProgram m call d.position (program, i))
        (fun s => HeldNamed m s.lanes) fun s => HeldNamed m s.lanes := by
    refine Stmt.Triple.eval (fun _ _ hs _ => hs) fun context => ?_
    have hfeed (j : ℕ) (source : Source) (_ : program.srcs[j]? = some source) :
        Stmt.Triple (fun s => HeldNamed m s.lanes) (feedSource call.engine context i (source, j))
          (fun s => HeldNamed m s.lanes) fun s => HeldNamed m s.lanes := by
      intro s hs
      have hlanes := feedSource_lanes call.engine context i (source, j) s
      rcases hfed : feedSource call.engine context i (source, j) s with ⟨s', outcome⟩
      have hkept : HeldNamed m s'.lanes := by
        rw [hfed] at hlanes
        rw [hlanes]
        exact hs
      cases outcome with
      | ok _ => exact hkept
      | error e => exact hkept
    have hstore (slot : ℕ) (dst : Dst) (hdst : program.dsts[slot]? = some dst) :
        Stmt.Triple (fun s => HeldNamed m s.lanes) (storeOutput call.engine i dst)
          (fun s => HeldNamed m s.lanes) fun s => HeldNamed m s.lanes := by
      refine Stmt.Triple.eval (fun _ _ hs _ => hs) fun value => Stmt.Triple.update fun s hs => ?_
      exact hs.1.assign (named_of_dst hprogram (List.mem_of_getElem? hdst)
        (List.getElem?_eq_some_iff.mp hprogram).1) value
    have hsources := Stmt.Triple.enumerate hfeed
    have hexecute : Stmt.Triple (fun s : StepState => HeldNamed m s.lanes)
        (Stmt.call (call.engine.execute i (outputPorts program.dsts))) (fun s => HeldNamed m s.lanes)
        fun s => HeldNamed m s.lanes :=
      Stmt.Triple.call (fun _ hs => hs) fun _ _ _ hs => hs
    have hstores := Stmt.Triple.forEach hstore
    exact (hsources.seq (hexecute.seq hstores)).strengthen_pre fun s hs => hs.1
  have hloop := Stmt.Triple.enumerate hprogram
  have hstart : HeldNamed m (Support.assign d.lanes "x" call.hiddenRow) := h.assign (named_x m _) _
  exact Stmt.Triple.always hloop hstart

/-- Over any sequence of steps and resets the held lanes are named. -/
theorem Reachable.heldNamed (h : Reachable m d) : HeldNamed m d.lanes := by
  have hinitial : HeldNamed m Decoder.initial.lanes := by
    intro lane value hvalue
    cases hvalue
  induction h with
  | initial => exact hinitial
  | @step d call _ ih =>
    have hkept := runPrograms_heldNamed call ih
    unfold Staged.step
    rcases hrun : runPrograms m call d with ⟨s, outcome⟩
    rw [hrun] at hkept
    cases outcome with
    | ok _ => exact hkept
    | error e => exact hkept
  | reset _ _ => exact hinitial

/-- A step that returns has its programs done, and returns what lane `h` holds then. -/
theorem step_result_eq_ok {call : Call} {values : List Half} (h : (step m call d).result = .ok values) :
    (logPrograms m call d).2 = .ok () ∧
      ∃ value, find (logPrograms m call d).1.state.lanes "h" = some value ∧ value.data = values := by
  unfold step at h
  rw [logPrograms_projects] at h
  rcases hrun : logPrograms m call d with ⟨t, outcome⟩
  rw [hrun] at h
  cases outcome with
  | error e => cases h
  | ok _ =>
    dsimp only at h
    cases hlookup : lookup t.state.lanes "h" "h" with
    | error e =>
      rw [hlookup] at h
      cases h
    | ok value =>
      rw [hlookup] at h
      exact ⟨rfl, value, lookup_eq_ok.mp hlookup, Except.ok.inj h⟩

/-! ## Soundness -/

/-- Register the resident states of a program. -/
def addStates (loaded : StagedProgram) (states : List ResidentState) : Py StagedProgram :=
  states.foldlM (fun p state => p.addState state.inPort state.outPort) loaded

/-- The loaded program binds a port to a channel with a window. -/
def BindsPort (loaded : StagedProgram) (port : String) : Prop :=
  ∃ channel total, find loaded.binding port = some channel ∧ find loaded.window channel = some total

/-- A program whose states were registered binds both ports of every state. -/
theorem addStates_binds {states : List ResidentState} {loaded built : StagedProgram}
    (h : addStates loaded states = .ok built) :
    ∀ state ∈ states, BindsPort loaded state.inPort ∧ BindsPort loaded state.outPort := by
  unfold addStates at h
  induction states generalizing loaded with
  | nil =>
    intro state hstate
    cases hstate
  | cons first rest ih =>
    rw [List.foldlM_cons] at h
    obtain ⟨next, hfirst, hrest⟩ := bind_eq_ok.mp h
    obtain ⟨inChannel, hin, hfirst⟩ := bind_eq_ok.mp hfirst
    obtain ⟨inTotal, hinWindow, hfirst⟩ := bind_eq_ok.mp hfirst
    obtain ⟨outChannel, hout, hfirst⟩ := bind_eq_ok.mp hfirst
    obtain ⟨outTotal, houtWindow, hfirst⟩ := bind_eq_ok.mp hfirst
    obtain rfl := Except.ok.inj hfirst
    intro state hstate
    rcases List.mem_cons.mp hstate with rfl | hstate
    · exact ⟨⟨inChannel, inTotal, lookup_eq_ok.mp hin, lookup_eq_ok.mp hinWindow⟩,
        outChannel, outTotal, lookup_eq_ok.mp hout, lookup_eq_ok.mp houtWindow⟩
    · exact ih hrest state hstate

/-- What a closed manifest guarantees: no program reads a lane that the same step has not set; every
state begins at a resident input, and both its ports are bound in a program that was built; and a lane
`h` that a step returns was set in that step and is the latest output of its name. -/
structure ClosedChain (m : ChainManifest) : Prop where
  reads : ∀ d, Reachable m.chain d → ∀ call, ReadsAreSet (programEvents m.chain call d)
  inPorts : ∀ program ∈ m.programs, ∀ state ∈ program.states, state.inPort ∈ residentPorts program.toProgram
  bound : ∀ program ∈ m.programs, ∀ loaded built, addStates loaded program.states = .ok built →
    ∀ state ∈ program.states, BindsPort loaded state.inPort ∧ BindsPort loaded state.outPort
  returned : ∀ d, Reachable m.chain d → ∀ call values, (step m.chain call d).result = .ok values →
    .set "h" ∈ programEvents m.chain call d ∧ ∃ o value, originValue m.chain call o = some value ∧
      (pointersBefore m.chain m.chain.programs.length).named "h" = some o ∧ value.data = values

/-- A manifest without closure problems is a closed chain. -/
theorem checkChainClosure_sound (m : ChainManifest) (goldens : List (String × Golden))
    (h : checkChainClosure m goldens = []) : ClosedChain m := by
  have hready := lanesReady_of_closed h
  refine ⟨fun d _ call => (logPrograms_logged hready call d).1, fun program hprogram => ?_,
    fun _ _ _ _ hbuilt => addStates_binds hbuilt, fun d hd call values hresult => ?_⟩
  · obtain ⟨i, hi⟩ := List.mem_iff_getElem?.mp hprogram
    exact (programProblems_eq_nil (List.append_eq_nil_iff.mp h).1 hi).2
  · obtain ⟨hdone, value, hvalue, hdata⟩ := step_result_eq_ok hresult
    have hlogged := (logPrograms_logged hready call d).2 hdone
    have hnamed : ∃ o, (pointersBefore m.chain m.chain.programs.length).named "h" = some o := by
      cases hnone : (pointersBefore m.chain m.chain.programs.length).named "h" with
      | some o => exact ⟨o, rfl⟩
      | none =>
        rw [hlogged.tracks.untouched "h" hnone] at hvalue
        exact hnone ▸ hd.heldNamed "h" value hvalue
    refine ⟨hlogged.announced "h" hnamed, ?_⟩
    obtain ⟨o, ho⟩ := hnamed
    obtain ⟨found, horigin, hfound⟩ := hlogged.tracks.produced "h" o ho
    obtain rfl := Option.mem_unique hfound hvalue
    exact ⟨o, found, horigin, ho, hdata⟩

/-- The ports of a program. -/
def ports (program : Program) : List String := program.srcs.map Source.port ++ program.dsts.map Dst.port

/-- The closure a reader of the verifier expects: no read of a step, the one of lane `h` included,
finds a lane the step has not set, both ports of every state are ports of the program, and a step that
returns has set lane `h`. -/
structure FullyClosed (m : ChainManifest) : Prop where
  reads : ∀ d, Reachable m.chain d → ∀ call, ReadsAreSet (stepEvents m.chain call d)
  ports : ∀ program ∈ m.programs, ∀ state ∈ program.states,
    state.inPort ∈ ports program.toProgram ∧ state.outPort ∈ ports program.toProgram
  returned : ∀ d, Reachable m.chain d → ∀ call values, (step m.chain call d).result = .ok values →
    .set "h" ∈ programEvents m.chain call d

/-- A call with one hidden value and an engine that returns zeros. -/
def zeroCall : Call where
  hidden := [halfOne]
  rope := ⟨[HalfArray.full [1] halfZero], [HalfArray.full [1] halfZero]⟩
  engine :=
    { writeBank := fun _ _ _ => .ok ()
      execute := fun _ _ => .ok ()
      readOutput := fun _ _ shape => .ok (HalfArray.full shape halfZero)
      readOutput_shape := by
        intro program port shape value h
        cases h
        rfl }

/-- Two programs, the first with a resident state; the second one's output goes to the given lane. -/
def twoPrograms (lane : String) : ChainManifest where
  maxLen := 1
  programs := [
    { srcs := [⟨"hidden", .lane, "x", [1, 1]⟩, ⟨"state_in", .stateIn, "state0", [1]⟩]
      dsts := [⟨"out", "y", [1, 1]⟩]
      states := [⟨"state_in", "state_out"⟩]
      groupEnd := true },
    { srcs := [⟨"in", .lane, "y", [1, 1]⟩]
      dsts := [⟨"out", lane, [1, 1]⟩]
      states := []
      groupEnd := true }]

/-- The captures of the two programs. -/
def twoGoldens : List (String × Golden) := [("0", ⟨["a", "b"], ["c"]⟩), ("1", ⟨["c"], ["d"]⟩)]

theorem checkChainClosure_sound_two : checkChainClosure (twoPrograms "h") twoGoldens = [] ∧
    (step (twoPrograms "h").chain zeroCall Decoder.initial).result = .ok [halfZero] ∧
      .set "h" ∈ programEvents (twoPrograms "h").chain zeroCall Decoder.initial := by
  have hclosed : checkChainClosure (twoPrograms "h") twoGoldens = [] := by decide +kernel
  have hresult : (step (twoPrograms "h").chain zeroCall Decoder.initial).result = .ok [halfZero] := rfl
  exact ⟨hclosed, hresult,
    ((checkChainClosure_sound _ _ hclosed).returned _ .initial zeroCall _ hresult).1⟩

/-- A manifest without closure problems whose second program writes lane `z`: the out port of the
state is no port of its program, no program sets lane `h`, and a step fails when it reads it. -/
theorem checkChainClosure_misses_h : checkChainClosure (twoPrograms "z") twoGoldens = [] ∧
    Captured (twoPrograms "z") twoGoldens ∧
    (step (twoPrograms "z").chain zeroCall Decoder.initial).result = .error (.keyError "h") ∧
    ¬ ReadsAreSet (stepEvents (twoPrograms "z").chain zeroCall Decoder.initial) ∧
    ¬ (∀ program ∈ (twoPrograms "z").programs, ∀ state ∈ program.states,
      state.outPort ∈ ports program.toProgram) ∧ ¬ FullyClosed (twoPrograms "z") := by
  have hports : ¬ (∀ program ∈ (twoPrograms "z").programs, ∀ state ∈ program.states,
      state.outPort ∈ ports program.toProgram) := by decide
  have hcaptured : Captured (twoPrograms "z") twoGoldens := by
    intro i hi
    rcases Nat.le_one_iff_eq_zero_or_eq_one.mp (Nat.lt_succ_iff.mp hi) with rfl | rfl
    · exact ⟨⟨["a", "b"], ["c"]⟩, by decide⟩
    · exact ⟨⟨["c"], ["d"]⟩, by decide⟩
  have hevents : stepEvents (twoPrograms "z").chain zeroCall Decoder.initial =
      [.set "x", .read "x", .set "y", .read "y", .set "z", .read "h"] := rfl
  have hreads : ¬ ReadsAreSet (stepEvents (twoPrograms "z").chain zeroCall Decoder.initial) := by
    intro h
    rw [hevents] at h
    obtain ⟨j, -, hset⟩ := h 5 "h" rfl
    exact absurd (List.mem_of_getElem? hset) (by decide)
  exact ⟨by decide +kernel, hcaptured, rfl, hreads, hports,
    fun h => hports fun program hprogram state hstate => (h.ports program hprogram state hstate).2⟩

end AneLinux.Staged
