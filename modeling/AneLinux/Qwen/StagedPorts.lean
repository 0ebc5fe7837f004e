import AneLinux.Support.Dict
import Mathlib.Data.List.Perm.Subperm

/-!
# Ports of a staged program

The export writes for every chunk of the decoder which of its ports are lanes, context or resident states, and the
runner moves arrays by what the manifest says. The manifest numbers the states by the order of the input ports, and the
runner takes the outputs of a program to be its lanes and then its states, the latter in the order of the states map.
The pairs of state ports, which the manifest also has, are not read for their names.
-/

namespace AneLinux.Qwen.StagedPorts

open AneLinux.Support

variable {π α : Type} [DecidableEq π]

/-! ## The export -/

/-- A chunk: the ports of its net, each with the shape of its tensor, and what its dictionary `p` says about ports. -/
structure Chunk (π : Type) where
  inputPorts : List (List ℕ × π)
  outputPorts : List (List ℕ × π)
  x : List (String × π)
  h : List (String × π)
  /-- The entries for the names in `CTX` and for `wpe_pos`. -/
  context : List (String × π)
  states : List (π × List ℕ)
  groupStart : Bool
  groupEnd : Bool
  inputs_nodup : (inputPorts.map Prod.snd).Nodup
  outputs_nodup : (outputPorts.map Prod.snd).Nodup
  h_nodup : (h.map Prod.fst).Nodup
  states_nodup : (states.map Prod.fst).Nodup

inductive Kind
  | lane | ctx | stateIn
deriving DecidableEq

structure Src (π : Type) where
  port : π
  kind : Kind
  lane : String
  shape : List ℕ

structure Dst (π : Type) where
  port : π
  lane : String
  shape : List ℕ

structure StatePair (π : Type) where
  inPort : π
  inShape : List ℕ
  outPort : π
  outShape : List ℕ

/-- A program of the manifest. -/
structure Program (π : Type) where
  srcs : List (Src π)
  dsts : List (Dst π)
  states : List (StatePair π)
  groupStart : Bool
  groupEnd : Bool

/-- `CTX`. -/
def contextNames : List String := ["oh", "inv", "mask", "cosp", "sinp"]

/-- `f"state{k}"`. -/
def stateName (k : ℕ) : String := "state" ++ toString k

namespace Chunk

/-- `role`: what the ports other than states are. -/
def role (c : Chunk π) : List (π × Kind × String) :=
  let lanes := (c.x ++ c.h).foldl (fun role entry => assign role entry.2 (.lane, entry.1)) []
  (contextNames ++ ["wpe_pos"]).foldl (fun role name =>
    match find c.context name with
    | some port => assign role port (.ctx, name)
    | none => role) lanes

/-- `inv_h`: the name of the lane at a port. -/
def invH (c : Chunk π) : List (π × String) := dict (c.h.map Prod.swap)

/-- The loop over the input ports; `seenState` has the state ports before. -/
def exportSrcs [ToString π] (c : Chunk π) : List (List ℕ × π) → List π → Py (List (Src π))
  | [], _ => return []
  | (shape, port) :: rest, seenState =>
    match find c.states port with
    | some stateShape => do
      let seenState := if port ∈ seenState then seenState else seenState ++ [port]
      let srcs ← c.exportSrcs rest seenState
      return ⟨port, .stateIn, stateName (seenState.length - 1), stateShape⟩ :: srcs
    | none => do
      let (kind, lane) ← lookup c.role port (toString port)
      let srcs ← c.exportSrcs rest seenState
      return ⟨port, kind, lane, shape⟩ :: srcs

/-- The lanes among the output ports; the ports of `inv_h` are those in `h_ports`. -/
def exportDsts (c : Chunk π) : List (Dst π) := c.outputPorts.filterMap fun out =>
  (find c.invH out.2).map fun lane => ⟨out.2, lane, out.1⟩

/-- The other output ports, `state_outs`. -/
def stateOuts (c : Chunk π) : List (List ℕ × π) := c.outputPorts.filter fun out => find c.invH out.2 = none

/-- The entry of the manifest for chunk number `ci`. -/
def toProgram [ToString π] (c : Chunk π) (ci : ℕ) : Py (Program π) := do
  let srcs ← c.exportSrcs c.inputPorts []
  if c.states.length ≠ c.stateOuts.length then
    throw (.assertionError ("chunk " ++ toString ci ++ ": " ++ toString c.states.length ++ " state ins vs " ++
      toString c.stateOuts.length ++ " outs"))
  return {
    srcs, dsts := c.exportDsts
    states := (c.states.zip c.stateOuts).map fun pair => ⟨pair.1.1, pair.1.2, pair.2.2, pair.2.1⟩
    groupStart := c.groupStart, groupEnd := c.groupEnd }

end Chunk

/-! ## The runner -/

/-- The array package: a cast to halves, arrays of zeros, the number of elements, another shape, and the flat array of
32-bit floats. -/
structure Numpy (α : Type) where
  asHalf : α → α
  zeros : List ℕ → α
  size : α → ℕ
  reshape : α → List ℕ → α
  flatFloat : α → α

/-- A program that is open: its entry in the manifest, the surfaces of its sources, and how it computes. -/
structure Opened (π α : Type) where
  program : Program π
  srcNchw : List (List ℕ)
  predict : List α → List α

def asSurface (np : Numpy α) (arr : α) (nchw : List ℕ) (what : String) (pi : ℕ) : Py α :=
  let want := nchw.take 4
  let flat := np.asHalf arr
  if np.size flat ≠ want.prod then
    throw (.runtimeError ("prog " ++ toString pi ++ " " ++ what ++ ": lane " ++ toString (np.size flat) ++
      " elems vs surface " ++ toString want.prod ++ " (" ++ shapeText want ++
      ") -- padded surface needs a de-stride path"))
  else return np.reshape flat want

/-- `Chain.reset_states`, for one program. -/
def resetStates (np : Numpy α) (pr : Program π) : List (String × α) :=
  dict (pr.states.zipIdx.map fun st => (stateName st.2, np.zeros st.1.inShape))

/-- The array of a source, from the states, the context or the lanes. -/
def sourceOf (states vals hs : List (String × α)) (s : Src π) : Py α :=
  match s.kind with
  | .stateIn => lookup states s.lane s.lane
  | .ctx => lookup vals s.lane s.lane
  | .lane => lookup hs s.lane s.lane

/-- The sources of a program, put into its surfaces. -/
def sourcesFrom (np : Numpy α) (srcNchw : List (List ℕ)) (pi : ℕ) (states vals hs : List (String × α)) :
    ℕ → List (Src π) → Py (List α)
  | _, [] => return []
  | i, s :: rest => do
    let arr ← sourceOf states vals hs s
    let nchw ← index srcNchw i
    let sv ← asSurface np arr nchw s.lane pi
    let srcs ← sourcesFrom np srcNchw pi states vals hs (i + 1) rest
    return sv :: srcs

/-- What `step` does with the outputs of a program: the first ones are its lanes, the others its states. -/
def storeStates (np : Numpy α) (outs : List α) (nd : ℕ) : ℕ → List (StatePair π) → List (String × α) →
    Py (List (String × α))
  | _, [], states => return states
  | k, _ :: rest, states => do
    let arr ← index outs (nd + k)
    storeStates np outs nd (k + 1) rest (assign states (stateName k) (np.asHalf arr))

def storeLanes (pr : Program π) (outs : List α) (hs : List (String × α)) : List (String × α) :=
  (pr.dsts.zip (outs.take pr.dsts.length)).foldl (fun hs x => assign hs x.1.lane x.2) hs

/-- What a run of a program leaves: what it was fed, what it returned, and the lanes and its states afterwards. -/
structure Ran (α : Type) where
  srcs : List α
  outs : List α
  hs : List (String × α)
  states : List (String × α)

/-- One program of a step. -/
def runProgram (np : Numpy α) (opened : Opened π α) (pi : ℕ) (vals hs states : List (String × α)) : Py (Ran α) := do
  let srcs ← sourcesFrom np opened.srcNchw pi states vals hs 0 opened.program.srcs
  let outs := opened.predict srcs
  let nd := opened.program.dsts.length
  let states ← storeStates np outs nd 0 opened.program.states states
  return ⟨srcs, outs, storeLanes opened.program outs hs, states⟩

/-- The hidden array after a program, which the last one of a group replaces. -/
def hiddenAfter (pr : Program π) (hs : List (String × α)) (hidden : α) : Py α :=
  if pr.groupEnd then lookup hs "h" "h" else return hidden

/-- The loop of `Chain.step` over the programs and their states, from program number `pi` on: the hidden array, and what
every program left. -/
def stepLoop (np : Numpy α) (vals : List (String × α)) :
    ℕ → List (Opened π α × List (String × α)) → List (String × α) → α → Py (α × List (Ran α))
  | _, [], _, hidden => return (hidden, [])
  | pi, (opened, states) :: rest, hs, hidden => do
    let hs := if opened.program.groupStart then assign hs "x" hidden else hs
    let ran ← runProgram np opened pi vals hs states
    let hidden ← hiddenAfter opened.program ran.hs hidden
    let (hidden, rans) ← stepLoop np vals (pi + 1) rest ran.hs hidden
    return (hidden, ran :: rans)

/-- `Chain.step` on the states of all programs, for the context of a position and the embedding of a token; the new
states are those that the programs left. -/
def step (np : Numpy α) (programs : List (Opened π α)) (vals : List (String × α)) (embedded : α)
    (states : List (List (String × α))) : Py (α × List (Ran α)) := do
  let (hidden, rans) ← stepLoop np vals 0 (programs.zip states) [] embedded
  return (np.flatFloat hidden, rans)

/-! ## Agreement -/

/-- What the manifest and the runner are for, for the outputs of one run of a program: every lane has the output of
its port, and a state port is read as the output of the port it is paired with. -/
structure PortsAgree (np : Numpy α) (c : Chunk π) (program : Program π) (out : π → α)
    (hs' states' : List (String × α)) : Prop where
  lanes : ∀ entry ∈ c.h, entry.2 ∈ c.outputPorts.map Prod.snd → find hs' entry.1 = some (out entry.2)
  fed : ∀ pair ∈ program.states, ∀ src ∈ program.srcs, src.port = pair.inPort → ∀ vals hs,
    sourceOf states' vals hs src = .ok (np.asHalf (out pair.outPort))

/-- The outputs in the order of the output ports. -/
def Chunk.outsOf (c : Chunk π) (out : π → α) : List α := c.outputPorts.map fun port => out port.2

/-- The ports agree whatever the outputs are, and whatever is there before. -/
def Agrees (np : Numpy α) (c : Chunk π) (program : Program π) : Prop :=
  ∀ (out : π → α) (hs states : List (String × α)), ∃ states',
    storeStates np (c.outsOf out) program.dsts.length 0 program.states states = .ok states' ∧
      PortsAgree np c program out (storeLanes program (c.outsOf out) hs) states'

/-- The lanes among the output ports come before the states. -/
def Chunk.LanesFirst (c : Chunk π) : Prop :=
  ∃ lanes states, c.outputPorts.map Prod.snd = lanes ++ states ∧ (∀ p ∈ lanes, p ∈ c.h.map Prod.snd) ∧
    ∀ p ∈ states, p ∉ c.h.map Prod.snd

/-- The condition: lanes first, no two lanes on one output port, and the state ports among the input ports are the first
ones of the states map, in its order. -/
structure Aligned (c : Chunk π) : Prop where
  lanesFirst : c.LanesFirst
  ownPort : ∀ entry ∈ c.h, ∀ entry' ∈ c.h, entry.2 ∈ c.outputPorts.map Prod.snd → entry.2 = entry'.2 → entry = entry'
  stateOrder : (c.inputPorts.map Prod.snd).filter (· ∈ c.states.map Prod.fst) <+: c.states.map Prod.fst

/-! ## What is exported -/

variable {c : Chunk π} {port : π} {dst : Dst π} {j i : ℕ} {np : Numpy α} {ran : Ran α}

section Export

variable {name : String}

/-- State names are distinct. -/
theorem stateName_injective : Function.Injective stateName := by
  intro j k h
  have htext := congrArg String.toList ((String.append_right_inj _).mp h)
  rw [Nat.toString_eq_repr, Nat.toString_eq_repr, Nat.repr, Nat.repr, String.toList_ofList,
    String.toList_ofList] at htext
  rw [← Nat.ofDigitChars_ten_toDigits (n := j), htext, Nat.ofDigitChars_ten_toDigits]

/-- The lane at a port has the port. -/
theorem Chunk.mem_h_of_find_invH (h : find c.invH port = some name) : (name, port) ∈ c.h := by
  rw [invH, find_dict] at h
  obtain ⟨⟨lane, place⟩, hentry, heq⟩ := List.mem_map.mp (List.mem_reverse.mp (mem_of_find h))
  obtain ⟨rfl, rfl⟩ := Prod.mk.inj heq
  exact hentry

/-- When a port carries no lane. -/
theorem Chunk.find_invH_eq_none_iff : find c.invH port = none ↔ port ∉ c.h.map Prod.snd := by
  rw [invH, find_dict, find_eq_none_iff, List.map_reverse, List.mem_reverse, List.map_map]
  rfl

omit [DecidableEq π] in
theorem Chunk.port_eq_of_mem_h {entry entry' : String × π} (h : entry ∈ c.h) (h' : entry' ∈ c.h)
    (hname : entry.1 = entry'.1) : entry = entry' :=
  List.inj_on_of_nodup_map c.h_nodup h h' hname

/-- The ports of the lanes of the manifest. -/
theorem Chunk.map_port_exportDsts :
    c.exportDsts.map Dst.port = (c.outputPorts.map Prod.snd).filter (· ∈ c.h.map Prod.snd) := by
  rw [exportDsts]
  induction c.outputPorts with
  | nil => rfl
  | cons out rest ih =>
    rw [List.map_cons]
    cases hfind : find c.invH out.2 with
    | none =>
      rw [List.filterMap_cons_none (by rw [hfind]; rfl), ih,
        List.filter_cons_of_neg (by simpa using find_invH_eq_none_iff.mp hfind)]
    | some lane =>
      have hmem : out.2 ∈ c.h.map Prod.snd := List.mem_map.mpr ⟨_, mem_h_of_find_invH hfind, rfl⟩
      rw [List.filterMap_cons_some (by rw [hfind]; rfl), List.map_cons, ih,
        List.filter_cons_of_pos (by simpa using hmem)]

/-- The state outputs carry no lane. -/
theorem Chunk.map_port_stateOuts :
    c.stateOuts.map Prod.snd = (c.outputPorts.map Prod.snd).filter (· ∉ c.h.map Prod.snd) := by
  rw [stateOuts, List.filter_map]
  congr 1
  refine List.filter_congr fun out _ => ?_
  rw [Function.comp_apply, decide_eq_decide, find_invH_eq_none_iff]

/-- An exported lane is found by its port. -/
theorem Chunk.find_invH_of_mem_exportDsts (h : dst ∈ c.exportDsts) : find c.invH dst.port = some dst.lane := by
  rw [exportDsts, List.mem_filterMap] at h
  obtain ⟨out, -, hdst⟩ := h
  obtain ⟨lane, hlane, rfl⟩ := Option.map_eq_some_iff.mp hdst
  exact hlane

theorem Chunk.lane_of_mem_exportDsts (h : dst ∈ c.exportDsts) : (dst.lane, dst.port) ∈ c.h :=
  mem_h_of_find_invH (find_invH_of_mem_exportDsts h)

/-- Different lanes of the manifest have different names. -/
theorem Chunk.nodup_lanes : (c.exportDsts.map Dst.lane).Nodup := by
  have hports : (c.exportDsts.map Dst.port).Nodup := by
    rw [map_port_exportDsts]
    exact c.outputs_nodup.filter _
  refine List.Nodup.map_on (fun dst hdst dst' hdst' hlane => ?_) (List.Nodup.of_map _ hports)
  have heq := congrArg Prod.snd (port_eq_of_mem_h (lane_of_mem_exportDsts hdst) (lane_of_mem_exportDsts hdst') hlane)
  exact List.inj_on_of_nodup_map hports hdst hdst' heq

/-- The sources in the manifest: they have the input ports, and a state port has the number of the state ports up to
it. -/
theorem Chunk.exportSrcs_spec [ToString π] {ports : List (List ℕ × π)} {seenState : List π} {srcs : List (Src π)}
    (h : c.exportSrcs ports seenState = .ok srcs)
    (hnodup : (seenState ++ (ports.map Prod.snd).filter (· ∈ c.states.map Prod.fst)).Nodup) :
    srcs.map Src.port = ports.map Prod.snd ∧ ∀ src ∈ srcs, src.port ∈ c.states.map Prod.fst → src.kind = .stateIn ∧
      ∃ j, (seenState ++ (ports.map Prod.snd).filter (· ∈ c.states.map Prod.fst))[j]? = some src.port ∧
        src.lane = stateName j := by
  induction ports generalizing seenState srcs with
  | nil =>
    obtain rfl := Except.ok.inj h
    exact ⟨rfl, fun src hsrc => by cases hsrc⟩
  | cons entry rest ih =>
    obtain ⟨shape, port⟩ := entry
    rw [List.map_cons] at hnodup ⊢
    rw [exportSrcs] at h
    cases hfind : find c.states port with
    | none =>
      have hmem : port ∉ c.states.map Prod.fst := find_eq_none_iff.mp hfind
      rw [List.filter_cons_of_neg (by simpa using hmem)] at hnodup ⊢
      simp only [hfind] at h
      obtain ⟨⟨kind, lane⟩, -, h⟩ := bind_eq_ok.mp h
      obtain ⟨srcs', hsrcs, h⟩ := bind_eq_ok.mp h
      obtain rfl := Except.ok.inj h
      obtain ⟨hports, hstates⟩ := ih hsrcs hnodup
      refine ⟨by rw [List.map_cons, hports], List.forall_mem_cons.mpr ⟨fun h => absurd h hmem, hstates⟩⟩
    | some stateShape =>
      have hmem : port ∈ c.states.map Prod.fst := by
        by_contra hmem
        rw [find_eq_none_iff.mpr hmem] at hfind
        cases hfind
      rw [List.filter_cons_of_pos (by simpa using hmem)] at hnodup ⊢
      have hnew : port ∉ seenState := fun hseen =>
        (List.nodup_append.mp hnodup).2.2 port hseen port List.mem_cons_self rfl
      have hassoc := List.append_cons seenState port ((rest.map Prod.snd).filter (· ∈ c.states.map Prod.fst))
      simp only [hfind, if_neg hnew] at h
      obtain ⟨srcs', hsrcs, h⟩ := bind_eq_ok.mp h
      obtain rfl := Except.ok.inj h
      obtain ⟨hports, hstates⟩ := ih hsrcs (hassoc ▸ hnodup)
      refine ⟨by rw [List.map_cons, hports], List.forall_mem_cons.mpr
        ⟨fun _ => ⟨rfl, seenState.length, ?_, ?_⟩, hassoc ▸ hstates⟩⟩
      · rw [List.getElem?_append_right le_rfl, Nat.sub_self, List.getElem?_cons_zero]
      · simp

/-- The entry of the manifest, piece by piece. -/
theorem Chunk.toProgram_spec [ToString π] {ci : ℕ} {program : Program π} (h : c.toProgram ci = .ok program) :
    c.exportSrcs c.inputPorts [] = .ok program.srcs ∧ c.states.length = c.stateOuts.length ∧
      program.dsts = c.exportDsts ∧
      program.states = (c.states.zip c.stateOuts).map fun pair => ⟨pair.1.1, pair.1.2, pair.2.2, pair.2.1⟩ := by
  rw [toProgram] at h
  obtain ⟨srcs, hsrcs, h⟩ := bind_eq_ok.mp h
  split at h
  · cases h
  · next hcount =>
    obtain rfl := Except.ok.inj h
    exact ⟨hsrcs, not_not.mp hcount, rfl, rfl⟩

/-- An output port is a lane or a state output. -/
theorem Chunk.length_outputPorts :
    (c.outputPorts.map Prod.snd).length = c.exportDsts.length + c.stateOuts.length := by
  have hlanes := congrArg List.length (map_port_exportDsts (c := c))
  have hstates := congrArg List.length (map_port_stateOuts (c := c))
  rw [List.length_map] at hlanes hstates
  rw [hlanes, hstates, List.length_eq_length_filter_add (· ∈ c.h.map Prod.snd)]
  simp

end Export

/-! ## What is stored -/

section Store

variable {outs : List α} {nd : ℕ}

omit [DecidableEq π] in
/-- The states stored are the outputs behind the lanes. -/
theorem storeStates_spec (np : Numpy α) (k : ℕ) (pairs : List (StatePair π)) (states : List (String × α))
    (hlen : nd + k + pairs.length ≤ outs.length) :
    ∃ states', storeStates np outs nd k pairs states = .ok states' ∧
      (∀ j < pairs.length, find states' (stateName (k + j)) = outs[nd + (k + j)]?.map np.asHalf) ∧
      ∀ i < k, find states' (stateName i) = find states (stateName i) := by
  induction pairs generalizing k states with
  | nil => exact ⟨states, rfl, fun j hj => absurd hj (Nat.not_lt_zero j), fun _ _ => rfl⟩
  | cons pair rest ih =>
    rw [List.length_cons] at hlen
    have hhere : nd + k < outs.length := by omega
    obtain ⟨states', hstates', hlater, hearlier⟩ :=
      ih (k + 1) (assign states (stateName k) (np.asHalf outs[nd + k])) (by omega)
    refine ⟨states', ?_, fun j hj => ?_, fun i hi => ?_⟩
    · rw [storeStates, index_eq_ok.mpr (List.getElem?_eq_getElem hhere), ok_bind, hstates']
    · cases j with
      | zero =>
        rw [Nat.add_zero, hearlier k (Nat.lt_succ_self k), find_assign, if_pos rfl, List.getElem?_eq_getElem hhere]
        rfl
      | succ j =>
        have hnext := hlater j (by simpa using hj)
        rwa [Nat.add_right_comm, Nat.add_assoc] at hnext
    · rw [hearlier i (by omega), find_assign, if_neg fun h => (Nat.ne_of_lt hi) (stateName_injective h).symm]

omit [DecidableEq π] in
/-- The lanes stored are the first outputs. -/
theorem find_storeLanes (pr : Program π) (hs : List (String × α)) (name : String) : find (storeLanes pr outs hs) name =
    (find ((pr.dsts.map Dst.lane).zip (outs.take pr.dsts.length)).reverse name).or (find hs name) := by
  rw [← find_foldl_assign, List.zip_map_left, List.foldl_map]
  rfl

omit [DecidableEq π] in
/-- A lane has the output at its place. -/
theorem find_storeLanes_of_getElem? {pr : Program π} (hnodup : (pr.dsts.map Dst.lane).Nodup) {arr : α}
    (hlen : pr.dsts.length ≤ outs.length) (hdst : pr.dsts[j]? = some dst) (harr : outs[j]? = some arr)
    (hs : List (String × α)) : find (storeLanes pr outs hs) dst.lane = some arr := by
  have hj : j < pr.dsts.length := (List.getElem?_eq_some_iff.mp hdst).1
  have hkeys : ((((pr.dsts.map Dst.lane).zip (outs.take pr.dsts.length)).reverse).map Prod.fst).Nodup := by
    rw [List.map_reverse, List.nodup_reverse, List.map_fst_zip (by simp [hlen])]
    exact hnodup
  rw [find_storeLanes, (find_eq_some_iff hkeys).mpr, Option.some_or]
  rw [List.mem_reverse]
  refine List.mem_of_getElem? (i := j) ?_
  rw [List.getElem?_zip_eq_some, List.getElem?_map, hdst, List.getElem?_take_of_lt hj]
  exact ⟨rfl, harr⟩

omit [DecidableEq π] in
/-- No other name is written. -/
theorem find_storeLanes_of_notMem {pr : Program π} {name : String} (h : name ∉ pr.dsts.map Dst.lane)
    (hs : List (String × α)) : find (storeLanes pr outs hs) name = find hs name := by
  rw [find_storeLanes, find_eq_none_iff.mpr, Option.none_or]
  rw [List.map_reverse, List.mem_reverse]
  rintro hmem
  obtain ⟨pair, hpair, rfl⟩ := List.mem_map.mp hmem
  exact h (List.of_mem_zip hpair).1

end Store

/-! ## Agreement of the ports -/

section Agreement

variable [ToString π] {ci : ℕ} {program : Program π}

omit [DecidableEq π] [ToString π] in
theorem Chunk.getElem?_outsOf (out : π → α) (h : (c.outputPorts.map Prod.snd)[j]? = some port) :
    (c.outsOf out)[j]? = some (out port) := by
  rw [List.getElem?_map] at h
  obtain ⟨entry, hentry, rfl⟩ := Option.map_eq_some_iff.mp h
  rw [outsOf, List.getElem?_map, hentry, Option.map_some]

/-- Storing the outputs: a state number has the output behind the lanes at that number, a lane the output at its
number. -/
theorem stored (np : Numpy α) (hexport : c.toProgram ci = .ok program) (out : π → α) (hs states : List (String × α)) :
    ∃ states', storeStates np (c.outsOf out) program.dsts.length 0 program.states states = .ok states' ∧
      (∀ (j : ℕ) (port : π), (c.outputPorts.map Prod.snd)[program.dsts.length + j]? = some port →
        find states' (stateName j) = some (np.asHalf (out port))) ∧
      (∀ (j : ℕ) (dst : Dst π) (port : π), program.dsts[j]? = some dst → (c.outputPorts.map Prod.snd)[j]? = some port →
        find (storeLanes program (c.outsOf out) hs) dst.lane = some (out port)) ∧
      ∀ name ∉ program.dsts.map Dst.lane, find (storeLanes program (c.outsOf out) hs) name = find hs name := by
  obtain ⟨-, hcount, hdsts, hstates⟩ := c.toProgram_spec hexport
  have hlength := c.length_outputPorts
  have houts : (c.outsOf out).length = program.dsts.length + program.states.length := by
    rw [List.length_map] at hlength
    rw [Chunk.outsOf, List.length_map, hlength, hdsts, hstates, List.length_map, List.length_zip, hcount, min_self]
  obtain ⟨states', hstored, hnumber, -⟩ := storeStates_spec np 0 program.states states
    (by omega : program.dsts.length + 0 + program.states.length ≤ (c.outsOf out).length)
  refine ⟨states', hstored, fun j port hport => ?_, fun j dst port hdst hport => ?_, fun name hname =>
    find_storeLanes_of_notMem hname hs⟩
  · have hj : j < program.states.length := by
      have hlt := (List.getElem?_eq_some_iff.mp (c.getElem?_outsOf out hport)).1
      omega
    have hfind := hnumber j hj
    rwa [Nat.zero_add, c.getElem?_outsOf out hport] at hfind
  · refine find_storeLanes_of_getElem? (hdsts ▸ c.nodup_lanes) (by omega) hdst (c.getElem?_outsOf out hport) hs

omit [ToString π] in
/-- The output ports are the lanes and then the states. -/
theorem Chunk.outputPorts_eq (h : c.LanesFirst) :
    c.outputPorts.map Prod.snd = c.exportDsts.map Dst.port ++ c.stateOuts.map Prod.snd := by
  obtain ⟨lanes, states, heq, hlanes, hstates⟩ := h
  have hall : lanes.filter (· ∈ c.h.map Prod.snd) = lanes :=
    List.filter_eq_self.mpr fun p hp => decide_eq_true (hlanes p hp)
  have hnone : states.filter (· ∈ c.h.map Prod.snd) = [] :=
    List.filter_eq_nil_iff.mpr fun p hp => by simpa using hstates p hp
  have hrest : states.filter (· ∉ c.h.map Prod.snd) = states :=
    List.filter_eq_self.mpr fun p hp => decide_eq_true (hstates p hp)
  have hdrop : lanes.filter (· ∉ c.h.map Prod.snd) = [] :=
    List.filter_eq_nil_iff.mpr fun p hp => by simpa using hlanes p hp
  rw [c.map_port_exportDsts, c.map_port_stateOuts, heq, List.filter_append, List.filter_append, hall, hnone, hrest,
    hdrop, List.append_nil, List.nil_append]

/-- An aligned chunk agrees. -/
theorem Aligned.agrees (h : Aligned c) (hexport : c.toProgram ci = .ok program) : Agrees np c program := by
  intro out hs states
  obtain ⟨states', hstored, hnumber, hlane, -⟩ := stored np hexport out hs states
  obtain ⟨hsrcs, hcount, hdsts, hpairs⟩ := c.toProgram_spec hexport
  have hports := c.outputPorts_eq h.lanesFirst
  refine ⟨states', hstored, ⟨fun entry hentry hmem => ?_, fun pair hpair src hsrc hport vals hs => ?_⟩⟩
  · have hin : entry.2 ∈ c.exportDsts.map Dst.port := by
      rw [c.map_port_exportDsts, List.mem_filter]
      exact ⟨hmem, decide_eq_true (List.mem_map_of_mem hentry)⟩
    obtain ⟨dst, hdst, heq⟩ := List.mem_map.mp hin
    obtain ⟨j, hj⟩ := List.mem_iff_getElem?.mp hdst
    have hlt : j < c.exportDsts.length := (List.getElem?_eq_some_iff.mp hj).1
    have hown := h.ownPort _ (c.lane_of_mem_exportDsts hdst) entry hentry (heq ▸ hmem) heq
    have hplace : (c.outputPorts.map Prod.snd)[j]? = some entry.2 := by
      rw [hports, List.getElem?_append_left (by simpa using hlt), List.getElem?_map, hj, ← heq]
      rfl
    rw [← hlane j dst entry.2 (hdsts ▸ hj) hplace, ← hown]
  · obtain ⟨k, hk⟩ := List.mem_iff_getElem?.mp hpair
    rw [hpairs, List.getElem?_map] at hk
    obtain ⟨⟨state, stateOut⟩, hzip, rfl⟩ := Option.map_eq_some_iff.mp hk
    obtain ⟨hstate, hstateOut⟩ := List.getElem?_zip_eq_some.mp hzip
    have hkey : (c.states.map Prod.fst)[k]? = some state.1 := by rw [List.getElem?_map, hstate, Option.map_some]
    obtain ⟨-, hnames⟩ := c.exportSrcs_spec hsrcs (by simpa using c.inputs_nodup.filter _)
    obtain ⟨hkind, j, hj, hname⟩ := hnames src hsrc (hport ▸ List.mem_of_getElem? hkey)
    rw [List.nil_append] at hj
    -- The number among the input ports is the number in the states map.
    have hjkey : (c.states.map Prod.fst)[j]? = some state.1 := by
      rw [List.prefix_iff_getElem?.mp h.stateOrder j (List.getElem?_eq_some_iff.mp hj).1,
        ← List.getElem?_eq_getElem, hj]
      exact congrArg some hport
    obtain rfl : j = k := (List.getElem?_inj (List.getElem?_eq_some_iff.mp hjkey).1 c.states_nodup).mp
      (hjkey.trans hkey.symm)
    have hplace : (c.outputPorts.map Prod.snd)[program.dsts.length + j]? = some stateOut.2 := by
      rw [hports, List.getElem?_append_right (by rw [List.length_map, hdsts]; omega), List.length_map, hdsts,
        Nat.add_sub_cancel_left, List.getElem?_map, hstateOut, Option.map_some]
    rw [sourceOf, hkind, lookup, hname, hnumber j stateOut.2 hplace]

/-- A lane is stored from the output at its own place. -/
theorem Agrees.port_eq (h : Agrees np c program) (hexport : c.toProgram ci = .ok program) {a b : α} (hne : a ≠ b)
    (hdst : c.exportDsts[j]? = some dst) (hport : (c.outputPorts.map Prod.snd)[j]? = some port) : port = dst.port := by
  obtain ⟨-, -, hdsts, -⟩ := c.toProgram_spec hexport
  have hmem := List.mem_of_getElem? hdst
  have hin : dst.port ∈ c.outputPorts.map Prod.snd := by
    have hfilter := List.mem_map_of_mem (f := Dst.port) hmem
    rw [c.map_port_exportDsts] at hfilter
    exact List.mem_of_mem_filter hfilter
  obtain ⟨_, -, hagree⟩ := h (fun p => if p = dst.port then a else b) [] []
  obtain ⟨_, -, -, hlane, -⟩ := stored np hexport (fun p => if p = dst.port then a else b) [] []
  have hfound := hagree.lanes _ (c.lane_of_mem_exportDsts hmem) hin
  rw [hlane j dst port (by rw [hdsts, hdst]) hport, if_pos rfl] at hfound
  by_contra hother
  rw [if_neg hother] at hfound
  exact hne (Option.some.inj hfound).symm

/-- Agreement needs the lanes in front. -/
theorem Agrees.lanesFirst (h : Agrees np c program) (hexport : c.toProgram ci = .ok program) {a b : α} (hne : a ≠ b) :
    c.LanesFirst := by
  have hlength := c.length_outputPorts
  have hlanes : (c.outputPorts.map Prod.snd).take c.exportDsts.length = c.exportDsts.map Dst.port := by
    refine List.ext_getElem? fun j => ?_
    rw [List.getElem?_map]
    by_cases hj : j < c.exportDsts.length
    · have hport := List.getElem?_eq_getElem (by omega : j < (c.outputPorts.map Prod.snd).length)
      have hdst := List.getElem?_eq_getElem hj
      rw [List.getElem?_take_of_lt hj, hport, hdst, h.port_eq hexport hne hdst hport, Option.map_some]
    · rw [List.getElem?_take_eq_none (by omega), List.getElem?_eq_none (by omega), Option.map_none]
  refine ⟨_, _, (List.take_append_drop c.exportDsts.length _).symm, fun p hp => ?_, fun p hp hmem => ?_⟩
  · rw [hlanes] at hp
    obtain ⟨dst, hdst, rfl⟩ := List.mem_map.mp hp
    exact List.mem_map_of_mem (c.lane_of_mem_exportDsts hdst)
  · have hlane : p ∈ (c.outputPorts.map Prod.snd).take c.exportDsts.length := by
      rw [hlanes, c.map_port_exportDsts]
      exact List.mem_filter.mpr ⟨List.mem_of_mem_drop hp, decide_eq_true hmem⟩
    exact List.disjoint_take_drop c.outputs_nodup le_rfl hlane hp

/-- The name of a stored lane is the one that the manifest has for its port. -/
theorem Agrees.find_invH (h : Agrees np c program) (hexport : c.toProgram ci = .ok program) (a : α)
    {entry : String × π} (hentry : entry ∈ c.h) (hmem : entry.2 ∈ c.outputPorts.map Prod.snd) :
    find c.invH entry.2 = some entry.1 := by
  obtain ⟨-, -, hdsts, -⟩ := c.toProgram_spec hexport
  obtain ⟨_, -, hagree⟩ := h (fun _ => a) [] []
  obtain ⟨_, -, -, -, hkept⟩ := stored np hexport (fun _ => a) [] []
  have hlane : entry.1 ∈ program.dsts.map Dst.lane := by
    by_contra hlane
    have hfound := hagree.lanes entry hentry hmem
    rw [hkept _ hlane] at hfound
    cases hfound
  rw [hdsts] at hlane
  obtain ⟨dst, hdst, hname⟩ := List.mem_map.mp hlane
  rw [← c.port_eq_of_mem_h (c.lane_of_mem_exportDsts hdst) hentry hname]
  exact c.find_invH_of_mem_exportDsts hdst

/-- Agreement needs the states in port order. -/
theorem Agrees.stateOrder (h : Agrees np c program) (hexport : c.toProgram ci = .ok program)
    (hcast : ∃ a b, np.asHalf a ≠ np.asHalf b) (hfirst : c.LanesFirst) :
    (c.inputPorts.map Prod.snd).filter (· ∈ c.states.map Prod.fst) <+: c.states.map Prod.fst := by
  obtain ⟨a, b, hcast⟩ := hcast
  obtain ⟨hsrcs, hcount, hdsts, hpairs⟩ := c.toProgram_spec hexport
  obtain ⟨hsrcPorts, hnames⟩ := c.exportSrcs_spec hsrcs (by simpa using c.inputs_nodup.filter _)
  have hnodup := c.inputs_nodup.filter (· ∈ c.states.map Prod.fst)
  refine List.prefix_iff_getElem?.mpr fun j hj => ?_
  have hget := List.getElem?_eq_getElem hj
  generalize ((c.inputPorts.map Prod.snd).filter (· ∈ c.states.map Prod.fst))[j] = port at hget
  obtain ⟨hin, hstate⟩ := List.mem_filter.mp (List.mem_of_getElem? hget)
  obtain ⟨k, hk⟩ := List.mem_iff_getElem?.mp (of_decide_eq_true hstate)
  rw [← hsrcPorts] at hin
  obtain ⟨src, hsrc, rfl⟩ := List.mem_map.mp hin
  obtain ⟨hkind, j', hj', hname⟩ := hnames src hsrc (of_decide_eq_true hstate)
  rw [List.nil_append] at hj'
  obtain rfl : j' = j := (List.getElem?_inj (List.getElem?_eq_some_iff.mp hj').1 hnodup).mp (hj'.trans hget.symm)
  -- There are as many state outputs as states, so both numbers have a state output.
  have hsub := (List.subperm_of_subset hnodup fun p hp => of_decide_eq_true (List.mem_filter.mp hp).2).length_le
  rw [List.length_map] at hsub
  have hlt : k < c.states.length := by simpa using (List.getElem?_eq_some_iff.mp hk).1
  have houtK := List.getElem?_eq_getElem (hcount ▸ hlt)
  have houtJ := List.getElem?_eq_getElem (by omega : j' < c.stateOuts.length)
  have hpair : ⟨src.port, c.states[k].2, c.stateOuts[k].2, c.stateOuts[k].1⟩ ∈ program.states := by
    rw [List.getElem?_map, List.getElem?_eq_getElem hlt] at hk
    rw [hpairs, ← Option.some.inj hk]
    refine List.mem_map.mpr ⟨(c.states[k], c.stateOuts[k]), List.mem_of_getElem? (i := k) ?_, rfl⟩
    exact List.getElem?_zip_eq_some.mpr ⟨List.getElem?_eq_getElem hlt, houtK⟩
  obtain ⟨states', hstored, hagree⟩ := h (fun p => if p = c.stateOuts[k].2 then a else b) [] []
  obtain ⟨states'', hstored', hnumber, -⟩ := stored np hexport (fun p => if p = c.stateOuts[k].2 then a else b)
    [] []
  obtain rfl := Except.ok.inj (hstored.symm.trans hstored')
  have hplace : (c.outputPorts.map Prod.snd)[program.dsts.length + j']? = some c.stateOuts[j'].2 := by
    rw [c.outputPorts_eq hfirst, List.getElem?_append_right (by rw [List.length_map, hdsts]; omega), List.length_map,
      hdsts, Nat.add_sub_cancel_left, List.getElem?_map, houtJ, Option.map_some]
  have hfed := hagree.fed _ hpair src hsrc rfl [] []
  rw [sourceOf, hkind, lookup, hname, hnumber j' _ hplace, if_pos rfl] at hfed
  have hsame : c.stateOuts[j'].2 = c.stateOuts[k].2 := by
    by_contra hother
    rw [if_neg hother] at hfed
    exact hcast (Except.ok.inj hfed).symm
  have houts : (c.stateOuts.map Prod.snd).Nodup := by
    rw [c.map_port_stateOuts]
    exact c.outputs_nodup.filter _
  obtain rfl : j' = k := (List.getElem?_inj (by rw [List.length_map]; omega) houts).mp (by
    rw [List.getElem?_map, List.getElem?_map, houtJ, houtK, Option.map_some, Option.map_some, hsame])
  exact hk

/-- A chunk that agrees whatever the outputs are is aligned. -/
theorem Agrees.aligned (h : Agrees np c program) (hcast : ∃ a b, np.asHalf a ≠ np.asHalf b)
    (hexport : c.toProgram ci = .ok program) : Aligned c := by
  obtain ⟨a, b, hne⟩ := hcast
  have hfirst : c.LanesFirst := h.lanesFirst hexport fun heq => hne (congrArg np.asHalf heq)
  refine ⟨hfirst, fun entry hentry entry' hentry' hmem hport => ?_, h.stateOrder hexport ⟨a, b, hne⟩ hfirst⟩
  have hname := h.find_invH hexport a hentry hmem
  rw [hport, h.find_invH hexport a hentry' (hport ▸ hmem)] at hname
  exact c.port_eq_of_mem_h hentry hentry' (Option.some.inj hname).symm

end Agreement

/-! ## Two steps -/

section Steps

variable {opened : Opened π α} {pi : ℕ} {vals hs states : List (String × α)}

/-- The open programs of a chain of chunks: each has its entry of the manifest, and returns its outputs in the order of
its output ports. -/
structure Chained [ToString π] (chunks : List (Chunk π)) (programs : List (Opened π α)) : Prop where
  exported : ∀ (pi : ℕ) (c : Chunk π) (opened : Opened π α), chunks[pi]? = some c → programs[pi]? = some opened →
    c.toProgram pi = .ok opened.program
  returns : ∀ (pi : ℕ) (c : Chunk π) (opened : Opened π α), chunks[pi]? = some c → programs[pi]? = some opened →
    ∀ srcs, (opened.predict srcs).length = c.outputPorts.length

/-- What holds of a program in a step and in the next one: it stores under every lane the output of the port of the
lane, and is fed at every state port the output of the port that the manifest pairs with it. -/
def StepsAgree (np : Numpy α) (c : Chunk π) (opened : Opened π α) (ran next : Ran α) : Prop :=
  ∃ out : π → α, ran.outs = c.outsOf out ∧
    (∀ entry ∈ c.h, entry.2 ∈ c.outputPorts.map Prod.snd → find ran.hs entry.1 = some (out entry.2)) ∧
    ∀ pair ∈ opened.program.states, ∀ i : ℕ, (c.inputPorts.map Prod.snd)[i]? = some pair.inPort →
      ∃ nchw : List ℕ, opened.srcNchw[i]? = some nchw ∧
        next.srcs[i]? = some (np.reshape (np.asHalf (np.asHalf (out pair.outPort))) (nchw.take 4))

omit [DecidableEq π] in
theorem asSurface_eq_ok {arr sv : α} {nchw : List ℕ} {what : String} (h : asSurface np arr nchw what pi = .ok sv) :
    sv = np.reshape (np.asHalf arr) (nchw.take 4) := by
  rw [asSurface] at h
  split at h
  · cases h
  · exact (Except.ok.inj h).symm

omit [DecidableEq π] in
/-- Each source is bound at its own place. -/
theorem sourcesFrom_spec {srcNchw : List (List ℕ)} {k : ℕ} {sources : List (Src π)} {srcs : List α}
    (h : sourcesFrom np srcNchw pi states vals hs k sources = .ok srcs) {s : Src π} (hs' : sources[i]? = some s) :
    ∃ arr nchw, sourceOf states vals hs s = .ok arr ∧ srcNchw[k + i]? = some nchw ∧
      srcs[i]? = some (np.reshape (np.asHalf arr) (nchw.take 4)) := by
  induction sources generalizing k srcs i with
  | nil => cases hs'
  | cons first rest ih =>
    obtain ⟨arr, harr, h⟩ := bind_eq_ok.mp h
    obtain ⟨nchw, hnchw, h⟩ := bind_eq_ok.mp h
    obtain ⟨sv, hsv, h⟩ := bind_eq_ok.mp h
    obtain ⟨later, hlater, h⟩ := bind_eq_ok.mp h
    obtain rfl := Except.ok.inj h
    cases i with
    | zero =>
      obtain rfl := Option.some.inj hs'
      exact ⟨arr, nchw, harr, index_eq_ok.mp hnchw, by rw [asSurface_eq_ok hsv]; rfl⟩
    | succ i =>
      obtain ⟨arr, nchw, harr, hnchw, hget⟩ := ih hlater hs'
      exact ⟨arr, nchw, harr, by rw [← hnchw, Nat.add_right_comm, Nat.add_assoc], hget⟩

omit [DecidableEq π] in
/-- What one program reads, writes and stores. -/
theorem runProgram_spec (h : runProgram np opened pi vals hs states = .ok ran) :
    sourcesFrom np opened.srcNchw pi states vals hs 0 opened.program.srcs = .ok ran.srcs ∧
      ran.outs = opened.predict ran.srcs ∧ ran.hs = storeLanes opened.program ran.outs hs ∧
      storeStates np ran.outs opened.program.dsts.length 0 opened.program.states states = .ok ran.states := by
  obtain ⟨srcs, hsrcs, h⟩ := bind_eq_ok.mp h
  obtain ⟨states', hstates, h⟩ := bind_eq_ok.mp h
  obtain rfl := Except.ok.inj h
  exact ⟨hsrcs, rfl, rfl, hstates⟩

omit [DecidableEq π] in
/-- Every program of a step has run, on its own states. -/
theorem stepLoop_spec {programs : List (Opened π α × List (String × α))} {hidden hidden' : α} {rans : List (Ran α)}
    (h : stepLoop np vals pi programs hs hidden = .ok (hidden', rans)) (hran : rans[i]? = some ran) :
    ∃ opened states hs, programs[i]? = some (opened, states) ∧
      runProgram np opened (pi + i) vals hs states = .ok ran := by
  induction programs generalizing pi hs hidden hidden' rans i with
  | nil =>
    obtain rfl := (Prod.mk.inj (Except.ok.inj h)).2
    cases hran
  | cons first rest ih =>
    obtain ⟨opened, states⟩ := first
    obtain ⟨ran', hran', h⟩ := bind_eq_ok.mp h
    obtain ⟨carried, -, h⟩ := bind_eq_ok.mp h
    obtain ⟨⟨last, later⟩, hlater, h⟩ := bind_eq_ok.mp h
    obtain rfl := (Prod.mk.inj (Except.ok.inj h)).2
    cases i with
    | zero =>
      obtain rfl := Option.some.inj hran
      exact ⟨opened, states, _, rfl, hran'⟩
    | succ i =>
      obtain ⟨opened', states', hs', hget, hrun⟩ := ih hlater hran
      exact ⟨opened', states', hs', hget, by rwa [Nat.add_right_comm, Nat.add_assoc] at hrun⟩

omit [DecidableEq π] in
/-- What each program of a step ran on. -/
theorem step_spec {programs : List (Opened π α)} {embedded hidden : α} {chain : List (List (String × α))}
    {rans : List (Ran α)} (h : step np programs vals embedded chain = .ok (hidden, rans)) (hran : rans[i]? = some ran) :
    ∃ opened states hs, programs[i]? = some opened ∧ chain[i]? = some states ∧
      runProgram np opened i vals hs states = .ok ran := by
  obtain ⟨⟨hidden', rans'⟩, hloop, h⟩ := bind_eq_ok.mp h
  obtain rfl := (Prod.mk.inj (Except.ok.inj h)).2
  obtain ⟨opened, states, hs, hget, hrun⟩ := stepLoop_spec hloop hran
  obtain ⟨hopened, hstates⟩ := List.getElem?_zip_eq_some.mp hget
  exact ⟨opened, states, hs, hopened, hstates, by rwa [Nat.zero_add] at hrun⟩

/-- Outputs in the order of the ports belong to the ports. -/
theorem exists_outsOf (a : α) {outs : List α} (h : outs.length = c.outputPorts.length) :
    ∃ out, outs = c.outsOf out := by
  have hkeys : (((c.outputPorts.map Prod.snd).zip outs).map Prod.fst).Nodup := by
    rw [List.map_fst_zip (by rw [List.length_map, h])]
    exact c.outputs_nodup
  refine ⟨fun port => (find ((c.outputPorts.map Prod.snd).zip outs) port).getD a, List.ext_getElem? fun j => ?_⟩
  rw [Chunk.outsOf, List.getElem?_map]
  by_cases hj : j < outs.length
  · have hport := List.getElem?_eq_getElem (h ▸ hj)
    have hzip : (c.outputPorts[j].2, outs[j]) ∈ (c.outputPorts.map Prod.snd).zip outs :=
      List.mem_of_getElem? (i := j) (List.getElem?_zip_eq_some.mpr ⟨by rw [List.getElem?_map, hport]; rfl,
        List.getElem?_eq_getElem hj⟩)
    rw [hport, Option.map_some, (find_eq_some_iff hkeys).mpr hzip, List.getElem?_eq_getElem hj, Option.getD_some]
  · rw [List.getElem?_eq_none (by omega), List.getElem?_eq_none (by omega), Option.map_none]

/-- A program that agrees with the manifest does so in a step and the next one. -/
theorem Agrees.steps [ToString π] (h : Agrees np c opened.program) (hexport : c.toProgram pi = .ok opened.program)
    (a : α) (hreturns : ∀ srcs, (opened.predict srcs).length = c.outputPorts.length) {vals' hs' : List (String × α)}
    {next : Ran α} (hran : runProgram np opened pi vals hs states = .ok ran)
    (hnext : runProgram np opened pi vals' hs' ran.states = .ok next) : StepsAgree np c opened ran next := by
  obtain ⟨-, houts, hlanes, hstates⟩ := runProgram_spec hran
  obtain ⟨hsrcs, -, -, -⟩ := runProgram_spec hnext
  obtain ⟨out, hout⟩ := exists_outsOf (c := c) a (by rw [houts, hreturns] : ran.outs.length = c.outputPorts.length)
  obtain ⟨states', hstored, hagree⟩ := h out hs states
  rw [hout] at hstates hlanes
  obtain rfl := Except.ok.inj (hstored.symm.trans hstates)
  refine ⟨out, hout, fun entry hentry hmem => hlanes ▸ hagree.lanes entry hentry hmem, fun pair hpair i hi => ?_⟩
  obtain ⟨hexported, -, -, -⟩ := c.toProgram_spec hexport
  obtain ⟨hports, -⟩ := c.exportSrcs_spec hexported (by simpa using c.inputs_nodup.filter _)
  rw [← hports, List.getElem?_map] at hi
  obtain ⟨src, hsrc, hport⟩ := Option.map_eq_some_iff.mp hi
  obtain ⟨arr, nchw, harr, hnchw, hget⟩ := sourcesFrom_spec hsrcs hsrc
  have hfed := hagree.fed pair hpair src (List.mem_of_getElem? hsrc) hport vals' hs'
  obtain rfl := Except.ok.inj (harr.symm.trans hfed)
  exact ⟨nchw, by rwa [Nat.zero_add] at hnchw, hget⟩

end Steps

/-- The manifest and the runner agree on the ports of a chunk, whatever its outputs are, exactly if the chunk is
aligned; and along a chain of aligned chunks every program agrees with the manifest in any two steps that follow each
other. -/
theorem manifest_runner_agree_iff [ToString π] (np : Numpy α) (hcast : ∃ a b, np.asHalf a ≠ np.asHalf b)
    (chunks : List (Chunk π)) (programs : List (Opened π α)) (hchain : Chained chunks programs) :
    (∀ (pi : ℕ) (c : Chunk π) (opened : Opened π α), chunks[pi]? = some c → programs[pi]? = some opened →
      (Agrees np c opened.program ↔ Aligned c)) ∧
    ((∀ c ∈ chunks, Aligned c) → ∀ vals vals' embedded embedded' states hidden hidden' rans rans',
      step np programs vals embedded states = .ok (hidden, rans) →
      step np programs vals' embedded' (rans.map Ran.states) = .ok (hidden', rans') →
      ∀ (pi : ℕ) (c : Chunk π) (opened : Opened π α) (ran next : Ran α), chunks[pi]? = some c →
        programs[pi]? = some opened → rans[pi]? = some ran → rans'[pi]? = some next →
        StepsAgree np c opened ran next) := by
  refine ⟨fun pi c opened hc hopened => ?_, ?_⟩
  · have hexport := hchain.exported pi c opened hc hopened
    exact ⟨fun h => h.aligned hcast hexport, fun h => h.agrees hexport⟩
  · intro haligned vals vals' embedded embedded' states hidden hidden' rans rans' hstep hstep' pi c opened ran next
      hc hopened hran hnext
    obtain ⟨a, -, -⟩ := hcast
    have hexport := hchain.exported pi c opened hc hopened
    obtain ⟨opened₁, states₁, hs₁, hopened₁, -, hrun₁⟩ := step_spec hstep hran
    obtain ⟨opened₂, states₂, hs₂, hopened₂, hstates₂, hrun₂⟩ := step_spec hstep' hnext
    obtain rfl := Option.mem_unique hopened hopened₁
    obtain rfl := Option.mem_unique hopened hopened₂
    rw [List.getElem?_map, hran, Option.map_some] at hstates₂
    obtain rfl := Option.some.inj hstates₂
    exact ((haligned c (List.mem_of_getElem? hc)).agrees hexport).steps hexport a
      (hchain.returns pi c opened hc hopened) hrun₁ hrun₂

/-! ## Small chunks -/

/-- Arrays of one number. -/
def numbers : Numpy ℕ where
  asHalf := fun a => a
  zeros := fun _ => 0
  size := fun _ => 1
  reshape := fun a _ => a
  flatFloat := fun a => a

/-- A chunk with a lane at output port 1 and two resident states, at input ports 10 and 11 in the states map. -/
def twoStates (inputs outputs : List ℕ) (hinputs : inputs.Nodup) (houtputs : outputs.Nodup) : Chunk ℕ where
  inputPorts := inputs.map fun port => ([1], port)
  outputPorts := outputs.map fun port => ([1], port)
  x := []
  h := [("h", 1)]
  context := []
  states := [(10, [1]), (11, [1])]
  groupStart := true
  groupEnd := true
  inputs_nodup := by simpa [Function.comp_def] using hinputs
  outputs_nodup := by simpa [Function.comp_def] using houtputs
  h_nodup := by decide
  states_nodup := by decide

/-- The program of such a chunk for given sources, lanes and pairs, that returns the numbers of its output ports. -/
def portNumbers (srcs : List (Src ℕ)) (outputs : List ℕ) (outPorts : ℕ × ℕ) : Opened ℕ ℕ where
  program := ⟨srcs, [⟨1, "h", [1]⟩], [⟨10, [1], outPorts.1, [1]⟩, ⟨11, [1], outPorts.2, [1]⟩], true, true⟩
  srcNchw := [[1], [1]]
  predict := fun _ => outputs

/-- The state ports in the other order: port 11 is fed what port 20 returned, which the manifest pairs with port 10. And
a lane between two states: the lane has what port 20 returned. -/
theorem runner_crosses_ports :
    let crossed := portNumbers [⟨11, .stateIn, "state0", [1]⟩, ⟨10, .stateIn, "state1", [1]⟩] [1, 20, 21] (20, 21)
    let between := portNumbers [⟨10, .stateIn, "state0", [1]⟩, ⟨11, .stateIn, "state1", [1]⟩] [20, 1, 21] (20, 21)
    (twoStates [11, 10] [1, 20, 21] (by decide) (by decide)).toProgram 0 = .ok crossed.program ∧
      (∃ hidden rans hidden' rans', step numbers [crossed] [] 0 [resetStates numbers crossed.program] =
          .ok (hidden, rans) ∧ step numbers [crossed] [] 0 (rans.map Ran.states) = .ok (hidden', rans') ∧
        rans'.map Ran.srcs = [[20, 21]]) ∧
      (twoStates [10, 11] [20, 1, 21] (by decide) (by decide)).toProgram 0 = .ok between.program ∧
      ∃ hidden rans, step numbers [between] [] 0 [resetStates numbers between.program] = .ok (hidden, rans) ∧
        rans.map Ran.hs = [[("x", 0), ("h", 20)]] :=
  ⟨rfl, ⟨_, _, _, _, rfl, rfl, rfl⟩, rfl, ⟨_, _, rfl, rfl⟩⟩

/-- The state ports in the order of the map, and the lane first. -/
theorem manifest_runner_agree_iff_plain :
    Agrees numbers (twoStates [10, 11] [1, 20, 21] (by decide) (by decide))
      (portNumbers [⟨10, .stateIn, "state0", [1]⟩, ⟨11, .stateIn, "state1", [1]⟩] [1, 20, 21] (20, 21)).program := by
  refine ((manifest_runner_agree_iff numbers ⟨0, 1, by decide⟩ [_] [_] ⟨fun pi c opened hc hopened => ?_,
    fun pi c opened hc hopened srcs => ?_⟩).1 0 _ _ rfl rfl).mpr ⟨⟨[1], [20, 21], rfl, by decide, by decide⟩, by decide,
    by decide⟩
  · cases pi with
    | zero =>
      obtain rfl := Option.some.inj hc
      obtain rfl := Option.some.inj hopened
      rfl
    | succ pi => cases hc
  · cases pi with
    | zero =>
      obtain rfl := Option.some.inj hc
      obtain rfl := Option.some.inj hopened
      rfl
    | succ pi => cases hc

end AneLinux.Qwen.StagedPorts
