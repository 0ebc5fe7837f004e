import AneLinux.Encoder.Runner
import AneLinux.Support.Dict
import Mathlib.Data.List.Pairwise

/-!
# Executing the statements in order

In single-assignment form each name is a result of one statement, and each operand is an input or a result of an
earlier statement. Executing all statements in order, with no fusion and with nothing pulled forward or released, then
gives tables that solve the equations of the program: what a statement writes is what its operation gives for the
final values of its operands.
-/

namespace AneLinux.Encoder

open AneLinux.Support

/-- Single-assignment form over a list of inputs. -/
structure SingleAssignment {ν : Type} (program : Program ν) (inputs : List ν) : Prop where
  distinct : (program.flatMap Statement.names).Nodup
  fresh : ∀ name ∈ inputs, name ∉ program.flatMap Statement.names
  earlier : ∀ (i : ℕ) (stmt : Statement ν), program[i]? = some stmt → ∀ name ∈ stmt.arrays ++ stmt.hosts,
    name ∈ inputs ∨ ∃ (k : ℕ) (stmt' : Statement ν), k < i ∧ program[k]? = some stmt' ∧ name ∈ stmt'.names

variable {ν V M : Type} {program : Program ν} {i k : ℕ} {name : ν} {stmt : Statement ν} {pairs : List (ν × V)}

/-- Single-assignment form is a condition on each statement and the ones before it. -/
theorem singleAssignment_iff {inputs : List ν} :
    SingleAssignment program inputs ↔ (program.flatMap Statement.names).Nodup ∧
      (∀ name ∈ inputs, name ∉ program.flatMap Statement.names) ∧
      ∀ i : Fin program.length, ∀ name ∈ (program.get i).arrays ++ (program.get i).hosts,
        name ∈ inputs ∨ name ∈ (program.take i).flatMap Statement.names := by
  constructor
  · intro h
    refine ⟨h.distinct, h.fresh, fun i name hname => ?_⟩
    rcases h.earlier i (program.get i) (List.getElem?_eq_getElem i.isLt) name hname with hinput | hresult
    · exact Or.inl hinput
    · obtain ⟨k, stmt, hlt, hstmt, hmem⟩ := hresult
      obtain ⟨hk, rfl⟩ := List.getElem?_eq_some_iff.mp hstmt
      have htaken : program[k] ∈ program.take i := List.mem_take_iff_getElem.mpr ⟨k, Nat.lt_min.mpr ⟨hlt, hk⟩, rfl⟩
      exact Or.inr (List.mem_flatMap.mpr ⟨_, htaken, hmem⟩)
  · intro h
    obtain ⟨hdistinct, hfresh, hearlier⟩ := h
    refine ⟨hdistinct, hfresh, fun i stmt hstmt name hname => ?_⟩
    obtain ⟨hi, rfl⟩ := List.getElem?_eq_some_iff.mp hstmt
    rcases hearlier ⟨i, hi⟩ name hname with hinput | hresult
    · exact Or.inl hinput
    · obtain ⟨stmt, hstmt, hmem⟩ := List.mem_flatMap.mp hresult
      obtain ⟨k, hk, rfl⟩ := List.mem_take_iff_getElem.mp hstmt
      exact Or.inr ⟨k, program[k], (Nat.lt_min.mp hk).1, List.getElem?_eq_getElem _, hmem⟩

instance {ν : Type} [DecidableEq ν] (program : Program ν) (inputs : List ν) :
    Decidable (SingleAssignment program inputs) := decidable_of_iff' _ singleAssignment_iff

section Producers

variable {inputs : List ν}

/-- A name is a result of one statement. -/
theorem SingleAssignment.unique (h : SingleAssignment program inputs) {a b : Statement ν} (ha : program[i]? = some a)
    (hb : program[k]? = some b) (hna : name ∈ a.names) (hnb : name ∈ b.names) : i = k := by
  have hdisjoint := (List.nodup_flatMap.mp h.distinct).2
  obtain ⟨hi, rfl⟩ := List.getElem?_eq_some_iff.mp ha
  obtain ⟨hk, rfl⟩ := List.getElem?_eq_some_iff.mp hb
  rcases Nat.lt_trichotomy i k with hlt | heq | hgt
  · exact (List.pairwise_iff_getElem.mp hdisjoint i k hi hk hlt hna hnb).elim
  · exact heq
  · exact (List.pairwise_iff_getElem.mp hdisjoint k i hk hi hgt hnb hna).elim

/-- Where the rest of a program begins with a statement, that statement stands, and behind it the rest goes on. -/
theorem next_of_drop {rest : Program ν} (h : program.drop i = stmt :: rest) :
    program[i]? = some stmt ∧ program.drop (i + 1) = rest := by
  constructor
  · rw [← Nat.add_zero i, ← List.getElem?_drop, h]
    rfl
  · rw [← List.tail_drop, h, List.tail_cons]

theorem SingleAssignment.names_nodup (h : SingleAssignment program inputs) (hstmt : program[i]? = some stmt) :
    stmt.names.Nodup :=
  (List.nodup_flatMap.mp h.distinct).1 stmt (List.mem_of_getElem? hstmt)

variable [DecidableEq ν]

/-- A producer is a statement of that name. -/
theorem producer_spec (h : producer program name = some i) : ∃ stmt, program[i]? = some stmt ∧ name ∈ stmt.names := by
  have hfound := List.find?_some h
  cases hstmt : program[i]? with
  | none =>
    rw [hstmt] at hfound
    cases hfound
  | some stmt =>
    rw [hstmt] at hfound
    exact ⟨stmt, rfl, of_decide_eq_true hfound⟩

/-- The producer of a name is the statement whose result it is. -/
theorem SingleAssignment.producer_eq (h : SingleAssignment program inputs) (hstmt : program[i]? = some stmt)
    (hname : name ∈ stmt.names) : producer program name = some i := by
  cases hfind : producer program name with
  | none =>
    have hnone := List.find?_eq_none.mp hfind i (by
      rw [List.mem_reverse, List.mem_range]
      exact (List.getElem?_eq_some_iff.mp hstmt).1)
    rw [hstmt] at hnone
    exact absurd (decide_eq_true hname) hnone
  | some k =>
    obtain ⟨other, hother, hmem⟩ := producer_spec hfind
    rw [h.unique hother hstmt hmem hname]

/-- What no statement gives has no producer. -/
theorem producer_eq_none : producer program name = none ↔ name ∉ program.flatMap Statement.names := by
  constructor
  · intro h hmem
    obtain ⟨stmt, hstmt, hname⟩ := List.mem_flatMap.mp hmem
    obtain ⟨i, hi, rfl⟩ := List.mem_iff_getElem.mp hstmt
    have hnone := List.find?_eq_none.mp h i (by rwa [List.mem_reverse, List.mem_range])
    rw [List.getElem?_eq_getElem hi] at hnone
    exact hnone (decide_eq_true hname)
  · intro h
    cases hfind : producer program name with
    | none => rfl
    | some i =>
      obtain ⟨stmt, hstmt, hname⟩ := producer_spec hfind
      exact absurd (List.mem_flatMap.mpr ⟨stmt, List.mem_of_getElem? hstmt, hname⟩) h

/-- An operand is a result of an earlier statement. -/
theorem SingleAssignment.producer_lt (h : SingleAssignment program inputs) (hstmt : program[i]? = some stmt)
    (hname : name ∈ stmt.arrays ++ stmt.hosts) (hk : producer program name = some k) : k < i := by
  rcases h.earlier i stmt hstmt name hname with hinput | ⟨k', stmt', hlt, hstmt', hmem⟩
  · rw [producer_eq_none.mpr (h.fresh name hinput)] at hk
    cases hk
  · rw [h.producer_eq hstmt' hmem] at hk
    cases hk
    exact hlt

theorem mem_operands :
    name ∈ operands program stmt ↔ name ∈ stmt.arrays ++ stmt.hosts ∧ ∃ k, producer program name = some k := by
  rw [operands, List.mem_filter, Option.isSome_iff_exists]

end Producers

section Writing

variable [DecidableEq ν]

theorem writeAll_of_notMem {values : ν → Option V} (h : name ∉ pairs.map Prod.fst) :
    writeAll values pairs name = values name := by
  induction pairs generalizing values with
  | nil => rfl
  | cons pair rest ih =>
    rw [List.map_cons, List.mem_cons, not_or] at h
    change writeAll (Function.update values pair.1 (some pair.2)) rest name = _
    rw [ih h.2, Function.update_of_ne h.1]

/-- Written once, a name reads what was written. -/
theorem writeAll_of_nodup {values : ν → Option V} (hkeys : (pairs.map Prod.fst).Nodup) (name : ν) :
    writeAll values pairs name = (find pairs name).or (values name) := by
  induction pairs generalizing values with
  | nil => rfl
  | cons pair rest ih =>
    rw [List.map_cons, List.nodup_cons] at hkeys
    change writeAll (Function.update values pair.1 (some pair.2)) rest name = _
    rw [ih hkeys.2, find]
    by_cases hname : pair.1 = name
    · subst hname
      rw [if_pos rfl, find_eq_none_iff.mpr hkeys.1, Function.update_self, Option.none_or, Option.some_or]
    · rw [if_neg hname, Function.update_of_ne (Ne.symm hname)]

end Writing

section Tables

/-- The value table and the host table of an execution. -/
structure Tables (ν V M : Type) where
  values : ν → Option V
  hosts : ν → Option M

/-- An operand read as an array: its value, or an array made from the host data of a constant without one. -/
def Tables.array (kernels : Kernels V M) (t : Tables ν V M) (name : ν) : Option V :=
  match t.values name with
  | some v => some v
  | none => (t.hosts name).bind kernels.ofHost

/-- The array of a constant. -/
def Literal.toArray : Literal V M → Option V
  | .text _ => none
  | .inline _ array => array
  | .blob array _ => some array
  | .broken => none

/-- The host data of a constant. -/
def Literal.toHost : Literal V M → Option M
  | .text host => some host
  | .inline host _ => some host
  | .blob _ host => host
  | .broken => none

/-- What a statement writes to the value table, if it can be executed. -/
def evaluate (kernels : Kernels V M) (i : ℕ) (stmt : Statement ν) (t : Tables ν V M) : Option (List (ν × V)) :=
  match stmt.op with
  | .const => (kernels.literal i).toArray.map fun v => [(stmt.name, v)]
  | .split => do
    let xs ← stmt.hosts.mapM t.hosts
    match stmt.arrays with
    | [x] => do
      let v ← t.array kernels x
      let parts ← kernels.split i v xs
      if parts.length = stmt.names.length then some (stmt.names.zip parts) else none
    | _ => none
  | _ => do
    let vs ← stmt.arrays.mapM (t.array kernels)
    let xs ← stmt.hosts.mapM t.hosts
    let v ← kernels.op i vs xs
    some [(stmt.name, v)]

variable [DecidableEq ν]

/-- Executing one statement; one that cannot be executed writes nothing. -/
def inOrderStep (kernels : Kernels V M) (i : ℕ) (stmt : Statement ν) (t : Tables ν V M) : Tables ν V M where
  values := writeAll t.values ((evaluate kernels i stmt t).getD [])
  hosts := fun name =>
    if stmt.op = .const ∧ name = stmt.name then (kernels.literal i).toHost else t.hosts name

/-- Executing statements in order. -/
def inOrderFrom (kernels : Kernels V M) : ℕ → Program ν → Tables ν V M → Tables ν V M
  | _, [], t => t
  | i, stmt :: rest, t => inOrderFrom kernels (i + 1) rest (inOrderStep kernels i stmt t)

/-- Executing a program on its inputs. -/
def inOrder (kernels : Kernels V M) (program : Program ν) (inputs : List (ν × V)) : Tables ν V M :=
  inOrderFrom kernels 0 program ⟨writeAll (fun _ => none) inputs, fun _ => none⟩

end Tables

variable {t : Tables ν V M}

section Solving

variable [DecidableEq ν] {kernels : Kernels V M} {inputs : List (ν × V)}

omit [DecidableEq ν] in
/-- What a statement writes has its own names. -/
theorem evaluate_keys (h : evaluate kernels i stmt t = some pairs) :
    pairs.map Prod.fst = [stmt.name] ∨ pairs.map Prod.fst = stmt.names := by
  unfold evaluate at h
  split at h
  · obtain ⟨v, _, rfl⟩ := Option.map_eq_some_iff.mp h
    exact Or.inl rfl
  · obtain ⟨xs, _, h⟩ := Option.bind_eq_some_iff.mp h
    split at h
    · obtain ⟨v, _, h⟩ := Option.bind_eq_some_iff.mp h
      obtain ⟨parts, _, h⟩ := Option.bind_eq_some_iff.mp h
      split_ifs at h with hlength
      cases h
      exact Or.inr (List.map_fst_zip hlength.ge)
    · cases h
  · obtain ⟨vs, _, h⟩ := Option.bind_eq_some_iff.mp h
    obtain ⟨xs, _, h⟩ := Option.bind_eq_some_iff.mp h
    obtain ⟨v, _, h⟩ := Option.bind_eq_some_iff.mp h
    cases h
    exact Or.inl rfl

omit [DecidableEq ν] in
/-- What a statement writes depends on its operands alone. -/
theorem evaluate_congr {t' : Tables ν V M}
    (h : ∀ name ∈ stmt.arrays ++ stmt.hosts, t.values name = t'.values name ∧ t.hosts name = t'.hosts name) :
    evaluate kernels i stmt t = evaluate kernels i stmt t' := by
  have harray : ∀ name ∈ stmt.arrays, t.array kernels name = t'.array kernels name := by
    intro name hname
    obtain ⟨hvalue, hhost⟩ := h name (List.mem_append_left _ hname)
    rw [Tables.array, Tables.array, hvalue, hhost]
  have hhosts : stmt.hosts.mapM t.hosts = stmt.hosts.mapM t'.hosts :=
    mapM_congr_mem fun name hname => (h name (List.mem_append_right _ hname)).2
  unfold evaluate
  rw [hhosts, mapM_congr_mem harray]
  split
  · rfl
  · congr 1
    funext xs
    split
    · rename_i x hx
      rw [harray x (by rw [hx]; exact List.mem_cons_self)]
    · rfl
  · rfl

/-- A program in two parts runs in turn. -/
theorem inOrderFrom_append (i : ℕ) (front back : Program ν) (t : Tables ν V M) :
    inOrderFrom kernels i (front ++ back) t =
      inOrderFrom kernels (i + front.length) back (inOrderFrom kernels i front t) := by
  induction front generalizing i t with
  | nil => rfl
  | cons stmt rest ih =>
    rw [List.cons_append, inOrderFrom, inOrderFrom, ih, List.length_cons]
    congr 1
    omega

/-- A statement writes its own names only. -/
theorem inOrderStep_frame (i : ℕ) (t : Tables ν V M) (h : name ∉ stmt.names) :
    (inOrderStep kernels i stmt t).values name = t.values name ∧
      (inOrderStep kernels i stmt t).hosts name = t.hosts name := by
  have hfirst : name ≠ stmt.name := by
    rintro rfl
    exact h List.mem_cons_self
  constructor
  · apply writeAll_of_notMem
    cases heval : evaluate kernels i stmt t with
    | none => exact List.not_mem_nil
    | some pairs =>
      rw [Option.getD_some]
      rcases evaluate_keys heval with hkeys | hkeys <;> rw [hkeys]
      · exact fun hmem => hfirst (List.mem_singleton.mp hmem)
      · exact h
  · exact if_neg fun hname => hfirst hname.2

/-- Statements leave the names they do not produce alone. -/
theorem inOrderFrom_frame (i : ℕ) {rest : Program ν} (t : Tables ν V M) (h : name ∉ rest.flatMap Statement.names) :
    (inOrderFrom kernels i rest t).values name = t.values name ∧
      (inOrderFrom kernels i rest t).hosts name = t.hosts name := by
  induction rest generalizing i t with
  | nil => exact ⟨rfl, rfl⟩
  | cons stmt rest ih =>
    rw [List.flatMap_cons, List.mem_append, not_or] at h
    have hstep : (inOrderStep kernels i stmt t).values name = t.values name ∧
        (inOrderStep kernels i stmt t).hosts name = t.hosts name := inOrderStep_frame i t h.1
    have hrest := ih (i + 1) (inOrderStep kernels i stmt t) h.2
    exact ⟨hrest.1.trans hstep.1, hrest.2.trans hstep.2⟩

/-- The tables solve the equations of the program. -/
structure Solves (kernels : Kernels V M) (program : Program ν) (inputs : List (ν × V)) (t : Tables ν V M) : Prop where
  values : ∀ (i : ℕ) (stmt : Statement ν), program[i]? = some stmt → ∀ name ∈ stmt.names,
    t.values name = (evaluate kernels i stmt t).bind fun pairs => find pairs name
  hosts : ∀ (i : ℕ) (stmt : Statement ν), program[i]? = some stmt → ∀ name ∈ stmt.names,
    t.hosts name = if stmt.op = .const ∧ name = stmt.name then (kernels.literal i).toHost else none
  inputs : ∀ name, producer program name = none →
    t.values name = writeAll (fun _ => none) inputs name ∧ t.hosts name = none

/-- Only a constant has host data. -/
theorem Solves.constant_of_host (h : Solves kernels program inputs t) {x : M} (hhost : t.hosts name = some x) :
    ∃ k stmt, producer program name = some k ∧ program[k]? = some stmt ∧ stmt.op = .const ∧
      name = stmt.name := by
  cases hproducer : producer program name with
  | none =>
    rw [(h.inputs name hproducer).2] at hhost
    cases hhost
  | some k =>
    obtain ⟨stmt, hstmt, hname⟩ := producer_spec hproducer
    rw [h.hosts k stmt hstmt name hname] at hhost
    split_ifs at hhost with hconstant
    exact ⟨k, stmt, rfl, hstmt, hconstant.1, hconstant.2⟩

/-- The value of a constant is its array. -/
theorem Solves.values_constant (h : Solves kernels program inputs t) (hstmt : program[k]? = some stmt)
    (hop : stmt.op = .const) : t.values stmt.name = (kernels.literal k).toArray := by
  rw [h.values k stmt hstmt stmt.name List.mem_cons_self, evaluate, hop]
  dsimp only
  cases (kernels.literal k).toArray with
  | none => rfl
  | some v =>
    rw [Option.map_some, Option.bind_some, find, if_pos rfl]

/-- The value of an operation is what it gives for the values of its operands. -/
theorem Solves.values_operation (h : Solves kernels program inputs t) (hstmt : program[k]? = some stmt)
    (hconstant : stmt.op ≠ .const) (hsplit : stmt.op ≠ .split) {vs : List V} {xs : List M} {v : V}
    (hvs : stmt.arrays.mapM (t.array kernels) = some vs) (hxs : stmt.hosts.mapM t.hosts = some xs)
    (hv : kernels.op k vs xs = some v) : t.values stmt.name = some v := by
  rw [h.values k stmt hstmt stmt.name List.mem_cons_self, evaluate]
  split
  · exact absurd ‹stmt.op = .const› hconstant
  · exact absurd ‹stmt.op = .split› hsplit
  · rw [hvs, hxs]
    change ((kernels.op k vs xs).bind fun v => some [(stmt.name, v)]).bind _ = _
    rw [hv, Option.bind_some, Option.bind_some, find, if_pos rfl]

/-- The tables before a statement. -/
def inOrderUpTo (kernels : Kernels V M) (program : Program ν) (inputs : List (ν × V)) (i : ℕ) : Tables ν V M :=
  inOrderFrom kernels 0 (program.take i) ⟨writeAll (fun _ => none) inputs, fun _ => none⟩

theorem inOrder_eq (hstmt : program[i]? = some stmt) :
    inOrder kernels program inputs = inOrderFrom kernels (i + 1) (program.drop (i + 1))
      (inOrderStep kernels i stmt (inOrderUpTo kernels program inputs i)) := by
  obtain ⟨hi, rfl⟩ := List.getElem?_eq_some_iff.mp hstmt
  have hsplit : program = program.take i ++ program[i] :: program.drop (i + 1) := by
    rw [← List.drop_eq_getElem_cons hi, List.take_append_drop]
  have hlength : (program.take i).length = i := List.length_take_of_le hi.le
  unfold inOrder inOrderUpTo
  conv_lhs => rw [hsplit, inOrderFrom_append, hlength, Nat.zero_add, inOrderFrom]

omit [DecidableEq ν] in
/-- A result is not produced before its statement, nor after it. -/
theorem SingleAssignment.notMem_of_ne {inputs : List ν} (h : SingleAssignment program inputs) {i : ℕ}
    {stmt : Statement ν} (hstmt : program[i]? = some stmt) {name : ν} (hname : name ∈ stmt.names) :
    name ∉ (program.take i).flatMap Statement.names ∧ name ∉ (program.drop (i + 1)).flatMap Statement.names := by
  constructor
  · intro hmem
    obtain ⟨other, hother, hin⟩ := List.mem_flatMap.mp hmem
    obtain ⟨k, hk, rfl⟩ := List.mem_iff_getElem.mp hother
    rw [List.length_take] at hk
    rw [List.getElem_take] at hin
    have := h.unique hstmt (List.getElem?_eq_getElem (Nat.lt_min.mp hk).2) hname hin
    omega
  · intro hmem
    obtain ⟨other, hother, hin⟩ := List.mem_flatMap.mp hmem
    obtain ⟨k, hk, rfl⟩ := List.mem_iff_getElem.mp hother
    rw [List.length_drop] at hk
    rw [List.getElem_drop] at hin
    have := h.unique hstmt (List.getElem?_eq_getElem (by omega : i + 1 + k < program.length)) hname hin
    omega

/-- Running in order solves the program. -/
theorem inOrder_solves (hssa : SingleAssignment program (inputs.map Prod.fst)) :
    Solves kernels program inputs (inOrder kernels program inputs) := by
  have hinputs : ∀ name, producer program name = none →
      (inOrder kernels program inputs).values name = writeAll (fun _ => none) inputs name ∧
        (inOrder kernels program inputs).hosts name = none := fun name hname =>
    inOrderFrom_frame 0 _ (producer_eq_none.mp hname)
  have hoperands : ∀ (i : ℕ) (stmt : Statement ν), program[i]? = some stmt → ∀ name ∈ stmt.arrays ++ stmt.hosts,
      (inOrderUpTo kernels program inputs i).values name = (inOrder kernels program inputs).values name ∧
        (inOrderUpTo kernels program inputs i).hosts name = (inOrder kernels program inputs).hosts name := by
    intro i stmt hstmt name hname
    have hlater : name ∉ (program.drop i).flatMap Statement.names := by
      intro hmem
      obtain ⟨other, hother, hin⟩ := List.mem_flatMap.mp hmem
      obtain ⟨k, hk, rfl⟩ := List.mem_iff_getElem.mp hother
      rw [List.length_drop] at hk
      rw [List.getElem_drop] at hin
      have hproducer := hssa.producer_eq (List.getElem?_eq_getElem (by omega : i + k < program.length)) hin
      have := hssa.producer_lt hstmt hname hproducer
      omega
    have hlength : (program.take i).length = i :=
      List.length_take_of_le (List.getElem?_eq_some_iff.mp hstmt).1.le
    have hall : inOrder kernels program inputs =
        inOrderFrom kernels i (program.drop i) (inOrderUpTo kernels program inputs i) := by
      unfold inOrder inOrderUpTo
      conv_lhs => rw [← List.take_append_drop i program, inOrderFrom_append, hlength, Nat.zero_add]
    rw [hall]
    exact ⟨(inOrderFrom_frame i _ hlater).1.symm, (inOrderFrom_frame i _ hlater).2.symm⟩
  refine ⟨fun i stmt hstmt name hname => ?_, fun i stmt hstmt name hname => ?_, hinputs⟩
  · obtain ⟨hbefore, hafter⟩ := hssa.notMem_of_ne hstmt hname
    have hfresh : name ∉ inputs.map Prod.fst := fun hin =>
      hssa.fresh name hin (List.mem_flatMap.mpr ⟨stmt, List.mem_of_getElem? hstmt, hname⟩)
    have hnone : (inOrderUpTo kernels program inputs i).values name = none := by
      rw [inOrderUpTo, (inOrderFrom_frame 0 _ hbefore).1]
      exact writeAll_of_notMem hfresh
    rw [← evaluate_congr (hoperands i stmt hstmt), inOrder_eq hstmt, (inOrderFrom_frame _ _ hafter).1]
    change writeAll _ ((evaluate kernels i stmt _).getD []) name = _
    cases heval : evaluate kernels i stmt (inOrderUpTo kernels program inputs i) with
    | none => exact hnone
    | some pairs =>
      have hkeys : (pairs.map Prod.fst).Nodup := by
        rcases evaluate_keys heval with hkeys | hkeys <;> rw [hkeys]
        · exact List.nodup_singleton _
        · exact hssa.names_nodup hstmt
      rw [Option.getD_some, writeAll_of_nodup hkeys, hnone, Option.or_none]
      rfl
  · obtain ⟨hbefore, hafter⟩ := hssa.notMem_of_ne hstmt hname
    rw [inOrder_eq hstmt, (inOrderFrom_frame _ _ hafter).2]
    change (if stmt.op = .const ∧ name = stmt.name then (kernels.literal i).toHost else _) = _
    congr 1
    exact (inOrderFrom_frame 0 _ hbefore).2

end Solving

end AneLinux.Encoder
