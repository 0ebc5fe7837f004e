import AneLinux.Encoder.FirstPass

/-!
# What lasts through a pass

A pass that raises leaves its runner as it was at that point, and the next call starts from there. A condition on the
runner that the results of statements, their flags and evaluated constants do not break holds after every call,
however it ended.
-/

namespace AneLinux.Encoder

open AneLinux.Support Attempt Direct

/-- Whether evaluating a constant ends without an exception. -/
def Literal.whole {V M : Type} : Literal V M → Bool
  | .text _ => true
  | .inline _ array => array.isSome
  | .blob _ _ => true
  | .broken => false

variable {ν V M : Type} [DecidableEq ν]

variable {plan : Plan ν} {kernels : Kernels V M} {device : Job V → Except String (ℕ → V)}
  {ensure : ν → Pass Id ν V M Unit} {x : ℕ} {stmt : Statement ν}

section Evaluating

variable (kernels device) in
/-- Evaluating a constant stores what it has, and raises exactly when it is not whole. -/
theorem evalLiteral_eq (x : ℕ) (name : ν) (s : Runner ν V M) :
    ∃ s', Evaluated (kernels.literal x) name s s' ∧ evalLiteral kernels (direct device) x name s =
      (if (kernels.literal x).whole then .ok () else .error (.constant x), s') := by
  unfold evalLiteral
  cases hliteral : kernels.literal x with
  | text host =>
    exact ⟨s.setHost name host, ⟨rfl, rfl, rfl, fun _ hne => ⟨rfl, s.setHost_hosts_of_ne host hne⟩, rfl,
      s.setHost_hosts_self host⟩, rfl⟩
  | inline host array =>
    cases array with
    | none =>
      exact ⟨s.setHost name host, ⟨rfl, rfl, rfl, fun _ hne => ⟨rfl, s.setHost_hosts_of_ne host hne⟩, rfl,
        s.setHost_hosts_self host⟩, rfl⟩
    | some v =>
      exact ⟨(s.setHost name host).setValue name v, ⟨rfl, rfl, rfl, fun _ hne =>
        ⟨(s.setHost name host).setValue_values_of_ne v hne, s.setHost_hosts_of_ne host hne⟩,
        (s.setHost name host).setValue_values_self name v, s.setHost_hosts_self host⟩, rfl⟩
  | blob v host =>
    cases host with
    | none =>
      exact ⟨s.setValue name v, ⟨rfl, rfl, rfl, fun _ hne => ⟨s.setValue_values_of_ne v hne, rfl⟩,
        s.setValue_values_self name v, rfl⟩, rfl⟩
    | some host =>
      exact ⟨(s.setValue name v).setHost name host, ⟨rfl, rfl, rfl, fun _ hne =>
        ⟨s.setValue_values_of_ne v hne, s.setHost_hosts_of_ne host hne⟩, s.setValue_values_self name v,
        s.setHost_hosts_self host⟩, rfl⟩
  | broken => exact ⟨s, ⟨rfl, rfl, rfl, fun _ _ => ⟨rfl, rfl⟩, rfl, rfl⟩, rfl⟩

/-- What executing a constant changes: its flag, its array and its host data, and with the cache on the cached array. -/
structure Executed (plan : Plan ν) (literal : Literal V M) (x : ℕ) (name : ν) (s s' : Runner ν V M) : Prop where
  done : s'.done = (s.begin x).done
  siluDone : s'.siluDone = s.siluDone
  other : ∀ other, other ≠ name → s'.values other = s.values other ∧ s'.hosts other = s.hosts other ∧
    find s'.constValues other = find s.constValues other
  value : s'.values name = literal.toArray.or (s.values name)
  host : s'.hosts name = literal.toHost.or (s.hosts name)
  cached : find s'.constValues name =
    if literal.whole = true ∧ plan.cache = true then (s'.values name).or (find s.constValues name)
    else find s.constValues name

variable (plan kernels device) in
/-- A constant is evaluated when its flag is set, and stored when it is whole. -/
theorem evalConst_begin (x : ℕ) (name : ν) (s : Runner ν V M) :
    ∃ s', Executed plan (kernels.literal x) x name s s' ∧
      evalConst plan kernels (direct device) x name (s.begin x) =
        (if (kernels.literal x).whole then .ok () else .error (.constant x), s') := by
  obtain ⟨s', hevaluated, hrun⟩ := evalLiteral_eq kernels device x name (s.begin x)
  unfold evalConst
  cases hwhole : (kernels.literal x).whole with
  | true =>
    rw [hwhole, if_pos rfl] at hrun
    rw [bind_of_ok hrun, if_pos rfl]
    refine ⟨s'.store plan.cache name, ?_, rfl⟩
    have hfind := s'.find_store plan.cache name
    rw [hevaluated.constValues] at hfind
    obtain ⟨constants, hstore⟩ := s'.store_eq plan.cache name
    rw [hstore] at hfind ⊢
    refine ⟨hevaluated.done, hevaluated.siluDone, fun other hne => ?_, hevaluated.value, hevaluated.host, ?_⟩
    · obtain ⟨hvalue, hhost⟩ := hevaluated.other other hne
      refine ⟨hvalue, hhost, (hfind other).trans (if_neg fun hboth => hne hboth.2.symm)⟩
    · rw [hfind name, hwhole]
      simp only [and_true, true_and]
      rfl
  | false =>
    rw [hwhole, if_neg Bool.false_ne_true] at hrun
    rw [bind_of_error hrun, if_neg Bool.false_ne_true]
    refine ⟨s', ⟨hevaluated.done, hevaluated.siluDone, fun other hne => ?_, hevaluated.value, hevaluated.host, ?_⟩, rfl⟩
    · obtain ⟨hvalue, hhost⟩ := hevaluated.other other hne
      rw [hevaluated.constValues]
      exact ⟨hvalue, hhost, rfl⟩
    · rw [hwhole, if_neg fun hboth => Bool.false_ne_true hboth.1, hevaluated.constValues]
      rfl

variable {s : Runner ν V M}

/-- A statement done before is not run again. -/
theorem execute_of_done (hdone : s.done x = true) : execute plan kernels (direct device) ensure x s = (.ok (), s) := by
  unfold execute
  rw [Direct.reads_bind, id_eq, if_pos hdone]
  rfl

/-- One not done is begun, then run. -/
theorem execute_of_undone (hstmt : plan.program[x]? = some stmt) (hdone : s.done x = false) :
    execute plan kernels (direct device) ensure x s =
      executeInner plan kernels (direct device) ensure x stmt (s.begin x) := by
  unfold execute
  rw [Direct.reads_bind, id_eq, hdone, if_neg Bool.false_ne_true, Direct.change_bind, hstmt]

variable (kernels device ensure) in
/-- A constant is placed, and raises where it is not whole. -/
theorem execute_constant (hstmt : plan.program[x]? = some stmt) (hop : stmt.op = .const) (hdone : s.done x = false) :
    ∃ s', Executed plan (kernels.literal x) x stmt.name s s' ∧
      execute plan kernels (direct device) ensure x s =
        (if (kernels.literal x).whole then .ok () else .error (.constant x), s') := by
  rw [execute_of_undone hstmt hdone, executeInner, if_pos hop]
  exact evalConst_begin plan kernels device x stmt.name s

variable {name : ν}

/-- A name that is held asks for nothing. -/
theorem ensureWith_of_has (hhas : s.has name = true) :
    ensureWith plan kernels (direct device) ensure name s = (.ok (), s) := by
  unfold ensureWith
  rw [Direct.reads_bind, id_eq, if_pos hhas]
  rfl

variable (hhas : ¬ s.has name = true)

include hhas

/-- A name nothing produces is refused. -/
theorem ensureWith_of_none (hproducer : producer plan.program name = none) :
    ensureWith plan kernels (direct device) ensure name s = (.error (.unresolvedOperand name), s) := by
  unfold ensureWith
  rw [Direct.reads_bind, id_eq, if_neg hhas, hproducer]
  rfl

/-- A finished statement is not demanded again. -/
theorem ensureWith_of_done (hproducer : producer plan.program name = some x) (hdone : s.done x = true) :
    ensureWith plan kernels (direct device) ensure name s = (.ok (), s) := by
  unfold ensureWith
  rw [Direct.reads_bind, id_eq, if_neg hhas, hproducer]
  dsimp only
  rw [if_pos hdone]
  rfl

/-- Else its operands come first. -/
theorem ensureWith_of_undone (hproducer : producer plan.program name = some x) (hstmt : plan.program[x]? = some stmt)
    (hdone : ¬ s.done x = true) :
    ensureWith plan kernels (direct device) ensure name s =
      (each ensure (operands plan.program stmt) >>= fun _ => execute plan kernels (direct device) ensure x) s := by
  unfold ensureWith
  rw [Direct.reads_bind, id_eq, if_neg hhas, hproducer]
  dsimp only
  rw [if_neg hdone, hstmt]

end Evaluating

/-- A condition that no part of a pass breaks: results and flags of statements that are no constants, silus that are
left alone, and constants when they are evaluated. -/
structure Lasting (plan : Plan ν) (kernels : Kernels V M) (inv : Runner ν V M → Prop) : Prop where
  setValue : ∀ (s : Runner ν V M) (x : ℕ) (stmt : Statement ν) (name : ν) (v : V), plan.program[x]? = some stmt →
    stmt.op ≠ .const → name ∈ stmt.names → inv s → inv (s.setValue name v)
  begin : ∀ (s : Runner ν V M) (x : ℕ) (stmt : Statement ν), plan.program[x]? = some stmt → stmt.op ≠ .const → inv s →
    inv (s.begin x)
  discard : ∀ (s : Runner ν V M) (silu : ℕ), inv s → inv (s.discard silu)
  constant : ∀ (s s' : Runner ν V M) (x : ℕ) (stmt : Statement ν), plan.program[x]? = some stmt → stmt.op = .const →
    s.done x = false → Executed plan (kernels.literal x) x stmt.name s s' → inv s → inv s'

section Keeping

variable {declared : List ν} {inv : Runner ν V M → Prop} (hlasting : Lasting plan kernels inv)
  (hplan : plan.Formed declared) (hensure : ∀ name, Keeps inv (ensure name))

variable (hstmt : plan.program[x]? = some stmt)

include hstmt hlasting in
theorem Lasting.keeps_setValue (hconstant : stmt.op ≠ .const) (v : V) :
    Keeps inv (change fun s => s.setValue stmt.name v : Pass Id ν V M Unit) :=
  Keeps.change fun s hs => hlasting.setValue s x stmt stmt.name v hstmt hconstant List.mem_cons_self hs

include hstmt hlasting in
/-- Setting the results of a statement keeps the invariant. -/
theorem Lasting.setValues (hconstant : stmt.op ≠ .const) {pairs : List (ν × V)}
    (hpairs : ∀ pair ∈ pairs, pair.1 ∈ stmt.names) {s : Runner ν V M} (hs : inv s) : inv (s.setValues pairs) := by
  induction pairs generalizing s with
  | nil => exact hs
  | cons pair rest ih =>
    exact ih (fun other hother => hpairs other (List.mem_cons_of_mem pair hother))
      (hlasting.setValue s x stmt pair.1 pair.2 hstmt hconstant (hpairs pair List.mem_cons_self) hs)

include hensure in
theorem keeps_tensor (name : ν) : Keeps inv (tensor kernels (direct device) ensure name) := by
  refine (hensure name).bind fun _ => (Keeps.reads id).bind fun s => ?_
  cases s.values name with
  | some v => exact Keeps.pure v
  | none => exact Keeps.orRaise _ _

omit [DecidableEq ν] in
include hensure in
theorem keeps_scalar (name : ν) : Keeps inv (scalar ensure name) :=
  (hensure name).bind fun _ => (Keeps.reads id).bind fun _ => Keeps.orRaise _ _

omit [DecidableEq ν] in
include hensure in
theorem keeps_requireFlags (i : ℕ) (flags : List (ν × Bool)) : Keeps inv (requireFlags kernels ensure i flags) := by
  induction flags with
  | nil => exact Keeps.pure ()
  | cons flag rest ih =>
    refine (keeps_scalar hensure flag.1).bind fun y => ?_
    split_ifs
    · exact ih
    · exact Keeps.raise _

include hstmt hlasting hensure in
theorem keeps_runIslandA {content : ℕ} {contentStmt : Statement ν} (hconstant : stmt.op ≠ .const)
    (hcontent : plan.program[content]? = some contentStmt) (hconstantc : contentStmt.op ≠ .const) :
    Keeps inv (runIslandA kernels (direct device) ensure x content stmt contentStmt) := by
  refine (Keeps.orRaise _ _).bind fun _ => (Keeps.orRaise _ _).bind fun _ => ?_
  refine (keeps_requireFlags hensure x _).bind fun _ => (keeps_requireFlags hensure content _).bind fun _ => ?_
  refine (keeps_tensor hensure _).bind fun _ => (keeps_tensor hensure _).bind fun _ => ?_
  refine (keeps_tensor hensure _).bind fun _ => (keeps_tensor hensure _).bind fun _ => ?_
  refine (Keeps.call _).bind fun results => Keeps.change fun s hs => ?_
  have hscores := hlasting.setValue s x stmt stmt.name (results 0) hstmt hconstant List.mem_cons_self hs
  have hboth := hlasting.setValue _ content contentStmt contentStmt.name (results 1) hcontent hconstantc
    List.mem_cons_self hscores
  exact hlasting.begin _ content contentStmt hcontent hconstantc hboth

include hstmt hlasting hensure in
theorem keeps_runIslandB (hconstant : stmt.op ≠ .const) :
    Keeps inv (runIslandB kernels (direct device) ensure x stmt) := by
  unfold runIslandB
  split
  · refine (keeps_tensor hensure _).bind fun _ => (keeps_tensor hensure _).bind fun _ => ?_
    refine (keeps_tensor hensure _).bind fun _ => ?_
    split_ifs
    · exact (Keeps.call _).bind fun results => hlasting.keeps_setValue hstmt hconstant _
    · exact Keeps.raise _
  · exact Keeps.raise _

include hstmt hlasting hensure in
theorem keeps_runIslandC (hconstant : stmt.op ≠ .const) :
    Keeps inv (runIslandC kernels (direct device) ensure x stmt) := by
  refine (Keeps.orRaise _ _).bind fun _ => (keeps_requireFlags hensure x _).bind fun _ => ?_
  refine (keeps_tensor hensure _).bind fun _ => (keeps_tensor hensure _).bind fun _ => ?_
  exact (Keeps.call _).bind fun results => hlasting.keeps_setValue hstmt hconstant _

include hstmt hlasting hensure in
theorem keeps_runGate (hconstant : stmt.op ≠ .const) (gate : Gate ν) :
    Keeps inv (runGate kernels (direct device) ensure x stmt gate) := by
  refine (keeps_tensor hensure _).bind fun _ => (keeps_tensor hensure _).bind fun _ => ?_
  exact (Keeps.orRaise _ _).bind fun v => hlasting.keeps_setValue hstmt hconstant _

include hstmt hlasting hensure in
theorem keeps_runSplit (hconstant : stmt.op ≠ .const) :
    Keeps inv (runSplit kernels (direct device) ensure x stmt) := by
  refine (Keeps.collect _ fun name _ => keeps_scalar hensure name).bind fun _ => ?_
  split
  · refine (keeps_tensor hensure _).bind fun _ => (Keeps.orRaise _ _).bind fun parts => ?_
    split_ifs
    · refine Keeps.change fun s hs => hlasting.setValues hstmt hconstant (fun pair hpair => ?_) hs
      exact (List.of_mem_zip (show (pair.1, pair.2) ∈ _ from hpair)).1
    · exact Keeps.raise _
  · exact Keeps.raise _

include hlasting in
theorem keeps_applyLinear (silu : ℕ) (vs : List V) (xs : List M) :
    Keeps inv (applyLinear kernels x silu vs xs : Pass Id ν V M V) := by
  refine (Keeps.orRaise _ _).bind fun fused => ?_
  split_ifs
  · exact Keeps.orRaise _ _
  · exact (Keeps.change fun s hs => hlasting.discard s silu hs).bind fun _ => Keeps.orRaise _ _

include hstmt hlasting hplan hensure in
/-- A host operation keeps the invariant. -/
theorem keeps_runApply (hconstant : stmt.op ≠ .const) :
    Keeps inv (runApply plan kernels (direct device) ensure x stmt) := by
  refine (Keeps.collect _ fun name _ => keeps_tensor hensure name).bind fun vs => ?_
  refine (Keeps.collect _ fun name _ => keeps_scalar hensure name).bind fun xs => ?_
  split
  · exact (Keeps.orRaise _ _).bind fun v => hlasting.keeps_setValue hstmt hconstant _
  · rename_i silu hfind
    refine (keeps_applyLinear hlasting silu vs xs).bind fun v => ?_
    refine (hlasting.keeps_setValue hstmt hconstant _).bind fun _ => ?_
    obtain ⟨user, reader, hp⟩ := hplan.arities.siluPair (find_linearSilus.mp hfind)
    rw [hp.siluAt]
    exact hlasting.keeps_setValue hp.siluAt (by rw [hp.isSilu]; decide) _

include hstmt hlasting hplan hensure in
/-- A device operation keeps the invariant. -/
theorem keeps_runGpu (hconstant : stmt.op ≠ .const) :
    Keeps inv (runGpu plan kernels (direct device) ensure x stmt) := by
  refine (Keeps.reads id).bind fun s => ?_
  split
  · exact Keeps.pure ()
  split
  · exact Keeps.pure ()
  split
  · exact keeps_runGate hlasting hensure hstmt hconstant _
  split
  · exact keeps_runSplit hlasting hensure hstmt hconstant
  · exact keeps_runApply hlasting hplan hensure hstmt hconstant

include hstmt hlasting hplan hensure in
theorem keeps_runContent (hconstant : stmt.op ≠ .const) (scores : ℕ) :
    Keeps inv (runContent plan kernels (direct device) ensure x scores stmt) := by
  refine (Keeps.reads id).bind fun s => ?_
  split_ifs
  · exact keeps_runGpu hlasting hplan hensure hstmt hconstant
  · split
    · exact Keeps.raise _
    · refine (hensure _).bind fun _ => (Keeps.reads id).bind fun s => ?_
      split_ifs
      · exact Keeps.pure ()
      · exact keeps_runGpu hlasting hplan hensure hstmt hconstant

include hstmt hlasting hplan hensure in
/-- A statement that is no constant. -/
theorem keeps_executeInner (hconstant : stmt.op ≠ .const) :
    Keeps inv (executeInner plan kernels (direct device) ensure x stmt) := by
  unfold executeInner
  rw [if_neg hconstant]
  split
  · rename_i content _ hfind
    obtain ⟨contentStmt, hcontent, hop, -⟩ := (indexIslands_eq_some hplan.islands).content (mem_of_find hfind)
    rw [hcontent]
    exact keeps_runIslandA hlasting hensure hstmt hconstant hcontent (by rw [hop]; decide)
  split
  · exact keeps_runIslandB hlasting hensure hstmt hconstant
  split
  · exact keeps_runIslandC hlasting hensure hstmt hconstant
  split
  · exact keeps_runContent hlasting hplan hensure hstmt hconstant _
  · exact keeps_runGpu hlasting hplan hensure hstmt hconstant

include hstmt hlasting hplan hensure in
/-- One statement keeps the invariant. -/
theorem keeps_execute : Keeps inv (execute plan kernels (direct device) ensure x) := by
  intro s hs
  by_cases hdone : s.done x = true
  · rw [execute_of_done hdone]
    exact hs
  rw [Bool.not_eq_true] at hdone
  by_cases hop : stmt.op = .const
  · obtain ⟨s', hexecuted, hrun⟩ := execute_constant kernels device ensure hstmt hop hdone
    rw [hrun]
    exact hlasting.constant s s' x stmt hstmt hop hdone hexecuted hs
  · rw [execute_of_undone hstmt hdone]
    exact keeps_executeInner hlasting hplan hensure hstmt hop _ (hlasting.begin s x stmt hstmt hop hs)

include hlasting hplan hensure in
/-- One level of demand keeps the invariant. -/
theorem keeps_ensureWith (name : ν) : Keeps inv (ensureWith plan kernels (direct device) ensure name) := by
  refine (Keeps.reads id).bind fun s => ?_
  split
  · exact Keeps.pure ()
  split
  · exact Keeps.raise _
  · rename_i y hproducer
    obtain ⟨stmt, hstmt, -⟩ := producer_spec hproducer
    split
    · exact Keeps.pure ()
    · rw [hstmt]
      exact (Keeps.each _ fun other _ => hensure other).bind fun _ => keeps_execute hlasting hplan hensure hstmt

include hlasting hplan in
omit hensure in
/-- However many nested calls are allowed. -/
theorem keeps_ensure (depth : ℕ) (name : ν) : Keeps inv (Encoder.ensure plan kernels (direct device) depth name) := by
  induction depth generalizing name with
  | zero => exact keeps_ensureWith hlasting hplan (fun _ => Keeps.raise _) name
  | succ depth ih => exact keeps_ensureWith hlasting hplan ih name

variable (hrelease : ∀ (s : Runner ν V M) (retired : ν → Bool), inv s → inv (s.release retired)) {wanted : List ν}
  {stopAfter : ν}

include hlasting hplan hrelease in
omit hensure in
/-- The rest of the program keeps the invariant. -/
theorem keeps_statementsFrom {i : ℕ} {rest : Program ν} (hrest : plan.program.drop i = rest) (keep : List (ν × V)) :
    Keeps inv (statementsFrom plan kernels (direct device) wanted stopAfter i rest keep) := by
  induction rest generalizing i keep with
  | nil => exact Keeps.raise _
  | cons stmt rest ih =>
    obtain ⟨hstmt, hdrop⟩ := next_of_drop hrest
    refine (keeps_execute hlasting hplan (keeps_ensure hlasting hplan plan.limit) hstmt).bind fun _ => ?_
    refine (Keeps.reads id).bind fun s => ?_
    refine (Keeps.change fun s hs => hrelease s _ hs).bind fun _ => ?_
    split_ifs
    · exact Keeps.pure _
    · exact ih hdrop _

include hlasting hplan hrelease in
omit hensure in
/-- A call keeps what its start keeps. -/
theorem keeps_run {inputs : List (ν × V)} (hstart : ∀ s, inv s → inv ((s.reset plan).setValues inputs)) :
    Keeps inv (run plan kernels (direct device) inputs wanted stopAfter) := by
  unfold run
  rw [entries_direct]
  refine (Keeps.change hstart).bind fun _ => ?_
  refine (keeps_statementsFrom hlasting hplan hrelease rfl []).bind fun keep => ?_
  split_ifs
  · exact Keeps.collect _ fun _ _ => Keeps.pure _
  · exact Keeps.raise _

end Keeping

end AneLinux.Encoder
