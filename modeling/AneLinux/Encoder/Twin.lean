import AneLinux.Encoder.Held

/-!
# Two runners in one call

A call on a runner that has made calls before, and the same call on a runner that was just built. Their tables agree
but for constants: one may be executed already on the first, or have left its host data there, and then a reader that
comes before its turn gets an array made from that. A silu that an earlier call left alone is not computed by its
linear any more on the first. `Twin` says so for two states in the turn of statement `i`, and every part of a call
leads from twins to twins, or raises on both.
-/

namespace AneLinux.Encoder

open AneLinux.Support Attempt Direct

variable {ν V M : Type} [DecidableEq ν]

section Conditions

/-- Host data that a reader before the constant's turn may be given: the constant can be evaluated, and a reader of its
array gets the same array. -/
def Harmless (plan : Plan ν) (kernels : Kernels V M) (i k : ℕ) (name : ν) (y : M) : Prop :=
  ∀ reader user, Reaches plan i reader → plan.program[reader]? = some user →
    (name ∈ user.arrays ++ user.hosts → (kernels.literal k).whole = true) ∧
      (name ∈ user.arrays → ∀ v, (kernels.literal k).toArray = some v → kernels.ofHost y = some v)

/-- Host data that a reader of a constant can get. -/
def IsHost (plan : Plan ν) (kernels : Kernels V M) (name : ν) (y : M) : Prop :=
  ∃ k stmt, plan.program[k]? = some stmt ∧ stmt.op = .const ∧ stmt.name = name ∧ (kernels.literal k).toHost = some y

/-- A submit whose payload is marshalled from arrays that the operands of its statements can have. -/
inductive Marshalled (plan : Plan ν) (kernels : Kernels V M) (given : ν → V → Prop) : Job V → Prop
  | attnAKt {scores content : ℕ} {stmt contentStmt : Statement ν} {q_v pos_kT q_scaled k_heads : V}
    (pair : (scores, content) ∈ plan.islands.pairs) (scoresAt : plan.program[scores]? = some stmt)
    (contentAt : plan.program[content]? = some contentStmt) (factors : List.Forall₂ given stmt.arrays [q_v, pos_kT])
    (contentFactors : List.Forall₂ given contentStmt.arrays [q_scaled, k_heads]) :
    Marshalled plan kernels given ⟨.attnAKt, [q_v, pos_kT, q_scaled, kernels.swapaxes k_heads], [scores, content]⟩
  | select8head {x : ℕ} {stmt : Statement ν} {fill cond matrix_bd : V} (stmtAt : plan.program[x]? = some stmt)
    (operands : List.Forall₂ given stmt.arrays [fill, cond, matrix_bd]) :
    Marshalled plan kernels given ⟨.select8head, [kernels.broadcast fill, matrix_bd, kernels.broadcast cond], [x]⟩
  | pv {x : ℕ} {stmt : Statement ν} {probs v_heads : V} (stmtAt : plan.program[x]? = some stmt)
    (factors : List.Forall₂ given stmt.arrays [probs, v_heads]) :
    Marshalled plan kernels given ⟨.pv, [probs, v_heads], [x]⟩

/-- The arrays that a name can have in a call. An input has the one that the call is given, and a constant its own or
one made from its host data; a result is what a kernel or the device makes of arrays that the operands can have. -/
inductive Given (plan : Plan ν) (kernels : Kernels V M) (device : Job V → Except String (ℕ → V))
    (inputs : List (ν × V)) : ν → V → Prop
  | input {name : ν} {v : V} (unproduced : producer plan.program name = none)
    (value : writeAll (fun _ => none) inputs name = some v) : Given plan kernels device inputs name v
  | literal {k : ℕ} {stmt : Statement ν} {v : V} (stmtAt : plan.program[k]? = some stmt) (constant : stmt.op = .const)
    (value : (kernels.literal k).toArray = some v) : Given plan kernels device inputs stmt.name v
  | host {name : ν} {y : M} {v : V} (host : IsHost plan kernels name y) (value : kernels.ofHost y = some v) :
    Given plan kernels device inputs name v
  | op {x : ℕ} {stmt : Statement ν} {vs : List V} {xs : List M} {v : V} (stmtAt : plan.program[x]? = some stmt)
    (arrays : List.Forall₂ (Given plan kernels device inputs) stmt.arrays vs)
    (hosts : List.Forall₂ (IsHost plan kernels) stmt.hosts xs) (value : kernels.op x vs xs = some v) :
    Given plan kernels device inputs stmt.name v
  | split {x : ℕ} {stmt : Statement ν} {whole : V} {xs : List M} {parts : List V} {name : ν} {v : V}
    (stmtAt : plan.program[x]? = some stmt)
    (arrays : List.Forall₂ (Given plan kernels device inputs) stmt.arrays [whole])
    (hosts : List.Forall₂ (IsHost plan kernels) stmt.hosts xs) (value : kernels.split x whole xs = some parts)
    (part : (name, v) ∈ stmt.names.zip parts) : Given plan kernels device inputs name v
  | gate {gate : Gate ν} {stmt : Statement ν} {a b v : V} (fused : gate ∈ plan.gates)
    (stmtAt : plan.program[gate.mul]? = some stmt) (factor : Given plan kernels device inputs gate.a a)
    (argument : Given plan kernels device inputs gate.b b) (value : kernels.glu a b = some v) :
    Given plan kernels device inputs stmt.name v
  | chain {x silu : ℕ} {stmt : Statement ν} {vs : List V} {v : V} (pair : (x, silu) ∈ plan.silus)
    (stmtAt : plan.program[x]? = some stmt)
    (arrays : List.Forall₂ (Given plan kernels device inputs) stmt.arrays vs)
    (value : kernels.chainSilu x vs = some v) : Given plan kernels device inputs stmt.name v
  | silu {x silu : ℕ} {stmt reader : Statement ν} {v : V} (pair : (x, silu) ∈ plan.silus)
    (stmtAt : plan.program[x]? = some stmt) (readerAt : plan.program[silu]? = some reader)
    (published : Given plan kernels device inputs stmt.name v) : Given plan kernels device inputs reader.name v
  | island {job : Job V} {results : ℕ → V} {place x : ℕ} {stmt : Statement ν}
    (payload : Marshalled plan kernels (Given plan kernels device inputs) job)
    (value : device job = .ok results) (output : job.outputs[place]? = some x)
    (stmtAt : plan.program[x]? = some stmt) : Given plan kernels device inputs stmt.name (results place)

/-- A linear that cannot take the fused kernel in a call. -/
def Barred (plan : Plan ν) (kernels : Kernels V M) (device : Job V → Except String (ℕ → V)) (inputs : List (ν × V))
    (linear : ℕ) : Prop :=
  ∀ stmt vs, plan.program[linear]? = some stmt → List.Forall₂ (Given plan kernels device inputs) stmt.arrays vs →
    kernels.takesChain linear vs ≠ some true

/-- A constant in two states of one call: alike in both, executed in the first alone, left over in the first as host
data, or left over there and executed in the second. -/
inductive Paired (literal : Literal V M) (left : M → Prop) (k : ℕ) (name : ν) (s f : Runner ν V M) : Prop
  | same (done : s.done k = f.done k) (value : s.values name = f.values name) (host : s.hosts name = f.hosts name)
  | ahead (whole : literal.whole = true) (done : s.done k = true) (undone : f.done k = false)
    (value : s.values name = literal.toArray) (host : s.hosts name = literal.toHost) (novalue : f.values name = none)
    (nohost : f.hosts name = none)
  | kept (y : M) (left : left y) (literal : literal.toHost = some y) (undone : s.done k = false)
    (novalue : s.values name = none) (host : s.hosts name = some y) (undone' : f.done k = false)
    (novalue' : f.values name = none) (nohost : f.hosts name = none)
  | pulled (y : M) (left : left y) (whole : literal.whole = true) (undone : s.done k = false)
    (novalue : s.values name = none) (host : s.hosts name = some y) (done : f.done k = true)
    (value : f.values name = literal.toArray) (host' : f.hosts name = some y)

/-- A name of no constant. -/
def Plan.Plain (plan : Plan ν) (name : ν) : Prop :=
  ∀ (k : ℕ) (stmt : Statement ν), plan.program[k]? = some stmt → stmt.op = .const → stmt.name ≠ name

/-- Two states of one call in the turn of statement `i`. -/
structure Twin (plan : Plan ν) (kernels : Kernels V M) (device : Job V → Except String (ℕ → V)) (left : ν → M → Prop)
    (inputs : List (ν × V)) (i : ℕ) (s f : Runner ν V M) : Prop where
  heldLeft : Held plan kernels s
  heldRight : Held plan kernels f
  values : ∀ name, plan.Plain name → s.values name = f.values name
  done : ∀ y, (∀ stmt, plan.program[y]? = some stmt → stmt.op ≠ .const) → s.done y = f.done y
  constants : ∀ k stmt, plan.program[k]? = some stmt → stmt.op = .const →
    Paired (kernels.literal k) (left stmt.name) k stmt.name s f
  given : ∀ name v, f.values name = some v → Given plan kernels device inputs name v
  silus : ∀ silu, s.siluDone silu = f.siluDone silu ∨
    ∃ linear, (linear, silu) ∈ plan.silus ∧ s.done linear = false ∧ Barred plan kernels device inputs linear
  linears : ∀ linear silu stmt, (linear, silu) ∈ plan.silus → plan.program[linear]? = some stmt →
    s.done linear = false → s.values stmt.name = none
  due : ∀ y < i, s.done y = true ∧ f.done y = true

end Conditions

variable {plan : Plan ν} {kernels : Kernels V M} {device : Job V → Except String (ℕ → V)} {left : ν → M → Prop}
  {inputs : List (ν × V)} {i x : ℕ} {s s' f : Runner ν V M} {declared : List ν} {stmt : Statement ν} {name : ν}
  {ensure : ν → Pass Id ν V M Unit}

section Updates

variable {f' : Runner ν V M}

omit [DecidableEq ν] in
theorem Paired.congr {literal : Literal V M} {leftover : M → Prop} {k : ℕ} (h : Paired literal leftover k name s f)
    (hdone : s'.done k = s.done k) (hvalue : s'.values name = s.values name) (hhost : s'.hosts name = s.hosts name)
    (hdone' : f'.done k = f.done k) (hvalue' : f'.values name = f.values name) (hhost' : f'.hosts name = f.hosts name) :
    Paired literal leftover k name s' f' := by
  cases h with
  | same done value host =>
    exact .same (by rw [hdone, hdone', done]) (by rw [hvalue, hvalue', value]) (by rw [hhost, hhost', host])
  | ahead whole done undone value host novalue nohost =>
    exact .ahead whole (hdone.trans done) (hdone'.trans undone) (hvalue.trans value) (hhost.trans host)
      (hvalue'.trans novalue) (hhost'.trans nohost)
  | kept y hleft literal undone novalue host undone' novalue' nohost =>
    exact .kept y hleft literal (hdone.trans undone) (hvalue.trans novalue) (hhost.trans host)
      (hdone'.trans undone') (hvalue'.trans novalue') (hhost'.trans nohost)
  | pulled y hleft whole undone novalue host done value host' =>
    exact .pulled y hleft whole (hdone.trans undone) (hvalue.trans novalue) (hhost.trans host) (hdone'.trans done)
      (hvalue'.trans value) (hhost'.trans host')

variable (hplan : plan.Formed declared)

include hplan

/-- A name that no constant gives is plain. -/
theorem Plan.Formed.plain (hstmt : plan.program[x]? = some stmt) (hop : stmt.op ≠ .const) (hname : name ∈ stmt.names) :
    plan.Plain name := fun _ _ hconstant hopc =>
  hplan.constant_ne hconstant hopc hstmt hop hname

omit hplan in
/-- So is one that nothing produces. -/
theorem plain_of_producer (h : producer plan.program name = none) : plan.Plain name := by
  rintro k constant hconstant - rfl
  exact producer_eq_none.mp h
    (List.mem_flatMap.mpr ⟨constant, List.mem_of_getElem? hconstant, List.mem_cons_self⟩)

omit hplan in
/-- Only constants have host data. -/
theorem Held.no_host (h : Held plan kernels s) (hplain : plan.Plain name) : s.hosts name = none := by
  cases hhost : s.hosts name with
  | none => rfl
  | some y =>
    obtain ⟨k, constant, hconstant, hop, hname, -⟩ := h.hosts name y hhost
    exact absurd hname (hplain k constant hconstant hop)

variable (h : Twin plan kernels device left inputs i s f)

include h in
/-- Both write one result. -/
theorem Twin.setValue (hstmt : plan.program[x]? = some stmt) (hop : stmt.op ≠ .const) (hname : name ∈ stmt.names)
    (hlinear : ∀ silu, (x, silu) ∈ plan.silus → s.done x = true) {v : V}
    (hv : Given plan kernels device inputs name v) :
    Twin plan kernels device left inputs i (s.setValue name v) (f.setValue name v) := by
  have hother {other : ν} (hne : other ≠ name) : (s.setValue name v).values other = s.values other :=
    s.setValue_values_of_ne v hne
  have hother' {other : ν} (hne : other ≠ name) : (f.setValue name v).values other = f.values other :=
    f.setValue_values_of_ne v hne
  refine ⟨(Held.lasting hplan).setValue s x stmt name v hstmt hop hname h.heldLeft,
    (Held.lasting hplan).setValue f x stmt name v hstmt hop hname h.heldRight, fun other hplain => ?_, h.done,
    fun k constant hconstant hopc => ?_, fun other w hw => ?_, h.silus,
    fun linear silu user hpair huser hundone => ?_, h.due⟩
  · by_cases heq : other = name
    · subst heq
      rw [Runner.setValue_values_self, Runner.setValue_values_self]
    · rw [hother heq, hother' heq]
      exact h.values other hplain
  · have hne := hplan.constant_ne hconstant hopc hstmt hop hname
    exact (h.constants k constant hconstant hopc).congr rfl (hother hne) rfl rfl (hother' hne) rfl
  · by_cases heq : other = name
    · subst heq
      rw [Runner.setValue_values_self] at hw
      obtain rfl := Option.some.inj hw
      exact hv
    · rw [hother' heq] at hw
      exact h.given other w hw
  · have hne : user.name ≠ name := by
      rintro rfl
      obtain rfl := hplan.single.unique huser hstmt List.mem_cons_self hname
      have hdone := hlinear silu hpair
      change s.done linear = false at hundone
      rw [hundone] at hdone
      cases hdone
    rw [hother hne]
    exact h.linears linear silu user hpair huser hundone

include h in
/-- Setting given values on both sides keeps the twins. -/
theorem Twin.setValues (hstmt : plan.program[x]? = some stmt) (hop : stmt.op ≠ .const)
    (hlinear : ∀ silu, (x, silu) ∉ plan.silus) {pairs : List (ν × V)}
    (hpairs : ∀ pair ∈ pairs, pair.1 ∈ stmt.names ∧ Given plan kernels device inputs pair.1 pair.2) :
    Twin plan kernels device left inputs i (s.setValues pairs) (f.setValues pairs) := by
  induction pairs generalizing s f with
  | nil => exact h
  | cons pair rest ih =>
    obtain ⟨hname, hv⟩ := hpairs pair List.mem_cons_self
    exact ih (h.setValue hplan hstmt hop hname (fun silu hpair => absurd hpair (hlinear silu)) hv)
      fun other hother => hpairs other (List.mem_cons_of_mem pair hother)

include h in
/-- Both begin one statement. -/
theorem Twin.begin (hstmt : plan.program[x]? = some stmt) (hop : stmt.op ≠ .const)
    (hsilus : ∀ silu, (x, silu) ∈ plan.silus → s.siluDone silu = f.siluDone silu) :
    Twin plan kernels device left inputs i (s.begin x) (f.begin x) := by
  have hne {k : ℕ} {constant : Statement ν} (hconstant : plan.program[k]? = some constant)
      (hopc : constant.op = .const) : k ≠ x := by
    rintro rfl
    obtain rfl := Option.mem_unique hconstant hstmt
    exact hop hopc
  refine ⟨(Held.lasting hplan).begin s x stmt hstmt hop h.heldLeft,
    (Held.lasting hplan).begin f x stmt hstmt hop h.heldRight, h.values, fun y hy => ?_,
    fun k constant hconstant hopc => ?_, h.given, fun silu => ?_, fun linear silu user hpair huser hundone => ?_,
    fun y hy => ?_⟩
  · by_cases heq : y = x
    · subst heq
      rw [Runner.begin_done.mpr (Or.inl rfl), Runner.begin_done.mpr (Or.inl rfl)]
    · change Function.update s.done x true y = Function.update f.done x true y
      rw [Function.update_of_ne heq, Function.update_of_ne heq]
      exact h.done y hy
  · have hk := hne hconstant hopc
    exact (h.constants k constant hconstant hopc).congr (Function.update_of_ne hk ..) rfl rfl
      (Function.update_of_ne hk ..) rfl rfl
  · rcases h.silus silu with heq | ⟨linear, hpair, hundone, hbarred⟩
    · exact Or.inl heq
    · by_cases hlinear : linear = x
      · rw [hlinear] at hpair
        exact Or.inl (hsilus silu hpair)
      · exact Or.inr ⟨linear, hpair, Runner.begin_not_done.mpr ⟨hlinear, hundone⟩, hbarred⟩
  · exact h.linears linear silu user hpair huser (Runner.begin_not_done.mp hundone).2
  · obtain ⟨hs, hf⟩ := h.due y hy
    exact ⟨Runner.begin_done.mpr (Or.inr hs), Runner.begin_done.mpr (Or.inr hf)⟩

include h in
/-- Both leave one silu alone. -/
theorem Twin.discard (silu : ℕ) : Twin plan kernels device left inputs i (s.discard silu) (f.discard silu) := by
  refine { h with heldLeft := (Held.lasting hplan).discard s silu h.heldLeft,
                  heldRight := (Held.lasting hplan).discard f silu h.heldRight,
                  constants := fun k constant hconstant hopc =>
                    (h.constants k constant hconstant hopc).congr rfl rfl rfl rfl rfl rfl,
                  silus := fun other => ?_ }
  change Function.update s.siluDone silu false other = Function.update f.siluDone silu false other ∨ _
  by_cases heq : other = silu
  · subst heq
    exact Or.inl (by rw [Function.update_self, Function.update_self])
  · rw [Function.update_of_ne heq, Function.update_of_ne heq]
    exact h.silus other

/-- What executing a constant leaves alone. -/
structure Moved (plan : Plan ν) (kernels : Kernels V M) (k : ℕ) (name : ν) (s s' : Runner ν V M) : Prop where
  held : Held plan kernels s'
  done : ∀ y, y ≠ k → s'.done y = s.done y
  kept : ∀ y, s.done y = true → s'.done y = true
  siluDone : s'.siluDone = s.siluDone
  other : ∀ other, other ≠ name → s'.values other = s.values other ∧ s'.hosts other = s.hosts other

omit hplan in
theorem Moved.refl {k : ℕ} (h : Held plan kernels s) : Moved plan kernels k name s s :=
  ⟨h, fun _ _ => rfl, fun _ hy => hy, rfl, fun _ _ => ⟨rfl, rfl⟩⟩

/-- Placing a constant moves it only. -/
theorem Executed.moved (h : Executed plan (kernels.literal x) x stmt.name s s') (hheld : Held plan kernels s)
    (hstmt : plan.program[x]? = some stmt) (hop : stmt.op = .const) (hundone : s.done x = false) :
    Moved plan kernels x stmt.name s s' where
  held := hheld.constant hplan hstmt hop hundone h
  done := fun y hy => by
    rw [h.done]
    exact Function.update_of_ne hy ..
  kept := fun _ hy => h.mono hy
  siluDone := h.siluDone
  other := fun other hother => ⟨(h.other other hother).1, (h.other other hother).2.1⟩

include h in
/-- Either side executes a constant, or both do. -/
theorem Twin.moved (hstmt : plan.program[x]? = some stmt) (hop : stmt.op = .const)
    (hs : Moved plan kernels x stmt.name s s') (hf : Moved plan kernels x stmt.name f f')
    (hpaired : Paired (kernels.literal x) (left stmt.name) x stmt.name s' f') :
    Twin plan kernels device left inputs i s' f' := by
  have hne {y : ℕ} {other : Statement ν} (hother : plan.program[y]? = some other) (hopo : other.op ≠ .const) :
      y ≠ x := by
    rintro rfl
    obtain rfl := Option.mem_unique hother hstmt
    exact hopo hop
  have hlinear {linear silu : ℕ} (hpair : (linear, silu) ∈ plan.silus) : linear ≠ x := by
    rintro rfl
    exact hplan.not_linear hstmt (by rw [hop]; decide) silu hpair
  refine ⟨hs.held, hf.held, fun name hplain => ?_, fun y hy => ?_, fun k constant hconstant hopc => ?_,
    fun name v hv => ?_, fun silu => ?_, fun linear silu user hpair huser hundone => ?_, fun y hy => ?_⟩
  · have hname : name ≠ stmt.name := (hplain x stmt hstmt hop).symm
    rw [(hs.other name hname).1, (hf.other name hname).1]
    exact h.values name hplain
  · have hyx : y ≠ x := by
      rintro rfl
      exact hy stmt hstmt hop
    rw [hs.done y hyx, hf.done y hyx]
    exact h.done y hy
  · by_cases hk : k = x
    · subst hk
      obtain rfl := Option.mem_unique hconstant hstmt
      exact hpaired
    · have hname : constant.name ≠ stmt.name := fun heq => hk (hplan.constant_eq hconstant hstmt heq)
      obtain ⟨hvalue, hhost⟩ := hs.other _ hname
      obtain ⟨hvalue', hhost'⟩ := hf.other _ hname
      exact (h.constants k constant hconstant hopc).congr (hs.done k hk) hvalue hhost (hf.done k hk) hvalue' hhost'
  · by_cases hname : name = stmt.name
    · subst hname
      exact .literal hstmt hop (hf.held.values x stmt v hstmt hop hv)
    · rw [(hf.other name hname).1] at hv
      exact h.given name v hv
  · rw [hs.siluDone, hf.siluDone]
    rcases h.silus silu with heq | ⟨linear, hpair, hundone, hbarred⟩
    · exact Or.inl heq
    · exact Or.inr ⟨linear, hpair, (hs.done linear (hlinear hpair)).trans hundone, hbarred⟩
  · have hname : user.name ≠ stmt.name := fun heq => hlinear hpair (hplan.constant_eq huser hstmt heq)
    rw [(hs.other _ hname).1]
    exact h.linears linear silu user hpair huser ((hs.done linear (hlinear hpair)).symm.trans hundone)
  · obtain ⟨hys, hyf⟩ := h.due y hy
    exact ⟨hs.kept y hys, hf.kept y hyf⟩

include h in
omit hplan in
/-- A silu whose linear has run is left to that on both, or on neither. -/
theorem Twin.silu_eq (hran : ∀ linear, (linear, x) ∈ plan.silus → s.done linear = true) :
    s.siluDone x = f.siluDone x := by
  rcases h.silus x with heq | ⟨linear, hpair, hundone, -⟩
  · exact heq
  · rw [hran linear hpair] at hundone
    cases hundone

end Updates

section Availability

/-- A name that is available: ensuring it changes nothing. -/
def Idle (plan : Plan ν) (s : Runner ν V M) (name : ν) : Prop :=
  s.has name = true ∨ ∀ y, producer plan.program name = some y → s.done y = true

theorem lasting_done (y : ℕ) : Lasting plan kernels fun s : Runner ν V M => s.done y = true where
  setValue := fun _ _ _ _ _ _ _ _ h => h
  begin := fun _ _ _ _ _ h => Runner.begin_done.mpr (Or.inr h)
  discard := fun _ _ h => h
  constant := fun _ _ _ _ _ _ _ hexecuted h => hexecuted.mono h

variable (kernels) in
/-- What a name has in the tables lasts. -/
theorem lasting_has (name : ν) : Lasting plan kernels fun s : Runner ν V M => s.has name = true where
  setValue := by
    intro s x stmt other v _ _ _ h
    rw [Runner.has, Bool.or_eq_true] at h ⊢
    refine h.imp_left fun hvalue => ?_
    by_cases heq : name = other
    · rw [heq, Runner.setValue_values_self, Option.isSome_some]
    · rwa [Runner.setValue_values_of_ne v heq]
  begin := fun _ _ _ _ _ h => h
  discard := fun _ _ h => h
  constant := by
    intro s s' x stmt _ _ _ hexecuted h
    rw [Runner.has, Bool.or_eq_true] at h ⊢
    exact h.imp hexecuted.has.1 hexecuted.has.2

variable (kernels) in
/-- What is available stays available. -/
theorem lasting_idle (name : ν) : Lasting plan kernels fun s : Runner ν V M => Idle plan s name where
  setValue := fun s x stmt other v hstmt hop hmem h =>
    h.imp_left ((lasting_has kernels name).setValue s x stmt other v hstmt hop hmem)
  begin := fun _ _ _ _ _ h => h.imp_right fun hdone y hy => Runner.begin_done.mpr (Or.inr (hdone y hy))
  discard := fun _ _ h => h
  constant := fun s s' x stmt hstmt hop hundone hexecuted h =>
    h.imp ((lasting_has kernels name).constant s s' x stmt hstmt hop hundone hexecuted) fun hdone y hy =>
      hexecuted.mono (hdone y hy)

/-- What `ensure` is relied on for: it makes a name available, it changes nothing for one that is, whether it raises
then depends on the tables alone, and it breaks nothing that lasts. -/
structure Prompt (plan : Plan ν) (kernels : Kernels V M) (ensure : ν → Pass Id ν V M Unit) : Prop where
  readies : ∀ name s s', ensure name s = (.ok (), s') → Idle plan s' name
  still : ∀ name s, Idle plan s name → (ensure name s).2 = s
  alike : ∀ name s f, Idle plan s name → Idle plan f name → (plan.Plain name → s.has name = f.has name) →
    Same (ensure name s).1 (ensure name f).1
  keeps : ∀ inv, Lasting plan kernels inv → ∀ name, Keeps inv (ensure name)

theorem prompt_raise (e : Err ν) : Prompt plan kernels fun _ : ν => (raise e : Pass Id ν V M Unit) where
  readies := fun _ _ _ hrun => by cases hrun
  still := fun _ _ _ => rfl
  alike := fun _ _ _ _ _ _ => trivial
  keeps := fun _ _ _ => Keeps.raise e

variable (hplan : plan.Formed declared)

include hplan

variable (device s) in
/-- Executing a statement sets its flag, however it ends. -/
theorem execute_done (hensure : Prompt plan kernels ensure) (hstmt : plan.program[x]? = some stmt) :
    (execute plan kernels (direct device) ensure x s).2.done x = true := by
  by_cases hdone : s.done x = true
  · rw [execute_of_done hdone]
    exact hdone
  rw [Bool.not_eq_true] at hdone
  by_cases hop : stmt.op = .const
  · obtain ⟨s', hexecuted, hrun⟩ := execute_constant kernels device ensure hstmt hop hdone
    rw [hrun, hexecuted.done]
    exact Runner.begin_done.mpr (Or.inl rfl)
  · rw [execute_of_undone hstmt hdone]
    exact keeps_executeInner (lasting_done x) hplan (hensure.keeps _ (lasting_done x)) hstmt hop _
      (Runner.begin_done.mpr (Or.inl rfl))

/-- One level of demand is prompt. -/
theorem prompt_ensureWith (hensure : Prompt plan kernels ensure) :
    Prompt plan kernels (ensureWith plan kernels (direct device) ensure) where
  readies := by
    intro name s s' hrun
    by_cases hhas : s.has name = true
    · rw [ensureWith_of_has hhas] at hrun
      obtain rfl := (Prod.mk.inj hrun).2
      exact Or.inl hhas
    cases hproducer : producer plan.program name with
    | none =>
      rw [ensureWith_of_none hhas hproducer] at hrun
      cases hrun
    | some x =>
      right
      intro y hy
      obtain rfl := Option.mem_unique hproducer hy
      by_cases hdone : s.done x = true
      · rw [ensureWith_of_done hhas hproducer hdone] at hrun
        obtain rfl := (Prod.mk.inj hrun).2
        exact hdone
      obtain ⟨stmt, hstmt, -⟩ := producer_spec hproducer
      rw [ensureWith_of_undone hhas hproducer hstmt hdone] at hrun
      obtain ⟨_, s₁, _, hrun⟩ := bind_eq_ok.mp hrun
      have hfinal := execute_done device s₁ hplan hensure hstmt
      rwa [hrun] at hfinal
  still := by
    intro name s hidle
    by_cases hhas : s.has name = true
    · rw [ensureWith_of_has hhas]
    cases hproducer : producer plan.program name with
    | none => rw [ensureWith_of_none hhas hproducer]
    | some x => rw [ensureWith_of_done hhas hproducer (hidle.resolve_left hhas x hproducer)]
  alike := by
    intro name s f hs hf hplain
    have hends {r : Runner ν V M} (hr : Idle plan r name) :
        (ensureWith plan kernels (direct device) ensure name r).1 =
          if r.has name = true ∨ (producer plan.program name).isSome = true then .ok ()
          else .error (.unresolvedOperand name) := by
      by_cases hhas : r.has name = true
      · rw [ensureWith_of_has hhas, if_pos (Or.inl hhas)]
      cases hproducer : producer plan.program name with
      | none =>
        rw [ensureWith_of_none hhas hproducer]
        exact (if_neg fun hor => hor.elim hhas Bool.false_ne_true).symm
      | some x =>
        rw [ensureWith_of_done hhas hproducer (hr.resolve_left hhas x hproducer)]
        exact (if_pos (Or.inr rfl)).symm
    have hsame : (s.has name = true ∨ (producer plan.program name).isSome = true) ↔
        (f.has name = true ∨ (producer plan.program name).isSome = true) := by
      cases hproducer : producer plan.program name with
      | none => rw [hplain (plain_of_producer hproducer)]
      | some x => exact ⟨fun _ => Or.inr rfl, fun _ => Or.inr rfl⟩
    rw [hends hs, hends hf]
    by_cases hok : f.has name = true ∨ (producer plan.program name).isSome = true
    · rw [if_pos hok, if_pos (hsame.mpr hok)]
      rfl
    · rw [if_neg hok, if_neg (hok ∘ hsame.mp)]
      trivial
  keeps := fun inv hlasting name => keeps_ensureWith hlasting hplan (hensure.keeps inv hlasting) name

variable (kernels device) in
/-- Demand is prompt at every depth. -/
theorem prompt_ensure (depth : ℕ) : Prompt plan kernels (Encoder.ensure plan kernels (direct device) depth) := by
  induction depth with
  | zero => exact prompt_ensureWith hplan (prompt_raise _)
  | succ depth ih => exact prompt_ensureWith hplan ih

end Availability

section Reading

/-- The tables of a runner. -/
def Runner.tables (s : Runner ν V M) : Tables ν V M := ⟨s.values, s.hosts⟩

omit [DecidableEq ν] in
theorem tables_array : s.tables.array kernels name = (s.values name).or ((s.hosts name).bind kernels.ofHost) := by
  unfold Tables.array Runner.tables
  dsimp only
  cases s.values name with
  | some v => rw [Option.some_or]
  | none => rw [Option.none_or]

/-- A name that is asked for in the turn of statement `i`: what produces it is needed there, and so is a reader of a
constant. -/
structure Asked (plan : Plan ν) (i : ℕ) (name : ν) : Prop where
  reached : ∀ y, producer plan.program name = some y → Reaches plan i y
  reader : plan.Plain name ∨ ∃ (reader : ℕ) (user : Statement ν), Reaches plan i reader ∧
    plan.program[reader]? = some user ∧ name ∈ user.arrays ++ user.hosts

/-- A name that is asked for as an array. -/
def AskedArray (plan : Plan ν) (i : ℕ) (name : ν) : Prop :=
  ∃ reader user, Reaches plan i reader ∧ plan.program[reader]? = some user ∧ name ∈ user.arrays

/-- An operand of a reached statement is asked for. -/
theorem asked_operand (hreach : Reaches plan i x) (hstmt : plan.program[x]? = some stmt)
    (hname : name ∈ stmt.arrays ++ stmt.hosts) : Asked plan i name :=
  ⟨fun _ hproducer => hreach.tail (.operand hstmt hname hproducer), Or.inr ⟨x, stmt, hreach, hstmt, hname⟩⟩

theorem AskedArray.asked (h : AskedArray plan i name) : Asked plan i name := by
  obtain ⟨reader, user, hreach, huser, hname⟩ := h
  exact asked_operand hreach huser (List.mem_append_left _ hname)

omit [DecidableEq ν] in
/-- A name is plain, or a constant gives it. -/
theorem plain_or_constant (plan : Plan ν) (name : ν) :
    plan.Plain name ∨ ∃ (k : ℕ) (stmt : Statement ν), plan.program[k]? = some stmt ∧ stmt.op = .const ∧
      stmt.name = name := by
  by_cases h : ∃ (k : ℕ) (stmt : Statement ν), plan.program[k]? = some stmt ∧ stmt.op = .const ∧ stmt.name = name
  · exact Or.inr h
  · exact Or.inl fun k stmt hstmt hop hname => h ⟨k, stmt, hstmt, hop, hname⟩

variable (hplan : plan.Formed declared) (hleft : ∀ (k : ℕ) (stmt : Statement ν) (y : M),
  plan.program[k]? = some stmt → left stmt.name y → i < k → Harmless plan kernels i k stmt.name y)

include hplan

/-- A constant that has not been executed and is in no table is not available. -/
theorem not_idle (hstmt : plan.program[x]? = some stmt) (hundone : f.done x = false)
    (hvalue : f.values stmt.name = none) (hhost : f.hosts stmt.name = none) : ¬ Idle plan f stmt.name := by
  rintro (hhas | hdone)
  · rw [Runner.has, hvalue, hhost] at hhas
    cases hhas
  · rw [hdone x (hplan.producer_name hstmt)] at hundone
    cases hundone

variable (h : Twin plan kernels device left inputs i s f)

include h hleft in
/-- Host data that was left over does no harm to what is asked for now. -/
theorem Twin.harmless (hstmt : plan.program[x]? = some stmt) (hop : stmt.op = .const) {y : M}
    (hover : left stmt.name y) (hundone : s.done x = false) : Harmless plan kernels i x stmt.name y := by
  rcases Nat.lt_trichotomy i x with hlt | rfl | hgt
  · exact hleft x stmt y hstmt hover hlt
  · intro reader user hreach huser
    rcases Relation.ReflTransGen.cases_head hreach with rfl | ⟨next, hneeds, -⟩
    · obtain rfl := Option.mem_unique hstmt huser
      obtain ⟨harrays, hhosts⟩ := hplan.arities.constant _ stmt hstmt hop
      rw [harrays, hhosts]
      exact ⟨fun hmem => absurd hmem List.not_mem_nil, fun hmem => absurd hmem List.not_mem_nil⟩
    · exact absurd hneeds (hplan.constant_needs_nothing hstmt hop)
  · rw [(h.due x hgt).1] at hundone
    cases hundone

include h hleft in
/-- An array that both read is the same. -/
theorem Twin.array_eq (hs : Idle plan s name) (hf : Idle plan f name) (hname : AskedArray plan i name) :
    s.tables.array kernels name = f.tables.array kernels name := by
  rw [tables_array, tables_array]
  rcases plain_or_constant plan name with hplain | ⟨k, stmt, hstmt, hop, rfl⟩
  · rw [h.values name hplain, h.heldLeft.no_host hplain, h.heldRight.no_host hplain]
  cases h.constants k stmt hstmt hop with
  | same _ value host => rw [value, host]
  | ahead _ _ undone _ _ novalue nohost => exact absurd hf (not_idle hplan hstmt undone novalue nohost)
  | kept _ _ _ _ _ _ undone novalue nohost => exact absurd hf (not_idle hplan hstmt undone novalue nohost)
  | pulled y hover whole undone novalue host _ value host' =>
    obtain ⟨reader, user, hreach, huser, hmem⟩ := hname
    have harray := ((h.harmless hplan hleft hstmt hop hover undone) reader user hreach huser).2 hmem
    rw [novalue, host, value, host']
    cases hliteral : (kernels.literal k).toArray with
    | none => rw [Option.none_or]
    | some v => rw [Option.none_or, Option.bind_some, harray v hliteral, Option.some_or]

include h in
/-- Host data that both read is the same. -/
theorem Twin.host_eq (hf : Idle plan f name) : s.hosts name = f.hosts name := by
  rcases plain_or_constant plan name with hplain | ⟨k, stmt, hstmt, hop, rfl⟩
  · rw [h.heldLeft.no_host hplain, h.heldRight.no_host hplain]
  cases h.constants k stmt hstmt hop with
  | same _ _ host => exact host
  | ahead _ _ undone _ _ novalue nohost => exact absurd hf (not_idle hplan hstmt undone novalue nohost)
  | kept _ _ _ _ _ _ undone novalue nohost => exact absurd hf (not_idle hplan hstmt undone novalue nohost)
  | pulled y _ _ _ _ host _ _ host' => rw [host, host']

omit hplan in
/-- Host data in the table is that of a constant. -/
theorem Held.isHost (h : Held plan kernels s) {y : M} (hy : s.hosts name = some y) : IsHost plan kernels name y :=
  h.hosts name y hy

include h in
omit hplan in
/-- What is read of a name is an array that it can have. -/
theorem Twin.array_given {v : V} (hv : f.tables.array kernels name = some v) :
    Given plan kernels device inputs name v := by
  rw [tables_array, Option.or_eq_some_iff] at hv
  rcases hv with hv | ⟨-, hv⟩
  · exact h.given name v hv
  · obtain ⟨y, hy, hofHost⟩ := Option.bind_eq_some_iff.mp hv
    exact .host (h.heldRight.isHost hy) hofHost

end Reading

end AneLinux.Encoder
