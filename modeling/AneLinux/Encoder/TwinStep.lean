import AneLinux.Encoder.Twin

/-!
# Executing a statement on two runners

Reading an operand, submitting an island, running a kernel and pulling a statement forward lead from twins to twins
with one result, or raise on both. The linear that may compute its silu is the exception that needs its operands ready:
then nothing is executed inside it, and the two runners either both leave the silu to it or both take it away.
-/

namespace AneLinux.Encoder

open AneLinux.Support Attempt Direct

variable {ν V M : Type} [DecidableEq ν]

variable {plan : Plan ν} {kernels : Kernels V M} {device : Job V → Except String (ℕ → V)} {left : ν → M → Prop}
  {inputs : List (ν × V)} {i x : ℕ} {declared : List ν} {stmt : Statement ν} {name : ν}
  {ensure : ν → Pass Id ν V M Unit}

section Rules

variable {α β : Type}

/-- A part of a call that leads from twins to twins with one result, or raises on both. -/
abbrev Tracks (plan : Plan ν) (kernels : Kernels V M) (device : Job V → Except String (ℕ → V)) (left : ν → M → Prop)
    (inputs : List (ν × V)) (i : ℕ) (p : Pass Id ν V M α) : Prop :=
  Agree (fun _ => False) (fun _ _ => True) (Twin plan kernels device left inputs i) p p fun a b s f =>
    a = b ∧ Twin plan kernels device left inputs i s f

/-- The same, with what is known of the result. -/
abbrev Yields (plan : Plan ν) (kernels : Kernels V M) (device : Job V → Except String (ℕ → V)) (left : ν → M → Prop)
    (inputs : List (ν × V)) (i : ℕ) (result : α → Prop) (p : Pass Id ν V M α) : Prop :=
  Agree (fun _ => False) (fun _ _ => True) (Twin plan kernels device left inputs i) p p fun a b s f =>
    (a = b ∧ Twin plan kernels device left inputs i s f) ∧ result a

/-- A result that is there already. -/
theorem Tracks.pure (a : α) : Tracks plan kernels device left inputs i (Pure.pure a : Pass Id ν V M α) :=
  Agree.pure fun _ _ h => ⟨rfl, h⟩

/-- An exception on both. -/
theorem Tracks.raise (e : Err ν) : Tracks plan kernels device left inputs i (Attempt.raise e : Pass Id ν V M α) :=
  Agree.raise fun _ _ _ => trivial

/-- A result of the device. -/
theorem Yields.submit (job : Job V) : Yields plan kernels device left inputs i
    (fun results => device job = .ok results)
    (call ((direct device).submit job) : Pass Id ν V M (ℕ → V)) := by
  intro s f h
  right
  have hrun (r : Runner ν V M) : (call ((direct device).submit job) : Pass Id ν V M (ℕ → V)) r =
      ((device job).mapError deviceError, r) := rfl
  rw [hrun s, hrun f]
  cases hdevice : device job with
  | ok results => exact And.intro ⟨rfl, h⟩ rfl
  | error e => exact True.intro

/-- A change that keeps twins twins. -/
theorem Tracks.change {g : Runner ν V M → Runner ν V M}
    (h : ∀ s f, Twin plan kernels device left inputs i s f → Twin plan kernels device left inputs i (g s) (g f)) :
    Tracks plan kernels device left inputs i (Attempt.change g : Pass Id ν V M Unit) :=
  Agree.change fun s f hsf => ⟨rfl, h s f hsf⟩

/-- What goes on with a result goes on from twins. -/
theorem Tracks.bind {p : Pass Id ν V M α} {q : α → Pass Id ν V M β} (hp : Tracks plan kernels device left inputs i p)
    (hq : ∀ a, Tracks plan kernels device left inputs i (q a)) :
    Tracks plan kernels device left inputs i (p >>= q) := by
  refine Agree.bind hp (fun _ _ h => h.elim) fun a b => ?_
  rintro s f ⟨rfl, h⟩
  exact hq a s f h

/-- What goes on with a result goes on with what is known of it. -/
theorem Yields.bind {result : α → Prop} {p : Pass Id ν V M α} {q : α → Pass Id ν V M β}
    (hp : Yields plan kernels device left inputs i result p)
    (hq : ∀ a, result a → Tracks plan kernels device left inputs i (q a)) :
    Tracks plan kernels device left inputs i (p >>= q) := by
  refine Agree.bind hp (fun _ _ h => h.elim) fun a b => ?_
  rintro s f ⟨⟨rfl, h⟩, ha⟩
  exact hq a ha s f h

/-- What goes on with a value goes on with the value that was there. -/
theorem Tracks.orRaise_bind (e : Err ν) {o : Option α} {q : α → Pass Id ν V M β}
    (hq : ∀ a, o = some a → Tracks plan kernels device left inputs i (q a)) :
    Tracks plan kernels device left inputs i (Attempt.orRaise e o >>= q) := by
  cases o with
  | some a => exact hq a rfl
  | none => exact fun _ _ _ => Or.inr trivial

/-- What is known of each result is known of them in order. -/
theorem Yields.collect {γ : Type} {result : γ → α → Prop} {p : γ → Pass Id ν V M α} (elements : List γ)
    (h : ∀ c ∈ elements, Yields plan kernels device left inputs i (result c) (p c)) :
    Yields plan kernels device left inputs i (List.Forall₂ result elements) (Attempt.collect p elements) := by
  induction elements with
  | nil => exact Agree.pure fun _ _ htwin => ⟨⟨rfl, htwin⟩, .nil⟩
  | cons c rest ih =>
    have hrest := ih fun d hd => h d (List.mem_cons_of_mem c hd)
    refine Agree.bind (h c List.mem_cons_self) (fun _ _ h => h.elim) fun a b => ?_
    rintro s f ⟨⟨rfl, htwin⟩, ha⟩
    refine Agree.bind hrest (fun _ _ h => h.elim) (fun as bs => ?_) s f htwin
    rintro s f ⟨⟨rfl, htwin⟩, has⟩
    exact Or.inr ⟨⟨rfl, htwin⟩, .cons ha has⟩

end Rules

section Statements

variable (hplan : plan.Formed declared)
  (hleft : ∀ (k : ℕ) (stmt : Statement ν) (y : M), plan.program[k]? = some stmt → left stmt.name y → i < k →
    Harmless plan kernels i k stmt.name y)
  (hprompt : Prompt plan kernels ensure)
  (hensure : ∀ name, Asked plan i name → Tracks plan kernels device left inputs i (ensure name))

theorem tensor_eq (name : ν) : tensor kernels (direct device) ensure name = (do
    ensure name
    let s ← (reads id : Pass Id ν V M (Runner ν V M))
    orRaise (.unresolvedTensor name) (s.tables.array kernels name)) := by
  unfold tensor
  congr 1
  funext _
  congr 1
  funext s
  rw [tables_array]
  cases s.values name with
  | some v =>
    rw [Option.some_or]
    rfl
  | none => rw [Option.none_or]

include hprompt hensure in
/-- A read of a name that is asked for. -/
theorem yields_read {α : Type} {result : α → Prop} (hname : Asked plan i name) (e : Err ν)
    {g : Runner ν V M → Option α}
    (hg : ∀ s f, Twin plan kernels device left inputs i s f → Idle plan s name → Idle plan f name → g s = g f)
    (hresult : ∀ s f, Twin plan kernels device left inputs i s f → ∀ a, g f = some a → result a) :
    Yields plan kernels device left inputs i result (do
      ensure name
      let s ← (reads id : Pass Id ν V M (Runner ν V M))
      orRaise e (g s)) := by
  have hready := (hensure name hname).returns (p := fun _ s => Idle plan s name) (q := fun _ f => Idle plan f name)
    (fun s _ s' => hprompt.readies name s s') fun f _ f' => hprompt.readies name f f'
  refine hready.bind (fun _ _ h => h.elim) fun _ _ => ?_
  rintro s f ⟨⟨-, h⟩, hs, hf⟩
  rw [Direct.reads_bind, Direct.reads_bind, id_eq, id_eq, hg s f h hs hf]
  cases hread : g f with
  | none => exact Or.inr trivial
  | some a => exact Or.inr ⟨⟨rfl, h⟩, hresult s f h a hread⟩

include hplan hleft hprompt hensure

/-- An array is read. -/
theorem yields_tensor (hname : AskedArray plan i name) :
    Yields plan kernels device left inputs i (Given plan kernels device inputs name)
      (tensor kernels (direct device) ensure name) := by
  rw [tensor_eq]
  exact yields_read hprompt hensure hname.asked _ (fun s f h hs hf => h.array_eq hplan hleft hs hf hname)
    fun s f h v hv => h.array_given hv

omit hleft in
/-- Host data is read. -/
theorem yields_scalar (hname : Asked plan i name) :
    Yields plan kernels device left inputs i (IsHost plan kernels name) (scalar ensure name) :=
  yields_read hprompt hensure hname _ (fun _ _ h _ hf => h.host_eq hplan hf) fun _ _ h _ hy => h.heldRight.isHost hy

omit hleft in
/-- The flags that a bundle needs are read and compared. -/
theorem tracks_requireFlags (k : ℕ) {flags : List (ν × Bool)} (hflags : ∀ flag ∈ flags, Asked plan i flag.1) :
    Tracks plan kernels device left inputs i (requireFlags kernels ensure k flags) := by
  induction flags with
  | nil => exact Tracks.pure ()
  | cons flag rest ih =>
    refine (yields_scalar hplan hprompt hensure (hflags flag List.mem_cons_self)).bind fun y _ => ?_
    split_ifs
    · exact ih fun other hother => hflags other (List.mem_cons_of_mem flag hother)
    · exact Tracks.raise _

/-- The arrays of a statement that is needed. -/
theorem yields_arrays (hreach : Reaches plan i x) (hstmt : plan.program[x]? = some stmt) :
    Yields plan kernels device left inputs i (List.Forall₂ (Given plan kernels device inputs) stmt.arrays)
      (collect (tensor kernels (direct device) ensure) stmt.arrays) :=
  Yields.collect _ fun _ hname => yields_tensor hplan hleft hprompt hensure ⟨x, stmt, hreach, hstmt, hname⟩

omit hleft in
/-- Its host values. -/
theorem yields_hosts (hreach : Reaches plan i x) (hstmt : plan.program[x]? = some stmt) :
    Yields plan kernels device left inputs i (List.Forall₂ (IsHost plan kernels) stmt.hosts)
      (collect (scalar ensure) stmt.hosts) :=
  Yields.collect _ fun _ hname => yields_scalar hplan hprompt hensure
    (asked_operand hreach hstmt (List.mem_append_right _ hname))

omit hleft hprompt hensure in
/-- The result of a statement that is no linear with a silu. -/
theorem tracks_setValue (hstmt : plan.program[x]? = some stmt) (hop : stmt.op ≠ .const)
    (hlinear : ∀ silu, (x, silu) ∉ plan.silus) {v : V} (hv : Given plan kernels device inputs stmt.name v) :
    Tracks plan kernels device left inputs i (change fun s => s.setValue stmt.name v : Pass Id ν V M Unit) :=
  Tracks.change fun _ _ h => h.setValue hplan hstmt hop List.mem_cons_self (fun silu hpair =>
    absurd hpair (hlinear silu)) hv

theorem tracks_runIslandA (hplaced : plan.placed.a = true) {content : ℕ} (hpair : (x, content) ∈ plan.islands.pairs)
    (hstmt : plan.program[x]? = some stmt) {contentStmt : Statement ν}
    (hcontent : plan.program[content]? = some contentStmt) (hreach : Reaches plan i x) :
    Tracks plan kernels device left inputs i
      (runIslandA kernels (direct device) ensure x content stmt contentStmt) := by
  have hplaces := indexIslands_eq_some hplan.islands
  have hop := hplaces.scores_op hpair hstmt
  have hopc := hplaces.content_op hpair hcontent
  have hreachc := hreach.tail (.content hplaced hpair)
  refine Tracks.orRaise_bind _ fun arguments harguments => ?_
  refine Tracks.orRaise_bind _ fun arguments' harguments' => ?_
  obtain ⟨⟨a, b⟩, tx, ty⟩ := arguments
  obtain ⟨⟨ca, cb⟩, ctx, cty⟩ := arguments'
  obtain ⟨harrays, hhosts⟩ := matmulArguments_eq_some harguments
  obtain ⟨harraysc, hhostsc⟩ := matmulArguments_eq_some harguments'
  have hread (name : ν) (hname : name ∈ [a, b]) :
      Yields plan kernels device left inputs i (Given plan kernels device inputs name)
        (tensor kernels (direct device) ensure name) :=
    yields_tensor hplan hleft hprompt hensure ⟨x, stmt, hreach, hstmt, harrays ▸ hname⟩
  have hreadc (name : ν) (hname : name ∈ [ca, cb]) :
      Yields plan kernels device left inputs i (Given plan kernels device inputs name)
        (tensor kernels (direct device) ensure name) :=
    yields_tensor hplan hleft hprompt hensure ⟨content, contentStmt, hreachc, hcontent, harraysc ▸ hname⟩
  have hflag (name : ν) (hname : name ∈ [tx, ty]) : Asked plan i name :=
    asked_operand hreach hstmt (List.mem_append_right _ (hhosts ▸ hname))
  have hflagc (name : ν) (hname : name ∈ [ctx, cty]) : Asked plan i name :=
    asked_operand hreachc hcontent (List.mem_append_right _ (hhostsc ▸ hname))
  refine (tracks_requireFlags hplan hprompt hensure x (List.forall_mem_cons.mpr ⟨hflag tx (by simp),
    List.forall_mem_singleton.mpr (hflag ty (by simp))⟩)).bind fun _ => ?_
  refine (tracks_requireFlags hplan hprompt hensure content (List.forall_mem_cons.mpr ⟨hflagc ctx (by simp),
    List.forall_mem_singleton.mpr (hflagc cty (by simp))⟩)).bind fun _ => ?_
  refine (hread a (by simp)).bind fun q_v hq_v => (hread b (by simp)).bind fun pos_kT hpos_kT => ?_
  refine (hreadc ca (by simp)).bind fun q_scaled hq_scaled => (hreadc cb (by simp)).bind fun k_heads hk_heads => ?_
  refine (Yields.submit _).bind fun results hresults => Tracks.change fun s f h => ?_
  have hpayload : Marshalled plan kernels (Given plan kernels device inputs)
      ⟨.attnAKt, [q_v, pos_kT, q_scaled, kernels.swapaxes k_heads], [x, content]⟩ := by
    refine .attnAKt hpair hstmt hcontent ?_ ?_
    · rw [harrays]
      exact .cons hq_v (.cons hpos_kT .nil)
    · rw [harraysc]
      exact .cons hq_scaled (.cons hk_heads .nil)
  have hlinear := hplan.not_linear hstmt (by rw [hop]; decide)
  have hlinearc := hplan.not_linear hcontent (by rw [hopc]; decide)
  have hscores := h.setValue hplan hstmt (by rw [hop]; decide) List.mem_cons_self
    (fun silu hmem => absurd hmem (hlinear silu))
    (.island hpayload hresults (show [x, content][0]? = some x from rfl) hstmt)
  have hboth := hscores.setValue hplan hcontent (by rw [hopc]; decide) List.mem_cons_self
    (fun silu hmem => absurd hmem (hlinearc silu))
    (.island hpayload hresults (show [x, content][1]? = some content from rfl) hcontent)
  exact hboth.begin hplan hcontent (by rw [hopc]; decide) fun silu hmem => absurd hmem (hlinearc silu)

theorem tracks_runIslandB (hstmt : plan.program[x]? = some stmt) (hop : stmt.op = .select) (hreach : Reaches plan i x) :
    Tracks plan kernels device left inputs i (runIslandB kernels (direct device) ensure x stmt) := by
  have hlinear := hplan.not_linear hstmt (by rw [hop]; decide)
  unfold runIslandB
  split
  · rename_i a c b harrays
    have hasked (name : ν) (hname : name ∈ [a, c, b]) : AskedArray plan i name :=
      ⟨x, stmt, hreach, hstmt, harrays ▸ hname⟩
    refine (yields_tensor hplan hleft hprompt hensure (hasked a (by simp))).bind fun fill hfill => ?_
    refine (yields_tensor hplan hleft hprompt hensure (hasked c (by simp))).bind fun cond hcond => ?_
    refine (yields_tensor hplan hleft hprompt hensure (hasked b (by simp))).bind fun matrix_bd hmatrix_bd => ?_
    split_ifs
    · refine (Yields.submit _).bind fun results hresults => ?_
      refine tracks_setValue hplan hstmt (by rw [hop]; decide) hlinear
        (.island (.select8head hstmt ?_) hresults rfl hstmt)
      rw [harrays]
      exact .cons hfill (.cons hcond (.cons hmatrix_bd .nil))
    · exact Tracks.raise _
  · exact Tracks.raise _

theorem tracks_runIslandC (hstmt : plan.program[x]? = some stmt) (hop : stmt.op = .matmul) (hreach : Reaches plan i x) :
    Tracks plan kernels device left inputs i (runIslandC kernels (direct device) ensure x stmt) := by
  refine Tracks.orRaise_bind _ fun arguments harguments => ?_
  obtain ⟨⟨a, b⟩, tx, ty⟩ := arguments
  obtain ⟨harrays, hhosts⟩ := matmulArguments_eq_some harguments
  have hread (name : ν) (hname : name ∈ [a, b]) :
      Yields plan kernels device left inputs i (Given plan kernels device inputs name)
        (tensor kernels (direct device) ensure name) :=
    yields_tensor hplan hleft hprompt hensure ⟨x, stmt, hreach, hstmt, harrays ▸ hname⟩
  have hflag (name : ν) (hname : name ∈ [tx, ty]) : Asked plan i name :=
    asked_operand hreach hstmt (List.mem_append_right _ (hhosts ▸ hname))
  refine (tracks_requireFlags hplan hprompt hensure x (List.forall_mem_cons.mpr ⟨hflag tx (by simp),
    List.forall_mem_singleton.mpr (hflag ty (by simp))⟩)).bind fun _ => ?_
  refine (hread a (by simp)).bind fun probs hprobs => (hread b (by simp)).bind fun v_heads hv_heads => ?_
  refine (Yields.submit _).bind fun results hresults => ?_
  refine tracks_setValue hplan hstmt (by rw [hop]; decide) (hplan.not_linear hstmt (by rw [hop]; decide))
    (.island (.pv hstmt ?_) hresults rfl hstmt)
  rw [harrays]
  exact .cons hprobs (.cons hv_heads .nil)

/-- The fused gate reads the argument of its sigmoid, which is needed, too. -/
theorem tracks_runGate {gate : Gate ν} (hgate : gate ∈ plan.gates) (hstmt : plan.program[gate.mul]? = some stmt)
    (hreach : Reaches plan i gate.mul) :
    Tracks plan kernels device left inputs i (runGate kernels (direct device) ensure gate.mul stmt gate) := by
  obtain ⟨sigmoid, product, hp⟩ := hplan.arities.gatePlaces (hplan.gates gate hgate)
  obtain rfl := Option.mem_unique hstmt hp.productAt
  have ha : gate.a ∈ stmt.arrays := by
    apply List.mem_of_mem_filter (p := fun other => decide (other ≠ sigmoid.name))
    rw [hp.factors]
    exact List.mem_singleton_self gate.a
  have hb : gate.b ∈ sigmoid.arrays := by
    rw [hp.argument]
    exact List.mem_singleton_self gate.b
  have hsigmoid : Reaches plan i gate.sigmoid := by
    have hreader : gate.mul ∈ consumers plan.program sigmoid.name := by
      rw [hp.onlyReader]
      exact List.mem_singleton_self gate.mul
    obtain ⟨reader, hreader, hmem⟩ := mem_consumers.mp hreader
    obtain rfl := Option.mem_unique hstmt hreader
    exact hreach.tail (.operand hstmt (mem_operands.mp hmem).1 (hplan.producer_name hp.sigmoidAt))
  refine (yields_tensor hplan hleft hprompt hensure ⟨_, stmt, hreach, hstmt, ha⟩).bind fun a hga => ?_
  refine (yields_tensor hplan hleft hprompt hensure ⟨_, sigmoid, hsigmoid, hp.sigmoidAt, hb⟩).bind fun b hgb => ?_
  exact Tracks.orRaise_bind _ fun v hv => tracks_setValue hplan hstmt (by rw [hp.isProduct]; decide)
    (hplan.not_linear hstmt (by rw [hp.isProduct]; decide)) (.gate hgate hstmt hga hgb hv)

theorem tracks_runSplit (hstmt : plan.program[x]? = some stmt) (hop : stmt.op = .split) (hreach : Reaches plan i x) :
    Tracks plan kernels device left inputs i (runSplit kernels (direct device) ensure x stmt) := by
  refine (yields_hosts hplan hprompt hensure hreach hstmt).bind fun xs hxs => ?_
  split
  · rename_i name harrays
    have hname : name ∈ stmt.arrays := by
      rw [harrays]
      exact List.mem_singleton_self name
    refine (yields_tensor hplan hleft hprompt hensure ⟨x, stmt, hreach, hstmt, hname⟩).bind fun whole hwhole => ?_
    refine Tracks.orRaise_bind _ fun parts hparts => ?_
    split_ifs
    · refine Tracks.change fun s f h => h.setValues hplan hstmt (by rw [hop]; decide)
        (hplan.not_linear hstmt (by rw [hop]; decide)) fun pair hpair => ?_
      have hpair : (pair.1, pair.2) ∈ stmt.names.zip (parts.map (direct device).ofArray) := hpair
      refine ⟨(List.of_mem_zip hpair).1, .split hstmt ?_ hxs hparts ?_⟩
      · rw [harrays]
        exact .cons hwhole .nil
      · rwa [show (direct device).ofArray = (id : V → V) from rfl, List.map_id] at hpair
    · exact Tracks.raise _
  · exact Tracks.raise _

/-- The operation itself. -/
theorem tracks_runApply (hstmt : plan.program[x]? = some stmt) (hop : stmt.op ≠ .const)
    (hlinear : ∀ silu, (x, silu) ∉ plan.silus) (hreach : Reaches plan i x) :
    Tracks plan kernels device left inputs i (runApply plan kernels (direct device) ensure x stmt) := by
  refine (yields_arrays hplan hleft hprompt hensure hreach hstmt).bind fun vs hvs => ?_
  refine (yields_hosts hplan hprompt hensure hreach hstmt).bind fun xs hxs => ?_
  have hnone : find (linearSilus plan.program plan.chain) x = none := by
    cases hfind : find (linearSilus plan.program plan.chain) x with
    | none => rfl
    | some silu => exact absurd (find_linearSilus.mp hfind) (hlinear silu)
  rw [hnone]
  exact Tracks.orRaise_bind _ fun v hv => tracks_setValue hplan hstmt hop hlinear (.op hstmt hvs hxs hv)

/-- The part of a statement on the GPU. -/
theorem tracks_runGpu (hstmt : plan.program[x]? = some stmt) (hop : stmt.op ≠ .const)
    (hlinear : ∀ silu, (x, silu) ∉ plan.silus) (hreach : Reaches plan i x) :
    Agree (fun _ => False) (fun _ _ => True) (fun s f => Twin plan kernels device left inputs i s f ∧
        ∀ linear, (linear, x) ∈ plan.silus → s.done linear = true)
      (runGpu plan kernels (direct device) ensure x stmt) (runGpu plan kernels (direct device) ensure x stmt)
      fun a b s f => a = b ∧ Twin plan kernels device left inputs i s f := by
  rintro s f ⟨h, hran⟩
  unfold runGpu
  rw [Direct.reads_bind, Direct.reads_bind, id_eq, id_eq, h.silu_eq hran]
  by_cases hsigmoid : stmt.op = .sigmoid ∧ x ∈ plan.gates.map Gate.sigmoid
  · rw [if_pos hsigmoid]
    exact Tracks.pure () s f h
  rw [if_neg hsigmoid]
  by_cases hfused : stmt.op = .silu ∧ f.siluDone x = true
  · rw [if_pos hfused]
    exact Tracks.pure () s f h
  rw [if_neg hfused]
  cases hgate : plan.gates.find? fun gate => decide (gate.mul = x) with
  | some gate =>
    have hmul := List.find?_some hgate
    obtain rfl := of_decide_eq_true hmul
    exact tracks_runGate hplan hleft hprompt hensure (List.mem_of_find?_eq_some hgate) hstmt hreach s f h
  | none =>
    dsimp only
    by_cases hsplit : stmt.op = .split
    · rw [if_pos hsplit]
      exact tracks_runSplit hplan hleft hprompt hensure hstmt hsplit hreach s f h
    · rw [if_neg hsplit]
      exact tracks_runApply hplan hleft hprompt hensure hstmt hop hlinear hreach s f h

/-- A content matmul asks for the scores of its layer. -/
theorem tracks_runContent (hplaced : plan.placed.a = true) {scores : ℕ} (hpair : (scores, x) ∈ plan.islands.pairs)
    (hstmt : plan.program[x]? = some stmt) (hreach : Reaches plan i x) :
    Tracks plan kernels device left inputs i (runContent plan kernels (direct device) ensure x scores stmt) := by
  have hplaces := indexIslands_eq_some hplan.islands
  have hop := hplaces.content_op hpair hstmt
  obtain ⟨scoresStmt, hscores, hops, -⟩ := hplaces.scores hpair
  have hconstant : stmt.op ≠ .const := by
    rw [hop]
    decide
  have hlinear := hplan.not_linear hstmt (by rw [hop]; decide)
  have hgpu : Tracks plan kernels device left inputs i (runGpu plan kernels (direct device) ensure x stmt) :=
    (tracks_runGpu hplan hleft hprompt hensure hstmt hconstant hlinear hreach).conseq
      (fun _ _ h => ⟨h, fun linear hmem => absurd hmem (hplan.not_silu hstmt (by rw [hop]; decide) linear)⟩)
      fun _ _ _ _ h => h
  have hplain := hplan.plain hstmt hconstant (List.mem_cons_self (a := stmt.name) (l := stmt.more))
  have hasked : Asked plan i scoresStmt.name := by
    refine ⟨fun y hy => ?_, Or.inl (hplan.plain hscores (by rw [hops]; decide) List.mem_cons_self)⟩
    obtain rfl := Option.mem_unique (hplan.producer_name hscores) hy
    exact hreach.tail (.scores hplaced hpair)
  have hread {s f : Runner ν V M} (h : Twin plan kernels device left inputs i s f) :
      (s.values stmt.name).isSome = (f.values stmt.name).isSome := by
    rw [h.values stmt.name hplain]
  intro s f h
  unfold runContent
  rw [Direct.reads_bind, Direct.reads_bind, id_eq, id_eq, hread h, hscores]
  split_ifs
  · exact hgpu s f h
  · refine (hensure _ hasked).bind (fun _ => ?_) s f h
    intro s f h
    rw [Direct.reads_bind, Direct.reads_bind, id_eq, id_eq, hread h]
    split_ifs
    · exact Tracks.pure () s f h
    · exact hgpu s f h

/-- A statement that is neither a constant nor a linear with a silu. -/
theorem tracks_executeInner (hstmt : plan.program[x]? = some stmt) (hop : stmt.op ≠ .const)
    (hlinear : ∀ silu, (x, silu) ∉ plan.silus) (hreach : Reaches plan i x) :
    Agree (fun _ => False) (fun _ _ => True) (fun s f => Twin plan kernels device left inputs i s f ∧
        ∀ linear, (linear, x) ∈ plan.silus → s.done linear = true)
      (executeInner plan kernels (direct device) ensure x stmt)
      (executeInner plan kernels (direct device) ensure x stmt)
      fun a b s f => a = b ∧ Twin plan kernels device left inputs i s f := by
  have hdispatch := hplan.dispatch kernels (direct device) ensure hstmt hop
  generalize executeInner plan kernels (direct device) ensure x stmt = run at hdispatch
  rintro s f ⟨h, hran⟩
  cases hdispatch with
  | islandA hplaced hpair hcontent =>
    exact tracks_runIslandA hplan hleft hprompt hensure hplaced hpair hstmt hcontent hreach s f h
  | islandB _ hop => exact tracks_runIslandB hplan hleft hprompt hensure hstmt hop hreach s f h
  | islandC _ hop _ => exact tracks_runIslandC hplan hleft hprompt hensure hstmt hop hreach s f h
  | content hplaced hpair => exact tracks_runContent hplan hleft hprompt hensure hplaced hpair hstmt hreach s f h
  | gpu _ => exact tracks_runGpu hplan hleft hprompt hensure hstmt hop hlinear hreach s f ⟨h, hran⟩

end Statements

section Linears

variable {s f : Runner ν V M} (hprompt : Prompt plan kernels ensure)

include hprompt

variable (device) in
/-- A read of an available name: it changes nothing, and both get one array or none. -/
theorem tensor_idle (hs : Idle plan s name) (hf : Idle plan f name)
    (hhas : plan.Plain name → s.has name = f.has name)
    (harray : s.tables.array kernels name = f.tables.array kernels name) :
    (∃ v, tensor kernels (direct device) ensure name s = (.ok v, s) ∧
      tensor kernels (direct device) ensure name f = (.ok v, f) ∧ f.tables.array kernels name = some v) ∨
    ∃ e e', tensor kernels (direct device) ensure name s = (.error e, s) ∧
      tensor kernels (direct device) ensure name f = (.error e', f) := by
  have hstill := hprompt.still name s hs
  have hstill' := hprompt.still name f hf
  have halike := hprompt.alike name s f hs hf hhas
  rw [tensor_eq]
  rcases hrun : ensure name s with ⟨a | a, s'⟩ <;> rcases hrun' : ensure name f with ⟨b | b, f'⟩ <;>
    rw [hrun] at hstill halike <;> rw [hrun'] at hstill' halike <;> obtain rfl := hstill <;> obtain rfl := hstill'
  · exact Or.inr ⟨a, b, bind_of_error hrun, bind_of_error hrun'⟩
  · exact halike.elim
  · exact halike.elim
  · rw [bind_of_ok hrun, bind_of_ok hrun', Direct.reads_bind, Direct.reads_bind, id_eq, id_eq, harray]
    cases hvalue : f'.tables.array kernels name with
    | some v => exact Or.inl ⟨v, rfl, rfl, rfl⟩
    | none => exact Or.inr ⟨_, _, rfl, rfl⟩

variable (device) in
/-- Reads of available names, one by one. -/
theorem collect_idle {names : List ν} (hs : ∀ name ∈ names, Idle plan s name) (hf : ∀ name ∈ names, Idle plan f name)
    (hhas : ∀ name, plan.Plain name → s.has name = f.has name)
    (harray : ∀ name ∈ names, s.tables.array kernels name = f.tables.array kernels name) :
    (∃ vs, collect (tensor kernels (direct device) ensure) names s = (.ok vs, s) ∧
      collect (tensor kernels (direct device) ensure) names f = (.ok vs, f) ∧
      List.Forall₂ (fun name v => f.tables.array kernels name = some v) names vs) ∨
    ∃ e e', collect (tensor kernels (direct device) ensure) names s = (.error e, s) ∧
      collect (tensor kernels (direct device) ensure) names f = (.error e', f) := by
  induction names with
  | nil => exact Or.inl ⟨[], rfl, rfl, .nil⟩
  | cons name rest ih =>
    unfold collect
    rcases tensor_idle device hprompt (hs name List.mem_cons_self) (hf name List.mem_cons_self) (hhas name)
      (harray name List.mem_cons_self) with ⟨v, hrun, hrun', hv⟩ | ⟨e, e', hrun, hrun'⟩
    · rw [bind_of_ok hrun, bind_of_ok hrun']
      rcases ih (fun other hother => hs other (List.mem_cons_of_mem name hother))
        (fun other hother => hf other (List.mem_cons_of_mem name hother))
        (fun other hother => harray other (List.mem_cons_of_mem name hother)) with
        ⟨vs, hrest, hrest', hvs⟩ | ⟨e, e', hrest, hrest'⟩
      · rw [bind_of_ok hrest, bind_of_ok hrest']
        exact Or.inl ⟨v :: vs, rfl, rfl, .cons hv hvs⟩
      · rw [bind_of_error hrest, bind_of_error hrest']
        exact Or.inr ⟨e, e', rfl, rfl⟩
    · rw [bind_of_error hrun, bind_of_error hrun']
      exact Or.inr ⟨e, e', rfl, rfl⟩

variable (hplan : plan.Formed declared) (hleft : ∀ (k : ℕ) (stmt : Statement ν) (y : M),
  plan.program[k]? = some stmt → left stmt.name y → i < k → Harmless plan kernels i k stmt.name y)

omit hprompt in
theorem Twin.has_eq (h : Twin plan kernels device left inputs i s f) (hplain : plan.Plain name) :
    s.has name = f.has name := by
  rw [Runner.has, Runner.has, h.values name hplain, h.heldLeft.no_host hplain, h.heldRight.no_host hplain]

include hplan in
omit hprompt in
/-- The result of a linear is published under the name of its silu, too. -/
theorem Twin.publish (h : Twin plan kernels device left inputs i s f) {silu : ℕ} {reader : Statement ν}
    (hpair : (x, silu) ∈ plan.silus) (hp : SiluPair plan.program x silu stmt reader) (hdone : s.done x = true) {v : V}
    (hv : Given plan kernels device inputs stmt.name v) :
    Twin plan kernels device left inputs i ((s.setValue stmt.name v).setValue reader.name v)
      ((f.setValue stmt.name v).setValue reader.name v) := by
  have hlinear := h.setValue hplan hp.linearAt (by rw [hp.isLinear]; decide) List.mem_cons_self (fun _ _ => hdone) hv
  exact hlinear.setValue hplan hp.siluAt (by rw [hp.isSilu]; decide) List.mem_cons_self
    (fun other hother => absurd hother (hplan.not_linear hp.siluAt (by rw [hp.isSilu]; decide) other))
    (.silu hpair hp.linearAt hp.siluAt hv)

include hplan hleft in
/-- A linear that may compute its silu, with its operands available: whether an earlier call left the silu alone makes
no difference when this call cannot give it operands that take the fused kernel. -/
theorem Twin.runApply_linear (h : Twin plan kernels device left inputs i s f) {silu : ℕ} {reader : Statement ν}
    (hpair : (x, silu) ∈ plan.silus) (hp : SiluPair plan.program x silu stmt reader) (hreach : Reaches plan i x)
    (hs : ∀ name ∈ stmt.arrays, Idle plan s name) (hf : ∀ name ∈ stmt.arrays, Idle plan f name) :
    Endings (fun _ _ => True) (fun a b s f => a = b ∧ Twin plan kernels device left inputs i s f)
      (runApply plan kernels (direct device) ensure x stmt (s.begin x))
      (runApply plan kernels (direct device) ensure x stmt (f.begin x)) := by
  have hop : stmt.op ≠ .const := by
    rw [hp.isLinear]
    decide
  have hbegun {r : Runner ν V M} : (r.begin x).done x = true := Runner.begin_done.mpr (Or.inl rfl)
  have hbegin {r : Runner ν V M} {name : ν} (hr : Idle plan r name) : Idle plan (r.begin x) name :=
    (lasting_idle kernels name).begin r x stmt hp.linearAt hop hr
  have harray (name : ν) (hname : name ∈ stmt.arrays) : s.tables.array kernels name = f.tables.array kernels name :=
    h.array_eq hplan hleft (hs name hname) (hf name hname) ⟨x, stmt, hreach, hp.linearAt, hname⟩
  have hread := collect_idle device hprompt (s := s.begin x) (f := f.begin x)
    (fun name hname => hbegin (hs name hname)) (fun name hname => hbegin (hf name hname))
    (fun name hplain => h.has_eq hplain) harray
  unfold runApply
  have hhosts := hplan.arities.arrays x stmt hp.linearAt (Or.inl hp.isLinear)
  rw [hhosts, find_linearSilus.mpr hpair]
  rcases hread with ⟨vs, hrun, hrun', hvs⟩ | ⟨e, e', hrun, hrun'⟩
  swap
  · rw [bind_of_error hrun, bind_of_error hrun']
    trivial
  have hgiven : List.Forall₂ (Given plan kernels device inputs) stmt.arrays vs :=
    hvs.imp fun name v hv => h.array_given hv
  have hnil : collect (scalar ensure) [] = (Pure.pure [] : Pass Id ν V M (List M)) := rfl
  rw [bind_of_ok hrun, bind_of_ok hrun', hnil, Direct.pure_bind, Direct.pure_bind]
  dsimp only
  rw [hp.siluAt]
  unfold applyLinear
  cases htakes : kernels.takesChain x vs with
  | none => trivial
  | some fused =>
    cases fused with
    | true =>
      have hsilu : s.siluDone silu = f.siluDone silu := by
        rcases h.silus silu with heq | ⟨linear, hmem, -, hbarred⟩
        · exact heq
        · obtain rfl := hplan.unique_linear hpair hmem
          exact absurd htakes (hbarred stmt vs hp.linearAt hgiven)
      have htwin := h.begin hplan hp.linearAt hop fun other hother => by
        rw [linearSilus_unique_silu hother hpair]
        exact hsilu
      cases hchain : kernels.chainSilu x vs with
      | none => trivial
      | some v => exact ⟨rfl, htwin.publish hplan hpair hp hbegun (.chain hpair hp.linearAt hgiven hchain)⟩
    | false =>
      have htwin := (h.discard hplan silu).begin hplan hp.linearAt hop fun other hother => by
        rw [linearSilus_unique_silu hother hpair]
        change Function.update s.siluDone silu false silu = Function.update f.siluDone silu false silu
        rw [Function.update_self, Function.update_self]
      cases hv : kernels.op x vs [] with
      | none => trivial
      | some v => exact ⟨rfl, htwin.publish hplan hpair hp hbegun (.op hp.linearAt hgiven (hhosts ▸ .nil) hv)⟩

end Linears

section Executing

variable (hplan : plan.Formed declared)
  (hleft : ∀ (k : ℕ) (stmt : Statement ν) (y : M), plan.program[k]? = some stmt → left stmt.name y → i < k →
    Harmless plan kernels i k stmt.name y)
  (hprompt : Prompt plan kernels ensure)
  (hensure : ∀ name, Asked plan i name → Tracks plan kernels device left inputs i (ensure name))

include hplan in
/-- A constant in its turn: afterwards it is the same on both. -/
theorem tracks_execute_constant (hstmt : plan.program[x]? = some stmt) (hop : stmt.op = .const) :
    Tracks plan kernels device left inputs i (execute plan kernels (direct device) ensure x) := by
  intro s f h
  right
  have hrun {r : Runner ν V M} (hundone : r.done x = false) := execute_constant kernels device ensure
    hstmt hop hundone
  have hset {r r' : Runner ν V M} (hr : Executed plan (kernels.literal x) x stmt.name r r') : r'.done x = true := by
    rw [hr.done]
    exact Runner.begin_done.mpr (Or.inl rfl)
  cases h.constants x stmt hstmt hop with
  | same done value host =>
    by_cases hdone : f.done x = true
    · rw [execute_of_done (done.trans hdone), execute_of_done hdone]
      exact ⟨rfl, h⟩
    rw [Bool.not_eq_true] at hdone
    obtain ⟨s', hs', hruns⟩ := hrun (done.trans hdone)
    obtain ⟨f', hf', hrunf⟩ := hrun hdone
    rw [hruns, hrunf]
    cases (kernels.literal x).whole with
    | false => trivial
    | true =>
      exact ⟨rfl, h.moved hplan hstmt hop (hs'.moved hplan h.heldLeft hstmt hop (done.trans hdone))
        (hf'.moved hplan h.heldRight hstmt hop hdone)
        (.same ((hset hs').trans (hset hf').symm) (by rw [hs'.value, hf'.value, value])
          (by rw [hs'.host, hf'.host, host]))⟩
  | ahead whole done undone value host novalue nohost =>
    obtain ⟨f', hf', hrunf⟩ := hrun undone
    rw [execute_of_done done, hrunf, whole]
    exact ⟨rfl, h.moved hplan hstmt hop (.refl h.heldLeft) (hf'.moved hplan h.heldRight hstmt hop undone)
      (.same (done.trans (hset hf').symm) (by rw [value, hf'.value, novalue, Option.or_none])
        (by rw [host, hf'.host, nohost, Option.or_none]))⟩
  | kept y hover hliteral undone novalue host undone' novalue' nohost =>
    obtain ⟨s', hs', hruns⟩ := hrun undone
    obtain ⟨f', hf', hrunf⟩ := hrun undone'
    rw [hruns, hrunf]
    cases (kernels.literal x).whole with
    | false => trivial
    | true =>
      exact ⟨rfl, h.moved hplan hstmt hop (hs'.moved hplan h.heldLeft hstmt hop undone)
        (hf'.moved hplan h.heldRight hstmt hop undone')
        (.same ((hset hs').trans (hset hf').symm) (by rw [hs'.value, hf'.value, novalue, novalue'])
          (by rw [hs'.host, hf'.host, hliteral, Option.some_or, Option.some_or]))⟩
  | pulled y hover whole undone novalue host done value host' =>
    obtain ⟨s', hs', hruns⟩ := hrun undone
    rw [execute_of_done done, hruns, whole]
    have hliteral := h.heldRight.toHost hplan hstmt host'
    exact ⟨rfl, h.moved hplan hstmt hop (hs'.moved hplan h.heldLeft hstmt hop undone) (.refl h.heldRight)
      (.same ((hset hs').trans done.symm) (by rw [hs'.value, value, novalue, Option.or_none])
        (by rw [hs'.host, host', hliteral, Option.some_or]))⟩

/-- The operands of a statement are available on a runner. -/
def Supplied (plan : Plan ν) (stmt : Statement ν) (s : Runner ν V M) : Prop :=
  ∀ name ∈ stmt.arrays ++ stmt.hosts, Idle plan s name

include hplan hleft hprompt hensure in
/-- A statement whose operands are available. -/
theorem tracks_execute (hstmt : plan.program[x]? = some stmt) (hreach : Reaches plan i x) :
    Agree (fun _ => False) (fun _ _ => True)
      (fun s f => Twin plan kernels device left inputs i s f ∧ Supplied plan stmt s ∧ Supplied plan stmt f)
      (execute plan kernels (direct device) ensure x) (execute plan kernels (direct device) ensure x)
      fun a b s f => a = b ∧ Twin plan kernels device left inputs i s f := by
  rintro s f ⟨h, hs, hf⟩
  by_cases hop : stmt.op = .const
  · exact tracks_execute_constant hplan hstmt hop s f h
  have hsame : s.done x = f.done x := h.done x fun other hother => by
    obtain rfl := Option.mem_unique hstmt hother
    exact hop
  by_cases hdone : f.done x = true
  · rw [execute_of_done (hsame.trans hdone), execute_of_done hdone]
    exact Tracks.pure () s f h
  rw [Bool.not_eq_true] at hdone
  rw [execute_of_undone hstmt (hsame.trans hdone), execute_of_undone hstmt hdone]
  by_cases hlinear : ∃ silu, (x, silu) ∈ plan.silus
  · obtain ⟨silu, hpair⟩ := hlinear
    obtain ⟨user, reader, hp⟩ := hplan.arities.siluPair hpair
    obtain rfl := Option.mem_unique hstmt hp.linearAt
    rw [executeInner_of_op hplan hstmt hop (by rw [hp.isLinear]; decide) (by rw [hp.isLinear]; decide)]
    have happly (r : Runner ν V M) : runGpu plan kernels (direct device) ensure x stmt (r.begin x) =
        runApply plan kernels (direct device) ensure x stmt (r.begin x) :=
      runGpu_eq_runApply hplan hstmt (by rw [hp.isLinear]; decide) (by rw [hp.isLinear]; decide)
        (by rw [hp.isLinear]; decide) (by rw [hp.isLinear]; simp)
    rw [happly s, happly f]
    right
    exact h.runApply_linear hprompt hplan hleft hpair hp hreach
      (fun name hname => hs name (List.mem_append_left _ hname))
      fun name hname => hf name (List.mem_append_left _ hname)
  · have hnone (silu : ℕ) : (x, silu) ∉ plan.silus := fun hpair => hlinear ⟨silu, hpair⟩
    refine tracks_executeInner hplan hleft hprompt hensure hstmt hop hnone hreach _ _
      ⟨h.begin hplan hstmt hop fun silu hpair => absurd hpair (hnone silu), fun linear hpair => ?_⟩
    obtain ⟨user, reader, hp⟩ := hplan.arities.siluPair hpair
    obtain rfl := Option.mem_unique hstmt hp.siluAt
    apply Runner.begin_done.mpr
    right
    have hname : user.name ∈ stmt.arrays ++ stmt.hosts := by
      rw [hp.arrays]
      exact List.mem_append_left _ (List.mem_singleton_self user.name)
    rcases hs user.name hname with hhas | hdone
    · by_contra hundone
      rw [Bool.not_eq_true] at hundone
      rw [Runner.has, h.linears linear x user hpair hp.linearAt hundone, h.heldLeft.no_host (hplan.plain hp.linearAt
        (by rw [hp.isLinear]; decide) List.mem_cons_self)] at hhas
      cases hhas
    · exact hdone linear (hplan.producer_name hp.linearAt)

include hprompt hensure in
/-- Names are made available, one by one. -/
theorem tracks_each {names : List ν} (hnames : ∀ name ∈ names, Asked plan i name) :
    Agree (fun _ => False) (fun _ _ => True) (Twin plan kernels device left inputs i) (each ensure names)
      (each ensure names)
      fun _ _ s f => Twin plan kernels device left inputs i s f ∧ (∀ name ∈ names, Idle plan s name) ∧
        ∀ name ∈ names, Idle plan f name := by
  induction names with
  | nil => exact Agree.pure fun _ _ h => ⟨h, fun name hname => absurd hname List.not_mem_nil, fun name hname =>
      absurd hname List.not_mem_nil⟩
  | cons name rest ih =>
    have hfirst := (hensure name (hnames name List.mem_cons_self)).returns (p := fun _ s => Idle plan s name)
      (q := fun _ f => Idle plan f name) (fun s _ s' => hprompt.readies name s s')
      fun f _ f' => hprompt.readies name f f'
    have hkeeps := Keeps.each rest fun other _ => hprompt.keeps _ (lasting_idle kernels name) other
    have hrest := (ih fun other hother => hnames other (List.mem_cons_of_mem name hother)).frame hkeeps hkeeps
    refine hfirst.bind (fun _ _ h => h.elim) fun _ _ => hrest.conseq (fun s f h => ⟨h.1.2, h.2⟩) ?_
    rintro _ _ s f ⟨⟨h, hs, hf⟩, hname, hname'⟩
    exact ⟨h, List.forall_mem_cons.mpr ⟨hname, hs⟩, List.forall_mem_cons.mpr ⟨hname', hf⟩⟩

include hplan hleft hprompt hensure in
/-- A name of no constant is made available. -/
theorem tracks_ensureWith_plain (hname : Asked plan i name) (hplain : plan.Plain name) :
    Tracks plan kernels device left inputs i (ensureWith plan kernels (direct device) ensure name) := by
  intro s f h
  have hhas := h.has_eq hplain
  by_cases hf : f.has name = true
  · rw [ensureWith_of_has (hhas.trans hf), ensureWith_of_has hf]
    exact Tracks.pure () s f h
  have hs : ¬ s.has name = true := by rwa [hhas]
  cases hproducer : producer plan.program name with
  | none =>
    rw [ensureWith_of_none hs hproducer, ensureWith_of_none hf hproducer]
    exact Or.inr trivial
  | some x =>
    obtain ⟨stmt, hstmt, -⟩ := producer_spec hproducer
    have hreach := hname.reached x hproducer
    have hsame : s.done x = f.done x := h.done x fun other hother hop => by
      rw [hplan.arities.eq_name hproducer hother (by rw [hop]; decide)] at hplain
      exact hplain x other hother hop rfl
    by_cases hdone : f.done x = true
    · rw [ensureWith_of_done hs hproducer (hsame.trans hdone), ensureWith_of_done hf hproducer hdone]
      exact Tracks.pure () s f h
    have hundone : ¬ s.done x = true := by rwa [hsame]
    rw [ensureWith_of_undone hs hproducer hstmt hundone, ensureWith_of_undone hf hproducer hstmt hdone]
    refine Agree.bind (tracks_each hprompt hensure fun other hother =>
      asked_operand hreach hstmt (mem_operands.mp hother).1) (fun _ _ h => h.elim) (fun _ _ => ?_) s f h
    refine (tracks_execute hplan hleft hprompt hensure hstmt hreach).conseq ?_ fun _ _ _ _ h => h
    rintro s f ⟨h, hs, hf⟩
    have hall {r : Runner ν V M} (hr : ∀ name ∈ operands plan.program stmt, Idle plan r name) :
        Supplied plan stmt r := by
      intro other hother
      by_cases hproduced : ∃ y, producer plan.program other = some y
      · exact hr other (mem_operands.mpr ⟨hother, hproduced⟩)
      · exact Or.inr fun y hy => absurd ⟨y, hy⟩ hproduced
    exact ⟨h, hall hs, hall hf⟩

include hplan in
/-- A constant has no operands to make available. -/
theorem ensureWith_constant {s : Runner ν V M} (hstmt : plan.program[x]? = some stmt) (hop : stmt.op = .const)
    (hhas : ¬ s.has stmt.name = true) (hdone : s.done x = false) :
    ensureWith plan kernels (direct device) ensure stmt.name s = execute plan kernels (direct device) ensure x s := by
  obtain ⟨harrays, hhosts⟩ := hplan.arities.constant x stmt hstmt hop
  have hnone : operands plan.program stmt = [] := by
    rw [operands, harrays, hhosts]
    rfl
  rw [ensureWith_of_undone hhas (hplan.producer_name hstmt) hstmt (by rw [hdone]; decide), hnone]
  rfl

include hplan hleft in
/-- A constant is made available: where it was not executed yet, that happens now, and host data that was left over
serves instead. -/
theorem tracks_ensureWith_constant (hstmt : plan.program[x]? = some stmt) (hop : stmt.op = .const)
    (hname : Asked plan i stmt.name) :
    Tracks plan kernels device left inputs i (ensureWith plan kernels (direct device) ensure stmt.name) := by
  intro s f h
  have hproducer := hplan.producer_name hstmt
  have hnot {r : Runner ν V M} (hvalue : r.values stmt.name = none) (hhost : r.hosts stmt.name = none) :
      ¬ r.has stmt.name = true := by
    rw [Runner.has, hvalue, hhost]
    exact Bool.false_ne_true
  have hhas {r : Runner ν V M} {y : M} (hhost : r.hosts stmt.name = some y) : r.has stmt.name = true := by
    rw [Runner.has, hhost, Option.isSome_some, Bool.or_true]
  cases h.constants x stmt hstmt hop with
  | same done value host =>
    have hsame : s.has stmt.name = f.has stmt.name := by rw [Runner.has, Runner.has, value, host]
    by_cases hf : f.has stmt.name = true
    · rw [ensureWith_of_has (hsame.trans hf), ensureWith_of_has hf]
      exact Tracks.pure () s f h
    have hs : ¬ s.has stmt.name = true := by rwa [hsame]
    by_cases hdone : f.done x = true
    · rw [ensureWith_of_done hs hproducer (done.trans hdone), ensureWith_of_done hf hproducer hdone]
      exact Tracks.pure () s f h
    · rw [Bool.not_eq_true] at hdone
      rw [ensureWith_constant hplan hstmt hop hs (done.trans hdone), ensureWith_constant hplan hstmt hop hf hdone]
      exact tracks_execute_constant hplan hstmt hop s f h
  | ahead whole done undone value host novalue nohost =>
    have hs : ensureWith plan kernels (direct device) ensure stmt.name s =
        execute plan kernels (direct device) ensure x s := by
      rw [execute_of_done done]
      by_cases hs : s.has stmt.name = true
      · exact ensureWith_of_has hs
      · exact ensureWith_of_done hs hproducer done
    rw [hs, ensureWith_constant hplan hstmt hop (hnot novalue nohost) undone]
    exact tracks_execute_constant hplan hstmt hop s f h
  | kept y hover hliteral undone novalue host undone' novalue' nohost =>
    obtain ⟨f', hf', hrunf⟩ := execute_constant kernels device ensure hstmt hop undone'
    have hwhole : (kernels.literal x).whole = true := by
      rcases hname.reader with hplain | ⟨reader, user, hreach, huser, hmem⟩
      · exact absurd rfl (hplain x stmt hstmt hop)
      · exact ((h.harmless hplan hleft hstmt hop hover undone) reader user hreach huser).1 hmem
    rw [ensureWith_of_has (hhas host), ensureWith_constant hplan hstmt hop (hnot novalue' nohost) undone', hrunf,
      hwhole]
    right
    refine ⟨rfl, h.moved hplan hstmt hop (.refl h.heldLeft) (hf'.moved hplan h.heldRight hstmt hop undone')
      (.pulled y hover hwhole undone novalue host ?_ ?_ ?_)⟩
    · rw [hf'.done]
      exact Runner.begin_done.mpr (Or.inl rfl)
    · rw [hf'.value, novalue', Option.or_none]
    · rw [hf'.host, hliteral, Option.some_or]
  | pulled y hover whole undone novalue host done value host' =>
    rw [ensureWith_of_has (hhas host), ensureWith_of_has (hhas host')]
    exact Tracks.pure () s f h

include hplan hleft in
/-- However many nested calls are allowed. -/
theorem tracks_ensure (depth : ℕ) (name : ν) (hname : Asked plan i name) :
    Tracks plan kernels device left inputs i (Encoder.ensure plan kernels (direct device) depth name) := by
  induction depth generalizing name with
  | zero =>
    rcases plain_or_constant plan name with hplain | ⟨k, stmt, hstmt, hop, rfl⟩
    · exact tracks_ensureWith_plain hplan hleft (prompt_raise _) (fun _ _ => Tracks.raise _) hname hplain
    · exact tracks_ensureWith_constant hplan hleft hstmt hop hname
  | succ depth ih =>
    rcases plain_or_constant plan name with hplain | ⟨k, stmt, hstmt, hop, rfl⟩
    · exact tracks_ensureWith_plain hplan hleft (prompt_ensure kernels device hplan depth) ih hname hplain
    · exact tracks_ensureWith_constant hplan hleft hstmt hop hname

end Executing

end AneLinux.Encoder
