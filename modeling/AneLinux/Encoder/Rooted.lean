import AneLinux.Encoder.Computable
import AneLinux.Support.Ends

/-!
# The invariant of a call for what is computable

While a call goes on without an exception, what it holds is computable from its inputs, and so is what is done: apart
from the statements in progress, and from the sigmoids and silus that another statement computes. Nothing is ever stored
for the sigmoid of a fused gate.
-/

namespace AneLinux.Encoder

open AneLinux.Support Attempt Direct

variable {ν V M : Type} [DecidableEq ν]

/-- A statement that is done without being computed: the sigmoid of a fused gate, or the silu of a linear. -/
def Plan.Skipped (plan : Plan ν) (x : ℕ) : Prop :=
  x ∈ plan.gates.map Gate.sigmoid ∨ ∃ linear, (linear, x) ∈ plan.silus

/-- What a call holds is computable, where `busy` are the statements in progress. -/
structure Rooted (plan : Plan ν) (kernels : Kernels V M) (given : List ν) (busy : ℕ → Prop) (s : Runner ν V M) :
    Prop where
  held : Held plan kernels s
  ended : ∀ x, s.done x = true → busy x ∨ plan.Skipped x ∨ Computable plan.program given (Asks plan) x
  stored : ∀ name y, s.has name = true → producer plan.program name = some y →
    Computable plan.program given (Asks plan) y ∧ y ∉ plan.gates.map Gate.sigmoid
  given : ∀ name, s.has name = true → producer plan.program name = none → name ∈ given

/-- The scores in progress have their own arguments. -/
def Vetted (plan : Plan ν) (given : List ν) (busy : ℕ → Prop) : Prop :=
  plan.placed.a = true → ∀ scores content stmt, (scores, content) ∈ plan.islands.pairs → busy scores →
    plan.program[scores]? = some stmt → ∀ name ∈ stmt.arrays ++ stmt.hosts, Resolved plan given name

/-- A name that a constant produces. -/
def Plan.IsConstant (plan : Plan ν) (name : ν) : Prop :=
  ∃ (k : ℕ) (stmt : Statement ν), plan.program[k]? = some stmt ∧ stmt.op = .const ∧ stmt.name = name

variable {plan : Plan ν} {declared : List ν} {busy : ℕ → Prop} {x : ℕ} {stmt : Statement ν} {s s' : Runner ν V M}
  {name : ν} {ensure : ν → Pass Id ν V M Unit} {kernels : Kernels V M} {device : Job V → Except String (ℕ → V)}

section States

variable {given : List ν}

theorem Rooted.resolved (h : Rooted plan kernels given busy s) (hhas : s.has name = true) :
    Resolved plan given name := ⟨fun y hy => (h.stored name y hhas hy).1, h.given name hhas⟩

variable (hplan : plan.Formed declared)

include hplan

/-- A sigmoid is no other operation. -/
theorem Plan.Formed.not_sigmoid (hstmt : plan.program[x]? = some stmt) (hop : stmt.op ≠ .sigmoid) :
    x ∉ plan.gates.map Gate.sigmoid := by
  intro hmem
  obtain ⟨gate, hgate, rfl⟩ := List.mem_map.mp hmem
  obtain ⟨sigmoid, product, hp⟩ := hplan.arities.gatePlaces (hplan.gates gate hgate)
  obtain rfl := Option.mem_unique hstmt hp.sigmoidAt
  exact hop hp.isSigmoid

/-- A computable value may be set. -/
theorem Rooted.setValue (h : Rooted plan kernels given busy s) (hstmt : plan.program[x]? = some stmt)
    (hconstant : stmt.op ≠ .const) (hname : name ∈ stmt.names)
    (hcomputable : Computable plan.program given (Asks plan) x) (hloud : x ∉ plan.gates.map Gate.sigmoid) (v : V) :
    Rooted plan kernels given busy (s.setValue name v) := by
  have hproducer := hplan.single.producer_eq hstmt hname
  have hold {other : ν} (hne : other ≠ name) (hhas : (s.setValue name v).has other = true) : s.has other = true := by
    rw [Runner.has, Runner.setValue_values_of_ne v hne] at hhas
    exact hhas
  refine ⟨(Held.lasting hplan).setValue s x stmt name v hstmt hconstant hname h.held, h.ended,
    fun other y hhas hy => ?_, fun other hhas hnone => ?_⟩
  · by_cases heq : other = name
    · subst heq
      obtain rfl := Option.mem_unique hproducer hy
      exact ⟨hcomputable, hloud⟩
    · exact h.stored other y (hold heq hhas) hy
  · by_cases heq : other = name
    · subst heq
      rw [hproducer] at hnone
      cases hnone
    · exact h.given other (hold heq hhas) hnone

/-- So may several. -/
theorem Rooted.setValues (h : Rooted plan kernels given busy s) (hstmt : plan.program[x]? = some stmt)
    (hconstant : stmt.op ≠ .const) (hcomputable : Computable plan.program given (Asks plan) x)
    (hloud : x ∉ plan.gates.map Gate.sigmoid) {pairs : List (ν × V)} (hpairs : ∀ pair ∈ pairs, pair.1 ∈ stmt.names) :
    Rooted plan kernels given busy (s.setValues pairs) := by
  induction pairs generalizing s with
  | nil => exact h
  | cons pair rest ih =>
    exact ih (h.setValue hplan hstmt hconstant (hpairs pair List.mem_cons_self) hcomputable hloud pair.2)
      fun other hother => hpairs other (List.mem_cons_of_mem pair hother)

/-- A statement begins. -/
theorem Rooted.begin (h : Rooted plan kernels given busy s) (hstmt : plan.program[x]? = some stmt)
    (hconstant : stmt.op ≠ .const) : Rooted plan kernels given (fun y => busy y ∨ y = x) (s.begin x) := by
  refine ⟨(Held.lasting hplan).begin s x stmt hstmt hconstant h.held, fun y hy => ?_, h.stored, h.given⟩
  rcases Runner.begin_done.mp hy with rfl | hy
  · exact Or.inl (Or.inr rfl)
  · exact (h.ended y hy).imp_left Or.inl

omit hplan in
/-- A statement is over. -/
theorem Rooted.finish (h : Rooted plan kernels given (fun y => busy y ∨ y = x) s)
    (hx : plan.Skipped x ∨ Computable plan.program given (Asks plan) x) : Rooted plan kernels given busy s := by
  refine ⟨h.held, fun y hy => ?_, h.stored, h.given⟩
  rcases h.ended y hy with (hbusy | rfl) | hended
  · exact Or.inl hbusy
  · exact Or.inr hx
  · exact Or.inr hended

/-- A statement begins and is over. -/
theorem Rooted.pass (h : Rooted plan kernels given busy s) (hstmt : plan.program[x]? = some stmt)
    (hconstant : stmt.op ≠ .const) (hcomputable : Computable plan.program given (Asks plan) x) :
    Rooted plan kernels given busy (s.begin x) :=
  (h.begin hplan hstmt hconstant).finish (Or.inr hcomputable)

theorem Rooted.discard (h : Rooted plan kernels given busy s) (silu : ℕ) :
    Rooted plan kernels given busy (s.discard silu) :=
  ⟨(Held.lasting hplan).discard s silu h.held, h.ended, h.stored, h.given⟩

/-- A constant is over as soon as it is executed. -/
theorem Rooted.constant (h : Rooted plan kernels given busy s) (hstmt : plan.program[x]? = some stmt)
    (hop : stmt.op = .const) (hundone : s.done x = false)
    (hexecuted : Executed plan (kernels.literal x) x stmt.name s s') : Rooted plan kernels given busy s' := by
  have hcomputable : Computable plan.program given (Asks plan) x := hplan.computable_constant hstmt hop
  have hproducer := hplan.producer_name hstmt
  have hold {other : ν} (hne : other ≠ stmt.name) (hhas : s'.has other = true) : s.has other = true := by
    obtain ⟨hvalue, hhost, -⟩ := hexecuted.other other hne
    rwa [Runner.has, hvalue, hhost] at hhas
  refine ⟨h.held.constant hplan hstmt hop hundone hexecuted, fun y hy => ?_, fun other y hhas hy => ?_,
    fun other hhas hnone => ?_⟩
  · rw [hexecuted.done] at hy
    rcases Runner.begin_done.mp hy with rfl | hy
    · exact Or.inr (Or.inr hcomputable)
    · exact h.ended y hy
  · by_cases heq : other = stmt.name
    · subst heq
      obtain rfl := Option.mem_unique hproducer hy
      exact ⟨hcomputable, hplan.not_sigmoid hstmt (by rw [hop]; decide)⟩
    · exact h.stored other y (hold heq hhas) hy
  · by_cases heq : other = stmt.name
    · subst heq
      rw [hproducer] at hnone
      cases hnone
    · exact h.given other (hold heq hhas) hnone

omit hplan in
/-- Statements that are no scores of a placed island may begin without more. -/
theorem Vetted.begin (h : Vetted plan given busy)
    (hscores : plan.placed.a = true → ∀ content, (x, content) ∉ plan.islands.pairs) :
    Vetted plan given fun y => busy y ∨ y = x := by
  rintro hplaced scores content other hpair (hbusy | rfl) hother
  · exact h hplaced scores content other hpair hbusy hother
  · exact absurd hpair (hscores hplaced content)

end States

section Reading

variable {given : List ν}

/-- A part of a call that, when it returns, has kept what the call holds computable, and shows what it found to be. -/
abbrev Roots (plan : Plan ν) (kernels : Kernels V M) (given : List ν) (busy : ℕ → Prop) {α : Type}
    (p : Pass Id ν V M α) (found : Prop) : Prop :=
  Ends (Rooted plan kernels given busy) p (fun _ s => Rooted plan kernels given busy s ∧ found) fun _ _ => True

/-- What `ensure` does for a name, unless scores in progress lack their arguments; then it does so for constants. -/
def Supplies (plan : Plan ν) (kernels : Kernels V M) (given : List ν) (ensure : ν → Pass Id ν V M Unit) : Prop :=
  ∀ (busy : ℕ → Prop) (name : ν), Vetted plan given busy ∨ plan.IsConstant name →
    Roots plan kernels given busy (ensure name) True

omit [DecidableEq ν] in
/-- An array that is read is there. -/
theorem roots_tensor [DecidableEq ν] {pre : Runner ν V M → Prop}
    (hensure : Ends pre (ensure name) (fun _ s => Rooted plan kernels given busy s ∧ True) fun _ _ => True) :
    Ends pre (tensor kernels (direct device) ensure name)
      (fun _ s => Rooted plan kernels given busy s ∧ Resolved plan given name) fun _ _ => True := by
  refine Ends.bind hensure fun _ => Ends.reads_bind fun s hs => ?_
  dsimp only [id_eq]
  cases hvalue : s.values name with
  | some v =>
    refine Ends.pure fun s' heq => ?_
    rw [heq]
    exact ⟨hs.1, hs.1.resolved (by rw [Runner.has, hvalue, Option.isSome_some, Bool.true_or])⟩
  | none =>
    refine Ends.orRaise (fun v hhost s' heq => ?_) fun _ _ _ => trivial
    obtain ⟨y, hy, -⟩ := Option.bind_eq_some_iff.mp hhost
    rw [heq]
    exact ⟨hs.1, hs.1.resolved (by rw [Runner.has, hy, Option.isSome_some, Bool.or_true])⟩

variable (hplan : plan.Formed declared) (hprompt : Prompt plan kernels ensure)
  (hsupplies : Supplies plan kernels given ensure)

include hprompt in
/-- A name that is available is read at once. -/
theorem roots_still : Ends (fun s => Rooted plan kernels given busy s ∧ Idle plan s name) (ensure name)
    (fun _ s => Rooted plan kernels given busy s ∧ True) fun _ _ => True := by
  rintro s ⟨hs, hidle⟩
  have hstill := hprompt.still name s hidle
  rcases hrun : ensure name s with ⟨e | u, s'⟩
  · trivial
  · rw [hrun] at hstill
    obtain rfl : s' = s := hstill
    exact ⟨hs, trivial⟩

include hplan hprompt hsupplies in
/-- Host data that is read is there, and only constants have some. -/
theorem roots_scalar (name : ν) : Roots plan kernels given busy (scalar ensure name) (Resolved plan given name) := by
  intro s hs
  rcases hfirst : ensure name s with ⟨e | u, s₁⟩
  · unfold scalar
    rw [bind_of_error hfirst]
    trivial
  have hheld : Held plan kernels s₁ := by
    have hkeeps := hprompt.keeps _ (Held.lasting hplan) name s hs.held
    rwa [hfirst] at hkeeps
  unfold scalar
  rw [bind_of_ok hfirst, Direct.reads_bind, id_eq]
  cases hhost : s₁.hosts name with
  | none => trivial
  | some y =>
    obtain ⟨k, stmt, hstmt, hop, hname, -⟩ := hheld.hosts name y hhost
    have hroots := (hsupplies busy name (Or.inr ⟨k, stmt, hstmt, hop, hname⟩)).of_ok hs hfirst
    exact ⟨hroots.1, hroots.1.resolved (by rw [Runner.has, hhost, Option.isSome_some, Bool.or_true])⟩

include hplan hprompt hsupplies in
/-- The flags of a matmul are read as host data. -/
theorem roots_requireFlags (i : ℕ) (flags : List (ν × Bool)) :
    Roots plan kernels given busy (requireFlags kernels ensure i flags)
      (∀ flag ∈ flags, Resolved plan given flag.1) := by
  induction flags with
  | nil => exact Ends.pure fun s hs => ⟨hs, fun flag hflag => absurd hflag List.not_mem_nil⟩
  | cons flag rest ih =>
    refine Ends.bind (roots_scalar hplan hprompt hsupplies flag.1) fun y => ?_
    split_ifs
    · rintro s ⟨hs, hflag⟩
      refine (ih.conseq (fun _ h => h) fun _ s' hs' => ⟨hs'.1, fun other hother => ?_⟩) s hs
      rcases List.mem_cons.mp hother with rfl | hother
      · exact hflag
      · exact hs'.2 other hother
    · exact Ends.raise fun _ _ => trivial

variable (hvetted : Vetted plan given busy)

include hplan hprompt hsupplies in
/-- Host values that were read are resolved. -/
theorem roots_collect_scalar (names : List ν) :
    Roots plan kernels given busy (collect (scalar ensure) names) (∀ name ∈ names, Resolved plan given name) :=
  (Ends.collect names (fun name _ => roots_scalar hplan hprompt hsupplies name) fun _ _ _ h => h :
    Ends _ _ (fun _ s => Rooted plan kernels given busy s ∧ ∀ name ∈ names, Resolved plan given name) _)

include hsupplies hvetted in
/-- Arrays that were read are resolved. -/
theorem roots_collect_tensor (names : List ν) :
    Roots plan kernels given busy (collect (tensor kernels (direct device) ensure) names)
      (∀ name ∈ names, Resolved plan given name) :=
  (Ends.collect names (fun name _ => roots_tensor (hsupplies busy name (Or.inl hvetted))) fun _ _ _ h => h :
    Ends _ _ (fun _ s => Rooted plan kernels given busy s ∧ ∀ name ∈ names, Resolved plan given name) _)

end Reading

section Executing

variable {given : List ν} (hplan : plan.Formed declared) (hprompt : Prompt plan kernels ensure)
  (hsupplies : Supplies plan kernels given ensure) (hstmt : plan.program[x]? = some stmt)
  (hconstant : stmt.op ≠ .const)

/-- A part of a call while the operands of a statement are available. -/
abbrev RootsBeside (plan : Plan ν) (kernels : Kernels V M) (given : List ν) (busy : ℕ → Prop) (stmt : Statement ν)
    {α : Type} (p : Pass Id ν V M α) (found : Prop) : Prop :=
  Ends (fun s => Rooted plan kernels given busy s ∧ Supplied plan stmt s) p
    (fun _ s => (Rooted plan kernels given busy s ∧ Supplied plan stmt s) ∧ found) fun _ _ => True

include hprompt in
theorem keeps_supplied (name : ν) : Keeps (Supplied plan stmt) (ensure name) := fun s hs other hother =>
  hprompt.keeps _ (lasting_idle kernels other) name s (hs other hother)

omit hprompt in
theorem Roots.beside {α : Type} {p : Pass Id ν V M α} {found : Prop} (h : Roots plan kernels given busy p found)
    (hkeeps : Keeps (Supplied plan stmt) p) : RootsBeside plan kernels given busy stmt p found :=
  (h.frame hkeeps).conseq (fun _ hs => hs) fun _ _ hs => ⟨⟨hs.1.1, hs.2⟩, hs.1.2⟩

include hprompt in
/-- An array of the statement itself is read at once. -/
theorem roots_own (hname : name ∈ stmt.arrays ++ stmt.hosts) :
    RootsBeside plan kernels given busy stmt (tensor kernels (direct device) ensure name)
      (Resolved plan given name) := by
  have hread : Ends (fun s => Rooted plan kernels given busy s ∧ Supplied plan stmt s)
      (tensor kernels (direct device) ensure name)
      (fun _ s => Rooted plan kernels given busy s ∧ Resolved plan given name) fun _ _ => True :=
    roots_tensor ((roots_still hprompt).conseq (fun s hs => ⟨hs.1, hs.2 name hname⟩) fun _ _ hs => hs)
  exact (hread.frame (keeps_tensor (keeps_supplied hprompt) name)).conseq (fun s hs => ⟨hs, hs.2⟩)
    fun _ s hs => ⟨⟨hs.1.1, hs.2⟩, hs.1.2⟩

include hplan hstmt hconstant in
/-- The result of a computable statement is stored. -/
theorem roots_store (hcomputable : Computable plan.program given (Asks plan) x)
    (hloud : x ∉ plan.gates.map Gate.sigmoid) (v : V) :
    Roots plan kernels given busy (change fun s => s.setValue stmt.name v : Pass Id ν V M Unit)
      (Computable plan.program given (Asks plan) x) :=
  Ends.change fun _ hs =>
    ⟨hs.setValue hplan hstmt hconstant List.mem_cons_self hcomputable hloud v, hcomputable⟩

variable (hscores : plan.placed.a = true → ∀ content, (x, content) ∉ plan.islands.pairs)
  (hloud : x ∉ plan.gates.map Gate.sigmoid)

include hplan hsupplies hstmt in
/-- The mask select. -/
theorem roots_runIslandB (hvetted : Vetted plan given busy) (hop : stmt.op = .select) :
    Roots plan kernels given busy (runIslandB kernels (direct device) ensure x stmt)
      (Computable plan.program given (Asks plan) x) := by
  unfold runIslandB
  split
  · rename_i a c b harrays
    refine Ends.bind (roots_tensor (hsupplies busy a (Or.inl hvetted))) fun fill => .of_fact fun ha => ?_
    refine Ends.bind (roots_tensor (hsupplies busy c (Or.inl hvetted))) fun cond => .of_fact fun hc => ?_
    refine Ends.bind (roots_tensor (hsupplies busy b (Or.inl hvetted))) fun matrix_bd => .of_fact fun hb => ?_
    have hcomputable : Computable plan.program given (Asks plan) x := by
      refine Resolved.computable_own hstmt (fun _ => hplan.not_paired hstmt (by rw [hop]; decide)) ?_
      rw [harrays, hplan.arities.arrays x stmt hstmt (Or.inr (Or.inr hop))]
      simp [ha, hc, hb]
    split_ifs
    · refine Ends.call_bind (fun results => ?_) fun _ _ _ _ => trivial
      exact roots_store hplan hstmt (by rw [hop]; decide) hcomputable
        (hplan.not_sigmoid hstmt (by rw [hop]; decide)) _
    · exact Ends.raise fun _ _ => trivial
  · exact Ends.raise fun _ _ => trivial

include hplan hprompt hsupplies hstmt in
/-- The output matmul. -/
theorem roots_runIslandC (hvetted : Vetted plan given busy) (hop : stmt.op = .matmul)
    (halone : ∀ y, (x, y) ∉ plan.islands.pairs ∧ (y, x) ∉ plan.islands.pairs) :
    Roots plan kernels given busy (runIslandC kernels (direct device) ensure x stmt)
      (Computable plan.program given (Asks plan) x) := by
  refine Ends.orRaise_bind (fun arguments harguments => ?_) fun _ _ => trivial
  obtain ⟨⟨a, b⟩, tx, ty⟩ := arguments
  obtain ⟨harrays, hhosts⟩ := matmulArguments_eq_some harguments
  refine Ends.bind (roots_requireFlags hplan hprompt hsupplies x _) fun _ => .of_fact fun hflags => ?_
  refine Ends.bind (roots_tensor (hsupplies busy a (Or.inl hvetted))) fun probs => .of_fact fun ha => ?_
  refine Ends.bind (roots_tensor (hsupplies busy b (Or.inl hvetted))) fun v_heads => .of_fact fun hb => ?_
  refine Ends.call_bind (fun results => ?_) fun _ _ _ _ => trivial
  refine roots_store hplan hstmt (by rw [hop]; decide) ?_ (hplan.not_sigmoid hstmt (by rw [hop]; decide)) _
  refine Resolved.computable_own hstmt (fun _ => halone) ?_
  rw [harrays, hhosts]
  simp [ha, hb, hflags (tx, false) (by simp), hflags (ty, false) (by simp)]

include hplan hprompt hsupplies hstmt in
/-- Both matmuls of a layer: the arguments of the scores are available, and then those of the content are executed. -/
theorem roots_runIslandA {content : ℕ} {contentStmt : Statement ν} (hvetted : Vetted plan given busy)
    (hpair : (x, content) ∈ plan.islands.pairs) (hcontent : plan.program[content]? = some contentStmt) :
    Ends (fun s => Rooted plan kernels given (fun y => busy y ∨ y = x) s ∧ Supplied plan stmt s)
      (runIslandA kernels (direct device) ensure x content stmt contentStmt)
      (fun _ s => Rooted plan kernels given (fun y => busy y ∨ y = x) s ∧
        Computable plan.program given (Asks plan) x) fun _ _ => True := by
  have hplaces := indexIslands_eq_some hplan.islands
  have hop := hplaces.scores_op hpair hstmt
  have hopc := hplaces.content_op hpair hcontent
  refine Ends.orRaise_bind (fun arguments harguments => ?_) fun _ _ => trivial
  obtain ⟨⟨a, b⟩, ta, tb⟩ := arguments
  obtain ⟨harrays, hhosts⟩ := matmulArguments_eq_some harguments
  refine Ends.orRaise_bind (fun argumentsc hargumentsc => ?_) fun _ _ => trivial
  obtain ⟨⟨c, d⟩, tc, td⟩ := argumentsc
  obtain ⟨harraysc, hhostsc⟩ := matmulArguments_eq_some hargumentsc
  have hkeeps : ∀ name, Keeps (Supplied plan stmt) (ensure name) := keeps_supplied hprompt
  refine Ends.bind ((roots_requireFlags hplan hprompt hsupplies x _).beside (keeps_requireFlags hkeeps x _))
    fun _ => .of_fact fun hflags => ?_
  refine Ends.bind ((roots_requireFlags hplan hprompt hsupplies content _).beside (keeps_requireFlags hkeeps content _))
    fun _ => .of_fact fun hflagsc => ?_
  refine Ends.bind (roots_own hprompt (by simp [harrays])) fun q_v => .of_fact fun ha => ?_
  refine Ends.bind (roots_own hprompt (by simp [harrays])) fun pos_kT => .of_fact fun hb => ?_
  have hown : ∀ name ∈ stmt.arrays ++ stmt.hosts, Resolved plan given name := by
    rw [harrays, hhosts]
    simp [ha, hb, hflags (ta, false) (by simp), hflags (tb, false) (by simp)]
  have hvetted' : Vetted plan given fun y => busy y ∨ y = x := by
    rintro hplaced scores content' scoresStmt hisland (hbusy | rfl) hscores
    · exact hvetted hplaced scores content' scoresStmt hisland hbusy hscores
    · obtain rfl := Option.mem_unique hstmt hscores
      exact hown
  refine Ends.bind ((roots_tensor (hsupplies _ c (Or.inl hvetted'))).conseq (fun _ hs => hs.1) fun _ _ hs => hs)
    fun q_scaled => .of_fact fun hc => ?_
  refine Ends.bind (roots_tensor (hsupplies _ d (Or.inl hvetted'))) fun k_heads => .of_fact fun hd => ?_
  have hshared : ∀ name ∈ contentStmt.arrays ++ contentStmt.hosts, Resolved plan given name := by
    rw [harraysc, hhostsc]
    simp [hc, hd, hflagsc (tc, false) (by simp), hflagsc (td, true) (by simp)]
  have hfirst := hplan.computable_scores hpair hstmt hcontent hown hshared
  have hsecond := hplan.computable_content hpair hcontent hshared hfirst
  refine Ends.call_bind (fun results => Ends.change fun s hs => ⟨?_, hfirst⟩) fun _ _ _ _ => trivial
  have hstored := hs.setValue hplan hstmt (by rw [hop]; decide) List.mem_cons_self hfirst
    (hplan.not_sigmoid hstmt (by rw [hop]; decide)) (results 0)
  have hboth := hstored.setValue hplan hcontent (by rw [hopc]; decide) List.mem_cons_self hsecond
    (hplan.not_sigmoid hcontent (by rw [hopc]; decide)) (results 1)
  exact hboth.pass hplan hcontent (by rw [hopc]; decide) hsecond

include hplan hsupplies hstmt in
/-- The fused gate reads what the product and the sigmoid take. -/
theorem roots_runGate (hvetted : Vetted plan given busy) {gate : Gate ν} (hgate : gate ∈ plan.gates)
    (hmul : gate.mul = x) :
    Roots plan kernels given busy (runGate kernels (direct device) ensure x stmt gate)
      (Computable plan.program given (Asks plan) x) := by
  obtain ⟨sigmoid, product, hp⟩ := hplan.arities.gatePlaces (hplan.gates gate hgate)
  have hproduct := hp.productAt
  rw [hmul] at hproduct
  obtain rfl := Option.mem_unique hstmt hproduct
  refine Ends.bind (roots_tensor (hsupplies busy gate.a (Or.inl hvetted))) fun a => .of_fact fun ha => ?_
  refine Ends.bind (roots_tensor (hsupplies busy gate.b (Or.inl hvetted))) fun b => .of_fact fun hb => ?_
  have hsigmoid : Computable plan.program given (Asks plan) gate.sigmoid := by
    refine Resolved.computable_own hp.sigmoidAt
      (fun _ => hplan.not_paired hp.sigmoidAt (by rw [hp.isSigmoid]; decide)) ?_
    rw [hp.argument, (hplan.arities.activation _ _ hp.sigmoidAt (Or.inr hp.isSigmoid)).2]
    simp [hb]
  have hcomputable : Computable plan.program given (Asks plan) x := by
    refine Resolved.computable_own hstmt (fun _ => hplan.not_paired hstmt (by rw [hp.isProduct]; decide))
      fun name hname => ?_
    rw [hplan.arities.arrays x stmt hstmt (Or.inr (Or.inl hp.isProduct)), List.append_nil] at hname
    by_cases heq : name = sigmoid.name
    · have hproducer := hplan.producer_name hp.sigmoidAt
      rw [heq]
      refine ⟨fun y hy => ?_, fun hnone => ?_⟩
      · obtain rfl := Option.mem_unique hproducer hy
        exact hsigmoid
      · rw [hproducer] at hnone
        cases hnone
    · have hmem : name ∈ stmt.arrays.filter fun other => decide (other ≠ sigmoid.name) :=
        List.mem_filter.mpr ⟨hname, decide_eq_true heq⟩
      rw [hp.factors, List.mem_singleton] at hmem
      rw [hmem]
      exact ha
  refine Ends.orRaise_bind (fun v _ => ?_) fun _ _ => trivial
  exact roots_store hplan hstmt (by rw [hp.isProduct]; decide) hcomputable
    (hplan.not_sigmoid hstmt (by rw [hp.isProduct]; decide)) _

variable (hfinish : (∀ name ∈ stmt.arrays ++ stmt.hosts, Resolved plan given name) →
  Computable plan.program given (Asks plan) x)

include hplan hprompt hsupplies hstmt hfinish in
/-- A split. -/
theorem roots_runSplit (hvetted : Vetted plan given busy) (hop : stmt.op = .split) :
    Roots plan kernels given busy (runSplit kernels (direct device) ensure x stmt)
      (Computable plan.program given (Asks plan) x) := by
  refine Ends.bind (roots_collect_scalar hplan hprompt hsupplies stmt.hosts) fun xs => .of_fact fun hhosts => ?_
  split
  · rename_i input harrays
    refine Ends.bind (roots_tensor (hsupplies busy input (Or.inl hvetted))) fun v => .of_fact fun hinput => ?_
    have hcomputable : Computable plan.program given (Asks plan) x := by
      refine hfinish fun name hname => ?_
      rw [harrays, List.mem_append, List.mem_singleton] at hname
      rcases hname with rfl | hname
      · exact hinput
      · exact hhosts name hname
    refine Ends.orRaise_bind (fun parts _ => ?_) fun _ _ => trivial
    split_ifs
    · refine Ends.change fun s hs => ⟨hs.setValues hplan hstmt (by rw [hop]; decide) hcomputable
        (hplan.not_sigmoid hstmt (by rw [hop]; decide)) fun pair hpair => ?_, hcomputable⟩
      exact (List.of_mem_zip (show (pair.1, pair.2) ∈ _ from hpair)).1
    · exact Ends.raise fun _ _ => trivial
  · exact Ends.raise fun _ _ => trivial

include hplan hprompt hsupplies hstmt hconstant hloud hfinish in
/-- An operation; a linear publishes the result of its silu, too. -/
theorem roots_runApply (hvetted : Vetted plan given busy) :
    Roots plan kernels given busy (runApply plan kernels (direct device) ensure x stmt)
      (Computable plan.program given (Asks plan) x) := by
  refine Ends.bind (roots_collect_tensor hsupplies hvetted stmt.arrays) fun vs => .of_fact fun harrays => ?_
  refine Ends.bind (roots_collect_scalar hplan hprompt hsupplies stmt.hosts) fun xs => .of_fact fun hhosts => ?_
  have hcomputable : Computable plan.program given (Asks plan) x :=
    hfinish fun name hname => (List.mem_append.mp hname).elim (harrays name) (hhosts name)
  split
  · refine Ends.orRaise_bind (fun v _ => ?_) fun _ _ => trivial
    exact roots_store hplan hstmt hconstant hcomputable hloud _
  · rename_i silu hfind
    have hpair := find_linearSilus.mp hfind
    obtain ⟨user, reader, hp⟩ := hplan.arities.siluPair hpair
    have happly : Roots plan kernels given busy (applyLinear kernels x silu vs xs : Pass Id ν V M V) True := by
      refine Ends.orRaise_bind (fun fused _ => ?_) fun _ _ => trivial
      split_ifs
      · exact Ends.orRaise (fun _ _ _ hs => ⟨hs, trivial⟩) fun _ _ _ => trivial
      · have hdiscard : Ends (Rooted plan kernels given busy) (change fun s => s.discard silu : Pass Id ν V M Unit)
            (fun _ s => Rooted plan kernels given busy s) fun _ _ => True :=
          Ends.change fun s hs => hs.discard hplan silu
        exact hdiscard.bind fun _ => Ends.orRaise (fun _ _ _ hs => ⟨hs, trivial⟩) fun _ _ _ => trivial
    refine Ends.bind happly fun v => .of_fact fun _ => ?_
    refine Ends.bind (roots_store hplan hstmt hconstant hcomputable hloud _) fun _ => .of_fact fun _ => ?_
    rw [hp.siluAt]
    have hsilu := hplan.computable_silu hpair hcomputable
    exact Ends.change fun s hs => ⟨hs.setValue hplan hp.siluAt (by rw [hp.isSilu]; decide) List.mem_cons_self hsilu
      (hplan.not_sigmoid hp.siluAt (by rw [hp.isSilu]; decide)) v, hcomputable⟩

include hplan hprompt hsupplies hstmt hconstant hfinish in
/-- What runs on the GPU, unless another statement computes it. -/
theorem roots_runGpu (hvetted : Vetted plan given busy) :
    Roots plan kernels given busy (runGpu plan kernels (direct device) ensure x stmt)
      (plan.Skipped x ∨ Computable plan.program given (Asks plan) x) := by
  refine Ends.reads_bind fun s hs => ?_
  have hstart : ∀ s', s' = s → Rooted plan kernels given busy s' := fun s' heq => heq ▸ hs
  rw [id_eq]
  split
  · rename_i hsigmoid
    exact Ends.pure fun s' heq => ⟨hstart s' heq, Or.inl (Or.inl hsigmoid.2)⟩
  rename_i hnot
  have hloud : x ∉ plan.gates.map Gate.sigmoid := by
    by_cases hop : stmt.op = .sigmoid
    · exact fun hmem => hnot ⟨hop, hmem⟩
    · exact hplan.not_sigmoid hstmt hop
  split
  · rename_i hsilu
    exact Ends.pure fun s' heq => ⟨hstart s' heq, Or.inl (Or.inr (hs.held.silus x hsilu.2))⟩
  split
  · rename_i gate hfind
    have hmul := List.find?_some hfind
    exact (roots_runGate hplan hsupplies hstmt hvetted (List.mem_of_find?_eq_some hfind)
      (of_decide_eq_true hmul)).conseq hstart fun _ _ hs => ⟨hs.1, Or.inr hs.2⟩
  split
  · rename_i hop
    exact (roots_runSplit hplan hprompt hsupplies hstmt hfinish hvetted hop).conseq hstart
      fun _ _ hs => ⟨hs.1, Or.inr hs.2⟩
  · exact (roots_runApply hplan hprompt hsupplies hstmt hconstant hloud hfinish hvetted).conseq hstart
      fun _ _ hs => ⟨hs.1, Or.inr hs.2⟩

include hplan hprompt hsupplies hstmt in
omit hfinish in
/-- The content of a placed island: when its scores are in progress, they have their arguments. -/
theorem roots_runContent (hvetted : Vetted plan given busy) (hplaced : plan.placed.a = true) {scores : ℕ}
    (hpair : (scores, x) ∈ plan.islands.pairs) :
    Roots plan kernels given (fun y => busy y ∨ y = x)
      (runContent plan kernels (direct device) ensure x scores stmt)
      (plan.Skipped x ∨ Computable plan.program given (Asks plan) x) := by
  have hplaces := indexIslands_eq_some hplan.islands
  have hop := hplaces.content_op hpair hstmt
  obtain ⟨scoresStmt, hscores, hops, -⟩ := hplaces.scores hpair
  have hproducer := hplan.producer_name hscores
  have hname := hplan.producer_name hstmt
  have hvetted' : Vetted plan given fun y => busy y ∨ y = x :=
    hvetted.begin fun _ content hisland => hplaces.scores_ne_content hisland hpair
  have hstored {s : Runner ν V M} (hs : Rooted plan kernels given (fun y => busy y ∨ y = x) s)
      (hvalue : (s.values stmt.name).isSome = true) : Computable plan.program given (Asks plan) x :=
    (hs.stored stmt.name x (by rw [Runner.has, hvalue, Bool.true_or]) hname).1
  refine Ends.reads_bind fun s hs => ?_
  rw [id_eq]
  split_ifs with hvalue
  · exact (roots_runGpu hplan hprompt hsupplies hstmt (by rw [hop]; decide) (fun _ => hstored hs hvalue)
      hvetted').conseq (fun s' heq => heq ▸ hs) fun _ _ h => h
  rw [hscores]
  dsimp only
  rintro s' rfl
  rcases hfirst : ensure scoresStmt.name s' with ⟨e | u, s₁⟩
  · rw [bind_of_error hfirst]
    trivial
  obtain ⟨hs₁, -⟩ := (hsupplies _ scoresStmt.name (Or.inl hvetted')).of_ok hs hfirst
  have hidle := hprompt.readies _ _ _ hfirst
  rw [bind_of_ok hfirst, Direct.reads_bind, id_eq]
  split_ifs with hvalue₁
  · exact ⟨hs₁, Or.inr (hstored hs₁ hvalue₁)⟩
  · refine roots_runGpu hplan hprompt hsupplies hstmt (by rw [hop]; decide) (fun hown => ?_) hvetted' s₁ hs₁
    refine hplan.computable_content hpair hstmt hown ?_
    rcases hidle with hhas | hdone
    · exact (hs₁.stored scoresStmt.name scores hhas hproducer).1
    rcases hs₁.ended scores (hdone scores hproducer) with (hbusy | rfl) | hskipped | hcomputable
    · exact hplan.computable_scores hpair hscores hstmt (hvetted hplaced scores x scoresStmt hpair hbusy hscores) hown
    · exact absurd hpair (hplaces.scores_ne_content hpair)
    · rcases hskipped with hsigmoid | ⟨linear, hsilu⟩
      · exact absurd hsigmoid (hplan.not_sigmoid hscores (by rw [hops]; decide))
      · exact absurd hsilu (hplan.not_silu hscores (by rw [hops]; decide) linear)
    · exact hcomputable

include hplan hprompt hsupplies hstmt hconstant in
omit hfinish in
/-- A statement that is no constant. -/
theorem roots_executeInner (hvetted : Vetted plan given busy) :
    Ends (fun s => Rooted plan kernels given (fun y => busy y ∨ y = x) s ∧ Supplied plan stmt s)
      (executeInner plan kernels (direct device) ensure x stmt)
      (fun _ s => Rooted plan kernels given (fun y => busy y ∨ y = x) s ∧
        (plan.Skipped x ∨ Computable plan.program given (Asks plan) x)) fun _ _ => True := by
  have hdispatch := hplan.dispatch kernels (direct device) ensure hstmt hconstant
  have hbegun (halone : plan.placed.a = true → ∀ y, (x, y) ∉ plan.islands.pairs ∧ (y, x) ∉ plan.islands.pairs) :
      Vetted plan given fun y => busy y ∨ y = x := hvetted.begin fun hplaced y => (halone hplaced y).1
  generalize executeInner plan kernels (direct device) ensure x stmt = run at hdispatch
  cases hdispatch with
  | islandA _ hpair hcontent =>
    exact (roots_runIslandA hplan hprompt hsupplies hstmt hvetted hpair hcontent).conseq (fun _ hs => hs)
      fun _ _ hs => ⟨hs.1, Or.inr hs.2⟩
  | islandB _ hop =>
    exact (roots_runIslandB hplan hsupplies hstmt (hbegun fun _ => hplan.not_paired hstmt (by rw [hop]; decide))
      hop).conseq (fun _ hs => hs.1) fun _ _ hs => ⟨hs.1, Or.inr hs.2⟩
  | islandC _ hop halone =>
    exact (roots_runIslandC hplan hprompt hsupplies hstmt (hbegun fun _ => halone) hop halone).conseq
      (fun _ hs => hs.1) fun _ _ hs => ⟨hs.1, Or.inr hs.2⟩
  | content hplaced hpair =>
    exact (roots_runContent hplan hprompt hsupplies hstmt hvetted hplaced hpair).conseq (fun _ hs => hs.1)
      fun _ _ hs => hs
  | gpu halone =>
    exact (roots_runGpu hplan hprompt hsupplies hstmt hconstant (Resolved.computable_own hstmt halone)
      (hbegun halone)).conseq (fun _ hs => hs.1) fun _ _ hs => hs

include hplan hprompt hsupplies hstmt in
omit hfinish in
/-- A vetted statement leaves only what is computable. -/
theorem roots_execute (hvetted : Vetted plan given busy ∨ stmt.op = .const) :
    Ends (fun s => Rooted plan kernels given busy s ∧ Supplied plan stmt s)
      (execute plan kernels (direct device) ensure x)
      (fun _ s => Rooted plan kernels given busy s ∧ True) fun _ _ => True := by
  rintro s ⟨hs, hsupplied⟩
  by_cases hdone : s.done x = true
  · rw [execute_of_done hdone]
    exact ⟨hs, trivial⟩
  rw [Bool.not_eq_true] at hdone
  by_cases hop : stmt.op = .const
  · obtain ⟨s', hexecuted, hrun⟩ := execute_constant kernels device ensure hstmt hop hdone
    rw [hrun]
    split_ifs
    · exact ⟨hs.constant hplan hstmt hop hdone hexecuted, trivial⟩
    · trivial
  · rw [execute_of_undone hstmt hdone]
    have hsupplied' : Supplied plan stmt (s.begin x) := fun name hname =>
      (lasting_idle kernels name).begin s x stmt hstmt hop (hsupplied name hname)
    exact (roots_executeInner hplan hprompt hsupplies hstmt hop (hvetted.resolve_right hop)).conseq (fun _ hs => hs)
      (fun _ _ hs => ⟨hs.1.finish hs.2, trivial⟩) _ ⟨hs.begin hplan hstmt hop, hsupplied'⟩

include hplan hprompt hsupplies in
omit hfinish in
/-- One level of demand supplies its names. -/
theorem supplies_ensureWith : Supplies plan kernels given (ensureWith plan kernels (direct device) ensure) := by
  rintro busy name hvetted s hs
  by_cases hhas : s.has name = true
  · rw [ensureWith_of_has hhas]
    exact ⟨hs, trivial⟩
  cases hproducer : producer plan.program name with
  | none =>
    rw [ensureWith_of_none hhas hproducer]
    trivial
  | some y =>
    by_cases hdone : s.done y = true
    · rw [ensureWith_of_done hhas hproducer hdone]
      exact ⟨hs, trivial⟩
    obtain ⟨stmt, hstmt, hname⟩ := producer_spec hproducer
    have hvetted' : Vetted plan given busy ∨ stmt.op = .const := by
      refine hvetted.imp_right fun hconstant => ?_
      obtain ⟨k, constant, hconstant, hop, rfl⟩ := hconstant
      obtain rfl := Option.mem_unique (hplan.producer_name hconstant) hproducer
      obtain rfl := Option.mem_unique hconstant hstmt
      exact hop
    rw [ensureWith_of_undone hhas hproducer hstmt hdone]
    have hoperand : ∀ other ∈ operands plan.program stmt, Ends (Rooted plan kernels given busy) (ensure other)
        (fun _ s => Rooted plan kernels given busy s ∧ Idle plan s other) fun _ _ => True := by
      intro other hother s hs
      rcases hvetted' with hvetted | hop
      · rcases hrun : ensure other s with ⟨e | u, s'⟩
        · trivial
        · exact ⟨((hsupplies busy other (Or.inl hvetted)).of_ok hs hrun).1, hprompt.readies other s s' hrun⟩
      · obtain ⟨harrays, hhosts⟩ := hplan.arities.constant y stmt hstmt hop
        have hmem := (mem_operands.mp hother).1
        rw [harrays, hhosts] at hmem
        cases hmem
    refine Ends.bind (Ends.each _ hoperand fun a b => hprompt.keeps _ (lasting_idle kernels a) b) (fun _ => ?_) s hs
    refine (roots_execute hplan hprompt hsupplies hstmt hvetted').conseq (fun s' hs' => ⟨hs'.1, fun other hother => ?_⟩)
      fun _ _ hs => hs
    cases hresult : producer plan.program other with
    | none =>
      refine Or.inr fun k hk => ?_
      rw [hresult] at hk
      cases hk
    | some k => exact hs'.2 other (mem_operands.mpr ⟨hother, k, hresult⟩)

omit hplan hprompt hsupplies hfinish in
variable (kernels device given) in
include hplan in
/-- However many nested calls are allowed. -/
theorem supplies_ensure (depth : ℕ) :
    Supplies plan kernels given (Encoder.ensure plan kernels (direct device) depth) := by
  induction depth with
  | zero =>
    exact supplies_ensureWith hplan (prompt_raise _) fun _ _ _ => Ends.raise fun _ _ => trivial
  | succ depth ih => exact supplies_ensureWith hplan (prompt_ensure kernels device hplan depth) ih

end Executing

section Looping

variable {given : List ν} {i : ℕ} {wanted : List ν} {stopAfter : ν}

/-- Names may be dropped. -/
theorem Rooted.release (h : Rooted plan kernels given busy s) (retired : ν → Bool) :
    Rooted plan kernels given busy (s.release retired) := by
  have hold {name : ν} (hhas : (s.release retired).has name = true) : s.has name = true := by
    rw [Runner.has, Bool.or_eq_true] at hhas ⊢
    refine hhas.imp_left fun hvalue => ?_
    change (if retired name = true then none else s.values name).isSome = true at hvalue
    split_ifs at hvalue
    · cases hvalue
    · exact hvalue
  exact ⟨h.held.release retired, h.ended, fun name y hhas => h.stored name y (hold hhas),
    fun name hhas => h.given name (hold hhas)⟩

variable (hplan : plan.Formed declared)

include hplan

/-- The loop ends at the name it stops after, with all statements up to it done and its value in the table. -/
theorem statementsFrom_rooted {rest : Program ν} (hrest : plan.program.drop i = rest) {keep kept : List (ν × V)}
    (h : Rooted plan kernels given (fun _ => False) s) (hdue : ∀ y < i, s.done y = true)
    (hopen : stopAfter ∉ keep.map Prod.fst)
    (hrun : statementsFrom plan kernels (direct device) wanted stopAfter i rest keep s = (.ok kept, s')) :
    stopAfter ∈ wanted ∧ ∃ r : Runner ν V M, Rooted plan kernels given (fun _ => False) r ∧
      (∀ y, plan.Within stopAfter y → r.done y = true) ∧ ∃ stop v, producer plan.program stopAfter = some stop ∧
        r.values stopAfter = some v := by
  induction rest generalizing i keep s with
  | nil => cases hrun
  | cons stmt rest ih =>
    obtain ⟨hstmt, hdrop⟩ := next_of_drop hrest
    obtain ⟨_, s₁, hfirst, hrun⟩ := bind_eq_ok.mp hrun
    rw [Direct.reads_bind, id_eq] at hrun
    obtain ⟨_, s₂, hrelease, hrun⟩ := bind_eq_ok.mp hrun
    obtain rfl := change_eq_ok hrelease
    have hprompt := prompt_ensure kernels device hplan plan.limit
    have hsupplied : Supplied plan stmt s := fun name hname =>
      Or.inr fun y hy => hdue y (hplan.single.producer_lt hstmt hname hy)
    have hnothing : Vetted plan given fun _ => False := fun _ _ _ _ _ hfalse => hfalse.elim
    obtain ⟨hnext, -⟩ := (roots_execute hplan hprompt (supplies_ensure kernels device given hplan plan.limit) hstmt
      (Or.inl hnothing)).of_ok ⟨h, hsupplied⟩ hfirst
    have hdone : ∀ y < i + 1, s₁.done y = true := by
      intro y hy
      rcases Nat.lt_succ_iff_lt_or_eq.mp hy with hlt | rfl
      · have hkeeps : Keeps (fun s : Runner ν V M => s.done y = true) (execute plan kernels (direct device)
            (Encoder.ensure plan kernels (direct device) plan.limit) i) :=
          keeps_execute (lasting_done y) hplan (hprompt.keeps _ (lasting_done y)) hstmt
        have hkept := hkeeps s (hdue y hlt)
        rwa [hfirst] at hkept
      · have hset := execute_done device s hplan hprompt hstmt
        rwa [hfirst] at hset
    by_cases hstop : stopAfter ∈ (keep ++ s₁.kept wanted stmt).map Prod.fst
    · rw [List.map_append, List.mem_append] at hstop
      obtain ⟨pair, hpair, rfl⟩ := List.mem_map.mp (hstop.resolve_left hopen)
      obtain ⟨hname, hwanted, hvalue⟩ := mem_kept hpair
      have hproducer := hplan.single.producer_eq hstmt hname
      refine ⟨hwanted, s₁, hnext, fun y hy => ?_, i, pair.2, hproducer, hvalue⟩
      obtain ⟨stop, hstop, hle⟩ := hy
      obtain rfl := Option.mem_unique hproducer hstop
      exact hdone y (by omega)
    · rw [if_neg hstop] at hrun
      exact ih hdrop (hnext.release _) hdone hstop hrun

/-- A call starts with what is given and with constants. -/
theorem Rooted.start {inputs : List (ν × V)} (hdeclared : ∀ pair ∈ inputs, pair.1 ∈ declared)
    (hheld : Held plan kernels s) (hfresh : Fresh plan s) :
    Rooted plan kernels (inputs.map Prod.fst) (fun _ => False) ((s.reset plan).setValues inputs) := by
  have hstart := hheld.start hplan hdeclared
  have hcached {name : ν} {v : V} (hv : (s.reset plan).values name = some v) : find s.constValues name = some v := by
    change (if s.warm plan = true then find s.constValues name else none) = some v at hv
    split_ifs at hv
    exact hv
  have hconstant {k : ℕ} {stmt : Statement ν} (hstmt : plan.program[k]? = some stmt) (hop : stmt.op = .const) :
      Computable plan.program (inputs.map Prod.fst) (Asks plan) k ∧ k ∉ plan.gates.map Gate.sigmoid :=
    ⟨hplan.computable_constant hstmt hop, hplan.not_sigmoid hstmt (by rw [hop]; decide)⟩
  have hhas {name : ν} (hhas : ((s.reset plan).setValues inputs).has name = true) :
      name ∈ inputs.map Prod.fst ∨ plan.IsConstant name := by
    by_cases hinput : name ∈ inputs.map Prod.fst
    · exact Or.inl hinput
    right
    rw [Runner.has, Bool.or_eq_true] at hhas
    rcases hhas with hvalue | hhost
    · obtain ⟨v, hv⟩ := Option.isSome_iff_exists.mp hvalue
      obtain ⟨k, stmt, hstmt, hop, hname, -⟩ :=
        hheld.cached name v (hcached ((writeAll_of_notMem hinput).symm.trans hv))
      exact ⟨k, stmt, hstmt, hop, hname⟩
    · obtain ⟨y, hy⟩ := Option.isSome_iff_exists.mp hhost
      obtain ⟨k, stmt, hstmt, hop, hname, -⟩ := hheld.hosts name y hy
      exact ⟨k, stmt, hstmt, hop, hname⟩
  refine ⟨hstart, fun y hy => Or.inr (Or.inr ?_), fun name y hname hy => ?_, fun name hname hnone => ?_⟩
  · have hdone : s.done y = true := by
      change (if s.warm plan = true then _ else _) = true at hy
      split_ifs at hy
      · exact ((Bool.and_eq_true _ _).mp hy).1
      · exact ((Bool.and_eq_true _ _).mp hy).2
    obtain ⟨stmt, hstmt, hop⟩ := hfresh.constants y hdone
    exact (hconstant hstmt hop).1
  · rcases hhas hname with hinput | ⟨k, stmt, hstmt, hop, rfl⟩
    · obtain ⟨stmt, hstmt, hresult⟩ := producer_spec hy
      exact absurd hinput (hplan.not_input hdeclared hstmt hresult)
    · obtain rfl := Option.mem_unique (hplan.producer_name hstmt) hy
      exact hconstant hstmt hop
  · rcases hhas hname with hinput | ⟨k, stmt, hstmt, hop, rfl⟩
    · exact hinput
    · rw [hplan.producer_name hstmt] at hnone
      cases hnone

/-- Of the statements that are done, those that another one computes are computable with it. -/
theorem Rooted.computable_within (h : Rooted plan kernels given (fun _ => False) s)
    (hdone : ∀ y, plan.Within stopAfter y → s.done y = true) (hx : plan.Within stopAfter x) :
    Computable plan.program given (Asks plan) x := by
  induction x using Nat.strongRecOn with
  | ind x ih =>
    have hbelow {y : ℕ} (hlt : y < x) : Computable plan.program given (Asks plan) y := by
      obtain ⟨stop, hstop, hle⟩ := hx
      exact ih y hlt ⟨stop, hstop, by omega⟩
    rcases h.ended x (hdone x hx) with hfalse | (hsigmoid | ⟨linear, hpair⟩) | hcomputable
    · exact hfalse.elim
    · obtain ⟨gate, hgate, rfl⟩ := List.mem_map.mp hsigmoid
      obtain ⟨sigmoid, product, hp⟩ := hplan.arities.gatePlaces (hplan.gates gate hgate)
      obtain ⟨place, split, hsplit, -, -, hproducer⟩ := hp.halves
      refine Resolved.computable_own hp.sigmoidAt
        (fun _ => hplan.not_paired hp.sigmoidAt (by rw [hp.isSigmoid]; decide)) fun name hname => ?_
      have hlt {y : ℕ} (hy : producer plan.program name = some y) : y < gate.sigmoid :=
        hplan.single.producer_lt hp.sigmoidAt hname hy
      rw [hp.argument, (hplan.arities.activation _ _ hp.sigmoidAt (Or.inr hp.isSigmoid)).2, List.append_nil,
        List.mem_singleton] at hname
      refine ⟨fun y hy => hbelow (hlt hy), fun hnone => ?_⟩
      rw [hname, hproducer] at hnone
      cases hnone
    · exact hplan.computable_silu hpair (hbelow (hplan.linear_lt hpair))
    · exact hcomputable

/-- A call that returns: every statement up to the one it stops after is computable from the inputs, and that one
stores an array that is wanted. -/
theorem run_computable {inputs kept : List (ν × V)} (hdeclared : ∀ pair ∈ inputs, pair.1 ∈ declared)
    (hheld : Held plan kernels s) (hfresh : Fresh plan s)
    (hrun : run plan kernels (direct device) inputs wanted stopAfter s = (.ok kept, s')) :
    (∀ y, plan.Within stopAfter y → Computable plan.program (inputs.map Prod.fst) (Asks plan) y) ∧
      stopAfter ∈ wanted ∧ ∃ stop, producer plan.program stopAfter = some stop ∧ stop ∉ plan.gates.map Gate.sigmoid ∧
        ∀ stmt, plan.program[stop]? = some stmt → stmt.op = .const → (kernels.literal stop).toArray.isSome = true := by
  obtain ⟨_, s₁, hstart, hrun⟩ := bind_eq_ok.mp hrun
  obtain rfl := change_eq_ok hstart
  obtain ⟨keep, s₂, hloop, hrun⟩ := bind_eq_ok.mp hrun
  rw [entries_direct] at hloop
  obtain ⟨hwanted, r, hr, hdone, stop, v, hproducer, hvalue⟩ := statementsFrom_rooted hplan rfl
    (Rooted.start hplan hdeclared hheld hfresh) (fun y hy => absurd hy (Nat.not_lt_zero y)) List.not_mem_nil hloop
  have hhas : r.has stopAfter = true := by rw [Runner.has, hvalue, Option.isSome_some, Bool.true_or]
  refine ⟨fun y hy => hr.computable_within hplan hdone hy, hwanted, stop, hproducer,
    (hr.stored stopAfter stop hhas hproducer).2, fun stmt hstmt hop => ?_⟩
  have hname := hplan.arities.eq_name hproducer hstmt (by rw [hop]; decide)
  rw [hr.held.values stop stmt v hstmt hop (hname ▸ hvalue), Option.isSome_some]

end Looping

end AneLinux.Encoder
