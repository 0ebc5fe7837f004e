import AneLinux.Encoder.TwinStep
import AneLinux.Support.Grounded

/-!
# What a call that returns has computed

Executing a statement asks for names, and each name leads to the statement that produces it. A call that returns has
found all it asked for: the statements up to the one it stops after can be computed from the inputs, one after the
other, and no statement among those they lead to needs itself.

The scores of a placed island ask for the arguments of their content, and the content for the scores. While the content
is executed inside its scores, the arguments of the scores are there already, so the content is computable all the same.
-/

namespace AneLinux.Encoder

open AneLinux.Support Attempt Direct

section Asking

variable {ν : Type} [DecidableEq ν]

/-- The names that executing a statement asks for: its arguments; with the first island placed, the scores ask for the
arguments of their content, too, and the content for the scores. -/
inductive Asks (plan : Plan ν) : ℕ → ν → Prop
  | own {x : ℕ} {stmt : Statement ν} {name : ν} : plan.program[x]? = some stmt →
    name ∈ stmt.arrays ++ stmt.hosts → Asks plan x name
  | shared {scores content : ℕ} {stmt : Statement ν} {name : ν} : plan.placed.a = true →
    (scores, content) ∈ plan.islands.pairs → plan.program[content]? = some stmt →
    name ∈ stmt.arrays ++ stmt.hosts → Asks plan scores name
  | scores {scores content : ℕ} {stmt : Statement ν} : plan.placed.a = true →
    (scores, content) ∈ plan.islands.pairs → plan.program[scores]? = some stmt → Asks plan content stmt.name

/-- A statement draws on another that produces a name it asks for. -/
def Draws (program : Program ν) (asks : ℕ → ν → Prop) (x y : ℕ) : Prop :=
  ∃ name, asks x name ∧ producer program name = some y

/-- The inputs that a statement asks for are given. -/
def Provided (program : Program ν) (given : List ν) (asks : ℕ → ν → Prop) (x : ℕ) : Prop :=
  ∀ name, asks x name → producer program name = none → name ∈ given

/-- A statement that can be computed from what is given. -/
abbrev Computable (program : Program ν) (given : List ν) (asks : ℕ → ν → Prop) : ℕ → Prop :=
  Grounded (Draws program asks) (Provided program given asks)

/-- A name that is given, or whose statement can be computed. -/
structure Resolved (plan : Plan ν) (given : List ν) (name : ν) : Prop where
  produced : ∀ y, producer plan.program name = some y → Computable plan.program given (Asks plan) y
  provided : producer plan.program name = none → name ∈ given

variable {plan : Plan ν} {given : List ν} {x : ℕ} {stmt : Statement ν}

/-- A statement is computable when all it asks for is resolved. -/
theorem Resolved.computable (h : ∀ name, Asks plan x name → Resolved plan given name) :
    Computable plan.program given (Asks plan) x :=
  .intro (fun name hask => (h name hask).provided) fun y hdraws => by
    obtain ⟨name, hask, hproducer⟩ := hdraws
    exact (h name hask).produced y hproducer

/-- Outside the placed islands of the first kind, a statement asks for its arguments alone. -/
theorem Resolved.computable_own (hstmt : plan.program[x]? = some stmt)
    (halone : plan.placed.a = true → ∀ y, (x, y) ∉ plan.islands.pairs ∧ (y, x) ∉ plan.islands.pairs)
    (hown : ∀ name ∈ stmt.arrays ++ stmt.hosts, Resolved plan given name) :
    Computable plan.program given (Asks plan) x := by
  refine Resolved.computable fun name hask => ?_
  cases hask with
  | own hother hname =>
    obtain rfl := Option.mem_unique hstmt hother
    exact hown name hname
  | shared hplaced hpair => exact absurd hpair (halone hplaced _).1
  | scores hplaced hpair => exact absurd hpair (halone hplaced _).2

variable {declared : List ν} (hplan : plan.Formed declared)

include hplan

/-- The scores of a placed island ask for the arguments of both matmuls. -/
theorem Plan.Formed.computable_scores {content : ℕ} {contentStmt : Statement ν}
    (hpair : (x, content) ∈ plan.islands.pairs) (hstmt : plan.program[x]? = some stmt)
    (hcontent : plan.program[content]? = some contentStmt)
    (hown : ∀ name ∈ stmt.arrays ++ stmt.hosts, Resolved plan given name)
    (hshared : ∀ name ∈ contentStmt.arrays ++ contentStmt.hosts, Resolved plan given name) :
    Computable plan.program given (Asks plan) x := by
  have hplaces := indexIslands_eq_some hplan.islands
  refine Resolved.computable fun name hask => ?_
  cases hask with
  | own hother hname =>
    obtain rfl := Option.mem_unique hstmt hother
    exact hown name hname
  | shared _ hother hplace hname =>
    obtain rfl := Option.mem_unique (hplaces.find_scores.mpr hpair) (hplaces.find_scores.mpr hother)
    obtain rfl := Option.mem_unique hcontent hplace
    exact hshared name hname
  | scores _ hother => exact absurd hother (hplaces.scores_ne_content hpair)

/-- The content of a placed island asks for its arguments and the scores. -/
theorem Plan.Formed.computable_content {scores : ℕ} (hpair : (scores, x) ∈ plan.islands.pairs)
    (hstmt : plan.program[x]? = some stmt) (hown : ∀ name ∈ stmt.arrays ++ stmt.hosts, Resolved plan given name)
    (hscores : Computable plan.program given (Asks plan) scores) :
    Computable plan.program given (Asks plan) x := by
  have hplaces := indexIslands_eq_some hplan.islands
  refine Resolved.computable fun name hask => ?_
  cases hask with
  | own hother hname =>
    obtain rfl := Option.mem_unique hstmt hother
    exact hown name hname
  | shared _ hother => exact absurd hpair (hplaces.scores_ne_content hother)
  | scores _ hother hplace =>
    obtain rfl := Option.mem_unique (hplaces.find_content.mpr hpair) (hplaces.find_content.mpr hother)
    have hproducer := hplan.producer_name hplace
    refine ⟨fun y hy => ?_, fun hnone => ?_⟩
    · obtain rfl := Option.mem_unique hproducer hy
      exact hscores
    · rw [hproducer] at hnone
      cases hnone

/-- A constant is computable. -/
theorem Plan.Formed.computable_constant (hstmt : plan.program[x]? = some stmt) (hop : stmt.op = .const) :
    Computable plan.program given (Asks plan) x := by
  refine Resolved.computable_own hstmt (fun _ => hplan.not_paired hstmt (by rw [hop]; decide)) fun name hname => ?_
  obtain ⟨harrays, hhosts⟩ := hplan.arities.constant x stmt hstmt hop
  rw [harrays, hhosts] at hname
  cases hname

/-- A silu is computable with its linear. -/
theorem Plan.Formed.computable_silu {linear : ℕ} (hpair : (linear, x) ∈ plan.silus)
    (hlinear : Computable plan.program given (Asks plan) linear) : Computable plan.program given (Asks plan) x := by
  obtain ⟨user, reader, hp⟩ := hplan.arities.siluPair hpair
  refine Resolved.computable_own hp.siluAt (fun _ => hplan.not_paired hp.siluAt (by rw [hp.isSilu]; decide))
    fun name hname => ?_
  rw [hp.arrays, hp.hosts, List.append_nil, List.mem_singleton] at hname
  subst hname
  have hproducer := hplan.producer_name hp.linearAt
  refine ⟨fun y hy => ?_, fun hnone => ?_⟩
  · obtain rfl := Option.mem_unique hproducer hy
    exact hlinear
  · rw [hproducer] at hnone
    cases hnone

end Asking

end AneLinux.Encoder
