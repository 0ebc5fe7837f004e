import Mathlib.Algebra.Order.BigOperators.Group.List
import Mathlib.Data.List.Count
import Mathlib.Tactic.Ring

/-!
# Runs of a machine

A machine takes the acts of a list one after another and stops at the first one that is not enabled. What
one step keeps, a run keeps. When every step is, for a map of the states, either silent or an event that a
specification allows, the events of a run are ones the specification accepts. When the machine's own acts
use up a rank and the others add at most their cost to it, a run has no more own acts than rank and costs.
-/

namespace AneLinux.Support

variable {σ α ε ρ : Type*} (step : σ → α → Option σ)

/-- The state a run ends in. -/
def runEnd (s : σ) : List α → σ
  | [] => s
  | act :: rest =>
    match step s act with
    | none => s
    | some after => runEnd after rest

/-- The acts a run takes. -/
def taken (s : σ) : List α → List α
  | [] => []
  | act :: rest =>
    match step s act with
    | none => []
    | some after => act :: taken after rest

/-- What an observer sees of a run. -/
def observed (observe : σ → α → σ → Option ε) (s : σ) : List α → List ε
  | [] => []
  | act :: rest =>
    match step s act with
    | none => []
    | some after => (observe s act after).toList ++ observed observe after rest

/-- What a specification makes of a list of events: `none` when it does not allow one of them. -/
def accepts (handle : ρ → ε → Option ρ) (r : ρ) : List ε → Option ρ
  | [] => some r
  | event :: rest => (handle r event).bind fun after => accepts handle after rest

variable {step} {P : σ → Prop} {s : σ}

/-- What every step keeps holds where a run ends. -/
theorem runEnd_kept (hkept : ∀ s act s', P s → step s act = some s' → P s') (h : P s) (acts : List α) :
    P (runEnd step s acts) := by
  induction acts generalizing s with
  | nil => exact h
  | cons act rest ih =>
    rw [runEnd]
    cases hnext : step s act with
    | none => exact h
    | some after => exact ih (hkept s act after h hnext)

theorem accepts_append (handle : ρ → ε → Option ρ) (r : ρ) (events more : List ε) :
    accepts handle r (events ++ more) = (accepts handle r events).bind fun after => accepts handle after more := by
  induction events generalizing r with
  | nil => rfl
  | cons event rest ih =>
    rw [List.cons_append, accepts, accepts]
    cases handle r event with
    | none => rfl
    | some after => exact ih after

/-- A map of the states under which every step is silent or an allowed event takes runs to accepted events. -/
theorem accepts_observed {observe : σ → α → σ → Option ε} {handle : ρ → ε → Option ρ} (abstract : σ → ρ)
    (hkept : ∀ s act s', P s → step s act = some s' → P s')
    (hstep : ∀ s act s', P s → step s act = some s' →
      accepts handle (abstract s) (observe s act s').toList = some (abstract s'))
    (h : P s) (acts : List α) :
    accepts handle (abstract s) (observed step observe s acts) = some (abstract (runEnd step s acts)) := by
  induction acts generalizing s with
  | nil => rfl
  | cons act rest ih =>
    rw [observed, runEnd]
    cases hnext : step s act with
    | none => rfl
    | some after =>
      change accepts handle (abstract s) ((observe s act after).toList ++ observed step observe after rest) = _
      rw [accepts_append, hstep s act after h hnext]
      exact ih (hkept s act after h hnext)

/-- A run takes no more own acts than it has rank, and cost that the other acts add. -/
theorem countP_taken_le {own : α → Bool} {cost : α → ℕ} (rank : σ → ℕ)
    (hkept : ∀ s act s', P s → step s act = some s' → P s')
    (hstep : ∀ s act s', P s → step s act = some s' → rank s' + (if own act then 1 else 0) ≤ rank s + cost act)
    (h : P s) (acts : List α) :
    (taken step s acts).countP own + rank (runEnd step s acts) ≤ rank s + ((taken step s acts).map cost).sum := by
  induction acts generalizing s with
  | nil => exact le_of_eq (by rw [taken, runEnd]; simp)
  | cons act rest ih =>
    rw [taken, runEnd]
    cases hnext : step s act with
    | none => simp
    | some after =>
      have hfirst := hstep s act after h hnext
      have hrest := ih (hkept s act after h hnext)
      simp only [List.countP_cons, List.map_cons, List.sum_cons]
      omega

/-- When an own act is enabled short of the goal, own acts lead there, in as many steps as there is rank. -/
theorem exists_run_to {own : α → Bool} {goal : σ → Prop} (rank : σ → ℕ)
    (hkept : ∀ s act s', P s → step s act = some s' → P s')
    (hrank : ∀ s act s', P s → step s act = some s' → own act = true → rank s' < rank s)
    (hprogress : ∀ s, P s → ¬ goal s → ∃ act, own act = true ∧ (step s act).isSome = true) (h : P s) :
    ∃ more, (∀ act ∈ more, own act = true) ∧ more.length ≤ rank s ∧ goal (runEnd step s more) := by
  induction hn : rank s using Nat.strongRecOn generalizing s with
  | ind n ih =>
    by_cases hgoal : goal s
    · exact ⟨[], nofun, Nat.zero_le n, hgoal⟩
    · obtain ⟨act, hown, henabled⟩ := hprogress s h hgoal
      obtain ⟨after, hnext⟩ := Option.isSome_iff_exists.mp henabled
      have hlt := hrank s act after h hnext hown
      obtain ⟨more, hmore, hlength, hreached⟩ := ih (rank after) (hn ▸ hlt) (hkept s act after h hnext) rfl
      refine ⟨act :: more, List.forall_mem_cons.mpr ⟨hown, hmore⟩, ?_, ?_⟩
      · rw [List.length_cons]
        omega
      · rw [runEnd, hnext]
        exact hreached

/-- What a specification can no longer do after one event it does not do later on. -/
theorem not_mem_of_accepts (handle : ρ → ε → Option ρ) {Q : ρ → Prop} {event : ε} {r r' : ρ}
    (hkept : ∀ r e r', Q r → handle r e = some r' → Q r') (hnever : ∀ r, Q r → handle r event = none)
    (h : Q r) {events : List ε} (haccepts : accepts handle r events = some r') : event ∉ events := by
  induction events generalizing r with
  | nil => exact List.not_mem_nil
  | cons first rest ih =>
    obtain ⟨after, hfirst, hrest⟩ := Option.bind_eq_some_iff.mp haccepts
    have hne : event ≠ first := by
      rintro rfl
      rw [hnever r h] at hfirst
      cases hfirst
    exact List.not_mem_cons_of_ne_of_not_mem hne (ih (hkept r first after h hfirst) hrest)

/-- Along accepted events a level of the specification's state rises and falls with their counts. -/
theorem accepts_balance {handle : ρ → ε → Option ρ} {up down : ε → Bool} (level : ρ → ℕ)
    (hstep : ∀ r e r', handle r e = some r' →
      level r' + (if down e then 1 else 0) = level r + (if up e then 1 else 0)) {r r' : ρ} {events : List ε}
    (haccepts : accepts handle r events = some r') :
    level r' + events.countP down = level r + events.countP up := by
  induction events generalizing r with
  | nil =>
    cases haccepts
    rfl
  | cons first rest ih =>
    obtain ⟨after, hfirst, hrest⟩ := Option.bind_eq_some_iff.mp haccepts
    have hone := hstep r first after hfirst
    have hmore := ih hrest
    simp only [List.countP_cons]
    omega

end AneLinux.Support
