import Mathlib.Data.List.Basic
import Mathlib.Logic.Relation

/-!
# Visited sets and worklist closure

Two loop shapes over a finite graph. A pointer chase stops at the first node it has already
visited; the count of unvisited nodes below a bound is its variant. A worklist pops a node,
adds the unvisited targets of its edges and goes on until nothing is pending; it computes
the nodes reachable from its start, whatever the order of the list.
-/

namespace AneLinux.Support

/-- How many elements of `nodes` are not in `seen`. -/
def unvisitedIn {α : Type*} [DecidableEq α] (nodes seen : List α) : ℕ :=
  nodes.countP fun x => decide (x ∉ seen)

/-- How many numbers below `bound` are not in `seen`. -/
def unvisited (bound : ℕ) (seen : List ℕ) : ℕ := unvisitedIn (List.range bound) seen

section Counting

variable {α : Type*} [DecidableEq α]

theorem unvisitedIn_le (nodes : List α) {seen more : List α} (h : ∀ x ∈ seen, x ∈ more) :
    unvisitedIn nodes more ≤ unvisitedIn nodes seen := by
  apply List.countP_mono_left
  intro x _ hx
  simp only [decide_eq_true_eq] at hx ⊢
  exact fun hseen => hx (h x hseen)

/-- Visiting a new node of the universe leaves fewer unvisited nodes. -/
theorem unvisitedIn_cons_lt {nodes seen : List α} {x : α} (hx : x ∈ nodes) (hnew : x ∉ seen) :
    unvisitedIn nodes (x :: seen) < unvisitedIn nodes seen := by
  induction nodes with
  | nil => cases hx
  | cons node rest ih =>
    have hrest := unvisitedIn_le rest fun y (hy : y ∈ seen) => List.mem_cons_of_mem x hy
    unfold unvisitedIn at *
    rw [List.countP_cons, List.countP_cons]
    by_cases hnode : node = x
    · subst hnode
      have hseen : decide (node ∉ node :: seen) = false := by simp
      have hfresh : decide (node ∉ seen) = true := by simpa using hnew
      rw [hseen, hfresh]
      simp only [Bool.false_eq_true, if_false, if_true]
      omega
    · have hmem : x ∈ rest := (List.mem_cons.mp hx).resolve_left fun h => hnode h.symm
      have hlt := ih hmem
      have hsame : decide (node ∉ x :: seen) = decide (node ∉ seen) := by
        simp [hnode]
      rw [hsame]
      omega

end Counting

/-- A chase that visits a new node below the bound makes progress. -/
theorem unvisited_cons_lt {bound x : ℕ} {seen : List ℕ} (hx : x < bound) (hnew : x ∉ seen) :
    unvisited bound (x :: seen) < unvisited bound seen :=
  unvisitedIn_cons_lt (List.mem_range.mpr hx) hnew

section Worklist

variable {α : Type*} [DecidableEq α]

/-- The targets of a node, in the order the edges were listed. -/
def targets (edges : List (α × α)) (x : α) : List α :=
  (edges.filter fun edge => edge.1 = x).map Prod.snd

/-- Add each new target to the found nodes and to the pending ones. -/
def expand : List α → List α × List α → List α × List α
  | [], state => state
  | y :: rest, (found, pending) =>
    if y ∈ found then expand rest (found, pending) else expand rest (y :: found, y :: pending)

theorem mem_targets {edges : List (α × α)} {x y : α} : y ∈ targets edges x ↔ (x, y) ∈ edges := by
  simp [targets]

/-- Expansion trades unvisited nodes for pending ones. -/
theorem expand_measure (nodes ys found pending : List α)
    (h : ∀ y ∈ ys, y ∈ nodes) :
    unvisitedIn nodes (expand ys (found, pending)).1 + (expand ys (found, pending)).2.length ≤
      unvisitedIn nodes found + pending.length := by
  induction ys generalizing found pending with
  | nil => exact Nat.le_refl _
  | cons y rest ih =>
    have hrest : ∀ z ∈ rest, z ∈ nodes := fun z hz => h z (List.mem_cons_of_mem y hz)
    rw [expand]
    split_ifs with hy
    · exact ih found pending hrest
    · have hlt := unvisitedIn_cons_lt (h y List.mem_cons_self) hy
      have := ih (y :: found) (y :: pending) hrest
      rw [List.length_cons] at this
      omega

/-- Pop pending nodes and add their unvisited targets until none is left. -/
def closure (edges : List (α × α)) (found : List α) (pending : List α) : List α :=
  match pending with
  | [] => found
  | x :: rest =>
    let state := expand (targets edges x) (found, rest)
    closure edges state.1 state.2
termination_by unvisitedIn (edges.map Prod.snd) found + pending.length
decreasing_by
  have h := expand_measure (edges.map Prod.snd) (targets edges x) found rest
    fun y hy => List.mem_map_of_mem (mem_targets.mp hy)
  simp only [List.length_cons]
  omega

/-- The nodes found and pending after an expansion. -/
theorem mem_expand (ys found pending : List α) (z : α) :
    (z ∈ (expand ys (found, pending)).1 ↔ z ∈ found ∨ z ∈ ys) ∧
      (z ∈ (expand ys (found, pending)).2 ↔ z ∈ pending ∨ z ∈ ys ∧ z ∉ found) := by
  induction ys generalizing found pending with
  | nil => simp [expand]
  | cons y rest ih =>
    rw [expand]
    split_ifs with hy
    · obtain ⟨hfound, hpending⟩ := ih found pending
      rw [hfound, hpending]
      constructor
      · constructor
        · exact fun h => h.imp id (List.mem_cons_of_mem y)
        · rintro (h | h)
          · exact Or.inl h
          · rcases List.mem_cons.mp h with rfl | h
            · exact Or.inl hy
            · exact Or.inr h
      · constructor
        · exact fun h => h.imp id fun h => ⟨List.mem_cons_of_mem y h.1, h.2⟩
        · rintro (h | ⟨h, hnot⟩)
          · exact Or.inl h
          · rcases List.mem_cons.mp h with rfl | h
            · exact absurd hy hnot
            · exact Or.inr ⟨h, hnot⟩
    · obtain ⟨hfound, hpending⟩ := ih (y :: found) (y :: pending)
      rw [hfound, hpending]
      by_cases hz : z = y
      · subst hz
        simp [hy]
      · simp [hz]

/-- The worklist result contains what was found, is closed under edges from every node that
was not pending, and adds only reachable nodes. -/
theorem closure_spec (edges : List (α × α)) (found pending : List α)
    (hpending : ∀ x ∈ pending, x ∈ found)
    (hclosed : ∀ x ∈ found, x ∉ pending → ∀ y, (x, y) ∈ edges → y ∈ found) :
    (∀ x ∈ found, x ∈ closure edges found pending) ∧
      (∀ x ∈ closure edges found pending, ∀ y, (x, y) ∈ edges → y ∈ closure edges found pending) ∧
      ∀ x ∈ closure edges found pending,
        ∃ t ∈ found, Relation.ReflTransGen (fun a b => (a, b) ∈ edges) t x := by
  fun_induction closure edges found pending with
  | case1 found =>
    exact ⟨fun x hx => hx, fun x hx y hy => hclosed x hx (by simp) y hy,
      fun x hx => ⟨x, hx, Relation.ReflTransGen.refl⟩⟩
  | case2 found x rest state ih =>
    have hfound (z : α) : z ∈ state.1 ↔ z ∈ found ∨ z ∈ targets edges x :=
      (mem_expand (targets edges x) found rest z).1
    have hnext (z : α) : z ∈ state.2 ↔ z ∈ rest ∨ z ∈ targets edges x ∧ z ∉ found :=
      (mem_expand (targets edges x) found rest z).2
    have hsub : ∀ z ∈ state.2, z ∈ state.1 := by
      intro z hz
      rcases (hnext z).mp hz with hz | hz
      · exact (hfound z).mpr (Or.inl (hpending z (List.mem_cons_of_mem x hz)))
      · exact (hfound z).mpr (Or.inr hz.1)
    have hstate : ∀ z ∈ state.1, z ∉ state.2 → ∀ y, (z, y) ∈ edges → y ∈ state.1 := by
      intro z hz hnot y hy
      rw [hnext, not_or, not_and_not_right] at hnot
      by_cases hzx : z = x
      · subst hzx
        exact (hfound y).mpr (Or.inr (mem_targets.mpr hy))
      · have hzfound : z ∈ found := ((hfound z).mp hz).elim id hnot.2
        refine (hfound y).mpr (Or.inl (hclosed z hzfound ?_ y hy))
        exact fun hmem => (List.mem_cons.mp hmem).elim hzx hnot.1
    obtain ⟨hkeep, hclosed', hreach⟩ := ih hsub hstate
    refine ⟨fun z hz => hkeep z ((hfound z).mpr (Or.inl hz)), hclosed', fun z hz => ?_⟩
    obtain ⟨t, ht, hpath⟩ := hreach z hz
    rcases (hfound t).mp ht with ht | ht
    · exact ⟨t, ht, hpath⟩
    · exact ⟨x, hpending x List.mem_cons_self,
        Relation.ReflTransGen.head (mem_targets.mp ht) hpath⟩

theorem expand_nodup (ys found pending : List α) (hfound : found.Nodup) :
    (expand ys (found, pending)).1.Nodup := by
  induction ys generalizing found pending with
  | nil => exact hfound
  | cons y rest ih =>
    rw [expand]
    split_ifs with hy
    · exact ih found pending hfound
    · exact ih (y :: found) (y :: pending) (List.nodup_cons.mpr ⟨hy, hfound⟩)

/-- The worklist finds no node twice. -/
theorem closure_nodup (edges : List (α × α)) (found pending : List α) (hfound : found.Nodup) :
    (closure edges found pending).Nodup := by
  fun_induction closure edges found pending with
  | case1 found => exact hfound
  | case2 found x rest state ih => exact ih (expand_nodup (targets edges x) found rest hfound)

/-- Started with every found node pending, the worklist computes reachability. -/
theorem mem_closure_iff (edges : List (α × α)) (found : List α) (x : α) :
    x ∈ closure edges found found ↔
      ∃ t ∈ found, Relation.ReflTransGen (fun a b => (a, b) ∈ edges) t x := by
  obtain ⟨hkeep, hclosed, hreach⟩ := closure_spec edges found found (fun _ h => h)
    fun z hz hnot => absurd hz hnot
  refine ⟨hreach x, ?_⟩
  rintro ⟨t, ht, hpath⟩
  induction hpath with
  | refl => exact hkeep t ht
  | tail _ hedge ih => exact hclosed _ ih _ hedge

end Worklist

end AneLinux.Support
