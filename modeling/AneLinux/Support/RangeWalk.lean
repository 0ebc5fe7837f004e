import Mathlib.Data.List.Chain
import Mathlib.Data.List.Sort

/-!
# Range queries over sorted blocks

A leaf is scanned from the left: entries below the lower bound are skipped and the scan stops at the
first entry above the upper bound. The children of a node are walked in the same way. A child is
skipped when the separator of the next one is at or below the lower bound, and the walk stops at the
first separator above the upper bound. On sorted blocks both give the entries between the bounds.
-/

namespace AneLinux.Support

variable {K α β ε : Type*} [LinearOrder K]

/-- The key is below the lower bound, if there is one. -/
def Below (lo : Option K) (k : K) : Prop := ∃ bound ∈ lo, k < bound

/-- The key is above the upper bound, if there is one. -/
def Above (hi : Option K) (k : K) : Prop := ∃ bound ∈ hi, bound < k

/-- The key is between the bounds, both included. -/
def Between (lo hi : Option K) (k : K) : Prop := ¬Below lo k ∧ ¬Above hi k

theorem not_below_none (k : K) : ¬Below none k := by
  rintro ⟨bound, hbound, -⟩
  cases hbound

theorem not_above_none (k : K) : ¬Above none k := by
  rintro ⟨bound, hbound, -⟩
  cases hbound

variable {bound k : K} {hi : Option K} {key : α → K}

theorem below_some : Below (some bound) k ↔ k < bound := by simp [Below]

theorem above_some : Above (some bound) k ↔ bound < k := by simp [Above]

instance (lo : Option K) (k : K) : Decidable (Below lo k) :=
  match lo with
  | none => isFalse (not_below_none k)
  | some _ => decidable_of_iff' _ below_some

instance (hi : Option K) (k : K) : Decidable (Above hi k) :=
  match hi with
  | none => isFalse (not_above_none k)
  | some _ => decidable_of_iff' _ above_some

instance (lo hi : Option K) (k : K) : Decidable (Between lo hi k) := inferInstanceAs (Decidable (_ ∧ _))

theorem between_none (k : K) : Between none none k := ⟨not_below_none k, not_above_none k⟩

theorem Above.mono {k' : K} (h : Above hi k) (hle : k ≤ k') : Above hi k' := by
  obtain ⟨bound, hbound, hlt⟩ := h
  exact ⟨bound, hbound, hlt.trans_le hle⟩

/-- Scan the entries of a leaf. -/
def scanLeaf (key : α → K) (lo hi : Option K) : List α → List α
  | [] => []
  | entry :: rest =>
    if Below lo (key entry) then scanLeaf key lo hi rest
    else if Above hi (key entry) then []
    else entry :: scanLeaf key lo hi rest

/-- Nothing after an entry above the bound is between the bounds. -/
theorem filter_eq_nil_of_above {lo : Option K} {entries : List α} (h : ∀ entry ∈ entries, Above hi (key entry)) :
    entries.filter (fun entry => Between lo hi (key entry)) = [] := by
  rw [List.filter_eq_nil_iff]
  intro entry hentry hbetween
  exact (of_decide_eq_true hbetween).2 (h entry hentry)

theorem scanLeaf_eq_filter (lo hi : Option K) {entries : List α} (hsorted : entries.Pairwise fun a b => key a ≤ key b) :
    scanLeaf key lo hi entries = entries.filter fun entry => Between lo hi (key entry) := by
  induction entries with
  | nil => rfl
  | cons entry rest ih =>
    rw [List.pairwise_cons] at hsorted
    rw [scanLeaf, List.filter_cons]
    by_cases hbelow : Below lo (key entry)
    · rw [if_pos hbelow, if_neg fun h => (of_decide_eq_true h).1 hbelow, ih hsorted.2]
    · rw [if_neg hbelow]
      by_cases habove : Above hi (key entry)
      · rw [if_pos habove, if_neg fun h => (of_decide_eq_true h).2 habove,
          filter_eq_nil_of_above fun other hother => habove.mono (hsorted.1 other hother)]
      · rw [if_neg habove, if_pos (decide_eq_true ⟨hbelow, habove⟩), ih hsorted.2]

/-- The separator of the next child is at or below the lower bound. -/
def SkipsTo (lo : Option K) (rest : List (K × β)) : Prop := ∃ bound ∈ lo, ∃ next ∈ rest.head?, next.1 ≤ bound

theorem skipsTo_some_cons {next : K × β} {rest : List (K × β)} :
    SkipsTo (some bound) (next :: rest) ↔ next.1 ≤ bound := by simp [SkipsTo]

instance (lo : Option K) (rest : List (K × β)) : Decidable (SkipsTo lo rest) :=
  match lo, rest with
  | none, _ => isFalse (by simp [SkipsTo])
  | some _, [] => isFalse (by simp [SkipsTo])
  | some _, _ :: _ => decidable_of_iff' _ skipsTo_some_cons

/-- Walk the children of a node. -/
def walkChildren (visit : β → Except ε (List α)) (lo hi : Option K) : List (K × β) → Except ε (List α)
  | [] => .ok []
  | child :: rest =>
    if Above hi child.1 then .ok []
    else if SkipsTo lo rest then walkChildren visit lo hi rest
    else do
      let entries ← visit child.2
      let others ← walkChildren visit lo hi rest
      return entries ++ others

/-- The separators are sorted and each child keeps to its own part of the keys. -/
structure SeparatesChildren (key : α → K) (contents : β → List α) (children : List (K × β)) : Prop where
  sorted : children.Pairwise fun a b => a.1 ≤ b.1
  lower : ∀ child ∈ children, ∀ entry ∈ contents child.2, child.1 ≤ key entry
  upper : children.IsChain fun child next => ∀ entry ∈ contents child.2, key entry < next.1

section Children

variable {contents : β → List α} {child : K × β} {rest : List (K × β)}

theorem SeparatesChildren.tail (h : SeparatesChildren key contents (child :: rest)) :
    SeparatesChildren key contents rest :=
  ⟨(List.pairwise_cons.mp h.sorted).2, fun other hother => h.lower other (List.mem_cons_of_mem _ hother),
    h.upper.tail⟩

/-- Behind a separator above the bound every entry is above it. -/
theorem SeparatesChildren.above (h : SeparatesChildren key contents (child :: rest)) (habove : Above hi child.1) :
    ∀ entry ∈ (child :: rest).flatMap fun child => contents child.2, Above hi (key entry) := by
  intro entry hentry
  obtain ⟨other, hother, hentry⟩ := List.mem_flatMap.mp hentry
  have hlower := h.lower other hother entry hentry
  rcases List.mem_cons.mp hother with rfl | hother
  · exact habove.mono hlower
  · exact habove.mono (((List.pairwise_cons.mp h.sorted).1 other hother).trans hlower)

/-- A child before a separator at or below the bound has only entries below it. -/
theorem SeparatesChildren.below (h : SeparatesChildren key contents (child :: rest)) {lo : Option K}
    (hskips : SkipsTo lo rest) : ∀ entry ∈ contents child.2, Below lo (key entry) := by
  intro entry hentry
  obtain ⟨bound, hbound, next, hnext, hle⟩ := hskips
  have hupper := h.upper
  cases rest with
  | nil => cases hnext
  | cons other rest =>
    obtain rfl := Option.some.inj hnext
    rw [List.isChain_cons_cons] at hupper
    exact ⟨bound, hbound, (hupper.1 entry hentry).trans_le hle⟩

end Children

/-- The walk of separated children whose visits filter their contents filters the whole contents. -/
theorem walkChildren_eq_filter {contents : β → List α} {visit : β → Except ε (List α)} (lo hi : Option K)
    {children : List (K × β)} (h : SeparatesChildren key contents children)
    (hvisit : ∀ child ∈ children, visit child.2 = .ok
      ((contents child.2).filter fun entry => Between lo hi (key entry))) :
    walkChildren visit lo hi children =
      .ok ((children.flatMap fun child => contents child.2).filter fun entry => Between lo hi (key entry)) := by
  induction children with
  | nil => rfl
  | cons child rest ih =>
    rw [walkChildren]
    by_cases habove : Above hi child.1
    · rw [if_pos habove, filter_eq_nil_of_above (h.above habove)]
    · have hrest := ih h.tail fun other hother => hvisit other (List.mem_cons_of_mem _ hother)
      rw [if_neg habove, List.flatMap_cons, List.filter_append, hrest]
      by_cases hskips : SkipsTo lo rest
      · have hnone : (contents child.2).filter (fun entry => Between lo hi (key entry)) = [] := by
          rw [List.filter_eq_nil_iff]
          intro entry hentry hbetween
          exact (of_decide_eq_true hbetween).1 (h.below hskips entry hentry)
        rw [if_pos hskips, hnone, List.nil_append]
      · rw [if_neg hskips, hvisit child List.mem_cons_self]
        rfl

end AneLinux.Support
