import Mathlib.Logic.Relation
import Mathlib.Tactic.Basic

/-!
# What can be had from the ground up

Elements draw on others. An element is grounded when it is fine and all it draws on is grounded: a finite order of
getting one after the other leads to it. No cycle goes through a grounded element.
-/

namespace AneLinux.Support

/-- The least set that has an element with all it draws on, if the element is fine. -/
inductive Grounded {α : Type} (draws : α → α → Prop) (fine : α → Prop) : α → Prop
  | intro {x : α} : fine x → (∀ y, draws x y → Grounded draws fine y) → Grounded draws fine x

namespace Grounded

variable {α : Type} {draws : α → α → Prop} {fine : α → Prop} {x y : α}

theorem isFine (h : Grounded draws fine x) : fine x := by
  cases h with
  | intro hfine _ => exact hfine

theorem of_draws (h : Grounded draws fine x) (hxy : draws x y) : Grounded draws fine y := by
  cases h with
  | intro _ hbelow => exact hbelow y hxy

/-- No cycle goes through a grounded element. -/
theorem acyclic (h : Grounded draws fine x) : ¬ Relation.TransGen draws x x := by
  induction h with
  | intro _ _ ih =>
    intro hcycle
    obtain ⟨y, hxy, hback⟩ := Relation.TransGen.head'_iff.mp hcycle
    exact ih y hxy (Relation.TransGen.tail' hback hxy)

end Grounded

end AneLinux.Support
