import Mathlib.Algebra.BigOperators.Group.List.Lemmas

/-!
# Broadcasting

An array is a shape and its elements in row-major order. Two shapes broadcast together when, counted from the last
axis, their extents agree or one of them is 1. An element of the result is computed from the elements of the operands
whose coordinates are its own, where an extent of 1 has the coordinate 0 and the leading axes that an operand does not
have are left out.
-/

namespace AneLinux.Support.Broadcast

/-! ## Coordinates

The lists of this section have the last axis first. -/

/-- The coordinates of an element. -/
def unravel : List ℕ → ℕ → List ℕ
  | [], _ => []
  | d :: ds, i => i % d :: unravel ds (i / d)

/-- The place of the element at some coordinates. -/
def ravel : List ℕ → List ℕ → ℕ
  | d :: ds, c :: cs => c + d * ravel ds cs
  | _, _ => 0

/-- The coordinates in an operand. -/
def align (ds cs : List ℕ) : List ℕ := List.zipWith (fun d c => if d = 1 then 0 else c) ds cs

def broadcastAxes : List ℕ → List ℕ → Option (List ℕ)
  | [], es => some es
  | ds, [] => some ds
  | d :: ds, e :: es =>
    if d = e ∨ e = 1 then (broadcastAxes ds es).map (d :: ·)
    else if d = 1 then (broadcastAxes ds es).map (e :: ·)
    else none

variable {ds es cs shape lead : List ℕ} {i : ℕ}

/-- An index in its own shape is itself. -/
theorem ravel_align_unravel (hi : i < ds.prod) : ravel ds (align ds (unravel ds i)) = i := by
  induction ds generalizing i with
  | nil =>
    rw [List.prod_nil] at hi
    exact (Nat.lt_one_iff.mp hi).symm
  | cons d ds ih =>
    rw [List.prod_cons] at hi
    have hrest : i / d < ds.prod := Nat.div_lt_of_lt_mul hi
    rw [unravel, align, List.zipWith_cons_cons, ravel, ← align, ih hrest]
    split
    · next hone => rw [hone, Nat.div_one, one_mul, zero_add]
    · exact Nat.mod_add_div i d

theorem align_unravel_append : align ds (unravel (ds ++ es) i) = align ds (unravel ds i) := by
  induction ds generalizing i with
  | nil => simp [align]
  | cons d ds ih =>
    have hrest := ih (i := i / d)
    rw [align, align] at hrest
    rw [List.cons_append, unravel, unravel, align, align, List.zipWith_cons_cons, List.zipWith_cons_cons, hrest]

theorem ravel_align_of_ones (h : ∀ d ∈ ds, d = 1) : ravel ds (align ds cs) = 0 := by
  induction ds generalizing cs with
  | nil => rfl
  | cons d ds ih =>
    obtain ⟨rfl, hones⟩ := List.forall_mem_cons.mp h
    match cs with
    | [] => rfl
    | c :: cs =>
      have hrest : ravel ds (align ds cs) = 0 := ih hones
      rw [align] at hrest
      rw [align, List.zipWith_cons_cons, if_pos rfl, ravel, hrest]

theorem broadcastAxes_self (ds : List ℕ) : broadcastAxes ds ds = some ds := by
  induction ds with
  | nil => rfl
  | cons d ds ih => rw [broadcastAxes, if_pos (Or.inl rfl), ih, Option.map_some]

theorem broadcastAxes_ones (h : ∀ e ∈ es, e = 1) :
    broadcastAxes ds es = some (ds ++ List.replicate (es.length - ds.length) 1) := by
  induction ds generalizing es with
  | nil => rw [broadcastAxes, List.nil_append, List.length_nil, Nat.sub_zero, List.eq_replicate_of_mem h,
      List.length_replicate]
  | cons d ds ih =>
    match es with
    | [] => simp [broadcastAxes]
    | e :: es =>
      obtain ⟨rfl, hones⟩ := List.forall_mem_cons.mp h
      rw [broadcastAxes, if_pos (Or.inr rfl), ih hones, Option.map_some, List.cons_append, List.length_cons,
        List.length_cons, Nat.add_sub_add_right]

/-! ## Shapes -/

/-- The shape of two operands together, `none` when they do not broadcast. -/
def broadcastShapes (shape other : List ℕ) : Option (List ℕ) :=
  (broadcastAxes shape.reverse other.reverse).map List.reverse

/-- The element of an operand of some shape that an element of the result is computed from. -/
def sourceIndex (shape out : List ℕ) (i : ℕ) : ℕ :=
  ravel shape.reverse (align shape.reverse (unravel out.reverse i))

theorem broadcastShapes_self (shape : List ℕ) : broadcastShapes shape shape = some shape := by
  rw [broadcastShapes, broadcastAxes_self, Option.map_some, List.reverse_reverse]

theorem eq_one_of_prod_eq_one (h : es.prod = 1) : ∀ e ∈ es, e = 1 := fun _ he =>
  Nat.dvd_one.mp (h ▸ List.dvd_prod he)

/-- A single element adds the axes that it has more. -/
theorem broadcastShapes_single (h : es.prod = 1) :
    broadcastShapes shape es = some (List.replicate (es.length - shape.length) 1 ++ shape) := by
  have hones : ∀ e ∈ es.reverse, e = 1 := fun e he => eq_one_of_prod_eq_one h e (List.mem_reverse.mp he)
  rw [broadcastShapes, broadcastAxes_ones hones, Option.map_some, List.reverse_append, List.reverse_replicate,
    List.reverse_reverse, List.length_reverse, List.length_reverse]

/-- A single element is read everywhere. -/
theorem sourceIndex_single (h : es.prod = 1) : sourceIndex es shape i = 0 :=
  ravel_align_of_ones fun e he => eq_one_of_prod_eq_one h e (List.mem_reverse.mp he)

/-- Leading axes repeat the source. -/
theorem sourceIndex_append (hi : i < shape.prod) : sourceIndex shape (lead ++ shape) i = i := by
  rw [sourceIndex, List.reverse_append, align_unravel_append, ravel_align_unravel]
  rwa [List.prod_reverse]

theorem sourceIndex_self (hi : i < shape.prod) : sourceIndex shape shape i = i := by
  have h : sourceIndex shape ([] ++ shape) i = i := sourceIndex_append hi
  exact h

end AneLinux.Support.Broadcast
