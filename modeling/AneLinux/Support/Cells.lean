import AneLinux.Support.Dispatch

/-!
# Checked memory

An array in memory is read and written inside its bounds or not at all. A phase is what the units of a dispatch, or
the lanes of a group between two barriers, do to one array: they run in any order, and the phase fails when one of them
goes outside an array. When each unit leaves every element that it writes at a target, the phase does.
-/

namespace AneLinux.Support

variable {α : Type*} {ι : Type}

/-- An array in memory. -/
structure Cells (α : Type*) where
  size : ℕ
  get : ℕ → α

namespace Cells

/-- A read, which fails outside the array. -/
def read (cells : Cells α) (i : ℕ) : Option α := if i < cells.size then some (cells.get i) else none

/-- Some writes, which fail when one is outside the array. -/
def write (cells : Cells α) (writes : List (ℕ × α)) : Option (Cells α) :=
  if ∀ write ∈ writes, write.1 < cells.size then some { cells with get := applyWrites cells.get writes } else none

theorem read_of_lt {cells : Cells α} {i : ℕ} (h : i < cells.size) : cells.read i = some (cells.get i) := if_pos h

end Cells

/-- The units of a phase run in any order; each gives its writes, or fails. -/
def Gpu.phase (gpu : Gpu α) (cells : Cells α) (units : List ι) (body : ι → Option (List (ℕ × α))) :
    Option (Cells α) := do
  let writes ← (gpu.order units).mapM body
  cells.write writes.flatten

/-- A dispatch over a new array. -/
def Gpu.launch (gpu : Gpu α) (size : ℕ) (units : List ι) (body : ι → Option (List (ℕ × α))) : Option (Cells α) :=
  gpu.phase ⟨size, gpu.blank⟩ units body

/-- Some writes leave every element that they write at its target. -/
def Settles (target : ℕ → α) (writes : List (ℕ × α)) : Prop :=
  ∀ (buffer : ℕ → α) (i : ℕ), i ∈ writes.map Prod.fst → applyWrites buffer writes i = target i

section Settles

variable {target : ℕ → α} {writes writes' : List (ℕ × α)}

theorem applyWrites_append (buffer : ℕ → α) (writes writes' : List (ℕ × α)) :
    applyWrites buffer (writes ++ writes') = applyWrites (applyWrites buffer writes) writes' := List.foldl_append

theorem applyWrites_of_notMem {buffer : ℕ → α} {i : ℕ} (h : i ∉ writes.map Prod.fst) :
    applyWrites buffer writes i = buffer i := by
  have hnone : writesAt writes i = [] := List.filter_eq_nil_iff.mpr fun write hwrite heq =>
    h (of_decide_eq_true heq ▸ List.mem_map_of_mem hwrite)
  rw [applyWrites_apply, hnone]
  rfl

theorem Settles.append (h : Settles target writes) (h' : Settles target writes') :
    Settles target (writes ++ writes') := by
  intro buffer i hi
  rw [applyWrites_append]
  by_cases hlast : i ∈ writes'.map Prod.fst
  · exact h' _ i hlast
  · rw [applyWrites_of_notMem hlast]
    rw [List.map_append, List.mem_append] at hi
    exact h _ i (hi.resolve_right hlast)

/-- Only the last writes count when they cover the places of those before. -/
theorem Settles.of_rewritten (hcovers : ∀ i ∈ writes.map Prod.fst, i ∈ writes'.map Prod.fst)
    (h : Settles target writes') : Settles target (writes ++ writes') := by
  intro buffer i hi
  rw [applyWrites_append]
  rw [List.map_append, List.mem_append] at hi
  exact h _ i (hi.elim (hcovers i) id)

theorem settles_nil : Settles target [] := fun _ _ hi => (List.not_mem_nil hi).elim

theorem settles_flatten {parts : List (List (ℕ × α))} (h : ∀ part ∈ parts, Settles target part) :
    Settles target parts.flatten := by
  induction parts with
  | nil => exact settles_nil
  | cons part parts ih =>
    obtain ⟨hpart, hparts⟩ := List.forall_mem_cons.mp h
    exact hpart.append (ih hparts)

/-- Writes of target values settle, in whatever order and however often. -/
theorem settles_of_forall (h : ∀ write ∈ writes, write.2 = target write.1) : Settles target writes := by
  induction writes with
  | nil => exact settles_nil
  | cons write writes ih =>
    obtain ⟨hwrite, hwrites⟩ := List.forall_mem_cons.mp h
    have hfirst : Settles target [write] := fun buffer i hi => by
      obtain rfl := List.mem_singleton.mp hi
      exact (Function.update_self ..).trans hwrite
    exact hfirst.append (ih hwrites)

end Settles

section Loops

variable {β γ : Type*} {l : List β}

theorem mapM_of_forall_some {body : β → Option γ} {f : β → γ} (h : ∀ b ∈ l, body b = some (f b)) :
    l.mapM body = some (l.map f) := by
  induction l with
  | nil => rfl
  | cons b l ih =>
    obtain ⟨hb, hl⟩ := List.forall_mem_cons.mp h
    rw [List.mapM_cons, hb, ih hl]
    rfl

theorem foldlM_of_forall_some {body : γ → β → Option γ} {f : γ → β → γ} {c : γ}
    (h : ∀ b ∈ l, ∀ c, body c b = some (f c b)) : l.foldlM body c = some (l.foldl f c) := by
  induction l generalizing c with
  | nil => rfl
  | cons b l ih =>
    obtain ⟨hb, hl⟩ := List.forall_mem_cons.mp h
    rw [List.foldlM_cons, hb c, List.foldl_cons]
    exact ih hl

/-- Several writes one after the other. -/
theorem Cells.foldlM_write {cells : Cells α} {writes : β → List (ℕ × α)}
    (h : ∀ b ∈ l, ∀ write ∈ writes b, write.1 < cells.size) :
    l.foldlM (fun cells b => cells.write (writes b)) cells =
      some { cells with get := applyWrites cells.get (l.flatMap writes) } := by
  induction l generalizing cells with
  | nil => rfl
  | cons b l ih =>
    obtain ⟨hb, hl⟩ := List.forall_mem_cons.mp h
    rw [List.foldlM_cons, Cells.write, if_pos hb, List.flatMap_cons, applyWrites_append]
    exact ih hl

end Loops

/-- A unit stays inside the arrays and settles the elements that it writes. -/
def Behaves (size : ℕ) (target : ℕ → α) (writes : Option (List (ℕ × α))) : Prop :=
  ∃ list, writes = some list ∧ (∀ write ∈ list, write.1 < size) ∧ Settles target list

/-- A unit writes an element. -/
def Touches (i : ℕ) (writes : Option (List (ℕ × α))) : Prop := ∃ list, writes = some list ∧ i ∈ list.map Prod.fst

/-- When every unit of a phase behaves, the phase goes through, and an element that one of them writes is at its
target. -/
theorem Gpu.phase_settles (gpu : Gpu α) {cells : Cells α} {units : List ι} {body : ι → Option (List (ℕ × α))}
    {target : ℕ → α} (hbody : ∀ u ∈ units, Behaves cells.size target (body u)) :
    ∃ out, gpu.phase cells units body = some out ∧ out.size = cells.size ∧
      ∀ i, (∃ u ∈ units, Touches i (body u)) → out.get i = target i := by
  have hmem (u : ι) : u ∈ gpu.order units ↔ u ∈ units := (gpu.perm units).mem_iff
  have hwrites : ∀ u ∈ units, body u = some ((body u).getD []) := by
    intro u hu
    obtain ⟨list, hlist, -⟩ := hbody u hu
    rw [hlist]
    rfl
  have hinside : ∀ u ∈ units, (∀ write ∈ (body u).getD [], write.1 < cells.size) ∧
      Settles target ((body u).getD []) := by
    intro u hu
    obtain ⟨list, hlist, hin, hsettles⟩ := hbody u hu
    rw [hlist]
    exact ⟨hin, hsettles⟩
  have hruns := mapM_of_forall_some fun u hu => hwrites u ((hmem u).mp hu)
  refine ⟨{ cells with get := applyWrites cells.get ((gpu.order units).map fun u => (body u).getD []).flatten },
    ?_, rfl, fun i hi => ?_⟩
  · rw [Gpu.phase, hruns]
    refine if_pos fun write hwrite => ?_
    obtain ⟨part, hpart, hwrite⟩ := List.mem_flatten.mp hwrite
    obtain ⟨u, hu, rfl⟩ := List.mem_map.mp hpart
    exact (hinside u ((hmem u).mp hu)).1 write hwrite
  · refine settles_flatten (fun part hpart => ?_) cells.get i ?_
    · obtain ⟨u, hu, rfl⟩ := List.mem_map.mp hpart
      exact (hinside u ((hmem u).mp hu)).2
    · obtain ⟨u, hu, list, hlist, hi⟩ := hi
      rw [List.map_flatten]
      refine List.mem_flatten.mpr ⟨_, List.mem_map_of_mem (List.mem_map_of_mem ((hmem u).mpr hu)), ?_⟩
      rwa [hlist]

/-- A dispatch of one thread an element. -/
theorem Gpu.launch_map (gpu : Gpu α) {n : ℕ} {body : ℕ → Option (List (ℕ × α))} {f : ℕ → α}
    (hbody : ∀ i < n, body i = some [(i, f i)]) :
    ∃ out, gpu.launch n (List.range n) body = some out ∧ out.size = n ∧ ∀ i < n, out.get i = f i := by
  obtain ⟨out, hout, hsize, hget⟩ : ∃ out, gpu.launch n (List.range n) body = some out ∧ out.size = n ∧
      ∀ i, (∃ u ∈ List.range n, Touches i (body u)) → out.get i = f i := by
    refine gpu.phase_settles fun i hi => ⟨_, hbody i (List.mem_range.mp hi), fun write hwrite => ?_,
      settles_of_forall fun write hwrite => by rw [List.mem_singleton.mp hwrite]⟩
    rw [List.mem_singleton.mp hwrite]
    exact List.mem_range.mp hi
  exact ⟨out, hout, hsize, fun i hi =>
    hget i ⟨i, List.mem_range.mpr hi, _, hbody i hi, List.mem_singleton.mpr rfl⟩⟩

end AneLinux.Support
