import Mathlib.Data.List.ProdSigma
import Mathlib.Data.List.Range

/-!
# Dispatches

The units of a dispatch, threads or whole groups of threads, run in any order. Each writes elements of one output
buffer, and of several writes to an element the last one stays. An element that one unit alone writes does not depend
on the order or on what the buffer held before.
-/

namespace AneLinux.Support

variable {ι : Type} {α : Type*} {units : List ι} {body : ι → List (ℕ × α)} {i : ℕ} {u : ι} {v : α}

/-- A buffer after some writes. -/
def applyWrites (buffer : ℕ → α) (writes : List (ℕ × α)) : ℕ → α :=
  writes.foldl (fun b write => Function.update b write.1 write.2) buffer

/-- The writes to one element. -/
def writesAt (writes : List (ℕ × α)) (i : ℕ) : List (ℕ × α) := writes.filter fun write => write.1 = i

/-- A machine that runs dispatches: the order in which it takes the units, and what a new buffer holds. -/
structure Gpu (α : Type*) where
  order : {ι : Type} → List ι → List ι
  perm : ∀ {ι : Type} (units : List ι), (order units).Perm units
  blank : ℕ → α

/-- All writes of a dispatch, as they happen. -/
def Gpu.writes (gpu : Gpu α) (units : List ι) (body : ι → List (ℕ × α)) : List (ℕ × α) :=
  (gpu.order units).flatMap body

/-- The output of a dispatch. -/
def Gpu.run (gpu : Gpu α) (units : List ι) (body : ι → List (ℕ × α)) : ℕ → α :=
  applyWrites gpu.blank (gpu.writes units body)

theorem writesAt_singleton (j : ℕ) (v : α) : writesAt [(j, v)] i = if j = i then [(j, v)] else [] := by
  rw [writesAt]
  by_cases hj : j = i <;> simp [hj]

theorem applyWrites_apply (buffer : ℕ → α) (writes : List (ℕ × α)) (i : ℕ) :
    applyWrites buffer writes i = ((writesAt writes i).getLast?.map Prod.snd).getD (buffer i) := by
  induction writes generalizing buffer with
  | nil => rfl
  | cons write writes ih =>
    rw [applyWrites, List.foldl_cons, ← applyWrites, ih, writesAt, writesAt, List.filter_cons]
    by_cases hwrite : write.1 = i
    · rw [if_pos (decide_eq_true hwrite), List.getLast?_cons, ← hwrite, Function.update_self]
      cases (writes.filter fun w => decide (w.1 = write.1)).getLast? <;> rfl
    · rw [if_neg (by simpa using hwrite), Function.update_of_ne (Ne.symm hwrite)]

theorem writesAt_flatMap_eq_nil (h : ∀ u ∈ units, writesAt (body u) i = []) :
    writesAt (units.flatMap body) i = [] := by
  rw [writesAt, List.filter_flatMap]
  exact List.flatMap_eq_nil_iff.mpr h

/-- An element is written by its owner only. -/
theorem writesAt_flatMap (hnodup : units.Nodup) (hu : u ∈ units)
    (howner : ∀ u' ∈ units, u' ≠ u → writesAt (body u') i = []) :
    writesAt (units.flatMap body) i = writesAt (body u) i := by
  obtain ⟨before, after, rfl⟩ := List.append_of_mem hu
  have hbefore : ∀ u' ∈ before, writesAt (body u') i = [] := fun u' hu' =>
    howner u' (List.mem_append_left _ hu') ((List.nodup_append.mp hnodup).2.2 u' hu' u List.mem_cons_self)
  have hafter : ∀ u' ∈ after, writesAt (body u') i = [] := fun u' hu' =>
    howner u' (List.mem_append_right _ (List.mem_cons_of_mem _ hu')) fun heq =>
      (List.nodup_cons.mp (List.nodup_append.mp hnodup).2.1).1 (heq ▸ hu')
  have hnilBefore := writesAt_flatMap_eq_nil hbefore
  have hnilAfter := writesAt_flatMap_eq_nil hafter
  rw [writesAt] at hnilBefore hnilAfter
  rw [writesAt, List.flatMap_append, List.flatMap_cons, List.filter_append, List.filter_append, hnilBefore, hnilAfter,
    List.nil_append, List.append_nil, writesAt]

/-- The same for a dispatch, whatever the order of its units. -/
theorem Gpu.writesAt_writes (gpu : Gpu α) (hnodup : units.Nodup) (hu : u ∈ units)
    (howner : ∀ u' ∈ units, u' ≠ u → writesAt (body u') i = []) :
    writesAt (gpu.writes units body) i = writesAt (body u) i := by
  have hperm := gpu.perm units
  exact writesAt_flatMap (hperm.nodup_iff.mpr hnodup) (hperm.mem_iff.mpr hu) fun u' hu' =>
    howner u' (hperm.mem_iff.mp hu')

/-- Two units that write an element write it twice. -/
theorem Gpu.two_le_writesAt (gpu : Gpu α) {u' : ι} (hu : u ∈ units) (hu' : u' ∈ units) (hne : u' ≠ u)
    (hwrites : writesAt (body u) i ≠ []) (hwrites' : writesAt (body u') i ≠ []) :
    2 ≤ (writesAt (gpu.writes units body) i).length := by
  classical
  have hperm : (gpu.order units).Perm (u :: u' :: (units.erase u).erase u') :=
    (gpu.perm units).trans ((List.perm_cons_erase hu).trans
      ((List.perm_cons_erase ((List.mem_erase_of_ne hne).mpr hu')).cons u))
  have hlength := ((hperm.flatMap_right body).filter fun write => write.1 = i).length_eq
  have hpos := List.length_pos_iff.mpr hwrites
  have hpos' := List.length_pos_iff.mpr hwrites'
  rw [writesAt] at hpos hpos'
  rw [List.flatMap_cons, List.flatMap_cons, List.filter_append, List.filter_append, List.length_append,
    List.length_append] at hlength
  rw [writesAt, Gpu.writes, hlength]
  omega

/-- An element is the last value that its owner writes. -/
theorem Gpu.run_apply (gpu : Gpu α) (hnodup : units.Nodup) (hu : u ∈ units)
    (howner : ∀ u' ∈ units, u' ≠ u → writesAt (body u') i = [])
    (hlast : (writesAt (body u) i).getLast? = some (i, v)) : gpu.run units body i = v := by
  rw [Gpu.run, applyWrites_apply, gpu.writesAt_writes hnodup hu howner, hlast]
  rfl

end AneLinux.Support
