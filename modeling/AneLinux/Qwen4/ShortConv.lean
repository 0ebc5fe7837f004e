import AneLinux.Qwen.ConvRing
import Mathlib.Algebra.BigOperators.Fin

/-!
# The dilated short convolution

`PLELayer._short_conv` puts the rows kept of the calls before in front of the new ones, keeps the last of
them for the next call, pads with zeros on the left and convolves as many rows as the kernel reads. After a
short call fewer rows are kept than the kernel reads; the padding stands in for rows that were never there.
`runShortConv_eq` says that every cut of a sequence into calls gives the convolution of the whole sequence
with zeros before its start.

The convolution is exact. `silu` is any function.
-/

namespace AneLinux.Qwen4

open AneLinux.Qwen (Row lastRows)

/-- What the short convolution reads of `PLELayer`. -/
structure ShortConv (C K : ℕ) (V : Type) where
  convD : ℕ
  weight : Fin K → Fin C → V
  silu : V → V

namespace ShortConv

variable {B C K : ℕ} {V : Type} [NonUnitalNonAssocSemiring V] (layer : ShortConv C K V)

/-- `self.short_conv_state_len`. -/
def shortConvStateLen : ℕ := (K - 1) * layer.convD

/-- `self.conv1d`: one kernel for each channel, dilated, without padding or bias. -/
def conv1d (x : List (Row B C V)) : List (Row B C V) :=
  (List.range (x.length - (K - 1) * layer.convD)).map fun (t : ℕ) b c =>
    ∑ k : Fin K, layer.weight k c * x.getD (t + k * layer.convD) 0 b c

/-- `PLELayer._short_conv`: what it stores in `cache[2]` and what it returns. -/
def shortConv (x : List (Row B C V)) (convState : Option (List (Row B C V))) :
    List (Row B C V) × List (Row B C V) :=
  let seqLen := x.length
  let x := convState.elim x (· ++ x)
  let kept := lastRows x layer.shortConvStateLen
  let x := List.replicate layer.shortConvStateLen 0 ++ x
  let x := lastRows x (layer.shortConvStateLen + seqLen)
  (kept, (layer.conv1d x).map fun row b c => layer.silu (row b c))

/-- Calls one after another, as `PLELayer.__call__` makes them: each reads what the one before stored. -/
def runShortConv : Option (List (Row B C V)) → List (List (Row B C V)) → List (Row B C V)
  | _, [] => []
  | convState, x :: rest =>
    (layer.shortConv x convState).2 ++ runShortConv (some (layer.shortConv x convState).1) rest

/-- The row a number of positions before one, zero before the start. -/
def delayed (rows : List (Row B C V)) (t lag : ℕ) : Row B C V := if lag ≤ t then rows.getD (t - lag) 0 else 0

/-- The convolution of a sequence at a position. -/
def convAt (rows : List (Row B C V)) (t : ℕ) : Row B C V := fun b c =>
  ∑ k : Fin K, layer.weight k c * delayed rows t ((K - 1 - k) * layer.convD) b c

section Window

omit [NonUnitalNonAssocSemiring V]

variable {α : Type} {n : ℕ} {past x : List α}

theorem lastRows_append_lastRows (hn : n ≠ 0) : lastRows (lastRows past n ++ x) n = lastRows (past ++ x) n := by
  unfold lastRows
  rw [if_neg hn, if_neg hn, if_neg hn]
  rcases Nat.le_total past.length n with hle | hle
  · rw [Nat.sub_eq_zero_of_le hle, List.drop_zero]
  · rw [← List.drop_append_of_le_length (Nat.sub_le _ _), List.drop_drop, List.length_drop]
    congr 1
    rw [List.length_append]
    omega

/-- The kept rows behind zeros give the same window as all rows behind zeros. -/
theorem drop_zeros_lastRows (hn : n ≠ 0) (zero : α) :
    (List.replicate n zero ++ lastRows past n).drop (lastRows past n).length =
      (List.replicate n zero ++ past).drop past.length := by
  unfold lastRows
  rw [if_neg hn]
  rcases Nat.le_total past.length n with hle | hle
  · rw [Nat.sub_eq_zero_of_le hle, List.drop_zero]
  · have hkept : (past.drop (past.length - n)).length = n := by
      rw [List.length_drop]
      omega
    rw [hkept, List.drop_append_of_le_length (by rw [List.length_replicate]), List.drop_replicate, Nat.sub_self,
      List.replicate_zero, List.nil_append, List.drop_append, List.drop_replicate, Nat.sub_eq_zero_of_le hle,
      List.replicate_zero, List.nil_append, List.length_replicate]

end Window

theorem convAt_append {rows : List (Row B C V)} {t : ℕ} (ht : t < rows.length) (later : List (Row B C V)) :
    layer.convAt (rows ++ later) t = layer.convAt rows t := by
  refine funext fun b => funext fun c => Finset.sum_congr rfl fun k _ => ?_
  have hdelayed : delayed (rows ++ later) t ((K - 1 - k) * layer.convD) =
      delayed rows t ((K - 1 - k) * layer.convD) := by
    unfold delayed
    split
    · rw [List.getD_append _ _ _ _ (by omega)]
    · rfl
  rw [hdelayed]

/-- The window a call convolves shows the past behind zeros. -/
theorem getD_window (past x : List (Row B C V)) (n i : ℕ) :
    ((List.replicate n 0 ++ (past ++ x)).drop past.length).getD i 0 =
      if n ≤ past.length + i then (past ++ x).getD (past.length + i - n) 0 else 0 := by
  rw [List.getD_eq_getElem?_getD, List.getElem?_drop]
  split
  · rename_i hle
    rw [List.getElem?_append_right (by rw [List.length_replicate]; exact hle), List.length_replicate,
      List.getD_eq_getElem?_getD]
  · rename_i hgt
    rw [List.getElem?_append_left (by rw [List.length_replicate]; omega), List.getElem?_replicate,
      if_pos (by omega), Option.getD_some]

/-- One call: it stores the last rows of the past and the new rows, and returns the convolution at the new
positions. -/
theorem shortConv_eq (hn : layer.shortConvStateLen ≠ 0) {past : List (Row B C V)}
    {convState : Option (List (Row B C V))} (hstate : convState.getD [] = lastRows past layer.shortConvStateLen)
    (x : List (Row B C V)) :
    layer.shortConv x convState = (lastRows (past ++ x) layer.shortConvStateLen,
      (List.range x.length).map fun t b c => layer.silu (layer.convAt (past ++ x) (past.length + t) b c)) := by
  have hrows : convState.elim x (· ++ x) = lastRows past layer.shortConvStateLen ++ x := by
    rw [← hstate]
    cases convState with
    | none => rfl
    | some kept => rfl
  have hwindow : lastRows (List.replicate layer.shortConvStateLen 0 ++ (lastRows past layer.shortConvStateLen ++ x))
      (layer.shortConvStateLen + x.length) =
        (List.replicate layer.shortConvStateLen 0 ++ (past ++ x)).drop past.length := by
    have hdrop : _ = (List.replicate layer.shortConvStateLen 0 ++ past).drop past.length :=
      drop_zeros_lastRows hn (0 : Row B C V)
    rw [lastRows, if_neg (by omega), ← List.append_assoc, ← List.append_assoc, List.length_append,
      List.length_append, List.length_replicate]
    generalize lastRows past layer.shortConvStateLen = kept at hdrop ⊢
    have hsub : layer.shortConvStateLen + kept.length + x.length - (layer.shortConvStateLen + x.length) =
        kept.length := by omega
    have hbehind (rows : List (Row B C V)) :
        rows.length ≤ (List.replicate layer.shortConvStateLen 0 ++ rows).length := by
      rw [List.length_append]
      exact Nat.le_add_left _ _
    rw [hsub, List.drop_append_of_le_length (hbehind kept), hdrop, ← List.drop_append_of_le_length (hbehind past),
      List.append_assoc]
  have hlength : ((List.replicate layer.shortConvStateLen 0 ++ (past ++ x)).drop past.length).length -
      (K - 1) * layer.convD = x.length := by
    rw [List.length_drop, List.length_append, List.length_append, List.length_replicate, shortConvStateLen]
    omega
  simp only [shortConv]
  rw [hrows, hwindow, lastRows_append_lastRows hn, conv1d, hlength, List.map_map]
  refine Prod.ext rfl (List.map_congr_left fun t _ => ?_)
  refine funext fun b => funext fun c => congrArg layer.silu ?_
  refine Finset.sum_congr rfl fun k _ => ?_
  have hk : (K - 1 - k) * layer.convD + k * layer.convD = layer.shortConvStateLen := by
    rw [← Nat.add_mul, shortConvStateLen, Nat.sub_add_cancel (Nat.le_sub_one_of_lt k.isLt)]
  rw [getD_window, delayed]
  by_cases hle : (K - 1 - k) * layer.convD ≤ past.length + t
  · have hplace : past.length + (t + k * layer.convD) - layer.shortConvStateLen =
        past.length + t - (K - 1 - k) * layer.convD := by omega
    rw [if_pos (by omega), if_pos hle, hplace]
  · rw [if_neg (by omega), if_neg hle]

/-- Calls after a past return the convolution of the past and all their rows. -/
theorem runShortConv_after (hn : layer.shortConvStateLen ≠ 0) (calls : List (List (Row B C V)))
    {past : List (Row B C V)} {convState : Option (List (Row B C V))}
    (hstate : convState.getD [] = lastRows past layer.shortConvStateLen) :
    layer.runShortConv convState calls = (List.range calls.flatten.length).map fun t b c =>
      layer.silu (layer.convAt (past ++ calls.flatten) (past.length + t) b c) := by
  induction calls generalizing past convState with
  | nil => rfl
  | cons x rest ih =>
    have hkept : (some (lastRows (past ++ x) layer.shortConvStateLen)).getD [] =
        lastRows (past ++ x) layer.shortConvStateLen := rfl
    rw [runShortConv, layer.shortConv_eq hn hstate, ih hkept, List.flatten_cons, List.length_append,
      List.length_append, List.range_add, List.map_append, List.map_map]
    congr 1
    · refine List.map_congr_left fun t ht => ?_
      have hlt : past.length + t < (past ++ x).length := by
        rw [List.length_append]
        exact Nat.add_lt_add_left (List.mem_range.mp ht) _
      rw [← List.append_assoc, layer.convAt_append hlt]
    · refine List.map_congr_left fun t _ => ?_
      rw [Function.comp_apply, List.append_assoc, Nat.add_assoc]

/-- However a sequence is cut into calls, they return what one call on it returns: the convolution with zeros
before the start. -/
theorem runShortConv_eq (hK : 2 ≤ K) (hd : 1 ≤ layer.convD) (calls : List (List (Row B C V))) :
    layer.runShortConv none calls = (layer.shortConv calls.flatten none).2 ∧
      (layer.shortConv calls.flatten none).2 = (List.range calls.flatten.length).map fun t b c =>
        layer.silu (∑ k : Fin K, layer.weight k c * delayed calls.flatten t ((K - 1 - k) * layer.convD) b c) := by
  have hn : layer.shortConvStateLen ≠ 0 := Nat.mul_ne_zero (by omega) (by omega)
  have hstart : (none : Option (List (Row B C V))).getD [] = lastRows [] layer.shortConvStateLen := by
    rw [lastRows, if_neg hn, List.drop_nil, Option.getD_none]
  have hone := layer.shortConv_eq hn hstart calls.flatten
  have hrun := layer.runShortConv_after hn calls hstart
  rw [List.nil_append, List.length_nil] at hone hrun
  rw [hone, hrun]
  refine ⟨rfl, List.map_congr_left fun t _ => ?_⟩
  rw [Nat.zero_add]
  rfl

/-- Two taps three rows apart, over calls of one, one and three rows. -/
theorem runShortConv_eq_taps :
    let layer : ShortConv 1 2 ℕ := { convD := 3, weight := fun k _ => 10 ^ (k : ℕ), silu := id }
    let calls : List (List (Row 1 1 ℕ)) := [[fun _ _ => 1], [fun _ _ => 2], [fun _ _ => 3, fun _ _ => 4, fun _ _ => 5]]
    layer.runShortConv none calls = (layer.shortConv calls.flatten none).2 ∧
      (layer.runShortConv none calls).map (fun row => row 0 0) = [10, 20, 30, 41, 52] :=
  ⟨(runShortConv_eq _ (by decide) (by decide) _).1, by decide⟩

end ShortConv

end AneLinux.Qwen4
