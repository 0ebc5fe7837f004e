import AneLinux.Support.Python
import Mathlib.Algebra.BigOperators.Group.List.Basic
import Mathlib.Data.List.Chain
import Mathlib.Tactic.Linarith

/-!
# Unwrapped device ticks

A GPU profile records the start and the end of every dispatch in a counter of a few bits. The analysis sorts the
dispatches by the recorded start and unwraps one series, all starts followed by all ends: each step goes to the nearest
tick that fits. The series is not the order of time. At its seam it jumps from the largest recorded start back to the
first end, and a jump of half the counter's range or more lands on a wrong tick.
-/

namespace AneLinux.Profile

open AneLinux.Support

/-- A dispatch record of a profile; a dispatch without GPU times has no ticks. -/
structure Dispatch where
  t0 : Option ℤ
  t1 : Option ℤ
deriving DecidableEq, Repr

/-- The step to a raw tick: forward, or backward when that is nearer. -/
def step (m d : ℤ) : ℤ := if d % m > m / 2 then d % m - m else d % m

/-- The loop of `unwrap` behind a raw tick: `delta` is how far the series is from its first tick. -/
def unwrapLoop (m first : ℤ) : ℤ → ℤ → List ℤ → List ℤ
  | _, _, [] => []
  | delta, prevRaw, raw :: rest =>
    let delta := delta + step m (raw - prevRaw)
    (first + delta) :: unwrapLoop m first delta raw rest

/-- `unwrap`. -/
def unwrap (ticks : List ℤ) (validBits : ℕ) : List ℤ :=
  match ticks with
  | [] => []
  | first :: rest =>
    if validBits ≥ 64 ∨ validBits = 0 then first :: rest
    else first :: unwrapLoop (2 ^ validBits) first 0 first rest

/-- The dispatches with GPU times, in the order of the recorded start. -/
def ordered (dispatches : List Dispatch) : List (ℤ × Dispatch) :=
  (dispatches.filterMap fun d => d.t0.map fun t0 => (t0, d)).mergeSort fun a b => a.1 ≤ b.1

/-- `d["t1"]`. -/
def endTick (d : Dispatch) : Py ℤ :=
  match d.t1 with
  | some t1 => .ok t1
  | none => .error (.keyError "'t1'")

/-- The unwrapped start and end that `main` computes for each dispatch. -/
def unwrapped (dispatches : List Dispatch) (validBits : ℕ) : Py (List (Dispatch × ℤ × ℤ)) := do
  let ordered := ordered dispatches
  let ends ← ordered.mapM fun d => endTick d.2
  let ticks := unwrap (ordered.map Prod.fst ++ ends) validBits
  let t0s := ticks.take ordered.length
  let t1s := ticks.drop ordered.length
  return (ordered.map Prod.snd).zip (t0s.zip t1s)

/-- The busy time, for a tick of the given length. -/
def busy (period : ℚ) (spans : List (Dispatch × ℤ × ℤ)) : ℚ :=
  (spans.map fun span => max 0 ((span.2.2 - span.2.1 : ℤ) : ℚ) * period).sum

/-! ## What is recorded -/

/-- A dispatch as it ran. -/
structure Interval where
  start : ℤ
  stop : ℤ
  le : start ≤ stop

def Interval.duration (i : Interval) : ℤ := i.stop - i.start

/-- The counter at the start of a dispatch. -/
def Interval.tick (b : ℕ) (i : Interval) : ℤ := i.start % 2 ^ b

/-- The record of a dispatch in a counter of `b` bits. -/
def Interval.record (b : ℕ) (i : Interval) : Dispatch := ⟨some (i.tick b), some (i.stop % 2 ^ b)⟩

/-- No dispatch takes half the counter's range, and no time between two starts that follow each other in time does. -/
structure Recordable (b : ℕ) (times : List Interval) : Prop where
  short : ∀ i ∈ times, i.duration < 2 ^ (b - 1)
  close : (times.mergeSort fun i j => i.start ≤ j.start).IsChain fun i j => j.start - i.start < 2 ^ (b - 1)

/-- The dispatches in the order of their recorded start. -/
def byTick (b : ℕ) (times : List Interval) : List Interval := times.mergeSort fun i j => i.tick b ≤ j.tick b

/-- The recorded starts of two neighbours are no more than half the range apart. -/
def Near (b : ℕ) (i j : Interval) : Prop := j.tick b - i.tick b ≤ 2 ^ (b - 1)

instance (b : ℕ) (i j : Interval) : Decidable (Near b i j) := inferInstanceAs (Decidable (_ ≤ _))

/-- The ends of two neighbours, counted from the recorded starts, are near exactly if the starts are. -/
def EndsAlike (b : ℕ) (i j : Interval) : Prop :=
  (j.tick b + j.duration) - (i.tick b + i.duration) ≤ 2 ^ (b - 1) ↔ Near b i j

instance (b : ℕ) (i j : Interval) : Decidable (EndsAlike b i j) := inferInstanceAs (Decidable (_ ↔ _))

/-- The condition on the records: the ends of all neighbours are as near as their starts, and the end of the first
dispatch is half the range or more before the last start exactly if two neighbours are more than that apart. -/
structure Unwraps (b : ℕ) (times : List Interval) : Prop where
  neighbours : (byTick b times).IsChain (EndsAlike b)
  seam : ∀ first ∈ (byTick b times).head?, ∀ last ∈ (byTick b times).getLast?,
    (2 ^ (b - 1) ≤ last.tick b - (first.tick b + first.duration) ↔ ¬ (byTick b times).IsChain (Near b))

/-- What the unwrapping is for: the true duration of every dispatch, and their sum as the busy time. -/
structure TrueDurations (b : ℕ) (times : List Interval) (spans : List (Dispatch × ℤ × ℤ)) : Prop where
  all : (spans.map Prod.fst).Perm (times.map (Interval.record b))
  each : ∀ span ∈ spans, ∀ i ∈ times, i.record b = span.1 → span.2.2 - span.2.1 = i.duration
  total : ∀ period, busy period spans = ((times.map Interval.duration).sum : ℤ) * period

/-! ## The steps -/

variable {half : ℤ}

/-- A step is the number of its class that is above minus half the range and at most half of it. -/
theorem step_eq_iff {d y : ℤ} (hhalf : 0 < half) :
    step (2 * half) d = y ↔ (∃ k, y = d + k * (2 * half)) ∧ -half < y ∧ y ≤ half := by
  have hdiv : 2 * half / 2 = half := by omega
  have hlo := Int.emod_nonneg d (by omega : 2 * half ≠ 0)
  have hhi := Int.emod_lt_of_pos d (by omega : 0 < 2 * half)
  have hdecomp := Int.emod_add_mul_ediv d (2 * half)
  have hclass : ∃ k, step (2 * half) d = d + k * (2 * half) := by
    rw [step]
    split
    · exact ⟨-(d / (2 * half)) - 1, by linarith⟩
    · exact ⟨-(d / (2 * half)), by linarith⟩
  have hrange : -half < step (2 * half) d ∧ step (2 * half) d ≤ half := by
    rw [step, hdiv]
    split <;> omega
  constructor
  · rintro rfl
    exact ⟨hclass, hrange⟩
  · rintro ⟨⟨k, hk⟩, hy⟩
    obtain ⟨k', hk'⟩ := hclass
    -- Two numbers of one class in an interval of the length of the range are the same.
    have hdiff : step (2 * half) d - y = (k' - k) * (2 * half) := by
      rw [hk', hk]
      ring
    have hzero : k' - k = 0 := by
      by_contra hne
      obtain hlt | hgt := lt_or_gt_of_ne hne
      · nlinarith
      · nlinarith
    rw [hzero, zero_mul] at hdiff
    omega

/-- A step depends on the difference modulo the counter. -/
theorem step_congr {m d d' : ℤ} (h : ∃ k, d = d' + m * k) : step m d = step m d' := by
  obtain ⟨k, rfl⟩ := h
  rw [step, step, Int.add_mul_emod_self_left]

/-- How far the series goes over a list of raw ticks. -/
def walked (m : ℤ) : ℤ → List ℤ → ℤ
  | _, [] => 0
  | prevRaw, raw :: rest => step m (raw - prevRaw) + walked m raw rest

variable {first : ℤ} {spans : List (Dispatch × ℤ × ℤ)} {order : List Interval}

/-- Unwrapping keeps the length. -/
theorem length_unwrapLoop {m delta prevRaw : ℤ} {raws : List ℤ} :
    (unwrapLoop m first delta prevRaw raws).length = raws.length := by
  induction raws generalizing delta prevRaw with
  | nil => rfl
  | cons raw rest ih => rw [unwrapLoop, List.length_cons, List.length_cons, ih]

/-- Unwrapping goes on from the last raw value. -/
theorem unwrapLoop_append (m first delta prevRaw : ℤ) (raws more : List ℤ) :
    unwrapLoop m first delta prevRaw (raws ++ more) = unwrapLoop m first delta prevRaw raws ++
      unwrapLoop m first (delta + walked m prevRaw raws) (raws.getLastD prevRaw) more := by
  induction raws generalizing delta prevRaw with
  | nil => simp [unwrapLoop, walked]
  | cons raw rest ih =>
    rw [List.cons_append, unwrapLoop, unwrapLoop, ih, walked, List.cons_append, add_assoc, List.getLastD_cons]

/-! ## The recorded dispatches -/

section Records

variable {b : ℕ} {i j a c : Interval} {rest : List Interval}

/-- A tick is a reading of the counter. -/
theorem tick_range (b : ℕ) (i : Interval) : 0 ≤ i.tick b ∧ i.tick b < 2 ^ b :=
  ⟨Int.emod_nonneg _ (by positivity), Int.emod_lt_of_pos _ (by positivity)⟩

theorem duration_nonneg (i : Interval) : 0 ≤ i.duration := by
  have := i.le
  rw [Interval.duration]
  omega

/-- The recorded end is the recorded start and the duration, up to turns of the counter. -/
theorem stop_tick (b : ℕ) (i : Interval) : ∃ k, i.stop % 2 ^ b = i.tick b + i.duration + 2 ^ b * k := by
  have hstart := Int.emod_add_mul_ediv i.start (2 ^ b)
  have hstop := Int.emod_add_mul_ediv i.stop (2 ^ b)
  refine ⟨i.start / 2 ^ b - i.stop / 2 ^ b, ?_⟩
  rw [Interval.tick, Interval.duration]
  linarith

/-- Dispatches with one record have one duration. -/
theorem duration_eq_of_record (hi : i.duration < 2 ^ b) (hj : j.duration < 2 ^ b) (h : i.record b = j.record b) :
    i.duration = j.duration := by
  obtain ⟨k, hk⟩ := stop_tick b i
  obtain ⟨k', hk'⟩ := stop_tick b j
  simp only [Interval.record, Dispatch.mk.injEq, Option.some.injEq] at h
  rw [h.1, h.2, hk'] at hk
  have hmod : i.duration % 2 ^ b = j.duration % 2 ^ b := by
    have : i.duration = j.duration + 2 ^ b * (k' - k) := by linarith
    rw [this, Int.add_mul_emod_self_left]
  rwa [Int.emod_eq_of_lt (duration_nonneg i) hi, Int.emod_eq_of_lt (duration_nonneg j) hj] at hmod

variable (hb : 1 ≤ b)

include hb in
theorem two_pow_eq : (2 : ℤ) ^ b = 2 * 2 ^ (b - 1) := by
  rw [← pow_succ', Nat.sub_add_cancel hb]

/-- The spans of the dispatches from the one that is at `delta₀` and `delta₁` on. -/
def spansFrom (b : ℕ) (first : ℤ) : ℤ → ℤ → Interval → List Interval → List (Dispatch × ℤ × ℤ)
  | delta₀, delta₁, a, [] => [(a.record b, first + delta₀, first + delta₁)]
  | delta₀, delta₁, a, c :: rest =>
    (a.record b, first + delta₀, first + delta₁) ::
      spansFrom b first (delta₀ + step (2 ^ b) (c.tick b - a.tick b))
        (delta₁ + step (2 ^ b) (c.stop % 2 ^ b - a.stop % 2 ^ b)) c rest

/-- Starts and stops unwrapped side by side. -/
theorem zip_unwrapLoop (b : ℕ) (first delta₀ delta₁ : ℤ) (a : Interval) (rest : List Interval) :
    ((a :: rest).map (Interval.record b)).zip
      (((first + delta₀) :: unwrapLoop (2 ^ b) first delta₀ (a.tick b) (rest.map (Interval.tick b))).zip
        ((first + delta₁) :: unwrapLoop (2 ^ b) first delta₁ (a.stop % 2 ^ b) (rest.map fun i => i.stop % 2 ^ b))) =
      spansFrom b first delta₀ delta₁ a rest := by
  induction rest generalizing a delta₀ delta₁ with
  | nil => rfl
  | cons c rest ih =>
    rw [spansFrom, ← ih]
    rfl

/-- The length of a span is the duration of its dispatch. -/
def Measures (span : Dispatch × ℤ × ℤ) (i : Interval) : Prop := span.2.2 - span.2.1 = i.duration

/-- When the first span and the rest measure. -/
theorem measures_cons_iff {d : Dispatch} {delta₀ delta₁ : ℤ} :
    List.Forall₂ Measures ((d, first + delta₀, first + delta₁) :: spans) (a :: rest) ↔
      delta₁ - delta₀ = a.duration ∧ List.Forall₂ Measures spans rest := by
  rw [List.forall₂_cons, Measures, add_sub_add_left_eq_sub]

include hb in
/-- From a dispatch whose span is right, that of the next one is right exactly if their ends are as near as their
starts. -/
theorem steps_agree_iff (hle : a.tick b ≤ c.tick b) (ha : a.duration < 2 ^ (b - 1)) (hc : c.duration < 2 ^ (b - 1)) :
    a.duration + step (2 ^ b) (c.stop % 2 ^ b - a.stop % 2 ^ b) - step (2 ^ b) (c.tick b - a.tick b) = c.duration ↔
      EndsAlike b a c := by
  have hm := two_pow_eq hb
  have hhalf : (0 : ℤ) < 2 ^ (b - 1) := by positivity
  obtain ⟨k, hk⟩ := stop_tick b a
  obtain ⟨k', hk'⟩ := stop_tick b c
  have hends : step (2 ^ b) (c.stop % 2 ^ b - a.stop % 2 ^ b) =
      step (2 ^ b) (c.tick b + c.duration - (a.tick b + a.duration)) := by
    refine step_congr ⟨k' - k, ?_⟩
    rw [hk, hk']
    ring
  have ha0 := duration_nonneg a
  have hc0 := duration_nonneg c
  have haRange := tick_range b a
  have hcRange := tick_range b c
  rw [EndsAlike, Near, hends, hm]
  rw [hm] at haRange hcRange
  generalize (2 : ℤ) ^ (b - 1) = half at *
  have hstart : step (2 * half) (c.tick b - a.tick b) =
      if c.tick b - a.tick b ≤ half then c.tick b - a.tick b else c.tick b - a.tick b - 2 * half := by
    split
    · exact (step_eq_iff hhalf).mpr ⟨⟨0, by ring⟩, by omega, by omega⟩
    · exact (step_eq_iff hhalf).mpr ⟨⟨-1, by ring⟩, by omega, by omega⟩
  have hmove (x : ℤ) : a.duration + step (2 * half) (c.tick b + c.duration - (a.tick b + a.duration)) - x = c.duration ↔
      step (2 * half) (c.tick b + c.duration - (a.tick b + a.duration)) = c.duration - a.duration + x := by
    constructor <;> intro h <;> linarith
  rw [hmove, hstart, step_eq_iff hhalf]
  split
  · constructor
    · intro h
      omega
    · intro h
      exact ⟨⟨0, by ring⟩, by omega, by omega⟩
  · constructor
    · intro h
      omega
    · intro h
      exact ⟨⟨-1, by ring⟩, by omega, by omega⟩

include hb in
/-- When the first span is right, all are exactly if the ends of all neighbours are as near as their starts. -/
theorem spansFrom_measures_iff {delta₀ delta₁ : ℤ} (hsorted : (a :: rest).IsChain fun i j => i.tick b ≤ j.tick b)
    (hshort : ∀ i ∈ a :: rest, i.duration < 2 ^ (b - 1)) :
    List.Forall₂ Measures (spansFrom b first delta₀ delta₁ a rest) (a :: rest) ↔
      delta₁ - delta₀ = a.duration ∧ (a :: rest).IsChain (EndsAlike b) := by
  induction rest generalizing a delta₀ delta₁ with
  | nil =>
    rw [spansFrom, measures_cons_iff]
    simp
  | cons c rest ih =>
    obtain ⟨hle, hsorted⟩ := List.isChain_cons_cons.mp hsorted
    obtain ⟨ha, hshort⟩ := List.forall_mem_cons.mp hshort
    have hstep := steps_agree_iff hb hle ha (hshort c List.mem_cons_self)
    rw [spansFrom, measures_cons_iff, ih hsorted hshort, List.isChain_cons_cons, ← hstep]
    refine and_congr_right fun hdelta => and_congr_left' ?_
    constructor <;> intro h <;> linarith

/-- The steps over sorted starts add up to the way from the first one to the last, less a turn if two neighbours are
more than half a turn apart. -/
theorem walked_eq (hb : 1 ≤ b) (hsorted : (a :: rest).Pairwise fun i j => i.tick b ≤ j.tick b) :
    walked (2 ^ b) (a.tick b) (rest.map (Interval.tick b)) =
      (rest.getLastD a).tick b - a.tick b - if (a :: rest).IsChain (Near b) then 0 else 2 ^ b := by
  have hm := two_pow_eq hb
  have hhalf : (0 : ℤ) < 2 ^ (b - 1) := by positivity
  induction rest generalizing a with
  | nil => simp [walked]
  | cons c rest ih =>
    obtain ⟨ha, hsorted⟩ := List.pairwise_cons.mp hsorted
    have hle := ha c List.mem_cons_self
    have haRange := tick_range b a
    have hcRange := tick_range b c
    rw [List.map_cons, walked, ih hsorted, List.getLastD_cons]
    by_cases hnear : Near b a c
    · have hstep : step (2 ^ b) (c.tick b - a.tick b) = c.tick b - a.tick b := by
        rw [hm]
        exact (step_eq_iff hhalf).mpr ⟨⟨0, by ring⟩, by omega, hnear⟩
      simp only [List.isChain_cons_cons, hnear, true_and]
      linarith
    · have hgap : 2 ^ (b - 1) < c.tick b - a.tick b := not_le.mp hnear
      have hstep : step (2 ^ b) (c.tick b - a.tick b) = c.tick b - a.tick b - 2 ^ b := by
        rw [hm]
        exact (step_eq_iff hhalf).mpr ⟨⟨-1, by ring⟩, by omega, by omega⟩
      -- What is left of the turn is less than half of it.
      have hrest : (c :: rest).IsChain (Near b) := by
        refine (hsorted.imp_of_mem fun {i j} hi _ _ => ?_).isChain
        have hj := tick_range b j
        have hci : c.tick b ≤ i.tick b := by
          obtain rfl | hi := List.mem_cons.mp hi
          · exact le_rfl
          · exact (List.pairwise_cons.mp hsorted).1 i hi
        rw [Near]
        omega
      simp only [List.isChain_cons_cons, hnear, false_and, if_false, hrest, if_true]
      linarith

include hb in
/-- The first span is right exactly if the seam between the starts and the ends is stepped over to the nearest tick. -/
theorem seam_iff (hsorted : (a :: rest).Pairwise fun i j => i.tick b ≤ j.tick b) (ha : a.duration < 2 ^ (b - 1)) :
    walked (2 ^ b) (a.tick b) (rest.map (Interval.tick b)) +
          step (2 ^ b) (a.stop % 2 ^ b - (rest.getLastD a).tick b) = a.duration ↔
      (2 ^ (b - 1) ≤ (rest.getLastD a).tick b - (a.tick b + a.duration) ↔ ¬ (a :: rest).IsChain (Near b)) := by
  have hm := two_pow_eq hb
  have hhalf : (0 : ℤ) < 2 ^ (b - 1) := by positivity
  obtain ⟨k, hk⟩ := stop_tick b a
  have hend : step (2 ^ b) (a.stop % 2 ^ b - (rest.getLastD a).tick b) =
      step (2 ^ b) (a.tick b + a.duration - (rest.getLastD a).tick b) := by
    refine step_congr ⟨k, ?_⟩
    rw [hk]
    ring
  have hle : a.tick b ≤ (rest.getLastD a).tick b := by
    rw [List.getLastD_eq_getLast?]
    cases hlast : rest.getLast? with
    | none => exact le_rfl
    | some last => exact (List.pairwise_cons.mp hsorted).1 last (List.mem_of_getLast? hlast)
  have ha0 := duration_nonneg a
  have haRange := tick_range b a
  have hlast := tick_range b (rest.getLastD a)
  have hmove (x y : ℤ) : x + y = a.duration ↔ y = a.duration - x := by
    constructor <;> intro h <;> linarith
  rw [hmove, walked_eq hb hsorted, hend]
  rw [hm] at hlast haRange ⊢
  rw [step_eq_iff hhalf]
  split
  · next hchain =>
    simp only [hchain, not_true_eq_false, iff_false, not_le]
    constructor
    · intro h
      omega
    · intro h
      exact ⟨⟨0, by ring⟩, by omega, by omega⟩
  · next hchain =>
    simp only [hchain, not_false_eq_true, iff_true]
    constructor
    · intro h
      omega
    · intro h
      exact ⟨⟨1, by ring⟩, by omega, by omega⟩

end Records

/-! ## The durations -/

variable {b : ℕ} {times : List Interval}

/-- Sorting the records sorts the intervals. -/
theorem ordered_record (b : ℕ) (times : List Interval) :
    ordered (times.map (Interval.record b)) = (byTick b times).map fun i => (i.tick b, i.record b) := by
  have htimed : (times.map (Interval.record b)).filterMap (fun d => d.t0.map fun t0 => (t0, d)) =
      times.map fun i => (i.tick b, i.record b) := by
    rw [List.filterMap_map, ← List.filterMap_eq_map]
    rfl
  rw [ordered, htimed, byTick]
  refine (List.map_mergeSort ?_).symm
  exact fun i _ j _ => rfl

/-- The spans of recorded dispatches. -/
def spansOf (b : ℕ) : List Interval → List (Dispatch × ℤ × ℤ)
  | [] => []
  | a :: rest =>
    spansFrom b (a.tick b) 0 (walked (2 ^ b) (a.tick b) (rest.map (Interval.tick b)) +
      step (2 ^ b) (a.stop % 2 ^ b - (rest.getLastD a).tick b)) a rest

/-- What the code gives on recorded intervals. -/
theorem unwrapped_record (hb : 1 ≤ b) (hb' : b < 64) :
    unwrapped (times.map (Interval.record b)) b = .ok (spansOf b (byTick b times)) := by
  have hends : ((byTick b times).map fun i => (i.tick b, i.record b)).mapM (fun d => endTick d.2) =
      .ok ((byTick b times).map fun i => i.stop % 2 ^ b) := by
    rw [mapM_eq_ok, List.forall₂_map_left_iff, List.forall₂_map_right_iff]
    exact List.forall₂_same.mpr fun i _ => rfl
  rw [unwrapped, ordered_record, hends]
  simp only [ok_bind, List.map_map]
  cases byTick b times with
  | nil => rfl
  | cons a rest =>
    have hlast : (rest.map (Interval.tick b)).getLastD (a.tick b) = (rest.getLastD a).tick b := List.getLastD_map
    have hticks : unwrap (((a :: rest).map (Prod.fst ∘ fun i => (i.tick b, i.record b))) ++
          (a :: rest).map fun i => i.stop % 2 ^ b) b =
        (a.tick b :: unwrapLoop (2 ^ b) (a.tick b) 0 (a.tick b) (rest.map (Interval.tick b))) ++
          unwrapLoop (2 ^ b) (a.tick b) (walked (2 ^ b) (a.tick b) (rest.map (Interval.tick b)))
            ((rest.getLastD a).tick b) ((a :: rest).map fun i => i.stop % 2 ^ b) := by
      rw [List.map_cons, List.cons_append, unwrap, if_neg (by omega), List.cons_append]
      congr 1
      have happend := unwrapLoop_append (2 ^ b) (a.tick b) 0 (a.tick b) (rest.map (Interval.tick b))
        ((a :: rest).map fun i => i.stop % 2 ^ b)
      rw [zero_add, hlast] at happend
      exact happend
    have hlen : (a.tick b :: unwrapLoop (2 ^ b) (a.tick b) 0 (a.tick b) (rest.map (Interval.tick b))).length =
        ((a :: rest).map fun i => (i.tick b, i.record b)).length := by
      rw [List.length_cons, length_unwrapLoop, List.length_map, List.length_map, List.length_cons]
    rw [hticks, List.take_left' hlen, List.drop_left' hlen, spansOf, ← zip_unwrapLoop, add_zero]
    rfl

theorem map_fst_spansOf (b : ℕ) (order : List Interval) :
    (spansOf b order).map Prod.fst = order.map (Interval.record b) := by
  cases order with
  | nil => rfl
  | cons a rest =>
    have hfrom (first delta₀ delta₁ : ℤ) :
        (spansFrom b first delta₀ delta₁ a rest).map Prod.fst = (a :: rest).map (Interval.record b) := by
      induction rest generalizing a delta₀ delta₁ with
      | nil => rfl
      | cons c rest ih => rw [spansFrom, List.map_cons, ih, List.map_cons, List.map_cons, List.map_cons]
    exact hfrom _ _ _

/-- The sorted ticks never fall. -/
theorem pairwise_byTick (b : ℕ) (times : List Interval) : (byTick b times).Pairwise fun i j => i.tick b ≤ j.tick b := by
  refine (List.pairwise_mergeSort (fun i j k hij hjk => ?_) (fun i j => ?_) _).imp fun h => of_decide_eq_true h
  · exact decide_eq_true ((of_decide_eq_true hij).trans (of_decide_eq_true hjk))
  · simpa using le_total (i.tick b) (j.tick b)

/-- The spans are right exactly under the condition. -/
theorem spansOf_measures_iff (hb : 1 ≤ b) (hshort : ∀ i ∈ times, i.duration < 2 ^ (b - 1)) :
    List.Forall₂ Measures (spansOf b (byTick b times)) (byTick b times) ↔ Unwraps b times := by
  have hsorted := pairwise_byTick b times
  have hshort' : ∀ i ∈ byTick b times, i.duration < 2 ^ (b - 1) :=
    fun i hi => hshort i ((List.mergeSort_perm _ _).mem_iff.mp hi)
  have hunwraps : Unwraps b times ↔ (byTick b times).IsChain (EndsAlike b) ∧
      ∀ first ∈ (byTick b times).head?, ∀ last ∈ (byTick b times).getLast?,
        (2 ^ (b - 1) ≤ last.tick b - (first.tick b + first.duration) ↔ ¬ (byTick b times).IsChain (Near b)) :=
    ⟨fun h => ⟨h.neighbours, h.seam⟩, fun h => ⟨h.1, h.2⟩⟩
  rw [hunwraps]
  cases horder : byTick b times with
  | nil => simp [spansOf]
  | cons a rest =>
    rw [horder] at hsorted hshort'
    have hlast : (a :: rest).getLast? = some (rest.getLastD a) := by
      rw [List.getLast?_cons, List.getLastD_eq_getLast?]
    rw [spansOf, spansFrom_measures_iff hb hsorted.isChain hshort', sub_zero,
      seam_iff hb hsorted (hshort' a List.mem_cons_self), and_comm, hlast, List.head?_cons]
    simp only [Option.mem_def, Option.some.injEq, forall_eq']

/-- A dispatch is measured with the duration that its record determines. -/
theorem measures_of_each (hfst : spans.map Prod.fst = order.map (Interval.record b))
    (heach : ∀ span ∈ spans, ∀ i ∈ order, i.record b = span.1 → span.2.2 - span.2.1 = i.duration) :
    List.Forall₂ Measures spans order := by
  rw [← List.forall₂_eq_eq_eq, List.forall₂_map_left_iff, List.forall₂_map_right_iff] at hfst
  rw [List.forall₂_iff_get] at hfst ⊢
  refine ⟨hfst.1, fun k hk hk' => ?_⟩
  exact heach _ (List.get_mem _ _) _ (List.get_mem _ _) (hfst.2 k hk hk').symm

/-- Each span measures an interval. -/
theorem exists_measured (hfst : spans.map Prod.fst = order.map (Interval.record b))
    (hall : List.Forall₂ Measures spans order) {span : Dispatch × ℤ × ℤ} (hspan : span ∈ spans) :
    ∃ i ∈ order, span.1 = i.record b ∧ Measures span i := by
  rw [← List.forall₂_eq_eq_eq, List.forall₂_map_left_iff, List.forall₂_map_right_iff] at hfst
  rw [List.forall₂_iff_get] at hfst hall
  obtain ⟨k, rfl⟩ := List.get_of_mem hspan
  have hk : k < order.length := hall.1 ▸ k.isLt
  exact ⟨order.get ⟨k, hk⟩, List.get_mem _ _, hfst.2 k k.isLt hk, hall.2 k k.isLt hk⟩

/-- Measured spans are busy for the sum of the durations. -/
theorem busy_eq {period : ℚ} (hall : List.Forall₂ Measures spans order) :
    busy period spans = ((order.map Interval.duration).sum : ℤ) * period := by
  induction hall with
  | nil => simp [busy]
  | @cons span i spans order hspan _ ih =>
    have hnonneg : (0 : ℚ) ≤ (i.duration : ℤ) := by exact_mod_cast duration_nonneg i
    rw [Measures] at hspan
    rw [busy, List.map_cons, List.sum_cons, hspan, max_eq_right hnonneg, List.map_cons, List.sum_cons, Int.cast_add,
      add_mul]
    rw [busy] at ih
    rw [ih]

/-- The analysis recovers the duration of every dispatch, and the busy time, exactly under the condition. -/
theorem unwrapped_trueDurations_iff (b : ℕ) (hb : 1 ≤ b) (hb' : b < 64) (times : List Interval)
    (h : Recordable b times) :
    (∃ spans, unwrapped (times.map (Interval.record b)) b = .ok spans ∧ TrueDurations b times spans) ↔
      Unwraps b times := by
  have hperm : (byTick b times).Perm times := List.mergeSort_perm _ _
  have hfst := map_fst_spansOf b (byTick b times)
  rw [← spansOf_measures_iff hb h.short]
  constructor
  · rintro ⟨spans, hspans, htrue⟩
    obtain rfl : spansOf b (byTick b times) = spans := Except.ok.inj ((unwrapped_record hb hb').symm.trans hspans)
    exact measures_of_each hfst fun span hspan i hi => htrue.each span hspan i (hperm.mem_iff.mp hi)
  · intro hall
    refine ⟨_, unwrapped_record hb hb', ?_, ?_, ?_⟩
    · rw [hfst]
      exact hperm.map _
    · intro span hspan i hi hrecord
      obtain ⟨j, hj, hfirst, hmeasures⟩ := exists_measured hfst hall hspan
      have hshort (i : Interval) (hi : i ∈ times) : i.duration < 2 ^ b :=
        (h.short i hi).trans_le (pow_le_pow_right₀ (by decide) (Nat.sub_le b 1))
      rw [duration_eq_of_record (hshort i hi) (hshort j (hperm.mem_iff.mp hj)) (hrecord.trans hfirst)]
      exact hmeasures
    · intro period
      rw [busy_eq hall, (hperm.map Interval.duration).sum_eq]

/-- A trace in a counter of four bits with three dispatches of one tick. -/
def shortTrace (middle last : ℕ) : List Interval :=
  [⟨0, 1, by decide⟩, ⟨middle, middle + 1, by omega⟩, ⟨last, last + 1, by omega⟩]

/-- A trace that is in order is recorded in order when the counter does not wrap. -/
theorem byTick_shortTrace {middle last : ℕ} (hle : middle ≤ last) (hlast : last < 16) :
    byTick 4 (shortTrace middle last) = shortTrace middle last := by
  refine List.mergeSort_of_pairwise ?_
  have hmiddle : (0 : ℤ) ≤ middle % 16 := Int.emod_nonneg _ (by decide)
  have hlast' : (0 : ℤ) ≤ last % 16 := Int.emod_nonneg _ (by decide)
  have hordered : (middle : ℤ) % 16 ≤ last % 16 := by omega
  simp [shortTrace, Interval.tick, hmiddle, hlast', hordered]

theorem recordable_shortTrace {middle last : ℕ} (hle : middle ≤ last) (hmiddle : middle < 8)
    (hlast : last < middle + 8) : Recordable 4 (shortTrace middle last) := by
  constructor
  · simp [shortTrace, Interval.duration]
  · rw [List.mergeSort_of_pairwise]
    · simp [shortTrace]
      omega
    · simp [shortTrace]
      omega

/-- Without any wrap, the first of three dispatches at the ticks 0, 7 and 14 gets 17 ticks instead of one. -/
theorem unwrapped_adds_turn :
    Recordable 4 (shortTrace 7 14) ∧
      (∃ spans, unwrapped ((shortTrace 7 14).map (Interval.record 4)) 4 = .ok spans ∧
        spans.map (fun span => span.2.2 - span.2.1) = [17, 17, 17]) ∧
      ¬ ∃ spans, unwrapped ((shortTrace 7 14).map (Interval.record 4)) 4 = .ok spans ∧
        TrueDurations 4 (shortTrace 7 14) spans := by
  have hspans : unwrapped ((shortTrace 7 14).map (Interval.record 4)) 4 =
      .ok [(⟨some 0, some 1⟩, 0, 17), (⟨some 7, some 8⟩, 7, 24), (⟨some 14, some 15⟩, 14, 31)] := by
    rw [unwrapped_record (by decide) (by decide), byTick_shortTrace (by decide) (by decide)]
    decide
  refine ⟨recordable_shortTrace (by decide) (by decide) (by decide), ⟨_, hspans, by decide⟩, ?_⟩
  rintro ⟨spans, heq, htrue⟩
  obtain rfl := Except.ok.inj (hspans.symm.trans heq)
  have := htrue.each _ List.mem_cons_self ⟨0, 1, by decide⟩ List.mem_cons_self (by decide)
  exact absurd this (by decide)

/-- Dispatches at the ticks 0, 3 and 6 get their durations. -/
theorem unwrapped_trueDurations_iff_short :
    ∃ spans, unwrapped ((shortTrace 3 6).map (Interval.record 4)) 4 = .ok spans ∧
      TrueDurations 4 (shortTrace 3 6) spans := by
  have hbyTick : byTick 4 (shortTrace 3 6) = shortTrace 3 6 := byTick_shortTrace (by decide) (by decide)
  refine (unwrapped_trueDurations_iff 4 (by decide) (by decide) _
    (recordable_shortTrace (by decide) (by decide) (by decide))).mpr ⟨?_, ?_⟩
  · rw [hbyTick]
    decide
  · rw [hbyTick]
    decide

end AneLinux.Profile
