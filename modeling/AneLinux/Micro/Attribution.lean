import AneLinux.Support.Dict
import Mathlib.Data.Prod.Lex

/-!
# Attribution of dispatches by submission

The profiler flushes its records out of order, but every record has the id of its submission.
`attribute_by_submission` sorts the submissions of one fused dispatch by id, passes over the warm-up and cuts the others
into the segments of the plan; the report cuts them once more, from a list of its own. The two cuts are the same, and
the measured part is nothing but fused dispatches.
-/

namespace AneLinux.Micro

open AneLinux.Support

/-- A segment of the plan. -/
structure PlanStep where
  block : ℕ
  w : ℕ
  steps : ℕ
deriving DecidableEq

/-- The kernel enum of the fused dispatch. -/
def fusedEnum : ℤ := 412

variable {α : Type} {subs : List (ℤ × List (α × ℤ))} {plan : List PlanStep} {mean : α → α → α}

section Code

variable [LinearOrder α]

/-- `statistics.median`; `mean` is the mean of the two middle values. -/
def median (mean : α → α → α) (values : List α) : Py α :=
  match (sorted values)[values.length / 2]? with
  | none => raiseValue "no median for empty data"
  | some high =>
    if values.length % 2 = 1 then .ok high
    else .ok (mean ((sorted values).getD (values.length / 2 - 1) high) high)

/-- A submission of one fused dispatch: its id, the duration and the enum, compared in this order. -/
abbrev Singleton (α : Type) := ℤ ×ₗ (α ×ₗ ℤ)

/-- The duration of the only dispatch of a submission, if it is a fused one. -/
def fused (events : List (α × ℤ)) : Option α :=
  match events with
  | [(duration, e)] => if e = fusedEnum then some duration else none
  | _ => none

/-- The submission of an id and a duration. -/
def singleton (s : ℤ) (duration : α) : Singleton α := toLex (s, toLex (duration, fusedEnum))

/-- The id of a submission. -/
def Singleton.id (single : Singleton α) : ℤ := (ofLex single).1

/-- The duration of a submission. -/
def Singleton.duration (single : Singleton α) : α := (ofLex (ofLex single).2).1

/-- The submissions of one fused dispatch, sorted. -/
def singletons (subs : List (ℤ × List (α × ℤ))) : List (Singleton α) :=
  sorted (subs.filterMap fun entry => (fused entry.2).map (singleton entry.1))

/-- `warm_count`. -/
def warmCount (plan : List PlanStep) : ℕ := (plan.map PlanStep.w).foldr max 0

/-- The singletons behind the warm-up. -/
def measured (subs : List (ℤ × List (α × ℤ))) (plan : List PlanStep) : List (Singleton α) :=
  (singletons subs).drop (warmCount plan)

/-- `evs` of one segment. -/
def slice {β : Type} (durations : List β) (pos steps : ℕ) : List β := (durations.drop pos).take steps

/-- One round of the loop over the plan: the median of a segment is filed under its weight count. -/
def attributeStep (mean : α → α → α) (durations : List α) (state : List (ℕ × List α) × ℕ) (sp : PlanStep) :
    Py (List (ℕ × List α) × ℕ) := do
  let value ← median mean (slice durations state.2 sp.steps)
  return (assign state.1 sp.w ((find state.1 sp.w).getD [] ++ [value]), state.2 + sp.steps)

/-- `attribute_by_submission`. -/
def attributeBySubmission (mean : α → α → α) (subs : List (ℤ × List (α × ℤ))) (plan : List PlanStep) :
    Py (List (ℕ × List α) × String) :=
  if plan = [] then raiseValue "max() iterable argument is empty"
  else
    let total := (plan.map PlanStep.steps).sum
    if (singletons subs).length ≠ warmCount plan + total then
      .error (.systemExit (s!"UNQUALIFIED: {(singletons subs).length} 412 singletons != exact required " ++
        s!"{warmCount plan + total} (warm {warmCount plan} + measured {total}); fused contract unproven"))
    else match measured subs plan with
      | [] => .error .indexError
      | first :: _ =>
        if subs.any fun entry => first.id ≤ entry.1 && (fused entry.2).isNone then
          .error (.systemExit "UNQUALIFIED: foreign work in measured submission range")
        else do
          let state ← plan.foldlM (attributeStep mean ((measured subs plan).map Singleton.duration)) ([], 0)
          return (state.1, s!"QUALIFIED (s-order proven: {(singletons subs).length} 412 singletons = warm " ++
            s!"{warmCount plan} + measured {total})")

/-! ## The report -/

/-- `measured_durs` of the report: sorted by id, looked up, and passed over the warm-up. -/
def measuredDurs (subs : List (ℤ × List (α × ℤ))) (plan : List PlanStep) : List α :=
  ((sorted (subs.map Prod.fst)).filterMap fun s => (find subs s).bind fused).drop (warmCount plan)

/-- One round of the loop of the report: the segment is filed under its weight count. -/
def eventsStep (durations : List α) (state : List (ℕ × List α) × ℕ) (sp : PlanStep) : List (ℕ × List α) × ℕ :=
  (assign state.1 sp.w ((find state.1 sp.w).getD [] ++ slice durations state.2 sp.steps), state.2 + sp.steps)

/-- `per_w_events`. -/
def perWEvents (subs : List (ℤ × List (α × ℤ))) (plan : List PlanStep) : List (ℕ × List α) :=
  (plan.foldl (eventsStep (measuredDurs subs plan)) ([], 0)).1

/-- A record of the profile. -/
inductive Record
  | metadata (periodNs : ℚ)
  | finish (dropped dispatches : Option ℤ)
  | dispatch (s e : ℤ) (t0 t1 : Option ℤ)
  | other

/-- What the report has read: the period, the end record, the dispatches by submission and their number. -/
structure Profile (α : Type) where
  periodNs : Option ℚ
  finish : Option (Option ℤ × Option ℤ)
  subs : List (ℤ × List (α × ℤ))
  dispatches : ℤ

/-- One record of the profile; `duration` is the length of a period of ticks. -/
def readRecord (duration : ℤ → ℚ → α) (profile : Profile α) (record : Record) : Py (Profile α) :=
  if profile.finish.isSome then .error (.systemExit "UNQUALIFIED: records after end")
  else match record with
    | .metadata periodNs =>
      if profile.periodNs.isSome ∨ periodNs ≤ 0 then
        .error (.systemExit "UNQUALIFIED: duplicate or invalid meta")
      else .ok { profile with periodNs := some periodNs }
    | .finish dropped dispatches => .ok { profile with finish := some (dropped, dispatches) }
    | .dispatch s e t0 t1 =>
      match profile.periodNs, t0, t1 with
      | some periodNs, some t0, some t1 =>
        if t1 < t0 then .error (.systemExit "UNQUALIFIED: missing or invalid dispatch ticks")
        else .ok { profile with
          subs := assign profile.subs s ((find profile.subs s).getD [] ++ [(duration (t1 - t0) periodNs, e)])
          dispatches := profile.dispatches + 1 }
      | _, _, _ => .error (.systemExit "UNQUALIFIED: missing or invalid dispatch ticks")
    | .other => .ok profile

/-- What the producer says of its run. -/
structure Sidecar where
  passName : String
  outputsFinite : Bool
  walls : List (ℕ × ℕ × ℕ)

/-- `pass_curve_report`, up to the numbers it reports on: the medians with their qualification, and the events. -/
def passCurveReport (mean : α → α → α) (duration : ℤ → ℚ → α) (sidecar : Option Sidecar) (records : List Record)
    (plan : List PlanStep) : Py ((List (ℕ × List α) × String) × List (ℕ × List α)) :=
  match sidecar with
  | none => .error (.systemExit "UNQUALIFIED: producer sidecar required")
  | some ident =>
    if ident.passName ≠ "compiled-curve" ∨ ident.outputsFinite = false ∨
        ident.walls ≠ plan.map fun sp => (sp.block, sp.w, sp.steps) then
      .error (.systemExit "UNQUALIFIED: producer finite check or ordered plan mismatch")
    else do
      let profile ← records.foldlM (readRecord duration) ⟨none, none, [], 0⟩
      if profile.periodNs = none ∨ profile.finish ≠ some (some 0, some profile.dispatches) then
        .error (.systemExit "UNQUALIFIED: incomplete or dropped profile")
      else do
        let attributed ← attributeBySubmission mean profile.subs plan
        return (attributed, perWEvents profile.subs plan)

end Code

/-! ## The two orders -/

section Orders

variable [LinearOrder α]

omit [LinearOrder α] in
theorem id_singleton (s : ℤ) (duration : α) : (singleton s duration).id = s := rfl

omit [LinearOrder α] in
theorem fused_eq_some_iff {events : List (α × ℤ)} {duration : α} :
    fused events = some duration ↔ events = [(duration, fusedEnum)] := by
  constructor
  · intro h
    unfold fused at h
    split at h
    · split at h
      · rename_i he
        rw [Option.some.inj h, he]
      · cases h
    · cases h
  · rintro rfl
    rfl

/-- Submissions with smaller ids come first. -/
theorem le_of_id_lt {a b : Singleton α} (h : a.id < b.id) : a ≤ b :=
  Prod.Lex.le_iff.mpr (.inl h)

/-- The submission behind an id, if it is a single fused dispatch. -/
def singletonAt (subs : List (ℤ × List (α × ℤ))) (s : ℤ) : Option (Singleton α) :=
  ((find subs s).bind fused).map (singleton s)

omit [LinearOrder α] in
theorem id_of_singletonAt {s : ℤ} {single : Singleton α} (h : singletonAt subs s = some single) : single.id = s := by
  obtain ⟨duration, -, rfl⟩ := Option.map_eq_some_iff.mp h
  exact id_singleton s duration

omit [LinearOrder α] in
/-- The submissions behind the sorted ids are in the order of their ids. -/
theorem pairwise_singletonAt (hkeys : (subs.map Prod.fst).Nodup) :
    ((sorted (subs.map Prod.fst)).filterMap (singletonAt subs)).Pairwise fun a b => a.id < b.id := by
  have hle : (sorted (subs.map Prod.fst)).Pairwise (· ≤ ·) := List.pairwise_insertionSort _ _
  have hne : (sorted (subs.map Prod.fst)).Nodup := (List.perm_insertionSort _ _).nodup_iff.mpr hkeys
  have hlt : (sorted (subs.map Prod.fst)).Pairwise (· < ·) :=
    (hle.and hne).imp fun h => lt_of_le_of_ne h.1 h.2
  refine hlt.filterMap _ fun s t hst a ha b hb => ?_
  rw [id_of_singletonAt ha, id_of_singletonAt hb]
  exact hst

/-- The singletons are the submissions behind the sorted ids. -/
theorem singletons_eq (hkeys : (subs.map Prod.fst).Nodup) :
    singletons subs = (sorted (subs.map Prod.fst)).filterMap (singletonAt subs) := by
  have hentries : subs.filterMap (fun entry => (fused entry.2).map (singleton entry.1)) =
      (subs.map Prod.fst).filterMap (singletonAt subs) := by
    rw [List.filterMap_map]
    refine List.filterMap_congr fun entry hentry => ?_
    rw [Function.comp, singletonAt, (find_eq_some_iff hkeys).mpr hentry, Option.bind_some]
  have hperm : ((sorted (subs.map Prod.fst)).filterMap (singletonAt subs)).Perm
      (subs.filterMap fun entry => (fused entry.2).map (singleton entry.1)) := by
    rw [hentries]
    exact (List.perm_insertionSort (· ≤ ·) _).filterMap _
  rw [singletons, ← sorted_eq_of_perm hperm]
  exact ((pairwise_singletonAt hkeys).imp le_of_id_lt).insertionSort_eq

/-- The durations of the report are those of the measured submissions. -/
theorem measuredDurs_eq (hkeys : (subs.map Prod.fst).Nodup) (plan : List PlanStep) :
    measuredDurs subs plan = (measured subs plan).map Singleton.duration := by
  rw [measuredDurs, measured, singletons_eq hkeys, List.map_drop, List.map_filterMap]
  refine congrArg (List.drop _) (List.filterMap_congr fun s _ => ?_)
  rw [singletonAt, Option.map_map]
  exact Option.map_id'.symm

/-- The measured submissions are in the order of their ids. -/
theorem pairwise_measured (hkeys : (subs.map Prod.fst).Nodup) (plan : List PlanStep) :
    (measured subs plan).Pairwise fun a b => a.id < b.id := by
  rw [measured, singletons_eq hkeys]
  exact (pairwise_singletonAt hkeys).sublist (List.drop_sublist _ _)

/-- A single fused dispatch that is not before the first measured one is measured. -/
theorem mem_measured (hkeys : (subs.map Prod.fst).Nodup) {first : Singleton α} {rest : List (Singleton α)}
    (hmeasured : measured subs plan = first :: rest) {single : Singleton α} (hsingle : single ∈ singletons subs)
    (hle : first.id ≤ single.id) : single ∈ measured subs plan := by
  have hsplit := List.take_append_drop (warmCount plan) (singletons subs)
  rw [← hsplit, List.mem_append] at hsingle
  refine hsingle.resolve_left fun hwarm => ?_
  have hordered := pairwise_singletonAt hkeys
  rw [← singletons_eq hkeys, ← hsplit, List.pairwise_append] at hordered
  have hfirst : first ∈ (singletons subs).drop (warmCount plan) := by
    rw [← measured, hmeasured]
    exact List.mem_cons_self
  exact absurd (hordered.2.2 single hwarm first hfirst) (not_lt.mpr hle)

/-- The singletons of a map depend on its entries only. -/
theorem singletons_of_perm {other : List (ℤ × List (α × ℤ))} (h : other.Perm subs) :
    singletons other = singletons subs :=
  sorted_eq_of_perm (h.filterMap _)

end Orders

/-! ## The cut into segments -/

/-- The segments that a plan cuts from a position on. -/
def segments {β : Type} (durations : List β) : ℕ → List PlanStep → List (List β)
  | _, [] => []
  | pos, sp :: rest => slice durations pos sp.steps :: segments durations (pos + sp.steps) rest

section Segments

variable {durations : List α} {pos : ℕ}

/-- Segments that reach the end have all the durations behind the position, in order. -/
theorem flatten_segments (h : pos + (plan.map PlanStep.steps).sum = durations.length) :
    (segments durations pos plan).flatten = durations.drop pos := by
  induction plan generalizing pos with
  | nil =>
    rw [List.map_nil, List.sum_nil, Nat.add_zero] at h
    rw [h, List.drop_length]
    rfl
  | cons sp rest ih =>
    rw [List.map_cons, List.sum_cons, ← Nat.add_assoc] at h
    rw [segments, List.flatten_cons, ih h, slice, ← List.drop_drop, List.take_append_drop]

/-- Every segment has the length that the plan gives it. -/
theorem length_segments (h : pos + (plan.map PlanStep.steps).sum ≤ durations.length) :
    (segments durations pos plan).map List.length = plan.map PlanStep.steps := by
  induction plan generalizing pos with
  | nil => rfl
  | cons sp rest ih =>
    rw [List.map_cons, List.sum_cons, ← Nat.add_assoc] at h
    rw [segments, List.map_cons, List.map_cons, ih h, slice, List.length_take, List.length_drop]
    congr 1
    omega

variable [LinearOrder α]

/-- The loop over the plan files the medians of the segments under their weight counts. -/
theorem foldlM_attributeStep {table final : List (ℕ × List α) × ℕ}
    (h : plan.foldlM (attributeStep mean durations) table = .ok final) :
    ∃ medians, List.Forall₂ (fun segment value => median mean segment = .ok value)
        (segments durations table.2 plan) medians ∧
      final.1 = ((plan.map PlanStep.w).zip medians).foldl
        (fun table pair => assign table pair.1 ((find table pair.1).getD [] ++ [pair.2])) table.1 := by
  induction plan generalizing table with
  | nil =>
    obtain rfl := Except.ok.inj h
    exact ⟨[], .nil, rfl⟩
  | cons sp rest ih =>
    rw [List.foldlM_cons, bind_eq_ok] at h
    obtain ⟨next, hstep, hrest⟩ := h
    rw [attributeStep, bind_eq_ok] at hstep
    obtain ⟨value, hvalue, hnext⟩ := hstep
    obtain rfl := Except.ok.inj hnext
    obtain ⟨medians, hmedians, hfinal⟩ := ih hrest
    exact ⟨value :: medians, .cons hvalue hmedians, hfinal⟩

omit [LinearOrder α] in
/-- The loop of the report files the segments under their weight counts. -/
theorem foldl_eventsStep (table : List (ℕ × List α) × ℕ) :
    (plan.foldl (eventsStep durations) table).1 = ((plan.map PlanStep.w).zip (segments durations table.2 plan)).foldl
      (fun table pair => assign table pair.1 ((find table pair.1).getD [] ++ pair.2)) table.1 := by
  induction plan generalizing table with
  | nil => rfl
  | cons sp rest ih => exact ih (eventsStep durations table sp)

end Segments

section Attribution

variable [LinearOrder α] {byW : List (ℕ × List α)} {attr : String}

/-- The segments that the report cuts. -/
def reportSegments (subs : List (ℤ × List (α × ℤ))) (plan : List PlanStep) : List (List α) :=
  segments (measuredDurs subs plan) 0 plan

omit [LinearOrder α] in
/-- The events of the report are its segments, gathered by weight count. -/
theorem perWEvents_eq (subs : List (ℤ × List (α × ℤ))) (plan : List PlanStep) :
    perWEvents subs plan = gather ((plan.map PlanStep.w).zip (reportSegments subs plan)) :=
  foldl_eventsStep ([], 0)

/-- What holds when an attribution returns. -/
theorem attributeBySubmission_eq_ok (h : attributeBySubmission mean subs plan = .ok (byW, attr)) :
    (singletons subs).length = warmCount plan + (plan.map PlanStep.steps).sum ∧
      ∃ first rest, measured subs plan = first :: rest ∧
        (∀ entry ∈ subs, first.id ≤ entry.1 → (fused entry.2).isSome) ∧
        ∃ medians, List.Forall₂ (fun segment value => median mean segment = .ok value)
            (segments ((measured subs plan).map Singleton.duration) 0 plan) medians ∧
          byW = group ((plan.map PlanStep.w).zip medians) := by
  unfold attributeBySubmission at h
  split at h
  · simp at h
  dsimp only at h
  split at h
  · cases h
  rename_i hcount
  refine ⟨not_not.mp hcount, ?_⟩
  split at h
  · cases h
  rename_i first rest hmeasured
  split at h
  · cases h
  rename_i hforeign
  rw [bind_eq_ok] at h
  obtain ⟨final, hloop, hresult⟩ := h
  obtain ⟨medians, hmedians, hfinal⟩ := foldlM_attributeStep hloop
  refine ⟨first, rest, hmeasured, fun entry hentry hle => ?_, medians, hmedians, ?_⟩
  · by_contra hnone
    refine hforeign (List.any_eq_true.mpr ⟨entry, hentry, ?_⟩)
    rw [Bool.and_eq_true, decide_eq_true_eq]
    exact ⟨hle, by simpa using hnone⟩
  · rw [← (Prod.mk.inj (Except.ok.inj hresult)).1]
    exact hfinal

/-- An attribution depends on the entries of its map only. -/
theorem attributeBySubmission_of_perm {other : List (ℤ × List (α × ℤ))} (h : other.Perm subs) (plan : List PlanStep) :
    attributeBySubmission mean other plan = attributeBySubmission mean subs plan := by
  have hsingletons := singletons_of_perm h
  have hmeasured : measured other plan = measured subs plan := by
    rw [measured, hsingletons, measured]
  have hany (first : Singleton α) : (other.any fun entry => first.id ≤ entry.1 && (fused entry.2).isNone) =
      subs.any fun entry => first.id ≤ entry.1 && (fused entry.2).isNone := by
    rw [Bool.eq_iff_iff, List.any_eq_true, List.any_eq_true]
    exact exists_congr fun entry => and_congr_left' h.mem_iff
  unfold attributeBySubmission
  simp only [hsingletons, hmeasured, hany]

/-- An attribution that returns has cut the measured submissions, in the order of their ids, into the segments of the
plan; they are all the submissions from the first of them on, of one fused dispatch each; the order of the map does not
matter; and the medians are those of the segments that the report cuts once more. -/
theorem attributeBySubmission_partitions (hkeys : (subs.map Prod.fst).Nodup)
    (h : attributeBySubmission mean subs plan = .ok (byW, attr)) :
    ((segments ((measured subs plan).map Singleton.duration) 0 plan).flatten =
        (measured subs plan).map Singleton.duration ∧
      (segments ((measured subs plan).map Singleton.duration) 0 plan).map List.length = plan.map PlanStep.steps ∧
      (measured subs plan).Pairwise fun a b => a.id < b.id) ∧
      (∀ first ∈ (measured subs plan).head?, ∀ entry ∈ subs, first.id ≤ entry.1 →
        ∃ single ∈ measured subs plan, single.id = entry.1 ∧ entry.2 = [(single.duration, 412)]) ∧
      (∀ other, other.Perm subs → attributeBySubmission mean other plan = .ok (byW, attr)) ∧
      reportSegments subs plan = segments ((measured subs plan).map Singleton.duration) 0 plan ∧
      perWEvents subs plan = gather ((plan.map PlanStep.w).zip (reportSegments subs plan)) ∧
      ∃ medians, List.Forall₂ (fun segment value => median mean segment = .ok value)
          (reportSegments subs plan) medians ∧
        byW = group ((plan.map PlanStep.w).zip medians) := by
  obtain ⟨hcount, first, rest, hmeasured, hfused, medians, hmedians, hbyW⟩ := attributeBySubmission_eq_ok h
  have hsame : reportSegments subs plan = segments ((measured subs plan).map Singleton.duration) 0 plan := by
    rw [reportSegments, measuredDurs_eq hkeys]
  have hlength : 0 + (plan.map PlanStep.steps).sum = ((measured subs plan).map Singleton.duration).length := by
    rw [List.length_map, measured, List.length_drop, hcount]
    omega
  refine ⟨⟨?_, length_segments hlength.le, pairwise_measured hkeys plan⟩, ?_, fun other hperm => ?_, hsame,
    perWEvents_eq subs plan, medians, ?_, hbyW⟩
  · rw [flatten_segments hlength, List.drop_zero]
  · rw [hmeasured]
    rintro first' hfirst entry hentry hle
    obtain rfl := Option.some.inj hfirst
    obtain ⟨duration, hduration⟩ := Option.isSome_iff_exists.mp (hfused entry hentry hle)
    have hsingle : singleton entry.1 duration ∈ singletons subs := by
      rw [singletons, mem_sorted, List.mem_filterMap]
      exact ⟨entry, hentry, by rw [hduration, Option.map_some]⟩
    refine ⟨singleton entry.1 duration, ?_, rfl, fused_eq_some_iff.mp hduration⟩
    rw [← hmeasured]
    exact mem_measured hkeys hmeasured hsingle hle
  · rw [attributeBySubmission_of_perm hperm, h]
  · rw [hsame]
    exact hmedians

/-- Four submissions, flushed out of order; the first one is the warm-up and the second one no fused dispatch. -/
def flushed : List (ℤ × List (ℕ × ℤ)) := [(7, [(30, 412)]), (3, [(10, 412)]), (5, [(20, 412)]), (4, [(1, 400)])]

theorem attributeBySubmission_partitions_flushed :
    attributeBySubmission (fun a b => (a + b) / 2) flushed [⟨0, 1, 2⟩] =
        .ok ([(1, [25])], "QUALIFIED (s-order proven: 3 412 singletons = warm 1 + measured 2)") ∧
      (segments ((measured flushed [⟨0, 1, 2⟩]).map Singleton.duration) 0 [⟨0, 1, 2⟩]).flatten =
        (measured flushed [⟨0, 1, 2⟩]).map Singleton.duration := by
  have hattributed : attributeBySubmission (fun a b => (a + b) / 2) flushed [⟨0, 1, 2⟩] =
      .ok ([(1, [25])], "QUALIFIED (s-order proven: 3 412 singletons = warm 1 + measured 2)") := by decide
  exact ⟨hattributed, (attributeBySubmission_partitions (by decide) hattributed).1.1⟩

omit [LinearOrder α] in
/-- A record keeps the submissions apart. -/
theorem nodup_keys_readRecord {duration : ℤ → ℚ → α} {profile next : Profile α} {record : Record}
    (hkeys : (profile.subs.map Prod.fst).Nodup) (h : readRecord duration profile record = .ok next) :
    (next.subs.map Prod.fst).Nodup := by
  unfold readRecord at h
  split at h
  · cases h
  split at h
  · split at h
    · cases h
    · obtain rfl := Except.ok.inj h
      exact hkeys
  · obtain rfl := Except.ok.inj h
    exact hkeys
  · split at h
    · split at h
      · cases h
      · obtain rfl := Except.ok.inj h
        exact nodup_keys_assign hkeys _ _
    · cases h
  · obtain rfl := Except.ok.inj h
    exact hkeys

/-- A report is made of an attribution of the submissions it has read, and of its own events. -/
theorem passCurveReport_eq_ok {duration : ℤ → ℚ → α} {sidecar : Option Sidecar} {records : List Record}
    {events : List (ℕ × List α)}
    (h : passCurveReport mean duration sidecar records plan = .ok ((byW, attr), events)) :
    ∃ subs : List (ℤ × List (α × ℤ)), (subs.map Prod.fst).Nodup ∧
      attributeBySubmission mean subs plan = .ok (byW, attr) ∧ events = perWEvents subs plan := by
  have hread : Meets (records.foldlM (readRecord duration) ⟨none, none, [], 0⟩)
      (fun profile => (profile.subs.map Prod.fst).Nodup) fun _ => True :=
    Meets.foldlM _ _ _ List.nodup_nil fun profile hkeys record _ =>
      (Meets.returns (readRecord duration profile record)).mono fun _ hnext => nodup_keys_readRecord hkeys hnext
  unfold passCurveReport at h
  split at h
  · cases h
  split at h
  · cases h
  rw [bind_eq_ok] at h
  obtain ⟨profile, hprofile, h⟩ := h
  split at h
  · cases h
  rw [bind_eq_ok] at h
  obtain ⟨attributed, hattributed, h⟩ := h
  obtain ⟨rfl, rfl⟩ := Prod.mk.inj (Except.ok.inj h)
  exact ⟨profile.subs, hread.value hprofile, hattributed, rfl⟩

end Attribution

end AneLinux.Micro
