import Mathlib.Data.List.TakeWhile

/-!
# Looking back in a stream

A position of a stream is processed with a view of what lies behind it: at most `n` elements, most recent
first, up to the last one that stops the view. A stream that arrives in pieces is processed with what is
kept of the piece before. `Covers` says when the last piece alone is as good as the whole past:
`lookback_of_covers` is one direction, `covers_of_lookback` the other.
-/

namespace AneLinux.Support

variable {α β : Type*} (stop : α → Bool) (n : ℕ)

/-- The view of a past, given with the most recent element first. -/
def lookback (past : List α) : List α := (past.take n).takeWhile fun a => !stop a

/-- Every element of a stream with the view behind it. -/
def scanBack (f : List α → α → β) : List α → List α → List β
  | _, [] => []
  | past, a :: rest => f (lookback stop n past) a :: scanBack f (a :: past) rest

variable {stop n} {f : List α → α → β} {past past' pad recent last earlier : List α}

/-- At most `n` elements are looked back at. -/
theorem lookback_length_le : (lookback stop n past).length ≤ n :=
  (List.takeWhile_prefix _).length_le.trans (List.length_take_le n past)

theorem lookback_length_le_past : (lookback stop n past).length ≤ past.length :=
  (List.takeWhile_prefix _).length_le.trans (List.length_take_le' n past)

variable {a : α} {p : α → Bool} {i : ℕ}

theorem not_stop_of_mem_lookback (h : a ∈ lookback stop n past) : stop a = false := by
  have ha := List.mem_takeWhile_imp (p := fun a => !stop a) h
  exact Bool.not_eq_true' (stop a) ▸ ha

theorem getElem?_takeWhile_of_forall {xs : List α} (h : ∀ j ≤ i, ∀ a, xs[j]? = some a → p a = true) :
    (xs.takeWhile p)[i]? = xs[i]? := by
  induction xs generalizing i with
  | nil => rfl
  | cons a xs ih =>
    rw [List.takeWhile_cons_of_pos (h 0 (Nat.zero_le i) a rfl)]
    cases i with
    | zero => rfl
    | succ i => exact ih fun j hj b hb => h (j + 1) (Nat.succ_le_succ hj) b hb

theorem getElem?_takeWhile_of_not {xs : List α} {j : ℕ} (hj : j ≤ i) (ha : xs[j]? = some a) (hp : p a = false) :
    (xs.takeWhile p)[i]? = none := by
  induction xs generalizing i j with
  | nil => rfl
  | cons b xs ih =>
    by_cases hb : p b = true
    · rw [List.takeWhile_cons_of_pos hb]
      cases j with
      | zero =>
        rw [← Option.some.inj ha, hb] at hp
        cases hp
      | succ j =>
        cases i with
        | zero => omega
        | succ i => exact ih (Nat.le_of_succ_le_succ hj) ha
    · rw [List.takeWhile_cons_of_neg hb, List.getElem?_nil]

/-- An element is in view if no element up to it stops the view. -/
theorem getElem?_lookback_of_forall (hi : i < n) (h : ∀ j ≤ i, ∀ a, past[j]? = some a → stop a = false) :
    (lookback stop n past)[i]? = past[i]? := by
  have htake : (past.take n)[i]? = past[i]? := List.getElem?_take_of_lt hi
  rw [← htake]
  refine getElem?_takeWhile_of_forall fun j hj a ha => ?_
  rw [List.getElem?_take_of_lt (by omega)] at ha
  rw [h j hj a ha]
  rfl

/-- Nothing is seen past a stop. -/
theorem getElem?_lookback_of_stop {j : ℕ} (hi : i < n) (hj : j ≤ i) (ha : past[j]? = some a) (hstop : stop a = true) :
    (lookback stop n past)[i]? = none := by
  refine getElem?_takeWhile_of_not hj (a := a) ?_ ?_
  · rw [List.getElem?_take_of_lt (by omega), ha]
  · rw [hstop]
    rfl

/-- More than `n` elements are never seen. -/
theorem lookback_append_take : lookback stop n (recent ++ past.take n) = lookback stop n (recent ++ past) := by
  unfold lookback
  rw [List.take_append, List.take_append, List.take_take, Nat.min_eq_left (Nat.sub_le _ _)]

theorem takeWhile_append_of_stops (h : ∀ a ∈ pad, p a = false) : (past ++ pad).takeWhile p = past.takeWhile p := by
  induction past with
  | nil =>
    cases pad with
    | nil => rfl
    | cons a pad =>
      have ha : ¬ p a = true := by rw [h a List.mem_cons_self]; exact Bool.false_ne_true
      exact List.takeWhile_cons_of_neg ha
  | cons a past ih => rw [List.cons_append, List.takeWhile_cons, List.takeWhile_cons, ih]

/-- Elements that stop the view are as good as none. -/
theorem lookback_append_stops (h : ∀ a ∈ pad, stop a = true) :
    lookback stop n (past ++ pad) = lookback stop n past := by
  unfold lookback
  rw [List.take_append]
  refine takeWhile_append_of_stops fun a ha => ?_
  rw [h a (List.mem_of_mem_take ha)]
  rfl

/-- A stop hides everything before it. -/
theorem lookback_append_of_mem (ha : a ∈ last) (hstop : stop a = true) :
    lookback stop n (last ++ earlier) = lookback stop n last := by
  unfold lookback
  rw [List.take_append]
  rcases Nat.lt_or_ge n last.length with hn | hn
  · rw [Nat.sub_eq_zero_of_le hn.le, List.take_zero, List.append_nil]
  · rw [List.take_of_length_le hn, List.takeWhile_append, if_neg]
    intro hall
    have hself := List.takeWhile_eq_self_iff.mp ((List.takeWhile_prefix _).eq_of_length hall) a ha
    rw [hstop] at hself
    exact Bool.false_ne_true hself

/-- The last piece shows as much as the whole past: it has `n` elements or a stop, or nothing or a stop comes
right before it. -/
def Covers (stop : α → Bool) (n : ℕ) (last earlier : List α) : Prop :=
  n ≤ last.length ∨ (∃ a ∈ last, stop a = true) ∨ ∀ a ∈ earlier.head?, stop a = true

/-- What is covered is not seen. -/
theorem lookback_of_covers (h : Covers stop n last earlier) :
    lookback stop n (recent ++ (last ++ earlier)) = lookback stop n (recent ++ last) := by
  rw [← List.append_assoc]
  rcases h with hlength | ⟨a, ha, hstop⟩ | hhead
  · unfold lookback
    rw [List.take_append_of_le_length]
    rw [List.length_append]
    omega
  · exact lookback_append_of_mem (List.mem_append_right _ ha) hstop
  · cases earlier with
    | nil => rw [List.append_nil]
    | cons a earlier =>
      have hstop : ∀ b ∈ [a], stop b = true := fun b hb => by
        rw [List.mem_singleton.mp hb]
        exact hhead a rfl
      have ha : lookback stop n (recent ++ last ++ [a] ++ earlier) = lookback stop n (recent ++ last ++ [a]) :=
        lookback_append_of_mem (List.mem_append_right _ (List.mem_singleton_self a))
          (hstop a (List.mem_singleton_self a))
      rw [List.append_cons, ha, lookback_append_stops hstop]

/-- Where it does not, the view right behind the last piece differs. -/
theorem covers_of_lookback (h : lookback stop n (last ++ earlier) = lookback stop n last) :
    Covers stop n last earlier := by
  by_contra hcovers
  rw [Covers, not_or, not_or] at hcovers
  obtain ⟨hlength, hlast, hhead⟩ := hcovers
  cases earlier with
  | nil => exact hhead fun a ha => by cases ha
  | cons a earlier =>
    have ha : (!stop a) = true := by
      rw [Bool.not_eq_true', Bool.eq_false_iff]
      exact fun hstop => hhead fun b hb => Option.some.inj hb ▸ hstop
    have hclear : ∀ b ∈ last, (!stop b) = true := fun b hb => by
      rw [Bool.not_eq_true', Bool.eq_false_iff]
      exact fun hstop => hlast ⟨b, hb, hstop⟩
    obtain ⟨k, hk⟩ := Nat.exists_eq_add_of_lt (Nat.lt_of_not_le hlength)
    have hshort : lookback stop n last = last := by
      unfold lookback
      rw [List.take_of_length_le (Nat.le_of_not_le hlength)]
      exact List.takeWhile_eq_self_iff.mpr hclear
    have hlong : lookback stop n (last ++ a :: earlier) =
        last ++ a :: (earlier.take k).takeWhile fun b => !stop b := by
      unfold lookback
      rw [List.take_append, List.take_of_length_le (Nat.le_of_not_le hlength),
        List.takeWhile_append_of_pos hclear, hk, Nat.add_assoc, Nat.add_sub_cancel_left, List.take_succ_cons,
        List.takeWhile_cons, if_pos ha]
    rw [hshort, hlong] at h
    exact List.cons_ne_nil _ _ (List.append_cancel_left (h.trans last.append_nil.symm))

theorem scanBack_length (past xs : List α) : (scanBack stop n f past xs).length = xs.length := by
  induction xs generalizing past with
  | nil => rfl
  | cons a xs ih => rw [scanBack, List.length_cons, List.length_cons, ih]

/-- The result at a position. -/
theorem getElem?_scanBack (past xs : List α) (i : ℕ) : (scanBack stop n f past xs)[i]? =
    xs[i]?.map (f (lookback stop n ((xs.take i).reverse ++ past))) := by
  induction xs generalizing past i with
  | nil => rfl
  | cons a xs ih =>
    cases i with
    | zero => rfl
    | succ i =>
      rw [scanBack, List.getElem?_cons_succ, List.getElem?_cons_succ, ih, List.take_succ_cons, List.reverse_cons,
        List.append_assoc, List.singleton_append]

/-- The second part of a stream has the first one behind it. -/
theorem scanBack_append (past xs ys : List α) : scanBack stop n f past (xs ++ ys) =
    scanBack stop n f past xs ++ scanBack stop n f (xs.reverse ++ past) ys := by
  induction xs generalizing past with
  | nil => rfl
  | cons a xs ih =>
    rw [List.cons_append, scanBack, scanBack, ih, List.cons_append, List.reverse_cons, List.append_assoc]
    rfl

/-- Pasts that look the same behind every position give the same. -/
theorem scanBack_congr (h : ∀ recent, lookback stop n (recent ++ past) = lookback stop n (recent ++ past'))
    (xs : List α) : scanBack stop n f past xs = scanBack stop n f past' xs := by
  induction xs generalizing past past' with
  | nil => rfl
  | cons a xs ih =>
    have htail : ∀ recent, lookback stop n (recent ++ a :: past) = lookback stop n (recent ++ a :: past') := by
      intro recent
      rw [List.append_cons recent a past, List.append_cons recent a past']
      exact h (recent ++ [a])
    rw [scanBack, scanBack, ih htail, show lookback stop n past = lookback stop n past' from h []]

end AneLinux.Support
