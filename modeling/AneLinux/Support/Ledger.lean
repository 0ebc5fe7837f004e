import AneLinux.Support.Attempt

/-!
# Acquisitions that fail, and scopes that clean up

A ledger counts what has been acquired, in order, and logs what has been released. One acquisition fails, the one with
a given number. `Constructs` says of a computation how many things it acquires when it returns, and what it has released
by itself when that acquisition failed inside it. A scope keeps the acquired things on a stack and releases them, last
first, when an exception that it catches leaves it.
-/

namespace AneLinux.Support

open Attempt

/-- How many things have been asked for, and what has been released. -/
structure Ledger where
  acquired : ℕ
  released : List ℕ
deriving DecidableEq

variable {ε α β : Type} {n start k l : ℕ} {e : ε} {holds : α → Prop} {f : α → Direct Ledger ε β} {holds' : β → Prop}
  {freed : List ℕ}

namespace Ledger

/-- Acquire one more thing; the one with number `n` raises. -/
def acquire (n : ℕ) (e : ε) : Direct Ledger ε ℕ := fun s =>
  if s.acquired = n then (.error e, { s with acquired := n + 1 })
  else (.ok s.acquired, { s with acquired := s.acquired + 1 })

/-- Release some things, one after another. -/
def release (things : List ℕ) (s : Ledger) : Ledger := { s with released := s.released ++ things }

/-- From `start` acquisitions a computation returns after `k` more; when number `n` is one of these, it raises with the
things `freed` released. It may also raise for another reason, before it has come to number `n`. -/
def Constructs (n : ℕ) (e : ε) (start : ℕ) (x : Direct Ledger ε α) (k : ℕ) (holds : α → Prop) (freed : List ℕ) : Prop :=
  ∀ s : Ledger, s.acquired = start → start ≤ n → match x s with
    | (.ok a, s') => start + k ≤ n ∧ s' = { s with acquired := start + k } ∧ holds a
    | (.error d, s') =>
      s'.acquired ≤ n ∨ (d = e ∧ n < start + k ∧ s' = { acquired := n + 1, released := s.released ++ freed })

theorem Constructs.pure {a : α} (h : holds a) : Constructs n e start (Pure.pure a : Direct Ledger ε α) 0 holds [] := by
  rintro s rfl hle
  exact ⟨hle, rfl, h⟩

/-- A step that acquires nothing. -/
theorem Constructs.call (r : Except ε α) :
    Constructs n e start (Attempt.call (m := Id) r : Direct Ledger ε α) 0 (fun _ => True) [] := by
  rintro s rfl hle
  cases r with
  | ok a => exact ⟨hle, rfl, trivial⟩
  | error d => exact .inl hle

theorem Constructs.acquire : Constructs n e start (Ledger.acquire n e) 1 (fun thing => thing = start) [] := by
  rintro s rfl hle
  rw [Ledger.acquire]
  by_cases hn : s.acquired = n
  · rw [if_pos hn]
    exact .inr ⟨rfl, by omega, by rw [List.append_nil]⟩
  · rw [if_neg hn]
    exact ⟨by omega, rfl, rfl⟩

/-- Sequencing: what is released depends on the half that number `n` falls in. -/
theorem Constructs.bind {x : Direct Ledger ε α} {freed' result : List ℕ} (hx : Constructs n e start x k holds freed)
    (hf : ∀ a, holds a → Constructs n e (start + k) (f a) l holds' freed')
    (hfirst : start ≤ n → n < start + k → result = freed)
    (hsecond : start + k ≤ n → n < start + k + l → result = freed') :
    Constructs n e start (x >>= f) (k + l) holds' result := by
  intro s hs hle
  have hleft := hx s hs hle
  rcases hrun : x s with ⟨outcome, s'⟩
  rw [hrun] at hleft
  cases outcome with
  | ok a =>
    obtain ⟨hroom, rfl, ha⟩ := hleft
    have hright := hf a ha { s with acquired := start + k } rfl hroom
    rw [Direct.bind_of_ok hrun]
    rcases hrest : f a { s with acquired := start + k } with ⟨outcome, s''⟩
    rw [hrest] at hright
    cases outcome with
    | ok b =>
      rw [← Nat.add_assoc]
      exact hright
    | error d =>
      rcases hright with hother | ⟨hd, hlt, hfreed⟩
      · exact .inl hother
      · rw [← Nat.add_assoc, hsecond hroom hlt]
        exact .inr ⟨hd, hlt, hfreed⟩
  | error d =>
    rw [Direct.bind_of_error hrun]
    rcases hleft with hother | ⟨hd, hlt, hfreed⟩
    · exact .inl hother
    · rw [hfirst hle hlt]
      exact .inr ⟨hd, by omega, hfreed⟩

/-- A step that acquires nothing goes before. -/
theorem Constructs.call_bind {r : Except ε α} {holds : β → Prop} (hf : ∀ a, Constructs n e start (f a) l holds freed) :
    Constructs n e start ((Attempt.call (m := Id) r : Direct Ledger ε α) >>= f) l holds freed := by
  have hbind : Constructs n e start ((Attempt.call (m := Id) r : Direct Ledger ε α) >>= f) (0 + l) holds freed :=
    (Constructs.call r).bind (fun a _ => hf a) (fun _ _ => by omega) fun _ _ => rfl
  rwa [Nat.zero_add] at hbind

/-- An acquisition goes before, and is not released. -/
theorem Constructs.acquire_bind {f : ℕ → Direct Ledger ε β} {holds : β → Prop}
    (hf : Constructs n e (start + 1) (f start) l holds []) :
    Constructs n e start (Ledger.acquire n e >>= f) (1 + l) holds [] :=
  Constructs.acquire.bind (fun _ hthing => hthing ▸ hf) (fun _ _ => rfl) fun _ _ => rfl

/-- A step that acquires nothing goes behind. -/
theorem Constructs.bind_step {x : Direct Ledger ε α} (hx : Constructs n e start x k holds freed)
    (hf : ∀ a, holds a → Constructs n e (start + k) (f a) 0 holds' []) :
    Constructs n e start (x >>= f) k holds' freed :=
  hx.bind hf (fun _ _ => rfl) fun _ _ => by omega

end Ledger

/-- A ledger inside a scope, and the things that the scope has to release. -/
structure Scope where
  ledger : Ledger
  stack : List ℕ

namespace Scope

open Ledger

/-- Acquire one more thing and put it on the stack. -/
def enter (n : ℕ) (e : ε) : Direct Scope ε ℕ := fun t =>
  match acquire n e t.ledger with
  | (.ok thing, s) => (.ok thing, ⟨s, t.stack ++ [thing]⟩)
  | (.error d, s) => (.error d, ⟨s, t.stack⟩)

/-- Run a body in a scope of its own. An exception that the scope catches is raised again behind the releases. -/
def guarded (catches : ε → Bool) (body : Direct Scope ε α) : Direct Ledger ε (α × List ℕ) := fun s =>
  match body ⟨s, []⟩ with
  | (.ok a, t) => (.ok (a, t.stack), t.ledger)
  | (.error d, t) => (.error d, if catches d then t.ledger.release t.stack.reverse else t.ledger)

/-- From `start` acquisitions the body of a scope puts `k` more on its stack, or those before number `n`. -/
def Enters (n : ℕ) (e : ε) (start : ℕ) (body : Direct Scope ε α) (k : ℕ) (holds : α → Prop) : Prop :=
  ∀ t : Scope, t.ledger.acquired = start → start ≤ n → match body t with
    | (.ok a, t') => start + k ≤ n ∧
      t' = ⟨{ t.ledger with acquired := start + k }, t.stack ++ List.range' start k⟩ ∧ holds a
    | (.error d, t') => t'.ledger.acquired ≤ n ∨ (d = e ∧ n < start + k ∧
      t' = ⟨{ t.ledger with acquired := n + 1 }, t.stack ++ List.range' start (n - start)⟩)

theorem Enters.pure {a : α} (h : holds a) : Enters n e start (Pure.pure a : Direct Scope ε α) 0 holds := by
  rintro t rfl hle
  refine ⟨hle, ?_, h⟩
  rw [List.range'_zero, List.append_nil]
  rfl

/-- A step that acquires nothing. -/
theorem Enters.call (r : Except ε α) :
    Enters n e start (Attempt.call (m := Id) r : Direct Scope ε α) 0 fun _ => True := by
  rintro t rfl hle
  cases r with
  | ok a =>
    refine ⟨hle, ?_, trivial⟩
    rw [List.range'_zero, List.append_nil]
    rfl
  | error d => exact .inl hle

theorem Enters.enter : Enters n e start (Scope.enter n e) 1 fun thing => thing = start := by
  rintro t rfl hle
  rw [Scope.enter, acquire]
  by_cases hn : t.ledger.acquired = n
  · rw [if_pos hn]
    refine .inr ⟨rfl, by omega, ?_⟩
    rw [hn, Nat.sub_self, List.range'_zero, List.append_nil]
  · rw [if_neg hn]
    exact ⟨by omega, rfl, rfl⟩

/-- Sequencing. -/
theorem Enters.bind {x : Direct Scope ε α} {f : α → Direct Scope ε β} (hx : Enters n e start x k holds)
    (hf : ∀ a, holds a → Enters n e (start + k) (f a) l holds') : Enters n e start (x >>= f) (k + l) holds' := by
  intro t ht hle
  have hfirst := hx t ht hle
  rcases hrun : x t with ⟨outcome, t'⟩
  rw [hrun] at hfirst
  cases outcome with
  | ok a =>
    obtain ⟨hroom, rfl, ha⟩ := hfirst
    have hsecond := hf a ha ⟨{ t.ledger with acquired := start + k }, t.stack ++ List.range' start k⟩ rfl hroom
    rw [Direct.bind_of_ok hrun]
    rcases hrest : f a ⟨{ t.ledger with acquired := start + k }, t.stack ++ List.range' start k⟩ with ⟨outcome, t''⟩
    rw [hrest] at hsecond
    cases outcome with
    | ok b =>
      obtain ⟨hroom', rfl, hb⟩ := hsecond
      refine ⟨by omega, ?_, hb⟩
      rw [List.append_assoc, List.range'_append_1, Nat.add_assoc]
    | error d =>
      rcases hsecond with hother | ⟨hd, hlt, rfl⟩
      · exact .inl hother
      · refine .inr ⟨hd, by omega, ?_⟩
        have hsplit : n - start = k + (n - (start + k)) := by omega
        rw [hsplit, List.append_assoc, List.range'_append_1]
  | error d =>
    rw [Direct.bind_of_error hrun]
    rcases hfirst with hother | ⟨hd, hlt, ht'⟩
    · exact .inl hother
    · exact .inr ⟨hd, by omega, ht'⟩

/-- A scope constructs what its body enters, and releases it, last first, if it catches the exception. -/
theorem Enters.guarded {body : Direct Scope ε α} (h : Enters n e start body k holds) (catches : ε → Bool) :
    Constructs n e start (Scope.guarded catches body) k (fun r => holds r.1 ∧ r.2 = List.range' start k)
      (if catches e then (List.range' start (n - start)).reverse else []) := by
  intro s hs hle
  have hbody := h ⟨s, []⟩ hs hle
  rw [Scope.guarded]
  rcases hrun : body ⟨s, []⟩ with ⟨outcome, t⟩
  rw [hrun] at hbody
  cases outcome with
  | ok a =>
    obtain ⟨hroom, rfl, ha⟩ := hbody
    exact ⟨hroom, rfl, ha, List.nil_append _⟩
  | error d =>
    rcases hbody with hother | ⟨rfl, hlt, rfl⟩
    · left
      split
      · exact hother
      · exact hother
    · refine .inr ⟨rfl, hlt, ?_⟩
      split
      · rfl
      · rw [List.append_nil]

end Scope

end AneLinux.Support
