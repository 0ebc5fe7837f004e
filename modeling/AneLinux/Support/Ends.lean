import AneLinux.Support.Attempt

/-!
# How an attempt ends

A triple with two postconditions: from a state that meets the precondition, the attempt returns a value and a state
that meet the one, or raises an exception in a state that meets the other. The rules follow the constructs of an
attempt; what every ending leaves unchanged is framed (`Ends.frame`).
-/

namespace AneLinux.Support

open Attempt Direct

variable {σ ε α β : Type} {pre : σ → Prop} {x : Direct σ ε α} {post : α → σ → Prop} {fail : ε → σ → Prop}

/-- The ending of an attempt meets the postcondition that belongs to it. -/
def Ends (pre : σ → Prop) (x : Direct σ ε α) (post : α → σ → Prop) (fail : ε → σ → Prop) : Prop :=
  ∀ s, pre s → match x s with
    | (.ok a, s') => post a s'
    | (.error e, s') => fail e s'

theorem Ends.of_ok {s s' : σ} {a : α} (h : Ends pre x post fail) (hs : pre s) (hrun : x s = (.ok a, s')) :
    post a s' := by
  have hend := h s hs
  rwa [hrun] at hend

variable {e : ε} {f : α → Direct σ ε β} {inv : σ → Prop}

theorem Ends.of_error {s s' : σ} (h : Ends pre x post fail) (hs : pre s) (hrun : x s = (.error e, s')) :
    fail e s' := by
  have hend := h s hs
  rwa [hrun] at hend

theorem Ends.pure {a : α} (h : ∀ s, pre s → post a s) : Ends pre (Pure.pure a : Direct σ ε α) post fail := h

theorem Ends.raise (h : ∀ s, pre s → fail e s) : Ends pre (Attempt.raise e : Direct σ ε α) post fail := h

theorem Ends.change {g : σ → σ} {post : Unit → σ → Prop} (h : ∀ s, pre s → post () (g s)) :
    Ends pre (Attempt.change g : Direct σ ε Unit) post fail := h

theorem Ends.orRaise {o : Option α} (h : ∀ a, o = some a → ∀ s, pre s → post a s)
    (hfail : o = none → ∀ s, pre s → fail e s) : Ends pre (Attempt.orRaise e o : Direct σ ε α) post fail := by
  cases o with
  | some a => exact Ends.pure (h a rfl)
  | none => exact Ends.raise (hfail rfl)

/-- An option, first in its sequence: what follows knows what was there. -/
theorem Ends.orRaise_bind {o : Option α} {post : β → σ → Prop} (h : ∀ a, o = some a → Ends pre (f a) post fail)
    (hfail : ∀ s, pre s → fail e s) : Ends pre (Attempt.orRaise e o >>= f) post fail := by
  cases o with
  | some a => exact h a rfl
  | none => exact fun s hs => hfail s hs

/-- A call, first in its sequence. -/
theorem Ends.call_bind {r : Except ε α} {post : β → σ → Prop} (h : ∀ a, Ends pre (f a) post fail)
    (hfail : ∀ e, r = .error e → ∀ s, pre s → fail e s) : Ends pre (Attempt.call (m := Id) r >>= f) post fail := by
  cases r with
  | ok a => exact fun s hs => h a s hs
  | error e => exact fun s hs => hfail e rfl s hs

/-- A read, first in its sequence. -/
theorem Ends.reads_bind {g : σ → α} {post : β → σ → Prop}
    (h : ∀ s, pre s → Ends (fun s' => s' = s) (f (g s)) post fail) :
    Ends pre (Attempt.reads g >>= f) post fail := fun s hs => h s hs s rfl

/-- Sequencing. -/
theorem Ends.bind {post' : β → σ → Prop} (hx : Ends pre x post fail) (hf : ∀ a, Ends (post a) (f a) post' fail) :
    Ends pre (x >>= f) post' fail := by
  intro s hs
  rcases hrun : x s with ⟨e | a, s'⟩
  · rw [bind_of_error hrun]
    exact hx.of_error hs hrun
  · rw [bind_of_ok hrun]
    exact hf a s' (hx.of_ok hs hrun)

/-- Consequence. -/
theorem Ends.conseq {pre' : σ → Prop} {post' : α → σ → Prop} (h : Ends pre x post fail)
    (hpre : ∀ s, pre' s → pre s) (hpost : ∀ a s, post a s → post' a s) : Ends pre' x post' fail := by
  intro s hs
  rcases hrun : x s with ⟨e | a, s'⟩
  · exact h.of_error (hpre s hs) hrun
  · exact hpost a s' (h.of_ok (hpre s hs) hrun)

/-- A fact that is not about the state is known from there on. -/
theorem Ends.of_fact {p : Prop} (h : p → Ends pre x post fail) : Ends (fun s => pre s ∧ p) x post fail :=
  fun s hs => h hs.2 s hs.1

/-- The frame rule: what every ending keeps stays beside the postcondition. -/
theorem Ends.frame (h : Ends pre x post fail) (hx : Keeps inv x) :
    Ends (fun s => pre s ∧ inv s) x (fun a s => post a s ∧ inv s) fail := by
  rintro s ⟨hs, hinv⟩
  have hkeep := hx s hinv
  rcases hrun : x s with ⟨e | a, s'⟩
  · exact h.of_error hs hrun
  · rw [hrun] at hkeep
    exact ⟨h.of_ok hs hrun, hkeep⟩

/-- A loop: what a round establishes for its element is kept by the later ones. -/
theorem Ends.each {reached : α → σ → Prop} {f : α → Direct σ ε Unit} (elements : List α)
    (h : ∀ a ∈ elements, Ends inv (f a) (fun _ s => inv s ∧ reached a s) fail)
    (hkeep : ∀ a b, Keeps (reached a) (f b)) :
    Ends inv (Attempt.each f elements) (fun _ s => inv s ∧ ∀ a ∈ elements, reached a s) fail := by
  induction elements with
  | nil => exact Ends.pure fun s hs => ⟨hs, fun a ha => absurd ha List.not_mem_nil⟩
  | cons a rest ih =>
    refine (h a List.mem_cons_self).bind fun _ => ?_
    have hrest := (ih fun b hb => h b (List.mem_cons_of_mem a hb)).frame
      (Keeps.each rest fun b _ => hkeep a b)
    refine hrest.conseq (fun s hs => hs) fun _ s hs => ⟨hs.1.1, fun b hb => ?_⟩
    rcases List.mem_cons.mp hb with rfl | hb
    · exact hs.2
    · exact hs.1.2 b hb

/-- A loop that collects a value a round. -/
theorem Ends.collect {reached : α → σ → Prop} (elements : List α)
    (h : ∀ a ∈ elements, Ends inv (f a) (fun _ s => inv s ∧ reached a s) fail)
    (hkeep : ∀ a b, Keeps (reached a) (f b)) :
    Ends inv (Attempt.collect f elements) (fun _ s => inv s ∧ ∀ a ∈ elements, reached a s) fail := by
  induction elements with
  | nil => exact Ends.pure fun s hs => ⟨hs, fun a ha => absurd ha List.not_mem_nil⟩
  | cons a rest ih =>
    refine (h a List.mem_cons_self).bind fun b => ?_
    have hrest := (ih fun b hb => h b (List.mem_cons_of_mem a hb)).frame
      (Keeps.collect rest fun b _ => hkeep a b)
    refine (hrest.conseq (fun s hs => hs) fun bs s hs => hs).bind fun bs => Ends.pure fun s hs => ?_
    refine ⟨hs.1.1, fun b hb => ?_⟩
    rcases List.mem_cons.mp hb with rfl | hb
    · exact hs.2
    · exact hs.1.2 b hb

end AneLinux.Support
