import AneLinux.Encoder.PipelineOrder

/-!
# A pipelined pass delivers what a direct one does

In-process, a submit returns the arrays; pipelined, it returns futures, which are waited for and replaced when they
are first read. The two passes are related by resolving each future in the table through the outcome of its own job.
While no submit has failed they agree step by step, and a pipelined pass reads futures of issued jobs alone.
-/

namespace AneLinux.Encoder

open AneLinux.Support Attempt Direct

/-- An entry of the table: an array or a pending submit. -/
inductive Entry (V : Type)
  | array (v : V)
  | future (job output : ℕ)

variable {ν V M α β γ : Type} {issued before : List (Job V)} {e : Entry V} {v : V} {q : Pass Id ν V M α}
  {p : Pass (Main V) ν (Entry V) M β} {device : Job V → Except String (ℕ → V)} {s : Runner ν V M}
  {st : Runner ν (Entry V) M × World V}

section Backends

variable (device : Job V → Except String (ℕ → V))

/-- The error of a submit, as a pass raises it. -/
def deviceError (e : String) : Err ν := .device e

/-- In-process: a submit returns its arrays. -/
def direct : Backend Id ν V V where
  ofArray := id
  array := some
  wait := fun v => .ok v
  submit := fun job => (device job).mapError deviceError

/-- Pipelined: a submit returns one future for each output. -/
def pipelined : Backend (Main V) ν V (Entry V) where
  ofArray := .array
  array := fun e => match e with
    | .array v => some v
    | .future _ _ => none
  wait := fun e => match e with
    | .array v => .finish (.ok v)
    | .future k output => .read k output fun r => .finish (r.mapError deviceError)
  submit := fun job => .submit job fun k => .finish (.ok fun output => .future k output)

end Backends

section Resolved

variable (device : Job V → Except String (ℕ → V))

/-- A pipelined attempt with every future read from its own job. -/
def resolved (p : Pass (Main V) ν (Entry V) M α) : Direct (Runner ν (Entry V) M × World V) (Err ν) α := fun st =>
  let r := resolve device (p st.1) st.2
  (r.1.1, (r.1.2, r.2))

/-- Resolving goes through a sequence of two passes. -/
theorem resolved_bind (p : Pass (Main V) ν (Entry V) M α) (f : α → Pass (Main V) ν (Entry V) M β) :
    resolved device (p >>= f) = resolved device p >>= fun a => resolved device (f a) := by
  funext st
  have hsplit : resolve device ((p >>= f) st.1) st.2 = _ := resolve_andThen device (p st.1) _ st.2
  rcases hp : resolve device (p st.1) st.2 with ⟨⟨outcome, s⟩, w⟩
  rw [hp] at hsplit
  have hfirst : resolved device p st = (outcome, (s, w)) := by
    simp only [resolved, hp]
  have hboth : resolved device (p >>= f) st =
      ((resolve device ((p >>= f) st.1) st.2).1.1, (resolve device ((p >>= f) st.1) st.2).1.2,
        (resolve device ((p >>= f) st.1) st.2).2) := rfl
  rw [hboth, hsplit]
  cases outcome with
  | ok a =>
    rw [bind_of_ok hfirst]
    rfl
  | error e =>
    rw [bind_of_error hfirst]
    rfl

/-- Resolving goes through a collecting loop. -/
theorem resolved_collect (f : γ → Pass (Main V) ν (Entry V) M α) (elements : List γ) :
    resolved device (collect f elements) = collect (fun c => resolved device (f c)) elements := by
  induction elements with
  | nil => rfl
  | cons c rest ih =>
    simp only [collect, resolved_bind, ih]
    rfl

/-- Resolving goes through a loop. -/
theorem resolved_each (f : γ → Pass (Main V) ν (Entry V) M Unit) (elements : List γ) :
    resolved device (each f elements) = each (fun c => resolved device (f c)) elements := by
  induction elements with
  | nil => rfl
  | cons c rest ih =>
    simp only [each, resolved_bind, ih]

/-- Some submit failed. -/
def SubmitFails (st : Runner ν (Entry V) M × World V) : Prop := ∃ job ∈ st.2.issued, ∃ e, device job = .error e

/-- A failed submit stays one. -/
theorem keeps_submitFails (p : Pass (Main V) ν (Entry V) M α) :
    Keeps (SubmitFails device) (resolved device p) := by
  rintro st ⟨job, hjob, hfails⟩
  exact ⟨job, (resolve_grows device (p st.1) st.2).1.subset hjob, hfails⟩

end Resolved

section Linking

variable (device : Job V → Except String (ℕ → V))

/-- An entry stands for an array: it is the array, or a future of an issued job whose output it is. -/
def Delivers (issued : List (Job V)) : Entry V → V → Prop
  | .array w, v => w = v
  | .future k output, v => InScope issued k output ∧ answer device issued k output = .ok v

/-- A job issued stays issued. -/
theorem Delivers.append (h : Delivers device issued e v) (more : List (Job V)) :
    Delivers device (issued ++ more) e v := by
  cases e with
  | array w => exact h
  | future k output => exact ⟨h.1.append more, by rw [answer_append device h.1, h.2]⟩

/-- Two entries of a table or of what is kept: the same name, and the one stands for the other. -/
def Stands (issued : List (Job V)) (a : ν × V) (b : ν × Entry V) : Prop := a.1 = b.1 ∧ Delivers device issued b.2 a.2

/-- What is kept, under what has been issued since. -/
theorem stands_grown {issued' : List (Job V)} (h : issued <+: issued') {keep : List (ν × V)}
    {keep' : List (ν × Entry V)} (hkeep : List.Forall₂ (Stands device issued) keep keep') :
    List.Forall₂ (Stands device issued') keep keep' := by
  obtain ⟨more, rfl⟩ := h
  exact hkeep.imp fun _ _ hab => ⟨hab.1, hab.2.append device more⟩

/-- Tables that stand for each other have the same names. -/
theorem stands_keys {keep : List (ν × V)} {keep' : List (ν × Entry V)}
    (hkeep : List.Forall₂ (Stands device issued) keep keep') : keep'.map Prod.fst = keep.map Prod.fst := by
  induction hkeep with
  | nil => rfl
  | cons hab _ ih => rw [List.map_cons, List.map_cons, ih, hab.1]

/-- Names with arrays stand for the same names with the same arrays. -/
theorem stands_zip (issued : List (Job V)) (names : List ν) (parts : List V) :
    List.Forall₂ (Stands device issued) (names.zip (parts.map (direct (ν := ν) device).ofArray))
      (names.zip (parts.map (pipelined (ν := ν)).ofArray)) := by
  induction names generalizing parts with
  | nil => exact .nil
  | cons name rest ih =>
    cases parts with
    | nil => exact .nil
    | cons v parts => exact .cons ⟨rfl, rfl⟩ (ih parts)

/-- The state of a direct pass and that of a pipelined one, which has issued at least `before`. -/
structure Linked (before : List (Job V)) (s : Runner ν V M) (st : Runner ν (Entry V) M × World V) : Prop where
  inScope : st.2.inScope = true
  grown : before <+: st.2.issued
  values : ∀ name, Option.Rel (Delivers device st.2.issued) (st.1.values name) (s.values name)
  hosts : st.1.hosts = s.hosts
  done : st.1.done = s.done
  siluDone : st.1.siluDone = s.siluDone
  constValues : List.Forall₂ (Stands device st.2.issued) s.constValues st.1.constValues

/-- A direct attempt and a pipelined one, until a submit fails. -/
def Matches {α β : Type} (pre : Runner ν V M → Runner ν (Entry V) M × World V → Prop) (q : Pass Id ν V M α)
    (p : Pass (Main V) ν (Entry V) M β)
    (post : α → β → Runner ν V M → Runner ν (Entry V) M × World V → Prop) : Prop :=
  Agree (SubmitFails device) (fun _ st => st.2.inScope = true) pre q (resolved device p) post

/-- One pair of states. -/
def At (s : Runner ν V M) (st : Runner ν (Entry V) M × World V) :
    Runner ν V M → Runner ν (Entry V) M × World V → Prop :=
  fun s' st' => s' = s ∧ st' = st

variable {device} {α' β' : Type} {pre : Runner ν V M → Runner ν (Entry V) M × World V → Prop}
  {post : α → β → Runner ν V M → Runner ν (Entry V) M × World V → Prop}
  {post' : α' → β' → Runner ν V M → Runner ν (Entry V) M × World V → Prop}

/-- Matching passes compose. -/
theorem Matches.bind {f : α → Pass Id ν V M α'} {g : β → Pass (Main V) ν (Entry V) M β'}
    (h : Matches device pre q p post) (hf : ∀ a b, Matches device (post a b) (f a) (g b) post') :
    Matches device pre (q >>= f) (p >>= g) post' := by
  unfold Matches
  rw [resolved_bind]
  exact Agree.bind h (fun b => keeps_submitFails device (g b)) hf

/-- Two returned values match where the postcondition holds. -/
theorem Matches.pure {a : α} {b : β} (h : ∀ s st, pre s st → post a b s st) :
    Matches device pre (Pure.pure a) (Pure.pure b) post := Agree.pure h

/-- Two refusals match while the jobs are in scope. -/
theorem Matches.raise {e d : Err ν} (h : ∀ s st, pre s st → st.2.inScope = true) :
    Matches device pre (Attempt.raise e : Pass Id ν V M α) (Attempt.raise d : Pass (Main V) ν (Entry V) M β) post :=
  Agree.raise h

/-- Both unwrap one optional value, or both refuse. -/
theorem Matches.orRaise {e d : Err ν} {o : Option α} {post : α → α → _ → _ → Prop}
    (h : ∀ a, o = some a → ∀ s st, pre s st → post a a s st) (hfail : ∀ s st, pre s st → st.2.inScope = true) :
    Matches device pre (Attempt.orRaise e o) (Attempt.orRaise d o) post := by
  cases o with
  | some a => exact Matches.pure (h a rfl)
  | none => exact Matches.raise hfail

/-- Two changes of the runner match where they keep the relation. -/
theorem Matches.change {g : Runner ν V M → Runner ν V M} {k : Runner ν (Entry V) M → Runner ν (Entry V) M}
    {post : Unit → Unit → _ → _ → Prop} (h : ∀ s st, pre s st → post () () (g s) (k st.1, st.2)) :
    Matches device pre (Attempt.change g) (Attempt.change k) post := Agree.change h

/-- Passes that first read their runner match at each start. -/
theorem Matches.reads_bind {f : Runner ν V M → Pass Id ν V M α'}
    {g : Runner ν (Entry V) M → Pass (Main V) ν (Entry V) M β'}
    (h : ∀ s st, pre s st → Matches device (At s st) (f s) (g st.1) post') :
    Matches device pre (reads id >>= f) (reads id >>= g) post' := by
  intro s st hst
  exact h s st hst s st ⟨rfl, rfl⟩

/-- A match may assume more and promise less. -/
theorem Matches.conseq {pre' : Runner ν V M → Runner ν (Entry V) M × World V → Prop}
    {post' : α → β → Runner ν V M → Runner ν (Entry V) M × World V → Prop} (h : Matches device pre q p post)
    (hpre : ∀ s st, pre' s st → pre s st) (hpost : ∀ a b s st, post a b s st → post' a b s st) :
    Matches device pre' q p post' := Agree.conseq h hpre hpost

/-- It is enough to match from each pair of related states. -/
theorem Matches.of_at (h : ∀ s st, pre s st → Matches device (At s st) q p post) : Matches device pre q p post :=
  Agree.of_forall h

/-- Loops over one list. -/
theorem Matches.each {f : γ → Pass Id ν V M Unit} {g : γ → Pass (Main V) ν (Entry V) M Unit} (elements : List γ)
    (h : ∀ c ∈ elements, Matches device pre (f c) (g c) fun _ _ => pre) :
    Matches device pre (Attempt.each f elements) (Attempt.each g elements) fun _ _ => pre := by
  unfold Matches
  rw [resolved_each]
  exact Agree.each elements (fun c _ => keeps_submitFails device (g c)) h

/-- Loops over related lists that collect equal values. -/
theorem Matches.collect {γ' : Type} {related : γ → γ' → Prop} {f : γ → Pass Id ν V M α}
    {g : γ' → Pass (Main V) ν (Entry V) M α} {elements : List γ} {elements' : List γ'}
    (helements : List.Forall₂ related elements elements')
    (h : ∀ c c', related c c' → Matches device pre (f c) (g c') fun a b s st => a = b ∧ pre s st) :
    Matches device pre (Attempt.collect f elements) (Attempt.collect g elements')
      fun as bs s st => as = bs ∧ pre s st := by
  unfold Matches
  rw [resolved_collect]
  exact Agree.collect helements (fun c => keeps_submitFails device (g c)) h

end Linking

section Updates

variable (h : Linked device before s st)

include h in
/-- Both runners begin the statement. -/
theorem Linked.begin (i : ℕ) : Linked device before (s.begin i) (st.1.begin i, st.2) := by
  refine ⟨h.inScope, h.grown, h.values, h.hosts, ?_, h.siluDone, h.constValues⟩
  change Function.update st.1.done i true = Function.update s.done i true
  rw [h.done]

include h in
/-- Both runners forget that a silu was computed. -/
theorem Linked.discard (i : ℕ) : Linked device before (s.discard i) (st.1.discard i, st.2) := by
  refine ⟨h.inScope, h.grown, h.values, h.hosts, h.done, ?_, h.constValues⟩
  change Function.update st.1.siluDone i false = Function.update s.siluDone i false
  rw [h.siluDone]

include h in
/-- Both runners drop the retired names. -/
theorem Linked.release (retired : ν → Bool) :
    Linked device before (s.release retired) (st.1.release retired, st.2) := by
  refine ⟨h.inScope, h.grown, fun name => ?_, h.hosts, h.done, h.siluDone, h.constValues⟩
  change Option.Rel _ (if retired name then none else st.1.values name) (if retired name then none else s.values name)
  by_cases hname : retired name = true
  · rw [if_pos hname, if_pos hname]
    exact .none
  · rw [if_neg hname, if_neg hname]
    exact h.values name

include h in
/-- Submitting more changes neither state. -/
theorem Linked.issue (job : Job V) : Linked device before s (st.1, { st.2 with issued := st.2.issued ++ [job] }) := by
  refine ⟨h.inScope, h.grown.trans (List.prefix_append _ _), fun name => ?_, h.hosts, h.done, h.siluDone, ?_⟩
  · have hname := h.values name
    cases hs : st.1.values name <;> cases ht : s.values name <;> rw [hs, ht] at hname
    · exact .none
    · cases hname
    · cases hname
    · cases hname with
      | some hentry => exact .some (hentry.append device [job])
  · exact h.constValues.imp fun _ _ hab => ⟨hab.1, hab.2.append device [job]⟩

include h in
/-- A name is in both tables or in none. -/
theorem Linked.isSome (name : ν) : (st.1.values name).isSome = (s.values name).isSome := by
  have hname := h.values name
  cases hs : st.1.values name <;> cases ht : s.values name <;> rw [hs, ht] at hname <;> first | rfl | cases hname

include h in
/-- Linked runners hold the same names. -/
theorem Linked.has (name : ν) : st.1.has name = s.has name := by
  unfold Runner.has
  rw [h.isSome, h.hosts]

variable [DecidableEq ν]

include h in
/-- A value and an entry that delivers it keep the link. -/
theorem Linked.setValue (name : ν) (hentry : Delivers device st.2.issued e v) :
    Linked device before (s.setValue name v) (st.1.setValue name e, st.2) := by
  refine ⟨h.inScope, h.grown, fun other => ?_, h.hosts, h.done, h.siluDone, h.constValues⟩
  change Option.Rel _ (Function.update st.1.values name (some e) other) (Function.update s.values name (some v) other)
  by_cases hother : other = name
  · rw [hother, Function.update_self, Function.update_self]
    exact .some hentry
  · rw [Function.update_of_ne hother, Function.update_of_ne hother]
    exact h.values other

include h in
/-- A host array is set on both sides. -/
theorem Linked.setHost (name : ν) (x : M) : Linked device before (s.setHost name x) (st.1.setHost name x, st.2) := by
  refine ⟨h.inScope, h.grown, h.values, ?_, h.done, h.siluDone, h.constValues⟩
  change Function.update st.1.hosts name (some x) = Function.update s.hosts name (some x)
  rw [h.hosts]

include h in
/-- Standing tables of results keep the link. -/
theorem Linked.setValues (hissued : st.2.issued = issued) {pairs : List (ν × V)} {pairs' : List (ν × Entry V)}
    (hpairs : List.Forall₂ (Stands device issued) pairs pairs') :
    Linked device before (s.setValues pairs) (st.1.setValues pairs', st.2) := by
  induction hpairs generalizing s st with
  | nil => exact h
  | @cons a b rest rest' hab _ ih =>
    obtain ⟨name, v⟩ := a
    obtain ⟨name', e⟩ := b
    obtain ⟨hname, hentry⟩ := hab
    change name = name' at hname
    rw [← hissued] at hentry
    rw [← hname]
    exact ih (h.setValue name hentry) hissued

/-- Writes of one key to related tables. -/
theorem forall₂_assign {table : List (ν × V)} {table' : List (ν × Entry V)} (name : ν)
    (h : List.Forall₂ (Stands device issued) table table') (hentry : Delivers device issued e v) :
    List.Forall₂ (Stands device issued) (assign table name v) (assign table' name e) := by
  induction h with
  | nil => exact .cons ⟨rfl, hentry⟩ .nil
  | @cons a b rest rest' hab hrest ih =>
    rw [assign, assign, hab.1]
    split_ifs
    · exact .cons ⟨rfl, hentry⟩ hrest
    · exact .cons ⟨rfl, hab.2⟩ ih

include h in
/-- Both runners keep a constant in their cache. -/
theorem Linked.store (cache : Bool) (name : ν) :
    Linked device before (s.store cache name) (st.1.store cache name, st.2) := by
  have hname := h.values name
  unfold Runner.store
  cases cache with
  | false => exact h
  | true =>
    cases hs : s.values name <;> cases ht : st.1.values name <;> rw [hs, ht] at hname
    · exact h
    · cases hname
    · cases hname
    · obtain hentry : Delivers device st.2.issued _ _ := by
        cases hname
        assumption
      exact ⟨h.inScope, h.grown, h.values, h.hosts, h.done, h.siluDone, forall₂_assign name h.constValues hentry⟩

end Updates

section Statements

variable [DecidableEq ν] (plan : Plan ν) (kernels : Kernels V M)

/-- What the two passes do to their states. -/
abbrev Follows (device : Job V → Except String (ℕ → V)) (before : List (Job V)) (q : Pass Id ν V M Unit)
    (p : Pass (Main V) ν (Entry V) M Unit) : Prop :=
  Matches device (Linked device before) q p fun _ _ => Linked device before

/-- What they read from them. -/
abbrev Reads {α : Type} (device : Job V → Except String (ℕ → V)) (before : List (Job V)) (q : Pass Id ν V M α)
    (p : Pass (Main V) ν (Entry V) M α) : Prop :=
  Matches device (Linked device before) q p fun a b s st => a = b ∧ Linked device before s st

omit [DecidableEq ν] in
/-- Both raise for one reason, or go on with one value. -/
theorem reads_orRaise (e : Err ν) (o : Option α) : Reads device before (orRaise e o : Pass Id ν V M α) (orRaise e o) :=
  Matches.orRaise (fun _ _ _ _ hst => ⟨rfl, hst⟩) fun _ _ hst => hst.inScope

omit [DecidableEq ν] in
/-- A matching read, then matching passes. -/
theorem Reads.bind {p : Pass (Main V) ν (Entry V) M α} {f : α → Pass Id ν V M β}
    {g : α → Pass (Main V) ν (Entry V) M γ} {post : β → γ → Runner ν V M → Runner ν (Entry V) M × World V → Prop}
    (h : Reads device before q p) (hf : ∀ a, Matches device (Linked device before) (f a) (g a) post) :
    Matches device (Linked device before) (q >>= f) (p >>= g) post := by
  refine Matches.bind h fun a b => ?_
  rintro s st ⟨rfl, hst⟩
  exact hf a s st hst

omit [DecidableEq ν] in
/-- What holds from linked states holds from these two. -/
theorem Linked.here {post : α → β → Runner ν V M → Runner ν (Entry V) M × World V → Prop}
    (hst : Linked device before s st) (h : Matches device (Linked device before) q p post) :
    Matches device (At s st) q p post := by
  rintro s' st' ⟨rfl, rfl⟩
  exact h s' st' hst

omit [DecidableEq ν] in
/-- A change that keeps the link is followed. -/
theorem follows_change {g : Runner ν V M → Runner ν V M} {k : Runner ν (Entry V) M → Runner ν (Entry V) M}
    (h : ∀ s st, Linked device before s st → Linked device before (g s) (k st.1, st.2)) :
    Follows device before (change g) (change k) := Matches.change h

/-- Literals are placed alike. -/
theorem follows_evalLiteral (i : ℕ) (name : ν) :
    Follows device before (evalLiteral kernels (direct device) i name) (evalLiteral kernels pipelined i name) := by
  unfold evalLiteral
  split
  · exact Matches.change fun s st hst => hst.setHost name _
  · refine Matches.bind (follows_change fun s st hst => hst.setHost name _) fun _ _ => ?_
    refine Reads.bind (reads_orRaise _ _) fun v => ?_
    exact Matches.change fun s st hst => hst.setValue (e := .array v) name rfl
  · exact Matches.change fun s st hst => hst.setValue (e := .array _) name rfl
  · exact Matches.change fun s st hst => (hst.setValue (e := .array _) name rfl).setHost name _
  · exact Matches.raise fun s st hst => hst.inScope

/-- Constants are placed alike. -/
theorem follows_evalConst (i : ℕ) (name : ν) :
    Follows device before (evalConst plan kernels (direct device) i name)
      (evalConst plan kernels pipelined i name) :=
  (follows_evalLiteral kernels i name).bind fun _ _ => Matches.change fun _ _ hst => hst.store plan.cache name

variable {ensureD : ν → Pass Id ν V M Unit} {ensureP : ν → Pass (Main V) ν (Entry V) M Unit}

omit [DecidableEq ν] in
/-- Waiting for an entry that stands for an array. -/
theorem resolved_wait (hentry : Delivers device st.2.issued e v) :
    resolved device (call ((pipelined (ν := ν)).wait e)) st = (.ok v, st) := by
  cases e with
  | array w =>
    cases hentry
    rfl
  | future k output =>
    obtain ⟨hscope, hanswer⟩ := hentry
    have hworld : ({ st.2 with inScope := st.2.inScope && decide (InScope st.2.issued k output) } : World V) =
        st.2 := by
      rw [decide_eq_true hscope, Bool.and_true]
    change ((answer device st.2.issued k output).mapError deviceError, st.1,
      ({ st.2 with inScope := st.2.inScope && decide (InScope st.2.issued k output) } : World V)) = _
    rw [hanswer, hworld]
    rfl

/-- Both runners read one tensor. -/
theorem reads_tensor (hensure : ∀ name, Follows device before (ensureD name) (ensureP name)) (name : ν) :
    Reads device before (tensor kernels (direct device) ensureD name) (tensor kernels pipelined ensureP name) := by
  refine (hensure name).bind fun _ _ => Matches.reads_bind fun s st hst => ?_
  have hname := hst.values name
  cases hs : s.values name with
  | none =>
    cases ht : st.1.values name with
    | some e =>
      rw [hs, ht] at hname
      cases hname
    | none =>
      rw [hst.hosts]
      exact hst.here (reads_orRaise _ _)
  | some v =>
    cases ht : st.1.values name with
    | none =>
      rw [hs, ht] at hname
      cases hname
    | some e =>
      rw [hs, ht] at hname
      obtain hentry : Delivers device st.2.issued e v := by
        cases hname
        assumption
      rintro s' st' ⟨rfl, rfl⟩
      right
      cases e with
      | array w =>
        cases hentry
        exact ⟨rfl, hst⟩
      | future k output =>
        have hwait := resolved_wait hentry
        have hread : resolved device (do
            let v ← call ((pipelined (ν := ν)).wait (.future k output))
            change fun s => s.setValue name (.array v)
            Pure.pure v) st' = (.ok v, (st'.1.setValue name (.array v), st'.2)) := by
          rw [resolved_bind, bind_of_ok hwait]
          rfl
        have hlinked : Linked device before s' (st'.1.setValue name (.array v), st'.2) := by
          have hset := hst.setValue (e := .array v) name rfl
          rwa [Runner.setValue_self hs] at hset
        change Endings _ _ (.ok v, s') (resolved device (do
            let v ← call ((pipelined (ν := ν)).wait (.future k output))
            change fun s => s.setValue name (.array v)
            Pure.pure v) st')
        rw [hread]
        exact ⟨rfl, hlinked⟩

omit [DecidableEq ν] in
/-- Both runners read one host value. -/
theorem reads_scalar (hensure : ∀ name, Follows device before (ensureD name) (ensureP name)) (name : ν) :
    Reads device before (scalar ensureD name) (scalar ensureP name) := by
  refine (hensure name).bind fun _ _ => Matches.reads_bind fun s st hst => ?_
  rw [hst.hosts]
  exact hst.here (reads_orRaise _ _)

omit [DecidableEq ν] in
/-- A submit returns its arrays, or futures that stand for them. -/
theorem matches_submit (job : Job V) :
    Matches device (Linked device before (ν := ν) (M := M)) (call ((direct device).submit job))
      (call (pipelined.submit job)) fun results futures s st =>
        (∀ output < job.outputs.length, Delivers device st.2.issued (futures output) (results output)) ∧
          Linked device before s st := by
  intro s st hst
  have hpipelined : resolved device (call ((pipelined (ν := ν)).submit job)) st =
      (.ok fun output => .future st.2.issued.length output,
        (st.1, { st.2 with issued := st.2.issued ++ [job] })) := rfl
  rw [hpipelined]
  cases hdevice : device job with
  | error e => exact Or.inl ⟨job, List.mem_append_right _ List.mem_cons_self, e, hdevice⟩
  | ok arrays =>
    right
    have hdirect : (call ((direct device).submit job) : Pass Id ν V M (ℕ → V)) s = (.ok arrays, s) := by
      change ((device job).mapError deviceError, s) = _
      rw [hdevice]
      rfl
    rw [hdirect]
    refine ⟨fun output houtput => ?_, hst.issue job⟩
    have hlast : (st.2.issued ++ [job])[st.2.issued.length]? = some job := List.getElem?_concat_length
    refine ⟨⟨job, hlast, houtput⟩, ?_⟩
    rw [answer, hlast]
    change outputOf (device job) output = _
    rw [hdevice]
    rfl

omit [DecidableEq ν] in
/-- Both runners read a list alike. -/
theorem reads_collect {f : ν → Pass Id ν V M α} {g : ν → Pass (Main V) ν (Entry V) M α}
    (h : ∀ name, Reads device before (f name) (g name)) (names : List ν) :
    Reads device before (collect f names) (collect g names) :=
  Matches.collect (List.forall₂_same.mpr fun _ _ => rfl) fun c c' hc => by
    rw [hc]
    exact h c'

section Ensured

variable (hensure : ∀ name, Follows device before (ensureD name) (ensureP name))
include hensure

omit [DecidableEq ν] in
/-- The flags are checked alike. -/
theorem follows_requireFlags (i : ℕ) (flags : List (ν × Bool)) :
    Follows device before (requireFlags kernels ensureD i flags) (requireFlags kernels ensureP i flags) := by
  induction flags with
  | nil => exact Matches.pure fun _ _ hst => hst
  | cons flag rest ih =>
    refine Reads.bind (reads_scalar hensure flag.1) fun x => ?_
    split_ifs
    · exact ih
    · exact Matches.raise fun _ _ hst => hst.inScope

/-- A gate runs alike on both sides. -/
theorem follows_runGate (i : ℕ) (stmt : Statement ν) (gate : Gate ν) :
    Follows device before (runGate kernels (direct device) ensureD i stmt gate)
      (runGate kernels pipelined ensureP i stmt gate) := by
  refine Reads.bind (reads_tensor kernels hensure gate.a) fun a => ?_
  refine Reads.bind (reads_tensor kernels hensure gate.b) fun b => ?_
  refine Reads.bind (reads_orRaise _ _) fun v => ?_
  exact follows_change fun s st hst => hst.setValue (e := .array v) stmt.name rfl

/-- Island A is followed. -/
theorem follows_runIslandA (scores content : ℕ) (stmt contentStmt : Statement ν) :
    Follows device before (runIslandA kernels (direct device) ensureD scores content stmt contentStmt)
      (runIslandA kernels pipelined ensureP scores content stmt contentStmt) := by
  refine Reads.bind (reads_orRaise _ _) fun args => ?_
  refine Reads.bind (reads_orRaise _ _) fun args' => ?_
  refine (follows_requireFlags kernels hensure scores _).bind fun _ _ => ?_
  refine (follows_requireFlags kernels hensure content _).bind fun _ _ => ?_
  refine Reads.bind (reads_tensor kernels hensure _) fun q_v => ?_
  refine Reads.bind (reads_tensor kernels hensure _) fun pos_kT => ?_
  refine Reads.bind (reads_tensor kernels hensure _) fun q_scaled => ?_
  refine Reads.bind (reads_tensor kernels hensure _) fun k_heads => ?_
  refine (matches_submit _).bind fun results futures => ?_
  refine Matches.change fun s st hst => ?_
  obtain ⟨houtputs, hst⟩ := hst
  have hscores := hst.setValue stmt.name (houtputs 0 (Nat.zero_lt_succ _))
  have hcontent := hscores.setValue contentStmt.name (houtputs 1 (Nat.succ_lt_succ (Nat.zero_lt_succ _)))
  exact hcontent.begin content

/-- Island B is followed. -/
theorem follows_runIslandB (i : ℕ) (stmt : Statement ν) :
    Follows device before (runIslandB kernels (direct device) ensureD i stmt)
      (runIslandB kernels pipelined ensureP i stmt) := by
  unfold runIslandB
  split
  · refine Reads.bind (reads_tensor kernels hensure _) fun fill => ?_
    refine Reads.bind (reads_tensor kernels hensure _) fun cond => ?_
    refine Reads.bind (reads_tensor kernels hensure _) fun matrix_bd => ?_
    split_ifs
    · refine (matches_submit _).bind fun results futures => Matches.change fun s st hst => ?_
      exact hst.2.setValue stmt.name (hst.1 0 (Nat.zero_lt_succ _))
    · exact Matches.raise fun _ _ hst => hst.inScope
  · exact Matches.raise fun _ _ hst => hst.inScope

/-- Island C is followed. -/
theorem follows_runIslandC (i : ℕ) (stmt : Statement ν) :
    Follows device before (runIslandC kernels (direct device) ensureD i stmt)
      (runIslandC kernels pipelined ensureP i stmt) := by
  refine Reads.bind (reads_orRaise _ _) fun args => ?_
  refine (follows_requireFlags kernels hensure i _).bind fun _ _ => ?_
  refine Reads.bind (reads_tensor kernels hensure _) fun probs => ?_
  refine Reads.bind (reads_tensor kernels hensure _) fun v_heads => ?_
  refine (matches_submit _).bind fun results futures => Matches.change fun s st hst => ?_
  exact hst.2.setValue stmt.name (hst.1 0 (Nat.zero_lt_succ _))

/-- A split is followed. -/
theorem follows_runSplit (i : ℕ) (stmt : Statement ν) :
    Follows device before (runSplit kernels (direct device) ensureD i stmt)
      (runSplit kernels pipelined ensureP i stmt) := by
  refine Reads.bind (reads_collect (fun name => reads_scalar hensure name) _) fun xs => ?_
  split
  · refine Reads.bind (reads_tensor kernels hensure _) fun v => ?_
    refine Reads.bind (reads_orRaise _ _) fun parts => ?_
    split_ifs
    · refine follows_change fun s st hst => ?_
      exact hst.setValues rfl (stands_zip device _ _ _)
    · exact Matches.raise fun _ _ hst => hst.inScope
  · exact Matches.raise fun _ _ hst => hst.inScope

omit hensure [DecidableEq ν] in
/-- A linear gives one value, direct or pipelined. -/
theorem reads_applyLinear (i silu : ℕ) (vs : List V) (xs : List M) :
    Reads device before (applyLinear kernels i silu vs xs : Pass Id ν V M V) (applyLinear kernels i silu vs xs) := by
  refine Reads.bind (reads_orRaise _ _) fun fused => ?_
  split_ifs
  · exact reads_orRaise _ _
  · exact (follows_change fun s st hst => hst.discard silu).bind fun _ _ => reads_orRaise _ _

/-- A host operation is followed. -/
theorem follows_runApply (i : ℕ) (stmt : Statement ν) :
    Follows device before (runApply plan kernels (direct device) ensureD i stmt)
      (runApply plan kernels pipelined ensureP i stmt) := by
  refine Reads.bind (reads_collect (fun name => reads_tensor kernels hensure name) _) fun vs => ?_
  refine Reads.bind (reads_collect (fun name => reads_scalar hensure name) _) fun xs => ?_
  split
  · refine Reads.bind (reads_orRaise _ _) fun v => ?_
    exact follows_change fun s st hst => hst.setValue (e := .array v) stmt.name rfl
  · refine Reads.bind (reads_applyLinear kernels i _ vs xs) fun v => ?_
    refine (follows_change fun s st hst => hst.setValue (e := .array v) stmt.name rfl).bind fun _ _ => ?_
    split
    · exact follows_change fun s st hst => hst.setValue (e := .array v) _ rfl
    · exact Matches.pure fun _ _ hst => hst

/-- A device operation is followed. -/
theorem follows_runGpu (i : ℕ) (stmt : Statement ν) :
    Follows device before (runGpu plan kernels (direct device) ensureD i stmt)
      (runGpu plan kernels pipelined ensureP i stmt) := by
  refine Matches.reads_bind fun s st hst => hst.here ?_
  rw [hst.siluDone]
  split
  · exact Matches.pure fun _ _ hst => hst
  split
  · exact Matches.pure fun _ _ hst => hst
  split
  · exact follows_runGate kernels hensure i stmt _
  split
  · exact follows_runSplit kernels hensure i stmt
  · exact follows_runApply plan kernels hensure i stmt

/-- The content half of island A is followed. -/
theorem follows_runContent (i scores : ℕ) (stmt : Statement ν) :
    Follows device before (runContent plan kernels (direct device) ensureD i scores stmt)
      (runContent plan kernels pipelined ensureP i scores stmt) := by
  refine Matches.reads_bind fun s st hst => hst.here ?_
  rw [hst.isSome]
  split_ifs
  · exact follows_runGpu plan kernels hensure i stmt
  · split
    · exact Matches.raise fun _ _ hst => hst.inScope
    · refine (hensure _).bind fun _ _ => Matches.reads_bind fun s st hst => hst.here ?_
      rw [hst.isSome]
      split_ifs
      · exact Matches.pure fun _ _ hst => hst
      · exact follows_runGpu plan kernels hensure i stmt

/-- The chosen branch is followed, whichever it is. -/
theorem follows_executeInner (i : ℕ) (stmt : Statement ν) :
    Follows device before (executeInner plan kernels (direct device) ensureD i stmt)
      (executeInner plan kernels pipelined ensureP i stmt) := by
  unfold executeInner
  split
  · exact follows_evalConst plan kernels i stmt.name
  split
  · refine Reads.bind (reads_orRaise _ _) fun contentStmt => ?_
    exact follows_runIslandA kernels hensure i _ stmt contentStmt
  split
  · exact follows_runIslandB kernels hensure i stmt
  split
  · exact follows_runIslandC kernels hensure i stmt
  split
  · exact follows_runContent plan kernels hensure i _ stmt
  · exact follows_runGpu plan kernels hensure i stmt

/-- One statement is followed. -/
theorem follows_execute (i : ℕ) :
    Follows device before (execute plan kernels (direct device) ensureD i)
      (execute plan kernels pipelined ensureP i) := by
  refine Matches.reads_bind fun s st hst => hst.here ?_
  rw [hst.done]
  split
  · exact Matches.pure fun _ _ hst => hst
  · refine (follows_change fun s st hst => hst.begin i).bind fun _ _ => ?_
    split
    · exact follows_executeInner plan kernels hensure i _
    · exact Matches.pure fun _ _ hst => hst

/-- One level of demand is followed. -/
theorem follows_ensureWith (name : ν) :
    Follows device before (ensureWith plan kernels (direct device) ensureD name)
      (ensureWith plan kernels pipelined ensureP name) := by
  refine Matches.reads_bind fun s st hst => hst.here ?_
  rw [hst.has, hst.done]
  split
  · exact Matches.pure fun _ _ hst => hst
  split
  · exact Matches.raise fun _ _ hst => hst.inScope
  split
  · exact Matches.pure fun _ _ hst => hst
  · split
    · refine (Matches.each _ fun other _ => hensure other).bind fun _ _ => ?_
      exact follows_execute plan kernels hensure _
    · exact follows_execute plan kernels hensure _

end Ensured

/-- Demand is followed at every depth. -/
theorem follows_ensure (depth : ℕ) (name : ν) :
    Follows device before (ensure plan kernels (direct device) depth name)
      (ensure plan kernels pipelined depth name) := by
  induction depth generalizing name with
  | zero => exact follows_ensureWith plan kernels (fun _ => Matches.raise fun _ _ hst => hst.inScope) name
  | succ depth ih => exact follows_ensureWith plan kernels ih name

section Passes

variable (wanted : List ν) (stopAfter : ν)

/-- What is kept of a statement. -/
theorem stands_kept (hst : Linked device before s st) (stmt : Statement ν) :
    List.Forall₂ (Stands device st.2.issued) (s.kept wanted stmt) (st.1.kept wanted stmt) := by
  unfold Runner.kept
  induction stmt.names with
  | nil => exact .nil
  | cons name rest ih =>
    rw [List.filterMap_cons, List.filterMap_cons]
    have hname := hst.values name
    by_cases hwanted : name ∈ wanted
    · rw [if_pos hwanted, if_pos hwanted]
      cases hs : st.1.values name <;> cases ht : s.values name <;> rw [hs, ht] at hname
      · exact ih
      · cases hname
      · cases hname
      · cases hname with
        | some hentry => exact .cons ⟨rfl, hentry⟩ ih
    · rw [if_neg hwanted, if_neg hwanted]
      exact ih

/-- The rest of the program matches, with what was kept so far. -/
theorem matches_statementsFrom (i : ℕ) (rest : Program ν) (keep : List (ν × V)) (keep' : List (ν × Entry V)) :
    Matches device
      (fun s st => Linked device before s st ∧ List.Forall₂ (Stands device st.2.issued) keep keep')
      (statementsFrom plan kernels (direct device) wanted stopAfter i rest keep)
      (statementsFrom plan kernels pipelined wanted stopAfter i rest keep')
      fun kept kept' s st => Linked device before s st ∧ List.Forall₂ (Stands device st.2.issued) kept kept' := by
  induction rest generalizing i keep keep' with
  | nil => exact Matches.raise fun _ _ hst => hst.1.inScope
  | cons stmt rest ih =>
    refine Matches.of_at fun s st hst => ?_
    obtain ⟨hst, hkeep⟩ := hst
    have hexecute : Follows device st.2.issued _ _ :=
      follows_execute plan kernels (fun name => follows_ensure plan kernels plan.limit name) i
    have hhere : Linked device st.2.issued s st :=
      ⟨hst.inScope, List.prefix_refl _, hst.values, hst.hosts, hst.done, hst.siluDone, hst.constValues⟩
    refine Matches.bind (hhere.here hexecute) fun _ _ => Matches.reads_bind fun s' st' hst' => ?_
    have hnow := List.rel_append (stands_grown device hst'.grown hkeep) (stands_kept wanted hst' stmt)
    have hbefore : Linked device before s' st' :=
      ⟨hst'.inScope, hst.grown.trans hst'.grown, hst'.values, hst'.hosts, hst'.done, hst'.siluDone, hst'.constValues⟩
    have hrelease : Matches device (At s' st') (change fun s => s.release (retired plan (stopAfter :: wanted) i))
        (change fun s => s.release (retired plan (stopAfter :: wanted) i)) fun _ _ s st =>
          Linked device before s st ∧
            List.Forall₂ (Stands device st.2.issued) (keep ++ s'.kept wanted stmt)
              (keep' ++ st'.1.kept wanted stmt) := by
      refine Matches.change fun t u hat => ?_
      rw [hat.1, hat.2]
      exact ⟨hbefore.release _, hnow⟩
    refine Matches.bind hrelease fun _ _ => ?_
    rw [stands_keys device hnow]
    split
    · exact Matches.pure fun _ _ hst => hst
    · exact ih (i + 1) _ _

omit [DecidableEq ν] in
/-- Kept entries settle to the arrays they stand for. -/
theorem matches_settle {a : ν × V} {b : ν × Entry V} (hab : Stands device issued a b) :
    Matches device (fun (s : Runner ν V M) st => Linked device before s st ∧ st.2.issued = issued)
      (settle (direct device) a) (settle pipelined b)
      fun x y s st => x = y ∧ Linked device before s st ∧ st.2.issued = issued := by
  obtain ⟨name, v⟩ := a
  obtain ⟨name', e⟩ := b
  obtain ⟨hname, hentry⟩ := hab
  change name = name' at hname
  rw [← hname]
  cases e with
  | array w =>
    cases hentry
    exact Matches.pure fun _ _ hst => ⟨rfl, hst⟩
  | future k output =>
    rintro s st ⟨hst, rfl⟩
    have hsettle : resolved device (settle pipelined (name, .future k output)) st = (.ok (name, v), st) := by
      change resolved device
        (call ((pipelined (ν := ν)).wait (.future k output)) >>= fun v => Pure.pure (name, v)) st = _
      rw [resolved_bind, bind_of_ok (resolved_wait hentry)]
      rfl
    rw [hsettle]
    exact Or.inr ⟨rfl, hst, rfl⟩

/-- Lookups in standing tables agree. -/
theorem rel_find {table : List (ν × V)} {table' : List (ν × Entry V)} (name : ν)
    (h : List.Forall₂ (Stands device issued) table table') :
    Option.Rel (Delivers device issued) (find table' name) (find table name) := by
  induction h with
  | nil => exact .none
  | @cons a b rest rest' hab _ ih =>
    rw [find, find, hab.1]
    split_ifs
    · exact .some hab.2
    · exact ih

/-- The tables at the start of a pass. -/
theorem Linked.reset (hst : Linked device before s st) :
    Linked device before (s.reset plan) (st.1.reset plan, st.2) := by
  have hwarm : st.1.warm plan = s.warm plan := by
    have h := hst.constValues
    unfold Runner.warm
    cases hs : s.constValues <;> cases ht : st.1.constValues <;> rw [hs, ht] at h <;> first | rfl | cases h
  refine ⟨hst.inScope, hst.grown, fun name => ?_, hst.hosts, ?_, hst.siluDone, hst.constValues⟩
  · change Option.Rel _ (if st.1.warm plan then find st.1.constValues name else none)
      (if s.warm plan then find s.constValues name else none)
    rw [hwarm]
    split
    · exact rel_find name hst.constValues
    · exact .none
  · unfold Runner.reset
    rw [hwarm, hst.done]

omit [DecidableEq ν] in
/-- The inputs stand for themselves. -/
theorem stands_entries (issued : List (Job V)) (inputs : List (ν × V)) :
    List.Forall₂ (Stands device issued) (entries (direct device) inputs) (entries pipelined inputs) := by
  induction inputs with
  | nil => exact .nil
  | cons pair rest ih => exact .cons ⟨rfl, rfl⟩ ih

/-- One pass. -/
theorem reads_run (inputs : List (ν × V)) :
    Reads device before (run plan kernels (direct device) inputs wanted stopAfter)
      (run plan kernels pipelined inputs wanted stopAfter) := by
  refine (follows_change fun s st hst => (hst.reset plan).setValues rfl (stands_entries st.2.issued inputs)).bind
    fun _ _ => ?_
  have hloop := @matches_statementsFrom _ _ _ before device _ plan kernels wanted stopAfter 0 plan.program [] []
  refine (hloop.conseq (fun s st hst => ⟨hst, .nil⟩) fun _ _ _ _ h => h).bind fun keep keep' => ?_
  refine Matches.of_at fun s st hst => ?_
  obtain ⟨hst, hkeep⟩ := hst
  have hmissing : missing wanted keep' = missing wanted keep := by
    unfold missing
    rw [stands_keys device hkeep]
  rw [hmissing]
  split
  · refine Matches.conseq (Matches.collect hkeep fun a b hab => matches_settle hab) (fun s' st' hat => ?_)
      fun _ _ _ _ h => ⟨h.1, h.2.1⟩
    rw [hat.1, hat.2]
    exact ⟨hst, rfl⟩
  · exact Matches.raise fun s' st' hat => by
      rw [hat.2]
      exact hst.inScope

end Passes

section Sessions

/-- A constant is ensured alike. -/
theorem follows_ensureConstant (name : ν) :
    Follows device before (ensureConstant kernels (direct device) plan name)
      (ensureConstant kernels pipelined plan name) := by
  refine Matches.reads_bind fun s st hst => hst.here ?_
  rw [hst.has, hst.done]
  split
  · exact Matches.pure fun _ _ hst => hst
  split
  · exact Matches.raise fun _ _ hst => hst.inScope
  split
  · exact Matches.pure fun _ _ hst => hst
  split
  · exact Matches.raise fun _ _ hst => hst.inScope
  split
  · refine (follows_change fun s st hst => hst.begin _).bind fun _ _ => ?_
    exact follows_evalConst plan kernels _ _
  · exact Matches.raise fun _ _ hst => hst.inScope

/-- The fused gates read one list of values. -/
theorem reads_fusedGates (gates : List (Gate ν)) :
    Reads device before (fusedGates kernels (direct device) plan gates) (fusedGates kernels pipelined plan gates) := by
  have hensure (name : ν) : Follows device before (ensureConstant kernels (direct device) plan name)
      (ensureConstant kernels pipelined plan name) := follows_ensureConstant plan kernels name
  induction gates with
  | nil => exact Matches.pure fun _ _ hst => ⟨rfl, hst⟩
  | cons gate rest ih =>
    refine Reads.bind (reads_scalar hensure gate.axis) fun axis => ?_
    split
    · refine Reads.bind (reads_scalar hensure gate.count) fun count => ?_
      exact Reads.bind ih fun gates => Matches.pure fun _ _ hst => ⟨rfl, hst⟩
    · exact ih

/-- A whole session. -/
theorem reads_session (program : Program ν) (options : Options) (wanted : List ν) (stopAfter : ν)
    (calls : List (List (ν × V))) :
    Reads device before (session kernels (direct device) program options wanted stopAfter calls)
      (session kernels pipelined program options wanted stopAfter calls) := by
  have hbuild : Reads device before (build kernels (direct device) program options)
      (build kernels pipelined program options) := by
    refine Reads.bind (reads_orRaise _ _) fun islands => ?_
    exact Reads.bind (reads_fusedGates _ kernels _) fun gates => Matches.pure fun _ _ hst => ⟨rfl, hst⟩
  refine Reads.bind hbuild fun plan => ?_
  exact Matches.collect (List.forall₂_same.mpr fun _ _ => rfl) fun inputs inputs' heq => by
    rw [heq]
    exact reads_run plan kernels wanted stopAfter inputs'

end Sessions

end Statements

section Delivery

variable [DecidableEq ν] (device : Job V → Except String (ℕ → V)) (kernels : Kernels V M) (program : Program ν)
  (options : Options) (wanted : List ν) (stopAfter : ν) (calls : List (List (ν × V)))

/-- The passes of one runner in-process. -/
def directSession : Except (Err ν) (List (List (ν × V))) :=
  (session kernels (direct device) program options wanted stopAfter calls (Runner.blank program options.chain)).1

/-- The main thread of the same passes with pipelining on. -/
def pipelinedSession : Main V (Except (Err ν) (List (List (ν × V))) × Runner ν (Entry V) M) :=
  session kernels pipelined program options wanted stopAfter calls (Runner.blank program options.chain)

/-- What holds of the jobs and the futures in one state of the two threads. -/
structure JobsDelivered {R : Type} (s : System V R) : Prop where
  account : s.issued = s.submits ++ s.taken ++ s.waiting
  own : ∀ k output r, s.futures k output = some r → InScope s.issued k output ∧ r = answer device s.issued k output
  settled : ∀ k output, InScope s.issued k output → s.Processed k output →
    s.futures k output = some (answer device s.issued k output)
  closed : ∀ result, s.main = .closed result → s.submits = s.issued ∧
    ∀ k output, InScope s.issued k output → s.futures k output = some (answer device s.issued k output)

variable {device}

/-- The invariant delivers every job issued. -/
theorem PipelineInv.delivered {R : Type} {main : Main V R} {s : System V R} (hinv : PipelineInv device main s) :
    JobsDelivered device s := by
  have hsettled : ∀ k output, InScope s.issued k output → s.Processed k output →
      s.futures k output = some (answer device s.issued k output) := by
    intro k output hscope hprocessed
    obtain ⟨r, hr⟩ := Option.isSome_iff_exists.mp (hinv.settled k output hscope hprocessed)
    rw [hr, (hinv.answered k output r hr).2.2]
  refine ⟨hinv.account, fun k output r hr => (hinv.answered k output r hr).2, hsettled, fun result hmain => ?_⟩
  exact ⟨hinv.closed hmain, fun k output hscope => hsettled k output hscope (hinv.processed_of_closed hmain hscope)⟩

variable (device)

/-- While no submit fails, the passes end as they do in-process, and they read futures of issued jobs alone. -/
theorem resolve_pipelinedSession
    (hok : ∀ job ∈
        (resolve device (pipelinedSession kernels program options wanted stopAfter calls) ⟨[], true⟩).2.issued,
      ∃ arrays, device job = .ok arrays) :
    Same (directSession device kernels program options wanted stopAfter calls)
        (resolve device (pipelinedSession kernels program options wanted stopAfter calls) ⟨[], true⟩).1.1 ∧
      (resolve device (pipelinedSession kernels program options wanted stopAfter calls) ⟨[], true⟩).2.inScope =
        true := by
  have hblank : Linked device [] (Runner.blank (E := V) (M := M) program options.chain)
      (Runner.blank program options.chain, ⟨[], true⟩) :=
    ⟨rfl, List.prefix_refl _, fun _ => .none, rfl, rfl, rfl, .nil⟩
  rcases reads_session kernels program options wanted stopAfter calls _ _ hblank with hfails | hends
  · obtain ⟨job, hjob, e, he⟩ := hfails
    obtain ⟨arrays, harrays⟩ := hok job hjob
    rw [harrays] at he
    cases he
  · refine ⟨hends.same, ?_⟩
    exact hends.right (fun _ _ _ _ h => h.2.inScope) fun _ _ h => h

/-- Every interleaving of any main thread and the pipeline thread delivers its jobs and ends; one that reads futures
after their submit alone never gets stuck. With the passes of a runner as the main thread, an interleaving in which no
submit failed returns what the passes return in-process, and if none can fail, no interleaving gets stuck. -/
theorem pipeline_delivers :
    (∀ (R : Type) (main : Main V R) (s : System V R), Reachable device main s →
      JobsDelivered device s ∧
        ((resolve device main ⟨[], true⟩).2.inScope = true → (∀ result, s.main ≠ .closed result) →
          ∃ t, Step device s t)) ∧
    (∀ R : Type, WellFounded fun t s : System V R => Step device s t) ∧
    ∀ s : System V (Except (Err ν) (List (List (ν × V))) × Runner ν (Entry V) M),
      Reachable device (pipelinedSession kernels program options wanted stopAfter calls) s →
      (∀ outcome state, s.main = .closed (outcome, state) → (∀ job ∈ s.submits, ∃ arrays, device job = .ok arrays) →
        Same (directSession device kernels program options wanted stopAfter calls) outcome) ∧
      ((∀ job ∈ (resolve device (pipelinedSession kernels program options wanted stopAfter calls) ⟨[], true⟩).2.issued,
          ∃ arrays, device job = .ok arrays) → (∀ result, s.main ≠ .closed result) → ∃ t, Step device s t) := by
  refine ⟨fun R main s hreach => ?_, fun R => step_wellFounded, fun s hreach => ⟨?_, ?_⟩⟩
  · have hinv := reachable_pipelineInv hreach
    exact ⟨hinv.delivered, exists_step hinv⟩
  · intro outcome state hmain hok
    have hinv := reachable_pipelineInv hreach
    have hend := hinv.mainOk
    rw [hmain] at hend
    have hend : ((outcome, state), ⟨s.issued, true⟩) =
        resolve device (pipelinedSession kernels program options wanted stopAfter calls) ⟨[], true⟩ := hend
    have hissued := hinv.closed hmain
    have hsame := (resolve_pipelinedSession device kernels program options wanted stopAfter calls (by
      rw [← hend, ← hissued]
      exact hok)).1
    rw [← hend] at hsame
    exact hsame
  · intro hok hopen
    have hscoped := (resolve_pipelinedSession device kernels program options wanted stopAfter calls hok).2
    exact exists_step (reachable_pipelineInv hreach) hscoped hopen

end Delivery

/-- On the layer, an interleaving of two pipelined passes gets past `close` and returns what the direct passes
return. -/
theorem pipeline_delivers_layer :
    ∃ s, Reachable layerDevice
        (pipelinedSession (layerKernels true) layerProgram layerOptions [25] 25 [layerInputs, layerInputs]) s ∧
      ∃ outcome state, s.main = .closed (outcome, state) ∧
        Same
          (directSession layerDevice (layerKernels true) layerProgram layerOptions [25] 25 [layerInputs, layerInputs])
          outcome := by
  obtain ⟨_, hends, hpasses⟩ := pipeline_delivers layerDevice (layerKernels true) layerProgram layerOptions [25] 25
    [layerInputs, layerInputs]
  have hjobs : ((resolve layerDevice (pipelinedSession (layerKernels true) layerProgram layerOptions [25] 25
      [layerInputs, layerInputs]) ⟨[], true⟩).2.issued.all fun job => (layerDevice job).toBool) = true := by
    decide +kernel
  have hok : ∀ job ∈ (resolve layerDevice (pipelinedSession (layerKernels true) layerProgram layerOptions [25] 25
      [layerInputs, layerInputs]) ⟨[], true⟩).2.issued, ∃ arrays, layerDevice job = .ok arrays := by
    intro job hjob
    have hbool := List.all_eq_true.mp hjobs job hjob
    cases hdevice : layerDevice job with
    | ok arrays => exact ⟨arrays, rfl⟩
    | error e =>
      rw [hdevice] at hbool
      cases hbool
  have hclosed : ∀ s, Reachable layerDevice (pipelinedSession (layerKernels true) layerProgram layerOptions [25] 25
      [layerInputs, layerInputs]) s → ∃ t, Reachable layerDevice (pipelinedSession (layerKernels true) layerProgram
        layerOptions [25] 25 [layerInputs, layerInputs]) t ∧ ∃ result, t.main = .closed result := by
    intro s
    induction s using (hends _).induction with
    | _ s ih =>
      intro hreach
      by_cases hmain : ∃ result, s.main = .closed result
      · exact ⟨s, hreach, hmain⟩
      · obtain ⟨t, hstep⟩ := (hpasses s hreach).2 hok fun result hresult => hmain ⟨result, hresult⟩
        exact ih t hstep (.step hreach hstep)
  obtain ⟨t, hreach, ⟨outcome, state⟩, hmain⟩ := hclosed _ .initial
  have hinv := reachable_pipelineInv hreach
  have hend := hinv.mainOk
  rw [hmain] at hend
  have hissued : t.submits = (resolve layerDevice
      (pipelinedSession (layerKernels true) layerProgram layerOptions [25] 25 [layerInputs, layerInputs])
      ⟨[], true⟩).2.issued := by
    rw [hinv.closed hmain, ← show ((outcome, state), ⟨t.issued, true⟩) = resolve layerDevice _ ⟨[], true⟩ from hend]
  refine ⟨t, hreach, outcome, state, hmain, (hpasses t hreach).1 outcome state hmain ?_⟩
  rw [hissued]
  exact hok

end AneLinux.Encoder
