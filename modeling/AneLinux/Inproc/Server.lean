import AneLinux.Inproc.Submit
import AneLinux.Support.Automaton

/-!
# What a session serves

To the threads that share it, a session is a condition variable, two flags and a mutex; to its caller it is
a server that runs one job at a time. The server is stated here by itself: what it may do next, given the
job it has. Every step of the two threads is then either nothing to the server or one thing it may do.

The second half says that the condition variable loses no notification. The steps of the two threads use up
a rank, and as long as a call is under way one of them can take a step, so every call returns.
-/

namespace AneLinux.Inproc

open AneLinux.Support

/-- The job of a server. -/
inductive Job
  | absent
  /-- Posted, and its caller waits. -/
  | waiting
  /-- Executed, and its caller waits. -/
  | done (ok : Bool)
  /-- Posted, and its caller has gone. -/
  | abandoned
deriving DecidableEq, Repr

/-- A server between two events. -/
structure Server where
  quarantined : Bool
  job : Job
deriving DecidableEq, Repr

/-- What can be seen of a server: a job is posted, a plan is executed, a submit returns. -/
inductive Event
  | post
  | execute (ok : Bool)
  | answer (code : Outcome)
  /-- A submit with a null pointer returns `BAD_ARGS`, whatever became of the session. -/
  | reject
deriving DecidableEq, Repr

/-- What a server may do. -/
def Server.handle (r : Server) : Event → Option Server
  | .post => if r.quarantined = false ∧ r.job = .absent then some { r with job := .waiting } else none
  | .execute ok =>
    match r.job with
    | .waiting => some { r with job := .done ok }
    | .abandoned => some { r with job := .absent }
    | _ => none
  | .answer .ok => if r.job = .done true then some { r with job := .absent } else none
  | .answer .deviceFailed => if r.job = .done false then some ⟨true, .absent⟩ else none
  | .answer .timeout => if r.job = .waiting then some ⟨true, .abandoned⟩ else none
  | .answer .refused =>
    if r.job = .absent ∨ r.job = .abandoned then some { r with quarantined := true } else none
  | .answer .badArgs => if r.quarantined = false ∧ r.job = .absent then some r else none
  | .reject => if r.job = .absent ∨ r.job = .abandoned then some r else none

/-- Where the caller is, as far as the submit thread can tell. -/
inductive Phase
  /-- Outside a call, or not past its first check. -/
  | away
  /-- Past the check of `ane_inproc_submit`, before the post. -/
  | entering
  | posting
  /-- On the way to the test of the wait. -/
  | waking
  | blocked
  | finishing
  | closing
  | joining
  | left
deriving DecidableEq, Repr

/-- The phase of a counter. -/
def CallerPc.phase : CallerPc → Phase
  | .idle => .away
  | .lockCheck _ => .away
  | .check _ => .away
  | .readFile _ => .entering
  | .lockAdopt => .entering
  | .adopt => .entering
  | .validate _ => .entering
  | .lockPost _ => .entering
  | .post _ => .entering
  | .notify _ => .posting
  | .lockWait _ => .waking
  | .blocked _ => .blocked
  | .relock _ _ => .waking
  | .woken _ _ => .waking
  | .finish => .finishing
  | .lockCall _ => .away
  | .inCall _ => .away
  | .closeNotify => .closing
  | .joining => .joining
  | .left => .left

/-- The phases in which a caller has a job that need not be done. -/
def Phase.pends : Phase → Bool
  | .posting => true
  | .waking => true
  | .blocked => true
  | _ => false

/-- The phases a caller of a quarantined session can be in. -/
def Phase.turnedAway : Phase → Bool
  | .away => true
  | .left => true
  | _ => false

/-- The phases of a close that ends the submit thread, and the one after it. -/
def Phase.closes : Phase → Bool
  | .closing => true
  | .joining => true
  | .left => true
  | _ => false

/-- The phases in which a close has told the submit thread to quit. -/
def Phase.tells : Phase → Bool
  | .closing => true
  | .joining => true
  | _ => false

/-- The counters of `ane_inproc_submit`. -/
def CallerPc.submits : CallerPc → Bool
  | .idle => false
  | .lockCall _ => false
  | .inCall _ => false
  | .closeNotify => false
  | .joining => false
  | .left => false
  | _ => true

/-- What an act shows by itself. -/
def Act.shows : Act → Option Event
  | .executed ok => some (.execute ok)
  | .callNull => some .reject
  | _ => none

/-- What a step shows. -/
def observe (s : State) (act : Act) (s' : State) : Option Event :=
  match act.shows with
  | some event => some event
  | none =>
    if s.caller.submits = true ∧ s'.caller = .idle then s'.returned.map .answer
    else if s.job = false ∧ s'.job = true then some .post
    else none

/-- The server that a session is. -/
def State.server (s : State) : Server where
  quarantined := s.quarantined
  job :=
    if s.caller.phase.pends = true ∨ s.caller.phase = .finishing then if s.job then .waiting else .done s.resultOk
    else if s.job then .abandoned else .absent

/-- What the two threads keep between them. -/
structure Coherent (s : State) : Prop where
  mutex : MutexAgrees s.holds s.owner
  /-- Only a caller that waits, or a session that is quarantined, has a job. -/
  posted : s.job = true → s.caller.phase.pends = true ∨ s.quarantined = true
  /-- A quarantined session lets no caller past its check. -/
  refuses : s.quarantined = true → s.caller.phase.turnedAway = true
  /-- The plan that runs is that of the job. -/
  running : s.submit = .executing → s.job = true
  /-- A caller that waits for a job that is done is about to be notified. -/
  answered : s.caller.phase = .blocked → s.job = false → s.submit = .notify
  /-- A submit thread that waits while there is a job is about to be notified. -/
  started : s.submit = .blocked → s.job = true → s.caller.phase = .posting
  /-- The submit thread is told to quit by a close. -/
  quits : s.quit = true → s.caller.phase.closes = true
  /-- A close waits only for a submit thread that it told to quit. -/
  told : s.caller.phase.tells = true → s.quit = true
  /-- A submit thread that waits while it should quit is about to be notified. -/
  stopped : s.submit = .blocked → s.quit = true → s.caller.phase = .closing
  /-- It ends only when told to. -/
  exited : s.submit = .exited → s.quit = true

theorem Coherent.opened : Coherent State.opened where
  mutex := mutexAgrees_opened
  posted := by decide
  refuses := by decide
  running := by decide
  answered := by decide
  started := by decide
  quits := by decide
  told := by decide
  stopped := by decide
  exited := by decide

variable {s s' : State} {pc : CallerPc} {returned : Option Outcome} {due : ℤ} {act : Act} {r r' : Server}

/-- A session that is not quarantined has a job only while its caller waits. -/
theorem Coherent.job_eq_false (h : Coherent s) (hpends : s.caller.phase.pends = false)
    (haway : s.caller.phase.turnedAway = false) : s.job = false ∧ s.quarantined = false := by
  have hquarantined : s.quarantined = false := by
    rw [Bool.eq_false_iff]
    intro hq
    rw [h.refuses hq] at haway
    cases haway
  refine ⟨?_, hquarantined⟩
  rw [Bool.eq_false_iff]
  intro hjob
  rcases h.posted hjob with hwaits | hq
  · rw [hwaits] at hpends
    cases hpends
  · rw [hq] at hquarantined
    cases hquarantined

/-- A step that leaves the flags and the submit thread alone, and the caller in its phase. -/
theorem Coherent.same (h : Coherent s) (hmutex : MutexAgrees s'.holds s'.owner)
    (hphase : s'.caller.phase = s.caller.phase) (hjob : s'.job = s.job) (hquit : s'.quit = s.quit)
    (hquarantined : s'.quarantined = s.quarantined) (hsubmit : s'.submit = s.submit) : Coherent s' where
  mutex := hmutex
  posted := by rw [hjob, hphase, hquarantined]; exact h.posted
  refuses := by rw [hphase, hquarantined]; exact h.refuses
  running := by rw [hsubmit, hjob]; exact h.running
  answered := by rw [hphase, hjob, hsubmit]; exact h.answered
  started := by rw [hsubmit, hjob, hphase]; exact h.started
  quits := by rw [hquit, hphase]; exact h.quits
  told := by rw [hphase, hquit]; exact h.told
  stopped := by rw [hsubmit, hquit, hphase]; exact h.stopped
  exited := by rw [hsubmit, hquit]; exact h.exited

/-- `notify_all` by the caller, with nothing else changed but where the caller is: a submit thread that was to be
notified is. -/
theorem Coherent.notifies (h : Coherent s)
    (hmutex : MutexAgrees { s.notifySubmit with caller := pc }.holds s.notifySubmit.owner)
    (hpc : s.caller.phase = .posting ∧ pc.phase = .waking ∨ s.caller.phase = .closing ∧ pc.phase = .joining) :
    Coherent { s.notifySubmit with caller := pc } := by
  have hpends : pc.phase.pends = s.caller.phase.pends ∧ pc.phase.turnedAway = s.caller.phase.turnedAway ∧
      pc.phase.closes = s.caller.phase.closes ∧ pc.phase.tells = s.caller.phase.tells ∧ pc.phase ≠ .blocked := by
    rcases hpc with ⟨hfrom, hto⟩ | ⟨hfrom, hto⟩ <;> rw [hfrom, hto] <;> decide
  obtain ⟨hpends, haway, hcloses, htells, hblocked⟩ := hpends
  have hsame : s.notifySubmit.job = s.job ∧ s.notifySubmit.quit = s.quit ∧
      s.notifySubmit.quarantined = s.quarantined ∧ s.notifySubmit.submit ≠ .blocked ∧
      (s.notifySubmit.submit = .executing → s.submit = .executing) ∧
      (s.notifySubmit.submit = .exited → s.submit = .exited) := by
    unfold State.notifySubmit
    split
    · exact ⟨rfl, rfl, rfl, nofun, nofun, nofun⟩
    · next hne => exact ⟨rfl, rfl, rfl, hne, id, id⟩
  obtain ⟨hjob, hquit, hquarantined, hsubmit, hexecuting, hexited⟩ := hsame
  refine ⟨hmutex, ?_, ?_, ?_, fun hpc => (hblocked hpc).elim, fun hpc => (hsubmit hpc).elim, ?_,
    ?_, fun hpc => (hsubmit hpc).elim, ?_⟩
  · change s.notifySubmit.job = true → pc.phase.pends = true ∨ s.notifySubmit.quarantined = true
    rw [hjob, hpends, hquarantined]
    exact h.posted
  · change s.notifySubmit.quarantined = true → pc.phase.turnedAway = true
    rw [hquarantined, haway]
    exact h.refuses
  · change s.notifySubmit.submit = .executing → s.notifySubmit.job = true
    rw [hjob]
    exact fun hpc => h.running (hexecuting hpc)
  · change s.notifySubmit.quit = true → pc.phase.closes = true
    rw [hquit, hcloses]
    exact h.quits
  · change pc.phase.tells = true → s.notifySubmit.quit = true
    rw [hquit, htells]
    exact h.told
  · change s.notifySubmit.submit = .exited → s.notifySubmit.quit = true
    rw [hquit]
    exact fun hpc => h.exited (hexited hpc)

/-- A step of the caller in which it moves on, with the flags and the submit thread left alone. It must not begin
to wait for a job that is done, or leave while the submit thread has still to be told. -/
theorem Coherent.moves {owner : Option Thread} (h : Coherent s)
    (hs' : s' = { s with owner := owner, caller := pc, returned := returned }) (hmutex : MutexAgrees s'.holds s'.owner)
    (hposted : s.job = true → pc.phase.pends = true ∨ s.quarantined = true)
    (hrefuses : s.quarantined = true → pc.phase.turnedAway = true) (hblocked : pc.phase = .blocked → s.job = true)
    (hstarts : s.caller.phase ≠ .posting) (hstops : s.caller.phase ≠ .closing)
    (hquits : s.caller.phase.closes = true → pc.phase.closes = true) (htells : pc.phase.tells = false) :
    Coherent s' := by
  subst hs'
  refine ⟨hmutex, hposted, hrefuses, h.running, fun hpc hjob => ?_, fun hpc hjob => ?_, fun hq => hquits (h.quits hq),
    fun hpc => ?_, fun hpc hq => ?_, h.exited⟩
  · change s.job = false at hjob
    rw [hblocked hpc] at hjob
    cases hjob
  · exact (hstarts (h.started hpc hjob)).elim
  · cases htells.symm.trans hpc
  · exact (hstops (h.stopped hpc hq)).elim

/-- A step with which a caller returns and the session is quarantined. -/
theorem Coherent.quarantines (h : Coherent s)
    (hs' : s' = { s with owner := none, quarantined := true, caller := .idle, returned := returned })
    (hmutex : MutexAgrees s'.holds s'.owner) (hposting : s.caller.phase ≠ .posting)
    (hcloses : s.caller.phase.closes = false) : Coherent s' := by
  subst hs'
  have hquit : s.quit = false := by
    rw [Bool.eq_false_iff]
    intro hq
    cases hcloses.symm.trans (h.quits hq)
  exact { h with
    mutex := hmutex
    posted := fun _ => .inr rfl
    refuses := fun _ => rfl
    answered := by rintro ⟨⟩
    started := fun hpc hjob => (hposting (h.started hpc hjob)).elim
    quits := fun hq => by cases hquit.symm.trans hq
    told := by rintro ⟨⟩
    stopped := fun _ hq => by cases hquit.symm.trans hq }

/-- The post gives the session a job, and its caller is about to notify the submit thread. -/
theorem Coherent.posts {perSubmit : ℤ} (h : Coherent s) (hpc : s.caller = .post perSubmit)
    (hs' : s' = { s with resultOk := false, job := true, owner := none, caller := .notify due })
    (hmutex : MutexAgrees s'.holds s'.owner) : Coherent s' := by
  subst hs'
  obtain ⟨-, hquarantined⟩ := h.job_eq_false (by rw [hpc]; rfl) (by rw [hpc]; rfl)
  have hquit : s.quit = false := by
    rw [Bool.eq_false_iff]
    intro hq
    have hcloses := h.quits hq
    rw [hpc] at hcloses
    cases hcloses
  exact { h with
    mutex := hmutex
    posted := fun _ => .inl rfl
    refuses := fun hq => by cases hquarantined.symm.trans hq
    running := fun _ => rfl
    answered := by rintro ⟨⟩
    started := fun _ _ => rfl
    quits := fun hq => by cases hquit.symm.trans hq
    told := by rintro ⟨⟩
    stopped := fun _ hq => by cases hquit.symm.trans hq }

/-- The test of the wait: the caller goes on, times out, or waits again for a job that is not done. -/
theorem Coherent.testsJob {timedOut : Bool} (h : Coherent s) (hpc : s.caller = .woken due timedOut)
    (hs' : s' = s.testJob due timedOut) (hmutex : MutexAgrees s'.holds s'.owner) : Coherent s' := by
  have hphase : s.caller.phase = .waking := by rw [hpc]; rfl
  have hrefuses : s.quarantined ≠ true := by
    intro hq
    have haway := h.refuses hq
    rw [hphase] at haway
    cases haway
  have hposting : s.caller.phase ≠ .posting := by rw [hphase]; decide
  have hclosing : s.caller.phase ≠ .closing := by rw [hphase]; decide
  have hcloses : s.caller.phase.closes = false := by rw [hphase]; rfl
  unfold State.testJob at hs'
  split at hs'
  · next hjob =>
    refine h.moves hs' hmutex (fun hset => by cases hjob.symm.trans hset) (fun hq => (hrefuses hq).elim)
      (by rintro ⟨⟩) hposting hclosing (fun hset => ?_) rfl
    cases hcloses.symm.trans hset
  · next hjob =>
    split at hs'
    · exact h.quarantines hs' hmutex hposting hcloses
    · refine h.moves hs' hmutex (fun _ => .inl rfl) (fun hq => (hrefuses hq).elim)
        (fun _ => Bool.eq_true_of_not_eq_false hjob) hposting hclosing (fun hset => ?_) rfl
      cases hcloses.symm.trans hset

/-- A close tells the submit thread of a session without a job to quit. -/
theorem Coherent.tells (h : Coherent s) (hphase : s.caller.phase = .away) (hq : s.quarantined ≠ true)
    (hs' : s' = { s with owner := none, quit := true, caller := .closeNotify })
    (hmutex : MutexAgrees s'.holds s'.owner) : Coherent s' := by
  subst hs'
  have hjob : s.job = false := by
    rw [Bool.eq_false_iff]
    intro hset
    rcases h.posted hset with hpends | hquarantined
    · rw [hphase] at hpends
      cases hpends
    · exact hq hquarantined
  exact { h with
    mutex := hmutex
    posted := fun hset => by cases hjob.symm.trans hset
    refuses := fun hset => (hq hset).elim
    answered := by rintro ⟨⟩
    started := fun _ hset => by cases hjob.symm.trans hset
    quits := fun _ => rfl
    told := fun _ => rfl
    stopped := fun _ _ => rfl
    exited := fun _ => rfl }

/-- The section of a short call keeps the session coherent. -/
theorem Coherent.shortCall {call : ShortCall} (h : Coherent s) (hpc : s.caller = .inCall call)
    (hs' : s' = s.shortCall call) (hmutex : MutexAgrees s'.holds s'.owner) : Coherent s' := by
  have hphase : s.caller.phase = .away := by rw [hpc]; rfl
  cases call with
  | query | endBatch =>
    subst hs'
    exact h.same hmutex hphase.symm rfl rfl rfl rfl
  | beginBatch deadline =>
    simp only [State.shortCall] at hs'
    split at hs'
    · subst hs'
      exact h.same hmutex hphase.symm rfl rfl rfl rfl
    · subst hs'
      exact h.same hmutex hphase.symm rfl rfl rfl rfl
  | close =>
    simp only [State.shortCall] at hs'
    split at hs'
    · next hq =>
      exact h.moves hs' hmutex (fun _ => .inr hq) (fun _ => rfl) (by rintro ⟨⟩) (by rw [hphase]; decide)
        (by rw [hphase]; decide) (fun _ => rfl) rfl
    · next hq => exact h.tells hphase hq hs' hmutex

/-- A step of the caller keeps the session coherent. -/
theorem Coherent.callerGo (h : Coherent s) (hmutex : MutexAgrees s'.holds s'.owner) (hgo : s.callerGo = some s') :
    Coherent s' := by
  unfold State.callerGo at hgo
  cases hpc : s.caller <;> simp only [hpc] at hgo
  case idle | readFile | validate | blocked | left => cases hgo
  case lockCheck | lockAdopt | lockPost | lockWait | relock | lockCall =>
    obtain ⟨-, rfl⟩ := map_lock_eq_some hgo
    exact h.same hmutex (by rw [hpc]; rfl) rfl rfl rfl rfl
  case check deadline =>
    split at hgo
    · cases hgo
      exact h.same hmutex (by rw [hpc]; rfl) rfl rfl rfl rfl
    · next hq =>
      refine h.moves (Option.some.inj hgo).symm hmutex (fun hjob => .inr ?_) (fun hset => (hq hset).elim)
        (by rintro ⟨⟩) (by rw [hpc]; nofun) (by rw [hpc]; nofun) (by rw [hpc]; exact id) rfl
      exact (h.posted hjob).resolve_left (by rw [hpc]; nofun)
  case adopt =>
    exact h.quarantines (Option.some.inj hgo).symm hmutex (by rw [hpc]; nofun) (by rw [hpc]; rfl)
  case post perSubmit => exact h.posts hpc (Option.some.inj hgo).symm hmutex
  case notify due =>
    cases hgo
    exact h.notifies hmutex (.inl ⟨by rw [hpc]; rfl, rfl⟩)
  case closeNotify =>
    cases hgo
    exact h.notifies hmutex (.inr ⟨by rw [hpc]; rfl, rfl⟩)
  case woken due timedOut => exact h.testsJob hpc (Option.some.inj hgo).symm hmutex
  case finish =>
    obtain ⟨hjob, hquarantined⟩ := h.job_eq_false (by rw [hpc]; rfl) (by rw [hpc]; rfl)
    split at hgo
    · refine h.moves (Option.some.inj hgo).symm hmutex (fun hset => ?_) (fun _ => rfl) (by rintro ⟨⟩)
        (by rw [hpc]; nofun) (by rw [hpc]; nofun) (by rw [hpc]; exact id) rfl
      cases hjob.symm.trans hset
    · exact h.quarantines (Option.some.inj hgo).symm hmutex (by rw [hpc]; nofun) (by rw [hpc]; rfl)
  case inCall call => exact h.shortCall hpc (Option.some.inj hgo).symm hmutex
  case joining =>
    split at hgo
    · refine h.moves (Option.some.inj hgo).symm hmutex (fun hset => .inr ?_) (fun _ => rfl) (by rintro ⟨⟩)
        (by rw [hpc]; nofun) (by rw [hpc]; nofun) (by rw [hpc]; exact id) rfl
      exact (h.posted hset).resolve_left (by rw [hpc]; nofun)
    · cases hgo

/-- A step of the submit thread keeps the session coherent. -/
theorem Coherent.submitGo (h : Coherent s) (hmutex : MutexAgrees s'.holds s'.owner) (hgo : s.submitGo = some s') :
    Coherent s' := by
  rcases s with ⟨owner, job, quit, resultOk, quarantined, batching, batchUntil, now, caller, submit, returned⟩
  unfold State.submitGo at hgo
  cases submit <;> simp only at hgo
  case blocked | executing | exited => cases hgo
  case lockStart | lockAgain =>
    obtain ⟨-, rfl⟩ := map_lock_eq_some hgo
    exact { h with
      mutex := hmutex
      running := nofun
      answered := fun hpc hjob => nomatch h.answered hpc hjob
      started := nofun
      stopped := nofun
      exited := nofun }
  case test =>
    split at hgo
    · next hquit =>
      cases hgo
      exact { h with
        mutex := hmutex
        running := nofun
        answered := fun hpc hjob => nomatch h.answered hpc hjob
        started := nofun
        stopped := nofun
        exited := fun _ => hquit }
    · next hquit =>
      split at hgo
      · next hjob =>
        cases hgo
        exact { h with
          mutex := hmutex
          running := fun _ => hjob
          answered := fun hpc hset => nomatch h.answered hpc hset
          started := nofun
          stopped := nofun
          exited := nofun }
      · next hjob =>
        cases hgo
        exact { h with
          mutex := hmutex
          running := nofun
          answered := fun hpc hset => nomatch h.answered hpc hset
          started := fun _ hset => (hjob hset).elim
          stopped := fun _ hset => (hquit hset).elim
          exited := nofun }
  case notify =>
    cases hgo
    cases caller
    case blocked due =>
      exact { h with
        mutex := hmutex
        posted := fun _ => .inl rfl
        refuses := fun hq => nomatch h.refuses hq
        running := nofun
        answered := nofun
        started := nofun
        quits := fun hq => nomatch h.quits hq
        stopped := nofun
        exited := nofun }
    all_goals exact { h with
      mutex := hmutex
      running := nofun
      answered := nofun
      started := nofun
      stopped := nofun
      exited := nofun }

/-- A wait that ends, for whatever reason, leaves the job to be tested. -/
theorem Coherent.unblocks {timedOut : Bool} (h : Coherent s) (hpc : s.caller = .blocked due)
    (hs' : s' = { s with caller := .relock due timedOut }) (hmutex : MutexAgrees s'.holds s'.owner) : Coherent s' := by
  refine h.moves hs' hmutex (fun _ => .inl rfl) (fun hq => ?_) (by rintro ⟨⟩) (by rw [hpc]; nofun)
    (by rw [hpc]; nofun) (by rw [hpc]; exact id) rfl
  have haway := h.refuses hq
  rw [hpc] at haway
  cases haway

/-- Every step keeps the session coherent. -/
theorem Coherent.after (h : Coherent s) (hstep : step s act = some s') : Coherent s' := by
  obtain ⟨hmutexStep, hother⟩ := step_mutexStep hstep
  have hmutex := h.mutex.step hmutexStep hother
  cases act with
  | callerGo => exact h.callerGo hmutex hstep
  | submitGo => exact h.submitGo hmutex hstep
  | tick span =>
    cases hstep
    exact h.same hmutex rfl rfl rfl rfl rfl
  | callSubmit deadline =>
    obtain ⟨hidle, rfl⟩ := step_callSubmit hstep
    exact h.same hmutex (by rw [hidle]; rfl) rfl rfl rfl rfl
  | callNull =>
    obtain ⟨hidle, rfl⟩ := step_callNull hstep
    exact h.same hmutex (by rw [hidle]; rfl) rfl rfl rfl rfl
  | call call =>
    obtain ⟨hidle, ⟨-, rfl⟩ | ⟨-, rfl⟩⟩ := step_call hstep
    · exact h.same hmutex (by rw [hidle]; rfl) rfl rfl rfl rfl
    · exact h.same hmutex (by rw [hidle]; rfl) rfl rfl rfl rfl
  | hostFile isSet =>
    obtain ⟨deadline, hpc, rfl⟩ := step_hostFile hstep
    refine h.same hmutex ?_ rfl rfl rfl rfl
    cases isSet with
    | true => rw [hpc]; rfl
    | false => rw [hpc]; rfl
  | arguments accepted =>
    obtain ⟨deadline, hpc, hs'⟩ := step_arguments hstep
    obtain ⟨hjob, hquarantined⟩ := h.job_eq_false (by rw [hpc]; rfl) (by rw [hpc]; rfl)
    cases accepted with
    | true =>
      subst hs'
      exact h.same hmutex (by rw [hpc]; rfl) rfl rfl rfl rfl
    | false =>
      refine h.moves hs' hmutex (fun hset => ?_) (fun _ => rfl) (by rintro ⟨⟩) (by rw [hpc]; nofun)
        (by rw [hpc]; nofun) (by rw [hpc]; exact id) rfl
      cases hjob.symm.trans hset
  | callerWake =>
    obtain ⟨due, hpc, hs'⟩ := step_callerWake hstep
    exact h.unblocks hpc hs' hmutex
  | callerExpire =>
    obtain ⟨due, hpc, -, hs'⟩ := step_callerExpire hstep
    exact h.unblocks hpc hs' hmutex
  | submitWake =>
    obtain ⟨hpc, rfl⟩ := step_submitWake hstep
    exact { h with
      mutex := hmutex
      running := by rintro ⟨⟩
      answered := fun hblocked hjob => by cases hpc.symm.trans (h.answered hblocked hjob)
      started := by rintro ⟨⟩
      stopped := by rintro ⟨⟩
      exited := by rintro ⟨⟩ }
  | executed ok =>
    obtain ⟨hpc, rfl⟩ := step_executed hstep
    exact { h with
      mutex := hmutex
      posted := by rintro ⟨⟩
      running := by rintro ⟨⟩
      answered := fun _ _ => rfl
      started := by rintro ⟨⟩
      stopped := by rintro ⟨⟩
      exited := by rintro ⟨⟩ }

/-- Coherence is an invariant of the session's steps. -/
theorem coherent_kept (s : State) (act : Act) (s' : State) (h : Coherent s) (hstep : step s act = some s') :
    Coherent s' := h.after hstep

/-- A step that is nothing to the server. -/
theorem silent_step (hact : act.shows = none) (hjob : s'.job = s.job)
    (hstays : s.caller.submits = true → s'.caller ≠ .idle) (hserver : s'.server = s.server) :
    accepts Server.handle s.server (observe s act s').toList = some s'.server := by
  have hnone : observe s act s' = none := by
    have hidle : ¬ (s.caller.submits = true ∧ s'.caller = .idle) := fun h => hstays h.1 h.2
    have hpost : ¬ (s.job = false ∧ s'.job = true) := by
      rintro ⟨hfalse, htrue⟩
      cases hfalse.symm.trans (hjob.symm.trans htrue)
    rw [observe, hact]
    dsimp only
    rw [if_neg hidle, if_neg hpost]
  rw [hnone, hserver]
  rfl

/-- A step with which a submit returns. -/
theorem answer_step {code : Outcome} (hact : act.shows = none) (hsubmits : s.caller.submits = true)
    (hidle : s'.caller = .idle) (hreturned : s'.returned = some code)
    (hserver : s.server.handle (.answer code) = some s'.server) :
    accepts Server.handle s.server (observe s act s').toList = some s'.server := by
  have hanswer : observe s act s' = some (.answer code) := by
    rw [observe, hact]
    dsimp only
    rw [if_pos ⟨hsubmits, hidle⟩, hreturned]
    rfl
  rw [hanswer]
  change (s.server.handle (.answer code)).bind some = _
  rw [hserver]
  rfl

/-- A step of the caller is nothing to the server, a post, or an answer. -/
theorem callerGo_handles (h : Coherent s) (hgo : s.callerGo = some s') :
    accepts Server.handle s.server (observe s .callerGo s').toList = some s'.server := by
  have hact : Act.callerGo.shows = none := rfl
  rcases s with ⟨owner, job, quit, resultOk, quarantined, batching, batchUntil, now, caller, submit, returned⟩
  unfold State.callerGo at hgo
  cases caller <;> simp only at hgo
  case idle | readFile | validate | blocked | left => cases hgo
  case lockCheck | lockAdopt | lockPost | lockWait | relock | lockCall =>
    obtain ⟨-, rfl⟩ := map_lock_eq_some hgo
    exact silent_step hact rfl (by rintro _ ⟨⟩) rfl
  case check deadline =>
    split at hgo
    · next hq =>
      cases hgo
      subst hq
      refine answer_step hact rfl rfl rfl ?_
      cases job with
      | true => rfl
      | false => rfl
    · cases hgo
      exact silent_step hact rfl (by rintro _ ⟨⟩) rfl
  case adopt =>
    cases hgo
    obtain ⟨rfl, rfl⟩ := h.job_eq_false rfl rfl
    exact answer_step hact rfl rfl rfl rfl
  case post perSubmit =>
    cases hgo
    obtain ⟨rfl, rfl⟩ := h.job_eq_false rfl rfl
    rfl
  case notify due | closeNotify =>
    cases hgo
    unfold State.notifySubmit
    split
    · exact silent_step hact rfl (by rintro _ ⟨⟩) rfl
    · exact silent_step hact rfl (by rintro _ ⟨⟩) rfl
  case woken due timedOut =>
    cases hgo
    unfold State.testJob
    cases job with
    | false => exact silent_step hact rfl (by rintro _ ⟨⟩) rfl
    | true =>
      cases timedOut with
      | false => exact silent_step hact rfl (by rintro _ ⟨⟩) rfl
      | true => exact answer_step hact rfl rfl rfl rfl
  case finish =>
    obtain ⟨rfl, rfl⟩ : job = false ∧ quarantined = false := h.job_eq_false rfl rfl
    cases resultOk with
    | true =>
      cases hgo
      exact answer_step hact rfl rfl rfl rfl
    | false =>
      cases hgo
      exact answer_step hact rfl rfl rfl rfl
  case inCall call =>
    cases call with
    | query | endBatch =>
      cases hgo
      exact silent_step hact rfl (by rintro ⟨⟩) rfl
    | beginBatch deadline | close =>
      simp only [State.shortCall] at hgo
      split at hgo
      · cases hgo
        exact silent_step hact rfl (by rintro ⟨⟩) rfl
      · cases hgo
        exact silent_step hact rfl (by rintro ⟨⟩) rfl
  case joining =>
    split at hgo
    · cases hgo
      exact silent_step hact rfl (by rintro _ ⟨⟩) rfl
    · cases hgo

/-- An act that moves the caller alone, and neither into nor out of its wait, leaves the server as it is. -/
theorem server_moved {now : ℤ} (hpends : pc.phase.pends = s.caller.phase.pends) (hfinishing : pc.phase ≠ .finishing)
    (hfinished : s.caller.phase ≠ .finishing) :
    State.server { s with now := now, caller := pc, returned := returned } = s.server := by
  simp only [State.server, hpends, hfinishing, hfinished]

/-- A step of the submit thread other than the execution is nothing to the server. -/
theorem submitGo_handles (hgo : s.submitGo = some s') :
    accepts Server.handle s.server (observe s .submitGo s').toList = some s'.server := by
  rcases s with ⟨owner, job, quit, resultOk, quarantined, batching, batchUntil, now, caller, submit, returned⟩
  have hact : Act.submitGo.shows = none := rfl
  have hstays : caller.submits = true → caller ≠ .idle := by
    rintro hsubmits rfl
    cases hsubmits
  unfold State.submitGo at hgo
  cases submit <;> simp only at hgo
  case blocked | executing | exited => cases hgo
  case lockStart | lockAgain =>
    obtain ⟨-, rfl⟩ := map_lock_eq_some hgo
    exact silent_step hact rfl hstays rfl
  case test =>
    split at hgo
    · cases hgo
      exact silent_step hact rfl hstays rfl
    · split at hgo
      · cases hgo
        exact silent_step hact rfl hstays rfl
      · cases hgo
        exact silent_step hact rfl hstays rfl
  case notify =>
    cases hgo
    cases caller
    case idle => exact silent_step hact rfl hstays rfl
    all_goals exact silent_step hact rfl (by rintro _ ⟨⟩) rfl

/-- A submit with a null pointer is rejected, and the server stays as it is. -/
theorem callNull_handles (hstep : step s .callNull = some s') :
    accepts Server.handle s.server (observe s .callNull s').toList = some s'.server := by
  obtain ⟨hidle, rfl⟩ := step_callNull hstep
  rcases s with ⟨owner, job, quit, resultOk, quarantined, batching, batchUntil, now, caller, submit, returned⟩
  cases hidle
  cases job with
  | true => rfl
  | false => rfl

/-- Arguments that are not accepted are an answer of a server without a job. -/
theorem arguments_handles {accepted : Bool} (h : Coherent s) (hstep : step s (.arguments accepted) = some s') :
    accepts Server.handle s.server (observe s (.arguments accepted) s').toList = some s'.server := by
  obtain ⟨deadline, hpc, rfl⟩ := step_arguments hstep
  rcases s with ⟨owner, job, quit, resultOk, quarantined, batching, batchUntil, now, caller, submit, returned⟩
  cases hpc
  obtain ⟨rfl, rfl⟩ : job = false ∧ quarantined = false := h.job_eq_false rfl rfl
  cases accepted with
  | true => exact silent_step rfl rfl (by rintro _ ⟨⟩) rfl
  | false => exact answer_step rfl rfl rfl rfl rfl

/-- The execution ends the job, whose caller waits for it or has gone. -/
theorem executed_handles {ok : Bool} (h : Coherent s) (hstep : step s (.executed ok) = some s') :
    accepts Server.handle s.server (observe s (.executed ok) s').toList = some s'.server := by
  obtain ⟨hpc, rfl⟩ := step_executed hstep
  rcases s with ⟨owner, job, quit, resultOk, quarantined, batching, batchUntil, now, caller, submit, returned⟩
  cases hpc
  obtain rfl : job = true := h.running rfl
  cases caller <;> rfl

/-- Every step is nothing to the server, or one thing it may do. -/
theorem step_handles (h : Coherent s) (hstep : step s act = some s') :
    accepts Server.handle s.server (observe s act s').toList = some s'.server := by
  have hstays : s.caller.submits = true → s.caller ≠ .idle := by
    intro hsubmits hidle
    rw [hidle] at hsubmits
    cases hsubmits
  cases act with
  | callerGo => exact callerGo_handles h hstep
  | submitGo => exact submitGo_handles hstep
  | callNull => exact callNull_handles hstep
  | arguments accepted => exact arguments_handles h hstep
  | executed ok => exact executed_handles h hstep
  | tick span =>
    cases hstep
    exact silent_step rfl rfl hstays rfl
  | callSubmit deadline =>
    obtain ⟨hidle, rfl⟩ := step_callSubmit hstep
    exact silent_step rfl rfl (by rintro _ ⟨⟩) (server_moved (by rw [hidle]; rfl) nofun (by rw [hidle]; nofun))
  | call call =>
    obtain ⟨hidle, ⟨-, rfl⟩ | ⟨-, rfl⟩⟩ := step_call hstep
    · exact silent_step rfl rfl (by rintro _ ⟨⟩) (server_moved (by rw [hidle]; rfl) nofun (by rw [hidle]; nofun))
    · refine silent_step rfl rfl (fun hsubmits => (hstays hsubmits hidle).elim) ?_
      exact server_moved (by rw [hidle]) nofun (by rw [hidle]; nofun)
  | hostFile isSet =>
    obtain ⟨deadline, hpc, rfl⟩ := step_hostFile hstep
    cases isSet with
    | true => exact silent_step rfl rfl (by rintro _ ⟨⟩) (server_moved (by rw [hpc]; rfl) nofun (by rw [hpc]; nofun))
    | false => exact silent_step rfl rfl (by rintro _ ⟨⟩) (server_moved (by rw [hpc]; rfl) nofun (by rw [hpc]; nofun))
  | callerWake =>
    obtain ⟨due, hpc, rfl⟩ := step_callerWake hstep
    exact silent_step rfl rfl (by rintro _ ⟨⟩) (server_moved (by rw [hpc]; rfl) nofun (by rw [hpc]; nofun))
  | callerExpire =>
    obtain ⟨due, hpc, -, rfl⟩ := step_callerExpire hstep
    exact silent_step rfl rfl (by rintro _ ⟨⟩) (server_moved (by rw [hpc]; rfl) nofun (by rw [hpc]; nofun))
  | submitWake =>
    obtain ⟨hpc, rfl⟩ := step_submitWake hstep
    exact silent_step rfl rfl hstays rfl

/-- A server before its first job. -/
def Server.fresh : Server := ⟨false, .absent⟩

/-- Whether an event is a post. -/
def Event.isPost : Event → Bool
  | .post => true
  | _ => false

/-- Whether an event is an execution. -/
def Event.isExecute : Event → Bool
  | .execute _ => true
  | _ => false

/-- How many of the jobs of a server have still to be executed. -/
def Server.pending (r : Server) : ℕ := if r.job = .waiting ∨ r.job = .abandoned then 1 else 0

/-- A post adds a job to be executed, and an execution takes it away. -/
theorem pending_handle {event : Event} (h : r.handle event = some r') :
    r'.pending + (if event.isExecute then 1 else 0) = r.pending + (if event.isPost then 1 else 0) := by
  rcases r with ⟨quarantined, job⟩
  cases event with
  | post =>
    simp only [Server.handle] at h
    split at h
    · next hfree =>
      cases h
      obtain ⟨-, rfl⟩ := hfree
      rfl
    · cases h
  | execute ok => cases job <;> cases h <;> rfl
  | answer code =>
    cases code with
    | ok | deviceFailed | timeout =>
      simp only [Server.handle] at h
      split at h
      · next hjob =>
        cases hjob
        cases h
        rfl
      · cases h
    | refused | badArgs =>
      simp only [Server.handle] at h
      split at h
      · cases h
        rfl
      · cases h
  | reject =>
    simp only [Server.handle] at h
    split at h
    · cases h
      rfl
    · cases h

/-- A session that gave up a job, or could not do one, takes no other. -/
theorem quarantined_handle {event : Event} (hq : r.quarantined = true) (h : r.handle event = some r') :
    r'.quarantined = true := by
  rcases r with ⟨quarantined, job⟩
  cases hq
  cases event with
  | post => cases h
  | execute ok => cases job <;> cases h <;> rfl
  | answer code =>
    cases code with
    | ok | refused =>
      simp only [Server.handle] at h
      split at h
      · cases h
        rfl
      · cases h
    | deviceFailed | timeout =>
      simp only [Server.handle] at h
      split at h
      · cases h
        rfl
      · cases h
    | badArgs => cases h
  | reject =>
    simp only [Server.handle] at h
    split at h
    · cases h
      rfl
    · cases h

/-- An answer other than `OK` and `BAD_ARGS` is that of a quarantined session. -/
theorem quarantined_of_answer {code : Outcome} (h : r.handle (.answer code) = some r') (hok : code ≠ .ok)
    (hargs : code ≠ .badArgs) : r'.quarantined = true := by
  cases code with
  | ok => exact (hok rfl).elim
  | badArgs => exact (hargs rfl).elim
  | refused | deviceFailed | timeout =>
    simp only [Server.handle] at h
    split at h
    · cases h
      rfl
    · cases h

/-- However the steps of the two threads fall, a session is a server that runs one job at a time: a submit returns
`OK` when its own job was executed and succeeded, `DEVICE_FAILED` when it was executed and failed, `TIMEOUT` when it
was not executed before the caller gave up. A job is executed once at most, and only the last one can be left
over. After any answer but `OK` and `BAD_ARGS` no job is posted any more. -/
theorem session_serves (acts : List Act) :
    accepts Server.handle Server.fresh (observed step observe State.opened acts) =
        some (runEnd step State.opened acts).server ∧
      (runEnd step State.opened acts).server.pending +
          (observed step observe State.opened acts).countP Event.isExecute =
        (observed step observe State.opened acts).countP Event.isPost ∧
      ∀ before after code, observed step observe State.opened acts = before ++ .answer code :: after →
        code ≠ .ok → code ≠ .badArgs → .post ∉ after := by
  have hhandles : ∀ s act s', Coherent s → step s act = some s' →
      accepts Server.handle s.server (observe s act s').toList = some s'.server := fun _ _ _ h hstep =>
    step_handles h hstep
  have haccepts : accepts Server.handle Server.fresh (observed step observe State.opened acts) =
      some (runEnd step State.opened acts).server :=
    accepts_observed State.server coherent_kept hhandles Coherent.opened acts
  refine ⟨haccepts, ?_, ?_⟩
  · have hbalance := accepts_balance Server.pending (fun _ _ _ h => pending_handle h) haccepts
    rw [hbalance]
    exact Nat.zero_add _
  · intro before after code hevents hok hargs
    rw [hevents, accepts_append] at haccepts
    obtain ⟨r, -, hrest⟩ := Option.bind_eq_some_iff.mp haccepts
    obtain ⟨answered, hanswer, hafter⟩ := Option.bind_eq_some_iff.mp hrest
    have hnever : ∀ r : Server, r.quarantined = true → r.handle .post = none := fun r hq =>
      if_neg (by rw [hq]; exact fun hfree => nomatch hfree.1)
    exact not_mem_of_accepts Server.handle (fun _ _ _ hq h => quarantined_handle hq h) hnever
      (quarantined_of_answer hanswer hok hargs) hafter

/-! ## Every call returns -/

/-- The steps that a thread takes when nobody wakes it without reason and no deadline passes. -/
def Act.own : Act → Bool
  | .hostFile _ => true
  | .arguments _ => true
  | .callerGo => true
  | .submitGo => true
  | .executed _ => true
  | _ => false

/-- How many own steps another act can bring with it. -/
def Act.cost : Act → ℕ
  | .callSubmit _ => 19
  | .call _ => 6
  | .callerWake => 3
  | .callerExpire => 3
  | .submitWake => 2
  | _ => 0

/-- A bound for the own steps from a counter of the caller on, with those its notification brings. -/
def CallerPc.rank : CallerPc → ℕ
  | .idle => 0
  | .lockCheck _ => 19
  | .check _ => 18
  | .readFile _ => 17
  | .lockAdopt => 2
  | .adopt => 1
  | .validate _ => 16
  | .lockPost _ => 15
  | .post _ => 14
  | .notify _ => 6
  | .lockWait _ => 3
  | .blocked _ => 0
  | .relock _ _ => 3
  | .woken _ _ => 2
  | .finish => 1
  | .lockCall _ => 6
  | .inCall _ => 5
  | .closeNotify => 4
  | .joining => 1
  | .left => 0

/-- The same for the submit thread. -/
def SubmitPc.rank : SubmitPc → ℕ
  | .lockStart => 2
  | .test => 1
  | .blocked => 0
  | .executing => 0
  | .notify => 6
  | .lockAgain => 2
  | .exited => 0

/-- What a job still brings: its execution, and what follows it. -/
def jobRank : Bool → ℕ
  | true => 7
  | false => 0

/-- The own steps a session can take at most. -/
def State.rank (s : State) : ℕ := s.caller.rank + s.submit.rank + jobRank s.job

/-- A notification brings the submit thread's two steps to its test. -/
theorem rank_notifySubmit (h : pc.rank + 3 ≤ s.caller.rank) :
    { s.notifySubmit with caller := pc }.rank + 1 ≤ s.rank := by
  unfold State.notifySubmit
  split
  · next hblocked =>
    simp only [State.rank, hblocked, SubmitPc.rank]
    omega
  · simp only [State.rank]
    omega

/-- An own step of the caller uses up the rank. -/
theorem rank_callerGo (hgo : s.callerGo = some s') : s'.rank + 1 ≤ s.rank := by
  rcases s with ⟨owner, job, quit, resultOk, quarantined, batching, batchUntil, now, caller, submit, returned⟩
  unfold State.callerGo at hgo
  cases caller <;> simp only at hgo
  case idle | readFile | validate | blocked | left => cases hgo
  case lockCheck | lockAdopt | lockPost | lockWait | relock | lockCall =>
    obtain ⟨-, rfl⟩ := map_lock_eq_some hgo
    simp only [State.rank, CallerPc.rank]
    omega
  case check deadline =>
    split at hgo
    · cases hgo
      simp only [State.rank, State.ret, CallerPc.rank]
      omega
    · cases hgo
      simp only [State.rank, CallerPc.rank]
      omega
  case adopt =>
    cases hgo
    simp only [State.rank, State.ret, CallerPc.rank]
    omega
  case post perSubmit =>
    cases hgo
    simp only [State.rank, CallerPc.rank, jobRank]
    omega
  case notify due | closeNotify =>
    cases hgo
    exact rank_notifySubmit le_rfl
  case woken due timedOut =>
    cases hgo
    unfold State.testJob
    split
    · simp only [State.rank, CallerPc.rank]
      omega
    · split
      · simp only [State.rank, State.ret, CallerPc.rank]
        omega
      · simp only [State.rank, CallerPc.rank]
        omega
  case finish =>
    split at hgo
    · cases hgo
      simp only [State.rank, State.ret, CallerPc.rank]
      omega
    · cases hgo
      simp only [State.rank, State.ret, CallerPc.rank]
      omega
  case inCall call =>
    cases call with
    | query | endBatch =>
      cases hgo
      simp only [State.rank, State.shortCall, State.ret, CallerPc.rank]
      omega
    | beginBatch deadline | close =>
      simp only [State.shortCall] at hgo
      split at hgo
      · cases hgo
        simp only [State.rank, State.ret, CallerPc.rank]
        omega
      · cases hgo
        simp only [State.rank, State.ret, CallerPc.rank]
        omega
  case joining =>
    split at hgo
    · cases hgo
      simp only [State.rank, CallerPc.rank]
      omega
    · cases hgo

/-- So does one of the submit thread. -/
theorem rank_submitGo (hgo : s.submitGo = some s') : s'.rank + 1 ≤ s.rank := by
  rcases s with ⟨owner, job, quit, resultOk, quarantined, batching, batchUntil, now, caller, submit, returned⟩
  unfold State.submitGo at hgo
  cases submit <;> simp only at hgo
  case blocked | executing | exited => cases hgo
  case lockStart | lockAgain =>
    obtain ⟨-, rfl⟩ := map_lock_eq_some hgo
    simp only [State.rank, SubmitPc.rank]
    omega
  case test =>
    split at hgo
    · cases hgo
      simp only [State.rank, SubmitPc.rank]
      omega
    · split at hgo
      · cases hgo
        simp only [State.rank, SubmitPc.rank]
        omega
      · cases hgo
        simp only [State.rank, SubmitPc.rank]
        omega
  case notify =>
    cases hgo
    unfold State.notifyCaller
    split
    · simp only [State.rank, CallerPc.rank, SubmitPc.rank]
      omega
    · simp only [State.rank, SubmitPc.rank]
      omega

/-- An act that moves the caller alone changes the rank as the caller's counter does. -/
theorem rank_caller_le {now : ℤ} {used brought : ℕ} (h : pc.rank + used ≤ s.caller.rank + brought) :
    State.rank { s with now := now, caller := pc, returned := returned } + used ≤ s.rank + brought := by
  simp only [State.rank]
  omega

/-- An own step uses up the rank, and another act adds its cost at most. -/
theorem rank_step (h : Coherent s) (hstep : step s act = some s') :
    s'.rank + (if act.own then 1 else 0) ≤ s.rank + act.cost := by
  cases act with
  | callerGo => exact rank_callerGo hstep
  | submitGo => exact rank_submitGo hstep
  | tick span =>
    cases hstep
    exact le_rfl
  | callSubmit deadline =>
    obtain ⟨hidle, rfl⟩ := step_callSubmit hstep
    exact rank_caller_le (by rw [hidle]; exact le_rfl)
  | callNull =>
    obtain ⟨hidle, rfl⟩ := step_callNull hstep
    exact rank_caller_le (by rw [hidle]; exact le_rfl)
  | call call =>
    obtain ⟨hidle, ⟨-, rfl⟩ | ⟨-, rfl⟩⟩ := step_call hstep
    · exact rank_caller_le (by rw [hidle]; exact le_rfl)
    · exact rank_caller_le (by rw [hidle]; exact Nat.zero_le _)
  | hostFile isSet =>
    obtain ⟨deadline, hpc, rfl⟩ := step_hostFile hstep
    refine rank_caller_le ?_
    rw [hpc]
    cases isSet with
    | true => exact Nat.le_of_ble_eq_true rfl
    | false => exact Nat.le_of_ble_eq_true rfl
  | arguments accepted =>
    obtain ⟨deadline, hpc, rfl⟩ := step_arguments hstep
    cases accepted with
    | true => exact rank_caller_le (by rw [hpc]; exact Nat.le_of_ble_eq_true rfl)
    | false => exact rank_caller_le (by rw [hpc]; exact Nat.le_of_ble_eq_true rfl)
  | callerWake =>
    obtain ⟨due, hpc, rfl⟩ := step_callerWake hstep
    exact rank_caller_le (by rw [hpc]; exact le_rfl)
  | callerExpire =>
    obtain ⟨due, hpc, -, rfl⟩ := step_callerExpire hstep
    exact rank_caller_le (by rw [hpc]; exact le_rfl)
  | submitWake =>
    obtain ⟨hpc, rfl⟩ := step_submitWake hstep
    change s.caller.rank + 2 + jobRank s.job ≤ s.caller.rank + s.submit.rank + jobRank s.job + 2
    omega
  | executed ok =>
    obtain ⟨hpc, rfl⟩ := step_executed hstep
    change s.caller.rank + 6 + 0 + 1 ≤ s.caller.rank + s.submit.rank + jobRank s.job
    rw [h.running hpc, jobRank]
    omega

/-- A submit thread that neither waits nor has ended can take a step when the caller does not hold the mutex. -/
theorem Coherent.submit_progress (h : Coherent s) (hcaller : s.caller.holds = false) (hblocked : s.submit ≠ .blocked)
    (hexited : s.submit ≠ .exited) : ∃ act, act.own = true ∧ (step s act).isSome = true := by
  have hfree : s.submit.holds = false → s.owner = none := by
    intro hsubmit
    cases howner : s.owner with
    | none => rfl
    | some thread =>
      have hholds := (h.mutex thread).mpr howner
      cases thread with
      | caller => cases hcaller.symm.trans hholds
      | submit => cases hsubmit.symm.trans hholds
  cases hpc : s.submit with
  | lockStart | lockAgain =>
    refine ⟨.submitGo, rfl, ?_⟩
    rw [step, State.submitGo, hpc]
    simp only [State.lock, hfree (by rw [hpc]; rfl)]
    rfl
  | test =>
    refine ⟨.submitGo, rfl, ?_⟩
    rw [step, State.submitGo, hpc]
    dsimp only
    split
    · rfl
    · split
      · rfl
      · rfl
  | executing =>
    refine ⟨.executed true, rfl, ?_⟩
    rw [step, if_pos hpc]
    rfl
  | notify =>
    refine ⟨.submitGo, rfl, ?_⟩
    rw [step, State.submitGo, hpc]
    rfl
  | blocked => exact (hblocked hpc).elim
  | exited => exact (hexited hpc).elim

/-- A caller about to take the mutex can, or else the submit thread that holds it can take a step. -/
theorem Coherent.lock_progress (h : Coherent s) (hcaller : s.caller.holds = false)
    (hlock : s.owner = none → s.callerGo.isSome = true) : ∃ act, act.own = true ∧ (step s act).isSome = true := by
  cases howner : s.owner with
  | none => exact ⟨.callerGo, rfl, hlock howner⟩
  | some thread =>
    have hholds := (h.mutex thread).mpr howner
    cases thread with
    | caller => cases hcaller.symm.trans hholds
    | submit =>
      change s.submit.holds = true at hholds
      refine h.submit_progress hcaller ?_ ?_
      · intro hpc
        rw [hpc] at hholds
        cases hholds
      · intro hpc
        rw [hpc] at hholds
        cases hholds

/-- As long as a call is under way, one of the threads can take a step of its own. -/
theorem Coherent.progress (h : Coherent s) (hidle : s.caller ≠ .idle) (hleft : s.caller ≠ .left) :
    ∃ act, act.own = true ∧ (step s act).isSome = true := by
  rcases s with ⟨owner, job, quit, resultOk, quarantined, batching, batchUntil, now, caller, submit, returned⟩
  cases caller
  case idle => exact (hidle rfl).elim
  case left => exact (hleft rfl).elim
  case lockCheck | lockAdopt | lockPost | lockWait | relock | lockCall =>
    refine h.lock_progress rfl ?_
    rintro rfl
    rfl
  case readFile deadline => exact ⟨.hostFile false, rfl, rfl⟩
  case validate deadline => exact ⟨.arguments true, rfl, rfl⟩
  case check deadline =>
    refine ⟨.callerGo, rfl, ?_⟩
    cases quarantined <;> rfl
  case finish =>
    refine ⟨.callerGo, rfl, ?_⟩
    cases resultOk <;> rfl
  case adopt | post | notify | woken | inCall | closeNotify => exact ⟨.callerGo, rfl, rfl⟩
  case blocked due =>
    refine h.submit_progress rfl ?_ ?_
    · intro hpc
      cases job with
      | true => cases h.started hpc rfl
      | false => cases hpc.symm.trans (h.answered rfl rfl)
    · intro hpc
      cases h.quits (h.exited hpc)
  case joining =>
    by_cases hexited : submit = .exited
    · refine ⟨.callerGo, rfl, ?_⟩
      subst hexited
      rfl
    · exact h.submit_progress rfl (fun hpc => nomatch h.stopped hpc (h.told rfl)) hexited

/-- The rank of a session is never more than 32. -/
theorem rank_le (s : State) : s.rank ≤ 32 := by
  have hcaller : s.caller.rank ≤ 19 := by cases s.caller <;> exact Nat.le_of_ble_eq_true rfl
  have hsubmit : s.submit.rank ≤ 6 := by cases s.submit <;> decide
  have hjob : jobRank s.job ≤ 7 := by cases s.job <;> decide
  unfold State.rank
  omega

/-- No notification is lost and no thread waits for ever. However the steps fall, the two threads have taken no more
steps of their own than two for the start, 19 for each submit, six for each other call and three for each wait that
ended without a notification. As long as a call is under way one of them can take the next one, and 32 of them at
most end the call, with no deadline that has to pass. -/
theorem calls_return (acts : List Act) :
    (taken step State.opened acts).countP Act.own ≤ 2 + ((taken step State.opened acts).map Act.cost).sum ∧
      ((runEnd step State.opened acts).caller ≠ .idle → (runEnd step State.opened acts).caller ≠ .left →
        ∃ act, act.own = true ∧ (step (runEnd step State.opened acts) act).isSome = true) ∧
      ∃ more, (∀ act ∈ more, Act.own act = true) ∧ more.length ≤ 32 ∧
        ((runEnd step (runEnd step State.opened acts) more).caller = .idle ∨
          (runEnd step (runEnd step State.opened acts) more).caller = .left) := by
  have hcoherent : Coherent (runEnd step State.opened acts) := runEnd_kept coherent_kept Coherent.opened acts
  have hbudget : (taken step State.opened acts).countP Act.own + (runEnd step State.opened acts).rank ≤
      State.opened.rank + ((taken step State.opened acts).map Act.cost).sum :=
    countP_taken_le State.rank coherent_kept (fun _ _ _ h hstep => rank_step h hstep) Coherent.opened acts
  have hopened : State.opened.rank = 2 := rfl
  refine ⟨by omega, hcoherent.progress, ?_⟩
  have hrank : ∀ s act s', Coherent s → step s act = some s' → act.own = true → s'.rank < s.rank := by
    intro s act s' h hstep hown
    have hused := rank_step h hstep
    have hfree : act.cost = 0 := by
      cases act with
      | tick | callSubmit | callNull | call | callerWake | callerExpire | submitWake => cases hown
      | hostFile | arguments | callerGo | submitGo | executed => rfl
    rw [if_pos hown, hfree] at hused
    omega
  have hprogress : ∀ s, Coherent s → ¬ (s.caller = .idle ∨ s.caller = .left) →
      ∃ act, act.own = true ∧ (step s act).isSome = true := fun s h hgoal =>
    h.progress (fun hpc => hgoal (.inl hpc)) fun hpc => hgoal (.inr hpc)
  obtain ⟨more, hown, hlength, hgoal⟩ := exists_run_to State.rank coherent_kept hrank hprogress hcoherent
  exact ⟨more, hown, hlength.trans (rank_le _), hgoal⟩

end AneLinux.Inproc
