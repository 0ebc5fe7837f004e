import AneLinux.Support.Mutex
import Mathlib.Data.Int.Notation
import Mathlib.Data.List.Basic

/-!
# The submit thread and its caller

`ane_inproc` runs a plan on a persistent thread. The caller posts a job under the mutex, notifies, and
waits on the condition variable until the job is gone or the deadline has passed. Both sides are modelled
as programs with a counter: a step is enabled when the counter is there and, for a step that takes the
mutex, when nobody holds it. A wait gives the mutex up and returns only after it has it again.

The submit thread calls `execute_plan` with the mutex held. The caller's wait can end before the plan
does, but it cannot return, so the timeout branch is never taken while a plan runs.
-/

namespace AneLinux.Inproc

open AneLinux.Support

/-- The two threads. -/
inductive Thread
  | caller
  | submit
deriving DecidableEq, Repr

/-- What a call returns. -/
inductive Outcome
  | ok
  | badArgs
  | refused
  | timeout
  | deviceFailed
deriving DecidableEq, Repr

/-- A call whose work is one section under the mutex. -/
inductive ShortCall
  | query
  | beginBatch (deadline : ℤ)
  | endBatch
  | close
deriving DecidableEq, Repr

/-- The arguments that a short call takes; any other `deadline_ms` is `BAD_ARGS`. -/
def ShortCall.accepted : ShortCall → Bool
  | .beginBatch deadline => decide (0 < deadline)
  | _ => true

/-- Where the caller is. The steps of `ane_inproc_submit` are in the order of the code. -/
inductive CallerPc
  | idle
  | lockCheck (deadline : ℤ)
  | check (deadline : ℤ)
  | readFile (deadline : ℤ)
  | lockAdopt
  | adopt
  | validate (deadline : ℤ)
  | lockPost (perSubmit : ℤ)
  | post (perSubmit : ℤ)
  | notify (due : ℤ)
  | lockWait (due : ℤ)
  | blocked (due : ℤ)
  | relock (due : ℤ) (timedOut : Bool)
  | woken (due : ℤ) (timedOut : Bool)
  | finish
  | lockCall (call : ShortCall)
  | inCall (call : ShortCall)
  | closeNotify
  | joining
  | left
deriving DecidableEq, Repr

/-- Where the submit thread is. -/
inductive SubmitPc
  | lockStart
  | test
  | blocked
  | executing
  | notify
  | lockAgain
  | exited
deriving DecidableEq, Repr

/-- The session as far as its threads share it, their counters, the clock, and the last code returned. -/
structure State where
  owner : Option Thread
  job : Bool
  quit : Bool
  resultOk : Bool
  quarantined : Bool
  batching : Bool
  batchUntil : ℤ
  now : ℤ
  caller : CallerPc
  submit : SubmitPc
  returned : Option Outcome
deriving DecidableEq, Repr

/-- A session after `ane_inproc_open`. -/
def State.opened : State where
  owner := none
  job := false
  quit := false
  resultOk := false
  quarantined := false
  batching := false
  batchUntil := 0
  now := 0
  caller := .idle
  submit := .lockStart
  returned := none

/-- What a thread does next, where the code leaves it open. -/
inductive Act
  /-- Time passes. -/
  | tick (span : ℕ)
  /-- The caller begins `ane_inproc_submit`. -/
  | callSubmit (deadline : ℤ)
  /-- The caller begins `ane_inproc_submit` with a null pointer. -/
  | callNull
  /-- The caller begins another call. -/
  | call (call : ShortCall)
  /-- The caller reads the quarantine file; it may be set. -/
  | hostFile (isSet : Bool)
  /-- The caller checks its arguments behind the null pointers. -/
  | arguments (accepted : Bool)
  /-- The next step of the caller. -/
  | callerGo
  /-- The caller's wait ends without a notification. -/
  | callerWake
  /-- The caller's wait ends at its deadline. -/
  | callerExpire
  /-- The next step of the submit thread. -/
  | submitGo
  /-- The submit thread's wait ends without a notification. -/
  | submitWake
  /-- `execute_plan` returns or throws. -/
  | executed (ok : Bool)
deriving DecidableEq, Repr

/-- Whether an act is one of the submit thread. -/
def Act.ofSubmit : Act → Bool
  | .submitGo => true
  | .submitWake => true
  | .executed _ => true
  | _ => false

/-- Take the mutex. -/
def State.lock (s : State) (thread : Thread) : Option State :=
  if s.owner = none then some { s with owner := some thread } else none

/-- Return from a call. -/
def State.ret (s : State) (code : Outcome) : State := { s with caller := .idle, returned := some code }

/-- The loop of `wait_until`, with the mutex held: leave it, or block again. -/
def State.testJob (s : State) (due : ℤ) (timedOut : Bool) : State :=
  if s.job = false then { s with caller := .finish }
  else if timedOut then { s with quarantined := true, owner := none }.ret .timeout
  else { s with caller := .blocked due, owner := none }

/-- The section of a short call. -/
def State.shortCall (s : State) : ShortCall → State
  | .query => { s with owner := none, caller := .idle }
  | .beginBatch deadline =>
    if s.quarantined then { s with owner := none }.ret .refused
    else { s with owner := none, batchUntil := s.now + deadline, batching := true }.ret .ok
  | .endBatch => { s with owner := none, batching := false }.ret .ok
  | .close =>
    if s.quarantined then { s with owner := none, caller := .left }
    else { s with owner := none, quit := true, caller := .closeNotify }

/-- `notify_all` by the caller: a submit thread that waits has to take the mutex next. -/
def State.notifySubmit (s : State) : State :=
  if s.submit = .blocked then { s with submit := .lockAgain } else s

/-- `notify_all` by the submit thread. -/
def State.notifyCaller (s : State) : State :=
  match s.caller with
  | .blocked due => { s with caller := .relock due false }
  | _ => s

/-- The next step of the caller. -/
def State.callerGo (s : State) : Option State :=
  match s.caller with
  | .lockCheck deadline => (s.lock .caller).map fun s => { s with caller := .check deadline }
  | .check deadline =>
    if s.quarantined then some ({ s with owner := none }.ret .refused)
    else some { s with owner := none, caller := .readFile deadline }
  | .lockAdopt => (s.lock .caller).map fun s => { s with caller := .adopt }
  | .adopt => some ({ s with owner := none, quarantined := true }.ret .refused)
  | .lockPost perSubmit => (s.lock .caller).map fun s => { s with caller := .post perSubmit }
  | .post perSubmit =>
    some { s with resultOk := false, job := true, owner := none,
                  caller := .notify (if s.batching then s.batchUntil else perSubmit) }
  | .notify due => some { s.notifySubmit with caller := .lockWait due }
  | .lockWait due => (s.lock .caller).map fun s => { s with caller := .woken due false }
  | .relock due timedOut => (s.lock .caller).map fun s => { s with caller := .woken due timedOut }
  | .woken due timedOut => some (s.testJob due timedOut)
  | .finish =>
    if s.resultOk then some ({ s with owner := none }.ret .ok)
    else some ({ s with owner := none, quarantined := true }.ret .deviceFailed)
  | .lockCall call => (s.lock .caller).map fun s => { s with caller := .inCall call }
  | .inCall call => some (s.shortCall call)
  | .closeNotify => some { s.notifySubmit with caller := .joining }
  | .joining => if s.submit = .exited then some { s with caller := .left } else none
  | _ => none

/-- The next step of the submit thread: `submit_loop`. -/
def State.submitGo (s : State) : Option State :=
  match s.submit with
  | .lockStart => (s.lock .submit).map fun s => { s with submit := .test }
  | .lockAgain => (s.lock .submit).map fun s => { s with submit := .test }
  | .test =>
    if s.quit then some { s with owner := none, submit := .exited }
    else if s.job then some { s with submit := .executing }
    else some { s with owner := none, submit := .blocked }
  | .notify => some { s.notifyCaller with submit := .lockAgain }
  | _ => none

/-- One step of the session. -/
def step (s : State) : Act → Option State
  | .tick span => some { s with now := s.now + span }
  | .callSubmit deadline => if s.caller = .idle then some { s with caller := .lockCheck deadline } else none
  | .callNull => if s.caller = .idle then some (s.ret .badArgs) else none
  | .call call =>
    if s.caller = .idle then some (if call.accepted then { s with caller := .lockCall call } else s.ret .badArgs)
    else none
  | .hostFile isSet =>
    match s.caller with
    | .readFile deadline => some { s with caller := if isSet then .lockAdopt else .validate deadline }
    | _ => none
  | .arguments accepted =>
    match s.caller with
    | .validate deadline =>
      if accepted then some { s with caller := .lockPost (s.now + deadline) } else some (s.ret .badArgs)
    | _ => none
  | .callerGo => s.callerGo
  | .callerWake =>
    match s.caller with
    | .blocked due => some { s with caller := .relock due false }
    | _ => none
  | .callerExpire =>
    match s.caller with
    | .blocked due => if due ≤ s.now then some { s with caller := .relock due true } else none
    | _ => none
  | .submitGo => s.submitGo
  | .submitWake => if s.submit = .blocked then some { s with submit := .lockAgain } else none
  | .executed ok =>
    if s.submit = .executing then some { s with resultOk := ok, job := false, owner := none, submit := .notify }
    else none

/-- A run of acts; it ends where an act is not enabled. -/
def visited (s : State) : List Act → List State
  | [] => [s]
  | act :: rest =>
    match step s act with
    | none => [s]
    | some after => s :: visited after rest

/-- The counters at which the caller holds the mutex. -/
def CallerPc.holds : CallerPc → Bool
  | .check _ => true
  | .adopt => true
  | .post _ => true
  | .woken _ _ => true
  | .finish => true
  | .inCall _ => true
  | _ => false

/-- The counters at which the submit thread holds the mutex: `execute_plan` is one of them. -/
def SubmitPc.holds : SubmitPc → Bool
  | .test => true
  | .executing => true
  | _ => false

/-- Whether a thread holds the mutex by its counter. -/
def State.holds (s : State) : Thread → Bool
  | .caller => s.caller.holds
  | .submit => s.submit.holds

/-- The thread of an act; the clock belongs to nobody, and its act touches no thread. -/
def Act.thread (act : Act) : Thread := if act.ofSubmit then .submit else .caller

variable {s s' : State} {thread : Thread} {act : Act}

/-- Who takes the mutex found it free. -/
theorem lock_eq_some (h : s.lock thread = some s') : s.owner = none ∧ s' = { s with owner := some thread } := by
  unfold State.lock at h
  split at h
  · next hfree => exact ⟨hfree, (Option.some.inj h).symm⟩
  · cases h

/-- A step of the caller that takes the mutex found it free. -/
theorem map_lock_eq_some {f : State → State} (h : (s.lock thread).map f = some s') :
    s.owner = none ∧ s' = f { s with owner := some thread } := by
  obtain ⟨locked, hlock, rfl⟩ := Option.map_eq_some_iff.mp h
  obtain ⟨hfree, rfl⟩ := lock_eq_some hlock
  exact ⟨hfree, rfl⟩

/-- Leaving or repeating the wait: the mutex is kept for what follows the wait, else given up. -/
theorem testJob_mutexStep (s : State) (due : ℤ) (timedOut : Bool) :
    MutexStep .caller true (s.testJob due timedOut).caller.holds s.owner (s.testJob due timedOut).owner ∧
      (s.testJob due timedOut).submit = s.submit := by
  unfold State.testJob
  by_cases hjob : s.job = false
  · rw [if_pos hjob]
    exact ⟨.stay true s.owner, rfl⟩
  · rw [if_neg hjob]
    cases timedOut with
    | true => exact ⟨.give s.owner, rfl⟩
    | false => exact ⟨.give s.owner, rfl⟩

/-- A short call gives the mutex up. -/
theorem shortCall_mutexStep (s : State) (call : ShortCall) :
    MutexStep .caller true (s.shortCall call).caller.holds s.owner (s.shortCall call).owner ∧
      (s.shortCall call).submit = s.submit := by
  cases call with
  | query => exact ⟨.give s.owner, rfl⟩
  | endBatch => exact ⟨.give s.owner, rfl⟩
  | beginBatch deadline =>
    simp only [State.shortCall]
    split
    · exact ⟨.give s.owner, rfl⟩
    · exact ⟨.give s.owner, rfl⟩
  | close =>
    simp only [State.shortCall]
    split
    · exact ⟨.give s.owner, rfl⟩
    · exact ⟨.give s.owner, rfl⟩

/-- A notification does not touch the mutex. -/
theorem notifySubmit_holds (s : State) :
    s.notifySubmit.submit.holds = s.submit.holds ∧ s.notifySubmit.owner = s.owner := by
  unfold State.notifySubmit
  split
  · next hblocked =>
    rw [hblocked]
    exact ⟨rfl, rfl⟩
  · exact ⟨rfl, rfl⟩

theorem notifyCaller_holds (s : State) :
    s.notifyCaller.caller.holds = s.caller.holds ∧ s.notifyCaller.owner = s.owner := by
  unfold State.notifyCaller
  split
  · next due hblocked =>
    rw [hblocked]
    exact ⟨rfl, rfl⟩
  · exact ⟨rfl, rfl⟩

/-- A step of the caller takes the mutex when it is free, gives it up, or leaves it alone. -/
theorem callerGo_mutexStep (h : s.callerGo = some s') :
    MutexStep .caller s.caller.holds s'.caller.holds s.owner s'.owner ∧ s'.submit.holds = s.submit.holds := by
  unfold State.callerGo at h
  cases hpc : s.caller <;> simp only [hpc] at h
  case idle | readFile | validate | blocked | left => cases h
  case lockCheck | lockAdopt | lockPost | lockWait | relock | lockCall =>
    obtain ⟨hfree, rfl⟩ := map_lock_eq_some h
    rw [hfree]
    exact ⟨.take, rfl⟩
  case check deadline =>
    split at h
    · cases h
      exact ⟨.give s.owner, rfl⟩
    · cases h
      exact ⟨.give s.owner, rfl⟩
  case adopt | post =>
    cases h
    exact ⟨.give s.owner, rfl⟩
  case notify | closeNotify =>
    obtain ⟨hsubmit, howner⟩ := notifySubmit_holds s
    cases h
    refine ⟨?_, hsubmit⟩
    change MutexStep .caller false false s.owner s.notifySubmit.owner
    rw [howner]
    exact .stay false s.owner
  case woken due timedOut =>
    cases h
    obtain ⟨hstep, hsubmit⟩ := testJob_mutexStep s due timedOut
    exact ⟨hstep, congrArg SubmitPc.holds hsubmit⟩
  case finish =>
    split at h
    · cases h
      exact ⟨.give s.owner, rfl⟩
    · cases h
      exact ⟨.give s.owner, rfl⟩
  case inCall call =>
    cases h
    obtain ⟨hstep, hsubmit⟩ := shortCall_mutexStep s call
    exact ⟨hstep, congrArg SubmitPc.holds hsubmit⟩
  case joining =>
    split at h
    · cases h
      exact ⟨.stay false s.owner, rfl⟩
    · cases h

/-- So does a step of the submit thread. -/
theorem submitGo_mutexStep (h : s.submitGo = some s') :
    MutexStep .submit s.submit.holds s'.submit.holds s.owner s'.owner ∧ s'.caller.holds = s.caller.holds := by
  unfold State.submitGo at h
  cases hpc : s.submit <;> simp only [hpc] at h
  case blocked | executing | exited => cases h
  case lockStart | lockAgain =>
    obtain ⟨hfree, rfl⟩ := map_lock_eq_some h
    rw [hfree]
    exact ⟨.take, rfl⟩
  case test =>
    split at h
    · cases h
      exact ⟨.give s.owner, rfl⟩
    · split at h
      · cases h
        exact ⟨.stay true s.owner, rfl⟩
      · cases h
        exact ⟨.give s.owner, rfl⟩
  case notify =>
    obtain ⟨hcaller, howner⟩ := notifyCaller_holds s
    cases h
    refine ⟨?_, hcaller⟩
    change MutexStep .submit false false s.owner s.notifyCaller.owner
    rw [howner]
    exact .stay false s.owner

/-! ## What an act does -/

section Acts

/-- A submit begins when no call is under way. -/
theorem step_callSubmit {deadline : ℤ} (h : step s (.callSubmit deadline) = some s') :
    s.caller = .idle ∧ s' = { s with caller := .lockCheck deadline } := by
  simp only [step] at h
  split at h
  · next hidle => exact ⟨hidle, (Option.some.inj h).symm⟩
  · cases h

/-- A submit with a null pointer returns at once. -/
theorem step_callNull (h : step s .callNull = some s') : s.caller = .idle ∧ s' = s.ret .badArgs := by
  simp only [step] at h
  split at h
  · next hidle => exact ⟨hidle, (Option.some.inj h).symm⟩
  · cases h

/-- Another call takes the mutex next, or returns at once. -/
theorem step_call {call : ShortCall} (h : step s (.call call) = some s') :
    s.caller = .idle ∧ (call.accepted = true ∧ s' = { s with caller := .lockCall call } ∨
      call.accepted = false ∧ s' = s.ret .badArgs) := by
  simp only [step] at h
  split at h
  · next hidle =>
    cases haccepted : call.accepted with
    | true =>
      rw [haccepted] at h
      exact ⟨hidle, .inl ⟨rfl, (Option.some.inj h).symm⟩⟩
    | false =>
      rw [haccepted] at h
      exact ⟨hidle, .inr ⟨rfl, (Option.some.inj h).symm⟩⟩
  · cases h

/-- The quarantine file is read behind the first check. -/
theorem step_hostFile {isSet : Bool} (h : step s (.hostFile isSet) = some s') : ∃ deadline,
    s.caller = .readFile deadline ∧ s' = { s with caller := if isSet then .lockAdopt else .validate deadline } := by
  simp only [step] at h
  split at h
  · next deadline hpc => exact ⟨deadline, hpc, (Option.some.inj h).symm⟩
  · cases h

/-- Arguments that are not accepted end the submit. -/
theorem step_arguments {accepted : Bool} (h : step s (.arguments accepted) = some s') : ∃ deadline,
    s.caller = .validate deadline ∧
      s' = if accepted then { s with caller := .lockPost (s.now + deadline) } else s.ret .badArgs := by
  simp only [step] at h
  split at h
  · next deadline hpc =>
    refine ⟨deadline, hpc, ?_⟩
    cases accepted with
    | true => exact (Option.some.inj h).symm
    | false => exact (Option.some.inj h).symm
  · cases h

/-- A wait that ends without a notification takes the mutex next. -/
theorem step_callerWake (h : step s .callerWake = some s') : ∃ due,
    s.caller = .blocked due ∧ s' = { s with caller := .relock due false } := by
  simp only [step] at h
  split at h
  · next due hpc => exact ⟨due, hpc, (Option.some.inj h).symm⟩
  · cases h

/-- So does one whose deadline has passed. -/
theorem step_callerExpire (h : step s .callerExpire = some s') : ∃ due,
    s.caller = .blocked due ∧ due ≤ s.now ∧ s' = { s with caller := .relock due true } := by
  simp only [step] at h
  split at h
  · next due hpc =>
    split at h
    · next hdue => exact ⟨due, hpc, hdue, (Option.some.inj h).symm⟩
    · cases h
  · cases h

/-- A wait of the submit thread that ends without a notification takes the mutex next. -/
theorem step_submitWake (h : step s .submitWake = some s') :
    s.submit = .blocked ∧ s' = { s with submit := .lockAgain } := by
  simp only [step] at h
  split at h
  · next hpc => exact ⟨hpc, (Option.some.inj h).symm⟩
  · cases h

/-- `execute_plan` ends with the job, and the mutex is given up. -/
theorem step_executed {ok : Bool} (h : step s (.executed ok) = some s') :
    s.submit = .executing ∧ s' = { s with resultOk := ok, job := false, owner := none, submit := .notify } := by
  simp only [step] at h
  split at h
  · next hpc => exact ⟨hpc, (Option.some.inj h).symm⟩
  · cases h

/-- The acts outside the sections under the mutex that are not the submit thread's. -/
def Act.outside : Act → Bool
  | .callerGo => false
  | .submitGo => false
  | .submitWake => false
  | .executed _ => false
  | _ => true

/-- Such an act moves the caller, or the clock, and touches neither the flags nor the mutex. -/
theorem step_outside (hact : act.outside = true) (h : step s act = some s') : ∃ now pc returned,
    s' = { s with now := now, caller := pc, returned := returned } ∧ pc.holds = s.caller.holds := by
  cases act with
  | callerGo | submitGo | submitWake | executed => cases hact
  | tick span =>
    cases h
    exact ⟨_, _, _, rfl, rfl⟩
  | callSubmit deadline =>
    obtain ⟨hidle, rfl⟩ := step_callSubmit h
    exact ⟨_, _, _, rfl, by rw [hidle]; rfl⟩
  | callNull =>
    obtain ⟨hidle, rfl⟩ := step_callNull h
    exact ⟨_, _, _, rfl, by rw [hidle]⟩
  | call call =>
    obtain ⟨hidle, ⟨-, rfl⟩ | ⟨-, rfl⟩⟩ := step_call h
    · exact ⟨_, _, _, rfl, by rw [hidle]; rfl⟩
    · exact ⟨_, _, _, rfl, by rw [hidle]⟩
  | hostFile isSet =>
    obtain ⟨deadline, hpc, rfl⟩ := step_hostFile h
    exact ⟨_, _, _, rfl, by rw [hpc]; cases isSet <;> rfl⟩
  | arguments accepted =>
    obtain ⟨deadline, hpc, rfl⟩ := step_arguments h
    cases accepted with
    | true => exact ⟨_, _, _, rfl, by rw [hpc]; rfl⟩
    | false => exact ⟨_, _, _, rfl, by rw [hpc]; rfl⟩
  | callerWake =>
    obtain ⟨due, hpc, rfl⟩ := step_callerWake h
    exact ⟨_, _, _, rfl, by rw [hpc]; rfl⟩
  | callerExpire =>
    obtain ⟨due, hpc, -, rfl⟩ := step_callerExpire h
    exact ⟨_, _, _, rfl, by rw [hpc]; rfl⟩

/-- A step that is one of its thread for the mutex, and leaves the other thread's hold alone. -/
theorem mutexStep_of_thread (hthread : act.thread = thread)
    (hstep : MutexStep thread (s.holds thread) (s'.holds thread) s.owner s'.owner)
    (hother : ∀ other, other ≠ thread → s'.holds other = s.holds other) :
    MutexStep act.thread (s.holds act.thread) (s'.holds act.thread) s.owner s'.owner ∧
      ∀ other, other ≠ act.thread → s'.holds other = s.holds other := by
  subst hthread
  exact ⟨hstep, hother⟩

/-- What is not the caller's is the submit thread's. -/
theorem holds_of_ne_caller (h : s'.submit.holds = s.submit.holds) (other : Thread) (hother : other ≠ .caller) :
    s'.holds other = s.holds other := by
  cases other with
  | caller => exact (hother rfl).elim
  | submit => exact h

/-- What is not the submit thread's is the caller's. -/
theorem holds_of_ne_submit (h : s'.caller.holds = s.caller.holds) (other : Thread) (hother : other ≠ .submit) :
    s'.holds other = s.holds other := by
  cases other with
  | caller => exact h
  | submit => exact (hother rfl).elim

/-- One step of the session, for the mutex: the thread of the act may move, the other one does not. -/
theorem step_mutexStep (h : step s act = some s') :
    MutexStep act.thread (s.holds act.thread) (s'.holds act.thread) s.owner s'.owner ∧
      ∀ other, other ≠ act.thread → s'.holds other = s.holds other := by
  cases hact : act.outside with
  | true =>
    obtain ⟨now, pc, returned, rfl, hholds⟩ := step_outside hact h
    have hthread : act.thread = .caller := by cases act <;> first | rfl | cases hact
    refine mutexStep_of_thread hthread ?_ (holds_of_ne_caller rfl)
    change MutexStep .caller s.caller.holds pc.holds s.owner s.owner
    rw [hholds]
    exact .stay _ _
  | false =>
    cases act
    case callerGo =>
      obtain ⟨hstep, hsubmit⟩ := callerGo_mutexStep h
      exact mutexStep_of_thread rfl hstep (holds_of_ne_caller hsubmit)
    case submitGo =>
      obtain ⟨hstep, hcaller⟩ := submitGo_mutexStep h
      exact mutexStep_of_thread rfl hstep (holds_of_ne_submit hcaller)
    case submitWake =>
      obtain ⟨hpc, rfl⟩ := step_submitWake h
      refine mutexStep_of_thread rfl ?_ (holds_of_ne_submit rfl)
      change MutexStep .submit s.submit.holds false s.owner s.owner
      rw [hpc]
      exact .stay false s.owner
    case executed ok =>
      obtain ⟨hpc, rfl⟩ := step_executed h
      refine mutexStep_of_thread rfl ?_ (holds_of_ne_submit rfl)
      change MutexStep .submit s.submit.holds false s.owner none
      rw [hpc]
      exact .give s.owner
    all_goals cases hact

end Acts

/-- What holds at first and is kept by the steps of a run holds in every state the run gets into. -/
theorem holds_of_mem_visited {P : State → Prop} {acts : List Act} (h : P s)
    (hstep : ∀ act ∈ acts, ∀ before after, P before → step before act = some after → P after)
    (hs' : s' ∈ visited s acts) : P s' := by
  induction acts generalizing s with
  | nil =>
    rw [visited, List.mem_singleton] at hs'
    rwa [hs']
  | cons act rest ih =>
    obtain ⟨hfirst, hrest⟩ := List.forall_mem_cons.mp hstep
    rw [visited] at hs'
    cases hnext : step s act with
    | none =>
      rw [hnext, List.mem_singleton] at hs'
      rwa [hs']
    | some after =>
      rw [hnext, List.mem_cons] at hs'
      rcases hs' with rfl | hs'
      · exact h
      · exact ih (hfirst s after h hnext) hrest hs'

/-- In every state a session gets into, the mutex is held by the thread whose counter is inside a section. -/
theorem mutexAgrees_of_mem_visited (acts : List Act) (h : MutexAgrees s.holds s.owner) (hs' : s' ∈ visited s acts) :
    MutexAgrees s'.holds s'.owner := by
  refine holds_of_mem_visited (P := fun s => MutexAgrees s.holds s.owner) h
    (fun act _ before after hagrees hstep => ?_) hs'
  obtain ⟨hmutex, hother⟩ := step_mutexStep hstep
  exact hagrees.step hmutex hother

theorem mutexAgrees_opened : MutexAgrees State.opened.holds State.opened.owner := by
  intro thread
  cases thread with
  | caller => decide
  | submit => decide

/-- The next step of the caller is the timeout branch: quarantine, and return `TIMEOUT`. -/
def State.timesOut (s : State) : Prop := ∃ due, s.caller = .woken due true ∧ s.job = true

/-- The timeout branch quarantines the session and returns. -/
theorem callerGo_of_timesOut (h : s.timesOut) :
    ∃ s', step s .callerGo = some s' ∧ s'.quarantined = true ∧ s'.returned = some .timeout ∧ s'.caller = .idle := by
  obtain ⟨due, hpc, hjob⟩ := h
  refine ⟨s.testJob due true, ?_, ?_⟩
  · rw [step, State.callerGo, hpc]
  · rw [State.testJob, if_neg (by rw [hjob]; decide)]
    exact ⟨rfl, rfl, rfl⟩

/-- The caller can get to the timeout branch without a step of the submit thread. -/
def State.canTimeOut (s : State) : Prop :=
  ∃ acts s', (∀ act ∈ acts, act.thread = .caller) ∧ s' ∈ visited s acts ∧ s'.timesOut

/-- The caller waits in `wait_until`, and its deadline has passed. -/
def State.overdue (s : State) : Prop := ∃ due, s.caller = .blocked due ∧ due ≤ s.now

/-- While the submit thread is inside `execute_plan` it does not hold the mutex, and an overdue caller can take
the timeout branch. -/
def DeadlineActionable (s : State) : Prop :=
  s.submit = .executing → s.owner ≠ some .submit ∧ (s.overdue → s.canTimeOut)

/-- While the submit thread owns the mutex, steps of the caller leave it the owner. -/
theorem owner_submit_of_mem_visited (acts : List Act) (h : MutexAgrees s.holds s.owner)
    (howner : s.owner = some .submit) (hacts : ∀ act ∈ acts, act.thread = .caller) (hs' : s' ∈ visited s acts) :
    s'.owner = some .submit := by
  refine (holds_of_mem_visited (P := fun s => MutexAgrees s.holds s.owner ∧ s.owner = some .submit) ⟨h, howner⟩
    (fun act hact before after hbefore hstep => ?_) hs').2
  obtain ⟨hagrees, hsubmit⟩ := hbefore
  obtain ⟨hmutex, hother⟩ := step_mutexStep hstep
  have hne : Thread.submit ≠ act.thread := by
    rw [hacts act hact]
    decide
  exact ⟨hagrees.step hmutex hother, hagrees.owner_stays hsubmit hne hmutex⟩

/-- While the submit thread is inside `execute_plan` it holds the mutex, and the caller cannot time out. -/
theorem executing_blocks_timeout (h : MutexAgrees s.holds s.owner) (hpc : s.submit = .executing) :
    s.owner = some .submit ∧ ¬ s.canTimeOut := by
  have howner : s.owner = some .submit := by
    refine (h .submit).mp ?_
    rw [State.holds, hpc]
    rfl
  refine ⟨howner, ?_⟩
  rintro ⟨acts, s', hacts, hs', due, hwoken, -⟩
  have hsubmit := owner_submit_of_mem_visited acts h howner hacts hs'
  have hcaller : s'.owner = some .caller := by
    refine (mutexAgrees_of_mem_visited acts h hs' .caller).mp ?_
    rw [State.holds, hwoken]
    rfl
  cases hsubmit.symm.trans hcaller

/-- In every run: a deadline miss can be acted on in all states exactly when the submit thread never gets into
`execute_plan`; whenever it is there it holds the mutex, and the caller cannot get to the timeout branch. -/
theorem deadlineActionable_iff (acts : List Act) :
    ((∀ s ∈ visited State.opened acts, DeadlineActionable s) ↔
        ∀ s ∈ visited State.opened acts, s.submit ≠ .executing) ∧
      ∀ s ∈ visited State.opened acts, s.submit = .executing → s.owner = some .submit ∧ ¬ s.canTimeOut := by
  have hblocks : ∀ s ∈ visited State.opened acts, s.submit = .executing →
      s.owner = some .submit ∧ ¬ s.canTimeOut := fun s hs hpc =>
    executing_blocks_timeout (mutexAgrees_of_mem_visited acts mutexAgrees_opened hs) hpc
  refine ⟨⟨fun h s hs hpc => ?_, fun h s hs hpc => ?_⟩, hblocks⟩
  · exact (h s hs hpc).1 (hblocks s hs hpc).1
  · exact (h s hs hpc).elim

/-- A call with a deadline of 5 ms whose plan runs on while 9 ms pass. -/
def overdueActs : List Act :=
  [.submitGo, .submitGo, .callSubmit 5, .callerGo, .callerGo, .hostFile false, .arguments true, .callerGo, .callerGo,
    .callerGo, .callerGo, .callerGo, .submitGo, .submitGo, .tick 9]

/-- In the last state of this run the caller is overdue, the plan runs, and the mutex is held. -/
theorem overdue_not_actionable :
    ¬ ∀ s ∈ visited State.opened overdueActs, DeadlineActionable s := by
  intro h
  have hlast : (visited State.opened overdueActs).getLast? = some
      { State.opened with
        job := true, now := 9, owner := some .submit, caller := .blocked 5, submit := .executing } := by
    decide
  have hmem := List.mem_of_getLast? hlast
  exact (h _ hmem rfl).1 rfl

end AneLinux.Inproc
