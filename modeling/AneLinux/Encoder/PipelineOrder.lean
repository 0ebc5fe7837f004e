import AneLinux.Encoder.Pipeline

/-!
# Every interleaving of the main thread and the pipeline thread

The jobs issued so far are, in order, those submitted to the device, the one the thread has taken, and those in the
queue. A future is settled with that output of its own job, and after a job all of its futures are. Reading futures
from their own jobs, the main thread goes the same way in every interleaving, and no interleaving gets stuck or goes
on for ever.
-/

namespace AneLinux.Encoder

variable {V R : Type}

variable {worker : Worker V} {k output : ℕ} {s t : System V R} {job : Job V} {result : R}

section Accounting

/-- The queue holds jobs with their numbers. -/
def numbered (start : ℕ) : List (Job V) → List (Option (ℕ × Job V))
  | [] => []
  | job :: rest => some (start, job) :: numbered (start + 1) rest

/-- A job appended takes the next number. -/
theorem numbered_append (start : ℕ) (jobs : List (Job V)) (job : Job V) :
    numbered start (jobs ++ [job]) = numbered start jobs ++ [some (start + jobs.length, job)] := by
  induction jobs generalizing start with
  | nil => rfl
  | cons first rest ih =>
    have hlast : start + 1 + rest.length = start + (first :: rest).length := by
      rw [List.length_cons]
      omega
    rw [List.cons_append, numbered, numbered, ih, List.cons_append, hlast]

/-- The jobs in the queue. -/
def System.waiting (s : System V R) : List (Job V) := s.queue.filterMap (Option.map Prod.snd)

/-- The job that the thread has taken and not yet submitted. -/
def System.taken (s : System V R) : List (Job V) :=
  match s.worker with
  | .submitting _ job => [job]
  | _ => []

/-- How many jobs have left the queue. -/
def System.takenCount (s : System V R) : ℕ := s.submits.length + s.taken.length

/-- The end marker is in the queue from `close` until the thread has read it. -/
def markerOf : MainThread V R → Worker V → List (Option (ℕ × Job V))
  | .joining _, .returned => []
  | .joining _, _ => [none]
  | _, _ => []

/-- The thread runs: it was started and has not returned. -/
def Worker.Alive : Worker V → Prop
  | .absent | .returned => False
  | _ => True

/-- The close marker does not tell living workers apart. -/
theorem markerOf_alive (thread : MainThread V R) {worker' : Worker V} (h : worker.Alive) (h' : worker'.Alive) :
    markerOf thread worker = markerOf thread worker' := by
  cases thread with
  | running | closed => rfl
  | joining result =>
    cases worker with
    | absent | returned => exact h.elim
    | waiting | submitting | settling =>
      cases worker' with
      | absent | returned => exact h'.elim
      | waiting | submitting | settling => rfl

/-- Whether the thread has settled a future. -/
def System.Processed (s : System V R) (k output : ℕ) : Prop :=
  match s.worker with
  | .settling k' _ _ next => k < k' ∨ k = k' ∧ output < next
  | _ => k < s.submits.length

/-- The numbered jobs are the jobs. -/
theorem waiting_numbered (start : ℕ) (jobs : List (Job V)) :
    (numbered start jobs).filterMap (Option.map Prod.snd) = jobs := by
  induction jobs generalizing start with
  | nil => rfl
  | cons job rest ih =>
    change job :: (numbered (start + 1) rest).filterMap (Option.map Prod.snd) = job :: rest
    rw [ih]

end Accounting

section Invariant

variable (device : Job V → Except String (ℕ → V)) (main : Main V R)

/-- What the state of the pipeline thread says about the jobs. -/
def WorkerOk (worker : Worker V) (submits issued : List (Job V)) : Prop :=
  match worker with
  | .absent => issued = []
  | .waiting => True
  | .submitting k job => k = submits.length ∧ issued[k]? = some job
  | .settling k job outcome output =>
    k + 1 = submits.length ∧ issued[k]? = some job ∧ outcome = device job ∧ output ≤ job.outputs.length
  | .returned => submits = issued

/-- `close` joins a thread that was started, and the thread returns after `close`. -/
def ThreadsOk : MainThread V R → Worker V → Prop
  | .running _, .returned => False
  | .joining _, .absent => False
  | .closed _, worker => worker = .absent ∨ worker = .returned
  | _, _ => True

/-- Where the main thread is on its way with every future read from its own job. -/
def MainOk (thread : MainThread V R) (issued : List (Job V)) : Prop :=
  match thread with
  | .running rest => resolve device rest ⟨issued, true⟩ = resolve device main ⟨[], true⟩
  | .joining result => (result, ⟨issued, true⟩) = resolve device main ⟨[], true⟩
  | .closed result => (result, ⟨issued, true⟩) = resolve device main ⟨[], true⟩

/-- What holds in every interleaving. -/
structure PipelineInv (s : System V R) : Prop where
  order : s.submits <+: s.issued
  queue : s.queue = numbered s.takenCount (s.issued.drop s.takenCount) ++ markerOf s.main s.worker
  worker : WorkerOk device s.worker s.submits s.issued
  threads : ThreadsOk s.main s.worker
  answered : ∀ k output r, s.futures k output = some r →
    k < s.submits.length ∧ InScope s.issued k output ∧ r = answer device s.issued k output
  settled : ∀ k output, InScope s.issued k output → s.Processed k output → (s.futures k output).isSome
  mainOk : MainOk device main s.main s.issued

variable {device main}

/-- The invariant holds before the first step. -/
theorem pipelineInv_initial : PipelineInv device main (.initial main) where
  order := List.prefix_refl _
  queue := rfl
  worker := rfl
  threads := trivial
  answered := fun _ _ _ h => by cases h
  settled := fun _ _ _ h => absurd h (Nat.not_lt_zero _)
  mainOk := rfl

/-- A future that is settled is settled for good. -/
theorem settleFuture_isSome {futures : ℕ → ℕ → Option (Except String V)} {k' output' : ℕ} {r : Except String V}
    (h : (futures k output).isSome) : (settleFuture futures k' output' r k output).isSome := by
  unfold settleFuture
  split_ifs
  · rfl
  · exact h

variable (hinv : PipelineInv device main s)

include hinv in
/-- The thread has not taken more than was issued. -/
theorem PipelineInv.takenCount_le : s.takenCount ≤ s.issued.length := by
  have horder := hinv.order.length_le
  have hworker := hinv.worker
  unfold System.takenCount System.taken
  cases h : s.worker with
  | submitting k job =>
    rw [h] at hworker
    have hlt := (List.getElem?_eq_some_iff.mp hworker.2).1
    simp only [List.length_cons, List.length_nil]
    have := hworker.1
    omega
  | absent | waiting | settling | returned => exact horder

include hinv in
/-- Futures of jobs submitted to the device alone are settled. -/
theorem PipelineInv.processed_lt (hprocessed : s.Processed k output) : k < s.submits.length := by
  have hworker := hinv.worker
  unfold System.Processed at hprocessed
  cases h : s.worker with
  | settling k' job outcome next =>
    rw [h] at hworker
    simp only [h] at hprocessed
    have := hworker.1
    omega
  | absent | waiting | submitting | returned =>
    simp only [h] at hprocessed
    exact hprocessed

/-- A job issued later changes no earlier scope. -/
theorem InScope.of_append {issued : List (Job V)} (h : InScope (issued ++ [job]) k output) (hk : k < issued.length) :
    InScope issued k output := by
  obtain ⟨found, hfound, houtput⟩ := h
  rw [List.getElem?_append_left hk] at hfound
  exact ⟨found, hfound, houtput⟩

/-- Issuing a job keeps the worker's part. -/
theorem WorkerOk.issue {submits issued : List (Job V)} (h : WorkerOk device worker submits issued)
    (hreturned : worker ≠ .returned) (job : Job V) : WorkerOk device worker.started submits (issued ++ [job]) := by
  cases worker with
  | absent => trivial
  | waiting => trivial
  | submitting k taken =>
    have hlt := (List.getElem?_eq_some_iff.mp h.2).1
    exact ⟨h.1, by rw [List.getElem?_append_left hlt, h.2]⟩
  | settling k taken outcome output =>
    have hlt := (List.getElem?_eq_some_iff.mp h.2.1).1
    exact ⟨h.1, by rw [List.getElem?_append_left hlt, h.2.1], h.2.2⟩
  | returned => exact absurd rfl hreturned

/-- While the main thread runs, the worker has not returned. -/
theorem ThreadsOk.ne_returned {rest : Main V R} (h : ThreadsOk (.running rest) worker) : worker ≠ .returned := by
  rintro rfl
  exact h

/-- A worker that has not returned fits a running thread. -/
theorem ThreadsOk.run (h : worker ≠ .returned) (rest : Main V R) : ThreadsOk (.running rest) worker := by
  cases worker with
  | returned => exact absurd rfl h
  | absent | waiting | submitting | settling => trivial

/-- One living worker may stand for another. -/
theorem ThreadsOk.alive {thread : MainThread V R} {worker' : Worker V} (h : ThreadsOk thread worker)
    (halive : worker.Alive) (halive' : worker'.Alive) : ThreadsOk thread worker' := by
  cases worker' with
  | absent | returned => exact halive'.elim
  | waiting | submitting | settling =>
    cases thread with
    | running | joining => trivial
    | closed result => rcases h with rfl | rfl <;> exact halive.elim

include hinv in
/-- Submitting keeps the invariant. -/
theorem step_submit {next : ℕ → Main V R} (hmain : s.main = .running (.submit job next)) :
    PipelineInv device main { s with
      main := .running (next s.issued.length), worker := s.worker.started,
      queue := s.queue ++ [some (s.issued.length, job)], issued := s.issued ++ [job] } := by
  have hcount := hinv.takenCount_le
  have hqueue := hinv.queue
  have hthreads := hinv.threads
  have hmainOk := hinv.mainOk
  rw [hmain] at hqueue hthreads hmainOk
  have hworker := hthreads.ne_returned
  have hstarted : s.worker.started ≠ .returned := by
    cases h : s.worker with
    | returned => exact absurd h hworker
    | absent | waiting | submitting | settling => exact fun heq => by cases heq
  refine ⟨hinv.order.trans (List.prefix_append _ _), ?_, hinv.worker.issue hworker job, .run hstarted _, ?_, ?_,
    hmainOk⟩
  · have htaken : System.takenCount { s with
        main := .running (next s.issued.length), worker := s.worker.started,
        queue := s.queue ++ [some (s.issued.length, job)], issued := s.issued ++ [job] } = s.takenCount := by
      unfold System.takenCount System.taken
      cases h : s.worker <;> rfl
    have hnumber : s.takenCount + (s.issued.drop s.takenCount).length = s.issued.length := by
      rw [List.length_drop]
      omega
    have hqueue : s.queue = numbered s.takenCount (s.issued.drop s.takenCount) := by
      rw [hqueue]
      exact List.append_nil _
    rw [htaken, List.drop_append_of_le_length hcount, numbered_append, hnumber, hqueue]
    exact (List.append_nil _).symm
  · intro k output r hr
    obtain ⟨hk, hscope, heq⟩ := hinv.answered k output r hr
    exact ⟨hk, hscope.append [job], by rw [heq, answer_append device hscope]⟩
  · intro k output hscope hprocessed
    have hsame : s.Processed k output := by
      unfold System.Processed at hprocessed ⊢
      cases h : s.worker <;> simp only [h, Worker.started] at hprocessed ⊢ <;> exact hprocessed
    have hlt : k < s.issued.length := (hinv.processed_lt hsame).trans_le hinv.order.length_le
    exact hinv.settled k output (hscope.of_append hlt) hsame

include hinv in
/-- A step of the main thread alone: the queue grows by the end marker at most. -/
theorem PipelineInv.of_main {thread : MainThread V R} {queue : List (Option (ℕ × Job V))}
    (hqueue : queue = numbered s.takenCount (s.issued.drop s.takenCount) ++ markerOf thread s.worker)
    (hthreads : ThreadsOk thread s.worker) (hmainOk : MainOk device main thread s.issued) :
    PipelineInv device main { s with main := thread, queue := queue } where
  order := hinv.order
  queue := hqueue
  worker := hinv.worker
  threads := hthreads
  answered := hinv.answered
  settled := hinv.settled
  mainOk := hmainOk

include hinv in
/-- Reading a settled output keeps it. -/
theorem step_read {next : Except String V → Main V R} {r : Except String V}
    (hmain : s.main = .running (.read k output next)) (hset : s.futures k output = some r) :
    PipelineInv device main { s with main := .running (next r) } := by
  obtain ⟨_, hscope, heq⟩ := hinv.answered k output r hset
  have hqueue := hinv.queue
  have hthreads := hinv.threads
  have hmainOk := hinv.mainOk
  rw [hmain] at hqueue hthreads hmainOk
  refine hinv.of_main hqueue (.run hthreads.ne_returned _) ?_
  change resolve device (next r) ⟨s.issued, true⟩ = _
  rw [← show resolve device (.read k output next) ⟨s.issued, true⟩ = _ from hmainOk, resolve, heq,
    decide_eq_true hscope, Bool.and_true]

include hinv in
/-- Closing with a worker keeps it. -/
theorem step_close (hmain : s.main = .running (.finish result)) (hworker : s.worker ≠ .absent) :
    PipelineInv device main { s with main := .joining result, queue := s.queue ++ [none] } := by
  have hqueue := hinv.queue
  have hthreads := hinv.threads
  have hmainOk := hinv.mainOk
  rw [hmain] at hqueue hthreads hmainOk
  refine hinv.of_main ?_ ?_ hmainOk
  · have hmarker : markerOf (.joining result : MainThread V R) s.worker = [none] := by
      cases h : s.worker with
      | returned => exact absurd h hthreads.ne_returned
      | absent | waiting | submitting | settling => rfl
    rw [hqueue, hmarker]
    exact congrArg (· ++ [none]) (List.append_nil _)
  · cases h : s.worker with
    | absent => exact absurd h hworker
    | waiting | submitting | settling | returned => trivial

include hinv in
/-- So does closing without one. -/
theorem step_closeUnused (hmain : s.main = .running (.finish result)) (hworker : s.worker = .absent) :
    PipelineInv device main { s with main := .closed result } := by
  have hqueue := hinv.queue
  have hmainOk := hinv.mainOk
  rw [hmain] at hqueue hmainOk
  exact hinv.of_main hqueue (Or.inl hworker) hmainOk

include hinv in
/-- Joining a returned worker keeps it. -/
theorem step_join (hmain : s.main = .joining result) (hworker : s.worker = .returned) :
    PipelineInv device main { s with main := .closed result } := by
  have hqueue := hinv.queue
  have hmainOk := hinv.mainOk
  rw [hmain, hworker] at hqueue
  rw [hmain] at hmainOk
  exact hinv.of_main hqueue (Or.inr hworker) hmainOk

include hinv in
/-- A step of the thread that goes on running: what it does to the queue, the futures and the submits. -/
theorem PipelineInv.of_worker (halive : s.worker.Alive) (halive' : t.worker.Alive) (hmain : t.main = s.main)
    (hissued : t.issued = s.issued) (horder : t.submits <+: s.issued)
    (hqueue : t.queue = numbered t.takenCount (s.issued.drop t.takenCount) ++ markerOf s.main s.worker)
    (hworker : WorkerOk device t.worker t.submits s.issued)
    (hanswered : ∀ k output r, t.futures k output = some r → k < t.submits.length ∧ InScope s.issued k output ∧
      r = answer device s.issued k output)
    (hsettled : ∀ k output, InScope s.issued k output → t.Processed k output → (t.futures k output).isSome) :
    PipelineInv device main t where
  order := by rwa [hissued]
  queue := by rwa [hmain, hissued, markerOf_alive s.main halive' halive]
  worker := by rwa [hissued]
  threads := by
    rw [hmain]
    exact hinv.threads.alive halive halive'
  answered := by rwa [hissued]
  settled := by rwa [hissued]
  mainOk := by
    rw [hmain, hissued]
    exact hinv.mainOk

include hinv in
/-- Taking a job off the queue keeps it. -/
theorem step_take {rest : List (Option (ℕ × Job V))} (hworker : s.worker = .waiting)
    (hqueue : s.queue = some (k, job) :: rest) :
    PipelineInv device main { s with worker := .submitting k job, queue := rest } := by
  have hcount : s.takenCount = s.submits.length := by
    unfold System.takenCount System.taken
    rw [hworker]
    rfl
  have hall := hinv.queue
  rw [hqueue, hcount] at hall
  obtain ⟨hfirst, rfl, hrest⟩ : s.issued[s.submits.length]? = some job ∧ k = s.submits.length ∧
      rest = numbered (s.submits.length + 1) (s.issued.drop (s.submits.length + 1)) ++ markerOf s.main s.worker := by
    have hhead : (s.issued.drop s.submits.length)[0]? = s.issued[s.submits.length]? := by
      rw [List.getElem?_drop, Nat.add_zero]
    have htail : (s.issued.drop s.submits.length).tail = s.issued.drop (s.submits.length + 1) := List.tail_drop
    cases hdrop : s.issued.drop s.submits.length with
    | nil =>
      rw [hdrop, hworker] at hall
      cases h : s.main <;> rw [h] at hall <;> cases hall
    | cons first more =>
      rw [hdrop] at hall hhead htail
      cases hall
      exact ⟨hhead.symm, rfl, by rw [← htail]; rfl⟩
  refine hinv.of_worker (by rw [hworker]; trivial) trivial rfl rfl hinv.order hrest ⟨rfl, hfirst⟩ hinv.answered ?_
  intro k' output hscope hprocessed
  refine hinv.settled k' output hscope ?_
  unfold System.Processed
  rw [hworker]
  exact hprocessed

include hinv in
/-- Taking the close marker keeps it. -/
theorem step_stop {rest : List (Option (ℕ × Job V))} (hworker : s.worker = .waiting) (hqueue : s.queue = none :: rest) :
    PipelineInv device main { s with worker := .returned, queue := rest } := by
  have hcount : s.takenCount = s.submits.length := by
    unfold System.takenCount System.taken
    rw [hworker]
    rfl
  have hall := hinv.queue
  rw [hqueue, hcount, hworker] at hall
  have hdrop : s.issued.drop s.submits.length = [] := by
    cases hdrop : s.issued.drop s.submits.length with
    | nil => rfl
    | cons first more =>
      rw [hdrop] at hall
      cases hall
  have hsubmits : s.submits = s.issued := hinv.order.eq_of_length_le (List.drop_eq_nil_iff.mp hdrop)
  rw [hdrop] at hall
  obtain ⟨result, hmain, hrest⟩ : ∃ result, s.main = .joining result ∧ rest = [] := by
    cases h : s.main with
    | joining result =>
      rw [h] at hall
      cases hall
      exact ⟨result, rfl, rfl⟩
    | running | closed =>
      rw [h] at hall
      cases hall
  refine ⟨hinv.order, ?_, hsubmits, ?_, hinv.answered, ?_, hinv.mainOk⟩
  · change rest = numbered s.submits.length (s.issued.drop s.submits.length) ++ markerOf s.main .returned
    rw [hdrop, hrest, hmain]
    rfl
  · change ThreadsOk s.main .returned
    rw [hmain]
    trivial
  · intro k output hscope hprocessed
    refine hinv.settled k output hscope ?_
    unfold System.Processed
    rw [hworker]
    exact hprocessed

include hinv in
/-- The device call keeps it. -/
theorem step_device (hworker : s.worker = .submitting k job) :
    PipelineInv device main { s with worker := .settling k job (device job) 0, submits := s.submits ++ [job] } := by
  have hok := hinv.worker
  rw [hworker] at hok
  obtain ⟨rfl, hjob⟩ := hok
  have horder : s.submits ++ [job] <+: s.issued := by
    obtain ⟨more, hmore⟩ := hinv.order
    rw [← hmore, List.getElem?_append_right le_rfl, Nat.sub_self] at hjob
    cases more with
    | nil => cases hjob
    | cons first rest =>
      cases hjob
      exact ⟨rest, by rw [List.append_assoc, List.singleton_append, hmore]⟩
  have hlength : (s.submits ++ [job]).length = s.submits.length + 1 := List.length_append
  have hcount : s.takenCount = (s.submits ++ [job]).length := by
    unfold System.takenCount System.taken
    rw [hworker, hlength]
    rfl
  have hqueue := hinv.queue
  rw [hcount] at hqueue
  refine hinv.of_worker (by rw [hworker]; trivial) trivial rfl rfl horder hqueue
    ⟨hlength.symm, hjob, rfl, Nat.zero_le _⟩ ?_ ?_
  · intro k output r hr
    obtain ⟨hlt, hanswer⟩ := hinv.answered k output r hr
    exact ⟨by rw [hlength]; omega, hanswer⟩
  · intro k output hscope hprocessed
    refine hinv.settled k output hscope ?_
    unfold System.Processed
    rw [hworker]
    rcases hprocessed with h | ⟨_, h⟩
    · exact h
    · exact absurd h (Nat.not_lt_zero _)

include hinv in
/-- Settling one output keeps it. -/
theorem step_settle {outcome : Except String (ℕ → V)} (hworker : s.worker = .settling k job outcome output)
    (houtput : output < job.outputs.length) :
    PipelineInv device main { s with
      worker := .settling k job outcome (output + 1)
      futures := settleFuture s.futures k output (outputOf outcome output) } := by
  have hok := hinv.worker
  rw [hworker] at hok
  obtain ⟨hk, hjob, rfl, _⟩ := hok
  have hcount : s.takenCount = s.submits.length := by
    unfold System.takenCount System.taken
    rw [hworker]
    rfl
  have hqueue := hinv.queue
  rw [hcount] at hqueue
  refine hinv.of_worker (by rw [hworker]; trivial) trivial rfl rfl hinv.order hqueue ⟨hk, hjob, rfl, houtput⟩ ?_ ?_
  · intro k' output' r hr
    change settleFuture s.futures k output (outputOf (device job) output) k' output' = some r at hr
    unfold settleFuture at hr
    split_ifs at hr with hsame
    · obtain ⟨rfl, rfl⟩ := hsame
      refine ⟨(Nat.lt_succ_self k').trans_eq hk, ⟨job, hjob, houtput⟩, ?_⟩
      rw [answer, hjob]
      exact (Option.some.inj hr).symm
    · exact hinv.answered k' output' r hr
  · intro k' output' hscope hprocessed
    change (settleFuture s.futures k output (outputOf (device job) output) k' output').isSome
    by_cases hsame : k' = k ∧ output' = output
    · rw [settleFuture, if_pos hsame]
      rfl
    · refine settleFuture_isSome (hinv.settled k' output' hscope ?_)
      unfold System.Processed
      rw [hworker]
      rcases hprocessed with h | ⟨rfl, h⟩
      · exact Or.inl h
      · have hne : output' ≠ output := fun heq => hsame ⟨rfl, heq⟩
        exact Or.inr ⟨rfl, by omega⟩

include hinv in
/-- Going back for the next job keeps it. -/
theorem step_next {outcome : Except String (ℕ → V)} (hworker : s.worker = .settling k job outcome output)
    (houtput : job.outputs.length ≤ output) : PipelineInv device main { s with worker := .waiting } := by
  have hok := hinv.worker
  rw [hworker] at hok
  obtain ⟨hk, hjob, _, _⟩ := hok
  have hcount : s.takenCount = s.submits.length := by
    unfold System.takenCount System.taken
    rw [hworker]
    rfl
  have hqueue := hinv.queue
  rw [hcount] at hqueue
  refine hinv.of_worker (by rw [hworker]; trivial) trivial rfl rfl hinv.order hqueue trivial hinv.answered ?_
  intro k' output' hscope hprocessed
  refine hinv.settled k' output' hscope ?_
  unfold System.Processed
  rw [hworker]
  have hlt : k' < s.submits.length := hprocessed
  by_cases heq : k' = k
  · obtain ⟨found, hfound, hin⟩ := hscope
    rw [heq, hjob] at hfound
    cases hfound
    exact Or.inr ⟨heq, hin.trans_le houtput⟩
  · exact Or.inl (by omega)

include hinv in
/-- Every step keeps the invariant. -/
theorem step_pipelineInv (hstep : Step device s t) : PipelineInv device main t := by
  cases hstep with
  | submit hmain => exact step_submit hinv hmain
  | read hmain hset => exact step_read hinv hmain hset
  | close hmain hworker => exact step_close hinv hmain hworker
  | closeUnused hmain hworker => exact step_closeUnused hinv hmain hworker
  | join hmain hworker => exact step_join hinv hmain hworker
  | take hworker hqueue => exact step_take hinv hworker hqueue
  | stop hworker hqueue => exact step_stop hinv hworker hqueue
  | device hworker => exact step_device hinv hworker
  | settle hworker houtput => exact step_settle hinv hworker houtput
  | next hworker houtput => exact step_next hinv hworker houtput

/-- It holds in every state that some interleaving reaches. -/
theorem reachable_pipelineInv (h : Reachable device main s) : PipelineInv device main s := by
  induction h with
  | initial => exact pipelineInv_initial
  | step _ hstep ih => exact step_pipelineInv ih hstep

include hinv in
/-- The issued jobs are those submitted, the one taken and those in the queue, in this order. -/
theorem PipelineInv.account : s.issued = s.submits ++ s.taken ++ s.waiting := by
  have hmarker : (markerOf s.main s.worker).filterMap (Option.map Prod.snd) = [] := by
    cases s.main with
    | running | closed => rfl
    | joining => cases s.worker <;> rfl
  have hwaiting : s.waiting = s.issued.drop s.takenCount := by
    rw [System.waiting, hinv.queue, List.filterMap_append, waiting_numbered, hmarker, List.append_nil]
  have hfront : s.submits ++ s.taken = s.issued.take s.takenCount := by
    have horder := List.prefix_iff_eq_take.mp hinv.order
    have hworker := hinv.worker
    unfold System.takenCount System.taken
    cases h : s.worker with
    | submitting k job =>
      rw [h] at hworker
      obtain ⟨rfl, hjob⟩ := hworker
      change s.submits ++ [job] = s.issued.take (s.submits.length + 1)
      rw [List.take_add_one, hjob, ← horder]
      rfl
    | absent | waiting | settling | returned =>
      change s.submits ++ [] = s.issued.take s.submits.length
      rw [← horder, List.append_nil]
  rw [hfront, hwaiting, List.take_append_drop]

include hinv in
/-- Past `close` every job has been submitted. -/
theorem PipelineInv.closed (hmain : s.main = .closed result) : s.submits = s.issued := by
  have hthreads := hinv.threads
  have hworker := hinv.worker
  rw [hmain] at hthreads
  rcases hthreads with h | h
  · rw [h] at hworker
    have hempty : s.issued = [] := hworker
    have hlength := hinv.order.length_le
    rw [hempty] at hlength ⊢
    exact List.length_eq_zero_iff.mp (Nat.le_zero.mp hlength)
  · rw [h] at hworker
    exact hworker

include hinv in
/-- A job whose futures are being settled, or that was before, is past the device. -/
theorem PipelineInv.processed_of_closed (hmain : s.main = .closed result) (hscope : InScope s.issued k output) :
    s.Processed k output := by
  have hsubmits := hinv.closed hmain
  have hthreads := hinv.threads
  rw [hmain] at hthreads
  obtain ⟨job, hjob, _⟩ := hscope
  have hlt := (List.getElem?_eq_some_iff.mp hjob).1
  unfold System.Processed
  rcases hthreads with h | h <;> rw [h] <;> rw [hsubmits] <;> exact hlt

end Invariant

section Progress

variable {device : Job V → Except String (ℕ → V)} {main : Main V R}

/-- A pipeline thread that is in the middle of a job goes on. -/
theorem step_of_working (hwaiting : s.worker ≠ .waiting) (halive : s.worker.Alive) : ∃ t, Step device s t := by
  cases h : s.worker with
  | absent | returned =>
    rw [h] at halive
    exact halive.elim
  | waiting => exact absurd h hwaiting
  | submitting k job => exact ⟨_, .device h⟩
  | settling k job outcome output =>
    rcases Nat.lt_or_ge output job.outputs.length with hlt | hge
    · exact ⟨_, .settle h hlt⟩
    · exact ⟨_, .next h hge⟩

/-- A pipeline thread that waits for a job goes on when the queue is not empty. -/
theorem step_of_queue (hworker : s.worker = .waiting) (hqueue : s.queue ≠ []) : ∃ t, Step device s t := by
  cases h : s.queue with
  | nil => exact absurd h hqueue
  | cons entry rest =>
    cases entry with
    | none => exact ⟨_, .stop hworker h⟩
    | some entry => exact ⟨_, .take hworker h⟩

/-- A future that is read and not yet settled keeps the pipeline thread busy. -/
theorem step_of_unsettled (hinv : PipelineInv device main s) {rest : Main V R} (hmain : s.main = .running rest)
    (hscope : InScope s.issued k output) (hunset : s.futures k output = none) : ∃ t, Step device s t := by
  have hthreads := hinv.threads
  rw [hmain] at hthreads
  have hunprocessed : ¬ s.Processed k output := by
    intro h
    have := hinv.settled k output hscope h
    rw [hunset] at this
    cases this
  cases h : s.worker with
  | absent =>
    have hworker := hinv.worker
    rw [h] at hworker
    obtain ⟨job, hjob, _⟩ := hscope
    rw [show s.issued = [] from hworker] at hjob
    cases hjob
  | returned => exact absurd h hthreads.ne_returned
  | waiting =>
    refine step_of_queue h ?_
    intro hempty
    have hall := hinv.queue
    have hcount : s.takenCount = s.submits.length := by
      unfold System.takenCount System.taken
      rw [h]
      rfl
    rw [hempty, hcount] at hall
    unfold System.Processed at hunprocessed
    rw [h] at hunprocessed
    obtain ⟨job, hjob, _⟩ := hscope
    have hlt := (List.getElem?_eq_some_iff.mp hjob).1
    cases hdrop : s.issued.drop s.submits.length with
    | nil =>
      have := List.drop_eq_nil_iff.mp hdrop
      exact hunprocessed (by omega)
    | cons first more =>
      rw [hdrop] at hall
      cases hall
  | submitting | settling => exact step_of_working (by rw [h]; exact fun heq => by cases heq) (by rw [h]; trivial)

/-- When futures are read after their submit alone, no interleaving gets stuck before `close` is over. -/
theorem exists_step (hinv : PipelineInv device main s) (hscoped : (resolve device main ⟨[], true⟩).2.inScope = true)
    (hopen : ∀ result, s.main ≠ .closed result) : ∃ t, Step device s t := by
  cases hmain : s.main with
  | running rest =>
    cases rest with
    | finish result =>
      by_cases hworker : s.worker = .absent
      · exact ⟨_, .closeUnused hmain hworker⟩
      · exact ⟨_, .close hmain hworker⟩
    | submit job next => exact ⟨_, .submit hmain⟩
    | read k output next =>
      cases hset : s.futures k output with
      | some r => exact ⟨_, .read hmain hset⟩
      | none =>
        have hmainOk := hinv.mainOk
        rw [hmain] at hmainOk
        rw [← show resolve device (.read k output next) ⟨s.issued, true⟩ = _ from hmainOk] at hscoped
        have hread : (true && decide (InScope s.issued k output)) = true :=
          (resolve_grows device (next (answer device s.issued k output)) _).2 hscoped
        exact step_of_unsettled hinv hmain (of_decide_eq_true ((Bool.and_eq_true _ _).mp hread).2) hset
  | joining result =>
    have hthreads := hinv.threads
    rw [hmain] at hthreads
    cases h : s.worker with
    | absent =>
      rw [h] at hthreads
      exact hthreads.elim
    | returned => exact ⟨_, .join hmain h⟩
    | waiting =>
      refine step_of_queue h ?_
      rw [hinv.queue, hmain, h]
      exact List.append_ne_nil_of_right_ne_nil _ (List.cons_ne_nil _ _)
    | submitting | settling => exact step_of_working (by rw [h]; exact fun heq => by cases heq) (by rw [h]; trivial)
  | closed result => exact absurd hmain (hopen result)

/-- The main thread goes on to a part of what it still has to do. -/
inductive Advances : MainThread V R → MainThread V R → Prop
  | submit (job : Job V) (next : ℕ → Main V R) (k : ℕ) : Advances (.running (next k)) (.running (.submit job next))
  | read (k output : ℕ) (next : Except String V → Main V R) (r : Except String V) :
    Advances (.running (next r)) (.running (.read k output next))
  | close (result : R) : Advances (.joining result) (.running (.finish result))
  | closeUnused (result : R) : Advances (.closed result) (.running (.finish result))
  | join (result : R) : Advances (.closed result) (.joining result)

/-- The main thread cannot advance for ever. -/
theorem advances_wellFounded : WellFounded (Advances : MainThread V R → MainThread V R → Prop) := by
  have hclosed (result : R) : Acc Advances (.closed result : MainThread V R) :=
    ⟨_, fun _ h => by cases h⟩
  have hjoining (result : R) : Acc Advances (.joining result : MainThread V R) :=
    ⟨_, fun _ h => by
      cases h
      exact hclosed result⟩
  refine ⟨fun thread => ?_⟩
  cases thread with
  | closed result => exact hclosed result
  | joining result => exact hjoining result
  | running rest =>
    induction rest with
    | finish result =>
      refine ⟨_, fun _ h => ?_⟩
      cases h with
      | close => exact hjoining result
      | closeUnused => exact hclosed result
    | submit job next ih =>
      refine ⟨_, fun _ h => ?_⟩
      cases h with
      | submit _ _ k => exact ih k
    | read k output next ih =>
      refine ⟨_, fun _ h => ?_⟩
      cases h with
      | read _ _ _ r => exact ih r

/-- The steps an entry of the queue still costs the thread. -/
def entryWork : Option (ℕ × Job V) → ℕ
  | some (_, job) => job.outputs.length + 3
  | none => 1

/-- The steps the thread needs to get through its job and the queue. -/
def System.work (s : System V R) : ℕ :=
  (s.queue.map entryWork).sum + match s.worker with
    | .submitting _ job => job.outputs.length + 2
    | .settling _ job _ output => job.outputs.length - output + 1
    | _ => 0

/-- A step takes the main thread on, or it leaves it alone and takes the pipeline thread on. -/
theorem step_progress (hstep : Step device s t) : Advances t.main s.main ∨ t.main = s.main ∧ t.work < s.work := by
  cases hstep with
  | submit hmain =>
    rw [hmain]
    exact Or.inl (.submit _ _ _)
  | read hmain hset =>
    rw [hmain]
    exact Or.inl (.read _ _ _ _)
  | close hmain hworker =>
    rw [hmain]
    exact Or.inl (.close _)
  | closeUnused hmain hworker =>
    rw [hmain]
    exact Or.inl (.closeUnused _)
  | join hmain hworker =>
    rw [hmain]
    exact Or.inl (.join _)
  | take hworker hqueue =>
    refine Or.inr ⟨rfl, ?_⟩
    simp only [System.work, hworker, hqueue, List.map_cons, List.sum_cons, entryWork]
    omega
  | stop hworker hqueue =>
    refine Or.inr ⟨rfl, ?_⟩
    simp only [System.work, hworker, hqueue, List.map_cons, List.sum_cons, entryWork]
    omega
  | device hworker =>
    refine Or.inr ⟨rfl, ?_⟩
    simp only [System.work, hworker]
    omega
  | settle hworker houtput =>
    refine Or.inr ⟨rfl, ?_⟩
    simp only [System.work, hworker]
    omega
  | next hworker houtput =>
    refine Or.inr ⟨rfl, ?_⟩
    simp only [System.work, hworker]
    omega

/-- Every interleaving ends. -/
theorem step_wellFounded : WellFounded fun t s : System V R => Step device s t := by
  have hlex : WellFounded (Prod.Lex (Advances : MainThread V R → MainThread V R → Prop) (· < · : ℕ → ℕ → Prop)) :=
    (Prod.lex ⟨_, advances_wellFounded⟩ ⟨_, Nat.lt_wfRel.wf⟩).wf
  refine Subrelation.wf (fun {t s} hstep => ?_) (InvImage.wf (fun s : System V R => (s.main, s.work)) hlex)
  change Prod.Lex _ _ (t.main, t.work) (s.main, s.work)
  rcases step_progress hstep with hmain | ⟨hmain, hwork⟩
  · exact .left _ _ hmain
  · rw [hmain]
    exact .right _ hwork

end Progress

end AneLinux.Encoder
