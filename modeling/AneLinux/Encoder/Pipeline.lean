import AneLinux.Encoder.Runner

/-!
# The pipeline thread

With pipelining on, the main thread marshals a submit and puts it into a queue; one thread takes the jobs out of it,
submits them to the device and settles their futures. A future is read by waiting for it. `close` puts an end marker
and joins the thread.

The main thread is a tree of what it does: it submits, it reads a future and goes on with what it finds there, or it
ends. Its steps and those of the thread interleave in any order. `resolve` is the same tree with every future read
from the outcome of its own job, and no thread at all.
-/

namespace AneLinux.Encoder

/-- What the main thread does until its result. A future is a submit, counted from the start, and one of its outputs. -/
inductive Main (V R : Type)
  | finish (result : R)
  | submit (job : Job V) (next : ℕ → Main V R)
  | read (job output : ℕ) (next : Except String V → Main V R)

namespace Main

variable {V R S : Type}

/-- One program after another. -/
def andThen : Main V R → (R → Main V S) → Main V S
  | .finish result, f => f result
  | .submit job next, f => .submit job fun k => andThen (next k) f
  | .read job output next, f => .read job output fun r => andThen (next r) f

instance : Monad (Main V) where
  pure := finish
  bind := andThen

end Main

/-- The main thread: running, waiting for the pipeline thread to end, or past `close`. -/
inductive MainThread (V R : Type)
  | running (rest : Main V R)
  | joining (result : R)
  | closed (result : R)

/-- The pipeline thread: `_pipeline_worker` waits for a job, has one to submit, settles its futures one by one, or has
returned. It is started by the first submit. -/
inductive Worker (V : Type)
  | absent
  | waiting
  | submitting (k : ℕ) (job : Job V)
  | settling (k : ℕ) (job : Job V) (outcome : Except String (ℕ → V)) (output : ℕ)
  | returned

/-- Start the thread unless it runs. -/
def Worker.started {V : Type} : Worker V → Worker V
  | .absent => .waiting
  | worker => worker

/-- Both threads, the queue and the futures, with the jobs issued and the device submits made so far. -/
structure System (V R : Type) where
  main : MainThread V R
  worker : Worker V
  queue : List (Option (ℕ × Job V))
  futures : ℕ → ℕ → Option (Except String V)
  issued : List (Job V)
  submits : List (Job V)

/-- Before the first step. -/
def System.initial {V R : Type} (main : Main V R) : System V R :=
  ⟨.running main, .absent, [], fun _ _ => none, [], []⟩

/-- Settle one future. -/
def settleFuture {V : Type} (futures : ℕ → ℕ → Option (Except String V)) (k output : ℕ) (r : Except String V) :
    ℕ → ℕ → Option (Except String V) :=
  fun k' output' => if k' = k ∧ output' = output then some r else futures k' output'

/-- One output of an outcome: the array, or the error that `wait` raises. -/
def outputOf {V : Type} (outcome : Except String (ℕ → V)) (output : ℕ) : Except String V :=
  outcome.map fun arrays => arrays output

section Steps

variable {V R : Type} (device : Job V → Except String (ℕ → V))

/-- One step of either thread. -/
inductive Step : System V R → System V R → Prop
  | submit {s : System V R} {job : Job V} {next : ℕ → Main V R} (hmain : s.main = .running (.submit job next)) :
    Step s { s with
      main := .running (next s.issued.length), worker := s.worker.started,
      queue := s.queue ++ [some (s.issued.length, job)], issued := s.issued ++ [job] }
  | read {s : System V R} {k output : ℕ} {next : Except String V → Main V R} {r : Except String V}
      (hmain : s.main = .running (.read k output next)) (hset : s.futures k output = some r) :
    Step s { s with main := .running (next r) }
  | close {s : System V R} {result : R} (hmain : s.main = .running (.finish result)) (hworker : s.worker ≠ .absent) :
    Step s { s with main := .joining result, queue := s.queue ++ [none] }
  | closeUnused {s : System V R} {result : R} (hmain : s.main = .running (.finish result))
      (hworker : s.worker = .absent) : Step s { s with main := .closed result }
  | join {s : System V R} {result : R} (hmain : s.main = .joining result) (hworker : s.worker = .returned) :
    Step s { s with main := .closed result }
  | take {s : System V R} {k : ℕ} {job : Job V} {rest : List (Option (ℕ × Job V))} (hworker : s.worker = .waiting)
      (hqueue : s.queue = some (k, job) :: rest) : Step s { s with worker := .submitting k job, queue := rest }
  | stop {s : System V R} {rest : List (Option (ℕ × Job V))} (hworker : s.worker = .waiting)
      (hqueue : s.queue = none :: rest) : Step s { s with worker := .returned, queue := rest }
  | device {s : System V R} {k : ℕ} {job : Job V} (hworker : s.worker = .submitting k job) :
    Step s { s with worker := .settling k job (device job) 0, submits := s.submits ++ [job] }
  | settle {s : System V R} {k : ℕ} {job : Job V} {outcome : Except String (ℕ → V)} {output : ℕ}
      (hworker : s.worker = .settling k job outcome output) (houtput : output < job.outputs.length) :
    Step s { s with
      worker := .settling k job outcome (output + 1)
      futures := settleFuture s.futures k output (outputOf outcome output) }
  | next {s : System V R} {k : ℕ} {job : Job V} {outcome : Except String (ℕ → V)} {output : ℕ}
      (hworker : s.worker = .settling k job outcome output) (houtput : job.outputs.length ≤ output) :
    Step s { s with worker := .waiting }

/-- The states some interleaving reaches. -/
inductive Reachable (main : Main V R) : System V R → Prop
  | initial : Reachable main (.initial main)
  | step {s t : System V R} : Reachable main s → Step device s t → Reachable main t

end Steps

section Resolving

variable {V R S : Type} (device : Job V → Except String (ℕ → V))

/-- The jobs issued so far, and whether only futures of issued jobs have been read. -/
structure World (V : Type) where
  issued : List (Job V)
  inScope : Bool

/-- Whether a future exists. -/
def InScope (issued : List (Job V)) (k output : ℕ) : Prop := ∃ job, issued[k]? = some job ∧ output < job.outputs.length

instance (issued : List (Job V)) (k output : ℕ) : Decidable (InScope issued k output) :=
  decidable_of_iff (issued[k]?.any fun job => decide (output < job.outputs.length)) (by
    cases h : issued[k]? <;> simp [InScope, h])

/-- What a future is settled with: that output of its own job. -/
def answer (issued : List (Job V)) (k output : ℕ) : Except String V :=
  match issued[k]? with
  | some job => outputOf (device job) output
  | none => .error "no such future"

/-- The main thread with every future read from the outcome of its job. -/
def resolve : Main V R → World V → R × World V
  | .finish result, w => (result, w)
  | .submit job next, w => resolve (next w.issued.length) { w with issued := w.issued ++ [job] }
  | .read k output next, w =>
    resolve (next (answer device w.issued k output))
      { w with inScope := w.inScope && decide (InScope w.issued k output) }

theorem resolve_andThen (main : Main V R) (f : R → Main V S) (w : World V) :
    resolve device (main.andThen f) w = resolve device (f (resolve device main w).1) (resolve device main w).2 := by
  induction main generalizing w with
  | finish result => rfl
  | submit job next ih => exact ih w.issued.length _
  | read k output next ih => exact ih (answer device w.issued k output) _

/-- Jobs are only added, and a read out of scope is not forgotten. -/
theorem resolve_grows (main : Main V R) (w : World V) :
    w.issued <+: (resolve device main w).2.issued ∧ ((resolve device main w).2.inScope = true → w.inScope = true) := by
  induction main generalizing w with
  | finish result => exact ⟨List.prefix_refl _, id⟩
  | submit job next ih =>
    obtain ⟨hissued, hscoped⟩ := ih w.issued.length { w with issued := w.issued ++ [job] }
    exact ⟨(List.prefix_append _ _).trans hissued, hscoped⟩
  | read k output next ih =>
    obtain ⟨hissued, hscoped⟩ := ih (answer device w.issued k output)
      { w with inScope := w.inScope && decide (InScope w.issued k output) }
    exact ⟨hissued, fun h => ((Bool.and_eq_true _ _).mp (hscoped h)).1⟩

/-- Submitting more does not change what a future is settled with. -/
theorem answer_append {issued : List (Job V)} {k output : ℕ} (h : InScope issued k output) (more : List (Job V)) :
    answer device (issued ++ more) k output = answer device issued k output := by
  obtain ⟨job, hjob, _⟩ := h
  have hlt : k < issued.length := (List.getElem?_eq_some_iff.mp hjob).1
  rw [answer, answer, List.getElem?_append_left hlt]

theorem InScope.append {issued : List (Job V)} {k output : ℕ} (h : InScope issued k output) (more : List (Job V)) :
    InScope (issued ++ more) k output := by
  obtain ⟨job, hjob, houtput⟩ := h
  have hlt : k < issued.length := (List.getElem?_eq_some_iff.mp hjob).1
  exact ⟨job, by rw [List.getElem?_append_left hlt, hjob], houtput⟩

end Resolving

end AneLinux.Encoder
