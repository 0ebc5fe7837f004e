import AneLinux.Staged.Decoder
import Mathlib.Tactic.NormNum

/-!
# Loops over a resident state

A loaded network has one buffer per bank, outputs first. `ane_exec_loop` submits it again and again
and exchanges the buffers of a state input and a state output on every odd iteration, so that the
state stays on the device. The parity starts anew with every call, and a read takes the buffer of
the output bank, whichever of the two buffers the last iteration wrote.
-/

namespace AneLinux.Libane

open AneLinux.Staged

/-- The header fields of a network that the calls below read. -/
structure Anec where
  srcCount : ℕ
  dstCount : ℕ
  tiles : ℕ → ℕ

namespace Anec

/-- The bank of an input. -/
def srcBdx (anec : Anec) (idx : ℕ) : ℕ := 4 + anec.dstCount + idx

/-- The bank of an output. -/
def dstBdx (_ : Anec) (idx : ℕ) : ℕ := 4 + idx

/-- The bytes of a bank. -/
def tileSize (anec : Anec) (bdx : ℕ) : ℕ := anec.tiles bdx <<< 14

/-- The half-words of a bank. -/
def words (anec : Anec) (bdx : ℕ) : ℕ := anec.tileSize bdx / 2

/-- The bank whose buffer is bound to a slot: a swap exchanges the state input and the state output. -/
def bound (anec : Anec) (swap : Bool) (i j slot : ℕ) : ℕ :=
  if swap ∧ slot = anec.srcBdx i then anec.dstBdx j
  else if swap ∧ slot = anec.dstBdx j then anec.srcBdx i
  else slot

/-- The bank that is marked and polled for an output. -/
def outputBdx (anec : Anec) (swap : Bool) (i j idx : ℕ) : ℕ :=
  if swap ∧ idx = j then anec.srcBdx i else anec.dstBdx idx

end Anec

/-- A network and the contents of its buffers by bank; a bank without tiles has an empty buffer. -/
structure Nn where
  anec : Anec
  chans : ℕ → List Half
  length_chans : ∀ bdx, (chans bdx).length = anec.words bdx

/-- How a call fails: an argument is rejected, the submission returns a code, the first output keeps
its sentinel, or the first output has no buffer to poll. -/
inductive Failure
  | invalid
  | ioctl (code : ℤ)
  | timedOut
  | fault
deriving DecidableEq, Repr

/-- What the engine makes of a submission: a failure code, or the outputs it writes, from the
contents of the buffers bound to the inputs. -/
structure Engine where
  submit : (ℕ → List Half) → Except ℤ (ℕ → List Half)

/-- The half-word an output is marked with. -/
def sentinel : Half := 0x7C00

/-- Values written over the front of a buffer. -/
def written (old values : List Half) : List Half := values.take old.length ++ old.drop values.length

theorem length_written (old values : List Half) : (written old values).length = old.length := by
  rw [written, List.length_append, List.length_take, List.length_drop]
  omega

/-- A buffer written over its whole length holds what was written. -/
theorem written_of_length {old values : List Half} (h : values.length = old.length) : written old values = values := by
  rw [written, ← h, List.take_length, List.drop_eq_nil_of_le h.ge, List.append_nil]

namespace Nn

/-- Write values to the buffer of a bank. -/
def write (nn : Nn) (bdx : ℕ) (values : List Half) : Nn where
  anec := nn.anec
  chans := Function.update nn.chans bdx (written (nn.chans bdx) values)
  length_chans := by
    intro other
    by_cases hsame : other = bdx
    · subst hsame
      rw [Function.update_self, length_written, nn.length_chans]
    · rw [Function.update_of_ne hsame, nn.length_chans]

/-- Mark the buffers of all outputs with the sentinel. -/
def mark (nn : Nn) (swap : Bool) (i j : ℕ) : Nn :=
  (List.range nn.anec.dstCount).foldl (fun s idx =>
    s.write (nn.anec.outputBdx swap i j idx)
      (List.replicate (nn.anec.words (nn.anec.outputBdx swap i j idx)) sentinel)) nn

/-- The contents of the buffers bound to the inputs, once the outputs are marked. -/
def sources (nn : Nn) (swap : Bool) (i j : ℕ) : ℕ → List Half :=
  fun idx => (nn.mark swap i j).chans (nn.anec.bound swap i j (nn.anec.srcBdx idx))

/-- The outputs of a submission in the buffers bound to their slots. -/
def store (nn : Nn) (swap : Bool) (i j : ℕ) (outputs : ℕ → List Half) : Nn :=
  (List.range nn.anec.dstCount).foldl (fun s idx =>
    s.write (nn.anec.bound swap i j (nn.anec.dstBdx idx)) (outputs idx)) nn

/-- Poll the first output. -/
def poll (nn : Nn) (swap : Bool) (i j : ℕ) : Except Failure Unit :=
  match (nn.chans (nn.anec.outputBdx swap i j 0)).head? with
  | none => .error .fault
  | some word => if word = sentinel then .error .timedOut else .ok ()

/-- `ane_exec_with_state_swap`. -/
def execWithStateSwap (engine : Engine) (nn : Nn) (swap : Bool) (i j : ℕ) : Nn × Except Failure Unit :=
  match engine.submit (nn.sources swap i j) with
  | .error code => (nn.mark swap i j, .error (.ioctl code))
  | .ok outputs =>
    ((nn.mark swap i j).store swap i j outputs, ((nn.mark swap i j).store swap i j outputs).poll swap i j)

/-- The iterations of the loop from a given one on. -/
def iterate (engine : Engine) (i j : ℕ) : ℕ → ℕ → Nn → Nn × Except Failure Unit
  | 0, _, nn => (nn, .ok ())
  | remaining + 1, iteration, nn =>
    match nn.execWithStateSwap engine (iteration % 2 == 1) i j with
    | (next, .ok ()) => iterate engine i j remaining (iteration + 1) next
    | (next, .error failure) => (next, .error failure)

/-- `ane_exec_loop`. -/
def execLoop (engine : Engine) (nn : Nn) (iterations i j : ℕ) : Nn × Except Failure Unit :=
  if iterations = 0 ∨ nn.anec.srcCount ≤ i ∨ nn.anec.dstCount ≤ j then (nn, .error .invalid)
  else if nn.anec.tileSize (nn.anec.srcBdx i) ≠ nn.anec.tileSize (nn.anec.dstBdx j) then (nn, .error .invalid)
  else iterate engine i j iterations 0 nn

/-- `__ane_read`: the buffer of an output bank. -/
def read (nn : Nn) (idx : ℕ) : List Half := nn.chans (nn.anec.dstBdx idx)

end Nn

/-! ## Writes to many banks -/

variable {nn : Nn} {idx i j n : ℕ} {swap : Bool}

section Writes

variable {target : ℕ → ℕ} {values : ℕ → List Half} {idxs : List ℕ} {bdx : ℕ}

/-- Writing many buffers keeps the header. -/
theorem anec_writes (nn : Nn) (idxs : List ℕ) :
    (idxs.foldl (fun s idx => s.write (target idx) (values idx)) nn).anec = nn.anec := by
  induction idxs generalizing nn with
  | nil => rfl
  | cons first rest ih => exact ih (nn.write (target first) (values first))

/-- A buffer that is not written is kept. -/
theorem chans_writes_of_ne (h : ∀ idx ∈ idxs, target idx ≠ bdx) :
    (idxs.foldl (fun s idx => s.write (target idx) (values idx)) nn).chans bdx = nn.chans bdx := by
  induction idxs generalizing nn with
  | nil => rfl
  | cons first rest ih =>
    rw [List.foldl_cons, ih fun idx hidx => h idx (List.mem_cons_of_mem first hidx)]
    exact Function.update_of_ne (h first List.mem_cons_self).symm _ _

/-- A buffer written once over its whole length holds what was written to it. -/
theorem chans_writes_of_mem (hidx : idx ∈ idxs) (honce : ∀ other ∈ idxs, target other = target idx → other = idx)
    (hnodup : idxs.Nodup) (hlength : (values idx).length = nn.anec.words (target idx)) :
    (idxs.foldl (fun s idx => s.write (target idx) (values idx)) nn).chans (target idx) = values idx := by
  induction idxs generalizing nn with
  | nil => cases hidx
  | cons first rest ih =>
    rw [List.foldl_cons]
    obtain ⟨hfirst, hrest⟩ := List.nodup_cons.mp hnodup
    by_cases hsame : first = idx
    · subst hsame
      rw [chans_writes_of_ne fun other hother heq => hfirst (honce other (List.mem_cons_of_mem _ hother) heq ▸ hother)]
      refine (Function.update_self _ _ _).trans (written_of_length ?_)
      rw [hlength, nn.length_chans]
    · have hmem : idx ∈ rest := (List.mem_cons.mp hidx).resolve_left (Ne.symm hsame)
      exact ih hmem (fun other hother => honce other (List.mem_cons_of_mem first hother)) hrest hlength

end Writes

/-! ## One submission -/

namespace Anec

variable {anec : Anec}

/-- The bank that holds the state before a submission. -/
def stateBdx (anec : Anec) (swap : Bool) (i j : ℕ) : ℕ := if swap then anec.dstBdx j else anec.srcBdx i

/-- An output goes to the bank that was marked for it. -/
theorem bound_dst (h : idx < anec.dstCount) :
    anec.bound swap i j (anec.dstBdx idx) = anec.outputBdx swap i j idx := by
  have hsrc : anec.dstBdx idx ≠ anec.srcBdx i := by
    unfold dstBdx srcBdx
    omega
  have hdst : anec.dstBdx idx = anec.dstBdx j ↔ idx = j := by
    unfold dstBdx
    omega
  rw [bound, outputBdx, if_neg fun hboth => hsrc hboth.2]
  simp only [hdst]

/-- The state input reads the bank that holds the state. -/
theorem bound_src : anec.bound swap i j (anec.srcBdx i) = anec.stateBdx swap i j := by
  cases swap with
  | false => simp [bound, stateBdx]
  | true => simp [bound, stateBdx]

/-- The state output goes to the other bank of the pair. -/
theorem outputBdx_state : anec.outputBdx swap i j j = anec.stateBdx (!swap) i j := by
  cases swap with
  | false => simp [outputBdx, stateBdx]
  | true => simp [outputBdx, stateBdx]

/-- No output goes to the bank that holds the state. -/
theorem outputBdx_ne_state (h : idx < anec.dstCount) :
    anec.outputBdx swap i j idx ≠ anec.stateBdx swap i j := by
  unfold outputBdx stateBdx dstBdx srcBdx
  cases swap with
  | false =>
    simp only [Bool.false_eq_true, false_and, if_false]
    omega
  | true =>
    simp only [true_and, if_true]
    split_ifs with hsame <;> omega

/-- Different outputs go to different banks. -/
theorem outputBdx_injective {other : ℕ} (hidx : idx < anec.dstCount) (hother : other < anec.dstCount)
    (h : anec.outputBdx swap i j other = anec.outputBdx swap i j idx) : other = idx := by
  unfold outputBdx dstBdx srcBdx at h
  split_ifs at h <;> omega

/-- Both banks of the pair have the size of the state. -/
theorem words_stateBdx (hsize : anec.tileSize (anec.srcBdx i) = anec.tileSize (anec.dstBdx j)) :
    anec.words (anec.stateBdx swap i j) = anec.words (anec.srcBdx i) := by
  cases swap with
  | false => rfl
  | true => exact congrArg (· / 2) hsize.symm

end Anec

/-- The engine's state output is a function of its state input, of the length of the state. -/
structure Steps (engine : Engine) (anec : Anec) (i j : ℕ) (f : List Half → List Half) : Prop where
  state : ∀ sources outputs, engine.submit sources = .ok outputs → outputs j = f (sources i)
  length : ∀ s, s.length = anec.words (anec.srcBdx i) → (f s).length = s.length

namespace Nn

variable {engine : Engine} {next : Nn} {f : List Half → List Half} {outputs : ℕ → List Half}

/-- The marking keeps the header and the state. -/
theorem mark_state : (nn.mark swap i j).anec = nn.anec ∧
    (nn.mark swap i j).chans (nn.anec.stateBdx swap i j) = nn.chans (nn.anec.stateBdx swap i j) :=
  ⟨anec_writes nn _, chans_writes_of_ne fun _ hidx => Anec.outputBdx_ne_state (List.mem_range.mp hidx)⟩

/-- Storing the outputs keeps the header and the old state. -/
theorem store_state : (nn.store swap i j outputs).anec = nn.anec ∧
    (nn.store swap i j outputs).chans (nn.anec.stateBdx swap i j) = nn.chans (nn.anec.stateBdx swap i j) := by
  refine ⟨anec_writes nn _, chans_writes_of_ne fun idx hidx => ?_⟩
  rw [Anec.bound_dst (List.mem_range.mp hidx)]
  exact Anec.outputBdx_ne_state (List.mem_range.mp hidx)

/-- A stored output that fills its bank is in it. -/
theorem store_output (h : idx < nn.anec.dstCount)
    (hlength : (outputs idx).length = nn.anec.words (nn.anec.outputBdx swap i j idx)) :
    (nn.store swap i j outputs).chans (nn.anec.outputBdx swap i j idx) = outputs idx := by
  rw [← Anec.bound_dst h] at hlength ⊢
  refine chans_writes_of_mem (List.mem_range.mpr h) (fun other hother heq => ?_) List.nodup_range hlength
  have hlt := List.mem_range.mp hother
  rw [Anec.bound_dst hlt, Anec.bound_dst h] at heq
  exact Anec.outputBdx_injective h hlt heq

/-- An answered submission leaves the old state where it was and the new one in the other bank. -/
theorem answered_state (hsteps : Steps engine nn.anec i j f) (hj : j < nn.anec.dstCount)
    (hsize : nn.anec.tileSize (nn.anec.srcBdx i) = nn.anec.tileSize (nn.anec.dstBdx j))
    (hsubmit : engine.submit (nn.sources swap i j) = .ok outputs)
    (hnext : next = (nn.mark swap i j).store swap i j outputs) : next.anec = nn.anec ∧
      next.chans (nn.anec.stateBdx swap i j) = nn.chans (nn.anec.stateBdx swap i j) ∧
      next.chans (nn.anec.stateBdx (!swap) i j) = f (nn.chans (nn.anec.stateBdx swap i j)) := by
  obtain ⟨hanec, hmarked⟩ := mark_state
  have hnew : outputs j = f (nn.chans (nn.anec.stateBdx swap i j)) := by
    rw [hsteps.state _ _ hsubmit, sources, Anec.bound_src, hmarked]
  have hstate : (nn.chans (nn.anec.stateBdx swap i j)).length = nn.anec.words (nn.anec.srcBdx i) := by
    rw [nn.length_chans, Anec.words_stateBdx hsize]
  have hlength : (outputs j).length = nn.anec.words (nn.anec.outputBdx swap i j j) := by
    rw [hnew, Anec.outputBdx_state, Anec.words_stateBdx hsize, hsteps.length _ hstate, hstate]
  obtain ⟨hstored, hkept⟩ := @store_state (nn.mark swap i j) i j swap outputs
  have houtput := @store_output (nn.mark swap i j) j i j swap outputs
  rw [hanec] at hstored hkept houtput
  subst hnext
  refine ⟨hstored, hkept.trans hmarked, ?_⟩
  rw [← Anec.outputBdx_state, houtput hj hlength, hnew]

/-- A submission that succeeds was answered, and its first output was not marked any more. -/
theorem execWithStateSwap_eq_ok : nn.execWithStateSwap engine swap i j = (next, .ok ()) ↔
    ∃ outputs, engine.submit (nn.sources swap i j) = .ok outputs ∧
      next = (nn.mark swap i j).store swap i j outputs ∧ next.poll swap i j = .ok () := by
  unfold execWithStateSwap
  rcases engine.submit (nn.sources swap i j) with code | outputs
  · simp
  · simp only [Except.ok.injEq, Prod.mk.injEq, exists_eq_left']
    constructor
    · rintro ⟨rfl, hpoll⟩
      exact ⟨rfl, hpoll⟩
    · rintro ⟨rfl, hpoll⟩
      exact ⟨rfl, hpoll⟩

/-- The step of a loop: the newest state goes to the bank the next iteration reads, and the one
before it stays in the other bank. -/
theorem iteration_state (hsteps : Steps engine nn.anec i j f) (hj : j < nn.anec.dstCount)
    (hsize : nn.anec.tileSize (nn.anec.srcBdx i) = nn.anec.tileSize (nn.anec.dstBdx j)) {iteration : ℕ}
    (h : nn.execWithStateSwap engine (iteration % 2 == 1) i j = (next, .ok ())) : next.anec = nn.anec ∧
      next.chans (nn.anec.stateBdx (!((iteration + 1) % 2 == 1)) i j) =
        nn.chans (nn.anec.stateBdx (iteration % 2 == 1) i j) ∧
      next.chans (nn.anec.stateBdx ((iteration + 1) % 2 == 1) i j) =
        f (nn.chans (nn.anec.stateBdx (iteration % 2 == 1) i j)) := by
  have hparity : ((iteration + 1) % 2 == 1) = !(iteration % 2 == 1) := by
    rcases Nat.mod_two_eq_zero_or_one iteration with heven | hodd
    · rw [heven, Nat.add_mod, heven]
      rfl
    · rw [hodd, Nat.add_mod, hodd]
      rfl
  obtain ⟨outputs, hsubmit, hnext, -⟩ := execWithStateSwap_eq_ok.mp h
  rw [hparity, Bool.not_not]
  exact answered_state hsteps hj hsize hsubmit hnext

/-- The run of a loop: the newest state is the function applied as often as there were iterations,
in the bank the next iteration reads, and the other bank holds the state before it. -/
theorem iterate_state (hsteps : Steps engine nn.anec i j f) (hj : j < nn.anec.dstCount)
    (hsize : nn.anec.tileSize (nn.anec.srcBdx i) = nn.anec.tileSize (nn.anec.dstBdx j)) {iteration : ℕ}
    (h : iterate engine i j n iteration nn = (next, .ok ())) : next.anec = nn.anec ∧
      next.chans (nn.anec.stateBdx ((iteration + n) % 2 == 1) i j) =
        f^[n] (nn.chans (nn.anec.stateBdx (iteration % 2 == 1) i j)) ∧
      (0 < n → next.chans (nn.anec.stateBdx (!((iteration + n) % 2 == 1)) i j) =
        f^[n - 1] (nn.chans (nn.anec.stateBdx (iteration % 2 == 1) i j))) := by
  induction n generalizing iteration nn with
  | zero =>
    obtain rfl := (Prod.mk.inj h).1
    exact ⟨rfl, rfl, fun hpos => absurd hpos (Nat.lt_irrefl 0)⟩
  | succ n ih =>
    rw [iterate] at h
    rcases hstep : nn.execWithStateSwap engine (iteration % 2 == 1) i j with ⟨middle, failure | _⟩
    · rw [hstep] at h
      cases (Prod.mk.inj h).2
    · rw [hstep] at h
      obtain ⟨hanec, hold, hnew⟩ := iteration_state hsteps hj hsize hstep
      have hrest := ih (hanec.symm ▸ hsteps) (hanec.symm ▸ hj) (hanec.symm ▸ hsize) h
      rw [hanec, hnew, ← Function.iterate_succ_apply, Nat.add_assoc, Nat.add_comm 1 n] at hrest
      obtain ⟨hheader, hnewest, hprevious⟩ := hrest
      refine ⟨hheader, hnewest, fun _ => ?_⟩
      rcases Nat.eq_zero_or_pos n with rfl | hpos
      · obtain rfl := (Prod.mk.inj h).1
        exact hold
      · rw [hprevious hpos, ← Function.iterate_succ_apply]
        congr 2
        omega

/-! ## The calls -/

/-- The arguments of a loop that succeeds are in range, and the two banks have one size. -/
theorem execLoop_eq_ok (h : nn.execLoop engine n i j = (next, .ok ())) :
    0 < n ∧ j < nn.anec.dstCount ∧
      nn.anec.tileSize (nn.anec.srcBdx i) = nn.anec.tileSize (nn.anec.dstBdx j) ∧
      iterate engine i j n 0 nn = (next, .ok ()) := by
  unfold execLoop at h
  by_cases hrange : n = 0 ∨ nn.anec.srcCount ≤ i ∨ nn.anec.dstCount ≤ j
  · rw [if_pos hrange] at h
    cases (Prod.mk.inj h).2
  rw [if_neg hrange] at h
  by_cases hsize : nn.anec.tileSize (nn.anec.srcBdx i) ≠ nn.anec.tileSize (nn.anec.dstBdx j)
  · rw [if_pos hsize] at h
    cases (Prod.mk.inj h).2
  rw [if_neg hsize] at h
  exact ⟨by omega, by omega, not_not.mp hsize, h⟩

/-- How often the function was applied to what the output bank holds after a loop, and to what the
source bank holds. -/
def readCount (n : ℕ) : ℕ := if n % 2 = 1 then n else n - 1

@[inherit_doc readCount] def sourceCount (n : ℕ) : ℕ := if n % 2 = 1 then n - 1 else n

/-- The two banks after a loop. -/
theorem execLoop_banks (hsteps : Steps engine nn.anec i j f) (h : nn.execLoop engine n i j = (next, .ok ())) :
    next.anec = nn.anec ∧
      next.read j = f^[readCount n] (nn.chans (nn.anec.srcBdx i)) ∧
      next.chans (next.anec.srcBdx i) = f^[sourceCount n] (nn.chans (nn.anec.srcBdx i)) := by
  obtain ⟨hpos, hj, hsize, hloop⟩ := execLoop_eq_ok h
  obtain ⟨hanec, hnewest, hprevious⟩ := iterate_state hsteps hj hsize hloop
  have hprevious := hprevious hpos
  rw [Nat.zero_add] at hnewest hprevious
  rw [read, hanec, readCount, sourceCount]
  rcases Nat.mod_two_eq_zero_or_one n with heven | hodd
  · rw [heven] at hnewest hprevious ⊢
    exact ⟨rfl, hprevious, hnewest⟩
  · rw [hodd] at hnewest hprevious ⊢
    exact ⟨rfl, hnewest, hprevious⟩

section Progress

/-- A submission of a network whose first output is the state succeeds when the engine answers it
with a state that does not start with the sentinel. -/
theorem exists_execWithStateSwap (hsteps : Steps engine nn.anec i 0 f) (hj : 0 < nn.anec.dstCount)
    (hsize : nn.anec.tileSize (nn.anec.srcBdx i) = nn.anec.tileSize (nn.anec.dstBdx 0))
    (hwords : 0 < nn.anec.words (nn.anec.srcBdx i))
    (hanswers : ∀ sources, ∃ outputs, engine.submit sources = .ok outputs)
    (hhead : ∀ s word, (f s).head? = some word → word ≠ sentinel) :
    ∃ next, nn.execWithStateSwap engine swap i 0 = (next, .ok ()) := by
  obtain ⟨outputs, hsubmit⟩ := hanswers (nn.sources swap i 0)
  obtain ⟨hanec, -, hnew⟩ := answered_state hsteps hj hsize hsubmit rfl
  refine ⟨_, execWithStateSwap_eq_ok.mpr ⟨outputs, hsubmit, rfl, ?_⟩⟩
  have hstate : (nn.chans (nn.anec.stateBdx swap i 0)).length = nn.anec.words (nn.anec.srcBdx i) := by
    rw [nn.length_chans, Anec.words_stateBdx hsize]
  have hnonempty : f (nn.chans (nn.anec.stateBdx swap i 0)) ≠ [] := by
    rw [← List.length_pos_iff_ne_nil, hsteps.length _ hstate, hstate]
    exact hwords
  obtain ⟨word, rest, hword⟩ := List.exists_cons_of_ne_nil hnonempty
  rw [poll, hanec, Anec.outputBdx_state, hnew, hword, List.head?_cons]
  exact if_neg (hhead _ word (by rw [hword, List.head?_cons]))

/-- A loop of such a network succeeds. -/
theorem exists_execLoop (hsteps : Steps engine nn.anec i 0 f) (hi : i < nn.anec.srcCount) (hj : 0 < nn.anec.dstCount)
    (hsize : nn.anec.tileSize (nn.anec.srcBdx i) = nn.anec.tileSize (nn.anec.dstBdx 0))
    (hwords : 0 < nn.anec.words (nn.anec.srcBdx i))
    (hanswers : ∀ sources, ∃ outputs, engine.submit sources = .ok outputs)
    (hhead : ∀ s word, (f s).head? = some word → word ≠ sentinel) (hpos : 0 < n) :
    ∃ next, nn.execLoop engine n i 0 = (next, .ok ()) := by
  have hloop : ∀ n iteration, ∃ next, iterate engine i 0 n iteration nn = (next, .ok ()) := by
    intro n
    induction n generalizing nn with
    | zero => exact fun iteration => ⟨nn, rfl⟩
    | succ n ih =>
      intro iteration
      obtain ⟨middle, hstep⟩ :=
        @exists_execWithStateSwap nn i (iteration % 2 == 1) engine f hsteps hj hsize hwords hanswers hhead
      have hanec := (iteration_state hsteps hj hsize hstep).1
      rw [iterate, hstep]
      exact ih (hanec.symm ▸ hsteps) (hanec.symm ▸ hi) (hanec.symm ▸ hj) (hanec.symm ▸ hsize)
        (hanec.symm ▸ hwords) (iteration + 1)
  obtain ⟨next, hnext⟩ := hloop n 0
  refine ⟨next, ?_⟩
  rw [execLoop, if_neg (by omega), if_neg (not_not_intro hsize), hnext]

end Progress

end Nn

/-- What a read returns after loops over a resident state. After one call it is the function applied
`n` times exactly when `n` is odd or the last application changes nothing; two calls leave what one
call of all iterations leaves exactly when the first count is even or the second odd, or the last
two applications change nothing. -/
theorem execLoop_composes_iff (engine : Engine) (nn : Nn) (i j : ℕ) (f : List Half → List Half)
    (hsteps : Steps engine nn.anec i j f) :
    (∀ n next, nn.execLoop engine n i j = (next, .ok ()) →
      (next.read j = f^[n] (nn.chans (nn.anec.srcBdx i)) ↔
        n % 2 = 1 ∨ f^[n - 1] (nn.chans (nn.anec.srcBdx i)) = f^[n] (nn.chans (nn.anec.srcBdx i)))) ∧
    ∀ m n middle two one, nn.execLoop engine m i j = (middle, .ok ()) →
      middle.execLoop engine n i j = (two, .ok ()) → nn.execLoop engine (m + n) i j = (one, .ok ()) →
      (two.read j = one.read j ↔ m % 2 = 0 ∨ n % 2 = 1 ∨
        f^[m + n - 2] (nn.chans (nn.anec.srcBdx i)) = f^[m + n] (nn.chans (nn.anec.srcBdx i))) := by
  constructor
  · intro n next h
    obtain ⟨-, hread, -⟩ := Nn.execLoop_banks hsteps h
    rw [hread, Nn.readCount]
    split_ifs with hodd
    · exact iff_of_true rfl (Or.inl hodd)
    · rw [or_iff_right hodd]
  · intro m n middle two one hm hn hmn
    obtain ⟨hmpos, -⟩ := Nn.execLoop_eq_ok hm
    obtain ⟨hnpos, -⟩ := Nn.execLoop_eq_ok hn
    obtain ⟨hanec, -, hsource⟩ := Nn.execLoop_banks hsteps hm
    obtain ⟨-, htwo, -⟩ := Nn.execLoop_banks (hanec.symm ▸ hsteps) hn
    obtain ⟨-, hone, -⟩ := Nn.execLoop_banks hsteps hmn
    rw [htwo, hone, hsource, ← Function.iterate_add_apply]
    by_cases hsplit : m % 2 = 0 ∨ n % 2 = 1
    · have hcount : Nn.readCount n + Nn.sourceCount m = Nn.readCount (m + n) := by
        unfold Nn.readCount Nn.sourceCount
        split_ifs <;> omega
      rw [hcount]
      exact iff_of_true rfl (or_assoc.mp (Or.inl hsplit))
    · have hleft : Nn.readCount n + Nn.sourceCount m = m + n - 2 := by
        unfold Nn.readCount Nn.sourceCount
        split_ifs <;> omega
      have hright : Nn.readCount (m + n) = m + n := by
        unfold Nn.readCount
        split_ifs <;> omega
      rw [hleft, hright, ← or_assoc, or_iff_right hsplit]

/-! ## A counting network -/

/-- Count up modulo 256. -/
def nextWord (word : Half) : Half := (word + 1) &&& 0x00FF

/-- The engine that counts every half-word of its first input up. -/
def counter : Engine := ⟨fun sources => .ok fun _ => (sources 0).map nextWord⟩

/-- One input and one output of one tile. -/
def oneTile : Anec := ⟨1, 1, fun _ => 1⟩

theorem words_oneTile (bdx : ℕ) : oneTile.words bdx = 8192 := by
  have hsize : oneTile.tileSize bdx = 2 ^ 14 := Nat.one_shiftLeft 14
  rw [Anec.words, hsize]
  norm_num

/-- A network with one input and one output, all zero. -/
def zeroed : Nn where
  anec := oneTile
  chans _ := List.replicate 8192 0
  length_chans bdx := List.length_replicate.trans (words_oneTile bdx).symm

theorem counter_steps : Steps counter zeroed.anec 0 0 (List.map nextWord) where
  state sources outputs h := by
    obtain rfl := Except.ok.inj h
    rfl
  length s _ := List.length_map nextWord

/-- The counting network runs any number of iterations from any contents. -/
theorem exists_counted (hanec : nn.anec = zeroed.anec) (hpos : 0 < n) :
    ∃ next, nn.execLoop counter n 0 0 = (next, .ok ()) := by
  have hsource : 0 < zeroed.anec.srcCount := Nat.one_pos
  have hwords : 0 < zeroed.anec.words (zeroed.anec.srcBdx 0) := Nat.lt_of_lt_of_eq (by decide) (words_oneTile _).symm
  rw [← hanec] at hsource hwords
  refine Nn.exists_execLoop (hanec.symm ▸ counter_steps) hsource (hanec.symm ▸ Nat.one_pos) (hanec.symm ▸ rfl) hwords
    (fun sources => ⟨_, rfl⟩) ?_ hpos
  intro s word hword
  cases s with
  | nil => cases hword
  | cons first rest =>
    obtain rfl := Option.some.inj hword
    intro hsentinel
    have hlow : (nextWord first).toNat ≤ 0x00FF := by
      rw [nextWord, BitVec.toNat_and]
      exact Nat.and_le_right
    rw [hsentinel] at hlow
    exact absurd hlow (by decide)

theorem execLoop_composes_iff_counter : ∃ next, zeroed.execLoop counter 3 0 0 = (next, .ok ()) ∧
    next.read 0 = (List.map nextWord)^[3] (zeroed.chans (zeroed.anec.srcBdx 0)) := by
  obtain ⟨next, hnext⟩ := exists_counted rfl (show 0 < 3 by decide)
  have hiff := (execLoop_composes_iff counter zeroed 0 0 (List.map nextWord) counter_steps).1 3 next hnext
  exact ⟨next, hnext, hiff.mpr (Or.inl rfl)⟩

/-- The states of the counting network. -/
theorem iterate_zeroed (k : ℕ) : (List.map nextWord)^[k] (zeroed.chans (zeroed.anec.srcBdx 0)) =
    List.replicate 8192 (nextWord^[k] 0) := by
  induction k with
  | zero => rfl
  | succ k ih => rw [Function.iterate_succ_apply', ih, List.map_replicate, Function.iterate_succ_apply']

/-- Different counts are different states. -/
theorem iterate_zeroed_ne {k l : ℕ} (h : nextWord^[k] 0 ≠ nextWord^[l] 0) :
    (List.map nextWord)^[k] (zeroed.chans (zeroed.anec.srcBdx 0)) ≠
      (List.map nextWord)^[l] (zeroed.chans (zeroed.anec.srcBdx 0)) := by
  rw [iterate_zeroed, iterate_zeroed]
  exact fun heq => h (List.replicate_right_injective (by decide) heq)

/-- After two iterations the read returns the state after the first one, and one iteration followed
by two leaves what three do not. -/
theorem execLoop_even_reads_older : ∃ next middle two one,
    zeroed.execLoop counter 2 0 0 = (next, .ok ()) ∧
      next.read 0 ≠ (List.map nextWord)^[2] (zeroed.chans (zeroed.anec.srcBdx 0)) ∧
    zeroed.execLoop counter 1 0 0 = (middle, .ok ()) ∧ middle.execLoop counter 2 0 0 = (two, .ok ()) ∧
      zeroed.execLoop counter (1 + 2) 0 0 = (one, .ok ()) ∧ two.read 0 ≠ one.read 0 := by
  obtain ⟨next, hnext⟩ := exists_counted rfl (show 0 < 2 by decide)
  obtain ⟨middle, hmiddle⟩ := exists_counted rfl (show 0 < 1 by decide)
  obtain ⟨hanec, -, hsource⟩ := Nn.execLoop_banks counter_steps hmiddle
  obtain ⟨two, htwo⟩ := exists_counted hanec (show 0 < 2 by decide)
  obtain ⟨one, hone⟩ := exists_counted rfl (show 0 < 1 + 2 by decide)
  obtain ⟨-, hnextRead, -⟩ := Nn.execLoop_banks counter_steps hnext
  obtain ⟨-, htwoRead, -⟩ := Nn.execLoop_banks (hanec.symm ▸ counter_steps) htwo
  obtain ⟨-, honeRead, -⟩ := Nn.execLoop_banks counter_steps hone
  rw [hsource, ← Function.iterate_add_apply] at htwoRead
  refine ⟨next, middle, two, one, hnext, ?_, hmiddle, htwo, hone, ?_⟩
  · rw [hnextRead]
    exact iterate_zeroed_ne (by decide)
  · rw [htwoRead, honeRead]
    exact iterate_zeroed_ne (by decide)

end AneLinux.Libane
