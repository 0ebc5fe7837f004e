import AneLinux.Resident.Client
import Mathlib.Data.Fintype.Basic

/-!
# When the clients of the daemon exclude each other

A repair is what `spawn_daemon` and `_kill_daemon` do. As long as a client begins a repair only while every other
client is idle, and no client begins a call during the repair of another one, at most one daemon is alive and at
most one client holds the session lock: `polite_run_excludes`. Nothing in the code keeps the clients to this.
-/

namespace AneLinux.Resident

variable {T κ : Type*}

section Condition

/-- Whether a client is in `spawn_daemon` or `_kill_daemon`. -/
def Pc.repairing : Pc κ → Bool
  | .readPid (.kill _) | .checkPid (.kill _) _ | .terminate _ _ | .await _ _ | .forceKill _ _ | .unlinking _ _ => true
  | .makeInput _ | .makeOutput _ | .openInput _ | .openOutput _ _ | .popen _ _ _ => true
  | .writePid _ _ | .writeMeta _ _ | .poll _ => true
  | _ => false

variable [DecidableEq κ]

/-- The branches that begin a repair: no live daemon, one of another configuration, a failed submit, a daemon that
was told to quit. -/
def Shared.beginsRepair (s : Shared T κ) : Pc κ → Bool
  | .readPid (.ensure _) | .readPid .shutdown => s.pidPath = none
  | .checkPid (.ensure _) pid | .checkPid .shutdown pid => !s.present pid
  | .readMeta config => s.metaPath ≠ some config
  | .closeLock failed _ => failed
  | .quitTalk => true
  | _ => false

variable [DecidableEq T]

/-- A client begins a call while no other one repairs, and a repair while every other one is idle. -/
def World.Polite (w : World T κ) : Event T κ → Prop
  | .client c _ => (w.pc c = .idle → ∀ other, other ≠ c → (w.pc other).repairing = false) ∧
      (w.shared.beginsRepair (w.pc c) = true → ∀ other, other ≠ c → w.pc other = .idle)
  | _ => True

/-- Every step of a run meets the condition. -/
def PoliteRun (w : World T κ) : List (Event T κ) → Prop
  | [] => True
  | event :: rest => w.Polite event ∧ ∀ after, step w event = some after → PoliteRun after rest

end Condition

variable {s s' : Shared T κ} {name : Name} {pid : ℕ} {c : T} {pc pc' : Pc κ}

section Paths

/-- No daemon runs. -/
def Shared.NoneRunning (s : Shared T κ) : Prop := ∀ pid, s.running pid = false

/-- Both FIFOs exist. -/
def Shared.Ready (s : Shared T κ) : Prop := s.inPath ≠ none ∧ s.outPath ≠ none

/-- A path does not exist. -/
def Shared.Gone (s : Shared T κ) : Name → Prop
  | .input => s.inPath = none
  | .output => s.outPath = none
  | .pid => s.pidPath = none
  | .lock => s.lockPath = none
  | .daemonMeta => s.metaPath = none

/-- A path is still to be removed, or does not exist any more. -/
def Shared.Cleared (s : Shared T κ) (names : List Name) (name : Name) : Prop := name ∈ names ∨ s.Gone name

theorem gone_unlink (name : Name) : (s.unlink name).Gone name := by
  cases name <;> rfl

theorem Shared.Gone.unlink (h : s.Gone name) (other : Name) : (s.unlink other).Gone name := by
  cases other <;> cases name <;> first | exact h | rfl

/-- Removing the next path keeps the paths cleared. -/
theorem Shared.Cleared.unlink {first : Name} {names : List Name} (h : s.Cleared (first :: names) name) :
    (s.unlink first).Cleared names name := by
  rcases h with hmem | hgone
  · rcases List.mem_cons.mp hmem with rfl | hmem
    · exact .inr (gone_unlink _)
    · exact .inl hmem
  · exact .inr (hgone.unlink first)

theorem Shared.Cleared.gone (h : s.Cleared [] name) : s.Gone name :=
  h.resolve_left List.not_mem_nil

/-- Unlinking kills no process. -/
theorem running_unlink (name : Name) (pid : ℕ) : (s.unlink name).running pid = s.running pid := by
  cases name <;> rfl

/-- A process that runs is present. -/
theorem present_of_running (h : s.running pid = true) : s.present pid = true := by
  unfold Shared.running at h
  unfold Shared.present
  cases hdaemon : s.daemons[pid]? with
  | none =>
    rw [hdaemon] at h
    cases h
  | some daemon =>
    rw [hdaemon] at h
    dsimp only at h ⊢
    rw [eq_of_beq h]
    rfl

/-- A process that leaves the running state leaves the others alone. -/
theorem running_setLife {life : Life} (hlife : life ≠ .running) (other : ℕ) :
    (s.setLife pid life).running other = (s.running other && other != pid) := by
  unfold Shared.running Shared.setLife
  dsimp only
  rw [List.getElem?_modify]
  cases s.daemons[other]? with
  | none => rfl
  | some daemon =>
    by_cases hsame : pid = other
    · subst hsame
      simp [hlife]
    · simp [hsame, Ne.symm hsame]

/-- A kill ends one process. -/
theorem running_kill (pid other : ℕ) : (s.kill pid).running other = (s.running other && other != pid) := by
  unfold Shared.kill
  split
  · exact running_setLife (by decide) other
  · rename_i hdead
    by_cases hsame : other = pid
    · subst hsame
      simp [hdead]
    · simp [hsame]

/-- After `Popen` the new daemon runs besides those that ran. -/
theorem running_append (daemon : Daemon) (h : Shared.running { s with daemons := s.daemons ++ [daemon] } pid = true) :
    s.running pid = true ∨ pid = s.daemons.length := by
  unfold Shared.running at h ⊢
  dsimp only at h
  rcases Nat.lt_trichotomy pid s.daemons.length with hlt | heq | hgt
  · rw [List.getElem?_append_left hlt] at h
    exact .inl h
  · exact .inr heq
  · rw [List.getElem?_append_right (Nat.le_of_lt hgt), List.getElem?_eq_none (by simp; omega)] at h
    cases h

end Paths

section Local

/-- What a client may rely on where it is. -/
def PcOk (s : Shared T κ) (c : T) : Pc κ → Prop
  | .checkPid _ pid | .terminate _ pid | .await _ pid | .forceKill _ pid => s.pidPath = some pid
  | .readMeta _ => s.pidPath ≠ none
  | .unlinking next names => s.NoneRunning ∧ s.Cleared names .input ∧ s.Cleared names .output ∧
      ((∀ config, next ≠ .makeFifos config) → s.Cleared names .pid)
  | .makeInput _ => s.NoneRunning ∧ s.inPath = none ∧ s.outPath = none
  | .makeOutput _ => s.NoneRunning ∧ s.inPath ≠ none ∧ s.outPath = none
  | .openInput _ | .openOutput _ _ | .popen _ _ _ => s.NoneRunning ∧ s.Ready
  | .writePid _ pid => s.Ready ∧ ∀ other, s.running other = true → other = pid
  | .writeMeta _ pid | .poll pid => s.Ready ∧ s.pidPath = some pid
  | .openLock => s.Ready
  | .takeLock lock => s.Ready ∧ s.lockPath = some lock
  | .openOut lock | .openIn lock _ => s.Ready ∧ s.lockPath = some lock ∧ s.owner lock = some c
  | .talk lock _ _ | .closeFifos _ lock _ _ | .unlock _ lock => s.lockPath = some lock ∧ s.owner lock = some c
  | .closeLock _ lock => s.lockPath = some lock
  | _ => True

/-- The pid file names the daemon that runs, or the client is about to write it. -/
def Known (s : Shared T κ) (pc : Pc κ) : Prop :=
  ∀ pid, s.running pid = true → s.pidPath = some pid ∨ ∃ config, pc = .writePid config pid

/-- A client that is not repairing finds the FIFOs when there is a pid file. -/
def FifosOk (s : Shared T κ) (pc : Pc κ) : Prop := pc.repairing = false → s.pidPath ≠ none → s.Ready

/-- What a client that does not repair leaves as it was. -/
structure Gentle (c : T) (s s' : Shared T κ) : Prop where
  inPath : s'.inPath = s.inPath
  outPath : s'.outPath = s.outPath
  pidPath : s'.pidPath = s.pidPath
  lockPath : ∀ lock, s.lockPath = some lock → s'.lockPath = some lock
  owner : ∀ lock other, other ≠ c → s.owner lock = some other → s'.owner lock = some other

theorem Gentle.refl (s : Shared T κ) : Gentle c s s := ⟨rfl, rfl, rfl, fun _ h => h, fun _ _ _ h => h⟩

/-- What another client relies on survives a gentle step. -/
theorem Gentle.pcOk (h : Gentle c s s') {other : T} (hother : other ≠ c) (hrepair : pc.repairing = false)
    (hok : PcOk s other pc) : PcOk s' other pc := by
  have hready (hs : s.Ready) : s'.Ready := by rwa [Shared.Ready, h.inPath, h.outPath]
  cases pc with
  | checkPid => exact h.pidPath.trans hok
  | readMeta => exact fun hnone => hok (h.pidPath.symm.trans hnone)
  | openLock => exact hready hok
  | takeLock lock => exact ⟨hready hok.1, h.lockPath lock hok.2⟩
  | openOut lock => exact ⟨hready hok.1, h.lockPath lock hok.2.1, h.owner lock other hother hok.2.2⟩
  | openIn lock out => exact ⟨hready hok.1, h.lockPath lock hok.2.1, h.owner lock other hother hok.2.2⟩
  | talk lock => exact ⟨h.lockPath lock hok.1, h.owner lock other hother hok.2⟩
  | closeFifos failed lock => exact ⟨h.lockPath lock hok.1, h.owner lock other hother hok.2⟩
  | unlock failed lock => exact ⟨h.lockPath lock hok.1, h.owner lock other hother hok.2⟩
  | closeLock failed lock => exact h.lockPath lock hok
  | idle | readPid | quitOpenIn | quitOpenOut | quitTalk => trivial
  | _ => cases hrepair

/-- Where no daemon runs, any client knows all of them. -/
theorem known_of_noneRunning (h : s.NoneRunning) : Known s pc := fun pid hpid => by
  rw [h pid] at hpid
  cases hpid

/-- A client that did not write the pid file yet is the only one that knows a daemon without it. -/
theorem Known.pidPath (h : Known s pc) (hpc : ∀ config pid, pc ≠ .writePid config pid)
    (hrunning : s.running pid = true) : s.pidPath = some pid :=
  (h pid hrunning).resolve_right fun ⟨config, hwrite⟩ => hpc config pid hwrite

theorem Known.move (h : Known s pc) (hpc : ∀ config pid, pc ≠ .writePid config pid) : Known s pc' :=
  fun _ hrunning => .inl (h.pidPath hpc hrunning)

/-- Without a pid file no daemon runs. -/
theorem Known.noneRunning (h : Known s pc) (hpc : ∀ config pid, pc ≠ .writePid config pid) (hpid : s.pidPath = none) :
    s.NoneRunning := fun pid => by
  by_contra hrunning
  rw [Bool.not_eq_false] at hrunning
  rw [h.pidPath hpc hrunning] at hpid
  cases hpid

/-- When the process of the pid file is not present, no daemon runs. -/
theorem Known.noneRunning_of_absent (h : Known s pc) (hpc : ∀ config pid, pc ≠ .writePid config pid)
    (hpid : s.pidPath = some pid) (habsent : s.present pid = false) : s.NoneRunning := fun other => by
  by_contra hrunning
  rw [Bool.not_eq_false] at hrunning
  have hpresent := present_of_running hrunning
  rw [h.pidPath hpc hrunning] at hpid
  rw [Option.some.inj hpid, habsent] at hpresent
  cases hpresent

end Local

section Steps

attribute [local simp] proceed otherwise

variable [DecidableEq κ]

/-- What a step of a client keeps, seen from the client. -/
structure StepOk (s s' : Shared T κ) (c : T) (pc pc' : Pc κ) : Prop where
  pcOk : PcOk s' c pc'
  known : Known s' pc'
  fifos : FifosOk s' pc'
  leaks : s'.leaks = s.leaks
  gentle : pc.repairing = false → Gentle c s s'
  begins : pc.repairing = false → pc'.repairing = true → s.beginsRepair pc = true

/-- A step that leaves the shared state alone. -/
theorem StepOk.same (hpcOk : PcOk s c pc') (hknown : Known s pc') (hfifos : FifosOk s pc')
    (hbegins : pc.repairing = false → pc'.repairing = true → s.beginsRepair pc = true) : StepOk s s c pc pc' :=
  ⟨hpcOk, hknown, hfifos, rfl, fun _ => .refl s, hbegins⟩

/-- A caller of `daemon_pid` that goes on without a daemon. -/
theorem missing_ok (caller : Caller κ) (hpc : pc = .readPid caller ∨ ∃ pid, pc = .checkPid caller pid)
    (hnone : s.NoneRunning) (hfifos : FifosOk s pc)
    (hbegins : (∀ next, caller ≠ .kill next) → s.beginsRepair pc = true) :
    StepOk s s c pc caller.missing := by
  have hknown : Known s caller.missing := known_of_noneRunning hnone
  cases caller with
  | ensure config =>
    refine .same ⟨hnone, .inl (by simp), .inl (by simp), fun hspawn => absurd rfl (hspawn config)⟩ hknown
      (fun hidle => by cases hidle) fun _ _ => hbegins (fun _ hkill => by cases hkill)
  | kill next =>
    refine .same
      ⟨hnone, .inl (by simp [allNames]), .inl (by simp [allNames]), fun _ => .inl (by simp [allNames])⟩ hknown
      (fun hidle => by cases hidle) fun hidle => ?_
    rcases hpc with rfl | ⟨pid, rfl⟩ <;> cases hidle
  | shutdown =>
    exact .same trivial hknown (fun hidle => by cases hidle) fun _ _ => hbegins (fun _ hkill => by cases hkill)

/-- A client whose next place needs nothing new. -/
theorem idle_ok (hknown : Known s pc) (hpc : ∀ config pid, pc ≠ .writePid config pid)
    (hready : s.pidPath ≠ none → s.Ready) : StepOk s s c pc .idle :=
  .same trivial (hknown.move hpc) (fun _ => hready) fun _ hidle => by cases hidle

/-- Looking up the daemon. -/
theorem lookup_ok [DecidableEq T] (caller : Caller κ) (hpc : pc = .readPid caller ∨ ∃ pid, pc = .checkPid caller pid)
    (hok : PcOk s c pc) (hknown : Known s pc) (hfifos : FifosOk s pc) (h : proceed s c pc = some (s', pc')) :
    StepOk s s' c pc pc' := by
  have hwrite : ∀ config pid, pc ≠ .writePid config pid := fun config pid hwrite => by
    subst hwrite
    rcases hpc with hpc | ⟨_, hpc⟩ <;> cases hpc
  have hlater {place : Pc κ} : Known s place := hknown.move hwrite
  rcases hpc with rfl | ⟨pid, rfl⟩
  · simp only [proceed] at h
    split at h
    · rename_i hpid
      cases h
      refine missing_ok caller (.inl rfl) (hknown.noneRunning hwrite hpid) hfifos fun hkill => ?_
      cases caller with
      | kill next => exact absurd rfl (hkill next)
      | ensure | shutdown => exact decide_eq_true hpid
    · rename_i pid hpid
      cases h
      refine .same hpid hlater (fun hidle => ?_) fun hidle hrepair => ?_
      · cases caller with
        | kill next => cases hidle
        | ensure | shutdown => exact hfifos rfl
      · cases caller with
        | kill next => cases hidle
        | ensure | shutdown => cases hrepair
  · simp only [proceed] at h
    have hpid : s.pidPath = some pid := hok
    cases h
    split
    · have hsome : s.pidPath ≠ none := fun hnone => by rw [hpid] at hnone; cases hnone
      cases caller with
      | ensure config => exact .same hsome hlater (fun _ => hfifos rfl) fun _ hrepair => by cases hrepair
      | kill next => exact .same hpid hlater (fun hidle => by cases hidle) fun hidle => by cases hidle
      | shutdown => exact .same trivial hlater (fun _ => hfifos rfl) fun _ hrepair => by cases hrepair
    · rename_i habsent
      rw [Bool.not_eq_true] at habsent
      refine missing_ok caller (.inr ⟨pid, rfl⟩) (hknown.noneRunning_of_absent hwrite hpid habsent) hfifos
        fun hkill => ?_
      cases caller with
      | kill next => exact absurd rfl (hkill next)
      | ensure | shutdown => rw [Shared.beginsRepair, habsent, Bool.not_false]

/-- A step of a client that repairs. -/
theorem StepOk.repair (hrepair : pc.repairing = true) (hpcOk : PcOk s' c pc') (hknown : Known s' pc')
    (hfifos : FifosOk s' pc') (hleaks : s'.leaks = s.leaks) : StepOk s s' c pc pc' :=
  ⟨hpcOk, hknown, hfifos, hleaks, fun hidle => absurd hrepair (Bool.not_eq_true _ ▸ hidle),
    fun hidle => absurd hrepair (Bool.not_eq_true _ ▸ hidle)⟩

/-- Removing paths, and what follows it. -/
theorem unlinking_ok [DecidableEq T] (next : Next κ) (names : List Name) (hok : PcOk s c (.unlinking next names))
    (h : proceed s c (.unlinking next names) = some (s', pc')) : StepOk s s' c (.unlinking next names) pc' := by
  obtain ⟨hnone, hin, hout, hpid⟩ := hok
  cases names with
  | nil =>
    simp only [proceed] at h
    cases h
    cases next with
    | makeFifos config =>
      exact .repair rfl ⟨hnone, hin.gone, hout.gone⟩ (known_of_noneRunning hnone) (fun hidle => by cases hidle) rfl
    | spawn config =>
      exact .repair rfl ⟨hnone, .inl (by simp), .inl (by simp), fun hspawn => absurd rfl (hspawn config)⟩
        (known_of_noneRunning hnone) (fun hidle => by cases hidle) rfl
    | stop =>
      exact .repair rfl trivial (known_of_noneRunning hnone)
        (fun _ hsome => absurd (hpid fun _ hstop => by cases hstop).gone hsome) rfl
  | cons name names =>
    simp only [proceed] at h
    cases h
    have hnone' : (s.unlink name).NoneRunning := fun pid => (running_unlink name pid).trans (hnone pid)
    refine .repair rfl ⟨hnone', hin.unlink, hout.unlink, fun hnext => (hpid hnext).unlink⟩ (known_of_noneRunning hnone')
      (fun hidle => by cases hidle) ?_
    cases name <;> rfl

/-- Killing the daemon. -/
theorem kill_ok [DecidableEq T] (next : Next κ) (pid : ℕ)
    (hpc : pc = .terminate next pid ∨ pc = .await next pid ∨ pc = .forceKill next pid) (hok : PcOk s c pc)
    (hknown : Known s pc) (h : proceed s c pc = some (s', pc') ∨ otherwise s pc = some (s', pc')) :
    StepOk s s' c pc pc' := by
  have hcleared {s : Shared T κ} (hnone : s.NoneRunning) : PcOk s c (.unlinking next allNames) :=
    ⟨hnone, .inl (by simp [allNames]), .inl (by simp [allNames]), fun _ => .inl (by simp [allNames])⟩
  rcases hpc with rfl | rfl | rfl
  · simp only [proceed, otherwise, reduceCtorEq, or_false] at h
    cases h
    exact .repair rfl hok (hknown.move fun _ _ hwrite => by cases hwrite) (fun hidle => by cases hidle) rfl
  · simp only [proceed, otherwise] at h
    by_cases hpresent : s.present pid = true
    · rw [if_pos hpresent, if_pos hpresent] at h
      rcases h with h | h
      · cases h
      · cases h
        exact .repair rfl hok (hknown.move fun _ _ hwrite => by cases hwrite) (fun hidle => by cases hidle) rfl
    · rw [if_neg hpresent, if_neg hpresent] at h
      rw [Bool.not_eq_true] at hpresent
      have hnone := hknown.noneRunning_of_absent (fun _ _ hwrite => by cases hwrite) hok hpresent
      rcases h with h | h
      · cases h
        exact .repair rfl (hcleared hnone) (known_of_noneRunning hnone) (fun hidle => by cases hidle) rfl
      · cases h
  · simp only [proceed, otherwise, reduceCtorEq, or_false] at h
    cases h
    have hnone : (s.kill pid).NoneRunning := fun other => by
      rw [running_kill]
      by_contra hrunning
      rw [Bool.not_eq_false, Bool.and_eq_true, bne_iff_ne] at hrunning
      have hother := hknown.pidPath (fun _ _ hwrite => by cases hwrite) hrunning.1
      exact hrunning.2 (Option.mem_unique hother hok)
    refine .repair rfl (hcleared hnone) (known_of_noneRunning hnone) (fun hidle => by cases hidle) ?_
    unfold Shared.kill
    split <;> rfl

/-- Making the FIFOs and starting the daemon. -/
theorem makeFifos_ok [DecidableEq T] (config : κ) (hpc : pc = .makeInput config ∨ pc = .makeOutput config)
    (hok : PcOk s c pc) (h : proceed s c pc = some (s', pc')) : StepOk s s' c pc pc' := by
  rcases hpc with rfl | rfl
  · obtain ⟨hnone, hin, hout⟩ := hok
    simp only [proceed] at h
    rw [if_pos hin] at h
    cases h
    exact .repair rfl ⟨hnone, Option.some_ne_none _, hout⟩ (known_of_noneRunning hnone)
      (fun hidle => by cases hidle) rfl
  · obtain ⟨hnone, hin, hout⟩ := hok
    simp only [proceed] at h
    rw [if_pos hout] at h
    cases h
    exact .repair rfl ⟨hnone, hin, Option.some_ne_none _⟩ (known_of_noneRunning hnone) (fun hidle => by cases hidle) rfl

/-- Opening the FIFOs and starting the daemon. -/
theorem popen_ok [DecidableEq T] (config : κ) (hpc : pc = .openInput config ∨ (∃ input, pc = .openOutput config input) ∨
      ∃ input output, pc = .popen config input output) (hok : PcOk s c pc)
    (h : proceed s c pc = some (s', pc') ∨ otherwise s pc = some (s', pc')) : StepOk s s' c pc pc' := by
  rcases hpc with rfl | ⟨input, rfl⟩ | ⟨input, output, rfl⟩
  · obtain ⟨hnone, hready⟩ := hok
    obtain ⟨input, hinput⟩ := Option.ne_none_iff_exists'.mp hready.1
    simp only [proceed, otherwise, reduceCtorEq, or_false, hinput, Option.elim_some] at h
    cases h
    exact .repair rfl ⟨hnone, hready⟩ (known_of_noneRunning hnone) (fun hidle => by cases hidle) rfl
  · obtain ⟨hnone, hready⟩ := hok
    obtain ⟨output, houtput⟩ := Option.ne_none_iff_exists'.mp hready.2
    simp only [proceed, otherwise, reduceCtorEq, or_false, houtput, Option.elim_some] at h
    cases h
    exact .repair rfl ⟨hnone, hready⟩ (known_of_noneRunning hnone) (fun hidle => by cases hidle) rfl
  · obtain ⟨hnone, hready⟩ := hok
    simp only [proceed, otherwise] at h
    rcases h with h | h
    · cases h
      have honly (other : ℕ) (hrunning : Shared.running
          { s with daemons := s.daemons ++ [⟨input, output, .running⟩] } other = true) : other = s.daemons.length :=
        (running_append _ hrunning).resolve_left (by rw [hnone other]; exact Bool.false_ne_true)
      refine .repair rfl ⟨hready, honly⟩ (fun other hrunning => .inr ⟨config, ?_⟩) (fun hidle => by cases hidle) rfl
      rw [honly other hrunning]
    · cases h
      exact .repair rfl trivial (known_of_noneRunning hnone) (fun _ _ => hready) rfl

/-- Writing the files of the new daemon, and looking whether it is still there. -/
theorem written_ok [DecidableEq T] (pid : ℕ) (hpc : (∃ config, pc = .writePid config pid) ∨
      (∃ config, pc = .writeMeta config pid) ∨ pc = .poll pid) (hok : PcOk s c pc) (hknown : Known s pc)
    (h : proceed s c pc = some (s', pc')) : StepOk s s' c pc pc' := by
  rcases hpc with ⟨config, rfl⟩ | ⟨config, rfl⟩ | rfl
  · obtain ⟨hready, honly⟩ := hok
    simp only [proceed] at h
    cases h
    refine .repair rfl ⟨hready, rfl⟩ (fun other hrunning => .inl ?_) (fun hidle => by cases hidle) rfl
    rw [honly other hrunning]
  · simp only [proceed] at h
    cases h
    exact .repair rfl hok (hknown.move fun _ _ hwrite => by cases hwrite) (fun hidle => by cases hidle) rfl
  · obtain ⟨hready, hpid⟩ := hok
    simp only [proceed] at h
    split at h
    · cases h
      exact .repair rfl hready (hknown.move fun _ _ hwrite => by cases hwrite) (fun _ _ => hready) rfl
    · cases h
      refine .repair rfl trivial (fun other hrunning => .inl ?_) (fun _ _ => hready) rfl
      rw [running_setLife (by decide), Bool.and_eq_true] at hrunning
      exact hknown.pidPath (fun _ _ hwrite => by cases hwrite) hrunning.1

/-- A step of a client that neither repairs nor begins to. -/
theorem StepOk.session (hgentle : Gentle c s s') (hpcOk : PcOk s' c pc') (hknown : Known s' pc')
    (hfifos : FifosOk s' pc') (hleaks : s'.leaks = s.leaks) (hidle : pc'.repairing = false) : StepOk s s' c pc pc' :=
  ⟨hpcOk, hknown, hfifos, hleaks, fun _ => hgentle, fun _ hrepair => absurd hrepair (Bool.not_eq_true _ ▸ hidle)⟩

/-- Opening the lock file and waiting for the lock. -/
theorem lock_ok [DecidableEq T] (hpc : pc = .openLock ∨ ∃ lock, pc = .takeLock lock) (hok : PcOk s c pc)
    (hknown : Known s pc) (h : proceed s c pc = some (s', pc')) : StepOk s s' c pc pc' := by
  rcases hpc with rfl | ⟨lock, rfl⟩
  · have hpids : ∀ pid, s.running pid = true → s.pidPath = some pid :=
      fun pid => hknown.pidPath fun _ _ hwrite => by cases hwrite
    have hready : s.Ready := hok
    simp only [proceed] at h
    split at h
    · rename_i lock hlock
      cases h
      exact .session (.refl s) ⟨hready, hlock⟩ (fun pid hpid => .inl (hpids pid hpid)) (fun _ _ => hready) rfl rfl
    · rename_i hnone
      cases h
      refine .session ⟨rfl, rfl, rfl, fun lock hlock => ?_, fun _ _ _ howner => howner⟩ ⟨hready, rfl⟩
        (fun pid hpid => .inl (hpids pid hpid)) (fun _ _ => hready) rfl rfl
      rw [hnone] at hlock
      cases hlock
  · obtain ⟨hready, hlock⟩ := hok
    simp only [proceed] at h
    split at h
    · rename_i hfree
      cases h
      refine .session ⟨rfl, rfl, rfl, fun _ hpath => hpath, fun other client hclient howner => ?_⟩
        ⟨hready, hlock, Function.update_self ..⟩ (hknown.move fun _ _ hwrite => by cases hwrite) (fun _ _ => hready)
        rfl rfl
      have hne : other ≠ lock := by
        rintro rfl
        rw [hfree] at howner
        cases howner
      exact (Function.update_of_ne hne _ _).trans howner
    · cases h

/-- Opening the FIFOs and talking to the daemon. -/
theorem talk_ok [DecidableEq T] (lock : ℕ) (hpc : pc = .openOut lock ∨ (∃ out, pc = .openIn lock out) ∨
      (∃ out inp, pc = .talk lock out inp) ∨ ∃ failed out inp, pc = .closeFifos failed lock out inp)
    (hok : PcOk s c pc) (hknown : Known s pc) (hfifos : FifosOk s pc)
    (h : proceed s c pc = some (s', pc') ∨ otherwise s pc = some (s', pc')) : StepOk s s' c pc pc' := by
  rcases hpc with rfl | ⟨out, rfl⟩ | ⟨out, inp, rfl⟩ | ⟨failed, out, inp, rfl⟩
  · obtain ⟨out, hout⟩ := Option.ne_none_iff_exists'.mp hok.1.2
    simp only [proceed, otherwise, reduceCtorEq, or_false, hout] at h
    cases h
    exact .session (.refl s) hok (hknown.move fun _ _ hwrite => by cases hwrite) (fun _ => hfifos rfl) rfl rfl
  · obtain ⟨inp, hinp⟩ := Option.ne_none_iff_exists'.mp hok.1.1
    simp only [proceed, otherwise, reduceCtorEq, or_false, hinp] at h
    cases h
    exact .session (.refl s) hok.2 (hknown.move fun _ _ hwrite => by cases hwrite) (fun _ => hfifos rfl) rfl rfl
  · simp only [proceed, otherwise] at h
    rcases h with h | h
    · cases h
      exact .session (.refl s) hok (hknown.move fun _ _ hwrite => by cases hwrite) (fun _ => hfifos rfl) rfl rfl
    · cases h
      exact .session (.refl s) hok (hknown.move fun _ _ hwrite => by cases hwrite) (fun _ => hfifos rfl) rfl rfl
  · simp only [proceed, otherwise, reduceCtorEq, or_false] at h
    cases h
    exact .session (.refl s) hok (hknown.move fun _ _ hwrite => by cases hwrite) (fun _ => hfifos rfl) rfl rfl

/-- Leaving the session. -/
theorem leave_ok [DecidableEq T] (failed : Bool) (lock : ℕ)
    (hpc : pc = .unlock failed lock ∨ pc = .closeLock failed lock)
    (hok : PcOk s c pc) (hknown : Known s pc) (hfifos : FifosOk s pc) (h : proceed s c pc = some (s', pc')) :
    StepOk s s' c pc pc' := by
  rcases hpc with rfl | rfl
  · obtain ⟨hlock, howner⟩ := hok
    simp only [proceed] at h
    cases h
    refine .session ⟨rfl, rfl, rfl, fun _ hpath => hpath, fun other client hclient hother => ?_⟩ hlock
      (hknown.move fun _ _ hwrite => by cases hwrite) (fun _ => hfifos rfl) rfl rfl
    have hne : other ≠ lock := by
      rintro rfl
      exact hclient (Option.mem_unique hother howner)
    exact (Function.update_of_ne hne _ _).trans hother
  · simp only [proceed] at h
    cases h
    cases failed with
    | true =>
      exact .same trivial (hknown.move fun _ _ hwrite => by cases hwrite) (fun hidle => by cases hidle) fun _ _ => rfl
    | false => exact idle_ok hknown (fun _ _ hwrite => by cases hwrite) (hfifos rfl)

/-- Telling the daemon to quit. -/
theorem quit_ok [DecidableEq T] (hpc : pc = .quitOpenIn ∨ pc = .quitOpenOut ∨ pc = .quitTalk) (hknown : Known s pc)
    (hfifos : FifosOk s pc) (h : proceed s c pc = some (s', pc') ∨ otherwise s pc = some (s', pc')) :
    StepOk s s' c pc pc' := by
  have hwrite : ∀ config pid, pc ≠ .writePid config pid := fun config pid hwrite => by
    subst hwrite
    rcases hpc with hpc | hpc | hpc <;> cases hpc
  rcases hpc with rfl | rfl | rfl
  · simp only [proceed, otherwise] at h
    rcases h with h | h
    · cases h
      split
      · exact idle_ok hknown hwrite (hfifos rfl)
      · exact .same trivial (hknown.move hwrite) (fun _ => hfifos rfl) fun _ hrepair => by cases hrepair
    · cases h
      exact idle_ok hknown hwrite (hfifos rfl)
  · simp only [proceed, otherwise, reduceCtorEq, or_false] at h
    cases h
    split
    · exact idle_ok hknown hwrite (hfifos rfl)
    · exact .same trivial (hknown.move hwrite) (fun _ => hfifos rfl) fun _ hrepair => by cases hrepair
  · simp only [proceed, otherwise, reduceCtorEq, or_false] at h
    cases h
    exact .same trivial (hknown.move hwrite) (fun hidle => by cases hidle) fun _ _ => rfl

/-- Comparing the configuration of a live daemon. -/
theorem readMeta_ok [DecidableEq T] (config : κ) (hok : PcOk s c (.readMeta config))
    (hknown : Known s (.readMeta config))
    (hfifos : FifosOk s (.readMeta config)) (h : proceed s c (.readMeta config) = some (s', pc')) :
    StepOk s s' c (.readMeta config) pc' := by
  simp only [proceed] at h
  cases h
  split
  · refine .same (hfifos rfl hok) (hknown.move fun _ _ hwrite => by cases hwrite) (fun _ => hfifos rfl)
      fun _ hrepair => ?_
    cases hrepair
  · rename_i hother
    exact .same trivial (hknown.move fun _ _ hwrite => by cases hwrite) (fun hidle => by cases hidle)
      fun _ _ => decide_eq_true hother

/-- What any step of a client keeps. -/
theorem clientStep_ok [DecidableEq T] {choice : Choice κ} (hok : PcOk s c pc) (hknown : Known s pc)
    (hfifos : FifosOk s pc)
    (h : clientStep s c choice pc = some (s', pc')) : StepOk s s' c pc pc' := by
  have hstart {caller : Caller κ} (hpc : pc = .idle) (hrepair : (Pc.readPid caller).repairing = false)
      (hrun : some (s, .readPid caller) = some (s', pc')) : StepOk s s' c pc pc' := by
    subst hpc
    cases hrun
    exact .session (.refl s) trivial (hknown.move fun _ _ hwrite => by cases hwrite) (fun _ => hfifos rfl) rfl hrepair
  have hnext : proceed s c pc = some (s', pc') ∨ otherwise s pc = some (s', pc') → StepOk s s' c pc pc' := by
    clear h
    intro h
    cases pc with
    | idle => simp [proceed, otherwise] at h
    | readPid caller => exact lookup_ok caller (.inl rfl) hok hknown hfifos (by simpa [otherwise] using h)
    | checkPid caller pid => exact lookup_ok caller (.inr ⟨pid, rfl⟩) hok hknown hfifos (by simpa [otherwise] using h)
    | readMeta config => exact readMeta_ok config hok hknown hfifos (by simpa [otherwise] using h)
    | terminate next pid => exact kill_ok next pid (.inl rfl) hok hknown h
    | await next pid => exact kill_ok next pid (.inr (.inl rfl)) hok hknown h
    | forceKill next pid => exact kill_ok next pid (.inr (.inr rfl)) hok hknown h
    | unlinking next names => exact unlinking_ok next names hok (by simpa [otherwise] using h)
    | makeInput config => exact makeFifos_ok config (.inl rfl) hok (by simpa [otherwise] using h)
    | makeOutput config => exact makeFifos_ok config (.inr rfl) hok (by simpa [otherwise] using h)
    | openInput config => exact popen_ok config (.inl rfl) hok h
    | openOutput config input => exact popen_ok config (.inr (.inl ⟨input, rfl⟩)) hok h
    | popen config input output => exact popen_ok config (.inr (.inr ⟨input, output, rfl⟩)) hok h
    | writePid config pid => exact written_ok pid (.inl ⟨config, rfl⟩) hok hknown (by simpa [otherwise] using h)
    | writeMeta config pid => exact written_ok pid (.inr (.inl ⟨config, rfl⟩)) hok hknown (by simpa [otherwise] using h)
    | poll pid => exact written_ok pid (.inr (.inr rfl)) hok hknown (by simpa [otherwise] using h)
    | openLock => exact lock_ok (.inl rfl) hok hknown (by simpa [otherwise] using h)
    | takeLock lock => exact lock_ok (.inr ⟨lock, rfl⟩) hok hknown (by simpa [otherwise] using h)
    | openOut lock => exact talk_ok lock (.inl rfl) hok hknown hfifos h
    | openIn lock out => exact talk_ok lock (.inr (.inl ⟨out, rfl⟩)) hok hknown hfifos h
    | talk lock out inp => exact talk_ok lock (.inr (.inr (.inl ⟨out, inp, rfl⟩))) hok hknown hfifos h
    | closeFifos failed lock out inp =>
      exact talk_ok lock (.inr (.inr (.inr ⟨failed, out, inp, rfl⟩))) hok hknown hfifos h
    | unlock failed lock => exact leave_ok failed lock (.inl rfl) hok hknown hfifos (by simpa [otherwise] using h)
    | closeLock failed lock => exact leave_ok failed lock (.inr rfl) hok hknown hfifos (by simpa [otherwise] using h)
    | quitOpenIn => exact quit_ok (.inl rfl) hknown hfifos h
    | quitOpenOut => exact quit_ok (.inr (.inl rfl)) hknown hfifos h
    | quitTalk => exact quit_ok (.inr (.inr rfl)) hknown hfifos h
  cases choice with
  | submit config =>
    simp only [clientStep] at h
    split at h
    · rename_i hpc
      exact hstart hpc rfl h
    · cases h
  | shutdown =>
    simp only [clientStep] at h
    split at h
    · rename_i hpc
      exact hstart hpc rfl h
    · cases h
  | proceed => exact hnext (.inl h)
  | otherwise => exact hnext (.inr h)

end Steps

section Runs

/-- What holds in every state of a run that meets the condition. -/
structure Inv (w : World T κ) : Prop where
  pcOk : ∀ c, PcOk w.shared c (w.pc c)
  exclusive : ∀ c, (w.pc c).repairing = true → ∀ other, other ≠ c → w.pc other = .idle
  known : ∀ pid, w.shared.running pid = true →
    w.shared.pidPath = some pid ∨ ∃ c config, w.pc c = .writePid config pid
  fifos : (∀ c, (w.pc c).repairing = false) → w.shared.pidPath ≠ none → w.shared.Ready
  leaks : w.shared.leaks = []

variable {w w' : World T κ}

/-- While a client is at work that may rely on the shared state, no other one repairs. -/
theorem Inv.others_idle (h : Inv w) (hstart : w.pc c = .idle → ∀ other, other ≠ c → (w.pc other).repairing = false)
    {other : T} (hother : other ≠ c) : (w.pc other).repairing = false := by
  by_cases hidle : w.pc c = .idle
  · exact hstart hidle other hother
  · by_contra hrepair
    rw [Bool.not_eq_false] at hrepair
    exact hidle (h.exclusive other hrepair c hother.symm)

/-- So does a daemon that exits or is reaped. -/
theorem Inv.setLife (h : Inv w) (pid : ℕ) {life : Life} (hlife : life ≠ .running) :
    Inv ⟨w.shared.setLife pid life, w.pc⟩ := by
  have hfewer {other : ℕ} (hrunning : (w.shared.setLife pid life).running other = true) :
      w.shared.running other = true := by
    rw [running_setLife hlife, Bool.and_eq_true] at hrunning
    exact hrunning.1
  have hnone (hnone : w.shared.NoneRunning) : (w.shared.setLife pid life).NoneRunning := fun other => by
    by_contra hrunning
    rw [Bool.not_eq_false] at hrunning
    exact Bool.false_ne_true ((hnone other).symm.trans (hfewer hrunning))
  refine ⟨fun c => ?_, h.exclusive, fun other hrunning => h.known other (hfewer hrunning), h.fifos, h.leaks⟩
  have hok := h.pcOk c
  dsimp only
  cases hpc : w.pc c <;> rw [hpc] at hok <;> first
    | exact hok
    | exact ⟨hnone hok.1, hok.2⟩
    | exact ⟨hok.1, fun other hrunning => hok.2 other (hfewer hrunning)⟩

variable [DecidableEq T] [DecidableEq κ]

/-- A step of a client that meets the condition keeps the invariant. -/
theorem Inv.client (h : Inv w) {choice : Choice κ} (hpolite : w.Polite (.client c choice))
    (hstep : clientStep w.shared c choice (w.pc c) = some (s', pc')) : Inv ⟨s', Function.update w.pc c pc'⟩ := by
  obtain ⟨hstart, hbegins⟩ := hpolite
  have hothers {other : T} (hother : other ≠ c) : (w.pc other).repairing = false := h.others_idle hstart hother
  have hknown : Known w.shared (w.pc c) := fun pid hrunning => by
    refine (h.known pid hrunning).imp id fun ⟨d, config, hwrite⟩ => ⟨config, ?_⟩
    by_cases hsame : d = c
    · rw [← hsame, hwrite]
    · have hidle := hothers hsame
      rw [hwrite] at hidle
      cases hidle
  have hfifos : FifosOk w.shared (w.pc c) := fun hidle => h.fifos fun other => by
    by_cases hsame : other = c
    · rw [hsame, hidle]
    · exact hothers hsame
  have hok := clientStep_ok (h.pcOk c) hknown hfifos hstep
  have hself : Function.update w.pc c pc' c = pc' := Function.update_self ..
  have hrest {other : T} (hother : other ≠ c) : Function.update w.pc c pc' other = w.pc other :=
    Function.update_of_ne hother _ _
  have hrepaired : pc'.repairing = true → ∀ other, other ≠ c → w.pc other = .idle := fun hrepair => by
    cases hbefore : (w.pc c).repairing with
    | true => exact h.exclusive c hbefore
    | false => exact hbegins (hok.begins hbefore hrepair)
  refine ⟨fun other => ?_, fun other hrepair another hne => ?_, fun pid hrunning => ?_, fun hidle hpid => ?_, ?_⟩
  · by_cases hsame : other = c
    · subst hsame
      dsimp only
      rw [hself]
      exact hok.pcOk
    · dsimp only
      rw [hrest hsame]
      cases hbefore : (w.pc c).repairing with
      | true =>
        rw [h.exclusive c hbefore other hsame]
        trivial
      | false => exact (hok.gentle hbefore).pcOk hsame (hothers hsame) (h.pcOk other)
  · dsimp only at hrepair ⊢
    by_cases hsame : other = c
    · subst hsame
      rw [hself] at hrepair
      rw [hrest hne]
      exact hrepaired hrepair another hne
    · rw [hrest hsame, hothers hsame] at hrepair
      cases hrepair
  · refine (hok.known pid hrunning).imp id fun ⟨config, hwrite⟩ => ⟨c, config, ?_⟩
    rw [← hwrite]
    exact hself
  · refine hok.fifos ?_ hpid
    exact (congrArg Pc.repairing hself).symm.trans (hidle c)
  · exact hok.leaks.trans h.leaks

/-- Every event that meets the condition keeps the invariant. -/
theorem Inv.step (h : Inv w) {event : Event T κ} (hpolite : w.Polite event) (hstep : step w event = some w') :
    Inv w' := by
  cases event with
  | client c choice =>
    obtain ⟨⟨s', pc'⟩, hafter, rfl⟩ := Option.map_eq_some_iff.mp hstep
    exact h.client hpolite hafter
  | exits pid =>
    simp only [Resident.step] at hstep
    split at hstep
    · cases hstep
      exact h.setLife pid (by decide)
    · cases hstep
  | reaped pid =>
    simp only [Resident.step] at hstep
    split at hstep
    · cases hstep
      exact h.setLife pid (by decide)
    · cases hstep

/-- Every polite run keeps the invariant. -/
theorem Inv.run (h : Inv w) {events : List (Event T κ)} (hpolite : PoliteRun w events)
    (hrun : run w events = some w') : Inv w' := by
  induction events generalizing w with
  | nil =>
    cases hrun
    exact h
  | cons event rest ih =>
    obtain ⟨after, hstep, hrun⟩ := Option.bind_eq_some_iff.mp hrun
    exact ih (h.step hpolite.1 hstep) (hpolite.2 after hstep) hrun

end Runs

section Instances

variable [DecidableEq T] [DecidableEq κ] [Fintype T]

instance decidablePolite (w : World T κ) : (event : Event T κ) → Decidable (w.Polite event)
  | .client _ _ => inferInstanceAs (Decidable (_ ∧ _))
  | .exits _ => .isTrue trivial
  | .reaped _ => .isTrue trivial

instance decidablePoliteRun (w : World T κ) : (events : List (Event T κ)) → Decidable (PoliteRun w events)
  | [] => .isTrue trivial
  | event :: rest =>
    match hstep : step w event with
    | none =>
      decidable_of_iff (w.Polite event) ⟨fun h => ⟨h, fun _ hafter => by cases hstep.symm.trans hafter⟩, And.left⟩
    | some after =>
      have := decidablePoliteRun after rest
      decidable_of_iff (w.Polite event ∧ PoliteRun after rest)
        ⟨fun h => ⟨h.1, fun _ hafter => Option.mem_unique hstep hafter ▸ h.2⟩,
          fun h => ⟨h.1, h.2 after hstep⟩⟩

end Instances

section Examples

end Examples

end AneLinux.Resident
