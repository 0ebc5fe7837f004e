import Mathlib.Data.Nat.Notation
import Mathlib.Logic.Function.Basic

/-!
# Clients of the resident daemon

A client looks the daemon up in the pid file, spawns it when it is not there or serves another configuration, and
talks to it over two FIFOs while it holds the session lock. The daemon is found, spawned and killed outside the
lock, and `_kill_daemon` removes the lock file with the others.

Paths name inodes, so a descriptor keeps what its path named when it was opened. A file is read or written in one
step. An `open` that the kernel would hold back may return at any time, a daemon may exit at any time, and a process
that exited is seen by `os.kill` until it is reaped. The stderr file is left out.
-/

namespace AneLinux.Resident

/-- The state of a spawned process: `os.kill(pid, 0)` fails only when it is gone. -/
inductive Life
  | running
  | zombie
  | gone
deriving DecidableEq, Repr

/-- A spawned daemon with the FIFOs that are its standard input and output. -/
structure Daemon where
  input : ℕ
  output : ℕ
  life : Life
deriving DecidableEq, Repr

/-- A session whose `__enter__` raised: the lock it holds and the FIFO it had open. -/
structure Leak (T : Type*) where
  client : T
  lock : ℕ
  fifo : Option ℕ
deriving DecidableEq, Repr

/-- What the clients share: the directory, the owners of the locks, the daemons and the sessions left open.
A pid is the place of its daemon, `none` is a path that does not exist. -/
structure Shared (T κ : Type*) where
  inPath : Option ℕ
  outPath : Option ℕ
  lockPath : Option ℕ
  pidPath : Option ℕ
  metaPath : Option κ
  owner : ℕ → Option T
  nextIno : ℕ
  daemons : List Daemon
  leaks : List (Leak T)

/-- The paths that `_kill_daemon` removes. -/
inductive Name
  | input
  | output
  | pid
  | lock
  | daemonMeta
deriving DecidableEq, Repr

/-- What follows the removal of paths: the FIFOs of a new daemon, all of `spawn_daemon`, or the end of the call. -/
inductive Next (κ : Type*)
  | makeFifos (config : κ)
  | spawn (config : κ)
  | stop
deriving DecidableEq, Repr

/-- Who calls `daemon_pid`. -/
inductive Caller (κ : Type*)
  | ensure (config : κ)
  | kill (next : Next κ)
  | shutdown
deriving DecidableEq, Repr

/-- Where a client is. -/
inductive Pc (κ : Type*)
  | idle
  | readPid (caller : Caller κ)
  | checkPid (caller : Caller κ) (pid : ℕ)
  | readMeta (config : κ)
  | terminate (next : Next κ) (pid : ℕ)
  | await (next : Next κ) (pid : ℕ)
  | forceKill (next : Next κ) (pid : ℕ)
  | unlinking (next : Next κ) (names : List Name)
  | makeInput (config : κ)
  | makeOutput (config : κ)
  | openInput (config : κ)
  | openOutput (config : κ) (input : ℕ)
  | popen (config : κ) (input output : ℕ)
  | writePid (config : κ) (pid : ℕ)
  | writeMeta (config : κ) (pid : ℕ)
  | poll (pid : ℕ)
  | openLock
  | takeLock (lock : ℕ)
  | openOut (lock : ℕ)
  | openIn (lock out : ℕ)
  | talk (lock out inp : ℕ)
  | closeFifos (failed : Bool) (lock out inp : ℕ)
  | unlock (failed : Bool) (lock : ℕ)
  | closeLock (failed : Bool) (lock : ℕ)
  | quitOpenIn
  | quitOpenOut
  | quitTalk
deriving DecidableEq, Repr

/-- What a client does next. The other way is a submit that raises `ResidentDead`, a `Popen` that raises, a FIFO
without its other end, or a wait for the daemon's exit that ends too early. -/
inductive Choice (κ : Type*)
  | submit (config : κ)
  | shutdown
  | proceed
  | otherwise
deriving DecidableEq, Repr

variable {T κ : Type*} [DecidableEq T] [DecidableEq κ]

section Effects

/-- Whether `os.kill(pid, 0)` finds the process. -/
def Shared.present (s : Shared T κ) (pid : ℕ) : Bool :=
  match s.daemons[pid]? with
  | some daemon => daemon.life != .gone
  | none => false

/-- Whether the daemon runs. -/
def Shared.running (s : Shared T κ) (pid : ℕ) : Bool :=
  match s.daemons[pid]? with
  | some daemon => daemon.life == .running
  | none => false

/-- The process enters another state. -/
def Shared.setLife (s : Shared T κ) (pid : ℕ) (life : Life) : Shared T κ :=
  { s with daemons := s.daemons.modify pid fun daemon => { daemon with life } }

/-- `SIGKILL`: a process that runs does not run any more. -/
def Shared.kill (s : Shared T κ) (pid : ℕ) : Shared T κ := if s.running pid then s.setLife pid .zombie else s

/-- `unlink`, where a path that does not exist is no error. -/
def Shared.unlink (s : Shared T κ) : Name → Shared T κ
  | .input => { s with inPath := none }
  | .output => { s with outPath := none }
  | .pid => { s with pidPath := none }
  | .lock => { s with lockPath := none }
  | .daemonMeta => { s with metaPath := none }

/-- The paths of `_paths()` in order. -/
def allNames : List Name := [.input, .output, .pid, .lock, .daemonMeta]

/-- Where a call goes on after it removed its paths. -/
def Next.resume : Next κ → Pc κ
  | .makeFifos config => .makeInput config
  | .spawn config => .unlinking (.makeFifos config) [.input, .output]
  | .stop => .idle

/-- Where the caller of `daemon_pid` goes on with a pid. -/
def Caller.found (pid : ℕ) : Caller κ → Pc κ
  | .ensure config => .readMeta config
  | .kill next => .terminate next pid
  | .shutdown => .quitOpenIn

/-- Where the caller of `daemon_pid` goes on without one. -/
def Caller.missing : Caller κ → Pc κ
  | .ensure config => (Next.spawn config).resume
  | .kill next => .unlinking next allNames
  | .shutdown => .readPid (.kill .stop)

/-- The next step of a client: what becomes of the shared state, and where the client is then. -/
def proceed (s : Shared T κ) (c : T) : Pc κ → Option (Shared T κ × Pc κ)
  | .idle => none
  | .readPid caller =>
    match s.pidPath with
    | none => some (s, caller.missing)
    | some pid => some (s, .checkPid caller pid)
  | .checkPid caller pid => some (s, if s.present pid then caller.found pid else caller.missing)
  | .readMeta config =>
    some (s, if s.metaPath = some config then .openLock else .readPid (.kill (.spawn config)))
  | .terminate next pid => some (s, .await next pid)
  | .await next pid => if s.present pid then none else some (s, .unlinking next allNames)
  | .forceKill next pid => some (s.kill pid, .unlinking next allNames)
  | .unlinking next [] => some (s, next.resume)
  | .unlinking next (name :: names) => some (s.unlink name, .unlinking next names)
  | .makeInput config =>
    if s.inPath = none then
      some ({ s with inPath := some s.nextIno, nextIno := s.nextIno + 1 }, .makeOutput config)
    else some (s, .idle)
  | .makeOutput config =>
    if s.outPath = none then
      some ({ s with outPath := some s.nextIno, nextIno := s.nextIno + 1 }, .openInput config)
    else some (s, .idle)
  | .openInput config => some (s, s.inPath.elim .idle (.openOutput config))
  | .openOutput config input => some (s, s.outPath.elim .idle (.popen config input))
  | .popen config input output =>
    some ({ s with daemons := s.daemons ++ [⟨input, output, .running⟩] }, .writePid config s.daemons.length)
  | .writePid config pid => some ({ s with pidPath := some pid }, .writeMeta config pid)
  | .writeMeta config pid => some ({ s with metaPath := some config }, .poll pid)
  | .poll pid => if s.running pid then some (s, .openLock) else some (s.setLife pid .gone, .idle)
  | .openLock =>
    match s.lockPath with
    | some lock => some (s, .takeLock lock)
    | none => some ({ s with lockPath := some s.nextIno, nextIno := s.nextIno + 1 }, .takeLock s.nextIno)
  | .takeLock lock =>
    if s.owner lock = none then some ({ s with owner := Function.update s.owner lock (some c) }, .openOut lock)
    else none
  | .openOut lock =>
    match s.outPath with
    | some out => some (s, .openIn lock out)
    | none => some ({ s with leaks := ⟨c, lock, none⟩ :: s.leaks }, .idle)
  | .openIn lock out =>
    match s.inPath with
    | some inp => some (s, .talk lock out inp)
    | none => some ({ s with leaks := ⟨c, lock, some out⟩ :: s.leaks }, .idle)
  | .talk lock out inp => some (s, .closeFifos false lock out inp)
  | .closeFifos failed lock _ _ => some (s, .unlock failed lock)
  | .unlock failed lock =>
    some ({ s with owner := Function.update s.owner lock none }, .closeLock failed lock)
  | .closeLock failed _ => some (s, if failed then .readPid (.kill .stop) else .idle)
  | .quitOpenIn => some (s, if s.inPath = none then .idle else .quitOpenOut)
  | .quitOpenOut => some (s, if s.outPath = none then .idle else .quitTalk)
  | .quitTalk => some (s, .readPid (.kill .stop))

/-- The other way a step can go. -/
def otherwise (s : Shared T κ) : Pc κ → Option (Shared T κ × Pc κ)
  | .await next pid => if s.present pid then some (s, .forceKill next pid) else none
  | .popen _ _ _ => some (s, .idle)
  | .talk lock out inp => some (s, .closeFifos true lock out inp)
  | .quitOpenIn => some (s, .idle)
  | _ => none

/-- A step of a client. -/
def clientStep (s : Shared T κ) (c : T) (choice : Choice κ) (pc : Pc κ) : Option (Shared T κ × Pc κ) :=
  match choice with
  | .submit config => if pc = .idle then some (s, .readPid (.ensure config)) else none
  | .shutdown => if pc = .idle then some (s, .readPid .shutdown) else none
  | .proceed => proceed s c pc
  | .otherwise => otherwise s pc

end Effects

section Worlds

/-- The shared state and where every client is. -/
structure World (T κ : Type*) where
  shared : Shared T κ
  pc : T → Pc κ

/-- What happens next: a client moves, a daemon exits, or an exited daemon is reaped. -/
inductive Event (T κ : Type*)
  | client (c : T) (choice : Choice κ)
  | exits (pid : ℕ)
  | reaped (pid : ℕ)
deriving DecidableEq, Repr

/-- An empty directory, no daemon and no client at work. -/
def World.start : World T κ where
  shared := ⟨none, none, none, none, none, fun _ => none, 0, [], []⟩
  pc := fun _ => .idle

/-- One step of the system. -/
def step (w : World T κ) : Event T κ → Option (World T κ)
  | .client c choice =>
    (clientStep w.shared c choice (w.pc c)).map fun after => ⟨after.1, Function.update w.pc c after.2⟩
  | .exits pid => if w.shared.running pid then some ⟨w.shared.setLife pid .zombie, w.pc⟩ else none
  | .reaped pid =>
    if w.shared.present pid && !w.shared.running pid then some ⟨w.shared.setLife pid .gone, w.pc⟩ else none

/-- A run of events, each of which can happen. -/
def run (w : World T κ) : List (Event T κ) → Option (World T κ)
  | [] => some w
  | event :: rest => (step w event).bind fun after => run after rest

/-- The FIFO descriptors that a client has open between taking and releasing the session lock. -/
def Pc.fifos : Pc κ → List ℕ
  | .openIn _ out => [out]
  | .talk _ out inp => [out, inp]
  | .closeFifos _ _ out inp => [out, inp]
  | _ => []

end Worlds

end AneLinux.Resident
