import AneLinux.Staged.Banks
import AneLinux.Support.Dict
import Mathlib.Data.Prod.Lex
import Mathlib.Data.String.Basic

/-!
# Pairing programs with HWX files

The batch converter gives every program of the manifest one HWX file. The rows of the pairing file
come first. The programs that are left fall into port classes, the files that are left into clusters
of one signature, and a class takes the one cluster of its size. When every class that is still
without files has one program, these classes are ordered by the input bytes predicted for them, the
files by their input sizes, and the two orders are matched.
-/

namespace AneLinux.Staged

open AneLinux.Support

/-- What the converter compares two HWX files by. -/
structure HwxSignature where
  inputSize : ℕ
  outputSize : ℕ
  workspaceSize : ℕ
  tdCount : ℕ
  kernelSize : ℕ
  kernelIsBlob : Bool
  contentSize : ℕ
deriving DecidableEq, Repr

/-- The classes of programs by their ports. -/
inductive PortClass
  | A
  | B
  | C
  | D
  | E
  | F
deriving DecidableEq, Repr

/-- The place of a class in the order of the class names. -/
def PortClass.rank : PortClass → ℕ
  | .A => 0
  | .B => 1
  | .C => 2
  | .D => 3
  | .E => 4
  | .F => 5

/-- A `dst` as the converter reads it. -/
structure KindDst where
  kind : SourceKind
  lane : String
deriving DecidableEq, Repr

/-- A program of the manifest as the converter reads it. -/
structure PairedProgram where
  srcs : List Source
  dsts : List KindDst
  groupStart : Bool
deriving DecidableEq, Repr

/-- A row of the pairing file. -/
structure PairingRow where
  manifestIndex : ℤ
  hwxProg : String
deriving DecidableEq, Repr

/-- `port_class`. -/
def portClass (program : PairedProgram) : PortClass :=
  let lanesIn := (program.srcs.filter fun source => source.kind = .lane).map Source.lane
  let lanesOut := (program.dsts.filter fun dst => dst.kind = .lane).map KindDst.lane
  let hasCtx := program.srcs.any fun source => source.kind = .ctx
  if program.groupStart then .A
  else if lanesIn = ["x", "o", "z"] ∧ lanesOut = ["h"] then if hasCtx then .F else .E
  else if lanesOut = ["o"] then .B
  else if hasCtx then .D
  else .C

/-- The explicit pairs: the last row of an index counts. -/
def knownPairs (rows : List PairingRow) : List (ℤ × String) :=
  dict (rows.map fun row => (row.manifestIndex, row.hwxProg))

/-- The refusal of a configuration that does not say which file a program gets. -/
def ambiguousPairing {α : Type*} : Py α := .error (.systemExit "ambiguous HWX pairing; extend the pairing file")

/-- Assign the explicit pairs, each taking its file. -/
def assignKnown : List (ℤ × String) → List (ℤ × String) → List (String × HwxSignature) →
    Py (List (ℤ × String) × List (String × HwxSignature))
  | [], assignment, files => return (assignment, files)
  | (i, name) :: rest, assignment, files =>
    if find files name = none then
      .error (.systemExit ("pairing names " ++ name ++ " but no such HWX exists"))
    else
      assignKnown rest (assign assignment i name) (del files name)

/-- The classes of the programs without an explicit pair. -/
def remaining (programs : List PairedProgram) (assignment : List (ℤ × String)) : List (PortClass × ℕ) :=
  (programs.zipIdx.filter fun entry => find assignment (entry.2 : ℤ) = none).map fun entry =>
    (portClass entry.1, entry.2)

/-- The programs of every class, in the order of the class names. -/
def byClass (programs : List PairedProgram) (assignment : List (ℤ × String)) : List (PortClass × List ℕ) :=
  (group (remaining programs assignment)).insertionSort fun a b => a.1.rank ≤ b.1.rank

/-- The files of every signature. -/
def clustersOf (files : List (String × HwxSignature)) : List (HwxSignature × List String) :=
  group (files.map fun file => (file.2, file.1))

/-- What the converter has matched, and the files, clusters and classes it has left. -/
structure Matching where
  assignment : List (ℤ × String)
  files : List (String × HwxSignature)
  clusters : List (HwxSignature × List String)
  unresolved : List (PortClass × List ℕ)

/-- Assign files to programs one by one. -/
def assignAll (pairs : List (ℕ × String)) (assignment : List (ℤ × String)) : List (ℤ × String) :=
  pairs.foldl (fun assignment pair => assign assignment (pair.1 : ℤ) pair.2) assignment

/-- Take files one by one. -/
def takeFiles (names : List String) (files : List (String × HwxSignature)) : List (String × HwxSignature) :=
  names.foldl del files

/-- A class takes the one cluster of its size, or stays unresolved. -/
def matchClass (m : Matching) (entry : PortClass × List ℕ) : Matching :=
  match m.clusters.filter fun cluster => cluster.2.length = entry.2.length with
  | [cluster] =>
    { assignment := assignAll (entry.2.zip (sorted cluster.2)) m.assignment
      files := takeFiles ((entry.2.zip (sorted cluster.2)).map Prod.snd) m.files
      clusters := del m.clusters cluster.1
      unresolved := m.unresolved }
  | _ => { m with unresolved := m.unresolved ++ [entry] }

/-- The phase that matches classes with clusters. -/
def matchClusters (hwxDir : String) (programs : List PairedProgram) (rows : List PairingRow)
    (files : List (String × HwxSignature)) : Py Matching := do
  if files = [] then
    .error (.systemExit ("no model.hwx under " ++ hwxDir))
  else
    let (assignment, files) ← assignKnown (knownPairs rows) [] files
    return (byClass programs assignment).foldl matchClass ⟨assignment, files, clustersOf files, []⟩

/-- The input bytes predicted for a program. -/
def stagedInputBytes (program : PairedProgram) : Py ℕ := do
  let windows ← program.srcs.mapM fun source => modStagedWindow source.shape
  return windows.sum

/-- The predicted bytes of a class of one program, before its program. -/
def predictedInput (programs : List PairedProgram) (entry : PortClass × List ℕ) : Py (ℕ ×ₗ ℕ) := do
  let i ← index entry.2 0
  let program ← index programs i
  let bytes ← stagedInputBytes program
  return toLex (bytes, i)

/-- The input size of the first file of a cluster, before its name. -/
def freeInput (files : List (String × HwxSignature)) (cluster : HwxSignature × List String) : Py (ℕ ×ₗ String) := do
  let name ← index cluster.2 0
  let signature ← lookup files name name
  return toLex (signature.inputSize, name)

/-- The file is alone in its cluster. -/
def aloneInCluster (m : Matching) (name : String) : Bool :=
  ((find m.files name).bind (find m.clusters)).map List.length = some 1

/-- The phase that matches the orders by input bytes. -/
def matchByInput (programs : List PairedProgram) (m : Matching) : Py (List (ℤ × String)) :=
  if ∀ entry ∈ m.unresolved, entry.2.length = 1 then do
    let classes ← m.unresolved.mapM (predictedInput programs)
    let free ← m.clusters.mapM (freeInput m.files)
    if classes.length = free.length ∧ ∀ file ∈ sorted free, aloneInCluster m (ofLex file).2 then
      return assignAll (((sorted classes).map fun entry => (ofLex entry).2).zip
        ((sorted free).map fun file => (ofLex file).2)) m.assignment
    else
      ambiguousPairing
  else
    ambiguousPairing

/-- The pairing phase of `main`: the file of every program. -/
def pairPrograms (hwxDir : String) (programs : List PairedProgram) (rows : List PairingRow)
    (files : List (String × HwxSignature)) : Py (List (ℤ × String)) := do
  let m ← matchClusters hwxDir programs rows files
  if m.unresolved = [] then
    return m.assignment
  else
    matchByInput programs m

end AneLinux.Staged
