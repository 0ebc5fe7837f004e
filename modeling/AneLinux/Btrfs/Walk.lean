import AneLinux.Support.Python
import AneLinux.Support.RangeWalk
import Mathlib.Data.Prod.Lex

/-!
# The ranged tree walk of the raw btrfs reader

Tree blocks are found through the chunk map and parsed into leaves and nodes. `walk_tree` collects the
items of a tree from left to right; with bounds it visits only the children whose keys can lie between
them. On a well-formed tree the ranged walk returns what the full walk returns, filtered by key.
-/

namespace AneLinux.Btrfs

open AneLinux.Support

/-- A key: object id, type and offset. -/
structure Key where
  obj : ℕ
  typ : ℕ
  off : ℕ
deriving DecidableEq, Repr

/-- Keys as tuples, compared from the left. -/
abbrev KeyTuple := ℕ ×ₗ ℕ ×ₗ ℕ

/-- The tuple of a key. -/
def kt (k : Key) : KeyTuple := toLex (k.obj, toLex (k.typ, k.off))

/-- `struct.unpack_from("<QBQ", b, o)`. -/
def unpackKey (b : Bytes) (o : ℕ) : Py Key :=
  if o + 17 ≤ b.size then .ok ⟨b.u64 o, (b.get (o + 8)).toNat, b.u64 (o + 9)⟩ else .error .structError

/-- A parsed tree block: the items of a leaf with the place and size of their data, or the pointers
of a node with the address and generation of the child. -/
inductive Block
  | leaf (b : Bytes) (items : List (Key × ℕ × ℕ))
  | node (ptrs : List (Key × ℕ × ℕ))
deriving DecidableEq

/-- The item at a position of a leaf. -/
def leafItem (b : Bytes) (i : ℕ) : Py (Key × ℕ × ℕ) := do
  let o := 101 + i * 25
  let k ← unpackKey b o
  let off ← unpackU32 b (o + 17)
  let size ← unpackU32 b (o + 21)
  return (k, off, size)

/-- The pointer at a position of a node. -/
def nodePointer (b : Bytes) (i : ℕ) : Py (Key × ℕ × ℕ) := do
  let o := 101 + i * 33
  let k ← unpackKey b o
  let bytenr ← unpackU64 b (o + 17)
  let gen ← unpackU64 b (o + 25)
  return (k, bytenr, gen)

/-- `Leaf(b) if b[100] == 0 else Node(b)`. -/
def parseBlock (b : Bytes) : Py Block :=
  if b.size ≤ 100 then .error .indexError
  else if b.get 100 = 0 then do
    let items ← (List.range (b.u32 96)).mapM (leafItem b)
    return .leaf b items
  else do
    let ptrs ← (List.range (b.u32 96)).mapM (nodePointer b)
    return .node ptrs

/-- `Leaf.data`. -/
def leafData (b : Bytes) (off size : ℕ) : Bytes := b.slice (101 + off) (101 + off + size)

/-- A chunk: its logical start, its length and its stripes, each a device and an offset. -/
structure Chunk where
  start : ℕ
  length : ℕ
  stripes : List (ℕ × ℕ)

/-- The reader: the device, the block size and the chunk map in its insertion order. -/
structure Reader where
  devread : ℕ → ℕ → Bytes
  nodesize : ℕ
  chunks : List Chunk

namespace Reader

/-- `Btrfs.map`. -/
def mapLogical (fs : Reader) (logical : ℕ) : Py ℕ :=
  match fs.chunks.find? fun chunk => chunk.start ≤ logical ∧ logical < chunk.start + chunk.length with
  | none => .error (.keyError ("no chunk for logical " ++ hex logical))
  | some chunk => do
    let (devid, doff) ← index chunk.stripes 0
    if devid ≠ 1 then .error (.runtimeError ("multi-device chunk (devid " ++ toString devid ++ ")"))
    else return doff + (logical - chunk.start)

/-- `Btrfs.read_node`. -/
def readNode (fs : Reader) (logical : ℕ) : Py Block := do
  let offset ← fs.mapLogical logical
  parseBlock (fs.devread offset fs.nodesize)

/-- The key of an item. -/
def itemKey (item : Key × Bytes) : KeyTuple := kt item.1

/-- The recursion of `walk_tree`; `limit` is how deep the interpreter lets it go. -/
def walk (fs : Reader) (minkey maxkey : Option KeyTuple) : ℕ → ℕ → Py (List (Key × Bytes))
  | 0, _ => .error .recursionError
  | limit + 1, logical => do
    match ← fs.readNode logical with
    | .node ptrs =>
      walkChildren (fs.walk minkey maxkey limit) minkey maxkey (ptrs.map fun ptr => (kt ptr.1, ptr.2.1))
    | .leaf b items =>
      return scanLeaf itemKey minkey maxkey (items.map fun item => (item.1, leafData b item.2.1 item.2.2))

/-- `Btrfs.walk_tree`. -/
def walkTree (fs : Reader) (limit rootLogical : ℕ) (minkey maxkey : Option KeyTuple) : Py (List (Key × Bytes)) :=
  fs.walk minkey maxkey limit rootLogical

/-- A tree of at most `levels` levels with the given items: the items of a leaf are sorted; the pointer
keys of a node are sorted, and every key below a child is at least its own pointer key and less than
the next one. -/
inductive WellFormed (fs : Reader) : ℕ → ℕ → List (Key × Bytes) → Prop
  | leaf {levels logical : ℕ} {b : Bytes} {items : List (Key × ℕ × ℕ)}
      (hread : fs.readNode logical = .ok (.leaf b items))
      (hsorted : (items.map fun item => (item.1, leafData b item.2.1 item.2.2)).Pairwise
        fun a b => itemKey a ≤ itemKey b) :
      WellFormed fs (levels + 1) logical (items.map fun item => (item.1, leafData b item.2.1 item.2.2))
  | node {levels logical : ℕ} {ptrs : List (Key × ℕ × ℕ)} (contents : ℕ → List (Key × Bytes))
      (hread : fs.readNode logical = .ok (.node ptrs))
      (hchildren : ∀ ptr ∈ ptrs, WellFormed fs levels ptr.2.1 (contents ptr.2.1))
      (hkeys : SeparatesChildren itemKey contents (ptrs.map fun ptr => (kt ptr.1, ptr.2.1))) :
      WellFormed fs (levels + 1) logical (ptrs.flatMap fun ptr => contents ptr.2.1)

/-- The walk of a well-formed tree filters its items. -/
theorem walk_eq_filter {fs : Reader} (minkey maxkey : Option KeyTuple) {levels logical : ℕ}
    {contents : List (Key × Bytes)} (h : fs.WellFormed levels logical contents) :
    fs.walk minkey maxkey levels logical =
      .ok (contents.filter fun item => Between minkey maxkey (itemKey item)) := by
  induction h with
  | leaf hread hsorted =>
    rw [walk, hread, ok_bind]
    exact congrArg Except.ok (scanLeaf_eq_filter minkey maxkey hsorted)
  | node contents hread hchildren hkeys ih =>
    rw [walk, hread, ok_bind]
    refine (walkChildren_eq_filter minkey maxkey hkeys ?_).trans ?_
    · intro child hchild
      obtain ⟨ptr, hptr, rfl⟩ := List.mem_map.mp hchild
      exact ih ptr hptr
    · rw [List.flatMap_map]

/-- On every well-formed tree, the ranged walk returns the items of the full walk whose key is between
the bounds, in the same order. Either bound may be absent. -/
theorem walkTree_eq_filter {fs : Reader} {limit rootLogical : ℕ} {contents : List (Key × Bytes)}
    (h : fs.WellFormed limit rootLogical contents) (minkey maxkey : Option KeyTuple) :
    ∃ items, fs.walkTree limit rootLogical none none = .ok items ∧
      fs.walkTree limit rootLogical minkey maxkey =
        .ok (items.filter fun item => Between minkey maxkey (itemKey item)) := by
  refine ⟨contents, ?_, walk_eq_filter minkey maxkey h⟩
  have hall : contents.filter (fun item => Between none none (itemKey item)) = contents := by
    rw [List.filter_eq_self]
    intro item _
    exact decide_eq_true (between_none _)
  exact (walk_eq_filter none none h).trans (congrArg Except.ok hall)

/-- A device with one node at `0x1000` over a leaf at `0x2000` and one at `0x3000`. -/
def twoLeaves : Reader where
  devread offset _ :=
    if offset = 0x1000 then
      Bytes.ofFields 0x100 [(96, 2), (100, 1), (101, 256), (118, 0x2000), (134, 258), (151, 0x3000)]
    else if offset = 0x2000 then
      Bytes.ofFields 0x100 [(96, 2), (101, 256), (122, 1), (126, 257), (147, 2)]
    else Bytes.ofFields 0x100 [(96, 1), (101, 258), (122, 3)]
  nodesize := 0x100
  chunks := [⟨0, 0x10000, [(1, 0)]⟩]

/-- Its first leaf. -/
theorem twoLeaves_first (levels : ℕ) : twoLeaves.WellFormed (levels + 1) 0x2000
    ([(⟨256, 0, 0⟩, 0, 1), (⟨257, 0, 0⟩, 0, 2)].map fun item =>
      (item.1, leafData (twoLeaves.devread 0x2000 0x100) item.2.1 item.2.2)) :=
  .leaf (by decide +kernel) (by decide)

/-- Its second leaf. -/
theorem twoLeaves_second (levels : ℕ) : twoLeaves.WellFormed (levels + 1) 0x3000
    ([(⟨258, 0, 0⟩, 0, 3)].map fun item =>
      (item.1, leafData (twoLeaves.devread 0x3000 0x100) item.2.1 item.2.2)) :=
  .leaf (by decide +kernel) (by decide)

theorem walkTree_eq_filter_twoLeaves : ∃ items, twoLeaves.walkTree 2 0x1000 none none = .ok items ∧
    twoLeaves.walkTree 2 0x1000 (some (toLex (257, toLex (0, 0)))) (some (toLex (258, toLex (0, 0)))) =
      .ok (items.filter fun item =>
        Between (some (toLex (257, toLex (0, 0)))) (some (toLex (258, toLex (0, 0)))) (itemKey item)) := by
  let contents : ℕ → List (Key × Bytes) := fun bytenr =>
    if bytenr = 0x2000 then
      [(⟨256, 0, 0⟩, 0, 1), (⟨257, 0, 0⟩, 0, 2)].map fun item =>
        (item.1, leafData (twoLeaves.devread 0x2000 0x100) item.2.1 item.2.2)
    else [(⟨258, 0, 0⟩, 0, 3)].map fun item =>
      (item.1, leafData (twoLeaves.devread 0x3000 0x100) item.2.1 item.2.2)
  have hroot : twoLeaves.readNode 0x1000 = .ok (.node [(⟨256, 0, 0⟩, 0x2000, 0), (⟨258, 0, 0⟩, 0x3000, 0)]) := by
    decide +kernel
  refine walkTree_eq_filter (.node contents hroot ?_ ⟨by decide, by decide, ?_⟩) _ _
  · intro ptr hptr
    rcases List.mem_cons.mp hptr with rfl | hptr
    · exact twoLeaves_first 0
    · rw [List.mem_singleton.mp hptr]
      exact twoLeaves_second 0
  · rw [List.map_cons, List.map_cons, List.map_nil, List.isChain_pair]
    decide

end Reader

end AneLinux.Btrfs
