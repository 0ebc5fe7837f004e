import AneLinux.Btrfs.Walk
import AneLinux.Support.SparseFile

/-!
# Reading a file

`read_file` puts the data of an inode's extents into a table under their places, the first one cut at the start of the
part that is read, and joins them in order. What is between two extents is not filled, so that the bytes behind a hole
move forward to it. The result is the file up to the first hole; with a hole it is the file only where zeros follow.
-/

namespace AneLinux.Btrfs

open AneLinux.Support

/-- The extents that `extents` tells apart: a regular one with the place and size of its data on disk, the offset into
them and the number of bytes in the file, or one with its data inline. -/
inductive Extent
  | reg (diskBytenr diskNum foff num compression : ℕ)
  | inline (data : Bytes) (compression : ℕ)
deriving DecidableEq

/-- The extent of an item, found by the size of its body. -/
def extentOf (d : Bytes) : Option Extent :=
  if d.size = 53 then some (.reg (d.u64 21) (d.u64 29) (d.u64 37) (d.u64 45) (d.get 16).toNat)
  else if 21 < d.size ∧ d.size < 53 ∧ (d.get 16).toNat < 4 then some (.inline (d.slice 21 d.size) (d.get 16).toNat)
  else none

/-- `comp`. -/
def Extent.compression : Extent → ℕ
  | .reg _ _ _ _ compression => compression
  | .inline _ compression => compression

/-- `end`: where the extent ends in the file. -/
def stop (extent : ℕ × Extent) : ℕ :=
  match extent.2 with
  | .reg _ _ _ num _ => extent.1 + num
  | .inline data _ => extent.1 + data.size

/-- The items of an inode in a run of items: others are passed over, and the first one of a later object ends it. -/
def itemsOf (ino : ℕ) : List (Key × Bytes) → List (Key × Bytes)
  | [] => []
  | item :: rest =>
    if item.1.obj ≠ ino then if ino < item.1.obj then [] else itemsOf ino rest
    else item :: itemsOf ino rest

/-- The extents among items, with their offsets in the file. -/
def extentsIn (items : List (Key × Bytes)) : List (ℕ × Extent) :=
  items.filterMap fun item => (extentOf item.2).map fun extent => (item.1.off, extent)

/-- The extents of an inode among the items of a tree. -/
def inodeExtents (contents : List (Key × Bytes)) (ino : ℕ) : List (ℕ × Extent) :=
  extentsIn (contents.filter fun item => item.1.obj = ino)

namespace Reader

/-- `Btrfs.read_logical`. -/
def readLogical (fs : Reader) (logical length : ℕ) : Py Bytes := do
  let offset ← fs.mapLogical logical
  return fs.devread offset length

/-- The walk over the keys of an inode. -/
def walkInode (fs : Reader) (limit treeLogical ino : ℕ) : Py (List (Key × Bytes)) := do
  let items ← fs.walkTree limit treeLogical (some (toLex (ino, toLex (0, 0))))
    (some (toLex (ino, toLex (0xffff, 0xffffffffffffffff))))
  return itemsOf ino items

/-- `Btrfs.inode`: size, time of the last change and mode. -/
def inode (fs : Reader) (limit treeLogical ino : ℕ) : Py (ℕ × ℕ × ℕ) := do
  let items ← fs.walkInode limit treeLogical ino
  match items.find? fun item => item.2.size = 160 with
  | some item => return (item.2.u64 0, item.2.u64 120, item.2.u32 36)
  | none => .error (.keyError ("inode " ++ toString ino))

/-- `Btrfs.extents`. -/
def extents (fs : Reader) (limit treeLogical ino : ℕ) : Py (List (ℕ × Extent)) := do
  let items ← fs.walkInode limit treeLogical ino
  return extentsIn items

/-- `size or self.inode(tree_logical, ino)[0]`. -/
def fileSize (fs : Reader) (limit treeLogical ino : ℕ) (size : Option ℕ) : Py ℕ :=
  match size with
  | some (size + 1) => .ok (size + 1)
  | _ => do
    let (size, _, _) ← fs.inode limit treeLogical ino
    return size

/-- `data`: what an extent has on disk, or inline. -/
def extentData (fs : Reader) : Extent → Py Bytes
  | .inline data _ => .ok data
  | .reg diskBytenr diskNum foff num _ => do
    let data ← fs.readLogical diskBytenr diskNum
    return data.slice foff (foff + num)

/-- The body of the loop of `read_file`. -/
def addExtent (fs : Reader) (start : ℕ) (buf : List Piece) (extent : ℕ × Extent) : Py (List Piece) := do
  let data ← fs.extentData extent.2
  if stop extent ≤ start ∨ extent.2.compression ≠ 0 then
    if extent.2.compression ≠ 0 then
      .error (.runtimeError ("compressed extent at " ++ toString extent.1 ++ " (comp=" ++
        toString extent.2.compression ++ ")"))
    else return buf
  else return assign buf (max extent.1 start) (data.slice (start - extent.1) data.size)

/-- Where the part that is read starts. -/
def tailStart (size : ℕ) : Option ℕ → ℕ
  | none => 0
  | some tail => size - tail

/-- `Btrfs.read_file`. -/
def readFile (fs : Reader) (limit treeLogical ino : ℕ) (size tail : Option ℕ) : Py Bytes := do
  let size ← fs.fileSize limit treeLogical ino size
  let start := tailStart size tail
  let extents ← fs.extents limit treeLogical ino
  let buf ← extents.foldlM (fs.addExtent start) []
  let out := Bytes.join ((sorted (buf.map Prod.fst)).map fun o => (find buf o).getD Bytes.empty)
  return out.slice 0 (size - start)

/-- The piece of an extent; one that cannot be read has no bytes. -/
def pieceOf (fs : Reader) (extent : ℕ × Extent) : Piece :=
  (extent.1, ((fs.extentData extent.2).toOption).getD Bytes.empty)

/-- The pieces of the file. -/
def pieces (fs : Reader) (extents : List (ℕ × Extent)) : List Piece := extents.map fs.pieceOf

/-- Extents that start at different places and do not reach into each other. -/
def NonOverlapping (extents : List (ℕ × Extent)) : Prop :=
  extents.Pairwise fun a b => a.1 ≠ b.1 ∧ (stop a ≤ b.1 ∨ stop b ≤ a.1)

instance (extents : List (ℕ × Extent)) : Decidable (NonOverlapping extents) :=
  inferInstanceAs (Decidable (extents.Pairwise _))

/-- The data of the pieces behind a place, in order. -/
def dataBehind (pieces : List Piece) (hole : ℕ) : Bytes := joinPieces (sortedPieces (piecesBehind pieces hole))

/-- An extent can be read: its data is inline, or its address on disk is in a chunk of this device. An item that stands
for a hole has the address 0. -/
def Readable (fs : Reader) : Extent → Prop
  | .inline _ _ => True
  | .reg diskBytenr _ _ _ _ => ∃ offset, fs.mapLogical diskBytenr = .ok offset

/-- Every extent can be read, and the part has no hole or is followed by zeros behind its first one. -/
structure ReadsRight (fs : Reader) (extents : List (ℕ × Extent)) (start size : ℕ) : Prop where
  readable : ∀ extent ∈ extents, fs.Readable extent.2
  zeros : ∀ hole, FirstHole (fs.pieces extents) start size hole →
    StartsZero (dataBehind (fs.pieces extents) hole) (size - hole)

end Reader

variable {fs : Reader} {limit treeLogical ino : ℕ} {exts : List (ℕ × Extent)}

section Items

variable {levels logical : ℕ} {contents items : List (Key × Bytes)}

/-- A key's fields are bounded. -/
theorem unpackKey_bounds {b : Bytes} {o : ℕ} {k : Key} (h : unpackKey b o = .ok k) : k.typ < 256 ∧ k.off < 2 ^ 64 := by
  unfold unpackKey at h
  split at h
  · obtain rfl := Except.ok.inj h
    exact ⟨UInt8.toNat_lt _, Bytes.leNat_lt b (o + 9) 8⟩
  · cases h

/-- Keys of a tree are as wide as their fields on disk. -/
theorem Reader.WellFormed.key_bounds (h : fs.WellFormed levels logical contents) :
    ∀ item ∈ contents, item.1.typ < 256 ∧ item.1.off < 2 ^ 64 := by
  induction h with
  | @leaf levels logical b items hread hsorted =>
    intro item hitem
    obtain ⟨entry, hentry, rfl⟩ := List.mem_map.mp hitem
    obtain ⟨offset, -, hparse⟩ := bind_eq_ok.mp hread
    unfold parseBlock at hparse
    split at hparse
    · cases hparse
    · split at hparse
      · obtain ⟨entries, hentries, hleaf⟩ := bind_eq_ok.mp hparse
        obtain ⟨-, rfl⟩ := Block.leaf.inj (Except.ok.inj hleaf)
        obtain ⟨i, -, hi⟩ := exists_related (mapM_eq_ok.mp hentries).flip hentry
        obtain ⟨k, hk, hi⟩ := bind_eq_ok.mp hi
        obtain ⟨off, -, hi⟩ := bind_eq_ok.mp hi
        obtain ⟨size, -, hi⟩ := bind_eq_ok.mp hi
        obtain rfl := Except.ok.inj hi
        exact unpackKey_bounds hk
      · obtain ⟨entries, -, hnode⟩ := bind_eq_ok.mp hparse
        cases hnode
  | node contents hread hchildren hkeys ih =>
    intro item hitem
    obtain ⟨ptr, hptr, hmem⟩ := List.mem_flatMap.mp hitem
    exact ih ptr hptr item hmem

/-- The keys between the bounds of an inode are its own. -/
theorem between_inode_iff {k : Key} (htyp : k.typ < 256) (hoff : k.off < 2 ^ 64) :
    Between (some (toLex (ino, toLex (0, 0)))) (some (toLex (ino, toLex (0xffff, 0xffffffffffffffff)))) (kt k) ↔
      k.obj = ino := by
  rw [Between, below_some, above_some, kt, Prod.Lex.toLex_lt_toLex, Prod.Lex.toLex_lt_toLex, Prod.Lex.toLex_lt_toLex,
    Prod.Lex.toLex_lt_toLex]
  simp only
  omega

theorem itemsOf_own (h : ∀ item ∈ items, item.1.obj = ino) : itemsOf ino items = items := by
  induction items with
  | nil => rfl
  | cons item rest ih =>
    rw [List.forall_mem_cons] at h
    rw [itemsOf, if_neg (not_not.mpr h.1), ih h.2]

/-- On a well-formed tree the walk finds exactly the items of the inode. -/
theorem Reader.WellFormed.walkInode_eq (h : fs.WellFormed limit treeLogical contents) (ino : ℕ) :
    fs.walkInode limit treeLogical ino = .ok (contents.filter fun item => item.1.obj = ino) := by
  have hfilter : contents.filter (fun item => Between (some (toLex (ino, toLex (0, 0))))
      (some (toLex (ino, toLex (0xffff, 0xffffffffffffffff)))) (itemKey item)) =
      contents.filter fun item => item.1.obj = ino := by
    refine List.filter_congr fun item hitem => decide_eq_decide.mpr ?_
    exact between_inode_iff (h.key_bounds item hitem).1 (h.key_bounds item hitem).2
  rw [walkInode, walkTree, walk_eq_filter _ _ h, ok_bind, hfilter, itemsOf_own]
  · rfl
  · exact fun item hitem => of_decide_eq_true (List.mem_filter.mp hitem).2

end Items

namespace Reader

section Table

variable {extent : ℕ × Extent} {start p hole : ℕ}

/-- An extent is readable where its data is returned. -/
theorem readable_iff {extent : Extent} : fs.Readable extent ↔ ∃ data, fs.extentData extent = .ok data := by
  cases extent with
  | inline data compression => exact iff_of_true trivial ⟨data, rfl⟩
  | reg diskBytenr diskNum foff num compression =>
    constructor
    · rintro ⟨offset, hoffset⟩
      refine ⟨(fs.devread offset diskNum).slice foff (foff + num), ?_⟩
      rw [extentData, readLogical, hoffset]
      rfl
    · rintro ⟨data, hdata⟩
      obtain ⟨bytes, hbytes, -⟩ := bind_eq_ok.mp hdata
      obtain ⟨offset, hoffset, -⟩ := bind_eq_ok.mp hbytes
      exact ⟨offset, hoffset⟩

/-- The bytes of an extent end where it does, or before. -/
theorem pieceOf_le_stop (fs : Reader) (extent : ℕ × Extent) :
    (fs.pieceOf extent).1 + (fs.pieceOf extent).2.size ≤ stop extent := by
  obtain ⟨place, ex⟩ := extent
  have hdata : ((fs.extentData ex).toOption.getD Bytes.empty).size ≤ stop (place, ex) - place := by
    cases ex with
    | inline data compression => exact (Nat.add_sub_cancel_left place data.size).ge
    | reg diskBytenr diskNum foff num compression =>
      rw [extentData]
      cases fs.readLogical diskBytenr diskNum with
      | error e => exact Nat.zero_le _
      | ok data =>
        change min (foff + num) data.size - foff ≤ place + num - place
        omega
  have hplace : place ≤ stop (place, ex) := by
    cases ex with
    | inline data compression => exact Nat.le_add_right _ _
    | reg diskBytenr diskNum foff num compression => exact Nat.le_add_right _ _
  change place + ((fs.extentData ex).toOption.getD Bytes.empty).size ≤ _
  omega

theorem pieceOf_fst (fs : Reader) (extent : ℕ × Extent) : (fs.pieceOf extent).1 = extent.1 := rfl

/-- What is put into the table: the pieces that reach into the part, cut at its start. -/
def kept (fs : Reader) (start : ℕ) (extents : List (ℕ × Extent)) : List Piece :=
  (extents.filter fun extent => start < stop extent).map fun extent => clip start (fs.pieceOf extent)

/-- The pieces kept are those past the start, clipped. -/
theorem mem_kept {piece : Piece} :
    piece ∈ fs.kept start exts ↔ ∃ extent ∈ exts, start < stop extent ∧ clip start (fs.pieceOf extent) = piece := by
  simp only [kept, List.mem_map, List.mem_filter, decide_eq_true_iff, and_assoc]

/-- Extents that can be read and are not compressed are put into the table one after the other. -/
theorem foldlM_addExtent (hreadable : ∀ extent ∈ exts, fs.Readable extent.2)
    (hcompression : ∀ extent ∈ exts, extent.2.compression = 0) (buf : List Piece) :
    exts.foldlM (fs.addExtent start) buf =
      .ok ((fs.kept start exts).foldl (fun table piece => assign table piece.1 piece.2) buf) := by
  induction exts generalizing buf with
  | nil => rfl
  | cons extent rest ih =>
    rw [List.forall_mem_cons] at hreadable hcompression
    obtain ⟨data, hdata⟩ := readable_iff.mp hreadable.1
    have hpiece : fs.pieceOf extent = (extent.1, data) := by
      rw [pieceOf, hdata]
      rfl
    rw [List.foldlM_cons, addExtent, hdata, ok_bind]
    by_cases hstop : start < stop extent
    · have hkept : fs.kept start (extent :: rest) = clip start (extent.1, data) :: fs.kept start rest := by
        rw [kept, List.filter_cons, if_pos (decide_eq_true hstop), List.map_cons, hpiece]
        rfl
      have hgoes : ¬(stop extent ≤ start ∨ extent.2.compression ≠ 0) := by
        rw [hcompression.1]
        omega
      rw [if_neg hgoes, hkept]
      exact ih hreadable.2 hcompression.2 _
    · have hkept : fs.kept start (extent :: rest) = fs.kept start rest := by
        rw [kept, List.filter_cons, if_neg (by rwa [decide_eq_true_iff])]
        rfl
      rw [if_pos (.inl (Nat.le_of_not_lt hstop)), if_neg (not_not.mpr hcompression.1), hkept]
      exact ih hreadable.2 hcompression.2 _

/-- Every extent that the loop passes is read. -/
theorem readable_of_foldlM {buf result : List Piece} (h : exts.foldlM (fs.addExtent start) buf = .ok result) :
    ∀ extent ∈ exts, fs.Readable extent.2 := by
  induction exts generalizing buf with
  | nil => exact fun extent hextent => absurd hextent List.not_mem_nil
  | cons extent rest ih =>
    rw [List.foldlM_cons] at h
    obtain ⟨next, hnext, hrest⟩ := bind_eq_ok.mp h
    obtain ⟨data, hdata, -⟩ := bind_eq_ok.mp hnext
    exact List.forall_mem_cons.mpr ⟨readable_iff.mpr ⟨data, hdata⟩, ih hrest⟩

/-- Two extents of a file lie apart. -/
theorem NonOverlapping.of_ne (h : NonOverlapping exts) {other : ℕ × Extent} (hextent : extent ∈ exts)
    (hother : other ∈ exts) (hne : extent ≠ other) :
    extent.1 ≠ other.1 ∧ (stop extent ≤ other.1 ∨ stop other ≤ extent.1) := by
  have hsymm : Std.Symm fun a b : ℕ × Extent => a.1 ≠ b.1 ∧ (stop a ≤ b.1 ∨ stop b ≤ a.1) :=
    ⟨fun a b hab => ⟨hab.1.symm, hab.2.symm⟩⟩
  exact List.Pairwise.forall h hextent hother hne

/-- No two pieces start together. -/
theorem NonOverlapping.nodup_kept (h : NonOverlapping exts) (fs : Reader) (start : ℕ) :
    ((fs.kept start exts).map Prod.fst).Nodup := by
  rw [kept, List.map_map, List.Nodup, List.pairwise_map]
  refine (h.filter _).imp_of_mem fun {a b} ha hb hab => ?_
  have hastop := of_decide_eq_true (List.mem_filter.mp ha).2
  have hbstop := of_decide_eq_true (List.mem_filter.mp hb).2
  change max a.1 start ≠ max b.1 start
  omega

/-- The table in order is placed from the start of the part on. -/
theorem NonOverlapping.placed (h : NonOverlapping exts) (fs : Reader) (start : ℕ) :
    Placed start (sortedPieces (fs.kept start exts)) := by
  refine placed_sortedPieces (h.nodup_kept fs start) (fun piece hpiece => ?_) fun a ha b hb hlt => ?_
  · obtain ⟨extent, -, -, rfl⟩ := mem_kept.mp hpiece
    exact le_max_right _ _
  · obtain ⟨first, hfirst, hstop, rfl⟩ := mem_kept.mp ha
    obtain ⟨second, hsecond, -, rfl⟩ := mem_kept.mp hb
    have hplaces : max first.1 start < max second.1 start := hlt
    have hne : first ≠ second := by
      rintro rfl
      exact lt_irrefl _ hlt
    have hapart := h.of_ne hfirst hsecond hne
    have hsize := size_clip start (fs.pieceOf first)
    have hend := fs.pieceOf_le_stop first
    have hend' := fs.pieceOf_le_stop second
    rw [pieceOf_fst] at hsize hend hend'
    change max first.1 start + (clip start (fs.pieceOf first)).2.size ≤ max second.1 start
    omega

/-- From the start of the part on, the table and the file have the same bytes. -/
theorem hasByte_kept (fs : Reader) (hp : start ≤ p) (b : UInt8) :
    (∃ piece ∈ fs.kept start exts, HasByte piece p ∧ piece.2.get (p - piece.1) = b) ↔
      ∃ piece ∈ fs.pieces exts, HasByte piece p ∧ piece.2.get (p - piece.1) = b := by
  constructor
  · rintro ⟨piece, hpiece, hcovers, hget⟩
    obtain ⟨extent, hextent, -, rfl⟩ := mem_kept.mp hpiece
    have hcovers' := (hasByte_clip hp).mp hcovers
    exact ⟨_, List.mem_map_of_mem hextent, hcovers', (get_clip hp hcovers').symm.trans hget⟩
  · rintro ⟨piece, hpiece, hcovers, hget⟩
    obtain ⟨extent, hextent, rfl⟩ := List.mem_map.mp hpiece
    have hstop : start < stop extent := hp.trans_lt (hcovers.2.trans_le (fs.pieceOf_le_stop extent))
    exact ⟨_, mem_kept.mpr ⟨extent, hextent, hstop, rfl⟩, (hasByte_clip hp).mpr hcovers,
      (get_clip hp hcovers).trans hget⟩

/-- No byte has two pieces. -/
theorem NonOverlapping.hasByte_apart (h : NonOverlapping exts) (fs : Reader) :
    (fs.pieces exts).Pairwise fun a b => ∀ p, HasByte a p → ¬HasByte b p := by
  refine List.pairwise_map.mpr (h.imp fun {a b} hab p hp hp' => ?_)
  have hend := fs.pieceOf_le_stop a
  have hend' := fs.pieceOf_le_stop b
  have hplace := hp.1
  have hplace' := hp'.1
  have hlt := hp.2
  have hlt' := hp'.2
  rw [pieceOf_fst] at hend hend' hplace hplace' hlt hlt'
  omega

/-- The sorted table has the bytes and the holes of the file. -/
theorem NonOverlapping.sortedPieces_kept (h : NonOverlapping exts) (fs : Reader) (hp : start ≤ p) :
    (Hole (sortedPieces (fs.kept start exts)) p ↔ Hole (fs.pieces exts) p) ∧
      byteAt (sortedPieces (fs.kept start exts)) p = byteAt (fs.pieces exts) p := by
  have hmem : ∀ piece, piece ∈ sortedPieces (fs.kept start exts) ↔ piece ∈ fs.kept start exts :=
    fun piece => mem_sortedPieces (h.nodup_kept fs start)
  have hapart : (sortedPieces (fs.kept start exts)).Pairwise fun a b => ∀ p, HasByte a p → ¬HasByte b p :=
    (h.placed fs start).apart.imp fun hle q hq hq' => absurd (hq.2.trans_le (hle.trans hq'.1)) (lt_irrefl q)
  by_cases hhole : Hole (fs.pieces exts) p
  · have hsorted : Hole (sortedPieces (fs.kept start exts)) p := by
      intro piece hpiece hcovers
      obtain ⟨other, hother, hcovers', -⟩ :=
        (hasByte_kept fs hp _).mp ⟨piece, (hmem piece).mp hpiece, hcovers, rfl⟩
      exact hhole other hother hcovers'
    exact ⟨iff_of_true hsorted hhole, (byteAt_of_hole hsorted).trans (byteAt_of_hole hhole).symm⟩
  · obtain ⟨piece, hpiece, hcovers⟩ : ∃ piece ∈ fs.pieces exts, HasByte piece p := by
      by_contra hnone
      exact hhole fun piece hpiece hcovers => hnone ⟨piece, hpiece, hcovers⟩
    obtain ⟨other, hother, hcovers', hget⟩ := (hasByte_kept fs hp _).mpr ⟨piece, hpiece, hcovers, rfl⟩
    have hother' := (hmem other).mpr hother
    refine ⟨iff_of_false (fun hsorted => hsorted other hother' hcovers') hhole, ?_⟩
    rw [byteAt_of_hasByte hapart hother' hcovers', hget, byteAt_of_hasByte (h.hasByte_apart fs) hpiece hcovers]

/-- Behind a hole of the part the table holds the pieces of the file. -/
theorem NonOverlapping.piecesBehind_kept (h : NonOverlapping exts) (fs : Reader) (hstart : start ≤ hole) :
    piecesBehind (sortedPieces (fs.kept start exts)) hole = sortedPieces (piecesBehind (fs.pieces exts) hole) := by
  have hkeys := h.nodup_kept fs start
  refine eq_sortedPieces ?_ ((pairwise_sortedPieces hkeys).filter _) fun piece => ?_
  · rw [List.Nodup, List.pairwise_map]
    exact (List.pairwise_map.mpr (h.imp fun hab => hab.1)).filter _
  · rw [piecesBehind, piecesBehind, List.mem_filter, List.mem_filter, mem_sortedPieces hkeys, mem_kept,
      decide_eq_true_iff]
    constructor
    · rintro ⟨⟨extent, hextent, -, rfl⟩, hlt⟩
      have hplace : hole < max extent.1 start := hlt
      have hclip : clip start (fs.pieceOf extent) = fs.pieceOf extent := by
        apply clip_of_le
        change start ≤ extent.1
        omega
      rw [hclip] at hlt ⊢
      exact ⟨List.mem_map_of_mem hextent, hlt⟩
    · rintro ⟨hpiece, hlt⟩
      obtain ⟨extent, hextent, rfl⟩ := List.mem_map.mp hpiece
      have hend := fs.pieceOf_le_stop extent
      exact ⟨⟨extent, hextent, by omega, clip_of_le (by omega)⟩, hlt⟩

end Table

section Files

variable {n : ℕ} {size : Option ℕ}

/-- The part of a file that is read comes out right exactly when `ReadsRight` holds of it. -/
theorem readFile_eq_iff (hsize : fs.fileSize limit treeLogical ino size = .ok n)
    (hextents : fs.extents limit treeLogical ino = .ok exts) (hcompression : ∀ extent ∈ exts, extent.2.compression = 0)
    (hapart : NonOverlapping exts) (tail : Option ℕ) :
    fs.readFile limit treeLogical ino size tail = .ok (fileBytes (fs.pieces exts) (tailStart n tail) n) ↔
      fs.ReadsRight exts (tailStart n tail) n := by
  generalize hstart : tailStart n tail = start
  by_cases hreadable : ∀ extent ∈ exts, fs.Readable extent.2
  · have hkeys := hapart.nodup_kept fs start
    have hread : fs.readFile limit treeLogical ino size tail =
        .ok ((joinPieces (sortedPieces (fs.kept start exts))).slice 0 (n - start)) := by
      rw [readFile, hsize, ok_bind]
      simp only [hstart]
      rw [hextents, ok_bind, foldlM_addExtent hreadable hcompression, ok_bind, foldl_assign_eq_append,
        List.nil_append, joinPieces, sortedPieces, List.map_map]
      · rfl
      · rwa [List.map_nil, List.nil_append]
    have hbytes : fileBytes (fs.pieces exts) start n = fileBytes (sortedPieces (fs.kept start exts)) start n := by
      apply Bytes.ext_get
      · rfl
      · intro i hi
        rw [fileBytes, Bytes.size_ofFn] at hi
        rw [fileBytes, fileBytes, Bytes.get_ofFn, Bytes.get_ofFn, if_pos hi, if_pos hi,
          (hapart.sortedPieces_kept fs (Nat.le_add_right start i)).2]
    have hfirst : ∀ hole, FirstHole (sortedPieces (fs.kept start exts)) start n hole ↔
        FirstHole (fs.pieces exts) start n hole := by
      intro hole
      constructor
      · intro h
        exact ⟨h.start_le, h.lt_stop, (hapart.sortedPieces_kept fs h.start_le).1.mp h.isHole,
          fun p hp hlt => (hapart.sortedPieces_kept fs hp).1.not.mp (h.covered p hp hlt)⟩
      · intro h
        exact ⟨h.start_le, h.lt_stop, (hapart.sortedPieces_kept fs h.start_le).1.mpr h.isHole,
          fun p hp hlt => (hapart.sortedPieces_kept fs hp).1.not.mpr (h.covered p hp hlt)⟩
    rw [hread, Except.ok.injEq, hbytes, (hapart.placed fs start).slice_joinPieces_iff]
    constructor
    · intro h
      refine ⟨hreadable, fun hole hhole => ?_⟩
      rw [dataBehind, ← hapart.piecesBehind_kept fs hhole.start_le]
      exact h hole ((hfirst hole).mpr hhole)
    · intro h hole hhole
      rw [hapart.piecesBehind_kept fs hhole.start_le]
      exact h.zeros hole ((hfirst hole).mp hhole)
  · refine iff_of_false (fun hread => hreadable ?_) fun h => hreadable h.readable
    rw [readFile, hsize, ok_bind] at hread
    simp only [hextents, ok_bind] at hread
    obtain ⟨buf, hbuf, -⟩ := bind_eq_ok.mp hread
    exact readable_of_foldlM hbuf

/-- The last bytes of a byte string. -/
def lastBytes (bytes : Bytes) (count : ℕ) : Bytes := bytes.slice (bytes.size - count) bytes.size

/-- The end of a file is a part of it. -/
theorem lastBytes_fileBytes (pieces : List Piece) (tail n : ℕ) :
    lastBytes (fileBytes pieces 0 n) (min tail n) = fileBytes pieces (n - tail) n := by
  have hsize : (fileBytes pieces 0 n).size = n := Nat.sub_zero n
  apply Bytes.ext_get
  · rw [lastBytes, Bytes.size_slice, hsize, fileBytes, Bytes.size_ofFn]
    omega
  · intro i hi
    rw [lastBytes, Bytes.size_slice, hsize] at hi
    have hplace : n - min tail n + i = n - tail + i := by omega
    rw [lastBytes, hsize, Bytes.get_slice_of_lt _ (by omega), fileBytes, fileBytes, Bytes.get_ofFn, Bytes.get_ofFn,
      if_pos (by omega), if_pos (by omega), Nat.zero_add, hplace]

/-- A file of a well-formed tree with extents that are apart and not compressed is read exactly when all of them can be
read and the part that is read has no hole, or goes on with zeros behind its first one. -/
theorem readFile_returns_file_iff {contents : List (Key × Bytes)} (hwf : fs.WellFormed limit treeLogical contents)
    (hsize : fs.fileSize limit treeLogical ino size = .ok n)
    (hcompression : ∀ extent ∈ inodeExtents contents ino, extent.2.compression = 0)
    (hapart : NonOverlapping (inodeExtents contents ino)) :
    (fs.readFile limit treeLogical ino size none =
        .ok (fileBytes (fs.pieces (inodeExtents contents ino)) 0 n) ↔
      fs.ReadsRight (inodeExtents contents ino) 0 n) ∧
    ∀ tail, fs.readFile limit treeLogical ino size (some tail) =
        .ok (lastBytes (fileBytes (fs.pieces (inodeExtents contents ino)) 0 n) (min tail n)) ↔
      fs.ReadsRight (inodeExtents contents ino) (n - tail) n := by
  have hextents : fs.extents limit treeLogical ino = .ok (inodeExtents contents ino) := by
    rw [extents, hwf.walkInode_eq ino]
    rfl
  refine ⟨readFile_eq_iff hsize hextents hcompression hapart none, fun tail => ?_⟩
  rw [lastBytes_fileBytes]
  exact readFile_eq_iff hsize hextents hcompression hapart (some tail)

end Files

/-- A leaf with an inode of a size and two extents of 4096 bytes, the second one at a place. -/
def twoExtents (second size : ℕ) : Reader where
  devread offset length :=
    if offset = 0x1000 then
      Bytes.ofFields 0x400 [(96, 3), (101, 257), (109, 1), (118, 200), (122, 160), (126, 257), (134, 8), (143, 400),
        (147, 53), (151, 257), (159, 8), (160, second), (168, 500), (172, 53), (301, size), (522, 0x4000),
        (530, 0x1000), (546, 0x1000), (622, 0x5000), (630, 0x1000), (646, 0x1000)]
    else Bytes.ofFn length fun _ => 0x41
  nodesize := 0x400
  chunks := [⟨0x1000, 0x10000, [(1, 0x1000)]⟩]

/-- The items of the leaf. -/
def twoExtentItems (second size : ℕ) : List (Key × Bytes) :=
  [(⟨257, 1, 0⟩, 200, 160), (⟨257, 8, 0⟩, 400, 53), (⟨257, 8, second⟩, 500, 53)].map fun item =>
    (item.1, leafData ((twoExtents second size).devread 0x1000 0x400) item.2.1 item.2.2)

theorem twoExtents_wellFormed :
    (twoExtents 4096 8192).WellFormed 1 0x1000 (twoExtentItems 4096 8192) ∧
      (twoExtents 8192 12288).WellFormed 1 0x1000 (twoExtentItems 8192 12288) :=
  ⟨.leaf (by decide +kernel) (by decide), .leaf (by decide +kernel) (by decide)⟩

theorem twoExtents_extents :
    inodeExtents (twoExtentItems 4096 8192) 257 =
        [(0, .reg 0x4000 0x1000 0 0x1000 0), (4096, .reg 0x5000 0x1000 0 0x1000 0)] ∧
      inodeExtents (twoExtentItems 8192 12288) 257 =
        [(0, .reg 0x4000 0x1000 0 0x1000 0), (8192, .reg 0x5000 0x1000 0 0x1000 0)] := by
  decide +kernel

theorem readFile_returns_file_iff_twoExtents :
    (twoExtents 4096 8192).readFile 1 0x1000 257 none (some 5000) =
      .ok (lastBytes (fileBytes ((twoExtents 4096 8192).pieces (inodeExtents (twoExtentItems 4096 8192) 257)) 0 8192)
        (min 5000 8192)) := by
  have hsize : (twoExtents 4096 8192).fileSize 1 0x1000 257 none = .ok 8192 := by decide +kernel
  have hiff := readFile_returns_file_iff twoExtents_wellFormed.1 hsize (by rw [twoExtents_extents.1]; decide)
    (by rw [twoExtents_extents.1]; decide)
  refine (hiff.2 5000).mpr ⟨?_, fun hole hfirst => ?_⟩
  · rw [twoExtents_extents.1]
    intro extent hextent
    rcases List.mem_pair.mp hextent with rfl | rfl
    · exact ⟨0x4000, by decide +kernel⟩
    · exact ⟨0x5000, by decide +kernel⟩
  · -- The two extents cover the file, so that there is no hole.
    have hhole := hfirst.isHole
    rw [twoExtents_extents.1] at hhole
    have hlt := hfirst.lt_stop
    have hsizes : ((twoExtents 4096 8192).pieceOf (0, .reg 0x4000 0x1000 0 0x1000 0)).2.size = 4096 ∧
        ((twoExtents 4096 8192).pieceOf (4096, .reg 0x5000 0x1000 0 0x1000 0)).2.size = 4096 := by decide +kernel
    have hfront := hhole _ (List.mem_cons_self)
    have hback := hhole _ (List.mem_cons_of_mem _ List.mem_cons_self)
    rw [HasByte, hsizes.1, pieceOf_fst] at hfront
    rw [HasByte, hsizes.2, pieceOf_fst] at hback
    omega

/-- A file of 12288 bytes with a hole in the middle: 8192 bytes are read, the second extent in the place of the hole. -/
theorem readFile_drops_hole :
    (twoExtents 8192 12288).fileSize 1 0x1000 257 none = .ok 12288 ∧
      (∀ extent ∈ inodeExtents (twoExtentItems 8192 12288) 257, extent.2.compression = 0) ∧
      NonOverlapping (inodeExtents (twoExtentItems 8192 12288) 257) ∧
      ((twoExtents 8192 12288).readFile 1 0x1000 257 none none).map Bytes.size = .ok 8192 ∧
      (twoExtents 8192 12288).readFile 1 0x1000 257 none none ≠
        .ok (fileBytes ((twoExtents 8192 12288).pieces (inodeExtents (twoExtentItems 8192 12288) 257)) 0 12288) := by
  have hread : ((twoExtents 8192 12288).readFile 1 0x1000 257 none none).map Bytes.size = .ok 8192 := by
    decide +kernel
  refine ⟨by decide +kernel, by rw [twoExtents_extents.2]; decide, by rw [twoExtents_extents.2]; decide, hread, ?_⟩
  intro hfile
  rw [hfile] at hread
  cases hread

end Reader

end AneLinux.Btrfs
