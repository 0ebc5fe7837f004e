import AneLinux.Support.Dict
import Mathlib.Data.List.Pairwise

/-!
# Files with holes

A file is given by pieces, each a place and bytes; where no piece has a byte, the file has a hole and reads as zero.
Joining the pieces one behind the other drops the holes. Up to the first hole the join is the file. Behind it the join
is the file only if it goes on with zeros: each byte behind the hole stands too early, so that a byte that is not zero
would have to be equal to one in front of it that is zero.
-/

namespace AneLinux.Support

/-- A piece of a file: where it starts, and its bytes. -/
abbrev Piece := ℕ × Bytes

/-- The piece has a byte at a place. -/
def HasByte (piece : Piece) (p : ℕ) : Prop := piece.1 ≤ p ∧ p < piece.1 + piece.2.size

instance (piece : Piece) (p : ℕ) : Decidable (HasByte piece p) := inferInstanceAs (Decidable (_ ∧ _))

/-- No piece has a byte at a place. -/
def Hole (pieces : List Piece) (p : ℕ) : Prop := ∀ piece ∈ pieces, ¬HasByte piece p

instance (pieces : List Piece) (p : ℕ) : Decidable (Hole pieces p) :=
  inferInstanceAs (Decidable (∀ piece ∈ pieces, ¬HasByte piece p))

/-- The byte at a place; a hole reads as zero. -/
def byteAt (pieces : List Piece) (p : ℕ) : UInt8 :=
  match pieces.find? fun piece => HasByte piece p with
  | some piece => piece.2.get (p - piece.1)
  | none => 0

/-- The bytes from one place to another. -/
def fileBytes (pieces : List Piece) (start stop : ℕ) : Bytes :=
  Bytes.ofFn (stop - start) fun i => byteAt pieces (start + i)

/-- The bytes of the pieces one behind the other. -/
def joinPieces (pieces : List Piece) : Bytes := Bytes.join (pieces.map Prod.snd)

/-- Pieces in the order of their places, from a place on; none reaches into the next one. -/
structure Placed (start : ℕ) (pieces : List Piece) : Prop where
  starts : ∀ piece ∈ pieces, start ≤ piece.1
  apart : pieces.Pairwise fun a b => a.1 + a.2.size ≤ b.1

/-- The first hole of a part of the file. -/
structure FirstHole (pieces : List Piece) (start stop hole : ℕ) : Prop where
  start_le : start ≤ hole
  lt_stop : hole < stop
  isHole : Hole pieces hole
  covered : ∀ p, start ≤ p → p < hole → ¬Hole pieces p

variable {pieces rest : List Piece} {piece : Piece} {start stop hole p i : ℕ}

theorem hole_nil (p : ℕ) : Hole [] p := fun _ hpiece => absurd hpiece List.not_mem_nil

theorem hole_cons : Hole (piece :: pieces) p ↔ ¬HasByte piece p ∧ Hole pieces p := List.forall_mem_cons

theorem joinPieces_cons (piece : Piece) (rest : List Piece) :
    joinPieces (piece :: rest) = piece.2 ++ joinPieces rest := rfl

/-- A hole reads as zero. -/
theorem byteAt_of_hole (h : Hole pieces p) : byteAt pieces p = 0 := by
  have hnone : (pieces.find? fun piece => HasByte piece p) = none := by
    rw [List.find?_eq_none]
    intro piece hpiece hcovers
    exact h piece hpiece (of_decide_eq_true hcovers)
  rw [byteAt, hnone]

theorem byteAt_cons_of_hasByte (h : HasByte piece p) : byteAt (piece :: pieces) p = piece.2.get (p - piece.1) := by
  have hfind : ((piece :: pieces).find? fun other => HasByte other p) = some piece :=
    List.find?_cons_of_pos (decide_eq_true h)
  rw [byteAt, hfind]

theorem byteAt_cons_of_not_hasByte (h : ¬HasByte piece p) : byteAt (piece :: pieces) p = byteAt pieces p := by
  have hfind : ((piece :: pieces).find? fun other => HasByte other p) = pieces.find? fun other => HasByte other p :=
    List.find?_cons_of_neg (by rwa [decide_eq_true_iff])
  rw [byteAt, hfind, byteAt]

theorem Placed.tail (h : Placed start (piece :: rest)) : Placed (piece.1 + piece.2.size) rest :=
  ⟨(List.pairwise_cons.mp h.apart).1, (List.pairwise_cons.mp h.apart).2⟩

/-- Before the first piece lies a hole. -/
theorem Placed.hole_of_lt (h : Placed start pieces) (hp : p < start) : Hole pieces p := by
  intro piece hpiece hcovers
  have hstart := h.starts piece hpiece
  have hle := hcovers.1
  omega

/-- A part that starts in front of the first piece starts with a hole. -/
theorem Placed.hole_start (h : Placed start (piece :: rest)) (hne : start ≠ piece.1) : Hole (piece :: rest) start := by
  have hlt : start < piece.1 := lt_of_le_of_ne (h.starts piece List.mem_cons_self) hne
  exact hole_cons.mpr ⟨fun hcovers => absurd hcovers.1 (by omega), h.tail.hole_of_lt (by omega)⟩

/-- Behind the end of the first piece the others decide. -/
theorem Placed.hole_cons_of_le (hp : piece.1 + piece.2.size ≤ p) : Hole (piece :: rest) p ↔ Hole rest p := by
  rw [hole_cons, and_iff_right]
  intro hcovers
  have hlt := hcovers.2
  omega

/-- While the file has no hole, it is the join of its pieces. -/
theorem Placed.get_joinPieces (h : Placed start pieces) (hcovered : ∀ p, start ≤ p → p ≤ start + i → ¬Hole pieces p) :
    i < (joinPieces pieces).size ∧ (joinPieces pieces).get i = byteAt pieces (start + i) := by
  induction pieces generalizing start i with
  | nil => exact absurd (hole_nil start) (hcovered start le_rfl (by omega))
  | cons piece rest ih =>
    have hplace : piece.1 = start := by
      by_contra hne
      exact hcovered start le_rfl (by omega) (h.hole_start (Ne.symm hne))
    rw [joinPieces_cons, Bytes.size_append]
    by_cases hi : i < piece.2.size
    · have hcovers : HasByte piece (start + i) := ⟨by omega, by omega⟩
      rw [Bytes.get_append_left _ _ hi, byteAt_cons_of_hasByte hcovers, hplace, Nat.add_sub_cancel_left]
      exact ⟨by omega, rfl⟩
    · have hnot : ¬HasByte piece (start + i) := fun hcovers => absurd hcovers.2 (by omega)
      have hsplit : piece.1 + piece.2.size + (i - piece.2.size) = start + i := by omega
      have hrest := ih (i := i - piece.2.size) h.tail fun p hp hle => by
        rw [← hole_cons_of_le hp]
        exact hcovered p (by omega) (by omega)
      rw [hsplit] at hrest
      rw [Bytes.get_append_right _ _ (Nat.le_of_not_lt hi), byteAt_cons_of_not_hasByte hnot]
      exact ⟨by omega, hrest.2⟩

/-- A byte stands in the join at its place in the file or earlier. -/
theorem Placed.exists_joinPieces (h : Placed start pieces) (hp : ¬Hole pieces p) :
    ∃ i, start + i ≤ p ∧ (joinPieces pieces).get i = byteAt pieces p := by
  induction pieces generalizing start with
  | nil => exact absurd (hole_nil p) hp
  | cons piece rest ih =>
    have hstart := h.starts piece List.mem_cons_self
    rw [joinPieces_cons]
    by_cases hcovers : HasByte piece p
    · obtain ⟨hle, hlt⟩ := hcovers
      refine ⟨p - piece.1, by omega, ?_⟩
      rw [Bytes.get_append_left _ _ (by omega), byteAt_cons_of_hasByte ⟨hle, hlt⟩]
    · rw [hole_cons, not_and, imp_iff_right hcovers] at hp
      obtain ⟨i, hi, hget⟩ := ih h.tail hp
      refine ⟨piece.2.size + i, by omega, ?_⟩
      rw [Bytes.get_append_right _ _ (Nat.le_add_right _ _), Nat.add_sub_cancel_left, hget,
        byteAt_cons_of_not_hasByte hcovers]

/-- The pieces behind a place. -/
def piecesBehind (pieces : List Piece) (hole : ℕ) : List Piece := pieces.filter fun piece => hole < piece.1

theorem Placed.behind (h : Placed start pieces) (hole : ℕ) : Placed (hole + 1) (piecesBehind pieces hole) := by
  refine ⟨fun piece hpiece => ?_, h.apart.filter _⟩
  exact of_decide_eq_true (List.mem_filter.mp hpiece).2

/-- At a hole the join goes on with the pieces behind it. -/
theorem Placed.joinPieces_at_hole (h : Placed start pieces) (hfirst : FirstHole pieces start stop hole) :
    (joinPieces pieces).size = hole - start + (joinPieces (piecesBehind pieces hole)).size ∧
      ∀ i, (joinPieces pieces).get (hole - start + i) = (joinPieces (piecesBehind pieces hole)).get i := by
  induction pieces generalizing start with
  | nil =>
    have hstart : hole = start := by
      by_contra hne
      have hle := hfirst.start_le
      exact hfirst.covered start le_rfl (by omega) (hole_nil start)
    rw [hstart, Nat.sub_self]
    exact ⟨(Nat.zero_add _).symm, fun i => by rw [Nat.zero_add]; rfl⟩
  | cons piece rest ih =>
    have hle := hfirst.start_le
    have hstart := h.starts piece List.mem_cons_self
    by_cases hbehind : hole < piece.1
    · -- Nothing is in front of the hole, so the hole is where the part starts.
      have hfront : hole = start := by
        by_contra hne
        exact hfirst.covered start le_rfl (by omega) (h.hole_start (by omega))
      have hall : piecesBehind (piece :: rest) hole = piece :: rest := by
        refine List.filter_eq_self.mpr fun other hother => decide_eq_true ?_
        rcases List.mem_cons.mp hother with rfl | hother
        · exact hbehind
        · have hrest := h.tail.starts other hother
          omega
      rw [hall, hfront, Nat.sub_self, Nat.zero_add]
      exact ⟨rfl, fun i => by rw [Nat.zero_add]⟩
    · have hplace : piece.1 = start := by
        by_contra hne
        exact hfirst.covered start le_rfl (by omega) (h.hole_start (Ne.symm hne))
      have hend : piece.1 + piece.2.size ≤ hole := by
        by_contra hlt
        exact hfirst.isHole piece List.mem_cons_self ⟨by omega, by omega⟩
      have hrest : FirstHole rest (piece.1 + piece.2.size) stop hole := by
        refine ⟨hend, hfirst.lt_stop, (hole_cons_of_le hend).mp hfirst.isHole, fun p hp hlt => ?_⟩
        rw [← hole_cons_of_le hp]
        exact hfirst.covered p (by omega) hlt
      obtain ⟨hsize, hget⟩ := ih h.tail hrest
      have hdrop : piecesBehind (piece :: rest) hole = piecesBehind rest hole :=
        List.filter_cons_of_neg (by rwa [decide_eq_true_iff])
      rw [hdrop, joinPieces_cons, Bytes.size_append, hsize]
      refine ⟨by omega, fun i => ?_⟩
      rw [Bytes.get_append_right _ _ (by omega), ← hget i]
      congr 1
      omega

/-- From a hole on, the pieces behind it decide. -/
theorem behind_of_hole (hhole : Hole pieces hole) (hp : hole ≤ p) :
    (Hole (piecesBehind pieces hole) p ↔ Hole pieces p) ∧ byteAt (piecesBehind pieces hole) p = byteAt pieces p := by
  induction pieces with
  | nil => exact ⟨Iff.rfl, rfl⟩
  | cons piece rest ih =>
    obtain ⟨hpiece, hrest⟩ := hole_cons.mp hhole
    obtain ⟨hsame, hbyte⟩ := ih hrest
    by_cases hbehind : hole < piece.1
    · have hkeep : piecesBehind (piece :: rest) hole = piece :: piecesBehind rest hole :=
        List.filter_cons_of_pos (decide_eq_true hbehind)
      rw [hkeep]
      refine ⟨by rw [hole_cons, hole_cons, hsame], ?_⟩
      by_cases hcovers : HasByte piece p
      · rw [byteAt_cons_of_hasByte hcovers, byteAt_cons_of_hasByte hcovers]
      · rw [byteAt_cons_of_not_hasByte hcovers, byteAt_cons_of_not_hasByte hcovers, hbyte]
    · have hdrop : piecesBehind (piece :: rest) hole = piecesBehind rest hole :=
        List.filter_cons_of_neg (by rwa [decide_eq_true_iff])
      have hend : piece.1 + piece.2.size ≤ hole := by
        by_contra hlt
        exact hpiece ⟨by omega, by omega⟩
      have hnot : ¬HasByte piece p := fun hcovers => absurd hcovers.2 (by omega)
      rw [hdrop, hole_cons, and_iff_right hnot, byteAt_cons_of_not_hasByte hnot]
      exact ⟨hsame, hbyte⟩

/-- There is one first hole. -/
theorem FirstHole.unique {other : ℕ} (h : FirstHole pieces start stop hole) (h' : FirstHole pieces start stop other) :
    other = hole := by
  by_contra hne
  rcases Nat.lt_or_gt_of_ne hne with hlt | hlt
  · exact h.covered other h'.start_le hlt h'.isHole
  · exact h'.covered hole h.start_le hlt h.isHole

/-- A part of the file has a first hole or none. -/
theorem exists_firstHole (pieces : List Piece) (start stop : ℕ) :
    (∃ hole, FirstHole pieces start stop hole) ∨ ∀ p, start ≤ p → p < stop → ¬Hole pieces p := by
  by_cases hany : ∃ p, start ≤ p ∧ p < stop ∧ Hole pieces p
  · obtain ⟨hle, hlt, hhole⟩ := Nat.find_spec hany
    refine .inl ⟨Nat.find hany, hle, hlt, hhole, fun p hp hfront hcovered => ?_⟩
    exact Nat.find_min hany hfront ⟨hp, hfront.trans hlt, hcovered⟩
  · exact .inr fun p hp hlt hhole => hany ⟨p, hp, hlt, hhole⟩

/-- At least `n` bytes, of which the first `n` are zero. -/
structure StartsZero (bytes : Bytes) (n : ℕ) : Prop where
  le_size : n ≤ bytes.size
  get_eq : ∀ i < n, bytes.get i = 0

/-- Behind a hole the pieces joined from the hole on are the file if and only if they start with zeros. -/
theorem Placed.behind_hole_iff (h : Placed start pieces) (hhole : Hole pieces hole) (n : ℕ) :
    (n ≤ (joinPieces (piecesBehind pieces hole)).size ∧
        ∀ i < n, (joinPieces (piecesBehind pieces hole)).get i = byteAt pieces (hole + i)) ↔
      StartsZero (joinPieces (piecesBehind pieces hole)) n := by
  have hearlier : ∀ i, ¬Hole pieces (hole + i) →
      ∃ j < i, (joinPieces (piecesBehind pieces hole)).get j = byteAt pieces (hole + i) := by
    intro i hi
    obtain ⟨hsame, hbyte⟩ := behind_of_hole hhole (Nat.le_add_right hole i)
    obtain ⟨j, hj, hget⟩ := (h.behind hole).exists_joinPieces (fun hbehind => hi (hsame.mp hbehind))
    exact ⟨j, by omega, hget.trans hbyte⟩
  constructor
  · rintro ⟨hsize, hget⟩
    refine ⟨hsize, fun i => ?_⟩
    -- A byte of the file that stands at `i` in the join is that of an earlier place of the join, or of a hole.
    induction i using Nat.strong_induction_on with
    | _ i ih =>
      intro hi
      rw [hget i hi]
      by_cases hcovered : Hole pieces (hole + i)
      · exact byteAt_of_hole hcovered
      · obtain ⟨j, hj, hbyte⟩ := hearlier i hcovered
        rw [← hbyte]
        exact ih j hj (hj.trans hi)
  · intro hzero
    refine ⟨hzero.le_size, fun i hi => ?_⟩
    rw [hzero.get_eq i hi]
    by_cases hcovered : Hole pieces (hole + i)
    · exact (byteAt_of_hole hcovered).symm
    · obtain ⟨j, hj, hbyte⟩ := hearlier i hcovered
      rw [← hbyte]
      exact (hzero.get_eq j (hj.trans hi)).symm

/-- A cut join is a part of the file byte by byte. -/
theorem slice_eq_fileBytes_iff {bytes : Bytes} :
    bytes.slice 0 (stop - start) = fileBytes pieces start stop ↔
      stop - start ≤ bytes.size ∧ ∀ i < stop - start, bytes.get i = byteAt pieces (start + i) := by
  constructor
  · intro heq
    have hsize := congrArg Bytes.size heq
    rw [Bytes.size_slice, fileBytes, Bytes.size_ofFn] at hsize
    refine ⟨by omega, fun i hi => ?_⟩
    have hget := congrArg (fun b => b.get i) heq
    rwa [Bytes.get_slice_of_lt _ (by omega), Nat.zero_add, fileBytes, Bytes.get_ofFn, if_pos hi] at hget
  · rintro ⟨hsize, hget⟩
    apply Bytes.ext_get
    · rw [Bytes.size_slice, fileBytes, Bytes.size_ofFn]
      omega
    · intro i hi
      rw [Bytes.size_slice] at hi
      rw [Bytes.get_slice_of_lt _ (by omega), Nat.zero_add, fileBytes, Bytes.get_ofFn, if_pos (by omega)]
      exact hget i (by omega)

/-- The join of the pieces, cut to a part of the file, is that part exactly when the part has no hole or what is behind
its first hole goes on with zeros. -/
theorem Placed.slice_joinPieces_iff (h : Placed start pieces) :
    (joinPieces pieces).slice 0 (stop - start) = fileBytes pieces start stop ↔
      ∀ hole, FirstHole pieces start stop hole → StartsZero (joinPieces (piecesBehind pieces hole)) (stop - hole) := by
  rw [slice_eq_fileBytes_iff]
  obtain ⟨hole, hfirst⟩ | hnone := exists_firstHole pieces start stop
  · obtain ⟨hsize, hget⟩ := h.joinPieces_at_hole hfirst
    have hle := hfirst.start_le
    have hlt := hfirst.lt_stop
    have hunique : (∀ other, FirstHole pieces start stop other →
        StartsZero (joinPieces (piecesBehind pieces other)) (stop - other)) ↔
        StartsZero (joinPieces (piecesBehind pieces hole)) (stop - hole) :=
      ⟨fun hall => hall hole hfirst, fun hzero other hother => hfirst.unique hother ▸ hzero⟩
    rw [hunique, ← h.behind_hole_iff hfirst.isHole]
    constructor
    · rintro ⟨hlength, hbytes⟩
      refine ⟨by omega, fun i hi => ?_⟩
      have hplace : start + (hole - start + i) = hole + i := by omega
      rw [← hget i, hbytes (hole - start + i) (by omega), hplace]
    · rintro ⟨hlength, hbytes⟩
      refine ⟨by omega, fun i hi => ?_⟩
      by_cases hfront : start + i < hole
      · exact (h.get_joinPieces fun p hp hle => hfirst.covered p hp (by omega)).2
      · have hplace : hole - start + (start + i - hole) = i := by omega
        have hbyte := hbytes (start + i - hole) (by omega)
        rwa [← hget, hplace, Nat.add_sub_cancel' (Nat.le_of_not_lt hfront)] at hbyte
  · refine iff_of_true ⟨?_, fun i hi => ?_⟩ fun hole hfirst => ?_
    · by_contra hshort
      have hlast := h.get_joinPieces (i := stop - start - 1) fun p hp hle => hnone p hp (by omega)
      omega
    · exact (h.get_joinPieces fun p hp hle => hnone p hp (by omega)).2
    · exact absurd hfirst.isHole (hnone hole hfirst.start_le hfirst.lt_stop)

section Tables

variable {table : List Piece}

/-- The pieces of a table in the order of their places. -/
def sortedPieces (table : List Piece) : List Piece :=
  (sorted (table.map Prod.fst)).map fun place => (place, (find table place).getD Bytes.empty)

/-- Sorting keeps the pieces. -/
theorem mem_sortedPieces (hkeys : (table.map Prod.fst).Nodup) : piece ∈ sortedPieces table ↔ piece ∈ table := by
  constructor
  · intro hmem
    obtain ⟨place, hplace, rfl⟩ := List.mem_map.mp hmem
    obtain ⟨other, hother, rfl⟩ := List.mem_map.mp (mem_sorted.mp hplace)
    rw [(find_eq_some_iff hkeys).mpr hother]
    exact hother
  · intro hmem
    refine List.mem_map.mpr ⟨piece.1, mem_sorted.mpr (List.mem_map_of_mem hmem), ?_⟩
    rw [(find_eq_some_iff hkeys).mpr hmem]
    rfl

theorem pairwise_sortedPieces (hkeys : (table.map Prod.fst).Nodup) :
    (sortedPieces table).Pairwise fun a b => a.1 < b.1 :=
  List.pairwise_map.mpr (insertionSort_pairwise_lt hkeys)

/-- Pieces in order with the members of a table are its pieces in order. -/
theorem eq_sortedPieces (hkeys : (table.map Prod.fst).Nodup) (hsorted : pieces.Pairwise fun a b => a.1 < b.1)
    (hmem : ∀ piece, piece ∈ pieces ↔ piece ∈ table) : pieces = sortedPieces table := by
  have hsorted' := pairwise_sortedPieces hkeys
  have hnodup {values : List Piece} (h : values.Pairwise fun a b => a.1 < b.1) : values.Nodup :=
    h.imp fun hlt heq => absurd (congrArg Prod.fst heq) hlt.ne
  have hperm : pieces.Perm (sortedPieces table) :=
    (List.perm_ext_iff_of_nodup (hnodup hsorted) (hnodup hsorted')).mpr fun piece =>
      (hmem piece).trans (mem_sortedPieces hkeys).symm
  exact hperm.eq_of_pairwise (fun a b _ _ hab hba => absurd hab hba.asymm) hsorted hsorted'

/-- Pieces that are apart are placed when they are in order. -/
theorem placed_sortedPieces (hkeys : (table.map Prod.fst).Nodup) (hstarts : ∀ piece ∈ table, start ≤ piece.1)
    (hapart : ∀ a ∈ table, ∀ b ∈ table, a.1 < b.1 → a.1 + a.2.size ≤ b.1) : Placed start (sortedPieces table) := by
  refine ⟨fun piece hpiece => hstarts piece ((mem_sortedPieces hkeys).mp hpiece), ?_⟩
  refine (pairwise_sortedPieces hkeys).imp_of_mem fun {a b} ha hb hlt => ?_
  exact hapart a ((mem_sortedPieces hkeys).mp ha) b ((mem_sortedPieces hkeys).mp hb) hlt

/-- Where two pieces never have the same place, the one that has a place gives its byte. -/
theorem byteAt_of_hasByte (hapart : pieces.Pairwise fun a b => ∀ p, HasByte a p → ¬HasByte b p) (hmem : piece ∈ pieces)
    (hcovers : HasByte piece p) : byteAt pieces p = piece.2.get (p - piece.1) := by
  induction pieces with
  | nil => exact absurd hmem List.not_mem_nil
  | cons first rest ih =>
    obtain ⟨hfirst, hrest⟩ := List.pairwise_cons.mp hapart
    rcases List.mem_cons.mp hmem with rfl | hmem
    · exact byteAt_cons_of_hasByte hcovers
    · rw [byteAt_cons_of_not_hasByte fun h => hfirst piece hmem p h hcovers]
      exact ih hrest hmem

/-- What is left of a piece from a place on. -/
def clip (start : ℕ) (piece : Piece) : Piece :=
  (max piece.1 start, piece.2.slice (start - piece.1) piece.2.size)

theorem size_clip (start : ℕ) (piece : Piece) : (clip start piece).2.size = piece.2.size - (start - piece.1) := by
  rw [clip, Bytes.size_slice, Nat.min_self]

theorem clip_of_le (hplace : start ≤ piece.1) : clip start piece = piece := by
  have hslice : piece.2.slice (start - piece.1) piece.2.size = piece.2 := by
    apply Bytes.ext_get
    · rw [Bytes.size_slice, Nat.min_self]
      omega
    · intro i hi
      rw [Bytes.size_slice] at hi
      rw [Bytes.get_slice_of_lt _ (by omega), Nat.sub_eq_zero_of_le hplace, Nat.zero_add]
  rw [clip, hslice, Nat.max_eq_left hplace]

theorem hasByte_clip (hp : start ≤ p) : HasByte (clip start piece) p ↔ HasByte piece p := by
  have hsize := size_clip start piece
  have hplace : (clip start piece).1 = max piece.1 start := rfl
  unfold HasByte
  rw [hsize, hplace]
  omega

/-- Clipping keeps the bytes behind the start. -/
theorem get_clip (hp : start ≤ p) (hcovers : HasByte piece p) :
    (clip start piece).2.get (p - (clip start piece).1) = piece.2.get (p - piece.1) := by
  obtain ⟨hle, hlt⟩ := hcovers
  have hplace : (clip start piece).1 = max piece.1 start := rfl
  rw [hplace, clip, Bytes.get_slice_of_lt _ (by omega)]
  congr 1
  omega

end Tables

end AneLinux.Support
