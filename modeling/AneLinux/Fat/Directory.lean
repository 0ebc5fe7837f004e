import AneLinux.Fat.LongNames

/-!
# Directories

A directory is built from live entries, each with the entries of its long name in front of it or none, deleted entries,
and entries of long names that belong to no live entry. Deleted entries do not clear what is collected, so the text of a
part that belongs to no entry goes to the next live one. The records are right exactly when every part can be decoded,
long names are whole, and no such text is left for a live entry, or just its short name.
-/

namespace AneLinux.Fat

open AneLinux.Support

/-- What a directory is built from: live entries with or without a long name in front, deleted entries, and parts of
long names that belong to no entry. -/
inductive Slot
  | live (own : Option (LongName × List Bytes)) (e : Bytes)
  | deleted (e : Bytes)
  | orphan (e : Bytes)

namespace Slot

/-- The entries of a slot, in the order on disk. -/
def entries : Slot → List Bytes
  | live none e => [e]
  | live (some own) e => own.2 ++ [e]
  | deleted e => [e]
  | orphan e => [e]

/-- The entries are what the slot says. -/
def Formed : Slot → Prop
  | live own e => e.size = 32 ∧ e.get 0 ≠ 0 ∧ e.get 0 ≠ 0xE5 ∧ e.get 11 ≠ 0x0F ∧ ∀ o ∈ own, o.1.Holds o.2
  | deleted e => e.size = 32 ∧ e.get 0 = 0xE5
  | orphan e => e.size = 32 ∧ e.get 0 ≠ 0 ∧ e.get 0 ≠ 0xE5 ∧ e.get 11 = 0x0F

/-- The record of a live entry under a name. -/
def recordOf (e : Bytes) (name : List Char) : DirEntry where
  name := name
  short := shortName e
  dir := (e.get 11).toNat &&& 0x10 ≠ 0
  size := e.u32 28
  clus := e.leNat 20 2 <<< 16 ||| e.leNat 26 2

/-- The record of a slot: a live entry under its long name, or its short one. -/
def record : Slot → Option DirEntry
  | live none e => some (recordOf e (shortName e))
  | live (some own) e => some (recordOf e own.1.text)
  | deleted _ => none
  | orphan _ => none

/-- The text that is left for the next live entry. -/
def leaves (stray : List Char) : Slot → List Char
  | live _ _ => []
  | deleted _ => stray
  | orphan e => ((fragmentText e).toOption.getD []) ++ stray

/-- A slot that comes out right behind text that belongs to no entry. -/
def Fits (stray : List Char) : Slot → Prop
  | live none e => stray = [] ∨ stray = shortName e
  | live (some own) _ => stray = [] ∧ own.1.Whole
  | deleted _ => True
  | orphan e => ∃ text, fragmentText e = .ok text

end Slot

/-- The text of parts that belong to no entry since the last live entry, the latest part first. -/
def strayText (stray : List Char) (front : List Slot) : List Char := front.foldl Slot.leaves stray

/-- The bytes of a directory: its slots, and then nothing or an entry that begins with a zero. -/
def directory (slots : List Slot) (rest : Bytes) : Bytes := Bytes.join (slots.flatMap Slot.entries) ++ rest

/-- Every slot comes out right behind the slots in front of it. -/
def NamesReadable (stray : List Char) (slots : List Slot) : Prop :=
  ∀ front slot back, slots = front ++ slot :: back → slot.Fits (strayText stray front)

variable {e : Bytes} {rest : List Bytes} {lfn : List (List Char)} {out : List DirEntry} {slots : List Slot}

section Entries

variable {fragments : List Bytes}

theorem byteIndex_of_lt {i : ℕ} (h : i < e.size) : byteIndex e i = .ok (e.get i).toNat := by rw [byteIndex, if_pos h]

theorem toNat_ne {b c : UInt8} (h : b ≠ c) : b.toNat ≠ c.toNat := fun heq => h (UInt8.toNat.inj heq)

/-- A deleted entry changes nothing. -/
theorem parseEntries_deleted (hsize : e.size = 32) (hfirst : e.get 0 = 0xE5) (lfn : List (List Char)) :
    parseEntries (e :: rest) lfn = parseEntries rest lfn := by
  have hfirst' : (e.get 0).toNat = 0xE5 := congrArg UInt8.toNat hfirst
  have hskipped : isSkipped e (e.get 0).toNat = .ok true := if_pos hfirst'
  rw [parseEntries, byteIndex_of_lt (by omega), ok_bind, if_neg (by omega), hskipped, ok_bind, if_pos rfl,
    byteIndex_of_lt (by omega), ok_bind, if_neg (fun h => h.2 hfirst')]

/-- A part of a long name is collected. -/
theorem parseEntries_fragment (hsize : e.size = 32) (hzero : e.get 0 ≠ 0) (hdeleted : e.get 0 ≠ 0xE5)
    (hattr : e.get 11 = 0x0F) (lfn : List (List Char)) :
    parseEntries (e :: rest) lfn = (fragmentText e >>= fun part => parseEntries rest (lfn ++ [part])) := by
  have hzero' : (e.get 0).toNat ≠ 0 := toNat_ne hzero
  have hdeleted' : (e.get 0).toNat ≠ 0xE5 := toNat_ne hdeleted
  have hattr' : (e.get 11).toNat = 0x0F := congrArg UInt8.toNat hattr
  have hskipped : isSkipped e (e.get 0).toNat = .ok true := by
    rw [isSkipped, if_neg hdeleted', byteIndex_of_lt (by omega), hattr']
    rfl
  rw [parseEntries, byteIndex_of_lt (by omega), ok_bind, if_neg hzero', hskipped, ok_bind, if_pos rfl,
    byteIndex_of_lt (by omega), ok_bind, if_pos ⟨hattr', hdeleted'⟩]

/-- A live entry takes what is collected. -/
theorem parseEntries_live (hsize : e.size = 32) (hzero : e.get 0 ≠ 0) (hdeleted : e.get 0 ≠ 0xE5)
    (hattr : e.get 11 ≠ 0x0F) (lfn : List (List Char)) :
    parseEntries (e :: rest) lfn =
      (dirEntry e lfn >>= fun entry => parseEntries rest [] >>= fun others => .ok (entry :: others)) := by
  have hzero' : (e.get 0).toNat ≠ 0 := toNat_ne hzero
  have hdeleted' : (e.get 0).toNat ≠ 0xE5 := toNat_ne hdeleted
  have hattr' : ((e.get 11).toNat == 0x0F) = false := beq_false_of_ne (toNat_ne hattr)
  have hskipped : isSkipped e (e.get 0).toNat = .ok false := by
    rw [isSkipped, if_neg hdeleted', byteIndex_of_lt (by omega), Except.map, hattr']
  rw [parseEntries, byteIndex_of_lt (by omega), ok_bind, if_neg hzero', hskipped, ok_bind, if_neg Bool.false_ne_true]
  rfl

/-- The record of a live entry. -/
theorem dirEntry_eq (hsize : e.size = 32) (lfn : List (List Char)) :
    dirEntry e lfn =
      .ok (Slot.recordOf e (if lfn.reverse.flatten ≠ [] then lfn.reverse.flatten else shortName e)) := by
  rw [dirEntry, byteIndex_of_lt (by omega), ok_bind, unpackU16, if_pos (by omega), ok_bind, unpackU16,
    if_pos (by omega), ok_bind, unpackU32, if_pos (by omega), ok_bind]
  rfl

/-- A live entry comes out under a name if the collected text, or else the short name, is that name. -/
theorem parseEntries_live_iff (hsize : e.size = 32) (hzero : e.get 0 ≠ 0) (hdeleted : e.get 0 ≠ 0xE5)
    (hattr : e.get 11 ≠ 0x0F) (lfn : List (List Char)) (text : List Char) :
    parseEntries (e :: rest) lfn = .ok (Slot.recordOf e text :: out) ↔
      (if lfn.reverse.flatten ≠ [] then lfn.reverse.flatten else shortName e) = text ∧
        parseEntries rest [] = .ok out := by
  rw [parseEntries_live hsize hzero hdeleted hattr, dirEntry_eq hsize, ok_bind, bind_eq_ok]
  constructor
  · rintro ⟨others, hothers, hout⟩
    obtain ⟨hentry, rfl⟩ := List.cons.inj (Except.ok.inj hout)
    exact ⟨congrArg DirEntry.name hentry, hothers⟩
  · rintro ⟨rfl, hothers⟩
    exact ⟨out, hothers, rfl⟩

/-- A run of parts is decoded part by part. -/
theorem parseEntries_fragments (hfragments : ∀ e ∈ fragments, Collected e) (lfn : List (List Char)) :
    parseEntries (fragments ++ rest) lfn = .ok out ↔
      ∃ texts, EntriesDecode fragments texts ∧ parseEntries rest (lfn ++ texts) = .ok out := by
  induction fragments generalizing lfn with
  | nil =>
    constructor
    · intro h
      exact ⟨[], List.Forall₂.nil, by rwa [List.append_nil]⟩
    · rintro ⟨texts, htexts, h⟩
      cases htexts
      rwa [List.append_nil] at h
  | cons e fragments ih =>
    obtain ⟨he, hfragments⟩ := List.forall_mem_cons.mp hfragments
    rw [List.cons_append, parseEntries_fragment he.size_eq he.not_end he.not_deleted he.attr_eq, bind_eq_ok]
    simp only [ih hfragments]
    constructor
    · rintro ⟨text, htext, texts, htexts, h⟩
      exact ⟨text :: texts, List.Forall₂.cons htext htexts, by rwa [List.append_cons]⟩
    · rintro ⟨texts, htexts, h⟩
      cases htexts with
      | @cons _ text _ texts htext htexts => exact ⟨text, htext, texts, htexts, by rwa [← List.append_cons]⟩

/-- A short name is made of ASCII characters and replacement characters. -/
theorem padding_notMem_shortName (e : Bytes) : padding ∉ shortName e := by
  have hascii (data : Bytes) : padding ∉ decodeAscii data := by
    intro hmem
    obtain ⟨i, -, hchar⟩ := List.mem_map.mp hmem
    split at hchar
    · rename_i hsmall
      have hsmaller : ∀ n < 0x80, Char.ofNat n ≠ padding := by decide
      exact hsmaller _ (UInt8.lt_iff_toNat_lt.mp hsmall) hchar
    · exact absurd hchar (by decide)
  have hstrip (data : Bytes) : padding ∉ rstrip (decodeAscii data) := by
    intro hmem
    rw [rstrip, List.mem_reverse] at hmem
    exact hascii data (List.mem_reverse.mp ((List.dropWhile_suffix _).subset hmem))
  have hdot : padding ≠ '.' := by decide
  rw [shortName, List.mem_append, not_or]
  refine ⟨hstrip _, ?_⟩
  split
  · rw [List.mem_cons, not_or]
    exact ⟨hdot, hstrip _⟩
  · exact List.not_mem_nil

end Entries

section Slots

variable {slot : Slot} {tail : List Bytes} {stray : List Char}

theorem namesReadable_nil (stray : List Char) : NamesReadable stray [] := by
  intro front slot back h
  cases front with
  | nil => cases h
  | cons first front => cases h

/-- A slot is readable after what the last one left. -/
theorem namesReadable_cons :
    NamesReadable stray (slot :: slots) ↔ slot.Fits stray ∧ NamesReadable (slot.leaves stray) slots := by
  constructor
  · intro h
    refine ⟨h [] slot slots rfl, fun front other back hslots => ?_⟩
    exact h (slot :: front) other back (by rw [hslots, List.cons_append])
  · rintro ⟨hfits, hrest⟩ front other back hslots
    cases front with
    | nil =>
      obtain ⟨rfl, rfl⟩ := List.cons.inj hslots
      exact hfits
    | cons first front =>
      obtain ⟨rfl, hrest'⟩ := List.cons.inj hslots
      exact hrest front other back hrest'

/-- A live slot comes out right exactly when it fits what is collected in front of it. -/
theorem parseEntries_slot_live {own : Option (LongName × List Bytes)} (hformed : (Slot.live own e).Formed)
    (hstray : padding ∉ lfn.reverse.flatten) :
    parseEntries ((Slot.live own e).entries ++ rest) lfn = .ok (((Slot.live own e).record.toList) ++ out) ↔
      (Slot.live own e).Fits lfn.reverse.flatten ∧ parseEntries rest [] = .ok out := by
  obtain ⟨hsize, hzero, hdeleted, hattr, hown⟩ := hformed
  cases own with
  | none =>
    refine (parseEntries_live_iff hsize hzero hdeleted hattr lfn (shortName e)).trans (and_congr_left fun _ => ?_)
    rw [Slot.Fits]
    by_cases hnil : lfn.reverse.flatten = []
    · rw [if_neg (not_not.mpr hnil)]
      exact iff_of_true rfl (.inl hnil)
    · rw [if_pos hnil, or_iff_right hnil]
  | some own =>
    have hholds : own.1.Holds own.2 := hown own rfl
    have hentries : (Slot.live (some own) e).entries ++ rest = own.2 ++ (e :: rest) := by
      rw [Slot.entries, List.append_assoc, List.singleton_append]
    rw [hentries, parseEntries_fragments hholds.collected, Slot.Fits,
      ← hholds.name_iff hstray (padding_notMem_shortName e)]
    have hlive : ∀ texts : List (List Char), parseEntries (e :: rest) (lfn ++ texts) =
        .ok (Slot.recordOf e own.1.text :: out) ↔
          (if (lfn ++ texts).reverse.flatten ≠ [] then (lfn ++ texts).reverse.flatten else shortName e) =
            own.1.text ∧ parseEntries rest [] = .ok out :=
      fun texts => parseEntries_live_iff hsize hzero hdeleted hattr (lfn ++ texts) own.1.text
    constructor
    · rintro ⟨texts, htexts, h⟩
      obtain ⟨hname, hrest⟩ := (hlive texts).mp h
      rw [List.reverse_append, List.flatten_append] at hname
      exact ⟨⟨texts, htexts, hname⟩, hrest⟩
    · rintro ⟨⟨texts, htexts, hname⟩, hrest⟩
      refine ⟨texts, htexts, (hlive texts).mpr ⟨?_, hrest⟩⟩
      rwa [List.reverse_append, List.flatten_append]

/-- The entries of the slots give their records exactly when every slot fits the slots in front of it. -/
theorem parseEntries_slots (hformed : ∀ slot ∈ slots, slot.Formed) (htail : ∀ lfn, parseEntries tail lfn = .ok [])
    (hstray : padding ∉ lfn.reverse.flatten) :
    parseEntries (slots.flatMap Slot.entries ++ tail) lfn = .ok (slots.filterMap Slot.record) ↔
      NamesReadable lfn.reverse.flatten slots := by
  induction slots generalizing lfn with
  | nil => exact iff_of_true (htail lfn) (namesReadable_nil _)
  | cons slot slots ih =>
    obtain ⟨hslot, hslots⟩ := List.forall_mem_cons.mp hformed
    rw [namesReadable_cons, List.flatMap_cons, List.append_assoc]
    cases slot with
    | live own e =>
      have hrecords : (Slot.live own e :: slots).filterMap Slot.record =
          (Slot.live own e).record.toList ++ slots.filterMap Slot.record := by
        cases own with
        | none => rfl
        | some own => rfl
      have hnone : padding ∉ ([] : List (List Char)).reverse.flatten := List.not_mem_nil
      rw [hrecords, parseEntries_slot_live hslot hstray, ih hslots hnone]
      rfl
    | deleted e =>
      have hentries : (Slot.deleted e).entries = [e] := rfl
      have hfits : (Slot.deleted e).Fits lfn.reverse.flatten := trivial
      rw [hentries, List.singleton_append, parseEntries_deleted hslot.1 hslot.2, and_iff_right hfits]
      exact ih hslots hstray
    | orphan e =>
      have hentries : (Slot.orphan e).entries = [e] := rfl
      rw [hentries, List.singleton_append, parseEntries_fragment hslot.1 hslot.2.1 hslot.2.2.1 hslot.2.2.2]
      cases htext : fragmentText e with
      | error error =>
        refine iff_of_false (fun h => by cases h) fun h => ?_
        obtain ⟨text, hok⟩ := h.1
        rw [htext] at hok
        cases hok
      | ok text =>
        have hleaves : (Slot.orphan e).leaves lfn.reverse.flatten = (lfn ++ [text]).reverse.flatten := by
          have hsingle : [text].reverse.flatten = text := List.append_nil text
          rw [Slot.leaves, htext, List.reverse_append, List.flatten_append, hsingle]
          rfl
        have hfits : (Slot.orphan e).Fits lfn.reverse.flatten := ⟨text, htext⟩
        rw [ok_bind, and_iff_right hfits, hleaves]
        refine ih hslots ?_
        rw [← hleaves, Slot.leaves, htext, List.mem_append, not_or]
        exact ⟨padding_notMem_fragmentText htext, hstray⟩

end Slots

section Directories

variable {rest : Bytes}

/-- One entry is cut off the front. -/
theorem chunks_append (hsize : e.size = 32) (d : Bytes) : chunks (e ++ d) = e :: chunks d := by
  have hcount : ((e ++ d).size + 31) / 32 = (d.size + 31) / 32 + 1 := by
    rw [Bytes.size_append, hsize]
    omega
  have hfirst : (e ++ d).slice (32 * 0) (32 * 0 + 32) = e := by
    have hslice := Bytes.slice_append_left e d
    rwa [hsize] at hslice
  rw [chunks, hcount, List.range_succ_eq_map, List.map_cons, List.map_map, hfirst]
  refine congrArg (e :: ·) (List.map_congr_left fun k _ => ?_)
  have hslice := Bytes.slice_append_right e d (32 * k) (32 * k + 32)
  have hstart : 32 * Nat.succ k = e.size + 32 * k := by omega
  rw [Function.comp, hstart, Nat.add_assoc]
  exact hslice

/-- Joined entries are cut apart again. -/
theorem chunks_join {entries : List Bytes} (hsizes : ∀ e ∈ entries, e.size = 32) (rest : Bytes) :
    chunks (Bytes.join entries ++ rest) = entries ++ chunks rest := by
  induction entries with
  | nil =>
    have hempty : Bytes.join [] ++ rest = rest := by
      apply Bytes.ext_get
      · exact Nat.zero_add rest.size
      · intro i _
        exact Bytes.get_append_right _ _ (Nat.zero_le i)
    rw [hempty, List.nil_append]
  | cons e entries ih =>
    obtain ⟨he, hentries⟩ := List.forall_mem_cons.mp hsizes
    have hjoin : Bytes.join (e :: entries) = e ++ Bytes.join entries := rfl
    rw [hjoin, Bytes.append_assoc, chunks_append he, ih hentries, List.cons_append]

/-- Nothing, or an entry that begins with a zero, ends the directory. -/
theorem parseEntries_end (hrest : rest.get 0 = 0) (lfn : List (List Char)) :
    parseEntries (chunks rest) lfn = .ok [] := by
  by_cases hempty : rest.size = 0
  · have hnone : chunks rest = [] := by
      rw [chunks, hempty]
      rfl
    rw [hnone]
    rfl
  · have hcount : (rest.size + 31) / 32 = (rest.size - 1) / 32 + 1 := by omega
    have hindex : byteIndex (rest.slice (32 * 0) (32 * 0 + 32)) 0 = .ok 0 := by
      rw [byteIndex_of_lt (by rw [Bytes.size_slice]; omega), Bytes.get_slice_of_lt _ (by omega), hrest]
      rfl
    rw [chunks, hcount, List.range_succ_eq_map, List.map_cons, parseEntries, hindex, ok_bind, if_pos rfl]
    rfl

theorem Slot.Formed.sizes {slot : Slot} (h : slot.Formed) : ∀ e ∈ slot.entries, e.size = 32 := by
  cases slot with
  | live own e =>
    cases own with
    | none =>
      rintro e' he'
      rw [List.mem_singleton.mp he']
      exact h.1
    | some own =>
      intro e' he'
      rcases List.mem_append.mp he' with hfragment | hlive
      · exact ((h.2.2.2.2 own rfl).collected e' hfragment).size_eq
      · rw [List.mem_singleton.mp hlive]
        exact h.1
  | deleted e =>
    rintro e' he'
    rw [List.mem_singleton.mp he']
    exact h.1
  | orphan e =>
    rintro e' he'
    rw [List.mem_singleton.mp he']
    exact h.1

/-- A directory gives one record for each live entry, in order and under the right name, exactly when every part of a
long name can be decoded, long names are whole, and no other text is left for a live entry. -/
theorem entries_eq_iff {fs : Fat32} {clus : ℕ} (hformed : ∀ slot ∈ slots, slot.Formed) (hrest : rest.get 0 = 0)
    (hread : fs.readChain clus = .ok (directory slots rest)) :
    fs.entries clus = .ok (slots.filterMap Slot.record) ↔ NamesReadable [] slots := by
  have hsizes : ∀ e ∈ slots.flatMap Slot.entries, e.size = 32 := by
    intro e he
    obtain ⟨slot, hslot, hmem⟩ := List.mem_flatMap.mp he
    exact (hformed slot hslot).sizes e hmem
  rw [Fat32.entries, hread, ok_bind, directory, chunks_join hsizes]
  exact parseEntries_slots hformed (parseEntries_end hrest) List.not_mem_nil

end Directories

/-- A disk of one table sector and one cluster for the root directory. -/
def diskOf (directory : Bytes) : Fat32 where
  image := Bytes.ofFields 512 [(11, 512), (13, 1), (14, 1), (16, 1), (36, 1), (44, 2)] ++
    Bytes.ofFields 512 [(8, 0x0FFFFFFF)] ++ directory
  bytsPerSec := 512
  secPerClus := 1
  rsvd := 1
  numFats := 1
  fatsz := 1
  rootclus := 2
  fatOff := 512
  dataOff := 1024
  clusSz := 512

/-- An entry that holds a part of a long name. -/
def fragmentEntry (number : ℕ) (units : List ℕ) : Bytes :=
  Bytes.ofFields 32 ([(0, number), (11, 0x0F)] ++ (List.range 13).map fun i => (unitPlace i, units.getD i 0))

/-- An entry with a first byte behind which the name in eleven characters goes on. -/
def plainEntry (first : ℕ) (name : String) : Bytes :=
  Bytes.ofFields 32
    ((0, first) :: (name.toList.zipIdx 1).map (fun c => (c.2, c.1.toNat)) ++ [(11, 0x20), (26, 5), (28, 9)])

/-- A name of fourteen units. -/
def settings : LongName where
  text := "settings.plist".toList
  text_ne_nil := by decide
  no_terminator := by decide
  length_le := by decide

/-- Its entries. -/
def settingsFragments : List Bytes :=
  [fragmentEntry 0x42 (fill [0x74]), fragmentEntry 1 ((encodeUtf16 settings.text).take 13)]

/-- A deleted entry and two live ones, the first with a long name. -/
def cleanSlots : List Slot :=
  [.deleted (plainEntry 0xE5 "LDNAME  TXT"), .live (some (settings, settingsFragments)) (plainEntry 0x53 "ETTIN~1PLI"),
   .live none (plainEntry 0x41 "       TXT")]

/-- A part of the long name of a file that is gone, a deleted entry, and a live entry without a long name. -/
def staleSlots : List Slot :=
  [.orphan (fragmentEntry 0x41 (fill (encodeUtf16 "old name".toList))), .deleted (plainEntry 0xE5 "LDNAME  TXT"),
   .live none (plainEntry 0x41 "       TXT")]

theorem settings_holds : settings.Holds settingsFragments := by
  refine List.Forall₂.cons ?_ (List.Forall₂.cons ?_ List.Forall₂.nil)
  · exact ⟨by decide +kernel, by decide +kernel, by decide +kernel, by decide +kernel⟩
  · exact ⟨by decide +kernel, by decide +kernel, by decide +kernel, by decide +kernel⟩

theorem settings_whole : settings.Whole := by
  refine ⟨by decide, fun i u _ hu => ?_⟩
  have hunits : ∀ u ∈ encodeUtf16 settings.text, ¬IsHigh u := by decide
  exact hunits u (List.mem_of_getElem? hu)

theorem cleanSlots_formed : ∀ slot ∈ cleanSlots, slot.Formed := by
  refine List.forall_mem_cons.mpr ⟨?_, List.forall_mem_cons.mpr ⟨?_, List.forall_mem_singleton.mpr ?_⟩⟩
  · exact ⟨by decide +kernel, by decide +kernel⟩
  · refine ⟨by decide +kernel, by decide +kernel, by decide +kernel, by decide +kernel, fun own hown => ?_⟩
    obtain rfl := Option.some.inj hown
    exact settings_holds
  · refine ⟨by decide +kernel, by decide +kernel, by decide +kernel, by decide +kernel, fun own hown => ?_⟩
    cases hown

theorem entries_eq_iff_settings :
    (diskOf (directory cleanSlots (Bytes.zeros 352))).entries 2 = .ok (cleanSlots.filterMap Slot.record) := by
  refine (entries_eq_iff cleanSlots_formed (Bytes.get_zeros 352 0) (by decide +kernel)).mpr ?_
  refine namesReadable_cons.mpr ⟨trivial, namesReadable_cons.mpr ⟨⟨rfl, settings_whole⟩, ?_⟩⟩
  exact namesReadable_cons.mpr ⟨.inl rfl, namesReadable_nil _⟩

/-- The live entry comes out under the name of the file that is gone. -/
theorem entries_takes_stale_name :
    (∀ slot ∈ staleSlots, slot.Formed) ∧
      (diskOf (directory staleSlots (Bytes.zeros 416))).readChain 2 = .ok (directory staleSlots (Bytes.zeros 416)) ∧
      (staleSlots.filterMap Slot.record).map DirEntry.name = ["A.TXT".toList] ∧
      ((diskOf (directory staleSlots (Bytes.zeros 416))).entries 2).map (List.map DirEntry.name) =
        .ok ["old name".toList] := by
  refine ⟨?_, by decide +kernel, by decide +kernel, by decide +kernel⟩
  refine List.forall_mem_cons.mpr ⟨?_, List.forall_mem_cons.mpr ⟨?_, List.forall_mem_singleton.mpr ?_⟩⟩
  · exact ⟨by decide +kernel, by decide +kernel, by decide +kernel, by decide +kernel⟩
  · exact ⟨by decide +kernel, by decide +kernel⟩
  · refine ⟨by decide +kernel, by decide +kernel, by decide +kernel, by decide +kernel, fun own hown => ?_⟩
    cases hown

end AneLinux.Fat
