import AneLinux.Support.Python
import AneLinux.Support.Utf8

/-!
# The Mach-O walkers of the tunables extraction

`load_macho_segments` and `filesets` walk over the load commands of a kernel cache and collect the commands of one
kind. The walk stops at an offset that is computed from the number of commands, eight bytes for each, while a command
is as long as it says. What starts past that offset is not seen.
-/

namespace AneLinux.Tunables

open AneLinux.Support

def lcSegment64 : ℕ := 0x19
def lcFilesetEntry : ℕ := 0x80000025

/-- The bytes of a string, one by one. -/
def bytesOf (data : Bytes) : List UInt8 := (List.range data.size).map data.get

/-- `raw.decode()`. -/
def decode (raw : List UInt8) : Py (List Char) :=
  match decodeUtf8 raw with
  | some text => .ok text
  | none => .error .unicodeDecodeError

/-- `raw.rstrip(b"\0")`. -/
def rstripZeros (raw : List UInt8) : List UInt8 := (raw.reverse.dropWhile (· = 0)).reverse

/-- A segment as the walker returns it. -/
structure Segment where
  name : List Char
  vm : ℕ
  msz : ℕ
  fo : ℕ
  fsz : ℕ
deriving DecidableEq, Repr

/-- A fileset entry as the walker returns it. -/
structure FilesetEntry where
  name : List Char
  vmaddr : ℕ
  fileoff : ℕ
deriving DecidableEq, Repr

/-- The bytes of a segment's name. -/
def segmentName (data : Bytes) (off : ℕ) : List UInt8 := rstripZeros (bytesOf (data.slice (off + 8) (off + 24)))

/-- The bytes of a fileset entry's name. -/
def filesetName (data : Bytes) (off : ℕ) : List UInt8 :=
  let idoff := data.u32 (off + 8)
  let idsize := data.u32 (off + 12)
  (bytesOf (data.slice (off + idoff) (off + idoff + idsize))).takeWhile (· ≠ 0)

/-- What `load_macho_segments` reads at a segment command. -/
def segmentAt (data : Bytes) (off : ℕ) : Py Segment := do
  let name ← decode (segmentName data off)
  if off + 24 + 32 ≤ data.size then
    return ⟨name, data.u64 (off + 24), data.u64 (off + 32), data.u64 (off + 40), data.u64 (off + 48)⟩
  else .error .structError

/-- What `filesets` reads at a fileset entry. -/
def filesetAt (data : Bytes) (off : ℕ) : Py FilesetEntry :=
  if off + 8 + 24 ≤ data.size then do
    let name ← decode (filesetName data off)
    return ⟨name, data.u64 (off + 16), data.u64 (off + 24)⟩
  else .error .structError

section Walk

variable {α : Type}

/-- The loop of both walkers, `none` when it does not end: a command of size zero is met again and again. Otherwise
every round gets at least a byte further, and as many rounds as there are bytes are enough. -/
def walkFrom (data : Bytes) (limit kind : ℕ) (readAt : ℕ → Py α) : ℕ → ℕ → Py (Option (List α))
  | 0, _ => .ok none
  | rounds + 1, off =>
    if off < limit ∧ off < data.size then do
      let cmd ← unpackU32 data off
      let csize ← unpackU32 data (off + 4)
      let found ← if cmd = kind then (readAt off).map ([·]) else .ok []
      let rest ← walkFrom data limit kind readAt rounds (off + csize)
      return rest.map (found ++ ·)
    else .ok (some [])

/-- Both walkers: the commands of one kind, with what is read at them. -/
def walkCommands (data : Bytes) (kind : ℕ) (readAt : ℕ → Py α) : Py (Option (List α)) := do
  let ncmds ← unpackU32 data 16
  walkFrom data (32 + ncmds * 8) kind readAt (data.size + 1) 32

end Walk

/-- `load_macho_segments`. -/
def loadMachoSegments (data : Bytes) : Py (Option (List Segment)) := walkCommands data lcSegment64 (segmentAt data)

/-- `filesets`. -/
def filesets (data : Bytes) : Py (Option (List FilesetEntry)) := walkCommands data lcFilesetEntry (filesetAt data)

/-- Whether the file range of a segment holds an offset. -/
def Segment.Holds (seg : Segment) (fo : ℕ) : Prop := seg.fo ≤ fo ∧ fo < seg.fo + seg.fsz

instance (seg : Segment) (fo : ℕ) : Decidable (seg.Holds fo) := inferInstanceAs (Decidable (_ ∧ _))

/-- `off2va`: the address of a file offset and the name of its segment. -/
def off2va (segs : List Segment) (fo : ℕ) : Option (ℕ × List Char) :=
  (segs.find? fun seg => seg.Holds fo).map fun seg => (seg.vm + (fo - seg.fo), seg.name)

/-! ## The load commands of a file -/

/-- The places of consecutive load commands. -/
def commandsFrom (data : Bytes) : ℕ → ℕ → List ℕ
  | 0, _ => []
  | count + 1, off => off :: commandsFrom data count (off + data.u32 (off + 4))

/-- The places of the load commands that the header declares. -/
def loadCommands (data : Bytes) : List ℕ := commandsFrom data (data.u32 16) 32

/-- The places of the load commands of one kind. -/
def commandsOf (data : Bytes) (kind : ℕ) : List ℕ := (loadCommands data).filter fun off => data.u32 off = kind

/-- A header, and load commands inside the data. -/
structure Laid (data : Bytes) : Prop where
  header : 32 ≤ data.size
  commands : ∀ off ∈ loadCommands data, 8 ≤ data.u32 (off + 4) ∧ off + data.u32 (off + 4) ≤ data.size

/-- The offset at which the walkers stop. -/
def walkLimit (data : Bytes) : ℕ := 32 + data.u32 16 * 8

/-- The segment that a command describes. -/
structure IsSegment (data : Bytes) (off : ℕ) (seg : Segment) : Prop where
  inside : off + 56 ≤ data.size
  name : decodeUtf8 (segmentName data off) = some seg.name
  vm : seg.vm = data.u64 (off + 24)
  msz : seg.msz = data.u64 (off + 32)
  fo : seg.fo = data.u64 (off + 40)
  fsz : seg.fsz = data.u64 (off + 48)

/-- The entry that a command describes. -/
structure IsFilesetEntry (data : Bytes) (off : ℕ) (entry : FilesetEntry) : Prop where
  inside : off + 32 ≤ data.size
  name : decodeUtf8 (filesetName data off) = some entry.name
  vmaddr : entry.vmaddr = data.u64 (off + 16)
  fileoff : entry.fileoff = data.u64 (off + 24)

/-- A command starts where the walkers still look, has its fields inside the data, and a name that can be decoded. -/
structure Seen (data : Bytes) (fields : ℕ) (name : ℕ → List UInt8) (off : ℕ) : Prop where
  early : off < walkLimit data
  inside : off + fields ≤ data.size
  decodes : (decodeUtf8 (name off)).isSome

/-- What the two walkers are for: every segment and every fileset entry, in order, and the address of every offset
in the file range of a segment. -/
structure SeesAll (data : Bytes) (segs : List Segment) (entries : List FilesetEntry) : Prop where
  segments : List.Forall₂ (IsSegment data) (commandsOf data lcSegment64) segs
  entries : List.Forall₂ (IsFilesetEntry data) (commandsOf data lcFilesetEntry) entries
  addresses : ∀ fo, ∀ seg ∈ segs, seg.Holds fo → ∃ before first after, segs = before ++ first :: after ∧
    (∀ earlier ∈ before, ¬ earlier.Holds fo) ∧ first.Holds fo ∧
      off2va segs fo = some (first.vm + (fo - first.fo), first.name)

variable {data : Bytes} {off : ℕ}

theorem decode_eq_ok {raw : List UInt8} {text : List Char} : decode raw = .ok text ↔ decodeUtf8 raw = some text := by
  rw [decode]
  split
  · next found hfound =>
    rw [hfound, Except.ok.injEq, Option.some.injEq]
  · next hfound =>
    rw [hfound]
    constructor <;> intro h <;> cases h

/-- A segment is read where one lies. -/
theorem segmentAt_eq_ok {seg : Segment} : segmentAt data off = .ok seg ↔ IsSegment data off seg := by
  rw [segmentAt, bind_eq_ok]
  constructor
  · rintro ⟨name, hname, h⟩
    split at h
    · next hinside =>
      cases h
      exact ⟨hinside, decode_eq_ok.mp hname, rfl, rfl, rfl, rfl⟩
    · cases h
  · intro h
    refine ⟨seg.name, decode_eq_ok.mpr h.name, ?_⟩
    rw [if_pos h.inside, ← h.vm, ← h.msz, ← h.fo, ← h.fsz]
    rfl

/-- So is an entry of the file set. -/
theorem filesetAt_eq_ok {entry : FilesetEntry} : filesetAt data off = .ok entry ↔ IsFilesetEntry data off entry := by
  rw [filesetAt]
  split
  · next hinside =>
    rw [bind_eq_ok]
    constructor
    · rintro ⟨name, hname, h⟩
      cases h
      exact ⟨hinside, decode_eq_ok.mp hname, rfl, rfl⟩
    · intro h
      refine ⟨entry.name, decode_eq_ok.mpr h.name, ?_⟩
      rw [← h.vmaddr, ← h.fileoff]
      rfl
  · next hinside =>
    constructor
    · intro h
      cases h
    · intro h
      exact (hinside h.inside).elim

/-! ## What the walk sees -/

theorem le_of_mem_commandsFrom {count next : ℕ} (h : next ∈ commandsFrom data count off) : off ≤ next := by
  induction count generalizing off with
  | zero => cases h
  | succ count ih =>
    obtain rfl | h := List.mem_cons.mp h
    · exact le_rfl
    · have := ih h
      omega

variable {α : Type} {readAt : ℕ → Py α} {kind : ℕ}

/-- The walk reads the commands of its kind that start below the limit. The limit is reached after the last command at
the latest, since a command has eight bytes or more. -/
theorem walkFrom_eq {limit count rounds : ℕ}
    (hcommands : ∀ next ∈ commandsFrom data count off, 8 ≤ data.u32 (next + 4) ∧ next + data.u32 (next + 4) ≤ data.size)
    (hlimit : limit ≤ off + 8 * count) (hrounds : count < rounds) :
    walkFrom data limit kind readAt rounds off =
      (((commandsFrom data count off).filter fun next => data.u32 next = kind ∧ next < limit).mapM
        readAt).map some := by
  induction count generalizing off rounds with
  | zero =>
    obtain ⟨rounds, rfl⟩ := Nat.exists_eq_add_of_lt hrounds
    rw [Nat.zero_add, walkFrom, if_neg (by omega)]
    rfl
  | succ count ih =>
    obtain ⟨rounds, rfl⟩ := Nat.exists_eq_succ_of_ne_zero (by omega : rounds ≠ 0)
    rw [walkFrom, commandsFrom]
    rw [commandsFrom] at hcommands
    obtain ⟨⟨hsize, hinside⟩, hrest⟩ := List.forall_mem_cons.mp hcommands
    by_cases hoff : off < limit
    · have hcmd : unpackU32 data off = .ok (data.u32 off) := if_pos (by omega)
      have hcsize : unpackU32 data (off + 4) = .ok (data.u32 (off + 4)) := if_pos (by omega)
      rw [if_pos ⟨hoff, by omega⟩, hcmd, hcsize]
      simp only [ok_bind]
      rw [ih hrest (by omega) (by omega)]
      by_cases hkind : data.u32 off = kind
      · rw [if_pos hkind, List.filter_cons_of_pos (by simpa using ⟨hkind, hoff⟩), List.mapM_cons]
        cases readAt off with
        | error error => rfl
        | ok found =>
          cases List.mapM readAt _ <;> rfl
      · rw [if_neg hkind, List.filter_cons_of_neg (by simp [hkind])]
        cases List.mapM readAt _ <;> rfl
    · have hnone : (off :: commandsFrom data count (off + data.u32 (off + 4))).filter
          (fun next => data.u32 next = kind ∧ next < limit) = [] := by
        refine List.filter_eq_nil_iff.mpr fun next hnext => ?_
        have hle : off ≤ next := le_of_mem_commandsFrom (show next ∈ commandsFrom data (count + 1) off from hnext)
        simp only [decide_eq_true_eq, not_and]
        omega
      rw [if_neg (by omega), hnone]
      rfl

/-- The walk reads the commands before its limit. -/
theorem walkCommands_eq (h : Laid data) :
    walkCommands data kind readAt =
      (((commandsOf data kind).filter (· < walkLimit data)).mapM readAt).map some := by
  have hncmds : unpackU32 data 16 = .ok (data.u32 16) := if_pos (by have := h.header; omega)
  have hfilter : (commandsOf data kind).filter (· < walkLimit data) =
      (loadCommands data).filter fun next => data.u32 next = kind ∧ next < walkLimit data := by
    rw [commandsOf, List.filter_filter]
    congr 1
    funext next
    simp [and_comm]
  have hcount (count off : ℕ) (hoff : off ≤ data.size)
      (h : ∀ next ∈ commandsFrom data count off, 8 ≤ data.u32 (next + 4) ∧ next + data.u32 (next + 4) ≤ data.size) :
      off + 8 * count ≤ data.size := by
    induction count generalizing off with
    | zero => simpa using hoff
    | succ count ih =>
      obtain ⟨hfirst, hrest⟩ := List.forall_mem_cons.mp h
      have := ih _ hfirst.2 hrest
      omega
  have hsize := hcount (data.u32 16) 32 h.header h.commands
  rw [walkCommands, hncmds, ok_bind, hfilter, walkLimit]
  exact walkFrom_eq h.commands (by omega) (by omega)

/-- A walker returns every command of its kind exactly if each starts before the limit and can be read. -/
theorem walkCommands_complete_iff (h : Laid data) :
    (∃ found, walkCommands data kind readAt = .ok (some found) ∧
        List.Forall₂ (fun off a => readAt off = .ok a) (commandsOf data kind) found) ↔
      ∀ off ∈ commandsOf data kind, off < walkLimit data ∧ ∃ a, readAt off = .ok a := by
  have hwalk (found : List α) : walkCommands data kind readAt = .ok (some found) ↔
      List.Forall₂ (fun off a => readAt off = .ok a) ((commandsOf data kind).filter (· < walkLimit data)) found := by
    rw [walkCommands_eq h, ← mapM_eq_ok]
    cases List.mapM readAt _ with
    | error error => simp [Except.map]
    | ok values => simp [Except.map]
  constructor
  · rintro ⟨found, hfound, hall⟩ off hoff
    have hlen := ((hwalk found).mp hfound).length_eq.trans hall.length_eq.symm
    have hearly := List.length_filter_eq_length_iff.mp hlen off hoff
    obtain ⟨a, -, ha⟩ := exists_related hall hoff
    exact ⟨by simpa using hearly, a, ha⟩
  · intro hall
    have hreads : Meets ((commandsOf data kind).mapM readAt) (fun _ => True) (fun _ => False) := by
      refine Meets.mapM readAt _ fun off hoff => ?_
      obtain ⟨a, ha⟩ := (hall off hoff).2
      rw [ha]
      trivial
    cases hfound : (commandsOf data kind).mapM readAt with
    | error error => exact (hreads.error hfound).elim
    | ok found =>
      refine ⟨found, (hwalk found).mpr ?_, mapM_eq_ok.mp hfound⟩
      rw [List.filter_eq_self.mpr fun off hoff => by simpa using (hall off hoff).1]
      exact mapM_eq_ok.mp hfound

/-- The address of an offset comes from the first segment that holds it. -/
theorem off2va_eq {segs : List Segment} {seg : Segment} {fo : ℕ} (hseg : seg ∈ segs) (hfo : seg.Holds fo) :
    ∃ before first after, segs = before ++ first :: after ∧ (∀ earlier ∈ before, ¬ earlier.Holds fo) ∧
      first.Holds fo ∧ off2va segs fo = some (first.vm + (fo - first.fo), first.name) := by
  have hsome : (segs.find? fun seg => seg.Holds fo).isSome := List.find?_isSome.mpr ⟨seg, hseg, by simpa using hfo⟩
  obtain ⟨first, hfirst⟩ := Option.isSome_iff_exists.mp hsome
  obtain ⟨hholds, before, after, hsplit, hbefore⟩ := List.find?_eq_some_iff_append.mp hfirst
  refine ⟨before, first, after, hsplit, fun earlier hearlier => by simpa using hbefore earlier hearlier,
    by simpa using hholds, ?_⟩
  rw [off2va, hfirst]
  rfl

/-- Where a segment lies. -/
theorem exists_isSegment_iff : (∃ seg, IsSegment data off seg) ↔
    off + 56 ≤ data.size ∧ (decodeUtf8 (segmentName data off)).isSome := by
  constructor
  · rintro ⟨seg, h⟩
    exact ⟨h.inside, Option.isSome_iff_exists.mpr ⟨_, h.name⟩⟩
  · rintro ⟨hinside, hname⟩
    obtain ⟨name, hname⟩ := Option.isSome_iff_exists.mp hname
    exact ⟨⟨name, _, _, _, _⟩, hinside, hname, rfl, rfl, rfl, rfl⟩

/-- Where an entry lies. -/
theorem exists_isFilesetEntry_iff : (∃ entry, IsFilesetEntry data off entry) ↔
    off + 32 ≤ data.size ∧ (decodeUtf8 (filesetName data off)).isSome := by
  constructor
  · rintro ⟨entry, h⟩
    exact ⟨h.inside, Option.isSome_iff_exists.mpr ⟨_, h.name⟩⟩
  · rintro ⟨hinside, hname⟩
    obtain ⟨name, hname⟩ := Option.isSome_iff_exists.mp hname
    exact ⟨⟨name, _, _⟩, hinside, hname, rfl, rfl⟩

/-- The walkers see every load command exactly if each segment command and each fileset entry starts before the limit,
has its fields inside the data and a name that can be decoded. -/
theorem walkers_see_all_iff (data : Bytes) (h : Laid data) :
    (∃ segs entries, loadMachoSegments data = .ok (some segs) ∧ filesets data = .ok (some entries) ∧
        SeesAll data segs entries) ↔
      (∀ off ∈ commandsOf data lcSegment64, Seen data 56 (segmentName data) off) ∧
        ∀ off ∈ commandsOf data lcFilesetEntry, Seen data 32 (filesetName data) off := by
  have hsegments : (∃ found, walkCommands data lcSegment64 (segmentAt data) = .ok (some found) ∧ _) ↔ _ :=
    walkCommands_complete_iff h
  have hentries : (∃ found, walkCommands data lcFilesetEntry (filesetAt data) = .ok (some found) ∧ _) ↔ _ :=
    walkCommands_complete_iff h
  simp only [segmentAt_eq_ok, exists_isSegment_iff] at hsegments
  simp only [filesetAt_eq_ok, exists_isFilesetEntry_iff] at hentries
  constructor
  · rintro ⟨segs, entries, hsegs, hfilesets, hall⟩
    exact ⟨fun off hoff => let ⟨hearly, hinside, hname⟩ := hsegments.mp ⟨segs, hsegs, hall.segments⟩ off hoff
        ⟨hearly, hinside, hname⟩,
      fun off hoff => let ⟨hearly, hinside, hname⟩ := hentries.mp ⟨entries, hfilesets, hall.entries⟩ off hoff
        ⟨hearly, hinside, hname⟩⟩
  · rintro ⟨hseg, hfileset⟩
    obtain ⟨segs, hsegs, hsegsAll⟩ := hsegments.mpr fun off hoff =>
      ⟨(hseg off hoff).early, (hseg off hoff).inside, (hseg off hoff).decodes⟩
    obtain ⟨entries, hfilesets, hentriesAll⟩ := hentries.mpr fun off hoff =>
      ⟨(hfileset off hoff).early, (hfileset off hoff).inside, (hfileset off hoff).decodes⟩
    exact ⟨segs, entries, hsegs, hfilesets, hsegsAll, hentriesAll, fun fo seg hseg hfo => off2va_eq hseg hfo⟩

/-- Two segment commands of 72 bytes, one behind the other: the second one maps the offsets from 0x4000. -/
def twoSegments : Bytes :=
  Bytes.ofFields 176 [(16, 2), (32, 0x19), (36, 72), (40, 0x41), (56, 0x8000), (64, 0x4000), (80, 0x4000),
    (104, 0x19), (108, 72), (112, 0x42), (128, 0xC000), (136, 0x4000), (144, 0x4000), (152, 0x4000)]

theorem laid_twoSegments : Laid twoSegments := ⟨by decide, by decide +kernel⟩

/-- The second segment is not seen, and its offsets have no address. -/
theorem walkers_miss_segment :
    Laid twoSegments ∧ commandsOf twoSegments lcSegment64 = [32, 104] ∧
      loadMachoSegments twoSegments = .ok (some [⟨['A'], 0x8000, 0x4000, 0, 0x4000⟩]) ∧
      IsSegment twoSegments 104 ⟨['B'], 0xC000, 0x4000, 0x4000, 0x4000⟩ ∧
      off2va [⟨['A'], 0x8000, 0x4000, 0, 0x4000⟩] 0x4000 = none ∧
      ¬ ∃ segs entries, loadMachoSegments twoSegments = .ok (some segs) ∧ filesets twoSegments = .ok (some entries) ∧
        SeesAll twoSegments segs entries := by
  have hcommands : commandsOf twoSegments lcSegment64 = [32, 104] := by decide +kernel
  have hwalk : loadMachoSegments twoSegments = .ok (some [⟨['A'], 0x8000, 0x4000, 0, 0x4000⟩]) := by decide +kernel
  refine ⟨laid_twoSegments, hcommands, hwalk, ⟨?_, ?_, ?_, ?_, ?_, ?_⟩, by decide +kernel, ?_⟩
  iterate 6 decide +kernel
  rintro ⟨segs, entries, hsegs, -, hall⟩
  have hlen := hall.segments.length_eq
  rw [hwalk] at hsegs
  cases hsegs
  rw [hcommands] at hlen
  cases hlen

/-- Two segment commands and two fileset entries in front of twenty commands of eight bytes. -/
def shortTail : Bytes :=
  Bytes.ofFields 416 ([(16, 24), (32, 0x19), (36, 72), (40, 0x41), (56, 0x8000), (64, 0x4000), (80, 0x4000),
    (104, 0x19), (108, 72), (112, 0x42), (128, 0xC000), (136, 0x4000), (144, 0x4000), (152, 0x4000),
    (176, 0x80000025), (180, 40), (184, 32), (188, 8), (192, 0x8000), (208, 0x43),
    (216, 0x80000025), (220, 40), (224, 32), (228, 8), (232, 0xC000), (240, 0x4000), (248, 0x44)] ++
    (List.range 20).map fun i => (260 + 8 * i, 8))

/-- The four commands in front are all seen: as many short ones follow as the limit needs to lie behind them. -/
theorem walkers_see_all_iff_shortTail : ∃ segs entries, loadMachoSegments shortTail = .ok (some segs) ∧
    filesets shortTail = .ok (some entries) ∧ SeesAll shortTail segs entries := by
  have hlaid : Laid shortTail := ⟨by decide, by decide +kernel⟩
  have hsegments : commandsOf shortTail lcSegment64 = [32, 104] := by decide +kernel
  have hentries : commandsOf shortTail lcFilesetEntry = [176, 216] := by decide +kernel
  refine (walkers_see_all_iff shortTail hlaid).mpr ⟨fun off hoff => ?_, fun off hoff => ?_⟩
  · rw [hsegments] at hoff
    rcases List.mem_pair.mp hoff with rfl | rfl <;> exact ⟨by decide +kernel, by decide, by decide +kernel⟩
  · rw [hentries] at hoff
    rcases List.mem_pair.mp hoff with rfl | rfl <;> exact ⟨by decide +kernel, by decide, by decide +kernel⟩

end AneLinux.Tunables
