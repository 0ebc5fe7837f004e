import AneLinux.Hwx.Registers
import AneLinux.Support.StructCodec
import Mathlib.Data.List.Induction

/-!
# Register records round trip

A task descriptor is its header, the extra word that header word 9 may announce, and records. A
record is written as one header word and its values. Decoding the written records gives back their
assignments, the last writer of a register winning, whether the descriptor ends behind them or a
zero word stands there with anything after it. On any other byte string the decoder raises exactly
for a short header or for a record that runs past the end.
-/

namespace AneLinux.Hwx

open AneLinux.Support

/-- `stream_header`: the header word of a record. -/
def streamHeader (hwAddr numWords : ℕ) : ℕ := (numWords - 1) <<< 26 ||| hwAddr

/-- A record that the stream can state: its address, its values, and their ranges. -/
structure RegisterRecord where
  address : ℕ
  values : List ℕ
  address_lt : address < 2 ^ 26
  values_pos : 1 ≤ values.length
  values_le : values.length ≤ 64
  value_lt : ∀ value ∈ values, value < 2 ^ 32
  header_ne : streamHeader address values.length ≠ 0

/-- Little-endian words, one after the other. -/
def encodeWords : List ℕ → Bytes
  | [] => .empty
  | word :: rest => .ofNat 4 word ++ encodeWords rest

/-- The words of a record. -/
def RegisterRecord.words (r : RegisterRecord) : List ℕ := streamHeader r.address r.values.length :: r.values

/-- The records of a descriptor, then its end, or a zero word and anything. -/
def encodeRecords (rest : Option Bytes) : List RegisterRecord → Bytes
  | [] => match rest with
    | none => .empty
    | some rest => encodeWords [0] ++ rest
  | r :: records => encodeWords r.words ++ encodeRecords rest records

/-- A written descriptor; the extra word is there exactly when header word 9 announces it. -/
structure EncodedTask where
  header : Bytes
  extra : Bytes
  records : List RegisterRecord
  rest : Option Bytes
  header_size : header.size = 40
  extra_size : extra.size = if header.u32 36 &&& 0x3 = 0x3 then 4 else 0

/-- The bytes of a written descriptor. -/
def EncodedTask.bytes (task : EncodedTask) : Bytes :=
  task.header ++ task.extra ++ encodeRecords task.rest task.records

/-- The register assignments of a record: consecutive values go to consecutive registers. -/
def RegisterRecord.assignments (r : RegisterRecord) : List (ℕ × ℕ) :=
  r.values.mapIdx fun i value => (r.address + 4 * i, value)

/-- The register assignments of a descriptor, in order. -/
def EncodedTask.assignments (task : EncodedTask) : List (ℕ × ℕ) :=
  task.records.flatMap RegisterRecord.assignments

/-- The map in which the last assignment of a register wins. -/
def lastWriter (assignments : List (ℕ × ℕ)) : Registers := fun register => find assignments.reverse register

/-- From a record whose header is not zero the decoder goes on to the next one. -/
def NextRecord (td : Bytes) (p q : ℕ) : Prop :=
  p + 4 ≤ td.size ∧ td.u32 p ≠ 0 ∧ q = p + 4 + 4 * recordCount (td.u32 p)

/-- The decoder reaches a position before any zero header. -/
def ReachesRecord (td : Bytes) (p : ℕ) : Prop := Relation.ReflTransGen (NextRecord td) (firstRecord td) p

/-- The record at a position runs past the end of the descriptor. -/
def RunsPast (td : Bytes) (p : ℕ) : Prop :=
  p + 4 ≤ td.size ∧ td.u32 p ≠ 0 ∧ td.size < p + 4 + 4 * recordCount (td.u32 p)

/-! ## Words and headers -/

@[simp] theorem size_encodeWords (words : List ℕ) : (encodeWords words).size = 4 * words.length := by
  induction words with
  | nil => rfl
  | cons word rest ih =>
    rw [encodeWords, Bytes.size_append, ih, List.length_cons]
    simp only [Bytes.ofNat, Bytes.size_ofFn]
    omega

/-- A written word reads back at its place. -/
theorem u32_encodeWords {words : List ℕ} (front back : Bytes) (h : ∀ word ∈ words, word < 2 ^ 32) {i : ℕ}
    (hi : i < words.length) : (front ++ (encodeWords words ++ back)).u32 (front.size + 4 * i) = words[i] := by
  induction words generalizing front i with
  | nil => cases hi
  | cons word rest ih =>
    have hword : word < 2 ^ 32 := h word List.mem_cons_self
    cases i with
    | zero =>
      rw [encodeWords, Bytes.append_assoc, Nat.mul_zero, Bytes.u32, leNat_append_right,
        leNat_append_left _ _ (by simp [Bytes.ofNat]), leNat_ofNat _ _ _ _ (by omega)]
      simpa using Nat.mod_eq_of_lt hword
    | succ i =>
      have hrest := ih (front ++ .ofNat 4 word) (fun w hw => h w (List.mem_cons_of_mem word hw))
        (Nat.lt_of_succ_lt_succ hi)
      have hplace : front.size + 4 * (i + 1) = (front ++ Bytes.ofNat 4 word).size + 4 * i := by
        simp only [Bytes.size_append, Bytes.ofNat, Bytes.size_ofFn]
        omega
      rw [encodeWords, Bytes.append_assoc, ← Bytes.append_assoc front, hplace, hrest, List.getElem_cons_succ]

section Header

variable (r : RegisterRecord)

theorem streamHeader_eq_add {address count : ℕ} (h : address < 2 ^ 26) :
    streamHeader address count = (count - 1) * 2 ^ 26 + address := by
  rw [streamHeader, ← Nat.shiftLeft_add_eq_or_of_lt h, Nat.shiftLeft_eq]

theorem RegisterRecord.recordRegister_header :
    recordRegister (streamHeader r.address r.values.length) = r.address := by
  have haddress := r.address_lt
  have hmask : 0x3FFFFFF = 2 ^ 26 - 1 := rfl
  rw [recordRegister, hmask, Nat.and_two_pow_sub_one_eq_mod, streamHeader_eq_add haddress]
  omega

theorem RegisterRecord.recordCount_header :
    recordCount (streamHeader r.address r.values.length) = r.values.length := by
  have haddress := r.address_lt
  have hpos := r.values_pos
  rw [recordCount, Nat.shiftRight_eq_div_pow, streamHeader_eq_add haddress]
  omega

theorem RegisterRecord.word_lt : ∀ word ∈ r.words, word < 2 ^ 32 := by
  intro word hword
  have haddress := r.address_lt
  have hlength := r.values_le
  rcases List.mem_cons.mp hword with rfl | hvalue
  · rw [streamHeader_eq_add haddress]
    omega
  · exact r.value_lt word hvalue

end Header

/-! ## Decoding what was written -/

/-- The assignment behind a write. -/
def Write.assignment (w : Write) : ℕ × ℕ := (w.address, w.value)

theorem Record.map_assignment_writes (position : ℕ) (r : RegisterRecord) :
    (Record.mk position r.address r.values).writes.map Write.assignment = r.assignments := by
  apply List.ext_getElem
  · simp [Record.writes, RegisterRecord.assignments]
  · intro i h1 h2
    simp [Record.writes, RegisterRecord.assignments, Write.assignment]

/-- Behind any front the walk reads the written records and stops at their end. -/
theorem walkRecords_encoded (front : Bytes) (records : List RegisterRecord) (rest : Option Bytes) {d : Bytes}
    (hd : d = front ++ encodeRecords rest records) :
    (walkRecords d.u32 d.size front.size).reason ≠ .truncated ∧
      (walkRecords d.u32 d.size front.size).writes.map Write.assignment =
        records.flatMap RegisterRecord.assignments := by
  induction records generalizing front with
  | nil =>
    rw [walkRecords]
    cases rest with
    | none =>
      have hsize : d.size = front.size := by simp [hd, encodeRecords]
      rw [if_neg (by omega)]
      exact ⟨by simp, rfl⟩
    | some rest =>
      have hzero : d.u32 front.size = 0 := by
        rw [hd]
        exact @u32_encodeWords [0] front rest (by simp) 0 Nat.zero_lt_one
      split_ifs
      · exact ⟨by simp, rfl⟩
      · exact ⟨by simp, rfl⟩
  | cons r records ih =>
    have hsplit : d = front ++ (encodeWords r.words ++ encodeRecords rest records) := hd
    have hwords : r.words.length = r.values.length + 1 := List.length_cons
    have hword {i : ℕ} (hi : i < r.words.length) : d.u32 (front.size + 4 * i) = r.words[i] := by
      rw [hsplit]
      exact u32_encodeWords front _ r.word_lt hi
    have hheader : d.u32 front.size = streamHeader r.address r.values.length := hword (i := 0) (by omega)
    have hsize : front.size + 4 + 4 * r.values.length ≤ d.size := by
      rw [hsplit, Bytes.size_append, Bytes.size_append, size_encodeWords, hwords]
      omega
    have hvalues : ((List.range r.values.length).map fun i => d.u32 (front.size + 4 + 4 * i)) = r.values := by
      apply List.ext_getElem
      · simp
      · intro i h1 h2
        have hplace : front.size + 4 + 4 * i = front.size + 4 * (i + 1) := by ring
        rw [List.getElem_map, List.getElem_range, hplace, hword (by omega)]
        rfl
    have hnext : (front ++ encodeWords r.words).size = front.size + 4 + 4 * r.values.length := by
      rw [Bytes.size_append, size_encodeWords, hwords]
      ring
    obtain ⟨hreason, hwrites⟩ := ih (front ++ encodeWords r.words) (by rw [hsplit, Bytes.append_assoc])
    rw [hnext] at hreason hwrites
    rw [walkRecords, if_pos (by omega), if_neg (by rw [hheader]; exact r.header_ne), hheader,
      r.recordCount_header, if_neg (by omega), r.recordRegister_header, hvalues]
    refine ⟨hreason, ?_⟩
    rw [List.flatMap_cons, ← hwrites, ← Record.map_assignment_writes front.size r, ← List.map_append]
    rfl

/-- Performing assignments in order leaves the last writer of every register. -/
theorem storeAll_eq_lastWriter (ws : List Write) :
    Registers.storeAll (fun _ => none) ws = lastWriter (ws.map Write.assignment) := by
  induction ws using List.reverseRecOn with
  | nil => rfl
  | append_singleton ws w ih =>
    funext register
    have hlast : lastWriter ((ws ++ [w]).map Write.assignment) register =
        if w.address = register then some w.value else lastWriter (ws.map Write.assignment) register := by
      rw [lastWriter, List.map_append, List.reverse_append]
      rfl
    have hstore : (lastWriter (ws.map Write.assignment)).storeAll [w] register =
        if register = w.address then some w.value else lastWriter (ws.map Write.assignment) register :=
      Function.update_apply ..
    rw [storeAll_append, ih, hlast, hstore]
    exact if_congr eq_comm rfl rfl

/-- The first record of a written descriptor lies behind its header and extra word. -/
theorem firstRecord_bytes (task : EncodedTask) :
    40 ≤ task.bytes.size ∧ firstRecord task.bytes = (task.header ++ task.extra).size := by
  have hheader := task.header_size
  have hword : task.bytes.u32 36 = task.header.u32 36 := by
    rw [EncodedTask.bytes, Bytes.append_assoc]
    exact leNat_append_left _ _ (by omega)
  refine ⟨?_, ?_⟩
  · rw [EncodedTask.bytes, Bytes.size_append, Bytes.size_append]
    omega
  · rw [firstRecord, hword, Bytes.size_append, hheader, task.extra_size]
    split_ifs
    · rfl
    · rfl

theorem walkRegisters_bytes (task : EncodedTask) :
    walkRegisters task.bytes = .ok (lastWriter task.assignments) := by
  obtain ⟨hsize, hfirst⟩ := firstRecord_bytes task
  obtain ⟨hreason, hwrites⟩ := walkRecords_encoded (task.header ++ task.extra) task.records task.rest
    (show task.bytes = _ from rfl)
  rw [walkRegisters_eq hsize, hfirst, strictResult, if_neg hreason, storeAll_eq_lastWriter, hwrites]
  rfl

/-! ## Decoding anything -/

/-- A walk is truncated exactly when it reaches a record that runs past the end. -/
theorem walkRecords_truncated_iff (td : Bytes) (pos : ℕ) :
    (walkRecords td.u32 td.size pos).reason = .truncated ↔
      ∃ p, Relation.ReflTransGen (NextRecord td) pos p ∧ RunsPast td p := by
  fun_induction walkRecords td.u32 td.size pos with
  | case1 pos hle hzero =>
    refine ⟨fun h => (by cases h), ?_⟩
    rintro ⟨p, hpath, hpast⟩
    rcases Relation.ReflTransGen.cases_head hpath with rfl | ⟨q, hstep, -⟩
    · exact absurd hzero hpast.2.1
    · exact absurd hzero hstep.2.1
  | case2 pos hle hzero hcut =>
    exact ⟨fun _ => ⟨pos, Relation.ReflTransGen.refl, hle, hzero, hcut⟩, fun _ => rfl⟩
  | case3 pos hle hzero hfit rest ih =>
    refine ih.trans ⟨?_, ?_⟩
    · rintro ⟨p, hpath, hpast⟩
      exact ⟨p, Relation.ReflTransGen.head ⟨hle, hzero, rfl⟩ hpath, hpast⟩
    · rintro ⟨p, hpath, hpast⟩
      rcases Relation.ReflTransGen.cases_head hpath with rfl | ⟨q, ⟨-, -, rfl⟩, hrest⟩
      · exact absurd hpast.2.2 hfit
      · exact ⟨p, hrest, hpast⟩
  | case4 pos hle =>
    refine ⟨fun h => (by cases h), ?_⟩
    rintro ⟨p, hpath, hpast⟩
    rcases Relation.ReflTransGen.cases_head hpath with rfl | ⟨q, hstep, -⟩
    · exact absurd hpast.1 hle
    · exact absurd hstep.1 hle

theorem walkRegisters_error_iff (td : Bytes) :
    (∃ message, walkRegisters td = .error (.valueError message)) ↔
      td.size < 40 ∨ ∃ p, ReachesRecord td p ∧ RunsPast td p := by
  by_cases hsize : td.size < 40
  · refine ⟨fun _ => Or.inl hsize, fun _ => ?_⟩
    have hshort : extraHeaderBytes td = raiseValue "task descriptor is shorter than the H13 header" := if_pos hsize
    rw [walkRegisters, hshort]
    exact ⟨_, rfl⟩
  · rw [walkRegisters_eq (by omega), strictResult, or_iff_right hsize]
    refine Iff.trans ?_ (walkRecords_truncated_iff td (firstRecord td))
    split_ifs with hreason
    · exact ⟨fun _ => hreason, fun _ => ⟨_, rfl⟩⟩
    · refine ⟨fun hok => ?_, fun h => absurd h hreason⟩
      obtain ⟨message, h⟩ := hok
      cases h

/-- Decoding inverts encoding: a written descriptor decodes to the map of its last writers, and a
byte string is rejected with a value error exactly when it is shorter than the header or a record
reached before a zero header runs past its end. -/
theorem walkRegisters_inverts :
    (∀ task : EncodedTask, walkRegisters task.bytes = .ok (lastWriter task.assignments)) ∧
      ∀ td : Bytes, (∃ message, walkRegisters td = .error (.valueError message)) ↔
        td.size < 40 ∨ ∃ p, ReachesRecord td p ∧ RunsPast td p :=
  ⟨walkRegisters_bytes, walkRegisters_error_iff⟩

/-- One record of one value behind an extra word. -/
def extraWordTask : EncodedTask where
  header := .ofFields 40 [(36, 0x23)]
  extra := .zeros 4
  records := [⟨0x13810, [1792], by decide, by decide, by decide, by decide, by decide⟩]
  rest := none
  header_size := rfl
  extra_size := by decide +kernel

example : (walkRegisters extraWordTask.bytes).map (fun registers => registers 0x13810) = .ok (some 1792) := by
  rw [walkRegisters_bytes]
  rfl

end AneLinux.Hwx
