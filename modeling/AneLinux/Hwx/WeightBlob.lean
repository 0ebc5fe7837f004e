import AneLinux.Hwx.Image
import AneLinux.Support.StructCodec

/-!
# Weight blob files

A weight blob file is a header, a run of metadata records and the payloads. The reader takes the offset of a payload
from the one record that names a payload of the wanted size; it compares it with the end of that record alone. The
writer of the capture tool makes a blob of one record, and what its payload looks like never matters: a record inside
the payload would name one that does not fit into the file.
-/

namespace AneLinux.Hwx

open AneLinux.Support

variable {blob payload : Bytes} {size index offset : ℕ}

/-! ## The run of records -/

/-- Where a record ends. -/
def recordEnd (index : ℕ) : ℕ := blobHeaderSize + blobRecordSize * (index + 1)

/-- The records of the run from one of them on. -/
def recordsFrom (blob : Bytes) (index : ℕ) : List ℕ :=
  if recordEnd index ≤ blob.size ∧ blob.u32 (blobHeaderSize + blobRecordSize * index) = blobSentinel then
    index :: recordsFrom blob (index + 1)
  else []
termination_by blob.size - index
decreasing_by
  simp only [recordEnd, blobRecordSize] at *
  omega

/-- A record states that a payload of `size` bytes lies behind it and inside the file. -/
def Names (blob : Bytes) (size index : ℕ) : Prop :=
  blob.u64 (blobHeaderSize + blobRecordSize * index + 0x08) = size ∧ recordEnd index ≤ recordPayload blob index ∧
    recordPayload blob index + size ≤ blob.size

instance : Decidable (Names blob size index) := inferInstanceAs (Decidable (_ ∧ _))

/-- The matches are the payloads of the records that name one. -/
theorem blobMatches_eq : blobMatches blob size (blobHeaderSize + blobRecordSize * index) =
    .ok (((recordsFrom blob index).filter fun i => Names blob size i).map (recordPayload blob)) := by
  have hnext (index : ℕ) : blobHeaderSize + blobRecordSize * index + blobRecordSize = recordEnd index := by
    rw [recordEnd]
    ring
  fun_induction recordsFrom blob index with
  | case1 index hrecord ih =>
    have hroom := hrecord.1
    rw [← hnext] at hroom
    have hin : blobHeaderSize + blobRecordSize * index + 0x40 ≤ blob.size := hroom
    rw [blobMatches, if_pos hroom, unpackU32_of_le (by omega), ok_bind, if_neg (not_not.mpr hrecord.2),
      unpackU64_of_le (by omega), ok_bind, unpackU64_of_le (by omega), ok_bind, hnext, recordEnd, ih, ok_bind,
      List.filter_cons]
    by_cases hnames : Names blob size index
    · rw [if_pos (decide_eq_true hnames)]
      exact congrArg Except.ok (if_pos hnames)
    · rw [if_neg (ne_true_of_eq_false (decide_eq_false hnames))]
      exact congrArg Except.ok (if_neg hnames)
  | case2 index hrecord =>
    rw [blobMatches]
    split_ifs with hroom
    · have hin : blobHeaderSize + blobRecordSize * index + 0x40 ≤ blob.size := hroom
      have hsentinel := fun heq => hrecord ⟨hnext index ▸ hroom, heq⟩
      rw [unpackU32_of_le (by omega), ok_bind, if_pos hsentinel]
      rfl
    · rfl

/-- A payload offset is chosen when one record of the run, and no other, names a payload of that size. -/
theorem blobPayloadOffset_eq_ok : blobPayloadOffset blob size = .ok offset ↔
    ∃ i, ((recordsFrom blob 0).filter fun i => Names blob size i) = [i] ∧ recordPayload blob i = offset := by
  have hmatches := @blobMatches_eq blob size 0
  rw [Nat.mul_zero, Nat.add_zero] at hmatches
  rw [blobPayloadOffset, hmatches, ok_bind]
  generalize ((recordsFrom blob 0).filter fun i => Names blob size i) = named
  match named with
  | [] => exact ⟨fun h => (by cases h), fun ⟨i, hi, _⟩ => (by cases hi)⟩
  | [i] =>
    refine ⟨fun h => ⟨i, rfl, Except.ok.inj h⟩, fun ⟨j, hj, hoffset⟩ => ?_⟩
    obtain rfl := (List.cons.inj hj).1
    exact congrArg Except.ok hoffset
  | i :: j :: rest => exact ⟨fun h => (by cases h), fun ⟨k, hk, _⟩ => (by cases hk)⟩

/-! ## The capture tool -/

/-- `build_weights`. -/
def buildWeights (payload : Bytes) : Py Bytes := do
  let header ← pack [(4, 1), (4, 2)]
  let record ← pack [(4, 0xDEADBEEF), (4, 1), (8, payload.size), (8, 0), (8, 128)]
  return (header ++ Bytes.zeros 56) ++ (record ++ Bytes.zeros 32) ++ payload

theorem buildWeights_eq_ok (h : buildWeights payload = .ok blob) :
    blob.size = 128 + payload.size ∧ blob.u32 0x40 = blobSentinel ∧ blob.u64 0x48 = payload.size ∧
      blob.u64 0x58 = 128 ∧ ∀ i, blob.get (128 + i) = payload.get i := by
  obtain ⟨header, hheader, h⟩ := bind_eq_ok.mp h
  obtain ⟨record, hrecord, h⟩ := bind_eq_ok.mp h
  obtain rfl := Except.ok.inj h
  have hheaderSize : header.size = 8 := (pack_eq_ok hheader).1
  obtain ⟨hrecordSize, hwords, -⟩ := pack_eq_ok hrecord
  replace hrecordSize : record.size = 32 := hrecordSize
  have hfront : (header ++ Bytes.zeros 56).size = 64 := by rw [Bytes.size_append, hheaderSize, Bytes.size_zeros]
  have hback : (record ++ Bytes.zeros 32).size = 64 := by rw [Bytes.size_append, hrecordSize, Bytes.size_zeros]
  -- A word of the record stands in the file behind the header.
  have hword {offset width : ℕ} (hin : offset + width ≤ 32) :
      ((header ++ Bytes.zeros 56) ++ (record ++ Bytes.zeros 32) ++ payload).leNat (64 + offset) width =
        record.leNat offset width := by
    have hplace := leNat_append_right (header ++ Bytes.zeros 56) (record ++ Bytes.zeros 32) offset width
    rw [hfront] at hplace
    rw [leNat_append_left _ _ (by rw [Bytes.size_append, hfront, hback]; omega), hplace,
      leNat_append_left _ _ (by omega)]
  simp only [List.map_cons, List.map_nil, unpack, List.cons.injEq, Nat.zero_add, Nat.reduceAdd, Int.toNat_natCast,
    Int.reduceToNat] at hwords
  obtain ⟨hsentinel, -, hdeclared, -, hoffset, -⟩ := hwords
  refine ⟨by rw [Bytes.size_append, Bytes.size_append, hfront, hback], ?_, ?_, ?_, fun i => ?_⟩
  · exact (@hword 0 4 (by decide)).trans hsentinel
  · exact (@hword 8 8 (by decide)).trans hdeclared
  · exact (@hword 24 8 (by decide)).trans hoffset
  rw [Bytes.get_append_right _ _ (by rw [Bytes.size_append, hfront, hback]; omega), Bytes.size_append, hfront, hback]
  exact congrArg payload.get (by omega)

theorem exists_buildWeights (h : payload.size < 2 ^ 64) : ∃ blob, buildWeights payload = .ok blob := by
  have hsize : (0 : ℤ) ≤ payload.size ∧ (payload.size : ℤ) < 256 ^ 8 := ⟨Int.natCast_nonneg _, by omega⟩
  have hfield : packField 8 payload.size = .ok (Bytes.ofNat 8 (payload.size : ℤ).toNat) := if_pos hsize
  simp only [buildWeights, pack, hfield]
  exact ⟨_, rfl⟩

/-- A record inside the payload names nothing: what it names would start behind it and end before the file does. -/
theorem not_names_behind (hsize : blob.size = 128 + size) (hindex : 0 < index) : ¬ Names blob size index := by
  rintro ⟨-, hend, hin⟩
  rw [recordEnd] at hend
  have : blobHeaderSize + blobRecordSize * (0 + 1 + 1) ≤ blobHeaderSize + blobRecordSize * (index + 1) :=
    Nat.add_le_add_left (Nat.mul_le_mul_left _ (by omega)) _
  have hpast : 192 ≤ recordPayload blob index := le_trans this hend
  omega

theorem le_of_mem_recordsFrom {i : ℕ} (h : i ∈ recordsFrom blob index) : index ≤ i := by
  fun_induction recordsFrom blob index with
  | case1 index hrecord ih =>
    obtain rfl | h := List.mem_cons.mp h
    · exact le_rfl
    · have := ih h
      omega
  | case2 index hrecord => cases h

/-- A weight blob of the capture tool is read back, whatever its payload looks like; the length of a payload fits into
its record, as the length of any byte string of Python does. -/
theorem buildWeights_read_back (h : payload.size < 2 ^ 64) : ∃ blob, buildWeights payload = .ok blob ∧
    isWeightBlob blob = true ∧ ∃ offset, blobPayloadOffset blob payload.size = .ok offset ∧
      blob.slice offset (offset + payload.size) = payload := by
  obtain ⟨blob, hblob⟩ := exists_buildWeights h
  obtain ⟨hsize, hsentinel, hdeclared, hoffset, hpayload⟩ := buildWeights_eq_ok hblob
  have hfirst : Names blob payload.size 0 :=
    ⟨hdeclared, hoffset.ge, by rw [recordPayload]; exact (congrArg (· + payload.size) hoffset).le.trans hsize.ge⟩
  have hrest : ((recordsFrom blob 1).filter fun i => Names blob payload.size i) = [] :=
    List.filter_eq_nil_iff.mpr fun i hi => by
      rw [decide_eq_true_eq]
      exact not_names_behind hsize (le_of_mem_recordsFrom hi)
  have hnamed : ((recordsFrom blob 0).filter fun i => Names blob payload.size i) = [0] := by
    rw [recordsFrom, if_pos ⟨by rw [hsize]; exact Nat.le_add_right _ _, hsentinel⟩, List.filter_cons,
      if_pos (decide_eq_true hfirst), hrest]
  refine ⟨blob, hblob, ?_, 128, blobPayloadOffset_eq_ok.mpr ⟨0, hnamed, hoffset⟩, ?_⟩
  · rw [isWeightBlob, if_neg (by rw [hsize, blobHeaderSize]; omega)]
    exact beq_iff_eq.mpr hsentinel
  · refine Bytes.ext_get (by rw [Bytes.size_slice, hsize]; omega) fun i hi => ?_
    rw [Bytes.size_slice, hsize] at hi
    rw [Bytes.get_slice_of_lt _ (by omega), hpayload]

/-- A payload of one record that imitates the record before it. -/
theorem buildWeights_read_back_imitation :
    ∃ blob, buildWeights (Bytes.ofFields 64 [(0, 0xDEADBEEF), (4, 1), (8, 64), (24, 192)]) = .ok blob ∧
      isWeightBlob blob = true ∧ ∃ offset, blobPayloadOffset blob 64 = .ok offset ∧
        blob.slice offset (offset + 64) = Bytes.ofFields 64 [(0, 0xDEADBEEF), (4, 1), (8, 64), (24, 192)] :=
  buildWeights_read_back (by decide)

/-! ## Payloads and metadata -/

end AneLinux.Hwx
