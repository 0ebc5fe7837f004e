import AneLinux.Hwx.Registers

/-!
# The parsed HWX image and its kernel payload

The image carries the geometry that the converters share: where the content starts, how long
the task stream and the kernel are, and which sections are the surfaces. A kernel section may
hold a weight blob file instead of coefficients; the payload then comes from the blob, at the
offset that one of the blob's own metadata records names.
-/

namespace AneLinux.Hwx

open AneLinux.Support

/-- One Mach-O section. -/
structure Section where
  segment : String
  name : String
  vmAddress : ℕ
  size : ℕ
  fileOffset : ℕ
deriving DecidableEq, Repr

/-- The key of a section: its segment and its name. -/
abbrev SectionKey := String × String

/-- The geometry derived from one HWX container. -/
structure HWXImage where
  sections : List (SectionKey × Section)
  contentOffset : ℕ
  contentSize : ℕ
  taskStreamSize : ℕ
  tdOffset : ℕ
  tdCount : ℕ
  tdSize : ℕ
  kernelOffset : ℕ
  kernelSize : ℕ
  workspaceSize : ℕ
  inputSize : ℕ
  outputSize : ℕ
  inputSections : List (ℕ × ℕ)
  outputSections : List (ℕ × ℕ)
  kdma : KDMALayout
  tileDma : TileDMA
  kernelIsBlob : Bool
  kernelGap : ℕ
  kernelPart1 : ℕ
  kernelExtraOff : ℕ
deriving DecidableEq, Repr

/-- The header of a weight blob file. -/
def blobHeaderSize : ℕ := 0x40

/-- One metadata record of a weight blob file. -/
def blobRecordSize : ℕ := 0x40

/-- The word that opens every metadata record. -/
def blobSentinel : ℕ := 0xDEADBEEF

/-- The section opens like a weight blob file: its first metadata record has the sentinel. -/
def isWeightBlob (head : Bytes) : Bool :=
  if head.size < blobHeaderSize + 4 then false else head.u32 blobHeaderSize == blobSentinel

/-- The payload offsets of the metadata records from `offset` that declare `size` bytes inside
the file and past their own record. -/
def blobMatches (blob : Bytes) (size offset : ℕ) : Py (List ℕ) :=
  if offset + blobRecordSize ≤ blob.size then do
    let sentinel ← unpackU32 blob offset
    if sentinel ≠ blobSentinel then
      return []
    else do
      let declared ← unpackU64 blob (offset + 0x08)
      let payload ← unpackU64 blob (offset + 0x18)
      let later ← blobMatches blob size (offset + blobRecordSize)
      return if declared = size ∧ offset + blobRecordSize ≤ payload ∧ payload + size ≤ blob.size then
        payload :: later else later
  else
    return []
termination_by blob.size - offset
decreasing_by
  unfold blobRecordSize at *
  omega

/-- The offset of the coefficient payload of `size` bytes that exactly one record names. -/
def blobPayloadOffset (blob : Bytes) (size : ℕ) : Py ℕ := do
  let found ← blobMatches blob size blobHeaderSize
  match found with
  | [payload] => return payload
  | _ => raiseValue ("weight blob does not name exactly one " ++ toString size ++
      "-byte payload (found " ++ toString found.length ++ ")")

/-- The coefficients to substitute for the kernel section, or none to copy it verbatim. -/
def kernelPayload (image : HWXImage) (blob : Option Bytes) : Py (Option Bytes) :=
  if image.kernelIsBlob then
    match blob with
    | none => raiseValue ("the kernel section is a CoreML weight blob file, so its " ++
        "coefficients are offset by the blob header; pass the bundle's " ++
        "weights.bin to source them from the blob payload")
    | some blob => do
      let offset ← blobPayloadOffset blob image.kernelSize
      return some (blob.slice offset (offset + image.kernelSize))
  else
    return none

/-- A metadata record of the blob: the sentinel opens it and every record before it. -/
def BlobRecord (blob : Bytes) (index : ℕ) : Prop :=
  ∀ i ≤ index, blobHeaderSize + blobRecordSize * (i + 1) ≤ blob.size ∧
    blob.u32 (blobHeaderSize + blobRecordSize * i) = blobSentinel

/-- The payload offset that a metadata record states. -/
def recordPayload (blob : Bytes) (index : ℕ) : ℕ :=
  blob.u64 (blobHeaderSize + blobRecordSize * index + 0x18)

/-- A metadata record names a payload of `size` bytes past itself and inside the file. -/
def NamesPayload (blob : Bytes) (size index : ℕ) : Prop :=
  BlobRecord blob index ∧ blob.u64 (blobHeaderSize + blobRecordSize * index + 0x08) = size ∧
    blobHeaderSize + blobRecordSize * (index + 1) ≤ recordPayload blob index ∧
    recordPayload blob index + size ≤ blob.size

/-- Every match is the payload of a record that names it. -/
theorem blobMatches_named {blob : Bytes} {size index : ℕ} {found : List ℕ}
    (hbefore : ∀ i < index, blobHeaderSize + blobRecordSize * (i + 1) ≤ blob.size ∧
      blob.u32 (blobHeaderSize + blobRecordSize * i) = blobSentinel)
    (h : blobMatches blob size (blobHeaderSize + blobRecordSize * index) = .ok found) :
    ∀ payload ∈ found, ∃ i, NamesPayload blob size i ∧ payload = recordPayload blob i := by
  induction hfuel : blob.size - (blobHeaderSize + blobRecordSize * index) using Nat.strong_induction_on
    generalizing index found with
  | _ fuel ih =>
    rw [blobMatches] at h
    split_ifs at h with hroom
    · have hroom' := hroom
      unfold blobRecordSize at hroom'
      rw [unpackU32_of_le (by unfold blobRecordSize; omega), ok_bind] at h
      split_ifs at h with hsentinel
      · cases h
        simp
      · rw [unpackU64_of_le (by unfold blobRecordSize; omega), ok_bind,
          unpackU64_of_le (by unfold blobRecordSize; omega), ok_bind] at h
        obtain ⟨tail, htail, h⟩ := bind_eq_ok.mp h
        have hnext : blobHeaderSize + blobRecordSize * index + blobRecordSize =
            blobHeaderSize + blobRecordSize * (index + 1) := by ring
        rw [hnext] at htail hroom h
        have hupto : ∀ i < index + 1, blobHeaderSize + blobRecordSize * (i + 1) ≤ blob.size ∧
            blob.u32 (blobHeaderSize + blobRecordSize * i) = blobSentinel := by
          intro i hi
          rcases Nat.lt_succ_iff_lt_or_eq.mp hi with hlt | rfl
          · exact hbefore i hlt
          · exact ⟨hroom, Decidable.not_not.mp hsentinel⟩
        have hrest := ih _ (by rw [← hfuel, ← hnext]; unfold blobRecordSize; omega) hupto htail rfl
        have hfound := Except.ok.inj h
        rw [← hfound]
        split_ifs with hnames
        · intro payload hpayload
          rcases List.mem_cons.mp hpayload with hstated | hpayload
          · exact ⟨index, ⟨fun i hi => hupto i (Nat.lt_succ_of_le hi), hnames⟩, hstated⟩
          · exact hrest payload hpayload
        · exact hrest
    · cases h
      simp

/-- The payload offset is the one a metadata record names. -/
theorem blobPayloadOffset_named {blob : Bytes} {size offset : ℕ}
    (h : blobPayloadOffset blob size = .ok offset) :
    ∃ i, NamesPayload blob size i ∧ offset = recordPayload blob i := by
  obtain ⟨found, hfound, h⟩ := bind_eq_ok.mp h
  have hnamed := @blobMatches_named blob size 0 found (by simp) hfound
  split at h
  · cases h
    exact hnamed offset List.mem_cons_self
  · cases h

/-- The outcomes of the payload choice: nothing to substitute outside blob containers, the
named slice of the blob otherwise. -/
theorem kernelPayload_eq_ok {image : HWXImage} {blob payload : Option Bytes}
    (h : kernelPayload image blob = .ok payload) :
    (image.kernelIsBlob = false ∧ payload = none) ∨
      ∃ file offset, image.kernelIsBlob = true ∧ blob = some file ∧
        blobPayloadOffset file image.kernelSize = .ok offset ∧ offset + image.kernelSize ≤ file.size ∧
        payload = some (file.slice offset (offset + image.kernelSize)) := by
  unfold kernelPayload at h
  split_ifs at h with hblob
  · cases blob with
    | none => cases h
    | some file =>
      obtain ⟨offset, hoffset, h⟩ := bind_eq_ok.mp h
      obtain ⟨i, hnames, hstated⟩ := blobPayloadOffset_named hoffset
      have hroom : offset + image.kernelSize ≤ file.size := hstated ▸ hnames.2.2.2
      exact Or.inr ⟨file, offset, hblob, rfl, hoffset, hroom, (Except.ok.inj h).symm⟩
  · exact Or.inl ⟨by simpa using hblob, (Except.ok.inj h).symm⟩

end AneLinux.Hwx
