import AneLinux.Firmware.PinnedLayout
import AneLinux.Support.Custody

/-!
# Loading the firmware payload

With `fw_load` set, a probe of the driver requests the payload, validates it and copies its segments into a coherent
buffer, which `remove` frees. The validator stores what it matches in an array on the stack, so that a payload with a
fourth segment command has undefined behaviour before it is rejected.
-/

namespace AneLinux.Firmware

open AneLinux.Support AneLinux.Support.Custody

/-- `ANE_FW_BUF_SIZE`. -/
def aneFwBufSize : ℕ := 0x400000

/-- `ane_fw_sha256_expected`. -/
def aneFwSha256Expected : Bytes := Bytes.ofFn 32 fun i => [0x9F, 0x79, 0x15, 0xC4, 0x31, 0xD2, 0x88, 0xA2, 0xBD, 0xC2,
  0x13, 0x2C, 0x39, 0x9D, 0xB8, 0xCF, 0x55, 0x74, 0x71, 0x6A, 0x3B, 0x1E, 0x94, 0xAF, 0x76, 0xBE, 0x6A, 0x29, 0x1C,
  0x2E, 0x66, 0x5B].getD i 0

/-- What a load takes: a firmware, and coherent memory of some size. -/
inductive Resource
  | firmware (n : ℕ)
  | coherent (n size : ℕ)
deriving DecidableEq

/-- The kernel around the driver: the calls that succeed, the codes of those that do not, the payload that a request
delivers, the digest of a payload, and the address at which the device sees a buffer. -/
structure Kernel where
  succeeds : ℕ → Bool
  maskError : ℤ
  requestError : ℤ
  delivered : ℕ → Bytes
  sha256 : Bytes → Bytes
  iova : ℕ → ℕ

/-- A coherent buffer and what it holds. -/
structure Buffer where
  number : ℕ
  bytes : Bytes

/-- The fields `fw_buf`, `fw_iova` and `fw_size` of `struct ane_t6021`. -/
structure AneT6021 where
  fwBuf : Option Buffer
  fwIova : ℕ
  fwSize : ℕ

/-- The driver data of a device that was just bound. -/
def AneT6021.fresh : AneT6021 := ⟨none, 0, 0⟩

/-- More rounds than the loop over thread states can take in the command area. -/
def threadRounds : ℕ := 400

/-- The array `segs` after the validator's writes. -/
def segsAfter (log : List Access) : ℕ → Option AneFwSeg :=
  log.foldl (fun segs access => match access with
    | .read _ _ => segs
    | .write index seg => Function.update segs index (some seg)) fun _ => none

/-- A write past the end of `segs`. -/
def overflows (log : List Access) : Bool :=
  log.any fun access => match access with
    | .read _ _ => false
    | .write index _ => decide (aneFwNsegs ≤ index)

/-- `memcpy(buf + vmaddr, fw->data + fileoff, filesize)`, if there is anything to copy. -/
def copySegment (blob : Bytes) (seg : AneFwSeg) (buf : Bytes) : Option Bytes :=
  if seg.filesize = 0 then some buf
  else if seg.vmaddr + seg.filesize ≤ buf.size ∧ seg.fileoff + seg.filesize ≤ blob.size then
    some (buf.splice seg.vmaddr (seg.vmaddr + seg.filesize) (blob.slice seg.fileoff (seg.fileoff + seg.filesize)))
  else none

/-- `ane_t6021_fwload_probe`: the code it returns, and the driver data; `none` is undefined behaviour. -/
def aneT6021FwloadProbe (kernel : Kernel) (fwLoad : Bool) (ane : AneT6021) :
    Step Resource (Option (ℤ × AneT6021)) :=
  if fwLoad = false then pure (some (0, ane))
  else do
    let masked ← ask kernel.succeeds
    if masked = false then return some (kernel.maskError, ane)
    else
      match ← take kernel.succeeds .firmware with
      | none => return some (kernel.requestError, ane)
      | some fw =>
        let blob := kernel.delivered fw
        let checked := aneFwValidateBlob threadRounds blob aneFwSha256Expected (kernel.sha256 blob) true
        if overflows checked.log then return none
        else match checked.outcome with
          | .error .running => return none
          | .error (.reason _) =>
            give (Resource.firmware fw)
            return some (-1, ane)
          | .ok _ =>
            match ← take kernel.succeeds (Resource.coherent · aneFwBufSize) with
            | none =>
              give (Resource.firmware fw)
              return some (-12, ane)
            | some n =>
              match (List.range aneFwNsegs).foldlM
                  (fun buf i => (segsAfter checked.log i).bind fun seg => copySegment blob seg buf)
                  (Bytes.zeros aneFwBufSize) with
              | none => return none
              | some bytes =>
                give (Resource.firmware fw)
                return some (0, ⟨some ⟨n, bytes⟩, kernel.iova n, aneFwBufSize⟩)

/-- `ane_t6021_fwload_remove`. -/
def aneT6021FwloadRemove (ane : AneT6021) : Step Resource AneT6021 :=
  match ane.fwBuf with
  | none => pure ane
  | some buf => do
    give (Resource.coherent buf.number ane.fwSize)
    return { ane with fwBuf := none, fwSize := 0 }

/-- A device that is unbound and bound again, each time with its own `fw_load`. -/
def rebind (kernel : Kernel) : List Bool → AneT6021 → Step Resource (Option AneT6021)
  | [], ane => pure (some ane)
  | fwLoad :: rest, ane => do
    let _ ← aneT6021FwloadRemove ane
    match ← aneT6021FwloadProbe kernel fwLoad .fresh with
    | none => return none
    | some (_, bound) => rebind kernel rest bound

/-! ## The validator's answer -/

section Answer

variable {blob sha expected : Bytes}

/-- The validator rejects a wrong digest before it reads anything. -/
theorem aneFwValidateBlob_digest (fuel : ℕ) (blob expected sha : Bytes) (segsOut : Bool) :
    (∃ text, aneFwValidateBlob fuel blob expected sha segsOut = ⟨[], .error (.reason text)⟩) ∨
      expected.slice 0 32 = sha.slice 0 32 ∧
        aneFwValidateBlob fuel blob expected sha segsOut = aneFwValidateBlob fuel blob sha sha segsOut := by
  by_cases hsize : blob.size = aneFwBlobSize
  · by_cases hsha : expected.slice 0 32 = sha.slice 0 32
    · refine .inr ⟨hsha, ?_⟩
      unfold aneFwValidateBlob
      rw [if_neg (not_not.mpr hsize), if_neg (not_not.mpr hsize), if_neg (not_not.mpr hsha),
        if_neg (not_not.mpr rfl)]
    · refine .inl ⟨"sha256 != pinned payload hash", ?_⟩
      unfold aneFwValidateBlob
      rw [if_neg (not_not.mpr hsize), if_pos hsha]
      rfl
  · refine .inl ⟨"size != 0x1a4000", ?_⟩
    unfold aneFwValidateBlob
    rw [if_pos hsize]
    rfl

/-- Only a fourth segment command is stored past the end. -/
theorem meets_of_overflows {fuel : ℕ} (h : overflows (aneFwValidateBlob fuel blob sha sha true).log = true) :
    MeetsFourSegments blob := by
  obtain ⟨access, hmem, hpast⟩ := List.any_eq_true.mp h
  cases access with
  | read offset width => cases hpast
  | write index seg =>
    have hpast : aneFwNsegs ≤ index := of_decide_eq_true hpast
    exact (wrote_lt_or_meets ⟨seg, hmem⟩).resolve_left (Nat.not_lt.mpr hpast)

/-- An accepted payload leaves the pinned table in `segs`. -/
theorem segsAfter_of_ok {fuel entry : ℕ} (hok : (aneFwValidateBlob fuel blob sha sha true).outcome = .ok entry)
    {i : ℕ} (hi : i < aneFwNsegs) :
    segsAfter (aneFwValidateBlob fuel blob sha sha true).log i = aneFwExpectedSegs[i]? := by
  obtain ⟨hheader, -⟩ := accepted_passes hok
  rcases aneFwValidateBlob_cases hheader.size with ⟨-, heq⟩ | ⟨hnot, -⟩
  · rw [heq] at hok ⊢
    obtain ⟨last, hwalk, hfinish⟩ := Logged.outcome_bind_eq_ok.mp hok
    have hfinish := hfinish
    simp only [finish, reject, Logged.outcome_guard_eq_ok, not_not] at hfinish
    obtain ⟨hcount, hentry, -⟩ := hfinish
    have hlog : (finish true last).log = [.write 0 (aneFwExpectedSegs.getD 0 textSeg),
        .write 1 (aneFwExpectedSegs.getD 1 textSeg), .write 2 (aneFwExpectedSegs.getD 2 textSeg)] := by
      rw [finish, if_neg (not_not.mpr hcount), if_neg (not_not.mpr hentry)]
      rfl
    rw [Logged.log_bind_of_ok hwalk, hlog, segsAfter, List.foldl_append, List.foldl_append]
    have hcases : i = 0 ∨ i = 1 ∨ i = 2 := by
      change i < 3 at hi
      omega
    rcases hcases with rfl | rfl | rfl <;> rfl
  · exact absurd hheader hnot

end Answer

/-! ## The image -/

/-- The pinned segments of a payload in their places, and zeros everywhere else. -/
structure Image (blob bytes : Bytes) : Prop where
  size : bytes.size = aneFwBufSize
  segment : ∀ seg ∈ aneFwExpectedSegs, ∀ i < seg.vmsize,
    bytes.get (seg.vmaddr + i) = if i < seg.filesize then blob.get (seg.fileoff + i) else 0
  outside : ∀ i, (∀ seg ∈ aneFwExpectedSegs, i < seg.vmaddr ∨ seg.vmaddr + seg.vmsize ≤ i) → bytes.get i = 0

/-- A segment that fits is copied. -/
theorem copySegment_eq {blob buf : Bytes} {seg : AneFwSeg} (hfile : 0 < seg.filesize)
    (hbuf : seg.vmaddr + seg.filesize ≤ buf.size) (hblob : seg.fileoff + seg.filesize ≤ blob.size) :
    ∃ out, copySegment blob seg buf = some out ∧ out.size = buf.size ∧
      ∀ i, out.get i = if seg.vmaddr ≤ i ∧ i < seg.vmaddr + seg.filesize then
        blob.get (seg.fileoff + (i - seg.vmaddr)) else buf.get i := by
  have hslice : (blob.slice seg.fileoff (seg.fileoff + seg.filesize)).size =
      seg.vmaddr + seg.filesize - seg.vmaddr := by
    rw [Bytes.size_slice]
    omega
  refine ⟨_, by rw [copySegment, if_neg (by omega), if_pos ⟨hbuf, hblob⟩],
    Bytes.size_splice_of_eq (by omega) hbuf hslice, fun i => ?_⟩
  rw [Bytes.get_splice_of_eq (by omega) hbuf hslice]
  by_cases hi : seg.vmaddr ≤ i ∧ i < seg.vmaddr + seg.filesize
  · rw [if_pos hi, if_pos hi, Bytes.get_slice_of_lt _ (by omega)]
  · rw [if_neg hi, if_neg hi]

/-- The segments of the pinned table are copied to their places. -/
theorem copySegments_image {blob : Bytes} (hsize : blob.size = aneFwBlobSize) {segs : ℕ → Option AneFwSeg}
    (hsegs : ∀ i < aneFwNsegs, segs i = aneFwExpectedSegs[i]?) :
    ∃ bytes, (List.range aneFwNsegs).foldlM (fun buf i => (segs i).bind fun seg => copySegment blob seg buf)
      (Bytes.zeros aneFwBufSize) = some bytes ∧ Image blob bytes := by
  rw [aneFwBlobSize] at hsize
  obtain ⟨text, htext, htextSize, hgetText⟩ := @copySegment_eq blob (Bytes.zeros aneFwBufSize) textSeg (by decide)
    (by decide) (by rw [hsize]; decide)
  obtain ⟨data, hdata, hdataSize, hgetData⟩ := @copySegment_eq blob text (aneFwExpectedSegs.getD 1 textSeg) (by decide)
    (by rw [htextSize]; decide) (by rw [hsize]; decide)
  have hget : ∀ i, data.get i = if i < 0x1A0000 then blob.get (0x4000 + i) else 0 := by
    intro i
    rw [hgetData i, hgetText i, Bytes.get_zeros]
    change (if 0xE8000 ≤ i ∧ i < 0xE8000 + 0xB8000 then blob.get (0xEC000 + (i - 0xE8000)) else
      if 0 ≤ i ∧ i < 0 + 0xE8000 then blob.get (0x4000 + (i - 0)) else 0) = _
    by_cases hin : i < 0x1A0000
    · rw [if_pos hin]
      by_cases hlow : i < 0xE8000
      · rw [if_neg (by omega), if_pos (by omega)]
        exact congrArg blob.get (by omega)
      · rw [if_pos (by omega)]
        exact congrArg blob.get (by omega)
    · rw [if_neg (by omega), if_neg (by omega), if_neg hin]
  refine ⟨data, ?_, hdataSize.trans htextSize, fun seg hseg i hi => ?_, fun i hi => ?_⟩
  · have hrange : List.range aneFwNsegs = [0, 1, 2] := rfl
    rw [hrange]
    simp only [List.foldlM_cons, List.foldlM_nil, hsegs 0 (by decide), hsegs 1 (by decide), hsegs 2 (by decide)]
    change (copySegment blob textSeg (Bytes.zeros aneFwBufSize) >>= fun buf =>
      copySegment blob (aneFwExpectedSegs.getD 1 textSeg) buf >>= fun buf =>
      copySegment blob (aneFwExpectedSegs.getD 2 textSeg) buf >>= some) = some data
    rw [htext, Option.bind_eq_bind, Option.bind_some, hdata]
    rfl
  · rw [hget]
    simp only [aneFwExpectedSegs, List.mem_cons, List.not_mem_nil, or_false] at hseg
    rcases hseg with rfl | rfl | rfl
    · dsimp only at hi ⊢
      rw [if_pos (by omega), if_pos (by omega)]
      exact congrArg blob.get (by omega)
    · dsimp only at hi ⊢
      by_cases hfile : i < 0xB8000
      · rw [if_pos (by omega), if_pos hfile]
        exact congrArg blob.get (by omega)
      · rw [if_neg (by omega), if_neg hfile]
    · exact absurd hi (Nat.not_lt_zero i)
  · rw [hget, if_neg]
    have htextOut := hi textSeg (by decide)
    have hdataOut := hi (aneFwExpectedSegs.getD 1 textSeg) (by decide)
    change i < 0 ∨ 0 + 0xE8000 ≤ i at htextOut
    change i < 0xE8000 ∨ 0xE8000 + 0x284000 ≤ i at hdataOut
    omega

/-! ## Binding and unbinding -/

/-- The payload is what the driver accepts. -/
def Kernel.Accepts (kernel : Kernel) (blob : Bytes) : Prop :=
  ∃ entry, (aneFwValidateBlob threadRounds blob aneFwSha256Expected (kernel.sha256 blob) true).outcome = .ok entry

/-- A payload with the pinned digest and a fourth segment command. -/
def Kernel.Overruns (kernel : Kernel) (blob : Bytes) : Prop :=
  aneFwSha256Expected.slice 0 32 = (kernel.sha256 blob).slice 0 32 ∧ MeetsFourSegments blob

namespace AneT6021

/-- What the driver data of a device names. -/
def owned (ane : AneT6021) : Multiset Resource :=
  ane.fwBuf.elim 0 fun buf => {Resource.coherent buf.number ane.fwSize}

/-- A buffer that the driver data names has its size, its address and the image of an accepted payload. -/
def Mapped (kernel : Kernel) (ane : AneT6021) : Prop :=
  ∀ buf, ane.fwBuf = some buf → ane.fwSize = aneFwBufSize ∧ ane.fwIova = kernel.iova buf.number ∧
    ∃ n, kernel.Accepts (kernel.delivered n) ∧ Image (kernel.delivered n) buf.bytes

end AneT6021

section Bindings

variable {kernel : Kernel}

/-- The checks never overrun the stack with an accepted payload, and the copies stay in the buffer. -/
theorem Kernel.Accepts.image {blob : Bytes} (h : kernel.Accepts blob) :
    overflows (aneFwValidateBlob threadRounds blob aneFwSha256Expected (kernel.sha256 blob) true).log = false ∧
      ∃ bytes, (List.range aneFwNsegs).foldlM (fun buf i =>
          (segsAfter (aneFwValidateBlob threadRounds blob aneFwSha256Expected (kernel.sha256 blob) true).log i).bind
            fun seg => copySegment blob seg buf) (Bytes.zeros aneFwBufSize) = some bytes ∧ Image blob bytes := by
  obtain ⟨entry, hok⟩ := h
  rcases aneFwValidateBlob_digest threadRounds blob aneFwSha256Expected (kernel.sha256 blob) true with
    ⟨text, heq⟩ | ⟨-, heq⟩
  · rw [heq] at hok
    cases hok
  · rw [heq] at hok ⊢
    obtain ⟨hheader, -, hcount, -⟩ := accepted_passes hok
    refine ⟨Bool.eq_false_iff.mpr fun hover => ?_, copySegments_image hheader.size fun i => segsAfter_of_ok hok⟩
    obtain ⟨-, n, hn, -, hmore⟩ := meets_of_overflows hover
    have hmono : segmentCount blob n ≤ segmentCount blob aneFwNcmds := Nat.count_monotone _ hn
    omega

/-- The only undefined behaviour is that of a payload with a fourth segment command. -/
theorem Kernel.overruns_of_overflows {blob : Bytes}
    (h : overflows (aneFwValidateBlob threadRounds blob aneFwSha256Expected (kernel.sha256 blob) true).log = true) :
    kernel.Overruns blob := by
  rcases aneFwValidateBlob_digest threadRounds blob aneFwSha256Expected (kernel.sha256 blob) true with
    ⟨text, heq⟩ | ⟨hsha, heq⟩
  · rw [heq] at h
    cases h
  · rw [heq] at h
    exact ⟨hsha, meets_of_overflows h⟩

/-- The validator ends. -/
theorem validate_ne_running (kernel : Kernel) (blob : Bytes) :
    (aneFwValidateBlob threadRounds blob aneFwSha256Expected (kernel.sha256 blob) true).outcome ≠ .error .running := by
  rcases aneFwValidateBlob_digest threadRounds blob aneFwSha256Expected (kernel.sha256 blob) true with
    ⟨text, heq⟩ | ⟨-, heq⟩
  · rw [heq]
    nofun
  · rw [heq]
    exact aneFwValidateBlob_halts (by decide)

/-- A probe has in custody what the driver data names, the firmware not among it. -/
theorem survives_probe (fwLoad : Bool) : Survives 0 (aneT6021FwloadProbe kernel fwLoad .fresh)
    (Option.map fun result => result.2.owned) := by
  have hfresh (code : ℤ) : Survives 0 (pure (some (code, .fresh)) : Step Resource (Option (ℤ × AneT6021)))
      (Option.map fun result => result.2.owned) := survives_pure fun held hheld => (Option.some.inj hheld).symm
  have hnone (before : Multiset Resource) : Survives before (pure none : Step Resource (Option (ℤ × AneT6021)))
      (Option.map fun result => result.2.owned) := survives_pure nofun
  rw [aneT6021FwloadProbe]
  split
  · exact hfresh 0
  refine ((settles_ask _).bind_survives 0 fun masked => ?_).congr (add_zero _).symm
  rw [add_zero]
  split
  · exact hfresh _
  refine ((settles_take _ _).bind_survives 0 fun taken => ?_).congr (add_zero _).symm
  rw [add_zero]
  cases taken with
  | none => exact hfresh _
  | some fw =>
    dsimp only [Option.elim]
    split
    · exact hnone _
    split
    case h_1 => exact hnone _
    case h_2 =>
      exact ((settles_give (Resource.firmware fw)).bind_survives 0 fun _ => hfresh _).congr (add_zero _).symm
    case h_3 =>
      refine ((settles_take _ _).bind_survives {Resource.firmware fw} fun taken => ?_).congr (zero_add _).symm
      cases taken with
      | none =>
        exact ((settles_give (Resource.firmware fw)).bind_survives 0 fun _ => hfresh _).congr (add_comm _ _)
      | some n =>
        dsimp only [Option.elim]
        split
        · exact hnone _
        · refine ((settles_give (Resource.firmware fw)).bind_survives {Resource.coherent n aneFwBufSize} fun _ =>
            survives_pure fun held hheld => ?_).congr (add_comm _ _)
          exact (Option.some.inj hheld).symm.trans (zero_add _).symm

/-- What a probe leaves behind is mapped; it is undefined only where a payload overruns the stack. -/
theorem returns_probe (fwLoad : Bool) : Returns (aneT6021FwloadProbe kernel fwLoad .fresh) fun result =>
    match result with
    | none => ∃ n, kernel.Overruns (kernel.delivered n)
    | some (_, ane) => ane.Mapped kernel := by
  have hfresh : AneT6021.fresh.Mapped kernel := nofun
  rw [aneT6021FwloadProbe]
  split
  · exact returns_pure hfresh
  refine returns_bind fun masked => ?_
  split
  · exact returns_pure hfresh
  refine returns_bind fun taken => ?_
  cases taken with
  | none => exact returns_pure hfresh
  | some fw =>
    dsimp only
    split
    · next hover => exact returns_pure ⟨fw, Kernel.overruns_of_overflows hover⟩
    split
    case h_1 hrunning => exact absurd hrunning (validate_ne_running kernel _)
    case h_2 => exact returns_bind fun _ => returns_pure hfresh
    case h_3 entry hok =>
      obtain ⟨-, bytes, hcopied, himage⟩ := Kernel.Accepts.image ⟨entry, hok⟩
      refine returns_bind fun taken => ?_
      cases taken with
      | none => exact returns_bind fun _ => returns_pure hfresh
      | some n =>
        dsimp only
        rw [hcopied]
        refine returns_bind fun _ => returns_pure ?_
        intro buf hbuf
        obtain rfl := Option.some.inj hbuf
        exact ⟨rfl, rfl, fw, ⟨entry, hok⟩, himage⟩

/-- Where nothing fails, a probe with `fw_load` maps a buffer. -/
theorem returns_probe_of_accepts (hsucceeds : ∀ n, kernel.succeeds n = true)
    (haccepts : ∀ n, kernel.Accepts (kernel.delivered n)) (fwLoad : Bool) :
    Returns (aneT6021FwloadProbe kernel fwLoad .fresh) fun result =>
      ∃ ane, result = some (0, ane) ∧ ane.fwBuf.isSome = fwLoad := by
  rw [aneT6021FwloadProbe]
  split
  · next hload => exact returns_pure ⟨_, rfl, hload.symm⟩
  · next hload =>
    refine (returns_ask hsucceeds).bind fun masked hmasked => ?_
    rw [if_neg (by rw [hmasked]; decide)]
    refine (returns_take hsucceeds _).bind fun taken htaken => ?_
    obtain ⟨fw, rfl⟩ := Option.isSome_iff_exists.mp htaken
    obtain ⟨entry, hok⟩ := haccepts fw
    obtain ⟨hinside, bytes, hcopied, -⟩ := Kernel.Accepts.image ⟨entry, hok⟩
    dsimp only
    rw [hinside, if_neg Bool.false_ne_true, hok]
    dsimp only
    refine (returns_take hsucceeds _).bind fun taken htaken => ?_
    obtain ⟨n, rfl⟩ := Option.isSome_iff_exists.mp htaken
    dsimp only
    rw [hcopied]
    exact returns_bind fun _ => returns_pure ⟨_, rfl, (Bool.eq_true_of_not_eq_false hload).symm⟩

/-- `remove` frees the buffer that the driver data names. -/
theorem settles_remove (ane : AneT6021) : Settles ane.owned (aneT6021FwloadRemove ane) fun _ => 0 := by
  rw [aneT6021FwloadRemove, AneT6021.owned]
  cases ane.fwBuf with
  | none => exact settles_pure rfl
  | some buf => exact (settles_give (Resource.coherent buf.number ane.fwSize)).bind fun _ => settles_pure rfl

theorem survives_rebind (fwLoads : List Bool) (ane : AneT6021) :
    Survives ane.owned (rebind kernel fwLoads ane) (Option.map AneT6021.owned) := by
  induction fwLoads generalizing ane with
  | nil => exact survives_pure fun held hheld => (Option.some.inj hheld).symm
  | cons fwLoad rest ih =>
    rw [rebind]
    refine ((settles_remove ane).bind_survives 0 fun _ => ?_).congr (add_zero _).symm
    refine (survives_probe fwLoad).bind (returns_any _) 0 (fun probed held _ hheld => ?_) fun probed hprobed w => ?_
    · obtain ⟨⟨code, bound⟩, rfl, rfl⟩ := Option.map_eq_some_iff.mp hheld
      rw [add_zero]
      exact ih bound
    · obtain rfl := Option.map_eq_none_iff.mp hprobed
      rfl

theorem returns_rebind (fwLoads : List Bool) {ane : AneT6021} (hmapped : ane.Mapped kernel) :
    Returns (rebind kernel fwLoads ane) fun result =>
      match result with
      | none => ∃ n, kernel.Overruns (kernel.delivered n)
      | some bound => bound.Mapped kernel := by
  induction fwLoads generalizing ane with
  | nil => exact returns_pure hmapped
  | cons fwLoad rest ih =>
    rw [rebind]
    refine returns_bind fun _ => (returns_probe fwLoad).bind fun probed hprobed => ?_
    cases probed with
    | none => exact returns_pure hprobed
    | some result => exact ih hprobed

theorem returns_rebind_of_accepts (hsucceeds : ∀ n, kernel.succeeds n = true)
    (haccepts : ∀ n, kernel.Accepts (kernel.delivered n)) (fwLoads : List Bool) {ane : AneT6021} {last : Bool}
    (hlast : ane.fwBuf.isSome = last) :
    Returns (rebind kernel fwLoads ane) fun result =>
      ∃ bound, result = some bound ∧ bound.fwBuf.isSome = fwLoads.getLastD last := by
  induction fwLoads generalizing ane last with
  | nil => exact returns_pure ⟨ane, rfl, hlast⟩
  | cons fwLoad rest ih =>
    rw [rebind]
    refine returns_bind fun _ => (returns_probe_of_accepts hsucceeds haccepts fwLoad).bind fun probed hprobed => ?_
    obtain ⟨bound, rfl, hbound⟩ := hprobed
    rw [List.getLastD_cons]
    exact ih hbound

/-- However often a device is bound and unbound, and whichever calls fail on the way, the driver has in custody the
buffer that its data names and nothing else, and freed nothing twice. The buffer holds the image of an accepted
payload. The only undefined behaviour is that of a payload with the pinned digest and a fourth segment command.
Where nothing fails, the buffer is there exactly when `fw_load` is set. -/
theorem rebind_custody (kernel : Kernel) (fwLoads : List Bool) (calls : ℕ) (held : Multiset Resource) :
    (match rebind kernel fwLoads .fresh ⟨calls, held, false⟩ with
      | (some ane, w) => w.held = ane.owned + held ∧ w.misused = false ∧ ane.Mapped kernel
      | (none, _) => ∃ n, kernel.Overruns (kernel.delivered n)) ∧
    ((∀ n, kernel.succeeds n = true) → (∀ n, kernel.Accepts (kernel.delivered n)) →
      ∃ ane, (rebind kernel fwLoads .fresh ⟨calls, held, false⟩).1 = some ane ∧
        ane.fwBuf.isSome = fwLoads.getLastD false) := by
  have hreturns := @returns_rebind kernel fwLoads .fresh nofun ⟨calls, held, false⟩
  have hsurvives := @survives_rebind kernel fwLoads .fresh held ⟨calls, held, false⟩ ⟨(zero_add _).symm, rfl⟩
  refine ⟨?_, fun hsucceeds haccepts => returns_rebind_of_accepts hsucceeds haccepts fwLoads rfl _⟩
  split
  case h_1 ane w h =>
    rw [h] at hreturns hsurvives
    obtain ⟨hheld, hmisused⟩ := hsurvives _ rfl
    exact ⟨hheld, hmisused, hreturns⟩
  case h_2 w h =>
    rw [h] at hreturns
    exact hreturns

/-- A kernel on which no call fails and every request delivers the pinned payload. -/
def pinnedKernel : Kernel where
  succeeds _ := true
  maskError := -5
  requestError := -2
  delivered _ := pinnedPayload
  sha256 _ := aneFwSha256Expected
  iova n := 0x4000 * n

theorem rebind_custody_pinned : ∃ ane, (rebind pinnedKernel [true, false, true] .fresh ⟨0, 0, false⟩).1 = some ane ∧
    ane.fwBuf.isSome = true := by
  have hok : (aneFwValidateBlob threadRounds pinnedPayload aneFwSha256Expected aneFwSha256Expected true).outcome =
      .ok 0 := by decide +kernel
  exact (rebind_custody pinnedKernel [true, false, true] 0 0).2 (fun _ => rfl) fun _ => ⟨0, hok⟩

end Bindings

end AneLinux.Firmware
