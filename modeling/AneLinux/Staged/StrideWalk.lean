import AneLinux.Hwx.CutRecords
import AneLinux.Staged.Stride
import AneLinux.Staged.GapZero

/-!
# What the uniform-stride layout preserves

The links of the new stream visit the slots in order, whatever the chain: `walkLinks_relaid`. The registers of a
task survive exactly when the copied bytes, with zeros behind them, decode to them: when every record is copied and
nothing is read after the last one, and only then if no register is assigned twice
(`normalizeStride_keepsMeaning_iff`). A task that links backwards is not copied, so its registers are lost, and a
task whose record end was found too early is cut.

A task's bytes are those up to the next base in address order, or the end of the stream.
-/

namespace AneLinux.Staged

open AneLinux.Support AneLinux.Hwx

variable {content new : Bytes} {chain : List ℕ} {stride n j tdCount : ℕ}

section Links

/-- The slots of the first tasks. -/
def slotBases (stride n : ℕ) : List ℕ := (List.range n).map (· * stride)

theorem slotBases_succ (stride n : ℕ) : slotBases stride n ++ [n * stride] = slotBases stride (n + 1) := by
  rw [slotBases, slotBases, List.range_succ, List.map_append, List.map_singleton]

theorem mem_slotBases (hstride : 0 < stride) : j * stride ∈ slotBases stride n ↔ j < n := by
  rw [slotBases, List.mem_map]
  constructor
  · rintro ⟨i, hi, hij⟩
    rw [← Nat.eq_of_mul_eq_mul_right hstride hij]
    exact List.mem_range.mp hi
  · intro hj
    exact ⟨j, List.mem_range.mpr hj, rfl⟩

/-- A task of the chain is among the first ones exactly when its index is. -/
theorem mem_take_iff (hnodup : chain.Nodup) {offset : ℕ} (hj : chain[j]? = some offset) :
    offset ∈ chain.take n ↔ j < n := by
  obtain ⟨hlt, hoffset⟩ := List.getElem?_eq_some_iff.mp hj
  constructor
  · intro hmem
    obtain ⟨k, hk, hvalue⟩ := List.mem_take_iff_getElem.mp hmem
    have hsame : k = j := (List.Nodup.getElem_inj_iff hnodup).mp (hvalue.trans hoffset.symm)
    omega
  · intro hjn
    exact List.mem_take_iff_getElem.mpr ⟨j, by omega, hoffset⟩

/-- From a task's slot on, the new links visit the slots of the tasks that the old links visit. -/
theorem walkLinksLoop_relaid (hnew : Relaid content chain stride new) (hlinked : Linked content chain)
    (hstride : 0x20 ≤ stride) {remaining offset : ℕ}
    (h : walkLinksLoop content remaining (chain.take n) offset = .ok chain) (hn : n ≤ chain.length)
    (hj : chain[j]? = some offset) :
    walkLinksLoop new remaining (slotBases stride n) (j * stride) = .ok (slotBases stride chain.length) := by
  have hpos : 0 < stride := by omega
  have hdone {n : ℕ} (hn : n ≤ chain.length) (hall : chain.take n = chain) : n = chain.length := by
    rw [← Nat.min_eq_left hn, ← List.length_take, hall]
  induction remaining generalizing n j offset with
  | zero =>
    rw [hdone hn (Except.ok.inj h)]
    rfl
  | succ remaining ih =>
    rw [walkLinksLoop] at h ⊢
    have hseen := mem_take_iff hlinked.nodup (n := n) hj
    split at h
    · rename_i hmem
      rw [if_pos ((mem_slotBases hpos).mpr (hseen.mp hmem)), hdone hn (Except.ok.inj h)]
      rfl
    · rename_i hfresh
      rw [if_neg (mt (mem_slotBases hpos).mp (mt hseen.mpr hfresh))]
      obtain ⟨nxt, hnxt, h⟩ := bind_eq_ok.mp h
      obtain ⟨more, hmore⟩ : ∃ more, chain = chain.take n ++ [offset] ++ more := by
        split at h
        · exact ⟨[], by rw [List.append_nil]; exact (Except.ok.inj h).symm⟩
        · exact walkLinksLoop_extends h
      have hoffset : chain[n]? = some offset := by
        rw [hmore, List.append_assoc, List.getElem?_append_right (by rw [List.length_take]; omega),
          List.length_take, Nat.min_eq_left hn, Nat.sub_self]
        rfl
      obtain ⟨hlt, hvalue⟩ := List.getElem?_eq_some_iff.mp hoffset
      obtain ⟨hjlt, hjvalue⟩ := List.getElem?_eq_some_iff.mp hj
      obtain rfl : j = n := (List.Nodup.getElem_inj_iff hlinked.nodup).mp (hjvalue.trans hvalue.symm)
      have htake : chain.take j ++ [offset] = chain.take (j + 1) := by
        rw [List.take_add_one, hj, Option.toList_some]
      have hroom : j * stride + 0x1C + 4 ≤ new.size := by
        have hslot : (j + 1) * stride ≤ chain.length * stride := Nat.mul_le_mul_right stride hjlt
        rw [Nat.succ_mul] at hslot
        rw [hnew.size]
        omega
      rw [unpackU32_of_le hroom, ok_bind, slotBases_succ]
      rw [htake] at h
      have hword := (unpackU32_eq_ok.mp hnxt).2
      rcases hnew.link j offset hj with ⟨hzero, hnewzero⟩ | ⟨hnonzero, k, hk, hnewlink⟩
      · rw [if_pos (hword.symm.trans hzero)] at h
        rw [if_pos hnewzero, show j + 1 = chain.length from hdone hjlt (Except.ok.inj h)]
        rfl
      · rw [hword] at hnonzero hk
        rw [if_neg hnonzero] at h
        have hkpos : k ≠ 0 := fun hkzero => hnonzero (hlinked.start nxt (hkzero ▸ hk))
        rw [hnewlink, if_neg (Nat.mul_ne_zero hkpos hpos.ne')]
        exact ih h hjlt hk

/-- Only a walk that may visit no task finds none. -/
theorem eq_zero_of_walkLinks_nil (h : walkLinks content tdCount = .ok []) : tdCount = 0 := by
  cases tdCount with
  | zero => rfl
  | succ remaining =>
    rw [walkLinks, walkLinksLoop, if_neg List.not_mem_nil] at h
    obtain ⟨nxt, -, h⟩ := bind_eq_ok.mp h
    split at h
    · cases h
    · obtain ⟨more, hmore⟩ := walkLinksLoop_extends h
      cases hmore

/-- The links of the new stream visit the slots in order. -/
theorem walkLinks_relaid (hchain : walkLinks content tdCount = .ok chain) (hnew : Relaid content chain stride new)
    (hstride : 0x20 ≤ stride) : walkLinks new tdCount = .ok (slotBases stride chain.length) := by
  have hlinked := linked_of_walkLinks hchain
  cases chain with
  | nil =>
    rw [eq_zero_of_walkLinks_nil hchain]
    rfl
  | cons first rest =>
    obtain rfl : first = 0 := hlinked.start first rfl
    have hrun := walkLinksLoop_relaid hnew hlinked hstride (n := 0) hchain (Nat.zero_le _) (j := 0) rfl
    rwa [Nat.zero_mul] at hrun

end Links

section Registers

variable {base limit i : ℕ}

/-- The bytes of a task that are copied: none of a task that links backwards. -/
def copiedBody (content : Bytes) (stride base : ℕ) : Bytes :=
  taskBody content stride base (content.u32 (base + 0x1C))

/-- The converter's walk over the copied bytes of a task, with zeros up to the stride. -/
def copiedWalk (content : Bytes) (stride base : ℕ) : RecordWalk :=
  walkRecords (copiedBody content stride base).u32 stride (firstRecord (copiedBody content stride base))

/-- The converter decodes a task in its old place. -/
def Decodes (content : Bytes) (base limit : ℕ) : Prop :=
  ∃ registers, Hwx.walkRegisters (content.slice base limit) = .ok registers

/-- The copied bytes of a task decode to the registers of the task. -/
def SlotKept (content : Bytes) (stride base limit : ℕ) : Prop :=
  (copiedWalk content stride base).reason ≠ .truncated ∧
    registersOf (copiedWalk content stride base).writes = registersOf (decoderWalk content base limit).writes

/-- The records that the converter reads in a task end inside the stride, their words are the same in the copied
bytes, with zeros behind them, and so is the end: a zero word follows, or none. -/
def RecordsCopied (content : Bytes) (stride base limit : ℕ) : Prop :=
  HoldsRecords (taskWord content base) (copiedBody content stride base).u32 (limit - base) stride
    (if content.u32 (base + 36) &&& 0x3 = 0x3 then 44 else 40)

/-- The copied bytes of a task are a slice from its base on. -/
theorem copiedBody_eq (content : Bytes) (stride base : ℕ) :
    ∃ stop, copiedBody content stride base = content.slice base stop := ⟨_, rfl⟩

/-- The bytes of a slice are those of the whole up to its end, and zero behind it. -/
theorem cutCopy_slice (content : Bytes) (base stop pos : ℕ) :
    CutCopy (taskWord content base) (content.slice base stop).u32 pos := by
  intro p _
  by_cases hinside : base + p + 4 ≤ stop
  · exact .inl (Bytes.u32_slice content hinside)
  · have hzero (q : ℕ) (hq : p + 3 ≤ q) : (content.slice base stop).get q = 0 := by
      rw [Bytes.get_slice, if_neg (by omega)]
    exact .inr ⟨Bytes.u32_lt_of_get_eq_zero (hzero _ (Nat.le_refl _)),
      fun q hq => Bytes.u32_eq_zero fun k _ => hzero _ (by omega)⟩

/-- The copied bytes of a task choose its first record, or they hold no record at all. -/
theorem firstRecord_copiedBody (content : Bytes) (stride base : ℕ) :
    firstRecord (copiedBody content stride base) = (if content.u32 (base + 36) &&& 0x3 = 0x3 then 44 else 40) ∨
      ∀ p, 40 ≤ p → (copiedBody content stride base).u32 p = 0 := by
  obtain ⟨stop, hbody⟩ := copiedBody_eq content stride base
  rw [hbody]
  by_cases hheader : base + 40 ≤ stop
  · rw [firstRecord, Bytes.u32_slice content (by omega)]
    exact .inl rfl
  · refine .inr fun p hp => Bytes.u32_eq_zero fun k _ => ?_
    rw [Bytes.get_slice, if_neg (by omega)]

/-- The walk over the copied bytes may as well start where the walk of the task does. -/
theorem copiedWalk_eq (content : Bytes) (stride base : ℕ) :
    let walk := walkRecords (copiedBody content stride base).u32 stride
      (if content.u32 (base + 36) &&& 0x3 = 0x3 then 44 else 40)
    (copiedWalk content stride base).records = walk.records ∧
      ((copiedWalk content stride base).reason = .truncated ↔ walk.reason = .truncated) := by
  rcases firstRecord_copiedBody content stride base with hfirst | hzero
  · rw [copiedWalk, hfirst]
    exact ⟨rfl, Iff.rfl⟩
  · have hempty (pos : ℕ) (hpos : 40 ≤ pos) :
        (walkRecords (copiedBody content stride base).u32 stride pos).records = [] ∧
          (walkRecords (copiedBody content stride base).u32 stride pos).reason ≠ .truncated :=
      walkRecords_of_zero (hzero pos hpos)
    obtain ⟨hrecords, hreason⟩ : (copiedWalk content stride base).records = [] ∧
        (copiedWalk content stride base).reason ≠ .truncated := hempty _ (by rw [firstRecord]; split_ifs <;> omega)
    obtain ⟨hrecords', hreason'⟩ :=
      hempty (if content.u32 (base + 36) &&& 0x3 = 0x3 then 44 else 40) (by split_ifs <;> omega)
    exact ⟨hrecords.trans hrecords'.symm, iff_of_false hreason hreason'⟩

/-- Copied records keep the registers of their task. -/
theorem RecordsCopied.slotKept (h : RecordsCopied content stride base limit)
    (hreason : (decoderWalk content base limit).reason ≠ .truncated) : SlotKept content stride base limit := by
  obtain ⟨hrecords, hcomplete⟩ := copiedWalk_eq content stride base
  obtain ⟨hsame, hcomplete'⟩ := HoldsRecords.records_eq h hreason
  refine ⟨mt hcomplete.mp hcomplete', ?_⟩
  rw [RecordWalk.writes, hrecords, hsame]
  rfl

/-- Where no register is assigned twice, the registers of a task are kept only if its records are copied. -/
theorem SlotKept.recordsCopied (h : SlotKept content stride base limit) (hstride : 44 ≤ stride)
    (hreason : (decoderWalk content base limit).reason ≠ .truncated)
    (honce : (decoderWalk content base limit).AssignsOnce) (honce' : (copiedWalk content stride base).AssignsOnce) :
    RecordsCopied content stride base limit := by
  obtain ⟨hrecords, hcomplete⟩ := copiedWalk_eq content stride base
  obtain ⟨hkept, hsame⟩ := h
  have hperm := perm_of_registersOf_eq honce honce' hsame
  rw [RecordWalk.writes, hrecords] at hperm
  exact (cutCopy_slice content base _ _).holdsRecords (by split_ifs <;> omega) hreason (mt hcomplete.mpr hkept)
    honce hperm

/-- Of a task that ends at a zero word only the records need to be copied. -/
theorem recordsCopied_of_terminator (hreason : (decoderWalk content base limit).reason = .terminator)
    (hfits : (decoderWalk content base limit).stop ≤ (copiedBody content stride base).size) :
    RecordsCopied content stride base limit := by
  have hword : content.u32 (base + (decoderWalk content base limit).stop) = 0 := (walkRecords_terminator hreason).1
  have hsize : (copiedBody content stride base).size ≤ stride := taskBody_size_le _ _
  obtain ⟨stop, hbody⟩ := copiedBody_eq content stride base
  refine ⟨hfits.trans hsize, fun p hp hmod hlt => ?_, fun _ => Bytes.u32_eq_zero fun k hk => ?_⟩
  · have hstop : (decoderWalk content base limit).stop % 4 = p % 4 := walkRecords_stop_mod.trans hmod.symm
    change p < (decoderWalk content base limit).stop at hlt
    rw [hbody, Bytes.size_slice] at hfits
    rw [hbody]
    exact Bytes.u32_slice content (by omega)
  · change (copiedBody content stride base).get ((decoderWalk content base limit).stop + k) = 0
    rw [hbody, Bytes.get_slice]
    split
    · rw [← Nat.add_assoc, Bytes.get_eq_leNat_shiftRight _ _ 4 k hk, ← Bytes.u32, hword, Nat.zero_shiftRight]
      rfl
    · rfl

/-- A task that decodes has a header inside its slot and complete records. -/
theorem decodes_iff (hlimit : limit ≤ content.size) (registers : Registers) :
    Hwx.walkRegisters (content.slice base limit) = .ok registers ↔ base + 40 ≤ limit ∧
      (decoderWalk content base limit).reason ≠ .truncated ∧
      registersOf (decoderWalk content base limit).writes = registers := by
  by_cases hheader : base + 40 ≤ limit
  · rw [and_iff_right hheader, walkRegisters_slot hheader hlimit, strictResult]
    split
    next hcut => exact ⟨fun h => (by cases h), fun h => absurd hcut h.1⟩
    next hcomplete => rw [Except.ok.injEq, and_iff_right hcomplete]; rfl
  · rw [Hwx.walkRegisters, Hwx.extraHeaderBytes,
      if_pos (by rw [Bytes.size_slice, h13HeaderSize]; omega)]
    exact ⟨fun h => (by cases h), fun h => absurd h.1 hheader⟩

/-- The converter decodes a slot of the new stream as the copied bytes of its task. -/
theorem Relaid.walkRegisters_eq (hnew : Relaid content chain stride new) (hstride : 44 ≤ stride)
    (hbase : chain[i]? = some base) (registers : Registers) :
    Hwx.walkRegisters (new.slice (i * stride) (i * stride + stride)) = .ok registers ↔
      (copiedWalk content stride base).reason ≠ .truncated ∧
        registersOf (copiedWalk content stride base).writes = registers := by
  have hend : i * stride + stride ≤ new.size := by
    have hslot : (i + 1) * stride ≤ chain.length * stride :=
      Nat.mul_le_mul_right stride (List.getElem?_eq_some_iff.mp hbase).1
    rwa [Nat.succ_mul, ← hnew.size] at hslot
  have hword (p : ℕ) (hlink : 0x20 ≤ p) (hp : p + 4 ≤ stride) :
      new.u32 (i * stride + p) = (copiedBody content stride base).u32 p := by
    refine Bytes.u32_congr fun k hk => ?_
    rw [Nat.add_assoc]
    exact hnew.body i base (p + k) hbase (by omega) (.inr (by omega))
  have hwalk : decoderWalk new (i * stride) (i * stride + stride) = copiedWalk content stride base := by
    rw [decoderWalk, copiedWalk, firstRecord, hword 36 (by omega) (by omega), Nat.add_sub_cancel_left]
    exact walkRecords_congr fun p hp _ hle => hword p (by split_ifs at hp <;> omega) hle
  rw [decodes_iff hend, hwalk, and_iff_right (by omega)]

end Registers

section Meaning

variable {oldStream : ℕ} {mapping : List (ℕ × ℕ)}

/-- The new links visit the images of the chain's tasks in order, and every task that decodes from its old place,
up to the next base or the end of the stream, decodes to the same registers from its slot. -/
def KeepsMeaning (content : Bytes) (tdCount : ℕ) (chain : List ℕ) (stride : ℕ) (new : Bytes) (mapping : List (ℕ × ℕ)) :
    Prop :=
  (∃ images, walkLinks new tdCount = .ok images ∧ chain.map (find mapping) = images.map some) ∧
    ∀ slot ∈ slots content.size chain, ∀ image, find mapping slot.1 = some image →
      ∀ registers, Hwx.walkRegisters (content.slice slot.1 slot.2) = .ok registers →
        Hwx.walkRegisters (new.slice image (image + stride)) = .ok registers

/-- The largest record end is past the header of every task. -/
theorem le_maxEnd {bases : List ℕ} (hinside : ∀ base ∈ bases, base + 4 ≤ content.size) {largest out : ℕ}
    (h : maxEnd content oldStream bases largest = .ok out) : largest ≤ out ∧ (bases ≠ [] → 40 ≤ out) := by
  induction bases generalizing largest with
  | nil => exact ⟨Nat.le_of_eq (Except.ok.inj h), fun hne => absurd rfl hne⟩
  | cons base rest ih =>
    unfold maxEnd at h
    obtain ⟨task, htask, h⟩ := bind_eq_ok.mp h
    rw [parseTask_eq (hinside base List.mem_cons_self)] at htask
    obtain rfl := Except.ok.inj htask
    have hrest := (ih (fun other hother => hinside other (List.mem_cons_of_mem base hother)) h).1
    refine ⟨(Nat.le_max_left _ _).trans hrest, fun _ => ?_⟩
    refine Nat.le_trans ?_ ((Nat.le_max_right _ _).trans hrest)
    have hstart : 40 ≤ firstParsedRecord content base := Nat.le_add_right 40 _
    exact hstart.trans le_walkRecords_stop

/-- The chosen stride holds a header. -/
theorem le_stride_of_chooseLayout (h : chooseLayout content tdCount oldStream = .ok (chain, stride)) :
    walkLinks content tdCount = .ok chain ∧ (chain ≠ [] → 0x100 ≤ stride) := by
  rw [chooseLayout] at h
  obtain ⟨walked, hwalked, h⟩ := bind_eq_ok.mp h
  obtain ⟨largest, hlargest, h⟩ := bind_eq_ok.mp h
  obtain ⟨rfl, rfl⟩ := Prod.mk.inj (Except.ok.inj h)
  have hlinked := linked_of_walkLinks hwalked
  refine ⟨hwalked, fun hne => ?_⟩
  have hend := (le_maxEnd (fun base hbase => by have := hlinked.inside base hbase; omega) hlargest).2 hne
  rw [roundStride]
  omega

/-- Each base is mapped to the slot of its place in the chain. -/
theorem find_strideMapping_base (hnodup : chain.Nodup) {i base : ℕ} (hbase : chain[i]? = some base) :
    find (strideMapping stride (chain.map (strideTask content stride))) base = some (i * stride) := by
  have hkeys : (strideMapping stride (chain.map (strideTask content stride))).map Prod.fst = chain := by
    refine List.ext_getElem (by simp [strideMapping]) fun j hleft hright => ?_
    simp [strideMapping, strideTask]
  refine (find_eq_some_iff (hkeys.symm ▸ hnodup)).mpr (List.mem_mapIdx.mpr ?_)
  obtain ⟨hlt, hvalue⟩ := List.getElem?_eq_some_iff.mp hbase
  refine ⟨i, (List.length_map (strideTask content stride)).symm ▸ hlt, ?_⟩
  rw [List.getElem_map, hvalue]
  rfl

/-- The links are kept whatever the chain. The registers of the tasks are kept exactly where the copied bytes of every
task that decodes give its registers: that is where its records are copied, and only there if no register is assigned
twice. -/
theorem normalizeStride_keepsMeaning_iff (hlayout : chooseLayout content tdCount oldStream = .ok (chain, stride))
    (h : normalizeStride content chain stride = .ok (new, mapping)) :
    (∃ images, walkLinks new tdCount = .ok images ∧ chain.map (find mapping) = images.map some) ∧
      (KeepsMeaning content tdCount chain stride new mapping ↔
        ∀ slot ∈ slots content.size chain, Decodes content slot.1 slot.2 → SlotKept content stride slot.1 slot.2) ∧
      ∀ slot ∈ slots content.size chain, Decodes content slot.1 slot.2 →
        (RecordsCopied content stride slot.1 slot.2 → SlotKept content stride slot.1 slot.2) ∧
          ((decoderWalk content slot.1 slot.2).AssignsOnce → (copiedWalk content stride slot.1).AssignsOnce →
            SlotKept content stride slot.1 slot.2 → RecordsCopied content stride slot.1 slot.2) := by
  obtain ⟨hchain, hstride⟩ := le_stride_of_chooseLayout hlayout
  have hlinked := linked_of_walkLinks hchain
  have hmapping := (normalizeStride_eq_ok hchain h).1
  have himage {i base : ℕ} (hbase : chain[i]? = some base) : find mapping base = some (i * stride) :=
    hmapping ▸ find_strideMapping_base hlinked.nodup hbase
  have hlinks : ∃ images, walkLinks new tdCount = .ok images ∧ chain.map (find mapping) = images.map some := by
    by_cases hnil : chain = []
    · subst hnil
      rw [eq_zero_of_walkLinks_nil hchain]
      exact ⟨[], rfl, rfl⟩
    · have hpos := hstride hnil
      refine ⟨_, walkLinks_relaid hchain (relaid_of_normalizeStride hchain (by omega) h) (by omega), ?_⟩
      refine List.ext_getElem (by simp [slotBases]) fun i hleft hright => ?_
      rw [List.length_map] at hleft
      rw [List.getElem_map, himage (List.getElem?_eq_getElem hleft)]
      simp [slotBases]
  -- A slot of the old stream: its place in the chain, its limit, and what the new slot decodes to.
  have hslots {slot : ℕ × ℕ} (hslot : slot ∈ slots content.size chain) : ∃ i, chain[i]? = some slot.1 ∧
      slot.2 ≤ content.size ∧ 0x100 ≤ stride ∧ ∀ registers,
        (Hwx.walkRegisters (new.slice (i * stride) (i * stride + stride)) = .ok registers ↔
          (copiedWalk content stride slot.1).reason ≠ .truncated ∧
            registersOf (copiedWalk content stride slot.1).writes = registers) := by
    obtain ⟨hmem, -, hlimit, -⟩ := slots_of_nodup hlinked.nodup
      (fun other hother => by have := hlinked.inside other hother; omega) hslot
    obtain ⟨i, hi⟩ := List.mem_iff_getElem?.mp hmem
    have hpos := hstride (List.ne_nil_of_mem hmem)
    exact ⟨i, hi, hlimit, hpos,
      (relaid_of_normalizeStride hchain (by omega) h).walkRegisters_eq (by omega) hi⟩
  refine ⟨hlinks, ⟨fun hkept slot hslot hdecodes => ?_, fun hkept => ⟨hlinks, ?_⟩⟩, fun slot hslot hdecodes => ?_⟩
  · obtain ⟨i, hi, hlimit, -, hnew⟩ := hslots hslot
    obtain ⟨registers, hregisters⟩ := hdecodes
    obtain ⟨-, -, hold⟩ := (decodes_iff hlimit registers).mp hregisters
    obtain ⟨hcomplete, hsame⟩ := (hnew registers).mp (hkept.2 slot hslot _ (himage hi) registers hregisters)
    exact ⟨hcomplete, hsame.trans hold.symm⟩
  · intro slot hslot image hfind registers hold
    obtain ⟨i, hi, hlimit, -, hnew⟩ := hslots hslot
    obtain rfl : image = i * stride := Option.mem_unique hfind (himage hi)
    obtain ⟨hcomplete, hsame⟩ := hkept slot hslot ⟨registers, hold⟩
    exact (hnew registers).mpr ⟨hcomplete, hsame.trans ((decodes_iff hlimit registers).mp hold).2.2⟩
  · obtain ⟨-, -, hlimit, hpos, -⟩ := hslots hslot
    obtain ⟨registers, hregisters⟩ := hdecodes
    obtain ⟨-, hcomplete, -⟩ := (decodes_iff hlimit registers).mp hregisters
    exact ⟨fun hcopied => hcopied.slotKept hcomplete,
      fun honce honce' hkept => hkept.recordsCopied (by omega) hcomplete honce honce'⟩

/-- Two tasks with one record each, `0x200` bytes apart. -/
def forwardLink : Bytes :=
  Bytes.ofFields 0x400 [(0x1C, 0x200), (0x28, 0x100), (0x2C, 7), (0x228, 0x100), (0x22C, 8)]

/-- Both tasks keep their registers: their records are copied. -/
theorem normalizeStride_keepsMeaning_iff_forwardLink :
    KeepsMeaning forwardLink 2 [0, 0x200] 0x100
      (Bytes.ofFields 0x200 [(0x1C, 0x100), (0x28, 0x100), (0x2C, 7), (0x128, 0x100), (0x12C, 8)])
      [(0, 0), (0x200, 0x100)] := by
  have hlayout : chooseLayout forwardLink 2 0x400 = .ok ([0, 0x200], 0x100) := by decide +kernel
  have hrun : normalizeStride forwardLink [0, 0x200] 0x100 = .ok
      (Bytes.ofFields 0x200 [(0x1C, 0x100), (0x28, 0x100), (0x2C, 7), (0x128, 0x100), (0x12C, 8)],
        [(0, 0), (0x200, 0x100)]) := by decide +kernel
  obtain ⟨-, hiff, hcopied⟩ := normalizeStride_keepsMeaning_iff hlayout hrun
  refine hiff.mpr fun slot hslot hdecodes => (hcopied slot hslot hdecodes).1 ?_
  have hslots : slots forwardLink.size [0, 0x200] = [(0, 0x200), (0x200, 0x400)] := by decide +kernel
  rw [hslots] at hslot
  rcases List.mem_pair.mp hslot with rfl | rfl
  · exact recordsCopied_of_terminator (by decide +kernel) (by decide +kernel)
  · exact recordsCopied_of_terminator (by decide +kernel) (by decide +kernel)

/-- Three tasks linked `0`, `0x200`, `0x100`; the second one assigns register `0x100`. -/
def backwardLink : Bytes := Bytes.ofFields 0x300 [(0x1C, 0x200), (0x21C, 0x100), (0x228, 0x100), (0x22C, 7)]

/-- The task that links backwards is left out of its slot, with the record it holds. -/
theorem normalizeStride_drops_record : ∃ new mapping,
    chooseLayout backwardLink 3 0x300 = .ok ([0, 0x200, 0x100], 0x100) ∧
      normalizeStride backwardLink [0, 0x200, 0x100] 0x100 = .ok (new, mapping) ∧
      ¬ KeepsMeaning backwardLink 3 [0, 0x200, 0x100] 0x100 new mapping := by
  refine ⟨Bytes.ofFields 0x300 [(0x1C, 0x100), (0x11C, 0x200)], [(0, 0), (0x200, 0x100), (0x100, 0x200)],
    by decide +kernel, by decide +kernel, fun hkept => ?_⟩
  have hold : ((Hwx.walkRegisters (backwardLink.slice 0x200 0x300)).toOption.bind fun r => r 0x100) = some 7 := by
    decide +kernel
  have hnew : ((Hwx.walkRegisters ((Bytes.ofFields 0x300 [(0x1C, 0x100), (0x11C, 0x200)]).slice 0x100
      (0x100 + 0x100))).toOption.bind fun r => r 0x100) = none := by
    decide +kernel
  obtain ⟨registers, hregisters, hvalue⟩ := Option.bind_eq_some_iff.mp hold
  have hsame := hkept.2 (0x200, 0x300) (by decide +kernel) 0x100 rfl registers (toOption_eq_some.mp hregisters)
  rw [toOption_eq_some.mpr hsame, Option.bind_some, hvalue] at hnew
  cases hnew

end Meaning

end AneLinux.Staged
