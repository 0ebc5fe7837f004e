import AneLinux.Anec.OriginalPrefix

/-!
# The bytes of a packed bootstrap

`buildBootstrap` writes task `i` at `0x300 * i`, with a new id and a remapped link. A copy longer
than the spacing runs into the next slots, and what counts there is what the last task copied
over it wrote: each byte of the result is the slot byte of the last task that covers it.
-/

namespace AneLinux.Anec

open AneLinux.Support AneLinux.Hwx

/-- How many bytes of a task are copied. -/
def copySize (taskStreamSize tdSize base : ℕ) : ℕ := min tdSize (taskStreamSize - base)

/-- The link of a task. -/
def taskLink (data : Bytes) (start base : ℕ) : ℕ := data.u32 (start + base + 0x1C)

/-- Byte `pos` of the bootstrap lies in what is copied to slot `i`. -/
def InSlot (taskStreamSize tdSize i base pos : ℕ) : Prop :=
  i * slotSpacing ≤ pos ∧ pos < i * slotSpacing + copySize taskStreamSize tdSize base

/-- The link of a packed task. -/
def mappedLink (selected : List ℕ) (link : ℕ) : ℕ :=
  if link = 0 then 0 else (find (slotTable selected) link).getD 0

/-- Byte `k` of a packed task before termination. -/
def packedByte (data : Bytes) (start : ℕ) (selected : List ℕ) (i base k : ℕ) : UInt8 :=
  if k < 2 then UInt8.ofNat (i >>> (8 * k))
  else if 0x1C ≤ k ∧ k < 0x20 then
    UInt8.ofNat (mappedLink selected (taskLink data start base) >>> (8 * (k - 0x1C)))
  else data.get (start + base + k)

/-- Byte `k` of the slot of a task. -/
def slotByte (data : Bytes) (start : ℕ) (selected : List ℕ) (i base k : ℕ) : UInt8 :=
  if i + 1 = selected.length then terminalByte k (packedByte data start selected i base k)
  else packedByte data start selected i base k

variable {data bootstrap result : Bytes} {start taskStreamSize tdSize tdCount : ℕ} {selected bases : List ℕ}
  {destinations : List (ℕ × ℕ)} {i base : ℕ}

/-! ## One task -/

variable {slot size : ℕ} {rest : List ℕ}

/-- Writing inside a spliced slice. -/
theorem get_splice_slice (hslot : slot + size ≤ bootstrap.size) (source : ℕ) (hsource : source + size ≤ data.size)
    (pos : ℕ) :
    (bootstrap.splice slot (slot + size) (data.slice source (source + size))).get pos =
      if slot ≤ pos ∧ pos < slot + size then data.get (source + (pos - slot)) else bootstrap.get pos := by
  have hsize : (data.slice source (source + size)).size = slot + size - slot := by
    rw [Bytes.size_slice]
    omega
  rw [Bytes.get_splice_of_eq (Nat.le_add_right _ _) hslot hsize]
  split_ifs with hinside
  · rw [Bytes.get_slice_of_lt _ (by omega)]
  · rfl

/-- What a packed task leaves: the buffer it copied into with a new header word and, when there
is a link, a new link. -/
theorem packTask_eq_ok
    (h : packTask data start taskStreamSize tdSize tdCount destinations bootstrap i base = .ok result) :
    let slot := i * slotSpacing
    let size := copySize taskStreamSize tdSize base
    let copied := bootstrap.splice slot (slot + size) (data.slice (start + base) (start + base + size))
    let named := copied.putLE slot 4 (copied.u32 slot &&& 0xFFFF0000 ||| i)
    base + 0x20 ≤ taskStreamSize ∧ slot + 0x20 ≤ copied.size ∧
      (named.u32 (slot + 0x1C) = 0 ∧ result = named ∨
        named.u32 (slot + 0x1C) ≠ 0 ∧
          ((find destinations (named.u32 (slot + 0x1C))).isSome ∨ i = tdCount - 1) ∧
          result = named.putLE (slot + 0x1C) 4 ((find destinations (named.u32 (slot + 0x1C))).getD 0)) := by
  intro slot size copied named
  rw [packTask] at h
  by_cases hshort : taskStreamSize < base + 0x20
  · rw [if_pos hshort] at h
    exact absurd h (raiseValue_ne_ok _ _)
  rw [if_neg hshort] at h
  obtain ⟨header, hheader, h⟩ := bind_eq_ok.mp h
  obtain ⟨-, rfl⟩ := unpackU32_eq_ok.mp hheader
  obtain ⟨written, hwritten, h⟩ := bind_eq_ok.mp h
  obtain ⟨-, rfl⟩ := packU32_eq_ok.mp hwritten
  obtain ⟨next, hnext, h⟩ := bind_eq_ok.mp h
  obtain ⟨hroom, rfl⟩ := unpackU32_eq_ok.mp hnext
  refine ⟨by omega, by rwa [Bytes.size_putLE, Nat.add_assoc] at hroom, ?_⟩
  split at h
  · rename_i hzero
    exact Or.inl ⟨hzero, (Except.ok.inj h).symm⟩
  rename_i hzero
  refine Or.inr ⟨hzero, ?_⟩
  split at h
  · rename_i mapped hfind
    have hfound : find destinations (named.u32 (slot + 0x1C)) = some mapped := hfind
    rw [hfound]
    exact ⟨Or.inl rfl, (packU32_eq_ok.mp h).2.symm⟩
  · rename_i hfind
    have hnone : find destinations (named.u32 (slot + 0x1C)) = none := hfind
    rw [hnone]
    split_ifs at h with hlast
    · exact absurd h (raiseValue_ne_ok _ _)
    · exact ⟨Or.inr (not_not.mp hlast), (packU32_eq_ok.mp h).2.symm⟩

theorem size_copied (hinside : start + taskStreamSize ≤ data.size) (hbase : base + 0x20 ≤ taskStreamSize)
    (hslot : i * slotSpacing + copySize taskStreamSize tdSize base ≤ bootstrap.size) :
    (bootstrap.splice (i * slotSpacing) (i * slotSpacing + copySize taskStreamSize tdSize base)
      (data.slice (start + base) (start + base + copySize taskStreamSize tdSize base))).size = bootstrap.size := by
  apply Bytes.size_splice_of_eq (Nat.le_add_right _ _) hslot
  rw [Bytes.size_slice]
  unfold copySize
  omega

theorem packTask_size (hinside : start + taskStreamSize ≤ data.size)
    (h : packTask data start taskStreamSize tdSize tdCount destinations bootstrap i base = .ok result)
    (hslot : i * slotSpacing + copySize taskStreamSize tdSize base ≤ bootstrap.size) :
    result.size = bootstrap.size := by
  obtain ⟨hbase, -, hresult⟩ := packTask_eq_ok h
  rcases hresult with ⟨-, rfl⟩ | ⟨-, -, rfl⟩
  · exact size_copied hinside hbase hslot
  · exact size_copied hinside hbase hslot

/-- The header word of a packed task: the new id below, the old half above. -/
theorem header_byte {word k : ℕ} (hi : i < 0x10000) (hk : k < 4) :
    UInt8.ofNat ((word &&& 0xFFFF0000 ||| i) >>> (8 * k)) =
      if k < 2 then UInt8.ofNat (i >>> (8 * k)) else UInt8.ofNat (word >>> (8 * k)) := by
  rw [Nat.shiftRight_or_distrib, Nat.shiftRight_and_distrib, UInt8.ofNat_or, UInt8.ofNat_and]
  split_ifs with hlow
  · have hmask : UInt8.ofNat (0xFFFF0000 >>> (8 * k)) = 0 := by
      obtain rfl | rfl : k = 0 ∨ k = 1 := by omega
      · rfl
      · rfl
    rw [hmask, UInt8.and_zero, UInt8.zero_or]
  · have hmask : UInt8.ofNat (0xFFFF0000 >>> (8 * k)) = 0xFF := by
      obtain rfl | rfl : k = 2 ∨ k = 3 := by omega
      · rfl
      · rfl
    have hid : i >>> (8 * k) = 0 := by
      have hpow : 2 ^ 16 ≤ 2 ^ (8 * k) := Nat.pow_le_pow_right (by decide) (by omega)
      rw [Nat.shiftRight_eq_div_pow]
      exact Nat.div_eq_of_lt (Nat.lt_of_lt_of_le hi hpow)
    rw [hmask, hid]
    change UInt8.ofNat (word >>> (8 * k)) &&& 0xFF ||| 0 = _
    rw [UInt8.or_zero]
    exact UInt8.and_neg_one

/-- A copied task with its new header word. -/
theorem get_named {copied : Bytes} (hi : i < 0x10000) (hsize : 4 ≤ size) (hslot : slot + size ≤ copied.size)
    (source : ℕ) (hcopied : ∀ k < size, copied.get (slot + k) = data.get (source + k)) {k : ℕ} (hk : k < size) :
    (copied.putLE slot 4 (copied.u32 slot &&& 0xFFFF0000 ||| i)).get (slot + k) =
      if k < 2 then UInt8.ofNat (i >>> (8 * k)) else data.get (source + k) := by
  by_cases hword : k < 4
  · rw [Bytes.get_putLE _ hword (by omega), header_byte hi hword, ← hcopied k hk,
      copied.get_eq_leNat_shiftRight slot 4 k hword]
    rfl
  · rw [Bytes.get_putLE_of_ne _ (by omega), hcopied k hk, if_neg (by omega)]

/-- A packed task: the bytes of its slot are the packed bytes, every other byte is kept, and its
link is zero, goes to a selected base, or is the last one. -/
theorem packTask_bytes (hinside : start + taskStreamSize ≤ data.size) (htd : 0x20 ≤ tdSize) (hi : i < 0x10000)
    (h : packTask data start taskStreamSize tdSize tdCount (slotTable selected) bootstrap i base = .ok result)
    (hslot : i * slotSpacing + copySize taskStreamSize tdSize base ≤ bootstrap.size) :
    (taskLink data start base = 0 ∨ (find (slotTable selected) (taskLink data start base)).isSome ∨
        i = tdCount - 1) ∧
      (∀ pos, ¬ InSlot taskStreamSize tdSize i base pos → result.get pos = bootstrap.get pos) ∧
      ∀ k < copySize taskStreamSize tdSize base,
        result.get (i * slotSpacing + k) = packedByte data start selected i base k := by
  obtain ⟨hbase, -, hresult⟩ := packTask_eq_ok h
  have hcopied := size_copied hinside hbase hslot
  have hsize : 0x20 ≤ copySize taskStreamSize tdSize base := by
    unfold copySize
    omega
  have hsource : start + base + copySize taskStreamSize tdSize base ≤ data.size := by
    unfold copySize
    omega
  have hget := get_splice_slice hslot (start + base) hsource
  generalize bootstrap.splice (i * slotSpacing) (i * slotSpacing + copySize taskStreamSize tdSize base)
    (data.slice (start + base) (start + base + copySize taskStreamSize tdSize base)) = copied
    at hcopied hget hresult
  have hown (k : ℕ) (hk : k < copySize taskStreamSize tdSize base) :
      copied.get (i * slotSpacing + k) = data.get (start + base + k) := by
    rw [hget, if_pos (by omega), Nat.add_sub_cancel_left]
  have hnamed (k : ℕ) (hk : k < copySize taskStreamSize tdSize base) :=
    get_named hi (by omega) (by omega) (start + base) hown hk
  have hkept (pos : ℕ) (hpos : ¬ InSlot taskStreamSize tdSize i base pos) : copied.get pos = bootstrap.get pos := by
    rw [hget]
    exact if_neg hpos
  have hlink : (copied.putLE (i * slotSpacing) 4 (copied.u32 (i * slotSpacing) &&& 0xFFFF0000 ||| i)).u32
      (i * slotSpacing + 0x1C) = taskLink data start base := by
    apply Bytes.u32_congr
    intro k hk
    rw [Nat.add_assoc, hnamed _ (by omega), if_neg (by omega), Nat.add_assoc (start + base)]
  rw [hlink] at hresult
  rcases hresult with ⟨hzero, rfl⟩ | ⟨hne, hfound, rfl⟩
  · refine ⟨Or.inl hzero, fun pos hpos => ?_, fun k hk => ?_⟩
    · rw [← hkept pos hpos]
      apply Bytes.get_putLE_of_ne
      unfold InSlot at hpos
      omega
    · rw [hnamed k hk, packedByte, mappedLink, if_pos hzero]
      split_ifs with hid hlinkByte
      · rfl
      · obtain ⟨m, rfl⟩ := Nat.exists_eq_add_of_le hlinkByte.1
        rw [Nat.zero_shiftRight, ← Nat.add_assoc]
        exact (u32_eq_zero_iff _ _).mp hzero m (by omega)
      · rfl
  · refine ⟨Or.inr hfound, fun pos hpos => ?_, fun k hk => ?_⟩
    · unfold InSlot at hpos
      rw [← hkept pos hpos, Bytes.get_putLE_of_ne _ (by omega), Bytes.get_putLE_of_ne _ (by omega)]
    · rw [packedByte, mappedLink, if_neg hne]
      by_cases hlinkByte : 0x1C ≤ k ∧ k < 0x20
      · obtain ⟨m, rfl⟩ := Nat.exists_eq_add_of_le hlinkByte.1
        rw [← Nat.add_assoc, Bytes.get_putLE _ (by omega) (by rw [Bytes.size_putLE]; omega), if_neg (by omega),
          if_pos hlinkByte, Nat.add_sub_cancel_left]
      · rw [Bytes.get_putLE_of_ne _ (by omega), hnamed k hk, if_neg hlinkByte]

/-! ## All tasks -/

/-- Every slot of the remaining tasks lies in the buffer. -/
def SlotsFit (taskStreamSize tdSize i : ℕ) (rest : List ℕ) (size : ℕ) : Prop :=
  ∀ m base, rest[m]? = some base → (i + m) * slotSpacing + copySize taskStreamSize tdSize base ≤ size

theorem SlotsFit.tail (h : SlotsFit taskStreamSize tdSize i (base :: rest) size) :
    SlotsFit taskStreamSize tdSize (i + 1) rest size := by
  intro m other hother
  rw [Nat.add_right_comm]
  exact h (m + 1) other hother

theorem packTasks_size (hinside : start + taskStreamSize ≤ data.size)
    (h : packTasks data start taskStreamSize tdSize tdCount destinations i rest bootstrap = .ok result)
    (hfit : SlotsFit taskStreamSize tdSize i rest bootstrap.size) : result.size = bootstrap.size := by
  induction rest generalizing i bootstrap with
  | nil => rw [Except.ok.inj h]
  | cons base rest ih =>
    obtain ⟨packed, hpacked, h⟩ := bind_eq_ok.mp h
    have hsize := packTask_size hinside hpacked (hfit 0 base rfl)
    rw [← hsize] at hfit ⊢
    exact ih h hfit.tail

/-- The packed tasks: each slot holds its packed bytes where no later slot lies over them. -/
theorem packTasks_bytes (hinside : start + taskStreamSize ≤ data.size) (htd : 0x20 ≤ tdSize)
    (hids : i + rest.length ≤ 0x10000)
    (h : packTasks data start taskStreamSize tdSize tdCount (slotTable selected) i rest bootstrap = .ok result)
    (hfit : SlotsFit taskStreamSize tdSize i rest bootstrap.size) :
    (∀ m base, rest[m]? = some base → base + 0x20 ≤ taskStreamSize ∧ (taskLink data start base = 0 ∨
        (find (slotTable selected) (taskLink data start base)).isSome ∨ i + m = tdCount - 1)) ∧
      (∀ pos, (∀ m base, rest[m]? = some base → ¬ InSlot taskStreamSize tdSize (i + m) base pos) →
        result.get pos = bootstrap.get pos) ∧
      ∀ m base k, rest[m]? = some base → k < copySize taskStreamSize tdSize base →
        (∀ later other, rest[later]? = some other → m < later →
          ¬ InSlot taskStreamSize tdSize (i + later) other ((i + m) * slotSpacing + k)) →
        result.get ((i + m) * slotSpacing + k) = packedByte data start selected (i + m) base k := by
  induction rest generalizing i bootstrap with
  | nil =>
    obtain rfl := Except.ok.inj h
    exact ⟨by simp, fun _ _ => rfl, by simp⟩
  | cons base rest ih =>
    obtain ⟨packed, hpacked, h⟩ := bind_eq_ok.mp h
    rw [List.length_cons] at hids
    have hslot : i * slotSpacing + copySize taskStreamSize tdSize base ≤ bootstrap.size := hfit 0 base rfl
    have hsize := packTask_size hinside hpacked hslot
    obtain ⟨hlink, hkept, hown⟩ := packTask_bytes hinside htd (by omega) hpacked hslot
    obtain ⟨hlinks, hothers, hbytes⟩ := ih (by omega) h (by
      rw [hsize]
      exact hfit.tail)
    have hshift (m : ℕ) : i + (m + 1) = i + 1 + m := by omega
    refine ⟨fun m other hother => ?_, fun pos hpos => ?_, fun m other k hother hk hlater => ?_⟩
    · cases m with
      | zero =>
        obtain rfl := Option.some.inj hother
        exact ⟨(packTask_eq_ok hpacked).1, hlink⟩
      | succ m =>
        rw [hshift]
        exact hlinks m other hother
    · rw [hothers pos fun m other hother => by
        rw [← hshift]
        exact hpos (m + 1) other hother]
      exact hkept pos (hpos 0 base rfl)
    · cases m with
      | zero =>
        obtain rfl := Option.some.inj hother
        rw [Nat.add_zero, hothers _ fun later final hfinal => by
          rw [← hshift]
          exact hlater (later + 1) final hfinal (Nat.succ_pos later)]
        exact hown k hk
      | succ m =>
        rw [hshift]
        apply hbytes m other k hother hk
        intro later final hfinal hlt
        rw [← hshift, ← hshift]
        exact hlater (later + 1) final hfinal (by omega)

/-! ## The terminated bootstrap -/

/-- What is known of a bootstrap whose ids fit a half-word. -/
structure Built (data : Bytes) (start taskStreamSize tdSize : ℕ) (selected : List ℕ) (bootstrap : Bytes) :
    Prop where
  nonempty : 0 < selected.length
  ids : selected.length ≤ 0x10000
  increasing : selected.Pairwise (· < ·)
  header : 0x20 ≤ tdSize
  inside : ∀ i base : ℕ, selected[i]? = some base → base + 0x20 ≤ taskStreamSize
  linked : ∀ i base : ℕ, selected[i]? = some base → i + 1 ≠ selected.length →
    taskLink data start base = 0 ∨ ∃ j : ℕ, selected[j]? = some (taskLink data start base)
  bytes : ∀ i base k, selected[i]? = some base → k < copySize taskStreamSize tdSize base →
    (∀ j other, selected[j]? = some other → i < j →
      ¬ InSlot taskStreamSize tdSize j other (i * slotSpacing + k)) →
    bootstrap.get (i * slotSpacing + k) = slotByte data start selected i base k

/-- The slot table maps the `j`-th selected base to slot `j`. -/
theorem find_slotTable (hincreasing : selected.Pairwise (· < ·)) {link : ℕ} :
    find (slotTable selected) link = some slot ↔ ∃ j : ℕ, selected[j]? = some link ∧ slot = j * slotSpacing := by
  have hkeys : ((selected.zipIdx.map fun entry => (entry.1, entry.2 * slotSpacing)).map Prod.fst).Nodup := by
    rw [List.map_map]
    change (selected.zipIdx.map Prod.fst).Nodup
    rw [List.zipIdx_map_fst]
    exact hincreasing.imp Nat.ne_of_lt
  rw [slotTable, find_dict_eq_some_iff hkeys, List.mem_map]
  constructor
  · intro h
    obtain ⟨⟨base, j⟩, hmem, heq⟩ := h
    obtain ⟨rfl, rfl⟩ := Prod.mk.inj heq
    exact ⟨j, List.mem_zipIdx_iff_getElem?.mp hmem, rfl⟩
  · intro h
    obtain ⟨j, hj, rfl⟩ := h
    exact ⟨(link, j), List.mem_zipIdx_iff_getElem?.mpr hj, rfl⟩

/-- A returned bootstrap is the packed tasks with the last slot terminated. -/
theorem buildBootstrap_eq_ok (hcount : 1 ≤ tdCount)
    (h : buildBootstrap data start taskStreamSize bases tdSize tdCount = .ok bootstrap) :
    tdCount ≤ bases.length ∧ ∃ packed,
      packTasks data start taskStreamSize tdSize tdCount (slotTable (bases.take tdCount)) 0
        (bases.take tdCount) (Bytes.zeros ((tdCount - 1) * slotSpacing + tdSize)) = .ok packed ∧
      (tdCount - 1) * slotSpacing + 0x20 ≤ packed.size ∧
      bootstrap = terminated packed ((tdCount - 1) * slotSpacing) := by
  have hsize : (((tdCount : ℤ) - 1) * slotSpacing + tdSize).toNat = (tdCount - 1) * slotSpacing + tdSize := by
    unfold slotSpacing
    omega
  have hlast : (((tdCount : ℤ) - 1) * slotSpacing).toNat = (tdCount - 1) * slotSpacing := by
    unfold slotSpacing
    omega
  rw [buildBootstrap] at h
  by_cases hfew : bases.length < tdCount
  · rw [if_pos hfew] at h
    exact absurd h (raiseValue_ne_ok _ _)
  have hnonneg : ¬ ((tdCount : ℤ) - 1) * slotSpacing + tdSize < 0 := by
    unfold slotSpacing
    omega
  rw [if_neg hfew, if_neg hnonneg, hsize] at h
  obtain ⟨packed, hpacked, h⟩ := bind_eq_ok.mp h
  obtain ⟨-, hroom, rfl⟩ := terminateTask_eq_ok h
  refine ⟨by omega, packed, hpacked, ?_, by rw [hlast]⟩
  unfold slotSpacing at hroom ⊢
  omega

theorem slotsFit_start (hcount : 1 ≤ tdCount) :
    SlotsFit taskStreamSize tdSize 0 (bases.take tdCount)
      (Bytes.zeros ((tdCount - 1) * slotSpacing + tdSize)).size := by
  intro m base hbase
  have hlt := (List.getElem?_eq_some_iff.mp hbase).1
  rw [List.length_take] at hlt
  rw [Bytes.size_zeros]
  unfold slotSpacing copySize
  omega

theorem buildBootstrap_built (hincreasing : bases.Pairwise (· < ·)) (hinside : start + taskStreamSize ≤ data.size)
    (hcount : 1 ≤ tdCount) (hids : (bases.take tdCount).length ≤ 0x10000)
    (h : buildBootstrap data start taskStreamSize bases tdSize tdCount = .ok bootstrap) :
    Built data start taskStreamSize tdSize (bases.take tdCount) bootstrap := by
  obtain ⟨hlength, packed, hpacked, hroom, rfl⟩ := buildBootstrap_eq_ok hcount h
  have hlen : (bases.take tdCount).length = tdCount := by
    rw [List.length_take]
    omega
  have hfit := @slotsFit_start taskStreamSize tdSize tdCount bases hcount
  have hsize := packTasks_size hinside hpacked hfit
  rw [Bytes.size_zeros] at hsize
  have htd : 0x20 ≤ tdSize := by omega
  obtain ⟨hlinks, -, hbytes⟩ := packTasks_bytes hinside htd (by omega) hpacked hfit
  have hselected : (bases.take tdCount).Pairwise (· < ·) := hincreasing.sublist (List.take_sublist _ _)
  simp only [Nat.zero_add] at hlinks hbytes
  refine ⟨by omega, hids, hselected, htd, fun i base hbase => (hlinks i base hbase).1, fun i base hbase hi => ?_,
    fun i base k hbase hk hlater => ?_⟩
  · rcases (hlinks i base hbase).2 with hzero | hfound | hlast
    · exact Or.inl hzero
    · obtain ⟨slot, hslot⟩ := Option.isSome_iff_exists.mp hfound
      obtain ⟨j, hj, -⟩ := (find_slotTable hselected).mp hslot
      exact Or.inr ⟨j, hj⟩
    · omega
  · have hbyte := hbytes i base k hbase hk hlater
    have hi := (List.getElem?_eq_some_iff.mp hbase).1
    rw [slotByte, hlen]
    by_cases hlast : i + 1 = tdCount
    · obtain rfl : i = tdCount - 1 := by omega
      rw [if_pos hlast, get_terminated hroom, hbyte]
    · rw [if_neg hlast, ← hbyte]
      by_cases hbefore : i * slotSpacing + k < (tdCount - 1) * slotSpacing
      · exact get_terminated_of_lt hbefore
      · apply get_terminated_of_le hroom
        by_contra hheader
        obtain ⟨final, hfinal⟩ : ∃ final, (bases.take tdCount)[tdCount - 1]? = some final :=
          ⟨_, List.getElem?_eq_getElem (by omega)⟩
        have hspace := (hlinks _ _ hfinal).1
        apply hlater (tdCount - 1) final hfinal (by omega)
        unfold InSlot copySize
        omega

end AneLinux.Anec
