import AneLinux.Anec.PackedTasks

/-!
# The packed bootstrap as a repacking

The packed stream is the selected tasks again, with the ids and links of their slots, exactly
when the overlaps of long copies happen to agree and the chain of the selected tasks ends at a
terminal one. The link to the first selected base becomes 0, which is also what ends a chain.
-/

namespace AneLinux.Anec

open AneLinux.Support AneLinux.Hwx

/-- The bits of byte `k` of a packed task that the packing leaves alone: all but the id, the
link and, in the last task, the terminal fields. -/
def keptByPacking (last : Bool) (k : ℕ) : UInt8 :=
  if k < 2 ∨ 0x1C ≤ k ∧ k < 0x20 then 0
  else if last then keptByTermination k
  else 0xFF

/-- A slot links to another. -/
def SlotLink (bootstrap : Bytes) (slot next : ℕ) : Prop :=
  next = bootstrap.u32 (slot + 0x1C) ∧ next ≠ 0

/-- The bootstrap is the selected tasks again: their bytes, ids and links, and a chain that ends
at a slot with the terminal bits. -/
structure Repacked (data : Bytes) (start taskStreamSize tdSize : ℕ) (selected : List ℕ) (bootstrap : Bytes) :
    Prop where
  bytes : ∀ i base, selected[i]? = some base → ∀ k < copySize taskStreamSize tdSize base,
    bootstrap.get (i * slotSpacing + k) &&& keptByPacking (i + 1 = selected.length) k =
      data.get (start + base + k) &&& keptByPacking (i + 1 = selected.length) k
  ids : ∀ i < selected.length, halfWord bootstrap (i * slotSpacing) = i
  links : ∀ i base j, selected[i]? = some base → selected[j]? = some (taskLink data start base) →
    bootstrap.u32 (i * slotSpacing + 0x1C) = j * slotSpacing
  ends : ∃ i < selected.length, Relation.ReflTransGen (SlotLink bootstrap) 0 (i * slotSpacing) ∧
    bootstrap.u32 (i * slotSpacing + 0x1C) = 0 ∧ bootstrap.get (i * slotSpacing + 3) &&& 0x03 = 0x03

/-- One selected task, not the last, links to another, not the first. -/
def TaskStep (data : Bytes) (start : ℕ) (selected : List ℕ) (i j : ℕ) : Prop :=
  i + 1 ≠ selected.length ∧ j ≠ 0 ∧
    ∃ base, selected[i]? = some base ∧ selected[j]? = some (taskLink data start base)

/-- When the packing succeeds: the ids fit a half-word, wherever copies overlap the last one
agrees with the earlier task, the last task links to no selected task but the first, and the
links from the first task end at the last one or, at the end of the chain or back at the first
base, at a task that is already terminal. -/
structure Repackable (data : Bytes) (start taskStreamSize tdSize : ℕ) (selected : List ℕ) : Prop where
  ids : selected.length ≤ 0x10000
  overlaps : ∀ i base j other k, selected[i]? = some base → selected[j]? = some other → i < j →
    k < copySize taskStreamSize tdSize base → InSlot taskStreamSize tdSize j other (i * slotSpacing + k) →
    (∀ m later, selected[m]? = some later → j < m → ¬ InSlot taskStreamSize tdSize m later (i * slotSpacing + k)) →
    slotByte data start selected j other (i * slotSpacing + k - j * slotSpacing) &&&
        keptByPacking (i + 1 = selected.length) k =
      data.get (start + base + k) &&& keptByPacking (i + 1 = selected.length) k
  lastLink : ∀ i base j, i + 1 = selected.length → selected[i]? = some base →
    selected[j]? = some (taskLink data start base) → j = 0
  ends : ∃ i base, selected[i]? = some base ∧ Relation.ReflTransGen (TaskStep data start selected) 0 i ∧
    (i + 1 = selected.length ∨
      (taskLink data start base = 0 ∨ selected[0]? = some (taskLink data start base)) ∧
        data.get (start + base + 3) &&& 0x03 = 0x03)

variable {data bootstrap : Bytes} {start taskStreamSize tdSize tdCount : ℕ} {selected bases : List ℕ}
  {i base : ℕ}

/-! ## Headers of the slots -/

/-- A number is the one its bytes spell. -/
theorem leNat_eq_of_bytes {d : Bytes} {offset width value : ℕ} (hvalue : value < 256 ^ width)
    (h : ∀ k < width, d.get (offset + k) = UInt8.ofNat (value >>> (8 * k))) : d.leNat offset width = value := by
  have hword : d.leNat offset width = (Bytes.ofNat width value).leNat 0 width :=
    Bytes.leNat_congr fun k hk => by rw [h k hk, Nat.zero_add, Bytes.ofNat, Bytes.get_ofFn, if_pos hk]
  rw [hword, leNat_ofNat width value 0 width (by omega), Nat.mul_zero, Nat.shiftRight_zero]
  exact Nat.mod_eq_of_lt hvalue

/-- The link of a task to the `j`-th selected base becomes the offset of slot `j`. -/
theorem mappedLink_eq (hincreasing : selected.Pairwise (· < ·)) {link j : ℕ} (h : selected[j]? = some link) :
    mappedLink selected link = j * slotSpacing := by
  rw [mappedLink]
  split_ifs with hzero
  · obtain ⟨hj, hvalue⟩ := List.getElem?_eq_some_iff.mp h
    rcases Nat.eq_zero_or_pos j with rfl | hpos
    · exact (Nat.zero_mul _).symm
    · have hlt := List.pairwise_iff_getElem.mp hincreasing 0 j (by omega) hj hpos
      omega
  · rw [(find_slotTable hincreasing).mpr ⟨j, h, rfl⟩, Option.getD_some]

/-- Among the positions of a list with a property there is a last one. -/
theorem exists_last {p : ℕ → ℕ → Prop} (h : ∃ j other, selected[j]? = some other ∧ p j other) :
    ∃ j, (∃ other, selected[j]? = some other ∧ p j other) ∧
      ∀ m later, selected[m]? = some later → p m later → m ≤ j := by
  classical
  let held := fun m => ∃ other, selected[m]? = some other ∧ p m other
  have hbound (m : ℕ) (hm : held m) : m ≤ selected.length := by
    obtain ⟨other, hother, -⟩ := hm
    exact (List.getElem?_eq_some_iff.mp hother).1.le
  obtain ⟨j, hj⟩ := h
  have hlast : held (Nat.findGreatest held selected.length) := Nat.findGreatest_spec (hbound j hj) hj
  refine ⟨Nat.findGreatest held selected.length, hlast, fun m later hlater hp => ?_⟩
  have hm : held m := ⟨later, hlater, hp⟩
  exact Nat.le_findGreatest (hbound m hm) hm

/-- The slot byte of a task is its own byte outside the rewritten fields. -/
theorem slotByte_and_kept (k : ℕ) : slotByte data start selected i base k &&&
      keptByPacking (i + 1 = selected.length) k =
    data.get (start + base + k) &&& keptByPacking (i + 1 = selected.length) k := by
  unfold keptByPacking
  by_cases hrewritten : k < 2 ∨ 0x1C ≤ k ∧ k < 0x20
  · rw [if_pos hrewritten, UInt8.and_zero, UInt8.and_zero]
  · have hpacked : packedByte data start selected i base k = data.get (start + base + k) := by
      rw [packedByte, if_neg (by omega), if_neg (by omega)]
    rw [if_neg hrewritten, slotByte, hpacked]
    by_cases hlast : i + 1 = selected.length
    · simp only [hlast, if_true, decide_true]
      exact terminalByte_and_kept k _
    · simp only [hlast, if_false, decide_false]

namespace Built

variable (h : Built data start taskStreamSize tdSize selected bootstrap)

include h

/-- No later slot reaches a header. -/
theorem header_byte (hbase : selected[i]? = some base) {k : ℕ} (hk : k < 0x20) :
    bootstrap.get (i * slotSpacing + k) = slotByte data start selected i base k := by
  have hheader := h.header
  have hinside := h.inside i base hbase
  apply h.bytes i base k hbase
  · unfold copySize
    omega
  · intro j other hother hlt
    unfold InSlot slotSpacing
    omega

theorem slotId (hi : i < selected.length) : halfWord bootstrap (i * slotSpacing) = i := by
  have hids := h.ids
  apply leNat_eq_of_bytes (by omega)
  intro k hk
  have hkept (byte : UInt8) : terminalByte k byte = byte := by
    rw [terminalByte, if_neg (by omega), if_neg (by omega), if_neg (by omega), if_neg (by omega)]
  rw [h.header_byte (List.getElem?_eq_getElem hi) (by omega), slotByte, hkept, ite_self, packedByte, if_pos hk]

/-- A mapped link is zero or the offset of a slot. -/
theorem mappedLink_lt (link : ℕ) : mappedLink selected link < 2 ^ 32 := by
  have hids := h.ids
  rw [mappedLink]
  split_ifs
  · decide
  · cases hfind : find (slotTable selected) link with
    | none => decide
    | some slot =>
      obtain ⟨j, hj, rfl⟩ := (find_slotTable h.increasing).mp hfind
      have hlt := (List.getElem?_eq_some_iff.mp hj).1
      rw [Option.getD_some]
      unfold slotSpacing
      omega

/-- The link of a slot: none in the last one, the mapped link in the others. -/
theorem link (hbase : selected[i]? = some base) : bootstrap.u32 (i * slotSpacing + 0x1C) =
    if i + 1 = selected.length then 0 else mappedLink selected (taskLink data start base) := by
  apply leNat_eq_of_bytes
  · split_ifs
    · decide
    · exact h.mappedLink_lt _
  · intro k hk
    rw [Nat.add_assoc, h.header_byte hbase (by omega), slotByte]
    split_ifs with hlast
    · rw [terminalByte, if_neg (by omega), if_neg (by omega), if_neg (by omega), if_pos (by omega),
        Nat.zero_shiftRight]
      rfl
    · rw [packedByte, if_neg (by omega), if_pos (by omega), Nat.add_sub_cancel_left]

/-- The top header byte of a slot. -/
theorem top (hbase : selected[i]? = some base) : bootstrap.get (i * slotSpacing + 3) =
    if i + 1 = selected.length then data.get (start + base + 3) ||| 0x03 else data.get (start + base + 3) := by
  have hpacked : packedByte data start selected i base 3 = data.get (start + base + 3) := rfl
  rw [h.header_byte hbase (by omega), slotByte, hpacked]
  rfl

/-! ## The parts of the repacking -/

/-- A byte is the slot byte of the last task that covers it. -/
theorem covered_byte {j other pos : ℕ} (hother : selected[j]? = some other)
    (hin : InSlot taskStreamSize tdSize j other pos)
    (hlast : ∀ m later, selected[m]? = some later → j < m → ¬ InSlot taskStreamSize tdSize m later pos) :
    bootstrap.get pos = slotByte data start selected j other (pos - j * slotSpacing) := by
  obtain ⟨k, rfl⟩ := Nat.exists_eq_add_of_le hin.1
  have hbound := hin.2
  rw [Nat.add_sub_cancel_left]
  exact h.bytes j other k hother (by omega) hlast

/-- Slot by slot, the bytes are kept exactly when the overlaps agree. -/
theorem bytes_iff : (∀ i base, selected[i]? = some base → ∀ k < copySize taskStreamSize tdSize base,
      bootstrap.get (i * slotSpacing + k) &&& keptByPacking (i + 1 = selected.length) k =
        data.get (start + base + k) &&& keptByPacking (i + 1 = selected.length) k) ↔
    ∀ i base j other k, selected[i]? = some base → selected[j]? = some other → i < j →
      k < copySize taskStreamSize tdSize base → InSlot taskStreamSize tdSize j other (i * slotSpacing + k) →
      (∀ m later, selected[m]? = some later → j < m →
        ¬ InSlot taskStreamSize tdSize m later (i * slotSpacing + k)) →
      slotByte data start selected j other (i * slotSpacing + k - j * slotSpacing) &&&
          keptByPacking (i + 1 = selected.length) k =
        data.get (start + base + k) &&& keptByPacking (i + 1 = selected.length) k := by
  constructor
  · intro hbytes i base j other k hbase hother hlt hk hin hlast
    rw [← hbytes i base hbase k hk, h.covered_byte hother hin hlast]
  · intro hoverlaps i base hbase k hk
    by_cases hcovered : ∃ j other, selected[j]? = some other ∧ i < j ∧
        InSlot taskStreamSize tdSize j other (i * slotSpacing + k)
    · obtain ⟨j, ⟨other, hother, hlt, hin⟩, hlast⟩ := exists_last hcovered
      have hlater (m later : ℕ) (hm : selected[m]? = some later) (hjm : j < m) :
          ¬ InSlot taskStreamSize tdSize m later (i * slotSpacing + k) := by
        intro hm'
        have := hlast m later hm ⟨hlt.trans hjm, hm'⟩
        omega
      rw [h.covered_byte hother hin hlater]
      exact hoverlaps i base j other k hbase hother hlt hk hin hlater
    · rw [h.bytes i base k hbase hk fun j other hother hlt hin => hcovered ⟨j, other, hother, hlt, hin⟩]
      exact slotByte_and_kept ..

/-- The links are mapped exactly when the last task links to no selected task but the first. -/
theorem links_iff : (∀ i base j, selected[i]? = some base → selected[j]? = some (taskLink data start base) →
      bootstrap.u32 (i * slotSpacing + 0x1C) = j * slotSpacing) ↔
    ∀ i base j, i + 1 = selected.length → selected[i]? = some base →
      selected[j]? = some (taskLink data start base) → j = 0 := by
  constructor
  · intro hlinks i base j hlast hbase hj
    have hlink := hlinks i base j hbase hj
    rw [h.link hbase, if_pos hlast] at hlink
    unfold slotSpacing at hlink
    omega
  · intro hlast i base j hbase hj
    rw [h.link hbase]
    split_ifs with hi
    · rw [hlast i base j hi hbase hj, Nat.zero_mul]
    · exact mappedLink_eq h.increasing hj

/-- One link of the bootstrap is one link of the selected tasks. -/
theorem slotLink_iff (hbase : selected[i]? = some base) {next : ℕ} :
    SlotLink bootstrap (i * slotSpacing) next ↔ ∃ j, TaskStep data start selected i j ∧ next = j * slotSpacing := by
  rw [SlotLink, h.link hbase]
  constructor
  · intro hnext
    obtain ⟨rfl, hne⟩ := hnext
    split_ifs at hne with hi
    · exact absurd rfl hne
    · rcases h.linked i base hbase hi with hzero | ⟨j, hj⟩
      · rw [mappedLink, if_pos hzero] at hne
        exact absurd rfl hne
      · rw [if_neg hi, mappedLink_eq h.increasing hj] at *
        refine ⟨j, ⟨hi, ?_, base, hbase, hj⟩, rfl⟩
        rintro rfl
        exact hne (Nat.zero_mul _)
  · intro hstep
    obtain ⟨j, ⟨hi, hj, other, hother, hlink⟩, rfl⟩ := hstep
    obtain rfl := Option.mem_unique hbase hother
    rw [if_neg hi, mappedLink_eq h.increasing hlink]
    refine ⟨rfl, ?_⟩
    unfold slotSpacing
    omega

theorem exists_of_reaches {slot : ℕ} (hreach : Relation.ReflTransGen (SlotLink bootstrap) 0 slot) :
    ∃ i base : ℕ, selected[i]? = some base ∧ slot = i * slotSpacing ∧
      Relation.ReflTransGen (TaskStep data start selected) 0 i := by
  induction hreach with
  | refl => exact ⟨0, _, List.getElem?_eq_getElem h.nonempty, (Nat.zero_mul _).symm, .refl⟩
  | tail _ hlink ih =>
    obtain ⟨i, base, hbase, rfl, hpath⟩ := ih
    obtain ⟨j, hstep, rfl⟩ := (h.slotLink_iff hbase).mp hlink
    obtain ⟨-, -, other, -, hother⟩ := id hstep
    exact ⟨j, _, hother, rfl, hpath.tail hstep⟩

theorem reaches_of_path (hpath : Relation.ReflTransGen (TaskStep data start selected) 0 i) :
    Relation.ReflTransGen (SlotLink bootstrap) 0 (i * slotSpacing) := by
  induction hpath with
  | refl =>
    rw [Nat.zero_mul]
  | tail _ hstep ih =>
    obtain ⟨-, -, base, hbase, -⟩ := id hstep
    exact ih.tail ((h.slotLink_iff hbase).mpr ⟨_, hstep, rfl⟩)

/-- The chain of the bootstrap ends at a terminal slot exactly when the chain of the selected
tasks ends at the last task or at a terminal one. -/
theorem ends_iff : (∃ i < selected.length, Relation.ReflTransGen (SlotLink bootstrap) 0 (i * slotSpacing) ∧
      bootstrap.u32 (i * slotSpacing + 0x1C) = 0 ∧ bootstrap.get (i * slotSpacing + 3) &&& 0x03 = 0x03) ↔
    ∃ i base, selected[i]? = some base ∧ Relation.ReflTransGen (TaskStep data start selected) 0 i ∧
      (i + 1 = selected.length ∨
        (taskLink data start base = 0 ∨ selected[0]? = some (taskLink data start base)) ∧
          data.get (start + base + 3) &&& 0x03 = 0x03) := by
  constructor
  · intro hends
    obtain ⟨slot, -, hreach, hlink, htop⟩ := hends
    obtain ⟨i, base, hbase, hslot, hpath⟩ := h.exists_of_reaches hreach
    refine ⟨i, base, hbase, hpath, ?_⟩
    rw [hslot, h.link hbase] at hlink
    rw [hslot, h.top hbase] at htop
    by_cases hi : i + 1 = selected.length
    · exact Or.inl hi
    · rw [if_neg hi] at hlink htop
      refine Or.inr ⟨?_, htop⟩
      rcases h.linked i base hbase hi with hzero | ⟨j, hj⟩
      · exact Or.inl hzero
      · rw [mappedLink_eq h.increasing hj] at hlink
        obtain rfl : j = 0 := by
          unfold slotSpacing at hlink
          omega
        exact Or.inr hj
  · intro hends
    obtain ⟨i, base, hbase, hpath, hlast⟩ := hends
    refine ⟨i, (List.getElem?_eq_some_iff.mp hbase).1, h.reaches_of_path hpath, ?_⟩
    rw [h.link hbase, h.top hbase]
    by_cases hi : i + 1 = selected.length
    · rw [if_pos hi, if_pos hi]
      exact ⟨rfl, (terminal_header _).1⟩
    · rw [if_neg hi, if_neg hi]
      obtain ⟨hstop, htop⟩ := hlast.resolve_left hi
      refine ⟨?_, htop⟩
      rcases hstop with hzero | hfirst
      · rw [mappedLink, if_pos hzero]
      · rw [mappedLink_eq h.increasing hfirst, Nat.zero_mul]

end Built

/-! ## The packing as a whole -/

/-- Packing strictly increasing bases of a stream inside the data gives the selected tasks again
exactly when the selected tasks are repackable. -/
theorem buildBootstrap_repacked_iff (data : Bytes) (start taskStreamSize : ℕ) (bases : List ℕ)
    (tdSize tdCount : ℕ) (bootstrap : Bytes) (hincreasing : bases.Pairwise (· < ·))
    (hinside : start + taskStreamSize ≤ data.size) (hcount : 1 ≤ tdCount)
    (h : buildBootstrap data start taskStreamSize bases tdSize tdCount = .ok bootstrap) :
    Repacked data start taskStreamSize tdSize (bases.take tdCount) bootstrap ↔
      Repackable data start taskStreamSize tdSize (bases.take tdCount) := by
  by_cases hids : (bases.take tdCount).length ≤ 0x10000
  · have hbuilt := buildBootstrap_built hincreasing hinside hcount hids h
    constructor
    · intro hrepacked
      exact ⟨hids, hbuilt.bytes_iff.mp hrepacked.bytes, hbuilt.links_iff.mp hrepacked.links,
        hbuilt.ends_iff.mp hrepacked.ends⟩
    · intro hrepackable
      exact ⟨hbuilt.bytes_iff.mpr hrepackable.overlaps, fun i hi => hbuilt.slotId hi,
        hbuilt.links_iff.mpr hrepackable.lastLink, hbuilt.ends_iff.mpr hrepackable.ends⟩
  · constructor
    · intro hrepacked
      have hid := hrepacked.ids 0x10000 (by omega)
      have hlt : halfWord bootstrap (0x10000 * slotSpacing) < 256 ^ 2 := Bytes.leNat_lt _ _ _
      omega
    · exact fun hrepackable => absurd hrepackable.ids hids

/-- Two linked tasks of which only the headers are copied. -/
theorem buildBootstrap_repacked_iff_headers :
    Repacked (.ofFields 0x120 [(0x1C, 0x100)]) 0 0x120 0x20 [0, 0x100]
        (.ofFields 0x320 [(0x1C, 0x300), (0x300, 0x03000001)]) ↔
      Repackable (.ofFields 0x120 [(0x1C, 0x100)]) 0 0x120 0x20 [0, 0x100] :=
  buildBootstrap_repacked_iff (.ofFields 0x120 [(0x1C, 0x100)]) 0 0x120 [0, 0x100] 0x20 2 _ (by decide) (by decide)
    (by decide) (by decide +kernel)

/-- Two linked tasks, the first of 0x400 bytes with the byte 7 at 0x310. -/
def longTask : Bytes := .ofFields 0x420 [(0x1C, 0x400), (0x310, 7)]

/-- With descriptors of 0x3FC bytes the second task overwrites the end of the first. -/
theorem buildBootstrap_overwrites : ∃ bootstrap, buildBootstrap longTask 0 0x420 [0, 0x400] 0x3FC 2 = .ok bootstrap ∧
    ¬ Repacked longTask 0 0x420 0x3FC ([0, 0x400].take 2) bootstrap := by
  have hbyte : (buildBootstrap longTask 0 0x420 [0, 0x400] 0x3FC 2).map (·.get 0x310) = .ok 0 := by decide +kernel
  obtain ⟨bootstrap, hbuild, hzero⟩ := exists_ok_of_map hbyte
  refine ⟨bootstrap, hbuild, fun h => ?_⟩
  have hkept := h.bytes 0 0 rfl 0x310 (by decide)
  rw [Nat.zero_mul, Nat.zero_add, hzero] at hkept
  exact absurd hkept (by decide +kernel)

end AneLinux.Anec
