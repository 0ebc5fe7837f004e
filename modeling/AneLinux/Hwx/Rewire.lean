import AneLinux.Hwx.StampWalk
import AneLinux.Support.BitField
import AneLinux.Support.StructCodec

/-!
# Rewiring the surface channels

The rewiring pass first walks the task stream and collects the new selector words, then writes them.
The walk raises before anything is written, and no write can fail, so the pass applies as a whole or
not at all. What it writes exchanges the roles of sources and outputs in three fields of each
selector. Exchanging them again with the counts exchanged restores the stream.
-/

namespace AneLinux.Hwx

open AneLinux.Support

/-- The write phase, on the buffer it mutates. -/
def writeChanges : List (ℕ × ℕ) → Bytes → Bytes × Py Unit
  | [], content => (content, .ok ())
  | (offset, word) :: rest, content =>
    match packU32 content offset word with
    | .ok content => writeChanges rest content
    | .error e => (content, .error e)

/-- `rewire_surface_channels` on the buffer it mutates: the buffer afterwards, and what the call
returns or raises. -/
def rewireInPlace (content : Bytes) (tskSize srcCount dstCount : ℤ) : Bytes × Py ℕ :=
  if srcCount < 1 ∨ dstCount < 1 ∨ 28 < srcCount + dstCount then
    (content, raiseValue "invalid contiguous surface counts")
  else
    match rewireLoop content tskSize.toNat srcCount.toNat dstCount.toNat [] [] 0 with
    | .error e => (content, .error e)
    | .ok changes =>
      match writeChanges changes content with
      | (content, .ok _) => (content, .ok changes.length)
      | (content, .error e) => (content, .error e)

/-- Where a surface channel goes: channels below 4 stay, sources go behind the outputs, outputs to
the front. -/
inductive Moved (srcCount dstCount : ℕ) : ℕ → ℕ → Prop
  | special {channel : ℕ} (h : channel < 4) : Moved srcCount dstCount channel channel
  | source {i : ℕ} (h : i < srcCount) : Moved srcCount dstCount (4 + i) (4 + dstCount + i)
  | output {j : ℕ} (h : j < dstCount) : Moved srcCount dstCount (4 + srcCount + j) (4 + j)

/-- The shifts of the rewired fields. -/
def selectorShifts : List ℕ := [0, 6, 12]

/-- A selector with its three channels moved and every other bit kept; its fourth field names no
surface. -/
structure SelectorMoved (srcCount dstCount sel new : ℕ) : Prop where
  channels : ∀ shift ∈ selectorShifts, Moved srcCount dstCount (fieldAt sel shift 5) (fieldAt new shift 5)
  others : ∀ bit, (∀ shift ∈ selectorShifts, bit < shift ∨ shift + 5 ≤ bit) →
    new.testBit bit = sel.testBit bit
  fourth : fieldAt sel 18 5 < 4

/-- A nonzero link from one task to another. -/
def RewireLink (content : Bytes) (task next : ℕ) : Prop := next = content.u32 (task + 0x1C) ∧ next ≠ 0

/-- A task that the links from offset 0 reach. -/
def RewireReach (content : Bytes) (task : ℕ) : Prop := Relation.ReflTransGen (RewireLink content) 0 task

/-- The reached tasks are aligned, so that their headers do not overlap. -/
def AlignedTasks (content : Bytes) : Prop := ∀ task, RewireReach content task → task % 0x100 = 0

/-- The stream with exactly the selectors of the reached tasks rewired. -/
structure Rewired (content : Bytes) (srcCount dstCount : ℕ) (result : Bytes) : Prop where
  size : result.size = content.size
  selectors : ∀ task, RewireReach content task →
    SelectorMoved srcCount dstCount (content.u32 (task + 0x20)) (result.u32 (task + 0x20))
  kept : ∀ i, (∀ task, RewireReach content task → i < task + 0x20 ∨ task + 0x24 ≤ i) →
    result.get i = content.get i

/-! ## Channels and selectors -/

variable {srcCount dstCount other task : ℕ} {content : Bytes} {changes : List (ℕ × ℕ)}

section Selectors

variable {channel mapped sel new : ℕ}

/-- A channel that is moved, and where to. -/
theorem rewireChannel_eq_ok : rewireChannel channel srcCount dstCount = .ok mapped ↔
    Moved srcCount dstCount channel mapped := by
  unfold rewireChannel
  constructor
  · intro h
    split_ifs at h with hspecial hsource houtput
    · obtain rfl := Except.ok.inj h
      exact .special hspecial
    · obtain rfl := Except.ok.inj h
      obtain ⟨i, rfl⟩ := Nat.exists_eq_add_of_le (Nat.le_of_not_lt hspecial)
      rw [Nat.add_right_comm]
      exact .source (by omega)
    · obtain rfl := Except.ok.inj h
      obtain ⟨j, rfl⟩ := Nat.exists_eq_add_of_le (Nat.le_of_not_lt hsource)
      have hmapped : 4 + srcCount + j - srcCount = 4 + j := by omega
      rw [hmapped]
      exact .output (by omega)
    · exact absurd h (raiseValue_ne_ok _ _)
  · intro h
    cases h with
    | special h => rw [if_pos h]; rfl
    | @source i h =>
      rw [if_neg (by omega), if_pos (by omega), Nat.add_right_comm]
      rfl
    | @output j h =>
      have hmapped : 4 + srcCount + j - srcCount = 4 + j := by omega
      rw [if_neg (by omega), if_neg (by omega), if_pos (by omega), hmapped]
      rfl

/-- Any other is a `ValueError`. -/
theorem rewireChannel_raises (channel srcCount dstCount : ℕ) : Meets (rewireChannel channel srcCount dstCount)
    (fun _ => True) (fun e => ∃ message, e = .valueError message) := by
  unfold rewireChannel
  split_ifs
  · trivial
  · trivial
  · trivial
  · exact ⟨_, rfl⟩

/-- The map with the counts exchanged is the inverse. -/
theorem Moved.symm (h : Moved srcCount dstCount channel mapped) : Moved dstCount srcCount mapped channel := by
  cases h with
  | special h => exact .special h
  | source h => exact .output h
  | output h => exact .source h

/-- A moved channel fits its field. -/
theorem Moved.lt (h : Moved srcCount dstCount channel mapped) (hcounts : srcCount + dstCount ≤ 28) :
    mapped < 2 ^ 5 := by
  cases h with
  | special h => omega
  | source h => omega
  | output h => omega

/-- A channel goes to one place. -/
theorem Moved.unique (h : Moved srcCount dstCount channel mapped) (h' : Moved srcCount dstCount channel other) :
    mapped = other :=
  Except.ok.inj ((rewireChannel_eq_ok.mpr h).symm.trans (rewireChannel_eq_ok.mpr h'))

/-- Moving back undoes the move. -/
theorem SelectorMoved.symm (h : SelectorMoved srcCount dstCount sel new) :
    SelectorMoved dstCount srcCount new sel := by
  refine ⟨fun shift hshift => (h.channels shift hshift).symm, fun bit hbit => (h.others bit hbit).symm, ?_⟩
  have hfourth : fieldAt new 18 5 = fieldAt sel 18 5 := by
    apply Nat.eq_of_testBit_eq
    intro bit
    rw [testBit_fieldAt, testBit_fieldAt]
    congr 1
    refine h.others _ fun shift hshift => ?_
    simp only [selectorShifts, List.mem_cons, List.not_mem_nil, or_false] at hshift
    omega
  rw [hfourth]
  exact h.fourth

/-- A selector has one rewired form. -/
theorem SelectorMoved.unique (h : SelectorMoved srcCount dstCount sel new)
    (h' : SelectorMoved srcCount dstCount sel other) : new = other := by
  apply Nat.eq_of_testBit_eq
  intro bit
  by_cases hbit : ∀ shift ∈ selectorShifts, bit < shift ∨ shift + 5 ≤ bit
  · rw [h.others bit hbit, h'.others bit hbit]
  · push Not at hbit
    obtain ⟨shift, hshift, hlo, hhi⟩ := hbit
    exact testBit_eq_of_fieldAt_eq ((h.channels shift hshift).unique (h'.channels shift hshift)) hlo hhi

/-- The fields one by one: the rewired word replaces them in order. -/
theorem rewireSelector_eq_ok (hcounts : srcCount + dstCount ≤ 28) :
    rewireSelector sel srcCount dstCount = .ok new ↔ SelectorMoved srcCount dstCount sel new := by
  have hforward {new : ℕ} (h : rewireSelector sel srcCount dstCount = .ok new) :
      SelectorMoved srcCount dstCount sel new := by
    unfold rewireSelector at h
    split_ifs at h with hfourth
    · exact absurd h (raiseValue_ne_ok _ _)
    simp only [List.foldlM_cons, List.foldlM_nil, rewireField] at h
    obtain ⟨first, hfirst, h⟩ := bind_eq_ok.mp h
    obtain ⟨a, ha, hfirst⟩ := bind_eq_ok.mp hfirst
    obtain ⟨second, hsecond, h⟩ := bind_eq_ok.mp h
    obtain ⟨b, hb, hsecond⟩ := bind_eq_ok.mp hsecond
    obtain ⟨third, hthird, h⟩ := bind_eq_ok.mp h
    obtain ⟨c, hc, hthird⟩ := bind_eq_ok.mp hthird
    have hfirst : replaceField sel 0 5 a = first := Except.ok.inj hfirst
    have hsecond : replaceField first 6 5 b = second := Except.ok.inj hsecond
    have hthird : replaceField second 12 5 c = third := Except.ok.inj hthird
    have hnew : third = new := Except.ok.inj h
    rw [rewireChannel_eq_ok] at ha hb hc
    have ha' := ha.lt hcounts
    have hb' := hb.lt hcounts
    have hc' := hc.lt hcounts
    subst hnew hthird hsecond hfirst
    refine ⟨fun shift hshift => ?_, fun bit hbit => ?_, Nat.lt_of_not_le hfourth⟩
    · simp only [selectorShifts, List.mem_cons, List.not_mem_nil, or_false] at hshift
      rcases hshift with rfl | rfl | rfl
      · rw [fieldAt_replaceField_of_ne _ hc' (by decide), fieldAt_replaceField_of_ne _ hb' (by decide),
          fieldAt_replaceField _ _ ha']
        exact ha
      · rw [fieldAt_replaceField_of_ne _ hc' (by decide), fieldAt_replaceField _ _ hb']
        exact hb
      · rw [fieldAt_replaceField _ _ hc']
        exact hc
    · have hzero := hbit 0 (by decide)
      have hsix := hbit 6 (by decide)
      have htwelve := hbit 12 (by decide)
      rw [testBit_replaceField _ _ _ _ hc', if_neg (by omega), testBit_replaceField _ _ _ _ hb',
        if_neg (by omega), testBit_replaceField _ _ _ _ ha', if_neg (by omega)]
  refine ⟨hforward, fun h => ?_⟩
  obtain ⟨a, ha⟩ : ∃ a, rewireChannel (sel >>> 0 &&& 0x1F) srcCount dstCount = .ok a :=
    ⟨_, rewireChannel_eq_ok.mpr (h.channels 0 (by decide))⟩
  obtain ⟨b, hb⟩ : ∃ b, rewireChannel (sel >>> 6 &&& 0x1F) srcCount dstCount = .ok b :=
    ⟨_, rewireChannel_eq_ok.mpr (h.channels 6 (by decide))⟩
  obtain ⟨c, hc⟩ : ∃ c, rewireChannel (sel >>> 12 &&& 0x1F) srcCount dstCount = .ok c :=
    ⟨_, rewireChannel_eq_ok.mpr (h.channels 12 (by decide))⟩
  obtain ⟨other, hother⟩ : ∃ other, rewireSelector sel srcCount dstCount = .ok other := by
    have hfourth : ¬4 ≤ sel >>> 18 &&& 0x1F := Nat.not_le.mpr h.fourth
    simp only [rewireSelector, if_neg hfourth, List.foldlM_cons, List.foldlM_nil, rewireField, ha, hb, hc]
    exact ⟨_, rfl⟩
  rw [hother, (hforward hother).unique h]

/-- A selector that cannot move is a `ValueError`. -/
theorem rewireSelector_raises (sel srcCount dstCount : ℕ) : Meets (rewireSelector sel srcCount dstCount)
    (fun _ => True) (fun e => ∃ message, e = .valueError message) := by
  refine Meets.guard ⟨_, rfl⟩ fun _ => ?_
  refine Meets.foldlM _ _ _ trivial fun word _ shift _ => ?_
  exact (rewireChannel_raises ..).bind fun _ _ => trivial

/-- A rewired selector is a word. -/
theorem SelectorMoved.lt (h : SelectorMoved srcCount dstCount sel new) (hsel : sel < 2 ^ 32) : new < 2 ^ 32 := by
  apply Nat.lt_pow_two_of_testBit
  intro bit hbit
  rw [h.others bit fun shift hshift => ?_]
  · exact Nat.testBit_lt_two_pow (hsel.trans_le (Nat.pow_le_pow_right (by decide) hbit))
  · simp only [selectorShifts, List.mem_cons, List.not_mem_nil, or_false] at hshift
    omega

end Selectors

/-! ## The walk -/

section Walk

variable {tskSize : ℕ}

/-- The selector changes of the tasks seen so far. -/
structure Collected (content : Bytes) (tskSize srcCount dstCount : ℕ) (seen : List ℕ)
    (changes : List (ℕ × ℕ)) : Prop where
  fits : ∀ task ∈ seen, task + 0x24 ≤ tskSize ∧ task + 0x24 ≤ content.size
  moved : ∀ task ∈ seen, ∃ new, rewireSelector (content.u32 (task + 0x20)) srcCount dstCount = .ok new ∧
    (new ≠ content.u32 (task + 0x20) → (task + 0x20, new) ∈ changes)
  sound : ∀ change ∈ changes, (∃ task ∈ seen, change.1 = task + 0x20) ∧
    rewireSelector (content.u32 change.1) srcCount dstCount = .ok change.2

/-- A task at which the walk raises: its header is cut, or its selector is refused. -/
def Refuses (content : Bytes) (tskSize srcCount dstCount task : ℕ) : Prop :=
  tskSize < task + 0x24 ∨ content.size < task + 0x24 ∨
    ∃ e, rewireSelector (content.u32 (task + 0x20)) srcCount dstCount = .error e

/-- One more task. -/
theorem Collected.cons {seen : List ℕ} {new : ℕ} (h : Collected content tskSize srcCount dstCount seen changes)
    (hfits : task + 0x24 ≤ tskSize ∧ task + 0x24 ≤ content.size)
    (hnew : rewireSelector (content.u32 (task + 0x20)) srcCount dstCount = .ok new) :
    Collected content tskSize srcCount dstCount (task :: seen)
      (if new ≠ content.u32 (task + 0x20) then changes ++ [(task + 0x20, new)] else changes) := by
  have hold : ∀ change ∈ changes, change ∈
      if new ≠ content.u32 (task + 0x20) then changes ++ [(task + 0x20, new)] else changes := by
    intro change hchange
    split_ifs
    · exact List.mem_append_left _ hchange
    · exact hchange
  refine ⟨fun other hother => ?_, fun other hother => ?_, fun change hchange => ?_⟩
  · rcases List.mem_cons.mp hother with rfl | hother
    · exact hfits
    · exact h.fits other hother
  · rcases List.mem_cons.mp hother with rfl | hother
    · refine ⟨new, hnew, fun hne => ?_⟩
      rw [if_pos hne]
      exact List.mem_append_right _ (List.mem_singleton.mpr rfl)
    · obtain ⟨word, hword, hmem⟩ := h.moved other hother
      exact ⟨word, hword, fun hne => hold _ (hmem hne)⟩
  · have hcases : change ∈ changes ∨ change = (task + 0x20, new) := by
      split_ifs at hchange with hne
      · exact (List.mem_append.mp hchange).imp id List.mem_singleton.mp
      · exact Or.inl hchange
    rcases hcases with hchange | rfl
    · obtain ⟨⟨other, hother, hplace⟩, hword⟩ := h.sound change hchange
      exact ⟨⟨other, List.mem_cons_of_mem task hother, hplace⟩, hword⟩
    · exact ⟨⟨task, List.mem_cons_self, rfl⟩, hnew⟩

/-- The walk collects the changes of a set of tasks that its links do not leave, or meets a task that
it refuses. -/
theorem rewireLoop_spec {seen : List ℕ} {offset : ℕ} (hseen : Collected content tskSize srcCount dstCount seen changes)
    (hlinks : ∀ task ∈ seen, ∀ next, RewireLink content task next → next ∈ seen ∨ next = offset) :
    Meets (rewireLoop content tskSize srcCount dstCount seen changes offset)
      (fun found => ∃ final, Collected content tskSize srcCount dstCount final found ∧
        (∀ task ∈ offset :: seen, task ∈ final) ∧
        (∀ task ∈ final, ∀ next, RewireLink content task next → next ∈ final) ∧
        ∀ task ∈ final, task ∈ seen ∨ Relation.ReflTransGen (RewireLink content) offset task)
      (fun e => (∃ message, e = .valueError message) ∧
        ∃ task, Relation.ReflTransGen (RewireLink content) offset task ∧
          Refuses content tskSize srcCount dstCount task) := by
  fun_induction rewireLoop content tskSize srcCount dstCount seen changes offset with
  | case1 seen changes offset hmem =>
    refine ⟨seen, hseen, List.forall_mem_cons.mpr ⟨hmem, fun _ h => h⟩, fun task htask next hlink => ?_,
      fun task htask => Or.inl htask⟩
    rcases hlinks task htask next hlink with hin | rfl
    · exact hin
    · exact hmem
  | case2 seen changes offset hmem hshort =>
    refine ⟨⟨_, rfl⟩, offset, Relation.ReflTransGen.refl, ?_⟩
    exact hshort.imp id Or.inl
  | case3 seen changes offset hmem hshort ih =>
    rw [not_or] at hshort
    have hraises := rewireSelector_raises (content.u32 (offset + 32)) srcCount dstCount
    rw [unpackU32_of_le (by omega), ok_bind]
    cases hselector : rewireSelector (content.u32 (offset + 32)) srcCount dstCount with
    | error e =>
      rw [hselector] at hraises
      exact ⟨hraises, offset, Relation.ReflTransGen.refl, Or.inr (Or.inr ⟨e, hselector⟩)⟩
    | ok new =>
      rw [ok_bind, unpackU32_of_le (by omega), ok_bind]
      have hmore := hseen.cons ⟨by omega, by omega⟩ hselector
      have hstay : ∀ task ∈ offset :: seen, ∀ next, RewireLink content task next →
          next ∈ offset :: seen ∨ next = content.u32 (offset + 0x1C) := by
        intro task htask next hlink
        rcases List.mem_cons.mp htask with rfl | htask
        · exact Or.inr hlink.1
        · rcases hlinks task htask next hlink with hin | rfl
          · exact Or.inl (List.mem_cons_of_mem offset hin)
          · exact Or.inl List.mem_cons_self
      by_cases hnext : content.u32 (offset + 0x1C) = 0
      · rw [if_pos hnext]
        refine ⟨offset :: seen, hmore, fun _ h => h, fun task htask next hlink => ?_, fun task htask => ?_⟩
        · rcases hstay task htask next hlink with hin | rfl
          · exact hin
          · exact absurd hnext hlink.2
        · rcases List.mem_cons.mp htask with rfl | htask
          · exact Or.inr Relation.ReflTransGen.refl
          · exact Or.inl htask
      · rw [if_neg hnext]
        have hlink : RewireLink content offset (content.u32 (offset + 0x1C)) := ⟨rfl, hnext⟩
        refine (ih (content.u32 (offset + 32)) new (content.u32 (offset + 0x1C)) hmore hstay).imp ?_ ?_
        · rintro found ⟨final, hfinal, hkeep, hclosed, hreached⟩
          refine ⟨final, hfinal, fun task htask => hkeep task (List.mem_cons_of_mem _ htask), hclosed,
            fun task htask => ?_⟩
          rcases hreached task htask with hin | hpath
          · rcases List.mem_cons.mp hin with rfl | hin
            · exact Or.inr Relation.ReflTransGen.refl
            · exact Or.inl hin
          · exact Or.inr (Relation.ReflTransGen.head hlink hpath)
        · rintro e ⟨hvalue, task, hpath, hrefuses⟩
          exact ⟨hvalue, task, Relation.ReflTransGen.head hlink hpath, hrefuses⟩

end Walk

/-! ## The writes -/

/-- Words inside the buffer are written without an error, and only their bytes change. -/
theorem writeChanges_frame (h : ∀ change ∈ changes, change.1 + 4 ≤ content.size ∧ change.2 < 2 ^ 32) :
    ∃ result, writeChanges changes content = (result, .ok ()) ∧ result.size = content.size ∧
      ∀ i, (∀ change ∈ changes, i < change.1 ∨ change.1 + 4 ≤ i) → result.get i = content.get i := by
  induction changes generalizing content with
  | nil => exact ⟨content, rfl, rfl, fun _ _ => rfl⟩
  | cons change rest ih =>
    obtain ⟨offset, word⟩ := change
    rw [List.forall_mem_cons] at h
    obtain ⟨result, hwrite, hsize, hkeep⟩ := @ih (content.putLE offset 4 word) h.2
    refine ⟨result, ?_, hsize, fun i hi => ?_⟩
    · rw [writeChanges, packU32_of_le h.1.1 h.1.2]
      exact hwrite
    · rw [List.forall_mem_cons] at hi
      rw [hkeep i hi.2, Bytes.get_putLE_of_ne _ hi.1]

/-- Words that lie apart read back as written. -/
theorem u32_writeChanges {result : Bytes} (h : ∀ change ∈ changes, change.1 + 4 ≤ content.size ∧ change.2 < 2 ^ 32)
    (hapart : ∀ change ∈ changes, ∀ other ∈ changes, change = other ∨ change.1 + 4 ≤ other.1 ∨ other.1 + 4 ≤ change.1)
    (hresult : writeChanges changes content = (result, .ok ())) :
    ∀ change ∈ changes, result.u32 change.1 = change.2 := by
  induction changes generalizing content with
  | nil => simp
  | cons head rest ih =>
    obtain ⟨offset, word⟩ := head
    rw [List.forall_mem_cons] at h
    have hrest : writeChanges rest (content.putLE offset 4 word) = (result, .ok ()) := by
      rwa [writeChanges, packU32_of_le h.1.1 h.1.2] at hresult
    have hlater := @ih (content.putLE offset 4 word) h.2
      (fun change hchange other hother => hapart change (List.mem_cons_of_mem _ hchange) other
        (List.mem_cons_of_mem _ hother)) hrest
    intro change hchange
    by_cases hagain : change ∈ rest
    · exact hlater change hagain
    · obtain rfl := (List.mem_cons.mp hchange).resolve_right hagain
      obtain ⟨result', hwrite, -, hkeep⟩ := @writeChanges_frame (content.putLE offset 4 word) rest h.2
      obtain rfl : result' = result := (Prod.mk.inj (hwrite.symm.trans hrest)).1
      have hword : result'.u32 offset = (content.putLE offset 4 word).u32 offset := by
        refine Bytes.u32_congr fun k hk => hkeep _ fun other hother => ?_
        rcases hapart (offset, word) List.mem_cons_self other (List.mem_cons_of_mem _ hother) with rfl | hplace
        · exact absurd hother hagain
        · dsimp only at hplace
          omega
      exact hword.trans (u32_putLE h.1.1 h.1.2)

section Rewire

variable {tskSize srcCount dstCount : ℤ}

/-- Aligned tasks have one selector at every place. -/
theorem AlignedTasks.apart (h : AlignedTasks content) (htask : RewireReach content task)
    (hother : RewireReach content other) : task = other ∨ task + 0x100 ≤ other ∨ other + 0x100 ≤ task := by
  have := h task htask
  have := h other hother
  omega

/-- The pass raises before it writes, for bad counts or a refused task, or it rewires the stream. -/
theorem rewireInPlace_cases (haligned : AlignedTasks content) :
    ((∃ message, rewireInPlace content tskSize srcCount dstCount = (content, .error (.valueError message))) ∧
      ((srcCount < 1 ∨ dstCount < 1 ∨ 28 < srcCount + dstCount) ∨ ∃ task, RewireReach content task ∧
        Refuses content tskSize.toNat srcCount.toNat dstCount.toNat task)) ∨
    ∃ result count, rewireInPlace content tskSize srcCount dstCount = (result, .ok count) ∧
      ¬(srcCount < 1 ∨ dstCount < 1 ∨ 28 < srcCount + dstCount) ∧
      Rewired content srcCount.toNat dstCount.toNat result ∧
      ∀ task, RewireReach content task → task + 0x24 ≤ tskSize.toNat ∧ task + 0x24 ≤ content.size := by
  rw [rewireInPlace]
  by_cases hcounts : srcCount < 1 ∨ dstCount < 1 ∨ 28 < srcCount + dstCount
  · rw [if_pos hcounts]
    exact Or.inl ⟨⟨_, rfl⟩, Or.inl hcounts⟩
  rw [if_neg hcounts]
  have hnone : Collected content tskSize.toNat srcCount.toNat dstCount.toNat [] [] :=
    ⟨by simp, by simp, by simp⟩
  have hwalk := @rewireLoop_spec srcCount.toNat dstCount.toNat content [] tskSize.toNat [] 0 hnone (by simp)
  revert hwalk
  cases rewireLoop content tskSize.toNat srcCount.toNat dstCount.toNat [] [] 0 with
  | error e =>
    rintro ⟨⟨message, rfl⟩, task, hpath, hrefuses⟩
    exact Or.inl ⟨⟨message, rfl⟩, Or.inr ⟨task, hpath, hrefuses⟩⟩
  | ok changes =>
    rintro ⟨final, hfinal, hstart, hclosed, hreached⟩
    right
    have hsum : srcCount.toNat + dstCount.toNat ≤ 28 := by omega
    have hreach (task : ℕ) : RewireReach content task ↔ task ∈ final := by
      constructor
      · intro hpath
        induction hpath with
        | refl => exact hstart 0 List.mem_cons_self
        | tail _ hlink ih => exact hclosed _ ih _ hlink
      · intro htask
        exact (hreached task htask).resolve_left List.not_mem_nil
    have hsound : ∀ change ∈ changes, ∃ task, RewireReach content task ∧ change.1 = task + 0x20 ∧
        SelectorMoved srcCount.toNat dstCount.toNat (content.u32 change.1) change.2 := by
      intro change hchange
      obtain ⟨⟨task, htask, hplace⟩, hword⟩ := hfinal.sound change hchange
      exact ⟨task, (hreach task).mpr htask, hplace, (rewireSelector_eq_ok hsum).mp hword⟩
    have hfits : ∀ change ∈ changes, change.1 + 4 ≤ content.size ∧ change.2 < 2 ^ 32 := by
      intro change hchange
      obtain ⟨task, htask, hplace, hmoved⟩ := hsound change hchange
      have := (hfinal.fits task ((hreach task).mp htask)).2
      exact ⟨by omega, hmoved.lt (Bytes.u32_lt ..)⟩
    have hapart : ∀ change ∈ changes, ∀ other ∈ changes,
        change = other ∨ change.1 + 4 ≤ other.1 ∨ other.1 + 4 ≤ change.1 := by
      intro change hchange other hother
      obtain ⟨task, htask, hplace, hmoved⟩ := hsound change hchange
      obtain ⟨task', htask', hplace', hmoved'⟩ := hsound other hother
      rcases haligned.apart htask htask' with rfl | hlt
      · left
        rw [hplace'.trans hplace.symm] at hmoved'
        exact Prod.ext (hplace.trans hplace'.symm) (hmoved.unique hmoved')
      · omega
    obtain ⟨result, hwrite, hsize, hkeep⟩ := writeChanges_frame hfits
    have hwords := u32_writeChanges hfits hapart hwrite
    refine ⟨result, changes.length, by simp only [hwrite], hcounts, ⟨hsize, fun task htask => ?_, fun i hi => ?_⟩,
      fun task htask => hfinal.fits task ((hreach task).mp htask)⟩
    · obtain ⟨new, hnew, hmem⟩ := hfinal.moved task ((hreach task).mp htask)
      have hmoved := (rewireSelector_eq_ok hsum).mp hnew
      by_cases hsame : new = content.u32 (task + 0x20)
      · have hword : result.u32 (task + 0x20) = content.u32 (task + 0x20) := by
          by_cases hwritten : ∃ change ∈ changes, change.1 = task + 0x20
          · obtain ⟨change, hchange, hplace⟩ := hwritten
            obtain ⟨-, -, -, hother⟩ := hsound change hchange
            rw [hplace] at hother
            rw [← hplace, hwords change hchange, hplace, hother.unique hmoved, hsame]
          · refine Bytes.u32_congr fun k hk => hkeep _ fun change hchange => ?_
            obtain ⟨other, hother, hplace, -⟩ := hsound change hchange
            rcases haligned.apart htask hother with rfl | hlt
            · exact absurd ⟨change, hchange, hplace⟩ hwritten
            · omega
        rw [hword, ← hsame]
        rwa [hsame] at hmoved ⊢
      · rw [hwords _ (hmem hsame)]
        exact hmoved
    · refine hkeep i fun change hchange => ?_
      obtain ⟨task, htask, hplace, -⟩ := hsound change hchange
      have := hi task htask
      omega

end Rewire

/-- On every buffer and every graph of links between aligned tasks, cyclic ones included, the pass
ends: it raises a value error and the buffer is as before, or exactly the selectors of the reached
tasks are rewired. -/
theorem rewireInPlace_exact (content : Bytes) (tskSize srcCount dstCount : ℤ)
    (haligned : AlignedTasks content) :
    (∃ message, rewireInPlace content tskSize srcCount dstCount = (content, .error (.valueError message))) ∨
    ∃ result count, rewireInPlace content tskSize srcCount dstCount = (result, .ok count) ∧
      Rewired content srcCount.toNat dstCount.toNat result := by
  rcases rewireInPlace_cases haligned with ⟨hraise, -⟩ | ⟨result, count, hresult, -, hrewired, -⟩
  · exact Or.inl hraise
  · exact Or.inr ⟨result, count, hresult, hrewired⟩

/-- Two tasks, the first of which links to the second: an input and an output, and two inputs. -/
def linkedPair : Bytes := .ofFields 0x200 [(0x1C, 0x100), (0x20, 4 + 5 <<< 6), (0x11C, 0), (0x120, 4 + 4 <<< 6)]

theorem linkedPair_aligned : AlignedTasks linkedPair := by
  intro task htask
  have hreached : task = 0 ∨ task = 0x100 := by
    induction htask with
    | refl => exact Or.inl rfl
    | tail _ hlink ih =>
      obtain ⟨hword, hnonzero⟩ := hlink
      rcases ih with rfl | rfl
      · exact Or.inr (hword.trans (by decide +kernel))
      · exact absurd (hword.trans (by decide +kernel)) hnonzero
  omega

theorem rewireInPlace_exact_linkedPair : ∃ result count,
    rewireInPlace linkedPair 0x200 1 1 = (result, .ok count) ∧ Rewired linkedPair 1 1 result := by
  rcases rewireInPlace_exact linkedPair 0x200 1 1 linkedPair_aligned with ⟨message, hraise⟩ | hrewired
  · have hok : (rewireInPlace linkedPair 0x200 1 1).2.toBool = true := by decide +kernel
    rw [hraise] at hok
    cases hok
  · exact hrewired

/-! ## Rewiring again -/

section Again

variable {result : Bytes}

/-- The link words of the reached tasks are kept. -/
theorem Rewired.link (h : Rewired content srcCount dstCount result) (haligned : AlignedTasks content)
    (htask : RewireReach content task) : result.u32 (task + 0x1C) = content.u32 (task + 0x1C) := by
  refine Bytes.u32_congr fun k hk => h.kept _ fun other hother => ?_
  have := haligned.apart htask hother
  omega

/-- Rewiring reaches the same tasks again. -/
theorem Rewired.reach_iff (h : Rewired content srcCount dstCount result) (haligned : AlignedTasks content)
    (task : ℕ) : RewireReach result task ↔ RewireReach content task := by
  constructor
  · intro hpath
    induction hpath with
    | refl => exact Relation.ReflTransGen.refl
    | tail _ hlink ih => exact ih.tail ⟨hlink.1.trans (h.link haligned ih), hlink.2⟩
  · intro hpath
    induction hpath with
    | refl => exact Relation.ReflTransGen.refl
    | tail hbefore hlink ih => exact ih.tail ⟨hlink.1.trans (h.link haligned hbefore).symm, hlink.2⟩

/-- Rewiring twice with the counts exchanged restores every byte. -/
theorem Rewired.undone {again : Bytes} (h : Rewired content srcCount dstCount result)
    (hagain : Rewired result dstCount srcCount again) (haligned : AlignedTasks content) : again = content := by
  apply Bytes.ext_get
  · exact hagain.size.trans h.size
  intro i _
  by_cases hin : ∃ task, RewireReach content task ∧ task + 0x20 ≤ i ∧ i < task + 0x24
  · obtain ⟨task, htask, hlo, hhi⟩ := hin
    have hword : again.u32 (task + 0x20) = content.u32 (task + 0x20) :=
      (hagain.selectors task ((h.reach_iff haligned task).mpr htask)).unique (h.selectors task htask).symm
    obtain ⟨k, rfl⟩ := Nat.exists_eq_add_of_le hlo
    rw [Bytes.get_eq_leNat_shiftRight again _ 4 k (by omega), Bytes.get_eq_leNat_shiftRight content _ 4 k (by omega)]
    exact congrArg (fun word => UInt8.ofNat (word >>> (8 * k))) hword
  · push Not at hin
    have hout : ∀ task, RewireReach content task → i < task + 0x20 ∨ task + 0x24 ≤ i := by
      intro task htask
      have := hin task htask
      omega
    rw [hagain.kept i fun task htask => hout task ((h.reach_iff haligned task).mp htask), h.kept i hout]

end Again

/-- What a pass rewired, the pass with the counts exchanged restores, byte for byte. -/
theorem rewireInPlace_undone (content result : Bytes) (tskSize srcCount dstCount : ℤ) (count : ℕ)
    (haligned : AlignedTasks content)
    (h : rewireInPlace content tskSize srcCount dstCount = (result, .ok count)) :
    ∃ again, rewireInPlace result tskSize dstCount srcCount = (content, .ok again) := by
  rcases rewireInPlace_cases haligned with
    ⟨⟨message, hraise⟩, -⟩ | ⟨result', count', hresult, hcounts, hrewired, hfits⟩
  · rw [hraise] at h
    cases h
  obtain rfl : result' = result := (Prod.mk.inj (hresult.symm.trans h)).1
  have hreach := hrewired.reach_iff haligned
  have haligned' : AlignedTasks result' := fun task htask => haligned task ((hreach task).mp htask)
  rcases @rewireInPlace_cases result' tskSize dstCount srcCount haligned' with
    ⟨-, hrefused⟩ | ⟨again, count'', hagain, -, hback, -⟩
  · exfalso
    rcases hrefused with hbad | ⟨task, htask, hrefuses⟩
    · omega
    · have htask' := (hreach task).mp htask
      obtain ⟨hstream, hsize⟩ := hfits task htask'
      rcases hrefuses with hcut | hcut | ⟨e, he⟩
      · omega
      · rw [hrewired.size] at hcut
        omega
      · rw [(rewireSelector_eq_ok (by omega)).mpr (hrewired.selectors task htask').symm] at he
        cases he
  · exact ⟨count'', by rw [hagain, hrewired.undone hback haligned]⟩

theorem rewireInPlace_undone_linkedPair : ∃ result count again,
    rewireInPlace linkedPair 0x200 1 1 = (result, .ok count) ∧
      rewireInPlace result 0x200 1 1 = (linkedPair, .ok again) := by
  rcases hfirst : rewireInPlace linkedPair 0x200 1 1 with ⟨result, outcome⟩
  have hok : (rewireInPlace linkedPair 0x200 1 1).2.toBool = true := by decide +kernel
  rw [hfirst] at hok
  obtain ⟨count, rfl⟩ := exists_ok_of_toBool hok
  obtain ⟨again, hagain⟩ := rewireInPlace_undone linkedPair result 0x200 1 1 count linkedPair_aligned hfirst
  exact ⟨result, count, again, rfl, hagain⟩

/-- The pass of the converter is the pass on the buffer it mutates. -/
theorem rewireSurfaceChannels_eq (content : Bytes) (tskSize srcCount dstCount : ℕ) :
    rewireSurfaceChannels content tskSize srcCount dstCount =
      (rewireInPlace content tskSize srcCount dstCount).2.map
        fun count => ((rewireInPlace content tskSize srcCount dstCount).1, count) := by
  have hwrites (changes : List (ℕ × ℕ)) (start : Bytes) :
      changes.foldlM (fun content change => packU32 content change.1 change.2) start =
        (writeChanges changes start).2.map fun _ => (writeChanges changes start).1 := by
    induction changes generalizing start with
    | nil => rfl
    | cons change rest ih =>
      obtain ⟨offset, word⟩ := change
      rw [List.foldlM_cons, writeChanges]
      cases packU32 start offset word with
      | error e => rfl
      | ok next => exact ih next
  have hcounts : ((srcCount : ℤ) < 1 ∨ (dstCount : ℤ) < 1 ∨ 28 < (srcCount : ℤ) + dstCount) ↔
      (srcCount < 1 ∨ dstCount < 1 ∨ 28 < srcCount + dstCount) := by omega
  rw [rewireSurfaceChannels, rewireInPlace]
  simp only [hcounts, Int.toNat_natCast]
  split_ifs
  · rfl
  · cases rewireLoop content tskSize srcCount dstCount [] [] 0 with
    | error e => rfl
    | ok changes =>
      rw [ok_bind, hwrites]
      rcases hwrite : writeChanges changes content with ⟨written, outcome⟩
      cases outcome with
      | ok _ => simp only [hwrite]; rfl
      | error e => simp only [hwrite]; rfl

end AneLinux.Hwx
