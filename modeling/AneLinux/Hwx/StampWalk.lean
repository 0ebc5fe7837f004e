import AneLinux.Hwx.Stamp

/-!
# What the patching passes visit

A run of the stamp loop is a chain of offsets, each read off the buffer with the nid bits of
the earlier ones already set. As long as no nid bit lands in a link word of the chain, the
run follows the links of the original stream, and the rewiring pass that comes after it walks
the same chain. Both passes leave every other byte alone.
-/

namespace AneLinux.Hwx

open AneLinux.Support

/-- A link between two task headers inside the stream, as the stamp loop bounds it. -/
def StreamLink (content : Bytes) (tskSize : ℕ) (base next : ℕ) : Prop :=
  base + 0x20 ≤ tskSize ∧ next + 0x20 ≤ tskSize ∧ next ≠ 0 ∧ next = content.u32 (base + 0x1C)

/-- The offsets reachable from offset 0 by links. -/
def StreamReach (content : Bytes) (tskSize : ℕ) : ℕ → Prop :=
  Relation.ReflTransGen (StreamLink content tskSize) 0

/-- No offset of the set has its nid byte in a link word of the set, unless the bit is there
already. -/
def Undisturbed (content : Bytes) (bases : Set ℕ) : Prop :=
  ∀ stamped ∈ bases, ∀ base ∈ bases, base + 0x1C ≤ stamped + 2 → stamped + 2 < base + 0x20 →
    content.get (stamped + 2) ||| 0x40 = content.get (stamped + 2)

variable {content : Bytes} {bases : Set ℕ} {tskSize : ℕ}

/-- Aligned offsets keep their nid bytes out of each other's link words. -/
theorem undisturbed_of_aligned (h : ∀ base ∈ bases, base % 0x100 = 0) : Undisturbed content bases := by
  intro stamped hstamped base hbase hlo hhi
  have := h stamped hstamped
  have := h base hbase
  omega

/-- Stamping an undisturbed set keeps its link words. -/
theorem u32_stampBytes_link (h : Undisturbed content bases) {stamped : List ℕ}
    (hstamped : ∀ offset ∈ stamped, offset ∈ bases) {base : ℕ} (hbase : base ∈ bases) :
    (stampBytes content stamped).u32 (base + 0x1C) = content.u32 (base + 0x1C) := by
  apply Bytes.u32_congr
  intro k hk
  by_cases hcover : ∃ offset ∈ stamped, base + 0x1C + k = offset + 2
  · obtain ⟨offset, hoffset, heq⟩ := hcover
    rw [heq]
    by_cases hsize : offset + 2 < content.size
    · rw [get_stampBytes_of_mem hoffset hsize]
      exact h offset (hstamped offset hoffset) base hbase (by omega) (by omega)
    · rw [content.get_of_size_le _ (by omega)]
      exact (stampBytes content stamped).get_of_size_le _ (Nat.le_of_not_lt hsize)
  · exact get_stampBytes_of_ne fun offset hoffset heq => hcover ⟨offset, hoffset, heq⟩

/-! ## Runs of the stamp loop -/

/-- A run of the stamp loop from an offset, given the offsets seen before it. -/
inductive StampRun (content : Bytes) (tskSize : ℕ) : List ℕ → ℕ → List ℕ → Prop
  | done {seen : List ℕ} {offset : ℕ} (hstop : ¬ (offset + 0x20 ≤ tskSize ∧ offset ∉ seen)) :
      StampRun content tskSize seen offset seen
  | last {seen : List ℕ} {offset : ℕ} (hvisit : offset + 0x20 ≤ tskSize ∧ offset ∉ seen)
      (hstop : (stampBytes content (offset :: seen)).u32 (offset + 0x1C) = 0 ∨
        tskSize < (stampBytes content (offset :: seen)).u32 (offset + 0x1C) + 0x20) :
      StampRun content tskSize seen offset (offset :: seen)
  | step {seen final : List ℕ} {offset : ℕ} (hvisit : offset + 0x20 ≤ tskSize ∧ offset ∉ seen)
      (hnext : ¬ ((stampBytes content (offset :: seen)).u32 (offset + 0x1C) = 0 ∨
        tskSize < (stampBytes content (offset :: seen)).u32 (offset + 0x1C) + 0x20))
      (hrest : StampRun content tskSize (offset :: seen)
        ((stampBytes content (offset :: seen)).u32 (offset + 0x1C)) final) :
      StampRun content tskSize seen offset final

section Runs

variable {seen final : List ℕ} {offset : ℕ}

/-- Setting the nid keeps a word in 32 bits. -/
theorem u32_or_nid_lt (content : Bytes) (offset : ℕ) : content.u32 offset ||| 0x40 <<< 16 < 2 ^ 32 :=
  Nat.or_lt_two_pow (content.u32_lt offset) (by decide)

/-- Inside the buffer the stamp loop returns, and its result is that of a run. -/
theorem patchTaskNidLoop_run (hsize : tskSize ≤ content.size) (seen : List ℕ) (patched offset : ℕ) :
    ∃ final, patchTaskNidLoop tskSize 0x40 (stampBytes content seen) seen patched offset =
        .ok (stampBytes content final, final, patched + final.length - seen.length) ∧
      StampRun content tskSize seen offset final := by
  induction hmeasure : unvisited tskSize seen using Nat.strong_induction_on
    generalizing seen patched offset with
  | _ measure ih =>
    rw [patchTaskNidLoop]
    split_ifs with hvisit
    · have hread : offset + 4 ≤ (stampBytes content seen).size := by
        change offset + 4 ≤ content.size
        omega
      have hlink : offset + 0x1C + 4 ≤ (stampBytes content (offset :: seen)).size := by
        change offset + 0x1C + 4 ≤ content.size
        omega
      rw [unpackU32_of_le hread, ok_bind, packU32_of_le hread (u32_or_nid_lt _ _), ok_bind,
        putLE_stampBytes content seen hread, unpackU32_of_le hlink, ok_bind]
      split_ifs with hnext
      · refine ⟨offset :: seen, ?_, StampRun.last hvisit hnext⟩
        rw [List.length_cons, show patched + (seen.length + 1) - seen.length = patched + 1 by omega]
        rfl
      · have hlt := unvisited_cons_lt (show offset < tskSize by omega) hvisit.2
        obtain ⟨final, hfinal, hrun⟩ := ih _ (hmeasure ▸ hlt) (offset :: seen) (patched + 1)
          ((stampBytes content (offset :: seen)).u32 (offset + 0x1C)) rfl
        refine ⟨final, ?_, StampRun.step hvisit hnext hrun⟩
        rw [hfinal, List.length_cons,
          show patched + 1 + final.length - (seen.length + 1) = patched + final.length - seen.length by omega]
    · refine ⟨seen, ?_, StampRun.done hvisit⟩
      rw [Nat.add_sub_cancel]
      rfl

/-- A run keeps what was seen, visits its start, and visits nothing twice. -/
theorem StampRun.shape (h : StampRun content tskSize seen offset final) :
    (∀ base ∈ seen, base ∈ final) ∧ (offset + 0x20 ≤ tskSize → offset ∈ final) ∧
      (seen.Nodup → final.Nodup) ∧ ∀ base ∈ final, base ∈ seen ∨ base + 0x20 ≤ tskSize := by
  induction h with
  | @done seen offset hstop =>
    refine ⟨fun base hbase => hbase, fun hroom => ?_, id, fun base hbase => Or.inl hbase⟩
    by_contra hnew
    exact hstop ⟨hroom, hnew⟩
  | @last seen offset hvisit hstop =>
    refine ⟨fun base hbase => List.mem_cons_of_mem offset hbase, fun _ => List.mem_cons_self,
      fun hseen => List.nodup_cons.mpr ⟨hvisit.2, hseen⟩, fun base hbase => ?_⟩
    rcases List.mem_cons.mp hbase with rfl | hbase
    · exact Or.inr hvisit.1
    · exact Or.inl hbase
  | @step seen final offset hvisit hnext hrest ih =>
    obtain ⟨hkeep, -, hnodup, hroom⟩ := ih
    refine ⟨fun base hbase => hkeep base (List.mem_cons_of_mem offset hbase),
      fun _ => hkeep offset List.mem_cons_self,
      fun hseen => hnodup (List.nodup_cons.mpr ⟨hvisit.2, hseen⟩), fun base hbase => ?_⟩
    rcases hroom base hbase with hmem | hmem
    · rcases List.mem_cons.mp hmem with rfl | hmem
      · exact Or.inr hvisit.1
      · exact Or.inl hmem
    · exact Or.inr hmem

/-- A run stays in an undisturbed set that is closed under the original links. -/
theorem StampRun.subset (h : StampRun content tskSize seen offset final) (hbases : Undisturbed content bases)
    (hclosed : ∀ base ∈ bases, ∀ next, StreamLink content tskSize base next → next ∈ bases)
    (hseen : ∀ base ∈ seen, base ∈ bases) (hoffset : offset ∈ bases) : ∀ base ∈ final, base ∈ bases := by
  induction h with
  | done hstop => exact hseen
  | last hvisit hstop => exact List.forall_mem_cons.mpr ⟨hoffset, hseen⟩
  | @step seen final offset hvisit hnext hrest ih =>
    have hmore : ∀ base ∈ offset :: seen, base ∈ bases := List.forall_mem_cons.mpr ⟨hoffset, hseen⟩
    refine ih hmore ?_
    rw [u32_stampBytes_link hbases hmore hoffset] at hnext ⊢
    rw [not_or] at hnext
    exact hclosed offset hoffset _ ⟨hvisit.1, Nat.le_of_not_lt hnext.2, hnext.1, rfl⟩

/-- A run inside an undisturbed set follows the original links to their end: its offsets are
closed under links and reachable by them. -/
theorem StampRun.follows (h : StampRun content tskSize seen offset final) (hbases : Undisturbed content bases)
    (hfinal : ∀ base ∈ final, base ∈ bases)
    (hseen : ∀ base ∈ seen, ∀ next, StreamLink content tskSize base next → next ∈ seen ∨ next = offset) :
    (∀ base ∈ final, ∀ next, StreamLink content tskSize base next → next ∈ final) ∧
      ∀ base ∈ final, base ∈ seen ∨ Relation.ReflTransGen (StreamLink content tskSize) offset base := by
  induction h with
  | @done seen offset hstop =>
    refine ⟨fun base hbase next hlink => ?_, fun base hbase => Or.inl hbase⟩
    rcases hseen base hbase next hlink with hmem | rfl
    · exact hmem
    · by_contra hnew
      exact hstop ⟨hlink.2.1, hnew⟩
  | @last seen offset hvisit hstop =>
    rw [u32_stampBytes_link hbases hfinal (hfinal offset List.mem_cons_self)] at hstop
    refine ⟨fun base hbase next hlink => ?_, fun base hbase => ?_⟩
    · rcases List.mem_cons.mp hbase with rfl | hbase
      · obtain ⟨-, hroom, hzero, rfl⟩ := hlink
        rcases hstop with hstop | hstop
        · exact absurd hstop hzero
        · omega
      · rcases hseen base hbase next hlink with hmem | rfl
        · exact List.mem_cons_of_mem offset hmem
        · exact List.mem_cons_self
    · rcases List.mem_cons.mp hbase with rfl | hbase
      · exact Or.inr Relation.ReflTransGen.refl
      · exact Or.inl hbase
  | @step seen final offset hvisit hnext hrest ih =>
    have hmore : ∀ base ∈ offset :: seen, base ∈ bases := fun base hbase => hfinal base (hrest.shape.1 base hbase)
    rw [u32_stampBytes_link hbases hmore (hmore offset List.mem_cons_self)] at hnext hrest ih
    rw [not_or] at hnext
    have hlink : StreamLink content tskSize offset (content.u32 (offset + 0x1C)) :=
      ⟨hvisit.1, Nat.le_of_not_lt hnext.2, hnext.1, rfl⟩
    have hseen' : ∀ base ∈ offset :: seen, ∀ next, StreamLink content tskSize base next →
        next ∈ offset :: seen ∨ next = content.u32 (offset + 0x1C) := by
      intro base hbase next hstep
      rcases List.mem_cons.mp hbase with rfl | hbase
      · exact Or.inr hstep.2.2.2
      · rcases hseen base hbase next hstep with hmem | rfl
        · exact Or.inl (List.mem_cons_of_mem offset hmem)
        · exact Or.inl List.mem_cons_self
    obtain ⟨hclosed, hreach⟩ := ih hfinal hseen'
    refine ⟨hclosed, fun base hbase => ?_⟩
    rcases hreach base hbase with hmem | hpath
    · rcases List.mem_cons.mp hmem with rfl | hmem
      · exact Or.inr Relation.ReflTransGen.refl
      · exact Or.inl hmem
    · exact Or.inr (Relation.ReflTransGen.head hlink hpath)

end Runs

/-! ## The rewiring pass -/

section Rewiring

variable {srcCount dstCount : ℕ}

/-- The word is the selector of a complete task header of the set. -/
def SelectorOf (tskSize : ℕ) (bases : Set ℕ) (position : ℕ) : Prop :=
  ∃ base ∈ bases, base + 0x24 ≤ tskSize ∧ position = base + 0x20

/-- The rewiring loop changes selectors of a set that is closed under the links it reads. -/
theorem rewireLoop_selectors
    (hlinks : ∀ base ∈ bases, ∀ next, next = content.u32 (base + 0x1C) → next ≠ 0 → next + 0x24 ≤ tskSize →
      next ∈ bases)
    {seen : List ℕ} {changes : List (ℕ × ℕ)} {offset : ℕ} (hoffset : offset + 0x24 ≤ tskSize → offset ∈ bases)
    (hchanges : ∀ change ∈ changes, SelectorOf tskSize bases change.1) :
    Meets (rewireLoop content tskSize srcCount dstCount seen changes offset)
      (fun found => ∀ change ∈ found, SelectorOf tskSize bases change.1) (fun _ => True) := by
  fun_induction rewireLoop content tskSize srcCount dstCount seen changes offset with
  | case1 seen changes offset hseen => exact hchanges
  | case2 seen changes offset hseen hshort => trivial
  | case3 seen changes offset hseen hshort ih =>
    rw [not_or] at hshort
    have hbase := hoffset (by omega)
    rw [unpackU32_of_le (by omega), ok_bind]
    cases rewireSelector (content.u32 (offset + 32)) srcCount dstCount with
    | error e => trivial
    | ok new =>
      rw [ok_bind, unpackU32_of_le (by omega), ok_bind]
      have hmore : ∀ change ∈ (if new ≠ content.u32 (offset + 32) then changes ++ [(offset + 32, new)]
          else changes), SelectorOf tskSize bases change.1 := by
        intro change hchange
        split_ifs at hchange with hnew
        · rcases List.mem_append.mp hchange with hold | hlast
          · exact hchanges change hold
          · rw [List.mem_singleton.mp hlast]
            exact ⟨offset, hbase, by omega, rfl⟩
        · exact hchanges change hchange
      by_cases hnext : content.u32 (offset + 0x1C) = 0
      · rw [if_pos hnext]
        exact hmore
      · rw [if_neg hnext]
        exact ih _ _ _ (hlinks offset hbase _ rfl hnext) hmore

/-- Writing words back changes only the bytes of those words. -/
theorem foldlM_packU32_frame {changes : List (ℕ × ℕ)} {start result : Bytes}
    (h : changes.foldlM (fun content change => packU32 content change.1 change.2) start = .ok result) :
    result.size = start.size ∧ ∀ i, (∀ change ∈ changes, i < change.1 ∨ change.1 + 4 ≤ i) →
      result.get i = start.get i := by
  induction changes generalizing start with
  | nil =>
    cases h
    exact ⟨rfl, fun _ _ => rfl⟩
  | cons change rest ih =>
    rw [List.foldlM_cons] at h
    obtain ⟨next, hnext, h⟩ := bind_eq_ok.mp h
    obtain ⟨-, rfl⟩ := packU32_eq_ok.mp hnext
    obtain ⟨hsize, hkeep⟩ := ih h
    refine ⟨hsize, fun i hi => ?_⟩
    rw [hkeep i fun c hc => hi c (List.mem_cons_of_mem change hc),
      Bytes.get_putLE_of_ne _ (hi change List.mem_cons_self)]

/-- The rewiring pass changes only selector words of a set closed under the links it reads. -/
theorem rewireSurfaceChannels_frame {result : Bytes} {count : ℕ}
    (hlinks : ∀ base ∈ bases, ∀ next, next = content.u32 (base + 0x1C) → next ≠ 0 → next + 0x24 ≤ tskSize →
      next ∈ bases)
    (hzero : 0x24 ≤ tskSize → 0 ∈ bases)
    (h : rewireSurfaceChannels content tskSize srcCount dstCount = .ok (result, count)) :
    result.size = content.size ∧
      ∀ i, (∀ base ∈ bases, base + 0x24 ≤ tskSize → i < base + 0x20 ∨ base + 0x24 ≤ i) →
        result.get i = content.get i := by
  unfold rewireSurfaceChannels at h
  split_ifs at h with hcounts
  · exact absurd h (raiseValue_ne_ok _ _)
  obtain ⟨changes, hchanges, h⟩ := bind_eq_ok.mp h
  obtain ⟨written, hwritten, h⟩ := bind_eq_ok.mp h
  obtain ⟨rfl, -⟩ := Prod.mk.inj (Except.ok.inj h)
  have hselectors := (rewireLoop_selectors hlinks (by simpa using hzero) (by simp)).value hchanges
  obtain ⟨hsize, hkeep⟩ := foldlM_packU32_frame hwritten
  refine ⟨hsize, fun i hi => hkeep i fun change hchange => ?_⟩
  obtain ⟨base, hbase, hroom, hposition⟩ := hselectors change hchange
  rw [hposition]
  exact hi base hbase hroom

end Rewiring

end AneLinux.Hwx
