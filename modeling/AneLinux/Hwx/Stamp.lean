import AneLinux.Support.Python
import AneLinux.Support.Closure

/-!
# Patching a converted task stream

Two passes walk the task stream from offset 0 by the link word at `+0x1C` and rewrite words
in place. One stamps the FIFO nid into the first word of every task it visits; the other
rewires the surface channels in the selector word at `+0x20`. Each reads the links of the
buffer it is rewriting, so what it visits depends on the links that the writes leave behind.
-/

namespace AneLinux.Hwx

open AneLinux.Support

/-- The stamp loop; returns the buffer, the visited offsets and their number. -/
def patchTaskNidLoop (tskSize nid : ℕ) (content : Bytes) (seen : List ℕ) (patched offset : ℕ) :
    Py (Bytes × List ℕ × ℕ) :=
  if offset + 0x20 ≤ tskSize ∧ offset ∉ seen then do
    let hdr0 ← unpackU32 content offset
    let content ← packU32 content offset (hdr0 ||| nid <<< 16)
    let next ← unpackU32 content (offset + 0x1C)
    if next = 0 ∨ tskSize < next + 0x20 then
      return (content, offset :: seen, patched + 1)
    else
      patchTaskNidLoop tskSize nid content (offset :: seen) (patched + 1) next
  else
    return (content, seen, patched)
termination_by unvisited tskSize seen
decreasing_by
  have hvisit : offset + 0x20 ≤ tskSize ∧ offset ∉ seen := by assumption
  exact unvisited_cons_lt (by omega) hvisit.2

/-- Stamp the nid into every task header reachable from offset 0. -/
def patchTaskNid (content : Bytes) (tskSize nid : ℕ) : Py (Bytes × List ℕ × ℕ) :=
  patchTaskNidLoop tskSize nid content [] 0 0

/-- The channel of a surface once the outputs come before the inputs. -/
def rewireChannel (channel srcCount dstCount : ℕ) : Py ℕ :=
  if channel < 4 then return channel
  else if channel < 4 + srcCount then return channel + dstCount
  else if channel < 4 + srcCount + dstCount then return channel - srcCount
  else raiseValue ("surface channel " ++ toString channel ++ " outside declared contiguous layout")

/-- Replace the five-bit channel at `shift` of a selector. -/
def rewireField (sel srcCount dstCount : ℕ) (new shift : ℕ) : Py ℕ := do
  let mapped ← rewireChannel (sel >>> shift &&& 0x1F) srcCount dstCount
  return new - (new &&& 0x1F <<< shift) ||| mapped <<< shift

/-- The selector word with its first three channels rewired. -/
def rewireSelector (sel srcCount dstCount : ℕ) : Py ℕ :=
  if 4 ≤ sel >>> 18 &&& 0x1F then raiseValue "surface in unsupported fourth selector"
  else [0, 6, 12].foldlM (rewireField sel srcCount dstCount) sel

/-- The rewiring loop; returns the changed selector words in the order of the chain. -/
def rewireLoop (content : Bytes) (tskSize srcCount dstCount : ℕ) (seen : List ℕ)
    (changes : List (ℕ × ℕ)) (offset : ℕ) : Py (List (ℕ × ℕ)) :=
  if offset ∈ seen then return changes
  else if tskSize < offset + 0x24 ∨ content.size < offset + 0x24 then
    raiseValue "incomplete reachable task header"
  else do
    let sel ← unpackU32 content (offset + 32)
    let new ← rewireSelector sel srcCount dstCount
    let changes := if new ≠ sel then changes ++ [(offset + 32, new)] else changes
    let next ← unpackU32 content (offset + 0x1C)
    if next = 0 then return changes
    else rewireLoop content tskSize srcCount dstCount (offset :: seen) changes next
termination_by unvisited content.size seen
decreasing_by exact unvisited_cons_lt (by omega) (by assumption)

/-- Rewire an input-first contiguous layout; returns the buffer and the number of changes. -/
def rewireSurfaceChannels (content : Bytes) (tskSize srcCount dstCount : ℕ) : Py (Bytes × ℕ) :=
  if srcCount < 1 ∨ dstCount < 1 ∨ 28 < srcCount + dstCount then
    raiseValue "invalid contiguous surface counts"
  else do
    let changes ← rewireLoop content tskSize srcCount dstCount [] [] 0
    let content ← changes.foldlM (fun content change => packU32 content change.1 change.2) content
    return (content, changes.length)

/-! ## What a stamp changes -/

/-- The buffer with the nid bit set in the third byte of every stamped offset. -/
def stampBytes (content : Bytes) (stamped : List ℕ) : Bytes where
  size := content.size
  get i := if 2 ≤ i ∧ i - 2 ∈ stamped ∧ i < content.size then content.get i ||| 0x40 else content.get i
  get_of_size_le i hi := by
    rw [if_neg (by omega)]
    exact content.get_of_size_le i hi

theorem stampBytes_nil (content : Bytes) : stampBytes content [] = content := by
  apply Bytes.ext_get
  · rfl
  · intro i _
    exact if_neg (by simp)

/-- A byte that no stamp covers is kept. -/
theorem get_stampBytes_of_ne {content : Bytes} {stamped : List ℕ} {i : ℕ}
    (h : ∀ offset ∈ stamped, i ≠ offset + 2) : (stampBytes content stamped).get i = content.get i := by
  refine if_neg ?_
  rintro ⟨htwo, hmem, -⟩
  exact h (i - 2) hmem (by omega)

/-- The third byte of a stamped offset gets the nid bit. -/
theorem get_stampBytes_of_mem {content : Bytes} {stamped : List ℕ} {offset : ℕ} (h : offset ∈ stamped)
    (hsize : offset + 2 < content.size) :
    (stampBytes content stamped).get (offset + 2) = content.get (offset + 2) ||| 0x40 :=
  if_pos ⟨by omega, by simpa using h, hsize⟩

/-- Setting the nid in a word sets one bit of its third byte. -/
theorem get_putLE_or_nid (content : Bytes) {offset : ℕ} (hsize : offset + 4 ≤ content.size) (i : ℕ) :
    (content.putLE offset 4 (content.u32 offset ||| 0x40 <<< 16)).get i =
      if i = offset + 2 then content.get i ||| 0x40 else content.get i := by
  by_cases hin : offset ≤ i ∧ i < offset + 4
  · obtain ⟨k, rfl⟩ := Nat.exists_eq_add_of_le hin.1
    have hk : k < 4 := by omega
    rw [Bytes.get_putLE _ hk hsize, Nat.shiftRight_or_distrib, UInt8.ofNat_or, Bytes.u32,
      ← Bytes.get_eq_leNat_shiftRight _ _ _ _ hk]
    obtain rfl | rfl | rfl | rfl : k = 0 ∨ k = 1 ∨ k = 2 ∨ k = 3 := by omega
    · simp
    · simp
    · simp
    · simp
  · rw [Bytes.get_putLE_of_ne _ (by omega), if_neg (by omega)]

/-- One step of the stamp loop stamps its offset, which may carry the bit already. -/
theorem putLE_stampBytes (content : Bytes) (stamped : List ℕ) {offset : ℕ}
    (hsize : offset + 4 ≤ content.size) :
    (stampBytes content stamped).putLE offset 4 ((stampBytes content stamped).u32 offset ||| 0x40 <<< 16) =
      stampBytes content (offset :: stamped) := by
  apply Bytes.ext_get
  · rfl
  · intro i hi
    rw [get_putLE_or_nid (stampBytes content stamped) hsize]
    have hi' : i < content.size := hi
    by_cases hstamp : i = offset + 2
    · subst hstamp
      rw [if_pos rfl, get_stampBytes_of_mem List.mem_cons_self hi']
      by_cases hmem : offset ∈ stamped
      · rw [get_stampBytes_of_mem hmem hi']
        exact UInt8.or_assoc .. |>.trans (by simp)
      · rw [get_stampBytes_of_ne fun o ho h => hmem (by rwa [show offset = o by omega])]
    · rw [if_neg hstamp]
      refine if_congr ?_ rfl rfl
      rw [List.mem_cons]
      have hne : ¬ (2 ≤ i ∧ i - 2 = offset) := by omega
      tauto

end AneLinux.Hwx
