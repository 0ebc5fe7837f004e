import AneLinux.Hwx.Registers
import AneLinux.Support.StructCodec
import Mathlib.Data.List.Chain

/-!
# Prefix bundles

A prefix bundle has the first tasks of an ANEC file. `build-prefix-bundles` follows the links from task to task and
cuts the task stream in the file behind the `k`-th one, so a task that the links visit earlier but that the file has
later is lost. It keeps as much of the kernel as a scan of the records sees addressed: it takes sixteen words from the
place of the first address register and of the first size register, in a record that covers that register, and does
not see registers that other records set.
-/

namespace AneLinux.Anec.PrefixBundle

open AneLinux.Support AneLinux.Hwx

/-- `HDR`. -/
def hdrSize : ℕ := 0x1000

/-- `(n + 15) & ~15`. -/
def align16 (n : ℕ) : ℕ := (n + 15) / 16 * 16

/-! ## The script -/

/-- `struct.unpack("<10I", data[off:off + 40])`, word by word. -/
def unpackHeader (data : Bytes) (off : ℕ) : Py (ℕ → ℕ) :=
  if off + 40 ≤ data.size then return fun i => data.u32 (off + 4 * i) else throw .structError

/-- The loop that collects `offs`, for at most so many rounds; `none` when the chain goes on. -/
def offsetsFrom (data : Bytes) : ℕ → ℕ → Py (Option (List ℕ))
  | 0, _ => return none
  | rounds + 1, off => do
    let h ← unpackHeader data off
    if h 7 = 0 then return some [off]
    else do
      let rest ← offsetsFrom data rounds (hdrSize + h 7)
      return rest.map (off :: ·)

/-- The words of a task. -/
def taskWords (h : ℕ → ℕ) : ℕ := ((h 1 >>> 16) &&& 0x1FF) + 1

/-- The words between the header and the first record. -/
def extraWords (h : ℕ → ℕ) : ℕ := if h 9 &&& 3 = 3 then 1 else 0

/-- The loop over the records of the last task. -/
def recordsEnd (data : Bytes) (sz p used : ℕ) : Py ℕ :=
  if used < sz then do
    let rh ← unpackU32 data p
    recordsEnd data sz (p + 4 + recordCount rh * 4) (used + 1 + recordCount rh)
  else return p
termination_by sz - used
decreasing_by
  simp only [recordCount]
  omega

/-- `struct.unpack("<16I", data[off:off + 64])`. -/
def unpack16 (data : Bytes) (off : ℕ) : Py (List ℕ) :=
  if off + 64 ≤ data.size then return (List.range 16).map fun i => data.u32 (off + 4 * i) else throw .structError

/-- The sixteen words from the place of a register, when the record at `p` covers it. -/
def readGroup (data : Bytes) (register base count p : ℕ) (old : List ℕ) : Py (List ℕ) :=
  if base ≤ register ∧ register < base + count * 4 then unpack16 data (p + 4 + (register - base) / 4 * 4)
  else return old

/-- The first of the sixteen address registers, and of the sixteen size registers. -/
def addrRegister : ℕ := 0x1F848
def sizeRegister : ℕ := 0x1F888

/-- The scan over the records of a task. -/
def scanRecords (data : Bytes) (sz p used : ℕ) (addrs sizes : List ℕ) : Py (List ℕ × List ℕ) :=
  if used < sz then do
    let rh ← unpackU32 data p
    let addrs ← readGroup data addrRegister (recordRegister rh) (recordCount rh) p addrs
    let sizes ← readGroup data sizeRegister (recordRegister rh) (recordCount rh) p sizes
    scanRecords data sz (p + 4 + recordCount rh * 4) (used + 1 + recordCount rh) addrs sizes
  else return (addrs, sizes)
termination_by sz - used
decreasing_by
  simp only [recordCount]
  omega

/-- The address and size pairs that the scan sees in a task: none when it has not seen both groups. -/
def scanTask (data : Bytes) (ro : ℕ) : Py (List (ℕ × ℕ)) := do
  let h ← unpackHeader data ro
  let (addrs, sizes) ← scanRecords data (taskWords h) (ro + 40 + extraWords h * 4) (10 + extraWords h) [] []
  return addrs.zip sizes

/-- The largest end of some ranges. -/
def reachOf (reach : ℕ) (pairs : List (ℕ × ℕ)) : ℕ := pairs.foldl (fun reach pair => max reach (pair.1 + pair.2)) reach

/-- The loop over the tasks of the prefix. -/
def reachLoop (data : Bytes) : ℕ → ℕ → ℕ → Py ℕ
  | 0, _, reach => return reach
  | rounds + 1, ro, reach => do
    let pairs ← scanTask data ro
    let h ← unpackHeader data ro
    if h 7 = 0 then return reachOf reach pairs
    else reachLoop data rounds (hdrSize + h 7) (reachOf reach pairs)

/-- The file that `main` writes for `k`, from the offsets of the chain. -/
def buildPrefix (data : Bytes) (offs : List ℕ) (k : ℕ) : Py Bytes := do
  if ¬(0 < k ∧ k < offs.length) then throw (.assertionError "")
  let last := offs.getD (k - 1) 0
  let fterm := data.slice (offs.getLastD 0) (offs.getLastD 0 + 4)
  let h ← unpackHeader data last
  let p ← recordsEnd data (taskWords h) (last + 40 + extraWords h * 4) (10 + extraWords h)
  let reach ← reachLoop data k hdrSize 0
  let tskOrig ← unpackU64 data 16
  let krnOrig ← unpackU64 data 24
  let ksrc := hdrSize + align16 tskOrig
  let kbytes := data.slice ksrc (ksrc + krnOrig)
  if kbytes.size ≠ krnOrig then throw (.assertionError "")
  let lo := last - hdrSize
  let cut := (data.slice hdrSize p).splice (lo + 28) (lo + 32) (Bytes.zeros 4) ++ fterm
  let newStream := cut ++ Bytes.zeros (align16 cut.size - cut.size)
  let kcut := align16 (align16 reach)
  if krnOrig < kcut then throw (.assertionError "")
  let hdr ← packU64 (data.slice 0 hdrSize) 0 (newStream.size + kcut)
  let hdr ← packU32 hdr 12 (k + 1)
  let hdr ← packU64 hdr 16 newStream.size
  let hdr ← packU64 hdr 24 kcut
  return hdr ++ newStream ++ kbytes.slice 0 kcut

/-! ## What a bundle is for -/

/-- Where the records of a task end. -/
def recordsStop (data : Bytes) (sz p used : ℕ) : ℕ :=
  if used < sz then
    recordsStop data sz (p + 4 + recordCount (data.u32 p) * 4) (used + 1 + recordCount (data.u32 p))
  else p
termination_by sz - used
decreasing_by
  simp only [recordCount]
  omega

/-- The end of a task, header and records, as far as the file has them. -/
def taskEnd (data : Bytes) (off : ℕ) : ℕ :=
  let h := fun i => data.u32 (off + 4 * i)
  min (recordsStop data (taskWords h) (off + 40 + extraWords h * 4) (10 + extraWords h)) data.size

/-- A task has a NextPointer to another. -/
def Links (data : Bytes) (off next : ℕ) : Prop := data.u32 (off + 28) ≠ 0 ∧ next = hdrSize + data.u32 (off + 28)

/-- The NextPointers lead from `first` over the given tasks, and stop at the last. -/
structure Follows (data : Bytes) (first : ℕ) (offs : List ℕ) : Prop where
  head : offs.head? = some first
  links : offs.IsChain (Links data)
  stops : ∀ last ∈ offs.getLast?, data.u32 (last + 28) = 0
  inside : ∀ off ∈ offs, off + 40 ≤ data.size

/-- The register map of a task has a coefficient range. -/
def HasRange (td : Bytes) (addr size : ℕ) : Prop :=
  ∃ registers, walkRegisters td = .ok registers ∧ ∃ lane < 16,
    registers (addrRegister + 4 * lane) = some addr ∧ registers (sizeRegister + 4 * lane) = some size

/-- The prefix of `k` tasks is self-contained. -/
structure SelfContained (data out : Bytes) (offs : List ℕ) (k : ℕ) : Prop where
  chain : Follows out hdrSize (offs.take k)
  tasks : ∀ i < k, ∀ off, offs[i]? = some off → ∀ x, off ≤ x → x < taskEnd data off →
    (i + 1 = k → ¬ (off + 28 ≤ x ∧ x < off + 32)) → x < out.size ∧ out.get x = data.get x
  keeps : out.u64 24 ≤ data.u64 24
  kernel : out.slice (hdrSize + align16 (out.u64 16)) out.size =
    data.slice (hdrSize + align16 (data.u64 16)) (hdrSize + align16 (data.u64 16) + out.u64 24)
  coefficients : ∀ i < k, ∀ off, offs[i]? = some off → ∀ addr size,
    HasRange (out.slice off (taskEnd data off)) addr size → addr + size ≤ out.u64 24

/-- The places of the records of a task. -/
def recordPlaces (data : Bytes) (sz p used : ℕ) : List ℕ :=
  if used < sz then
    p :: recordPlaces data sz (p + 4 + recordCount (data.u32 p) * 4) (used + 1 + recordCount (data.u32 p))
  else []
termination_by sz - used
decreasing_by
  simp only [recordCount]
  omega

/-- The record at `p` covers a register. -/
def Covers (data : Bytes) (register p : ℕ) : Prop :=
  recordRegister (data.u32 p) ≤ register ∧ register < recordRegister (data.u32 p) + recordCount (data.u32 p) * 4

instance (data : Bytes) (register p : ℕ) : Decidable (Covers data register p) := inferInstanceAs (Decidable (_ ∧ _))

/-- The sixteen words from the place of a register, in the last record that covers it. -/
def wordsFrom (data : Bytes) (register : ℕ) (places : List ℕ) : Option (List ℕ) :=
  (places.filter fun p => Covers data register p).getLast?.map fun p =>
    (List.range 16).map fun i => data.u32 (p + 4 + (register - recordRegister (data.u32 p)) / 4 * 4 + 4 * i)

/-- The pairs that a task has from the places of its first address register and its first size register. -/
def seenPairs (data : Bytes) (off : ℕ) : List (ℕ × ℕ) :=
  let h := fun i => data.u32 (off + 4 * i)
  let places := recordPlaces data (taskWords h) (off + 40 + extraWords h * 4) (10 + extraWords h)
  ((wordsFrom data addrRegister places).getD []).zip ((wordsFrom data sizeRegister places).getD [])

/-- The kernel bytes that the pairs reach, in whole sixteens. -/
def keptBytes (data : Bytes) (offs : List ℕ) (k : ℕ) : ℕ :=
  align16 (reachOf 0 ((offs.take k).flatMap (seenPairs data)))

/-- The bytes that a bundle has behind its `k`-th task: the first word of the final task, padding, and the kernel. -/
def behindTask (data : Bytes) (offs : List ℕ) (k : ℕ) : Bytes :=
  let fterm := data.slice (offs.getLastD 0) (offs.getLastD 0 + 4)
  let cut := taskEnd data (offs.getD (k - 1) 0) - hdrSize + fterm.size
  let ksrc := hdrSize + align16 (data.u64 16)
  fterm ++ (Bytes.zeros (align16 cut - cut) ++ data.slice ksrc (ksrc + keptBytes data offs k))

/-- The condition. No other visited task has nonzero bytes where the `k`-th one has its NextPointer, or bytes behind the
end of the `k`-th one that differ from those the bundle has there; and no coefficient range of a visited task ends
behind the kernel bytes that the scanned pairs reach. -/
structure Bundles (data : Bytes) (offs : List ℕ) (k : ℕ) : Prop where
  pointer : ∀ i off, i + 1 < k → offs[i]? = some off → ∀ x, off ≤ x → x < taskEnd data off →
    offs.getD (k - 1) 0 + 28 ≤ x → x < offs.getD (k - 1) 0 + 32 → data.get x = 0
  behind : ∀ i off, i + 1 < k → offs[i]? = some off → ∀ x, x < taskEnd data off →
    ∀ y, x = taskEnd data (offs.getD (k - 1) 0) + y → off ≤ x →
      y < (behindTask data offs k).size ∧ (behindTask data offs k).get y = data.get x
  reached : ∀ i < k, ∀ off, offs[i]? = some off → ∀ addr size,
    HasRange (data.slice off (taskEnd data off)) addr size → addr + size ≤ keptBytes data offs k

variable {data out : Bytes} {offs : List ℕ} {k off first : ℕ}

/-! ## The chain -/

/-- A header is read where forty bytes are left. -/
theorem unpackHeader_eq_ok {h : ℕ → ℕ} :
    unpackHeader data off = .ok h ↔ off + 40 ≤ data.size ∧ (fun i => data.u32 (off + 4 * i)) = h := by
  rw [unpackHeader]
  split
  · next hle => exact ⟨fun he => ⟨hle, Except.ok.inj he⟩, fun he => congrArg Except.ok he.2⟩
  · next hlt => exact ⟨fun he => (by cases he), fun he => absurd he.1 hlt⟩

/-- A chain grows at its front. -/
theorem Follows.cons {next : ℕ} (h : Follows data next offs) (hinside : off + 40 ≤ data.size)
    (hlink : Links data off next) : Follows data off (off :: offs) := by
  obtain ⟨hhead, hlinks, hstops, hin⟩ := h
  obtain ⟨rest, rfl⟩ : ∃ rest, offs = next :: rest := by
    cases offs with
    | nil => cases hhead
    | cons a rest =>
      obtain rfl := Option.some.inj hhead
      exact ⟨rest, rfl⟩
  exact ⟨rfl, List.isChain_cons_cons.mpr ⟨hlink, hlinks⟩, by rwa [List.getLast?_cons_cons],
    List.forall_mem_cons.mpr ⟨hinside, hin⟩⟩

/-- The offsets that the script collects are the chain. -/
theorem offsetsFrom_follows {rounds : ℕ} (h : offsetsFrom data rounds first = .ok (some offs)) :
    Follows data first offs := by
  induction rounds generalizing first offs with
  | zero => cases Except.ok.inj h
  | succ rounds ih =>
    obtain ⟨header, hheader, h⟩ := bind_eq_ok.mp h
    obtain ⟨hinside, rfl⟩ := unpackHeader_eq_ok.mp hheader
    split at h
    · next hstop =>
      obtain rfl := Option.some.inj (Except.ok.inj h)
      exact ⟨rfl, List.isChain_singleton _, fun last hlast => Option.some.inj hlast ▸ hstop,
        List.forall_mem_singleton.mpr hinside⟩
    · next hnext =>
      obtain ⟨rest, hrest, h⟩ := bind_eq_ok.mp h
      obtain ⟨offs', rfl, rfl⟩ := Option.map_eq_some_iff.mp (Except.ok.inj h)
      exact (ih hrest).cons hinside ⟨hnext, rfl⟩

/-- A chain that is cut behind its `k`-th task: the links before it are kept, and its own is zero. -/
theorem Follows.take (h : Follows data first offs) (hk : 0 < k) (hlt : k < offs.length)
    (hinside : ∀ i < k, ∀ off, offs[i]? = some off → off + 40 ≤ out.size)
    (hkept : ∀ i, i + 1 < k → ∀ off, offs[i]? = some off → out.u32 (off + 28) = data.u32 (off + 28))
    (hstop : out.u32 (offs.getD (k - 1) 0 + 28) = 0) : Follows out first (offs.take k) := by
  have hget (i : ℕ) (hi : i < k) : (offs.take k)[i]? = offs[i]? := List.getElem?_take_of_lt hi
  refine ⟨?_, ?_, fun last hlast => ?_, fun off hoff => ?_⟩
  · rw [List.head?_take, if_neg (by omega), h.head]
  · rw [List.isChain_iff_getElem]
    intro i hi
    rw [List.length_take] at hi
    have hlink := List.isChain_iff_getElem.mp h.links i (by omega)
    rw [List.getElem_take, List.getElem_take, Links, hkept i (by omega) _ (List.getElem?_eq_getElem (by omega))]
    exact hlink
  · rw [List.getLast?_eq_getElem?, List.length_take, min_eq_left hlt.le, hget _ (by omega)] at hlast
    rw [List.getD_eq_getElem?_getD, hlast] at hstop
    exact hstop
  · obtain ⟨i, hi⟩ := List.mem_iff_getElem?.mp hoff
    have hik : i < k := by
      have := (List.getElem?_eq_some_iff.mp hi).1
      rw [List.length_take] at this
      omega
    exact hinside i hik off (by rw [← hget i hik, hi])

/-! ## The scan -/

/-- The scan stops where the records do. -/
theorem recordsEnd_eq_ok {sz p used q : ℕ} (h : recordsEnd data sz p used = .ok q) :
    q = recordsStop data sz p used := by
  fun_induction recordsStop data sz p used with
  | case1 p used hused ih =>
    rw [recordsEnd, if_pos hused] at h
    obtain ⟨rh, hrh, h⟩ := bind_eq_ok.mp h
    obtain ⟨-, rfl⟩ := unpackU32_eq_ok.mp hrh
    exact ih h
  | case2 p used hused =>
    rw [recordsEnd, if_neg hused] at h
    exact (Except.ok.inj h).symm

theorem le_recordsStop {sz p used : ℕ} : p ≤ recordsStop data sz p used := by
  fun_induction recordsStop data sz p used with
  | case1 p used hused ih => omega
  | case2 p used hused => exact le_rfl

/-- A task has a whole header. -/
theorem add_le_taskEnd (h : off + 40 ≤ data.size) : off + 40 ≤ taskEnd data off := by
  rw [taskEnd]
  exact le_min (le_trans (Nat.le_add_right _ _) le_recordsStop) h

/-- One record gives its register's words. -/
theorem readGroup_eq_ok {register p : ℕ} {old words : List ℕ} {rest : List ℕ}
    (h : readGroup data register (recordRegister (data.u32 p)) (recordCount (data.u32 p)) p old = .ok words) :
    (wordsFrom data register rest).getD words = (wordsFrom data register (p :: rest)).getD old := by
  rw [readGroup] at h
  split at h
  · next hcovers =>
    change Covers data register p at hcovers
    rw [unpack16] at h
    split at h
    · obtain rfl := Except.ok.inj h
      rw [wordsFrom, wordsFrom, List.filter_cons, if_pos (decide_eq_true hcovers), List.getLast?_cons]
      cases (rest.filter fun p => Covers data register p).getLast? <;> rfl
    · cases h
  · next hcovers =>
    change ¬ Covers data register p at hcovers
    obtain rfl := Except.ok.inj h
    rw [wordsFrom, wordsFrom, List.filter_cons, if_neg (ne_true_of_eq_false (decide_eq_false hcovers))]

/-- The scan keeps the last words of both registers. -/
theorem scanRecords_eq_ok {sz p used : ℕ} {addrs sizes : List ℕ} {r : List ℕ × List ℕ}
    (h : scanRecords data sz p used addrs sizes = .ok r) :
    r = ((wordsFrom data addrRegister (recordPlaces data sz p used)).getD addrs,
      (wordsFrom data sizeRegister (recordPlaces data sz p used)).getD sizes) := by
  fun_induction recordPlaces data sz p used generalizing addrs sizes with
  | case1 p used hused ih =>
    rw [scanRecords, if_pos hused] at h
    obtain ⟨rh, hrh, h⟩ := bind_eq_ok.mp h
    obtain ⟨-, rfl⟩ := unpackU32_eq_ok.mp hrh
    obtain ⟨addrs', haddrs, h⟩ := bind_eq_ok.mp h
    obtain ⟨sizes', hsizes, h⟩ := bind_eq_ok.mp h
    rw [ih h, readGroup_eq_ok haddrs, readGroup_eq_ok hsizes]
  | case2 p used hused =>
    rw [scanRecords, if_neg hused] at h
    exact (Except.ok.inj h).symm

/-- One task gives the pairs seen in it. -/
theorem scanTask_eq_ok {pairs : List (ℕ × ℕ)} (h : scanTask data off = .ok pairs) :
    pairs = seenPairs data off := by
  obtain ⟨header, hheader, h⟩ := bind_eq_ok.mp h
  obtain ⟨-, rfl⟩ := unpackHeader_eq_ok.mp hheader
  obtain ⟨groups, hgroups, h⟩ := bind_eq_ok.mp h
  obtain rfl := Except.ok.inj h
  rw [scanRecords_eq_ok hgroups, seenPairs]

/-- The reach over two lists of pairs. -/
theorem reachOf_append (reach : ℕ) (pairs pairs' : List (ℕ × ℕ)) :
    reachOf reach (pairs ++ pairs') = reachOf (reachOf reach pairs) pairs' := List.foldl_append

/-- The loop over the tasks of a prefix takes in the pairs of all of them. -/
theorem reachLoop_eq_ok {rounds reach r : ℕ} {rest : List ℕ} (h : reachLoop data rounds off reach = .ok r)
    (hlinks : (off :: rest).IsChain (Links data)) (hlt : rounds ≤ rest.length) :
    r = reachOf reach (((off :: rest).take rounds).flatMap (seenPairs data)) := by
  induction rounds generalizing off rest reach with
  | zero =>
    rw [List.take_zero, List.flatMap_nil]
    exact (Except.ok.inj h).symm
  | succ rounds ih =>
    match rest with
    | next :: rest =>
      obtain ⟨hlink, hrest⟩ := List.isChain_cons_cons.mp hlinks
      obtain ⟨pairs, hpairs, h⟩ := bind_eq_ok.mp h
      obtain ⟨header, hheader, h⟩ := bind_eq_ok.mp h
      obtain ⟨-, rfl⟩ := unpackHeader_eq_ok.mp hheader
      rw [if_neg hlink.1, ← hlink.2] at h
      rw [List.take_succ_cons, List.flatMap_cons, ← scanTask_eq_ok hpairs, reachOf_append]
      exact ih h hrest (by simpa using hlt)

/-! ## The file -/

/-- A file is a header, the task stream up to the end of the `k`-th task with its NextPointer cleared, and the rest. -/
structure IsBundle (data out : Bytes) (offs : List ℕ) (k : ℕ) : Prop where
  size : out.size = taskEnd data (offs.getD (k - 1) 0) + (behindTask data offs k).size
  stream : ∀ x, hdrSize ≤ x → x < taskEnd data (offs.getD (k - 1) 0) → out.get x =
    if offs.getD (k - 1) 0 + 28 ≤ x ∧ x < offs.getD (k - 1) 0 + 32 then 0 else data.get x
  rest : ∀ y, out.get (taskEnd data (offs.getD (k - 1) 0) + y) = (behindTask data offs k).get y
  streamWord : out.u64 16 = align16 (taskEnd data (offs.getD (k - 1) 0) - hdrSize +
    (data.slice (offs.getLastD 0) (offs.getLastD 0 + 4)).size)
  kernelWord : out.u64 24 = keptBytes data offs k
  keeps : keptBytes data offs k ≤ data.u64 24
  positive : 0 < k
  more : k < offs.length

theorem align16_align16 (n : ℕ) : align16 (align16 n) = align16 n := by
  rw [align16, align16]
  omega

theorem le_align16 (n : ℕ) : n ≤ align16 n := by
  rw [align16]
  omega

/-- Every task lies behind the header. -/
theorem Follows.hdrSize_le (h : Follows data hdrSize offs) {i : ℕ} (hi : offs[i]? = some off) : hdrSize ≤ off := by
  cases i with
  | zero =>
    rw [← List.head?_eq_getElem?, h.head] at hi
    exact le_of_eq (Option.some.inj hi)
  | succ i =>
    obtain ⟨hlt, rfl⟩ := List.getElem?_eq_some_iff.mp hi
    have hlink := (List.isChain_iff_getElem.mp h.links i hlt).2
    rw [hlink]
    exact Nat.le_add_right _ _

/-- The scan of the script finds how much of the kernel is kept. -/
theorem Follows.reachLoop_eq (h : Follows data hdrSize offs) (hlt : k < offs.length) {reach : ℕ}
    (hreach : reachLoop data k hdrSize 0 = .ok reach) : align16 reach = keptBytes data offs k := by
  obtain ⟨rest, rfl⟩ : ∃ rest, offs = hdrSize :: rest := by
    cases offs with
    | nil => cases h.head
    | cons a rest =>
      obtain rfl := Option.some.inj h.head
      exact ⟨rest, rfl⟩
  rw [reachLoop_eq_ok hreach h.links (Nat.le_of_lt_succ hlt), keptBytes]

/-- The four words that the script writes into the header. -/
theorem header_words {hdr hdr₁ hdr₂ hdr₃ hdr₄ : Bytes} {total count stream kept : ℕ}
    (h₁ : packU64 hdr 0 total = .ok hdr₁) (h₂ : packU32 hdr₁ 12 count = .ok hdr₂)
    (h₃ : packU64 hdr₂ 16 stream = .ok hdr₃) (h₄ : packU64 hdr₃ 24 kept = .ok hdr₄) :
    hdr₄.size = hdr.size ∧ 32 ≤ hdr.size ∧ hdr₄.u64 16 = stream ∧ hdr₄.u64 24 = kept := by
  obtain ⟨⟨-, -⟩, rfl⟩ := packU64_eq_ok.mp h₁
  obtain ⟨⟨-, -⟩, rfl⟩ := packU32_eq_ok.mp h₂
  obtain ⟨⟨hsize₃, hstream⟩, rfl⟩ := packU64_eq_ok.mp h₃
  obtain ⟨⟨hsize₄, hkept⟩, rfl⟩ := packU64_eq_ok.mp h₄
  refine ⟨rfl, hsize₄, ?_, leNat_putLE hsize₄ hkept⟩
  rw [Bytes.u64, leNat_putLE_of_ne (by omega)]
  exact leNat_putLE hsize₃ hstream

/-- The task stream up to an offset, with the NextPointer of a task cleared. -/
def clearedStream (data : Bytes) (last stop : ℕ) : Bytes :=
  (data.slice hdrSize stop).splice (last - hdrSize + 28) (last - hdrSize + 32) (Bytes.zeros 4)

section Parts

variable {hdr behind : Bytes} {last stop : ℕ} (hhdr : hdr.size = hdrSize) (hlast : hdrSize ≤ last)
  (hstop : last + 40 ≤ stop) (hin : stop ≤ data.size)

include hlast hstop hin in
/-- Clearing the link keeps the stream's size. -/
theorem size_clearedStream : (clearedStream data last stop).size = stop - hdrSize := by
  rw [clearedStream, Bytes.size_splice_of_eq (by omega) (by rw [Bytes.size_slice]; omega)
    (by rw [Bytes.size_zeros]; omega), Bytes.size_slice, min_eq_left hin]

include hhdr hlast hstop hin in
/-- The stream is the file's, its last link cleared. -/
theorem get_parts_stream {x : ℕ} (hx : hdrSize ≤ x) (hlt : x < stop) :
    (hdr ++ (clearedStream data last stop ++ behind)).get x =
      if last + 28 ≤ x ∧ x < last + 32 then 0 else data.get x := by
  have hsize := size_clearedStream hlast hstop hin
  rw [Bytes.get_append_right _ _ (by omega), hhdr, Bytes.get_append_left _ _ (by omega), clearedStream,
    Bytes.get_splice_of_eq (by omega) (by rw [Bytes.size_slice]; omega) (by rw [Bytes.size_zeros]; omega),
    Bytes.get_zeros, Bytes.get_slice_of_lt _ (by omega), Nat.add_sub_cancel' hx]
  exact if_congr (by omega) rfl rfl

include hhdr hlast hstop hin in
/-- What lies behind the stream. -/
theorem get_parts_behind (y : ℕ) :
    (hdr ++ (clearedStream data last stop ++ behind)).get (stop + y) = behind.get y := by
  have hsize := size_clearedStream hlast hstop hin
  have hplace : stop + y - hdrSize - (stop - hdrSize) = y := by omega
  rw [Bytes.get_append_right _ _ (by omega), hhdr, Bytes.get_append_right _ _ (by omega), hsize, hplace]

end Parts

/-- What is built is the bundle of the first tasks. -/
theorem buildPrefix_isBundle (hfollows : Follows data hdrSize offs) (h : buildPrefix data offs k = .ok out) :
    IsBundle data out offs k := by
  simp only [buildPrefix] at h
  split at h
  · cases h
  next hk =>
  rw [not_not] at hk
  obtain ⟨header, hheader, h⟩ := bind_eq_ok.mp h
  obtain ⟨hinside, rfl⟩ := unpackHeader_eq_ok.mp hheader
  obtain ⟨p, hp, h⟩ := bind_eq_ok.mp h
  obtain ⟨reach, hreach, h⟩ := bind_eq_ok.mp h
  obtain ⟨tskOrig, htsk, h⟩ := bind_eq_ok.mp h
  obtain ⟨krnOrig, hkrn, h⟩ := bind_eq_ok.mp h
  split at h
  · cases h
  next hkernel =>
  split at h
  · cases h
  next hcut =>
  obtain ⟨hdr₁, hhdr₁, h⟩ := bind_eq_ok.mp h
  obtain ⟨hdr₂, hhdr₂, h⟩ := bind_eq_ok.mp h
  obtain ⟨hdr₃, hhdr₃, h⟩ := bind_eq_ok.mp h
  obtain ⟨hdr₄, hhdr₄, h⟩ := bind_eq_ok.mp h
  obtain rfl := Except.ok.inj h
  obtain ⟨hsize, hwhole, hstreamWord, hkernelWord⟩ := header_words hhdr₁ hhdr₂ hhdr₃ hhdr₄
  rw [Bytes.size_slice] at hsize hwhole
  rw [unpackU64_of_le (by omega)] at htsk hkrn
  obtain rfl := Except.ok.inj htsk
  obtain rfl := Except.ok.inj hkrn
  have hkept : align16 (align16 reach) = keptBytes data offs k := by
    rw [align16_align16, hfollows.reachLoop_eq hk.2 hreach]
  rw [hkept] at hkernelWord hcut ⊢
  rw [not_lt] at hcut
  have hget : offs[k - 1]? = some (offs.getD (k - 1) 0) := by
    rw [List.getD_eq_getElem?_getD, List.getElem?_eq_getElem (by omega), Option.getD_some]
  have hlast := hfollows.hdrSize_le hget
  generalize hdef : offs.getD (k - 1) 0 = last at *
  have hend := add_le_taskEnd hinside
  have hin : taskEnd data last ≤ data.size := min_le_right _ _
  -- The file may end before the records do.
  have hslice : data.slice hdrSize p = data.slice hdrSize (taskEnd data last) := by
    rw [taskEnd, ← recordsEnd_eq_ok hp]
    exact Bytes.ext_get (by simp) fun i hi => by
      rw [Bytes.size_slice] at hi
      rw [Bytes.get_slice_of_lt _ (by omega), Bytes.get_slice_of_lt _ (by omega)]
  have hheader : hdr₄.size = hdrSize := by omega
  have hstream := size_clearedStream hlast hend hin
  rw [hslice, ← clearedStream] at hstreamWord ⊢
  have hkernelBytes : (data.slice (hdrSize + align16 (data.u64 16)) (hdrSize + align16 (data.u64 16) +
      data.u64 24)).slice 0 (keptBytes data offs k) =
      data.slice (hdrSize + align16 (data.u64 16)) (hdrSize + align16 (data.u64 16) + keptBytes data offs k) :=
    Bytes.slice_slice _ _ _ _ _ (by omega)
  rw [hkernelBytes, Bytes.append_assoc, Bytes.append_assoc, Bytes.append_assoc, Bytes.size_append, hstream]
  have hbehind : behindTask data offs k = data.slice (offs.getLastD 0) (offs.getLastD 0 + 4) ++ (Bytes.zeros
      (align16 (taskEnd data last - hdrSize + (data.slice (offs.getLastD 0) (offs.getLastD 0 + 4)).size) -
        (taskEnd data last - hdrSize + (data.slice (offs.getLastD 0) (offs.getLastD 0 + 4)).size)) ++
      data.slice (hdrSize + align16 (data.u64 16)) (hdrSize + align16 (data.u64 16) + keptBytes data offs k)) := by
    rw [behindTask, hdef]
  rw [← hbehind]
  refine ⟨?_, fun x hx hlt => ?_, fun y => ?_, ?_, ?_, hcut, hk.1, hk.2⟩
  · rw [Bytes.size_append, Bytes.size_append, hheader, hstream, hdef]
    omega
  · rw [hdef] at hlt ⊢
    exact get_parts_stream hheader hlast hend hin hx hlt
  · rw [hdef]
    exact get_parts_behind hheader hlast hend hin y
  · rw [hdef, Bytes.u64, leNat_append_left _ _ (by rw [hheader]; decide), ← Bytes.u64, hstreamWord]
    simp only [Bytes.size_append, Bytes.size_zeros, hstream]
    have := le_align16 (taskEnd data last - hdrSize + (data.slice (offs.getLastD 0) (offs.getLastD 0 + 4)).size)
    omega
  · rw [Bytes.u64, leNat_append_left _ _ (by rw [hheader]; decide), ← Bytes.u64, hkernelWord]

/-! ## When a bundle is self-contained -/

/-- When a byte of the task stream is kept. -/
theorem IsBundle.get_eq_iff (h : IsBundle data out offs k) {x : ℕ} (hx : hdrSize ≤ x) :
    (x < out.size ∧ out.get x = data.get x) ↔
      (x < taskEnd data (offs.getD (k - 1) 0) → offs.getD (k - 1) 0 + 28 ≤ x → x < offs.getD (k - 1) 0 + 32 →
        data.get x = 0) ∧
      ∀ y, x = taskEnd data (offs.getD (k - 1) 0) + y →
        y < (behindTask data offs k).size ∧ (behindTask data offs k).get y = data.get x := by
  by_cases hlt : x < taskEnd data (offs.getD (k - 1) 0)
  · have hin : x < out.size := by
      rw [h.size]
      omega
    rw [h.stream x hx hlt]
    refine ⟨fun hget => ⟨fun _ hle hend => ?_, fun y hy => by omega⟩, fun hget => ⟨hin, ?_⟩⟩
    · rw [if_pos ⟨hle, hend⟩] at hget
      exact hget.2.symm
    · split_ifs with hpointer
      · exact (hget.1 hlt hpointer.1 hpointer.2).symm
      · rfl
  · obtain ⟨y, rfl⟩ := Nat.exists_eq_add_of_le (not_lt.mp hlt)
    rw [h.rest, h.size]
    refine ⟨fun hget => ⟨fun hlt' => absurd hlt' hlt, fun z hz => ?_⟩, fun hget => ?_⟩
    · obtain rfl : y = z := by omega
      exact ⟨by omega, hget.2⟩
    · obtain ⟨hy, heq⟩ := hget.2 y rfl
      exact ⟨by omega, heq⟩

/-- The register map of a task that is kept is the one it had. -/
theorem walkRegisters_kept (hfollows : Follows data hdrSize offs) {i : ℕ} (hoff : offs[i]? = some off)
    (hkept : ∀ x, off ≤ x → x < taskEnd data off →
      (i + 1 = k → ¬ (off + 28 ≤ x ∧ x < off + 32)) → x < out.size ∧ out.get x = data.get x) :
    walkRegisters (out.slice off (taskEnd data off)) = walkRegisters (data.slice off (taskEnd data off)) := by
  have hend := add_le_taskEnd (hfollows.inside _ (List.mem_of_getElem? hoff))
  have hin : taskEnd data off ≤ data.size := min_le_right _ _
  have hout := (hkept (taskEnd data off - 1) (by omega) (by omega) (by omega)).1
  refine walkRegisters_congr (by rw [Bytes.size_slice]; omega) (by rw [Bytes.size_slice, Bytes.size_slice]; omega)
    fun j hj hlt => ?_
  rw [Bytes.size_slice] at hlt
  rw [Bytes.get_slice_of_lt _ (by omega), Bytes.get_slice_of_lt _ (by omega)]
  exact (hkept (off + j) (by omega) (by omega) (by omega)).2

section Bundle

variable (h : IsBundle data out offs k)
include h

theorem IsBundle.getElem?_last : offs[k - 1]? = some (offs.getD (k - 1) 0) := by
  have hpositive := h.positive
  have hmore := h.more
  rw [List.getD_eq_getElem?_getD, List.getElem?_eq_getElem (by omega), Option.getD_some]

/-- The bytes of the last task, apart from its NextPointer, are kept. -/
theorem IsBundle.get_last (hfollows : Follows data hdrSize offs) {x : ℕ} (hx : offs.getD (k - 1) 0 ≤ x)
    (hlt : x < taskEnd data (offs.getD (k - 1) 0))
    (hpointer : ¬ (offs.getD (k - 1) 0 + 28 ≤ x ∧ x < offs.getD (k - 1) 0 + 32)) :
    x < out.size ∧ out.get x = data.get x := by
  have hle := hfollows.hdrSize_le h.getElem?_last
  refine (h.get_eq_iff (hle.trans hx)).mpr ⟨fun _ hlo hhi => absurd ⟨hlo, hhi⟩ hpointer, fun y hy => by omega⟩

/-- The tasks are kept if and only if nothing but the last of them is where its NextPointer is, or behind it. -/
theorem IsBundle.tasks_iff (hfollows : Follows data hdrSize offs) :
    (∀ i < k, ∀ off, offs[i]? = some off → ∀ x, off ≤ x → x < taskEnd data off →
      (i + 1 = k → ¬ (off + 28 ≤ x ∧ x < off + 32)) → x < out.size ∧ out.get x = data.get x) ↔
    (∀ i off, i + 1 < k → offs[i]? = some off → ∀ x, off ≤ x → x < taskEnd data off →
      offs.getD (k - 1) 0 + 28 ≤ x → x < offs.getD (k - 1) 0 + 32 → data.get x = 0) ∧
    ∀ i off, i + 1 < k → offs[i]? = some off → ∀ x, x < taskEnd data off →
      ∀ y, x = taskEnd data (offs.getD (k - 1) 0) + y → off ≤ x →
        y < (behindTask data offs k).size ∧ (behindTask data offs k).get y = data.get x := by
  have hend := add_le_taskEnd (hfollows.inside _ (List.mem_of_getElem? h.getElem?_last))
  refine ⟨fun htasks => ⟨fun i off hi hoff x hx hlt hlo hhi => ?_, fun i off hi hoff x hlt y hy hx => ?_⟩,
    fun hcond i hi off hoff x hx hlt hpointer => ?_⟩
  · have hkept := htasks i (by omega) off hoff x hx hlt (by omega)
    exact ((h.get_eq_iff ((hfollows.hdrSize_le hoff).trans hx)).mp hkept).1 (by omega) hlo hhi
  · have hkept := htasks i (by omega) off hoff x hx hlt (by omega)
    exact ((h.get_eq_iff ((hfollows.hdrSize_le hoff).trans hx)).mp hkept).2 y hy
  · by_cases hlast : i + 1 = k
    · obtain rfl : i = k - 1 := by omega
      obtain rfl : offs.getD (k - 1) 0 = off := Option.mem_unique h.getElem?_last hoff
      exact h.get_last hfollows hx hlt (hpointer hlast)
    · exact (h.get_eq_iff ((hfollows.hdrSize_le hoff).trans hx)).mpr
        ⟨fun _ => hcond.1 i off (by omega) hoff x hx hlt, fun y hy => hcond.2 i off (by omega) hoff x hlt y hy hx⟩

/-- The kept kernel is where the header says, and is the start of the kernel. -/
theorem IsBundle.kernel_eq (hfollows : Follows data hdrSize offs) :
    out.slice (hdrSize + align16 (out.u64 16)) out.size =
      data.slice (hdrSize + align16 (data.u64 16)) (hdrSize + align16 (data.u64 16) + out.u64 24) := by
  have hlast := hfollows.hdrSize_le h.getElem?_last
  have hend := add_le_taskEnd (hfollows.inside _ (List.mem_of_getElem? h.getElem?_last))
  have hbehind : behindTask data offs k = data.slice (offs.getLastD 0) (offs.getLastD 0 + 4) ++ (Bytes.zeros
      (align16 (taskEnd data (offs.getD (k - 1) 0) - hdrSize +
          (data.slice (offs.getLastD 0) (offs.getLastD 0 + 4)).size) -
        (taskEnd data (offs.getD (k - 1) 0) - hdrSize +
          (data.slice (offs.getLastD 0) (offs.getLastD 0 + 4)).size)) ++
      data.slice (hdrSize + align16 (data.u64 16)) (hdrSize + align16 (data.u64 16) + keptBytes data offs k)) := rfl
  have hsize := h.size
  have hrest := h.rest
  rw [h.streamWord, align16_align16, h.kernelWord]
  rw [hbehind] at hsize hrest
  generalize offs.getD (k - 1) 0 = last at *
  generalize data.slice (offs.getLastD 0) (offs.getLastD 0 + 4) = fterm at *
  generalize data.slice (hdrSize + align16 (data.u64 16)) _ = kernel at *
  have hle := le_align16 (taskEnd data last - hdrSize + fterm.size)
  generalize align16 (taskEnd data last - hdrSize + fterm.size) = whole at *
  rw [Bytes.size_append, Bytes.size_append, Bytes.size_zeros] at hsize
  refine Bytes.ext_get (by rw [Bytes.size_slice]; omega) fun i hi => ?_
  rw [Bytes.size_slice, min_self] at hi
  have hplace : hdrSize + whole + i = taskEnd data last + (fterm.size + (whole - (taskEnd data last - hdrSize +
    fterm.size) + i)) := by omega
  rw [Bytes.get_slice_of_lt _ (by omega), hplace, hrest, Bytes.get_append_right _ _ (by omega), Nat.add_sub_cancel_left,
    Bytes.get_append_right _ _ (by rw [Bytes.size_zeros]; omega), Bytes.size_zeros, Nat.add_sub_cancel_left]

/-- The chain of a bundle whose tasks are kept. -/
theorem IsBundle.follows (hfollows : Follows data hdrSize offs)
    (hkept : ∀ i < k, ∀ off, offs[i]? = some off → ∀ x, off ≤ x → x < taskEnd data off →
      (i + 1 = k → ¬ (off + 28 ≤ x ∧ x < off + 32)) → x < out.size ∧ out.get x = data.get x) :
    Follows out hdrSize (offs.take k) := by
  have hinside {i : ℕ} {off : ℕ} (hoff : offs[i]? = some off) :=
    add_le_taskEnd (hfollows.inside off (List.mem_of_getElem? hoff))
  refine hfollows.take h.positive h.more (fun i hi off hoff => ?_) (fun i hi off hoff => ?_) ?_
  · have hend := hinside hoff
    have hlast := (hkept i hi off hoff (off + 39) (by omega) (by omega) (by omega)).1
    omega
  · have hend := hinside hoff
    exact Bytes.u32_congr fun j hj => (hkept i (by omega) off hoff (off + 28 + j) (by omega) (by omega) (by omega)).2
  · have hend := hinside h.getElem?_last
    have hle := hfollows.hdrSize_le h.getElem?_last
    have hzero : out.u32 (offs.getD (k - 1) 0 + 28) = (Bytes.zeros 4).u32 0 := by
      refine Bytes.u32_congr fun j hj => ?_
      rw [h.stream _ (by omega) (by omega), if_pos (by omega), Bytes.get_zeros]
    exact hzero

end Bundle

/-- A prefix bundle is self-contained if and only if no other task lies where the `k`-th one has its NextPointer, or
behind the `k`-th one with bytes that the bundle does not have there, and the scan sees what the register maps reach. -/
theorem buildPrefix_selfContained_iff {rounds : ℕ} (hoffs : offsetsFrom data rounds hdrSize = .ok (some offs))
    (h : buildPrefix data offs k = .ok out) : SelfContained data out offs k ↔ Bundles data offs k := by
  have hfollows := offsetsFrom_follows hoffs
  have hbundle := buildPrefix_isBundle hfollows h
  refine ⟨fun hself => ?_, fun hcond => ?_⟩
  · obtain ⟨hpointer, hbehind⟩ := (hbundle.tasks_iff hfollows).mp hself.tasks
    refine ⟨hpointer, hbehind, fun i hi off hoff addr size hrange => ?_⟩
    rw [← hbundle.kernelWord]
    refine hself.coefficients i hi off hoff addr size ?_
    rwa [HasRange, walkRegisters_kept hfollows hoff (hself.tasks i hi off hoff)]
  · have htasks := (hbundle.tasks_iff hfollows).mpr ⟨hcond.pointer, hcond.behind⟩
    refine ⟨hbundle.follows hfollows htasks, htasks, ?_, hbundle.kernel_eq hfollows,
      fun i hi off hoff addr size hrange => ?_⟩
    · rw [hbundle.kernelWord]
      exact hbundle.keeps
    · rw [hbundle.kernelWord]
      refine hcond.reached i hi off hoff addr size ?_
      rwa [HasRange, ← walkRegisters_kept hfollows hoff (htasks i hi off hoff)]

/-- When the links lead forwards in the file, only the scan matters. -/
theorem Follows.bundles (hfollows : Follows data first offs) (hk : 0 < k) (hlt : k < offs.length)
    (horder : ∀ i off, i + 1 < k → offs[i]? = some off → taskEnd data off ≤ offs.getD (k - 1) 0)
    (hreached : ∀ i < k, ∀ off, offs[i]? = some off → ∀ addr size,
      HasRange (data.slice off (taskEnd data off)) addr size → addr + size ≤ keptBytes data offs k) :
    Bundles data offs k := by
  have hmem : offs.getD (k - 1) 0 ∈ offs := by
    rw [List.getD_eq_getElem?_getD, List.getElem?_eq_getElem (by omega), Option.getD_some]
    exact List.getElem_mem _
  have hend := add_le_taskEnd (hfollows.inside _ hmem)
  refine ⟨fun i off hi hoff x _ hlt hlo _ => ?_, fun i off hi hoff x hlt y hy _ => ?_, hreached⟩
  · have hle := horder i off hi hoff
    omega
  · have hle := horder i off hi hoff
    omega

/-- Three tasks, the second with one coefficient range of 64 bytes in a record of all the registers. -/
def allLanesFile : Bytes :=
  Bytes.ofFields 0x11B0 [(16, 0x168), (24, 0x40), (0x1004, 9 <<< 16), (0x101C, 0x80), (0x1084, 42 <<< 16),
    (0x109C, 0x140), (0x10A8, 31 <<< 26 ||| 0x1F848), (0x10EC, 0x40), (0x1140, 0x84354003), (0x1144, 9 <<< 16)]

/-- Whether the coefficient ranges in the register map of a task end at `limit` or before. -/
def rangesWithin (td : Bytes) (limit : ℕ) : Bool :=
  match walkRegisters td with
  | .ok registers => (List.range 16).all fun lane =>
    match registers (addrRegister + 4 * lane), registers (sizeRegister + 4 * lane) with
    | some addr, some size => addr + size ≤ limit
    | _, _ => true
  | .error _ => true

/-- A bounded task has its ranges below the bound. -/
theorem le_of_rangesWithin {td : Bytes} {limit addr size : ℕ} (h : rangesWithin td limit = true)
    (hrange : HasRange td addr size) : addr + size ≤ limit := by
  obtain ⟨registers, hregisters, lane, hlane, haddr, hsize⟩ := hrange
  rw [rangesWithin, hregisters] at h
  have hpair := List.all_eq_true.mp h lane (List.mem_range.mpr hlane)
  rw [haddr, hsize] at hpair
  exact of_decide_eq_true hpair

theorem buildPrefix_selfContained_allLanes :
    ∃ out, buildPrefix allLanesFile [0x1000, 0x1080, 0x1140] 2 = .ok out ∧
      SelfContained allLanesFile out [0x1000, 0x1080, 0x1140] 2 := by
  have hoffs : offsetsFrom allLanesFile 3 hdrSize = .ok (some [0x1000, 0x1080, 0x1140]) := by decide +kernel
  obtain ⟨out, hout⟩ : ∃ out, buildPrefix allLanesFile [0x1000, 0x1080, 0x1140] 2 = .ok out :=
    exists_ok_of_toBool (by decide +kernel)
  have hends : [0x1000, 0x1080].map (taskEnd allLanesFile) = [0x1028, 0x112C] := by decide +kernel
  obtain ⟨hfirst, hsecond⟩ := List.cons.inj hends
  have hkept : keptBytes allLanesFile [0x1000, 0x1080, 0x1140] 2 = 0x40 := by decide +kernel
  refine ⟨out, hout, (buildPrefix_selfContained_iff hoffs hout).mpr ((offsetsFrom_follows hoffs).bundles (by decide)
    (by decide) (fun i off hi hoff => ?_) fun i hi off hoff addr size hrange => ?_)⟩
  · obtain rfl : i = 0 := by omega
    obtain rfl := Option.some.inj hoff
    rw [hfirst]
    decide
  · rw [hkept]
    have hwithin : ∀ off ∈ [0x1000, 0x1080],
        rangesWithin (allLanesFile.slice off (taskEnd allLanesFile off)) 0x40 = true := by decide +kernel
    refine le_of_rangesWithin (hwithin off ?_) hrange
    exact List.mem_of_getElem? ((List.getElem?_take_of_lt (l := [0x1000, 0x1080, 0x1140]) hi).trans hoff)

/-- Two tasks, the first with a coefficient range of 64 bytes in lane 1 alone. -/
def oneLaneFile : Bytes :=
  Bytes.ofFields 0x10F0 [(16, 0xA8), (24, 0x40), (0x1004, 13 <<< 16), (0x101C, 0x80), (0x1028, 0x1F84C),
    (0x1030, 0x1F88C), (0x1034, 0x40), (0x1080, 0x84354003), (0x1084, 9 <<< 16)]

/-- The bundle of a file with a coefficient range in lane 1 alone has no kernel. -/
theorem buildPrefix_drops_kernel :
    offsetsFrom oneLaneFile 2 hdrSize = .ok (some [0x1000, 0x1080]) ∧
      ∃ out, buildPrefix oneLaneFile [0x1000, 0x1080] 1 = .ok out ∧
        ¬ SelfContained oneLaneFile out [0x1000, 0x1080] 1 := by
  have hoffs : offsetsFrom oneLaneFile 2 hdrSize = .ok (some [0x1000, 0x1080]) := by decide +kernel
  have hbuilt : (buildPrefix oneLaneFile [0x1000, 0x1080] 1).map (fun out => (out.u64 24,
      (walkRegisters (out.slice 0x1000 (taskEnd oneLaneFile 0x1000))).map fun registers =>
        (registers (addrRegister + 4), registers (sizeRegister + 4)))) = .ok (0, .ok (some 0, some 0x40)) := by
    decide +kernel
  obtain ⟨out, hout, hparts⟩ := exists_ok_of_map hbuilt
  refine ⟨hoffs, out, hout, fun hself => ?_⟩
  obtain ⟨hkernel, hwalk⟩ := Prod.mk.inj hparts
  obtain ⟨registers, hregisters, hlane⟩ := exists_ok_of_map hwalk
  obtain ⟨haddr, hsize⟩ := Prod.mk.inj hlane
  have hle := hself.coefficients 0 (by decide) 0x1000 rfl 0 0x40
    ⟨registers, hregisters, 1, by decide, haddr, hsize⟩
  rw [hkernel] at hle
  omega

end AneLinux.Anec.PrefixBundle
