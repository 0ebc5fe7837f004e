import AneLinux.Hwx.ConvertFile

/-!
# The extents behind a descriptor size

The batch driver measures the tasks of a container to decide on the fetch size of a descriptor. It
searches the whole content, coefficients included, and takes the end of the task stream as the end
of the last task. The parser counts the tasks of the text section alone. The two searches agree
when no task begins, and no counted task links, past the text section.
-/

namespace AneLinux.Hwx

open AneLinux.Support

/-- The bases the driver measures. -/
def extentBases (data : Bytes) (image : HWXImage) : Py (List ℕ) :=
  findTaskOffsets data image.contentOffset image.contentSize

/-- The distances from every base to the next one, and from the last one to the end. -/
def extents : List ℕ → ℕ → List ℤ
  | [], _ => []
  | base :: rest, size => (((rest.head?.getD size : ℕ) : ℤ) - base) :: extents rest size

/-- `task_extents`: the largest extent and the first one. -/
def taskExtents (data : Bytes) : Py (ℤ × ℤ) := do
  let image ← parseHwx data
  let offsets ← extentBases data image
  match extents offsets image.taskStreamSize with
  | [] => raiseValue "no task descriptors"
  | first :: rest => return (rest.foldl max first, first)

/-! ## Searches over nested ranges -/

section Nested

variable {data : Bytes} {start inner outer : ℕ} {bases : List ℕ}

/-- What a search returns: its range is in the file, and its bases are the sorted least task set,
none of which reaches an unaligned link. -/
theorem findTaskOffsets_eq_ok (h : findTaskOffsets data start outer = .ok bases) :
    start + outer ≤ data.size ∧ bases.Pairwise (· < ·) ∧
      (∀ base ∈ bases, base % 0x100 = 0 ∧ InSection outer base) ∧
      IsLeast {found | TaskClosed data start outer found} {base | base ∈ bases} :=
  (findTaskOffsets_meets data start outer).value h

/-- A search fails on a range in the file only when a record reaches an unaligned link. -/
theorem findTaskOffsets_of_aligned (hroom : start + outer ≤ data.size)
    (haligned : ¬ ReachesUnalignedLink data start outer) : ∃ found, findTaskOffsets data start outer = .ok found := by
  have hspec := searchTasks_spec hroom
  unfold findTaskOffsets
  rw [if_neg (by omega), if_neg (by omega), Int.toNat_natCast, Int.toNat_natCast]
  revert hspec
  cases searchTasks data start outer with
  | ok found => exact fun _ => ⟨found, rfl⟩
  | error e => exact fun hspec => absurd hspec.2 haligned

/-- Sorted lists of the same numbers are equal. -/
theorem eq_of_sorted {xs ys : List ℕ} (hxs : xs.Pairwise (· < ·)) (hys : ys.Pairwise (· < ·))
    (hmem : ∀ x, x ∈ xs ↔ x ∈ ys) : xs = ys := by
  have hperm : xs.Perm ys := (List.perm_ext_iff_of_nodup (hxs.imp Nat.ne_of_lt) (hys.imp Nat.ne_of_lt)).mpr hmem
  exact hperm.eq_of_pairwise (fun a b _ _ hab hba => absurd hab (Nat.lt_asymm hba)) hxs hys

/-- No task of the outer range begins past the inner one, and no base of the inner search links past
it into the outer range. -/
structure TasksEndInside (data : Bytes) (start inner outer : ℕ) (bases : List ℕ) : Prop where
  inFile : start + outer ≤ data.size
  records : ∀ base, TaskRecord data start outer base → InSection inner base
  links : ∀ base ∈ bases, ∀ next, TaskLink data start outer base next → InSection inner next

/-- A header that lies in a section lies in a longer one. -/
theorem InSection.mono (hle : inner ≤ outer) {base : ℕ} (h : InSection inner base) : InSection outer base :=
  h.trans hle

/-- Two nested searches return the same bases exactly when the tasks end inside. -/
theorem search_outer_iff (hle : inner ≤ outer) (hinner : findTaskOffsets data start inner = .ok bases) :
    findTaskOffsets data start outer = .ok bases ↔ TasksEndInside data start inner outer bases := by
  obtain ⟨-, hsorted, hplaced, hclosed, hleast⟩ := findTaskOffsets_eq_ok hinner
  constructor
  · intro houter
    obtain ⟨hroom, -, -, hclosedOuter, -⟩ := findTaskOffsets_eq_ok houter
    exact ⟨hroom, fun base hrecord => (hplaced base (hclosedOuter.records base hrecord)).2,
      fun base hbase next hlink => (hplaced next (hclosedOuter.links base hbase next hlink)).2⟩
  · intro hends
    have hrecord (base : ℕ) (h : TaskRecord data start outer base) : base ∈ bases :=
      hclosed.records base ⟨h.1, hends.records base h, h.2.2⟩
    have hlink (base : ℕ) (hbase : base ∈ bases) (next : ℕ) (h : TaskLink data start outer base next) :
        next ∈ bases :=
      hclosed.links base hbase next ⟨(hplaced base hbase).2, hends.links base hbase next h, h.2.2⟩
    have hnotReached : ¬ ReachesUnalignedLink data start outer := by
      rintro ⟨seed, base, hseed, hpath, next, hnext, hunaligned⟩
      have hbase : base ∈ bases := by
        clear hnext hunaligned
        induction hpath with
        | refl => exact hrecord seed hseed
        | tail _ hstep ih => exact hlink _ ih _ hstep
      exact hunaligned (hplaced next (hlink base hbase next hnext)).1
    obtain ⟨found, hfound⟩ := findTaskOffsets_of_aligned hends.inFile hnotReached
    obtain ⟨-, hsortedFound, -, hclosedFound, hleastFound⟩ := findTaskOffsets_eq_ok hfound
    have houterClosed : TaskClosed data start outer {base | base ∈ bases} := by
      refine ⟨hrecord, hlink, fun next hnext base h => ?_⟩
      have hroom : InSection inner base :=
        Nat.le_of_lt (Nat.lt_of_lt_of_le (Nat.add_lt_add_right h.2.2.2.1 _) (hplaced next hnext).2)
      exact hclosed.predecessors next hnext base ⟨h.1, hroom, (hplaced next hnext).2, h.2.2.2⟩
    have hinnerClosed : TaskClosed data start inner {base | base ∈ found} := by
      refine ⟨fun base h => hclosedFound.records base ⟨h.1, h.2.1.mono hle, h.2.2⟩, fun base hbase next h => ?_,
        fun next hnext base h => ?_⟩
      · exact hclosedFound.links base hbase next ⟨h.1.mono hle, h.2.1.mono hle, h.2.2⟩
      · exact hclosedFound.predecessors next hnext base ⟨h.1, h.2.1.mono hle, h.2.2.1.mono hle, h.2.2.2⟩
    have hsame : found = bases := eq_of_sorted hsortedFound hsorted fun base =>
      ⟨fun hbase => hleastFound houterClosed hbase, fun hbase => hleast hinnerClosed hbase⟩
    rw [hfound, hsame]

end Nested

/-! ## Extents of sorted bases -/

/-- The extents add up to the distance from the first base to the end. -/
theorem sum_extents (bases : List ℕ) (size first : ℕ) (h : bases.head? = some first) :
    (extents bases size).sum = (size : ℤ) - first := by
  induction bases generalizing first with
  | nil => cases h
  | cons base rest ih =>
    obtain rfl := Option.some.inj h
    rw [extents, List.sum_cons]
    cases rest with
    | nil => simp [extents]
    | cons next rest =>
      rw [ih next rfl]
      simp

/-- Increasing bases below the end have positive extents. -/
theorem extents_pos {bases : List ℕ} {size : ℕ} (hsorted : bases.Pairwise (· < ·))
    (hbelow : ∀ base ∈ bases, base < size) : ∀ extent ∈ extents bases size, 0 < extent := by
  induction bases with
  | nil =>
    intro extent h
    cases h
  | cons base rest ih =>
    intro extent h
    obtain ⟨hfirst, hrest⟩ := List.pairwise_cons.mp hsorted
    rcases List.mem_cons.mp h with rfl | h
    · cases rest with
      | nil =>
        have hlast := hbelow base List.mem_cons_self
        simp only [List.head?_nil, Option.getD_none]
        omega
      | cons next rest =>
        have hnext := hfirst next List.mem_cons_self
        simp only [List.head?_cons, Option.getD_some]
        omega
    · exact ih hrest (fun base hbase => hbelow base (List.mem_cons_of_mem _ hbase)) extent h

/-! ## The measured tasks of a container -/

/-- The driver measures the tasks the header counts: the bases of its search are those of the
parser's, every extent is positive, and the extents add up to the stream from the first base on. -/
structure Measures (data : Bytes) (image : HWXImage) (bases : List ℕ) : Prop where
  counted : findTaskOffsets data image.contentOffset image.taskStreamSize = .ok bases
  count : bases.length = image.tdCount
  measured : extentBases data image = .ok bases
  positive : ∀ extent ∈ extents bases image.taskStreamSize, 0 < extent
  total : ∀ first, bases.head? = some first →
    (extents bases image.taskStreamSize).sum = (image.taskStreamSize : ℤ) - first

/-- The driver measures the tasks the header counts exactly when the content lies in the file, no
task record begins past the text section, and no counted task links past it. -/
theorem taskExtents_measures_iff (data : Bytes) (image : HWXImage) (hparse : parseHwx data = .ok image) :
    (∃ bases, Measures data image bases) ↔
      ∀ bases, findTaskOffsets data image.contentOffset image.taskStreamSize = .ok bases →
        TasksEndInside data image.contentOffset image.taskStreamSize image.contentSize bases := by
  obtain ⟨text, kernel, hlayout⟩ := (parseHwx_meets data).value hparse
  obtain ⟨tasks, htasks, -, hcount⟩ := hlayout.tasks
  rw [← hlayout.contentOffset, ← hlayout.taskStreamSize] at htasks
  have hle : image.taskStreamSize ≤ image.contentSize := by
    have hkernel := hlayout.kernel_in_content
    have halign := le_align16 image.taskStreamSize
    rw [← hlayout.kernelOffset] at halign
    omega
  have houter := search_outer_iff hle htasks
  constructor
  · rintro ⟨bases, h⟩ counted hcounted
    obtain rfl : counted = tasks := Except.ok.inj (hcounted.symm.trans htasks)
    obtain rfl : bases = counted := Except.ok.inj (h.counted.symm.trans htasks)
    exact houter.mp h.measured
  · intro h
    obtain ⟨-, hsorted, hplaced, -⟩ := findTaskOffsets_eq_ok htasks
    refine ⟨tasks, htasks, hcount.symm, houter.mpr (h tasks htasks), extents_pos hsorted fun base hbase => ?_,
      sum_extents tasks image.taskStreamSize⟩
    have hroom := (hplaced base hbase).2
    unfold InSection taskHeaderSize at hroom
    omega

theorem taskExtents_measures_iff_container : ∃ image,
    parseHwx (container 0x100 [(0x28, 0x1F800)] none) = .ok image ∧
      ((∃ bases, Measures (container 0x100 [(0x28, 0x1F800)] none) image bases) ↔
        ∀ bases, findTaskOffsets (container 0x100 [(0x28, 0x1F800)] none) image.contentOffset
            image.taskStreamSize = .ok bases →
          TasksEndInside (container 0x100 [(0x28, 0x1F800)] none) image.contentOffset image.taskStreamSize
            image.contentSize bases) := by
  obtain ⟨image, hparse⟩ := exists_ok_of_toBool
    (show (parseHwx (container 0x100 [(0x28, 0x1F800)] none)).toBool = true by decide +kernel)
  exact ⟨image, hparse, taskExtents_measures_iff _ image hparse⟩

/-- A container of one task whose coefficients look like a task record at `0x100`. -/
def recordCoefficients : Bytes := container 0x120 [(0x28, 0x1F800), (0x128, 0x1F800)] none

/-- The header counts one task, the driver measures two and takes the first for `0x100` bytes. -/
theorem taskExtents_measures_coefficients : ∃ image, parseHwx recordCoefficients = .ok image ∧
    image.tdCount = 1 ∧ extentBases recordCoefficients image = .ok [0, 0x100] ∧
      taskExtents recordCoefficients = .ok (0x100, 0x100) ∧ ¬ ∃ bases, Measures recordCoefficients image bases := by
  obtain ⟨image, hparse, hresult⟩ := @exists_ok_of_map _ _ _ (parseHwx recordCoefficients)
    (fun image => (image.tdCount, extentBases recordCoefficients image)) (1, .ok [0, 0x100]) (by decide +kernel)
  obtain ⟨hcount, hbases⟩ := Prod.mk.inj hresult
  refine ⟨image, hparse, hcount, hbases, by decide +kernel, ?_⟩
  rintro ⟨bases, h⟩
  obtain rfl := Except.ok.inj (h.measured.symm.trans hbases)
  exact absurd (h.count.trans hcount) (by decide)

end AneLinux.Hwx
