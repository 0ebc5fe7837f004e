import AneLinux.Hwx.TaskSearch

/-!
# The task search computes a least closed set

The forward chase of every record leaves a set closed under links, or meets an unaligned
link and raises. The backward worklist then adds the predecessors of that set; a
predecessor's only link leads to the task it precedes, so the result stays closed under
links. What was added was forced by one of the three rules, so the set is the least one.
-/

namespace AneLinux.Hwx

open AneLinux.Support

variable {data : Bytes} {contentOffset contentSize : ℕ}

/-- The seeds are the task records of the section. -/
theorem collectSeeds_spec {offsets seeds : List ℕ}
    (hoffsets : ∀ offset ∈ offsets, contentOffset + 0x28 ≤ offset ∧ offset + 4 ≤ data.size)
    (h : collectSeeds data contentOffset offsets = .ok seeds) (base : ℕ) :
    base ∈ seeds ↔ contentOffset + base + 0x28 ∈ offsets ∧ base % 0x100 = 0 ∧
      isTaskRecord (data.u32 (contentOffset + base + 0x28)) = true := by
  induction offsets generalizing seeds with
  | nil =>
    cases h
    simp
  | cons offset rest ih =>
    obtain ⟨hlo, hhi⟩ := hoffsets offset List.mem_cons_self
    rw [collectSeeds, unpackU32_of_le hhi, ok_bind] at h
    obtain ⟨tail, htail, h⟩ := bind_eq_ok.mp h
    have hrest := ih (fun o ho => hoffsets o (List.mem_cons_of_mem offset ho)) htail
    have hseeds := Except.ok.inj h
    have hbase : contentOffset + base + 0x28 = offset ↔ base = offset - contentOffset - 0x28 := by
      omega
    rw [← hseeds, List.mem_cons, hbase]
    split_ifs with hrecord
    · rw [List.mem_cons, hrest]
      constructor
      · rintro (rfl | hmem)
        · refine ⟨Or.inl rfl, hrecord.2, ?_⟩
          rw [show contentOffset + (offset - contentOffset - 0x28) + 0x28 = offset by omega]
          exact hrecord.1
        · exact ⟨Or.inr hmem.1, hmem.2⟩
      · rintro ⟨heq | hmem, hrec⟩
        · exact Or.inl heq
        · exact Or.inr ⟨hmem, hrec⟩
    · rw [hrest]
      constructor
      · exact fun hmem => ⟨Or.inr hmem.1, hmem.2⟩
      · rintro ⟨heq | hmem, halign, hrec⟩
        · subst heq
          rw [show contentOffset + (offset - contentOffset - 0x28) + 0x28 = offset by omega] at hrec
          exact absurd ⟨hrec, halign⟩ hrecord
        · exact ⟨hmem, halign, hrec⟩

/-- Reading the record words of a section inside the data never fails. -/
theorem collectSeeds_ok {offsets : List ℕ} (hoffsets : ∀ offset ∈ offsets, offset + 4 ≤ data.size) :
    ∃ seeds, collectSeeds data contentOffset offsets = .ok seeds := by
  induction offsets with
  | nil => exact ⟨[], rfl⟩
  | cons offset rest ih =>
    obtain ⟨tail, htail⟩ := ih fun o ho => hoffsets o (List.mem_cons_of_mem offset ho)
    rw [collectSeeds, unpackU32_of_le (hoffsets offset List.mem_cons_self), ok_bind, htail]
    exact ⟨_, rfl⟩

/-! ## The forward chase -/

/-- A task set under construction: its links lead back into it, or to the node at hand. -/
structure LinkClosed (data : Bytes) (contentOffset contentSize : ℕ) (tasks : List ℕ)
    (current : Option ℕ) : Prop where
  links : ∀ base ∈ tasks, ∀ next, TaskLink data contentOffset contentSize base next →
    next ∈ tasks ∨ current = some next
  aligned : ∀ base ∈ tasks, ¬ UnalignedLink data contentOffset contentSize base

variable {tasks : List ℕ} {base : ℕ}

/-- Visiting the node at hand: its link, if it has one, is the next node at hand. -/
theorem LinkClosed.insert {current : ℕ} {next : Option ℕ}
    (h : LinkClosed data contentOffset contentSize tasks (some current))
    (hlinks : ∀ target, TaskLink data contentOffset contentSize current target → next = some target)
    (haligned : ¬ UnalignedLink data contentOffset contentSize current) :
    LinkClosed data contentOffset contentSize (tasks.insert current) next := by
  constructor
  · intro base hbase target hlink
    rcases List.mem_insert_iff.mp hbase with rfl | hbase
    · exact Or.inr (hlinks target hlink)
    · rcases h.links base hbase target hlink with hmem | heq
      · exact Or.inl (List.mem_insert_of_mem hmem)
      · exact Or.inl (Option.some.inj heq ▸ List.mem_insert_self)
  · intro base hbase
    rcases List.mem_insert_iff.mp hbase with rfl | hbase
    · exact haligned
    · exact h.aligned base hbase

/-- Coming back to a task closes the set. -/
theorem LinkClosed.close {current : ℕ} (h : LinkClosed data contentOffset contentSize tasks (some current))
    (hmem : current ∈ tasks) : LinkClosed data contentOffset contentSize tasks none := by
  refine ⟨fun base hbase next hlink => ?_, h.aligned⟩
  rcases h.links base hbase next hlink with hin | heq
  · exact Or.inl hin
  · exact Or.inl (Option.some.inj heq ▸ hmem)

variable (hdata : contentOffset + contentSize ≤ data.size)

include hdata in
/-- A chase that returns has closed its tasks under links, without meeting an unaligned link;
one that raises has met one. -/
theorem followLinks_spec {chain tasks : List ℕ} {current : ℕ} (hchain : ∀ base ∈ chain, base ∈ tasks)
    (hclosed : LinkClosed data contentOffset contentSize tasks (some current))
    (hcurrent : InSection contentSize current) :
    Meets (followLinks data contentOffset contentSize chain tasks current)
      (fun found => LinkClosed data contentOffset contentSize found none ∧ current ∈ found ∧
        (∀ base ∈ tasks, base ∈ found) ∧ ∀ base ∈ found, base ∈ tasks ∨
          Relation.ReflTransGen (TaskLink data contentOffset contentSize) current base)
      (fun e => (∃ message, e = .valueError message) ∧ ∃ base,
        Relation.ReflTransGen (TaskLink data contentOffset contentSize) current base ∧
          UnalignedLink data contentOffset contentSize base) := by
  fun_induction followLinks data contentOffset contentSize chain tasks current with
  | case1 chain tasks current hvisit ih =>
    have hroom : contentOffset + current + 0x1C + 4 ≤ data.size := by
      have := hvisit.2
      unfold taskHeaderSize at this
      omega
    have hinsert : ∀ base ∈ tasks.insert current, base ∈ tasks ∨
        Relation.ReflTransGen (TaskLink data contentOffset contentSize) current base := by
      intro base hbase
      rcases List.mem_insert_iff.mp hbase with rfl | hbase
      · exact Or.inr Relation.ReflTransGen.refl
      · exact Or.inl hbase
    rw [unpackU32_of_le hroom, ok_bind]
    by_cases hstop : data.u32 (contentOffset + current + 0x1C) = 0 ∨
        contentSize < data.u32 (contentOffset + current + 0x1C) + taskHeaderSize
    · rw [if_pos hstop]
      have hnone : ∀ next, ¬ TaskLink data contentOffset contentSize current next := by
        rintro next ⟨-, hnext, hzero, rfl⟩
        rcases hstop with hstop | hstop
        · exact hzero hstop
        · exact absurd hnext (Nat.not_le_of_lt hstop)
      refine ⟨hclosed.insert (fun next hlink => absurd hlink (hnone next)) ?_, List.mem_insert_self,
        fun base hbase => List.mem_insert_of_mem hbase, hinsert⟩
      rintro ⟨next, hlink, -⟩
      exact hnone next hlink
    · rw [if_neg hstop]
      rw [not_or] at hstop
      have hlink : TaskLink data contentOffset contentSize current
          (data.u32 (contentOffset + current + 0x1C)) :=
        ⟨hcurrent, Nat.le_of_not_lt hstop.2, hstop.1, rfl⟩
      split_ifs with halign
      · exact ⟨⟨_, rfl⟩, current, Relation.ReflTransGen.refl, _, hlink, halign⟩
      · have hnext : LinkClosed data contentOffset contentSize (tasks.insert current)
            (some (data.u32 (contentOffset + current + 0x1C))) := by
          refine hclosed.insert (fun next hstep => congrArg some hstep.2.2.2.symm) ?_
          rintro ⟨next, hstep, hodd⟩
          rw [hstep.2.2.2] at hodd
          exact halign hodd
        have hvisited : ∀ base ∈ current :: chain, base ∈ tasks.insert current := by
          intro base hbase
          rcases List.mem_cons.mp hbase with rfl | hbase
          · exact List.mem_insert_self
          · exact List.mem_insert_of_mem (hchain base hbase)
        have hrec := ih _ hvisited hnext hlink.2.1
        revert hrec
        cases followLinks data contentOffset contentSize (current :: chain) (tasks.insert current)
            (data.u32 (contentOffset + current + 0x1C)) with
        | ok found =>
          rintro ⟨hfound, -, hkeep, hreach⟩
          refine ⟨hfound, hkeep current List.mem_insert_self,
            fun base hbase => hkeep base (List.mem_insert_of_mem hbase), fun base hbase => ?_⟩
          rcases hreach base hbase with hmem | hpath
          · exact hinsert base hmem
          · exact Or.inr (Relation.ReflTransGen.head hlink hpath)
        | error e =>
          rintro ⟨hvalue, base, hpath, hbad⟩
          exact ⟨hvalue, base, Relation.ReflTransGen.head hlink hpath, hbad⟩
  | case2 chain tasks current hvisit =>
    have hmem : current ∈ tasks := by
      by_contra hnot
      exact hvisit ⟨fun hin => hnot (hchain current hin), hcurrent⟩
    exact ⟨hclosed.close hmem, hmem, fun base hbase => hbase, fun base hbase => Or.inl hbase⟩

/-- The chase adds no task twice. -/
theorem followLinks_nodup {chain tasks : List ℕ} {current : ℕ} (htasks : tasks.Nodup) :
    Meets (followLinks data contentOffset contentSize chain tasks current) (fun found => found.Nodup)
      (fun _ => True) := by
  fun_induction followLinks data contentOffset contentSize chain tasks current with
  | case1 chain tasks current hvisit ih =>
    cases unpackU32 data (contentOffset + current + 0x1C) with
    | error e => trivial
    | ok next =>
      rw [ok_bind]
      split_ifs
      · exact htasks.insert
      · trivial
      · exact ih next htasks.insert
  | case2 chain tasks current hvisit => exact htasks

/-- What the forward chases leave behind: a set closed under links, every member of which is
reachable by links from a task record. -/
structure Chased (data : Bytes) (contentOffset contentSize : ℕ) (tasks : List ℕ) : Prop where
  closed : LinkClosed data contentOffset contentSize tasks none
  reached : ∀ base ∈ tasks, ∃ seed, TaskRecord data contentOffset contentSize seed ∧
    Relation.ReflTransGen (TaskLink data contentOffset contentSize) seed base
  nodup : tasks.Nodup

include hdata in
/-- The chases from all seeds return a chased set with every seed in it, or raise on an
unaligned link. -/
theorem followSeeds_spec {seeds tasks : List ℕ}
    (hseeds : ∀ seed ∈ seeds, TaskRecord data contentOffset contentSize seed)
    (htasks : Chased data contentOffset contentSize tasks) :
    Meets (seeds.foldlM (fun tasks seed => followLinks data contentOffset contentSize [] tasks seed) tasks)
      (fun found => Chased data contentOffset contentSize found ∧ (∀ base ∈ tasks, base ∈ found) ∧
        ∀ seed ∈ seeds, seed ∈ found)
      (fun e => (∃ message, e = .valueError message) ∧
        ReachesUnalignedLink data contentOffset contentSize) := by
  induction seeds generalizing tasks with
  | nil => exact ⟨htasks, fun base hbase => hbase, by simp⟩
  | cons seed rest ih =>
    have hseed := hseeds seed List.mem_cons_self
    have hopen : LinkClosed data contentOffset contentSize tasks (some seed) :=
      ⟨fun base hbase next hlink => Or.inl ((htasks.closed.links base hbase next hlink).resolve_right (by simp)),
        htasks.closed.aligned⟩
    have hchase := @followLinks_spec data contentOffset contentSize hdata [] tasks seed (by simp) hopen
      hseed.2.1
    have hnodup := @followLinks_nodup data contentOffset contentSize [] tasks seed htasks.nodup
    rw [List.foldlM_cons]
    revert hchase hnodup
    cases followLinks data contentOffset contentSize [] tasks seed with
    | error e =>
      rintro ⟨hvalue, base, hpath, hbad⟩ -
      exact ⟨hvalue, seed, base, hseed, hpath, hbad⟩
    | ok found =>
      rintro ⟨hclosed, hmem, hkeep, hreach⟩ hnodup
      have hfound : Chased data contentOffset contentSize found := by
        refine ⟨hclosed, fun base hbase => ?_, hnodup⟩
        rcases hreach base hbase with hold | hpath
        · exact htasks.reached base hold
        · exact ⟨seed, hseed, hpath⟩
      have hrest := ih (fun s hs => hseeds s (List.mem_cons_of_mem seed hs)) hfound
      rw [ok_bind]
      revert hrest
      cases rest.foldlM (fun tasks seed => followLinks data contentOffset contentSize [] tasks seed)
          found with
      | error e => exact id
      | ok final =>
        rintro ⟨hfinal, hgrow, hall⟩
        refine ⟨hfinal, fun base hbase => hgrow base (hkeep base hbase), fun s hs => ?_⟩
        rcases List.mem_cons.mp hs with rfl | hs
        · exact hgrow s hmem
        · exact hall s hs

/-! ## The backward worklist -/

include hdata in
/-- The edge list is the predecessor relation. -/
theorem predecessorEdges_spec {bases : List ℕ}
  (hbases : ∀ base ∈ bases, base % 0x100 = 0 ∧ InSection contentSize base) :
    ∃ edges, predecessorEdges data contentOffset contentSize bases = .ok edges ∧ ∀ next base,
      (next, base) ∈ edges ↔ base ∈ bases ∧ TaskPredecessor data contentOffset contentSize next base := by
  induction bases with
  | nil => exact ⟨[], rfl, by simp⟩
  | cons current rest ih =>
    obtain ⟨edges, hedges, hmem⟩ := ih fun base hbase => hbases base (List.mem_cons_of_mem current hbase)
    obtain ⟨halign, hsection⟩ := hbases current List.mem_cons_self
    have hroom := hsection
    unfold InSection taskHeaderSize at hroom
    rw [predecessorEdges, unpackU32_of_le (by omega), ok_bind]
    split_ifs with hskip
    · refine ⟨edges, hedges, fun next base => ?_⟩
      rw [hmem, List.mem_cons]
      refine ⟨fun h => ⟨Or.inr h.1, h.2⟩, fun h => ⟨h.1.resolve_left ?_, h.2⟩⟩
      rintro rfl
      obtain ⟨-, -, -, hnext, hforward, hnextAlign, rfl, -⟩ := h
      unfold InSection at hnext
      unfold nextPointer at hforward hnextAlign hnext
      omega
    · rw [not_or, not_or] at hskip
      obtain ⟨hforward, hnextAlign, hnext⟩ := hskip
      unfold taskHeaderSize at hnext
      rw [unpackU32_of_le (by omega), ok_bind, unpackU32_of_le (by omega), ok_bind, hedges, ok_bind]
      refine ⟨_, rfl, fun next base => ?_⟩
      have hedge : TaskPredecessor data contentOffset contentSize next current ↔
          next = data.u32 (contentOffset + current + 0x1C) ∧
            data.u32 (contentOffset + data.u32 (contentOffset + current + 0x1C)) &&& 0xFFFFFF =
              (data.u32 (contentOffset + current) &&& 0xFFFFFF) + 1 := by
        constructor
        · rintro ⟨-, -, -, -, -, rfl, hid⟩
          exact ⟨rfl, hid⟩
        · rintro ⟨rfl, hid⟩
          exact ⟨halign, hsection, by unfold InSection taskHeaderSize; omega, Nat.lt_of_not_le hforward,
            Decidable.not_not.mp hnextAlign, rfl, hid⟩
      split_ifs with hid
      · rw [List.mem_cons, hmem, List.mem_cons, Prod.mk.injEq]
        constructor
        · rintro (⟨rfl, rfl⟩ | h)
          · exact ⟨Or.inl rfl, hedge.mpr ⟨rfl, hid⟩⟩
          · exact ⟨Or.inr h.1, h.2⟩
        · rintro ⟨rfl | h, hpred⟩
          · exact Or.inl ⟨(hedge.mp hpred).1, rfl⟩
          · exact Or.inr ⟨h, hpred⟩
      · rw [hmem, List.mem_cons]
        refine ⟨fun h => ⟨Or.inr h.1, h.2⟩, fun h => ⟨h.1.resolve_left ?_, h.2⟩⟩
        rintro rfl
        exact hid (hedge.mp h.2).2

/-! ## The two searches together -/

section Closure

variable {edges : List (ℕ × ℕ)}

/-- A closed set contains what a member reaches by links. -/
theorem TaskClosed.mem_of_links {found : Set ℕ} (h : TaskClosed data contentOffset contentSize found) {target : ℕ}
    (hpath : Relation.ReflTransGen (TaskLink data contentOffset contentSize) base target) (hbase : base ∈ found) :
    target ∈ found := by
  induction hpath with
  | refl => exact hbase
  | tail _ hlink ih => exact h.links _ ih _ hlink

variable (htasks : Chased data contentOffset contentSize tasks)

include htasks in
/-- A chased set contains what a member reaches by links, and none of it has an unaligned link. -/
theorem Chased.not_unaligned {target : ℕ}
    (hpath : Relation.ReflTransGen (TaskLink data contentOffset contentSize) base target) (hbase : base ∈ tasks) :
    ¬ UnalignedLink data contentOffset contentSize target := by
  have hmem : target ∈ tasks := by
    induction hpath with
    | refl => exact hbase
    | tail _ hlink ih => exact (htasks.closed.links _ ih _ hlink).resolve_right (by simp)
  exact htasks.closed.aligned target hmem

include htasks in
/-- Every base of a chased set is aligned and lies in the section. -/
theorem Chased.wellPlaced (hrecords : ∀ seed, TaskRecord data contentOffset contentSize seed → seed ∈ tasks)
    (hbase : base ∈ tasks) : base % 0x100 = 0 ∧ InSection contentSize base := by
  obtain ⟨seed, hseed, hpath⟩ := htasks.reached base hbase
  rcases Relation.ReflTransGen.cases_tail hpath with rfl | ⟨prior, hprior, hlink⟩
  · exact ⟨hseed.1, hseed.2.1⟩
  · refine ⟨?_, hlink.2.1⟩
    by_contra hodd
    exact htasks.not_unaligned hprior (hrecords seed hseed) ⟨base, hlink, hodd⟩

include htasks in
/-- Every base of the backward closure is aligned and lies in the section. -/
theorem closure_wellPlaced (hrecords : ∀ seed, TaskRecord data contentOffset contentSize seed → seed ∈ tasks)
    (hedges : ∀ next base, (next, base) ∈ edges ↔ TaskPredecessor data contentOffset contentSize next base)
    (hbase : base ∈ closure edges tasks tasks) : base % 0x100 = 0 ∧ InSection contentSize base := by
  obtain ⟨t, ht, hpath⟩ := (mem_closure_iff edges tasks base).mp hbase
  rcases Relation.ReflTransGen.cases_tail hpath with rfl | ⟨prior, -, hedge⟩
  · exact htasks.wellPlaced hrecords ht
  · have hpred := (hedges prior base).mp hedge
    exact ⟨hpred.1, hpred.2.1⟩

include htasks in
/-- The backward closure of a chased set that holds every record has all three closure
properties, and any set that has them contains it. -/
theorem isLeast_closure (hrecords : ∀ seed, TaskRecord data contentOffset contentSize seed → seed ∈ tasks)
    (hedges : ∀ next base, (next, base) ∈ edges ↔ TaskPredecessor data contentOffset contentSize next base) :
    IsLeast {found | TaskClosed data contentOffset contentSize found}
      {base | base ∈ closure edges tasks tasks} := by
  have hmem (x : ℕ) := mem_closure_iff edges tasks x
  refine ⟨⟨fun base hbase => ?_, fun base hbase next hlink => ?_, fun next hnext base hpred => ?_⟩, ?_⟩
  · exact (hmem base).mpr ⟨base, hrecords base hbase, Relation.ReflTransGen.refl⟩
  · obtain ⟨t, ht, hpath⟩ := (hmem base).mp hbase
    rcases Relation.ReflTransGen.cases_tail hpath with rfl | ⟨prior, hprior, hedge⟩
    · have hnext := (htasks.closed.links base ht next hlink).resolve_right (by simp)
      exact (hmem next).mpr ⟨next, hnext, Relation.ReflTransGen.refl⟩
    · have hsame : next = prior := by
        rw [hlink.2.2.2, ((hedges prior base).mp hedge).2.2.2.2.2.1]
      subst hsame
      exact (hmem next).mpr ⟨t, ht, hprior⟩
  · obtain ⟨t, ht, hpath⟩ := (hmem next).mp hnext
    exact (hmem base).mpr ⟨t, ht, Relation.ReflTransGen.tail hpath ((hedges next base).mpr hpred)⟩
  · intro other hother base hbase
    obtain ⟨t, ht, hpath⟩ := (hmem base).mp hbase
    obtain ⟨seed, hseed, hlinks⟩ := htasks.reached t ht
    have hstart := hother.mem_of_links hlinks (hother.records seed hseed)
    clear hbase
    induction hpath with
    | refl => exact hstart
    | tail _ hedge ih => exact hother.predecessors _ ih _ ((hedges _ _).mp hedge)

end Closure

include hdata in
/-- The postconditions of a search inside the data: the sorted least closed set, or a value
error for a reachable unaligned link. -/
theorem searchTasks_spec :
    Meets (searchTasks data contentOffset contentSize)
      (fun tasks => tasks.Pairwise (· < ·) ∧ (∀ base ∈ tasks, base % 0x100 = 0 ∧ InSection contentSize base) ∧
        IsLeast {found | TaskClosed data contentOffset contentSize found} {base | base ∈ tasks} ∧
        ¬ ReachesUnalignedLink data contentOffset contentSize)
      (fun e => (∃ message, e = .valueError message) ∧
        ReachesUnalignedLink data contentOffset contentSize) := by
  have hoffsets : ∀ offset ∈ range (contentOffset + 0x28) (contentOffset + contentSize - 3) 4,
      contentOffset + 0x28 ≤ offset ∧ offset + 4 ≤ data.size := by
    intro offset hoffset
    obtain ⟨i, rfl, hi⟩ := (mem_range (by norm_num)).mp hoffset
    omega
  obtain ⟨seeds, hseeds⟩ := collectSeeds_ok fun o ho => (hoffsets o ho).2
  have hrecord (base : ℕ) : base ∈ seeds ↔ TaskRecord data contentOffset contentSize base := by
    rw [collectSeeds_spec hoffsets hseeds, mem_range (by norm_num), TaskRecord, InSection, taskHeaderSize]
    constructor
    · rintro ⟨⟨i, hi, hlt⟩, halign, hrec⟩
      exact ⟨halign, by omega, hrec⟩
    · rintro ⟨halign, hroom, hrec⟩
      exact ⟨⟨base / 4, by omega, by omega⟩, halign, hrec⟩
  have hchase := @followSeeds_spec data contentOffset contentSize hdata (seeds.insertionSort (· ≤ ·)) []
    (fun seed hseed => (hrecord seed).mp ((List.mem_insertionSort _).mp hseed))
    ⟨⟨by simp, by simp⟩, by simp, List.nodup_nil⟩
  rw [searchTasks, hseeds, ok_bind]
  revert hchase
  cases (seeds.insertionSort (· ≤ ·)).foldlM
      (fun tasks seed => followLinks data contentOffset contentSize [] tasks seed) [] with
  | error e => exact id
  | ok tasks =>
    rintro ⟨htasks, -, hall⟩
    have hrecords (seed : ℕ) (hseed : TaskRecord data contentOffset contentSize seed) : seed ∈ tasks :=
      hall seed ((List.mem_insertionSort _).mpr ((hrecord seed).mpr hseed))
    have hbases : ∀ base ∈ range 0 (contentSize + 1 - taskHeaderSize) 0x100,
        base % 0x100 = 0 ∧ InSection contentSize base := by
      intro base hbase
      obtain ⟨i, rfl, hi⟩ := (mem_range (by norm_num)).mp hbase
      unfold InSection
      exact ⟨by omega, by omega⟩
    obtain ⟨edges, hedges, hmem⟩ := predecessorEdges_spec hdata hbases
    have hedge (next base : ℕ) :
        (next, base) ∈ edges ↔ TaskPredecessor data contentOffset contentSize next base := by
      rw [hmem]
      refine ⟨fun h => h.2, fun h => ⟨(mem_range (by norm_num)).mpr ⟨base / 0x100, ?_, ?_⟩, h⟩⟩
      · have := h.1
        omega
      · have := h.2.1
        unfold InSection at this
        omega
    have hnodup := closure_nodup edges tasks tasks htasks.nodup
    rw [ok_bind, hedges, ok_bind]
    refine ⟨insertionSort_pairwise_lt hnodup, fun base hbase => ?_, ?_, ?_⟩
    · exact closure_wellPlaced htasks hrecords hedge ((List.mem_insertionSort _).mp hbase)
    · have hleast := isLeast_closure htasks hrecords hedge
      simpa only [List.mem_insertionSort] using hleast
    · rintro ⟨seed, base, hseed, hpath, hbad⟩
      exact htasks.not_unaligned hpath (hrecords seed hseed) hbad

/-- The search returns the strictly increasing list of the least closed task set, and raises
only value errors: for a bad range, or for an unaligned link that a record reaches. -/
theorem findTaskOffsets_least (data : Bytes) (contentOffset contentSize : ℤ) :
    Meets (findTaskOffsets data contentOffset contentSize)
      (fun tasks => tasks.Pairwise (· < ·) ∧
        (∀ base ∈ tasks, base % 0x100 = 0 ∧ (base : ℤ) + 0x2C ≤ contentSize) ∧
        IsLeast {found | TaskClosed data contentOffset.toNat contentSize.toNat found} {base | base ∈ tasks})
      (fun e => ∃ message, e = .valueError message) ∧
    ((∃ e, findTaskOffsets data contentOffset contentSize = .error e) ↔
      contentOffset < 0 ∨ contentSize < 0 ∨ (data.size : ℤ) < contentOffset + contentSize ∨
        ReachesUnalignedLink data contentOffset.toNat contentSize.toNat) := by
  unfold findTaskOffsets
  split_ifs with hneg hend
  · exact ⟨⟨_, rfl⟩, fun _ => hneg.imp id Or.inl, fun _ => ⟨_, rfl⟩⟩
  · exact ⟨⟨_, rfl⟩, fun _ => Or.inr (Or.inr (Or.inl hend)), fun _ => ⟨_, rfl⟩⟩
  · have hspec := @searchTasks_spec data contentOffset.toNat contentSize.toNat (by omega)
    revert hspec
    cases searchTasks data contentOffset.toNat contentSize.toNat with
    | error e =>
      rintro ⟨hvalue, hbad⟩
      exact ⟨hvalue, fun _ => Or.inr (Or.inr (Or.inr hbad)), fun _ => ⟨e, rfl⟩⟩
    | ok tasks =>
      rintro ⟨hsorted, hplaced, hleast, hgood⟩
      refine ⟨⟨hsorted, fun base hbase => ⟨(hplaced base hbase).1, ?_⟩, hleast⟩, ?_, ?_⟩
      · have hroom := (hplaced base hbase).2
        unfold InSection taskHeaderSize at hroom
        omega
      · rintro ⟨e, he⟩
        cases he
      · rintro (h | h | h | h)
        · exact absurd (Or.inl h) hneg
        · exact absurd (Or.inr h) hneg
        · exact absurd h hend
        · exact absurd h hgood

end AneLinux.Hwx
