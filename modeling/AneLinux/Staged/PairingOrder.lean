import AneLinux.Staged.PairingMatch

/-!
# When the pairing guesses

A pairing that goes through gives every program a file of its own, and all programs of a class that
took a cluster files of one signature. Two things it does not refuse. Two rows of the pairing file may
name different files for one program; the last row counts. And two classes of one program may have the
same predicted input bytes, or two files the same input size; the order of their indexes or names then
decides.
-/

namespace AneLinux.Staged

open AneLinux.Support

/-! ## The programs and files left by the explicit pairs -/

variable {hwxDir name : String} {programs : List PairedProgram} {rows : List PairingRow}
  {files : List (String × HwxSignature)} {i j : ℕ} {α β : Type*} {a : α} {signature : HwxSignature} {m : Matching}
  {predicted : ℕ ×ₗ ℕ} {as : List α} {bs : List β} {file : ℕ ×ₗ String} {assignment : List (ℤ × String)}
  {classes : List (ℕ ×ₗ ℕ)} {free : List (ℕ ×ₗ String)} {program : PairedProgram}

section Left

/-- The program has no row in the pairing file. -/
def Unpaired (rows : List PairingRow) (i : ℕ) : Prop := ∀ row ∈ rows, row.manifestIndex ≠ i

/-- The program is the only one of its class without a row in the pairing file. -/
def AloneInClass (programs : List PairedProgram) (rows : List PairingRow) (i : ℕ) : Prop :=
  ∃ program, programs[i]? = some program ∧ Unpaired rows i ∧ ∀ j other, programs[j]? = some other →
    Unpaired rows j → portClass other = portClass program → j = i

/-- A file that no explicit pair takes, with its signature. -/
def FreeFile (rows : List PairingRow) (files : List (String × HwxSignature)) (name : String)
    (signature : HwxSignature) : Prop :=
  find files name = some signature ∧ name ∉ (knownPairs rows).map Prod.snd

/-- The file is the only free one of its signature. -/
def AloneInSignature (rows : List PairingRow) (files : List (String × HwxSignature)) (name : String)
    (signature : HwxSignature) : Prop :=
  FreeFile rows files name signature ∧ ∀ other, FreeFile rows files other signature → other = name

theorem unpaired_iff : find (knownPairs rows) (i : ℤ) = none ↔ Unpaired rows i := by
  rw [find_eq_none_iff, knownPairs, (keys_dict _).2, List.map_map, List.mem_map, not_exists]
  constructor
  · intro h row hrow hindex
    exact h row ⟨hrow, hindex⟩
  · rintro h row ⟨hrow, hindex⟩
    exact h row hrow hindex

/-- What is left by the explicit pairs has its class. -/
theorem mem_remaining {cls : PortClass} : (cls, i) ∈ remaining programs (knownPairs rows) ↔
    ∃ program, programs[i]? = some program ∧ Unpaired rows i ∧ portClass program = cls := by
  unfold remaining
  rw [List.mem_map]
  constructor
  · rintro ⟨⟨program, j⟩, hentry, heq⟩
    obtain ⟨rfl, rfl⟩ := Prod.mk.inj heq
    obtain ⟨hmem, hnone⟩ := List.mem_filter.mp hentry
    exact ⟨program, List.mk_mem_zipIdx_iff_getElem?.mp hmem, unpaired_iff.mp (of_decide_eq_true hnone), rfl⟩
  · rintro ⟨program, hprogram, hunpaired, rfl⟩
    refine ⟨(program, i), List.mem_filter.mpr ⟨List.mk_mem_zipIdx_iff_getElem?.mpr hprogram, ?_⟩, rfl⟩
    exact decide_eq_true (unpaired_iff.mpr hunpaired)

theorem nodup_remaining : ((remaining programs (knownPairs rows)).map Prod.snd).Nodup := by
  have hsub : ((remaining programs (knownPairs rows)).map Prod.snd).Sublist (programs.zipIdx.map Prod.snd) := by
    unfold remaining
    rw [List.map_map]
    exact List.filter_sublist.map Prod.snd
  refine List.Nodup.sublist hsub ?_
  rw [List.zipIdx_map_snd]
  exact List.nodup_range' 

/-- The classes are the nonempty groups of what is left. -/
theorem mem_byClass {entry : PortClass × List ℕ} : entry ∈ byClass programs (knownPairs rows) ↔
    entry.2 ≠ [] ∧ entry.2 = valuesOf (remaining programs (knownPairs rows)) entry.1 := by
  rw [byClass, (List.perm_insertionSort _ _).mem_iff, mem_group]

/-- A list without repetition has one element exactly when all its elements are that one. -/
theorem singleton_eq_iff {values : List α} (h : values.Nodup) : [a] = values ↔ a ∈ values ∧ ∀ b ∈ values, b = a := by
  constructor
  · rintro rfl
    exact ⟨List.mem_cons_self, fun b hb => List.mem_singleton.mp hb⟩
  · rintro ⟨ha, hall⟩
    have hperm : [a].Perm values := (List.perm_ext_iff_of_nodup (List.nodup_singleton a) h).mpr fun b =>
      ⟨fun hb => List.mem_singleton.mp hb ▸ ha, fun hb => List.mem_singleton.mpr (hall b hb)⟩
    exact List.singleton_perm.mp hperm

theorem nodup_valuesOf {κ : Type*} [DecidableEq κ] {pairs : List (κ × α)} (h : (pairs.map Prod.snd).Nodup) (key : κ) :
    (valuesOf pairs key).Nodup :=
  h.sublist (List.filter_sublist.map Prod.snd)

/-- A class of one program is a program alone in its class. -/
theorem mem_lone_byClass {cls : PortClass} : (cls, [i]) ∈ byClass programs (knownPairs rows) ↔
    AloneInClass programs rows i ∧ ∃ program, programs[i]? = some program ∧ portClass program = cls := by
  rw [mem_byClass, singleton_eq_iff (nodup_valuesOf nodup_remaining cls), mem_valuesOf, mem_remaining]
  constructor
  · rintro ⟨-, ⟨program, hprogram, hunpaired, rfl⟩, hall⟩
    refine ⟨⟨program, hprogram, hunpaired, fun j other hother hfree hclass => ?_⟩, program, hprogram, rfl⟩
    exact hall j (mem_valuesOf.mpr (mem_remaining.mpr ⟨other, hother, hfree, hclass⟩))
  · rintro ⟨⟨found, hfound, hunpaired, hall⟩, program, hprogram, rfl⟩
    obtain rfl := Option.mem_unique hfound hprogram
    refine ⟨List.cons_ne_nil _ _, ⟨found, hprogram, hunpaired, rfl⟩, fun j hj => ?_⟩
    obtain ⟨other, hother, hfree, hclass⟩ := mem_remaining.mp (mem_valuesOf.mp hj)
    exact hall j other hother hfree hclass

/-- A cluster of one file is a file alone in its signature. -/
theorem mem_lone_clusters {left : List (String × HwxSignature)} (hleft : (left.map Prod.fst).Nodup)
    (hfound : ∀ name, find left name = if name ∈ (knownPairs rows).map Prod.snd then none else find files name) :
    (signature, [name]) ∈ clustersOf left ↔ AloneInSignature rows files name signature := by
  have hfree (other : String) : (signature, other) ∈ left.map (fun file => (file.2, file.1)) ↔
      FreeFile rows files other signature := by
    have hmem : (signature, other) ∈ left.map (fun file => (file.2, file.1)) ↔ (other, signature) ∈ left := by
      rw [List.mem_map]
      constructor
      · rintro ⟨file, hfile, heq⟩
        obtain ⟨rfl, rfl⟩ := Prod.mk.inj heq
        exact hfile
      · intro hfile
        exact ⟨_, hfile, rfl⟩
    rw [hmem, ← find_eq_some_iff hleft, hfound]
    unfold FreeFile
    split_ifs with hknown
    · exact ⟨False.elim, fun h => absurd hknown h.2⟩
    · exact ⟨fun h => ⟨h, hknown⟩, fun h => h.1⟩
  have hnames : ((left.map fun file => (file.2, file.1)).map Prod.snd).Nodup := by
    rw [List.map_map]
    exact hleft
  rw [clustersOf, mem_group, singleton_eq_iff (nodup_valuesOf hnames signature), mem_valuesOf, hfree]
  constructor
  · rintro ⟨-, hname, hall⟩
    exact ⟨hname, fun other hother => hall other (mem_valuesOf.mpr ((hfree other).mpr hother))⟩
  · rintro ⟨hname, hall⟩
    exact ⟨List.cons_ne_nil _ _, hname, fun other hother => hall other ((hfree other).mp (mem_valuesOf.mp hother))⟩

end Left

/-! ## The pass over the classes -/

/-- The programs a pairing is about: those with a row in the pairing file and those of the classes. -/
def pairKeys (programs : List PairedProgram) (rows : List PairingRow) : List ℤ :=
  (knownPairs rows).map Prod.fst ++ indexesOf (byClass programs (knownPairs rows))

/-- What holds after the pass over the classes. -/
structure Passed (programs : List PairedProgram) (rows : List PairingRow) (files : List (String × HwxSignature))
    (m : Matching) : Prop where
  balanced : Balanced (pairKeys programs rows) (files.map Prod.fst) files [] m
  known : knownPairs rows <+: m.assignment
  classes : ∀ entry ∈ byClass programs (knownPairs rows),
    OneSignature files m.assignment entry ∨ entry ∈ m.unresolved
  few : (lone (byClass programs (knownPairs rows))).length ≤ (lone m.unresolved).length + 1
  kept : lone m.clusters ≠ [] → lone m.unresolved = lone (byClass programs (knownPairs rows)) ∧
    ∀ name signature, (signature, [name]) ∈ m.clusters ↔ AloneInSignature rows files name signature

section Whole

theorem nodup_pairKeys (programs : List PairedProgram) (rows : List PairingRow) : (pairKeys programs rows).Nodup := by
  have hclasses : ((byClass programs (knownPairs rows)).flatMap Prod.snd).Perm
      ((remaining programs (knownPairs rows)).map Prod.snd) :=
    ((List.perm_insertionSort _ _).flatMap_right _).trans (perm_flatMap_group _)
  refine List.nodup_append.mpr ⟨(keys_dict _).1, ?_, ?_⟩
  · exact (hclasses.nodup_iff.mpr nodup_remaining).map Nat.cast_injective
  · rintro key hkey other hother rfl
    obtain ⟨i, hi, rfl⟩ := List.mem_map.mp hother
    obtain ⟨⟨cls, j⟩, hentry, rfl⟩ := List.mem_map.mp (hclasses.mem_iff.mp hi)
    obtain ⟨-, -, hunpaired, -⟩ := mem_remaining.mp hentry
    exact find_eq_none_iff.mp (unpaired_iff.mpr hunpaired) hkey

/-- Every program is in the pairing file or in a class. -/
theorem mem_pairKeys (hi : i < programs.length) : (i : ℤ) ∈ pairKeys programs rows := by
  by_cases hunpaired : Unpaired rows i
  · refine List.mem_append_right _ (List.mem_map_of_mem (List.mem_flatMap.mpr ?_))
    have hremaining : (portClass programs[i], i) ∈ remaining programs (knownPairs rows) :=
      mem_remaining.mpr ⟨_, List.getElem?_eq_getElem hi, hunpaired, rfl⟩
    have hvalue := mem_valuesOf.mpr hremaining
    exact ⟨(portClass programs[i], valuesOf (remaining programs (knownPairs rows)) (portClass programs[i])),
      mem_byClass.mpr ⟨List.ne_nil_of_mem hvalue, rfl⟩, hvalue⟩
  · refine List.mem_append_left _ ?_
    by_contra hmissing
    exact hunpaired (unpaired_iff.mp (find_eq_none_iff.mpr hmissing))

/-- What the pass over the classes returns. -/
theorem matchClusters_eq_ok (hfiles : (files.map Prod.fst).Nodup)
    (h : matchClusters hwxDir programs rows files = .ok m) :
    Passed programs rows files m := by
  unfold matchClusters at h
  by_cases hempty : files = []
  · rw [if_pos hempty] at h
    cases h
  · rw [if_neg hempty] at h
    obtain ⟨⟨assignment, left⟩, hknown, h⟩ := bind_eq_ok.mp h
    obtain rfl := Except.ok.inj h
    obtain ⟨rfl, hnames, hleft, hfound⟩ := assignKnown_eq_ok hknown (keys_dict _).1 hfiles
    rw [List.nil_append]
    have hkeys := nodup_pairKeys programs rows
    have hclusters : ((clustersOf left).flatMap Prod.snd).Perm (left.map Prod.fst) := by
      refine (perm_flatMap_group _).trans ?_
      rw [List.map_map]
      rfl
    have hstart : Balanced (pairKeys programs rows) (files.map Prod.fst) files (byClass programs (knownPairs rows))
        ⟨knownPairs rows, left, clustersOf left, []⟩ := by
      refine ⟨List.Perm.refl _, (hclusters.append_left _).trans hnames, nodup_keys_group _, fun cluster hcluster => ?_,
        fun name signature hfind => ?_⟩
      · obtain ⟨hfull, hvalues⟩ := mem_group.mp hcluster
        refine ⟨hfull, fun name hname => ?_⟩
        rw [hvalues, mem_valuesOf] at hname
        obtain ⟨file, hfile, heq⟩ := List.mem_map.mp hname
        obtain ⟨hsignature, rfl⟩ := Prod.mk.inj heq
        rw [← hsignature]
        exact (find_eq_some_iff hleft).mpr hfile
      · have hfind' : find left name = some signature := hfind
        rw [hfound] at hfind'
        split_ifs at hfind'
        exact hfind'
    obtain ⟨hbalanced, hgrown, -, hclasses⟩ := hstart.run hkeys
    obtain ⟨hcount, hkept⟩ := @run_lone (byClass programs (knownPairs rows))
      ⟨knownPairs rows, left, clustersOf left, []⟩ (nodup_keys_group _)
    refine ⟨hbalanced, hgrown, hclasses, ?_, fun hne => ?_⟩
    · have hnone : (lone ([] : List (PortClass × List ℕ))).length = 0 := rfl
      rw [hnone] at hcount
      omega
    · obtain ⟨hlone, hunresolved⟩ := hkept hne
      refine ⟨hunresolved, fun name signature => ?_⟩
      have hmem (clusters : List (HwxSignature × List String)) :
          (signature, [name]) ∈ lone clusters ↔ (signature, [name]) ∈ clusters :=
        ⟨fun h => (List.mem_filter.mp h).1, fun h => List.mem_filter.mpr ⟨h, rfl⟩⟩
      rw [← hmem, hlone, hmem]
      exact mem_lone_clusters hleft hfound

/-- One program in every unresolved class, one file in every cluster, and as many clusters as classes. -/
structure ByInput (programs : List PairedProgram) (m : Matching) (classes : List (ℕ ×ₗ ℕ))
    (free : List (ℕ ×ₗ String)) : Prop where
  predicted : List.Forall₂ (fun entry predicted => ∃ program, entry.2 = [(ofLex predicted).2] ∧
    programs[(ofLex predicted).2]? = some program ∧
      stagedInputBytes program = .ok (ofLex predicted).1) m.unresolved classes
  sizes : List.Forall₂ (fun cluster file => cluster.2 = [(ofLex file).2] ∧
    cluster.1.inputSize = (ofLex file).1) m.clusters free
  same : classes.length = free.length

theorem predictedInput_eq_ok {entry : PortClass × List ℕ} (hlone : entry.2.length = 1)
    (h : predictedInput programs entry = .ok predicted) : ∃ program, entry.2 = [(ofLex predicted).2] ∧
      programs[(ofLex predicted).2]? = some program ∧ stagedInputBytes program = .ok (ofLex predicted).1 := by
  obtain ⟨i, hi, h⟩ := bind_eq_ok.mp h
  obtain ⟨program, hprogram, h⟩ := bind_eq_ok.mp h
  obtain ⟨bytes, hbytes, h⟩ := bind_eq_ok.mp h
  obtain rfl := Except.ok.inj h
  obtain ⟨j, hj⟩ := List.length_eq_one_iff.mp hlone
  rw [hj] at hi
  obtain rfl : j = i := Option.some.inj (index_eq_ok.mp hi)
  exact ⟨program, hj, index_eq_ok.mp hprogram, hbytes⟩

/-- Related lists are related between their members. -/
theorem forall₂_mem {r : α → β → Prop} (h : List.Forall₂ r as bs) :
    List.Forall₂ (fun a b => r a b ∧ a ∈ as ∧ b ∈ bs) as bs := by
  induction h with
  | nil => exact List.Forall₂.nil
  | cons hhead htail ih =>
    refine List.Forall₂.cons ⟨hhead, List.mem_cons_self, List.mem_cons_self⟩ (ih.imp fun a b hab => ?_)
    exact ⟨hab.1, List.mem_cons_of_mem _ hab.2.1, List.mem_cons_of_mem _ hab.2.2⟩

theorem freeInput_eq_ok {keys : List ℤ} {cluster : HwxSignature × List String}
    (hm : Balanced keys (files.map Prod.fst) files [] m) (hcluster : cluster ∈ m.clusters)
    (halone : aloneInCluster m (ofLex file).2 = true) (h : freeInput m.files cluster = .ok file) :
    cluster.2 = [(ofLex file).2] ∧ cluster.1.inputSize = (ofLex file).1 := by
  obtain ⟨name, hname, h⟩ := bind_eq_ok.mp h
  obtain ⟨signature, hsignature, h⟩ := bind_eq_ok.mp h
  obtain rfl := Except.ok.inj h
  change aloneInCluster m name = true at halone
  have hfirst := index_eq_ok.mp hname
  have hfound := (hm.clusters cluster hcluster).2 name (List.mem_of_getElem? hfirst)
  obtain rfl : cluster.1 = signature := Option.mem_unique hfound (lookup_eq_ok.mp hsignature)
  have hlength : some cluster.2.length = some 1 := by
    have halone := of_decide_eq_true halone
    rw [hfound, Option.bind_some, (find_eq_some_iff hm.clusterKeys).mpr hcluster] at halone
    exact halone
  obtain ⟨only, honly⟩ := List.length_eq_one_iff.mp (Option.some.inj hlength)
  rw [honly] at hfirst
  obtain rfl : only = name := Option.some.inj hfirst
  exact ⟨honly, rfl⟩

/-- The phase by input bytes goes through on classes and clusters of one element only. -/
theorem matchByInput_eq_ok {keys : List ℤ} (hm : Balanced keys (files.map Prod.fst) files [] m)
    (h : matchByInput programs m = .ok assignment) :
    ∃ classes free, ByInput programs m classes free ∧
      assignment = assignAll (((sorted classes).map fun entry => (ofLex entry).2).zip
        ((sorted free).map fun file => (ofLex file).2)) m.assignment := by
  unfold matchByInput at h
  by_cases hlone : ∀ entry ∈ m.unresolved, entry.2.length = 1
  · rw [if_pos hlone] at h
    obtain ⟨classes, hclasses, h⟩ := bind_eq_ok.mp h
    obtain ⟨free, hfree, h⟩ := bind_eq_ok.mp h
    by_cases hmatch : classes.length = free.length ∧ ∀ file ∈ sorted free, aloneInCluster m (ofLex file).2
    · rw [if_pos hmatch] at h
      refine ⟨classes, free, ⟨?_, ?_, hmatch.1⟩, (Except.ok.inj h).symm⟩
      · exact (forall₂_mem (mapM_eq_ok.mp hclasses)).imp fun entry predicted hentry =>
          predictedInput_eq_ok (hlone entry hentry.2.1) hentry.1
      · exact (forall₂_mem (mapM_eq_ok.mp hfree)).imp fun cluster file hcluster =>
          freeInput_eq_ok hm hcluster.2.1 (hmatch.2 file (mem_sorted.mpr hcluster.2.2)) hcluster.1
    · rw [if_neg hmatch] at h
      cases h
  · rw [if_neg hlone] at h
    cases h

/-- The programs and files of the two orders are those left. -/
theorem ByInput.left (h : ByInput programs m classes free) :
    classes.map (fun entry => (ofLex entry).2) = m.unresolved.flatMap Prod.snd ∧
      free.map (fun file => (ofLex file).2) = m.clusters.flatMap Prod.snd := by
  obtain ⟨hpredicted, hsizes, -⟩ := h
  constructor
  · generalize m.unresolved = unresolved at hpredicted ⊢
    induction hpredicted with
    | nil => rfl
    | cons hhead _ ih =>
      obtain ⟨-, hentry, -⟩ := hhead
      rw [List.map_cons, List.flatMap_cons, ih, hentry]
      rfl
  · generalize m.clusters = clusters at hsizes ⊢
    induction hsizes with
    | nil => rfl
    | cons hhead _ ih =>
      rw [List.map_cons, List.flatMap_cons, ih, hhead.1]
      rfl

/-- The assignment of a pairing: every program once, every file at most once. -/
structure Complete (programs : List PairedProgram) (rows : List PairingRow) (files : List (String × HwxSignature))
    (assignment : List (ℤ × String)) : Prop where
  keys : (assignment.map Prod.fst).Perm (pairKeys programs rows)
  names : ∃ rest, (assignment.map Prod.snd ++ rest).Perm (files.map Prod.fst)

/-- The phase by input bytes adds the pairs of the two orders, and nothing is left. -/
theorem ByInput.complete (h : ByInput programs m classes free) (hm : Passed programs rows files m) :
    let pairs := ((sorted classes).zip (sorted free)).map fun pair => (((ofLex pair.1).2 : ℤ), (ofLex pair.2).2)
    assignAll (((sorted classes).map fun entry => (ofLex entry).2).zip
        ((sorted free).map fun file => (ofLex file).2)) m.assignment = m.assignment ++ pairs ∧
      Complete programs rows files (m.assignment ++ pairs) := by
  intro pairs
  obtain ⟨hindexes, hnames⟩ := h.left
  have hclasses : (sorted classes).Perm classes := List.perm_insertionSort (· ≤ ·) classes
  have hfree : (sorted free).Perm free := List.perm_insertionSort (· ≤ ·) free
  have hlength : (sorted classes).length = (sorted free).length := by
    rw [hclasses.length_eq, hfree.length_eq, h.same]
  have hzip : ((sorted classes).map fun entry => (ofLex entry).2).zip ((sorted free).map fun file => (ofLex file).2) =
      ((sorted classes).zip (sorted free)).map (Prod.map (fun entry => (ofLex entry).2) fun file => (ofLex file).2) :=
    List.zip_map ..
  have hfst : pairs.map Prod.fst = ((sorted classes).map fun entry => (ofLex entry).2).map Nat.cast := by
    have hproject : pairs.map Prod.fst = (((sorted classes).zip (sorted free)).map Prod.fst).map
        fun entry => ((ofLex entry).2 : ℤ) := by
      rw [List.map_map, List.map_map]
      rfl
    rw [hproject, List.map_fst_zip hlength.le, List.map_map]
    rfl
  have hsnd : pairs.map Prod.snd = (sorted free).map fun file => (ofLex file).2 := by
    have hproject : pairs.map Prod.snd = (((sorted classes).zip (sorted free)).map Prod.snd).map
        fun file => (ofLex file).2 := by
      rw [List.map_map, List.map_map]
      rfl
    rw [hproject, List.map_snd_zip hlength.ge]
  have hkeys : (m.assignment.map Prod.fst ++ pairs.map Prod.fst).Perm (pairKeys programs rows) := by
    refine List.Perm.trans (List.Perm.append_left _ ?_) hm.balanced.keys
    rw [hfst, List.append_nil, indexesOf, ← hindexes]
    exact (hclasses.map _).map _
  constructor
  · rw [assignAll_eq_append, hzip, List.map_map]
    · rfl
    · rw [List.map_fst_zip (by rw [List.length_map, List.length_map, hlength]), ← hfst]
      exact hkeys.nodup_iff.mpr (nodup_pairKeys programs rows)
  · refine ⟨?_, [], ?_⟩
    · rw [List.map_append]
      exact hkeys
    · rw [List.append_nil, List.map_append, hsnd]
      refine List.Perm.trans (List.Perm.append_left _ ?_) hm.balanced.names
      rw [← hnames]
      exact hfree.map _

/-- A pairing that goes through: after the pass over the classes nothing is unresolved, or the two
orders are matched. -/
theorem pairPrograms_eq_ok (hfiles : (files.map Prod.fst).Nodup)
    (h : pairPrograms hwxDir programs rows files = .ok assignment) :
    ∃ m, matchClusters hwxDir programs rows files = .ok m ∧
      Passed programs rows files m ∧ Complete programs rows files assignment ∧ m.assignment <+: assignment ∧
        (m.unresolved = [] ∨ ∃ classes free, ByInput programs m classes free ∧
          ∀ pair ∈ (sorted classes).zip (sorted free), (((ofLex pair.1).2 : ℤ), (ofLex pair.2).2) ∈ assignment) := by
  obtain ⟨m, hmatched, h⟩ := bind_eq_ok.mp h
  have hm := matchClusters_eq_ok hfiles hmatched
  refine ⟨m, hmatched, hm, ?_⟩
  by_cases hdone : m.unresolved = []
  · rw [if_pos hdone] at h
    obtain rfl := Except.ok.inj h
    refine ⟨⟨?_, _, hm.balanced.names⟩, List.prefix_refl _, Or.inl hdone⟩
    have hkeys := hm.balanced.keys
    have hnone : indexesOf ([] ++ []) = [] := rfl
    rw [hdone, hnone, List.append_nil] at hkeys
    exact hkeys
  · rw [if_neg hdone] at h
    obtain ⟨classes, free, hby, rfl⟩ := matchByInput_eq_ok hm.balanced h
    obtain ⟨hassigned, hcomplete⟩ := hby.complete hm
    rw [hassigned]
    refine ⟨hcomplete, List.prefix_append _ _, Or.inr ⟨classes, free, hby, fun pair hpair => ?_⟩⟩
    exact List.mem_append_right _ (List.mem_map.mpr ⟨pair, hpair, rfl⟩)

end Whole

/-! ## Guesses -/

section Orders

/-- Entries with distinct keys that differ in their first component increase strictly in it when sorted. -/
theorem sorted_strict [LinearOrder β] {entries : List (ℕ ×ₗ β)}
    (hkeys : (entries.map fun entry => (ofLex entry).2).Nodup)
    (hdistinct : ∀ a ∈ entries, ∀ b ∈ entries, (ofLex a).2 ≠ (ofLex b).2 → (ofLex a).1 ≠ (ofLex b).1) :
    (sorted entries).Pairwise fun a b => (ofLex a).1 < (ofLex b).1 := by
  have hperm : (sorted entries).Perm entries := List.perm_insertionSort (· ≤ ·) entries
  have hsorted : (sorted entries).Pairwise (· ≤ ·) := List.pairwise_insertionSort (· ≤ ·) entries
  have hnodup : (sorted entries).Pairwise fun a b => (ofLex a).2 ≠ (ofLex b).2 :=
    List.pairwise_map.mp ((hperm.map _).nodup_iff.mpr hkeys)
  refine (hsorted.and hnodup).imp_of_mem fun {a b} ha hb hab => ?_
  have hne := hdistinct a (hperm.mem_iff.mp ha) b (hperm.mem_iff.mp hb) hab.2
  rcases Prod.Lex.le_iff.mp hab.1 with hlt | ⟨heq, -⟩
  · exact hlt
  · exact absurd heq hne

/-- Two pairs of a zip of ordered lists are the same or ordered the same way. -/
theorem zip_ordered {r : α → α → Prop} {r' : β → β → Prop} (has : as.Pairwise r) (hbs : bs.Pairwise r')
    {pair pair' : α × β} (hpair : pair ∈ as.zip bs) (hpair' : pair' ∈ as.zip bs) :
    pair = pair' ∨ (r pair.1 pair'.1 ∧ r' pair.2 pair'.2) ∨ (r pair'.1 pair.1 ∧ r' pair'.2 pair.2) := by
  induction as generalizing bs with
  | nil => cases hpair
  | cons a as ih =>
    cases bs with
    | nil => cases hpair
    | cons b bs =>
      obtain ⟨ha, has⟩ := List.pairwise_cons.mp has
      obtain ⟨hb, hbs⟩ := List.pairwise_cons.mp hbs
      rw [List.zip_cons_cons] at hpair hpair'
      rcases List.mem_cons.mp hpair with rfl | hpair
      · rcases List.mem_cons.mp hpair' with rfl | hpair'
        · exact Or.inl rfl
        · obtain ⟨hleft, hright⟩ := List.of_mem_zip hpair'
          exact Or.inr (Or.inl ⟨ha _ hleft, hb _ hright⟩)
      · rcases List.mem_cons.mp hpair' with rfl | hpair'
        · obtain ⟨hleft, hright⟩ := List.of_mem_zip hpair
          exact Or.inr (Or.inr ⟨ha _ hleft, hb _ hright⟩)
        · exact ih has hbs hpair hpair'

/-- Every element of the second of two lists of one length has a partner in the first. -/
theorem exists_zip_of_mem_right (hlength : as.length = bs.length) {b : β} (hb : b ∈ bs) : ∃ a, (a, b) ∈ as.zip bs := by
  have hmem : b ∈ (as.zip bs).map Prod.snd := by
    rw [List.map_snd_zip hlength.ge]
    exact hb
  obtain ⟨⟨a, b'⟩, hpair, rfl⟩ := List.mem_map.mp hmem
  exact ⟨a, hpair⟩

/-- Every element of the first of two lists of one length has a partner in the second. -/
theorem exists_zip_of_mem_left (hlength : as.length = bs.length) (ha : a ∈ as) : ∃ b, (a, b) ∈ as.zip bs := by
  have hmem : a ∈ (as.zip bs).map Prod.fst := by
    rw [List.map_fst_zip hlength.le]
    exact ha
  obtain ⟨⟨a', b⟩, hpair, rfl⟩ := List.mem_map.mp hmem
  exact ⟨b, hpair⟩

end Orders

section Property

variable (hwxDir : String) (programs : List PairedProgram) (rows : List PairingRow)
  (files : List (String × HwxSignature))

/-- The program has these predicted input bytes, and the file assigned to it this input size. -/
def ResolvedAs (assignment : List (ℤ × String)) (i bytes size : ℕ) : Prop :=
  ∃ program name signature, programs[i]? = some program ∧ stagedInputBytes program = .ok bytes ∧
    find assignment (i : ℤ) = some name ∧ find files name = some signature ∧ signature.inputSize = size

/-- A pairing without a guess: every program has a file that exists, no file has two programs, every row
of the pairing file is respected, the unpaired programs of one class have files of one signature, and two
programs resolved by byte ordering differ in their predicted bytes and, the same way, in the input sizes
of their files. -/
structure NoGuess (assignment : List (ℤ × String)) : Prop where
  total : ∀ i < programs.length, ∃ name signature, find assignment (i : ℤ) = some name ∧
    find files name = some signature
  injective : ∀ i j name, i < programs.length → j < programs.length → find assignment (i : ℤ) = some name →
    find assignment (j : ℤ) = some name → i = j
  explicit : ∀ row ∈ rows, find assignment row.manifestIndex = some row.hwxProg
  homogeneous : ∀ i j program other name name', programs[i]? = some program → programs[j]? = some other →
    Unpaired rows i → Unpaired rows j → portClass program = portClass other →
      find assignment (i : ℤ) = some name → find assignment (j : ℤ) = some name' → find files name = find files name'
  ordered : ∀ m, matchClusters hwxDir programs rows files = .ok m → ∀ entry ∈ m.unresolved, ∀ other ∈ m.unresolved,
    ∀ i ∈ entry.2, ∀ j ∈ other.2, i ≠ j → ∃ bytes bytes' size size', ResolvedAs programs files assignment i bytes size ∧
      ResolvedAs programs files assignment j bytes' size' ∧
        (bytes < bytes' ∧ size < size' ∨ bytes' < bytes ∧ size' < size)

/-- A configuration that says which file a program gets: rows of one index name one file, and if two
programs are alone in their classes, no two such programs have the same predicted bytes and no two files
alone in their signatures the same input size. -/
structure Unambiguous : Prop where
  agreeing : ∀ row ∈ rows, ∀ row' ∈ rows, row.manifestIndex = row'.manifestIndex → row.hwxProg = row'.hwxProg
  distinctBytes : ∀ i j, AloneInClass programs rows i → AloneInClass programs rows j → i ≠ j →
    ∀ program other, programs[i]? = some program → programs[j]? = some other →
      stagedInputBytes program ≠ stagedInputBytes other
  distinctSizes : ∀ i j, AloneInClass programs rows i → AloneInClass programs rows j → i ≠ j →
    ∀ name name' signature signature', AloneInSignature rows files name signature →
      AloneInSignature rows files name' signature' → name ≠ name' → signature.inputSize ≠ signature'.inputSize

end Property

section Complete

variable (h : Complete programs rows files assignment)

include h in
theorem Complete.find_iff {key : ℤ} : find assignment key = some name ↔ (key, name) ∈ assignment :=
  find_eq_some_iff (h.keys.nodup_iff.mpr (nodup_pairKeys programs rows))

include h in
/-- Every program has a file that exists. -/
theorem Complete.total (hi : i < programs.length) :
    ∃ name signature, find assignment (i : ℤ) = some name ∧ find files name = some signature := by
  have hkey : (i : ℤ) ∈ assignment.map Prod.fst := h.keys.mem_iff.mpr (mem_pairKeys hi)
  obtain ⟨⟨key, name⟩, hpair, hcast⟩ := List.mem_map.mp hkey
  obtain ⟨rest, hnames⟩ := h.names
  have hname : name ∈ files.map Prod.fst := hnames.mem_iff.mp (List.mem_append_left _ (List.mem_map_of_mem hpair))
  obtain ⟨signature, hsignature⟩ := Option.ne_none_iff_exists'.mp (mt find_eq_none_iff.mp (not_not.mpr hname))
  exact ⟨name, signature, h.find_iff.mpr (hcast ▸ hpair), hsignature⟩

include h in
/-- No file has two programs. -/
theorem Complete.injective (hfiles : (files.map Prod.fst).Nodup) (hi : find assignment (i : ℤ) = some name)
    (hj : find assignment (j : ℤ) = some name) : i = j := by
  obtain ⟨rest, hnames⟩ := h.names
  have hnodup : (assignment.map Prod.snd).Nodup := (List.nodup_append.mp (hnames.nodup_iff.mpr hfiles)).1
  have hsame := List.inj_on_of_nodup_map hnodup (h.find_iff.mp hi) (h.find_iff.mp hj) rfl
  exact Int.ofNat_inj.mp (congrArg Prod.fst hsame)

include h in
/-- Every row is respected exactly when rows of one index agree. -/
theorem Complete.explicit_iff (hknown : knownPairs rows <+: assignment) :
    (∀ row ∈ rows, find assignment row.manifestIndex = some row.hwxProg) ↔
      ∀ row ∈ rows, ∀ row' ∈ rows, row.manifestIndex = row'.manifestIndex → row.hwxProg = row'.hwxProg := by
  constructor
  · intro hexplicit row hrow row' hrow' hindex
    have hfirst := hexplicit row hrow
    rw [hindex, hexplicit row' hrow'] at hfirst
    exact (Option.some.inj hfirst).symm
  · intro hagree row hrow
    have hlast : find (knownPairs rows) row.manifestIndex = some row.hwxProg := by
      rw [knownPairs, find_dict]
      refine find_of_unique (List.mem_reverse.mpr (List.mem_map.mpr ⟨row, hrow, rfl⟩)) fun other hother => ?_
      obtain ⟨row', hrow', heq⟩ := List.mem_map.mp (List.mem_reverse.mp hother)
      obtain ⟨hindex, rfl⟩ := Prod.mk.inj heq
      exact hagree row' hrow' row hrow hindex
    exact h.find_iff.mpr (hknown.subset (mem_of_find hlast))

end Complete

section Guesses

variable (h : ByInput programs m classes free)

include h in
/-- An entry of the order of the classes is an unresolved class of that program. -/
theorem ByInput.of_mem_classes (hmem : predicted ∈ classes) :
    ∃ entry ∈ m.unresolved, entry.2 = [(ofLex predicted).2] ∧ ∃ program,
      programs[(ofLex predicted).2]? = some program ∧ stagedInputBytes program = .ok (ofLex predicted).1 := by
  obtain ⟨k, hk, rfl⟩ := List.getElem_of_mem hmem
  have hk' : k < m.unresolved.length := by rw [h.predicted.length_eq]; exact hk
  obtain ⟨program, hentry, hprogram, hbytes⟩ := List.Forall₂.get h.predicted hk' hk
  exact ⟨m.unresolved[k], List.getElem_mem hk', hentry, program, hprogram, hbytes⟩

include h in
/-- An unresolved class is in the order of the classes. -/
theorem ByInput.of_mem_unresolved {entry : PortClass × List ℕ} (hmem : entry ∈ m.unresolved) :
    ∃ predicted ∈ classes, entry.2 = [(ofLex predicted).2] := by
  obtain ⟨k, hk, rfl⟩ := List.getElem_of_mem hmem
  have hk' : k < classes.length := by rw [← h.predicted.length_eq]; exact hk
  obtain ⟨program, hentry, -⟩ := List.Forall₂.get h.predicted hk hk'
  exact ⟨classes[k], List.getElem_mem hk', hentry⟩

include h in
/-- An entry of the order of the files is a cluster of that file, with its input size. -/
theorem ByInput.of_mem_free (hmem : file ∈ free) :
    ∃ signature, (signature, [(ofLex file).2]) ∈ m.clusters ∧ signature.inputSize = (ofLex file).1 := by
  obtain ⟨k, hk, rfl⟩ := List.getElem_of_mem hmem
  have hk' : k < m.clusters.length := by rw [h.sizes.length_eq]; exact hk
  obtain ⟨hcluster, hsize⟩ := List.Forall₂.get h.sizes hk' hk
  have hentry : m.clusters[k] = (m.clusters[k].1, [(ofLex free[k]).2]) := Prod.ext rfl hcluster
  exact ⟨m.clusters[k].1, hentry ▸ List.getElem_mem hk', hsize⟩

include h in
/-- A cluster is in the order of the files. -/
theorem ByInput.of_mem_clusters {cluster : HwxSignature × List String} (hmem : cluster ∈ m.clusters) :
    ∃ file ∈ free, cluster.2 = [(ofLex file).2] ∧ cluster.1.inputSize = (ofLex file).1 := by
  obtain ⟨k, hk, rfl⟩ := List.getElem_of_mem hmem
  have hk' : k < free.length := by rw [← h.sizes.length_eq]; exact hk
  obtain ⟨hcluster, hsize⟩ := List.Forall₂.get h.sizes hk hk'
  exact ⟨free[k], List.getElem_mem hk', hcluster, hsize⟩

include h in
/-- When the two orders are matched, the classes are those of one program, and the files those alone in
their signatures. -/
theorem ByInput.left_alone (hm : Passed programs rows files m) (hne : m.unresolved ≠ []) :
    m.unresolved = lone (byClass programs (knownPairs rows)) ∧
      ∀ name signature, (signature, [name]) ∈ m.clusters ↔ AloneInSignature rows files name signature := by
  have hunresolved : lone m.unresolved = m.unresolved := by
    refine List.filter_eq_self.mpr fun entry hentry => decide_eq_true ?_
    obtain ⟨predicted, -, hone⟩ := h.of_mem_unresolved hentry
    rw [hone]
    rfl
  have hclusters : lone m.clusters = m.clusters := by
    refine List.filter_eq_self.mpr fun cluster hcluster => decide_eq_true ?_
    obtain ⟨file, -, hone, -⟩ := h.of_mem_clusters hcluster
    rw [hone]
    rfl
  have hlength : m.unresolved.length = m.clusters.length := by
    rw [h.predicted.length_eq, h.sizes.length_eq, h.same]
  have hleft : lone m.clusters ≠ [] := by
    rw [hclusters]
    intro hnone
    rw [hnone] at hlength
    exact hne (List.eq_nil_of_length_eq_zero hlength)
  obtain ⟨hkept, halone⟩ := hm.kept hleft
  rw [hunresolved] at hkept
  exact ⟨hkept, halone⟩

include h in
/-- The orders are matched program by program and file by file. -/
theorem ByInput.lengths : (sorted classes).length = (sorted free).length := by
  rw [sorted, sorted, List.length_insertionSort, List.length_insertionSort, h.same]

include h in
/-- A matched program has its predicted bytes, and its file has its input size. -/
theorem ByInput.resolved (hm : Passed programs rows files m) (hcomplete : Complete programs rows files assignment)
    (hassigned : ∀ pair ∈ (sorted classes).zip (sorted free), (((ofLex pair.1).2 : ℤ), (ofLex pair.2).2) ∈ assignment)
    {pair : (ℕ ×ₗ ℕ) × (ℕ ×ₗ String)} (hpair : pair ∈ (sorted classes).zip (sorted free)) :
    ResolvedAs programs files assignment (ofLex pair.1).2 (ofLex pair.1).1 (ofLex pair.2).1 := by
  obtain ⟨hclass, hfile⟩ := List.of_mem_zip hpair
  obtain ⟨-, -, -, program, hprogram, hbytes⟩ := h.of_mem_classes (mem_sorted.mp hclass)
  obtain ⟨signature, hcluster, hsize⟩ := h.of_mem_free (mem_sorted.mp hfile)
  have hfound := (hm.balanced.clusters _ hcluster).2 _ List.mem_cons_self
  exact ⟨program, _, signature, hprogram, hbytes, hcomplete.find_iff.mpr (hassigned pair hpair),
    hm.balanced.files _ _ hfound, hsize⟩

include h in
/-- Two files of the order have two programs. -/
theorem ByInput.partners (hcomplete : Complete programs rows files assignment)
    (hassigned : ∀ pair ∈ (sorted classes).zip (sorted free), (((ofLex pair.1).2 : ℤ), (ofLex pair.2).2) ∈ assignment)
    {file' : ℕ ×ₗ String} (hfile : file ∈ free) (hfile' : file' ∈ free) (hne : (ofLex file).2 ≠ (ofLex file').2) :
    ∃ predicted predicted', (predicted, file) ∈ (sorted classes).zip (sorted free) ∧
      (predicted', file') ∈ (sorted classes).zip (sorted free) ∧ (ofLex predicted).2 ≠ (ofLex predicted').2 := by
  obtain ⟨predicted, hpair⟩ := exists_zip_of_mem_right h.lengths (mem_sorted.mpr hfile)
  obtain ⟨predicted', hpair'⟩ := exists_zip_of_mem_right h.lengths (mem_sorted.mpr hfile')
  refine ⟨predicted, predicted', hpair, hpair', fun hsame => hne ?_⟩
  have hfound := hcomplete.find_iff.mpr (hassigned _ hpair)
  have hfound' := hcomplete.find_iff.mpr (hassigned _ hpair')
  dsimp only at hfound hfound'
  rw [hsame, hfound'] at hfound
  exact (Option.some.inj hfound).symm

include h in
/-- The program of a matched class is alone in its class. -/
theorem ByInput.aloneInClass (hm : Passed programs rows files m) (hmem : predicted ∈ classes) :
    AloneInClass programs rows (ofLex predicted).2 := by
  obtain ⟨entry, hentry, hone, -⟩ := h.of_mem_classes hmem
  rw [(h.left_alone hm (List.ne_nil_of_mem hentry)).1] at hentry
  have hlone : (entry.1, [(ofLex predicted).2]) ∈ byClass programs (knownPairs rows) := by
    rw [← hone]
    exact (List.mem_filter.mp hentry).1
  exact (mem_lone_byClass.mp hlone).1

include h in
/-- The file of a matched cluster is alone in its signature. -/
theorem ByInput.aloneInSignature (hm : Passed programs rows files m) (hmem : file ∈ free) :
    ∃ signature, AloneInSignature rows files (ofLex file).2 signature ∧ signature.inputSize = (ofLex file).1 := by
  obtain ⟨signature, hcluster, hsize⟩ := h.of_mem_free hmem
  have hne : m.unresolved ≠ [] := by
    intro hnone
    have hlength : m.unresolved.length = m.clusters.length := by
      rw [h.predicted.length_eq, h.sizes.length_eq, h.same]
    rw [hnone] at hlength
    rw [List.eq_nil_of_length_eq_zero hlength.symm] at hcluster
    cases hcluster
  exact ⟨signature, ((h.left_alone hm hne).2 _ _).mp hcluster, hsize⟩

include h in
/-- On an unambiguous configuration both orders are strict, so the matched programs and files are ordered
the same way. -/
theorem ByInput.ordered (hm : Passed programs rows files m) (hfiles : (files.map Prod.fst).Nodup)
    (hcomplete : Complete programs rows files assignment)
    (hassigned : ∀ pair ∈ (sorted classes).zip (sorted free), (((ofLex pair.1).2 : ℤ), (ofLex pair.2).2) ∈ assignment)
    (hclear : Unambiguous programs rows files) {pair pair' : (ℕ ×ₗ ℕ) × (ℕ ×ₗ String)}
    (hpair : pair ∈ (sorted classes).zip (sorted free)) (hpair' : pair' ∈ (sorted classes).zip (sorted free))
    (hne : (ofLex pair.1).2 ≠ (ofLex pair'.1).2) :
    (ofLex pair.1).1 < (ofLex pair'.1).1 ∧ (ofLex pair.2).1 < (ofLex pair'.2).1 ∨
      (ofLex pair'.1).1 < (ofLex pair.1).1 ∧ (ofLex pair'.2).1 < (ofLex pair.2).1 := by
  obtain ⟨hindexes, hnames⟩ := h.left
  have hkeys := hm.balanced.keys.nodup_iff.mpr (nodup_pairKeys programs rows)
  have htaken := hm.balanced.names.nodup_iff.mpr hfiles
  have hclasses : (sorted classes).Pairwise fun a b => (ofLex a).1 < (ofLex b).1 := by
    apply sorted_strict
    · rw [hindexes]
      have hcast := (List.nodup_append.mp hkeys).2.1
      rw [List.append_nil] at hcast
      exact List.Nodup.of_map _ hcast
    · intro a ha b hb hab hsame
      obtain ⟨-, -, -, program, hprogram, hbytes⟩ := h.of_mem_classes ha
      obtain ⟨-, -, -, other, hother, hbytes'⟩ := h.of_mem_classes hb
      refine hclear.distinctBytes _ _ (h.aloneInClass hm ha) (h.aloneInClass hm hb) hab program other hprogram hother ?_
      rw [hbytes, hbytes', hsame]
  have hfree : (sorted free).Pairwise fun a b => (ofLex a).1 < (ofLex b).1 := by
    apply sorted_strict
    · rw [hnames]
      exact (List.nodup_append.mp htaken).2.1
    · intro a ha b hb hab
      obtain ⟨predicted, predicted', hfirst, hsecond, hindex⟩ := h.partners hcomplete hassigned ha hb hab
      have hleft := h.aloneInClass hm (mem_sorted.mp (List.of_mem_zip hfirst).1)
      have hright := h.aloneInClass hm (mem_sorted.mp (List.of_mem_zip hsecond).1)
      obtain ⟨signature, halone, hsize⟩ := h.aloneInSignature hm ha
      obtain ⟨signature', halone', hsize'⟩ := h.aloneInSignature hm hb
      rw [← hsize, ← hsize']
      exact hclear.distinctSizes _ _ hleft hright hindex _ _ _ _ halone halone' hab
  rcases zip_ordered hclasses hfree hpair hpair' with rfl | horder
  · exact absurd rfl hne
  · exact horder

end Guesses

section Conditions

/-- A program alone in its class is a class of one program. -/
theorem mem_lone_of_alone (h : AloneInClass programs rows i) :
    ∃ cls, (cls, [i]) ∈ lone (byClass programs (knownPairs rows)) := by
  obtain ⟨program, hprogram, -⟩ := id h
  exact ⟨portClass program, List.mem_filter.mpr ⟨mem_lone_byClass.mpr ⟨h, program, hprogram, rfl⟩, rfl⟩⟩

/-- The elements of a list of at most one are the same. -/
theorem eq_of_length_le_one {values : List α} (h : values.length ≤ 1) {b : α} (ha : a ∈ values) (hb : b ∈ values) :
    a = b := by
  obtain ⟨k, hk, rfl⟩ := List.getElem_of_mem ha
  obtain ⟨l, hl, rfl⟩ := List.getElem_of_mem hb
  obtain rfl : k = l := by omega
  rfl

/-- With two programs alone in their classes some class stays unresolved. -/
theorem Passed.unresolved_ne_nil (hm : Passed programs rows files m) (hi : AloneInClass programs rows i)
    (hj : AloneInClass programs rows j) (hne : i ≠ j) : m.unresolved ≠ [] := by
  obtain ⟨cls, hcls⟩ := mem_lone_of_alone hi
  obtain ⟨cls', hcls'⟩ := mem_lone_of_alone hj
  intro hnone
  have hfew := hm.few
  rw [hnone] at hfew
  have hone : (lone (byClass programs (knownPairs rows))).length ≤ 1 := hfew
  exact hne (List.singleton_inj.mp (congrArg Prod.snd (eq_of_length_le_one hone hcls hcls')))

/-- A resolved program has one number of predicted bytes. -/
theorem ResolvedAs.bytes_eq {bytes size : ℕ} (h : ResolvedAs programs files assignment i bytes size)
    (hprogram : programs[i]? = some program) : stagedInputBytes program = .ok bytes := by
  obtain ⟨found, -, -, hfound, hbytes, -⟩ := h
  obtain rfl := Option.mem_unique hfound hprogram
  exact hbytes

/-- The size of a resolved program is the input size of the file it is assigned. -/
theorem ResolvedAs.size_eq {bytes size : ℕ} (h : ResolvedAs programs files assignment i bytes size)
    (hname : find assignment (i : ℤ) = some name) (hfile : find files name = some signature) :
    size = signature.inputSize := by
  obtain ⟨-, found, foundSignature, -, -, hfound, hsignature, rfl⟩ := h
  obtain rfl := Option.mem_unique hfound hname
  rw [hfile] at hsignature
  rw [Option.some.inj hsignature]

/-- The unpaired programs of one class have files of one signature. -/
theorem Passed.homogeneous (hm : Passed programs rows files m) (hcomplete : Complete programs rows files assignment)
    (hgrown : m.assignment <+: assignment) (hend : m.unresolved = [] ∨ ∃ classes free, ByInput programs m classes free)
    {other : PairedProgram} {name' : String} (hprogram : programs[i]? = some program)
    (hother : programs[j]? = some other) (hfree : Unpaired rows i) (hfree' : Unpaired rows j)
    (hclass : portClass program = portClass other) (hname : find assignment (i : ℤ) = some name)
    (hname' : find assignment (j : ℤ) = some name') : find files name = find files name' := by
  have hi := mem_valuesOf.mpr (mem_remaining.mpr ⟨program, hprogram, hfree, rfl⟩)
  have hj := mem_valuesOf.mpr (mem_remaining.mpr ⟨other, hother, hfree', hclass.symm⟩)
  have hentry := @mem_byClass programs rows (portClass program,
    valuesOf (remaining programs (knownPairs rows)) (portClass program)) |>.mpr ⟨List.ne_nil_of_mem hi, rfl⟩
  rcases hm.classes _ hentry with ⟨signature, hsame⟩ | hunresolved
  · obtain ⟨found, hmem, hsignature⟩ := hsame i hi
    obtain ⟨found', hmem', hsignature'⟩ := hsame j hj
    rw [hcomplete.find_iff.mpr (hgrown.subset hmem)] at hname
    rw [hcomplete.find_iff.mpr (hgrown.subset hmem')] at hname'
    rw [← Option.some.inj hname, ← Option.some.inj hname', hsignature, hsignature']
  · obtain ⟨classes, free, hby⟩ := hend.resolve_left (List.ne_nil_of_mem hunresolved)
    obtain ⟨predicted, -, hone⟩ := hby.of_mem_unresolved hunresolved
    dsimp only at hone
    rw [hone, List.mem_singleton] at hi hj
    rw [hi] at hname
    rw [hj, hname] at hname'
    rw [Option.some.inj hname']

/-- Programs resolved in one order differ in their predicted bytes. -/
theorem NoGuess.distinctBytes (h : NoGuess hwxDir programs rows files assignment)
    (hmatched : matchClusters hwxDir programs rows files = .ok m)
    (hclasses : m.unresolved = lone (byClass programs (knownPairs rows))) {other : PairedProgram}
    (hi : AloneInClass programs rows i) (hj : AloneInClass programs rows j) (hne : i ≠ j)
    (hprogram : programs[i]? = some program) (hother : programs[j]? = some other) :
    stagedInputBytes program ≠ stagedInputBytes other := by
  intro hsame
  obtain ⟨cls, hcls⟩ := mem_lone_of_alone hi
  obtain ⟨cls', hcls'⟩ := mem_lone_of_alone hj
  rw [← hclasses] at hcls hcls'
  obtain ⟨bytes, bytes', size, size', hfirst, hsecond, horder⟩ :=
    h.ordered m hmatched _ hcls _ hcls' i List.mem_cons_self j List.mem_cons_self hne
  have hbytes := hfirst.bytes_eq hprogram
  rw [hsame, hsecond.bytes_eq hother] at hbytes
  have hequal : bytes' = bytes := Except.ok.inj hbytes
  omega

/-- Files matched in one order differ in their input sizes. -/
theorem NoGuess.distinctSizes (h : NoGuess hwxDir programs rows files assignment)
    (hmatched : matchClusters hwxDir programs rows files = .ok m) (hby : ByInput programs m classes free)
    (hcomplete : Complete programs rows files assignment)
    (hassigned : ∀ pair ∈ (sorted classes).zip (sorted free), (((ofLex pair.1).2 : ℤ), (ofLex pair.2).2) ∈ assignment)
    {file' : ℕ ×ₗ String} (hfile : file ∈ free) (hfile' : file' ∈ free) (hne : (ofLex file).2 ≠ (ofLex file').2)
    {signature' : HwxSignature} (hsignature : find files (ofLex file).2 = some signature)
    (hsignature' : find files (ofLex file').2 = some signature') : signature.inputSize ≠ signature'.inputSize := by
  obtain ⟨predicted, predicted', hfirst, hsecond, hindex⟩ := hby.partners hcomplete hassigned hfile hfile' hne
  obtain ⟨entry, hentry, hclass, -⟩ := hby.of_mem_classes (mem_sorted.mp (List.of_mem_zip hfirst).1)
  obtain ⟨entry', hentry', hclass', -⟩ := hby.of_mem_classes (mem_sorted.mp (List.of_mem_zip hsecond).1)
  obtain ⟨bytes, bytes', size, size', hres, hres', horder⟩ := h.ordered m hmatched entry hentry entry' hentry' _
    (hclass ▸ List.mem_cons_self) _ (hclass' ▸ List.mem_cons_self) hindex
  have hsize := hres.size_eq (hcomplete.find_iff.mpr (hassigned _ hfirst)) hsignature
  have hsize' := hres'.size_eq (hcomplete.find_iff.mpr (hassigned _ hsecond)) hsignature'
  omega

end Conditions

/-- A pairing that goes through makes no guess exactly when the configuration is unambiguous. -/
theorem pairPrograms_noGuess_iff (hwxDir : String) (programs : List PairedProgram) (rows : List PairingRow)
    (files : List (String × HwxSignature)) (assignment : List (ℤ × String)) (hfiles : (files.map Prod.fst).Nodup)
    (hpair : pairPrograms hwxDir programs rows files = .ok assignment) :
    NoGuess hwxDir programs rows files assignment ↔ Unambiguous programs rows files := by
  obtain ⟨m, hmatched, hm, hcomplete, hgrown, hend⟩ := pairPrograms_eq_ok hfiles hpair
  have hexplicit := hcomplete.explicit_iff (hm.known.trans hgrown)
  constructor
  · intro h
    refine ⟨hexplicit.mp h.explicit, fun i j hi hj hne program other hprogram hother => ?_,
      fun i j hi hj hne name name' signature signature' hname hname' hfile => ?_⟩
    · have hleft := hm.unresolved_ne_nil hi hj hne
      obtain ⟨classes, free, hby, -⟩ := hend.resolve_left hleft
      exact h.distinctBytes hmatched (hby.left_alone hm hleft).1 hi hj hne hprogram hother
    · have hleft := hm.unresolved_ne_nil hi hj hne
      obtain ⟨classes, free, hby, hassigned⟩ := hend.resolve_left hleft
      obtain ⟨-, hclusters⟩ := hby.left_alone hm hleft
      obtain ⟨file, hmem, hone, -⟩ := hby.of_mem_clusters ((hclusters name signature).mpr hname)
      obtain ⟨file', hmem', hone', -⟩ := hby.of_mem_clusters ((hclusters name' signature').mpr hname')
      obtain rfl : name = (ofLex file).2 := List.singleton_inj.mp hone
      obtain rfl : name' = (ofLex file').2 := List.singleton_inj.mp hone'
      exact h.distinctSizes hmatched hby hcomplete hassigned hmem hmem' hfile hname.1.1 hname'.1.1
  · intro h
    refine ⟨fun i hi => hcomplete.total hi, fun i j name _ _ hi hj => hcomplete.injective hfiles hi hj,
      hexplicit.mpr h.agreeing, fun i j program other name name' hprogram hother hfree hfree' hclass =>
        hm.homogeneous hcomplete hgrown (hend.imp_right fun ⟨classes, free, hby, _⟩ => ⟨classes, free, hby⟩)
          hprogram hother hfree hfree' hclass, fun m' hmatched' entry hentry other hother i hi j hj hne => ?_⟩
    obtain rfl : m = m' := Except.ok.inj (hmatched.symm.trans hmatched')
    obtain ⟨classes, free, hby, hassigned⟩ := hend.resolve_left (List.ne_nil_of_mem hentry)
    obtain ⟨predicted, hmem, hone⟩ := hby.of_mem_unresolved hentry
    obtain ⟨predicted', hmem', hone'⟩ := hby.of_mem_unresolved hother
    rw [hone, List.mem_singleton] at hi
    rw [hone', List.mem_singleton] at hj
    obtain ⟨file, hpaired⟩ := exists_zip_of_mem_left hby.lengths (mem_sorted.mpr hmem)
    obtain ⟨file', hpaired'⟩ := exists_zip_of_mem_left hby.lengths (mem_sorted.mpr hmem')
    rw [hi, hj] at hne ⊢
    exact ⟨_, _, _, _, hby.resolved hm hcomplete hassigned hpaired, hby.resolved hm hcomplete hassigned hpaired',
      hby.ordered hm hfiles hcomplete hassigned h hpaired hpaired' hne⟩

/-- A program without context inputs and one that starts a group, with the given numbers of values. -/
def twoClasses (first second : ℕ) : List PairedProgram :=
  [⟨[⟨"in", .lane, "x", [1, first]⟩], [⟨.lane, "y"⟩], false⟩, ⟨[⟨"in", .lane, "y", [1, second]⟩], [⟨.lane, "z"⟩], true⟩]

/-- Two files that differ in their input sizes. -/
def twoFiles : List (String × HwxSignature) :=
  [("prog_000", ⟨0x4000, 0x4000, 0, 1, 0x100, false, 0x300⟩), ("prog_001", ⟨0x8000, 0x4000, 0, 1, 0x100, false, 0x300⟩)]

theorem pairPrograms_noGuess_iff_two : pairPrograms "hwx" (twoClasses 64 32) [] twoFiles =
      .ok [(1, "prog_000"), (0, "prog_001")] ∧
    NoGuess "hwx" (twoClasses 64 32) [] twoFiles [(1, "prog_000"), (0, "prog_001")] := by
  have hpair : pairPrograms "hwx" (twoClasses 64 32) [] twoFiles = .ok [(1, "prog_000"), (0, "prog_001")] := by
    decide +kernel
  have hbytes : ∀ i < 2, ∀ j < 2, i ≠ j → ((twoClasses 64 32)[i]?.map stagedInputBytes) ≠
      (twoClasses 64 32)[j]?.map stagedInputBytes := by decide +kernel
  have hsizes : ∀ file ∈ twoFiles, ∀ other ∈ twoFiles, file.1 ≠ other.1 → file.2.inputSize ≠ other.2.inputSize := by
    decide
  refine ⟨hpair, (pairPrograms_noGuess_iff _ _ _ _ _ (by decide) hpair).mpr ⟨?_, ?_, ?_⟩⟩
  · intro row hrow
    cases hrow
  · intro i j _ _ hne program other hprogram hother hsame
    refine hbytes i (List.getElem?_eq_some_iff.mp hprogram).1 j (List.getElem?_eq_some_iff.mp hother).1 hne ?_
    rw [hprogram, hother, Option.map_some, Option.map_some, hsame]
  · intro i j _ _ _ name name' signature signature' hname hname' hne
    exact hsizes _ (mem_of_find hname.1.1) _ (mem_of_find hname'.1.1) hne

/-- Two programs with the same predicted bytes get their files by the order of their indexes, and of two
rows for one program the first is dropped. -/
theorem pairPrograms_guesses : pairPrograms "hwx" (twoClasses 32 32) [] twoFiles =
      .ok [(0, "prog_000"), (1, "prog_001")] ∧
    ¬ NoGuess "hwx" (twoClasses 32 32) [] twoFiles [(0, "prog_000"), (1, "prog_001")] ∧
    pairPrograms "hwx" (twoClasses 32 32) [⟨0, "prog_000"⟩, ⟨0, "prog_001"⟩] twoFiles =
      .ok [(0, "prog_001"), (1, "prog_000")] ∧
    ¬ NoGuess "hwx" (twoClasses 32 32) [⟨0, "prog_000"⟩, ⟨0, "prog_001"⟩] twoFiles
      [(0, "prog_001"), (1, "prog_000")] := by
  refine ⟨by decide +kernel, fun h => ?_, by decide +kernel, fun h => ?_⟩
  · obtain ⟨m, hmatched, hunresolved⟩ := @exists_ok_of_map _ _ _ (matchClusters "hwx" (twoClasses 32 32) [] twoFiles)
      Matching.unresolved [(.A, [1]), (.C, [0])] (by decide +kernel)
    have hordered := h.ordered m hmatched
    rw [hunresolved] at hordered
    obtain ⟨bytes, bytes', size, size', hfirst, hsecond, horder⟩ := hordered (.C, [0]) (by decide) (.A, [1]) (by decide)
      0 (by decide) 1 (by decide) (by decide)
    have hbytes : bytes = 64 := Except.ok.inj ((hfirst.bytes_eq rfl).symm.trans rfl)
    have hbytes' : bytes' = 64 := Except.ok.inj ((hsecond.bytes_eq rfl).symm.trans rfl)
    omega
  · exact absurd (h.explicit ⟨0, "prog_000"⟩ (by decide)) (by decide)

end AneLinux.Staged
