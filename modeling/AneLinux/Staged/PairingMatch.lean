import AneLinux.Staged.HwxPairing

/-!
# What the phases of the pairing keep

Every phase moves a program and a file from what is left to what is assigned, so the programs
assigned, unresolved and still to match are always the same programs, and the files assigned and still
in clusters the same files. The clusters of one file show which way the pass over the classes went:
they are all kept, or one class has taken the only one.
-/

namespace AneLinux.Staged

open AneLinux.Support

/-! ## The explicit pairs -/

/-- The explicit pairs are all assigned, each with a file of its own. -/
theorem assignKnown_eq_ok {todo assignment : List (ℤ × String)} {files left : List (String × HwxSignature)}
    {result : List (ℤ × String)} (h : assignKnown todo assignment files = .ok (result, left))
    (hkeys : (assignment.map Prod.fst ++ todo.map Prod.fst).Nodup) (hfiles : (files.map Prod.fst).Nodup) :
    result = assignment ++ todo ∧ (todo.map Prod.snd ++ left.map Prod.fst).Perm (files.map Prod.fst) ∧
      (left.map Prod.fst).Nodup ∧
        ∀ name, find left name = if name ∈ todo.map Prod.snd then none else find files name := by
  induction todo generalizing assignment files with
  | nil =>
    obtain ⟨rfl, rfl⟩ := Prod.mk.inj (Except.ok.inj h)
    exact ⟨(List.append_nil _).symm, List.Perm.refl _, hfiles, fun name => rfl⟩
  | cons pair rest ih =>
    obtain ⟨i, name⟩ := pair
    rw [assignKnown] at h
    cases hfind : find files name with
    | none =>
      rw [if_pos hfind] at h
      cases h
    | some signature =>
      rw [if_neg (by rw [hfind]; exact Option.some_ne_none _)] at h
      rw [List.map_cons] at hkeys
      have hmissing : find assignment i = none := by
        refine find_eq_none_iff.mpr fun hmem => ?_
        exact List.disjoint_of_nodup_append hkeys hmem List.mem_cons_self
      rw [assign_of_find_none hmissing] at h
      have hkeys' : ((assignment ++ [(i, name)]).map Prod.fst ++ rest.map Prod.fst).Nodup := by
        rw [List.map_append, List.append_assoc]
        exact hkeys
      obtain ⟨rfl, hnames, hleft, hfound⟩ := ih h hkeys' (nodup_keys_del hfiles name)
      have htaken := (perm_cons_del hfiles (mem_of_find hfind)).map Prod.fst
      refine ⟨by rw [List.append_assoc]; rfl, (hnames.cons name).trans htaken, hleft, fun other => ?_⟩
      rw [hfound, find_del, List.map_cons]
      by_cases hother : other ∈ rest.map Prod.snd
      · rw [if_pos hother, if_pos (List.mem_cons_of_mem _ hother)]
      · rw [if_neg hother]
        by_cases hsame : name = other
        · rw [if_pos hsame, if_pos (hsame ▸ List.mem_cons_self)]
        · rw [if_neg hsame, if_neg]
          rw [List.mem_cons, not_or]
          exact ⟨Ne.symm hsame, hother⟩

/-! ## Classes and clusters -/

variable {entry : PortClass × List ℕ} {todo : List (PortClass × List ℕ)} {m : Matching}

section Pass

variable {keys : List ℤ} {names : List String} {files : List (String × HwxSignature)}

/-- The program indexes of some classes. -/
def indexesOf (classes : List (PortClass × List ℕ)) : List ℤ := (classes.flatMap Prod.snd).map Nat.cast

theorem indexesOf_append (classes classes' : List (PortClass × List ℕ)) :
    indexesOf (classes ++ classes') = indexesOf classes ++ indexesOf classes' := by
  rw [indexesOf, List.flatMap_append, List.map_append]
  rfl

/-- The programs assigned, unresolved and still to match are `keys`; the files assigned and in clusters
are `names`; the clusters hold files of their signature. -/
structure Balanced (keys : List ℤ) (names : List String) (files : List (String × HwxSignature))
    (todo : List (PortClass × List ℕ)) (m : Matching) : Prop where
  keys : (m.assignment.map Prod.fst ++ indexesOf (m.unresolved ++ todo)).Perm keys
  names : (m.assignment.map Prod.snd ++ m.clusters.flatMap Prod.snd).Perm names
  clusterKeys : (m.clusters.map Prod.fst).Nodup
  clusters : ∀ cluster ∈ m.clusters, cluster.2 ≠ [] ∧ ∀ name ∈ cluster.2, find m.files name = some cluster.1
  files : ∀ name signature, find m.files name = some signature → find files name = some signature

/-- New programs are assigned at the end. -/
theorem assignAll_eq_append {pairs : List (ℕ × String)} {assignment : List (ℤ × String)}
    (h : (assignment.map Prod.fst ++ (pairs.map Prod.fst).map Nat.cast).Nodup) :
    assignAll pairs assignment = assignment ++ pairs.map fun pair => ((pair.1 : ℤ), pair.2) := by
  have hcast : pairs.foldl (fun assignment pair => assign assignment (pair.1 : ℤ) pair.2) assignment =
      (pairs.map fun pair => ((pair.1 : ℤ), pair.2)).foldl (fun table pair => assign table pair.1 pair.2)
        assignment := by
    rw [List.foldl_map]
  rw [assignAll, hcast]
  apply foldl_assign_eq_append
  rw [List.map_map]
  rw [List.map_map] at h
  exact h

/-- Taken files are gone, and the others stay. -/
theorem find_takeFiles (taken : List String) (files : List (String × HwxSignature)) (name : String) :
    find (takeFiles taken files) name = if name ∈ taken then none else find files name := by
  unfold takeFiles
  induction taken generalizing files with
  | nil => rfl
  | cons first rest ih =>
    rw [List.foldl_cons, ih, find_del]
    by_cases hrest : name ∈ rest
    · rw [if_pos hrest, if_pos (List.mem_cons_of_mem _ hrest)]
    · rw [if_neg hrest]
      by_cases hfirst : first = name
      · rw [if_pos hfirst, if_pos (hfirst ▸ List.mem_cons_self)]
      · rw [if_neg hfirst, if_neg]
        rw [List.mem_cons, not_or]
        exact ⟨Ne.symm hfirst, hrest⟩

/-- What one class does: it takes the only cluster of its size, file by file, or stays unresolved. -/
theorem matchClass_cases (m : Matching) (entry : PortClass × List ℕ) :
    (∃ cluster, (m.clusters.filter fun cluster => cluster.2.length = entry.2.length) = [cluster] ∧
        matchClass m entry = ⟨assignAll (entry.2.zip (sorted cluster.2)) m.assignment,
          takeFiles (sorted cluster.2) m.files, del m.clusters cluster.1, m.unresolved⟩) ∨
      (∀ cluster, (m.clusters.filter fun cluster => cluster.2.length = entry.2.length) ≠ [cluster]) ∧
        matchClass m entry = { m with unresolved := m.unresolved ++ [entry] } := by
  unfold matchClass
  split
  · rename_i cluster hcandidates
    refine Or.inl ⟨cluster, hcandidates, ?_⟩
    have hmem : cluster ∈ m.clusters.filter fun cluster => cluster.2.length = entry.2.length := by
      rw [hcandidates]
      exact List.mem_cons_self
    have hlength : cluster.2.length = entry.2.length := of_decide_eq_true (List.mem_filter.mp hmem).2
    have htaken : (entry.2.zip (sorted cluster.2)).map Prod.snd = sorted cluster.2 := by
      apply List.map_snd_zip
      rw [sorted, List.length_insertionSort, hlength]
    rw [htaken]
  · rename_i hcandidates
    exact Or.inr ⟨hcandidates, rfl⟩

/-- The only cluster of a size is a cluster of that size. -/
theorem mem_of_filter_eq_singleton {α : Type*} {p : α → Bool} {values : List α} {a : α}
    (h : values.filter p = [a]) : a ∈ values ∧ p a = true := by
  have hmem : a ∈ values.filter p := by
    rw [h]
    exact List.mem_cons_self
  exact List.mem_filter.mp hmem

/-- The pairs of a class and its cluster. -/
def classPairs (entry : PortClass × List ℕ) (cluster : HwxSignature × List String) : List (ℤ × String) :=
  (entry.2.zip (sorted cluster.2)).map fun pair => ((pair.1 : ℤ), pair.2)

/-- The pairs go over all programs of the class and all files of the cluster. -/
theorem classPairs_perm {cluster : HwxSignature × List String} (h : cluster.2.length = entry.2.length) :
    (classPairs entry cluster).map Prod.fst = entry.2.map Nat.cast ∧
      ((classPairs entry cluster).map Prod.snd).Perm cluster.2 := by
  have hlength : (sorted cluster.2).length = entry.2.length := by
    rw [sorted, List.length_insertionSort, h]
  unfold classPairs
  rw [List.map_map, List.map_map]
  constructor
  · change (entry.2.zip (sorted cluster.2)).map (Nat.cast ∘ Prod.fst) = _
    rw [← List.map_map, List.map_fst_zip hlength.ge]
  · change ((entry.2.zip (sorted cluster.2)).map Prod.snd).Perm cluster.2
    rw [List.map_snd_zip hlength.le]
    exact List.perm_insertionSort (· ≤ ·) cluster.2

/-- A class without files is put aside. -/
theorem Balanced.postpone (h : Balanced keys names files (entry :: todo) m) :
    Balanced keys names files todo { m with unresolved := m.unresolved ++ [entry] } := by
  refine ⟨?_, h.names, h.clusterKeys, h.clusters, h.files⟩
  have hkeys := h.keys
  rw [List.append_cons] at hkeys
  exact hkeys

/-- A class with its cluster is settled: its pairs are new, and the other clusters keep their files. -/
theorem Balanced.settle {cluster : HwxSignature × List String} (h : Balanced keys names files (entry :: todo) m)
    (hkeys : keys.Nodup) (hcluster : cluster ∈ m.clusters) (hlength : cluster.2.length = entry.2.length) :
    assignAll (entry.2.zip (sorted cluster.2)) m.assignment = m.assignment ++ classPairs entry cluster ∧
      Balanced keys names files todo ⟨m.assignment ++ classPairs entry cluster,
        takeFiles (sorted cluster.2) m.files, del m.clusters cluster.1, m.unresolved⟩ := by
  obtain ⟨hfst, hsnd⟩ := classPairs_perm hlength
  have hsplit : (m.assignment.map Prod.fst ++ entry.2.map Nat.cast ++ indexesOf (m.unresolved ++ todo)).Perm keys := by
    refine List.Perm.trans ?_ h.keys
    rw [indexesOf_append, indexesOf_append, indexesOf, indexesOf, indexesOf, List.flatMap_cons, List.map_append,
      List.append_assoc]
    refine List.Perm.append_left _ ?_
    rw [← List.append_assoc, ← List.append_assoc]
    exact List.perm_append_comm.append_right _
  have hfresh : (m.assignment.map Prod.fst ++ entry.2.map Nat.cast).Nodup :=
    (List.nodup_append.mp (hsplit.nodup_iff.mpr hkeys)).1
  constructor
  · apply assignAll_eq_append
    rw [List.map_fst_zip (by rw [sorted, List.length_insertionSort, hlength])]
    exact hfresh
  · refine ⟨?_, ?_, nodup_keys_del h.clusterKeys cluster.1, fun other hother => ?_, fun name signature hfind => ?_⟩
    · rw [List.map_append, hfst]
      exact hsplit
    · have htaken : (cluster.2 ++ (del m.clusters cluster.1).flatMap Prod.snd).Perm (m.clusters.flatMap Prod.snd) :=
        (perm_cons_del h.clusterKeys hcluster).flatMap_right Prod.snd
      rw [List.map_append, List.append_assoc]
      exact ((hsnd.append_right _).trans htaken).append_left _ |>.trans h.names
    · obtain ⟨hmem, hne⟩ := List.mem_filter.mp hother
      obtain ⟨hfull, hfiles⟩ := h.clusters other hmem
      refine ⟨hfull, fun name hname => ?_⟩
      rw [find_takeFiles, if_neg]
      · exact hfiles name hname
      · intro htaken
        have hsame := (h.clusters cluster hcluster).2 name (mem_sorted.mp htaken)
        exact of_decide_eq_true hne (Option.mem_unique (hfiles name hname) hsame)
    · rw [find_takeFiles] at hfind
      split_ifs at hfind
      exact h.files name signature hfind

/-- A class that is not put aside has its programs assigned to files of one signature. -/
def OneSignature (files : List (String × HwxSignature)) (assignment : List (ℤ × String)) (entry : PortClass × List ℕ) :
    Prop :=
  ∃ signature, ∀ i ∈ entry.2, ∃ name, ((i : ℤ), name) ∈ assignment ∧ find files name = some signature

/-- One class: the balance is kept, the assignment grows at its end, classes stay put aside, and the
class is settled or put aside. -/
theorem Balanced.step (h : Balanced keys names files (entry :: todo) m) (hkeys : keys.Nodup) :
    Balanced keys names files todo (matchClass m entry) ∧ m.assignment <+: (matchClass m entry).assignment ∧
      m.unresolved ⊆ (matchClass m entry).unresolved ∧
        (OneSignature files (matchClass m entry).assignment entry ∨ entry ∈ (matchClass m entry).unresolved) := by
  rcases matchClass_cases m entry with ⟨cluster, hcandidates, hstep⟩ | ⟨-, hstep⟩
  · obtain ⟨hcluster, hlength⟩ := mem_of_filter_eq_singleton hcandidates
    obtain ⟨hassigned, hbalanced⟩ := h.settle hkeys hcluster (of_decide_eq_true hlength)
    rw [hassigned] at hstep
    rw [hstep]
    refine ⟨hbalanced, List.prefix_append _ _, List.Subset.refl _, Or.inl ⟨cluster.1, fun i hi => ?_⟩⟩
    obtain ⟨hfst, hsnd⟩ := classPairs_perm (of_decide_eq_true hlength)
    have hindex : (i : ℤ) ∈ (classPairs entry cluster).map Prod.fst := by
      rw [hfst]
      exact List.mem_map_of_mem hi
    obtain ⟨⟨key, name⟩, hpair, rfl⟩ := List.mem_map.mp hindex
    have hname : name ∈ cluster.2 := hsnd.mem_iff.mp (List.mem_map_of_mem hpair)
    exact ⟨name, List.mem_append_right _ hpair, h.files _ _ ((h.clusters cluster hcluster).2 name hname)⟩
  · rw [hstep]
    exact ⟨h.postpone, List.prefix_refl _, List.subset_append_left _ _,
      Or.inr (List.mem_append_right _ List.mem_cons_self)⟩

/-- The pass over all classes. -/
theorem Balanced.run (h : Balanced keys names files todo m) (hkeys : keys.Nodup) :
    Balanced keys names files [] (todo.foldl matchClass m) ∧
      m.assignment <+: (todo.foldl matchClass m).assignment ∧
      m.unresolved ⊆ (todo.foldl matchClass m).unresolved ∧
        ∀ entry ∈ todo, OneSignature files (todo.foldl matchClass m).assignment entry ∨
          entry ∈ (todo.foldl matchClass m).unresolved := by
  induction todo generalizing m with
  | nil => exact ⟨h, List.prefix_refl _, List.Subset.refl _, fun entry hentry => by cases hentry⟩
  | cons entry rest ih =>
    obtain ⟨hstep, hgrown, hkept, hentry⟩ := h.step hkeys
    obtain ⟨hrun, hgrown', hkept', hrest⟩ := ih hstep
    refine ⟨hrun, hgrown.trans hgrown', List.Subset.trans hkept hkept', fun other hother => ?_⟩
    rcases List.mem_cons.mp hother with rfl | hother
    · refine hentry.imp (fun hsame => ?_) fun haside => hkept' haside
      obtain ⟨signature, hsame⟩ := hsame
      refine ⟨signature, fun i hi => ?_⟩
      obtain ⟨name, hpair, hname⟩ := hsame i hi
      exact ⟨name, hgrown'.subset hpair, hname⟩
    · exact hrest other hother

end Pass

/-! ## Classes of one program -/

section Lone

/-- The entries of one element. -/
def lone {α β : Type*} (entries : List (α × List β)) : List (α × List β) :=
  entries.filter fun entry => entry.2.length = 1

/-- A class of one program takes the one cluster of one file, or is put aside with the clusters kept; any
other class leaves the clusters of one file alone. -/
theorem matchClass_lone (hkeys : (m.clusters.map Prod.fst).Nodup) (entry : PortClass × List ℕ) :
    ((matchClass m entry).clusters.map Prod.fst).Nodup ∧
      if entry.2.length = 1 then
        ((lone m.clusters).length = 1 ∧ lone (matchClass m entry).clusters = [] ∧
            (matchClass m entry).unresolved = m.unresolved) ∨
          (lone m.clusters).length ≠ 1 ∧ lone (matchClass m entry).clusters = lone m.clusters ∧
            (matchClass m entry).unresolved = m.unresolved ++ [entry]
      else
        lone (matchClass m entry).clusters = lone m.clusters ∧
          lone (matchClass m entry).unresolved = lone m.unresolved := by
  rcases matchClass_cases m entry with ⟨cluster, hcandidates, hstep⟩ | ⟨hnone, hstep⟩
  · obtain ⟨hcluster, hlength⟩ := mem_of_filter_eq_singleton hcandidates
    rw [hstep]
    refine ⟨nodup_keys_del hkeys cluster.1, ?_⟩
    have hcommute : lone (del m.clusters cluster.1) = del (lone m.clusters) cluster.1 := List.filter_comm ..
    dsimp only
    rw [hcommute]
    split_ifs with hsize
    · rw [hsize] at hcandidates
      rw [lone, hcandidates]
      exact Or.inl ⟨rfl, List.filter_cons_of_neg (by simp), rfl⟩
    · refine ⟨List.filter_eq_self.mpr fun other hother => decide_eq_true fun hkey => hsize ?_, rfl⟩
      obtain ⟨hmem, hother⟩ := List.mem_filter.mp hother
      have hsame : other = cluster := (List.nodup_map_iff_inj_on (List.Nodup.of_map _ hkeys)).mp hkeys
        other hmem cluster hcluster hkey
      rw [← of_decide_eq_true hlength, ← hsame]
      exact of_decide_eq_true hother
  · rw [hstep]
    refine ⟨hkeys, ?_⟩
    dsimp only
    split_ifs with hsize
    · rw [hsize] at hnone
      refine Or.inr ⟨fun hone => ?_, rfl, rfl⟩
      obtain ⟨cluster, hcluster⟩ := List.length_eq_one_iff.mp hone
      exact hnone cluster hcluster
    · refine ⟨rfl, ?_⟩
      rw [lone, List.filter_append, List.filter_singleton, decide_eq_false hsize]
      exact List.append_nil _

/-- At most one class of one program takes a cluster, and if any cluster of one file is left, none did. -/
theorem run_lone {todo : List (PortClass × List ℕ)} {m : Matching} (hkeys : (m.clusters.map Prod.fst).Nodup) :
    (lone m.unresolved).length + (lone todo).length ≤
        (lone (todo.foldl matchClass m).unresolved).length + min 1 (lone m.clusters).length ∧
      (lone (todo.foldl matchClass m).clusters ≠ [] →
        lone (todo.foldl matchClass m).clusters = lone m.clusters ∧
          lone (todo.foldl matchClass m).unresolved = lone m.unresolved ++ lone todo) := by
  induction todo generalizing m with
  | nil => exact ⟨Nat.le_add_right _ _, fun _ => ⟨rfl, (List.append_nil _).symm⟩⟩
  | cons entry rest ih =>
    obtain ⟨hkeys', hstep⟩ := matchClass_lone hkeys entry
    obtain ⟨hcount, hkept⟩ := ih hkeys'
    rw [List.foldl_cons]
    split_ifs at hstep with hsize
    · have htodo : lone (entry :: rest) = entry :: lone rest := List.filter_cons_of_pos (decide_eq_true hsize)
      rw [htodo]
      rcases hstep with ⟨hone, hnone, hsame⟩ | ⟨-, hclusters, haside⟩
      · rw [hnone, hsame] at hcount hkept
        rw [hone, List.length_cons]
        refine ⟨?_, fun hleft => ?_⟩
        · rw [List.length_nil] at hcount
          omega
        · exact absurd (hkept hleft).1 hleft
      · have hlone : lone (m.unresolved ++ [entry]) = lone m.unresolved ++ [entry] := by
          rw [lone, List.filter_append, List.filter_singleton, decide_eq_true hsize]
          rfl
        rw [haside, hlone, hclusters] at hcount hkept
        rw [List.length_append, List.length_singleton] at hcount
        refine ⟨?_, fun hleft => ?_⟩
        · rw [List.length_cons]
          omega
        · obtain ⟨hfirst, hsecond⟩ := hkept hleft
          exact ⟨hfirst, by rw [hsecond, List.append_assoc]; rfl⟩
    · have htodo : lone (entry :: rest) = lone rest := List.filter_cons_of_neg (by simpa using hsize)
      rw [htodo]
      rw [hstep.1, hstep.2] at hcount hkept
      exact ⟨hcount, hkept⟩

end Lone

end AneLinux.Staged
