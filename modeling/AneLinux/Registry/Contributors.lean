import AneLinux.Support.Occurrence

/-!
# The generated region of the contributor registry

The list of contributors stands between two marker comments of a hand-written file. `update_contributors_md` looks for
both markers and puts a fresh registry, markers included, in the place of what it finds. A marker has its opening
bracket at its head and nowhere else, so two markers never overlap, and what is put around a region cannot make a new
one.
-/

namespace AneLinux.Registry

open Occurrence

/-- Python's text, letter by letter. -/
abbrev Text := List Char

def beginMarker : Text := "<!-- BEGIN GENERATED CONTRIBUTORS (contributors.yml; do not hand-edit) -->".toList
def endMarker : Text := "<!-- END GENERATED CONTRIBUTORS -->".toList
def fileTitle : Text := "# Contributors".toList
def emptyRegistryLine : Text := "_No outside contributor accounts recorded yet._".toList

def anonNote : Text :=
  "_Linked GitHub accounts only. Anonymous (unlinked) commit authors are\n".toList ++
    ("enumerable through the API (anon=true) but are identified there only by\n".toList ++
      ("name/email, which this registry does not publish; credit them by hand in\n".toList ++
        "the sections above where known._".toList))

/-- The line of a contributor. -/
def entryLine (name : Text) : Text :=
  "- [@".toList ++ (name ++ ("](https://github.com/".toList ++ (name ++ [')'])))

/-- The lines of the contributors, or the one that says that there are none. -/
def registryBody (entries : List Text) : Text :=
  if entries = [] then emptyRegistryLine else ['\n'].intercalate (entries.map entryLine)

/-- What stands between the markers. -/
def registryInner (entries : List Text) : Text :=
  "\n\n".toList ++ (registryBody entries ++ ("\n\n".toList ++ (anonNote ++ "\n\n".toList)))

def renderRegistry (entries : List Text) : Text := beginMarker ++ (registryInner entries ++ endMarker)

/-- The new text, and whether it differs from the old one. A file that is not there yet is written with its title. -/
def updateContributorsMd (existing : Option Text) (registry : Text) : Except String (Text × Bool) :=
  match existing with
  | none => .ok (fileTitle ++ "\n\n".toList ++ registry ++ "\n\n".toList, true)
  | some existing =>
    if ¬ beginMarker <:+: existing ∧ ¬ endMarker <:+: existing then .ok (existing, false)
    else if count beginMarker existing ≠ 1 ∨ count endMarker existing ≠ 1 then
      .error "expected exactly one pair of generated markers"
    else
      match index beginMarker existing, index endMarker existing with
      | some beginAt, some endAt =>
        if beginAt > endAt then .error "END marker precedes BEGIN marker"
        else
          let newText := existing.take beginAt ++ registry ++ existing.drop (endAt + endMarker.length)
          .ok (newText, newText != existing)
      | _, _ => .error "substring not found"

/-! ## The markers -/

/-- One of the two markers. -/
def IsMarker (marker : Text) : Prop := marker = beginMarker ∨ marker = endMarker

/-- A text in which no marker occurs. -/
def MarkerFree (text : Text) : Prop := ∀ marker, IsMarker marker → ¬ marker <:+: text

variable {marker other : Text}

/-- Every marker opens with `<`. -/
theorem IsMarker.head (h : IsMarker marker) : marker.head? = some '<' := by
  rcases h with h | h <;> rw [h] <;> decide

/-- No marker is empty. -/
theorem IsMarker.ne_nil (h : IsMarker marker) : marker ≠ [] := by
  rintro rfl
  cases h.head

/-- Every marker closes with `>`. -/
theorem IsMarker.getLast (h : IsMarker marker) : marker.getLast? = some '>' := by
  rcases h with h | h <;> rw [h] <;> decide

/-- The letters that follow a name or a part of the file do not stand inside a marker. -/
theorem IsMarker.notMem_tail (h : IsMarker marker) : '<' ∉ marker.tail ∧ ']' ∉ marker.tail ∧ '\n' ∉ marker.tail := by
  rcases h with h | h <;> rw [h] <;> decide

/-- No marker is a proper prefix of another. -/
theorem IsMarker.eq_of_prefix (h : IsMarker marker) (h' : IsMarker other) (hstart : marker <+: other) :
    marker = other := by
  have hends : ¬ beginMarker <+: endMarker ∧ ¬ endMarker <+: beginMarker := by decide
  rcases h with rfl | rfl <;> rcases h' with rfl | rfl
  · rfl
  · exact (hends.1 hstart).elim
  · exact (hends.2 hstart).elim
  · rfl

/-- No marker occurs in the other one. -/
theorem IsMarker.eq_of_infix (h : IsMarker marker) (h' : IsMarker other) (hinside : marker <:+: other) :
    marker = other := by
  obtain ⟨start, rfl⟩ := List.head?_eq_some_iff.mp h.head
  obtain ⟨tail, htail⟩ := List.head?_eq_some_iff.mp h'.head
  have hnotMem := h'.notMem_tail.1
  rw [htail] at hinside hnotMem
  obtain hstart | hinside := List.infix_cons_iff.mp hinside
  · exact h.eq_of_prefix h' (htail ▸ hstart)
  · exact (hnotMem (hinside.subset List.mem_cons_self)).elim

variable {text before between after : Text}

/-- An occurrence of a marker does not reach into a marker. -/
theorem IsMarker.uncut_before (h : IsMarker marker) (h' : IsMarker other) : Uncut marker text (other ++ after) := by
  obtain ⟨tail, htail⟩ := List.head?_eq_some_iff.mp h'.head
  rw [htail]
  exact uncut_of_notMem_tail h.notMem_tail.1

/-- An occurrence of a marker does not reach out of a marker. -/
theorem IsMarker.uncut_after (h : IsMarker marker) (h' : IsMarker other) : Uncut marker other after := by
  have hnotMem := h'.notMem_tail.1
  obtain ⟨tail, rfl⟩ := List.head?_eq_some_iff.mp h'.head
  refine uncut_cons (fun hstart => ?_) (uncut_of_head fun b hb => ?_)
  · have heq : marker = '<' :: tail := by
      obtain hle | hle := Nat.le_total marker.length ('<' :: tail).length
      · have := List.prefix_of_prefix_length_le hstart (List.prefix_append ('<' :: tail) after) hle
        exact h.eq_of_prefix h' this
      · have := List.prefix_of_prefix_length_le (List.prefix_append ('<' :: tail) after) hstart hle
        exact (h'.eq_of_prefix h this).symm
    rw [heq]
  · rw [h.head]
    rintro ⟨⟩
    exact hnotMem hb

/-- In a text with one marker, the marker is counted once, and found behind what precedes it. -/
theorem IsMarker.once (h : IsMarker marker) (hbefore : ¬ marker <:+: before) (hafter : ¬ marker <:+: after) :
    count marker (before ++ (marker ++ after)) = 1 ∧
      index marker (before ++ (marker ++ after)) = some before.length := by
  constructor
  · rw [count_append (h.uncut_before h), count_append (h.uncut_after h), count_eq_zero hbefore, count_eq_zero hafter,
      count_self h.ne_nil]
  · rw [index_append (h.uncut_before h) hbefore, index_of_prefix (List.prefix_append marker after), Option.map_some,
      Nat.zero_add]

/-- Joining adds no marker where none is cut at the seam. -/
theorem MarkerFree.append {front back : Text} (hfront : MarkerFree front) (hback : MarkerFree back)
    (huncut : ∀ marker, IsMarker marker → Uncut marker front back) : MarkerFree (front ++ back) := by
  intro marker h hinside
  obtain hinside | hinside := (infix_append h.ne_nil (huncut marker h)).mp hinside
  · exact hfront marker h hinside
  · exact hback marker h hinside

/-- A text without an opening bracket has no marker. -/
theorem markerFree_of_notMem (h : '<' ∉ text) : MarkerFree text := by
  intro marker hmarker hinside
  obtain ⟨tail, rfl⟩ := List.head?_eq_some_iff.mp hmarker.head
  exact h (hinside.subset List.mem_cons_self)

/-- A text without `<` adds no marker in front. -/
theorem MarkerFree.append_of_notMem {front back : Text} (hfront : '<' ∉ front) (hback : MarkerFree back) :
    MarkerFree (front ++ back) := by
  refine (markerFree_of_notMem hfront).append hback fun marker h => uncut_of_head fun b hb => ?_
  rw [h.head]
  rintro ⟨⟩
  exact hfront hb

/-- Around a marker, too, no new one arises. -/
theorem notInfix_around (h : IsMarker marker) (h' : IsMarker other) (hne : marker ≠ other) (hbefore : MarkerFree before)
    (hafter : MarkerFree after) : ¬ marker <:+: before ++ (other ++ after) := by
  rw [infix_append h.ne_nil (h.uncut_before h'), infix_append h.ne_nil (h.uncut_after h')]
  rintro (hinside | hinside | hinside)
  · exact hbefore marker h hinside
  · exact hne (h.eq_of_infix h' hinside)
  · exact hafter marker h hinside

/-! ## The registry -/

/-- A line of the list has no marker of its own. -/
theorem markerFree_entryLine {name : Text} (h : MarkerFree name) : MarkerFree (entryLine name) := by
  have hclosed : MarkerFree (name ++ [')']) := by
    refine h.append (markerFree_of_notMem (by decide)) fun marker hmarker => uncut_singleton ?_
    rw [hmarker.getLast]
    decide
  have hurl : MarkerFree ("](https://github.com/".toList ++ (name ++ [')'])) :=
    .append_of_notMem (by decide) hclosed
  exact .append_of_notMem (by decide) (h.append hurl fun marker hmarker => uncut_of_notMem_tail hmarker.notMem_tail.2.1)

/-- Joining lines adds no marker. -/
theorem markerFree_intercalate {lines : List Text} (h : ∀ line ∈ lines, MarkerFree line) :
    MarkerFree (['\n'].intercalate lines) := by
  induction lines with
  | nil => exact markerFree_of_notMem (by simp)
  | cons line lines ih =>
    obtain ⟨hline, hlines⟩ := List.forall_mem_cons.mp h
    cases lines with
    | nil => simpa using hline
    | cons next lines =>
      rw [List.intercalate_cons_cons, List.append_assoc, List.singleton_append]
      have hbreak : MarkerFree ('\n' :: ['\n'].intercalate (next :: lines)) :=
        .append_of_notMem (by decide : '<' ∉ ['\n']) (ih hlines)
      exact hline.append hbreak
        fun marker hmarker => uncut_of_notMem_tail hmarker.notMem_tail.2.2

/-- The note on the anonymous has no marker. -/
theorem markerFree_anonNote : MarkerFree anonNote :=
  .append_of_notMem (by decide) (.append_of_notMem (by decide) (.append_of_notMem (by decide)
    (markerFree_of_notMem (by decide))))

/-- Whatever the names are, no marker stands between the markers of a registry. -/
theorem markerFree_registryInner {entries : List Text} (h : ∀ name ∈ entries, MarkerFree name) :
    MarkerFree (registryInner entries) := by
  have hbody : MarkerFree (registryBody entries) := by
    rw [registryBody]
    split
    · exact markerFree_of_notMem (by decide)
    · refine markerFree_intercalate fun line hline => ?_
      obtain ⟨name, hname, rfl⟩ := List.mem_map.mp hline
      exact markerFree_entryLine (h name hname)
  have hend : MarkerFree "\n\n".toList := markerFree_of_notMem (by decide)
  have hnote : MarkerFree ("\n\n".toList ++ (anonNote ++ "\n\n".toList)) :=
    .append_of_notMem (by decide) (markerFree_anonNote.append hend
      fun marker hmarker => uncut_of_notMem_tail hmarker.notMem_tail.2.2)
  exact .append_of_notMem (by decide) (hbody.append hnote
    fun marker hmarker => uncut_of_notMem_tail hmarker.notMem_tail.2.2)

/-! ## The update -/

/-- The region is replaced, whatever stands around and in it, as long as no further marker does. -/
theorem updateContributorsMd_pieces {existing : Text} (hbefore : MarkerFree before) (hbetween : MarkerFree between)
    (hafter : MarkerFree after) (h : existing = before ++ (beginMarker ++ (between ++ (endMarker ++ after))))
    (registry : Text) :
    updateContributorsMd (some existing) registry =
      .ok (before ++ registry ++ after, before ++ registry ++ after != existing) := by
  have hbegin : IsMarker beginMarker := .inl rfl
  have hend : IsMarker endMarker := .inr rfl
  have hne : beginMarker ≠ endMarker := by decide
  obtain ⟨hcountBegin, hindexBegin⟩ := hbegin.once (hbefore _ hbegin)
    (notInfix_around hbegin hend hne hbetween hafter)
  obtain ⟨hcountEnd, hindexEnd⟩ := hend.once (notInfix_around hend hbegin hne.symm hbefore hbetween) (hafter _ hend)
  have h' : before ++ (beginMarker ++ between) ++ (endMarker ++ after) = existing := by
    simp only [h, List.append_assoc]
  rw [← h] at hcountBegin hindexBegin
  rw [h'] at hcountEnd hindexEnd
  have hhas : beginMarker <:+: existing := ⟨before, between ++ (endMarker ++ after), by rw [h, List.append_assoc]⟩
  have hdrop : existing.drop ((before ++ (beginMarker ++ between)).length + endMarker.length) = after := by
    rw [← h', ← List.drop_drop, List.drop_left, List.drop_left]
  have htake : existing.take before.length = before := by
    rw [h, List.take_left]
  have horder : ¬ before.length > (before ++ (beginMarker ++ between)).length := by
    rw [List.length_append]
    omega
  simp only [updateContributorsMd, hhas, hcountBegin, hcountEnd, hindexBegin, hindexEnd, horder, hdrop, htake,
    not_true_eq_false, false_and, if_false, ne_eq, or_self]

/-- A text in which each marker occurs at exactly one place, the `BEGIN` marker first. -/
structure OnePair (text : Text) (beginAt endAt : ℕ) : Prop where
  begins : ∀ i, beginMarker <+: text.drop i ↔ i = beginAt
  ends : ∀ i, endMarker <+: text.drop i ↔ i = endAt
  inOrder : beginAt < endAt

variable {beginAt endAt : ℕ}

/-- The `END` marker starts behind the whole `BEGIN` marker. -/
theorem OnePair.le (h : OnePair text beginAt endAt) : beginAt + beginMarker.length ≤ endAt := by
  have hbegin : IsMarker beginMarker := .inl rfl
  have hend : IsMarker endMarker := .inr rfl
  obtain ⟨rest, hrest⟩ := (h.begins beginAt).mpr rfl
  have hoccurs := (h.ends endAt).mpr rfl
  have hpos : 0 < beginMarker.length := by decide
  have horder := h.inOrder
  by_contra hlt
  have hdrop : text.drop endAt = beginMarker.drop (endAt - beginAt) ++ rest := by
    rw [← List.drop_append_of_le_length (by omega), hrest, List.drop_drop]
    congr 1
    omega
  rw [hdrop] at hoccurs
  have hstart := hend.uncut_after hbegin _ (List.drop_suffix (endAt - beginAt) beginMarker)
    (by simpa [List.drop_eq_nil_iff] using (by omega : endAt - beginAt < beginMarker.length)) hoccurs
  have heq := hend.eq_of_infix hbegin (hstart.isInfix.trans (List.drop_suffix _ _).isInfix)
  exact absurd heq.symm (by decide)

/-- No marker occurs in a slice of the text that has none of the two places. -/
theorem OnePair.markerFree (h : OnePair text beginAt endAt) {i n : ℕ}
    (hbegin : ∀ k, i ≤ k → k + beginMarker.length ≤ i + n → k ≠ beginAt)
    (hend : ∀ k, i ≤ k → k + endMarker.length ≤ i + n → k ≠ endAt) : MarkerFree ((text.drop i).take n) := by
  rintro marker (rfl | rfl) hinside
  · obtain ⟨k, hlo, hhi, hoccurs⟩ := exists_of_infix_slice hinside
    exact hbegin k hlo hhi ((h.begins k).mp hoccurs)
  · obtain ⟨k, hlo, hhi, hoccurs⟩ := exists_of_infix_slice hinside
    exact hend k hlo hhi ((h.ends k).mp hoccurs)

/-- The text is the one before the markers, the markers with what is between them, and the text behind them. -/
theorem OnePair.pieces (h : OnePair text beginAt endAt) :
    ∃ between, MarkerFree (text.take beginAt) ∧ MarkerFree between ∧ MarkerFree (text.drop (endAt + endMarker.length)) ∧
      text = text.take beginAt ++
        (beginMarker ++ (between ++ (endMarker ++ text.drop (endAt + endMarker.length)))) := by
  have hle := h.le
  have horder := h.inOrder
  have hpos : 0 < beginMarker.length ∧ 0 < endMarker.length := by decide
  refine ⟨(text.drop (beginAt + beginMarker.length)).take (endAt - (beginAt + beginMarker.length)), ?_, ?_, ?_, ?_⟩
  · exact h.markerFree (i := 0) (n := beginAt) (by omega) (by omega)
  · exact h.markerFree (by omega) (by omega)
  · rw [← List.take_length (l := text.drop (endAt + endMarker.length))]
    exact h.markerFree (by omega) (by omega)
  · obtain ⟨_, hbegin⟩ := (h.begins beginAt).mpr rfl
    obtain ⟨_, hend⟩ := (h.ends endAt).mpr rfl
    have hend' : endMarker ++ text.drop (endAt + endMarker.length) = text.drop endAt := by
      rw [← List.drop_drop, ← hend, List.drop_left]
    have hbegin' : beginMarker ++ text.drop (beginAt + beginMarker.length) = text.drop beginAt := by
      rw [← List.drop_drop, ← hbegin, List.drop_left]
    have hbetween : text.drop endAt =
        (text.drop (beginAt + beginMarker.length)).drop (endAt - (beginAt + beginMarker.length)) := by
      rw [List.drop_drop]
      congr 1
      omega
    rw [hend', hbetween, List.take_append_drop, hbegin', List.take_append_drop]

/-- A text built round both markers has each once, in order. -/
theorem onePair_of_pieces (hbefore : MarkerFree before) (hbetween : MarkerFree between) (hafter : MarkerFree after) :
    OnePair (before ++ (beginMarker ++ (between ++ (endMarker ++ after)))) before.length
      (before ++ (beginMarker ++ between)).length := by
  have hbegin : IsMarker beginMarker := .inl rfl
  have hend : IsMarker endMarker := .inr rfl
  have hne : beginMarker ≠ endMarker := by decide
  refine ⟨fun i => ?_, fun i => ?_, ?_⟩
  · exact prefix_drop_iff (hbegin.uncut_before hbegin) (hbegin.uncut_after hbegin) (hbefore _ hbegin)
      (notInfix_around hbegin hend hne hbetween hafter)
  · have hgroup : before ++ (beginMarker ++ (between ++ (endMarker ++ after))) =
        before ++ (beginMarker ++ between) ++ (endMarker ++ after) := by
      simp only [List.append_assoc]
    rw [hgroup]
    exact prefix_drop_iff (hend.uncut_before hend) (hend.uncut_after hend)
      (notInfix_around hend hbegin hne.symm hbefore hbetween) (hafter _ hend)
  · have hpos := List.length_pos_iff.mpr hbegin.ne_nil
    simp only [List.length_append]
    omega

/-- An update of a text with one pair of markers leaves what is before and behind them; a second one changes nothing,
and of two updates the last one counts. A text without markers stays as it is. -/
theorem updateContributorsMd_touches_region :
    (∀ (existing : Text) (beginAt endAt : ℕ) (r₁ r₂ : List Text), OnePair existing beginAt endAt →
      (∀ name ∈ r₁, MarkerFree name) → (∀ name ∈ r₂, MarkerFree name) →
      let before := existing.take beginAt
      let after := existing.drop (endAt + endMarker.length)
      let updated := fun r => before ++ renderRegistry r ++ after
      updateContributorsMd (some existing) (renderRegistry r₁) = .ok (updated r₁, updated r₁ != existing) ∧
      updateContributorsMd (some (updated r₁)) (renderRegistry r₁) = .ok (updated r₁, false) ∧
      updateContributorsMd (some (updated r₁)) (renderRegistry r₂) = .ok (updated r₂, updated r₂ != updated r₁) ∧
      updateContributorsMd (some existing) (renderRegistry r₂) = .ok (updated r₂, updated r₂ != existing)) ∧
    ∀ (existing registry : Text), ¬ beginMarker <:+: existing → ¬ endMarker <:+: existing →
      updateContributorsMd (some existing) registry = .ok (existing, false) := by
  constructor
  · intro existing beginAt endAt r₁ r₂ h h₁ h₂ before after updated
    obtain ⟨between, hbefore, hbetween, hafter, hpieces⟩ := h.pieces
    have hagain : updated r₁ = before ++ (beginMarker ++ (registryInner r₁ ++ (endMarker ++ after))) := by
      simp only [updated, renderRegistry, List.append_assoc]
    have hfirst := updateContributorsMd_pieces hbefore hbetween hafter hpieces
    have hsecond := updateContributorsMd_pieces hbefore (markerFree_registryInner h₁) hafter hagain
    refine ⟨hfirst _, ?_, hsecond _, hfirst _⟩
    rw [hsecond, bne_self_eq_false]
  · intro existing registry hbegin hend
    rw [updateContributorsMd, if_pos ⟨hbegin, hend⟩]

theorem touches_region_example :
    let existing := "a".toList ++ (beginMarker ++ ("b".toList ++ (endMarker ++ "c".toList)))
    let updated := "a".toList ++ renderRegistry ["d".toList] ++ "c".toList
    updateContributorsMd (some updated) (renderRegistry ["d".toList]) = .ok (updated, false) ∧
      ∃ changed, updateContributorsMd (some existing) (renderRegistry []) =
        .ok ("a".toList ++ renderRegistry [] ++ "c".toList, changed) := by
  have hletter (text : Text) (h : '<' ∉ text) : MarkerFree text := markerFree_of_notMem h
  have hpair := onePair_of_pieces (hletter "a".toList (by decide)) (hletter "b".toList (by decide))
    (hletter "c".toList (by decide))
  obtain ⟨-, hagain, -, hempty⟩ := updateContributorsMd_touches_region.1 _ _ _ ["d".toList] [] hpair
    (by simpa using hletter "d".toList (by decide)) (by simp)
  exact ⟨hagain, _, hempty⟩

end AneLinux.Registry
