import Mathlib.Data.UInt

/-!
# The staged privacy scan

Before a commit, `privacy_check --staged` scans the lines that a diff adds. It takes every line that starts with a plus
sign for an added one, and every line that starts with three for a file header. An added line that itself starts with
two plus signs looks like a header, and is not scanned.
-/

namespace AneLinux.Privacy

/-- A byte string without its quotes. -/
abbrev Text := List UInt8

def newline : UInt8 := 0x0A
def plus : UInt8 := 0x2B

/-- The bytes of an ASCII text. -/
def ascii (text : String) : Text := text.toList.map fun c => c.toNat.toUInt8

/-- The lines of the diff that are taken for added ones. -/
def looksAdded (line : Text) : Bool := [plus].isPrefixOf line && !([plus, plus, plus].isPrefixOf line)

/-- The text of a staged diff that is scanned. -/
def stagedText (raw : Text) : Text :=
  [newline].intercalate (((raw.splitOn newline).filter looksAdded).map (List.drop 1))

/-- `scan`: the label once for every pattern that is found; a pattern is given by how often it is found in a text. -/
def scan (content : Text) (label : String) (regexes : List (Text → ℕ)) : List String :=
  (regexes.filter fun rx => rx content != 0).map fun _ => label

/-- The exit code of `main --staged`. Without a repository and without a diff it is 1. -/
def mainStaged (repository : Bool) (regexes : List (Text → ℕ)) (diff : Option Text) : ℕ :=
  if repository then
    match diff with
    | none => 1
    | some raw => if scan (stagedText raw) "staged content" regexes = [] then 0 else 1
  else 1

/-- The scan passes a diff exactly if no pattern is found in the text that it takes for added. -/
theorem mainStaged_eq_zero_iff {repository : Bool} {regexes : List (Text → ℕ)} {diff : Option Text} :
    mainStaged repository regexes diff = 0 ↔
      repository = true ∧ ∃ raw, diff = some raw ∧ ∀ rx ∈ regexes, rx (stagedText raw) = 0 := by
  have hscan (content : Text) : scan content "staged content" regexes = [] ↔ ∀ rx ∈ regexes, rx content = 0 := by
    simp [scan, List.filter_eq_nil_iff]
  cases repository with
  | false => simp [mainStaged]
  | true =>
    cases diff with
    | none => simp [mainStaged]
    | some raw => simp [mainStaged, hscan]

/-! ## What a diff prints -/

/-- A line of a diff without context: an added line, the header with the new path of a file, or one that starts with no
plus sign (other headers, hunk marks, removed lines). -/
inductive DiffLine
  | added (content : Text)
  | header (path : Text)
  | other (text : Text)

namespace DiffLine

/-- The line as it is printed. -/
def text : DiffLine → Text
  | added content => plus :: content
  | header path => ascii "+++ " ++ path
  | other text => text

/-- No line of a diff holds the end of a line. -/
structure Printed (line : DiffLine) : Prop where
  oneLine : newline ∉ line.text
  other : ∀ text, line = other text → ¬ [plus] <+: text

/-- What a line adds. -/
def content? : DiffLine → Option Text
  | added content => some content
  | _ => none

end DiffLine

/-- A diff as it is printed. -/
def printDiff (diff : List DiffLine) : Text := diff.flatMap fun line => line.text ++ [newline]

/-- The lines that a diff adds. -/
def addedLines (diff : List DiffLine) : List Text := diff.filterMap DiffLine.content?

/-- A text shows a diff: it has all its added lines, in order, and none of its headers, with or without the first
mark. -/
structure Shows (diff : List DiffLine) (text : Text) : Prop where
  added : (addedLines diff).Sublist (text.splitOn newline)
  headers : ∀ path, .header path ∈ diff →
    (DiffLine.header path).text ∉ text.splitOn newline ∧ (DiffLine.header path).text.drop 1 ∉ text.splitOn newline

section Lines

variable {diff : List DiffLine}

/-- The lines of a printed diff, and what is behind the last one. -/
theorem splitOn_printDiff (hprinted : ∀ line ∈ diff, line.Printed) :
    (printDiff diff).splitOn newline = diff.map DiffLine.text ++ [[]] := by
  induction diff with
  | nil => rfl
  | cons line rest ih =>
    have hline := (hprinted line List.mem_cons_self).oneLine
    have hrest := ih fun other hother => hprinted other (List.mem_cons_of_mem line hother)
    have hcons : printDiff (line :: rest) = line.text ++ newline :: printDiff rest := by
      rw [printDiff, List.flatMap_cons, List.append_assoc]
      rfl
    rw [hcons, List.splitOn_append_cons_self_of_not_mem hline, hrest]
    rfl

/-- A line with a plus sign in front is taken for an added one unless two more follow. -/
theorem looksAdded_cons (content : Text) : looksAdded (plus :: content) = !([plus, plus].isPrefixOf content) := by
  simp [looksAdded, List.isPrefixOf]

theorem looksAdded_header (path : Text) : looksAdded (DiffLine.header path).text = false := by
  simp [looksAdded, DiffLine.text, ascii, plus, List.isPrefixOf]

/-- Of the added lines, those are scanned that do not start with two plus signs. -/
theorem scanned_lines (hprinted : ∀ line ∈ diff, line.Printed) :
    (((printDiff diff).splitOn newline).filter looksAdded).map (List.drop 1) =
      (addedLines diff).filter fun content => !([plus, plus].isPrefixOf content) := by
  have hlast : looksAdded [] = false := rfl
  rw [splitOn_printDiff hprinted, List.filter_append, List.filter_singleton, hlast]
  simp only [Bool.cond_false, List.append_nil]
  induction diff with
  | nil => rfl
  | cons line rest ih =>
    have hrest := ih fun other hother => hprinted other (List.mem_cons_of_mem line hother)
    cases line with
    | added content =>
      have hadded : addedLines (.added content :: rest) = content :: addedLines rest := rfl
      rw [List.map_cons, DiffLine.text, hadded, List.filter_cons, List.filter_cons, looksAdded_cons]
      split
      · rw [List.map_cons, hrest, List.drop_one, List.tail_cons]
      · exact hrest
    | header path =>
      rw [List.map_cons, List.filter_cons, looksAdded_header, if_neg Bool.false_ne_true]
      exact hrest
    | other text =>
      have hother := (hprinted _ List.mem_cons_self).other text rfl
      have hlooks : looksAdded text = false := by
        rw [looksAdded, Bool.eq_false_iff.mpr fun h => hother (List.isPrefixOf_iff_prefix.mp h), Bool.false_and]
      rw [List.map_cons, DiffLine.text, List.filter_cons, hlooks, if_neg Bool.false_ne_true]
      exact hrest

theorem newline_notMem_addedLines (hprinted : ∀ line ∈ diff, line.Printed) :
    ∀ content ∈ addedLines diff, newline ∉ content := by
  intro content hcontent hmem
  obtain ⟨line, hline, hcontent⟩ := List.mem_filterMap.mp hcontent
  cases line with
  | added other =>
    obtain rfl := Option.some.inj hcontent
    exact (hprinted _ hline).oneLine (List.mem_cons_of_mem plus hmem)
  | header path => cases hcontent
  | other text => cases hcontent

/-- The lines of the scanned text; a text of no lines has one empty line. -/
theorem splitOn_stagedText (hprinted : ∀ line ∈ diff, line.Printed) {lines : List Text}
    (hlines : ((addedLines diff).filter fun content => !([plus, plus].isPrefixOf content)) = lines) :
    (stagedText (printDiff diff)).splitOn newline = if lines = [] then [[]] else lines := by
  rw [stagedText, scanned_lines hprinted, hlines]
  split
  · rename_i hnil
    rw [hnil]
    rfl
  · rename_i hne
    refine List.splitOn_intercalate newline (fun content hcontent => ?_) hne
    rw [← hlines] at hcontent
    exact newline_notMem_addedLines hprinted content (List.mem_filter.mp hcontent).1

end Lines

/-- The scan sees a diff exactly if no added line starts with two plus signs. -/
theorem stagedText_shows_iff {diff : List DiffLine} (hprinted : ∀ line ∈ diff, line.Printed) :
    Shows diff (stagedText (printDiff diff)) ↔ ∀ content, .added content ∈ diff → ¬ [plus, plus] <+: content := by
  have hadded (content : Text) : .added content ∈ diff ↔ content ∈ addedLines diff := by
    rw [addedLines, List.mem_filterMap]
    constructor
    · exact fun h => ⟨_, h, rfl⟩
    · rintro ⟨line, hline, hcontent⟩
      cases line with
      | added other =>
        obtain rfl := Option.some.inj hcontent
        exact hline
      | header path => cases hcontent
      | other text => cases hcontent
  -- no line of the scanned text starts with two plus signs
  have hline (line : Text) (hmem : line ∈ (stagedText (printDiff diff)).splitOn newline) : ¬ [plus, plus] <+: line := by
    rw [splitOn_stagedText hprinted rfl] at hmem
    split at hmem
    · rw [List.mem_singleton.mp hmem]
      decide
    · have hkept := (List.mem_filter.mp hmem).2
      rw [Bool.not_eq_true'] at hkept
      rw [← List.isPrefixOf_iff_prefix, hkept]
      exact Bool.false_ne_true
  constructor
  · intro hshows content hcontent
    exact hline content (hshows.added.subset ((hadded content).mp hcontent))
  · intro hplain
    have hall : ((addedLines diff).filter fun content => !([plus, plus].isPrefixOf content)) = addedLines diff := by
      rw [List.filter_eq_self]
      intro content hcontent
      rw [Bool.not_eq_true', Bool.eq_false_iff]
      exact fun h => hplain content ((hadded content).mpr hcontent) (List.isPrefixOf_iff_prefix.mp h)
    constructor
    · rw [splitOn_stagedText hprinted hall]
      split
      · rename_i hnil
        rw [hnil]
        exact List.nil_sublist _
      · exact List.Sublist.refl _
    · intro path _
      refine ⟨fun hmem => hline _ hmem ?_, fun hmem => hline _ hmem ?_⟩
      · exact ⟨plus :: ascii " " ++ path, rfl⟩
      · exact ⟨ascii " " ++ path, rfl⟩

/-- A diff of one file with one added line. -/
def oneLineDiff (content : String) : List DiffLine :=
  [.other (ascii "--- /dev/null"), .header (ascii "b/notes"), .other (ascii "@@ -0,0 +1 @@"), .added (ascii content)]

theorem oneLineDiff_printed {content : String} (hcontent : newline ∉ ascii content) :
    ∀ line ∈ oneLineDiff content, line.Printed := by
  have hother : ∀ text : Text, ¬ [plus] <+: text → newline ∉ text → (DiffLine.other text).Printed := by
    intro text hplus hline
    refine ⟨hline, fun other hother => ?_⟩
    obtain rfl := DiffLine.other.inj hother
    exact hplus
  intro line hline
  simp only [oneLineDiff, List.mem_cons, List.not_mem_nil, or_false] at hline
  obtain rfl | rfl | rfl | rfl := hline
  · exact hother _ (by decide) (by decide)
  · exact ⟨by decide, fun text htext => DiffLine.noConfusion htext⟩
  · exact hother _ (by decide) (by decide)
  · refine ⟨?_, fun text htext => DiffLine.noConfusion htext⟩
    exact fun hmem => hcontent ((List.mem_cons.mp hmem).resolve_left (by decide))

/-- One plus sign in front of an added line does not hide it. -/
theorem stagedText_shows_plus :
    Shows (oneLineDiff "+ 10.1.2.3") (stagedText (printDiff (oneLineDiff "+ 10.1.2.3"))) ↔
      ∀ content, .added content ∈ oneLineDiff "+ 10.1.2.3" → ¬ [plus, plus] <+: content :=
  stagedText_shows_iff (oneLineDiff_printed (by decide))

/-- An added line `++ 10.1.2.3` is printed as `+++ 10.1.2.3` and taken for a header: an address in it is not found. -/
theorem stagedText_hides :
    (∀ line ∈ oneLineDiff "++ 10.1.2.3", line.Printed) ∧
      ¬ Shows (oneLineDiff "++ 10.1.2.3") (stagedText (printDiff (oneLineDiff "++ 10.1.2.3"))) ∧
      mainStaged true [fun content => if ascii "10.1.2.3" <:+: content then 1 else 0]
        (some (printDiff (oneLineDiff "++ 10.1.2.3"))) = 0 := by
  have hempty : stagedText (printDiff (oneLineDiff "++ 10.1.2.3")) = [] := by decide
  refine ⟨oneLineDiff_printed (by decide), fun hshows => ?_, ?_⟩
  · rw [hempty] at hshows
    have hmem : ascii "++ 10.1.2.3" ∈ addedLines (oneLineDiff "++ 10.1.2.3") := by decide
    exact absurd (hshows.added.subset hmem) (by decide)
  · refine mainStaged_eq_zero_iff.mpr ⟨rfl, _, rfl, ?_⟩
    rw [hempty]
    decide

end AneLinux.Privacy
