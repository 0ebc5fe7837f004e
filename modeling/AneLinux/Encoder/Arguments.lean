import AneLinux.Resident.Framing
import AneLinux.Support.Dict
import Mathlib.Data.List.DropRight

/-!
# Argument texts

The operands of a statement stand in its text as `key = value`, separated by commas. A value may have commas of its own
in brackets of three kinds and in quoted texts. The splitter counts all kinds of brackets in one depth, looks at nothing
inside of quotes, and cuts at the commas of depth zero.
-/

namespace AneLinux.Encoder

open AneLinux.Support
open AneLinux.Resident (isSpace)

/-! ## The parser -/

/-- `text.strip()`. -/
def strip (text : List Char) : List Char := (text.dropWhile isSpace).rdropWhile isSpace

/-- The variables of `split_top`. -/
structure Scan where
  out : List (List Char)
  depth : ℤ
  start : ℕ
  quoted : Bool

/-- A round of `split_top`. -/
def scanChar (text : List Char) (scan : Scan) (i : ℕ) (ch : Char) : Scan :=
  if scan.quoted then if ch = '"' then { scan with quoted := false } else scan
  else if ch = '"' then { scan with quoted := true }
  else if ch ∈ ['(', '[', '<'] then { scan with depth := scan.depth + 1 }
  else if ch ∈ [')', ']', '>'] then { scan with depth := scan.depth - 1 }
  else if ch = ',' ∧ scan.depth = 0 then
    { scan with out := scan.out ++ [(text.take i).drop scan.start], start := i + 1 }
  else scan

/-- The loop of `split_top`, from some character on. -/
def scanFrom (text : List Char) : Scan → ℕ → List Char → Scan
  | scan, _, [] => scan
  | scan, i, ch :: rest => scanFrom text (scanChar text scan i ch) (i + 1) rest

/-- `split_top`. -/
def splitTop (text : List Char) : List (List Char) :=
  let scan := scanFrom text { out := [], depth := 0, start := 0, quoted := false } 0 text
  let tail := text.drop scan.start
  let out := if strip tail ≠ [] then scan.out ++ [tail] else scan.out
  out.map strip

/-- `string("x")` is normalised to `"x"`. -/
def normalise (value : List Char) : List Char :=
  if "string(\"".toList <+: value ∧ "\")".toList <:+ value then
    '"' :: (value.take (value.length - 2)).drop 8 ++ ['"']
  else value

/-- A round of `parse_kwargs`. -/
def parseItem (result : List (List Char × List Char)) (item : List Char) : List (List Char × List Char) :=
  if item = [] then result
  else
    let key := item.takeWhile (· ≠ '=')
    let value := (item.dropWhile (· ≠ '=')).drop 1
    assign result (strip key) (normalise (strip value))

/-- `parse_kwargs`. -/
def parseKwargs (text : List Char) : List (List Char × List Char) := (splitTop text).foldl parseItem []

/-! ## Printed arguments -/

/-- A character that is neither space nor of a meaning for the splitter. -/
def isPlain (c : Char) : Bool := c ∉ ['"', '(', '[', '<', ')', ']', '>', ','] && !isSpace c

/-- An identifier or a number: any text of such characters. -/
abbrev Plain := { text : List Char // text ≠ [] ∧ text.all isPlain }

/-- A key. -/
abbrev Key := { text : List Char // (text ≠ [] ∧ text.all isPlain) ∧ '=' ∉ text }

/-- A text that can stand between quotes. -/
abbrev Unquoted := { text : List Char // '"' ∉ text }

/-- The brackets of a list. -/
inductive Bracket
  | round
  | square

def Bracket.opening : Bracket → Char
  | .round => '('
  | .square => '['

def Bracket.closing : Bracket → Char
  | .round => ')'
  | .square => ']'

/-- A value. The types of a call stand in angle brackets; a call without types has none. -/
inductive Value
  | plain (text : Plain)
  | quoted (text : Unquoted)
  | call (name : Plain) (types args : List Value)
  | list (bracket : Bracket) (items : List Value)

mutual

/-- The text of a value, with some number of spaces behind each comma. -/
def Value.print (pad : ℕ) : Value → List Char
  | .plain text => text.1
  | .quoted text => '"' :: text.1 ++ ['"']
  | .call name types args =>
    name.1 ++ (if types.isEmpty then [] else '<' :: printAll pad types ++ ['>']) ++ '(' :: printAll pad args ++ [')']
  | .list bracket items => bracket.opening :: printAll pad items ++ [bracket.closing]

/-- The values of a list and the commas between them. -/
def printAll (pad : ℕ) : List Value → List Char
  | [] => []
  | value :: rest => value.print pad ++ printRest pad rest

/-- The values behind the first one. -/
def printRest (pad : ℕ) : List Value → List Char
  | [] => []
  | value :: rest => ',' :: List.replicate pad ' ' ++ value.print pad ++ printRest pad rest

end

/-- `key = value`. -/
def printPair (pad : ℕ) (pair : Key × Value) : List Char := pair.1.1 ++ [' ', '=', ' '] ++ pair.2.print pad

/-- The pairs joined by commas. -/
def printPairs (pad : ℕ) (pairs : List (Key × Value)) : List Char :=
  (',' :: List.replicate pad ' ').intercalate (pairs.map (printPair pad))

/-- The text of a value that a parse is to return. -/
def Value.normalised (pad : ℕ) : Value → List Char
  | .call name [] [.quoted text] =>
    if name.1 = "string".toList then '"' :: text.1 ++ ['"'] else (Value.call name [] [.quoted text]).print pad
  | value => value.print pad

/-- A call of `string` with several arguments of which the first and the last are quoted. -/
def Value.merges : Value → Bool
  | .call name [] (.quoted _ :: rest) =>
    name.1 = "string".toList && match rest.getLast? with
      | some (.quoted _) => true
      | _ => false
  | _ => false

/-! ## Depth -/

/-- Scanning a text at some depth or deeper changes nothing. -/
def Neutral (depth : ℤ) (cs : List Char) : Prop :=
  ∀ (text : List Char) (scan : Scan) (i : ℕ), scan.quoted = false → depth ≤ scan.depth → scanFrom text scan i cs = scan

variable {text cs left right inner front : List Char} {scan : Scan} {depth : ℤ} {i pad : ℕ}

/-- Scanning goes on where the first part leaves off. -/
theorem scanFrom_append : scanFrom text scan i (left ++ right) =
    scanFrom text (scanFrom text scan i left) (i + left.length) right := by
  induction left generalizing scan i with
  | nil => rfl
  | cons ch left ih =>
    rw [List.cons_append, scanFrom, ih, scanFrom, List.length_cons, Nat.add_right_comm, Nat.add_assoc]

/-- A round outside of quotes. -/
theorem scanChar_of_unquoted {ch : Char} (hquoted : scan.quoted = false) : scanChar text scan i ch =
    if ch = '"' then { scan with quoted := true }
    else if ch ∈ ['(', '[', '<'] then { scan with depth := scan.depth + 1 }
    else if ch ∈ [')', ']', '>'] then { scan with depth := scan.depth - 1 }
    else if ch = ',' ∧ scan.depth = 0 then
      { scan with out := scan.out ++ [(text.take i).drop scan.start], start := i + 1 }
    else scan :=
  if_neg (ne_true_of_eq_false hquoted)

namespace Neutral

/-- The empty text changes nothing. -/
theorem nil : Neutral depth [] := fun _ _ _ _ _ => rfl

/-- Two neutral texts in a row are neutral. -/
theorem append (hleft : Neutral depth left) (hright : Neutral depth right) : Neutral depth (left ++ right) := by
  intro text scan i hquoted hdepth
  rw [scanFrom_append, hleft text scan i hquoted hdepth, hright text scan _ hquoted hdepth]

/-- What is neutral stays so inside more brackets. -/
theorem mono {deeper : ℤ} (h : Neutral depth cs) (hle : depth ≤ deeper) : Neutral deeper cs :=
  fun text scan i hquoted hdepth => h text scan i hquoted (hle.trans hdepth)

/-- Characters without a meaning. -/
theorem of_forall (h : ∀ c ∈ cs, c ∉ ['"', '(', '[', '<', ')', ']', '>', ',']) : Neutral depth cs := by
  intro text scan i hquoted hdepth
  induction cs generalizing i with
  | nil => rfl
  | cons c cs ih =>
    have hc := h c List.mem_cons_self
    have hkept : scanChar text scan i c = scan := by
      simp only [List.mem_cons, List.not_mem_nil, or_false, not_or] at hc
      obtain ⟨hquote, hround, hsquare, hangle, hround', hsquare', hangle', hcomma⟩ := hc
      rw [scanChar_of_unquoted hquoted]
      simp [hquote, hround, hsquare, hangle, hround', hsquare', hangle', hcomma]
    rw [scanFrom, hkept]
    exact ih (fun c hmem => h c (List.mem_cons_of_mem _ hmem)) _

/-- A quoted text, whatever stands in it. -/
theorem quoted (h : '"' ∉ cs) : Neutral depth ('"' :: cs ++ ['"']) := by
  intro text scan i hquoted _
  have hinside (i : ℕ) : scanFrom text { scan with quoted := true } i (cs ++ ['"']) = scan := by
    induction cs generalizing i with
    | nil =>
      rw [List.nil_append, scanFrom, scanFrom, scanChar, if_pos rfl, if_pos rfl, ← hquoted]
    | cons c cs ih =>
      have hc : c ≠ '"' := fun heq => h (heq ▸ List.mem_cons_self)
      rw [List.cons_append, scanFrom, scanChar, if_pos rfl, if_neg hc]
      exact ih (fun hmem => h (List.mem_cons_of_mem _ hmem)) _
  rw [List.cons_append, scanFrom, scanChar_of_unquoted hquoted, if_pos rfl]
  exact hinside _

/-- A text in brackets: the depth inside of them is positive. -/
theorem brackets {opening closing : Char} (hopening : opening ∈ ['(', '[', '<']) (hclosing : closing ∈ [')', ']', '>'])
    (hinner : Neutral 1 inner) : Neutral 0 (opening :: inner ++ [closing]) := by
  intro text scan i hquoted hdepth
  let deeper : Scan := { scan with depth := scan.depth + 1 }
  have hopen : scanChar text scan i opening = deeper := by
    have hquote : opening ≠ '"' := fun heq => absurd (heq ▸ hopening) (by decide)
    rw [scanChar_of_unquoted hquoted, if_neg hquote, if_pos hopening]
  have hclose (i : ℕ) : scanChar text deeper i closing = scan := by
    simp only [List.mem_cons, List.not_mem_nil, or_false] at hclosing
    rw [@scanChar_of_unquoted text deeper _ _ hquoted]
    rcases hclosing with rfl | rfl | rfl <;> simp [deeper]
  have hinside : 1 ≤ deeper.depth := by
    simp only [deeper]
    omega
  rw [List.cons_append, scanFrom, hopen, scanFrom_append, hinner text deeper _ hquoted hinside, scanFrom, hclose,
    scanFrom]

end Neutral

section Printing

/-- A plain character is no quote, bracket, comma or space. -/
theorem isPlain_iff {c : Char} : isPlain c ↔ c ∉ ['"', '(', '[', '<', ')', ']', '>', ','] ∧ ¬isSpace c := by
  simp [isPlain]

/-- Every character of a plain text is plain. -/
theorem Plain.isPlain_of_mem (text : Plain) {c : Char} (hc : c ∈ text.1) : isPlain c :=
  List.all_eq_true.mp text.2.2 c hc

/-- Plain text is neutral. -/
theorem Neutral.plain (text : Plain) : Neutral depth text.1 :=
  of_forall fun _ hc => (isPlain_iff.mp (text.isPlain_of_mem hc)).1

/-- Spaces have no meaning. -/
theorem Neutral.spaces : Neutral depth (List.replicate pad ' ') :=
  of_forall fun c hc => List.eq_of_mem_replicate hc ▸ (by decide)

/-- A comma inside of brackets, with the spaces behind it. -/
theorem Neutral.separator : Neutral 1 (',' :: List.replicate pad ' ') := by
  intro text scan i hquoted hdepth
  have hkept : scanChar text scan i ',' = scan := by
    have hinside : scan.depth ≠ 0 := by omega
    rw [scanChar_of_unquoted hquoted]
    simp [hinside]
  rw [scanFrom, hkept]
  exact Neutral.spaces text scan (i + 1) hquoted hdepth

mutual

/-- A printed value leaves the depth as it is and has no comma outside of its brackets. -/
theorem Value.neutral (pad : ℕ) : ∀ value : Value, Neutral 0 (value.print pad)
  | .plain text => .plain text
  | .quoted text => .quoted text.2
  | .call name types args => by
    have hargs := @Neutral.brackets _ '(' ')' (by decide) (by decide) (neutral_printAll pad args)
    rw [Value.print, List.append_assoc, List.append_assoc]
    refine (Neutral.plain name).append (Neutral.append ?_ hargs)
    split_ifs
    · exact .nil
    · exact .brackets (by decide) (by decide) (neutral_printAll pad types)
  | .list .round items => .brackets (by decide) (by decide) (neutral_printAll pad items)
  | .list .square items => .brackets (by decide) (by decide) (neutral_printAll pad items)

/-- An argument list is neutral inside its brackets. -/
theorem neutral_printAll (pad : ℕ) : ∀ values : List Value, Neutral 1 (printAll pad values)
  | [] => .nil
  | value :: rest => ((value.neutral pad).mono zero_le_one).append (neutral_printRest pad rest)

/-- So is the rest of it. -/
theorem neutral_printRest (pad : ℕ) : ∀ values : List Value, Neutral 1 (printRest pad values)
  | [] => .nil
  | value :: rest =>
    (Neutral.separator.append ((value.neutral pad).mono zero_le_one)).append (neutral_printRest pad rest)

end

end Printing

/-! ## Cutting -/

/-- A text that begins and ends with something other than a space. -/
def Tight (cs : List Char) : Prop :=
  ∃ first last, cs.head? = some first ∧ isSpace first = false ∧ cs.getLast? = some last ∧ isSpace last = false

/-- The ends decide whether stripping changes a text. -/
theorem Tight.append {middle : List Char} (hleft : Tight left) (hright : Tight right) :
    Tight (left ++ middle ++ right) := by
  obtain ⟨first, -, hfirst, hfirstSpace, -⟩ := hleft
  obtain ⟨-, last, -, -, hlast, hlastSpace⟩ := hright
  refine ⟨first, last, ?_, hfirstSpace, ?_, hlastSpace⟩
  · rw [List.append_assoc, List.head?_append, hfirst]
    rfl
  · rw [List.getLast?_append, hlast]
    rfl

/-- A tight text has a first character. -/
theorem Tight.ne_nil (h : Tight cs) : cs ≠ [] := by
  obtain ⟨first, -, hfirst, -⟩ := h
  rintro rfl
  cases hfirst

/-- Stripping takes the spaces around a text and nothing of the text. -/
theorem strip_of_tight {back : List Char} (h : Tight cs) (hfront : ∀ c ∈ front, isSpace c)
    (hback : ∀ c ∈ back, isSpace c) : strip (front ++ cs ++ back) = cs := by
  obtain ⟨first, last, hfirst, hfirstSpace, hlast, hlastSpace⟩ := h
  obtain ⟨rest, rfl⟩ := List.head?_eq_some_iff.mp hfirst
  have hdropped : (front ++ (first :: rest) ++ back).dropWhile isSpace = first :: rest ++ back := by
    rw [List.append_assoc, List.dropWhile_append_of_pos hfront, List.cons_append,
      List.dropWhile_cons_of_neg (ne_true_of_eq_false hfirstSpace)]
  obtain ⟨begin, hbegin⟩ := List.getLast?_eq_some_iff.mp hlast
  rw [strip, hdropped, hbegin, List.rdropWhile, List.reverse_append,
    List.dropWhile_append_of_pos fun c hc => hback c (List.mem_reverse.mp hc), List.reverse_append,
    List.reverse_singleton, List.singleton_append, List.dropWhile_cons_of_neg (ne_true_of_eq_false hlastSpace),
    List.reverse_cons, List.reverse_reverse]

theorem isSpace_of_mem_replicate {n : ℕ} {c : Char} (h : c ∈ List.replicate n ' ') : isSpace c :=
  List.eq_of_mem_replicate h ▸ (by decide)

/-- Stripping takes off exactly the padding. -/
theorem strip_spaces_append {n : ℕ} (h : Tight cs) : strip (List.replicate n ' ' ++ cs) = cs := by
  have hstrip := @strip_of_tight cs (List.replicate n ' ') [] h (fun c => isSpace_of_mem_replicate)
    fun c hc => absurd hc List.not_mem_nil
  rwa [List.append_nil] at hstrip

/-- The variables at the beginning of a piece, behind some part of the text. -/
def Scan.behind (out : List (List Char)) (done : List Char) : Scan :=
  { out, depth := 0, start := done.length, quoted := false }

/-- The comma behind a piece cuts it off. -/
theorem scanFrom_piece {done piece rest : List Char} {out : List (List Char)} (hpiece : Neutral 0 piece)
    (htext : text = done ++ (piece ++ ',' :: rest)) :
    scanFrom text (.behind out done) done.length (piece ++ ',' :: rest) =
      scanFrom text (.behind (out ++ [piece]) (done ++ piece ++ [','])) (done ++ piece ++ [',']).length rest := by
  have hcut : (text.take (done ++ piece).length).drop done.length = piece := by
    rw [htext, ← List.append_assoc, List.take_left, List.drop_left]
  rw [List.length_append] at hcut
  have hlength : (done ++ piece ++ [',']).length = done.length + piece.length + 1 := by
    rw [List.length_append, List.length_append, List.length_singleton]
  rw [scanFrom_append, hpiece text _ _ rfl le_rfl, scanFrom, scanChar_of_unquoted rfl, if_neg (by decide),
    if_neg (by decide), if_neg (by decide), if_pos ⟨rfl, rfl⟩, Scan.behind, hcut, Scan.behind, hlength]

/-- From the beginning of an item on, the scan cuts at the commas between the items. -/
theorem scanFrom_items {n : ℕ} {done : List Char} {out : List (List Char)} {item : List Char} {items : List (List Char)}
    (hitems : ∀ other ∈ item :: items, Neutral 0 other ∧ Tight other)
    (htext : text = done ++ (List.replicate n ' ' ++ (',' :: List.replicate pad ' ').intercalate (item :: items))) :
    let final := scanFrom text (.behind out done) done.length
      (List.replicate n ' ' ++ (',' :: List.replicate pad ' ').intercalate (item :: items))
    (final.out ++ [text.drop final.start]).map strip = out.map strip ++ item :: items := by
  obtain ⟨hneutral, htight⟩ := hitems item List.mem_cons_self
  have hpiece : Neutral 0 (List.replicate n ' ' ++ item) := Neutral.spaces.append hneutral
  simp only
  induction items generalizing n done out item with
  | nil =>
    rw [List.intercalate_singleton] at htext ⊢
    rw [hpiece text _ _ rfl le_rfl, List.map_append, List.map_singleton, Scan.behind, htext, List.drop_left,
      strip_spaces_append htight]
  | cons next items ih =>
    have hjoin : List.replicate n ' ' ++ (',' :: List.replicate pad ' ').intercalate (item :: next :: items) =
        List.replicate n ' ' ++ item ++
          ',' :: (List.replicate pad ' ' ++ (',' :: List.replicate pad ' ').intercalate (next :: items)) := by
      rw [List.intercalate_cons_cons, List.append_assoc, List.append_assoc, List.cons_append]
    rw [hjoin] at htext ⊢
    have hothers : ∀ other ∈ next :: items, Neutral 0 other ∧ Tight other :=
      fun other hother => hitems other (List.mem_cons_of_mem _ hother)
    obtain ⟨hnext, hnextTight⟩ := hothers next List.mem_cons_self
    rw [scanFrom_piece hpiece htext, ih hothers (by rw [htext]; simp only [List.append_assoc, List.singleton_append])
      hnext hnextTight (Neutral.spaces.append hnext), List.map_append, List.map_singleton, strip_spaces_append htight,
      List.append_assoc, List.singleton_append]

/-- Items joined by commas are split again. -/
theorem splitTop_intercalate {items : List (List Char)} (hitems : ∀ item ∈ items, Neutral 0 item ∧ Tight item) :
    splitTop ((',' :: List.replicate pad ' ').intercalate items) = items := by
  match items with
  | [] => rfl
  | item :: rest =>
    have hcut := @scanFrom_items _ pad 0 [] [] item rest hitems rfl
    simp only [List.replicate_zero, List.nil_append, List.map_nil] at hcut
    set text := (',' :: List.replicate pad ' ').intercalate (item :: rest)
    set final := scanFrom text (.behind [] []) ([] : List Char).length text
    have htail : strip (text.drop final.start) ≠ [] := by
      have hmem : strip (text.drop final.start) ∈ item :: rest := by
        rw [← hcut, List.map_append]
        exact List.mem_append_right _ List.mem_cons_self
      exact (hitems _ hmem).2.ne_nil
    have hout : splitTop text = (if strip (text.drop final.start) ≠ [] then final.out ++ [text.drop final.start]
        else final.out).map strip := rfl
    rw [hout, if_pos htail, hcut]

/-! ## First and last characters -/

/-- Whether a value is a quoted text. -/
def Value.isQuoted : Value → Bool
  | .quoted _ => true
  | _ => false

section Ends

variable {value : Value} {values : List Value}

/-- A plain text begins and ends with plain characters. -/
theorem Plain.ends (text : Plain) : ∃ first last, text.1.head? = some first ∧ text.1.getLast? = some last ∧
    isPlain first ∧ isPlain last := by
  refine ⟨text.1.head text.2.1, text.1.getLast text.2.1, List.head?_eq_some_head _, List.getLast?_eq_some_getLast _,
    text.isPlain_of_mem (List.head_mem _), text.isPlain_of_mem (List.getLast_mem _)⟩

theorem isSpace_of_isPlain {c : Char} (h : isPlain c) : isSpace c = false := eq_false_of_ne_true (isPlain_iff.mp h).2

theorem ne_quote_of_isPlain {c : Char} (h : isPlain c) : c ≠ '"' := fun heq => by
  rw [heq] at h
  exact absurd h (by decide)

/-- The first and the last character of a printed value are no spaces, and they are quotes if the value is quoted. -/
theorem Value.ends (pad : ℕ) (value : Value) : ∃ first last, (value.print pad).head? = some first ∧
    (value.print pad).getLast? = some last ∧ (isSpace first = false ∧ isSpace last = false) ∧
    (first = '"' ↔ value.isQuoted) ∧ (last = '"' ↔ value.isQuoted) := by
  match value with
  | .plain text =>
    obtain ⟨first, last, hfirst, hlast, hfirstPlain, hlastPlain⟩ := text.ends
    exact ⟨first, last, hfirst, hlast, ⟨isSpace_of_isPlain hfirstPlain, isSpace_of_isPlain hlastPlain⟩,
      iff_of_false (ne_quote_of_isPlain hfirstPlain) Bool.false_ne_true,
      iff_of_false (ne_quote_of_isPlain hlastPlain) Bool.false_ne_true⟩
  | .quoted text =>
    exact ⟨'"', '"', rfl, List.getLast?_concat, ⟨by decide, by decide⟩, iff_of_true rfl rfl, iff_of_true rfl rfl⟩
  | .call name types args =>
    obtain ⟨first, -, hfirst, -, hfirstPlain, -⟩ := name.ends
    refine ⟨first, ')', ?_, List.getLast?_concat, ⟨isSpace_of_isPlain hfirstPlain, by decide⟩,
      iff_of_false (ne_quote_of_isPlain hfirstPlain) Bool.false_ne_true, iff_of_false (by decide) Bool.false_ne_true⟩
    rw [Value.print, List.append_assoc, List.append_assoc, List.head?_append, hfirst]
    rfl
  | .list .round items =>
    exact ⟨'(', ')', rfl, List.getLast?_concat, ⟨by decide, by decide⟩,
      iff_of_false (by decide) Bool.false_ne_true, iff_of_false (by decide) Bool.false_ne_true⟩
  | .list .square items =>
    exact ⟨'[', ']', rfl, List.getLast?_concat, ⟨by decide, by decide⟩,
      iff_of_false (by decide) Bool.false_ne_true, iff_of_false (by decide) Bool.false_ne_true⟩

/-- A printed value has no space at its ends. -/
theorem Value.tight (pad : ℕ) (value : Value) : Tight (value.print pad) := by
  obtain ⟨first, last, hfirst, hlast, hspaces, -⟩ := value.ends pad
  exact ⟨first, last, hfirst, hspaces.1, hlast, hspaces.2⟩

/-- Printing distributes over joining argument lists. -/
theorem printRest_append (right : List Value) :
    printRest pad (values ++ right) = printRest pad values ++ printRest pad right := by
  induction values with
  | nil => rfl
  | cons value values ih => rw [List.cons_append, printRest, printRest, ih, ← List.append_assoc]

/-- A printed list ends with its last value. -/
theorem exists_printAll_append : ∃ lead, printAll pad (values ++ [value]) = lead ++ value.print pad := by
  match values with
  | [] => exact ⟨[], List.append_nil _⟩
  | first :: rest =>
    refine ⟨first.print pad ++ (printRest pad rest ++ (',' :: List.replicate pad ' ')), ?_⟩
    rw [List.cons_append, printAll, printRest_append, printRest, printRest, List.append_nil, List.append_assoc,
      List.append_assoc]

end Ends

/-! ## Calls of `string` -/

section Strings

variable {value : Value} {name : Plain} {args : List Value}

/-- Two words, each behind it a character that is in neither of them, and one text begins with the other. -/
theorem prefix_iff_of_stop {p : Char → Bool} {x y : Char} {word other tail rest : List Char} (hword : ∀ c ∈ word, p c)
    (hother : ∀ c ∈ other, p c) (hx : p x = false) (hy : p y = false) :
    word ++ x :: tail <+: other ++ y :: rest ↔ word = other ∧ x = y ∧ tail <+: rest := by
  induction word generalizing other with
  | nil =>
    match other with
    | [] => rw [List.nil_append, List.nil_append, List.cons_prefix_cons, and_iff_right rfl]
    | c :: other =>
      rw [List.nil_append, List.cons_append, List.cons_prefix_cons]
      refine iff_of_false (fun ⟨hc, _⟩ => ?_) fun ⟨hword, _⟩ => List.cons_ne_nil _ _ hword.symm
      exact absurd (hother x (hc ▸ List.mem_cons_self)) (ne_true_of_eq_false hx)
  | cons c word ih =>
    match other with
    | [] =>
      rw [List.nil_append, List.cons_append, List.cons_prefix_cons]
      refine iff_of_false (fun ⟨hc, _⟩ => ?_) fun ⟨hword, _⟩ => List.cons_ne_nil _ _ hword
      exact absurd (hword y (hc ▸ List.mem_cons_self)) (ne_true_of_eq_false hy)
    | d :: other =>
      rw [List.cons_append, List.cons_append, List.cons_prefix_cons, List.cons.injEq,
        ih (fun c hc => hword c (List.mem_cons_of_mem _ hc)) fun c hc => hother c (List.mem_cons_of_mem _ hc),
        and_assoc]

theorem string_begins : "string(\"".toList = "string".toList ++ '(' :: ['"'] := rfl

theorem isPlain_of_mem_string : ∀ c ∈ "string".toList, isPlain c := List.all_eq_true.mp (by decide)

/-- A list of values in brackets begins with a quote if its first value is quoted. -/
theorem quote_prefix_printAll : ['"'] <+: printAll pad args ++ [')'] ↔ ∃ text rest, args = .quoted text :: rest := by
  match args with
  | [] => exact iff_of_false (by rw [printAll]; decide) fun ⟨_, _, h⟩ => List.cons_ne_nil _ _ h.symm
  | value :: rest =>
    obtain ⟨first, -, hfirst, -, -, hquoted, -⟩ := value.ends pad
    obtain ⟨tail, htail⟩ := List.head?_eq_some_iff.mp hfirst
    rw [printAll, htail, List.cons_append, List.cons_append, List.cons_prefix_cons,
      and_iff_left List.nil_prefix, eq_comm, hquoted]
    match value with
    | .quoted text => exact iff_of_true rfl ⟨text, rest, rfl⟩
    | .plain _ => exact iff_of_false Bool.false_ne_true fun ⟨_, _, h⟩ => by cases h
    | .call _ _ _ => exact iff_of_false Bool.false_ne_true fun ⟨_, _, h⟩ => by cases h
    | .list _ _ => exact iff_of_false Bool.false_ne_true fun ⟨_, _, h⟩ => by cases h

/-- Only a call of `string` without types whose first argument is quoted looks like a quoted text in `string`. -/
theorem string_begins_print : "string(\"".toList <+: value.print pad ↔
    ∃ name text rest, value = .call name [] (.quoted text :: rest) ∧ name.1 = "string".toList := by
  match value with
  | .plain text =>
    refine iff_of_false (fun hstarts => ?_) fun ⟨_, _, _, h, _⟩ => by cases h
    exact absurd (text.isPlain_of_mem (hstarts.subset (by decide : '(' ∈ "string(\"".toList))) (by decide)
  | .quoted text =>
    refine iff_of_false (fun hstarts => ?_) fun ⟨_, _, _, h, _⟩ => by cases h
    exact absurd (List.cons_prefix_cons.mp hstarts).1 (by decide)
  | .list bracket items =>
    refine iff_of_false (fun hstarts => ?_) fun ⟨_, _, _, h, _⟩ => by cases h
    cases bracket <;> exact absurd (List.cons_prefix_cons.mp hstarts).1 (by decide)
  | .call name (type :: types) args =>
    refine iff_of_false (fun hstarts => ?_) fun ⟨_, _, _, h, _⟩ => by cases h
    rw [Value.print, List.isEmpty_cons, if_neg Bool.false_ne_true, string_begins, List.append_assoc, List.append_assoc,
      List.append_assoc, List.cons_append, prefix_iff_of_stop isPlain_of_mem_string (fun _ => name.isPlain_of_mem)
      (by decide) (by decide)] at hstarts
    exact absurd hstarts.2.1 (by decide)
  | .call name [] args =>
    rw [Value.print, List.isEmpty_nil, if_pos rfl, List.append_nil, string_begins, List.append_assoc, List.cons_append,
      prefix_iff_of_stop isPlain_of_mem_string (fun _ => name.isPlain_of_mem) (by decide) (by decide),
      quote_prefix_printAll]
    refine ⟨fun ⟨hname, _, text, rest, hargs⟩ => ⟨name, text, rest, hargs ▸ rfl, hname.symm⟩, ?_⟩
    rintro ⟨_, text, rest, hcall, hname⟩
    cases hcall
    exact ⟨hname.symm, rfl, text, rest, rfl⟩

/-- A text in front of a closing bracket ends with a quote. -/
theorem quote_suffix {lead : List Char} : "\")".toList <:+ lead ++ [')'] ↔ lead.getLast? = some '"' := by
  have hreverse : ("\")".toList).reverse = [')', '"'] := rfl
  rw [← List.reverse_prefix, hreverse, List.reverse_append, List.reverse_singleton, List.singleton_append,
    List.cons_prefix_cons, and_iff_right rfl, List.getLast?_eq_head?_reverse]
  match lead.reverse with
  | [] => exact iff_of_false (by decide) nofun
  | c :: _ => rw [List.cons_prefix_cons, and_iff_left List.nil_prefix, List.head?_cons, Option.some.injEq, eq_comm]

/-- `normalise` unwraps a quoted string. -/
theorem normalise_string_quoted (text : List Char) :
    normalise ("string(\"".toList ++ (text ++ "\")".toList)) = '"' :: text ++ ['"'] := by
  have hlength : ("string(\"".toList ++ (text ++ "\")".toList)).length - 2 =
      ("string(\"".toList ++ text).length := by
    simp only [List.length_append]
    exact Nat.add_sub_cancel _ 2
  have hsuffix : "\")".toList <:+ "string(\"".toList ++ (text ++ "\")".toList) :=
    ⟨"string(\"".toList ++ text, List.append_assoc _ _ _⟩
  rw [normalise, if_pos ⟨List.prefix_append _ _, hsuffix⟩, hlength, ← List.append_assoc, List.take_left]
  rfl

/-- The text of a call without types. -/
theorem print_call : (Value.call name [] args).print pad = name.1 ++ '(' :: printAll pad args ++ [')'] := by
  rw [Value.print, List.isEmpty_nil, if_pos rfl, List.append_nil]

/-- A call of `string` loses its name if its last argument is quoted as well. -/
theorem normalise_print_call {text : Unquoted} {middle : List Value} {last : Value} (hname : name.1 = "string".toList) :
    normalise ((Value.call name [] (.quoted text :: (middle ++ [last]))).print pad) =
        (Value.call name [] (.quoted text :: (middle ++ [last]))).print pad ↔
      last.isQuoted = false := by
  have hstarts := (@string_begins_print pad _).mpr ⟨name, text, middle ++ [last], rfl, hname⟩
  obtain ⟨lead, hlead⟩ := exists_printAll_append
  obtain ⟨-, final, -, hfinal, -, -, hquoted⟩ := last.ends pad
  have hlast : (name.1 ++ '(' :: printAll pad (.quoted text :: (middle ++ [last]))).getLast? = some final := by
    rw [← List.cons_append, hlead, ← List.cons_append, ← List.append_assoc, List.getLast?_append, hfinal]
    rfl
  have hends : "\")".toList <:+ (Value.call name [] (.quoted text :: (middle ++ [last]))).print pad ↔
      last.isQuoted := by
    rw [print_call, quote_suffix, hlast, Option.some.injEq, hquoted]
  rw [← Bool.not_eq_true, ← hends]
  refine ⟨fun heq hsuffix => ?_, fun hsuffix => if_neg fun h => hsuffix h.2⟩
  rw [normalise, if_pos ⟨hstarts, hsuffix⟩, print_call, hname] at heq
  exact absurd (List.cons.inj heq).1 (by decide)

/-- With more than one argument nothing is to be normalised. -/
theorem normalised_call {text : Unquoted} {middle : List Value} {last : Value} :
    (Value.call name [] (.quoted text :: (middle ++ [last]))).normalised pad =
      (Value.call name [] (.quoted text :: (middle ++ [last]))).print pad := by
  cases middle <;> rfl

/-- A call named `string` merges as its last argument does. -/
theorem merges_call {text : Unquoted} {middle : List Value} {last : Value} (hname : name.1 = "string".toList) :
    (Value.call name [] (.quoted text :: (middle ++ [last]))).merges = last.isQuoted := by
  rw [Value.merges, List.getLast?_concat, decide_eq_true hname, Bool.true_and]
  cases last <;> rfl

/-- A value's text is normalised as it should be unless the value is a call of `string` that loses its name. -/
theorem normalise_print : normalise (value.print pad) = value.normalised pad ↔ value.merges = false := by
  by_cases hstarts : "string(\"".toList <+: value.print pad
  · obtain ⟨name, text, rest, rfl, hname⟩ := string_begins_print.mp hstarts
    obtain rfl | ⟨middle, last, rfl⟩ := rest.eq_nil_or_concat'
    · refine iff_of_true ?_ (by rw [Value.merges, List.getLast?_nil, Bool.and_false])
      have htext : "string".toList ++ '(' :: ('"' :: text.1 ++ ['"']) ++ [')'] =
          "string(\"".toList ++ (text.1 ++ "\")".toList) := by
        rw [string_begins, List.append_assoc, List.append_assoc, List.cons_append, List.append_assoc]
        rfl
      rw [print_call, hname, printAll, printRest, List.append_nil, Value.print, htext, Value.normalised, if_pos hname]
      exact normalise_string_quoted text.1
    · rw [normalised_call, merges_call hname]
      exact normalise_print_call hname
  · have hkept : normalise (value.print pad) = value.print pad := if_neg fun h => hstarts h.1
    rw [hkept]
    refine iff_of_true ?_ ?_
    · unfold Value.normalised
      split
      · next name text =>
        rw [if_neg fun hname => hstarts (string_begins_print.mpr ⟨name, text, [], rfl, hname⟩)]
      · rfl
    · unfold Value.merges
      split
      · next name text rest =>
        rw [decide_eq_false fun hname => hstarts (string_begins_print.mpr ⟨name, text, rest, rfl, hname⟩),
          Bool.false_and]
      · rfl

end Strings

/-! ## The round trip -/

section RoundTrip

variable {pairs : List (Key × Value)}

/-- A key has no space at its ends. -/
theorem Key.tight (key : Key) : Tight key.1 := by
  obtain ⟨first, last, hfirst, hlast, hfirstPlain, hlastPlain⟩ := Plain.ends ⟨key.1, key.2.1⟩
  exact ⟨first, last, hfirst, isSpace_of_isPlain hfirstPlain, hlast, isSpace_of_isPlain hlastPlain⟩

/-- A printed pair is neutral. -/
theorem neutral_printPair (pair : Key × Value) : Neutral 0 (printPair pad pair) :=
  ((Neutral.plain ⟨pair.1.1, pair.1.2.1⟩).append (.of_forall (by simp))).append (pair.2.neutral pad)

/-- A printed pair has no space at its ends. -/
theorem tight_printPair (pair : Key × Value) : Tight (printPair pad pair) := pair.1.tight.append (pair.2.tight pad)

/-- The splitter returns the printed pairs. -/
theorem splitTop_printPairs : splitTop (printPairs pad pairs) = pairs.map (printPair pad) := by
  refine splitTop_intercalate fun item hitem => ?_
  obtain ⟨pair, -, rfl⟩ := List.mem_map.mp hitem
  exact ⟨neutral_printPair pair, tight_printPair pair⟩

/-- A printed pair is cut at the first equals sign. -/
theorem parseItem_printPair (result : List (List Char × List Char)) (pair : Key × Value) :
    parseItem result (printPair pad pair) = assign result pair.1.1 (normalise (pair.2.print pad)) := by
  have htext : printPair pad pair = (pair.1.1 ++ [' ']) ++ '=' :: ([' '] ++ pair.2.print pad) := by
    rw [printPair, List.append_assoc, List.append_assoc]
    rfl
  have hbefore : ∀ c ∈ pair.1.1 ++ [' '], (decide (c ≠ '=') : Bool) = true := by
    intro c hc
    rcases List.mem_append.mp hc with hc | hc
    · exact decide_eq_true fun heq => pair.1.2.2 (heq ▸ hc)
    · exact List.mem_singleton.mp hc ▸ (by decide)
  have hkey : strip (pair.1.1 ++ [' ']) = pair.1.1 := by
    exact strip_of_tight pair.1.tight (fun _ hc => absurd hc List.not_mem_nil)
      fun _ hc => @isSpace_of_mem_replicate 1 _ hc
  have hvalue : strip ([' '] ++ pair.2.print pad) = pair.2.print pad := @strip_spaces_append _ 1 (pair.2.tight pad)
  rw [parseItem, if_neg (tight_printPair pair).ne_nil, htext, List.takeWhile_append_of_pos hbefore,
    List.dropWhile_append_of_pos hbefore, List.takeWhile_cons_of_neg (by decide),
    List.dropWhile_cons_of_neg (by decide), List.append_nil, List.drop_one, List.tail_cons]
  simp only
  rw [hkey, hvalue]

/-- Distinct keys: each pair is read back, its value normalised. -/
theorem parseKwargs_printPairs (hkeys : (pairs.map Prod.fst).Nodup) : parseKwargs (printPairs pad pairs) =
    pairs.map fun pair => (pair.1.1, normalise (pair.2.print pad)) := by
  have hnodup : (([] : List (List Char × List Char)).map Prod.fst ++
      (pairs.map fun pair => (pair.1.1, normalise (pair.2.print pad))).map Prod.fst).Nodup := by
    rw [List.map_nil, List.nil_append, List.map_map]
    exact (List.map_map (g := Subtype.val) (f := Prod.fst)) ▸ hkeys.map Subtype.val_injective
  have hwrites := foldl_assign_eq_append hnodup
  rw [List.foldl_map, List.nil_append] at hwrites
  rw [parseKwargs, splitTop_printPairs, List.foldl_map, ← hwrites]
  exact congrArg (fun step => pairs.foldl step []) (funext₂ parseItem_printPair)

/-- Printed pairs parse back exactly if no value is a call of `string` with several arguments of which the first and the
last are quoted; the splitter always returns one stripped item for each pair. -/
theorem parseKwargs_roundTrip_iff (hkeys : (pairs.map Prod.fst).Nodup) :
    parseKwargs (printPairs pad pairs) = pairs.map (fun pair => (pair.1.1, pair.2.normalised pad)) ∧
        splitTop (printPairs pad pairs) = pairs.map (printPair pad) ↔
      ∀ pair ∈ pairs, pair.2.merges = false := by
  rw [and_iff_left splitTop_printPairs, parseKwargs_printPairs hkeys, List.map_inj_left]
  refine forall₂_congr fun pair _ => ?_
  rw [Prod.mk.injEq, and_iff_right rfl]
  exact normalise_print

end RoundTrip

/-- `x = conv_1, val = tensor<fp16, [2]>([a, b]), mode = string("a, (b")`. -/
def threePairs : List (Key × Value) :=
  [(⟨['x'], by decide⟩, .plain ⟨"conv_1".toList, by decide⟩),
    (⟨"val".toList, by decide⟩, .call ⟨"tensor".toList, by decide⟩
      [.plain ⟨"fp16".toList, by decide⟩, .list .square [.plain ⟨['2'], by decide⟩]]
      [.list .square [.plain ⟨['a'], by decide⟩, .plain ⟨['b'], by decide⟩]]),
    (⟨"mode".toList, by decide⟩, .call ⟨"string".toList, by decide⟩ [] [.quoted ⟨"a, (b".toList, by decide⟩])]

/-- They are parsed back, and the last value is normalised. -/
theorem parseKwargs_roundTrip_three : parseKwargs (printPairs 1 threePairs) =
    [(['x'], "conv_1".toList), ("val".toList, "tensor<fp16, [2]>([a, b])".toList),
      ("mode".toList, "\"a, (b\"".toList)] :=
  ((parseKwargs_roundTrip_iff (by decide +kernel)).mpr (by decide +kernel)).1.trans (by decide +kernel)

/-- `val = string("a", "b")`. -/
def twoStrings : List (Key × Value) :=
  [(⟨"val".toList, by decide⟩, .call ⟨"string".toList, by decide⟩ []
    [.quoted ⟨['a'], by decide⟩, .quoted ⟨['b'], by decide⟩])]

/-- A call of `string` with two texts comes back as the two texts. -/
theorem parseKwargs_merges_strings :
    parseKwargs (printPairs 1 twoStrings) = [("val".toList, "\"a\", \"b\"".toList)] ∧
      parseKwargs (printPairs 1 twoStrings) ≠ twoStrings.map fun pair => (pair.1.1, pair.2.normalised 1) := by
  have hparse : parseKwargs (printPairs 1 twoStrings) = [("val".toList, "\"a\", \"b\"".toList)] := by decide +kernel
  exact ⟨hparse, fun heq => absurd (hparse.symm.trans heq) (by decide +kernel)⟩

end AneLinux.Encoder
