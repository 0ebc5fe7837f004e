import AneLinux.Support.Incoming
import AneLinux.Support.Python
import AneLinux.Support.Utf8

/-!
# The frames of a resident daemon's response

A client reads the response of the daemon from a pipe: lines, and behind some lines an exact number of bytes. A line is
looked for in a buffer that takes in whatever has arrived, and an exact read empties that buffer before it reads on.
So every byte is either part of a line or part of an output, wherever the pipe happens to cut the stream.
-/

namespace AneLinux.Resident

open AneLinux.Support AneLinux.Support.Incoming

abbrev Text := List Char

/-- A client's computations on what arrives from the daemon. -/
abbrev Reading (α : Type) := Direct (Incoming UInt8) PyError α

def newline : UInt8 := 0x0A

/-- `ResidentDead(f"timeout reading {what}")`. -/
def timeoutReading (what : Text) : PyError := .runtimeError ("timeout reading " ++ String.ofList what)

/-- `ResidentDead(f"daemon EOF while reading {what}")`. -/
def daemonEof (what : Text) : PyError := .runtimeError ("daemon EOF while reading " ++ String.ofList what)

/-- The loop of `_read_exact`. There are no more reads than bytes to come. -/
def readMore (what : Text) (n : ℤ) : ℕ → List UInt8 → Reading (List UInt8)
  | 0, _ => Attempt.raise (timeoutReading what)
  | reads + 1, chunks =>
    if chunks.length < n then do
      let chunk ← receive (timeoutReading what) (daemonEof what) (n - chunks.length).toNat
      readMore what n reads (chunks ++ chunk)
    else pure chunks

/-- `_read_exact`: first what the buffer has, then the pipe. A negative count cuts from the end of the buffer. -/
def readExact (n : ℤ) (what : Text) : Reading (List UInt8) := do
  let s ← Attempt.reads id
  let cut := if n < 0 then (s.buffer.length + n).toNat else n.toNat
  Attempt.change fun s => { s with buffer := s.buffer.drop cut }
  readMore what n (s.pieces.flatten.length + 1) (s.buffer.take cut)

/-- The loop of `_readline`. -/
def readlineLoop (what : Text) : ℕ → Reading Text
  | 0 => Attempt.raise (timeoutReading what)
  | reads + 1 => do
    let buffer ← Attempt.reads Incoming.buffer
    if newline ∈ buffer then do
      let line ← Attempt.orRaise .unicodeDecodeError (decodeUtf8 (buffer.takeWhile (· ≠ newline)))
      Attempt.change fun s => { s with buffer := (buffer.dropWhile (· ≠ newline)).drop 1 }
      return line
    else do
      let chunk ← receive (timeoutReading what) (daemonEof what) 65536
      Attempt.change fun s => { s with buffer := s.buffer ++ chunk }
      readlineLoop what reads

/-- `_readline`. -/
def readline (what : Text) : Reading Text := do
  let reads ← Attempt.reads fun s => s.pieces.flatten.length
  readlineLoop what (reads + 1)

/-- The loop of `_consume_banner`; every round has read a line. -/
def consumeBannerLoop : ℕ → Text → Reading Text
  | 0, _ => Attempt.raise (timeoutReading "resident load report".toList)
  | lines + 1, line =>
    if "resident ".toList <+: line then
      if "resident loaded".toList <+: line then readline "post-banner job report".toList
      else do
        let line ← readline "resident load report".toList
        consumeBannerLoop lines line
    else pure line

/-- `_consume_banner`. -/
def consumeBanner (line : Text) : Reading Text := do
  let lines ← Attempt.reads fun s => s.stream.length
  consumeBannerLoop (lines + 1) line

/-- The next line of a response, without a banner in front of it. -/
def readReply : Reading Text := do
  let line ← readline "job report".toList
  consumeBanner line

/-- `text.split(sep, most)`. -/
def splitMost (sep : Char) : ℕ → Text → List Text
  | 0, text => [text]
  | most + 1, text =>
    match text.dropWhile (· ≠ sep) with
    | [] => [text]
    | _ :: rest => text.takeWhile (· ≠ sep) :: splitMost sep most rest

/-- `str.isspace` of one character. -/
def isSpace (c : Char) : Bool :=
  let v := c.toNat
  (0x09 ≤ v && v ≤ 0x0D) || (0x1C ≤ v && v ≤ 0x20) || v = 0x85 || v = 0xA0 || v = 0x1680 ||
    (0x2000 ≤ v && v ≤ 0x200A) || v = 0x2028 || v = 0x2029 || v = 0x202F || v = 0x205F || v = 0x3000

/-- `text.split()`. -/
def splitSpaces (text : Text) : List Text := (text.splitOnP isSpace).filter (· ≠ [])

/-- The fields of a status line: `dict(tok.split("=", 1) for tok in line.split() if "=" in tok and tok != "job")`. -/
def statusFields (line : Text) : List (Text × Text) :=
  ((splitSpaces line).filter fun tok => '=' ∈ tok ∧ tok ≠ "job".toList).foldl
    (fun fields tok => assign fields (tok.takeWhile (· ≠ '=')) ((tok.dropWhile (· ≠ '=')).drop 1)) []

/-- The response loop of `ResidentSession.submit`, for the `int` of a text; every round has read a line. -/
def respond (int : Text → Option ℤ) : ℕ → List (Text × List UInt8) → Reading (List (Text × List UInt8) × Text)
  | 0, _ => Attempt.raise (timeoutReading "job report".toList)
  | rounds + 1, results => do
    let line ← readReply
    if line = "iter".toList then respond int rounds results
    else if "out ".toList <+: line then
      match splitMost ' ' 2 line with
      | [_, name, length] => do
        let n ← Attempt.orRaise (.valueError "invalid literal for int() with base 10") (int length)
        let payload ← readExact n ("output ".toList ++ name)
        respond int rounds (assign results name payload)
      | _ => Attempt.raise (.valueError "not enough values to unpack")
    else if "job status=".toList <+: line then
      if find (statusFields line) "status".toList = some ['0'] then return (results, line)
      else Attempt.raise (.runtimeError ("resident submit failed: " ++ String.ofList line))
    -- The source shows the line in quotes, with escapes where it needs some.
    else Attempt.raise (.runtimeError ("unexpected daemon line: '" ++ String.ofList line ++ "'"))

/-- What a client has sent, and what arrives for it. -/
structure Session where
  sent : List UInt8
  incoming : Incoming UInt8

/-- The request that `submit` writes, `BUNDLE_NAME` being `whole`. -/
def request (inputs : List (Text × List UInt8)) (outputs : List Text) : List UInt8 :=
  let header := ["submit".toList, "whole".toList] ++
    inputs.flatMap (fun input => ["--inline".toList, input.1 ++ '=' :: Nat.toDigits 10 input.2.length]) ++
    outputs.flatMap fun name => ["--emit".toList, name]
  encodeUtf8 ([' '].intercalate header ++ ['\n']) ++ (inputs.map Prod.snd).flatten

/-- `ResidentSession.submit`. -/
def submit (int : Text → Option ℤ) (inputs : List (Text × List UInt8)) (outputs : List Text) :
    Direct Session PyError (List (Text × List UInt8) × Text) := fun session =>
  let (outcome, incoming) := respond int (session.incoming.stream.length + 1) [] session.incoming
  (outcome, { sent := session.sent ++ request inputs outputs, incoming })

/-! ## Responses -/

/-- The bytes of a line. -/
def lineBytes (line : Text) : List UInt8 := encodeUtf8 line ++ [newline]

/-- A part of a response: the mark of an iteration, or an output with its bytes. -/
inductive Item
  | iter
  | out (name : Text) (payload : List UInt8)

/-- The line of an item. -/
def Item.line : Item → Text
  | .iter => "iter".toList
  | .out name payload => "out ".toList ++ name ++ ' ' :: Nat.toDigits 10 payload.length

/-- The bytes behind the line of an item. -/
def Item.payload : Item → List UInt8
  | .iter => []
  | .out _ payload => payload

/-- The bytes of an item. -/
def Item.bytes (item : Item) : List UInt8 := lineBytes item.line ++ item.payload

/-- A response: the lines of a spawn banner, the items, and the status line. -/
structure Response where
  banner : List Text
  items : List Item
  status : Text

/-- The bytes of a response. -/
def Response.bytes (response : Response) : List UInt8 :=
  response.banner.flatMap lineBytes ++ response.items.flatMap Item.bytes ++ lineBytes response.status

/-- A spawn banner: lines that start with `resident `, of which the last one, and it alone, starts with
`resident loaded`. -/
def IsBanner (lines : List Text) : Prop :=
  (∀ line ∈ lines, "resident ".toList <+: line ∧ '\n' ∉ line) ∧
    (∀ line ∈ lines.dropLast, ¬ "resident loaded".toList <+: line) ∧
    ∀ line ∈ lines.getLast?, "resident loaded".toList <+: line

/-- A name of an output is a part of a line without spaces. -/
def Item.Named : Item → Prop
  | .iter => True
  | .out name _ => ' ' ∉ name ∧ '\n' ∉ name

/-- A status line whose last status field is 0. -/
structure IsStatus (line : Text) : Prop where
  start : "job status=".toList <+: line
  whole : '\n' ∉ line
  zero : ((splitSpaces line).filter fun tok => "status=".toList <+: tok).getLast? = some "status=0".toList

/-- What a daemon answers to a job that succeeds. -/
structure Response.Formed (response : Response) : Prop where
  banner : IsBanner response.banner
  items : ∀ item ∈ response.items, item.Named
  status : IsStatus response.status

/-- The name and the bytes of an output. -/
def Item.output : Item → Option (Text × List UInt8)
  | .iter => none
  | .out name payload => some (name, payload)

/-- The bytes of the last output of a name. -/
def lastPayload (items : List Item) (name : Text) : Option (List UInt8) :=
  ((items.filterMap Item.output).filter fun output => output.1 = name).getLast?.map Prod.snd

/-! ## Lines and outputs -/

section Takes

variable {what line name : Text} {payload : List UInt8}

theorem newline_notMem (h : '\n' ∉ line) : newline ∉ encodeUtf8 line := by
  intro hmem
  obtain ⟨c, hc, hvalue⟩ := exists_of_mem_encodeUtf8 hmem (by decide)
  have hnewline : c = '\n' := Char.toNat_inj.mp hvalue
  exact h (hnewline ▸ hc)

/-- A text in front of a mark that it does not have is cut off there. -/
theorem cut_at {α : Type} [DecidableEq α] {mark : α} {front : List α} (hfront : mark ∉ front) (behind : List α) :
    (front ++ mark :: behind).takeWhile (· ≠ mark) = front ∧
      (front ++ mark :: behind).dropWhile (· ≠ mark) = mark :: behind := by
  have hother : ∀ a ∈ front, decide (a ≠ mark) = true := fun a ha =>
    decide_eq_true fun heq => hfront (heq ▸ ha)
  rw [List.takeWhile_append_of_pos hother, List.dropWhile_append_of_pos hother, List.takeWhile_cons_of_neg (by simp),
    List.dropWhile_cons_of_neg (by simp), List.append_nil]
  exact ⟨rfl, rfl⟩

/-- An exact read takes its bytes, those in the buffer first. -/
theorem readMore_takes {n : ℤ} {reads : ℕ} {chunks rest : List UInt8} {s : Incoming UInt8} (hn : n = payload.length)
    (harriving : s.Arriving) (hstream : chunks ++ s.stream = payload ++ rest) (hlen : chunks.length ≤ payload.length)
    (hbuffer : chunks.length < payload.length → s.buffer = []) (hreads : s.pieces.flatten.length < reads) :
    ∃ s', readMore what n reads chunks s = (.ok payload, s') ∧ s'.Arriving ∧ s'.stream = rest := by
  induction reads generalizing chunks s with
  | zero => omega
  | succ reads ih =>
    rw [readMore]
    by_cases hshort : chunks.length < payload.length
    · rw [if_pos (by omega)]
      have hempty := hbuffer hshort
      have hstream' : chunks ++ s.pieces.flatten = payload ++ rest := by
        rwa [stream, hempty, List.nil_append] at hstream
      have hmore : s.pieces.flatten ≠ [] := by
        intro hnil
        have := congrArg List.length hstream'
        rw [hnil, List.length_append, List.length_append, List.length_nil] at this
        omega
      obtain ⟨chunk, s₁, hs₁, hne, hchunk, hbuffer₁, harriving₁, hflatten⟩ :=
        receive_eq (timeoutReading what) (daemonEof what) harriving hmore
          (by omega : 0 < (n - chunks.length : ℤ).toNat)
      have hpos := List.length_pos_iff.mpr hne
      have hlenFlatten := congrArg List.length hflatten
      rw [List.length_append] at hlenFlatten
      rw [Direct.bind_of_ok hs₁]
      refine ih harriving₁ ?_ ?_ (fun _ => hbuffer₁.trans hempty) (by omega)
      · rw [stream, hbuffer₁, hempty, List.nil_append, List.append_assoc, ← hflatten, hstream']
      · rw [List.length_append]
        omega
    · rw [if_neg (by omega)]
      obtain ⟨rfl, hrest⟩ := List.append_inj hstream (by omega)
      exact ⟨s, rfl, harriving, hrest⟩

theorem readExact_takes : Takes (readExact payload.length what) payload payload := by
  intro s rest harriving hstream
  have hcut : (if (payload.length : ℤ) < 0 then (s.buffer.length + payload.length : ℤ).toNat
      else (payload.length : ℤ).toNat) = payload.length := by
    rw [if_neg (by omega), Int.toNat_natCast]
  rw [readExact, Direct.reads_bind, Direct.change_bind]
  simp only [id, hcut]
  refine readMore_takes rfl harriving ?_ ?_ (fun hshort => ?_) (Nat.lt_succ_self _)
  · rw [stream, ← List.append_assoc, List.take_append_drop]
    exact hstream
  · rw [List.length_take]
    exact min_le_left _ _
  · rw [List.length_take] at hshort
    exact List.drop_eq_nil_of_le (by omega)

/-- A line is taken with its end, however much has arrived behind it. -/
theorem readlineLoop_takes {reads : ℕ} {rest : List UInt8} {s : Incoming UInt8} (hline : '\n' ∉ line)
    (harriving : s.Arriving) (hstream : s.stream = lineBytes line ++ rest) (hreads : s.pieces.flatten.length < reads) :
    ∃ s', readlineLoop what reads s = (.ok line, s') ∧ s'.Arriving ∧ s'.stream = rest := by
  have hnotMem := newline_notMem hline
  induction reads generalizing s with
  | zero => omega
  | succ reads ih =>
    rw [readlineLoop, Direct.reads_bind]
    rw [lineBytes, List.append_assoc, List.singleton_append] at hstream
    by_cases hmem : newline ∈ s.buffer
    · -- What is in front of the first line end in the buffer is the line.
      obtain ⟨front, behind, hbuffer, hfront⟩ := List.eq_append_cons_of_mem hmem
      have hcut := cut_at hfront behind
      rw [stream, hbuffer, List.append_assoc, List.cons_append] at hstream
      have hfrontEq : front = encodeUtf8 line := by
        rw [← (cut_at hfront (behind ++ s.pieces.flatten)).1, hstream, (cut_at hnotMem rest).1]
      have hrest : behind ++ s.pieces.flatten = rest := by
        have h := (cut_at hfront (behind ++ s.pieces.flatten)).2
        rw [hstream, (cut_at hnotMem rest).2] at h
        exact (List.cons.inj h).2.symm
      have htake : s.buffer.takeWhile (· ≠ newline) = encodeUtf8 line := by
        rw [hbuffer, hcut.1, hfrontEq]
      have hdrop : (s.buffer.dropWhile (· ≠ newline)).drop 1 = behind := by
        rw [hbuffer, hcut.2]
        rfl
      rw [if_pos hmem, htake, hdrop, decodeUtf8_encodeUtf8]
      exact ⟨{ s with buffer := behind }, rfl, harriving, hrest⟩
    · rw [if_neg hmem]
      have hmore : s.pieces.flatten ≠ [] := by
        intro hnil
        rw [stream, hnil, List.append_nil] at hstream
        exact hmem (hstream ▸ by simp)
      obtain ⟨chunk, s₁, hs₁, hne, -, hbuffer₁, harriving₁, hflatten⟩ :=
        receive_eq (timeoutReading what) (daemonEof what) harriving hmore (by decide : 0 < 65536)
      have hpos := List.length_pos_iff.mpr hne
      have hlenFlatten := congrArg List.length hflatten
      rw [List.length_append] at hlenFlatten
      rw [Direct.bind_of_ok hs₁, Direct.change_bind]
      refine ih harriving₁ ?_ (by
        change s₁.pieces.flatten.length < reads
        omega)
      rw [lineBytes, List.append_assoc, List.singleton_append, ← hstream, stream, stream, hflatten, hbuffer₁,
        List.append_assoc]

theorem readline_takes (hline : '\n' ∉ line) : Takes (readline what) (lineBytes line) line := by
  intro s rest harriving hstream
  rw [readline, Direct.reads_bind]
  exact readlineLoop_takes hline harriving hstream (Nat.lt_succ_self _)

theorem length_lt_lineBytes (lines : List Text) : lines.length ≤ (lines.flatMap lineBytes).length := by
  induction lines with
  | nil => simp
  | cons line lines ih =>
    rw [List.flatMap_cons, List.length_append, List.length_cons, lineBytes, List.length_append, List.length_singleton]
    omega

/-- Behind the first line of a banner, the rest of it and the line that follows are taken. -/
theorem consumeBannerLoop_takes {fuel : ℕ} {lines : List Text} {first : Text} (hbanner : IsBanner (first :: lines))
    (hline : '\n' ∉ line) (hfuel : lines.length < fuel) :
    Takes (consumeBannerLoop fuel first) (lines.flatMap lineBytes ++ lineBytes line) line := by
  induction lines generalizing fuel first with
  | nil =>
    obtain ⟨fuel, rfl⟩ := Nat.exists_eq_succ_of_ne_zero (by omega : fuel ≠ 0)
    rw [consumeBannerLoop, if_pos (hbanner.1 first List.mem_cons_self).1, if_pos (hbanner.2.2 first rfl)]
    exact readline_takes hline
  | cons second lines ih =>
    obtain ⟨fuel, rfl⟩ := Nat.exists_eq_succ_of_ne_zero (by omega : fuel ≠ 0)
    obtain ⟨hstart, hload, hloaded⟩ := hbanner
    have hfirst := hload first (by simp)
    rw [consumeBannerLoop, if_pos (hstart first List.mem_cons_self).1, if_neg hfirst, List.flatMap_cons,
      List.append_assoc]
    refine (readline_takes (hstart second (by simp)).2).bind (ih ⟨fun l hl => hstart l (List.mem_cons_of_mem _ hl),
      fun l hl => hload l ?_, fun l hl => hloaded l ?_⟩ ?_)
    · rw [List.dropLast_cons_of_ne_nil (by simp)]
      exact List.mem_cons_of_mem _ hl
    · rw [List.getLast?_cons_cons]
      exact hl
    · rw [List.length_cons] at hfuel
      omega

/-- The next line is taken with the banner in front of it, if there is one. -/
theorem readReply_takes {banner : List Text} (hbanner : IsBanner banner) (hline : '\n' ∉ line)
    (hother : ¬ "resident ".toList <+: line) :
    Takes readReply (banner.flatMap lineBytes ++ lineBytes line) line := by
  cases banner with
  | nil =>
    rw [List.flatMap_nil, List.nil_append, ← List.append_nil (lineBytes line)]
    refine (readline_takes hline).bind fun s rest harriving hstream => ?_
    rw [consumeBanner, Direct.reads_bind, consumeBannerLoop, if_neg hother]
    exact ⟨s, rfl, harriving, hstream⟩
  | cons first lines =>
    rw [List.flatMap_cons, List.append_assoc]
    refine (readline_takes (hbanner.1 first List.mem_cons_self).2).bind fun s rest harriving hstream => ?_
    rw [consumeBanner, Direct.reads_bind]
    refine consumeBannerLoop_takes hbanner hline ?_ s rest harriving hstream
    have hlen := length_lt_lineBytes lines
    rw [hstream, List.length_append, List.length_append]
    omega

/-- The line of an output is split into its three parts. -/
theorem splitMost_out (hname : ' ' ∉ name) (length : Text) :
    splitMost ' ' 2 ("out ".toList ++ name ++ ' ' :: length) = ["out".toList, name, length] := by
  have hcut (front behind : Text) (hfront : ' ' ∉ front) (most : ℕ) :
      splitMost ' ' (most + 1) (front ++ ' ' :: behind) = front :: splitMost ' ' most behind := by
    obtain ⟨htake, hdrop⟩ := cut_at hfront behind
    rw [splitMost, hdrop]
    simp only [htake]
  have hline : "out ".toList ++ name ++ ' ' :: length = "out".toList ++ ' ' :: (name ++ ' ' :: length) := by
    simp
  rw [hline, hcut _ _ (by decide), hcut _ _ hname, splitMost]

end Takes

/-! ## The results -/

/-- In a table built from left to right, the last entry of a key counts. -/
theorem find_foldl_assign {α κ β : Type} [DecidableEq κ] (key : α → κ) (value : α → β) (entries : List α)
    (table : List (κ × β)) (k : κ) :
    find (entries.foldl (fun table entry => assign table (key entry) (value entry)) table) k =
      ((entries.filter fun entry => key entry = k).getLast?.map value).or (find table k) := by
  induction entries generalizing table with
  | nil => rfl
  | cons entry entries ih =>
    rw [List.foldl_cons, ih, find_assign]
    by_cases hkey : key entry = k
    · rw [if_pos hkey, List.filter_cons_of_pos (by simpa using hkey), List.getLast?_cons]
      cases (entries.filter fun entry => key entry = k).getLast? <;> rfl
    · rw [if_neg hkey, List.filter_cons_of_neg (by simpa using hkey)]

/-- The fields of a status line have its last status field. -/
theorem IsStatus.fields {line : Text} (h : IsStatus line) :
    find (statusFields line) "status".toList = some ['0'] := by
  have hkey (tok : Text) : (('=' ∈ tok ∧ tok ≠ "job".toList) ∧ tok.takeWhile (· ≠ '=') = "status".toList) ↔
      "status=".toList <+: tok := by
    constructor
    · rintro ⟨⟨hmem, -⟩, htake⟩
      obtain ⟨front, behind, rfl, hfront⟩ := List.eq_append_cons_of_mem hmem
      rw [(cut_at hfront behind).1] at htake
      exact ⟨behind, by simp [htake]⟩
    · rintro ⟨behind, rfl⟩
      have hcut := cut_at (by decide : '=' ∉ "status".toList) behind
      refine ⟨⟨by simp, by simp⟩, hcut.1⟩
  have hfilter : ((splitSpaces line).filter fun tok => '=' ∈ tok ∧ tok ≠ "job".toList).filter
        (fun tok => tok.takeWhile (· ≠ '=') = "status".toList) =
      (splitSpaces line).filter fun tok => "status=".toList <+: tok := by
    rw [List.filter_filter]
    refine List.filter_congr fun tok _ => ?_
    rw [← Bool.decide_and, decide_eq_decide, and_comm]
    exact hkey tok
  rw [statusFields, find_foldl_assign, hfilter, h.zero]
  rfl

/-- The results after an item. -/
def addItem (results : List (Text × List UInt8)) (item : Item) : List (Text × List UInt8) :=
  match item.output with
  | none => results
  | some output => assign results output.1 output.2

/-- The results of a response hold the last output of each name. -/
theorem find_addItems (items : List Item) (name : Text) :
    find (items.foldl addItem []) name = lastPayload items name := by
  have hfold (results : List (Text × List UInt8)) : items.foldl addItem results =
      (items.filterMap Item.output).foldl (fun results output => assign results output.1 output.2) results := by
    induction items generalizing results with
    | nil => rfl
    | cons item items ih =>
      rw [List.foldl_cons, ih]
      cases item <;> rfl
  rw [hfold, find_foldl_assign, lastPayload, find, Option.or_none]

section Respond

variable {int : Text → Option ℤ}

theorem isBanner_nil : IsBanner [] := ⟨by simp, by simp, by simp⟩

/-- A response is taken whole, and nothing behind it. -/
theorem respond_takes (hint : ∀ n : ℕ, int (Nat.toDigits 10 n) = some (n : ℤ)) {fuel : ℕ} {banner : List Text}
    {items : List Item} {status : Text} {results : List (Text × List UInt8)} (hbanner : IsBanner banner)
    (hitems : ∀ item ∈ items, item.Named) (hstatus : IsStatus status) (hfuel : items.length < fuel) :
    Takes (respond int fuel results) (banner.flatMap lineBytes ++ items.flatMap Item.bytes ++ lineBytes status)
      (items.foldl addItem results, status) := by
  induction items generalizing fuel banner results with
  | nil =>
    obtain ⟨fuel, rfl⟩ := Nat.exists_eq_succ_of_ne_zero (by omega : fuel ≠ 0)
    obtain ⟨tail, rfl⟩ := hstatus.start
    have hreply := readReply_takes hbanner hstatus.whole (by simp)
    rw [List.flatMap_nil, List.append_nil, ← List.append_nil (_ ++ lineBytes _), respond]
    refine hreply.bind ?_
    rw [if_neg (by simp), if_neg (by simp), if_pos (List.prefix_append _ _), if_pos hstatus.fields]
    exact Takes.pure _
  | cons item items ih =>
    obtain ⟨fuel, rfl⟩ := Nat.exists_eq_succ_of_ne_zero (by omega : fuel ≠ 0)
    obtain ⟨hitem, hitems⟩ := List.forall_mem_cons.mp hitems
    rw [List.length_cons] at hfuel
    have hrest (results : List (Text × List UInt8)) : Takes (respond int fuel results)
        (items.flatMap Item.bytes ++ lineBytes status) (items.foldl addItem results, status) :=
      ih isBanner_nil hitems (by omega)
    have hbytes : banner.flatMap lineBytes ++ (item :: items).flatMap Item.bytes ++ lineBytes status =
        (banner.flatMap lineBytes ++ lineBytes item.line) ++
          (item.payload ++ (items.flatMap Item.bytes ++ lineBytes status)) := by
      rw [List.flatMap_cons, Item.bytes]
      simp only [List.append_assoc]
    rw [hbytes, List.foldl_cons, respond]
    cases item with
    | iter =>
      refine (readReply_takes hbanner (by decide) (by decide)).bind ?_
      have hiter : Item.iter.line = "iter".toList := rfl
      rw [if_pos hiter]
      exact hrest results
    | out name payload =>
      have hline : '\n' ∉ (Item.out name payload).line := by
        have hdigits : '\n' ∉ Nat.toDigits 10 payload.length := fun hmem =>
          absurd (Nat.isDigit_of_mem_toDigits (by decide) (by decide) hmem) (by decide)
        simp [Item.line, hitem.2, hdigits]
      refine (readReply_takes hbanner hline (by simp [Item.line])).bind ?_
      rw [if_neg (by simp [Item.line]), if_pos ⟨name ++ ' ' :: Nat.toDigits 10 payload.length, by simp [Item.line]⟩,
        Item.line, splitMost_out hitem.1]
      simp only [hint]
      exact readExact_takes.bind (hrest _)

end Respond

/-- However the bytes arrive, a client gets the last output of every name and the status line, and what is behind the
response is left. -/
theorem submit_fragmentation (int : Text → Option ℤ) (hint : ∀ n : ℕ, int (Nat.toDigits 10 n) = some (n : ℤ))
    (response : Response) (hresponse : response.Formed) (further : List UInt8) (inputs : List (Text × List UInt8))
    (outputs : List Text) (session : Session) (harriving : session.incoming.Arriving)
    (hstream : session.incoming.stream = response.bytes ++ further) :
    ∃ results session', submit int inputs outputs session = (.ok (results, response.status), session') ∧
      (∀ name, find results name = lastPayload response.items name) ∧ session'.incoming.stream = further := by
  have hfuel : response.items.length < session.incoming.stream.length + 1 := by
    have hitems (items : List Item) : items.length ≤ (items.flatMap Item.bytes).length := by
      induction items with
      | nil => simp
      | cons item items ih =>
        rw [List.flatMap_cons, List.length_append, List.length_cons, Item.bytes, lineBytes]
        simp only [List.length_append, List.length_singleton]
        omega
    have := hitems response.items
    rw [hstream, Response.bytes]
    simp only [List.length_append]
    omega
  have htakes (results : List (Text × List UInt8)) :=
    @respond_takes int hint _ _ _ _ results hresponse.banner hresponse.items hresponse.status hfuel
  obtain ⟨incoming, hincoming, -, hrest⟩ := htakes [] session.incoming further harriving hstream
  refine ⟨response.items.foldl addItem [], ⟨session.sent ++ request inputs outputs, incoming⟩, ?_,
    find_addItems response.items, hrest⟩
  rw [submit, hincoming]

/-- The decimal value of a text. -/
def decimalInt (text : Text) : Option ℤ := some (Nat.ofDigitChars 10 text 0)

theorem decimalInt_toDigits (n : ℕ) : decimalInt (Nat.toDigits 10 n) = some (n : ℤ) := by
  rw [decimalInt, Nat.ofDigitChars_ten_toDigits]

/-- A session for which some bytes arrive one by one. -/
def byteByByte (bytes : List UInt8) : Session := ⟨[], ⟨[], bytes.map fun b => [b]⟩⟩

/-- A later status field of the status line counts, and the first line that says that the daemon is loaded ends the
banner. -/
theorem submit_second_status :
    (submit decimalInt [] [] (byteByByte (lineBytes "job status=0 status=1".toList))).1 =
        .error (.runtimeError "resident submit failed: job status=0 status=1") ∧
      (submit decimalInt [] [] (byteByByte (lineBytes "resident loaded a".toList ++
          lineBytes "resident loaded b".toList ++ lineBytes "job status=0".toList))).1 =
        .error (.runtimeError "unexpected daemon line: 'resident loaded b'") := by
  constructor <;> decide +kernel

/-- An output with a line end in it, and an empty one of the same name, one byte at a time. -/
theorem submit_fragmentation_bytes :
    let response : Response :=
      ⟨["resident bundle=a".toList, "resident loaded pid=1".toList],
        [.iter, .out ['y'] [newline, 7], .out ['y'] []], "job status=0 ns=5".toList⟩
    ∃ results session', submit decimalInt [] [] (byteByByte (response.bytes ++ [1, 2])) =
        (.ok (results, response.status), session') ∧
      (∀ name, find results name = lastPayload response.items name) ∧ session'.incoming.stream = [1, 2] := by
  intro response
  refine submit_fragmentation decimalInt decimalInt_toDigits response ⟨⟨?_, ?_, ?_⟩, ?_, ⟨?_, ?_, ?_⟩⟩
    [1, 2] [] [] _ ?_ ?_
  · decide
  · decide
  · decide
  · intro item hitem
    simp only [response, List.mem_cons, List.not_mem_nil, or_false] at hitem
    obtain rfl | rfl | rfl := hitem
    · trivial
    · exact ⟨by decide, by decide⟩
    · exact ⟨by decide, by decide⟩
  · decide
  · decide
  · decide +kernel
  · intro piece hpiece
    obtain ⟨b, -, rfl⟩ := List.mem_map.mp hpiece
    exact List.cons_ne_nil b []
  · have hflatten (bytes : List UInt8) : (bytes.map fun b => [b]).flatten = bytes := by
      induction bytes with
      | nil => rfl
      | cons b bytes ih => rw [List.map_cons, List.flatten_cons, ih, List.singleton_append]
    rw [stream, byteByByte, hflatten, List.nil_append]

end AneLinux.Resident
