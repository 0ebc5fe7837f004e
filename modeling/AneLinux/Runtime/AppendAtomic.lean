import AneLinux.Runtime.AttentionRing

/-!
# When an append that raises changes nothing

An append writes the key row first and the value column next, and the two writes check different ranges. The constructor
admits every context that the score program has rows for, and the value program has 256 columns: when the cursor has
passed them, or the value program is closed, the append raises with the key already written.
-/

namespace AneLinux.Runtime

open AneLinux.Support AneLinux.Staged

/-- `MutableGemm.close`. -/
def MutableGemm.close (gemm : MutableGemm) : MutableGemm := { gemm with closed := true }

variable {gemm next score : MutableGemm} {s : AttentionGemmState} {context : ℕ}

namespace AttentionGemmState

/-- What happens to a ring from outside: an append, or one of its programs is closed. -/
inductive Call
  | append (key value : HalfArray)
  | closeScore
  | closeValue

/-- Make a call. -/
def Call.run : Call → Stmt AttentionGemmState
  | append key value => AttentionGemmState.append key value
  | closeScore => Stmt.update fun s => { s with scoreProgram := s.scoreProgram.close }
  | closeValue => Stmt.update fun s => { s with valueProgram := s.valueProgram.close }

/-- The ring after a run of calls; what they raise is caught. -/
def after (calls : List Call) (s : AttentionGemmState) : AttentionGemmState :=
  calls.foldl (fun s call => (call.run s).1) s

/-- The weights of both programs, the cursor and the length are the same. -/
structure Unchanged (s next : AttentionGemmState) : Prop where
  score : next.scoreProgram.weight = s.scoreProgram.weight
  value : next.valueProgram.weight = s.valueProgram.weight
  cursor : next.cursor = s.cursor
  length : next.length = s.length

/-- Both programs hold a pair at the cursor and keep the other places, and the cursor and the length have moved. -/
structure Appended (s next : AttentionGemmState) (key value : HalfArray) : Prop where
  score : ∀ j < 512, rowOf next.scoreProgram j = if j = s.cursor then key.data else rowOf s.scoreProgram j
  value : ∀ j < 256, columnOf next.valueProgram j = if j = s.cursor then value.data else columnOf s.valueProgram j
  cursor : next.cursor = (s.cursor + 1) % s.context
  length : next.length = min (s.length + 1) s.context

/-- An append applies as a whole, or raises and changes nothing. -/
def AllOrNothing (s : AttentionGemmState) (key value : HalfArray) : Prop :=
  match append key value s with
  | (next, .ok _) => Appended s next key value
  | (next, .error _) => Unchanged s next

/-- No append of two vectors finds the score program open and the value program closed, or without a column at the
cursor, unless the row at the cursor is the key already. -/
def CanFinish (s : AttentionGemmState) (key value : HalfArray) : Prop :=
  key.shape = [256] → value.shape = [256] → s.scoreProgram.closed = false →
    s.valueProgram.closed = true ∨ 256 ≤ s.cursor → rowOf s.scoreProgram s.cursor = key.data

/-- What every ring keeps of its construction. -/
structure Fits (context : ℕ) (s : AttentionGemmState) : Prop where
  context_eq : s.context = context
  dimension_eq : s.dimension = 256
  cursor_lt : s.cursor < context
  scoreRows : context ≤ s.scoreProgram.outputRows
  valueRows : s.valueProgram.outputRows = 256

section Writes

variable {row column : ℕ} {values : HalfArray}

theorem ensureOpen_eq_ok {result : Unit} (h : gemm.ensureOpen = .ok result) : gemm.closed = false := by
  unfold MutableGemm.ensureOpen at h
  split at h
  · cases h
  · rename_i hclosed
    exact Bool.eq_false_iff.mpr hclosed

theorem vector_eq_ok {size : ℕ} {name : String} {result : List Half} (h : vector values size name = .ok result) :
    values.shape = [size] := by
  unfold vector at h
  split at h
  · simp at h
  · rename_i hshape
    exact not_not.mp hshape

/-- A row write returns exactly if the program is open and the row and the values fit. -/
theorem writeRow_isOk_iff :
    (∃ next, gemm.writeRow row values = .ok next) ↔
      gemm.closed = false ∧ row < gemm.outputRows ∧ values.shape = [256] := by
  constructor
  · rintro ⟨next, hcall⟩
    rw [MutableGemm.writeRow, bind_eq_ok] at hcall
    obtain ⟨_, hopen, hcall⟩ := hcall
    split at hcall
    · simp at hcall
    rename_i hrow
    rw [bind_eq_ok] at hcall
    obtain ⟨_, hvector, -⟩ := hcall
    exact ⟨ensureOpen_eq_ok hopen, by omega, vector_eq_ok hvector⟩
  · rintro ⟨hopen, hrow, hshape⟩
    obtain ⟨next, hcall, -⟩ := MutableGemm.writeRow_shows gemm.shows_weight hopen hrow hshape
    exact ⟨next, hcall⟩

/-- A column write returns exactly if the program is open and the column and the values fit. -/
theorem writeColumn_isOk_iff :
    (∃ next, gemm.writeColumn column values = .ok next) ↔
      gemm.closed = false ∧ column < 256 ∧ values.shape = [gemm.outputRows] := by
  constructor
  · rintro ⟨next, hcall⟩
    rw [MutableGemm.writeColumn, bind_eq_ok] at hcall
    obtain ⟨_, hopen, hcall⟩ := hcall
    split at hcall
    · simp at hcall
    rename_i hcolumn
    rw [bind_eq_ok] at hcall
    obtain ⟨_, hvector, -⟩ := hcall
    exact ⟨ensureOpen_eq_ok hopen, by omega, vector_eq_ok hvector⟩
  · rintro ⟨hopen, hcolumn, hshape⟩
    obtain ⟨next, hcall, -⟩ := MutableGemm.writeColumn_shows gemm.shows_weight hopen hcolumn hshape
    exact ⟨next, hcall⟩

/-- A row write leaves the weights as they were exactly if the row holds the values already. -/
theorem writeRow_weight_iff (hcall : gemm.writeRow row values = .ok next) :
    next.weight = gemm.weight ↔ rowOf gemm row = values.data := by
  obtain ⟨hopen, hrow, hshape⟩ := writeRow_isOk_iff.mp ⟨next, hcall⟩
  have hrows := gemm.outputRows_le
  rw [completionRow] at hrows
  obtain ⟨other, hother, -, hrowOf⟩ := writeRow_rowOf hopen hrow hshape
  obtain ⟨shown, hshown, -, hshows⟩ := MutableGemm.writeRow_shows gemm.shows_weight hopen hrow hshape
  rw [hcall] at hother hshown
  obtain rfl := Except.ok.inj hother
  obtain rfl := Except.ok.inj hshown
  constructor
  · intro hweight
    have hnext := hrowOf row (by omega)
    rw [if_pos rfl] at hnext
    rw [← hnext]
    simp only [rowOf, hweight]
  · intro hsame
    funext k
    refine (hshows k).trans (Eq.trans ?_ (gemm.shows_weight k).symm)
    refine packedValue_congr fun r c _ _ _ => ?_
    rw [MutableGemm.setRow]
    split
    · rename_i hplace
      rw [hplace.1, ← hsame]
      simp [rowOf, hplace.2]
    · rfl

end Writes

section Append

variable {key value : HalfArray}

/-- An append of something else than two vectors changes nothing. -/
theorem append_of_not_vectors (hdimension : s.dimension = 256) (h : ¬ Vectors (key, value)) :
    ∃ e, append key value s = (s, .error e) := by
  by_cases hkey : key.shape = [256]
  · have hvalue : value.shape ≠ [256] := fun hvalue => h ⟨hkey, hvalue⟩
    simp only [append, Stmt.eval, vector, hdimension, hkey, hvalue, ne_eq, not_true_eq_false, not_false_eq_true,
      if_false, if_true]
    exact ⟨_, rfl⟩
  · simp only [append, Stmt.eval, vector, hdimension, hkey, ne_eq, not_false_eq_true, if_true]
    exact ⟨_, rfl⟩

/-- An append whose first write raises. -/
theorem append_of_key_error (hdimension : s.dimension = 256) (hpair : Vectors (key, value)) {e : PyError}
    (hkey : s.scoreProgram.writeRow s.cursor key = .error e) : append key value s = (s, .error e) := by
  obtain ⟨hkeyShape : key.shape = [256], hvalueShape : value.shape = [256]⟩ := hpair
  simp only [append, Stmt.eval, Stmt.seq, writeKey, vector, hdimension, hkeyShape, hvalueShape, ne_eq,
    not_true_eq_false, if_false, hkey]

/-- An append whose second write raises has changed the score program. -/
theorem append_of_value_error (hdimension : s.dimension = 256) (hpair : Vectors (key, value)) {e : PyError}
    (hkey : s.scoreProgram.writeRow s.cursor key = .ok score)
    (hvalue : s.valueProgram.writeColumn s.cursor value = .error e) :
    append key value s = ({ s with scoreProgram := score }, .error e) := by
  obtain ⟨hkeyShape : key.shape = [256], hvalueShape : value.shape = [256]⟩ := hpair
  simp only [append, Stmt.eval, Stmt.seq, writeKey, writeValue, vector, hdimension, hkeyShape, hvalueShape, ne_eq,
    not_true_eq_false, if_false, hkey, hvalue]

/-- An append whose writes return has done all it should. -/
theorem appended_of_writes {values : MutableGemm} (hpair : Vectors (key, value))
    (hkey : s.scoreProgram.writeRow s.cursor key = .ok score)
    (hvalue : s.valueProgram.writeColumn s.cursor value = .ok values) :
    Appended s (advance { s with scoreProgram := score, valueProgram := values }) key value := by
  obtain ⟨hscoreOpen, hrow, -⟩ := writeRow_isOk_iff.mp ⟨score, hkey⟩
  obtain ⟨hvalueOpen, hcolumn, hshape⟩ := writeColumn_isOk_iff.mp ⟨values, hvalue⟩
  obtain ⟨other, hother, -, hrowOf⟩ := writeRow_rowOf hscoreOpen hrow hpair.1
  obtain rfl := Except.ok.inj (hkey.symm.trans hother)
  obtain ⟨other, hother, -, hcolumnOf⟩ := writeColumn_columnOf hvalueOpen hcolumn hshape
  obtain rfl := Except.ok.inj (hvalue.symm.trans hother)
  exact ⟨hrowOf, hcolumnOf, rfl, rfl⟩

/-- An append applies as a whole or changes nothing exactly if it can finish, or the key is in its place already. -/
theorem allOrNothing_iff (hfits : s.Fits context) : s.AllOrNothing key value ↔ s.CanFinish key value := by
  have hrow : s.cursor < s.scoreProgram.outputRows := Nat.lt_of_lt_of_le hfits.cursor_lt hfits.scoreRows
  by_cases hpair : Vectors (key, value)
  swap
  · obtain ⟨e, happend⟩ := append_of_not_vectors hfits.dimension_eq hpair
    refine iff_of_true ?_ fun hkey hvalue => absurd ⟨hkey, hvalue⟩ hpair
    rw [AllOrNothing, happend]
    exact ⟨rfl, rfl, rfl, rfl⟩
  cases hkey : s.scoreProgram.writeRow s.cursor key with
  | error e =>
    refine iff_of_true ?_ fun _ _ hopen => ?_
    · rw [AllOrNothing, append_of_key_error hfits.dimension_eq hpair hkey]
      exact ⟨rfl, rfl, rfl, rfl⟩
    · obtain ⟨next, hnext⟩ := writeRow_isOk_iff.mpr ⟨hopen, hrow, hpair.1⟩
      rw [hkey] at hnext
      cases hnext
  | ok score =>
    have hopen := (writeRow_isOk_iff.mp ⟨score, hkey⟩).1
    cases hvalue : s.valueProgram.writeColumn s.cursor value with
    | error e =>
      have hblocked : s.valueProgram.closed = true ∨ 256 ≤ s.cursor := by
        by_contra hfree
        rw [not_or, Bool.not_eq_true, Nat.not_le] at hfree
        obtain ⟨next, hnext⟩ := writeColumn_isOk_iff.mpr ⟨hfree.1, hfree.2, hfits.valueRows ▸ hpair.2⟩
        rw [hvalue] at hnext
        cases hnext
      rw [AllOrNothing, append_of_value_error hfits.dimension_eq hpair hkey hvalue]
      constructor
      · intro hunchanged _ _ _ _
        exact (writeRow_weight_iff hkey).mp hunchanged.score
      · intro hfinish
        have hsame := hfinish hpair.1 hpair.2 hopen hblocked
        exact ⟨(writeRow_weight_iff hkey).mpr hsame, rfl, rfl, rfl⟩
    | ok values =>
      refine iff_of_true ?_ fun _ _ _ hblocked => ?_
      · rw [AllOrNothing, append_eq hfits.dimension_eq hpair hkey hvalue]
        exact appended_of_writes hpair hkey hvalue
      · obtain ⟨hvalueOpen, hcolumn, -⟩ := writeColumn_isOk_iff.mp ⟨values, hvalue⟩
        rcases hblocked with hclosed | hpast
        · rw [hvalueOpen] at hclosed
          cases hclosed
        · omega

/-- The three ends of an append: nothing has changed, only the key is written, or everything is done. -/
theorem append_cases (hdimension : s.dimension = 256) (key value : HalfArray) :
    (∃ e, append key value s = (s, .error e)) ∨
      ∃ score, s.scoreProgram.writeRow s.cursor key = .ok score ∧
        ((∃ e, append key value s = ({ s with scoreProgram := score }, .error e)) ∨
          ∃ values, s.valueProgram.writeColumn s.cursor value = .ok values ∧
            append key value s = (advance { s with scoreProgram := score, valueProgram := values }, .ok ())) := by
  by_cases hpair : Vectors (key, value)
  swap
  · exact .inl (append_of_not_vectors hdimension hpair)
  cases hkey : s.scoreProgram.writeRow s.cursor key with
  | error e => exact .inl ⟨e, append_of_key_error hdimension hpair hkey⟩
  | ok score =>
    cases hvalue : s.valueProgram.writeColumn s.cursor value with
    | error e => exact .inr ⟨score, rfl, .inl ⟨e, append_of_value_error hdimension hpair hkey hvalue⟩⟩
    | ok values => exact .inr ⟨score, rfl, .inr ⟨values, rfl, append_eq hdimension hpair hkey hvalue⟩⟩

/-- Writes keep the number of rows of a program. -/
theorem outputRows_writeRow {row : ℕ} (h : gemm.writeRow row key = .ok next) : next.outputRows = gemm.outputRows := by
  obtain ⟨hopen, hrow, hshape⟩ := writeRow_isOk_iff.mp ⟨next, h⟩
  obtain ⟨other, hother, hsame, -⟩ := writeRow_rowOf hopen hrow hshape
  obtain rfl := Except.ok.inj (h.symm.trans hother)
  exact hsame.2.1

theorem outputRows_writeColumn {column : ℕ} (h : gemm.writeColumn column value = .ok next) :
    next.outputRows = gemm.outputRows := by
  obtain ⟨hopen, hcolumn, hshape⟩ := writeColumn_isOk_iff.mp ⟨next, h⟩
  obtain ⟨other, hother, hsame, -⟩ := writeColumn_columnOf hopen hcolumn hshape
  obtain rfl := Except.ok.inj (h.symm.trans hother)
  exact hsame.2.1

/-- The next slot is one of the context. -/
theorem fits_advance (h : s.Fits context) : (advance s).Fits context := by
  have hcursor : (s.cursor + 1) % s.context < context := by
    rw [h.context_eq]
    exact Nat.mod_lt _ (Nat.zero_lt_of_lt h.cursor_lt)
  exact ⟨h.context_eq, h.dimension_eq, hcursor, h.scoreRows, h.valueRows⟩

/-- Every call keeps what the constructor checked. -/
theorem fits_call (h : s.Fits context) (call : Call) : (call.run s).1.Fits context := by
  cases call with
  | append key value =>
    obtain ⟨e, happend⟩ | ⟨score, hkey, ⟨e, happend⟩ | ⟨values, hvalue, happend⟩⟩ :=
      append_cases h.dimension_eq key value
    · rw [Call.run, happend]
      exact h
    · rw [Call.run, happend]
      exact ⟨h.context_eq, h.dimension_eq, h.cursor_lt, (outputRows_writeRow hkey).symm ▸ h.scoreRows, h.valueRows⟩
    · rw [Call.run, happend]
      refine fits_advance ⟨h.context_eq, h.dimension_eq, h.cursor_lt, ?_, ?_⟩
      · exact (outputRows_writeRow hkey).symm ▸ h.scoreRows
      · exact (outputRows_writeColumn hvalue).trans h.valueRows
  | closeScore => exact ⟨h.context_eq, h.dimension_eq, h.cursor_lt, h.scoreRows, h.valueRows⟩
  | closeValue => exact ⟨h.context_eq, h.dimension_eq, h.cursor_lt, h.scoreRows, h.valueRows⟩

theorem fits_after (h : s.Fits context) (calls : List Call) : (after calls s).Fits context := by
  induction calls generalizing s with
  | nil => exact h
  | cons call rest ih => exact ih (fits_call h call)

end Append

section Run

variable {value : MutableGemm} {dimension : ℕ}

theorem fits_init (hinit : init score value context dimension = .ok s) : s.Fits context := by
  unfold init at hinit
  split at hinit
  · simp at hinit
  split at hinit
  · simp at hinit
  split at hinit
  · simp at hinit
  rename_i hshape hrows hcolumns
  cases hinit
  have hdimension : dimension = 256 := by omega
  have hpos : 0 < context := by omega
  exact ⟨rfl, hdimension, hpos, Nat.not_lt.mp hrows, (not_not.mp hcolumns).trans hdimension⟩

/-- In every state that calls reach from a new ring, an append applies as a whole or changes nothing exactly if its key
can be followed by its value, or is in its place already. -/
theorem append_allOrNothing_iff (hinit : init score value context dimension = .ok s) (calls : List Call)
    (newKey newValue : HalfArray) :
    (after calls s).AllOrNothing newKey newValue ↔ (after calls s).CanFinish newKey newValue :=
  allOrNothing_iff (fits_after (fits_init hinit) calls)

/-- As long as the value program is open, appends to a ring of at most 256 slots apply as a whole or change nothing. -/
theorem allOrNothing_of_context_le (hinit : init score value context dimension = .ok s) (hle : context ≤ 256)
    {calls : List Call} (hopen : (after calls s).valueProgram.closed = false) (newKey newValue : HalfArray) :
    (after calls s).AllOrNothing newKey newValue := by
  have hfits := fits_after (fits_init hinit) calls
  rw [allOrNothing_iff hfits]
  intro _ _ _ hblocked
  have hcursor := hfits.cursor_lt
  rcases hblocked with hclosed | hpast
  · rw [hopen] at hclosed
    cases hclosed
  · omega

/-- A ring of more than 256 slots over open programs that is being filled up. -/
structure Filling (context : ℕ) (last : List Half) (n : ℕ) (s : AttentionGemmState) : Prop where
  fits : s.Fits context
  cursor : s.cursor = n
  scoreOpen : s.scoreProgram.closed = false
  valueOpen : s.valueProgram.closed = false
  last : rowOf s.scoreProgram 256 = last

/-- The first 256 appends return and leave the slot behind them alone. -/
theorem filling_append {last : List Half} {n : ℕ} (h : Filling context last n s) (hwide : 256 < context)
    (hn : n < 256) {key value : HalfArray} (hpair : Vectors (key, value)) :
    Filling context last (n + 1) (Call.run (.append key value) s).1 := by
  have hrow : s.cursor < s.scoreProgram.outputRows := Nat.lt_of_lt_of_le h.fits.cursor_lt h.fits.scoreRows
  have hcolumn : s.cursor < 256 := h.cursor.symm ▸ hn
  obtain ⟨score, hkey, ⟨-, -, hscoreClosed⟩, hrowOf⟩ := writeRow_rowOf h.scoreOpen hrow hpair.1
  obtain ⟨values, hvalue, ⟨-, -, hvalueClosed⟩, -⟩ :=
    writeColumn_columnOf h.valueOpen hcolumn (h.fits.valueRows.symm ▸ hpair.2)
  have hrun : Call.run (.append key value) s =
      (advance { s with scoreProgram := score, valueProgram := values }, .ok ()) :=
    append_eq h.fits.dimension_eq hpair hkey hvalue
  have hfits := fits_call h.fits (.append key value)
  rw [hrun] at hfits ⊢
  refine ⟨hfits, ?_, hscoreClosed.trans h.scoreOpen, hvalueClosed.trans h.valueOpen, ?_⟩
  · show (s.cursor + 1) % s.context = n + 1
    rw [h.cursor, h.fits.context_eq, Nat.mod_eq_of_lt (by omega)]
  · show rowOf score 256 = last
    rw [hrowOf 256 (by decide), if_neg (by omega), h.last]

theorem filling_after {last : List Half} {key value : HalfArray} (hpair : Vectors (key, value)) {k n : ℕ}
    (h : Filling context last n s) (hwide : 256 < context) (hk : n + k ≤ 256) :
    Filling context last (n + k) (after (List.replicate k (.append key value)) s) := by
  induction k generalizing n s with
  | zero => exact h
  | succ k ih =>
    have hnext := ih (filling_append h hwide (by omega) hpair) (by omega)
    rw [Nat.add_right_comm] at hnext
    exact hnext

/-- A fresh program of 300 rows. -/
def wide : MutableGemm := { MutableGemm.fresh (Bytes.zeros tdSize) rfl with
  outputRows := 300
  one_le_outputRows := by decide
  outputRows_le := by decide }

/-- A ring of 300 slots over fresh programs. -/
def wideRing : AttentionGemmState where
  scoreProgram := wide
  valueProgram := MutableGemm.fresh (Bytes.zeros tdSize) rfl
  context := 300
  dimension := 256
  cursor := 0
  length := 0

theorem wideRing_init : init wide (MutableGemm.fresh (Bytes.zeros tdSize) rfl) 300 256 = .ok wideRing := rfl

/-- The append after 256 others to a ring of 300 slots raises with its key written. -/
theorem wideRing_append :
    MutableGemm.init (Bytes.zeros tdSize) 300 10 = .ok wide ∧
      init wide (MutableGemm.fresh (Bytes.zeros tdSize) rfl) 300 256 = .ok wideRing ∧
      ¬ (after (List.replicate 256 (.append (constant 1) (constant 1))) wideRing).AllOrNothing
        (constant 2) (constant 2) := by
  have hinit : MutableGemm.init (Bytes.zeros tdSize) 300 10 = .ok wide := rfl
  have hweight (k : ℕ) : wide.weight k = 0 :=
    (MutableGemm.shows_zero_of_tail hinit (fun i _ => Bytes.get_zeros _ i) k).trans (MutableGemm.packedValue_zero k)
  have hzero : rowOf wide 256 = List.replicate 256 0 := by
    simp only [rowOf, hweight, List.map_const', List.length_range]
  have hstart : Filling 300 (List.replicate 256 0) 0 wideRing :=
    ⟨fits_init wideRing_init, rfl, rfl, rfl, hzero⟩
  have hfull := filling_after (vectors_constant 1 1) hstart (k := 256) (by decide) (by decide)
  refine ⟨hinit, wideRing_init, ?_⟩
  generalize after (List.replicate 256 (.append (constant 1) (constant 1))) wideRing = full at hfull ⊢
  intro hatomic
  have hpast : 256 ≤ full.cursor := hfull.cursor.ge
  have hkey := (allOrNothing_iff hfull.fits).mp hatomic rfl rfl hfull.scoreOpen (.inr hpast)
  rw [hfull.cursor, hfull.last] at hkey
  exact absurd (congrArg List.head? hkey) (by decide)

/-- The same ring before it is full. -/
theorem append_allOrNothing_iff_wide :
    (after [.append (constant 1) (constant 1)] wideRing).AllOrNothing (constant 2) (constant 2) ↔
      (after [.append (constant 1) (constant 1)] wideRing).CanFinish (constant 2) (constant 2) :=
  append_allOrNothing_iff wideRing_init [.append (constant 1) (constant 1)] (constant 2) (constant 2)

end Run

end AttentionGemmState

end AneLinux.Runtime
