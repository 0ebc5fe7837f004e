import AneLinux.Runtime.MutableGemm

/-!
# The attention ring over two programs

`AttentionGemmState` keeps the last `context` key and value pairs: keys as rows of the score
program, values as columns of the value program, both at the cursor. The two programs change one
after the other inside an append, and the cursor moves last. After any sequence of appends a live
slot holds, in both programs, the pair of the latest append that went to it, and the scores of the
slots that hold nothing yet are masked.
-/

namespace AneLinux.Runtime

open AneLinux.Support AneLinux.Staged

/-- The ring: two programs, the next slot and the number of live slots. -/
structure AttentionGemmState where
  scoreProgram : MutableGemm
  valueProgram : MutableGemm
  context : ℕ
  dimension : ℕ
  cursor : ℕ
  length : ℕ

namespace AttentionGemmState

/-- `AttentionGemmState.__init__`. -/
def init (scoreProgram valueProgram : MutableGemm) (context dimension : ℕ) : Py AttentionGemmState :=
  if context < 1 ∨ dimension ≠ 256 then
    raiseValue "context must be positive and dimension must be 256"
  else if scoreProgram.outputRows < context then
    raiseValue "score program output rows must cover the context"
  else if valueProgram.outputRows ≠ dimension then
    raiseValue "value program output rows must equal the dimension"
  else .ok { scoreProgram, valueProgram, context, dimension, cursor := 0, length := 0 }

/-- Write the key row at the cursor. -/
def writeKey (key : HalfArray) : Stmt AttentionGemmState := fun s =>
  match s.scoreProgram.writeRow s.cursor key with
  | .ok program => ({ s with scoreProgram := program }, .ok ())
  | .error e => (s, .error e)

/-- Write the value column at the cursor. -/
def writeValue (value : HalfArray) : Stmt AttentionGemmState := fun s =>
  match s.valueProgram.writeColumn s.cursor value with
  | .ok program => ({ s with valueProgram := program }, .ok ())
  | .error e => (s, .error e)

/-- Move the cursor. -/
def advance (s : AttentionGemmState) : AttentionGemmState :=
  { s with cursor := (s.cursor + 1) % s.context, length := min (s.length + 1) s.context }

/-- `append`. -/
def append (key value : HalfArray) : Stmt AttentionGemmState :=
  Stmt.eval (fun s => vector key s.dimension "key") fun _ =>
    Stmt.eval (fun s => vector value s.dimension "value") fun _ =>
      Stmt.seq (writeKey key) (Stmt.seq (writeValue value) (Stmt.update advance))

/-- `np.finfo(np.float16).min`. -/
def halfMin : Half := 0xFBFF

/-- `scores`: the scores of the context with the empty slots masked. -/
def scores (s : AttentionGemmState) (engine : Bytes → Bytes → Bytes → Bytes) (query : HalfArray) :
    Py (List Half) := do
  let values ← s.scoreProgram.run engine query
  let values := values.take s.context
  if s.length < s.context then
    return values.mapIdx fun j value => if s.length ≤ j then halfMin else value
  else return values

/-- Row `j` of the matrix behind a program. -/
def rowOf (gemm : MutableGemm) (j : ℕ) : List Half :=
  (List.range 256).map fun c => gemm.weight (blobIndex 6 j c)

/-- Column `j` of the matrix behind a program. -/
def columnOf (gemm : MutableGemm) (j : ℕ) : List Half :=
  (List.range gemm.outputRows).map fun r => gemm.weight (blobIndex 6 r j)

/-- The pairs of appends are vectors of the dimension. -/
def Vectors (pair : HalfArray × HalfArray) : Prop := pair.1.shape = [256] ∧ pair.2.shape = [256]

/-- A slot holds a pair in both programs. -/
def Holds (s : AttentionGemmState) (j : ℕ) (pair : HalfArray × HalfArray) : Prop :=
  rowOf s.scoreProgram j = pair.1.data ∧ columnOf s.valueProgram j = pair.2.data

/-- What holds of the ring after `n` appends. -/
structure Ring (context : ℕ) (appends : List (HalfArray × HalfArray)) (n : ℕ) (s : AttentionGemmState) : Prop where
  context_eq : s.context = context
  dimension_eq : s.dimension = 256
  scoreRows : context ≤ s.scoreProgram.outputRows
  valueRows : s.valueProgram.outputRows = 256
  scoreOpen : s.scoreProgram.closed = false
  valueOpen : s.valueProgram.closed = false
  cursor_eq : s.cursor = n % context
  length_eq : s.length = min n context
  holds : ∀ j < min n context, ∀ pair, appends[latest n context j]? = some pair → s.Holds j pair

section Write

variable {s : AttentionGemmState} {pair : HalfArray × HalfArray}

/-- The values of a vector, place by place. -/
theorem map_getD_data {array : HalfArray} {n : ℕ} (h : array.shape = [n]) :
    ((List.range n).map fun i => array.data.getD i 0) = array.data := by
  have hlength : array.data.length = n := by simpa [h] using array.size_eq
  apply List.ext_getElem
  · simp [hlength]
  · intro i _ hi
    simp [List.getD_eq_getElem?_getD, hi]

/-- A row write at a slot puts the key there and keeps the other rows. -/
theorem writeRow_rowOf {gemm : MutableGemm} (hopen : gemm.closed = false) {row : ℕ} (hrow : row < gemm.outputRows)
    {key : HalfArray} (hshape : key.shape = [256]) :
    ∃ next, gemm.writeRow row key = .ok next ∧ gemm.SameProgram next ∧
      ∀ j < 512, rowOf next j = if j = row then key.data else rowOf gemm j := by
  obtain ⟨next, hcall, hsame, hshows⟩ := MutableGemm.writeRow_shows gemm.shows_weight hopen hrow hshape
  refine ⟨next, hcall, hsame, fun j hj => ?_⟩
  have hentry : ∀ c ∈ List.range 256, next.weight (blobIndex 6 j c) =
      if j = row then key.data.getD c 0 else gemm.weight (blobIndex 6 j c) := by
    intro c hc
    have hc := List.mem_range.mp hc
    rw [hshows.weight_blobIndex hj hc, MutableGemm.setRow]
    simp only [hc, and_true]
  rw [rowOf, List.map_congr_left hentry]
  by_cases hjrow : j = row
  · simp only [if_pos hjrow]
    exact map_getD_data hshape
  · simp only [if_neg hjrow]
    rfl

/-- A column write at a slot puts the value there and keeps the other columns. -/
theorem writeColumn_columnOf {gemm : MutableGemm} (hopen : gemm.closed = false) {column : ℕ}
    (hcolumn : column < 256) {value : HalfArray} (hshape : value.shape = [gemm.outputRows]) :
    ∃ next, gemm.writeColumn column value = .ok next ∧ gemm.SameProgram next ∧
      ∀ j < 256, columnOf next j = if j = column then value.data else columnOf gemm j := by
  obtain ⟨next, hcall, hsame, hshows⟩ := MutableGemm.writeColumn_shows gemm.shows_weight hopen hcolumn hshape
  have hrows := gemm.outputRows_le
  rw [completionRow] at hrows
  refine ⟨next, hcall, hsame, fun j hj => ?_⟩
  have hentry : ∀ r ∈ List.range gemm.outputRows, next.weight (blobIndex 6 r j) =
      if j = column then value.data.getD r 0 else gemm.weight (blobIndex 6 r j) := by
    intro r hr
    have hr := List.mem_range.mp hr
    rw [hshows.weight_blobIndex (by omega) hj, MutableGemm.setColumn]
    simp only [hr, and_true]
  rw [columnOf, hsame.2.1, List.map_congr_left hentry]
  by_cases hjcolumn : j = column
  · simp only [if_pos hjcolumn]
    exact map_getD_data hshape
  · simp only [if_neg hjcolumn]
    rfl

/-- An append whose writes succeed. -/
theorem append_eq {score value : MutableGemm} (hdimension : s.dimension = 256) (hpair : Vectors pair)
    (hkey : s.scoreProgram.writeRow s.cursor pair.1 = .ok score)
    (hvalue : s.valueProgram.writeColumn s.cursor pair.2 = .ok value) :
    append pair.1 pair.2 s = (advance { s with scoreProgram := score, valueProgram := value }, .ok ()) := by
  simp only [append, Stmt.eval, Stmt.seq, Stmt.update, writeKey, writeValue, vector, hdimension, hpair.1, hpair.2,
    ne_eq, not_true_eq_false, if_false, hkey, hvalue]

end Write

section Run

variable {context : ℕ} {appends : List (HalfArray × HalfArray)}

/-- One append takes the ring from `n` to `n + 1` appends. -/
theorem append_ring (hpos : 1 ≤ context) (hle : context ≤ 256) {n : ℕ} {pair : HalfArray × HalfArray}
    (hn : appends[n]? = some pair) (hpair : Vectors pair) :
    Stmt.Triple (Ring context appends n) (append pair.1 pair.2) (Ring context appends (n + 1)) fun _ => False := by
  intro s hs
  have hslot : n % context < context := Nat.mod_lt n hpos
  have hrows := s.scoreProgram.outputRows_le
  have hscoreRows := hs.scoreRows
  rw [completionRow] at hrows
  have hcursor : s.cursor < context := by
    rw [hs.cursor_eq]
    exact hslot
  obtain ⟨score, hkey, ⟨-, hscoreOut, hscoreClosed⟩, hrowOf⟩ :=
    writeRow_rowOf hs.scoreOpen (Nat.lt_of_lt_of_le hcursor hscoreRows) hpair.1
  obtain ⟨value, hvalue, ⟨-, hvalueOut, hvalueClosed⟩, hcolumnOf⟩ :=
    writeColumn_columnOf hs.valueOpen (Nat.lt_of_lt_of_le hcursor hle) (hpair.2.trans (by rw [hs.valueRows]))
  rw [append_eq hs.dimension_eq hpair hkey hvalue]
  rw [hs.cursor_eq] at hrowOf hcolumnOf
  refine ⟨hs.context_eq, hs.dimension_eq, ?_, hvalueOut.trans hs.valueRows, hscoreClosed.trans hs.scoreOpen,
    hvalueClosed.trans hs.valueOpen, ?_, ?_, ?_⟩
  · exact hscoreOut ▸ hs.scoreRows
  · show (s.cursor + 1) % s.context = (n + 1) % context
    rw [hs.context_eq, hs.cursor_eq, Nat.mod_add_mod]
  · show min (s.length + 1) s.context = min (n + 1) context
    rw [hs.context_eq, hs.length_eq]
    omega
  · intro j hj other hother
    show rowOf score j = _ ∧ columnOf value j = _
    rw [hrowOf j (by omega), hcolumnOf j (by omega)]
    by_cases hjslot : j = n % context
    · rw [if_pos hjslot, if_pos hjslot]
      rw [hjslot, latest_succ_self, hn] at hother
      cases hother
      exact ⟨rfl, rfl⟩
    · rw [if_neg hjslot, if_neg hjslot]
      have hjn : j < n := by
        rcases Nat.lt_or_ge n context with hlt | hge
        · rw [Nat.mod_eq_of_lt hlt] at hjslot
          omega
        · omega
      rw [latest_succ_of_ne hjn (by omega) hjslot] at hother
      exact hs.holds j (by omega) other hother

/-- A fresh ring over two open programs is a ring after no append. -/
theorem ring_init {score value : MutableGemm} {dimension : ℕ} {s : AttentionGemmState}
    (hinit : init score value context dimension = .ok s) (hscore : score.closed = false)
    (hvalue : value.closed = false) : 1 ≤ context ∧ Ring context appends 0 s := by
  unfold init at hinit
  split at hinit
  · simp at hinit
  split at hinit
  · simp at hinit
  split at hinit
  · simp at hinit
  rename_i hshape hrows hcolumns
  have hdimension : dimension = 256 := by omega
  subst hdimension
  cases hinit
  refine ⟨by omega, rfl, rfl, Nat.not_lt.mp hrows, not_not.mp hcolumns, hscore, hvalue, ?_, ?_, ?_⟩
  · simp
  · simp
  · intro j hj
    simp at hj

/-- A run returns one value for each output row. -/
theorem length_of_run {gemm : MutableGemm} {engine : Bytes → Bytes → Bytes → Bytes} {activation : HalfArray}
    {raw : List Half} (h : gemm.run engine activation = .ok raw) : raw.length = gemm.outputRows := by
  rw [MutableGemm.run, bind_eq_ok] at h
  obtain ⟨_, -, h⟩ := h
  rw [bind_eq_ok] at h
  obtain ⟨values, -, h⟩ := h
  dsimp only at h
  split at h
  · simp at h
  split at h
  · cases h
    simp
  · simp at h

/-- The scores are those of the program, with the slots past the live ones masked. -/
theorem scores_masked {s : AttentionGemmState} {engine : Bytes → Bytes → Bytes → Bytes} {query : HalfArray}
    {raw : List Half} (hrun : s.scoreProgram.run engine query = .ok raw) (hlength : s.length ≤ s.context)
    (hrows : s.context ≤ s.scoreProgram.outputRows) :
    ∃ masked, s.scores engine query = .ok masked ∧ masked.length = s.context ∧
      ∀ j < s.context, masked[j]? = if j < s.length then raw[j]? else some halfMin := by
  have hraw := length_of_run hrun
  have hget : ∀ j < s.context, (raw.take s.context)[j]? = raw[j]? := by
    intro j hj
    rw [List.getElem?_take_of_lt hj]
  rw [scores, hrun, ok_bind]
  by_cases hlt : s.length < s.context
  · simp only [if_pos hlt]
    refine ⟨_, rfl, by simp; omega, fun j hj => ?_⟩
    rw [List.getElem?_mapIdx, hget j hj, List.getElem?_eq_getElem (by omega : j < raw.length)]
    by_cases hlive : j < s.length
    · simp [hlive]
    · simp [hlive, Nat.not_lt.mp hlive]
  · simp only [if_neg hlt]
    refine ⟨_, rfl, by simp; omega, fun j hj => ?_⟩
    rw [hget j hj, if_pos (by omega)]

/-- After every sequence of appends the cursor, the length and both programs agree with the ring:
a live slot holds the latest pair that went to it, the last pairs are all there, and exactly the
slots past the live ones are masked. -/
theorem appends_ring (score value : MutableGemm) (context dimension : ℕ) (s : AttentionGemmState)
    (hinit : init score value context dimension = .ok s) (hle : context ≤ 256)
    (hscore : score.closed = false) (hvalue : value.closed = false)
    (appends : List (HalfArray × HalfArray)) (hvectors : ∀ pair ∈ appends, Vectors pair) :
    ∃ final, Stmt.forEach (fun pair => append pair.1 pair.2) appends s = (final, .ok ()) ∧
      final.cursor = appends.length % context ∧ final.length = min appends.length context ∧
      (∀ j < final.length, ∃ i pair, IsLatest appends.length context j i ∧
        appends.length ≤ i + final.length ∧ appends[i]? = some pair ∧ final.Holds j pair) ∧
      (∀ i pair, appends.length ≤ i + final.length → appends[i]? = some pair →
        i % context < final.length ∧ final.Holds (i % context) pair) ∧
      ∀ engine query raw, final.scoreProgram.run engine query = .ok raw →
        ∃ masked, final.scores engine query = .ok masked ∧ masked.length = context ∧
          ∀ j < context, masked[j]? = if j < final.length then raw[j]? else some halfMin := by
  obtain ⟨hpos, hring⟩ := ring_init hinit hscore hvalue
  have hrun : Stmt.Triple (Ring context appends 0) (Stmt.forEach (fun pair => append pair.1 pair.2) appends)
      (Ring context appends appends.length) fun _ => False :=
    Stmt.Triple.forEach fun n pair hn => append_ring hpos hle hn (hvectors pair (List.mem_of_getElem? hn))
  obtain ⟨final, houtcome, hfinal⟩ := hrun.ends hring
  refine ⟨final, houtcome, hfinal.cursor_eq, hfinal.length_eq, fun j hj => ?_, fun i pair hwindow hpair => ?_,
    fun engine query raw hraw => ?_⟩
  · rw [hfinal.length_eq] at hj ⊢
    have hlatest : IsLatest appends.length context j _ := isLatest_latest (by omega) (by omega)
    have hget := List.getElem?_eq_getElem hlatest.lt
    refine ⟨_, _, hlatest, ?_, hget, hfinal.holds j hj _ hget⟩
    have := hlatest.window (by omega)
    omega
  · rw [hfinal.length_eq] at hwindow ⊢
    have hi : i < appends.length := (List.getElem?_eq_some_iff.mp hpair).1
    have hmod := Nat.mod_lt i hpos
    have hslot := Nat.mod_le i context
    refine ⟨by omega, hfinal.holds _ (by omega) pair ?_⟩
    rw [latest_of_window hi (by omega) (by omega) hpos]
    exact hpair
  · have hcontext := hfinal.context_eq
    have hlive : final.length ≤ final.context := by
      rw [hfinal.length_eq, hcontext]
      omega
    have hmasked := scores_masked hraw hlive (by rw [hcontext]; exact hfinal.scoreRows)
    rwa [hcontext] at hmasked

/-- A vector with one value throughout. -/
def constant (value : Half) : HalfArray := HalfArray.full [256] value

theorem vectors_constant (key value : Half) : Vectors (constant key, constant value) := ⟨rfl, rfl⟩

/-- Three appends to a ring of two slots over fresh programs. -/
theorem appends_ring_three : ∃ s final,
    init (MutableGemm.fresh (Bytes.zeros tdSize) rfl) (MutableGemm.fresh (Bytes.zeros tdSize) rfl) 2 256 = .ok s ∧
      Stmt.forEach (fun pair => append pair.1 pair.2) [(constant 1, constant 2), (constant 3, constant 4),
        (constant 5, constant 6)] s = (final, .ok ()) ∧
      final.cursor = 1 ∧ final.length = 2 ∧ final.Holds 0 (constant 5, constant 6) := by
  obtain ⟨final, hrun, hcursor, hlength, -, hlast, -⟩ := appends_ring
    (MutableGemm.fresh (Bytes.zeros tdSize) rfl) (MutableGemm.fresh (Bytes.zeros tdSize) rfl) 2 256 _ rfl
    (by decide) rfl rfl [(constant 1, constant 2), (constant 3, constant 4), (constant 5, constant 6)]
    (by simp [vectors_constant])
  refine ⟨_, final, rfl, hrun, hcursor, hlength, ?_⟩
  rw [hlength] at hlast
  exact (hlast 2 (constant 5, constant 6) (by decide) rfl).2

end Run

end AttentionGemmState

end AneLinux.Runtime
