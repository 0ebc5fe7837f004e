import AneLinux.Staged.Banks
import Mathlib.Algebra.Order.BigOperators.GroupWithZero.List

/-!
# Reading back what was staged

The size predictor, the packer and the bank reader agree on the layout of a row, so a bank gives
back the array that was written to it. The state reader reads the front of the buffer densely: it
gives back an array with short rows only when nothing but zeros follows its first row.
-/

namespace AneLinux.Staged

open AneLinux.Support AneLinux.Runtime

/-! ## Arrays as bytes -/

variable {values : List Half} {array : HalfArray} {i rows columns total : ℕ} {p : StagedProgram} {payload : Bytes}

section Arrays

variable {raw : Bytes}

/-- A byte of a list is a byte of one of its values. -/
theorem get_tobytes {k : ℕ} (hi : i < values.length) (hk : k < 2) :
    (tobytes values).get (2 * i + k) = halfByte (values.getD i 0) k := by
  rw [tobytes, Bytes.get_ofFn, if_pos (by omega), show (2 * i + k) / 2 = i by omega,
    show (2 * i + k) % 2 = k by omega]

/-- The values of a buffer are known from its bytes. -/
theorem halfAt_tobytes (hi : i < values.length) : halfAt (tobytes values) (2 * i) = values.getD i 0 :=
  halfAt_of_bytes fun _ hk => get_tobytes hi hk

/-- A list of values is read off its own bytes. -/
theorem map_halfAt_tobytes (values : List Half) :
    ((List.range values.length).map fun i => halfAt (tobytes values) (2 * i)) = values := by
  apply List.ext_getElem (by simp)
  intro i hi hj
  rw [List.getElem_map, List.getElem_range, halfAt_tobytes hj, List.getD_eq_getElem _ _ hj]

/-- A buffer of whole values is the bytes of its values. -/
theorem tobytes_map_halfAt (heven : raw.size % 2 = 0) :
    tobytes ((List.range (raw.size / 2)).map fun i => halfAt raw (2 * i)) = raw := by
  apply Bytes.ext_get
  · rw [size_tobytes, List.length_map, List.length_range]
    omega
  · intro i hi
    rw [size_tobytes] at hi
    have hlt : i / 2 < ((List.range (raw.size / 2)).map fun i => halfAt raw (2 * i)).length := by omega
    have hsplit : i = 2 * (i / 2) + i % 2 := by omega
    rw [hsplit, get_tobytes hlt (by omega), get_eq_halfByte raw _ (by omega), List.getD_eq_getElem _ _ hlt,
      List.getElem_map, List.getElem_range]

/-- A buffer reads as an array of its shape exactly when it is the bytes of the array. -/
theorem fromBuffer_eq_ok_iff : fromBuffer raw array.shape = .ok array ↔ raw = tobytes array.data := by
  constructor
  · intro h
    by_cases hodd : raw.size % 2 ≠ 0
    · rw [fromBuffer, if_pos hodd] at h
      exact absurd h (raiseValue_ne_ok _ _)
    by_cases hlength : raw.size / 2 = array.shape.prod
    · rw [fromBuffer, if_neg hodd, dif_pos hlength] at h
      have hdata := congrArg HalfArray.data (Except.ok.inj h)
      rw [← hdata, tobytes_map_halfAt (by omega)]
    · rw [fromBuffer, if_neg hodd, dif_neg hlength] at h
      exact absurd h (raiseValue_ne_ok _ _)
  · rintro rfl
    have hlength : (tobytes array.data).size / 2 = array.data.length := by
      rw [size_tobytes]
      omega
    rw [fromBuffer, if_neg (by rw [size_tobytes]; omega), dif_pos (hlength.trans array.size_eq)]
    apply congrArg Except.ok
    ext1
    · rfl
    · dsimp only
      rw [hlength, map_halfAt_tobytes]

end Arrays

/-! ## Rows -/

/-- The rows and the columns of an array with a positive last dimension. -/
structure RowsOf (array : HalfArray) (rows columns : ℕ) : Prop where
  rank : 2 ≤ array.shape.length
  last : array.shape.getLast? = some columns
  columnCount : array.columns = columns
  rowCount : array.shape.dropLast.prod = rows
  length : array.data.length = rows * columns
  columns_pos : 0 < columns
  rows_pos : 0 < rows

/-- An array of rank two or more with positive dimensions has rows. -/
theorem exists_rowsOf (hrank : 2 ≤ array.shape.length) (hpositive : ∀ dim ∈ array.shape, 0 < dim) :
    ∃ rows columns, RowsOf array rows columns := by
  have hne : array.shape ≠ [] := by
    intro hnil
    rw [hnil] at hrank
    simp at hrank
  refine ⟨array.shape.dropLast.prod, array.shape.getLast hne, hrank, List.getLast?_eq_some_getLast hne, ?_, rfl,
    ?_, hpositive _ (List.getLast_mem hne), ?_⟩
  · rw [HalfArray.columns, List.getLastD_eq_getLast?, List.getLast?_eq_some_getLast hne, Option.getD_some]
  · rw [array.size_eq]
    conv_lhs => rw [← List.dropLast_append_getLast hne]
    rw [List.prod_append, List.prod_singleton]
  · exact List.prod_pos fun dim hdim => hpositive dim (List.mem_of_mem_dropLast hdim)

section Layout

@[simp] theorem length_windowRows (rows columns : ℕ) (values : List Half) :
    (windowRows rows columns values).length = rows * 32 := by
  simp [windowRows, stagedRow]

/-- A value of the window is a value of the array at the head of a row, and zero behind it. -/
theorem getD_windowRows (hi : i < rows * 32) :
    (windowRows rows columns values).getD i 0 =
      if i % 32 < columns then values.getD (i / 32 * columns + i % 32) 0 else 0 := by
  have hlt : i < (windowRows rows columns values).length := by rwa [length_windowRows]
  rw [List.getD_eq_getElem _ _ hlt]
  simp [windowRows, stagedRow]

/-- Long rows are staged densely. -/
theorem RowsOf.payload_dense (h : RowsOf array rows columns) (hlong : 32 ≤ columns) :
    stagedPayload array = .ok (tobytes array.data) :=
  if_pos (Or.inr (by rw [h.columnCount, stagedRow]; omega))

/-- Short rows are staged at the heads of window rows. -/
theorem RowsOf.payload_rows (h : RowsOf array rows columns) (hshort : columns < 32) :
    stagedPayload array = .ok (tobytes (windowRows rows columns array.data)) := by
  have hrank := h.rank
  have hcolumns := h.columns_pos
  have hrows : array.data.length / array.columns = rows := by
    rw [h.length, h.columnCount, Nat.mul_div_cancel _ hcolumns]
  unfold stagedPayload
  rw [hrows, h.columnCount, if_neg (by rw [stagedRow]; omega), if_neg (by omega)]
  rfl

/-- The predicted window. -/
theorem RowsOf.window (h : RowsOf array rows columns) :
    modStagedWindow array.shape = .ok (if columns < 32 then rows * 64 else rows * columns * 2) := by
  unfold modStagedWindow
  rw [h.last, h.rowCount]
  apply congrArg Except.ok
  rw [stagedRow]
  split_ifs with hshort
  · exact max_eq_right (by rw [Nat.mul_assoc]; exact Nat.mul_le_mul_left rows (by omega))
  · exact max_eq_left (by rw [Nat.mul_assoc]; exact Nat.mul_le_mul_left rows (by omega))

/-- What is staged has exactly the size that was predicted. -/
theorem RowsOf.payload_size (h : RowsOf array rows columns) : ∃ payload, stagedPayload array = .ok payload ∧
    payload.size = if columns < 32 then rows * 64 else rows * columns * 2 := by
  by_cases hshort : columns < 32
  · refine ⟨_, h.payload_rows hshort, ?_⟩
    rw [size_tobytes, length_windowRows, if_pos hshort]
    omega
  · refine ⟨_, h.payload_dense (by omega), ?_⟩
    rw [size_tobytes, h.length, if_neg hshort]
    omega

/-- The place of byte `2 * i + k` of the values in rows of `2 * columns` bytes. -/
theorem byte_place {i k : ℕ} (hk : k < 2) :
    (2 * i + k) / (columns * 2) = i / columns ∧ (2 * i + k) % (columns * 2) = 2 * (i % columns) + k := by
  have hdiv : (2 * i + k) / (columns * 2) = i / columns := by
    rw [Nat.mul_comm columns 2, ← Nat.div_div_eq_div_mul]
    congr 1
    omega
  refine ⟨hdiv, ?_⟩
  have hwhole := Nat.div_add_mod (2 * i + k) (columns * 2)
  have hrow := Nat.div_add_mod i columns
  rw [hdiv] at hwhole
  have hsplit : columns * 2 * (i / columns) = 2 * (columns * (i / columns)) := by ring
  omega

/-- The heads of the window rows are the bytes of the array. -/
theorem RowsOf.heads (h : RowsOf array rows columns) (hshort : columns < 32) :
    (rowHeads (tobytes (windowRows rows columns array.data)) (columns * 2)).slice 0 (rows * columns * 2) =
      tobytes array.data := by
  have hlength := h.length
  have hmin : min (columns * 2) stagedRow = columns * 2 := min_eq_left (by rw [stagedRow]; omega)
  have hrows : (tobytes (windowRows rows columns array.data)).size / stagedRow = rows := by
    rw [size_tobytes, length_windowRows, stagedRow]
    omega
  have hsize : rows * (columns * 2) = rows * columns * 2 := by ring
  apply Bytes.ext_get
  · rw [Bytes.size_slice, rowHeads, Bytes.size_ofFn, hmin, hrows, size_tobytes, h.length, hsize]
    omega
  · intro j hj
    rw [Bytes.size_slice, rowHeads, Bytes.size_ofFn, hmin, hrows] at hj
    obtain ⟨i, k, rfl, hk⟩ : ∃ i k, j = 2 * i + k ∧ k < 2 := ⟨j / 2, j % 2, by omega, by omega⟩
    have hi : i < rows * columns := by omega
    obtain ⟨hrow, hplace⟩ := byte_place hk
    have hrowLt : i / columns < rows := Nat.div_lt_of_lt_mul (by rwa [Nat.mul_comm])
    have hcolumnLt : i % columns < columns := Nat.mod_lt i h.columns_pos
    rw [Bytes.get_slice_of_lt _ (by omega), Nat.zero_add, rowHeads, Bytes.get_ofFn, hmin, hrows,
      if_pos (by omega), hrow, hplace, stagedRow,
      show i / columns * 64 + (2 * (i % columns) + k) = 2 * (i / columns * 32 + i % columns) + k by omega,
      get_tobytes (by rw [length_windowRows]; omega) hk, getD_windowRows (by omega),
      show (i / columns * 32 + i % columns) % 32 = i % columns by omega,
      show (i / columns * 32 + i % columns) / 32 = i / columns by omega, if_pos hcolumnLt,
      Nat.mul_comm (i / columns), Nat.div_add_mod, get_tobytes (by omega) hk]

end Layout

/-! ## Banks -/

namespace StagedProgram

variable {channel : ℕ} {port : String} {bank data : Bytes}

/-- A write that fits changes the bank of its channel only. -/
theorem storeBank_of_find (hbank : find p.banks channel = some bank) (hfits : data.size ≤ bank.size) :
    ∃ written, p.storeBank channel data = .ok written ∧ written.binding = p.binding ∧
      written.window = p.window ∧ find written.banks channel = some (overwritten bank data) := by
  unfold storeBank
  split
  · rename_i hnone
    rw [hbank] at hnone
    cases hnone
  · rename_i found hfound
    obtain rfl : bank = found := Option.mem_unique hbank hfound
    rw [if_neg (by omega)]
    refine ⟨_, rfl, rfl, rfl, ?_⟩
    dsimp only
    rw [find_assign, if_pos rfl]

/-- The front of a written buffer is what was written. -/
theorem slice_overwritten {size : ℕ} (hsize : size ≤ data.size) (hfits : data.size ≤ bank.size) :
    (overwritten bank data).slice 0 size = data.slice 0 size := by
  apply Bytes.ext_get
  · rw [Bytes.size_slice, Bytes.size_slice, size_overwritten]
    omega
  · intro i hi
    rw [Bytes.size_slice, size_overwritten] at hi
    rw [Bytes.get_slice_of_lt _ (by omega), Bytes.get_slice_of_lt _ (by omega), Nat.zero_add, overwritten,
      Bytes.get_ofFn, if_pos (by omega), if_pos (by omega)]

/-- A whole buffer is its own slice. -/
theorem slice_whole (d : Bytes) : d.slice 0 d.size = d := by
  have hwhole := Bytes.slice_append_left d Bytes.empty
  rwa [Bytes.append_empty] at hwhole

/-- A tile-aligned buffer has room for its size. -/
theorem le_tileBytes (size : ℕ) : size ≤ tileBytes size := by
  unfold tileBytes
  omega

/-- A staged array that fills its window is stored in the bank of its channel. -/
theorem writeBank_of_payload (hport : find p.binding port = some channel)
    (hwindow : find p.window channel = some total) (hpayload : stagedPayload array = .ok payload)
    (hsize : payload.size = total) :
    ∃ written bank, p.writeBank port array = .ok written ∧ find written.binding port = some channel ∧
      find written.window channel = some total ∧ find written.banks channel = some (overwritten bank payload) ∧
      payload.size ≤ bank.size := by
  obtain ⟨bank, hbank, htile⟩ := p.bank_of_window hwindow
  have hroom := le_tileBytes total
  obtain ⟨written, hstore, hbinding, hwindows, hwritten⟩ :=
    storeBank_of_find hbank (show payload.size ≤ bank.size by omega)
  refine ⟨written, bank, ?_, hbinding ▸ hport, hwindows ▸ hwindow, hwritten, by omega⟩
  unfold writeBank
  rw [lookup_eq_ok.mpr hport, ok_bind, lookup_eq_ok.mpr hwindow, ok_bind, stagedBytes, hpayload, ok_bind,
    if_neg (not_not_intro hsize)]
  exact hstore

/-- A bank reads back the array that was staged into it. -/
theorem readOutput_of_staged (harray : RowsOf array rows columns) (hport : find p.binding port = some channel)
    (hwindow : find p.window channel = some (if columns < 32 then rows * 64 else rows * columns * 2))
    (hpayload : stagedPayload array = .ok payload) (hbank : find p.banks channel = some (overwritten bank payload))
    (hfits : payload.size ≤ bank.size) : p.readOutput port array.shape = .ok array := by
  have hlength := harray.length
  have hlogical : array.shape.prod * 2 = rows * columns * 2 := by rw [← array.size_eq, harray.length]
  unfold readOutput
  rw [lookup_eq_ok.mpr hport, ok_bind, lookup_eq_ok.mpr hbank, ok_bind, lookup_eq_ok.mpr hwindow, ok_bind,
    hlogical]
  by_cases hshort : columns < 32
  · have hrows := harray.rows_pos
    obtain rfl := Except.ok.inj (hpayload.symm.trans (harray.payload_rows hshort))
    have hsize : (tobytes (windowRows rows columns array.data)).size = rows * 64 := by
      rw [size_tobytes, length_windowRows]
      omega
    have hlarger : rows * columns * 2 < rows * 64 := by
      have := Nat.mul_lt_mul_of_pos_left hshort hrows
      omega
    have hraw : (overwritten bank (tobytes (windowRows rows columns array.data))).slice 0 (rows * 64) =
        tobytes (windowRows rows columns array.data) := by
      rw [slice_overwritten hsize.ge hfits, ← hsize, slice_whole]
    simp only [if_pos hshort]
    rw [if_pos ⟨hlarger, by rw [stagedRow]; omega⟩, hraw, if_neg (by rw [hsize, stagedRow]; omega), harray.last]
    exact fromBuffer_eq_ok_iff.mpr (harray.heads hshort)
  · obtain rfl := Except.ok.inj (hpayload.symm.trans (harray.payload_dense (by omega)))
    have hsize : (tobytes array.data).size = rows * columns * 2 := by
      rw [size_tobytes]
      omega
    simp only [if_neg hshort]
    rw [if_neg fun h => absurd h.1 (Nat.lt_irrefl _)]
    apply fromBuffer_eq_ok_iff.mpr
    rw [slice_overwritten hsize.ge hfits, ← hsize, slice_whole]

end StagedProgram

/-- A bank gives back the array that was written to it: with the channel's window at the predicted
size, the staged bytes are exactly the window, the write does not raise, and reading the port with
the shape of the array returns the array. -/
theorem readOutput_writeBank (p : StagedProgram) (port : String) (channel window : ℕ) (array : HalfArray)
    (hrank : 2 ≤ array.shape.length) (hpositive : ∀ dim ∈ array.shape, 0 < dim)
    (hpredicted : modStagedWindow array.shape = .ok window) (hport : find p.binding port = some channel)
    (hwindow : find p.window channel = some window) :
    (∃ payload, stagedBytes array window = .ok payload ∧ payload.size = window) ∧
      ∃ written, p.writeBank port array = .ok written ∧ written.readOutput port array.shape = .ok array := by
  obtain ⟨rows, columns, harray⟩ := exists_rowsOf hrank hpositive
  obtain rfl := Except.ok.inj (harray.window.symm.trans hpredicted)
  obtain ⟨payload, hpayload, hsize⟩ := harray.payload_size
  constructor
  · refine ⟨payload, ?_, hsize⟩
    rw [stagedBytes, hpayload, ok_bind, if_neg (not_not_intro hsize)]
    rfl
  · obtain ⟨written, bank, hwrite, hport, hwindow, hbank, hfits⟩ :=
      StagedProgram.writeBank_of_payload hport hwindow hpayload hsize
    exact ⟨written, hwrite, StagedProgram.readOutput_of_staged harray hport hwindow hpayload hbank hfits⟩

/-- A column of two values: its rows take four bytes and stand at the heads of 128. -/
def gateColumn : HalfArray := ⟨[2, 1], [halfOne, halfOne], rfl⟩

theorem readOutput_writeBank_column : ∃ written,
    (StagedProgram.allocated [("gate", 4)] [(4, 128)]).writeBank "gate" gateColumn = .ok written ∧
      written.readOutput "gate" [2, 1] = .ok gateColumn :=
  (readOutput_writeBank (StagedProgram.allocated [("gate", 4)] [(4, 128)]) "gate" 4 128 gateColumn
    (by decide) (by decide) rfl rfl rfl).2

/-! ## States -/

/-- Reading the window rows densely returns the values exactly when nothing but zeros follows the
first row. -/
theorem windowRows_agree_iff (hshort : columns < 32) (hlength : values.length = rows * columns) :
    (∀ i < values.length, (windowRows rows columns values).getD i 0 = values.getD i 0) ↔
      ∀ i < values.length, columns ≤ i → values.getD i 0 = 0 := by
  have hroom : rows * columns ≤ rows * 32 := Nat.mul_le_mul_left rows hshort.le
  have hback (i : ℕ) (hi : 32 ≤ i) : columns ≤ i / 32 * columns + i % 32 ∧ i / 32 * columns + i % 32 < i := by
    have hrow : 1 ≤ i / 32 := by omega
    have hlow := Nat.mul_le_mul_right columns hrow
    have hhigh := Nat.mul_lt_mul_of_pos_left hshort hrow
    omega
  constructor
  · intro hagree i
    induction i using Nat.strong_induction_on with
    | _ i ih =>
      intro hi hpast
      rw [← hagree i hi, getD_windowRows (by omega)]
      by_cases hhead : i % 32 < columns
      · obtain ⟨hlow, hhigh⟩ := hback i (by omega)
        rw [if_pos hhead]
        exact ih _ hhigh (by omega) hlow
      · rw [if_neg hhead]
  · intro hzero i hi
    rw [getD_windowRows (by omega)]
    by_cases hfirst : i < columns
    · rw [if_pos (by omega), show i / 32 * columns + i % 32 = i by
        rw [Nat.div_eq_of_lt (by omega), Nat.mod_eq_of_lt (by omega)]
        omega]
    · rw [hzero i hi (by omega)]
      by_cases hhead : i % 32 < columns
      · obtain ⟨hlow, hhigh⟩ := hback i (by omega)
        rw [if_pos hhead]
        exact hzero _ (by omega) hlow
      · rw [if_neg hhead]

/-- Staged bytes read densely give back the array exactly when its rows are long or only zeros follow
the first row. -/
theorem dense_read_iff (harray : RowsOf array rows columns) (hpayload : stagedPayload array = .ok payload) :
    payload.slice 0 (array.shape.prod * 2) = tobytes array.data ↔
      32 ≤ columns ∨ ∀ i < array.data.length, columns ≤ i → array.data.getD i 0 = 0 := by
  have hlength := harray.length
  by_cases hshort : columns < 32
  · obtain rfl := Except.ok.inj (hpayload.symm.trans (harray.payload_rows hshort))
    have hroom : rows * columns ≤ rows * 32 := Nat.mul_le_mul_left rows hshort.le
    have hslice := @slice_eq_tobytes_iff (tobytes (windowRows rows columns array.data)) 0 array.data
      (by rw [size_tobytes, length_windowRows]; omega)
    rw [← array.size_eq, Nat.mul_comm, ← Nat.zero_add (2 * array.data.length), hslice,
      or_iff_right (by omega), ← windowRows_agree_iff hshort hlength]
    refine forall₂_congr fun i hi => ?_
    rw [Nat.zero_add, halfAt_tobytes (by rw [length_windowRows]; omega)]
  · obtain rfl := Except.ok.inj (hpayload.symm.trans (harray.payload_dense (by omega)))
    have hwhole : array.shape.prod * 2 = (tobytes array.data).size := by
      rw [size_tobytes, ← array.size_eq, Nat.mul_comm]
    rw [hwhole, StagedProgram.slice_whole]
    exact iff_of_true rfl (Or.inl (by omega))

section States

variable {inPort outPort : String} {inChannel outChannel : ℕ} {front back : Bytes}

/-- A state whose staged bytes fill the window is stored in the front buffer, if that has room. -/
theorem writeState_of_payload (hin : find p.binding inPort = some inChannel)
    (hout : find p.binding outPort = some outChannel)
    (hpair : find p.states (inChannel, outChannel) = some (front, back))
    (hwindow : find p.window inChannel = some total) (hpayload : stagedBytes array total = .ok payload) :
    p.writeState inPort outPort array = if front.size < payload.size then
      raiseValue ("buffer overflow: " ++ toString payload.size ++ " > " ++ toString front.size)
    else .ok (p.putState (inChannel, outChannel) (overwritten front payload, back)) := by
  unfold StagedProgram.writeState
  rw [lookup_eq_ok.mpr hin, ok_bind, lookup_eq_ok.mpr hout, ok_bind, lookup_eq_ok.mpr hpair, ok_bind,
    lookup_eq_ok.mpr hwindow, ok_bind, hpayload, ok_bind, storeBuffer]
  by_cases hroom : front.size < payload.size
  · rw [if_pos hroom, if_pos hroom]
    rfl
  · rw [if_neg hroom, if_neg hroom]
    rfl

/-- A registered state is read from the start of the buffer in front. -/
theorem readState_putState (hin : find p.binding inPort = some inChannel)
    (hout : find p.binding outPort = some outChannel) (shape : List ℕ) :
    (p.putState (inChannel, outChannel) (front, back)).readState inPort outPort shape =
      fromBuffer (front.slice 0 (shape.prod * 2)) shape := by
  have hpair : find (p.putState (inChannel, outChannel) (front, back)).states (inChannel, outChannel) =
      some (front, back) := by
    rw [StagedProgram.putState, find_assign, if_pos rfl]
  have hbinding : (p.putState (inChannel, outChannel) (front, back)).binding = p.binding := rfl
  unfold StagedProgram.readState
  rw [hbinding, lookup_eq_ok.mpr hin, ok_bind, lookup_eq_ok.mpr hout, ok_bind, lookup_eq_ok.mpr hpair, ok_bind]

end States

/-- A resident state is read back exactly when the buffer in front has room for the window and the
dense read agrees with the staged rows: the rows take 64 bytes or more, or every value after the
first row is zero. -/
theorem readState_writeState_iff (p : StagedProgram) (inPort outPort : String) (inChannel outChannel : ℕ)
    (front back payload : Bytes) (array : HalfArray) (window : ℕ) (hrank : 2 ≤ array.shape.length)
    (hpositive : ∀ dim ∈ array.shape, 0 < dim) (hin : find p.binding inPort = some inChannel)
    (hout : find p.binding outPort = some outChannel)
    (hpair : find p.states (inChannel, outChannel) = some (front, back))
    (hwindow : find p.window inChannel = some window) (hfills : stagedBytes array window = .ok payload) :
    (∃ written, p.writeState inPort outPort array = .ok written ∧
      written.readState inPort outPort array.shape = .ok array) ↔
    window ≤ front.size ∧
      (64 ≤ array.columns * 2 ∨ ∀ i < array.data.length, array.columns ≤ i → array.data.getD i 0 = 0) := by
  obtain ⟨rows, columns, harray⟩ := exists_rowsOf hrank hpositive
  obtain ⟨packed, hpacked, hpackedSize⟩ := harray.payload_size
  have hfilled := hfills
  rw [stagedBytes, hpacked, ok_bind] at hfilled
  by_cases hsize : packed.size ≠ window
  · rw [if_pos hsize] at hfilled
    exact absurd hfilled (raiseValue_ne_ok _ _)
  rw [if_neg hsize] at hfilled
  obtain rfl : packed = payload := Except.ok.inj hfilled
  rw [not_not] at hsize
  have hlong : 64 ≤ array.columns * 2 ↔ 32 ≤ columns := by
    rw [harray.columnCount]
    omega
  rw [writeState_of_payload hin hout hpair hwindow hfills, hlong, harray.columnCount]
  by_cases hroom : front.size < packed.size
  · rw [if_pos hroom]
    constructor
    · rintro ⟨written, hwritten, -⟩
      exact absurd hwritten (raiseValue_ne_ok _ _)
    · rintro ⟨hfits, -⟩
      omega
  · have hfits : packed.size ≤ front.size := Nat.le_of_not_lt hroom
    have hprefix : array.shape.prod * 2 ≤ packed.size := by
      rw [← array.size_eq, harray.length, hpackedSize]
      split_ifs with hshort
      · rw [Nat.mul_assoc]
        exact Nat.mul_le_mul_left rows (by omega)
      · exact le_rfl
    have hdense := dense_read_iff harray hpacked
    have hfront := StagedProgram.slice_overwritten hprefix hfits
    rw [if_neg hroom, ← hdense]
    constructor
    · rintro ⟨written, hwritten, hreads⟩
      obtain rfl := Except.ok.inj hwritten
      rw [readState_putState hin hout, hfront] at hreads
      exact ⟨by omega, fromBuffer_eq_ok_iff.mp hreads⟩
    · rintro ⟨-, hbytes⟩
      refine ⟨_, rfl, ?_⟩
      rw [readState_putState hin hout, hfront]
      exact fromBuffer_eq_ok_iff.mpr hbytes

/-- A program with one resident state in two windows of 128 bytes. -/
def gateProgram : StagedProgram :=
  (StagedProgram.allocated [("state", 4), ("next", 5)] [(4, 128), (5, 128)]).putState (4, 5)
    (Bytes.zeros 0x4000, Bytes.zeros 0x4000)

theorem readState_writeState_iff_column : ∃ payload, stagedBytes gateColumn 128 = .ok payload ∧
    ((∃ written, gateProgram.writeState "state" "next" gateColumn = .ok written ∧
      written.readState "state" "next" [2, 1] = .ok gateColumn) ↔
    128 ≤ 0x4000 ∧ (64 ≤ gateColumn.columns * 2 ∨
      ∀ i < gateColumn.data.length, gateColumn.columns ≤ i → gateColumn.data.getD i 0 = 0)) :=
  ⟨_, rfl, readState_writeState_iff gateProgram "state" "next" 4 5 _ _ _ gateColumn 128 (by decide) (by decide)
    rfl rfl rfl rfl rfl⟩

/-- The second value of a column is lost: the dense read finds the padding of the first row. -/
theorem readState_drops_second_row : 2 ≤ gateColumn.shape.length ∧ (∀ dim ∈ gateColumn.shape, 0 < dim) ∧
    (∃ payload, stagedBytes gateColumn 128 = .ok payload) ∧
    ∃ written, gateProgram.writeState "state" "next" gateColumn = .ok written ∧
      written.readState "state" "next" [2, 1] = .ok ⟨[2, 1], [halfOne, halfZero], rfl⟩ ∧
      written.readState "state" "next" [2, 1] ≠ .ok gateColumn := by
  have hread (written : StagedProgram) (h : gateProgram.writeState "state" "next" gateColumn = .ok written) :
      written.readState "state" "next" [2, 1] = .ok ⟨[2, 1], [halfOne, halfZero], rfl⟩ := by
    obtain rfl := Except.ok.inj h
    decide +kernel
  have hwrite : ∃ written, gateProgram.writeState "state" "next" gateColumn = .ok written := ⟨_, rfl⟩
  obtain ⟨written, hwritten⟩ := hwrite
  refine ⟨by decide, by decide, ⟨_, rfl⟩, written, hwritten, hread written hwritten, ?_⟩
  rw [hread written hwritten]
  decide

end AneLinux.Staged
