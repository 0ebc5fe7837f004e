import AneLinux.Runtime.DerivedStrides
import AneLinux.Support.Cells

/-!
# Tiles

`ane_tile` spreads the rows of a dense array over a surface with the plane and row strides of the header, and
`ane_untile` collects them. The offsets are numbers of the machine, and every copy stays inside its buffers or the
program faults.
-/

namespace AneLinux.Libane

open AneLinux.Support AneLinux.Runtime

variable {α : Type}

/-- `memcpy(dst + dest, src + start, len)`. -/
def memcpy (dst : Cells α) (dest : ℕ) (src : Cells α) (start len : ℕ) : Option (Cells α) :=
  if start + len ≤ src.size then dst.write ((List.range len).map fun k => (dest + k, src.get (start + k))) else none

/-- `memset(dst, 0, len)`. -/
def memset [Zero α] (dst : Cells α) (len : ℕ) : Option (Cells α) := dst.write ((List.range len).map fun k => (k, 0))

/-- The six numbers of a surface as `ane_tile` takes them. -/
structure Surface where
  N : ℕ
  C : ℕ
  H : ℕ
  W : ℕ
  P : ℕ
  R : ℕ

namespace Surface

variable (s : Surface)

/-- `new_H`. -/
def newH : ℕ := s.P / s.R

/-- `new_W`. -/
def newW : ℕ := s.R / 2

/-- The bytes of the surface, `N * C * P`. -/
def tiledBytes : ℕ := s.N * s.C * s.P % 2 ^ 64

/-- The bytes of the dense array, `N * C * H * W * sizeof(uint16_t)`. -/
def denseBytes : ℕ := s.N * s.C * s.H * s.W * 2 % 2 ^ 64

/-- The offset of a row in the dense array, `(n * C0 + c * H0 + h * W) * sizeof(uint16_t)`. -/
def denseOffset (n c h : ℕ) : ℕ := (n * (s.C * s.H * s.W) + c * (s.H * s.W) + h * s.W) * 2 % 2 ^ 64

/-- The offset of a row in the surface, `(n * C1 + c * H1 + h * new_W) * sizeof(uint16_t)`. -/
def tiledOffset (n c h : ℕ) : ℕ :=
  (n * (s.C * s.newH * s.newW) + c * (s.newH * s.newW) + h * s.newW) * 2 % 2 ^ 64

/-- The rounds of the three loops. -/
def rows : List (ℕ × ℕ × ℕ) := List.range s.N ×ˢ List.range s.C ×ˢ List.range s.H

/-- `ane_tile`. -/
def tile [Zero α] (data tile : Cells α) : Option (Cells α) :=
  if s.R = 0 then none
  else if s.newH = s.H ∧ s.newW = s.W then memcpy tile 0 data 0 s.tiledBytes
  else do
    let tile ← memset tile s.tiledBytes
    s.rows.foldlM (fun tile row =>
      memcpy tile (s.tiledOffset row.1 row.2.1 row.2.2) data (s.denseOffset row.1 row.2.1 row.2.2) (s.W * 2 % 2 ^ 64))
      tile

/-- `ane_untile`. -/
def untile [Zero α] (data tile : Cells α) : Option (Cells α) :=
  if s.R = 0 then none
  else if s.newH = s.H ∧ s.newW = s.W then memcpy data 0 tile 0 s.denseBytes
  else do
    let data ← memset data s.denseBytes
    s.rows.foldlM (fun data row =>
      memcpy data (s.denseOffset row.1 row.2.1 row.2.2) tile (s.tiledOffset row.1 row.2.1 row.2.2) (s.W * 2 % 2 ^ 64))
      data

end Surface

/-! ## Copying rows -/

section Copy

variable {ι : Type} {dst src : Cells α} {rows : List ι} {dest start : ι → ℕ} {len i : ℕ} {target : ℕ → α}

/-- The writes of a copy. -/
def copied (dest : ℕ) (src : Cells α) (start len : ℕ) : List (ℕ × α) :=
  (List.range len).map fun k => (dest + k, src.get (start + k))

/-- Where a copy writes. -/
theorem mem_copied {dest start : ℕ} :
    i ∈ (copied dest src start len).map Prod.fst ↔ dest ≤ i ∧ i < dest + len := by
  simp only [copied, List.map_map, List.mem_map, List.mem_range, Function.comp_apply]
  constructor
  · rintro ⟨k, hk, rfl⟩
    omega
  · rintro ⟨hle, hlt⟩
    exact ⟨i - dest, by omega, by omega⟩

theorem foldlM_congr_mem {β γ : Type} {body body' : γ → β → Option γ} {values : List β} {start : γ}
    (h : ∀ b ∈ values, ∀ c, body c b = body' c b) : values.foldlM body start = values.foldlM body' start := by
  induction values generalizing start with
  | nil => rfl
  | cons b rest ih =>
    rw [List.foldlM_cons, List.foldlM_cons, h b List.mem_cons_self]
    exact congrArg _ (funext fun c => ih fun b hb => h b (List.mem_cons_of_mem _ hb))

/-- Rows that stay inside both buffers are copied: a byte that one of them covers is at its target, and every other
byte is kept. -/
theorem foldlM_memcpy (hdest : ∀ row ∈ rows, dest row + len ≤ dst.size)
    (hstart : ∀ row ∈ rows, start row + len ≤ src.size)
    (htarget : ∀ row ∈ rows, ∀ k < len, src.get (start row + k) = target (dest row + k)) :
    ∃ out, rows.foldlM (fun dst row => memcpy dst (dest row) src (start row) len) dst = some out ∧
      out.size = dst.size ∧
      (∀ i, (∃ row ∈ rows, dest row ≤ i ∧ i < dest row + len) → out.get i = target i) ∧
      ∀ i, (∀ row ∈ rows, ¬(dest row ≤ i ∧ i < dest row + len)) → out.get i = dst.get i := by
  have hinside : ∀ row ∈ rows, ∀ write ∈ copied (dest row) src (start row) len, write.1 < dst.size := by
    intro row hrow write hwrite
    have hmem := mem_copied.mp (List.mem_map_of_mem hwrite)
    have hle := hdest row hrow
    omega
  have hcopy : rows.foldlM (fun dst row => memcpy dst (dest row) src (start row) len) dst =
      rows.foldlM (fun dst row => dst.write (copied (dest row) src (start row) len)) dst :=
    foldlM_congr_mem fun row hrow _ => if_pos (hstart row hrow)
  have hsettles : Settles target (rows.flatMap fun row => copied (dest row) src (start row) len) := by
    refine settles_of_forall fun write hwrite => ?_
    obtain ⟨row, hrow, hwrite⟩ := List.mem_flatMap.mp hwrite
    obtain ⟨k, hk, rfl⟩ := List.mem_map.mp hwrite
    exact htarget row hrow k (List.mem_range.mp hk)
  have hcovered (i : ℕ) : i ∈ (rows.flatMap fun row => copied (dest row) src (start row) len).map Prod.fst ↔
      ∃ row ∈ rows, dest row ≤ i ∧ i < dest row + len := by
    simp only [List.map_flatMap, List.mem_flatMap, mem_copied]
  refine ⟨_, hcopy.trans (Cells.foldlM_write hinside), rfl, fun i hi => hsettles _ i ((hcovered i).mpr hi),
    fun i hi => applyWrites_of_notMem fun hmem => ?_⟩
  obtain ⟨row, hrow, hwithin⟩ := (hcovered i).mp hmem
  exact hi row hrow hwithin

/-- A single copy to the front of a buffer. -/
theorem memcpy_front (hdst : len ≤ dst.size) (hsrc : len ≤ src.size) :
    ∃ out, memcpy dst 0 src 0 len = some out ∧ out.size = dst.size ∧ (∀ i < len, out.get i = src.get i) ∧
      ∀ i, len ≤ i → out.get i = dst.get i := by
  obtain ⟨out, hout, hsize, hin, hout'⟩ := @foldlM_memcpy α Unit dst src [()] (fun _ => 0) (fun _ => 0) len src.get
    (fun _ _ => by omega) (fun _ _ => by omega) fun _ _ _ _ => rfl
  refine ⟨out, ?_, hsize, fun i hi => hin i ⟨(), by simp, by omega, by omega⟩, fun i hi => hout' i fun _ _ => by omega⟩
  simpa using hout

/-- Clearing zeroes exactly the length given. -/
theorem memset_eq [Zero α] (hlen : len ≤ dst.size) :
    ∃ out, memset dst len = some out ∧ out.size = dst.size ∧ (∀ i < len, out.get i = 0) ∧
      ∀ i, len ≤ i → out.get i = dst.get i := by
  have hsettles : Settles (fun _ => (0 : α)) ((List.range len).map fun k => (k, 0)) := by
    refine settles_of_forall fun write hwrite => ?_
    obtain ⟨k, -, rfl⟩ := List.mem_map.mp hwrite
    rfl
  have hmem (i : ℕ) : i ∈ ((List.range len).map fun k => (k, (0 : α))).map Prod.fst ↔ i < len := by simp
  refine ⟨_, if_pos fun write hwrite => ?_, rfl, fun i hi => hsettles _ i ((hmem i).mpr hi),
    fun i hi => applyWrites_of_notMem fun h => ?_⟩
  · obtain ⟨k, hk, rfl⟩ := List.mem_map.mp hwrite
    exact (List.mem_range.mp hk).trans_le hlen
  · exact absurd ((hmem i).mp h) (not_lt.mpr hi)

end Copy

/-! ## Surfaces -/

namespace Surface

/-- Surfaces whose planes are rows of whole values and hold the array. -/
structure Fits (s : Surface) : Prop where
  even : 2 ∣ s.R
  pos : 0 < s.R
  planes : s.R ∣ s.P
  height : s.H ≤ s.newH
  width : s.W ≤ s.newW
  bytes : s.N * s.C * s.P < 2 ^ 64
  machine : s.R < 2 ^ 64

variable {s : Surface} {n c h : ℕ}

/-- The number of a row, with so many rows in a plane. -/
def rowNumber (s : Surface) (height n c h : ℕ) : ℕ := (n * s.C + c) * height + h

theorem rowNumber_lt {height : ℕ} (hn : n < s.N) (hc : c < s.C) (hh : h < height) :
    s.rowNumber height n c h + 1 ≤ s.N * s.C * height := by
  have hplane : n * s.C + c + 1 ≤ s.N * s.C := by
    have hle : (n + 1) * s.C ≤ s.N * s.C := Nat.mul_le_mul_right _ hn
    rw [Nat.add_mul, Nat.one_mul] at hle
    omega
  have hle : (n * s.C + c + 1) * height ≤ s.N * s.C * height := Nat.mul_le_mul_right _ hplane
  rw [Nat.add_mul, Nat.one_mul] at hle
  rw [rowNumber]
  omega

/-- Every row number is that of a row. -/
theorem exists_rowNumber {height r : ℕ} (hr : r < s.N * s.C * height) :
    ∃ n < s.N, ∃ c < s.C, ∃ h < height, s.rowNumber height n c h = r := by
  have hheight : 0 < height := Nat.pos_of_ne_zero fun hzero => by rw [hzero, Nat.mul_zero] at hr; omega
  have hplane : r / height < s.N * s.C := Nat.div_lt_of_lt_mul (by rwa [Nat.mul_comm])
  have hC : 0 < s.C := Nat.pos_of_ne_zero fun hzero => by
    rw [hzero, Nat.mul_zero] at hplane
    exact Nat.not_lt_zero _ hplane
  refine ⟨r / height / s.C, Nat.div_lt_of_lt_mul (by rwa [Nat.mul_comm]), r / height % s.C, Nat.mod_lt _ hC,
    r % height, Nat.mod_lt _ hheight, ?_⟩
  rw [rowNumber, Nat.div_add_mod', Nat.div_add_mod']

namespace Fits

variable (hs : s.Fits)

include hs

theorem newW_eq : s.newW * 2 = s.R := Nat.div_mul_cancel hs.even

theorem newH_eq : s.newH * s.R = s.P := Nat.div_mul_cancel hs.planes

theorem width_le : s.W * 2 ≤ s.R := by
  have hwidth := hs.width
  have heven := hs.newW_eq
  omega

theorem tiledBytes_eq : s.tiledBytes = s.N * s.C * s.newH * s.R := by
  rw [tiledBytes, Nat.mod_eq_of_lt hs.bytes, Nat.mul_assoc _ s.newH, hs.newH_eq]

theorem dense_le : s.N * s.C * s.H * (s.W * 2) ≤ s.N * s.C * s.newH * s.R :=
  Nat.mul_le_mul (Nat.mul_le_mul_left _ hs.height) hs.width_le

theorem tiled_lt : s.N * s.C * s.newH * s.R < 2 ^ 64 := by
  rw [Nat.mul_assoc _ s.newH, hs.newH_eq]
  exact hs.bytes

theorem denseBytes_eq : s.denseBytes = s.N * s.C * s.H * (s.W * 2) := by
  rw [denseBytes, Nat.mul_assoc _ s.W, Nat.mod_eq_of_lt (hs.dense_le.trans_lt hs.tiled_lt)]

/-- A row of the dense array ends inside it. -/
theorem denseOffset_eq (hn : n < s.N) (hc : c < s.C) (hh : h < s.H) :
    s.denseOffset n c h = s.rowNumber s.H n c h * (s.W * 2) ∧
      s.rowNumber s.H n c h * (s.W * 2) + s.W * 2 ≤ s.N * s.C * s.H * (s.W * 2) := by
  have hle : (s.rowNumber s.H n c h + 1) * (s.W * 2) ≤ s.N * s.C * s.H * (s.W * 2) :=
    Nat.mul_le_mul_right _ (rowNumber_lt hn hc hh)
  rw [Nat.add_mul, Nat.one_mul] at hle
  have hoffset : (n * (s.C * s.H * s.W) + c * (s.H * s.W) + h * s.W) * 2 = s.rowNumber s.H n c h * (s.W * 2) := by
    rw [rowNumber]
    ring
  have hlt := hs.dense_le.trans_lt hs.tiled_lt
  refine ⟨?_, hle⟩
  rw [denseOffset, hoffset, Nat.mod_eq_of_lt (by omega)]

/-- A row of the surface ends inside it. -/
theorem tiledOffset_eq (hn : n < s.N) (hc : c < s.C) (hh : h < s.newH) :
    s.tiledOffset n c h = s.rowNumber s.newH n c h * s.R ∧
      s.rowNumber s.newH n c h * s.R + s.R ≤ s.N * s.C * s.newH * s.R := by
  have hle : (s.rowNumber s.newH n c h + 1) * s.R ≤ s.N * s.C * s.newH * s.R :=
    Nat.mul_le_mul_right _ (rowNumber_lt hn hc hh)
  rw [Nat.add_mul, Nat.one_mul] at hle
  have hoffset : (n * (s.C * s.newH * s.newW) + c * (s.newH * s.newW) + h * s.newW) * 2 =
      s.rowNumber s.newH n c h * s.R := by
    rw [rowNumber, ← hs.newW_eq]
    ring
  have hlt := hs.tiled_lt
  refine ⟨?_, hle⟩
  rw [tiledOffset, hoffset, Nat.mod_eq_of_lt (by omega)]

theorem stride_eq : s.W * 2 % 2 ^ 64 = s.W * 2 := Nat.mod_eq_of_lt (hs.width_le.trans_lt hs.machine)

end Fits

/-- A round of the loops. -/
theorem mem_rows {row : ℕ × ℕ × ℕ} : row ∈ s.rows ↔ row.1 < s.N ∧ row.2.1 < s.C ∧ row.2.2 < s.H := by
  obtain ⟨n, c, h⟩ := row
  simp only [rows, List.mem_product, List.mem_range]

/-- The place of a byte of the surface in the dense array. -/
def densePlace (s : Surface) (i : ℕ) : ℕ :=
  (i / s.R / s.newH * s.H + i / s.R % s.newH) * (s.W * 2) + i % s.R

/-- A tiled place inside its row, made dense. -/
theorem densePlace_eq (hh : h < s.newH) {k : ℕ} (hk : k < s.R) :
    s.densePlace (s.rowNumber s.newH n c h * s.R + k) = s.rowNumber s.H n c h * (s.W * 2) + k := by
  have hR : 0 < s.R := by omega
  have hrow : (s.rowNumber s.newH n c h * s.R + k) / s.R = s.rowNumber s.newH n c h := by
    rw [Nat.mul_comm, Nat.mul_add_div hR, Nat.div_eq_of_lt hk, Nat.add_zero]
  have hplane : s.rowNumber s.newH n c h / s.newH = n * s.C + c := by
    rw [rowNumber, Nat.mul_comm, Nat.mul_add_div (by omega), Nat.div_eq_of_lt hh, Nat.add_zero]
  have hheight : s.rowNumber s.newH n c h % s.newH = h := by
    rw [rowNumber, Nat.mul_comm, Nat.mul_add_mod, Nat.mod_eq_of_lt hh]
  have hbyte : (s.rowNumber s.newH n c h * s.R + k) % s.R = k := by
    rw [Nat.mul_comm, Nat.mul_add_mod, Nat.mod_eq_of_lt hk]
  rw [densePlace, hrow, hplane, hheight, hbyte]
  rfl

variable [Zero α] {data buffer : Cells α}

/-- What is in a surface that an array was spread over. -/
structure Spread (s : Surface) (data buffer out : Cells α) : Prop where
  size : out.size = buffer.size
  row : ∀ n < s.N, ∀ c < s.C, ∀ h < s.H, ∀ k < s.W * 2,
    out.get (s.rowNumber s.newH n c h * s.R + k) = data.get (s.rowNumber s.H n c h * (s.W * 2) + k)
  gap : ∀ i < s.N * s.C * s.newH * s.R, (∀ n < s.N, ∀ c < s.C, ∀ h < s.H,
    ¬(s.rowNumber s.newH n c h * s.R ≤ i ∧ i < s.rowNumber s.newH n c h * s.R + s.W * 2)) → out.get i = 0
  behind : ∀ i, s.N * s.C * s.newH * s.R ≤ i → out.get i = buffer.get i

/-- Tiling spreads the dense data. -/
theorem tile_spread (hs : s.Fits) (hdata : s.N * s.C * s.H * (s.W * 2) ≤ data.size)
    (hbuffer : s.N * s.C * s.newH * s.R ≤ buffer.size) :
    ∃ out, s.tile data buffer = some out ∧ s.Spread data buffer out := by
  rw [tile, if_neg hs.pos.ne', hs.tiledBytes_eq]
  split
  case isTrue hsame =>
    have hwidth : s.W * 2 = s.R := by rw [← hsame.2, hs.newW_eq]
    rw [← hsame.1, hwidth] at hdata
    obtain ⟨out, hout, hsize, hfront, hbehind⟩ := memcpy_front hbuffer hdata
    refine ⟨out, hout, hsize, fun n hn c hc h hh k hk => ?_, fun i hi hgap => ?_, hbehind⟩
    · have hend := (hs.tiledOffset_eq hn hc (hh.trans_le hs.height)).2
      rw [hfront _ (by omega), hwidth, hsame.1]
    · -- the rows fill the surface
      have hrow : i / s.R < s.N * s.C * s.newH := Nat.div_lt_of_lt_mul (by rwa [Nat.mul_comm])
      obtain ⟨n, hn, c, hc, h, hh, hnumber⟩ := exists_rowNumber hrow
      refine absurd ⟨?_, ?_⟩ (hgap n hn c hc h (hsame.1 ▸ hh))
      · rw [hnumber]
        exact Nat.div_mul_le_self _ _
      · have hlt := Nat.lt_div_mul_add hs.pos (a := i)
        rw [hnumber, hwidth]
        exact hlt
  case isFalse =>
    obtain ⟨blank, hblank, hsize, hzero, hkept⟩ := memset_eq hbuffer
    have hdest : ∀ row ∈ s.rows, s.tiledOffset row.1 row.2.1 row.2.2 + s.W * 2 ≤ blank.size := by
      intro row hrow
      obtain ⟨hn, hc, hh⟩ := mem_rows.mp hrow
      obtain ⟨hoffset, hend⟩ := hs.tiledOffset_eq hn hc (hh.trans_le hs.height)
      have hwidth := hs.width_le
      rw [hoffset, hsize]
      omega
    have hstart : ∀ row ∈ s.rows, s.denseOffset row.1 row.2.1 row.2.2 + s.W * 2 ≤ data.size := by
      intro row hrow
      obtain ⟨hn, hc, hh⟩ := mem_rows.mp hrow
      obtain ⟨hoffset, hend⟩ := hs.denseOffset_eq hn hc hh
      rw [hoffset]
      omega
    obtain ⟨out, hout, hsize', hin, hother⟩ := @foldlM_memcpy α _ blank data s.rows _ _ _
      (fun i => data.get (s.densePlace i)) hdest hstart fun row hrow k hk => by
        obtain ⟨hn, hc, hh⟩ := mem_rows.mp hrow
        rw [(hs.tiledOffset_eq hn hc (hh.trans_le hs.height)).1, (hs.denseOffset_eq hn hc hh).1,
          densePlace_eq (hh.trans_le hs.height) (hk.trans_le hs.width_le)]
    rw [hblank, hs.stride_eq]
    refine ⟨out, hout, hsize'.trans hsize, fun n hn c hc h hh k hk => ?_, fun i hi hgap => ?_, fun i hi => ?_⟩
    · have hoffset := (hs.tiledOffset_eq hn hc (hh.trans_le hs.height)).1
      rw [hin _ ⟨(n, c, h), mem_rows.mpr ⟨hn, hc, hh⟩, by dsimp only; omega, by dsimp only; omega⟩,
        densePlace_eq (hh.trans_le hs.height) (hk.trans_le hs.width_le)]
    · rw [hother i fun row hrow => ?_, hzero i hi]
      obtain ⟨hn, hc, hh⟩ := mem_rows.mp hrow
      rw [(hs.tiledOffset_eq hn hc (hh.trans_le hs.height)).1]
      exact hgap _ hn _ hc _ hh
    · rw [hother i fun row hrow => ?_, hkept i hi]
      obtain ⟨hn, hc, hh⟩ := mem_rows.mp hrow
      obtain ⟨hoffset, hend⟩ := hs.tiledOffset_eq hn hc (hh.trans_le hs.height)
      have hwidth := hs.width_le
      rw [hoffset]
      omega

/-- Collecting the rows of a surface that an array was spread over gives back the array. -/
theorem untile_of_spread (hs : s.Fits) {tiled dense : Cells α} (hspread : s.Spread data buffer tiled)
    (hbuffer : s.N * s.C * s.newH * s.R ≤ buffer.size) (hdense : s.N * s.C * s.H * (s.W * 2) ≤ dense.size) :
    ∃ out, s.untile dense tiled = some out ∧ out.size = dense.size ∧
      ∀ i < s.N * s.C * s.H * (s.W * 2), out.get i = data.get i := by
  have hrows {i : ℕ} (hi : i < s.N * s.C * s.H * (s.W * 2)) :
      ∃ n < s.N, ∃ c < s.C, ∃ h < s.H, ∃ k < s.W * 2, s.rowNumber s.H n c h * (s.W * 2) + k = i := by
    have hwidth : 0 < s.W * 2 := Nat.pos_of_ne_zero fun hzero => by
      rw [hzero, Nat.mul_zero] at hi
      exact Nat.not_lt_zero _ hi
    have hrow : i / (s.W * 2) < s.N * s.C * s.H := Nat.div_lt_of_lt_mul (by rwa [Nat.mul_comm])
    obtain ⟨n, hn, c, hc, h, hh, hnumber⟩ := exists_rowNumber hrow
    exact ⟨n, hn, c, hc, h, hh, i % (s.W * 2), Nat.mod_lt _ hwidth, by rw [hnumber, Nat.div_add_mod']⟩
  rw [untile, if_neg hs.pos.ne', hs.denseBytes_eq]
  split
  case isTrue hsame =>
    have hwidth : s.W * 2 = s.R := by rw [← hsame.2, hs.newW_eq]
    have htiled : s.N * s.C * s.H * (s.W * 2) ≤ tiled.size := by rwa [hspread.size, hwidth, ← hsame.1]
    obtain ⟨out, hout, hsize, hfront, -⟩ := memcpy_front hdense htiled
    refine ⟨out, hout, hsize, fun i hi => ?_⟩
    obtain ⟨n, hn, c, hc, h, hh, k, hk, rfl⟩ := hrows hi
    have hrow := hspread.row n hn c hc h hh k hk
    rw [hsame.1, ← hwidth] at hrow
    rw [hfront _ hi, hrow]
  case isFalse =>
    obtain ⟨blank, hblank, hsize, -⟩ := memset_eq hdense
    have hdest : ∀ row ∈ s.rows, s.denseOffset row.1 row.2.1 row.2.2 + s.W * 2 ≤ blank.size := by
      intro row hrow
      obtain ⟨hn, hc, hh⟩ := mem_rows.mp hrow
      obtain ⟨hoffset, hend⟩ := hs.denseOffset_eq hn hc hh
      rw [hoffset, hsize]
      omega
    have hstart : ∀ row ∈ s.rows, s.tiledOffset row.1 row.2.1 row.2.2 + s.W * 2 ≤ tiled.size := by
      intro row hrow
      obtain ⟨hn, hc, hh⟩ := mem_rows.mp hrow
      obtain ⟨hoffset, hend⟩ := hs.tiledOffset_eq hn hc (hh.trans_le hs.height)
      have hwidth := hs.width_le
      rw [hoffset, hspread.size]
      omega
    obtain ⟨out, hout, hsize', hin, -⟩ := foldlM_memcpy hdest hstart
      fun row hrow k hk => by
        obtain ⟨hn, hc, hh⟩ := mem_rows.mp hrow
        rw [(hs.tiledOffset_eq hn hc (hh.trans_le hs.height)).1, (hs.denseOffset_eq hn hc hh).1]
        exact hspread.row _ hn _ hc _ hh k hk
    rw [hblank, hs.stride_eq]
    refine ⟨out, hout, hsize'.trans hsize, fun i hi => ?_⟩
    obtain ⟨n, hn, c, hc, h, hh, k, hk, rfl⟩ := hrows hi
    have hoffset := (hs.denseOffset_eq hn hc hh).1
    exact hin _ ⟨(n, c, h), mem_rows.mpr ⟨hn, hc, hh⟩, by dsimp only; omega, by dsimp only; omega⟩

/-- The view that `tensor_view` lays over the buffer of a surface. -/
def view (s : Surface) : Nchw := ⟨s.N, s.C, s.H, s.W, s.P, s.R⟩

/-- The place of an element in the dense array. -/
def denseIndex (s : Surface) (element : Element) : ℕ :=
  s.rowNumber s.H element.batch element.place.head element.place.row * s.W + element.place.col

/-- The address of an element. -/
theorem elementAddress_view (hs : s.Fits) (element : Element) : s.view.elementAddress element =
    s.rowNumber s.newH element.batch element.place.head element.place.row * s.R + 2 * element.place.col := by
  rw [Nchw.elementAddress, Nchw.address, rowNumber]
  change element.batch * (s.C * s.P) + (element.place.head * s.P + element.place.row * s.R + 2 * element.place.col) = _
  rw [← hs.newH_eq]
  ring

end Surface

open Surface in
/-- `ane_tile` spreads every array over every surface that fits it without leaving a buffer: it puts each element where
`tensor_view` looks for it and zeros everywhere else in the surface, and `ane_untile` collects the array again. -/
theorem untile_tile [Zero α] {s : Surface} (hs : s.Fits) {data buffer dense : Cells α}
    (hdata : s.N * s.C * s.H * s.W * 2 ≤ data.size) (hbuffer : s.N * s.C * s.P ≤ buffer.size)
    (hdense : s.N * s.C * s.H * s.W * 2 ≤ dense.size) :
    ∃ tiled back, s.tile data buffer = some tiled ∧ s.untile dense tiled = some back ∧
      (∀ i < s.N * s.C * s.H * s.W * 2, back.get i = data.get i) ∧
      (∀ element, s.view.Holds element → ∀ k < 2,
        tiled.get (s.view.elementAddress element + k) = data.get (2 * s.denseIndex element + k)) ∧
      ∀ i < s.N * s.C * s.P,
        (∀ element, s.view.Holds element → i < s.view.elementAddress element ∨ s.view.elementAddress element + 2 ≤ i) →
        tiled.get i = 0 := by
  have hdenseBytes : s.N * s.C * s.H * s.W * 2 = s.N * s.C * s.H * (s.W * 2) := Nat.mul_assoc ..
  have htiledBytes : s.N * s.C * s.P = s.N * s.C * s.newH * s.R := by
    rw [Nat.mul_assoc _ s.newH, hs.newH_eq]
  rw [hdenseBytes] at hdata hdense ⊢
  rw [htiledBytes] at hbuffer ⊢
  obtain ⟨tiled, htile, hspread⟩ := tile_spread hs hdata hbuffer
  obtain ⟨back, huntile, -, hback⟩ := untile_of_spread hs hspread hbuffer hdense
  refine ⟨tiled, back, htile, huntile, hback, ?_, fun i hi hgap => hspread.gap i hi fun n hn c hc h hh hrow => ?_⟩
  · rintro element ⟨hbatch, hhead, hrow, hcol⟩ k hk
    have hcol : element.place.col < s.W := hcol
    rw [elementAddress_view hs, Nat.add_assoc, hspread.row _ hbatch _ hhead _ hrow _ (by omega), denseIndex]
    exact congrArg _ (by ring)
  · -- the byte belongs to an element of its row
    have hkeep := hgap ⟨n, c, h, (i - s.rowNumber s.newH n c h * s.R) / 2⟩
      ⟨hn, hc, hh, (by omega : (i - s.rowNumber s.newH n c h * s.R) / 2 < s.W)⟩
    rw [elementAddress_view hs] at hkeep
    dsimp only at hkeep
    omega

/-- Rows of three values in a surface with rows of four and planes of three rows. -/
theorem untile_tile_padded : ∃ tiled back : Cells ℕ,
    Surface.tile ⟨1, 2, 2, 3, 24, 8⟩ ⟨24, fun i => i + 1⟩ ⟨48, fun _ => 9⟩ = some tiled ∧
      Surface.untile ⟨1, 2, 2, 3, 24, 8⟩ ⟨24, fun _ => 7⟩ tiled = some back ∧ ∀ i < 24, back.get i = i + 1 := by
  obtain ⟨tiled, back, htile, huntile, hback, -⟩ := @untile_tile ℕ _ ⟨1, 2, 2, 3, 24, 8⟩
    ⟨by decide, by decide, by decide, by decide, by decide, by decide, by decide⟩ ⟨24, fun i => i + 1⟩ ⟨48, fun _ => 9⟩
    ⟨24, fun _ => 7⟩ (by decide) (by decide) (by decide)
  exact ⟨tiled, back, htile, huntile, hback⟩

end AneLinux.Libane
