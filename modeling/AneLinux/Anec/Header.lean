import AneLinux.Support.StructCodec

/-!
# The ANEC header and its consumers

An ANEC artifact opens with a fixed little-endian structure: content and task geometry, 32
tile counts, and 32 rows of six shape words. The Python submitters decode it into buffer
roles with a tile of `0x4000` bytes; libane reads the same structure in place and shifts a
tile count by 14 bits.
-/

namespace AneLinux.Anec

open AneLinux.Support

/-- The fields of the header structure. -/
@[ext] structure AnecHeader where
  contentSize : ℕ
  tdSize : ℕ
  tdCount : ℕ
  taskStreamSize : ℕ
  kernelSize : ℕ
  srcCount : ℕ
  dstCount : ℕ
  tiles : List ℕ
  nchw : List ℕ
deriving DecidableEq, Repr

/-- The size of the structure `<QIIQQII32I192Q`. -/
def anecHeaderSize : ℕ := 0x6A8

/-- The file offset of the content. -/
def contentStart : ℕ := 0x1000

/-- The bytes of one tile. -/
def tileBytes : ℕ := 0x4000

/-- The widths of the fields of `<QIIQQII32I192Q`. -/
def headerWidths : List ℕ := [8, 4, 4, 8, 8, 4, 4] ++ List.replicate 32 4 ++ List.replicate 192 8

/-- The structure at the start of a byte string. -/
def decodeHeader (d : Bytes) : AnecHeader where
  contentSize := d.u64 0
  tdSize := d.u32 8
  tdCount := d.u32 12
  taskStreamSize := d.u64 16
  kernelSize := d.u64 24
  srcCount := d.u32 32
  dstCount := d.u32 36
  tiles := (List.range 32).map fun i => d.u32 (40 + 4 * i)
  nchw := (List.range 192).map fun i => d.u64 (168 + 8 * i)

/-- Read the header of an artifact. -/
def loadAnecHeader (file : Bytes) : Py AnecHeader :=
  if (file.slice 0 anecHeaderSize).size ≠ anecHeaderSize then
    raiseValue "ANEC header is truncated"
  else
    .ok (decodeHeader (file.slice 0 anecHeaderSize))

/-- One surface of a program: its bank, its capacity and its shape words. -/
structure Surface where
  bdx : ℕ
  bytes : ℕ
  nchw : List ℕ
deriving DecidableEq, Repr

/-- The buffer roles of one program. -/
structure Geometry where
  contentSize : ℕ
  tdSize : ℕ
  tdCount : ℕ
  taskStreamSize : ℕ
  kernelSize : ℕ
  srcCount : ℕ
  dstCount : ℕ
  tiles : List ℕ
  workspaceSize : ℕ
  inputSurfaces : List Surface
  outputSurfaces : List Surface
  inputBytes : ℕ
  outputBytes : ℕ
deriving DecidableEq, Repr

/-- The surface of one bank. -/
def surface (header : AnecHeader) (bdx : ℕ) : Py Surface := do
  let count ← index header.tiles bdx
  return { bdx, bytes := count * tileBytes, nchw := (header.nchw.drop (bdx * 6)).take 6 }

/-- Decode the buffer roles: outputs from bank 4, inputs after them, the workspace in bank 3. -/
def stageGeometry (header : AnecHeader) : Py Geometry := do
  let outputSurfaces ← (List.range' 4 header.dstCount).mapM (surface header)
  let inputSurfaces ← (List.range' (4 + header.dstCount) header.srcCount).mapM (surface header)
  let workspace ← index header.tiles 3
  return {
    contentSize := header.contentSize
    tdSize := header.tdSize
    tdCount := header.tdCount
    taskStreamSize := header.taskStreamSize
    kernelSize := header.kernelSize
    srcCount := header.srcCount
    dstCount := header.dstCount
    tiles := header.tiles
    workspaceSize := workspace * tileBytes
    inputSurfaces
    outputSurfaces
    inputBytes := (inputSurfaces.map Surface.bytes).sum
    outputBytes := (outputSurfaces.map Surface.bytes).sum }

/-- libane's `tile_size`: the tile count of a bank shifted left by 14 bits, in 64 bits. -/
def tileSize (header : Bytes) (bdx : ℕ) : ℕ := header.u32 (40 + 4 * bdx) <<< 14 % 2 ^ 64

theorem sum_headerWidths : headerWidths.sum = anecHeaderSize := by
  rw [headerWidths, List.sum_append, List.sum_append, List.sum_replicate, List.sum_replicate]
  rfl

/-- The structure read at its offsets is the sequence of its words. -/
theorem unpack_headerWidths (d : Bytes) : unpack d 0 headerWidths =
    [(decodeHeader d).contentSize, (decodeHeader d).tdSize, (decodeHeader d).tdCount,
      (decodeHeader d).taskStreamSize, (decodeHeader d).kernelSize, (decodeHeader d).srcCount,
      (decodeHeader d).dstCount] ++ (decodeHeader d).tiles ++ (decodeHeader d).nchw := by
  rw [headerWidths, unpack_append, unpack_append, unpack_replicate, unpack_replicate]
  rfl

/-- A header packed field by field decodes to its fields. -/
theorem decodeHeader_pack {contentSize tdSize tdCount taskStreamSize kernelSize srcCount dstCount : ℤ}
    {tiles nchw : List ℤ} {d : Bytes} (htiles : tiles.length = 32) (hnchw : nchw.length = 192)
    (h : pack ([(8, contentSize), (4, tdSize), (4, tdCount), (8, taskStreamSize), (8, kernelSize),
      (4, srcCount), (4, dstCount)] ++ tiles.map (fun count => (4, count)) ++
      nchw.map fun value => (8, value)) = .ok d) :
    d.size = anecHeaderSize ∧ decodeHeader d = {
      contentSize := contentSize.toNat
      tdSize := tdSize.toNat
      tdCount := tdCount.toNat
      taskStreamSize := taskStreamSize.toNat
      kernelSize := kernelSize.toNat
      srcCount := srcCount.toNat
      dstCount := dstCount.toNat
      tiles := tiles.map Int.toNat
      nchw := nchw.map Int.toNat } := by
  obtain ⟨hsize, hwords, -⟩ := pack_eq_ok h
  have hconst (values : List ℤ) (width : ℕ) :
      (values.map fun value => (width, value)).map Prod.fst = List.replicate values.length width := by
    rw [List.map_map]
    exact List.map_const' ..
  have hvalues (values : List ℤ) (width : ℕ) :
      (values.map fun value => (width, value)).map (fun field => field.2.toNat) = values.map Int.toNat := by
    rw [List.map_map]
    rfl
  rw [List.map_append, List.map_append, hconst, hconst, htiles, hnchw] at hsize hwords
  rw [List.map_append, List.map_append, hvalues, hvalues] at hwords
  simp only [List.map_cons, List.map_nil] at hsize hwords
  rw [← headerWidths] at hsize hwords
  rw [unpack_headerWidths] at hwords
  have hlength : ([(decodeHeader d).contentSize, (decodeHeader d).tdSize, (decodeHeader d).tdCount,
      (decodeHeader d).taskStreamSize, (decodeHeader d).kernelSize, (decodeHeader d).srcCount,
      (decodeHeader d).dstCount] ++ (decodeHeader d).tiles).length = 7 + 32 := by
    simp [decodeHeader]
  have hlength' : ([contentSize.toNat, tdSize.toNat, tdCount.toNat, taskStreamSize.toNat,
      kernelSize.toNat, srcCount.toNat, dstCount.toNat] ++ tiles.map Int.toNat).length = 7 + 32 := by
    simp [htiles]
  obtain ⟨hfront, hback⟩ := List.append_inj hwords (hlength.trans hlength'.symm)
  obtain ⟨hfields, hcounts⟩ := List.append_inj hfront (by simp only [List.length_cons])
  refine ⟨hsize.trans sum_headerWidths, ?_⟩
  simp only [List.cons.injEq, and_true] at hfields
  obtain ⟨h1, h2, h3, h4, h5, h6, h7⟩ := hfields
  exact AnecHeader.ext h1 h2 h3 h4 h5 h6 h7 hcounts hback

/-- A header depends only on its own bytes. -/
theorem decodeHeader_congr {d e : Bytes} (h : ∀ p < 0x6A8, d.get p = e.get p) : decodeHeader d = decodeHeader e := by
  have hword {offset width : ℕ} (hend : offset + width ≤ 0x6A8) : d.leNat offset width = e.leNat offset width :=
    Bytes.leNat_congr fun k hk => h _ (by omega)
  apply AnecHeader.ext
  · exact @hword 0 8 (by omega)
  · exact @hword 8 4 (by omega)
  · exact @hword 12 4 (by omega)
  · exact @hword 16 8 (by omega)
  · exact @hword 24 8 (by omega)
  · exact @hword 32 4 (by omega)
  · exact @hword 36 4 (by omega)
  · simp only [decodeHeader, Bytes.u32]
    refine List.map_congr_left fun i hi => hword ?_
    have := List.mem_range.mp hi
    omega
  · simp only [decodeHeader, Bytes.u64]
    refine List.map_congr_left fun i hi => hword ?_
    have := List.mem_range.mp hi
    omega

/-- The header of an artifact is decoded from its own bytes, whatever follows. -/
theorem decodeHeader_append {header : Bytes} (hsize : header.size = anecHeaderSize) (rest : Bytes) :
    decodeHeader (header ++ rest) = decodeHeader header :=
  decodeHeader_congr fun _ hp => Bytes.get_append_left _ _ (by rw [hsize]; exact hp)

/-- A header that was loaded is the one at the start of the file. -/
theorem loadAnecHeader_eq_ok {file : Bytes} {header : AnecHeader} (h : loadAnecHeader file = .ok header) :
    anecHeaderSize ≤ file.size ∧ header = decodeHeader file := by
  rw [loadAnecHeader] at h
  split at h
  · cases h
  · rename_i hsize
    rw [Bytes.size_slice] at hsize
    refine ⟨by omega, ?_⟩
    rw [← Except.ok.inj h]
    refine decodeHeader_congr fun _ hp => ?_
    rw [Bytes.get_slice_of_lt _ (by rw [Nat.zero_add]; exact hp), Nat.zero_add]

end AneLinux.Anec
