import AneLinux.Hwx.Image
import AneLinux.Anec.Header

/-!
# Building the ANEC header

The converter derives the plane and row strides of both surfaces from the byte counts the
task states, falls back to the padded-plane convention where the task is silent, and packs
the header. Tile counts are emitted in units of `0x200` bytes.
-/

namespace AneLinux.Hwx

open AneLinux.Support AneLinux.Anec

/-- A tensor shape. -/
structure Shape where
  n : ℤ
  channels : ℤ
  height : ℤ
  width : ℤ
deriving DecidableEq, Repr

/-- The unit of the emitted tile counts. -/
def tileUnit : ℤ := 0x200

/-- The padded-plane convention: rows of whole 64-byte lines. -/
def shapeStrides (height width : ℤ) : Py (ℤ × ℤ) :=
  if height < 1 ∨ width < 1 then
    raiseValue "tensor dimensions must be positive"
  else
    let rowStride := max 0x40 (width * 2 + 0x3F - (width * 2 + 0x3F) % 0x40)
    return (height * rowStride, rowStride)

/-- The plane and row strides of one surface, from the task's byte counts. -/
def deriveStrides (shape : Shape) (total run : ℤ) : Py (ℤ × ℤ) := do
  let planes := shape.n * shape.channels
  let fallback ← shapeStrides shape.height shape.width
  if total ≤ 0 ∨ run ≤ 0 ∨ planes ≤ 0 ∨ shape.height ≤ 0 ∨ total % run ≠ 0 then
    return fallback
  else
    let rows := total / run
    let plane? : Option ℤ :=
      if rows = planes then some run
      else if rows = 1 ∧ total % planes = 0 then some (total / planes)
      else none
    match plane? with
    | none => return fallback
    | some plane =>
      if plane % shape.height ≠ 0 ∨ plane < shape.width * 2 then return fallback
      else return (plane, plane / shape.height)

/-- The port sections of a surface list; an image without any has one port of its whole size. -/
def portSections (sections : List (ℕ × ℕ)) (size : ℕ) : List (ℕ × ℕ) :=
  if sections.isEmpty then [(0, size)] else sections

/-- The declared size of every port; a single port is widened to the span of the image. -/
def portSizes (sections : List (ℕ × ℕ)) (size : ℕ) : List ℕ :=
  match (portSections sections size).map Prod.snd with
  | [only] => [max only size]
  | sizes => sizes

/-- The bytes each port requires: its declared size or the bytes of the shape. -/
def portRequired (sizes : List ℕ) (shape : Shape) (plane : ℤ) : List ℤ :=
  sizes.map fun size : ℕ => max (size : ℤ) (shape.n * shape.channels * plane)

/-- The tile count of a surface that requires the given bytes. -/
def surfaceTiles (required : ℤ) : ℤ := max 1 ((required + tileUnit - 1) / tileUnit)

/-- The six shape words of a bank. -/
def shapeWords (shape : Shape) (plane row : ℤ) : List ℤ :=
  [shape.n, shape.channels, shape.height, shape.width, plane, row]

/-- The 32 tile counts: command, two free banks, workspace, outputs, inputs, free banks. -/
def headerTiles (image : HWXImage) (outputs inputs : List ℤ) : List ℤ :=
  [(image.contentSize + tileUnit - 1) / tileUnit, 0, 0, (image.workspaceSize + tileUnit - 1) / tileUnit] ++
    outputs.map surfaceTiles ++ inputs.map surfaceTiles ++
    List.replicate (28 - (outputs.length + inputs.length)) 0

/-- The shape words of the 32 banks, in the order of the tile counts. -/
def headerShapes (outputCount inputCount : ℕ) (outputWords inputWords : List ℤ) : List ℤ :=
  List.replicate 24 0 ++ (List.replicate outputCount outputWords).flatten ++
    (List.replicate inputCount inputWords).flatten ++
    List.replicate ((28 - (outputCount + inputCount)) * 6) 0

/-- Build the header for one converted container. -/
def buildHeader (image : HWXImage) (inShape outShape : Shape) (tdSizeOverride : Option ℤ) : Py Bytes := do
  let (inPlane, inRow) ← deriveStrides inShape image.tileDma.sourceTotal image.tileDma.sourceRun
  let (outPlane, outRow) ← deriveStrides outShape image.tileDma.destTotal image.tileDma.destRun
  let inputSections := portSections image.inputSections image.inputSize
  let outputSections := portSections image.outputSections image.outputSize
  if 28 < inputSections.length + outputSections.length then
    raiseValue "ANEC supports at most 28 input and output ports"
  else
    let outputs := portRequired (portSizes image.outputSections image.outputSize) outShape outPlane
    let inputs := portRequired (portSizes image.inputSections image.inputSize) inShape inPlane
    pack ([(8, (image.contentSize : ℤ)), (4, tdSizeOverride.getD (min image.tdSize 0x1F8)),
      (4, image.tdCount), (8, image.taskStreamSize), (8, image.kernelSize), (4, inputSections.length),
      (4, outputSections.length)] ++ (headerTiles image outputs inputs).map (fun count => (4, count)) ++
      (headerShapes outputSections.length inputSections.length (shapeWords outShape outPlane outRow)
        (shapeWords inShape inPlane inRow)).map fun value => (8, value))

/-- Widening a single port keeps the number of ports. -/
theorem length_portSizes (sections : List (ℕ × ℕ)) (size : ℕ) :
    (portSizes sections size).length = (portSections sections size).length := by
  unfold portSizes
  split
  · rename_i only honly
    have hlength := congrArg List.length honly
    rw [List.length_map] at hlength
    exact hlength.symm
  · exact List.length_map ..

theorem length_headerTiles (image : HWXImage) {outputs inputs : List ℤ}
    (h : inputs.length + outputs.length ≤ 28) : (headerTiles image outputs inputs).length = 32 := by
  simp only [headerTiles, List.length_append, List.length_map, List.length_replicate, List.length_cons,
    List.length_nil]
  omega

theorem length_headerShapes {outputCount inputCount : ℕ} (outShape inShape : Shape)
    (outPlane outRow inPlane inRow : ℤ) (h : inputCount + outputCount ≤ 28) :
    (headerShapes outputCount inputCount (shapeWords outShape outPlane outRow)
      (shapeWords inShape inPlane inRow)).length = 192 := by
  simp only [headerShapes, shapeWords, List.length_append, List.length_flatten, List.map_replicate,
    List.sum_replicate_nat, List.length_replicate, List.length_cons, List.length_nil]
  omega

/-- A built header has the fixed size, and decodes to the image's fields, the tile counts and
the shape words. -/
theorem buildHeader_eq_ok {image : HWXImage} {inShape outShape : Shape} {tdSizeOverride : Option ℤ}
    {header : Bytes} (h : buildHeader image inShape outShape tdSizeOverride = .ok header) :
    ∃ inPlane inRow outPlane outRow,
      deriveStrides inShape image.tileDma.sourceTotal image.tileDma.sourceRun = .ok (inPlane, inRow) ∧
      deriveStrides outShape image.tileDma.destTotal image.tileDma.destRun = .ok (outPlane, outRow) ∧
      (portSections image.inputSections image.inputSize).length +
        (portSections image.outputSections image.outputSize).length ≤ 28 ∧
      header.size = anecHeaderSize ∧ decodeHeader header = {
        contentSize := image.contentSize
        tdSize := (tdSizeOverride.getD (min image.tdSize 0x1F8)).toNat
        tdCount := image.tdCount
        taskStreamSize := image.taskStreamSize
        kernelSize := image.kernelSize
        srcCount := (portSections image.inputSections image.inputSize).length
        dstCount := (portSections image.outputSections image.outputSize).length
        tiles := (headerTiles image
          (portRequired (portSizes image.outputSections image.outputSize) outShape outPlane)
          (portRequired (portSizes image.inputSections image.inputSize) inShape inPlane)).map Int.toNat
        nchw := (headerShapes (portSections image.outputSections image.outputSize).length
          (portSections image.inputSections image.inputSize).length (shapeWords outShape outPlane outRow)
          (shapeWords inShape inPlane inRow)).map Int.toNat } := by
  obtain ⟨⟨inPlane, inRow⟩, hin, h⟩ := bind_eq_ok.mp h
  obtain ⟨⟨outPlane, outRow⟩, hout, h⟩ := bind_eq_ok.mp h
  dsimp only at h
  split_ifs at h with hports
  · exact absurd h (raiseValue_ne_ok _ _)
  have hports' := Nat.le_of_not_lt hports
  have htiles := @length_headerTiles image
    (portRequired (portSizes image.outputSections image.outputSize) outShape outPlane)
    (portRequired (portSizes image.inputSections image.inputSize) inShape inPlane)
    (by simpa only [portRequired, List.length_map, length_portSizes] using hports')
  have hshapes := length_headerShapes outShape inShape outPlane outRow inPlane inRow hports'
  obtain ⟨hsize, hdecode⟩ := decodeHeader_pack htiles hshapes h
  exact ⟨inPlane, inRow, outPlane, outRow, hin, hout, hports', hsize, hdecode⟩

/-- A built header, padded, ends where the content starts. -/
theorem buildHeader_padded {image : HWXImage} {inShape outShape : Shape} {tdSizeOverride : Option ℤ}
    {header : Bytes} (h : buildHeader image inShape outShape tdSizeOverride = .ok header) :
    (header ++ Bytes.zeros (contentStart - header.size)).size = contentStart := by
  obtain ⟨_, _, _, _, -, -, -, hsize, -⟩ := buildHeader_eq_ok h
  rw [Bytes.size_append, Bytes.size_zeros, hsize]
  rfl

end AneLinux.Hwx
