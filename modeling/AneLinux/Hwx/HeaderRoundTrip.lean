import AneLinux.Hwx.TileCapacity

/-!
# The header round trip

The encoder writes the tile counts and the shape words of 32 banks as two flat arrays: command,
workspace, then the outputs from bank 4 and the inputs behind them. The submitters read a bank back
by its number. For every number of ports the surfaces come back in section order with their shapes
and strides, and the banks of no role are empty.
-/

namespace AneLinux.Hwx

open AneLinux.Support AneLinux.Anec

/-- Every value of the header fits the width it is packed in. -/
structure HeaderInRange (image : HWXImage) (outputs inputs outputWords inputWords : List ℤ) : Prop where
  contentSize : image.contentSize < 2 ^ 64
  tdCount : image.tdCount < 2 ^ 32
  taskStreamSize : image.taskStreamSize < 2 ^ 64
  kernelSize : image.kernelSize < 2 ^ 64
  command : (image.contentSize + tileUnit - 1) / tileUnit < 2 ^ 32
  workspace : (image.workspaceSize + tileUnit - 1) / tileUnit < 2 ^ 32
  ports : ∀ required ∈ outputs ++ inputs, surfaceTiles required < 2 ^ 32
  words : ∀ word ∈ outputWords ++ inputWords, 0 ≤ word ∧ word < 2 ^ 64

/-- What the consumers read back: the fields of the image, one bank for every port in section order,
the shape words of both surfaces, and nothing in the other banks. -/
structure ReadsBackImage (image : HWXImage) (outputs inputs outputWords inputWords : List ℤ)
    (geometry : Geometry) : Prop where
  contentSize : geometry.contentSize = image.contentSize
  tdCount : geometry.tdCount = image.tdCount
  taskStreamSize : geometry.taskStreamSize = image.taskStreamSize
  kernelSize : geometry.kernelSize = image.kernelSize
  srcCount : geometry.srcCount = image.inputSections.length
  dstCount : geometry.dstCount = image.outputSections.length
  outputBanks : geometry.outputSurfaces.map Surface.bdx = List.range' 4 image.outputSections.length
  inputBanks : geometry.inputSurfaces.map Surface.bdx =
    List.range' (4 + image.outputSections.length) image.inputSections.length
  outputBytes : geometry.outputSurfaces.map Surface.bytes =
    outputs.map fun required => (surfaceTiles required).toNat * tileBytes
  inputBytes : geometry.inputSurfaces.map Surface.bytes =
    inputs.map fun required => (surfaceTiles required).toNat * tileBytes
  outputShapes : ∀ slot ∈ geometry.outputSurfaces, slot.nchw.map (fun word : ℕ => (word : ℤ)) = outputWords
  inputShapes : ∀ slot ∈ geometry.inputSurfaces, slot.nchw.map (fun word : ℕ => (word : ℤ)) = inputWords
  tiles : geometry.tiles.length = 32
  free : ∀ slot, slot ≠ 0 → slot ≠ 3 →
    slot < 4 ∨ 4 + image.outputSections.length + image.inputSections.length ≤ slot →
    geometry.tiles.getD slot 0 = 0

/-! ## Packing values that fit -/

/-- Fields that fit their widths are packed. -/
theorem exists_pack {fields : List (ℕ × ℤ)} (h : ∀ field ∈ fields, 0 ≤ field.2 ∧ field.2 < 256 ^ field.1) :
    ∃ d, pack fields = .ok d := by
  induction fields with
  | nil => exact ⟨_, rfl⟩
  | cons field rest ih =>
    obtain ⟨tail, htail⟩ := ih fun other hother => h other (List.mem_cons_of_mem field hother)
    have hfield : packField field.1 field.2 = .ok (.ofNat field.1 field.2.toNat) :=
      if_pos (h field List.mem_cons_self)
    rw [pack, hfield, ok_bind, htail]
    exact ⟨_, rfl⟩

theorem portSections_of_pos {sections : List (ℕ × ℕ)} (h : 1 ≤ sections.length) (size : ℕ) :
    portSections sections size = sections := by
  cases sections with
  | nil => exact absurd h (by decide)
  | cons section' rest => rfl

variable {outputWords inputWords : List ℤ}

section Build

variable {image : HWXImage} {inShape outShape : Shape} {inPlane inRow outPlane outRow : ℤ}

/-- The tile counts of an image in range fit 32 bits. -/
theorem headerTiles_in_range {outputs inputs : List ℤ} (h : HeaderInRange image outputs inputs outputWords inputWords) :
    ∀ count ∈ headerTiles image outputs inputs, 0 ≤ count ∧ count < 2 ^ 32 := by
  have hpos (required : ℤ) : 0 ≤ surfaceTiles required := le_max_of_le_left (by decide)
  have hcommand := h.command
  have hworkspace := h.workspace
  unfold tileUnit at hcommand hworkspace
  intro count hcount
  simp only [headerTiles, List.mem_append, List.mem_cons, List.not_mem_nil, or_false, List.mem_map,
    List.mem_replicate, tileUnit] at hcount
  rcases hcount with (((hcount | hcount | hcount | hcount) | ⟨required, hmem, hcount⟩) |
    ⟨required, hmem, hcount⟩) | ⟨-, hcount⟩
  · omega
  · omega
  · omega
  · omega
  · exact hcount ▸ ⟨hpos required, h.ports required (List.mem_append_left _ hmem)⟩
  · exact hcount ▸ ⟨hpos required, h.ports required (List.mem_append_right _ hmem)⟩
  · omega

/-- The shape words of an image in range fit 64 bits. -/
theorem headerShapes_in_range {outputCount inputCount : ℕ}
    (h : ∀ word ∈ outputWords ++ inputWords, 0 ≤ word ∧ word < 2 ^ 64) :
    ∀ word ∈ headerShapes outputCount inputCount outputWords inputWords, 0 ≤ word ∧ word < 2 ^ 64 := by
  intro word hword
  simp only [headerShapes, List.mem_append, List.mem_flatten, List.mem_replicate] at hword
  rcases hword with ((⟨-, rfl⟩ | ⟨row, ⟨-, rfl⟩, hmem⟩) | ⟨row, ⟨-, rfl⟩, hmem⟩) | ⟨-, rfl⟩
  · exact ⟨le_refl _, by decide⟩
  · exact h word (List.mem_append_left _ hmem)
  · exact h word (List.mem_append_right _ hmem)
  · exact ⟨le_refl _, by decide⟩

/-- The header of an image in range is built. -/
theorem exists_buildHeader (hinputs : 1 ≤ image.inputSections.length) (houtputs : 1 ≤ image.outputSections.length)
    (hports : image.inputSections.length + image.outputSections.length ≤ 28)
    (hin : deriveStrides inShape image.tileDma.sourceTotal image.tileDma.sourceRun = .ok (inPlane, inRow))
    (hout : deriveStrides outShape image.tileDma.destTotal image.tileDma.destRun = .ok (outPlane, outRow))
    (hrange : HeaderInRange image
      (portRequired (portSizes image.outputSections image.outputSize) outShape outPlane)
      (portRequired (portSizes image.inputSections image.inputSize) inShape inPlane)
      (shapeWords outShape outPlane outRow) (shapeWords inShape inPlane inRow)) :
    ∃ header, buildHeader image inShape outShape none = .ok header := by
  have hcontent := hrange.contentSize
  have hcount := hrange.tdCount
  have hstream := hrange.taskStreamSize
  have hkernel := hrange.kernelSize
  rw [buildHeader, hin, ok_bind]
  dsimp only
  rw [hout, ok_bind]
  dsimp only
  rw [portSections_of_pos hinputs, portSections_of_pos houtputs, if_neg (by omega)]
  apply exists_pack
  intro field hfield
  rcases List.mem_append.mp hfield with hfield | hfield
  · rcases List.mem_append.mp hfield with hfield | hfield
    · simp only [List.mem_cons, List.not_mem_nil, or_false] at hfield
      rcases hfield with rfl | rfl | rfl | rfl | rfl | rfl | rfl
      all_goals
        dsimp only [Option.getD_none]
        omega
    · obtain ⟨count, hmem, rfl⟩ := List.mem_map.mp hfield
      exact headerTiles_in_range hrange count hmem
  · obtain ⟨word, hmem, rfl⟩ := List.mem_map.mp hfield
    exact headerShapes_in_range hrange.words word hmem

end Build

/-! ## Reading the banks back -/

/-- Rows of one length are found at their multiples. -/
theorem take_drop_flatten {α : Type} {rows : List (List α)} {k i : ℕ} (h : ∀ row ∈ rows, row.length = k)
    {row : List α} (hrow : rows[i]? = some row) : (rows.flatten.drop (i * k)).take k = row := by
  induction rows generalizing i with
  | nil => cases hrow
  | cons head rest ih =>
    have hhead : head.length = k := h head List.mem_cons_self
    rw [List.flatten_cons]
    cases i with
    | zero =>
      obtain rfl := Option.some.inj hrow
      rw [Nat.zero_mul, List.drop_zero, ← hhead, List.take_left']
      rfl
    | succ i =>
      have hplace : (i + 1) * k = head.length + i * k := by rw [hhead]; ring
      rw [hplace, List.drop_append, List.drop_of_length_le (by omega), List.nil_append, Nat.add_sub_cancel_left]
      exact ih (fun other hother => h other (List.mem_cons_of_mem head hother)) hrow

/-- The rows of the shape words, one for every bank. -/
def shapeRows (outputCount inputCount : ℕ) (outputWords inputWords : List ℤ) : List (List ℤ) :=
  List.replicate 4 (List.replicate 6 0) ++ List.replicate outputCount outputWords ++
    List.replicate inputCount inputWords ++
    List.replicate (28 - (outputCount + inputCount)) (List.replicate 6 0)

theorem headerShapes_eq_flatten (outputCount inputCount : ℕ) (outputWords inputWords : List ℤ) :
    headerShapes outputCount inputCount outputWords inputWords =
      (shapeRows outputCount inputCount outputWords inputWords).flatten := by
  have hzeros (n : ℕ) : (List.replicate n (List.replicate 6 (0 : ℤ))).flatten = List.replicate (n * 6) 0 := by
    rw [List.flatten_replicate_replicate]
  rw [headerShapes, shapeRows, List.flatten_append, List.flatten_append, List.flatten_append, hzeros, hzeros]

section Banks

variable {outputCount inputCount bdx : ℕ}

theorem length_of_mem_shapeRows (houtput : outputWords.length = 6) (hinput : inputWords.length = 6) :
    ∀ row ∈ shapeRows outputCount inputCount outputWords inputWords, row.length = 6 := by
  intro row hrow
  simp only [shapeRows, List.mem_append, List.mem_replicate] at hrow
  rcases hrow with ((⟨-, rfl⟩ | ⟨-, rfl⟩) | ⟨-, rfl⟩) | ⟨-, rfl⟩
  · rfl
  · exact houtput
  · exact hinput
  · rfl

/-- The bank of an output holds the output's shape words. -/
theorem shapeRows_output (hlo : 4 ≤ bdx) (hhi : bdx < 4 + outputCount) :
    (shapeRows outputCount inputCount outputWords inputWords)[bdx]? = some outputWords := by
  have hfour : (List.replicate 4 (List.replicate 6 (0 : ℤ))).length = 4 := rfl
  rw [shapeRows, List.append_assoc, List.append_assoc, List.getElem?_append_right (by rw [hfour]; exact hlo), hfour,
    List.getElem?_append_left (by rw [List.length_replicate]; omega), List.getElem?_replicate, if_pos (by omega)]

/-- The bank of an input holds the input's shape words. -/
theorem shapeRows_input (hlo : 4 + outputCount ≤ bdx) (hhi : bdx < 4 + outputCount + inputCount) :
    (shapeRows outputCount inputCount outputWords inputWords)[bdx]? = some inputWords := by
  have hfront : (List.replicate 4 (List.replicate 6 (0 : ℤ)) ++ List.replicate outputCount outputWords).length =
      4 + outputCount := by
    rw [List.length_append, List.length_replicate, List.length_replicate]
  rw [shapeRows, List.append_assoc, List.getElem?_append_right (by rw [hfront]; exact hlo), hfront,
    List.getElem?_append_left (by rw [List.length_replicate]; omega), List.getElem?_replicate, if_pos (by omega)]

/-- The six words of a bank, as the consumers cut them. -/
theorem bankWords_eq {words : List ℤ} (houtput : outputWords.length = 6) (hinput : inputWords.length = 6)
    (hrow : (shapeRows outputCount inputCount outputWords inputWords)[bdx]? = some words)
    (hwords : ∀ word ∈ words, 0 ≤ word) :
    ((((headerShapes outputCount inputCount outputWords inputWords).map Int.toNat).drop (bdx * 6)).take 6).map
      (fun word : ℕ => (word : ℤ)) = words := by
  rw [← List.map_drop, ← List.map_take, headerShapes_eq_flatten,
    take_drop_flatten (length_of_mem_shapeRows houtput hinput) hrow, List.map_map]
  conv_rhs => rw [← List.map_id words]
  exact List.map_congr_left fun word hword => Int.toNat_of_nonneg (hwords word hword)

end Banks

/-- A bank without a role has no tiles. -/
theorem headerTiles_free {image : HWXImage} {outputs inputs : List ℤ} {slot : ℕ} (hzero : slot ≠ 0)
    (hthree : slot ≠ 3) (hfree : slot < 4 ∨ 4 + outputs.length + inputs.length ≤ slot) :
    ((headerTiles image outputs inputs).map Int.toNat).getD slot 0 = 0 := by
  have hmap := List.getD_map (f := Int.toNat) (l := headerTiles image outputs inputs) (n := slot) (d := 0)
  rw [Int.toNat_zero] at hmap
  rw [hmap, headerTiles]
  rcases hfree with hslot | hslot
  · obtain rfl | rfl : slot = 1 ∨ slot = 2 := by omega
    · rfl
    · rfl
  · rw [List.getD_append_right _ _ _ _ (by simp; omega)]
    exact congrArg Int.toNat (List.getElem?_getD_replicate_default_eq ..)

/-- The surfaces of consecutive banks. -/
theorem mapM_surface_eq {header : AnecHeader} {banks : List ℕ} {slots : List Surface}
    (h : banks.mapM (surface header) = .ok slots) :
    slots.map Surface.bdx = banks ∧
      ∀ slot ∈ slots, slot.bdx ∈ banks ∧ slot.nchw = (header.nchw.drop (slot.bdx * 6)).take 6 := by
  have hbody {bdx : ℕ} {slot : Surface} (hslot : surface header bdx = .ok slot) :
      slot.bdx = bdx ∧ slot.nchw = (header.nchw.drop (bdx * 6)).take 6 := by
    obtain ⟨count, -, hslot⟩ := bind_eq_ok.mp hslot
    rw [← Except.ok.inj hslot]
    exact ⟨rfl, rfl⟩
  induction banks generalizing slots with
  | nil =>
    cases h
    exact ⟨rfl, by simp⟩
  | cons bdx rest ih =>
    rw [List.mapM_cons] at h
    obtain ⟨slot, hslot, h⟩ := bind_eq_ok.mp h
    obtain ⟨others, hothers, h⟩ := bind_eq_ok.mp h
    obtain rfl := Except.ok.inj h
    obtain ⟨hbanks, hwords⟩ := ih hothers
    obtain ⟨rfl, hnchw⟩ := hbody hslot
    refine ⟨congrArg _ hbanks, fun other hother => ?_⟩
    rcases List.mem_cons.mp hother with rfl | hother
    · exact ⟨List.mem_cons_self, hnchw⟩
    · exact ⟨List.mem_cons_of_mem _ (hwords other hother).1, (hwords other hother).2⟩

/-- The header of an image with 1 to 28 ports and values in range is built, and whatever follows it,
the consumers read back the image, its surfaces in section order and empty banks elsewhere. -/
theorem buildHeader_roundTrips (image : HWXImage) (inShape outShape : Shape)
    (inPlane inRow outPlane outRow : ℤ) (hinputs : 1 ≤ image.inputSections.length)
    (houtputs : 1 ≤ image.outputSections.length)
    (hports : image.inputSections.length + image.outputSections.length ≤ 28)
    (hin : deriveStrides inShape image.tileDma.sourceTotal image.tileDma.sourceRun = .ok (inPlane, inRow))
    (hout : deriveStrides outShape image.tileDma.destTotal image.tileDma.destRun = .ok (outPlane, outRow))
    (hrange : HeaderInRange image
      (portRequired (portSizes image.outputSections image.outputSize) outShape outPlane)
      (portRequired (portSizes image.inputSections image.inputSize) inShape inPlane)
      (shapeWords outShape outPlane outRow) (shapeWords inShape inPlane inRow)) :
    ∃ header, buildHeader image inShape outShape none = .ok header ∧ ∀ rest : Bytes,
      ∃ geometry, (loadAnecHeader (header ++ rest) >>= stageGeometry) = .ok geometry ∧
        ReadsBackImage image (portRequired (portSizes image.outputSections image.outputSize) outShape outPlane)
          (portRequired (portSizes image.inputSections image.inputSize) inShape inPlane)
          (shapeWords outShape outPlane outRow) (shapeWords inShape inPlane inRow) geometry := by
  obtain ⟨header, hheader⟩ := exists_buildHeader hinputs houtputs hports hin hout hrange
  refine ⟨header, hheader, fun rest => ?_⟩
  have hcounts := buildHeader_tileCounts hin hout hheader
  obtain ⟨inPlane', inRow', outPlane', outRow', hin', hout', -, hsize, hdecode⟩ := buildHeader_eq_ok hheader
  obtain ⟨rfl, rfl⟩ := Prod.mk.inj (Except.ok.inj (hin.symm.trans hin'))
  obtain ⟨rfl, rfl⟩ := Prod.mk.inj (Except.ok.inj (hout.symm.trans hout'))
  have hload : loadAnecHeader (header ++ rest) = .ok (decodeHeader header) := by
    have hfront : (header ++ rest).slice 0 anecHeaderSize = header := by
      rw [← hsize]
      exact Bytes.slice_append_left header rest
    rw [loadAnecHeader, hfront, if_neg (not_not.mpr hsize)]
  obtain ⟨geometry, hgeometry, houtputBytes, hinputBytes, -⟩ := stageGeometry_bytes hcounts
  refine ⟨geometry, by rw [hload]; exact hgeometry, ?_⟩
  rw [portSections_of_pos hinputs, portSections_of_pos houtputs] at hdecode
  have hlength (sections : List (ℕ × ℕ)) (size : ℕ) (shape : Shape) (plane : ℤ) (hpos : 1 ≤ sections.length) :
      (portRequired (portSizes sections size) shape plane).length = sections.length := by
    rw [portRequired, List.length_map, length_portSizes, portSections_of_pos hpos]
  have hout6 : (shapeWords outShape outPlane outRow).length = 6 := rfl
  have hin6 : (shapeWords inShape inPlane inRow).length = 6 := rfl
  have hunits (ports : List ℤ) : ((ports.map surfaceTiles).map Int.toNat).map (· * tileBytes) =
      ports.map fun required => (surfaceTiles required).toNat * tileBytes := by
    rw [List.map_map, List.map_map]
    rfl
  have hnchw : (decodeHeader header).nchw = (headerShapes image.outputSections.length image.inputSections.length
      (shapeWords outShape outPlane outRow) (shapeWords inShape inPlane inRow)).map Int.toNat := by rw [hdecode]
  have hdst : (decodeHeader header).dstCount = image.outputSections.length := by rw [hdecode]
  have hsrc : (decodeHeader header).srcCount = image.inputSections.length := by rw [hdecode]
  have hstage := hgeometry
  rw [stageGeometry] at hstage
  obtain ⟨outputSlots, houtputSlots, hstage⟩ := bind_eq_ok.mp hstage
  obtain ⟨inputSlots, hinputSlots, hstage⟩ := bind_eq_ok.mp hstage
  obtain ⟨workspace, -, hstage⟩ := bind_eq_ok.mp hstage
  obtain rfl := Except.ok.inj hstage
  rw [hdst] at houtputSlots hinputSlots
  rw [hsrc] at hinputSlots
  obtain ⟨houtputBanks, houtputWords⟩ := mapM_surface_eq houtputSlots
  obtain ⟨hinputBanks, hinputWords⟩ := mapM_surface_eq hinputSlots
  constructor
  · rw [hdecode]
  · rw [hdecode]
  · rw [hdecode]
  · rw [hdecode]
  · exact hsrc
  · exact hdst
  · exact houtputBanks
  · exact hinputBanks
  · exact houtputBytes.trans (hcounts.outputBytes.trans (hunits _))
  · exact hinputBytes.trans (hcounts.inputBytes.trans (hunits _))
  · intro slot hslot
    obtain ⟨hbank, hwords⟩ := houtputWords slot hslot
    rw [List.mem_range'_1] at hbank
    rw [hwords, hnchw]
    exact bankWords_eq hout6 hin6 (shapeRows_output hbank.1 hbank.2)
      fun word hword => (hrange.words word (List.mem_append_left _ hword)).1
  · intro slot hslot
    obtain ⟨hbank, hwords⟩ := hinputWords slot hslot
    rw [List.mem_range'_1] at hbank
    rw [hwords, hnchw]
    exact bankWords_eq hout6 hin6 (shapeRows_input hbank.1 hbank.2)
      fun word hword => (hrange.words word (List.mem_append_right _ hword)).1
  · exact hcounts.length
  · intro slot hzero hthree hfree
    rw [hdecode]
    refine headerTiles_free hzero hthree ?_
    rw [hlength _ _ _ _ houtputs, hlength _ _ _ _ hinputs]
    exact hfree

/-- Two inputs and one output of 16 bytes. -/
theorem buildHeader_roundTrips_twoInputs : ∃ header,
    buildHeader { portImage 0x40 with inputSections := [(0, 0x40), (0x40, 0x40)] } ⟨1, 1, 1, 1⟩ ⟨1, 1, 1, 1⟩ none =
      .ok header ∧ ∀ rest : Bytes, ∃ geometry, (loadAnecHeader (header ++ rest) >>= stageGeometry) = .ok geometry ∧
        geometry.srcCount = 2 ∧ geometry.inputSurfaces.map Surface.bdx = [5, 6] := by
  obtain ⟨header, hheader, hread⟩ := buildHeader_roundTrips
    { portImage 0x40 with inputSections := [(0, 0x40), (0x40, 0x40)] } ⟨1, 1, 1, 1⟩ ⟨1, 1, 1, 1⟩ 0x40 0x40 0x40 0x40
    (by decide) (by decide) (by decide) (by decide) (by decide)
    ⟨by decide, by decide, by decide, by decide, by decide, by decide, by decide, by decide⟩
  refine ⟨header, hheader, fun rest => ?_⟩
  obtain ⟨geometry, hgeometry, himage⟩ := hread rest
  exact ⟨geometry, hgeometry, himage.srcCount, himage.inputBanks⟩

end AneLinux.Hwx
