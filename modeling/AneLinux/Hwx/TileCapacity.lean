import AneLinux.Hwx.Header

/-!
# Tile counts between the encoder and its consumers

The encoder counts a surface in units of `0x200` bytes; both consumers multiply the count by
`0x4000`. A slot therefore decodes to the required bytes rounded up to a whole tile exactly
when one unit and one tile both cover it. Larger slots decode to more than they require.
-/

namespace AneLinux.Hwx

open AneLinux.Support AneLinux.Anec

/-- The required bytes rounded up to a whole tile. -/
def roundToTile (required : ℤ) : ℤ := (required + 0x3FFF) / 0x4000 * 0x4000

/-- Every surface slot and the workspace slot decode, for both consumers, to the required
bytes rounded up to a whole tile. -/
structure SlotsExact (header : Bytes) (outputs inputs : List ℤ) (workspace : ℤ) : Prop where
  stage : ∃ geometry, stageGeometry (decodeHeader header) = .ok geometry ∧
    geometry.outputSurfaces.map (fun slot => (slot.bytes : ℤ)) = outputs.map roundToTile ∧
    geometry.inputSurfaces.map (fun slot => (slot.bytes : ℤ)) = inputs.map roundToTile ∧
    (geometry.workspaceSize : ℤ) = roundToTile workspace
  libane :
    (List.range' 4 outputs.length).map (fun bdx => (tileSize header bdx : ℤ)) = outputs.map roundToTile ∧
    (List.range' (4 + outputs.length) inputs.length).map (fun bdx => (tileSize header bdx : ℤ)) =
      inputs.map roundToTile ∧
    (tileSize header 3 : ℤ) = roundToTile workspace

/-! ## Both consumers read the tile counts -/

/-- The capacity of a bank from its tile count. -/
def bankBytes (tiles : List ℕ) (bdx : ℕ) : ℕ := tiles.getD bdx 0 * tileBytes

/-- The banks of a middle part of the tile counts hold that part. -/
theorem map_bankBytes (front part back : List ℕ) :
    (List.range' front.length part.length).map (bankBytes (front ++ (part ++ back))) =
      part.map (· * tileBytes) := by
  apply List.ext_getElem
  · simp
  · intro i h1 h2
    have hi : i < part.length := by simpa using h2
    simp [bankBytes, List.getElem?_append_right, List.getElem?_append_left hi, hi]

theorem surface_of_lt {header : AnecHeader} {bdx : ℕ} (h : bdx < header.tiles.length) :
    surface header bdx =
      .ok { bdx, bytes := bankBytes header.tiles bdx, nchw := (header.nchw.drop (bdx * 6)).take 6 } := by
  simp [surface, index, bankBytes, List.getElem?_eq_getElem h, pure, Except.pure]

/-- A comprehension whose every element succeeds is the plain map. -/
theorem mapM_surface {header : AnecHeader} {banks : List ℕ} (h : ∀ bdx ∈ banks, bdx < header.tiles.length) :
    ∃ slots, banks.mapM (surface header) = .ok slots ∧
      slots.map Surface.bytes = banks.map (bankBytes header.tiles) := by
  induction banks with
  | nil => exact ⟨[], rfl, rfl⟩
  | cons bdx rest ih =>
    obtain ⟨slots, hslots, hbytes⟩ := ih fun b hb => h b (List.mem_cons_of_mem bdx hb)
    rw [List.mapM_cons, surface_of_lt (h bdx List.mem_cons_self), ok_bind, hslots, ok_bind]
    exact ⟨_, rfl, congrArg _ hbytes⟩

/-- libane's capacity is the same product: a 32-bit count shifted by 14 bits does not overflow. -/
theorem tileSize_eq (header : Bytes) {bdx : ℕ} (h : bdx < 32) :
    tileSize header bdx = bankBytes (decodeHeader header).tiles bdx := by
  have hlt := header.u32_lt (40 + 4 * bdx)
  have htile : (decodeHeader header).tiles.getD bdx 0 = header.u32 (40 + 4 * bdx) := by
    simp [decodeHeader, h]
  rw [tileSize, bankBytes, htile, Nat.shiftLeft_eq, tileBytes]
  omega

/-! ## Exact slots -/

/-- A surface slot is exact when one unit covers it, and it is not empty. -/
theorem surfaceTiles_exact_iff {required : ℤ} (h : 0 ≤ required) :
    (((surfaceTiles required).toNat * tileBytes : ℕ) : ℤ) = roundToTile required ↔
      1 ≤ required ∧ required ≤ 0x200 := by
  have hpos : 0 ≤ surfaceTiles required := by
    unfold surfaceTiles
    omega
  rw [Nat.cast_mul, Int.toNat_of_nonneg hpos]
  unfold surfaceTiles tileUnit roundToTile tileBytes
  push_cast
  omega

/-- The workspace slot is exact when one unit covers it. -/
theorem workspaceTiles_exact_iff (workspace : ℕ) :
    (((((workspace : ℤ) + tileUnit - 1) / tileUnit).toNat * tileBytes : ℕ) : ℤ) = roundToTile workspace ↔
      workspace ≤ 0x200 := by
  have hpos : 0 ≤ ((workspace : ℤ) + tileUnit - 1) / tileUnit := by
    unfold tileUnit
    omega
  rw [Nat.cast_mul, Int.toNat_of_nonneg hpos]
  unfold tileUnit roundToTile tileBytes
  push_cast
  omega

/-- What a port requires is not negative. -/
theorem portRequired_nonneg (sizes : List ℕ) (shape : Shape) (plane : ℤ) :
    ∀ required ∈ portRequired sizes shape plane, 0 ≤ required := by
  intro required hrequired
  obtain ⟨size, -, rfl⟩ := List.mem_map.mp hrequired
  exact le_max_of_le_left (Int.natCast_nonneg size)

theorem map_surfaceTiles_exact_iff {ports : List ℤ} (h : ∀ required ∈ ports, 0 ≤ required) :
    (((ports.map surfaceTiles).map Int.toNat).map (· * tileBytes)).map (fun bytes : ℕ => (bytes : ℤ)) =
      ports.map roundToTile ↔ ∀ required ∈ ports, 1 ≤ required ∧ required ≤ 0x200 := by
  simp only [List.map_map]
  rw [List.map_inj_left]
  exact forall₂_congr fun required hrequired => surfaceTiles_exact_iff (h required hrequired)

/-- The capacities of the output, input and workspace banks of the emitted tile counts. -/
theorem bankBytes_headerTiles (image : HWXImage) (outputs inputs : List ℤ) :
    (List.range' 4 outputs.length).map (bankBytes ((headerTiles image outputs inputs).map Int.toNat)) =
        ((outputs.map surfaceTiles).map Int.toNat).map (· * tileBytes) ∧
      (List.range' (4 + outputs.length) inputs.length).map
          (bankBytes ((headerTiles image outputs inputs).map Int.toNat)) =
        ((inputs.map surfaceTiles).map Int.toNat).map (· * tileBytes) ∧
      bankBytes ((headerTiles image outputs inputs).map Int.toNat) 3 =
        (((image.workspaceSize : ℤ) + tileUnit - 1) / tileUnit).toNat * tileBytes := by
  unfold headerTiles
  simp only [List.map_append]
  generalize hback : (List.replicate (28 - (outputs.length + inputs.length)) (0 : ℤ)).map Int.toNat = back
  generalize hfront : List.map Int.toNat [((image.contentSize : ℤ) + tileUnit - 1) / tileUnit, 0, 0,
    ((image.workspaceSize : ℤ) + tileUnit - 1) / tileUnit] = front
  have hlength : front.length = 4 := by
    rw [← hfront]
    rfl
  refine ⟨?_, ?_, ?_⟩
  · have hmap := map_bankBytes front ((outputs.map surfaceTiles).map Int.toNat)
      ((inputs.map surfaceTiles).map Int.toNat ++ back)
    simpa only [hlength, List.length_map, List.append_assoc] using hmap
  · have hmap := map_bankBytes (front ++ (outputs.map surfaceTiles).map Int.toNat)
      ((inputs.map surfaceTiles).map Int.toNat) back
    simpa only [hlength, List.length_append, List.length_map, List.append_assoc] using hmap
  · rw [bankBytes, ← hfront]
    simp only [List.map_cons, List.cons_append, List.getD_cons_succ, List.getD_cons_zero]

/-- The decoded tile counts of a built header, cut at the output and the input banks. -/
structure TileCounts (header : Bytes) (outputs inputs : List ℤ) (workspace : ℕ) : Prop where
  dstCount : (decodeHeader header).dstCount = outputs.length
  srcCount : (decodeHeader header).srcCount = inputs.length
  length : (decodeHeader header).tiles.length = 32
  fits : inputs.length + outputs.length ≤ 28
  outputBytes : (List.range' 4 outputs.length).map (bankBytes (decodeHeader header).tiles) =
    ((outputs.map surfaceTiles).map Int.toNat).map (· * tileBytes)
  inputBytes : (List.range' (4 + outputs.length) inputs.length).map (bankBytes (decodeHeader header).tiles) =
    ((inputs.map surfaceTiles).map Int.toNat).map (· * tileBytes)
  workspaceBytes : bankBytes (decodeHeader header).tiles 3 =
    (((workspace : ℤ) + tileUnit - 1) / tileUnit).toNat * tileBytes

/-- The tile counts of a built header are those of its ports. -/
theorem buildHeader_tileCounts {image : HWXImage} {inShape outShape : Shape} {tdSizeOverride : Option ℤ}
    {header : Bytes} {inPlane inRow outPlane outRow : ℤ}
    (hin : deriveStrides inShape image.tileDma.sourceTotal image.tileDma.sourceRun = .ok (inPlane, inRow))
    (hout : deriveStrides outShape image.tileDma.destTotal image.tileDma.destRun = .ok (outPlane, outRow))
    (h : buildHeader image inShape outShape tdSizeOverride = .ok header) :
    TileCounts header (portRequired (portSizes image.outputSections image.outputSize) outShape outPlane)
      (portRequired (portSizes image.inputSections image.inputSize) inShape inPlane) image.workspaceSize := by
  obtain ⟨inPlane', inRow', outPlane', outRow', hin', hout', hports, -, hdecode⟩ := buildHeader_eq_ok h
  obtain ⟨rfl, rfl⟩ := Prod.mk.inj (Except.ok.inj (hin.symm.trans hin'))
  obtain ⟨rfl, rfl⟩ := Prod.mk.inj (Except.ok.inj (hout.symm.trans hout'))
  have hlength (sections : List (ℕ × ℕ)) (size : ℕ) (shape : Shape) (plane : ℤ) :
      (portSections sections size).length = (portRequired (portSizes sections size) shape plane).length := by
    rw [portRequired, List.length_map, length_portSizes]
  rw [hlength _ _ inShape inPlane, hlength _ _ outShape outPlane] at hports
  obtain ⟨houtputs, hinputs, hworkspace⟩ := bankBytes_headerTiles image
    (portRequired (portSizes image.outputSections image.outputSize) outShape outPlane)
    (portRequired (portSizes image.inputSections image.inputSize) inShape inPlane)
  constructor
  · rw [hdecode, ← hlength]
  · rw [hdecode, ← hlength]
  · rw [hdecode]
    exact (List.length_map ..).trans (length_headerTiles image hports)
  · exact hports
  · rw [hdecode]
    exact houtputs
  · rw [hdecode]
    exact hinputs
  · rw [hdecode]
    exact hworkspace

/-- The stage geometry of a built header has the capacities of its tile counts. -/
theorem stageGeometry_bytes {header : Bytes} {outputs inputs : List ℤ} {workspace : ℕ}
    (h : TileCounts header outputs inputs workspace) :
    ∃ geometry, stageGeometry (decodeHeader header) = .ok geometry ∧
      geometry.outputSurfaces.map Surface.bytes =
        (List.range' 4 outputs.length).map (bankBytes (decodeHeader header).tiles) ∧
      geometry.inputSurfaces.map Surface.bytes =
        (List.range' (4 + outputs.length) inputs.length).map (bankBytes (decodeHeader header).tiles) ∧
      geometry.workspaceSize = bankBytes (decodeHeader header).tiles 3 := by
  have hfits := h.fits
  obtain ⟨outputSlots, houtputs, houtputBytes⟩ :=
    @mapM_surface (decodeHeader header) (List.range' 4 outputs.length) (by
      intro bdx hbdx
      rw [List.mem_range'_1] at hbdx
      rw [h.length]
      omega)
  obtain ⟨inputSlots, hinputs, hinputBytes⟩ :=
    @mapM_surface (decodeHeader header) (List.range' (4 + outputs.length) inputs.length) (by
      intro bdx hbdx
      rw [List.mem_range'_1] at hbdx
      rw [h.length]
      omega)
  have hworkspace : index (decodeHeader header).tiles 3 = .ok ((decodeHeader header).tiles.getD 3 0) := by
    have hlt : 3 < (decodeHeader header).tiles.length := by
      rw [h.length]
      omega
    simp [index, List.getElem?_eq_getElem hlt]
  rw [stageGeometry, h.dstCount, h.srcCount, houtputs, ok_bind, hinputs, ok_bind, hworkspace, ok_bind]
  exact ⟨_, rfl, houtputBytes, hinputBytes, rfl⟩

/-- Both consumers are exact exactly when the banks of the tile counts are. -/
theorem TileCounts.slotsExact_iff {header : Bytes} {outputs inputs : List ℤ} {workspace : ℕ}
    (h : TileCounts header outputs inputs workspace) : SlotsExact header outputs inputs workspace ↔
      (List.range' 4 outputs.length).map
          ((fun bytes : ℕ => (bytes : ℤ)) ∘ bankBytes (decodeHeader header).tiles) =
        outputs.map roundToTile ∧
      (List.range' (4 + outputs.length) inputs.length).map
          ((fun bytes : ℕ => (bytes : ℤ)) ∘ bankBytes (decodeHeader header).tiles) =
        inputs.map roundToTile ∧
      (bankBytes (decodeHeader header).tiles 3 : ℤ) = roundToTile workspace := by
  obtain ⟨geometry, hgeometry, houtputBytes, hinputBytes, hworkspaceBytes⟩ := stageGeometry_bytes h
  have hcast (slots : List Surface) : slots.map (fun slot => (slot.bytes : ℤ)) =
      (slots.map Surface.bytes).map (fun bytes : ℕ => (bytes : ℤ)) := by
    rw [List.map_map]
    rfl
  have hfits := h.fits
  have hlibane {banks : List ℕ} (hbanks : ∀ bdx ∈ banks, bdx < 32) :
      banks.map (fun bdx => (tileSize header bdx : ℤ)) =
        banks.map ((fun bytes : ℕ => (bytes : ℤ)) ∘ bankBytes (decodeHeader header).tiles) :=
    List.map_congr_left fun bdx hbdx => congrArg _ (tileSize_eq header (hbanks bdx hbdx))
  constructor
  · rintro ⟨⟨geometry', hgeometry', houtput, hinput, hwork⟩, -⟩
    obtain rfl := Except.ok.inj (hgeometry.symm.trans hgeometry')
    rw [hcast, houtputBytes, List.map_map] at houtput
    rw [hcast, hinputBytes, List.map_map] at hinput
    rw [hworkspaceBytes] at hwork
    exact ⟨houtput, hinput, hwork⟩
  · rintro ⟨houtput, hinput, hwork⟩
    refine ⟨⟨geometry, hgeometry, ?_, ?_, ?_⟩, ?_, ?_, ?_⟩
    · rw [hcast, houtputBytes, List.map_map, houtput]
    · rw [hcast, hinputBytes, List.map_map, hinput]
    · rw [hworkspaceBytes, hwork]
    · rw [hlibane, houtput]
      intro bdx hbdx
      rw [List.mem_range'_1] at hbdx
      omega
    · rw [hlibane, hinput]
      intro bdx hbdx
      rw [List.mem_range'_1] at hbdx
      omega
    · rw [tileSize_eq header (by omega), hwork]

/-- The slots of a built header are exact for both consumers exactly when every port requires
between one byte and one unit, and the workspace at most one unit. -/
theorem buildHeader_slotsExact_iff (image : HWXImage) (inShape outShape : Shape) (tdSizeOverride : Option ℤ)
    (header : Bytes) (inPlane inRow outPlane outRow : ℤ)
    (hin : deriveStrides inShape image.tileDma.sourceTotal image.tileDma.sourceRun = .ok (inPlane, inRow))
    (hout : deriveStrides outShape image.tileDma.destTotal image.tileDma.destRun = .ok (outPlane, outRow))
    (h : buildHeader image inShape outShape tdSizeOverride = .ok header) :
    SlotsExact header (portRequired (portSizes image.outputSections image.outputSize) outShape outPlane)
        (portRequired (portSizes image.inputSections image.inputSize) inShape inPlane) image.workspaceSize ↔
      (∀ required ∈ portRequired (portSizes image.outputSections image.outputSize) outShape outPlane,
        1 ≤ required ∧ required ≤ 0x200) ∧
      (∀ required ∈ portRequired (portSizes image.inputSections image.inputSize) inShape inPlane,
        1 ≤ required ∧ required ≤ 0x200) ∧
      image.workspaceSize ≤ 0x200 := by
  have hcounts := buildHeader_tileCounts hin hout h
  have houtputs := map_surfaceTiles_exact_iff (portRequired_nonneg
    (portSizes image.outputSections image.outputSize) outShape outPlane)
  have hinputs := map_surfaceTiles_exact_iff (portRequired_nonneg
    (portSizes image.inputSections image.inputSize) inShape inPlane)
  have hworkspace := workspaceTiles_exact_iff image.workspaceSize
  rw [← hcounts.outputBytes, List.map_map] at houtputs
  rw [← hcounts.inputBytes, List.map_map] at hinputs
  rw [← hcounts.workspaceBytes] at hworkspace
  rw [← houtputs, ← hinputs, ← hworkspace]
  exact hcounts.slotsExact_iff

/-- An image with one input and one output of the given size, whose task states no strides. -/
def portImage (size : ℕ) : HWXImage where
  sections := []
  contentOffset := 0x300
  contentSize := 0x110
  taskStreamSize := 0x100
  tdOffset := 0
  tdCount := 1
  tdSize := 0x100
  kernelOffset := 0x100
  kernelSize := 0x10
  workspaceSize := 0
  inputSize := size
  outputSize := size
  inputSections := [(0, size)]
  outputSections := [(0x4000, size)]
  kdma := ⟨[], [], []⟩
  tileDma := ⟨0, 0, 0, 0⟩
  kernelIsBlob := false
  kernelGap := 0
  kernelPart1 := 0x10
  kernelExtraOff := 0

theorem buildHeader_slotsExact_iff_portImage : ∃ header,
    buildHeader (portImage 0x40) ⟨1, 1, 1, 1⟩ ⟨1, 1, 1, 1⟩ none = .ok header ∧
      SlotsExact header [0x40] [0x40] 0 := by
  obtain ⟨header, hheader⟩ : ∃ header,
      buildHeader (portImage 0x40) ⟨1, 1, 1, 1⟩ ⟨1, 1, 1, 1⟩ none = .ok header :=
    exists_ok_of_toBool (by decide +kernel)
  exact ⟨header, hheader, (buildHeader_slotsExact_iff _ _ _ none header 0x40 0x40 0x40 0x40 (by decide)
    (by decide) hheader).mpr (by decide)⟩

/-- A surface of exactly one tile is counted as 32 units, which decode to 32 tiles. -/
theorem buildHeader_slots_inexact : ∃ header,
    buildHeader (portImage 0x4000) ⟨1, 1, 1, 1⟩ ⟨1, 1, 1, 1⟩ none = .ok header ∧
      ¬ SlotsExact header [0x4000] [0x4000] 0 := by
  obtain ⟨header, hheader⟩ : ∃ header,
      buildHeader (portImage 0x4000) ⟨1, 1, 1, 1⟩ ⟨1, 1, 1, 1⟩ none = .ok header :=
    exists_ok_of_toBool (by decide +kernel)
  refine ⟨header, hheader, fun hexact => ?_⟩
  have hcounts : TileCounts header [0x4000] [0x4000] 0 :=
    @buildHeader_tileCounts _ _ _ none header 0x40 0x40 0x40 0x40 (by decide) (by decide) hheader
  have hcount : bankBytes (decodeHeader header).tiles 4 = 32 * 0x4000 := List.head_eq_of_cons_eq hcounts.outputBytes
  have hdecoded : (tileSize header 4 : ℤ) = 0x4000 := List.head_eq_of_cons_eq hexact.libane.1
  rw [tileSize_eq header (by omega), hcount] at hdecoded
  exact absurd hdecoded (by decide)

end AneLinux.Hwx
