import AneLinux.Runtime.Projection

/-!
# The tied head

`TiedHead.logits` multiplies the embedding by a vector in the same tiles of 256 columns as the projection, and adds them
in the same order. It copies all the 512 rows that the engine returns for a band, and the last band of a vocabulary that
is no multiple of 512 has no room for them.
-/

namespace AneLinux.Runtime

open AneLinux.Support

variable {R M : Type}

/-- `TiedHead`: the embedding with its identity, the product of a tile and the addition. -/
structure TiedHead (R M : Type) where
  embedding : Array2 R
  mid : ℕ
  gemm : TileKey → Array2 R → List R → Method (Device R M) (List R)
  adder : List R → List R → Py (List R)

section Code

variable [CommSemiring R]

/-- `result[row0 : row0 + 512] = acc[:512]`, in a result of the given length. -/
def assignBand (result : ℕ → R) (length row0 : ℕ) (acc : List R) : Py (ℕ → R) :=
  let part := acc.take 512
  let room := min 512 (length - row0)
  if part.length = room then .ok (setRange result row0 room fun i => part.getD i 0)
  else if part.length = 1 then .ok (setRange result row0 room fun _ => part.getD 0 0)
  else raiseValue s!"could not broadcast input array from shape ({part.length},) into shape ({room},)"

namespace TiedHead

/-- One round of the loop over the columns. -/
def addTile (head : TiedHead R M) (hidden : List R) (row0 : ℕ) (acc : Option (List R)) (col0 : ℕ) :
    Method (Device R M) (Option (List R)) := do
  let x ← Method.lift (tileActivation hidden col0 (min 256 (head.embedding.cols - col0)) 256)
  let part ← head.gemm ⟨head.mid, 256, row0, col0⟩ head.embedding x
  match acc with
  | none => return some part
  | some acc => do
    let sum ← Method.lift (head.adder acc part)
    return some sum

/-- One round of the loop over the rows. -/
def addBand (head : TiedHead R M) (hidden : List R) (result : ℕ → R) (row0 : ℕ) : Method (Device R M) (ℕ → R) := do
  let acc ← (range 0 head.embedding.cols 256).foldlM (head.addTile hidden row0) none
  match acc with
  | none => Method.raise (.typeError "'NoneType' object is not subscriptable")
  | some acc => Method.lift (assignBand result head.embedding.rows row0 acc)

/-- `TiedHead.logits`; `memory` is what fresh memory holds. -/
def logits (head : TiedHead R M) (hidden : List R) (memory : ℕ → R) : Method (Device R M) (List R) := do
  let result ← (range 0 head.embedding.rows 512).foldlM (head.addBand hidden) memory
  return (List.range head.embedding.rows).map result

end TiedHead

variable [HalfMemory R M] [DecidableEq M]

/-- `build_tied_head`: persistent tile programs unless the environment turns them off, and the engine's addition. -/
def buildTiedHead (host : Host M) (persistent : Bool) (descriptor : List M) (mid : ℕ) (embedding : Array2 R)
    (memory : ℕ → R) : TiedHead R M where
  embedding
  mid
  gemm key matrix x :=
    if persistent then Device.tileGemm host key matrix x descriptor 256
    else
      let rows := min 512 (matrix.rows - key.row0)
      let cols := min 256 (matrix.cols - key.col0)
      let tile : Array2 R :=
        ⟨512, 256, fun i j => if i < rows ∧ j < cols then matrix.entry (key.row0 + i) (key.col0 + j) else 0⟩
      Device.gemm host tile x descriptor
  adder left right := TensorOperations.add (halfVector left) (halfVector right) memory fun _ => none

/-- A band of 512 values fits the result exactly if it has 512 rows left. -/
theorem assignBand_eq (result : ℕ → R) (length row0 : ℕ) {acc : List R} (hacc : acc.length = 512) :
    (row0 + 512 ≤ length →
      assignBand result length row0 acc =
        .ok (setRange result row0 (min 512 (length - row0)) fun i => acc.getD i 0)) ∧
      (¬ row0 + 512 ≤ length → ∃ e, assignBand result length row0 acc = .error e) := by
  have htake : acc.take 512 = acc := List.take_of_length_le hacc.le
  constructor
  · intro hroom
    rw [assignBand, htake, hacc, if_pos (by omega)]
  · intro hshort
    rw [assignBand, htake, hacc, if_neg (by omega), if_neg (by decide)]
    exact ⟨_, rfl⟩

end Code

section Logits

variable [CommSemiring R] [DecidableEq R] {host : Host (Cell R)} {width : List (Cell R) → ℕ}
  {model : QwenModel (Cell R)} {heap : ℕ → Array2 R} {mid row0 : ℕ} {hidden : List R}
  {fail : Device R (Cell R) → Prop}

/-- The tied head over the device and the narrow descriptor of a model. -/
def QwenModel.tiedHead (host : Host (Cell R)) (model : QwenModel (Cell R)) (mid : ℕ) (embedding : Array2 R)
    (memory : ℕ → R) : TiedHead R (Cell R) :=
  buildTiedHead host model.persistent model.descriptor mid embedding memory

/-- One round of the loop over the columns adds the terms of one tile. -/
theorem TiedHead.addTile_returns (hexact : ExactEngine host width) (hmodel : model.Provides width)
    (hrow0 : row0 ≤ (heap mid).rows) (hlength : hidden.length = (heap mid).cols) (memory : ℕ → R)
    {passed rest : List ℕ} {col0 : ℕ} (hpassed : passed ++ col0 :: rest = range 0 (heap mid).cols 256) :
    Method.Triple (Device.Ready model.descriptorFor heap)
      ((model.tiedHead host mid (heap mid) memory).addTile hidden row0
        (bandAfter (heap mid) hidden row0 256 passed) col0)
      (fun acc s => acc = bandAfter (heap mid) hidden row0 256 (passed ++ [col0]) ∧
        Device.Ready model.descriptorFor heap s) fail := by
  obtain ⟨-, hlt⟩ := range_element (by decide) hpassed
  obtain ⟨x, hslice, hx, hvalues⟩ := tileActivation_ok hlength hlt.le
  have hproduct : Method.Triple (Device.Ready model.descriptorFor heap)
      ((model.tiedHead host mid (heap mid) memory).gemm ⟨mid, 256, row0, col0⟩ (heap mid) x)
      (fun part s => part = tileRows (heap mid) x 256 row0 col0 ∧ Device.Ready model.descriptorFor heap s) fail := by
    unfold QwenModel.tiedHead buildTiedHead
    dsimp only
    split
    · exact tileGemm_returns hexact hmodel (.inl rfl) hrow0 hlt.le hx
    · exact gemm_returns hexact hmodel hrow0 hlt.le hx
  change Method.Triple _ (Method.lift (tileActivation hidden col0 (min 256 ((heap mid).cols - col0)) 256) >>= _) _ _
  rw [hslice]
  refine Method.Triple.lift_ok_bind ?_
  refine Method.Triple.bind_value hproduct fun part hpart => ?_
  rw [hpart]
  exact accumulate_returns memory (by decide) hpassed hvalues

/-- One round of the loop over the rows writes the products of a full band, and raises at the others. -/
theorem TiedHead.addBand_returns (hexact : ExactEngine host width) (hmodel : model.Provides width)
    (hrow0 : row0 ≤ (heap mid).rows) (hcols : 0 < (heap mid).cols) (hlength : hidden.length = (heap mid).cols)
    (memory result : ℕ → R) :
    Method.Triple (Device.Ready model.descriptorFor heap)
      ((model.tiedHead host mid (heap mid) memory).addBand hidden result row0)
      (fun result' s => (row0 + 512 ≤ (heap mid).rows ∧
        result' = setRange result row0 (min 512 ((heap mid).rows - row0)) fun i =>
          (bandRows (heap mid) hidden row0 (256 * (range 0 (heap mid).cols 256).length)).getD i 0) ∧
        Device.Ready model.descriptorFor heap s)
      (fun _ => ¬ row0 + 512 ≤ (heap mid).rows) := by
  have hrange : range 0 (heap mid).cols 256 ≠ [] := by
    intro hnil
    have hmem := (@mem_range 0 (heap mid).cols 256 0 (by omega)).mpr ⟨0, rfl, hcols⟩
    rw [hnil] at hmem
    cases hmem
  refine Method.Triple.bind_value (Method.Triple.foldlM
    (fun passed acc => acc = bandAfter (heap mid) hidden row0 256 passed) _
      (fun passed col0 rest acc hpassed hacc => ?_) rfl) fun acc hacc => ?_
  · subst hacc
    exact TiedHead.addTile_returns hexact hmodel hrow0 hlength memory hpassed
  · change acc = bandAfter (heap mid) hidden row0 256 (range 0 (heap mid).cols 256) at hacc
    rw [bandAfter, if_neg hrange] at hacc
    subst hacc
    have hband : (bandRows (heap mid) hidden row0 (256 * (range 0 (heap mid).cols 256).length)).length = 512 := by
      simp [bandRows]
    generalize bandRows (heap mid) hidden row0 (256 * (range 0 (heap mid).cols 256).length) = band at hband ⊢
    obtain ⟨hfull, hragged⟩ := assignBand_eq result (heap mid).rows row0 hband
    change Method.Triple _ (Method.lift (assignBand result (heap mid).rows row0 band)) _ _
    by_cases hroom : row0 + 512 ≤ (heap mid).rows
    · rw [hfull hroom]
      exact fun s hs => ⟨⟨hroom, rfl⟩, hs⟩
    · obtain ⟨e, herror⟩ := hragged hroom
      rw [herror]
      exact fun s hs => hroom

/-- A full vocabulary: every band has room, and the logits are the product. -/
theorem TiedHead.logits_of_dvd (hexact : ExactEngine host width) (hmodel : model.Provides width)
    (hcols : 0 < (heap mid).cols) (hlength : hidden.length = (heap mid).cols) (memory : ℕ → R)
    (hrows : 512 ∣ (heap mid).rows) :
    Method.Triple (Device.Ready model.descriptorFor heap)
      ((model.tiedHead host mid (heap mid) memory).logits hidden memory)
      (fun result _ => result = mulVec (heap mid) hidden) fail := by
  have hcover : (heap mid).cols ≤ 256 * (range 0 (heap mid).cols 256).length := by
    rw [range, List.length_map, List.length_range, Nat.sub_zero]
    omega
  have hbands : Method.Triple (Device.Ready model.descriptorFor heap)
      ((range 0 (heap mid).rows 512).foldlM ((model.tiedHead host mid (heap mid) memory).addBand hidden) memory)
      (fun result s => Written (heap mid) hidden (range 0 (heap mid).rows 512) result ∧
        Device.Ready model.descriptorFor heap s) fail := by
    refine Method.Triple.foldlM (Written (heap mid) hidden) _ (fun passed row0 rest result hpassed hresult => ?_)
      fun row0 hrow0 => by cases hrow0
    obtain ⟨hrow0, hlt⟩ := range_element (by decide) hpassed
    have hroom : row0 + 512 ≤ (heap mid).rows := by omega
    refine (TiedHead.addBand_returns hexact hmodel hlt.le hcols hlength memory result).conseq (fun _ hs => hs)
      (fun result' s hs => ⟨?_, hs.2⟩) fun s hragged => absurd hroom hragged
    rw [hs.1.2]
    exact hresult.setRange hcover
  refine Method.Triple.bind hbands fun result => Method.Triple.pure fun s hs => List.map_congr_left fun i hi => ?_
  have hi : i < (heap mid).rows := List.mem_range.mp hi
  have hband : 512 * (i / 512) ∈ range 0 (heap mid).rows 512 :=
    (mem_range (by decide)).mpr ⟨i / 512, by omega, by omega⟩
  exact hs.1 _ hband i (by omega) (by omega) hi

/-- A ragged vocabulary: the last band raises. -/
theorem TiedHead.logits_of_not_dvd (hexact : ExactEngine host width) (hmodel : model.Provides width)
    (hcols : 0 < (heap mid).cols) (hlength : hidden.length = (heap mid).cols) (memory : ℕ → R)
    (hrows : ¬ 512 ∣ (heap mid).rows) :
    Method.Triple (Device.Ready model.descriptorFor heap)
      ((model.tiedHead host mid (heap mid) memory).logits hidden memory) (fun _ _ => False) fun _ => True := by
  have hbands : Method.Triple (Device.Ready model.descriptorFor heap)
      ((range 0 (heap mid).rows 512).foldlM ((model.tiedHead host mid (heap mid) memory).addBand hidden) memory)
      (fun _ s => (∀ row0 ∈ range 0 (heap mid).rows 512, row0 + 512 ≤ (heap mid).rows) ∧
        Device.Ready model.descriptorFor heap s) fun _ => True := by
    refine Method.Triple.foldlM (fun passed _ => ∀ row0 ∈ passed, row0 + 512 ≤ (heap mid).rows) _
      (fun passed row0 rest result hpassed hresult => ?_) fun row0 hrow0 => by cases hrow0
    have hlt := (range_element (by decide) hpassed).2
    refine (TiedHead.addBand_returns hexact hmodel hlt.le hcols hlength memory result).conseq (fun _ hs => hs)
      (fun result' s hs => ⟨fun other hother => ?_, hs.2⟩) fun _ _ => trivial
    rcases List.mem_append.mp hother with hold | hnew
    · exact hresult other hold
    · rw [List.mem_singleton.mp hnew]
      exact hs.1.1
  refine Method.Triple.bind hbands fun result s hs => ?_
  have hlast : 512 * ((heap mid).rows / 512) ∈ range 0 (heap mid).rows 512 :=
    (mem_range (by decide)).mpr ⟨(heap mid).rows / 512, by omega, by omega⟩
  have hroom := hs.1 _ hlast
  omega

/-- The projection returns the product whatever the vocabulary. -/
theorem projection_returns_only (hexact : ExactEngine host width) (hmodel : model.Provides width)
    (hruntime : model.tensorRuntime = true) (hcols : 0 < (heap mid).cols) (hlength : hidden.length = (heap mid).cols)
    (memory : ℕ → R) :
    Method.Triple (Device.Ready model.descriptorFor heap)
      (model.projection host mid (heap mid) hidden (some 256) memory)
      (fun result _ => result = mulVec (heap mid) hidden) fail :=
  (projection_returns hexact hmodel hruntime hcols hlength (.inr (.inl rfl)) memory).conseq (fun _ hs => hs)
    (fun _ _ hs => hs.1) fun _ hs => hs

/-- On every device that the same calls have left behind, the tied head returns what the projection returns exactly if
the vocabulary is a multiple of 512. -/
theorem tiedHead_eq_projection_iff (hexact : ExactEngine host width) (hmodel : model.Provides width)
    (hruntime : model.tensorRuntime = true) (qid : Option ℕ) (history : List (Call R (Cell R)))
    (hhistory : ∀ call ∈ history, call.Consistent model.descriptorFor heap) (mid : ℕ) (hcols : 0 < (heap mid).cols)
    (hidden : List R) (hlength : hidden.length = (heap mid).cols) (memory : ℕ → R) :
    ((model.tiedHead host mid (heap mid) memory).logits hidden memory
        (afterCalls host (Device.fresh qid) history)).2 =
      (model.projection host mid (heap mid) hidden (some 256) memory
        (afterCalls host (Device.fresh qid) history)).2 ↔ 512 ∣ (heap mid).rows := by
  have hready := afterCalls_ready host hhistory (Device.ready_fresh model.descriptorFor heap qid)
  rw [(projection_returns_only hexact hmodel hruntime hcols hlength memory).outcome hready]
  by_cases hrows : 512 ∣ (heap mid).rows
  · refine iff_of_true ?_ hrows
    exact (TiedHead.logits_of_dvd hexact hmodel hcols hlength memory hrows).outcome hready
  · refine iff_of_false ?_ hrows
    obtain ⟨e, herror⟩ := (TiedHead.logits_of_not_dvd hexact hmodel hcols hlength memory hrows).raises hready
    rw [herror]
    exact fun h => by cases h

end Logits

section Vocabulary

/-- Embeddings of two columns. -/
def vocabulary (tokens : ℕ) : ℕ → Array2 ℕ := fun _ => ⟨tokens, 2, fun _ col => col + 1⟩

/-- A vocabulary of 512 tokens. -/
theorem tiedHead_eq_projection_iff_full :
    ((plainModel.tiedHead (exactHost plainWidth) 0 (vocabulary 512 0) fun _ => 7).logits [10, 100] (fun _ => 7)
        (afterCalls (exactHost plainWidth) (Device.fresh none) [])).2 =
      (plainModel.projection (exactHost plainWidth) 0 (vocabulary 512 0) [10, 100] (some 256) (fun _ => 7)
        (afterCalls (exactHost plainWidth) (Device.fresh none) [])).2 ↔ 512 ∣ (vocabulary 512 0).rows :=
  tiedHead_eq_projection_iff (exactHost_exact plainWidth) plainModel_provides rfl none [] (by simp) 0 (by decide)
    [10, 100] rfl fun _ => 7

/-- With one token more the tied head raises. -/
theorem tiedHead_ne_projection :
    ((plainModel.tiedHead (exactHost plainWidth) 0 (vocabulary 513 0) fun _ => 7).logits [10, 100] (fun _ => 7)
        (Device.fresh none)).2 ≠
      (plainModel.projection (exactHost plainWidth) 0 (vocabulary 513 0) [10, 100] (some 256) (fun _ => 7)
        (Device.fresh none)).2 := by
  have hready := Device.ready_fresh plainModel.descriptorFor (vocabulary 513) none
  have hprojection := (@projection_returns_only ℕ _ _ (exactHost plainWidth) plainWidth plainModel (vocabulary 513) 0
    [10, 100] _ (exactHost_exact plainWidth) plainModel_provides rfl (by decide) rfl fun _ => 7).outcome hready
  have hlogits := (@TiedHead.logits_of_not_dvd ℕ _ _ (exactHost plainWidth) plainWidth plainModel (vocabulary 513) 0
    [10, 100] (exactHost_exact plainWidth) plainModel_provides (by decide) rfl (fun _ => 7) (by decide)).raises hready
  obtain ⟨e, herror⟩ := hlogits
  rw [hprojection, herror]
  exact fun h => by cases h

end Vocabulary

end AneLinux.Runtime
