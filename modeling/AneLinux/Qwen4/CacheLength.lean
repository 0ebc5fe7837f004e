import AneLinux.Support.Method
import AneLinux.Qwen4.Layer

/-!
# The length in the cache of the reference

`RefModel.forward` keeps the number of cached tokens in one entry of its cache, `kv_len`. The forward reads
it for its rotary tables, each indexed-attention layer reads it, and so does the indexer of that layer. The
entry is written at the end of `RefModel.attention`, once for each indexed-attention layer. A configuration
with one such layer counts tokens. With none the length stays zero, and with more the second layer already
reads the length after the call, for which the rotary tables of the call have no rows.

Arrays are given by their numbers of rows. An operation raises where numpy does for these numbers.
-/

namespace AneLinux.Qwen4

open AneLinux.Support

/-- What a configuration says about the lengths. -/
structure RefConfig extends LayerConfig where
  rotaryWidth : ℕ
  headDim : ℕ
  indexerHeadDim : ℕ
  compressRatio : ℕ
  rotary_le_head : rotaryWidth ≤ headDim
  rotary_le_indexer : rotaryWidth ≤ indexerHeadDim
  compressRatio_pos : 0 < compressRatio

/-- The cache: `kv_len`, the rows of the arrays a layer keeps, and the lengths the layers have read from it. -/
structure RefCache where
  kvLen : ℕ
  indexerKeys : ℕ → ℕ
  keys : ℕ → ℕ
  values : ℕ → ℕ
  ssm : ℕ → Bool
  lengthsRead : List ℕ

/-- The cache a sequence of calls starts from: `{"kv_len": 0}`. -/
def RefCache.empty : RefCache where
  kvLen := 0
  indexerKeys _ := 0
  keys _ := 0
  values _ := 0
  ssm _ := false
  lengthsRead := []

/-- The cache after a layer has read the length. -/
def RefCache.afterRead (cache : RefCache) : RefCache :=
  { cache with lengthsRead := cache.lengthsRead ++ [cache.kvLen] }

/-- `cache["kv_len"]` in a layer. -/
def readLength : Method RefCache ℕ := Method.change fun cache => (cache.afterRead, cache.kvLen)

/-- A `reshape` with a free axis, of an array with `S` rows. -/
def freeReshape (S : ℕ) : Py Unit :=
  if S = 0 then raiseValue "cannot reshape array of size 0 into shape with an unknown dimension" else .ok ()

/-- The size of an axis of an elementwise result. -/
def broadcastAxis (a b : ℕ) : Py ℕ :=
  if a = b then .ok a else if a = 1 then .ok b else if b = 1 then .ok a
  else raiseValue "operands could not be broadcast together"

/-- The rows of `table[start:stop]`. -/
def sliceRows (rows start stop : ℕ) : ℕ := min rows stop - min rows start

/-- `RefModel.apply_rope` of `S` rows: the rows of the result. -/
def applyRope (rotaryWidth width S tableRows : ℕ) : Py ℕ := do
  let out ← broadcastAxis S tableRows
  if rotaryWidth < width then
    if out = S then return S
    else raiseValue "all the input array dimensions except for the concatenation axis must match exactly"
  else return out

variable {α : Type} {cache : RefCache} {layers before after : List LayerType}

namespace RefConfig

variable (config : RefConfig)

/-- The complete blocks one query of the indexer scores. -/
def scoreBlocks (T rawKeys q vis qi : ℕ) : Py Unit :=
  let ncb := vis / config.compressRatio
  if ncb = 0 then .ok ()
  else if rawKeys < ncb * config.compressRatio then raiseValue "cannot reshape array into blocks"
  else if T ≤ (ncb - 1) * config.compressRatio then .error .indexError
  else if q ≤ qi then .error .indexError
  else .ok ()

/-- `RefModel.indexer`, with rotary tables of `T` rows: the columns of its mask. -/
def indexer (layer S T : ℕ) : Method RefCache ℕ := do
  let kvLen ← readLength
  let KV := kvLen + S
  let rawKeys ← Method.change fun cache =>
    ({ cache with indexerKeys := Function.update cache.indexerKeys layer (cache.indexerKeys layer + S) },
      cache.indexerKeys layer + S)
  let q ← Method.lift (applyRope config.rotaryWidth config.indexerHeadDim S (sliceRows T (KV - S) KV))
  Method.lift ((List.range S).forM fun qi => config.scoreBlocks T rawKeys q (KV - S + qi + 1) qi)
  return KV

/-- `RefModel.attention`, with rotary tables of `T` rows. -/
def attention (layer S T : ℕ) : Method RefCache Unit := do
  let kvLen ← readLength
  let KV := kvLen + S
  let selMask ← config.indexer layer S T
  let mask ← Method.lift (broadcastAxis KV selMask)
  let q ← Method.lift (applyRope config.rotaryWidth config.headDim S (sliceRows T (KV - S) KV))
  let k ← Method.lift (applyRope config.rotaryWidth config.headDim S (sliceRows T (KV - S) KV))
  let keys ← Method.change fun cache =>
    ({ cache with keys := Function.update cache.keys layer (cache.keys layer + k) }, cache.keys layer + k)
  let values ← Method.change fun cache =>
    ({ cache with values := Function.update cache.values layer (cache.values layer + S) }, cache.values layer + S)
  let _ ← Method.lift (broadcastAxis q S)
  let att ← Method.lift (broadcastAxis keys mask)
  let _ ← Method.lift (broadcastAxis att values)
  Method.lift (freeReshape S)
  Method.change fun cache => ({ cache with kvLen := KV }, ())

/-- `RefModel.gated_delta_net`: a single token needs the state of an earlier call. -/
def gatedDeltaNet (layer S : ℕ) : Method RefCache Unit := do
  Method.lift (freeReshape S)
  let ssm ← Method.read fun cache => cache.ssm layer
  Method.lift (if S = 1 ∧ ssm = false then
    .error (.keyError s!"model.language_model.layers.{layer}.linear_attn.ssm") else .ok ())
  Method.change fun cache => ({ cache with ssm := Function.update cache.ssm layer true }, ())

/-- `RefModel.layer`. -/
def layer (S T i : ℕ) (layerType : LayerType) : Method RefCache Unit := do
  Method.lift (if i + 1 ∈ config.pleLayerIds then freeReshape S else .ok ())
  Method.lift (freeReshape S)
  match layerType with
  | .linearAttention => gatedDeltaNet i S
  | .indexedAttention => config.attention i S T
  Method.lift (freeReshape S)

/-- The loop over the layers, from layer `i` on. -/
def layersFrom (S T : ℕ) : ℕ → List LayerType → Method RefCache Unit
  | _, [] => pure ()
  | i, layerType :: rest => do
    config.layer S T i layerType
    layersFrom S T (i + 1) rest

/-- `RefModel.forward` on `S` tokens. -/
def forward (S : ℕ) : Method RefCache Unit := do
  let off ← Method.read RefCache.kvLen
  config.layersFrom S (off + S) 0 config.layerTypes
  Method.lift (freeReshape S)

variable {config} {S T i : ℕ}

/-- A chunk with tokens can be reshaped. -/
theorem freeReshape_of_pos (hS : 0 < S) : freeReshape S = .ok () := by
  rw [freeReshape, if_neg (Nat.ne_of_gt hS)]

/-- On no tokens a layer raises before it does anything. -/
theorem layer_zero (layerType : LayerType) (cache : RefCache) :
    ∃ e, config.layer 0 T i layerType cache = (cache, .error e) := by
  unfold layer
  by_cases hple : i + 1 ∈ config.pleLayerIds
  · rw [if_pos hple]
    exact ⟨_, rfl⟩
  · rw [if_neg hple]
    exact ⟨_, rfl⟩

/-- On some tokens a layer does what its attention block does. -/
theorem layer_of_pos (hS : 0 < S) (layerType : LayerType) : config.layer S T i layerType =
    match layerType with
    | .linearAttention => gatedDeltaNet i S
    | .indexedAttention => config.attention i S T := by
  unfold layer
  rw [freeReshape_of_pos hS, ite_self]
  cases layerType with
  | linearAttention => exact Method.bind_lift_unit (gatedDeltaNet i S)
  | indexedAttention => exact Method.bind_lift_unit (config.attention i S T)

/-- A call without tokens raises before any layer. -/
theorem forward_zero (cache : RefCache) : ∃ e, config.forward 0 cache = (cache, .error e) := by
  unfold forward
  rw [Method.read_bind]
  cases hlayers : config.layerTypes with
  | nil => exact ⟨_, rfl⟩
  | cons layerType rest =>
    have hlayer : ∃ e, config.layer 0 (cache.kvLen + 0) 0 layerType cache = (cache, .error e) :=
      layer_zero layerType cache
    obtain ⟨e, he⟩ := hlayer
    refine ⟨e, ?_⟩
    unfold layersFrom
    rw [Method.bind_of_error (Method.bind_of_error he)]

/-- With tokens the layers run in turn. -/
theorem forward_of_pos (hS : 0 < S) (cache : RefCache) :
    config.forward S cache = config.layersFrom S (cache.kvLen + S) 0 config.layerTypes cache := by
  unfold forward
  rw [Method.read_bind, freeReshape_of_pos hS, Method.bind_lift_unit]

/-- The loop passes through a split of the layers. -/
theorem layersFrom_append (before rest : List LayerType) :
    config.layersFrom S T i (before ++ rest) =
      config.layersFrom S T i before >>= fun _ => config.layersFrom S T (i + before.length) rest := by
  induction before generalizing i with
  | nil => rfl
  | cons layerType before ih =>
    rw [List.cons_append, layersFrom, layersFrom, ih, Method.bind_bind, List.length_cons]
    rw [Nat.add_right_comm, Nat.add_assoc]

section Counting

variable {P Q : RefCache → Prop}

/-- What the indexer and the attention of a layer do before the length is written keeps the property. -/
structure Kept (P : RefCache → Prop) : Prop where
  afterRead : ∀ cache, P cache → P cache.afterRead
  arrays : ∀ cache indexerKeys keys values, P cache → P { cache with indexerKeys, keys, values }

theorem keeps_lift (x : Py α) : Method.Triple P (Method.lift x) (fun _ => P) P :=
  Method.Triple.lift (fun _ _ _ h => h) fun _ _ _ h => h

theorem keeps_change {f : RefCache → RefCache × α} (h : ∀ cache, P cache → P (f cache).1) :
    Method.Triple P (Method.change f) (fun _ => P) P :=
  Method.Triple.change h

theorem keeps_read (f : RefCache → α) : Method.Triple P (Method.read f) (fun _ => P) P :=
  Method.Triple.read fun _ h => h

/-- The indexer keeps what reads keep. -/
theorem indexer_keeps (hkept : Kept P) (layer : ℕ) :
    Method.Triple P (config.indexer layer S T) (fun _ => P) P := by
  unfold indexer
  refine Method.Triple.bind (keeps_change hkept.afterRead) fun kvLen => ?_
  refine Method.Triple.bind (keeps_change fun cache => hkept.arrays cache _ _ _) fun rawKeys => ?_
  refine Method.Triple.bind (keeps_lift _) fun q => ?_
  refine Method.Triple.bind (keeps_lift _) fun _ => ?_
  exact Method.Triple.pure fun _ h => h

/-- The attention of a layer writes the length it read first, plus the tokens of the call. -/
theorem attention_triple {start : RefCache} (hkept : Kept P) (hstart : P start.afterRead)
    (hwrite : ∀ cache, P cache → Q { cache with kvLen := start.kvLen + S }) (layer : ℕ) :
    Method.Triple (· = start) (config.attention layer S T) (fun _ => Q) P := by
  unfold attention
  have hread : Method.Triple (· = start) readLength (fun kvLen cache => kvLen = start.kvLen ∧ P cache) P := by
    refine Method.Triple.change fun cache hcache => ?_
    rw [hcache]
    exact ⟨rfl, hstart⟩
  refine Method.Triple.bind_value hread fun kvLen hkvLen => ?_
  refine Method.Triple.bind (indexer_keeps hkept layer) fun selMask => ?_
  refine Method.Triple.bind (keeps_lift _) fun mask => ?_
  refine Method.Triple.bind (keeps_lift _) fun q => ?_
  refine Method.Triple.bind (keeps_lift _) fun k => ?_
  refine Method.Triple.bind (keeps_change fun cache => hkept.arrays cache _ _ _) fun keys => ?_
  refine Method.Triple.bind (keeps_change fun cache => hkept.arrays cache _ _ _) fun values => ?_
  refine Method.Triple.bind (keeps_lift _) fun _ => ?_
  refine Method.Triple.bind (keeps_lift _) fun att => ?_
  refine Method.Triple.bind (keeps_lift _) fun _ => ?_
  refine Method.Triple.bind (keeps_lift _) fun _ => ?_
  refine Method.Triple.change fun cache hcache => ?_
  rw [hkvLen]
  exact hwrite cache hcache

/-- A recurrent layer keeps what its state may vary over. -/
theorem gatedDeltaNet_keeps (hssm : ∀ cache ssm, P cache → P { cache with ssm }) (layer : ℕ) :
    Method.Triple P (gatedDeltaNet layer S) (fun _ => P) P := by
  unfold gatedDeltaNet
  refine Method.Triple.bind (keeps_lift _) fun _ => ?_
  refine Method.Triple.bind (keeps_read _) fun ssm => ?_
  refine Method.Triple.bind (keeps_lift _) fun _ => ?_
  exact Method.Triple.change fun cache => hssm cache _

/-- On two tokens or more a linear layer does not raise. -/
theorem gatedDeltaNet_returns (hS : 2 ≤ S) (hssm : ∀ cache ssm, P cache → P { cache with ssm }) (layer : ℕ) :
    Method.Triple P (gatedDeltaNet layer S) (fun _ => P) fun _ => False := by
  unfold gatedDeltaNet
  rw [freeReshape_of_pos (by omega)]
  refine Method.Triple.lift_ok_bind ?_
  refine Method.Triple.read_bind fun ssm => ?_
  rw [if_neg (by omega)]
  refine Method.Triple.lift_ok_bind ?_
  exact Method.Triple.change fun cache => hssm cache _

/-- On one token a linear layer without a stored state raises. -/
theorem gatedDeltaNet_one {layer : ℕ} (h : cache.ssm layer = false) :
    ∃ e, gatedDeltaNet layer 1 cache = (cache, .error e) := by
  unfold gatedDeltaNet
  rw [freeReshape_of_pos (by omega), Method.lift_ok_bind, Method.read_bind, if_pos ⟨rfl, h⟩]
  exact ⟨_, rfl⟩

/-- What every linear layer does, linear layers in a row do. -/
theorem linearLayers_triple (hS : 0 < S) {fail : RefCache → Prop}
    (hnet : ∀ layer, Method.Triple P (gatedDeltaNet layer S) (fun _ => P) fail)
    (hlinear : LayerType.indexedAttention ∉ layers) :
    Method.Triple P (config.layersFrom S T i layers) (fun _ => P) fail := by
  induction layers generalizing i with
  | nil => exact Method.Triple.pure fun _ h => h
  | cons layerType rest ih =>
    rw [List.mem_cons, not_or] at hlinear
    cases layerType with
    | linearAttention =>
      rw [layersFrom, layer_of_pos hS]
      exact Method.Triple.bind (hnet i) fun _ => ih hlinear.2
    | indexedAttention => exact absurd rfl hlinear.1

/-- Linear layers keep what does not depend on their states. -/
theorem linearLayers_keep (hS : 0 < S) (hssm : ∀ cache ssm, P cache → P { cache with ssm })
    (hlinear : LayerType.indexedAttention ∉ layers) :
    Method.Triple P (config.layersFrom S T i layers) (fun _ => P) P :=
  linearLayers_triple hS (gatedDeltaNet_keeps hssm) hlinear

/-- On two tokens or more they all return, as do no layers at all. -/
theorem linearLayers_return (hS : 2 ≤ S ∨ layers = []) (hssm : ∀ cache ssm, P cache → P { cache with ssm })
    (hlinear : LayerType.indexedAttention ∉ layers) :
    Method.Triple P (config.layersFrom S T i layers) (fun _ => P) fun _ => False := by
  rcases hS with hS | rfl
  · exact linearLayers_triple (by omega) (gatedDeltaNet_returns hS hssm) hlinear
  · exact Method.Triple.pure fun _ h => h

/-- A length once read stays recorded. -/
theorem read_kept (length : ℕ) : Kept fun cache : RefCache => length ∈ cache.lengthsRead :=
  ⟨fun _ h => List.mem_append_left _ h, fun _ _ _ _ h => h⟩

/-- A length that was read stays in the list of those read. -/
theorem layersFrom_keeps_read (hS : 0 < S) (length : ℕ) (layers : List LayerType) :
    Method.Triple (fun cache => length ∈ cache.lengthsRead) (config.layersFrom S T i layers)
      (fun _ cache => length ∈ cache.lengthsRead) fun cache => length ∈ cache.lengthsRead := by
  induction layers generalizing i with
  | nil => exact Method.Triple.pure fun _ h => h
  | cons layerType rest ih =>
    rw [layersFrom, layer_of_pos hS]
    refine Method.Triple.bind ?_ fun _ => ih
    cases layerType with
    | linearAttention => exact gatedDeltaNet_keeps (fun _ _ h => h) i
    | indexedAttention =>
      refine Method.Triple.of_forall fun start hstart => ?_
      exact attention_triple (read_kept length) ((read_kept length).afterRead start hstart) (fun _ h => h) i

end Counting

section Returns

/-- All the arrays of a layer have a row for each counted token. -/
structure Filled (cache : RefCache) (layer : ℕ) : Prop where
  indexerKeys : cache.indexerKeys layer = cache.kvLen
  keys : cache.keys layer = cache.kvLen
  values : cache.values layer = cache.kvLen

/-- The cache an indexed-attention layer leaves. -/
def afterAttention (cache : RefCache) (layer S : ℕ) : RefCache where
  kvLen := cache.kvLen + S
  indexerKeys := Function.update cache.indexerKeys layer (cache.kvLen + S)
  keys := Function.update cache.keys layer (cache.kvLen + S)
  values := Function.update cache.values layer (cache.kvLen + S)
  ssm := cache.ssm
  lengthsRead := cache.lengthsRead ++ [cache.kvLen] ++ [cache.kvLen]

theorem broadcastAxis_self (a : ℕ) : broadcastAxis a a = .ok a := if_pos rfl

/-- The last rows of the table are the chunk's. -/
theorem sliceRows_last (t S : ℕ) : sliceRows (t + S) (t + S - S) (t + S) = S := by
  unfold sliceRows
  omega

/-- Rotary angles of the chunk's own length fit. -/
theorem applyRope_self (rotaryWidth width S : ℕ) : applyRope rotaryWidth width S S = .ok S := by
  unfold applyRope
  rw [broadcastAxis_self, ok_bind, if_pos rfl, ite_self]
  rfl

/-- A query finds its complete blocks, their positions in the tables and its own row. -/
theorem scoreBlocks_ok {rows vis qi : ℕ} (hvis : vis ≤ rows) (hqi : qi < S) :
    config.scoreBlocks rows rows S vis qi = .ok () := by
  have hblocks : vis / config.compressRatio * config.compressRatio ≤ vis := Nat.div_mul_le_self _ _
  unfold scoreBlocks
  by_cases hzero : vis / config.compressRatio = 0
  · rw [if_pos hzero]
  · have hlast : (vis / config.compressRatio - 1) * config.compressRatio <
        vis / config.compressRatio * config.compressRatio :=
      Nat.mul_lt_mul_of_pos_right (Nat.sub_lt (Nat.pos_of_ne_zero hzero) Nat.one_pos) config.compressRatio_pos
    rw [if_neg hzero, if_neg (by omega), if_neg (by omega), if_neg (by omega)]

theorem forM_ok {values : List ℕ} {body : ℕ → Py Unit} (h : ∀ value ∈ values, body value = .ok ()) :
    values.forM body = .ok () := by
  induction values with
  | nil => rfl
  | cons value rest ih =>
    change (body value >>= fun _ => rest.forM body) = .ok ()
    rw [h value List.mem_cons_self, ok_bind]
    exact ih fun value hvalue => h value (List.mem_cons_of_mem _ hvalue)

/-- A filled indexer appends exactly the chunk. -/
theorem indexer_of_filled {layer : ℕ} (h : cache.indexerKeys layer = cache.kvLen) :
    config.indexer layer S (cache.kvLen + S) cache =
      ({ cache.afterRead with indexerKeys := Function.update cache.indexerKeys layer (cache.kvLen + S) },
        .ok (cache.kvLen + S)) := by
  have hscore : ((List.range S).forM fun qi =>
      config.scoreBlocks (cache.kvLen + S) (cache.kvLen + S) S (cache.kvLen + S - S + qi + 1) qi) = .ok () := by
    refine forM_ok fun qi hqi => ?_
    have hqi : qi < S := List.mem_range.mp hqi
    exact scoreBlocks_ok (by omega) hqi
  unfold indexer readLength
  rw [Method.change_bind, Method.change_bind, sliceRows_last, applyRope_self, Method.lift_ok_bind]
  change (Method.lift ((List.range S).forM fun qi => config.scoreBlocks (cache.kvLen + S)
      (cache.indexerKeys layer + S) S (cache.kvLen + S - S + qi + 1) qi) >>= fun _ => pure (cache.kvLen + S))
    { cache.afterRead with
      indexerKeys := Function.update cache.indexerKeys layer (cache.indexerKeys layer + S) } = _
  rw [h, hscore, Method.lift_ok_bind]
  rfl

/-- Where the arrays of a layer are filled and the tables end with the tokens of the call, the layer returns. -/
theorem attention_of_filled (hS : 0 < S) {layer : ℕ} (h : Filled cache layer) (hT : T = cache.kvLen + S) :
    config.attention layer S T cache = (afterAttention cache layer S, .ok ()) := by
  subst hT
  unfold attention readLength
  rw [Method.change_bind]
  have hindexer : config.indexer layer S (cache.kvLen + S) cache.afterRead =
      ({ cache.afterRead.afterRead with
          indexerKeys := Function.update cache.indexerKeys layer (cache.kvLen + S) }, .ok (cache.kvLen + S)) :=
    indexer_of_filled h.indexerKeys
  rw [Method.bind_of_ok hindexer, broadcastAxis_self, Method.lift_ok_bind]
  rw [sliceRows_last, applyRope_self, Method.lift_ok_bind, Method.lift_ok_bind]
  rw [Method.change_bind, Method.change_bind, broadcastAxis_self, Method.lift_ok_bind]
  dsimp only [RefCache.afterRead]
  rw [h.keys, h.values, broadcastAxis_self, Method.lift_ok_bind, broadcastAxis_self, Method.lift_ok_bind]
  rw [freeReshape_of_pos hS, Method.lift_ok_bind]
  rfl

end Returns

/-- One call, with the lengths its layers read. -/
def call (config : RefConfig) (S : ℕ) (cache : RefCache) : RefCache × Py Unit :=
  config.forward S { cache with lengthsRead := [] }

/-- The calls of a run count tokens: the layers of a call read the number of tokens before it, and if the call
returns, the cache has the number after it. A run ends with a call that raises. -/
def RunCounts (config : RefConfig) : ℕ → RefCache → List ℕ → Prop
  | _, _, [] => True
  | total, cache, S :: rest =>
    (∀ length ∈ (config.call S cache).1.lengthsRead, length = total) ∧
      ((config.call S cache).2 = .ok () → (config.call S cache).1.kvLen = total + S ∧
        RunCounts config (total + S) (config.call S cache).1 rest)

/-- The first call raises before a second indexed-attention layer reads the length: it has no tokens, or one
token and a linear layer, which has no state yet, among the first two layers. -/
def StopsAtOnce (config : RefConfig) : List ℕ → Prop
  | [] => True
  | S :: _ => S = 0 ∨ S = 1 ∧ LayerType.linearAttention ∈ config.layerTypes.take 2

/-- A layer list splits at its first indexed layer. -/
theorem exists_split (h : LayerType.indexedAttention ∈ layers) :
    ∃ before after, layers = before ++ .indexedAttention :: after ∧ .indexedAttention ∉ before ∧
      layers.count .indexedAttention = after.count .indexedAttention + 1 := by
  obtain ⟨before, after, hlayers, hbefore⟩ := List.eq_append_cons_of_mem h
  refine ⟨before, after, hlayers, hbefore, ?_⟩
  rw [hlayers, List.count_append, List.count_eq_zero_of_not_mem hbefore, List.count_cons_self, Nat.zero_add]

variable (config) in
/-- An empty call records no length. -/
theorem call_zero (cache : RefCache) :
    ∃ e, config.call 0 cache = ({ cache with lengthsRead := [] }, .error e) :=
  forward_zero _

/-- The length is `length`, and the layers of the call have read `total` only. -/
def Counted (total length : ℕ) (cache : RefCache) : Prop :=
  cache.kvLen = length ∧ ∀ read ∈ cache.lengthsRead, read = total

/-- A count once complete stays complete. -/
theorem counted_kept (total : ℕ) : Kept (Counted total total) where
  afterRead cache h := by
    refine ⟨h.1, fun read hread => ?_⟩
    rcases List.mem_append.mp hread with hread | hread
    · exact h.2 read hread
    · rw [List.mem_singleton.mp hread, h.1]
  arrays _ _ _ _ h := h

variable (config T) in
/-- One indexed-attention layer, between linear layers, counts the tokens of a call. -/
theorem layersFrom_counts (hS : 0 < S) (hbefore : .indexedAttention ∉ before) (hafter : .indexedAttention ∉ after)
    (total : ℕ) :
    Method.Triple (Counted total total) (config.layersFrom S T 0 (before ++ .indexedAttention :: after))
      (fun _ => Counted total (total + S)) fun cache => ∀ read ∈ cache.lengthsRead, read = total := by
  have hfirst : Method.Triple (Counted total total) (config.layersFrom S T 0 before)
      (fun _ => Counted total total) fun cache => ∀ read ∈ cache.lengthsRead, read = total :=
    (linearLayers_keep hS (fun _ _ h => h) hbefore).weaken_fail fun _ h => h.2
  have hattention : Method.Triple (Counted total total) (config.attention (0 + before.length) S T)
      (fun _ => Counted total (total + S)) fun cache => ∀ read ∈ cache.lengthsRead, read = total := by
    refine Method.Triple.of_forall fun start hstart => ?_
    have hwrite : ∀ cache, Counted total total cache →
        Counted total (total + S) { cache with kvLen := start.kvLen + S } :=
      fun cache h => ⟨congrArg (· + S) hstart.1, h.2⟩
    exact (attention_triple (counted_kept total) ((counted_kept total).afterRead start hstart) hwrite _).weaken_fail
      fun _ h => h.2
  have hlast : Method.Triple (Counted total (total + S)) (config.layersFrom S T (0 + before.length + 1) after)
      (fun _ => Counted total (total + S)) fun cache => ∀ read ∈ cache.lengthsRead, read = total :=
    (linearLayers_keep hS (fun _ _ h => h) hafter).weaken_fail fun _ h => h.2
  rw [layersFrom_append, layersFrom, layer_of_pos hS]
  exact hfirst.bind fun _ => hattention.bind fun _ => hlast

/-- With one indexed-attention layer every run counts tokens. -/
theorem runCounts_of_one (hone : config.layerTypes.count .indexedAttention = 1) (calls : List ℕ) {total : ℕ}
    (hcache : cache.kvLen = total) : config.RunCounts total cache calls := by
  induction calls generalizing total cache with
  | nil => trivial
  | cons S rest ih =>
    rcases Nat.eq_zero_or_pos S with rfl | hS
    · obtain ⟨e, he⟩ := call_zero config cache
      rw [RunCounts, he]
      exact ⟨fun length hlength => absurd hlength List.not_mem_nil, fun h => by cases h⟩
    · have hmem : LayerType.indexedAttention ∈ config.layerTypes := List.count_pos_iff.mp (by omega)
      obtain ⟨before, after, hlayers, hbefore, hcount⟩ := exists_split hmem
      have hafter : .indexedAttention ∉ after := List.count_eq_zero.mp (by omega)
      rw [RunCounts]
      rcases hcall : config.call S cache with ⟨cache', outcome⟩
      rw [call, forward_of_pos hS, hlayers] at hcall
      have hcounts := layersFrom_counts config (cache.kvLen + S) hS hbefore hafter total
        { cache with lengthsRead := [] } ⟨hcache, fun read hread => absurd hread List.not_mem_nil⟩
      rw [hcall] at hcounts
      cases outcome with
      | ok _ => exact ⟨hcounts.2, fun _ => ⟨hcounts.1, ih hcounts.1⟩⟩
      | error e => exact ⟨hcounts, fun h => by cases h⟩

/-- With one indexed-attention layer a call of two tokens or more returns. -/
theorem call_returns_of_one (hbefore : .indexedAttention ∉ before) (hafter : .indexedAttention ∉ after)
    (hlayers : config.layerTypes = before ++ .indexedAttention :: after) (hS : 2 ≤ S)
    (hfilled : Filled cache before.length) :
    (config.call S cache).2 = .ok () ∧ Filled (config.call S cache).1 before.length := by
  have hfirst : Method.Triple (fun c => c.kvLen = cache.kvLen ∧ Filled c before.length)
      (config.layersFrom S (cache.kvLen + S) 0 before) (fun _ c => c.kvLen = cache.kvLen ∧ Filled c before.length)
      fun _ => False :=
    linearLayers_return (.inl hS) (fun _ _ h => ⟨h.1, ⟨h.2.1, h.2.2, h.2.3⟩⟩) hbefore
  have hattention : Method.Triple (fun c => c.kvLen = cache.kvLen ∧ Filled c before.length)
      (config.attention (0 + before.length) S (cache.kvLen + S)) (fun _ c => Filled c before.length)
      fun _ => False := by
    intro c hc
    rw [Nat.zero_add, attention_of_filled (by omega) hc.2 (congrArg (· + S) hc.1.symm)]
    exact ⟨Function.update_self .., Function.update_self .., Function.update_self ..⟩
  have hlast : Method.Triple (fun c => Filled c before.length)
      (config.layersFrom S (cache.kvLen + S) (0 + before.length + 1) after) (fun _ c => Filled c before.length)
      fun _ => False :=
    linearLayers_return (.inl hS) (fun _ _ h => ⟨h.1, h.2, h.3⟩) hafter
  have hrun := (hfirst.bind fun _ => hattention.bind fun _ => hlast) { cache with lengthsRead := [] }
    ⟨rfl, ⟨hfilled.1, hfilled.2, hfilled.3⟩⟩
  rw [call, forward_of_pos (by omega), hlayers, layersFrom_append, layersFrom, layer_of_pos (by omega)]
  split at hrun
  next cache' _ hcall =>
    rw [hcall]
    exact ⟨rfl, hrun⟩
  next => exact hrun.elim

theorem call_empty (hS : 0 < S) :
    config.call S .empty = config.layersFrom S S 0 config.layerTypes .empty := by
  have htables : RefCache.empty.kvLen + S = S := Nat.zero_add S
  have hcall : config.call S .empty =
      config.layersFrom S (RefCache.empty.kvLen + S) 0 config.layerTypes .empty :=
    forward_of_pos hS _
  rw [hcall, htables]

theorem filled_empty (layer : ℕ) : Filled .empty layer := ⟨rfl, rfl, rfl⟩

/-- A first call of one token raises in the first of its first two layers that is linear. -/
theorem call_one (h : LayerType.linearAttention ∈ config.layerTypes.take 2) :
    (∃ e, (config.call 1 .empty).2 = .error e) ∧ ∀ read ∈ (config.call 1 .empty).1.lengthsRead, read = 0 := by
  rw [call_empty Nat.one_pos]
  cases hlayers : config.layerTypes with
  | nil =>
    rw [hlayers] at h
    exact absurd h List.not_mem_nil
  | cons layerType rest =>
    rw [hlayers] at h
    rw [layersFrom, layer_of_pos Nat.one_pos]
    cases layerType with
    | linearAttention =>
      have hlinear : ∃ e, gatedDeltaNet 0 1 .empty = (.empty, .error e) := gatedDeltaNet_one rfl
      obtain ⟨e, he⟩ := hlinear
      rw [Method.bind_of_error he]
      exact ⟨⟨e, rfl⟩, fun read hread => absurd hread List.not_mem_nil⟩
    | indexedAttention =>
      have hattention : config.attention 0 1 1 .empty = (afterAttention .empty 0 1, .ok ()) :=
        attention_of_filled Nat.one_pos (filled_empty 0) rfl
      rw [Method.bind_of_ok hattention]
      cases rest with
      | nil => simp at h
      | cons second rest =>
        have hsecond : second = .linearAttention := by
          rw [List.take_succ_cons, List.take_succ_cons, List.take_zero, List.mem_cons, List.mem_singleton] at h
          exact (h.resolve_left fun h => by cases h).symm
        have hlinear : ∃ e, gatedDeltaNet 1 1 (afterAttention .empty 0 1) =
            (afterAttention .empty 0 1, .error e) := gatedDeltaNet_one rfl
        obtain ⟨e, he⟩ := hlinear
        rw [layersFrom, layer_of_pos Nat.one_pos, hsecond, Method.bind_of_error he]
        refine ⟨⟨e, rfl⟩, fun read hread => ?_⟩
        rcases List.mem_cons.mp hread with hread | hread
        · exact hread
        · exact List.mem_singleton.mp hread

/-- Without an indexed-attention layer the first call leaves the length at zero. -/
theorem call_none (hS : 0 < S) (hlayers : 2 ≤ S ∨ config.layerTypes = [])
    (hnone : LayerType.indexedAttention ∉ config.layerTypes) :
    (config.call S .empty).2 = .ok () ∧ (config.call S .empty).1.kvLen = 0 := by
  have hreturns : Method.Triple (fun cache => cache.kvLen = 0) (config.layersFrom S S 0 config.layerTypes)
      (fun _ cache => cache.kvLen = 0) fun _ => False :=
    linearLayers_return hlayers (fun _ _ h => h) hnone
  have hempty := hreturns .empty rfl
  rw [call_empty hS]
  rcases hlayers : config.layersFrom S S 0 config.layerTypes .empty with ⟨cache, outcome⟩
  rw [hlayers] at hempty
  cases outcome with
  | ok _ => exact ⟨rfl, hempty⟩
  | error e => exact hempty.elim

/-- The second indexed-attention layer of the first call reads a length that already has the tokens of the call. -/
theorem call_two (hS : 0 < S) {between : List LayerType} (hbefore : .indexedAttention ∉ before)
    (hbetween : .indexedAttention ∉ between)
    (hlayers : config.layerTypes = before ++ .indexedAttention :: (between ++ .indexedAttention :: after))
    (hlinear : 2 ≤ S ∨ before = [] ∧ between = []) : S ∈ (config.call S .empty).1.lengthsRead := by
  have hfirst : Method.Triple (fun cache => cache.kvLen = 0 ∧ ∀ layer, Filled cache layer)
      (config.layersFrom S S 0 before) (fun _ cache => cache.kvLen = 0 ∧ ∀ layer, Filled cache layer)
      fun cache => S ∈ cache.lengthsRead :=
    (linearLayers_return (hlinear.imp_right And.left)
      (fun _ _ h => ⟨h.1, fun layer => ⟨(h.2 layer).1, (h.2 layer).2, (h.2 layer).3⟩⟩) hbefore).weaken_fail
      fun _ h => h.elim
  have hwrites : Method.Triple (fun cache => cache.kvLen = 0 ∧ ∀ layer, Filled cache layer)
      (config.attention (0 + before.length) S S) (fun _ cache => cache.kvLen = S)
      fun cache => S ∈ cache.lengthsRead := by
    intro cache hcache
    have htables : cache.kvLen + S = S := by rw [hcache.1, Nat.zero_add]
    rw [attention_of_filled hS (hcache.2 _) htables.symm]
    exact htables
  have hsecond : Method.Triple (fun cache => cache.kvLen = S)
      (config.layersFrom S S (0 + before.length + 1) between) (fun _ cache => cache.kvLen = S)
      fun cache => S ∈ cache.lengthsRead :=
    (linearLayers_return (hlinear.imp_right And.right) (fun _ _ h => h) hbetween).weaken_fail
      fun _ h => h.elim
  have hreads : Method.Triple (fun cache => cache.kvLen = S)
      (config.attention (0 + before.length + 1 + between.length) S S) (fun _ cache => S ∈ cache.lengthsRead)
      fun cache => S ∈ cache.lengthsRead := by
    refine Method.Triple.of_forall fun start hstart => ?_
    have hread : S ∈ start.afterRead.lengthsRead := by
      rw [← hstart]
      exact List.mem_append_right _ (List.mem_singleton.mpr rfl)
    exact attention_triple (read_kept S) hread (fun _ h => h) _
  have hrun : Method.Triple (fun cache => cache.kvLen = 0 ∧ ∀ layer, Filled cache layer)
      (config.layersFrom S S 0 config.layerTypes) (fun _ cache => S ∈ cache.lengthsRead)
      fun cache => S ∈ cache.lengthsRead := by
    rw [hlayers, layersFrom_append, layersFrom, layer_of_pos hS, layersFrom_append, layersFrom, layer_of_pos hS]
    refine hfirst.bind fun _ => hwrites.bind fun _ => hsecond.bind fun _ => hreads.bind fun _ => ?_
    exact layersFrom_keeps_read hS S after
  rw [call_empty hS]
  exact Method.Triple.always _ hrun ⟨rfl, filled_empty⟩

/-- Layers that are all linear are none if no linear layer stands first. -/
theorem eq_nil_of_linear {rest : List LayerType} {n : ℕ} (hbefore : LayerType.indexedAttention ∉ before)
    (h : LayerType.linearAttention ∉ (before ++ rest).take (n + 1)) : before = [] := by
  cases before with
  | nil => rfl
  | cons layerType before =>
    cases layerType with
    | linearAttention => exact absurd List.mem_cons_self h
    | indexedAttention => exact absurd List.mem_cons_self hbefore

/-- For every configuration and every sequence of calls from an empty cache: the lengths count tokens exactly when
the configuration has one indexed-attention layer, or the first call raises before a second one is reached. -/
theorem runCounts_iff (config : RefConfig) (calls : List ℕ) : config.RunCounts 0 .empty calls ↔
    config.layerTypes.count .indexedAttention = 1 ∨ config.StopsAtOnce calls := by
  constructor
  · intro hrun
    by_contra hneither
    rw [not_or] at hneither
    obtain ⟨hcount, hstops⟩ := hneither
    cases calls with
    | nil => exact hstops trivial
    | cons S rest =>
      rw [StopsAtOnce, not_or, not_and] at hstops
      obtain ⟨hzero, htake⟩ := hstops
      have hS : 0 < S := Nat.pos_of_ne_zero hzero
      by_cases hmem : LayerType.indexedAttention ∈ config.layerTypes
      · obtain ⟨before, tail, hlayers, hbefore, htail⟩ := exists_split hmem
        have htailmem : LayerType.indexedAttention ∈ tail := List.count_pos_iff.mp (by omega)
        obtain ⟨between, after, htail, hbetween, -⟩ := exists_split htailmem
        rw [htail] at hlayers
        have hlinear : 2 ≤ S ∨ before = [] ∧ between = [] := by
          refine (Nat.lt_or_ge 1 S).imp_right fun hle => ?_
          have htake := htake (by omega)
          rw [hlayers] at htake
          have hnil : before = [] := eq_nil_of_linear hbefore htake
          rw [hnil, List.nil_append, List.take_succ_cons, List.mem_cons, not_or] at htake
          exact ⟨hnil, eq_nil_of_linear hbetween htake.2⟩
        have hread := call_two hS hbefore hbetween hlayers hlinear
        exact hzero (hrun.1 S hread)
      · have hlayers : 2 ≤ S ∨ config.layerTypes = [] := by
          refine (Nat.lt_or_ge 1 S).imp_right fun hle => ?_
          have htake := htake (by omega)
          rw [← List.append_nil config.layerTypes] at htake
          exact eq_nil_of_linear hmem htake
        obtain ⟨hreturn, hlength⟩ := call_none hS hlayers hmem
        have hcounts := (hrun.2 hreturn).1
        omega
  · rintro (hone | hstops)
    · exact runCounts_of_one hone calls rfl
    · cases calls with
      | nil => trivial
      | cons S rest =>
        rw [RunCounts]
        rcases hstops with rfl | ⟨rfl, htake⟩
        · obtain ⟨e, he⟩ := call_zero config .empty
          rw [he]
          exact ⟨fun length hlength => absurd hlength List.not_mem_nil, fun h => by cases h⟩
        · obtain ⟨⟨e, he⟩, hreads⟩ := call_one htake
          rw [he]
          exact ⟨hreads, fun h => by cases h⟩

/-- Two indexed-attention layers. -/
def twoLayers : RefConfig where
  layerTypes := [.indexedAttention, .indexedAttention]
  pleLayerIds := []
  rotaryWidth := 2
  headDim := 8
  indexerHeadDim := 4
  compressRatio := 2
  rotary_le_head := by decide
  rotary_le_indexer := by decide
  compressRatio_pos := by decide

/-- On one token from an empty cache its second layer reads the length 1, and its rotary slice is empty. -/
theorem twoLayers_readsOne : (twoLayers.call 1 .empty).1.lengthsRead = [0, 0, 1, 1] ∧
    (twoLayers.call 1 .empty).2 = raiseValue
      "all the input array dimensions except for the concatenation axis must match exactly" ∧
    ¬ twoLayers.RunCounts 0 .empty [1] := by
  have hreads : (twoLayers.call 1 .empty).1.lengthsRead = [0, 0, 1, 1] := by decide
  refine ⟨hreads, by decide, fun hrun => ?_⟩
  have hone := hrun.1 1
  rw [hreads] at hone
  exact absurd (hone (by decide)) (by decide)

end RefConfig

end AneLinux.Qwen4
