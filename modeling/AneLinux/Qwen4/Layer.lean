import Mathlib.Tactic.NormNum

/-!
# The layer of the reference and the layer of the port

A layer passes its residual streams through a hyper-connection, runs its attention block on the mixture,
and injects the output into the streams; then it does the same with its MLP block. The port
(`DecoderLayer`) does both. The reference (`RefModel.layer`) computes the attention output and then
overwrites it: its second hyper-connection reads the streams from before the attention.

The blocks are arbitrary functions of what they are given, the same for both layers.
-/

namespace AneLinux.Qwen4

variable {B S hc hid : ℕ} {V : Type} [Field V] {Ids Rotary Cache : Type}

/-- The residual streams. -/
abbrev Streams (B S hc hid : ℕ) (V : Type) := Fin B → Fin S → Fin hc → Fin hid → V

/-- What a block reads and returns. -/
abbrev Hidden (B S hid : ℕ) (V : Type) := Fin B → Fin S → Fin hid → V

/-- The injection weights of a hyper-connection. -/
abbrev Inject (B S hc : ℕ) (V : Type) := Fin B → Fin S → Fin hc → V

inductive LayerType
  | linearAttention
  | indexedAttention
deriving DecidableEq

/-- What a configuration says about the composition of the layers. -/
structure LayerConfig where
  layerTypes : List LayerType
  pleLayerIds : List ℕ

/-- The blocks of a layer. -/
structure Blocks (B S hc hid : ℕ) (V Ids Rotary Cache : Type) where
  ple : Streams B S hc hid V → Ids → ℕ → Cache → Streams B S hc hid V × Cache
  attnHyperConnection : Streams B S hc hid V → Hidden B S hid V × Streams B S hc hid V × Inject B S hc V
  mlpHyperConnection : Streams B S hc hid V → Hidden B S hid V × Streams B S hc hid V × Inject B S hc V
  gatedDeltaNet : Hidden B S hid V → Cache → Hidden B S hid V × Cache
  attention : Hidden B S hid V → Rotary → Cache → Hidden B S hid V × Cache
  moe : Hidden B S hid V → Hidden B S hid V

/-- `hyper + (h[:, :, None, :] * inj[..., :, None])`. -/
def injectBlock (hyper : Streams B S hc hid V) (h : Hidden B S hid V) (inj : Inject B S hc V) :
    Streams B S hc hid V :=
  fun b s c d => hyper b s c d + h b s d * inj b s c

variable (config : LayerConfig) (layer : Fin config.layerTypes.length) (blocks : Blocks B S hc hid V Ids Rotary Cache)

/-- The PLE step both layers begin with. -/
def pleStep (x : Streams B S hc hid V) (ids : Ids) (cache : Cache) : Streams B S hc hid V × Cache :=
  if layer.val + 1 ∈ config.pleLayerIds then
    let (added, cache) := blocks.ple x ids (config.pleLayerIds.idxOf (layer.val + 1)) cache
    (x + added, cache)
  else (x, cache)

/-- The attention block of a layer, linear or indexed. -/
def attentionBlock (mixed : Hidden B S hid V) (rotary : Rotary) (cache : Cache) : Hidden B S hid V × Cache :=
  match config.layerTypes.get layer with
  | .linearAttention => blocks.gatedDeltaNet mixed cache
  | .indexedAttention => blocks.attention mixed rotary cache

/-- The second half of both layers. -/
def mlpStep (x : Streams B S hc hid V) : Streams B S hc hid V :=
  let (mixed, hyper, inj) := blocks.mlpHyperConnection x
  injectBlock hyper (blocks.moe mixed) inj

/-- `RefModel.layer`: the output of the attention block is overwritten by that of the MLP block. -/
def refLayer (x : Streams B S hc hid V) (rotary : Rotary) (ids : Ids) (cache : Cache) :
    Streams B S hc hid V × Cache :=
  let (x, cache) := pleStep config layer blocks x ids cache
  let (mixed, _, _) := blocks.attnHyperConnection x
  let (_, cache) := attentionBlock config layer blocks mixed rotary cache
  let (mixed, hyper, inj) := blocks.mlpHyperConnection x
  let h := blocks.moe mixed
  (injectBlock hyper h inj, cache)

/-- `DecoderLayer.__call__`. -/
def decoderLayer (x : Streams B S hc hid V) (rotary : Rotary) (ids : Ids) (cache : Cache) :
    Streams B S hc hid V × Cache :=
  let (x, cache) := pleStep config layer blocks x ids cache
  let (mixed, hyper, inj) := blocks.attnHyperConnection x
  let (h, cache) := attentionBlock config layer blocks mixed rotary cache
  let x := injectBlock hyper h inj
  let (mixed, hyper, inj) := blocks.mlpHyperConnection x
  let h := blocks.moe mixed
  (injectBlock hyper h inj, cache)

/-- The streams the attention block of a layer starts from, and what it adds to them. -/
def attentionInjected (x : Streams B S hc hid V) (rotary : Rotary) (ids : Ids) (cache : Cache) :
    Streams B S hc hid V :=
  let (x, cache) := pleStep config layer blocks x ids cache
  let (mixed, hyper, inj) := blocks.attnHyperConnection x
  injectBlock hyper (attentionBlock config layer blocks mixed rotary cache).1 inj

variable {config layer blocks} (x : Streams B S hc hid V) (rotary : Rotary) (ids : Ids) (cache : Cache)

/-- The reference runs its MLP half on the streams from before the attention. -/
theorem refLayer_eq : (refLayer config layer blocks x rotary ids cache).1 =
    mlpStep blocks (pleStep config layer blocks x ids cache).1 := rfl

/-- The port runs it on the streams after the injection. -/
theorem decoderLayer_eq : (decoderLayer config layer blocks x rotary ids cache).1 =
    mlpStep blocks (attentionInjected config layer blocks x rotary ids cache) := rfl

/-- Both leave the same cache. -/
theorem layer_cache_eq : (refLayer config layer blocks x rotary ids cache).2 =
    (decoderLayer config layer blocks x rotary ids cache).2 := rfl

/-- The layers agree where the attention block adds nothing to the streams. -/
theorem refLayer_eq_of_nothing_injected
    (h : attentionInjected config layer blocks x rotary ids cache = (pleStep config layer blocks x ids cache).1) :
    refLayer config layer blocks x rotary ids cache = decoderLayer config layer blocks x rotary ids cache := by
  refine Prod.ext ?_ (layer_cache_eq x rotary ids cache)
  rw [refLayer_eq, decoderLayer_eq, h]

/-- Blocks that tell the layers apart: the attention block returns ones, the MLP block zeros, and the
hyper-connections hand the streams on with weight one. -/
def tellingBlocks : Blocks B S hc hid V Ids Rotary Cache where
  ple _ _ _ cache := (0, cache)
  attnHyperConnection x := (0, x, 1)
  mlpHyperConnection x := (0, x, 1)
  gatedDeltaNet _ cache := (1, cache)
  attention _ _ cache := (1, cache)
  moe _ := 0

theorem pleStep_tellingBlocks :
    (pleStep config layer (tellingBlocks : Blocks B S hc hid V Ids Rotary Cache) x ids cache).1 = x := by
  unfold pleStep
  split
  · exact add_zero x
  · rfl

theorem attentionBlock_tellingBlocks (mixed : Hidden B S hid V) :
    (attentionBlock config layer (tellingBlocks : Blocks B S hc hid V Ids Rotary Cache) mixed rotary cache).1 = 1 := by
  unfold attentionBlock
  cases config.layerTypes.get layer with
  | linearAttention => rfl
  | indexedAttention => rfl

theorem mlpStep_tellingBlocks : mlpStep (tellingBlocks : Blocks B S hc hid V Ids Rotary Cache) x = x := by
  funext b s c d
  change x b s c d + 0 * 1 = x b s c d
  rw [zero_mul, add_zero]

theorem refLayer_tellingBlocks :
    (refLayer config layer (tellingBlocks : Blocks B S hc hid V Ids Rotary Cache) x rotary ids cache).1 = x := by
  rw [refLayer_eq, mlpStep_tellingBlocks, pleStep_tellingBlocks]

theorem attentionInjected_tellingBlocks : attentionInjected config layer
    (tellingBlocks : Blocks B S hc hid V Ids Rotary Cache) x rotary ids cache = x + 1 := by
  funext b s c d
  change (pleStep config layer (tellingBlocks : Blocks B S hc hid V Ids Rotary Cache) x ids cache).1 b s c d +
    (attentionBlock config layer (tellingBlocks : Blocks B S hc hid V Ids Rotary Cache) 0 rotary _).1 b s d * 1 =
      x b s c d + 1
  rw [pleStep_tellingBlocks, attentionBlock_tellingBlocks]
  exact congrArg (x b s c d + ·) (mul_one 1)

theorem decoderLayer_tellingBlocks :
    (decoderLayer config layer (tellingBlocks : Blocks B S hc hid V Ids Rotary Cache) x rotary ids cache).1 =
      x + 1 := by
  rw [decoderLayer_eq, mlpStep_tellingBlocks, attentionInjected_tellingBlocks]

/-- The blocks of a layer with another MLP half. -/
def withMlp (blocks : Blocks B S hc hid V Ids Rotary Cache)
    (mlpHyperConnection : Streams B S hc hid V → Hidden B S hid V × Streams B S hc hid V × Inject B S hc V)
    (moe : Hidden B S hid V → Hidden B S hid V) : Blocks B S hc hid V Ids Rotary Cache :=
  { blocks with mlpHyperConnection, moe }

/-- Whatever the MLP half is, the layers agree exactly when the attention block adds nothing to the streams. -/
theorem refLayer_eq_decoderLayer_withMlp_iff :
    (∀ mlpHyperConnection moe,
        refLayer config layer (withMlp blocks mlpHyperConnection moe) x rotary ids cache =
          decoderLayer config layer (withMlp blocks mlpHyperConnection moe) x rotary ids cache) ↔
      attentionInjected config layer blocks x rotary ids cache = (pleStep config layer blocks x ids cache).1 := by
  constructor
  · intro h
    have hlayers := congrArg Prod.fst (h (fun x => (0, x, 1)) fun _ => 0)
    rw [refLayer_eq, decoderLayer_eq] at hlayers
    have hmlp (y : Streams B S hc hid V) : mlpStep (withMlp blocks (fun x => (0, x, 1)) fun _ => 0) y = y :=
      (mlpStep_tellingBlocks y : mlpStep (tellingBlocks : Blocks B S hc hid V Ids Rotary Cache) y = y)
    rw [hmlp, hmlp] at hlayers
    exact hlayers.symm
  · intro h mlpHyperConnection moe
    exact refLayer_eq_of_nothing_injected x rotary ids cache h

/-- The two layers agree for all blocks, streams and caches exactly when the streams have no elements. -/
theorem refLayer_eq_decoderLayer_forall_iff [Inhabited Ids] [Inhabited Rotary] [Inhabited Cache]
    (config : LayerConfig) (layer : Fin config.layerTypes.length) (B S hc hid : ℕ) :
    (∀ (blocks : Blocks B S hc hid V Ids Rotary Cache) x rotary ids cache,
        refLayer config layer blocks x rotary ids cache = decoderLayer config layer blocks x rotary ids cache) ↔
      B = 0 ∨ S = 0 ∨ hc = 0 ∨ hid = 0 := by
  constructor
  · intro h
    by_contra hpos
    rw [not_or, not_or, not_or] at hpos
    obtain ⟨hB, hS, hhc, hhid⟩ := hpos
    have hlayers := congrArg Prod.fst (h tellingBlocks 0 default default default)
    rw [refLayer_tellingBlocks, decoderLayer_tellingBlocks, zero_add] at hlayers
    have hone := congrFun (congrFun (congrFun (congrFun hlayers ⟨0, Nat.pos_of_ne_zero hB⟩)
      ⟨0, Nat.pos_of_ne_zero hS⟩) ⟨0, Nat.pos_of_ne_zero hhc⟩) ⟨0, Nat.pos_of_ne_zero hhid⟩
    exact zero_ne_one hone
  · intro hempty blocks x rotary ids cache
    refine Prod.ext ?_ (layer_cache_eq x rotary ids cache)
    funext b s c d
    rcases hempty with rfl | rfl | rfl | rfl
    · exact b.elim0
    · exact s.elim0
    · exact c.elim0
    · exact d.elim0

/-- For every configuration, layer and shape: the two layers agree on an input, whatever the MLP half, exactly when
the attention block adds nothing to the streams there, and for all blocks exactly when the streams are empty. -/
theorem refLayer_eq_decoderLayer_iff [Inhabited Ids] [Inhabited Rotary] [Inhabited Cache] (config : LayerConfig)
    (layer : Fin config.layerTypes.length) (B S hc hid : ℕ) :
    (∀ (blocks : Blocks B S hc hid V Ids Rotary Cache) x rotary ids cache,
        (∀ mlpHyperConnection moe,
            refLayer config layer (withMlp blocks mlpHyperConnection moe) x rotary ids cache =
              decoderLayer config layer (withMlp blocks mlpHyperConnection moe) x rotary ids cache) ↔
          attentionInjected config layer blocks x rotary ids cache = (pleStep config layer blocks x ids cache).1) ∧
      ((∀ (blocks : Blocks B S hc hid V Ids Rotary Cache) x rotary ids cache,
          refLayer config layer blocks x rotary ids cache = decoderLayer config layer blocks x rotary ids cache) ↔
        B = 0 ∨ S = 0 ∨ hc = 0 ∨ hid = 0) :=
  ⟨fun _ x rotary ids cache => refLayer_eq_decoderLayer_withMlp_iff x rotary ids cache,
    refLayer_eq_decoderLayer_forall_iff config layer B S hc hid⟩

/-- A layer with one linear attention block. -/
def oneLayer : LayerConfig := { layerTypes := [.linearAttention], pleLayerIds := [] }

/-- Blocks of one number: the hyper-connections and the MLP block hand it on, and the attention block returns one. -/
def numberBlocks : Blocks 1 1 1 1 ℚ Unit Unit Unit where
  ple _ _ _ cache := (0, cache)
  attnHyperConnection x := (fun b s d => x b s 0 d, x, 1)
  mlpHyperConnection x := (fun b s d => x b s 0 d, x, 1)
  gatedDeltaNet _ cache := (1, cache)
  attention _ _ cache := (1, cache)
  moe h := h

/-- On these blocks the reference returns zero for zero, and the port returns two. -/
theorem refLayer_drops_attention :
    (refLayer oneLayer ⟨0, by decide⟩ numberBlocks 0 () () ()).1 0 0 0 0 = 0 ∧
      (decoderLayer oneLayer ⟨0, by decide⟩ numberBlocks 0 () () ()).1 0 0 0 0 = 2 := by
  constructor
  · change (0 : ℚ) + 0 * 1 = 0
    norm_num
  · change (0 : ℚ) + 1 * 1 + (0 + 1 * 1) * 1 = 2
    norm_num

end AneLinux.Qwen4
