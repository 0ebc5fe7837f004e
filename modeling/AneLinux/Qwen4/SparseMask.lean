import AneLinux.Qwen.ConvRing
import AneLinux.Support.TopScores

/-!
# The sparse attention mask

`QSAIndexer` scores the complete blocks of keys for all queries at once, gives the blocks that end after a query
the score `-inf`, and selects the best blocks and the tail of each query. `QSAAttention` adds the causal mask of
the call. The reference scores the visible blocks of one query after another.

`causalMask_iff` says for which calls there is a mask: a call with fewer keys than one block gets none, and the
causal mask of a call of several queries fits only the first call. `fullMask_selects` says that where there is
one, it shows each query the keys the reference selects.

A batch is one row of it: the rows do not meet. Scores are exact, an entry of a mask is a number or `-inf`.
-/

namespace AneLinux.Qwen4

open AneLinux.Support
open AneLinux.Qwen (lastRows)

/-- An entry of an additive mask; `⊥` is `-inf`. -/
abbrev MaskEntry := WithBot ℤ

/-- The key cache of an attention layer, as the indexer reads it. -/
structure IndexerCache (Key : Type) where
  offset : ℕ
  indexerKeys : List Key
  length_eq : indexerKeys.length = offset

/-- `QSAIndexer`: what it does to a row of hidden states, to a block of keys and to a query with a block. -/
structure QSAIndexer (Hidden Key Query Pooled S : Type) where
  tokenBudget : ℕ
  compressRatio : ℕ
  compressRatio_pos : 0 < compressRatio
  rawKey : Hidden → Key
  query : ℕ → Hidden → Query
  pool : ℕ → List Key → Pooled
  score : Query → Pooled → S

/-- The place of `kth = -k` and of the start of `[-k:]` in a list of `n`. -/
def negIndex (n k : ℕ) : ℕ := if k = 0 then 0 else n - k

variable {Hidden Key Query Pooled S T : Type} {a : List MaskEntry} {scores : List T} {t b position n : ℕ}
  {cache : IndexerCache Key} {x : List Hidden} {rawKeys : List Key} {q : Query} {mx : List (WithBot S) → ℕ → List ℕ}

namespace QSAIndexer

variable (indexer : QSAIndexer Hidden Key Query Pooled S)

/-- `self.block_topk`. -/
def blockTopk : ℕ := indexer.tokenBudget / indexer.compressRatio

/-- `raw_keys_full`. -/
def rawKeysFull (cache : IndexerCache Key) (x : List Hidden) : List Key := cache.indexerKeys ++ x.map indexer.rawKey

/-- The first `n` blocks of keys, pooled. -/
def pooledBlocks (rawKeys : List Key) (n : ℕ) : List Pooled :=
  (List.range n).map fun b =>
    indexer.pool (b * indexer.compressRatio)
      (((rawKeys.take (n * indexer.compressRatio)).drop (b * indexer.compressRatio)).take indexer.compressRatio)

/-- `argpartition(scores, -k)[-k:]` with `k = min(block_topk, n)`: the selected ones of `n` blocks. -/
def topBlocks {T : Type} (argpartition : List T → ℕ → List ℕ) (scores : List T) (n : ℕ) : List ℕ :=
  let k := min indexer.blockTopk n
  lastRows (argpartition scores (negIndex n k)) k

/-- The keys of some blocks: `sel_blocks * cr + arange(cr)`. -/
def blockTokens (blocks : List ℕ) : List ℕ :=
  blocks.flatMap fun b => (List.range indexer.compressRatio).map fun i => b * indexer.compressRatio + i

/-- The scores of the blocks for a query at a position, `-inf` for those that end after it. -/
def maskedScores (pooled : List Pooled) (position : ℕ) (q : Query) : List (WithBot S) :=
  pooled.mapIdx fun b p => if (b + 1) * indexer.compressRatio ≤ position + 1 then (indexer.score q p : WithBot S) else ⊥

/-- The row of `sel` of a query at a position. -/
def selRow (argpartition : List (WithBot S) → ℕ → List ℕ) (kv : ℕ) (pooled : List Pooled) (position : ℕ) (q : Query) :
    List Bool :=
  let nbFull := kv / indexer.compressRatio
  let scores := indexer.maskedScores pooled position q
  let selBlocks := indexer.topBlocks argpartition scores nbFull
  let sel := (indexer.blockTokens selBlocks).foldl (fun sel t => sel.set t true) (List.replicate kv false)
  let tailStart := (position + 1) / indexer.compressRatio * indexer.compressRatio
  let tail := (List.range kv).map fun t => decide (tailStart ≤ t ∧ t ≤ position)
  List.zipWith (· || ·) sel tail

/-- `QSAIndexer.__call__`: the selection mask, or nothing where the function ends without `return`. -/
def call (argpartition : List (WithBot S) → ℕ → List ℕ) (cache : IndexerCache Key) (x : List Hidden) :
    Option (List (List MaskEntry)) :=
  let kv := cache.offset + x.length
  let nbFull := kv / indexer.compressRatio
  if 0 < nbFull then
    let pooled := indexer.pooledBlocks (indexer.rawKeysFull cache x) nbFull
    some (x.mapIdx fun qi hidden =>
      (indexer.selRow argpartition kv pooled (cache.offset + qi) (indexer.query (cache.offset + qi) hidden)).map
        fun sel => if sel then 0 else ⊥)
  else none

end QSAIndexer

/-- The sum of two rows of masks: of one length, or one of them a single entry. -/
def broadcastRow (a b : List MaskEntry) : Option (List MaskEntry) :=
  if a.length = b.length then some (List.zipWith (· + ·) a b)
  else if a.length = 1 then some (b.map (a.headD 0 + ·))
  else if b.length = 1 then some (a.map (· + b.headD 0))
  else none

/-- The sum of two masks with as many rows; nothing if the shapes do not broadcast. -/
def broadcastAdd : List (List MaskEntry) → List (List MaskEntry) → Option (List (List MaskEntry))
  | [], [] => some []
  | a :: as, b :: bs => do
    let row ← broadcastRow a b
    let rows ← broadcastAdd as bs
    return row :: rows
  | _, _ => none

/-- `attn_mask` of `Qwen4ExpTextModel.__call__` for `L` tokens. -/
def attnMask (L : ℕ) : Option (List (List MaskEntry)) :=
  if 1 < L then
    some ((List.range L).map fun i =>
      (List.range L).map fun j => if j ≤ i then 0 else ((-1000000000 : ℤ) : MaskEntry))
  else none

namespace QSAIndexer

variable (indexer : QSAIndexer Hidden Key Query Pooled S)

/-- `full_mask` of `QSAAttention.__call__`; nothing if an operation raises. -/
def fullMask (argpartition : List (WithBot S) → ℕ → List ℕ) (cache : IndexerCache Key) (x : List Hidden)
    (mask : Option (List (List MaskEntry))) : Option (List (List MaskEntry)) := do
  let selMask ← indexer.call argpartition cache x
  let addMask := mask.getD (selMask.map fun row => row.map fun _ => 0)
  broadcastAdd addMask selMask

/-- The scores of the blocks a query at a position sees. -/
def visibleScores (rawKeys : List Key) (position : ℕ) (q : Query) : List S :=
  (indexer.pooledBlocks rawKeys ((position + 1) / indexer.compressRatio)).map (indexer.score q)

/-- `RefModel.indexer`: the keys it selects for each query. -/
def refIndexer (argpartition : List S → ℕ → List ℕ) (cache : IndexerCache Key) (x : List Hidden) : List (List ℕ) :=
  let kv := cache.offset + x.length
  let rawKeysAll := indexer.rawKeysFull cache x
  x.mapIdx fun qi hidden =>
    let position := kv - x.length + qi
    let vis := position + 1
    let ncb := vis / indexer.compressRatio
    let blocks :=
      if 0 < ncb then
        let scores := indexer.visibleScores rawKeysAll position (indexer.query position hidden)
        indexer.blockTokens (indexer.topBlocks argpartition scores ncb)
      else []
    blocks ++ List.range' (ncb * indexer.compressRatio) (vis - ncb * indexer.compressRatio)

end QSAIndexer

section Rows

/-- Marking tokens selects exactly these. -/
theorem getElem?_foldl_set {tokens : List ℕ} {sel : List Bool} (t : ℕ) :
    (tokens.foldl (fun sel t => sel.set t true) sel)[t]? = sel[t]?.map (· || decide (t ∈ tokens)) := by
  induction tokens generalizing sel with
  | nil =>
    rw [List.foldl_nil]
    simp only [List.not_mem_nil, decide_false, Bool.or_false, Option.map_id']
  | cons token tokens ih =>
    rw [List.foldl_cons, ih, List.getElem?_set]
    by_cases ht : token = t
    · subst ht
      by_cases hlt : token < sel.length
      · rw [if_pos rfl, if_pos hlt, List.getElem?_eq_getElem hlt]
        simp
      · rw [if_pos rfl, if_neg hlt, List.getElem?_eq_none (Nat.not_lt.mp hlt)]
        rfl
    · rw [if_neg ht]
      simp only [List.mem_cons, Ne.symm ht, false_or]

theorem broadcastRow_same {b : List MaskEntry} (h : a.length = b.length) :
    broadcastRow a b = some (List.zipWith (· + ·) a b) := if_pos h

/-- Masks of one shape add entry by entry. -/
theorem broadcastAdd_same {as bs : List (List MaskEntry)} (hrows : as.length = bs.length)
    (h : ∀ (i : ℕ) (a b : List MaskEntry), as[i]? = some a → bs[i]? = some b → a.length = b.length) :
    broadcastAdd as bs = some (List.zipWith (List.zipWith (· + ·)) as bs) := by
  induction as generalizing bs with
  | nil =>
    rw [List.length_nil] at hrows
    rw [List.length_eq_zero_iff.mp hrows.symm]
    rfl
  | cons a as ih =>
    cases bs with
    | nil => cases hrows
    | cons b bs =>
      have hrest := ih (Nat.succ.inj hrows) fun i => h (i + 1)
      rw [broadcastAdd, broadcastRow_same (h 0 a b rfl rfl), hrest]
      rfl

/-- Rows of different lengths, neither of them one, do not broadcast. -/
theorem broadcastAdd_mismatch {as bs : List (List MaskEntry)} {b : List MaskEntry} (ha : as[0]? = some a)
    (hb : bs[0]? = some b) (hne : a.length ≠ b.length) (haone : a.length ≠ 1) (hbone : b.length ≠ 1) :
    broadcastAdd as bs = none := by
  obtain ⟨as, rfl⟩ : ∃ rest, as = a :: rest := List.head?_eq_some_iff.mp (List.head?_eq_getElem? ▸ ha)
  obtain ⟨bs, rfl⟩ : ∃ rest, bs = b :: rest := List.head?_eq_some_iff.mp (List.head?_eq_getElem? ▸ hb)
  have hrow : broadcastRow a b = none := by rw [broadcastRow, if_neg hne, if_neg haone, if_neg hbone]
  rw [broadcastAdd, hrow]
  rfl

theorem index_unique (hnodup : scores.Nodup) {i : ℕ} {a : T} (ha : scores[i]? = some a) (j : ℕ)
    (hj : scores[j]? = some a) : j = i := by
  obtain ⟨_, hja⟩ := List.getElem?_eq_some_iff.mp hj
  obtain ⟨_, hia⟩ := List.getElem?_eq_some_iff.mp ha
  exact hnodup.getElem_inj_iff.mp (hja.trans hia.symm)

/-- An entry of a sum is zero where neither mask excludes the key. -/
theorem getElem?_add_selection {sel : List Bool} :
    (List.zipWith (· + ·) a (sel.map fun s => if s then 0 else ⊥))[t]? = some 0 ↔
      a[t]? = some 0 ∧ sel[t]? = some true := by
  rw [List.getElem?_zipWith_eq_some]
  constructor
  · rintro ⟨entry, other, hentry, hother, hsum⟩
    rw [List.getElem?_map, Option.map_eq_some_iff] at hother
    obtain ⟨s, hs, rfl⟩ := hother
    cases s with
    | false =>
      rw [if_neg Bool.false_ne_true, WithBot.add_bot] at hsum
      exact absurd hsum WithBot.bot_ne_zero
    | true =>
      rw [if_pos rfl, add_zero] at hsum
      exact ⟨hsum ▸ hentry, hs⟩
  · rintro ⟨hentry, hs⟩
    refine ⟨0, 0, hentry, ?_, add_zero 0⟩
    rw [List.getElem?_map, hs]
    rfl

/-- The causal mask of a call. -/
theorem attnMask_rows {L : ℕ} {addMask : List (List MaskEntry)} (h : attnMask L = some addMask) :
    1 < L ∧ addMask.length = L ∧ ∀ (qi : ℕ) (row : List MaskEntry), addMask[qi]? = some row →
      row.length = L ∧ ∀ t : ℕ, row[t]? = some 0 ↔ t ≤ qi := by
  unfold attnMask at h
  split at h
  next hL =>
    rw [← Option.some.inj h]
    refine ⟨hL, by rw [List.length_map, List.length_range], fun qi row hrow => ?_⟩
    rw [List.getElem?_map, Option.map_eq_some_iff] at hrow
    obtain ⟨i, hi, rfl⟩ := hrow
    obtain ⟨hlt, hqi⟩ := List.getElem?_eq_some_iff.mp hi
    rw [List.length_range] at hlt
    rw [List.getElem_range] at hqi
    subst hqi
    refine ⟨by rw [List.length_map, List.length_range], fun t => ?_⟩
    rw [List.getElem?_map, Option.map_eq_some_iff]
    constructor
    · rintro ⟨j, hj, hzero⟩
      obtain ⟨_, hjt⟩ := List.getElem?_eq_some_iff.mp hj
      rw [List.getElem_range] at hjt
      subst hjt
      by_contra hlater
      rw [if_neg hlater] at hzero
      exact absurd (WithBot.coe_inj.mp hzero) (by decide)
    · intro ht
      exact ⟨t, List.getElem?_range (by omega), if_pos ht⟩
  next => cases h

/-- What is added to the selection mask hides the keys after a query. -/
theorem addMask_rows {L offset : ℕ} {selMask : List (List MaskEntry)} (hlength : selMask.length = L)
    (hrow : ∀ (qi : ℕ) (row : List MaskEntry), selMask[qi]? = some row → row.length = offset + L)
    (hcall : offset = 0 ∨ L = 1) {addMask : List (List MaskEntry)}
    (hadd : (attnMask L).getD (selMask.map fun row => row.map fun _ => 0) = addMask) :
    addMask.length = L ∧ ∀ (qi : ℕ) (row : List MaskEntry), addMask[qi]? = some row →
      row.length = offset + L ∧ ∀ t : ℕ, row[t]? = some 0 ↔ t ≤ offset + qi := by
  cases hmask : attnMask L with
  | none =>
    have hone : ¬ 1 < L := fun hlt => by
      rw [attnMask, if_pos hlt] at hmask
      cases hmask
    rw [hmask, Option.getD_none] at hadd
    rw [← hadd]
    refine ⟨by rw [List.length_map, hlength], fun qi row haddRow => ?_⟩
    rw [List.getElem?_map, Option.map_eq_some_iff] at haddRow
    obtain ⟨selRow, hselRow, rfl⟩ := haddRow
    have hkeys := hrow qi selRow hselRow
    have hqi := (List.getElem?_eq_some_iff.mp hselRow).1
    refine ⟨by rw [List.length_map, hkeys], fun t => ?_⟩
    rw [List.getElem?_map, Option.map_eq_some_iff]
    constructor
    · rintro ⟨entry, hentry, -⟩
      have ht := (List.getElem?_eq_some_iff.mp hentry).1
      omega
    · intro ht
      exact ⟨_, List.getElem?_eq_getElem (by omega), rfl⟩
  | some causal =>
    obtain ⟨hmany, hrows, hcausal⟩ := attnMask_rows hmask
    have hoffset : offset = 0 := hcall.resolve_right (by omega)
    rw [hmask, Option.getD_some] at hadd
    rw [← hadd, hoffset]
    simp only [Nat.zero_add]
    exact ⟨hrows, hcausal⟩

end Rows

namespace QSAIndexer

variable (indexer : QSAIndexer Hidden Key Query Pooled S)

/-- The tokens of the chosen blocks. -/
theorem mem_blockTokens {blocks : List ℕ} : t ∈ indexer.blockTokens blocks ↔ t / indexer.compressRatio ∈ blocks := by
  have hpos := indexer.compressRatio_pos
  unfold blockTokens
  rw [List.mem_flatMap]
  constructor
  · rintro ⟨b, hb, ht⟩
    obtain ⟨i, hi, rfl⟩ := List.mem_map.mp ht
    rw [Nat.add_comm, Nat.add_mul_div_right _ _ hpos, Nat.div_eq_of_lt (List.mem_range.mp hi), Nat.zero_add]
    exact hb
  · intro ht
    refine ⟨_, ht, List.mem_map.mpr ⟨t % indexer.compressRatio, List.mem_range.mpr (Nat.mod_lt _ hpos), ?_⟩⟩
    exact Nat.div_add_mod' t indexer.compressRatio

/-- A block ends no later than a position if and only if the position sees it. -/
theorem block_visible_iff :
    (b + 1) * indexer.compressRatio ≤ position + 1 ↔ b < (position + 1) / indexer.compressRatio := by
  rw [← Nat.le_div_iff_mul_le indexer.compressRatio_pos, Nat.succ_le_iff]

theorem pooledBlocks_length (rawKeys : List Key) (n : ℕ) : (indexer.pooledBlocks rawKeys n).length = n := by
  rw [pooledBlocks, List.length_map, List.length_range]

/-- A pooled block depends on its own keys only. -/
theorem getElem?_pooledBlocks (hb : b < n) :
    (indexer.pooledBlocks rawKeys n)[b]? = some (indexer.pool (b * indexer.compressRatio)
      ((rawKeys.drop (b * indexer.compressRatio)).take indexer.compressRatio)) := by
  have hstep := Nat.mul_le_mul_right indexer.compressRatio hb
  rw [Nat.succ_mul] at hstep
  rw [pooledBlocks, List.getElem?_map, List.getElem?_range hb, Option.map_some, List.drop_take, List.take_take,
    Nat.min_eq_left (by omega)]

/-- What `argpartition` promises of every list of scores. -/
def Partitions {T : Type} [LinearOrder T] (argpartition : List T → ℕ → List ℕ) : Prop :=
  ∀ scores kth, kth < scores.length → IsArgpartition scores kth (argpartition scores kth)

/-- The selected blocks of some are the last ones of a partition. -/
theorem topBlocks_eq [LinearOrder T] {argpartition : List T → ℕ → List ℕ} (hpartitions : Partitions argpartition)
    (htopk : 0 < indexer.blockTopk) (hscores : 0 < scores.length) :
    IsArgpartition scores (scores.length - min indexer.blockTopk scores.length)
        (argpartition scores (scores.length - min indexer.blockTopk scores.length)) ∧
      indexer.topBlocks argpartition scores scores.length =
        (argpartition scores (scores.length - min indexer.blockTopk scores.length)).drop
          (scores.length - min indexer.blockTopk scores.length) := by
  have hk : min indexer.blockTopk scores.length ≠ 0 := by omega
  have h := hpartitions scores (scores.length - min indexer.blockTopk scores.length) (by omega)
  refine ⟨h, ?_⟩
  simp only [topBlocks]
  rw [negIndex, if_neg hk, lastRows, if_neg hk, h.length]

/-- A block with a score unlike the others is selected if and only if few blocks are better. -/
theorem mem_topBlocks_iff [LinearOrder T] {argpartition : List T → ℕ → List ℕ} (hpartitions : Partitions argpartition)
    (htopk : 0 < indexer.blockTopk) {a : T} (ha : scores[b]? = some a) (hdistinct : ∀ j, scores[j]? = some a → j = b) :
    b ∈ indexer.topBlocks argpartition scores scores.length ↔ betterCount scores a < indexer.blockTopk := by
  have hlt := betterCount_lt_length ha
  obtain ⟨h, htop⟩ := indexer.topBlocks_eq hpartitions htopk (Nat.zero_lt_of_lt hlt)
  rw [htop, h.mem_drop_iff ha hdistinct]
  omega

section Scores

theorem maskedScores_length (rawKeys : List Key) (position n : ℕ) (q : Query) :
    (indexer.maskedScores (indexer.pooledBlocks rawKeys n) position q).length = n := by
  rw [maskedScores, List.length_mapIdx, pooledBlocks_length]

theorem visibleScores_length (rawKeys : List Key) (position : ℕ) (q : Query) :
    (indexer.visibleScores rawKeys position q).length = (position + 1) / indexer.compressRatio := by
  rw [visibleScores, List.length_map, pooledBlocks_length]

/-- The scores of the visible blocks are those of the reference, the other blocks have none. -/
theorem getElem?_maskedScores (hb : b < n) :
    (indexer.maskedScores (indexer.pooledBlocks rawKeys n) position q)[b]? =
      some ((indexer.visibleScores rawKeys position q)[b]?.elim ⊥ fun score => (score : WithBot S)) := by
  rw [maskedScores, List.getElem?_mapIdx, indexer.getElem?_pooledBlocks hb, Option.map_some]
  by_cases hvisible : b < (position + 1) / indexer.compressRatio
  · rw [if_pos (indexer.block_visible_iff.mpr hvisible), visibleScores, List.getElem?_map,
      indexer.getElem?_pooledBlocks hvisible]
    rfl
  · rw [if_neg (mt indexer.block_visible_iff.mp hvisible), List.getElem?_eq_none]
    · rfl
    · rw [visibleScores_length]
      exact Nat.not_lt.mp hvisible

variable [LinearOrder S]

/-- As many blocks are better for all queries at once as for one query. -/
theorem betterCount_maskedScores (hn : (position + 1) / indexer.compressRatio ≤ n) (a : S) :
    betterCount (indexer.maskedScores (indexer.pooledBlocks rawKeys n) position q) (a : WithBot S) =
      betterCount (indexer.visibleScores rawKeys position q) a := by
  have hvisible : ∀ b < n, beats (indexer.maskedScores (indexer.pooledBlocks rawKeys n) position q) (a : WithBot S) b =
      beats (indexer.visibleScores rawKeys position q) a b := fun b hb => by
    rw [beats, beats, indexer.getElem?_maskedScores hb, Option.any_some]
    cases (indexer.visibleScores rawKeys position q)[b]? with
    | none => exact decide_eq_false (not_lt_bot)
    | some score => exact decide_eq_decide.mpr WithBot.coe_lt_coe
  have hlength : (indexer.visibleScores rawKeys position q).length ≤ n := by rwa [visibleScores_length]
  rw [betterCount_eq_countP_range hlength, betterCount, indexer.maskedScores_length]
  exact List.countP_congr fun b hb => by rw [hvisible b (List.mem_range.mp hb)]

/-- All queries at once select the visible blocks that the reference selects. -/
theorem mem_topBlocks_maskedScores {np : List S → ℕ → List ℕ} (hmx : Partitions mx) (hnp : Partitions np)
    (htopk : 0 < indexer.blockTopk) (hn : (position + 1) / indexer.compressRatio ≤ n)
    (hnodup : (indexer.visibleScores rawKeys position q).Nodup) (hb : b < (position + 1) / indexer.compressRatio) :
    b ∈ indexer.topBlocks mx (indexer.maskedScores (indexer.pooledBlocks rawKeys n) position q) n ↔
      b ∈ indexer.topBlocks np (indexer.visibleScores rawKeys position q) ((position + 1) / indexer.compressRatio) := by
  obtain ⟨a, ha⟩ : ∃ a, (indexer.visibleScores rawKeys position q)[b]? = some a :=
    ⟨_, List.getElem?_eq_getElem (by rwa [visibleScores_length])⟩
  have hdistinct := index_unique hnodup ha
  have hmasked : (indexer.maskedScores (indexer.pooledBlocks rawKeys n) position q)[b]? = some (a : WithBot S) := by
    rw [indexer.getElem?_maskedScores (hb.trans_le hn), ha]
    rfl
  have hmaskedDistinct : ∀ j, (indexer.maskedScores (indexer.pooledBlocks rawKeys n) position q)[j]? =
      some (a : WithBot S) → j = b := fun j hj => by
    have hjlt := (List.getElem?_eq_some_iff.mp hj).1
    rw [maskedScores_length] at hjlt
    rw [indexer.getElem?_maskedScores hjlt] at hj
    refine hdistinct j ?_
    cases hvisible : (indexer.visibleScores rawKeys position q)[j]? with
    | none =>
      rw [hvisible] at hj
      exact absurd (Option.some.inj hj) WithBot.bot_ne_coe
    | some score =>
      rw [hvisible] at hj
      rw [WithBot.coe_inj.mp (Option.some.inj hj)]
  have hport := indexer.mem_topBlocks_iff hmx htopk hmasked hmaskedDistinct
  have href := indexer.mem_topBlocks_iff hnp htopk ha hdistinct
  rw [indexer.maskedScores_length, indexer.betterCount_maskedScores hn] at hport
  rw [visibleScores_length] at href
  rw [hport, href]

end Scores

section Masks

theorem selRow_length (kv position : ℕ) (pooled : List Pooled) (q : Query) :
    (indexer.selRow mx kv pooled position q).length = kv := by
  have hset (tokens : List ℕ) (sel : List Bool) :
      (tokens.foldl (fun sel t => sel.set t true) sel).length = sel.length := by
    induction tokens generalizing sel with
    | nil => rfl
    | cons t tokens ih => rw [List.foldl_cons, ih, List.length_set]
  simp only [selRow, List.length_zipWith, hset, List.length_replicate, List.length_map, List.length_range, Nat.min_self]

/-- The keys of the selected blocks and of the tail. -/
theorem getElem?_selRow {kv : ℕ} {pooled : List Pooled} (ht : t < kv) :
    (indexer.selRow mx kv pooled position q)[t]? = some true ↔
      t / indexer.compressRatio ∈ indexer.topBlocks mx (indexer.maskedScores pooled position q)
          (kv / indexer.compressRatio) ∨
        (position + 1) / indexer.compressRatio * indexer.compressRatio ≤ t ∧ t ≤ position := by
  simp only [selRow]
  rw [List.getElem?_zipWith, getElem?_foldl_set, List.getElem?_replicate, if_pos ht, List.getElem?_map,
    List.getElem?_range ht]
  simp only [Option.map_some, Option.some.injEq, Bool.false_or, Bool.or_eq_true, decide_eq_true_eq, mem_blockTokens]

/-- With a complete block the indexer returns a selection mask. -/
theorem call_eq (mx : List (WithBot S) → ℕ → List ℕ) (hlong : indexer.compressRatio ≤ cache.offset + x.length) :
    indexer.call mx cache x = some (x.mapIdx fun qi hidden =>
      (indexer.selRow mx (cache.offset + x.length) (indexer.pooledBlocks (indexer.rawKeysFull cache x)
        ((cache.offset + x.length) / indexer.compressRatio)) (cache.offset + qi)
          (indexer.query (cache.offset + qi) hidden)).map fun sel => if sel then 0 else ⊥) :=
  if_pos (Nat.div_pos hlong indexer.compressRatio_pos)

/-- With a complete block, the first call and a call of one query have a mask. It shows a query the selected keys
up to its position. -/
theorem exists_fullMask (mx : List (WithBot S) → ℕ → List ℕ) (hlong : indexer.compressRatio ≤ cache.offset + x.length)
    (hcall : cache.offset = 0 ∨ x.length = 1) :
    ∃ rows, indexer.fullMask mx cache x (attnMask x.length) = some rows ∧ rows.length = x.length ∧
      ∀ (qi : ℕ) (hidden : Hidden), x[qi]? = some hidden → ∃ row, rows[qi]? = some row ∧
        row.length = cache.offset + x.length ∧ ∀ t : ℕ, row[t]? = some 0 ↔ t ≤ cache.offset + qi ∧
          (indexer.selRow mx (cache.offset + x.length) (indexer.pooledBlocks (indexer.rawKeysFull cache x)
            ((cache.offset + x.length) / indexer.compressRatio)) (cache.offset + qi)
              (indexer.query (cache.offset + qi) hidden))[t]? = some true := by
  have hsel := indexer.call_eq mx hlong
  generalize hselMask : x.mapIdx _ = selMask at hsel
  have hselLength : selMask.length = x.length := by rw [← hselMask, List.length_mapIdx]
  have hselRow (qi : ℕ) (row : List MaskEntry) (hrow : selMask[qi]? = some row) :
      row.length = cache.offset + x.length := by
    rw [← hselMask, List.getElem?_mapIdx, Option.map_eq_some_iff] at hrow
    obtain ⟨hidden, -, rfl⟩ := hrow
    rw [List.length_map, selRow_length]
  obtain ⟨hadd, haddRow⟩ := addMask_rows hselLength hselRow hcall rfl
  have hsum := broadcastAdd_same (hadd.trans hselLength.symm) fun qi a b ha hb =>
    (haddRow qi a ha).1.trans (hselRow qi b hb).symm
  have hfull : indexer.fullMask mx cache x (attnMask x.length) =
      broadcastAdd ((attnMask x.length).getD (selMask.map fun row => row.map fun _ => 0)) selMask := by
    rw [fullMask, hsel]
    rfl
  refine ⟨_, hfull.trans hsum, ?_, fun qi hidden hhidden => ?_⟩
  · rw [List.length_zipWith, hadd, hselLength, Nat.min_self]
  · have hqi := (List.getElem?_eq_some_iff.mp hhidden).1
    have haddRow' := List.getElem?_eq_getElem (hqi.trans_eq hadd.symm)
    obtain ⟨hlength, hzero⟩ := haddRow qi _ haddRow'
    have hselRow' := congrArg (·[qi]?) hselMask
    simp only [List.getElem?_mapIdx, hhidden, Option.map_some] at hselRow'
    refine ⟨_, List.getElem?_zipWith_eq_some.mpr ⟨_, _, haddRow', hselRow'.symm, rfl⟩, ?_, fun t => ?_⟩
    · rw [List.length_zipWith, List.length_map, selRow_length, hlength, Nat.min_self]
    · rw [getElem?_add_selection, hzero]

variable [LinearOrder S]

/-- A query that sees a complete block has one of those selected. -/
theorem exists_visible_mem_topBlocks (hmx : Partitions mx) (hsees : 0 < (position + 1) / indexer.compressRatio)
    (hn : (position + 1) / indexer.compressRatio ≤ n) :
    ∃ b < (position + 1) / indexer.compressRatio,
      b ∈ indexer.topBlocks mx (indexer.maskedScores (indexer.pooledBlocks rawKeys n) position q) n := by
  have hlength := indexer.maskedScores_length rawKeys position n q
  rcases Nat.eq_zero_or_pos indexer.blockTopk with hzero | hpos
  · refine ⟨0, hsees, ?_⟩
    have h := hmx (indexer.maskedScores (indexer.pooledBlocks rawKeys n) position q) 0 (by omega)
    have hall : indexer.topBlocks mx (indexer.maskedScores (indexer.pooledBlocks rawKeys n) position q) n =
        mx (indexer.maskedScores (indexer.pooledBlocks rawKeys n) position q) 0 := by
      simp only [topBlocks]
      rw [hzero, Nat.zero_min]
      rfl
    rw [hall, h.mem_iff, hlength]
    omega
  · obtain ⟨h, htop⟩ := indexer.topBlocks_eq hmx hpos (by omega : 0 < (indexer.maskedScores
      (indexer.pooledBlocks rawKeys n) position q).length)
    rw [hlength] at h htop
    obtain ⟨a, ha⟩ : ∃ a, (indexer.visibleScores rawKeys position q)[0]? = some a :=
      ⟨_, List.getElem?_eq_getElem (by rwa [visibleScores_length])⟩
    have hfirst : (indexer.maskedScores (indexer.pooledBlocks rawKeys n) position q)[0]? = some (a : WithBot S) := by
      rw [indexer.getElem?_maskedScores (by omega), ha]
      rfl
    obtain ⟨b, hb, score, hscore, hle⟩ := h.exists_mem_drop (by omega) hfirst
    refine ⟨b, ?_, by rwa [htop]⟩
    by_contra hlater
    have hbn := (List.getElem?_eq_some_iff.mp hscore).1
    rw [hlength] at hbn
    rw [indexer.getElem?_maskedScores hbn, List.getElem?_eq_none (by
      rw [visibleScores_length]
      exact Nat.not_lt.mp hlater)] at hscore
    rw [← Option.some.inj hscore] at hle
    exact absurd (le_bot_iff.mp hle) WithBot.coe_ne_bot

end Masks

end QSAIndexer

/-- There is a mask with a row for each query and a column for each key; it shows a query some keys and none after
it. -/
def CausalMask (mask : Option (List (List MaskEntry))) (kvOffset L : ℕ) : Prop :=
  ∃ rows, mask = some rows ∧ rows.length = L ∧ ∀ (qi : ℕ) (row : List MaskEntry), rows[qi]? = some row →
    row.length = kvOffset + L ∧ (∀ t : ℕ, row[t]? = some 0 → t ≤ kvOffset + qi) ∧ ∃ t : ℕ, row[t]? = some 0

namespace QSAIndexer

variable (indexer : QSAIndexer Hidden Key Query Pooled S)

/-- Before a block is full there is no mask. -/
theorem fullMask_short (mx : List (WithBot S) → ℕ → List ℕ)
    (hshort : cache.offset + x.length < indexer.compressRatio) (mask : Option (List (List MaskEntry))) :
    indexer.fullMask mx cache x mask = none := by
  have hcall : indexer.call mx cache x = none := by
    simp only [call]
    rw [Nat.div_eq_of_lt hshort, if_neg (Nat.lt_irrefl 0)]
  rw [fullMask, hcall]
  rfl

/-- The causal mask of several queries does not fit the selection mask of a later call. -/
theorem fullMask_continued (mx : List (WithBot S) → ℕ → List ℕ) (hoffset : 0 < cache.offset) (hmany : 1 < x.length) :
    indexer.fullMask mx cache x (attnMask x.length) = none := by
  rcases Nat.lt_or_ge (cache.offset + x.length) indexer.compressRatio with hshort | hlong
  · exact indexer.fullMask_short mx hshort _
  · have hfirst : x[0]? = some _ := List.getElem?_eq_getElem (Nat.zero_lt_of_lt hmany)
    obtain ⟨causal, hcausal⟩ : ∃ causal, attnMask x.length = some causal := ⟨_, if_pos hmany⟩
    obtain ⟨-, hrows, hrow⟩ := attnMask_rows hcausal
    have hadd : causal[0]? = some _ := List.getElem?_eq_getElem (by omega)
    have hlength := (hrow 0 _ hadd).1
    rw [fullMask, indexer.call_eq mx hlong, hcausal, Option.bind_eq_bind, Option.bind_some, Option.getD_some]
    refine broadcastAdd_mismatch hadd (by rw [List.getElem?_mapIdx, hfirst, Option.map_some]) ?_ ?_ ?_
    · rw [hlength, List.length_map, selRow_length]
      omega
    · omega
    · rw [List.length_map, selRow_length]
      omega

variable [LinearOrder S]

/-- A call has a mask if and only if it has a complete block of keys and is the first one or of one query. -/
theorem causalMask_iff (hmx : Partitions mx) (hx : x ≠ []) :
    CausalMask (indexer.fullMask mx cache x (attnMask x.length)) cache.offset x.length ↔
      indexer.compressRatio ≤ cache.offset + x.length ∧ (cache.offset = 0 ∨ x.length = 1) := by
  have hpos := indexer.compressRatio_pos
  constructor
  · rintro ⟨rows, hrows, -, -⟩
    constructor
    · by_contra hshort
      rw [indexer.fullMask_short mx (Nat.not_le.mp hshort)] at hrows
      cases hrows
    · by_contra hlater
      have hlength := List.length_pos_iff.mpr hx
      rw [indexer.fullMask_continued mx (by omega) (by omega)] at hrows
      cases hrows
  · rintro ⟨hlong, hcall⟩
    obtain ⟨rows, hmask, hlength, hrows⟩ := indexer.exists_fullMask mx hlong hcall
    refine ⟨rows, hmask, hlength, fun qi row hrow => ?_⟩
    have hqi : qi < x.length := hlength ▸ (List.getElem?_eq_some_iff.mp hrow).1
    obtain ⟨row', hrow', hkeys, hentries⟩ := hrows qi _ (List.getElem?_eq_getElem hqi)
    rw [hrow] at hrow'
    obtain rfl := Option.some.inj hrow'
    refine ⟨hkeys, fun t ht => ((hentries t).mp ht).1, ?_⟩
    have hblocks : (cache.offset + qi + 1) / indexer.compressRatio ≤
        (cache.offset + x.length) / indexer.compressRatio := Nat.div_le_div_right (by omega)
    have htail := Nat.div_mul_le_self (cache.offset + qi + 1) indexer.compressRatio
    rcases Nat.lt_or_ge (cache.offset + qi)
      ((cache.offset + qi + 1) / indexer.compressRatio * indexer.compressRatio) with hwhole | hopen
    · have hsees : 0 < (cache.offset + qi + 1) / indexer.compressRatio :=
        Nat.pos_of_mul_pos_right (Nat.zero_lt_of_lt hwhole)
      obtain ⟨b, hb, htop⟩ := indexer.exists_visible_mem_topBlocks hmx hsees hblocks
      have hend := Nat.mul_le_mul_right indexer.compressRatio hb
      rw [Nat.succ_mul] at hend
      refine ⟨b * indexer.compressRatio, (hentries _).mpr ⟨by omega, ?_⟩⟩
      rw [indexer.getElem?_selRow (by omega), Nat.mul_div_cancel _ hpos]
      exact .inl htop
    · refine ⟨cache.offset + qi, (hentries _).mpr ⟨Nat.le_refl _, ?_⟩⟩
      rw [indexer.getElem?_selRow (by omega)]
      exact .inr ⟨hopen, Nat.le_refl _⟩

/-- Blocks of two keys, two of them selected; a key is its row, a block its sum, a score a product. -/
def pairIndexer : QSAIndexer ℕ ℕ ℕ ℕ ℕ :=
  { tokenBudget := 4
    compressRatio := 2
    compressRatio_pos := Nat.zero_lt_two
    rawKey := id
    query := fun _ hidden => hidden
    pool := fun _ keys => keys.sum
    score := fun q p => q * p }

/-- A partition that sorts. -/
def sortedPartition {T : Type} [LinearOrder T] [Inhabited T] (scores : List T) (_ : ℕ) : List ℕ := argsort scores

theorem sortedPartition_partitions [LinearOrder T] [Inhabited T] : Partitions (sortedPartition (T := T)) :=
  fun scores kth _ => argsort_isArgpartition scores kth

/-- The key cache after some rows of `pairIndexer`. -/
def pairCache (keys : List ℕ) : IndexerCache ℕ := { offset := keys.length, indexerKeys := keys, length_eq := rfl }

/-- A prompt of three tokens has a mask. -/
theorem causalMask_iff_threeTokens :
    CausalMask (pairIndexer.fullMask sortedPartition (pairCache []) [1, 2, 3] (attnMask 3)) 0 3 :=
  (pairIndexer.causalMask_iff sortedPartition_partitions (by decide)).mpr ⟨by decide, .inl rfl⟩

/-- A prompt of one token, shorter than a block, and two tokens after two others have none. -/
theorem fullMask_missing :
    ¬ CausalMask (pairIndexer.fullMask sortedPartition (pairCache []) [1] (attnMask 1)) 0 1 ∧
      ¬ CausalMask (pairIndexer.fullMask sortedPartition (pairCache [1, 2]) [3, 4] (attnMask 2)) 2 2 := by
  constructor
  · rintro ⟨rows, hrows, -⟩
    rw [pairIndexer.fullMask_short sortedPartition (by decide)] at hrows
    cases hrows
  · rintro ⟨rows, hrows, -⟩
    have hnone : pairIndexer.fullMask sortedPartition (pairCache [1, 2]) [3, 4] (attnMask 2) = none :=
      pairIndexer.fullMask_continued sortedPartition (by decide) (by decide)
    rw [hnone] at hrows
    cases hrows

/-- The keys the reference selects for a query: visible blocks and the tail. -/
theorem getElem?_refIndexer (cache : IndexerCache Key) {np : List S → ℕ → List ℕ} (hnp : Partitions np)
    (htopk : 0 < indexer.blockTopk) {qi : ℕ}
    {hidden : Hidden} (hhidden : x[qi]? = some hidden) : ∃ toks, (indexer.refIndexer np cache x)[qi]? = some toks ∧
      ∀ t, t ∈ toks ↔
        t / indexer.compressRatio < (cache.offset + qi + 1) / indexer.compressRatio ∧
            t / indexer.compressRatio ∈ indexer.topBlocks np
              (indexer.visibleScores (indexer.rawKeysFull cache x) (cache.offset + qi)
                (indexer.query (cache.offset + qi) hidden)) ((cache.offset + qi + 1) / indexer.compressRatio) ∨
          (cache.offset + qi + 1) / indexer.compressRatio * indexer.compressRatio ≤ t ∧ t < cache.offset + qi + 1 := by
  have hlength := indexer.visibleScores_length (indexer.rawKeysFull cache x) (cache.offset + qi)
    (indexer.query (cache.offset + qi) hidden)
  simp only [refIndexer]
  refine ⟨_, by rw [List.getElem?_mapIdx, hhidden, Option.map_some], fun t => ?_⟩
  have htail := Nat.div_mul_le_self (cache.offset + qi + 1) indexer.compressRatio
  rw [Nat.add_sub_cancel, List.mem_append, List.mem_range'_1, Nat.add_sub_cancel' htail]
  refine or_congr_left ?_
  split
  next hsees =>
    rw [mem_blockTokens]
    refine ⟨fun ht => ⟨?_, ht⟩, And.right⟩
    obtain ⟨h, htop⟩ := indexer.topBlocks_eq hnp htopk (by omega : 0 < (indexer.visibleScores
      (indexer.rawKeysFull cache x) (cache.offset + qi) (indexer.query (cache.offset + qi) hidden)).length)
    rw [hlength] at h htop
    rw [htop] at ht
    rw [← hlength]
    exact h.mem_iff.mp (List.mem_of_mem_drop ht)
  next hnone =>
    refine ⟨fun ht => absurd ht List.not_mem_nil, fun ⟨ht, _⟩ => ?_⟩
    exact absurd (Nat.zero_lt_of_lt ht) hnone

/-- The keys a query may attend to are the keys the reference selects: the best visible blocks, as many as
`block_topk`, and the tail. -/
theorem fullMask_selects {np : List S → ℕ → List ℕ} (hmx : Partitions mx) (hnp : Partitions np)
    (htopk : 0 < indexer.blockTopk) (hlong : indexer.compressRatio ≤ cache.offset + x.length)
    (hcall : cache.offset = 0 ∨ x.length = 1)
    (hdistinct : ∀ (qi : ℕ) (hidden : Hidden), x[qi]? = some hidden → (indexer.visibleScores
      (indexer.rawKeysFull cache x) (cache.offset + qi) (indexer.query (cache.offset + qi) hidden)).Nodup) :
    ∃ rows, indexer.fullMask mx cache x (attnMask x.length) = some rows ∧ rows.length = x.length ∧
      ∀ (qi : ℕ) (hidden : Hidden), x[qi]? = some hidden → ∃ row toks, rows[qi]? = some row ∧
        (indexer.refIndexer np cache x)[qi]? = some toks ∧ (∀ t : ℕ, row[t]? = some 0 ↔ t ∈ toks) ∧
        ∀ t, t ∈ toks ↔
          (∃ score, (indexer.visibleScores (indexer.rawKeysFull cache x) (cache.offset + qi)
                (indexer.query (cache.offset + qi) hidden))[t / indexer.compressRatio]? = some score ∧
              betterCount (indexer.visibleScores (indexer.rawKeysFull cache x) (cache.offset + qi)
                (indexer.query (cache.offset + qi) hidden)) score <
                  min indexer.blockTopk ((cache.offset + qi + 1) / indexer.compressRatio)) ∨
            (cache.offset + qi + 1) / indexer.compressRatio * indexer.compressRatio ≤ t ∧
              t < cache.offset + qi + 1 := by
  have hpos := indexer.compressRatio_pos
  obtain ⟨rows, hmask, hlength, hrows⟩ := indexer.exists_fullMask mx hlong hcall
  refine ⟨rows, hmask, hlength, fun qi hidden hhidden => ?_⟩
  obtain ⟨row, hrow, -, hentries⟩ := hrows qi hidden hhidden
  obtain ⟨toks, htoks, hmem⟩ := indexer.getElem?_refIndexer cache hnp htopk hhidden
  have hqi := (List.getElem?_eq_some_iff.mp hhidden).1
  have hnodup := hdistinct qi hidden hhidden
  have hblocks : (cache.offset + qi + 1) / indexer.compressRatio ≤
      (cache.offset + x.length) / indexer.compressRatio := Nat.div_le_div_right (by omega)
  have hvisibleLength := indexer.visibleScores_length (indexer.rawKeysFull cache x) (cache.offset + qi)
    (indexer.query (cache.offset + qi) hidden)
  refine ⟨row, toks, hrow, htoks, fun t => ?_, fun t => ?_⟩
  · have htail := Nat.div_mul_le_self (cache.offset + qi + 1) indexer.compressRatio
    rw [hentries, hmem]
    constructor
    · rintro ⟨hle, hsel⟩
      rw [indexer.getElem?_selRow (by omega)] at hsel
      rcases hsel with htop | ⟨hlow, hhigh⟩
      · rcases Nat.lt_or_ge (t / indexer.compressRatio) ((cache.offset + qi + 1) / indexer.compressRatio)
          with hvisible | hlater
        · exact .inl ⟨hvisible, (indexer.mem_topBlocks_maskedScores hmx hnp htopk hblocks hnodup hvisible).mp htop⟩
        · exact .inr ⟨(Nat.le_div_iff_mul_le hpos).mp hlater, by omega⟩
      · exact .inr ⟨hlow, by omega⟩
    · rintro (⟨hvisible, htop⟩ | ⟨hlow, hhigh⟩)
      · have hlt := (Nat.div_lt_iff_lt_mul hpos).mp hvisible
        refine ⟨by omega, ?_⟩
        rw [indexer.getElem?_selRow (by omega)]
        exact .inl ((indexer.mem_topBlocks_maskedScores hmx hnp htopk hblocks hnodup hvisible).mpr htop)
      · refine ⟨by omega, ?_⟩
        rw [indexer.getElem?_selRow (by omega)]
        exact .inr ⟨hlow, by omega⟩
  · rw [hmem]
    refine or_congr_left ?_
    rw [← hvisibleLength]
    constructor
    · rintro ⟨hvisible, htop⟩
      have hscore := List.getElem?_eq_getElem hvisible
      have hcount := (indexer.mem_topBlocks_iff hnp htopk hscore (index_unique hnodup hscore)).mp htop
      exact ⟨_, hscore, Nat.lt_min.mpr ⟨hcount, betterCount_lt_length hscore⟩⟩
    · rintro ⟨score, hscore, hcount⟩
      refine ⟨(List.getElem?_eq_some_iff.mp hscore).1, ?_⟩
      rw [indexer.mem_topBlocks_iff hnp htopk hscore (index_unique hnodup hscore)]
      exact (Nat.lt_min.mp hcount).1

/-- The mask of a token after three others shows it the keys of the reference. -/
theorem fullMask_selects_fourthToken :
    ∃ rows, pairIndexer.fullMask sortedPartition (pairCache [1, 2, 3]) [4] (attnMask 1) = some rows ∧
      rows.length = 1 := by
  obtain ⟨rows, hrows, hlength, -⟩ := pairIndexer.fullMask_selects sortedPartition_partitions
    sortedPartition_partitions (by decide) (by decide : 2 ≤ (pairCache [1, 2, 3]).offset + [4].length) (.inr rfl)
    fun qi hidden hhidden => by
      cases qi with
      | zero =>
        rw [← Option.some.inj hhidden]
        decide
      | succ qi => cases hhidden
  exact ⟨rows, hrows, hlength⟩

end QSAIndexer

end AneLinux.Qwen4
