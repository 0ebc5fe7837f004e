import AneLinux.Qwen4.NGram
import AneLinux.Support.Binary64
import Mathlib.Algebra.BigOperators.Group.List.Basic

/-!
# The range of the n-gram hash

The hash multiplies token ids with odd multipliers, mixes the products by xor and reduces the result for each
head by a prime. A multiplier is below `2 ^ 63 / vocab_size`, so no product of a token id leaves the signed
64-bit range, and a head's ids are its own rows of the table. `hash_in_range` says so for a call on tokens of
any integer type; `ngramIds_eq_wide` says that a call on `int32` tokens is one of those.

`makes` says for which sizes `nn.Embedding` makes a table.
-/

namespace AneLinux.Qwen4

open AneLinux.Support
open AneLinux.Qwen (lastRows)

section Primes

/-- Trial division finds every divisor up to the root. -/
theorem noDivisorFrom_sound {v d : ℕ} (hodd : v % 2 = 1) (hd : d % 2 = 1)
    (hbefore : ∀ m, 2 ≤ m → m < d → ¬ m ∣ v) (h : noDivisorFrom v d = true) :
    ∀ m, 2 ≤ m → m * m ≤ v → ¬ m ∣ v := by
  induction d using noDivisorFrom.induct (v := v) with
  | case1 d hle hmod =>
    rw [noDivisorFrom, if_pos hle, if_pos hmod] at h
    cases h
  | case2 d hle hmod ih =>
    rw [noDivisorFrom, if_pos hle, if_neg hmod] at h
    refine ih (by omega) (fun m hm hlt hdvd => ?_) h
    rcases Nat.lt_trichotomy m d with hless | hsame | hmore
    · exact hbefore m hm hless hdvd
    · rw [hsame] at hdvd
      exact hmod (Nat.mod_eq_zero_of_dvd hdvd)
    · have heven : 2 ∣ v := (Nat.dvd_of_mod_eq_zero (by omega)).trans hdvd
      have := Nat.mod_eq_zero_of_dvd heven
      omega
  | case3 d hgt =>
    intro m hm hsquare
    exact hbefore m hm (Nat.mul_self_lt_mul_self_iff.mp (by omega))

/-- `is_prime` finds primes only. -/
theorem prime_of_isPrime {v : ℕ} (h : isPrime v = true) : v.Prime := by
  unfold isPrime at h
  split at h
  · cases h
  · rename_i htwo
    split at h
    · rw [beq_iff_eq.mp h]
      exact Nat.prime_two
    · rw [Nat.prime_def_le_sqrt]
      refine ⟨Nat.not_lt.mp htwo, fun m hm hsqrt => ?_⟩
      refine noDivisorFrom_sound (by omega) (by decide) (fun m hm hlt hdvd => ?_) h m hm (Nat.le_sqrt.mp hsqrt)
      have hmtwo : m = 2 := by omega
      rw [hmtwo] at hdvd
      have := Nat.mod_eq_zero_of_dvd hdvd
      omega

/-- The chosen sizes are prime. -/
theorem prime_nthPrimeAfter (start count : ℕ) : (nthPrimeAfter start (count + 1)).Prime :=
  prime_of_isPrime (Nat.find_spec (exists_isPrime (nthPrimeAfter start count))).2

/-- The primes after a start increase. -/
theorem nthPrimeAfter_strictMono (start : ℕ) : StrictMono (nthPrimeAfter start) :=
  strictMono_nat_of_lt_succ fun count => lt_nextPrime (nthPrimeAfter start count)

end Primes

namespace NGramEmbedding

variable (embedding : NGramEmbedding)

/-- `self.total_vocab_size`. -/
def totalVocabSize : ℕ := embedding.headVocabSizes.sum

/-- `padded`. -/
def paddedVocabSize (divisor : ℕ) : ℕ := ceilQuotient 1074 embedding.totalVocabSize divisor * divisor

/-- The end of `NGramEmbedding.__init__`: the rows of the table, nothing if a division or `nn.Embedding` raises. -/
def tableRows (makes : ℕ → ℕ → Bool) (embeddingDim divisor : ℕ) : Option ℕ :=
  let ngramHeads := (embedding.ngramSize - 1) * embedding.headsPerNgram
  if ngramHeads = 0 ∨ divisor = 0 then none
  else
    let headDim := embeddingDim / ngramHeads
    let padded := embedding.paddedVocabSize divisor
    if makes padded headDim then some padded else none

/-- `shifted[p].astype(mx.int64) * self.layer_multipliers[p]`, for tokens of any integer type. -/
def wideProduct (shifted : ℕ → ℤ) (p : ℕ) : BitVec 64 :=
  BitVec.ofInt 64 (shifted p) * BitVec.ofNat 64 (embedding.layerMultipliers.getD p 0)

/-- `mixed` after the products up to `p`. -/
def mixedOf (products : ℕ → BitVec 64) (p : ℕ) : BitVec 64 :=
  (List.range p).foldl (fun mixed p => mixed ^^^ products (p + 1)) (products 0)

/-- The ids of one position, from the products there. -/
def idsOf (products : ℕ → BitVec 64) : List ℤ :=
  (List.range (embedding.ngramSize - 1)).flatMap fun k =>
    let ngram := k + 2
    let h0 := (ngram - 2) * embedding.headsPerNgram
    let sizes := (embedding.headVocabSizes.drop h0).take embedding.headsPerNgram
    let offs := (embedding.headOffsets.drop h0).take embedding.headsPerNgram
    List.zipWith (fun (size off : ℕ) => (mixedOf products (ngram - 1)).toInt % size + off) sizes offs

/-- `history`. -/
def wideHistory (previousContext : Option (List ℤ)) (inputIds : List ℤ) : List ℤ :=
  previousContext.getD (List.replicate embedding.contextLen embedding.eosTokenId.toInt) ++ inputIds

/-- `shifted[s]` at a position. -/
def wideShifted (history : List ℤ) (pos s : ℕ) : ℤ :=
  (((List.range embedding.ngramSize).map (shiftRightIgnoreEos embedding.eosTokenId.toInt history)).getD s []).getD pos
    embedding.eosTokenId.toInt

/-- `NGramEmbedding.__call__` on tokens of any integer type: the n-gram ids. -/
def wideNgramIds (previousContext : Option (List ℤ)) (inputIds : List ℤ) : List (List ℤ) :=
  let history := embedding.wideHistory previousContext inputIds
  let rows := (List.range history.length).map fun pos =>
    embedding.idsOf (embedding.wideProduct (embedding.wideShifted history pos))
  lastRows rows inputIds.length

end NGramEmbedding

section Wide

variable {α β : Type} [DecidableEq α] [DecidableEq β]

/-- Shifting commutes with renaming tokens. -/
theorem shiftRightIgnoreEos_map {f : α → β} (hf : Function.Injective f) (eos : α) (ids : List α) (shift : ℕ) :
    shiftRightIgnoreEos (f eos) (ids.map f) shift = (shiftRightIgnoreEos eos ids shift).map f := by
  have hindex : ((ids.map f).mapIdx fun pos id => if id = f eos then (pos : ℤ) else -1) =
      ids.mapIdx fun pos id => if id = eos then (pos : ℤ) else -1 := by
    refine List.ext_getElem? fun i => ?_
    rw [List.getElem?_mapIdx, List.getElem?_mapIdx, List.getElem?_map, Option.map_map]
    refine congrArg (Option.map · ids[i]?) (funext fun id => ?_)
    simp only [Function.comp_apply, hf.eq_iff]
  unfold shiftRightIgnoreEos
  rw [hindex]
  split
  · rfl
  · simp only [List.length_map, List.map_zipWith, List.getD_map, apply_ite f]

omit [DecidableEq α] in
/-- The last rows are rows. -/
theorem mem_of_mem_lastRows {rows : List α} {n : ℕ} {row : α} (h : row ∈ lastRows rows n) : row ∈ rows := by
  unfold lastRows at h
  split at h
  · exact h
  · exact List.mem_of_mem_drop h

/-- Shifting keeps the length. -/
theorem shiftRightIgnoreEos_length (eos : α) (ids : List α) (shift : ℕ) :
    (shiftRightIgnoreEos eos ids shift).length = ids.length := by
  unfold shiftRightIgnoreEos
  split
  · rfl
  · simp only [List.length_zipWith, List.length_range, List.length_cons, List.length_dropLast, cummax_length,
      List.length_mapIdx]
    omega

/-- From `shift` on, a shifted token is one of the tokens; before, it is the end-of-text token. -/
theorem mem_or_eq_of_shiftRightIgnoreEos {eos token : α} {ids : List α} {shift pos : ℕ}
    (h : (shiftRightIgnoreEos eos ids shift)[pos]? = some token) : token ∈ ids ∨ pos < shift ∧ token = eos := by
  unfold shiftRightIgnoreEos at h
  split at h
  · exact .inl (List.mem_of_getElem? h)
  · obtain ⟨pos', m, hrange, hm, htoken⟩ := List.getElem?_zipWith_eq_some.mp h
    obtain ⟨hlt, hpos'⟩ := List.getElem?_eq_some_iff.mp hrange
    rw [List.getElem_range] at hpos'
    rw [List.length_range] at hlt
    subst hpos'
    dsimp only at htoken
    split at htoken
    · rw [List.getD_eq_getElem _ _ (by omega)] at htoken
      rw [← htoken]
      exact .inl (List.getElem_mem _)
    · rcases Nat.lt_or_ge pos shift with hbefore | hpos
      · exact .inr ⟨hbefore, htoken.symm⟩
      · -- the segment of the position ends after the source, so one of the tokens ends a text
        have hle : ((pos - shift : ℕ) : ℤ) ≤ m := by omega
        obtain ⟨q, -, -, hq⟩ := (le_prevEos hm (by omega)).mp hle
        rw [← htoken]
        exact .inl (List.mem_of_getElem? hq)

end Wide

namespace NGramEmbedding

variable (embedding : NGramEmbedding)

/-- A shifted token, read at its position. -/
theorem wideShifted_map (history : List Token) (pos s : ℕ) :
    embedding.wideShifted (history.map BitVec.toInt) pos s =
      ((((List.range embedding.ngramSize).map (shiftRightIgnoreEos embedding.eosTokenId history)).getD s []).getD pos
        embedding.eosTokenId).toInt := by
  have hinj : Function.Injective (BitVec.toInt : Token → ℤ) := fun _ _ => BitVec.eq_of_toInt_eq
  have hlists : (List.range embedding.ngramSize).map
      (shiftRightIgnoreEos embedding.eosTokenId.toInt (history.map BitVec.toInt)) =
        ((List.range embedding.ngramSize).map (shiftRightIgnoreEos embedding.eosTokenId history)).map
          (List.map BitVec.toInt) := by
    rw [List.map_map]
    exact List.map_congr_left fun s _ => shiftRightIgnoreEos_map hinj _ _ s
  rw [wideShifted, hlists]
  have houter := List.getD_map (n := s) (d := [])
    (l := (List.range embedding.ngramSize).map (shiftRightIgnoreEos embedding.eosTokenId history))
    (List.map (BitVec.toInt : Token → ℤ))
  rw [List.map_nil] at houter
  rw [houter, List.getD_map]

/-- A call on `int32` tokens. -/
theorem ngramIds_eq_wide (context : Option (List Token)) (inputIds : List Token) :
    embedding.ngramIds context inputIds =
      embedding.wideNgramIds (context.map fun kept => kept.map BitVec.toInt) (inputIds.map BitVec.toInt) := by
  have hhistory : embedding.wideHistory (context.map fun kept => kept.map BitVec.toInt) (inputIds.map BitVec.toInt) =
      (context.getD (List.replicate embedding.contextLen embedding.eosTokenId) ++ inputIds).map BitVec.toInt := by
    rw [wideHistory, List.map_append]
    cases context with
    | none => rw [Option.map_none, Option.getD_none, Option.getD_none, List.map_replicate]
    | some kept => rfl
  simp only [ngramIds, wideNgramIds]
  rw [hhistory, List.length_map, List.length_map]
  refine congrArg (lastRows · inputIds.length) (List.map_congr_left fun pos _ => ?_)
  refine congrArg embedding.idsOf (funext fun p => ?_)
  rw [wideProduct, embedding.wideShifted_map]
  rfl

section Products

variable (args : NGramArgs) (index : ℕ)

/-- `half_bound`. -/
def halfBound (vocabSize : ℕ) : ℕ := max 1 ((2 ^ 63 - 1) / max vocabSize 1 / 2)

/-- A multiplier stays below its bound. -/
theorem layerMultipliers_lt (p : ℕ) :
    (init args index).layerMultipliers.getD p 0 < 2 * halfBound args.vocabSize := by
  have hpos : 0 < halfBound args.vocabSize := Nat.lt_of_lt_of_le Nat.one_pos (Nat.le_max_left _ _)
  have hmultipliers : (init args index).layerMultipliers =
      (splitmix64List (args.seed + 10007 * index) args.ngramSize).map fun m =>
        2 * (m % halfBound args.vocabSize) + 1 := rfl
  rw [hmultipliers, List.getD_eq_getElem?_getD, List.getElem?_map]
  cases (splitmix64List (args.seed + 10007 * index) args.ngramSize)[p]? with
  | none => exact Nat.mul_pos Nat.two_pos hpos
  | some m =>
    have hmod := Nat.mod_lt m hpos
    rw [Option.map_some, Option.getD_some]
    omega

/-- A token id times a multiplier stays below `2 ^ 63`. -/
theorem mul_layerMultipliers_lt {vocabSize token multiplier : ℕ} (hvocab : vocabSize < 2 ^ 63)
    (htoken : token < vocabSize) (hmultiplier : multiplier < 2 * halfBound vocabSize) :
    token * multiplier < 2 ^ 63 := by
  rcases Nat.lt_or_ge ((2 ^ 63 - 1) / max vocabSize 1 / 2) 1 with hsmall | hlarge
  · rw [halfBound, Nat.max_eq_left hsmall.le] at hmultiplier
    have hle : token * multiplier ≤ token * 1 := Nat.mul_le_mul_left token (by omega)
    omega
  · rw [halfBound, Nat.max_eq_right hlarge, Nat.max_eq_left (by omega)] at hmultiplier
    have hbound : multiplier ≤ (2 ^ 63 - 1) / vocabSize := by omega
    calc token * multiplier ≤ vocabSize * ((2 ^ 63 - 1) / vocabSize) := Nat.mul_le_mul htoken.le hbound
      _ ≤ 2 ^ 63 - 1 := Nat.mul_div_le _ _
      _ < 2 ^ 63 := by decide

/-- The product of a token id is the exact one. -/
theorem wideProduct_toInt {shifted : ℕ → ℤ} {p : ℕ} (hvocab : args.vocabSize < 2 ^ 63)
    (h0 : 0 ≤ shifted p) (hlt : shifted p < args.vocabSize) :
    ((init args index).wideProduct shifted p).toInt = shifted p * (init args index).layerMultipliers.getD p 0 ∧
      shifted p * (init args index).layerMultipliers.getD p 0 < 2 ^ 63 := by
  obtain ⟨token, htoken⟩ := Int.eq_ofNat_of_zero_le h0
  have hmul := mul_layerMultipliers_lt hvocab (by omega : token < args.vocabSize) (layerMultipliers_lt args index p)
  unfold wideProduct
  rw [htoken, BitVec.ofInt_natCast, ← BitVec.ofNat_mul]
  generalize (init args index).layerMultipliers.getD p 0 = multiplier at hmul ⊢
  rw [BitVec.toInt_eq_toNat_of_lt]
  · rw [BitVec.toNat_ofNat, Nat.mod_eq_of_lt (by omega)]
    exact ⟨Int.natCast_mul _ _, by exact_mod_cast hmul⟩
  · rw [BitVec.toNat_ofNat, Nat.mod_eq_of_lt (by omega)]
    omega

end Products

section Heads

/-- Groups of one width, laid end to end. -/
theorem length_flatMap_range {β : Type} {g : ℕ → List β} {width : ℕ} (n : ℕ)
    (hg : ∀ k < n, (g k).length = width) : ((List.range n).flatMap g).length = n * width := by
  induction n with
  | zero => rw [Nat.zero_mul]; rfl
  | succ n ih =>
    rw [List.range_succ, List.flatMap_append, List.length_append, List.flatMap_singleton, hg n (Nat.lt_succ_self n),
      ih fun k hk => hg k (Nat.lt_succ_of_lt hk), Nat.succ_mul]

/-- Blocks of one width, one after another. -/
theorem getElem?_flatMap_range {β : Type} {g : ℕ → List β} {width n k j : ℕ}
    (hg : ∀ k < n, (g k).length = width) (hk : k < n) (hj : j < width) :
    ((List.range n).flatMap g)[k * width + j]? = (g k)[j]? := by
  induction n with
  | zero => exact absurd hk (Nat.not_lt_zero k)
  | succ n ih =>
    have hlength := length_flatMap_range n fun k hk => hg k (Nat.lt_succ_of_lt hk)
    rw [List.range_succ, List.flatMap_append, List.flatMap_singleton]
    rcases Nat.lt_or_ge k n with hlt | hge
    · have hstep := Nat.mul_le_mul_right width hlt
      rw [Nat.succ_mul] at hstep
      rw [List.getElem?_append_left (by omega)]
      exact ih (fun k hk => hg k (Nat.lt_succ_of_lt hk)) hlt
    · have hsame : k = n := by omega
      subst hsame
      rw [List.getElem?_append_right (by omega), hlength, Nat.add_sub_cancel_left]

/-- An offset is the sum of the sizes before it. -/
theorem getElem?_offsets (sizes : List ℕ) (off h : ℕ) :
    (offsets off sizes)[h]? = sizes[h]?.map fun _ => off + (sizes.take h).sum := by
  induction sizes generalizing off h with
  | nil => rfl
  | cons size rest ih =>
    cases h with
    | zero => rw [offsets, List.getElem?_cons_zero, List.getElem?_cons_zero, List.take_zero]; rfl
    | succ h =>
      rw [offsets, List.getElem?_cons_succ, List.getElem?_cons_succ, ih, List.take_succ_cons, List.sum_cons,
        Nat.add_assoc]

theorem offsets_length (sizes : List ℕ) (off : ℕ) : (offsets off sizes).length = sizes.length := by
  induction sizes generalizing off with
  | nil => rfl
  | cons size rest ih => rw [offsets, List.length_cons, List.length_cons, ih]

/-- An entry ends inside the whole. -/
theorem sum_take_add_le {sizes : List ℕ} {h size : ℕ} (hsize : sizes[h]? = some size) :
    (sizes.take h).sum + size ≤ sizes.sum := by
  have hsplit := List.sum_take_add_sum_drop sizes (h + 1)
  rw [List.take_add_one, hsize, Option.toList_some, List.sum_append, List.sum_singleton] at hsplit
  exact hsplit ▸ Nat.le_add_right _ _

variable {products : ℕ → BitVec 64} {h size off : ℕ}

/-- A table of the heads, one block for each n-gram length. -/
theorem length_headBlock {xs : List ℕ} {k : ℕ}
    (hxs : xs.length = (embedding.ngramSize - 1) * embedding.headsPerNgram) (hk : k < embedding.ngramSize - 1) :
    ((xs.drop ((k + 2 - 2) * embedding.headsPerNgram)).take embedding.headsPerNgram).length =
      embedding.headsPerNgram := by
  have hstep := Nat.mul_le_mul_right embedding.headsPerNgram hk
  rw [Nat.succ_mul] at hstep
  rw [List.length_take, List.length_drop, hxs, Nat.add_sub_cancel]
  omega

section

variable (hsizes : embedding.headVocabSizes.length = (embedding.ngramSize - 1) * embedding.headsPerNgram)
  (hoffs : embedding.headOffsets.length = (embedding.ngramSize - 1) * embedding.headsPerNgram)

include hsizes hoffs

/-- One id for each head and each order. -/
theorem length_idsOf :
    (embedding.idsOf products).length = (embedding.ngramSize - 1) * embedding.headsPerNgram := by
  refine length_flatMap_range _ fun k hk => ?_
  rw [List.length_zipWith, embedding.length_headBlock hsizes hk, embedding.length_headBlock hoffs hk, Nat.min_self]

/-- The id of a head. -/
theorem getElem?_idsOf (hsize : embedding.headVocabSizes[h]? = some size)
    (hoff : embedding.headOffsets[h]? = some off) : (embedding.idsOf products)[h]? =
      some ((mixedOf products (h / embedding.headsPerNgram + 1)).toInt % size + off) := by
  obtain ⟨hlt, -⟩ := List.getElem?_eq_some_iff.mp hsize
  rw [hsizes] at hlt
  have hheads : 0 < embedding.headsPerNgram := Nat.pos_of_ne_zero fun hzero => by
    rw [hzero, Nat.mul_zero] at hlt
    exact Nat.not_lt_zero h hlt
  have hk : h / embedding.headsPerNgram < embedding.ngramSize - 1 := (Nat.div_lt_iff_lt_mul hheads).mpr hlt
  have hj : h % embedding.headsPerNgram < embedding.headsPerNgram := Nat.mod_lt h hheads
  have hplace : h / embedding.headsPerNgram * embedding.headsPerNgram + h % embedding.headsPerNgram = h :=
    Nat.div_add_mod' h embedding.headsPerNgram
  have hread {xs : List ℕ} : ((xs.drop ((h / embedding.headsPerNgram + 2 - 2) * embedding.headsPerNgram)).take
      embedding.headsPerNgram)[h % embedding.headsPerNgram]? = xs[h]? := by
    rw [List.getElem?_take_of_lt hj, List.getElem?_drop, Nat.add_sub_cancel, hplace]
  have hblock := getElem?_flatMap_range (g := fun k => List.zipWith (fun (size off : ℕ) =>
      (mixedOf products (k + 2 - 1)).toInt % size + off)
        ((embedding.headVocabSizes.drop ((k + 2 - 2) * embedding.headsPerNgram)).take embedding.headsPerNgram)
        ((embedding.headOffsets.drop ((k + 2 - 2) * embedding.headsPerNgram)).take embedding.headsPerNgram))
      (fun k hk => by
        rw [List.length_zipWith, embedding.length_headBlock hsizes hk, embedding.length_headBlock hoffs hk,
          Nat.min_self]) hk hj
  rw [hplace, List.getElem?_zipWith, hread, hread, hsize, hoff] at hblock
  exact hblock

end

end Heads

section Init

variable (args : NGramArgs) (index : ℕ)

theorem init_headVocabSizes_length :
    (init args index).headVocabSizes.length = (args.ngramSize - 1) * args.headsPerNgram := by
  rw [init, List.length_map, List.length_range]

theorem init_headOffsets_length :
    (init args index).headOffsets.length = (args.ngramSize - 1) * args.headsPerNgram :=
  (offsets_length _ 0).trans (init_headVocabSizes_length args index)

/-- The head sizes of the first PLE layers. -/
def allHeadVocabSizes (layers : ℕ) : List ℕ :=
  (List.range layers).flatMap fun index => (init args index).headVocabSizes

/-- The heads of all layers count the primes from the base on. -/
theorem allHeadVocabSizes_eq (layers : ℕ) :
    allHeadVocabSizes args layers = (List.range (layers * ((args.ngramSize - 1) * args.headsPerNgram))).map
      fun i => nthPrimeAfter (args.ngramVocabSizeBase - 1) (i + 1) := by
  induction layers with
  | zero => rw [Nat.zero_mul]; rfl
  | succ layers ih =>
    rw [allHeadVocabSizes, List.range_succ, List.flatMap_append, ← allHeadVocabSizes, ih, Nat.succ_mul,
      List.range_add, List.map_append, List.map_map, List.flatMap_singleton]
    rfl

/-- No two heads share a table size. -/
theorem allHeadVocabSizes_nodup (layers : ℕ) : (allHeadVocabSizes args layers).Nodup := by
  rw [allHeadVocabSizes_eq]
  refine List.Nodup.map (fun i j hij => ?_) List.nodup_range
  exact Nat.succ_injective ((nthPrimeAfter_strictMono _).injective hij)

/-- Each table size is a prime at or above the base. -/
theorem prime_of_mem_allHeadVocabSizes {layers size : ℕ} (h : size ∈ allHeadVocabSizes args layers) :
    size.Prime ∧ args.ngramVocabSizeBase ≤ size := by
  rw [allHeadVocabSizes_eq] at h
  obtain ⟨i, -, rfl⟩ := List.mem_map.mp h
  have hlt := lt_nthPrimeAfter (args.ngramVocabSizeBase - 1) i
  exact ⟨prime_nthPrimeAfter _ i, by omega⟩

/-- The ids of a head lie in its rows, and its rows lie among those of all heads. -/
theorem id_in_head {products : ℕ → BitVec 64} {h : ℕ} {id : ℤ}
    (hid : ((init args index).idsOf products)[h]? = some id) :
    ∃ off size : ℕ, (init args index).headOffsets[h]? = some off ∧
      (init args index).headVocabSizes[h]? = some size ∧ (off : ℤ) ≤ id ∧ id < off + size ∧
        off + size ≤ (init args index).totalVocabSize := by
  obtain ⟨hlt, -⟩ := List.getElem?_eq_some_iff.mp hid
  have hsizes := init_headVocabSizes_length args index
  have hoffs := init_headOffsets_length args index
  have hheads : h < (init args index).headVocabSizes.length := by
    rw [hsizes]
    rwa [(init args index).length_idsOf hsizes hoffs] at hlt
  obtain ⟨size, hsize⟩ : ∃ size, (init args index).headVocabSizes[h]? = some size :=
    ⟨_, List.getElem?_eq_getElem hheads⟩
  have hoff : (init args index).headOffsets[h]? = some ((init args index).headVocabSizes.take h).sum := by
    have := getElem?_offsets (init args index).headVocabSizes 0 h
    rw [hsize, Option.map_some, Nat.zero_add] at this
    exact this
  have hpos : 0 < size := by
    have hmem : size ∈ allHeadVocabSizes args (index + 1) :=
      List.mem_flatMap.mpr ⟨index, List.mem_range.mpr (Nat.lt_succ_self index), List.mem_of_getElem? hsize⟩
    exact (prime_of_mem_allHeadVocabSizes args hmem).1.pos
  rw [(init args index).getElem?_idsOf hsizes hoffs hsize hoff] at hid
  have hid := Option.some.inj hid
  generalize (mixedOf products (h / (init args index).headsPerNgram + 1)).toInt = mixed at hid
  have hlow := Int.emod_nonneg mixed (by omega : (size : ℤ) ≠ 0)
  have hhigh := Int.emod_lt_of_pos mixed (by omega : 0 < (size : ℤ))
  exact ⟨_, size, hoff, hsize, by omega, by omega, sum_take_add_le hsize⟩

/-- A table that was made has a row for every id. -/
theorem totalVocabSize_le_tableRows {makes : ℕ → ℕ → Bool}
    (hmakes : ∀ rows dims, makes rows dims = true → 0 < rows ∧ rows < 2 ^ 53) {embeddingDim divisor rows : ℕ}
    (h : embedding.tableRows makes embeddingDim divisor = some rows) : embedding.totalVocabSize ≤ rows := by
  simp only [tableRows] at h
  split at h
  · cases h
  · split at h
    next hmade =>
      obtain ⟨hpos, hsmall⟩ := hmakes _ _ hmade
      rw [← Option.some.inj h]
      exact le_ceilQuotient_mul (by decide) hpos hsmall
    next => cases h

/-- The tokens a call reads at its positions are tokens of the history, or the end-of-text token before it. -/
theorem wideShifted_mem {history : List ℤ} {pos s : ℕ} (hs : s < embedding.ngramSize)
    (hpos : pos < history.length) : embedding.wideShifted history pos s ∈ history ∨
      pos < s ∧ embedding.wideShifted history pos s = embedding.eosTokenId.toInt := by
  have hlist : ((List.range embedding.ngramSize).map
      (shiftRightIgnoreEos embedding.eosTokenId.toInt history)).getD s [] =
        shiftRightIgnoreEos embedding.eosTokenId.toInt history s := by
    rw [List.getD_eq_getElem?_getD, List.getElem?_map, List.getElem?_range hs]
    rfl
  have hlt : pos < (shiftRightIgnoreEos embedding.eosTokenId.toInt history s).length := by
    rwa [shiftRightIgnoreEos_length]
  rw [wideShifted, hlist, List.getD_eq_getElem _ _ hlt]
  exact mem_or_eq_of_shiftRightIgnoreEos (List.getElem?_eq_getElem hlt)

end Init

/-- The n-gram hash stays in range: the products of a call on token ids are exact, its ids are rows of their heads
and of the table, and the heads of all layers have different primes. A product before the first token of the history
is one of the end-of-text token, which need not be below the size of the vocabulary. -/
theorem hash_in_range {makes : ℕ → ℕ → Bool}
    (hmakes : ∀ rows dims, makes rows dims = true → 0 < rows ∧ rows < 2 ^ 53)
    (args : NGramArgs) (hvocab : args.vocabSize < 2 ^ 63) :
    (∀ (index : ℕ) (context : Option (List ℤ)) (inputIds : List ℤ),
      (∀ token ∈ (init args index).wideHistory context inputIds, 0 ≤ token ∧ token < args.vocabSize) →
      (∀ pos p, pos < ((init args index).wideHistory context inputIds).length → p < args.ngramSize →
        (p ≤ pos ∨ 0 ≤ args.eosTokenId.toInt ∧ args.eosTokenId.toInt < args.vocabSize) →
        let shifted := (init args index).wideShifted ((init args index).wideHistory context inputIds) pos
        let multiplier := (init args index).layerMultipliers.getD p 0
        ((init args index).wideProduct shifted p).toInt = shifted p * multiplier ∧
          -2 ^ 63 ≤ shifted p * multiplier ∧ shifted p * multiplier < 2 ^ 63) ∧
      ∀ row ∈ (init args index).wideNgramIds context inputIds, ∀ (h : ℕ) (id : ℤ), row[h]? = some id →
        (∃ off size : ℕ, (init args index).headOffsets[h]? = some off ∧
          (init args index).headVocabSizes[h]? = some size ∧ (off : ℤ) ≤ id ∧ id < off + size) ∧
        ∀ embeddingDim divisor rows, (init args index).tableRows makes embeddingDim divisor = some rows → id < rows) ∧
    ∀ layers, (allHeadVocabSizes args layers).Nodup ∧
      ∀ size ∈ allHeadVocabSizes args layers, size.Prime ∧ args.ngramVocabSizeBase ≤ size := by
  refine ⟨fun index context inputIds htokens => ⟨fun pos p hlt hp hreach => ?_, fun row hrow h id hid => ?_⟩,
    fun layers => ⟨allHeadVocabSizes_nodup args layers, fun size => prime_of_mem_allHeadVocabSizes args⟩⟩
  · intro shifted multiplier
    have htoken : 0 ≤ shifted p ∧ shifted p < args.vocabSize := by
      rcases (init args index).wideShifted_mem hp hlt with hmem | ⟨hbefore, heos⟩
      · exact htokens _ hmem
      · change shifted p = args.eosTokenId.toInt at heos
        rw [heos]
        exact hreach.resolve_left (Nat.not_le.mpr hbefore)
    obtain ⟨h0, hbelow⟩ := htoken
    obtain ⟨hexact, hsmall⟩ := wideProduct_toInt args index hvocab h0 hbelow
    refine ⟨hexact, ?_, hsmall⟩
    have hnonneg : 0 ≤ shifted p * multiplier := Int.mul_nonneg h0 (Int.natCast_nonneg _)
    omega
  · have hids : ∃ products, row = (init args index).idsOf products := by
      obtain ⟨pos, -, hpos⟩ := List.mem_map.mp (mem_of_mem_lastRows hrow)
      exact ⟨_, hpos.symm⟩
    obtain ⟨products, rfl⟩ := hids
    obtain ⟨off, size, hoff, hsize, hlow, hhigh, htotal⟩ := id_in_head args index hid
    refine ⟨⟨off, size, hoff, hsize, hlow, hhigh⟩, fun embeddingDim divisor rows hrows => ?_⟩
    have hle := (init args index).totalVocabSize_le_tableRows hmakes hrows
    omega

/-- Bigrams of a vocabulary of five tokens, with one head. -/
def bigramArgs : NGramArgs :=
  { ngramSize := 2, headsPerNgram := 1, vocabSize := 5, seed := 0, ngramVocabSizeBase := 2, eosTokenId := 0#32 }

theorem bigram_headVocabSizes : (init bigramArgs 0).headVocabSizes = [2] :=
  congrArg (fun size : ℕ => [size]) (nextPrime_eq (p := 1) (by decide) Nat.prime_two (by omega))

/-- Tables of fewer than `2 ^ 31` rows. -/
def smallTables (rows _ : ℕ) : Bool := decide (0 < rows ∧ rows < 2 ^ 31)

theorem bigram_tableRows : (init bigramArgs 0).tableRows smallTables 8 128 = some 128 := by
  have hpadded : (init bigramArgs 0).paddedVocabSize 128 = 128 := by
    rw [paddedVocabSize, totalVocabSize, bigram_headVocabSizes]
    decide +kernel
  simp only [tableRows, hpadded]
  decide

theorem smallTables_rows (rows dims : ℕ) (h : smallTables rows dims = true) : 0 < rows ∧ rows < 2 ^ 53 := by
  have hrows : 0 < rows ∧ rows < 2 ^ 31 := of_decide_eq_true h
  omega

/-- The ids of two tokens, in a table of 128 rows. -/
theorem hash_in_range_bigrams : (((init bigramArgs 0).wideNgramIds none [3, 4]).all fun row =>
    row.all fun id => decide (id < 128)) = true := by
  refine List.all_eq_true.mpr fun row hrow => List.all_eq_true.mpr fun id hid => ?_
  obtain ⟨h, hid⟩ := List.getElem?_of_mem hid
  apply decide_eq_true
  exact (((hash_in_range smallTables_rows bigramArgs (by decide)).1 0 none [3, 4] (by decide)).2 row hrow h id
    hid).2 8 128 128 bigram_tableRows

end NGramEmbedding

end AneLinux.Qwen4
