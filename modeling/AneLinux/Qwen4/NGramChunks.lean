import AneLinux.Qwen4.NGram
import Mathlib.Tactic.IntervalCases
import Mathlib.Tactic.NormNum.Prime

/-!
# The n-gram ids of a sequence that arrives in calls

What came before a short call is lost for the calls after it, since a call stores its own tokens only. The ids
of a split sequence are those of a single call exactly when every call between two others is long enough or
cut off by an end-of-sequence token. For one direction the views agree behind every token; for the other, there
are arguments under which different views have different ids.
-/

namespace AneLinux.Qwen4

open AneLinux.Support
open AneLinux.Qwen (lastRows)

/-- Every call between two others has `ngram_size - 1` tokens or an end-of-sequence token, or nothing else than
such a token comes right before it. -/
def Carried (ngramSize : ℕ) (eos : Token) (calls : List (List Token)) : Prop :=
  ∀ before call next after, calls = before ++ call :: next :: after →
    ngramSize - 1 ≤ call.length ∨ eos ∈ call ∨ ∀ token ∈ before.flatten.getLast?, token = eos

/-- When a call hides all that came before. -/
theorem covers_iff {n : ℕ} {eos : Token} {call before : List Token} :
    Covers (· == eos) n call.reverse before.reverse ↔
      n ≤ call.length ∨ eos ∈ call ∨ ∀ token ∈ before.getLast?, token = eos := by
  unfold Covers
  rw [List.length_reverse, List.head?_reverse]
  refine or_congr_right (or_congr ⟨?_, fun h => ⟨eos, List.mem_reverse.mpr h, beq_self_eq_true eos⟩⟩ ?_)
  · rintro ⟨a, ha, hstop⟩
    exact beq_iff_eq.mp hstop ▸ List.mem_reverse.mp ha
  · exact forall_congr' fun token => imp_congr_right fun _ => beq_iff_eq

namespace NGramEmbedding

variable {args : NGramArgs} {pleLayerIndex : ℕ}

/-- A context shows as much as the tokens it stands for, behind every later token. -/
def Shows (embedding : NGramEmbedding) (context : Option (List Token)) (past : List Token) : Prop :=
  ∀ recent, lookback (· == embedding.eosTokenId) (embedding.ngramSize - 1) (recent ++ embedding.contextPast context) =
    lookback (· == embedding.eosTokenId) (embedding.ngramSize - 1) (recent ++ past)

/-- The padding of a first call shows nothing. -/
theorem shows_none (embedding : NGramEmbedding) : embedding.Shows none [] := by
  intro recent
  rw [contextPast, Option.getD_none, List.reverse_replicate, List.append_nil]
  refine lookback_append_stops fun a ha => ?_
  rw [List.eq_of_mem_replicate ha]
  exact beq_self_eq_true embedding.eosTokenId

/-- What a call stores shows its own tokens. -/
theorem shows_tail (hsize : 2 ≤ args.ngramSize) (call : List Token) :
    (init args pleLayerIndex).Shows (some ((init args pleLayerIndex).tail call)) call.reverse := by
  have hlast : (lastRows call (args.ngramSize - 1)).reverse = call.reverse.take (args.ngramSize - 1) := by
    rw [lastRows, if_neg (by omega), List.take_reverse]
  intro recent
  change lookback (· == args.eosTokenId) (args.ngramSize - 1)
      (recent ++ ((init args pleLayerIndex).tail call).reverse) =
    lookback (· == args.eosTokenId) (args.ngramSize - 1) (recent ++ call.reverse)
  unfold tail
  split
  · change lookback _ _
      (recent ++ (List.replicate _ args.eosTokenId ++ lastRows call (args.ngramSize - 1)).reverse) = _
    rw [List.reverse_append, hlast, ← List.append_assoc, lookback_append_stops, lookback_append_take]
    intro a ha
    rw [List.eq_of_mem_replicate (List.mem_reverse.mp ha)]
    exact beq_self_eq_true args.eosTokenId
  · change lookback _ _ (recent ++ (lastRows call (args.ngramSize - 1)).reverse) = _
    rw [hlast, lookback_append_take]

/-- Where every call that is followed by another is covered, the calls scan the sequence. -/
theorem runCalls_eq_of_carried (hsize : 2 ≤ args.ngramSize) {context : Option (List Token)}
    (before calls : List (List Token)) (hcalls : ∀ call ∈ calls, call ≠ [])
    (hshows : calls ≠ [] → (init args pleLayerIndex).Shows context before.flatten.reverse)
    (hcarried : Carried args.ngramSize args.eosTokenId (before ++ calls)) :
    (init args pleLayerIndex).runCalls context calls =
      (init args pleLayerIndex).scanIds before.flatten.reverse calls.flatten := by
  induction calls generalizing before context with
  | nil => rfl
  | cons call rest ih =>
    have hfirst : (init args pleLayerIndex).ngramIds context call =
        (init args pleLayerIndex).scanIds before.flatten.reverse call := by
      rw [ngramIds_eq _ context (hcalls call List.mem_cons_self)]
      exact scanBack_congr (hshows (List.cons_ne_nil _ _)) call
    have hflatten : (before ++ [call]).flatten.reverse = call.reverse ++ before.flatten.reverse := by
      rw [List.flatten_append, List.flatten_singleton, List.reverse_append]
    have hnext : rest ≠ [] → (init args pleLayerIndex).Shows (some ((init args pleLayerIndex).tail call))
        (before ++ [call]).flatten.reverse := by
      intro hrest recent
      obtain ⟨next, after, rfl⟩ := List.exists_cons_of_ne_nil hrest
      have hcovers := covers_iff.mpr (hcarried before call next after rfl)
      rw [hflatten]
      exact (shows_tail hsize call recent).trans (lookback_of_covers hcovers).symm
    rw [runCalls, hfirst, ih (before ++ [call]) (fun c hc => hcalls c (List.mem_cons_of_mem _ hc)) hnext
      (by rw [← List.append_cons]; exact hcarried), hflatten, List.flatten_cons, scanIds, scanBack_append]

end NGramEmbedding

section Telling

/-- Arguments under which the ids tell the tokens apart: the vocabulary is so large that every multiplier is one,
and the head sizes lie above every difference of two tokens. -/
def tellingArgs (ngramSize : ℕ) (eosTokenId : Token) : NGramArgs where
  ngramSize
  headsPerNgram := 1
  vocabSize := 2 ^ 63
  seed := 0
  ngramVocabSizeBase := 2 ^ 33
  eosTokenId

/-- The tokens up to `p`, combined without multipliers. -/
def mixedTokens (shifted : ℕ → Token) (p : ℕ) : Token :=
  (List.range p).foldl (fun mixed p => mixed ^^^ shifted (p + 1)) (shifted 0)

theorem mixedTokens_succ (shifted : ℕ → Token) (p : ℕ) :
    mixedTokens shifted (p + 1) = mixedTokens shifted p ^^^ shifted (p + 1) := by
  rw [mixedTokens, List.range_succ, List.foldl_append]
  rfl

theorem mixed_succ (embedding : NGramEmbedding) (shifted : ℕ → Token) (p : ℕ) : embedding.mixed shifted (p + 1) =
    embedding.mixed shifted p ^^^ embedding.product shifted (p + 1) := by
  rw [NGramEmbedding.mixed, List.range_succ, List.foldl_append]
  rfl

variable {n : ℕ} {eos : Token} {shifted shifted' : ℕ → Token}

/-- The telling embedding multiplies by one. -/
theorem telling_product {p : ℕ} (hp : p < n) :
    (NGramEmbedding.init (tellingArgs n eos) 0).product shifted p = (shifted p).signExtend 64 := by
  have hmult : (NGramEmbedding.init (tellingArgs n eos) 0).layerMultipliers.getD p 0 = 1 := by
    change (((splitmix64List _ n).map fun m => 2 * (m % max 1 ((2 ^ 63 - 1) / max (2 ^ 63) 1 / 2)) + 1)).getD p 0 = 1
    rw [List.getD_eq_getElem?_getD, List.getElem?_map, splitmix64List, List.getElem?_map, List.getElem?_range hp]
    change 2 * (_ % max 1 ((2 ^ 63 - 1) / max (2 ^ 63) 1 / 2)) + 1 = 1
    rw [show max 1 ((2 ^ 63 - 1) / max (2 ^ 63) 1 / 2) = 1 by decide, Nat.mod_one]
  rw [NGramEmbedding.product, hmult, BitVec.mul_one]

/-- So its mix is the plain xor. -/
theorem telling_mixed {p : ℕ} (hp : p < n) : (NGramEmbedding.init (tellingArgs n eos) 0).mixed shifted p =
    (mixedTokens shifted p).signExtend 64 := by
  induction p with
  | zero => exact telling_product hp
  | succ p ih =>
    rw [mixed_succ, ih (Nat.lt_of_succ_lt hp), telling_product hp, mixedTokens_succ, BitVec.signExtend_xor]

/-- Tokens that agree modulo a number above every difference of two tokens are equal. -/
theorem eq_of_emod_eq {x y : Token} {size : ℕ} (hsize : 2 ^ 33 ≤ size)
    (h : (x.signExtend 64).toInt % (size : ℤ) = (y.signExtend 64).toInt % (size : ℤ)) : x = y := by
  rw [BitVec.toInt_signExtend_of_le (by decide), BitVec.toInt_signExtend_of_le (by decide)] at h
  have hdvd : (size : ℤ) ∣ x.toInt - y.toInt := Int.dvd_of_emod_eq_zero (Int.emod_eq_emod_iff_emod_sub_eq_zero.mp h)
  have hx := x.toInt_lt
  have hx' := x.le_toInt
  have hy := y.toInt_lt
  have hy' := y.le_toInt
  have hsmall : (x.toInt - y.toInt).natAbs < (size : ℤ).natAbs := by omega
  exact BitVec.toInt_inj.mp (Int.sub_eq_zero.mp (Int.eq_zero_of_dvd_of_natAbs_lt_natAbs hdvd hsmall))

theorem offsets_length (off : ℕ) (sizes : List ℕ) : (offsets off sizes).length = sizes.length := by
  induction sizes generalizing off with
  | nil => rfl
  | cons size sizes ih => rw [offsets, List.length_cons, List.length_cons, ih]

theorem take_one_drop {xs : List ℕ} {k : ℕ} {x : ℕ} (h : xs[k]? = some x) : (xs.drop k).take 1 = [x] := by
  obtain ⟨hk, rfl⟩ := List.getElem?_eq_some_iff.mp h
  rw [List.drop_eq_getElem_cons hk]
  rfl

/-- The ids of a position are one id for each n-gram size. -/
theorem telling_idsAt : ∃ sizes offs : ℕ → ℕ, (∀ k, 2 ^ 33 ≤ sizes k) ∧ ∀ shifted,
    (NGramEmbedding.init (tellingArgs n eos) 0).idsAt shifted = (List.range (n - 1)).map fun k =>
      ((mixedTokens shifted (k + 1)).signExtend 64).toInt % sizes k + offs k := by
  let embedding := NGramEmbedding.init (tellingArgs n eos) 0
  refine ⟨fun k => nthPrimeAfter (2 ^ 33 - 1) (k + 1), fun k => embedding.headOffsets.getD k 0, fun k => ?_,
    fun shifted => ?_⟩
  · exact Nat.le_of_pred_lt (lt_nthPrimeAfter (2 ^ 33 - 1) k)
  · change (List.range (n - 1)).flatMap (fun k => List.zipWith
      (fun (size off : ℕ) => (embedding.mixed shifted (k + 1)).toInt % size + off)
      ((embedding.headVocabSizes.drop (k * 1)).take 1) ((embedding.headOffsets.drop (k * 1)).take 1)) = _
    rw [List.map_eq_flatMap]
    refine List.flatMap_congr fun k hk => ?_
    have hk : k < n - 1 := List.mem_range.mp hk
    have hsize : embedding.headVocabSizes[k]? = some (nthPrimeAfter (2 ^ 33 - 1) (k + 1)) := by
      change ((List.range ((n - 1) * 1)).map fun h => nthPrimeAfter (2 ^ 33 - 1) (0 * ((n - 1) * 1) + h + 1))[k]? = _
      rw [Nat.mul_one, List.getElem?_map, List.getElem?_range hk, Option.map_some, Nat.zero_mul, Nat.zero_add]
    have hoff : embedding.headOffsets[k]? = some (embedding.headOffsets.getD k 0) := by
      have hlength : embedding.headOffsets.length = embedding.headVocabSizes.length := offsets_length 0 _
      have hlt : k < embedding.headOffsets.length := hlength ▸ (List.getElem?_eq_some_iff.mp hsize).1
      rw [List.getD_eq_getElem?_getD, List.getElem?_eq_getElem hlt, Option.getD_some]
    rw [Nat.mul_one, take_one_drop hsize, take_one_drop hoff, telling_mixed (by omega)]
    rfl

/-- Equal ids of equal tokens have equal shifted tokens. -/
theorem telling_shifted_eq (hzero : shifted 0 = shifted' 0) (hids :
    (NGramEmbedding.init (tellingArgs n eos) 0).idsAt shifted =
      (NGramEmbedding.init (tellingArgs n eos) 0).idsAt shifted') {s : ℕ} (hs : s < n) : shifted s = shifted' s := by
  obtain ⟨sizes, offs, hsizes, hmap⟩ := telling_idsAt
  have hmixed : ∀ p < n, mixedTokens shifted p = mixedTokens shifted' p := by
    intro p hp
    cases p with
    | zero => exact hzero
    | succ k =>
      rw [hmap, hmap] at hids
      have hk := List.map_inj_left.mp hids k (List.mem_range.mpr (by omega))
      exact eq_of_emod_eq (hsizes k) (add_right_cancel hk)
  cases s with
  | zero => exact hzero
  | succ k =>
    have hstep := hmixed (k + 1) hs
    rw [mixedTokens_succ, mixedTokens_succ, hmixed k (by omega)] at hstep
    have hcancel := congrArg (mixedTokens shifted' k ^^^ ·) hstep
    simpa only [← BitVec.xor_assoc, BitVec.xor_self, BitVec.zero_xor] using hcancel

/-- Views are told apart by what they show. -/
theorem view_eq_of_viewed {past past' : List Token} {token : Token} (h : ∀ s < n,
    viewed eos (lookback (· == eos) (n - 1) past) token s = viewed eos (lookback (· == eos) (n - 1) past') token s) :
    lookback (· == eos) (n - 1) past = lookback (· == eos) (n - 1) past' := by
  have hne (past : List Token) (i : ℕ) (a : Token) (ha : (lookback (· == eos) (n - 1) past)[i]? = some a) :
      a ≠ eos := by
    rintro rfl
    have hstop := not_stop_of_mem_lookback (List.mem_of_getElem? ha)
    rw [beq_self_eq_true] at hstop
    cases hstop
  refine List.ext_getElem? fun i => ?_
  rcases Nat.lt_or_ge i (n - 1) with hi | hi
  · have hviewed : ((lookback (· == eos) (n - 1) past)[i]?).getD eos =
        ((lookback (· == eos) (n - 1) past')[i]?).getD eos := h (i + 1) (by omega)
    cases hleft : (lookback (· == eos) (n - 1) past)[i]? with
    | none =>
      cases hright : (lookback (· == eos) (n - 1) past')[i]? with
      | none => rfl
      | some b =>
        rw [hleft, hright] at hviewed
        exact absurd hviewed.symm (hne past' i b hright)
    | some a =>
      cases hright : (lookback (· == eos) (n - 1) past')[i]? with
      | none =>
        rw [hleft, hright] at hviewed
        exact absurd hviewed (hne past i a hleft)
      | some b =>
        rw [hleft, hright] at hviewed
        exact congrArg some hviewed
  · rw [List.getElem?_eq_none (lookback_length_le.trans hi), List.getElem?_eq_none (lookback_length_le.trans hi)]

end Telling

namespace NGramEmbedding

/-- The context after some calls. -/
def contextAfter (embedding : NGramEmbedding) : Option (List Token) → List (List Token) → Option (List Token)
  | context, [] => context
  | _, call :: rest => embedding.contextAfter (some (embedding.tail call)) rest

/-- Calls go on from the context left to them. -/
theorem runCalls_append (embedding : NGramEmbedding) (context : Option (List Token))
    (calls rest : List (List Token)) :
    embedding.runCalls context (calls ++ rest) =
      embedding.runCalls context calls ++ embedding.runCalls (embedding.contextAfter context calls) rest := by
  induction calls generalizing context with
  | nil => rfl
  | cons call calls ih => rw [List.cons_append, runCalls, runCalls, ih, List.append_assoc, contextAfter]

/-- The context is the tail of the last call. -/
theorem contextAfter_append_singleton (embedding : NGramEmbedding) (context : Option (List Token))
    (calls : List (List Token)) (call : List Token) :
    embedding.contextAfter context (calls ++ [call]) = some (embedding.tail call) := by
  induction calls generalizing context with
  | nil => rfl
  | cons first calls ih => exact ih _

/-- One row of ids for each token. -/
theorem runCalls_length (embedding : NGramEmbedding) (context : Option (List Token)) (calls : List (List Token))
    (hcalls : ∀ call ∈ calls, call ≠ []) : (embedding.runCalls context calls).length = calls.flatten.length := by
  induction calls generalizing context with
  | nil => rfl
  | cons call calls ih =>
    rw [runCalls, List.length_append, List.flatten_cons, List.length_append,
      ih _ fun c hc => hcalls c (List.mem_cons_of_mem _ hc), ngramIds_eq _ _ (hcalls call List.mem_cons_self),
      scanIds, scanBack_length]

/-- A single call on a sequence scans it. -/
theorem ngramIds_none (embedding : NGramEmbedding) {inputIds : List Token} (h : inputIds ≠ []) :
    embedding.ngramIds none inputIds = embedding.scanIds [] inputIds := by
  rw [ngramIds_eq _ none h]
  exact scanBack_congr embedding.shows_none inputIds

end NGramEmbedding

open NGramEmbedding

/-- For every n-gram size of at least two and every split of a sequence into calls that are not empty: under all
arguments the ids at each position are those of a single call exactly when every call between two others
carries the context. -/
theorem ngramIds_chunkInvariant_iff {n : ℕ} (hn : 2 ≤ n) (eos : Token) (calls : List (List Token))
    (hcalls : ∀ call ∈ calls, call ≠ []) :
    (∀ (args : NGramArgs) (pleLayerIndex : ℕ), args.ngramSize = n → args.eosTokenId = eos →
        ∀ t < calls.flatten.length, ((init args pleLayerIndex).runCalls none calls)[t]? =
          ((init args pleLayerIndex).ngramIds none calls.flatten)[t]?) ↔ Carried n eos calls := by
  constructor
  · intro hinvariant before call next after hsplit
    have hmembers : ∀ c ∈ before ++ [call], c ≠ [] := fun c hc => hcalls c (by
      rw [hsplit, List.append_cons]
      exact List.mem_append_left _ hc)
    have hnext : next ≠ [] := hcalls next (by
      rw [hsplit]
      exact List.mem_append_right _ (List.mem_cons_of_mem _ List.mem_cons_self))
    obtain ⟨token, rest, rfl⟩ := List.exists_cons_of_ne_nil hnext
    let embedding := init (tellingArgs n eos) 0
    let t := (before ++ [call]).flatten.length
    have hflatten : calls.flatten = (before ++ [call]).flatten ++ (token :: rest) ++ after.flatten := by
      rw [hsplit, List.append_cons, List.flatten_append, List.flatten_cons, List.append_assoc]
    have hrun : (embedding.runCalls none calls)[t]? =
        some (embedding.viewIds (lookback (· == eos) (n - 1) call.reverse) token) := by
      rw [hsplit, List.append_cons, runCalls_append, contextAfter_append_singleton]
      rw [List.getElem?_append_right (embedding.runCalls_length none _ hmembers).le]
      rw [embedding.runCalls_length none _ hmembers, Nat.sub_self, runCalls, ngramIds_eq _ _ hnext, scanIds, scanBack]
      have hshows : embedding.Shows (some (embedding.tail call)) call.reverse := shows_tail hn call
      exact congrArg (fun view => some (embedding.viewIds view token)) (hshows [])
    have hwhole : (embedding.ngramIds none calls.flatten)[t]? =
        some (embedding.viewIds (lookback (· == eos) (n - 1) (call.reverse ++ before.flatten.reverse)) token) := by
      have hsequence : (before ++ [call]).flatten ++ (token :: rest) ++ after.flatten ≠ [] := by
        rw [List.append_assoc]
        exact List.append_ne_nil_of_right_ne_nil _ (List.cons_ne_nil _ _)
      have htoken : ((before ++ [call]).flatten ++ (token :: rest) ++ after.flatten)[t]? = some token := by
        rw [List.append_assoc, List.getElem?_append_right (Nat.le_refl _), Nat.sub_self]
        rfl
      have hpast : (((before ++ [call]).flatten ++ (token :: rest) ++ after.flatten).take t).reverse =
          call.reverse ++ before.flatten.reverse := by
        rw [List.append_assoc, List.take_left, List.flatten_append, List.flatten_singleton, List.reverse_append]
      rw [hflatten, ngramIds_none _ hsequence, scanIds, getElem?_scanBack, htoken, hpast, List.append_nil]
      rfl
    have ht : t < calls.flatten.length := by
      rw [hflatten, List.length_append, List.length_append, List.length_cons]
      omega
    have hids := hinvariant (tellingArgs n eos) 0 rfl rfl t ht
    rw [hrun, hwhole] at hids
    have hat : embedding.idsAt (viewed eos (lookback (· == eos) (n - 1) call.reverse) token) =
        embedding.idsAt (viewed eos (lookback (· == eos) (n - 1) (call.reverse ++ before.flatten.reverse)) token) :=
      Option.some.inj hids
    have hview : lookback (· == eos) (n - 1) call.reverse =
        lookback (· == eos) (n - 1) (call.reverse ++ before.flatten.reverse) :=
      view_eq_of_viewed fun _ hs => telling_shifted_eq (by rfl) hat hs
    exact covers_iff.mp (covers_of_lookback hview.symm)
  · rintro hcarried args pleLayerIndex rfl rfl t ht
    have hne : calls.flatten ≠ [] := List.ne_nil_of_length_pos (Nat.zero_lt_of_lt ht)
    rw [ngramIds_none _ hne]
    exact congrArg (·[t]?) (runCalls_eq_of_carried hn [] calls hcalls (fun _ => shows_none _) hcarried)

/-- A prompt of one token, a call of two tokens and a decode step. -/
def threeCalls : List (List Token) := [[1#32], [2#32, 3#32], [4#32]]

theorem threeCalls_carried : Carried 3 7#32 threeCalls := by
  intro before call next after hsplit
  cases before with
  | nil => exact .inr (.inr fun token htoken => by cases htoken)
  | cons first before =>
    have htail := (List.cons.inj hsplit).2
    cases before with
    | nil => exact .inl (congrArg List.length (List.cons.inj htail).1).le
    | cons second before =>
      have hlast : [[4#32]] = before ++ call :: next :: after := (List.cons.inj htail).2
      have hlength := congrArg List.length hlast
      rw [List.length_append, List.length_cons, List.length_cons, List.length_cons, List.length_nil] at hlength
      omega

section Tiny

/-- The arguments of the tiny checkpoint. -/
def tinyArgs : NGramArgs where
  ngramSize := 3
  headsPerNgram := 2
  vocabSize := 128
  seed := 1234
  ngramVocabSizeBase := 101
  eosTokenId := 7#32

/-- Their ids under the arguments of the tiny checkpoint are those of one call. -/
theorem ngramIds_chunkInvariant_iff_threeCalls : ((init tinyArgs 0).runCalls none threeCalls)[3]? =
    ((init tinyArgs 0).ngramIds none threeCalls.flatten)[3]? :=
  (ngramIds_chunkInvariant_iff (by decide) 7#32 threeCalls (by decide)).mpr threeCalls_carried tinyArgs 0 rfl rfl 3
    (by decide)

theorem nextPrime_100 : nextPrime 100 = 101 := nextPrime_eq (by decide) (by norm_num) fun m hlt hm => by omega

theorem nextPrime_101 : nextPrime 101 = 103 :=
  nextPrime_eq (by decide) (by norm_num) fun m hlt hm => by
    interval_cases m
    rfl

theorem nextPrime_103 : nextPrime 103 = 107 :=
  nextPrime_eq (by decide) (by norm_num) fun m hlt hm => by
    interval_cases m
    · rfl
    · simp [isPrime, noDivisorFrom]
    · rfl

theorem nextPrime_107 : nextPrime 107 = 109 :=
  nextPrime_eq (by decide) (by norm_num) fun m hlt hm => by
    interval_cases m
    rfl

theorem tiny_headVocabSizes : (init tinyArgs 0).headVocabSizes = [101, 103, 107, 109] := by
  change [nextPrime 100, nextPrime (nextPrime 100), nextPrime (nextPrime (nextPrime 100)),
    nextPrime (nextPrime (nextPrime (nextPrime 100)))] = _
  rw [nextPrime_100, nextPrime_101, nextPrime_103, nextPrime_107]

theorem tiny_headOffsets : (init tinyArgs 0).headOffsets = [0, 101, 204, 311] := by
  change offsets 0 (init tinyArgs 0).headVocabSizes = _
  rw [tiny_headVocabSizes]
  rfl

/-- The embedding of the tiny checkpoint with its tables written out. -/
def tinyEmbedding : NGramEmbedding :=
  { init tinyArgs 0 with
    headVocabSizes := [101, 103, 107, 109]
    headOffsets := [0, 101, 204, 311] }

theorem tinyEmbedding_eq : init tinyArgs 0 = tinyEmbedding := by
  rw [tinyEmbedding, ← tiny_headVocabSizes, ← tiny_headOffsets]

/-- After a prompt of three tokens and one decode step, the trigram ids of the next token miss the prompt. -/
theorem secondDecodeStep_forgets :
    ((init tinyArgs 0).runCalls none [[1#32, 2#32, 3#32], [4#32], [5#32]])[4]? = some [100, 186, 244, 402] ∧
      ((init tinyArgs 0).ngramIds none [1#32, 2#32, 3#32, 4#32, 5#32])[4]? = some [100, 186, 262, 358] := by
  rw [tinyEmbedding_eq]
  exact ⟨by decide +kernel, by decide +kernel⟩

end Tiny

end AneLinux.Qwen4
