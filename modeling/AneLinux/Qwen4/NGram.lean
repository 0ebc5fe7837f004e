import AneLinux.Qwen.ConvRing
import AneLinux.Support.Lookback
import Mathlib.Data.Nat.Prime.Infinite

/-!
# The hashed n-gram embedding

`NGramEmbedding` hashes each token with the tokens before it, up to the last end-of-sequence token. A call
keeps the last `ngram_size - 1` of its own tokens for the next one and pads them with end-of-sequence tokens
when it has fewer. `ngramIds_eq` says that the ids of a call are read off the view behind each of its tokens.

The rows of a batch do not meet in this code, so a call is given one row.
-/

namespace AneLinux.Qwen4

open AneLinux.Support
open AneLinux.Qwen (lastRows)

/-- A token of an `int32` array. -/
abbrev Token := BitVec 32

section Tables

/-- `sm` of `splitmix64_list`. -/
def splitmix64 (v : BitVec 64) : BitVec 64 :=
  let v := v + 0x9E3779B97F4A7C15#64
  let v := (v ^^^ (v >>> 30)) * 0xBF58476D1CE4E5B9#64
  let v := (v ^^^ (v >>> 27)) * 0x94D049BB133111EB#64
  v ^^^ (v >>> 31)

/-- `splitmix64_list`. -/
def splitmix64List (seed : ℤ) (n : ℕ) : List ℕ :=
  (List.range n).map fun (i : ℕ) => (splitmix64 (BitVec.ofInt 64 (seed + 0x9E3779B97F4A7C15 * (i + 1)))).toNat

/-- The loop of `is_prime`. -/
def noDivisorFrom (v d : ℕ) : Bool :=
  if d * d ≤ v then
    if v % d = 0 then false else noDivisorFrom v (d + 2)
  else true
termination_by v + 2 - d
decreasing_by
  have hd : d ≤ v ∨ d = 0 := by
    rcases Nat.eq_zero_or_pos d with hd | hd
    · exact .inr hd
    · exact .inl ((Nat.le_mul_of_pos_left d hd).trans ‹d * d ≤ v›)
  omega

/-- `is_prime`. -/
def isPrime (v : ℕ) : Bool :=
  if v < 2 then false else if v % 2 = 0 then v == 2 else noDivisorFrom v 3

/-- Trial division finds none for a prime. -/
theorem noDivisorFrom_of_prime {v : ℕ} (hv : v.Prime) (d : ℕ) (hd : 2 ≤ d) : noDivisorFrom v d = true := by
  induction d using noDivisorFrom.induct (v := v) with
  | case1 d hle hmod =>
    have hdvd : d = 1 ∨ d = v := (Nat.dvd_prime hv).mp (Nat.dvd_of_mod_eq_zero hmod)
    have hv2 := hv.two_le
    rcases hdvd with rfl | rfl
    · omega
    · have hsquare : 2 * d ≤ d * d := Nat.mul_le_mul_right d hd
      omega
  | case2 d hle hmod ih =>
    rw [noDivisorFrom, if_pos hle, if_neg hmod]
    exact ih (by omega)
  | case3 d hgt => rw [noDivisorFrom, if_neg hgt]

/-- A prime passes the test. -/
theorem isPrime_of_prime {v : ℕ} (hv : v.Prime) : isPrime v = true := by
  unfold isPrime
  rw [if_neg (Nat.not_lt.mpr hv.two_le)]
  by_cases hmod : v % 2 = 0
  · rw [if_pos hmod, beq_iff_eq]
    exact ((Nat.dvd_prime hv).mp (Nat.dvd_of_mod_eq_zero hmod)).resolve_left (by decide) |>.symm
  · rw [if_neg hmod]
    exact noDivisorFrom_of_prime hv 3 (by decide)

/-- Some number above passes the test. -/
theorem exists_isPrime (p : ℕ) : ∃ q, p < q ∧ isPrime q = true := by
  obtain ⟨q, hq, hprime⟩ := Nat.exists_infinite_primes (p + 1)
  exact ⟨q, hq, isPrime_of_prime hprime⟩

/-- `prime += 1; while not is_prime(prime): prime += 1`. -/
def nextPrime (prime : ℕ) : ℕ := Nat.find (exists_isPrime prime)

/-- `nth_prime_after`. -/
def nthPrimeAfter (start : ℕ) : ℕ → ℕ
  | 0 => start
  | count + 1 => nextPrime (nthPrimeAfter start count)

/-- The next prime is the first that passes. -/
theorem nextPrime_eq {p q : ℕ} (hlt : p < q) (hq : q.Prime) (h : ∀ m, p < m → m < q → isPrime m = false) :
    nextPrime p = q := by
  refine (Nat.find_eq_iff _).mpr ⟨⟨hlt, isPrime_of_prime hq⟩, fun m hm hprime => ?_⟩
  rw [h m hprime.1 hm] at hprime
  exact Bool.false_ne_true hprime.2

theorem lt_nextPrime (prime : ℕ) : prime < nextPrime prime := (Nat.find_spec (exists_isPrime prime)).1

theorem lt_nthPrimeAfter (start count : ℕ) : start < nthPrimeAfter start (count + 1) := by
  induction count with
  | zero => exact lt_nextPrime start
  | succ count ih => exact ih.trans (lt_nextPrime _)

end Tables

/-- What the embedding reads of the model's arguments. -/
structure NGramArgs where
  ngramSize : ℕ
  headsPerNgram : ℕ
  vocabSize : ℕ
  seed : ℤ
  ngramVocabSizeBase : ℕ
  eosTokenId : Token

/-- `NGramEmbedding`, without its table of weights. -/
structure NGramEmbedding where
  ngramSize : ℕ
  contextLen : ℕ
  headsPerNgram : ℕ
  eosTokenId : Token
  headVocabSizes : List ℕ
  headOffsets : List ℕ
  layerMultipliers : List ℕ

/-- The running sums before each element. -/
def offsets : ℕ → List ℕ → List ℕ
  | _, [] => []
  | off, size :: rest => off :: offsets (off + size) rest

/-- `NGramEmbedding.__init__`. -/
def NGramEmbedding.init (args : NGramArgs) (pleLayerIndex : ℕ) : NGramEmbedding :=
  let ngramHeads := (args.ngramSize - 1) * args.headsPerNgram
  let headVocabSizes := (List.range ngramHeads).map fun h =>
    nthPrimeAfter (args.ngramVocabSizeBase - 1) (pleLayerIndex * ngramHeads + h + 1)
  let mults := splitmix64List (args.seed + 10007 * pleLayerIndex) args.ngramSize
  let maxLong := 2 ^ 63 - 1
  let halfBound := max 1 (maxLong / max args.vocabSize 1 / 2)
  { ngramSize := args.ngramSize
    contextLen := args.ngramSize - 1
    headsPerNgram := args.headsPerNgram
    eosTokenId := args.eosTokenId
    headVocabSizes
    headOffsets := offsets 0 headVocabSizes
    layerMultipliers := mults.map fun m => 2 * (m % halfBound) + 1 }

/-- `mx.cummax`, from a running maximum on. -/
def cummaxFrom (running : ℤ) : List ℤ → List ℤ
  | [] => []
  | x :: rest => max running x :: cummaxFrom (max running x) rest

/-- `mx.cummax`. -/
def cummax : List ℤ → List ℤ
  | [] => []
  | x :: rest => x :: cummaxFrom x rest

/-- `shift_right_ignore_eos`, of tokens of any integer type. -/
def shiftRightIgnoreEos {α : Type} [DecidableEq α] (eos : α) (ids : List α) (shift : ℕ) : List α :=
  if shift = 0 then ids
  else
    let eosPos : List ℤ := ids.mapIdx fun pos id => if id = eos then (pos : ℤ) else -1
    let prevEosIncl := cummax eosPos
    let prevEos := -1 :: prevEosIncl.dropLast
    List.zipWith (fun (pos : ℕ) (prevEos : ℤ) =>
      let segStart := prevEos + 1
      let posInSeg := (pos : ℤ) - segStart
      let src := (pos : ℤ) - shift
      let shifted := ids.getD (max src 0).toNat eos
      if (shift : ℤ) ≤ posInSeg ∧ 0 ≤ src then shifted else eos) (List.range ids.length) prevEos

namespace NGramEmbedding

variable (embedding : NGramEmbedding)

/-- `shifted[p].astype(mx.int64) * self.layer_multipliers[p]`. -/
def product (shifted : ℕ → Token) (p : ℕ) : BitVec 64 :=
  (shifted p).signExtend 64 * BitVec.ofNat 64 (embedding.layerMultipliers.getD p 0)

/-- `mixed` after the tokens up to `p`. -/
def mixed (shifted : ℕ → Token) (p : ℕ) : BitVec 64 :=
  (List.range p).foldl (fun mixed p => mixed ^^^ embedding.product shifted (p + 1)) (embedding.product shifted 0)

/-- The ids of one position, from the shifted tokens there. -/
def idsAt (shifted : ℕ → Token) : List ℤ :=
  (List.range (embedding.ngramSize - 1)).flatMap fun k =>
    let ngram := k + 2
    let h0 := (ngram - 2) * embedding.headsPerNgram
    let sizes := (embedding.headVocabSizes.drop h0).take embedding.headsPerNgram
    let offs := (embedding.headOffsets.drop h0).take embedding.headsPerNgram
    List.zipWith (fun (size off : ℕ) => (embedding.mixed shifted (ngram - 1)).toInt % size + off) sizes offs

/-- What a call stores for the next one. -/
def tail (inputIds : List Token) : List Token :=
  let tail := lastRows inputIds embedding.contextLen
  if inputIds.length < embedding.contextLen then
    List.replicate (embedding.contextLen - inputIds.length) embedding.eosTokenId ++ tail
  else tail

/-- `NGramEmbedding.__call__`: the n-gram ids of the tokens. -/
def ngramIds (previousContext : Option (List Token)) (inputIds : List Token) : List (List ℤ) :=
  let previousContext := previousContext.getD (List.replicate embedding.contextLen embedding.eosTokenId)
  let history := previousContext ++ inputIds
  let shifted := (List.range embedding.ngramSize).map (shiftRightIgnoreEos embedding.eosTokenId history)
  let rows := (List.range history.length).map fun pos =>
    embedding.idsAt fun s => (shifted.getD s []).getD pos embedding.eosTokenId
  lastRows rows inputIds.length

/-- Calls one after another, as `PLELayer.__call__` makes them: each stores its tail for the next. -/
def runCalls : Option (List Token) → List (List Token) → List (List ℤ)
  | _, [] => []
  | context, inputIds :: rest => embedding.ngramIds context inputIds ++ runCalls (some (embedding.tail inputIds)) rest

end NGramEmbedding

section Shift

variable {α : Type} [DecidableEq α] {eos token : α} {ids : List α} {n pos s : ℕ}

theorem cummaxFrom_length (running : ℤ) (xs : List ℤ) : (cummaxFrom running xs).length = xs.length := by
  induction xs generalizing running with
  | nil => rfl
  | cons x xs ih => rw [cummaxFrom, List.length_cons, List.length_cons, ih]

theorem cummax_length (xs : List ℤ) : (cummax xs).length = xs.length := by
  cases xs with
  | nil => rfl
  | cons x xs => rw [cummax, List.length_cons, List.length_cons, cummaxFrom_length]

/-- What the running maximum is at least. -/
theorem le_cummaxFrom {running m k : ℤ} {xs : List ℤ} {i : ℕ} (h : (cummaxFrom running xs)[i]? = some m) :
    k ≤ m ↔ k ≤ running ∨ ∃ q x, q ≤ i ∧ xs[q]? = some x ∧ k ≤ x := by
  induction xs generalizing running i with
  | nil => cases h
  | cons y xs ih =>
    cases i with
    | zero =>
      have hm : max running y = m := Option.some.inj h
      rw [← hm, le_max_iff]
      refine or_congr_right ⟨fun hy => ⟨0, y, Nat.le_refl 0, rfl, hy⟩, ?_⟩
      rintro ⟨q, x, hq, hx, hkx⟩
      rw [Nat.le_zero.mp hq] at hx
      rwa [Option.some.inj hx]
    | succ i =>
      rw [ih h, le_max_iff, or_assoc]
      refine or_congr_right ⟨?_, ?_⟩
      · rintro (hy | ⟨q, x, hq, hx, hkx⟩)
        · exact ⟨0, y, Nat.zero_le _, rfl, hy⟩
        · exact ⟨q + 1, x, Nat.succ_le_succ hq, hx, hkx⟩
      · rintro ⟨q, x, hq, hx, hkx⟩
        cases q with
        | zero =>
          rw [← Option.some.inj hx] at hkx
          exact .inl hkx
        | succ q => exact .inr ⟨q, x, Nat.le_of_succ_le_succ hq, hx, hkx⟩

/-- The same from the start. -/
theorem le_cummax {m k : ℤ} {xs : List ℤ} {i : ℕ} (h : (cummax xs)[i]? = some m) :
    k ≤ m ↔ ∃ q x, q ≤ i ∧ xs[q]? = some x ∧ k ≤ x := by
  cases xs with
  | nil => cases h
  | cons y xs =>
    have hfrom : (cummaxFrom y (y :: xs))[i]? = some m := by
      cases i with
      | zero => rw [← h, cummaxFrom, max_self]; rfl
      | succ i => rw [← h, cummaxFrom, max_self]; rfl
    rw [le_cummaxFrom hfrom]
    refine ⟨fun hk => hk.elim (fun hy => ⟨0, y, Nat.zero_le _, rfl, hy⟩) id, .inr⟩

/-- The last end-of-sequence token before a position, as the code computes it. -/
def prevEos (eos : α) (ids : List α) : List ℤ :=
  -1 :: (cummax (ids.mapIdx fun pos id => if id = eos then (pos : ℤ) else -1)).dropLast

/-- Where the last end of text before a position is. -/
theorem le_prevEos {m k : ℤ} (h : (prevEos eos ids)[pos]? = some m) (hk : 0 ≤ k) :
    k ≤ m ↔ ∃ q : ℕ, k ≤ q ∧ q < pos ∧ ids[q]? = some eos := by
  cases pos with
  | zero =>
    have hm : -1 = m := Option.some.inj h
    refine ⟨fun hkm => by omega, ?_⟩
    rintro ⟨q, -, hq, -⟩
    exact absurd hq (Nat.not_lt_zero q)
  | succ pos =>
    rw [prevEos, List.getElem?_cons_succ, List.getElem?_dropLast] at h
    split at h
    · rw [le_cummax h]
      constructor
      · rintro ⟨q, x, hq, hx, hkx⟩
        rw [List.getElem?_mapIdx, Option.map_eq_some_iff] at hx
        obtain ⟨id, hid, rfl⟩ := hx
        split at hkx
        next heos => exact ⟨q, hkx, Nat.lt_succ_of_le hq, heos ▸ hid⟩
        next => omega
      · rintro ⟨q, hkq, hq, hid⟩
        refine ⟨q, q, Nat.le_of_lt_succ hq, ?_, hkq⟩
        rw [List.getElem?_mapIdx, hid, Option.map_some, if_pos rfl]
    · cases h

theorem prevEos_length (h : ids ≠ []) : (prevEos eos ids).length = ids.length := by
  have hpos := List.length_pos_iff.mpr h
  rw [prevEos, List.length_cons, List.length_dropLast, cummax_length, List.length_mapIdx]
  omega

/-- A token or one of those before it, as far as the view shows them. -/
def viewed (eos : α) (view : List α) (token : α) : ℕ → α
  | 0 => token
  | s + 1 => (view[s]?).getD eos

/-- `shift_right_ignore_eos` reads the view behind a position. -/
theorem getElem?_shiftRightIgnoreEos (htoken : ids[pos]? = some token) (hs : s ≤ n) :
    (shiftRightIgnoreEos eos ids s)[pos]? =
      some (viewed eos (lookback (· == eos) n (ids.take pos).reverse) token s) := by
  obtain ⟨hpos, -⟩ := List.getElem?_eq_some_iff.mp htoken
  cases s with
  | zero => rw [shiftRightIgnoreEos, if_pos rfl, htoken, viewed]
  | succ s =>
    have hlength : (prevEos eos ids).length = ids.length :=
      prevEos_length (List.ne_nil_of_length_pos (Nat.zero_lt_of_lt hpos))
    obtain ⟨m, hm⟩ : ∃ m, (prevEos eos ids)[pos]? = some m :=
      ⟨_, List.getElem?_eq_getElem (by rw [hlength]; exact hpos)⟩
    have hpast (j : ℕ) (hj : j < pos) : (ids.take pos).reverse[j]? = ids[pos - 1 - j]? := by
      rw [List.getElem?_reverse (by rw [List.length_take]; omega), List.length_take, Nat.min_eq_left hpos.le,
        List.getElem?_take_of_lt (by omega)]
    rw [shiftRightIgnoreEos, if_neg (Nat.succ_ne_zero s)]
    change (List.zipWith _ (List.range ids.length) (prevEos eos ids))[pos]? = _
    rw [List.getElem?_zipWith, List.getElem?_range hpos, hm]
    refine congrArg some ?_
    change (if ((s + 1 : ℕ) : ℤ) ≤ (pos : ℤ) - (m + 1) ∧ 0 ≤ (pos : ℤ) - ((s + 1 : ℕ) : ℤ) then
      ids.getD (max ((pos : ℤ) - ((s + 1 : ℕ) : ℤ)) 0).toNat eos else eos) = _
    rw [viewed]
    by_cases hfar : pos ≤ s
    · have hview : (lookback (· == eos) n (ids.take pos).reverse).length ≤ s := by
        refine lookback_length_le_past.trans ?_
        rw [List.length_reverse, List.length_take]
        omega
      rw [if_neg (by omega), List.getElem?_eq_none hview, Option.getD_none]
    · by_cases heos : ∃ q : ℕ, ((pos : ℤ) - ((s + 1 : ℕ) : ℤ)) ≤ q ∧ q < pos ∧ ids[q]? = some eos
      · have hle := (le_prevEos hm (by omega)).mpr heos
        obtain ⟨q, hq, hqpos, hid⟩ := heos
        rw [if_neg (by omega)]
        have hstop : (ids.take pos).reverse[pos - 1 - q]? = some eos := by
          rw [hpast _ (by omega), ← hid]
          congr 1
          omega
        have hnone : (lookback (· == eos) n (ids.take pos).reverse)[s]? = none :=
          getElem?_lookback_of_stop (by omega) (by omega) hstop (beq_self_eq_true eos)
        rw [hnone, Option.getD_none]
      · have hlt := mt (le_prevEos hm (by omega)).mp heos
        rw [if_pos (by omega), getElem?_lookback_of_forall (by omega), hpast s (by omega)]
        · rw [List.getD_eq_getElem?_getD]
          congr 2
          omega
        · intro j hj a ha
          rw [hpast j (by omega)] at ha
          rw [beq_eq_false_iff_ne]
          rintro rfl
          exact heos ⟨pos - 1 - j, by omega, by omega, ha⟩

end Shift

namespace NGramEmbedding

variable (embedding : NGramEmbedding)

/-- A mix depends on the shifts it reads. -/
theorem mixed_congr {shifted shifted' : ℕ → Token} {p : ℕ} (h : ∀ s ≤ p, shifted s = shifted' s) :
    embedding.mixed shifted p = embedding.mixed shifted' p := by
  have hproduct : ∀ s ≤ p, embedding.product shifted s = embedding.product shifted' s := fun s hs => by
    rw [product, product, h s hs]
  unfold mixed
  rw [hproduct 0 (Nat.zero_le p)]
  refine List.foldl_ext _ _ _ fun mixed s hs => ?_
  rw [hproduct (s + 1) (List.mem_range.mp hs)]

/-- The ids of a position depend on the shifted tokens of the n-gram size. -/
theorem idsAt_congr {shifted shifted' : ℕ → Token} (h : ∀ s < embedding.ngramSize, shifted s = shifted' s) :
    embedding.idsAt shifted = embedding.idsAt shifted' := by
  unfold idsAt
  refine List.flatMap_congr fun k hk => ?_
  have hk := List.mem_range.mp hk
  have hmixed : embedding.mixed shifted (k + 1) = embedding.mixed shifted' (k + 1) :=
    embedding.mixed_congr fun s hs => h s (by omega)
  change List.zipWith (fun (size off : ℕ) => (embedding.mixed shifted (k + 1)).toInt % size + off) _ _ =
    List.zipWith (fun (size off : ℕ) => (embedding.mixed shifted' (k + 1)).toInt % size + off) _ _
  rw [hmixed]

/-- The ids of a token with a view of the tokens before it. -/
def viewIds (view : List Token) (token : Token) : List ℤ :=
  embedding.idsAt (viewed embedding.eosTokenId view token)

/-- The ids of a sequence of tokens after others, most recent first. -/
def scanIds : List Token → List Token → List (List ℤ) :=
  scanBack (· == embedding.eosTokenId) (embedding.ngramSize - 1) embedding.viewIds

/-- What a call starts from, most recent first. -/
def contextPast (context : Option (List Token)) : List Token :=
  (context.getD (List.replicate embedding.contextLen embedding.eosTokenId)).reverse

/-- A call reads the view behind each of its tokens. -/
theorem ngramIds_eq (context : Option (List Token)) {inputIds : List Token} (hinput : inputIds ≠ []) :
    embedding.ngramIds context inputIds = embedding.scanIds (embedding.contextPast context) inputIds := by
  have hlength : inputIds.length ≠ 0 := mt List.length_eq_zero_iff.mp hinput
  unfold ngramIds lastRows
  rw [if_neg hlength]
  generalize hprevious : context.getD (List.replicate embedding.contextLen embedding.eosTokenId) = previous
  refine List.ext_getElem? fun i => ?_
  rw [scanIds, getElem?_scanBack, contextPast, hprevious, List.getElem?_drop, List.getElem?_map, List.length_map,
    List.length_range, List.length_append, Nat.add_sub_cancel]
  rcases Nat.lt_or_ge i inputIds.length with hi | hi
  · have htoken : (previous ++ inputIds)[previous.length + i]? = some inputIds[i] := by
      rw [List.getElem?_append_right (Nat.le_add_right _ _), Nat.add_sub_cancel_left, List.getElem?_eq_getElem hi]
    have htake : ((previous ++ inputIds).take (previous.length + i)).reverse =
        (inputIds.take i).reverse ++ previous.reverse := by
      rw [List.take_length_add_append, List.reverse_append]
    rw [List.getElem?_range (by omega), List.getElem?_eq_getElem hi, Option.map_some, Option.map_some]
    refine congrArg some (embedding.idsAt_congr fun s hs => ?_)
    rw [List.getD_eq_getElem?_getD, List.getD_eq_getElem?_getD, List.getElem?_map, List.getElem?_range hs,
      Option.map_some, Option.getD_some, getElem?_shiftRightIgnoreEos htoken (Nat.le_sub_one_of_lt hs), htake,
      Option.getD_some]
  · rw [List.getElem?_eq_none (by rw [List.length_range]; omega), List.getElem?_eq_none hi]
    rfl

end NGramEmbedding

end AneLinux.Qwen4
