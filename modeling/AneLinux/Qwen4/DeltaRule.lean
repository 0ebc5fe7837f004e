import AneLinux.Support.GatedDelta
import Mathlib.Analysis.Complex.Exponential
import Mathlib.Analysis.SpecialFunctions.Sqrt
import Mathlib.Data.List.GetD

/-!
# The chunked gated delta rule

The reference has the rule in two forms. `recurrent_gated_delta_rule` goes token by token.
`chunk_gated_delta_rule` pads the tokens to whole chunks, solves a unit lower triangular system in each
chunk and carries the state from chunk to chunk.

Arithmetic is exact: `E` stands for `np.exp`, `root` for the square root of the key dimension and `l2norm`
for the function of that name. An entry that is masked with minus infinity before `np.exp` is zero.
-/

namespace AneLinux.Qwen4

open AneLinux.Support Finset

variable {K : Type*}

variable {ι W : Type*} {B T H Dk Dv i : ℕ} {E : K → K}

section Chunk

variable [CommRing K] [Fintype ι] [AddCommGroup W] [Module K W]

/-- `solve_unit_lower`: the first `n` rows of the solution, each from the rows above it. -/
def solveUnitLower {X : Type*} [AddCommGroup X] [Module K X] (a : ℕ → ℕ → K) (b : ℕ → X) : ℕ → List X
  | 0 => []
  | n + 1 =>
    let above := solveUnitLower a b n
    above ++ [b n - ∑ j ∈ range n, a n j • above.getD j 0]

variable (E : K → K) (chunkSize : ℕ) (tokens : ℕ → Token K ι W)

/-- `cum_decay`. -/
def cumDecay (i : ℕ) : K := ∑ j ∈ range (i + 1), (tokens j).decay

/-- `pairwise`. -/
def pairwise (i j : ℕ) : K := if i < j then 0 else E (cumDecay tokens i - cumDecay tokens j)

/-- `ut`. -/
def ut (i j : ℕ) : K := dot (fun d => (tokens i).beta * (tokens i).key d) (tokens j).key * pairwise E tokens i j

/-- `intra`. -/
def intra (i j : ℕ) : K := dot (tokens i).query (tokens j).key * pairwise E tokens i j

/-- `new_values`. -/
def newValues : List W := solveUnitLower (ut E tokens) (fun i => (tokens i).beta • (tokens i).value) chunkSize

/-- `k_cumdecay`. -/
def kCumdecay : List (ι → K) :=
  solveUnitLower (ut E tokens) (fun i d => (tokens i).beta * (tokens i).key d * E (cumDecay tokens i)) chunkSize

/-- `v_new` of a chunk that starts with a state. -/
def vNew (state : ι → W) (i : ℕ) : W :=
  (newValues E chunkSize tokens).getD i 0 - contract ((kCumdecay E chunkSize tokens).getD i 0) state

/-- The output of a chunk. -/
def chunkOutput (state : ι → W) (i : ℕ) : W :=
  contract (fun d => (tokens i).query d * E (cumDecay tokens i)) state +
    ∑ j ∈ range chunkSize, intra E tokens i j • vNew E chunkSize tokens state j

/-- The state after a chunk. -/
def chunkNext (state : ι → W) : ι → W :=
  E (cumDecay tokens (chunkSize - 1)) • state + ∑ j ∈ range chunkSize,
    outer (fun d => (tokens j).key d * E (cumDecay tokens (chunkSize - 1) - cumDecay tokens j))
      (vNew E chunkSize tokens state j)

/-- The tokens of a chunk. -/
def chunkTokens (n : ℕ) : ℕ → Token K ι W := fun i => tokens (n * chunkSize + i)

/-- The state after `n` chunks. -/
def chunkStates (state : ι → W) : ℕ → ι → W
  | 0 => state
  | n + 1 => chunkNext E chunkSize (chunkTokens chunkSize tokens n) (chunkStates state n)

end Chunk

section Heads

variable [Field K]

/-- The arguments of both forms, by batch, position and head. -/
structure DeltaInputs (B T H Dk Dv : ℕ) (K : Type*) where
  q : Fin B → Fin T → Fin H → Fin Dk → K
  k : Fin B → Fin T → Fin H → Fin Dk → K
  v : Fin B → Fin T → Fin H → Fin Dv → K
  g : Fin B → Fin T → Fin H → K
  beta : Fin B → Fin T → Fin H → K

/-- What both forms return: the outputs and the final state. -/
structure DeltaOutputs (B T H Dk Dv : ℕ) (K : Type*) where
  out : Fin B → Fin T → Fin H → Fin Dv → K
  state : Fin B → Fin H → Fin Dk → Fin Dv → K

/-- A token of zeros, as `np.pad` makes it. -/
def zeroToken : Token K (Fin Dk) (Fin Dv → K) := { key := 0, query := 0, value := 0, decay := 0, beta := 0 }

variable (E : K → K) (l2norm : (Fin Dk → K) → Fin Dk → K) (root : K) (inputs : DeltaInputs B T H Dk Dv K)
  (initial : Option (Fin B → Fin H → Fin Dk → Fin Dv → K))

/-- The start of a head: zeros if no state is given. -/
def initialState (b : Fin B) (h : Fin H) : Fin Dk → Fin Dv → K :=
  match initial with
  | none => 0
  | some state => state b h

/-- The tokens of a head in the chunked form: the query is multiplied by `Dk ** -0.5`, and zeros follow. -/
def paddedTokens (b : Fin B) (h : Fin H) (i : ℕ) : Token K (Fin Dk) (Fin Dv → K) :=
  if hi : i < T then
    { key := l2norm (inputs.k b ⟨i, hi⟩ h), query := fun d => l2norm (inputs.q b ⟨i, hi⟩ h) d * root⁻¹,
      value := inputs.v b ⟨i, hi⟩ h, decay := inputs.g b ⟨i, hi⟩ h, beta := inputs.beta b ⟨i, hi⟩ h }
  else zeroToken

/-- The tokens of a head in the recurrent form: the query is divided by `math.sqrt(Dk)`. -/
def recurrentTokens (b : Fin B) (h : Fin H) (i : ℕ) : Token K (Fin Dk) (Fin Dv → K) :=
  if hi : i < T then
    { key := l2norm (inputs.k b ⟨i, hi⟩ h), query := fun d => l2norm (inputs.q b ⟨i, hi⟩ h) d / root,
      value := inputs.v b ⟨i, hi⟩ h, decay := inputs.g b ⟨i, hi⟩ h, beta := inputs.beta b ⟨i, hi⟩ h }
  else zeroToken

/-- `chunk_gated_delta_rule`. -/
def chunkGatedDeltaRule (chunkSize : ℕ) : DeltaOutputs B T H Dk Dv K :=
  let pad := (chunkSize - T % chunkSize) % chunkSize
  let chunks := (T + pad) / chunkSize
  { out := fun b t h =>
      let tokens := paddedTokens l2norm root inputs b h
      let n := t.val / chunkSize
      chunkOutput E chunkSize (chunkTokens chunkSize tokens n)
        (chunkStates E chunkSize tokens (initialState initial b h) n) (t.val % chunkSize)
    state := fun b h =>
      chunkStates E chunkSize (paddedTokens l2norm root inputs b h) (initialState initial b h) chunks }

/-- `recurrent_gated_delta_rule`. -/
def recurrentGatedDeltaRule : DeltaOutputs B T H Dk Dv K where
  out b t h := outputAt E (recurrentTokens l2norm root inputs b h) (initialState initial b h) t.val
  state b h := stateAt E (recurrentTokens l2norm root inputs b h) (initialState initial b h) T

end Heads

section Solve

variable {X : Type*} [CommRing K] [AddCommGroup X] [Module K X] (a : ℕ → ℕ → K) (b : ℕ → X)

theorem length_solveUnitLower (n : ℕ) : (solveUnitLower a b n).length = n := by
  induction n with
  | zero => rfl
  | succ n ih => rw [solveUnitLower, List.length_append, ih, List.length_singleton]

/-- A row does not change when rows below it are added. -/
theorem getD_solveUnitLower_succ {n : ℕ} (hi : i < n) :
    (solveUnitLower a b (n + 1)).getD i 0 = (solveUnitLower a b n).getD i 0 := by
  rw [solveUnitLower, List.getD_append _ _ _ _ (by rw [length_solveUnitLower]; exact hi)]

theorem getD_solveUnitLower {n : ℕ} (hi : i < n) :
    (solveUnitLower a b n).getD i 0 = b i - ∑ j ∈ range i, a i j • (solveUnitLower a b n).getD j 0 := by
  induction n with
  | zero => exact (Nat.not_lt_zero i hi).elim
  | succ n ih =>
    have hrows : ∑ j ∈ range i, a i j • (solveUnitLower a b (n + 1)).getD j 0 =
        ∑ j ∈ range i, a i j • (solveUnitLower a b n).getD j 0 := by
      refine sum_congr rfl fun j hj => ?_
      have hlt := mem_range.mp hj
      rw [getD_solveUnitLower_succ a b (by omega)]
    rw [hrows]
    rcases Nat.lt_succ_iff_lt_or_eq.mp hi with hlt | rfl
    · rw [getD_solveUnitLower_succ a b hlt]
      exact ih hlt
    · rw [solveUnitLower, List.getD_append_right _ _ _ _ (by rw [length_solveUnitLower]), length_solveUnitLower,
        Nat.sub_self]
      rfl

end Solve

section ChunkSteps

variable [CommRing K] [Fintype ι] [AddCommGroup W] [Module K W] (chunkSize : ℕ) (tokens : ℕ → Token K ι W)
  (state : ι → W)

omit [Fintype ι] [AddCommGroup W] [Module K W] in
theorem pairwise_of_le {j : ℕ} (h : j ≤ i) :
    pairwise E tokens i j = E (decaySum tokens (i + 1) - decaySum tokens (j + 1)) := if_neg (not_lt.mpr h)

omit [AddCommGroup W] [Module K W] in
theorem ut_of_le {j : ℕ} (h : j ≤ i) :
    ut E tokens i j = (tokens i).beta * dot (tokens i).key (tokens j).key *
      E (decaySum tokens (i + 1) - decaySum tokens (j + 1)) := by
  rw [ut, dot_smul_left, pairwise_of_le tokens h]

/-- The values of a chunk solve the system of the differences. -/
theorem vNew_eq_deltaAt (hE : ∀ a b, E (a + b) = E a * E b) (hone : E 0 = 1) (hi : i < chunkSize) :
    vNew E chunkSize tokens state i = deltaAt E tokens state i := by
  refine eq_deltaAt_of_solves tokens state hE hone ?_ i hi
  intro n hn
  have hkey : contract (fun d => (tokens n).beta * (tokens n).key d * E (cumDecay tokens n)) state =
      ((tokens n).beta * E (decaySum tokens (n + 1))) • contract (tokens n).key state := by
    rw [← contract_smul_left]
    refine congrArg (fun vector => contract vector state) (funext fun d => ?_)
    exact mul_right_comm _ _ _
  have hrows : contract (∑ j ∈ range n, ut E tokens n j • (kCumdecay E chunkSize tokens).getD j 0) state =
      ∑ j ∈ range n, ut E tokens n j • contract ((kCumdecay E chunkSize tokens).getD j 0) state := by
    rw [contract_sum_left]
    exact sum_congr rfl fun j _ => contract_smul_left _ _ _
  have hvalues : (newValues E chunkSize tokens).getD n 0 = (tokens n).beta • (tokens n).value -
      ∑ j ∈ range n, ut E tokens n j • (newValues E chunkSize tokens).getD j 0 := getD_solveUnitLower _ _ hn
  have hkeys : (kCumdecay E chunkSize tokens).getD n 0 =
      (fun d => (tokens n).beta * (tokens n).key d * E (cumDecay tokens n)) -
        ∑ j ∈ range n, ut E tokens n j • (kCumdecay E chunkSize tokens).getD j 0 := getD_solveUnitLower _ _ hn
  have hsum : ∑ j ∈ range n, ut E tokens n j • vNew E chunkSize tokens state j =
      ∑ j ∈ range n, ((tokens n).beta * dot (tokens n).key (tokens j).key *
        E (decaySum tokens (n + 1) - decaySum tokens (j + 1))) • vNew E chunkSize tokens state j :=
    sum_congr rfl fun j hj => by rw [ut_of_le tokens (mem_range.mp hj).le]
  rw [← hsum]
  calc vNew E chunkSize tokens state n
      = ((tokens n).beta • (tokens n).value -
            ∑ j ∈ range n, ut E tokens n j • (newValues E chunkSize tokens).getD j 0) -
          (((tokens n).beta * E (decaySum tokens (n + 1))) • contract (tokens n).key state -
            ∑ j ∈ range n, ut E tokens n j • contract ((kCumdecay E chunkSize tokens).getD j 0) state) := by
        rw [vNew, hvalues, hkeys, contract_sub_left, hkey, hrows]
    _ = (tokens n).beta • (tokens n).value -
          ((tokens n).beta * E (decaySum tokens (n + 1))) • contract (tokens n).key state -
          (∑ j ∈ range n, ut E tokens n j • (newValues E chunkSize tokens).getD j 0 -
            ∑ j ∈ range n, ut E tokens n j • contract ((kCumdecay E chunkSize tokens).getD j 0) state) := by abel
    _ = _ := by
        congr 1
        rw [← sum_sub_distrib]
        exact sum_congr rfl fun j _ => (smul_sub _ _ _).symm

/-- The state after a chunk is the state after its tokens. -/
theorem chunkNext_eq_stateAt (hE : ∀ a b, E (a + b) = E a * E b) (hone : E 0 = 1) (hsize : 1 ≤ chunkSize) :
    chunkNext E chunkSize tokens state = stateAt E tokens state chunkSize := by
  have hlast : cumDecay tokens (chunkSize - 1) = decaySum tokens chunkSize := by
    rw [cumDecay, Nat.sub_add_cancel hsize, decaySum]
  rw [chunkNext, stateAt_eq_sum tokens state hE hone, hlast]
  congr 1
  refine sum_congr rfl fun j hj => ?_
  rw [outer_smul, vNew_eq_deltaAt chunkSize tokens state hE hone (mem_range.mp hj)]
  rfl

/-- The output of a chunk is what its tokens return. -/
theorem chunkOutput_eq_outputAt (hE : ∀ a b, E (a + b) = E a * E b) (hone : E 0 = 1) (hi : i < chunkSize) :
    chunkOutput E chunkSize tokens state i = outputAt E tokens state i := by
  have hquery : contract (fun d => (tokens i).query d * E (cumDecay tokens i)) state =
      E (decaySum tokens (i + 1)) • contract (tokens i).query state := by
    rw [← contract_smul_left]
    exact congrArg (fun vector => contract vector state) (funext fun d => mul_comm _ _)
  have hmasked : ∀ j ∈ range chunkSize, j ∉ range (i + 1) →
      intra E tokens i j • vNew E chunkSize tokens state j = 0 := by
    intro j _ hj
    have hlt : i < j := by
      rw [mem_range] at hj
      omega
    rw [intra, pairwise, if_pos hlt, mul_zero, zero_smul]
  have hsubset : range (i + 1) ⊆ range chunkSize := range_subset_range.mpr hi
  rw [chunkOutput, outputAt_eq tokens state hE hone, hquery, ← sum_subset hsubset hmasked]
  congr 1
  refine sum_congr rfl fun j hj => ?_
  have hle : j ≤ i := Nat.lt_succ_iff.mp (mem_range.mp hj)
  rw [intra, pairwise_of_le tokens hle, vNew_eq_deltaAt chunkSize tokens state hE hone (by omega)]

/-- The state carried over `n` chunks is the state after their tokens. -/
theorem chunkStates_eq_stateAt (hE : ∀ a b, E (a + b) = E a * E b) (hone : E 0 = 1) (hsize : 1 ≤ chunkSize) (n : ℕ) :
    chunkStates E chunkSize tokens state n = stateAt E tokens state (n * chunkSize) := by
  induction n with
  | zero => rw [Nat.zero_mul, chunkStates, stateAt]
  | succ n ih =>
    rw [chunkStates, ih, chunkNext_eq_stateAt chunkSize _ _ hE hone hsize, Nat.succ_mul, stateAt_add]
    rfl

end ChunkSteps

section Equality

variable [Field K] {l2norm : (Fin Dk → K) → Fin Dk → K} {root : K} {inputs : DeltaInputs B T H Dk Dv K}

/-- Both forms read the same tokens. -/
theorem paddedTokens_eq (b : Fin B) (h : Fin H) :
    paddedTokens l2norm root inputs b h = recurrentTokens l2norm root inputs b h := by
  funext i
  unfold paddedTokens recurrentTokens
  simp only [div_eq_mul_inv]

/-- Padding does not change the state. -/
theorem stateAt_padded (hone : E 0 = 1) (b : Fin B) (h : Fin H) (state : Fin Dk → Fin Dv → K) (pad : ℕ) :
    stateAt E (recurrentTokens l2norm root inputs b h) state (T + pad) =
      stateAt E (recurrentTokens l2norm root inputs b h) state T := by
  induction pad with
  | zero => rfl
  | succ pad ih =>
    have hpadding : recurrentTokens l2norm root inputs b h (T + pad) = zeroToken := dif_neg (by omega)
    rw [← Nat.add_assoc, stateAt, ih, hpadding]
    exact advance_of_inert _ _ hone rfl rfl

/-- The padded length is a whole number of chunks. -/
theorem padded_length {chunkSize : ℕ} (hsize : 1 ≤ chunkSize) (T : ℕ) :
    (T + (chunkSize - T % chunkSize) % chunkSize) / chunkSize * chunkSize =
      T + (chunkSize - T % chunkSize) % chunkSize := by
  refine Nat.div_mul_cancel (Nat.dvd_of_mod_eq_zero ?_)
  have hlt := Nat.mod_lt T hsize
  rw [Nat.add_mod_mod, ← Nat.mod_add_mod, Nat.add_sub_cancel' hlt.le, Nat.mod_self]

/-- The chunked form equals the recurrent form, in its outputs and in its final state. -/
theorem chunkGatedDeltaRule_eq (hE : ∀ a b, E (a + b) = E a * E b) (hone : E 0 = 1) {chunkSize : ℕ}
    (hsize : 1 ≤ chunkSize) (l2norm : (Fin Dk → K) → Fin Dk → K) (root : K) (inputs : DeltaInputs B T H Dk Dv K)
    (initial : Option (Fin B → Fin H → Fin Dk → Fin Dv → K)) :
    chunkGatedDeltaRule E l2norm root inputs initial chunkSize =
      recurrentGatedDeltaRule E l2norm root inputs initial := by
  unfold chunkGatedDeltaRule recurrentGatedDeltaRule
  refine DeltaOutputs.mk.injEq _ _ _ _ ▸ ⟨?_, ?_⟩
  · funext b t h
    have hposition : t.val / chunkSize * chunkSize + t.val % chunkSize = t.val := Nat.div_add_mod' _ _
    dsimp only
    rw [chunkStates_eq_stateAt chunkSize _ _ hE hone hsize,
      chunkOutput_eq_outputAt chunkSize _ _ hE hone (Nat.mod_lt _ hsize), paddedTokens_eq]
    refine (outputAt_add E _ (initialState initial b h) (t.val / chunkSize * chunkSize)
      (t.val % chunkSize)).symm.trans ?_
    rw [hposition]
  · funext b h
    rw [chunkStates_eq_stateAt chunkSize _ _ hE hone hsize, padded_length hsize, paddedTokens_eq,
      stateAt_padded hone]

/-- Three tokens of one head with one key and one value dimension. -/
noncomputable def threeTokens : DeltaInputs 1 3 1 1 1 ℝ where
  q _ t _ _ := t.val + 1
  k _ t _ _ := t.val + 2
  v _ t _ _ := t.val + 3
  g _ t _ := - (t.val : ℝ)
  beta _ _ _ := 1 / 2

/-- Three tokens in chunks of two, with the real exponential and the norm of the code. -/
theorem chunkGatedDeltaRule_eq_threeTokens :
    chunkGatedDeltaRule Real.exp (fun x d => x d / √(∑ i, x i * x i + 1 / 1000000)) (√1) threeTokens none 2 =
      recurrentGatedDeltaRule Real.exp (fun x d => x d / √(∑ i, x i * x i + 1 / 1000000)) (√1) threeTokens none :=
  chunkGatedDeltaRule_eq Real.exp_add Real.exp_zero (by decide) _ _ _ _

end Equality

end AneLinux.Qwen4
