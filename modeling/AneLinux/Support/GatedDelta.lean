import Mathlib.Algebra.BigOperators.Module
import Mathlib.Algebra.Module.BigOperators
import Mathlib.Algebra.Module.LinearMap.Basic
import Mathlib.Tactic.Ring

/-!
# The gated delta recurrence

A state maps keys to values. A token decays the state, reads the value its key has there, and writes the
difference to its own value back along the key. Unrolled, the state after `n` tokens is the decayed start
plus a sum of outer products of the keys with the written differences. The differences solve a triangular
system in which the start appears once per row, so that they can be computed for a stretch of tokens at a
time. `E` is an exponential: it takes sums to products.
-/

namespace AneLinux.Support

open Finset

variable {K ι W : Type*} [CommRing K] [Fintype ι] [AddCommGroup W] [Module K W]

/-- The product of two key vectors. -/
def dot (a b : ι → K) : K := ∑ d, a d * b d

/-- Read a state along a vector. -/
def contract (a : ι → K) (S : ι → W) : W := ∑ d, a d • S d

/-- The state that has a value along a key. -/
def outer (a : ι → K) (w : W) : ι → W := fun d => a d • w

/-- One token of a head. -/
structure Token (K ι W : Type*) where
  key : ι → K
  query : ι → K
  value : W
  decay : K
  beta : K

section Linear

variable (a b : ι → K) (S S' : ι → W) (w w' : W) (c : K)

/-- Reading along a vector is linear in the state. -/
def contractLinear (a : ι → K) : (ι → W) →ₗ[K] W where
  toFun := contract a
  map_add' S S' := by
    unfold contract
    rw [← sum_add_distrib]
    exact sum_congr rfl fun d _ => smul_add _ _ _
  map_smul' c S := by
    unfold contract
    rw [RingHom.id_apply, smul_sum]
    exact sum_congr rfl fun d _ => smul_comm _ _ _

theorem contract_add : contract a (S + S') = contract a S + contract a S' := (contractLinear a).map_add S S'

theorem contract_smul : contract a (c • S) = c • contract a S := (contractLinear a).map_smul c S

theorem contract_sum (states : ℕ → ι → W) (n : ℕ) :
    contract a (∑ j ∈ range n, states j) = ∑ j ∈ range n, contract a (states j) :=
  map_sum (contractLinear a) states (range n)

/-- Contracting an outer product scales its vector. -/
theorem contract_outer : contract a (outer b w) = dot a b • w := by
  unfold contract outer dot
  rw [sum_smul]
  exact sum_congr rfl fun d _ => smul_smul _ _ _

theorem contract_smul_left : contract (fun d => c * a d) S = c • contract a S := by
  unfold contract
  rw [smul_sum]
  exact sum_congr rfl fun d _ => mul_smul _ _ _

theorem contract_sub_left : contract (a - b) S = contract a S - contract b S := by
  unfold contract
  rw [← sum_sub_distrib]
  exact sum_congr rfl fun d _ => sub_smul _ _ _

theorem contract_sum_left (vectors : ℕ → ι → K) (n : ℕ) :
    contract (∑ j ∈ range n, vectors j) S = ∑ j ∈ range n, contract (vectors j) S := by
  unfold contract
  rw [sum_comm]
  refine sum_congr rfl fun d _ => ?_
  rw [Finset.sum_apply, sum_smul]

theorem dot_smul_left : dot (fun d => c * a d) b = c * dot a b := by
  unfold dot
  rw [mul_sum]
  exact sum_congr rfl fun d _ => mul_assoc _ _ _

omit [Fintype ι] in
theorem outer_smul : outer (fun d => a d * c) w = c • outer a w := by
  funext d
  rw [outer, Pi.smul_apply, outer, smul_smul, mul_comm]

omit [Fintype ι] in
theorem outer_zero : outer a (0 : W) = 0 := by
  funext d
  exact smul_zero _

end Linear

section Recurrence

variable (E : K → K) (token : Token K ι W) (tokens : ℕ → Token K ι W) (S : ι → W)

/-- The difference a token writes. -/
def delta : W := token.beta • (token.value - contract token.key (E token.decay • S))

/-- The state after a token. -/
def advance : ι → W := E token.decay • S + outer token.key (delta E token S)

/-- The state after `n` tokens. -/
def stateAt : ℕ → ι → W
  | 0 => S
  | n + 1 => advance E (tokens n) (stateAt n)

/-- The difference the token at a position writes. -/
def deltaAt (n : ℕ) : W := delta E (tokens n) (stateAt E tokens S n)

/-- What the token at a position returns. -/
def outputAt (n : ℕ) : W := contract (tokens n).query (stateAt E tokens S (n + 1))

/-- The sum of the first `n` decays. -/
def decaySum (n : ℕ) : K := ∑ j ∈ range n, (tokens j).decay

/-- A run may be cut into two. -/
theorem stateAt_add (a b : ℕ) :
    stateAt E tokens S (a + b) = stateAt E (fun i => tokens (a + i)) (stateAt E tokens S a) b := by
  induction b with
  | zero => rfl
  | succ b ih => rw [← Nat.add_assoc, stateAt, stateAt, ih]

/-- Outputs after `a` tokens start from the state then. -/
theorem outputAt_add (a b : ℕ) :
    outputAt E tokens S (a + b) = outputAt E (fun i => tokens (a + i)) (stateAt E tokens S a) b := by
  rw [outputAt, outputAt, ← stateAt_add, Nat.add_assoc]

variable {E}

omit [Fintype ι] [AddCommGroup W] [Module K W] in
/-- An exponential at a difference of decay sums, one token later. -/
theorem exp_mul_exp_sub (hE : ∀ a b, E (a + b) = E a * E b) (n j : ℕ) :
    E (tokens n).decay * E (decaySum tokens n - decaySum tokens j) =
      E (decaySum tokens (n + 1) - decaySum tokens j) := by
  rw [← hE, decaySum, decaySum, decaySum, sum_range_succ]
  congr 1
  ring

/-- The state is the decayed start and the decayed writes. -/
theorem stateAt_eq_sum (hE : ∀ a b, E (a + b) = E a * E b) (hone : E 0 = 1) (n : ℕ) :
    stateAt E tokens S n = E (decaySum tokens n) • S +
      ∑ j ∈ range n, E (decaySum tokens n - decaySum tokens (j + 1)) • outer (tokens j).key (deltaAt E tokens S j) := by
  induction n with
  | zero => rw [stateAt, decaySum, range_zero, sum_empty, sum_empty, hone, one_smul, add_zero]
  | succ n ih =>
    have hstart : E (tokens n).decay * E (decaySum tokens n) = E (decaySum tokens (n + 1)) := by
      rw [← hE, decaySum, decaySum, sum_range_succ, add_comm]
    have hlast : E (decaySum tokens (n + 1) - decaySum tokens (n + 1)) = 1 := by rw [sub_self, hone]
    have hwrites : E (tokens n).decay • ∑ j ∈ range n,
        E (decaySum tokens n - decaySum tokens (j + 1)) • outer (tokens j).key (deltaAt E tokens S j) =
        ∑ j ∈ range n, E (decaySum tokens (n + 1) - decaySum tokens (j + 1)) •
          outer (tokens j).key (deltaAt E tokens S j) := by
      rw [smul_sum]
      refine sum_congr rfl fun j _ => ?_
      rw [smul_smul, exp_mul_exp_sub tokens hE]
    calc stateAt E tokens S (n + 1)
        = E (tokens n).decay • stateAt E tokens S n + outer (tokens n).key (deltaAt E tokens S n) := rfl
      _ = _ := by rw [sum_range_succ, hlast, one_smul, ih, smul_add, hwrites, smul_smul, hstart, add_assoc]

/-- What the decayed state holds along a vector, just before a token writes. -/
theorem contract_decayed (hE : ∀ a b, E (a + b) = E a * E b) (hone : E 0 = 1) (a : ι → K) (n : ℕ) :
    contract a (E (tokens n).decay • stateAt E tokens S n) = E (decaySum tokens (n + 1)) • contract a S +
      ∑ j ∈ range n, (dot a (tokens j).key * E (decaySum tokens (n + 1) - decaySum tokens (j + 1))) •
        deltaAt E tokens S j := by
  have hstart : E (tokens n).decay * E (decaySum tokens n) = E (decaySum tokens (n + 1)) := by
    rw [← hE, decaySum, decaySum, sum_range_succ, add_comm]
  rw [contract_smul, stateAt_eq_sum tokens S hE hone, contract_add, contract_smul, contract_sum, smul_add, smul_smul,
    hstart, smul_sum]
  congr 1
  refine sum_congr rfl fun j _ => ?_
  rw [contract_smul, contract_outer, smul_smul, smul_smul, exp_mul_exp_sub tokens hE, mul_comm]

/-- The difference at a position, from the start and the differences before it. -/
theorem deltaAt_eq (hE : ∀ a b, E (a + b) = E a * E b) (hone : E 0 = 1) (n : ℕ) :
    deltaAt E tokens S n = (tokens n).beta • (tokens n).value -
      ((tokens n).beta * E (decaySum tokens (n + 1))) • contract (tokens n).key S -
      ∑ j ∈ range n, ((tokens n).beta * dot (tokens n).key (tokens j).key *
        E (decaySum tokens (n + 1) - decaySum tokens (j + 1))) • deltaAt E tokens S j := by
  rw [deltaAt, delta, contract_decayed tokens S hE hone, smul_sub, smul_add, smul_smul, sub_add_eq_sub_sub, smul_sum]
  congr 1
  refine sum_congr rfl fun j _ => ?_
  rw [smul_smul, mul_assoc]

/-- What solves the triangular system are the differences. -/
theorem eq_deltaAt_of_solves (hE : ∀ a b, E (a + b) = E a * E b) (hone : E 0 = 1) {x : ℕ → W} {size : ℕ}
    (hx : ∀ n, n < size → x n = (tokens n).beta • (tokens n).value -
      ((tokens n).beta * E (decaySum tokens (n + 1))) • contract (tokens n).key S -
      ∑ j ∈ range n, ((tokens n).beta * dot (tokens n).key (tokens j).key *
        E (decaySum tokens (n + 1) - decaySum tokens (j + 1))) • x j) (n : ℕ) (hn : n < size) :
    x n = deltaAt E tokens S n := by
  induction n using Nat.strong_induction_on with
  | _ n ih =>
    rw [hx n hn, deltaAt_eq tokens S hE hone]
    congr 1
    refine sum_congr rfl fun j hj => ?_
    have hlt := mem_range.mp hj
    rw [ih j hlt (hlt.trans hn)]

/-- What a token returns, from the start and the differences up to its own. -/
theorem outputAt_eq (hE : ∀ a b, E (a + b) = E a * E b) (hone : E 0 = 1) (n : ℕ) :
    outputAt E tokens S n = E (decaySum tokens (n + 1)) • contract (tokens n).query S +
      ∑ j ∈ range (n + 1), (dot (tokens n).query (tokens j).key *
        E (decaySum tokens (n + 1) - decaySum tokens (j + 1))) • deltaAt E tokens S j := by
  rw [outputAt, stateAt_eq_sum tokens S hE hone, contract_add, contract_smul, contract_sum]
  congr 1
  refine sum_congr rfl fun j _ => ?_
  rw [contract_smul, contract_outer, smul_smul, mul_comm]

/-- A token without decay and without a gate leaves the state. -/
theorem advance_of_inert (hone : E 0 = 1) (hdecay : token.decay = 0) (hbeta : token.beta = 0) :
    advance E token S = S := by
  rw [advance, delta, hdecay, hbeta, hone, one_smul, zero_smul, outer_zero, add_zero]

end Recurrence

end AneLinux.Support
