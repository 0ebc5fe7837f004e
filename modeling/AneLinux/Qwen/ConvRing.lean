import AneLinux.Support.Python

/-!
# The rolling convolution window of the patched decoder

The unpatched block concatenates the kept rows and the new ones and keeps the last rows of the result.
The patch writes decoded rows into a buffer of 260 rows and returns a slice of it. When the buffer is
full, the rows to keep are copied to its start. The copy begins one row too late, so its source has one
row less than its target and the assignment fails: the ring follows the concatenation exactly as long as
the buffer is not full.

An array `[B, S, C]` is the list of its `S` rows. An assignment to a slice needs the shape of the slice.
-/

namespace AneLinux.Qwen

open AneLinux.Support

section Slices

variable {R : Type}

/-- `x[:, start:stop, :]`. -/
def slice (rows : List R) (start stop : ℕ) : List R := (rows.take stop).drop start

/-- `x[:, :stop, :] = values`. -/
def assignFirst (rows : List R) (stop : ℕ) (values : List R) : Py (List R) :=
  if values.length = (slice rows 0 stop).length then .ok (values ++ rows.drop stop)
  else raiseValue "shapes cannot be broadcast"

/-- `x[:, -n:, :]`; for `n = 0` this is all of `x`. -/
def lastRows (rows : List R) (n : ℕ) : List R := if n = 0 then rows else rows.drop (rows.length - n)

end Slices

/-- One position of an array: `x[:, i, :]`. -/
abbrev Row (B C : ℕ) (V : Type) := Fin B → Fin C → V

variable {B C : ℕ} {V : Type} [Zero V]

/-- `_ConvRing`. -/
structure ConvRing (B C : ℕ) (V : Type) where
  n : ℕ
  cap : ℕ
  buf : List (Row B C V)
  off : ℕ

/-- `_ConvRing.__init__`. -/
def ConvRing.init (seed : List (Row B C V)) (n : ℕ) : Py (ConvRing B C V) := do
  let cap := 260
  let buf ← assignFirst (List.replicate cap 0) n seed
  return { n, cap, buf, off := 0 }

/-- `_ConvRing.step`. -/
def ConvRing.step (ring : ConvRing B C V) (qkv : List (Row B C V)) : Py (ConvRing B C V × List (Row B C V)) := do
  let ring ← (if ring.off + ring.n + 1 > ring.cap then do
      let buf ← assignFirst ring.buf ring.n (slice ring.buf (ring.off + 1) (ring.off + 1 + ring.n))
      return { ring with buf, off := 0 }
    else return ring)
  let row ← index qkv 0
  let buf := ring.buf.set (ring.off + ring.n) row
  return ({ ring with buf, off := ring.off + 1 }, slice buf ring.off (ring.off + ring.n + 1))

/-- What the block reads and writes of its cache: `cache[0]`, the ring and the lengths. -/
structure ConvCache (B C : ℕ) (V : Type) where
  state : Option (List (Row B C V))
  ring : Option (ConvRing B C V)
  lengths : Option (Fin B → ℤ)

/-- `mx.where(mask[..., None], qkv, 0)`, if there is a mask. -/
def applyMask (mask : Option (List (Fin B → Bool))) (qkv : List (Row B C V)) : List (Row B C V) :=
  match mask with
  | none => qkv
  | some mask => List.zipWith (fun keep row b c => if keep b then row b c else 0) mask qkv

/-- The kept rows, zeros if there are none yet. -/
def ConvCache.convState (cache : ConvCache B C V) (nKeep : ℕ) : List (Row B C V) :=
  cache.state.getD (List.replicate nKeep 0)

/-- The rows to keep of the concatenation: the last ones, or those before the end of each sequence. -/
def keptRows (lengths : Option (Fin B → ℤ)) (nKeep s : ℕ) (convInput : List (Row B C V)) : List (Row B C V) :=
  match lengths with
  | none => lastRows convInput nKeep
  | some lengths =>
    (List.range nKeep).map fun i b => convInput.getD ((min (max (lengths b) 0) s).toNat + i) 0 b

/-- The unpatched block: the cache after it and `conv_input`. -/
def oldBlock (nKeep : ℕ) (cache : ConvCache B C V) (mask : Option (List (Fin B → Bool))) (qkv : List (Row B C V)) :
    ConvCache B C V × List (Row B C V) :=
  let qkv := applyMask mask qkv
  let convInput := cache.convState nKeep ++ qkv
  ({ cache with state := some (keptRows cache.lengths nKeep qkv.length convInput) }, convInput)

/-- The patched block. -/
def newBlock (nKeep : ℕ) (cache : ConvCache B C V) (mask : Option (List (Fin B → Bool))) (qkv : List (Row B C V)) :
    Py (ConvCache B C V × List (Row B C V)) := do
  let masked := applyMask mask qkv
  if masked.length = 1 ∧ cache.lengths.isNone then do
    let ring ← (match cache.ring with
      | some ring => return ring
      | none => ConvRing.init (cache.convState nKeep) nKeep)
    let (ring, convInput) ← ring.step masked
    return ({ cache with state := some (lastRows convInput nKeep), ring := some ring }, convInput)
  else
    let (after, convInput) := oldBlock nKeep cache mask qkv
    return ({ after with ring := none }, convInput)

/-- The input of a decode step: one row, and the mask of that row. -/
structure DecodeInput (B C : ℕ) (V : Type) where
  mask : Option (Fin B → Bool)
  row : Row B C V

/-- The row a decode step adds. -/
def DecodeInput.masked (input : DecodeInput B C V) : Row B C V :=
  match input.mask with
  | none => input.row
  | some keep => fun b c => if keep b then input.row b c else 0

/-- Decode steps of the unpatched block: `conv_input` and `cache[0]` of each. -/
def oldRun (nKeep : ℕ) : ConvCache B C V → List (DecodeInput B C V) →
    List (List (Row B C V) × Option (List (Row B C V)))
  | _, [] => []
  | cache, input :: rest =>
    let (after, convInput) := oldBlock nKeep cache (input.mask.map fun keep => [keep]) [input.row]
    (convInput, after.state) :: oldRun nKeep after rest

/-- Decode steps of the patched block. -/
def newRun (nKeep : ℕ) : ConvCache B C V → List (DecodeInput B C V) →
    Py (List (List (Row B C V) × Option (List (Row B C V))))
  | _, [] => return []
  | cache, input :: rest => do
    let (after, convInput) ← newBlock nKeep cache (input.mask.map fun keep => [keep]) [input.row]
    let others ← newRun nKeep after rest
    return (convInput, after.state) :: others

theorem applyMask_decode (input : DecodeInput B C V) :
    applyMask (input.mask.map fun keep => [keep]) [input.row] = [input.masked] := by
  unfold applyMask DecodeInput.masked
  cases input.mask with
  | none => rfl
  | some keep => rfl

section Ring

variable {n : ℕ} {history : List (Row B C V)} {ring : ConvRing B C V}

/-- A ring holds a history of rows and zeros behind it, and its offset leaves the last `n` rows. -/
structure Follows (n : ℕ) (history : List (Row B C V)) (ring : ConvRing B C V) : Prop where
  kept : ring.n = n
  cap : ring.cap = 260
  buf : ring.buf = history ++ List.replicate (260 - history.length) 0
  length : history.length = ring.off + n
  fits : history.length ≤ 260

/-- A new ring holds its seed. -/
theorem init_follows {seed : List (Row B C V)} (hseed : seed.length = n) (hn : n ≤ 260) :
    ∃ ring, ConvRing.init seed n = .ok ring ∧ ring.off = 0 ∧ Follows n seed ring := by
  have hassign : assignFirst (List.replicate 260 0) n seed = .ok (seed ++ List.replicate (260 - n) 0) := by
    unfold assignFirst slice
    rw [List.drop_zero, List.length_take, List.length_replicate, Nat.min_eq_left hn, if_pos hseed, List.drop_replicate]
  refine ⟨_, by rw [ConvRing.init, hassign]; rfl, rfl, rfl, rfl, ?_, ?_, ?_⟩
  · rw [hseed]
  · rw [hseed, Nat.zero_add]
  · rw [hseed]
    exact hn

/-- While the buffer has room, a step returns the last rows and the new one. -/
theorem Follows.step (h : Follows n history ring) (hroom : history.length < 260) (row : Row B C V) :
    ∃ after, ring.step [row] = .ok (after, history.drop ring.off ++ [row]) ∧ after.off = ring.off + 1 ∧
      Follows n (history ++ [row]) after := by
  have hplace : ring.off + ring.n = history.length := by rw [h.kept, h.length]
  have hset : ring.buf.set (ring.off + ring.n) row =
      (history ++ [row]) ++ List.replicate (260 - (history ++ [row]).length) 0 := by
    obtain ⟨free, hfree⟩ : ∃ free, 260 - history.length = free + 1 := ⟨259 - history.length, by omega⟩
    rw [hplace, h.buf, List.set_append_right _ _ le_rfl, Nat.sub_self, hfree, List.replicate_succ,
      List.set_cons_zero, List.append_assoc, List.singleton_append, List.length_append, List.length_singleton]
    congr 3
    omega
  have hslice : slice (ring.buf.set (ring.off + ring.n) row) ring.off (ring.off + ring.n + 1) =
      history.drop ring.off ++ [row] := by
    have hlength : ring.off + ring.n + 1 = (history ++ [row]).length := by
      rw [hplace, List.length_append, List.length_singleton]
    have hoff : ring.off ≤ history.length := by
      rw [h.length]
      exact Nat.le_add_right _ _
    rw [slice, hset, hlength, List.take_left, List.drop_append_of_le_length hoff]
  refine ⟨{ ring with buf := ring.buf.set (ring.off + ring.n) row, off := ring.off + 1 }, ?_, rfl, ?_⟩
  · have hguard : ¬ ring.off + ring.n + 1 > ring.cap := by
      rw [hplace, h.cap]
      omega
    rw [ConvRing.step, if_neg hguard, ← hslice]
    rfl
  · refine ⟨h.kept, h.cap, hset, ?_, ?_⟩
    · rw [List.length_append, List.length_singleton, h.length, Nat.add_right_comm]
    · rw [List.length_append, List.length_singleton]
      exact hroom

/-- When the buffer is full, the step raises. -/
theorem Follows.step_full (h : Follows n history ring) (hn : 1 ≤ n) (hfull : history.length = 260)
    (qkv : List (Row B C V)) : ring.step qkv = raiseValue "shapes cannot be broadcast" := by
  have hoff := h.length
  have hbuf : ring.buf = history := by rw [h.buf, hfull, Nat.sub_self, List.replicate_zero, List.append_nil]
  have hguard : ring.off + ring.n + 1 > ring.cap := by
    rw [h.kept, h.cap]
    omega
  have hlengths : (slice ring.buf (ring.off + 1) (ring.off + 1 + ring.n)).length ≠
      (slice ring.buf 0 ring.n).length := by
    unfold slice
    rw [List.length_drop, List.length_drop, List.length_take, List.length_take, hbuf, h.kept, hfull]
    omega
  rw [ConvRing.step, if_pos hguard, assignFirst, if_neg hlengths]
  rfl

/-- A decode step of the unpatched block adds one row and drops the oldest. -/
theorem oldBlock_decode {cache : ConvCache B C V} (hn : 1 ≤ n) (hlengths : cache.lengths = none)
    (hstate : (cache.convState n).length = n) (input : DecodeInput B C V) :
    oldBlock n cache (input.mask.map fun keep => [keep]) [input.row] =
      ({ cache with state := some ((cache.convState n).drop 1 ++ [input.masked]) },
        cache.convState n ++ [input.masked]) := by
  have hlast : lastRows (cache.convState n ++ [input.masked]) n = (cache.convState n).drop 1 ++ [input.masked] := by
    have hdrop : (cache.convState n ++ [input.masked]).length - n = 1 := by
      rw [List.length_append, hstate, List.length_singleton, Nat.add_sub_cancel_left]
    rw [lastRows, if_neg (by omega), hdrop, List.drop_append_of_le_length (by omega)]
  unfold oldBlock
  simp only [applyMask_decode, hlengths, keptRows, hlast]

/-- A decode step of the patched block with a ring is a step of the ring. -/
theorem newBlock_decode {cache : ConvCache B C V} (hlengths : cache.lengths = none) (hring : cache.ring = some ring)
    (input : DecodeInput B C V) :
    newBlock n cache (input.mask.map fun keep => [keep]) [input.row] = do
      let (after, convInput) ← ring.step [input.masked]
      return ({ cache with state := some (lastRows convInput n), ring := some after }, convInput) := by
  unfold newBlock
  rw [applyMask_decode, hlengths, hring, if_pos ⟨rfl, rfl⟩]
  rfl

/-- With a ring that follows the history, the two runs agree exactly as long as the buffer has room. -/
theorem newRun_eq_oldRun_iff (hn : 1 ≤ n) (inputs : List (DecodeInput B C V)) {cache other : ConvCache B C V}
    (h : Follows n history ring) (hlengths : cache.lengths = none) (hring : cache.ring = some ring)
    (hother : other.lengths = none) (hstate : other.convState n = history.drop ring.off) :
    newRun n cache inputs = .ok (oldRun n other inputs) ↔ history.length + inputs.length ≤ 260 := by
  induction inputs generalizing cache other history ring with
  | nil => exact ⟨fun _ => h.fits, fun _ => rfl⟩
  | cons input rest ih =>
    have hstateLength : (other.convState n).length = n := by
      rw [hstate, List.length_drop, h.length, Nat.add_sub_cancel_left]
    rw [newRun, newBlock_decode hlengths hring, oldRun, oldBlock_decode hn hother hstateLength, List.length_cons]
    rcases h.fits.lt_or_eq with hroom | hfull
    · obtain ⟨after, hstep, hoff, hfollows⟩ := h.step hroom input.masked
      have hkept : lastRows (history.drop ring.off ++ [input.masked]) n =
          (history.drop ring.off).drop 1 ++ [input.masked] := by
        have hdrop : (history.drop ring.off ++ [input.masked]).length - n = 1 := by
          rw [List.length_append, ← hstate, hstateLength, List.length_singleton, Nat.add_sub_cancel_left]
        rw [lastRows, if_neg (by omega), hdrop, List.drop_append_of_le_length (by rw [← hstate]; omega)]
      have hnext : (history.drop ring.off).drop 1 ++ [input.masked] = (history ++ [input.masked]).drop after.off := by
        rw [hoff, List.drop_drop, List.drop_append_of_le_length (by have := h.length; omega)]
      have ih' := @ih (history ++ [input.masked]) after
        { cache with state := some ((history.drop ring.off).drop 1 ++ [input.masked]), ring := some after }
        { other with state := some ((other.convState n).drop 1 ++ [input.masked]) }
        hfollows hlengths rfl hother (by rw [hstate]; exact hnext)
      rw [List.length_append, List.length_singleton] at ih'
      rw [hstep, ok_bind]
      simp only [pure_bind, hkept]
      rw [hstate] at ih' ⊢
      constructor
      · intro hrun
        obtain ⟨others, hothers, hrun⟩ := bind_eq_ok.mp hrun
        have htail := (List.cons.inj (Except.ok.inj hrun)).2
        rw [htail] at hothers
        have := ih'.mp hothers
        omega
      · intro hlength
        rw [ih'.mpr (by omega)]
        rfl
    · constructor
      · intro hrun
        rw [h.step_full hn hfull] at hrun
        cases hrun
      · intro hlength
        omega

/-- The first decode step seeds the ring with the kept rows. -/
theorem newRun_seed {cache : ConvCache B C V} (hlengths : cache.lengths = none) (hring : cache.ring = none)
    (hinit : ConvRing.init (cache.convState n) n = .ok ring) (inputs : List (DecodeInput B C V)) :
    newRun n cache inputs = newRun n { cache with ring := some ring } inputs := by
  cases inputs with
  | nil => rfl
  | cons input rest =>
    have hblock : newBlock n cache (input.mask.map fun keep => [keep]) [input.row] =
        newBlock n { cache with ring := some ring } (input.mask.map fun keep => [keep]) [input.row] := by
      rw [@newBlock_decode B C V _ n ring { cache with ring := some ring } hlengths rfl input]
      unfold newBlock
      rw [applyMask_decode, if_pos ⟨rfl, by rw [hlengths]; rfl⟩, hring]
      simp only [hinit, ok_bind]
    rw [newRun, newRun, hblock]

/-- From a seed of `n` rows on, the two runs agree exactly as long as the buffer has room. -/
theorem newRun_eq_oldRun_iff_of_seed {cache : ConvCache B C V} (hn : 1 ≤ n) (hcap : n ≤ 260)
    (hlengths : cache.lengths = none) (hring : cache.ring = none) (hseed : (cache.convState n).length = n)
    (inputs : List (DecodeInput B C V)) :
    newRun n cache inputs = .ok (oldRun n cache inputs) ↔ n + inputs.length ≤ 260 := by
  obtain ⟨ring, hinit, hoff, hfollows⟩ := init_follows hseed hcap
  have hstate : cache.convState n = (cache.convState n).drop ring.off := by
    rw [hoff, List.drop_zero]
  have hruns := @newRun_eq_oldRun_iff B C V _ n _ ring hn inputs { cache with ring := some ring } cache hfollows
    hlengths rfl hlengths hstate
  rw [newRun_seed hlengths hring hinit, hruns, hseed]

end Ring

/-- For every kernel size, seed, batch, channel count and run of decode steps: the patched block returns what the
unpatched one returns exactly when the steps fit into the buffer behind the seed. -/
theorem convRing_refines_iff (kernelSize : ℕ) (hlow : 2 ≤ kernelSize) (hhigh : kernelSize ≤ 260)
    (seed : Option (Fin (kernelSize - 1) → Row B C V)) (inputs : List (DecodeInput B C V)) :
    newRun (kernelSize - 1) { state := seed.map List.ofFn, ring := none, lengths := none } inputs =
        .ok (oldRun (kernelSize - 1) { state := seed.map List.ofFn, ring := none, lengths := none } inputs) ↔
      inputs.length ≤ 260 - (kernelSize - 1) := by
  have hlength : (ConvCache.convState { state := seed.map List.ofFn, ring := none, lengths := none }
      (kernelSize - 1)).length = kernelSize - 1 := by
    cases seed with
    | none => exact List.length_replicate
    | some rows => exact List.length_ofFn
  rw [newRun_eq_oldRun_iff_of_seed (by omega) (by omega) rfl rfl hlength]
  omega

/-- A block of kernel size 4 without a seed, and two decode steps. -/
theorem convRing_refines_iff_twoSteps :
    newRun 3 { state := none, ring := none, lengths := none }
        (List.replicate 2 { mask := none, row := fun (_ : Fin 1) (_ : Fin 1) => (1 : ℤ) }) =
      .ok (oldRun 3 { state := none, ring := none, lengths := none }
        (List.replicate 2 { mask := none, row := fun (_ : Fin 1) (_ : Fin 1) => (1 : ℤ) })) :=
  (convRing_refines_iff 4 (by decide) (by decide) none _).mpr (by decide)

/-- With kernel size 4 the ring does not follow a run of 258 decode steps. -/
theorem convRing_fails_at_258 :
    newRun 3 { state := none, ring := none, lengths := none }
        (List.replicate 258 { mask := none, row := fun (_ : Fin 1) (_ : Fin 1) => (1 : ℤ) }) ≠
      .ok (oldRun 3 { state := none, ring := none, lengths := none }
        (List.replicate 258 { mask := none, row := fun (_ : Fin 1) (_ : Fin 1) => (1 : ℤ) })) := by
  have hzeros : (ConvCache.convState (B := 1) (C := 1) (V := ℤ)
      { state := none, ring := none, lengths := none } 3).length
      = 3 := List.length_replicate
  rw [ne_eq, newRun_eq_oldRun_iff_of_seed (by decide) (by decide) rfl rfl hzeros, List.length_replicate]
  decide

end AneLinux.Qwen
