import AneLinux.Runtime.Elementwise
import AneLinux.Support.RingBuffer
import Mathlib.Algebra.BigOperators.Ring.Finset
import Mathlib.Algebra.BigOperators.Intervals

/-!
# The causal convolution ring

`CausalConvolution` keeps the last inputs of every channel in a ring. A call overwrites the slot at
the cursor with its input, multiplies and adds the taps chunk by chunk, and moves the cursor only
at its end. A call that raises has therefore spoiled at most the slot that the next call overwrites
first. The successful calls compute what the host computes by concatenating a sliding window.
-/

namespace AneLinux.Runtime

open AneLinux.Support

variable {R : Type}

/-- The convolution: the history of `kernelSize` inputs and the slot of the next one. -/
structure CausalConvolution (R : Type) where
  channels : ℕ
  kernelSize : ℕ
  history : ℕ → ℕ → R
  cursor : ℕ

/-- What one call is given: its arguments, which submissions raise, and what fresh memory holds. -/
structure ConvolutionCall (R : Type) where
  value : NdArray R
  weight : NdArray R
  fails : ℕ → Option PyError
  memory : ℕ → R

variable {conv other : CausalConvolution R} {channels kernelSize k : ℕ} {inputs : List (ℕ → R)}

namespace CausalConvolution

section Code

variable [CommRing R]

/-- `CausalConvolution.__init__`. -/
def init (channels kernelSize : ℕ) : Py (CausalConvolution R) :=
  if channels < 1 ∨ kernelSize < 1 then
    raiseValue "channels and kernel_size must be positive"
  else .ok { channels, kernelSize, history := fun _ _ => 0, cursor := 0 }

/-- The checks of a call. -/
def validate (conv : CausalConvolution R) (value weight : NdArray R) : Py Unit :=
  if value.dtype ≠ .float16 ∨ value.shape ≠ [conv.channels] then
    raiseValue s!"value shape and dtype must be ({conv.channels},) float16"
  else if weight.dtype ≠ .float16 ∨ weight.shape ≠ [conv.channels, conv.kernelSize] then
    raiseValue s!"weight shape and dtype must be ({conv.channels}, {conv.kernelSize}) float16"
  else if value.finite = false ∨ weight.finite = false then
    raiseValue "value and weight must be finite"
  else .ok ()

/-- Store the input in the slot at the cursor. -/
def record (conv : CausalConvolution R) (value : NdArray R) : CausalConvolution R :=
  { conv with history := Function.update conv.history conv.cursor value.entry }

/-- The slots from the oldest to the newest. -/
def order (conv : CausalConvolution R) : List ℕ :=
  (List.range conv.kernelSize).map fun offset => (conv.cursor + offset + 1) % conv.kernelSize

/-- One tap of the weights. -/
def weightTap (conv : CausalConvolution R) (weight : NdArray R) (tap c : ℕ) : R :=
  weight.entry (c * conv.kernelSize + tap)

/-- The taps of one chunk of channels. -/
def convolveChunk (conv : CausalConvolution R) (weight : NdArray R) (start : ℕ) : Faulty (ℕ → R) := do
  let width := chunkWidth conv.channels start
  let total ← runElementwise .mul (chunk width start (conv.history (conv.order.getD 0 0)))
    (chunk width start (conv.weightTap weight 0))
  ((conv.order.drop 1).zipIdx 1).foldlM (fun total (entry : ℕ × ℕ) => do
    let product ← runElementwise .mul (chunk width start (conv.history entry.1))
      (chunk width start (conv.weightTap weight entry.2))
    runElementwise .add total product) total

/-- All chunks of the channels. -/
def convolve (conv : CausalConvolution R) (weight : NdArray R) (memory : ℕ → R) : Faulty (ℕ → R) :=
  (range 0 conv.channels laneCount).foldlM (fun result start => do
    let total ← conv.convolveChunk weight start
    return setRange result start (chunkWidth conv.channels start) total) memory

/-- `CausalConvolution.__call__`: the object afterwards and the outcome. -/
def apply (conv : CausalConvolution R) (call : ConvolutionCall R) : CausalConvolution R × Py (List R) :=
  match conv.validate call.value call.weight with
  | .error e => (conv, .error e)
  | .ok _ =>
    let conv := conv.record call.value
    match conv.convolve call.weight call.memory call.fails 0 with
    | .error e => (conv, .error e)
    | .ok (result, _) =>
      ({ conv with cursor := (conv.cursor + 1) % conv.kernelSize }, .ok ((List.range conv.channels).map result))

/-- The outcomes of a sequence of calls. -/
def outcomes (conv : CausalConvolution R) : List (ConvolutionCall R) → List (Py (List R))
  | [] => []
  | call :: rest => (conv.apply call).2 :: outcomes (conv.apply call).1 rest

/-- The convolution after a sequence of calls. -/
def after (conv : CausalConvolution R) : List (ConvolutionCall R) → CausalConvolution R
  | [] => conv
  | call :: rest => after (conv.apply call).1 rest

end Code

/-- The taps after the first, with their slots. -/
theorem zipIdx_drop_order (conv : CausalConvolution R) : (conv.order.drop 1).zipIdx 1 =
    (List.range (conv.kernelSize - 1)).map fun i => ((conv.cursor + (i + 1) + 1) % conv.kernelSize, i + 1) := by
  apply List.ext_getElem
  · simp [order]
  · intro i _ _
    simp [order, Nat.add_comm 1 i]

section Arithmetic

variable [CommRing R] {weight : NdArray R}

/-- The sum of the taps of one channel. -/
def dotTaps (conv : CausalConvolution R) (weight : NdArray R) (c : ℕ) : R :=
  ∑ tap ∈ Finset.range conv.kernelSize,
    conv.history ((conv.cursor + tap + 1) % conv.kernelSize) c * conv.weightTap weight tap c

/-- A loop that adds one product after another. -/
theorem foldl_add_products (n : ℕ) (first : R) (product : ℕ → R) :
    (List.range n).foldl (fun total i => total + product i) first = first + ∑ i ∈ Finset.range n, product i := by
  induction n with
  | zero => simp
  | succ n ih =>
    rw [List.range_succ, List.foldl_append, ih, Finset.sum_range_succ, ← add_assoc]
    rfl

/-- The loop over the taps works on every lane by itself. -/
theorem foldl_lanes {γ : Type} (elements : List γ) (first : ℕ → R) (product : γ → ℕ → R) (i : ℕ) :
    elements.foldl (fun (total : ℕ → R) entry => fun j => total j + product entry j) first i =
      elements.foldl (fun total entry => total + product entry i) (first i) := by
  induction elements generalizing first with
  | nil => rfl
  | cons entry rest ih => exact ih _

/-- A chunk yields the sum of the taps in its used lanes. -/
theorem convolveChunk_yields (hkernel : 1 ≤ conv.kernelSize) (start : ℕ) :
    ∃ lanes, (conv.convolveChunk weight start).Yields lanes ∧
      ∀ i < chunkWidth conv.channels start, lanes i = conv.dotTaps weight (start + i) := by
  let product (entry : ℕ × ℕ) : ℕ → R := fun i =>
    chunk (chunkWidth conv.channels start) start (conv.history entry.1) i *
      chunk (chunkWidth conv.channels start) start (conv.weightTap weight entry.2) i
  have hround : ∀ total : ℕ → R, ∀ entry ∈ (conv.order.drop 1).zipIdx 1, Faulty.Yields (do
      let product ← runElementwise .mul (chunk (chunkWidth conv.channels start) start (conv.history entry.1))
        (chunk (chunkWidth conv.channels start) start (conv.weightTap weight entry.2))
      runElementwise .add total product) fun i => total i + product entry i :=
    fun total entry _ => (Faulty.Yields.call _).bind (Faulty.Yields.call _)
  refine ⟨_, (Faulty.Yields.call _).bind (Faulty.Yields.foldlM _ _ hround), fun i hi => ?_⟩
  have hproduct : ∀ entry : ℕ × ℕ, product entry i =
      conv.history entry.1 (start + i) * conv.weightTap weight entry.2 (start + i) := by
    intro entry
    simp only [product, chunk, if_pos hi]
  have hfirst : conv.order.getD 0 0 = (conv.cursor + 0 + 1) % conv.kernelSize := by
    simp [order, List.getD_eq_getElem?_getD, List.getElem?_range hkernel]
  obtain ⟨k, hk⟩ : ∃ k, conv.kernelSize = k + 1 := ⟨conv.kernelSize - 1, by omega⟩
  rw [foldl_lanes, zipIdx_drop_order, List.foldl_map]
  simp only [hproduct]
  rw [foldl_add_products, dotTaps, hk, Nat.add_sub_cancel, Finset.sum_range_succ', add_comm]
  simp only [chunk, if_pos hi, hfirst, hk]

/-- The chunks yield the sum of the taps in every channel. -/
theorem convolve_yields (hkernel : 1 ≤ conv.kernelSize) (memory : ℕ → R) :
    ∃ result, (conv.convolve weight memory).Yields result ∧
      ∀ c < conv.channels, result c = conv.dotTaps weight c := by
  choose lanes hyields hlanes using convolveChunk_yields hkernel
  refine ⟨_, Faulty.Yields.foldlM _ memory fun result start _ => (hyields start).bind (Faulty.Yields.pure _),
    fun c hc => ?_⟩
  apply foldl_setRange
  · intro start _ hle hlt
    rw [hlanes start _ (by omega), Nat.add_sub_cancel' hle]
  · exact .inl (exists_chunk hc)

/-- The object after a call that succeeds. -/
def advance (conv : CausalConvolution R) (value : NdArray R) : CausalConvolution R :=
  { conv.record value with cursor := (conv.cursor + 1) % conv.kernelSize }

/-- The results of a call that succeeds. -/
def results (conv : CausalConvolution R) (call : ConvolutionCall R) : List R :=
  (List.range conv.channels).map ((conv.record call.value).dotTaps call.weight)

/-- The three ways a call ends: the arguments are refused, a submission raises, or it succeeds. -/
theorem apply_cases (hkernel : 1 ≤ conv.kernelSize) (call : ConvolutionCall R) :
    (∃ e, conv.validate call.value call.weight = .error e ∧ conv.apply call = (conv, .error e)) ∨
    (conv.validate call.value call.weight = .ok () ∧ (∃ k, call.fails k ≠ none) ∧
      ∃ e, conv.apply call = (conv.record call.value, .error e)) ∨
    (conv.validate call.value call.weight = .ok () ∧
      conv.apply call = (conv.advance call.value, .ok (conv.results call))) := by
  unfold apply
  cases hvalid : conv.validate call.value call.weight with
  | error e => exact .inl ⟨e, rfl, rfl⟩
  | ok _ =>
    right
    obtain ⟨result, hyields, hresult⟩ :=
      @convolve_yields R (conv.record call.value) _ call.weight hkernel call.memory
    rcases hyields call.fails 0 with ⟨n, hok⟩ | ⟨⟨e, herror⟩, hfails⟩
    · right
      refine ⟨rfl, ?_⟩
      simp only [hok]
      refine congrArg (Prod.mk (conv.advance call.value)) (congrArg Except.ok ?_)
      exact List.map_congr_left fun c hc => hresult c (List.mem_range.mp hc)
    · left
      refine ⟨rfl, hfails, e, ?_⟩
      simp only [herror]

end Arithmetic

section Failures

theorem record_history (conv : CausalConvolution R) (value : NdArray R) :
    (conv.record value).history = Function.update conv.history conv.cursor value.entry := rfl

/-- Two convolutions that differ at most in the slot at the cursor. -/
structure Agree (conv other : CausalConvolution R) : Prop where
  channels : other.channels = conv.channels
  kernelSize : other.kernelSize = conv.kernelSize
  cursor : other.cursor = conv.cursor
  history : ∀ slot, slot ≠ conv.cursor → other.history slot = conv.history slot

theorem Agree.refl (conv : CausalConvolution R) : Agree conv conv := ⟨rfl, rfl, rfl, fun _ _ => rfl⟩

/-- A call starts by making convolutions that agree the same. -/
theorem Agree.record_eq (h : Agree conv other) (value : NdArray R) : other.record value = conv.record value := by
  have hhistory : Function.update other.history conv.cursor value.entry =
      Function.update conv.history conv.cursor value.entry := by
    funext slot
    by_cases hslot : slot = conv.cursor
    · rw [hslot, Function.update_self, Function.update_self]
    · rw [Function.update_of_ne hslot, Function.update_of_ne hslot, h.history slot hslot]
  simp only [record, h.channels, h.kernelSize, h.cursor, hhistory]

variable [CommRing R]

/-- Convolutions that agree have the same outcome of a call and agree after it. -/
theorem Agree.apply (h : Agree conv other) (call : ConvolutionCall R) :
    (other.apply call).2 = (conv.apply call).2 ∧ Agree (conv.apply call).1 (other.apply call).1 := by
  have hvalidate : other.validate call.value call.weight = conv.validate call.value call.weight := by
    simp only [validate, h.channels, h.kernelSize]
  unfold CausalConvolution.apply
  rw [hvalidate, h.record_eq]
  cases conv.validate call.value call.weight with
  | error e => exact ⟨rfl, h⟩
  | ok _ => exact ⟨rfl, Agree.refl _⟩

/-- Convolutions that agree have the same outcomes from there on. -/
theorem Agree.outcomes (h : Agree conv other) (calls : List (ConvolutionCall R)) :
    other.outcomes calls = conv.outcomes calls := by
  induction calls generalizing conv other with
  | nil => rfl
  | cons call rest ih =>
    obtain ⟨houtcome, hagree⟩ := h.apply call
    rw [CausalConvolution.outcomes, CausalConvolution.outcomes, houtcome, ih hagree]

/-- A call that raises leaves a convolution that agrees with the one before it. -/
theorem agree_of_raise (hkernel : 1 ≤ conv.kernelSize) {call : ConvolutionCall R} {e : PyError}
    (hraise : (conv.apply call).2 = .error e) : Agree conv (conv.apply call).1 := by
  rcases apply_cases hkernel call with ⟨e', -, heq⟩ | ⟨-, -, e', heq⟩ | ⟨-, heq⟩
  · rw [heq]
    exact Agree.refl conv
  · rw [heq]
    exact ⟨rfl, rfl, rfl, fun slot hslot => Function.update_of_ne hslot _ _⟩
  · rw [heq] at hraise
    simp at hraise

end Failures

section History

variable [CommRing R]

/-- The input of `tap` places into the window that ends with the last of some inputs. -/
def windowInput (kernelSize : ℕ) (inputs : List (ℕ → R)) (tap c : ℕ) : R :=
  if kernelSize ≤ inputs.length + tap then
    (inputs.getD (inputs.length + tap - kernelSize) fun _ => 0) c
  else 0

/-- Outside the slot at the cursor the ring holds the latest inputs. -/
structure Follows (channels kernelSize : ℕ) (inputs : List (ℕ → R)) (conv : CausalConvolution R) : Prop where
  channels_eq : conv.channels = channels
  kernelSize_eq : conv.kernelSize = kernelSize
  cursor_eq : conv.cursor = inputs.length % kernelSize
  history_eq : ∀ slot < kernelSize, slot ≠ inputs.length % kernelSize → conv.history slot =
    if slot < inputs.length then inputs.getD (latest inputs.length kernelSize slot) (fun _ => 0) else fun _ => 0

/-- With its input recorded, a call finds the window in the slots from the oldest to the newest. -/
theorem Follows.window (h : Follows channels kernelSize inputs conv) (value : NdArray R) {tap : ℕ}
    (htap : tap < kernelSize) (c : ℕ) :
    (conv.record value).history ((conv.cursor + tap + 1) % kernelSize) c =
      windowInput kernelSize (inputs ++ [value.entry]) tap c := by
  have hslot : (conv.cursor + tap + 1) % kernelSize = (inputs.length + (tap + 1)) % kernelSize := by
    rw [h.cursor_eq, Nat.add_assoc, Nat.mod_add_mod]
  rw [hslot, record_history, windowInput, List.length_append, List.length_singleton]
  by_cases hlast : tap + 1 = kernelSize
  · rw [if_pos (by omega), hlast, Nat.add_mod_right, ← h.cursor_eq, Function.update_self,
      show inputs.length + 1 + tap - kernelSize = inputs.length by omega]
    simp
  have hne := add_mod_ne inputs.length (Nat.succ_pos tap) (show tap + 1 < kernelSize by omega)
  rw [Function.update_of_ne (by rwa [h.cursor_eq]), h.history_eq _ (Nat.mod_lt _ (by omega)) hne]
  by_cases hwindow : kernelSize ≤ inputs.length + 1 + tap
  · have hindex : inputs.length + (tap + 1) = inputs.length + 1 + tap - kernelSize + kernelSize := by omega
    have hmod := Nat.mod_le (inputs.length + 1 + tap - kernelSize) kernelSize
    rw [if_pos hwindow, hindex, Nat.add_mod_right, if_pos (by omega),
      latest_of_window (by omega) (by omega) (by omega) (by omega),
      List.getD_append _ _ _ _ (by omega)]
  · rw [if_neg hwindow, Nat.mod_eq_of_lt (by omega), if_neg (by omega)]

/-- A call that succeeds takes the ring to one more input. -/
theorem Follows.advance (h : Follows channels kernelSize inputs conv) (value : NdArray R) :
    Follows channels kernelSize (inputs ++ [value.entry]) (conv.advance value) := by
  refine ⟨h.channels_eq, h.kernelSize_eq, ?_, fun slot hslot _ => ?_⟩
  · show (conv.cursor + 1) % conv.kernelSize = _
    rw [h.cursor_eq, h.kernelSize_eq, Nat.mod_add_mod, List.length_append, List.length_singleton]
  show Function.update conv.history conv.cursor value.entry slot = _
  rw [List.length_append, List.length_singleton, h.cursor_eq]
  have hmod := Nat.mod_le inputs.length kernelSize
  by_cases hcursor : slot = inputs.length % kernelSize
  · rw [hcursor, Function.update_self, if_pos (by omega), latest_succ_self]
    simp
  rw [Function.update_of_ne hcursor, h.history_eq slot hslot hcursor]
  by_cases hlive : slot < inputs.length
  · have hlatest := isLatest_latest hlive hslot
    rw [if_pos hlive, if_pos (by omega), latest_succ_of_ne hlive hslot hcursor,
      List.getD_append _ _ _ _ hlatest.lt]
  · have hpast : slot ≠ inputs.length := by
      intro heq
      rw [← heq, Nat.mod_eq_of_lt hslot] at hcursor
      exact hcursor rfl
    rw [if_neg hlive, if_neg (by omega)]

/-- The results of one input after others, as sums over the window. -/
def windowSums (channels kernelSize : ℕ) (inputs : List (ℕ → R)) (weight : NdArray R) : List R :=
  (List.range channels).map fun c =>
    ∑ tap ∈ Finset.range kernelSize, weight.entry (c * kernelSize + tap) * windowInput kernelSize inputs tap c

/-- A call that succeeds returns the sums over the window that ends with its input. -/
theorem Follows.results_eq (h : Follows channels kernelSize inputs conv) (call : ConvolutionCall R) :
    conv.results call = windowSums channels kernelSize (inputs ++ [call.value.entry]) call.weight := by
  rw [results, h.channels_eq, windowSums]
  refine List.map_congr_left fun c _ => ?_
  show ∑ tap ∈ Finset.range conv.kernelSize, _ = _
  rw [h.kernelSize_eq]
  refine Finset.sum_congr rfl fun tap htap => ?_
  show (conv.record call.value).history ((conv.cursor + tap + 1) % conv.kernelSize) c *
    call.weight.entry (c * conv.kernelSize + tap) = _
  rw [h.kernelSize_eq, h.window call.value (Finset.mem_range.mp htap) c, mul_comm]

/-- The sums of a sequence of inputs that follow others. -/
def expected (channels kernelSize : ℕ) : List (ℕ → R) → List (ConvolutionCall R) → List (List R)
  | _, [] => []
  | inputs, call :: rest =>
    windowSums channels kernelSize (inputs ++ [call.value.entry]) call.weight ::
      expected channels kernelSize (inputs ++ [call.value.entry]) rest

/-- The calls of a sequence that succeed. -/
def accepted (conv : CausalConvolution R) : List (ConvolutionCall R) → List (ConvolutionCall R)
  | [] => []
  | call :: rest =>
    match (conv.apply call).2 with
    | .ok _ => call :: accepted (conv.apply call).1 rest
    | .error _ => accepted (conv.apply call).1 rest

/-- A convolution keeps following the inputs through a call that raises. -/
theorem Follows.agree (h : Follows channels kernelSize inputs conv) (hagree : Agree conv other) :
    Follows channels kernelSize inputs other := by
  refine ⟨hagree.channels.trans h.channels_eq, hagree.kernelSize.trans h.kernelSize_eq,
    hagree.cursor.trans h.cursor_eq, fun slot hslot hne => ?_⟩
  rw [hagree.history slot (by rwa [h.cursor_eq]), h.history_eq slot hslot hne]

/-- The results of the successful calls are the sums over their own window. -/
theorem Follows.outcomes_eq (h : Follows channels kernelSize inputs conv) (hkernel : 1 ≤ kernelSize)
    (calls : List (ConvolutionCall R)) :
    (conv.outcomes calls).filterMap Except.toOption =
      expected channels kernelSize inputs (conv.accepted calls) := by
  induction calls generalizing conv inputs with
  | nil => rfl
  | cons call rest ih =>
    have hpos : 1 ≤ conv.kernelSize := by rwa [h.kernelSize_eq]
    cases hout : (conv.apply call).2 with
    | error e =>
      have hnext := h.agree (agree_of_raise hpos hout)
      simp only [outcomes, accepted, hout]
      exact ih hnext
    | ok result =>
      rcases apply_cases hpos call with ⟨e, -, heq⟩ | ⟨-, -, e, heq⟩ | ⟨-, heq⟩
      · simp [heq] at hout
      · simp [heq] at hout
      · simp only [heq, Except.ok.injEq] at hout
        have hrest := ih (h.advance call.value)
        simp only [outcomes, accepted, heq, expected]
        rw [← hrest, ← h.results_eq]
        rfl

/-- The sums of a sequence, one by one. -/
theorem getElem?_expected (calls : List (ConvolutionCall R)) (inputs : List (ℕ → R)) (t : ℕ) :
    (expected channels kernelSize inputs calls)[t]? = calls[t]?.map fun call =>
      windowSums channels kernelSize (inputs ++ (calls.take (t + 1)).map fun call => call.value.entry)
        call.weight := by
  induction calls generalizing inputs t with
  | nil => simp [expected]
  | cons call rest ih =>
    rw [expected]
    cases t with
    | zero => simp
    | succ t =>
      rw [List.getElem?_cons_succ, List.getElem?_cons_succ, ih]
      simp

/-- The input that a tap of the `t`-th of some calls sees; before the first call it is zero. -/
def inputBefore (calls : List (ConvolutionCall R)) (kernelSize t tap c : ℕ) : R :=
  if kernelSize ≤ t + 1 + tap then
    calls[t + 1 + tap - kernelSize]?.elim 0 fun call => call.value.entry c
  else 0

/-- The window of the first inputs shows the inputs before a call. -/
theorem windowInput_take {calls : List (ConvolutionCall R)} {t tap : ℕ} (ht : t < calls.length)
    (htap : tap < kernelSize) (c : ℕ) :
    windowInput kernelSize ((calls.take (t + 1)).map fun call => call.value.entry) tap c =
      inputBefore calls kernelSize t tap c := by
  have hlength : ((calls.take (t + 1)).map fun call => call.value.entry).length = t + 1 := by
    simp
    omega
  rw [windowInput, inputBefore, hlength]
  by_cases hwindow : kernelSize ≤ t + 1 + tap
  · have hindex : t + 1 + tap - kernelSize < t + 1 := by omega
    rw [if_pos hwindow, if_pos hwindow, List.getD_eq_getElem?_getD, List.getElem?_map,
      List.getElem?_take_of_lt hindex, List.getElem?_eq_getElem (by omega)]
    rfl
  · rw [if_neg hwindow, if_neg hwindow]

end History

section Host

variable [CommRing R]

/-- The host's window: the kept columns and the new one. -/
def hostWindow (kernelSize : ℕ) (convState : ℕ → ℕ → R) (mixed : ℕ → R) (c k : ℕ) : R :=
  if k < kernelSize - 1 then convState c k else mixed c

/-- The host's step: drop the first column and sum the products. -/
def hostStep (channels kernelSize : ℕ) (convState : ℕ → ℕ → R) (call : ConvolutionCall R) :
    (ℕ → ℕ → R) × List R :=
  (fun c k => hostWindow kernelSize convState call.value.entry c (k + 1),
    (List.range channels).map fun c => ∑ k ∈ Finset.range kernelSize,
      hostWindow kernelSize convState call.value.entry c k * call.weight.entry (c * kernelSize + k))

/-- The host's results of a sequence of inputs. -/
def hostRun (channels kernelSize : ℕ) (convState : ℕ → ℕ → R) : List (ConvolutionCall R) → List (List R)
  | [] => []
  | call :: rest =>
    (hostStep channels kernelSize convState call).2 ::
      hostRun channels kernelSize (hostStep channels kernelSize convState call).1 rest

variable {convState : ℕ → ℕ → R}

/-- A place of the window is the next place of the window before. -/
theorem windowInput_append_of_lt (value : ℕ → R) (hk : k + 1 < kernelSize) (c : ℕ) :
    windowInput kernelSize (inputs ++ [value]) k c = windowInput kernelSize inputs (k + 1) c := by
  simp only [windowInput, List.length_append, List.length_singleton]
  by_cases hwindow : kernelSize ≤ inputs.length + (k + 1)
  · rw [if_pos (by omega), if_pos hwindow, List.getD_append _ _ _ _ (by omega),
      show inputs.length + 1 + k = inputs.length + (k + 1) by omega]
  · rw [if_neg (by omega), if_neg hwindow]

/-- The last place of the window is the new input. -/
theorem windowInput_append_last (value : ℕ → R) (hk : k + 1 = kernelSize) (c : ℕ) :
    windowInput kernelSize (inputs ++ [value]) k c = value c := by
  simp only [windowInput, List.length_append, List.length_singleton]
  rw [if_pos (by omega), show inputs.length + 1 + k - kernelSize = inputs.length by omega]
  simp

/-- The host's window is the window of the inputs. -/
theorem hostWindow_eq (h : ∀ c k, k + 1 < kernelSize → convState c k = windowInput kernelSize inputs (k + 1) c)
    (mixed : ℕ → R) (hk : k < kernelSize) (c : ℕ) :
    hostWindow kernelSize convState mixed c k = windowInput kernelSize (inputs ++ [mixed]) k c := by
  rw [hostWindow]
  by_cases hkept : k + 1 < kernelSize
  · rw [if_pos (by omega), h c k hkept, windowInput_append_of_lt mixed hkept]
  · rw [if_neg (by omega), windowInput_append_last mixed (by omega)]

/-- The host computes the sums over the window. -/
theorem hostRun_eq (h : ∀ c k, k + 1 < kernelSize → convState c k = windowInput kernelSize inputs (k + 1) c)
    (calls : List (ConvolutionCall R)) :
    hostRun channels kernelSize convState calls = expected channels kernelSize inputs calls := by
  induction calls generalizing inputs convState with
  | nil => rfl
  | cons call rest ih =>
    rw [hostRun, expected]
    congr 1
    · refine List.map_congr_left fun c _ => Finset.sum_congr rfl fun k hk => ?_
      rw [hostWindow_eq h call.value.entry (Finset.mem_range.mp hk), mul_comm]
    · apply ih
      intro c k hk
      exact hostWindow_eq h call.value.entry hk c

end Host

section Run

variable [CommRing R]

/-- A fresh convolution has seen no input. -/
theorem follows_init (hinit : init channels kernelSize = .ok conv) :
    1 ≤ kernelSize ∧ Follows channels kernelSize [] conv := by
  unfold init at hinit
  split at hinit
  · simp at hinit
  · rename_i hpositive
    cases hinit
    refine ⟨by omega, rfl, rfl, ?_, fun slot _ _ => ?_⟩
    · simp
    · simp

/-- A call keeps the number of taps. -/
theorem kernelSize_apply (conv : CausalConvolution R) (call : ConvolutionCall R) :
    (conv.apply call).1.kernelSize = conv.kernelSize := by
  unfold apply
  split
  · rfl
  · dsimp only
    split
    · rfl
    · rfl

theorem kernelSize_after (conv : CausalConvolution R) (calls : List (ConvolutionCall R)) :
    (conv.after calls).kernelSize = conv.kernelSize := by
  induction calls generalizing conv with
  | nil => rfl
  | cons call rest ih => rw [after, ih, kernelSize_apply]

/-- There are as many sums as calls. -/
theorem length_expected (inputs : List (ℕ → R)) (calls : List (ConvolutionCall R)) :
    (expected channels kernelSize inputs calls).length = calls.length := by
  induction calls generalizing inputs with
  | nil => rfl
  | cons call rest ih => rw [expected, List.length_cons, ih, List.length_cons]

/-- Every sequence of calls on a fresh convolution: the successful calls return the sums over the
inputs of the successful calls, as the host does; a call that raises changes no later outcome; and a
call with good arguments and no raising submission succeeds. -/
theorem convolution_run (channels kernelSize : ℕ) (conv : CausalConvolution R)
    (hinit : init channels kernelSize = .ok conv) (calls : List (ConvolutionCall R)) :
    ((conv.outcomes calls).filterMap Except.toOption).length = (conv.accepted calls).length ∧
      (∀ t call, (conv.accepted calls)[t]? = some call →
        ((conv.outcomes calls).filterMap Except.toOption)[t]? = some ((List.range channels).map fun c =>
          ∑ tap ∈ Finset.range kernelSize, call.weight.entry (c * kernelSize + tap) *
            inputBefore (conv.accepted calls) kernelSize t tap c)) ∧
      (conv.outcomes calls).filterMap Except.toOption =
        hostRun channels kernelSize (fun _ _ => 0) (conv.accepted calls) ∧
      ∀ before call rest, calls = before ++ call :: rest →
        (∀ e, ((conv.after before).apply call).2 = .error e →
          ((conv.after before).apply call).1.outcomes rest = (conv.after before).outcomes rest) ∧
        ((conv.after before).validate call.value call.weight = .ok () → (∀ k, call.fails k = none) →
          ∃ result, ((conv.after before).apply call).2 = .ok result) := by
  obtain ⟨hkernel, hfollows⟩ := follows_init hinit
  have hsums := hfollows.outcomes_eq hkernel calls
  rw [hsums]
  refine ⟨length_expected _ _, fun t call ht => ?_, ?_, fun before call rest _ => ?_⟩
  · have hlt : t < (conv.accepted calls).length := (List.getElem?_eq_some_iff.mp ht).1
    rw [getElem?_expected, ht, Option.map_some, List.nil_append]
    refine congrArg some (List.map_congr_left fun c _ => Finset.sum_congr rfl fun tap htap => ?_)
    rw [windowInput_take hlt (Finset.mem_range.mp htap)]
  · symm
    apply hostRun_eq
    intro c k hk
    rw [windowInput, if_neg]
    simp
    omega
  · have hpos : 1 ≤ (conv.after before).kernelSize := by
      rw [kernelSize_after, hfollows.kernelSize_eq]
      exact hkernel
    refine ⟨fun e hraise => (agree_of_raise hpos hraise).outcomes rest, fun hvalid hfails => ?_⟩
    rcases apply_cases hpos call with ⟨e, hinvalid, -⟩ | ⟨-, ⟨k, hk⟩, -⟩ | ⟨-, heq⟩
    · rw [hvalid] at hinvalid
      simp at hinvalid
    · exact absurd (hfails k) hk
    · exact ⟨_, by rw [heq]⟩

/-- A convolution of one channel and two taps over the integers. -/
def twoTaps : CausalConvolution ℤ := { channels := 1, kernelSize := 2, history := fun _ _ => 0, cursor := 0 }

/-- A call with one input and the weights 1 and 10. -/
def twoTapsCall (value : ℤ) (fails : ℕ → Option PyError) : ConvolutionCall ℤ where
  value := { dtype := .float16, finite := true, shape := [1], entry := fun _ => value }
  weight := { dtype := .float16, finite := true, shape := [1, 2], entry := fun i => if i = 0 then 1 else 10 }
  fails := fails
  memory := fun _ => 0

/-- A call between two others raises at its second submission and is not seen by the third call. -/
theorem convolution_run_twoTaps :
    (init 1 2 : Py (CausalConvolution ℤ)) = .ok twoTaps ∧
      (twoTaps.outcomes [twoTapsCall 3 fun _ => none,
          twoTapsCall 4 fun k => if k = 1 then some (.timeoutError "late") else none,
          twoTapsCall 5 fun _ => none]).filterMap Except.toOption =
        hostRun 1 2 (fun _ _ => 0) (twoTaps.accepted [twoTapsCall 3 fun _ => none,
          twoTapsCall 4 fun k => if k = 1 then some (.timeoutError "late") else none,
          twoTapsCall 5 fun _ => none]) :=
  ⟨rfl, (convolution_run 1 2 twoTaps rfl _).2.2.1⟩

end Run

end CausalConvolution

end AneLinux.Runtime
