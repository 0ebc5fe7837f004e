import AneLinux.Qwen4.CacheLength
import AneLinux.Qwen4.DeltaRule
import AneLinux.Qwen4.ShortConv
import Mathlib.Analysis.SpecialFunctions.Log.Basic

/-!
# The gated delta net

`RefModel.gated_delta_net` puts the rows kept of the calls before in front of the new ones, convolves, and runs the
gated delta rule from the state kept of the calls before: token by token if there is one token, and in chunks of 64
otherwise. A text may be cut into calls anywhere, except behind its first token.

Arithmetic is exact. The logarithm, the exponential and the square root are parameters.
-/

namespace AneLinux.Qwen4

open AneLinux.Support AneLinux.Qwen Finset

/-- The functions of the library that the layer uses. -/
structure Elementary (R : Type) where
  exp : R → R
  sqrt : R → R
  log1p : R → R

namespace Elementary

variable {R : Type} [Field R] [LinearOrder R] (lib : Elementary R)

/-- `sigmoid`. -/
def sigmoid (x : R) : R := 1 / (1 + lib.exp (-x))

/-- `_silu`. -/
def silu (x : R) : R := x / (1 + lib.exp (-x))

/-- `softplus`. -/
def softplus (x : R) : R := lib.log1p (lib.exp (-max x (-x))) + max x 0

/-- `l2norm` of one row. -/
def l2norm {n : ℕ} (x : Fin n → R) (d : Fin n) : R := x d * 1 / lib.sqrt (∑ i, x i * x i + 1 / 1000000)

/-- `rmsnorm_gated_sigmoid` of one row. -/
def rmsnormGatedSigmoid {n : ℕ} (x gate w : Fin n → R) (d : Fin n) : R :=
  let var := (∑ i, x i * x i) / n
  w d * (x d * 1 / lib.sqrt (var + 1 / 1000000)) * (1 / (1 + lib.exp (-gate d)))

end Elementary

/-- The weights of a layer, each by output and input, and its heads; `repeats` value heads share a key head. -/
structure DeltaNet (hidden keyDim keyHeads repeats : ℕ) (R : Type) where
  layer : ℕ
  kernel : ℕ
  inProjQkv : ℕ → Fin hidden → R
  inProjZ : ℕ → Fin hidden → R
  inProjB : ℕ → Fin hidden → R
  inProjA : ℕ → Fin hidden → R
  conv1d : ℕ → ℕ → R
  aLog : ℕ → R
  dtBias : ℕ → R
  norm : Fin keyDim → R
  outProj : Fin hidden → ℕ → R

/-- What a layer keeps between calls. -/
structure DeltaCache (keyDim heads : ℕ) (R : Type) where
  conv : Option (List (ℕ → R))
  ssm : Option (Fin 1 → Fin heads → Fin keyDim → Fin keyDim → R)

/-- A new cache. -/
def DeltaCache.empty {keyDim heads : ℕ} {R : Type} : DeltaCache keyDim heads R := { conv := none, ssm := none }

namespace DeltaNet

variable {hidden keyDim keyHeads repeats : ℕ} {R : Type} [Field R] [LinearOrder R]
  (net : DeltaNet hidden keyDim keyHeads repeats R) (lib : Elementary R)

/-- A row of `qkv`. -/
def qkv (x : Fin hidden → R) (c : ℕ) : R := dot x (net.inProjQkv c)

/-- `causal_conv1d` of rows that begin with those kept, then `_silu`. -/
def convolved (full : List (ℕ → R)) : List (ℕ → R) :=
  (List.range (full.length - (net.kernel - 1))).map fun t c =>
    lib.silu (∑ k ∈ range net.kernel, net.conv1d c k * full.getD (t + k) 0 c)

/-- The arguments of the delta rule. -/
def inputs (x : List (Fin hidden → R)) (convOut : List (ℕ → R)) :
    DeltaInputs 1 x.length (keyHeads * repeats) keyDim keyDim R where
  q _ t h d := convOut.getD t 0 (h / repeats * keyDim + d)
  k _ t h d := convOut.getD t 0 (keyHeads * keyDim + h / repeats * keyDim + d)
  v _ t h d := convOut.getD t 0 (2 * (keyHeads * keyDim) + h * keyDim + d)
  g _ t h := -lib.exp (net.aLog h) * lib.softplus (dot x[t] (net.inProjA h) + net.dtBias h)
  beta _ t h := lib.sigmoid (dot x[t] (net.inProjB h))

/-- What the layer makes of the outputs of its heads at a position. -/
def finish (x : Fin hidden → R) (out : Fin (keyHeads * repeats) → Fin keyDim → R) (c : Fin hidden) : R :=
  ∑ h, ∑ d, lib.rmsnormGatedSigmoid (out h) (fun d => dot x (net.inProjZ (h * keyDim + d))) net.norm d *
    net.outProj c (h * keyDim + d)

/-- `RefModel.gated_delta_net`. -/
def call (x : List (Fin hidden → R)) (cache : DeltaCache keyDim (keyHeads * repeats) R) :
    DeltaCache keyDim (keyHeads * repeats) R × Py (List (Fin hidden → R)) :=
  match freeReshape x.length with
  | .error e => (cache, .error e)
  | .ok _ =>
    let convState := cache.conv.getD (List.replicate (net.kernel - 1) 0)
    let full := convState ++ x.map net.qkv
    let cache := { cache with conv := some (lastRows full (net.kernel - 1)) }
    let inputs := net.inputs lib x (net.convolved lib full)
    -- `Fin.last 0` is the one text of the batch
    let run (outputs : DeltaOutputs 1 x.length (keyHeads * repeats) keyDim keyDim R) :=
      ({ cache with ssm := some outputs.state },
        .ok (List.ofFn fun t => net.finish lib x[t] (outputs.out (Fin.last 0) t)))
    if x.length = 1 then
      match cache.ssm with
      | none => (cache, .error (.keyError s!"model.language_model.layers.{net.layer}.linear_attn.ssm"))
      | some state => run (recurrentGatedDeltaRule lib.exp lib.l2norm (lib.sqrt keyDim) inputs (some state))
    else run (chunkGatedDeltaRule lib.exp lib.l2norm (lib.sqrt keyDim) inputs cache.ssm 64)

/-- Calls one after another with one cache. -/
def runCalls : DeltaCache keyDim (keyHeads * repeats) R → List (List (Fin hidden → R)) → Py (List (Fin hidden → R))
  | _, [] => .ok []
  | cache, x :: rest => do
    let (cache, out) := net.call lib x cache
    let out ← out
    return out ++ (← runCalls cache rest)

/-! ## The whole text -/

/-- The convolution of a text at a position, with zeros in front of the text. -/
def convAt (text : List (Fin hidden → R)) (t c : ℕ) : R :=
  lib.silu (∑ k ∈ range net.kernel, net.conv1d c k *
    if t + k < net.kernel - 1 then 0 else net.qkv (text.getD (t + k - (net.kernel - 1)) 0) c)

/-- The token of a head at a position of a text. -/
def tokenAt (text : List (Fin hidden → R)) (h t : ℕ) : Support.Token R (Fin keyDim) (Fin keyDim → R) where
  key := lib.l2norm fun d : Fin keyDim => net.convAt lib text t (keyHeads * keyDim + h / repeats * keyDim + d)
  query := fun d =>
    lib.l2norm (fun d : Fin keyDim => net.convAt lib text t (h / repeats * keyDim + d)) d / lib.sqrt keyDim
  value := fun d => net.convAt lib text t (2 * (keyHeads * keyDim) + h * keyDim + d)
  decay := -lib.exp (net.aLog h) * lib.softplus (dot (text.getD t 0) (net.inProjA h) + net.dtBias h)
  beta := lib.sigmoid (dot (text.getD t 0) (net.inProjB h))

/-- The layer at a position of a text, token by token. -/
def wholeAt (text : List (Fin hidden → R)) (t : ℕ) : Fin hidden → R :=
  net.finish lib (text.getD t 0) fun h => outputAt lib.exp (net.tokenAt lib text h) 0 t

/-- The layer over a whole text. -/
def whole (text : List (Fin hidden → R)) : List (Fin hidden → R) := (List.range text.length).map (net.wholeAt lib text)

/-! ## What is kept between calls -/

section Recurrence

variable {ι W : Type} [Fintype ι] [AddCommGroup W] [Module R W] {E : R → R} {tokens tokens' : ℕ → Support.Token R ι W}

omit [LinearOrder R] in
theorem stateAt_congr (S : ι → W) {n : ℕ} (h : ∀ i < n, tokens i = tokens' i) :
    stateAt E tokens S n = stateAt E tokens' S n := by
  induction n with
  | zero => rfl
  | succ n ih => rw [stateAt, stateAt, ih fun i hi => h i (hi.trans n.lt_succ_self), h n n.lt_succ_self]

omit [LinearOrder R] in
theorem outputAt_congr (S : ι → W) {n : ℕ} (h : ∀ i ≤ n, tokens i = tokens' i) :
    outputAt E tokens S n = outputAt E tokens' S n := by
  rw [outputAt, outputAt, h n le_rfl, stateAt_congr S fun i hi => h i (Nat.lt_succ_iff.mp hi)]

end Recurrence

/-- The rows that are kept behind a text. -/
def keptRows (text : List (Fin hidden → R)) : List (ℕ → R) :=
  lastRows (List.replicate (net.kernel - 1) 0 ++ text.map net.qkv) (net.kernel - 1)

/-- The matrices behind a text. -/
def stateAfter (text : List (Fin hidden → R)) (h : ℕ) : Fin keyDim → Fin keyDim → R :=
  stateAt lib.exp (net.tokenAt lib text h) 0 text.length

/-- A cache behind a text. -/
structure Keeps (text : List (Fin hidden → R)) (cache : DeltaCache keyDim (keyHeads * repeats) R) : Prop where
  conv : cache.conv.getD (List.replicate (net.kernel - 1) 0) = net.keptRows text
  ssm : ∀ b (h : Fin (keyHeads * repeats)), initialState cache.ssm b h = net.stateAfter lib text h
  empty : cache.ssm = none ↔ text = []

variable {net lib} {text x : List (Fin hidden → R)} {cache : DeltaCache keyDim (keyHeads * repeats) R}

omit [LinearOrder R] in
/-- The rows that a call convolves are the last of the whole text, behind zeros. -/
theorem keptRows_append (hK : 2 ≤ net.kernel) (text x : List (Fin hidden → R)) :
    net.keptRows text ++ x.map net.qkv =
      (List.replicate (net.kernel - 1) 0 ++ (text ++ x).map net.qkv).drop text.length := by
  have hlength : text.length ≤ (List.replicate (net.kernel - 1) (0 : ℕ → R) ++ text.map net.qkv).length := by
    rw [List.length_append, List.length_map]
    exact Nat.le_add_left _ _
  rw [keptRows, lastRows, if_neg (by omega), List.length_append, List.length_replicate, List.length_map,
    Nat.add_sub_cancel_left, List.map_append, ← List.append_assoc, List.drop_append_of_le_length hlength]

omit [LinearOrder R] in
theorem convolved_kept (hK : 2 ≤ net.kernel) (text : List (Fin hidden → R)) {t : ℕ} (ht : t < x.length) (c : ℕ) :
    (net.convolved lib (net.keptRows text ++ x.map net.qkv)).getD t 0 c =
      net.convAt lib (text ++ x) (text.length + t) c := by
  have hlength : (net.keptRows text ++ x.map net.qkv).length = net.kernel - 1 + x.length := by
    rw [keptRows_append hK, List.length_drop, List.length_append, List.length_replicate, List.length_map,
      List.length_append]
    omega
  have hrow : ∀ k ∈ Finset.range net.kernel, (net.keptRows text ++ x.map net.qkv).getD (t + k) 0 c =
      if text.length + t + k < net.kernel - 1 then 0
      else net.qkv ((text ++ x).getD (text.length + t + k - (net.kernel - 1)) 0) c := by
    intro k hk
    have hk := mem_range.mp hk
    rw [keptRows_append hK, List.getD_eq_getElem?_getD, List.getElem?_drop, ← Nat.add_assoc]
    split
    case isTrue hlt =>
      rw [List.getElem?_append_left (by rw [List.length_replicate]; exact hlt), List.getElem?_replicate, if_pos hlt]
      rfl
    case isFalse hge =>
      have hin : text.length + t + k - (net.kernel - 1) < (text ++ x).length := by
        rw [List.length_append]
        omega
      rw [List.getElem?_append_right (by rw [List.length_replicate]; omega), List.length_replicate, List.getElem?_map,
        List.getElem?_eq_getElem hin, List.getD_eq_getElem _ _ hin]
      rfl
  rw [convolved, hlength, Nat.add_sub_cancel_left, List.getD_eq_getElem?_getD, List.getElem?_map,
    List.getElem?_range ht]
  exact congrArg lib.silu (sum_congr rfl fun k hk => by rw [hrow k hk])

omit [LinearOrder R] in
/-- A position does not see what follows it. -/
theorem convAt_append {t : ℕ} (ht : t < text.length) (x : List (Fin hidden → R)) (c : ℕ) (hK : 1 ≤ net.kernel) :
    net.convAt lib (text ++ x) t c = net.convAt lib text t c := by
  refine congrArg lib.silu (sum_congr rfl fun k hk => ?_)
  have hk := mem_range.mp hk
  rw [List.getD_append _ _ _ _ (by omega)]

theorem tokenAt_append {t : ℕ} (ht : t < text.length) (x : List (Fin hidden → R)) (h : ℕ) (hK : 1 ≤ net.kernel) :
    net.tokenAt lib (text ++ x) h t = net.tokenAt lib text h t := by
  simp only [tokenAt, convAt_append ht x _ hK, List.getD_append _ _ _ _ ht]

/-- The tokens of a call are those of the whole text. -/
theorem recurrentTokens_eq (hK : 2 ≤ net.kernel) (text : List (Fin hidden → R)) (b : Fin 1)
    (h : Fin (keyHeads * repeats)) {i : ℕ} (hi : i < x.length) :
    recurrentTokens lib.l2norm (lib.sqrt keyDim)
        (net.inputs lib x (net.convolved lib (net.keptRows text ++ x.map net.qkv))) b h i =
      net.tokenAt lib (text ++ x) h (text.length + i) := by
  have hrow : (text ++ x).getD (text.length + i) 0 = x[i] := by
    rw [List.getD_append_right _ _ _ _ (Nat.le_add_right _ _), Nat.add_sub_cancel_left, List.getD_eq_getElem _ _ hi]
  rw [recurrentTokens, dif_pos hi, tokenAt, hrow]
  simp only [inputs, convolved_kept hK text hi]
  rfl

/-- What a text gives does not depend on what follows it. -/
theorem take_whole_append (hK : 2 ≤ net.kernel) (text x : List (Fin hidden → R)) :
    (net.whole lib (text ++ x)).take text.length = net.whole lib text := by
  rw [whole, whole, ← List.map_take, List.take_range, List.length_append, Nat.min_eq_left (Nat.le_add_right _ _)]
  refine List.map_congr_left fun t ht => ?_
  have ht := List.mem_range.mp ht
  rw [wholeAt, wholeAt, List.getD_append _ _ _ _ ht]
  congr 1
  funext h
  exact outputAt_congr _ fun i hi => tokenAt_append (lt_of_le_of_lt hi ht) x h (by omega)

/-- The rule of a call, from the state behind a text. -/
theorem recurrentGatedDeltaRule_kept (hK : 2 ≤ net.kernel) (hkeeps : net.Keeps lib text cache) :
    let inputs := net.inputs lib x (net.convolved lib (net.keptRows text ++ x.map net.qkv))
    recurrentGatedDeltaRule lib.exp lib.l2norm (lib.sqrt keyDim) inputs cache.ssm =
      { out := fun _ t h => outputAt lib.exp (net.tokenAt lib (text ++ x) h) 0 (text.length + t)
        state := fun _ h => net.stateAfter lib (text ++ x) h } := by
  have hstate : ∀ h, stateAt lib.exp (net.tokenAt lib (text ++ x) h) 0 text.length = net.stateAfter lib text h :=
    fun h => stateAt_congr 0 fun i hi => tokenAt_append hi x h (by omega)
  refine DeltaOutputs.mk.injEq _ _ _ _ ▸ ⟨?_, ?_⟩
  · funext b t h
    rw [outputAt_add, hstate, hkeeps.ssm]
    exact outputAt_congr _ fun i hi => recurrentTokens_eq hK text b h (lt_of_le_of_lt hi t.isLt)
  · funext b h
    rw [stateAfter, List.length_append, stateAt_add, hstate, hkeeps.ssm]
    exact stateAt_congr _ fun i hi => recurrentTokens_eq hK text b h hi

omit [LinearOrder R] in
/-- The rows that are kept behind a call. -/
theorem lastRows_kept (hK : 2 ≤ net.kernel) (text x : List (Fin hidden → R)) :
    lastRows (net.keptRows text ++ x.map net.qkv) (net.kernel - 1) = net.keptRows (text ++ x) := by
  rw [keptRows, ShortConv.lastRows_append_lastRows (by omega), keptRows, List.map_append, List.append_assoc]

/-- One call behind a text. -/
theorem call_keeps (hE : ∀ a b, lib.exp (a + b) = lib.exp a * lib.exp b) (hone : lib.exp 0 = 1) (hK : 2 ≤ net.kernel)
    (hkeeps : net.Keeps lib text cache) (hx : x ≠ []) (hfirst : text = [] → x.length ≠ 1) :
    ∃ cache', net.call lib x cache = (cache', .ok ((net.whole lib (text ++ x)).drop text.length)) ∧
      net.Keeps lib (text ++ x) cache' := by
  have hrule := recurrentGatedDeltaRule_kept (x := x) hK hkeeps
  have hne : text ++ x ≠ [] := fun h => hx (List.append_eq_nil_iff.mp h).2
  have hanswer : (net.whole lib (text ++ x)).drop text.length = List.ofFn fun t : Fin x.length =>
      net.finish lib x[t] fun h => outputAt lib.exp (net.tokenAt lib (text ++ x) h) 0 (text.length + t) := by
    refine List.ext_getElem (by simp [whole]) fun t ht ht' => ?_
    have htx : t < x.length := by rwa [List.length_ofFn] at ht'
    simp only [whole, List.getElem_drop, List.getElem_map, List.getElem_range, List.getElem_ofFn, wholeAt]
    rw [List.getD_append_right _ _ _ _ (Nat.le_add_right _ _), Nat.add_sub_cancel_left, List.getD_eq_getElem _ _ htx]
    rfl
  have hnext : ∀ state : Fin 1 → Fin (keyHeads * repeats) → Fin keyDim → Fin keyDim → R,
      (∀ b h, state b h = net.stateAfter lib (text ++ x) h) →
      net.Keeps lib (text ++ x) { conv := some (net.keptRows (text ++ x)), ssm := some state } := fun state hstate =>
    ⟨rfl, hstate, ⟨nofun, fun h => absurd h hne⟩⟩
  rw [hanswer, call, freeReshape, if_neg (by rwa [List.length_eq_zero_iff])]
  dsimp only
  rw [hkeeps.conv, lastRows_kept hK]
  split
  case isTrue hlength =>
    cases hssm : cache.ssm with
    | none => exact absurd hlength (hfirst (hkeeps.empty.mp hssm))
    | some state =>
      rw [hssm] at hrule
      dsimp only at hrule ⊢
      rw [hrule]
      exact ⟨_, rfl, hnext _ fun _ _ => rfl⟩
  case isFalse =>
    rw [chunkGatedDeltaRule_eq hE hone (by decide), hrule]
    exact ⟨_, rfl, hnext _ fun _ _ => rfl⟩

/-- What calls return behind a text is the rest of the whole. -/
theorem runCalls_kept (hE : ∀ a b, lib.exp (a + b) = lib.exp a * lib.exp b) (hone : lib.exp 0 = 1)
    (hK : 2 ≤ net.kernel) (calls : List (List (Fin hidden → R))) (hcalls : ∀ x ∈ calls, x ≠ [])
    (hkeeps : net.Keeps lib text cache) (hfirst : text = [] → ∀ x, calls.head? = some x → x.length ≠ 1) :
    net.runCalls lib cache calls = .ok ((net.whole lib (text ++ calls.flatten)).drop text.length) := by
  induction calls generalizing text cache with
  | nil =>
    have hdrop : (net.whole lib text).drop text.length = [] := List.drop_eq_nil_of_le (by simp [whole])
    rw [runCalls, List.flatten_nil, List.append_nil, hdrop]
  | cons x rest ih =>
    obtain ⟨hx, hrest⟩ := List.forall_mem_cons.mp hcalls
    obtain ⟨cache', hcall, hkeeps'⟩ := call_keeps hE hone hK hkeeps hx fun htext => hfirst htext x rfl
    have hne : text ++ x ≠ [] := fun h => hx (List.append_eq_nil_iff.mp h).2
    have hlater := ih hrest hkeeps' fun h => absurd h hne
    have hwhole : net.whole lib (text ++ x) =
        (net.whole lib (text ++ (x :: rest).flatten)).take (text ++ x).length := by
      rw [List.flatten_cons, ← List.append_assoc, take_whole_append hK]
    have hsplit : (net.whole lib (text ++ x)).drop text.length ++
        (net.whole lib (text ++ x ++ rest.flatten)).drop (text ++ x).length =
          (net.whole lib (text ++ (x :: rest).flatten)).drop text.length := by
      rw [hwhole, List.flatten_cons, ← List.append_assoc, List.length_append, List.drop_take, Nat.add_sub_cancel_left,
        ← List.drop_drop, List.take_append_drop]
    rw [runCalls, hcall, ← hsplit]
    dsimp only
    rw [hlater]
    rfl

/-- However a text is cut into calls, they return what the whole text gives, token by token; but a first call with a
single token finds no state. -/
theorem runCalls_eq (net : DeltaNet hidden keyDim keyHeads repeats R) (lib : Elementary R)
    (hE : ∀ a b, lib.exp (a + b) = lib.exp a * lib.exp b) (hone : lib.exp 0 = 1) (hK : 2 ≤ net.kernel)
    (calls : List (List (Fin hidden → R))) (hcalls : ∀ x ∈ calls, x ≠ []) :
    net.runCalls lib .empty calls =
      if calls.head?.map List.length = some 1 then
        .error (.keyError s!"model.language_model.layers.{net.layer}.linear_attn.ssm")
      else .ok (net.whole lib calls.flatten) := by
  have hstart : net.Keeps lib [] .empty := by
    refine ⟨?_, fun _ _ => rfl, Iff.rfl.trans ⟨fun _ => rfl, fun _ => rfl⟩⟩
    rw [keptRows, lastRows, if_neg (by omega), List.map_nil, List.append_nil, List.length_replicate, Nat.sub_self]
    rfl
  split
  case isTrue hfirst =>
    obtain ⟨x, rest, rfl⟩ := List.exists_cons_of_ne_nil (l := calls) (by rintro rfl; cases hfirst)
    obtain ⟨token, rfl⟩ := List.length_eq_one_iff.mp (Option.some.inj hfirst)
    rfl
  case isFalse hfirst =>
    refine runCalls_kept hE hone hK calls hcalls hstart fun _ x hx hlength => hfirst ?_
    rw [hx, Option.map_some, hlength]

/-- A net with one key head for two value heads, over two dimensions. -/
noncomputable def pairNet : DeltaNet 2 2 1 2 ℝ where
  layer := 0
  kernel := 4
  inProjQkv c d := c + d
  inProjZ c d := c - d
  inProjB c _ := c
  inProjA _ d := d
  conv1d c k := c - k
  aLog _ := 0
  dtBias _ := 1
  norm _ := 1
  outProj c i := c * i

/-- The functions of the reals. -/
noncomputable def realFunctions : Elementary ℝ where
  exp := Real.exp
  sqrt := Real.sqrt
  log1p x := Real.log (1 + x)

/-- A prompt of three tokens and two single tokens behind it. -/
theorem runCalls_eq_prompt :
    pairNet.runCalls realFunctions .empty [[![1, 2], ![3, 4], ![5, 6]], [![7, 8]], [![9, 10]]] =
      .ok (pairNet.whole realFunctions [![1, 2], ![3, 4], ![5, 6], ![7, 8], ![9, 10]]) :=
  runCalls_eq pairNet realFunctions Real.exp_add Real.exp_zero (by decide)
    [[![1, 2], ![3, 4], ![5, 6]], [![7, 8]], [![9, 10]]] (by simp)

end DeltaNet

end AneLinux.Qwen4
