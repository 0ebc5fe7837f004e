import AneLinux.Support.Broadcast
import AneLinux.Support.Dispatch
import AneLinux.Support.Python

/-!
# The fused pointwise dispatch

For two arrays of halves in one of three layouts a single dispatch takes the place of two casts, a pointwise operation
and a cast back. Its threads form a grid of two axes, and each computes the flat index of its element in 32 bits. A
single-element right-hand side is taken as a scalar whatever its rank is, and a grid of more than 256 full rows has
threads whose index wraps around.
-/

namespace AneLinux.Shader

open AneLinux.Support Broadcast

/-! ## Arrays -/

inductive Dtype
  | float16 | float32 | int32 | bool
deriving DecidableEq

/-- An array: its elements are in row-major order. -/
structure MxArray (α : Type) where
  dtype : Dtype
  shape : List ℕ
  get : ℕ → α

inductive PwOp
  | add | sub | mul
deriving DecidableEq

def PwOp.name : PwOp → String
  | .add => "add"
  | .sub => "sub"
  | .mul => "mul"

/-- The arithmetic of elements: a cast to another type, an operation in a type, and the conjunction of booleans. -/
structure Elementwise (α : Type) where
  astype : Dtype → Dtype → α → α
  binary : PwOp → Dtype → α → α → α
  logicalAnd : α → α → α

variable {α : Type}

namespace MxArray

def size (x : MxArray α) : ℕ := x.shape.prod

def ndim (x : MxArray α) : ℕ := x.shape.length

def astype (ew : Elementwise α) (x : MxArray α) (target : Dtype) : MxArray α :=
  { x with dtype := target, get := fun i => ew.astype x.dtype target (x.get i) }

/-- An operation of two arrays that broadcast together. -/
def zip (dtype : Dtype) (f : α → α → α) (x y : MxArray α) : Py (MxArray α) :=
  match broadcastShapes x.shape y.shape with
  | none => throw (.valueError "[broadcast_shapes] Shapes cannot be broadcast.")
  | some shape => return {
      dtype, shape,
      get := fun i => f (x.get (sourceIndex x.shape shape i)) (y.get (sourceIndex y.shape shape i)) }

end MxArray

/-! ## The dispatch -/

inductive Layout
  | flat | scalar | row
deriving DecidableEq

/-- The longest row of the grid: `65535 * 256`. -/
def rowLimit : ℕ := 65535 * 256

/-- The element of the right-hand side that `_pw_kernel` reads for an index. -/
def rhsIndex (layout : Layout) (width time : ℕ) (index : UInt32) : ℕ :=
  match layout with
  | .flat => index.toNat
  | .scalar => 0
  | .row => (index / UInt32.ofNat width % UInt32.ofNat time).toNat

/-- The flat index of a thread in `_pw_kernel`. -/
def threadIndex (n : ℕ) (thread : ℕ × ℕ) : UInt32 :=
  UInt32.ofNat thread.1 + UInt32.ofNat thread.2 * UInt32.ofNat (min n rowLimit)

/-- `half(float(a) <op> float(b))`. -/
def pwElement (ew : Elementwise α) (op : PwOp) (a b : α) : α :=
  ew.astype .float32 .float16 (ew.binary op .float32 (ew.astype .float16 .float32 a) (ew.astype .float16 .float32 b))

/-- What a thread of `_pw_kernel` writes. -/
def pwKernel (ew : Elementwise α) (op : PwOp) (layout : Layout) (n width time : ℕ) (lhs rhs : ℕ → α)
    (thread : ℕ × ℕ) : List (ℕ × α) :=
  let index := threadIndex n thread
  if n ≤ index.toNat then []
  else [(index.toNat, pwElement ew op (lhs index.toNat) (rhs (rhsIndex layout width time index)))]

/-- The layout that `_pw` recognises. -/
def pwLayout (x y : MxArray α) : Option Layout :=
  if x.dtype ≠ .float16 ∨ y.dtype ≠ .float16 then none
  else if y.size = 1 then some .scalar
  else if x.shape = y.shape then some .flat
  else
    match x.shape, y.shape with
    | [x₀, _, x₂, _], [y₀, y₁, y₂, y₃] =>
      if y₀ = 1 ∧ y₁ = 1 ∧ y₃ = 1 ∧ x₀ = 1 ∧ x₂ = y₂ then some .row else none
    | _, _ => none

/-- The threads of the grid. -/
def pwGrid (n : ℕ) : List (ℕ × ℕ) :=
  let threadsX := min n rowLimit
  List.range threadsX ×ˢ List.range ((n + threadsX - 1) / threadsX)

/-- What the dispatch of `_pw` runs for each thread. -/
def pwBody (ew : Elementwise α) (op : PwOp) (layout : Layout) (x y : MxArray α) : ℕ × ℕ → List (ℕ × α) :=
  pwKernel ew op layout x.size (if layout = .row then x.shape.getD 3 0 else 0)
    (if layout = .row then y.shape.getD 2 0 else 0) x.get y.get

/-- `_pw`. -/
def pw (gpu : Gpu α) (ew : Elementwise α) (op : PwOp) (x y : MxArray α) : Py (Option (MxArray α)) :=
  match pwLayout x y with
  | none => return none
  | some layout =>
    -- The number of rows is a quotient by the length of a row.
    if min x.size rowLimit = 0 then throw .zeroDivisionError
    else return some {
      dtype := .float16, shape := x.shape, get := gpu.run (pwGrid x.size) (pwBody ew op layout x y) }

/-- The chain of dispatches that `_pw` replaces. -/
def pwChain (ew : Elementwise α) (op : PwOp) (x y : MxArray α) : Py (MxArray α) := do
  let out ← (x.astype ew .float32).zip .float32 (ew.binary op .float32) (y.astype ew .float32)
  return out.astype ew .float16

/-- `EncoderRunner.apply` for `add`, `sub` and `mul`. -/
def applyPointwise (gpu : Gpu α) (ew : Elementwise α) (op : PwOp) (x y : MxArray α) : Py (MxArray α) :=
  if x.dtype = .bool ∧ y.dtype = .bool then
    if op ≠ .mul then throw (.runtimeError ("bool " ++ op.name)) else x.zip .bool ew.logicalAnd y
  else if x.dtype = .int32 ∧ y.dtype = .int32 then do
    let raw ← x.zip .int32 (ew.binary op .int32) y
    return raw.astype ew .int32
  else do
    let fused ← pw gpu ew op x y
    match fused with
    | some out => return out
    | none => pwChain ew op x y

/-- What the fused dispatch is for: the array that the chain gives, of which every element is written once and
nothing else is written. -/
structure Replaces (result chain : MxArray α) (writes : List (ℕ × α)) : Prop where
  dtype : result.dtype = chain.dtype
  shape : result.shape = chain.shape
  elements : ∀ i < chain.size, result.get i = chain.get i
  once : ∀ i < result.size, (writesAt writes i).length = 1
  inside : ∀ write ∈ writes, write.1 < result.size

/-! ## The threads -/

variable {ew : Elementwise α} {op : PwOp} {layout : Layout} {x y : MxArray α} {n i : ℕ} {thread : ℕ × ℕ}

/-- The most elements for which no index of a thread wraps around. -/
def gridLimit : ℕ := 256 * rowLimit

/-- The index of a thread, modulo `2 ^ 32`. -/
theorem threadIndex_toNat (hrow : thread.1 < 2 ^ 32) (hcol : thread.2 < 2 ^ 32) :
    (threadIndex n thread).toNat = (thread.1 + thread.2 * min n rowLimit) % 2 ^ 32 := by
  have hstride : min n rowLimit < 2 ^ 32 := lt_of_le_of_lt (min_le_right _ _) (by decide)
  rw [threadIndex, UInt32.toNat_add, UInt32.toNat_mul, UInt32.toNat_ofNat', UInt32.toNat_ofNat', UInt32.toNat_ofNat',
    Nat.mod_eq_of_lt hrow, Nat.mod_eq_of_lt hcol, Nat.mod_eq_of_lt hstride, Nat.add_mod_mod]

/-- Which threads run. -/
theorem mem_pwGrid : thread ∈ pwGrid n ↔
    thread.1 < min n rowLimit ∧ thread.2 < (n + min n rowLimit - 1) / min n rowLimit := by
  rw [pwGrid, List.mem_product, List.mem_range, List.mem_range]

theorem nodup_pwGrid : (pwGrid n).Nodup := List.Nodup.product List.nodup_range List.nodup_range

/-- Up to the limit no index wraps around. -/
theorem threadIndex_of_mem (hn : n ≤ gridLimit) (hthread : thread ∈ pwGrid n) :
    (threadIndex n thread).toNat = thread.1 + thread.2 * min n rowLimit := by
  obtain ⟨hrow, hcol⟩ := mem_pwGrid.mp hthread
  have hpos : 0 < min n rowLimit := by omega
  have hcols : thread.2 < 256 := by
    refine lt_of_lt_of_le hcol (Nat.le_of_lt_succ (Nat.div_lt_of_lt_mul ?_))
    rw [gridLimit] at hn
    omega
  have hprod : thread.2 * min n rowLimit ≤ 255 * min n rowLimit := Nat.mul_le_mul_right _ (by omega)
  have hlimit : min n rowLimit ≤ 16776960 := min_le_right _ _
  rw [threadIndex_toNat (by omega) (by omega), Nat.mod_eq_of_lt (by omega)]

/-- What a thread writes at an element. -/
theorem writesAt_pwKernel {width time : ℕ} {lhs rhs : ℕ → α} :
    writesAt (pwKernel ew op layout n width time lhs rhs thread) i =
      if i < n ∧ (threadIndex n thread).toNat = i then
        [(i, pwElement ew op (lhs i) (rhs (rhsIndex layout width time (threadIndex n thread))))]
      else [] := by
  by_cases hi : (threadIndex n thread).toNat = i
  · by_cases hlt : i < n
    · rw [if_pos ⟨hlt, hi⟩, pwKernel, hi, if_neg (by omega), writesAt_singleton, if_pos rfl]
    · rw [if_neg (not_and_of_not_left _ hlt), pwKernel, if_pos (by omega)]
      rfl
  · rw [if_neg (not_and_of_not_right _ hi), pwKernel]
    split
    · rfl
    · rw [writesAt_singleton, if_neg hi]

/-- The thread of an element. -/
def threadOf (n i : ℕ) : ℕ × ℕ := (i % min n rowLimit, i / min n rowLimit)

/-- Each element has its thread. -/
theorem threadOf_mem (hi : i < n) : threadOf n i ∈ pwGrid n := by
  have hpos : 0 < min n rowLimit := lt_min (by omega) (by decide)
  refine mem_pwGrid.mpr ⟨Nat.mod_lt _ hpos, ?_⟩
  rw [threadOf, Nat.div_lt_iff_lt_mul hpos]
  have := Nat.lt_div_mul_add (a := n + min n rowLimit - 1) hpos
  omega

/-- An element has one thread. -/
theorem threadIndex_eq_iff (hn : n ≤ gridLimit) (hi : i < n) (hthread : thread ∈ pwGrid n) :
    (threadIndex n thread).toNat = i ↔ thread = threadOf n i := by
  have hrow := (mem_pwGrid.mp hthread).1
  rw [threadIndex_of_mem hn hthread, threadOf, Prod.ext_iff]
  constructor
  · rintro rfl
    rw [Nat.add_mul_mod_self_right, Nat.mod_eq_of_lt hrow, Nat.add_mul_div_right _ _ (by omega),
      Nat.div_eq_of_lt hrow, Nat.zero_add]
    exact ⟨rfl, rfl⟩
  · rintro ⟨hmod, hdiv⟩
    rw [hmod, hdiv, Nat.mod_add_div']

/-- Past the limit the first element is written by two threads. -/
theorem two_le_writesAt_zero (gpu : Gpu α) (ew : Elementwise α) (op : PwOp) (layout : Layout) (y : MxArray α)
    (hsize : gridLimit < x.size) :
    2 ≤ (writesAt (gpu.writes (pwGrid x.size) (pwBody ew op layout x y)) 0).length := by
  have hmin : min x.size rowLimit = rowLimit := min_eq_right (by rw [gridLimit] at hsize; omega)
  have hrows : 256 < (x.size + rowLimit - 1) / rowLimit := by
    rw [gridLimit] at hsize
    exact (Nat.le_div_iff_mul_le (by decide)).mpr (by rw [rowLimit] at *; omega)
  have hmem (t : ℕ × ℕ) (hrow : t.1 < rowLimit) (hcol : t.2 ≤ 256) : t ∈ pwGrid x.size :=
    mem_pwGrid.mpr (by rw [hmin]; exact ⟨hrow, by omega⟩)
  have hwrites (t : ℕ × ℕ) (ht : (threadIndex x.size t).toNat = 0) :
      writesAt (pwBody ew op layout x y t) 0 ≠ [] := by
    rw [pwBody, writesAt_pwKernel, if_pos ⟨by omega, ht⟩]
    exact List.cons_ne_nil _ _
  refine gpu.two_le_writesAt (u := (0, 0)) (hmem _ (by decide) (by decide))
    (hmem (65536, 256) (by decide) (by decide)) (by decide) (hwrites _ ?_) (hwrites _ ?_)
  · rw [threadIndex_toNat (by decide) (by decide), Nat.zero_mul]
    rfl
  · rw [threadIndex_toNat (by decide) (by decide), hmin]
    rfl

/-! ## The layouts -/

/-- The operands have a layout. -/
def Layout.Fits (layout : Layout) (x y : MxArray α) : Prop :=
  match layout with
  | .flat => x.shape = y.shape
  | .scalar => y.size = 1
  | .row => ∃ c t w, x.shape = [1, c, t, w] ∧ y.shape = [1, 1, t, 1]

/-- The axes that the right-hand side has before those of the left-hand side. -/
def leadingAxes (x y : MxArray α) : List ℕ := List.replicate (if y.size = 1 then y.ndim - x.ndim else 0) 1

theorem leadingAxes_eq_nil_iff : leadingAxes x y = [] ↔ (y.size = 1 → y.ndim ≤ x.ndim) := by
  rw [leadingAxes, List.replicate_eq_nil_iff]
  split
  · next hone => exact ⟨fun h _ => by omega, fun h => Nat.sub_eq_zero_of_le (h hone)⟩
  · next hmany => exact iff_of_true rfl fun hone => absurd hone hmany

theorem leadingAxes_of_ne_scalar (hscalar : layout = .scalar ↔ y.size = 1) (h : layout ≠ .scalar) :
    leadingAxes x y = [] :=
  leadingAxes_eq_nil_iff.mpr fun hone => absurd (hscalar.mpr hone) h

/-- What an accepted layout says of its operands. -/
theorem fits_of_pwLayout (h : pwLayout x y = some layout) :
    x.dtype = .float16 ∧ y.dtype = .float16 ∧ layout.Fits x y ∧ (layout = .scalar ↔ y.size = 1) := by
  rw [pwLayout] at h
  split at h
  · cases h
  next hdtypes =>
  rw [not_or, not_not, not_not] at hdtypes
  refine ⟨hdtypes.1, hdtypes.2, ?_⟩
  split at h
  · next hsize =>
    cases h
    exact ⟨hsize, iff_of_true rfl hsize⟩
  next hsize =>
  split at h
  · next hshape =>
    cases h
    exact ⟨hshape, iff_of_false Layout.noConfusion hsize⟩
  split at h
  · next x₀ c t w y₀ y₁ y₂ y₃ hx hy =>
    split at h
    · next hrow =>
      obtain ⟨rfl, rfl, rfl, rfl, rfl⟩ := hrow
      cases h
      exact ⟨⟨c, t, w, hx, hy⟩, iff_of_false Layout.noConfusion hsize⟩
    · cases h
  · cases h

/-- Operands of a layout broadcast. -/
theorem broadcastShapes_of_fits (h : layout.Fits x y) (hscalar : layout = .scalar ↔ y.size = 1) :
    broadcastShapes x.shape y.shape = some (leadingAxes x y ++ x.shape) := by
  cases layout with
  | flat =>
    rw [leadingAxes_of_ne_scalar hscalar Layout.noConfusion, ← show x.shape = y.shape from h, broadcastShapes_self,
      List.nil_append]
  | scalar =>
    rw [leadingAxes, if_pos (hscalar.mp rfl), broadcastShapes_single (hscalar.mp rfl), MxArray.ndim, MxArray.ndim]
  | row =>
    obtain ⟨c, t, w, hx, hy⟩ := h
    rw [leadingAxes_of_ne_scalar hscalar Layout.noConfusion, hx, hy]
    simp [broadcastShapes, broadcastAxes]

/-- In every layout the kernel reads the element of the right-hand side that broadcasting reads. -/
theorem rhsIndex_eq_sourceIndex (h : layout.Fits x y) (hscalar : layout = .scalar ↔ y.size = 1)
    (hlimit : x.size ≤ gridLimit) (hi : i < x.size) {index : UInt32} (hindex : index.toNat = i) :
    rhsIndex layout (if layout = .row then x.shape.getD 3 0 else 0) (if layout = .row then y.shape.getD 2 0 else 0)
      index = sourceIndex y.shape (leadingAxes x y ++ x.shape) i := by
  cases layout with
  | flat =>
    rw [leadingAxes_of_ne_scalar hscalar Layout.noConfusion, ← show x.shape = y.shape from h, List.nil_append,
      sourceIndex_self hi]
    exact hindex
  | scalar => exact (sourceIndex_single (hscalar.mp rfl)).symm
  | row =>
    obtain ⟨c, t, w, hx, hy⟩ := h
    have hsize : x.size = c * (t * w) := by rw [MxArray.size, hx]; simp
    rw [hsize] at hi hlimit
    have hpos : 0 < c * (t * w) := by omega
    have hw : w ≤ c * (t * w) := Nat.le_of_dvd hpos (Dvd.intro_left (c * t) (by rw [mul_assoc]))
    have ht : t ≤ c * (t * w) := Nat.le_of_dvd hpos (Dvd.intro_left (c * w) (by rw [mul_assoc, mul_comm w t]))
    have hfits : gridLimit < 2 ^ 32 := by decide
    rw [leadingAxes_of_ne_scalar hscalar Layout.noConfusion, hx, hy, if_pos rfl, if_pos rfl, List.nil_append]
    simp only [List.getD_cons_succ, List.getD_cons_zero, rhsIndex]
    have hwidth : w % 2 ^ 32 = w := Nat.mod_eq_of_lt (by omega)
    have htime : t % 2 ^ 32 = t := Nat.mod_eq_of_lt (by omega)
    rw [UInt32.toNat_mod, UInt32.toNat_div, UInt32.toNat_ofNat', UInt32.toNat_ofNat', hindex, hwidth, htime]
    by_cases hone : t = 1
    · rw [hone, Nat.mod_one]
      exact (sourceIndex_single rfl).symm
    · simp [sourceIndex, ravel, align, unravel, hone]

/-! ## Agreement -/

/-- What the chain gives for operands in a layout. -/
theorem pwChain_eq_ok_iff {chain : MxArray α} (hlayout : pwLayout x y = some layout) :
    pwChain ew op x y = .ok chain ↔ chain = ⟨.float16, leadingAxes x y ++ x.shape, fun i =>
      pwElement ew op (x.get (sourceIndex x.shape (leadingAxes x y ++ x.shape) i))
        (y.get (sourceIndex y.shape (leadingAxes x y ++ x.shape) i))⟩ := by
  obtain ⟨hx, hy, hfits, hscalar⟩ := fits_of_pwLayout hlayout
  rw [pwChain, MxArray.zip, MxArray.astype, MxArray.astype]
  simp only [broadcastShapes_of_fits hfits hscalar]
  rw [hx, hy]
  exact ⟨fun h => (Except.ok.inj h).symm, fun h => h ▸ rfl⟩

/-- When the shader runs, and what it gives. -/
theorem pw_eq_ok_iff {gpu : Gpu α} {result : MxArray α} (hlayout : pwLayout x y = some layout) :
    pw gpu ew op x y = .ok (some result) ↔
      x.size ≠ 0 ∧ result = ⟨.float16, x.shape, gpu.run (pwGrid x.size) (pwBody ew op layout x y)⟩ := by
  have hmin : min x.size rowLimit = 0 ↔ x.size = 0 := by
    rw [rowLimit]
    omega
  simp only [pw, hlayout, hmin]
  split
  · next hzero => exact iff_of_false (fun h => by cases h) fun h => h.1 hzero
  · next hzero => exact ⟨fun h => ⟨hzero, (Option.some.inj (Except.ok.inj h)).symm⟩, fun h => h.2 ▸ rfl⟩

/-- Without leading axes and without wrapped indices, the fused dispatch replaces the chain. -/
theorem replaces_of_limit (gpu : Gpu α) {chain : MxArray α} (hlayout : pwLayout x y = some layout)
    (hchain : pwChain ew op x y = .ok chain) (haxes : y.size = 1 → y.ndim ≤ x.ndim) (hlimit : x.size ≤ gridLimit) :
    Replaces ⟨.float16, x.shape, gpu.run (pwGrid x.size) (pwBody ew op layout x y)⟩ chain
      (gpu.writes (pwGrid x.size) (pwBody ew op layout x y)) := by
  obtain rfl := (pwChain_eq_ok_iff hlayout).mp hchain
  obtain ⟨-, -, hfits, hscalar⟩ := fits_of_pwLayout hlayout
  have hlead := leadingAxes_eq_nil_iff.mpr haxes
  have howner {i : ℕ} (hi : i < x.size) (thread : ℕ × ℕ) (hthread : thread ∈ pwGrid x.size)
      (hne : thread ≠ threadOf x.size i) : writesAt (pwBody ew op layout x y thread) i = [] := by
    rw [pwBody, writesAt_pwKernel, if_neg fun h => hne ((threadIndex_eq_iff hlimit hi hthread).mp h.2)]
  have hwrites {i : ℕ} (hi : i < x.size) : writesAt (pwBody ew op layout x y (threadOf x.size i)) i =
      [(i, pwElement ew op (x.get i) (y.get (sourceIndex y.shape (leadingAxes x y ++ x.shape) i)))] := by
    have hindex := (threadIndex_eq_iff hlimit hi (threadOf_mem hi)).mpr rfl
    rw [pwBody, writesAt_pwKernel, if_pos ⟨hi, hindex⟩, rhsIndex_eq_sourceIndex hfits hscalar hlimit hi hindex]
  refine ⟨rfl, by rw [hlead]; rfl, fun i hi => ?_, fun i hi => ?_, fun write hwrite => ?_⟩
  · rw [MxArray.size, hlead, List.nil_append] at hi
    refine gpu.run_apply nodup_pwGrid (threadOf_mem hi) (howner hi) ?_
    have hown : sourceIndex x.shape (leadingAxes x y ++ x.shape) i = i := sourceIndex_append hi
    simp only [hwrites hi, hown, List.getLast?_singleton]
  · change i < x.size at hi
    rw [gpu.writesAt_writes nodup_pwGrid (threadOf_mem hi) (howner hi), hwrites hi, List.length_singleton]
  · obtain ⟨thread, -, hwrite⟩ := List.mem_flatMap.mp hwrite
    rw [pwBody, pwKernel] at hwrite
    split at hwrite
    · cases hwrite
    · next hin =>
      rw [List.mem_singleton.mp hwrite]
      exact not_le.mp hin

/-- Where the fused dispatch returns an array, it replaces the chain exactly if the right-hand side has more than one
element or no more axes than the left-hand side, and no index wraps around. -/
theorem pw_replaces_iff (gpu : Gpu α) (ew : Elementwise α) (op : PwOp) (x y result chain : MxArray α)
    (layout : Layout) (hlayout : pwLayout x y = some layout) (hresult : pw gpu ew op x y = .ok (some result))
    (hchain : pwChain ew op x y = .ok chain) :
    Replaces result chain (gpu.writes (pwGrid x.size) (pwBody ew op layout x y)) ↔
      (y.size = 1 → y.ndim ≤ x.ndim) ∧ x.size ≤ gridLimit := by
  obtain ⟨-, rfl⟩ := (pw_eq_ok_iff hlayout).mp hresult
  refine ⟨fun h => ⟨?_, ?_⟩, fun h => replaces_of_limit gpu hlayout hchain h.1 h.2⟩
  · obtain rfl := (pwChain_eq_ok_iff hlayout).mp hchain
    exact leadingAxes_eq_nil_iff.mp (List.self_eq_append_left.mp h.shape)
  · by_contra hsize
    rw [not_le] at hsize
    have htwo := two_le_writesAt_zero gpu ew op layout y hsize
    have hone := h.once 0 (by rw [MxArray.size]; exact lt_of_le_of_lt (Nat.zero_le _) hsize)
    omega

/-- A machine that runs the threads of a dispatch in order. -/
def inOrderGpu : Gpu ℤ where
  order := fun units => units
  perm := fun units => List.Perm.refl units
  blank := fun _ => 0

/-- Integers in the place of halves. -/
def integerArithmetic : Elementwise ℤ where
  astype := fun _ _ v => v
  binary := fun op _ v w =>
    match op with
    | .add => v + w
    | .sub => v - w
    | .mul => v * w
  logicalAnd := min

/-- A single element of shape `[1, 1]` on the right of three elements of shape `[3]` loses an axis, and past the limit
the first element is written twice. -/
theorem pw_drops_axis :
    let x : MxArray ℤ := ⟨.float16, [3], fun i => i⟩
    let y : MxArray ℤ := ⟨.float16, [1, 1], fun _ => 5⟩
    let large : MxArray ℤ := ⟨.float16, [gridLimit + 1], fun i => i⟩
    (∃ result chain, pw inOrderGpu integerArithmetic .add x y = .ok (some result) ∧
      pwChain integerArithmetic .add x y = .ok chain ∧ result.shape = [3] ∧ chain.shape = [1, 3]) ∧
      2 ≤ (writesAt (inOrderGpu.writes (pwGrid large.size)
        (pwBody integerArithmetic .add .flat large large)) 0).length := by
  intro x y large
  refine ⟨⟨_, _, (pw_eq_ok_iff (show pwLayout x y = some .scalar from rfl)).mpr ⟨by decide, rfl⟩,
    (pwChain_eq_ok_iff (show pwLayout x y = some .scalar from rfl)).mpr rfl, rfl, rfl⟩,
    two_le_writesAt_zero _ _ _ _ _ ?_⟩
  rw [MxArray.size, List.prod_singleton]
  exact Nat.lt_succ_self _

/-- A mask over the rows of two planes. -/
theorem pw_replaces_iff_mask :
    let x : MxArray ℤ := ⟨.float16, [1, 2, 3, 4], fun i => i⟩
    let y : MxArray ℤ := ⟨.float16, [1, 1, 3, 1], fun i => i⟩
    ∃ result chain, Replaces result chain
      (inOrderGpu.writes (pwGrid x.size) (pwBody integerArithmetic .mul .row x y)) := by
  intro x y
  have hlayout : pwLayout x y = some .row := by decide
  exact ⟨_, _, (pw_replaces_iff inOrderGpu integerArithmetic .mul x y _ _ .row hlayout
    ((pw_eq_ok_iff hlayout).mpr ⟨by decide, rfl⟩) ((pwChain_eq_ok_iff hlayout).mpr rfl)).mpr ⟨by decide, by decide⟩⟩

/-- Within these bounds `apply` gives for halves what the chain gives, whether it takes the fused dispatch or not. -/
theorem applyPointwise_eq_chain (gpu : Gpu α) {chain : MxArray α} (hx : x.dtype = .float16)
    (hchain : pwChain ew op x y = .ok chain) (hsome : x.size ≠ 0) (haxes : y.size = 1 → y.ndim ≤ x.ndim)
    (hlimit : x.size ≤ gridLimit) :
    ∃ out, applyPointwise gpu ew op x y = .ok out ∧ out.dtype = chain.dtype ∧ out.shape = chain.shape ∧
      ∀ i < chain.size, out.get i = chain.get i := by
  rw [applyPointwise, if_neg fun h => Dtype.noConfusion (hx.symm.trans h.1),
    if_neg fun h => Dtype.noConfusion (hx.symm.trans h.1)]
  cases hlayout : pwLayout x y with
  | none =>
    have hpw : pw gpu ew op x y = .ok none := by
      rw [pw, hlayout]
      rfl
    rw [hpw]
    exact ⟨chain, hchain, rfl, rfl, fun i _ => rfl⟩
  | some layout =>
    have hreplaces := replaces_of_limit gpu hlayout hchain haxes hlimit
    rw [(pw_eq_ok_iff hlayout).mpr ⟨hsome, rfl⟩]
    exact ⟨_, rfl, hreplaces.dtype, hreplaces.shape, hreplaces.elements⟩

end AneLinux.Shader
