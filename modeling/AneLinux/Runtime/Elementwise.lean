import AneLinux.Support.Faulty

/-!
# Elementwise submissions in chunks of 64 lanes

The tensor operations send vectors to the engine in chunks of 64 lanes: a chunk is padded with
zeros, submitted, and the used lanes are copied back. The engine is exact over a ring and a
submission may raise. The lemma on chunks says that a vector assembled chunk by chunk is the
vector of the elementwise results, whatever the length.
-/

namespace AneLinux.Runtime

open AneLinux.Support

/-- `LANES`. -/
def laneCount : ℕ := 64

/-- The elementwise modes the operations here use. -/
inductive Mode
  | add
  | mul
deriving DecidableEq, Repr

/-- The element types of arrays. -/
inductive Dtype
  | float16
  | float32
  | float64
deriving DecidableEq, Repr

/-- An array argument: what validation looks at, and its entries in row-major order. -/
structure NdArray (R : Type) where
  dtype : Dtype
  finite : Bool
  shape : List ℕ
  entry : ℕ → R

variable {R : Type}

/-- The used part of a vector in a chunk of zeros. -/
def chunk [Zero R] (width start : ℕ) (row : ℕ → R) : ℕ → R := fun i => if i < width then row (start + i) else 0

/-- Copy the used lanes of a chunk into a vector. -/
def setRange (result : ℕ → R) (start width : ℕ) (lanes : ℕ → R) : ℕ → R := fun c =>
  if start ≤ c ∧ c < start + width then lanes (c - start) else result c

/-- The width of the chunk at an offset of a vector. -/
def chunkWidth (size start : ℕ) : ℕ := min laneCount (size - start)

/-- `run_elementwise`: one submission, exact in every lane. -/
def runElementwise [Add R] [Mul R] (mode : Mode) (left right : ℕ → R) : Faulty (ℕ → R) :=
  Faulty.call fun i => match mode with
    | .add => left i + right i
    | .mul => left i * right i

/-- A vector assembled from chunks holds the value of the chunk that covers a place. -/
theorem foldl_setRange {size : ℕ} {lanes : ℕ → ℕ → R} {starts : List ℕ} {result target : ℕ → R} {c : ℕ}
    (hlanes : ∀ start ∈ starts, start ≤ c → c < start + chunkWidth size start → lanes start (c - start) = target c)
    (hcover : (∃ start ∈ starts, start ≤ c ∧ c < start + chunkWidth size start) ∨ result c = target c) :
    starts.foldl (fun result start => setRange result start (chunkWidth size start) (lanes start)) result c =
      target c := by
  induction starts generalizing result with
  | nil => simpa using hcover
  | cons start rest ih =>
    rw [List.forall_mem_cons] at hlanes
    rw [List.foldl_cons]
    apply ih hlanes.2
    by_cases hhere : start ≤ c ∧ c < start + chunkWidth size start
    · right
      rw [setRange, if_pos hhere]
      exact hlanes.1 hhere.1 hhere.2
    · rw [setRange, if_neg hhere]
      rcases hcover with ⟨other, hother, hcovers⟩ | hdone
      · rcases List.mem_cons.mp hother with rfl | hrest
        · exact absurd hcovers hhere
        · exact .inl ⟨other, hrest, hcovers⟩
      · exact .inr hdone

/-- The chunks at the multiples of 64 cover a vector. -/
theorem exists_chunk {size c : ℕ} (hc : c < size) :
    ∃ start ∈ range 0 size laneCount, start ≤ c ∧ c < start + chunkWidth size start := by
  refine ⟨c / 64 * 64, (mem_range (by decide)).mpr ⟨c / 64, ?_, by omega⟩, ?_⟩
  · rw [laneCount]
    omega
  · unfold chunkWidth laneCount
    omega

/-- The name of an element type. -/
def Dtype.name : Dtype → String
  | .float16 => "float16"
  | .float32 => "float32"
  | .float64 => "float64"

/-- A vector of finite `float16` values. -/
def halfVector [Zero R] (values : List R) : NdArray R :=
  { dtype := .float16, finite := true, shape := [values.length], entry := fun i => values.getD i 0 }

namespace TensorOperations

/-- `TensorOperations._value`. -/
def value (array : NdArray R) (name : String) : Py Unit :=
  if array.dtype ≠ .float16 then
    raiseValue s!"{name} dtype must be float16, got {array.dtype.name}"
  else if array.shape.prod = 0 then
    raiseValue s!"{name} must not be empty"
  else if array.finite = false then
    raiseValue s!"{name} must be finite"
  else .ok ()

/-- The chunks of an addition. -/
def addChunks [Zero R] [Add R] [Mul R] (left right memory : ℕ → R) (size : ℕ) : Faulty (ℕ → R) :=
  (range 0 size laneCount).foldlM (fun result start => do
    let width := chunkWidth size start
    let added ← runElementwise .add (chunk width start left) (chunk width start right)
    return setRange result start width added) memory

/-- `TensorOperations.add`; `memory` is what fresh memory holds. -/
def add [Zero R] [Add R] [Mul R] (left right : NdArray R) (memory : ℕ → R) (fails : ℕ → Option PyError) :
    Py (List R) := do
  value left "left"
  value right "right"
  if right.shape ≠ left.shape then
    raiseValue s!"right shape must match left shape {shapeText left.shape}, got {shapeText right.shape}"
  else
    let (result, _) ← addChunks left.entry right.entry memory left.shape.prod fails 0
    return (List.range left.shape.prod).map result

/-- The chunks yield the sums of all places. -/
theorem addChunks_yields [NonUnitalNonAssocSemiring R] (left right memory : ℕ → R) (size : ℕ) :
    ∃ result, (addChunks left right memory size).Yields result ∧ ∀ c < size, result c = left c + right c := by
  refine ⟨_, Faulty.Yields.foldlM _ memory fun result start _ =>
    (Faulty.Yields.call _).bind (Faulty.Yields.pure _), fun c hc => ?_⟩
  apply @foldl_setRange R size (fun start i => chunk (chunkWidth size start) start left i +
    chunk (chunkWidth size start) start right i) _ memory fun c => left c + right c
  · intro start _ hle hlt
    have hlane : c - start < chunkWidth size start := by omega
    simp only [chunk, if_pos hlane, Nat.add_sub_cancel' hle]
  · exact .inl (exists_chunk hc)

/-- Vectors of one length are added place by place, if no submission raises. -/
theorem add_halfVector [NonUnitalNonAssocSemiring R] {left right : List R} (hleft : left ≠ [])
    (hlength : right.length = left.length) (memory : ℕ → R) :
    add (halfVector left) (halfVector right) memory (fun _ => none) =
      .ok ((List.range left.length).map fun i => left.getD i 0 + right.getD i 0) := by
  have hpos := List.length_pos_iff.mpr hleft
  have hvalue (values : List R) (name : String) (h : values.length ≠ 0) : value (halfVector values) name = .ok () := by
    simp [value, halfVector, h]
  obtain ⟨result, hyields, hresult⟩ :=
    addChunks_yields (halfVector left).entry (halfVector right).entry memory (halfVector left).shape.prod
  rw [add, hvalue left "left" (by omega), hvalue right "right" (by omega)]
  rcases hyields (fun _ => none) 0 with ⟨n, hok⟩ | ⟨-, k, hk⟩
  · have hsize : (halfVector left).shape.prod = left.length := by simp [halfVector]
    have hshape : ¬(halfVector right).shape ≠ (halfVector left).shape := by simp [halfVector, hlength]
    simp only [ok_bind, if_neg hshape, hok]
    refine congrArg Except.ok ?_
    rw [hsize] at hresult ⊢
    exact List.map_congr_left fun i hi => hresult i (List.mem_range.mp hi)
  · exact absurd rfl hk

end TensorOperations

end AneLinux.Runtime
