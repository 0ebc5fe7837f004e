import AneLinux.Support.Bytes
import Mathlib.Data.List.Sort

/-!
# Python results: exceptions, checked reads and outcome rules

Fallible Python code is a computation that ends in a value or in an exception. The
exception classes stay apart, so that a statement can say which of them a caller sees.
`Meets` gives a computation a postcondition for its value and one for its exception;
the rules below compose these along binds, folds and guards.
-/

namespace AneLinux.Support

universe u

/-- The exception classes raised by the modelled code. -/
inductive PyError
  | valueError (message : String)
  | unicodeDecodeError
  | structError
  | indexError
  | keyError (key : String)
  | stopIteration
  | assertionError (message : String)
  | nameError (name : String)
  | timeoutError (message : String)
  | runtimeError (message : String)
  | osError (message : String)
  | overflowError (message : String)
  | recursionError
  | calledProcessError
  | systemExit (message : String)
  | zeroDivisionError
  | typeError (message : String)
  | keyboardInterrupt
deriving DecidableEq, Repr

/-- Whether `except ValueError` catches the exception; a decoding error is a value error. -/
def PyError.isValueError : PyError → Bool
  | .valueError _ => true
  | .unicodeDecodeError => true
  | _ => false

/-- Whether `except Exception` catches the exception; leaving the interpreter and an interrupt are no such ones. -/
def PyError.isException : PyError → Bool
  | .systemExit _ => false
  | .keyboardInterrupt => false
  | _ => true

/-- A Python computation. -/
abbrev Py := Except PyError

/-- Equality of results is decided on the values themselves, so that it computes on buffers. -/
instance (priority := 2000) instDecidableEqPy {α : Type*} [DecidableEq α] : DecidableEq (Py α)
  | .ok a, .ok b => decidable_of_iff (a = b) ⟨congrArg Except.ok, Except.ok.inj⟩
  | .error a, .error b => decidable_of_iff (a = b) ⟨congrArg Except.error, Except.error.inj⟩
  | .ok _, .error _ => isFalse (fun h => by cases h)
  | .error _, .ok _ => isFalse (fun h => by cases h)

/-- Raise `ValueError(message)`. -/
def raiseValue {α : Type*} (message : String) : Py α := .error (.valueError message)

@[simp] theorem raiseValue_ne_ok {α : Type*} (message : String) (a : α) : raiseValue message ≠ .ok a := by
  intro h
  cases h

/-- The text of a number under the `#x` format. -/
def hex (n : ℕ) : String := "0x" ++ String.ofList (Nat.toDigits 16 n)

/-- `range(start, stop, step)` for a positive step. -/
def range (start stop step : ℕ) : List ℕ :=
  (List.range ((stop - start + (step - 1)) / step)).map fun i => start + step * i

/-- `struct.unpack_from("<I", data, offset)`: a word outside the data is a struct error. -/
def unpackU32 (d : Bytes) (offset : ℕ) : Py ℕ :=
  if offset + 4 ≤ d.size then .ok (d.u32 offset) else .error .structError

/-- `struct.unpack_from("<Q", data, offset)`. -/
def unpackU64 (d : Bytes) (offset : ℕ) : Py ℕ :=
  if offset + 8 ≤ d.size then .ok (d.u64 offset) else .error .structError

/-- `struct.pack_into("<I", data, offset, value)` on a mutable buffer. -/
def packU32 (d : Bytes) (offset value : ℕ) : Py Bytes :=
  if offset + 4 ≤ d.size ∧ value < 2 ^ 32 then .ok (d.putLE offset 4 value) else .error .structError

/-- Indexing a sequence from the front. -/
def index {α : Type*} (values : List α) (i : ℕ) : Py α :=
  match values[i]? with
  | some value => .ok value
  | none => .error .indexError

/-- A dictionary read `table.get(key)`. -/
def find {κ α : Type*} [DecidableEq κ] : List (κ × α) → κ → Option α
  | [], _ => none
  | (k, v) :: rest, key => if k = key then some v else find rest key

/-- A dictionary read `table[key]`; `text` is the key as the exception shows it. -/
def lookup {κ α : Type*} [DecidableEq κ] (table : List (κ × α)) (key : κ) (text : String) : Py α :=
  match find table key with
  | some value => .ok value
  | none => .error (.keyError text)

/-- A dictionary write: a new key goes last, an old key keeps its place. -/
def assign {κ α : Type*} [DecidableEq κ] : List (κ × α) → κ → α → List (κ × α)
  | [], key, value => [(key, value)]
  | (k, v) :: rest, key, value =>
    if k = key then (key, value) :: rest else (k, v) :: assign rest key value

/-- A Python tuple of sizes. -/
def shapeText : List ℕ → String
  | [n] => s!"({n},)"
  | shape => "(" ++ ", ".intercalate (shape.map toString) ++ ")"

/-- A stepped range holds the steps from its start that stay below its stop. -/
theorem mem_range {start stop step x : ℕ} (hstep : 0 < step) :
    x ∈ range start stop step ↔ ∃ i, x = start + step * i ∧ x < stop := by
  have hcount (i : ℕ) : i < (stop - start + (step - 1)) / step ↔ start + step * i < stop := by
    rw [Nat.lt_iff_add_one_le, Nat.le_div_iff_mul_le hstep, Nat.add_mul, Nat.mul_comm i step]
    omega
  simp only [range, List.mem_map, List.mem_range, hcount]
  constructor
  · rintro ⟨i, hi, rfl⟩
    exact ⟨i, rfl, hi⟩
  · rintro ⟨i, rfl, hi⟩
    exact ⟨i, hi, rfl⟩

/-- `sorted(keys)` of distinct keys is strictly increasing. -/
theorem insertionSort_pairwise_lt {keys : List ℕ} (h : keys.Nodup) :
    (keys.insertionSort (· ≤ ·)).Pairwise (· < ·) := by
  have hsorted : (keys.insertionSort (· ≤ ·)).Pairwise (· ≤ ·) :=
    List.pairwise_insertionSort (· ≤ ·) keys
  have hnodup : (keys.insertionSort (· ≤ ·)).Pairwise (· ≠ ·) :=
    (List.perm_insertionSort (· ≤ ·) keys).nodup_iff.mpr h
  exact (hsorted.and hnodup).imp fun hle => lt_of_le_of_ne hle.1 hle.2

section Reads

variable {d : Bytes} {offset : ℕ}

@[simp] theorem unpackU32_of_le (h : offset + 4 ≤ d.size) : unpackU32 d offset = .ok (d.u32 offset) :=
  if_pos h

/-- A word that could be read is the word stored there. -/
theorem unpackU32_eq_ok {value : ℕ} : unpackU32 d offset = .ok value ↔
    offset + 4 ≤ d.size ∧ d.u32 offset = value := by
  unfold unpackU32
  split_ifs with h <;> simp [h]

@[simp] theorem unpackU64_of_le (h : offset + 8 ≤ d.size) : unpackU64 d offset = .ok (d.u64 offset) :=
  if_pos h

@[simp] theorem packU32_of_le {value : ℕ} (h : offset + 4 ≤ d.size) (hv : value < 2 ^ 32) :
    packU32 d offset value = .ok (d.putLE offset 4 value) := if_pos ⟨h, hv⟩

theorem packU32_eq_ok {value : ℕ} {e : Bytes} : packU32 d offset value = .ok e ↔
    (offset + 4 ≤ d.size ∧ value < 2 ^ 32) ∧ d.putLE offset 4 value = e := by
  unfold packU32
  split_ifs with h
  · exact ⟨fun he => ⟨h, Except.ok.inj he⟩, fun he => congrArg Except.ok he.2⟩
  · exact ⟨fun he => (by cases he), fun he => absurd he.1 h⟩

end Reads

variable {γ : Type*} {values : List γ}

section Outcomes

variable {ε : Type*} {α β : Type u}

/-- A computation meets a postcondition for its value and one for its exception. -/
def Meets (x : Except ε α) (value : α → Prop) (error : ε → Prop) : Prop :=
  match x with
  | .ok a => value a
  | .error e => error e

variable {x : Except ε α} {f : α → Except ε β} {p q : α → Prop} {r : β → Prop} {e : ε → Prop}

@[simp] theorem meets_ok (a : α) : Meets (.ok a : Except ε α) p e ↔ p a := Iff.rfl

/-- Every computation meets the postconditions that say nothing. -/
theorem Meets.any (x : Except ε α) : Meets x (fun _ => True) (fun _ => True) := by
  cases x with
  | ok a => trivial
  | error error => trivial

/-- A computation returns what it returns. -/
theorem Meets.returns (x : Except ε α) : Meets x (fun a => x = .ok a) (fun _ => True) := by
  cases x with
  | ok a => rfl
  | error error => trivial

/-- The postcondition of a computation that returned. -/
theorem Meets.value {a : α} (h : Meets x p e) (hx : x = .ok a) : p a := by
  subst hx
  exact h

/-- The postcondition of a computation that raised. -/
theorem Meets.error {error : ε} (h : Meets x p e) (hx : x = .error error) : e error := by
  subst hx
  exact h

/-- Consequence: a postcondition can be weakened. -/
theorem Meets.mono (h : Meets x p e) (hpq : ∀ a, p a → q a) : Meets x q e := by
  cases x with
  | ok a => exact hpq a h
  | error error => exact h

/-- Consequence on both sides. -/
theorem Meets.imp {f : ε → Prop} (h : Meets x p e) (hpq : ∀ a, p a → q a) (hef : ∀ error, e error → f error) :
    Meets x q f := by
  cases x with
  | ok a => exact hpq a h
  | error error => exact hef error h

/-- Sequencing: the continuation starts from the first postcondition. -/
theorem Meets.bind (h : Meets x p e) (hf : ∀ a, p a → Meets (f a) r e) : Meets (x >>= f) r e := by
  cases x with
  | ok a => exact hf a h
  | error error => exact h

/-- A loop that folds a fallible body keeps its invariant. -/
theorem Meets.foldlM (body : β → γ → Except ε β) (values : List γ) (start : β) (hstart : r start)
    (hbody : ∀ s, r s → ∀ c ∈ values, Meets (body s c) r e) : Meets (values.foldlM body start) r e := by
  induction values generalizing start with
  | nil => exact hstart
  | cons c rest ih =>
    rw [List.foldlM_cons]
    exact (hbody start hstart c List.mem_cons_self).bind fun s hs =>
      ih s hs fun s' hs' c' hc' => hbody s' hs' c' (List.mem_cons_of_mem c hc')

/-- A comprehension whose every element stays within the allowed exceptions does too. -/
theorem Meets.mapM (body : γ → Except ε β) (values : List γ) (hbody : ∀ c ∈ values, Meets (body c) (fun _ => True) e) :
    Meets (values.mapM body) (fun _ => True) e := by
  induction values with
  | nil => trivial
  | cons c rest ih =>
    rw [List.mapM_cons]
    exact (hbody c List.mem_cons_self).bind fun _ _ =>
      (ih fun c' hc' => hbody c' (List.mem_cons_of_mem c hc')).bind fun _ _ => trivial

/-- A loop whose body never raises is the plain fold. -/
theorem foldlM_eq_ok {body : β → γ → Except ε β} {step : β → γ → β} (h : ∀ s, ∀ c ∈ values, body s c = .ok (step s c))
    (start : β) : values.foldlM body start = .ok (values.foldl step start) := by
  induction values generalizing start with
  | nil => rfl
  | cons c rest ih =>
    rw [List.foldlM_cons, h start c List.mem_cons_self, List.foldl_cons]
    exact ih (fun s c' hc' => h s c' (List.mem_cons_of_mem c hc')) (step start c)

/-- A computation that tests as successful has a value. -/
theorem exists_ok_of_toBool (h : x.toBool = true) : ∃ a, x = .ok a := by
  cases x with
  | ok a => exact ⟨a, rfl⟩
  | error error => cases h

/-- A computation whose value passes a test has a value that passes it. -/
theorem exists_ok_of_map {f : α → β} {b : β} (h : x.map f = .ok b) : ∃ a, x = .ok a ∧ f a = b := by
  cases x with
  | ok a => exact ⟨a, rfl, Except.ok.inj h⟩
  | error error => cases h

/-- A computation with a value has that value. -/
theorem toOption_eq_some {a : α} : x.toOption = some a ↔ x = .ok a := by
  cases x with
  | ok b => simp [Except.toOption]
  | error error => simp [Except.toOption]

/-- A bind returns exactly when both of its halves do. -/
theorem bind_eq_ok {b : β} : x >>= f = .ok b ↔ ∃ a, x = .ok a ∧ f a = .ok b := by
  cases x with
  | ok a =>
    constructor
    · intro h
      exact ⟨a, rfl, h⟩
    · rintro ⟨a', ha, h⟩
      cases ha
      exact h
  | error error =>
    constructor
    · intro h
      cases h
    · rintro ⟨a', ha, h⟩
      cases ha

@[simp] theorem ok_bind (a : α) : (Except.ok a >>= f) = f a := rfl

@[simp] theorem error_bind (error : ε) : (Except.error error >>= f) = .error error := rfl

theorem index_eq_ok {values : List α} {i : ℕ} {value : α} : index values i = .ok value ↔ values[i]? = some value := by
  unfold index
  cases values[i]? with
  | none =>
    constructor
    · intro h
      cases h
    · intro h
      cases h
  | some v => exact ⟨fun h => congrArg some (Except.ok.inj h), fun h => congrArg Except.ok (Option.some.inj h)⟩

/-- A comprehension returns exactly when each of its elements does. -/
theorem mapM_eq_ok {body : γ → Except ε β} {results : List β} :
    values.mapM body = .ok results ↔ List.Forall₂ (fun c b => body c = .ok b) values results := by
  induction values generalizing results with
  | nil =>
    rw [List.mapM_nil, List.forall₂_nil_left_iff]
    exact ⟨fun h => (Except.ok.inj h).symm, fun h => congrArg Except.ok h.symm⟩
  | cons c rest ih =>
    rw [List.mapM_cons, bind_eq_ok, List.forall₂_cons_left_iff]
    constructor
    · rintro ⟨b, hb, h⟩
      obtain ⟨bs, hbs, h⟩ := bind_eq_ok.mp h
      exact ⟨b, bs, hb, ih.mp hbs, (Except.ok.inj h).symm⟩
    · rintro ⟨b, bs, hb, hbs, rfl⟩
      exact ⟨b, hb, bind_eq_ok.mpr ⟨bs, ih.mpr hbs, rfl⟩⟩

/-- So does one over optional values. -/
theorem mapM_eq_some {body : γ → Option β} {results : List β} :
    values.mapM body = some results ↔ List.Forall₂ (fun c b => body c = some b) values results := by
  induction values generalizing results with
  | nil =>
    rw [List.mapM_nil, List.forall₂_nil_left_iff]
    exact ⟨fun h => (Option.some.inj h).symm, fun h => congrArg some h.symm⟩
  | cons c rest ih =>
    simp only [List.mapM_cons, Option.bind_eq_bind, Option.bind_eq_some_iff, ih, List.forall₂_cons_left_iff]
    constructor
    · rintro ⟨b, hb, bs, hbs, h⟩
      exact ⟨b, bs, hb, hbs, (Option.some.inj h).symm⟩
    · rintro ⟨b, bs, hb, hbs, rfl⟩
      exact ⟨b, hb, bs, hbs, rfl⟩

/-- In related lists each element on the left has its partner on the right. -/
theorem exists_related {ι κ : Type*} {r : ι → κ → Prop} {left : List ι} {right : List κ} (h : List.Forall₂ r left right)
    {i : ι} (hi : i ∈ left) : ∃ k ∈ right, r i k := by
  induction h with
  | nil => cases hi
  | cons hfirst _ ih =>
    rcases List.mem_cons.mp hi with rfl | hi
    · exact ⟨_, List.mem_cons_self, hfirst⟩
    · obtain ⟨k, hk, hr⟩ := ih hi
      exact ⟨k, List.mem_cons_of_mem _ hk, hr⟩

/-- A sequence has a value when both halves have one. -/
theorem toOption_bind : (x >>= f).toOption = x.toOption.bind fun a => (f a).toOption := by
  cases x with
  | ok a => rfl
  | error error => rfl

/-- A comprehension has a value when each of its elements has one. -/
theorem toOption_mapM (body : γ → Except ε β) (values : List γ) :
    (values.mapM body).toOption = values.mapM fun c => (body c).toOption := by
  induction values with
  | nil => rfl
  | cons c rest ih =>
    rw [List.mapM_cons, List.mapM_cons, toOption_bind]
    congr 1
    funext b
    rw [toOption_bind, ih]
    rfl

/-- A comprehension depends on what its body does to its elements. -/
theorem mapM_congr_mem {m : Type u → Type*} [Monad m] [LawfulMonad m] {body body' : γ → m β}
    (h : ∀ c ∈ values, body c = body' c) : values.mapM body = values.mapM body' := by
  induction values with
  | nil => rw [List.mapM_nil, List.mapM_nil]
  | cons c rest ih =>
    rw [List.mapM_cons, List.mapM_cons, h c List.mem_cons_self, ih fun c' hc' => h c' (List.mem_cons_of_mem c hc')]

/-- A guard that raises: what follows runs under its negation. -/
theorem Meets.guard {c : Prop} [Decidable c] {message : String} {y : Py α} {p : α → Prop}
    {e : PyError → Prop} (hraise : e (.valueError message)) (hrest : ¬ c → Meets y p e) :
    Meets (if c then raiseValue message else y) p e := by
  by_cases hc : c
  · rw [if_pos hc]
    exact hraise
  · rw [if_neg hc]
    exact hrest hc

end Outcomes

section Tables

variable {κ α : Type*} [DecidableEq κ]

/-- A dictionary write is read back, and every other key keeps its value. -/
theorem find_assign (table : List (κ × α)) (key : κ) (value : α) (k : κ) :
    find (assign table key value) k = if key = k then some value else find table k := by
  induction table with
  | nil => rfl
  | cons entry rest ih =>
    obtain ⟨k', v'⟩ := entry
    by_cases hkey : k' = key
    · subst hkey
      by_cases hk : k' = k
      · simp [assign, find, hk]
      · simp [assign, find, hk]
    · by_cases hk : k' = k
      · subst hk
        simp [assign, find, hkey, Ne.symm hkey]
      · simp [assign, find, hkey, hk, ih]

/-- A write to a missing key adds an entry at the end. -/
theorem assign_of_find_none {table : List (κ × α)} {key : κ} (h : find table key = none) (value : α) :
    assign table key value = table ++ [(key, value)] := by
  induction table with
  | nil => rfl
  | cons entry rest ih =>
    obtain ⟨k, v⟩ := entry
    by_cases hkey : k = key
    · simp [find, hkey] at h
    · rw [find, if_neg hkey] at h
      rw [assign, if_neg hkey, ih h, List.cons_append]

/-- A write that keeps what is collected from the old value keeps what is collected from the table. -/
theorem flatMap_assign_of_find {β : Type*} {table : List (κ × α)} {key : κ} {old value : α} (f : α → List β)
    (h : find table key = some old) (hf : f value = f old) :
    (assign table key value).flatMap (fun entry => f entry.2) = table.flatMap fun entry => f entry.2 := by
  induction table with
  | nil => simp [find] at h
  | cons entry rest ih =>
    obtain ⟨k, v⟩ := entry
    by_cases hkey : k = key
    · rw [find, if_pos hkey] at h
      cases h
      rw [assign, if_pos hkey, List.flatMap_cons, List.flatMap_cons, hf]
    · rw [find, if_neg hkey] at h
      rw [assign, if_neg hkey, List.flatMap_cons, List.flatMap_cons, ih h]

/-- A table in which a key is found has an entry. -/
theorem length_pos_of_find {table : List (κ × α)} {key : κ} {value : α} (h : find table key = some value) :
    0 < table.length := by
  cases table with
  | nil => simp [find] at h
  | cons entry table => exact Nat.succ_pos _

/-- A write to a key that is there keeps the number of entries. -/
theorem length_assign_of_find {table : List (κ × α)} {key : κ} {old : α} (h : find table key = some old)
    (value : α) : (assign table key value).length = table.length := by
  have hones := congrArg List.length (@flatMap_assign_of_find κ α _ Unit table key old value (fun _ => [()]) h rfl)
  simpa using hones

/-- A dictionary read returns what is found. -/
theorem lookup_eq_ok {table : List (κ × α)} {key : κ} {text : String} {value : α} :
    lookup table key text = .ok value ↔ find table key = some value := by
  unfold lookup
  cases find table key with
  | none => simp
  | some found => simp

/-- A failed dictionary read is a missing key. -/
theorem lookup_raises (table : List (κ × α)) (key : κ) (text : String) :
    Meets (lookup table key text) (fun value => find table key = some value)
      (fun e => ∃ key, e = .keyError key) := by
  unfold lookup
  cases find table key with
  | none => exact ⟨text, rfl⟩
  | some value => rfl

end Tables

end AneLinux.Support
