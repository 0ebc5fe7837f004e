import AneLinux.Anec.PackedTasks

/-!
# Task-zero splices

A splice puts the window of a control's task zero over the window of a target's. The low half of
word 0, which is the task id, and the NextPointer route the target's own chain and stay the
target's. The two splices differ in their window only: the ten-word envelope or the whole
descriptor.
-/

namespace AneLinux.Anec

open AneLinux.Support AneLinux.Hwx

/-- The bytes of the ten-word envelope of a task. -/
def tenWordEnvelopeSize : ℕ := 0x28

/-- The bytes of a task-zero descriptor. -/
def taskZeroSize : ℕ := 0x274

/-- The place of the NextPointer in a task. -/
def nextPointerOffset : ℕ := 0x1C

/-- A whole window at the base has to lie in the artifact. -/
def requireWindow (window : ℕ) (unit name : String) (data : Bytes) (base : ℤ) : Py Unit :=
  if base < 0 ∨ (data.size : ℤ) < base + window then
    raiseValue (name ++ " artifact is truncated below one " ++ unit)
  else
    return ()

/-- Replace one window of the target by the control's, but for the task id and the NextPointer. -/
def spliceTaskZero (window : ℕ) (unit : String) (target control : Bytes) (targetBase controlBase : ℤ) :
    Py Bytes := do
  requireWindow window unit "target" target targetBase
  requireWindow window unit "control" control controlBase
  let source := control.slice controlBase.toNat (controlBase.toNat + window)
  let patched := target.splice targetBase.toNat (targetBase.toNat + window) source
  let controlWord ← unpackU32 control controlBase.toNat
  let targetWord ← unpackU32 target targetBase.toNat
  let patched ← packU32 patched targetBase.toNat (controlWord &&& 0xFFFF0000 ||| targetWord &&& 0xFFFF)
  let nextPointer ← unpackU32 target (targetBase.toNat + nextPointerOffset)
  packU32 patched (targetBase.toNat + nextPointerOffset) nextPointer

/-- `splice_task_zero_envelope`. -/
def spliceTaskZeroEnvelope : Bytes → Bytes → ℤ → ℤ → Py Bytes :=
  spliceTaskZero tenWordEnvelopeSize "ten-word envelope"

/-- `splice_task_zero_descriptor`. -/
def spliceTaskZeroDescriptor : Bytes → Bytes → ℤ → ℤ → Py Bytes :=
  spliceTaskZero taskZeroSize "descriptor"

/-! ## One splice -/

/-- The whole window at the base lies in the artifact. -/
def WindowFits (window : ℕ) (data : Bytes) (base : ℤ) : Prop :=
  0 ≤ base ∧ base + window ≤ data.size

/-- The bytes of a task that route its own chain: the task id and the NextPointer. -/
def Routing (k : ℕ) : Prop := k < 2 ∨ nextPointerOffset ≤ k ∧ k < nextPointerOffset + 4

instance (k : ℕ) : Decidable (Routing k) := inferInstanceAs (Decidable (_ ∨ _))

/-- The target with the window of the control, but for the bytes that route its chain. -/
def spliced (window : ℕ) (target control : Bytes) (targetBase controlBase : ℕ) : Bytes :=
  Bytes.ofFn target.size fun i =>
    if targetBase ≤ i ∧ i < targetBase + window ∧ ¬ Routing (i - targetBase) then
      control.get (controlBase + (i - targetBase)) else target.get i

variable {target : Bytes} {targetBase : ℤ} {t c k i : ℕ}

section Splice

variable {window : ℕ} {unit name : String} {control data : Bytes} {base controlBase : ℤ}

@[simp] theorem size_spliced (t c : ℕ) : (spliced window target control t c).size = target.size := rfl

/-- Inside the window a spliced byte is the control's, unless it routes the chain. -/
theorem get_spliced_inside (hk : k < window) (hfits : t + window ≤ target.size) :
    (spliced window target control t c).get (t + k) =
      if Routing k then target.get (t + k) else control.get (c + k) := by
  rw [spliced, Bytes.get_ofFn, if_pos (by omega), Nat.add_sub_cancel_left]
  by_cases hrouting : Routing k
  · rw [if_neg (by tauto), if_pos hrouting]
  · rw [if_pos ⟨by omega, by omega, hrouting⟩, if_neg hrouting]

/-- Outside the window a spliced byte is the target's. -/
theorem get_spliced_outside (hi : i < t ∨ t + window ≤ i) :
    (spliced window target control t c).get i = target.get i := by
  rw [spliced, Bytes.get_ofFn]
  by_cases hsize : i < target.size
  · rw [if_pos hsize, if_neg (by omega)]
  · rw [if_neg hsize, target.get_of_size_le i (by omega)]

theorem requireWindow_of_fits (h : WindowFits window data base) :
    requireWindow window unit name data base = .ok () :=
  if_neg (by rintro (h0 | h1) <;> [exact absurd h.1 (by omega); exact absurd h.2 (by omega)])

theorem requireWindow_of_not_fits (h : ¬ WindowFits window data base) :
    requireWindow window unit name data base =
      raiseValue (name ++ " artifact is truncated below one " ++ unit) := by
  refine if_pos ?_
  unfold WindowFits at h
  omega

/-- The merged word 0 has the id of the target below and the control's half above. -/
theorem mergedWord_byte {controlWord targetWord : ℕ} (hk : k < 4) :
    UInt8.ofNat ((controlWord &&& 0xFFFF0000 ||| targetWord &&& 0xFFFF) >>> (8 * k)) =
      if k < 2 then UInt8.ofNat (targetWord >>> (8 * k)) else UInt8.ofNat (controlWord >>> (8 * k)) := by
  have hid : targetWord &&& 0xFFFF < 0x10000 := Nat.lt_succ_of_le Nat.and_le_right
  rw [header_byte hid hk]
  split_ifs with hlow
  · have hmask : UInt8.ofNat (0xFFFF >>> (8 * k)) = 0xFF := by
      obtain rfl | rfl : k = 0 ∨ k = 1 := by omega
      · rfl
      · rfl
    rw [Nat.shiftRight_and_distrib, UInt8.ofNat_and, hmask]
    exact UInt8.and_neg_one
  · rfl

/-- The merged word is a word. -/
theorem mergedWord_lt (controlWord targetWord : ℕ) :
    controlWord &&& 0xFFFF0000 ||| targetWord &&& 0xFFFF < 2 ^ 32 := by
  apply Nat.or_lt_two_pow
  · exact Nat.lt_of_le_of_lt Nat.and_le_right (by decide)
  · exact Nat.lt_of_le_of_lt Nat.and_le_right (by decide)

/-- The bytes of a task whose word 0 and NextPointer are written. -/
theorem get_putLE_header {d : Bytes} {word next : ℕ} (hfits : t + 0x20 ≤ d.size) :
    ((d.putLE t 4 word).putLE (t + 0x1C) 4 next).get i =
      if t ≤ i ∧ i < t + 4 then UInt8.ofNat (word >>> (8 * (i - t)))
      else if t + 0x1C ≤ i ∧ i < t + 0x20 then UInt8.ofNat (next >>> (8 * (i - (t + 0x1C)))) else d.get i := by
  by_cases hword : t ≤ i ∧ i < t + 4
  · obtain ⟨k, rfl⟩ := Nat.exists_eq_add_of_le hword.1
    rw [if_pos hword, Bytes.get_putLE_of_ne _ (by omega), Bytes.get_putLE _ (by omega) (by omega),
      Nat.add_sub_cancel_left]
  · rw [if_neg hword]
    by_cases hnext : t + 0x1C ≤ i ∧ i < t + 0x20
    · obtain ⟨k, rfl⟩ := Nat.exists_eq_add_of_le hnext.1
      rw [if_pos hnext, Bytes.get_putLE _ (by omega) (by rw [Bytes.size_putLE]; omega), Nat.add_sub_cancel_left]
    · rw [if_neg hnext, Bytes.get_putLE_of_ne _ (by omega), Bytes.get_putLE_of_ne _ (by omega)]

/-- A window with the merged word 0 and the target's NextPointer is the spliced one. -/
theorem get_merged_window (hwindow : 0x20 ≤ window) (hk : k < window) {d : Bytes} (hfits : t + window ≤ d.size)
    (hcopied : ∀ l < window, d.get (t + l) = control.get (c + l)) :
    ((d.putLE t 4 (control.u32 c &&& 0xFFFF0000 ||| target.u32 t &&& 0xFFFF)).putLE (t + 0x1C) 4
      (target.u32 (t + 0x1C))).get (t + k) = if Routing k then target.get (t + k) else control.get (c + k) := by
  rw [get_putLE_header (by omega)]
  by_cases hword : k < 4
  · rw [if_pos (by omega), Nat.add_sub_cancel_left, mergedWord_byte hword]
    by_cases hlow : k < 2
    · have hrouting : Routing k := Or.inl hlow
      rw [if_pos hlow, if_pos hrouting, target.get_eq_leNat_shiftRight t 4 k hword]
      rfl
    · rw [if_neg hlow, if_neg (by unfold Routing nextPointerOffset; omega),
        control.get_eq_leNat_shiftRight c 4 k hword]
      rfl
  · rw [if_neg (by omega)]
    by_cases hnext : 0x1C ≤ k ∧ k < 0x20
    · obtain ⟨n, rfl⟩ := Nat.exists_eq_add_of_le hnext.1
      have hrouting : Routing (0x1C + n) := Or.inr hnext
      rw [if_pos (by omega), if_pos hrouting, ← Nat.add_assoc, Nat.add_sub_cancel_left,
        target.get_eq_leNat_shiftRight (t + 0x1C) 4 n (by omega)]
      rfl
    · rw [if_neg (by omega), if_neg (by unfold Routing nextPointerOffset; omega), hcopied k hk]

/-- A splice whose windows fit makes the spliced target. -/
theorem spliceTaskZero_of_fits (hwindow : 0x20 ≤ window) (htarget : t + window ≤ target.size)
    (hcontrol : c + window ≤ control.size) :
    spliceTaskZero window unit target control t c = .ok (spliced window target control t c) := by
  have hsource : (control.slice c (c + window)).size = t + window - t := by
    rw [Bytes.size_slice]
    omega
  have hsize := Bytes.size_splice_of_eq (Nat.le_add_right t window) htarget hsource
  have hget := Bytes.get_splice_of_eq (Nat.le_add_right t window) htarget hsource
  rw [spliceTaskZero, requireWindow_of_fits ⟨by omega, by omega⟩, requireWindow_of_fits ⟨by omega, by omega⟩]
  simp only [ok_bind, Int.toNat_natCast, nextPointerOffset]
  rw [unpackU32_of_le (by omega), ok_bind, unpackU32_of_le (by omega), ok_bind,
    packU32_of_le (by omega) (mergedWord_lt _ _), ok_bind, unpackU32_of_le (by omega), ok_bind,
    packU32_of_le (by rw [Bytes.size_putLE]; omega) (target.u32_lt _)]
  apply congrArg Except.ok
  apply Bytes.ext_get
  · rw [Bytes.size_putLE, Bytes.size_putLE, hsize, size_spliced]
  · intro i hi
    by_cases hinside : t ≤ i ∧ i < t + window
    · obtain ⟨k, rfl⟩ := Nat.exists_eq_add_of_le hinside.1
      rw [get_spliced_inside (by omega) htarget]
      apply get_merged_window hwindow (by omega) (by omega)
      intro l hl
      rw [hget, if_pos (by omega), Nat.add_sub_cancel_left, Bytes.get_slice_of_lt _ (by omega)]
    · rw [get_putLE_header (by omega), if_neg (by omega), if_neg (by omega), hget, if_neg (by omega),
        get_spliced_outside (by omega)]

/-- A splice with a window that does not fit is a value error. -/
theorem spliceTaskZero_of_not_fits
    (h : ¬ (WindowFits window target targetBase ∧ WindowFits window control controlBase)) :
    ∃ message, spliceTaskZero window unit target control targetBase controlBase = .error (.valueError message) := by
  unfold spliceTaskZero
  by_cases htarget : WindowFits window target targetBase
  · rw [requireWindow_of_fits htarget, ok_bind, requireWindow_of_not_fits fun hcontrol => h ⟨htarget, hcontrol⟩]
    exact ⟨_, rfl⟩
  · rw [requireWindow_of_not_fits htarget]
    exact ⟨_, rfl⟩

/-- The word at the NextPointer of a spliced task is the target's. -/
theorem u32_spliced_next (hfits : t + window ≤ target.size) :
    (spliced window target control t c).u32 (t + nextPointerOffset) = target.u32 (t + nextPointerOffset) := by
  apply Bytes.u32_congr
  intro k hk
  have hrouting : Routing (nextPointerOffset + k) := Or.inr ⟨by omega, by omega⟩
  rcases Nat.lt_or_ge (nextPointerOffset + k) window with hinside | hpast
  · rw [Nat.add_assoc, get_spliced_inside hinside hfits, if_pos hrouting]
  · rw [get_spliced_outside (Or.inr (by omega))]

/-- The low half of a word is read off its two low bytes. -/
theorem u32_mod (d : Bytes) (offset : ℕ) : d.u32 offset % 2 ^ 16 = d.leNat offset 2 := by
  have hlow := (d.get offset).toNat_lt
  have hhigh := (d.get (offset + 1)).toNat_lt
  simp only [Bytes.u32, Bytes.leNat]
  omega

/-- The id of a spliced task is the target's. -/
theorem id_spliced (hfits : t + window ≤ target.size) :
    (spliced window target control t c).u32 t % 2 ^ 16 = target.u32 t % 2 ^ 16 := by
  rw [u32_mod, u32_mod]
  apply Bytes.leNat_congr
  intro k hk
  have hrouting : Routing k := Or.inl hk
  rcases Nat.lt_or_ge k window with hinside | hpast
  · rw [get_spliced_inside hinside hfits, if_pos hrouting]
  · rw [get_spliced_outside (Or.inr (by omega))]

/-- A target spliced with its own window is unchanged. -/
theorem spliced_self (t : ℕ) : spliced window target target t t = target := by
  apply Bytes.ext_get (size_spliced t t)
  intro i hi
  rw [size_spliced] at hi
  rw [spliced, Bytes.get_ofFn, if_pos hi]
  split_ifs with hinside
  · rw [Nat.add_sub_cancel' hinside.1]
  · rfl

end Splice

/-! ## Sequences of splices -/

/-- Which of the two windows a call splices. -/
inductive SpliceKind
  | envelope
  | descriptor
deriving DecidableEq, Repr

/-- One splice call on a target: its kind, its control and the base in the control. -/
structure SpliceCall where
  kind : SpliceKind
  control : Bytes
  controlBase : ℤ

namespace SpliceCall

/-- The bytes a call covers. -/
def window (call : SpliceCall) : ℕ :=
  match call.kind with
  | .envelope => tenWordEnvelopeSize
  | .descriptor => taskZeroSize

/-- Run a call on a target. -/
def run (call : SpliceCall) (targetBase : ℤ) (target : Bytes) : Py Bytes :=
  match call.kind with
  | .envelope => spliceTaskZeroEnvelope target call.control targetBase call.controlBase
  | .descriptor => spliceTaskZeroDescriptor target call.control targetBase call.controlBase

/-- Both windows of a call fit. -/
def Fits (call : SpliceCall) (targetBase : ℤ) (target : Bytes) : Prop :=
  WindowFits call.window target targetBase ∧ WindowFits call.window call.control call.controlBase

end SpliceCall

/-- The calls one after the other, each on what the one before it returned. -/
def spliceAll (calls : List SpliceCall) (targetBase : ℤ) (target : Bytes) : Py Bytes :=
  calls.foldlM (fun data call => call.run targetBase data) target

/-- The widest window of a sequence. -/
def widest : List SpliceCall → ℕ
  | [] => 0
  | call :: rest => max call.window (widest rest)

section Calls

variable {call : SpliceCall} {calls : List SpliceCall} {result : Bytes}

/-- A call that fits makes the spliced target. -/
theorem SpliceCall.run_of_fits (h : call.Fits targetBase target) : call.run targetBase target =
    .ok (spliced call.window target call.control targetBase.toNat call.controlBase.toNat) := by
  obtain ⟨⟨htarget, htargetFits⟩, hcontrol, hcontrolFits⟩ := h
  obtain ⟨t, rfl⟩ := Int.eq_ofNat_of_zero_le htarget
  obtain ⟨kind, control, controlBase⟩ := call
  obtain ⟨c, rfl⟩ : ∃ c : ℕ, controlBase = c := Int.eq_ofNat_of_zero_le hcontrol
  cases kind with
  | envelope =>
    change spliceTaskZero tenWordEnvelopeSize _ target control t c = _
    exact spliceTaskZero_of_fits (by decide) (Int.ofNat_le.mp htargetFits) (Int.ofNat_le.mp hcontrolFits)
  | descriptor =>
    change spliceTaskZero taskZeroSize _ target control t c = _
    exact spliceTaskZero_of_fits (by decide) (Int.ofNat_le.mp htargetFits) (Int.ofNat_le.mp hcontrolFits)

/-- A call that does not fit is a value error. -/
theorem SpliceCall.run_of_not_fits (h : ¬ call.Fits targetBase target) :
    ∃ message, call.run targetBase target = .error (.valueError message) := by
  obtain ⟨kind, control, controlBase⟩ := call
  cases kind with
  | envelope => exact spliceTaskZero_of_not_fits h
  | descriptor => exact spliceTaskZero_of_not_fits h

/-- No window is wider than the widest. -/
theorem window_le_widest (h : call ∈ calls) : call.window ≤ widest calls := by
  induction calls with
  | nil => cases h
  | cons first rest ih =>
    rw [widest]
    rcases List.mem_cons.mp h with rfl | hrest
    · exact le_max_left _ _
    · exact (ih hrest).trans (le_max_right _ _)

/-- A sequence that returns starts with a call that fits and goes on from the spliced target. -/
theorem spliceAll_cons_eq_ok (h : spliceAll (call :: calls) targetBase target = .ok result) :
    call.Fits targetBase target ∧ spliceAll calls targetBase
      (spliced call.window target call.control targetBase.toNat call.controlBase.toNat) = .ok result := by
  unfold spliceAll at h
  rw [List.foldlM_cons] at h
  by_cases hfits : call.Fits targetBase target
  · rw [SpliceCall.run_of_fits hfits, ok_bind] at h
    exact ⟨hfits, h⟩
  · obtain ⟨message, herror⟩ := SpliceCall.run_of_not_fits hfits
    rw [herror] at h
    cases h

/-- The window of a call that fits lies in the target. -/
theorem SpliceCall.Fits.inside (h : call.Fits targetBase target) :
    targetBase.toNat + call.window ≤ target.size := by
  have hlow := h.1.1
  have hhigh := h.1.2
  omega

/-- A fitting call fits every target of the same length. -/
theorem SpliceCall.fits_congr {other : Bytes} (hsize : other.size = target.size) :
    call.Fits targetBase other ↔ call.Fits targetBase target := by
  unfold SpliceCall.Fits WindowFits
  rw [hsize]

/-- What routes the target's chain is kept by a sequence. -/
theorem spliceAll_routing (h : spliceAll calls targetBase target = .ok result) :
    result.size = target.size ∧
      result.u32 targetBase.toNat % 2 ^ 16 = target.u32 targetBase.toNat % 2 ^ 16 ∧
      result.u32 (targetBase.toNat + nextPointerOffset) = target.u32 (targetBase.toNat + nextPointerOffset) := by
  induction calls generalizing target with
  | nil =>
    cases h
    exact ⟨rfl, rfl, rfl⟩
  | cons call rest ih =>
    obtain ⟨hfits, hrest⟩ := spliceAll_cons_eq_ok h
    obtain ⟨hsize, hid, hnext⟩ := ih hrest
    exact ⟨hsize.trans (size_spliced _ _), hid.trans (id_spliced hfits.inside),
      hnext.trans (u32_spliced_next hfits.inside)⟩

/-- A byte outside every window of a sequence is the target's. -/
theorem spliceAll_outside (h : spliceAll calls targetBase target = .ok result)
    (hi : ∀ call ∈ calls, i < targetBase.toNat ∨ targetBase.toNat + call.window ≤ i) :
    result.get i = target.get i := by
  induction calls generalizing target with
  | nil =>
    cases h
    rfl
  | cons call rest ih =>
    have hrest := ih (spliceAll_cons_eq_ok h).2 fun later hlater => hi later (List.mem_cons_of_mem call hlater)
    rw [hrest, get_spliced_outside (hi call List.mem_cons_self)]

/-- A byte in the window of a call and past those of the later calls is that call's. -/
theorem spliceAll_last {before after : List SpliceCall}
    (h : spliceAll (before ++ call :: after) targetBase target = .ok result) (hk : k < call.window)
    (hlater : ∀ later ∈ after, later.window ≤ k) (hrouting : ¬ Routing k) :
    result.get (targetBase.toNat + k) = call.control.get (call.controlBase.toNat + k) := by
  induction before generalizing target with
  | nil =>
    obtain ⟨hfits, hafter⟩ := spliceAll_cons_eq_ok h
    have hkept := spliceAll_outside hafter fun later hmem =>
      Or.inr (Nat.add_le_add_left (hlater later hmem) targetBase.toNat)
    rw [hkept, get_spliced_inside hk hfits.inside, if_neg hrouting]
  | cons first rest ih => exact ih (spliceAll_cons_eq_ok h).2

/-- A sequence whose calls all fit returns. -/
theorem spliceAll_of_fits (h : ∀ call ∈ calls, call.Fits targetBase target) :
    ∃ result, spliceAll calls targetBase target = .ok result := by
  induction calls generalizing target with
  | nil => exact ⟨target, rfl⟩
  | cons call rest ih =>
    unfold spliceAll
    rw [List.foldlM_cons, SpliceCall.run_of_fits (h call List.mem_cons_self), ok_bind]
    apply ih
    intro later hlater
    exact (SpliceCall.fits_congr (size_spliced _ _)).mpr (h later (List.mem_cons_of_mem call hlater))

/-- A sequence with a call that does not fit is a value error. -/
theorem spliceAll_of_not_fits (hcall : call ∈ calls) (h : ¬ call.Fits targetBase target) :
    ∃ message, spliceAll calls targetBase target = .error (.valueError message) := by
  induction calls generalizing target with
  | nil => cases hcall
  | cons first rest ih =>
    unfold spliceAll
    rw [List.foldlM_cons]
    by_cases hfits : first.Fits targetBase target
    · have hrest : call ∈ rest := by
        rcases List.mem_cons.mp hcall with rfl | hrest
        · exact absurd hfits h
        · exact hrest
      rw [SpliceCall.run_of_fits hfits, ok_bind]
      exact ih hrest fun hspliced => h ((SpliceCall.fits_congr (size_spliced _ _)).mp hspliced)
    · obtain ⟨message, herror⟩ := SpliceCall.run_of_not_fits hfits
      rw [herror]
      exact ⟨message, rfl⟩

end Calls

/-- The law of splice sequences at one target base. A sequence returns exactly when every window
fits, and raises a value error otherwise. The result has the target's length, task id and
NextPointer and its bytes outside the widest window; every other byte is the one of the last call
whose window covers it. A target spliced with itself is unchanged. -/
theorem spliceAll_law (calls : List SpliceCall) (targetBase : ℤ) (target : Bytes) :
    ((∀ call ∈ calls, call.Fits targetBase target) →
      ∃ result, spliceAll calls targetBase target = .ok result) ∧
    (∀ call ∈ calls, ¬ call.Fits targetBase target →
      ∃ message, spliceAll calls targetBase target = .error (.valueError message)) ∧
    (∀ result, spliceAll calls targetBase target = .ok result →
      result.size = target.size ∧
      result.u32 targetBase.toNat % 2 ^ 16 = target.u32 targetBase.toNat % 2 ^ 16 ∧
      result.u32 (targetBase.toNat + nextPointerOffset) = target.u32 (targetBase.toNat + nextPointerOffset) ∧
      (∀ i, i < targetBase.toNat ∨ targetBase.toNat + widest calls ≤ i → result.get i = target.get i) ∧
      ∀ before call after, calls = before ++ call :: after → ∀ k < call.window,
        (∀ later ∈ after, later.window ≤ k) → ¬ Routing k →
          result.get (targetBase.toNat + k) = call.control.get (call.controlBase.toNat + k)) ∧
    ∀ kind, WindowFits (SpliceCall.window ⟨kind, target, targetBase⟩) target targetBase →
      SpliceCall.run ⟨kind, target, targetBase⟩ targetBase target = .ok target := by
  refine ⟨spliceAll_of_fits, fun call hcall => spliceAll_of_not_fits hcall, fun result h => ?_, fun kind hfits => ?_⟩
  · obtain ⟨hsize, hid, hnext⟩ := spliceAll_routing h
    refine ⟨hsize, hid, hnext, fun i hi => ?_, fun before call after hcalls k hk hlater hrouting => ?_⟩
    · apply spliceAll_outside h
      intro call hcall
      have hwide := window_le_widest hcall
      omega
    · rw [hcalls] at h
      exact spliceAll_last h hk hlater hrouting
  · rw [SpliceCall.run_of_fits ⟨hfits, hfits⟩]
    exact congrArg Except.ok (spliced_self _)

end AneLinux.Anec
