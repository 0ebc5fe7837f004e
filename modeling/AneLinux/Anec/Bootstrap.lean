import AneLinux.Anec.Submit
import AneLinux.Support.Dict

/-!
# The bootstrap streams

The engine starts from a copy of the task stream whose last task is terminated: the terminal
bits of its header are set, its next-size field and its NextPointer are cleared. A submitter
keeps the original layout and terminates the task at the wanted count, or packs the selected
tasks into slots of 0x300 bytes with new ids and remapped links.
-/

namespace AneLinux.Anec

open AneLinux.Support AneLinux.Hwx

/-- The half-word at `offset`. -/
def halfWord (d : Bytes) (offset : ℕ) : ℕ := d.leNat offset 2

/-- `struct.unpack_from("<H", data, offset)`. -/
def unpackU16 (d : Bytes) (offset : ℕ) : Py ℕ :=
  if offset + 2 ≤ d.size then .ok (halfWord d offset) else .error .structError

/-- `struct.pack_into("<H", data, offset, value)`. -/
def packU16 (d : Bytes) (offset value : ℕ) : Py Bytes :=
  if offset + 2 ≤ d.size ∧ value < 2 ^ 16 then .ok (d.putLE offset 2 value) else .error .structError

/-- The task stream of an artifact. -/
def copyTaskStream (data : Bytes) (start taskStreamSize : ℤ) : Py Bytes :=
  if start < 0 ∨ taskStreamSize < 1 ∨ (data.size : ℤ) < start + taskStreamSize then
    raiseValue "task stream exceeds the artifact"
  else
    return data.slice start.toNat (start + taskStreamSize).toNat

/-- Set the terminal bits of a task, clear its next-size field (the low nine bits) and its link. -/
def terminateTask (taskStream : Bytes) (taskStart : ℤ) : Py Bytes :=
  if taskStart < 0 ∨ (taskStream.size : ℤ) < taskStart + 0x20 then
    raiseValue "terminal task header exceeds the task stream"
  else do
    let terminalHeader ← unpackU32 taskStream taskStart.toNat
    let taskStream ← packU32 taskStream taskStart.toNat (terminalHeader ||| 0x03000000)
    let terminalNextSize ← unpackU16 taskStream (taskStart.toNat + 6)
    let taskStream ← packU16 taskStream (taskStart.toNat + 6) (terminalNextSize &&& 0xFE00)
    packU32 taskStream (taskStart.toNat + 0x1C) 0

/-- The stream in its original layout, terminated at the base of the given count. -/
def buildOriginalPrefix (data : Bytes) (start taskStreamSize : ℤ) (bases : List ℕ) (tdCount : ℤ) :
    Py Bytes :=
  if tdCount < 1 ∨ (bases.length : ℤ) < tdCount then
    raiseValue ("ANEC has " ++ toString bases.length ++ " task descriptors, needs " ++ toString tdCount)
  else do
    let bootstrap ← copyTaskStream data start taskStreamSize
    let base ← index bases (tdCount.toNat - 1)
    terminateTask bootstrap base

/-- The spacing of the packed slots. -/
def slotSpacing : ℕ := 0x300

/-- Copy one task into its slot, give it the slot's id and remap its link. -/
def packTask (data : Bytes) (start taskStreamSize tdSize tdCount : ℕ) (destinations : List (ℕ × ℕ))
    (bootstrap : Bytes) (i base : ℕ) : Py Bytes :=
  if taskStreamSize < base + 0x20 then
    raiseValue ("task " ++ toString i ++ " header exceeds the task stream")
  else do
    let copySize := min tdSize (taskStreamSize - base)
    let slot := i * slotSpacing
    let bootstrap := bootstrap.splice slot (slot + copySize)
      (data.slice (start + base) (start + base + copySize))
    let taskHeader ← unpackU32 bootstrap slot
    let bootstrap ← packU32 bootstrap slot (taskHeader &&& 0xFFFF0000 ||| i)
    let nextPointer ← unpackU32 bootstrap (slot + 0x1C)
    if nextPointer = 0 then
      return bootstrap
    else
      match find destinations nextPointer with
      | some mapped => packU32 bootstrap (slot + 0x1C) mapped
      | none =>
        if i ≠ tdCount - 1 then
          raiseValue ("task " ++ toString i ++ " points outside selected descriptors: " ++ hex nextPointer)
        else
          packU32 bootstrap (slot + 0x1C) 0

/-- Pack the selected tasks into consecutive slots from slot `i` on. -/
def packTasks (data : Bytes) (start taskStreamSize tdSize tdCount : ℕ) (destinations : List (ℕ × ℕ)) :
    ℕ → List ℕ → Bytes → Py Bytes
  | _, [], bootstrap => return bootstrap
  | i, base :: rest, bootstrap => do
    let bootstrap ← packTask data start taskStreamSize tdSize tdCount destinations bootstrap i base
    packTasks data start taskStreamSize tdSize tdCount destinations (i + 1) rest bootstrap

/-- The slot of every selected base. -/
def slotTable (selected : List ℕ) : List (ℕ × ℕ) :=
  dict (selected.zipIdx.map fun entry => (entry.1, entry.2 * slotSpacing))

/-- The selected tasks packed into slots, the last one terminated. -/
def buildBootstrap (data : Bytes) (start taskStreamSize : ℕ) (bases : List ℕ) (tdSize tdCount : ℕ) :
    Py Bytes :=
  if bases.length < tdCount then
    raiseValue ("ANEC has " ++ toString bases.length ++ " task descriptors, needs " ++ toString tdCount)
  else if ((tdCount : ℤ) - 1) * slotSpacing + tdSize < 0 then
    raiseValue "negative count"
  else do
    let selected := bases.take tdCount
    let bootstrap ← packTasks data start taskStreamSize tdSize tdCount (slotTable selected) 0 selected
      (Bytes.zeros (((tdCount : ℤ) - 1) * slotSpacing + tdSize).toNat)
    terminateTask bootstrap (((tdCount : ℤ) - 1) * slotSpacing)

/-! ## Terminated tasks -/

/-- What termination makes of byte `k` of a task. -/
def terminalByte (k : ℕ) (byte : UInt8) : UInt8 :=
  if k = 3 then byte ||| 0x03
  else if k = 6 then 0
  else if k = 7 then byte &&& 0xFE
  else if 0x1C ≤ k ∧ k < 0x20 then 0
  else byte

/-- The bits of byte `k` of a task outside the terminal fields. -/
def keptByTermination (k : ℕ) : UInt8 :=
  if k = 3 then 0xFC
  else if k = 6 then 0
  else if k = 7 then 0xFE
  else if 0x1C ≤ k ∧ k < 0x20 then 0
  else 0xFF

/-- The stream with the task at `task` terminated. -/
def terminated (stream : Bytes) (task : ℕ) : Bytes :=
  Bytes.ofFn stream.size fun i => if i < task then stream.get i else terminalByte (i - task) (stream.get i)

variable {stream : Bytes} {task : ℕ}

@[simp] theorem size_terminated : (terminated stream task).size = stream.size := rfl

theorem or_and_header (byte : UInt8) : (byte ||| 0x03) &&& 0xFC = byte &&& 0xFC := by
  have hall : ∀ n : Fin 256, (UInt8.ofNat n ||| 0x03) &&& 0xFC = UInt8.ofNat n &&& 0xFC := by decide +kernel
  have hbyte := hall ⟨byte.toNat, byte.toNat_lt⟩
  rwa [UInt8.ofNat_toNat] at hbyte

/-- Termination changes the terminal fields only. -/
theorem terminalByte_and_kept (k : ℕ) (byte : UInt8) :
    terminalByte k byte &&& keptByTermination k = byte &&& keptByTermination k := by
  unfold terminalByte keptByTermination
  split_ifs
  · exact or_and_header byte
  · rw [UInt8.and_zero, UInt8.and_zero]
  · rw [UInt8.and_assoc, UInt8.and_self]
  · rw [UInt8.and_zero, UInt8.and_zero]
  · rfl

theorem get_terminated (h : task + 0x20 ≤ stream.size) (k : ℕ) :
    (terminated stream task).get (task + k) = terminalByte k (stream.get (task + k)) := by
  rw [terminated, Bytes.get_ofFn]
  split_ifs with hinside hbefore
  · omega
  · rw [Nat.add_sub_cancel_left]
  · rw [stream.get_of_size_le _ (by omega), terminalByte, if_neg (by omega), if_neg (by omega),
      if_neg (by omega), if_neg (by omega)]

theorem get_terminated_of_lt {i : ℕ} (h : i < task) : (terminated stream task).get i = stream.get i := by
  rw [terminated, Bytes.get_ofFn]
  split_ifs with hinside
  · rfl
  · exact (stream.get_of_size_le _ (by omega)).symm

theorem get_terminated_of_le {i : ℕ} (hstream : task + 0x20 ≤ stream.size) (h : task + 0x20 ≤ i) :
    (terminated stream task).get i = stream.get i := by
  obtain ⟨k, rfl⟩ := Nat.exists_eq_add_of_le (show task ≤ i by omega)
  rw [get_terminated hstream, terminalByte, if_neg (by omega), if_neg (by omega), if_neg (by omega),
    if_neg (by omega)]

/-- Byte `k` of a word or-ed with another. -/
theorem get_putLE_or {offset w value k : ℕ} (hk : k < w) (hsize : offset + w ≤ stream.size) :
    (stream.putLE offset w (stream.leNat offset w ||| value)).get (offset + k) =
      stream.get (offset + k) ||| UInt8.ofNat (value >>> (8 * k)) := by
  rw [stream.get_putLE hk hsize, Nat.shiftRight_or_distrib, UInt8.ofNat_or,
    ← Bytes.get_eq_leNat_shiftRight _ _ _ _ hk]

/-- Byte `k` of a word and-ed with another. -/
theorem get_putLE_and {offset w value k : ℕ} (hk : k < w) (hsize : offset + w ≤ stream.size) :
    (stream.putLE offset w (stream.leNat offset w &&& value)).get (offset + k) =
      stream.get (offset + k) &&& UInt8.ofNat (value >>> (8 * k)) := by
  rw [stream.get_putLE hk hsize, Nat.shiftRight_and_distrib, UInt8.ofNat_and,
    ← Bytes.get_eq_leNat_shiftRight _ _ _ _ hk]

/-- Termination inside the stream succeeds. -/
theorem terminateTask_eq (h : task + 0x20 ≤ stream.size) :
    terminateTask stream task = .ok (terminated stream task) := by
  have hheader : stream.u32 task ||| 0x03000000 < 2 ^ 32 :=
    Nat.or_lt_two_pow (stream.u32_lt task) (by decide)
  have hnext : halfWord (stream.putLE task 4 (stream.u32 task ||| 0x03000000)) (task + 6) &&& 0xFE00 <
      2 ^ 16 := Nat.and_lt_two_pow _ (by decide)
  rw [terminateTask, if_neg (by omega), Int.toNat_natCast, unpackU32_of_le (by omega), ok_bind,
    packU32_of_le (by omega) hheader, ok_bind, unpackU16, if_pos (by rw [Bytes.size_putLE]; omega), ok_bind,
    packU16, if_pos ⟨by rw [Bytes.size_putLE]; omega, hnext⟩, ok_bind,
    packU32_of_le (by rw [Bytes.size_putLE, Bytes.size_putLE]; omega) (by decide)]
  congr 1
  apply Bytes.ext_get
  · rfl
  intro i hi
  by_cases hbefore : i < task
  · rw [Bytes.get_putLE_of_ne _ (by omega), Bytes.get_putLE_of_ne _ (by omega),
      Bytes.get_putLE_of_ne _ (by omega), get_terminated_of_lt hbefore]
  obtain ⟨k, rfl⟩ := Nat.exists_eq_add_of_le (Nat.le_of_not_lt hbefore)
  rw [get_terminated h]
  by_cases hlink : 0x1C ≤ k ∧ k < 0x20
  · obtain ⟨m, rfl⟩ := Nat.exists_eq_add_of_le hlink.1
    have hbyte : ((0 : ℕ) >>> (8 * m)) = 0 := Nat.zero_shiftRight _
    rw [← Nat.add_assoc, Bytes.get_putLE _ (by omega) (by simp only [Bytes.size_putLE]; omega), hbyte,
      terminalByte, if_neg (by omega), if_neg (by omega), if_neg (by omega), if_pos (by omega)]
    rfl
  rw [Bytes.get_putLE_of_ne _ (by omega)]
  by_cases hnextSize : 6 ≤ k ∧ k < 8
  · obtain ⟨m, rfl⟩ := Nat.exists_eq_add_of_le hnextSize.1
    rw [← Nat.add_assoc, halfWord, get_putLE_and (by omega) (by rw [Bytes.size_putLE]; omega),
      Bytes.get_putLE_of_ne _ (by omega)]
    have hm : m = 0 ∨ m = 1 := by omega
    rcases hm with rfl | rfl
    · exact UInt8.and_zero
    · rfl
  rw [Bytes.get_putLE_of_ne _ (by omega)]
  by_cases hword : k < 4
  · rw [Bytes.u32, get_putLE_or hword (by omega)]
    obtain rfl | rfl | rfl | rfl : k = 0 ∨ k = 1 ∨ k = 2 ∨ k = 3 := by omega
    · exact UInt8.or_zero
    · exact UInt8.or_zero
    · exact UInt8.or_zero
    · rfl
  rw [Bytes.get_putLE_of_ne _ (by omega), terminalByte, if_neg (by omega), if_neg (by omega),
    if_neg (by omega), if_neg (by omega)]

theorem terminateTask_eq_ok {taskStart : ℤ} {result : Bytes} (h : terminateTask stream taskStart = .ok result) :
    0 ≤ taskStart ∧ taskStart + 0x20 ≤ stream.size ∧ result = terminated stream taskStart.toNat := by
  have hbounds : ¬ (taskStart < 0 ∨ (stream.size : ℤ) < taskStart + 0x20) := by
    intro hbad
    rw [terminateTask, if_pos hbad] at h
    exact absurd h (raiseValue_ne_ok _ _)
  obtain ⟨task, rfl⟩ := Int.eq_ofNat_of_zero_le (show 0 ≤ taskStart by omega)
  rw [terminateTask_eq (by omega)] at h
  exact ⟨by omega, by omega, (Except.ok.inj h).symm⟩

end AneLinux.Anec
