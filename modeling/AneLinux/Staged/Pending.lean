import AneLinux.Staged.Banks
import AneLinux.Runtime.PingPong

/-!
# Waiting for the outputs

Before a submission every watched buffer is filled with the half-word of infinity. The wait ends
when no watched buffer holds two such half-words in a row within its first 64 bytes. The search is
for the four bytes at any offset, so a finite output that has them across half-words keeps the wait
going until it times out.
-/

namespace AneLinux.Staged

open AneLinux.Support AneLinux.Runtime

/-- `b"\x00\x7c\x00\x7c" in raw`. -/
def holdsInfinities (raw : Bytes) : Bool :=
  (List.range (raw.size - 3)).any fun i =>
    raw.get i == 0x00 && raw.get (i + 1) == 0x7C && raw.get (i + 2) == 0x00 && raw.get (i + 3) == 0x7C

/-- The test for a bank whose output is still awaited. -/
def pending (bank : Bytes) : Bool := holdsInfinities (bank.slice 0 64)

/-- One turn of the waiting loop: what the watched banks read, and whether the deadline has come. -/
structure Poll where
  banks : List Bytes
  late : Bool

/-- The waiting loop of `execute` over the turns seen so far; `none` while it goes on. -/
def awaitOutputs (name : String) : List Poll → Option (Py Unit)
  | [] => none
  | poll :: rest =>
    if poll.banks.all fun bank => !pending bank then some (.ok ())
    else if poll.late then some (.error (.timeoutError (name ++ ": outputs stayed infinite")))
    else awaitOutputs name rest

/-! ## The bytes of adjacent half-words -/

/-- The first 32 half-words of a bank are finite. -/
def FiniteHead (bank : Bytes) : Prop := ∀ i < 32, isFinite (halfAt bank (2 * i)) = true

/-- Among the first 32 half-words, three in a row whose middle four bytes read `00 7c 00 7c`: one
below `0x0100`, then `0x007C`, then one with low byte `0x7C`. -/
def Straddles (bank : Bytes) : Prop :=
  ∃ i < 30, (halfAt bank (2 * i)).toNat < 0x100 ∧ halfAt bank (2 * (i + 1)) = 0x007C ∧
    (halfAt bank (2 * (i + 2))).toNat % 0x100 = 0x7C

section Bytes

variable {bank raw : Bytes}

/-- A half-word is its low byte and its high byte. -/
theorem toNat_halfAt (d : Bytes) (offset : ℕ) :
    (halfAt d offset).toNat = (d.get offset).toNat + 256 * (d.get (offset + 1)).toNat := by
  have hlow := (d.get offset).toNat_lt
  have hhigh := (d.get (offset + 1)).toNat_lt
  rw [halfAt, BitVec.toNat_ofNat]
  simp only [Bytes.leNat]
  omega

/-- The search finds the four bytes at some offset. -/
theorem holdsInfinities_iff : holdsInfinities raw = true ↔ ∃ i, i + 4 ≤ raw.size ∧
    (raw.get i).toNat = 0x00 ∧ (raw.get (i + 1)).toNat = 0x7C ∧ (raw.get (i + 2)).toNat = 0x00 ∧
      (raw.get (i + 3)).toNat = 0x7C := by
  have hbyte (b c : UInt8) : (b == c) = true ↔ b.toNat = c.toNat := by
    rw [beq_iff_eq, UInt8.toNat_inj]
  unfold holdsInfinities
  simp only [List.any_eq_true, List.mem_range, Bool.and_eq_true, hbyte, and_assoc]
  constructor
  · rintro ⟨i, hi, hbytes⟩
    exact ⟨i, by omega, hbytes⟩
  · rintro ⟨i, hi, hbytes⟩
    exact ⟨i, by omega, hbytes⟩

/-- A bank is awaited while the four bytes stand within its first 64. -/
theorem pending_iff : pending bank = true ↔ ∃ i, i + 4 ≤ 64 ∧
    (bank.get i).toNat = 0x00 ∧ (bank.get (i + 1)).toNat = 0x7C ∧ (bank.get (i + 2)).toNat = 0x00 ∧
      (bank.get (i + 3)).toNat = 0x7C := by
  have hget (i : ℕ) (hi : i < 64) : (bank.slice 0 64).get i = bank.get i := by
    rw [Bytes.get_slice_of_lt _ (by omega), Nat.zero_add]
  rw [pending, holdsInfinities_iff]
  constructor
  · rintro ⟨i, hi, hbytes⟩
    rw [Bytes.size_slice] at hi
    rw [hget _ (by omega), hget _ (by omega), hget _ (by omega), hget _ (by omega)] at hbytes
    exact ⟨i, by omega, hbytes⟩
  · rintro ⟨i, hi, hbytes⟩
    have hinside : i + 3 < bank.size := by
      by_contra hpast
      have hzero := bank.get_of_size_le (i + 3) (by omega)
      rw [hzero] at hbytes
      exact absurd hbytes.2.2.2 (by decide)
    refine ⟨i, by rw [Bytes.size_slice]; omega, ?_⟩
    rw [hget _ (by omega), hget _ (by omega), hget _ (by omega), hget _ (by omega)]
    exact hbytes

/-- A bank with a finite head is awaited exactly when the bytes straddle half-words. -/
theorem pending_iff_straddles (hfinite : FiniteHead bank) : pending bank = true ↔ Straddles bank := by
  have hvalue (i : ℕ) : halfAt bank (2 * i) = 0x007C ↔ (halfAt bank (2 * i)).toNat = 0x7C := BitVec.toNat_inj.symm
  rw [pending_iff]
  constructor
  · rintro ⟨i, hi, h0, h1, h2, h3⟩
    obtain ⟨j, rfl | rfl⟩ : ∃ j, i = 2 * j ∨ i = 2 * j + 1 := ⟨i / 2, by omega⟩
    · have hinf : halfAt bank (2 * j) = 0x7C00 := by
        apply BitVec.eq_of_toNat_eq
        rw [toNat_halfAt, h0, h1]
        rfl
      have hfine := hfinite j (by omega)
      rw [hinf] at hfine
      exact absurd hfine (by decide)
    · refine ⟨j, by omega, ?_, (hvalue _).mpr ?_, ?_⟩
      · have hlow := (bank.get (2 * j)).toNat_lt
        rw [toNat_halfAt, h0]
        omega
      · rw [toNat_halfAt, show 2 * (j + 1) = 2 * j + 1 + 1 by omega, h1,
          show 2 * j + 1 + 1 + 1 = 2 * j + 1 + 2 by omega,
          h2]
      · rw [toNat_halfAt, show 2 * (j + 2) = 2 * j + 1 + 3 by omega, h3]
        omega
  · rintro ⟨j, hj, hfirst, hmiddle, hlast⟩
    have hmiddle := (hvalue _).mp hmiddle
    have hb1 := (bank.get (2 * (j + 1))).toNat_lt
    have hb2 := (bank.get (2 * (j + 2))).toNat_lt
    rw [toNat_halfAt] at hfirst hmiddle hlast
    refine ⟨2 * j + 1, by omega, by omega, ?_, ?_, ?_⟩
    · rw [show 2 * j + 1 + 1 = 2 * (j + 1) by omega]
      omega
    · rw [show 2 * j + 1 + 2 = 2 * (j + 1) + 1 by omega]
      omega
    · rw [show 2 * j + 1 + 3 = 2 * (j + 2) by omega]
      omega

end Bytes

/-! ## The wait -/

/-- The wait ends at a turn where no watched bank is awaited, if the deadline has not come before. -/
theorem awaitOutputs_of_written (name : String) {before after : List Poll} {poll : Poll}
    (hearly : ∀ earlier ∈ before, earlier.late = false) (hwritten : ∀ bank ∈ poll.banks, pending bank = false) :
    awaitOutputs name (before ++ poll :: after) = some (.ok ()) := by
  induction before with
  | nil =>
    have hall : (poll.banks.all fun bank => !pending bank) = true := by
      rw [List.all_eq_true]
      intro bank hbank
      rw [hwritten bank hbank]
      rfl
    rw [List.nil_append, awaitOutputs, if_pos hall]
  | cons first rest ih =>
    rw [List.cons_append, awaitOutputs]
    by_cases hall : (first.banks.all fun bank => !pending bank) = true
    · rw [if_pos hall]
    · rw [if_neg hall, if_neg (by rw [hearly first List.mem_cons_self]; exact Bool.false_ne_true)]
      exact ih fun earlier hmem => hearly earlier (List.mem_cons_of_mem first hmem)

/-- For a bank whose first 32 half-words are finite: the pending test is false, and no wait that
reads it before the deadline times out, exactly when the bytes of infinity do not straddle its
half-words. -/
theorem finite_output_completes_iff (bank : Bytes) (hfinite : FiniteHead bank) :
    (pending bank = false ∧ ∀ name before poll after, (∀ earlier ∈ before, earlier.late = false) →
      (∀ read ∈ poll.banks, read = bank) →
        awaitOutputs name (before ++ poll :: after) = some (.ok ())) ↔
    ¬ Straddles bank := by
  rw [← pending_iff_straddles hfinite, Bool.not_eq_true]
  constructor
  · exact fun h => h.1
  · intro hpending
    refine ⟨hpending, fun name before poll after hearly hreads => ?_⟩
    apply awaitOutputs_of_written name hearly
    intro read hread
    rw [hreads read hread]
    exact hpending

/-- A head of ones. -/
def onesBank : Bytes := tobytes (List.replicate 32 halfOne)

theorem finite_output_completes_iff_ones : FiniteHead onesBank ∧
    (pending onesBank = false ↔ ¬ Straddles onesBank) := by
  have hfinite : FiniteHead onesBank := by
    unfold FiniteHead
    decide +kernel
  have hiff := finite_output_completes_iff onesBank hfinite
  have hpending : pending onesBank = false := by decide +kernel
  refine ⟨hfinite, fun _ => hiff.mp ⟨hpending, fun name before poll after hearly hreads => ?_⟩, fun _ => hpending⟩
  exact awaitOutputs_of_written name hearly fun read hread => (hreads read hread).symm ▸ hpending

/-- A finite output whose first values are `0x0000`, `0x007C` and `0x3C7C`. -/
def straddlingBank : Bytes := tobytes ([0x0000, 0x007C, 0x3C7C] ++ List.replicate 29 halfZero)

/-- Finite values that look infinite: the wait reads them until the deadline and times out. -/
theorem finite_output_times_out : FiniteHead straddlingBank ∧ pending straddlingBank = true ∧
    awaitOutputs "prog_000" [⟨[straddlingBank], false⟩, ⟨[straddlingBank], true⟩] =
      some (.error (.timeoutError "prog_000: outputs stayed infinite")) := by
  unfold FiniteHead
  decide +kernel

end AneLinux.Staged
