import AneLinux.Staged.Decoder

/-!
# The verifier's lane pointers and the runtime's lanes

The verifier follows a step with pointers: for every lane the program and slot that last
stored it, and for the residual the latest output named `x` or `h`. The runtime stores the
outputs themselves. Both loops go over the same programs and dsts, so the lanes hold, name by
name, what the pointers say was stored last. A lane that no earlier program of the step
stored cannot be left over from an earlier step, since no step ever gets past its reader.
-/

namespace AneLinux.Staged

open AneLinux.Support

/-! ## The pointer model -/

/-- Where a lane's value comes from: the host, or a dst slot of a program. -/
inductive Origin
  | host0
  | output (program slot : ℕ)
deriving DecidableEq, Repr

/-- The `producer` table and `x_pointer` of `check_cross_captures`. -/
structure Pointers where
  producer : List (String × (ℕ × ℕ))
  xPointer : Origin

namespace Pointers

/-- The pointers before the first program. -/
def start : Pointers := ⟨[], .host0⟩

/-- The body of the loop over a program's `dsts`. -/
def record (program : ℕ) (p : Pointers) : Dst × ℕ → Pointers := fun (dst, slot) =>
  { producer := assign p.producer dst.lane (program, slot)
    xPointer := if dst.lane = "x" ∨ dst.lane = "h" then .output program slot else p.xPointer }

/-- The loop over a program's `dsts`. -/
def recordProgram (p : Pointers) : Program × ℕ → Pointers := fun (program, i) =>
  program.dsts.zipIdx.foldl (record i) p

/-- The origin the verifier compares a lane source with. -/
def origin (p : Pointers) (lane : String) : Option Origin :=
  if lane = "x" then some p.xPointer
  else (find p.producer lane).map fun (program, slot) => .output program slot

/-- The latest output of that very name, with the host row behind lane `x`. -/
def named (p : Pointers) (lane : String) : Option Origin :=
  match find p.producer lane with
  | some (program, slot) => some (.output program slot)
  | none => if lane = "x" then some .host0 else none

end Pointers

/-- The pointers when the verifier comes to a program. -/
def pointersBefore (m : Manifest) (i : ℕ) : Pointers :=
  foldFirst Pointers.recordProgram Pointers.start m.programs i

/-- The value an origin has in one step. -/
def originValue (m : Manifest) (call : Call) : Origin → Option HalfArray
  | .host0 => some call.hiddenRow
  | .output program slot => (m.dst program slot).bind fun dst =>
      (call.engine.readOutput program dst.port dst.shape).toOption

/-- A lane source is fed what the origin designated for it produced in the same step. -/
def Follows (m : Manifest) (call : Call) (write : BankWrite) : Prop :=
  ∀ source, m.source write.program write.slot = some source → source.kind = .lane →
    ∃ o, (pointersBefore m write.program).origin source.lane = some o ∧
      originValue m call o = some write.value

/-! ## Pointers and lanes move together -/

/-- A stored output becomes the latest of its name. -/
theorem Pointers.named_record (p : Pointers) (i : ℕ) (dst : Dst) (slot : ℕ) (lane : String) :
    (p.record i (dst, slot)).named lane =
      if dst.lane = lane then some (.output i slot) else p.named lane := by
  unfold named record
  rw [find_assign]
  by_cases hlane : dst.lane = lane
  · simp [hlane]
  · simp [hlane]

variable {p : Pointers} {m : Manifest} {i k : ℕ} {lanes : List (String × HalfArray)}

/-- A lane other than `x` has the origin of its own name. -/
theorem Pointers.origin_of_ne {lane : String} (h : lane ≠ "x") : p.origin lane = p.named lane := by
  unfold origin named
  rw [if_neg h]
  cases find p.producer lane with
  | none => simp [h]
  | some entry => rfl

/-- Only an output moves the pointer off the host row, and an output named `x` moves it. -/
theorem Pointers.named_of_host (p : Pointers) (i : ℕ) (entry : Dst × ℕ)
    (h : p.xPointer = .host0 → p.named "x" = some .host0) :
    (p.record i entry).xPointer = .host0 → (p.record i entry).named "x" = some .host0 := by
  obtain ⟨dst, slot⟩ := entry
  intro hhost
  rw [Pointers.named_record]
  simp only [Pointers.record] at hhost
  split_ifs at hhost with hlane
  rw [if_neg fun hx => hlane (Or.inl hx), h hhost]

/-- A lane that has an origin keeps having one. -/
theorem Pointers.named_kept (p : Pointers) (i : ℕ) (entry : Dst × ℕ) (lane : String)
    (h : ∃ o, p.named lane = some o) : ∃ o, (p.record i entry).named lane = some o := by
  obtain ⟨dst, slot⟩ := entry
  rw [Pointers.named_record]
  split_ifs with hlane
  · exact ⟨_, rfl⟩
  · exact h

section Before

variable {program : Program}

/-- The pointers after a program are those of its whole `dsts` loop. -/
theorem pointersBefore_succ (h : m.programs[i]? = some program) : pointersBefore m (i + 1) =
    foldFirst (Pointers.record i) (pointersBefore m i) program.dsts program.dsts.length := by
  rw [pointersBefore, foldFirst_succ h, foldFirst_length]
  rfl

/-- What every stored output keeps, the loop over the programs keeps. -/
theorem pointersBefore_keep (keep : Pointers → Prop) (hrecord : ∀ p i entry, keep p → keep (Pointers.record i p entry))
    (hk : i ≤ k) (h : keep (pointersBefore m i)) : keep (pointersBefore m k) := by
  refine foldFirst_mono keep (fun p entry hp => ?_) hk h
  rw [Pointers.recordProgram, ← foldFirst_length]
  exact foldFirst_mono (k := 0) keep (fun p' entry' => hrecord p' entry.2 entry') (Nat.zero_le _) hp

/-- A lane that has an origin keeps having one as the programs go by. -/
theorem pointersBefore_named {lane : String} (hk : i ≤ k) (h : ∃ o, (pointersBefore m i).named lane = some o) :
    ∃ o, (pointersBefore m k).named lane = some o :=
  pointersBefore_keep (fun p => ∃ o, p.named lane = some o)
    (fun p i entry => Pointers.named_kept p i entry lane) hk h

/-- While the pointer is on the host row, so is lane `x`. -/
theorem pointersBefore_host (m : Manifest) (i : ℕ) : (pointersBefore m i).xPointer = .host0 →
    (pointersBefore m i).named "x" = some .host0 :=
  pointersBefore_keep (fun p => p.xPointer = .host0 → p.named "x" = some .host0)
    (fun p i entry => Pointers.named_of_host p i entry) (Nat.zero_le i) fun _ => rfl

end Before

/-- The lanes hold what the latest outputs of their names produced; a lane without an origin is
as the step found it, and the verifier's pointer has a value too. -/
structure Tracks (m : Manifest) (call : Call) (held : List (String × HalfArray)) (p : Pointers)
    (lanes : List (String × HalfArray)) : Prop where
  produced : ∀ lane o, p.named lane = some o →
    ∃ value, originValue m call o = some value ∧ find lanes lane = some value
  untouched : ∀ lane, p.named lane = none → find lanes lane = find held lane
  pointer : ∃ value, originValue m call p.xPointer = some value

section Tracks

variable {call : Call} {held : List (String × HalfArray)}

/-- A step starts with the host row in lane `x`. -/
theorem Tracks.start (m : Manifest) (call : Call) (held : List (String × HalfArray)) :
    Tracks m call held Pointers.start (assign held "x" call.hiddenRow) where
  produced lane o h := by
    simp only [Pointers.named, Pointers.start, find] at h
    split_ifs at h with hlane
    cases h
    exact ⟨call.hiddenRow, rfl, by rw [find_assign, if_pos hlane.symm]⟩
  untouched lane h := by
    simp only [Pointers.named, Pointers.start, find] at h
    split_ifs at h with hlane
    rw [find_assign, if_neg (Ne.symm hlane)]
  pointer := ⟨call.hiddenRow, rfl⟩

/-- Storing an output under its lane is recording its slot. -/
theorem Tracks.record (h : Tracks m call held p lanes) {slot : ℕ} {dst : Dst} {value : HalfArray}
    (hdst : m.dst i slot = some dst) (hread : call.engine.readOutput i dst.port dst.shape = .ok value) :
    Tracks m call held (p.record i (dst, slot)) (assign lanes dst.lane value) := by
  have hvalue : originValue m call (.output i slot) = some value := by
    simp only [originValue, hdst, Option.bind_some, hread, Except.toOption]
  refine ⟨fun lane o ho => ?_, fun lane hlane => ?_, ?_⟩
  · rw [Pointers.named_record] at ho
    rw [find_assign]
    split_ifs at ho with hlane
    · cases ho
      exact ⟨value, hvalue, if_pos hlane⟩
    · rw [if_neg hlane]
      exact h.produced lane o ho
  · rw [Pointers.named_record] at hlane
    rw [find_assign]
    split_ifs at hlane with hne
    rw [if_neg hne]
    exact h.untouched lane hlane
  · simp only [Pointers.record]
    split_ifs with hlane
    · exact ⟨value, hvalue⟩
    · exact h.pointer

end Tracks

/-- The loop over a program's `dsts` moves the lanes to the pointers after the program. A read that
raises leaves the lanes where a part of the `dsts` has moved them. -/
theorem storeOutputs_triple {m : Manifest} {call : Call} {held : List (String × HalfArray)} {i : ℕ}
    {program : Program} {log : List BankWrite → Prop} {fail : StepState → Prop}
    (hprogram : m.programs[i]? = some program)
    (hfail : ∀ (s : StepState) slot (dst : Dst) e, call.engine.readOutput i dst.port dst.shape = .error e →
      Tracks m call held (foldFirst (Pointers.record i) (pointersBefore m i) program.dsts slot) s.lanes →
        slot ≤ program.dsts.length → log s.writes → fail s) :
    Stmt.Triple (fun s => Tracks m call held (pointersBefore m i) s.lanes ∧ log s.writes)
      (Stmt.forEach (storeOutput call.engine i) program.dsts)
      (fun s => Tracks m call held (pointersBefore m (i + 1)) s.lanes ∧ log s.writes) fail := by
  rw [pointersBefore_succ hprogram]
  refine @Stmt.Triple.forEach _ _ fail _ _ (fun slot s =>
    Tracks m call held (foldFirst (Pointers.record i) (pointersBefore m i) program.dsts slot) s.lanes ∧
      log s.writes) fun slot dst hdst => ?_
  have hslot := (List.getElem?_eq_some_iff.mp hdst).1
  refine Stmt.Triple.eval (fun s e hs hread => hfail s slot dst e hread hs.1 hslot.le hs.2) fun value => ?_
  refine Stmt.Triple.update fun s hs => ⟨?_, hs.1.2⟩
  rw [foldFirst_succ hdst]
  exact hs.1.1.record ((Manifest.dst_of_program hprogram slot).trans hdst) hs.2

/-! ## What a step leaves behind -/

/-- Every lane source of a program has an origin when the program is reached. -/
def LanesReady (m : Manifest) (i : ℕ) : Prop :=
  ∀ j source, m.source i j = some source → source.kind = .lane →
    ∃ o, (pointersBefore m i).named source.lane = some o

/-- The lanes a decoder holds come from programs that a step can get past. -/
def Carried (m : Manifest) (lanes : List (String × HalfArray)) : Prop :=
  ∀ lane value, find lanes lane = some value →
    ∃ k, (∃ o, (pointersBefore m k).named lane = some o) ∧ ∀ i < k, LanesReady m i

/-- A lane that a decoder may hold has an origin wherever a source reads it. -/
theorem Carried.ready (h : Carried m lanes) {j : ℕ} {source : Source} {value : HalfArray}
    (hsource : m.source i j = some source) (hkind : source.kind = .lane)
    (hvalue : find lanes source.lane = some value) :
    ∃ o, (pointersBefore m i).named source.lane = some o := by
  obtain ⟨k, hnamed, hready⟩ := h source.lane value hvalue
  rcases Nat.lt_or_ge i k with hik | hki
  · exact hready i hik j source hsource hkind
  · exact pointersBefore_named hki hnamed

/-- Lanes that track the pointers of a reached program may be held. -/
theorem Tracks.carried {call : Call} {held : List (String × HalfArray)} (h : Tracks m call held p lanes)
    (hheld : Carried m held)
    (hp : ∀ lane, (∃ o, p.named lane = some o) → ∃ o, (pointersBefore m k).named lane = some o)
    (hready : ∀ i < k, LanesReady m i) : Carried m lanes := by
  intro lane value hvalue
  cases hnamed : p.named lane with
  | some o => exact ⟨k, hp lane ⟨o, hnamed⟩, hready⟩
  | none => exact hheld lane value ((h.untouched lane hnamed).symm.trans hvalue)

end AneLinux.Staged
