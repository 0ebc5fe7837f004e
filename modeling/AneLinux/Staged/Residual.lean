import AneLinux.Staged.LanePointers

/-!
# When the runtime feeds the designated residual

The verifier's residual pointer moves to every output named `x` or `h`. The runtime has no
such pointer: it reads lane `x` by its name. A program after a chunk's final `h` that reads
`x` therefore gets the residual of before that chunk, unless an output named `x` came in
between. Where the two name one output the runtime follows the pointer in every step of every
run; where they do not, some step hands over another value.
-/

namespace AneLinux.Staged

open AneLinux.Support

/-! ## Where the two part -/

/-- A source that can be fed when its program is reached: its lane was stored earlier in the
step, or its context table has as many values as its shape. -/
def Ready (m : Manifest) (cosSize sinSize i : ℕ) (source : Source) : Prop :=
  match source.kind with
  | .stateIn => True
  | .lane => ∃ o, (pointersBefore m i).named source.lane = some o
  | .ctx => contextSize m.maxLen cosSize sinSize source.lane = some source.shape.prod

/-- Every source before a slot can be fed, so that a step can come to that slot. -/
def ReadyUpTo (m : Manifest) (cosSize sinSize i j : ℕ) : Prop :=
  ∀ i' j' source, m.source i' j' = some source → i' < i ∨ i' = i ∧ j' < j →
    Ready m cosSize sinSize i' source

/-- Two outputs that a step always reads as the same array: one bank under one shape, or the
empty array of one shape. -/
def SameReading (m : Manifest) (a b : Origin) : Prop :=
  a = b ∨ ∃ i j i' j' dst dst', a = .output i j ∧ b = .output i' j' ∧ m.dst i j = some dst ∧
    m.dst i' j' = some dst' ∧ dst.shape = dst'.shape ∧
      ((i = i' ∧ dst.port = dst'.port) ∨ dst.shape.prod = 0)

/-- Wherever a step can come to a source of lane `x`, the latest output named `x` or `h` is the
latest one named `x`. -/
def ResidualNamedX (m : Manifest) : Prop :=
  ∀ i j source, m.source i j = some source → source.kind = .lane → source.lane = "x" →
    0 < m.maxLen → (∃ cosSize sinSize, ReadyUpTo m cosSize sinSize i j) →
      ∃ o, (pointersBefore m i).named "x" = some o ∧ SameReading m (pointersBefore m i).xPointer o

/-! ## The runtime follows the pointer -/

variable {m : Manifest} {call : Call} {cosSize sinSize i j : ℕ} {source : Source} {program : Program}
  {value : HalfArray}

section Forward

variable {d : Decoder}

/-- Two origins that always read the same have the same value once both were read. -/
theorem originValue_of_sameReading {a b : Origin} {va vb : HalfArray} (h : SameReading m a b)
    (ha : originValue m call a = some va) (hb : originValue m call b = some vb) : va = vb := by
  rcases h with rfl | ⟨i, j, i', j', dst, dst', rfl, rfl, hdst, hdst', hshape, hsame⟩
  · exact Option.mem_unique ha hb
  · simp only [originValue, hdst, hdst', Option.bind_some, toOption_eq_some] at ha hb
    rcases hsame with ⟨rfl, hport⟩ | hempty
    · rw [← hport, ← hshape, ha] at hb
      exact Except.ok.inj hb
    · have hva := call.engine.readOutput_shape ha
      have hvb := call.engine.readOutput_shape hb
      have hshapes : va.shape = vb.shape := hva.trans (hshape.trans hvb.symm)
      refine HalfArray.ext hshapes ?_
      rw [List.eq_nil_of_length_eq_zero (va.size_eq.trans (hva ▸ hempty)),
        List.eq_nil_of_length_eq_zero (vb.size_eq.trans (hshapes ▸ hva ▸ hempty))]

/-- Where a step stands when it comes to a source: every source before it could be fed, the lanes
track the pointers, and every write so far was the designated value. -/
structure Live (m : Manifest) (call : Call) (d : Decoder) (i j : ℕ) (s : StepState) : Prop where
  tracks : Tracks m call d.lanes (pointersBefore m i) s.lanes
  ready : ReadyUpTo m (rowSize call.rope.cosp d.position) (rowSize call.rope.sinp d.position) i j
  follows : ∀ write ∈ s.writes, Follows m call write

/-- What holds however a step ends. -/
structure Settled (m : Manifest) (call : Call) (s : StepState) : Prop where
  carried : Carried m s.lanes
  follows : ∀ write ∈ s.writes, Follows m call write

/-- A source that could be fed moves the step to the next slot. -/
theorem ReadyUpTo.succ (h : ReadyUpTo m cosSize sinSize i j) (hsource : m.source i j = some source)
    (hready : Ready m cosSize sinSize i source) : ReadyUpTo m cosSize sinSize i (j + 1) := by
  intro i' j' source' hsource' hbefore
  by_cases hat : i' = i ∧ j' = j
  · obtain ⟨rfl, rfl⟩ := hat
    rwa [Option.mem_unique hsource' hsource]
  · exact h i' j' source' hsource' (by omega)

/-- All sources of a program fed is the next program reached. -/
theorem ReadyUpTo.next (hprogram : m.programs[i]? = some program)
    (h : ReadyUpTo m cosSize sinSize i program.srcs.length) : ReadyUpTo m cosSize sinSize (i + 1) 0 := by
  intro i' j' source hsource hbefore
  refine h i' j' source hsource ?_
  rcases Nat.lt_or_ge i' i with hlt | hge
  · exact Or.inl hlt
  · obtain rfl : i' = i := by omega
    rw [Manifest.source_of_program hprogram] at hsource
    exact Or.inr ⟨rfl, (List.getElem?_eq_some_iff.mp hsource).1⟩

/-- The lane sources of every program before a reached one have their origins. -/
theorem ReadyUpTo.lanesReady (h : ReadyUpTo m cosSize sinSize i j) : ∀ k < i, LanesReady m k := by
  intro k hk j' source hsource hkind
  have hready := h k j' source hsource (Or.inl hk)
  rwa [Ready, hkind] at hready

/-- A step that raises at a source leaves lanes that may be held. -/
theorem Live.settled {s : StepState} (h : Live m call d i j s) (hheld : Carried m d.lanes) : Settled m call s :=
  ⟨h.tracks.carried hheld (fun _ hnamed => hnamed) h.ready.lanesReady, h.follows⟩

/-- Handing over the designated value, or a value that is no lane's, keeps the step going. -/
theorem writeBank_live {pre : StepState → Prop} (hheld : Carried m d.lanes) (hsource : m.source i j = some source)
    (hpre : ∀ s, pre s → Live m call d i j s ∧ Ready m (rowSize call.rope.cosp d.position)
      (rowSize call.rope.sinp d.position) i source ∧ Follows m call ⟨i, j, value⟩) :
    Stmt.Triple pre (writeBank call.engine i j source.port value)
      (Live m call d i (j + 1)) (Settled m call) := by
  have hupdate : Stmt.Triple pre
      (Stmt.update fun s : StepState => { s with writes := s.writes ++ [⟨i, j, value⟩] })
      (Live m call d i (j + 1)) (Settled m call) := by
    refine Stmt.Triple.update fun s hs => ?_
    obtain ⟨hlive, hready, hfollows⟩ := hpre s hs
    refine ⟨hlive.tracks, hlive.ready.succ hsource hready, fun write hwrite => ?_⟩
    rcases List.mem_append.mp hwrite with hold | hnew
    · exact hlive.follows write hold
    · rw [List.mem_singleton.mp hnew]
      exact hfollows
  exact hupdate.seq (Stmt.Triple.call (fun _ hs => hs) fun _ _ _ hs => hs.settled hheld)

/-- A value found in a lane is the one designated for the source that reads the lane. -/
theorem Live.follows_lane {s : StepState} (h : Live m call d i j s) (hx : ResidualNamedX m) (hheld : Carried m d.lanes)
    (hmax : 0 < m.maxLen) (hsource : m.source i j = some source) (hkind : source.kind = .lane)
    (hvalue : find s.lanes source.lane = some value) :
    (∃ o, (pointersBefore m i).named source.lane = some o) ∧ Follows m call ⟨i, j, value⟩ := by
  have hnamed : ∃ o, (pointersBefore m i).named source.lane = some o := by
    cases hnone : (pointersBefore m i).named source.lane with
    | some o => exact ⟨o, rfl⟩
    | none =>
      rw [h.tracks.untouched source.lane hnone] at hvalue
      exact hnone ▸ hheld.ready hsource hkind hvalue
  obtain ⟨o, ho⟩ := hnamed
  obtain ⟨found, horigin, hfound⟩ := h.tracks.produced source.lane o ho
  obtain rfl := Option.mem_unique hfound hvalue
  refine ⟨⟨o, ho⟩, fun source' hsource' _ => ?_⟩
  obtain rfl := Option.mem_unique hsource' hsource
  by_cases hlane : source'.lane = "x"
  · obtain ⟨o', ho', hsame⟩ := hx i j source' hsource hkind hlane hmax ⟨_, _, h.ready⟩
    obtain ⟨live, hlive⟩ := h.tracks.pointer
    rw [hlane] at ho
    rw [← Option.mem_unique ho ho'] at hsame
    rw [← originValue_of_sameReading hsame hlive horigin]
    exact ⟨_, by rw [Pointers.origin, if_pos hlane], hlive⟩
  · exact ⟨o, (Pointers.origin_of_ne hlane).trans ho, horigin⟩

/-- One source: the step goes on with the designated value or raises. -/
theorem feedSource_live {context : List (String × HalfArray)} (hx : ResidualNamedX m) (hheld : Carried m d.lanes)
    (hprogram : m.programs[i]? = some program) (hslot : program.srcs[j]? = some source)
    (hcontext : contextArrays m.maxLen d.position call.rope = .ok context) :
    Stmt.Triple (Live m call d i j) (feedSource call.engine context i (source, j))
      (Live m call d i (j + 1)) (Settled m call) := by
  have hsource : m.source i j = some source := (Manifest.source_of_program hprogram j).trans hslot
  have hmax : 0 < m.maxLen := by
    have := (contextArrays_eq_ok.mp hcontext).1
    omega
  cases hkind : source.kind with
  | stateIn =>
    rw [feedSource_of_stateIn hkind]
    intro s hs
    have hready : Ready m (rowSize call.rope.cosp d.position) (rowSize call.rope.sinp d.position) i
        source := by
      rw [Ready, hkind]
      trivial
    exact ⟨hs.tracks, hs.ready.succ hsource hready, hs.follows⟩
  | lane =>
    rw [feedSource_of_lane hkind]
    refine Stmt.Triple.eval (fun _ _ hs _ => hs.settled hheld) fun value => ?_
    refine writeBank_live hheld hsource fun s hs => ?_
    have hfind : find s.lanes source.lane = some value := (lookup_raises _ _ _).value hs.2
    obtain ⟨hnamed, hfollows⟩ := hs.1.follows_lane hx hheld hmax hsource hkind hfind
    refine ⟨hs.1, ?_, hfollows⟩
    rw [Ready, hkind]
    exact hnamed
  | ctx =>
    rw [feedSource_of_ctx hkind]
    refine Stmt.Triple.eval (fun _ _ hs _ => hs.settled hheld) fun value => ?_
    refine writeBank_live hheld hsource fun s hs => ⟨hs.1, ?_, fun source' hsource' hlane => ?_⟩
    · rw [Ready, hkind]
      exact (contextValue_isOk_iff hcontext source).mp ⟨value, hs.2⟩
    · rw [Option.mem_unique hsource' hsource, hkind] at hlane
      cases hlane

/-- One program: the step comes to the next one or raises. -/
theorem runProgram_live (hx : ResidualNamedX m) (hheld : Carried m d.lanes) (hprogram : m.programs[i]? = some program) :
    Stmt.Triple (Live m call d i 0) (runProgram m call d.position (program, i))
      (Live m call d (i + 1) 0) (Settled m call) := by
  unfold runProgram
  refine Stmt.Triple.eval (fun _ _ hs _ => hs.settled hheld) fun context => ?_
  intro s hs
  have hfeed := Stmt.Triple.enumerate fun j source hslot => feedSource_live hx hheld hprogram hslot hs.2
  have hexecute : Stmt.Triple (Live m call d i program.srcs.length)
      (Stmt.call (call.engine.execute i (outputPorts program.dsts)))
      (Live m call d i program.srcs.length) (Settled m call) :=
    Stmt.Triple.call (fun _ hs => hs) fun _ _ _ hs => hs.settled hheld
  refine (hfeed.seq (hexecute.seq fun s' hs' => ?_)) s hs.1
  have hnext := hs'.ready.next hprogram
  have hstore := @storeOutputs_triple m call d.lanes i program
    (fun writes => ∀ write ∈ writes, Follows m call write) (Settled m call) hprogram
    fun s'' slot dst e _ htracks hle hfollows => ?_
  · refine (hstore.weaken_post fun s'' h => ?_) s' ⟨hs'.tracks, hs'.follows⟩
    exact ⟨h.1, hnext, h.2⟩
  · refine ⟨htracks.carried hheld (fun lane hnamed => ?_) hnext.lanesReady, hfollows⟩
    rw [pointersBefore_succ hprogram]
    exact foldFirst_mono (fun p => ∃ o, p.named lane = some o)
      (fun p entry => Pointers.named_kept p i entry lane) hle hnamed

/-- A whole step: whichever way it ends, every write was the designated value and the lanes may
be held. -/
theorem runPrograms_settled (hx : ResidualNamedX m) (hheld : Carried m d.lanes) :
    Settled m call (runPrograms m call d).1 := by
  have hloop := @Stmt.Triple.enumerate _ _ (Settled m call) (runProgram m call d.position)
    m.programs (fun i => Live m call d i 0) fun i program hprogram => runProgram_live hx hheld hprogram
  refine (hloop.weaken_post fun _ h => h.settled hheld).always ?_
  refine ⟨Tracks.start m call d.lanes, fun i' j' source _ hbefore => ?_, fun write hwrite => ?_⟩
  · omega
  · cases hwrite

/-- A step ends with the lanes and writes of its program loop. -/
theorem step_eq (m : Manifest) (call : Call) (d : Decoder) :
    (step m call d).decoder.lanes = (runPrograms m call d).1.lanes ∧
      (step m call d).writes = (runPrograms m call d).1.writes := by
  unfold step
  rcases runPrograms m call d with ⟨s, outcome⟩
  cases outcome with
  | ok _ => exact ⟨rfl, rfl⟩
  | error e => exact ⟨rfl, rfl⟩

/-- Every reachable decoder holds lanes that a step may leave behind. -/
theorem Reachable.carried (hx : ResidualNamedX m) (h : Reachable m d) : Carried m d.lanes := by
  have hinitial : Carried m Decoder.initial.lanes := by
    intro lane value hvalue
    cases hvalue
  induction h with
  | initial => exact hinitial
  | step call _ ih =>
    rw [(step_eq m call _).1]
    exact (runPrograms_settled hx ih).carried
  | reset _ _ => exact hinitial

end Forward

/-! ## A step that comes to a source -/

/-- An engine on which no call raises. -/
structure Accepting (engine : Engine) : Prop where
  writes : ∀ program port value, engine.writeBank program port value = .ok ()
  executes : ∀ program ports, engine.execute program ports = .ok ()
  reads : ∀ program port shape, ∃ value, engine.readOutput program port shape = .ok value

/-- The step has handed the value of an origin to a source. -/
def Wrote (m : Manifest) (call : Call) (i j : ℕ) (o : Origin) (s : StepState) : Prop :=
  ∃ value, originValue m call o = some value ∧ ⟨i, j, value⟩ ∈ s.writes

section Backward

variable {o : Origin} {context : List (String × HalfArray)}

/-- Bank writes are not undone. -/
theorem writeBank_wrote (program slot : ℕ) (port : String) (value : HalfArray) :
    Stmt.Triple (Wrote m call i j o) (writeBank call.engine program slot port value)
      (Wrote m call i j o) (Wrote m call i j o) := by
  have hupdate : Stmt.Triple (Wrote m call i j o)
      (Stmt.update fun s : StepState => { s with writes := s.writes ++ [⟨program, slot, value⟩] })
      (Wrote m call i j o) (Wrote m call i j o) := by
    refine Stmt.Triple.update ?_
    rintro s ⟨v, hv, hmem⟩
    exact ⟨v, hv, List.mem_append_left _ hmem⟩
  exact hupdate.seq (Stmt.Triple.call (fun _ h => h) fun _ _ _ h => h)

/-- Feeding a source undoes no bank write. -/
theorem feedSource_wrote (program : ℕ) (entry : Source × ℕ) :
    Stmt.Triple (Wrote m call i j o) (feedSource call.engine context program entry)
      (Wrote m call i j o) (Wrote m call i j o) := by
  obtain ⟨source, slot⟩ := entry
  have hwrite (value : HalfArray) := @writeBank_wrote m call i j o program slot source.port value
  cases hkind : source.kind with
  | stateIn =>
    rw [feedSource_of_stateIn hkind]
    exact Stmt.Triple.skip
  | lane =>
    rw [feedSource_of_lane hkind]
    exact Stmt.Triple.eval (fun _ _ h _ => h) fun value =>
      (hwrite value).strengthen_pre fun _ h => h.1
  | ctx =>
    rw [feedSource_of_ctx hkind]
    exact Stmt.Triple.eval (fun _ _ h _ => h) fun value =>
      (hwrite value).strengthen_pre fun _ h => h.1

/-- Running and storing undo no bank write. -/
theorem finishProgram_wrote (program : ℕ) (ports : List (String × List ℕ)) (dsts : List Dst) :
    Stmt.Triple (Wrote m call i j o)
      (Stmt.seq (Stmt.call (call.engine.execute program ports))
        (Stmt.forEach (storeOutput call.engine program) dsts))
      (Wrote m call i j o) (Wrote m call i j o) := by
  refine (Stmt.Triple.call (fun _ h => h) fun _ _ _ h => h).seq ?_
  refine @Stmt.Triple.forEach _ _ (Wrote m call i j o) _ _ (fun _ => Wrote m call i j o) fun _ dst _ => ?_
  exact Stmt.Triple.eval (fun _ _ h _ => h) fun value => Stmt.Triple.update fun _ h => h.1

/-- A program undoes no bank write. -/
theorem runProgram_wrote (position : ℕ) (entry : Program × ℕ) :
    Stmt.Triple (Wrote m call i j o) (runProgram m call position entry) (Wrote m call i j o)
      (Wrote m call i j o) := by
  obtain ⟨program, k⟩ := entry
  refine Stmt.Triple.eval (fun _ _ h _ => h) fun context => ?_
  have hfeed := @Stmt.Triple.enumerate _ _ (Wrote m call i j o) (feedSource call.engine context k)
    program.srcs (fun _ => Wrote m call i j o) fun slot source _ => feedSource_wrote k (source, slot)
  exact (hfeed.seq (finishProgram_wrote k _ _)).strengthen_pre fun _ h => h.1

variable (haccepts : Accepting call.engine)
  (hcontext : contextArrays m.maxLen Decoder.initial.position call.rope = .ok context)

include haccepts

/-- An accepted bank write goes into the log and leaves the lanes alone. -/
theorem writeBank_accepts {pre : StepState → Prop} {post : StepState → Prop} {program slot : ℕ} {port : String}
    (hpost : ∀ s, pre s → post { s with writes := s.writes ++ [⟨program, slot, value⟩] }) :
    Stmt.Triple pre (writeBank call.engine program slot port value) post fun _ => False := by
  refine (Stmt.Triple.update hpost).seq (Stmt.Triple.call (fun _ h => h) fun s e he => ?_)
  rw [haccepts.writes] at he
  cases he

include hcontext

/-- A source that can be fed is fed. -/
theorem feedSource_accepts {k slot : ℕ}
    (hready : Ready m (rowSize call.rope.cosp Decoder.initial.position)
      (rowSize call.rope.sinp Decoder.initial.position) k source) :
    Stmt.Triple (fun s => Tracks m call [] (pointersBefore m k) s.lanes)
      (feedSource call.engine context k (source, slot))
      (fun s => Tracks m call [] (pointersBefore m k) s.lanes) fun _ => False := by
  cases hkind : source.kind with
  | stateIn =>
    rw [feedSource_of_stateIn hkind]
    exact Stmt.Triple.skip
  | lane =>
    rw [feedSource_of_lane hkind]
    refine Stmt.Triple.eval (fun s e hs he => ?_) fun value => writeBank_accepts haccepts fun _ h => h.1
    rw [Ready, hkind] at hready
    obtain ⟨o, ho⟩ := hready
    obtain ⟨value, -, hfind⟩ := hs.produced source.lane o ho
    rw [lookup, hfind] at he
    cases he
  | ctx =>
    rw [feedSource_of_ctx hkind]
    refine Stmt.Triple.eval (fun s e hs he => ?_) fun value => writeBank_accepts haccepts fun _ h => h.1
    rw [Ready, hkind] at hready
    obtain ⟨value, hvalue⟩ := (contextValue_isOk_iff hcontext source).mpr hready
    rw [hvalue] at he
    cases he

/-- A program whose sources can all be fed comes to its end. -/
theorem runProgram_accepts {k : ℕ} (hprogram : m.programs[k]? = some program)
    (hready : ∀ (slot : ℕ) source, program.srcs[slot]? = some source →
      Ready m (rowSize call.rope.cosp Decoder.initial.position) (rowSize call.rope.sinp Decoder.initial.position) k
        source) :
    Stmt.Triple (fun s => Tracks m call [] (pointersBefore m k) s.lanes)
      (runProgram m call Decoder.initial.position (program, k))
      (fun s => Tracks m call [] (pointersBefore m (k + 1)) s.lanes) fun _ => False := by
  refine Stmt.Triple.eval (fun s e hs he => ?_) fun found => ?_
  · rw [hcontext] at he
    cases he
  · intro s hs
    obtain rfl := Except.ok.inj (hcontext.symm.trans hs.2)
    have hfeed := Stmt.Triple.enumerate
      fun slot source hslot => feedSource_accepts haccepts hcontext (hready slot source hslot)
    have hstore := @storeOutputs_triple m call [] k program (fun _ => True) (fun _ => False) hprogram
      fun s' slot dst e he _ _ _ => ?_
    · refine (hfeed.seq ((Stmt.Triple.call (fun _ h => ⟨h, trivial⟩) fun _ e he _ => ?_).seq
        (hstore.weaken_post fun _ h => h.1))) s hs.1
      rw [haccepts.executes] at he
      cases he
    · obtain ⟨value, hvalue⟩ := haccepts.reads k dst.port dst.shape
      rw [hvalue] at he
      cases he

omit hcontext in
/-- A source of lane `x` is handed the latest output named `x`. -/
theorem feedSource_hands_x (hkind : source.kind = .lane) (hlane : source.lane = "x")
    (ho : (pointersBefore m i).named "x" = some o) :
    Stmt.Triple (fun s => Tracks m call [] (pointersBefore m i) s.lanes)
      (feedSource call.engine context i (source, j)) (Wrote m call i j o) (Wrote m call i j o) := by
  rw [feedSource_of_lane hkind]
  refine Stmt.Triple.eval (fun s e hs he => ?_) fun value => ?_
  · obtain ⟨value, -, hfind⟩ := hs.produced "x" o ho
    rw [lookup, hlane, hfind] at he
    cases he
  · refine (writeBank_accepts haccepts fun s hs => ?_).conseq (fun _ h => h) (fun _ h => h)
      fun _ h => h.elim
    obtain ⟨found, horigin, hfind⟩ := hs.1.produced "x" o ho
    have hvalue := (lookup_raises _ _ _).value hs.2
    rw [hlane] at hvalue
    obtain rfl := Option.mem_unique hfind hvalue
    exact ⟨found, horigin, List.mem_append_right _ List.mem_cons_self⟩

/-- A program comes to a source of lane `x` that no earlier source of it blocks. -/
theorem runProgram_hands_x (hslot : program.srcs[j]? = some source)
    (hready : ∀ slot < j, ∀ before, program.srcs[slot]? = some before →
      Ready m (rowSize call.rope.cosp Decoder.initial.position) (rowSize call.rope.sinp Decoder.initial.position) i
        before)
    (hkind : source.kind = .lane) (hlane : source.lane = "x") (ho : (pointersBefore m i).named "x" = some o) :
    Stmt.Triple (fun s => Tracks m call [] (pointersBefore m i) s.lanes)
      (runProgram m call Decoder.initial.position (program, i)) (Wrote m call i j o)
      (Wrote m call i j o) := by
  refine Stmt.Triple.eval (fun s e hs he => ?_) fun found => ?_
  · rw [hcontext] at he
    cases he
  · intro s hs
    obtain rfl := Except.ok.inj (hcontext.symm.trans hs.2)
    have hfeed := Stmt.Triple.enumerate_reaches hslot (fun slot before hlt hbefore =>
        feedSource_accepts haccepts hcontext (hready slot hlt before hbefore))
          (feedSource_hands_x haccepts hkind hlane ho) (feedSource_wrote i)
    exact (hfeed.seq (finishProgram_wrote i _ _)) s hs.1

/-- The first step of a decoder comes to every source of lane `x` that no earlier one blocks. -/
theorem runPrograms_wrote
    (hready : ReadyUpTo m (rowSize call.rope.cosp Decoder.initial.position)
      (rowSize call.rope.sinp Decoder.initial.position) i j)
    (hsource : m.source i j = some source) (hkind : source.kind = .lane) (hlane : source.lane = "x")
    (ho : (pointersBefore m i).named "x" = some o) : Wrote m call i j o (runPrograms m call Decoder.initial).1 := by
  obtain ⟨program, hprogram, hslot⟩ := Option.bind_eq_some_iff.mp hsource
  have hstart : Tracks m call [] (pointersBefore m 0) (assign [] "x" call.hiddenRow) :=
    Tracks.start m call []
  refine (@Stmt.Triple.enumerate_reaches _ _ (Wrote m call i j o)
    (runProgram m call Decoder.initial.position) m.programs
    (fun k s => Tracks m call [] (pointersBefore m k) s.lanes) i program hprogram ?_ ?_
    (runProgram_wrote _)).always hstart
  · intro k before hk hbefore
    refine runProgram_accepts haccepts hcontext hbefore fun slot source' hslot' => ?_
    exact hready k slot source' ((Manifest.source_of_program hbefore slot).trans hslot') (Or.inl hk)
  · refine runProgram_hands_x haccepts hcontext hslot (fun slot hlt before hbefore => ?_) hkind hlane ho
    exact hready i slot before ((Manifest.source_of_program hprogram slot).trans hbefore)
      (Or.inr ⟨rfl, hlt⟩)

end Backward

/-! ## The condition -/

/-- A call in which every output is zero but one, and nothing raises. -/
def probe (hiddenSize cosSize sinSize : ℕ) (target : ℕ × String × List ℕ) : Call where
  hidden := List.replicate hiddenSize halfZero
  rope := ⟨[HalfArray.full [cosSize] halfZero], [HalfArray.full [sinSize] halfZero]⟩
  engine :=
    { writeBank := fun _ _ _ => .ok ()
      execute := fun _ _ => .ok ()
      readOutput := fun program port shape =>
        .ok (HalfArray.full shape (if (program, port, shape) = target then halfOne else halfZero))
      readOutput_shape := by
        intro program port shape value h
        cases h
        rfl }

section Probe

variable {hiddenSize : ℕ} {target : ℕ × String × List ℕ}

theorem probe_accepting : Accepting (probe hiddenSize cosSize sinSize target).engine :=
  ⟨fun _ _ _ => rfl, fun _ _ => rfl, fun _ _ _ => ⟨_, rfl⟩⟩

theorem rowSize_full (size : ℕ) :
    rowSize [HalfArray.full [size] halfZero] Decoder.initial.position = size := by
  simp [rowSize, Decoder.initial, HalfArray.full]

/-- The output that the probe marks reads as ones. -/
theorem originValue_probe {dst : Dst} (h : m.dst i j = some dst) :
    originValue m (probe hiddenSize cosSize sinSize target) (.output i j) =
      some (HalfArray.full dst.shape
        (if (i, dst.port, dst.shape) = target then halfOne else halfZero)) := by
  simp only [originValue, h, Option.bind_some]
  rfl

/-- Arrays of one shape throughout agree only when the value does or there is none. -/
theorem full_injective {shape shape' : List ℕ} {a b : Half}
    (h : HalfArray.full shape a = HalfArray.full shape' b) : shape = shape' ∧ (a = b ∨ shape.prod = 0) := by
  obtain rfl : shape = shape' := congrArg HalfArray.shape h
  have hdata : List.replicate shape.prod a = List.replicate shape.prod b := congrArg HalfArray.data h
  rcases Nat.eq_zero_or_pos shape.prod with hzero | hpos
  · exact ⟨rfl, Or.inr hzero⟩
  · exact ⟨rfl, Or.inl ((List.replicate_right_inj hpos.ne').mp hdata)⟩

end Probe

/-- Where the first step follows the pointer, lane `x` and the pointer have one value. -/
theorem probe_followed {o : Origin} (h : ∀ call, ∀ write ∈ (step m call Decoder.initial).writes, Follows m call write)
    (hsource : m.source i j = some source) (hkind : source.kind = .lane) (hlane : source.lane = "x")
    (hmax : 0 < m.maxLen) (hready : ReadyUpTo m cosSize sinSize i j) (ho : (pointersBefore m i).named "x" = some o)
    (hiddenSize : ℕ) (target : ℕ × String × List ℕ) :
    ∃ value, originValue m (probe hiddenSize cosSize sinSize target) o = some value ∧
      originValue m (probe hiddenSize cosSize sinSize target) (pointersBefore m i).xPointer =
        some value := by
  have hcontext : ∃ context, contextArrays m.maxLen Decoder.initial.position
      (probe hiddenSize cosSize sinSize target).rope = .ok context :=
    ⟨_, contextArrays_eq_ok.mpr ⟨hmax, _, _, rfl, rfl, rfl⟩⟩
  obtain ⟨context, hcontext⟩ := hcontext
  have hready' : ReadyUpTo m
      (rowSize (probe hiddenSize cosSize sinSize target).rope.cosp Decoder.initial.position)
      (rowSize (probe hiddenSize cosSize sinSize target).rope.sinp Decoder.initial.position) i j := by
    simpa only [probe, rowSize_full] using hready
  obtain ⟨value, hvalue, hwrite⟩ := runPrograms_wrote probe_accepting hcontext hready' hsource hkind
    hlane ho
  rw [← (step_eq m _ Decoder.initial).2] at hwrite
  obtain ⟨o', ho', hvalue'⟩ := h _ _ hwrite source hsource hkind
  rw [Pointers.origin, if_pos hlane] at ho'
  rw [← Option.some.inj ho'] at hvalue'
  exact ⟨value, hvalue, hvalue'⟩

/-- If every first step hands over the designated values, the outputs behind the pointer and behind
lane `x` are one reading wherever a step can come to a source of lane `x`. -/
theorem residualNamedX_of_follows (h : ∀ call, ∀ write ∈ (step m call Decoder.initial).writes, Follows m call write) :
    ResidualNamedX m := by
  rintro i j source hsource hkind hlane hmax ⟨cosSize, sinSize, hready⟩
  obtain ⟨o, ho⟩ : ∃ o, (pointersBefore m i).named "x" = some o :=
    pointersBefore_named (Nat.zero_le i) ⟨.host0, rfl⟩
  refine ⟨o, ho, ?_⟩
  have hfollowed := probe_followed h hsource hkind hlane hmax hready ho
  cases hpointer : (pointersBefore m i).xPointer with
  | host0 =>
    have hhost := pointersBefore_host m i hpointer
    exact Or.inl (Option.mem_unique hhost ho)
  | output a b =>
    rw [hpointer] at hfollowed
    obtain ⟨dst, hdst⟩ : ∃ dst, m.dst a b = some dst := by
      obtain ⟨value, -, hvalue⟩ := hfollowed 0 (0, "", [])
      obtain ⟨dst, hdst, -⟩ := Option.bind_eq_some_iff.mp hvalue
      exact ⟨dst, hdst⟩
    cases o with
    | host0 =>
      obtain ⟨value, hhost, houtput⟩ := hfollowed (dst.shape.prod + 1) (a, dst.port, dst.shape)
      rw [originValue_probe hdst] at houtput
      have hshape := congrArg (List.prod ∘ HalfArray.shape)
        (Option.some.inj (hhost.trans houtput.symm))
      simp [Call.hiddenRow, HalfArray.row, HalfArray.full, probe] at hshape
    | output a' b' =>
      obtain ⟨value, hnamed, houtput⟩ := hfollowed 0 (a, dst.port, dst.shape)
      obtain ⟨dst', hdst', -⟩ := Option.bind_eq_some_iff.mp hnamed
      rw [originValue_probe hdst'] at hnamed
      rw [originValue_probe hdst, if_pos rfl] at houtput
      obtain ⟨hshape, hvalue⟩ := full_injective (Option.some.inj (houtput.trans hnamed.symm))
      refine Or.inr ⟨a, b, a', b', dst, dst', rfl, rfl, hdst, hdst', hshape, ?_⟩
      rcases hvalue with hvalue | hempty
      · split_ifs at hvalue with htarget
        · simp only [Prod.mk.injEq] at htarget
          exact Or.inl ⟨htarget.1.symm, htarget.2.1.symm⟩
        · exact absurd hvalue (by decide)
      · exact Or.inr hempty

/-- Over every run of a decoder, the values handed to lane sources are those the verifier's pointer
model designates, exactly when the pointer never rests on an output that lane `x` does not hold. -/
theorem step_follows_pointer_iff (m : Manifest) :
    (∀ d, Reachable m d → ∀ call, ∀ write ∈ (step m call d).writes, Follows m call write) ↔
      ResidualNamedX m := by
  constructor
  · intro h
    exact residualNamedX_of_follows fun call => h _ .initial call
  · intro hx d hd call write hwrite
    rw [(step_eq m call d).2] at hwrite
    exact (runPrograms_settled hx (hd.carried hx)).follows write hwrite

/-- A chain of two chunks: the first one's final `h` is the residual the second one has to read. -/
def twoChunks : Manifest where
  maxLen := 1
  programs :=
    [⟨[⟨"t0", .lane, "x", [1, 1]⟩], [⟨"t1", "h", [1, 1]⟩]⟩,
      ⟨[⟨"t0", .lane, "x", [1, 1]⟩], [⟨"t1", "h", [1, 1]⟩]⟩]

/-- The second chunk is handed the host row again, not the first chunk's `h`. -/
theorem second_chunk_reads_host_row :
    let call := probe 1 1 1 (0, "t1", [1, 1])
    ⟨1, 0, call.hiddenRow⟩ ∈ (step twoChunks call Decoder.initial).writes ∧
      (pointersBefore twoChunks 1).origin "x" = some (.output 0 0) ∧
      originValue twoChunks call (.output 0 0) ≠ some call.hiddenRow ∧
      ¬ ∀ d, Reachable twoChunks d → ∀ call, ∀ write ∈ (step twoChunks call d).writes,
        Follows twoChunks call write := by
  intro call
  have hwrite : ⟨1, 0, call.hiddenRow⟩ ∈ (step twoChunks call Decoder.initial).writes := by decide
  have horigin : (pointersBefore twoChunks 1).origin "x" = some (.output 0 0) := by decide
  have hvalue : originValue twoChunks call (.output 0 0) ≠ some call.hiddenRow := by decide
  refine ⟨hwrite, horigin, hvalue, fun h => ?_⟩
  obtain ⟨o, ho, hfollowed⟩ := h Decoder.initial .initial call _ hwrite _ rfl rfl
  rw [Option.mem_unique ho horigin] at hfollowed
  exact hvalue hfollowed

end AneLinux.Staged
