import AneLinux.Support.Method

/-!
# Methods that apply as a whole or not at all

A caller sees an object through a view. A method is atomic when its effect on the view takes place
if the method returns, and the view is as before if the method raises, whatever else the method
changed. In a run of atomic methods whose exceptions the caller catches, the view ends with the
effects of the methods that returned, in order.
-/

namespace AneLinux.Support

namespace Method

universe u

variable {σ α β V : Type u}

/-- From `inv` the method keeps `inv`, and the view changes by `effect` exactly when it returns. -/
def Atomic (inv : σ → Prop) (view : σ → Py V) (effect : V → V) (m : Method σ α) : Prop :=
  ∀ s, inv s → inv (m s).1 ∧
    view (m s).1 = (view s).map fun v => if (m s).2.isOk = true then effect v else v

/-- Call methods one after another and catch what they raise: the object and which calls returned. -/
def runAll : List (Method σ α) → σ → σ × List Bool
  | [], s => (s, [])
  | m :: rest, s =>
    let after := runAll rest (m s).1
    (after.1, (m s).2.isOk :: after.2)

/-- The effects of the calls that returned, in order. -/
def effectsOf : List (V → V) → List Bool → V → V
  | effect :: effects, returned :: outcomes, v =>
    effectsOf effects outcomes (if returned = true then effect v else v)
  | _, _, v => v

variable {inv : σ → Prop} {view : σ → Py V} {effect : V → V} {m : Method σ α}

/-- A method that fails without a change of the view. -/
theorem Atomic.of_error {s s' : σ} {e : PyError} (h : m s = (s', .error e)) (hinv : inv s')
    (hview : view s' = view s) : inv (m s).1 ∧
      view (m s).1 = (view s).map fun v => if (m s).2.isOk = true then effect v else v := by
  rw [h]
  refine ⟨hinv, hview.trans ?_⟩
  cases view s with
  | ok v => rfl
  | error e => rfl

/-- A method that returns after its effect. -/
theorem Atomic.of_ok {s s' : σ} {a : α} (h : m s = (s', .ok a)) (hinv : inv s')
    (hview : view s' = (view s).map effect) : inv (m s).1 ∧
      view (m s).1 = (view s).map fun v => if (m s).2.isOk = true then effect v else v := by
  rw [h]
  refine ⟨hinv, hview.trans ?_⟩
  cases view s with
  | ok v => rfl
  | error e => rfl

/-- A check before an atomic method. -/
theorem Atomic.lift_bind {x : Py β} {f : β → Method σ α} (hf : ∀ b, Atomic inv view effect (f b)) :
    Atomic inv view effect (Method.lift x >>= f) := by
  intro s hs
  cases x with
  | ok b => exact hf b s hs
  | error e => exact Atomic.of_error (lift_error_bind e f s) hs rfl

/-- What an atomic method returns does not matter. -/
theorem Atomic.bind_pure {b : β} (hm : Atomic inv view effect m) :
    Atomic inv view effect (m >>= fun _ => (pure b : Method σ β)) := by
  intro s hs
  obtain ⟨hinv, hview⟩ := hm s hs
  rcases hms : m s with ⟨s', outcome⟩
  rw [hms] at hinv hview
  cases outcome with
  | ok a => exact Atomic.of_ok (bind_of_ok hms) hinv hview
  | error e => rw [bind_of_error hms]; exact ⟨hinv, hview⟩

/-- A run of atomic methods: the view ends with the effects of the calls that returned. -/
theorem runAll_atomic {ι : Type*} {method : ι → Method σ α} {effect : ι → V → V} {calls : List ι}
    (h : ∀ call ∈ calls, Atomic inv view (effect call) (method call)) {s : σ} (hs : inv s) :
    inv (runAll (calls.map method) s).1 ∧
      view (runAll (calls.map method) s).1 =
        (view s).map (effectsOf (calls.map effect) (runAll (calls.map method) s).2) := by
  induction calls generalizing s with
  | nil =>
    refine ⟨hs, ?_⟩
    cases hview : view s with
    | ok v => exact hview
    | error e => exact hview
  | cons call calls ih =>
    obtain ⟨hinv, hview⟩ := h call List.mem_cons_self s hs
    obtain ⟨hrest, hafter⟩ := ih (fun other hother => h other (List.mem_cons_of_mem _ hother)) hinv
    refine ⟨hrest, hafter.trans ?_⟩
    rw [hview]
    cases view s with
    | ok v => rfl
    | error e => rfl

end Method

end AneLinux.Support
