import Mathlib.Data.PNat.Basic
import Mathlib.Data.List.Basic

/-!
# Power domains of the T6021 driver

The probe attaches the device to its power domains one after another and links it to each of them. Everything attached
and every link is released in the opposite order, by the probe itself when one of them fails, from a label of the probe
when a later stage fails, and otherwise at removal. The events of a run are recorded in their order.
-/

namespace AneLinux.Driver

/-! ## The driver -/

/-- What `dev_pm_domain_attach_by_id` returns. -/
inductive Pointer
  | null
  | error (errno : ℕ+)
  | device (id : ℕ)
deriving DecidableEq

/-- `IS_ERR_OR_NULL`. -/
def Pointer.isErrOrNull : Pointer → Bool
  | .device _ => false
  | _ => true

/-- The calls that take or release something. -/
inductive Event
  | attach (domain : Pointer)
  | detach (domain : Pointer)
  | linkAdd (link : ℕ)
  | linkDel (link : ℕ)
deriving DecidableEq

/-- The fields of `struct ane_t6021` about power domains; the arrays come zeroed. -/
structure Ane where
  pdDev : ℕ → Pointer
  pdLink : ℕ → Option ℕ
  pdCount : ℕ

/-- The driver and what it has done. -/
structure Run where
  ane : Ane
  events : List Event

/-- `devm_kzalloc`. -/
def Run.fresh : Run := { ane := { pdDev := fun _ => .null, pdLink := fun _ => none, pdCount := 0 }, events := [] }

/-- The power domains of the device: their number, whether the core has attached a single one, whether the arrays can
be allocated, and the results of the calls for each of them. -/
structure Domains where
  count : ℤ
  pmDomain : Bool
  devTable : Bool
  linkTable : Bool
  attachById : ℕ → Pointer
  linkAdd : ℕ → Option ℕ

def eio : ℤ := 5
def enomem : ℤ := 12
def enodev : ℤ := 19
def einval : ℤ := 22
def eprobeDefer : ℤ := 517

/-- The calls of `ane_t6021_detach_genpd` for one slot. -/
def releases (slot : Pointer × Option ℕ) : List Event :=
  slot.2.toList.map .linkDel ++ if slot.1.isErrOrNull then [] else [.detach slot.1]

/-- The loop of `ane_t6021_detach_genpd`. -/
def detachSlots : ℕ → Run → Run
  | 0, run => run
  | i + 1, run => detachSlots i { run with events := run.events ++ releases (run.ane.pdDev i, run.ane.pdLink i) }

/-- `ane_t6021_detach_genpd`. -/
def detachGenpd (run : Run) : Run :=
  let run := detachSlots run.ane.pdCount run
  { run with ane := { run.ane with pdCount := 0 } }

/-- `ane->pd_dev[i] = domain`. -/
def Ane.setDev (ane : Ane) (i : ℕ) (domain : Pointer) : Ane :=
  { ane with pdDev := Function.update ane.pdDev i domain }

/-- `ane->pd_link[i] = link`. -/
def Ane.setLink (ane : Ane) (i : ℕ) (link : Option ℕ) : Ane :=
  { ane with pdLink := Function.update ane.pdLink i link }

/-- The loop of `ane_t6021_attach_genpd`, with the number of rounds left. -/
def attachLoop (domains : Domains) : ℕ → Run → Run × ℤ
  | 0, run => (run, 0)
  | left + 1, run =>
    let slot := run.ane.pdCount
    let domain := domains.attachById slot
    let ane := run.ane.setDev slot domain
    match domain with
    | .error errno => (detachGenpd { run with ane }, -(errno : ℤ))
    | domain =>
      let events := run.events ++ if domain.isErrOrNull then [] else [.attach domain]
      let ane := ane.setLink slot (domains.linkAdd slot)
      match domains.linkAdd slot with
      | none => (detachGenpd { ane, events := events ++ [.detach domain] }, -einval)
      | some link =>
        attachLoop domains left { ane := { ane with pdCount := slot + 1 }, events := events ++ [.linkAdd link] }

/-- `ane_t6021_attach_genpd`. -/
def attachGenpd (domains : Domains) (run : Run) : Run × ℤ :=
  if domains.count < 1 then (run, if domains.count < 0 then domains.count else -einval)
  else if domains.count = 1 then (run, if domains.pmDomain then 0 else -eprobeDefer)
  else if domains.devTable = false ∨ domains.linkTable = false then (run, -enomem)
  else attachLoop domains domains.count.toNat
    { run with ane := { pdDev := fun _ => .null, pdLink := fun _ => none, pdCount := 0 } }

/-- What the stages of the probe behind the power domains meet: the module parameters, the interrupt, the register
windows and their mappings, the words the power gate reads, and the results of the transport and of the interrupt
request. -/
structure Platform where
  allowUnqualified : Bool
  rtkitTransport : Bool
  allocated : Bool
  domains : Domains
  irq : ℤ
  resource : ℕ → Bool
  ioremap : ℕ → Bool
  rtkitInit : ℤ
  cpuWord : BitVec 32
  islandWords : List (BitVec 32)
  requestIrq : ℤ

/-- The labels of the probe. -/
inductive Label
  | shutdown
  | detachGenpd
deriving DecidableEq

/-- `ANE_T6021_REG_COUNT`. -/
def regCount : ℕ := 3

/-- The loop over the register windows. -/
def mapWindows (platform : Platform) : List ℕ → Except (Label × ℤ) Unit
  | [] => .ok ()
  | i :: rest =>
    if platform.resource i = false then .error (.detachGenpd, -einval)
    else if platform.ioremap i = false then .error (.detachGenpd, -enomem)
    else mapWindows platform rest

/-- A power word is on and not busy. -/
def isOn (word : BitVec 32) : Bool := word.extractLsb' 4 4 == 0xf#4 && !word.getLsbD 11

/-- `ane_t6021_first_resume`. -/
def firstResume (platform : Platform) : ℤ :=
  if isOn platform.cpuWord = false ∨ platform.cpuWord.getLsbD 28 = true then -eio
  else if platform.islandWords.all isOn then 0 else -eio

/-- The stages of `ane_t6021_probe` behind the power domains; a failure names its label and its code. -/
def bringUp (platform : Platform) : Except (Label × ℤ) Unit :=
  if platform.irq < 0 then .error (.detachGenpd, platform.irq)
  else match mapWindows platform (List.range regCount) with
    | .error failure => .error failure
    | .ok () =>
      if platform.rtkitInit < 0 then .error (.detachGenpd, platform.rtkitInit)
      else if firstResume platform ≠ 0 then .error (.shutdown, firstResume platform)
      else if platform.rtkitTransport = true ∧ platform.requestIrq < 0 then .error (.shutdown, platform.requestIrq)
      else .ok ()

/-- `ane_t6021_probe`. -/
def probe (platform : Platform) : Run × ℤ :=
  if platform.allowUnqualified = false then (.fresh, -enodev)
  else if platform.allocated = false then (.fresh, -enomem)
  else
    let (run, err) := attachGenpd platform.domains .fresh
    if err < 0 then (run, err)
    else match bringUp platform with
      | .ok () => (run, 0)
      -- The transport's rings go before the power domains; shutting them down takes and releases no domain.
      | .error (.shutdown, err) => (detachGenpd run, err)
      | .error (.detachGenpd, err) => (detachGenpd run, err)

/-- `ane_t6021_remove`, as far as power domains go. -/
def remove (run : Run) : Run := detachGenpd run

/-! ## Everything is released once -/

/-- The domains that were attached. -/
def attached (events : List Event) : List Pointer :=
  events.filterMap fun | .attach domain => some domain | _ => none

/-- The domains that were detached. -/
def detached (events : List Event) : List Pointer :=
  events.filterMap fun | .detach domain => some domain | _ => none

/-- The links that were created. -/
def created (events : List Event) : List ℕ :=
  events.filterMap fun | .linkAdd link => some link | _ => none

/-- The links that were deleted. -/
def deleted (events : List Event) : List ℕ :=
  events.filterMap fun | .linkDel link => some link | _ => none

/-- A run took some domains and links and then released each of them once, the last one first. -/
def Unwound (events : List Event) : Prop :=
  ∃ taken released, events = taken ++ released ∧
    (detached taken = [] ∧ deleted taken = []) ∧ (attached released = [] ∧ created released = []) ∧
    detached released = (attached taken).reverse ∧ deleted released = (created taken).reverse

/-- The calls that take what a slot holds. -/
def acquisitions (slot : Pointer × Option ℕ) : List Event :=
  (if slot.1.isErrOrNull then [] else [.attach slot.1]) ++ slot.2.toList.map .linkAdd

/-- The first slots after their rounds. -/
def slotsOf (domains : Domains) (k : ℕ) : List (Pointer × Option ℕ) :=
  (List.range k).map fun i => (domains.attachById i, domains.linkAdd i)

/-- Everything taken is released, and another detach makes no call. -/
def Released (run : Run) : Prop := Unwound run.events ∧ (detachGenpd run).events = run.events

variable {domains : Domains} {run : Run} {slots : List (Pointer × Option ℕ)} {k left : ℕ}

/-- A slot's releases undo its acquisitions, last first. -/
theorem releases_of_slot (slot : Pointer × Option ℕ) :
    detached (releases slot) = (attached (acquisitions slot)).reverse ∧
      deleted (releases slot) = (created (acquisitions slot)).reverse ∧
      (detached (acquisitions slot) = [] ∧ deleted (acquisitions slot) = []) ∧
      attached (releases slot) = [] ∧ created (releases slot) = [] := by
  rcases slot with ⟨_ | _ | _, _ | _⟩ <;> exact ⟨rfl, rfl, ⟨rfl, rfl⟩, rfl, rfl⟩

/-- The same over all slots. -/
theorem filterMap_flatMap_reverse {α : Type} {f g : Event → Option α}
    (h : ∀ slot, (releases slot).filterMap f = ((acquisitions slot).filterMap g).reverse) :
    (slots.reverse.flatMap releases).filterMap f = ((slots.flatMap acquisitions).filterMap g).reverse := by
  rw [List.filterMap_flatMap, List.filterMap_flatMap, List.reverse_flatMap]
  exact congrArg (slots.reverse.flatMap ·) (funext h)

theorem filterMap_flatMap_eq_nil {α : Type} {f : Event → Option α} {calls : Pointer × Option ℕ → List Event}
    (h : ∀ slot, (calls slot).filterMap f = []) : (slots.flatMap calls).filterMap f = [] := by
  rw [List.filterMap_flatMap]
  exact List.flatMap_eq_nil_iff.mpr fun slot _ => h slot

/-- Slots that are taken in order and released in the opposite order. -/
theorem unwound_slots (slots : List (Pointer × Option ℕ)) :
    Unwound (slots.flatMap acquisitions ++ slots.reverse.flatMap releases) :=
  ⟨_, _, rfl,
    ⟨filterMap_flatMap_eq_nil fun slot => (releases_of_slot slot).2.2.1.1,
      filterMap_flatMap_eq_nil fun slot => (releases_of_slot slot).2.2.1.2⟩,
    ⟨filterMap_flatMap_eq_nil fun slot => (releases_of_slot slot).2.2.2.1,
      filterMap_flatMap_eq_nil fun slot => (releases_of_slot slot).2.2.2.2⟩,
    filterMap_flatMap_reverse fun slot => (releases_of_slot slot).1,
    filterMap_flatMap_reverse fun slot => (releases_of_slot slot).2.1⟩

/-- Some number of slots is counted, and the arrays hold what the calls for them returned. -/
structure Counts (domains : Domains) (run : Run) (k : ℕ) : Prop where
  count : run.ane.pdCount = k
  dev : ∀ i < k, run.ane.pdDev i = domains.attachById i
  link : ∀ i < k, run.ane.pdLink i = domains.linkAdd i

/-- What holds at the head of the loop: the slots so far have a domain and a link each, and nothing else was done. -/
structure Holds (domains : Domains) (run : Run) (k : ℕ) : Prop extends Counts domains run k where
  taken : ∀ i < k, (∃ id, domains.attachById i = .device id) ∧ ∃ link, domains.linkAdd i = some link
  events : run.events = (slotsOf domains k).flatMap acquisitions

theorem slotsOf_succ : slotsOf domains (k + 1) = slotsOf domains k ++ [(domains.attachById k, domains.linkAdd k)] := by
  rw [slotsOf, List.range_succ, List.map_append]
  rfl

/-- Detaching releases every slot, last first. -/
theorem detachSlots_eq (hdev : ∀ i < k, run.ane.pdDev i = domains.attachById i)
    (hlink : ∀ i < k, run.ane.pdLink i = domains.linkAdd i) :
    detachSlots k run = { run with events := run.events ++ (slotsOf domains k).reverse.flatMap releases } := by
  induction k generalizing run with
  | zero => exact congrArg (Run.mk run.ane) (List.append_nil _).symm
  | succ k ih =>
    rw [detachSlots, hdev k k.lt_succ_self, hlink k k.lt_succ_self, slotsOf_succ, List.reverse_append,
      List.reverse_singleton, List.singleton_append, List.flatMap_cons, ← List.append_assoc]
    exact @ih { run with events := _ } (fun i hi => hdev i (by omega)) fun i hi => hlink i (by omega)

/-- The counted slots are released from the last one on. -/
theorem Counts.detach (h : Counts domains run k) :
    (detachGenpd run).events = run.events ++ (slotsOf domains k).reverse.flatMap releases := by
  rw [detachGenpd, h.count, detachSlots_eq h.dev h.link]

theorem events_detachGenpd_of_zero (h : run.ane.pdCount = 0) : (detachGenpd run).events = run.events := by
  rw [detachGenpd, h, detachSlots]

/-- After a detach that released everything another one does nothing. -/
theorem released_detachGenpd (h : Unwound (detachGenpd run).events) : Released (detachGenpd run) :=
  ⟨h, events_detachGenpd_of_zero rfl⟩

/-- Detaching releases all that is held. -/
theorem Holds.released (h : Holds domains run k) : Released (detachGenpd run) := by
  refine released_detachGenpd ?_
  rw [h.detach, h.events]
  exact unwound_slots _

/-! ## The loop -/

section Rounds

variable {id link : ℕ} {errno : ℕ+}

section Tables

variable {α : Type} {table results : ℕ → α} {value : α} {i : ℕ}

theorem update_of_lt (h : ∀ i < k, table i = results i) (hi : i < k) : Function.update table k value i = results i :=
  (Function.update_of_ne (by omega) _ _).trans (h i hi)

/-- A table that holds some results and gets the next one. -/
theorem update_of_lt_succ (h : ∀ i < k, table i = results i) (hvalue : results k = value) (hi : i < k + 1) :
    Function.update table k value i = results i := by
  obtain hi | rfl := Nat.lt_succ_iff_lt_or_eq.mp hi
  · exact update_of_lt h hi
  · exact (Function.update_self _ _ _).trans hvalue.symm

end Tables

theorem Counts.setDev (h : Counts domains run k) (domain : Pointer) (link : Option ℕ) (events : List Event) :
    Counts domains { ane := (run.ane.setDev k domain).setLink k link, events } k :=
  ⟨h.count, fun _ hi => update_of_lt h.dev hi, fun _ hi => update_of_lt h.link hi⟩

/-- A domain that cannot be attached: its slot is written but not counted. -/
theorem attachLoop_of_error (h : Holds domains run k) (hdomain : domains.attachById k = .error errno) :
    (attachLoop domains (left + 1) run).2 < 0 ∧ Released (attachLoop domains (left + 1) run).1 := by
  have hround : attachLoop domains (left + 1) run =
      (detachGenpd { run with ane := run.ane.setDev k (.error errno) }, -(errno : ℤ)) := by
    rw [attachLoop, h.count]
    simp only [hdomain]
  have hkept : Counts domains { run with ane := run.ane.setDev k (.error errno) } k :=
    ⟨h.count, fun _ hi => update_of_lt h.dev hi, h.link⟩
  rw [hround]
  refine ⟨?_, released_detachGenpd ?_⟩
  · have := errno.pos
    change -((errno : ℕ) : ℤ) < 0
    omega
  · rw [hkept.detach]
    exact h.events ▸ unwound_slots _

/-- A domain without a link: it is detached at once, and its slot is not counted. -/
theorem attachLoop_of_no_link (h : Holds domains run k) (hdomain : domains.attachById k = .device id)
    (hlink : domains.linkAdd k = none) :
    (attachLoop domains (left + 1) run).2 < 0 ∧ Released (attachLoop domains (left + 1) run).1 := by
  have hround : attachLoop domains (left + 1) run = (detachGenpd
      { ane := (run.ane.setDev k (.device id)).setLink k none,
        events := run.events ++ [.attach (.device id)] ++ [.detach (.device id)] }, -einval) := by
    rw [attachLoop, h.count]
    simp only [hdomain, hlink]
    rfl
  rw [hround]
  refine ⟨(by decide : -einval < 0), released_detachGenpd ?_⟩
  rw [(h.toCounts.setDev _ _ _).detach, h.events]
  have hslots := unwound_slots (slotsOf domains k ++ [(.device id, none)])
  rw [List.flatMap_append, List.flatMap_singleton, List.reverse_append, List.reverse_singleton, List.singleton_append,
    List.flatMap_cons, ← List.append_assoc] at hslots
  exact hslots

/-- A domain and its link: the slot is counted. -/
theorem attachLoop_of_link (h : Holds domains run k) (hdomain : domains.attachById k = .device id)
    (hlink : domains.linkAdd k = some link) :
    ∃ next, attachLoop domains (left + 1) run = attachLoop domains left next ∧ Holds domains next (k + 1) := by
  let next : Run := { ane := { (run.ane.setDev k (.device id)).setLink k (some link) with pdCount := k + 1 },
                      events := run.events ++ [.attach (.device id)] ++ [.linkAdd link] }
  have hcounts : Counts domains next (k + 1) :=
    ⟨rfl, fun _ hi => update_of_lt_succ h.dev hdomain hi, fun _ hi => update_of_lt_succ h.link hlink hi⟩
  refine ⟨next, ?_, ⟨hcounts, fun i hi => ?_, ?_⟩⟩
  · rw [attachLoop, h.count]
    simp only [hdomain, hlink]
    rfl
  · obtain hi | rfl := Nat.lt_succ_iff_lt_or_eq.mp hi
    · exact h.taken i hi
    · exact ⟨⟨id, hdomain⟩, link, hlink⟩
  · simp only [next]
    rw [h.events, slotsOf_succ, List.flatMap_append, hdomain, hlink, List.append_assoc]
    rfl

end Rounds

/-- The loop either takes all remaining slots or fails and has released everything. -/
theorem attachLoop_spec (hnull : ∀ i, domains.attachById i ≠ .null) (h : Holds domains run k) :
    (attachLoop domains left run).2 = 0 ∧ Holds domains (attachLoop domains left run).1 (k + left) ∨
      (attachLoop domains left run).2 < 0 ∧ Released (attachLoop domains left run).1 := by
  induction left generalizing run k with
  | zero => exact .inl ⟨rfl, h⟩
  | succ left ih =>
    match hdomain : domains.attachById k, hlink : domains.linkAdd k with
    | .null, _ => exact absurd hdomain (hnull k)
    | .error _, _ => exact .inr (attachLoop_of_error h hdomain)
    | .device _, none => exact .inr (attachLoop_of_no_link h hdomain hlink)
    | .device _, some _ =>
      obtain ⟨next, hround, hnext⟩ := attachLoop_of_link h hdomain hlink
      rw [hround, ← Nat.succ_add_eq_add_succ]
      exact ih hnext

/-! ## The whole driver -/

theorem holds_zero (run : Run) (h : run.events = []) (hcount : run.ane.pdCount = 0) : Holds domains run 0 :=
  ⟨⟨hcount, fun _ hi => absurd hi (Nat.not_lt_zero _), fun _ hi => absurd hi (Nat.not_lt_zero _)⟩,
    fun _ hi => absurd hi (Nat.not_lt_zero _), h⟩

/-- At the head of the loop the slots' domains are the attached ones, and their links the created ones. -/
theorem Holds.attached_eq (h : Holds domains run k) :
    attached run.events = (List.range k).map domains.attachById ∧
      (created run.events).map some = (List.range k).map domains.linkAdd := by
  rw [h.events, attached, created, List.filterMap_flatMap, List.filterMap_flatMap, slotsOf, List.flatMap_map,
    List.flatMap_map, List.map_flatMap, List.map_eq_flatMap, List.map_eq_flatMap]
  refine ⟨List.flatMap_congr fun i hi => ?_, List.flatMap_congr fun i hi => ?_⟩ <;>
  · obtain ⟨⟨id, hdomain⟩, link, hlink⟩ := h.taken i (List.mem_range.mp hi)
    rw [hdomain, hlink]
    rfl

/-- The slots that a success leaves: none if there is one domain, which the core attaches itself, else all. -/
def slotCount (domains : Domains) : ℕ := if domains.count = 1 then 0 else domains.count.toNat

/-- Attaching holds all slots, or fails with all released. -/
theorem attachGenpd_spec (hnull : ∀ i, domains.attachById i ≠ .null) :
    (attachGenpd domains .fresh).2 = 0 ∧ Holds domains (attachGenpd domains .fresh).1 (slotCount domains) ∨
      (attachGenpd domains .fresh).2 < 0 ∧ Released (attachGenpd domains .fresh).1 := by
  have hfresh : Released .fresh := ⟨⟨[], [], rfl, ⟨rfl, rfl⟩, ⟨rfl, rfl⟩, rfl, rfl⟩, rfl⟩
  unfold attachGenpd
  split_ifs with hnone hnegative hone hdomain htable
  · exact .inr ⟨hnegative, hfresh⟩
  · exact .inr ⟨(by decide : -einval < 0), hfresh⟩
  · refine .inl ⟨rfl, ?_⟩
    rw [slotCount, if_pos hone]
    exact holds_zero _ rfl rfl
  · exact .inr ⟨(by decide : -eprobeDefer < 0), hfresh⟩
  · exact .inr ⟨(by decide : -enomem < 0), hfresh⟩
  · have hzero := @holds_zero domains { ane := { pdDev := fun _ => .null, pdLink := fun _ => none, pdCount := 0 },
                                        events := [] } rfl rfl
    have hloop := @attachLoop_spec _ _ _ domains.count.toNat hnull hzero
    rw [Nat.zero_add] at hloop
    rwa [slotCount, if_neg hone]

/-- A window that fails gives a code other than zero. -/
theorem ne_zero_of_mapWindows {platform : Platform} {windows : List ℕ} {failure : Label × ℤ}
    (h : mapWindows platform windows = .error failure) : failure.2 ≠ 0 := by
  induction windows with
  | nil => cases h
  | cons i rest ih =>
    rw [mapWindows] at h
    split_ifs at h
    · cases h
      decide
    · cases h
      decide
    · exact ih h

/-- A stage that fails has a code. -/
theorem ne_zero_of_bringUp {platform : Platform} {failure : Label × ℤ} (h : bringUp platform = .error failure) :
    failure.2 ≠ 0 := by
  unfold bringUp at h
  split at h
  · next hirq =>
    cases h
    exact hirq.ne
  split at h
  · next hwindows =>
    cases h
    exact ne_zero_of_mapWindows hwindows
  split_ifs at h with hinit hresume hrequest
  · cases h
    exact hinit.ne
  · cases h
    exact hresume
  · cases h
    exact hrequest.2.ne

/-- If attaching fails, every attached domain was detached once and every created link deleted once, and a later detach
does nothing. If it succeeds, all slots have their domain and their link, and one detach releases them: the one of the
probe's labels, which every later failure reaches, or the one of the removal. -/
theorem powerDomains_released (platform : Platform) (hnull : ∀ i, platform.domains.attachById i ≠ .null) :
    ((attachGenpd platform.domains .fresh).2 ≠ 0 → Released (attachGenpd platform.domains .fresh).1) ∧
      ((attachGenpd platform.domains .fresh).2 = 0 →
        (attached (attachGenpd platform.domains .fresh).1.events =
            (List.range (slotCount platform.domains)).map platform.domains.attachById ∧
          (created (attachGenpd platform.domains .fresh).1.events).map some =
            (List.range (slotCount platform.domains)).map platform.domains.linkAdd) ∧
          Released (detachGenpd (attachGenpd platform.domains .fresh).1)) ∧
      ((probe platform).2 ≠ 0 → Released (probe platform).1) ∧
      ((probe platform).2 = 0 → Released (remove (probe platform).1)) := by
  have hfresh : Released .fresh := ⟨⟨[], [], rfl, ⟨rfl, rfl⟩, ⟨rfl, rfl⟩, rfl, rfl⟩, rfl⟩
  unfold probe
  obtain ⟨hzero, hholds⟩ | ⟨hnegative, hreleased⟩ := attachGenpd_spec hnull
  · refine ⟨fun herr => absurd hzero herr, fun _ => ⟨hholds.attached_eq, hholds.released⟩, ?_⟩
    split_ifs with hallowed hallocated
    · exact ⟨fun _ => hfresh, fun _ => hfresh⟩
    · exact ⟨fun _ => hfresh, fun _ => hfresh⟩
    simp only [hzero, lt_irrefl, if_false]
    match hstages : bringUp platform with
    | .ok () => exact ⟨fun herr => absurd rfl herr, fun _ => hholds.released⟩
    | .error (.shutdown, err) =>
      exact ⟨fun _ => hholds.released, fun herr => absurd herr (ne_zero_of_bringUp hstages)⟩
    | .error (.detachGenpd, err) =>
      exact ⟨fun _ => hholds.released, fun herr => absurd herr (ne_zero_of_bringUp hstages)⟩
  · refine ⟨fun _ => hreleased, fun herr => absurd herr hnegative.ne, ?_⟩
    split_ifs with hallowed hallocated
    · exact ⟨fun _ => hfresh, fun _ => hfresh⟩
    · exact ⟨fun _ => hfresh, fun _ => hfresh⟩
    simp only [hnegative, if_true]
    exact ⟨fun _ => hreleased, fun herr => absurd herr hnegative.ne⟩

/-- Three domains, whose third link cannot be created. -/
def threeDomains : Domains :=
  { count := 3, pmDomain := false, devTable := true, linkTable := true, attachById := fun i => .device i,
    linkAdd := fun i => if i < 2 then some i else none }

/-- The probe of a device with these domains. -/
def failingPlatform : Platform :=
  { allowUnqualified := true, rtkitTransport := false, allocated := true, domains := threeDomains, irq := 7,
    resource := fun _ => true, ioremap := fun _ => true, rtkitInit := 0, cpuWord := 0xf0#32,
    islandWords := List.replicate 8 0xf0#32, requestIrq := 0 }

/-- The third domain is detached at once, then the others in the opposite order. -/
theorem powerDomains_released_failing :
    (attachGenpd threeDomains .fresh).1.events = [.attach (.device 0), .linkAdd 0, .attach (.device 1), .linkAdd 1,
        .attach (.device 2), .detach (.device 2), .linkDel 1, .detach (.device 1), .linkDel 0, .detach (.device 0)] ∧
      Released (attachGenpd threeDomains .fresh).1 :=
  ⟨by decide, (powerDomains_released failingPlatform fun _ => by rintro ⟨⟩).1 (by decide)⟩

end AneLinux.Driver
