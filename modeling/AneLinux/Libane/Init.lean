import AneLinux.Support.Custody
import Mathlib.Algebra.BigOperators.Group.Finset.Piecewise

/-!
# Loading a network and freeing it

`__ane_init` reads the header and the content of a file, opens the device and allocates and maps a buffer for every
bank with tiles and one for the first task. Each of these calls may fail, and then everything that was taken before it
is given back. A copy that would leave its buffers, and a write to a name that was not allocated, end the process.
-/

namespace AneLinux.Libane.Init

open AneLinux.Support AneLinux.Support.Custody

/-- What the library takes: memory, open files, file descriptors, buffer handles and mappings. -/
inductive Resource
  | block (n : ℕ)
  | file (n : ℕ)
  | fd (n : ℕ)
  | handle (n : ℕ)
  | mapping (n : ℕ)
deriving DecidableEq

/-- The header fields that `__ane_init` reads. -/
structure Anec where
  size : ℕ
  tdSize : ℕ
  tiles : ℕ → ℕ

/-- What the process runs on: the calls that succeed, the allocations of a driver name that do, and the driver names of
the nodes. -/
structure System where
  succeeds : ℕ → Bool
  named : ℕ → Bool
  driver : ℕ → String

/-- `struct ane_bo`; a handle is never zero. -/
structure Bo where
  map : Option ℕ
  size : ℕ
  handle : Option ℕ

/-- `struct ane_nn`, with the number of its own allocation. -/
structure Nn where
  self : ℕ
  fd : ℕ
  data : ℕ
  anec : Anec
  chans : ℕ → Bo
  btspChan : Bo

/-- How a call ends: it returns a value or an error, or the process dies. -/
inductive Outcome (α : Type)
  | ok (a : α)
  | error
  | fault

/-- `TILE_COUNT`. -/
def tileCount : ℕ := 32

/-- `MAX_ANE_DEVICES`. -/
def maxAneDevices : ℤ := 2

/-- `MAX_NODE_COUNT`. -/
def maxNodeCount : ℕ := 64

/-- `tile_shift`. -/
def tileShift (x : ℕ) : ℕ := x <<< 14

/-- `tile_align`. -/
def tileAlign (x : ℕ) : ℕ := (x + 0x3FFF) / 0x4000 * 0x4000

/-- A zeroed `struct ane_bo`. -/
def Bo.zero : Bo := { map := none, size := 0, handle := none }

section Code

variable (system : System)

/-- `bo_init`: whether it succeeds, and the structure afterwards. -/
def boInit (bo : Bo) : Step Resource (Bool × Bo) := do
  match ← take system.succeeds .handle with
  | none => return (false, bo)
  | some n => return (true, { bo with handle := some n })

/-- `bo_free`. -/
def boFree (bo : Bo) : Step Resource Bo :=
  match bo.handle with
  | none => return bo
  | some n => do
    give (.handle n)
    return { bo with handle := none }

/-- `bo_mmap`. -/
def boMmap (bo : Bo) : Step Resource (Bool × Bo) := do
  match ← take system.succeeds .mapping with
  | none => return (false, { bo with map := none })
  | some n => return (true, { bo with map := some n })

/-- `bo_munmap`. -/
def boMunmap (bo : Bo) : Step Resource Bo :=
  match bo.map with
  | none => return bo
  | some n => do
    give (.mapping n)
    return { bo with map := none }

/-- `ane_bo_init`. -/
def aneBoInit (bo : Bo) : Step Resource (Bool × Bo) :=
  if bo.size = 0 then return (false, bo)
  else do
    let (opened, bo) ← boInit system bo
    if opened then
      let (mapped, bo) ← boMmap system bo
      if mapped then return (true, bo)
      else
        let bo ← boFree bo
        return (false, bo)
    else return (false, bo)

/-- `ane_bo_free`. -/
def aneBoFree (bo : Bo) : Step Resource Bo := do
  let bo ← boMunmap bo
  boFree bo

/-- The loop of `ane_chan_free` over the banks. -/
def freeBanks : List ℕ → (ℕ → Bo) → Step Resource (ℕ → Bo)
  | [], chans => return chans
  | bdx :: rest, chans => do
    let bo ← aneBoFree (chans bdx)
    freeBanks rest (Function.update chans bdx bo)

/-- `ane_chan_free`. -/
def aneChanFree (nn : Nn) : Step Resource Nn := do
  let btspChan ← aneBoFree nn.btspChan
  let chans ← freeBanks (List.range tileCount) nn.chans
  return { nn with btspChan, chans }

/-- The loop of `ane_chan_init` over the banks. -/
def initBanks (anec : Anec) : List ℕ → (ℕ → Bo) → Step Resource (Bool × (ℕ → Bo))
  | [], chans => return (true, chans)
  | bdx :: rest, chans =>
    if anec.tiles bdx ≠ 0 then do
      let (done, bo) ← aneBoInit system { chans bdx with size := tileShift (anec.tiles bdx) }
      let chans := Function.update chans bdx bo
      if done then initBanks anec rest chans else return (false, chans)
    else initBanks anec rest chans

/-- The copies of `set_btsp_and_command` stay inside the buffers. -/
def commandFits (nn : Nn) : Bool :=
  (nn.chans 0).map.isSome && nn.anec.size ≤ (nn.chans 0).size && nn.anec.tdSize ≤ nn.anec.size &&
    nn.anec.tdSize ≤ nn.btspChan.size

/-- `ane_chan_init`. -/
def aneChanInit (nn : Nn) : Step Resource (Outcome Nn) := do
  let (done, chans) ← initBanks system nn.anec (List.range tileCount) nn.chans
  if done then
    let (done, btspChan) ← aneBoInit system { nn.btspChan with size := tileAlign nn.anec.tdSize }
    let nn := { nn with chans, btspChan }
    if done then return if commandFits nn then .ok nn else .fault
    else
      let _ ← aneChanFree nn
      return .error
  else
    let _ ← aneChanFree { nn with chans }
    return .error

/-- `ane_fread` and `ane_pread`, whose short reads count as reads. -/
def readFile (seeks : Bool) : Step Resource Bool := do
  match ← take system.succeeds .file with
  | none => return false
  | some n =>
    let sought ← if seeks then ask system.succeeds else pure true
    give (.file n)
    return sought

/-- `is_ane_device`: whether the node is the device, unless the process dies at the end of a name that was not
allocated. -/
def isAneDevice (node : ℕ) : Step Resource (Outcome Unit) := do
  if ← ask system.succeeds then
    if system.driver node = "" then return .error
    else
      let name ← take system.named .block
      let answered ← ask system.succeeds
      match name with
      | none => return if answered then .fault else .error
      | some n =>
        give (.block n)
        return if answered && system.driver node = "ane" then .ok () else .error
  else return .error

/-- `open_fd`. -/
def openFd (node : ℕ) : Step Resource (Outcome ℕ) := do
  match ← take system.succeeds .fd with
  | none => return .error
  | some fd =>
    match ← isAneDevice system node with
    | .ok () => return .ok fd
    | .error =>
      give (.fd fd)
      return .error
    | .fault => return .fault

/-- The loop of `device_open` over the nodes. -/
def searchNodes (devId : ℤ) : List ℕ → ℤ → Step Resource (Outcome ℕ)
  | [], _ => return .error
  | node :: rest, found => do
    match ← openFd system node with
    | .error => searchNodes devId rest found
    | .fault => return .fault
    | .ok fd =>
      if devId = found then return .ok fd
      else
        give (.fd fd)
        searchNodes devId rest (found + 1)

/-- `device_open`. -/
def deviceOpen (devId : ℤ) : Step Resource (Outcome ℕ) :=
  if devId < 0 ∨ maxAneDevices ≤ devId then return .error
  else searchNodes system devId (List.range maxNodeCount) 0

/-- `ane_model_init`: the allocation of the content. -/
def aneModelInit (anec : Anec) : Step Resource (Option ℕ) := do
  if ← readFile system false then
    if anec.size = 0 then return none
    else
      match ← take system.succeeds .block with
      | none => return none
      | some data =>
        if ← readFile system true then return some data
        else
          give (.block data)
          return none
  else return none

/-- `__ane_init`; `anec` is the header of the file. -/
def init (anec : Anec) (devId : ℤ) : Step Resource (Outcome Nn) := do
  match ← take system.succeeds .block with
  | none => return .error
  | some self =>
    match ← aneModelInit system anec with
    | none =>
      give (.block self)
      return .error
    | some data =>
      match ← deviceOpen system devId with
      | .fault => return .fault
      | .error =>
        give (.block data)
        give (.block self)
        return .error
      | .ok fd =>
        match ← aneChanInit system { self, fd, data, anec, chans := fun _ => .zero, btspChan := .zero } with
        | .fault => return .fault
        | .error =>
          give (.fd fd)
          give (.block data)
          give (.block self)
          return .error
        | .ok nn => return .ok nn

/-- `__ane_free`. -/
def free (nn : Nn) : Step Resource Unit := do
  let nn ← aneChanFree nn
  give (.fd nn.fd)
  give (.block nn.data)
  give (.block nn.self)

/-- What a program asks of the library. -/
inductive Request
  | load (anec : Anec) (devId : ℤ)
  | unload (i : ℕ)

/-- A program that loads networks and frees those that it has. -/
def session : List Request → List Nn → Step Resource (Outcome (List Nn))
  | [], live => return .ok live
  | .load anec devId :: rest, live => do
    match ← init system anec devId with
    | .ok nn => session rest (nn :: live)
    | .error => session rest live
    | .fault => return .fault
  | .unload i :: rest, live =>
    match live[i]? with
    | none => session rest live
    | some nn => do
      free nn
      session rest (live.eraseIdx i)

end Code

/-! ## Buffers -/

/-- What a buffer holds. -/
def Bo.owned (bo : Bo) : Multiset Resource :=
  bo.handle.elim 0 (fun n => ({Resource.handle n} : Multiset Resource)) + bo.map.elim 0 fun n => {Resource.mapping n}

variable {system : System} {nn : Nn}

section Buffers

variable {bo : Bo}

/-- A buffer that holds nothing. -/
theorem owned_eq_zero (hhandle : bo.handle = none) (hmap : bo.map = none) : bo.owned = 0 := by
  rw [Bo.owned, hhandle, hmap]
  rfl

/-- Freeing an unmapped buffer leaves nothing of it. -/
theorem settles_boFree (hmap : bo.map = none) : Settles bo.owned (boFree bo) fun _ => 0 := by
  rw [boFree]
  cases hhandle : bo.handle with
  | none => exact settles_pure (owned_eq_zero hhandle hmap).symm
  | some n =>
    refine Settles.congr ((settles_give (Resource.handle n)).bind fun _ => settles_pure rfl) ?_
    rw [Bo.owned, hhandle, hmap]
    exact add_zero _

/-- `ane_bo_free` leaves nothing of the buffer. -/
theorem settles_aneBoFree (bo : Bo) : Settles bo.owned (aneBoFree bo) fun _ => 0 := by
  cases hmap : bo.map with
  | none =>
    have hunmapped : aneBoFree bo = boFree bo := by
      rw [aneBoFree, boMunmap, hmap]
      rfl
    rw [hunmapped]
    exact settles_boFree hmap
  | some n =>
    have hunmapped : aneBoFree bo = give (.mapping n) >>= fun _ => boFree { bo with map := none } := by
      rw [aneBoFree, boMunmap, hmap]
      rfl
    have hfree : Settles ({ bo with map := none } : Bo).owned (boFree { bo with map := none }) fun _ => 0 :=
      settles_boFree rfl
    rw [hunmapped]
    refine ((settles_give (Resource.mapping n)).bind_frame ({ bo with map := none } : Bo).owned fun _ =>
      hfree.congr (zero_add _)).congr ?_
    rw [Bo.owned, Bo.owned, hmap]
    exact (add_comm _ _).trans (congrArg _ (add_zero _).symm)

/-- An initialization of a buffer of some size. -/
theorem aneBoInit_of_size (hsize : bo.size ≠ 0) :
    aneBoInit system bo = do
      match ← take system.succeeds .handle with
      | none => return (false, bo)
      | some n =>
        match ← take system.succeeds .mapping with
        | none =>
          give (.handle n)
          return (false, { bo with map := none, handle := none })
        | some m => return (true, { bo with map := some m, handle := some n }) := by
  rw [aneBoInit, if_neg hsize, boInit, bind_assoc]
  refine bind_congr fun opened => ?_
  cases opened with
  | none => rfl
  | some n =>
    simp only [pure_bind, if_true, boMmap, bind_assoc]
    refine bind_congr fun mapped => ?_
    cases mapped with
    | none => rfl
    | some m => rfl

/-- An initialization of a fresh buffer; when it fails, it leaves nothing behind. -/
theorem settles_aneBoInit (hhandle : bo.handle = none) (hmap : bo.map = none) :
    Settles 0 (aneBoInit system bo) fun r => r.2.owned := by
  have hfresh : bo.owned = 0 := owned_eq_zero hhandle hmap
  by_cases hsize : bo.size = 0
  · rw [aneBoInit, if_pos hsize]
    exact settles_pure hfresh
  · rw [aneBoInit_of_size hsize]
    refine (settles_take _ _).bind fun opened => ?_
    cases opened with
    | none => exact settles_pure hfresh
    | some n =>
      refine ((settles_take _ _).bind_frame {Resource.handle n} fun mapped => ?_).congr (zero_add _).symm
      cases mapped with
      | none =>
        refine ((settles_give (Resource.handle n)).bind fun _ => ?_).congr (zero_add _)
        exact settles_pure rfl
      | some m =>
        exact settles_pure (add_comm _ _)

/-- A buffer that is allocated and mapped. -/
def Bo.Opened (bo : Bo) (size : ℕ) : Prop := bo.handle.isSome ∧ bo.map.isSome ∧ bo.size = size

/-- On success the buffer is open at its size. -/
theorem returns_aneBoInit : Returns (aneBoInit system bo) fun r => r.1 = true → r.2.Opened bo.size := by
  by_cases hsize : bo.size = 0
  · rw [aneBoInit, if_pos hsize]
    exact returns_pure (by simp)
  · rw [aneBoInit_of_size hsize]
    refine returns_bind fun opened => ?_
    cases opened with
    | none => exact returns_pure (by simp)
    | some n =>
      refine returns_bind fun mapped => ?_
      cases mapped with
      | none => exact returns_bind fun _ => returns_pure (by simp)
      | some m => exact returns_pure fun _ => ⟨rfl, rfl, rfl⟩

end Buffers

/-! ## Channels -/

/-- What the banks hold. -/
def banksOwned (chans : ℕ → Bo) : Multiset Resource := ∑ bdx ∈ Finset.range tileCount, (chans bdx).owned

/-- What the channels of a network hold. -/
def Nn.channels (nn : Nn) : Multiset Resource := nn.btspChan.owned + banksOwned nn.chans

/-- What a network holds. -/
def Nn.owned (nn : Nn) : Multiset Resource :=
  {Resource.block nn.self} + ({Resource.block nn.data} + ({Resource.fd nn.fd} + nn.channels))

section Channels

variable {anec : Anec} {chans : ℕ → Bo} {bdx : ℕ}

/-- One bank beside the others. -/
theorem banksOwned_update (hbdx : bdx < tileCount) (bo : Bo) :
    banksOwned (Function.update chans bdx bo) =
      bo.owned + ∑ other ∈ Finset.range tileCount \ {bdx}, (chans other).owned := by
  have hcomp : ∀ other, (Function.update chans bdx bo other).owned =
      Function.update (fun b => (chans b).owned) bdx bo.owned other := fun other =>
    Function.apply_update (fun _ => Bo.owned) chans bdx bo other
  rw [banksOwned, Finset.sum_congr rfl fun other _ => hcomp other,
    Finset.sum_update_of_mem (Finset.mem_range.mpr hbdx)]

/-- One bank's share, apart from the others. -/
theorem banksOwned_eq (hbdx : bdx < tileCount) :
    banksOwned chans = (chans bdx).owned + ∑ other ∈ Finset.range tileCount \ {bdx}, (chans other).owned := by
  rw [← banksOwned_update hbdx, Function.update_eq_self]

/-- The banks are allocated one after the other, beside those that are. -/
theorem settles_initBanks (banks : List ℕ) (hbanks : ∀ bdx ∈ banks, bdx < tileCount) (hnodup : banks.Nodup)
    (chans : ℕ → Bo) (hfresh : ∀ bdx ∈ banks, chans bdx = .zero) :
    Settles (banksOwned chans) (initBanks system anec banks chans) fun r => banksOwned r.2 := by
  induction banks generalizing chans with
  | nil => exact settles_pure rfl
  | cons bdx rest ih =>
    obtain ⟨hnotin, hnodup⟩ := List.nodup_cons.mp hnodup
    obtain ⟨hbdx, hbanks⟩ := List.forall_mem_cons.mp hbanks
    obtain ⟨hzero, hfresh⟩ := List.forall_mem_cons.mp hfresh
    rw [initBanks]
    split
    · have hinit : Settles 0 (aneBoInit system { chans bdx with size := tileShift (anec.tiles bdx) })
          fun r => r.2.owned := settles_aneBoInit (by rw [hzero]; rfl) (by rw [hzero]; rfl)
      have hothers : banksOwned chans =
          0 + ∑ other ∈ Finset.range tileCount \ {bdx}, (chans other).owned := by
        rw [banksOwned_eq hbdx, owned_eq_zero (by rw [hzero]; rfl) (by rw [hzero]; rfl)]
      refine (hinit.bind_frame _ fun ⟨done, bo⟩ => ?_).congr hothers
      rw [← banksOwned_update hbdx]
      cases done with
      | false => exact settles_pure rfl
      | true =>
        refine ih hbanks hnodup _ fun other hother => ?_
        rw [Function.update_of_ne (ne_of_mem_of_not_mem hother hnotin)]
        exact hfresh other hother
    · exact ih hbanks hnodup chans hfresh

/-- A bank with tiles is allocated and mapped, and no other. -/
def Opened (anec : Anec) (banks : List ℕ) (chans : ℕ → Bo) : Prop :=
  ∀ bdx ∈ banks, if anec.tiles bdx = 0 then chans bdx = .zero else (chans bdx).Opened (tileShift (anec.tiles bdx))

/-- On success exactly the asked banks are open. -/
theorem returns_initBanks (banks : List ℕ) (hnodup : banks.Nodup) (chans : ℕ → Bo)
    (hfresh : ∀ bdx ∈ banks, chans bdx = .zero) :
    Returns (initBanks system anec banks chans) fun r =>
      r.1 = true → Opened anec banks r.2 ∧ ∀ bdx, bdx ∉ banks → r.2 bdx = chans bdx := by
  induction banks generalizing chans with
  | nil => exact returns_pure fun _ => ⟨fun _ h => absurd h List.not_mem_nil, fun _ _ => rfl⟩
  | cons bdx rest ih =>
    obtain ⟨hnotin, hnodup⟩ := List.nodup_cons.mp hnodup
    obtain ⟨hzero, hfresh⟩ := List.forall_mem_cons.mp hfresh
    rw [initBanks]
    split
    case isTrue htiles =>
      refine returns_aneBoInit.bind fun ⟨done, bo⟩ hbo => ?_
      cases done with
      | false => exact returns_pure (by simp)
      | true =>
        have hrest := ih hnodup (Function.update chans bdx bo) fun other hother => by
          rw [Function.update_of_ne (ne_of_mem_of_not_mem hother hnotin)]
          exact hfresh other hother
        refine fun w hw => ⟨List.forall_mem_cons.mpr ⟨?_, (hrest w hw).1⟩, fun other hother => ?_⟩
        · have hkept := ((hrest w hw).2 bdx hnotin).trans (Function.update_self bdx bo chans)
          rw [if_neg htiles]
          exact (congrArg (fun b => b.Opened (tileShift (anec.tiles bdx))) hkept).mpr (hbo rfl)
        · obtain ⟨hne, hother⟩ := not_or.mp fun h => hother (List.mem_cons.mpr h)
          exact ((hrest w hw).2 other hother).trans (Function.update_of_ne hne _ _)
    case isFalse htiles =>
      have hrest := ih hnodup chans hfresh
      refine fun w hw => ⟨List.forall_mem_cons.mpr ⟨?_, (hrest w hw).1⟩, fun other hother => ?_⟩
      · rw [if_pos (not_not.mp htiles), (hrest w hw).2 bdx hnotin, hzero]
      · exact (hrest w hw).2 other fun h => hother (List.mem_cons_of_mem _ h)

/-- Freeing the banks. -/
theorem settles_freeBanks (banks : List ℕ) (hnodup : banks.Nodup) (chans : ℕ → Bo) :
    Settles (banks.map fun bdx => (chans bdx).owned).sum (freeBanks banks chans) fun _ => 0 := by
  induction banks generalizing chans with
  | nil => exact settles_pure rfl
  | cons bdx rest ih =>
    obtain ⟨hnotin, hnodup⟩ := List.nodup_cons.mp hnodup
    rw [freeBanks, List.map_cons, List.sum_cons]
    refine (settles_aneBoFree _).bind_frame _ fun bo => (ih hnodup (Function.update chans bdx bo)).congr ?_
    rw [zero_add]
    refine congrArg List.sum (List.map_congr_left fun other hother => ?_)
    rw [Function.update_of_ne (ne_of_mem_of_not_mem hother hnotin)]

/-- What the banks own, as a sum over a list. -/
theorem banksOwned_eq_sum (chans : ℕ → Bo) :
    banksOwned chans = ((List.range tileCount).map fun bdx => (chans bdx).owned).sum := by
  rw [← List.sum_toFinset _ List.nodup_range, banksOwned]
  exact Finset.sum_congr (by ext; simp) fun _ _ => rfl

/-- Freeing the channels leaves nothing of them. -/
theorem settles_aneChanFree (nn : Nn) : Settles nn.channels (aneChanFree nn) fun _ => 0 := by
  have hbanks : Settles (banksOwned nn.chans) (freeBanks (List.range tileCount) nn.chans) fun _ => 0 := by
    rw [banksOwned_eq_sum]
    exact settles_freeBanks (List.range tileCount) List.nodup_range nn.chans
  refine (settles_aneBoFree nn.btspChan).bind_frame (banksOwned nn.chans) fun bo => Settles.congr ?_ (zero_add _)
  exact hbanks.bind fun chans => settles_pure rfl

/-- What an outcome leaves: a value holds its own, an error nothing, and after a fault there is no process. -/
def Outcome.left {α : Type} (owned : α → Multiset Resource) : Outcome α → Option (Multiset Resource)
  | .ok a => some (owned a)
  | .error => some 0
  | .fault => none

/-- A failed allocation of channels gives back what it took. -/
theorem survives_aneChanInit (hfresh : ∀ bdx, nn.chans bdx = .zero) (hbtsp : nn.btspChan = .zero) :
    Survives 0 (aneChanInit system nn) (Outcome.left Nn.channels) := by
  have hchans : banksOwned nn.chans = 0 := Finset.sum_eq_zero fun bdx _ => by
    rw [hfresh bdx]
    rfl
  have hbanks : Settles (banksOwned nn.chans) (initBanks system nn.anec (List.range tileCount) nn.chans)
      fun r => banksOwned r.2 :=
    settles_initBanks _ (fun _ => List.mem_range.mp) List.nodup_range nn.chans fun bdx _ => hfresh bdx
  have hbo : Settles 0 (aneBoInit system { nn.btspChan with size := tileAlign nn.anec.tdSize }) fun r => r.2.owned :=
    settles_aneBoInit (by rw [hbtsp]; rfl) (by rw [hbtsp]; rfl)
  rw [aneChanInit]
  refine (hbanks.bind_survives 0 fun ⟨done, chans⟩ => ?_).congr (by rw [hchans, zero_add])
  rw [add_zero]
  cases done with
  | false =>
    refine ((settles_aneChanFree { nn with chans }).bind_survives 0 fun _ => survives_pure ?_).congr ?_
    · exact fun held hheld => (Option.some.inj hheld).symm
    · rw [add_zero, Nn.channels, hbtsp]
      exact (zero_add _).symm
  | true =>
    refine (hbo.bind_survives (banksOwned chans) fun ⟨done, btspChan⟩ => ?_).congr (zero_add _).symm
    cases done with
    | false =>
      refine ((settles_aneChanFree { nn with chans, btspChan }).bind_survives 0 fun _ => survives_pure ?_).congr
        (add_zero _).symm
      exact fun held hheld => (Option.some.inj hheld).symm
    | true =>
      refine survives_pure fun held hheld => ?_
      split at hheld
      · exact (Option.some.inj hheld).symm
      · nomatch hheld

end Channels

/-! ## Files and devices -/

section Devices

/-- Reading a file ends with it closed. -/
theorem settles_readFile (seeks : Bool) : Settles 0 (readFile system seeks) fun _ => 0 := by
  rw [readFile]
  refine (settles_take _ _).bind fun opened => ?_
  cases opened with
  | none => exact settles_pure rfl
  | some n =>
    have hclose : ∀ sought : Bool, Settles {Resource.file n} (do give (Resource.file n); return sought) fun _ => 0 :=
      fun sought => (settles_give (Resource.file n)).bind fun _ => settles_pure rfl
    cases seeks with
    | false => exact hclose true
    | true =>
      refine ((settles_ask _).bind_frame {Resource.file n} fun sought => ?_).congr (zero_add _).symm
      exact (hclose sought).congr (zero_add _)

/-- The model's data is all that loading leaves. -/
theorem settles_aneModelInit (anec : Anec) :
    Settles 0 (aneModelInit system anec) fun r => r.elim 0 fun data => {Resource.block data} := by
  rw [aneModelInit]
  refine (settles_readFile false).bind fun header => ?_
  cases header with
  | false => exact settles_pure rfl
  | true =>
    rw [if_pos rfl]
    split
    · exact settles_pure rfl
    · refine (settles_take _ _).bind fun allocated => ?_
      cases allocated with
      | none => exact settles_pure rfl
      | some data =>
        refine ((settles_readFile true).bind_frame {Resource.block data} fun content => ?_).congr
          (zero_add _).symm
        rw [zero_add]
        cases content with
        | false => exact (settles_give (Resource.block data)).bind fun _ => settles_pure rfl
        | true => exact settles_pure rfl

theorem survives_isAneDevice (node : ℕ) : Survives 0 (isAneDevice system node) (Outcome.left fun _ => 0) := by
  rw [isAneDevice]
  refine ((settles_ask _).bind_survives 0 fun answered => ?_).congr (add_zero _).symm
  rw [add_zero]
  have herror : Survives 0 (pure .error : Step Resource (Outcome Unit)) (Outcome.left fun _ => 0) :=
    survives_pure fun held hheld => (Option.some.inj hheld).symm
  cases answered with
  | false => exact herror
  | true =>
    rw [if_pos rfl]
    split
    · exact herror
    · refine ((settles_take _ _).bind_survives 0 fun name => ?_).congr (add_zero _).symm
      rw [add_zero]
      refine ((settles_ask _).bind_survives _ fun answered => ?_).congr (zero_add _).symm
      rw [zero_add]
      cases name with
      | none =>
        refine survives_pure fun held hheld => ?_
        split at hheld
        · nomatch hheld
        · exact (Option.some.inj hheld).symm
      | some n =>
        refine ((settles_give (Resource.block n)).bind_survives 0 fun _ => survives_pure fun held hheld => ?_).congr
          (add_zero _).symm
        split at hheld <;> exact (Option.some.inj hheld).symm

/-- A descriptor is left only by an open that works. -/
theorem survives_openFd (node : ℕ) :
    Survives 0 (openFd system node) (Outcome.left fun fd => {Resource.fd fd}) := by
  rw [openFd]
  refine ((settles_take _ _).bind_survives 0 fun opened => ?_).congr (add_zero _).symm
  rw [add_zero]
  cases opened with
  | none => exact survives_pure fun held hheld => (Option.some.inj hheld).symm
  | some fd =>
    refine ((survives_isAneDevice node).bind (returns_any _) {Resource.fd fd} (fun found held _ hheld => ?_)
      fun found hfound w => ?_).congr (zero_add _).symm
    · cases found with
      | ok _ =>
        obtain rfl := Option.some.inj hheld
        exact survives_pure fun held hheld => (Option.some.inj hheld).symm.trans (zero_add _).symm
      | error =>
        obtain rfl := Option.some.inj hheld
        exact ((settles_give (Resource.fd fd)).bind_survives 0 fun _ =>
          survives_pure fun held hheld => (Option.some.inj hheld).symm).congr (add_comm _ _)
      | fault => nomatch hheld
    · cases found with
      | ok _ => nomatch hfound
      | error => nomatch hfound
      | fault => rfl

/-- A search leaves at most the descriptor it found. -/
theorem survives_searchNodes (devId : ℤ) (nodes : List ℕ) (found : ℤ) :
    Survives 0 (searchNodes system devId nodes found) (Outcome.left fun fd => {Resource.fd fd}) := by
  induction nodes generalizing found with
  | nil => exact survives_pure fun held hheld => (Option.some.inj hheld).symm
  | cons node rest ih =>
    rw [searchNodes]
    refine ((survives_openFd node).bind (returns_any _) 0 (fun opened held _ hheld => ?_)
      fun opened hopened w => ?_).congr (add_zero _).symm
    · rw [add_zero]
      cases opened with
      | error =>
        obtain rfl := Option.some.inj hheld
        exact ih found
      | fault => nomatch hheld
      | ok fd =>
        obtain rfl := Option.some.inj hheld
        dsimp only
        split
        · exact survives_pure fun held hheld => (Option.some.inj hheld).symm
        · exact ((settles_give (Resource.fd fd)).bind_survives 0 fun _ => ih (found + 1)).congr (add_zero _).symm
    · cases opened with
      | ok _ => nomatch hopened
      | error => nomatch hopened
      | fault => rfl

/-- Opening leaves at most its descriptor. -/
theorem survives_deviceOpen (devId : ℤ) :
    Survives 0 (deviceOpen system devId) (Outcome.left fun fd => {Resource.fd fd}) := by
  rw [deviceOpen]
  split
  · exact survives_pure fun held hheld => (Option.some.inj hheld).symm
  · exact survives_searchNodes devId _ 0

end Devices

/-! ## Networks -/

section Networks

/-- The header says how large the content is, and the content and the first task fit into the first bank. -/
def Anec.Fits (anec : Anec) : Prop :=
  anec.tiles 0 ≠ 0 ∧ anec.size ≤ tileShift (anec.tiles 0) ∧ anec.tdSize ≤ anec.size

/-- A network whose banks with tiles are allocated and mapped, and whose content is in place. -/
structure Nn.Ready (nn : Nn) : Prop where
  fits : nn.anec.Fits
  banks : Opened nn.anec (List.range tileCount) nn.chans
  btsp : nn.btspChan.Opened (tileAlign nn.anec.tdSize)

/-- Aligning never shrinks. -/
theorem le_tileAlign (x : ℕ) : x ≤ tileAlign x := by
  rw [tileAlign]
  omega

/-- Whether the copies stay inside the buffers is a matter of the header. -/
theorem commandFits_iff {nn : Nn} (hbanks : Opened nn.anec (List.range tileCount) nn.chans)
    (hbtsp : nn.btspChan.Opened (tileAlign nn.anec.tdSize)) : commandFits nn = true ↔ nn.anec.Fits := by
  have hzero := hbanks 0 (List.mem_range.mpr (by decide))
  split at hzero
  case isTrue htiles => simp [commandFits, Anec.Fits, hzero, htiles, Bo.zero]
  case isFalse htiles =>
    obtain ⟨-, hmap, hsize⟩ := hzero
    have hle := le_tileAlign nn.anec.tdSize
    simp [commandFits, Anec.Fits, hmap, hsize, hbtsp.2.2, htiles, hle]

/-- What a network holds, in the order in which it is freed. -/
theorem Nn.owned_eq (nn : Nn) :
    nn.owned = nn.channels + ({Resource.fd nn.fd} + ({Resource.block nn.data} + {Resource.block nn.self})) := by
  rw [Nn.owned]
  ac_rfl

/-- Freeing the channels leaves the other fields alone. -/
theorem returns_aneChanFree (nn : Nn) :
    Returns (aneChanFree nn) fun freed => freed.self = nn.self ∧ freed.fd = nn.fd ∧ freed.data = nn.data := by
  rw [aneChanFree]
  exact returns_bind fun _ => returns_bind fun _ => returns_pure ⟨rfl, rfl, rfl⟩

/-- A network that is freed gives back all that it holds. -/
theorem settles_free (nn : Nn) : Settles nn.owned (free nn) fun _ => 0 := by
  rw [nn.owned_eq, free]
  refine ((settles_aneChanFree nn).frame _).bind_returns (returns_aneChanFree nn) fun freed hfreed => ?_
  obtain ⟨hself, hfd, hdata⟩ := hfreed
  rw [zero_add, hself, hfd, hdata]
  refine (settles_give (Resource.fd nn.fd)).bind_frame _ fun _ => ?_
  rw [zero_add]
  refine (settles_give (Resource.block nn.data)).bind_frame _ fun _ => ?_
  rw [zero_add]
  exact settles_give (Resource.block nn.self)

/-- A made network is the one that was begun, and is ready; only a header that does not fit is a fault. -/
theorem returns_aneChanInit (hfresh : ∀ bdx, nn.chans bdx = .zero) :
    Returns (aneChanInit system nn) fun r =>
      (∀ made, r = .ok made → made.self = nn.self ∧ made.fd = nn.fd ∧ made.data = nn.data ∧ made.Ready) ∧
        (r = .fault → ¬nn.anec.Fits) := by
  have hinit := @returns_initBanks system nn.anec (List.range tileCount) List.nodup_range nn.chans fun bdx _ =>
    hfresh bdx
  rw [aneChanInit]
  refine hinit.bind fun ⟨done, chans⟩ hbanks => ?_
  cases done with
  | false => exact returns_bind fun _ => returns_pure ⟨fun _ => nofun, nofun⟩
  | true =>
    obtain ⟨hbanks, -⟩ := hbanks rfl
    refine returns_aneBoInit.bind fun ⟨done, btspChan⟩ hbtsp => ?_
    cases done with
    | false => exact returns_bind fun _ => returns_pure ⟨fun _ => nofun, nofun⟩
    | true =>
      have hiff := @commandFits_iff { nn with chans, btspChan } hbanks (hbtsp rfl)
      refine returns_pure ⟨fun made hmade => ?_, fun hfault => ?_⟩
      · split at hmade
        case isTrue hfits =>
          obtain rfl := Outcome.ok.inj hmade
          exact ⟨rfl, rfl, rfl, hiff.mp hfits, hbanks, hbtsp rfl⟩
        case isFalse => nomatch hmade
      · split at hfault
        case isTrue => nomatch hfault
        case isFalse hfits => exact fun h => hfits (hiff.mpr h)

/-- Loading a network leaves it its own things, and nothing if it fails. -/
theorem survives_init (anec : Anec) (devId : ℤ) :
    Survives 0 (init system anec devId) (Outcome.left Nn.owned) := by
  rw [init]
  refine ((settles_take _ _).bind_survives 0 fun allocated => ?_).congr (add_zero _).symm
  rw [add_zero]
  have herror : Survives 0 (pure .error : Step Resource (Outcome Nn)) (Outcome.left Nn.owned) :=
    survives_pure fun held hheld => (Option.some.inj hheld).symm
  cases allocated with
  | none => exact herror
  | some self =>
    refine ((settles_aneModelInit anec).bind_survives {Resource.block self} fun content => ?_).congr (zero_add _).symm
    cases content with
    | none => exact ((settles_give (Resource.block self)).bind_survives 0 fun _ => herror).congr (add_comm _ _)
    | some data =>
      have hgive : Survives ({Resource.block data} + {Resource.block self})
          (do give (.block data); give (.block self); return .error : Step Resource (Outcome Nn))
          (Outcome.left Nn.owned) :=
        (settles_give (Resource.block data)).bind_survives _ fun _ =>
          ((settles_give (Resource.block self)).bind_survives 0 fun _ => herror).congr (add_comm _ _)
      refine ((survives_deviceOpen devId).bind (returns_any _) _ (fun opened held _ hheld => ?_)
        fun opened hopened w => ?_).congr (zero_add _).symm
      · cases opened with
        | fault => nomatch hheld
        | error =>
          obtain rfl := Option.some.inj hheld
          exact hgive.congr (zero_add _)
        | ok fd =>
          obtain rfl := Option.some.inj hheld
          refine ((survives_aneChanInit (fun _ => rfl) rfl).bind (returns_aneChanInit (fun _ => rfl)) _
            (fun made held hmade hheld => ?_) fun made hmade w =>
            ?_).congr (zero_add _).symm
          · cases made with
            | fault => nomatch hheld
            | error =>
              obtain rfl := Option.some.inj hheld
              exact ((settles_give (Resource.fd fd)).bind_survives _ fun _ => hgive.congr (zero_add _)).congr
                (zero_add _)
            | ok nn =>
              obtain rfl := Option.some.inj hheld
              obtain ⟨hself, hfd, hdata, -⟩ := hmade.1 nn rfl
              refine survives_pure fun held hheld => ?_
              rw [← Option.some.inj hheld, nn.owned_eq, hself, hfd, hdata]
              rfl
          · cases made with
            | ok _ => nomatch hmade
            | error => nomatch hmade
            | fault => rfl
      · cases opened with
        | ok _ => nomatch hopened
        | error => nomatch hopened
        | fault => rfl

/-- A loaded network is ready. -/
theorem returns_init (anec : Anec) (devId : ℤ) :
    Returns (init system anec devId) fun r => ∀ nn, r = .ok nn → nn.Ready := by
  rw [init]
  refine returns_bind fun allocated => ?_
  cases allocated with
  | none => exact returns_pure fun _ => nofun
  | some self =>
    refine returns_bind fun content => ?_
    cases content with
    | none => exact returns_bind fun _ => returns_pure fun _ => nofun
    | some data =>
      refine returns_bind fun opened => ?_
      cases opened with
      | fault => exact returns_pure fun _ => nofun
      | error => exact returns_bind fun _ => returns_bind fun _ => returns_pure fun _ => nofun
      | ok fd =>
        refine (returns_aneChanInit fun _ => rfl).bind fun made hmade => ?_
        cases made with
        | fault => exact returns_pure fun _ => nofun
        | error => exact returns_bind fun _ => returns_bind fun _ => returns_bind fun _ => returns_pure fun _ => nofun
        | ok made =>
          refine returns_pure fun nn hnn => ?_
          obtain rfl := Outcome.ok.inj hnn
          exact (hmade.1 made rfl).2.2.2

section Sound

variable (hnamed : ∀ n, system.named n = true)
include hnamed

/-- Probing a node does not kill the process. -/
theorem isAneDevice_ne_fault (node : ℕ) : Returns (isAneDevice system node) fun r => r ≠ .fault := by
  rw [isAneDevice]
  refine returns_bind fun answered => ?_
  split
  · split
    · exact returns_pure nofun
    · refine (returns_take hnamed _).bind fun name hname => returns_bind fun answered => ?_
      cases name with
      | none => nomatch hname
      | some n =>
        refine returns_bind fun _ => returns_pure ?_
        split <;> nofun
  · exact returns_pure nofun

/-- Nor does the search over nodes. -/
theorem searchNodes_ne_fault (devId : ℤ) (nodes : List ℕ) (found : ℤ) :
    Returns (searchNodes system devId nodes found) fun r => r ≠ .fault := by
  induction nodes generalizing found with
  | nil => exact returns_pure nofun
  | cons node rest ih =>
    have hopen : Returns (openFd system node) fun r => r ≠ .fault := by
      rw [openFd]
      refine returns_bind fun opened => ?_
      cases opened with
      | none => exact returns_pure nofun
      | some fd =>
        refine (isAneDevice_ne_fault hnamed node).bind fun found hfound => ?_
        cases found with
        | ok _ => exact returns_pure nofun
        | error => exact returns_bind fun _ => returns_pure nofun
        | fault => exact absurd rfl hfound
    rw [searchNodes]
    refine hopen.bind fun opened hopened => ?_
    cases opened with
    | error => exact ih found
    | fault => exact absurd rfl hopened
    | ok fd =>
      dsimp only
      split
      · exact returns_pure nofun
      · exact returns_bind fun _ => ih (found + 1)

/-- Nor does opening. -/
theorem deviceOpen_ne_fault (devId : ℤ) : Returns (deviceOpen system devId) fun r => r ≠ .fault := by
  rw [deviceOpen]
  split
  · exact returns_pure nofun
  · exact searchNodes_ne_fault hnamed devId _ 0

/-- Nothing goes wrong where the names of drivers can be allocated and the header fits. -/
theorem init_ne_fault {anec : Anec} (hfits : anec.Fits) (devId : ℤ) :
    Returns (init system anec devId) fun r => r ≠ .fault := by
  rw [init]
  refine returns_bind fun allocated => ?_
  cases allocated with
  | none => exact returns_pure nofun
  | some self =>
    refine returns_bind fun content => ?_
    cases content with
    | none => exact returns_bind fun _ => returns_pure nofun
    | some data =>
      refine (deviceOpen_ne_fault hnamed devId).bind fun opened hopened => ?_
      cases opened with
      | fault => exact absurd rfl hopened
      | error => exact returns_bind fun _ => returns_bind fun _ => returns_pure nofun
      | ok fd =>
        refine (returns_aneChanInit fun _ => rfl).bind fun made hmade => ?_
        cases made with
        | fault => exact absurd hfits (hmade.2 rfl)
        | error => exact returns_bind fun _ => returns_bind fun _ => returns_bind fun _ => returns_pure nofun
        | ok made => exact returns_pure nofun

end Sound

/-! ## Sessions -/

/-- What the networks of a program hold. -/
def liveOwned (live : List Nn) : Multiset Resource := (live.map Nn.owned).sum

/-- Dropping one handle drops what it owns. -/
theorem liveOwned_eraseIdx {live : List Nn} {i : ℕ} (h : live[i]? = some nn) :
    liveOwned live = nn.owned + liveOwned (live.eraseIdx i) := by
  obtain ⟨hi, rfl⟩ := List.getElem?_eq_some_iff.mp h
  have hsum := (List.getElem_cons_eraseIdx_perm hi).map Nn.owned |>.sum_eq
  rw [List.map_cons, List.sum_cons] at hsum
  exact hsum.symm

/-- The networks of a program hold what they own, whatever was loaded and freed. -/
theorem survives_session (requests : List Request) (live : List Nn) :
    Survives (liveOwned live) (session system requests live) (Outcome.left liveOwned) := by
  induction requests generalizing live with
  | nil => exact survives_pure fun held hheld => (Option.some.inj hheld).symm
  | cons request rest ih =>
    cases request with
    | load anec devId =>
      rw [session]
      refine ((survives_init anec devId).bind (returns_any _) _ (fun loaded held _ hheld => ?_) fun loaded hloaded w =>
        ?_).congr (zero_add _).symm
      · cases loaded with
        | ok nn =>
          obtain rfl := Option.some.inj hheld
          exact ih (nn :: live)
        | error =>
          obtain rfl := Option.some.inj hheld
          exact (ih live).congr (zero_add _)
        | fault => nomatch hheld
      · cases loaded with
        | ok _ => nomatch hloaded
        | error => nomatch hloaded
        | fault => rfl
    | unload i =>
      rw [session]
      split
      case h_1 => exact ih live
      case h_2 nn hnn =>
        rw [liveOwned_eraseIdx hnn]
        exact (settles_free nn).bind_survives _ fun _ => (ih _).congr (zero_add _)

/-- Every handle that a session leaves is ready. -/
theorem returns_session (requests : List Request) {live : List Nn} (hlive : ∀ nn ∈ live, nn.Ready) :
    Returns (session system requests live) fun r =>
      r ≠ .error ∧ ∀ final, r = .ok final → ∀ nn ∈ final, nn.Ready := by
  induction requests generalizing live with
  | nil =>
    refine returns_pure ⟨nofun, fun final hfinal => ?_⟩
    obtain rfl := Outcome.ok.inj hfinal
    exact hlive
  | cons request rest ih =>
    cases request with
    | load anec devId =>
      rw [session]
      refine (returns_init anec devId).bind fun loaded hloaded => ?_
      cases loaded with
      | ok nn => exact ih (List.forall_mem_cons.mpr ⟨hloaded nn rfl, hlive⟩)
      | error => exact ih hlive
      | fault => exact returns_pure ⟨nofun, fun _ => nofun⟩
    | unload i =>
      rw [session]
      split
      · exact ih hlive
      · exact returns_bind fun _ => ih fun nn hnn => hlive nn (List.mem_of_mem_eraseIdx hnn)

/-- A session on named devices never faults. -/
theorem session_ne_fault (hnamed : ∀ n, system.named n = true) (requests : List Request)
    (hfits : ∀ anec devId, .load anec devId ∈ requests → anec.Fits) (live : List Nn) :
    Returns (session system requests live) fun r => r ≠ .fault := by
  induction requests generalizing live with
  | nil => exact returns_pure nofun
  | cons request rest ih =>
    have hrest := ih fun anec devId h => hfits anec devId (List.mem_cons_of_mem _ h)
    cases request with
    | load anec devId =>
      rw [session]
      refine (init_ne_fault hnamed (hfits anec devId List.mem_cons_self) devId).bind fun loaded hloaded => ?_
      cases loaded with
      | ok nn => exact hrest _
      | error => exact hrest _
      | fault => exact absurd rfl hloaded
    | unload i =>
      rw [session]
      split
      · exact hrest _
      · exact returns_bind fun _ => hrest _

/-- Whatever a program loads and frees, and whichever calls fail on the way, it has in custody what it had before and
what its networks own, each of them ready, and gave nothing back twice. It can only end early where a name could not be
allocated or a header did not fit. -/
theorem session_custody (system : System) (requests : List Request) (calls : ℕ) (held : Multiset Resource) :
    match session system requests [] ⟨calls, held, false⟩ with
    | (.ok live, w) => (∀ nn ∈ live, nn.Ready) ∧ w.held = liveOwned live + held ∧ w.misused = false
    | (.error, _) => False
    | (.fault, _) =>
      (∃ n, system.named n = false) ∨ ∃ anec devId, Request.load anec devId ∈ requests ∧ ¬anec.Fits := by
  have hreturns := @returns_session system requests [] (fun _ h => absurd h List.not_mem_nil) ⟨calls, held, false⟩
  have hsurvives := @survives_session system requests [] held ⟨calls, held, false⟩ ⟨(zero_add _).symm, rfl⟩
  have hfault := fun hnamed hfits => @session_ne_fault system hnamed requests hfits [] ⟨calls, held, false⟩
  split
  case h_1 live w h =>
    rw [h] at hreturns hsurvives
    exact ⟨hreturns.2 live rfl, hsurvives _ rfl⟩
  case h_2 w h =>
    rw [h] at hreturns
    exact hreturns.1 rfl
  case h_3 w h =>
    rw [h] at hfault
    by_contra hcon
    obtain ⟨hnamed, hfits⟩ := not_or.mp hcon
    refine hfault (fun n => ?_) (fun anec devId hmem => ?_) rfl
    · exact Bool.not_eq_false _ ▸ fun hfalse => hnamed ⟨n, hfalse⟩
    · exact not_not.mp fun hnot => hfits ⟨anec, devId, hmem, hnot⟩

end Networks

end AneLinux.Libane.Init
