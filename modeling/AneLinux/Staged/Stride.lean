import AneLinux.Staged.TaskStream
import AneLinux.Support.Dict
import AneLinux.Support.StructCodec

/-!
# The uniform-stride layout of a task stream

`normalize` follows the links of a staged task stream, takes the largest record end of its tasks, rounded up
to `0x100`, as the stride, and has `normalize_stride` copy each task into a slot of that size and rewrite its
link. A task is copied up to the stride or up to the task it links to, so a task that links backwards is not
copied at all. `relaid_of_normalizeStride` says what the new stream holds.

The chain and its visited set hold the same offsets, so one list stands for both.
-/

namespace AneLinux.Staged

open AneLinux.Support AneLinux.Hwx

section Source

/-- The chain loop of `normalize`, with the number of tasks it may still visit. -/
def walkLinksLoop (view : Bytes) : ℕ → List ℕ → ℕ → Py (List ℕ)
  | 0, chain, _ => return chain
  | remaining + 1, chain, offset =>
    if offset ∈ chain then return chain
    else do
      let nxt ← unpackU32 view (offset + 0x1C)
      if nxt = 0 then return chain ++ [offset]
      else walkLinksLoop view remaining (chain ++ [offset]) nxt

/-- The chain of `normalize`, from offset 0. -/
def walkLinks (view : Bytes) (tdCount : ℕ) : Py (List ℕ) := walkLinksLoop view tdCount [] 0

/-- The largest record end of the tasks of a chain. -/
def maxEnd (view : Bytes) (oldStream : ℕ) : List ℕ → ℕ → Py ℕ
  | [], largest => return largest
  | base :: rest, largest => do
    let bound := match rest with
      | next :: _ => min next oldStream
      | [] => oldStream
    let task ← parseTask view base bound
    maxEnd view oldStream rest (max largest task.stop)

/-- `(max_end + 0xFF) & ~0xFF`. -/
def roundStride (largest : ℕ) : ℕ := (largest + 0xFF) / 0x100 * 0x100

/-- The chain and the stride that `normalize` chooses. -/
def chooseLayout (view : Bytes) (tdCount oldStream : ℕ) : Py (List ℕ × ℕ) := do
  let chain ← walkLinks view tdCount
  let largest ← maxEnd view oldStream chain 0
  return (chain, roundStride largest)

/-- A task that `normalize_stride` collected. -/
structure StrideTask where
  base : ℕ
  nxt : ℕ
  body : Bytes

/-- The bytes of a task that are copied: up to the stride, up to the task it links to or the end of the stream. -/
def taskBody (content : Bytes) (stride base nxt : ℕ) : Bytes :=
  let extent : ℤ := min stride (if nxt = 0 then content.size - base else nxt - base)
  content.slice base (base + extent).toNat

/-- The first loop of `normalize_stride`. -/
def collectTasks (content : Bytes) (stride : ℕ) : ℕ → List StrideTask → ℕ → Py (List StrideTask)
  | 0, tasks, _ => return tasks
  | remaining + 1, tasks, offset =>
    if offset ∈ tasks.map StrideTask.base then return tasks
    else do
      let nxt ← unpackU32 content (offset + 0x1C)
      let tasks := tasks ++ [⟨offset, nxt, taskBody content stride offset nxt⟩]
      if nxt = 0 then return tasks
      else collectTasks content stride remaining tasks nxt

/-- `slot = bytearray(stride); slot[:len(body)] = body`. -/
def slotOf (stride : ℕ) (body : Bytes) : Bytes := (Bytes.zeros stride).splice 0 body.size body

/-- The slots one after another. -/
def joinSlots (stride : ℕ) : List StrideTask → Bytes
  | [] => Bytes.empty
  | task :: rest => slotOf stride task.body ++ joinSlots stride rest

/-- `mapping`: the bases are distinct, so each is a new key. -/
def strideMapping (stride : ℕ) (tasks : List StrideTask) : List (ℕ × ℕ) :=
  tasks.mapIdx fun i task => (task.base, i * stride)

/-- Rewrite the links of the tasks from slot `i` on. -/
def rewriteLinks (stride : ℕ) (mapping : List (ℕ × ℕ)) : ℕ → List StrideTask → Bytes → Py Bytes
  | _, [], new => return new
  | i, task :: rest, new => do
    let new ← (if task.nxt = 0 then packU32 new (i * stride + 0x1C) 0
      else match find mapping task.nxt with
        | some target => packU32 new (i * stride + 0x1C) target
        | none => .error (.assertionError ("link " ++ hex task.nxt ++ " not in mapped tasks")))
    rewriteLinks stride mapping (i + 1) rest new

/-- Compare the copied part of each task with the old one, but for its link. -/
def verifyTasks (content new : Bytes) (stride : ℕ) : ℕ → List StrideTask → Py Unit
  | _, [] => return ()
  | i, task :: rest =>
    let oldTd := content.slice task.base (task.base + task.body.size)
    let newTd := new.slice (i * stride) (i * stride + task.body.size)
    let mask := if 0x20 ≤ oldTd.size then oldTd.splice 0x1C 0x20 (newTd.slice 0x1C 0x20) else oldTd
    if mask ≠ newTd then .error (.assertionError ("task " ++ hex task.base ++ ": body changed in transit"))
    else verifyTasks content new stride (i + 1) rest

/-- `normalize_stride`: the new stream and the new base of each old one. -/
def normalizeStride (content : Bytes) (chain : List ℕ) (stride : ℕ) : Py (Bytes × List (ℕ × ℕ)) := do
  let tasks ← collectTasks content stride chain.length [] 0
  let mapping := strideMapping stride tasks
  let new ← rewriteLinks stride mapping 0 tasks (joinSlots stride tasks)
  verifyTasks content new stride 0 tasks
  return (new, mapping)

end Source

variable {chain : List ℕ} {tdCount stride i : ℕ} {content new out : Bytes} {tasks : List StrideTask}
  {task : StrideTask} {mapping : List (ℕ × ℕ)}

section Chain

variable {view : Bytes} {remaining : ℕ} {pre : List ℕ} {offset : ℕ}

/-- A walk adds to the bases it has. -/
theorem walkLinksLoop_extends (h : walkLinksLoop view remaining pre offset = .ok chain) :
    ∃ more, chain = pre ++ more := by
  induction remaining generalizing pre offset with
  | zero => exact ⟨[], by rw [← Except.ok.inj h, List.append_nil]⟩
  | succ remaining ih =>
    rw [walkLinksLoop] at h
    split at h
    · exact ⟨[], by rw [← Except.ok.inj h, List.append_nil]⟩
    · obtain ⟨nxt, -, h⟩ := bind_eq_ok.mp h
      split at h
      · exact ⟨[offset], (Except.ok.inj h).symm⟩
      · obtain ⟨more, hmore⟩ := ih h
        exact ⟨offset :: more, by rw [hmore, List.append_assoc, List.singleton_append]⟩

/-- A walk that may visit only as many tasks as it found finds the same. -/
theorem walkLinksLoop_length (h : walkLinksLoop view remaining pre offset = .ok chain) :
    walkLinksLoop view (chain.length - pre.length) pre offset = .ok chain := by
  induction remaining generalizing pre offset with
  | zero =>
    rw [← Except.ok.inj h, Nat.sub_self]
    rfl
  | succ remaining ih =>
    rw [walkLinksLoop] at h
    split at h
    · rw [← Except.ok.inj h, Nat.sub_self]
      rfl
    · rename_i hfresh
      obtain ⟨nxt, hnxt, h⟩ := bind_eq_ok.mp h
      split at h
      · rename_i hzero
        have hlength : chain.length - pre.length = 0 + 1 := by
          rw [← Except.ok.inj h, List.length_append, List.length_singleton]
          omega
        rw [hlength, walkLinksLoop, if_neg hfresh, hnxt, ok_bind, if_pos hzero, h]
      · rename_i hlink
        obtain ⟨more, hmore⟩ := walkLinksLoop_extends h
        have hrest := ih h
        have hlength : chain.length - pre.length = (chain.length - (pre ++ [offset]).length) + 1 := by
          rw [hmore, List.length_append, List.length_append, List.length_singleton]
          omega
        rw [hlength, walkLinksLoop, if_neg hfresh, hnxt, ok_bind, if_neg hlink, hrest]

/-- What a walk found: distinct bases inside the stream, each the link of the one before it. -/
structure Linked (view : Bytes) (chain : List ℕ) : Prop where
  nodup : chain.Nodup
  inside : ∀ base ∈ chain, base + 0x20 ≤ view.size
  start : ∀ base, chain[0]? = some base → base = 0

theorem linked_of_walkLinksLoop (h : walkLinksLoop view remaining pre offset = .ok chain) (hpre : Linked view pre)
    (hstart : pre = [] → offset = 0) : Linked view chain := by
  induction remaining generalizing pre offset with
  | zero => exact Except.ok.inj h ▸ hpre
  | succ remaining ih =>
    rw [walkLinksLoop] at h
    split at h
    · exact Except.ok.inj h ▸ hpre
    · rename_i hfresh
      obtain ⟨nxt, hnxt, h⟩ := bind_eq_ok.mp h
      have hinside := (unpackU32_eq_ok.mp hnxt).1
      have hlinked : Linked view (pre ++ [offset]) := by
        refine ⟨?_, fun base hbase => ?_, fun base hbase => ?_⟩
        · exact List.nodup_append_comm.mp (List.nodup_cons.mpr ⟨hfresh, hpre.nodup⟩)
        · rcases List.mem_append.mp hbase with hbase | hbase
          · exact hpre.inside base hbase
          · rw [List.mem_singleton.mp hbase]
            omega
        · cases pre with
          | nil => rw [← Option.some.inj hbase, hstart rfl]
          | cons first rest => exact hpre.start base hbase
      split at h
      · exact Except.ok.inj h ▸ hlinked
      · exact ih h hlinked fun hnil => absurd hnil (List.append_ne_nil_of_right_ne_nil _ (List.cons_ne_nil _ _))

theorem linked_of_walkLinks (h : walkLinks view tdCount = .ok chain) : Linked view chain :=
  linked_of_walkLinksLoop h
    ⟨List.nodup_nil, fun _ hbase => absurd hbase List.not_mem_nil, fun _ hbase => by cases hbase⟩
    fun _ => rfl

end Chain

section Collect

/-- The task that is collected at a base. -/
def strideTask (content : Bytes) (stride base : ℕ) : StrideTask :=
  ⟨base, content.u32 (base + 0x1C), taskBody content stride base (content.u32 (base + 0x1C))⟩

theorem map_base_strideTask (chain : List ℕ) : (chain.map (strideTask content stride)).map StrideTask.base = chain := by
  rw [List.map_map]
  exact List.map_id _

/-- `normalize_stride` collects the tasks of the chain it walks. -/
theorem collectTasks_eq_ok {remaining : ℕ} {pre : List ℕ} {offset : ℕ}
    (h : walkLinksLoop content remaining pre offset = .ok chain) :
    collectTasks content stride remaining (pre.map (strideTask content stride)) offset =
      .ok (chain.map (strideTask content stride)) := by
  induction remaining generalizing pre offset with
  | zero =>
    rw [← Except.ok.inj h]
    rfl
  | succ remaining ih =>
    rw [walkLinksLoop] at h
    rw [collectTasks, map_base_strideTask]
    split at h
    · rename_i hseen
      rw [if_pos hseen, ← Except.ok.inj h]
      rfl
    · rename_i hfresh
      obtain ⟨nxt, hnxt, h⟩ := bind_eq_ok.mp h
      have hvalue := (unpackU32_eq_ok.mp hnxt).2
      have htask : pre.map (strideTask content stride) ++ [⟨offset, nxt, taskBody content stride offset nxt⟩] =
          (pre ++ [offset]).map (strideTask content stride) := by
        rw [List.map_append, List.map_singleton, strideTask, hvalue]
      rw [if_neg hfresh, hnxt, ok_bind]
      dsimp only
      rw [htask]
      split at h
      · rename_i hzero
        rw [if_pos hzero, ← Except.ok.inj h]
        rfl
      · rename_i hlink
        rw [if_neg hlink]
        exact ih h

end Collect

section Slots

theorem taskBody_size_le (base nxt : ℕ) : (taskBody content stride base nxt).size ≤ stride := by
  simp only [taskBody, Bytes.size_slice]
  omega

theorem size_slotOf {body : Bytes} (h : body.size ≤ stride) : (slotOf stride body).size = stride :=
  Bytes.size_splice_of_eq (Nat.zero_le _) h rfl

theorem get_slotOf {body : Bytes} (h : body.size ≤ stride) (p : ℕ) : (slotOf stride body).get p = body.get p := by
  rw [slotOf, Bytes.get_splice_of_eq (Nat.zero_le _) h rfl]
  split
  · rw [Nat.sub_zero]
  · rename_i hout
    rw [Bytes.get_zeros, body.get_of_size_le p (Nat.not_lt.mp fun hlt => hout ⟨Nat.zero_le p, hlt⟩)]

theorem size_joinSlots (h : ∀ task ∈ tasks, task.body.size ≤ stride) :
    (joinSlots stride tasks).size = tasks.length * stride := by
  induction tasks with
  | nil => rw [List.length_nil, Nat.zero_mul]; rfl
  | cons task rest ih =>
    rw [joinSlots, Bytes.size_append, size_slotOf (h task List.mem_cons_self),
      ih fun other hother => h other (List.mem_cons_of_mem _ hother), List.length_cons, Nat.succ_mul, Nat.add_comm]

theorem get_joinSlots (h : ∀ task ∈ tasks, task.body.size ≤ stride) {p : ℕ} (htask : tasks[i]? = some task)
    (hp : p < stride) : (joinSlots stride tasks).get (i * stride + p) = task.body.get p := by
  induction tasks generalizing i with
  | nil => cases htask
  | cons first rest ih =>
    have hfirst := size_slotOf (h first List.mem_cons_self)
    rw [joinSlots]
    cases i with
    | zero =>
      rw [Nat.zero_mul, Nat.zero_add, Bytes.get_append_left _ _ (by omega), get_slotOf (h first List.mem_cons_self),
        Option.some.inj htask]
    | succ i =>
      rw [Bytes.get_append_right _ _ (by rw [hfirst, Nat.succ_mul]; omega), hfirst, Nat.succ_mul,
        show i * stride + stride + p - stride = i * stride + p by omega]
      exact ih (fun other hother => h other (List.mem_cons_of_mem _ hother)) htask

end Slots

section Links

/-- What the link of a task is rewritten to. -/
def linkTarget (mapping : List (ℕ × ℕ)) (task : StrideTask) : Option ℕ :=
  if task.nxt = 0 then some 0 else find mapping task.nxt

/-- One round writes the target of one link. -/
theorem rewriteLinks_cons_eq_ok {rest : List StrideTask}
    (h : rewriteLinks stride mapping i (task :: rest) new = .ok out) :
    ∃ target written, linkTarget mapping task = some target ∧ packU32 new (i * stride + 0x1C) target = .ok written ∧
      rewriteLinks stride mapping (i + 1) rest written = .ok out := by
  rw [rewriteLinks] at h
  obtain ⟨written, hwritten, h⟩ := bind_eq_ok.mp h
  rw [linkTarget]
  split at hwritten
  next hzero => exact ⟨0, written, if_pos hzero, hwritten, h⟩
  next hlink =>
    rw [if_neg hlink]
    cases hfind : find mapping task.nxt with
    | none =>
      rw [hfind] at hwritten
      cases hwritten
    | some target =>
      rw [hfind] at hwritten
      exact ⟨target, written, rfl, hwritten, h⟩

theorem size_rewriteLinks (h : rewriteLinks stride mapping i tasks new = .ok out) : out.size = new.size := by
  induction tasks generalizing i new with
  | nil => rw [← Except.ok.inj h]
  | cons task rest ih =>
    obtain ⟨target, written, -, hpack, h⟩ := rewriteLinks_cons_eq_ok h
    rw [ih h, ← (packU32_eq_ok.mp hpack).2, Bytes.size_putLE]

/-- Every link is rewritten to its target; nothing else is written. -/
theorem rewriteLinks_spec (hstride : 0x20 ≤ stride) (h : rewriteLinks stride mapping i tasks new = .ok out) :
    out.size = new.size ∧
      (∀ j task, tasks[j]? = some task → (i + j) * stride + 0x20 ≤ new.size ∧
        linkTarget mapping task = some (out.u32 ((i + j) * stride + 0x1C))) ∧
      ∀ p, (∀ j < tasks.length, p < (i + j) * stride + 0x1C ∨ (i + j) * stride + 0x20 ≤ p) → out.get p = new.get p := by
  induction tasks generalizing i new with
  | nil =>
    rw [← Except.ok.inj h]
    exact ⟨rfl, (fun j task htask => by cases htask), fun _ _ => rfl⟩
  | cons task rest ih =>
    obtain ⟨target, written, htarget, hpack, h⟩ := rewriteLinks_cons_eq_ok h
    obtain ⟨⟨hroom, hsmall⟩, hput⟩ := packU32_eq_ok.mp hpack
    obtain ⟨hsize, hlinks, hkept⟩ := ih h
    rw [← hput, Bytes.size_putLE] at hsize hlinks
    have hfirst : out.u32 (i * stride + 0x1C) = target := by
      rw [← u32_putLE hroom hsmall, hput]
      refine Bytes.u32_congr fun k hk => hkept _ fun j _ => .inl ?_
      have hstep : (i + 1) * stride ≤ (i + 1 + j) * stride := Nat.mul_le_mul_right stride (by omega)
      rw [Nat.succ_mul] at hstep
      omega
    refine ⟨hsize, fun j other hother => ?_, fun p hp => ?_⟩
    · cases j with
      | zero =>
        rw [Nat.add_zero i, ← Option.some.inj hother, hfirst]
        exact ⟨by omega, htarget⟩
      | succ j =>
        have hrest := hlinks j other hother
        rwa [show i + 1 + j = i + (j + 1) by omega] at hrest
    · rw [hkept p fun j hj => ?_, ← hput, Bytes.get_putLE_of_ne]
      · have := hp 0 (Nat.zero_lt_succ _)
        rw [Nat.add_zero i] at this
        omega
      · have := hp (j + 1) (Nat.succ_lt_succ hj)
        rwa [show i + (j + 1) = i + 1 + j by omega] at this

/-- An old base is mapped to its slot. -/
theorem find_strideMapping {key target : ℕ} (h : find (strideMapping stride tasks) key = some target) :
    ∃ i task, tasks[i]? = some task ∧ task.base = key ∧ target = i * stride := by
  obtain ⟨i, hi, hentry⟩ := List.mem_mapIdx.mp (mem_of_find h)
  obtain ⟨hbase, htarget⟩ := Prod.mk.inj hentry
  exact ⟨i, _, List.getElem?_eq_getElem hi, hbase, htarget.symm⟩

end Links

section Layout

/-- What the new stream holds: in slot `i` the copied part of the chain's task `i` and zeros, with the link
rewritten to the slot of the task it names. -/
structure Relaid (content : Bytes) (chain : List ℕ) (stride : ℕ) (new : Bytes) : Prop where
  size : new.size = chain.length * stride
  link : ∀ i base, chain[i]? = some base →
    content.u32 (base + 0x1C) = 0 ∧ new.u32 (i * stride + 0x1C) = 0 ∨
      content.u32 (base + 0x1C) ≠ 0 ∧ ∃ j, chain[j]? = some (content.u32 (base + 0x1C)) ∧
        new.u32 (i * stride + 0x1C) = j * stride
  body : ∀ i base p, chain[i]? = some base → p < stride → (p < 0x1C ∨ 0x20 ≤ p) →
    new.get (i * stride + p) = (taskBody content stride base (content.u32 (base + 0x1C))).get p

/-- `normalize_stride` of a walked chain writes the links of its tasks into their slots. -/
theorem normalizeStride_eq_ok (hchain : walkLinks content tdCount = .ok chain)
    (h : normalizeStride content chain stride = .ok (new, mapping)) :
    mapping = strideMapping stride (chain.map (strideTask content stride)) ∧
      rewriteLinks stride mapping 0 (chain.map (strideTask content stride))
        (joinSlots stride (chain.map (strideTask content stride))) = .ok new := by
  have hcollect : collectTasks content stride chain.length [] 0 = .ok (chain.map (strideTask content stride)) :=
    collectTasks_eq_ok (walkLinksLoop_length hchain)
  rw [normalizeStride, hcollect, ok_bind] at h
  obtain ⟨out, hout, h⟩ := bind_eq_ok.mp h
  obtain ⟨-, -, h⟩ := bind_eq_ok.mp h
  obtain ⟨rfl, rfl⟩ := Prod.mk.inj (Except.ok.inj h)
  exact ⟨rfl, hout⟩

/-- A collected task fits its slot. -/
theorem strideTask_body_size_le (h : task ∈ chain.map (strideTask content stride)) : task.body.size ≤ stride := by
  obtain ⟨base, -, rfl⟩ := List.mem_map.mp h
  exact taskBody_size_le _ _

/-- `normalize_stride` of a walked chain lays its tasks out one after another. -/
theorem relaid_of_normalizeStride (hchain : walkLinks content tdCount = .ok chain) (hstride : 0x20 ≤ stride)
    (h : normalizeStride content chain stride = .ok (new, mapping)) : Relaid content chain stride new := by
  obtain ⟨rfl, hout⟩ := normalizeStride_eq_ok hchain h
  obtain ⟨hsize, hlinks, hkept⟩ := rewriteLinks_spec hstride hout
  have hbodies := @strideTask_body_size_le chain stride content
  have htask {i base : ℕ} (hbase : chain[i]? = some base) :
      (chain.map (strideTask content stride))[i]? = some (strideTask content stride base) := by
    rw [List.getElem?_map, hbase, Option.map_some]
  refine ⟨?_, fun i base hbase => ?_, fun i base p hbase hp hlink => ?_⟩
  · rw [hsize, size_joinSlots fun task => hbodies, List.length_map]
  · obtain ⟨-, htarget⟩ := hlinks i _ (htask hbase)
    rw [Nat.zero_add, linkTarget, strideTask] at htarget
    dsimp only at htarget
    split at htarget
    next hzero => exact .inl ⟨hzero, (Option.some.inj htarget).symm⟩
    next hnonzero =>
      obtain ⟨j, other, hother, hkey, hvalue⟩ := find_strideMapping htarget
      rw [List.getElem?_map, Option.map_eq_some_iff] at hother
      obtain ⟨target, htarget, rfl⟩ := hother
      exact .inr ⟨hnonzero, j, hkey ▸ htarget, hvalue⟩
  · rw [hkept _ fun j _ => ?_, get_joinSlots (fun task => hbodies) (htask hbase) hp]
    · rfl
    · rw [Nat.zero_add]
      rcases Nat.lt_trichotomy j i with hless | hsame | hmore
      · have hstep : (j + 1) * stride ≤ i * stride := Nat.mul_le_mul_right stride hless
        rw [Nat.succ_mul] at hstep
        omega
      · rw [hsame]
        omega
      · have hstep : (i + 1) * stride ≤ j * stride := Nat.mul_le_mul_right stride hmore
        rw [Nat.succ_mul] at hstep
        omega

end Layout

end AneLinux.Staged
