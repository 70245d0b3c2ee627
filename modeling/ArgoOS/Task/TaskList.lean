import ArgoOS.Task.Fork

set_option autoImplicit false

/-! # Numbers, stacks and lookups in every run -/

namespace ArgoOS.Tasking

open Linked Option List

-- The page that `create_kernel_stack` maps when the counter stands at `nextTaskId`.
def stackPage (nextTaskId : UInt32) : UInt32 :=
  0xE0000000 + nextTaskId * 0x1000

structure Creation where
  task : TaskPtr
  stackPage : UInt32
deriving DecidableEq, Repr

-- `created` is newest first; `calls` counts `task_create` and `sys_fork`, failed or not.
structure TaskTrace where
  sched : Sched
  created : List Creation
  calls : Nat

def TaskTrace.tasks (trace : TaskTrace) : List TaskPtr :=
  trace.created.map Creation.task

inductive TaskCall where
  | taskCreate (request : CreateRequest)
  | sysFork (request : ForkRequest)
  | taskSwitch
  | taskYield
  | taskExit
  | taskSleep (milliseconds : UInt32)
  | taskSleepUntil (targetTicks : UInt32)
  | taskBlock (waitQueue : Option TaskPtr)
  | taskUnblock (waitQueue : Option TaskPtr)
  | taskWake (task : TaskPtr)
  | timerHandler
deriving DecidableEq, Repr

def TaskTrace.record (trace : TaskTrace) (result : Sched × Option TaskPtr) : TaskTrace where
  sched := result.1
  created :=
    match result.2 with
    | none => trace.created
    | some p => ⟨p, stackPage result.1.nextTaskId⟩ :: trace.created
  calls := trace.calls + 1

def TaskTrace.withSched (trace : TaskTrace) (sched : Sched) : TaskTrace := { trace with sched }

def scheduled (s : Sched) : TaskCall → Option Sched
  | .taskCreate _ | .sysFork _ => none
  | .taskSwitch => taskSwitch s
  | .taskYield => taskYield s
  | .taskExit => taskExit s
  | .taskSleep milliseconds => taskSleep s milliseconds
  | .taskSleepUntil targetTicks => taskSleepUntil s targetTicks
  | .taskBlock waitQueue => (taskBlock s waitQueue).map Prod.fst
  | .taskUnblock waitQueue => some (taskUnblock s waitQueue).1
  | .taskWake task => some (taskWake s task)
  | .timerHandler => timerHandler s

def taskStep (trace : TaskTrace) : TaskCall → Option (TaskTrace × List Empty)
  | .taskCreate request => some (trace.record (taskCreate trace.sched request), [])
  | .sysFork request =>
    some (trace.record ((sysFork trace.sched request).1, (forkTask trace.sched request).2), [])
  | call => (scheduled trace.sched call).map fun sched => (trace.withSched sched, [])

-- `kmalloc` does not hand out the memory of a task that exists.
def FreshMemory (trace : TaskTrace) : TaskCall → Prop
  | .taskCreate request => ∀ p ∈ request.memory, p ∉ trace.tasks
  | .sysFork request => ∀ p ∈ request.memory, p ∉ trace.tasks
  | _ => True

instance (trace : TaskTrace) (call : TaskCall) : Decidable (FreshMemory trace call) := by
  unfold FreshMemory
  split <;> infer_instance

variable {s : Sched} {before : TaskTrace} {ring : List TaskPtr} {call : TaskCall}
  {after : TaskTrace} {events : List Empty}

section

variable {s' : Sched}

theorem setNextInQueue_keepsTasks (s : Sched) (p : TaskPtr) (link : Option TaskPtr) :
    KeepsTasks s (setNextInQueue s p link) :=
  modify_keepsTasks s p _ (fun _ => rfl) (fun _ => rfl)

theorem taskWake_keepsTasks (s : Sched) (p : TaskPtr) : KeepsTasks s (taskWake s p) := by
  unfold taskWake
  split
  · exact modify_keepsTasks s p _ (fun _ => rfl) (fun _ => rfl)
  · exact .refl s

theorem taskWake_current (s : Sched) (p : TaskPtr) : (taskWake s p).currentTask = s.currentTask := by
  unfold taskWake
  split <;> rfl

theorem enqueueCurrent_keepsTasks {current : TaskPtr} {waitQueue head : Option TaskPtr}
    (queued : enqueueCurrent s current waitQueue = some (s', head)) :
    KeepsTasks s s' ∧ s'.currentTask = s.currentTask := by
  have parked : KeepsTasks s (park s current) :=
    modify_keepsTasks s current _ (fun _ => rfl) (fun _ => rfl)
  unfold enqueueCurrent at queued
  split at queued
  · cases queued
    exact ⟨parked, rfl⟩
  · simp only at queued
    split at queued
    · cases queued
      exact ⟨parked.trans (setNextInQueue_keepsTasks _ _ _), rfl⟩
    · contradiction

theorem useTimeSlice_keepsTasks (s : Sched) (current : TaskPtr) :
    KeepsTasks s (useTimeSlice (countTick s) current) := by
  have counted : KeepsTasks s (countTick s) := ⟨fun _ => rfl, fun _ => rfl, rfl, rfl, rfl⟩
  exact counted.trans (modify_keepsTasks _ _ _ (fun _ => rfl) (fun _ => rfl))

inductive Begins (s : Sched) : TaskCall → Sched → Prop
  | nothing (call : TaskCall) (notTick : call ≠ .timerHandler) : Begins s call s
  | retires (me : TaskPtr) (isCurrent : s.currentTask = some me) : Begins s .taskExit (retire s me)
  | sleeps (me : TaskPtr) (milliseconds : UInt32) (isCurrent : s.currentTask = some me) :
      Begins s (.taskSleep milliseconds) (fallAsleep s me (sleepTarget s milliseconds))
  | sleepsUntil (me : TaskPtr) (targetTicks : UInt32) (isCurrent : s.currentTask = some me) :
      Begins s (.taskSleepUntil targetTicks) (fallAsleep s me targetTicks)
  | parks (me : TaskPtr) (waitQueue head : Option TaskPtr) (queued : Sched)
      (isCurrent : s.currentTask = some me)
      (enqueued : enqueueCurrent s me waitQueue = some (queued, head)) :
      Begins s (.taskBlock waitQueue) queued
  | unblocks (head : TaskPtr) :
      Begins s (.taskUnblock (some head)) (taskWake (setNextInQueue s head none) head)
  | wakes (task : TaskPtr) : Begins s (.taskWake task) (taskWake s task)
  | ticks : Begins s .timerHandler (countTick s)
  | slices (me : TaskPtr) (isCurrent : s.currentTask = some me) :
      Begins s .timerHandler (useTimeSlice (countTick s) me)

theorem scheduled_cases (returned : scheduled s call = some s') :
    ∃ middle, Begins s call middle ∧ (s' = middle ∨ taskSwitch middle = some s') := by
  cases call with
  | taskCreate request => contradiction
  | sysFork request => contradiction
  | taskSwitch => exact ⟨s, .nothing _ (by simp), .inr returned⟩
  | taskYield => exact ⟨s, .nothing _ (by simp), .inr returned⟩
  | taskExit =>
    simp only [scheduled, taskExit] at returned
    split at returned
    · cases returned
      exact ⟨s, .nothing _ (by simp), .inl rfl⟩
    · next me isCurrent => exact ⟨_, .retires me isCurrent, .inr returned⟩
  | taskSleep milliseconds =>
    simp only [scheduled, taskSleep, taskSleepUntil] at returned
    split at returned
    · cases returned
      exact ⟨s, .nothing _ (by simp), .inl rfl⟩
    · next me isCurrent => exact ⟨_, .sleeps me milliseconds isCurrent, .inr returned⟩
  | taskSleepUntil targetTicks =>
    simp only [scheduled, taskSleepUntil] at returned
    split at returned
    · cases returned
      exact ⟨s, .nothing _ (by simp), .inl rfl⟩
    · next me isCurrent => exact ⟨_, .sleepsUntil me targetTicks isCurrent, .inr returned⟩
  | taskBlock waitQueue =>
    obtain ⟨⟨after, head⟩, blocked, rfl⟩ := map_eq_some_iff.mp returned
    simp only [taskBlock] at blocked
    split at blocked
    · cases blocked
      exact ⟨s, .nothing _ (by simp), .inl rfl⟩
    · next me isCurrent =>
      obtain ⟨⟨queued, first⟩, enqueued, rest⟩ := bind_eq_some_iff.mp blocked
      obtain ⟨switched, taken, last⟩ := bind_eq_some_iff.mp rest
      cases last
      exact ⟨queued, .parks me waitQueue first queued isCurrent enqueued, .inr taken⟩
  | taskUnblock waitQueue =>
    cases returned
    cases waitQueue with
    | none => exact ⟨s, .nothing _ (by simp), .inl rfl⟩
    | some head => exact ⟨_, .unblocks head, .inl rfl⟩
  | taskWake task =>
    cases returned
    exact ⟨_, .wakes task, .inl rfl⟩
  | timerHandler =>
    simp only [scheduled, timerHandler] at returned
    split at returned
    · cases returned
      exact ⟨_, .ticks, .inl rfl⟩
    · next me isCurrent =>
      refine ⟨_, .slices me isCurrent, ?_⟩
      split at returned
      · exact .inr returned
      · exact .inl (some.inj returned).symm

theorem Begins.keepsTasks {middle : Sched} (begins : Begins s call middle) :
    KeepsTasks s middle ∧ middle.currentTask = s.currentTask := by
  cases begins with
  | nothing call notTick => exact ⟨.refl s, rfl⟩
  | retires me isCurrent => exact ⟨modify_keepsTasks s me _ (fun _ => rfl) (fun _ => rfl), rfl⟩
  | sleeps me milliseconds isCurrent =>
    exact ⟨modify_keepsTasks s me _ (fun _ => rfl) (fun _ => rfl), rfl⟩
  | sleepsUntil me targetTicks isCurrent =>
    exact ⟨modify_keepsTasks s me _ (fun _ => rfl) (fun _ => rfl), rfl⟩
  | parks me waitQueue head queued isCurrent enqueued => exact enqueueCurrent_keepsTasks enqueued
  | unblocks head =>
    exact ⟨(setNextInQueue_keepsTasks s head none).trans (taskWake_keepsTasks _ head),
      taskWake_current _ head⟩
  | wakes task => exact ⟨taskWake_keepsTasks s task, taskWake_current s task⟩
  | ticks => exact ⟨⟨fun _ => rfl, fun _ => rfl, rfl, rfl, rfl⟩, rfl⟩
  | slices me isCurrent => exact ⟨useTimeSlice_keepsTasks s me, rfl⟩

theorem Begins.ringOk {middle : Sched} (begins : Begins s call middle) (ok : RingOk s ring) :
    RingOk middle ring := by
  obtain ⟨keeps, current⟩ := begins.keepsTasks
  exact keeps.ringOk ok fun p same => ok.current p (current ▸ same)

theorem scheduled_keepsTasks (ok : RingOk s ring) (returned : scheduled s call = some s') :
    KeepsTasks s s' ∧ RingOk s' ring := by
  obtain ⟨middle, begins, rfl | switched⟩ := scheduled_cases returned
  · exact ⟨begins.keepsTasks.1, begins.ringOk ok⟩
  · obtain ⟨rest, ok'⟩ := taskSwitch_keepsTasks (begins.ringOk ok) switched
    exact ⟨begins.keepsTasks.1.trans rest, ok'⟩

end

structure TaskListInv (trace : TaskTrace) (ring : List TaskPtr) : Prop where
  ok : RingOk trace.sched ring
  created : ring.Perm trace.tasks
  below : ∀ p ∈ ring, (trace.sched.tasks p).id.toNat < trace.sched.nextTaskId.toNat
  distinct : ∀ p ∈ ring, ∀ q ∈ ring,
    (trace.sched.tasks p).id = (trace.sched.tasks q).id → p = q
  stackPages : ∀ c ∈ trace.created, c.stackPage = stackPage ((trace.sched.tasks c.task).id + 1)
  counter : trace.sched.nextTaskId.toNat ≤ trace.calls + 1

section

variable (inv : TaskListInv before ring)

include inv

theorem TaskListInv.task_mem {c : Creation} (member : c ∈ before.created) : c.task ∈ ring :=
  inv.created.mem_iff.mpr (List.mem_map_of_mem member)

theorem TaskListInv.keeps (keeps : KeepsTasks before.sched s) (ok : RingOk s ring) :
    TaskListInv (before.withSched s) ring where
  ok := ok
  created := inv.created
  below := by
    intro p member
    simp only [TaskTrace.withSched, keeps.id, keeps.globals.2.2]
    exact inv.below p member
  distinct := by
    intro p first q second
    simp only [TaskTrace.withSched, keeps.id]
    exact inv.distinct p first q second
  stackPages := by
    intro c member
    simp only [TaskTrace.withSched, keeps.id]
    exact inv.stackPages c member
  counter := by
    simp only [TaskTrace.withSched, keeps.globals.2.2]
    exact inv.counter

theorem TaskListInv.counter_next (few : before.calls + 1 < 0x1FFFF) :
    (before.sched.nextTaskId + 1).toNat = before.sched.nextTaskId.toNat + 1 := by
  have counter := inv.counter
  rw [UInt32.toNat_add, show (1 : UInt32).toNat = 1 from rfl]
  omega

theorem TaskListInv.refused (few : before.calls + 1 < 0x1FFFF)
    (refused : Refused before.sched s ring) : TaskListInv (before.record (s, none)) ring := by
  have next := inv.counter_next few
  have grows : before.sched.nextTaskId.toNat ≤ s.nextTaskId.toNat ∧
      s.nextTaskId.toNat ≤ before.sched.nextTaskId.toNat + 1 := by
    obtain same | moved := refused.counter
    · rw [same]
      omega
    · rw [moved]
      omega
  refine ⟨refused.ok, inv.created, ?_, ?_, ?_, ?_⟩
  · intro p member
    have below := inv.below p member
    simp only [TaskTrace.record, refused.ids p member]
    omega
  · intro p first q second
    simp only [TaskTrace.record, refused.ids p first, refused.ids q second]
    exact inv.distinct p first q second
  · intro c member
    simp only [TaskTrace.record, refused.ids _ (inv.task_mem member)]
    exact inv.stackPages c member
  · have counter := inv.counter
    simp only [TaskTrace.record]
    omega

theorem TaskListInv.added {p : TaskPtr} {ring' : List TaskPtr} (few : before.calls + 1 < 0x1FFFF)
    (fresh : p ∉ ring) (added : Added before.sched s ring ring' p) :
    TaskListInv (before.record (s, some p)) ring' := by
  have next := inv.counter_next few
  have perm := added.perm
  have cases : ∀ q ∈ ring', q = p ∨ q ∈ ring := fun q member =>
    mem_cons.mp (perm.mem_iff.mp member)
  -- The new number is not that of an old task, which are all below the counter.
  have newId : ∀ q ∈ ring, (s.tasks q).id ≠ (s.tasks p).id := by
    intro q member same
    have below := inv.below q member
    rw [added.ids q member, added.id] at same
    rw [same] at below
    omega
  refine ⟨added.ok, perm.trans (inv.created.cons p), ?_, ?_, ?_, ?_⟩
  · intro q member
    simp only [TaskTrace.record, added.counter, next]
    obtain rfl | old := cases q member
    · rw [added.id]
      omega
    · have below := inv.below q old
      rw [added.ids q old]
      omega
  · intro q first q' second same
    simp only [TaskTrace.record] at same
    obtain rfl | old := cases q first
    · obtain rfl | old' := cases q' second
      · rfl
      · exact absurd same.symm (newId q' old')
    · obtain rfl | old' := cases q' second
      · exact absurd same (newId q old)
      · rw [added.ids q old, added.ids q' old'] at same
        exact inv.distinct q old q' old' same
  · intro c member
    simp only [TaskTrace.record] at member ⊢
    obtain rfl | old := mem_cons.mp member
    · simp only [added.counter, added.id]
    · rw [added.ids _ (inv.task_mem old)]
      exact inv.stackPages c old
  · have counter := inv.counter
    simp only [TaskTrace.record, added.counter, next]
    omega

end

theorem sysFork_sched (s : Sched) (r : ForkRequest) : (sysFork s r).1 = (forkTask s r).1 := by
  unfold sysFork
  split <;> simp_all

theorem taskStep_cases (taken : taskStep before call = some (after, events)) :
    (∃ request, call = .taskCreate request ∧
      after = before.record (taskCreate before.sched request)) ∨
    (∃ request, call = .sysFork request ∧
      after = before.record (forkTask before.sched request)) ∨
    ∃ s, scheduled before.sched call = some s ∧ after = before.withSched s := by
  have schedules : ∀ other, (scheduled before.sched other).map
      (fun sched => (before.withSched sched, ([] : List Empty))) = some (after, events) →
      ∃ s, scheduled before.sched other = some s ∧ after = before.withSched s := by
    intro other returned
    obtain ⟨s, result, same⟩ := map_eq_some_iff.mp returned
    exact ⟨s, result, (congrArg Prod.fst same).symm⟩
  cases call with
  | taskCreate request =>
    exact .inl ⟨request, rfl, (congrArg Prod.fst (some.inj taken)).symm⟩
  | sysFork request =>
    simp only [taskStep, sysFork_sched] at taken
    exact .inr (.inl ⟨request, rfl, (congrArg Prod.fst (some.inj taken)).symm⟩)
  | taskSwitch => exact .inr (.inr (schedules _ taken))
  | taskYield => exact .inr (.inr (schedules _ taken))
  | taskExit => exact .inr (.inr (schedules _ taken))
  | taskSleep milliseconds => exact .inr (.inr (schedules (.taskSleep milliseconds) taken))
  | taskSleepUntil target => exact .inr (.inr (schedules (.taskSleepUntil target) taken))
  | taskBlock waitQueue => exact .inr (.inr (schedules (.taskBlock waitQueue) taken))
  | taskUnblock waitQueue => exact .inr (.inr (schedules (.taskUnblock waitQueue) taken))
  | taskWake task => exact .inr (.inr (schedules (.taskWake task) taken))
  | timerHandler => exact .inr (.inr (schedules _ taken))

theorem TaskListInv.record (inv : TaskListInv before ring) (few : before.calls + 1 < 0x1FFFF)
    {result : Sched × Option TaskPtr}
    (created : (result.2 = none ∧ Refused before.sched result.1 ring) ∨
      ∃ p ring', result.2 = some p ∧ p ∉ ring ∧ Added before.sched result.1 ring ring' p) :
    ∃ ring', TaskListInv (before.record result) ring' := by
  obtain ⟨s, task⟩ := result
  obtain ⟨rfl, refused⟩ | ⟨p, ring', rfl, fresh, added⟩ := created
  · exact ⟨ring, inv.refused few refused⟩
  · exact ⟨ring', inv.added few fresh added⟩

theorem taskStep_inv (inv : TaskListInv before ring) (met : FreshMemory before call)
    (few : after.calls < 0x1FFFF) (taken : taskStep before call = some (after, events)) :
    ∃ ring', TaskListInv after ring' := by
  obtain ⟨request, rfl, rfl⟩ | ⟨request, rfl, rfl⟩ | ⟨s, result, rfl⟩ := taskStep_cases taken
  · refine inv.record few (taskCreate_cases inv.ok request ?_)
    exact fun p memory listed => met p memory (inv.created.mem_iff.mp listed)
  · refine inv.record few (forkTask_cases inv.ok request ?_)
    exact fun p memory listed => met p memory (inv.created.mem_iff.mp listed)
  · obtain ⟨keeps, ok⟩ := scheduled_keepsTasks inv.ok result
    exact ⟨ring, inv.keeps keeps ok⟩

theorem taskStep_calls (taken : taskStep before call = some (after, events)) :
    before.calls ≤ after.calls := by
  obtain ⟨_, -, rfl⟩ | ⟨_, -, rfl⟩ | ⟨_, -, rfl⟩ := taskStep_cases taken
  · exact Nat.le_succ _
  · exact Nat.le_succ _
  · exact Nat.le_refl _

theorem searchId_path {s : Sched} (id : UInt32) {list current : TaskPtr} {rest : List TaskPtr}
    {fuel : Nat}
    (path : Path (fun p => (s.tasks p).next) (some current) (current :: rest) (some list))
    (outside : list ∉ rest) (enough : rest.length < fuel) :
    searchId s id list fuel current =
      some ((current :: rest).find? (fun p => (s.tasks p).id == id)) := by
  induction rest generalizing current fuel with
  | nil =>
    obtain ⟨fuel, rfl⟩ : ∃ n, fuel = n + 1 := ⟨fuel - 1, by omega⟩
    have link : (s.tasks current).next = some list := path.2
    by_cases here : (s.tasks current).id = id <;> simp [searchId, here, link]
  | cons following rest ih =>
    obtain ⟨fuel, rfl⟩ : ∃ n, fuel = n + 1 := ⟨fuel - 1, by omega⟩
    have link : (s.tasks current).next = some following := path.2.1
    have different : following ≠ list := by
      rintro rfl
      simp at outside
    have onward := ih ⟨rfl, path.2.2⟩ (fun h => outside (by simp [h]))
      (by simpa using enough)
    by_cases here : (s.tasks current).id = id
    · simp [searchId, here]
    · simp [searchId, here, link, different, onward]

theorem taskGetById_ring (ok : RingOk s ring) (id : UInt32) :
    taskGetById s id = some (ring.find? (fun p => (s.tasks p).id == id)) := by
  unfold taskGetById
  cases listed : s.taskList with
  | none =>
    obtain rfl := ok.empty listed
    rfl
  | some list =>
    obtain ⟨path, nonempty⟩ := ok.linked list listed
    obtain ⟨x, rest, rfl⟩ := exists_cons_of_ne_nil nonempty
    obtain rfl : list = x := some.inj path.1
    have count := ok.count
    rw [length_cons] at count
    exact searchId_path id path (nodup_cons.mp ok.nodup).1 (by omega)

structure TaskListSound (trace : TaskTrace) : Prop where
  -- Following `next` from `task_list` visits the created tasks and is back after
  -- `task_count` steps.
  ring : ∃ ring : List TaskPtr, ring.Perm trace.tasks ∧ ring.Nodup ∧
    ring.length = trace.sched.taskCount.toNat ∧ (trace.sched.taskList = none → ring = []) ∧
    ∀ list, trace.sched.taskList = some list →
      RingPath (fun p => (trace.sched.tasks p).next) list ring
  below : ∀ p ∈ trace.tasks, (trace.sched.tasks p).id < trace.sched.nextTaskId
  ids : ∀ p ∈ trace.tasks, ∀ q ∈ trace.tasks,
    (trace.sched.tasks p).id = (trace.sched.tasks q).id → p = q
  stackPages : ∀ c ∈ trace.created,
    c.stackPage = 0xE0000000 + ((trace.sched.tasks c.task).id + 1) * 0x1000
  stackPagesApart : (trace.created.map Creation.stackPage).Nodup
  lookup : ∀ id, ∃ found, taskGetById trace.sched id = some found ∧
    (∀ p, found = some p → p ∈ trace.tasks ∧ (trace.sched.tasks p).id = id) ∧
    (found = none → ∀ p ∈ trace.tasks, (trace.sched.tasks p).id ≠ id)

theorem stackPage_injective {first second : UInt32} (low : first.toNat < 0x20000)
    (low' : second.toNat < 0x20000) (same : stackPage first = stackPage second) :
    first = second := by
  have value : ∀ k : UInt32, k.toNat < 0x20000 →
      (stackPage k).toNat = 0xE0000000 + k.toNat * 0x1000 := by
    intro k small
    unfold stackPage
    rw [UInt32.toNat_add, UInt32.toNat_mul, show (0xE0000000 : UInt32).toNat = 0xE0000000 from rfl,
      show (0x1000 : UInt32).toNat = 0x1000 from rfl]
    omega
  have numbers := congrArg UInt32.toNat same
  rw [value first low, value second low'] at numbers
  exact UInt32.toNat.inj (by omega)

theorem TaskListInv.sound {trace : TaskTrace} (inv : TaskListInv trace ring)
    (few : trace.calls < 0x1FFFF) : TaskListSound trace := by
  have counter := inv.counter
  have listed : ∀ p, p ∈ trace.tasks ↔ p ∈ ring := fun p => inv.created.mem_iff.symm
  have small : ∀ c ∈ trace.created, ((trace.sched.tasks c.task).id + 1).toNat =
      (trace.sched.tasks c.task).id.toNat + 1 ∧
      (trace.sched.tasks c.task).id.toNat + 1 < 0x20000 := by
    intro c member
    have below := inv.below c.task (inv.task_mem member)
    rw [UInt32.toNat_add, show (1 : UInt32).toNat = 1 from rfl]
    omega
  refine ⟨⟨ring, inv.created, inv.ok.nodup, inv.ok.count, inv.ok.empty, inv.ok.linked⟩, ?_, ?_,
    inv.stackPages, ?_, ?_⟩
  · intro p member
    exact UInt32.lt_iff_toNat_lt.mpr (inv.below p ((listed p).mp member))
  · intro p first q second
    exact inv.distinct p ((listed p).mp first) q ((listed q).mp second)
  · have distinct : trace.tasks.Nodup := inv.created.nodup_iff.mp inv.ok.nodup
    refine (List.Nodup.of_map Creation.task distinct).map_on ?_
    intro c first c' second same
    rw [inv.stackPages c first, inv.stackPages c' second] at same
    obtain ⟨value, bound⟩ := small c first
    obtain ⟨value', bound'⟩ := small c' second
    have numbers := congrArg UInt32.toNat (stackPage_injective (by omega) (by omega) same)
    have tasks := inv.distinct c.task (inv.task_mem first) c'.task (inv.task_mem second)
      (UInt32.toNat.inj (by omega))
    exact inj_on_of_nodup_map distinct first second tasks
  · intro id
    refine ⟨_, taskGetById_ring inv.ok id, ?_, ?_⟩
    · intro p found
      have hit := List.find?_some found
      exact ⟨(listed p).mpr (List.mem_of_find?_eq_some found), by simpa using hit⟩
    · intro missing p member
      have passed := List.find?_eq_none.mp missing p ((listed p).mp member)
      simpa using passed

theorem taskInit_inv (s : Sched) : TaskListInv ⟨taskInit s, [], 0⟩ [] where
  ok := ⟨nofun, fun _ => rfl, nodup_nil, rfl, nofun⟩
  created := .nil
  below := nofun
  distinct := nofun
  stackPages := nofun
  counter := Nat.le_refl 1

def blankSched : Sched where
  tasks := fun _ => ⟨0, 0, 0, 0, 0, .ready, 0, 0, none, none, 0, []⟩
  taskList := none
  currentTask := none
  nextTaskId := 0
  taskCount := 0
  ticks := 0
  esp := 0
  stack := fun _ => 0

def createAt (p : TaskPtr) : TaskCall :=
  .taskCreate ⟨0, 0, none, 0, some p, true⟩

end ArgoOS.Tasking
