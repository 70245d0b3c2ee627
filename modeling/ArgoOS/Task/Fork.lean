import ArgoOS.Task.Create

set_option autoImplicit false

/-! # Forking, and the list of all tasks -/

namespace ArgoOS.Tasking

open Linked ArgoOS.Tasking.System Function

-- What the allocations of a call of `sys_fork` return.
structure ForkRequest where
  memory : Option TaskPtr
  stackPageLeft : Bool
deriving DecidableEq, Repr

def copyTask (s : Sched) (parent child : TaskPtr) : Sched :=
  { s with
    tasks := Function.update s.tasks child
      { s.tasks parent with id := s.nextTaskId, state := .ready }
    nextTaskId := s.nextTaskId + 1 }

-- The first `n` words of the parent's context, one after the other.
def copyContext (stack : UInt32 → UInt32) (parentStack childStack : UInt32) :
    Nat → UInt32 → UInt32
  | 0 => stack
  | n + 1 =>
    let stack := copyContext stack parentStack childStack n
    Function.update stack (childStack + 4 * UInt32.ofNat n)
      (stack (parentStack + 4 * UInt32.ofNat n))

def forkStack (s : Sched) (parent child : TaskPtr) (childStack : UInt32) : Sched :=
  let stack := copyContext s.stack (s.tasks parent).esp childStack 11
  let s := { s with stack := Function.update stack (childStack + 28) 0 }
  s.modify child fun t => { t with esp := childStack }

-- Unlike `task_create`, this leaves `task_list` at the task where it was.
def linkFork (s : Sched) (child : TaskPtr) : Sched :=
  match s.taskList with
  | none => { s.modify child fun t => { t with next := some child } with taskList := some child }
  | some list =>
    let s := s.modify child fun t => { t with next := (s.tasks list).next }
    s.modify list fun t => { t with next := some child }

-- The child, or none where `sys_fork` returns -1.
def forkTask (s : Sched) (r : ForkRequest) : Sched × Option TaskPtr :=
  match taskGetCurrent s with
  | none => (s, none)
  | some parent =>
    if maxTasks ≤ s.taskCount then (s, none)
    else
      match r.memory with
      | none => (s, none)
      | some child =>
        let s := copyTask s parent child
        let stackTop := createKernelStack s r.stackPageLeft
        if stackTop = 0 then (s, none)
        else
          let s := linkFork (forkStack s parent child (stackTop - 44)) child
          ({ s with taskCount := s.taskCount + 1 }, some child)

def sysFork (s : Sched) (r : ForkRequest) : Sched × Int32 :=
  match forkTask s r with
  | (s, none) => (s, -1)
  | (s, some child) => (s, (s.tasks child).id.toInt32)

-- The loop of `task_get_by_id` from `current` until it is back at `list`.
def searchId (s : Sched) (id : UInt32) (list : TaskPtr) : Nat → TaskPtr → Option (Option TaskPtr)
  | 0, _ => none
  | fuel + 1, current =>
    if (s.tasks current).id = id then some (some current)
    else
      match (s.tasks current).next with
      | none => none
      | some following => if following = list then some none else searchId s id list fuel following

def taskGetById (s : Sched) (id : UInt32) : Option (Option TaskPtr) :=
  match s.taskList with
  | none => some none
  | some list => searchId s id list s.taskCount.toNat list

variable {s : Sched} {ring : List TaskPtr}

section

structure KeepsTasks (s s' : Sched) : Prop where
  next : ∀ p, (s'.tasks p).next = (s.tasks p).next
  id : ∀ p, (s'.tasks p).id = (s.tasks p).id
  globals : s'.taskList = s.taskList ∧ s'.taskCount = s.taskCount ∧ s'.nextTaskId = s.nextTaskId

theorem KeepsTasks.refl (s : Sched) : KeepsTasks s s :=
  ⟨fun _ => rfl, fun _ => rfl, rfl, rfl, rfl⟩

theorem KeepsTasks.trans {a b c : Sched} (first : KeepsTasks a b) (second : KeepsTasks b c) :
    KeepsTasks a c :=
  ⟨fun p => (second.next p).trans (first.next p), fun p => (second.id p).trans (first.id p),
    second.globals.1.trans first.globals.1, second.globals.2.1.trans first.globals.2.1,
    second.globals.2.2.trans first.globals.2.2⟩

theorem modify_keepsTasks (s : Sched) (p : TaskPtr) (f : Task → Task)
    (next : ∀ t, (f t).next = t.next) (id : ∀ t, (f t).id = t.id) :
    KeepsTasks s (s.modify p f) := by
  refine ⟨?_, ?_, rfl, rfl, rfl⟩
  · intro q
    by_cases same : q = p <;> simp [Sched.modify, same, next]
  · intro q
    by_cases same : q = p <;> simp [Sched.modify, same, id]

variable {s' : Sched}

theorem KeepsTasks.ringOk (keeps : KeepsTasks s s') (ok : RingOk s ring)
    (current : ∀ p, s'.currentTask = some p → p ∈ ring) : RingOk s' ring :=
  ok.congr (fun p _ => keeps.next p) keeps.globals.1 keeps.globals.2.1 current

theorem woken_id (s : Sched) (ring : List TaskPtr) (p : TaskPtr) :
    (woken s ring p).id = (s.tasks p).id := by
  unfold woken wakeIfDue
  split_ifs <;> rfl

theorem switchTo_keepsTasks (s : Sched) (chosen : TaskPtr) : KeepsTasks s (switchTo s chosen) := by
  have picked := modify_keepsTasks { s with currentTask := some chosen } chosen
    (fun t => { t with state := .running, timeSlice := defaultTimeSlice }) (fun _ => rfl)
    (fun _ => rfl)
  unfold switchTo
  cases s.currentTask with
  | none => exact ⟨picked.next, picked.id, picked.globals⟩
  | some prev =>
    simp only
    split
    · exact ⟨picked.next, picked.id, picked.globals⟩
    · have saved := modify_keepsTasks (({ s with currentTask := some chosen } : Sched).modify chosen
        (fun t => { t with state := .running, timeSlice := defaultTimeSlice })) prev
        (fun t => { t with state := if t.state = .running then .ready else t.state, esp := s.esp })
        (fun _ => rfl) (fun _ => rfl)
      have both := picked.trans saved
      exact ⟨both.next, both.id, both.globals⟩

theorem taskSwitch_keepsTasks (ok : RingOk s ring) (switched : taskSwitch s = some s') :
    KeepsTasks s s' ∧ RingOk s' ring := by
  obtain ⟨after, result, effect⟩ := taskSwitch_effect ok
  cases Option.some.inj (switched.symm.trans result)
  refine ⟨?_, effect.ok⟩
  have awake : KeepsTasks s { s with tasks := woken s ring } :=
    ⟨fun p => woken_next s ring p, woken_id s ring, rfl, rfl, rfl⟩
  rw [taskSwitch_eq ok] at switched
  split at switched
  · cases switched
    exact awake.trans (switchTo_keepsTasks _ _)
  · cases switched
    exact awake

end

section

variable {p : TaskPtr}

theorem linkFork_tasks (s : Sched) (p : TaskPtr) : (linkFork s p).tasks = (linkTask s p).tasks := by
  unfold linkFork linkTask
  cases s.taskList <;> rfl

theorem linkTask_id (s : Sched) (p q : TaskPtr) :
    ((linkTask s p).tasks q).id = (s.tasks q).id := by
  unfold linkTask
  split
  next => by_cases atNew : q = p <;> simp [Sched.modify, atNew]
  next list _ =>
    by_cases atList : q = list <;> by_cases atNew : q = p <;>
      simp_all [Sched.modify, update_apply]

theorem linkTask_frame (s : Sched) (p q : TaskPtr) :
    (linkTask s p).tasks q = { s.tasks q with next := ((linkTask s p).tasks q).next } := by
  unfold linkTask
  split
  next => by_cases atNew : q = p <;> simp [Sched.modify, atNew]
  next list _ =>
    by_cases atList : q = list <;> by_cases atNew : q = p <;>
      simp_all [Sched.modify, update_apply]

theorem linkTask_nextTaskId (s : Sched) (p : TaskPtr) :
    (linkTask s p).nextTaskId = s.nextTaskId := by
  unfold linkTask
  split <;> rfl

def forkRing (ring : List TaskPtr) (p : TaskPtr) : List TaskPtr :=
  match ring with
  | [] => [p]
  | list :: rest => list :: p :: rest

theorem forkRing_perm (ring : List TaskPtr) (p : TaskPtr) : (forkRing ring p).Perm (p :: ring) := by
  cases ring with
  | nil => exact .refl _
  | cons list rest => exact .swap p list rest

def forkedRing (ring : List TaskPtr) : Option TaskPtr → List TaskPtr
  | none => ring
  | some child => forkRing ring child

theorem linkFork_globals (s : Sched) (p : TaskPtr) :
    (linkFork s p).taskList = (s.taskList <|> some p) ∧ (linkFork s p).taskCount = s.taskCount ∧
      (linkFork s p).currentTask = s.currentTask ∧ (linkFork s p).nextTaskId = s.nextTaskId := by
  unfold linkFork
  split
  next unlisted => simp [unlisted, Sched.modify]
  next list listed => simp [listed, Sched.modify]

theorem linkFork_ring (ok : RingOk s ring) (fresh : p ∉ ring) {list : TaskPtr}
    (listed : (linkFork s p).taskList = some list) :
    RingPath (fun q => ((linkFork s p).tasks q).next) list (forkRing ring p) := by
  rw [(linkFork_globals s p).1] at listed
  cases head : s.taskList with
  | none =>
    obtain rfl := ok.empty head
    rw [head] at listed
    cases listed
    simp [RingPath, forkRing, linkFork, head, Sched.modify]
  | some first =>
    rw [head] at listed
    cases listed
    obtain ⟨rest, rfl, linked⟩ := ok.insert p list fresh head
    rw [linkFork_tasks, linkTask_next p head]
    exact linked

theorem RingOk.fork (ok : RingOk s ring) (fresh : p ∉ ring) (below : s.taskCount < maxTasks) :
    RingOk { linkFork s p with taskCount := (linkFork s p).taskCount + 1 } (forkRing ring p) := by
  obtain ⟨listed, count, current, -⟩ := linkFork_globals s p
  obtain ⟨list, isList⟩ : ∃ list, (linkFork s p).taskList = some list := by
    rw [listed]
    cases s.taskList with
    | none => exact ⟨p, rfl⟩
    | some list => exact ⟨list, rfl⟩
  exact ok.grow fresh below (forkRing_perm ring p) (congrArg (· + 1) count) current isList
    (linkFork_ring ok fresh isList)

end

section

structure Refused (s s' : Sched) (ring : List TaskPtr) : Prop where
  ok : RingOk s' ring
  ids : ∀ q ∈ ring, (s'.tasks q).id = (s.tasks q).id
  counter : s'.nextTaskId = s.nextTaskId ∨ s'.nextTaskId = s.nextTaskId + 1

structure Added (s s' : Sched) (ring ring' : List TaskPtr) (p : TaskPtr) : Prop where
  ok : RingOk s' ring'
  perm : ring'.Perm (p :: ring)
  ids : ∀ q ∈ ring, (s'.tasks q).id = (s.tasks q).id
  id : (s'.tasks p).id = s.nextTaskId
  counter : s'.nextTaskId = s.nextTaskId + 1

theorem Refused.refl (ok : RingOk s ring) : Refused s s ring :=
  ⟨ok, fun _ _ => rfl, .inl rfl⟩

theorem taskCreate_cases (ok : RingOk s ring) (r : CreateRequest)
    (fresh : ∀ p ∈ r.memory, p ∉ ring) :
    ((taskCreate s r).2 = none ∧ Refused s (taskCreate s r).1 ring) ∨
    ∃ p ring', (taskCreate s r).2 = some p ∧ p ∉ ring ∧
      Added s (taskCreate s r).1 ring ring' p := by
  have effect := (taskCreate_effect r ok fresh).1.ok
  by_cases full : maxTasks ≤ s.taskCount
  · rw [taskCreate, if_pos full]
    exact .inl ⟨rfl, .refl ok⟩
  cases memory : r.memory with
  | none =>
    rw [taskCreate, if_neg full, memory]
    exact .inl ⟨rfl, .refl ok⟩
  | some p =>
    have outside := fresh p memory
    have recorded := recordTask_effect r ok outside
    simp only [taskCreate, full, memory, if_false] at effect ⊢
    split at effect
    · next noStack =>
      rw [if_pos noStack]
      exact .inl ⟨rfl, effect, fun q member => by rw [recorded.2 q member], .inr rfl⟩
    · next stack =>
      rw [if_neg stack]
      have ids : ∀ q, ((linkTask (setUpStack (recordTask s r p) r p
          (createKernelStack (recordTask s r p) r.stackPageLeft - 24)) p).tasks q).id =
          ((recordTask s r p).tasks q).id := by
        intro q
        rw [linkTask_id]
        by_cases same : q = p <;> simp [setUpStack, Sched.modify, same]
      refine .inr ⟨p, _, rfl, outside, effect, ringWith_perm ring p, ?_, ?_, ?_⟩
      · intro q member
        rw [ids, recorded.2 q member]
      · rw [ids]
        simp [recordTask, newTask]
      · exact linkTask_nextTaskId _ p

theorem copyTask_others {parent child : TaskPtr} (outside : child ∉ ring) (q : TaskPtr)
    (member : q ∈ ring) : (copyTask s parent child).tasks q = s.tasks q := by
  refine update_of_ne ?_ _ _
  rintro rfl
  exact outside member

theorem forkStack_keepsTasks (s : Sched) (parent child : TaskPtr) (childStack : UInt32) :
    KeepsTasks s (forkStack s parent child childStack) := by
  have keeps := modify_keepsTasks { s with
    stack := update (copyContext s.stack (s.tasks parent).esp childStack 11)
      (childStack + 28) 0 } child (fun t => { t with esp := childStack }) (fun _ => rfl)
    (fun _ => rfl)
  exact ⟨keeps.next, keeps.id, keeps.globals⟩

theorem forkTask_ringOk (ok : RingOk s ring) {r : ForkRequest}
    (fresh : ∀ p ∈ r.memory, p ∉ ring) :
    RingOk (forkTask s r).1 (forkedRing ring (forkTask s r).2) := by
  unfold forkTask
  cases taskGetCurrent s with
  | none => exact ok
  | some parent =>
    simp only
    split
    · exact ok
    · next room =>
      cases memory : r.memory with
      | none => exact ok
      | some child =>
        have outside := fresh child memory
        have copied : RingOk (copyTask s parent child) ring :=
          ok.congr (fun q member => by rw [copyTask_others outside q member]) rfl rfl ok.current
        simp only
        split
        · exact copied
        · generalize createKernelStack (copyTask s parent child) r.stackPageLeft - 44 = base
          have stacked := forkStack_keepsTasks (copyTask s parent child) parent child base
          exact (stacked.ringOk copied copied.current).fork outside (UInt32.not_le.mp room)

theorem forkTask_cases (ok : RingOk s ring) (r : ForkRequest)
    (fresh : ∀ p ∈ r.memory, p ∉ ring) :
    ((forkTask s r).2 = none ∧ Refused s (forkTask s r).1 ring) ∨
    ∃ p ring', (forkTask s r).2 = some p ∧ p ∉ ring ∧
      Added s (forkTask s r).1 ring ring' p := by
  have linked := forkTask_ringOk ok fresh
  unfold forkTask at linked ⊢
  cases current : taskGetCurrent s with
  | none => exact .inl ⟨rfl, .refl ok⟩
  | some parent =>
    simp only [current] at linked ⊢
    split
    · exact .inl ⟨rfl, .refl ok⟩
    · next room =>
      cases memory : r.memory with
      | none => exact .inl ⟨rfl, .refl ok⟩
      | some child =>
        have outside := fresh child memory
        have same : ∀ q ∈ ring, (copyTask s parent child).tasks q = s.tasks q :=
          copyTask_others outside
        simp only [room, memory, if_false] at linked ⊢
        split at linked
        · next noStack =>
          rw [if_pos noStack]
          exact .inl ⟨rfl, linked, fun q member => by rw [same q member], .inr rfl⟩
        · next stack =>
          rw [if_neg stack]
          have stacked := forkStack_keepsTasks (copyTask s parent child) parent child
            (createKernelStack (copyTask s parent child) r.stackPageLeft - 44)
          refine .inr ⟨child, _, rfl, outside, linked, forkRing_perm ring child, ?_, ?_, ?_⟩
          · intro q member
            simp only [linkFork_tasks, linkTask_id, stacked.id, same q member]
          · simp only [linkFork_tasks, linkTask_id, stacked.id]
            simp [copyTask]
          · exact (linkFork_globals _ child).2.2.2

theorem taskCreate_frame (s : Sched) (r : CreateRequest) (q : TaskPtr) (other : q ∉ r.memory) :
    (taskCreate s r).1.tasks q = { s.tasks q with next := ((taskCreate s r).1.tasks q).next } := by
  unfold taskCreate
  split
  · rfl
  cases memory : r.memory with
  | none => rfl
  | some p =>
    have different : q ≠ p := by
      rintro rfl
      exact other memory
    have recorded := recordTask_others s r p q different
    simp only
    split
    · rw [recorded]
    · have stacked : (setUpStack (recordTask s r p) r p
          (createKernelStack (recordTask s r p) r.stackPageLeft - 24)).tasks q = s.tasks q :=
        (update_of_ne different _ _).trans recorded
      simp only
      rw [linkTask_frame, stacked]

theorem taskCreate_globals (s : Sched) (r : CreateRequest) :
    (taskCreate s r).1.currentTask = s.currentTask ∧ (taskCreate s r).1.ticks = s.ticks := by
  unfold taskCreate linkTask
  split
  · exact ⟨rfl, rfl⟩
  cases r.memory with
  | none => exact ⟨rfl, rfl⟩
  | some p =>
    simp only
    split
    · exact ⟨rfl, rfl⟩
    · split <;> exact ⟨rfl, rfl⟩

theorem forkTask_frame (s : Sched) (r : ForkRequest) (q : TaskPtr) (other : q ∉ r.memory) :
    (forkTask s r).1.tasks q = { s.tasks q with next := ((forkTask s r).1.tasks q).next } := by
  unfold forkTask
  cases taskGetCurrent s with
  | none => rfl
  | some parent =>
    simp only
    split
    · rfl
    cases memory : r.memory with
    | none => rfl
    | some child =>
      have different : q ≠ child := by
        rintro rfl
        exact other memory
      have copied : (copyTask s parent child).tasks q = s.tasks q :=
        update_of_ne different _ _
      simp only
      split
      · rw [copied]
      · have stacked : (forkStack (copyTask s parent child) parent child
            (createKernelStack (copyTask s parent child) r.stackPageLeft - 44)).tasks q =
            s.tasks q := (update_of_ne different _ _).trans copied
        simp only [linkFork_tasks]
        rw [linkTask_frame, stacked]

theorem forkTask_globals (s : Sched) (r : ForkRequest) :
    (forkTask s r).1.currentTask = s.currentTask ∧ (forkTask s r).1.ticks = s.ticks := by
  unfold forkTask linkFork
  cases taskGetCurrent s with
  | none => exact ⟨rfl, rfl⟩
  | some parent =>
    simp only
    split
    · exact ⟨rfl, rfl⟩
    cases r.memory with
    | none => exact ⟨rfl, rfl⟩
    | some child =>
      simp only
      split
      · exact ⟨rfl, rfl⟩
      · split <;> exact ⟨rfl, rfl⟩

theorem forkTask_moves (ok : RingOk s ring) (r : ForkRequest) (fresh : ∀ p ∈ r.memory, p ∉ ring) :
    Moves s (forkTask s r).1 ring (forkedRing ring (forkTask s r).2) where
  ok := forkTask_ringOk ok fresh
  grows := by
    intro p member
    unfold forkedRing
    split
    · exact member
    · exact (forkRing_perm _ _).mem_iff.mpr (List.mem_cons_of_mem _ member)
  links := by
    intro p member
    rw [Sched.queueLink, forkTask_frame s r p (fun memory => fresh p memory member)]
    rfl
  parked := by
    intro p member _
    rw [forkTask_frame s r p (fun memory => fresh p memory member)]
    exact Iff.rfl
  current := fun p same => .inl ((forkTask_globals s r).1 ▸ same)

end

end ArgoOS.Tasking
