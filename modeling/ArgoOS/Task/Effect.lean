import ArgoOS.Task.Fork

set_option autoImplicit false

namespace ArgoOS.Tasking

open Linked ArgoOS.Tasking.System Option Function

def Kernel.setQueueHead (k : Kernel) : WaitQueue → Option TaskPtr → Kernel
  | .mutex m, head => k.setMutex m { k.mutexes m with waitQueue := head }
  | .semaphore i, head => k.setSemaphore i { k.semaphores i with waitQueue := head }

@[simp] theorem Kernel.setQueueHead_sched (k : Kernel) (q : WaitQueue) (head : Option TaskPtr) :
    (k.setQueueHead q head).sched = k.sched := by
  cases q <;> rfl

theorem Kernel.queueHead_setQueueHead (k : Kernel) (q : WaitQueue) (head : Option TaskPtr) :
    (k.setQueueHead q head).queueHead q = head := by
  cases q <;> simp [setQueueHead, queueHead, setMutex, setSemaphore]

theorem Kernel.queueHead_setQueueHead_of_ne (k : Kernel) {q q' : WaitQueue}
    (head : Option TaskPtr) (other : q' ≠ q) :
    (k.setQueueHead q head).queueHead q' = k.queueHead q' := by
  cases q <;> cases q' <;> simp_all [setQueueHead, queueHead, setMutex, setSemaphore]

@[simp] theorem Kernel.setQueueHead_locked (k : Kernel) (q : WaitQueue) (head : Option TaskPtr)
    (m : Nat) : ((k.setQueueHead q head).mutexes m).locked = (k.mutexes m).locked := by
  cases q with
  | mutex m' => by_cases same : m = m' <;> simp [setQueueHead, setMutex, same]
  | semaphore i => rfl

@[simp] theorem Kernel.setQueueHead_owner (k : Kernel) (q : WaitQueue) (head : Option TaskPtr)
    (m : Nat) : ((k.setQueueHead q head).mutexes m).owner = (k.mutexes m).owner := by
  cases q with
  | mutex m' => by_cases same : m = m' <;> simp [setQueueHead, setMutex, same]
  | semaphore i => rfl

def Kernel.setOwner (k : Kernel) (m : Nat) (locked : Bool) (owner : Option TaskPtr) : Kernel :=
  k.setMutex m { k.mutexes m with locked, owner }

@[simp] theorem Kernel.queueHead_setOwner (k : Kernel) (m : Nat) (locked : Bool)
    (owner : Option TaskPtr) (q : WaitQueue) :
    (k.setOwner m locked owner).queueHead q = k.queueHead q := by
  cases q with
  | mutex m' => by_cases same : m' = m <;> simp [setOwner, queueHead, setMutex, same]
  | semaphore i => rfl

theorem Kernel.setOwner_self (k : Kernel) (m : Nat) (locked : Bool) (owner : Option TaskPtr) :
    ((k.setOwner m locked owner).mutexes m).locked = locked ∧
      ((k.setOwner m locked owner).mutexes m).owner = owner := by
  simp [setOwner, setMutex]

variable {m : Nat}

theorem Kernel.setOwner_of_ne (k : Kernel) {m' : Nat} (locked : Bool) (owner : Option TaskPtr)
    (other : m' ≠ m) : (k.setOwner m locked owner).mutexes m' = k.mutexes m' := by
  simp [setOwner, setMutex, other]

-- The mutex goes to the task that was taken off its queue.
def Kernel.handOver (k : Kernel) (m : Nat) (head : Option TaskPtr) (first : TaskPtr) : Kernel :=
  (k.setQueueHead (.mutex m) head).setOwner m true (some first)

theorem Kernel.handOver_self (k : Kernel) (m : Nat) (head : Option TaskPtr) (first : TaskPtr) :
    ((k.handOver m head first).mutexes m).locked = true ∧
      ((k.handOver m head first).mutexes m).owner = some first :=
  setOwner_self _ _ _ _

theorem Kernel.handOver_of_ne (k : Kernel) (m m' : Nat) (head : Option TaskPtr) (first : TaskPtr)
    (other : m' ≠ m) : (k.handOver m head first).mutexes m' = k.mutexes m' := by
  rw [handOver, setOwner_of_ne _ _ _ other]
  exact update_of_ne other _ _

def ZeroSleep (s : Sched) : Action → Prop
  | .sleep milliseconds => sleepTarget s milliseconds = 0
  | .sleepUntil targetTicks => targetTicks = 0
  | _ => False

def Blocks (sys : System) (me : TaskPtr) : Action → Prop
  | .lock m => (sys.kernel.mutexes m).locked = true ∧ (sys.kernel.mutexes m).owner ≠ some me
  | .wait i => (sys.kernel.semaphores i).count = 0
  | _ => False

-- `task_switch` finds a task other than `me`: one that is ready or whose sleep is over.
def OtherWakeable (sys : System) (me : TaskPtr) : Prop :=
  ∃ p ∈ sys.ring, p ≠ me ∧ Wakeable sys.kernel.sched.ticks (sys.kernel.sched.tasks p)

def BlockFinds (sys : System) (action : Action) : Prop :=
  ∀ me, sys.current = some me → Blocks sys me action → OtherWakeable sys me

instance (sys : System) (me : TaskPtr) : (action : Action) → Decidable (Blocks sys me action)
  | .lock _ => inferInstanceAs (Decidable (_ ∧ _))
  | .wait i => inferInstanceAs (Decidable ((sys.kernel.semaphores i).count = 0))
  | .create _ | .trylock _ | .unlock _ | .post _ | .yield | .sleep _ | .sleepUntil _ | .exit
  | .tick | .resume => inferInstanceAs (Decidable False)

instance (sys : System) (me : TaskPtr) : Decidable (OtherWakeable sys me) :=
  inferInstanceAs (Decidable (∃ p ∈ sys.ring, _))

instance (sys : System) (action : Action) : Decidable (BlockFinds sys action) :=
  decidable_of_iff (∀ me ∈ sys.current, Blocks sys me action → OtherWakeable sys me) Iff.rfl

inductive KernelCall where
  | act (action : Action)
  | fork (request : ForkRequest)
deriving DecidableEq, Repr

namespace System

def fork (sys : System) (request : ForkRequest) : Option (System × List Event) :=
  -- `kmalloc` does not hand out the memory of a task that exists.
  if ∃ p ∈ request.memory, p ∈ sys.ring then none
  else
    let (sched, child) := forkTask sys.kernel.sched request
    some ({ sys.withSched sched with ring := forkedRing sys.ring child }, [])

def kernelStep (sys : System) : KernelCall → Option (System × List Event)
  | .act action => sys.step action
  | .fork request => if sys.executing.isSome then none else sys.fork request

end System

-- The call a task is inside of. `woken` says that it was taken off its wait queue since,
-- `passed` that the clock has stood at the target or later since.
inductive Suspension where
  | exit
  | block (woken : Bool)
  | sleep (target : UInt32) (passed : Bool)
deriving DecidableEq, Repr

namespace Suspension

def DueAt (ticks : UInt32) : Suspension → Prop
  | .sleep target _ => target ≠ 0 ∧ target ≤ ticks
  | .exit | .block _ => False

instance (ticks : UInt32) : (suspension : Suspension) → Decidable (suspension.DueAt ticks)
  | .sleep _ _ => inferInstanceAs (Decidable (_ ∧ _))
  | .exit | .block _ => inferInstanceAs (Decidable False)

def Marks : Suspension → Task → Prop
  | .exit, t => t.state = .zombie
  | .block _, t => Parked t
  | .sleep target _, t => t.state = .blocked ∧ t.wakeTicks = target

end Suspension

def gaveUp (sys : System) (me : TaskPtr) : KernelCall → Option Suspension
  | .act .exit => some .exit
  | .act (.sleep milliseconds) =>
    some (.sleep (sleepTarget sys.kernel.sched milliseconds) false)
  | .act (.sleepUntil targetTicks) => some (.sleep targetTicks false)
  | .act (.lock m) => if Blocks sys me (.lock m) then some (.block false) else none
  | .act (.wait i) => if Blocks sys me (.wait i) then some (.block false) else none
  | _ => none

def Calm (t t' : Task) : Prop := t'.state = t.state ∧ t'.wakeTicks = t.wakeTicks

theorem Calm.refl (t : Task) : Calm t t := ⟨rfl, rfl⟩

structure Readied (sys : System) (call : KernelCall) (s : Sched) : Prop where
  ok : RingOk s sys.ring
  current : s.currentTask = sys.current
  others : ∀ p, sys.current ≠ some p → Calm (sys.kernel.sched.tasks p) (s.tasks p)
  kept : ∀ me, sys.current = some me → gaveUp sys me call = none →
    Calm (sys.kernel.sched.tasks me) (s.tasks me)
  marked : ∀ me suspension, sys.current = some me → gaveUp sys me call = some suspension →
    suspension.Marks (s.tasks me) ∧ s.ticks = sys.kernel.sched.ticks

def blockingCall : WaitQueue → Action
  | .mutex m => .lock m
  | .semaphore i => .wait i

structure Plain (sys : System) (call : KernelCall) : Prop where
  stays : ∀ me, sys.current = some me → gaveUp sys me call = none
  notWait : ∀ i, call ≠ .act (.wait i)
  notPost : ∀ i, call ≠ .act (.post i)

-- Everything a step can do, and the events it adds. The parameters of a case are
-- the data the step leaves behind.
inductive Performed (history : List Event) (sys : System) :
    KernelCall → System → List Event → Prop where
  | idle {call : KernelCall} (nobody : sys.current = none)
      (notPost : ∀ i, call ≠ .act (.post i)) : Performed history sys call sys []
  | tried (m : Nat) : Performed history sys (.act (.trylock m)) sys []
  | took {call : KernelCall} (plain : Plain sys call) (m : Nat) (me : TaskPtr)
      (free : (sys.kernel.mutexes m).locked = false) :
      Performed history sys call { sys with kernel := sys.kernel.setOwner m true (some me) }
        [.entered m me, .taken m me]
  | again {call : KernelCall} (plain : Plain sys call) (m : Nat) (me : TaskPtr)
      (holds : Holds sys m me) : Performed history sys call sys [.entered m me]
  | blocked (q : WaitQueue) (me : TaskPtr) (queued sched : Sched) (head : Option TaskPtr)
      (isCurrent : sys.current = some me) (blocks : Blocks sys me (blockingCall q))
      (enqueued : Enqueued sys.kernel.sched queued me head (waiting q history))
      (switch : taskSwitch queued = some sched)
      (effect : BlockEffect sys.kernel.sched sched sys.ring me head (waiting q history)) :
      Performed history sys (.act (blockingCall q))
        (sys.afterBlock ((sys.kernel.withSched sched).setQueueHead q head) me q).1
        (sys.afterBlock ((sys.kernel.withSched sched).setQueueHead q head) me q).2
  | lowered (i : Nat) (positive : 0 < (sys.kernel.semaphores i).count) :
      Performed history sys (.act (.wait i))
        { sys with
          kernel := (sys.kernel.setSemaphore i
            { sys.kernel.semaphores i with count := (sys.kernel.semaphores i).count - 1 }) } []
  | raised (i : Nat) (queue : waiting (.semaphore i) history = []) :
      Performed history sys (.act (.post i))
        { sys with
          kernel := (sys.kernel.setSemaphore i
            { sys.kernel.semaphores i with count := (sys.kernel.semaphores i).count + 1 }) } []
  | posted (i : Nat) (first : TaskPtr) (rest : List TaskPtr) (sched : Sched)
      (head : Option TaskPtr) (queue : waiting (.semaphore i) history = first :: rest)
      (effect : UnblockEffect sys.kernel.sched sched sys.ring first head rest)
      (calm : ∀ p, p ≠ first → Calm (sys.kernel.sched.tasks p) (sched.tasks p)) :
      Performed history sys (.act (.post i))
        { sys with kernel := (sys.kernel.withSched sched).setQueueHead (.semaphore i) head }
        [.granted (.semaphore i) first]
  | handed (m : Nat) (me first : TaskPtr) (rest : List TaskPtr) (sched : Sched)
      (head : Option TaskPtr) (idle : sys.pending me = none) (holds : Holds sys m me)
      (queue : waiting (.mutex m) history = first :: rest)
      (effect : UnblockEffect sys.kernel.sched sched sys.ring first head rest)
      (calm : ∀ p, p ≠ first → Calm (sys.kernel.sched.tasks p) (sched.tasks p)) :
      Performed history sys (.act (.unlock m))
        { sys with kernel := (sys.kernel.withSched sched).handOver m head first }
        [.granted (.mutex m) first, .left m me]
  | released (m : Nat) (me : TaskPtr) (idle : sys.pending me = none) (holds : Holds sys m me)
      (queue : waiting (.mutex m) history = []) :
      Performed history sys (.act (.unlock m))
        { sys with kernel := sys.kernel.setOwner m false none } [.left m me]
  | refused (m : Nat) (me : TaskPtr) : Performed history sys (.act (.unlock m)) sys [.left m me]
  | resumedLock (m : Nat) (me : TaskPtr) (isCurrent : sys.current = some me)
      (pending : sys.pending me = some (.mutex m)) :
      Performed history sys (.act .resume)
        { sys with pending := Function.update sys.pending me none } [.entered m me]
  | resumedWait (me : TaskPtr) (isCurrent : sys.current = some me) :
      Performed history sys (.act .resume)
        { sys with pending := Function.update sys.pending me none } []
  | switched {call : KernelCall} (s sched : Sched) (notWait : ∀ i, call ≠ .act (.wait i))
      (notPost : ∀ i, call ≠ .act (.post i)) (readied : Readied sys call s)
      (switch : taskSwitch s = some sched)
      (moves : Moves sys.kernel.sched sched sys.ring sys.ring)
      (parks : NoneParked sys.kernel.sched sched sys.ring sys.ring ∨
        ∀ action, call = .act action → ZeroSleep sys.kernel.sched action) :
      Performed history sys call (sys.withSched sched) []
  | ticked (sched : Sched) (touches : Touches sys.kernel.sched sched)
      (calm : ∀ p, Calm (sys.kernel.sched.tasks p) (sched.tasks p)) :
      Performed history sys (.act .tick) (sys.withSched sched) []
  | created (request : CreateRequest) (sched : Sched) (ring : List TaskPtr)
      (moves : Moves sys.kernel.sched sched sys.ring ring)
      (parks : NoneParked sys.kernel.sched sched sys.ring ring)
      (current : sched.currentTask = sys.current)
      (calm : ∀ p ∈ sys.ring, Calm (sys.kernel.sched.tasks p) (sched.tasks p)) :
      Performed history sys (.act (.create request)) { sys.withSched sched with ring } []
  | forked (request : ForkRequest) (sched : Sched) (ring : List TaskPtr)
      (moves : Moves sys.kernel.sched sched sys.ring ring)
      (current : sched.currentTask = sys.current)
      (calm : ∀ p ∈ sys.ring, Calm (sys.kernel.sched.tasks p) (sched.tasks p)) :
      Performed history sys (.fork request) { sys.withSched sched with ring } []

theorem afterBlock_waiting (sys : System) (kernel : Kernel) (me : TaskPtr) (q q' : WaitQueue)
    (log : List Event) :
    waiting q' ((sys.afterBlock kernel me q).2 ++ log) =
      if q = q' then waiting q' log ++ [me] else waiting q' log := by
  unfold System.afterBlock
  split
  · cases q <;> simp [waiting]
  · simp [waiting]

theorem afterBlock_fields (sys : System) (kernel : Kernel) (me : TaskPtr) (q : WaitQueue) :
    (sys.afterBlock kernel me q).1.kernel = kernel ∧ (sys.afterBlock kernel me q).1.ring = sys.ring ∧
      (∀ q' p, .granted q' p ∉ (sys.afterBlock kernel me q).2) ∧
      ∀ m p, .taken m p ∉ (sys.afterBlock kernel me q).2 := by
  unfold System.afterBlock
  split
  · cases q <;> simp
  · simp

section

variable {history : List Event} {sys sys' : System} {call : KernelCall} {events : List Event}

theorem block_performed (inv : SyncInv history sys) (q : WaitQueue) (me : TaskPtr)
    (isCurrent : sys.current = some me) (blocks : Blocks sys me (blockingCall q)) :
    ∃ sched head, taskBlock sys.kernel.sched (sys.kernel.queueHead q) = some (sched, head) ∧
      Performed history sys (.act (blockingCall q))
        (sys.afterBlock ((sys.kernel.withSched sched).setQueueHead q head) me q).1
        (sys.afterBlock ((sys.kernel.withSched sched).setQueueHead q head) me q).2 := by
  obtain ⟨queued, sched, head, blocked, enqueued, switch, effect⟩ :=
    taskBlock_effect
      inv.ring isCurrent (inv.chain q) (fun p member => inv.linked q p member)
      (inv.current_not_queued isCurrent q)
  exact ⟨sched, head, blocked,
    .blocked q me queued sched head isCurrent blocks enqueued switch effect⟩

theorem lock_performed (inv : SyncInv history sys)
    (called : sys.call (.lock m) = some (sys', events)) :
    Performed history sys (.act (.lock m)) sys' events := by
  cases isCurrent : sys.current with
  | none =>
    have idle : sys.kernel.sched.currentTask = none := isCurrent
    simp only [System.call, mutexLock, idle, isCurrent, bind_eq_bind, bind_some, pure] at called
    cases called
    exact .idle isCurrent (by simp)
  | some me =>
    have running : sys.kernel.sched.currentTask = some me := isCurrent
    by_cases blocks : Blocks sys me (.lock m)
    · obtain ⟨sched, head, blocked, performed⟩ := block_performed inv (.mutex m) me isCurrent blocks
      obtain ⟨locked, other⟩ := blocks
      have blocked' : taskBlock sys.kernel.sched (sys.kernel.mutexes m).waitQueue =
        some (sched, head) := blocked
      have kernel : mutexLock sys.kernel m =
          some ((sys.kernel.withSched sched).setQueueHead (.mutex m) head) := by
        simp [mutexLock, running, locked, other, blocked', Kernel.setQueueHead, Kernel.withSched]
      simp only [System.call, kernel, isCurrent, locked, other, bind_eq_bind,
        bind_some, Bool.true_eq_false, or_false, if_false, pure, some.injEq] at called
      rw [called] at performed
      exact performed
    have plain : Plain sys (.act (.lock m)) := by
      refine ⟨fun me' same => ?_, by simp, by simp⟩
      cases some.inj (isCurrent.symm.trans same)
      exact if_neg blocks
    cases locked : (sys.kernel.mutexes m).locked with
    | false =>
      simp [System.call, mutexLock, running, isCurrent, locked, lockEvents] at called
      obtain ⟨rfl, rfl⟩ := called
      exact .took plain m me locked
    | true =>
      have own : (sys.kernel.mutexes m).owner = some me := by
        by_contra other
        exact blocks ⟨locked, other⟩
      simp [System.call, mutexLock, running, isCurrent, locked, own, lockEvents] at called
      obtain ⟨rfl, rfl⟩ := called
      exact .again plain m me ⟨locked, own⟩

theorem wait_performed (inv : SyncInv history sys) {i : Nat}
    (called : sys.call (.wait i) = some (sys', events)) :
    Performed history sys (.act (.wait i)) sys' events := by
  by_cases empty : (sys.kernel.semaphores i).count = 0
  · cases isCurrent : sys.current with
    | none =>
      have idle : sys.kernel.sched.currentTask = none := isCurrent
      simp [System.call, semWait, empty, isCurrent, taskBlock, idle] at called
      obtain ⟨rfl, rfl⟩ := called
      have same : Performed history sys (.act (.wait i)) sys [] := .idle isCurrent (by simp)
      simpa [Kernel.withSched, Kernel.setSemaphore, ← empty] using same
    | some me =>
      obtain ⟨sched, head, blocked, performed⟩ :=
        block_performed inv (.semaphore i) me isCurrent empty
      have blocked' : taskBlock sys.kernel.sched (sys.kernel.semaphores i).waitQueue =
        some (sched, head) := blocked
      have kernel : semWait sys.kernel i =
          some ((sys.kernel.withSched sched).setQueueHead (.semaphore i) head) := by
        simp [semWait, empty, blocked', Kernel.setQueueHead, Kernel.withSched]
      simp only [System.call, kernel, isCurrent, empty, UInt32.lt_irrefl, bind_eq_bind,
        bind_some, if_false, pure, some.injEq] at called
      rw [called] at performed
      exact performed
  · have positive : 0 < (sys.kernel.semaphores i).count := UInt32.pos_iff_ne_zero.mpr empty
    cases isCurrent : sys.current <;> simp [System.call, semWait, positive, isCurrent] at called <;>
      obtain ⟨rfl, rfl⟩ := called <;> exact .lowered i positive

theorem trylock_performed (called : sys.call (.trylock m) = some (sys', events)) :
    Performed history sys (.act (.trylock m)) sys' events := by
  cases isCurrent : sys.kernel.sched.currentTask with
  | none =>
    simp [System.call, mutexTrylock, isCurrent, System.current] at called
    obtain ⟨rfl, rfl⟩ := called
    exact .tried m
  | some me =>
    cases locked : (sys.kernel.mutexes m).locked with
    | false =>
      simp [System.call, mutexTrylock, isCurrent, System.current, locked] at called
      obtain ⟨rfl, rfl⟩ := called
      exact .took ⟨fun _ _ => rfl, by simp, by simp⟩ m me locked
    | true =>
      simp [System.call, mutexTrylock, isCurrent, System.current, locked] at called
      obtain ⟨rfl, rfl⟩ := called
      exact .tried m

theorem taskUnblock_calm (s : Sched) (first p : TaskPtr) (other : p ≠ first) :
    Calm (s.tasks p) ((taskUnblock s (some first)).1.tasks p) := by
  obtain ⟨-, state, wakeTicks⟩ := setNextInQueue_fields s first p none
  change Calm _ ((taskWake (setNextInQueue s first none) first).tasks p)
  rw [(taskWake_effect (setNextInQueue s first none) first p).2.2.1 other]
  exact ⟨state, wakeTicks⟩

section

variable (inv : SyncInv history sys)

include inv

theorem unlock_performed (outside : sys.executing = none)
    (called : sys.call (.unlock m) = some (sys', events)) :
    Performed history sys (.act (.unlock m)) sys' events := by
  have chain := inv.chain (.mutex m)
  cases isCurrent : sys.current with
  | none =>
    have idle : sys.kernel.sched.currentTask = none := isCurrent
    have notOwner : ¬ ((sys.kernel.mutexes m).locked = true ∧ (sys.kernel.mutexes m).owner = none) :=
      fun held => inv.owned m held.1 held.2
    simp [System.call, mutexUnlock, idle, isCurrent, notOwner] at called
    obtain ⟨rfl, rfl⟩ := called
    exact .idle isCurrent (by simp)
  | some me =>
    have running : sys.kernel.sched.currentTask = some me := isCurrent
    have idle : sys.pending me = none := by simpa [executing, isCurrent] using outside
    by_cases holds : Holds sys m me
    · obtain ⟨locked, owner⟩ := id holds
      cases queue : waiting (.mutex m) history with
      | nil =>
        rw [queue] at chain
        have head : (sys.kernel.mutexes m).waitQueue = none := chain
        simp [System.call, mutexUnlock, running, isCurrent, locked, owner, head] at called
        obtain ⟨rfl, rfl⟩ := called
        have released : Performed history sys _ _ _ := .released m me idle holds queue
        simpa [Kernel.setOwner, head] using released
      | cons first rest =>
        rw [queue] at chain
        have head : (sys.kernel.mutexes m).waitQueue = some first := chain.1
        rw [show sys.kernel.queueHead (.mutex m) = some first from head] at chain
        have effect := taskUnblock_effect inv.ring chain
        simp [System.call, mutexUnlock, running, isCurrent, locked, owner, head] at called
        obtain ⟨rfl, rfl⟩ := called
        have handed : Performed history sys _ _ _ := .handed m me first rest _ _ idle holds queue
          effect (taskUnblock_calm sys.kernel.sched first)
        simpa [Kernel.handOver, Kernel.setOwner, Kernel.setQueueHead, Kernel.setMutex,
          Kernel.withSched, locked] using handed
    · have notOwner : ¬ ((sys.kernel.mutexes m).locked = true ∧
          (sys.kernel.mutexes m).owner = some me) := holds
      cases head : (sys.kernel.mutexes m).waitQueue <;>
        simp [System.call, mutexUnlock, running, isCurrent, notOwner, head] at called <;>
        obtain ⟨rfl, rfl⟩ := called <;> exact .refused m me

theorem post_performed {i : Nat} (called : sys.call (.post i) = some (sys', events)) :
    Performed history sys (.act (.post i)) sys' events := by
  have chain := inv.chain (.semaphore i)
  cases queue : waiting (.semaphore i) history with
  | nil =>
    rw [queue] at chain
    have head : (sys.kernel.semaphores i).waitQueue = none := chain
    simp [System.call, semPost, head] at called
    obtain ⟨rfl, rfl⟩ := called
    have raised : Performed history sys _ _ _ := .raised i queue
    simpa [head] using raised
  | cons first rest =>
    rw [queue] at chain
    have head : (sys.kernel.semaphores i).waitQueue = some first := chain.1
    rw [show sys.kernel.queueHead (.semaphore i) = some first from head] at chain
    have effect := taskUnblock_effect inv.ring chain
    simp [System.call, semPost, head] at called
    obtain ⟨rfl, rfl⟩ := called
    have posted : Performed history sys _ _ _ := .posted i first rest _ _ queue effect
      (taskUnblock_calm sys.kernel.sched first)
    simpa [Kernel.setQueueHead, Kernel.withSched] using posted

theorem create_performed {request : CreateRequest}
    (called : sys.call (.create request) = some (sys', events)) :
    Performed history sys (.act (.create request)) sys' events := by
  simp only [System.call] at called
  split at called
  · contradiction
  next fresh =>
    obtain ⟨moves, parks⟩ := taskCreate_effect request inv.ring
      (fun p memory member => fresh ⟨p, by simp [memory], member⟩)
    cases called
    refine .created request _ _ moves parks (taskCreate_globals _ request).1 ?_
    intro p member
    rw [taskCreate_frame sys.kernel.sched request p (fun memory => fresh ⟨p, memory, member⟩)]
    exact ⟨rfl, rfl⟩

theorem fork_performed {request : ForkRequest} (called : sys.fork request = some (sys', events)) :
    Performed history sys (.fork request) sys' events := by
  simp only [System.fork] at called
  split at called
  · contradiction
  next fresh =>
    have moves := forkTask_moves inv.ring request (fun p memory member => fresh ⟨p, memory, member⟩)
    cases called
    refine .forked request _ _ moves (forkTask_globals _ request).1 ?_
    intro p member
    rw [forkTask_frame sys.kernel.sched request p (fun memory => fresh ⟨p, memory, member⟩)]
    exact ⟨rfl, rfl⟩

theorem switch_performed {s : Sched} (readied : Readied sys call s)
    (touches : Touches sys.kernel.sched s) (notWait : ∀ i, call ≠ .act (.wait i))
    (notPost : ∀ i, call ≠ .act (.post i))
    (parks : (∀ p, Parked (s.tasks p) → Parked (sys.kernel.sched.tasks p)) ∨
      ∀ action, call = .act action → ZeroSleep sys.kernel.sched action)
    (called : (taskSwitch s).map (fun sched => (sys.withSched sched, [])) =
      some (sys', events)) : Performed history sys call sys' events := by
  obtain ⟨sched, switched, moves, parked⟩ := touches.switch inv.ring
  simp only [switched, map_some] at called
  cases called
  refine .switched s sched notWait notPost readied switched moves
    (parks.imp_left fun sleeps p member isParked => ?_)
  exact ⟨member, sleeps p ((parked p).mp isParked)⟩

theorem leave_performed {me : TaskPtr} (isCurrent : sys.current = some me) {suspension : Suspension}
    (gives : gaveUp sys me call = some suspension) {f : Task → Task}
    (called : (taskSwitch (sys.kernel.sched.modify me f)).map
      (fun sched => (sys.withSched sched, [])) = some (sys', events))
    (next : ∀ t, (f t).next = t.next) (link : ∀ t, (f t).nextInQueue = t.nextInQueue)
    (marks : ∀ t, suspension.Marks (f t)) (notWait : ∀ i, call ≠ .act (.wait i))
    (parks : (∀ t, ¬ Parked (f t)) ∨
      ∀ action, call = .act action → ZeroSleep sys.kernel.sched action) :
    Performed history sys call sys' events := by
  have touches : Touches sys.kernel.sched (sys.kernel.sched.modify me f) :=
    .modify _ me f isCurrent next link
  have others : ∀ p, p ≠ me → (sys.kernel.sched.modify me f).tasks p = sys.kernel.sched.tasks p :=
    fun p other => update_of_ne other _ _
  have own : (sys.kernel.sched.modify me f).tasks me = f (sys.kernel.sched.tasks me) :=
    update_self _ _ _
  have readied : Readied sys call (sys.kernel.sched.modify me f) := by
    refine ⟨touches.ringOk inv.ring, rfl, ?_, ?_, ?_⟩
    · intro p other
      rw [touches.others p other]
      exact ⟨rfl, rfl⟩
    · intro me' same kept
      cases some.inj (isCurrent.symm.trans same)
      simp [gives] at kept
    · intro me' other same gives'
      cases some.inj (isCurrent.symm.trans same)
      cases some.inj (gives.symm.trans gives')
      exact ⟨own ▸ marks _, rfl⟩
  refine switch_performed inv readied touches notWait ?_ (parks.imp_left fun awake p parked => ?_)
    called
  · rintro i rfl
    simp [gaveUp] at gives
  · by_cases same : p = me
    · subst same
      exact absurd (own ▸ parked) (awake _)
    · exact others p same ▸ parked

theorem sleepUntil_performed (targetTicks : UInt32)
    (gives : ∀ me, gaveUp sys me call = some (.sleep targetTicks false))
    (notWait : ∀ i, call ≠ .act (.wait i))
    (zero : targetTicks = 0 → ∀ action, call = .act action → ZeroSleep sys.kernel.sched action)
    (called : (taskSleepUntil sys.kernel.sched targetTicks).map (fun sched =>
      (sys.withSched sched, [])) = some (sys', events)) :
    Performed history sys call sys' events := by
  cases isCurrent : sys.kernel.sched.currentTask with
  | none =>
    simp [taskSleepUntil, isCurrent] at called
    obtain ⟨rfl, rfl⟩ := called
    refine .idle isCurrent ?_
    rintro i rfl
    simpa [gaveUp] using gives 0
  | some me =>
    simp only [taskSleepUntil, isCurrent, fallAsleep] at called
    refine leave_performed inv isCurrent (gives me) called (fun _ => rfl) (fun _ => rfl)
      (fun _ => ⟨rfl, rfl⟩) notWait ?_
    by_cases isZero : targetTicks = 0
    · exact .inr (zero isZero)
    · exact .inl fun _ parked => isZero parked.2

theorem exit_performed (called : sys.call .exit = some (sys', events)) :
    Performed history sys (.act .exit) sys' events := by
  simp only [System.call] at called
  cases isCurrent : sys.kernel.sched.currentTask with
  | none =>
    simp [taskExit, isCurrent] at called
    obtain ⟨rfl, rfl⟩ := called
    exact .idle isCurrent (by simp)
  | some me =>
    simp only [taskExit, isCurrent, retire] at called
    refine leave_performed inv isCurrent rfl called (fun _ => rfl) (fun _ => rfl) (fun _ => rfl)
      (by simp) (.inl fun t parked => ?_)
    simp [Parked] at parked

theorem tick_performed (taken : sys.step .tick = some (sys', events)) :
    Performed history sys (.act .tick) sys' events := by
  simp only [step] at taken
  cases isCurrent : sys.kernel.sched.currentTask with
  | none =>
    simp [timerHandler, isCurrent] at taken
    obtain ⟨rfl, rfl⟩ := taken
    exact .ticked _ (Touches.refl (countTick sys.kernel.sched)).ticked (fun _ => .refl _)
  | some me =>
    have touches : Touches sys.kernel.sched (useTimeSlice (countTick sys.kernel.sched) me) :=
      Touches.ticked (.modify _ me _ isCurrent (fun _ => rfl) (fun _ => rfl))
    have calm : ∀ p, Calm (sys.kernel.sched.tasks p)
        ((useTimeSlice (countTick sys.kernel.sched) me).tasks p) := by
      intro p
      by_cases same : p = me <;> simp [useTimeSlice, countTick, Sched.modify, same, Calm]
    simp only [timerHandler, isCurrent] at taken
    split at taken
    · have readied : Readied sys (.act .tick) (useTimeSlice (countTick sys.kernel.sched) me) :=
        ⟨touches.ringOk inv.ring, rfl, fun p _ => calm p, fun p _ _ => calm p, by rintro _ _ _ ⟨⟩⟩
      refine switch_performed inv readied touches (by simp) (by simp) (.inl fun p parked => ?_) taken
      exact ⟨(calm p).1.symm.trans parked.1, (calm p).2.symm.trans parked.2⟩
    · simp only [map_some] at taken
      cases taken
      exact .ticked _ touches calm

end

theorem resume_performed (taken : sys.resume = some (sys', events)) :
    Performed history sys (.act .resume) sys' events := by
  cases isCurrent : sys.current with
  | none => simp [resume, isCurrent] at taken
  | some me =>
    cases pending : sys.pending me with
    | none => simp [resume, executing, isCurrent, pending] at taken
    | some queue =>
      cases queue with
      | mutex m =>
        simp [resume, executing, isCurrent, pending] at taken
        obtain ⟨rfl, rfl⟩ := taken
        exact .resumedLock m me isCurrent pending
      | semaphore i =>
        simp [resume, executing, isCurrent, pending] at taken
        obtain ⟨rfl, rfl⟩ := taken
        exact .resumedWait me isCurrent

theorem step_performed {action : Action} (inv : SyncInv history sys)
    (taken : sys.step action = some (sys', events)) :
    Performed history sys (.act action) sys' events := by
  have called := fun notTick notResume => (step_called taken notTick notResume).2
  cases action with
  | create request => exact create_performed inv (called (by simp) (by simp))
  | lock m => exact lock_performed inv (called (by simp) (by simp))
  | trylock m => exact trylock_performed (called (by simp) (by simp))
  | unlock m =>
    obtain ⟨outside, called⟩ := step_called taken (by simp) (by simp)
    exact unlock_performed inv outside called
  | wait i => exact wait_performed inv (called (by simp) (by simp))
  | post i => exact post_performed inv (called (by simp) (by simp))
  | yield =>
    have readied : Readied sys (.act .yield) sys.kernel.sched :=
      ⟨inv.ring, rfl, fun _ _ => .refl _, fun _ _ _ => .refl _, nofun⟩
    exact switch_performed inv readied (.refl _) (by simp) (by simp) (.inl fun _ parked => parked)
      (called (by simp) (by simp))
  | sleep milliseconds =>
    have slept := called (by simp) (by simp)
    refine sleepUntil_performed inv (sleepTarget sys.kernel.sched milliseconds) (fun _ => rfl)
      (by simp) (by rintro zero _ ⟨⟩; exact zero) ?_
    simp only [System.call, taskSleep] at slept
    split at slept
    next idle => simpa [taskSleepUntil, idle] using slept
    next => exact slept
  | sleepUntil targetTicks =>
    exact sleepUntil_performed inv targetTicks (fun _ => rfl) (by simp)
      (by rintro zero _ ⟨⟩; exact zero) (called (by simp) (by simp))
  | exit => exact exit_performed inv (called (by simp) (by simp))
  | tick => exact tick_performed inv taken
  | resume => exact resume_performed taken

theorem kernelStep_performed (inv : SyncInv history sys)
    (taken : sys.kernelStep call = some (sys', events)) :
    Performed history sys call sys' events := by
  cases call with
  | act action => exact step_performed inv taken
  | fork request =>
    simp only [System.kernelStep] at taken
    split at taken
    · contradiction
    · exact fork_performed inv taken

end

end ArgoOS.Tasking
