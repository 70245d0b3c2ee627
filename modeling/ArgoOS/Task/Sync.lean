import ArgoOS.Task.Switch
import ArgoOS.Shared.Run

set_option autoImplicit false

/-!
# Mutexes and semaphores

The primitives of `sync.c` run with interrupts off, so each is one step up to the
point where it gives the CPU away. A task that was switched out inside
`task_block` returns from the primitive when it is next executing.
-/

namespace ArgoOS.Tasking

structure Mutex where
  locked : Bool
  owner : Option TaskPtr
  waitQueue : Option TaskPtr
deriving DecidableEq, Repr

structure Semaphore where
  count : UInt32
  waitQueue : Option TaskPtr
deriving DecidableEq, Repr

structure Kernel where
  sched : Sched
  mutexes : Nat → Mutex
  semaphores : Nat → Semaphore

def mutexInit : Mutex := ⟨false, none, none⟩

def semInit (value : UInt32) : Semaphore := ⟨value, none⟩

def Kernel.withSched (k : Kernel) (sched : Sched) : Kernel := { k with sched }

def Kernel.setMutex (k : Kernel) (m : Nat) (mutex : Mutex) : Kernel :=
  { k with mutexes := Function.update k.mutexes m mutex }

def Kernel.setSemaphore (k : Kernel) (i : Nat) (semaphore : Semaphore) : Kernel :=
  { k with semaphores := Function.update k.semaphores i semaphore }

def mutexLock (k : Kernel) (m : Nat) : Option Kernel :=
  match k.sched.currentTask with
  | none => some k
  | some current =>
    let mutex := k.mutexes m
    if mutex.locked = false then
      some (k.setMutex m { mutex with locked := true, owner := some current })
    else if mutex.owner = some current then some k
    else do
      let (sched, waitQueue) ← taskBlock k.sched mutex.waitQueue
      return (k.withSched sched).setMutex m { mutex with waitQueue }

def mutexUnlock (k : Kernel) (m : Nat) : Kernel :=
  let mutex := k.mutexes m
  if mutex.locked ∧ mutex.owner = k.sched.currentTask then
    match mutex.waitQueue with
    | some nextOwner =>
      let (sched, waitQueue) := taskUnblock k.sched mutex.waitQueue
      (k.withSched sched).setMutex m { mutex with waitQueue, owner := some nextOwner }
    | none => k.setMutex m { mutex with locked := false, owner := none }
  else k

def mutexTrylock (k : Kernel) (m : Nat) : Kernel × Bool :=
  match k.sched.currentTask with
  | none => (k, false)
  | some current =>
    let mutex := k.mutexes m
    if mutex.locked = false then
      (k.setMutex m { mutex with locked := true, owner := some current }, true)
    else (k, false)

def semWait (k : Kernel) (i : Nat) : Option Kernel :=
  let semaphore := k.semaphores i
  if 0 < semaphore.count then
    some (k.setSemaphore i { semaphore with count := semaphore.count - 1 })
  else do
    let (sched, waitQueue) ← taskBlock k.sched semaphore.waitQueue
    return (k.withSched sched).setSemaphore i { semaphore with waitQueue }

def semPost (k : Kernel) (i : Nat) : Kernel :=
  let semaphore := k.semaphores i
  match semaphore.waitQueue with
  | some _ =>
    let (sched, waitQueue) := taskUnblock k.sched semaphore.waitQueue
    (k.withSched sched).setSemaphore i { semaphore with waitQueue }
  | none => k.setSemaphore i { semaphore with count := semaphore.count + 1 }

inductive WaitQueue where
  | mutex (m : Nat)
  | semaphore (i : Nat)
deriving DecidableEq, Repr

def Kernel.queueHead (k : Kernel) : WaitQueue → Option TaskPtr
  | .mutex m => (k.mutexes m).waitQueue
  | .semaphore i => (k.semaphores i).waitQueue

inductive Action where
  | create (request : CreateRequest)
  | lock (m : Nat)
  | trylock (m : Nat)
  | unlock (m : Nat)
  | wait (i : Nat)
  | post (i : Nat)
  | yield
  | sleep (milliseconds : UInt32)
  | sleepUntil (targetTicks : UInt32)
  | exit
  | tick
  -- The executing task returns from the primitive it was switched out in.
  | resume
deriving DecidableEq, Repr

inductive Event where
  | blocked (queue : WaitQueue) (task : TaskPtr)
  | granted (queue : WaitQueue) (task : TaskPtr)
  -- The mutex was free and `task` took it.
  | taken (m : Nat) (task : TaskPtr)
  -- `mutex_lock` returned to `task`, or its `mutex_trylock` succeeded.
  | entered (m : Nat) (task : TaskPtr)
  -- `task` called `mutex_unlock`.
  | left (m : Nat) (task : TaskPtr)
deriving DecidableEq, Repr

-- `ring` lists the linked tasks from `task_list` on, and `pending` the primitive a
-- task was switched out in.
structure System where
  kernel : Kernel
  ring : List TaskPtr
  pending : TaskPtr → Option WaitQueue

namespace System

def current (sys : System) : Option TaskPtr := sys.kernel.sched.currentTask

def withSched (sys : System) (sched : Sched) : System :=
  { sys with kernel := sys.kernel.withSched sched }

def executing (sys : System) : Option WaitQueue := sys.current.bind sys.pending

-- After `task_block` the caller is either switched out or runs on at once.
def afterBlock (sys : System) (kernel : Kernel) (me : TaskPtr) (queue : WaitQueue) :
    System × List Event :=
  if kernel.sched.currentTask = some me then
    match queue with
    | .mutex m => ({ sys with kernel }, [.entered m me, .blocked queue me])
    | .semaphore _ => ({ sys with kernel }, [.blocked queue me])
  else
    ({ sys with kernel, pending := Function.update sys.pending me (some queue) },
      [.blocked queue me])

def ringWith (ring : List TaskPtr) (p : TaskPtr) : List TaskPtr :=
  match ring with
  | [] => [p]
  | list :: rest => p :: rest ++ [list]

def ringAfter (ring : List TaskPtr) : Option TaskPtr → List TaskPtr
  | none => ring
  | some p => ringWith ring p

def lockEvents (sys : System) (m : Nat) (me : TaskPtr) : List Event :=
  if (sys.kernel.mutexes m).locked = false then [.entered m me, .taken m me] else [.entered m me]

-- A call made by the executing context, which is a task or, before the first
-- switch, the boot code.
def call (sys : System) : Action → Option (System × List Event)
  | .create request =>
    -- `kmalloc` does not hand out the memory of a task that exists.
    if ∃ p ∈ request.memory, p ∈ sys.ring then none
    else
      let (sched, task) := taskCreate sys.kernel.sched request
      some ({ sys.withSched sched with ring := ringAfter sys.ring task }, [])
  | .lock m => do
    let kernel ← mutexLock sys.kernel m
    match sys.current with
    | none => return ({ sys with kernel }, [])
    | some me =>
      if (sys.kernel.mutexes m).locked = false ∨ (sys.kernel.mutexes m).owner = some me then
        return ({ sys with kernel }, sys.lockEvents m me)
      else return sys.afterBlock kernel me (.mutex m)
  | .trylock m =>
    let (kernel, success) := mutexTrylock sys.kernel m
    match sys.current with
    | some me =>
      some ({ sys with kernel }, if success then [.entered m me, .taken m me] else [])
    | none => some ({ sys with kernel }, [])
  | .unlock m =>
    let kernel := mutexUnlock sys.kernel m
    let mutex := sys.kernel.mutexes m
    match sys.current with
    | none => some ({ sys with kernel }, [])
    | some me =>
      match mutex.waitQueue with
      | some head =>
        if mutex.locked ∧ mutex.owner = some me then
          some ({ sys with kernel }, [.granted (.mutex m) head, .left m me])
        else some ({ sys with kernel }, [.left m me])
      | none => some ({ sys with kernel }, [.left m me])
  | .wait i => do
    let kernel ← semWait sys.kernel i
    match sys.current with
    | none => return ({ sys with kernel }, [])
    | some me =>
      if 0 < (sys.kernel.semaphores i).count then return ({ sys with kernel }, [])
      else return sys.afterBlock kernel me (.semaphore i)
  | .post i =>
    let kernel := semPost sys.kernel i
    match (sys.kernel.semaphores i).waitQueue with
    | some head => some ({ sys with kernel }, [.granted (.semaphore i) head])
    | none => some ({ sys with kernel }, [])
  | .yield => (taskYield sys.kernel.sched).map fun sched => (sys.withSched sched, [])
  | .sleep ms => (taskSleep sys.kernel.sched ms).map fun sched => (sys.withSched sched, [])
  | .sleepUntil target =>
    (taskSleepUntil sys.kernel.sched target).map fun sched => (sys.withSched sched, [])
  | .exit => (taskExit sys.kernel.sched).map fun sched => (sys.withSched sched, [])
  | .tick | .resume => none

def resume (sys : System) : Option (System × List Event) :=
  match sys.current, sys.executing with
  | some me, some queue =>
    let sys := { sys with pending := Function.update sys.pending me none }
    match queue with
    | .mutex m => some (sys, [.entered m me])
    | .semaphore _ => some (sys, [])
  | _, _ => none

def step (sys : System) : Action → Option (System × List Event)
  | .tick => (timerHandler sys.kernel.sched).map fun sched => (sys.withSched sched, [])
  | .resume => sys.resume
  | action => if sys.executing.isSome then none else sys.call action

theorem step_called {sys sys' : System} {action : Action} {events : List Event}
    (taken : sys.step action = some (sys', events)) (notTick : action ≠ .tick)
    (notResume : action ≠ .resume) :
    sys.executing = none ∧ sys.call action = some (sys', events) := by
  cases action <;> simp_all [step]

end System

end ArgoOS.Tasking
