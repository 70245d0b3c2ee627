import ArgoOS.Shared.Chain

set_option autoImplicit false

/-!
# Tasks

The task structure of `task.h`, the globals of `task.c` and the functions that
do not switch. Tasks are named by the address `kmalloc` gave them; `none` is the
null pointer.
-/

namespace ArgoOS.Tasking

abbrev TaskPtr := Nat

inductive TaskState where
  | running
  | ready
  | blocked
  | zombie
deriving DecidableEq, Repr

structure Task where
  id : UInt32
  esp : UInt32
  ebp : UInt32
  eip : UInt32
  pageDirectory : UInt32
  state : TaskState
  priority : UInt32
  timeSlice : UInt32
  next : Option TaskPtr
  nextInQueue : Option TaskPtr
  wakeTicks : UInt32
  name : List UInt8
deriving DecidableEq, Repr

def maxTasks : UInt32 := 256
def defaultTimeSlice : UInt32 := 10
def timerFrequency : UInt32 := 100

/--
The scheduler's globals. `esp` is the stack pointer of the executing context and
`stack` the words of the kernel stacks, by address.
-/
structure Sched where
  tasks : TaskPtr → Task
  taskList : Option TaskPtr
  currentTask : Option TaskPtr
  nextTaskId : UInt32
  taskCount : UInt32
  ticks : UInt32
  esp : UInt32
  stack : UInt32 → UInt32

namespace Sched

def modify (s : Sched) (p : TaskPtr) (f : Task → Task) : Sched :=
  { s with tasks := Function.update s.tasks p (f (s.tasks p)) }

def queueLink (s : Sched) (p : TaskPtr) : Option TaskPtr := (s.tasks p).nextInQueue

end Sched

def taskInit (s : Sched) : Sched :=
  { s with taskList := none, currentTask := none, nextTaskId := 1, taskCount := 0 }

def taskGetCurrent (s : Sched) : Option TaskPtr := s.currentTask

def taskWake (s : Sched) (p : TaskPtr) : Sched :=
  if (s.tasks p).state = .blocked then
    s.modify p fun t => { t with state := .ready, wakeTicks := 0 }
  else s

def setNextInQueue (s : Sched) (p : TaskPtr) (link : Option TaskPtr) : Sched :=
  s.modify p fun t => { t with nextInQueue := link }

/-- The new queue head and the scheduler after `task_unblock`. -/
def taskUnblock (s : Sched) (waitQueue : Option TaskPtr) : Sched × Option TaskPtr :=
  match waitQueue with
  | none => (s, none)
  | some taskToWake =>
    let rest := (s.tasks taskToWake).nextInQueue
    (taskWake (setNextInQueue s taskToWake none) taskToWake, rest)

/-- The stack top that `create_kernel_stack` returns, 0 when no page is left. -/
def createKernelStack (s : Sched) (pageLeft : Bool) : UInt32 :=
  if pageLeft then 0xE0000000 + s.nextTaskId * 0x1000 + 4096 else 0

/-- The words that `task_create` lays out for the first switch to a task. -/
def initialFrame (stack : UInt32 → UInt32) (base entry taskStartAsm : UInt32) : UInt32 → UInt32 :=
  let stack := Function.update stack (base + 20) entry
  let stack := Function.update stack (base + 16) taskStartAsm
  let stack := Function.update stack (base + 12) 0
  let stack := Function.update stack (base + 8) 0
  let stack := Function.update stack (base + 4) 0
  Function.update stack base 0

/-- What a call of `task_create` is given, and what its allocations return. -/
structure CreateRequest where
  entry : UInt32
  taskStartAsm : UInt32
  name : Option (List UInt8)
  priority : UInt32
  memory : Option TaskPtr
  stackPageLeft : Bool
deriving DecidableEq, Repr

def newTask (s : Sched) (r : CreateRequest) : Task where
  id := s.nextTaskId
  esp := 0
  ebp := 0
  eip := 0
  pageDirectory := 0
  state := .ready
  priority := r.priority
  timeSlice := defaultTimeSlice
  next := none
  nextInQueue := none
  wakeTicks := 0
  name := (r.name.map (List.take 31)).getD [116, 97, 115, 107]

def linkTask (s : Sched) (p : TaskPtr) : Sched :=
  match s.taskList with
  | none => { s.modify p fun t => { t with next := some p } with taskList := some p }
  | some list =>
    let s := s.modify p fun t => { t with next := (s.tasks list).next }
    let s := s.modify list fun t => { t with next := some p }
    { s with taskList := some p }

def recordTask (s : Sched) (r : CreateRequest) (p : TaskPtr) : Sched :=
  { s with tasks := Function.update s.tasks p (newTask s r), nextTaskId := s.nextTaskId + 1 }

def setUpStack (s : Sched) (r : CreateRequest) (p : TaskPtr) (base : UInt32) : Sched :=
  let s := { s with stack := initialFrame s.stack base r.entry r.taskStartAsm }
  s.modify p fun t => { t with esp := base, ebp := 0, eip := r.taskStartAsm }

def taskCreate (s : Sched) (r : CreateRequest) : Sched × Option TaskPtr :=
  if maxTasks ≤ s.taskCount then (s, none)
  else
    match r.memory with
    | none => (s, none)
    | some p =>
      let s := recordTask s r p
      -- The stack is mapped for the id after the one just given.
      let stackTop := createKernelStack s r.stackPageLeft
      if stackTop = 0 then (s, none)
      else
        let s := linkTask (setUpStack s r p (stackTop - 24)) p
        ({ s with taskCount := s.taskCount + 1 }, some p)

end ArgoOS.Tasking
