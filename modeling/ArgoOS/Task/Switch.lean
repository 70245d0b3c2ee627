import ArgoOS.Task.State

set_option autoImplicit false

/-!
# The round-robin scheduler

`task_switch` and the functions that give the CPU away through it. A function
that follows a broken task list for ever, or through a null pointer, has no
result.
-/

namespace ArgoOS.Tasking

open Linked

/-- A task that `task_switch` makes ready before it looks for the next one. -/
def Due (ticks : UInt32) (t : Task) : Prop :=
  t.state = .blocked ∧ t.wakeTicks ≠ 0 ∧ t.wakeTicks ≤ ticks

instance (ticks : UInt32) (t : Task) : Decidable (Due ticks t) :=
  inferInstanceAs (Decidable (_ ∧ _ ∧ _))

def wakeIfDue (ticks : UInt32) (t : Task) : Task :=
  if Due ticks t then { t with state := .ready, wakeTicks := 0 } else t

/-- The loop over the sleeping tasks, from `checking` until it is back at `list`. -/
def wakeSleepers (ticks : UInt32) (list : TaskPtr) :
    Nat → TaskPtr → (TaskPtr → Task) → Option (TaskPtr → Task)
  | 0, _, _ => none
  | fuel + 1, checking, tasks =>
    let tasks := Function.update tasks checking (wakeIfDue ticks (tasks checking))
    match (tasks checking).next with
    | none => none
    | some following =>
      if following = list then some tasks else wakeSleepers ticks list fuel following tasks

/-- The search for a ready task: at most `attempts` tasks are skipped. -/
def findReady (tasks : TaskPtr → Task) : Nat → TaskPtr → Option TaskPtr
  | 0, p => some p
  | attempts + 1, p =>
    if (tasks p).state = .ready then some p
    else
      match (tasks p).next with
      | none => none
      | some following => findReady tasks attempts following

def switchTo (s : Sched) (chosen : TaskPtr) : Sched :=
  let prev := s.currentTask
  let s := { s with currentTask := some chosen }
  let s := s.modify chosen fun t => { t with state := .running, timeSlice := defaultTimeSlice }
  let newEsp := (s.tasks chosen).esp
  match prev with
  -- Before the first switch there is no task to save the context in.
  | none => { s with esp := newEsp }
  | some prev =>
    if prev = chosen then s
    else
      let s := s.modify prev fun t =>
        { t with state := if t.state = .running then .ready else t.state, esp := s.esp }
      { s with esp := newEsp }

def firstCandidate (s : Sched) (list : TaskPtr) : Option TaskPtr :=
  match s.currentTask with
  | none => some list
  | some current => (s.tasks current).next

def taskSwitch (s : Sched) : Option Sched :=
  match s.taskList with
  | none => some s
  | some list => do
    let start ← firstCandidate s list
    let tasks ← wakeSleepers s.ticks list s.taskCount.toNat list s.tasks
    let chosen ← findReady tasks s.taskCount.toNat start
    if (tasks chosen).state = .ready then some (switchTo { s with tasks } chosen)
    else some { s with tasks }

def taskYield (s : Sched) : Option Sched := taskSwitch s

def retire (s : Sched) (current : TaskPtr) : Sched :=
  s.modify current fun t => { t with state := .zombie }

def taskExit (s : Sched) : Option Sched :=
  match s.currentTask with
  | none => some s
  | some current => taskSwitch (retire s current)

def fallAsleep (s : Sched) (current : TaskPtr) (targetTicks : UInt32) : Sched :=
  s.modify current fun t => { t with state := .blocked, wakeTicks := targetTicks }

def taskSleepUntil (s : Sched) (targetTicks : UInt32) : Option Sched :=
  match s.currentTask with
  | none => some s
  | some current => taskSwitch (fallAsleep s current targetTicks)

def sleepTarget (s : Sched) (milliseconds : UInt32) : UInt32 :=
  s.ticks + milliseconds * timerFrequency / 1000

def taskSleep (s : Sched) (milliseconds : UInt32) : Option Sched :=
  match s.currentTask with
  | none => some s
  | some _ => taskSleepUntil s (sleepTarget s milliseconds)

def park (s : Sched) (current : TaskPtr) : Sched :=
  s.modify current fun t => { t with state := .blocked, wakeTicks := 0, nextInQueue := none }

/-- `task_block` up to the switch: the caller goes to the end of the wait queue. -/
def enqueueCurrent (s : Sched) (current : TaskPtr) (waitQueue : Option TaskPtr) :
    Option (Sched × Option TaskPtr) :=
  let s := park s current
  match waitQueue with
  | none => some (s, some current)
  | some head =>
    match search s.queueLink (fun p => (s.queueLink p).isNone) s.taskCount.toNat (some head) with
    | some (some last) => some (setNextInQueue s last (some current), some head)
    | _ => none

/-- The scheduler and the queue head when `task_block` has given the CPU away. -/
def taskBlock (s : Sched) (waitQueue : Option TaskPtr) : Option (Sched × Option TaskPtr) :=
  match s.currentTask with
  | none => some (s, waitQueue)
  | some current => do
    let (s, waitQueue) ← enqueueCurrent s current waitQueue
    let s ← taskSwitch s
    return (s, waitQueue)

def countTick (s : Sched) : Sched := { s with ticks := s.ticks + 1 }

def useTimeSlice (s : Sched) (current : TaskPtr) : Sched :=
  s.modify current fun t => { t with timeSlice := t.timeSlice - 1 }

def timerHandler (s : Sched) : Option Sched :=
  match s.currentTask with
  | none => some (countTick s)
  | some current =>
    let s := useTimeSlice (countTick s) current
    if (s.tasks current).timeSlice = 0 then taskSwitch s else some s

end ArgoOS.Tasking
