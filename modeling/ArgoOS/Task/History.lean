import ArgoOS.Task.WaitQueue
import ArgoOS.Task.Sync

set_option autoImplicit false

/-! # Steps of the task system -/

namespace ArgoOS.Tasking

open Linked

-- Histories are newest first; the waiting tasks are listed from the head of the queue.
def waiting (queue : WaitQueue) : List Event → List TaskPtr
  | [] => []
  | .blocked q p :: history =>
    if q = queue then waiting queue history ++ [p] else waiting queue history
  | .granted q _ :: history =>
    if q = queue then (waiting queue history).tail else waiting queue history
  | _ :: history => waiting queue history

def blockedLog (queue : WaitQueue) : List Event → List TaskPtr
  | [] => []
  | .blocked q p :: history =>
    if q = queue then blockedLog queue history ++ [p] else blockedLog queue history
  | _ :: history => blockedLog queue history

def grantedLog (queue : WaitQueue) : List Event → List TaskPtr
  | [] => []
  | .granted q p :: history =>
    if q = queue then grantedLog queue history ++ [p] else grantedLog queue history
  | _ :: history => grantedLog queue history

-- A lock of `m` returned to `p`, which has not called `mutex_unlock` since.
def PastLock (m : Nat) (p : TaskPtr) : List Event → Prop
  | [] => False
  | .entered m' p' :: history => (m' = m ∧ p' = p) ∨ PastLock m p history
  | .left m' p' :: history => ¬ (m' = m ∧ p' = p) ∧ PastLock m p history
  | _ :: history => PastLock m p history

def pastLockDecidable (m : Nat) (p : TaskPtr) : (history : List Event) →
    Decidable (PastLock m p history)
  | [] => inferInstanceAs (Decidable False)
  | .entered _ _ :: history =>
    have := pastLockDecidable m p history
    inferInstanceAs (Decidable (_ ∨ PastLock m p history))
  | .left _ _ :: history =>
    have := pastLockDecidable m p history
    inferInstanceAs (Decidable (_ ∧ PastLock m p history))
  | .blocked _ _ :: history => pastLockDecidable m p history
  | .granted _ _ :: history => pastLockDecidable m p history
  | .taken _ _ :: history => pastLockDecidable m p history

instance (m : Nat) (p : TaskPtr) (history : List Event) : Decidable (PastLock m p history) :=
  pastLockDecidable m p history

structure QueueInv (queued : WaitQueue → List TaskPtr) (sys : System) : Prop where
  ring : RingOk sys.kernel.sched sys.ring
  chain : ∀ q, Chain sys.kernel.sched.queueLink (sys.kernel.queueHead q) (queued q)
  linked : ∀ q p, p ∈ queued q → p ∈ sys.ring
  parked : ∀ q p, p ∈ queued q → Parked (sys.kernel.sched.tasks p)
  pending : ∀ q p, p ∈ queued q → sys.pending p = some q
  away : ∀ q p, p ∈ queued q → sys.current ≠ some p

def Holds (sys : System) (m : Nat) (p : TaskPtr) : Prop :=
  (sys.kernel.mutexes m).locked = true ∧ (sys.kernel.mutexes m).owner = some p

instance (sys : System) (m : Nat) (p : TaskPtr) : Decidable (Holds sys m p) :=
  inferInstanceAs (Decidable (_ ∧ _))

structure SyncInv (history : List Event) (sys : System) : Prop
    extends QueueInv (fun q => waiting q history) sys where
  -- A task inside `mutex_lock` is on the queue or was handed the mutex.
  owed : ∀ m p, sys.pending p = some (.mutex m) →
    p ∈ waiting (.mutex m) history ∨ Holds sys m p
  locked : ∀ m, waiting (.mutex m) history ≠ [] → (sys.kernel.mutexes m).locked = true
  owned : ∀ m, (sys.kernel.mutexes m).locked = true → (sys.kernel.mutexes m).owner ≠ none
  past : ∀ m p, PastLock m p history → Holds sys m p
  served : ∀ q, blockedLog q history = grantedLog q history ++ waiting q history

variable {queued : WaitQueue → List TaskPtr} {sys : System} {me : TaskPtr}

theorem QueueInv.current_not_queued (inv : QueueInv queued sys) (isCurrent : sys.current = some me)
    (q : WaitQueue) : me ∉ queued q :=
  fun member => inv.away q me member isCurrent

theorem QueueInv.one_queue (inv : QueueInv queued sys) (q q' : WaitQueue) (p : TaskPtr)
    (first : p ∈ queued q) (second : p ∈ queued q') : q = q' :=
  Option.some.inj ((inv.pending q p first).symm.trans (inv.pending q' p second))

-- The queues and the parked tasks stay as they are, but for the executing task; the
-- CPU goes to a task that was not parked; new tasks are not parked.
structure Moves (s s' : Sched) (ring ring' : List TaskPtr) : Prop where
  ok : RingOk s' ring'
  grows : ring ⊆ ring'
  links : ∀ p ∈ ring, s'.queueLink p = s.queueLink p
  parked : ∀ p ∈ ring, s.currentTask ≠ some p → (Parked (s'.tasks p) ↔ Parked (s.tasks p))
  current : ∀ p, s'.currentTask = some p → s.currentTask = some p ∨ ¬ Parked (s.tasks p)

def NoneParked (s s' : Sched) (ring ring' : List TaskPtr) : Prop :=
  ∀ p ∈ ring', Parked (s'.tasks p) → p ∈ ring ∧ Parked (s.tasks p)

structure Touches (s s' : Sched) : Prop where
  others : ∀ p, s.currentTask ≠ some p → s'.tasks p = s.tasks p
  next : ∀ p, (s'.tasks p).next = (s.tasks p).next
  links : ∀ p, s'.queueLink p = s.queueLink p
  globals : s'.taskList = s.taskList ∧ s'.taskCount = s.taskCount ∧ s'.currentTask = s.currentTask

variable {s s' : Sched} {ring : List TaskPtr}

section

variable (touches : Touches s s') (ok : RingOk s ring)

include touches ok

theorem Touches.ringOk : RingOk s' ring := by
  obtain ⟨list, count, current⟩ := touches.globals
  exact ok.congr (fun p _ => touches.next p) list count
    (fun p same => ok.current p (current ▸ same))

theorem Touches.switch :
    ∃ s'', taskSwitch s' = some s'' ∧ Moves s s'' ring ring ∧
      ∀ p, Parked (s''.tasks p) ↔ Parked (s'.tasks p) := by
  obtain ⟨s'', switched, effect⟩ := taskSwitch_effect (touches.ringOk ok)
  refine ⟨s'', switched, ⟨effect.ok, List.Subset.refl ring, ?_, ?_, ?_⟩, effect.parked⟩
  · intro p _
    exact (effect.nextInQueue p).trans (touches.links p)
  · intro p _ other
    rw [effect.parked p, touches.others p other]
  · intro p chosen
    rcases effect.current with kept | ⟨q, -, current, wakeable⟩
    · exact .inl (touches.globals.2.2 ▸ kept ▸ chosen)
    · rw [current] at chosen
      obtain rfl := Option.some.inj chosen
      by_cases same : s.currentTask = some q
      · exact .inl same
      · rw [← touches.others q same]
        exact .inr wakeable.not_parked

theorem Touches.moves : Moves s s' ring ring where
  ok := touches.ringOk ok
  grows := List.Subset.refl ring
  links := fun p _ => touches.links p
  parked := fun p _ other => by rw [touches.others p other]
  current := fun p same => .inl (touches.globals.2.2 ▸ same)

end

theorem Touches.refl (s : Sched) : Touches s s :=
  ⟨fun _ _ => rfl, fun _ => rfl, fun _ => rfl, rfl, rfl, rfl⟩

theorem Touches.modify (s : Sched) (me : TaskPtr) (f : Task → Task)
    (isCurrent : s.currentTask = some me) (next : ∀ t, (f t).next = t.next)
    (link : ∀ t, (f t).nextInQueue = t.nextInQueue) : Touches s (s.modify me f) := by
  refine ⟨?_, ?_, ?_, rfl, rfl, rfl⟩
  · intro p other
    have different : p ≠ me := by
      rintro rfl
      exact other isCurrent
    simp [Sched.modify, different]
  · intro p
    by_cases same : p = me <;> simp [Sched.modify, same, next]
  · intro p
    by_cases same : p = me <;> simp [Sched.modify, Sched.queueLink, same, link]

theorem Touches.ticked (touches : Touches (countTick s) s') : Touches s s' :=
  ⟨touches.others, touches.next, touches.links, touches.globals⟩

end ArgoOS.Tasking
