import ArgoOS.Task.SyncInvariant

set_option autoImplicit false

/-!
# Mutual exclusion and fairness

Runs start where `task_init`, `mutex_init` and `sem_init` leave the kernel. The
boot code and the tasks create further tasks, call the primitives and are
preempted by the timer in any order.
-/

namespace ArgoOS.Tasking

open Linked Stepper ArgoOS.Tasking.System Option

structure Initial (sys : System) : Prop where
  sched : ∃ s, sys.kernel.sched = taskInit s
  ring : sys.ring = []
  mutexes : ∀ m, sys.kernel.mutexes m = mutexInit
  semaphores : ∀ i, ∃ value, sys.kernel.semaphores i = semInit value
  pending : ∀ p, sys.pending p = none

variable {sys : System} {history : List Event}

theorem Initial.syncInv (initial : Initial sys) : SyncInv [] sys := by
  obtain ⟨s, sched⟩ := initial.sched
  have heads : ∀ q, sys.kernel.queueHead q = none := by
    intro q
    cases q with
    | mutex m => simp [Kernel.queueHead, initial.mutexes m, mutexInit]
    | semaphore i =>
      obtain ⟨value, same⟩ := initial.semaphores i
      simp [Kernel.queueHead, same, semInit]
  have free : ∀ m, (sys.kernel.mutexes m).locked = false := by simp [initial.mutexes, mutexInit]
  have ring : RingOk sys.kernel.sched sys.ring := by
    rw [sched, initial.ring]
    exact ⟨by simp [taskInit], by simp, List.nodup_nil, by simp [taskInit], by simp [taskInit]⟩
  exact {
    ring
    chain := heads
    linked := by simp [waiting]
    parked := by simp [waiting]
    pending := by simp [waiting]
    away := by simp [waiting]
    owed := by simp [initial.pending]
    locked := by simp [waiting]
    owned := by simp [free]
    past := by simp [PastLock]
    served := fun _ => rfl }

theorem SyncInv.run {start : System} (initial : Initial start)
    (run : Run System.step BlockFinds start history sys) : SyncInv history sys :=
  run.invariant SyncInv initial.syncInv fun _ _ _ _ _ inv met taken =>
    inv.performed (fun _ acts => KernelCall.act.inj acts ▸ met) (step_performed inv taken)

theorem block_returns (inv : SyncInv history sys) (q : WaitQueue) : ∃ sched head,
      taskBlock sys.kernel.sched (sys.kernel.queueHead q) = some (sched, head) := by
  cases isCurrent : sys.current with
  | none =>
    have idle : sys.kernel.sched.currentTask = none := isCurrent
    exact ⟨sys.kernel.sched, sys.kernel.queueHead q, by simp [taskBlock, idle]⟩
  | some me =>
    obtain ⟨-, sched, head, blocked, -⟩ := taskBlock_effect inv.ring isCurrent (inv.chain q)
      (fun p member => inv.linked q p member) (inv.current_not_queued isCurrent q)
    exact ⟨sched, head, blocked⟩

theorem lock_returns (inv : SyncInv history sys) (m : Nat) :
    ∃ kernel, mutexLock sys.kernel m = some kernel := by
  obtain ⟨sched, head, blocked⟩ := block_returns inv (.mutex m)
  simp only [Kernel.queueHead] at blocked
  unfold mutexLock
  cases sys.kernel.sched.currentTask with
  | none => simp
  | some me =>
    simp only [blocked]
    split_ifs <;> simp

theorem wait_returns (inv : SyncInv history sys) (i : Nat) :
    ∃ kernel, semWait sys.kernel i = some kernel := by
  obtain ⟨sched, head, blocked⟩ := block_returns inv (.semaphore i)
  simp only [Kernel.queueHead] at blocked
  unfold semWait
  simp only [blocked]
  split_ifs <;> simp

theorem switch_returns {s s' : Sched} {ring : List TaskPtr} (ok : RingOk s ring)
    (touches : Touches s s') : (taskSwitch s').isSome = true := by
  obtain ⟨s'', switched, -⟩ := touches.switch ok
  simp [switched]

theorem sleepUntil_returns {s : Sched} {ring : List TaskPtr} (ok : RingOk s ring)
    (targetTicks : UInt32) : (taskSleepUntil s targetTicks).isSome = true := by
  cases isCurrent : s.currentTask with
  | none => simp [taskSleepUntil, isCurrent]
  | some me =>
    simp only [taskSleepUntil, isCurrent]
    exact switch_returns ok (.modify _ me _ isCurrent (fun _ => rfl) (fun _ => rfl))

-- No primitive and no switch follows its lists for ever.
theorem step_returns (inv : SyncInv history sys) {action : Action} (outside : sys.executing = none)
    (notCreate : ∀ r, action ≠ .create r) (notResume : action ≠ .resume) :
    (sys.step action).isSome = true := by
  cases action with
  | create r => exact absurd rfl (notCreate r)
  | resume => exact absurd rfl notResume
  | lock m =>
    obtain ⟨kernel, returned⟩ := lock_returns inv m
    cases isCurrent : sys.current with
    | none => simp [step, outside, call, returned, isCurrent]
    | some me =>
      simp only [step, outside, call, returned, isCurrent, bind_eq_bind, bind_some]
      split_ifs <;> simp_all
  | wait i =>
    obtain ⟨kernel, returned⟩ := wait_returns inv i
    cases isCurrent : sys.current with
    | none => simp [step, outside, call, returned, isCurrent]
    | some me =>
      simp only [step, outside, call, returned, isCurrent, bind_eq_bind, bind_some]
      split_ifs <;> simp_all
  | trylock m => cases isCurrent : sys.current <;> simp [step, outside, call, isCurrent]
  | unlock m =>
    cases isCurrent : sys.current with
    | none => simp [step, outside, call, isCurrent]
    | some me =>
      cases head : (sys.kernel.mutexes m).waitQueue <;>
        simp only [step, outside, call, isCurrent, head] <;> split_ifs <;> simp_all
  | post i =>
    cases head : (sys.kernel.semaphores i).waitQueue <;> simp [step, outside, call, head]
  | yield => simpa [step, outside, call, taskYield] using switch_returns inv.ring (.refl _)
  | sleep milliseconds =>
    cases isCurrent : sys.kernel.sched.currentTask with
    | none => simp [step, outside, call, taskSleep, isCurrent]
    | some me =>
      simpa [step, outside, call, taskSleep, isCurrent] using sleepUntil_returns inv.ring _
  | sleepUntil targetTicks =>
    simpa [step, outside, call] using sleepUntil_returns inv.ring targetTicks
  | exit =>
    cases isCurrent : sys.kernel.sched.currentTask with
    | none => simp [step, outside, call, taskExit, isCurrent]
    | some me =>
      have touches : Touches sys.kernel.sched (retire sys.kernel.sched me) :=
        .modify _ me _ isCurrent (fun _ => rfl) (fun _ => rfl)
      simpa [step, outside, call, taskExit, isCurrent] using switch_returns inv.ring touches
  | tick =>
    cases isCurrent : sys.kernel.sched.currentTask with
    | none => simp [step, timerHandler, isCurrent]
    | some me =>
      have touches : Touches sys.kernel.sched (useTimeSlice (countTick sys.kernel.sched) me) :=
        Touches.ticked (.modify _ me _ isCurrent (fun _ => rfl) (fun _ => rfl))
      have switched := switch_returns inv.ring touches
      simp only [step, timerHandler, isCurrent]
      split_ifs <;> simp [switched]

theorem lock_excludes (start : System) (initial : Initial start) (history : List Event)
    (sys : System) (run : Run System.step BlockFinds start history sys) (m : Nat) :
    (∀ p, PastLock m p history → Holds sys m p) ∧
      ∀ p p', PastLock m p history → PastLock m p' history → p = p' := by
  have inv := SyncInv.run initial run
  refine ⟨inv.past m, ?_⟩
  intro p p' first second
  exact Option.some.inj ((inv.past m p first).2.symm.trans (inv.past m p' second).2)

def freshTask (p : TaskPtr) : Action :=
  .create { entry := 0, taskStartAsm := 0, name := none, priority := 0, memory := some p,
            stackPageLeft := true }

def booted : System where
  kernel := {
    sched := taskInit {
      tasks := fun _ => ⟨0, 0, 0, 0, 0, .ready, 0, 0, none, none, 0, []⟩
      taskList := none, currentTask := none, nextTaskId := 0, taskCount := 0, ticks := 0, esp := 0
      stack := fun _ => 0 }
    mutexes := fun _ => mutexInit
    semaphores := fun _ => semInit 0 }
  ring := []
  pending := fun _ => none

theorem booted_initial : Initial booted :=
  ⟨⟨_, rfl⟩, rfl, fun _ => rfl, fun _ => ⟨0, rfl⟩, fun _ => rfl⟩

theorem lock_excludes_handover :
    ∃ history sys, Run System.step BlockFinds booted history sys ∧
      PastLock 0 1 history ∧ Holds sys 0 1 := by
  obtain ⟨history, sys, run, past⟩ := Run.exists_of_actions System.step BlockFinds booted
    [freshTask 1, freshTask 2, .yield, .lock 0, .yield, .lock 0, .unlock 0, .yield, .resume]
    (fun history _ => PastLock 0 1 history) (by decide +kernel)
  have past : PastLock 0 1 history := by simpa using past
  exact ⟨history, sys, run, past, (lock_excludes booted booted_initial history sys run 0).1 1 past⟩

-- Task 2 takes the mutex and sleeps. Task 1 finds nobody ready when it blocks, so
-- its `mutex_lock` returns while task 2 still owns the mutex.
theorem sleeping_owner_not_excluded :
    ∃ history sys, Run System.step (fun _ _ => True) booted history sys ∧ Initial booted ∧
      PastLock 0 1 history ∧ PastLock 0 2 history ∧ ¬ Holds sys 0 1 := by
  obtain ⟨history, sys, run, checked⟩ := Run.exists_of_actions System.step (fun _ _ => True) booted
    [freshTask 1, freshTask 2, .yield, .lock 0, .sleepUntil 100, .lock 0]
    (fun history sys => PastLock 0 1 history ∧ PastLock 0 2 history ∧ ¬ Holds sys 0 1)
    (by decide +kernel)
  exact ⟨history, sys, run, booted_initial, by simpa using checked⟩

def Leaves : Action → Bool
  | .sleep _ | .sleepUntil _ | .exit => true
  | _ => false

def GivesUp (sys : System) (me : TaskPtr) (action : Action) : Prop :=
  Blocks sys me action ∨ Leaves action = true

def SwitchFinds (sys : System) (action : Action) : Prop :=
  (∀ me, sys.current = some me → GivesUp sys me action → OtherWakeable sys me) ∧
    ¬ ZeroSleep sys.kernel.sched action

theorem SwitchFinds.blockFinds {action : Action} (met : SwitchFinds sys action) :
    BlockFinds sys action := by
  intro me isCurrent blocks
  exact met.1 me isCurrent (.inl blocks)

section

variable {sys' : System} {call : KernelCall} {events : List Event}

theorem Performed.taken_unqueued (inv : SyncInv history sys)
    (performed : Performed history sys call sys' events) (m : Nat) (p : TaskPtr)
    (member : .taken m p ∈ events) : waiting (.mutex m) history = [] := by
  cases performed with
  | took _ m' me free =>
    obtain ⟨rfl, rfl⟩ : m = m' ∧ p = me := by simpa using member
    by_contra nonempty
    simp [inv.locked m nonempty] at free
  | blocked q me queued sched head =>
    exact absurd member ((afterBlock_fields sys _ me q).2.2.2 m p)
  | idle | tried | again | lowered | raised | posted | handed | released | refused | resumedLock
    | resumedWait | switched | ticked | created | forked => simp at member

theorem Performed.granted_first (performed : Performed history sys call sys' events)
    (q : WaitQueue) (p : TaskPtr) (member : .granted q p ∈ events) :
    (waiting q history).head? = some p ∧ ∀ m, q = .mutex m → Holds sys' m p := by
  cases performed with
  | handed m me first rest sched head _ _ queue =>
    obtain ⟨rfl, rfl⟩ : q = .mutex m ∧ p = first := by simpa using member
    refine ⟨by simp [queue], ?_⟩
    rintro m' ⟨⟩
    exact Kernel.handOver_self _ _ _ _
  | posted i first rest sched head queue =>
    obtain ⟨rfl, rfl⟩ : q = .semaphore i ∧ p = first := by simpa using member
    exact ⟨by simp [queue], fun m same => by cases same⟩
  | blocked q' me queued sched head =>
    exact absurd member ((afterBlock_fields sys _ me q').2.2.1 q p)
  | idle | tried | took | again | lowered | raised | released | refused | resumedLock
    | resumedWait | switched | ticked | created | forked => simp at member

theorem unlock_grants (inv : SyncInv history sys) (m : Nat) (me first : TaskPtr)
    (isCurrent : sys.current = some me) (idle : sys.pending me = none) (holds : Holds sys m me)
    (queue : (waiting (.mutex m) history).head? = some first) :
    ∃ sys', sys.step (.unlock m) = some (sys', [.granted (.mutex m) first, .left m me]) ∧
      Holds sys' m first := by
  obtain ⟨rest, split⟩ : ∃ rest, waiting (.mutex m) history = first :: rest := by
    cases waiters : waiting (.mutex m) history with
    | nil => simp [waiters] at queue
    | cons x rest => exact ⟨rest, by simpa [waiters] using queue⟩
  have chain := inv.chain (.mutex m)
  rw [split] at chain
  have head : (sys.kernel.mutexes m).waitQueue = some first := chain.1
  have taken : sys.step (.unlock m) = some ({ sys with kernel := mutexUnlock sys.kernel m },
      [.granted (.mutex m) first, .left m me]) := by
    simp [step, call, executing, isCurrent, idle, head, holds.1, holds.2]
  exact ⟨_, taken, ((step_performed inv taken).granted_first (.mutex m) first (by simp)).2 m rfl⟩

end

structure FairQueues (history : List Event) (sys : System) : Prop where
  chain : ∀ q, Chain sys.kernel.sched.queueLink (sys.kernel.queueHead q) (waiting q history)
  nodup : ∀ q, (waiting q history).Nodup
  oneQueue : ∀ p q q', p ∈ waiting q history → p ∈ waiting q' history → q = q'
  tasks : ∀ q, ∀ p ∈ waiting q history, p ∈ sys.ring
  parked : ∀ p ∈ sys.ring, (∃ q, p ∈ waiting q history) ↔ Parked (sys.kernel.sched.tasks p)
  locked : ∀ m, waiting (.mutex m) history ≠ [] → (sys.kernel.mutexes m).locked = true
  order : ∀ q, blockedLog q history = grantedLog q history ++ waiting q history
  hands : ∀ m me first, sys.current = some me → sys.pending me = none → Holds sys m me →
    (waiting (.mutex m) history).head? = some first →
    ∃ sys', sys.step (.unlock m) = some (sys', [.granted (.mutex m) first, .left m me]) ∧
      Holds sys' m first
  granted : ∀ action sys' events m p, SwitchFinds sys action →
    sys.step action = some (sys', events) → .granted (.mutex m) p ∈ events →
    (waiting (.mutex m) history).head? = some p ∧ Holds sys' m p
  taken : ∀ action sys' events m p, SwitchFinds sys action →
    sys.step action = some (sys', events) → .taken m p ∈ events → waiting (.mutex m) history = []

theorem queues_fair (start : System) (initial : Initial start) (history : List Event)
    (sys : System) (run : Run System.step SwitchFinds start history sys) :
    FairQueues history sys := by
  have inv := SyncInv.run initial (run.mono fun _ _ met => met.blockFinds)
  have parked : ParkedQueued history sys := by
    have both := run.invariant (fun history sys => SyncInv history sys ∧ ParkedQueued history sys)
      ⟨initial.syncInv, by simp [ParkedQueued, initial.ring]⟩
      fun history before after action events inv met taken =>
        have performed := step_performed inv.1 taken
        ⟨inv.1.performed (fun _ acts => KernelCall.act.inj acts ▸ met.blockFinds) performed,
          inv.2.performed met.2 performed⟩
    exact both.2
  exact {
    chain := inv.chain
    nodup := fun q => chain_nodup _ (inv.chain q)
    oneQueue := fun p q q' => inv.one_queue q q' p
    tasks := inv.linked
    parked := fun p member => ⟨fun ⟨q, queued⟩ => inv.parked q p queued, parked p member⟩
    locked := inv.locked
    order := inv.served
    hands := unlock_grants inv
    granted := by
      intro action sys' events m p met taken member
      obtain ⟨first, holds⟩ := (step_performed inv taken).granted_first (.mutex m) p member
      exact ⟨first, holds m rfl⟩
    taken := fun action sys' events m p met taken =>
      (step_performed inv taken).taken_unqueued inv m p }

instance (sys : System) (me : TaskPtr) (action : Action) : Decidable (GivesUp sys me action) :=
  inferInstanceAs (Decidable (_ ∨ _))

instance (s : Sched) : (action : Action) → Decidable (ZeroSleep s action)
  | .sleep ms => inferInstanceAs (Decidable (sleepTarget s ms = 0))
  | .sleepUntil target => inferInstanceAs (Decidable (target = 0))
  | .create _ | .lock _ | .trylock _ | .unlock _ | .wait _ | .post _ | .yield | .exit | .tick
  | .resume => inferInstanceAs (Decidable False)

instance (sys : System) (action : Action) : Decidable (SwitchFinds sys action) :=
  decidable_of_iff ((∀ me ∈ sys.current, GivesUp sys me action → OtherWakeable sys me) ∧
    ¬ ZeroSleep sys.kernel.sched action) Iff.rfl

theorem queues_fair_two_waiters :
    ∃ history sys, Run System.step SwitchFinds booted history sys ∧
      waiting (.mutex 0) history = [1, 2] ∧ FairQueues history sys := by
  obtain ⟨history, sys, run, checked⟩ := Run.exists_of_actions System.step SwitchFinds booted
    [freshTask 1, freshTask 2, freshTask 3, .yield, .lock 0, .yield, .lock 0, .lock 0]
    (fun history _ => waiting (.mutex 0) history = [1, 2]) (by decide +kernel)
  exact ⟨history, sys, run, by simpa using checked, queues_fair booted booted_initial history sys run⟩

end ArgoOS.Tasking
