import ArgoOS.Task.Outcome

set_option autoImplicit false

/-! # The permits of a semaphore -/

namespace ArgoOS.Tasking

open Linked Stepper ArgoOS.Tasking.System Function

structure Metered where
  system : System
  log : List Event
  waits : Nat → Nat
  posts : Nat → Nat
  granted : Nat → Nat

def countUp (i : Nat) (counter : Nat → Nat) : Nat → Nat := Function.update counter i (counter i + 1)

namespace Metered

def begun (start : System) : Metered := ⟨start, [], fun _ => 0, fun _ => 0, fun _ => 0⟩

def count (m : Metered) (call : KernelCall) : Metered :=
  match call with
  | .act (.wait i) =>
    { m with
      waits := countUp i m.waits
      granted := if 0 < (m.system.kernel.semaphores i).count then countUp i m.granted
        else m.granted }
  | .act (.post i) =>
    { m with
      posts := countUp i m.posts
      granted := if (m.system.kernel.semaphores i).waitQueue.isSome then countUp i m.granted
        else m.granted }
  | _ => m

def step (m : Metered) (call : KernelCall) : Option (Metered × List Empty) :=
  (m.system.kernelStep call).map fun (system, events) =>
    ({ m.count call with system, log := events ++ m.log }, [])

end Metered

-- A wait is called by a task, and a task that blocks leaves another one the CPU.
def Waitable (m : Metered) : KernelCall → Prop
  | .act (.wait i) => m.system.current ≠ none ∧ BlockFinds m.system (.wait i)
  | .act action => BlockFinds m.system action
  | .fork _ => True

instance (m : Metered) (call : KernelCall) : Decidable (Waitable m call) := by
  unfold Waitable
  split <;> infer_instance

variable {call : KernelCall}

theorem Waitable.blockFinds {m : Metered} (met : Waitable m call) (action : Action)
    (acts : call = .act action) : BlockFinds m.system action := by
  subst acts
  cases action with
  | wait i => exact met.2
  | create | lock | trylock | unlock | post | yield | sleep | sleepUntil | exit | tick | resume =>
    exact met

inductive Metering (i : Nat) (call : KernelCall) (count count' : UInt32)
    (queue queue' : List TaskPtr) : Prop where
  | other (notWait : call ≠ .act (.wait i)) (notPost : call ≠ .act (.post i))
      (sameCount : count' = count) (sameQueue : queue' = queue)
  | took (isWait : call = .act (.wait i)) (positive : 0 < count) (less : count' = count - 1)
      (sameQueue : queue' = queue)
  | blocked (isWait : call = .act (.wait i)) (zero : count = 0) (still : count' = 0)
      (me : TaskPtr) (longer : queue' = queue ++ [me])
  | raised (isPost : call = .act (.post i)) (empty : queue = []) (still : queue' = [])
      (more : count' = count + 1)
  | handed (isPost : call = .act (.post i)) (first : TaskPtr) (head : queue = first :: queue')
      (sameCount : count' = count)

theorem Performed.metering {log events : List Event} {sys sys' : System}
    (byTask : ∀ i, call = .act (.wait i) → sys.current ≠ none)
    (performed : Performed log sys call sys' events) (i : Nat) :
    Metering i call (sys.kernel.semaphores i).count (sys'.kernel.semaphores i).count
      (waiting (.semaphore i) log) (waiting (.semaphore i) (events ++ log)) := by
  cases performed with
  | idle nobody notPost => exact .other (fun same => byTask i same nobody) (notPost i) rfl rfl
  | took plain | again plain => exact .other (plain.notWait i) (plain.notPost i) rfl rfl
  | blocked q me queued sched head isCurrent blocks =>
    rw [(afterBlock_fields sys _ me q).1, afterBlock_waiting]
    cases q with
    | mutex m => exact .other (by simp [blockingCall]) (by simp [blockingCall]) rfl (by simp)
    | semaphore j =>
      by_cases same : i = j
      · subst same
        have zero : (sys.kernel.semaphores i).count = 0 := blocks
        refine .blocked rfl zero ?_ me (by simp)
        simpa [Kernel.setQueueHead, Kernel.setSemaphore, Kernel.withSched] using zero
      · refine .other (by simp [blockingCall, Ne.symm same]) (by simp [blockingCall]) ?_
          (by simp [Ne.symm same])
        simp [Kernel.setQueueHead, Kernel.setSemaphore, Kernel.withSched, same]
  | lowered j positive =>
    by_cases same : i = j
    · subst same
      exact .took rfl positive (by simp [Kernel.setSemaphore]) rfl
    · exact .other (by simp [Ne.symm same]) (by simp) (by simp [Kernel.setSemaphore, same]) rfl
  | raised j queue =>
    by_cases same : i = j
    · subst same
      exact .raised rfl queue queue (by simp [Kernel.setSemaphore])
    · exact .other (by simp) (by simp [Ne.symm same]) (by simp [Kernel.setSemaphore, same]) rfl
  | posted j first rest sched head queue =>
    by_cases same : i = j
    · subst same
      exact .handed rfl first (by simp [waiting, queue])
        (by simp [Kernel.setQueueHead, Kernel.setSemaphore, Kernel.withSched])
    · exact .other (by simp) (by simp [Ne.symm same])
        (by simp [Kernel.setQueueHead, Kernel.setSemaphore, Kernel.withSched, same])
        (by simp [waiting, Ne.symm same])
  | handed => exact .other (by simp) (by simp) rfl (by simp [waiting])
  | switched _ _ notWait notPost => exact .other (notWait i) (notPost i) rfl rfl
  | tried | released | refused | resumedLock | resumedWait | ticked | created | forked =>
    exact .other (by simp) (by simp) rfl rfl

-- The books of one semaphore. `initial` is the value it was initialised with.
structure Balanced (initial : UInt32) (i : Nat) (m : Metered) : Prop where
  waits : m.waits i = m.granted i + (waiting (.semaphore i) m.log).length
  -- As long as the count cannot have wrapped around.
  permits : initial.toNat + m.posts i < 2 ^ 32 →
    initial.toNat + m.posts i = (m.system.kernel.semaphores i).count.toNat + m.granted i
  empty : waiting (.semaphore i) m.log ≠ [] → (m.system.kernel.semaphores i).count = 0

theorem count_other (m : Metered) {i : Nat} (notWait : call ≠ .act (.wait i))
    (notPost : call ≠ .act (.post i)) :
    (m.count call).waits i = m.waits i ∧ (m.count call).posts i = m.posts i ∧
      (m.count call).granted i = m.granted i := by
  unfold Metered.count
  split
  · next j =>
    have other : i ≠ j := by
      rintro rfl
      exact notWait rfl
    split <;> simp [countUp, other]
  · next j =>
    have other : i ≠ j := by
      rintro rfl
      exact notPost rfl
    split <;> simp [countUp, other]
  · exact ⟨rfl, rfl, rfl⟩

theorem Balanced.step {initial : UInt32} {i : Nat} {m m' : Metered} {none : List Empty}
    (balanced : Balanced initial i m) (inv : SyncInv m.log m.system) (met : Waitable m call)
    (taken : m.step call = some (m', none)) : Balanced initial i m' := by
  obtain ⟨waits, permits, empty⟩ := balanced
  obtain ⟨⟨system, events⟩, stepped, same⟩ := Option.map_eq_some_iff.mp taken
  cases same
  have chain := inv.chain (.semaphore i)
  have byTask : ∀ j, call = .act (.wait j) → m.system.current ≠ .none := by
    rintro j rfl
    exact met.1
  cases (kernelStep_performed inv stepped).metering byTask i with
  | other notWait notPost sameCount sameQueue =>
    obtain ⟨sameWaits, samePosts, sameGranted⟩ := count_other m notWait notPost
    refine ⟨?_, ?_, ?_⟩
    · simp only [sameWaits, sameGranted, sameQueue, waits]
    · simp only [samePosts, sameGranted, sameCount]
      exact permits
    · simp only [sameQueue, sameCount]
      exact empty
  | took isWait positive less sameQueue =>
    subst isWait
    have least : 1 ≤ (m.system.kernel.semaphores i).count.toNat := UInt32.lt_iff_toNat_lt.mp positive
    have covered : 1 ≤ (m.system.kernel.semaphores i).count := UInt32.le_iff_toNat_le.mpr least
    refine ⟨?_, ?_, ?_⟩
    · simp only [Metered.count, positive, if_true, countUp, update_self, sameQueue, waits]
      omega
    · intro small
      simp only [Metered.count, positive, if_true, countUp, update_self] at small ⊢
      have before := permits small
      rw [less, UInt32.toNat_sub_of_le _ _ covered, UInt32.toNat_one]
      omega
    · intro nonempty
      simp only [sameQueue] at nonempty
      simp [empty nonempty] at positive
  | blocked isWait zero still me longer =>
    subst isWait
    refine ⟨?_, ?_, fun _ => still⟩
    · simp only [Metered.count, zero, UInt32.lt_irrefl, if_false, countUp, update_self,
        longer, waits, List.length_append, List.length_singleton]
      omega
    · intro small
      simp only [Metered.count, zero, UInt32.lt_irrefl, if_false] at small ⊢
      rw [still, permits small, zero]
  | raised isPost isEmpty still more =>
    subst isPost
    rw [isEmpty] at chain
    have head : (m.system.kernel.semaphores i).waitQueue.isSome = false := by
      rw [show (m.system.kernel.semaphores i).waitQueue = .none from chain]
      rfl
    refine ⟨?_, ?_, fun nonempty => absurd still nonempty⟩
    · simp [Metered.count, head, still, waits, isEmpty]
    · intro small
      simp only [Metered.count, head, countUp, update_self] at small ⊢
      have before := permits (by omega)
      rw [more, UInt32.toNat_add, UInt32.toNat_one, Nat.mod_eq_of_lt (by omega)]
      simp only [Bool.false_eq_true, if_false]
      omega
  | handed isPost first queue sameCount =>
    subst isPost
    rw [queue] at chain
    have head : (m.system.kernel.semaphores i).waitQueue.isSome = true := by
      rw [show (m.system.kernel.semaphores i).waitQueue = some first from chain.1]
      rfl
    have zero := empty (by simp [queue])
    refine ⟨?_, ?_, fun _ => sameCount.trans zero⟩
    · simp only [Metered.count, head, if_true, countUp, update_self, waits, queue,
        List.length_cons]
      omega
    · intro small
      simp only [Metered.count, head, if_true, countUp, update_self] at small ⊢
      have before := permits (by omega)
      rw [sameCount]
      omega

-- What holds of a semaphore that was initialised with `initial`: no permit is lost or
-- duplicated, the waits that were not granted are on the queue, and they are granted in
-- the order in which they blocked.
structure PermitsKept (initial : UInt32) (i : Nat) (m : Metered) : Prop where
  permits : initial.toNat + m.posts i =
    (m.system.kernel.semaphores i).count.toNat + m.granted i
  queue : ∃ queue : List TaskPtr,
    Chain m.system.kernel.sched.queueLink (m.system.kernel.semaphores i).waitQueue queue ∧
    m.waits i = m.granted i + queue.length ∧
    (queue ≠ [] → (m.system.kernel.semaphores i).count = 0) ∧
    blockedLog (.semaphore i) m.log = grantedLog (.semaphore i) m.log ++ queue

theorem semaphore_permits_kept (start : System) (initial : Initial start) (i : Nat)
    (value : UInt32) (initialised : start.kernel.semaphores i = semInit value)
    (history : List Empty) (m : Metered)
    (run : Run Metered.step Waitable (.begun start) history m)
    (posts : m.posts i < 2 ^ 32 - value.toNat) : PermitsKept value i m := by
  have inv := run.invariant (fun _ m => SyncInv m.log m.system ∧ Balanced value i m)
    ⟨initial.syncInv, ⟨rfl, fun _ => by simp [Metered.begun, initialised, semInit],
      fun nonempty => absurd rfl nonempty⟩⟩ (by
      intro _ before after call none inv met taken
      refine ⟨?_, inv.2.step inv.1 met taken⟩
      obtain ⟨⟨system, events⟩, stepped, same⟩ := Option.map_eq_some_iff.mp taken
      cases same
      exact inv.1.performed met.blockFinds (kernelStep_performed inv.1 stepped))
  obtain ⟨sync, balanced⟩ := inv
  exact ⟨balanced.permits (by omega), waiting (.semaphore i) m.log, sync.chain (.semaphore i),
    balanced.waits, balanced.empty, sync.served (.semaphore i)⟩

theorem semaphore_permits_kept_waiter : ∃ history m,
    Run Metered.step Waitable (.begun booted) history m ∧ m.waits 0 = 2 ∧ m.posts 0 = 1 ∧
      PermitsKept 0 0 m := by
  obtain ⟨history, m, run, checked⟩ := Run.exists_of_actions Metered.step Waitable (.begun booted)
    [.act (freshTask 1), .act (freshTask 2), .act (freshTask 3), .act .yield, .act (.wait 0),
      .act (.wait 0), .act (.post 0)]
    (fun _ m => m.waits 0 = 2 ∧ m.posts 0 = 1) (by decide +kernel)
  obtain ⟨waits, posts⟩ : m.waits 0 = 2 ∧ m.posts 0 = 1 := by simpa using checked
  exact ⟨history, m, run, waits, posts, semaphore_permits_kept booted booted_initial 0 0 rfl
    history m run (by rw [posts]; decide)⟩

end ArgoOS.Tasking
