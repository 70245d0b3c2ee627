import ArgoOS.Task.MutualExclusion

set_option autoImplicit false

/-! # Calls that give up the CPU -/

namespace ArgoOS.Tasking

open Linked ArgoOS.Tasking.System

def Event.grants (p : TaskPtr) : Event → Bool
  | .granted _ task => task = p
  | _ => false

-- A call that gives up the CPU leaves a task that can have it: another one that is ready
-- or whose sleep is over, or the caller if the tick it sleeps until has been reached.
def LeavesTask (sys : System) (call : KernelCall) : Prop :=
  ∀ me ∈ sys.current, ∀ suspension ∈ gaveUp sys me call,
    OtherWakeable sys me ∨ suspension.DueAt sys.kernel.sched.ticks

instance (sys : System) (call : KernelCall) : Decidable (LeavesTask sys call) :=
  inferInstanceAs (Decidable (∀ me ∈ sys.current, _))

theorem Calm.wakeable {t t' : Task} (calm : Calm t t') (ticks : UInt32) :
    Wakeable ticks t' ↔ Wakeable ticks t := by
  rw [Wakeable, Wakeable, Due, Due, calm.1, calm.2]

-- A step either leaves the executing task where it is, waking at most the head of a wait
-- queue, or it ends in a switch.
inductive Outcome (sys : System) (call : KernelCall) (sys' : System) (events : List Event) :
    Prop where
  | quiet (stays : ∀ me, sys.current = some me → gaveUp sys me call = none)
      (current : sys'.current = sys.current) (ring : sys.ring ⊆ sys'.ring)
      (tasks : ∀ p ∈ sys.ring, Calm (sys.kernel.sched.tasks p) (sys'.kernel.sched.tasks p) ∨
        events.any (Event.grants p) = true ∧ Parked (sys.kernel.sched.tasks p)) :
      Outcome sys call sys' events
  | switched (s : Sched) (readied : Readied sys call s) (ticks : sys'.kernel.sched.ticks = s.ticks)
      (ring : sys'.ring = sys.ring) (ungranted : ∀ p, events.any (Event.grants p) = false)
      (switch : taskSwitch s = some sys'.kernel.sched) : Outcome sys call sys' events

section

variable {log : List Event} {sys sys' : System} {call : KernelCall} {events : List Event}

theorem Outcome.unchanged (stays : ∀ me, sys.current = some me → gaveUp sys me call = none)
    (sched : sys'.kernel.sched = sys.kernel.sched) (ring : sys'.ring = sys.ring) :
    Outcome sys call sys' events := by
  refine .quiet stays (congrArg Sched.currentTask sched) (ring ▸ List.Subset.refl _) ?_
  intro p _
  rw [sched]
  exact .inl (.refl _)

section

variable {q : WaitQueue} {sched : Sched} {head : Option TaskPtr} (inv : SyncInv log sys)

include inv

theorem block_outcome {me : TaskPtr} {queued : Sched} (isCurrent : sys.current = some me)
    (blocks : Blocks sys me (blockingCall q))
    (enqueued : Enqueued sys.kernel.sched queued me head (waiting q log))
    (switch : taskSwitch queued = some sched) :
    Outcome sys (.act (blockingCall q))
      (sys.afterBlock ((sys.kernel.withSched sched).setQueueHead q head) me q).1
      (sys.afterBlock ((sys.kernel.withSched sched).setQueueHead q head) me q).2 := by
  obtain ⟨kernel, ring, ungranted, -⟩ := afterBlock_fields sys
    ((sys.kernel.withSched sched).setQueueHead q head) me q
  obtain ⟨list, count, current, ticks⟩ := enqueued.globals
  have gives : gaveUp sys me (.act (blockingCall q)) = some (.block false) := by
    cases q <;> exact if_pos blocks
  have readied : Readied sys (.act (blockingCall q)) queued := by
    refine ⟨inv.ring.congr (fun p _ => enqueued.next p) list count
      (fun p same => inv.ring.current p (current ▸ same)), current, ?_, ?_, ?_⟩
    · intro p other
      refine enqueued.others p ?_
      rintro rfl
      exact other isCurrent
    · intro me' same kept
      cases Option.some.inj (isCurrent.symm.trans same)
      simp [gives] at kept
    · intro me' other same gives'
      cases Option.some.inj (isCurrent.symm.trans same)
      cases Option.some.inj (gives.symm.trans gives')
      exact ⟨enqueued.parked, ticks⟩
  generalize sys.afterBlock ((sys.kernel.withSched sched).setQueueHead q head) me q = result
    at kernel ring ungranted
  have after : result.1.kernel.sched = sched := by
    rw [kernel, Kernel.setQueueHead_sched]
    rfl
  subst after
  refine .switched queued readied (taskSwitch_ticks switch) ring (fun p => ?_) switch
  refine List.any_eq_false.mpr fun event member grants => ?_
  cases event with
  | granted q' p' => exact ungranted q' p' member
  | blocked | taken | entered | left => simp [Event.grants] at grants

theorem unblock_outcome {first : TaskPtr} {rest : List TaskPtr}
    (queue : waiting q log = first :: rest)
    (effect : UnblockEffect sys.kernel.sched sched sys.ring first head rest)
    (calm : ∀ p, p ≠ first → Calm (sys.kernel.sched.tasks p) (sched.tasks p))
    (stays : ∀ me, sys.current = some me → gaveUp sys me call = none)
    (after : sys'.kernel.sched = sched) (ring : sys'.ring = sys.ring)
    (granted : events.any (Event.grants first) = true) : Outcome sys call sys' events := by
  subst after
  refine .quiet stays effect.current (ring ▸ List.Subset.refl _) fun p _ => ?_
  by_cases same : p = first
  · subst same
    exact .inr ⟨granted, inv.parked q p (by simp [queue])⟩
  · exact .inl (calm p same)

end

theorem Performed.outcome (inv : SyncInv log sys)
    (performed : Performed log sys call sys' events) : Outcome sys call sys' events := by
  cases performed with
  | idle nobody => exact .unchanged (fun me same => by simp [nobody] at same) rfl rfl
  | took plain | again plain => exact .unchanged plain.stays rfl rfl
  | blocked q me queued sched head isCurrent blocks enqueued switch =>
    exact block_outcome inv isCurrent blocks enqueued switch
  | lowered i positive =>
    exact .unchanged (fun me _ => if_neg (UInt32.pos_iff_ne_zero.mp positive)) rfl rfl
  | posted i first rest sched head queue effect calm =>
    exact unblock_outcome inv queue effect calm (fun _ _ => rfl) rfl rfl
      (by simp [Event.grants])
  | handed m me first rest sched head _ _ queue effect calm =>
    exact unblock_outcome inv queue effect calm (fun _ _ => rfl) rfl rfl
      (by simp [Event.grants])
  | switched s sched _ _ readied switch =>
    exact .switched s readied (taskSwitch_ticks switch) rfl (fun _ => rfl) switch
  | ticked sched touches calm =>
    exact .quiet (fun _ _ => rfl) touches.globals.2.2 (List.Subset.refl _) (fun p _ => .inl (calm p))
  | created _ sched ring moves _ current calm =>
    exact .quiet (fun _ _ => rfl) current moves.grows (fun p member => .inl (calm p member))
  | forked _ sched ring moves current calm =>
    exact .quiet (fun _ _ => rfl) current moves.grows (fun p member => .inl (calm p member))
  | tried | raised | released | refused | resumedLock | resumedWait =>
    exact .unchanged (fun _ _ => rfl) rfl rfl

theorem LeavesTask.blockFinds (met : LeavesTask sys call) (action : Action)
    (acts : call = .act action) : BlockFinds sys action := by
  subst acts
  intro me isCurrent blocks
  have gives : gaveUp sys me (.act action) = some (.block false) := by
    cases action with
    | lock m => exact if_pos blocks
    | wait i => exact if_pos blocks
    | create | trylock | unlock | post | yield | sleep | sleepUntil | exit | tick | resume =>
      exact blocks.elim
  exact (met me isCurrent _ gives).resolve_right id

end

end ArgoOS.Tasking
