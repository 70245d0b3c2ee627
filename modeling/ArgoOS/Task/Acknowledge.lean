import ArgoOS.Task.TimeSlice

set_option autoImplicit false

/-! # The end of the timer interrupt -/

namespace ArgoOS.Tasking

open Stepper Option Function

structure IrqTrace where
  trace : TaskTrace
  -- The PIC has delivered IRQ 0 and got no end-of-interrupt for it.
  inService : Bool
  -- How many calls of `irq_handler` a context has to return through.
  frames : Option TaskPtr → Nat

def IrqTrace.current (t : IrqTrace) : Option TaskPtr := t.trace.sched.currentTask

inductive IrqAction where
  -- `irq_handler(32)` up to the end of `timer_handler` or the switch in it.
  | enter
  -- The rest of it, in whatever context goes on.
  | sendEoi
  -- A call that a task, or the code before the first one, makes itself.
  | call (call : TaskCall)
deriving DecidableEq, Repr

def irqStep (t : IrqTrace) : IrqAction → Option (IrqTrace × List Empty)
  | .enter =>
    if t.inService then none
    else (taskStep t.trace .timerHandler).map fun r =>
      (⟨r.1, true, Function.update t.frames t.current (t.frames t.current + 1)⟩, [])
  | .sendEoi =>
    if t.frames t.current = 0 then none
    else some (⟨t.trace, false, Function.update t.frames t.current (t.frames t.current - 1)⟩, [])
  | .call call =>
    if t.frames t.current ≠ 0 ∨ call = .timerHandler then none
    else (taskStep t.trace call).map fun r => ({ t with trace := r.1 }, [])

-- Where no handler is left to return through, none waits for its end-of-interrupt.
def Acknowledged (t : IrqTrace) : Prop := t.frames t.current = 0 → t.inService = false

def TickStays (t : IrqTrace) : Prop :=
  ∀ p ∈ t.current, (t.trace.sched.tasks p).timeSlice = 1 → ∀ q ∈ t.trace.tasks, q ≠ p →
    ¬ Wakeable (t.trace.sched.ticks + 1) (t.trace.sched.tasks q)

def IrqMeets (t : IrqTrace) : IrqAction → Prop
  | .enter => TickStays t
  | .sendEoi => True
  | .call call => FreshMemory t.trace call

instance (t : IrqTrace) : Decidable (TickStays t) := by
  unfold TickStays
  infer_instance

instance (t : IrqTrace) (action : IrqAction) : Decidable (IrqMeets t action) := by
  cases action <;> unfold IrqMeets <;> infer_instance

def RingTrace (trace : TaskTrace) : Prop :=
  ∃ ring, RingOk trace.sched ring ∧ ring.Perm trace.tasks

variable {events : List Empty} {t : IrqTrace}

theorem taskStep_ring {before after : TaskTrace} {call : TaskCall} (ring : RingTrace before)
    (fresh : FreshMemory before call) (taken : taskStep before call = some (after, events)) :
    RingTrace after := by
  obtain ⟨ring, ok, perm⟩ := ring
  have outside : ∀ memory : Option TaskPtr, (∀ p ∈ memory, p ∉ before.tasks) →
      ∀ p ∈ memory, p ∉ ring := fun memory new p isMemory listed =>
    new p isMemory (perm.mem_iff.mp listed)
  obtain ⟨request, rfl, rfl⟩ | ⟨request, rfl, rfl⟩ | ⟨s, result, rfl⟩ := taskStep_cases taken
  · exact record_ring perm (taskCreate_cases ok request (outside request.memory fresh))
  · exact record_ring perm (forkTask_cases ok request (outside request.memory fresh))
  · exact ⟨ring, (scheduled_keepsTasks ok result).2, perm⟩

theorem tick_stays_iff (ring : RingTrace t.trace) {after : TaskTrace}
    (taken : taskStep t.trace .timerHandler = some (after, events)) :
    after.sched.currentTask = t.current ↔ TickStays t := by
  obtain ⟨ring, ok, perm⟩ := ring
  obtain ⟨_, isCreate, -⟩ | ⟨_, isFork, -⟩ | ⟨s, ticked, rfl⟩ := taskStep_cases taken
  · contradiction
  · contradiction
  change s.currentTask = t.trace.sched.currentTask ↔ TickStays t
  cases isCurrent : t.trace.sched.currentTask with
  | none =>
    simp only [scheduled, timerHandler, isCurrent] at ticked
    cases ticked
    simp [TickStays, IrqTrace.current, isCurrent, countTick]
  | some p =>
    rcases timerHandler_cases isCurrent ticked with ⟨last, switched⟩ | ⟨more, rfl⟩
    · have ready := (useTimeSlice_keepsTasks t.trace.sched p).ringOk ok ok.current
      constructor
      · rintro same q isCurrent' - r member different wakeable
        cases some.inj (isCurrent.symm.trans isCurrent')
        obtain ⟨chosen, left, now⟩ := taskSwitch_leaves ready isCurrent (perm.mem_iff.mpr member)
          different ((useTimeSlice_wakeable _ p r).mpr wakeable) switched
        exact left (some.inj (now.symm.trans same))
      · intro stays
        rcases taskSwitch_cases ready switched with ⟨rfl, -⟩ | ⟨chosen, member, wakeable, rfl⟩
        · exact isCurrent
        · rw [(switchTo_globals _ chosen).1]
          by_contra different
          exact stays p isCurrent last chosen (perm.mem_iff.mp member)
            (fun same => different (congrArg some same))
            ((useTimeSlice_wakeable _ p chosen).mp wakeable)
    · refine iff_of_true isCurrent ?_
      intro q isCurrent' last
      cases some.inj (isCurrent.symm.trans isCurrent')
      exact absurd last more

structure IrqInv (t : IrqTrace) : Prop where
  ring : RingTrace t.trace
  acknowledged : Acknowledged t
  others : ∀ p, p ≠ t.current → t.frames p = 0

theorem IrqInv.enter {after : IrqTrace} (inv : IrqInv t)
    (taken : irqStep t .enter = some (after, events)) :
    RingTrace after.trace ∧ (∀ p, p ≠ t.current → after.frames p = 0) ∧
      (after.current = t.current ↔ TickStays t) ∧
      (Acknowledged after ↔ after.current = t.current) := by
  simp only [irqStep] at taken
  split at taken
  · contradiction
  · obtain ⟨⟨trace, none⟩, ticked, same⟩ := map_eq_some_iff.mp taken
    cases same
    have others : ∀ p, p ≠ t.current →
        update t.frames t.current (t.frames t.current + 1) p = 0 := fun p other => by
      rw [update_of_ne other, inv.others p other]
    have fresh : FreshMemory t.trace .timerHandler := trivial
    refine ⟨taskStep_ring inv.ring fresh ticked, others, tick_stays_iff inv.ring ticked, ?_⟩
    constructor
    · intro acknowledged
      by_contra left
      exact Bool.noConfusion (acknowledged (others _ left))
    · intro stayed empty
      simp [stayed] at empty

theorem irqStep_inv {after : IrqTrace} {action : IrqAction} (inv : IrqInv t)
    (met : IrqMeets t action) (taken : irqStep t action = some (after, events)) : IrqInv after := by
  cases action with
  | enter =>
    obtain ⟨ring, others, stays, acknowledged⟩ := inv.enter taken
    have same := stays.mpr met
    exact ⟨ring, acknowledged.mpr same, same ▸ others⟩
  | sendEoi =>
    simp only [irqStep] at taken
    split at taken
    · contradiction
    · cases taken
      refine ⟨inv.ring, fun _ => rfl, fun p other => ?_⟩
      exact (update_of_ne other _ _).trans (inv.others p other)
  | call call =>
    simp only [irqStep] at taken
    split at taken
    · contradiction
    · next own =>
      obtain ⟨empty, -⟩ := not_or.mp own
      obtain ⟨⟨trace, none⟩, stepped, same⟩ := map_eq_some_iff.mp taken
      cases same
      have unframed : ∀ p, t.frames p = 0 := by
        intro p
        by_cases isCurrent : p = t.current
        · rw [isCurrent]
          exact not_not.mp empty
        · exact inv.others p isCurrent
      exact ⟨taskStep_ring inv.ring met stepped,
        fun _ => inv.acknowledged (unframed _), fun p _ => unframed p⟩

theorem timer_acknowledged (s : Sched) (history : List Empty) (t : IrqTrace)
    (run : Run irqStep IrqMeets ⟨⟨taskInit s, [], 0⟩, false, fun _ => 0⟩ history t) :
    Acknowledged t ∧ ∀ after events, irqStep t .enter = some (after, events) →
      (Acknowledged after ↔ TickStays t) := by
  have start : IrqInv ⟨⟨taskInit s, [], 0⟩, false, fun _ => 0⟩ :=
    ⟨⟨[], (taskInit_inv s).ok, (taskInit_inv s).created⟩, fun _ => rfl, fun _ _ => rfl⟩
  have inv := run.invariant (fun _ t => IrqInv t) start
    fun _ _ _ _ _ inv met taken => irqStep_inv inv met taken
  refine ⟨inv.acknowledged, fun after events taken => ?_⟩
  obtain ⟨-, -, stays, acknowledged⟩ := inv.enter taken
  exact acknowledged.trans stays

theorem timer_acknowledged_alone : ∃ history t,
    Run irqStep IrqMeets ⟨⟨taskInit blankSched, [], 0⟩, false, fun _ => 0⟩ history t ∧
      t.current = some 1 ∧ t.trace.sched.ticks = 10 ∧ Acknowledged t := by
  obtain ⟨history, t, run, checked⟩ := Run.exists_of_actions irqStep IrqMeets
    ⟨⟨taskInit blankSched, [], 0⟩, false, fun _ => 0⟩
    ([.call (createAt 1), .call (createAt 2), .call .taskSwitch, .call (.taskSleepUntil 20)] ++
      (List.replicate 10 [.enter, .sendEoi]).flatten)
    (fun _ t => t.current = some 1 ∧ t.trace.sched.ticks = 10) (by decide +kernel)
  obtain ⟨isCurrent, ticks⟩ := of_decide_eq_true checked
  exact ⟨history, t, run, isCurrent, ticks, (timer_acknowledged blankSched history t run).1⟩

-- The tenth tick starts the first task, and no further one can follow.
theorem preemption_unacknowledged : ∃ history t,
    Run irqStep (fun _ _ => True) ⟨⟨taskInit blankSched, [], 0⟩, false, fun _ => 0⟩ history t ∧
      t.current = some 1 ∧ ¬ Acknowledged t ∧ (irqStep t .enter).isNone := by
  obtain ⟨history, t, run, checked⟩ := Run.exists_of_actions irqStep (fun _ _ => True)
    ⟨⟨taskInit blankSched, [], 0⟩, false, fun _ => 0⟩
    ([.call (createAt 1), .call (createAt 2), .call .taskSwitch] ++
      (List.replicate 9 [.enter, .sendEoi]).flatten ++ [.enter])
    (fun _ t => t.current = some 1 ∧ (t.frames t.current = 0 ∧ t.inService = true) ∧
      (irqStep t .enter).isNone) (by decide +kernel)
  obtain ⟨isCurrent, ⟨empty, waiting⟩, stuck⟩ := of_decide_eq_true checked
  refine ⟨history, t, run, isCurrent, fun acknowledged => ?_, stuck⟩
  rw [acknowledged empty] at waiting
  contradiction

end ArgoOS.Tasking
