import ArgoOS.Task.TaskList

set_option autoImplicit false

/-! # Preemption -/

namespace ArgoOS.Tasking

open Stepper Option

def Sched.turn (s : Sched) : Option (TaskPtr × UInt32) :=
  s.currentTask.map fun p => (p, (s.tasks p).timeSlice)

inductive SliceEvent where
  -- A timer interrupt with a task executing, and whether it called `task_switch`.
  | tick (switches : Bool)
  -- Another call handed the CPU over or started a new slice.
  | handed
deriving DecidableEq, Repr

def sliceEvents (s s' : Sched) : TaskCall → List SliceEvent
  | .timerHandler =>
    match s.currentTask with
    | none => []
    | some p => [.tick (decide ((s.tasks p).timeSlice - 1 = 0))]
  | _ => if s'.turn = s.turn then [] else [.handed]

def sliceStep (trace : TaskTrace) (call : TaskCall) : Option (TaskTrace × List SliceEvent) :=
  (taskStep trace call).map fun r => (r.1, sliceEvents trace.sched r.1.sched call)

-- The interrupts since the last one that called `task_switch` or the last hand-over.
def quietTicks : List SliceEvent → Nat
  | .tick false :: history => quietTicks history + 1
  | _ => 0

def TickFinds (trace : TaskTrace) : TaskCall → Prop
  | .timerHandler => ∀ p ∈ trace.sched.currentTask, (trace.sched.tasks p).timeSlice = 1 →
      ∃ q ∈ trace.tasks, Wakeable (trace.sched.ticks + 1) (trace.sched.tasks q)
  | _ => True

instance (trace : TaskTrace) (call : TaskCall) : Decidable (TickFinds trace call) := by
  unfold TickFinds
  split <;> infer_instance

variable {call : TaskCall}

section

variable {s s' : Sched} {ring : List TaskPtr}

theorem turn_congr (current : s'.currentTask = s.currentTask)
    (slices : ∀ p, s.currentTask = some p → (s'.tasks p).timeSlice = (s.tasks p).timeSlice) :
    s'.turn = s.turn := by
  unfold Sched.turn
  rw [current]
  cases isCurrent : s.currentTask with
  | none => rfl
  | some p => simp [slices p isCurrent]

theorem modify_turn (s : Sched) (p : TaskPtr) {f : Task → Task}
    (slice : ∀ t, (f t).timeSlice = t.timeSlice) : (s.modify p f).turn = s.turn := by
  refine turn_congr rfl fun q _ => ?_
  by_cases same : q = p <;> simp [Sched.modify, same, slice]

def TurnAfter (s s' : Sched) : Prop :=
  s'.turn = s.turn ∨ ∃ p, s'.turn = some (p, defaultTimeSlice)

theorem switchTo_turn (s : Sched) (chosen : TaskPtr) :
    (switchTo s chosen).turn = some (chosen, defaultTimeSlice) := by
  simp [Sched.turn, (switchTo_chosen s chosen).2]

theorem taskSwitch_turn (ok : RingOk s ring) (switched : taskSwitch s = some s') :
    TurnAfter s s' := by
  rcases taskSwitch_cases ok switched with ⟨rfl, -⟩ | ⟨chosen, -, -, rfl⟩
  · exact .inl rfl
  · exact .inr ⟨chosen, switchTo_turn _ chosen⟩

theorem taskWake_turn (s : Sched) (p : TaskPtr) : (taskWake s p).turn = s.turn := by
  unfold taskWake
  split
  · exact modify_turn s p (fun _ => rfl)
  · rfl

theorem enqueueCurrent_turn {me : TaskPtr} {queue head : Option TaskPtr} {queued : Sched}
    (enqueued : enqueueCurrent s me queue = some (queued, head)) : queued.turn = s.turn := by
  have parked : (park s me).turn = s.turn := modify_turn s me (fun _ => rfl)
  unfold enqueueCurrent at enqueued
  split at enqueued
  · cases enqueued
    exact parked
  · simp only at enqueued
    split at enqueued
    · next last _ =>
      cases enqueued
      have linked : (setNextInQueue (park s me) last (some me)).turn = (park s me).turn :=
        modify_turn _ _ (fun _ => rfl)
      exact linked.trans parked
    · contradiction

theorem Begins.turn {middle : Sched} (begins : Begins s call middle)
    (notTick : call ≠ .timerHandler) : middle.turn = s.turn := by
  cases begins with
  | nothing call notTick => rfl
  | retires me isCurrent => exact modify_turn s me (fun _ => rfl)
  | sleeps me milliseconds isCurrent => exact modify_turn s me (fun _ => rfl)
  | sleepsUntil me targetTicks isCurrent => exact modify_turn s me (fun _ => rfl)
  | parks me waitQueue head queued isCurrent enqueued => exact enqueueCurrent_turn enqueued
  | unblocks head =>
    have unlinked : (setNextInQueue s head none).turn = s.turn := modify_turn s head (fun _ => rfl)
    exact (taskWake_turn _ head).trans unlinked
  | wakes task => exact taskWake_turn s task
  | ticks => exact absurd rfl notTick
  | slices me isCurrent => exact absurd rfl notTick

theorem scheduled_turn (ok : RingOk s ring) (notTick : call ≠ .timerHandler)
    (returned : scheduled s call = some s') : TurnAfter s s' := by
  obtain ⟨middle, begins, rfl | switched⟩ := scheduled_cases returned
  · exact .inl (begins.turn notTick)
  · exact (taskSwitch_turn (begins.ringOk ok) switched).imp_left fun kept =>
      kept.trans (begins.turn notTick)

end

structure SliceInv (history : List SliceEvent) (trace : TaskTrace) : Prop where
  ring : ∃ ring, RingOk trace.sched ring ∧ ring.Perm trace.tasks
  idle : trace.sched.turn = none → quietTicks history = 0
  slice : ∀ p left, trace.sched.turn = some (p, left) →
    left ≠ 0 ∧ left.toNat + quietTicks history = defaultTimeSlice.toNat

section

variable {history : List SliceEvent} {before after : TaskTrace} {s : Sched}

theorem SliceInv.turn (inv : SliceInv history before) (turns : TurnAfter before.sched after.sched)
    (ring : ∃ ring, RingOk after.sched ring ∧ ring.Perm after.tasks) :
    SliceInv ((if after.sched.turn = before.sched.turn then [] else [.handed]) ++ history)
      after := by
  by_cases same : after.sched.turn = before.sched.turn
  · rw [if_pos same]
    exact ⟨ring, fun none => inv.idle (same ▸ none), fun p left turn => inv.slice p left (same ▸ turn)⟩
  · obtain ⟨p, fresh⟩ := turns.resolve_left same
    rw [if_neg same]
    refine ⟨ring, fun _ => rfl, ?_⟩
    intro q left turn
    cases some.inj (fresh.symm.trans turn)
    exact ⟨by decide, rfl⟩

theorem record_turn {ring : List TaskPtr} {result : Sched × Option TaskPtr} {memory : Option TaskPtr}
    (ok : RingOk s ring) (fresh : ∀ p ∈ memory, p ∉ ring)
    (frame : ∀ q, q ∉ memory → result.1.tasks q =
      { s.tasks q with next := (result.1.tasks q).next })
    (current : result.1.currentTask = s.currentTask) : TurnAfter s result.1 := by
  refine .inl (turn_congr current fun p isCurrent => ?_)
  rw [frame p (fun isMemory => fresh p isMemory (ok.current p isCurrent))]

theorem record_ring {ring : List TaskPtr} {result : Sched × Option TaskPtr}
    (perm : ring.Perm before.tasks)
    (created : (result.2 = none ∧ Refused before.sched result.1 ring) ∨
      ∃ p ring', result.2 = some p ∧ p ∉ ring ∧ Added before.sched result.1 ring ring' p) :
    ∃ ring', RingOk (before.record result).sched ring' ∧
      ring'.Perm (before.record result).tasks := by
  obtain ⟨sched, task⟩ := result
  obtain ⟨rfl, refused⟩ | ⟨p, ring', rfl, -, added⟩ := created
  · exact ⟨ring, refused.ok, perm⟩
  · exact ⟨ring', added.ok, added.perm.trans (perm.cons p)⟩

theorem timerHandler_cases {p : TaskPtr} {s' : Sched} (isCurrent : s.currentTask = some p)
    (ticked : timerHandler s = some s') :
    (s.tasks p).timeSlice = 1 ∧ taskSwitch (useTimeSlice (countTick s) p) = some s' ∨
      (s.tasks p).timeSlice ≠ 1 ∧ s' = useTimeSlice (countTick s) p := by
  have left : ((useTimeSlice (countTick s) p).tasks p).timeSlice = (s.tasks p).timeSlice - 1 := by
    simp [useTimeSlice, countTick, Sched.modify]
  simp only [timerHandler, isCurrent, left] at ticked
  split at ticked
  · next zero => exact .inl ⟨UInt32.sub_eq_iff_eq_add.mp zero, ticked⟩
  · next more =>
    refine .inr ⟨fun last => more ?_, (some.inj ticked).symm⟩
    rw [last]
    rfl

theorem useTimeSlice_wakeable (s : Sched) (p q : TaskPtr) :
    Wakeable (useTimeSlice (countTick s) p).ticks ((useTimeSlice (countTick s) p).tasks q) ↔
      Wakeable (s.ticks + 1) (s.tasks q) := by
  by_cases same : q = p <;> simp [useTimeSlice, countTick, Sched.modify, same, Wakeable, Due]

theorem useTimeSlice_turn {p : TaskPtr} (isCurrent : s.currentTask = some p) :
    (useTimeSlice (countTick s) p).turn = some (p, (s.tasks p).timeSlice - 1) := by
  simp [Sched.turn, useTimeSlice, countTick, Sched.modify, isCurrent]

theorem SliceInv.tick (inv : SliceInv history before) (found : TickFinds before .timerHandler)
    (ticked : timerHandler before.sched = some s) :
    SliceInv (sliceEvents before.sched s .timerHandler ++ history) (before.withSched s) := by
  obtain ⟨ring, ok, perm⟩ := inv.ring
  have returned : scheduled before.sched .timerHandler = some s := ticked
  have ring' : ∃ ring, RingOk (before.withSched s).sched ring ∧
      ring.Perm (before.withSched s).tasks := ⟨ring, (scheduled_keepsTasks ok returned).2, perm⟩
  cases isCurrent : before.sched.currentTask with
  | none =>
    simp only [timerHandler, isCurrent] at ticked
    cases ticked
    simp only [sliceEvents, isCurrent]
    exact ⟨ring', inv.idle, inv.slice⟩
  | some p =>
    obtain ⟨positive, total⟩ := inv.slice p (before.sched.tasks p).timeSlice
      (by simp [Sched.turn, isCurrent])
    simp only [sliceEvents, isCurrent]
    rcases timerHandler_cases isCurrent ticked with ⟨last, switched⟩ | ⟨more, rfl⟩
    · obtain ⟨q, member, wakeable⟩ := found p isCurrent last
      have ready := (useTimeSlice_keepsTasks before.sched p).ringOk ok ok.current
      rcases taskSwitch_cases ready switched with ⟨-, nobody⟩ | ⟨chosen, -, -, rfl⟩
      · exact absurd ((useTimeSlice_wakeable _ p q).mpr wakeable) (nobody q (perm.mem_iff.mpr member))
      · simp only [last, UInt32.sub_self, decide_true]
        refine ⟨ring', fun _ => rfl, ?_⟩
        intro q left turn
        cases some.inj ((switchTo_turn _ chosen).symm.trans turn)
        exact ⟨by decide, rfl⟩
    · have turn := useTimeSlice_turn isCurrent
      have notLast : (before.sched.tasks p).timeSlice - 1 ≠ 0 := fun zero =>
        more (UInt32.sub_eq_iff_eq_add.mp zero)
      simp only [notLast, decide_false]
      refine ⟨ring', fun none => by simp [TaskTrace.withSched, turn] at none, ?_⟩
      intro q left turn'
      cases some.inj (turn.symm.trans turn')
      refine ⟨notLast, ?_⟩
      have one : 1 ≤ (before.sched.tasks p).timeSlice.toNat :=
        Nat.one_le_iff_ne_zero.mpr fun zero => positive (UInt32.toNat_inj.mp zero)
      have covered : 1 ≤ (before.sched.tasks p).timeSlice := UInt32.le_iff_toNat_le.mpr one
      rw [UInt32.toNat_sub_of_le _ _ covered]
      simp only [List.singleton_append, quietTicks, UInt32.toNat_one]
      omega

theorem sliceStep_inv {events : List SliceEvent} (inv : SliceInv history before)
    (fresh : FreshMemory before call) (found : TickFinds before call)
    (taken : sliceStep before call = some (after, events)) :
    SliceInv (events ++ history) after := by
  obtain ⟨⟨after', none⟩, stepped, same⟩ := map_eq_some_iff.mp taken
  cases same
  obtain ⟨ring, ok, perm⟩ := inv.ring
  have outside : ∀ memory : Option TaskPtr, (∀ p ∈ memory, p ∉ before.tasks) →
      ∀ p ∈ memory, p ∉ ring := fun memory new p isMemory listed =>
    new p isMemory (perm.mem_iff.mp listed)
  obtain ⟨request, rfl, rfl⟩ | ⟨request, rfl, rfl⟩ | ⟨s, result, rfl⟩ := taskStep_cases stepped
  · have memory := outside request.memory fresh
    exact inv.turn (record_turn ok memory (taskCreate_frame before.sched request)
      (taskCreate_globals before.sched request).1)
      (record_ring perm (taskCreate_cases ok request memory))
  · have memory := outside request.memory fresh
    exact inv.turn (record_turn ok memory (forkTask_frame before.sched request)
      (forkTask_globals before.sched request).1)
      (record_ring perm (forkTask_cases ok request memory))
  · by_cases isTick : call = .timerHandler
    · subst isTick
      exact inv.tick found result
    · have turns : TurnAfter before.sched (before.withSched s).sched :=
        scheduled_turn ok isTick result
      have kept := scheduled_keepsTasks ok result
      have events : sliceEvents before.sched s call =
          if s.turn = before.sched.turn then [] else [.handed] := by
        cases call <;> first | rfl | exact absurd rfl isTick
      rw [show (before.withSched s).sched = s from rfl, events]
      exact inv.turn turns ⟨ring, kept.2, perm⟩

theorem lone_tick (inv : SliceInv history before) {events : List SliceEvent}
    (taken : sliceStep before .timerHandler = some (after, events))
    (alone : ¬ TickFinds before .timerHandler) :
    ∃ p, after.sched.turn = some (p, 0) := by
  obtain ⟨ring, ok, perm⟩ := inv.ring
  obtain ⟨⟨after', none⟩, stepped, same⟩ := map_eq_some_iff.mp taken
  cases same
  simp only [TickFinds, not_forall] at alone
  obtain ⟨p, isCurrent, last, nobody⟩ := alone
  obtain ⟨_, isCreate, -⟩ | ⟨_, isFork, -⟩ | ⟨s, ticked, rfl⟩ := taskStep_cases stepped
  · contradiction
  · contradiction
  rcases timerHandler_cases isCurrent ticked with ⟨-, switched⟩ | ⟨more, -⟩
  · have ready := (useTimeSlice_keepsTasks before.sched p).ringOk ok ok.current
    rcases taskSwitch_cases ready switched with ⟨rfl, -⟩ | ⟨chosen, member, wakeable, -⟩
    · refine ⟨p, (useTimeSlice_turn isCurrent).trans ?_⟩
      rw [last]
      rfl
    · exact absurd ⟨chosen, perm.mem_iff.mp member,
        (useTimeSlice_wakeable before.sched p chosen).mp wakeable⟩ nobody
  · exact absurd last more

end

theorem taskInit_sliceInv (s : Sched) : SliceInv [] ⟨taskInit s, [], 0⟩ where
  ring := ⟨[], (taskInit_inv s).ok, .nil⟩
  idle := fun _ => rfl
  slice := nofun

-- The slice of the executing task is never used up between two ticks and no stretch of
-- ten ticks goes without a switch, as long as the ticks that end a slice find a task.
theorem preemption_in_runs (s : Sched) (history : List SliceEvent) (trace : TaskTrace)
    (run : Run sliceStep (fun trace call => FreshMemory trace call ∧ TickFinds trace call)
      ⟨taskInit s, [], 0⟩ history trace) :
    (∀ p, trace.sched.currentTask = some p →
      1 ≤ (trace.sched.tasks p).timeSlice ∧
        (trace.sched.tasks p).timeSlice ≤ defaultTimeSlice ∧
        (trace.sched.tasks p).timeSlice.toNat + quietTicks history = defaultTimeSlice.toNat) ∧
      quietTicks history < defaultTimeSlice.toNat ∧
      ∀ after events, sliceStep trace .timerHandler = some (after, events) →
        ¬ TickFinds trace .timerHandler → ∃ p, after.sched.turn = some (p, 0) := by
  have inv : SliceInv history trace := run.invariant SliceInv (taskInit_sliceInv s)
    fun _ _ _ _ _ inv met taken => sliceStep_inv inv met.1 met.2 taken
  have slice : ∀ p, trace.sched.currentTask = some p →
      1 ≤ (trace.sched.tasks p).timeSlice.toNat ∧
        (trace.sched.tasks p).timeSlice.toNat + quietTicks history = defaultTimeSlice.toNat := by
    intro p isCurrent
    obtain ⟨positive, total⟩ := inv.slice p (trace.sched.tasks p).timeSlice
      (by simp [Sched.turn, isCurrent])
    exact ⟨Nat.one_le_iff_ne_zero.mpr fun zero => positive (UInt32.toNat_inj.mp zero), total⟩
  refine ⟨?_, ?_, fun after events taken alone => lone_tick inv taken alone⟩
  · intro p isCurrent
    obtain ⟨positive, total⟩ := slice p isCurrent
    refine ⟨UInt32.le_iff_toNat_le.mpr positive, UInt32.le_iff_toNat_le.mpr ?_, total⟩
    omega
  · cases isCurrent : trace.sched.currentTask with
    | none =>
      rw [inv.idle (by simp [Sched.turn, isCurrent])]
      decide
    | some p =>
      obtain ⟨positive, total⟩ := slice p isCurrent
      omega

theorem preemption_in_runs_two_tasks : ∃ history trace,
    Run sliceStep (fun trace call => FreshMemory trace call ∧ TickFinds trace call)
      ⟨taskInit blankSched, [], 0⟩ history trace ∧
    trace.sched.turn = some (1, 8) ∧ quietTicks history < defaultTimeSlice.toNat := by
  obtain ⟨history, trace, run, checked⟩ := Run.exists_of_actions sliceStep
    (fun trace call => FreshMemory trace call ∧ TickFinds trace call) ⟨taskInit blankSched, [], 0⟩
    ([createAt 1, createAt 2, .taskSwitch] ++ List.replicate 12 .timerHandler)
    (fun _ trace => trace.sched.turn = some (1, 8)) (by decide +kernel)
  exact ⟨history, trace, run, by simpa using checked,
    (preemption_in_runs blankSched history trace run).2.1⟩

-- The only task uses up its slice, and the next tick makes it 2^32 - 1 ticks long.
theorem lone_task_not_preempted : ∃ history trace,
    Run sliceStep (fun trace call => FreshMemory trace call) ⟨taskInit blankSched, [], 0⟩
      history trace ∧
    trace.sched.turn = some (1, 0xFFFFFFFF) := by
  obtain ⟨history, trace, run, checked⟩ := Run.exists_of_actions sliceStep
    (fun trace call => FreshMemory trace call) ⟨taskInit blankSched, [], 0⟩
    ([createAt 1, .taskSwitch] ++ List.replicate 11 .timerHandler)
    (fun _ trace => trace.sched.turn = some (1, 0xFFFFFFFF)) (by decide +kernel)
  exact ⟨history, trace, run, by simpa using checked⟩

end ArgoOS.Tasking
