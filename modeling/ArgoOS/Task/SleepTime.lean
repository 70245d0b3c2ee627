import Mathlib
import ArgoOS.Task.RoundRobin

set_option autoImplicit false

/-! # How long a task sleeps -/

namespace ArgoOS.Tasking

open Stepper UInt32

variable {s : Sched} {me : TaskPtr}

section

-- The ticks that `milliseconds` last, without a limit on the product.
def sleepTicks (milliseconds : UInt32) : Nat :=
  milliseconds.toNat * timerFrequency.toNat / 1000

def SleepsExactly (s : Sched) (me : TaskPtr) (milliseconds : UInt32) : Prop :=
  let asleep := (fallAsleep s me (sleepTarget s milliseconds)).tasks me
  (∀ elapsed < sleepTicks milliseconds, ¬ Due (countTick^[elapsed] s).ticks asleep) ∧
    Due (countTick^[sleepTicks milliseconds] s).ticks asleep

-- Neither the product nor the target wraps, and the target is not the mark of a task
-- that does not sleep.
def SleepFits (ticks milliseconds : UInt32) : Prop :=
  milliseconds.toNat * timerFrequency.toNat < 2 ^ 32 ∧
    ticks.toNat + sleepTicks milliseconds < 2 ^ 32 ∧ ticks.toNat + sleepTicks milliseconds ≠ 0

instance (ticks milliseconds : UInt32) : Decidable (SleepFits ticks milliseconds) :=
  inferInstanceAs (Decidable (_ ∧ _ ∧ _))

theorem countTick_iterate (s : Sched) (elapsed : Nat) :
    (countTick^[elapsed] s).ticks = s.ticks + UInt32.ofNat elapsed := by
  induction elapsed generalizing s with
  | zero => simp
  | succ elapsed ih =>
    rw [Function.iterate_succ_apply, ih, ofNat_add, UInt32.add_comm (UInt32.ofNat elapsed),
      ← UInt32.add_assoc]
    rfl

theorem clock_toNat (ticks : UInt32) (elapsed : Nat) :
    (ticks + UInt32.ofNat elapsed).toNat = (ticks.toNat + elapsed) % 2 ^ 32 := by
  rw [UInt32.toNat_add, toNat_ofNat']
  omega

theorem sleepTarget_toNat (s : Sched) (milliseconds : UInt32) :
    (sleepTarget s milliseconds).toNat =
      (s.ticks.toNat + milliseconds.toNat * 100 % 2 ^ 32 / 1000) % 2 ^ 32 := by
  rw [sleepTarget, UInt32.toNat_add, UInt32.toNat_div, UInt32.toNat_mul]
  rfl

theorem fallAsleep_due (s : Sched) (me : TaskPtr) (target ticks : UInt32) :
    Due ticks ((fallAsleep s me target).tasks me) ↔ target ≠ 0 ∧ target ≤ ticks := by
  simp [fallAsleep, Sched.modify, Due]

theorem target_test (s : Sched) (milliseconds : UInt32) (elapsed : Nat) :
    sleepTarget s milliseconds ≠ 0 ∧ sleepTarget s milliseconds ≤ s.ticks + UInt32.ofNat elapsed ↔
      (s.ticks.toNat + milliseconds.toNat * 100 % 2 ^ 32 / 1000) % 2 ^ 32 ≠ 0 ∧
      (s.ticks.toNat + milliseconds.toNat * 100 % 2 ^ 32 / 1000) % 2 ^ 32 ≤
        (s.ticks.toNat + elapsed) % 2 ^ 32 := by
  rw [le_iff_toNat_le, clock_toNat, ne_eq, ← UInt32.toNat_inj, sleepTarget_toNat]
  rfl

theorem SleepFits.test_iff {milliseconds : UInt32} (fits : SleepFits s.ticks milliseconds)
    {elapsed : Nat} (counted : s.ticks.toNat + elapsed < 2 ^ 32) :
    sleepTarget s milliseconds ≠ 0 ∧ sleepTarget s milliseconds ≤ s.ticks + UInt32.ofNat elapsed ↔
      sleepTicks milliseconds ≤ elapsed := by
  obtain ⟨product, target, marked⟩ := fits
  change milliseconds.toNat * 100 < 2 ^ 32 at product
  change s.ticks.toNat + milliseconds.toNat * 100 / 1000 < 2 ^ 32 at target
  change s.ticks.toNat + milliseconds.toNat * 100 / 1000 ≠ 0 at marked
  rw [target_test, Nat.mod_eq_of_lt product, Nat.mod_eq_of_lt target, Nat.mod_eq_of_lt counted]
  change _ ↔ milliseconds.toNat * 100 / 1000 ≤ elapsed
  omega

theorem sleepsExactly_iff (s : Sched) (me : TaskPtr) (milliseconds : UInt32) :
    SleepsExactly s me milliseconds ↔ SleepFits s.ticks milliseconds := by
  simp only [SleepsExactly, countTick_iterate, fallAsleep_due]
  constructor
  · -- The test holds when the truncated product has elapsed, if the target is not 0.
    rintro ⟨early, due⟩
    have small := s.ticks.toNat_lt
    have short := milliseconds.toNat_lt
    have atOnce := early 0
    have truncated := early (milliseconds.toNat * 100 % 2 ^ 32 / 1000)
    rw [target_test] at due atOnce truncated
    change _ < milliseconds.toNat * 100 / 1000 → _ at atOnce
    change _ < milliseconds.toNat * 100 / 1000 → _ at truncated
    change _ ∧ _ ≤ (_ + milliseconds.toNat * 100 / 1000) % 2 ^ 32 at due
    change milliseconds.toNat * 100 < 2 ^ 32 ∧
      s.ticks.toNat + milliseconds.toNat * 100 / 1000 < 2 ^ 32 ∧
      s.ticks.toNat + milliseconds.toNat * 100 / 1000 ≠ 0
    omega
  · intro fits
    have target := fits.2.1
    refine ⟨fun elapsed soon => ?_, (fits.test_iff target).mpr (Nat.le_refl _)⟩
    rw [fits.test_iff (by omega)]
    omega

end

-- Nobody wakes `me` before its time, and `me` calls nothing that suspends it again.
def LetsSleep (me : TaskPtr) (s : Sched) : TaskCall → Prop
  | .taskExit | .taskSleep _ | .taskSleepUntil _ | .taskBlock _ => s.currentTask ≠ some me
  | .taskUnblock waitQueue => waitQueue ≠ some me
  | .taskWake task => task ≠ me
  | _ => True

instance (me : TaskPtr) (s : Sched) (call : TaskCall) : Decidable (LetsSleep me s call) := by
  unfold LetsSleep
  split <;> infer_instance

def tickOf (call : TaskCall) : UInt32 := if call = .timerHandler then 1 else 0

def Asleep (me : TaskPtr) (target : UInt32) (s : Sched) : Prop :=
  (s.tasks me).state = .blocked ∧ (s.tasks me).wakeTicks = target

instance (me : TaskPtr) (target : UInt32) (s : Sched) : Decidable (Asleep me target s) :=
  inferInstanceAs (Decidable (_ ∧ _))

variable {call : TaskCall} {p : TaskPtr} {f : Task → Task}

variable {target : UInt32}

section

variable {s' middle : Sched} {ring : List TaskPtr}

structure Prepares (s middle : Sched) (call : TaskCall) : Prop where
  ticks : middle.ticks = s.ticks + tickOf call
  sleeper : ∀ me target, LetsSleep me s call → Asleep me target s → Asleep me target middle

theorem Prepares.refl (s : Sched) (notTick : call ≠ .timerHandler) : Prepares s s call where
  ticks := by simp [tickOf, notTick]
  sleeper := fun _ _ _ asleep => asleep

theorem modify_asleep (other : p ≠ me) (asleep : Asleep me target s) :
    Asleep me target (s.modify p f) := by
  simpa [Asleep, Sched.modify, Function.update_of_ne (Ne.symm other)] using asleep

theorem modify_calm_asleep (p : TaskPtr) (state : ∀ t, (f t).state = t.state)
    (wakeTicks : ∀ t, (f t).wakeTicks = t.wakeTicks) (asleep : Asleep me target s) :
    Asleep me target (s.modify p f) := by
  by_cases same : p = me
  · subst same
    simpa [Asleep, Sched.modify, state, wakeTicks] using asleep
  · exact modify_asleep same asleep

theorem setNextInQueue_asleep (p : TaskPtr) (link : Option TaskPtr)
    (asleep : Asleep me target s) : Asleep me target (setNextInQueue s p link) :=
  modify_calm_asleep p (fun _ => rfl) (fun _ => rfl) asleep

theorem useTimeSlice_asleep (p : TaskPtr) (asleep : Asleep me target s) :
    Asleep me target (useTimeSlice (countTick s) p) :=
  modify_calm_asleep p (fun _ => rfl) (fun _ => rfl) asleep

theorem taskWake_ticks (s : Sched) (p : TaskPtr) : (taskWake s p).ticks = s.ticks := by
  unfold taskWake
  split <;> rfl

theorem taskWake_asleep (other : p ≠ me) (asleep : Asleep me target s) :
    Asleep me target (taskWake s p) := by
  unfold taskWake
  split
  · exact modify_asleep other asleep
  · exact asleep

theorem enqueueCurrent_sleeper {current : TaskPtr} {waitQueue head : Option TaskPtr}
    (queued : enqueueCurrent s current waitQueue = some (s', head)) :
    s'.ticks = s.ticks ∧
      ∀ me target, current ≠ me → Asleep me target s → Asleep me target s' := by
  unfold enqueueCurrent at queued
  split at queued
  · cases queued
    exact ⟨rfl, fun _ _ other asleep => modify_asleep other asleep⟩
  · simp only at queued
    split at queued
    · cases queued
      exact ⟨rfl, fun _ _ other asleep => setNextInQueue_asleep _ _ (modify_asleep other asleep)⟩
    · contradiction

theorem Prepares.caller (isCurrent : s.currentTask = some p) (notTick : call ≠ .timerHandler)
    (guarded : ∀ me, LetsSleep me s call → s.currentTask ≠ some me) :
    Prepares s (s.modify p f) call where
  ticks := by
    change s.ticks = _
    simp [tickOf, notTick]
  sleeper := by
    intro me target lets asleep
    refine modify_asleep ?_ asleep
    rintro rfl
    exact guarded p lets isCurrent

theorem Begins.prepares (begins : Begins s call middle) : Prepares s middle call := by
  cases begins with
  | nothing call notTick => exact .refl s notTick
  | retires me isCurrent =>
    exact .caller isCurrent nofun fun _ lets => lets
  | sleeps me milliseconds isCurrent =>
    exact .caller isCurrent nofun fun _ lets => lets
  | sleepsUntil me targetTicks isCurrent =>
    exact .caller isCurrent nofun fun _ lets => lets
  | parks me waitQueue head queued isCurrent enqueued =>
    obtain ⟨ticks, sleepers⟩ := enqueueCurrent_sleeper enqueued
    refine ⟨by simp [ticks, tickOf], ?_⟩
    intro sleeper target lets
    refine sleepers sleeper target ?_
    rintro rfl
    exact lets isCurrent
  | unblocks head =>
    refine ⟨?_, ?_⟩
    · rw [taskWake_ticks]
      change s.ticks = _
      simp [tickOf]
    · intro me target lets asleep
      refine taskWake_asleep ?_ (setNextInQueue_asleep head none asleep)
      rintro rfl
      exact lets rfl
  | wakes task =>
    refine ⟨?_, fun me target lets asleep => taskWake_asleep lets asleep⟩
    simp [taskWake_ticks, tickOf]
  | ticks => exact ⟨rfl, fun _ _ _ asleep => asleep⟩
  | slices me isCurrent =>
    exact ⟨rfl, fun _ _ _ asleep => useTimeSlice_asleep me asleep⟩

theorem taskSwitch_asleep (ok : RingOk s ring) (asleep : Asleep me target s)
    (early : ¬ Due s.ticks (s.tasks me)) (switched : taskSwitch s = some s') :
    Asleep me target s' := by
  obtain ⟨state, wakeTicks⟩ := asleep
  rcases taskSwitch_cases ok switched with ⟨rfl, -⟩ | ⟨chosen, -, wakeable, rfl⟩
  · exact ⟨state, wakeTicks⟩
  · have other : me ≠ chosen := by
      rintro rfl
      rcases wakeable with ready | due
      · rw [state] at ready
        contradiction
      · exact early due
    have same : woken s ring me = s.tasks me := by
      simp [woken, wakeIfDue, early]
    obtain ⟨kept, stays | ⟨-, running⟩⟩ :=
      switchTo_others { s with tasks := woken s ring } chosen me other
    · exact ⟨stays.trans ((congrArg Task.state same).trans state),
        kept.trans ((congrArg Task.wakeTicks same).trans wakeTicks)⟩
    · simp only [same, state] at running
      contradiction

theorem scheduled_ticks (returned : scheduled s call = some s') :
    s'.ticks = s.ticks + tickOf call := by
  obtain ⟨middle, begins, rfl | switched⟩ := scheduled_cases returned
  · exact begins.prepares.ticks
  · exact (taskSwitch_ticks switched).trans begins.prepares.ticks

theorem scheduled_asleep (ok : RingOk s ring) (returned : scheduled s call = some s')
    (lets : LetsSleep me s call) (asleep : Asleep me target s)
    (early : ¬ (target ≠ 0 ∧ target ≤ s'.ticks)) : Asleep me target s' := by
  obtain ⟨middle, begins, exits⟩ := scheduled_cases returned
  have asleep' := begins.prepares.sleeper me target lets asleep
  obtain rfl | switched := exits
  · exact asleep'
  · refine taskSwitch_asleep (begins.ringOk ok) asleep' ?_ switched
    rintro ⟨-, due⟩
    rw [asleep'.2, ← taskSwitch_ticks switched] at due
    exact early due

end

def tickStep (trace : TaskTrace) (call : TaskCall) : Option (TaskTrace × List Unit) :=
  (taskStep trace call).map fun r => (r.1, if call = .timerHandler then [()] else [])

theorem tickStep_ticks {before after : TaskTrace} {events : List Unit}
    (taken : tickStep before call = some (after, events)) :
    after.sched.ticks = before.sched.ticks + UInt32.ofNat events.length := by
  obtain ⟨⟨after', none⟩, stepped, same⟩ := Option.map_eq_some_iff.mp taken
  cases same
  obtain ⟨request, rfl, rfl⟩ | ⟨request, rfl, rfl⟩ | ⟨s, result, rfl⟩ := taskStep_cases stepped
  · simpa [TaskTrace.record] using (taskCreate_globals before.sched request).2
  · simpa [TaskTrace.record] using (forkTask_globals before.sched request).2
  · refine (scheduled_ticks result).trans ?_
    unfold tickOf
    split <;> rfl

theorem counted_append (ticks : UInt32) (history events : List Unit) :
    ticks + UInt32.ofNat history.length + UInt32.ofNat events.length =
      ticks + UInt32.ofNat (events ++ history).length := by
  rw [List.length_append, ofNat_add, UInt32.add_comm (UInt32.ofNat events.length),
    UInt32.add_assoc]

def WhileAsleep (me : TaskPtr) (trace : TaskTrace) (call : TaskCall) : Prop :=
  FreshMemory trace call ∧ LetsSleep me trace.sched call

instance (me : TaskPtr) (trace : TaskTrace) (call : TaskCall) :
    Decidable (WhileAsleep me trace call) :=
  inferInstanceAs (Decidable (_ ∧ _))

section

variable {ticks : UInt32} {duration : Nat} {history : List Unit} {before after : TaskTrace}

structure SleepInv (me : TaskPtr) (target ticks : UInt32) (duration : Nat) (history : List Unit)
    (trace : TaskTrace) : Prop where
  ring : RingTrace trace
  listed : me ∈ trace.tasks
  ticks : trace.sched.ticks = ticks + UInt32.ofNat history.length
  asleep : history.length < duration → Asleep me target trace.sched

theorem record_tasks (result : Sched × Option TaskPtr) (member : p ∈ before.tasks) :
    p ∈ (before.record result).tasks := by
  obtain ⟨sched, created | new⟩ := result
  · exact member
  · exact List.mem_cons_of_mem _ member

theorem SleepInv.record {result : Sched × Option TaskPtr} {memory : Option TaskPtr}
    (inv : SleepInv me target ticks duration history before)
    (ring : RingTrace (before.record result)) (fresh : ∀ p ∈ memory, p ∉ before.tasks)
    (frame : ∀ q, q ∉ memory → result.1.tasks q =
      { before.sched.tasks q with next := (result.1.tasks q).next })
    (clock : result.1.ticks = before.sched.ticks) :
    SleepInv me target ticks duration history (before.record result) where
  ring := ring
  listed := record_tasks result inv.listed
  ticks := clock.trans inv.ticks
  asleep := by
    intro soon
    have same := frame me (fun isMemory => fresh me isMemory inv.listed)
    simp only [Asleep, TaskTrace.record]
    rw [same]
    exact inv.asleep soon

theorem SleepInv.step {events : List Unit}
    (early : ∀ elapsed < duration, ¬ (target ≠ 0 ∧ target ≤ ticks + UInt32.ofNat elapsed))
    (inv : SleepInv me target ticks duration history before) (met : WhileAsleep me before call)
    (taken : tickStep before call = some (after, events)) :
    SleepInv me target ticks duration (events ++ history) after := by
  obtain ⟨⟨after', none⟩, stepped, same⟩ := Option.map_eq_some_iff.mp taken
  cases same
  have ring := taskStep_ring inv.ring met.1 stepped
  obtain ⟨request, rfl, rfl⟩ | ⟨request, rfl, rfl⟩ | ⟨s, result, rfl⟩ := taskStep_cases stepped
  · exact inv.record ring met.1 (taskCreate_frame before.sched request)
      (taskCreate_globals before.sched request).2
  · exact inv.record ring met.1 (forkTask_frame before.sched request)
      (forkTask_globals before.sched request).2
  · obtain ⟨ring', ok, -⟩ := inv.ring
    have counted := tickStep_ticks taken
    rw [inv.ticks, counted_append] at counted
    refine ⟨ring, inv.listed, counted, fun soon => ?_⟩
    have before' : history.length < duration := by
      rw [List.length_append] at soon
      omega
    refine scheduled_asleep ok result met.2 (inv.asleep before') ?_
    rw [counted]
    exact early _ soon

structure SleepsOnTime (s : Sched) (me : TaskPtr) (milliseconds : UInt32) (elapsed : Nat)
    (later : Sched) : Prop where
  early : elapsed < sleepTicks milliseconds →
    Asleep me (sleepTarget s milliseconds) later ∧ ¬ Due later.ticks (later.tasks me)
  due : sleepTicks milliseconds ≤ elapsed → s.ticks.toNat + elapsed < 2 ^ 32 →
    Asleep me (sleepTarget s milliseconds) later → Due later.ticks (later.tasks me)

theorem Asleep.due_iff {s : Sched} (asleep : Asleep me target s) :
    Due s.ticks (s.tasks me) ↔ target ≠ 0 ∧ target ≤ s.ticks := by
  simp [Due, asleep.1, asleep.2]

theorem run_sleepsOnTime {trace later : TaskTrace} {milliseconds : UInt32}
    (fits : SleepFits trace.sched.ticks milliseconds) (ring : RingTrace trace)
    (isCurrent : trace.sched.currentTask = some me)
    (run : Run tickStep (WhileAsleep me)
      (trace.withSched (fallAsleep trace.sched me (sleepTarget trace.sched milliseconds)))
      history later) :
    SleepsOnTime trace.sched me milliseconds history.length later.sched := by
  obtain ⟨tasks, ok, perm⟩ := ring
  have keeps : KeepsTasks trace.sched
      (fallAsleep trace.sched me (sleepTarget trace.sched milliseconds)) :=
    modify_keepsTasks trace.sched me _ (fun _ => rfl) (fun _ => rfl)
  have start : SleepInv me (sleepTarget trace.sched milliseconds) trace.sched.ticks
      (sleepTicks milliseconds) []
      (trace.withSched (fallAsleep trace.sched me (sleepTarget trace.sched milliseconds))) := by
    refine ⟨⟨tasks, keeps.ringOk ok ok.current, perm⟩,
      perm.mem_iff.mp (ok.current me isCurrent), ?_, fun _ => ?_⟩
    · simp [TaskTrace.withSched, fallAsleep, Sched.modify]
    · simp [Asleep, TaskTrace.withSched, fallAsleep, Sched.modify]
  have target := fits.2.1
  have inv := run.invariant (SleepInv me (sleepTarget trace.sched milliseconds) trace.sched.ticks
    (sleepTicks milliseconds)) start fun _ _ _ _ _ inv met taken => inv.step (fun elapsed soon => by
      rw [fits.test_iff (by omega)]
      omega) met taken
  constructor
  · intro soon
    have asleep := inv.asleep soon
    refine ⟨asleep, ?_⟩
    rw [asleep.due_iff, inv.ticks, fits.test_iff (by omega)]
    omega
  · intro late counted asleep
    rw [asleep.due_iff, inv.ticks, fits.test_iff counted]
    exact late

end

theorem sleep_ends_on_time_iff (trace : TaskTrace) (milliseconds : UInt32) (me : TaskPtr)
    (isCurrent : trace.sched.currentTask = some me) :
    let asleep := fallAsleep trace.sched me (sleepTarget trace.sched milliseconds)
    taskSleep trace.sched milliseconds = taskSwitch asleep ∧
    (SleepsExactly trace.sched me milliseconds ↔ SleepFits trace.sched.ticks milliseconds) ∧
    (SleepFits trace.sched.ticks milliseconds → RingTrace trace → ∀ history later,
      Run tickStep (WhileAsleep me) (trace.withSched asleep) history later →
      SleepsOnTime trace.sched me milliseconds history.length later.sched) := by
  refine ⟨?_, sleepsExactly_iff trace.sched me milliseconds, ?_⟩
  · simp only [taskSleep, taskSleepUntil, isCurrent]
  · exact fun fits ring history later run => run_sleepsOnTime fits ring isCurrent run

def threeCreated : TaskTrace :=
  ⟨threeTasks, [⟨1, 0⟩, ⟨2, 0⟩, ⟨3, 0⟩], 0⟩

theorem sleep_ends_on_time_iff_two : SleepsExactly threeTasks 1 20 ∧
    ∃ history later, Run tickStep (WhileAsleep 1)
      (threeCreated.withSched (fallAsleep threeTasks 1 (sleepTarget threeTasks 20))) history later ∧
      later.sched.currentTask = some 3 ∧ history.length = 2 ∧
      SleepsOnTime threeTasks 1 20 2 later.sched := by
  obtain ⟨-, exact, onTime⟩ := sleep_ends_on_time_iff threeCreated 20 1 rfl
  have fits : SleepFits threeTasks.ticks 20 := by decide
  obtain ⟨history, later, run, checked⟩ := Run.exists_of_actions tickStep (WhileAsleep 1)
    (threeCreated.withSched (fallAsleep threeTasks 1 (sleepTarget threeTasks 20)))
    [.taskSwitch, .timerHandler, .timerHandler]
    (fun history later => later.sched.currentTask = some 3 ∧ history.length = 2) (by decide +kernel)
  obtain ⟨runs, elapsed⟩ := of_decide_eq_true checked
  refine ⟨exact.mpr fits, history, later, run, runs, elapsed, ?_⟩
  rw [← elapsed]
  exact onTime fits ⟨[1, 2, 3], threeTasks_ring, .refl _⟩ history later run

def bootedAt (ticks : UInt32) : Sched := { threeTasks with ticks := ticks }

-- A sleep of 0 ms at tick 0 never ends; 20 ms at the last tick and 42949673 ms end at once.
theorem sleeps_end_never_or_at_once :
    (∀ elapsed, ¬ Due (countTick^[elapsed] (bootedAt 0)).ticks
      ((fallAsleep (bootedAt 0) 1 (sleepTarget (bootedAt 0) 0)).tasks 1)) ∧
    (sleepTicks 20 = 2 ∧ Due (bootedAt 0xFFFFFFFF).ticks
      ((fallAsleep (bootedAt 0xFFFFFFFF) 1 (sleepTarget (bootedAt 0xFFFFFFFF) 20)).tasks 1)) ∧
    (sleepTicks 42949673 = 4294967 ∧ Due (bootedAt 1).ticks
      ((fallAsleep (bootedAt 1) 1 (sleepTarget (bootedAt 1) 42949673)).tasks 1)) := by
  refine ⟨fun elapsed due => ?_, by decide, by decide⟩
  exact due.2.1 rfl

end ArgoOS.Tasking
