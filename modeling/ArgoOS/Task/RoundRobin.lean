import ArgoOS.Task.Acknowledge

set_option autoImplicit false

/-! # Whom a switch chooses -/

namespace ArgoOS.Tasking

open Linked Option

variable {s s' : Sched} {ring : List TaskPtr}

section

def wokenState (s : Sched) (ring : List TaskPtr) (p : TaskPtr) : TaskState :=
  if p ∈ ring ∧ Due s.ticks (s.tasks p) then .ready else (s.tasks p).state

structure SwitchesTo (s s' : Sched) (ring : List TaskPtr) (chosen : Option TaskPtr) : Prop where
  first : ∀ p, chosen = some p → ∃ skipped rest,
    turnOrder ring s.currentTask = skipped ++ p :: rest ∧ wokenState s ring p = .ready ∧
      ∀ q ∈ skipped, wokenState s ring q ≠ .ready
  nobody : chosen = none ↔ ∀ p ∈ ring, wokenState s ring p ≠ .ready
  current : s'.currentTask = chosen.or s.currentTask
  running : ∀ p, chosen = some p → (s'.tasks p).state = .running
  previous : ∀ me, s.currentTask = some me → chosen ≠ some me → (s'.tasks me).state =
    if wokenState s ring me = .running ∧ chosen ≠ none then .ready else wokenState s ring me
  others : ∀ p, chosen ≠ some p → s.currentTask ≠ some p →
    (s'.tasks p).state = wokenState s ring p
  wakeTicks : ∀ p, (s'.tasks p).wakeTicks =
    if p ∈ ring ∧ Due s.ticks (s.tasks p) then 0 else (s.tasks p).wakeTicks

theorem woken_fields (s : Sched) (ring : List TaskPtr) (p : TaskPtr) :
    (woken s ring p).state = wokenState s ring p ∧ (woken s ring p).wakeTicks =
      if p ∈ ring ∧ Due s.ticks (s.tasks p) then 0 else (s.tasks p).wakeTicks := by
  unfold woken wakeIfDue wokenState
  by_cases member : p ∈ ring <;> by_cases due : Due s.ticks (s.tasks p) <;> simp [member, due]

theorem switchTo_wakeTicks (s : Sched) (chosen p : TaskPtr) :
    ((switchTo s chosen).tasks p).wakeTicks = (s.tasks p).wakeTicks := by
  unfold switchTo Sched.modify
  cases s.currentTask with
  | none => by_cases same : p = chosen <;> simp [same]
  | some prev =>
    by_cases again : prev = chosen <;> by_cases same : p = chosen <;> by_cases old : p = prev <;>
      simp_all [Function.update_of_ne]

theorem switchTo_previous (s : Sched) {chosen me : TaskPtr} (isCurrent : s.currentTask = some me)
    (different : chosen ≠ me) : ((switchTo s chosen).tasks me).state =
      if (s.tasks me).state = .running then .ready else (s.tasks me).state := by
  simp [switchTo, isCurrent, Sched.modify, Ne.symm different]

theorem round_robin (s : Sched) (ring : List TaskPtr) (ok : RingOk s ring) :
    ∃ s' chosen, taskSwitch s = some s' ∧ SwitchesTo s s' ring chosen := by
  have inOrder := turnOrder_mem ok.nodup ok.current
  have switched := taskSwitch_eq ok
  cases hit : (turnOrder ring s.currentTask).find? fun p => (woken s ring p).state = .ready with
  | none =>
    rw [hit] at switched
    have nobody : ∀ p ∈ ring, wokenState s ring p ≠ .ready := by
      intro p member ready
      have passed := List.find?_eq_none.mp hit p ((inOrder p).mpr member)
      rw [(woken_fields s ring p).1] at passed
      exact passed (decide_eq_true ready)
    refine ⟨_, none, switched, nofun, iff_of_true rfl nobody, rfl, nofun, ?_, ?_, ?_⟩
    · intro me _ _
      simp only [ne_eq, not_true_eq_false, and_false, if_false]
      exact (woken_fields s ring me).1
    · intro p _ _
      exact (woken_fields s ring p).1
    · intro p
      exact (woken_fields s ring p).2
  | some chosen =>
    rw [hit] at switched
    obtain ⟨ready, skipped, rest, split, passed⟩ := List.find?_eq_some_iff_append.mp hit
    have member := (inOrder chosen).mp (List.mem_of_find?_eq_some hit)
    have isReady : wokenState s ring chosen = .ready := by
      rw [← (woken_fields s ring chosen).1]
      exact of_decide_eq_true ready
    refine ⟨_, some chosen, switched, ?_, ?_, ?_, ?_, ?_, ?_, ?_⟩
    · rintro p ⟨⟩
      refine ⟨skipped, rest, split, isReady, fun q inside here => ?_⟩
      have passedBy := passed q inside
      rw [(woken_fields s ring q).1, here] at passedBy
      contradiction
    · exact iff_of_false nofun (fun nobody => nobody chosen member isReady)
    · exact (switchTo_globals _ chosen).1
    · rintro p ⟨⟩
      exact (switchTo_chosen _ chosen).1
    · intro me isCurrent different
      rw [switchTo_previous { s with tasks := woken s ring } isCurrent
        (fun same => different (congrArg some same)), (woken_fields s ring me).1]
      simp
    · intro p different away
      obtain ⟨-, same | ⟨isCurrent, -⟩⟩ := switchTo_others { s with tasks := woken s ring } chosen p
        (fun same => different (congrArg some same.symm))
      · exact same.trans (woken_fields s ring p).1
      · exact absurd isCurrent away
    · intro p
      rw [switchTo_wakeTicks]
      exact (woken_fields s ring p).2

end

def ringTask (state : TaskState) (next : TaskPtr) (wakeTicks : UInt32) : Task :=
  { blankSched.tasks 0 with state := state, next := some next, wakeTicks := wakeTicks }

def threeTasks : Sched :=
  { blankSched with
    tasks := fun p =>
      if p = 1 then ringTask .running 2 0
      else if p = 2 then ringTask .blocked 3 9
      else ringTask .blocked 1 4
    taskList := some 1
    currentTask := some 1
    taskCount := 3
    ticks := 5 }

theorem threeTasks_ring : RingOk threeTasks [1, 2, 3] where
  linked := by
    rintro list ⟨⟩
    exact ⟨⟨rfl, rfl, rfl, rfl⟩, nofun⟩
  empty := nofun
  nodup := by decide
  count := rfl
  current := by
    rintro p ⟨⟩
    decide

theorem round_robin_three : ∃ s' chosen, RingOk threeTasks [1, 2, 3] ∧
    taskSwitch threeTasks = some s' ∧ SwitchesTo threeTasks s' [1, 2, 3] chosen ∧
    s'.currentTask = some 3 := by
  obtain ⟨s', chosen, switched, spec⟩ := round_robin threeTasks [1, 2, 3] threeTasks_ring
  have evaluated : (taskSwitch threeTasks).map Sched.currentTask = some (some 3) := by decide
  rw [switched] at evaluated
  exact ⟨s', chosen, threeTasks_ring, switched, spec, Option.some.inj evaluated⟩

section

-- The source reads `prev->state` and passes `&prev->esp` without a test.
def saveThrough (s : Sched) (chosen : TaskPtr) : Option Sched :=
  match s.currentTask with
  | none => none
  | some _ => some (switchTo s chosen)

/-- `task_switch` on a machine where every access through a null pointer ends the run. -/
def taskSwitchStrict (s : Sched) : Option Sched :=
  match s.taskList with
  | none => some s
  | some list => do
    let start ← firstCandidate s list
    let tasks ← wakeSleepers s.ticks list s.taskCount.toNat list s.tasks
    let chosen ← findReady tasks s.taskCount.toNat start
    if (tasks chosen).state = .ready then saveThrough { s with tasks } chosen
    else some { s with tasks }

-- The scheduler that a call hands to `task_switch`, if it gets that far.
def switchEntry (s : Sched) : TaskCall → Option Sched
  | .taskCreate _ | .sysFork _ | .taskUnblock _ | .taskWake _ => none
  | .taskSwitch | .taskYield => some s
  | .taskExit => s.currentTask.map (retire s)
  | .taskSleep milliseconds =>
    s.currentTask.map fun me => fallAsleep s me (sleepTarget s milliseconds)
  | .taskSleepUntil targetTicks => s.currentTask.map fun me => fallAsleep s me targetTicks
  | .taskBlock waitQueue =>
    s.currentTask.bind fun me => (enqueueCurrent s me waitQueue).map Prod.fst
  | .timerHandler => s.currentTask.bind fun me =>
    if ((useTimeSlice (countTick s) me).tasks me).timeSlice = 0 then
      some (useTimeSlice (countTick s) me)
    else none

theorem taskSwitchStrict_current {me : TaskPtr} (isCurrent : s.currentTask = some me) :
    taskSwitchStrict s = taskSwitch s := by
  unfold taskSwitchStrict taskSwitch
  cases s.taskList with
  | none => rfl
  | some list => simp only [saveThrough, isCurrent]

theorem taskSwitchStrict_some (switched : taskSwitchStrict s = some s') :
    taskSwitch s = some s' := by
  unfold taskSwitchStrict at switched
  unfold taskSwitch
  cases listed : s.taskList with
  | none => simpa [listed] using switched
  | some list =>
    simp only [listed] at switched
    obtain ⟨start, first, rest⟩ := bind_eq_some_iff.mp switched
    obtain ⟨tasks, sleepers, rest⟩ := bind_eq_some_iff.mp rest
    obtain ⟨chosen, found, rest⟩ := bind_eq_some_iff.mp rest
    simp only [first, sleepers, found, bind_eq_bind, bind_some]
    split at rest
    · next ready =>
      rw [if_pos ready]
      unfold saveThrough at rest
      split at rest
      · contradiction
      · exact rest
    · next idle =>
      rw [if_neg idle]
      exact rest

theorem taskSwitchStrict_boot (ok : RingOk s ring) (boot : s.currentTask = none) :
    taskSwitchStrict s = none ↔ ∃ p ∈ ring, Wakeable s.ticks (s.tasks p) := by
  cases listed : s.taskList with
  | none =>
    obtain rfl := ok.empty listed
    simp [taskSwitchStrict, listed]
  | some list =>
    obtain ⟨start, reached, first, sleepers, found, hit⟩ := switch_search ok listed
    rw [boot, turnOrder] at hit
    have someone : (woken s ring reached).state = .ready ↔
        ∃ p ∈ ring, Wakeable s.ticks (s.tasks p) := by
      constructor
      · intro ready
        rw [if_pos ready] at hit
        have member := List.mem_of_find?_eq_some hit
        exact ⟨reached, member, (woken_ready s member).mp ready⟩
      · rintro ⟨p, member, wakeable⟩
        by_contra idle
        rw [if_neg idle] at hit
        have passed := List.find?_eq_none.mp hit p member
        simp [(woken_ready s member).mpr wakeable] at passed
    simp only [taskSwitchStrict, listed, first, sleepers, found, saveThrough, boot,
      bind_eq_bind, bind_some]
    rw [← someone]
    by_cases ready : (woken s ring reached).state = .ready <;> simp [ready]

-- Only `task_yield` does not look whether there is a current task.
theorem switchEntry_cases {call : TaskCall} {entered : Sched}
    (entry : switchEntry s call = some entered) :
    Begins s call entered ∧ scheduled s call = taskSwitch entered ∧
      (s.currentTask = none → (call = .taskSwitch ∨ call = .taskYield) ∧ entered = s) := by
  have guarded : ∀ me, s.currentTask = some me → s.currentTask = none →
      (call = .taskSwitch ∨ call = .taskYield) ∧ entered = s := by
    intro me isCurrent boot
    rw [isCurrent] at boot
    contradiction
  cases call with
  | taskCreate _ => contradiction
  | sysFork _ => contradiction
  | taskUnblock _ => contradiction
  | taskWake _ => contradiction
  | taskSwitch =>
    cases entry
    exact ⟨.nothing _ nofun, rfl, fun _ => ⟨.inl rfl, rfl⟩⟩
  | taskYield =>
    cases entry
    exact ⟨.nothing _ nofun, rfl, fun _ => ⟨.inr rfl, rfl⟩⟩
  | taskExit =>
    obtain ⟨me, isCurrent, rfl⟩ := map_eq_some_iff.mp entry
    refine ⟨.retires me isCurrent, ?_, guarded me isCurrent⟩
    simp only [scheduled, taskExit, isCurrent]
  | taskSleep milliseconds =>
    obtain ⟨me, isCurrent, rfl⟩ := map_eq_some_iff.mp entry
    refine ⟨.sleeps me milliseconds isCurrent, ?_, guarded me isCurrent⟩
    simp only [scheduled, taskSleep, taskSleepUntil, isCurrent]
  | taskSleepUntil targetTicks =>
    obtain ⟨me, isCurrent, rfl⟩ := map_eq_some_iff.mp entry
    refine ⟨.sleepsUntil me targetTicks isCurrent, ?_, guarded me isCurrent⟩
    simp only [scheduled, taskSleepUntil, isCurrent]
  | taskBlock waitQueue =>
    obtain ⟨me, isCurrent, rest⟩ := bind_eq_some_iff.mp entry
    obtain ⟨⟨queued, head⟩, enqueued, rfl⟩ := map_eq_some_iff.mp rest
    refine ⟨.parks me waitQueue head queued isCurrent enqueued, ?_, guarded me isCurrent⟩
    simp only [scheduled, taskBlock, isCurrent, enqueued, bind_eq_bind, bind_some]
    cases taskSwitch queued <;> rfl
  | timerHandler =>
    obtain ⟨me, isCurrent, rest⟩ := bind_eq_some_iff.mp entry
    split at rest
    · next used =>
      cases rest
      refine ⟨.slices me isCurrent, ?_, guarded me isCurrent⟩
      simp only [scheduled, timerHandler, isCurrent]
      rw [if_pos used]
    · contradiction

theorem run_ring {s : Sched} {history : List Empty} {trace : TaskTrace}
    (run : Stepper.Run taskStep FreshMemory ⟨taskInit s, [], 0⟩ history trace) :
    RingTrace trace :=
  run.invariant (fun _ trace => RingTrace trace)
    ⟨[], (taskInit_inv s).ok, (taskInit_inv s).created⟩
    fun _ _ _ _ _ ring fresh taken => taskStep_ring ring fresh taken

end

theorem null_task_in_runs (s : Sched) {history : List Empty} {trace : TaskTrace}
    (run : Stepper.Run taskStep FreshMemory ⟨taskInit s, [], 0⟩ history trace) (call : TaskCall)
    (entered : Sched) (entry : switchEntry trace.sched call = some entered) :
    scheduled trace.sched call = taskSwitch entered ∧
    (taskSwitchStrict entered = none ↔ (call = .taskSwitch ∨ call = .taskYield) ∧
      trace.sched.currentTask = none ∧
        ∃ p ∈ trace.tasks, Wakeable trace.sched.ticks (trace.sched.tasks p)) ∧
    ∀ s', taskSwitchStrict entered = some s' → taskSwitch entered = some s' := by
  obtain ⟨ring, ok, perm⟩ := run_ring run
  obtain ⟨begins, switches, unguarded⟩ := switchEntry_cases entry
  refine ⟨switches, ?_, fun s' => taskSwitchStrict_some⟩
  cases current : trace.sched.currentTask with
  | none =>
    obtain ⟨yields, rfl⟩ := unguarded current
    rw [taskSwitchStrict_boot ok current]
    simp only [yields, perm.mem_iff, true_and]
  | some me =>
    have same := begins.keepsTasks.2
    rw [taskSwitchStrict_current (same.trans current), taskSwitch_eq (begins.ringOk ok)]
    exact iff_of_false nofun nofun

-- The first task was started through the null pointer; when it sleeps it has a place for
-- its context.
theorem null_task_in_runs_asleep : ∃ history trace entered,
    Stepper.Run taskStep FreshMemory ⟨taskInit blankSched, [], 0⟩ history trace ∧
    switchEntry trace.sched (.taskSleep 20) = some entered ∧
    taskSwitchStrict entered ≠ none := by
  obtain ⟨history, trace, run, checked⟩ := Stepper.Run.exists_of_actions taskStep FreshMemory
    ⟨taskInit blankSched, [], 0⟩ [createAt 1, createAt 2, .taskYield]
    (fun _ trace => (switchEntry trace.sched (.taskSleep 20)).isSome) (by decide +kernel)
  obtain ⟨entered, entry⟩ := Option.isSome_iff_exists.mp checked
  refine ⟨history, trace, entered, run, entry, fun stuck => ?_⟩
  obtain ⟨yields, -⟩ := (null_task_in_runs blankSched run _ entered entry).2.1.mp stuck
  contradiction

theorem first_switch_saves_through_null : ∃ history trace,
    Stepper.Run taskStep FreshMemory ⟨taskInit blankSched, [], 0⟩ history trace ∧
    trace.sched.currentTask = none ∧ trace.sched.taskList = some 1 ∧
    ∃ entered, switchEntry trace.sched .taskYield = some entered ∧
      taskSwitchStrict entered = none := by
  obtain ⟨history, trace, run, checked⟩ := Stepper.Run.exists_of_actions taskStep FreshMemory
    ⟨taskInit blankSched, [], 0⟩ [createAt 1]
    (fun _ trace => trace.sched.currentTask = none ∧ trace.sched.taskList = some 1 ∧
      (taskSwitchStrict trace.sched).isNone) (by decide +kernel)
  obtain ⟨boot, listed, stuck⟩ := of_decide_eq_true checked
  exact ⟨history, trace, run, boot, listed, trace.sched, rfl, Option.isNone_iff_eq_none.mp stuck⟩

end ArgoOS.Tasking
