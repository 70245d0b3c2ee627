import ArgoOS.Task.TaskList

set_option autoImplicit false

/-! # The running task -/

namespace ArgoOS.Tasking

open Stepper Function

section

structure Stills (s s' : Sched) : Prop where
  current : s'.currentTask = s.currentTask
  running : ∀ p, (s'.tasks p).state = .running → (s.tasks p).state = .running

theorem Stills.refl (s : Sched) : Stills s s := ⟨rfl, fun _ running => running⟩

theorem Stills.trans {a b c : Sched} (first : Stills a b) (second : Stills b c) : Stills a c :=
  ⟨second.current.trans first.current, fun p running => first.running p (second.running p running)⟩

theorem modify_stills (s : Sched) (p : TaskPtr) {f : Task → Task}
    (still : (f (s.tasks p)).state = .running → (s.tasks p).state = .running) :
    Stills s (s.modify p f) := by
  refine ⟨rfl, fun q running => ?_⟩
  by_cases same : q = p
  · subst same
    exact still (by simpa [Sched.modify] using running)
  · simpa [Sched.modify, same] using running

theorem wakeSleepers_running {ticks : UInt32} {list : TaskPtr} {fuel : Nat} {checking : TaskPtr}
    {tasks tasks' : TaskPtr → Task}
    (woke : wakeSleepers ticks list fuel checking tasks = some tasks') (p : TaskPtr)
    (running : (tasks' p).state = .running) : (tasks p).state = .running := by
  induction fuel generalizing checking tasks with
  | zero => contradiction
  | succ fuel ih =>
    have here : (update tasks checking (wakeIfDue ticks (tasks checking)) p).state =
        .running → (tasks p).state = .running := by
      intro running
      by_cases same : p = checking
      · subst same
        rw [update_self, wakeIfDue] at running
        split at running
        · contradiction
        · exact running
      · rwa [update_of_ne same] at running
    simp only [wakeSleepers] at woke
    split at woke
    · contradiction
    · split at woke
      · cases woke
        exact here running
      · exact here (ih woke)

theorem setNextInQueue_stills (s : Sched) (p : TaskPtr) (link : Option TaskPtr) :
    Stills s (setNextInQueue s p link) :=
  modify_stills s p id

theorem taskWake_stills (s : Sched) (p : TaskPtr) : Stills s (taskWake s p) := by
  unfold taskWake
  split
  · exact modify_stills s p nofun
  · exact .refl s

theorem enqueueCurrent_stills {s s' : Sched} {current : TaskPtr} {waitQueue head : Option TaskPtr}
    (queued : enqueueCurrent s current waitQueue = some (s', head)) : Stills s s' := by
  have parked : Stills s (park s current) := modify_stills s current nofun
  unfold enqueueCurrent at queued
  split at queued
  · cases queued
    exact parked
  · simp only at queued
    split at queued
    · cases queued
      exact parked.trans (setNextInQueue_stills _ _ _)
    · contradiction

structure Introduces (s : Sched) (result : Sched × Option TaskPtr) : Prop where
  stills : Stills s result.1
  ready : ∀ p, result.2 = some p → (result.1.tasks p).state = .ready

theorem update_stills (s : Sched) (p : TaskPtr) {t : Task} (nextTaskId : UInt32)
    (ready : t.state = .ready) :
    Stills s { s with tasks := update s.tasks p t, nextTaskId } := by
  refine ⟨rfl, fun q running => ?_⟩
  by_cases same : q = p
  · subst same
    simp [ready] at running
  · simpa [same] using running

theorem taskCreate_introduces (s : Sched) (r : CreateRequest) : Introduces s (taskCreate s r) := by
  have refused : Introduces s (s, none) := ⟨.refl s, nofun⟩
  unfold taskCreate
  split
  · exact refused
  · split
    · exact refused
    · next p _ =>
      have recorded : Stills s (recordTask s r p) := update_stills s p _ rfl
      simp only
      split
      · exact ⟨recorded, nofun⟩
      · generalize createKernelStack (recordTask s r p) r.stackPageLeft - 24 = base
        have states : ∀ q, ((linkTask (setUpStack (recordTask s r p) r p base) p).tasks q).state =
            ((recordTask s r p).tasks q).state := fun q =>
          (linkTask_fields _ p q).2.1.trans (setUpStack_fields _ r p q base).2.2.1
        have current := (linkTask_globals (setUpStack (recordTask s r p) r p base) p).2.2
        refine ⟨⟨current, fun q running => recorded.running q ((states q).symm.trans running)⟩, ?_⟩
        rintro q ⟨⟩
        exact (states p).trans (by simp [recordTask, newTask])

theorem forkTask_introduces (s : Sched) (r : ForkRequest) : Introduces s (forkTask s r) := by
  have refused : Introduces s (s, none) := ⟨.refl s, nofun⟩
  unfold forkTask
  split
  · exact refused
  · next parent _ =>
    split
    · exact refused
    · split
      · exact refused
      · next child _ =>
        have copied : Stills s (copyTask s parent child) := update_stills s child _ rfl
        simp only
        split
        · exact ⟨copied, nofun⟩
        · generalize createKernelStack (copyTask s parent child) r.stackPageLeft - 44 = base
          have states : ∀ q, ((linkFork (forkStack (copyTask s parent child) parent child base)
              child).tasks q).state = ((copyTask s parent child).tasks q).state := by
            intro q
            rw [linkFork_tasks, (linkTask_fields _ child q).2.1]
            by_cases same : q = child <;> simp [forkStack, Sched.modify, same]
          have current := (linkFork_globals (forkStack (copyTask s parent child) parent child base)
            child).2.2.1
          refine ⟨⟨current, fun q running =>
            copied.running q ((states q).symm.trans running)⟩, ?_⟩
          rintro q ⟨⟩
          exact (states child).trans (by simp [copyTask])

end

def RunsAlone (s : Sched) (tasks : List TaskPtr) : Prop :=
  ∀ p ∈ tasks, (s.tasks p).state = .running → s.currentTask = some p

variable {call : TaskCall}

section

variable {s s' : Sched} {tasks : List TaskPtr}

theorem RunsAlone.stills (alone : RunsAlone s tasks) (stills : Stills s s') :
    RunsAlone s' tasks :=
  fun p member running => stills.current.trans (alone p member (stills.running p running))

theorem RunsAlone.switchTo (alone : RunsAlone s tasks) (chosen : TaskPtr) :
    RunsAlone (switchTo s chosen) tasks := by
  intro p member running
  rw [(switchTo_globals s chosen).1]
  by_cases same : p = chosen
  · rw [same]
  · exfalso
    have before := alone p member
    unfold Tasking.switchTo Sched.modify at running
    cases current : s.currentTask with
    | none => simp_all
    | some prev =>
      rw [current] at before running
      simp only at running
      split at running
      · simp_all
      · by_cases old : p = prev
        · subst old
          simp only [update_self, update_of_ne same] at running
          split at running
          · contradiction
          · contradiction
        · simp_all

theorem RunsAlone.taskSwitch (alone : RunsAlone s tasks) (switched : taskSwitch s = some s') :
    RunsAlone s' tasks := by
  unfold Tasking.taskSwitch at switched
  split at switched
  · cases switched
    exact alone
  · next list _ =>
    obtain ⟨start, -, rest⟩ := Option.bind_eq_some_iff.mp switched
    obtain ⟨awake, woke, rest⟩ := Option.bind_eq_some_iff.mp rest
    obtain ⟨chosen, -, rest⟩ := Option.bind_eq_some_iff.mp rest
    have stills : Stills s { s with tasks := awake } :=
      ⟨rfl, wakeSleepers_running woke⟩
    split at rest
    · cases rest
      exact (alone.stills stills).switchTo chosen
    · cases rest
      exact alone.stills stills

theorem Begins.stills {middle : Sched} (begins : Begins s call middle) : Stills s middle := by
  cases begins with
  | nothing call notTick => exact .refl s
  | retires me isCurrent => exact modify_stills s me nofun
  | sleeps me milliseconds isCurrent => exact modify_stills s me nofun
  | sleepsUntil me targetTicks isCurrent => exact modify_stills s me nofun
  | parks me waitQueue head queued isCurrent enqueued => exact enqueueCurrent_stills enqueued
  | unblocks head => exact (setNextInQueue_stills s head none).trans (taskWake_stills _ head)
  | wakes task => exact taskWake_stills s task
  | ticks => exact ⟨rfl, fun _ running => running⟩
  | slices me isCurrent =>
    have counted : Stills s (countTick s) := ⟨rfl, fun _ running => running⟩
    exact counted.trans (modify_stills _ me id)

theorem RunsAlone.scheduled (alone : RunsAlone s tasks) (returned : scheduled s call = some s') :
    RunsAlone s' tasks := by
  obtain ⟨middle, begins, rfl | switched⟩ := scheduled_cases returned
  · exact alone.stills begins.stills
  · exact (alone.stills begins.stills).taskSwitch switched

theorem RunsAlone.record {trace : TaskTrace} (alone : RunsAlone trace.sched trace.tasks)
    {result : Sched × Option TaskPtr} (introduces : Introduces trace.sched result) :
    RunsAlone (trace.record result).sched (trace.record result).tasks := by
  obtain ⟨s, task⟩ := result
  have others : RunsAlone s trace.tasks := alone.stills introduces.stills
  cases task with
  | none => exact others
  | some p =>
    intro q member running
    obtain rfl | old := List.mem_cons.mp member
    · exact absurd ((introduces.ready q rfl).symm.trans running) (by simp)
    · exact others q old running

theorem taskStep_runsAlone {before after : TaskTrace} {events : List Empty}
    (alone : RunsAlone before.sched before.tasks)
    (taken : taskStep before call = some (after, events)) : RunsAlone after.sched after.tasks := by
  obtain ⟨request, -, rfl⟩ | ⟨request, -, rfl⟩ | ⟨s, result, rfl⟩ := taskStep_cases taken
  · exact alone.record (taskCreate_introduces before.sched request)
  · exact alone.record (forkTask_introduces before.sched request)
  · exact alone.scheduled result

end

theorem one_task_running (s : Sched) (history : List Empty) (trace : TaskTrace)
    (run : Run taskStep (fun _ _ => True) ⟨taskInit s, [], 0⟩ history trace) :
    (∀ p ∈ trace.tasks, ∀ q ∈ trace.tasks, (trace.sched.tasks p).state = .running →
      (trace.sched.tasks q).state = .running → p = q) ∧
    ∀ p ∈ trace.tasks, (trace.sched.tasks p).state = .running → trace.sched.currentTask = some p := by
  have start : RunsAlone (taskInit s) [] := by simp [RunsAlone]
  have alone : RunsAlone trace.sched trace.tasks :=
    run.invariant (fun _ trace => RunsAlone trace.sched trace.tasks) start
      fun _ _ _ _ _ alone _ taken => taskStep_runsAlone alone taken
  refine ⟨fun p first q second running running' => ?_, alone⟩
  exact Option.some.inj ((alone p first running).symm.trans (alone q second running'))

theorem one_task_running_forks : ∃ history trace,
    Run taskStep (fun _ _ => True) ⟨taskInit blankSched, [], 0⟩ history trace ∧
      trace.tasks = [3, 2, 1] ∧ (trace.sched.tasks 1).state = .running ∧
      ∀ p ∈ trace.tasks, (trace.sched.tasks p).state = .running →
        trace.sched.currentTask = some p := by
  obtain ⟨history, trace, run, checked⟩ := Run.exists_of_actions taskStep (fun _ _ => True)
    ⟨taskInit blankSched, [], 0⟩
    [createAt 1, createAt 2, .taskSwitch, .sysFork ⟨some 3, true⟩, .taskSleepUntil 5, .taskExit]
    (fun _ trace => trace.tasks = [3, 2, 1] ∧ (trace.sched.tasks 1).state = .running)
    (by decide +kernel)
  obtain ⟨tasks, running⟩ := of_decide_eq_true checked
  exact ⟨history, trace, run, tasks, running, (one_task_running blankSched history trace run).2⟩

end ArgoOS.Tasking
