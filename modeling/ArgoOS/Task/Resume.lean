import ArgoOS.Task.Outcome

set_option autoImplicit false

/-! # Returning to a task that gave up the CPU -/

namespace ArgoOS.Tasking

open Stepper Option Function

namespace Suspension

def after (granted : Bool) (ticks : UInt32) : Suspension → Suspension
  | .exit => .exit
  | .block woken => .block (woken || granted)
  | .sleep target passed => .sleep target (passed || decide (target ≤ ticks))

def Over : Suspension → Prop
  | .exit => False
  | .block woken => woken = true
  | .sleep _ passed => passed = true

instance : (suspension : Suspension) → Decidable suspension.Over
  | .exit => inferInstanceAs (Decidable False)
  | .block woken => inferInstanceAs (Decidable (woken = true))
  | .sleep _ passed => inferInstanceAs (Decidable (passed = true))

def Waits : Suspension → Task → Prop
  | .exit, t => t.state = .zombie
  | .block woken, t => woken = false → Parked t
  | .sleep target passed, t =>
    passed = false → target ≠ 0 ∧ t.state = .blocked ∧ t.wakeTicks = target

end Suspension

structure Watched where
  system : System
  inside : TaskPtr → Option Suspension

structure Return where
  task : TaskPtr
  call : Suspension
  state : TaskState
deriving DecidableEq, Repr

namespace Watched

def entered (w : Watched) (call : KernelCall) : TaskPtr → Option Suspension :=
  match w.system.current with
  | none => w.inside
  | some me =>
    match gaveUp w.system me call with
    | none => w.inside
    | some suspension => Function.update w.inside me (some suspension)

def passed (w : Watched) (call : KernelCall) (system : System) (events : List Event) :
    TaskPtr → Option Suspension := fun p =>
  (w.entered call p).map (Suspension.after (events.any (Event.grants p)) system.kernel.sched.ticks)

-- Whoever executes after the step has come back from the call it was in.
def step (w : Watched) (call : KernelCall) : Option (Watched × List Return) := do
  let (system, events) ← w.system.kernelStep call
  let inside := w.passed call system events
  match system.current with
  | none => return (⟨system, inside⟩, [])
  | some p =>
    match inside p with
    | none => return (⟨system, inside⟩, [])
    | some suspension =>
      return (⟨system, Function.update inside p none⟩,
        [⟨p, suspension, (system.kernel.sched.tasks p).state⟩])

end Watched

section

def Rests (ticks : UInt32) (granted : Bool) (t t' : Task) : Prop :=
  Calm t t' ∨ Wakeable ticks t ∨ granted = true ∧ Parked t

variable {suspension : Suspension} {ticks : UInt32} {granted : Bool} {t t' : Task}

theorem Suspension.Waits.rests (waits : suspension.Waits t) (rests : Rests ticks granted t t') :
    (suspension.after granted ticks).Waits t' := by
  cases suspension with
  | exit =>
    have zombie : t.state = .zombie := waits
    rcases rests with calm | (ready | due) | ⟨-, parked⟩
    · exact calm.1.trans zombie
    · simp [zombie] at ready
    · simp [zombie, Due] at due
    · simp [zombie, Parked] at parked
  | block woken =>
    intro notWoken
    obtain ⟨unwoken, ungranted⟩ : woken = false ∧ granted = false := by simpa using notWoken
    have parked : Parked t := waits unwoken
    rcases rests with calm | wakeable | ⟨isGranted, -⟩
    · exact ⟨calm.1.trans parked.1, calm.2.trans parked.2⟩
    · exact absurd parked wakeable.not_parked
    · simp [ungranted] at isGranted
  | sleep target passed =>
    intro notPassed
    obtain ⟨unpassed, early⟩ : passed = false ∧ ¬ target ≤ ticks := by simpa using notPassed
    obtain ⟨nonzero, blocked, wakeTicks⟩ := waits unpassed
    rcases rests with calm | (ready | due) | ⟨-, parked⟩
    · exact ⟨nonzero, calm.1.trans blocked, calm.2.trans wakeTicks⟩
    · simp [blocked] at ready
    · exact absurd (wakeTicks ▸ due.2.2) early
    · exact absurd (wakeTicks.symm.trans parked.2) nonzero

theorem Suspension.Waits.calm (waits : suspension.Waits t) (calm : Calm t t') :
    suspension.Waits t' := by
  cases suspension with
  | exit => exact calm.1.trans waits
  | block woken =>
    intro unwoken
    exact ⟨calm.1.trans (waits unwoken).1, calm.2.trans (waits unwoken).2⟩
  | sleep target passed =>
    intro unpassed
    obtain ⟨nonzero, blocked, wakeTicks⟩ := waits unpassed
    exact ⟨nonzero, calm.1.trans blocked, calm.2.trans wakeTicks⟩

theorem Suspension.Waits.ends (waits : suspension.Waits t) (wakeable : Wakeable ticks t) :
    (suspension.after granted ticks).Over := by
  cases suspension with
  | exit =>
    have zombie : t.state = .zombie := waits
    simp [Wakeable, Due, zombie] at wakeable
  | block woken =>
    cases woken with
    | true => exact Bool.true_or granted
    | false => exact absurd (waits rfl) wakeable.not_parked
  | sleep target passed =>
    cases passed with
    | true => exact Bool.true_or _
    | false =>
      obtain ⟨-, blocked, wakeTicks⟩ := waits rfl
      rcases wakeable with ready | due
      · simp [blocked] at ready
      · have reached : target ≤ ticks := wakeTicks ▸ due.2.2
        simp [Suspension.after, Suspension.Over, reached]

theorem Suspension.Marks.not_running (marks : suspension.Marks t) : t.state ≠ .running := by
  cases suspension with
  | exit => simp [show t.state = .zombie from marks]
  | block woken => simp [marks.1]
  | sleep target passed => simp [marks.1]

theorem Suspension.Marks.rests (marks : suspension.Marks t)
    (rests : Calm t t' ∨ Wakeable ticks t) :
    (suspension.after false ticks).Waits t' := by
  have rested : Rests ticks false t t' := rests.imp_right .inl
  cases suspension with
  | exit => exact Waits.rests (show Waits .exit t from marks) rested
  | block woken => exact Waits.rests (fun _ => marks) rested
  | sleep target passed =>
    intro notPassed
    have early : ¬ target ≤ ticks := by simpa using (Bool.or_eq_false_iff.mp notPassed).2
    have nonzero : target ≠ 0 := by
      rintro rfl
      exact early UInt32.zero_le
    have waits : Waits (.sleep target passed) t := fun _ => ⟨nonzero, marks⟩
    exact waits.rests rested notPassed

theorem Suspension.Marks.due (marks : suspension.Marks t) (wakeable : Wakeable ticks t) :
    suspension.DueAt ticks := by
  cases suspension with
  | exit =>
    have zombie : t.state = .zombie := marks
    simp [Wakeable, Due, zombie] at wakeable
  | block woken => exact absurd marks wakeable.not_parked
  | sleep target passed =>
    obtain ⟨blocked, wakeTicks⟩ := marks
    rcases wakeable with ready | due
    · simp [blocked] at ready
    · exact ⟨wakeTicks ▸ due.2.1, wakeTicks ▸ due.2.2⟩

theorem Suspension.DueAt.ends (due : suspension.DueAt ticks) :
    (suspension.after granted ticks).Over := by
  cases suspension with
  | exit => exact due.elim
  | block woken => exact due.elim
  | sleep target passed => simp [Suspension.after, Suspension.Over, due.2]

theorem Suspension.Marks.wakeable (marks : suspension.Marks t) (due : suspension.DueAt ticks) :
    Wakeable ticks t := by
  cases suspension with
  | exit => exact due.elim
  | block woken => exact due.elim
  | sleep target passed =>
    obtain ⟨blocked, wakeTicks⟩ := marks
    exact .inr ⟨blocked, wakeTicks ▸ due.1, wakeTicks ▸ due.2⟩

end

structure WatchInv (w : Watched) : Prop where
  sync : ∃ log, SyncInv log w.system
  running : ∀ p, w.system.current = some p → (w.system.kernel.sched.tasks p).state = .running
  home : ∀ p, w.system.current = some p → w.inside p = none
  member : ∀ p suspension, w.inside p = some suspension → p ∈ w.system.ring
  waits : ∀ p suspension, w.inside p = some suspension →
    suspension.Waits (w.system.kernel.sched.tasks p)

variable {s : Sched}

section

variable {w w' : Watched} {call : KernelCall} {system : System} {events : List Event}
  {returns : List Return}

theorem entered_caller {me : TaskPtr} {suspension : Suspension}
    (isCurrent : w.system.current = some me)
    (gives : gaveUp w.system me call = some suspension) :
    w.entered call = update w.inside me (some suspension) := by
  simp only [Watched.entered, isCurrent, gives]

theorem entered_none (stays : ∀ me, w.system.current = some me → gaveUp w.system me call = none) :
    w.entered call = w.inside := by
  unfold Watched.entered
  split
  · rfl
  next me isCurrent => simp only [stays me isCurrent]

theorem entered_other {p : TaskPtr} (other : w.system.current ≠ some p) :
    w.entered call p = w.inside p := by
  cases isCurrent : w.system.current with
  | none => simp only [Watched.entered, isCurrent]
  | some me =>
    cases gives : gaveUp w.system me call with
    | none => simp only [Watched.entered, isCurrent, gives]
    | some suspension =>
      rw [entered_caller isCurrent gives]
      refine update_of_ne ?_ _ _
      rintro rfl
      exact other isCurrent

theorem step_cases (taken : w.step call = some (w', returns)) :
    ∃ system events, w.system.kernelStep call = some (system, events) ∧ w'.system = system ∧
      ((∀ p, system.current = some p → w.passed call system events p = none) ∧
          w'.inside = w.passed call system events ∧ returns = [] ∨
        ∃ p suspension, system.current = some p ∧
          w.passed call system events p = some suspension ∧
          w'.inside = update (w.passed call system events) p none ∧
          returns = [⟨p, suspension, (system.kernel.sched.tasks p).state⟩]) := by
  unfold Watched.step at taken
  obtain ⟨⟨system, events⟩, stepped, rest⟩ := bind_eq_some_iff.mp taken
  refine ⟨system, events, stepped, ?_⟩
  simp only at rest
  split at rest
  next idle =>
    cases rest
    exact ⟨rfl, .inl ⟨fun p same => by simp [idle] at same, rfl, rfl⟩⟩
  next p isCurrent =>
    split at rest
    next free =>
      cases rest
      refine ⟨rfl, .inl ⟨fun q same => ?_, rfl, rfl⟩⟩
      cases some.inj (isCurrent.symm.trans same)
      exact free
    next suspension inside =>
      cases rest
      exact ⟨rfl, .inr ⟨p, suspension, isCurrent, inside, rfl, rfl⟩⟩

-- Everyone who is inside a call after the step waits, and whoever executes has been
-- through what its call waits for.
structure Passed (w : Watched) (call : KernelCall) (system : System) (events : List Event) :
    Prop where
  running : ∀ p, system.current = some p → (system.kernel.sched.tasks p).state = .running
  member : ∀ p suspension, w.passed call system events p = some suspension → p ∈ system.ring
  waits : ∀ p suspension, system.current ≠ some p →
    w.passed call system events p = some suspension →
    suspension.Waits (system.kernel.sched.tasks p)
  ended : ∀ p suspension, system.current = some p →
    w.passed call system events p = some suspension → suspension.Over

theorem Passed.quiet (inv : WatchInv w)
    (stays : ∀ me, w.system.current = some me → gaveUp w.system me call = none)
    (current : system.current = w.system.current) (ring : w.system.ring ⊆ system.ring)
    (tasks : ∀ p ∈ w.system.ring,
      Calm (w.system.kernel.sched.tasks p) (system.kernel.sched.tasks p) ∨
        events.any (Event.grants p) = true ∧ Parked (w.system.kernel.sched.tasks p)) :
    Passed w call system events := by
  obtain ⟨log, sync⟩ := inv.sync
  have inside : ∀ p suspension, w.passed call system events p = some suspension →
      ∃ before, w.inside p = some before ∧ suspension =
        before.after (events.any (Event.grants p)) system.kernel.sched.ticks := by
    intro p suspension same
    rw [Watched.passed, entered_none stays] at same
    obtain ⟨before, isInside, rfl⟩ := map_eq_some_iff.mp same
    exact ⟨before, isInside, rfl⟩
  refine ⟨?_, ?_, ?_, ?_⟩
  · intro p same
    have stayed : w.system.current = some p := current ▸ same
    have running := inv.running p stayed
    rcases tasks p (sync.ring.current p stayed) with calm | ⟨-, parked⟩
    · exact calm.1.trans running
    · simp [Parked, running] at parked
  · intro p suspension same
    obtain ⟨before, isInside, -⟩ := inside p suspension same
    exact ring (inv.member p before isInside)
  · intro p suspension _ same
    obtain ⟨before, isInside, rfl⟩ := inside p suspension same
    refine (inv.waits p before isInside).rests ?_
    exact (tasks p (inv.member p before isInside)).imp_right .inr
  · intro p suspension executing same
    obtain ⟨before, isInside, -⟩ := inside p suspension same
    simp [inv.home p (current ▸ executing)] at isInside

theorem switchTo_rests (s : Sched) (ring : List TaskPtr) {chosen p : TaskPtr} (other : p ≠ chosen)
    (notRunning : s.currentTask = some p → (s.tasks p).state ≠ .running) :
    Calm (s.tasks p) ((switchTo { s with tasks := woken s ring } chosen).tasks p) ∨
      Wakeable s.ticks (s.tasks p) := by
  by_cases wakeable : Wakeable s.ticks (s.tasks p)
  · exact .inr wakeable
  have asleep : woken s ring p = s.tasks p := by
    unfold woken wakeIfDue
    split_ifs with _ due
    · exact absurd (.inr due) wakeable
    · rfl
    · rfl
  obtain ⟨wakeTicks, same | ⟨isCurrent, running⟩⟩ :=
    switchTo_others { s with tasks := woken s ring } chosen p other
  · simp only [asleep] at wakeTicks same
    exact .inl ⟨same, wakeTicks⟩
  · simp only [asleep] at running
    exact absurd running (notRunning isCurrent)

def Inside (w : Watched) (s : Sched) (p : TaskPtr) (suspension : Suspension) : Prop :=
  w.system.current = some p ∧ suspension.Marks (s.tasks p) ∨
    w.system.current ≠ some p ∧ suspension.Waits (s.tasks p)

theorem entered_inside (inv : WatchInv w) (readied : Readied w.system call s) {p : TaskPtr}
    {suspension : Suspension} (isInside : w.entered call p = some suspension) :
    p ∈ w.system.ring ∧ Inside w s p suspension := by
  obtain ⟨log, sync⟩ := inv.sync
  by_cases executing : w.system.current = some p
  · refine ⟨sync.ring.current p executing, .inl ⟨executing, ?_⟩⟩
    cases gives : gaveUp w.system p call with
    | none =>
      have stays : ∀ me, w.system.current = some me → gaveUp w.system me call = none := by
        intro me same
        cases some.inj (executing.symm.trans same)
        exact gives
      rw [entered_none stays, inv.home p executing] at isInside
      contradiction
    | some given =>
      rw [entered_caller executing gives, update_self] at isInside
      cases isInside
      exact (readied.marked p _ executing gives).1
  · rw [entered_other executing] at isInside
    exact ⟨inv.member p suspension isInside, .inr ⟨executing,
      (inv.waits p suspension isInside).calm (readied.others p executing)⟩⟩

theorem LeavesTask.stays (met : LeavesTask w.system call) (readied : Readied w.system call s)
    (idle : ∀ p ∈ w.system.ring, ¬ Wakeable s.ticks (s.tasks p)) (me : TaskPtr)
    (executing : w.system.current = some me) : gaveUp w.system me call = none := by
  cases gives : gaveUp w.system me call with
  | none => rfl
  | some suspension =>
    obtain ⟨marks, ticks⟩ := readied.marked me suspension executing gives
    rcases met me executing suspension gives with ⟨p, member, other, wakeable⟩ | due
    · have calm := readied.others p (fun same => other (some.inj (same.symm.trans executing)))
      exact absurd ((calm.wakeable s.ticks).mpr (ticks ▸ wakeable)) (idle p member)
    · have member : me ∈ w.system.ring := readied.ok.current me (readied.current.trans executing)
      exact absurd (marks.wakeable (ticks ▸ due)) (idle me member)

theorem Passed.switched (inv : WatchInv w) (met : LeavesTask w.system call)
    (readied : Readied w.system call s) (ticks : system.kernel.sched.ticks = s.ticks)
    (ring : system.ring = w.system.ring) (ungranted : ∀ p, events.any (Event.grants p) = false)
    (switch : taskSwitch s = some system.kernel.sched) : Passed w call system events := by
  have inside : ∀ p suspension, w.passed call system events p = some suspension →
      p ∈ w.system.ring ∧ ∃ before : Suspension,
        suspension = before.after false s.ticks ∧ Inside w s p before := by
    intro p suspension same
    rw [Watched.passed, ungranted, ticks] at same
    obtain ⟨before, isInside, rfl⟩ := map_eq_some_iff.mp same
    obtain ⟨member, within⟩ := entered_inside inv readied isInside
    exact ⟨member, before, rfl, within⟩
  have member : ∀ p suspension, w.passed call system events p = some suspension →
      p ∈ system.ring := by
    intro p suspension same
    exact ring ▸ (inside p suspension same).1
  rcases taskSwitch_cases readied.ok switch with ⟨unchanged, idle⟩ | ⟨chosen, -, wakeable, after⟩
  · have current : system.current = w.system.current := by
      rw [System.current, unchanged, readied.current]
    refine ⟨?_, member, ?_, ?_⟩
    · intro p executing
      rw [current] at executing
      have calm := readied.kept p executing (met.stays readied idle p executing)
      rw [unchanged, calm.1]
      exact inv.running p executing
    · intro p suspension away same
      rw [current] at away
      obtain ⟨-, before, rfl, ⟨executing, -⟩ | ⟨-, waits⟩⟩ := inside p suspension same
      · exact absurd executing away
      · rw [unchanged]
        exact waits.rests (.inl (.refl _))
    · intro p suspension executing same
      rw [current] at executing
      obtain ⟨-, before, rfl, ⟨-, marks⟩ | ⟨away, -⟩⟩ := inside p suspension same
      · have calm := readied.kept p executing (met.stays readied idle p executing)
        exact absurd (calm.1.trans (inv.running p executing)) marks.not_running
      · exact absurd executing away
  · have current : system.current = some chosen := by
      rw [System.current, after]
      exact (switchTo_globals _ chosen).1
    refine ⟨?_, member, ?_, ?_⟩
    · intro p executing
      cases some.inj (current.symm.trans executing)
      rw [after]
      exact (switchTo_chosen _ chosen).1
    · intro p suspension away same
      have other : p ≠ chosen := by
        rintro rfl
        exact away current
      rw [after]
      obtain ⟨-, before, rfl, ⟨-, marks⟩ | ⟨notCurrent, waits⟩⟩ := inside p suspension same
      · exact marks.rests (switchTo_rests s _ other (fun _ => marks.not_running))
      · refine waits.rests ((switchTo_rests s _ other fun isCurrent => ?_).imp_right .inl)
        exact absurd (readied.current ▸ isCurrent) notCurrent
    · intro p suspension executing same
      cases some.inj (current.symm.trans executing)
      obtain ⟨-, before, rfl, ⟨-, marks⟩ | ⟨-, waits⟩⟩ := inside chosen suspension same
      · exact (marks.due wakeable).ends
      · exact waits.ends wakeable

theorem WatchInv.step (inv : WatchInv w) (met : LeavesTask w.system call)
    (taken : w.step call = some (w', returns)) :
    WatchInv w' ∧ ∀ r ∈ returns, r.state = .running ∧ r.call.Over := by
  obtain ⟨system, events, stepped, rfl, ends⟩ := step_cases taken
  obtain ⟨log, sync⟩ := inv.sync
  have sync' : ∃ log, SyncInv log w'.system := 
    ⟨_, sync.performed met.blockFinds (kernelStep_performed sync stepped)⟩
  have passed : Passed w call w'.system events := by
    cases (kernelStep_performed sync stepped).outcome sync with
    | quiet stays current ring tasks => exact .quiet inv stays current ring tasks
    | switched s readied ticks ring ungranted switch =>
      exact .switched inv met readied ticks ring ungranted switch
  obtain ⟨free, inside, rfl⟩ | ⟨p, suspension, executing, isInside, inside, rfl⟩ := ends
  · refine ⟨⟨sync', passed.running, ?_, ?_, ?_⟩, by simp⟩
    · intro p executing
      rw [inside]
      exact free p executing
    · intro p suspension same
      exact passed.member p suspension (inside ▸ same)
    · intro p suspension same
      rw [inside] at same
      refine passed.waits p suspension ?_ same
      intro executing
      simp [free p executing] at same
  · have others : ∀ q other, w'.inside q = some other →
        q ≠ p ∧ w.passed call w'.system events q = some other := by
      intro q other same
      rw [inside] at same
      by_cases here : q = p
      · simp [here] at same
      · exact ⟨here, (update_of_ne here _ _).symm.trans same⟩
    refine ⟨⟨sync', passed.running, ?_, ?_, ?_⟩, ?_⟩
    · intro q executing'
      cases some.inj (executing.symm.trans executing')
      rw [inside, update_self]
    · intro q other same
      exact passed.member q other (others q other same).2
    · intro q other same
      obtain ⟨different, before⟩ := others q other same
      refine passed.waits q other ?_ before
      intro executing'
      exact different (some.inj (executing'.symm.trans executing))
    · intro r returned
      cases List.mem_singleton.mp returned
      exact ⟨passed.running p executing, passed.ended p suspension executing isInside⟩

-- A call that leaves nobody the CPU comes back at once, in the state it has just set.
theorem lone_return (inv : WatchInv w) (alone : ¬ LeavesTask w.system call)
    (taken : w.step call = some (w', returns)) : ∃ r ∈ returns, r.state ≠ .running := by
  obtain ⟨log, sync⟩ := inv.sync
  obtain ⟨system, events, stepped, rfl, ends⟩ := step_cases taken
  simp only [LeavesTask, not_forall, not_or] at alone
  obtain ⟨me, executing, suspension, gives, nobody, notDue⟩ := alone
  cases (kernelStep_performed sync stepped).outcome sync with
  | quiet stays _ _ _ => simp [stays me executing] at gives
  | switched s readied _ _ _ switch =>
    obtain ⟨marks, ticks⟩ := readied.marked me suspension executing gives
    rcases taskSwitch_cases readied.ok switch with ⟨unchanged, -⟩ | ⟨chosen, member, wakeable, -⟩
    · have stayed : w'.system.current = some me := by
        rw [System.current, unchanged, readied.current, executing]
      have isInside : w.passed call w'.system events me ≠ none := by
        simp [Watched.passed, entered_caller executing gives]
      obtain ⟨free, -, -⟩ | ⟨p, returned, executing', -, -, rfl⟩ := ends
      · exact absurd (free me stayed) isInside
      · cases some.inj (stayed.symm.trans executing')
        refine ⟨_, List.mem_singleton_self _, ?_⟩
        simp only [unchanged]
        exact marks.not_running
    · rw [ticks] at wakeable
      by_cases self : chosen = me
      · subst self
        exact absurd (marks.due wakeable) notDue
      · have calm := readied.others chosen
          (fun same => self (some.inj (same.symm.trans executing)))
        exact absurd ⟨chosen, member, self, (calm.wakeable _).mp wakeable⟩ nobody

end

theorem Initial.watchInv {start : System} (initial : Initial start) :
    WatchInv ⟨start, fun _ => none⟩ where
  sync := ⟨[], initial.syncInv⟩
  running := by
    obtain ⟨s, sched⟩ := initial.sched
    simp [System.current, sched, taskInit]
  home := fun _ _ => rfl
  member := nofun
  waits := nofun

-- A task that gave up the CPU executes again only when it is running, not after an exit,
-- after a block only woken and after a sleep only from its tick on; and a call that leaves
-- nobody the CPU returns to a task that is not running.
theorem returns_running (start : System) (initial : Initial start) (history : List Return)
    (w : Watched)
    (run : Run Watched.step (fun w call => LeavesTask w.system call) ⟨start, fun _ => none⟩
      history w) :
    (∀ r ∈ history, r.state = .running ∧ r.call.Over) ∧
      (∀ p, w.system.current = some p → (w.system.kernel.sched.tasks p).state = .running) ∧
      ∀ call w' returns, w.step call = some (w', returns) → ¬ LeavesTask w.system call →
        ∃ r ∈ returns, r.state ≠ .running := by
  have inv := run.invariant
    (fun history w => WatchInv w ∧ ∀ r ∈ history, r.state = .running ∧ r.call.Over)
    ⟨initial.watchInv, nofun⟩ (by
      intro history before after call returns inv met taken
      obtain ⟨next, returned⟩ := inv.1.step met taken
      refine ⟨next, ?_⟩
      intro r member
      rcases List.mem_append.mp member with new | old
      · exact returned r new
      · exact inv.2 r old)
  exact ⟨inv.2, inv.1.running, fun call w' returns taken alone => lone_return inv.1 alone taken⟩

theorem returns_running_wait_and_sleep : ∃ history w,
    Run Watched.step (fun w call => LeavesTask w.system call) ⟨booted, fun _ => none⟩ history w ∧
      history.map Return.task = [2, 1] ∧ ∀ r ∈ history, r.state = .running ∧ r.call.Over := by
  obtain ⟨history, w, run, tasks⟩ := Run.exists_of_actions Watched.step
    (fun w call => LeavesTask w.system call) ⟨booted, fun _ => none⟩
    [.act (freshTask 1), .act (freshTask 2), .act (freshTask 3), .act .yield, .act .yield,
      .act (.wait 0), .act (.sleepUntil 1), .act (.post 0), .act .tick, .act .yield, .act .resume,
      .act .yield]
    (fun history _ => history.map Return.task = [2, 1]) (by decide +kernel)
  exact ⟨history, w, run, by simpa using tasks,
    (returns_running booted booted_initial history w run).1⟩

-- The only task exits and executes on as a zombie.
theorem lone_exit_returns : ∃ history w,
    Run Watched.step (fun _ _ => True) ⟨booted, fun _ => none⟩ history w ∧ Initial booted ∧
      history = [⟨1, .exit, .zombie⟩] := by
  obtain ⟨history, w, run, checked⟩ := Run.exists_of_actions Watched.step (fun _ _ => True)
    ⟨booted, fun _ => none⟩ [.act (freshTask 1), .act .yield, .act .exit]
    (fun history _ => history = [⟨1, .exit, .zombie⟩]) (by decide +kernel)
  exact ⟨history, w, run, booted_initial, by simpa using checked⟩

end ArgoOS.Tasking
