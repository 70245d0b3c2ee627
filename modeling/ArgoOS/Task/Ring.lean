import ArgoOS.Task.Switch

set_option autoImplicit false

namespace ArgoOS.Tasking

open Linked Option List Function

-- The circular list visits `ring`, every task once, and the current task is on it.
structure RingOk (s : Sched) (ring : List TaskPtr) : Prop where
  linked : ∀ list, s.taskList = some list → RingPath (fun p => (s.tasks p).next) list ring
  empty : s.taskList = none → ring = []
  nodup : ring.Nodup
  count : ring.length = s.taskCount.toNat
  current : ∀ p, s.currentTask = some p → p ∈ ring

-- The tasks after the loop over the sleeping ones.
def woken (s : Sched) (ring : List TaskPtr) : TaskPtr → Task := fun p =>
  if p ∈ ring then wakeIfDue s.ticks (s.tasks p) else s.tasks p

@[simp] theorem wakeIfDue_next (ticks : UInt32) (t : Task) : (wakeIfDue ticks t).next = t.next := by
  unfold wakeIfDue
  split <;> rfl

variable {list : TaskPtr}

theorem wakeSleepers_path (ticks : UInt32) {checking : TaskPtr} {tasks : TaskPtr → Task}
    {rest : List TaskPtr} {fuel : Nat}
    (path : Path (fun p => (tasks p).next) (some checking) (checking :: rest) (some list))
    (distinct : (checking :: rest).Nodup) (outside : list ∉ rest) (enough : rest.length < fuel) :
    wakeSleepers ticks list fuel checking tasks =
      some (fun p => if p ∈ checking :: rest then wakeIfDue ticks (tasks p) else tasks p) := by
  induction rest generalizing checking tasks fuel with
  | nil =>
    obtain ⟨fuel, rfl⟩ : ∃ n, fuel = n + 1 := ⟨fuel - 1, by omega⟩
    have link : (tasks checking).next = some list := path.2
    simp only [wakeSleepers, update_self, wakeIfDue_next, link, if_true, some.injEq]
    funext p
    by_cases same : p = checking <;> simp [same]
  | cons following rest ih =>
    obtain ⟨fuel, rfl⟩ : ∃ n, fuel = n + 1 := ⟨fuel - 1, by omega⟩
    have link : (tasks checking).next = some following := path.2.1
    have different : following ≠ list := by
      rintro rfl
      simp at outside
    rw [nodup_cons] at distinct
    have onward : Path (fun p => ((update tasks checking
        (wakeIfDue ticks (tasks checking))) p).next) (some following) (following :: rest)
        (some list) := by
      refine (path_congr _ _ _ ?_).mpr ⟨rfl, path.2.2⟩
      intro p member
      have other : p ≠ checking := by
        rintro rfl
        exact distinct.1 member
      simp [update_of_ne other]
    simp only [wakeSleepers, update_self, wakeIfDue_next, link, if_neg different]
    rw [ih onward distinct.2 (fun h => outside (by simp [h])) (by simpa using enough)]
    congr 1
    funext p
    by_cases same : p = checking
    · subst same
      simp [distinct.1]
    · simp [same]

theorem findReady_path (tasks : TaskPtr → Task) (start stop : TaskPtr) (xs : List TaskPtr)
    (path : Path (fun p => (tasks p).next) (some start) xs (some stop)) :
    findReady tasks xs.length start =
      some ((xs.find? fun p => (tasks p).state = .ready).getD stop) := by
  induction xs generalizing start with
  | nil =>
    cases path
    rfl
  | cons x xs ih =>
    obtain ⟨same, rest⟩ := path
    obtain rfl : start = x := some.inj same
    by_cases ready : (tasks start).state = .ready
    · simp [findReady, ready]
    · have link : ∃ following, (tasks start).next = some following := by
        cases xs with
        | nil => exact ⟨stop, rest⟩
        | cons y ys => exact ⟨y, rest.1⟩
      obtain ⟨following, link⟩ := link
      have onward := ih following (link ▸ rest)
      simp [findReady, ready, link, onward]

-- The order in which `task_switch` looks at the tasks: the current one comes last.
def turnOrder (ring : List TaskPtr) : Option TaskPtr → List TaskPtr
  | none => ring
  | some current =>
    (ring.dropWhile (· ≠ current)).tail ++ ring.takeWhile (· ≠ current) ++ [current]

theorem turnOrder_split (before after : List TaskPtr) (current : TaskPtr)
    (distinct : (before ++ current :: after).Nodup) :
    turnOrder (before ++ current :: after) (some current) = after ++ before ++ [current] := by
  have outside : ∀ p ∈ before, p ≠ current := by
    rw [nodup_append] at distinct
    exact fun p member => distinct.2.2 p member current (by simp)
  have front : (before ++ current :: after).takeWhile (· ≠ current) = before := by
    rw [takeWhile_append_of_pos (by simpa using outside)]
    simp
  have back : (before ++ current :: after).dropWhile (· ≠ current) = current :: after := by
    rw [dropWhile_append_of_pos (by simpa using outside)]
    simp
  rw [turnOrder, front, back, tail_cons]

theorem turnOrder_mem {ring : List TaskPtr} {current : Option TaskPtr} (distinct : ring.Nodup)
    (inside : ∀ p, current = some p → p ∈ ring) (p : TaskPtr) :
    p ∈ turnOrder ring current ↔ p ∈ ring := by
  cases current with
  | none => rfl
  | some c =>
    obtain ⟨before, after, rfl⟩ := append_of_mem (inside c rfl)
    rw [turnOrder_split before after c distinct]
    simp
    tauto

@[simp] theorem woken_next (s : Sched) (ring : List TaskPtr) (p : TaskPtr) :
    (woken s ring p).next = (s.tasks p).next := by
  unfold woken
  split <;> simp

section

variable {s : Sched} {ring : List TaskPtr} (ok : RingOk s ring)

include ok

theorem turnOrder_path (listed : s.taskList = some list) :
    ∃ start, firstCandidate s list = some start ∧
      start ∈ turnOrder ring s.currentTask ∧
      Path (fun p => (s.tasks p).next) (some start) (turnOrder ring s.currentTask) (some start) ∧
      (turnOrder ring s.currentTask).length = ring.length := by
  have linked := ok.linked list listed
  unfold firstCandidate
  cases current : s.currentTask with
  | none =>
    refine ⟨list, rfl, ?_, linked.1, rfl⟩
    obtain ⟨path, nonempty⟩ := linked
    obtain ⟨x, xs, rfl⟩ := exists_cons_of_ne_nil nonempty
    simp [turnOrder, some.inj path.1]
  | some c =>
    obtain ⟨before, after, rfl, rotated⟩ := linked.rotate c (ok.current c current)
    have onward : Path (fun p => (s.tasks p).next) (s.tasks c).next (after ++ before) (some c) :=
      rotated.1.2
    rw [turnOrder_split before after c ok.nodup]
    have start : ∃ start, (s.tasks c).next = some start ∧ start ∈ after ++ before ++ [c] := by
      cases rest : after ++ before with
      | nil => exact ⟨c, by simpa [rest] using onward, by simp⟩
      | cons x xs =>
        rw [rest] at onward
        exact ⟨x, onward.1, by simp⟩
    obtain ⟨start, link, member⟩ := start
    refine ⟨start, link, member, ?_, by simp; omega⟩
    refine (path_append _ _ _ _).mpr ⟨some c, link ▸ onward, ?_⟩
    simp [link]

-- What the two loops of `task_switch` compute, whatever is done with the task they end at.
theorem switch_search (listed : s.taskList = some list) :
    ∃ start reached, firstCandidate s list = some start ∧
      wakeSleepers s.ticks list s.taskCount.toNat list s.tasks = some (woken s ring) ∧
      findReady (woken s ring) s.taskCount.toNat start = some reached ∧
      ((turnOrder ring s.currentTask).find? fun p => (woken s ring p).state = .ready) =
        if (woken s ring reached).state = .ready then some reached else none := by
  obtain ⟨start, first, member, path, length⟩ := turnOrder_path ok listed
  obtain ⟨linked, nonempty⟩ := ok.linked list listed
  have sleepers : wakeSleepers s.ticks list s.taskCount.toNat list s.tasks = some (woken s ring) := by
    obtain ⟨x, xs, rfl⟩ := exists_cons_of_ne_nil nonempty
    obtain rfl : list = x := some.inj linked.1
    have distinct := ok.nodup
    refine wakeSleepers_path s.ticks linked distinct
      (nodup_cons.mp distinct).1 ?_
    rw [← ok.count]
    simp
  have found := findReady_path (woken s ring) start start (turnOrder ring s.currentTask)
    ((path_congr _ _ _ (by simp)).mpr path)
  rw [length, ok.count] at found
  refine ⟨start, _, first, sleepers, found, ?_⟩
  cases hit : (turnOrder ring s.currentTask).find? fun p => (woken s ring p).state = .ready with
  | none =>
    have idle := List.find?_eq_none.mp hit start member
    simp at idle
    simp [idle]
  | some chosen =>
    have ready := List.find?_some hit
    simp at ready
    simp [ready]

theorem taskSwitch_eq :
    taskSwitch s = some
      (match (turnOrder ring s.currentTask).find? fun p => (woken s ring p).state = .ready with
      | some chosen => switchTo { s with tasks := woken s ring } chosen
      | none => { s with tasks := woken s ring }) := by
  cases listed : s.taskList with
  | none =>
    obtain rfl := ok.empty listed
    have same : woken s [] = s.tasks := by
      funext p
      simp [woken]
    cases current : s.currentTask with
    | none =>
      simp [taskSwitch, listed, turnOrder, same]
      cases s
      simp_all
    | some p => simpa using ok.current p current
  | some list =>
    obtain ⟨start, reached, first, sleepers, found, hit⟩ := switch_search ok listed
    simp only [taskSwitch, listed, first, sleepers, found, hit, bind_eq_bind,
      bind_some]
    by_cases ready : (woken s ring reached).state = .ready <;> simp [ready]

end

-- A task that only `task_wake` can make ready again.
def Parked (t : Task) : Prop := t.state = .blocked ∧ t.wakeTicks = 0

instance (t : Task) : Decidable (Parked t) := inferInstanceAs (Decidable (_ ∧ _))

def Wakeable (ticks : UInt32) (t : Task) : Prop := t.state = .ready ∨ Due ticks t

instance (ticks : UInt32) (t : Task) : Decidable (Wakeable ticks t) :=
  inferInstanceAs (Decidable (_ ∨ _))

theorem wakeIfDue_ready (ticks : UInt32) (t : Task) :
    (wakeIfDue ticks t).state = .ready ↔ Wakeable ticks t := by
  unfold wakeIfDue Wakeable
  split <;> simp_all

theorem wakeIfDue_parked (ticks : UInt32) (t : Task) : Parked (wakeIfDue ticks t) ↔ Parked t := by
  by_cases due : Due ticks t
  · simp [wakeIfDue, due, Parked, due.2.1]
  · simp [wakeIfDue, due]

theorem Wakeable.not_parked {ticks : UInt32} {t : Task} (wakeable : Wakeable ticks t) : ¬ Parked t := by
  intro parked
  rcases wakeable with ready | due
  · simp [parked.1] at ready
  · exact due.2.1 parked.2

variable {s s' : Sched} {ring : List TaskPtr}

theorem RingOk.congr (ok : RingOk s ring) (next : ∀ p ∈ ring, (s'.tasks p).next = (s.tasks p).next)
    (list : s'.taskList = s.taskList) (count : s'.taskCount = s.taskCount)
    (current : ∀ p, s'.currentTask = some p → p ∈ ring) : RingOk s' ring where
  linked := by
    intro head listed
    obtain ⟨path, nonempty⟩ := ok.linked head (list ▸ listed)
    exact ⟨(path_congr _ _ _ next).mpr path, nonempty⟩
  empty := fun unlisted => ok.empty (list ▸ unlisted)
  nodup := ok.nodup
  count := by rw [count, ok.count]
  current := current

theorem RingOk.grow {ring' : List TaskPtr} {p : TaskPtr} (ok : RingOk s ring) (fresh : p ∉ ring)
    (below : s.taskCount < maxTasks) (perm : ring'.Perm (p :: ring))
    (count : s'.taskCount = s.taskCount + 1) (current : s'.currentTask = s.currentTask)
    (listed : s'.taskList = some list) (linked : RingPath (fun q => (s'.tasks q).next) list ring') :
    RingOk s' ring' where
  linked := by
    intro head isHead
    cases some.inj (listed.symm.trans isHead)
    exact linked
  empty := by
    intro unlisted
    rw [listed] at unlisted
    contradiction
  nodup := by
    rw [perm.nodup_iff, nodup_cons]
    exact ⟨fresh, ok.nodup⟩
  count := by
    have small : s.taskCount.toNat < 256 := below
    rw [count, perm.length_eq, length_cons, ok.count, UInt32.toNat_add, Nat.mod_eq_of_lt]
    · rfl
    · simp only [UInt32.toNat_one]
      omega
  current := by
    intro q same
    rw [perm.mem_iff]
    exact mem_cons_of_mem p (ok.current q (current ▸ same))

theorem RingOk.insert (ok : RingOk s ring) (p list : TaskPtr) (fresh : p ∉ ring)
    (listed : s.taskList = some list) :
    ∃ rest, ring = list :: rest ∧ RingPath (update (update
      (fun q => (s.tasks q).next) p (s.tasks list).next) list (some p)) list (list :: p :: rest) := by
  have linked := ok.linked list listed
  obtain ⟨x, rest, rfl⟩ := exists_cons_of_ne_nil linked.2
  obtain rfl : list = x := some.inj linked.1.1
  exact ⟨rest, rfl, linked.insert (nodup_cons.mp ok.nodup).1 fresh⟩

structure SwitchEffect (s s' : Sched) (ring : List TaskPtr) : Prop where
  ok : RingOk s' ring
  nextInQueue : ∀ p, (s'.tasks p).nextInQueue = (s.tasks p).nextInQueue
  parked : ∀ p, Parked (s'.tasks p) ↔ Parked (s.tasks p)
  current : s'.currentTask = s.currentTask ∨
    ∃ p ∈ ring, s'.currentTask = some p ∧ Wakeable s.ticks (s.tasks p)
  found : ∀ p ∈ ring, Wakeable s.ticks (s.tasks p) →
    ∃ q ∈ ring, s'.currentTask = some q ∧ Wakeable s.ticks (s.tasks q)

theorem woken_parked (s : Sched) (ring : List TaskPtr) (p : TaskPtr) :
    Parked (woken s ring p) ↔ Parked (s.tasks p) := by
  unfold woken
  split
  · exact wakeIfDue_parked s.ticks (s.tasks p)
  · rfl

@[simp] theorem woken_nextInQueue (s : Sched) (ring : List TaskPtr) (p : TaskPtr) :
    (woken s ring p).nextInQueue = (s.tasks p).nextInQueue := by
  unfold woken wakeIfDue
  split_ifs <;> rfl

theorem switchTo_tasks (s : Sched) (chosen p : TaskPtr) (ready : (s.tasks chosen).state = .ready) :
    ((switchTo s chosen).tasks p).next = (s.tasks p).next ∧
      ((switchTo s chosen).tasks p).nextInQueue = (s.tasks p).nextInQueue ∧
      (Parked ((switchTo s chosen).tasks p) ↔ Parked (s.tasks p)) := by
  unfold switchTo Sched.modify Parked
  cases s.currentTask with
  | none => by_cases same : p = chosen <;> simp_all
  | some prev =>
    by_cases again : prev = chosen <;> by_cases same : p = chosen <;> by_cases old : p = prev <;>
      simp_all [update_of_ne]
    all_goals split_ifs <;> simp_all

@[simp] theorem switchTo_globals (s : Sched) (chosen : TaskPtr) :
    (switchTo s chosen).currentTask = some chosen ∧ (switchTo s chosen).taskList = s.taskList ∧
      (switchTo s chosen).taskCount = s.taskCount ∧ (switchTo s chosen).ticks = s.ticks := by
  unfold switchTo Sched.modify
  cases s.currentTask with
  | none => simp
  | some prev => by_cases again : prev = chosen <;> simp [again]

theorem woken_ready (s : Sched) {p : TaskPtr} (member : p ∈ ring) :
    (woken s ring p).state = .ready ↔ Wakeable s.ticks (s.tasks p) := by
  rw [woken, if_pos member, wakeIfDue_ready]

theorem woken_idle (idle : ∀ p ∈ ring, ¬ Wakeable s.ticks (s.tasks p)) :
    woken s ring = s.tasks := by
  funext p
  unfold woken wakeIfDue
  split_ifs with member due
  · exact absurd (.inr due) (idle p member)
  · rfl
  · rfl

theorem taskSwitch_cases (ok : RingOk s ring) (switched : taskSwitch s = some s') :
    (s' = s ∧ ∀ p ∈ ring, ¬ Wakeable s.ticks (s.tasks p)) ∨
      ∃ chosen ∈ ring, Wakeable s.ticks (s.tasks chosen) ∧
        s' = switchTo { s with tasks := woken s ring } chosen := by
  have inOrder := turnOrder_mem ok.nodup ok.current
  rw [taskSwitch_eq ok] at switched
  split at switched
  next chosen hit =>
    have ready : (woken s ring chosen).state = .ready := by simpa using List.find?_some hit
    have member := (inOrder chosen).mp (List.mem_of_find?_eq_some hit)
    exact .inr ⟨chosen, member, (woken_ready s member).mp ready, (some.inj switched).symm⟩
  next none =>
    have idle : ∀ p ∈ ring, ¬ Wakeable s.ticks (s.tasks p) := by
      intro p member wakeable
      have passed := List.find?_eq_none.mp none p ((inOrder p).mpr member)
      simp [(woken_ready s member).mpr wakeable] at passed
    refine .inl ⟨?_, idle⟩
    rw [← some.inj switched, woken_idle idle]

theorem taskSwitch_leaves (ok : RingOk s ring) {me other : TaskPtr}
    (isCurrent : s.currentTask = some me) (member : other ∈ ring) (different : other ≠ me)
    (wakeable : Wakeable s.ticks (s.tasks other)) (switched : taskSwitch s = some s') :
    ∃ chosen, chosen ≠ me ∧ s'.currentTask = some chosen := by
  obtain ⟨before, after, rfl⟩ := append_of_mem (ok.current me isCurrent)
  have distinct := ok.nodup
  have outside : ∀ p ∈ after ++ before, p ≠ me := by
    rintro p inside rfl
    simp [nodup_append] at distinct inside
    grind
  have ready : ∃ chosen, (after ++ before).find?
      (fun p => (woken s (before ++ me :: after) p).state = .ready) = some chosen := by
    rw [← isSome_iff_exists, List.find?_isSome]
    refine ⟨other, ?_, by simpa using (woken_ready s member).mpr wakeable⟩
    simp at member ⊢
    tauto
  obtain ⟨chosen, hit⟩ := ready
  refine ⟨chosen, outside chosen (List.mem_of_find?_eq_some hit), ?_⟩
  rw [taskSwitch_eq ok, isCurrent, turnOrder_split before after me distinct,
    List.find?_append, hit] at switched
  rw [← some.inj switched]
  exact (switchTo_globals _ chosen).1

theorem taskSwitch_effect {s : Sched} {ring : List TaskPtr} (ok : RingOk s ring) :
    ∃ s', taskSwitch s = some s' ∧ SwitchEffect s s' ring := by
  obtain ⟨s', switched⟩ : ∃ s', taskSwitch s = some s' := ⟨_, taskSwitch_eq ok⟩
  refine ⟨s', switched, ?_⟩
  rcases taskSwitch_cases ok switched with ⟨rfl, idle⟩ | ⟨chosen, member, wakeable, rfl⟩
  · exact ⟨ok, fun _ => rfl, fun _ => Iff.rfl, .inl rfl,
      fun p member wakeable => absurd wakeable (idle p member)⟩
  · have fields := fun p => switchTo_tasks { s with tasks := woken s ring } chosen p
      ((woken_ready s member).mpr wakeable)
    obtain ⟨current, list, count, -⟩ := switchTo_globals { s with tasks := woken s ring } chosen
    refine ⟨ok.congr ?_ list count ?_, ?_, ?_, .inr ⟨chosen, member, current, wakeable⟩,
      fun _ _ _ => ⟨chosen, member, current, wakeable⟩⟩
    · intro p _
      simpa using (fields p).1
    · intro p same
      rw [current] at same
      exact some.inj same ▸ member
    · intro p
      simpa using (fields p).2.1
    · intro p
      exact (fields p).2.2.trans (woken_parked s ring p)

theorem switchTo_chosen (s : Sched) (chosen : TaskPtr) :
    ((switchTo s chosen).tasks chosen).state = .running ∧
      ((switchTo s chosen).tasks chosen).timeSlice = defaultTimeSlice := by
  unfold switchTo Sched.modify
  cases s.currentTask with
  | none => simp
  | some prev =>
    by_cases again : prev = chosen
    · simp [again]
    · simp [again, update_of_ne (Ne.symm again)]

theorem switchTo_others (s : Sched) (chosen p : TaskPtr) (other : p ≠ chosen) :
    ((switchTo s chosen).tasks p).wakeTicks = (s.tasks p).wakeTicks ∧
      (((switchTo s chosen).tasks p).state = (s.tasks p).state ∨
        s.currentTask = some p ∧ (s.tasks p).state = .running) := by
  unfold switchTo Sched.modify
  cases s.currentTask with
  | none => simp [other]
  | some prev =>
    by_cases again : prev = chosen
    · simp [again, other]
    · by_cases same : p = prev
      · subst same
        by_cases running : (s.tasks p).state = .running <;> simp [again, running]
      · simp [again, same, other]

theorem taskSwitch_ticks (switched : taskSwitch s = some s') : s'.ticks = s.ticks := by
  unfold taskSwitch at switched
  split at switched
  · cases switched
    rfl
  · obtain ⟨start, -, switched⟩ := bind_eq_some_iff.mp switched
    obtain ⟨tasks, -, switched⟩ := bind_eq_some_iff.mp switched
    obtain ⟨chosen, -, switched⟩ := bind_eq_some_iff.mp switched
    split at switched
    · cases switched
      exact (switchTo_globals _ chosen).2.2.2
    · cases switched
      rfl

end ArgoOS.Tasking
