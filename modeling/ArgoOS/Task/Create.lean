import ArgoOS.Task.History

set_option autoImplicit false

namespace ArgoOS.Tasking

open Linked ArgoOS.Tasking.System Function

variable {s : Sched} {ring : List TaskPtr}

theorem linkTask_next {list : TaskPtr} (p : TaskPtr) (listed : s.taskList = some list) :
    (fun q => ((linkTask s p).tasks q).next) =
      update (update (fun q => (s.tasks q).next) p (s.tasks list).next)
        list (some p) := by
  funext q
  by_cases atList : q = list <;> by_cases atNew : q = p <;>
    simp_all [linkTask, Sched.modify, update_apply]

theorem linkTask_fields (s : Sched) (p q : TaskPtr) :
    ((linkTask s p).tasks q).nextInQueue = (s.tasks q).nextInQueue ∧
      ((linkTask s p).tasks q).state = (s.tasks q).state ∧
      ((linkTask s p).tasks q).wakeTicks = (s.tasks q).wakeTicks := by
  unfold linkTask
  split
  next => by_cases atNew : q = p <;> simp [Sched.modify, atNew]
  next list _ =>
    by_cases atList : q = list <;> by_cases atNew : q = p <;>
      simp_all [Sched.modify, update_apply]

theorem linkTask_globals (s : Sched) (p : TaskPtr) :
    (linkTask s p).taskList = some p ∧ (linkTask s p).taskCount = s.taskCount ∧
      (linkTask s p).currentTask = s.currentTask := by
  unfold linkTask
  split <;> exact ⟨rfl, rfl, rfl⟩

theorem ringWith_perm (ring : List TaskPtr) (p : TaskPtr) :
    (ringWith ring p).Perm (p :: ring) := by
  cases ring with
  | nil => simp [ringWith]
  | cons list rest => simp [ringWith]

theorem linkTask_ring {p : TaskPtr} (ok : RingOk s ring) (fresh : p ∉ ring) :
    RingPath (fun q => ((linkTask s p).tasks q).next) p (ringWith ring p) := by
  cases listed : s.taskList with
  | none =>
    obtain rfl := ok.empty listed
    simp [RingPath, ringWith, linkTask, listed, Sched.modify]
  | some list =>
    obtain ⟨rest, rfl, linked⟩ := ok.insert p list fresh listed
    rw [linkTask_next p listed]
    exact linked.advance

theorem RingOk.link (ok : RingOk s ring) (p : TaskPtr) (fresh : p ∉ ring)
    (below : s.taskCount < maxTasks) :
    RingOk { linkTask s p with taskCount := (linkTask s p).taskCount + 1 }
      (ringWith ring p) := by
  obtain ⟨list, count, current⟩ := linkTask_globals s p
  exact ok.grow fresh below (ringWith_perm ring p) (congrArg (· + 1) count) current list
    (linkTask_ring ok fresh)

theorem recordTask_others (s : Sched) (r : CreateRequest) (p q : TaskPtr) (other : q ≠ p) :
    (recordTask s r p).tasks q = s.tasks q :=
  update_of_ne other _ _

theorem setUpStack_fields (s : Sched) (r : CreateRequest) (p q : TaskPtr) (base : UInt32) :
    ((setUpStack s r p base).tasks q).next = (s.tasks q).next ∧
      ((setUpStack s r p base).tasks q).nextInQueue = (s.tasks q).nextInQueue ∧
      ((setUpStack s r p base).tasks q).state = (s.tasks q).state ∧
      ((setUpStack s r p base).tasks q).wakeTicks = (s.tasks q).wakeTicks := by
  by_cases same : q = p <;> simp [setUpStack, Sched.modify, same]

theorem recordTask_effect (r : CreateRequest) {p : TaskPtr} (ok : RingOk s ring)
    (fresh : p ∉ ring) :
    RingOk (recordTask s r p) ring ∧
      ∀ q ∈ ring, (recordTask s r p).tasks q = s.tasks q := by
  have same : ∀ q ∈ ring, (recordTask s r p).tasks q = s.tasks q := by
    intro q member
    apply recordTask_others
    rintro rfl
    exact fresh member
  exact ⟨ok.congr (fun q member => by rw [same q member]) rfl rfl ok.current, same⟩

theorem created_fields (s : Sched) (r : CreateRequest) (p q : TaskPtr) (base : UInt32) :
    let created := linkTask (setUpStack (recordTask s r p) r p base) p
    created.queueLink q = (recordTask s r p).queueLink q ∧
      (Parked (created.tasks q) ↔ Parked ((recordTask s r p).tasks q)) := by
  obtain ⟨link, state, wake⟩ := linkTask_fields (setUpStack (recordTask s r p) r p base) p q
  obtain ⟨-, link', state', wake'⟩ := setUpStack_fields (recordTask s r p) r p q base
  exact ⟨link.trans link', by rw [Parked, state, wake, state', wake', Parked]⟩

theorem taskCreate_effect (r : CreateRequest) (ok : RingOk s ring)
    (fresh : ∀ p, r.memory = some p → p ∉ ring) :
    Moves s (taskCreate s r).1 ring (ringAfter ring (taskCreate s r).2) ∧
      NoneParked s (taskCreate s r).1 ring (ringAfter ring (taskCreate s r).2) := by
  have refused : Moves s s ring ring ∧ NoneParked s s ring ring :=
    ⟨(Touches.refl s).moves ok, fun p member parked => ⟨member, parked⟩⟩
  by_cases full : maxTasks ≤ s.taskCount
  · simpa [taskCreate, full, ringAfter] using refused
  cases memory : r.memory with
  | none => simpa [taskCreate, full, memory, ringAfter] using refused
  | some p =>
    have outside := fresh p memory
    obtain ⟨recorded, same⟩ := recordTask_effect r ok outside
    by_cases noStack : createKernelStack (recordTask s r p) r.stackPageLeft = 0
    · simp only [taskCreate, full, memory, noStack, if_false, if_true, ringAfter]
      refine ⟨⟨recorded, List.Subset.refl ring, ?_, ?_, fun q chosen => .inl chosen⟩, ?_⟩
      · intro q member
        rw [Sched.queueLink, same q member, Sched.queueLink]
      · intro q member _
        rw [same q member]
      · intro q member parked
        exact ⟨member, same q member ▸ parked⟩
    · simp only [taskCreate, full, memory, noStack, if_false, ringAfter]
      generalize createKernelStack (recordTask s r p) r.stackPageLeft - 24 = base
      have fields := created_fields s r p
      have perm := ringWith_perm ring p
      obtain ⟨-, -, current⟩ := linkTask_globals (setUpStack (recordTask s r p) r p base) p
      have ready : RingOk (setUpStack (recordTask s r p) r p base) ring :=
        recorded.congr (fun q _ => (setUpStack_fields _ _ _ q _).1) rfl rfl recorded.current
      refine ⟨⟨ready.link p outside (UInt32.not_le.mp full), ?_, ?_, ?_, ?_⟩, ?_⟩
      · intro q member
        exact perm.mem_iff.mpr (List.mem_cons_of_mem p member)
      · intro q member
        refine (fields q base).1.trans ?_
        rw [Sched.queueLink, same q member, Sched.queueLink]
      · intro q member _
        rw [← same q member]
        exact (fields q base).2
      · intro q chosen
        exact .inl (current ▸ chosen)
      · intro q member parked
        have parked' := (fields q base).2.mp parked
        rcases List.mem_cons.mp (perm.mem_iff.mp member) with rfl | old
        · simp [recordTask, newTask, Parked] at parked'
        · exact ⟨old, same q old ▸ parked'⟩

end ArgoOS.Tasking
