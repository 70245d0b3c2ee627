import Mathlib
import ArgoOS.Task.Ring

set_option autoImplicit false

/-! # Wait queues -/

namespace ArgoOS.Tasking

open Linked Function

theorem park_queueLink (s : Sched) (me : TaskPtr) :
    (park s me).queueLink = update s.queueLink me none := by
  funext p
  by_cases same : p = me <;> simp [park, Sched.queueLink, Sched.modify, same]

theorem setNextInQueue_queueLink (s : Sched) (p : TaskPtr) (link : Option TaskPtr) :
    (setNextInQueue s p link).queueLink = update s.queueLink p link := by
  funext q
  by_cases same : q = p <;> simp [setNextInQueue, Sched.queueLink, Sched.modify, same]

theorem park_parked (s : Sched) (me : TaskPtr) : Parked ((park s me).tasks me) := by
  simp [Parked, park, Sched.modify]

variable {me : TaskPtr} {s : Sched} {head : Option TaskPtr}

theorem park_others (s : Sched) {p : TaskPtr} (other : p ≠ me) :
    (park s me).tasks p = s.tasks p := by
  simp [park, Sched.modify, other]

theorem park_next (s : Sched) (me p : TaskPtr) :
    ((park s me).tasks p).next = (s.tasks p).next := by
  by_cases same : p = me <;> simp [park, Sched.modify, same]

theorem setNextInQueue_fields (s : Sched) (p q : TaskPtr) (link : Option TaskPtr) :
    ((setNextInQueue s p link).tasks q).next = (s.tasks q).next ∧
      ((setNextInQueue s p link).tasks q).state = (s.tasks q).state ∧
      ((setNextInQueue s p link).tasks q).wakeTicks = (s.tasks q).wakeTicks := by
  by_cases same : q = p <;> simp [setNextInQueue, Sched.modify, same]

structure Enqueued (s s' : Sched) (me : TaskPtr) (head : Option TaskPtr)
    (waiters : List TaskPtr) : Prop where
  globals : s'.taskList = s.taskList ∧ s'.taskCount = s.taskCount ∧
    s'.currentTask = s.currentTask ∧ s'.ticks = s.ticks
  chain : Chain s'.queueLink head (waiters ++ [me])
  links : ∀ p, p ∉ waiters → p ≠ me → s'.queueLink p = s.queueLink p
  next : ∀ p, (s'.tasks p).next = (s.tasks p).next
  parked : Parked (s'.tasks me)
  others : ∀ p, p ≠ me → (s'.tasks p).state = (s.tasks p).state ∧
    (s'.tasks p).wakeTicks = (s.tasks p).wakeTicks

theorem enqueueCurrent_effect {waiters : List TaskPtr} (chain : Chain s.queueLink head waiters)
    (outside : me ∉ waiters) (room : waiters.length ≤ s.taskCount.toNat) :
    ∃ s' head', enqueueCurrent s me head = some (s', head') ∧ Enqueued s s' me head' waiters := by
  have kept : Chain (park s me).queueLink head waiters := by
    rw [park_queueLink]
    exact (path_update _ _ _ outside).mpr chain
  rcases waiters.eq_nil_or_concat' with rfl | ⟨xs, last, rfl⟩
  · have empty : head = none := chain
    subst empty
    refine ⟨park s me, some me, rfl, ⟨rfl, rfl, rfl, rfl⟩, ?_, ?_, park_next s me,
      park_parked s me, ?_⟩
    · simp [Chain, park_queueLink]
    · intro p _ other
      simp [park_queueLink, other]
    · intro p other
      simp [park_others s other]
  · have different : me ≠ last := by
      rintro rfl
      simp at outside
    obtain ⟨first, rfl⟩ : ∃ first, head = some first := by
      cases xs with
      | nil => exact ⟨last, chain.1⟩
      | cons x xs => exact ⟨x, chain.1⟩
    have lastFound := search_chain (fun p => ((park s me).queueLink p).isNone) kept room
    rw [chain_find_last kept] at lastFound
    refine ⟨setNextInQueue (park s me) last (some me), some first, ?_, ⟨rfl, rfl, rfl, rfl⟩,
      ?_, ?_, ?_, ?_, ?_⟩
    · rw [enqueueCurrent, show (park s me).taskCount = s.taskCount from rfl, lastFound]
    · rw [setNextInQueue_queueLink, List.append_assoc]
      exact chain_snoc kept outside (by simp [park_queueLink])
    · intro p notWaiting other
      have notLast : p ≠ last := by
        rintro rfl
        simp at notWaiting
      simp [setNextInQueue_queueLink, park_queueLink, notLast, other]
    · intro p
      rw [(setNextInQueue_fields _ _ _ _).1, park_next]
    · obtain ⟨-, state, wake⟩ := setNextInQueue_fields (park s me) last me (some me)
      rw [Parked, state, wake]
      exact park_parked s me
    · intro p other
      rw [(setNextInQueue_fields _ _ _ _).2.1, (setNextInQueue_fields _ _ _ _).2.2,
        park_others s other]
      exact ⟨rfl, rfl⟩

structure BlockEffect (s s' : Sched) (ring : List TaskPtr) (me : TaskPtr) (head : Option TaskPtr)
    (waiters : List TaskPtr) : Prop where
  ok : RingOk s' ring
  chain : Chain s'.queueLink head (waiters ++ [me])
  links : ∀ p, p ∉ waiters → p ≠ me → s'.queueLink p = s.queueLink p
  parked : Parked (s'.tasks me)
  others : ∀ p, p ≠ me → (Parked (s'.tasks p) ↔ Parked (s.tasks p))
  current : ∀ p, s'.currentTask = some p → p = me ∨ ¬ Parked (s.tasks p)
  found : (∃ p ∈ ring, p ≠ me ∧ Wakeable s.ticks (s.tasks p)) → s'.currentTask ≠ some me

theorem taskBlock_effect {ring : List TaskPtr} {waiters : List TaskPtr} (ok : RingOk s ring)
    (isCurrent : s.currentTask = some me) (chain : Chain s.queueLink head waiters)
    (linked : waiters ⊆ ring) (outside : me ∉ waiters) :
    ∃ queued s' head', taskBlock s head = some (s', head') ∧ Enqueued s queued me head' waiters ∧
      taskSwitch queued = some s' ∧ BlockEffect s s' ring me head' waiters := by
  have room : waiters.length ≤ s.taskCount.toNat := by
    rw [← ok.count]
    exact (List.subperm_of_subset (chain_nodup _ chain) linked).length_le
  obtain ⟨queued, head', enqueued, effect⟩ :=
    enqueueCurrent_effect chain outside room
  obtain ⟨list, count, current, ticks⟩ := effect.globals
  have ok' : RingOk queued ring :=
    ok.congr (fun p _ => effect.next p) list count (fun p same => ok.current p (current ▸ same))
  obtain ⟨s', switched, after⟩ := taskSwitch_effect ok'
  have sameTask : ∀ p, p ≠ me → (Parked (queued.tasks p) ↔ Parked (s.tasks p)) ∧
      (Wakeable queued.ticks (queued.tasks p) ↔ Wakeable s.ticks (s.tasks p)) := by
    intro p other
    obtain ⟨state, wake⟩ := effect.others p other
    simp [Parked, Wakeable, Due, state, wake, ticks]
  refine ⟨queued, s', head', ?_, effect, switched, after.ok, ?_, ?_,
    (after.parked me).mpr effect.parked, ?_, ?_, ?_⟩
  · simp [taskBlock, isCurrent, enqueued, switched]
  · have sameLinks : s'.queueLink = queued.queueLink := funext after.nextInQueue
    rw [sameLinks]
    exact effect.chain
  · intro p notWaiting other
    exact (after.nextInQueue p).trans (effect.links p notWaiting other)
  · intro p other
    exact (after.parked p).trans (sameTask p other).1
  · intro p chosen
    by_cases same : p = me
    · exact .inl same
    right
    rcases after.current with kept | ⟨q, -, current', wakeable⟩
    · rw [kept, current, isCurrent] at chosen
      exact absurd (Option.some.inj chosen).symm same
    · rw [current'] at chosen
      obtain rfl := Option.some.inj chosen
      rw [← (sameTask q same).1]
      exact wakeable.not_parked
  · rintro ⟨p, member, other, wakeable⟩ again
    obtain ⟨q, -, current', wakeable'⟩ :=
      after.found p member ((sameTask p other).2.mpr wakeable)
    rw [current'] at again
    obtain rfl := Option.some.inj again
    exact wakeable'.not_parked effect.parked

structure UnblockEffect (s s' : Sched) (ring : List TaskPtr) (first : TaskPtr)
    (head : Option TaskPtr) (rest : List TaskPtr) : Prop where
  ok : RingOk s' ring
  chain : Chain s'.queueLink head rest
  links : ∀ p, p ≠ first → s'.queueLink p = s.queueLink p
  woken : ¬ Parked (s'.tasks first)
  others : ∀ p, p ≠ first → (Parked (s'.tasks p) ↔ Parked (s.tasks p))
  current : s'.currentTask = s.currentTask

theorem taskWake_effect (s : Sched) (p q : TaskPtr) :
    ((taskWake s p).tasks q).next = (s.tasks q).next ∧
      (taskWake s p).queueLink q = s.queueLink q ∧
      (q ≠ p → (taskWake s p).tasks q = s.tasks q) ∧ ¬ Parked ((taskWake s p).tasks p) := by
  unfold taskWake
  split
  next => by_cases same : q = p <;> simp [Sched.modify, Sched.queueLink, Parked, same]
  next awake => simp [Parked, awake]

theorem taskWake_globals (s : Sched) (p : TaskPtr) :
    (taskWake s p).taskList = s.taskList ∧ (taskWake s p).taskCount = s.taskCount ∧
      (taskWake s p).currentTask = s.currentTask := by
  unfold taskWake
  split <;> exact ⟨rfl, rfl, rfl⟩

theorem taskUnblock_effect {ring : List TaskPtr} {first : TaskPtr} {rest : List TaskPtr}
    (ok : RingOk s ring) (chain : Chain s.queueLink head (first :: rest)) :
    UnblockEffect s (taskUnblock s head).1 ring first (taskUnblock s head).2 rest := by
  obtain ⟨rfl, tail⟩ := chain
  have outside : first ∉ rest := (List.nodup_cons.mp (chain_nodup (some first) ⟨rfl, tail⟩)).1
  have woken := taskWake_effect (setNextInQueue s first none) first
  obtain ⟨list, count, current⟩ := taskWake_globals (setNextInQueue s first none) first
  have links : ∀ p, p ≠ first →
      (taskWake (setNextInQueue s first none) first).queueLink p = s.queueLink p := by
    intro p other
    rw [(woken p).2.1, setNextInQueue_queueLink, update_of_ne other]
  refine ⟨ok.congr ?_ list count (fun p same => ok.current p (current ▸ same)),
    (path_congr _ _ _ ?_).mpr tail, links, (woken first).2.2.2, ?_, current⟩
  · intro p _
    exact (woken p).1.trans (setNextInQueue_fields _ _ _ _).1
  · intro p member
    refine links p ?_
    rintro rfl
    exact outside member
  · intro p other
    obtain ⟨-, state, wake⟩ := setNextInQueue_fields s first p none
    change Parked ((taskWake (setNextInQueue s first none) first).tasks p) ↔ _
    rw [(woken p).2.2.1 other, Parked, Parked, state, wake]

end ArgoOS.Tasking
