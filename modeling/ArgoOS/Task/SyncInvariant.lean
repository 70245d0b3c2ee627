import ArgoOS.Task.Effect

set_option autoImplicit false

namespace ArgoOS.Tasking

open Linked ArgoOS.Tasking.System Function

section

variable {queued : WaitQueue → List TaskPtr} {sys : System}

section

variable (inv : QueueInv queued sys)

include inv

theorem QueueInv.moved (sched : Sched) (ring : List TaskPtr)
    (moves : Moves sys.kernel.sched sched sys.ring ring) :
    QueueInv queued { sys.withSched sched with ring } where
  ring := moves.ok
  chain := fun q =>
    (path_congr _ _ _ fun p member => moves.links p (inv.linked q p member)).mpr (inv.chain q)
  linked := fun q p member => moves.grows (inv.linked q p member)
  parked := fun q p member =>
    (moves.parked p (inv.linked q p member) (inv.away q p member)).mpr (inv.parked q p member)
  pending := inv.pending
  away := by
    intro q p member chosen
    rcases moves.current p chosen with stayed | awake
    · exact inv.away q p member stayed
    · exact awake (inv.parked q p member)

theorem QueueInv.congr (kernel : Kernel) (sched : kernel.sched = sys.kernel.sched)
    (heads : ∀ q, kernel.queueHead q = sys.kernel.queueHead q) :
    QueueInv queued { sys with kernel } where
  ring := by simpa [sched] using inv.ring
  chain := fun q => by simpa [sched, heads] using inv.chain q
  linked := inv.linked
  parked := by simpa [sched] using inv.parked
  pending := inv.pending
  away := by simpa [System.current, sched] using inv.away

theorem QueueInv.blocked (q : WaitQueue) (me : TaskPtr) (sched : Sched) (head : Option TaskPtr)
    (isCurrent : sys.current = some me)
    (effect : BlockEffect sys.kernel.sched sched sys.ring me head (queued q))
    (away : sched.currentTask ≠ some me) :
    QueueInv (update queued q (queued q ++ [me]))
      { sys with
        kernel := (sys.kernel.withSched sched).setQueueHead q head
        pending := update sys.pending me (some q) } := by
  have notMe : ∀ q' p, p ∈ queued q' → p ≠ me := by
    rintro q' p member rfl
    exact inv.current_not_queued isCurrent q' member
  have cases_on : ∀ q' p, p ∈ update queued q (queued q ++ [me]) q' →
      p ∈ queued q' ∨ q' = q ∧ p = me := by
    intro q' p member
    by_cases same : q' = q
    · subst same
      simpa using member
    · rw [update_of_ne same] at member
      exact .inl member
  refine ⟨?_, ?_, ?_, ?_, ?_, ?_⟩
  · simpa [Kernel.withSched] using effect.ok
  · intro q'
    by_cases same : q' = q
    · subst same
      simpa [Kernel.queueHead_setQueueHead, Kernel.withSched] using effect.chain
    · rw [update_of_ne same, Kernel.queueHead_setQueueHead_of_ne _ _ same,
        Kernel.setQueueHead_sched]
      refine (path_congr _ _ _ fun p member => effect.links p ?_ (notMe q' p member)).mpr
        (inv.chain q')
      exact fun other => same (inv.one_queue q' q p member other)
  · intro q' p member
    rcases cases_on q' p member with old | ⟨rfl, rfl⟩
    · exact inv.linked q' p old
    · exact inv.ring.current p isCurrent
  · intro q' p member
    rw [Kernel.setQueueHead_sched]
    rcases cases_on q' p member with old | ⟨rfl, rfl⟩
    · exact (effect.others p (notMe q' p old)).mpr (inv.parked q' p old)
    · exact effect.parked
  · intro q' p member
    rcases cases_on q' p member with old | ⟨rfl, rfl⟩
    · exact (update_of_ne (notMe q' p old) _ _).trans (inv.pending q' p old)
    · exact update_self _ _ _
  · intro q' p member chosen
    rw [System.current, Kernel.setQueueHead_sched] at chosen
    rcases cases_on q' p member with old | ⟨rfl, rfl⟩
    · rcases effect.current p chosen with same | awake
      · exact notMe q' p old same
      · exact awake (inv.parked q' p old)
    · exact away chosen

theorem QueueInv.granted (q : WaitQueue) (first : TaskPtr) (rest : List TaskPtr) (sched : Sched)
    (head : Option TaskPtr) (queue : queued q = first :: rest)
    (effect : UnblockEffect sys.kernel.sched sched sys.ring first head rest) :
    QueueInv (update queued q rest)
      { sys with kernel := (sys.kernel.withSched sched).setQueueHead q head } := by
  have distinct := chain_nodup _ (inv.chain q)
  rw [queue, List.nodup_cons] at distinct
  have stays : ∀ q' p, p ∈ update queued q rest q' → p ∈ queued q' ∧ p ≠ first := by
    intro q' p member
    by_cases same : q' = q
    · subst same
      rw [update_self] at member
      refine ⟨by simp [queue, member], ?_⟩
      rintro rfl
      exact distinct.1 member
    · rw [update_of_ne same] at member
      refine ⟨member, ?_⟩
      rintro rfl
      exact same (inv.one_queue q' q p member (by simp [queue]))
  refine ⟨?_, ?_, ?_, ?_, ?_, ?_⟩
  · simpa [Kernel.withSched] using effect.ok
  · intro q'
    by_cases same : q' = q
    · subst same
      simpa [Kernel.queueHead_setQueueHead, Kernel.withSched] using effect.chain
    · rw [update_of_ne same, Kernel.queueHead_setQueueHead_of_ne _ _ same,
        Kernel.setQueueHead_sched]
      refine (path_congr _ _ _ fun p member => effect.links p ?_).mpr (inv.chain q')
      refine (stays q' p ?_).2
      rwa [update_of_ne same]
  · exact fun q' p member => inv.linked q' p (stays q' p member).1
  · intro q' p member
    rw [Kernel.setQueueHead_sched]
    obtain ⟨old, other⟩ := stays q' p member
    exact (effect.others p other).mpr (inv.parked q' p old)
  · exact fun q' p member => inv.pending q' p (stays q' p member).1
  · intro q' p member chosen
    rw [System.current, Kernel.setQueueHead_sched] at chosen
    exact inv.away q' p (stays q' p member).1 (effect.current.symm.trans chosen)

theorem QueueInv.resumed (me : TaskPtr) (isCurrent : sys.current = some me) :
    QueueInv queued { sys with pending := update sys.pending me none } where
  ring := inv.ring
  chain := inv.chain
  linked := inv.linked
  parked := inv.parked
  pending := by
    intro q p member
    have different : p ≠ me := by
      rintro rfl
      exact inv.current_not_queued isCurrent q member
    exact (update_of_ne different _ _).trans (inv.pending q p member)
  away := inv.away

end

end

theorem waiting_blocked (history : List Event) (q : WaitQueue) (p : TaskPtr) :
    (fun q' => waiting q' (.blocked q p :: history)) =
      update (fun q' => waiting q' history) q (waiting q history ++ [p]) := by
  funext q'
  by_cases same : q' = q
  · subst same
    simp [waiting]
  · simp [waiting, same, Ne.symm same]

theorem waiting_granted {history : List Event} {q : WaitQueue} (p : TaskPtr) {first : TaskPtr}
    {rest : List TaskPtr} (queue : waiting q history = first :: rest) :
    (fun q' => waiting q' (.granted q p :: history)) =
      update (fun q' => waiting q' history) q rest := by
  funext q'
  by_cases same : q' = q
  · subst same
    simp [waiting, queue]
  · simp [waiting, same, Ne.symm same]

section

variable {history : List Event} {sys sys' : System} {call : KernelCall} {events : List Event}

section

variable (inv : SyncInv history sys)

include inv

theorem SyncInv.took (m : Nat) (me : TaskPtr) (free : (sys.kernel.mutexes m).locked = false) :
    SyncInv (.entered m me :: .taken m me :: history)
      { sys with kernel := sys.kernel.setOwner m true (some me) } := by
  have notHeld : ∀ p, ¬ Holds sys m p := fun p holds => by simp [holds.1] at free
  have others : ∀ m' p, Holds sys m' p →
      Holds { sys with kernel := sys.kernel.setOwner m true (some me) } m' p := by
    intro m' p holds
    have different : m' ≠ m := by
      rintro rfl
      exact notHeld p holds
    simpa [Holds, Kernel.setOwner_of_ne _ _ _ different] using holds
  have queues := inv.toQueueInv.congr (sys.kernel.setOwner m true (some me)) rfl (by simp)
  refine { queues with owed := ?_, locked := ?_, owned := ?_, past := ?_, served := inv.served }
  · exact fun m' p pending => (inv.owed m' p pending).imp_right (others m' p)
  · intro m' nonempty
    by_cases same : m' = m
    · subst same
      exact (Kernel.setOwner_self _ _ _ _).1
    · simpa [Kernel.setOwner_of_ne _ _ _ same] using inv.locked m' nonempty
  · intro m' locked
    by_cases same : m' = m
    · subst same
      simp [(Kernel.setOwner_self _ _ _ _).2]
    · simpa [Kernel.setOwner_of_ne _ _ _ same] using inv.owned m'
        (by simpa [Kernel.setOwner_of_ne _ _ _ same] using locked)
  · rintro m' p (⟨rfl, rfl⟩ | old)
    · exact Kernel.setOwner_self _ _ _ _
    · exact others m' p (inv.past m' p old)

theorem SyncInv.blocked (q : WaitQueue) (me : TaskPtr) (sched : Sched) (head : Option TaskPtr)
    (isCurrent : sys.current = some me)
    (effect : BlockEffect sys.kernel.sched sched sys.ring me head (waiting q history))
    (away : sched.currentTask ≠ some me)
    (held : ∀ m, q = .mutex m → (sys.kernel.mutexes m).locked = true) :
    SyncInv (.blocked q me :: history)
      { sys with
        kernel := (sys.kernel.withSched sched).setQueueHead q head
        pending := update sys.pending me (some q) } := by
  have queues := inv.toQueueInv.blocked q me sched head isCurrent effect away
  rw [← waiting_blocked] at queues
  refine { queues with owed := ?_, locked := ?_, owned := ?_, past := ?_, served := ?_ }
  · intro m p pending
    by_cases same : p = me
    · subst same
      obtain rfl : q = .mutex m := by simpa using pending
      simp [waiting]
    · have old := inv.owed m p (by simpa [same] using pending)
      refine old.imp (fun member => ?_) (fun holds => by simpa [Holds, Kernel.withSched] using holds)
      by_cases this : q = .mutex m <;> simp [waiting, this, member]
  · intro m nonempty
    by_cases this : q = .mutex m
    · simpa [Kernel.withSched] using held m this
    · simpa [Kernel.withSched] using inv.locked m (by simpa [waiting, this] using nonempty)
  · simpa [Kernel.withSched] using inv.owned
  · intro m p old
    simpa [Holds, Kernel.withSched] using inv.past m p old
  · intro q'
    by_cases this : q = q' <;> simp [blockedLog, grantedLog, waiting, this, inv.served q']

theorem SyncInv.granted_served (q : WaitQueue) (first : TaskPtr) (rest : List TaskPtr)
    (queue : waiting q history = first :: rest) (q' : WaitQueue) :
    blockedLog q' (.granted q first :: history) =
      grantedLog q' (.granted q first :: history) ++ waiting q' (.granted q first :: history) := by
  by_cases this : q = q'
  · subst this
    simp [blockedLog, grantedLog, waiting, inv.served q, queue]
  · simp [blockedLog, grantedLog, waiting, this, inv.served q']

theorem SyncInv.posted (i : Nat) (first : TaskPtr) (rest : List TaskPtr) (sched : Sched)
    (head : Option TaskPtr) (queue : waiting (.semaphore i) history = first :: rest)
    (effect : UnblockEffect sys.kernel.sched sched sys.ring first head rest) :
    SyncInv (.granted (.semaphore i) first :: history)
      { sys with kernel := (sys.kernel.withSched sched).setQueueHead (.semaphore i) head } := by
  have queues := inv.toQueueInv.granted _ first rest sched head queue effect
  rw [← waiting_granted first queue] at queues
  exact { queues with
    owed := inv.owed
    locked := inv.locked
    owned := inv.owned
    past := inv.past
    served := inv.granted_served (.semaphore i) first rest queue }

theorem SyncInv.past_left (m : Nat) (me : TaskPtr) (holds : Holds sys m me) (m' : Nat) (p : TaskPtr)
    (past : PastLock m' p (.left m me :: history)) : m' ≠ m ∧ Holds sys m' p := by
  obtain ⟨other, old⟩ := past
  have holds' := inv.past m' p old
  refine ⟨?_, holds'⟩
  rintro rfl
  exact other ⟨rfl, Option.some.inj (holds.2.symm.trans holds'.2)⟩

theorem SyncInv.handed (m : Nat) (me first : TaskPtr) (rest : List TaskPtr) (sched : Sched)
    (head : Option TaskPtr) (idle : sys.pending me = none) (holds : Holds sys m me)
    (queue : waiting (.mutex m) history = first :: rest)
    (effect : UnblockEffect sys.kernel.sched sched sys.ring first head rest) :
    SyncInv (.granted (.mutex m) first :: .left m me :: history)
      { sys with kernel := (sys.kernel.withSched sched).handOver m head first } := by
  let kernel := (sys.kernel.withSched sched).handOver m head first
  have queues := (inv.toQueueInv.granted _ first rest sched head queue effect).congr kernel rfl
    (fun q => Kernel.queueHead_setOwner _ _ _ _ q)
  rw [← waiting_granted first queue] at queues
  have self := (sys.kernel.withSched sched).handOver_self m head first
  have others : ∀ m', m' ≠ m → kernel.mutexes m' = sys.kernel.mutexes m' := fun m' =>
    (sys.kernel.withSched sched).handOver_of_ne m m' head first
  have held : ∀ m' p, m' ≠ m → Holds sys m' p → Holds { sys with kernel } m' p := by
    intro m' p different holds'
    rw [Holds, others m' different]
    exact holds'
  refine { queues with
    owed := ?_, locked := ?_, owned := ?_, past := ?_
    served := inv.granted_served (.mutex m) first rest queue }
  · intro m' p pending
    by_cases same : m' = m
    · subst same
      rcases inv.owed m' p pending with member | owner
      · rw [queue, List.mem_cons] at member
        rcases member with rfl | member
        · exact .inr self
        · exact .inl (by simp [waiting, queue, member])
      · obtain rfl : me = p := Option.some.inj (holds.2.symm.trans owner.2)
        simp [idle] at pending
    · refine (inv.owed m' p pending).imp (fun member => ?_) (held m' p same)
      simpa [waiting, Ne.symm same] using member
  · intro m' nonempty
    by_cases same : m' = m
    · subst same
      exact self.1
    · rw [others m' same]
      exact inv.locked m' (by simpa [waiting, Ne.symm same] using nonempty)
  · intro m' locked
    by_cases same : m' = m
    · subst same
      simp [self.2]
    · rw [others m' same] at locked ⊢
      exact inv.owned m' locked
  · intro m' p past
    obtain ⟨different, holds'⟩ := inv.past_left m me holds m' p past
    exact held m' p different holds'

theorem SyncInv.released (m : Nat) (me : TaskPtr) (idle : sys.pending me = none)
    (holds : Holds sys m me) (queue : waiting (.mutex m) history = []) :
    SyncInv (.left m me :: history) { sys with kernel := sys.kernel.setOwner m false none } := by
  have queues := inv.toQueueInv.congr (sys.kernel.setOwner m false none) rfl (by simp)
  have others : ∀ m' p, m' ≠ m → Holds sys m' p →
      Holds { sys with kernel := sys.kernel.setOwner m false none } m' p := by
    intro m' p different held
    simpa [Holds, Kernel.setOwner_of_ne _ _ _ different] using held
  refine { queues with owed := ?_, locked := ?_, owned := ?_, past := ?_, served := inv.served }
  · intro m' p pending
    by_cases same : m' = m
    · subst same
      rcases inv.owed m' p pending with member | held
      · exact .inl member
      · obtain rfl : me = p := Option.some.inj (holds.2.symm.trans held.2)
        simp [idle] at pending
    · exact (inv.owed m' p pending).imp_right (others m' p same)
  · intro m' nonempty
    have different : m' ≠ m := by
      rintro rfl
      exact nonempty queue
    simpa [Kernel.setOwner_of_ne _ _ _ different] using inv.locked m' nonempty
  · intro m' locked
    by_cases same : m' = m
    · subst same
      simp [(Kernel.setOwner_self _ _ _ _).1] at locked
    · simpa [Kernel.setOwner_of_ne _ _ _ same] using inv.owned m'
        (by simpa [Kernel.setOwner_of_ne _ _ _ same] using locked)
  · intro m' p past
    obtain ⟨different, held⟩ := inv.past_left m me holds m' p past
    exact others m' p different held

theorem SyncInv.resumed (me : TaskPtr) (isCurrent : sys.current = some me) :
    SyncInv history { sys with pending := update sys.pending me none } where
  toQueueInv := inv.toQueueInv.resumed me isCurrent
  owed := by
    intro m p pending
    by_cases same : p = me
    · simp [same] at pending
    · exact inv.owed m p (by simpa [same] using pending)
  locked := inv.locked
  owned := inv.owned
  past := inv.past
  served := inv.served

theorem SyncInv.entered (m : Nat) (me : TaskPtr) (holds : Holds sys m me) :
    SyncInv (.entered m me :: history) sys where
  toQueueInv := inv.toQueueInv
  owed := inv.owed
  locked := inv.locked
  owned := inv.owned
  past := by
    rintro m' p (⟨rfl, rfl⟩ | old)
    · exact holds
    · exact inv.past m' p old
  served := inv.served

theorem SyncInv.counted (i : Nat) (count : UInt32) :
    SyncInv history { sys with
      kernel := (sys.kernel.setSemaphore i { sys.kernel.semaphores i with count }) } := by
  refine { inv with toQueueInv := inv.toQueueInv.congr _ rfl ?_ }
  intro q
  cases q with
  | mutex m => rfl
  | semaphore j => by_cases same : j = i <;> simp [Kernel.queueHead, Kernel.setSemaphore, same]

theorem SyncInv.performed (met : ∀ action, call = .act action → BlockFinds sys action)
    (performed : Performed history sys call sys' events) : SyncInv (events ++ history) sys' := by
  cases performed with
  | idle | tried => exact inv
  | took _ m me free => exact inv.took m me free
  | again _ m me holds => exact inv.entered m me holds
  | blocked q me queued sched head isCurrent blocks _ _ effect =>
    have away := effect.found (met _ rfl me isCurrent blocks)
    simp only [afterBlock, Kernel.setQueueHead_sched, Kernel.withSched, away, if_false]
    refine inv.blocked q me sched head isCurrent effect away ?_
    rintro m rfl
    exact blocks.1
  | lowered i => exact inv.counted i _
  | raised i => exact inv.counted i _
  | posted i first rest sched head queue effect =>
    exact inv.posted i first rest sched head queue effect
  | handed m me first rest sched head idle holds queue effect =>
    exact inv.handed m me first rest sched head idle holds queue effect
  | released m me idle holds queue => exact inv.released m me idle holds queue
  | refused m me => exact { inv with past := fun m' p past => inv.past m' p past.2 }
  | resumedLock m me isCurrent pending =>
    refine (inv.resumed me isCurrent).entered m me ?_
    exact (inv.owed m me pending).resolve_left (inv.current_not_queued isCurrent _)
  | resumedWait me isCurrent => exact inv.resumed me isCurrent
  | switched _ sched _ _ _ _ moves =>
    exact { inv with toQueueInv := inv.toQueueInv.moved sched _ moves }
  | ticked sched touches =>
    exact { inv with toQueueInv := inv.toQueueInv.moved sched _ (touches.moves inv.ring) }
  | created _ sched ring moves | forked _ sched ring moves =>
    exact { inv with toQueueInv := inv.toQueueInv.moved sched ring moves }

end

def ParkedQueued (history : List Event) (sys : System) : Prop :=
  ∀ p ∈ sys.ring, Parked (sys.kernel.sched.tasks p) → ∃ q, p ∈ waiting q history

theorem ParkedQueued.granted (parked : ParkedQueued history sys) (q : WaitQueue) (first : TaskPtr)
    (rest : List TaskPtr) (sched : Sched) (head : Option TaskPtr)
    (queue : waiting q history = first :: rest)
    (effect : UnblockEffect sys.kernel.sched sched sys.ring first head rest) (p : TaskPtr)
    (member : p ∈ sys.ring) (isParked : Parked (sched.tasks p)) :
    ∃ q', p ∈ waiting q' (.granted q first :: history) := by
  have other : p ≠ first := by
    rintro rfl
    exact effect.woken isParked
  obtain ⟨q', queued⟩ := parked p member ((effect.others p other).mp isParked)
  refine ⟨q', ?_⟩
  by_cases same : q = q'
  · subst same
    simpa [waiting, queue, other] using queued
  · simpa [waiting, same] using queued

theorem ParkedQueued.performed {action : Action} (parked : ParkedQueued history sys)
    (awake : ¬ ZeroSleep sys.kernel.sched action)
    (performed : Performed history sys (.act action) sys' events) :
    ParkedQueued (events ++ history) sys' := by
  generalize acts : KernelCall.act action = call at performed
  have moved : ∀ sched ring, NoneParked sys.kernel.sched sched sys.ring ring →
      ParkedQueued history { sys.withSched sched with ring } := by
    intro sched ring parks p member isParked
    obtain ⟨old, wasParked⟩ := parks p member isParked
    exact parked p old wasParked
  cases performed with
  | switched _ sched _ _ _ _ _ parks =>
    refine moved sched sys.ring (parks.resolve_right fun zero => ?_)
    exact awake (zero action acts.symm)
  | ticked sched _ calm =>
    refine moved sched sys.ring fun p member isParked => ?_
    exact ⟨member, (calm p).1.symm.trans isParked.1, (calm p).2.symm.trans isParked.2⟩
  | created _ sched ring _ parks => exact moved sched ring parks
  | blocked q me queued sched head _ _ _ _ effect =>
    obtain ⟨kernel, ring, -⟩ := afterBlock_fields sys
      ((sys.kernel.withSched sched).setQueueHead q head) me q
    intro p member isParked
    rw [kernel, Kernel.setQueueHead_sched] at isParked
    rw [ring] at member
    by_cases same : p = me
    · subst same
      exact ⟨q, by simp [afterBlock_waiting]⟩
    · obtain ⟨q', queued⟩ := parked p member ((effect.others p same).mp isParked)
      refine ⟨q', ?_⟩
      rw [afterBlock_waiting]
      split <;> simp [queued]
  | handed m me first rest sched head _ _ queue effect =>
    exact parked.granted (.mutex m) first rest sched head queue effect
  | posted i first rest sched head queue effect =>
    exact parked.granted (.semaphore i) first rest sched head queue effect
  | forked => cases acts
  | idle | tried | took | again | lowered | raised | released | refused | resumedLock
    | resumedWait => exact parked

end

end ArgoOS.Tasking
