import ArgoOS.Memory.KernelRun

set_option autoImplicit false

/-! # The pages behind the heap and the stacks -/

namespace ArgoOS.Memory

open Machine Blocks Option

variable {whole : Prop} {m : Machine} {blocks : List Block} {tasks live : List (Nat × Nat)}

section

def copyTask (m : Machine) (parent child : Nat) : Option Machine := do
  let m ← copyWords m child parent (taskSize / 4)
  storeFields (takeTaskId m) child [(0, m.nextTaskId), (20, 1)]

-- The frame that the child starts with, and its place in the list.
def startChild (m : Machine) (parent child stackTop : Nat) : Option Machine := do
  let parentStack ← m.load (parent + 4)
  let childStack := wordSub stackTop 44
  let m ← copyWords m childStack parentStack 11
  let m ← m.store (childStack + 28) 0
  let m ← m.store (child + 4) childStack
  let m ← linkChild m child
  return countTask m

-- The address of the child, whose id the caller gets; 0 stands for the result -1.
def sysFork (m : Machine) (parent : Nat) : Option (Machine × Nat) :=
  if parent = 0 then some (m, 0)
  else if maxTasks ≤ m.taskCount then some (m, 0)
  else do
    let (m, child) ← kmalloc m taskSize
    if child = 0 then return (m, 0)
    else
      let m ← copyTask m parent child
      let (m, stackTop) ← createKernelStack m
      if stackTop = 0 then
        let m ← kfree m child
        return (m, 0)
      else
        let m ← startChild m parent child stackTop
        return (m, child)

variable {m' : Machine}

theorem HeapOk.copyAbove (ok : HeapOk m blocks) (dest src n : Nat) (above : heapEnd ≤ dest)
    (copied : copyWords m dest src n = some m') : Stores (heapEnd ≤ ·) m m' ∧ HeapOk m' blocks := by
  induction n generalizing m' with
  | zero =>
    obtain rfl : m = m' := some.inj copied
    exact ⟨.refl _ m, ok⟩
  | succ n ih =>
    obtain ⟨m1, first, copied⟩ := bind_eq_some_iff.mp copied
    obtain ⟨value, -, stored⟩ := bind_eq_some_iff.mp copied
    obtain ⟨stores1, ok1⟩ := ih first
    obtain ⟨stores2, ok2⟩ := ok1.storeAbove _ _ (by omega) stored
    exact ⟨stores1.trans stores2, ok2⟩

theorem Stores.takeTaskId {written : Nat → Prop} (stores : Stores written m m') :
    Stores written (Memory.takeTaskId m) (Memory.takeTaskId m') := by
  refine ⟨⟨{ stores.toSameBut with nextTaskId := ?_ }, stores.translate⟩, stores.rewrites⟩
  simp only [Memory.takeTaskId, stores.nextTaskId]

theorem startChild_inv {b : Block} (creating : Creating whole m blocks tasks live b)
    {id stackTop parent : Nat} (known : m.view allGood (b.addr + 16) = some id)
    (next : m.nextTaskId = word (id + 1)) (small : m.nextTaskId ≤ 0x1000)
    (top : stackTop = 0xE0000000 + m.nextTaskId * 0x1000 + 0x1000)
    (returned : startChild m parent (b.addr + 16) stackTop = some m') :
    TaskInv whole m' blocks ((b.addr + 16, taskSize) :: tasks) live := by
  have inside := creating.inside 4 (by decide)
  have low := creating.low
  unfold startChild at returned
  rw [wordSub_eq stackTop 44 (by omega) (by omega)] at returned
  obtain ⟨parentStack, -, returned⟩ := bind_eq_some_iff.mp returned
  obtain ⟨m1, copied, returned⟩ := bind_eq_some_iff.mp returned
  obtain ⟨m2, cleared, returned⟩ := bind_eq_some_iff.mp returned
  obtain ⟨m3, stored, returned⟩ := bind_eq_some_iff.mp returned
  obtain ⟨m4, linked, returned⟩ := bind_eq_some_iff.mp returned
  obtain rfl := some.inj returned
  have above : heapEnd ≤ stackTop - 44 := by
    simp only [heapEnd, heapBase, heapMaxSize]
    omega
  obtain ⟨stores1, ok1⟩ := creating.heap.copyAbove _ _ _ above copied
  obtain ⟨stores2, ok2⟩ := ok1.storeAbove _ _ (by omega) cleared
  obtain ⟨stores3, ok3, -⟩ := ok2.storeWord b creating.member _ _ inside.1 inside.2 stored
  have frame := stores1.trans stores2
  have creating3 := (creating.stores (frame.mono fun _ => .inr) ok2).fill
    (stores3.mono fun _ here => here ▸ inside) ok3
  have page : m1.view allGood (stackAddress (id + 1)) ≠ none := by
    rw [← stackAddress_word, ← next, stackAddress_eq small]
    refine ok1.stored_page _ _ _ ?_ cleared ?_ ?_
    · simp only [heapBase]
      omega
    · simp only [pageSize]
      omega
    · omega
  refine creating3.link id ?_ (stores3.rewrites.readable (stores2.rewrites.readable page)) linked
  rw [stores3.rewrites.same (by omega), frame.rewrites.same (Nat.not_le.mpr low)]
  exact known

theorem sysFork_inv (inv : TaskInv whole m blocks tasks live) {parent p : Nat}
    (low : parent ≠ 0 → m.taskCount < maxTasks → ExpandsLow m taskSize ∧ StackLow m)
    (left : whole → parent ≠ 0 → m.taskCount < maxTasks → ExpandsMapped m taskSize)
    (returned : sysFork m parent = some (m', p)) :
    ∃ blocks', TaskInv whole m' blocks' (if p = 0 then tasks else (p, taskSize) :: tasks) live := by
  unfold sysFork at returned
  by_cases refused : parent = 0 ∨ maxTasks ≤ m.taskCount
  · have unchanged : (m, 0) = (m', p) := by
      by_cases null : parent = 0
      · rw [if_pos null] at returned
        exact some.inj returned
      · rw [if_neg null, if_pos (refused.resolve_left null)] at returned
        exact some.inj returned
    obtain ⟨rfl, rfl⟩ := Prod.mk.inj unchanged
    exact ⟨blocks, by simpa using inv⟩
  obtain ⟨notNull, notFull⟩ := not_or.mp refused
  have room : m.taskCount < maxTasks := Nat.not_le.mp notFull
  rw [if_neg notNull, if_neg notFull] at returned
  refine newTask_inv inv p room (low notNull room).1 (low notNull room).2
    (fun isWhole => left isWhole notNull room)
    (fun m child => copyTask m parent child) (fun m child stackTop => startChild m parent child stackTop) ?_
    (fun m3 m4 blocks1 b id stackTop creating known next small top started =>
      startChild_inv creating known next small top started) returned
  intro m1 m2 blocks1 b creating filled
  have fits := creating.fits
  simp only [taskSize] at fits
  obtain ⟨mc, copied, fields⟩ := bind_eq_some_iff.mp filled
  have ok : HeapOk m1 blocks1 := creating.heap.tasks m1.nextTaskId m1.taskCount m1.taskList
  obtain ⟨stores1, ok1⟩ := copyWords_effect ok creating.member
    (by simp only [taskSize]; omega) copied
  have ok1' : HeapOk (takeTaskId mc) blocks1 := ok1.tasks _ _ _
  obtain ⟨stores2, ok2, known⟩ := ok1'.storeId b creating.member mc.nextTaskId [(20, 1)] (by
    intro field inFields
    simp only [List.mem_cons, List.not_mem_nil, or_false] at inFields
    rw [inFields]
    simp only
    omega) creating.fits fields
  refine ⟨stores1.takeTaskId.trans stores2, ok2, ?_⟩
  rw [known, stores1.nextTaskId]

end

section

def Writable (entry : Nat) : Prop := entry &&& pageWritable ≠ 0

instance (entry : Nat) : Decidable (Writable entry) := inferInstanceAs (Decidable (_ ≠ _))

structure MapsWritable (m : Machine) (v : Nat) : Prop where
  directory : Present (m.pageDirectory (pdIndex v)) ∧ Writable (m.pageDirectory (pdIndex v))
  table : Present (m.tableEntry (pageAddress (m.pageDirectory (pdIndex v))) (ptIndex v)) ∧
    Writable (m.tableEntry (pageAddress (m.pageDirectory (pdIndex v))) (ptIndex v))

inductive Listed (m : Machine) : Nat → Prop where
  | last (nonempty : m.taskList ≠ 0) : Listed m m.taskList
  | next {p q : Nat} (listed : Listed m p) (link : m.load (p + 32) = some q) : Listed m q

structure PagesMapped (m : Machine) : Prop where
  heap : ∀ v, heapBase ≤ v → v < heapBase + m.heapSize → MapsWritable m v
  taskStacks : ∀ p, Listed m p → ∃ id, m.load p = some id ∧ MapsWritable m (stackAddress (id + 1))

variable {tables pages : Nat → Option Nat}

theorem frame_writable {g flags : Nat} (allowed : PageFlags flags) :
    Writable (g * pageSize ||| flags) := by
  rw [Writable, Nat.and_or_distrib_right]
  intro zero
  have bits := (Nat.or_eq_zero_iff.mp zero).2
  rcases allowed with rfl | rfl <;> simp [pagePresent, pageWritable, pageUser] at bits

theorem Mapping.mapsWritable (mapping : Mapping m allGood tables pages) (v : Nat)
    (high : heapBase ≤ v) (mapped : pages (v / pageSize) ≠ none) : MapsWritable m v := by
  have split := page_split v
  have bound := ptIndex_lt v
  cases table : tables (pdIndex v) with
  | none =>
    have none := mapping.unmapped _ rfl table _ bound
    rw [split] at none
    exact absurd none mapped
  | some f =>
    obtain ⟨g, page⟩ := Option.ne_none_iff_exists'.mp mapped
    have entry := mapping.directory _ (pdIndex_high high) rfl
    rw [table, tableWord] at entry
    have word := mapping.entries _ f rfl table _ bound
    rw [split, page] at word
    obtain ⟨flags, allowed, stored⟩ := word
    have found : m.tableEntry (f * pageSize) (ptIndex v) = g * pageSize ||| flags := by
      rw [tableEntry, if_neg (mapping.table_not_image _ f table)]
      exact stored
    refine ⟨?_, ?_⟩
    · rw [entry, ← frame_or_flags]
      exact ⟨by rw [frame_or_flags]; exact frame_present f, frame_writable (.inl rfl)⟩
    · rw [entry, frame_address, found]
      exact ⟨(PageWord.present ⟨flags, allowed, rfl⟩).1, frame_writable allowed⟩

theorem HeapOk.mapsWritable (ok : HeapOk m blocks) (v : Nat)
    (readable : m.view allGood (pageAddress v) ≠ none) : MapsWritable m v := by
  obtain ⟨tables, pages, mapping⟩ := ok.sees.mapping
  obtain ⟨⟨high, -⟩, -, mapped⟩ := (mapping.view_readable _).mp readable
  have samePage : pageAddress v / pageSize = v / pageSize := by
    simp only [pageAddress, pageSize]
    omega
  rw [samePage] at mapped
  refine mapping.mapsWritable v ?_ mapped
  simp only [pageAddress, heapBase, pageSize] at *
  omega

theorem TaskInv.listed {whole : Prop} (inv : TaskInv whole m blocks tasks live) {p : Nat}
    (listed : Listed m p) : (p, taskSize) ∈ tasks := by
  induction listed with
  | last nonempty => exact inv.list nonempty
  | next _ link ih =>
    obtain ⟨next, known, inTasks⟩ := (inv.recorded _ ih).next
    rw [inv.heap.sees.load _ known, some.injEq] at link
    exact link ▸ inTasks

theorem TaskInv.pagesMapped (inv : TaskInv True m blocks tasks live) : PagesMapped m := by
  refine ⟨?_, ?_⟩
  · intro v base below
    refine inv.heap.mapsWritable v (inv.mapped trivial _ ?_ ?_ ?_)
    · simp only [pageAddress, heapBase, pageSize] at *
      omega
    · simp only [pageAddress, pageSize]
      omega
    · simp only [pageAddress, pageSize]
      omega
  · intro p listed
    obtain ⟨id, known, page⟩ := (inv.recorded p (inv.listed listed)).stack
    refine ⟨id, inv.heap.sees.load _ known, inv.heap.mapsWritable _ ?_⟩
    have aligned : pageAddress (stackAddress (id + 1)) = stackAddress (id + 1) := by
      simp only [pageAddress, stackAddress, word, pageSize]
      omega
    rwa [aligned]

end

-- Besides the calls of the run, a switch stores the stack pointer of the task that is left,
-- from which a later `sys_fork` reads.
inductive PageCall where
  | mem (call : MemCall)
  | sysFork (parent : Nat)
  | saveEsp (task esp : Nat)
deriving DecidableEq, Repr

instance lawfulBEq_pair : LawfulBEq (Nat × Nat) := inferInstance

def pageStep (s : MemState) : PageCall → Option (MemState × List Nat)
  | .mem call => memStep s call
  | .sysFork parent =>
    if parent = 0 ∨ (parent, taskSize) ∈ s.tasks then do
      let (m, child) ← sysFork s.machine parent
      return (⟨m, addLive s.tasks child taskSize, s.live⟩, [child])
    else none
  | .saveEsp task esp =>
    if (task, taskSize) ∈ s.tasks then do
      let m ← s.machine.store (task + 4) esp
      return (⟨m, s.tasks, s.live⟩, [])
    else none

def NewTaskMapped (m : Machine) : Prop :=
  m.taskCount < maxTasks → ExpandsLow m taskSize ∧ StackLow m ∧ ExpandsMapped m taskSize

-- A new page table comes from a frame in the first four megabytes, and when it is the last
-- page of an expansion that needs one, there is such a frame.
def TablesFound (s : MemState) : PageCall → Prop
  | .mem (.kmalloc n) =>
    n ≤ heapMaxSize ∧ (n ≠ 0 → ExpandsLow s.machine n ∧ ExpandsMapped s.machine n)
  | .mem (.kfree _) => True
  | .mem (.taskCreate _) => NewTaskMapped s.machine
  | .sysFork parent => parent ≠ 0 → NewTaskMapped s.machine
  | .saveEsp _ _ => True

-- The two halves of the condition: the second one only matters if the heap is to be mapped
-- to its end.
def NewTablesLow (s : MemState) : PageCall → Prop
  | .mem call => FramesLow s call
  | .sysFork parent => parent ≠ 0 → s.machine.taskCount < maxTasks →
      ExpandsLow s.machine taskSize ∧ StackLow s.machine
  | .saveEsp _ _ => True

def LastPageMapped (s : MemState) : PageCall → Prop
  | .mem (.kmalloc n) => n ≠ 0 → ExpandsMapped s.machine n
  | .mem (.kfree _) => True
  | .mem (.taskCreate _) => s.machine.taskCount < maxTasks → ExpandsMapped s.machine taskSize
  | .sysFork parent => parent ≠ 0 → s.machine.taskCount < maxTasks →
      ExpandsMapped s.machine taskSize
  | .saveEsp _ _ => True

theorem TablesFound.halves {s : MemState} {call : PageCall} (found : TablesFound s call) :
    NewTablesLow s call ∧ LastPageMapped s call := by
  match call, found with
  | .mem (.kmalloc _), found =>
    exact ⟨⟨found.1, fun positive => (found.2 positive).1⟩, fun positive => (found.2 positive).2⟩
  | .mem (.kfree _), _ => exact ⟨trivial, trivial⟩
  | .mem (.taskCreate _), found =>
    exact ⟨fun room => ⟨(found room).1, (found room).2.1⟩, fun room => (found room).2.2⟩
  | .sysFork _, found =>
    exact ⟨fun notNull room => ⟨(found notNull room).1, (found notNull room).2.1⟩,
      fun notNull room => (found notNull room).2.2⟩
  | .saveEsp _ _, _ => exact ⟨trivial, trivial⟩

section

variable {s s' : MemState} {events : List Nat}

theorem TaskInv.storeField {m m' : Machine} {tasks live : List (Nat × Nat)}
    (inv : TaskInv whole m blocks tasks live) {task : Nat} (isTask : (task, taskSize) ∈ tasks)
    (offset value : Nat) (inside : offset < taskSize) (aside : offset ≠ 0 ∧ offset ≠ 32)
    (stored : m.store (task + offset) value = some m') :
    TaskInv whole m' blocks tasks live ∧ SameMap m m' := by
  obtain ⟨c, inList, -, place, fits⟩ := inv.held.held _ (List.mem_append_left _ isTask)
  simp only at place fits
  obtain ⟨stores, ok, -⟩ := inv.heap.storeWord c inList _ _ (by omega)
    (by simp only [Block.stop]; omega) stored
  have apart : ∀ p, (p, taskSize) ∈ tasks → ∀ i < taskSize, p + i = task + offset → i = offset :=
    fun p isListed i small same =>
      inv.held.fields_apart inv.heap isListed isTask small inside same
  refine ⟨inv.grows stores.toSameBut.grows ?_
    (fun isWhole => (inv.mapped isWhole).mono stores.rewrites stores.heapSize) ok inv.held,
    stores.toSameMap⟩
  intro p isListed
  refine (inv.recorded p isListed).rewrites_words stores.rewrites ?_ ?_
  · intro same
    exact aside.1 (apart p isListed 0 (by decide) same).symm
  · intro same
    exact aside.2 (apart p isListed 32 (by decide) same).symm

theorem pageStep_tasks (inv : TaskInv whole s.machine blocks s.tasks s.live) {call : PageCall}
    (low : NewTablesLow s call) (left : whole → LastPageMapped s call)
    (taken : pageStep s call = some (s', events)) :
    ∃ blocks', TaskInv whole s'.machine blocks' s'.tasks s'.live := by
  cases call with
  | mem call =>
    refine memStep_tasks inv low (fun isWhole => ?_) taken
    cases call <;> exact left isWhole
  | sysFork parent =>
    rw [pageStep] at taken
    split at taken
    · obtain ⟨⟨m, p⟩, returned, taken⟩ := bind_eq_some_iff.mp taken
      cases taken
      exact sysFork_inv inv low left returned
    · contradiction
  | saveEsp task esp =>
    rw [pageStep] at taken
    split at taken
    · next isTask =>
      obtain ⟨m, stored, taken⟩ := bind_eq_some_iff.mp taken
      cases taken
      exact ⟨blocks, (inv.storeField isTask 4 esp (by decide) (by decide) stored).1⟩
    · contradiction

end

theorem pages_mapped_in_runs (config : BootConfig) (m : Machine) (booted : boot config = some m)
    (completed : m.heapStart ≠ 0) (history : List Nat) (state : MemState)
    (run : Stepper.Run pageStep TablesFound ⟨m, [], []⟩ history state) :
    PagesMapped state.machine := by
  have start : TaskInv True m [firstBlock] [] [] :=
    (boot_tasks booted).resolve_left fun none => completed none.1
  have reached : ∃ blocks, TaskInv True state.machine blocks state.tasks state.live := by
    refine run.invariant (fun _ s => ∃ blocks, TaskInv True s.machine blocks s.tasks s.live)
      ⟨_, start⟩ ?_
    rintro _ before after call events ⟨blocks, inv⟩ met taken
    exact pageStep_tasks inv met.halves.1 (fun _ => met.halves.2) taken
  obtain ⟨blocks, inv⟩ := reached
  exact inv.pagesMapped

theorem pages_mapped_in_runs_growth : ∃ m history state, boot plainConfig = some m ∧
    m.heapStart ≠ 0 ∧ Stepper.Run pageStep TablesFound ⟨m, [], []⟩ history state ∧
    state.machine.heapSize = 0x304000 ∧ PagesMapped state.machine := by
  have completed : plainMachine.heapStart ≠ 0 := by decide +kernel
  obtain ⟨returned, low, left⟩ := plain_grows
  have met : TablesFound ⟨plainMachine, [], []⟩ (.mem (.kmalloc 0x2030F0)) :=
    ⟨by decide, fun _ => ⟨low, left⟩⟩
  have taken : pageStep ⟨plainMachine, [], []⟩ (.mem (.kmalloc 0x2030F0)) =
      some (⟨grownMachine, [], [(heapBase + 16, 0x2030F0)]⟩, [heapBase + 16]) := by
    simp [pageStep, memStep, returned, addLive]
  have run := Stepper.Run.step [] _ _ _ _ .refl met taken
  exact ⟨_, _, _, plain_boot, completed, run, by decide +kernel,
    pages_mapped_in_runs plainConfig _ plain_boot completed _ _ run⟩

section

def smallConfig : BootConfig where
  ram := fun _ => 0
  info := ⟨1, 640, 5516, []⟩
  firstPageTableAt := 0x105000
  aligned := tableAt_aligned
  image := tableAt_image

def smallMachine : Machine := (firstHeader (bootPages smallConfig 1539)).get (by decide +kernel)

theorem small_boot : boot smallConfig = some smallMachine ∧ FirstTable smallMachine 256 1539 :=
  boot_firstTable (some_get _).symm (by decide) (by decide) (by decide)
    (by decide) (by decide)

attribute [irreducible] smallMachine

theorem heap_page_unmapped : ∃ m history state, boot smallConfig = some m ∧ m.heapStart ≠ 0 ∧
    Stepper.Run pageStep (fun _ _ => True) ⟨m, [], []⟩ history state ∧
    state.machine.heapSize = 0x401000 ∧ ¬ MapsWritable state.machine 0x800000 ∧
    ¬ PagesMapped state.machine := by
  obtain ⟨booted, first⟩ := small_boot
  -- The first page of the second table takes the last frame and stays unmapped.
  have mapped : mapPages 769 (heapBase + 256 * pageSize) smallMachine =
      mapPages 1 0x800000 (withPages smallMachine 256 768) := by
    rw [show 769 = 768 + 1 from rfl, mapPages_append, first.maps 768 (by decide) (by decide)]
    rfl
  have returned := kmalloc_pages (m := smallMachine) (k := 769)
    (show findFreeBlock _ 0x300000 _ _ = _ by decide +kernel) (by decide +kernel) (by decide)
  rw [show smallMachine.heapSize = 256 * pageSize by decide +kernel, mapped] at returned
  have grown : ((mapPages 1 0x800000 (withPages smallMachine 256 768)).bind
      (placeBlock 769 0x300000)).any (fun (m, p) => p = heapBase + 16 ∧ m.heapSize = 0x401000 ∧
        ¬ Present (m.pageDirectory 2)) = true := by decide +kernel
  obtain ⟨⟨m, p⟩, placed, all⟩ := (Option.any_eq_true _ _).mp grown
  obtain ⟨rfl, newSize, absent⟩ := of_decide_eq_true all
  have taken : pageStep ⟨smallMachine, [], []⟩ (.mem (.kmalloc 0x300000)) =
      some (⟨m, [], [(heapBase + 16, 0x300000)]⟩, [heapBase + 16]) := by
    simp [pageStep, memStep, returned, placed, addLive]
  have unmapped : ¬ MapsWritable m 0x800000 := fun maps => absent maps.directory.1
  refine ⟨_, _, _, booted, by decide +kernel, .step [] _ _ _ _ .refl trivial taken, newSize,
    unmapped, fun mapped => ?_⟩
  exact unmapped (mapped.heap 0x800000 (by decide) (by rw [newSize]; decide))

end

end ArgoOS.Memory
