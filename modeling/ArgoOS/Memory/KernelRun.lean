import ArgoOS.Memory.TaskMemory

set_option autoImplicit false

/-! # Runs of the kernel's memory functions -/

namespace ArgoOS.Memory

open Machine Blocks Option List

-- `tasks` are the task structures, `live` what the callers of `kmalloc` hold.
structure MemState where
  machine : Machine
  tasks : List (Nat × Nat)
  live : List (Nat × Nat)

inductive MemCall where
  | kmalloc (n : Nat)
  | kfree (p : Nat)
  | taskCreate (request : TaskRequest)
deriving DecidableEq, Repr

def addLive (live : List (Nat × Nat)) (p n : Nat) : List (Nat × Nat) :=
  if p = 0 then live else (p, n) :: live

def memStep (s : MemState) : MemCall → Option (MemState × List Nat)
  | .kmalloc n => do
    let (m, p) ← kmalloc s.machine n
    return (⟨m, s.tasks, addLive s.live p n⟩, [p])
  | .kfree p =>
    if p = 0 ∨ p ∈ s.live.map Prod.fst then do
      let m ← kfree s.machine p
      return (⟨m, s.tasks, dropLive s.live p⟩, [])
    else none
  | .taskCreate request => do
    let (m, p) ← taskCreate s.machine request
    return (⟨m, addLive s.tasks p taskSize, s.live⟩, [p])

-- Requests are no larger than the heap can be, and whenever `paging_map_page` asks for a
-- table the lowest free frame lies in the first four megabytes, or no frame is free.
def FramesLow (s : MemState) : MemCall → Prop
  | .kmalloc n => n ≤ heapMaxSize ∧ (n ≠ 0 → ExpandsLow s.machine n)
  | .kfree _ => True
  | .taskCreate _ => s.machine.taskCount < maxTasks →
      ExpandsLow s.machine taskSize ∧ StackLow s.machine

-- Every word that was stored to a page table went to the address it was stored through,
-- and every table that the directory names is mapped to itself.
structure TablesIdentity (m : Machine) : Prop where
  writes : ∀ w ∈ m.tableWrites, w.physical = w.pointer
  tables : ∀ i, Present (m.pageDirectory i) →
    pagingGetPhysical m (pageAddress (m.pageDirectory i)) = pageAddress (m.pageDirectory i)

variable {m : Machine}

theorem Mapping.tables_identity {tables pages : Nat → Option Nat}
    (mapping : Mapping m allGood tables pages) (i : Nat) (present : Present (m.pageDirectory i)) :
    pagingGetPhysical m (pageAddress (m.pageDirectory i)) = pageAddress (m.pageDirectory i) := by
  have low : pageAddress (m.pageDirectory i) < heapBase := by
    by_cases zero : i = 0
    · rw [zero, mapping.lowDirectory]
      have image := mapping.image
      simp only [pageAddress, pageSize, heapBase]
      omega
    · have entry := mapping.directory i (by omega) rfl
      cases table : tables i with
      | none => simp [entry, table, tableWord, Present] at present
      | some f =>
        rw [entry, table, tableWord, frame_address]
        have bound := (mapping.tableLow i f table).2.1
        simp only [pageSize, heapBase]
        omega
  rw [pagingGetPhysical, mapping.toLowMapped.translate_low _ low, getD_some]

inductive MemInv (s : MemState) : Prop where
  | noHeap (none : NoHeap s.machine) (mapping : ∃ tables pages, Mapping s.machine allGood tables pages)
      (writes : Identity s.machine.tableWrites) (live : s.live = [])
  | heap (blocks : List Block) (inv : TaskInv False s.machine blocks s.tasks s.live)

theorem MemInv.identity {s : MemState} (inv : MemInv s) : TablesIdentity s.machine := by
  cases inv with
  | noHeap none mapping writes live =>
    obtain ⟨tables, pages, mapping⟩ := mapping
    exact ⟨writes, mapping.tables_identity⟩
  | heap blocks inv =>
    obtain ⟨tables, pages, mapping⟩ := inv.heap.sees.mapping
    exact ⟨inv.writes, mapping.tables_identity⟩

section

theorem findFreeBlock_null (m : Machine) (size fuel : Nat) :
    findFreeBlock m size fuel 0 = some 0 := by
  cases fuel <;> simp [findFreeBlock]

theorem kmalloc_noHeap (none : NoHeap m) (ok : PmmOk m.pmm) (n : Nat) (bound : n ≤ heapMaxSize) :
    kmalloc m n = some (m, 0) := by
  obtain ⟨start, size, full⟩ := none
  have empty := (pmmAllocPage_none ok.covered).mpr full
  by_cases zero : n = 0
  · simp [kmalloc, zero]
  have aligned := alignSize_eq bound
  have expandSize : word (alignSize n + headerSize) = alignSize n + headerSize := by
    apply word_eq
    simp only [heapMaxSize, headerSize] at *
    omega
  have failed : expandHeap m (alignSize n + headerSize) = some (m, false) := by
    unfold expandHeap
    split
    · rfl
    · have pages : ∃ k, word (alignSize n + headerSize + pageSize - 1) / pageSize = k + 1 := by
        refine ⟨_, (Nat.succ_pred_eq_of_pos ?_).symm⟩
        rw [word_eq]
        · simp only [pageSize, headerSize]
          omega
        · simp only [heapMaxSize, headerSize, pageSize] at *
          omega
      obtain ⟨k, pages⟩ := pages
      simp [pages, mapPages, empty]
  simp [kmalloc, zero, start, findFreeBlock_null, expandSize, failed]

theorem taskCreate_noHeap (none : NoHeap m) (ok : PmmOk m.pmm) (r : TaskRequest) :
    taskCreate m r = some (m, 0) := by
  unfold taskCreate
  split
  · rfl
  · simp [kmalloc_noHeap none ok taskSize (by decide)]

theorem memStep_noHeap {s s' : MemState} {events : List Nat} (none : NoHeap s.machine)
    (ok : PmmOk s.machine.pmm) (live : s.live = []) {call : MemCall} (met : FramesLow s call)
    (taken : memStep s call = some (s', events)) : s' = s := by
  cases call with
  | kmalloc n =>
    rw [memStep, kmalloc_noHeap none ok n met.1] at taken
    cases taken
    simp [addLive]
  | kfree p =>
    rw [memStep] at taken
    split at taken
    · next isLive =>
      obtain rfl : p = 0 := by simpa [live] using isLive
      cases taken
      have kept : dropLive s.live 0 = s.live := by simp [dropLive, live]
      rw [kept]
    · contradiction
  | taskCreate request =>
    rw [memStep, taskCreate_noHeap none ok request] at taken
    cases taken
    simp [addLive]

end

variable {whole : Prop} {blocks : List Block}

section

variable {m m' : Machine} {tasks live : List (Nat × Nat)}

theorem TaskInv.kmalloc (inv : TaskInv whole m blocks tasks live) (n p : Nat)
    (bound : n ≤ heapMaxSize) (low : n ≠ 0 → ExpandsLow m n)
    (left : whole → n ≠ 0 → ExpandsMapped m n) (returned : Memory.kmalloc m n = some (m', p)) :
    ∃ blocks', TaskInv whole m' blocks' tasks (addLive live p n) := by
  by_cases zero : n = 0
  · simp only [Memory.kmalloc, zero, if_true] at returned
    cases returned
    exact ⟨blocks, by simpa [addLive] using inv⟩
  obtain ⟨enlarges, blocks', effect⟩ := kmalloc_effect inv.heap n p (by omega) bound (low zero)
    returned
  have kept := inv.held.mono effect.kept
  refine ⟨blocks', inv.enlarges enlarges (fun isWhole => left isWhole zero) effect.ok ?_⟩
  by_cases null : p = 0
  · simpa [addLive, null] using kept
  · obtain ⟨b, member, used, rfl, fits, apart⟩ := effect.new null
    simp only [addLive, null, if_false]
    refine (kept.add b n member used fits ?_).perm List.perm_middle.symm
    intro entry inLive same
    obtain ⟨c, inList, usedC, place, -⟩ := inv.held.held entry inLive
    exact apart c inList usedC (by omega)

theorem TaskInv.kfree (inv : TaskInv whole m blocks tasks live) (p : Nat)
    (isLive : p = 0 ∨ p ∈ live.map Prod.fst) (returned : Memory.kfree m p = some m') :
    ∃ blocks', TaskInv whole m' blocks' tasks (dropLive live p) := by
  have part : (tasks ++ dropLive live p).Sublist (tasks ++ live) :=
    filter_sublist.append_left _
  by_cases null : p = 0
  · simp only [Memory.kfree, null, if_true] at returned
    cases returned
    exact ⟨blocks, { inv with held := inv.held.sublist part }⟩
  obtain ⟨entry, member, rfl⟩ := List.mem_map.mp (isLive.resolve_left null)
  obtain ⟨b, inList, used, place, -⟩ := inv.held.held entry (mem_append_right _ member)
  rw [place] at returned
  obtain ⟨stores, blocks', ok', kept, -⟩ := (inv.heap.free b inList used).post _ returned
  -- A task structure is no one's to free, and the pointer itself was dropped.
  have notTask : ∀ other ∈ tasks, other.1 ≠ entry.1 :=
    fun other task => (List.pairwise_append.mp inv.held.distinct).2.2 other task entry member
  refine ⟨blocks', inv.grows stores.toSameBut.grows ?_ (fun isWhole => (inv.mapped isWhole).mono stores.rewrites stores.heapSize) ok'
    ((inv.held.sublist part).without b kept ?_)⟩
  · intro p task
    refine (inv.recorded p task).rewrites stores.rewrites fun a above below written => ?_
    obtain ⟨c, inC, usedC, placeC, fits⟩ := inv.held.held _ (mem_append_left _ task)
    refine written c inC usedC ?_ ⟨by omega, by simp only [Block.stop]; omega⟩
    rintro rfl
    exact notTask _ task (placeC.trans place.symm)
  · intro other inLive
    rw [← place]
    rcases mem_append.mp inLive with task | rest
    · exact notTask other task
    · simp only [dropLive, mem_filter, decide_eq_true_eq] at rest
      exact rest.2

end

section

variable {s s' : MemState} {events : List Nat}

def HeapEndMapped (s : MemState) : MemCall → Prop
  | .kmalloc n => n ≠ 0 → ExpandsMapped s.machine n
  | .kfree _ => True
  | .taskCreate _ => s.machine.taskCount < maxTasks → ExpandsMapped s.machine taskSize

theorem memStep_tasks (inv : TaskInv whole s.machine blocks s.tasks s.live) {call : MemCall}
    (low : FramesLow s call) (left : whole → HeapEndMapped s call)
    (taken : memStep s call = some (s', events)) :
    ∃ blocks', TaskInv whole s'.machine blocks' s'.tasks s'.live := by
  cases call with
  | kmalloc n =>
    obtain ⟨⟨m, p⟩, returned, taken⟩ := bind_eq_some_iff.mp taken
    cases taken
    exact inv.kmalloc n p low.1 low.2 left returned
  | kfree p =>
    rw [memStep] at taken
    split at taken
    · next isLive =>
      obtain ⟨m, returned, taken⟩ := bind_eq_some_iff.mp taken
      cases taken
      exact inv.kfree p isLive returned
    · contradiction
  | taskCreate request =>
    obtain ⟨⟨m, p⟩, returned, taken⟩ := bind_eq_some_iff.mp taken
    cases taken
    exact taskCreate_inv inv low left returned

theorem MemInv.step (inv : MemInv s) (call : MemCall) (met : FramesLow s call)
    (taken : memStep s call = some (s', events)) : MemInv s' := by
  cases inv with
  | noHeap none mapping writes live =>
    obtain ⟨tables, pages, inOrder⟩ := mapping
    rw [memStep_noHeap none inOrder.pmm live met taken]
    exact .noHeap none ⟨tables, pages, inOrder⟩ writes live
  | heap blocks inv =>
    obtain ⟨blocks', inv'⟩ := memStep_tasks inv met False.elim taken
    exact .heap blocks' inv'

end

variable {config : BootConfig}

theorem boot_writes (booted : boot config = some m) : Identity m.tableWrites := by
  refine (boot_effect booted).2.2.identity ?_
  intro w member
  exact absurd member not_mem_nil

theorem boot_tasks (booted : boot config = some m) :
    NoHeap m ∨ TaskInv True m [firstBlock] [] [] := by
  obtain ⟨outcome, -, grows⟩ := boot_effect booted
  obtain ⟨id, count, list⟩ := grows.tasks
  refine outcome.imp_right fun ⟨ok, mapped, _⟩ => ⟨ok, ⟨by simp, .nil⟩, ?_, ?_, .inl ?_,
    boot_writes booted, by simp, fun _ => mapped⟩
  · intro hasList
    exact absurd list hasList
  · rw [count]
    exact Nat.zero_le _
  · rw [id, count]
    rfl

theorem boot_inv (booted : boot config = some m) : MemInv ⟨m, [], []⟩ := by
  rcases boot_tasks booted with none | inv
  · exact .noHeap none (boot_effect booted).2.1 (boot_writes booted) rfl
  · exact .heap _ { inv with mapped := False.elim }

theorem page_tables_identity (config : BootConfig) (m : Machine) (booted : boot config = some m)
    (history : List Nat) (state : MemState)
    (run : Stepper.Run memStep FramesLow ⟨m, [], []⟩ history state) :
    TablesIdentity state.machine := by
  have reached : MemInv state := by
    refine run.invariant (fun _ s => MemInv s) (boot_inv booted) ?_
    intro _ before after call events inv met taken
    exact inv.step call met taken
  exact reached.identity

theorem page_tables_identity_growth : ∃ m history state, boot plainConfig = some m ∧
    Stepper.Run memStep FramesLow ⟨m, [], []⟩ history state ∧
    state.live = [(heapBase + 16, 0x2030F0)] ∧ TablesIdentity state.machine := by
  obtain ⟨returned, low, -⟩ := plain_grows
  have met : FramesLow ⟨plainMachine, [], []⟩ (.kmalloc 0x2030F0) := ⟨by decide, fun _ => low⟩
  have taken : memStep ⟨plainMachine, [], []⟩ (.kmalloc 0x2030F0) =
      some (⟨grownMachine, [], [(heapBase + 16, 0x2030F0)]⟩, [heapBase + 16]) := by
    simp [memStep, returned, addLive]
  have run := Stepper.Run.step [] _ _ _ _ .refl met taken
  exact ⟨_, _, _, plain_boot, run, rfl, page_tables_identity plainConfig _ plain_boot _ _ run⟩

-- A request for three megabytes runs past the first table. The words for the next one
-- are stored to whatever frame the heap has at that address.
theorem page_table_not_identity : ∃ m history state, boot plainConfig = some m ∧
    Stepper.Run memStep (fun _ _ => True) ⟨m, [], []⟩ history state ∧
    ¬ TablesIdentity state.machine := by
  have clash := plain_firstTable.2.clash 0 (by decide +kernel)
    (show findFreeBlock _ 0x300000 _ _ = _ by decide +kernel) (by decide +kernel) (by decide) (by decide) (by decide +kernel) (by decide +kernel)
  have evaluated : (clashRequest plainMachine 16384 256 0 0x300000).any (fun (m, p) =>
      p = heapBase + 16 ∧ ∃ w ∈ m.tableWrites, w.physical ≠ w.pointer) = true := by
    decide +kernel
  obtain ⟨⟨m, p⟩, returned, both⟩ := (Option.any_eq_true _ _).mp evaluated
  obtain ⟨rfl, w, member, differs⟩ := of_decide_eq_true both
  have taken : memStep ⟨plainMachine, [], []⟩ (.kmalloc 0x300000) =
      some (⟨m, [], [(heapBase + 16, 0x300000)]⟩, [heapBase + 16]) := by
    simp [memStep, clash, returned, addLive]
  exact ⟨_, _, _, plain_boot, .step [] _ _ _ _ .refl trivial taken,
    fun identity => differs (identity.writes w member)⟩

end ArgoOS.Memory
