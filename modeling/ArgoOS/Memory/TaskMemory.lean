import ArgoOS.Memory.HeapRun

set_option autoImplicit false

/-!
# Task creation in memory

`task_create` as a user of the allocators: the task structure comes from the heap, the
kernel stack is a page mapped above `0xE0000000`. Field offsets are those of
`struct task`.
-/

namespace ArgoOS.Memory

open Machine Blocks Option List

def maxTasks : Nat := 256
def taskSize : Nat := 76

-- The arguments of `task_create`, and the address of `task_start_asm`.
structure TaskRequest where
  entry : Nat
  name : Option (List UInt8)
  priority : Nat
  taskStartAsm : Nat
deriving DecidableEq, Repr

def storeFields (m : Machine) (base : Nat) : List (Nat × Nat) → Option Machine
  | [] => some m
  | (offset, value) :: fields => do
    let m ← m.store (base + offset) value
    storeFields m base fields

-- Byte `i` of the name field after `strncpy` and the final zero.
def nameByte (name : List UInt8) (i : Nat) : Nat :=
  if i < 31 then (name.getD i 0).toNat else 0

def nameWord (name : List UInt8) (k : Nat) : Nat :=
  nameByte name (4 * k) + nameByte name (4 * k + 1) * 0x100 +
    nameByte name (4 * k + 2) * 0x10000 + nameByte name (4 * k + 3) * 0x1000000

def setName (m : Machine) (task : Nat) : Option (List UInt8) → Option Machine
  | some name => storeFields m task ((List.range 8).map fun k => (44 + 4 * k, nameWord name k))
  | none => do
    -- `strcpy` writes "task" and its zero byte.
    let m ← m.store (task + 44) 0x6B736174
    let next ← m.load (task + 48)
    m.store (task + 48) (next / 0x100 * 0x100)

def stackAddress (id : Nat) : Nat := word (0xE0000000 + id * 0x1000)

def createKernelStack (m : Machine) : Option (Machine × Nat) :=
  match pmmAllocPage m.pmm with
  | none => some (m, 0)
  | some (page, pmm) => do
    let virtualAddr := stackAddress m.nextTaskId
    let m ← pagingMapPage (m.withPmm pmm) virtualAddr (page * pageSize)
      (pagePresent ||| pageWritable)
    return (m, word (virtualAddr + 4096))

def takeTaskId (m : Machine) : Machine := { m with nextTaskId := word (m.nextTaskId + 1) }

def setTaskList (m : Machine) (task : Nat) : Machine := { m with taskList := task }

def countTask (m : Machine) : Machine := { m with taskCount := word (m.taskCount + 1) }

def linkTask (m : Machine) (task : Nat) : Option Machine :=
  if m.taskList = 0 then (setTaskList m task).store (task + 32) task
  else do
    let next ← m.load (m.taskList + 32)
    let m ← m.store (task + 32) next
    let m ← m.store (m.taskList + 32) task
    return setTaskList m task

-- `sys_fork` puts the child behind the last task and leaves `task_list` there.
def linkChild (m : Machine) (child : Nat) : Option Machine :=
  if m.taskList = 0 then (setTaskList m child).store (child + 32) child
  else do
    let next ← m.load (m.taskList + 32)
    let m ← m.store (child + 32) next
    m.store (m.taskList + 32) child

def fillTask (m : Machine) (task id : Nat) (r : TaskRequest) : Option Machine := do
  let m ← storeFields m task
    [(0, id), (20, 1), (24, r.priority), (28, 10), (16, 0), (32, 0), (36, 0), (40, 0)]
  setName m task r.name

-- The frame for the first switch to the task, and its place in the list.
def startTask (m : Machine) (task stackTop : Nat) (r : TaskRequest) : Option Machine := do
  let stack := wordSub stackTop 24
  let m ← storeFields m stack
    [(20, r.entry), (16, r.taskStartAsm), (12, 0), (8, 0), (4, 0), (0, 0)]
  let m ← storeFields m task [(4, stack), (8, 0), (12, r.taskStartAsm)]
  let m ← linkTask m task
  return countTask m

def taskCreate (m : Machine) (r : TaskRequest) : Option (Machine × Nat) :=
  if maxTasks ≤ m.taskCount then some (m, 0)
  else do
    let (m, task) ← kmalloc m taskSize
    if task = 0 then return (m, 0)
    else
      let m ← fillTask (takeTaskId m) task m.nextTaskId r
      let (m, stackTop) ← createKernelStack m
      if stackTop = 0 then
        let m ← kfree m task
        return (m, 0)
      else
        let m ← startTask m task stackTop r
        return (m, task)

variable {m m' : Machine} {blocks : List Block}

section

section

variable (ok : HeapOk m blocks) (b : Block) (member : b ∈ blocks)

include ok b member

theorem HeapOk.storeFields (fields : List (Nat × Nat)) (fits : ∀ field ∈ fields, field.1 < b.size)
    (stored : Memory.storeFields m (b.addr + 16) fields = some m') :
    Stores (fun a => ∃ field ∈ fields, a = b.addr + 16 + field.1) m m' ∧ HeapOk m' blocks := by
  induction fields generalizing m with
  | nil =>
    obtain rfl := some.inj stored
    exact ⟨.refl _ m, ok⟩
  | cons field fields ih =>
    obtain ⟨m1, first, rest⟩ := bind_eq_some_iff.mp stored
    have inside := fits field (by simp)
    obtain ⟨stores1, ok1, -⟩ := ok.storeWord b member _ _ (by omega)
      (by simp only [Block.stop]; omega) first
    obtain ⟨stores2, ok2⟩ := ih ok1 (fun later inFields => fits later (by simp [inFields])) rest
    refine ⟨(stores1.mono fun a here => ⟨field, by simp, here⟩).trans (stores2.mono ?_), ok2⟩
    rintro a ⟨later, inFields, here⟩
    exact ⟨later, by simp [inFields], here⟩

theorem HeapOk.setName (fits : taskSize ≤ b.size) (name : Option (List UInt8))
    (stored : Memory.setName m (b.addr + 16) name = some m') :
    Stores (fun a => b.addr + 60 ≤ a ∧ a < b.stop) m m' ∧ HeapOk m' blocks := by
  simp only [taskSize, Block.stop] at *
  cases name with
  | some name =>
    have offsets : ∀ field ∈ (List.range 8).map fun k => (44 + 4 * k, nameWord name k),
        44 ≤ field.1 ∧ field.1 < b.size := by
      intro field inFields
      obtain ⟨k, small, rfl⟩ := List.mem_map.mp inFields
      rw [mem_range] at small
      simp only
      omega
    obtain ⟨stores, ok'⟩ := ok.storeFields b member _ (fun field inFields =>
      (offsets field inFields).2) stored
    refine ⟨stores.mono ?_, ok'⟩
    rintro a ⟨field, inFields, rfl⟩
    have offset := offsets field inFields
    omega
  | none =>
    obtain ⟨m1, first, rest⟩ := bind_eq_some_iff.mp stored
    obtain ⟨next, -, second⟩ := bind_eq_some_iff.mp rest
    obtain ⟨stores1, ok1, -⟩ := ok.storeWord b member _ _ (by omega)
      (by simp only [Block.stop]; omega) first
    obtain ⟨stores2, ok2, -⟩ := ok1.storeWord b member _ _ (by omega)
      (by simp only [Block.stop]; omega) second
    exact ⟨(stores1.mono fun a here => by omega).trans (stores2.mono fun a here => by omega), ok2⟩

theorem HeapOk.storeRest (fields : List (Nat × Nat))
    (offsets : ∀ field ∈ fields, 0 < field.1 ∧ field.1 < b.size)
    (stored : Memory.storeFields m (b.addr + 16) fields = some m') :
    Stores (InPayload b) m m' ∧ HeapOk m' blocks ∧
      m'.view allGood (b.addr + 16) = m.view allGood (b.addr + 16) := by
  obtain ⟨stores, ok'⟩ := ok.storeFields b member fields (fun field inFields =>
    (offsets field inFields).2) stored
  refine ⟨stores.mono ?_, ok', stores.rewrites.same ?_⟩
  · rintro a ⟨field, inFields, rfl⟩
    have offset := offsets field inFields
    simp only [InPayload, Block.stop]
    omega
  · rintro ⟨field, inFields, here⟩
    have offset := offsets field inFields
    omega

theorem HeapOk.storeId (id : Nat) (fields : List (Nat × Nat))
    (offsets : ∀ field ∈ fields, 0 < field.1 ∧ field.1 < b.size) (fits : taskSize ≤ b.size)
    (stored : Memory.storeFields m (b.addr + 16) ((0, id) :: fields) = some m') :
    Stores (InPayload b) m m' ∧ HeapOk m' blocks ∧ m'.view allGood (b.addr + 16) = some id := by
  simp only [taskSize] at fits
  obtain ⟨m1, first, rest⟩ := bind_eq_some_iff.mp stored
  obtain ⟨stores1, ok1, known⟩ := ok.storeWord b member _ _ (by omega)
    (by simp only [Block.stop]; omega) first
  obtain ⟨stores2, ok2, same⟩ := ok1.storeRest b member fields offsets rest
  refine ⟨(stores1.mono fun a here => ?_).trans stores2, ok2, same.trans known⟩
  simp only [InPayload, Block.stop]
  omega

theorem HeapOk.fillTask (fits : taskSize ≤ b.size) (id : Nat) (r : TaskRequest)
    (stored : Memory.fillTask m (b.addr + 16) id r = some m') :
    Stores (InPayload b) m m' ∧ HeapOk m' blocks ∧ m'.view allGood (b.addr + 16) = some id := by
  obtain ⟨m1, fields, name⟩ := bind_eq_some_iff.mp stored
  have small := fits
  simp only [taskSize] at small
  obtain ⟨stores1, ok1, known⟩ := ok.storeId b member id _ (by
    intro field inFields
    simp only [mem_cons, not_mem_nil, or_false] at inFields
    rcases inFields with rfl | rfl | rfl | rfl | rfl | rfl | rfl <;> omega) fits fields
  obtain ⟨stores2, ok2⟩ := ok1.setName b member fits r.name name
  refine ⟨stores1.trans (stores2.mono fun a inside => ?_), ok2, ?_⟩
  · simp only [InPayload, Block.stop] at *
    omega
  · rw [stores2.rewrites.same (by omega)]
    exact known

end

theorem HeapOk.storeAbove (ok : HeapOk m blocks) (a value : Nat) (above : heapEnd ≤ a)
    (stored : m.store a value = some m') : Stores (heapEnd ≤ ·) m m' ∧ HeapOk m' blocks := by
  have limit := ok.limit
  obtain ⟨sees', same⟩ := ok.sees.store a value (by simp only [heapEnd] at *; omega) stored
  refine ⟨ok.sees.stores a value (by simp only [heapEnd] at *; omega) above stored,
    ok.of_same sees' same (ok.linked.congr ?_) ok.shape ok.nonempty⟩
  intro b member k _ inHeader
  have inside := (ok.shape.bounds b member).2
  simp only [Block.stop] at inside
  exact Function.update_of_ne (by omega) _ _

theorem HeapOk.storeFieldsAbove (ok : HeapOk m blocks) (base : Nat) (above : heapEnd ≤ base)
    (fields : List (Nat × Nat)) (stored : Memory.storeFields m base fields = some m') :
    Stores (heapEnd ≤ ·) m m' ∧ HeapOk m' blocks := by
  induction fields generalizing m with
  | nil =>
    obtain rfl := some.inj stored
    exact ⟨.refl _ m, ok⟩
  | cons field fields ih =>
    obtain ⟨m1, first, rest⟩ := bind_eq_some_iff.mp stored
    obtain ⟨same1, ok1⟩ := ok.storeAbove _ _ (by omega) first
    obtain ⟨same2, ok2⟩ := ih ok1 rest
    exact ⟨same1.trans same2, ok2⟩

end

variable {pmm : Pmm} {p a : Nat} {entry : Nat × Nat}

variable {stackTop : Nat}

section

theorem stackAddress_eq {id : Nat} (small : id ≤ 0x1000) :
    stackAddress id = 0xE0000000 + id * 0x1000 := by
  apply word_eq
  omega

theorem stackAddress_word (id : Nat) : stackAddress (word id) = stackAddress id := by
  simp only [stackAddress, word]
  omega

-- What `create_kernel_stack` needs when it is the first to map a page above `0xE0000000`.
def StackTableLow (m : Machine) : Prop :=
  ∀ page pmm, pmmAllocPage m.pmm = some (page, pmm) →
    TableLow (m.withPmm pmm) (stackAddress m.nextTaskId)

theorem HeapOk.withPmm (ok : HeapOk m blocks) {page : Nat}
    (allocated : pmmAllocPage m.pmm = some (page, pmm)) :
    HeapOk (m.withPmm pmm) blocks ∧ (m.withPmm pmm).view allGood = m.view allGood := by
  obtain ⟨tables, pages, mapping⟩ := ok.sees.mapping
  obtain ⟨mapping', -⟩ := mapping.alloc page pmm allocated
  have view := view_withPmm mapping mapping'
  exact ⟨ok.grow ⟨tables, pages, mapping'⟩ (fun w _ => congrFun view w) rfl (Nat.le_refl _) ok.paged
    ok.bounded, view⟩

theorem HeapOk.mapAbove {tables pages : Nat → Option Nat} (ok : HeapOk m blocks)
    (mapping : Mapping m allGood tables pages) (v g : Nat) {flags : Nat} (allowed : PageFlags flags)
    (above : heapEnd ≤ v) (target : Target m tables pages (v / pageSize) g) (low : TableLow m v)
    (mapped : pagingMapPage m v (g * pageSize) flags = some m') :
    HeapOk m' blocks ∧ Keeps m m' ∧ Rewrites (heapEnd ≤ ·) (m.view allGood) (m'.view allGood) ∧
      ∀ w, w / pageSize ≠ v / pageSize → m'.translate w = m.translate w := by
  obtain ⟨m1, tables1, pages1, stored, mapping1, others, rewrites1, keeps, -⟩ :=
    mapping.mapPage v g allowed (by simp only [heapEnd] at above; omega) rfl target low
  obtain rfl : m1 = m' := some.inj (stored.symm.trans mapped)
  have limit := ok.limit
  have rewrites : Rewrites (heapEnd ≤ ·) (m.view allGood) (m1.view allGood) := by
    refine rewrites1.mono fun w inPage => ?_
    simp only [heapEnd, heapBase, heapMaxSize, pageSize] at *
    omega
  refine ⟨?_, keeps, rewrites, fun w other =>
    mapping.translate_congr mapping1 w rfl fun _ => others _ other⟩
  exact ok.grow ⟨tables1, pages1, mapping1⟩ (fun w below => rewrites.same (by omega)) keeps.heap.1
    (Nat.le_of_eq keeps.heap.2.symm) (by rw [keeps.heap.2]; exact ok.paged)
    (by rw [keeps.heap.2]; exact ok.bounded)

theorem HeapOk.mapFresh (ok : HeapOk m blocks) (v : Nat) {page flags : Nat}
    (allowed : PageFlags flags) (above : heapEnd ≤ v)
    (allocated : pmmAllocPage m.pmm = some (page, pmm)) (low : TableLow (m.withPmm pmm) v)
    (mapped : pagingMapPage (m.withPmm pmm) v (page * pageSize) flags = some m') :
    HeapOk m' blocks ∧ Keeps m m' ∧ Rewrites (heapEnd ≤ ·) (m.view allGood) (m'.view allGood) ∧
      ∀ w, w / pageSize ≠ v / pageSize → m'.translate w = m.translate w := by
  obtain ⟨tables, pages, mapping⟩ := ok.sees.mapping
  obtain ⟨mapping1, fresh⟩ := mapping.alloc page pmm allocated
  obtain ⟨ok1, view1⟩ := ok.withPmm allocated
  obtain ⟨ok', keeps, rewrites, translate⟩ :=
    ok1.mapAbove mapping1 v page allowed above (fresh.target _) low mapped
  exact ⟨ok', (alloc_keeps allocated).trans keeps, view1 ▸ rewrites, translate⟩

theorem createKernelStack_effect (ok : HeapOk m blocks)
    (ids : m.nextTaskId ≤ 0x1000 ∨ Exhausted m.pmm) (low : StackTableLow m)
    (returned : createKernelStack m = some (m', stackTop)) :
    HeapOk m' blocks ∧ Keeps m m' ∧
      Rewrites (heapEnd ≤ ·) (m.view allGood) (m'.view allGood) ∧
      (stackTop = 0 ∧ Exhausted m'.pmm ∨
        stackTop = 0xE0000000 + m.nextTaskId * 0x1000 + 0x1000 ∧ m.nextTaskId ≤ 0x1000) := by
  obtain ⟨tables, pages, mapping⟩ := ok.sees.mapping
  unfold createKernelStack at returned
  cases allocated : pmmAllocPage m.pmm with
  | none =>
    simp only [allocated] at returned
    cases returned
    exact ⟨ok, .refl m, .refl _ _,
      .inl ⟨rfl, (pmmAllocPage_none mapping.pmm.covered).mp allocated⟩⟩
  | some result =>
    obtain ⟨page, pmm⟩ := result
    have small : m.nextTaskId ≤ 0x1000 := by
      refine ids.resolve_right fun full => ?_
      rw [(pmmAllocPage_none mapping.pmm.covered).mpr full] at allocated
      contradiction
    have address := stackAddress_eq small
    simp only [allocated, bind_eq_bind] at returned
    obtain ⟨m1, mapped, returned⟩ := bind_eq_some_iff.mp returned
    cases returned
    obtain ⟨ok1, keeps, rewrites, -⟩ := ok.mapFresh _ (.inl rfl)
      (by rw [address]; simp only [heapEnd, heapBase, heapMaxSize]; omega) allocated
      (low page pmm allocated) mapped
    refine ⟨ok1, keeps, rewrites, .inr ⟨?_, small⟩⟩
    rw [address, word_eq]
    omega

theorem HeapOk.tasks (ok : HeapOk m blocks) (nextTaskId taskCount taskList : Nat) :
    HeapOk { m with nextTaskId, taskCount, taskList } blocks := by
  obtain ⟨tables, pages, mapping⟩ := ok.sees.mapping
  exact ⟨⟨⟨tables, pages, { mapping with }⟩, rfl⟩, ok.linked, ok.shape, ok.nonempty, ok.start,
    ok.paged, ok.bounded⟩

theorem HeapOk.stored_page (ok : HeapOk m blocks) (a value v : Nat) (high : heapBase ≤ v)
    (stored : m.store a value = some m') (page : v / pageSize = a / pageSize)
    (aligned : v % 4 = 0) : m.view allGood v ≠ none := by
  obtain ⟨tables, pages, mapping⟩ := ok.sees.mapping
  have base : heapBase ≤ a := by
    simp only [heapBase, pageSize] at *
    omega
  obtain ⟨-, g, mapped, -⟩ := mapping.store_high a value base rfl stored
  exact (mapping.view_readable v).mpr ⟨⟨high, rfl⟩, aligned, by simp [page, mapped]⟩

end

section

variable {tasks live : List (Nat × Nat)} {whole : Prop}

structure Recorded (m : Machine) (tasks : List (Nat × Nat)) (p : Nat) : Prop where
  next : ∃ next, m.view allGood (p + 32) = some next ∧ (next, taskSize) ∈ tasks
  stack : ∃ id, m.view allGood p = some id ∧ m.view allGood (stackAddress (id + 1)) ≠ none

-- `tasks` are the task structures, `live` what the other callers of `kmalloc` hold. Whether
-- the heap is mapped to its end only matters to some callers.
structure TaskInv (whole : Prop) (m : Machine) (blocks : List Block)
    (tasks live : List (Nat × Nat)) : Prop where
  heap : HeapOk m blocks
  held : LiveOk blocks (tasks ++ live)
  list : m.taskList ≠ 0 → (m.taskList, taskSize) ∈ tasks
  count : m.taskCount ≤ maxTasks
  -- A task id is lost only when no page was left for the stack.
  ids : m.nextTaskId = m.taskCount + 1 ∨ Exhausted m.pmm
  writes : Identity m.tableWrites
  recorded : ∀ p, (p, taskSize) ∈ tasks → Recorded m tasks p
  mapped : whole → HeapMapped m

theorem Exhausted.mono {pmm' : Pmm} (full : Exhausted pmm) (marks : Marks pmm pmm') :
    Exhausted pmm' := by
  intro page bound
  rw [marks.totalPages] at bound
  exact marks.used page (full page bound)

theorem Grows.identity (grows : Grows m m') (identity : Identity m.tableWrites) :
    Identity m'.tableWrites := by
  obtain ⟨writes, new, added⟩ := grows.writes
  rw [added]
  intro w member
  rcases mem_append.mp member with inNew | inOld
  · exact new w inNew
  · exact identity w inOld

theorem Recorded.globals (recorded : Recorded m tasks p) (nextTaskId taskCount taskList : Nat) :
    Recorded { m with nextTaskId, taskCount, taskList } tasks p :=
  ⟨recorded.next, recorded.stack⟩

theorem Recorded.rewrites_words {written : Nat → Prop} (recorded : Recorded m tasks p)
    (rewrites : Rewrites written (m.view allGood) (m'.view allGood)) (first : ¬ written p)
    (second : ¬ written (p + 32)) : Recorded m' tasks p := by
  obtain ⟨⟨next, link, inTasks⟩, id, field, stack⟩ := recorded
  refine ⟨⟨next, ?_, inTasks⟩, id, ?_, rewrites.readable stack⟩
  · rw [rewrites.same second]
    exact link
  · rw [rewrites.same first]
    exact field

theorem Recorded.rewrites {written : Nat → Prop} (recorded : Recorded m tasks p)
    (rewrites : Rewrites written (m.view allGood) (m'.view allGood))
    (outside : ∀ a, p ≤ a → a < p + taskSize → ¬ written a) : Recorded m' tasks p :=
  recorded.rewrites_words rewrites (outside _ (by omega) (by simp only [taskSize]; omega))
    (outside _ (by omega) (by simp only [taskSize]; omega))

theorem LiveOk.inUse (held : LiveOk blocks live) (member : entry ∈ live) (above : entry.1 ≤ a)
    (below : a < entry.1 + entry.2) : InUse blocks a := by
  obtain ⟨c, inList, used, place, fits⟩ := held.held entry member
  exact ⟨c, inList, used, by omega, by simp only [Block.stop]; omega⟩

theorem LiveOk.away (held : LiveOk blocks live) (ok : HeapOk m blocks) {b : Block}
    (inList : b ∈ blocks) (member : entry ∈ live) (differs : entry.1 ≠ b.addr + 16)
    (above : entry.1 ≤ a) (below : a < entry.1 + entry.2) : ¬ InPayload b a := by
  obtain ⟨c, inC, -, place, fits⟩ := held.held entry member
  obtain ⟨stop, fills, -⟩ := ok.shape.fills
  have apart := fills.apart inC inList
  simp only [InPayload, Block.stop] at *
  rcases apart with rfl | before | after <;> omega

theorem LiveOk.unfreed (held : LiveOk blocks live) {b : Block} (member : entry ∈ live)
    (differs : entry.1 ≠ b.addr + 16) (above : entry.1 ≤ a) (below : a < entry.1 + entry.2) :
    ¬ ∀ u ∈ blocks, u.free = false → u ≠ b → ¬ InPayload u a := by
  intro unused
  obtain ⟨c, inList, used, place, fits⟩ := held.held entry member
  refine unused c inList used ?_ ⟨by omega, by simp only [Block.stop]; omega⟩
  rintro rfl
  exact differs place

theorem TaskInv.grows (inv : TaskInv whole m blocks tasks live) (grows : Grows m m')
    (recorded : ∀ p, (p, taskSize) ∈ tasks → Recorded m' tasks p)
    (mapped : whole → HeapMapped m') {blocks' : List Block} {live' : List (Nat × Nat)}
    (ok : HeapOk m' blocks') (held : LiveOk blocks' (tasks ++ live')) :
    TaskInv whole m' blocks' tasks live' := by
  obtain ⟨id, count, list⟩ := grows.tasks
  refine ⟨ok, held, ?_, ?_, ?_, grows.identity inv.writes, recorded, mapped⟩
  · rw [list]
    exact inv.list
  · rw [count]
    exact inv.count
  · rw [id, count]
    exact inv.ids.imp_right fun full => full.mono grows.marks

theorem TaskInv.enlarges (inv : TaskInv whole m blocks tasks live) {n : Nat}
    (enlarges : Enlarges blocks n m m') (left : whole → ExpandsMapped m n)
    {blocks' : List Block} {live' : List (Nat × Nat)} (ok : HeapOk m' blocks') (held : LiveOk blocks' (tasks ++ live')) :
    TaskInv whole m' blocks' tasks live' :=
  inv.grows enlarges.toGrows (fun p task => (inv.recorded p task).rewrites enlarges.rewrites
    fun _ above below unused =>
      unused (inv.held.inUse (mem_append_left live task) above below))
    (fun isWhole => enlarges.mapped (inv.mapped isWhole) (left isWhole)) ok held

theorem TaskInv.above (inv : TaskInv whole m blocks tasks live) (grows : Grows m m')
    (size : m'.heapSize = m.heapSize)
    (rewrites : Rewrites (heapEnd ≤ ·) (m.view allGood) (m'.view allGood))
    (ok : HeapOk m' blocks) : TaskInv whole m' blocks tasks live := by
  refine inv.grows grows (fun p task => (inv.recorded p task).rewrites rewrites ?_)
    (fun isWhole => (inv.mapped isWhole).mono rewrites size) ok inv.held
  intro a above below written
  have inUse := inv.heap.inUse_below (inv.held.inUse (mem_append_left live task) above below)
  have limit := inv.heap.limit
  omega

def StackLow (m : Machine) : Prop :=
  ∀ m1 task, kmalloc m taskSize = some (m1, task) → task ≠ 0 → StackTableLow (takeTaskId m1)

theorem StackTableLow.of_same (low : StackTableLow m) (same : SameBut m m') : StackTableLow m' := by
  intro page pmm allocated
  rw [same.pmm] at allocated
  have table := low page pmm allocated
  intro absent
  rw [same.nextTaskId] at absent
  refine table ?_
  change ¬ Present (m'.pageDirectory _) at absent
  rwa [same.pageDirectory] at absent

structure Creating (whole : Prop) (m : Machine) (blocks : List Block)
    (tasks live : List (Nat × Nat)) (b : Block) : Prop where
  heap : HeapOk m blocks
  held : LiveOk blocks (tasks ++ live)
  member : b ∈ blocks
  used : b.free = false
  fits : taskSize ≤ b.size
  apart : ∀ entry ∈ tasks ++ live, entry.1 ≠ b.addr + 16
  list : m.taskList ≠ 0 → (m.taskList, taskSize) ∈ tasks
  count : m.taskCount < maxTasks
  ids : m.nextTaskId = m.taskCount + 2 ∨ Exhausted m.pmm
  writes : Identity m.tableWrites
  recorded : ∀ p, (p, taskSize) ∈ tasks → Recorded m tasks p
  mapped : whole → HeapMapped m

variable {b : Block}

theorem Creating.begin (inv : TaskInv whole m blocks tasks live) (room : m.taskCount < maxTasks)
    (low : ExpandsLow m taskSize) (left : whole → ExpandsMapped m taskSize) {task : Nat}
    (nonzero : task ≠ 0) (allocated : kmalloc m taskSize = some (m', task)) :
    ∃ blocks' b, task = b.addr + 16 ∧ Creating whole (takeTaskId m') blocks' tasks live b := by
  obtain ⟨enlarges, blocks', effect⟩ := kmalloc_effect inv.heap taskSize task (by decide)
    (by decide) low allocated
  have inv' := inv.enlarges enlarges left effect.ok (inv.held.mono effect.kept)
  obtain ⟨b, member, used, rfl, fits, apart⟩ := effect.new nonzero
  obtain ⟨id, count, list⟩ := enlarges.tasks
  refine ⟨blocks', b, rfl, inv'.heap.tasks _ _ _, inv'.held, member, used, fits, ?_, inv'.list, ?_,
    ?_, inv'.writes, fun p task => (inv'.recorded p task).globals _ _ _, inv'.mapped⟩
  · intro entry inLive same
    obtain ⟨c, inList, usedC, place, -⟩ := inv.held.held entry inLive
    exact apart c inList usedC (by omega)
  · exact count.trans_lt room
  · refine inv'.ids.imp_left fun next => ?_
    simp only [takeTaskId, next]
    rw [word_eq]
    simp only [maxTasks] at room
    omega

section

variable (creating : Creating whole m blocks tasks live b)

include creating

theorem Creating.low : b.addr + 16 < heapEnd := by
  have inside := (creating.heap.shape.bounds b creating.member).2
  have limit := creating.heap.limit
  have fits := creating.fits
  simp only [Block.stop, taskSize] at *
  omega

theorem Creating.away (task : (p, taskSize) ∈ tasks) (above : p ≤ a) (below : a < p + taskSize) :
    ¬ InPayload b a ∧ a < heapEnd := by
  have inLive := mem_append_left live task
  have inUse := creating.heap.inUse_below (creating.held.inUse inLive above below)
  have limit := creating.heap.limit
  exact ⟨creating.held.away creating.heap creating.member inLive (creating.apart _ inLive) above below,
    by omega⟩

theorem Creating.stores (stores : Stores (fun a => InPayload b a ∨ heapEnd ≤ a) m m')
    (ok : HeapOk m' blocks) : Creating whole m' blocks tasks live b := by
  refine { creating with
    heap := ok, list := ?_, count := ?_, ids := ?_, writes := ?_, recorded := ?_
    mapped := fun isWhole => (creating.mapped isWhole).mono stores.rewrites stores.heapSize }
  · rw [stores.taskList]
    exact creating.list
  · rw [stores.taskCount]
    exact creating.count
  · rw [stores.nextTaskId, stores.taskCount, stores.pmm]
    exact creating.ids
  · rw [stores.tableWrites]
    exact creating.writes
  · intro p task
    refine (creating.recorded p task).rewrites stores.rewrites fun a above below written => ?_
    obtain ⟨outside, low⟩ := creating.away task above below
    rcases written with inPayload | high
    · exact outside inPayload
    · omega

theorem Creating.fill (stores : Stores (InPayload b) m m') (ok : HeapOk m' blocks) :
    Creating whole m' blocks tasks live b :=
  creating.stores (stores.mono fun _ => .inl) ok

theorem Creating.stack (low : StackTableLow m)
    (returned : createKernelStack m = some (m', stackTop)) :
    Creating whole m' blocks tasks live b ∧ m'.nextTaskId = m.nextTaskId ∧
      Rewrites (heapEnd ≤ ·) (m.view allGood) (m'.view allGood) ∧
      (stackTop = 0 ∧ Exhausted m'.pmm ∨
        stackTop = 0xE0000000 + m.nextTaskId * 0x1000 + 0x1000 ∧ m.nextTaskId ≤ 0x1000) := by
  have small := creating.count
  simp only [maxTasks] at small
  obtain ⟨ok, keeps, rewrites, outcome⟩ := createKernelStack_effect creating.heap
    (creating.ids.imp_left fun id => by omega) low returned
  obtain ⟨id, count, list⟩ := keeps.tasks
  refine ⟨?_, id, rewrites, outcome⟩
  refine { creating with
    heap := ok, list := ?_, count := ?_, ids := ?_, writes := keeps.toGrows.identity creating.writes
    recorded := ?_
    mapped := fun isWhole => (creating.mapped isWhole).mono rewrites keeps.heap.2 }
  · rw [list]
    exact creating.list
  · rw [count]
    exact creating.count
  · rw [id, count]
    exact creating.ids.imp_right fun full => full.mono keeps.marks
  · intro p task
    refine (creating.recorded p task).rewrites rewrites fun a above below high => ?_
    have low := (creating.away task above below).2
    omega

theorem Creating.cancel (full : Exhausted m.pmm) (freed : kfree m (b.addr + 16) = some m') :
    ∃ blocks', TaskInv whole m' blocks' tasks live := by
  obtain ⟨stores, blocks', ok', kept, -⟩ := (creating.heap.free b creating.member creating.used).post _ freed
  refine ⟨blocks', ok', creating.held.without b kept creating.apart, ?_, ?_,
    .inr (stores.pmm ▸ full), stores.tableWrites ▸ creating.writes, ?_,
    fun isWhole => (creating.mapped isWhole).mono stores.rewrites stores.heapSize⟩
  · rw [stores.taskList]
    exact creating.list
  · rw [stores.taskCount]
    exact Nat.le_of_lt creating.count
  · intro p task
    have inLive := mem_append_left live task
    exact (creating.recorded p task).rewrites stores.rewrites fun a above below =>
      creating.held.unfreed inLive (creating.apart _ inLive) above below

end

theorem linkTask_eq (m : Machine) (task : Nat) :
    linkTask m task = (linkChild m task).map fun m => setTaskList m task := by
  unfold linkTask linkChild
  by_cases empty : m.taskList = 0
  · simp only [empty, if_true, Machine.store, Option.map_map]
    rfl
  · simp only [empty, if_false, bind_eq_bind, map_eq_bind, bind_assoc,
      Option.pure_def, Function.comp_def]

theorem LiveOk.fields_apart (held : LiveOk blocks (tasks ++ live)) (ok : HeapOk m blocks)
    {q i j : Nat} (first : (p, taskSize) ∈ tasks) (second : (q, taskSize) ∈ tasks)
    (inFirst : i < taskSize) (inSecond : j < taskSize) (same : p + i = q + j) : i = j := by
  obtain ⟨c, inC, -, placeC, fitsC⟩ := held.held _ (mem_append_left live first)
  obtain ⟨d, inD, -, placeD, fitsD⟩ := held.held _ (mem_append_left live second)
  obtain ⟨stop, fills, -⟩ := ok.shape.fills
  have apart := fills.apart inC inD
  simp only [Block.stop] at *
  rcases apart with rfl | before | after <;> omega

theorem Recorded.add (recorded : Recorded m tasks p) (entry : Nat × Nat) :
    Recorded m (entry :: tasks) p := by
  obtain ⟨⟨next, link, inTasks⟩, stack⟩ := recorded
  exact ⟨⟨next, link, mem_cons_of_mem _ inTasks⟩, stack⟩

theorem TaskInv.setTaskList (inv : TaskInv whole m blocks tasks live)
    (member : (p, taskSize) ∈ tasks) : TaskInv whole (Memory.setTaskList m p) blocks tasks live :=
  { inv with
    heap := inv.heap.tasks _ _ _
    list := fun _ => member
    recorded := fun q task => (inv.recorded q task).globals _ _ _
    mapped := inv.mapped }

section

variable (creating : Creating whole m blocks tasks live b)

include creating

theorem Creating.finish (same : Stores (fun _ => True) m m') (ok : HeapOk m' blocks)
    (recorded : ∀ p, (p, taskSize) ∈ (b.addr + 16, taskSize) :: tasks →
      Recorded m' ((b.addr + 16, taskSize) :: tasks) p) :
    TaskInv whole (countTask m') blocks ((b.addr + 16, taskSize) :: tasks) live := by
  have small := creating.count
  have count : word (m'.taskCount + 1) = m.taskCount + 1 := by
    rw [same.taskCount, word_eq]
    simp only [maxTasks] at small
    omega
  refine ⟨ok.tasks _ _ _, creating.held.add b taskSize creating.member creating.used creating.fits
    creating.apart, ?_, ?_, ?_, ?_, fun p task => (recorded p task).globals _ _ _,
    fun isWhole => (creating.mapped isWhole).mono same.rewrites same.heapSize⟩
  · intro hasList
    rw [countTask, same.taskList] at hasList ⊢
    exact mem_cons_of_mem _ (creating.list hasList)
  · rw [countTask, count]
    exact small
  · simp only [countTask, count, same.nextTaskId, same.pmm]
    exact creating.ids
  · rw [countTask, same.tableWrites]
    exact creating.writes

theorem Creating.inside (offset : Nat) (small : offset < taskSize) :
    InPayload b (b.addr + 16 + offset) := by
  have fits := creating.fits
  simp only [InPayload, Block.stop]
  omega

theorem Creating.linkFirst (id : Nat) (known : m.view allGood (b.addr + 16) = some id)
    (stack : m.view allGood (stackAddress (id + 1)) ≠ none)
    (stored : m.store (b.addr + 16 + 32) (b.addr + 16) = some m') :
    TaskInv whole (countTask m') blocks ((b.addr + 16, taskSize) :: tasks) live := by
  have inside := creating.inside 32 (by decide)
  obtain ⟨stores, ok', link⟩ := creating.heap.storeWord b creating.member _ _ inside.1 inside.2 stored
  refine creating.finish (stores.mono fun _ _ => trivial) ok' fun p task => ?_
  simp only [mem_cons, Prod.mk.injEq, and_true] at task
  rcases task with rfl | task
  · refine ⟨⟨_, link, mem_cons_self⟩, id, ?_, stores.rewrites.readable stack⟩
    rw [stores.rewrites.same (by omega)]
    exact known
  · refine Recorded.add ((creating.recorded p task).rewrites stores.rewrites ?_) _
    rintro a above below rfl
    exact (creating.away task above below).1 inside

theorem Creating.linkLast (id last next : Nat) {m1 : Machine}
    (known : m.view allGood (b.addr + 16) = some id)
    (stack : m.view allGood (stackAddress (id + 1)) ≠ none) (isLast : (last, taskSize) ∈ tasks)
    (loaded : m.load (last + 32) = some next) (stored : m.store (b.addr + 16 + 32) next = some m1)
    (linked : m1.store (last + 32) (b.addr + 16) = some m') :
    TaskInv whole (countTask m') blocks ((b.addr + 16, taskSize) :: tasks) live := by
  have inside := creating.inside 32 (by decide)
  obtain ⟨stores1, ok1, link1⟩ :=
    creating.heap.storeWord b creating.member _ _ inside.1 inside.2 stored
  obtain ⟨c, inList, -, place, fits⟩ := creating.held.held _ (mem_append_left live isLast)
  simp only [taskSize] at place fits
  obtain ⟨stores2, ok2, link2⟩ := ok1.storeWord c inList _ _ (by omega)
    (by simp only [Block.stop]; omega) linked
  have away := (creating.away isLast (a := last + 32) (by omega) (by simp only [taskSize]; omega)).1
  have start := creating.inside 0 (by decide)
  have others : ∀ a, a ≠ b.addr + 16 + 32 → a ≠ last + 32 →
      m'.view allGood a = m.view allGood a := by
    intro a first second
    rw [stores2.rewrites.same second, stores1.rewrites.same first]
  have readable : ∀ a, m.view allGood a ≠ none → m'.view allGood a ≠ none :=
    fun a readable => stores2.rewrites.readable (stores1.rewrites.readable readable)
  refine creating.finish ((stores1.mono fun _ _ => trivial).trans (stores2.mono fun _ _ => trivial))
    ok2 fun p task => ?_
  simp only [mem_cons, Prod.mk.injEq, and_true] at task
  rcases task with rfl | task
  · refine ⟨⟨next, ?_, ?_⟩, id, ?_, readable _ stack⟩
    · rw [stores2.rewrites.same fun here => away (here ▸ inside)]
      exact link1
    · obtain ⟨successor, link, inTasks⟩ := (creating.recorded last isLast).next
      rw [creating.heap.sees.load _ link, some.injEq] at loaded
      exact mem_cons_of_mem _ (loaded ▸ inTasks)
    · rw [others _ (by omega) fun here => away (here ▸ start)]
      exact known
  · obtain ⟨⟨successor, link, inTasks⟩, taskId, field, page⟩ := creating.recorded p task
    refine ⟨?_, taskId, ?_, readable _ page⟩
    · by_cases here : p = last
      · exact ⟨_, here ▸ link2, mem_cons_self⟩
      · refine ⟨successor, ?_, mem_cons_of_mem _ inTasks⟩
        rw [others _ (fun same => ?_) (by omega)]
        · exact link
        · exact (creating.away task (a := p + 32) (by omega) (by simp only [taskSize]; omega)).1
            (same ▸ inside)
    · rw [others p (fun same => ?_) fun same => absurd (creating.held.fields_apart creating.heap task
        isLast (i := 0) (by decide) (by decide) same) (by decide)]
      · exact field
      · exact (creating.away task (a := p) (by omega) (by simp only [taskSize]; omega)).1
          (same ▸ inside)

theorem Creating.link (id : Nat) (known : m.view allGood (b.addr + 16) = some id)
    (stack : m.view allGood (stackAddress (id + 1)) ≠ none)
    (linked : linkChild m (b.addr + 16) = some m') :
    TaskInv whole (countTask m') blocks ((b.addr + 16, taskSize) :: tasks) live := by
  unfold linkChild at linked
  by_cases empty : m.taskList = 0
  · rw [if_pos empty] at linked
    obtain ⟨m1, stored, rfl⟩ : ∃ m1, m.store (b.addr + 16 + 32) (b.addr + 16) = some m1 ∧
        Memory.setTaskList m1 (b.addr + 16) = m' := by
      obtain ⟨physical, reached, rfl⟩ := map_eq_some_iff.mp linked
      exact ⟨_, map_eq_some_iff.mpr ⟨physical, reached, rfl⟩, rfl⟩
    exact (creating.linkFirst id known stack stored).setTaskList mem_cons_self
  · rw [if_neg empty] at linked
    obtain ⟨next, loaded, linked⟩ := bind_eq_some_iff.mp linked
    obtain ⟨m1, stored, linked⟩ := bind_eq_some_iff.mp linked
    rw [(store_same stored).taskList] at linked
    exact creating.linkLast id m.taskList next known stack (creating.list empty) loaded stored linked

theorem startTask_inv {id : Nat} {r : TaskRequest} (known : m.view allGood (b.addr + 16) = some id)
    (next : m.nextTaskId = word (id + 1)) (small : m.nextTaskId ≤ 0x1000)
    (top : stackTop = 0xE0000000 + m.nextTaskId * 0x1000 + 0x1000)
    (returned : startTask m (b.addr + 16) stackTop r = some m') :
    TaskInv whole m' blocks ((b.addr + 16, taskSize) :: tasks) live := by
  have fits := creating.fits
  simp only [taskSize] at fits
  unfold startTask at returned
  rw [wordSub_eq stackTop 24 (by omega) (by omega)] at returned
  obtain ⟨m1, frame, returned⟩ := bind_eq_some_iff.mp returned
  obtain ⟨m2, fields, returned⟩ := bind_eq_some_iff.mp returned
  obtain ⟨m3, linked, returned⟩ := bind_eq_some_iff.mp returned
  obtain rfl := some.inj returned
  obtain ⟨stores1, ok1⟩ := creating.heap.storeFieldsAbove _
    (by simp only [heapEnd, heapBase, heapMaxSize]; omega) _ frame
  have creating1 := creating.stores (stores1.mono fun _ => .inr) ok1
  obtain ⟨stores2, ok2, same2⟩ := ok1.storeRest b creating.member _ (by
    intro field inFields
    simp only [mem_cons, not_mem_nil, or_false] at inFields
    rcases inFields with rfl | rfl | rfl <;> omega) fields
  have creating2 := creating1.fill stores2 ok2
  rw [linkTask_eq, map_eq_some_iff] at linked
  obtain ⟨m4, linked, rfl⟩ := linked
  -- The frame was written, so the page of the stack is there.
  have page : m.view allGood (stackAddress (id + 1)) ≠ none := by
    obtain ⟨m0, first, -⟩ := bind_eq_some_iff.mp frame
    rw [← stackAddress_word, ← next, stackAddress_eq small]
    refine creating.heap.stored_page _ _ _ ?_ first ?_ ?_
    · simp only [heapBase]
      omega
    · simp only [pageSize]
      omega
    · omega
  have inv := creating2.link id (by
    rw [same2, stores1.rewrites.same (Nat.not_le.mpr creating.low)]
    exact known) (stores2.rewrites.readable (stores1.rewrites.readable page)) linked
  exact inv.setTaskList mem_cons_self

end

/-- The way that `task_create` and `sys_fork` share: a structure from the heap, its fields, a
stack, and the structure given back when there is none. -/
theorem newTask_inv (inv : TaskInv whole m blocks tasks live) (p : Nat)
    (room : m.taskCount < maxTasks) (expandsLow : ExpandsLow m taskSize) (stackLow : StackLow m)
    (left : whole → ExpandsMapped m taskSize) (fill : Machine → Nat → Option Machine)
    (start : Machine → Nat → Nat → Option Machine)
    (fills : ∀ m1 m2 blocks1 b, Creating whole (takeTaskId m1) blocks1 tasks live b →
      fill m1 (b.addr + 16) = some m2 →
      Stores (InPayload b) (takeTaskId m1) m2 ∧ HeapOk m2 blocks1 ∧
        m2.view allGood (b.addr + 16) = some m1.nextTaskId)
    (starts : ∀ m3 m4 blocks1 b id stackTop, Creating whole m3 blocks1 tasks live b →
      m3.view allGood (b.addr + 16) = some id → m3.nextTaskId = word (id + 1) →
      m3.nextTaskId ≤ 0x1000 → stackTop = 0xE0000000 + m3.nextTaskId * 0x1000 + 0x1000 →
      start m3 (b.addr + 16) stackTop = some m4 →
      TaskInv whole m4 blocks1 ((b.addr + 16, taskSize) :: tasks) live)
    (returned : (do
      let (m, task) ← kmalloc m taskSize
      if task = 0 then return (m, 0)
      else
        let m ← fill m task
        let (m, stackTop) ← createKernelStack m
        if stackTop = 0 then
          let m ← kfree m task
          return (m, 0)
        else
          let m ← start m task stackTop
          return (m, task)) = some (m', p)) :
    ∃ blocks', TaskInv whole m' blocks' (if p = 0 then tasks else (p, taskSize) :: tasks) live := by
  obtain ⟨⟨m1, task⟩, allocated, returned⟩ := bind_eq_some_iff.mp returned
  by_cases null : task = 0
  · simp only [null, if_true, pure] at returned
    cases returned
    obtain ⟨enlarges, blocks1, effect⟩ := kmalloc_effect inv.heap taskSize task (by decide)
      (by decide) expandsLow allocated
    exact ⟨blocks1, by simpa using inv.enlarges enlarges left effect.ok (inv.held.mono effect.kept)⟩
  obtain ⟨blocks1, b, rfl, creating1⟩ := Creating.begin inv room expandsLow left null allocated
  simp only [null, if_false] at returned
  obtain ⟨m2, filled, returned⟩ := bind_eq_some_iff.mp returned
  obtain ⟨stores2, ok2, known2⟩ := fills m1 m2 blocks1 b creating1 filled
  have creating2 := creating1.fill stores2 ok2
  obtain ⟨⟨m3, stackTop⟩, stacked, returned⟩ := bind_eq_some_iff.mp returned
  obtain ⟨creating3, id3, rewrites3, outcome⟩ := creating2.stack
    ((stackLow m1 _ allocated null).of_same stores2.toSameBut) stacked
  rcases outcome with ⟨rfl, none⟩ | ⟨top, small⟩
  · simp only [if_true] at returned
    obtain ⟨m4, freed, returned⟩ := bind_eq_some_iff.mp returned
    cases returned
    simpa using creating3.cancel none freed
  · have nonzero : stackTop ≠ 0 := by omega
    simp only [nonzero, if_false] at returned
    obtain ⟨m4, started, returned⟩ := bind_eq_some_iff.mp returned
    cases returned
    simp only [null, if_false]
    rw [← id3] at top small
    refine ⟨blocks1, starts m3 _ blocks1 b m1.nextTaskId stackTop creating3 ?_ ?_ small top started⟩
    · rw [rewrites3.same (Nat.not_le.mpr creating2.low)]
      exact known2
    · exact id3.trans stores2.nextTaskId

theorem taskCreate_inv (inv : TaskInv whole m blocks tasks live) {r : TaskRequest} {p : Nat}
    (low : m.taskCount < maxTasks → ExpandsLow m taskSize ∧ StackLow m)
    (left : whole → m.taskCount < maxTasks → ExpandsMapped m taskSize)
    (returned : taskCreate m r = some (m', p)) :
    ∃ blocks', TaskInv whole m' blocks' (if p = 0 then tasks else (p, taskSize) :: tasks) live := by
  unfold taskCreate at returned
  by_cases full : maxTasks ≤ m.taskCount
  · rw [if_pos full] at returned
    cases returned
    exact ⟨blocks, by simpa using inv⟩
  · rw [if_neg full] at returned
    have room : m.taskCount < maxTasks := Nat.not_le.mp full
    exact newTask_inv inv p room (low room).1 (low room).2 (fun isWhole => left isWhole room)
      (fun m task => fillTask (takeTaskId m) task m.nextTaskId r)
      (fun m task stackTop => startTask m task stackTop r)
      (fun m1 m2 blocks1 b creating filled =>
        creating.heap.fillTask b creating.member creating.fits _ r filled)
      (fun m3 m4 blocks1 b id stackTop creating known next small top started =>
        startTask_inv creating known next small top started) returned

end

end ArgoOS.Memory
