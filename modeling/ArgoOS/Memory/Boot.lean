import ArgoOS.Memory.HeapInvariant

set_option autoImplicit false

/-! # Booting the memory -/

namespace ArgoOS.Memory

open Machine Blocks Option

-- What the kernel finds: the memory, the boot loader's record and where the linker put
-- `first_page_table`.
structure BootConfig where
  ram : Nat → Nat
  info : MultibootInfo
  firstPageTableAt : Nat
  aligned : firstPageTableAt % pageSize = 0
  image : firstPageTableAt < 0x200000

theorem tableAt_aligned : 0x105000 % pageSize = 0 := by decide

theorem tableAt_image : 0x105000 < 0x200000 := by decide

def beforeHeap (config : BootConfig) : Machine :=
  pagingInit
    { ram := config.ram
      pmm := pmmInit config.info
      pageDirectory := fun _ => 0
      firstPageTable := fun _ => 0
      firstPageTableAt := config.firstPageTableAt
      heapStart := 0
      heapSize := 0
      heapUsed := 0
      nextTaskId := 1
      taskCount := 0
      taskList := 0
      tableWrites := [] }

def boot (config : BootConfig) : Option Machine := heapInit (beforeHeap config)

theorem beforeHeap_mapping (config : BootConfig) :
    Mapping (beforeHeap config) allGood (fun _ => none) (fun _ => none) where
  aligned := config.aligned
  image := config.image
  lowDirectory := by
    have whole : config.firstPageTableAt = config.firstPageTableAt / pageSize * pageSize := by
      have aligned := config.aligned
      simp only [pageSize] at *
      omega
    change config.firstPageTableAt ||| pagePresent ||| pageWritable = config.firstPageTableAt + 3
    rw [whole, Nat.or_assoc, frame_or_flags]
  lowTable := by
    intro j _
    change j * pageSize ||| pagePresent ||| pageWritable = _
    rw [Nat.or_assoc, frame_or_flags]
  pmm := pmmInit_ok config.info
  directory := by
    intro i high _
    simp [beforeHeap, pagingInit, tableWord, Nat.ne_of_gt high]
  entries := by simp
  unmapped := by simp
  tableLow := by simp
  pageHigh := by simp
  tablesApart := by simp
  pagesApart := by simp
  apart := by simp

section

variable {m m' : Machine}

theorem pagingMapPage_nextPresent {pmm : Pmm} {v physicalAddr flags : Nat}
    (inside : v % 0x400000 + pageSize < 0x400000)
    (present : Present (m.pageDirectory (pdIndex v)))
    (mapped : pagingMapPage (m.withPmm pmm) v physicalAddr flags = some m') :
    Present (m'.pageDirectory (pdIndex (v + pageSize))) := by
  have sameTable : pdIndex (v + pageSize) = pdIndex v := by
    simp only [pdIndex, pageSize] at *
    omega
  rw [pagingMapPage, if_pos (by exact present)] at mapped
  rw [sameTable, (storeTableWord_keeps mapped).pageDirectory]
  exact present

section

variable (n virtualAddr : Nat) (inside : virtualAddr % 0x400000 + n * pageSize ≤ 0x400000)
    (present : Present (m.pageDirectory (pdIndex virtualAddr)))

include n virtualAddr inside present

theorem tablesLow_of_present : TablesLow n virtualAddr m := by
  induction n generalizing virtualAddr m with
  | zero => trivial
  | succ n ih =>
    intro page pmm _
    refine ⟨fun absent => absurd present absent, ?_⟩
    intro m' mapped
    cases n with
    | zero => trivial
    | succ n =>
      refine ih _ ?_ (pagingMapPage_nextPresent ?_ present mapped)
      · simp only [pageSize] at *
        omega
      · simp only [pageSize] at *
        omega

theorem tableLeft_of_present : TableLeft n virtualAddr m := by
  induction n generalizing virtualAddr m with
  | zero => trivial
  | succ n ih =>
    cases n with
    | zero => exact fun page pmm _ absent => absurd present absent
    | succ n =>
      intro page pmm _ m' mapped
      refine ih _ ?_ (pagingMapPage_nextPresent ?_ present mapped)
      · simp only [pageSize] at *
        omega
      · simp only [pageSize] at *
        omega

end

theorem clearTable_unmapped {table : Nat} (n : Nat) (outside : pageAddress table ≠ m.firstPageTableAt)
    (fault : m.translate table = none) : clearTable m table (n + 1) = none := by
  induction n with
  | zero => simp [clearTable, storeTableWord, outside, store, ramAddress, fault]
  | succ n ih => rw [clearTable, ih]; rfl

theorem pagingMapPage_present {virtualAddr physicalAddr flags : Nat} (ok : PmmOk m.pmm)
    (mapped : pagingMapPage m virtualAddr physicalAddr flags = some m') :
    Present (m'.pageDirectory (pdIndex virtualAddr)) ∨
      (pmmAllocPage m.pmm = none ∧ m' = m) := by
  cases pagingMapPage_cases ok mapped with
  | table present keeps =>
    rw [keeps.pageDirectory]
    exact .inl present
  | exhausted absent none same => exact .inr ⟨none, same⟩
  | newTable page pmm absent allocated pmm' directory =>
    rw [directory, Function.update_self]
    exact .inl (frame_present page)

theorem beforeHeap_tablesLow {config : BootConfig} {n : Nat} {result : Machine × Bool}
    (small : n < 1024)
    (returned : mapPages (n + 1) heapBase (beforeHeap config) = some result) :
    TablesLow (n + 1) heapBase (beforeHeap config) := by
  intro page pmm allocated
  have mapping := beforeHeap_mapping config
  obtain ⟨mapping1, fresh⟩ := mapping.alloc page pmm allocated
  refine ⟨?_, ?_⟩
  · intro absent f pmm' allocatedTable
    by_contra high
    have inRam : reservedPages (pmmInit config.info).bitmapSize ≤ f := by
      by_contra low
      obtain ⟨free, -, bound, -⟩ := pmmAllocPage_some allocatedTable
      refine free (mapping1.pmm.reserved f ?_ bound)
      obtain ⟨-, -, -, rfl⟩ := pmmAllocPage_some allocated
      exact Nat.not_le.mp low
    have fault : ((beforeHeap config).withPmm pmm |>.withPmm pmm').translate (f * pageSize) =
        none := by
      have index : 1 ≤ pdIndex (f * pageSize) := by
        simp only [pdIndex, pageSize]
        omega
      simp [Machine.translate, Machine.withPmm, beforeHeap, pagingInit, Nat.ne_of_gt index, Present]
    have outside : pageAddress (f * pageSize) ≠ config.firstPageTableAt := by
      have image := config.image
      simp only [pageAddress, pageSize] at *
      omega
    have cleared := clearTable_unmapped 1023 (by exact outside) fault
    rw [mapPages, allocated] at returned
    simp only at returned
    rw [word_eq heapBase (by decide), pagingMapPage, if_neg absent, pagingCreatePageTable,
      allocatedTable] at returned
    simp [cleared] at returned
  · intro m' mapped
    rcases pagingMapPage_present mapping1.pmm mapped with present | ⟨full, rfl⟩
    · apply tablesLow_of_present
      · simp only [heapBase, pageSize]
        omega
      · exact present
    · cases n with
      | zero => trivial
      | succ n =>
        intro page' pmm' allocated'
        rw [full] at allocated'
        contradiction

-- The pages of the first heap share one table, and it is the first of them that asks for it.
theorem beforeHeap_tableLeft (config : BootConfig) (n : Nat) (small : n < 1023) :
    TableLeft (n + 2) heapBase (beforeHeap config) := by
  intro page pmm allocated m' mapped
  obtain ⟨mapping1, -⟩ := (beforeHeap_mapping config).alloc page pmm allocated
  rcases pagingMapPage_present mapping1.pmm mapped with present | ⟨full, rfl⟩
  · apply tableLeft_of_present
    · simp only [heapBase, pageSize]
      omega
    · exact present
  · cases n with
    | zero =>
      intro page' pmm' allocated'
      rw [full] at allocated'
      contradiction
    | succ n =>
      intro page' pmm' allocated'
      rw [full] at allocated'
      contradiction

end

def firstBlock : Block := ⟨heapBase, heapInitialSize - headerSize, true⟩

theorem firstBlock_shape : Shape [firstBlock] (heapBase + heapInitialSize) := by
  refine ⟨⟨⟨firstBlock.stop, ⟨rfl, rfl⟩, by decide⟩, ?_⟩, by simp⟩
  intro b member
  rw [List.mem_singleton] at member
  rw [member]
  decide

def withHeap (m : Machine) : Machine :=
  { m with heapSize := heapInitialSize, heapStart := heapBase, heapUsed := 0 }

-- Without a first heap no page is left, and `kmalloc` finds neither a block nor a page.
def NoHeap (m : Machine) : Prop := m.heapStart = 0 ∧ m.heapSize = 0 ∧ Exhausted m.pmm

theorem boot_effect {config : BootConfig} {m : Machine} (booted : boot config = some m) :
    (NoHeap m ∨ HeapOk m [firstBlock] ∧ HeapMapped m ∧ m.heapSize = heapInitialSize) ∧
      (∃ tables pages, Mapping m allGood tables pages) ∧ Grows (beforeHeap config) m := by
  have mapping := beforeHeap_mapping config
  obtain ⟨⟨m1, mapped⟩, pages, booted⟩ := bind_eq_some_iff.mp booted
  have low := beforeHeap_tablesLow (by decide) pages
  obtain ⟨m1', mapped', returned, mapping1, -, keeps, -, full, readable⟩ := mapPages_effect 256 heapBase ⟨_, _, mapping⟩ (by decide) (by decide) (by decide) (fun _ _ _ => rfl) low
  obtain ⟨rfl, rfl⟩ : m1' = m1 ∧ mapped' = mapped := by
    have same := returned.symm.trans pages
    simpa using same
  cases mapped' with
  | false =>
    simp only [Bool.false_eq_true, if_false, pure] at booted
    cases booted
    exact ⟨.inl ⟨keeps.heap.1, keeps.heap.2, full rfl⟩, mapping1, keeps.toGrows⟩
  | true =>
    simp only [if_true] at booted
    obtain ⟨tables, pages, mapping1⟩ := mapping1
    have sees1 : Sees (withHeap m1') (m1'.view allGood) := ⟨⟨tables, pages, { mapping1 with }⟩, rfl⟩
    obtain ⟨m2, stored, booted⟩ := bind_eq_some_iff.mp booted
    obtain ⟨sees2, same2⟩ := sees1.store _ _ (by decide) stored
    obtain ⟨m3, stored, booted⟩ := bind_eq_some_iff.mp booted
    obtain ⟨sees3, same3⟩ := sees2.store _ _ (by decide) stored
    obtain ⟨m4, stored, booted⟩ := bind_eq_some_iff.mp booted
    obtain ⟨sees4, same4⟩ := sees3.store _ _ (by decide) stored
    obtain ⟨sees5, same5⟩ := sees4.store _ _ (by decide) booted
    have same := ((same2.trans same3).trans same4).trans same5
    have grown : Grows m1' (withHeap m1') := ⟨.refl _, ⟨rfl, rfl, rfl⟩, [], by simp [Identity], rfl⟩
    change Sees m (writeHeader (m1'.view allGood) firstBlock 0 0) at sees5
    refine ⟨.inr ⟨⟨⟨sees5.mapping, rfl⟩, ?_, ?_, by simp, ?_, ?_, ?_⟩, ?_, same.heapSize⟩, sees5.mapping,
      (keeps.toGrows.trans grown).trans same.grows⟩
    · rw [sees5.view]
      exact ⟨writeHeader_header _ _ _ _, trivial⟩
    · rw [same.heapSize]
      exact firstBlock_shape
    · exact same.heapStart
    · rw [same.heapSize]
      exact show heapInitialSize % pageSize = 0 by decide
    · rw [same.heapSize]
      exact show heapInitialSize ≤ heapMaxSize by decide
    · intro a base below aligned
      rw [same.heapSize] at below
      have known := readable rfl (beforeHeap_tableLeft config 254 (by decide)) a base below aligned
      have written : Rewrites (fun _ => True) (m1'.view allGood)
          (writeHeader (m1'.view allGood) firstBlock 0 0) := rewrites_header 0 0 fun _ _ _ => trivial
      rw [sees5.view]
      exact written.readable known

end ArgoOS.Memory
