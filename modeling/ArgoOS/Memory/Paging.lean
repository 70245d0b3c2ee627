import ArgoOS.Memory.Pmm

set_option autoImplicit false

/-!
# Paging

The page tables of `paging.c` and the memory accesses that go through them. The
kernel's own arrays lie in the reserved pages below `frames`; everything the
allocator hands out is in `ram`, word by word under its physical address. A page
fault, and an access that leaves `ram`, have no result.
-/

namespace ArgoOS.Memory

-- A word that `paging_map_page` stored through a pointer, and where it went.
structure TableWrite where
  pointer : Nat
  physical : Nat
deriving DecidableEq, Repr

structure Machine where
  ram : Nat → Nat
  pmm : Pmm
  pageDirectory : Nat → Nat
  firstPageTable : Nat → Nat
  -- The address the linker gave to `first_page_table`.
  firstPageTableAt : Nat
  heapStart : Nat
  heapSize : Nat
  heapUsed : Nat
  nextTaskId : Nat
  taskCount : Nat
  taskList : Nat
  -- Newest first; no code reads it.
  tableWrites : List TableWrite

def pagePresent : Nat := 0x001
def pageWritable : Nat := 0x002
def pageUser : Nat := 0x004
def heapBase : Nat := 0x400000

def Present (entry : Nat) : Prop := entry &&& pagePresent ≠ 0

instance (entry : Nat) : Decidable (Present entry) := inferInstanceAs (Decidable (_ ≠ _))

def pageAddress (entry : Nat) : Nat := entry / pageSize * pageSize

namespace Machine

def withPmm (m : Machine) (pmm : Pmm) : Machine := { m with pmm }

def frames (m : Machine) : Nat := reservedPages m.pmm.bitmapSize

def tableEntry (m : Machine) (table index : Nat) : Nat :=
  if table = m.firstPageTableAt then m.firstPageTable index else m.ram (table + 4 * index)

def pdIndex (virtualAddr : Nat) : Nat := virtualAddr / 0x400000
def ptIndex (virtualAddr : Nat) : Nat := virtualAddr / pageSize % 1024

-- The walk of the processor over the directory and the table.
def translate (m : Machine) (virtualAddr : Nat) : Option Nat :=
  let directoryEntry := m.pageDirectory (pdIndex virtualAddr)
  if Present directoryEntry then
    let entry := m.tableEntry (pageAddress directoryEntry) (ptIndex virtualAddr)
    if Present entry then some (pageAddress entry + virtualAddr % pageSize) else none
  else none

def ramAddress (m : Machine) (virtualAddr : Nat) : Option Nat :=
  match m.translate virtualAddr with
  | some physical =>
    if physical < m.frames * pageSize ∨ physical % 4 ≠ 0 then none else some physical
  | none => none

def load (m : Machine) (virtualAddr : Nat) : Option Nat :=
  (m.ramAddress virtualAddr).map m.ram

def store (m : Machine) (virtualAddr value : Nat) : Option Machine :=
  (m.ramAddress virtualAddr).map fun physical =>
    { m with ram := Function.update m.ram physical value }

end Machine

open Machine

def pagingGetPhysical (m : Machine) (virtualAddr : Nat) : Nat :=
  (m.translate virtualAddr).getD 0

-- One word of a page table, with the write kept on record.
def storeTableWord (m : Machine) (pointer value : Nat) : Option Machine :=
  let write : TableWrite := ⟨pointer, pagingGetPhysical m pointer⟩
  if pageAddress pointer = m.firstPageTableAt then
    some { m with
      firstPageTable := Function.update m.firstPageTable (pointer % pageSize / 4) value }
  else (m.store pointer value).map fun m => { m with tableWrites := write :: m.tableWrites }

def clearTable (m : Machine) (table : Nat) : Nat → Option Machine
  | 0 => some m
  | n + 1 => do
    let m ← clearTable m table n
    storeTableWord m (table + 4 * n) 0

-- The address of the new table, 0 when no page is left.
def pagingCreatePageTable (m : Machine) : Option (Machine × Nat) :=
  match pmmAllocPage m.pmm with
  | none => some (m, 0)
  | some (page, pmm) => do
    let table := page * pageSize
    let m ← clearTable (m.withPmm pmm) table 1024
    return (m, table)

def pagingInit (m : Machine) : Machine :=
  { m with
    firstPageTable := fun i => i * pageSize ||| pagePresent ||| pageWritable
    pageDirectory := fun i =>
      if i = 0 then m.firstPageTableAt ||| pagePresent ||| pageWritable else 0 }

def setTableEntry (m : Machine) (virtualAddr physicalAddr flags : Nat) : Option Machine :=
  storeTableWord m (pageAddress (m.pageDirectory (pdIndex virtualAddr)) + 4 * ptIndex virtualAddr)
    (physicalAddr ||| flags)

def setDirectoryEntry (m : Machine) (index entry : Nat) : Machine :=
  { m with pageDirectory := Function.update m.pageDirectory index entry }

def pagingMapPage (m : Machine) (virtualAddr physicalAddr flags : Nat) : Option Machine :=
  if Present (m.pageDirectory (pdIndex virtualAddr)) then
    setTableEntry m virtualAddr physicalAddr flags
  else do
    let (m, table) ← pagingCreatePageTable m
    if table = 0 then return m
    else
      let m := setDirectoryEntry m (pdIndex virtualAddr) (table ||| pagePresent ||| pageWritable)
      setTableEntry m virtualAddr physicalAddr flags

def pagingUnmapPage (m : Machine) (virtualAddr : Nat) : Option Machine :=
  if Present (m.pageDirectory (pdIndex virtualAddr)) then
    storeTableWord m (pageAddress (m.pageDirectory (pdIndex virtualAddr)) + 4 * ptIndex virtualAddr) 0
  else some m

def loadTableWord (m : Machine) (pointer : Nat) : Option Nat :=
  if pageAddress pointer = m.firstPageTableAt then some (m.firstPageTable (pointer % pageSize / 4))
  else m.load pointer

-- The same lookup with the table read as the code reads it, through a pointer.
def pagingReadPhysical (m : Machine) (virtualAddr : Nat) : Option Nat :=
  if Present (m.pageDirectory (pdIndex virtualAddr)) then do
    let entry ← loadTableWord m
      (pageAddress (m.pageDirectory (pdIndex virtualAddr)) + 4 * ptIndex virtualAddr)
    return if Present entry then pageAddress entry + virtualAddr % pageSize else 0
  else some 0

end ArgoOS.Memory
