import ArgoOS.Memory.Paging

set_option autoImplicit false

/-!
# The kernel heap

The allocator of `heap.c`. A block header is four words, `size`, `free`, `next` and
`prev`, read and written through the page tables. Machine words are naturals below
`2 ^ 32`; a list that is followed past every possible block has no result.
-/

namespace ArgoOS.Memory

open Machine

def word (n : Nat) : Nat := n % 0x100000000

def wordSub (a b : Nat) : Nat := (a + (0x100000000 - b % 0x100000000)) % 0x100000000

def heapInitialSize : Nat := 0x100000
def heapMaxSize : Nat := 0x4000000
def headerSize : Nat := 16

-- More blocks than fit into the largest heap.
def blockLimit : Nat := heapMaxSize / headerSize

def findFreeBlock (m : Machine) (size : Nat) : Nat → Nat → Option Nat
  | 0, current => if current = 0 then some 0 else none
  | fuel + 1, current =>
    if current = 0 then some 0
    else do
      let free ← m.load (current + 4)
      let blockSize ← m.load current
      if free ≠ 0 ∧ size ≤ blockSize then return current
      else
        let next ← m.load (current + 8)
        findFreeBlock m size fuel next

def setPrev (m : Machine) (block prev : Nat) : Option Machine :=
  if block ≠ 0 then m.store (block + 12) prev else some m

def splitBlock (m : Machine) (block size : Nat) : Option Machine := do
  let blockSize ← m.load block
  if headerSize + 4 ≤ wordSub blockSize size then
    let newBlock := word (block + headerSize + size)
    let m ← m.store newBlock (wordSub (wordSub blockSize size) headerSize)
    let m ← m.store (newBlock + 4) 1
    let next ← m.load (block + 8)
    let m ← m.store (newBlock + 8) next
    let m ← m.store (newBlock + 12) block
    let next ← m.load (block + 8)
    let m ← setPrev m next newBlock
    let m ← m.store (block + 8) newBlock
    m.store block size
  else return m

def mergeNext (m : Machine) (block : Nat) : Option Machine := do
  let next ← m.load (block + 8)
  if next = 0 then return m
  else
    let free ← m.load (next + 4)
    if free = 0 then return m
    else
      let blockSize ← m.load block
      let nextSize ← m.load next
      let m ← m.store block (word (blockSize + (headerSize + nextSize)))
      let after ← m.load (next + 8)
      let m ← m.store (block + 8) after
      let next ← m.load (block + 8)
      setPrev m next block

def mergePrev (m : Machine) (block : Nat) : Option Machine := do
  let prev ← m.load (block + 12)
  if prev = 0 then return m
  else
    let free ← m.load (prev + 4)
    if free = 0 then return m
    else
      let prevSize ← m.load prev
      let blockSize ← m.load block
      let m ← m.store prev (word (prevSize + (headerSize + blockSize)))
      let next ← m.load (block + 8)
      let m ← m.store (prev + 8) next
      let next ← m.load (block + 8)
      setPrev m next prev

def mergeBlocks (m : Machine) (block : Nat) : Option Machine := do
  let m ← mergeNext m block
  mergePrev m block

-- The loop of `expand_heap` and `heap_init`: false when no page was left.
def mapPages : Nat → Nat → Machine → Option (Machine × Bool)
  | 0, _, m => some (m, true)
  | n + 1, virtualAddr, m =>
    match pmmAllocPage m.pmm with
    | none => some (m, false)
    | some (page, pmm) => do
      let m ← pagingMapPage (m.withPmm pmm) (word virtualAddr) (page * pageSize)
        (pagePresent ||| pageWritable)
      mapPages n (virtualAddr + pageSize) m

def expandHeap (m : Machine) (size : Nat) : Option (Machine × Bool) :=
  if heapMaxSize < word (m.heapSize + size) then some (m, false)
  else do
    let pagesNeeded := word (size + pageSize - 1) / pageSize
    let (m, mapped) ← mapPages pagesNeeded (heapBase + m.heapSize) m
    if mapped then return ({ m with heapSize := word (m.heapSize + pagesNeeded * pageSize) }, true)
    else return (m, false)

def heapInit (m : Machine) : Option Machine := do
  let pagesNeeded := (heapInitialSize + pageSize - 1) / pageSize
  let (m, mapped) ← mapPages pagesNeeded heapBase m
  if mapped then
    let m := { m with heapSize := heapInitialSize, heapStart := heapBase, heapUsed := 0 }
    let m ← m.store heapBase (heapInitialSize - headerSize)
    let m ← m.store (heapBase + 4) 1
    let m ← m.store (heapBase + 8) 0
    m.store (heapBase + 12) 0
  else return m

def lastBlock (m : Machine) : Nat → Nat → Option Nat
  | 0, _ => none
  | fuel + 1, block => do
    let next ← m.load (block + 8)
    if next = 0 then return block else lastBlock m fuel next

def growLast (m : Machine) (block expandSize : Nat) : Option (Machine × Nat) := do
  let free ← m.load (block + 4)
  if free ≠ 0 then
    let blockSize ← m.load block
    let m ← m.store block (word (blockSize + expandSize))
    return (m, block)
  else
    let blockSize ← m.load block
    let newBlock := word (block + headerSize + blockSize)
    let m ← m.store newBlock (wordSub expandSize headerSize)
    let m ← m.store (newBlock + 4) 1
    let m ← m.store (newBlock + 8) 0
    let m ← m.store (newBlock + 12) block
    let m ← m.store (block + 8) newBlock
    return (m, newBlock)

def alignSize (size : Nat) : Nat := word (size + 3) / 4 * 4

def takeBlock (m : Machine) (block size : Nat) : Option (Machine × Nat) := do
  let m ← splitBlock m block size
  let m ← m.store (block + 4) 0
  return ({ m with heapUsed := word (m.heapUsed + size) }, word (block + headerSize))

def kmalloc (m : Machine) (size : Nat) : Option (Machine × Nat) :=
  if size = 0 then some (m, 0)
  else do
    let size := alignSize size
    let block ← findFreeBlock m size blockLimit m.heapStart
    if block ≠ 0 then takeBlock m block size
    else
      let expandSize := word (size + headerSize)
      let (m, expanded) ← expandHeap m expandSize
      if expanded then
        let last ← lastBlock m blockLimit m.heapStart
        let (m, block) ← growLast m last expandSize
        takeBlock m block size
      else return (m, 0)

def kfree (m : Machine) (ptr : Nat) : Option Machine :=
  if ptr = 0 then some m
  else do
    let block := wordSub ptr headerSize
    let free ← m.load (block + 4)
    if free ≠ 0 then return m
    else
      let m ← m.store (block + 4) 1
      let size ← m.load block
      mergeBlocks { m with heapUsed := wordSub m.heapUsed size } block

-- `memcpy` of whole words.
def copyWords (m : Machine) (dest src : Nat) : Nat → Option Machine
  | 0 => some m
  | n + 1 => do
    let m ← copyWords m dest src n
    let value ← m.load (src + 4 * n)
    m.store (dest + 4 * n) value

def krealloc (m : Machine) (ptr size : Nat) : Option (Machine × Nat) :=
  if ptr = 0 then kmalloc m size
  else if size = 0 then do
    let m ← kfree m ptr
    return (m, 0)
  else do
    let block := wordSub ptr headerSize
    let blockSize ← m.load block
    if size ≤ blockSize then return (m, ptr)
    else
      let (m, newPtr) ← kmalloc m size
      if newPtr = 0 then return (m, 0)
      else
        let blockSize ← m.load block
        let m ← copyWords m newPtr ptr (blockSize / 4)
        let m ← kfree m ptr
        return (m, newPtr)

def ksize (m : Machine) (ptr : Nat) : Option Nat :=
  if ptr = 0 then some 0 else m.load (wordSub ptr headerSize)

end ArgoOS.Memory
