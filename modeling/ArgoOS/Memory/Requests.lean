import ArgoOS.Memory.HeapRun

set_option autoImplicit false

/-! # Requests of every size -/

namespace ArgoOS.Memory

open Machine Blocks Option Function

def pagesAsked (n : Nat) : Nat := word (word (alignSize n + headerSize) + pageSize - 1) / pageSize

variable {p : Nat} {page v block size : Nat} {pmm : Pmm} {mapped : Bool}

variable {m m' : Machine}

section

structure TakesFrames (m m' : Machine) : Prop where
  marks : Marks m.pmm m'.pmm
  heap : m'.heapStart = m.heapStart ∧ m'.heapSize = m.heapSize

theorem TakesFrames.trans {a b c : Machine} (first : TakesFrames a b) (second : TakesFrames b c) :
    TakesFrames a c :=
  ⟨first.marks.trans second.marks, second.heap.1.trans first.heap.1,
    second.heap.2.trans first.heap.2⟩

theorem KeepsDirectory.takes (keeps : KeepsDirectory m m') : TakesFrames m m' :=
  ⟨keeps.pmm ▸ .refl _, keeps.heap⟩

theorem alloc_takes (allocated : pmmAllocPage m.pmm = some (page, pmm)) :
    TakesFrames m (m.withPmm pmm) :=
  ⟨(alloc_keeps allocated).marks, rfl, rfl⟩

theorem pagingMapPage_takes {physicalAddr flags : Nat}
    (mapped : pagingMapPage m v physicalAddr flags = some m') : TakesFrames m m' := by
  unfold pagingMapPage at mapped
  split at mapped
  · exact (storeTableWord_keeps mapped).takes
  · obtain ⟨⟨m1, table⟩, created, mapped⟩ := bind_eq_some_iff.mp mapped
    have first : TakesFrames m m1 := by
      unfold pagingCreatePageTable at created
      split at created
      · cases created
        exact ⟨.refl _, rfl, rfl⟩
      · next page pmm allocated =>
        obtain ⟨m2, cleared, created⟩ := bind_eq_some_iff.mp created
        cases created
        exact (alloc_takes allocated).trans (clearTable_keeps cleared).takes
    simp only at mapped
    split at mapped
    · cases mapped
      exact first
    · have entry : TakesFrames m1 (setDirectoryEntry m1 (pdIndex v)
          (table ||| pagePresent ||| pageWritable)) := ⟨.refl _, rfl, rfl⟩
      exact first.trans (entry.trans (storeTableWord_keeps mapped).takes)

theorem mapPages_takes {n : Nat} (returned : mapPages n v m = some (m', mapped)) :
    TakesFrames m m' := by
  induction n generalizing v m with
  | zero =>
    cases returned
    exact ⟨.refl _, rfl, rfl⟩
  | succ n ih =>
    unfold mapPages at returned
    split at returned
    · cases returned
      exact ⟨.refl _, rfl, rfl⟩
    · next page pmm allocated =>
      obtain ⟨m1, stored, returned⟩ := bind_eq_some_iff.mp returned
      exact ((alloc_takes allocated).trans (pagingMapPage_takes stored)).trans (ih returned)

theorem mapPages_used {n : Nat} (positive : 0 < n)
    (allocated : pmmAllocPage m.pmm = some (page, pmm))
    (returned : mapPages n v m = some (m', mapped)) : ¬ m.pmm.Used page ∧ m'.pmm.Used page := by
  obtain ⟨n, rfl⟩ : ∃ k, n = k + 1 := ⟨n - 1, by omega⟩
  obtain ⟨free, -, -, rfl⟩ := pmmAllocPage_some allocated
  refine ⟨free, ?_⟩
  rw [mapPages, allocated] at returned
  obtain ⟨m1, stored, returned⟩ := bind_eq_some_iff.mp returned
  have kept := (pagingMapPage_takes stored).trans (mapPages_takes returned)
  exact kept.marks.used page ((m.pmm.markUsed_used page page).mpr (.inr rfl))

theorem takeBlock_cases (returned : takeBlock m block size = some (m', p)) :
    ∃ m1 m2 : Machine, m1.store (block + 4) 0 = some m2 ∧
      m' = { m2 with heapUsed := word (m2.heapUsed + size) } := by
  obtain ⟨m1, -, returned⟩ := bind_eq_some_iff.mp returned
  obtain ⟨m2, stored, returned⟩ := bind_eq_some_iff.mp returned
  cases returned
  exact ⟨m1, m2, stored, rfl⟩

-- A word that was set to 0 reads as 0, or was the word of a page table that mapped it.
theorem store_zero {a : Nat} (stored : m.store a 0 = some m') {value : Nat}
    (nonzero : value ≠ 0) : m'.load a ≠ some value := by
  obtain ⟨physical, target, rfl⟩ := map_eq_some_iff.mp stored
  have walk : ∀ table index, ({ m with ram := update m.ram physical 0 } : Machine).tableEntry
      table index = 0 ∨ ({ m with ram := update m.ram physical 0 } : Machine).tableEntry
      table index = m.tableEntry table index := by
    intro table index
    unfold tableEntry
    split
    · exact .inr rfl
    · by_cases here : table + 4 * index = physical
      · exact .inl (by simp [here])
      · exact .inr (update_of_ne here _ _)
  have translated :
      ({ m with ram := update m.ram physical 0 } : Machine).translate a = none ∨
      ({ m with ram := update m.ram physical 0 } : Machine).translate a = m.translate a := by
    unfold Machine.translate
    simp only
    split
    · rcases walk (pageAddress (m.pageDirectory (pdIndex a))) (ptIndex a) with zero | same
      · exact .inl (by simp [zero, Present])
      · exact .inr (by rw [same])
    · exact .inl rfl
  intro loaded
  rcases translated with none | same
  · simp [load, ramAddress, none] at loaded
  · have place : ({ m with ram := update m.ram physical 0 } : Machine).ramAddress a =
        some physical := by
      rw [← target, ramAddress, ramAddress, same]
      rfl
    simp only [load, place, map_some, update_self, some.injEq] at loaded
    exact nonzero loaded.symm

theorem findFreeBlock_free {fuel current : Nat}
    (found : findFreeBlock m size fuel current = some block) (nonzero : block ≠ 0) :
    ∃ free, m.load (block + 4) = some free ∧ free ≠ 0 := by
  induction fuel generalizing current with
  | zero =>
    unfold findFreeBlock at found
    split at found
    · cases found
      contradiction
    · contradiction
  | succ fuel ih =>
    unfold findFreeBlock at found
    split at found
    · cases found
      contradiction
    · obtain ⟨free, isFree, found⟩ := bind_eq_some_iff.mp found
      obtain ⟨blockSize, -, found⟩ := bind_eq_some_iff.mp found
      split at found
      · next fits =>
        cases found
        exact ⟨free, isFree, fits.1⟩
      · obtain ⟨next, -, found⟩ := bind_eq_some_iff.mp found
        exact ih found

end

variable {n : Nat}

section

structure Unchanged (m m' : Machine) : Prop where
  heap : m'.heapStart = m.heapStart ∧ m'.heapSize = m.heapSize
  words : ∀ a, m'.load a = m.load a
  frames : ∀ page, m'.pmm.Used page ↔ m.pmm.Used page
  mappings : ∀ a, m'.translate a = m.translate a

def Refuses (m : Machine) (n : Nat) : Prop :=
  n = 0 ∨ findFreeBlock m (alignSize n) blockLimit m.heapStart = some 0 ∧
    (heapMaxSize < word (m.heapSize + word (alignSize n + headerSize)) ∨
      0 < pagesAsked n ∧ pmmAllocPage m.pmm = none)

theorem Unchanged.refl (m : Machine) : Unchanged m m :=
  ⟨⟨rfl, rfl⟩, fun _ => rfl, fun _ => Iff.rfl, fun _ => rfl⟩

theorem expandHeap_refused {expanded : Bool} (refuses : heapMaxSize < word (m.heapSize + size) ∨
      0 < word (size + pageSize - 1) / pageSize ∧ pmmAllocPage m.pmm = none)
    (returned : expandHeap m size = some (m', expanded)) : m' = m ∧ expanded = false := by
  rcases expandHeap_cases returned with ⟨-, failed, same⟩ | ⟨room, m1, mapped, same⟩
  · exact ⟨same, failed⟩
  · obtain ⟨positive, none⟩ := refuses.resolve_left (by omega)
    obtain ⟨k, asked⟩ : ∃ k, word (size + pageSize - 1) / pageSize = k + 1 :=
      ⟨word (size + pageSize - 1) / pageSize - 1, by omega⟩
    rw [asked, mapPages, none] at mapped
    cases mapped
    exact ⟨same, rfl⟩

theorem Refuses.unchanged (refuses : Refuses m n) (returned : kmalloc m n = some (m', p)) :
    m' = m := by
  by_cases zero : n = 0
  · rw [kmalloc, if_pos zero] at returned
    cases returned
    rfl
  · obtain ⟨none, gives⟩ := refuses.resolve_left zero
    rcases kmalloc_cases zero returned with ⟨block, found, nonzero, -⟩ |
      ⟨-, ⟨failed, -⟩ | ⟨m1, grown, -⟩⟩
    · rw [none, some.injEq] at found
      exact absurd found.symm nonzero
    · exact (expandHeap_refused gives failed).1
    · exact absurd (expandHeap_refused gives grown).2 (by decide)

theorem expandHeap_used {expanded : Bool} (room : ¬ heapMaxSize < word (m.heapSize + size))
    (asked : 0 < word (size + pageSize - 1) / pageSize)
    (allocated : pmmAllocPage m.pmm = some (page, pmm))
    (returned : expandHeap m size = some (m', expanded)) :
    ¬ m.pmm.Used page ∧ m'.pmm.Used page := by
  obtain ⟨-, m1, mapped, rfl⟩ := (expandHeap_cases returned).resolve_left fun full => room full.1
  have taken := mapPages_used asked allocated mapped
  cases expanded <;> exact taken

theorem growTake_same {expandSize : Nat} (returned : (do
      let last ← lastBlock m blockLimit m.heapStart
      let (m, block) ← growLast m last expandSize
      takeBlock m block size) = some (m', p)) : SameBut m m' := by
  obtain ⟨last, -, returned⟩ := bind_eq_some_iff.mp returned
  obtain ⟨⟨m1, block⟩, grown, returned⟩ := bind_eq_some_iff.mp returned
  exact ((growLast_rewritten grown).trans (takeBlock_rewritten returned)).same

theorem takeBlock_changes {free : Nat} (isFree : m.load (block + 4) = some free)
    (nonzero : free ≠ 0) (returned : takeBlock m block size = some (m', p)) : ¬ Unchanged m m' := by
  obtain ⟨m1, m2, stored, rfl⟩ := takeBlock_cases returned
  intro same
  have kept := same.words (block + 4)
  rw [isFree] at kept
  exact store_zero stored nonzero kept

theorem Unchanged.not_used (same : Unchanged m m') (free : ¬ m.pmm.Used page)
    (used : m'.pmm.Used page) : False :=
  free ((same.frames page).mp used)

theorem kmalloc_null_unchanged (m m' : Machine) (n : Nat) (returned : kmalloc m n = some (m', 0)) :
    (Refuses m n → Unchanged m m') ∧ (0 < pagesAsked n → Unchanged m m' → Refuses m n) := by
  constructor
  · intro refuses
    rw [refuses.unchanged returned]
    exact .refl m
  · intro asked same
    by_cases zero : n = 0
    · exact .inl zero
    · rcases kmalloc_cases zero returned with ⟨block, found, nonzero, taken⟩ | ⟨none, expansion⟩
      · obtain ⟨free, isFree, positive⟩ := findFreeBlock_free found nonzero
        exact absurd same (takeBlock_changes isFree positive taken)
      · refine .inr ⟨none, ?_⟩
        by_contra gives
        obtain ⟨room, frames⟩ := not_or.mp gives
        cases allocated : pmmAllocPage m.pmm with
        | none => exact frames ⟨asked, allocated⟩
        | some result =>
          -- The first frame is taken, and nothing after that gives it back.
          obtain ⟨page, pmm⟩ := result
          rcases expansion with ⟨failed, -⟩ | ⟨m1, grown, taken⟩
          · obtain ⟨free, used⟩ := expandHeap_used room asked allocated failed
            exact same.not_used free used
          · obtain ⟨free, used⟩ := expandHeap_used room asked allocated grown
            rw [← (growTake_same taken).pmm] at used
            exact same.not_used free used

theorem kmalloc_expand_failed (nonzero : n ≠ 0)
    (none : findFreeBlock m (alignSize n) blockLimit m.heapStart = some 0)
    (asks : word (alignSize n + headerSize) = size)
    (failed : expandHeap m size = some (m', false)) : kmalloc m n = some (m', 0) := by
  simp only [kmalloc, nonzero, if_false, none, bind_eq_bind, bind_some, ne_eq,
    not_true_eq_false, asks, failed, Bool.false_eq_true]
  rfl

theorem kmalloc_null_unchanged_limit : ∃ m m', boot plainConfig = some m ∧
    kmalloc m heapMaxSize = some (m', 0) ∧ Unchanged m m' := by
  have none : findFreeBlock plainMachine (alignSize heapMaxSize) blockLimit plainMachine.heapStart =
      some 0 := by decide +kernel
  have full : heapMaxSize <
      word (plainMachine.heapSize + word (alignSize heapMaxSize + headerSize)) := by decide +kernel
  have returned : kmalloc plainMachine heapMaxSize = some (plainMachine, 0) :=
    kmalloc_expand_failed (by decide) none rfl (by rw [expandHeap, if_pos full])
  exact ⟨_, _, plain_boot, returned,
    (kmalloc_null_unchanged _ _ heapMaxSize returned).1 (.inr ⟨none, .inl full⟩)⟩

def tightConfig : BootConfig where
  ram := fun _ => 0
  info := ⟨1, 640, 2444, []⟩
  firstPageTableAt := 0x105000
  aligned := tableAt_aligned
  image := tableAt_image

def tightMachine : Machine := (firstHeader (bootPages tightConfig 771)).get (by decide +kernel)

theorem tight_boot : boot tightConfig = some tightMachine ∧ FirstTable tightMachine 256 771 :=
  boot_firstTable (some_get _).symm (by decide) (by decide) (by decide)
    (by decide) (by decide)

attribute [irreducible] tightMachine

theorem failed_kmalloc_keeps_frame : ∃ m m', boot tightConfig = some m ∧ m.heapStart ≠ 0 ∧
    kmalloc m 0x100000 = some (m', 0) ∧ ¬ m.pmm.Used 770 ∧ m'.pmm.Used 770 ∧
    ¬ Unchanged m m' := by
  obtain ⟨booted, first⟩ := tight_boot
  have pages : mapPages 257 (heapBase + 256 * pageSize) tightMachine =
      some (withPages tightMachine 256 1, false) := by
    rw [show 257 = 1 + 256 from rfl, mapPages_append, first.maps 1 (by decide) (by decide)]
    have empty : pmmAllocPage (withPages tightMachine 256 1).pmm = none := by
      rw [(first.morePages 1).frames]
      decide +kernel
    rw [Option.bind_some, if_pos rfl, mapPages, empty]
  have returned := kmalloc_pages (m := tightMachine) (k := 257)
    (show findFreeBlock _ 0x100000 _ _ = _ by decide +kernel) (by decide +kernel) (by decide)
  rw [show tightMachine.heapSize = 256 * pageSize by decide +kernel, pages] at returned
  have free : ¬ tightMachine.pmm.Used 770 := by
    rw [first.frames, framesUpTo_used]
    decide
  have used : (withPages tightMachine 256 1).pmm.Used 770 := by
    rw [(first.morePages 1).frames, framesUpTo_used]
    decide
  exact ⟨_, _, booted, by decide +kernel, returned, free, used, fun same => same.not_used free used⟩

end

section

def wideStep (s : HeapState) : HeapCall → Option (HeapState × List Nat)
  | .kmalloc n => do
    let (m, p) ← kmalloc s.machine n
    return (⟨m, if p = 0 then s.live else (p, n) :: s.live⟩, [p])
  | .krealloc p n =>
    if p ∈ s.live.map Prod.fst then do
      let (m, q) ← krealloc s.machine p n
      let live :=
        if q ≠ 0 then (q, n) :: dropLive s.live p
        else if n = 0 then dropLive s.live p
        else s.live
      return (⟨m, live⟩, [q])
    else none
  | call => heapStep s call

def AsksLow (m : Machine) (n : Nat) : Prop :=
  findFreeBlock m (alignSize n) blockLimit m.heapStart = some 0 →
    word (m.heapSize + word (alignSize n + headerSize)) ≤ heapMaxSize →
    TablesLow (pagesAsked n) (heapBase + m.heapSize) m

-- The largest request for which the number of pages does not wrap around.
def requestLimit : Nat := 0xFFFFEFF0

def WideMeets (s : HeapState) : HeapCall → Prop
  | .kmalloc n => n ≤ requestLimit ∧ AsksLow s.machine n
  | .krealloc p n => n ≤ requestLimit ∧ ∀ size,
      s.machine.load (wordSub p headerSize) = some size → size < n → AsksLow s.machine n
  | _ => True

variable {blocks : List Block}

theorem asksLow_iff (bound : n ≤ heapMaxSize) (bounded : m.heapSize ≤ heapMaxSize) :
    AsksLow m n ↔ ExpandsLow m n := by
  have aligned := alignSize_eq bound
  have size : word (alignSize n + headerSize) = alignSize n + headerSize := by
    rw [word_eq]
    simp only [heapMaxSize, headerSize] at *
    omega
  have total : word (m.heapSize + (alignSize n + headerSize)) =
      m.heapSize + (alignSize n + headerSize) := by
    rw [word_eq]
    simp only [heapMaxSize, headerSize] at *
    omega
  have asked : pagesAsked n = (alignSize n + headerSize + pageSize - 1) / pageSize := by
    rw [pagesAsked, size, word_eq]
    simp only [heapMaxSize, headerSize, pageSize] at *
    omega
  rw [AsksLow, ExpandsLow, size, total, asked]

theorem TablesLow.first {a b : Nat} (low : TablesLow (a + b) v m) : TablesLow a v m := by
  induction a generalizing v m with
  | zero => trivial
  | succ a ih =>
    rw [Nat.succ_add] at low
    intro page pmm allocated
    obtain ⟨here, next⟩ := low page pmm allocated
    exact ⟨here, fun m' stored => ih (next m' stored)⟩

theorem mapPages_count {k : Nat} (returned : mapPages n v m = some (m', true))
    (below : ∀ page < k, m.pmm.Used page) (inRange : k ≤ m.pmm.totalPages) :
    k + n ≤ m.pmm.totalPages := by
  induction n generalizing k v m with
  | zero => exact inRange
  | succ n ih =>
    unfold mapPages at returned
    split at returned
    · cases returned
    · next page pmm allocated =>
      obtain ⟨m1, stored, rest⟩ := bind_eq_some_iff.mp returned
      have kept := ((alloc_takes allocated).trans (pagingMapPage_takes stored)).marks
      obtain ⟨free, lower, bound, rfl⟩ := pmmAllocPage_some allocated
      have reached : k ≤ page := by
        by_contra less
        exact free (below page (by omega))
      have more := ih (k := k + 1) rest ?_ (by rw [kept.totalPages]; omega)
      · rw [kept.totalPages] at more
        omega
      · intro q small
        by_cases here : q < page
        · exact kept.used q (lower q here)
        · obtain rfl : q = page := by omega
          exact (pagingMapPage_takes stored).marks.used q
            ((m.pmm.markUsed_used q q).mpr (.inr rfl))

theorem mapPages_many (ok : HeapOk m blocks) {k : Nat} (many : 65536 < k)
    (low : TablesLow k (heapBase + m.heapSize) m)
    (returned : mapPages k (heapBase + m.heapSize) m = some (m', mapped)) :
    mapped = false ∧ HeapOk m' blocks := by
  obtain ⟨rest, rfl⟩ : ∃ rest, k = 65537 + rest := ⟨k - 65537, by omega⟩
  have paged := ok.paged
  have bounded := ok.bounded
  obtain ⟨m1, mapped1, returned1, mapping1, rewrites, keeps, -⟩ :=
    mapPages_effect 65537 (heapBase + m.heapSize) ok.sees.mapping (by omega)
      (by simp only [pageSize, heapBase] at *; omega)
      (by simp only [pageSize, heapBase, heapMaxSize] at *; omega) (fun _ _ _ => rfl) low.first
  have frames : m.pmm.totalPages ≤ 65536 := by
    obtain ⟨_, _, mapping⟩ := ok.sees.mapping
    exact mapping.pmm.bounded
  have failed : mapped1 = false := by
    by_contra success
    rw [Bool.not_eq_false] at success
    subst success
    have count := mapPages_count (k := 0) returned1 (by omega) (by omega)
    omega
  subst failed
  rw [mapPages_append, returned1] at returned
  cases returned
  refine ⟨rfl, ok.grow mapping1 (fun w below => rewrites.same (by omega)) keeps.heap.1 ?_ ?_ ?_⟩
  · rw [keeps.heap.2]
  · rw [keeps.heap.2]
    exact paged
  · rw [keeps.heap.2]
    exact bounded

theorem HeapOk.noFit (ok : HeapOk m blocks) (size : Nat) (large : heapMaxSize < size) :
    findFreeBlock m size blockLimit m.heapStart = some 0 := by
  have searched := findFreeBlock_eq ok.sees.reads size ok.linked ok.length_le
  have none : firstFit size blocks = none := by
    refine List.find?_eq_none.mpr fun b member => ?_
    have inside := ok.shape.bounds b member
    have bounded := ok.bounded
    have small : ¬ size ≤ b.size := by
      simp only [Block.stop] at inside
      omega
    simp [small]
  rw [ok.front, searched, none]
  rfl

-- Whether or not the limit of the heap is seen to be passed, a request beyond it fails.
theorem kmalloc_beyond (ok : HeapOk m blocks) (large : heapMaxSize < n) (limit : n ≤ requestLimit)
    (low : AsksLow m n) (returned : kmalloc m n = some (m', p)) : p = 0 ∧ HeapOk m' blocks := by
  have aligned : alignSize n = (n + 3) / 4 * 4 := by
    rw [alignSize, word_eq]
    simp only [requestLimit] at limit
    omega
  have none := ok.noFit (alignSize n) (by omega)
  have bounded := ok.bounded
  have sum : word (alignSize n + headerSize) = alignSize n + headerSize := by
    rw [word_eq]
    simp only [requestLimit, headerSize] at *
    omega
  have asked : pagesAsked n = (alignSize n + headerSize + pageSize - 1) / pageSize := by
    rw [pagesAsked, sum, word_eq]
    simp only [requestLimit, headerSize, pageSize] at *
    omega
  have many : word (m.heapSize + word (alignSize n + headerSize)) ≤ heapMaxSize →
      65536 < pagesAsked n := by
    intro room
    rw [asked]
    rw [sum] at room
    simp only [word, requestLimit, headerSize, pageSize, heapMaxSize] at *
    omega
  rcases kmalloc_cases (by omega) returned with ⟨block, found, nonzero, -⟩ | ⟨-, expansion⟩
  · rw [none, some.injEq] at found
    exact absurd found.symm nonzero
  · rcases expansion with ⟨failed, rfl⟩ | ⟨m1, grown, -⟩
    · refine ⟨rfl, ?_⟩
      rcases expandHeap_cases failed with ⟨-, -, rfl⟩ | ⟨room, m2, mapped, rfl⟩
      · exact ok
      · exact (mapPages_many ok (many room) (low none room) mapped).2
    · rcases expandHeap_cases grown with ⟨-, impossible, -⟩ | ⟨room, m2, mapped, -⟩
      · cases impossible
      · exact absurd (mapPages_many ok (many room) (low none room) mapped).1 (by decide)

theorem kmalloc_wrapped_size (large : requestLimit < n) (inRange : n < 0x100000000)
    (bounded : m.heapSize ≤ heapMaxSize) (returned : kmalloc m n = some (m', p)) :
    m'.heapSize ≤ heapMaxSize + pageSize := by
  have asked : pagesAsked n ≤ 1 := by
    simp only [pagesAsked, alignSize, word, requestLimit, headerSize, pageSize] at *
    omega
  rcases kmalloc_cases (by omega) returned with ⟨block, -, -, taken⟩ | ⟨-, expansion⟩
  · rw [(takeBlock_rewritten taken).same.heapSize]
    omega
  · have expanded : ∀ m1 success, expandHeap m (word (alignSize n + headerSize)) =
        some (m1, success) → m1.heapSize ≤ heapMaxSize + pageSize := by
      intro m1 success grown
      rcases expandHeap_cases grown with ⟨-, -, rfl⟩ | ⟨-, m2, mapped, rfl⟩
      · omega
      · have kept := (mapPages_takes mapped).heap.2
        cases success with
        | false =>
          simp only [Bool.false_eq_true, if_false]
          omega
        | true =>
          have small : pagesAsked n * pageSize ≤ pageSize := by
            simp only [pageSize]
            omega
          simp only [if_true, kept]
          refine (Nat.mod_le _ _).trans ?_
          change m.heapSize + pagesAsked n * pageSize ≤ _
          omega
    rcases expansion with ⟨failed, -⟩ | ⟨m1, grown, taken⟩
    · exact expanded _ _ failed
    · rw [(growTake_same taken).heapSize]
      exact expanded _ _ grown

structure InBounds (m : Machine) (n p : Nat) : Prop where
  large : ∃ size, ksize m p = some size ∧ n ≤ size
  inside : heapBase ≤ p ∧ p + n ≤ heapBase + m.heapSize

theorem HeapOk.inBounds (ok : HeapOk m blocks) (b : Block) (member : b ∈ blocks)
    (fits : n ≤ b.size) : InBounds m n (b.addr + 16) := by
  have inside := ok.shape.bounds b member
  refine ⟨⟨b.size, ?_, fits⟩, by omega, ?_⟩
  · rw [ksize, if_neg (by omega), ok.block_of_pointer b member]
    exact ok.sees.load _ (ok.header_size b member)
  · simp only [Block.stop] at inside
    omega

theorem wideStep_inv {s s' : HeapState} {call : HeapCall} {events : List Nat}
    (ok : HeapOk s.machine blocks) (live : LiveOk blocks s.live) (met : WideMeets s call)
    (taken : wideStep s call = some (s', events)) :
    ∃ blocks', HeapOk s'.machine blocks' ∧ LiveOk blocks' s'.live := by
  cases call with
  | kfree p => exact heapStep_inv ok live (.kfree p) trivial taken
  | write p offset value => exact heapStep_inv ok live (.write p offset value) trivial taken
  | kmalloc n =>
    by_cases small : 1 ≤ n ∧ n ≤ heapMaxSize
    · have low := (asksLow_iff small.2 ok.bounded).mp met.2
      have stepped : heapStep s (.kmalloc n) = some (s', events) := by
        rw [heapStep, if_pos small]
        exact taken
      exact heapStep_inv ok live (.kmalloc n) low stepped
    · obtain ⟨⟨m, p⟩, returned, taken⟩ := bind_eq_some_iff.mp taken
      cases taken
      by_cases zero : n = 0
      · rw [kmalloc, if_pos zero] at returned
        cases returned
        exact ⟨blocks, ok, live⟩
      · obtain ⟨rfl, ok'⟩ := kmalloc_beyond ok (by omega) met.1 met.2 returned
        exact ⟨blocks, ok', live⟩
  | krealloc p n =>
    rw [wideStep] at taken
    split at taken
    · next isLive =>
      by_cases small : n ≤ heapMaxSize
      · have low : TablesStayLow s (.krealloc p n) :=
          fun size header larger => (asksLow_iff small ok.bounded).mp (met.2 size header larger)
        have stepped : heapStep s (.krealloc p n) = some (s', events) := by
          rw [heapStep, if_pos ⟨isLive, small⟩]
          exact taken
        exact heapStep_inv ok live (.krealloc p n) low stepped
      · obtain ⟨⟨m, q⟩, returned, taken⟩ := bind_eq_some_iff.mp taken
        cases taken
        obtain ⟨b, member, used, rfl⟩ := live.block p isLive
        have inside := ok.shape.bounds b member
        have bounded := ok.bounded
        have header := ok.sees.load _ (ok.header_size b member)
        simp only [Block.stop] at inside
        rw [krealloc, if_neg (by omega), if_neg (by omega), ok.block_of_pointer b member] at returned
        simp only [header, bind_eq_bind, bind_some] at returned
        rw [if_neg (by omega)] at returned
        obtain ⟨⟨m1, q1⟩, allocated, returned⟩ := bind_eq_some_iff.mp returned
        have low : AsksLow s.machine n := by
          refine met.2 b.size ?_ (by omega)
          rw [ok.block_of_pointer b member]
          exact header
        obtain ⟨rfl, ok'⟩ := kmalloc_beyond ok (by omega) met.1 low allocated
        cases returned
        have nonzero : n ≠ 0 := by omega
        simp only [ne_eq, not_true_eq_false, if_false, nonzero]
        exact ⟨blocks, ok', live⟩
    · contradiction

theorem kmalloc_in_bounds (config : BootConfig) (m : Machine) (booted : boot config = some m)
    (hasHeap : m.heapStart ≠ 0) (history : List Nat) (state : HeapState)
    (run : Stepper.Run wideStep WideMeets ⟨m, []⟩ history state) (n : Nat) (positive : 0 < n)
    (inRange : n < 0x100000000) (low : AsksLow state.machine n) (m' : Machine) (p : Nat)
    (returned : kmalloc state.machine n = some (m', p)) (nonzero : p ≠ 0) :
    InBounds m' n p ↔ n ≤ requestLimit := by
  obtain ⟨ok, -⟩ := (boot_effect booted).1.resolve_left fun none => hasHeap none.1
  obtain ⟨blocks, ok, -⟩ := run.invariant
    (fun _ s => ∃ blocks, HeapOk s.machine blocks ∧ LiveOk blocks s.live) ⟨_, ok, by simp, .nil⟩
    (fun _ _ _ _ _ ⟨_, ok, live⟩ met taken => wideStep_inv ok live met taken)
  constructor
  · intro bounds
    by_contra large
    have size := kmalloc_wrapped_size (by omega) inRange ok.bounded returned
    obtain ⟨base, inside⟩ := bounds.inside
    simp only [requestLimit, heapBase, heapMaxSize, pageSize] at *
    omega
  · intro limit
    by_cases small : n ≤ heapMaxSize
    · obtain ⟨-, blocks', effect⟩ := kmalloc_effect ok n p positive small
        ((asksLow_iff small ok.bounded).mp low) returned
      obtain ⟨b, member, -, rfl, fits, -⟩ := effect.new nonzero
      exact effect.ok.inBounds b member fits
    · exact absurd (kmalloc_beyond ok (by omega) limit low returned).1 nonzero

theorem kmalloc_in_bounds_growth : ∃ m m', boot plainConfig = some m ∧
    kmalloc m 0x2030F0 = some (m', heapBase + 16) ∧ InBounds m' 0x2030F0 (heapBase + 16) := by
  obtain ⟨returned, low, -⟩ := plain_grows
  refine ⟨_, _, plain_boot, returned, ?_⟩
  exact (kmalloc_in_bounds plainConfig _ plain_boot (by decide +kernel) _ _ .refl 0x2030F0 (by decide)
    (by decide) ((asksLow_iff (by decide) (by decide +kernel)).mpr low) _ _ returned
    (by decide)).mpr (by decide)

-- The rounding wraps around, and the request for four gigabytes gets an empty block.
theorem kmalloc_wraps : ∃ m m', boot plainConfig = some m ∧ m.heapStart ≠ 0 ∧
    kmalloc m 0xFFFFFFFF = some (m', heapBase + 16) ∧ ksize m' (heapBase + 16) = some 0 ∧
    ¬ InBounds m' 0xFFFFFFFF (heapBase + 16) := by
  have wrapped : (kmalloc plainMachine 0xFFFFFFFF).any (fun (m, p) =>
      p = heapBase + 16 ∧ ksize m p = some 0) = true := by decide +kernel
  obtain ⟨⟨m', p⟩, returned, both⟩ := (Option.any_eq_true _ _).mp wrapped
  obtain ⟨rfl, empty⟩ := of_decide_eq_true both
  refine ⟨_, m', plain_boot, by decide +kernel, returned, empty, ?_⟩
  intro bounds
  obtain ⟨size, loaded, large⟩ := bounds.large
  rw [empty, Option.some.injEq] at loaded
  omega

end

end ArgoOS.Memory
