import ArgoOS.Memory.HeapSteps

set_option autoImplicit false

/-! # The heap between two calls -/

namespace ArgoOS.Memory

open Machine Blocks Partial Option List

structure HeapOk (m : Machine) (blocks : List Block) : Prop where
  sees : Sees m (m.view allGood)
  linked : Linked (m.view allGood) 0 blocks 0
  shape : Shape blocks (heapBase + m.heapSize)
  nonempty : blocks ≠ []
  start : m.heapStart = heapBase
  paged : m.heapSize % pageSize = 0
  bounded : m.heapSize ≤ heapMaxSize

variable {m m' : Machine} {b : Block} {pmm : Pmm} {n : Nat} {xs : List Block}

variable {blocks : List Block}

variable {ys : List Block} {size : Nat}

section

section

variable (ok : HeapOk m blocks)

include ok

theorem HeapOk.limit : heapBase + m.heapSize ≤ heapEnd := by
  have bounded := ok.bounded
  simp only [heapEnd]
  omega

theorem HeapOk.length_le : blocks.length ≤ blockLimit := by
  obtain ⟨stop, fills, bound⟩ := ok.shape.fills
  have count := fills.length_le
  have limit := ok.limit
  simp only [blockLimit, heapEnd, heapMaxSize, headerSize] at *
  omega

theorem HeapOk.front : m.heapStart = front blocks 0 := by
  obtain ⟨stop, fills, -⟩ := ok.shape.fills
  rw [ok.start, fills.nonempty_front ok.nonempty]

theorem HeapOk.block_of_pointer (b : Block) (member : b ∈ blocks) :
    wordSub (b.addr + 16) headerSize = b.addr := by
  have inside := ok.shape.bounds b member
  have limit := ok.limit
  rw [headerSize, wordSub_eq]
  · omega
  · simp only [Block.stop, heapEnd, heapBase, heapMaxSize] at *
    omega
  · omega

theorem HeapOk.of_same {view : View} {blocks' : List Block} (sees : Sees m' view)
    (same : SameMap m m') (linked : Linked view 0 blocks' 0)
    (shape : Shape blocks' (heapBase + m.heapSize)) (nonempty : blocks' ≠ []) :
    HeapOk m' blocks' := by
  obtain ⟨mapping, rfl⟩ := sees
  refine ⟨⟨mapping, rfl⟩, linked, ?_, nonempty, same.heapStart.trans ok.start, ?_, ?_⟩
  · rw [same.heapSize]
    exact shape
  · rw [same.heapSize]
    exact ok.paged
  · rw [same.heapSize]
    exact ok.bounded

theorem HeapOk.header_size (b : Block) (member : b ∈ blocks) :
    m.view allGood b.addr = some b.size := by
  obtain ⟨xs, ys, rfl⟩ := append_of_mem member
  obtain ⟨-, header, -⟩ := (linked_append _ _ _ _ _).mp ok.linked
  exact header.size

theorem HeapOk.list_eq (linked : Linked (m.view allGood) 0 ys 0)
    (first : Blocks.front ys 0 = m.heapStart) : blocks = ys := by
  refine ok.linked.unique linked (ok.front.symm.trans first.symm) fun b member => ?_
  rcases mem_append.mp member with inBlocks | inOther
  · obtain ⟨xs, zs, rfl⟩ := append_of_mem inBlocks
    exact ok.sees.notNull ((linked_append _ _ _ _ _).mp ok.linked).2.1
  · obtain ⟨xs, zs, rfl⟩ := append_of_mem inOther
    exact ok.sees.notNull ((linked_append _ _ _ _ _).mp linked).2.1

theorem HeapOk.withUsed (used : Nat) : HeapOk { m with heapUsed := used } blocks :=
  ⟨ok.sees.withUsed used, ok.linked, ok.shape, ok.nonempty, ok.start, ok.paged, ok.bounded⟩

end

def HeapMapped (m : Machine) : Prop :=
  ∀ a, heapBase ≤ a → a < heapBase + m.heapSize → a % 4 = 0 → m.view allGood a ≠ none

theorem HeapMapped.mono {written : Nat → Prop} (mapped : HeapMapped m)
    (rewrites : Rewrites written (m.view allGood) (m'.view allGood))
    (size : m'.heapSize = m.heapSize) : HeapMapped m' := by
  intro a base below aligned
  rw [size] at below
  exact rewrites.readable (mapped a base below aligned)

theorem HeapOk.known (ok : HeapOk m blocks) (mapped : HeapMapped m) (member : b ∈ blocks) {a : Nat}
    (reached : b.addr ≤ a) (below : a < b.stop) (aligned : a % 4 = 0) :
    m.view allGood a ≠ none := by
  have inside := ok.shape.bounds b member
  exact mapped a (by omega) (by omega) aligned

theorem takeBlock_yields (xs ys : List Block) (b : Block) (size : Nat)
    (ok : HeapOk m (xs ++ b :: ys)) (isFree : b.free = true) (fits : size ≤ b.size)
    (words : size % 4 = 0 ∧ 4 ≤ size) :
    Yields (HeapMapped m) (takeBlock m b.addr size) fun (m', p) =>
      p = b.addr + 16 ∧ Stores (fun a => ¬ InUse (xs ++ b :: ys) a) m m' ∧
        HeapOk m' (xs ++ takenHead b size :: (splitRest b size ++ ys)) := by
  have split := splitBlock_yields ok.sees ok.linked ok.shape.toTiled ok.limit isFree
    fits words.1
  refine (split.weaken fun mapped a => ok.known mapped (by simp)).bind ?_
  rintro m1 ⟨view1, sees1, same1, linked1, rewrites1⟩
  have tiled1 := ok.shape.toTiled.split fits words (splitHead b size).free
  rw [← splitHead_addr b size]
  refine (setFree_yields _ sees1 false linked1 tiled1).bind ?_
  rintro m2 ⟨view2, sees2, same2, linked2, rewrites2⟩
  have inside := ok.shape.bounds b (by simp)
  have limit := ok.limit
  refine .pure ⟨?_, ⟨same1.trans (same2.trans (sameMap_withUsed m2 _)), ?_⟩, ?_⟩
  · rw [headerSize, splitHead_addr, word_eq]
    simp only [Block.stop, heapEnd, heapBase, heapMaxSize] at *
    omega
  · change Rewrites _ _ (m2.view allGood)
    rw [sees2.view]
    refine rewrites1.trans (rewrites2.mono fun a unused inUse => unused (inUse.mono ?_))
    exact fun u member used => mem_split member isFree used
  · have taken := ok.of_same sees2 (same1.trans same2) linked2 (ok.shape.take isFree fits words)
      (by simp)
    exact taken.withUsed _

end

section

theorem view_withPmm {good : Nat → Bool} {tables pages : Nat → Option Nat}
    (mapping : Mapping m good tables pages) (mapping' : Mapping (m.withPmm pmm) good tables pages) :
    (m.withPmm pmm).view good = m.view good :=
  funext fun w => view_congr mapping mapping' w rfl fun _ _ => rfl

-- Every table that the loop of `expand_heap` asks for lies in the first four megabytes.
def TablesLow : Nat → Nat → Machine → Prop
  | 0, _, _ => True
  | n + 1, virtualAddr, m =>
    ∀ page pmm, pmmAllocPage m.pmm = some (page, pmm) →
      TableLow (m.withPmm pmm) virtualAddr ∧
      ∀ m', pagingMapPage (m.withPmm pmm) virtualAddr (page * pageSize)
        (pagePresent ||| pageWritable) = some m' → TablesLow n (virtualAddr + pageSize) m'

theorem alloc_keeps {page : Nat} (allocated : pmmAllocPage m.pmm = some (page, pmm)) :
    Keeps m (m.withPmm pmm) := by
  obtain ⟨-, -, -, rfl⟩ := pmmAllocPage_some allocated
  exact ⟨⟨markUsed_marks m.pmm page, ⟨rfl, rfl, rfl⟩, [], by simp [Identity], rfl⟩, ⟨rfl, rfl⟩⟩

-- The last page of the loop has a table, or a frame is left for one.
def TableLeft : Nat → Nat → Machine → Prop
  | 0, _, _ => True
  | 1, virtualAddr, m =>
    ∀ page pmm, pmmAllocPage m.pmm = some (page, pmm) →
      ¬ Present (m.pageDirectory (pdIndex virtualAddr)) → pmmAllocPage pmm ≠ none
  | n + 2, virtualAddr, m =>
    ∀ page pmm, pmmAllocPage m.pmm = some (page, pmm) →
      ∀ m', pagingMapPage (m.withPmm pmm) virtualAddr (page * pageSize)
        (pagePresent ||| pageWritable) = some m' → TableLeft (n + 1) (virtualAddr + pageSize) m'

-- The pages were not mapped before, or there is no frame to map them with.
def PagesFresh (n virtualAddr : Nat) (m : Machine) : Prop :=
  Exhausted m.pmm ∨ ∀ v, virtualAddr ≤ v → v < virtualAddr + n * pageSize → m.translate v = none

theorem mapPages_exhausted (n virtualAddr : Nat) {m : Machine} (none : pmmAllocPage m.pmm = none) :
    ∃ mapped, mapPages n virtualAddr m = some (m, mapped) := by
  cases n with
  | zero => exact ⟨true, rfl⟩
  | succ n => exact ⟨false, by rw [mapPages, none]⟩

theorem mapPages_next {m1 : Machine} {v page : Nat} (n : Nat) (bound : v < 0x100000000)
    (allocated : pmmAllocPage m.pmm = some (page, pmm))
    (stored : pagingMapPage (m.withPmm pmm) v (page * pageSize) (pagePresent ||| pageWritable) =
      some m1) : mapPages (n + 1) v m = mapPages n (v + pageSize) m1 := by
  rw [mapPages, allocated]
  simp only
  rw [word_eq v bound, stored]
  rfl

theorem mapPages_effect (n virtualAddr : Nat) {m : Machine} {good : Nat → Bool}
    (mapping : ∃ tables pages, Mapping m good tables pages) (high : heapBase ≤ virtualAddr)
    (aligned : virtualAddr % pageSize = 0) (bound : virtualAddr + n * pageSize ≤ 0x100000000)
    (isGood : ∀ i, virtualAddr ≤ i * 0x400000 + 0x3FFFFF →
      i * 0x400000 < virtualAddr + n * pageSize → good i = true)
    (low : TablesLow n virtualAddr m) :
    ∃ m' mapped, mapPages n virtualAddr m = some (m', mapped) ∧
      (∃ tables pages, Mapping m' good tables pages) ∧
      Rewrites (fun w => virtualAddr ≤ w) (m.view good) (m'.view good) ∧ Keeps m m' ∧
      (∀ w, good (pdIndex w) = true → w < virtualAddr ∨ virtualAddr + n * pageSize ≤ w →
        m'.translate w = m.translate w) ∧
      (mapped = false → Exhausted m'.pmm) ∧
      (mapped = true → TableLeft n virtualAddr m → ∀ w, virtualAddr ≤ w →
        w < virtualAddr + n * pageSize → w % 4 = 0 → m'.view good w ≠ none) := by
  induction n generalizing virtualAddr m with
  | zero =>
    exact ⟨m, true, rfl, mapping, .refl _ _, .refl m, fun _ _ _ => rfl, by simp,
      fun _ _ w _ _ => by omega⟩
  | succ n ih =>
    obtain ⟨tables, pages, mapping⟩ := mapping
    cases allocated : pmmAllocPage m.pmm with
    | none =>
      exact ⟨m, false, by simp [mapPages, allocated], ⟨tables, pages, mapping⟩, .refl _ _,
        .refl m, fun _ _ _ => rfl,
        fun _ => (pmmAllocPage_none mapping.pmm.covered).mp allocated, by simp⟩
    | some result =>
      obtain ⟨page, pmm⟩ := result
      obtain ⟨here, next⟩ := low page pmm allocated
      obtain ⟨mapping1, fresh⟩ := mapping.alloc page pmm allocated
      have inGood : good (pdIndex virtualAddr) = true := by
        apply isGood
        · simp only [pdIndex]
          omega
        · simp only [pdIndex, pageSize]
          omega
      obtain ⟨m2, tables2, pages2, stored, mapping2, others2, rewrites2, keeps2, readable2⟩ :=
        mapping1.mapPage virtualAddr page (.inl rfl) high inGood (fresh.target _) here
      obtain ⟨m', mapped, returned, mapping', rewrites', keeps', translate', full, readable'⟩ :=
        ih (virtualAddr + pageSize)
        ⟨tables2, pages2, mapping2⟩ (by omega) (by simp only [pageSize] at *; omega)
        (by simp only [pageSize] at *; omega)
        (fun i reached below => isGood i (by omega) (by simp only [pageSize] at *; omega))
        (next m2 stored)
      refine ⟨m', mapped, ?_, mapping', ?_, ((alloc_keeps allocated).trans keeps2).trans keeps', ?_,
        full, ?_⟩
      · rw [mapPages_next n (by simp only [pageSize] at bound; omega) allocated stored]
        exact returned
      · rw [← view_withPmm mapping mapping1]
        refine (rewrites2.mono ?_).trans (rewrites'.mono fun w above => by omega)
        intro w inPage
        simp only [pageSize] at *
        omega
      · intro w inGood' outside
        rw [translate' w inGood' (by simp only [pageSize] at *; omega)]
        refine mapping.translate_congr mapping2 w inGood' fun _ => others2 _ ?_
        simp only [pageSize] at *
        omega
      · intro isMapped left w above below aligned
        by_cases here : w / pageSize = virtualAddr / pageSize
        · rcases readable2 with ⟨-, readable⟩ | ⟨absent, empty, rfl⟩
          · exact rewrites'.readable (readable w here aligned)
          · -- Without a frame for the table the loop ends here, or it fails.
            cases n with
            | zero => exact absurd empty (left page pmm allocated absent)
            | succ n =>
              rw [mapPages, show pmmAllocPage (m.withPmm pmm).pmm = none from empty] at returned
              simp only [some.injEq, Prod.mk.injEq] at returned
              rw [← returned.2] at isMapped
              contradiction
        · have rest : TableLeft n (virtualAddr + pageSize) m2 := by
            cases n with
            | zero => trivial
            | succ n => exact left page pmm allocated m2 stored
          refine readable' isMapped rest w ?_ ?_ aligned
          · simp only [pageSize] at *
            omega
          · simp only [pageSize] at *
            omega

theorem mapPages_translations {virtualAddr : Nat} {mapped : Bool} (ok : PmmOk m.pmm)
    (returned : mapPages n virtualAddr m = some (m', mapped))
    (translate : ∀ w, w < virtualAddr ∨ virtualAddr + n * pageSize ≤ w →
      m'.translate w = m.translate w) (fresh : PagesFresh n virtualAddr m) :
    KeepsTranslations m m' := by
  intro v physical before
  rcases fresh with full | unmapped
  · obtain ⟨_, same⟩ := mapPages_exhausted n virtualAddr
      ((pmmAllocPage_none ok.covered).mpr full)
    rw [returned, some.injEq, Prod.mk.injEq] at same
    rw [same.1, before]
  · rw [translate v ?_, before]
    by_contra inside
    rw [unmapped v (by omega) (by omega)] at before
    contradiction

theorem HeapOk.grow {blocks : List Block} (ok : HeapOk m blocks)
    (mapping : ∃ tables pages, Mapping m' allGood tables pages)
    (view : ∀ w < heapBase + m.heapSize, m'.view allGood w = m.view allGood w)
    (start : m'.heapStart = m.heapStart) (larger : m.heapSize ≤ m'.heapSize)
    (paged : m'.heapSize % pageSize = 0) (bounded : m'.heapSize ≤ heapMaxSize) :
    HeapOk m' blocks := by
  refine ⟨⟨mapping, rfl⟩, ok.linked.congr ?_, ⟨ok.shape.toTiled.mono (by omega), ok.shape.parted⟩,
    ok.nonempty, start.trans ok.start, paged, bounded⟩
  intro b member a _ inHeader
  have inside := (ok.shape.bounds b member).2
  simp only [Block.stop] at inside
  exact view a (by omega)

theorem expandHeap_effect {blocks : List Block} (ok : HeapOk m blocks) (small : size ≤ 0x80000000)
    (low : m.heapSize + size ≤ heapMaxSize →
      TablesLow ((size + pageSize - 1) / pageSize) (heapBase + m.heapSize) m) :
    ∃ m' expanded, expandHeap m size = some (m', expanded) ∧ HeapOk m' blocks ∧ Grows m m' ∧
      m'.heapSize = m.heapSize +
        (if expanded then (size + pageSize - 1) / pageSize * pageSize else 0) ∧
      Rewrites (fun a => heapBase + m.heapSize ≤ a) (m.view allGood) (m'.view allGood) ∧
      ((m.heapSize + size ≤ heapMaxSize →
        PagesFresh ((size + pageSize - 1) / pageSize) (heapBase + m.heapSize) m) →
        KeepsTranslations m m') ∧
      (HeapMapped m → (m.heapSize + size ≤ heapMaxSize →
        TableLeft ((size + pageSize - 1) / pageSize) (heapBase + m.heapSize) m) →
        HeapMapped m') := by
  have bounded := ok.bounded
  have paged := ok.paged
  unfold expandHeap
  rw [word_eq (m.heapSize + size) (by simp only [heapMaxSize] at bounded; omega)]
  by_cases full : heapMaxSize < m.heapSize + size
  · exact ⟨m, false, by rw [if_pos full], ok, .refl m, rfl, .refl _ _,
      fun _ => (SameMap.refl m).translations, fun mapped _ => mapped⟩
  · rw [if_neg full, word_eq (size + pageSize - 1) (by simp only [pageSize]; omega)]
    have room : m.heapSize + (size + pageSize - 1) / pageSize * pageSize ≤ heapMaxSize := by
      simp only [pageSize, heapMaxSize] at *
      omega
    obtain ⟨m', mapped, returned, mapping', rewrites, keeps, translate, -, readable⟩ :=
      mapPages_effect ((size + pageSize - 1) / pageSize) (heapBase + m.heapSize) ok.sees.mapping
        (by omega) (by simp only [pageSize, heapBase] at *; omega)
        (by simp only [pageSize, heapBase, heapMaxSize] at *; omega) (fun _ _ _ => rfl)
        (low (by omega))
    have view : ∀ w < heapBase + m.heapSize, m'.view allGood w = m.view allGood w :=
      fun w below => rewrites.same (by omega)
    obtain ⟨_, _, mapping⟩ := ok.sees.mapping
    have translations := mapPages_translations mapping.pmm returned fun w => translate w rfl
    have kept := ok.grow mapping' view keeps.heap.1 (by rw [keeps.heap.2])
      (by rw [keeps.heap.2]; exact paged) (by rw [keeps.heap.2]; exact bounded)
    simp only [returned, bind_eq_bind, bind_some]
    cases mapped with
    | false =>
      exact ⟨m', false, by simp, kept, keeps.toGrows, keeps.heap.2, rewrites,
        fun fresh => translations (fresh (by omega)),
        fun mapped _ => mapped.mono rewrites keeps.heap.2⟩
    | true =>
      have newSize : word (m'.heapSize + (size + pageSize - 1) / pageSize * pageSize) =
          m.heapSize + (size + pageSize - 1) / pageSize * pageSize := by
        rw [keeps.heap.2, word_eq]
        simp only [heapMaxSize] at room
        omega
      simp only [if_true, newSize]
      refine ⟨_, true, rfl, ?_, ?_, rfl, rewrites, fun fresh => translations (fresh (by omega)), ?_⟩
      · obtain ⟨tables, pages, mapping'⟩ := mapping'
        exact ok.grow ⟨tables, pages, { mapping' with }⟩ view keeps.heap.1 (by simp only; omega)
          (by simp only [pageSize] at *; omega) room
      · exact ⟨keeps.marks, keeps.tasks, keeps.writes⟩
      · intro heapMapped left a base below aligned
        by_cases old : a < heapBase + m.heapSize
        · exact rewrites.readable (heapMapped a base old aligned)
        · refine readable rfl (left (by omega)) a (by omega) ?_ aligned
          rw [Nat.add_assoc]
          exact below

end

section

structure Allocated (m' : Machine) (blocks blocks' : List Block) (n p : Nat) : Prop where
  ok : HeapOk m' blocks'
  kept : ∀ u ∈ blocks, u.free = false → u ∈ blocks'
  new : p ≠ 0 → ∃ b ∈ blocks', b.free = false ∧ p = b.addr + 16 ∧ n ≤ b.size ∧
    ∀ u ∈ blocks, u.free = false → u.addr ≠ b.addr

theorem alignSize_eq (bound : n ≤ heapMaxSize) : alignSize n = (n + 3) / 4 * 4 := by
  rw [alignSize, word_eq]
  simp only [heapMaxSize] at bound
  omega

inductive Outcome (m m' : Machine) (n : Nat) : List Block → List Block → Nat → Prop
  | taken (xs ys : List Block) (b : Block)
      (found : findFreeBlock m (alignSize n) blockLimit m.heapStart = some b.addr)
      (isFree : b.free = true) (fits : alignSize n ≤ b.size) (size : m'.heapSize = m.heapSize) :
      Outcome m m' n (xs ++ b :: ys)
        (xs ++ takenHead b (alignSize n) :: (splitRest b (alignSize n) ++ ys)) (b.addr + 16)
  | refused (blocks : List Block) (size : m'.heapSize = m.heapSize) : Outcome m m' n blocks blocks 0
  | grown (xs : List Block) (b : Block)
      (none : findFreeBlock m (alignSize n) blockLimit m.heapStart = some 0)
      (size : m'.heapSize = m.heapSize +
        (alignSize n + headerSize + pageSize - 1) / pageSize * pageSize) :
      Outcome m m' n (xs ++ [b])
        ((growList xs b (alignSize n + headerSize)).1 ++
          takenHead (growList xs b (alignSize n + headerSize)).2 (alignSize n) ::
            (splitRest (growList xs b (alignSize n + headerSize)).2 (alignSize n) ++ []))
        ((growList xs b (alignSize n + headerSize)).2.addr + 16)

theorem take_new {stop : Nat} (fills : Contiguous heapBase (xs ++ b :: ys) stop)
    (isFree : b.free = true) (fits : alignSize n ≤ b.size) (large : n ≤ alignSize n) :
    ∃ c ∈ xs ++ takenHead b (alignSize n) :: (splitRest b (alignSize n) ++ ys), c.free = false ∧
      b.addr + 16 = c.addr + 16 ∧ n ≤ c.size ∧
      ∀ u ∈ xs ++ b :: ys, u.free = false → u.addr ≠ c.addr := by
  refine ⟨takenHead b (alignSize n), by simp, rfl, by simp, ?_, ?_⟩
  · exact large.trans (takenHead_size fits)
  · intro u member used sameAddr
    rw [takenHead_addr] at sameAddr
    obtain rfl := fills.addr_inj member (by simp) sameAddr
    rw [isFree] at used
    contradiction

theorem Outcome.allocated {blocks' : List Block} {p : Nat}
    (outcome : Outcome m m' n blocks blocks' p) (ok : HeapOk m blocks) (ok' : HeapOk m' blocks')
    (positive : 1 ≤ n) (bound : n ≤ heapMaxSize) : Allocated m' blocks blocks' n p := by
  have aligned := alignSize_eq bound
  have large : n ≤ alignSize n := by omega
  obtain ⟨stop, fills, -⟩ := ok.shape.fills
  cases outcome with
  | taken xs ys b found isFree fits size =>
    exact ⟨ok', fun u member used => mem_split member isFree used,
      fun _ => take_new fills isFree fits large⟩
  | refused blocks size => exact ⟨ok', fun _ member _ => member, by simp⟩
  | grown xs b none size =>
    have words : (alignSize n + headerSize) % 4 = 0 ∧ 20 ≤ alignSize n + headerSize := by
      simp only [headerSize]
      omega
    obtain ⟨stop', fills', -⟩ :=
      (ok.shape.grow words.1 words.2 (Nat.le_refl _)).fills
    have kept : ∀ u ∈ xs ++ [b], u.free = false →
        u ∈ (growList xs b (alignSize n + headerSize)).1 ++
          [(growList xs b (alignSize n + headerSize)).2] :=
      fun u member used => mem_append_left _ (mem_grow member used)
    refine ⟨ok', fun u member used => mem_split (kept u member used) growList_free used, fun _ => ?_⟩
    obtain ⟨c, inNew, used, place, fits, apart⟩ :=
      take_new fills' growList_free (growList_size xs b (alignSize n)) large
    exact ⟨c, inNew, used, place, fits, fun u member used => apart u (kept u member used) used⟩

def ExpandsLow (m : Machine) (n : Nat) : Prop :=
  findFreeBlock m (alignSize n) blockLimit m.heapStart = some 0 →
    m.heapSize + (alignSize n + headerSize) ≤ heapMaxSize →
    TablesLow ((alignSize n + headerSize + pageSize - 1) / pageSize) (heapBase + m.heapSize) m

def ExpandsMapped (m : Machine) (n : Nat) : Prop :=
  findFreeBlock m (alignSize n) blockLimit m.heapStart = some 0 →
    m.heapSize + (alignSize n + headerSize) ≤ heapMaxSize →
    TableLeft ((alignSize n + headerSize + pageSize - 1) / pageSize) (heapBase + m.heapSize) m

def ExpandsFresh (m : Machine) (n : Nat) : Prop :=
  findFreeBlock m (alignSize n) blockLimit m.heapStart = some 0 →
    m.heapSize + (alignSize n + headerSize) ≤ heapMaxSize →
    PagesFresh ((alignSize n + headerSize + pageSize - 1) / pageSize) (heapBase + m.heapSize) m

structure Enlarges (blocks : List Block) (n : Nat) (m m' : Machine) : Prop extends Grows m m' where
  rewrites : Rewrites (fun a => ¬ InUse blocks a) (m.view allGood) (m'.view allGood)
  translations : ExpandsFresh m n → KeepsTranslations m m'
  mapped : HeapMapped m → ExpandsMapped m n → HeapMapped m'

theorem HeapOk.inUse_below (ok : HeapOk m blocks) {a : Nat} (inUse : InUse blocks a) :
    a < heapBase + m.heapSize := by
  obtain ⟨u, member, -, -, below⟩ := inUse
  have inside := (ok.shape.bounds u member).2
  omega

theorem HeapOk.last (ok : HeapOk m (xs ++ [b])) :
    lastBlock m blockLimit m.heapStart = some b.addr := by
  have count := ok.length_le
  rw [length_append, length_singleton] at count
  rw [ok.front]
  exact lastBlock_eq ok.sees.reads ok.linked count

theorem growLast_heapOk {expandSize : Nat} (ok : HeapOk m (xs ++ [b]))
    (shape : Shape (xs ++ [b]) (heapBase + size)) (words : expandSize % 4 = 0)
    (room : 20 ≤ expandSize) (larger : size + expandSize ≤ m.heapSize) :
    Yields (HeapMapped m) (growLast m b.addr expandSize) fun (m', block) =>
      block = (growList xs b expandSize).2.addr ∧ Stores (fun a => ¬ InUse (xs ++ [b]) a) m m' ∧
        HeapOk m' ((growList xs b expandSize).1 ++ [(growList xs b expandSize).2]) := by
  have limit := ok.limit
  have inside := shape.bounds b (by simp)
  have grown := growLast_yields ok.sees ok.linked shape.toTiled room
    (by omega)
  refine (grown.weaken fun mapped a reached below => mapped a (by simp only [Block.stop] at *; omega)
    (by omega)).mono ?_
  rintro ⟨m', block⟩ ⟨rfl, view1, sees1, same1, linked1, rewrites1⟩
  have shape1 := shape.grow words room (show _ ≤ heapBase + m.heapSize by omega)
  refine ⟨rfl, ⟨same1, ?_⟩, ok.of_same sees1 same1 linked1 shape1 (by simp)⟩
  rw [sees1.view]
  exact rewrites1

theorem HeapOk.growTake (ok : HeapOk m (xs ++ [b])) (shape : Shape (xs ++ [b]) (heapBase + size))
    (n : Nat) (positive : 1 ≤ n) (bound : n ≤ heapMaxSize)
    (larger : size + (alignSize n + headerSize) ≤ m.heapSize) :
    Yields (HeapMapped m) (do
      let last ← lastBlock m blockLimit m.heapStart
      let (m, block) ← growLast m last (alignSize n + headerSize)
      takeBlock m block (alignSize n)) fun (m', p) =>
    Stores (fun a => ¬ InUse (xs ++ [b]) a) m m' ∧
      p = (growList xs b (alignSize n + headerSize)).2.addr + 16 ∧
      HeapOk m' ((growList xs b (alignSize n + headerSize)).1 ++
        takenHead (growList xs b (alignSize n + headerSize)).2 (alignSize n) ::
          (splitRest (growList xs b (alignSize n + headerSize)).2 (alignSize n) ++ [])) := by
  have aligned := alignSize_eq bound
  have sizes : (alignSize n + headerSize) % 4 = 0 ∧ 20 ≤ alignSize n + headerSize := by
    simp only [headerSize]
    omega
  simp only [ok.last, bind_eq_bind, bind_some]
  refine (growLast_heapOk ok shape sizes.1 sizes.2 larger).bind ?_
  rintro ⟨m1, block⟩ ⟨rfl, same1, ok1⟩
  have taken := takeBlock_yields _ [] _ _ ok1 growList_free (growList_size xs b (alignSize n))
    (by omega)
  refine (taken.weaken fun mapped => mapped.mono same1.rewrites same1.heapSize).mono ?_
  rintro ⟨m', p⟩ ⟨rfl, same2, ok2⟩
  have kept : ∀ u ∈ xs ++ [b], u.free = false →
      u ∈ (growList xs b (alignSize n + headerSize)).1 ++
        [(growList xs b (alignSize n + headerSize)).2] :=
    fun u member used => mem_append_left _ (mem_grow member used)
  exact ⟨same1.trans (same2.mono fun a unused inUse => unused (inUse.mono kept)), rfl, ok2⟩

theorem kmalloc_yields (ok : HeapOk m blocks) (positive : 1 ≤ n) (bound : n ≤ heapMaxSize)
    (low : ExpandsLow m n) :
    Yields (HeapMapped m ∧ ExpandsMapped m n) (kmalloc m n) fun (m', p) =>
      Enlarges blocks n m m' ∧ ∃ blocks', HeapOk m' blocks' ∧ Outcome m m' n blocks blocks' p := by
  have aligned := alignSize_eq bound
  have searched := findFreeBlock_eq ok.sees.reads (alignSize n) ok.linked
    ok.length_le
  rw [← ok.front] at searched
  have expandSize : word (alignSize n + headerSize) = alignSize n + headerSize := by
    rw [aligned, word_eq]
    simp only [heapMaxSize, headerSize] at *
    omega
  rw [kmalloc, if_neg (by omega)]
  simp only [searched, bind_eq_bind, bind_some]
  cases fit : firstFit (alignSize n) blocks with
  | some b =>
    obtain ⟨holds, xs, ys, rfl, -⟩ := List.find?_eq_some_iff_append.mp fit
    simp only [Bool.and_eq_true, decide_eq_true_eq] at holds
    have notNull := ok.sees.notNull ((linked_append _ _ _ _ _).mp ok.linked).2.1
    simp only [map_some, getD_some, ne_eq, notNull, not_false_eq_true, if_true]
    have taken := takeBlock_yields xs ys b _ ok holds.1 holds.2 (by omega)
    refine (taken.weaken And.left).mono ?_
    rintro ⟨m', p⟩ ⟨rfl, same, ok'⟩
    exact ⟨⟨same.toSameBut.grows, same.rewrites, fun _ => same.toSameMap.translations,
      fun mapped _ => mapped.mono same.rewrites same.heapSize⟩, _, ok',
      .taken xs ys b (by simpa [fit] using searched) holds.1 holds.2 same.heapSize⟩
  | none =>
    have none : findFreeBlock m (alignSize n) blockLimit m.heapStart = some 0 := by
      simpa [fit] using searched
    obtain ⟨m1, expanded, grown, ok1, grows1, size1, rewrites1, translations1, mapped1⟩ :=
      expandHeap_effect ok
        (by simp only [heapMaxSize, headerSize] at *; omega) (low none)
    have unused1 : Rewrites (fun a => ¬ InUse blocks a) (m.view allGood) (m1.view allGood) := by
      refine rewrites1.mono fun a above inUse => ?_
      have below := ok.inUse_below inUse
      omega
    have kept1 : ExpandsFresh m n → KeepsTranslations m m1 := fun fresh => translations1 (fresh none)
    have heapMapped1 : HeapMapped m → ExpandsMapped m n → HeapMapped m1 :=
      fun mapped left => mapped1 mapped (left none)
    simp only [map_none, getD_none, ne_eq, not_true_eq_false, if_false, expandSize,
      grown, bind_some]
    cases expanded with
    | false =>
      exact .pure ⟨⟨grows1, unused1, kept1, heapMapped1⟩, blocks, ok1, .refused blocks size1⟩
    | true =>
      obtain ⟨xs, b, rfl⟩ := (eq_nil_or_concat' blocks).resolve_left ok.nonempty
      have taken := ok1.growTake ok.shape n positive bound
        (by simp only [pageSize, if_true] at *; omega)
      refine (taken.weaken fun safe => heapMapped1 safe.1 safe.2).mono ?_
      rintro ⟨m', p⟩ ⟨same2, rfl, ok2⟩
      refine ⟨⟨grows1.trans same2.toSameBut.grows, unused1.trans same2.rewrites, ?_, ?_⟩, _, ok2,
        .grown xs b none (same2.heapSize.trans size1)⟩
      · intro fresh
        exact (kept1 fresh).trans same2.toSameMap.translations
      · intro mapped left
        exact (heapMapped1 mapped left).mono same2.rewrites same2.heapSize

theorem kmalloc_outcome (ok : HeapOk m blocks) {p : Nat} (positive : 1 ≤ n)
    (bound : n ≤ heapMaxSize) (low : ExpandsLow m n) (returned : kmalloc m n = some (m', p)) :
    Enlarges blocks n m m' ∧ ∃ blocks', HeapOk m' blocks' ∧ Outcome m m' n blocks blocks' p :=
  (kmalloc_yields ok positive bound low).post _ returned

theorem kmalloc_effect (ok : HeapOk m blocks) (n p : Nat) (positive : 1 ≤ n)
    (bound : n ≤ heapMaxSize) (low : ExpandsLow m n) (returned : kmalloc m n = some (m', p)) :
    Enlarges blocks n m m' ∧ ∃ blocks', Allocated m' blocks blocks' n p := by
  obtain ⟨enlarges, blocks', ok', outcome⟩ := kmalloc_outcome ok positive bound low returned
  exact ⟨enlarges, blocks', outcome.allocated ok ok' positive bound⟩

theorem kfree_yields (safe : Prop) {xs : List Block} (ok : HeapOk m (xs ++ b :: ys))
    (used : b.free = false) :
    Yields safe (kfree m (b.addr + 16)) fun m' =>
      Stores (fun a => ¬ InUse (xs ++ { b with free := true } :: ys) a) m m' ∧
        HeapOk m' (releaseList xs b ys) := by
  obtain ⟨-, header, -⟩ := (linked_append _ _ _ _ _).mp ok.linked
  unfold kfree
  rw [if_neg (by omega), ok.block_of_pointer b (by simp)]
  simp only [ok.sees.load _ header.free, used, Bool.toNat_false, ne_eq, not_true_eq_false, if_false,
    bind_eq_bind, bind_some]
  refine (setFree_yields safe ok.sees true ok.linked ok.shape.toTiled).bind ?_
  rintro m1 ⟨view1, sees1, same1, linked1, rewrites1⟩
  have tiled1 := ok.shape.toTiled.setFree true
  obtain ⟨-, header1, -⟩ := (linked_append _ _ _ _ _).mp linked1
  rw [sees1.load _ header1.size, bind_some]
  refine (mergeNext_yields safe (sees1.withUsed _) xs ys { b with free := true } _ linked1 tiled1
    ok.limit).bind ?_
  rintro m2 ⟨view2, sees2, same2, linked2, rewrites2⟩
  have merged := mergePrev_yields safe sees2 xs _ _ _ linked2 tiled1.mergeNext ok.limit
  rw [(mergeNext_head _ ys).1] at merged
  refine merged.mono ?_
  rintro m3 ⟨view3, sees3, same3, linked3, rewrites3⟩
  have same := same1.trans ((sameMap_withUsed m1 _).trans (same2.trans same3))
  refine ⟨⟨same, ?_⟩, ok.of_same sees3 same linked3 ok.shape.release releaseList_nonempty⟩
  rw [sees3.view]
  refine ((rewrites1.mono ?_).trans rewrites2).trans (rewrites3.mono ?_)
  · exact fun a unused inUse => unused (inUse.mono fun u member used' => mem_exchange member rfl used' id)
  · exact fun a unused inUse => unused (inUse.mono fun u member used' => mem_mergeNext member rfl used')

def InPayload (b : Block) (a : Nat) : Prop := b.addr + 16 ≤ a ∧ a < b.stop

theorem HeapOk.storeWord (ok : HeapOk m blocks) (b : Block) (member : b ∈ blocks) (a value : Nat)
    (above : b.addr + 16 ≤ a) (below : a < b.stop) (stored : m.store a value = some m') :
    Stores (· = a) m m' ∧ HeapOk m' blocks ∧ m'.view allGood a = some value := by
  have inside := ok.shape.bounds b member
  obtain ⟨stop, fills, -⟩ := ok.shape.fills
  obtain ⟨sees', same⟩ := ok.sees.store a value (by omega) stored
  refine ⟨ok.sees.stores a value (by omega) rfl stored,
    ok.of_same sees' same (ok.linked.congr ?_) ok.shape ok.nonempty, ?_⟩
  · intro c inList k reached inHeader
    apply Function.update_of_ne
    have apart := fills.apart inList member
    simp only [Block.stop] at apart below
    rcases apart with rfl | before | after <;> omega
  · rw [sees'.view, Function.update_self]

theorem HeapOk.storePayload (ok : HeapOk m blocks) (b : Block) (member : b ∈ blocks) (a value : Nat)
    (above : b.addr + 16 ≤ a) (below : a < b.stop) (stored : m.store a value = some m') :
    Stores (InPayload b) m m' ∧ HeapOk m' blocks := by
  obtain ⟨stores, ok', -⟩ := ok.storeWord b member a value above below stored
  exact ⟨stores.mono fun k here => here ▸ ⟨above, below⟩, ok'⟩

theorem copyWords_effect (ok : HeapOk m blocks) (member : b ∈ blocks) {src : Nat}
    (fits : 4 * n ≤ b.size) (returned : copyWords m (b.addr + 16) src n = some m') :
    Stores (InPayload b) m m' ∧ HeapOk m' blocks := by
  induction n generalizing m' with
  | zero =>
    obtain rfl : m = m' := some.inj returned
    exact ⟨.refl _ m, ok⟩
  | succ n ih =>
    obtain ⟨m1, copied, returned⟩ := bind_eq_some_iff.mp returned
    obtain ⟨value, -, stored⟩ := bind_eq_some_iff.mp returned
    obtain ⟨same1, ok1⟩ := ih (by omega) copied
    obtain ⟨same2, ok2⟩ := ok1.storePayload b member _ _ (by omega)
      (by simp only [Block.stop]; omega) stored
    exact ⟨same1.trans same2, ok2⟩

-- What `krealloc` of the block `b` leaves: `b` itself is only kept if the call failed.
structure Reallocated (m' : Machine) (blocks blocks' : List Block) (b : Block) (n q : Nat) :
    Prop where
  ok : HeapOk m' blocks'
  kept : ∀ u ∈ blocks, u.free = false → u ≠ b → u ∈ blocks'
  failed : q = 0 → n ≠ 0 → b ∈ blocks'
  new : q ≠ 0 → ∃ c ∈ blocks', c.free = false ∧ q = c.addr + 16 ∧ n ≤ c.size ∧
    ∀ u ∈ blocks, u.free = false → u ≠ b → u.addr ≠ c.addr

theorem HeapOk.free (ok : HeapOk m blocks) (b : Block) (member : b ∈ blocks)
    (used : b.free = false) :
    Yields True (kfree m (b.addr + 16)) fun m' =>
      Stores (fun a => ∀ u ∈ blocks, u.free = false → u ≠ b → ¬ InPayload u a) m m' ∧
        ∃ blocks', HeapOk m' blocks' ∧ (∀ u ∈ blocks, u.free = false → u ≠ b → u ∈ blocks') ∧
          ∀ u ∈ blocks', u.free = false → u ∈ blocks ∧ u.addr ≠ b.addr := by
  obtain ⟨xs, ys, rfl⟩ := append_of_mem member
  refine (kfree_yields True ok used).mono ?_
  rintro m' ⟨same, ok'⟩
  obtain ⟨stop, fills, -⟩ := ok.shape.fills
  refine ⟨same.mono ?_, _, ok', fun u inList isUsed other => mem_release inList isUsed other,
    fun u inList isUsed => used_of_release fills inList isUsed⟩
  intro a unused u inList isUsed other inside
  refine unused ⟨u, ?_, isUsed, inside⟩
  simp only [mem_append, mem_cons, other, false_or] at inList ⊢
  exact inList.imp_right .inr

theorem krealloc_effect (ok : HeapOk m blocks) (member : b ∈ blocks) (used : b.free = false)
    {q : Nat} (bound : n ≤ heapMaxSize) (low : b.size < n → ExpandsLow m n)
    (returned : krealloc m (b.addr + 16) n = some (m', q)) :
    Grows m m' ∧ ∃ blocks', Reallocated m' blocks blocks' b n q := by
  unfold krealloc at returned
  rw [if_neg (by omega), ok.block_of_pointer b member] at returned
  by_cases zero : n = 0
  · rw [if_pos zero] at returned
    obtain ⟨m1, freed, returned⟩ := bind_eq_some_iff.mp returned
    cases returned
    obtain ⟨same, blocks', ok', kept, -⟩ := (ok.free b member used).post _ freed
    exact ⟨same.toSameBut.grows, blocks', ok', kept, by simp [zero], by simp⟩
  · rw [if_neg zero] at returned
    have size := ok.header_size b member
    simp only [ok.sees.load _ size, bind_eq_bind, bind_some] at returned
    obtain ⟨stop, fills, -⟩ := ok.shape.fills
    by_cases large : n ≤ b.size
    · rw [if_pos large] at returned
      cases returned
      refine ⟨.refl m, blocks, ok, fun u inList _ _ => inList, fun _ _ => member, fun _ =>
        ⟨b, member, used, rfl, large, ?_⟩⟩
      intro u inList _ other sameAddr
      exact other (fills.addr_inj inList member sameAddr)
    · rw [if_neg large] at returned
      obtain ⟨⟨m1, p⟩, allocated, returned⟩ := bind_eq_some_iff.mp returned
      obtain ⟨grows1, blocks1, effect⟩ :=
        kmalloc_effect ok n p (by omega) bound (low (by omega)) allocated
      have stays := effect.kept b member used
      by_cases null : p = 0
      · simp only [null, if_true, pure] at returned
        cases returned
        exact ⟨grows1.toGrows, blocks1, effect.ok, fun u inList isUsed _ => effect.kept u inList isUsed,
          fun _ _ => stays, by simp⟩
      · obtain ⟨c, inNew, usedNew, rfl, fits, apart⟩ := effect.new null
        have size1 := effect.ok.header_size b stays
        simp only [null, if_false, effect.ok.sees.load _ size1, bind_some] at returned
        obtain ⟨m2, copied, returned⟩ := bind_eq_some_iff.mp returned
        obtain ⟨same2, ok2⟩ := copyWords_effect effect.ok inNew (by omega) copied
        obtain ⟨m3, freed, returned⟩ := bind_eq_some_iff.mp returned
        cases returned
        obtain ⟨same3, blocks3, ok3, kept3, -⟩ := (ok2.free b stays used).post _ freed
        have differs : c ≠ b := fun same => apart b member used (by rw [same])
        refine ⟨(grows1.toGrows.trans same2.toSameBut.grows).trans same3.toSameBut.grows, blocks3,
          ok3, ?_, by simp, fun _ =>
          ⟨c, kept3 c inNew usedNew differs, usedNew, rfl, fits,
            fun u inList isUsed _ => apart u inList isUsed⟩⟩
        intro u inList isUsed other
        exact kept3 u (effect.kept u inList isUsed) isUsed other

end

end ArgoOS.Memory
