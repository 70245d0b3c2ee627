import ArgoOS.Memory.BlockLists
import ArgoOS.Memory.Mapping
import ArgoOS.Shared.Yields

set_option autoImplicit false

/-! # The heap operations on block lists -/

namespace ArgoOS.Memory

open Machine Blocks Partial Option List Function

def allGood : Nat → Bool := fun _ => true

structure Sees (m : Machine) (view : View) : Prop where
  mapping : ∃ tables pages, Mapping m allGood tables pages
  view : m.view allGood = view

variable {m : Machine} {view : View} {value : Nat} {written : Nat → Prop}

variable {m' : Machine}

section

section

variable (sees : Sees m view)

include sees

theorem Sees.high (a : Nat) (known : view a = some value) : heapBase ≤ a := by
  by_contra low
  rw [← sees.view] at known
  simp [Machine.view, low] at known

theorem Sees.load (a : Nat) (known : view a = some value) : m.load a = some value := by
  have high := sees.high a known
  rw [← sees.view] at known
  simpa [Machine.view, high, allGood] using known

theorem Sees.load_eq (a : Nat) (high : heapBase ≤ a) : view a = m.load a := by
  rw [← sees.view]
  simp [Machine.view, high, allGood]

theorem Sees.store (a value : Nat) (high : heapBase ≤ a) (stored : m.store a value = some m') :
    Sees m' (update view a (some value)) ∧ SameMap m m' := by
  obtain ⟨tables, pages, mapping⟩ := sees.mapping
  have mapping' := mapping.store_mapping a value high rfl stored
  refine ⟨⟨⟨tables, pages, mapping'⟩, ?_⟩, store_same stored, funext fun w =>
    mapping.translate_congr mapping' w rfl fun _ => rfl⟩
  rw [mapping.store_view a value high rfl stored, sees.view]

theorem Sees.store_yields {safe : Prop} (a value : Nat) (high : heapBase ≤ a)
    (known : safe → view a ≠ none) :
    Yields safe (m.store a value) fun m' =>
      Sees m' (update view a (some value)) ∧ SameMap m m' := by
  refine ⟨fun m' stored => sees.store a value high stored, fun isSafe => ?_⟩
  obtain ⟨old, read⟩ := Option.ne_none_iff_exists'.mp (known isSafe)
  obtain ⟨physical, target, -⟩ := map_eq_some_iff.mp (sees.load a read)
  exact ⟨{ m with ram := update m.ram physical value }, by simp [Machine.store, target]⟩

end

theorem Sees.rewrite_yields (safe : Prop) (sees : Sees m view) (a value : Nat) {old : Nat}
    (known : view a = some old) :
    Yields safe (m.store a value) fun m' =>
      Sees m' (update view a (some value)) ∧ SameMap m m' :=
  sees.store_yields a value (sees.high a known) fun _ => by simp [known]

theorem update_known {a b : Nat} (known : view a ≠ none) :
    update view b (some value) a ≠ none := by
  by_cases same : a = b
  · simp [same]
  · rwa [update_of_ne same]

theorem Sees.withUsed (sees : Sees m view) (used : Nat) : Sees { m with heapUsed := used } view := by
  obtain ⟨tables, pages, mapping⟩ := sees.mapping
  exact ⟨⟨tables, pages, { mapping with }⟩, sees.view⟩

structure Stores (written : Nat → Prop) (m m' : Machine) : Prop extends SameMap m m' where
  rewrites : Rewrites written (m.view allGood) (m'.view allGood)

theorem Stores.refl (written : Nat → Prop) (m : Machine) : Stores written m m :=
  ⟨.refl m, .refl _ _⟩

theorem Stores.trans {a b c : Machine} (first : Stores written a b) (second : Stores written b c) :
    Stores written a c :=
  ⟨first.toSameMap.trans second.toSameMap, first.rewrites.trans second.rewrites⟩

theorem Stores.mono {written' : Nat → Prop} (stores : Stores written m m')
    (wider : ∀ a, written a → written' a) : Stores written' m m' :=
  ⟨stores.toSameMap, stores.rewrites.mono wider⟩

theorem Sees.stores (sees : Sees m view) (a value : Nat) (high : heapBase ≤ a) (inside : written a)
    (stored : m.store a value = some m') : Stores written m m' := by
  obtain ⟨sees', same⟩ := sees.store a value high stored
  refine ⟨same, ?_⟩
  rw [sees'.view, sees.view]
  exact (Rewrites.refl _ view).update value inside

theorem sameMap_withUsed (m : Machine) (used : Nat) : SameMap m { m with heapUsed := used } :=
  ⟨⟨rfl, rfl, rfl, rfl, rfl, rfl, rfl, rfl⟩, rfl⟩

end

variable {prev size : Nat}

theorem Sees.notNull {b : Block} {next : Nat} (sees : Sees m view)
    (header : Header view b prev next) : b.addr ≠ 0 := by
  have high := sees.high _ header.size
  simp only [heapBase] at high
  omega

section

def Reads (m : Machine) (view : View) : Prop :=
  ∀ a value, view a = some value → heapBase ≤ a ∧ m.load a = some value

theorem Sees.reads (sees : Sees m view) : Reads m view :=
  fun a _ known => ⟨sees.high a known, sees.load a known⟩

theorem view_reads (m : Machine) (good : Nat → Bool) : Reads m (m.view good) := by
  intro a value known
  unfold Machine.view at known
  split at known
  · next visible => exact ⟨visible.1, known⟩
  · contradiction

theorem Reads.load (reads : Reads m view) {a : Nat} (known : view a = some value) :
    m.load a = some value :=
  (reads a value known).2

theorem Reads.notNull {b : Block} {next : Nat} (reads : Reads m view)
    (header : Header view b prev next) : b.addr ≠ 0 := by
  have high := (reads _ _ header.size).1
  simp only [heapBase] at high
  omega

def firstFit (size : Nat) (blocks : List Block) : Option Block :=
  blocks.find? fun b => b.free && decide (size ≤ b.size)

theorem findFreeBlock_eq (reads : Reads m view) (size : Nat) {fuel : Nat} {blocks : List Block}
    (linked : Linked view prev blocks 0) (enough : blocks.length ≤ fuel) :
    findFreeBlock m size fuel (front blocks 0) =
      some (((firstFit size blocks).map Block.addr).getD 0) := by
  induction blocks generalizing prev fuel with
  | nil => cases fuel <;> simp [findFreeBlock, firstFit]
  | cons b bs ih =>
    obtain ⟨header, rest⟩ := linked
    cases fuel with
    | zero => simp at enough
    | succ fuel =>
      have next := ih rest (by simpa using enough)
      simp only [front_cons, findFreeBlock, reads.notNull header, if_false, reads.load header.free,
        reads.load header.size, reads.load header.next, bind_eq_bind, bind_some]
      by_cases fits : b.free = true ∧ size ≤ b.size
      · simp [firstFit, fits.1, fits.2]
      · have passed : ¬ (b.free.toNat ≠ 0 ∧ size ≤ b.size) := by
          simpa using fits
        have skipped : (b.free && decide (size ≤ b.size)) = false := by
          simpa using fits
        rw [if_neg passed, next]
        simp [firstFit, skipped]

theorem lastBlock_eq (reads : Reads m view) {fuel : Nat} {xs : List Block} {b : Block}
    (linked : Linked view prev (xs ++ [b]) 0) (enough : xs.length < fuel) :
    lastBlock m fuel (front (xs ++ [b]) 0) = some b.addr := by
  induction xs generalizing prev fuel with
  | nil =>
    cases fuel with
    | zero => simp at enough
    | succ fuel => simp [lastBlock, reads.load linked.1.next]
  | cons x xs ih =>
    rw [cons_append] at linked
    obtain ⟨header, rest⟩ := linked
    cases fuel with
    | zero => simp at enough
    | succ fuel =>
      have next := ih rest (by simpa using enough)
      have notNull : front (xs ++ [b]) 0 ≠ 0 := by
        cases xs with
        | nil => exact reads.notNull rest.1
        | cons y ys => exact reads.notNull rest.1
      simp only [cons_append, front_cons, lastBlock, reads.load header.next,
        bind_eq_bind, bind_some, notNull, if_false]
      exact next

end

section

theorem kmalloc_cases {n p : Nat} (nonzero : n ≠ 0) (returned : kmalloc m n = some (m', p)) :
    (∃ block, findFreeBlock m (alignSize n) blockLimit m.heapStart = some block ∧ block ≠ 0 ∧
      takeBlock m block (alignSize n) = some (m', p)) ∨
    findFreeBlock m (alignSize n) blockLimit m.heapStart = some 0 ∧
      (expandHeap m (word (alignSize n + headerSize)) = some (m', false) ∧ p = 0 ∨
        ∃ m1, expandHeap m (word (alignSize n + headerSize)) = some (m1, true) ∧
          (do
            let last ← lastBlock m1 blockLimit m1.heapStart
            let (m, block) ← growLast m1 last (word (alignSize n + headerSize))
            takeBlock m block (alignSize n)) = some (m', p)) := by
  rw [kmalloc, if_neg nonzero] at returned
  obtain ⟨block, found, returned⟩ := bind_eq_some_iff.mp returned
  by_cases null : block = 0
  · subst null
    simp only [ne_eq, not_true_eq_false, if_false] at returned
    obtain ⟨⟨m1, expanded⟩, grown, returned⟩ := bind_eq_some_iff.mp returned
    cases expanded with
    | false =>
      simp only [Bool.false_eq_true, if_false, pure] at returned
      cases returned
      exact .inr ⟨found, .inl ⟨grown, rfl⟩⟩
    | true => exact .inr ⟨found, .inr ⟨m1, grown, returned⟩⟩
  · simp only [ne_eq, null, not_false_eq_true, if_true] at returned
    exact .inl ⟨block, found, null, returned⟩

theorem expandHeap_cases {expanded : Bool} (returned : expandHeap m size = some (m', expanded)) :
    heapMaxSize < word (m.heapSize + size) ∧ expanded = false ∧ m' = m ∨
    word (m.heapSize + size) ≤ heapMaxSize ∧ ∃ m1,
      mapPages (word (size + pageSize - 1) / pageSize) (heapBase + m.heapSize) m =
        some (m1, expanded) ∧
      m' = if expanded then { m1 with
        heapSize := word (m1.heapSize + word (size + pageSize - 1) / pageSize * pageSize) }
      else m1 := by
  unfold expandHeap at returned
  split at returned
  · next full =>
    cases returned
    exact .inl ⟨full, rfl, rfl⟩
  · next room =>
    obtain ⟨⟨m1, mapped⟩, grown, returned⟩ := bind_eq_some_iff.mp returned
    refine .inr ⟨by omega, m1, ?_⟩
    cases mapped with
    | false =>
      cases returned
      exact ⟨grown, rfl⟩
    | true =>
      cases returned
      exact ⟨grown, rfl⟩

end

def heapEnd : Nat := heapBase + heapMaxSize

theorem word_eq (n : Nat) (bound : n < 0x100000000) : word n = n := Nat.mod_eq_of_lt bound

theorem wordSub_eq (a b : Nat) (bound : a < 0x100000000) (le : b ≤ a) : wordSub a b = a - b := by
  unfold wordSub
  omega

theorem setPrev_yields (safe : Prop) (sees : Sees m view) {ys : List Block} (link : Nat)
    (linked : Linked view prev ys 0) :
    Yields safe (setPrev m (front ys 0) link) fun m' => ∃ view', Sees m' view' ∧ SameMap m m' ∧
      (ys ≠ [] → view' (front ys 0 + 12) = some link) ∧
      ∀ a, (ys ≠ [] → a ≠ front ys 0 + 12) → view' a = view a := by
  cases ys with
  | nil => exact .pure ⟨view, sees, .refl m, by simp, fun _ _ => rfl⟩
  | cons y ys =>
    rw [setPrev, front_cons, if_pos (sees.notNull linked.1)]
    refine (sees.rewrite_yields safe _ link linked.1.prev).mono ?_
    rintro m' ⟨sees', same⟩
    refine ⟨_, sees', same, by simp, ?_⟩
    intro a other
    exact update_of_ne (other (by simp)) _ _

-- The list was rewritten without touching a block in use.
def Relinks (view : View) (blocks blocks' : List Block) (m m' : Machine) : Prop :=
  ∃ view', Sees m' view' ∧ SameMap m m' ∧ Linked view' 0 blocks' 0 ∧
    Rewrites (fun a => ¬ InUse blocks a) view view'

theorem Relinks.refl {blocks : List Block} (sees : Sees m view) (linked : Linked view 0 blocks 0) :
    Relinks view blocks blocks m m :=
  ⟨view, sees, .refl m, linked, .refl _ view⟩

def splitOff (b : Block) (size : Nat) : Block :=
  { addr := b.addr + 16 + size, size := b.size - size - 16, free := true }

theorem split_linked {view' : View} {xs ys : List Block} {b : Block} {stop : Nat}
    (linked : Linked view 0 (xs ++ b :: ys) 0) (fills : Contiguous heapBase (xs ++ b :: ys) stop)
    (room : size + 20 ≤ b.size)
    (link : ys ≠ [] → view' (front ys 0 + 12) = some (splitOff b size).addr)
    (same : ∀ a, (ys ≠ [] → a ≠ front ys 0 + 12) →
      view' a = writeHeader view (splitOff b size) b.addr (front ys 0) a) :
    Linked (update (update view' (b.addr + 8) (some (splitOff b size).addr))
      b.addr (some size)) 0 (xs ++ { b with size } :: splitOff b size :: ys) 0 := by
  obtain ⟨-, header, -⟩ := (linked_append _ _ _ _ _).mp linked
  have place : (splitOff b size).addr = b.addr + 16 + size := rfl
  have new := writeHeader_other view (splitOff b size) b.addr (front ys 0)
  have yFront : ys ≠ [] → front ys 0 = b.addr + 16 + b.size :=
    fun nonempty => fills.split.2.2.2.nonempty_front nonempty
  -- Away from the link of the next block, only the two headers were written.
  have kept : ∀ a, a ≠ b.addr → a ≠ b.addr + 8 → (ys ≠ [] → a ≠ front ys 0 + 12) →
      update (update view' (b.addr + 8) (some (splitOff b size).addr)) b.addr
        (some size) a = writeHeader view (splitOff b size) b.addr (front ys 0) a := by
    intro a notSize notNext notLink
    rw [update_of_ne notSize, update_of_ne notNext]
    exact same a notLink
  have below : ∀ a, a < b.addr + 16 + b.size → ys ≠ [] → a ≠ front ys 0 + 12 := by
    intro a inside nonempty
    rw [yFront nonempty]
    omega
  refine linked.exchange _ [{ b with size }, splitOff b size] fills rfl ⟨⟨?_, ?_, ?_, ?_⟩, ?_, trivial⟩
    ?_ ?_ ?_
  · simp
  · rw [kept _ (by simp) (by simp) (below _ (by simp only; omega)), new _ (by simp only; omega)]
    exact header.free
  · rw [update_of_ne (by simp)]
    exact update_self _ _ _
  · rw [kept _ (by simp) (by simp) (below _ (by simp only; omega)), new _ (by simp only; omega)]
    exact header.prev
  · refine (writeHeader_header view (splitOff b size) b.addr (front ys 0)).congr
      fun a reached inHeader => ?_
    exact kept a (by omega) (by omega) (below a (by omega))
  · intro a low
    rw [kept a (by omega) (by omega) (below a (by omega)), new a (by omega)]
  · intro _ a past notLink
    simp only [Block.stop] at past
    rw [kept a (by omega) (by omega) (fun _ => notLink), new a (by omega)]
  · intro nonempty
    have start := yFront nonempty
    rw [update_of_ne (by omega), update_of_ne (by omega)]
    exact link nonempty

theorem splitBlock_yields (sees : Sees m view) {xs ys : List Block} {b : Block} {limit : Nat}
    (linked : Linked view 0 (xs ++ b :: ys) 0) (tiled : Tiled (xs ++ b :: ys) limit)
    (small : limit ≤ heapEnd) (isFree : b.free = true) (fits : size ≤ b.size)
    (words : size % 4 = 0) :
    Yields (∀ a, b.addr ≤ a → a < b.stop → a % 4 = 0 → view a ≠ none)
      (splitBlock m b.addr size) (Relinks view (xs ++ b :: ys)
        (xs ++ splitHead b size :: (splitRest b size ++ ys)) m) := by
  obtain ⟨stop, fills, bound⟩ := tiled.fills
  have inside := tiled.bounds b (by simp)
  have aligned := tiled.aligned b (by simp)
  obtain ⟨linkedFirst, header, linkedLast⟩ := (linked_append _ _ _ _ _).mp linked
  simp only [Block.stop, heapBase, heapEnd, heapMaxSize] at inside small ⊢
  unfold splitBlock
  rw [sees.load _ header.size, bind_eq_bind, bind_some,
    wordSub_eq _ _ (by omega) fits]
  by_cases splits : 20 ≤ b.size - size
  · rw [if_pos (by simpa [headerSize] using splits), word_eq _ (by simp only [headerSize]; omega),
      wordSub_eq _ _ (by omega) (by simp only [headerSize]; omega)]
    simp only [headerSize]
    have place : (splitOff b size).addr = b.addr + 16 + size := rfl
    refine (sees.store_yields _ _ (by simp only [heapBase]; omega)
      fun known => known _ (by omega) (by omega) (by omega)).bind ?_
    rintro m1 ⟨sees1, same1⟩
    refine (sees1.store_yields _ _ (by simp only [heapBase]; omega)
      fun known => update_known (known _ (by omega) (by omega) (by omega))).bind ?_
    rintro m2 ⟨sees2, same2⟩
    rw [sees2.load (b.addr + 8) (by
      rw [update_of_ne (by omega), update_of_ne (by omega)]
      exact header.next), bind_some]
    refine (sees2.store_yields _ _ (by simp only [heapBase]; omega) fun known =>
      update_known (update_known (known _ (by omega) (by omega) (by omega)))).bind ?_
    rintro m3 ⟨sees3, same3⟩
    refine (sees3.store_yields _ _ (by simp only [heapBase]; omega) fun known => update_known
      (update_known (update_known (known _ (by omega) (by omega) (by omega))))).bind ?_
    rintro m4 ⟨sees4, same4⟩
    change Sees m4 (writeHeader view (splitOff b size) b.addr (front ys 0)) at sees4
    have kept4 := writeHeader_other view (splitOff b size) b.addr (front ys 0)
    have next4 := (kept4 (b.addr + 8) (by omega)).trans header.next
    rw [sees4.load _ next4, bind_some]
    have linkedLast4 : Linked _ b.addr ys 0 := linkedLast.congr fun y member a reached _ => by
      have above := (fills.split.2.1 y member)
      simp only [Block.stop] at above
      exact kept4 a (by omega)
    refine (setPrev_yields _ sees4 _ linkedLast4).bind ?_
    rintro m5 ⟨view5, sees5, same5, link5, kept5⟩
    have below : ∀ a, a < b.addr + 16 → ys ≠ [] → a ≠ front ys 0 + 12 := by
      intro a inHeader nonempty
      rw [fills.split.2.2.2.nonempty_front nonempty, Block.stop]
      omega
    have next5 := (kept5 _ (below _ (by omega))).trans next4
    have size5 := (kept5 _ (below _ (by omega))).trans ((kept4 b.addr (by omega)).trans header.size)
    refine (sees5.rewrite_yields _ _ _ next5).bind ?_
    rintro m6 ⟨sees6, same6⟩
    refine (sees6.store_yields _ _ (by simp only [heapBase]; omega)
      fun _ => update_known (by simp [size5])).mono ?_
    rintro m7 ⟨sees7, same7⟩
    refine ⟨_, sees7, ((((((same1.trans same2).trans same3).trans same4).trans same5).trans
      same6).trans same7), ?_, ?_⟩
    · have split := split_linked linked fills (by omega) link5 kept5
      rw [splitHead, splitRest, if_pos splits, if_pos splits]
      exact split
    · have inBlock : ∀ a, b.addr ≤ a → a < b.addr + 16 + b.size → ¬ InUse (xs ++ b :: ys) a :=
        fun a reached below => fills.free_unused (by simp) isFree reached below
      have header4 : Rewrites (fun a => ¬ InUse (xs ++ b :: ys) a) view _ :=
        rewrites_header (b := splitOff b size) b.addr (front ys 0)
          fun a reached below => inBlock a (by omega) (by omega)
      exact ((header4.trans (rewrites_link link5 kept5 fills.link_unused)).update _
        (inBlock _ (by omega) (by omega))).update _ (inBlock _ (by omega) (by omega))
  · rw [if_neg (by simpa [headerSize] using splits)]
    simpa [splitHead, splitRest, splits] using Yields.pure (Relinks.refl sees linked)

theorem setFree_yields (safe : Prop) (sees : Sees m view) {xs ys : List Block} {b : Block}
    (free : Bool) {limit : Nat} (linked : Linked view 0 (xs ++ b :: ys) 0)
    (tiled : Tiled (xs ++ b :: ys) limit) :
    Yields safe (m.store (b.addr + 4) free.toNat)
      (Relinks view (xs ++ b :: ys) (xs ++ { b with free } :: ys) m) := by
  obtain ⟨stop, fills, -⟩ := tiled.fills
  obtain ⟨-, header, -⟩ := (linked_append _ _ _ _ _).mp linked
  have yFront : ys ≠ [] → front ys 0 = b.stop :=
    fun nonempty => fills.split.2.2.2.nonempty_front nonempty
  refine (sees.rewrite_yields safe _ _ header.free).mono ?_
  rintro m' ⟨sees', same⟩
  refine ⟨_, sees', same, ?_, (Rewrites.refl _ view).update _
    (fills.header_unused (c := b) (by simp) (by omega) (by omega))⟩
  refine linked.exchange _ [{ b with free }] fills rfl ⟨⟨?_, by simp, ?_, ?_⟩, trivial⟩ ?_ ?_ ?_
  · simpa using header.size
  · simpa using header.next
  · simpa using header.prev
  · intro a low
    exact update_of_ne (by omega) _ _
  · intro _ a past _
    simp only [Block.stop] at past
    exact update_of_ne (by omega) _ _
  · intro nonempty
    have place := yFront nonempty
    simp only [Block.stop] at place
    rw [update_of_ne (by omega)]
    rw [append_cons] at linked
    simpa using linked.link_back nonempty

-- What `merge_blocks` does with two neighbours, whichever of them was freed.
def absorb (m : Machine) (block next last : Nat) : Option Machine := do
  let blockSize ← m.load block
  let nextSize ← m.load next
  let m ← m.store block (word (blockSize + (headerSize + nextSize)))
  let after ← m.load (next + 8)
  let m ← m.store (block + 8) after
  let next ← m.load (last + 8)
  setPrev m next block

section

variable (safe : Prop) (sees : Sees m view) (xs ys : List Block) (b : Block) (limit : Nat)

include sees

theorem absorb_yields {c : Block} (last : Nat) (linked : Linked view 0 (xs ++ b :: c :: ys) 0)
    (tiled : Tiled (xs ++ b :: c :: ys) limit) (small : limit ≤ heapEnd)
    (either : last = b.addr ∨ last = c.addr) :
    Yields safe (absorb m b.addr c.addr last) (Relinks view (xs ++ b :: c :: ys)
      (xs ++ { b with size := b.size + (16 + c.size) } :: ys) m) := by
  obtain ⟨stop, fills, -⟩ := tiled.fills
  obtain ⟨-, header, header', linkedRest⟩ := (linked_append _ _ _ _ _).mp linked
  obtain ⟨-, -, -, adjacent, rest⟩ := fills.split
  have inside := tiled.bounds b (by simp)
  have inside' := tiled.bounds c (by simp)
  have yFront : ys ≠ [] → front ys 0 = c.stop := fun nonempty => rest.nonempty_front nonempty
  simp only [Block.stop, heapBase, heapEnd, heapMaxSize] at inside inside' adjacent small yFront
  simp only [absorb, sees.load _ header.size, sees.load _ header'.size, bind_eq_bind,
    bind_some, headerSize]
  rw [word_eq _ (by omega)]
  refine (sees.rewrite_yields safe _ _ header.size).bind ?_
  rintro m1 ⟨sees1, same1⟩
  have next1 := (update_of_ne (show c.addr + 8 ≠ b.addr by omega)
    (some (b.size + (16 + c.size))) view).trans header'.next
  rw [sees1.load _ next1, bind_some]
  refine (sees1.store_yields _ _ (by simp only [heapBase]; omega)
    fun _ => update_known (by simp [header.next])).bind ?_
  rintro m2 ⟨sees2, same2⟩
  have next2 : update (update view b.addr (some (b.size + (16 + c.size))))
      (b.addr + 8) (some (front ys 0)) (last + 8) = some (front ys 0) := by
    rcases either with rfl | rfl
    · exact update_self _ _ _
    · rw [update_of_ne (by omega), next1]
  rw [sees2.load _ next2, bind_some]
  have kept : ∀ k, k ≠ b.addr → k ≠ b.addr + 8 →
      update (update view b.addr (some (b.size + (16 + c.size))))
        (b.addr + 8) (some (front ys 0)) k = view k := by
    intro k notSize notNext
    rw [update_of_ne notNext, update_of_ne notSize]
  have linkedRest' := linkedRest.congr (fun y member k reached _ => by
    have above := (rest.bounds y member).1
    simp only [Block.stop] at above
    exact kept k (by omega) (by omega))
  refine (setPrev_yields safe sees2 _ linkedRest').mono ?_
  rintro m' ⟨view', sees', same3, link, kept'⟩
  have below : ∀ k, k < c.addr → ys ≠ [] → k ≠ front ys 0 + 12 := by
    intro k low nonempty
    rw [yFront nonempty]
    omega
  have linkUnused : ys ≠ [] → ¬ InUse (xs ++ b :: c :: ys) (front ys 0 + 12) := by
    have fills' := fills
    rw [append_cons] at fills' ⊢
    exact fills'.link_unused
  have inHeader : ∀ k, b.addr ≤ k → k < b.addr + 16 → ¬ InUse (xs ++ b :: c :: ys) k :=
    fun k reached below => fills.header_unused (c := b) (by simp) reached below
  refine ⟨view', sees', (same1.trans same2).trans same3, ?_, (((Rewrites.refl _ view).update _
    (inHeader _ (by omega) (by omega))).update _ (inHeader _ (by omega) (by omega))).trans
      (rewrites_link link kept' linkUnused)⟩
  have linked' : Linked view 0 (xs ++ [b, c] ++ ys) 0 := by simpa using linked
  have fills' : Contiguous heapBase (xs ++ [b, c] ++ ys) stop := by simpa using fills
  have replaced := linked'.replace view' [{ b with size := b.size + (16 + c.size) }] fills' rfl
    ⟨⟨?_, ?_, ?_, ?_⟩, trivial⟩ ?_ ?_ ?_
  · simpa using replaced
  · rw [kept' _ (below _ (by simp only; omega))]
    simp
  · rw [kept' _ (below _ (by simp only; omega)), kept _ (by simp) (by simp)]
    exact header.free
  · rw [kept' _ (below _ (by simp only; omega))]
    simp
  · rw [kept' _ (below _ (by simp only; omega)), kept _ (by simp) (by simp)]
    exact header.prev
  · intro k low
    rw [kept' k (below k (by omega)), kept k (by omega) (by omega)]
  · intro _ k reached notLink
    have past := reached c (by simp)
    simp only [Block.stop] at past
    rw [kept' k (fun _ => notLink), kept k (by omega) (by omega)]
  · intro nonempty
    simpa using link nonempty

variable (linked : Linked view 0 (xs ++ b :: ys) 0) (tiled : Tiled (xs ++ b :: ys) limit)
  (small : limit ≤ heapEnd)

include linked tiled small

theorem mergeNext_yields :
    Yields safe (mergeNext m b.addr) (Relinks view (xs ++ b :: ys)
      (xs ++ (mergeNextList b ys).1 :: (mergeNextList b ys).2) m) := by
  obtain ⟨-, header, linkedLast⟩ := (linked_append _ _ _ _ _).mp linked
  unfold mergeNext
  rw [sees.load _ header.next, bind_eq_bind, bind_some]
  cases ys with
  | nil => exact .pure (.refl sees linked)
  | cons c ys =>
    obtain ⟨header', -⟩ := linkedLast
    rw [front_cons, if_neg (sees.notNull header'), sees.load _ header'.free, bind_some]
    cases free : c.free with
    | false => simpa [mergeNextList, free] using Yields.pure (Relinks.refl sees linked)
    | true =>
      simpa [mergeNextList, free, absorb] using
        absorb_yields safe sees xs ys b limit b.addr linked tiled small (.inl rfl)

theorem mergePrev_yields :
    Yields safe (mergePrev m b.addr) (Relinks view (xs ++ b :: ys) (mergePrevList xs b ys) m) := by
  obtain ⟨linkedFirst, header, -⟩ := (linked_append _ _ _ _ _).mp linked
  unfold mergePrev
  rw [sees.load _ header.prev, bind_eq_bind, bind_some]
  rcases xs.eq_nil_or_concat' with rfl | ⟨xs, a, rfl⟩
  · exact .pure (.refl sees linked)
  · obtain ⟨-, header', -⟩ := (linked_append _ _ _ _ _).mp linkedFirst
    rw [back_append, back_cons, back_nil, if_neg (sees.notNull header'), sees.load _ header'.free,
      bind_some]
    cases free : a.free with
    | false => simpa [mergePrevList, free] using Yields.pure (Relinks.refl sees linked)
    | true =>
      rw [append_assoc] at linked tiled
      simpa [mergePrevList, free, absorb] using
        absorb_yields safe sees xs ys a limit b.addr linked tiled small (.inr rfl)

end

theorem append_linked {xs : List Block} {b : Block} (new : Block) {stop : Nat}
    (linked : Linked view 0 (xs ++ [b]) 0) (fills : Contiguous heapBase (xs ++ [b]) stop)
    (place : new.addr = b.stop) :
    Linked (update (writeHeader view new b.addr 0) (b.addr + 8) (some new.addr)) 0
      (xs ++ [b, new]) 0 := by
  obtain ⟨-, header, -⟩ := (linked_append _ _ _ _ _).mp linked
  simp only [Block.stop] at place
  have kept : ∀ a, a ≠ b.addr + 8 → a < new.addr ∨ new.addr + 16 ≤ a →
      update (writeHeader view new b.addr 0) (b.addr + 8) (some new.addr) a = view a := by
    intro a notNext outside
    rw [update_of_ne notNext, writeHeader_other view new _ _ a outside]
  refine linked.exchange _ [b, new] fills rfl ⟨⟨?_, ?_, ?_, ?_⟩, ?_, trivial⟩ ?_ ?_ ?_
  · rw [kept _ (by simp) (by omega)]
    exact header.size
  · rw [kept _ (by simp) (by omega)]
    exact header.free
  · simp
  · rw [kept _ (by simp) (by omega)]
    exact header.prev
  · refine (writeHeader_header view new b.addr 0).congr fun a reached _ => ?_
    exact update_of_ne (by omega) _ _
  · intro a low
    exact kept a (by omega) (by omega)
  · simp
  · simp

theorem growLast_yields (sees : Sees m view) {xs : List Block} {b : Block} {expandSize limit : Nat}
    (linked : Linked view 0 (xs ++ [b]) 0) (tiled : Tiled (xs ++ [b]) limit)
    (room : 20 ≤ expandSize) (small : limit + expandSize ≤ 2 * heapEnd) :
    Yields (∀ a, b.stop ≤ a → a < b.stop + 16 → a % 4 = 0 → view a ≠ none)
      (growLast m b.addr expandSize) fun (m', block) =>
        block = (growList xs b expandSize).2.addr ∧ Relinks view (xs ++ [b])
          ((growList xs b expandSize).1 ++ [(growList xs b expandSize).2]) m m' := by
  obtain ⟨stop, fills, -⟩ := tiled.fills
  have inside := tiled.bounds b (by simp)
  have aligned := tiled.aligned b (by simp)
  have words := tiled.sizes b (by simp)
  obtain ⟨-, header, -⟩ := (linked_append _ _ _ _ _).mp linked
  have last : b.stop = stop := fills.split.2.2.2
  have inHeader : ∀ a, b.addr ≤ a → a < b.addr + 16 → ¬ InUse (xs ++ [b]) a :=
    fun a reached below => fills.header_unused (c := b) (by simp) reached below
  simp only [Block.stop, heapBase, heapEnd, heapMaxSize] at inside small
  unfold growLast
  rw [sees.load _ header.free, bind_eq_bind, bind_some]
  cases free : b.free with
  | true =>
    simp only [Bool.toNat_true, ne_eq, Nat.one_ne_zero, not_false_eq_true, if_true,
      sees.load _ header.size, bind_some]
    rw [word_eq _ (by omega)]
    refine (sees.rewrite_yields _ _ _ header.size).bind ?_
    rintro m1 ⟨sees1, same1⟩
    rw [growList, if_pos free]
    refine .pure ⟨rfl, _, sees1, same1, ?_, (Rewrites.refl _ view).update _
      (inHeader _ (by omega) (by omega))⟩
    refine linked.exchange _ [{ b with size := b.size + expandSize }] fills rfl
      ⟨⟨?_, ?_, ?_, ?_⟩, trivial⟩ ?_ ?_ ?_
    · simp
    · simpa using header.free
    · simpa using header.next
    · simpa using header.prev
    · intro a low
      exact update_of_ne (by omega) _ _
    · simp
    · simp
  | false =>
    simp only [Bool.toNat_false, ne_eq, not_true_eq_false, if_false,
      sees.load _ header.size, bind_some, headerSize]
    rw [word_eq _ (by omega), wordSub_eq _ _ (by omega) (by omega)]
    let new : Block := ⟨b.stop, expandSize - 16, true⟩
    have known0 : (∀ a, b.stop ≤ a → a < b.stop + 16 → a % 4 = 0 → view a ≠ none) →
        ∀ i < 4, view (b.addr + 16 + b.size + 4 * i) ≠ none := by
      intro known i small
      exact known _ (by simp only [Block.stop]; omega) (by simp only [Block.stop]; omega) (by omega)
    refine (sees.store_yields _ _ (by simp only [heapBase]; omega)
      fun known => known0 known 0 (by omega)).bind ?_
    rintro m1 ⟨sees1, same1⟩
    refine (sees1.store_yields _ _ (by simp only [heapBase]; omega)
      fun known => update_known (known0 known 1 (by omega))).bind ?_
    rintro m2 ⟨sees2, same2⟩
    refine (sees2.store_yields _ _ (by simp only [heapBase]; omega)
      fun known => update_known (update_known (known0 known 2 (by omega)))).bind ?_
    rintro m3 ⟨sees3, same3⟩
    refine (sees3.store_yields _ _ (by simp only [heapBase]; omega) fun known =>
      update_known (update_known (update_known (known0 known 3 (by omega))))).bind ?_
    rintro m4 ⟨sees4, same4⟩
    refine (sees4.store_yields _ _ (by simp only [heapBase]; omega) fun _ =>
      update_known (update_known (update_known (update_known (by simp [header.next]))))).bind ?_
    rintro m5 ⟨sees5, same5⟩
    change Sees m5 (update (writeHeader view new b.addr 0) (b.addr + 8) (some new.addr))
      at sees5
    refine .pure ⟨by simp [growList, free, Block.stop], _, sees5,
      (((same1.trans same2).trans same3).trans same4).trans same5, ?_, ?_⟩
    · have appended := append_linked new linked fills rfl
      simpa [growList, free] using appended
    · exact (rewrites_header (b := new) b.addr 0
        fun a reached _ => fills.above_unused (by rw [← last]; exact reached)).update _
        (inHeader _ (by omega) (by omega))

end ArgoOS.Memory
