import ArgoOS.Memory.HeapRun

set_option autoImplicit false

/-! # What becomes of the heap when everything is freed -/

namespace ArgoOS.Memory

open Machine Blocks Option List

def usedFrom (m : Machine) : Nat → Nat → Option (List (Nat × Nat))
  | 0, current => if current = 0 then some [] else none
  | fuel + 1, current =>
    if current = 0 then some []
    else do
      let size ← m.load current
      let free ← m.load (current + 4)
      let next ← m.load (current + 8)
      let rest ← usedFrom m fuel next
      return if free = 0 then (current, size) :: rest else rest

def liveBlocks (m : Machine) : Option (List (Nat × Nat)) := usedFrom m blockLimit m.heapStart

section

variable {m m' : Machine} {blocks blocks' : List Block}

theorem usedFrom_eq {view : View} (reads : Reads m view) {prev fuel : Nat} {blocks : List Block}
    (linked : Linked view prev blocks 0) (enough : blocks.length ≤ fuel) :
    usedFrom m fuel (front blocks 0) =
      some ((usedBlocks blocks).map fun b => (b.addr, b.size)) := by
  induction blocks generalizing prev fuel with
  | nil => cases fuel <;> rfl
  | cons b bs ih =>
    obtain ⟨header, rest⟩ := linked
    cases fuel with
    | zero => simp at enough
    | succ fuel =>
      have next := ih rest (by simpa using enough)
      simp only [front_cons, usedFrom, reads.notNull header, if_false, reads.load header.size,
        reads.load header.free, reads.load header.next, next, bind_eq_bind, bind_some]
      cases free : b.free with
      | true =>
        rw [usedBlocks_free free]
        rfl
      | false =>
        rw [usedBlocks_used free]
        rfl

theorem HeapOk.liveBlocks (ok : HeapOk m blocks) :
    Memory.liveBlocks m = some ((usedBlocks blocks).map fun b => (b.addr, b.size)) := by
  rw [Memory.liveBlocks, ok.front]
  exact usedFrom_eq ok.sees.reads ok.linked ok.length_le

theorem Outcome.used {n p : Nat} (outcome : Outcome m m' n blocks blocks' p) :
    (p = 0 ∧ usedBlocks blocks' = usedBlocks blocks) ∨
      ∃ xs c ys, blocks' = xs ++ c :: ys ∧ c.free = false ∧ p = c.addr + 16 ∧
        usedBlocks xs ++ usedBlocks ys = usedBlocks blocks := by
  have free : ∀ (b : Block) (size : Nat) (ys : List Block),
      usedBlocks (splitRest b size ++ ys) = usedBlocks ys := by
    intro b size ys
    have taken : usedBlocks ([] ++ takenHead b size :: (splitRest b size ++ ys)) =
        usedBlocks [] ++ takenHead b size :: usedBlocks ys := usedBlocks_take
    rw [nil_append, usedBlocks_used rfl, usedBlocks_nil, nil_append] at taken
    exact (List.cons.inj taken).2
  cases outcome with
  | refused blocks size => exact .inl ⟨rfl, rfl⟩
  | taken xs ys b found isFree fits size =>
    refine .inr ⟨xs, _, _, rfl, rfl, by rw [takenHead_addr], ?_⟩
    rw [free, usedBlocks_append, usedBlocks_free isFree]
  | grown xs b none size =>
    refine .inr ⟨_, _, _, rfl, rfl, by rw [takenHead_addr], ?_⟩
    rw [free, usedBlocks_nil, append_nil, usedBlocks_grow]

end

-- The part of the last new page that no block gets.
def slack (n : Nat) : Nat :=
  (alignSize n + headerSize + pageSize - 1) / pageSize * pageSize - (alignSize n + headerSize)

-- Calls of `kmalloc` and `kfree`, and writes in between. The events are the bytes that a
-- call has lost: the slack of a `kmalloc` that found no free block and did not fail.
def accountStep (s : HeapState) : HeapCall → Option (HeapState × List Nat)
  | .kmalloc n => do
    let (s', returned) ← heapStep s (.kmalloc n)
    return (s', [if findFreeBlock s.machine (alignSize n) blockLimit s.machine.heapStart = some 0 ∧
      returned ≠ [0] then slack n else 0])
  | .kfree p => do
    let (s', _) ← heapStep s (.kfree p)
    return (s', [])
  | .write p offset value => do
    let (s', _) ← heapStep s (.write p offset value)
    return (s', [])
  | .krealloc _ _ => none

structure Account (s : HeapState) (blocks : List Block) (lost : Nat) : Prop where
  ok : HeapOk s.machine blocks
  live : LiveOk blocks s.live
  covered : ∀ b ∈ usedBlocks blocks, b.addr + 16 ∈ s.live.map Prod.fst
  room : extent blocks + lost = s.machine.heapSize

section

variable {s s' : HeapState} {blocks : List Block} {lost n p : Nat} {events : List Nat}

theorem covered_cons {live : List (Nat × Nat)} {xs ys : List Block} {b c : Block}
    (covered : ∀ u ∈ usedBlocks xs ++ usedBlocks ys, u.addr + 16 ∈ live.map Prod.fst)
    (place : c.addr = b.addr) : ∀ u ∈ usedBlocks xs ++ c :: usedBlocks ys,
      u.addr + 16 ∈ (if b.addr + 16 = 0 then live else (b.addr + 16, n) :: live).map Prod.fst := by
  intro u member
  rw [if_neg (by omega), map_cons, mem_cons]
  by_cases new : u = c
  · exact .inl (by rw [new, place])
  · refine .inr (covered u ?_)
    simpa [new] using member

section

variable (account : Account s blocks lost)

include account

theorem Account.kmalloc (low : ExpandsLow s.machine n)
    (taken : accountStep s (.kmalloc n) = some (s', events)) :
    ∃ blocks', Account s' blocks' (lost + events.sum) := by
  obtain ⟨ok, live, covered, room⟩ := account
  obtain ⟨⟨s1, returned⟩, stepped, counted⟩ := bind_eq_some_iff.mp taken
  cases counted
  obtain ⟨blocks1, ok1, live1⟩ := kmalloc_inv ok live low stepped
  obtain ⟨sizes, m, p, allocated, rfl, rfl⟩ := heapStep_kmalloc_cases stepped
  obtain ⟨-, blocks', ok', outcome⟩ := kmalloc_outcome ok sizes.1 sizes.2 low allocated
  obtain rfl := ok'.list_eq ok1.linked ok1.front.symm
  have aligned := alignSize_eq sizes.2
  cases outcome with
  | refused blocks size =>
    refine ⟨_, ok', live1, by simpa using covered, ?_⟩
    simp [room, size]
  | taken xs ys b found isFree fits size =>
    have nonzero : b.addr ≠ 0 := ok.sees.notNull ((linked_append _ _ _ _ _).mp ok.linked).2.1
    refine ⟨_, ok', live1, ?_, ?_⟩
    · rw [usedBlocks_append, usedBlocks_free isFree] at covered
      rw [usedBlocks_take]
      exact covered_cons covered (takenHead_addr _ _)
    · rw [extent_take fits]
      simpa [found, nonzero, size] using room
  | grown xs b none size =>
    refine ⟨_, ok', live1, ?_, ?_⟩
    · rw [usedBlocks_take, usedBlocks_grow]
      exact covered_cons (by simpa using covered) (takenHead_addr _ _)
    · have fits : alignSize n ≤ (growList xs b (alignSize n + headerSize)).2.size :=
        growList_size xs b (alignSize n)
      rw [extent_take fits, extent_grow (by simp [headerSize])]
      simp only [none, size, slack, ne_eq, List.cons.injEq, Nat.add_eq_zero_iff, and_true, true_and,
        sum_singleton]
      rw [if_pos (by omega), ← room]
      simp only [headerSize, pageSize]
      omega

theorem Account.kfree (taken : accountStep s (.kfree p) = some (s', events)) :
    ∃ blocks', Account s' blocks' (lost + events.sum) := by
  obtain ⟨ok, live, covered, room⟩ := account
  obtain ⟨⟨s1, returned⟩, stepped, counted⟩ := bind_eq_some_iff.mp taken
  cases counted
  obtain ⟨blocks1, ok1, live1⟩ := kfree_inv ok live stepped
  obtain ⟨isLive, m, freed, rfl⟩ := heapStep_kfree_cases stepped
  obtain ⟨b, member, used, rfl⟩ := live.block p isLive
  obtain ⟨xs, ys, rfl⟩ := append_of_mem member
  obtain ⟨same, ok'⟩ := (kfree_yields True ok used).post _ freed
  obtain rfl := ok'.list_eq ok1.linked ok1.front.symm
  obtain ⟨stop, fills, -⟩ := ok.shape.fills
  refine ⟨_, ok', live1, ?_, ?_⟩
  · intro u inUsed
    obtain ⟨inList, isUsed⟩ := mem_filter.mp inUsed
    obtain ⟨old, other⟩ := used_of_release fills inList (by simpa using isUsed)
    obtain ⟨entry, inLive, place⟩ := List.mem_map.mp
      (covered u (mem_filter.mpr ⟨old, isUsed⟩))
    refine List.mem_map.mpr ⟨entry, mem_filter.mpr ⟨inLive, ?_⟩, place⟩
    simp only [decide_eq_true_eq]
    omega
  · rw [extent_release, same.heapSize]
    exact room

theorem Account.write {offset value : Nat}
    (taken : accountStep s (.write p offset value) = some (s', events)) :
    ∃ blocks', Account s' blocks' (lost + events.sum) := by
  obtain ⟨ok, live, covered, room⟩ := account
  obtain ⟨⟨s1, returned⟩, stepped, counted⟩ := bind_eq_some_iff.mp taken
  cases counted
  obtain ⟨⟨entry, member, rfl, below⟩, m, stored, rfl⟩ := heapStep_write_cases stepped
  obtain ⟨b, inList, -, place, fits⟩ := live.held entry member
  obtain ⟨same, ok'⟩ := ok.storePayload b inList _ _ (by omega) (by simp only [Block.stop]; omega)
    stored
  exact ⟨blocks, ok', live, covered, room.trans same.heapSize.symm⟩

theorem accountStep_account {call : HeapCall} (met : TablesStayLow s call)
    (taken : accountStep s call = some (s', events)) :
    ∃ blocks', Account s' blocks' (lost + events.sum) := by
  cases call with
  | kmalloc n => exact account.kmalloc met taken
  | kfree p => exact account.kfree taken
  | write p offset value => exact account.write taken
  | krealloc p n => cases taken

-- Of two neighbours one is in use, so that without used blocks there is one block.
theorem Account.single (freed : s.live = []) :
    ∃ size, blocks = [⟨heapBase, size, true⟩] ∧ size + headerSize + lost = s.machine.heapSize := by
  obtain ⟨ok, -, covered, room⟩ := account
  have free : ∀ b ∈ blocks, b.free = true := by
    intro b member
    by_contra used
    have held := covered b (mem_filter.mpr ⟨member, by simpa using used⟩)
    simp [freed] at held
  obtain ⟨stop, fills, -⟩ := ok.shape.fills
  obtain ⟨b, rest, rfl⟩ := exists_cons_of_ne_nil ok.nonempty
  cases rest with
  | nil =>
    refine ⟨b.size, ?_, ?_⟩
    · change [Block.mk b.addr b.size b.free] = _
      rw [fills.1, free b (by simp)]
    · simp only [extent_cons, extent_nil, headerSize] at *
      omega
  | cons c rest =>
    have parted := (List.isChain_cons_cons.mp ok.shape.parted).1
    rcases parted with used | used
    · simp [free b (by simp)] at used
    · simp [free c (by simp)] at used

end

end

theorem account_run {config : BootConfig} {m : Machine} (booted : boot config = some m)
    (hasHeap : m.heapStart ≠ 0) {history : List Nat} {state : HeapState}
    (run : Stepper.Run accountStep TablesStayLow ⟨m, []⟩ history state) :
    ∃ blocks, Account state blocks history.sum := by
  obtain ⟨ok, -, size⟩ := (boot_effect booted).1.resolve_left fun none => hasHeap none.1
  refine run.invariant (fun history s => ∃ blocks, Account s blocks history.sum) ?_ ?_
  · refine ⟨_, ok, ⟨by simp, .nil⟩, by simp [firstBlock, usedBlocks], ?_⟩
    rw [size]
    rfl
  · rintro history before after call events ⟨blocks, account⟩ met taken
    obtain ⟨blocks', account'⟩ := accountStep_account account met taken
    refine ⟨blocks', ?_⟩
    rw [sum_append, Nat.add_comm]
    exact account'

def OneBlock (m : Machine) (size : Nat) : Prop := BlockListSound m [⟨heapBase, size, true⟩]

theorem OneBlock.unique {m : Machine} {size size' : Nat} (first : OneBlock m size)
    (second : OneBlock m size') : size = size' := by
  have stored := first.linked.1.size
  rw [show m.load heapBase = some size' from second.linked.1.size, some.injEq] at stored
  exact stored.symm

theorem Account.oneBlock {s : HeapState} {blocks : List Block} {lost : Nat}
    (account : Account s blocks lost) (freed : s.live = []) :
    ∃ size, OneBlock s.machine size ∧ size + headerSize + lost = s.machine.heapSize := by
  obtain ⟨size, rfl, room⟩ := account.single freed
  exact ⟨size, account.ok.sound, room⟩

theorem freed_heap_one_block (config : BootConfig) (m : Machine) (booted : boot config = some m)
    (hasHeap : m.heapStart ≠ 0) (history : List Nat) (state : HeapState)
    (run : Stepper.Run accountStep TablesStayLow ⟨m, []⟩ history state) (freed : state.live = []) :
    OneBlock state.machine (state.machine.heapSize - headerSize) ↔ ∀ lost ∈ history, lost = 0 := by
  obtain ⟨blocks, account⟩ := account_run booted hasHeap run
  obtain ⟨size, single, room⟩ := account.oneBlock freed
  rw [← List.sum_eq_zero_iff_forall_eq_nat]
  constructor
  · intro whole
    have same := single.unique whole
    omega
  · intro none
    rw [show state.machine.heapSize - headerSize = size by omega]
    exact single

theorem plain_cycle (n : Nat) (sizes : 0xFFFF0 < n ∧ n ≤ heapMaxSize ∧ alignSize n = n)
    (none : findFreeBlock plainMachine n blockLimit plainMachine.heapStart = some 0)
    (count : (n + 16 + pageSize - 1) / pageSize = 257)
    (cycle : (placeBlock 257 n (withPages plainMachine 256 257, true)).any (fun (m, p) =>
      p = heapBase + 16 ∧ (kfree m p).isSome) = true) : ∃ state,
    Stepper.Run accountStep TablesStayLow ⟨plainMachine, []⟩ [slack n] state ∧ state.live = [] := by
  obtain ⟨large, bound, aligned⟩ := sizes
  obtain ⟨placed, low, -⟩ := plain_firstTable.2.grows 257 (by decide +kernel) none
    ⟨by omega, aligned⟩ count (by decide) (by decide)
  obtain ⟨⟨m1, p⟩, returned, both⟩ := (Option.any_eq_true _ _).mp cycle
  obtain ⟨rfl, isSome⟩ := of_decide_eq_true both
  obtain ⟨m2, freed⟩ := isSome_iff_exists.mp isSome
  have first : accountStep ⟨plainMachine, []⟩ (.kmalloc n) =
      some (⟨m1, [(heapBase + 16, n)]⟩, [slack n]) := by
    have stepped := heapStep_kmalloc ⟨plainMachine, []⟩ m1 n _ (by omega) bound (by decide)
      (placed.trans returned)
    rw [accountStep, stepped]
    simp [aligned, none]
  have second : accountStep ⟨m1, [(heapBase + 16, n)]⟩ (.kfree (heapBase + 16)) =
      some (⟨m2, []⟩, []) := by
    simp [accountStep, heapStep, freed, dropLive]
  have met : TablesStayLow ⟨plainMachine, []⟩ (.kmalloc n) := low
  have run : Stepper.Run accountStep TablesStayLow ⟨plainMachine, []⟩ ([slack n] ++ []) ⟨m1, _⟩ :=
    .step [] _ _ (.kmalloc n) _ .refl met first
  have met' : TablesStayLow ⟨m1, [(heapBase + 16, n)]⟩ (.kfree (heapBase + 16)) := trivial
  exact ⟨⟨m2, []⟩, .step _ _ _ _ [] run met' second, rfl⟩

theorem freed_heap_one_block_pages : ∃ m state, boot plainConfig = some m ∧
    Stepper.Run accountStep TablesStayLow ⟨m, []⟩ [slack 0x100FF0] state ∧ state.live = [] ∧
    OneBlock state.machine (state.machine.heapSize - headerSize) := by
  obtain ⟨state, run, freed⟩ := plain_cycle 0x100FF0 (by decide) (by decide +kernel) (by decide)
    (by decide +kernel)
  refine ⟨_, state, plain_boot, run, freed, ?_⟩
  exact (freed_heap_one_block plainConfig _ plain_boot (by decide +kernel) _ state run freed).mpr
    (by decide)

-- `expand_heap` maps 257 pages for 256 pages and a header.
theorem freed_heap_loses_bytes : ∃ m state, boot plainConfig = some m ∧ m.heapStart ≠ 0 ∧
    Stepper.Run accountStep TablesStayLow ⟨m, []⟩ [slack 0x100000] state ∧ state.live = [] ∧
    ¬ OneBlock state.machine (state.machine.heapSize - headerSize) := by
  have hasHeap : plainMachine.heapStart ≠ 0 := by decide +kernel
  obtain ⟨state, run, freed⟩ := plain_cycle 0x100000 (by decide) (by decide +kernel) (by decide)
    (by decide +kernel)
  refine ⟨_, state, plain_boot, hasHeap, run, freed, fun whole => ?_⟩
  obtain ⟨blocks, account⟩ := account_run plain_boot hasHeap run
  obtain ⟨size, single, room⟩ := account.oneBlock freed
  have lost : [slack 0x100000].sum = 0xFF0 := by decide
  have same := single.unique whole
  omega

end ArgoOS.Memory
