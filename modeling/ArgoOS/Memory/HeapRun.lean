import ArgoOS.Memory.FirstTable
import ArgoOS.Shared.Run

set_option autoImplicit false

/-! # Runs of the heap -/

namespace ArgoOS.Memory

open Machine Blocks Option List

structure HeapState where
  machine : Machine
  live : List (Nat × Nat)

inductive HeapCall where
  | kmalloc (n : Nat)
  | kfree (p : Nat)
  | krealloc (p n : Nat)
  | write (p offset value : Nat)
deriving DecidableEq, Repr

def dropLive (live : List (Nat × Nat)) (p : Nat) : List (Nat × Nat) :=
  live.filter fun entry => entry.1 ≠ p

def heapStep (s : HeapState) : HeapCall → Option (HeapState × List Nat)
  | .kmalloc n =>
    if 1 ≤ n ∧ n ≤ heapMaxSize then do
      let (m, p) ← kmalloc s.machine n
      return (⟨m, if p = 0 then s.live else (p, n) :: s.live⟩, [p])
    else none
  | .kfree p =>
    if p ∈ s.live.map Prod.fst then do
      let m ← kfree s.machine p
      return (⟨m, dropLive s.live p⟩, [])
    else none
  | .krealloc p n =>
    if p ∈ s.live.map Prod.fst ∧ n ≤ heapMaxSize then do
      let (m, q) ← krealloc s.machine p n
      let live :=
        if q ≠ 0 then (q, n) :: dropLive s.live p
        else if n = 0 then dropLive s.live p
        else s.live
      return (⟨m, live⟩, [q])
    else none
  | .write p offset value =>
    if offset % 4 = 0 ∧ ∃ entry ∈ s.live, entry.1 = p ∧ offset < entry.2 then do
      let m ← s.machine.store (p + offset) value
      return (⟨m, s.live⟩, [])
    else none

-- Whenever a call makes `paging_map_page` ask for a table, the lowest free frame lies
-- in the first four megabytes, or no frame is free.
def TablesStayLow (s : HeapState) : HeapCall → Prop
  | .kmalloc n => ExpandsLow s.machine n
  | .krealloc p n => ∀ size, s.machine.load (wordSub p headerSize) = some size → size < n →
      ExpandsLow s.machine n
  | .kfree _ => True
  | .write _ _ _ => True

structure BlockListSound (m : Machine) (blocks : List Block) : Prop where
  first : front blocks 0 = m.heapStart
  linked : Linked m.load 0 blocks 0
  contiguous : ∃ stop, Contiguous heapBase blocks stop ∧ stop ≤ heapBase + m.heapSize
  words : ∀ b ∈ blocks, b.size % 4 = 0
  parted : blocks.IsChain Parted

structure HeapSound (s : HeapState) : Prop where
  blocks : ∃ blocks, blocks ≠ [] ∧ BlockListSound s.machine blocks
  bounded : s.machine.heapSize ≤ heapMaxSize
  inside : ∀ entry ∈ s.live, heapBase ≤ entry.1 ∧
    entry.1 + entry.2 ≤ heapBase + s.machine.heapSize ∧ entry.1 % 4 = 0
  disjoint : s.live.Pairwise fun a b => a.1 + a.2 ≤ b.1 ∨ b.1 + b.2 ≤ a.1

structure LiveOk (blocks : List Block) (live : List (Nat × Nat)) : Prop where
  held : ∀ entry ∈ live, ∃ b ∈ blocks, b.free = false ∧ entry.1 = b.addr + 16 ∧ entry.2 ≤ b.size
  distinct : live.Pairwise fun a b => a.1 ≠ b.1

section

variable {blocks blocks' : List Block} {live : List (Nat × Nat)}

section

variable (ok : LiveOk blocks live)

include ok

theorem LiveOk.mono (kept : ∀ u ∈ blocks, u.free = false → u ∈ blocks') : LiveOk blocks' live := by
  refine ⟨?_, ok.distinct⟩
  intro entry member
  obtain ⟨b, inList, used, rest⟩ := ok.held entry member
  exact ⟨b, kept b inList used, used, rest⟩

theorem LiveOk.add (b : Block) (n : Nat) (member : b ∈ blocks) (used : b.free = false)
    (fits : n ≤ b.size) (apart : ∀ entry ∈ live, entry.1 ≠ b.addr + 16) :
    LiveOk blocks ((b.addr + 16, n) :: live) := by
  refine ⟨?_, List.pairwise_cons.mpr ⟨fun entry inLive same => apart entry inLive same.symm,
    ok.distinct⟩⟩
  intro entry inLive
  rcases mem_cons.mp inLive with rfl | old
  · exact ⟨b, member, used, rfl, fits⟩
  · exact ok.held entry old

theorem LiveOk.without (b : Block) (kept : ∀ u ∈ blocks, u.free = false → u ≠ b → u ∈ blocks')
    (apart : ∀ entry ∈ live, entry.1 ≠ b.addr + 16) : LiveOk blocks' live := by
  refine ⟨?_, ok.distinct⟩
  intro entry member
  obtain ⟨c, inList, used, place, fits⟩ := ok.held entry member
  refine ⟨c, kept c inList used ?_, used, place, fits⟩
  rintro rfl
  exact apart entry member place

theorem LiveOk.sublist {live' : List (Nat × Nat)} (part : live'.Sublist live) :
    LiveOk blocks live' :=
  ⟨fun entry member => ok.held entry (part.subset member), ok.distinct.sublist part⟩

theorem LiveOk.perm {live' : List (Nat × Nat)} (same : live.Perm live') : LiveOk blocks live' :=
  ⟨fun entry member => ok.held entry (same.mem_iff.mpr member),
    (same.pairwise_iff fun different => different.symm).mp ok.distinct⟩

theorem LiveOk.drop (b : Block) (kept : ∀ u ∈ blocks, u.free = false → u ≠ b → u ∈ blocks') :
    LiveOk blocks' (dropLive live (b.addr + 16)) := by
  refine (ok.sublist filter_sublist).without b kept ?_
  intro entry member
  simp only [mem_filter, decide_eq_true_eq] at member
  exact member.2

end

theorem HeapOk.sound {m : Machine} (ok : HeapOk m blocks) : BlockListSound m blocks := by
  refine ⟨ok.front.symm, ok.linked.congr ?_, ok.shape.fills,
    fun b member => (ok.shape.sizes b member).1, ok.shape.parted⟩
  intro b member a reached _
  have base := (ok.shape.bounds b member).1
  exact (ok.sees.load_eq a (by omega)).symm

theorem LiveOk.sound {m : Machine} (ok : HeapOk m blocks) (liveOk : LiveOk blocks live) :
    HeapSound ⟨m, live⟩ := by
  obtain ⟨stop, fills, bound⟩ := ok.shape.fills
  refine ⟨⟨blocks, ok.nonempty, ok.sound⟩, ok.bounded, ?_, ?_⟩
  · intro entry member
    obtain ⟨b, inList, -, place, fits⟩ := liveOk.held entry member
    have inHeap := ok.shape.bounds b inList
    have words := ok.shape.aligned b inList
    simp only [Block.stop] at inHeap
    simp only
    omega
  · refine liveOk.distinct.imp_of_mem ?_
    intro a b first second different
    obtain ⟨c, inC, -, placeC, fitsC⟩ := liveOk.held a first
    obtain ⟨d, inD, -, placeD, fitsD⟩ := liveOk.held b second
    have apart := fills.apart inC inD
    simp only [Block.stop] at apart
    rcases apart with rfl | before | after <;> omega

end

variable {n p : Nat}

section

variable {s s' : HeapState} {blocks : List Block} {events : List Nat}

theorem LiveOk.block {live : List (Nat × Nat)} (ok : LiveOk blocks live) (p : Nat)
    (isLive : p ∈ live.map Prod.fst) : ∃ b ∈ blocks, b.free = false ∧ p = b.addr + 16 := by
  obtain ⟨entry, member, rfl⟩ := List.mem_map.mp isLive
  obtain ⟨b, inList, used, place, -⟩ := ok.held entry member
  exact ⟨b, inList, used, place⟩

theorem heapStep_kmalloc_cases (taken : heapStep s (.kmalloc n) = some (s', events)) :
    (1 ≤ n ∧ n ≤ heapMaxSize) ∧ ∃ m p, kmalloc s.machine n = some (m, p) ∧
      s' = ⟨m, if p = 0 then s.live else (p, n) :: s.live⟩ ∧ events = [p] := by
  rw [heapStep] at taken
  split at taken
  · next sizes =>
    obtain ⟨⟨m, p⟩, returned, taken⟩ := bind_eq_some_iff.mp taken
    cases taken
    exact ⟨sizes, m, p, returned, rfl, rfl⟩
  · contradiction

theorem heapStep_kfree_cases (taken : heapStep s (.kfree p) = some (s', events)) :
    p ∈ s.live.map Prod.fst ∧ ∃ m, kfree s.machine p = some m ∧ s' = ⟨m, dropLive s.live p⟩ := by
  rw [heapStep] at taken
  split at taken
  · next isLive =>
    obtain ⟨m, returned, taken⟩ := bind_eq_some_iff.mp taken
    cases taken
    exact ⟨isLive, m, returned, rfl⟩
  · contradiction

theorem heapStep_write_cases {offset value : Nat}
    (taken : heapStep s (.write p offset value) = some (s', events)) :
    (∃ entry ∈ s.live, entry.1 = p ∧ offset < entry.2) ∧
      ∃ m, s.machine.store (p + offset) value = some m ∧ s' = ⟨m, s.live⟩ := by
  rw [heapStep] at taken
  split at taken
  · next inside =>
    obtain ⟨m, stored, taken⟩ := bind_eq_some_iff.mp taken
    cases taken
    exact ⟨inside.2, m, stored, rfl⟩
  · contradiction

section

variable (ok : HeapOk s.machine blocks) (live : LiveOk blocks s.live)

include ok live

theorem kmalloc_inv (met : TablesStayLow s (.kmalloc n))
    (taken : heapStep s (.kmalloc n) = some (s', events)) :
    ∃ blocks', HeapOk s'.machine blocks' ∧ LiveOk blocks' s'.live := by
  obtain ⟨sizes, m, p, returned, rfl, -⟩ := heapStep_kmalloc_cases taken
  obtain ⟨-, blocks', effect⟩ := kmalloc_effect ok n p sizes.1 sizes.2 met returned
  refine ⟨blocks', effect.ok, ?_⟩
  have kept := live.mono effect.kept
  by_cases null : p = 0
  · simpa [null] using kept
  · obtain ⟨b, member, used, rfl, fits, apart⟩ := effect.new null
    simp only [null, if_false]
    refine kept.add b n member used fits ?_
    intro entry inLive same
    obtain ⟨c, inList, usedC, place, -⟩ := live.held entry inLive
    exact apart c inList usedC (by omega)

theorem kfree_inv (taken : heapStep s (.kfree p) = some (s', events)) :
    ∃ blocks', HeapOk s'.machine blocks' ∧ LiveOk blocks' s'.live := by
  obtain ⟨isLive, m, returned, rfl⟩ := heapStep_kfree_cases taken
  obtain ⟨b, member, used, rfl⟩ := live.block p isLive
  obtain ⟨-, blocks', ok', kept, -⟩ := (ok.free b member used).post _ returned
  exact ⟨blocks', ok', live.drop b kept⟩

theorem krealloc_inv (met : TablesStayLow s (.krealloc p n))
    (taken : heapStep s (.krealloc p n) = some (s', events)) :
    ∃ blocks', HeapOk s'.machine blocks' ∧ LiveOk blocks' s'.live := by
  rw [heapStep] at taken
  split at taken
  · next sizes =>
    obtain ⟨⟨m, q⟩, returned, taken⟩ := bind_eq_some_iff.mp taken
    cases taken
    obtain ⟨b, member, used, rfl⟩ := live.block p sizes.1
    have low : b.size < n → ExpandsLow s.machine n := by
      refine met b.size ?_
      rw [ok.block_of_pointer b member]
      exact ok.sees.load _ (ok.header_size b member)
    obtain ⟨-, blocks', effect⟩ := krealloc_effect ok member used sizes.2 low returned
    refine ⟨blocks', effect.ok, ?_⟩
    have dropped := live.drop b effect.kept
    by_cases null : q = 0
    · by_cases zero : n = 0
      · simpa [null, zero] using dropped
      · simp only [null, ne_eq, not_true_eq_false, if_false, zero]
        have stays := effect.failed null zero
        refine live.mono fun u inList isUsed => ?_
        by_cases same : u = b
        · rwa [same]
        · exact effect.kept u inList isUsed same
    · obtain ⟨c, inNew, usedNew, rfl, fits, apart⟩ := effect.new null
      simp only [ne_eq, null, not_false_eq_true, if_true]
      refine dropped.add c n inNew usedNew fits ?_
      intro entry inLive same
      simp only [dropLive, mem_filter, decide_eq_true_eq] at inLive
      obtain ⟨d, inList, usedD, place, -⟩ := live.held entry inLive.1
      refine apart d inList usedD ?_ (by omega)
      rintro rfl
      exact inLive.2 place
  · contradiction

theorem write_inv {offset value : Nat}
    (taken : heapStep s (.write p offset value) = some (s', events)) :
    ∃ blocks', HeapOk s'.machine blocks' ∧ LiveOk blocks' s'.live := by
  obtain ⟨⟨entry, member, rfl, below⟩, m, stored, rfl⟩ := heapStep_write_cases taken
  obtain ⟨b, inList, -, place, fits⟩ := live.held entry member
  obtain ⟨-, ok'⟩ := ok.storePayload b inList _ _ (by omega) (by simp only [Block.stop]; omega)
    stored
  exact ⟨blocks, ok', live⟩

theorem heapStep_inv (call : HeapCall) (met : TablesStayLow s call)
    (taken : heapStep s call = some (s', events)) :
    ∃ blocks', HeapOk s'.machine blocks' ∧ LiveOk blocks' s'.live := by
  cases call with
  | kmalloc n => exact kmalloc_inv ok live met taken
  | kfree p => exact kfree_inv ok live taken
  | krealloc p n => exact krealloc_inv ok live met taken
  | write p offset value => exact write_inv ok live taken

end

end

theorem heapStep_kmalloc (s : HeapState) (m : Machine) (n p : Nat) (positive : 1 ≤ n)
    (bound : n ≤ heapMaxSize) (nonzero : p ≠ 0) (returned : kmalloc s.machine n = some (m, p)) :
    heapStep s (.kmalloc n) = some (⟨m, (p, n) :: s.live⟩, [p]) := by
  simp [heapStep, positive, bound, returned, nonzero]

theorem heap_run_sound (config : BootConfig) (m : Machine) (booted : boot config = some m)
    (hasHeap : m.heapStart ≠ 0) (history : List Nat) (state : HeapState)
    (run : Stepper.Run heapStep TablesStayLow ⟨m, []⟩ history state) : HeapSound state := by
  have ok : HeapOk m [firstBlock] := by
    rcases (boot_effect booted).1 with none | ⟨ok, -⟩
    · exact absurd none.1 hasHeap
    · exact ok
  have reached : ∃ blocks, HeapOk state.machine blocks ∧ LiveOk blocks state.live := by
    refine run.invariant (fun _ s => ∃ blocks, HeapOk s.machine blocks ∧ LiveOk blocks s.live)
      ⟨_, ok, by simp, .nil⟩ ?_
    rintro _ before after call events ⟨blocks, ok, live⟩ met taken
    exact heapStep_inv ok live call met taken
  obtain ⟨blocks, ok, live⟩ := reached
  exact live.sound ok

theorem heap_run_sound_growth : ∃ m history state, boot plainConfig = some m ∧
    m.heapStart ≠ 0 ∧ Stepper.Run heapStep TablesStayLow ⟨m, []⟩ history state ∧
    state.live = [(heapBase + 16, 0x2030F0)] ∧ HeapSound state := by
  have hasHeap : plainMachine.heapStart ≠ 0 := by decide +kernel
  obtain ⟨returned, low, -⟩ := plain_grows
  have met : TablesStayLow ⟨plainMachine, []⟩ (.kmalloc 0x2030F0) := low
  have run : Stepper.Run heapStep TablesStayLow ⟨plainMachine, []⟩ ([heapBase + 16] ++ [])
      ⟨grownMachine, [(heapBase + 16, 0x2030F0)]⟩ := .step [] _ _ (.kmalloc 0x2030F0) _ .refl met
    (heapStep_kmalloc ⟨plainMachine, []⟩ _ _ _ (by decide) (by decide) (by decide) returned)
  exact ⟨_, _, _, plain_boot, hasHeap, run, rfl, heap_run_sound plainConfig _ plain_boot hasHeap _ _ run⟩

theorem not_sound_of_prev {s : HeapState} (next : Nat) (start : s.machine.heapStart = heapBase)
    (nonzero : next ≠ 0) (forward : s.machine.load (heapBase + 8) = some next)
    (backward : s.machine.load (next + 12) = some 0) : ¬ HeapSound s := by
  intro sound
  obtain ⟨blocks, nonempty, list⟩ := sound.blocks
  obtain ⟨b, rest, rfl⟩ := exists_cons_of_ne_nil nonempty
  obtain ⟨header, linked⟩ := list.linked
  have place : b.addr = heapBase := list.first.trans start
  have after : front rest 0 = next := by
    have stored := header.next
    rw [place, forward, some.injEq] at stored
    exact stored.symm
  cases rest with
  | nil => exact nonzero after.symm
  | cons c rest =>
    have stored := linked.1.prev
    rw [show c.addr = next from after, backward, place] at stored
    exact absurd stored (by decide)

-- The second of these requests runs past the first table. The frame of the next one is
-- cleared through its physical address, where the heap has the header of its last block.
theorem page_table_damages_heap : ∃ m history state, boot plainConfig = some m ∧
    m.heapStart ≠ 0 ∧ Stepper.Run heapStep (fun _ _ => True) ⟨m, []⟩ history state ∧
    ¬ HeapSound state := by
  have first : Stepper.Run heapStep (fun _ _ => True) ⟨plainMachine, []⟩ ([heapBase + 16] ++ [])
      ⟨grownMachine, [(heapBase + 16, 0x2030F0)]⟩ :=
    .step [] _ _ (.kmalloc 0x2030F0) _ .refl trivial
      (heapStep_kmalloc ⟨plainMachine, []⟩ _ _ _ (by decide) (by decide) (by decide) plain_grows.1)
  have second := Stepper.Run.step _ _ _ (.kmalloc 0x100000) _ first trivial
    (heapStep_kmalloc ⟨grownMachine, _⟩ _ _ _ (by decide) (by decide) (by decide) grown_damaged)
  exact ⟨_, _, _, plain_boot, by decide +kernel, second,
    not_sound_of_prev 0x603100 (by decide +kernel) (by decide) (by decide +kernel)
      (by decide +kernel)⟩

end ArgoOS.Memory
