import Mathlib
import ArgoOS.Memory.Pmm
import ArgoOS.Shared.Run

set_option autoImplicit false

/-! # Runs of the physical memory manager -/

namespace ArgoOS.Memory

open List UInt32

structure Pmm.Represents (pmm : Pmm) (used : Finset Nat) : Prop where
  members : ∀ page, pmm.Used page ↔ page ∈ used
  counted : pmm.usedPages.toNat = used.card
  inside : ∀ page ∈ used, page < pmm.totalPages
  covered : pmm.totalPages ≤ 32 * pmm.bitmapSize
  bounded : pmm.totalPages ≤ 65536

variable {pmm : Pmm} {used : Finset Nat} {page : Nat}

section

variable (represents : pmm.Represents used)

include represents

theorem Pmm.Represents.subset : used ⊆ Finset.range pmm.totalPages := by
  intro page member
  exact Finset.mem_range.mpr (represents.inside page member)

theorem Pmm.Represents.card_le : used.card ≤ pmm.totalPages := by
  have least := Finset.card_le_card represents.subset
  rwa [Finset.card_range] at least

theorem Pmm.Represents.markUsed (free : page ∉ used) (bound : page < pmm.totalPages) :
    (pmm.markUsed page).Represents (insert page used) where
  members := by
    intro other
    rw [Pmm.markUsed_used, represents.members, Finset.mem_insert, or_comm]
  counted := by
    have count := represents.counted
    have room : used.card < pmm.totalPages := by
      have least := Finset.card_le_card (Finset.insert_subset (Finset.mem_range.mpr bound)
        represents.subset)
      rw [Finset.card_insert_of_notMem free, Finset.card_range] at least
      omega
    have bounded := represents.bounded
    rw [Finset.card_insert_of_notMem free, ← count]
    show (pmm.usedPages + 1).toNat = _
    rw [UInt32.toNat_add, show (1 : UInt32).toNat = 1 from rfl]
    omega
  inside := by
    intro other member
    obtain rfl | old := Finset.mem_insert.mp member
    · exact bound
    · exact represents.inside other old
  covered := represents.covered
  bounded := represents.bounded

theorem Pmm.Represents.bitmapClear (taken : page ∈ used) :
    Pmm.Represents { pmm.bitmapClear page with usedPages := pmm.usedPages - 1 }
      (used.erase page) where
  members := by
    intro other
    rw [Finset.mem_erase, ← represents.members, and_comm]
    exact pmm.bitmapClear_used page other
  counted := by
    have count := represents.counted
    have positive := Finset.card_pos.mpr ⟨page, taken⟩
    have one : (1 : UInt32) ≤ pmm.usedPages := by
      rw [le_iff_toNat_le, show (1 : UInt32).toNat = 1 from rfl]
      omega
    rw [Finset.card_erase_of_mem taken, ← count]
    exact UInt32.toNat_sub_of_le _ _ one
  inside := fun other member => represents.inside other (Finset.mem_of_mem_erase member)
  covered := represents.covered
  bounded := represents.bounded

theorem Pmm.Represents.allocPage : (pmmAllocPage pmm = none ∧ used.card = pmm.totalPages) ∨
    ∃ page, pmmAllocPage pmm = some (page, pmm.markUsed page) ∧ page < pmm.totalPages ∧
      page ∉ used ∧ (∀ q < page, q ∈ used) ∧ used.card < pmm.totalPages := by
  cases allocated : pmmAllocPage pmm with
  | none =>
    have full := (pmmAllocPage_none represents.covered).mp allocated
    refine .inl ⟨rfl, ?_⟩
    have all : used = Finset.range pmm.totalPages := by
      refine Finset.Subset.antisymm represents.subset ?_
      intro page member
      exact (represents.members page).mp (full page (Finset.mem_range.mp member))
    rw [all, Finset.card_range]
  | some pair =>
    obtain ⟨page, after⟩ := pair
    obtain ⟨free, below, bound, rfl⟩ := pmmAllocPage_some allocated
    rw [represents.members] at free
    refine .inr ⟨page, rfl, bound, free, fun q less => (represents.members q).mp (below q less), ?_⟩
    have strict : used ⊂ Finset.range pmm.totalPages :=
      (Finset.ssubset_iff_of_subset represents.subset).mpr
        ⟨page, Finset.mem_range.mpr bound, free⟩
    have less := Finset.card_lt_card strict
    rwa [Finset.card_range] at less

theorem Pmm.Represents.freePage (address : UInt32) : (pmmFreePage pmm address).Represents
    (if address = 0 then used else used.erase (address.toNat / pageSize)) := by
  unfold pmmFreePage
  by_cases null : address = 0
  · simpa [null] using represents
  · simp only [if_neg null]
    by_cases taken : address.toNat / pageSize ∈ used
    · have bound := represents.inside _ taken
      have test := (pmm.bitmapTest_iff _).mpr ((represents.members _).mpr taken)
      rw [if_neg (Nat.not_le.mpr bound), if_pos test]
      exact represents.bitmapClear taken
    · rw [Finset.erase_eq_of_notMem taken]
      split
      · exact represents
      · split
        · next test =>
          exact absurd ((represents.members _).mp ((pmm.bitmapTest_iff _).mp test)) taken
        · exact represents

end

section

theorem markAll_represents (represents : pmm.Represents used) {pages : List Nat}
    (bound : ∀ page ∈ pages, page < pmm.totalPages) :
    (pages.foldl (fun pmm page => if pmm.bitmapTest page then pmm else pmm.markUsed page)
      pmm).Represents (used ∪ pages.toFinset) := by
  induction pages generalizing pmm used with
  | nil => simpa using represents
  | cons page pages ih =>
    have first : (if pmm.bitmapTest page then pmm else pmm.markUsed page).Represents
        (insert page used) := by
      split
      · next test =>
        rw [Finset.insert_eq_of_mem ((represents.members page).mp ((pmm.bitmapTest_iff page).mp test))]
        exact represents
      · next test =>
        refine represents.markUsed ?_ (bound page mem_cons_self)
        intro member
        exact test ((pmm.bitmapTest_iff page).mpr ((represents.members page).mpr member))
    have rest := ih first (fun other member => by
      have inside := bound other (mem_cons_of_mem page member)
      split <;> exact inside)
    rwa [Finset.insert_union, ← Finset.union_insert, ← toFinset_cons] at rest

theorem markFirst_represents (represents : pmm.Represents ∅) {n : Nat}
    (bound : n ≤ pmm.totalPages) :
    ((List.range n).foldl Pmm.markUsed pmm).Represents (Finset.range n) := by
  induction n with
  | zero => simpa using represents
  | succ n ih =>
    have total := (foldl_marks Pmm.markUsed markUsed_marks (List.range n) pmm).totalPages
    rw [range_succ, foldl_append, foldl_cons, foldl_nil, Finset.range_add_one]
    exact (ih (by omega)).markUsed Finset.notMem_range_self (by omega)

def MmapEntry.Marks (entry : MmapEntry) (page : Nat) : Prop :=
  entry.type ≠ 1 ∧ entry.addrLow.toNat / pageSize ≤ page ∧
    page < (entry.addrLow + entry.lenLow).toNat / pageSize

instance (entry : MmapEntry) (page : Nat) : Decidable (entry.Marks page) :=
  inferInstanceAs (Decidable (_ ∧ _ ∧ _))

def MultibootInfo.entries (info : MultibootInfo) : List MmapEntry :=
  if info.flags &&& 0x40 ≠ 0 then info.mmap else []

def MultibootInfo.totalPages (info : MultibootInfo) : Nat :=
  (totalMemory info).toNat / pageSize

def MultibootInfo.bitmapSize (info : MultibootInfo) : Nat :=
  (info.totalPages + 31) / 32

def initialUsed (info : MultibootInfo) : Finset Nat :=
  (Finset.range info.totalPages).filter (fun page =>
    page < reservedPages info.bitmapSize ∨ ∃ entry ∈ info.entries, entry.Marks page)

theorem markEntry_represents (represents : pmm.Represents used) (entry : MmapEntry) :
    (markEntry pmm entry).Represents
      (used ∪ (Finset.range pmm.totalPages).filter entry.Marks) := by
  unfold markEntry
  split
  · next reserved =>
    have pages : (List.range' (entry.addrLow.toNat / pageSize)
        (min ((entry.addrLow + entry.lenLow).toNat / pageSize) pmm.totalPages -
          entry.addrLow.toNat / pageSize)).toFinset =
        (Finset.range pmm.totalPages).filter entry.Marks := by
      ext page
      simp only [mem_toFinset, mem_range'_1, Finset.mem_filter, Finset.mem_range,
        MmapEntry.Marks, reserved, ne_eq, not_false_eq_true, true_and]
      omega
    rw [← pages]
    refine markAll_represents represents ?_
    intro page member
    rw [mem_range'_1] at member
    omega
  · next free =>
    have none : (Finset.range pmm.totalPages).filter entry.Marks = ∅ := by
      refine Finset.filter_eq_empty_iff.mpr ?_
      intro page _ marks
      exact free marks.1
    rw [none, Finset.union_empty]
    exact represents

theorem markEntries_represents (represents : pmm.Represents used) (entries : List MmapEntry) :
    (entries.foldl markEntry pmm).Represents
      (used ∪ (Finset.range pmm.totalPages).filter (fun page =>
        ∃ entry ∈ entries, entry.Marks page)) := by
  induction entries generalizing pmm used with
  | nil => simpa using represents
  | cons entry entries ih =>
    have rest := ih (markEntry_represents represents entry)
    rw [(markEntry_marks pmm entry).totalPages, Finset.union_assoc, ← Finset.filter_or] at rest
    simpa only [foldl_cons, mem_cons, exists_eq_or_imp] using rest

theorem pmmInit_represents (info : MultibootInfo) :
    (pmmInit info).Represents (initialUsed info) := by
  have total := totalMemory_le info
  have bounded : info.totalPages ≤ 65536 := by
    simp only [MultibootInfo.totalPages, pageSize]
    omega
  have covered : info.totalPages ≤ 32 * info.bitmapSize := by
    unfold MultibootInfo.bitmapSize
    omega
  have empty : Pmm.Represents ⟨fun _ => 0#32, info.totalPages, 0, info.bitmapSize⟩ ∅ :=
    ⟨by simp [Pmm.Used], rfl, by simp, covered, bounded⟩
  have first : (pmmStart info).Represents
      (Finset.range (min (reservedPages info.bitmapSize) info.totalPages)) :=
    markFirst_represents empty (Nat.min_le_right _ _)
  have marked := markEntries_represents first info.entries
  have same : pmmInit info = info.entries.foldl markEntry (pmmStart info) := by
    rw [pmmInit_eq, MultibootInfo.entries]
    split <;> rfl
  have sets : Finset.range (min (reservedPages info.bitmapSize) info.totalPages) ∪
      (Finset.range (pmmStart info).totalPages).filter (fun page =>
        ∃ entry ∈ info.entries, entry.Marks page) = initialUsed info := by
    rw [show (pmmStart info).totalPages = info.totalPages from (pmmStart_sizes info).1]
    ext page
    simp only [initialUsed, Finset.mem_union, Finset.mem_range, Finset.mem_filter, lt_min_iff]
    tauto
  rwa [same, ← sets]

theorem pmmInit_totalPages (info : MultibootInfo) : (pmmInit info).totalPages = info.totalPages :=
  (pmmInit_marks info).totalPages.trans (pmmStart_sizes info).1

theorem zero_initialUsed {info : MultibootInfo} (some : 0 < info.totalPages) :
    0 ∈ initialUsed info := by
  refine Finset.mem_filter.mpr ⟨Finset.mem_range.mpr some, .inl ?_⟩
  simp only [reservedPages, pageSize]
  omega

end

-- The pointer that `pmm_alloc_page` returns, with 0 for `NULL`.
def allocAddress (pmm : Pmm) : UInt32 × Pmm :=
  match pmmAllocPage pmm with
  | none => (0, pmm)
  | some (page, after) => (UInt32.ofNat (page * pageSize), after)

inductive PmmCall where
  | pmmAllocPage
  | pmmFreePage (address : UInt32)
deriving DecidableEq

inductive PmmEvent where
  | returned (address : UInt32)
  | freed (address : UInt32)
deriving DecidableEq

-- The log is newest first.
structure PmmTrace where
  pmm : Pmm
  log : List PmmEvent

def pmmStep (trace : PmmTrace) : PmmCall → Option (PmmTrace × List Empty)
  | .pmmAllocPage =>
    some (⟨(allocAddress trace.pmm).2, .returned (allocAddress trace.pmm).1 :: trace.log⟩, [])
  | .pmmFreePage address =>
    some (⟨pmmFreePage trace.pmm address, .freed address :: trace.log⟩, [])

def HandedOut : List PmmEvent → Nat → Prop
  | [], _ => False
  | .returned address :: log, page =>
    (address ≠ 0 ∧ address.toNat / pageSize = page) ∨ HandedOut log page
  | .freed address :: log, page => address.toNat / pageSize ≠ page ∧ HandedOut log page

theorem pmmFreePage_totalPages (pmm : Pmm) (address : UInt32) :
    (pmmFreePage pmm address).totalPages = pmm.totalPages := by
  simp only [pmmFreePage]
  split
  · rfl
  · split
    · rfl
    · split <;> rfl

section

variable (represents : pmm.Represents used) (zero : 0 < pmm.totalPages → 0 ∈ used)

include represents zero

/-- `NULL` means that every page is used, since page 0 never is the lowest free one. -/
theorem allocAddress_cases : ((allocAddress pmm).1 = 0 ∧ (allocAddress pmm).2 = pmm ∧
      used.card = pmm.totalPages) ∨
    ∃ page, (allocAddress pmm).1 ≠ 0 ∧ (allocAddress pmm).1.toNat = page * pageSize ∧
      (allocAddress pmm).2 = pmm.markUsed page ∧ page < pmm.totalPages ∧ page ∉ used ∧
      (∀ q < page, q ∈ used) ∧ used.card < pmm.totalPages := by
  obtain ⟨none, full⟩ | ⟨page, some, bound, free, below, room⟩ := represents.allocPage
  · exact .inl ⟨by simp [allocAddress, none], by simp [allocAddress, none], full⟩
  · have bounded := represents.bounded
    have positive : page ≠ 0 := by
      rintro rfl
      exact free (zero bound)
    have address : (UInt32.ofNat (page * pageSize)).toNat = page * pageSize := by
      unfold pageSize
      exact toNat_ofNat_of_lt' (by simp only [UInt32.size]; omega)
    refine .inr ⟨page, ?_, ?_, ?_, bound, free, below, room⟩
    · intro null
      simp only [allocAddress, some] at null
      rw [null, show (0 : UInt32).toNat = 0 from rfl] at address
      unfold pageSize at address
      omega
    · simpa only [allocAddress, some] using address
    · simp only [allocAddress, some]

end

structure PmmSound (trace : PmmTrace) : Prop where
  counted : trace.pmm.usedPages.toNat =
    ((Finset.range trace.pmm.totalPages).filter trace.pmm.Used).card
  phantom : ∀ page, trace.pmm.totalPages ≤ page → page / 32 < trace.pmm.bitmapSize →
    ¬trace.pmm.Used page
  null : (allocAddress trace.pmm).1 = 0 ↔ trace.pmm.usedPages.toNat = trace.pmm.totalPages
  lowest : (allocAddress trace.pmm).1 ≠ 0 → ∃ page < trace.pmm.totalPages,
    (allocAddress trace.pmm).1.toNat = page * pageSize ∧ ¬trace.pmm.Used page ∧
      (∀ q < page, trace.pmm.Used q) ∧ ¬HandedOut trace.log page
  freePages : trace.pmm.usedPages.toNat ≤ trace.pmm.totalPages ∧
    (pmmGetFreePages trace.pmm).toNat = trace.pmm.totalPages - trace.pmm.usedPages.toNat

def FreesAboveFirst (_ : PmmTrace) : PmmCall → Prop
  | .pmmAllocPage => True
  | .pmmFreePage address => address = 0 ∨ pageSize ≤ address.toNat

instance (trace : PmmTrace) : (call : PmmCall) → Decidable (FreesAboveFirst trace call)
  | .pmmAllocPage => inferInstanceAs (Decidable True)
  | .pmmFreePage _ => inferInstanceAs (Decidable (_ ∨ _))

structure PmmInvariant (trace : PmmTrace) (used : Finset Nat) : Prop where
  represents : trace.pmm.Represents used
  zero : 0 < trace.pmm.totalPages → 0 ∈ used
  handed : ∀ page, HandedOut trace.log page → page ∈ used

theorem pmmStep_invariant {before after : PmmTrace} {call : PmmCall} {events : List Empty}
    (inv : PmmInvariant before used) (met : FreesAboveFirst before call)
    (taken : pmmStep before call = some (after, events)) : ∃ used', PmmInvariant after used' := by
  cases call with
  | pmmAllocPage =>
    cases taken
    obtain ⟨null, same, -⟩ | ⟨page, some, address, marked, bound, free, -, -⟩ :=
      allocAddress_cases inv.represents inv.zero
    · refine ⟨used, by rw [same]; exact inv.represents, by rw [same]; exact inv.zero, ?_⟩
      rintro page (⟨nonzero, -⟩ | old)
      · exact absurd null nonzero
      · exact inv.handed page old
    · refine ⟨insert page used, by rw [marked]; exact inv.represents.markUsed free bound, ?_, ?_⟩
      · intro some
        rw [marked] at some
        exact Finset.mem_insert_of_mem (inv.zero some)
      · rintro other (⟨-, here⟩ | old)
        · rw [address, Nat.mul_div_cancel page (by decide)] at here
          exact here ▸ Finset.mem_insert_self page used
        · exact Finset.mem_insert_of_mem (inv.handed other old)
  | pmmFreePage address =>
    cases taken
    refine ⟨_, inv.represents.freePage address, ?_, ?_⟩
    · intro some
      rw [pmmFreePage_totalPages] at some
      split
      · exact inv.zero some
      · next nonzero =>
        have above : 0 < address.toNat / pageSize :=
          Nat.div_pos (met.resolve_left nonzero) (by decide)
        exact Finset.mem_erase.mpr ⟨Nat.ne_of_lt above, inv.zero some⟩
    · rintro page ⟨different, old⟩
      split
      · exact inv.handed page old
      · exact Finset.mem_erase.mpr ⟨different.symm, inv.handed page old⟩

variable {trace : PmmTrace}

theorem PmmInvariant.sound (inv : PmmInvariant trace used) : PmmSound trace := by
  have represents := inv.represents
  have count := represents.counted
  have most := represents.card_le
  have bounded := represents.bounded
  have set : (Finset.range trace.pmm.totalPages).filter trace.pmm.Used = used := by
    ext page
    rw [Finset.mem_filter, Finset.mem_range, represents.members]
    exact and_iff_right_of_imp (represents.inside page)
  refine ⟨by rw [set, count], ?_, ?_, ?_, by omega, ?_⟩
  · intro page beyond _ isUsed
    have inside := represents.inside page ((represents.members page).mp isUsed)
    omega
  · obtain ⟨null, -, full⟩ | ⟨page, some, -, -, -, -, -, room⟩ :=
      allocAddress_cases represents inv.zero
    · exact iff_of_true null (by omega)
    · exact iff_of_false some (by omega)
  · intro nonzero
    obtain ⟨null, -⟩ | ⟨page, -, address, -, bound, free, below, -⟩ :=
      allocAddress_cases represents inv.zero
    · exact absurd null nonzero
    · exact ⟨page, bound, address, fun isUsed => free ((represents.members page).mp isUsed),
        fun q less => (represents.members q).mpr (below q less),
        fun handed => free (inv.handed page handed)⟩
  · have total : (UInt32.ofNat trace.pmm.totalPages).toNat = trace.pmm.totalPages :=
      toNat_ofNat_of_lt' (by simp only [UInt32.size]; omega)
    rw [pmmGetFreePages, UInt32.toNat_sub_of_le _ _ (by rw [le_iff_toNat_le]; omega), total]

theorem pmmInit_invariant (info : MultibootInfo) :
    PmmInvariant ⟨pmmInit info, []⟩ (initialUsed info) where
  represents := pmmInit_represents info
  zero := by
    intro some
    rw [pmmInit_totalPages] at some
    exact zero_initialUsed some
  handed := nofun

theorem pmm_sound_in_runs (info : MultibootInfo) {history : List Empty} {trace : PmmTrace}
    (run : Stepper.Run pmmStep FreesAboveFirst ⟨pmmInit info, []⟩ history trace) :
    PmmSound trace := by
  have inv := Stepper.Run.invariant (fun _ trace => ∃ used, PmmInvariant trace used)
    ⟨_, pmmInit_invariant info⟩
    (fun _ _ _ _ _ ⟨_, before⟩ met taken => pmmStep_invariant before met taken) run
  obtain ⟨used, final⟩ := inv
  exact final.sound

def smallMemory : MultibootInfo :=
  { flags := 1, memLower := 0, memUpper := 2056, mmap := [] }

theorem pmm_sound_in_runs_small : ∃ history trace,
    Stepper.Run pmmStep FreesAboveFirst ⟨pmmInit smallMemory, []⟩ history trace ∧
    trace.log = [.returned 0, .returned 0x201000, .freed 0x201000, .returned 0x201000] ∧
    PmmSound trace := by
  obtain ⟨history, trace, run, checked⟩ := Stepper.Run.exists_of_actions pmmStep FreesAboveFirst
    ⟨pmmInit smallMemory, []⟩
    [.pmmAllocPage, .pmmFreePage 0x201000, .pmmAllocPage, .pmmAllocPage]
    (fun _ trace => trace.log = [.returned 0, .returned 0x201000, .freed 0x201000,
      .returned 0x201000]) (by decide +kernel)
  exact ⟨history, trace, run, of_decide_eq_true checked, pmm_sound_in_runs smallMemory run⟩

section

def MmapEntry.base (entry : MmapEntry) : Nat :=
  entry.addrHigh.toNat * 2 ^ 32 + entry.addrLow.toNat

def MmapEntry.length (entry : MmapEntry) : Nat :=
  entry.lenHigh.toNat * 2 ^ 32 + entry.lenLow.toNat

def MmapEntry.Contains (entry : MmapEntry) (byte : Nat) : Prop :=
  entry.base ≤ byte ∧ byte < entry.base + entry.length

def MmapEntry.Overlaps (entry : MmapEntry) (page : Nat) : Prop :=
  0 < entry.length ∧ entry.base < (page + 1) * pageSize ∧
    page * pageSize < entry.base + entry.length

instance (entry : MmapEntry) (page : Nat) : Decidable (entry.Overlaps page) :=
  inferInstanceAs (Decidable (_ ∧ _ ∧ _))

theorem MmapEntry.overlaps_iff (entry : MmapEntry) (page : Nat) : entry.Overlaps page ↔
    ∃ byte, page * pageSize ≤ byte ∧ byte < page * pageSize + pageSize ∧ entry.Contains byte := by
  unfold MmapEntry.Overlaps MmapEntry.Contains pageSize
  constructor
  · rintro ⟨some, low, high⟩
    exact ⟨max (page * 4096) entry.base, by omega, by omega, by omega, by omega⟩
  · rintro ⟨byte, start, stop, low, high⟩
    omega

def bitmapEnd (info : MultibootInfo) : Nat :=
  0x200000 + info.bitmapSize * 4

def FreesReturned (trace : PmmTrace) : PmmCall → Prop
  | .pmmAllocPage => True
  | .pmmFreePage address => .returned address ∈ trace.log

/-- No page that is ever handed out has a byte in a region that is not free memory, or below
the end of the bitmap. -/
def HandsOutFreeMemory (info : MultibootInfo) : Prop :=
  ∀ history trace, Stepper.Run pmmStep FreesReturned ⟨pmmInit info, []⟩ history trace →
    ∀ address, .returned address ∈ trace.log → address ≠ 0 →
      ∀ byte, address.toNat ≤ byte → byte < address.toNat + pageSize →
        (∀ entry ∈ info.entries, entry.type ≠ 1 → ¬entry.Contains byte) ∧ bitmapEnd info ≤ byte

/-- Each page of memory that a reserved region overlaps is a page of the kernel or one that
some entry makes `pmm_init` mark. -/
def RegionsMarked (info : MultibootInfo) : Prop :=
  ∀ page < info.totalPages, ∀ entry ∈ info.entries, entry.type ≠ 1 → entry.Overlaps page →
    page < reservedPages info.bitmapSize ∨ ∃ other ∈ info.entries, other.Marks page

variable {info : MultibootInfo}

structure KeepsInitial (info : MultibootInfo) (trace : PmmTrace) (used : Finset Nat) : Prop where
  represents : trace.pmm.Represents used
  totalPages : trace.pmm.totalPages = info.totalPages
  initial : initialUsed info ⊆ used
  returned : ∀ address, .returned address ∈ trace.log → address ≠ 0 → ∃ page < info.totalPages,
    address.toNat = page * pageSize ∧ page ∉ initialUsed info

theorem KeepsInitial.zero (keeps : KeepsInitial info trace used) (some : 0 < trace.pmm.totalPages) :
    0 ∈ used := by
  rw [keeps.totalPages] at some
  exact keeps.initial (zero_initialUsed some)

theorem pmmStep_keepsInitial {before after : PmmTrace} {call : PmmCall} {events : List Empty}
    (keeps : KeepsInitial info before used) (met : FreesReturned before call)
    (taken : pmmStep before call = some (after, events)) :
    ∃ used', KeepsInitial info after used' := by
  cases call with
  | pmmAllocPage =>
    cases taken
    obtain ⟨null, same, -⟩ | ⟨page, -, address, marked, bound, free, -, -⟩ :=
      allocAddress_cases keeps.represents keeps.zero
    · refine ⟨used, by rw [same]; exact keeps.represents, by rw [same]; exact keeps.totalPages,
        keeps.initial, ?_⟩
      intro other member nonzero
      obtain ⟨⟨⟩⟩ | old := mem_cons.mp member
      · exact absurd null nonzero
      · exact keeps.returned other old nonzero
    · refine ⟨insert page used, by rw [marked]; exact keeps.represents.markUsed free bound,
        by rw [marked]; exact keeps.totalPages,
        keeps.initial.trans (Finset.subset_insert page used), ?_⟩
      intro other member nonzero
      obtain ⟨⟨⟩⟩ | old := mem_cons.mp member
      · exact ⟨page, keeps.totalPages ▸ bound, address, fun old => free (keeps.initial old)⟩
      · exact keeps.returned other old nonzero
  | pmmFreePage address =>
    cases taken
    refine ⟨_, keeps.represents.freePage address,
      (pmmFreePage_totalPages _ _).trans keeps.totalPages, ?_, ?_⟩
    · split
      · exact keeps.initial
      · next nonzero =>
        obtain ⟨page, -, start, outside⟩ := keeps.returned address met nonzero
        rw [start, Nat.mul_div_cancel page (by decide)]
        intro other member
        refine Finset.mem_erase.mpr ⟨?_, keeps.initial member⟩
        rintro rfl
        exact outside member
    · intro other member nonzero
      obtain ⟨⟨⟩⟩ | old := mem_cons.mp member
      exact keeps.returned other old nonzero

theorem pmmInit_keepsInitial (info : MultibootInfo) :
    KeepsInitial info ⟨pmmInit info, []⟩ (initialUsed info) :=
  ⟨pmmInit_represents info, pmmInit_totalPages info, Finset.Subset.refl _, nofun⟩

section

variable {history : List Empty}
    (run : Stepper.Run pmmStep FreesReturned ⟨pmmInit info, []⟩ history trace)

include run

theorem run_keepsInitial : ∃ used, KeepsInitial info trace used :=
  Stepper.Run.invariant (fun _ trace => ∃ used, KeepsInitial info trace used)
    ⟨_, pmmInit_keepsInitial info⟩
    (fun _ _ _ _ _ ⟨_, before⟩ met taken => pmmStep_keepsInitial before met taken) run

theorem free_page_returned (keeps : KeepsInitial info trace used) (bound : page < info.totalPages)
    (free : page ∉ used) :
    ∃ history' trace' address,
      Stepper.Run pmmStep FreesReturned ⟨pmmInit info, []⟩ history' trace' ∧
      .returned address ∈ trace'.log ∧ address ≠ 0 ∧ address.toNat = page * pageSize := by
  induction left : (Finset.range page \ used).card using Nat.strong_induction_on
    generalizing history trace used with
  | _ n ih =>
    subst left
    obtain ⟨-, -, full⟩ | ⟨lowest, nonzero, address, marked, inside, unused, below, -⟩ :=
      allocAddress_cases keeps.represents keeps.zero
    · have all := Finset.eq_of_subset_of_card_le keeps.represents.subset
        (by rw [Finset.card_range, full])
      rw [all, keeps.totalPages] at free
      exact absurd (Finset.mem_range.mpr bound) free
    · have allowed : FreesReturned trace .pmmAllocPage := trivial
      have next := Stepper.Run.step history trace _ _ [] run allowed rfl
      by_cases here : lowest = page
      · exact ⟨_, _, _, next, mem_cons_self, nonzero, here ▸ address⟩
      · have least : lowest < page := by
          by_contra above
          exact free (below page (by omega))
        obtain ⟨used', keeps'⟩ := pmmStep_keepsInitial keeps allowed rfl
        have grown : used' = insert lowest used := by
          ext other
          rw [← keeps'.represents.members, ← (keeps.represents.markUsed unused inside).members,
            marked]
        have fewer : Finset.range page \ used' ⊂ Finset.range page \ used := by
          rw [grown]
          refine (Finset.ssubset_iff_of_subset (Finset.sdiff_subset_sdiff (Finset.Subset.refl _)
            (Finset.subset_insert lowest used))).mpr ⟨lowest, ?_, ?_⟩
          · exact Finset.mem_sdiff.mpr ⟨Finset.mem_range.mpr least, unused⟩
          · simp
        refine ih _ (Finset.card_lt_card fewer) next keeps' ?_ rfl
        rw [grown, Finset.mem_insert, not_or]
        exact ⟨fun same => here same.symm, free⟩

end

theorem RegionsMarked.handsOut (marked : RegionsMarked info) : HandsOutFreeMemory info := by
  intro history trace run address returned nonzero byte start stop
  obtain ⟨used, keeps⟩ := run_keepsInitial run
  obtain ⟨page, bound, isPage, outside⟩ := keeps.returned address returned nonzero
  rw [isPage] at start stop
  simp only [initialUsed, Finset.mem_filter, Finset.mem_range, bound, true_and, not_or] at outside
  refine ⟨?_, ?_⟩
  · intro entry member reserved contains
    have overlaps := (entry.overlaps_iff page).mpr ⟨byte, start, stop, contains⟩
    obtain kernel | other := marked page bound entry member reserved overlaps
    · exact outside.1 kernel
    · exact outside.2 other
  · have above := outside.1
    simp only [reservedPages, bitmapEnd, pageSize] at above start ⊢
    omega

theorem HandsOutFreeMemory.regionsMarked (safe : HandsOutFreeMemory info) : RegionsMarked info := by
  intro page bound entry member reserved overlaps
  by_contra unmarked
  have free : page ∉ initialUsed info := by
    intro inside
    exact unmarked (Finset.mem_filter.mp inside).2
  obtain ⟨history, trace, address, run, returned, nonzero, start⟩ :=
    free_page_returned .refl (pmmInit_keepsInitial info) bound free
  obtain ⟨byte, low, high, contains⟩ := (entry.overlaps_iff page).mp overlaps
  exact (safe history trace run address returned nonzero byte (by omega) (by omega)).1
    entry member reserved contains

theorem hands_out_free_memory_iff (info : MultibootInfo) :
    HandsOutFreeMemory info ↔ RegionsMarked info :=
  ⟨HandsOutFreeMemory.regionsMarked, RegionsMarked.handsOut⟩

-- A reserved half page: its end is rounded down to its start.
def halfPage : MmapEntry :=
  { addrLow := 0x500000, addrHigh := 0, lenLow := 0x800, lenHigh := 0, type := 2 }

theorem half_page_handed_out : ¬HandsOutFreeMemory
    { flags := 0x40, memLower := 0, memUpper := 0, mmap := [halfPage] } := by
  intro safe
  obtain kernel | ⟨other, member, marks⟩ := safe.regionsMarked 0x500 (by decide) halfPage
    List.mem_cons_self (by decide) (by decide)
  · exact absurd kernel (by decide)
  · cases List.mem_singleton.mp member
    exact absurd marks (by decide)

end

end ArgoOS.Memory
