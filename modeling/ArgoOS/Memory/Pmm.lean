import Mathlib

set_option autoImplicit false

/-!
# The physical memory manager

The bitmap allocator of `pmm.c`. A set bit is a page in use; the lowest clear bit
is handed out first.
-/

namespace ArgoOS.Memory

open List

def pageSize : Nat := 4096
def maxMemory : UInt32 := 0x10000000

structure Pmm where
  bitmap : Nat → BitVec 32
  totalPages : Nat
  usedPages : UInt32
  bitmapSize : Nat

namespace Pmm

def bitmapSet (pmm : Pmm) (bit : Nat) : Pmm :=
  { pmm with
    bitmap := Function.update pmm.bitmap (bit / 32)
      (pmm.bitmap (bit / 32) ||| (1#32 <<< (bit % 32))) }

def bitmapClear (pmm : Pmm) (bit : Nat) : Pmm :=
  { pmm with
    bitmap := Function.update pmm.bitmap (bit / 32)
      (pmm.bitmap (bit / 32) &&& ~~~ (1#32 <<< (bit % 32))) }

def bitmapTest (pmm : Pmm) (bit : Nat) : Bool :=
  pmm.bitmap (bit / 32) &&& (1#32 <<< (bit % 32)) != 0#32

-- The lowest clear bit of word `i`.
def wordFirstFree (pmm : Pmm) (i : Nat) : Option Nat :=
  if pmm.bitmap i = BitVec.allOnes 32 then none
  else ((List.range 32).find? fun j => pmm.bitmap i &&& (1#32 <<< j) == 0#32).map (i * 32 + ·)

def bitmapFirstFree (pmm : Pmm) : Option Nat :=
  (List.range pmm.bitmapSize).findSome? pmm.wordFirstFree

def markUsed (pmm : Pmm) (page : Nat) : Pmm :=
  { pmm.bitmapSet page with usedPages := pmm.usedPages + 1 }

end Pmm

structure MmapEntry where
  addrLow : UInt32
  addrHigh : UInt32
  lenLow : UInt32
  lenHigh : UInt32
  type : UInt32
deriving DecidableEq, Repr

structure MultibootInfo where
  flags : UInt32
  memLower : UInt32
  memUpper : UInt32
  mmap : List MmapEntry
deriving DecidableEq, Repr

def totalMemory (info : MultibootInfo) : UInt32 :=
  let total :=
    if info.flags &&& 0x01 ≠ 0 then (info.memLower + info.memUpper) * 1024 else 64 * 1024 * 1024
  if maxMemory < total then maxMemory else total

def reservedPages (bitmapSize : Nat) : Nat :=
  let kernelEnd := 0x200000 + bitmapSize * 4
  (kernelEnd + pageSize - 1) / pageSize

def markRange (first last : Nat) (pmm : Pmm) : Pmm :=
  (List.range' first (last - first)).foldl
    (fun pmm page => if pmm.bitmapTest page then pmm else pmm.markUsed page) pmm

def markEntry (pmm : Pmm) (entry : MmapEntry) : Pmm :=
  if entry.type ≠ 1 then
    markRange (entry.addrLow.toNat / pageSize)
      (min ((entry.addrLow + entry.lenLow).toNat / pageSize) pmm.totalPages) pmm
  else pmm

def pmmInit (info : MultibootInfo) : Pmm :=
  let totalPages := (totalMemory info).toNat / pageSize
  let bitmapSize := (totalPages + 31) / 32
  let pmm : Pmm := ⟨fun _ => 0#32, totalPages, 0, bitmapSize⟩
  let pmm := (List.range (min (reservedPages bitmapSize) totalPages)).foldl Pmm.markUsed pmm
  if info.flags &&& 0x40 ≠ 0 then info.mmap.foldl markEntry pmm else pmm

-- The page number rather than its address; `none` is `NULL`.
def pmmAllocPage (pmm : Pmm) : Option (Nat × Pmm) :=
  match pmm.bitmapFirstFree with
  | none => none
  | some page => if pmm.totalPages ≤ page then none else some (page, pmm.markUsed page)

def pmmFreePage (pmm : Pmm) (address : UInt32) : Pmm :=
  let page := address.toNat / pageSize
  if address = 0 then pmm
  else if pmm.totalPages ≤ page then pmm
  else if pmm.bitmapTest page then { pmm.bitmapClear page with usedPages := pmm.usedPages - 1 }
  else pmm

def pmmGetFreePages (pmm : Pmm) : UInt32 :=
  UInt32.ofNat pmm.totalPages - pmm.usedPages

variable {page : Nat} {pmm : Pmm}

namespace Pmm

def Used (pmm : Pmm) (page : Nat) : Prop := (pmm.bitmap (page / 32)).getLsbD (page % 32) = true

instance (pmm : Pmm) (page : Nat) : Decidable (pmm.Used page) :=
  inferInstanceAs (Decidable (_ = true))

theorem and_bit (word : BitVec 32) (j : Nat) (bound : j < 32) :
    word &&& (1#32 <<< j) = 0#32 ↔ word.getLsbD j = false := by
  rw [← BitVec.twoPow_eq]
  constructor
  · intro zero
    have bit := congrArg (fun w => w.getLsbD j) zero
    simpa [BitVec.getLsbD_twoPow, bound] using bit
  · intro clear
    apply BitVec.eq_of_getLsbD_eq
    intro i _
    by_cases same : j = i
    · subst same
      simp [clear]
    · simp [BitVec.getLsbD_twoPow, same]

theorem bitmapTest_iff (pmm : Pmm) (bit : Nat) : pmm.bitmapTest bit = true ↔ pmm.Used bit := by
  have test := and_bit (pmm.bitmap (bit / 32)) (bit % 32) (by omega)
  unfold bitmapTest Used
  cases value : (pmm.bitmap (bit / 32)).getLsbD (bit % 32) with
  | true => simpa [value] using test
  | false => simpa [value] using test

theorem shifted_bit {bit : Nat} (sameWord : page / 32 = bit / 32) :
    (1#32 <<< (bit % 32)).getLsbD (page % 32) = decide (page = bit) := by
  rw [← BitVec.twoPow_eq, BitVec.getLsbD_twoPow, Bool.eq_iff_iff]
  simp
  omega

theorem bitmapSet_used (pmm : Pmm) (bit page : Nat) :
    (pmm.bitmapSet bit).Used page ↔ pmm.Used page ∨ page = bit := by
  unfold Used bitmapSet
  by_cases sameWord : page / 32 = bit / 32
  · simp only [sameWord, Function.update_self, BitVec.getLsbD_or, shifted_bit sameWord]
    simp
  · have different : page ≠ bit := fun same => sameWord (by rw [same])
    simp [sameWord, different]

theorem bitmapClear_used (pmm : Pmm) (bit page : Nat) :
    (pmm.bitmapClear bit).Used page ↔ pmm.Used page ∧ page ≠ bit := by
  unfold Used bitmapClear
  by_cases sameWord : page / 32 = bit / 32
  · have inside : page % 32 < 32 := Nat.mod_lt _ (by decide)
    simp only [sameWord, Function.update_self, BitVec.getLsbD_and, BitVec.getLsbD_not,
      shifted_bit sameWord]
    simp [inside]
  · have different : page ≠ bit := fun same => sameWord (by rw [same])
    simp [sameWord, different]

@[simp] theorem markUsed_used (pmm : Pmm) (bit page : Nat) :
    (pmm.markUsed bit).Used page ↔ pmm.Used page ∨ page = bit :=
  bitmapSet_used pmm bit page

theorem wordFirstFree_some {i : Nat} (found : pmm.wordFirstFree i = some page) :
    page / 32 = i ∧ ¬ pmm.Used page ∧ ∀ q, q / 32 = i → q < page → pmm.Used q := by
  unfold wordFirstFree at found
  split at found
  · contradiction
  rw [Option.map_eq_some_iff] at found
  obtain ⟨j, hit, rfl⟩ := found
  rw [List.find?_range_eq_some, mem_range] at hit
  obtain ⟨clear, bound, earlier⟩ := hit
  have inWord : (i * 32 + j) / 32 = i ∧ (i * 32 + j) % 32 = j := by omega
  refine ⟨inWord.1, ?_, ?_⟩
  · rw [beq_iff_eq, and_bit _ _ bound] at clear
    simp [Used, inWord, clear]
  · intro q sameWord below
    have set := earlier (q % 32) (by omega)
    have nonzero : ¬ (pmm.bitmap i &&& 1#32 <<< (q % 32) = 0#32) := by simpa using set
    rw [and_bit _ _ (by omega)] at nonzero
    simpa [Used, sameWord] using nonzero

theorem wordFirstFree_none {i : Nat} (full : pmm.wordFirstFree i = none) :
    ∀ q, q / 32 = i → pmm.Used q := by
  intro q sameWord
  unfold wordFirstFree at full
  split at full
  · next ones =>
    have bound : q % 32 < 32 := by omega
    rw [Used, sameWord, ones, BitVec.getLsbD_allOnes, decide_eq_true_eq]
    exact bound
  · rw [Option.map_eq_none_iff, List.find?_eq_none] at full
    have set := full (q % 32) (by simp; omega)
    rw [beq_iff_eq, and_bit _ _ (by omega)] at set
    simpa [Used, sameWord] using set

theorem findSome_range {β : Type} {f : Nat → Option β} {n : Nat} {b : β}
    (found : (List.range n).findSome? f = some b) :
    ∃ i < n, f i = some b ∧ ∀ j < i, f j = none := by
  induction n with
  | zero => simp at found
  | succ n ih =>
    rw [range_succ, List.findSome?_append] at found
    cases early : (List.range n).findSome? f with
    | some value =>
      rw [early] at found
      obtain ⟨i, bound, hit, before⟩ := ih (early.trans (by simpa using found))
      exact ⟨i, by omega, hit, before⟩
    | none =>
      rw [early] at found
      refine ⟨n, by omega, by simpa using found, ?_⟩
      intro j below
      exact List.findSome?_eq_none_iff.mp early j (by simpa using below)

theorem bitmapFirstFree_some (pmm : Pmm) (page : Nat) (found : pmm.bitmapFirstFree = some page) :
    ¬ pmm.Used page ∧ ∀ q < page, pmm.Used q := by
  obtain ⟨i, -, hit, before⟩ := findSome_range found
  obtain ⟨inWord, free, earlier⟩ := wordFirstFree_some hit
  refine ⟨free, ?_⟩
  intro q below
  by_cases sameWord : q / 32 = i
  · exact earlier q sameWord below
  · exact wordFirstFree_none (before (q / 32) (by omega)) q rfl

theorem bitmapFirstFree_none (pmm : Pmm) (full : pmm.bitmapFirstFree = none) :
    ∀ q < 32 * pmm.bitmapSize, pmm.Used q := by
  intro q bound
  have empty := List.findSome?_eq_none_iff.mp full (q / 32) (by simp; omega)
  exact wordFirstFree_none empty q rfl

end Pmm

theorem pmmAllocPage_some {pmm' : Pmm} (allocated : pmmAllocPage pmm = some (page, pmm')) :
    ¬ pmm.Used page ∧ (∀ q < page, pmm.Used q) ∧ page < pmm.totalPages ∧
      pmm' = pmm.markUsed page := by
  unfold pmmAllocPage at allocated
  cases found : pmm.bitmapFirstFree with
  | none => simp [found] at allocated
  | some first =>
    obtain ⟨free, below⟩ := pmm.bitmapFirstFree_some first found
    by_cases large : pmm.totalPages ≤ first
    · simp [found, large] at allocated
    · simp only [found, large, if_false] at allocated
      cases allocated
      exact ⟨free, below, by omega, rfl⟩

structure PmmOk (pmm : Pmm) : Prop where
  reserved : ∀ page < reservedPages pmm.bitmapSize, page < pmm.totalPages → pmm.Used page
  covered : pmm.totalPages ≤ 32 * pmm.bitmapSize
  bounded : pmm.totalPages ≤ 65536

theorem PmmOk.alloc_nonzero {pmm' : Pmm} (ok : PmmOk pmm)
    (allocated : pmmAllocPage pmm = some (page, pmm')) : page * pageSize ≠ 0 := by
  obtain ⟨free, -, bound, -⟩ := pmmAllocPage_some allocated
  intro zero
  refine free (ok.reserved page ?_ bound)
  simp only [pageSize, reservedPages] at *
  omega

def Exhausted (pmm : Pmm) : Prop := ∀ page < pmm.totalPages, pmm.Used page

theorem pmmAllocPage_none (covered : pmm.totalPages ≤ 32 * pmm.bitmapSize) :
    pmmAllocPage pmm = none ↔ Exhausted pmm := by
  unfold pmmAllocPage
  cases found : pmm.bitmapFirstFree with
  | none =>
    have all := pmm.bitmapFirstFree_none found
    simp only [Exhausted, true_iff]
    exact fun page bound => all page (by omega)
  | some first =>
    obtain ⟨free, below⟩ := pmm.bitmapFirstFree_some first found
    by_cases large : pmm.totalPages ≤ first
    · simp only [large, if_true, Exhausted, true_iff]
      exact fun page bound => below page (by omega)
    · simp only [large, if_false, reduceCtorEq, false_iff]
      exact fun all => free (all first (by omega))

theorem PmmOk.markUsed (ok : PmmOk pmm) (page : Nat) : PmmOk (pmm.markUsed page) where
  reserved := fun q low bound => (pmm.markUsed_used page q).mpr (.inl (ok.reserved q low bound))
  covered := ok.covered
  bounded := ok.bounded

structure Marks (pmm pmm' : Pmm) : Prop where
  used : ∀ page, pmm.Used page → pmm'.Used page
  totalPages : pmm'.totalPages = pmm.totalPages
  bitmapSize : pmm'.bitmapSize = pmm.bitmapSize

theorem Marks.refl (pmm : Pmm) : Marks pmm pmm := ⟨fun _ used => used, rfl, rfl⟩

theorem Marks.trans {a b c : Pmm} (first : Marks a b) (second : Marks b c) : Marks a c :=
  ⟨fun page used => second.used page (first.used page used),
    second.totalPages.trans first.totalPages, second.bitmapSize.trans first.bitmapSize⟩

theorem markUsed_marks (pmm : Pmm) (page : Nat) : Marks pmm (pmm.markUsed page) :=
  ⟨fun q used => (pmm.markUsed_used page q).mpr (.inl used), rfl, rfl⟩

theorem foldl_marks {β : Type} (f : Pmm → β → Pmm) (marks : ∀ pmm b, Marks pmm (f pmm b))
    (xs : List β) (pmm : Pmm) : Marks pmm (xs.foldl f pmm) := by
  induction xs generalizing pmm with
  | nil => exact .refl pmm
  | cons x xs ih => exact (marks pmm x).trans (ih (f pmm x))

theorem markRange_marks (first last : Nat) (pmm : Pmm) : Marks pmm (markRange first last pmm) := by
  apply foldl_marks
  intro pmm page
  split
  · exact .refl pmm
  · exact markUsed_marks pmm page

theorem markEntry_marks (pmm : Pmm) (entry : MmapEntry) : Marks pmm (markEntry pmm entry) := by
  unfold markEntry
  split
  · exact markRange_marks _ _ pmm
  · exact .refl pmm

theorem markFirst_used (pmm : Pmm) (n page : Nat) :
    ((List.range n).foldl Pmm.markUsed pmm).Used page ↔ pmm.Used page ∨ page < n := by
  induction n with
  | zero => simp
  | succ n ih =>
    rw [range_succ, foldl_append, foldl_cons, foldl_nil, Pmm.markUsed_used, ih,
      Nat.lt_succ_iff_lt_or_eq, or_assoc]

-- The bitmap before the memory map of the boot loader is read.
def pmmStart (info : MultibootInfo) : Pmm :=
  let totalPages := (totalMemory info).toNat / pageSize
  let bitmapSize := (totalPages + 31) / 32
  (List.range (min (reservedPages bitmapSize) totalPages)).foldl Pmm.markUsed
    ⟨fun _ => 0#32, totalPages, 0, bitmapSize⟩

section

variable (info : MultibootInfo)

include info

theorem pmmInit_eq : pmmInit info =
    if info.flags &&& 0x40 ≠ 0 then info.mmap.foldl markEntry (pmmStart info)
    else pmmStart info :=
  rfl

theorem pmmStart_used (page : Nat) : (pmmStart info).Used page ↔
    page < min (reservedPages (((totalMemory info).toNat / pageSize + 31) / 32))
      ((totalMemory info).toNat / pageSize) := by
  unfold pmmStart
  rw [markFirst_used]
  simp [Pmm.Used]

theorem pmmStart_sizes :
    (pmmStart info).totalPages = (totalMemory info).toNat / pageSize ∧
      (pmmStart info).bitmapSize = ((totalMemory info).toNat / pageSize + 31) / 32 := by
  have kept : Marks ⟨fun _ => 0#32, (totalMemory info).toNat / pageSize, 0,
      ((totalMemory info).toNat / pageSize + 31) / 32⟩ (pmmStart info) :=
    foldl_marks _ markUsed_marks _ _
  exact ⟨kept.totalPages, kept.bitmapSize⟩

theorem pmmInit_marks : Marks (pmmStart info) (pmmInit info) := by
  rw [pmmInit_eq]
  split
  · exact foldl_marks _ markEntry_marks _ _
  · exact .refl _

theorem totalMemory_le : (totalMemory info).toNat ≤ 0x10000000 := by
  unfold totalMemory
  generalize (if info.flags &&& 0x01 ≠ 0 then (info.memLower + info.memUpper) * 1024
    else 64 * 1024 * 1024) = total
  by_cases large : maxMemory < total
  · simp only [large, if_true]
    decide
  · simp only [large, if_false]
    exact UInt32.le_iff_toNat_le.mp (UInt32.not_lt.mp large)

theorem pmmInit_ok : PmmOk (pmmInit info) := by
  have final := pmmInit_marks info
  have sizes := pmmStart_sizes info
  have total := totalMemory_le info
  refine ⟨?_, ?_, ?_⟩
  · intro page low bound
    rw [final.totalPages, sizes.1] at bound
    rw [final.bitmapSize, sizes.2] at low
    exact final.used page ((pmmStart_used info page).mpr (by omega))
  · rw [final.totalPages, final.bitmapSize, sizes.1, sizes.2]
    omega
  · rw [final.totalPages, sizes.1]
    simp only [pageSize]
    omega

end

end ArgoOS.Memory
