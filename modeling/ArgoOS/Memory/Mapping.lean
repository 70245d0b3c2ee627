import ArgoOS.Memory.Paging
import ArgoOS.Shared.Blocks

set_option autoImplicit false

/-!
# What the page tables say

The invariant of the page tables: which frames hold tables, which frame a page is
mapped to, and that no frame serves two purposes. Only directory entries in `good`
are described, so that what is left can still be followed after one of them broke.
-/

namespace ArgoOS.Memory

open Machine Blocks Option List Function

theorem present_iff (entry : Nat) : Present entry ↔ entry % 2 = 1 := by
  unfold Present pagePresent
  rw [Nat.and_one_is_mod]
  omega

theorem frame_or_flags (f : Nat) : f * pageSize ||| (pagePresent ||| pageWritable) =
    f * pageSize + 3 := by
  have bits := Nat.two_pow_add_eq_or_of_lt (show 3 < 2 ^ 12 by decide) f
  rw [Nat.mul_comm f pageSize]
  exact bits.symm

theorem frame_present (f : Nat) : Present (f * pageSize + 3) := by
  rw [present_iff, pageSize]
  omega

theorem frame_address (f : Nat) : pageAddress (f * pageSize + 3) = f * pageSize := by
  simp only [pageAddress, pageSize]
  omega

theorem ptIndex_lt (v : Nat) : ptIndex v < 1024 := Nat.mod_lt _ (by decide)

theorem page_split (v : Nat) : pdIndex v * 1024 + ptIndex v = v / pageSize := by
  simp only [pdIndex, ptIndex, pageSize]
  omega

theorem page_offset (f : Nat) {offset : Nat} (inPage : offset < pageSize) :
    (f * pageSize + offset) / pageSize = f ∧ (f * pageSize + offset) % pageSize = offset := by
  simp only [pageSize] at *
  omega

def tableWord : Option Nat → Nat
  | none => 0
  | some f => f * pageSize + 3

def PageFlags (flags : Nat) : Prop :=
  flags = pagePresent ||| pageWritable ∨ flags = pagePresent ||| pageWritable ||| pageUser

def PageWord : Option Nat → Nat → Prop
  | none, entry => entry = 0
  | some g, entry => ∃ flags, PageFlags flags ∧ entry = g * pageSize ||| flags

variable {m m' : Machine} {flags g : Nat} {a b c : Machine} {tables' : Nat → Option Nat}

theorem PageFlags.frame_or (allowed : PageFlags flags) (g : Nat) :
    g * pageSize ||| flags = g * pageSize + 3 ∨ g * pageSize ||| flags = g * pageSize + 7 := by
  rcases allowed with rfl | rfl
  · exact .inl (frame_or_flags g)
  · have bits := Nat.two_pow_add_eq_or_of_lt (show 7 < 2 ^ 12 by decide) g
    rw [Nat.mul_comm g pageSize]
    exact .inr bits.symm

theorem PageWord.present {entry : Nat} (word : PageWord (some g) entry) :
    Present entry ∧ pageAddress entry = g * pageSize := by
  obtain ⟨flags, allowed, rfl⟩ := word
  rw [present_iff]
  simp only [pageAddress]
  rcases allowed.frame_or g with word | word <;> rw [word] <;> simp only [pageSize] <;> omega

def Owned (pmm : Pmm) (vp g : Nat) : Prop :=
  g < pmm.totalPages ∧ pmm.Used g ∨ vp = g ∧ pmm.totalPages ≤ g

theorem Owned.mono {pmm pmm' : Pmm} {vp : Nat} (owned : Owned pmm vp g) (marks : Marks pmm pmm') :
    Owned pmm' vp g := by
  rw [Owned, marks.totalPages]
  exact owned.imp_left fun managed => ⟨managed.1, marks.used g managed.2⟩

structure LowMapped (m : Machine) : Prop where
  aligned : m.firstPageTableAt % pageSize = 0
  image : m.firstPageTableAt < 0x200000
  lowDirectory : m.pageDirectory 0 = m.firstPageTableAt + 3
  lowTable : ∀ j < 1024, m.firstPageTable j = j * pageSize + 3

-- Page `vp` of the address space is mapped to frame `pages vp`; directory entry `i`
-- names the table in frame `tables i`.
structure Mapping (m : Machine) (good : Nat → Bool) (tables pages : Nat → Option Nat) : Prop
    extends LowMapped m where
  pmm : PmmOk m.pmm
  directory : ∀ i, 1 ≤ i → good i = true → m.pageDirectory i = tableWord (tables i)
  entries : ∀ i f, good i = true → tables i = some f → ∀ j < 1024,
    PageWord (pages (i * 1024 + j)) (m.ram (f * pageSize + 4 * j))
  unmapped : ∀ i, good i = true → tables i = none → ∀ j < 1024, pages (i * 1024 + j) = none
  tableLow : ∀ i f, tables i = some f → m.frames ≤ f ∧ f < 1024 ∧ m.pmm.Used f
  pageHigh : ∀ vp g, pages vp = some g → m.frames ≤ g ∧ Owned m.pmm vp g
  tablesApart : ∀ i i' f, tables i = some f → tables i' = some f → i = i'
  pagesApart : ∀ vp vp' g, pages vp = some g → pages vp' = some g → vp = vp'
  apart : ∀ i f vp, tables i = some f → pages vp ≠ some f

theorem LowMapped.translate_low (mapping : LowMapped m) (v : Nat) (low : v < heapBase) :
    m.translate v = some v := by
  have index : pdIndex v = 0 := by
    simp only [pdIndex, heapBase] at *
    omega
  have bound := ptIndex_lt v
  have address : pageAddress (m.firstPageTableAt + 3) = m.firstPageTableAt := by
    have aligned := mapping.aligned
    simp only [pageAddress, pageSize] at *
    omega
  have present : Present (m.firstPageTableAt + 3) := by
    have aligned := mapping.aligned
    rw [present_iff]
    simp only [pageSize] at aligned
    omega
  have whole : ptIndex v * pageSize + v % pageSize = v := by
    simp only [ptIndex, pageSize, heapBase] at *
    omega
  unfold Machine.translate
  simp only [index, mapping.lowDirectory, present, if_true, address, tableEntry,
    mapping.lowTable _ bound, frame_present, frame_address, whole]

variable {good : Nat → Bool} {tables pages : Nat → Option Nat}

section

theorem frames_image (m : Machine) : 0x200000 ≤ m.frames * pageSize := by
  simp only [frames, reservedPages, pageSize]
  omega

section

variable (mapping : Mapping m good tables pages)

include mapping

theorem Mapping.table_not_image (i f : Nat) (table : tables i = some f) :
    f * pageSize ≠ m.firstPageTableAt := by
  have low := (mapping.tableLow i f table).1
  have image := mapping.image
  have frames := frames_image m
  simp only [pageSize] at *
  omega

theorem Mapping.translate_high (v : Nat) (high : heapBase ≤ v) (isGood : good (pdIndex v) = true) :
    m.translate v = (pages (v / pageSize)).map (· * pageSize + v % pageSize) := by
  have index : 1 ≤ pdIndex v := by
    simp only [pdIndex, heapBase] at *
    omega
  have page := page_split v
  have bound := ptIndex_lt v
  unfold Machine.translate
  rw [mapping.directory (pdIndex v) index isGood]
  cases table : tables (pdIndex v) with
  | none =>
    have none := mapping.unmapped _ isGood table (ptIndex v) bound
    rw [page] at none
    simp [none, tableWord, Present]
  | some f =>
    have entry := mapping.entries _ f isGood table (ptIndex v) bound
    rw [page] at entry
    simp only [tableWord, frame_present, if_true, frame_address, tableEntry,
      mapping.table_not_image _ f table, if_false]
    cases mapped : pages (v / pageSize) with
    | none =>
      rw [mapped] at entry
      rw [show m.ram (f * pageSize + 4 * ptIndex v) = 0 from entry]
      simp [Present]
    | some g =>
      rw [mapped] at entry
      simp [entry.present]

theorem Mapping.ramAddress_high (v : Nat) (high : heapBase ≤ v) (isGood : good (pdIndex v) = true) :
    m.ramAddress v =
      if v % 4 = 0 then (pages (v / pageSize)).map (· * pageSize + v % pageSize) else none := by
  unfold ramAddress
  rw [mapping.translate_high v high isGood]
  cases page : pages (v / pageSize) with
  | none => simp
  | some g =>
    have above := (mapping.pageHigh _ g page).1
    have inRam : ¬ (g * pageSize + v % pageSize < m.frames * pageSize) := by
      simp only [pageSize]
      omega
    have words : (g * pageSize + v % pageSize) % 4 = v % 4 := by
      simp only [pageSize]
      omega
    by_cases aligned : v % 4 = 0 <;> simp [inRam, words, aligned]

theorem Mapping.withRam (vp g offset value : Nat) (page : pages vp = some g)
    (inPage : offset < pageSize) :
    Mapping { m with ram := update m.ram (g * pageSize + offset) value } good tables
      pages := by
  refine { mapping with entries := ?_ }
  intro i f isGood table j bound
  have different : f * pageSize + 4 * j ≠ g * pageSize + offset := by
    intro same
    have sameFrame : f = g := by
      simp only [pageSize] at *
      omega
    exact mapping.apart i f vp table (sameFrame ▸ page)
  dsimp only
  rw [update_of_ne different]
  exact mapping.entries i f isGood table j bound

theorem Mapping.translate_congr {pages' : Nat → Option Nat}
    (mapping' : Mapping m' good tables' pages') (w : Nat) (isGood : good (pdIndex w) = true)
    (page : heapBase ≤ w → pages' (w / pageSize) = pages (w / pageSize)) :
    m'.translate w = m.translate w := by
  by_cases low : w < heapBase
  · rw [mapping'.toLowMapped.translate_low w low, mapping.toLowMapped.translate_low w low]
  · have high := Nat.not_lt.mp low
    rw [mapping'.translate_high w high isGood, mapping.translate_high w high isGood, page high]

end

end

def Machine.view (m : Machine) (good : Nat → Bool) (v : Nat) : Option Nat :=
  if heapBase ≤ v ∧ good (pdIndex v) = true then m.load v else none

structure SameBut (m m' : Machine) : Prop where
  pmm : m'.pmm = m.pmm
  pageDirectory : m'.pageDirectory = m.pageDirectory
  heapStart : m'.heapStart = m.heapStart
  heapSize : m'.heapSize = m.heapSize
  nextTaskId : m'.nextTaskId = m.nextTaskId
  taskCount : m'.taskCount = m.taskCount
  taskList : m'.taskList = m.taskList
  tableWrites : m'.tableWrites = m.tableWrites

theorem SameBut.refl (m : Machine) : SameBut m m := ⟨rfl, rfl, rfl, rfl, rfl, rfl, rfl, rfl⟩

theorem SameBut.trans (first : SameBut a b) (second : SameBut b c) : SameBut a c :=
  ⟨second.pmm.trans first.pmm, second.pageDirectory.trans first.pageDirectory,
    second.heapStart.trans first.heapStart,
    second.heapSize.trans first.heapSize, second.nextTaskId.trans first.nextTaskId,
    second.taskCount.trans first.taskCount, second.taskList.trans first.taskList,
    second.tableWrites.trans first.tableWrites⟩

def KeepsTranslations (m m' : Machine) : Prop :=
  ∀ v physical, m.translate v = some physical → m'.translate v = some physical

theorem KeepsTranslations.trans (first : KeepsTranslations a b) (second : KeepsTranslations b c) :
    KeepsTranslations a c :=
  fun v physical mapped => second v physical (first v physical mapped)

structure SameMap (m m' : Machine) : Prop extends SameBut m m' where
  translate : m'.translate = m.translate

theorem SameMap.refl (m : Machine) : SameMap m m := ⟨.refl m, rfl⟩

theorem SameMap.trans (first : SameMap a b) (second : SameMap b c) : SameMap a c :=
  ⟨first.toSameBut.trans second.toSameBut, second.translate.trans first.translate⟩

theorem SameMap.translations (same : SameMap m m') : KeepsTranslations m m' :=
  fun v physical mapped => by rw [same.translate, mapped]

section

section

variable (mapping : Mapping m good tables pages)

include mapping

theorem Mapping.load_high (v : Nat) (high : heapBase ≤ v) (isGood : good (pdIndex v) = true) :
    m.load v = if v % 4 = 0 then
      (pages (v / pageSize)).map (fun g => m.ram (g * pageSize + v % pageSize)) else none := by
  rw [load, mapping.ramAddress_high v high isGood]
  by_cases aligned : v % 4 = 0 <;> simp [aligned, comp_def]

theorem Mapping.view_readable (v : Nat) :
    m.view good v ≠ none ↔
      (heapBase ≤ v ∧ good (pdIndex v) = true) ∧ v % 4 = 0 ∧ pages (v / pageSize) ≠ none := by
  by_cases visible : heapBase ≤ v ∧ good (pdIndex v) = true
  · simp only [Machine.view, visible, and_self, if_true, true_and]
    rw [mapping.load_high v visible.1 visible.2]
    by_cases aligned : v % 4 = 0 <;> simp [aligned]
  · simp [Machine.view, visible]

theorem Mapping.store_high (v value : Nat) (high : heapBase ≤ v) (isGood : good (pdIndex v) = true)
    (stored : m.store v value = some m') :
    v % 4 = 0 ∧ ∃ g, pages (v / pageSize) = some g ∧
      m' = { m with ram := update m.ram (g * pageSize + v % pageSize) value } := by
  rw [store, mapping.ramAddress_high v high isGood] at stored
  by_cases aligned : v % 4 = 0
  · rw [if_pos aligned] at stored
    cases page : pages (v / pageSize) with
    | none => simp [page] at stored
    | some g =>
      simp only [page, map_some, some.injEq] at stored
      exact ⟨aligned, g, rfl, stored.symm⟩
  · simp [aligned] at stored

theorem Mapping.store_eq {v : Nat} (value : Nat) (high : heapBase ≤ v)
    (isGood : good (pdIndex v) = true) (aligned : v % 4 = 0)
    (page : pages (v / pageSize) = some g) :
    m.store v value = some { m with
      ram := update m.ram (g * pageSize + v % pageSize) value } := by
  rw [store, mapping.ramAddress_high v high isGood, if_pos aligned, page]
  rfl

section

variable (v value : Nat) (high : heapBase ≤ v) (isGood : good (pdIndex v) = true)
    (stored : m.store v value = some m')

include v value high isGood stored

theorem Mapping.store_mapping : Mapping m' good tables pages := by
  obtain ⟨-, g, page, rfl⟩ := mapping.store_high v value high isGood stored
  exact mapping.withRam (v / pageSize) g (v % pageSize) value page (Nat.mod_lt _ (by decide))

theorem Mapping.store_view : m'.view good = update (m.view good) v (some value) := by
  have mapping' := mapping.store_mapping v value high isGood stored
  obtain ⟨aligned, g, page, rfl⟩ := mapping.store_high v value high isGood stored
  funext w
  by_cases visible : heapBase ≤ w ∧ good (pdIndex w) = true
  · simp only [view, visible, and_self, if_true]
    rw [mapping'.load_high w visible.1 visible.2]
    by_cases same : w = v
    · subst same
      simp [aligned, page]
    · rw [update_of_ne same]
      simp only [view, visible, and_self, if_true]
      rw [mapping.load_high w visible.1 visible.2]
      by_cases word : w % 4 = 0
      · simp only [word, if_true]
        cases other : pages (w / pageSize) with
        | none => rfl
        | some g' =>
          simp only [map_some, some.injEq]
          apply update_of_ne
          intro sameWord
          have sameFrame : g' = g ∧ w % pageSize = v % pageSize := by
            simp only [pageSize] at *
            omega
          have samePage := mapping.pagesApart _ _ g (sameFrame.1 ▸ other) page
          simp only [pageSize] at *
          omega
      · simp [word]
  · have different : w ≠ v := by
      rintro rfl
      exact visible ⟨high, isGood⟩
    rw [update_of_ne different]
    simp [view, visible]

end

end

theorem store_same {v value : Nat} (stored : m.store v value = some m') : SameBut m m' := by
  rw [store, map_eq_some_iff] at stored
  obtain ⟨physical, -, rfl⟩ := stored
  exact ⟨rfl, rfl, rfl, rfl, rfl, rfl, rfl, rfl⟩

end

section

theorem storeTableWord_mapped (pointer g offset value : Nat)
    (outside : pageAddress pointer ≠ m.firstPageTableAt)
    (mapped : m.translate pointer = some (g * pageSize + offset)) (inRam : m.frames ≤ g)
    (aligned : offset % 4 = 0) :
    storeTableWord m pointer value = some { m with
      ram := update m.ram (g * pageSize + offset) value
      tableWrites := ⟨pointer, g * pageSize + offset⟩ :: m.tableWrites } := by
  have inside : ¬ (g * pageSize + offset < m.frames * pageSize ∨
      (g * pageSize + offset) % 4 ≠ 0) := by
    simp only [pageSize] at *
    omega
  simp only [storeTableWord, outside, if_false, store, ramAddress, mapped, inside,
    map_some, pagingGetPhysical, getD_some]

theorem LowMapped.table_outside (mapping : LowMapped m) (f offset : Nat) (inRam : m.frames ≤ f)
    (inPage : offset < pageSize) : pageAddress (f * pageSize + offset) ≠ m.firstPageTableAt := by
  have frames := frames_image m
  have image := mapping.image
  simp only [pageAddress, pageSize] at *
  omega

theorem LowMapped.storeTableWord_low (mapping : LowMapped m) (f j value : Nat)
    (inRam : m.frames ≤ f) (low : f < 1024) (bound : j < 1024) :
    storeTableWord m (f * pageSize + 4 * j) value = some { m with
      ram := update m.ram (f * pageSize + 4 * j) value
      tableWrites := ⟨f * pageSize + 4 * j, f * pageSize + 4 * j⟩ :: m.tableWrites } := by
  refine storeTableWord_mapped _ f (4 * j) value
    (mapping.table_outside f _ inRam (by simp only [pageSize]; omega)) ?_ inRam (by omega)
  exact mapping.translate_low _ (by simp only [heapBase, pageSize]; omega)

def clearWords (ram : Nat → Nat) (base n : Nat) : Nat → Nat := fun a =>
  if base ≤ a ∧ a < base + 4 * n ∧ a % 4 = 0 then 0 else ram a

def withCleared (m : Machine) (f n : Nat) (writes : List TableWrite) : Machine :=
  { m with
    ram := clearWords m.ram (f * pageSize) n
    tableWrites := writes ++ m.tableWrites }

def Identity (writes : List TableWrite) : Prop := ∀ w ∈ writes, w.physical = w.pointer

theorem clearWords_zero (ram : Nat → Nat) (base : Nat) : clearWords ram base 0 = ram := by
  funext a
  have empty : ¬ (base ≤ a ∧ a < base + 4 * 0 ∧ a % 4 = 0) := by omega
  simp only [clearWords, empty, if_false]

theorem clearWords_succ (ram : Nat → Nat) (f n : Nat) :
    update (clearWords ram (f * pageSize) n) (f * pageSize + 4 * n) 0 =
      clearWords ram (f * pageSize) (n + 1) := by
  funext a
  by_cases here : a = f * pageSize + 4 * n
  · have inside : f * pageSize ≤ a ∧ a < f * pageSize + 4 * (n + 1) ∧ a % 4 = 0 := by
      simp only [pageSize] at *
      omega
    simp only [here, update_self, clearWords, here ▸ inside]
    simp
  · have iff : (f * pageSize ≤ a ∧ a < f * pageSize + 4 * (n + 1) ∧ a % 4 = 0) ↔
        (f * pageSize ≤ a ∧ a < f * pageSize + 4 * n ∧ a % 4 = 0) := by
      simp only [pageSize] at *
      omega
    simp only [update_of_ne here, clearWords, iff]

def clearLog (table g : Nat) : Nat → List TableWrite
  | 0 => []
  | n + 1 => ⟨table + 4 * n, g * pageSize + 4 * n⟩ :: clearLog table g n

theorem clearLog_identity (f n : Nat) : Identity (clearLog (f * pageSize) f n) := by
  induction n with
  | zero => exact nofun
  | succ n ih =>
    intro w member
    rcases mem_cons.mp member with rfl | old
    · rfl
    · exact ih w old

-- Clearing a table writes the frame that its address is mapped to, whichever that is.
theorem clearTable_mapped (table g : Nat) {n : Nat} (bound : n ≤ 1024) (inRam : m.frames ≤ g)
    (outside : ∀ j < 1024, pageAddress (table + 4 * j) ≠ m.firstPageTableAt)
    (mapped : ∀ k ≤ 1024, ∀ writes, ∀ j < 1024,
      (withCleared m g k writes).translate (table + 4 * j) = some (g * pageSize + 4 * j)) :
    clearTable m table n = some (withCleared m g n (clearLog table g n)) := by
  induction n with
  | zero => simp [clearTable, withCleared, clearWords_zero, clearLog]
  | succ n ih =>
    have stored := storeTableWord_mapped (m := withCleared m g n (clearLog table g n))
      (table + 4 * n) g (4 * n) 0 (outside n (by omega))
      (mapped n (by omega) _ n (by omega)) inRam (by omega)
    simp only [clearTable, ih (by omega), bind_eq_bind, bind_some]
    rw [stored]
    simp only [withCleared, clearWords_succ, clearLog, cons_append]

theorem LowMapped.clearTable_low (mapping : LowMapped m) (f n : Nat) (inRam : m.frames ≤ f)
    (low : f < 1024) (bound : n ≤ 1024) :
    clearTable m (f * pageSize) n =
      some (withCleared m f n (clearLog (f * pageSize) f n)) := by
  refine clearTable_mapped (f * pageSize) f bound inRam
    (fun j small => mapping.table_outside f _ inRam (by simp only [pageSize]; omega)) ?_
  intro k _ writes j small
  have mapping' : LowMapped (withCleared m f k writes) :=
    ⟨mapping.aligned, mapping.image, mapping.lowDirectory, mapping.lowTable⟩
  exact mapping'.translate_low _ (by simp only [heapBase, pageSize]; omega)

structure Fresh (m : Machine) (tables pages : Nat → Option Nat) (g : Nat) : Prop where
  inRam : m.frames ≤ g
  managed : g < m.pmm.totalPages
  used : m.pmm.Used g
  noTable : ∀ i, tables i ≠ some g
  noPage : ∀ vp, pages vp ≠ some g

structure Target (m : Machine) (tables pages : Nat → Option Nat) (vp g : Nat) : Prop where
  inRam : m.frames ≤ g
  owned : Owned m.pmm vp g
  noTable : ∀ i, tables i ≠ some g
  noPage : ∀ other, other ≠ vp → pages other ≠ some g

theorem Fresh.target (fresh : Fresh m tables pages g) (vp : Nat) : Target m tables pages vp g :=
  ⟨fresh.inRam, .inl ⟨fresh.managed, fresh.used⟩, fresh.noTable, fun other _ => fresh.noPage other⟩

theorem Mapping.alloc (mapping : Mapping m good tables pages) (g : Nat) (pmm : Pmm)
    (allocated : pmmAllocPage m.pmm = some (g, pmm)) :
    Mapping (m.withPmm pmm) good tables pages ∧ Fresh (m.withPmm pmm) tables pages g := by
  obtain ⟨free, -, bound, rfl⟩ := pmmAllocPage_some allocated
  have kept : ∀ page, m.pmm.Used page → (m.pmm.markUsed g).Used page :=
    fun page used => (m.pmm.markUsed_used g page).mpr (.inl used)
  refine ⟨{ mapping with pmm := mapping.pmm.markUsed g, tableLow := ?_, pageHigh := ?_ }, ?_⟩
  · intro i f table
    obtain ⟨inRam, low, used⟩ := mapping.tableLow i f table
    exact ⟨inRam, low, kept f used⟩
  · intro vp g' page
    obtain ⟨inRam, owned⟩ := mapping.pageHigh vp g' page
    exact ⟨inRam, owned.mono (markUsed_marks m.pmm g)⟩
  · refine ⟨?_, bound, (m.pmm.markUsed_used g g).mpr (.inr rfl), ?_, ?_⟩
    · by_contra low
      exact free (mapping.pmm.reserved g (Nat.not_le.mp low) bound)
    · intro i table
      exact free (mapping.tableLow i g table).2.2
    · intro vp page
      rcases (mapping.pageHigh vp g page).2 with managed | device
      · exact free managed.2
      · exact absurd bound (Nat.not_lt.mpr device.2)

structure Grows (m m' : Machine) : Prop where
  marks : Marks m.pmm m'.pmm
  tasks : m'.nextTaskId = m.nextTaskId ∧ m'.taskCount = m.taskCount ∧ m'.taskList = m.taskList
  writes : ∃ writes, Identity writes ∧ m'.tableWrites = writes ++ m.tableWrites

theorem Grows.refl (m : Machine) : Grows m m :=
  ⟨.refl _, ⟨rfl, rfl, rfl⟩, [], by simp [Identity], rfl⟩

theorem Grows.trans (first : Grows a b) (second : Grows b c) : Grows a c := by
  obtain ⟨writes, identity, added⟩ := first.writes
  obtain ⟨writes', identity', added'⟩ := second.writes
  refine ⟨first.marks.trans second.marks, ?_, writes' ++ writes, ?_, ?_⟩
  · rw [second.tasks.1, second.tasks.2.1, second.tasks.2.2]
    exact first.tasks
  · intro w member
    rcases mem_append.mp member with new | old
    · exact identity' w new
    · exact identity w old
  · rw [added', added, append_assoc]

theorem SameBut.grows (same : SameBut m m') : Grows m m' :=
  ⟨same.pmm ▸ .refl _, ⟨same.nextTaskId, same.taskCount, same.taskList⟩, [], by simp [Identity],
    same.tableWrites⟩

structure Keeps (m m' : Machine) : Prop extends Grows m m' where
  heap : m'.heapStart = m.heapStart ∧ m'.heapSize = m.heapSize

theorem Keeps.refl (m : Machine) : Keeps m m := ⟨.refl m, ⟨rfl, rfl⟩⟩

theorem Keeps.trans (first : Keeps a b) (second : Keeps b c) : Keeps a c := by
  refine ⟨first.toGrows.trans second.toGrows, ?_⟩
  rw [second.heap.1, second.heap.2]
  exact first.heap

theorem view_congr {pages' : Nat → Option Nat} (mapping : Mapping m good tables pages)
    (mapping' : Mapping m' good tables' pages') (w : Nat)
    (page : pages' (w / pageSize) = pages (w / pageSize))
    (words : ∀ g, pages (w / pageSize) = some g →
      m'.ram (g * pageSize + w % pageSize) = m.ram (g * pageSize + w % pageSize)) :
    m'.view good w = m.view good w := by
  by_cases visible : heapBase ≤ w ∧ good (pdIndex w) = true
  · simp only [Machine.view, visible, and_self, if_true]
    rw [mapping'.load_high w visible.1 visible.2, mapping.load_high w visible.1 visible.2, page]
    cases mapped : pages (w / pageSize) with
    | none => rfl
    | some g => simp only [map_some, words g mapped]
  · simp [Machine.view, visible]

theorem update_some_cases {f : Nat → Option Nat} {i a x : Nat}
    (found : update f i (some g) a = some x) : a = i ∧ x = g ∨ a ≠ i ∧ f a = some x := by
  by_cases here : a = i
  · rw [here, update_self, some.injEq] at found
    exact .inl ⟨here, found.symm⟩
  · rw [update_of_ne here] at found
    exact .inr ⟨here, found⟩

theorem update_apart {f : Nat → Option Nat} {i : Nat}
    (apart : ∀ a b x, f a = some x → f b = some x → a = b) (unused : ∀ a, a ≠ i → f a ≠ some g) :
    ∀ a b x, update f i (some g) a = some x → update f i (some g) b = some x →
      a = b := by
  intro a b x first second
  rcases update_some_cases first with ⟨here, new⟩ | ⟨other, old⟩ <;>
    rcases update_some_cases second with ⟨there, new'⟩ | ⟨other', old'⟩
  · rw [here, there]
  · exact absurd (new ▸ old') (unused b other')
  · exact absurd (new' ▸ old) (unused a other)
  · exact apart a b x old old'

theorem Mapping.setEntry (mapping : Mapping m good tables pages) (v g f : Nat)
    (allowed : PageFlags flags) (high : heapBase ≤ v) (isGood : good (pdIndex v) = true)
    (target : Target m tables pages (v / pageSize) g) (table : tables (pdIndex v) = some f) :
    ∃ m', setTableEntry m v (g * pageSize) flags = some m' ∧
      Mapping m' good tables (update pages (v / pageSize) (some g)) ∧
      (∀ w, w / pageSize ≠ v / pageSize → m'.view good w = m.view good w) ∧ Keeps m m' ∧
      m'.pmm = m.pmm := by
  obtain ⟨inRam, low, used⟩ := mapping.tableLow _ f table
  have index : 1 ≤ pdIndex v := by
    simp only [pdIndex, heapBase] at *
    omega
  have bound := ptIndex_lt v
  have page := page_split v
  have stored := mapping.toLowMapped.storeTableWord_low f (ptIndex v) (g * pageSize ||| flags) inRam
    low bound
  have mapping' : Mapping { m with
      ram := update m.ram (f * pageSize + 4 * ptIndex v) (g * pageSize ||| flags)
      tableWrites := ⟨f * pageSize + 4 * ptIndex v, f * pageSize + 4 * ptIndex v⟩ ::
        m.tableWrites } good tables (update pages (v / pageSize) (some g)) := by
    refine { mapping with
      entries := ?_, unmapped := ?_, pageHigh := ?_, pagesApart := ?_, apart := ?_ }
    · intro i f' isGood' table' j jBound
      dsimp only
      by_cases here : f' = f ∧ j = ptIndex v
      · obtain ⟨rfl, rfl⟩ := here
        obtain rfl := mapping.tablesApart _ _ _ table' table
        rw [update_self, page, update_self]
        exact ⟨flags, allowed, rfl⟩
      · have different : f' * pageSize + 4 * j ≠ f * pageSize + 4 * ptIndex v := by
          intro same
          apply here
          simp only [pageSize] at *
          omega
        have otherPage : i * 1024 + j ≠ v / pageSize := by
          intro same
          have sameIndex : i = pdIndex v ∧ j = ptIndex v := by omega
          rw [sameIndex.1, table] at table'
          exact here ⟨(some.inj table').symm, sameIndex.2⟩
        rw [update_of_ne different, update_of_ne otherPage]
        exact mapping.entries i f' isGood' table' j jBound
    · intro i isGood' noTable j jBound
      have otherPage : i * 1024 + j ≠ v / pageSize := by
        intro same
        have sameIndex : i = pdIndex v := by omega
        rw [sameIndex, table] at noTable
        contradiction
      rw [update_of_ne otherPage]
      exact mapping.unmapped i isGood' noTable j jBound
    · intro vp g' mapped
      rcases update_some_cases mapped with ⟨rfl, rfl⟩ | ⟨-, mapped⟩
      · exact ⟨target.inRam, target.owned⟩
      · exact mapping.pageHigh vp g' mapped
    · exact update_apart mapping.pagesApart target.noPage
    · intro i f' vp table' mapped
      rcases update_some_cases mapped with ⟨-, rfl⟩ | ⟨-, mapped⟩
      · exact target.noTable i table'
      · exact mapping.apart i f' vp table' mapped
  refine ⟨_, ?_, mapping', ?_⟩
  · rw [setTableEntry, mapping.directory _ index isGood, table, tableWord, frame_address]
    exact stored
  · refine ⟨?_, ⟨⟨.refl _, ⟨rfl, rfl, rfl⟩, [⟨_, _⟩], by simp [Identity], rfl⟩, ⟨rfl, rfl⟩⟩, rfl⟩
    intro w other
    refine view_congr mapping mapping' w (update_of_ne other _ _) ?_
    intro g' mapped
    change update m.ram (f * pageSize + 4 * ptIndex v) (g * pageSize ||| flags)
      (g' * pageSize + w % pageSize) = _
    rw [update_of_ne]
    intro same
    have sameFrame : f = g' := by
      simp only [pageSize, ptIndex] at *
      omega
    exact mapping.apart _ f _ table (sameFrame ▸ mapped)

theorem clearWords_other (ram : Nat → Nat) (f : Nat) {a : Nat} (other : a / pageSize ≠ f) :
    clearWords ram (f * pageSize) 1024 a = ram a := by
  have outside : ¬ (f * pageSize ≤ a ∧ a < f * pageSize + 4 * 1024 ∧ a % 4 = 0) := by
    simp only [pageSize] at *
    omega
  simp only [clearWords, outside, if_false]

theorem clearWords_self (ram : Nat → Nat) (f : Nat) {j : Nat} (bound : j < 1024) :
    clearWords ram (f * pageSize) 1024 (f * pageSize + 4 * j) = 0 := by
  have inside : f * pageSize ≤ f * pageSize + 4 * j ∧
      f * pageSize + 4 * j < f * pageSize + 4 * 1024 ∧ (f * pageSize + 4 * j) % 4 = 0 := by
    simp only [pageSize] at *
    omega
  simp only [clearWords, inside, and_self, if_true]

theorem Mapping.newTable (mapping : Mapping m good tables pages) (i f : Nat)
    (writes : List TableWrite) (high : 1 ≤ i) (noTable : tables i = none) (low : f < 1024)
    (fresh : Fresh m tables pages f) :
    let m' := setDirectoryEntry (withCleared m f 1024 writes) i (f * pageSize + 3)
    Mapping m' good (update tables i (some f)) pages ∧
      ∀ w, m'.view good w = m.view good w := by
  intro m'
  have mapping' : Mapping m' good (update tables i (some f)) pages := by
    refine { mapping with
      lowDirectory := ?_, directory := ?_, entries := ?_, unmapped := ?_, tableLow := ?_
      tablesApart := ?_, apart := ?_ }
    · exact (update_of_ne (by omega) _ _).trans mapping.lowDirectory
    · intro i' high' isGood'
      by_cases here : i' = i
      · subst here
        simp only [m', setDirectoryEntry, update_self, tableWord]
      · simp only [m', setDirectoryEntry, update_of_ne here]
        exact mapping.directory i' high' isGood'
    · intro i' f' isGood' table j bound
      rcases update_some_cases table with ⟨rfl, rfl⟩ | ⟨-, old⟩
      · rw [mapping.unmapped i' isGood' noTable j bound]
        exact clearWords_self m.ram f' bound
      · have other : f' ≠ f := by
          rintro rfl
          exact fresh.noTable i' old
        have elsewhere : (f' * pageSize + 4 * j) / pageSize ≠ f := by
          simp only [pageSize] at *
          omega
        change PageWord (pages (i' * 1024 + j))
          (clearWords m.ram (f * pageSize) 1024 (f' * pageSize + 4 * j))
        rw [clearWords_other m.ram f elsewhere]
        exact mapping.entries i' f' isGood' old j bound
    · intro i' isGood' none j bound
      have other : i' ≠ i := by
        rintro rfl
        simp at none
      rw [update_of_ne other] at none
      exact mapping.unmapped i' isGood' none j bound
    · intro i' f' table
      rcases update_some_cases table with ⟨-, rfl⟩ | ⟨-, table⟩
      · exact ⟨fresh.inRam, low, fresh.used⟩
      · exact mapping.tableLow i' f' table
    · exact update_apart mapping.tablesApart fun i' _ => fresh.noTable i'
    · intro i' f' vp table mapped
      rcases update_some_cases table with ⟨-, rfl⟩ | ⟨-, table⟩
      · exact fresh.noPage vp mapped
      · exact mapping.apart i' f' vp table mapped
  refine ⟨mapping', ?_⟩
  intro w
  refine view_congr mapping mapping' w rfl ?_
  intro g mapped
  refine clearWords_other m.ram f ?_
  intro same
  have sameFrame : g = f := by
    simp only [pageSize] at *
    omega
  exact fresh.noPage _ (sameFrame ▸ mapped)

end

-- If the address has no table yet, the frame for one lies in the first four megabytes.
def TableLow (m : Machine) (virtualAddr : Nat) : Prop :=
  ¬ Present (m.pageDirectory (pdIndex virtualAddr)) →
    ∀ page pmm, pmmAllocPage m.pmm = some (page, pmm) → page < 1024

theorem Mapping.createTable {good : Nat → Bool} {tables pages : Nat → Option Nat}
    (mapping : Mapping m good tables pages) (i f : Nat) (pmm : Pmm) (high : 1 ≤ i)
    (noTable : tables i = none) (allocated : pmmAllocPage m.pmm = some (f, pmm)) (low : f < 1024) :
    ∃ m', pagingCreatePageTable m = some (m', f * pageSize) ∧ f * pageSize ≠ 0 ∧
      Mapping (setDirectoryEntry m' i (f * pageSize ||| pagePresent ||| pageWritable)) good
        (update tables i (some f)) pages ∧
      (∀ w, (setDirectoryEntry m' i (f * pageSize ||| pagePresent ||| pageWritable)).view good w =
        m.view good w) ∧
      Keeps m (setDirectoryEntry m' i (f * pageSize ||| pagePresent ||| pageWritable)) ∧
      m'.pmm = pmm := by
  obtain ⟨mapped, fresh⟩ := mapping.alloc f pmm allocated
  have cleared := mapped.toLowMapped.clearTable_low f 1024 fresh.inRam low (by omega)
  obtain ⟨mapping', view⟩ := mapped.newTable i f _ high noTable low fresh
  obtain ⟨-, -, -, rfl⟩ := pmmAllocPage_some allocated
  have frames := frames_image m
  have inRam : m.frames ≤ f := fresh.inRam
  rw [Nat.or_assoc, frame_or_flags]
  refine ⟨_, ?_, ?_, mapping', ?_, ?_, rfl⟩
  · simp only [pagingCreatePageTable, allocated, cleared, bind_eq_bind, bind_some]
    rfl
  · simp only [pageSize] at *
    omega
  · intro w
    refine (view w).trans ?_
    exact view_congr mapping mapped w rfl (fun _ _ => rfl)
  · exact ⟨⟨markUsed_marks m.pmm f, ⟨rfl, rfl, rfl⟩, _, clearLog_identity f 1024, rfl⟩,
      ⟨rfl, rfl⟩⟩

section

theorem pdIndex_high {v : Nat} (high : heapBase ≤ v) : 1 ≤ pdIndex v := by
  simp only [pdIndex, heapBase] at *
  omega

section

variable (mapping : Mapping m good tables pages)

include mapping

theorem Mapping.present_iff_table (v : Nat) (high : heapBase ≤ v)
    (isGood : good (pdIndex v) = true) :
    Present (m.pageDirectory (pdIndex v)) ↔ tables (pdIndex v) ≠ none := by
  rw [mapping.directory _ (pdIndex_high high) isGood]
  cases tables (pdIndex v) with
  | none => simp [tableWord, Present]
  | some f => simp [tableWord, frame_present]

theorem Mapping.mapPage_table (v g f : Nat) (allowed : PageFlags flags) (high : heapBase ≤ v)
    (isGood : good (pdIndex v) = true) (target : Target m tables pages (v / pageSize) g)
    (table : tables (pdIndex v) = some f) :
    ∃ m', pagingMapPage m v (g * pageSize) flags = some m' ∧
      Mapping m' good tables (update pages (v / pageSize) (some g)) ∧
      (∀ w, w / pageSize ≠ v / pageSize → m'.view good w = m.view good w) ∧ Keeps m m' ∧
      m'.pmm = m.pmm := by
  have present := (mapping.present_iff_table v high isGood).mpr (by simp [table])
  rw [pagingMapPage, if_pos present]
  exact mapping.setEntry v g f allowed high isGood target table

theorem Mapping.mapPage_newTable (v g f : Nat) (pmm : Pmm) (allowed : PageFlags flags)
    (high : heapBase ≤ v) (isGood : good (pdIndex v) = true)
    (target : Target m tables pages (v / pageSize) g) (noTable : tables (pdIndex v) = none)
    (allocated : pmmAllocPage m.pmm = some (f, pmm)) (low : f < 1024) :
    ∃ m', pagingMapPage m v (g * pageSize) flags = some m' ∧
      Mapping m' good (update tables (pdIndex v) (some f))
        (update pages (v / pageSize) (some g)) ∧
      (∀ w, w / pageSize ≠ v / pageSize → m'.view good w = m.view good w) ∧ Keeps m m' ∧
      m'.pmm = pmm := by
  have absent : ¬ Present (m.pageDirectory (pdIndex v)) := by
    rw [mapping.present_iff_table v high isGood]
    simp [noTable]
  obtain ⟨created, returned, nonzero, mapping', view, keeps, pmmCreated⟩ :=
    mapping.createTable (pdIndex v) f pmm (pdIndex_high high) noTable allocated low
  obtain ⟨free, -, bound, -⟩ := pmmAllocPage_some allocated
  have target' : Target (setDirectoryEntry created (pdIndex v)
      (f * pageSize ||| pagePresent ||| pageWritable))
      (update tables (pdIndex v) (some f)) pages (v / pageSize) g := by
    refine ⟨?_, target.owned.mono keeps.marks, ?_, target.noPage⟩
    · rw [frames, keeps.marks.bitmapSize]
      exact target.inRam
    · intro i
      by_cases here : i = pdIndex v
      · subst here
        rw [update_self]
        rintro ⟨⟩
        rcases target.owned with managed | device
        · exact free managed.2
        · exact absurd bound (Nat.not_lt.mpr device.2)
      · rw [update_of_ne here]
        exact target.noTable i
  obtain ⟨m', stored, mapping'', view', keeps', pmmStored⟩ := mapping'.setEntry v g f allowed high
    isGood target' (update_self _ _ _)
  refine ⟨m', ?_, mapping'', ?_, keeps.trans keeps', pmmStored.trans pmmCreated⟩
  · simp only [pagingMapPage, absent, if_false, returned, bind_eq_bind,
      bind_some, nonzero]
    exact stored
  · intro w other
    exact (view' w other).trans (view w)

theorem Mapping.rewrites_page (v g : Nat) (high : heapBase ≤ v) (isGood : good (pdIndex v) = true)
    (mapping' : Mapping m' good tables' (update pages (v / pageSize) (some g)))
    (others : ∀ w, w / pageSize ≠ v / pageSize → m'.view good w = m.view good w) :
    (∀ w, w / pageSize = v / pageSize → w % 4 = 0 → m'.view good w ≠ none) ∧
      Rewrites (fun w => w / pageSize = v / pageSize) (m.view good) (m'.view good) := by
  have readable : ∀ w, w / pageSize = v / pageSize → w % 4 = 0 → m'.view good w ≠ none := by
    intro w here aligned
    have sameTable : pdIndex w = pdIndex v := by
      simp only [pdIndex, pageSize] at *
      omega
    refine (mapping'.view_readable w).mpr ⟨⟨?_, sameTable ▸ isGood⟩, aligned, by simp [here]⟩
    simp only [heapBase, pageSize] at *
    omega
  refine ⟨readable, fun w => ?_⟩
  by_cases here : w / pageSize = v / pageSize
  · by_cases aligned : w % 4 = 0
    · exact .inr ⟨here, readable w here aligned⟩
    · have before : m.view good w = none := by
        by_contra known
        exact aligned ((mapping.view_readable w).mp known).2.1
      have after : m'.view good w = none := by
        by_contra known
        exact aligned ((mapping'.view_readable w).mp known).2.1
      exact .inl (after.trans before.symm)
  · exact .inl (others w here)

theorem Mapping.mapPage (v g : Nat) (allowed : PageFlags flags) (high : heapBase ≤ v)
    (isGood : good (pdIndex v) = true) (target : Target m tables pages (v / pageSize) g)
    (low : TableLow m v) :
    ∃ m' tables' pages', pagingMapPage m v (g * pageSize) flags = some m' ∧
      Mapping m' good tables' pages' ∧
      (∀ vp, vp ≠ v / pageSize → pages' vp = pages vp) ∧
      Rewrites (fun w => w / pageSize = v / pageSize) (m.view good) (m'.view good) ∧
      Keeps m m' ∧
      (pages' (v / pageSize) = some g ∧
          (∀ w, w / pageSize = v / pageSize → w % 4 = 0 → m'.view good w ≠ none) ∨
        ¬ Present (m.pageDirectory (pdIndex v)) ∧ pmmAllocPage m.pmm = none ∧ m' = m) := by
  cases table : tables (pdIndex v) with
  | some f =>
    obtain ⟨m', stored, mapping', view, keeps, -⟩ := mapping.mapPage_table v g f allowed high isGood
      target table
    obtain ⟨readable, rewrites⟩ := mapping.rewrites_page v g high isGood mapping' view
    exact ⟨m', _, _, stored, mapping', fun vp other => update_of_ne other _ _, rewrites,
      keeps, .inl ⟨update_self _ _ _, readable⟩⟩
  | none =>
    have absent : ¬ Present (m.pageDirectory (pdIndex v)) := by
      rw [mapping.present_iff_table v high isGood]
      simp [table]
    cases allocated : pmmAllocPage m.pmm with
    | none =>
      refine ⟨m, tables, pages, ?_, mapping, fun _ _ => rfl, .refl _ _, .refl m,
        .inr ⟨absent, rfl, rfl⟩⟩
      simp [pagingMapPage, absent, pagingCreatePageTable, allocated]
    | some result =>
      obtain ⟨m', stored, mapping', view, keeps, -⟩ := mapping.mapPage_newTable v g result.1
        result.2 allowed high isGood target table allocated (low absent _ _ allocated)
      obtain ⟨readable, rewrites⟩ := mapping.rewrites_page v g high isGood mapping' view
      exact ⟨m', _, _, stored, mapping', fun vp other => update_of_ne other _ _, rewrites,
        keeps, .inl ⟨update_self _ _ _, readable⟩⟩

end

end

section

structure KeepsDirectory (m m' : Machine) : Prop where
  pmm : m'.pmm = m.pmm
  pageDirectory : m'.pageDirectory = m.pageDirectory
  heap : m'.heapStart = m.heapStart ∧ m'.heapSize = m.heapSize

theorem KeepsDirectory.trans (first : KeepsDirectory a b) (second : KeepsDirectory b c) :
    KeepsDirectory a c :=
  ⟨second.pmm.trans first.pmm, second.pageDirectory.trans first.pageDirectory,
    second.heap.1.trans first.heap.1, second.heap.2.trans first.heap.2⟩

theorem storeTableWord_keeps {pointer value : Nat}
    (stored : storeTableWord m pointer value = some m') : KeepsDirectory m m' := by
  unfold storeTableWord at stored
  split at stored
  · obtain rfl := some.inj stored
    exact ⟨rfl, rfl, rfl, rfl⟩
  · obtain ⟨m1, written, rfl⟩ := map_eq_some_iff.mp stored
    obtain ⟨physical, -, rfl⟩ := map_eq_some_iff.mp written
    exact ⟨rfl, rfl, rfl, rfl⟩

theorem clearTable_keeps {table n : Nat} (cleared : clearTable m table n = some m') :
    KeepsDirectory m m' := by
  induction n generalizing m' with
  | zero =>
    obtain rfl := some.inj cleared
    exact ⟨rfl, rfl, rfl, rfl⟩
  | succ n ih =>
    obtain ⟨m1, first, stored⟩ := bind_eq_some_iff.mp cleared
    exact (ih first).trans (storeTableWord_keeps stored)

inductive MapsPage (m m' : Machine) (v : Nat) : Prop where
  | table (present : Present (m.pageDirectory (pdIndex v))) (keeps : KeepsDirectory m m')
  | exhausted (absent : ¬ Present (m.pageDirectory (pdIndex v))) (none : pmmAllocPage m.pmm = none)
      (same : m' = m)
  | newTable (page : Nat) (pmm : Pmm) (absent : ¬ Present (m.pageDirectory (pdIndex v)))
      (allocated : pmmAllocPage m.pmm = some (page, pmm)) (pmm' : m'.pmm = pmm)
      (directory : m'.pageDirectory =
        Function.update m.pageDirectory (pdIndex v) (page * pageSize + 3))

theorem pagingMapPage_cases (ok : PmmOk m.pmm) {v physicalAddr : Nat}
    (mapped : pagingMapPage m v physicalAddr flags = some m') : MapsPage m m' v := by
  unfold pagingMapPage at mapped
  split at mapped
  · next present => exact .table present (storeTableWord_keeps mapped)
  · next absent =>
    unfold pagingCreatePageTable at mapped
    cases allocated : pmmAllocPage m.pmm with
    | none =>
      simp only [allocated, bind_eq_bind, bind_some, if_true] at mapped
      exact .exhausted absent allocated (some.inj mapped).symm
    | some result =>
      obtain ⟨page, pmm⟩ := result
      simp only [allocated] at mapped
      obtain ⟨⟨m1, table⟩, created, mapped⟩ := bind_eq_some_iff.mp mapped
      obtain ⟨m2, cleared, created⟩ := bind_eq_some_iff.mp created
      cases created
      rw [if_neg (ok.alloc_nonzero allocated), Nat.or_assoc, frame_or_flags] at mapped
      have cleared := clearTable_keeps cleared
      have stored := storeTableWord_keeps mapped
      refine .newTable page pmm absent allocated (stored.pmm.trans cleared.pmm) ?_
      rw [stored.pageDirectory, setDirectoryEntry, cleared.pageDirectory]
      rfl

end

end ArgoOS.Memory
