import ArgoOS.Memory.Boot

set_option autoImplicit false

/-!
# The heap under its first page table

Without a memory map the frames are handed out in order, so that the machine after boot can be
written down word by word: frame 513 is the first page of the heap, frame 514 is its page table
and the frames from 515 on are the other pages. The frame of the second table would be a page
of the heap: that table is cleared and filled through its physical address all the same.
-/

namespace ArgoOS.Memory

open Machine Blocks Option Function

variable {next g p : Nat}

section

def framesUpTo (next total : Nat) : Pmm where
  bitmap i := BitVec.ofNat 32 (2 ^ min 32 (next - 32 * i) - 1)
  totalPages := total
  usedPages := UInt32.ofNat next
  bitmapSize := (total + 31) / 32

theorem framesUpTo_used (next total page : Nat) :
    (framesUpTo next total).Used page ↔ page < next := by
  have bound : page % 32 < 32 := Nat.mod_lt _ (by decide)
  simp only [Pmm.Used, framesUpTo, BitVec.getLsbD_ofNat, Nat.testBit_two_pow_sub_one,
    Bool.and_eq_true, decide_eq_true_eq]
  omega

theorem Pmm.eq_of_used {a b : Pmm} (used : ∀ page, a.Used page ↔ b.Used page)
    (total : a.totalPages = b.totalPages) (count : a.usedPages = b.usedPages)
    (size : a.bitmapSize = b.bitmapSize) : a = b := by
  obtain ⟨bitmap, _, _, _⟩ := a
  obtain ⟨bitmap', _, _, _⟩ := b
  have words : bitmap = bitmap' := by
    funext i
    refine BitVec.eq_of_getLsbD_eq fun j small => ?_
    have here := used (32 * i + j)
    simp only [Pmm.Used, show (32 * i + j) / 32 = i by omega,
      show (32 * i + j) % 32 = j by omega] at here
    exact Bool.eq_iff_iff.mpr here
  simp only at total count size
  rw [words, total, count, size]

theorem framesUpTo_markUsed (next total : Nat) :
    (framesUpTo next total).markUsed next = framesUpTo (next + 1) total := by
  refine Pmm.eq_of_used (fun page => ?_) rfl ?_ rfl
  · rw [Pmm.markUsed_used, framesUpTo_used, framesUpTo_used]
    omega
  · exact (UInt32.ofNat_add next 1).symm

theorem framesUpTo_alloc {total : Nat} (room : next < total) :
    pmmAllocPage (framesUpTo next total) = some (next, framesUpTo (next + 1) total) := by
  have covered : total ≤ 32 * ((total + 31) / 32) := by omega
  cases allocated : pmmAllocPage (framesUpTo next total) with
  | none =>
    have full := (pmmAllocPage_none covered).mp allocated next room
    rw [framesUpTo_used] at full
    omega
  | some result =>
    obtain ⟨page, pmm⟩ := result
    obtain ⟨free, below, -, rfl⟩ := pmmAllocPage_some allocated
    rw [framesUpTo_used] at free
    obtain rfl : page = next := by
      by_contra different
      have used := below next (by omega)
      rw [framesUpTo_used] at used
      omega
    rw [framesUpTo_markUsed]

theorem pmmInit_frames {info : MultibootInfo} {total : Nat} (noMap : info.flags &&& 0x40 = 0)
    (memory : (totalMemory info).toNat / pageSize = total)
    (reserved : min (reservedPages ((total + 31) / 32)) total = next) :
    pmmInit info = framesUpTo next total := by
  have marked : ∀ n, (List.range n).foldl Pmm.markUsed (framesUpTo 0 total) =
      framesUpTo n total := by
    intro n
    induction n with
    | zero => rfl
    | succ n ih =>
      rw [List.range_succ, List.foldl_append, ih]
      exact framesUpTo_markUsed n total
  have start : (⟨fun _ => 0#32, total, 0, (total + 31) / 32⟩ : Pmm) = framesUpTo 0 total :=
    Pmm.eq_of_used (fun page => by rw [framesUpTo_used]; simp [Pmm.Used]) rfl rfl rfl
  rw [pmmInit_eq, if_neg (by simp [noMap]), pmmStart, memory, reserved, start, marked]

end

variable {m : Machine} {n total : Nat}

section

structure FirstTable (m : Machine) (n total : Nat) : Prop extends LowMapped m where
  frames : m.pmm = framesUpTo (514 + n) total
  few : total ≤ 32768
  table : m.pageDirectory 1 = 514 * pageSize + 3

def entryLog (n : Nat) : Nat → List TableWrite
  | 0 => []
  | k + 1 => ⟨514 * pageSize + 4 * (n + k), 514 * pageSize + 4 * (n + k)⟩ :: entryLog n k

def withPages (m : Machine) (n k : Nat) : Machine :=
  { m with
    ram := fun a =>
      if 514 * pageSize + 4 * n ≤ a ∧ a < 514 * pageSize + 4 * (n + k) ∧ a % 4 = 0 then
        (514 + (a - 514 * pageSize) / 4) * pageSize + 3
      else m.ram a
    pmm := framesUpTo (514 + n + k) m.pmm.totalPages
    tableWrites := entryLog n k ++ m.tableWrites }

theorem FirstTable.inRam (first : FirstTable m n total) : m.frames ≤ 513 := by
  have few := first.few
  rw [Machine.frames, first.frames]
  simp only [framesUpTo, reservedPages, pageSize]
  omega

theorem withPages_zero (first : FirstTable m n total) : withPages m n 0 = m := by
  have same : (withPages m n 0).pmm = m.pmm := by
    simp only [withPages, first.frames, Nat.add_zero]
    rfl
  have words : (withPages m n 0).ram = m.ram := by
    funext a
    exact if_neg (by omega)
  obtain ⟨_⟩ := m
  simp only [withPages] at same words ⊢
  rw [same, words]
  rfl

theorem withPages_succ (m : Machine) (n k : Nat) :
    { withPages m n k with
      pmm := framesUpTo (514 + n + k + 1) m.pmm.totalPages
      ram := update (withPages m n k).ram (514 * pageSize + 4 * (n + k))
        ((514 + n + k) * pageSize + 3)
      tableWrites := ⟨514 * pageSize + 4 * (n + k), 514 * pageSize + 4 * (n + k)⟩ ::
        (withPages m n k).tableWrites } = withPages m n (k + 1) := by
  have words : update (withPages m n k).ram (514 * pageSize + 4 * (n + k))
      ((514 + n + k) * pageSize + 3) = (withPages m n (k + 1)).ram := by
    funext a
    have size : pageSize = 4096 := rfl
    by_cases here : a = 514 * pageSize + 4 * (n + k)
    · have last : (514 + (a - 514 * pageSize) / 4) = 514 + n + k := by omega
      rw [here, update_self, ← here]
      exact (last ▸ (if_pos (by omega)).symm)
    · rw [update_of_ne here]
      exact if_congr (by omega) rfl rfl
  rw [words]
  rfl

theorem FirstTable.morePages (first : FirstTable m n total) (k : Nat) :
    FirstTable (withPages m n k) (n + k) total where
  aligned := first.aligned
  image := first.image
  lowDirectory := first.lowDirectory
  lowTable := first.lowTable
  frames := by
    have pages : m.pmm.totalPages = total := by rw [first.frames]; rfl
    simp only [withPages, pages, Nat.add_assoc]
  few := first.few
  table := first.table

theorem LowMapped.setFirstTable (low : LowMapped m) (inRam : m.frames ≤ 514)
    (table : m.pageDirectory 1 = 514 * pageSize + 3) (inTable : n < 1024) (f : Nat) :
    setTableEntry m (heapBase + n * pageSize) (f * pageSize) (pagePresent ||| pageWritable) =
      some { m with
        ram := update m.ram (514 * pageSize + 4 * n) (f * pageSize + 3)
        tableWrites := ⟨514 * pageSize + 4 * n, 514 * pageSize + 4 * n⟩ :: m.tableWrites } := by
  have index : pdIndex (heapBase + n * pageSize) = 1 ∧ ptIndex (heapBase + n * pageSize) = n := by
    simp only [pdIndex, ptIndex, heapBase, pageSize]
    omega
  rw [setTableEntry, index.1, index.2, table, frame_address, frame_or_flags,
    low.storeTableWord_low 514 n _ inRam (by decide) inTable]

section

variable (first : FirstTable m n total)

include first

theorem FirstTable.withPmm (k : Nat) :
    FirstTable (m.withPmm (framesUpTo (514 + k) total)) k total :=
  ⟨⟨first.aligned, first.image, first.lowDirectory, first.lowTable⟩, rfl, first.few, first.table⟩

theorem FirstTable.maps (k : Nat) (inTable : n + k ≤ 1024) (room : 514 + n + k ≤ total) :
    mapPages k (heapBase + n * pageSize) m = some (withPages m n k, true) := by
  have pages : m.pmm.totalPages = total := by rw [first.frames]; rfl
  -- The loop from page `n + j` on, when the pages before it are there.
  have rest : ∀ j k', j + k' = k → mapPages k' (heapBase + (n + j) * pageSize)
      (withPages m n j) = some (withPages m n k, true) := by
    intro j k' count
    induction k' generalizing j with
    | zero =>
      obtain rfl : j = k := count
      rfl
    | succ k' ih =>
      have first' := first.morePages j
      have allocated : pmmAllocPage (withPages m n j).pmm =
          some (514 + (n + j), framesUpTo (514 + (n + j + 1)) total) := by
        rw [first'.frames]
        exact framesUpTo_alloc (by omega)
      have next := first'.withPmm (n + j + 1)
      have present : Present (((withPages m n j).withPmm
          (framesUpTo (514 + (n + j + 1)) total)).pageDirectory
            (pdIndex (heapBase + (n + j) * pageSize))) := by
        rw [show pdIndex (heapBase + (n + j) * pageSize) = 1 by
          simp only [pdIndex, heapBase, pageSize]
          omega, next.table]
        exact frame_present 514
      have stored := next.setFirstTable (by have inRam := next.inRam; omega) next.table
        (n := n + j) (by omega) (514 + (n + j))
      rw [mapPages_next k' (by simp only [heapBase, pageSize]; omega) allocated
        (by rw [pagingMapPage, if_pos present]; exact stored)]
      have succ := withPages_succ m n j
      rw [pages, Nat.add_assoc 514 n j] at succ
      refine Eq.trans (congrArg₂ (mapPages k') ?_ succ) (ih (j + 1) (by omega))
      simp only [pageSize]
      omega
  have all := rest 0 k (Nat.zero_add k)
  rwa [withPages_zero first, Nat.add_zero] at all

theorem FirstTable.translate {j : Nat} (offset : Nat) (inTable : j < 1024)
    (entry : m.ram (514 * pageSize + 4 * j) = g * pageSize + 3) (inPage : offset < pageSize) :
    m.translate ((1024 + j) * pageSize + offset) = some (g * pageSize + offset) := by
  have index : pdIndex ((1024 + j) * pageSize + offset) = 1 ∧
      ptIndex ((1024 + j) * pageSize + offset) = j ∧
      ((1024 + j) * pageSize + offset) % pageSize = offset := by
    simp only [pdIndex, ptIndex, pageSize] at *
    omega
  have outside : 514 * pageSize ≠ m.firstPageTableAt := by
    have image := first.image
    simp only [pageSize]
    omega
  simp only [Machine.translate, index, first.table, frame_present, frame_address, if_true,
    Machine.tableEntry, outside, if_false, entry]

-- A table whose frame number is that of a page of the heap is cleared in that page.
theorem FirstTable.clears {j f : Nat} (inTable : j < 1024)
    (entry : m.ram (514 * pageSize + 4 * j) = g * pageSize + 3) (isPage : 514 < g)
    (sameNumber : f = 1024 + j) : clearTable m (f * pageSize) 1024 =
      some (withCleared m g 1024 (clearLog (f * pageSize) g 1024)) := by
  have inRam := first.inRam
  subst sameNumber
  refine clearTable_mapped _ g (Nat.le_refl _) (by omega) ?_ ?_
  · intro k small
    have image := first.image
    simp only [pageAddress, pageSize]
    omega
  · intro k _ writes i small
    have first' : FirstTable (withCleared m g k writes) n total :=
      ⟨⟨first.aligned, first.image, first.lowDirectory, first.lowTable⟩, first.frames, first.few,
        first.table⟩
    refine first'.translate _ inTable ?_ (by simp only [pageSize]; omega)
    rw [← entry]
    exact if_neg (by simp only [pageSize]; omega)

end

end

theorem mapPages_append (a b virtualAddr : Nat) (m : Machine) :
    mapPages (a + b) virtualAddr m = (mapPages a virtualAddr m).bind fun result =>
      if result.2 then mapPages b (virtualAddr + a * pageSize) result.1
      else some (result.1, false) := by
  induction a generalizing virtualAddr m with
  | zero => simp [mapPages]
  | succ a ih =>
    have address : virtualAddr + (a + 1) * pageSize = virtualAddr + pageSize + a * pageSize := by
      simp only [pageSize]
      omega
    rw [Nat.succ_add, mapPages, mapPages, address]
    cases allocated : pmmAllocPage m.pmm with
    | none => simp
    | some result =>
      simp only [bind_eq_bind, bind_assoc]
      cases pagingMapPage _ _ _ _ with
      | none => simp
      | some m' => simp only [bind_some, ih]

section

theorem pagingMapPage_cleared {v f h : Nat} {pmm : Pmm} (flags : Nat)
    (absent : ¬ Present (m.pageDirectory (pdIndex v)))
    (allocated : pmmAllocPage m.pmm = some (f, pmm)) (nonzero : f ≠ 0)
    (cleared : clearTable (m.withPmm pmm) (f * pageSize) 1024 =
      some (withCleared (m.withPmm pmm) h 1024 (clearLog (f * pageSize) h 1024))) :
    pagingMapPage m v g flags =
      setTableEntry (setDirectoryEntry
        (withCleared (m.withPmm pmm) h 1024 (clearLog (f * pageSize) h 1024)) (pdIndex v)
        (f * pageSize + 3)) v g flags := by
  have address : f * pageSize ≠ 0 := by
    simp only [pageSize]
    omega
  simp only [pagingMapPage, absent, if_false, pagingCreatePageTable, allocated, cleared,
    bind_eq_bind, bind_some, pure, address, Nat.or_assoc, frame_or_flags]

def withFirstPage (m : Machine) (total : Nat) : Machine :=
  let table := setDirectoryEntry (withCleared (m.withPmm (framesUpTo 515 total)) 514 1024
    (clearLog (514 * pageSize) 514 1024)) 1 (514 * pageSize + 3)
  { table with
    ram := Function.update table.ram (514 * pageSize) (513 * pageSize + 3)
    tableWrites := ⟨514 * pageSize, 514 * pageSize⟩ :: table.tableWrites }

theorem LowMapped.firstPages (low : LowMapped m) (frames : m.pmm = framesUpTo 513 total)
    (few : total ≤ 32768) (room : 770 ≤ total) (absent : ¬ Present (m.pageDirectory 1)) :
    FirstTable (withFirstPage m total) 1 total ∧
      mapPages 256 heapBase m = some (withPages (withFirstPage m total) 1 255, true) := by
  have low' : LowMapped (m.withPmm (framesUpTo 515 total)) :=
    ⟨low.aligned, low.image, low.lowDirectory, low.lowTable⟩
  have inRam : (m.withPmm (framesUpTo 515 total)).frames ≤ 514 := by
    simp only [Machine.frames, Machine.withPmm, framesUpTo, reservedPages, pageSize]
    omega
  have first : FirstTable (withFirstPage m total) 1 total :=
    ⟨⟨low.aligned, low.image, low.lowDirectory, low.lowTable⟩, rfl, few, rfl⟩
  refine ⟨first, ?_⟩
  have mapped : pagingMapPage (m.withPmm (framesUpTo 514 total)) heapBase (513 * pageSize)
      (pagePresent ||| pageWritable) = some (withFirstPage m total) := by
    rw [pagingMapPage_cleared (m := m.withPmm (framesUpTo 514 total)) (v := heapBase) _ absent
      (framesUpTo_alloc (by omega : 514 < total)) (by decide)
      (low'.clearTable_low 514 1024 inRam (by decide) (Nat.le_refl _)), withFirstPage]
    generalize clearLog (514 * pageSize) 514 1024 = log
    have table : LowMapped (setDirectoryEntry (withCleared (m.withPmm (framesUpTo 515 total)) 514 1024
        log) 1 (514 * pageSize + 3)) :=
      ⟨low.aligned, low.image, low.lowDirectory, low.lowTable⟩
    exact table.setFirstTable inRam rfl (n := 0) (by decide) 513
  rw [mapPages_next 255 (by decide) (frames ▸ framesUpTo_alloc (by omega)) mapped]
  exact first.maps 255 (by decide) (by omega)

/-- The machine once the frame of the table for `0x800000` is cleared through page 0x603 of the
heap, which is frame 1029. -/
def withClash (m : Machine) (total : Nat) : Machine :=
  setDirectoryEntry (withCleared (m.withPmm (framesUpTo 1540 total)) 1029 1024
    (clearLog (1539 * pageSize) 1029 1024)) 2 (1539 * pageSize + 3)

theorem FirstTable.maps_clash {n : Nat} (first : FirstTable m n total) (a b : Nat)
    (ends : n + a = 1024) (room : 1540 ≤ total) (absent : ¬ Present (m.pageDirectory 2))
    (entry : (withPages m n a).ram (514 * pageSize + 4 * 0x203) = 1029 * pageSize + 3) :
    mapPages (a + (b + 1)) (heapBase + n * pageSize) m =
      (setTableEntry (withClash (withPages m n a) total) 0x800000 (1538 * pageSize)
        (pagePresent ||| pageWritable)).bind (mapPages b 0x801000) := by
  have first' := first.morePages a
  rw [ends] at first'
  have cleared := (first'.withPmm 1026).clears (f := 1539) (by decide) entry (by decide) rfl
  have created := pagingMapPage_cleared (m := (withPages m n a).withPmm (framesUpTo 1539 total))
    (v := 0x800000) (g := 1538 * pageSize) (pagePresent ||| pageWritable) absent
    (framesUpTo_alloc (by omega : 1539 < total)) (by decide) cleared
  have page : pmmAllocPage (withPages m n a).pmm = some (1538, framesUpTo 1539 total) := by
    rw [first'.frames]
    exact framesUpTo_alloc (by omega)
  have start : heapBase + n * pageSize + a * pageSize = 0x800000 := by
    simp only [heapBase, pageSize]
    omega
  rw [mapPages_append, first.maps a (by omega) (by omega), bind_some, if_pos rfl, start,
    mapPages, page, word_eq 0x800000 (by decide)]
  exact congrArg (Option.bind · _) created

end

section

def OnlyHeap (m m' : Machine) : Prop :=
  ∃ ram start size used,
    m' = { m with ram := ram, heapStart := start, heapSize := size, heapUsed := used }

variable {m' m1 m2 : Machine} {block size : Nat}

theorem OnlyHeap.refl (m : Machine) : OnlyHeap m m := ⟨m.ram, m.heapStart, m.heapSize, m.heapUsed, rfl⟩

theorem OnlyHeap.trans (first : OnlyHeap m m1) (second : OnlyHeap m1 m2) : OnlyHeap m m2 := by
  obtain ⟨_, _, _, _, rfl⟩ := first
  obtain ⟨_, _, _, _, rfl⟩ := second
  exact ⟨_, _, _, _, rfl⟩

theorem FirstTable.onlyHeap (first : FirstTable m n total) (only : OnlyHeap m m') :
    FirstTable m' n total := by
  obtain ⟨_, _, _, _, rfl⟩ := only
  exact ⟨⟨first.aligned, first.image, first.lowDirectory, first.lowTable⟩, first.frames, first.few,
    first.table⟩

def Rewritten (m m' : Machine) : Prop := ∃ ram used, m' = { m with ram := ram, heapUsed := used }

theorem Rewritten.refl (m : Machine) : Rewritten m m := ⟨m.ram, m.heapUsed, rfl⟩

theorem Rewritten.trans (first : Rewritten m m1) (second : Rewritten m1 m2) : Rewritten m m2 := by
  obtain ⟨_, _, rfl⟩ := first
  obtain ⟨_, _, rfl⟩ := second
  exact ⟨_, _, rfl⟩

theorem Rewritten.onlyHeap (rewritten : Rewritten m m') : OnlyHeap m m' := by
  obtain ⟨_, _, rfl⟩ := rewritten
  exact ⟨_, _, _, _, rfl⟩

theorem Rewritten.same (rewritten : Rewritten m m') : SameBut m m' := by
  obtain ⟨_, _, rfl⟩ := rewritten
  exact ⟨rfl, rfl, rfl, rfl, rfl, rfl, rfl, rfl⟩

theorem store_rewritten {a value : Nat} (stored : m.store a value = some m') : Rewritten m m' := by
  obtain ⟨physical, -, rfl⟩ := map_eq_some_iff.mp stored
  exact ⟨_, _, rfl⟩

theorem store_then {α : Type} {a value : Nat} {f : Machine → Option α} {r : α}
    (returned : (m.store a value >>= f) = some r)
    (rest : ∀ m1, f m1 = some r → Rewritten m1 m') : Rewritten m m' := by
  obtain ⟨m1, stored, returned⟩ := bind_eq_some_iff.mp returned
  exact (store_rewritten stored).trans (rest m1 returned)

theorem setPrev_rewritten {prev : Nat} (returned : setPrev m block prev = some m') :
    Rewritten m m' := by
  rw [setPrev] at returned
  split at returned
  · exact store_rewritten returned
  · cases returned
    exact .refl m

theorem absorb_rewritten {last : Nat} (returned : absorb m block next last = some m') :
    Rewritten m m' := by
  obtain ⟨_, -, returned⟩ := bind_eq_some_iff.mp returned
  obtain ⟨_, -, returned⟩ := bind_eq_some_iff.mp returned
  refine store_then returned fun m1 returned => ?_
  obtain ⟨_, -, returned⟩ := bind_eq_some_iff.mp returned
  refine store_then returned fun m2 returned => ?_
  obtain ⟨_, -, returned⟩ := bind_eq_some_iff.mp returned
  exact setPrev_rewritten returned

theorem mergeNext_rewritten (returned : mergeNext m block = some m') : Rewritten m m' := by
  obtain ⟨_, -, returned⟩ := bind_eq_some_iff.mp returned
  split at returned
  · cases returned
    exact .refl m
  · obtain ⟨_, -, returned⟩ := bind_eq_some_iff.mp returned
    split at returned
    · cases returned
      exact .refl m
    · exact absorb_rewritten returned

theorem mergePrev_rewritten (returned : mergePrev m block = some m') : Rewritten m m' := by
  obtain ⟨_, -, returned⟩ := bind_eq_some_iff.mp returned
  split at returned
  · cases returned
    exact .refl m
  · obtain ⟨_, -, returned⟩ := bind_eq_some_iff.mp returned
    split at returned
    · cases returned
      exact .refl m
    · exact absorb_rewritten returned

theorem kfree_rewritten {ptr : Nat} (returned : kfree m ptr = some m') : Rewritten m m' := by
  unfold kfree at returned
  split at returned
  · cases returned
    exact .refl m
  · obtain ⟨_, -, returned⟩ := bind_eq_some_iff.mp returned
    split at returned
    · cases returned
      exact .refl m
    · refine store_then returned fun m1 returned => ?_
      obtain ⟨_, -, returned⟩ := bind_eq_some_iff.mp returned
      obtain ⟨m2, merged, returned⟩ := bind_eq_some_iff.mp returned
      exact .trans ⟨_, _, rfl⟩ ((mergeNext_rewritten merged).trans (mergePrev_rewritten returned))

theorem splitBlock_rewritten (returned : splitBlock m block size = some m') : Rewritten m m' := by
  obtain ⟨_, -, returned⟩ := bind_eq_some_iff.mp returned
  split at returned
  · refine store_then returned fun m1 returned => store_then returned fun m2 returned => ?_
    obtain ⟨_, -, returned⟩ := bind_eq_some_iff.mp returned
    refine store_then returned fun m3 returned => store_then returned fun m4 returned => ?_
    obtain ⟨_, -, returned⟩ := bind_eq_some_iff.mp returned
    obtain ⟨m5, linked, returned⟩ := bind_eq_some_iff.mp returned
    exact (setPrev_rewritten linked).trans (store_then returned fun m6 => store_rewritten)
  · cases returned
    exact ⟨_, _, rfl⟩

theorem takeBlock_rewritten (returned : takeBlock m block size = some (m', p)) :
    Rewritten m m' := by
  obtain ⟨m1, split, returned⟩ := bind_eq_some_iff.mp returned
  refine (splitBlock_rewritten split).trans (store_then returned fun m2 returned => ?_)
  cases returned
  exact ⟨_, _, rfl⟩

theorem growLast_rewritten (returned : growLast m block size = some (m', p)) : Rewritten m m' := by
  obtain ⟨_, -, returned⟩ := bind_eq_some_iff.mp returned
  split at returned
  · obtain ⟨_, -, returned⟩ := bind_eq_some_iff.mp returned
    refine store_then returned fun m1 returned => ?_
    cases returned
    exact ⟨_, _, rfl⟩
  · obtain ⟨_, -, returned⟩ := bind_eq_some_iff.mp returned
    refine store_then returned fun m1 returned => store_then returned fun m2 returned => ?_
    refine store_then returned fun m3 returned => store_then returned fun m4 returned => ?_
    refine store_then returned fun m5 returned => ?_
    cases returned
    exact ⟨_, _, rfl⟩

-- The end of `kmalloc`, once `expand_heap` has tried to map `k` pages.
def placeBlock (k size : Nat) : Machine × Bool → Option (Machine × Nat)
  | (m, true) => do
    let m := { m with heapSize := word (m.heapSize + k * pageSize) }
    let last ← lastBlock m blockLimit m.heapStart
    let (m, block) ← growLast m last (size + 16)
    takeBlock m block size
  | (m, false) => some (m, 0)

theorem placeBlock_onlyHeap {k : Nat} {mapped : Bool}
    (returned : placeBlock k size (m, mapped) = some (m', p)) : OnlyHeap m m' := by
  cases mapped with
  | true =>
    obtain ⟨_, -, returned⟩ := bind_eq_some_iff.mp returned
    obtain ⟨_, grown, taken⟩ := bind_eq_some_iff.mp returned
    exact OnlyHeap.trans ⟨_, _, _, _, rfl⟩
      ((growLast_rewritten grown).trans (takeBlock_rewritten taken)).onlyHeap
  | false =>
    obtain ⟨rfl, -⟩ := Prod.mk.inj (some.inj returned)
    exact .refl m

theorem kmalloc_pages {k : Nat} (none : findFreeBlock m size blockLimit m.heapStart = some 0)
    (sizes : size ≠ 0 ∧ alignSize size = size ∧ m.heapSize + size + 16 ≤ heapMaxSize)
    (count : (size + 16 + pageSize - 1) / pageSize = k) :
    kmalloc m size = (mapPages k (heapBase + m.heapSize) m).bind (placeBlock k size) := by
  obtain ⟨nonzero, aligned, room⟩ := sizes
  have words : word (size + headerSize) = size + 16 ∧
      ¬ heapMaxSize < word (m.heapSize + (size + 16)) ∧
      word (size + 16 + pageSize - 1) / pageSize = k := by
    simp only [word, headerSize, heapMaxSize, pageSize] at *
    omega
  simp only [kmalloc, nonzero, aligned, none, bind_eq_bind, bind_some, ne_eq,
    not_true_eq_false, if_false, words, expandHeap]
  cases mapPages k (heapBase + m.heapSize) m with
  | none => rfl
  | some result =>
    obtain ⟨m1, mapped⟩ := result
    cases mapped <;> rfl

theorem FirstTable.grows (first : FirstTable m n total) (k : Nat) (top : m.heapSize = n * pageSize)
    (none : findFreeBlock m size blockLimit m.heapStart = some 0)
    (sizes : size ≠ 0 ∧ alignSize size = size)
    (count : (size + 16 + pageSize - 1) / pageSize = k) (inTable : n + k ≤ 1024)
    (room : 514 + n + k ≤ total) :
    kmalloc m size = placeBlock k size (withPages m n k, true) ∧ ExpandsLow m size ∧
      ExpandsMapped m size := by
  have place : pdIndex (heapBase + m.heapSize) = 1 ∧
      (heapBase + m.heapSize) % 0x400000 + k * pageSize ≤ 0x400000 ∧
      m.heapSize + size + 16 ≤ heapMaxSize := by
    rw [top]
    simp only [pdIndex, heapBase, heapMaxSize, pageSize] at *
    omega
  have present : Present (m.pageDirectory (pdIndex (heapBase + m.heapSize))) := by
    rw [place.1, first.table]
    exact frame_present 514
  refine ⟨?_, ?_, ?_⟩
  · rw [kmalloc_pages none ⟨sizes.1, sizes.2, place.2.2⟩ count, top, first.maps k inTable room,
      bind_some]
  · intro _ _
    rw [sizes.2, headerSize, count]
    exact tablesLow_of_present k _ place.2.1 present
  · intro _ _
    rw [sizes.2, headerSize, count]
    exact tableLeft_of_present k _ place.2.1 present

def clashRequest (m : Machine) (total n b size : Nat) : Option (Machine × Nat) :=
  ((setTableEntry (withClash (withPages m n (1024 - n)) total) 0x800000 (1538 * pageSize)
    (pagePresent ||| pageWritable)).bind (mapPages b 0x801000)).bind
      (placeBlock (1024 - n + (b + 1)) size)

theorem FirstTable.clash (first : FirstTable m n total) (b : Nat)
    (top : m.heapSize = n * pageSize ∧ n ≤ 1024)
    (none : findFreeBlock m size blockLimit m.heapStart = some 0)
    (sizes : size ≠ 0 ∧ alignSize size = size ∧ m.heapSize + size + 16 ≤ heapMaxSize)
    (count : (size + 16 + pageSize - 1) / pageSize = 1024 - n + (b + 1)) (room : 1540 ≤ total)
    (absent : ¬ Present (m.pageDirectory 2))
    (entry : (withPages m n (1024 - n)).ram (514 * pageSize + 4 * 0x203) = 1029 * pageSize + 3) :
    kmalloc m size = clashRequest m total n b size := by
  rw [kmalloc_pages none sizes count, top.1, first.maps_clash _ b (by omega) room absent entry]
  rfl

end

section

-- The header that `heap_init` leaves behind.
def firstHeader (m : Machine) : Option Machine := do
  let m ← m.store heapBase (heapInitialSize - headerSize)
  let m ← m.store (heapBase + 4) 1
  let m ← m.store (heapBase + 8) 0
  m.store (heapBase + 12) 0

def bootPages (config : BootConfig) (total : Nat) : Machine :=
  withHeap (withPages (withFirstPage (beforeHeap config) total) 1 255)

theorem boot_firstTable {config : BootConfig} {total : Nat} {m : Machine}
    (returned : firstHeader (bootPages config total) = some m)
    (noMap : config.info.flags &&& 0x40 = 0)
    (memory : (totalMemory config.info).toNat / pageSize = total)
    (reserved : min (reservedPages ((total + 31) / 32)) total = 513) (few : total ≤ 32768)
    (room : 770 ≤ total) : boot config = some m ∧ FirstTable m 256 total := by
  have low := (beforeHeap_mapping config).toLowMapped
  have frames : (beforeHeap config).pmm = framesUpTo 513 total :=
    pmmInit_frames noMap memory reserved
  have absent : ¬ Present ((beforeHeap config).pageDirectory 1) := by
    change ¬ Present 0
    decide
  obtain ⟨first, mapped⟩ := low.firstPages frames few room absent
  refine ⟨?_, (first.morePages 255).onlyHeap ?_⟩
  · have pagesNeeded : (heapInitialSize + pageSize - 1) / pageSize = 256 := by decide
    simp only [boot, heapInit, pagesNeeded, mapped, bind_eq_bind, bind_some, if_true]
    exact returned
  · have stores : Rewritten (bootPages config total) m :=
      store_then returned fun m1 returned => store_then returned fun m2 returned =>
        store_then returned fun m3 => store_rewritten
    exact OnlyHeap.trans ⟨_, _, _, _, rfl⟩ stores.onlyHeap

-- A machine with 64 megabytes, as `pmm_init` takes it when the boot loader tells nothing.
def plainConfig : BootConfig where
  ram := fun _ => 0
  info := ⟨0, 0, 0, []⟩
  firstPageTableAt := 0x105000
  aligned := tableAt_aligned
  image := tableAt_image

def plainMachine : Machine := (firstHeader (bootPages plainConfig 16384)).get (by decide +kernel)

theorem plain_firstTable : boot plainConfig = some plainMachine ∧
    FirstTable plainMachine 256 16384 :=
  boot_firstTable (some_get _).symm (by decide) (by decide) (by decide)
    (by decide) (by decide)

theorem plain_boot : boot plainConfig = some plainMachine := plain_firstTable.1

theorem plain_heap : HeapOk plainMachine [firstBlock] ∧ HeapMapped plainMachine := by
  obtain ⟨ok, mapped, -⟩ := (boot_effect plain_boot).1.resolve_left
    fun none => absurd none.1 (by decide +kernel)
  exact ⟨ok, mapped⟩

theorem eq_some_get {α β : Type} {x : Option (α × β)} {b : β} (isSome : x.isSome)
    (second : x.map Prod.snd = some b) : x = some ((x.get isSome).1, b) := by
  obtain ⟨⟨a, b⟩, rfl, rfl⟩ := map_eq_some_iff.mp second
  rfl

def grownMachine : Machine :=
  ((placeBlock 516 0x2030F0 (withPages plainMachine 256 516, true)).get (by decide +kernel)).1

theorem plain_grows : kmalloc plainMachine 0x2030F0 = some (grownMachine, heapBase + 16) ∧
    ExpandsLow plainMachine 0x2030F0 ∧ ExpandsMapped plainMachine 0x2030F0 := by
  obtain ⟨placed, expands⟩ := plain_firstTable.2.grows 516 (by decide +kernel)
    (show findFreeBlock _ 0x2030F0 _ _ = _ by decide +kernel) (by decide) (by decide) (by decide) (by decide)
  exact ⟨placed.trans (eq_some_get _ (by decide +kernel)), expands⟩

theorem grown_firstTable : FirstTable grownMachine 772 16384 :=
  (plain_firstTable.2.morePages 516).onlyHeap (placeBlock_onlyHeap (eq_some_get _ (b := heapBase + 16)
    (by decide +kernel)))

-- A second request clears the table that its pages need over the header at `0x603100`.
def damagedMachine : Machine :=
  ((clashRequest grownMachine 16384 772 4 0x100000).get (by decide +kernel)).1

theorem grown_damaged : kmalloc grownMachine 0x100000 = some (damagedMachine, 0x603120) :=
  (grown_firstTable.clash 4 (by decide +kernel) (by decide +kernel) (by decide +kernel) (by decide)
    (by decide) (by decide +kernel) (by decide +kernel)).trans (eq_some_get _ (by decide +kernel))

-- From here on these machines are only evaluated.
attribute [irreducible] plainMachine grownMachine damagedMachine

end

end ArgoOS.Memory
