import ArgoOS.Elf.Resources

set_option autoImplicit false

/-! # Pages of an abandoned load -/

namespace ArgoOS.Elf

open Memory Machine Blocks Option
open Fs (FileSystem CString fsRead fsClose)

inductive FrameTaken (fd : Int) (phdrs n : Nat) (s : Loader) (frame : Nat) : Prop where
  | page (i j : Nat) (t : Loader) (m : Machine) (pMemsz : Nat) (pmm : Pmm) (below : i < n)
      (reached : atHeader fd phdrs s i = some t)
      (isLoad : t.machine.load (phdrs + 32 * i) = some ptLoad)
      (memsz : t.machine.load (phdrs + 32 * i + 20) = some pMemsz) (inside : j < segmentPages pMemsz)
      (mapped : mapSegment (phdrs + 32 * i) j 0 t.machine = some (m, true))
      (allocated : pmmAllocPage m.pmm = some (frame, pmm))

/-- What the loop took is free again, and the address space is what it was. -/
structure GivesBack (fd : Int) (phdrs n : Nat) (s : Loader) (m' : Machine) : Prop where
  frames : ∀ frame, FrameTaken fd phdrs n s frame → ¬ m'.pmm.Used frame
  translate : m'.translate = s.machine.translate

def Elf32Phdr.NoPages (phdr : Elf32Phdr) : Prop := phdr.pType = ptLoad → segmentPages phdr.pMemsz = 0

-- No frame is free when the loop starts, or none is asked for up to where it gives up.
def TakesNothing (fd : Int) (phdrs n : Nat) (s : Loader) (bytes : Nat → UInt8) : Prop :=
  pmmAllocPage s.machine.pmm = none ∨
    ∀ i < n, (atHeader fd phdrs s i).isSome → (phdrAt bytes i).NoPages

-- A segment without pages is copied to addresses above the heap, if it is copied.
def CopiedAbove (phdr : Elf32Phdr) : Prop :=
  phdr.pType = ptLoad → segmentPages phdr.pMemsz = 0 →
    heapEnd ≤ phdr.pVaddr ∧ phdr.pVaddr + phdr.extent ≤ 0x100000000

variable {n : Nat} {block : Nat} {mapped loaded : Bool}

variable {m m' : Machine}

section

theorem storeBytes_same {dest : Nat} {bytes : Nat → UInt8}
    (stored : storeBytes m dest bytes n = some m') : SameBut m m' := by
  induction n generalizing m' with
  | zero =>
    cases stored
    exact .refl m
  | succ n ih =>
    obtain ⟨m1, first, stored⟩ := bind_eq_some_iff.mp stored
    obtain ⟨old, -, stored⟩ := bind_eq_some_iff.mp stored
    exact (ih first).trans (store_same stored)

end

variable {s s' : Loader} {fd : Int} {phdrs i : Nat}

section

variable {phdr j frame : Nat} {pmm : Pmm}

theorem pmmAllocPage_marks (allocated : pmmAllocPage m.pmm = some (frame, pmm)) :
    Marks m.pmm pmm := by
  obtain ⟨-, -, -, rfl⟩ := pmmAllocPage_some allocated
  exact markUsed_marks _ _

theorem pagingMapPage_marks {v physicalAddr flags : Nat}
    (mapped : pagingMapPage m v physicalAddr flags = some m') : Marks m.pmm m'.pmm := by
  unfold pagingMapPage at mapped
  split at mapped
  · rw [(storeTableWord_keeps mapped).pmm]
    exact .refl _
  · obtain ⟨⟨m1, table⟩, created, mapped⟩ := bind_eq_some_iff.mp mapped
    have first : Marks m.pmm m1.pmm := by
      unfold pagingCreatePageTable at created
      split at created
      · cases created
        exact .refl _
      · next allocated =>
        obtain ⟨m2, cleared, created⟩ := bind_eq_some_iff.mp created
        cases created
        rw [(clearTable_keeps cleared).pmm]
        exact pmmAllocPage_marks allocated
    dsimp only at mapped
    split at mapped
    · cases mapped
      exact first
    · have stored := (storeTableWord_keeps mapped).pmm
      rw [stored]
      exact first

theorem mapSegment_cases (returned : mapSegment phdr (n + 1) j m = some (m', mapped)) :
    (pmmAllocPage m.pmm = none ∧ m' = m ∧ mapped = false) ∨
      ∃ frame pmm m1, pmmAllocPage m.pmm = some (frame, pmm) ∧ Marks pmm m1.pmm ∧
        mapSegment phdr n (j + 1) m1 = some (m', mapped) := by
  unfold mapSegment at returned
  split at returned
  · next none =>
    cases returned
    exact .inl ⟨none, rfl, rfl⟩
  · next frame pmm allocated =>
    obtain ⟨pVaddr, -, returned⟩ := bind_eq_some_iff.mp returned
    obtain ⟨m1, stored, returned⟩ := bind_eq_some_iff.mp returned
    exact .inr ⟨frame, pmm, m1, allocated, pagingMapPage_marks stored, returned⟩

theorem mapSegment_marks (returned : mapSegment phdr n j m = some (m', mapped)) :
    Marks m.pmm m'.pmm := by
  induction n generalizing j m with
  | zero =>
    cases returned
    exact .refl _
  | succ n ih =>
    obtain ⟨-, rfl, -⟩ | ⟨frame, pmm, m1, allocated, marks, rest⟩ := mapSegment_cases returned
    · exact .refl _
    · exact (pmmAllocPage_marks allocated).trans (marks.trans (ih rest))

theorem mapSegment_takes (nonempty : n ≠ 0) (allocated : pmmAllocPage m.pmm = some (frame, pmm))
    (returned : mapSegment phdr n j m = some (m', mapped)) : m'.pmm.Used frame := by
  obtain ⟨n, rfl⟩ := Nat.exists_eq_succ_of_ne_zero nonempty
  obtain ⟨none, -⟩ | ⟨frame1, pmm1, m1, first, marks, rest⟩ := mapSegment_cases returned
  · rw [allocated] at none
    contradiction
  · cases allocated.symm.trans first
    obtain ⟨-, -, -, rfl⟩ := pmmAllocPage_some allocated
    exact (marks.trans (mapSegment_marks rest)).used frame
      ((m.pmm.markUsed_used frame frame).mpr (.inr rfl))

theorem readSegment_same (returned : readSegment s fd phdr = some (s', loaded)) :
    SameBut s.machine s'.machine := by
  obtain ⟨_, _, _, s1, _, -, -, read, -, rest⟩ := readSegment_cases returned
  obtain ⟨bytes, -, stored, -⟩ := fsReadTo_cases read
  obtain same | ⟨_, _, -, -, -, zeroed⟩ := rest
  · exact same ▸ storeBytes_same stored
  · exact (storeBytes_same stored).trans (storeBytes_same zeroed)

theorem loadSegment_marks (returned : loadSegment s fd phdr = some (s', loaded)) :
    Marks s.machine.pmm s'.machine.pmm := by
  obtain ⟨-, rfl, -⟩ | ⟨pMemsz, m, mapped, -, -, pages, rest⟩ := loadSegment_cases returned
  · exact .refl _
  · have marks := mapSegment_marks pages
    obtain ⟨-, rfl, -⟩ | ⟨-, read⟩ := rest
    · exact marks
    · rw [(readSegment_same read).pmm]
      exact marks

theorem loadSegment_takes {pMemsz : Nat} (isLoad : s.machine.load phdr = some ptLoad)
    (memsz : s.machine.load (phdr + 20) = some pMemsz) (pages : segmentPages pMemsz ≠ 0)
    (allocated : pmmAllocPage s.machine.pmm = some (frame, pmm))
    (returned : loadSegment s fd phdr = some (s', loaded)) : s'.machine.pmm.Used frame := by
  obtain ⟨other, -⟩ | ⟨pMemsz', m, mapped, -, memsz', mapping, rest⟩ := loadSegment_cases returned
  · exact absurd isLoad other
  · obtain rfl : pMemsz = pMemsz' := some.inj (memsz.symm.trans memsz')
    have used := mapSegment_takes pages allocated mapping
    obtain ⟨-, rfl, -⟩ | ⟨-, read⟩ := rest
    · exact used
    · rw [(readSegment_same read).pmm]
      exact used

theorem loadSegments_marks (returned : loadSegments fd phdrs n i s = some (s', loaded)) :
    Marks s.machine.pmm s'.machine.pmm := by
  induction n generalizing i s with
  | zero =>
    cases returned
    exact .refl _
  | succ n ih =>
    obtain ⟨⟨s1, loaded1⟩, first, returned⟩ := bind_eq_some_iff.mp returned
    have marks := loadSegment_marks first
    cases loaded1 with
    | false =>
      cases returned
      exact marks
    | true => exact marks.trans (ih returned)

theorem loadSegments_takes {t : Loader} {pMemsz : Nat} (below : i < n)
    (reached : atHeader fd phdrs s i = some t)
    (isLoad : t.machine.load (phdrs + 32 * i) = some ptLoad)
    (memsz : t.machine.load (phdrs + 32 * i + 20) = some pMemsz) (pages : segmentPages pMemsz ≠ 0)
    (allocated : pmmAllocPage t.machine.pmm = some (frame, pmm))
    (returned : loadSegments fd phdrs n 0 s = some (s', loaded)) : s'.machine.pmm.Used frame := by
  obtain ⟨rest, rfl⟩ := Nat.exists_eq_add_of_lt below
  rw [Nat.add_assoc, loadSegments_atHeader reached] at returned
  obtain ⟨⟨s1, loaded1⟩, first, returned⟩ := bind_eq_some_iff.mp returned
  have used := loadSegment_takes isLoad memsz pages allocated first
  cases loaded1 with
  | false =>
    cases returned
    exact used
  | true => exact (loadSegments_marks returned).used _ used

theorem loadSegments_stops {start : Loader} (reached : atHeader fd phdrs start i = some s)
    (returned : loadSegments fd phdrs n i s = some (s', false)) :
    ∃ k t, k < i + n ∧ atHeader fd phdrs start k = some t ∧
      loadSegment t fd (phdrs + 32 * k) = some (s', false) := by
  induction n generalizing i s with
  | zero => cases returned
  | succ n ih =>
    obtain ⟨⟨s1, loaded1⟩, first, returned⟩ := bind_eq_some_iff.mp returned
    cases loaded1 with
    | false =>
      cases returned
      exact ⟨i, s, by omega, reached, first⟩
    | true =>
      have next : atHeader fd phdrs start (i + 1) = some s1 := by
        rw [atHeader, reached, bind_eq_bind, bind_some, first]
        rfl
      obtain ⟨k, t, below, stopped⟩ := ih next returned
      exact ⟨k, t, by omega, stopped⟩

end

variable {blocks : List Block}

section

variable {size : Nat} {bytes : Nat → UInt8} {m1 m2 : Machine} {phdr : Elf32Phdr} {t : Loader}

structure OnlyCopied (blocks : List Block) (phdrs size : Nat) (bytes : Nat → UInt8)
    (m m' : Machine) : Prop where
  stores : Stores (heapEnd ≤ ·) m m'
  heap : HeapOk m' blocks
  table : HoldsTable m' phdrs bytes size

theorem OnlyCopied.storeBytes (copied : OnlyCopied blocks phdrs size bytes m m1)
    (inHeap : phdrs + size ≤ heapEnd) {dest : Nat} {source : Nat → UInt8} (above : heapEnd ≤ dest)
    (below : dest + n ≤ 0x100000000) (stored : Memory.storeBytes m1 dest source n = some m2) :
    OnlyCopied blocks phdrs size bytes m m2 := by
  obtain ⟨stores, heap⟩ := copied.heap.storeBytesAbove dest source n above below stored
  refine ⟨copied.stores.trans stores, heap, copied.table.congr fun a _ high => ?_⟩
  exact stores.rewrites.same (by omega)

theorem OnlyCopied.readSegment (copied : OnlyCopied blocks phdrs size bytes m s.machine)
    (inHeap : phdrs + size ≤ heapEnd) (inside : 32 * i + 32 ≤ size) (record : phdrAt bytes i = phdr)
    (above : heapEnd ≤ phdr.pVaddr) (below : phdr.pVaddr + phdr.extent ≤ 0x100000000)
    (returned : Elf.readSegment s fd (phdrs + 32 * i) = some (s', loaded)) :
    OnlyCopied blocks phdrs size bytes m s'.machine :=
  readSegment_keeps _ inside record below (fun _ copied => copied.table)
    (fun _ _ _ _ _ copied reached high stored =>
      copied.storeBytes inHeap (above.trans reached) high stored) copied returned

theorem OnlyCopied.header (copied : OnlyCopied blocks phdrs size bytes m m1)
    (inside : 32 * i + 32 ≤ size) : m1.load (phdrs + 32 * i) = some (phdrAt bytes i).pType ∧
      m1.load (phdrs + 32 * i + 20) = some (phdrAt bytes i).pMemsz := by
  obtain ⟨type, -, -, -, memsz⟩ := copied.table.header inside rfl
  exact ⟨type, memsz⟩

theorem OnlyCopied.segment (copied : OnlyCopied blocks phdrs size bytes m s.machine)
    (inHeap : phdrs + size ≤ heapEnd) (inside : 32 * i + 32 ≤ size)
    (idle : pmmAllocPage m.pmm = none ∨ (phdrAt bytes i).NoPages)
    (above : CopiedAbove (phdrAt bytes i))
    (returned : loadSegment s fd (phdrs + 32 * i) = some (s', loaded)) :
    OnlyCopied blocks phdrs size bytes m s'.machine := by
  obtain ⟨type, memsz⟩ := copied.header inside
  obtain ⟨-, rfl, -⟩ | ⟨pMemsz, m1, mapped, isLoad, memsz', pages, rest⟩ := loadSegment_cases returned
  · exact copied
  · have isLoad : (phdrAt bytes i).pType = ptLoad := some.inj (type.symm.trans isLoad)
    obtain rfl : (phdrAt bytes i).pMemsz = pMemsz := some.inj (memsz.symm.trans memsz')
    by_cases none : segmentPages (phdrAt bytes i).pMemsz = 0
    · rw [none] at pages
      cases pages
      obtain ⟨high, below⟩ := above isLoad none
      obtain ⟨impossible, -⟩ | ⟨-, read⟩ := rest
      · contradiction
      · exact OnlyCopied.readSegment (s := ⟨s.machine, s.files⟩) copied inHeap inside rfl high below
          read
    · have exhausted := idle.resolve_right fun noPages => none (noPages isLoad)
      rw [← copied.stores.pmm] at exhausted
      obtain ⟨n, more⟩ := Nat.exists_eq_succ_of_ne_zero none
      rw [more] at pages
      obtain ⟨-, rfl, rfl⟩ | ⟨frame, pmm, m2, allocated, -⟩ := mapSegment_cases pages
      · obtain ⟨-, rfl, -⟩ | ⟨impossible, -⟩ := rest
        · exact copied
        · contradiction
      · rw [exhausted] at allocated
        contradiction

theorem OnlyCopied.reached (copied : OnlyCopied blocks phdrs size bytes s.machine s.machine)
    (inHeap : phdrs + size ≤ heapEnd)
    (inTable : ∀ k < n, (atHeader fd phdrs s k).isSome → 32 * k + 32 ≤ size)
    (above : ∀ k < n, (atHeader fd phdrs s k).isSome → CopiedAbove (phdrAt bytes k))
    (idle : ∀ k < n, ∀ t, atHeader fd phdrs s k = some t →
      OnlyCopied blocks phdrs size bytes s.machine t.machine →
        pmmAllocPage s.machine.pmm = none ∨ (phdrAt bytes k).NoPages) (few : i ≤ n)
    (reached : atHeader fd phdrs s i = some t) :
    OnlyCopied blocks phdrs size bytes s.machine t.machine := by
  induction i generalizing t with
  | zero =>
    cases reached
    exact copied
  | succ i ih =>
    obtain ⟨before, earlier, reached⟩ := bind_eq_some_iff.mp reached
    obtain ⟨⟨after, loaded⟩, segment, reached⟩ := bind_eq_some_iff.mp reached
    have found : (atHeader fd phdrs s i).isSome := isSome_of_eq_some earlier
    have copied1 := ih (by omega) earlier
    cases loaded with
    | false => contradiction
    | true =>
      cases reached
      exact copied1.segment inHeap (inTable i (by omega) found) (idle i (by omega) _ earlier copied1)
        (above i (by omega) found) segment

end

section

variable {s1 s2 : Loader} {path : Option CString} {files : FileSystem} {ehdr : Elf32Ehdr}

theorem TableRead.elfLoad_eq (table : TableRead s path files fd ehdr phdrs s1)
    (abandoned : loadSegments fd phdrs ehdr.ePhnum 0 s1 = some (s2, false)) (current : Nat) :
    elfLoad s path current =
      (kfree s2.machine phdrs).map fun m => (⟨m, (fsClose s2.files fd).1⟩, -1) := by
  obtain ⟨m, bytesRead, allocated, read, whole⟩ := table.read
  have complete : ¬ (bytesRead < 0 ∨ bytesRead.toNat ≠ ehdr.phdrSize) := by
    have nonempty := table.nonempty
    omega
  simp only [elfLoad, table.opened, allocated, bind_eq_bind, bind_some,
    if_neg table.notNull, loadProgram, read, if_neg complete, abandoned, Bool.false_eq_true,
    false_and, if_false]
  cases kfree s2.machine phdrs <;> rfl

end

end ArgoOS.Elf
