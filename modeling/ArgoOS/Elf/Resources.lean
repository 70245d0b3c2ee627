import ArgoOS.Elf.Exec
import ArgoOS.Elf.Headers
import ArgoOS.Fs.Handles
import ArgoOS.Memory.HeapAccount

set_option autoImplicit false

/-! # What `elf_load` leaves behind -/

namespace ArgoOS.Elf

open Memory Machine Blocks Option
open Fs (FileSystem CString Descriptor fsOpen fsRead fsClose SameHandles OneMore ok_of_toOption)

variable {loaded : Bool} {phdrs : Nat}

variable {s s' : Loader} {path : Option CString}

section

variable {files files' : FileSystem} {fd bytesRead : Int}

theorem openElf_handles {opened : Option (Int × Elf32Ehdr)}
    (returned : openElf files path = some (files', opened)) :
    (opened = none ∧ SameHandles files files') ∨
      ∃ (index : Descriptor) (ehdr : Elf32Ehdr), opened = some ((index.val : Int), ehdr) ∧
        OneMore files files' index := by
  obtain ⟨⟨files1, fd⟩, isOpen, returned⟩ := bind_eq_some_iff.mp returned
  obtain ⟨rfl, rfl⟩ | ⟨index, rfl, more⟩ := Fs.fsOpen_oneMore (ok_of_toOption isOpen)
  · cases returned
    exact .inl ⟨rfl, .refl _⟩
  · dsimp only at returned
    rw [if_neg (by omega)] at returned
    obtain ⟨⟨files2, bytesRead, header⟩, read, returned⟩ := bind_eq_some_iff.mp returned
    have more2 := more.trans (Fs.fsRead_sameHandles (ok_of_toOption read))
    dsimp only at returned
    split at returned
    · cases returned
      exact .inl ⟨rfl, more2.close⟩
    · split at returned
      · cases returned
        exact .inl ⟨rfl, more2.close⟩
      · cases returned
        exact .inr ⟨index, _, rfl, more2⟩

theorem fsReadTo_handles {dest size : Nat}
    (returned : fsReadTo s fd dest size = some (s', bytesRead)) : SameHandles s.files s'.files := by
  obtain ⟨bytes, read, -⟩ := fsReadTo_cases returned
  exact Fs.fsRead_sameHandles read

theorem readSegment_handles {phdr : Nat} (returned : readSegment s fd phdr = some (s', loaded)) :
    SameHandles s.files s'.files := by
  obtain ⟨_, _, _, s1, _, -, -, read, files, -⟩ := readSegment_cases returned
  rw [files]
  exact (Fs.fsSeek_sameHandles _ _ _ _).trans (fsReadTo_handles read)

theorem loadSegment_handles {phdr : Nat} (returned : loadSegment s fd phdr = some (s', loaded)) :
    SameHandles s.files s'.files := by
  obtain ⟨-, rfl, -⟩ | ⟨_, m, _, -, -, -, rest⟩ := loadSegment_cases returned
  · exact .refl _
  · obtain ⟨-, rfl, -⟩ | ⟨-, read⟩ := rest
    · exact .refl _
    · exact readSegment_handles (s := ⟨m, s.files⟩) read

theorem loadSegments_handles {n i : Nat}
    (returned : loadSegments fd phdrs n i s = some (s', loaded)) :
    SameHandles s.files s'.files := by
  induction n generalizing i s with
  | zero =>
    cases returned
    exact .refl _
  | succ n ih =>
    obtain ⟨⟨s1, loaded1⟩, first, returned⟩ := bind_eq_some_iff.mp returned
    have same := loadSegment_handles first
    cases loaded1 with
    | false =>
      cases returned
      exact same
    | true => exact same.trans (ih returned)

theorem loadProgram_handles {ehdr : Elf32Ehdr}
    (returned : loadProgram s fd ehdr phdrs = some (s', loaded)) :
    SameHandles s.files s'.files := by
  obtain ⟨⟨s1, bytesRead⟩, read, returned⟩ := bind_eq_some_iff.mp returned
  have same : SameHandles s.files s1.files :=
    (Fs.fsSeek_sameHandles _ _ _ _).trans (fsReadTo_handles read)
  dsimp only at returned
  split at returned
  · cases returned
    exact same
  · exact same.trans (loadSegments_handles returned)

theorem elfLoad_handles {current : Nat} {result : Int}
    (returned : elfLoad s path current = some (s', result)) : SameHandles s.files s'.files := by
  obtain ⟨⟨files, opened⟩, fileOpened, returned⟩ := bind_eq_some_iff.mp returned
  obtain ⟨rfl, same⟩ | ⟨index, ehdr, rfl, more⟩ := openElf_handles fileOpened
  · cases returned
    exact same
  · obtain ⟨⟨m, phdrs⟩, allocated, returned⟩ := bind_eq_some_iff.mp returned
    dsimp only at returned
    split at returned
    · cases returned
      exact more.close
    · obtain ⟨⟨s1, loaded⟩, program, returned⟩ := bind_eq_some_iff.mp returned
      have more1 := more.trans (loadProgram_handles program)
      obtain ⟨m2, -, returned⟩ := bind_eq_some_iff.mp returned
      dsimp only at returned
      split at returned
      · obtain ⟨m3, -, returned⟩ := bind_eq_some_iff.mp returned
        cases returned
        exact more1.close
      · cases returned
        exact more1.close

end

section

variable {m m' : Machine} {blocks : List Block} {current : Nat}

-- Mapping the segments and copying them leaves the blocks of the heap as they are.
def SegmentsSpare (s : Loader) (path : Option CString) : Prop :=
  ∀ files fd ehdr phdrs s1, TableRead s path files fd ehdr phdrs s1 →
    ∀ s2 loaded, loadSegments fd phdrs ehdr.ePhnum 0 s1 = some (s2, loaded) →
      ∀ blocks, HeapOk s1.machine blocks → HeapOk s2.machine blocks

-- The request for the table does not ask for pages that the kernel cannot reach.
def TableSafe (m : Machine) (files : FileSystem) (path : Option CString) : Prop :=
  ∀ files' fd ehdr, openElf files path = some (files', some (fd, ehdr)) →
    ehdr.phdrSize ≤ heapMaxSize ∧ (ehdr.phdrSize ≠ 0 → ExpandsLow m ehdr.phdrSize)

theorem loadProgram_spares {files : FileSystem} {fd : Int} {ehdr : Elf32Ehdr}
    (opened : openElf s.files path = some (files, some (fd, ehdr)))
    (allocated : kmalloc s.machine ehdr.phdrSize = some (m, phdrs)) (notNull : phdrs ≠ 0)
    (ok : HeapOk m blocks) {c : Block} (inList : c ∈ blocks) (place : phdrs = c.addr + 16)
    (fits : ehdr.phdrSize ≤ c.size) (spares : SegmentsSpare s path)
    (returned : loadProgram ⟨m, files⟩ fd ehdr phdrs = some (s', loaded)) :
    HeapOk s'.machine blocks := by
  obtain ⟨⟨s1, bytesRead⟩, read, returned⟩ := bind_eq_some_iff.mp returned
  obtain ⟨bytes, -, stored, count⟩ := fsReadTo_cases read
  rw [place] at stored
  obtain ⟨-, ok1⟩ := ok.storeBytesPayload c inList _ _ (by omega) stored
  dsimp only at returned
  split at returned
  · cases returned
    exact ok1
  · next complete =>
    have whole : bytesRead.toNat = ehdr.phdrSize := by
      by_contra short
      exact complete (.inr short)
    exact spares files fd ehdr phdrs s1 ⟨opened, notNull, m, bytesRead, allocated, read, whole⟩ s' loaded
      returned blocks ok1

theorem ElfOutcome.spares {files : FileSystem} (outcome : ElfOutcome ⟨m, files⟩ path current m')
    (ok : HeapOk m blocks) (safe : TableSafe m files path) (spares : SegmentsSpare ⟨m, files⟩ path)
    (isTask : current = 0 ∨ ∃ b ∈ blocks, b.free = false ∧ current = b.addr + 16 ∧ 16 ≤ b.size) :
    ∃ blocks', HeapOk m' blocks' ∧ usedBlocks blocks' = usedBlocks blocks := by
  cases outcome with
  | refused files1 opened same => exact ⟨blocks, same ▸ ok, rfl⟩
  | noTable files1 fd ehdr opened allocated =>
    by_cases empty : ehdr.phdrSize = 0
    · simp only [kmalloc, empty, if_true, some.injEq, Prod.mk.injEq, and_true] at allocated
      exact ⟨blocks, allocated ▸ ok, rfl⟩
    · obtain ⟨bound, low⟩ := safe files1 fd ehdr opened
      obtain ⟨-, blocks1, ok1, outcome⟩ := kmalloc_outcome ok (by omega) bound (low empty) allocated
      obtain ⟨-, same⟩ | ⟨xs, c, ys, -, -, null, -⟩ := outcome.used
      · exact ⟨blocks1, ok1, same⟩
      · omega
  | ran files1 fd ehdr m1 m2 phdrs s1 loaded opened allocated notNull program freed entered same =>
    obtain ⟨bound, low⟩ := safe files1 fd ehdr opened
    have nonempty := kmalloc_nonempty allocated notNull
    obtain ⟨-, blocks1, ok1, outcome⟩ := kmalloc_outcome ok (by omega) bound (low nonempty)
      allocated
    have new := (outcome.allocated ok ok1 (by omega) bound).new notNull
    obtain ⟨null, -⟩ | ⟨xs, c, ys, rfl, used, rfl, others⟩ := outcome.used
    · exact absurd null notNull
    · obtain ⟨b, inNew, -, place, fits, -⟩ := new
      obtain ⟨stop, fills, -⟩ := ok1.shape.fills
      obtain rfl : b = c := fills.addr_inj inNew (by simp) (by omega)
      have ok2 := loadProgram_spares opened allocated notNull ok1 inNew place fits spares program
      obtain ⟨-, ok3⟩ := (kfree_yields True ok2 used).post _ freed
      have left : usedBlocks (releaseList xs b ys) = usedBlocks blocks := by
        rw [usedBlocks_release, others]
      by_cases hasTask : loaded = true ∧ current ≠ 0
      · obtain ⟨task, inList, taskUsed, rfl, large⟩ := isTask.resolve_left hasTask.2
        have still : task ∈ releaseList xs b ys := by
          have inUsed : task ∈ usedBlocks (releaseList xs b ys) := by
            rw [left]
            simp [usedBlocks, inList, taskUsed]
          exact List.mem_of_mem_filter inUsed
        obtain ⟨-, ok4⟩ := ok3.storePayload task still _ _ (by omega)
          (by simp only [Block.stop]; omega) (entered hasTask.1 hasTask.2)
        exact ⟨_, ok4, left⟩
      · exact ⟨_, same hasTask ▸ ok3, left⟩

theorem segmentsSpare_of_apart {tasks live : List (Nat × Nat)}
    (inv : TaskInv False s.machine blocks tasks live)
    (met : ∀ files' fd ehdr, openElf s.files path = some (files', some (fd, ehdr)) →
      ehdr.phdrSize ≠ 0 → ElfApart s.machine files' fd ehdr) : SegmentsSpare s path := by
  intro files fd ehdr phdrs s1 table s2 loaded returned blocks' ok'
  obtain ⟨m1, bytesRead, allocated, read, whole⟩ := table.read
  have nonempty := table.nonempty
  have apart := met files fd ehdr table.opened (by omega)
  obtain ⟨blocks1, inv1, kept1, -⟩ := tableAlloc_inv inv (fun _ => apart) allocated
  rw [addLive, if_neg table.notNull] at inv1
  have complete : ¬ (bytesRead < 0 ∨ bytesRead.toNat ≠ ehdr.phdrSize) := by
    omega
  have program : loadProgram ⟨m1, files⟩ fd ehdr phdrs = some (s2, loaded) := by
    simp only [loadProgram, read, bind_eq_bind, bind_some, if_neg complete]
    exact returned
  obtain ⟨inv2, -⟩ := loadProgram_inv apart table.notNull inv1 kept1 allocated program
  obtain ⟨b, inList, -, place, fits⟩ := inv1.held.held _
    (List.mem_append_right _ List.mem_cons_self)
  simp only at place fits
  obtain ⟨bytes, -, stored, -⟩ := fsReadTo_cases read
  rw [place] at stored
  obtain ⟨-, ok1⟩ := inv1.heap.storeBytesPayload b inList _ _ (by omega) stored
  obtain rfl := ok1.list_eq ok'.linked ok'.front.symm
  exact inv2.heap

end

def headerFile : FileSystem :=
  let content := fun i => Bytes.byteOf ([0x464C457F, 0x00010101, 0, 0, 0x00030002, 1, 0, 52, 0, 0,
    0x10000034, 0x100].getD (i / 4) 0) (i % 4)
  match (Fs.createRoot Fs.bootState).toOption.bind fun fs =>
      (Fs.fsOpen fs programPath Fs.modeWrite true).toOption.bind fun (fs, fd) =>
        (Fs.fsWrite fs fd (some content) 52).toOption with
  | some (fs, _) => (Fs.fsClose fs 0).1
  | none => Fs.bootState

end ArgoOS.Elf
