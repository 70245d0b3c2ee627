import ArgoOS.Elf.Segments

set_option autoImplicit false

/-! # Pages that stay mapped -/

namespace ArgoOS.Elf

open Memory Machine Blocks Option
open Fs (FileSystem CString fsOpen fsWrite fsClose createRoot bootState modeWrite)

inductive LoadCall where
  | page (call : PageCall)
  | graphicsInit (fb : Framebuffer)
  | elfLoad (files : FileSystem) (path : Option CString) (current : Nat)

def loadStep (s : MemState) : LoadCall → Option (MemState × List Nat)
  | .page call => pageStep s call
  | .graphicsInit fb => do
    let m ← graphicsInit s.machine fb
    return (⟨m, s.tasks, s.live⟩, [])
  | .elfLoad files path current =>
    if current = 0 ∨ (current, taskSize) ∈ s.tasks then do
      let (loader, _) ← elfLoad ⟨s.machine, files⟩ path current
      return (⟨loader.machine, s.tasks, s.live⟩, [])
    else none

def LoadsApart (s : MemState) : LoadCall → Prop
  | .page call => NewTablesLow s call
  | .graphicsInit fb => fb.address ≠ 0 → FramebufferAbove s.machine fb
  | .elfLoad files path _ => ∀ files' fd ehdr,
      openElf files path = some (files', some (fd, ehdr)) → ehdr.phdrSize ≠ 0 →
        ElfApart s.machine files' fd ehdr

inductive LoadInv (s : MemState) : Prop where
  | noHeap (none : NoHeap s.machine) (ok : PmmOk s.machine.pmm) (tasks : s.tasks = [])
      (live : s.live = [])
  | heap (blocks : List Block) (inv : TaskInv False s.machine blocks s.tasks s.live)

variable {m : Machine}

section

variable {s s' : MemState} {events : List Nat}

theorem pageStep_noHeap (none : NoHeap s.machine) (ok : PmmOk s.machine.pmm) (tasks : s.tasks = [])
    (live : s.live = []) {call : PageCall} (met : NewTablesLow s call)
    (taken : pageStep s call = some (s', events)) : s' = s := by
  cases call with
  | mem call => exact memStep_noHeap none ok live met taken
  | sysFork parent =>
    rw [pageStep] at taken
    split at taken
    · next isTask =>
      obtain rfl : parent = 0 := by simpa [tasks] using isTask
      cases taken
      simp [addLive]
    · contradiction
  | saveEsp task esp =>
    rw [pageStep, tasks] at taken
    exact absurd taken (by simp)

theorem elfLoad_noHeap (none : NoHeap m) (ok : PmmOk m.pmm) {files : FileSystem}
    {path : Option CString} {current : Nat}
    (bounded : ∀ files' fd ehdr, openElf files path = some (files', some (fd, ehdr)) →
      ehdr.phdrSize ≤ heapMaxSize) {loader : Loader} {result : Int}
    (returned : elfLoad ⟨m, files⟩ path current = some (loader, result)) : loader.machine = m := by
  have refuses : ∀ files1 fd ehdr, openElf files path = some (files1, some (fd, ehdr)) →
      kmalloc m ehdr.phdrSize = some (m, 0) :=
    fun files1 fd ehdr opened => kmalloc_noHeap none ok _ (bounded files1 fd ehdr opened)
  cases (elfLoad_cases returned).2 with
  | refused files1 opened same => exact same
  | noTable files1 fd ehdr opened allocated =>
    have refused := (refuses files1 fd ehdr opened).symm.trans allocated
    exact (Prod.mk.inj (some.inj refused)).1.symm
  | ran files1 fd ehdr m1 m2 phdrs s1 loaded opened allocated notNull =>
    have refused := (refuses files1 fd ehdr opened).symm.trans allocated
    exact absurd (Prod.mk.inj (some.inj refused)).2.symm notNull

theorem LoadInv.elfLoad (inv : LoadInv s) (files : FileSystem) (path : Option CString)
    (current : Nat) (met : LoadsApart s (.elfLoad files path current))
    (taken : loadStep s (.elfLoad files path current) = some (s', events)) :
    LoadInv s' ∧ KeepsTranslations s.machine s'.machine := by
  rw [loadStep] at taken
  split at taken
  · next isTask =>
    obtain ⟨⟨loader, result⟩, returned, taken⟩ := bind_eq_some_iff.mp taken
    cases taken
    cases inv with
    | noHeap none ok tasks live =>
      have bounded : ∀ files' fd ehdr, openElf files path = some (files', some (fd, ehdr)) →
          ehdr.phdrSize ≤ heapMaxSize := by
        intro files' fd ehdr opened
        by_cases empty : ehdr.phdrSize = 0
        · omega
        · exact (met files' fd ehdr opened empty).size
      have same := elfLoad_noHeap none ok bounded returned
      dsimp only
      rw [same]
      exact ⟨.noHeap none ok tasks live, (SameMap.refl _).translations⟩
    | heap blocks inv =>
      obtain ⟨⟨blocks', inv'⟩, kept⟩ := elfLoad_inv inv met isTask returned
      exact ⟨.heap blocks' inv', kept⟩
  · contradiction

theorem LoadInv.graphicsInit (inv : LoadInv s) (fb : Framebuffer)
    (met : LoadsApart s (.graphicsInit fb))
    (taken : loadStep s (.graphicsInit fb) = some (s', events)) : LoadInv s' := by
  obtain ⟨m, returned, taken⟩ := bind_eq_some_iff.mp taken
  cases taken
  cases inv with
  | noHeap none ok tasks live =>
    have empty := (pmmAllocPage_none ok.covered).mpr none.2.2
    obtain ⟨pmm, -, start, size⟩ := graphicsInit_exhausted empty returned
    refine .noHeap ⟨start.trans none.1, size.trans none.2.1, ?_⟩ ?_ tasks live
    · dsimp only
      rw [pmm]
      exact none.2.2
    · dsimp only
      rw [pmm]
      exact ok
  | heap blocks inv => exact .heap blocks (graphicsInit_inv inv met returned)

theorem LoadInv.step (inv : LoadInv s) (call : LoadCall) (met : LoadsApart s call)
    (taken : loadStep s call = some (s', events)) : LoadInv s' := by
  cases call with
  | page call =>
    cases inv with
    | noHeap none ok tasks live =>
      rw [pageStep_noHeap none ok tasks live met taken]
      exact .noHeap none ok tasks live
    | heap blocks inv =>
      obtain ⟨blocks', inv'⟩ := pageStep_tasks inv met False.elim taken
      exact .heap blocks' inv'
  | graphicsInit fb => exact inv.graphicsInit fb met taken
  | elfLoad files path current => exact (inv.elfLoad files path current met taken).1

theorem boot_loadInv {config : BootConfig} (booted : boot config = some m) :
    LoadInv ⟨m, [], []⟩ := by
  obtain ⟨-, ⟨_, _, mapping⟩, -⟩ := boot_effect booted
  rcases boot_tasks booted with none | inv
  · exact .noHeap none mapping.pmm rfl rfl
  · exact .heap _ { inv with mapped := False.elim }

theorem run_loadInv {config : BootConfig} (booted : boot config = some m) {history : List Nat}
    {state : MemState} (run : Stepper.Run loadStep LoadsApart ⟨m, [], []⟩ history state) :
    LoadInv state := by
  refine run.invariant (fun _ s => LoadInv s) (boot_loadInv booted) ?_
  intro _ before after call events inv met taken
  exact inv.step call met taken

end

theorem elfLoad_keeps_translations (config : BootConfig) (m : Machine)
    (booted : boot config = some m) (history : List Nat) (state loaded : MemState)
    (run : Stepper.Run loadStep LoadsApart ⟨m, [], []⟩ history state) (files : FileSystem)
    (path : Option CString) (current : Nat) (met : LoadsApart state (.elfLoad files path current))
    (events : List Nat)
    (taken : loadStep state (.elfLoad files path current) = some (loaded, events)) :
    KeepsTranslations state.machine loaded.machine :=
  ((run_loadInv booted run).elfLoad files path current met taken).2

section

def programPath : Option CString := some ⟨[97], Fs.letter_noNul⟩

def image (entry : UInt32) (phdr : Elf32Phdr) (i : Nat) : UInt8 :=
  Bytes.byteOf ([0x464C457F, 0x00010101, 0, 0, 0x00030002, 1, entry, 52, 0, 0, 0x00200034, 1, 0,
    UInt32.ofNat phdr.pType, UInt32.ofNat phdr.pOffset, UInt32.ofNat phdr.pVaddr, 0,
    UInt32.ofNat phdr.pFilesz, UInt32.ofNat phdr.pMemsz, 0, 0, 0x44434241].getD (i / 4) 0) (i % 4)

def imageFile (entry : UInt32) (phdr : Elf32Phdr) : FileSystem :=
  match (createRoot bootState).toOption.bind fun fs =>
      (fsOpen fs programPath modeWrite true).toOption.bind fun (fs, fd) =>
        (fsWrite fs fd (some (image entry phdr)) 88).toOption with
  | some (fs, _) => (fsClose fs 0).1
  | none => bootState

variable {m : Machine} {disk : FileSystem}

def tableReads (m : Machine) (disk : FileSystem) (phdrs : Nat)
    (good : FileSystem → Int → Elf32Ehdr → (Nat → UInt8) → Machine → Loader → Bool) : Bool :=
  (openElf disk programPath).any fun (files, opened) => opened.any fun (fd, ehdr) =>
    (readTable files fd ehdr).any fun bytes => (kmalloc m ehdr.phdrSize).any fun (m1, p) =>
      (fsReadTo ⟨m1, seekTo files fd ehdr.ePhoff⟩ fd p ehdr.phdrSize).any fun (s1, count) =>
        p = phdrs && count = ehdr.phdrSize && good files fd ehdr bytes m1 s1

theorem tableRead_of_reads {phdrs : Nat} (notNull : phdrs ≠ 0)
    {good : FileSystem → Int → Elf32Ehdr → (Nat → UInt8) → Machine → Loader → Bool}
    (reads : tableReads m disk phdrs good = true) : ∃ files fd ehdr bytes m1 s1,
      TableRead ⟨m, disk⟩ programPath files fd ehdr phdrs s1 ∧
      readTable files fd ehdr = some bytes ∧ kmalloc m ehdr.phdrSize = some (m1, phdrs) ∧
      fsReadTo ⟨m1, seekTo files fd ehdr.ePhoff⟩ fd phdrs ehdr.phdrSize =
        some (s1, (ehdr.phdrSize : Int)) ∧ good files fd ehdr bytes m1 s1 = true := by
  obtain ⟨⟨files, opened⟩, isOpen, reads⟩ := (any_eq_true _ _).mp reads
  obtain ⟨⟨fd, ehdr⟩, rfl, reads⟩ := (any_eq_true _ _).mp reads
  obtain ⟨bytes, table, reads⟩ := (any_eq_true _ (readTable files fd ehdr)).mp reads
  obtain ⟨⟨m1, p⟩, allocated, reads⟩ := (any_eq_true _ _).mp reads
  obtain ⟨⟨s1, count⟩, read, reads⟩ := (any_eq_true _ _).mp reads
  simp only [Bool.and_eq_true, decide_eq_true_eq] at reads
  obtain ⟨⟨rfl, rfl⟩, passed⟩ := reads
  exact ⟨files, fd, ehdr, bytes, m1, s1, ⟨isOpen, notNull, m1, _, allocated, read,
    Int.toNat_natCast _⟩, table, allocated, read, passed⟩

def tableFrameLow (f : Frames) (v : Nat) : Bool :=
  (pmmAllocPage f.pmm).all fun (_, pmm) => f.present (pdIndex v) ||
    (pmmAllocPage pmm).all fun (table, _) => table < 1024

theorem tablesBelow_single {f : Frames} {v : Nat} (low : tableFrameLow f v = true) :
    TablesBelow [v] f := by
  intro page pmm allocated
  refine ⟨fun absent table pmm' allocated' => ?_, trivial⟩
  dsimp only at absent allocated'
  simpa [tableFrameLow, allocated, absent, allocated'] using low

def framesLeft (f : Frames) : Bool :=
  (pmmAllocPage f.pmm).any fun (_, pmm) => (pmmAllocPage pmm).isSome

theorem pagesLeft_single {f : Frames} (v : Nat) (left : framesLeft f = true) : PagesLeft [v] f := by
  obtain ⟨⟨page, pmm⟩, allocated, more⟩ := (any_eq_true _ _).mp left
  exact ⟨page, pmm, allocated, fun _ => Option.ne_none_iff_isSome.mpr more, trivial⟩

def onePageApart (m : Machine) (phdr : Elf32Phdr) (ehdr : Elf32Ehdr) (bytes : Nat → UInt8)
    (m1 : Machine) : Bool :=
  (ehdr.ePhnum = 1 ∧ ehdr.ePhentsize = 32 ∧ Elf32Phdr.ofBytes bytes 0 = phdr ∧
    phdr.pType = ptLoad ∧ segmentPages phdr.pMemsz = 1 ∧ heapEnd ≤ phdr.pVaddr ∧
    phdr.pVaddr + max phdr.pFilesz phdr.pMemsz ≤ 0x100000000 ∧
    m.translate phdr.pVaddr = none ∧
    findFreeBlock m (alignSize 32) blockLimit m.heapStart ≠ some 0) &&
      tableFrameLow m1.frameState phdr.pVaddr

theorem TableRead.loadsApart {phdr : Elf32Phdr} {phdrs : Nat} {files : FileSystem} {fd : Int}
    {ehdr : Elf32Ehdr} {bytes : Nat → UInt8} {m1 : Machine} {s1 : Loader}
    (table : TableRead ⟨m, disk⟩ programPath files fd ehdr phdrs s1)
    (delivered : readTable files fd ehdr = some bytes)
    (request : kmalloc m ehdr.phdrSize = some (m1, phdrs))
    (passed : onePageApart m phdr ehdr bytes m1 = true) (tasks live : List (Nat × Nat))
    (current : Nat) : LoadsApart ⟨m, tasks, live⟩ (.elfLoad disk programPath current) := by
  intro files' fd' ehdr' opened _
  obtain ⟨rfl, rfl, rfl⟩ : files = files' ∧ fd = fd' ∧ ehdr = ehdr' := by
    simpa using table.opened.symm.trans opened
  simp only [onePageApart, Bool.and_eq_true, decide_eq_true_eq] at passed
  obtain ⟨⟨count, stride, record, isLoad, onePage, above, bound, unmapped, found⟩, low⟩ := passed
  have size : ehdr.phdrSize = 32 := by rw [Elf32Ehdr.phdrSize, count, stride]
  refine ⟨by omega, by rw [size]; decide, ?_, ?_, ?_⟩
  · rw [size]
    exact ⟨fun none => absurd none found, fun none => absurd none found⟩
  · intro other isTable i small _
    obtain rfl : bytes = other := some.inj (delivered.symm.trans isTable)
    obtain rfl : i = 0 := by omega
    rw [Nat.mul_zero, record]
    refine ⟨above, bound, fun j page => ?_⟩
    obtain rfl : j = 0 := by omega
    rw [Nat.zero_mul, Nat.add_zero]
    exact unmapped
  · intro other isTable m' phdrs allocated
    obtain rfl : bytes = other := some.inj (delivered.symm.trans isTable)
    rw [request] at allocated
    cases allocated
    rw [count, show loadedPages bytes 0 1 = [phdr.pVaddr] by
      simp [loadedPages, record, isLoad, onePage, Elf32Phdr.addresses]]
    exact tablesBelow_single low

end

theorem elfLoad_keeps_translations_above : ∃ m files loaded, boot plainConfig = some m ∧
    LoadsApart ⟨m, [], []⟩ (.elfLoad files programPath 0) ∧
    loadStep ⟨m, [], []⟩ (.elfLoad files programPath 0) = some (loaded, []) ∧
    m.translate 0x8000000 = none ∧ loaded.machine.translate 0x8000000 = some (770 * pageSize) ∧
    KeepsTranslations m loaded.machine := by
  have evaluated : (elfLoad ⟨plainMachine, imageFile 0 ⟨ptLoad, 0, 0x8000000, 0, 1⟩⟩ programPath
      0).any (fun (s, _) => s.machine.translate 0x8000000 = some (770 * pageSize)) = true := by
    decide +kernel
  obtain ⟨⟨loader, result⟩, returned, mapped⟩ := (Option.any_eq_true _ _).mp evaluated
  obtain ⟨_, _, _, _, _, _, table, delivered, request, -, passed⟩ := tableRead_of_reads (by decide)
    (show tableReads plainMachine (imageFile 0 ⟨ptLoad, 0, 0x8000000, 0, 1⟩) (heapBase + 16)
      (fun _ _ ehdr bytes m1 _ => onePageApart plainMachine ⟨ptLoad, 0, 0x8000000, 0, 1⟩ ehdr bytes
        m1) = true by decide +kernel)
  have met := table.loadsApart delivered request passed [] [] 0
  have taken : loadStep ⟨plainMachine, [], []⟩ (.elfLoad (imageFile 0 ⟨ptLoad, 0, 0x8000000, 0, 1⟩)
      programPath 0) = some (⟨loader.machine, [], []⟩, []) := by
    rw [loadStep, if_pos (.inl rfl), returned]
    rfl
  exact ⟨_, _, _, plain_boot, met, taken, by decide +kernel, of_decide_eq_true mapped,
    elfLoad_keeps_translations plainConfig _ plain_boot [] _ _ .refl _ _ _ met _ taken⟩

-- The program asks for the last page of the heap and gets it.
theorem elfLoad_remaps_heap : ∃ m files loaded physical, boot plainConfig = some m ∧
    loadStep ⟨m, [], []⟩ (.elfLoad files programPath 0) = some (loaded, []) ∧
    m.translate 0x4FF000 = some physical ∧
    loaded.machine.translate 0x4FF000 = some (770 * pageSize) ∧
    physical ≠ 770 * pageSize ∧ ¬ KeepsTranslations m loaded.machine := by
  have evaluated : (elfLoad ⟨plainMachine, imageFile 0 ⟨ptLoad, 0, 0x4FF000, 0, 1⟩⟩ programPath
      0).any (fun (s, _) => s.machine.translate 0x4FF000 = some (770 * pageSize)) = true := by
    decide +kernel
  obtain ⟨⟨loader, result⟩, returned, mapped⟩ := (Option.any_eq_true _ _).mp evaluated
  have taken : loadStep ⟨plainMachine, [], []⟩ (.elfLoad (imageFile 0 ⟨ptLoad, 0, 0x4FF000, 0, 1⟩)
      programPath 0) = some (⟨loader.machine, [], []⟩, []) := by
    rw [loadStep, if_pos (.inl rfl), returned]
    rfl
  have before : plainMachine.translate 0x4FF000 = some (769 * pageSize) := by decide +kernel
  refine ⟨_, _, _, _, plain_boot, taken, before, of_decide_eq_true mapped, by decide, fun keeps => ?_⟩
  exact absurd ((keeps _ _ before).symm.trans (of_decide_eq_true mapped)) (by decide)

end ArgoOS.Elf
