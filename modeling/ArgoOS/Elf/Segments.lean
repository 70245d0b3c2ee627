import ArgoOS.Elf.Loader
import ArgoOS.Memory.HighPages
import ArgoOS.Memory.MappedPages

set_option autoImplicit false

/-! # What loading the segments leaves alone -/

namespace ArgoOS.Elf

open Memory Machine Blocks Option List
open Fs (FileSystem CString fsRead readCount signed ok_of_toOption)

def Elf32Phdr.addresses (phdr : Elf32Phdr) (j n : Nat) : List Nat :=
  (List.range' j n).map fun j => phdr.pVaddr + j * 4096

def Elf32Phdr.extent (phdr : Elf32Phdr) : Nat := max phdr.pFilesz phdr.pMemsz

def loadedPages (bytes : Nat → UInt8) (i n : Nat) : List Nat :=
  (List.range' i n).flatMap fun i =>
    let phdr := Elf32Phdr.ofBytes bytes (32 * i)
    if phdr.pType = ptLoad then phdr.addresses 0 (segmentPages phdr.pMemsz) else []

structure SegmentApart (m : Machine) (phdr : Elf32Phdr) : Prop where
  above : heapEnd ≤ phdr.pVaddr
  below : phdr.pVaddr + max phdr.pFilesz phdr.pMemsz ≤ 0x100000000
  unmapped : ∀ j < segmentPages phdr.pMemsz, m.translate (phdr.pVaddr + j * 4096) = none

variable {m : Machine} {size phdrs : Nat} {fd : Int} {dest n p : Nat} {s s' : Loader}
  {files : FileSystem} {loaded : Bool} {path : Option CString} {ehdr : Elf32Ehdr}

theorem translate_samePage {v w : Nat} (page : w / pageSize = v / pageSize)
    (unmapped : m.translate v = none) : m.translate w = none := by
  have directory : pdIndex w = pdIndex v := by
    simp only [pdIndex, pageSize] at *
    omega
  have table : ptIndex w = ptIndex v := by
    rw [ptIndex, page, ptIndex]
  simp only [Machine.translate, directory, table] at *
  split at unmapped
  · next present =>
    rw [if_pos present]
    split at unmapped
    · contradiction
    · next absent => rw [if_neg absent]
  · next absent => rw [if_neg absent]

theorem segmentPages_below {vaddr memsz j : Nat} (below : vaddr + memsz ≤ 0x100000000)
    (page : j < segmentPages memsz) : vaddr + j * 4096 < 0x100000000 := by
  unfold segmentPages word at page
  omega

section

theorem signed_toNat_le (x : UInt32) : (signed x).toNat ≤ x.toNat := by
  have bound := x.toNat_lt
  have value : signed x = if 2 * x.toNat < 2 ^ 32 then (x.toNat : Int) else (x.toNat : Int) - 2 ^ 32 :=
    BitVec.toInt_eq_toNat_cond _
  rw [value]
  split <;> omega

theorem fsRead_count {fs fs' : FileSystem} {bytesRead : Int} {size : UInt32}
    {buffer bytes : Option (Nat → UInt8)}
    (returned : fsRead fs fd buffer size = .ok (fs', bytesRead, bytes)) :
    bytesRead.toNat ≤ size.toNat := by
  have counted : ∀ node entry, (readCount node entry size).toNat ≤ size.toNat := by
    intro node entry
    unfold readCount
    dsimp only
    split
    · next more => exact Nat.le_of_lt (UInt32.lt_iff_toNat_lt.mp more)
    · exact Nat.le_refl _
  unfold fsRead at returned
  split at returned
  · dsimp only at returned
    split at returned
    · cases returned
      exact Nat.zero_le _
    · split at returned
      · contradiction
      · cases returned
        exact (signed_toNat_le _).trans (counted _ _)
  · cases returned
    exact Nat.zero_le _

theorem fsReadTo_cases {bytesRead : Int}
    (returned : fsReadTo s fd dest size = some (s', bytesRead)) :
    ∃ bytes, fsRead s.files fd (if dest = 0 then none else some fun _ => 0) (UInt32.ofNat size) =
        .ok (s'.files, bytesRead, bytes) ∧
      storeBytes s.machine dest (bytes.getD fun _ => 0) bytesRead.toNat = some s'.machine ∧
      bytesRead.toNat ≤ size := by
  obtain ⟨⟨files, count, bytes⟩, read, returned⟩ := bind_eq_some_iff.mp returned
  obtain ⟨m, stored, returned⟩ := bind_eq_some_iff.mp returned
  cases returned
  have read' := ok_of_toOption read
  refine ⟨bytes, read', stored, (fsRead_count read').trans ?_⟩
  rw [UInt32.toNat_ofNat']
  exact Nat.mod_le _ _

theorem fsReadTo_returns {m' : Machine} {files' : FileSystem} {count : Nat} {data : Nat → UInt8}
    (notNull : dest ≠ 0) (read : fsRead files fd (some fun _ => 0) (UInt32.ofNat size) =
      .ok (files', (count : Int), some data)) (stored : storeBytes m dest data count = some m') :
    fsReadTo ⟨m, files⟩ fd dest size = some (⟨m', files'⟩, (count : Int)) := by
  rw [fsReadTo, if_neg notNull]
  simp only [read, Except.toOption, bind_eq_bind, bind_some, getD_some,
    Int.toNat_natCast, stored]
  rfl

theorem readSegment_cases {phdr : Nat} (returned : readSegment s fd phdr = some (s', loaded)) :
    ∃ pOffset pVaddr pFilesz s1 bytesRead, s.machine.load (phdr + 8) = some pVaddr ∧
      s.machine.load (phdr + 16) = some pFilesz ∧
      fsReadTo ⟨s.machine, seekTo s.files fd (UInt32.ofNat pOffset)⟩ fd pVaddr pFilesz =
        some (s1, bytesRead) ∧ s'.files = s1.files ∧
      (s'.machine = s1.machine ∨ ∃ again pMemsz, s1.machine.load (phdr + 16) = some again ∧
        s1.machine.load (phdr + 20) = some pMemsz ∧ again < pMemsz ∧ storeBytes s1.machine
          (word (pVaddr + again)) (fun _ => 0) (pMemsz - again) = some s'.machine) := by
  obtain ⟨pOffset, -, returned⟩ := Option.bind_eq_some_iff.mp returned
  obtain ⟨pVaddr, vaddr, returned⟩ := Option.bind_eq_some_iff.mp returned
  obtain ⟨pFilesz, filesz, returned⟩ := Option.bind_eq_some_iff.mp returned
  obtain ⟨⟨s1, bytesRead⟩, read, returned⟩ := Option.bind_eq_some_iff.mp returned
  refine ⟨pOffset, pVaddr, pFilesz, s1, bytesRead, vaddr, filesz, read, ?_⟩
  obtain ⟨again, filesz', returned⟩ := Option.bind_eq_some_iff.mp returned
  split at returned
  · cases returned
    exact ⟨rfl, .inl rfl⟩
  · obtain ⟨pMemsz, memsz, returned⟩ := Option.bind_eq_some_iff.mp returned
    split at returned
    · next larger =>
      obtain ⟨m, zeroed, returned⟩ := Option.bind_eq_some_iff.mp returned
      cases returned
      exact ⟨rfl, .inr ⟨again, pMemsz, filesz', memsz, larger, zeroed⟩⟩
    · cases returned
      exact ⟨rfl, .inl rfl⟩

theorem loadSegment_cases {phdr : Nat}
    (returned : loadSegment s fd phdr = some (s', loaded)) :
    (s.machine.load phdr ≠ some ptLoad ∧ s' = s ∧ loaded = true) ∨
      ∃ pMemsz m mapped, s.machine.load phdr = some ptLoad ∧
        s.machine.load (phdr + 20) = some pMemsz ∧
        mapSegment phdr (segmentPages pMemsz) 0 s.machine = some (m, mapped) ∧
        (mapped = false ∧ s' = ⟨m, s.files⟩ ∧ loaded = false ∨
          mapped = true ∧ readSegment ⟨m, s.files⟩ fd phdr = some (s', loaded)) := by
  obtain ⟨pType, type, returned⟩ := bind_eq_some_iff.mp returned
  split at returned
  · next other =>
    cases returned
    refine .inl ⟨fun isLoad => other ?_, rfl, rfl⟩
    exact some.inj (type.symm.trans isLoad)
  · next isLoad =>
    rw [not_not] at isLoad
    subst isLoad
    obtain ⟨pMemsz, memsz, returned⟩ := bind_eq_some_iff.mp returned
    obtain ⟨⟨m, mapped⟩, pages, returned⟩ := bind_eq_some_iff.mp returned
    refine .inr ⟨pMemsz, m, mapped, type, memsz, pages, ?_⟩
    cases mapped with
    | false =>
      cases returned
      exact .inl ⟨rfl, rfl, rfl⟩
    | true => exact .inr ⟨rfl, returned⟩

end

variable {m' : Machine} {blocks : List Block} {tasks live : List (Nat × Nat)}

variable {bytes : Nat → UInt8} {current : Nat}

section

def HoldsTable (m : Machine) (phdrs : Nat) (bytes : Nat → UInt8) (size : Nat) : Prop :=
  ∀ k, 4 * k + 4 ≤ size →
    m.view allGood (phdrs + 4 * k) = some (Bytes.loadWord bytes (4 * k)).toNat

section

variable (table : HoldsTable m phdrs bytes size)

include table

theorem HoldsTable.congr {m' : Machine}
    (same : ∀ a, phdrs ≤ a → a < phdrs + size → m'.view allGood a = m.view allGood a) :
    HoldsTable m' phdrs bytes size := by
  intro k inside
  rw [same _ (by omega) (by omega)]
  exact table k inside

theorem HoldsTable.field (i offset : Nat) (inside : 32 * i + offset + 4 ≤ size)
    (aligned : offset % 4 = 0) :
    m.load (phdrs + 32 * i + offset) = some (Bytes.loadWord bytes (32 * i + offset)).toNat := by
  have known := table (8 * i + offset / 4) (by omega)
  rw [show 4 * (8 * i + offset / 4) = 32 * i + offset by omega, ← Nat.add_assoc] at known
  exact (view_reads m allGood).load known

theorem HoldsTable.header {i : Nat} {phdr : Elf32Phdr} (inside : 32 * i + 32 ≤ size)
    (record : Elf32Phdr.ofBytes bytes (32 * i) = phdr) :
    m.load (phdrs + 32 * i) = some phdr.pType ∧ m.load (phdrs + 32 * i + 4) = some phdr.pOffset ∧
      m.load (phdrs + 32 * i + 8) = some phdr.pVaddr ∧
      m.load (phdrs + 32 * i + 16) = some phdr.pFilesz ∧
      m.load (phdrs + 32 * i + 20) = some phdr.pMemsz := by
  rw [← record]
  exact ⟨table.field i 0 (by omega) (by decide), table.field i 4 (by omega) (by decide),
    table.field i 8 (by omega) (by decide), table.field i 16 (by omega) (by decide),
    table.field i 20 (by omega) (by decide)⟩

end

/-- What every copy above the address of the segment keeps, reading the segment keeps. -/
theorem readSegment_keeps (kept : Machine → Prop) {i : Nat} {phdr : Elf32Phdr}
    (inside : 32 * i + 32 ≤ size) (record : Elf32Phdr.ofBytes bytes (32 * i) = phdr)
    (below : phdr.pVaddr + phdr.extent ≤ 0x100000000)
    (table : ∀ m, kept m → HoldsTable m phdrs bytes size)
    (copies : ∀ m m' dest source n, kept m → phdr.pVaddr ≤ dest → dest + n ≤ 0x100000000 →
      storeBytes m dest source n = some m' → kept m') (start : kept s.machine)
    (returned : readSegment s fd (phdrs + 32 * i) = some (s', loaded)) : kept s'.machine := by
  obtain ⟨-, -, vaddr, filesz, -⟩ := (table _ start).header inside record
  have extent : phdr.pFilesz ≤ phdr.extent ∧ phdr.pMemsz ≤ phdr.extent :=
    ⟨Nat.le_max_left _ _, Nat.le_max_right _ _⟩
  obtain ⟨_, _, _, s1, bytesRead, vaddr', filesz', read, -, rest⟩ := readSegment_cases returned
  cases vaddr.symm.trans vaddr'
  cases filesz.symm.trans filesz'
  obtain ⟨source, -, stored, count⟩ := fsReadTo_cases read
  have first := copies _ _ _ _ _ start (Nat.le_refl _) (by omega) stored
  obtain same | ⟨_, _, again, memsz, larger, zeroed⟩ := rest
  · exact same ▸ first
  · obtain ⟨-, -, -, filesz1, memsz1⟩ := (table _ first).header inside record
    cases filesz1.symm.trans again
    cases memsz1.symm.trans memsz
    rw [word_eq _ (by omega)] at zeroed
    exact copies _ _ _ _ _ first (Nat.le_add_right _ _) (by omega) zeroed

structure Loading (before : Machine) (blocks : List Block)
    (tasks live : List (Nat × Nat)) (phdrs size : Nat) (bytes : Nat → UInt8) (m : Machine) :
    Prop where
  inv : TaskInv False m blocks tasks ((phdrs, size) :: live)
  kept : KeepsTranslations before m
  table : HoldsTable m phdrs bytes size

variable {before : Machine} {bytes : Nat → UInt8}

section

variable (loading : Loading before blocks tasks live phdrs size bytes m)

include loading

theorem Loading.above (grows : Grows m m') (heapSize : m'.heapSize = m.heapSize)
    (rewrites : Rewrites (heapEnd ≤ ·) (m.view allGood) (m'.view allGood)) (ok : HeapOk m' blocks)
    (kept : KeepsTranslations before m') :
    Loading before blocks tasks live phdrs size bytes m' := by
  refine ⟨loading.inv.above grows heapSize rewrites ok, kept, loading.table.congr fun a low high => ?_⟩
  have inUse : InUse blocks a :=
    loading.inv.held.inUse (mem_append_right _ mem_cons_self) low high
  have below := loading.inv.heap.inUse_below inUse
  have limit := loading.inv.heap.limit
  exact rewrites.same (by omega)

theorem Loading.storesAbove {source : Nat → UInt8} (above : heapEnd ≤ dest)
    (below : dest + n ≤ 0x100000000) (stored : storeBytes m dest source n = some m') :
    Loading before blocks tasks live phdrs size bytes m' ∧ m'.frameState = m.frameState ∧
      Rewrites (heapEnd ≤ ·) (m.view allGood) (m'.view allGood) := by
  obtain ⟨stores, ok⟩ := loading.inv.heap.storeBytesAbove dest source n above below stored
  exact ⟨loading.above stores.toSameBut.grows stores.heapSize stores.rewrites ok
    (loading.kept.trans stores.toSameMap.translations), stores.toSameBut.frameState,
    stores.rewrites⟩

theorem Loading.field (i offset : Nat) (inside : 32 * i + offset + 4 ≤ size)
    (aligned : offset % 4 = 0) :
    m.load (phdrs + 32 * i + offset) = some (Bytes.loadWord bytes (32 * i + offset)).toNat :=
  loading.table.field i offset inside aligned

theorem Loading.mapSegment (i n j : Nat) (phdr : Elf32Phdr)
    (record : Elf32Phdr.ofBytes bytes (32 * i) = phdr) (inside : 32 * i + 32 ≤ size)
    (apart : SegmentApart before phdr) (pages : j + n = segmentPages phdr.pMemsz) {rest : List Nat}
    (tables : TablesBelow (phdr.addresses j n ++ rest) m.frameState) {mapped : Bool}
    (returned : Elf.mapSegment (phdrs + 32 * i) n j m = some (m', mapped)) :
    Loading before blocks tasks live phdrs size bytes m' ∧
      (mapped = true → TablesBelow rest m'.frameState) ∧
      Rewrites (heapEnd ≤ ·) (m.view allGood) (m'.view allGood) := by
  induction n generalizing j m with
  | zero =>
    cases returned
    exact ⟨loading, fun _ => tables, .refl _ _⟩
  | succ n ih =>
    unfold Elf.mapSegment at returned
    cases allocated : pmmAllocPage m.pmm with
    | none =>
      rw [allocated] at returned
      cases returned
      exact ⟨loading, fun mapped => absurd mapped Bool.false_ne_true, .refl _ _⟩
    | some result =>
      obtain ⟨page, pmm⟩ := result
      rw [allocated] at returned
      obtain ⟨vaddr, loaded, returned⟩ := bind_eq_some_iff.mp returned
      obtain ⟨m1, stored, others⟩ := bind_eq_some_iff.mp returned
      rw [loading.field i 8 (by omega) (by decide), some.injEq] at loaded
      obtain rfl : phdr.pVaddr = vaddr := by
        rw [← record]
        exact loaded
      have below : phdr.pVaddr + j * 4096 < 0x100000000 :=
        segmentPages_below (Nat.le_trans (Nat.add_le_add_left (Nat.le_max_right _ _) _) apart.below)
          (by omega)
      rw [word_eq _ below] at stored
      rw [Elf32Phdr.addresses, range'_succ, map_cons, cons_append] at tables
      obtain ⟨here, later⟩ := tables page pmm allocated
      obtain ⟨ok1, keeps, rewrites, translate⟩ := loading.inv.heap.mapFresh _ (.inr rfl)
        (Nat.le_trans apart.above (Nat.le_add_right _ _)) allocated (tableLow_of_below here) stored
      have kept : KeepsTranslations before m1 := by
        intro v physical known
        rw [translate v fun page => ?_]
        · exact loading.kept v physical known
        · rw [translate_samePage page (apart.unmapped j (by omega))] at known
          contradiction
      obtain ⟨_, _, mapping⟩ := (loading.inv.heap.withPmm allocated).1.sees.mapping
      have tables1 : TablesBelow (phdr.addresses (j + 1) n ++ rest) m1.frameState := by
        rw [pagingMapPage_frameState mapping.pmm stored]
        exact later
      obtain ⟨loading', tables', rewrites'⟩ := ih
        (loading.above keeps.toGrows keeps.heap.2 rewrites ok1 kept) (j + 1) (by omega) tables1 others
      exact ⟨loading', tables', rewrites.trans rewrites'⟩

section

variable (i : Nat) (phdr : Elf32Phdr) (record : Elf32Phdr.ofBytes bytes (32 * i) = phdr)
    (inside : 32 * i + 32 ≤ size)

include i phdr record inside

theorem Loading.readSegment (apart : SegmentApart before phdr)
    (returned : Elf.readSegment ⟨m, files⟩ fd (phdrs + 32 * i) = some (s', loaded)) :
    Loading before blocks tasks live phdrs size bytes s'.machine ∧
      s'.machine.frameState = m.frameState ∧
      Rewrites (heapEnd ≤ ·) (m.view allGood) (s'.machine.view allGood) := by
  refine readSegment_keeps (fun m' =>
      Loading before blocks tasks live phdrs size bytes m' ∧ m'.frameState = m.frameState ∧
        Rewrites (heapEnd ≤ ·) (m.view allGood) (m'.view allGood)) inside record apart.below
    (fun _ kept => kept.1.table) ?_ ⟨loading, rfl, .refl _ _⟩ returned
  rintro m1 m2 dest source n ⟨loading1, frames1, rewrites1⟩ reached high stored
  obtain ⟨loading2, frames2, rewrites2⟩ :=
    loading1.storesAbove (apart.above.trans reached) high stored
  exact ⟨loading2, frames2.trans frames1, rewrites1.trans rewrites2⟩

theorem Loading.segment (apart : phdr.pType = ptLoad → SegmentApart before phdr) {rest : List Nat}
    (tables : TablesBelow ((if phdr.pType = ptLoad then
      phdr.addresses 0 (segmentPages phdr.pMemsz) else []) ++ rest) m.frameState)
    (returned : loadSegment ⟨m, files⟩ fd (phdrs + 32 * i) = some (s', loaded)) :
    Loading before blocks tasks live phdrs size bytes s'.machine ∧
      (loaded = true → TablesBelow rest s'.machine.frameState) ∧
      Rewrites (heapEnd ≤ ·) (m.view allGood) (s'.machine.view allGood) := by
  obtain ⟨type, -, -, -, memsz⟩ := loading.table.header inside record
  obtain ⟨other, rfl, rfl⟩ | ⟨pMemsz, m1, mapped, isLoad, memsz', pages, rest⟩ :=
    loadSegment_cases returned
  · have isOther : ¬phdr.pType = ptLoad := fun isLoad => other (type.trans (congrArg some isLoad))
    rw [if_neg isOther] at tables
    exact ⟨loading, fun _ => tables, .refl _ _⟩
  · have isLoad : phdr.pType = ptLoad := Option.some.inj (type.symm.trans isLoad)
    obtain rfl : phdr.pMemsz = pMemsz := Option.some.inj (memsz.symm.trans memsz')
    rw [if_pos isLoad] at tables
    obtain ⟨loading1, tables1, rewrites1⟩ := loading.mapSegment i _ 0 phdr record inside (apart isLoad)
      (Nat.zero_add _) tables pages
    obtain ⟨-, rfl, rfl⟩ | ⟨rfl, read⟩ := rest
    · exact ⟨loading1, fun loaded => absurd loaded Bool.false_ne_true, rewrites1⟩
    · obtain ⟨loading2, frames2, rewrites2⟩ :=
        loading1.readSegment i phdr record inside (apart isLoad) read
      exact ⟨loading2, fun _ => frames2 ▸ tables1 rfl, rewrites1.trans rewrites2⟩

end

theorem Loading.segments (n i : Nat) (inside : 32 * (i + n) ≤ size)
    (apart : ∀ k, i ≤ k → k < i + n → (Elf32Phdr.ofBytes bytes (32 * k)).pType = ptLoad →
      SegmentApart before (Elf32Phdr.ofBytes bytes (32 * k)))
    (tables : TablesBelow (loadedPages bytes i n) m.frameState)
    (returned : loadSegments fd phdrs n i ⟨m, files⟩ = some (s', loaded)) :
    Loading before blocks tasks live phdrs size bytes s'.machine ∧
      Rewrites (heapEnd ≤ ·) (m.view allGood) (s'.machine.view allGood) := by
  induction n generalizing i m files with
  | zero =>
    cases returned
    exact ⟨loading, .refl _ _⟩
  | succ n ih =>
    obtain ⟨⟨s1, loaded1⟩, first, returned⟩ := bind_eq_some_iff.mp returned
    rw [loadedPages, range'_succ, flatMap_cons] at tables
    obtain ⟨loading1, tables1, rewrites1⟩ := loading.segment i _ rfl (by omega)
      (apart i (Nat.le_refl _) (by omega)) tables first
    cases loaded1 with
    | false =>
      cases returned
      exact ⟨loading1, rewrites1⟩
    | true =>
      obtain ⟨loading', rewrites'⟩ := ih loading1 (i + 1) (by omega)
        (fun k low high => apart k (by omega) (by omega)) (tables1 rfl) returned
      exact ⟨loading', rewrites1.trans rewrites'⟩

end

end

def readTable (files : FileSystem) (fd : Int) (ehdr : Elf32Ehdr) : Option (Nat → UInt8) :=
  match fsRead (seekTo files fd ehdr.ePhoff) fd (some fun _ => 0) (UInt32.ofNat ehdr.phdrSize) with
  | .ok (_, bytesRead, bytes) =>
    if bytesRead.toNat = ehdr.phdrSize then some (bytes.getD fun _ => 0) else none
  | .error _ => none

-- `elf_load` up to its loop: the file is open and the table is at `phdrs`.
structure TableRead (s : Loader) (path : Option CString) (files : FileSystem) (fd : Int)
    (ehdr : Elf32Ehdr) (phdrs : Nat) (s1 : Loader) : Prop where
  opened : openElf s.files path = some (files, some (fd, ehdr))
  notNull : phdrs ≠ 0
  read : ∃ m bytesRead, kmalloc s.machine ehdr.phdrSize = some (m, phdrs) ∧
    fsReadTo ⟨m, seekTo files fd ehdr.ePhoff⟩ fd phdrs ehdr.phdrSize = some (s1, bytesRead) ∧
    bytesRead.toNat = ehdr.phdrSize

theorem kmalloc_nonempty {m' : Machine} (allocated : kmalloc m n = some (m', p))
    (notNull : p ≠ 0) : n ≠ 0 := by
  rintro rfl
  cases allocated
  exact notNull rfl

theorem TableRead.nonempty {s1 : Loader} (table : TableRead s path files fd ehdr phdrs s1) :
    1 ≤ ehdr.phdrSize := by
  obtain ⟨m, -, allocated, -⟩ := table.read
  exact Nat.pos_of_ne_zero (kmalloc_nonempty allocated table.notNull)

theorem TableRead.inBlock {s1 : Loader} {blocks : List Block}
    (table : TableRead s path files fd ehdr phdrs s1) (ok : HeapOk s.machine blocks)
    (bound : ehdr.phdrSize ≤ heapMaxSize) (low : ExpandsLow s.machine ehdr.phdrSize) :
    ∃ bytes xs b ys, readTable files fd ehdr = some bytes ∧ b.free = false ∧ phdrs = b.addr + 16 ∧
      phdrs + ehdr.phdrSize ≤ heapEnd ∧ HeapOk s1.machine (xs ++ b :: ys) ∧
      HoldsTable s1.machine phdrs bytes ehdr.phdrSize := by
  obtain ⟨m, bytesRead, allocated, read, whole⟩ := table.read
  obtain ⟨bytes, read, stored, -⟩ := fsReadTo_cases read
  obtain ⟨-, blocks1, new⟩ := kmalloc_effect ok _ _ table.nonempty bound low allocated
  obtain ⟨b, inList, used, rfl, fits, -⟩ := new.new table.notNull
  rw [whole] at stored
  obtain ⟨-, ok1⟩ := new.ok.storeBytesPayload b inList _ _ fits stored
  have words := storeBytes_words new.ok b inList _ _ fits stored
  have place := (new.ok.shape.bounds b inList).2
  have limit := new.ok.limit
  obtain ⟨xs, ys, rfl⟩ := append_of_mem inList
  refine ⟨bytes.getD fun _ => 0, xs, b, ys, ?_, used, rfl, ?_, ok1, words⟩
  · rw [if_neg table.notNull] at read
    rw [readTable, read]
    exact if_pos whole
  · simp only [Block.stop] at place
    omega

-- What the file and the memory must be like so that loading maps no page a second time.
structure ElfApart (m : Machine) (files : FileSystem) (fd : Int) (ehdr : Elf32Ehdr) : Prop where
  stride : 32 ≤ ehdr.ePhentsize
  size : ehdr.phdrSize ≤ heapMaxSize
  expands : ExpandsLow m ehdr.phdrSize ∧ ExpandsFresh m ehdr.phdrSize
  segments : ∀ bytes, readTable files fd ehdr = some bytes → ∀ i < ehdr.ePhnum,
    (Elf32Phdr.ofBytes bytes (32 * i)).pType = ptLoad →
      SegmentApart m (Elf32Phdr.ofBytes bytes (32 * i))
  tables : ∀ bytes, readTable files fd ehdr = some bytes →
    ∀ m' phdrs, kmalloc m ehdr.phdrSize = some (m', phdrs) →
      TablesBelow (loadedPages bytes 0 ehdr.ePhnum) m'.frameState

def Completes (s : Loader) (path : Option CString) (ehdr : Elf32Ehdr) : Prop :=
  ∃ files fd m phdrs s', openElf s.files path = some (files, some (fd, ehdr)) ∧
    kmalloc s.machine ehdr.phdrSize = some (m, phdrs) ∧ phdrs ≠ 0 ∧
    loadProgram ⟨m, files⟩ fd ehdr phdrs = some (s', true)

inductive ElfOutcome (s : Loader) (path : Option CString) (current : Nat) (m' : Machine) : Prop
  | refused (files : FileSystem) (opened : openElf s.files path = some (files, none))
      (same : m' = s.machine)
  | noTable (files : FileSystem) (fd : Int) (ehdr : Elf32Ehdr)
      (opened : openElf s.files path = some (files, some (fd, ehdr)))
      (allocated : kmalloc s.machine ehdr.phdrSize = some (m', 0))
  | ran (files : FileSystem) (fd : Int) (ehdr : Elf32Ehdr) (m m2 : Machine) (phdrs : Nat)
      (s1 : Loader) (loaded : Bool) (opened : openElf s.files path = some (files, some (fd, ehdr)))
      (allocated : kmalloc s.machine ehdr.phdrSize = some (m, phdrs)) (notNull : phdrs ≠ 0)
      (program : loadProgram ⟨m, files⟩ fd ehdr phdrs = some (s1, loaded))
      (freed : kfree s1.machine phdrs = some m2)
      (entered : loaded = true → current ≠ 0 →
        m2.store (current + 12) ehdr.eEntry.toNat = some m')
      (same : ¬ (loaded = true ∧ current ≠ 0) → m' = m2)

theorem elfLoad_cases {result : Int} (returned : elfLoad s path current = some (s', result)) :
    result = -1 ∧ ElfOutcome s path current s'.machine := by
  obtain ⟨⟨files, opened⟩, fileOpened, returned⟩ := bind_eq_some_iff.mp returned
  cases opened with
  | none =>
    cases returned
    exact ⟨rfl, .refused files fileOpened rfl⟩
  | some opened =>
    obtain ⟨fd, ehdr⟩ := opened
    obtain ⟨⟨m, phdrs⟩, allocated, returned⟩ := bind_eq_some_iff.mp returned
    dsimp only at returned
    split at returned
    · next null =>
      cases returned
      exact ⟨rfl, .noTable files fd ehdr fileOpened (null ▸ allocated)⟩
    · next notNull =>
      obtain ⟨⟨s1, loaded⟩, program, returned⟩ := bind_eq_some_iff.mp returned
      obtain ⟨m2, freed, returned⟩ := bind_eq_some_iff.mp returned
      dsimp only at returned
      split at returned
      · next hasTask =>
        obtain ⟨m3, stored, returned⟩ := bind_eq_some_iff.mp returned
        cases returned
        exact ⟨rfl, .ran files fd ehdr m m2 phdrs s1 loaded fileOpened allocated notNull program freed
          (fun _ _ => stored) fun none => absurd hasTask none⟩
      · next noTask =>
        cases returned
        exact ⟨rfl, .ran files fd ehdr m m2 phdrs s1 loaded fileOpened allocated notNull program freed
          (fun loaded task => absurd ⟨loaded, task⟩ noTask) fun _ => rfl⟩

section

def KeepsLive (entries : List (Nat × Nat)) (m m' : Machine) : Prop :=
  ∀ entry ∈ entries, ∀ a, entry.1 ≤ a → a < entry.1 + entry.2 →
    m'.view allGood a = m.view allGood a

theorem KeepsLive.trans {entries : List (Nat × Nat)} {m'' : Machine}
    (first : KeepsLive entries m m') (second : KeepsLive entries m' m'') :
    KeepsLive entries m m'' :=
  fun entry member a above below =>
    (second entry member a above below).trans (first entry member a above below)

theorem LiveOk.others (held : LiveOk blocks (tasks ++ (p, n) :: live)) {entry : Nat × Nat}
    (member : entry ∈ tasks ++ live) : entry ∈ tasks ++ (p, n) :: live ∧ entry.1 ≠ p := by
  obtain ⟨-, rest, across⟩ := List.pairwise_append.mp held.distinct
  rcases mem_append.mp member with task | other
  · exact ⟨mem_append_left _ task, across entry task _ mem_cons_self⟩
  · exact ⟨mem_append_right _ (mem_cons_of_mem _ other),
      ((List.pairwise_cons.mp rest).1 entry other).symm⟩

theorem storesPayload_inv (inv : TaskInv False m blocks tasks ((p, n) :: live)) {b : Block}
    (inList : b ∈ blocks) (place : p = b.addr + 16) (stores : Stores (InPayload b) m m')
    (ok : HeapOk m' blocks) :
    TaskInv False m' blocks tasks ((p, n) :: live) ∧ KeepsLive (tasks ++ live) m m' := by
  have away : ∀ entry ∈ tasks ++ live, ∀ a, entry.1 ≤ a → a < entry.1 + entry.2 →
      ¬ InPayload b a := by
    intro entry member a above below
    obtain ⟨inLive, differs⟩ := LiveOk.others inv.held member
    exact inv.held.away inv.heap inList inLive (place ▸ differs) above below
  refine ⟨inv.grows stores.toSameBut.grows (fun p task => (inv.recorded p task).rewrites
    stores.rewrites (away _ (mem_append_left _ task))) False.elim ok inv.held, ?_⟩
  exact fun entry member a above below => stores.rewrites.same (away entry member a above below)

theorem loadProgram_inv {before : Machine} (apart : ElfApart before files fd ehdr)
    (notNull : phdrs ≠ 0) (inv : TaskInv False m blocks tasks ((phdrs, ehdr.phdrSize) :: live))
    (kept : KeepsTranslations before m) (allocated : kmalloc before ehdr.phdrSize = some (m, phdrs))
    (returned : loadProgram ⟨m, files⟩ fd ehdr phdrs = some (s', loaded)) :
    TaskInv False s'.machine blocks tasks ((phdrs, ehdr.phdrSize) :: live) ∧
      KeepsTranslations before s'.machine ∧ KeepsLive (tasks ++ live) m s'.machine := by
  obtain ⟨⟨s1, bytesRead⟩, read, returned⟩ := bind_eq_some_iff.mp returned
  obtain ⟨bytes, read, stored, count⟩ := fsReadTo_cases read
  rw [if_neg notNull] at read
  obtain ⟨b, inList, -, place, fits⟩ := inv.held.held _ (mem_append_right _ mem_cons_self)
  simp only at place fits
  rw [place] at stored
  obtain ⟨stores, ok⟩ := inv.heap.storeBytesPayload b inList _ _ (by omega) stored
  obtain ⟨inv1, same1⟩ := storesPayload_inv inv inList place stores ok
  have kept1 := kept.trans stores.toSameMap.translations
  dsimp only at returned
  split at returned
  · cases returned
    exact ⟨inv1, kept1, same1⟩
  · next complete =>
    have whole : bytesRead.toNat = ehdr.phdrSize := by
      by_contra short
      exact complete (.inr short)
    have table : readTable files fd ehdr = some (bytes.getD fun _ => 0) := by
      rw [readTable, read]
      exact if_pos whole
    have frames : s1.machine.frameState = m.frameState := stores.toSameBut.frameState
    have loading : Loading before blocks tasks live phdrs ehdr.phdrSize (bytes.getD fun _ => 0)
        s1.machine := by
      refine ⟨inv1, kept1, fun k inside => ?_⟩
      rw [place]
      exact storeBytes_words inv.heap b inList _ _ (by omega) stored k (by omega)
    obtain ⟨final, rewrites⟩ := loading.segments ehdr.ePhnum 0 (by
        rw [Nat.zero_add, Nat.mul_comm]
        exact Nat.mul_le_mul_left _ apart.stride)
      (fun k _ below => apart.segments _ table k (by omega))
      (frames ▸ apart.tables _ table m phdrs allocated) returned
    refine ⟨final.inv, final.kept, same1.trans fun entry member a above below => rewrites.same ?_⟩
    have inUse := inv.heap.inUse_below (inv.held.inUse (LiveOk.others inv.held member).1 above below)
    have limit := inv.heap.limit
    omega

theorem dropLive_cons (held : LiveOk blocks (tasks ++ (p, n) :: live)) :
    dropLive ((p, n) :: live) p = live := by
  have distinct := (List.pairwise_cons.mp (List.pairwise_append.mp held.distinct).2.1).1
  rw [dropLive, filter_cons_of_neg (by simp), filter_eq_self]
  intro entry member
  exact decide_eq_true (distinct entry member).symm

theorem tableAlloc_inv (inv : TaskInv False m blocks tasks live)
    (met : ehdr.phdrSize ≠ 0 → ElfApart m files fd ehdr)
    (allocated : kmalloc m ehdr.phdrSize = some (m', phdrs)) :
    ∃ blocks', TaskInv False m' blocks' tasks (addLive live phdrs ehdr.phdrSize) ∧
      KeepsTranslations m m' ∧ KeepsLive (tasks ++ live) m m' := by
  by_cases empty : ehdr.phdrSize = 0
  · simp only [kmalloc, empty, if_true] at allocated
    cases allocated
    exact ⟨blocks, by simpa [addLive] using inv, (SameMap.refl m).translations, fun _ _ _ _ _ => rfl⟩
  · have apart := met empty
    obtain ⟨blocks', inv'⟩ := inv.kmalloc _ _ apart.size (fun _ => apart.expands.1) False.elim
      allocated
    obtain ⟨enlarges, -⟩ := kmalloc_effect inv.heap _ _ (Nat.pos_of_ne_zero empty) apart.size
      apart.expands.1 allocated
    refine ⟨blocks', inv', enlarges.translations apart.expands.2, fun entry member a above below => ?_⟩
    exact enlarges.rewrites.same fun unused => unused (inv.held.inUse member above below)

theorem tableFree_inv (inv : TaskInv False m blocks tasks ((phdrs, n) :: live))
    (freed : kfree m phdrs = some m') :
    ∃ blocks', TaskInv False m' blocks' tasks live ∧ KeepsTranslations m m' ∧
      KeepsLive (tasks ++ live) m m' := by
  obtain ⟨b, inList, used, place, -⟩ := inv.held.held _ (mem_append_right _ mem_cons_self)
  simp only at place
  obtain ⟨stores, -⟩ := (inv.heap.free b inList used).post _ (place ▸ freed)
  obtain ⟨blocks', inv'⟩ := inv.kfree phdrs (.inr (by simp)) freed
  rw [dropLive_cons inv.held] at inv'
  refine ⟨blocks', inv', stores.toSameMap.translations, fun entry member a above below => ?_⟩
  obtain ⟨inLive, differs⟩ := LiveOk.others inv.held member
  exact stores.rewrites.same (inv.held.unfreed inLive (place ▸ differs) above below)

theorem program_inv {files1 : FileSystem} {m1 : Machine} {s2 : Loader}
    (inv : TaskInv False m blocks tasks live)
    (met : ∀ files' fd ehdr, openElf files path = some (files', some (fd, ehdr)) →
      ehdr.phdrSize ≠ 0 → ElfApart m files' fd ehdr)
    (opened : openElf files path = some (files1, some (fd, ehdr)))
    (allocated : kmalloc m ehdr.phdrSize = some (m1, phdrs)) (notNull : phdrs ≠ 0)
    (program : loadProgram ⟨m1, files1⟩ fd ehdr phdrs = some (s2, loaded)) :
    ∃ blocks2, TaskInv False s2.machine blocks2 tasks ((phdrs, ehdr.phdrSize) :: live) ∧
      KeepsTranslations m s2.machine ∧ KeepsLive (tasks ++ live) m s2.machine := by
  have apart := met files1 fd ehdr opened (kmalloc_nonempty allocated notNull)
  obtain ⟨blocks1, inv1, kept1, same1⟩ := tableAlloc_inv inv (fun _ => apart) allocated
  rw [addLive, if_neg notNull] at inv1
  obtain ⟨inv2, kept2, same2⟩ := loadProgram_inv apart notNull inv1 kept1 allocated program
  exact ⟨blocks1, inv2, kept2, same1.trans same2⟩

theorem ElfOutcome.effect (outcome : ElfOutcome ⟨m, files⟩ path current m')
    (inv : TaskInv False m blocks tasks live)
    (met : ∀ files' fd ehdr, openElf files path = some (files', some (fd, ehdr)) →
      ehdr.phdrSize ≠ 0 → ElfApart m files' fd ehdr) :
    ∃ m3 blocks3, TaskInv False m3 blocks3 tasks live ∧ KeepsTranslations m m3 ∧
      KeepsLive (tasks ++ live) m m3 ∧
      (∀ ehdr, Completes ⟨m, files⟩ path ehdr → current ≠ 0 →
        m3.store (current + 12) ehdr.eEntry.toNat = some m') ∧
      ((∀ ehdr, Completes ⟨m, files⟩ path ehdr → current = 0) → m' = m3) := by
  cases outcome with
  | refused files1 opened same =>
    refine ⟨m, blocks, inv, (SameMap.refl m).translations, fun _ _ _ _ _ => rfl, ?_, fun _ => same⟩
    rintro ehdr ⟨_, _, _, _, _, opened', -⟩
    simp [opened] at opened'
  | noTable files1 fd ehdr opened allocated =>
    obtain ⟨blocks1, inv1, kept1, same1⟩ := tableAlloc_inv inv (met files1 fd ehdr opened) allocated
    refine ⟨m', blocks1, by simpa [addLive] using inv1, kept1, same1, ?_, fun _ => rfl⟩
    rintro ehdr' ⟨_, _, _, phdrs, _, opened', allocated', notNull, -⟩
    simp only [opened] at opened'
    cases opened'
    simp only [allocated, some.injEq, Prod.mk.injEq] at allocated'
    exact absurd allocated'.2.symm notNull
  | ran files1 fd ehdr m1 m3 phdrs s2 loaded opened allocated notNull program freed entered same =>
    obtain ⟨blocks2, inv2, kept2, same2⟩ := program_inv inv met opened allocated notNull program
    obtain ⟨blocks3, inv3, kept3, same3⟩ := tableFree_inv inv2 freed
    refine ⟨m3, blocks3, inv3, kept2.trans kept3, same2.trans same3, ?_, fun none =>
      same fun both => ?_⟩
    · rintro ehdr' ⟨files', fd', m', phdrs', s', opened', allocated', -, program'⟩ task
      simp only [opened] at opened'
      cases opened'
      simp only [allocated] at allocated'
      cases allocated'
      simp only [program, some.injEq, Prod.mk.injEq] at program'
      exact entered program'.2 task
    · obtain ⟨isLoaded, task⟩ := both
      exact task (none ehdr ⟨files1, fd, m1, phdrs, s2, opened, allocated, notNull,
        isLoaded ▸ program⟩)

theorem elfLoad_inv (inv : TaskInv False m blocks tasks live) {files : FileSystem}
    {path : Option CString}
    (met : ∀ files' fd ehdr, openElf files path = some (files', some (fd, ehdr)) →
      ehdr.phdrSize ≠ 0 → ElfApart m files' fd ehdr)
    (isTask : current = 0 ∨ (current, taskSize) ∈ tasks) {result : Int}
    (returned : elfLoad ⟨m, files⟩ path current = some (s', result)) :
    (∃ blocks', TaskInv False s'.machine blocks' tasks live) ∧ KeepsTranslations m s'.machine := by
  obtain ⟨m3, blocks3, inv3, kept3, -, entered, same⟩ := (elfLoad_cases returned).2.effect inv met
  by_cases completes : ∃ ehdr, Completes ⟨m, files⟩ path ehdr ∧ current ≠ 0
  · obtain ⟨ehdr, complete, hasTask⟩ := completes
    obtain ⟨inv4, same4⟩ := inv3.storeField (isTask.resolve_left hasTask) 12 _ (by decide)
      (by decide) (entered ehdr complete hasTask)
    exact ⟨⟨blocks3, inv4⟩, kept3.trans same4.translations⟩
  · rw [same fun ehdr complete => by_contra fun hasTask => completes ⟨ehdr, complete, hasTask⟩]
    exact ⟨⟨blocks3, inv3⟩, kept3⟩

end

end ArgoOS.Elf
