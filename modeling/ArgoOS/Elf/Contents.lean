import ArgoOS.Elf.Mappings
import ArgoOS.Fs.ByteFile

set_option autoImplicit false

/-! # What a segment looks like in memory -/

namespace ArgoOS.Elf

open Memory Machine Blocks Option List UInt32
open Fs (FileSystem Descriptor Slot fsRead fsSeek openFile modeRead maxFileSize readCount fileBuffer signed)

section

def Elf32Phdr.Covers (phdr : Elf32Phdr) (k : Nat) : Prop :=
  ∃ j < segmentPages phdr.pMemsz,
    word (phdr.pVaddr + k) / 4096 = word (phdr.pVaddr + j * 4096) / 4096

instance (phdr : Elf32Phdr) (k : Nat) : Decidable (phdr.Covers k) := by
  unfold Elf32Phdr.Covers
  infer_instance

def SegmentFits (phdr : Elf32Phdr) : Prop :=
  phdr.extent = 0 ∨ phdr.pVaddr % 4096 + phdr.extent ≤ 4096 * segmentPages phdr.pMemsz

instance (phdr : Elf32Phdr) : Decidable (SegmentFits phdr) := inferInstanceAs (Decidable (_ ∨ _))

theorem covers_iff (bytes : Nat → UInt8) (offset : Nat) :
    (∀ k < (Elf32Phdr.ofBytes bytes offset).extent, (Elf32Phdr.ofBytes bytes offset).Covers k) ↔
      SegmentFits (Elf32Phdr.ofBytes bytes offset) := by
  have vaddr : (Elf32Phdr.ofBytes bytes offset).pVaddr < 2 ^ 32 := toNat_lt _
  have filesz : (Elf32Phdr.ofBytes bytes offset).pFilesz < 2 ^ 32 := toNat_lt _
  have memsz : (Elf32Phdr.ofBytes bytes offset).pMemsz < 2 ^ 32 := toNat_lt _
  generalize Elf32Phdr.ofBytes bytes offset = phdr at *
  have pages : segmentPages phdr.pMemsz < 2 ^ 20 := by
    unfold segmentPages word
    omega
  simp only [SegmentFits, Elf32Phdr.Covers, Elf32Phdr.extent, word]
  generalize segmentPages phdr.pMemsz = count at *
  constructor
  · -- The first byte behind the last page would have to be on one of them.
    intro covered
    by_contra overflow
    obtain ⟨j, below, same⟩ := covered (4096 * count - phdr.pVaddr % 4096) (by omega)
    omega
  · intro fits k inside
    refine ⟨(phdr.pVaddr % 4096 + k) / 4096, by omega, by omega⟩

end

variable {files : FileSystem} {fd : Int} {content : Nat → UInt8} {size : Nat}

section

def FileHolds (files : FileSystem) (fd : Int) (content : Nat → UInt8) (size : Nat) : Prop :=
  size ≤ maxFileSize ∧ ∃ index slot, openFile files fd modeRead = some (index, slot) ∧
    (files.inodes slot).data = .buffer content ∧ (files.inodes slot).size.toNat = size ∧
    (files.fileDescriptors index).size.toNat = size

theorem openFile_position {index : Descriptor} {slot : Slot} {mode : UInt32}
    (opened : openFile files fd mode = some (index, slot)) (position : UInt32) :
    openFile (files.setDescriptor index { files.fileDescriptors index with position := position })
      fd mode = some (index, slot) := by
  obtain ⟨valid, allowed, lookup, isFile⟩ := Fs.openFile_cases opened
  obtain ⟨rfl, isValid⟩ := Fs.validDescriptor_cases valid
  have self := files.setDescriptor_self index
    { files.fileDescriptors index with position := position }
  have valid' := Fs.validDescriptor_val (files.setDescriptor index
    { files.fileDescriptors index with position := position }) index (by rw [self]; exact isValid)
  unfold openFile
  rw [valid']
  simp only [self, if_neg allowed]
  rw [show (files.setDescriptor index { files.fileDescriptors index with position := position
    }).findInodeByNum (files.fileDescriptors index).inode = some slot from lookup]
  exact if_pos isFile

theorem FileHolds.seek (holds : FileHolds files fd content size) (offset : UInt32) :
    ∃ index slot, openFile (seekTo files fd offset) fd modeRead = some (index, slot) ∧
      ((seekTo files fd offset).inodes slot).data = .buffer content ∧
      ((seekTo files fd offset).inodes slot).size.toNat = size ∧
      ((seekTo files fd offset).fileDescriptors index).size.toNat = size ∧
      ((seekTo files fd offset).fileDescriptors index).position.toNat = min offset.toNat size := by
  obtain ⟨small, index, slot, opened, data, nodeSize, entrySize⟩ := holds
  obtain ⟨valid, -⟩ := Fs.openFile_cases opened
  have moved : seekTo files fd offset = files.setDescriptor index
      { files.fileDescriptors index with
        position := if offset > (files.fileDescriptors index).size then
          (files.fileDescriptors index).size else offset } := by
    simp only [seekTo, fsSeek, valid, Fs.seekTarget, if_true]
    rfl
  rw [moved]
  refine ⟨index, slot, openFile_position opened _, data, nodeSize, ?_, ?_⟩
  · rw [files.setDescriptor_self]
    exact entrySize
  · rw [files.setDescriptor_self]
    dsimp only
    split
    · next beyond =>
      rw [gt_iff_lt, lt_iff_toNat_lt] at beyond
      omega
    · next within =>
      rw [gt_iff_lt, lt_iff_toNat_lt] at within
      omega

theorem FileHolds.read (holds : FileHolds files fd content size) (offset count : UInt32)
    (inside : count.toNat = 0 ∨ offset.toNat + count.toNat ≤ size) :
    ∃ files' bytes, fsRead (seekTo files fd offset) fd (some fun _ => 0) count =
        .ok (files', (count.toNat : Int), some bytes) ∧ FileHolds files' fd content size ∧
      ∀ k < count.toNat, bytes k = content (offset.toNat + k) := by
  obtain ⟨index, slot, opened, data, nodeSize, entrySize, position⟩ := holds.seek offset
  have small := holds.1
  generalize seekTo files fd offset = fs at *
  have limit : maxFileSize = 65536 := rfl
  have available : ((fs.inodes slot).size - (fs.fileDescriptors index).position).toNat =
      size - min offset.toNat size := by
    rw [UInt32.toNat_sub_of_le _ _ (by rw [le_iff_toNat_le]; omega), nodeSize, position]
  have whole : readCount (fs.inodes slot) (fs.fileDescriptors index) count = count := by
    unfold readCount
    dsimp only
    rw [if_neg]
    rw [gt_iff_lt, lt_iff_toNat_lt, available]
    omega
  simp only [fsRead, opened, whole]
  by_cases nothing : count = 0
  · subst nothing
    exact ⟨fs, _, rfl, ⟨small, index, slot, opened, data, nodeSize, entrySize⟩, by simp⟩
  · have positive : count.toNat ≠ 0 := fun zero => nothing (UInt32.toNat_inj.mp zero)
    have copied : fileBuffer (fs.inodes slot).data (fs.fileDescriptors index).position count =
        .ok content := by
      rw [data, fileBuffer, if_pos (by omega)]
    rw [if_neg nothing, copied, Fs.signed_small _ (by omega)]
    refine ⟨_, _, rfl, ⟨small, index, slot, openFile_position opened _, data, nodeSize, ?_⟩, ?_⟩
    · rw [fs.setDescriptor_self]
      exact entrySize
    · intro k below
      have copied := Bytes.copy_inside (fun _ => 0)
        (fun i => content ((fs.fileDescriptors index).position.toNat + i)) 0 count.toNat k below
      rw [Nat.zero_add] at copied
      rw [copied, position, Nat.min_eq_left (by omega)]

end

def Elf32Phdr.OnPages (phdr : Elf32Phdr) (a : Nat) : Prop :=
  ∃ j < segmentPages phdr.pMemsz, a / pageSize = (phdr.pVaddr + j * 4096) / pageSize

variable {m : Machine} {tables pages : Nat → Option Nat} {phdrs i : Nat} {bytes : Nat → UInt8}
  {phdr : Elf32Phdr}

section

structure Placed (phdr : Elf32Phdr) (phdrs size : Nat) : Prop where
  high : heapBase ≤ phdr.pVaddr
  bound : phdr.pVaddr + phdr.extent ≤ 0x100000000
  aside : ∀ a, phdrs ≤ a → a < phdrs + size → ¬ phdr.OnPages a

theorem mapSegment_returns (mapping : Mapping m allGood tables pages)
    (table : HoldsTable m phdrs bytes size) (inside : 32 * i + 32 ≤ size)
    (record : Elf32Phdr.ofBytes bytes (32 * i) = phdr) (placed : Placed phdr phdrs size)
    {rest : List Nat} {n j : Nat} (count : j + n = segmentPages phdr.pMemsz)
    (below : TablesBelow (phdr.addresses j n ++ rest) m.frameState)
    (left : PagesLeft (phdr.addresses j n ++ rest) m.frameState) :
    ∃ m' tables' pages', mapSegment (phdrs + 32 * i) n j m = some (m', true) ∧
      Mapping m' allGood tables' pages' ∧
      (∀ k, j ≤ k → k < j + n → pages' ((phdr.pVaddr + k * 4096) / pageSize) ≠ none) ∧
      (∀ vp, (∀ k, j ≤ k → k < j + n → vp ≠ (phdr.pVaddr + k * 4096) / pageSize) →
        pages' vp = pages vp) ∧
      (∀ a, ¬ phdr.OnPages a → m'.view allGood a = m.view allGood a) ∧
      TablesBelow rest m'.frameState ∧ PagesLeft rest m'.frameState := by
  induction n generalizing j m tables pages with
  | zero =>
    exact ⟨m, tables, pages, rfl, mapping, fun k low high => by omega, fun _ _ => rfl,
      fun _ _ => rfl, below, left⟩
  | succ n ih =>
    rw [Elf32Phdr.addresses, range'_succ, map_cons, cons_append] at below left
    obtain ⟨page, pmm, allocated, -⟩ := id left
    change pmmAllocPage m.pmm = some (page, pmm) at allocated
    have high := placed.high
    have bound : phdr.pVaddr + j * 4096 < 0x100000000 :=
      segmentPages_below (Nat.le_trans (Nat.add_le_add_left (Nat.le_max_right _ _) _) placed.bound)
        (by omega)
    obtain ⟨m1, tables1, pages1, mapped, mapping1, here, others1, view1, below1, left1⟩ :=
      mapping.mapFreshPage (phdr.pVaddr + j * 4096) (by omega) (.inr rfl) allocated below left
    have offPage : ∀ a, ¬ phdr.OnPages a → m1.view allGood a = m.view allGood a := by
      intro a off
      exact view1 a fun same => off ⟨j, by omega, same⟩
    have table1 := table.congr fun a low high => offPage a (placed.aside a low high)
    obtain ⟨m', tables', pages', returned, mapping', mapped', others', view', rest'⟩ :=
      ih mapping1 table1 (by omega) below1 left1
    refine ⟨m', tables', pages', ?_, mapping', fun k low high => ?_,
      fun vp other => (others' vp fun k low high => other k (by omega) (by omega)).trans
        (others1 vp (other j (Nat.le_refl j) (by omega))),
      fun a off => (view' a off).trans (offPage a off), rest'⟩
    · have vaddr : m.load (phdrs + 32 * i + 8) = some phdr.pVaddr := by
        rw [← record]
        exact table.field i 8 (by omega) (by decide)
      simp only [mapSegment, allocated, vaddr, bind_eq_bind, bind_some,
        word_eq _ bound, mapped]
      exact returned
    · by_cases first : k = j
      · subst first
        rw [others' _ fun later low _ => by simp only [pageSize]; omega, here]
        simp
      · exact mapped' k (by omega) (by omega)

end

/-- The segment in memory is the part of the file that the header names, and zeros. -/
structure InPlace (m : Machine) (phdr : Elf32Phdr) (content : Nat → UInt8) : Prop where
  file : ∀ k < phdr.pFilesz,
    loadByte m (phdr.pVaddr + k) = some (content (phdr.pOffset + k)).toNat
  zeros : ∀ k, phdr.pFilesz ≤ k → k < phdr.pMemsz → loadByte m (phdr.pVaddr + k) = some 0

variable {fileSize : Nat}

section

theorem onPages_word (phdr : Elf32Phdr) (a : Nat) : phdr.OnPages (a / 4 * 4) ↔ phdr.OnPages a := by
  have page : a / 4 * 4 / pageSize = a / pageSize := by
    simp only [pageSize]
    omega
  rw [Elf32Phdr.OnPages, page, Elf32Phdr.OnPages]

theorem InPlace.congr {m' : Machine} (inPlace : InPlace m phdr content)
    (high : heapBase ≤ phdr.pVaddr)
    (same : ∀ k < phdr.extent, m'.view allGood ((phdr.pVaddr + k) / 4 * 4) =
      m.view allGood ((phdr.pVaddr + k) / 4 * 4)) : InPlace m' phdr content where
  file := by
    intro k below
    rw [loadByte_congr (by omega) (same k (Nat.lt_of_lt_of_le below (Nat.le_max_left _ _)))]
    exact inPlace.file k below
  zeros := by
    intro k low below
    rw [loadByte_congr (by omega) (same k (Nat.lt_of_lt_of_le below (Nat.le_max_right _ _)))]
    exact inPlace.zeros k low below

theorem SegmentFits.onPages (fits : SegmentFits phdr) {k : Nat} (inside : k < phdr.extent) :
    phdr.OnPages (phdr.pVaddr + k) := by
  refine ⟨(phdr.pVaddr % 4096 + k) / 4096, ?_, ?_⟩
  · rcases fits with empty | fits <;> omega
  · simp only [pageSize]
    omega

theorem Placed.copies (placed : Placed phdr phdrs size) (fits : SegmentFits phdr)
    (mapping : Mapping m allGood tables pages)
    (mapped : ∀ k < phdr.extent, pages ((phdr.pVaddr + k) / pageSize) ≠ none)
    (first n : Nat) (source : Nat → UInt8) (within : first + n ≤ phdr.extent) :
    ∃ m', storeBytes m (phdr.pVaddr + first) source n = some m' ∧
      Mapping m' allGood tables pages ∧ SameBut m m' ∧
      (∀ a, ¬ phdr.OnPages a → m'.view allGood a = m.view allGood a) ∧
      ∀ k, loadByte m' (phdr.pVaddr + k) = if first ≤ k ∧ k < first + n then
        some (source (k - first)).toNat else loadByte m (phdr.pVaddr + k) := by
  have high := placed.high
  have bound := placed.bound
  obtain ⟨m', stored, mapping', same, view⟩ := mapping.storeBytes (phdr.pVaddr + first) source n
    (by omega) (by omega) (fun a low below => by
      have known := mapped (a - phdr.pVaddr) (by omega)
      rwa [Nat.add_sub_cancel' (by omega)] at known)
  refine ⟨m', stored, mapping', same, fun a off => view a fun k below same => off ?_, fun k => ?_⟩
  · rw [same, onPages_word, Nat.add_assoc]
    exact fits.onPages (by omega)
  · rw [mapping.storeBytes_bytes _ _ _ (by omega) (by omega) stored _ (by omega)]
    by_cases written : first ≤ k ∧ k < first + n
    · rw [if_pos written, if_pos (by omega),
        show phdr.pVaddr + k - (phdr.pVaddr + first) = k - first by omega]
    · rw [if_neg written, if_neg (by omega)]

theorem FileHolds.readPart (holds : FileHolds files fd content fileSize)
    (record : Elf32Phdr.ofBytes bytes (32 * i) = phdr)
    (delivered : phdr.pFilesz = 0 ∨ phdr.pOffset + phdr.pFilesz ≤ fileSize) :
    ∃ files' data, fsRead (seekTo files fd (UInt32.ofNat phdr.pOffset)) fd (some fun _ => 0)
        (UInt32.ofNat phdr.pFilesz) = .ok (files', (phdr.pFilesz : Int), some data) ∧
      FileHolds files' fd content fileSize ∧
      ∀ k < phdr.pFilesz, data k = content (phdr.pOffset + k) := by
  have offsetWord : (UInt32.ofNat phdr.pOffset).toNat = phdr.pOffset := by
    rw [← record]
    simp [Elf32Phdr.ofBytes]
  have filesWord : (UInt32.ofNat phdr.pFilesz).toNat = phdr.pFilesz := by
    rw [← record]
    simp [Elf32Phdr.ofBytes]
  have read := holds.read (UInt32.ofNat phdr.pOffset) (UInt32.ofNat phdr.pFilesz)
  rw [offsetWord, filesWord] at read
  exact read delivered

section

variable (mapping : Mapping m allGood tables pages) (table : HoldsTable m phdrs bytes size)
  (inside : 32 * i + 32 ≤ size) (record : Elf32Phdr.ofBytes bytes (32 * i) = phdr)

include mapping table inside record

theorem readSegment_returns (placed : Placed phdr phdrs size) (fits : SegmentFits phdr)
    (mapped : ∀ k < phdr.extent, pages ((phdr.pVaddr + k) / pageSize) ≠ none)
    (holds : FileHolds files fd content fileSize)
    (delivered : phdr.pFilesz = 0 ∨ phdr.pOffset + phdr.pFilesz ≤ fileSize) :
    ∃ m' files', readSegment ⟨m, files⟩ fd (phdrs + 32 * i) = some (⟨m', files'⟩, true) ∧
      Mapping m' allGood tables pages ∧ SameBut m m' ∧ FileHolds files' fd content fileSize ∧
      InPlace m' phdr content ∧ ∀ a, ¬ phdr.OnPages a → m'.view allGood a = m.view allGood a := by
  have high := placed.high
  have bound := placed.bound
  have extent : phdr.pFilesz ≤ phdr.extent ∧ phdr.pMemsz ≤ phdr.extent :=
    ⟨Nat.le_max_left _ _, Nat.le_max_right _ _⟩
  obtain ⟨files', data, read, holds', part⟩ := holds.readPart record delivered
  obtain ⟨m1, stored, mapping1, same1, view1, byte1⟩ :=
    placed.copies fits mapping mapped 0 phdr.pFilesz data (by omega)
  have table1 := table.congr fun a low below => view1 a (placed.aside a low below)
  obtain ⟨-, word4, word8, word16, -⟩ := table.header inside record
  obtain ⟨-, -, -, again16, word20⟩ := table1.header inside record
  have first := fsReadTo_returns (by simp only [heapBase] at high; omega) read stored
  rw [Nat.add_zero] at first
  have complete : ¬ ((phdr.pFilesz : Int) < 0 ∨ (phdr.pFilesz : Int).toNat ≠ phdr.pFilesz) := by
    omega
  simp only [readSegment, word4, word8, word16, first, again16, word20, bind_eq_bind,
    bind_some, if_neg complete]
  by_cases larger : phdr.pFilesz < phdr.pMemsz
  · obtain ⟨m2, zeroed, mapping2, same2, view2, byte2⟩ := placed.copies fits mapping1 mapped
      phdr.pFilesz (phdr.pMemsz - phdr.pFilesz) (fun _ => 0) (by omega)
    refine ⟨m2, files', ?_, mapping2, same1.trans same2, holds', ⟨fun k below => ?_,
      fun k low below => ?_⟩, fun a off => (view2 a off).trans (view1 a off)⟩
    · rw [if_pos larger, word_eq _ (by omega), zeroed]
      rfl
    · rw [byte2, if_neg (by omega), byte1, if_pos (by omega), Nat.sub_zero, part k below]
    · rw [byte2, if_pos (by omega)]
      rfl
  · refine ⟨m1, files', ?_, mapping1, same1, holds', ⟨fun k below => ?_, fun k low below => ?_⟩, view1⟩
    · rw [if_neg larger]
      rfl
    · rw [byte1, if_pos (by omega), Nat.sub_zero, part k below]
    · omega

theorem loadSegment_returns (isLoad : phdr.pType = ptLoad) (placed : Placed phdr phdrs size)
    (fits : SegmentFits phdr) (holds : FileHolds files fd content fileSize)
    (delivered : phdr.pFilesz = 0 ∨ phdr.pOffset + phdr.pFilesz ≤ fileSize) {rest : List Nat}
    (below : TablesBelow (phdr.addresses 0 (segmentPages phdr.pMemsz) ++ rest) m.frameState)
    (left : PagesLeft (phdr.addresses 0 (segmentPages phdr.pMemsz) ++ rest) m.frameState) :
    ∃ m' files' tables' pages',
      loadSegment ⟨m, files⟩ fd (phdrs + 32 * i) = some (⟨m', files'⟩, true) ∧
      Mapping m' allGood tables' pages' ∧ FileHolds files' fd content fileSize ∧
      InPlace m' phdr content ∧ (∀ a, ¬ phdr.OnPages a → m'.view allGood a = m.view allGood a) ∧
      TablesBelow rest m'.frameState ∧ PagesLeft rest m'.frameState := by
  obtain ⟨m1, tables1, pages1, mapped, mapping1, known, -, view1, below1, left1⟩ :=
    mapSegment_returns mapping table inside record placed (Nat.zero_add _) below left
  have table1 := table.congr fun a low high => view1 a (placed.aside a low high)
  have mapped1 : ∀ k < phdr.extent, pages1 ((phdr.pVaddr + k) / pageSize) ≠ none := by
    intro k within
    obtain ⟨j, few, same⟩ := fits.onPages within
    rw [same]
    exact known j (Nat.zero_le j) (by omega)
  obtain ⟨m2, files', read, mapping2, same2, holds', inPlace, view2⟩ := readSegment_returns mapping1
    table1 inside record placed fits mapped1 holds delivered
  obtain ⟨type, -, -, -, memsz⟩ := table.header inside record
  refine ⟨m2, files', tables1, pages1, ?_, mapping2, holds', inPlace,
    fun a off => (view2 a off).trans (view1 a off), ?_, ?_⟩
  · simp only [loadSegment, type, memsz, isLoad, mapped, read, bind_eq_bind,
      bind_some, ne_eq, not_true_eq_false, if_false, if_true]
  · rw [same2.frameState]
    exact below1
  · rw [same2.frameState]
    exact left1

end

end

def phdrAt (bytes : Nat → UInt8) (i : Nat) : Elf32Phdr := Elf32Phdr.ofBytes bytes (32 * i)

-- The rest of a program, from header `i` on: every segment has a place of its own, the
-- file delivers it, and frames are left.
structure Loadable (m : Machine) (files : FileSystem) (fd : Int) (phdrs size : Nat)
    (bytes content : Nat → UInt8) (fileSize i n : Nat) : Prop where
  mapping : ∃ tables pages, Mapping m allGood tables pages
  table : HoldsTable m phdrs bytes size
  inside : 32 * (i + n) ≤ size
  file : FileHolds files fd content fileSize
  placed : ∀ k, i ≤ k → k < i + n → (phdrAt bytes k).pType = ptLoad →
    Placed (phdrAt bytes k) phdrs size
  delivered : ∀ k, i ≤ k → k < i + n → (phdrAt bytes k).pType = ptLoad →
    (phdrAt bytes k).pFilesz = 0 ∨
      (phdrAt bytes k).pOffset + (phdrAt bytes k).pFilesz ≤ fileSize
  apart : ∀ j k, i ≤ j → j < k → k < i + n → (phdrAt bytes j).pType = ptLoad →
    (phdrAt bytes k).pType = ptLoad →
      ∀ b < (phdrAt bytes j).extent, ¬ (phdrAt bytes k).OnPages ((phdrAt bytes j).pVaddr + b)
  below : TablesBelow (loadedPages bytes i n) m.frameState
  left : PagesLeft (loadedPages bytes i n) m.frameState

section

variable {m' : Machine} {files' : FileSystem} {n : Nat}

theorem loadedPages_succ (bytes : Nat → UInt8) (i n : Nat) : loadedPages bytes i (n + 1) =
    (if (phdrAt bytes i).pType = ptLoad then
      (phdrAt bytes i).addresses 0 (segmentPages (phdrAt bytes i).pMemsz) else []) ++
      loadedPages bytes (i + 1) n := by
  rw [loadedPages, range'_succ, flatMap_cons]
  rfl

section

variable (loadable : Loadable m files fd phdrs size bytes content fileSize i (n + 1))

include loadable

theorem Loadable.next (mapping : ∃ tables pages, Mapping m' allGood tables pages)
    (table : HoldsTable m' phdrs bytes size) (file : FileHolds files' fd content fileSize)
    (below : TablesBelow (loadedPages bytes (i + 1) n) m'.frameState)
    (left : PagesLeft (loadedPages bytes (i + 1) n) m'.frameState) :
    Loadable m' files' fd phdrs size bytes content fileSize (i + 1) n where
  mapping := mapping
  table := table
  inside := by
    have inside := loadable.inside
    omega
  file := file
  placed := fun k low high => loadable.placed k (by omega) (by omega)
  delivered := fun k low high => loadable.delivered k (by omega) (by omega)
  apart := fun j k low later high => loadable.apart j k (by omega) later (by omega)
  below := below
  left := left

theorem Loadable.step (fits : (phdrAt bytes i).pType = ptLoad → SegmentFits (phdrAt bytes i)) :
    ∃ m' files', loadSegment ⟨m, files⟩ fd (phdrs + 32 * i) = some (⟨m', files'⟩, true) ∧
      Loadable m' files' fd phdrs size bytes content fileSize (i + 1) n ∧
      ((phdrAt bytes i).pType = ptLoad → InPlace m' (phdrAt bytes i) content) ∧
      ∀ a, ((phdrAt bytes i).pType = ptLoad → ¬ (phdrAt bytes i).OnPages a) →
        m'.view allGood a = m.view allGood a := by
  obtain ⟨tables, pages, mapping⟩ := loadable.mapping
  have inside := loadable.inside
  have below := loadable.below
  have left := loadable.left
  rw [loadedPages_succ] at below left
  by_cases isLoad : (phdrAt bytes i).pType = ptLoad
  · rw [if_pos isLoad] at below left
    have placed := loadable.placed i (Nat.le_refl i) (by omega) isLoad
    obtain ⟨m1, files1, tables1, pages1, loaded, mapping1, holds1, inPlace, view1, below1, left1⟩ :=
      loadSegment_returns mapping loadable.table (by omega) rfl isLoad placed (fits isLoad)
        loadable.file (loadable.delivered i (Nat.le_refl i) (by omega) isLoad) below left
    have table1 := loadable.table.congr fun a low high => view1 a (placed.aside a low high)
    exact ⟨m1, files1, loaded, loadable.next ⟨tables1, pages1, mapping1⟩ table1 holds1 below1 left1,
      fun _ => inPlace, fun a off => view1 a (off isLoad)⟩
  · rw [if_neg isLoad, nil_append] at below left
    refine ⟨m, files, ?_, loadable.next loadable.mapping loadable.table loadable.file below left,
      fun loads => absurd loads isLoad, fun _ _ => rfl⟩
    have type : m.load (phdrs + 32 * i) = some (phdrAt bytes i).pType :=
      loadable.table.field i 0 (by omega) (by decide)
    simp only [loadSegment, type, bind_eq_bind, bind_some, ne_eq, isLoad,
      not_false_eq_true, if_true]
    rfl

end

theorem loadSegments_returns
    (loadable : Loadable m files fd phdrs size bytes content fileSize i n)
    (fits : ∀ k, i ≤ k → k < i + n → (phdrAt bytes k).pType = ptLoad →
      SegmentFits (phdrAt bytes k)) :
    ∃ s', loadSegments fd phdrs n i ⟨m, files⟩ = some (s', true) ∧
      (∀ k, i ≤ k → k < i + n → (phdrAt bytes k).pType = ptLoad →
        InPlace s'.machine (phdrAt bytes k) content) ∧
      ∀ a, (∀ k, i ≤ k → k < i + n → (phdrAt bytes k).pType = ptLoad →
        ¬ (phdrAt bytes k).OnPages a) → s'.machine.view allGood a = m.view allGood a := by
  induction n generalizing i m files with
  | zero => exact ⟨⟨m, files⟩, rfl, fun k low high => by omega, fun _ _ => rfl⟩
  | succ n ih =>
    obtain ⟨m1, files1, first, loadable1, inPlace, view1⟩ :=
      loadable.step (fits i (Nat.le_refl i) (by omega))
    obtain ⟨s', others, inPlaces, view'⟩ := ih loadable1 fun k low high => fits k (by omega) (by omega)
    refine ⟨s', ?_, fun k low high isLoad => ?_, fun a off => ?_⟩
    · simp only [loadSegments, first, bind_eq_bind, bind_some, if_true]
      exact others
    · by_cases here : k = i
      · -- The later segments map other pages than those of this one.
        subst here
        have placed := loadable.placed k low high isLoad
        refine (inPlace isLoad).congr placed.high fun b within => view' _ fun k' low' high' isLoad' => ?_
        rw [onPages_word]
        exact loadable.apart k k' low (by omega) (by omega) isLoad isLoad' b within
      · exact inPlaces k (by omega) (by omega) isLoad
    · rw [view' a fun k low high => off k (by omega) (by omega)]
      exact view1 a (off i (Nat.le_refl i) (by omega))

end

def fileContent (files : FileSystem) (fd : Int) (size : Nat) : Option (Nat → UInt8) :=
  match openFile files fd modeRead with
  | none => none
  | some (index, slot) =>
    match (files.inodes slot).data with
    | .buffer content =>
      if (files.inodes slot).size.toNat = size ∧ (files.fileDescriptors index).size.toNat = size then
        some content
      else none
    | _ => none

theorem fileHolds_of_content {files : FileSystem} {fd : Int} {size : Nat} {content : Nat → UInt8}
    (known : fileContent files fd size = some content) (small : size ≤ maxFileSize) :
    FileHolds files fd content size := by
  unfold fileContent at known
  split at known
  · contradiction
  · next index slot opened =>
    split at known
    · next data =>
      split at known
      · next sizes =>
        cases known
        exact ⟨small, index, slot, opened, data, sizes⟩
      · contradiction
    · contradiction

/-- Every byte that is written lies on a page mapped for its segment, and in the end every
segment is in place. -/
structure SegmentsLoad (m : Machine) (files : FileSystem) (fd : Int) (phdrs : Nat)
    (bytes content : Nat → UInt8) (n : Nat) : Prop where
  covered : ∀ i < n, (phdrAt bytes i).pType = ptLoad →
    ∀ k < (phdrAt bytes i).extent, (phdrAt bytes i).Covers k
  inPlace : ∃ s', loadSegments fd phdrs n 0 ⟨m, files⟩ = some (s', true) ∧
    ∀ i < n, (phdrAt bytes i).pType = ptLoad → InPlace s'.machine (phdrAt bytes i) content

end ArgoOS.Elf
