import Mathlib
import ArgoOS.Fs.Disk
import ArgoOS.Fs.Tree

set_option autoImplicit false

/-! # The image that a save writes -/

namespace ArgoOS.Fs

open List Bytes DiskInode UInt32

theorem sectorsFor_toNat (bytes : UInt32) (small : bytes.toNat ≤ 2 ^ 17) :
    (sectorsFor bytes).toNat = (bytes.toNat + 511) / 512 := by
  have add : (bytes + 512).toNat = bytes.toNat + 512 := by
    rw [UInt32.toNat_add, show (512 : UInt32).toNat = 512 from rfl]
    omega
  rw [sectorsFor, UInt32.toNat_div, UInt32.toNat_sub_of_le _ _ (by
    rw [le_iff_toNat_le, add, show (1 : UInt32).toNat = 1 from rfl]
    omega), add]
  rfl

theorem inodeSectors_toNat (count : Nat) (small : count ≤ 256) :
    (inodeSectors (UInt32.ofNat count)).toNat = (count * 280 + 511) / 512 := by
  have product : (UInt32.ofNat count * 280).toNat = count * 280 := by
    rw [UInt32.toNat_mul, toNat_ofNat', show (280 : UInt32).toNat = 280 from rfl]
    omega
  rw [inodeSectors, sectorsFor_toNat _ (by omega), product]

theorem toUInt8_toNat (x : UInt32) (small : x.toNat < 256) : x.toUInt8.toNat = x.toNat := by
  rw [toNat_toUInt8]
  exact Nat.mod_eq_of_lt small

theorem tableSectors_toNat (count : Nat) (small : count ≤ 256) :
    (inodeSectors (UInt32.ofNat count)).toUInt8.toNat = (count * 280 + 511) / 512 := by
  have sectors := inodeSectors_toNat count small
  rw [toUInt8_toNat _ (by omega), sectors]

variable {lba : UInt32} {index j : Nat} {state : SaveState} {file : Nat → Transfer}
    {slots : List Slot}

theorem sectorAddress_eq (small : lba.toNat < 2 ^ 28) : sectorAddress lba = 512 * lba.toNat := by
  rw [sectorAddress, Nat.mod_eq_of_lt small]
  rfl

variable {slot : Slot}

section

variable (fs : FileSystem)

def nextLba (lba : UInt32) (slot : Slot) : UInt32 :=
  if hasContent fs slot then lba + sectorsFor (fs.inodes slot).size else lba

structure SavedInode (slot : Slot) (index : Nat) (before after : SaveState) : Prop where
  table : after.table = (diskInode fs slot before.dataLba).store before.table index
  dataLba : after.dataLba = nextLba fs before.dataLba slot
  empty : hasContent fs slot = false → after.disk = before.disk
  content : hasContent fs slot = true → ∃ bytes, (fs.inodes slot).data = .buffer bytes ∧
    after.disk = Bytes.copy before.disk (sectorAddress before.dataLba) bytes
      (512 * (sectorsFor (fs.inodes slot).size).toUInt8.toNat)

omit fs in
theorem ataWriteSectors_ok {disk : Disk} {count : UInt8} {buffer : Nat → UInt8}
    {transfer : Transfer} (done : (ataWriteSectors disk lba count buffer transfer).2 = true) :
    (ataWriteSectors disk lba count buffer transfer).1 =
      copy disk (sectorAddress lba) buffer (512 * count.toNat) := by
  unfold ataWriteSectors at done ⊢
  split at done
  · contradiction
  · next positive =>
    cases transfer with
    | complete => rw [if_neg positive]; rfl
    | stopped _ => simp [Transfer.ok] at done

theorem saveInode_saved {transfer : Transfer} {saved : SaveState}
    (returned : saveInode fs transfer index slot state = .ok (saved, true)) :
    SavedInode fs slot index state saved := by
  simp only [saveInode] at returned
  split at returned
  · next content =>
    split at returned
    · next bytes data =>
      split at returned
      · simp only [Except.ok.injEq, Prod.mk.injEq] at returned
        obtain ⟨rfl, done⟩ := returned
        refine ⟨rfl, by simp [nextLba, content], by simp [content], fun _ => ⟨bytes, data, ?_⟩⟩
        exact ataWriteSectors_ok done
      · contradiction
    · contradiction
  · next empty =>
    cases returned
    exact ⟨rfl, by simp [nextLba, empty], fun _ => rfl, fun content => absurd content empty⟩

theorem saveInodes_cons {saved : SaveState}
    (returned : saveInodes fs file index (slot :: slots) state = .ok (saved, true)) :
    ∃ next, SavedInode fs slot index state next ∧
      saveInodes fs file (index + 1) slots next = .ok (saved, true) := by
  simp only [saveInodes] at returned
  split at returned
  · contradiction
  · simp at returned
  · next next one => exact ⟨next, saveInode_saved fs one, returned⟩

theorem saveInodes_table {saved : SaveState}
    (returned : saveInodes fs file index slots state = .ok (saved, true)) :
    (∀ other < index, load saved.table other = load state.table other) ∧
    ∀ j (inside : j < slots.length), load saved.table (index + j) =
      diskInode fs slots[j] ((slots.take j).foldl (nextLba fs) state.dataLba) := by
  induction slots generalizing index state with
  | nil =>
    cases returned
    exact ⟨fun _ _ => rfl, fun _ inside => absurd inside (Nat.not_lt_zero _)⟩
  | cons slot slots ih =>
    obtain ⟨next, one, rest⟩ := saveInodes_cons fs returned
    obtain ⟨earlier, later⟩ := ih rest
    constructor
    · intro other before
      rw [earlier other (by omega), one.table, load_store_other _ _ (by omega)]
    · intro j inside
      cases j with
      | zero =>
        rw [Nat.add_zero, earlier index (by omega), one.table, load_store]
        rfl
      | succ j =>
        have entry := later j (by simpa using inside)
        rw [one.dataLba] at entry
        rw [show index + (j + 1) = index + 1 + j by omega, entry]
        rfl

def contentSectors (slot : Slot) : Nat :=
  if hasContent fs slot then (sectorsFor (fs.inodes slot).size).toNat else 0

/-- The first sector of the `j`-th inode when the data of the first one starts at `start`. -/
def lbaAt (start : Nat) (slots : List Slot) (j : Nat) : Nat :=
  start + ((slots.take j).map (contentSectors fs)).sum

@[simp] theorem lbaAt_zero (start : Nat) (slots : List Slot) : lbaAt fs start slots 0 = start := by
  simp [lbaAt]

@[simp] theorem lbaAt_succ (start : Nat) (slot : Slot) (slots : List Slot) (j : Nat) :
    lbaAt fs start (slot :: slots) (j + 1) =
      lbaAt fs (start + contentSectors fs slot) slots j := by
  simp [lbaAt, Nat.add_assoc]

theorem lbaAt_mono (start : Nat) (slots : List Slot) {i : Nat} (le : i ≤ j) :
    lbaAt fs start slots i ≤ lbaAt fs start slots j := by
  induction slots generalizing start i j with
  | nil => simp [lbaAt]
  | cons slot slots ih =>
    cases j with
    | zero =>
      cases Nat.le_zero.mp le
      exact Nat.le_refl _
    | succ j =>
      cases i with
      | zero =>
        have tail := ih (start + contentSectors fs slot) (Nat.zero_le j)
        rw [lbaAt_zero] at tail
        rw [lbaAt_zero, lbaAt_succ]
        omega
      | succ i =>
        rw [lbaAt_succ, lbaAt_succ]
        exact ih _ (by omega)

theorem lbaAt_next (start : Nat) (inside : j < slots.length) :
    lbaAt fs start slots (j + 1) = lbaAt fs start slots j + contentSectors fs slots[j] := by
  rw [lbaAt, lbaAt, take_succ_eq_append_getElem inside, map_append, sum_append,
    Nat.add_assoc]
  simp

theorem lbaAt_first (start : Nat) (member : slot ∈ slots) (content : hasContent fs slot = true) :
    ∃ (j : Nat) (inside : j < slots.length),
      hasContent fs slots[j] = true ∧ lbaAt fs start slots j = start := by
  induction slots with
  | nil => simp at member
  | cons head slots ih =>
    by_cases first : hasContent fs head = true
    · exact ⟨0, by simp, first, lbaAt_zero fs _ _⟩
    · obtain rfl | member := mem_cons.mp member
      · contradiction
      · obtain ⟨j, inside, found, start⟩ := ih member
        refine ⟨j + 1, by simpa using inside, found, ?_⟩
        rw [lbaAt_succ, contentSectors, if_neg first]
        exact start

variable
  (sizes : ∀ slot, (fs.inodes slot).valid = true → (fs.inodes slot).type = typeFile → (fs.inodes slot).size.toNat ≤ maxFileSize)

theorem hasContent_spec (content : hasContent fs slot = true) :
    (fs.inodes slot).type = typeFile ∧ 0 < (fs.inodes slot).size := by
  simp only [hasContent, Bool.and_eq_true, beq_iff_eq, decide_eq_true_eq] at content
  exact ⟨content.1.1, content.2⟩

include sizes

theorem contentSectors_eq (valid : (fs.inodes slot).valid = true)
    (content : hasContent fs slot = true) :
    contentSectors fs slot = ((fs.inodes slot).size.toNat + 511) / 512 ∧
    0 < contentSectors fs slot ∧ contentSectors fs slot ≤ 128 := by
  obtain ⟨isFile, positive⟩ := hasContent_spec fs content
  have bound : (fs.inodes slot).size.toNat ≤ 65536 := sizes slot valid isFile
  have positive' : 0 < (fs.inodes slot).size.toNat := lt_iff_toNat_lt.mp positive
  rw [contentSectors, if_pos content, sectorsFor_toNat _ (by omega)]
  omega

theorem contentSectors_le (valid : (fs.inodes slot).valid = true) :
    contentSectors fs slot ≤ 128 := by
  by_cases content : hasContent fs slot = true
  · exact (contentSectors_eq fs sizes valid content).2.2
  · simp [contentSectors, content]

theorem lbaAt_le (start : Nat) (valid : ∀ slot ∈ slots, (fs.inodes slot).valid = true) (j : Nat) :
    lbaAt fs start slots j ≤ start + 128 * slots.length := by
  induction slots generalizing start j with
  | nil => simp [lbaAt]
  | cons slot slots ih =>
    have one := contentSectors_le fs sizes (valid slot (by simp))
    cases j with
    | zero =>
      rw [lbaAt_zero]
      omega
    | succ j =>
      have rest := ih (start + contentSectors fs slot)
        (fun other member => valid other (by simp [member])) j
      rw [lbaAt_succ, length_cons]
      omega

theorem nextLba_toNat (lba : UInt32) (valid : (fs.inodes slot).valid = true)
    (small : lba.toNat + 128 < 2 ^ 32) :
    (nextLba fs lba slot).toNat = lba.toNat + contentSectors fs slot := by
  by_cases content : hasContent fs slot = true
  · have bound := (contentSectors_eq fs sizes valid content).2.2
    rw [contentSectors, if_pos content] at bound ⊢
    rw [nextLba, if_pos content, UInt32.toNat_add]
    omega
  · simp [nextLba, contentSectors, content]

theorem foldl_nextLba (valid : ∀ slot ∈ slots, (fs.inodes slot).valid = true)
    (small : lba.toNat + 128 * slots.length < 2 ^ 28) (j : Nat) :
    ((slots.take j).foldl (nextLba fs) lba).toNat = lbaAt fs lba.toNat slots j := by
  induction slots generalizing lba j with
  | nil => simp [lbaAt]
  | cons slot slots ih =>
    cases j with
    | zero => simp
    | succ j =>
      rw [length_cons] at small
      have first := valid slot (by simp)
      have one := contentSectors_le fs sizes first
      have next := nextLba_toNat fs sizes lba first (by omega)
      rw [take_succ_cons, foldl_cons, lbaAt_succ, ← next]
      exact ih (fun other member => valid other (by simp [member])) (by omega) j

section

variable {fs} {slot : Slot} {index : Nat} {before after : SaveState}
  (one : SavedInode fs slot index before after) (valid : (fs.inodes slot).valid = true)
  (small : before.dataLba.toNat < 2 ^ 28)

include one valid small

theorem SavedInode.disk_copy (content : hasContent fs slot = true) :
    ∃ bytes, (fs.inodes slot).data = .buffer bytes ∧ after.disk =
      copy before.disk (512 * before.dataLba.toNat) bytes (512 * contentSectors fs slot) := by
  obtain ⟨bytes, data, written⟩ := one.content content
  have bound := (contentSectors_eq fs sizes valid content).2.2
  rw [contentSectors, if_pos content] at bound ⊢
  rw [sectorAddress_eq small, toUInt8_toNat _ (by omega)] at written
  exact ⟨bytes, data, written⟩

theorem SavedInode.disk_outside (b : Nat) (outside : b < 512 * before.dataLba.toNat ∨
    512 * (before.dataLba.toNat + contentSectors fs slot) ≤ b) :
    after.disk b = before.disk b := by
  by_cases content : hasContent fs slot = true
  · obtain ⟨bytes, -, written⟩ := one.disk_copy sizes valid small content
    rw [written, copy_outside _ _ _ _ _ (by omega)]
  · rw [one.empty (by simpa using content)]

theorem SavedInode.disk_inside (content : hasContent fs slot = true) (bytes : Nat → UInt8)
    (data : (fs.inodes slot).data = .buffer bytes) (b : Nat)
    (inside : b < 512 * contentSectors fs slot) :
    after.disk (512 * before.dataLba.toNat + b) = bytes b := by
  obtain ⟨bytes', data', written⟩ := one.disk_copy sizes valid small content
  rw [data] at data'
  cases data'
  rw [written, copy_inside _ _ _ _ _ inside]

end

theorem saveInodes_disk {saved : SaveState}
    (returned : saveInodes fs file index slots state = .ok (saved, true))
    (valid : ∀ slot ∈ slots, (fs.inodes slot).valid = true)
    (small : state.dataLba.toNat + 128 * slots.length < 2 ^ 28) :
    (∀ b, b < 512 * state.dataLba.toNat ∨
      512 * lbaAt fs state.dataLba.toNat slots slots.length ≤ b → saved.disk b = state.disk b) ∧
    ∀ j (inside : j < slots.length), hasContent fs slots[j] = true → ∀ bytes,
      (fs.inodes slots[j]).data = .buffer bytes → ∀ b < 512 * contentSectors fs slots[j],
      saved.disk (512 * lbaAt fs state.dataLba.toNat slots j + b) = bytes b := by
  induction slots generalizing index state with
  | nil =>
    cases returned
    exact ⟨fun _ _ => rfl, fun _ inside => absurd inside (Nat.not_lt_zero _)⟩
  | cons slot slots ih =>
    obtain ⟨next, one, rest⟩ := saveInodes_cons fs returned
    have first := valid slot (by simp)
    have bound := contentSectors_le fs sizes first
    rw [length_cons] at small
    have lba := nextLba_toNat fs sizes state.dataLba first (by omega)
    rw [← one.dataLba] at lba
    obtain ⟨outside, contents⟩ := ih rest
      (fun other member => valid other (by simp [member])) (by omega)
    rw [lba] at outside contents
    have grows := lbaAt_mono fs (state.dataLba.toNat + contentSectors fs slot) slots
      (Nat.zero_le slots.length)
    rw [lbaAt_zero] at grows
    constructor
    · intro b away
      rw [length_cons, lbaAt_succ] at away
      rw [outside b (by omega), one.disk_outside sizes first (by omega) b (by omega)]
    · intro j inside content bytes data b within
      cases j with
      | zero =>
        rw [lbaAt_zero]
        rw [getElem_cons_zero] at content data within
        rw [outside _ (by omega)]
        exact one.disk_inside sizes first (by omega) content bytes data b within
      | succ j =>
        rw [lbaAt_succ]
        exact contents j (by simpa using inside) content bytes data b within

end

section

variable (fs : FileSystem)

def validInodes : List Slot :=
  (List.finRange 320).filter (fun slot => (fs.inodes slot).valid)

def validCount : Nat :=
  (validInodes fs).length

theorem mem_validInodes (slot : Slot) :
    slot ∈ validInodes fs ↔ (fs.inodes slot).valid = true := by
  simp [validInodes]

theorem validInodes_nodup : (validInodes fs).Nodup :=
  (nodup_finRange 320).filter _

theorem collectInodes_valid (slot : Slot) (member : slot ∈ collectInodes fs) :
    (fs.inodes slot).valid = true :=
  (mem_validInodes fs slot).mp (mem_of_mem_take member)

theorem collectInodes_nodup : (collectInodes fs).Nodup :=
  (validInodes_nodup fs).sublist (take_sublist _ _)

theorem collectInodes_length : (collectInodes fs).length = min 256 (validCount fs) :=
  length_take

theorem collectInodes_sectors : dataBlocksLba.toNat + 128 * (collectInodes fs).length < 2 ^ 28 := by
  have count := collectInodes_length fs
  rw [show dataBlocksLba.toNat = 65 from rfl]
  omega

theorem collectInodes_all (few : validCount fs ≤ 256) : collectInodes fs = validInodes fs :=
  take_of_length_le few

end

def imageCount (disk : Disk) : Nat :=
  (Superblock.load disk).inodeCount.toNat

def tableEntry (disk : Disk) (index : Nat) : DiskInode :=
  DiskInode.load (fun i => disk (512 + i)) index

variable {io : SaveIo} {disk : Disk}

section

variable {fs : FileSystem} {after : Disk} (saved : fsSave fs io disk = .ok (after, 0))

include saved

theorem fsSave_returned : ∃ final, fs.initialized = true ∧ collectInodes fs ≠ [] ∧
    saveInodes fs io.file 0 (collectInodes fs)
      { disk := copy disk 0 (superblockFor (collectInodes fs).length).store 512
        table := fun _ => 0
        dataLba := dataBlocksLba } = .ok (final, true) ∧
    after = copy final.disk 512 final.table
      (512 * (inodeSectors (UInt32.ofNat (collectInodes fs).length)).toUInt8.toNat) := by
  simp only [fsSave] at saved
  split at saved
  · simp at saved
  · next ready =>
    rw [not_or] at ready
    split at saved
    · simp at saved
    · next marked =>
      rw [not_or, Bool.not_eq_false] at marked
      have first := ataWriteSectors_ok marked.1
      rw [first] at saved
      split at saved
      · contradiction
      · simp at saved
      · next final looped =>
        simp only [Except.ok.injEq, Prod.mk.injEq] at saved
        obtain ⟨rfl, result⟩ := saved
        refine ⟨final, by simpa using ready.1, ready.2, looped, ?_⟩
        split at result
        · next done => exact ataWriteSectors_ok done
        · simp at result

theorem fsSave_entry (j : Nat) (inside : j < (collectInodes fs).length) :
    tableEntry after j = diskInode fs (collectInodes fs)[j]
      (((collectInodes fs).take j).foldl (nextLba fs) dataBlocksLba) := by
  obtain ⟨final, -, -, looped, rfl⟩ := fsSave_returned saved
  have count := collectInodes_length fs
  have sectors := tableSectors_toNat (collectInodes fs).length (by omega)
  have entry := (saveInodes_table fs looped).2 j inside
  rw [Nat.zero_add] at entry
  rw [← entry]
  apply load_agree
  intro i within
  apply copy_inside
  rw [sectors]
  unfold diskInodeSize
  omega

variable
  (sizes : ∀ slot, (fs.inodes slot).valid = true → (fs.inodes slot).type = typeFile → (fs.inodes slot).size.toNat ≤ maxFileSize)

include sizes

theorem fsSave_superblock : Superblock.load after = superblockFor (collectInodes fs).length := by
  obtain ⟨final, -, -, looped, rfl⟩ := fsSave_returned saved
  have count := collectInodes_length fs
  have kept := (saveInodes_disk fs sizes looped (collectInodes_valid fs)
    (collectInodes_sectors fs)).1
  rw [← Superblock.load_store (superblockFor (collectInodes fs).length)]
  apply Superblock.load_agree
  intro i inside
  rw [Nat.zero_add, copy_outside _ _ _ _ _ (by omega),
    kept i (by rw [show dataBlocksLba.toNat = 65 from rfl]; omega)]
  simpa using copy_inside disk _ 0 512 i (by omega)

theorem fsSave_count : imageCount after = (collectInodes fs).length := by
  have count := collectInodes_length fs
  rw [imageCount, fsSave_superblock saved sizes]
  simp only [superblockFor, toNat_ofNat']
  omega

omit after saved in
theorem fsSave_lba (j : Nat) :
    (((collectInodes fs).take j).foldl (nextLba fs) dataBlocksLba).toNat =
      lbaAt fs 65 (collectInodes fs) j :=
  foldl_nextLba fs sizes (collectInodes_valid fs) (collectInodes_sectors fs) j

-- The table is written last, so a file keeps its sectors if they lie behind the table.
theorem fsSave_content (inside : j < (collectInodes fs).length)
    (content : hasContent fs (collectInodes fs)[j] = true) {bytes : Nat → UInt8}
    (data : (fs.inodes (collectInodes fs)[j]).data = .buffer bytes)
    (behind : (collectInodes fs).length ≤ 117) (b : Nat)
    (within : b < 512 * contentSectors fs (collectInodes fs)[j]) :
    after (512 * lbaAt fs 65 (collectInodes fs) j + b) = bytes b := by
  obtain ⟨final, -, -, looped, rfl⟩ := fsSave_returned saved
  have sectors := tableSectors_toNat (collectInodes fs).length (by omega)
  have start := lbaAt_mono fs 65 (collectInodes fs) (Nat.zero_le j)
  rw [lbaAt_zero] at start
  rw [copy_outside _ _ _ _ _ (by omega)]
  exact (saveInodes_disk fs sizes looped (collectInodes_valid fs)
    (collectInodes_sectors fs)).2 j inside content bytes data b within

end

structure SectorRange where
  first : Nat
  count : Nat

def SectorRange.Apart (a b : SectorRange) : Prop :=
  a.first + a.count ≤ b.first ∨ b.first + b.count ≤ a.first

def entryExtent (d : DiskInode) : Option SectorRange :=
  if d.dataLba = 0 then none
  else some { first := d.dataLba.toNat, count := (sectorsFor d.size).toNat }

def imageRanges (disk : Disk) : List SectorRange :=
  { first := 0, count := 1 } ::
  { first := 1, count := (inodeSectors (UInt32.ofNat (imageCount disk))).toNat } ::
  (List.range (imageCount disk)).filterMap (fun index => entryExtent (tableEntry disk index))

structure EntryOf (fs : FileSystem) (slot : Slot) (disk : Disk) (d : DiskInode) : Prop where
  name : d.name = (fs.inodes slot).name
  type : d.type = (fs.inodes slot).type
  size : d.size = (fs.inodes slot).size
  inodeNum : d.inodeNum = (fs.inodes slot).inodeNum
  parentInode : d.parentInode = parentNum fs slot
  valid : d.valid = 1
  content : hasContent fs slot = true → ∀ bytes, (fs.inodes slot).data = .buffer bytes →
    ∀ b < (fs.inodes slot).size.toNat, disk (512 * d.dataLba.toNat + b) = bytes b

/-- Every valid inode has an entry of its own, no two ranges of sectors meet and every file's
sectors hold its bytes. -/
structure SaveSound (fs : FileSystem) (disk : Disk) : Prop where
  entries : ∃ entry : Slot → Nat,
    (∀ slot, (fs.inodes slot).valid = true →
      entry slot < imageCount disk ∧ EntryOf fs slot disk (tableEntry disk (entry slot))) ∧
    ∀ first second, (fs.inodes first).valid = true → (fs.inodes second).valid = true →
      entry first = entry second → first = second
  apart : (imageRanges disk).Pairwise SectorRange.Apart

section

variable {fs : FileSystem} {after : Disk} (saved : fsSave fs io disk = .ok (after, 0))
  (sizes : ∀ slot, (fs.inodes slot).valid = true → (fs.inodes slot).type = typeFile → (fs.inodes slot).size.toNat ≤ maxFileSize)

include saved sizes

theorem fsSave_extent (inside : j < (collectInodes fs).length) :
    entryExtent (tableEntry after j) = if hasContent fs (collectInodes fs)[j] then
      some { first := lbaAt fs 65 (collectInodes fs) j
             count := contentSectors fs (collectInodes fs)[j] } else none := by
  have lba := fsSave_lba sizes j
  have start := lbaAt_mono fs 65 (collectInodes fs) (Nat.zero_le j)
  rw [lbaAt_zero] at start
  rw [fsSave_entry saved j inside, entryExtent]
  by_cases content : hasContent fs (collectInodes fs)[j] = true
  · have nonzero : ((collectInodes fs).take j).foldl (nextLba fs) dataBlocksLba ≠ 0 := by
      intro zero
      rw [zero, show (0 : UInt32).toNat = 0 from rfl] at lba
      omega
    simp only [diskInode, content, if_true, nonzero, if_false, lba, contentSectors]
  · simp [diskInode, content]

theorem fsSave_entryOf (inside : j < (collectInodes fs).length)
    (kept : (collectInodes fs).length ≤ 117 ∨ hasContent fs (collectInodes fs)[j] = false) :
    EntryOf fs (collectInodes fs)[j] after (tableEntry after j) := by
  have entry := fsSave_entry saved j inside
  have valid := collectInodes_valid fs _ (getElem_mem inside)
  refine ⟨by rw [entry]; rfl, by rw [entry]; rfl, by rw [entry]; rfl, by rw [entry]; rfl,
    by rw [entry]; rfl, by rw [entry]; rfl, ?_⟩
  intro content bytes data b within
  have few : (collectInodes fs).length ≤ 117 := by
    obtain few | empty := kept
    · exact few
    · rw [content] at empty
      contradiction
  have sectors := (contentSectors_eq fs sizes valid content).1
  rw [entry]
  simp only [diskInode, content, if_true, fsSave_lba sizes j]
  exact fsSave_content saved sizes inside content data few b (by omega)

theorem fsSave_apart
    (clear : (collectInodes fs).length ≤ 117 ∨
      ∀ slot, (fs.inodes slot).valid = true → hasContent fs slot = false) :
    (imageRanges after).Pairwise SectorRange.Apart := by
  have count := collectInodes_length fs
  have sectors := inodeSectors_toNat (collectInodes fs).length (by omega)
  rw [imageRanges, fsSave_count saved sizes, sectors]
  -- Every extent starts at or behind sector 65 and belongs to a file with content.
  have extents : ∀ range ∈ (List.range (collectInodes fs).length).filterMap
      (fun index => entryExtent (tableEntry after index)),
      65 ≤ range.first ∧ (collectInodes fs).length ≤ 117 := by
    intro range member
    obtain ⟨j, inside, extent⟩ := List.mem_filterMap.mp member
    rw [mem_range] at inside
    rw [fsSave_extent saved sizes inside] at extent
    have start := lbaAt_mono fs 65 (collectInodes fs) (Nat.zero_le j)
    rw [lbaAt_zero] at start
    split at extent
    · next content =>
      cases extent
      refine ⟨start, ?_⟩
      obtain few | empty := clear
      · exact few
      · rw [empty _ (collectInodes_valid fs _ (getElem_mem inside))] at content
        contradiction
    · contradiction
  refine .cons ?_ (.cons ?_ ?_)
  · intro range member
    obtain rfl | member := mem_cons.mp member
    · exact .inl (Nat.le_refl 1)
    · have start := (extents range member).1
      exact .inl (show 0 + 1 ≤ range.first by omega)
  · intro range member
    obtain ⟨start, few⟩ := extents range member
    exact .inl (show 1 + ((collectInodes fs).length * 280 + 511) / 512 ≤ range.first by omega)
  · rw [pairwise_filterMap]
    refine List.Pairwise.imp_of_mem ?_ pairwise_lt_range
    intro i j iInside jInside less first firstExtent second secondExtent
    rw [mem_range] at iInside jInside
    rw [fsSave_extent saved sizes iInside] at firstExtent
    rw [fsSave_extent saved sizes jInside] at secondExtent
    split at firstExtent <;> split at secondExtent <;> try contradiction
    cases firstExtent
    cases secondExtent
    have next := lbaAt_next fs 65 iInside
    have later := lbaAt_mono fs 65 (collectInodes fs) (show i + 1 ≤ j from less)
    exact .inl (next ▸ later)

end

theorem validCount_le_of_entries {fs : FileSystem} {disk : Disk} (sound : SaveSound fs disk) :
    validCount fs ≤ imageCount disk := by
  obtain ⟨entry, entries, distinct⟩ := sound.entries
  have nodup : ((validInodes fs).map entry).Nodup := by
    refine (validInodes_nodup fs).map_on ?_
    intro first firstMember second secondMember same
    exact distinct first second ((mem_validInodes fs first).mp firstMember)
      ((mem_validInodes fs second).mp secondMember) same
  have inside : (validInodes fs).map entry ⊆ List.range (imageCount disk) := by
    intro index member
    obtain ⟨slot, slotMember, rfl⟩ := mem_map.mp member
    exact mem_range.mpr (entries slot ((mem_validInodes fs slot).mp slotMember)).1
  simpa [validCount] using (subperm_of_subset nodup inside).length_le

section

variable {fs : FileSystem} {after : Disk}
  (sizes : ∀ slot, (fs.inodes slot).valid = true → (fs.inodes slot).type = typeFile → (fs.inodes slot).size.toNat ≤ maxFileSize)
  (saved : fsSave fs io disk = .ok (after, 0))

include sizes saved

theorem SaveSound.fits (sound : SaveSound fs after) : validCount fs ≤ 256 ∧
    (validCount fs ≤ 117 ∨
      ∀ slot, (fs.inodes slot).valid = true → hasContent fs slot = false) := by
  have length := collectInodes_length fs
  have count := fsSave_count saved sizes
  have all := validCount_le_of_entries sound
  refine ⟨by omega, ?_⟩
  by_contra overlap
  rw [not_or] at overlap
  obtain ⟨many, hasData⟩ := overlap
  simp only [not_forall, Bool.not_eq_false] at hasData
  obtain ⟨slot, valid, content⟩ := hasData
  have member : slot ∈ collectInodes fs := by
    rw [collectInodes_all fs (by omega), mem_validInodes]
    exact valid
  -- The first file with content starts at sector 65, inside the table.
  obtain ⟨j, inside, found, start⟩ := lbaAt_first fs 65 member content
  have extent := fsSave_extent saved sizes inside
  rw [if_pos found, start] at extent
  have apart := (List.pairwise_cons.mp (List.pairwise_cons.mp sound.apart).2).1 _
    (List.mem_filterMap.mpr ⟨j, mem_range.mpr (by omega), extent⟩)
  have sectors := inodeSectors_toNat (collectInodes fs).length (by omega)
  rw [count, sectors] at apart
  have positive := (contentSectors_eq fs sizes
    (collectInodes_valid fs _ (getElem_mem inside)) found).2.1
  obtain before | behind := apart
  · have before : 1 + ((collectInodes fs).length * 280 + 511) / 512 ≤ 65 := before
    omega
  · have behind : 65 + contentSectors fs (collectInodes fs)[j] ≤ 1 := behind
    omega

theorem fsSave_sound (few : validCount fs ≤ 256) (clear : validCount fs ≤ 117 ∨
    ∀ slot, (fs.inodes slot).valid = true → hasContent fs slot = false) : SaveSound fs after := by
  have length := collectInodes_length fs
  have count := fsSave_count saved sizes
  have all := collectInodes_all fs few
  have clear' : (collectInodes fs).length ≤ 117 ∨
      ∀ slot, (fs.inodes slot).valid = true → hasContent fs slot = false :=
    clear.imp (fun small => by omega) id
  refine ⟨⟨fun slot => (collectInodes fs).idxOf slot, ?_, ?_⟩, fsSave_apart saved sizes clear'⟩
  · intro slot valid
    have member : slot ∈ collectInodes fs := by
      rw [all, mem_validInodes]
      exact valid
    have inside := idxOf_lt_length_of_mem member
    have entry := fsSave_entryOf saved sizes inside
      (clear'.imp id (fun empty => empty _ (collectInodes_valid fs _ (getElem_mem inside))))
    rw [getElem_idxOf inside] at entry
    exact ⟨count ▸ inside, entry⟩
  · intro first second firstValid secondValid same
    rw [← mem_validInodes, ← all] at firstValid secondValid
    exact (idxOf_inj firstValid).mp same

end

section

variable (fs : FileSystem)
  (sizes : ∀ slot, (fs.inodes slot).valid = true → (fs.inodes slot).type = typeFile → (fs.inodes slot).size.toNat ≤ maxFileSize)
  (contents : ∀ slot, (fs.inodes slot).valid = true → (fs.inodes slot).type = typeFile → ∃ bytes, (fs.inodes slot).data = .buffer bytes)

theorem ataWriteSectors_complete (disk : Disk) (lba : UInt32) (count : UInt8)
    (buffer : Nat → UInt8) (positive : 0 < count.toNat) :
    (ataWriteSectors disk lba count buffer .complete).2 = true := by
  have nonzero : count ≠ 0 := by
    rintro rfl
    exact absurd positive (by decide)
  rw [ataWriteSectors, if_neg nonzero]
  rfl

include sizes contents

theorem saveInode_succeeds (index : Nat) (state : SaveState)
    (valid : (fs.inodes slot).valid = true) :
    ∃ saved, saveInode fs .complete index slot state = .ok (saved, true) := by
  simp only [saveInode]
  split
  · next content =>
    obtain ⟨bytes, data⟩ := contents slot valid (hasContent_spec fs content).1
    have sectors := contentSectors_eq fs sizes valid content
    rw [contentSectors, if_pos content] at sectors
    have count := toUInt8_toNat (sectorsFor (fs.inodes slot).size) (by omega)
    have fits : sectorSize * Transfer.complete.moved
        (sectorsFor (fs.inodes slot).size).toUInt8.toNat ≤ maxFileSize := by
      rw [count]
      show 512 * (sectorsFor (fs.inodes slot).size).toNat ≤ 65536
      omega
    rw [data]
    simp only [if_pos fits]
    rw [ataWriteSectors_complete _ _ _ _ (by omega)]
    exact ⟨_, rfl⟩
  · exact ⟨_, rfl⟩

theorem saveInodes_succeeds (index : Nat) (slots : List Slot) (state : SaveState)
    (valid : ∀ slot ∈ slots, (fs.inodes slot).valid = true) :
    ∃ saved, saveInodes fs (fun _ => .complete) index slots state = .ok (saved, true) := by
  induction slots generalizing index state with
  | nil => exact ⟨state, rfl⟩
  | cons slot slots ih =>
    obtain ⟨next, one⟩ := saveInode_succeeds fs sizes contents index state
      (valid slot (by simp))
    simp only [saveInodes, one]
    exact ih (index + 1) next (fun other member => valid other (by simp [member]))

theorem fsSave_succeeds (disk : Disk) (initialized : fs.initialized = true)
    (some : ∃ slot, (fs.inodes slot).valid = true) :
    ∃ after, fsSave fs .success disk = .ok (after, 0) := by
  have count := collectInodes_length fs
  have positive : 0 < validCount fs := by
    obtain ⟨slot, valid⟩ := some
    exact length_pos_of_mem ((mem_validInodes fs slot).mpr valid)
  have nonempty : collectInodes fs ≠ [] := ne_nil_of_length_pos (by omega)
  have sectors := tableSectors_toNat (collectInodes fs).length (by omega)
  have ready : ¬(fs.initialized = false ∨ collectInodes fs = []) := by
    simp [initialized, nonempty]
  have marked : ¬((ataWriteSectors disk superblockLba 1
      (superblockFor (collectInodes fs).length).store .complete).2 = false ∨ true = false) := by
    rw [ataWriteSectors_complete _ _ _ _ (by decide)]
    simp
  obtain ⟨final, looped⟩ := saveInodes_succeeds fs sizes contents 0 (collectInodes fs)
    { disk := (ataWriteSectors disk superblockLba 1
        (superblockFor (collectInodes fs).length).store .complete).1
      table := fun _ => 0
      dataLba := dataBlocksLba } (collectInodes_valid fs)
  have written := ataWriteSectors_complete final.disk inodeTableLba
    (inodeSectors (UInt32.ofNat (collectInodes fs).length)).toUInt8 final.table (by omega)
  simp only [fsSave, SaveIo.success, if_neg ready, if_neg marked, looped, written]
  exact ⟨_, rfl⟩

end

theorem save_sound_iff (fs : FileSystem) (io : SaveIo) (disk after : Disk)
    (sizes : ∀ slot, (fs.inodes slot).valid = true → (fs.inodes slot).type = typeFile →
      (fs.inodes slot).size.toNat ≤ maxFileSize)
    (saved : fsSave fs io disk = .ok (after, 0)) :
    SaveSound fs after ↔ validCount fs ≤ 256 ∧ (validCount fs ≤ 117 ∨
      ∀ slot, (fs.inodes slot).valid = true → hasContent fs slot = false) :=
  ⟨SaveSound.fits sizes saved, fun ⟨few, clear⟩ => fsSave_sound sizes saved few clear⟩

def flatInode (count : Nat) (slot : Slot) : Inode :=
  { name := .strncpy (if slot = 0 then [slash] else
      [UInt8.ofNat (65 + slot % 26), UInt8.ofNat (65 + slot / 26)])
    type := if slot = 1 then typeFile else typeDir
    size := if slot = 1 then 1 else 0
    data := if slot = 0 then .child 1 else if slot = 1 then .buffer (fun _ => 42) else .null
    valid := decide (slot.val < count)
    parent := if slot = 0 then none else some 0
    next := if slot = 0 ∨ count ≤ slot + 1 then none else some (slot + 1)
    inodeNum := UInt32.ofNat (slot + 1) }

def flatFs (count : Nat) : FileSystem :=
  { bootState with
    inodes := flatInode count
    rootDir := some 0
    currentDir := some 0
    initialized := true
    nextInode := UInt32.ofNat (count + 1) }

theorem flatFs_file {count : Nat} (isFile : ((flatFs count).inodes slot).type = typeFile) :
    slot = 1 := by
  by_contra different
  simp only [flatFs, flatInode, if_neg different] at isFile
  exact typeFile_ne_typeDir isFile.symm

theorem flatFs_sizes (count : Nat) (slot : Slot) (_ : ((flatFs count).inodes slot).valid = true)
    (isFile : ((flatFs count).inodes slot).type = typeFile) :
    ((flatFs count).inodes slot).size.toNat ≤ maxFileSize := by
  cases flatFs_file isFile
  exact show 1 ≤ 65536 by decide

theorem flatFs_contents (count : Nat) (slot : Slot)
    (_ : ((flatFs count).inodes slot).valid = true)
    (isFile : ((flatFs count).inodes slot).type = typeFile) :
    ∃ bytes, ((flatFs count).inodes slot).data = .buffer bytes := by
  cases flatFs_file isFile
  exact ⟨_, rfl⟩

theorem save_sound_iff_two : ∃ after, fsSave (flatFs 2) .success (fun _ => 0) = .ok (after, 0) ∧
    SaveSound (flatFs 2) after := by
  obtain ⟨after, saved⟩ := fsSave_succeeds (flatFs 2) (flatFs_sizes 2) (flatFs_contents 2)
    (fun _ => 0) rfl ⟨0, rfl⟩
  exact ⟨after, saved, (save_sound_iff (flatFs 2) .success (fun _ => 0) after (flatFs_sizes 2)
    saved).mpr ⟨by decide +kernel, .inl (by decide +kernel)⟩⟩

theorem save_overlaps_table :
    ∃ after, fsSave (flatFs 118) .success (fun _ => 0) = .ok (after, 0) ∧
      ¬SaveSound (flatFs 118) after := by
  obtain ⟨after, saved⟩ := fsSave_succeeds (flatFs 118) (flatFs_sizes 118) (flatFs_contents 118)
    (fun _ => 0) rfl ⟨0, rfl⟩
  refine ⟨after, saved, fun sound => ?_⟩
  obtain ⟨-, few | empty⟩ := sound.fits (flatFs_sizes 118) saved
  · exact absurd few (by decide +kernel)
  · exact absurd (empty 1 rfl) (by decide)

end ArgoOS.Fs
