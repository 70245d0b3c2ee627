import ArgoOS.Fs.Load
import ArgoOS.Fs.SaveLayout

set_option autoImplicit false

/-! # Save and load -/

namespace ArgoOS.Fs

open List Bytes DiskInode

structure WellFormed (fs : FileSystem) : Prop where
  initialized : fs.initialized = true
  tree : TreeShaped fs
  rootName : ∀ root, fs.rootDir = some root → (fs.inodes root).name.bytes = [slash]
  otherNames : ∀ slot, (fs.inodes slot).valid = true → fs.rootDir ≠ some slot →
    slash ∉ (fs.inodes slot).name.bytes
  distinct : ∀ first second, (fs.inodes first).valid = true → (fs.inodes second).valid = true →
    (fs.inodes first).inodeNum = (fs.inodes second).inodeNum → first = second
  nonzero : ∀ slot, (fs.inodes slot).valid = true → (fs.inodes slot).inodeNum ≠ 0
  sizes : ∀ slot, (fs.inodes slot).valid = true → (fs.inodes slot).type = typeFile →
    (fs.inodes slot).size.toNat ≤ maxFileSize

structure Isomorphic (fs loaded : FileSystem) (image : Slot → Slot) : Prop where
  valid : ∀ slot, (fs.inodes slot).valid = true → (loaded.inodes (image slot)).valid = true
  injective : ∀ first second, (fs.inodes first).valid = true → (fs.inodes second).valid = true →
    image first = image second → first = second
  surjective : ∀ slot, (loaded.inodes slot).valid = true →
    ∃ source, (fs.inodes source).valid = true ∧ image source = slot
  header : ∀ slot, (fs.inodes slot).valid = true →
    SameHeader (loaded.inodes (image slot)) (fs.inodes slot)
  bytes : ∀ slot, (fs.inodes slot).valid = true → (fs.inodes slot).type = typeFile →
    ∃ before after, (fs.inodes slot).data = .buffer before ∧
      (loaded.inodes (image slot)).data = .buffer after ∧
      ∀ b < (fs.inodes slot).size.toNat, after b = before b
  parent : ∀ slot, (fs.inodes slot).valid = true →
    (loaded.inodes (image slot)).parent = (fs.inodes slot).parent.map image
  children : ∀ dir, IsDir fs dir → ∀ children, ChildList fs dir children →
    ∃ children', ChildList loaded (image dir) children' ∧
      ∀ slot, slot ∈ children' ↔ slot ∈ children.map image
  rootDir : loaded.rootDir = fs.rootDir.map image
  currentDir : loaded.currentDir = fs.rootDir.map image

theorem rootFrom_unique (items : List Item) (root : Option Slot) (count r : Nat)
    (inside : r < items.length)
    (isRoot : items[r].1.name.bytes = [slash] ∧ items[r].1.type = typeDir)
    (only : ∀ j (within : j < items.length),
      items[j].1.name.bytes = [slash] ∧ items[j].1.type = typeDir → j = r) :
    rootFrom root count items = some (Fin.ofNat 320 (count + r)) := by
  have none : ∀ (items : List Item) root count, (∀ item ∈ items,
      ¬(item.1.name.bytes = [slash] ∧ item.1.type = typeDir)) → rootFrom root count items = root := by
    intro items
    induction items with
    | nil => exact fun _ _ _ => rfl
    | cons item items ih =>
      intro root count plain
      rw [rootFrom, if_neg (plain item (by simp))]
      exact ih root (count + 1) (fun other member => plain other (by simp [member]))
  induction items generalizing root count r with
  | nil => exact absurd inside (Nat.not_lt_zero _)
  | cons item items ih =>
    cases r with
    | zero =>
      rw [rootFrom, if_pos (by simpa using isRoot), Nat.add_zero]
      apply none
      intro other member isRoot'
      obtain ⟨j, within, rfl⟩ := getElem_of_mem member
      have zero := only (j + 1) (by simpa using within) (by simpa using isRoot')
      omega
    | succ r =>
      have notFirst : ¬(item.1.name.bytes = [slash] ∧ item.1.type = typeDir) := by
        intro first
        have zero := only 0 (by simp) (by simpa using first)
        omega
      rw [rootFrom, if_neg notFirst, ih root (count + 1) r (by simpa using inside)
        (by simpa using isRoot) (fun j within found => by
          have same := only (j + 1) (by simpa using within) (by simpa using found)
          omega)]
      congr 2
      omega

section

variable (disk : Disk)

theorem ataReadSectors_complete (lba : UInt32) (count : UInt8) (buffer : Nat → UInt8)
    (positive : 0 < count.toNat) (small : lba.toNat < 2 ^ 28) :
    ataReadSectors disk lba count buffer .complete =
      (copy buffer 0 (fun i => disk (512 * lba.toNat + i)) (512 * count.toNat), true) := by
  have nonzero : count ≠ 0 := by
    rintro rfl
    exact absurd positive (by decide)
  rw [ataReadSectors, if_neg nonzero, sectorAddress_eq small]
  rfl

theorem superblock_read :
    Superblock.load (copy (fun _ => 0) 0 (fun i => disk (512 * superblockLba.toNat + i))
      (512 * (1 : UInt8).toNat)) = Superblock.load disk := by
  apply Superblock.load_agree
  intro i inside
  rw [copy_inside _ _ _ _ _ (by rw [show (1 : UInt8).toNat = 1 from rfl]; omega),
    show superblockLba.toNat = 0 from rfl, Nat.mul_zero]

theorem tableEntry_read {count index : Nat} (inside : index < count) {sectors : Nat}
    (enough : count * 280 ≤ 512 * sectors) :
    load (copy (fun _ => 0) 0 (fun i => disk (512 * inodeTableLba.toNat + i))
      (512 * sectors)) index = tableEntry disk index := by
  apply load_agree
  intro i within
  have copied := copy_inside (fun _ => 0) (fun i => disk (512 * inodeTableLba.toNat + i)) 0
    (512 * sectors) (diskInodeSize * index + i) (by unfold diskInodeSize; omega)
  rw [Nat.zero_add] at copied
  rw [copied]
  rfl

end

def loadTable (disk : Disk) : Nat → UInt8 :=
  Bytes.copy (fun _ => 0) 0 (fun i => disk (512 * inodeTableLba.toNat + i))
    (512 * (inodeSectors (Superblock.load disk).inodeCount).toUInt8.toNat)

theorem loadTable_entry (disk : Disk) (few : imageCount disk ≤ 256) (index : Nat)
    (inside : index < imageCount disk) :
    load (loadTable disk) index = tableEntry disk index := by
  have sectors := tableSectors_toNat (imageCount disk) few
  rw [imageCount, UInt32.ofNat_toNat] at sectors
  rw [imageCount] at few inside
  exact tableEntry_read disk inside (by omega)

/-- The superblock lets a load go on to the inode table. -/
structure HasImage (disk : Disk) : Prop where
  magic : (Superblock.load disk).magic = fsMagic
  some : 0 < imageCount disk
  few : imageCount disk ≤ 256

theorem HasImage.room {disk : Disk} (has : HasImage disk) :
    ([] : List Item).length + (List.range (imageCount disk)).length ≤ 320 := by
  have few := has.few
  rw [length_nil, length_range]
  omega

structure Opens (io : LoadIo) (disk : Disk) : Prop extends HasImage disk where
  superblock : io.superblock = .complete
  memory : io.memory = true
  table : io.table = .complete

def loadPasses (io : LoadIo) (disk : Disk) (fs : FileSystem) : Except Fault (FileSystem × Int) :=
  match loadInodes io disk (loadTable disk) (List.range (imageCount disk)) fs with
  | .error fault => .error fault
  | .ok (loaded, false) => .ok (loaded, -1)
  | .ok (loaded, true) =>
    match linkInodes (loadTable disk) (List.range (imageCount disk)) loaded with
    | .error fault => .error fault
    | .ok linked => .ok (linked, if linked.rootDir.isSome then 0 else -1)

theorem fsLoad_open {io : LoadIo} {disk : Disk} (opens : Opens io disk) (fs : FileSystem) :
    fsLoad io disk fs = loadPasses io disk fs := by
  have few := opens.few
  have some := opens.some
  have sectors := tableSectors_toNat (imageCount disk) few
  rw [imageCount, UInt32.ofNat_toNat] at sectors
  rw [imageCount] at few some
  have head := ataReadSectors_complete disk superblockLba 1 (fun _ => 0) (by decide) (by decide)
  have body := ataReadSectors_complete disk inodeTableLba
    (inodeSectors (Superblock.load disk).inodeCount).toUInt8 (fun _ => 0) (by omega) (by decide)
  have nonzero : (Superblock.load disk).inodeCount ≠ 0 := by
    intro zero
    rw [zero] at some
    exact absurd some (by decide)
  have counted : ¬((Superblock.load disk).inodeCount = 0 ∨
      (Superblock.load disk).inodeCount.toNat > maxInodesOnDisk) := by
    unfold maxInodesOnDisk
    exact fun bad => bad.elim nonzero (Nat.not_lt_of_le few)
  simp only [fsLoad, opens.superblock, opens.table, head, body, superblock_read, opens.magic,
    ne_eq, not_true_eq_false, Bool.true_eq_false, or_self, if_false, if_neg counted, opens.memory]
  rfl

theorem fsLoad_success {disk : Disk} {start : FileSystem} (has : HasImage disk)
    {loaded linked : FileSystem}
    (first : loadInodes .success disk (loadTable disk) (List.range (imageCount disk)) start =
      .ok (loaded, true))
    (second : linkInodes (loadTable disk) (List.range (imageCount disk)) loaded = .ok linked)
    (root : linked.rootDir.isSome = true) : fsLoad .success disk start = .ok (linked, 0) := by
  have opens : Opens .success disk := ⟨has, rfl, rfl, rfl⟩
  rw [fsLoad_open opens, loadPasses, first]
  simp only [second, root, if_true]

variable {fs : FileSystem} {after : Disk}

variable {j : Nat} {items : List Item}

section

variable {disk : Disk} (wellFormed : WellFormed fs) (few : validCount fs ≤ 117)
  (saved : fsSave fs .success disk = .ok (after, 0))

def SameData (fs : FileSystem) (slot : Slot) (data : Data) : Prop :=
  if (fs.inodes slot).type = typeFile then
    ∃ before bytes, (fs.inodes slot).data = .buffer before ∧ data = .buffer bytes ∧
      ∀ b < (fs.inodes slot).size.toNat, bytes b = before b
  else data = .null

include wellFormed few saved

theorem loadData_image (inside : j < (collectInodes fs).length) :
    ∃ data, loadData .success after j (tableEntry after j) = .ok (data, true) ∧
      SameData fs (collectInodes fs)[j] data := by
  have length := collectInodes_length fs
  have valid := collectInodes_valid fs _ (getElem_mem inside)
  have entry := fsSave_entry saved j inside
  have lba := fsSave_lba wellFormed.sizes j
  have start := lbaAt_mono fs 65 (collectInodes fs) (Nat.zero_le j)
  have bound := lbaAt_le fs wellFormed.sizes 65 (collectInodes_valid fs) j
  rw [lbaAt_zero] at start
  unfold SameData loadData
  rw [entry]
  by_cases isFile : (fs.inodes (collectInodes fs)[j]).type = typeFile
  · obtain ⟨bytes, data⟩ := wellFormed.tree.contents _ valid isFile
    by_cases positive : 0 < (fs.inodes (collectInodes fs)[j]).size
    · have content : hasContent fs (collectInodes fs)[j] = true := by
        simp [hasContent, isFile, data, Data.isNull, positive]
      obtain ⟨count, some, most⟩ :=
        contentSectors_eq fs wellFormed.sizes valid content
      have sectors : (sectorsFor (fs.inodes (collectInodes fs)[j]).size).toNat =
          contentSectors fs (collectInodes fs)[j] := by rw [contentSectors, if_pos content]
      have narrow := toUInt8_toNat (sectorsFor (fs.inodes (collectInodes fs)[j]).size) (by omega)
      have behind : 0 < ((collectInodes fs).take j).foldl (nextLba fs) dataBlocksLba := by
        rw [UInt32.lt_iff_toNat_lt, lba, show (0 : UInt32).toNat = 0 from rfl]
        omega
      have fits : sectorSize * Transfer.complete.moved
          (sectorsFor (fs.inodes (collectInodes fs)[j]).size).toUInt8.toNat ≤ maxFileSize := by
        show 512 * (sectorsFor (fs.inodes (collectInodes fs)[j]).size).toUInt8.toNat ≤ 65536
        omega
      have read := ataReadSectors_complete after
        (((collectInodes fs).take j).foldl (nextLba fs) dataBlocksLba)
        (sectorsFor (fs.inodes (collectInodes fs)[j]).size).toUInt8 (fun _ => 0) (by omega) (by omega)
      simp only [diskInode, content, isFile, LoadIo.success, if_true, Bool.true_eq_false, if_false,
        behind, positive, and_self, if_pos fits, read]
      refine ⟨_, rfl, bytes, _, data, rfl, ?_⟩
      intro b within
      have copied := copy_inside (fun _ => 0) (fun i => after (512 *
        (((collectInodes fs).take j).foldl (nextLba fs) dataBlocksLba).toNat + i)) 0
        (512 * (sectorsFor (fs.inodes (collectInodes fs)[j]).size).toUInt8.toNat) b (by omega)
      rw [Nat.zero_add] at copied
      rw [copied, lba]
      exact fsSave_content saved wellFormed.sizes inside content data (by omega) b (by omega)
    · have noBytes : (fs.inodes (collectInodes fs)[j]).size.toNat = 0 := by
        rw [UInt32.lt_iff_toNat_lt, show (0 : UInt32).toNat = 0 from rfl] at positive
        omega
      refine ⟨.buffer (fun _ => 0), by simp [diskInode, isFile, LoadIo.success, positive], ?_⟩
      rw [if_pos isFile]
      exact ⟨bytes, _, data, rfl, fun b within => absurd within (by omega)⟩
  · exact ⟨.null, by simp [diskInode, isFile], by rw [if_neg isFile]⟩

end

def imageSlot (fs : FileSystem) (slot : Slot) : Slot :=
  Fin.ofNat 320 ((collectInodes fs).idxOf slot)

variable {slot : Slot}

section

variable (few : validCount fs ≤ 256)

include few

theorem idxOf_collect (valid : (fs.inodes slot).valid = true) :
    (collectInodes fs).idxOf slot < (collectInodes fs).length := by
  apply idxOf_lt_length_of_mem
  rw [collectInodes_all fs few, mem_validInodes]
  exact valid

theorem imageSlot_val (valid : (fs.inodes slot).valid = true) :
    (imageSlot fs slot).val = (collectInodes fs).idxOf slot := by
  have inside := idxOf_collect few valid
  have length := collectInodes_length fs
  exact Nat.mod_eq_of_lt (by omega)

theorem imageSlot_injective (first second : Slot) (firstValid : (fs.inodes first).valid = true)
    (secondValid : (fs.inodes second).valid = true)
    (same : imageSlot fs first = imageSlot fs second) : first = second := by
  have indices := congrArg Fin.val same
  rw [imageSlot_val few firstValid, imageSlot_val few secondValid] at indices
  rw [← mem_validInodes, ← collectInodes_all fs few] at firstValid
  exact (idxOf_inj firstValid).mp indices

omit few in
theorem imageSlot_getElem (inside : j < (collectInodes fs).length) :
    imageSlot fs (collectInodes fs)[j] = Fin.ofNat 320 j := by
  rw [imageSlot, (collectInodes_nodup fs).idxOf_getElem j inside]

end

structure Copied (fs loaded : FileSystem) : Prop where
  filled : ∀ slot, (fs.inodes slot).valid = true → ∃ lba data,
    loaded.inodes (imageSlot fs slot) = loadedInode (diskInode fs slot lba) data ∧
      SameData fs slot data
  only : ∀ slot, (loaded.inodes slot).valid = true →
    ∃ source, (fs.inodes source).valid = true ∧ imageSlot fs source = slot

variable {start : FileSystem}

section

variable {disk : Disk} (wellFormed : WellFormed fs) (few : validCount fs ≤ 117)
  (saved : fsSave fs .success disk = .ok (after, 0))
  (empty : ∀ slot, (start.inodes slot).valid = false)

include wellFormed few saved

theorem loadTable_image (inside : j < (collectInodes fs).length) :
    load (loadTable after) j = diskInode fs (collectInodes fs)[j]
      (((collectInodes fs).take j).foldl (nextLba fs) dataBlocksLba) := by
  have length := collectInodes_length fs
  have count := fsSave_count saved wellFormed.sizes
  rw [loadTable_entry after (by omega) j (by omega), fsSave_entry saved j inside]

theorem validIndices_image : validIndices (loadTable after)
    (List.range (collectInodes fs).length) = List.range (collectInodes fs).length := by
  apply filter_eq_self.mpr
  intro j member
  rw [loadTable_image wellFormed few saved (mem_range.mp member)]
  rfl

include empty

theorem loadInodes_image : ∃ loaded,
    loadInodes .success after (loadTable after) (List.range (collectInodes fs).length) start =
      .ok (loaded, true) := by
  have length := collectInodes_length fs
  have count := fsSave_count saved wellFormed.sizes
  refine loadInodes_succeeds empty (.refl start) (by rw [length_range, length_nil]; omega)
    fun j member => ?_
  rw [mem_range] at member
  obtain ⟨data, filled, -⟩ := loadData_image wellFormed few saved member
  rw [loadTable_entry after (by omega) j (by omega)]
  exact ⟨data, filled⟩

omit empty in
theorem loadedItem_image (pairs : List.Forall₂ (LoadedItem .success after
      (loadTable after)) (List.range (collectInodes fs).length) items) :
    ∃ same : items.length = (collectInodes fs).length,
      ∀ j (inside : j < (collectInodes fs).length),
        (∃ lba, items[j].1 = diskInode fs (collectInodes fs)[j] lba) ∧
          SameData fs (collectInodes fs)[j] items[j].2 := by
  obtain ⟨length, each⟩ := forall₂_iff_get.mp pairs
  rw [length_range] at length
  refine ⟨length.symm, fun j inside => ?_⟩
  obtain ⟨entry, filled⟩ := each j (by rw [length_range]; exact inside) (by omega)
  simp only [get_eq_getElem, getElem_range] at entry filled
  rw [loadTable_image wellFormed few saved inside] at entry
  obtain ⟨data, filled', sameData⟩ := loadData_image wellFormed few saved inside
  rw [entry, ← fsSave_entry saved j inside, filled'] at filled
  cases filled
  exact ⟨⟨_, entry⟩, sameData⟩

end

theorem Loaded.copied {fs start loaded : FileSystem} (few : validCount fs ≤ 256)
    (empty : ∀ slot, (start.inodes slot).valid = false) (built : Loaded start loaded items)
    (same : items.length = (collectInodes fs).length)
    (entry : ∀ j (inside : j < (collectInodes fs).length),
      (∃ lba, items[j].1 = diskInode fs (collectInodes fs)[j] lba) ∧
        SameData fs (collectInodes fs)[j] items[j].2) : Copied fs loaded where
  filled := by
    intro slot valid
    have inside := idxOf_collect few valid
    have place := imageSlot_val few valid
    obtain ⟨⟨lba, first⟩, second⟩ := entry _ inside
    rw [getElem_idxOf inside] at first second
    refine ⟨lba, _, ?_, second⟩
    rw [built.filled (imageSlot fs slot) (by omega), ← first]
    simp only [place]
  only := by
    intro slot valid
    by_cases inside : slot.val < (collectInodes fs).length
    · refine ⟨(collectInodes fs)[slot.val], collectInodes_valid fs _ (getElem_mem inside), ?_⟩
      rw [imageSlot_getElem]
      exact Fin.ext (Nat.mod_eq_of_lt slot.isLt)
    · rw [built.rest slot (by omega), empty] at valid
      contradiction

variable {loaded : FileSystem}

section

variable (wellFormed : WellFormed fs) (few : validCount fs ≤ 256) (copied : Copied fs loaded)

include copied

theorem Copied.header (slot : Slot) (valid : (fs.inodes slot).valid = true) :
    SameHeader (loaded.inodes (imageSlot fs slot)) (fs.inodes slot) := by
  obtain ⟨lba, data, filled, -⟩ := copied.filled slot valid
  rw [filled]
  exact ⟨rfl, rfl, rfl, valid.symm, rfl⟩

include wellFormed

theorem Copied.lookup (slot : Slot) (valid : (fs.inodes slot).valid = true) :
    loaded.findInodeByNum (fs.inodes slot).inodeNum = some (imageSlot fs slot) := by
  obtain ⟨-, -, -, imageValid, number⟩ := copied.header slot valid
  rw [← number]
  apply findInodeByNum_unique (imageValid.trans valid)
  intro other otherValid same
  obtain ⟨source, sourceValid, rfl⟩ := copied.only other otherValid
  rw [(copied.header source sourceValid).2.2.2.2, number] at same
  rw [wellFormed.distinct source slot sourceValid valid same]

theorem Copied.entryParent (slot : Slot) (valid : (fs.inodes slot).valid = true) (lba : UInt32) :
    entryParent loaded (diskInode fs slot lba) = (fs.inodes slot).parent.map (imageSlot fs) := by
  cases parent : (fs.inodes slot).parent with
  | none =>
    have zero : (diskInode fs slot lba).parentInode = 0 := by simp [diskInode, parentNum, parent]
    rw [Fs.entryParent, zero, if_neg (by decide)]
    rfl
  | some dir =>
    have dirValid := (wellFormed.tree.parent_dir valid parent).1
    have number : (diskInode fs slot lba).parentInode = (fs.inodes dir).inodeNum := by
      simp [diskInode, parentNum, parent]
    have positive : 0 < (fs.inodes dir).inodeNum :=
      UInt32.pos_iff_ne_zero.mpr (wellFormed.nonzero dir dirValid)
    rw [Fs.entryParent, number, if_pos positive, copied.lookup wellFormed dir dirValid]
    rfl

end

section

variable {linked : FileSystem} (wellFormed : WellFormed fs) (few : validCount fs ≤ 256)

include few

include wellFormed

theorem Linking.isomorphic {links : List Link} (copied : Copied fs loaded)
    (linking : Linking loaded linked links)
    (members : ∀ link, link ∈ links ↔ ∃ slot, (fs.inodes slot).valid = true ∧
      link.1 = imageSlot fs slot ∧ link.2 = (fs.inodes slot).parent.map (imageSlot fs))
    (rootDir : loaded.rootDir = fs.rootDir.map (imageSlot fs))
    (currentDir : loaded.currentDir = fs.rootDir.map (imageSlot fs)) :
    Isomorphic fs linked (imageSlot fs) where
  valid := by
    intro slot valid
    rw [(linking.header _).2.2.2.1, (copied.header slot valid).2.2.2.1, valid]
  injective := imageSlot_injective few
  surjective := by
    intro slot valid
    rw [(linking.header slot).2.2.2.1] at valid
    exact copied.only slot valid
  header := fun slot valid => (linking.header _).trans (copied.header slot valid)
  bytes := by
    intro slot valid isFile
    obtain ⟨lba, data, filled, sameData⟩ := copied.filled slot valid
    rw [SameData, if_pos isFile] at sameData
    obtain ⟨before, bytes, original, rfl, same⟩ := sameData
    refine ⟨before, bytes, original, ?_, same⟩
    rw [linking.files _ (by
      rw [(copied.header slot valid).2.1, isFile]
      exact typeFile_ne_typeDir), filled]
    rfl
  parent := by
    intro slot valid
    exact linking.parents (imageSlot fs slot, (fs.inodes slot).parent.map (imageSlot fs))
      ((members _).mpr ⟨slot, valid, rfl, rfl⟩)
  children := by
    intro dir isDir children list
    obtain ⟨siblings, list', listed⟩ := wellFormed.tree.listed dir isDir
    obtain rfl := list.unique list'
    have header := copied.header dir isDir.1
    refine ⟨_, linking.lists (imageSlot fs dir)
      ⟨header.2.2.2.1.trans isDir.1, header.2.1.trans isDir.2⟩, ?_⟩
    intro slot
    rw [mem_linkedTo, members, mem_map]
    refine exists_congr (fun source => ?_)
    rw [listed]
    constructor
    · rintro ⟨valid, rfl, parent⟩
      obtain ⟨above, isParent, same⟩ := Option.map_eq_some_iff.mp parent.symm
      have aboveValid := (wellFormed.tree.parent_dir valid isParent).1
      cases imageSlot_injective few above dir aboveValid isDir.1 same
      exact ⟨⟨valid, isParent⟩, rfl⟩
    · rintro ⟨⟨valid, parent⟩, rfl⟩
      exact ⟨valid, rfl, by rw [parent]; rfl⟩
  rootDir := linking.rootDir.trans rootDir
  currentDir := linking.currentDir.trans currentDir

end

section

variable (wellFormed : WellFormed fs) (few : validCount fs ≤ 256)

include wellFormed few

theorem rootFrom_image (root : Option Slot) (same : items.length = (collectInodes fs).length)
    (entry : ∀ j (inside : j < (collectInodes fs).length),
      ∃ lba, items[j].1 = diskInode fs (collectInodes fs)[j] lba) :
    rootFrom root 0 items = fs.rootDir.map (imageSlot fs) := by
  obtain ⟨top, rootDir, isDir, -⟩ := wellFormed.tree.root
  have inside := idxOf_collect few isDir.1
  rw [rootDir, rootFrom_unique items root 0 ((collectInodes fs).idxOf top) (by omega), Nat.zero_add]
  · rfl
  · obtain ⟨lba, first⟩ := entry _ inside
    rw [first, getElem_idxOf inside]
    exact ⟨wellFormed.rootName top rootDir, isDir.2⟩
  · intro j within isRoot
    obtain ⟨lba, first⟩ := entry j (by omega)
    rw [first] at isRoot
    have valid := collectInodes_valid fs _ (getElem_mem (show j < (collectInodes fs).length by omega))
    by_contra different
    have notRoot : fs.rootDir ≠ some (collectInodes fs)[j] := by
      rw [rootDir]
      intro found
      have at' := (collectInodes_nodup fs).idxOf_getElem j (by omega)
      rw [← Option.some.inj found] at at'
      exact different at'.symm
    have noSlash := wellFormed.otherNames _ valid notRoot
    rw [show (fs.inodes (collectInodes fs)[j]).name.bytes = [slash] from isRoot.1] at noSlash
    simp at noSlash

end

section

variable {disk : Disk} (wellFormed : WellFormed fs) (few : validCount fs ≤ 117)
  (saved : fsSave fs .success disk = .ok (after, 0))

include wellFormed few saved

theorem passes_image (empty : ∀ slot, (start.inodes slot).valid = false) : ∃ loaded linked links,
    loadInodes .success after (loadTable after) (List.range (collectInodes fs).length) start =
      .ok (loaded, true) ∧
    linkInodes (loadTable after) (List.range (collectInodes fs).length) loaded = .ok linked ∧
    Copied fs loaded ∧ Linking loaded linked links ∧
    (∀ link, link ∈ links ↔ ∃ slot, (fs.inodes slot).valid = true ∧ link.1 = imageSlot fs slot ∧
      link.2 = (fs.inodes slot).parent.map (imageSlot fs)) ∧
    loaded.rootDir = fs.rootDir.map (imageSlot fs) ∧
    loaded.currentDir = fs.rootDir.map (imageSlot fs) := by
  have length := collectInodes_length fs
  have few' : validCount fs ≤ 256 := by omega
  obtain ⟨loaded, first⟩ := loadInodes_image wellFormed few saved empty
  obtain ⟨items, built, -, -, complete⟩ := loadInodes_loaded empty (.refl start)
    (by rw [length_range, length_nil]; omega) first
  rw [nil_append] at built
  obtain ⟨pairs, rootDir, currentDir⟩ := complete rfl
  have pairs' := pairs
  rw [validIndices_image wellFormed few saved] at pairs'
  obtain ⟨same, entry⟩ := loadedItem_image wellFormed few saved pairs'
  rw [length_nil, rootFrom_image wellFormed few' _ same fun j inside => (entry j inside).1]
    at rootDir currentDir
  have copied := built.copied few' empty same entry
  have distinct : DistinctNumbers (items.map Prod.fst) := by
    have numbers : (items.map Prod.fst).map DiskInode.inodeNum =
        (collectInodes fs).map fun slot => (fs.inodes slot).inodeNum := by
      refine ext_getElem (by simpa using same) fun j _ inside => ?_
      rw [length_map] at inside
      obtain ⟨⟨lba, first⟩, -⟩ := entry j inside
      simp only [getElem_map, first]
      rfl
    rw [DistinctNumbers, numbers]
    refine (collectInodes_nodup fs).map_on fun first firstMember second secondMember => ?_
    exact wellFormed.distinct first second (collectInodes_valid fs first firstMember)
      (collectInodes_valid fs second secondMember)
  obtain ⟨linked, links, second, linking, members⟩ := built.links empty (by omega) pairs distinct
  refine ⟨loaded, linked, links, first, second, copied, linking, fun link => ?_, rootDir, currentDir⟩
  rw [members]
  constructor
  · rintro ⟨d, here, parent⟩
    obtain ⟨inside, rfl⟩ := List.getElem?_eq_some_iff.mp here
    rw [length_map, same] at inside
    obtain ⟨⟨lba, first⟩, -⟩ := entry _ inside
    have valid := collectInodes_valid fs _ (getElem_mem inside)
    refine ⟨_, valid, ?_, ?_⟩
    · rw [imageSlot_getElem]
      exact Fin.ext (Nat.mod_eq_of_lt link.1.isLt).symm
    · rw [parent, getElem_map, first, copied.entryParent wellFormed _ valid]
  · rintro ⟨slot, valid, place, parent⟩
    have inside := idxOf_collect few' valid
    obtain ⟨⟨lba, first⟩, -⟩ := entry _ inside
    rw [getElem_idxOf inside] at first
    refine ⟨diskInode fs slot lba, ?_, ?_⟩
    · rw [place, imageSlot_val few' valid, List.getElem?_map, List.getElem?_eq_getElem (by omega),
        Option.map_some, first]
    · rw [parent, copied.entryParent wellFormed slot valid]

end

theorem flatFs_two (valid : ((flatFs 2).inodes slot).valid = true) : slot = 0 ∨ slot = 1 := by
  have inside : slot.val < 2 := of_decide_eq_true valid
  obtain zero | one := (by omega : slot.val = 0 ∨ slot.val = 1)
  · exact .inl (Fin.ext zero)
  · exact .inr (Fin.ext one)

theorem flatFs_tree : TreeShaped (flatFs 2) where
  root := ⟨0, rfl, ⟨rfl, rfl⟩, rfl⟩
  parented := by
    intro slot valid notRoot
    obtain rfl | rfl := flatFs_two valid
    · exact absurd rfl notRoot
    · exact ⟨0, rfl, rfl, rfl⟩
  listed := by
    intro dir isDir
    obtain rfl | rfl := flatFs_two isDir.1
    · refine ⟨[1], ⟨some 1, rfl, rfl, rfl⟩, ?_⟩
      intro slot
      rw [mem_singleton]
      constructor
      · rintro rfl
        exact ⟨rfl, rfl⟩
      · rintro ⟨valid, parent⟩
        obtain rfl | rfl := flatFs_two valid
        · contradiction
        · rfl
    · exact absurd isDir.2 (by decide)
  rooted := by
    intro slot valid
    obtain rfl | rfl := flatFs_two valid
    · exact .root 0 rfl
    · exact .child 1 0 rfl (.root 0 rfl)
  contents := flatFs_contents 2

theorem flatFs_wellFormed : WellFormed (flatFs 2) where
  initialized := rfl
  tree := flatFs_tree
  rootName := by
    rintro root ⟨⟩
    decide
  otherNames := by
    intro slot valid notRoot
    obtain rfl | rfl := flatFs_two valid
    · exact absurd rfl notRoot
    · decide
  distinct := by
    intro first second firstValid secondValid same
    obtain rfl | rfl := flatFs_two firstValid <;> obtain rfl | rfl := flatFs_two secondValid
    · rfl
    · exact absurd same (by decide)
    · exact absurd same (by decide)
    · rfl
  nonzero := by
    intro slot valid
    obtain rfl | rfl := flatFs_two valid <;> decide
  sizes := flatFs_sizes 2

theorem save_load_isomorphic (fs start : FileSystem) (disk : Disk) (wellFormed : WellFormed fs)
    (few : validCount fs ≤ 117) (empty : ∀ slot, (start.inodes slot).valid = false) :
    ∃ after loaded image, fsSave fs .success disk = .ok (after, 0) ∧
      fsLoad .success after start = .ok (loaded, 0) ∧ Isomorphic fs loaded image := by
  obtain ⟨top, rootDir, isDir, -⟩ := wellFormed.tree.root
  obtain ⟨after, saved⟩ := fsSave_succeeds fs wellFormed.sizes wellFormed.tree.contents disk
    wellFormed.initialized ⟨top, isDir.1⟩
  have few' : validCount fs ≤ 256 := by omega
  have length := collectInodes_length fs
  have count := fsSave_count saved wellFormed.sizes
  have positive := idxOf_collect few' isDir.1
  obtain ⟨loaded, linked, links, first, second, copied, linking, members, rootDir', currentDir⟩ :=
    passes_image wellFormed few saved empty
  rw [← count] at first second
  have isomorphic := linking.isomorphic wellFormed few' copied members rootDir' currentDir
  refine ⟨after, linked, imageSlot fs, saved, ?_, isomorphic⟩
  refine fsLoad_success ⟨?_, by omega, by omega⟩ first second ?_
  · rw [fsSave_superblock saved wellFormed.sizes]
    rfl
  · rw [isomorphic.rootDir, rootDir]
    rfl

theorem save_load_isomorphic_two : WellFormed (flatFs 2) ∧ ∃ after loaded image,
    fsSave (flatFs 2) .success (fun _ => 0) = .ok (after, 0) ∧
      fsLoad .success after bootState = .ok (loaded, 0) ∧ Isomorphic (flatFs 2) loaded image :=
  ⟨flatFs_wellFormed, save_load_isomorphic (flatFs 2) bootState (fun _ => 0) flatFs_wellFormed
    (by decide +kernel) (fun _ => rfl)⟩

end ArgoOS.Fs
