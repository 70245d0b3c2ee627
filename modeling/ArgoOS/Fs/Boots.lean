import ArgoOS.Shared.Run
import ArgoOS.Fs.Effects

set_option autoImplicit false

/-! # Inode numbers across boots -/

namespace ArgoOS.Fs

open List Function

/--
`opened` holds for each descriptor the inode that `fs_open` gave it, for as long as that
inode is not removed. `image` is the disk after the last `fs_save` that returned 0.
-/
structure Machine where
  fs : FileSystem
  opened : Descriptor → Option Slot
  image : Disk

def Machine.off (disk : Disk) : Machine :=
  { fs := bootState, opened := fun _ => none, image := disk }

inductive BootAction where
  | fsInit (io : LoadIo)
  | operation (operation : Operation)
  | fsSave (io : SaveIo)

def track (fs : FileSystem) (opened : Descriptor → Option Slot) (result : Int) :
    Operation → Descriptor → Option Slot
  | .fsOpen (some path) mode memory =>
    match openNode fs path mode memory with
    | .ok (_, node) =>
      if 0 ≤ result then Function.update opened (Fin.ofNat 64 result.toNat) node else opened
    | .error _ => opened
  | .fsRemove path =>
    match fsResolvePath fs path with
    | .ok (some slot) =>
      if result = 0 then fun fd => if opened fd = some slot then none else opened fd else opened
    | _ => opened
  | _ => opened

def bootStep (machine : Machine) : BootAction → Option (Machine × List Empty)
  | .fsInit io =>
    match Fs.fsInit io machine.image bootState with
    | .ok fs => some ({ machine with fs := fs, opened := fun _ => none }, [])
    | .error _ => none
  | .operation operation =>
    if machine.fs.initialized = false then none
    else
      match operation.apply machine.fs with
      | .ok (fs, result) =>
        some ({ machine with
          fs := fs
          opened := track machine.fs machine.opened result operation }, [])
      | .error _ => none
  | .fsSave io =>
    match Fs.fsSave machine.fs io machine.image with
    | .ok (disk, result) => some (if result = 0 then { machine with image := disk } else machine, [])
    | .error _ => none

/-- The numbers tell the valid inodes apart and lead each descriptor to its own inode. -/
structure NumbersSound (machine : Machine) : Prop where
  distinct : ∀ first second, (machine.fs.inodes first).valid = true →
    (machine.fs.inodes second).valid = true →
    (machine.fs.inodes first).inodeNum = (machine.fs.inodes second).inodeNum → first = second
  lookup : ∀ fd, (machine.fs.fileDescriptors fd).valid = true →
    machine.fs.findInodeByNum (machine.fs.fileDescriptors fd).inode = machine.opened fd

-- The next number belongs neither to an inode nor to a descriptor of a removed file.
def NextIsFree (fs : FileSystem) : Prop :=
  (∀ slot, (fs.inodes slot).valid = true → (fs.inodes slot).inodeNum ≠ fs.nextInode) ∧
  ∀ fd, (fs.fileDescriptors fd).valid = true → (fs.fileDescriptors fd).inode ≠ fs.nextInode

def Operation.OpensRemoved (fs : FileSystem) : Operation → Prop
  | .fsOpen path _ _ =>
    match fsResolvePath fs path with
    | .ok (some slot) => (fs.inodes slot).valid = false
    | _ => False
  | _ => False

/-- A load is not cut short, creations find a free number, and a directory that was removed
under the current directory is not opened. -/
def NumbersStayFree (machine : Machine) : BootAction → Prop
  | .fsInit io => ∀ index < 256, io.fileMemory index = true ∧ (io.file index).ok = true
  | .operation operation => (operation.Creates machine.fs → NextIsFree machine.fs) ∧
      ¬operation.OpensRemoved machine.fs
  | .fsSave _ => True

instance (fs : FileSystem) : (operation : Operation) → Decidable (operation.Creates fs)
  | .fsOpen (some _) _ _ => inferInstanceAs (Decidable (_ ∧ _ ∧ _ ∧ _))
  | .fsMkdir (some _) => inferInstanceAs (Decidable (_ ∧ _))
  | .fsOpen none _ _ | .fsMkdir none | .fsClose _ | .fsRead _ _ _ | .fsWrite _ _ _
  | .fsSeek _ _ _ | .setCurrentDir _ | .fsRemove _ => .isFalse id

instance (fs : FileSystem) : Decidable (NextIsFree fs) :=
  inferInstanceAs (Decidable (_ ∧ _))

instance (fs : FileSystem) (operation : Operation) : Decidable (operation.OpensRemoved fs) := by
  unfold Operation.OpensRemoved
  split
  · split <;> infer_instance
  · infer_instance

instance (machine : Machine) (action : BootAction) :
    Decidable (NumbersStayFree machine action) := by
  unfold NumbersStayFree
  split <;> infer_instance

structure TableOk (fs : FileSystem) : Prop where
  rootDir : fs.rootDir = some 0
  rootNode : (fs.inodes 0).valid = true ∧ (fs.inodes 0).name.bytes = [slash] ∧
    (fs.inodes 0).type = typeDir
  names : ∀ slot, slot ≠ 0 → (fs.inodes slot).valid = true → slash ∉ (fs.inodes slot).name.bytes
  distinct : ∀ first second, (fs.inodes first).valid = true → (fs.inodes second).valid = true →
    (fs.inodes first).inodeNum = (fs.inodes second).inodeNum → first = second
  sizes : ∀ slot, (fs.inodes slot).valid = true → (fs.inodes slot).type = typeFile →
    (fs.inodes slot).size.toNat ≤ maxFileSize

def Tracks (fs : FileSystem) (opened : Descriptor → Option Slot) : Prop :=
  ∀ fd, (fs.fileDescriptors fd).valid = true → ∀ slot, opened fd = some slot ↔
    (fs.inodes slot).valid = true ∧ (fs.inodes slot).inodeNum = (fs.fileDescriptors fd).inode

variable {fs after : FileSystem} {slot : Slot} {memory : Bool} {result : Int}

theorem Tracks.lookup {opened : Descriptor → Option Slot} (tracks : Tracks fs opened)
    (table : TableOk fs) (fd : Descriptor) (valid : (fs.fileDescriptors fd).valid = true) :
    fs.findInodeByNum (fs.fileDescriptors fd).inode = opened fd := by
  cases expected : opened fd with
  | some slot =>
    obtain ⟨slotValid, number⟩ := (tracks fd valid slot).mp expected
    rw [← number]
    exact findInodeByNum_unique slotValid
      (fun other otherValid same => table.distinct other slot otherValid slotValid same)
  | none =>
    cases found : fs.findInodeByNum (fs.fileDescriptors fd).inode with
    | none => rfl
    | some slot =>
      have here := (tracks fd valid slot).mpr (fs.findInodeByNum_spec found)
      rw [expected] at here
      contradiction

variable {opened : Descriptor → Option Slot}

section

variable (table : TableOk fs)

include table

theorem TableOk.keep (rootDir : after.rootDir = fs.rootDir)
    (rootValid : (after.inodes 0).valid = true)
    (kept : ∀ slot, (after.inodes slot).valid = true → (fs.inodes slot).valid = true ∧
      (after.inodes slot).name = (fs.inodes slot).name ∧
      (after.inodes slot).type = (fs.inodes slot).type ∧
      (after.inodes slot).inodeNum = (fs.inodes slot).inodeNum ∧
      ((after.inodes slot).size = (fs.inodes slot).size ∨
        (after.inodes slot).size.toNat ≤ maxFileSize)) : TableOk after where
  rootDir := rootDir.trans table.rootDir
  rootNode := by
    obtain ⟨-, name, type, -, -⟩ := kept 0 rootValid
    rw [name, type]
    exact ⟨rootValid, table.rootNode.2⟩
  names := by
    intro slot notRoot valid
    obtain ⟨before, name, -⟩ := kept slot valid
    rw [name]
    exact table.names slot notRoot before
  distinct := by
    intro first second firstValid secondValid same
    obtain ⟨firstBefore, -, -, firstNum, -⟩ := kept first firstValid
    obtain ⟨secondBefore, -, -, secondNum, -⟩ := kept second secondValid
    rw [firstNum, secondNum] at same
    exact table.distinct first second firstBefore secondBefore same
  sizes := by
    intro slot valid isFile
    obtain ⟨before, -, type, -, same | small⟩ := kept slot valid
    · rw [type] at isFile
      rw [same]
      exact table.sizes slot before isFile
    · exact small

omit table in
theorem Tracks.keep (tracks : Tracks fs opened)
    (slots : ∀ slot, (after.inodes slot).valid = (fs.inodes slot).valid ∧
      ((fs.inodes slot).valid = true →
        (after.inodes slot).inodeNum = (fs.inodes slot).inodeNum))
    (descriptors : ∀ fd, (after.fileDescriptors fd).valid = true →
      (fs.fileDescriptors fd).valid = true ∧
      (after.fileDescriptors fd).inode = (fs.fileDescriptors fd).inode) :
    Tracks after opened := by
  intro fd valid slot
  obtain ⟨before, number⟩ := descriptors fd valid
  obtain ⟨sameValid, sameNumber⟩ := slots slot
  rw [tracks fd before slot, sameValid, number]
  refine and_congr_right ?_
  intro slotValid
  rw [sameNumber slotValid]

theorem FileStep.numbers (step : FileStep fs after) (tracks : Tracks fs opened) :
    TableOk after ∧ Tracks after opened := by
  have kept : ∀ slot, (after.inodes slot).valid = (fs.inodes slot).valid ∧
      (after.inodes slot).name = (fs.inodes slot).name ∧
      (after.inodes slot).type = (fs.inodes slot).type ∧
      (after.inodes slot).inodeNum = (fs.inodes slot).inodeNum ∧
      ((after.inodes slot).size = (fs.inodes slot).size ∨
        (after.inodes slot).size.toNat ≤ maxFileSize) := by
    intro slot
    obtain same | ⟨-, bytes, size, bound, written⟩ := step.inodes slot
    · rw [same]
      exact ⟨rfl, rfl, rfl, rfl, .inl rfl⟩
    · rw [written]
      exact ⟨rfl, rfl, rfl, rfl, bound⟩
  constructor
  · refine table.keep step.rootDir ((kept 0).1.trans table.rootNode.1) ?_
    intro slot valid
    exact ⟨(kept slot).1 ▸ valid, (kept slot).2⟩
  · exact tracks.keep (fun slot => ⟨(kept slot).1, fun _ => (kept slot).2.2.2.1⟩) step.descriptors

theorem TableOk.failedCreation (free : fs.freeSlot = some slot) (tracks : Tracks fs opened)
    (node : Inode) (invalid : node.valid = false) :
    TableOk (takeInode fs slot node) ∧ Tracks (takeInode fs slot node) opened := by
  have invalidBefore := fs.freeSlot_invalid free
  have other : ∀ s, s ≠ slot → (takeInode fs slot node).inodes s = fs.inodes s :=
    fun s different => fs.setInode_other slot s node different
  have self : (takeInode fs slot node).inodes slot = node := fs.setInode_self slot node
  have notRoot : (0 : Slot) ≠ slot := by
    rintro rfl
    rw [table.rootNode.1] at invalidBefore
    contradiction
  constructor
  · refine table.keep rfl (by rw [other 0 notRoot]; exact table.rootNode.1) ?_
    intro s valid
    have different : s ≠ slot := by
      rintro rfl
      rw [self, invalid] at valid
      contradiction
    rw [other s different] at valid ⊢
    exact ⟨valid, rfl, rfl, rfl, .inl rfl⟩
  · refine tracks.keep ?_ (fun fd valid => ⟨valid, rfl⟩)
    intro s
    by_cases same : s = slot
    · subst same
      rw [self, invalid, invalidBefore]
      exact ⟨rfl, nofun⟩
    · rw [other s same]
      exact ⟨rfl, fun _ => rfl⟩

theorem Creation.numbers {name : List UInt8} {type : UInt32} {parent : Option Slot}
    (creation : Creation fs slot name type parent after) (free : fs.freeSlot = some slot)
    (noSlash : slash ∉ name) (number : NextIsFree fs) (tracks : Tracks fs opened) :
    TableOk after ∧ Tracks after opened := by
  have invalid := fs.freeSlot_invalid free
  obtain ⟨newName, newType, newSize, newValid, newNum, -⟩ := creation.new
  obtain ⟨rootDir, -, descriptors, -, -⟩ := creation.globals
  have others := fun other different => (creation.others other different).1
  have notRoot : (0 : Slot) ≠ slot := by
    rintro rfl
    rw [table.rootNode.1] at invalid
    contradiction
  -- No inode that was there has the number of the new one.
  have apart : ∀ other, other ≠ slot → (after.inodes other).valid = true →
      (after.inodes other).inodeNum ≠ (after.inodes slot).inodeNum := by
    intro other different valid
    obtain ⟨-, -, -, sameValid, sameNum⟩ := others other different
    rw [sameNum, newNum]
    exact number.1 other (sameValid ▸ valid)
  constructor
  · refine ⟨rootDir.trans table.rootDir, ?_, ?_, ?_, ?_⟩
    · obtain ⟨sameName, sameType, -, sameValid, -⟩ := others 0 notRoot
      rw [sameName, sameType, sameValid]
      exact table.rootNode
    · intro other otherRoot valid
      by_cases same : other = slot
      · rw [same, newName]
        intro member
        exact noSlash (takeWhile_subset _ (mem_of_mem_take member))
      · obtain ⟨sameName, -, -, sameValid, -⟩ := others other same
        rw [sameName]
        exact table.names other otherRoot (sameValid ▸ valid)
    · intro first second firstValid secondValid same
      by_cases firstNew : first = slot
      · by_cases secondNew : second = slot
        · rw [firstNew, secondNew]
        · rw [firstNew] at same
          exact absurd same.symm (apart second secondNew secondValid)
      · by_cases secondNew : second = slot
        · rw [secondNew] at same
          exact absurd same (apart first firstNew firstValid)
        · obtain ⟨-, -, -, firstSame, firstNum⟩ := others first firstNew
          obtain ⟨-, -, -, secondSame, secondNum⟩ := others second secondNew
          rw [firstNum, secondNum] at same
          exact table.distinct first second (firstSame ▸ firstValid) (secondSame ▸ secondValid) same
    · intro other valid isFile
      by_cases same : other = slot
      · rw [same, newSize]
        exact Nat.zero_le _
      · obtain ⟨-, sameType, sameSize, sameValid, -⟩ := others other same
        rw [sameSize]
        exact table.sizes other (sameValid ▸ valid) (sameType ▸ isFile)
  · intro fd valid other
    rw [descriptors] at valid ⊢
    rw [tracks fd valid other]
    by_cases same : other = slot
    · rw [same, newNum, invalid, newValid]
      simp [(number.2 fd valid).symm]
    · obtain ⟨-, -, -, sameValid, sameNum⟩ := others other same
      rw [sameValid, sameNum]

theorem openDescriptor_tracks (tracks : Tracks fs opened) {node : Slot}
    (valid : (fs.inodes node).valid = true) (fd : Descriptor) (mode : UInt32) :
    Tracks (fs.setDescriptor fd (openEntry (fs.inodes node) mode))
      (update opened fd (some node)) := by
  intro other otherValid slot
  by_cases same : other = fd
  · subst same
    rw [fs.setDescriptor_self, update_self, fs.setDescriptor_inodes, Option.some.injEq]
    constructor
    · rintro rfl
      exact ⟨valid, rfl⟩
    · rintro ⟨slotValid, number⟩
      exact table.distinct node slot valid slotValid number.symm
  · rw [fs.setDescriptor_other fd other _ same] at otherValid ⊢
    rw [update_of_ne same, tracks other otherValid slot, fs.setDescriptor_inodes]

theorem removal_numbers {unlinked : FileSystem} (links : LinksOnly fs unlinked)
    (notRoot : fs.rootDir ≠ some slot) (tracks : Tracks fs opened) :
    TableOk (invalidate unlinked slot) ∧ Tracks (invalidate unlinked slot)
      (fun fd => if opened fd = some slot then none else opened fd) := by
  have other : ∀ s, s ≠ slot → SameHeader ((invalidate unlinked slot).inodes s) (fs.inodes s) := by
    intro s different
    rw [invalidate, unlinked.setInode_other slot s _ different]
    exact links.header s
  have self : ((invalidate unlinked slot).inodes slot).valid = false := by
    rw [invalidate, unlinked.setInode_self]
  have zero : (0 : Slot) ≠ slot := by
    rintro rfl
    exact notRoot table.rootDir
  constructor
  · refine table.keep links.rootDir ((other 0 zero).2.2.2.1.trans table.rootNode.1) ?_
    intro s valid
    have different : s ≠ slot := by
      rintro rfl
      rw [self] at valid
      contradiction
    obtain ⟨name, type, size, sameValid, num⟩ := other s different
    exact ⟨sameValid ▸ valid, name, type, num, .inl size⟩
  · intro fd valid s
    have descriptors : (invalidate unlinked slot).fileDescriptors = fs.fileDescriptors :=
      links.descriptors
    rw [descriptors] at valid ⊢
    have before := tracks fd valid s
    by_cases same : s = slot
    · subst same
      rw [self]
      simp
    · obtain ⟨-, -, -, sameValid, num⟩ := other s same
      rw [sameValid, num, ← before]
      by_cases removed : opened fd = some slot
      · simp [removed, Ne.symm same]
      · simp [removed]

end

theorem lastComponent_noSlash (seen path : List UInt8) (noSlash : slash ∉ seen) :
    slash ∉ lastComponent (seen ++ path) path := by
  induction path generalizing seen with
  | nil => simpa [lastComponent] using noSlash
  | cons c path ih =>
    simp only [lastComponent]
    split
    · exact ih [] (by simp)
    · next other =>
      have longer := ih (seen ++ [c]) (by simp [noSlash, Ne.symm other])
      simpa using longer

theorem baseName_noSlash (path : CString) : slash ∉ baseName path :=
  lastComponent_noSlash [] path.bytes (by simp)

section

variable (table : TableOk fs) (tracks : Tracks fs opened)

include table tracks

theorem fsCreateInode_numbers {name : List UInt8} {type : UInt32} {parent node : Option Slot}
    (noSlash : slash ∉ name) (number : memory = true → fs.freeSlot ≠ none → NextIsFree fs)
    (memoryFor : type ≠ typeFile → memory = true)
    (returned : fsCreateInode fs name type parent memory = .ok (after, node)) :
    TableOk after ∧ Tracks after opened ∧
      ∀ slot, node = some slot → (after.inodes slot).valid = true := by
  obtain ⟨-, rfl, rfl⟩ | ⟨slot, free, rfl, -, -, rfl⟩ | ⟨slot, free, rfl, allocated, creation⟩ :=
    fsCreateInode_cases returned
  · exact ⟨table, tracks, nofun⟩
  · obtain ⟨kept, still⟩ := table.failedCreation free tracks
      (newInode fs name type parent .null false) rfl
    exact ⟨kept, still, nofun⟩
  · have available : memory = true := by
      by_cases isFile : type = typeFile
      · exact allocated isFile
      · exact memoryFor isFile
    obtain ⟨kept, still⟩ := creation.numbers table free noSlash
      (number available (by rw [free]; nofun)) tracks
    refine ⟨kept, still, ?_⟩
    rintro other ⟨⟩
    exact creation.new.2.2.2.1

theorem openNode_numbers {path : CString} {mode : UInt32} {node : Option Slot}
    (creates : (Operation.fsOpen (some path) mode memory).Creates fs → NextIsFree fs)
    (opens : ¬(Operation.fsOpen (some path) mode memory).OpensRemoved fs)
    (returned : openNode fs path mode memory = .ok (after, node)) :
    TableOk after ∧ Tracks after opened ∧
      ∀ slot, node = some slot → (after.inodes slot).valid = true := by
  obtain ⟨rfl, resolved⟩ | ⟨missing, writes, created⟩ := openNode_cases returned
  · refine ⟨table, tracks, ?_⟩
    rintro slot rfl
    by_contra invalid
    apply opens
    rw [Operation.OpensRemoved, resolved]
    exact Bool.eq_false_of_not_eq_true invalid
  · exact fsCreateInode_numbers table tracks (baseName_noSlash path)
      (fun available room => creates ⟨missing, writes, available, room⟩)
      (fun notFile => absurd rfl notFile) created

theorem fsOpen_numbers {path : Option CString} {mode : UInt32}
    (creates : (Operation.fsOpen path mode memory).Creates fs → NextIsFree fs)
    (opens : ¬(Operation.fsOpen path mode memory).OpensRemoved fs)
    (returned : fsOpen fs path mode memory = .ok (after, result)) :
    TableOk after ∧ Tracks after (track fs opened result (.fsOpen path mode memory)) := by
  have untracked : track fs opened (-1) (.fsOpen path mode memory) = opened := by
    cases path with
    | none => rfl
    | some text =>
      simp only [track]
      split
      · exact if_neg (by decide)
      · rfl
  obtain ⟨rfl, rfl⟩ | ⟨text, found, node, rfl, -, opening, described⟩ := fsOpen_cases returned
  · rw [untracked]
    exact ⟨table, tracks⟩
  · obtain ⟨foundTable, foundTracks, valid⟩ := openNode_numbers table tracks creates opens opening
    obtain failed | ⟨slot, fd, rfl, -, -, given⟩ := openDescriptor_cases found node mode
    · rw [failed] at described
      cases described
      rw [untracked]
      exact ⟨foundTable, foundTracks⟩
    · rw [given] at described
      cases described
      have recorded : track fs opened fd.val (.fsOpen (some text) mode memory) =
          update opened fd (some slot) := by
        simp only [track, opening, Int.toNat_natCast, Fin.ofNat_eq_cast, Fin.cast_val_eq_self]
        exact if_pos (Int.natCast_nonneg _)
      rw [recorded]
      refine ⟨?_, openDescriptor_tracks foundTable foundTracks (valid slot rfl) fd mode⟩
      exact foundTable.keep rfl foundTable.rootNode.1 (fun _ held => ⟨held, rfl, rfl, rfl, .inl rfl⟩)

theorem fsRemove_numbers {path : Option CString}
    (returned : fsRemove fs path = .ok (after, result)) :
    TableOk after ∧ Tracks after (track fs opened result (.fsRemove path)) := by
  obtain ⟨rfl, rfl⟩ | ⟨slot, unlinked, resolved, notRoot, rfl, -, rfl, unlinking⟩ :=
    fsRemove_cases returned
  · have untracked : track after opened (-1) (.fsRemove path) = opened := by
      simp only [track]
      split
      · exact if_neg (by decide)
      · rfl
    rw [untracked]
    exact ⟨table, tracks⟩
  · have links : LinksOnly fs unlinked := by
      obtain ⟨-, rfl⟩ | ⟨parent, -, done⟩ := unlinking
      · exact .refl _
      · exact unlinkChild_linksOnly done
    simp only [track, resolved, if_true]
    exact removal_numbers table links notRoot tracks

theorem operation_numbers {operation : Operation} (creates : operation.Creates fs → NextIsFree fs)
    (opens : ¬operation.OpensRemoved fs) (returned : operation.apply fs = .ok (after, result)) :
    TableOk after ∧ Tracks after (track fs opened result operation) := by
  cases operation with
  | fsOpen path mode memory => exact fsOpen_numbers table tracks creates opens returned
  | fsMkdir path =>
    obtain ⟨rfl, rfl⟩ | ⟨text, node, rfl, missing, created, -⟩ := fsMkdir_cases returned
    · exact ⟨table, tracks⟩
    · obtain ⟨kept, still, -⟩ := fsCreateInode_numbers table tracks (baseName_noSlash text)
        (fun _ room => creates ⟨missing, room⟩) (fun _ => rfl) created
      exact ⟨kept, still⟩
  | fsClose fd => exact (Operation.onFile_fileStep rfl returned).numbers table tracks
  | fsRead fd buffer size => exact (Operation.onFile_fileStep rfl returned).numbers table tracks
  | fsWrite fd buffer size => exact (Operation.onFile_fileStep rfl returned).numbers table tracks
  | fsSeek fd offset whence => exact (Operation.onFile_fileStep rfl returned).numbers table tracks
  | setCurrentDir path =>
    obtain rfl | ⟨slot, -, -, rfl⟩ := setCurrentDir_cases returned
    · exact ⟨table, tracks⟩
    · exact ⟨table.keep rfl table.rootNode.1 (fun _ valid => ⟨valid, rfl, rfl, rfl, .inl rfl⟩),
        tracks.keep (fun _ => ⟨rfl, fun _ => rfl⟩) (fun _ valid => ⟨valid, rfl⟩)⟩
  | fsRemove path => exact fsRemove_numbers table tracks returned

end

/-- The table of an image that `fs_save` wrote from a table that was in order. -/
structure ImageOk (disk : Disk) : Prop where
  valid : ∀ j < imageCount disk, (tableEntry disk j).valid = 1
  root : (tableEntry disk 0).name.bytes = [slash] ∧ (tableEntry disk 0).type = typeDir
  names : ∀ j < imageCount disk, j ≠ 0 → slash ∉ (tableEntry disk j).name.bytes
  distinct : ∀ i < imageCount disk, ∀ j < imageCount disk,
    (tableEntry disk i).inodeNum = (tableEntry disk j).inodeNum → i = j
  sizes : ∀ j < imageCount disk, (tableEntry disk j).type = typeFile →
    (tableEntry disk j).size.toNat ≤ maxFileSize

theorem collectInodes_zero (valid : (fs.inodes 0).valid = true) :
    (collectInodes fs)[0]? = some 0 := by
  rw [collectInodes, finRange_succ, filter_cons, if_pos valid]
  rfl

theorem TableOk.image {io : SaveIo} {disk after : Disk} (table : TableOk fs)
    (saved : fsSave fs io disk = .ok (after, 0)) : ImageOk after := by
  have count := fsSave_count saved table.sizes
  have entry : ∀ j < imageCount after, ∃ slot lba, (collectInodes fs)[j]? = some slot ∧
      (fs.inodes slot).valid = true ∧ tableEntry after j = diskInode fs slot lba := by
    intro j inside
    rw [count] at inside
    exact ⟨_, _, List.getElem?_eq_getElem inside,
      collectInodes_valid fs _ (getElem_mem inside), fsSave_entry saved j inside⟩
  have first := collectInodes_zero table.rootNode.1
  obtain ⟨zero, -⟩ := List.getElem?_eq_some_iff.mp first
  obtain ⟨top, topLba, atTop, -, topEntry⟩ := entry 0 (by omega)
  rw [first] at atTop
  cases atTop
  -- The collected slots are pairwise different, so equal slots mean equal indices.
  have same : ∀ (i j : Nat) (slot : Slot), (collectInodes fs)[i]? = some slot →
      (collectInodes fs)[j]? = some slot → i = j := by
    intro i j slot atI atJ
    obtain ⟨inside, -⟩ := List.getElem?_eq_some_iff.mp atI
    exact (List.getElem?_inj inside (collectInodes_nodup fs)).mp (atI.trans atJ.symm)
  refine ⟨?_, ?_, ?_, ?_, ?_⟩
  · intro j inside
    obtain ⟨slot, lba, -, -, here⟩ := entry j inside
    rw [here]
    rfl
  · rw [topEntry]
    exact table.rootNode.2
  · intro j inside later
    obtain ⟨slot, lba, atJ, valid, here⟩ := entry j inside
    rw [here]
    refine table.names slot ?_ valid
    rintro rfl
    exact later (same j 0 0 atJ first)
  · intro i insideI j insideJ numbers
    obtain ⟨slotI, lbaI, atI, validI, hereI⟩ := entry i insideI
    obtain ⟨slotJ, lbaJ, atJ, validJ, hereJ⟩ := entry j insideJ
    rw [hereI, hereJ] at numbers
    have slots := table.distinct slotI slotJ validI validJ numbers
    rw [← slots] at atJ
    exact same i j slotI atI atJ
  · intro j inside isFile
    obtain ⟨slot, lba, -, valid, here⟩ := entry j inside
    rw [here] at isFile ⊢
    exact table.sizes slot valid isFile

theorem createRoot_table (empty : ∀ slot, (fs.inodes slot).valid = false)
    (returned : createRoot fs = .ok after) :
    TableOk after ∧ after.fileDescriptors = fs.fileDescriptors := by
  have free : fs.freeSlot = some 0 :=
    fs.freeSlot_eq 0 (empty 0) (fun other less => absurd less (Fin.not_lt_zero other))
  unfold createRoot at returned
  split at returned
  · contradiction
  · next created root made =>
    cases returned
    obtain ⟨full, -⟩ | ⟨slot, -, -, -, isFile, -⟩ | ⟨slot, found, rfl, -, creation⟩ :=
      fsCreateInode_cases made
    · rw [free] at full
      contradiction
    · exact absurd isFile (by decide)
    · rw [free] at found
      cases found
      obtain ⟨newName, newType, -, newValid, -, -⟩ := creation.new
      -- The root is the only valid inode.
      have only : ∀ slot, (created.inodes slot).valid = true → slot = 0 := by
        intro slot valid
        by_contra other
        rw [(creation.others slot other).1.2.2.2.1, empty slot] at valid
        contradiction
      refine ⟨⟨rfl, ⟨newValid, ?_, newType⟩, ?_, ?_, ?_⟩, creation.globals.2.2.1⟩
      · exact (congrArg Name.bytes newName).trans (by decide)
      · exact fun slot other valid => absurd (only slot valid) other
      · exact fun first second firstValid secondValid _ =>
          (only first firstValid).trans (only second secondValid).symm
      · intro slot valid isFile
        rw [only slot valid, newType] at isFile
        exact absurd isFile (by decide)

section

variable {io : LoadIo} {disk : Disk} (has : HasImage disk) (image : ImageOk disk)
  (whole : ∀ index < 256, io.fileMemory index = true ∧ (io.file index).ok = true)

include has image

include whole in
theorem loadData_whole {index : Nat} (inside : index < imageCount disk) :
    ∃ data, loadData io disk index (tableEntry disk index) = .ok (data, true) := by
  have few := has.few
  obtain ⟨memory, complete⟩ := whole index (by omega)
  unfold loadData
  by_cases isFile : (tableEntry disk index).type = typeFile
  · have size := image.sizes index inside isFile
    rw [if_pos isFile, memory, if_neg (by decide)]
    by_cases content : 0 < (tableEntry disk index).dataLba ∧ 0 < (tableEntry disk index).size
    · have positive : 0 < (tableEntry disk index).size.toNat := UInt32.lt_iff_toNat_lt.mp content.2
      have sectors := sectorsFor_toNat (tableEntry disk index).size
        (by unfold maxFileSize at size; omega)
      have narrow := toUInt8_toNat (sectorsFor (tableEntry disk index).size)
        (by unfold maxFileSize at size; omega)
      have nonzero : (sectorsFor (tableEntry disk index).size).toUInt8 ≠ 0 := by
        intro zero
        rw [zero, show (0 : UInt8).toNat = 0 from rfl] at narrow
        omega
      rw [if_pos content]
      cases transfer : io.file index with
      | stopped _ =>
        rw [transfer] at complete
        contradiction
      | complete =>
        have fits : sectorSize * Transfer.complete.moved
            (sectorsFor (tableEntry disk index).size).toUInt8.toNat ≤ maxFileSize := by
          simp only [Transfer.moved, narrow, sectors, sectorSize]
          unfold maxFileSize at size ⊢
          omega
        simp only [if_pos fits, ataReadSectors, if_neg nonzero]
        exact ⟨_, rfl⟩
    · rw [if_neg content]
      exact ⟨_, rfl⟩
  · rw [if_neg isFile]
    exact ⟨_, rfl⟩

theorem validIndices_whole : validIndices (loadTable disk) (List.range (imageCount disk)) =
    List.range (imageCount disk) := by
  apply filter_eq_self.mpr
  intro j member
  have inside := mem_range.mp member
  rw [loadTable_entry disk has.few j inside, loadable, image.valid j inside]
  rfl

structure FromImage (disk : Disk) (fs : FileSystem) : Prop where
  filled : ∀ slot : Slot, slot.val < imageCount disk → ∃ data,
    SameHeader (fs.inodes slot) (loadedInode (tableEntry disk slot.val) data)
  rest : ∀ slot : Slot, imageCount disk ≤ slot.val → (fs.inodes slot).valid = false

theorem FromImage.table (filling : FromImage disk fs) (rootDir : fs.rootDir = some 0) :
    TableOk fs := by
  have entry : ∀ slot, (fs.inodes slot).valid = true → slot.val < imageCount disk ∧
      (fs.inodes slot).name = (tableEntry disk slot.val).name ∧
      (fs.inodes slot).type = (tableEntry disk slot.val).type ∧
      (fs.inodes slot).size = (tableEntry disk slot.val).size ∧
      (fs.inodes slot).inodeNum = (tableEntry disk slot.val).inodeNum := by
    intro slot valid
    by_cases inside : slot.val < imageCount disk
    · obtain ⟨data, name, type, size, -, num⟩ := filling.filled slot inside
      exact ⟨inside, name, type, size, num⟩
    · rw [filling.rest slot (Nat.le_of_not_lt inside)] at valid
      contradiction
  have rootValid : (fs.inodes 0).valid = true := by
    obtain ⟨data, -, -, -, valid, -⟩ := filling.filled 0 has.some
    exact valid
  refine ⟨rootDir, ?_, ?_, ?_, ?_⟩
  · obtain ⟨-, name, type, -⟩ := entry 0 rootValid
    rw [name, type]
    exact ⟨rootValid, image.root⟩
  · intro slot notRoot valid
    obtain ⟨inside, name, -⟩ := entry slot valid
    rw [name]
    exact image.names slot.val inside (fun zero => notRoot (Fin.ext zero))
  · intro first second firstValid secondValid same
    obtain ⟨firstInside, -, -, -, firstNum⟩ := entry first firstValid
    obtain ⟨secondInside, -, -, -, secondNum⟩ := entry second secondValid
    rw [firstNum, secondNum] at same
    exact Fin.ext (image.distinct _ firstInside _ secondInside same)
  · intro slot valid isFile
    obtain ⟨inside, -, type, size, -⟩ := entry slot valid
    rw [type] at isFile
    rw [size]
    exact image.sizes slot.val inside isFile

include whole in
theorem fsLoad_whole {start : FileSystem} (empty : ∀ slot, (start.inodes slot).valid = false)
    {loaded : FileSystem} {done : Bool}
    (first : loadInodes io disk (loadTable disk) (List.range (imageCount disk)) start =
      .ok (loaded, done)) (ended : (done = false ∧ after = loaded ∧ result = -1) ∨
      (done = true ∧ linkInodes (loadTable disk) (List.range (imageCount disk)) loaded =
        .ok after ∧ result = if after.rootDir.isSome then 0 else -1)) :
    result = 0 ∧ TableOk after ∧ after.fileDescriptors = start.fileDescriptors := by
  have few := has.few
  have room := has.room
  obtain ⟨whole', finished⟩ := loadInodes_succeeds empty (.refl start) room
    (fun index member => by
      rw [loadTable_entry disk few index (mem_range.mp member)]
      exact loadData_whole has image whole (mem_range.mp member))
  rw [finished] at first
  cases first
  obtain ⟨impossible, -⟩ | ⟨-, linked, outcome⟩ := ended
  · contradiction
  · obtain ⟨items, built, -, -, complete⟩ := loadInodes_loaded empty (.refl start) room finished
    rw [nil_append] at built
    obtain ⟨pairs, roots⟩ := complete rfl
    rw [validIndices_whole has image] at pairs
    have length : items.length = imageCount disk := by
      rw [← pairs.length_eq, length_range]
    have entries : ∀ j (inside : j < items.length), items[j].1 = tableEntry disk j := by
      intro j inside
      have pair := (forall₂_iff_get.mp pairs).2 j (by rw [length_range]; omega) inside
      rw [get_eq_getElem, getElem_range] at pair
      exact pair.1.trans (loadTable_entry disk few j (by omega))
    have links := linkInodes_linksOnly linked
    have some := has.some
    have rootDir : after.rootDir = Option.some 0 := by
      rw [links.rootDir, roots.1, length_nil, rootFrom_unique items start.rootDir 0 0 (by omega)]
      · rfl
      · rw [entries 0 (by omega)]
        exact image.root
      · intro j within isRoot
        rw [entries j within] at isRoot
        by_contra later
        exact image.names j (by omega) later (by rw [isRoot.1]; simp)
    refine ⟨by rw [outcome, rootDir]; rfl, FromImage.table has image ⟨?_, ?_⟩ rootDir, ?_⟩
    · intro slot inside
      refine ⟨items[slot.val].2, ?_⟩
      rw [← entries slot.val (by omega), ← built.filled slot (by omega)]
      exact links.header slot
    · intro slot outside
      rw [(links.header slot).2.2.2.1, built.rest slot (by omega), empty slot]
    · rw [links.descriptors, built.descriptors]

end

theorem fsInit_table {io : LoadIo} {disk : Disk} (image : HasImage disk → ImageOk disk)
    (whole : ∀ index < 256, io.fileMemory index = true ∧ (io.file index).ok = true)
    (returned : fsInit io disk bootState = .ok after) :
    TableOk after ∧ ∀ fd, (after.fileDescriptors fd).valid = false := by
  obtain ⟨loaded, result, load, ended⟩ := fsInit_cases rfl returned
  have empty : ∀ slot, ((clearTables bootState).inodes slot).valid = false := fun _ => rfl
  have closed : ∀ fd, ((clearTables bootState).fileDescriptors fd).valid = false := fun _ => rfl
  obtain ⟨rfl, rfl⟩ | ⟨has, loaded', done, first, second⟩ := fsLoad_cases load
  · obtain ⟨impossible, -⟩ | ⟨-, created⟩ := ended
    · exact absurd impossible (by decide)
    · obtain ⟨table, descriptors⟩ := createRoot_table empty created
      rw [descriptors]
      exact ⟨table, closed⟩
  · obtain ⟨zero, table, descriptors⟩ :=
      fsLoad_whole has.toHasImage (image has.toHasImage) whole empty first second
    obtain ⟨-, rfl⟩ | ⟨nonzero, -⟩ := ended
    · refine ⟨⟨table.rootDir, table.rootNode, table.names, table.distinct, table.sizes⟩, ?_⟩
      intro fd
      rw [← closed fd, ← descriptors]
    · exact absurd zero nonzero

structure BootInvariant (machine : Machine) : Prop where
  image : HasImage machine.image → ImageOk machine.image
  running : machine.fs = bootState ∨ TableOk machine.fs ∧ Tracks machine.fs machine.opened

theorem bootStep_invariant {machine after : Machine} {action : BootAction} {events : List Empty}
    (invariant : BootInvariant machine) (met : NumbersStayFree machine action)
    (taken : bootStep machine action = some (after, events)) : BootInvariant after := by
  cases action with
  | fsInit io =>
    simp only [bootStep] at taken
    split at taken
    · next fs booted =>
      cases taken
      obtain ⟨table, closed⟩ := fsInit_table invariant.image met booted
      refine ⟨invariant.image, .inr ⟨table, ?_⟩⟩
      intro fd valid
      rw [closed fd] at valid
      contradiction
    · contradiction
  | operation operation =>
    simp only [bootStep] at taken
    split at taken
    · contradiction
    · next ready =>
      split at taken
      · next fs result applied =>
        cases taken
        obtain off | ⟨table, tracks⟩ := invariant.running
        · rw [off] at ready
          exact absurd rfl ready
        · exact ⟨invariant.image,
            .inr (operation_numbers table tracks met.1 met.2 applied)⟩
      · contradiction
  | fsSave io =>
    simp only [bootStep] at taken
    split at taken
    · next disk result saved =>
      cases taken
      split
      · next zero =>
        subst zero
        refine ⟨?_, invariant.running⟩
        obtain off | ⟨table, -⟩ := invariant.running
        · obtain ⟨-, ready, -⟩ := fsSave_returned saved
          rw [off] at ready
          contradiction
        · exact fun _ => table.image saved
      · exact invariant
    · contradiction

theorem numbers_sound_across_boots (disk : Disk)
    (blank : (Superblock.load disk).magic ≠ fsMagic) {history : List Empty} {machine : Machine}
    (run : Stepper.Run bootStep NumbersStayFree (.off disk) history machine) :
    NumbersSound machine := by
  have invariant : BootInvariant machine := by
    refine run.invariant (fun _ => BootInvariant) ?_ ?_
    · exact ⟨fun has => absurd has.magic blank, .inl rfl⟩
    · exact fun _ _ _ _ _ held met taken => bootStep_invariant held met taken
  obtain off | ⟨table, tracks⟩ := invariant.running
  · refine ⟨?_, ?_⟩
    · rw [off]
      exact nofun
    · rw [off]
      exact nofun
  · exact ⟨table.distinct, fun fd valid => tracks.lookup table fd valid⟩

theorem numbers_sound_across_boots_two : ∃ history machine,
    Stepper.Run bootStep NumbersStayFree (.off (fun _ => 0)) history machine ∧
    (machine.fs.inodes 1).valid = true ∧ NumbersSound machine := by
  obtain ⟨history, machine, run, loaded⟩ := Stepper.Run.exists_of_actions bootStep NumbersStayFree
    (.off (fun _ => 0))
    [.fsInit .success, .operation (.fsOpen (some ⟨[97], by decide⟩) modeWrite true),
      .fsSave .success, .fsInit .success]
    (fun _ machine => (machine.fs.inodes 1).valid) (by decide +kernel)
  exact ⟨history, machine, run, loaded,
    numbers_sound_across_boots (fun _ => 0) (by decide +kernel) run⟩

-- The second boot loads the root with number 1, and the counter is at 1 again.
theorem number_repeats_after_load : ∃ history machine,
    Stepper.Run bootStep (fun _ _ => True) (.off (fun _ => 0)) history machine ∧
    ¬NumbersSound machine := by
  obtain ⟨history, machine, run, repeated⟩ := Stepper.Run.exists_of_actions bootStep
    (fun _ _ => True) (.off (fun _ => 0))
    [.fsInit .success, .fsSave .success, .fsInit .success,
      .operation (.fsOpen (some ⟨[97], by decide⟩) modeWrite true)]
    (fun _ machine => (machine.fs.inodes 0).valid && (machine.fs.inodes 1).valid &&
      (machine.fs.inodes 0).inodeNum == (machine.fs.inodes 1).inodeNum) (by decide +kernel)
  rw [Bool.and_eq_true, Bool.and_eq_true, beq_iff_eq] at repeated
  refine ⟨history, machine, run, ?_⟩
  intro sound
  exact absurd (sound.distinct 0 1 repeated.1.1 repeated.1.2 repeated.2) (by decide)

end ArgoOS.Fs
