import ArgoOS.Fs.ByteFile
import ArgoOS.Fs.Paths
import ArgoOS.Fs.SystemCalls

set_option autoImplicit false

/-! # Positions and sizes of descriptors -/

namespace ArgoOS.Fs

open FileSystem UInt32

def FileDescriptor.Small (entry : FileDescriptor) : Prop :=
  entry.position.toNat ≤ maxFileSize ∧ entry.size.toNat ≤ maxFileSize

def EntriesSmall (fs : FileSystem) : Prop :=
  ∀ fd, (fs.fileDescriptors fd).valid = true → (fs.fileDescriptors fd).Small

-- An inode that was removed can still be opened through a stale list, so its size counts.
def SizesFit (fs : FileSystem) : Prop :=
  ∀ slot, (fs.inodes slot).type = typeFile → (fs.inodes slot).size.toNat ≤ maxFileSize

structure Positioned (fs : FileSystem) : Prop where
  files : FilesFit fs
  sizes : SizesFit fs
  entries : EntriesSmall fs

variable {fd : Int} {result : Int} {buffer : Option (Nat → UInt8)} {size : UInt32}
  {operation : Operation} {start : FileSystem}

variable {fs after : FileSystem}

section

theorem EntriesSmall.setDescriptor (small : EntriesSmall fs) (index : Descriptor)
    (entry : FileDescriptor) (new : entry.valid = true → entry.Small) :
    EntriesSmall (fs.setDescriptor index entry) := by
  intro fd valid
  by_cases here : fd = index
  · subst here
    rw [setDescriptor_self] at valid ⊢
    exact new valid
  · rw [setDescriptor_other _ _ _ _ here] at valid ⊢
    exact small fd valid

theorem fsCreateInode_sizes {name : List UInt8} {type : UInt32} {parent node : Option Slot}
    {memory : Bool} (sizes : SizesFit fs)
    (returned : fsCreateInode fs name type parent memory = .ok (after, node)) :
    SizesFit after := by
  obtain ⟨-, -, rfl⟩ | ⟨slot, -, -, -, -, rfl⟩ | ⟨slot, -, -, -, creation⟩ :=
    fsCreateInode_cases returned
  · exact sizes
  · intro other isFile
    by_cases here : other = slot
    · subst here
      rw [takeInode_self]
      exact Nat.zero_le _
    · rw [takeInode_other _ _ _ _ here] at isFile ⊢
      exact sizes other isFile
  · intro other isFile
    by_cases here : other = slot
    · subst here
      rw [creation.new.2.2.1]
      exact Nat.zero_le _
    · obtain ⟨⟨-, type', size', -⟩, -⟩ := creation.others other here
      rw [size']
      exact sizes other (type'.symm.trans isFile)

theorem fsOpen_small {path : Option CString} {mode : UInt32} {memory : Bool} (sizes : SizesFit fs)
    (small : EntriesSmall fs) (returned : fsOpen fs path mode memory = .ok (after, result)) :
    EntriesSmall after := by
  obtain ⟨rfl, -⟩ | ⟨text, found, node, rfl, -, opening, described⟩ := fsOpen_cases returned
  · exact small
  · have kept : SizesFit found ∧ EntriesSmall found := by
      obtain ⟨rfl, -⟩ | ⟨-, -, made⟩ := openNode_cases opening
      · exact ⟨sizes, small⟩
      · refine ⟨fsCreateInode_sizes sizes made, ?_⟩
        unfold EntriesSmall
        rw [fsCreateInode_descriptors made]
        exact small
    obtain failed | ⟨slot, fd, -, isFile, -, given⟩ := openDescriptor_cases found node mode
    · rw [failed] at described
      cases described
      exact kept.2
    · rw [given] at described
      cases described
      have fits := kept.1 slot isFile
      refine kept.2.setDescriptor fd _ (fun _ => ⟨?_, fits⟩)
      simp only [openEntry]
      split
      · exact fits
      · exact Nat.zero_le _

theorem fsClose_small (small : EntriesSmall fs) (fd : Int) : EntriesSmall (fsClose fs fd).1 := by
  unfold fsClose
  split
  · exact small
  · exact small.setDescriptor _ _ nofun

theorem fileBuffer_position {data : Data} {position count : UInt32} {bytes : Nat → UInt8}
    (copied : fileBuffer data position count = .ok bytes) :
    data = .buffer bytes ∧ position.toNat + count.toNat ≤ maxFileSize ∧
      (position + count).toNat = position.toNat + count.toNat := by
  unfold fileBuffer at copied
  split at copied
  · contradiction
  · contradiction
  · split at copied
    · next inside =>
      cases copied
      refine ⟨rfl, inside, ?_⟩
      unfold maxFileSize at inside
      rw [UInt32.toNat_add]
      omega
    · contradiction

theorem fsRead_cases {target : Option (Nat → UInt8)}
    (returned : fsRead fs fd buffer size = .ok (after, result, target)) :
    (after = fs ∧ result ≤ 0 ∧ target = buffer) ∨
    ∃ source index slot bytes count, buffer = some source ∧
      openFile fs fd modeRead = some (index, slot) ∧
      fileBuffer (fs.inodes slot).data (fs.fileDescriptors index).position count = .ok bytes ∧
      result = signed count ∧
      target = some (Bytes.copy source 0
        (fun i => bytes ((fs.fileDescriptors index).position.toNat + i)) count.toNat) ∧
      after = fs.setDescriptor index { fs.fileDescriptors index with
        position := (fs.fileDescriptors index).position + count } := by
  cases buffer with
  | none =>
    cases returned
    exact .inl ⟨rfl, by decide, rfl⟩
  | some source =>
    cases found : openFile fs fd modeRead with
    | none =>
      simp only [fsRead, found] at returned
      cases returned
      exact .inl ⟨rfl, by decide, rfl⟩
    | some file =>
      obtain ⟨index, slot⟩ := file
      simp only [fsRead, found] at returned
      split at returned
      · cases returned
        exact .inl ⟨rfl, Int.le_refl 0, rfl⟩
      · split at returned
        · contradiction
        · next bytes copied =>
          cases returned
          exact .inr ⟨source, index, slot, bytes, _, rfl, rfl, copied, rfl, rfl, rfl⟩

theorem fsRead_small {target : Option (Nat → UInt8)} (small : EntriesSmall fs)
    (returned : fsRead fs fd buffer size = .ok (after, result, target)) : EntriesSmall after := by
  obtain ⟨rfl, -⟩ | ⟨source, index, slot, bytes, count, -, -, copied, -, -, rfl⟩ :=
    fsRead_cases returned
  · exact small
  · obtain ⟨-, inside, sum⟩ := fileBuffer_position copied
    refine small.setDescriptor index _ (fun valid => ⟨?_, (small index valid).2⟩)
    rw [sum]
    exact inside

theorem fsWrite_small (small : EntriesSmall fs)
    (returned : fsWrite fs fd buffer size = .ok (after, result)) : EntriesSmall after := by
  obtain ⟨rfl, -⟩ | ⟨source, index, slot, bytes, -, -, copied, -, rfl⟩ := fsWrite_cases returned
  · exact small
  · obtain ⟨-, inside, sum⟩ := fileBuffer_position copied
    have kept : ∀ node, EntriesSmall (fs.setInode slot node) := fun _ => small
    refine (kept _).setDescriptor index _ (fun valid => ⟨?_, ?_⟩)
    · rw [sum]
      exact inside
    · dsimp only
      split
      · exact writeExtent_size _ _
      · exact (small index valid).2

theorem fsSeek_small (small : EntriesSmall fs) (fd : Int) (offset : Int32) (whence : UInt32) :
    EntriesSmall (fsSeek fs fd offset whence).1 := by
  unfold fsSeek
  split
  · exact small
  · next index _ =>
    simp only
    split
    · exact small
    · refine small.setDescriptor index _ (fun valid => ⟨?_, (small index valid).2⟩)
      dsimp only
      split
      · exact (small index valid).2
      · next target _ within =>
        rw [gt_iff_lt, lt_iff_toNat_lt, Nat.not_lt] at within
        exact Nat.le_trans within (small index valid).2

theorem operation_small (sizes : SizesFit fs) (small : EntriesSmall fs)
    (returned : operation.apply fs = .ok (after, result)) : EntriesSmall after := by
  have same : after.fileDescriptors = fs.fileDescriptors → EntriesSmall after := by
    intro kept
    unfold EntriesSmall
    rw [kept]
    exact small
  cases operation with
  | fsOpen path mode memory => exact fsOpen_small sizes small returned
  | fsMkdir path =>
    obtain ⟨rfl, -⟩ | ⟨text, node, -, -, made, -⟩ := fsMkdir_cases returned
    · exact small
    · exact same (fsCreateInode_descriptors made)
  | fsClose fd =>
    obtain rfl : (Fs.fsClose fs fd).1 = after := congrArg Prod.fst (Except.ok.inj returned)
    exact fsClose_small small fd
  | fsRead fd buffer size =>
    cases reading : Fs.fsRead fs fd buffer size with
    | error fault =>
      simp only [Operation.apply, reading] at returned
      contradiction
    | ok read =>
      simp only [Operation.apply, reading] at returned
      cases returned
      exact fsRead_small small reading
  | fsWrite fd buffer size => exact fsWrite_small small returned
  | fsSeek fd offset whence =>
    obtain rfl : (Fs.fsSeek fs fd offset whence).1 = after :=
      congrArg Prod.fst (Except.ok.inj returned)
    exact fsSeek_small small fd offset whence
  | setCurrentDir path =>
    obtain rfl | ⟨slot, -, -, rfl⟩ := setCurrentDir_cases returned
    · exact small
    · exact small
  | fsRemove path =>
    obtain ⟨rfl, -⟩ | ⟨slot, unlinked, -, -, -, -, rfl, unlinking⟩ := fsRemove_cases returned
    · exact small
    · obtain ⟨-, rfl⟩ | ⟨parent, -, done⟩ := unlinking
      · exact small
      · exact same (unlinkChild_linksOnly done).descriptors

theorem operation_sizes (sizes : SizesFit fs)
    (returned : operation.apply fs = .ok (after, result)) : SizesFit after := by
  cases operation_effect returned with
  | pointers same =>
    rw [same]
    exact sizes
  | onFile step =>
    intro slot isFile
    obtain same | ⟨wasFile, bytes, size, bound, written⟩ := step.inodes slot
    · rw [same] at isFile ⊢
      exact sizes slot isFile
    · rw [written]
      obtain rfl | fits := bound
      · exact sizes slot wasFile
      · exact fits
  | create path type memory found node _ _ made same =>
    have found' := fsCreateInode_sizes sizes made
    rw [same]
    exact found'
  | remove slot unlinked removed unlinking =>
    have unlinked' : SizesFit unlinked := by
      obtain ⟨-, rfl⟩ | ⟨parent, -, done⟩ := unlinking
      · exact sizes
      · intro other isFile
        obtain ⟨-, type', size', -⟩ := (unlinkChild_linksOnly done).header other
        rw [size']
        exact sizes other (type'.symm.trans isFile)
    rw [removed]
    intro other isFile
    by_cases here : other = slot
    · subst here
      rw [invalidate, setInode_self] at isFile ⊢
      exact unlinked' other isFile
    · rw [invalidate, setInode_other _ _ _ _ here] at isFile ⊢
      exact unlinked' other isFile

theorem operation_positioned (positioned : Positioned fs)
    (returned : operation.apply fs = .ok (after, result)) : Positioned after :=
  ⟨operation_filesFit positioned.files returned, operation_sizes positioned.sizes returned,
    operation_small positioned.sizes positioned.entries returned⟩

end

section

variable {io : LoadIo} {disk : Disk}

structure Cleared (fs : FileSystem) : Prop where
  descriptors : ∀ fd, (fs.fileDescriptors fd).valid = false
  free : ∀ slot, (fs.inodes slot).valid = false → (fs.inodes slot).size = 0

theorem Loaded.cleared {loaded : FileSystem} {items : List Item}
    (filled : Loaded (clearTables bootState) loaded items) : Cleared loaded := by
  refine ⟨fun fd => ?_, fun slot invalid => ?_⟩
  · rw [filled.descriptors]
    rfl
  · by_cases inside : slot.val < items.length
    · rw [filled.filled slot inside] at invalid
      contradiction
    · rw [filled.rest slot (Nat.le_of_not_lt inside)]
      rfl

theorem fsLoad_cleared {loaded : FileSystem}
    (load : fsLoad io disk (clearTables bootState) = .ok (loaded, result)) : Cleared loaded := by
  obtain ⟨rfl, -⟩ | ⟨opens, first, done, filled, outcome⟩ := fsLoad_cases load
  · exact ⟨fun _ => rfl, fun _ _ => rfl⟩
  · have empty : ∀ slot, ((clearTables bootState).inodes slot).valid = false := fun _ => rfl
    obtain ⟨items, loadedItems, -⟩ := loadInodes_loaded empty (.refl _) opens.room filled
    have cleared := loadedItems.cleared
    obtain ⟨-, rfl, -⟩ | ⟨-, linked, -⟩ := outcome
    · exact cleared
    · have links := linkInodes_linksOnly linked
      refine ⟨fun fd => ?_, fun slot invalid => ?_⟩
      · rw [links.descriptors]
        exact cleared.descriptors fd
      · obtain ⟨-, -, size, valid, -⟩ := links.header slot
        rw [size]
        exact cleared.free slot (valid.symm.trans invalid)

theorem createRoot_cleared {fs after : FileSystem} (cleared : Cleared fs)
    (made : createRoot fs = .ok after) : Cleared after := by
  unfold createRoot at made
  split at made
  · contradiction
  · next created root creating =>
    cases made
    refine ⟨fun fd => ?_, fun slot invalid => ?_⟩
    · change (created.fileDescriptors fd).valid = false
      rw [fsCreateInode_descriptors creating]
      exact cleared.descriptors fd
    · obtain ⟨-, -, rfl⟩ | ⟨new, -, -, -, -, rfl⟩ | ⟨new, -, -, -, creation⟩ :=
        fsCreateInode_cases creating
      · exact cleared.free slot invalid
      · by_cases here : slot = new
        · subst here
          rw [takeInode_self]
          rfl
        · simp only [takeInode_other _ _ _ _ here] at invalid ⊢
          exact cleared.free slot invalid
      · by_cases here : slot = new
        · subst here
          exact creation.new.2.2.1
        · obtain ⟨⟨-, -, size, valid, -⟩, -⟩ := creation.others slot here
          change (created.inodes slot).size = 0
          rw [size]
          exact cleared.free slot (valid.symm.trans invalid)

section

variable (booted : fsInit io disk bootState = .ok start)

include booted

theorem fsInit_cleared : Cleared start := by
  obtain ⟨loaded, result, load, ended⟩ := fsInit_cases rfl booted
  have cleared := fsLoad_cleared load
  obtain ⟨-, rfl⟩ | ⟨-, made⟩ := ended
  · exact ⟨cleared.descriptors, cleared.free⟩
  · exact createRoot_cleared cleared made

theorem fsInit_positioned (files : FilesFit start) : Positioned start := by
  have cleared := fsInit_cleared booted
  refine ⟨files, fun slot isFile => ?_, fun fd valid => ?_⟩
  · cases valid : (start.inodes slot).valid with
    | false =>
      rw [cleared.free slot valid]
      exact Nat.zero_le _
    | true => exact (files slot valid isFile).1
  · rw [cleared.descriptors fd] at valid
    contradiction

theorem run_positioned {state : FileSystem} {history : List Empty} (files : FilesFit start)
    (run : Stepper.Run fsStep (fun _ _ => True) start history state) : Positioned state := by
  refine run.invariant (fun _ fs => Positioned fs) (fsInit_positioned booted files) ?_
  intro _ before after operation _ positioned _ taken
  obtain ⟨result, returned⟩ := fsStep_returned taken
  exact operation_positioned positioned returned

end

end

variable {index : Descriptor}

section

variable {slot : Slot}

def WritesExactly (fs : FileSystem) (fd : Int) (index : Descriptor) (slot : Slot)
    (buffer : Nat → UInt8) (size : UInt32) : Prop :=
  ∃ after bytes count, fsWrite fs fd (some buffer) size = .ok (after, (count : Nat)) ∧
    count = min size.toNat (maxFileSize - (fs.fileDescriptors index).position.toNat) ∧
    (fs.inodes slot).data = .buffer bytes ∧ Written fs after index slot bytes buffer count ∧
    (fs.fileDescriptors index).position.toNat + count ≤ maxFileSize ∧
    (after.inodes slot).size.toNat ≤ maxFileSize

theorem writesExactly_iff (opened : openFile fs fd modeWrite = some (index, slot))
    (buffer : Nat → UInt8) (size : UInt32) :
    WritesExactly fs fd index slot buffer size ↔
      (∃ bytes, (fs.inodes slot).data = .buffer bytes) ∧
      (fs.inodes slot).size.toNat ≤ maxFileSize ∧
      (fs.fileDescriptors index).position.toNat ≤ maxFileSize ∧
      (fs.fileDescriptors index).position.toNat + size.toNat < 2 ^ 32 := by
  constructor
  · rintro ⟨after, bytes, count, returned, -, data, written, fits, sizeFits⟩
    have inside := Nat.le_trans (Nat.le_add_right _ count) fits
    rw [written.size] at sizeFits
    refine ⟨⟨bytes, data⟩, Nat.le_trans (Nat.le_max_left _ _) sizeFits, inside, ?_⟩
    by_contra wraps
    rw [fsWrite_wraps opened data buffer size inside (Nat.le_of_not_lt wraps)] at returned
    contradiction
  · rintro ⟨⟨bytes, data⟩, sizeFits, inside, noWrap⟩
    obtain ⟨after, returned, written⟩ := fsWrite_written opened data buffer size inside noWrap
    have fits : (fs.fileDescriptors index).position.toNat +
        min size.toNat (maxFileSize - (fs.fileDescriptors index).position.toNat) ≤
          maxFileSize := by
      omega
    refine ⟨after, bytes, _, returned, rfl, data, written, fits, ?_⟩
    rw [written.size]
    exact Nat.max_le.mpr ⟨sizeFits, fits⟩

theorem Positioned.writesExactly_iff (positioned : Positioned fs)
    (opened : openFile fs fd modeWrite = some (index, slot)) (buffer : Nat → UInt8)
    (size : UInt32) : WritesExactly fs fd index slot buffer size ↔
      (fs.fileDescriptors index).position.toNat + size.toNat < 2 ^ 32 := by
  obtain ⟨valid, -, lookup, isFile⟩ := openFile_cases opened
  obtain ⟨sizeFits, data⟩ := positioned.files slot (fs.findInodeByNum_spec lookup).1 isFile
  have small := (positioned.entries index (validDescriptor_cases valid).2).1
  rw [Fs.writesExactly_iff opened]
  exact ⟨fun exactly => exactly.2.2.2, fun noWrap => ⟨data, sizeFits, small, noWrap⟩⟩

theorem Positioned.sysWrite_overruns (positioned : Positioned fs)
    (opened : openFile fs index.val modeWrite = some (index, slot)) (high : 3 ≤ index.val)
    (serial : Serial) (buffer : Nat → UInt8) (size : UInt32) (positive : size ≠ 0) :
    sysWrite ⟨fs, serial⟩ (UInt32.ofNat index.val) (some buffer) size = .error .outOfBounds ↔
      2 ^ 32 ≤ (fs.fileDescriptors index).position.toNat + size.toNat := by
  have number : (UInt32.ofNat index.val).toNat = index.val := by
    rw [toNat_ofNat', Nat.mod_eq_of_lt (by omega)]
  have port : (3 : UInt32) ≤ UInt32.ofNat index.val := by
    rw [le_iff_toNat_le, number]
    exact high
  have value : signed (UInt32.ofNat index.val) = index.val := by
    rw [signed_small _ (by rw [number]; omega), number]
  obtain ⟨valid, -, lookup, isFile⟩ := openFile_cases opened
  obtain ⟨-, bytes, data⟩ := positioned.files slot (fs.findInodeByNum_spec lookup).1 isFile
  have small := (positioned.entries index (validDescriptor_cases valid).2).1
  rw [(actsOnFile_high positive port).write, value, Kernel.write]
  constructor
  · intro failed
    by_contra noWrap
    obtain ⟨after, returned, -⟩ :=
      fsWrite_written opened data buffer size small (Nat.lt_of_not_le noWrap)
    rw [returned] at failed
    contradiction
  · intro wraps
    rw [fsWrite_wraps opened data buffer size small wraps]
    rfl

theorem writes_stay_in_buffer {io : LoadIo} {disk : Disk} {start state : FileSystem}
    {history : List Empty} {fd : Int} {index : Descriptor} {slot : Slot}
    (booted : fsInit io disk bootState = .ok start)
    (run : Stepper.Run fsStep (fun _ _ => True) start history state)
    (opened : openFile state fd modeWrite = some (index, slot)) (buffer : Nat → UInt8)
    (size : UInt32) :
    (WritesExactly state fd index slot buffer size ↔
      (∃ bytes, (state.inodes slot).data = .buffer bytes) ∧
      (state.inodes slot).size.toNat ≤ maxFileSize ∧
      (state.fileDescriptors index).position.toNat ≤ maxFileSize ∧
      (state.fileDescriptors index).position.toNat + size.toNat < 2 ^ 32) ∧
    (FilesFit start →
      (WritesExactly state fd index slot buffer size ↔
        (state.fileDescriptors index).position.toNat + size.toNat < 2 ^ 32) ∧
      ∀ serial, 3 ≤ index.val → size ≠ 0 →
        (sysWrite ⟨state, serial⟩ (UInt32.ofNat index.val) (some buffer) size =
            .error .outOfBounds ↔
          2 ^ 32 ≤ (state.fileDescriptors index).position.toNat + size.toNat)) := by
  refine ⟨writesExactly_iff opened buffer size, fun files => ?_⟩
  have positioned := run_positioned booted files run
  obtain ⟨rfl, -⟩ := validDescriptor_cases (openFile_cases opened).1
  exact ⟨positioned.writesExactly_iff opened buffer size,
    fun serial high positive => positioned.sysWrite_overruns opened high serial buffer size positive⟩

end

theorem freshFs_filesFit : FilesFit freshFs := by
  have none : FilesFit (clearTables bootState) := fun _ valid => absurd valid Bool.false_ne_true
  obtain ⟨fs, created, -⟩ := createRoot_keeps (clearTables bootState) (fun _ => rfl)
  simp only [freshFs, created]
  exact createRoot_filesFit none created

def openText : Operation :=
  .fsOpen (some textPath) (modeRead ||| modeWrite) true

-- The fourth descriptor is the first that system calls reach. It stands behind one byte.
theorem fourth_descriptor_open : ∃ history state,
    Stepper.Run fsStep (fun _ _ => True) freshFs history state ∧
    openFile state 3 modeWrite = some (3, 1) ∧ (state.fileDescriptors 3).position = 1 := by
  obtain ⟨history, state, run, passed⟩ := Stepper.Run.exists_of_actions fsStep
    (fun _ _ => True) freshFs
    [openText, openText, openText, openText, .fsWrite 3 (some fun _ => 120) 1]
    (fun _ fs => decide (openFile fs 3 modeWrite = some (3, 1) ∧
      (fs.fileDescriptors 3).position = 1)) (by decide +kernel)
  obtain ⟨opened, position⟩ := of_decide_eq_true passed
  exact ⟨history, state, run, opened, position⟩

theorem writes_stay_in_buffer_one : ∃ history state,
    Stepper.Run fsStep (fun _ _ => True) freshFs history state ∧
    openFile state 3 modeWrite = some (3, 1) ∧
    WritesExactly state 3 3 1 (fun _ => 120) 1 := by
  obtain ⟨history, state, run, opened, position⟩ := fourth_descriptor_open
  have booted := fsInit_fresh .success (fun _ => 0) (by decide)
  have exactly := (writes_stay_in_buffer booted run opened (fun _ => 120) 1).2 freshFs_filesFit
  refine ⟨history, state, run, opened, exactly.1.mpr ?_⟩
  rw [position]
  decide

theorem largest_count_leaves_buffer : ∃ history state,
    fsInit .success (fun _ => 0) bootState = .ok freshFs ∧ FilesFit freshFs ∧
    Stepper.Run fsStep (fun _ _ => True) freshFs history state ∧
    openFile state 3 modeWrite = some (3, 1) ∧ (state.fileDescriptors 3).position = 1 ∧
    sysWrite ⟨state, ⟨[], []⟩⟩ 3 (some fun _ => 120) 0xFFFFFFFF = .error .outOfBounds ∧
    ¬ WritesExactly state 3 3 1 (fun _ => 120) 0xFFFFFFFF := by
  obtain ⟨history, state, run, opened, position⟩ := fourth_descriptor_open
  have booted := fsInit_fresh .success (fun _ => 0) (by decide)
  have positioned := run_positioned booted freshFs_filesFit run
  have wraps : 2 ^ 32 ≤ (state.fileDescriptors 3).position.toNat + (0xFFFFFFFF : UInt32).toNat := by
    rw [position]
    decide
  refine ⟨history, state, booted, freshFs_filesFit, run, opened, position, ?_, ?_⟩
  · exact (positioned.sysWrite_overruns opened (by decide) ⟨[], []⟩ (fun _ => 120) 0xFFFFFFFF
      (by decide)).mpr wraps
  · rw [positioned.writesExactly_iff opened]
    exact Nat.not_lt.mpr wraps

section

-- SEEK_SET, SEEK_CUR and SEEK_END, in exact integers
def exactTarget (entry : FileDescriptor) (offset : Int32) (whence : UInt32) : Int :=
  (if whence = 0 then 0 else if whence = 1 then entry.position.toNat else entry.size.toNat) +
    offset.toInt

def clampedTarget (entry : FileDescriptor) (offset : Int32) (whence : UInt32) : Nat :=
  min (exactTarget entry offset whence).toNat entry.size.toNat

def ReadsFrom (fs : FileSystem) (index : Descriptor) (position : Nat) : Prop :=
  ∀ buffer size after count target,
    fsRead fs index.val (some buffer) size = .ok (after, count, some target) → 0 < count →
    ∃ slot bytes, openFile fs index.val modeRead = some (index, slot) ∧
      (fs.inodes slot).data = .buffer bytes ∧
      ∀ i : Nat, (i : Int) < count → target i = bytes (position + i)

def SeekClamps (fs : FileSystem) (index : Descriptor) (offset : Int32) (whence : UInt32) : Prop :=
  fsSeek fs index.val offset whence = (fs, -1) ∨
  ∃ after, fsSeek fs index.val offset whence =
      (after, (clampedTarget (fs.fileDescriptors index) offset whence : Int)) ∧
    (after.fileDescriptors index).position.toNat =
      clampedTarget (fs.fileDescriptors index) offset whence ∧
    ReadsFrom after index (clampedTarget (fs.fileDescriptors index) offset whence)

theorem readsFrom_position (fs : FileSystem) (index : Descriptor) :
    ReadsFrom fs index (fs.fileDescriptors index).position.toNat := by
  intro buffer size after count target returned positive
  obtain ⟨-, nothing, -⟩ | ⟨source, index', slot, bytes, copied, -, opened, inBuffer, amount,
    filled, -⟩ := fsRead_cases returned
  · omega
  · obtain ⟨number, -⟩ := validDescriptor_cases (openFile_cases opened).1
    obtain rfl : index = index' := Fin.ext (Int.ofNat.inj number)
    obtain ⟨data, inside, -⟩ := fileBuffer_position inBuffer
    unfold maxFileSize at inside
    have value := signed_small copied (by omega)
    refine ⟨slot, bytes, opened, data, fun i below => ?_⟩
    rw [Option.some.inj filled]
    have copiedByte := Bytes.agree_copy source
      (fun i => bytes ((fs.fileDescriptors index).position.toNat + i)) 0 copied.toNat i (by omega)
    rw [Nat.zero_add] at copiedByte
    exact copiedByte

-- The code's target is the exact one, or the exact one is negative and wraps to a number
-- larger than every size.
theorem seekTarget_exact {entry : FileDescriptor} (small : entry.Small) (offset : Int32)
    {whence : UInt32} (known : whence < 3) :
    ∃ target, seekTarget entry offset whence = some target ∧
      (0 ≤ exactTarget entry offset whence ∧
          (target.toNat : Int) = exactTarget entry offset whence ∨
        exactTarget entry offset whence < 0 ∧ entry.size.toNat < target.toNat) := by
  obtain ⟨position, size⟩ := small
  unfold maxFileSize at position size
  have wrapped := toInt_cases offset
  have sum : ∀ base : UInt32, base.toNat ≤ 65536 →
      0 ≤ (base.toNat : Int) + offset.toInt ∧
          ((base + offset.toUInt32).toNat : Int) = base.toNat + offset.toInt ∨
        (base.toNat : Int) + offset.toInt < 0 ∧
          entry.size.toNat < (base + offset.toUInt32).toNat := by
    intro base bound
    have least : Int32.minValue.toInt = -2 ^ 31 := by decide
    have range := offset.minValue_le_toInt
    rw [UInt32.toNat_add]
    omega
  obtain rfl | rfl | rfl := whence_cases known
  · have zero := sum 0 (by decide)
    rw [UInt32.zero_add] at zero
    exact ⟨_, rfl, zero⟩
  · exact ⟨_, rfl, sum _ position⟩
  · exact ⟨_, rfl, sum _ size⟩

theorem Positioned.seekClamps_iff (positioned : Positioned fs)
    (valid : (fs.fileDescriptors index).valid = true) (offset : Int32) {whence : UInt32}
    (known : whence < 3) : SeekClamps fs index offset whence ↔
      0 ≤ exactTarget (fs.fileDescriptors index) offset whence ∨
        (fs.fileDescriptors index).size = 0 := by
  have small := positioned.entries index valid
  obtain ⟨target, found, cases⟩ := seekTarget_exact small offset known
  obtain ⟨-, sizeFits⟩ := small
  unfold maxFileSize at sizeFits
  have landed : (if target > (fs.fileDescriptors index).size then (fs.fileDescriptors index).size
      else target).toNat = min target.toNat (fs.fileDescriptors index).size.toNat := by
    split
    · next beyond =>
      have beyond := lt_iff_toNat_lt.mp beyond
      omega
    · next within =>
      rw [gt_iff_lt, lt_iff_toNat_lt] at within
      omega
  have sought : fsSeek fs index.val offset whence =
      (fs.setDescriptor index { fs.fileDescriptors index with
        position := if target > (fs.fileDescriptors index).size then
          (fs.fileDescriptors index).size else target },
        ((min target.toNat (fs.fileDescriptors index).size.toNat : Nat) : Int)) := by
    simp only [fsSeek, validDescriptor_val fs index valid, found]
    rw [signed_small _ (by rw [landed]; omega), landed]
  have zero : (fs.fileDescriptors index).size = 0 ↔
      (fs.fileDescriptors index).size.toNat = 0 := UInt32.toNat_inj.symm
  constructor
  · rintro (failed | ⟨after, returned, -⟩)
    · rw [sought, Prod.mk.injEq] at failed
      omega
    · rw [sought, Prod.mk.injEq, clampedTarget] at returned
      rw [zero]
      have same := Int.ofNat.inj returned.2
      omega
  · intro fine
    rw [zero] at fine
    have clamped : min target.toNat (fs.fileDescriptors index).size.toNat =
        clampedTarget (fs.fileDescriptors index) offset whence := by
      unfold clampedTarget
      omega
    refine .inr ⟨_, by rw [sought, clamped], ?_, ?_⟩
    · rw [setDescriptor_self, landed, clamped]
    · have starts := readsFrom_position (fs.setDescriptor index { fs.fileDescriptors index with
        position := if target > (fs.fileDescriptors index).size then
          (fs.fileDescriptors index).size else target }) index
      rw [setDescriptor_self, landed, clamped] at starts
      exact starts

theorem seeks_clamp_in_runs {io : LoadIo} {disk : Disk} {start state : FileSystem}
    {history : List Empty} {index : Descriptor} {whence : UInt32}
    (booted : fsInit io disk bootState = .ok start) (files : FilesFit start)
    (run : Stepper.Run fsStep (fun _ _ => True) start history state)
    (valid : (state.fileDescriptors index).valid = true) (known : whence < 3) (offset : Int32) :
    SeekClamps state index offset whence ↔
      0 ≤ exactTarget (state.fileDescriptors index) offset whence ∨
        (state.fileDescriptors index).size = 0 :=
  (run_positioned booted files run).seekClamps_iff valid offset known

end

theorem three_bytes_written : ∃ history state,
    Stepper.Run fsStep (fun _ _ => True) freshFs history state ∧
    state.fileDescriptors 0 =
      { inode := 2, position := 3, mode := modeRead ||| modeWrite, size := 3, valid := true } := by
  obtain ⟨history, state, run, passed⟩ := Stepper.Run.exists_of_actions fsStep
    (fun _ _ => True) freshFs [openText, .fsWrite 0 (some fun _ => 120) 3]
    (fun _ fs => decide (fs.fileDescriptors 0 =
      { inode := 2, position := 3, mode := modeRead ||| modeWrite, size := 3, valid := true }))
    (by decide +kernel)
  exact ⟨history, state, run, of_decide_eq_true passed⟩

theorem seeks_clamp_in_runs_back : ∃ history state,
    Stepper.Run fsStep (fun _ _ => True) freshFs history state ∧
    SeekClamps state 0 (-2) 1 := by
  obtain ⟨history, state, run, entry⟩ := three_bytes_written
  have booted := fsInit_fresh .success (fun _ => 0) (by decide)
  refine ⟨history, state, run, (seeks_clamp_in_runs booted freshFs_filesFit run
    (by rw [entry]) (by decide) (-2)).mpr (.inl ?_)⟩
  rw [entry]
  decide

theorem negative_target_moves_to_end : ∃ history state,
    fsInit .success (fun _ => 0) bootState = .ok freshFs ∧ FilesFit freshFs ∧
    Stepper.Run fsStep (fun _ _ => True) freshFs history state ∧
    (state.fileDescriptors 0).valid = true ∧ (state.fileDescriptors 0).size = 3 ∧
    exactTarget (state.fileDescriptors 0) (-1) 0 = -1 ∧ (fsSeek state 0 (-1) 0).2 = 3 ∧
    ((fsSeek state 0 (-1) 0).1.fileDescriptors 0).position = 3 ∧
    ¬ SeekClamps state 0 (-1) 0 := by
  obtain ⟨history, state, run, entry⟩ := three_bytes_written
  have booted := fsInit_fresh .success (fun _ => 0) (by decide)
  have valid : (state.fileDescriptors 0).valid = true := by rw [entry]
  have found : validDescriptor state 0 = some 0 := validDescriptor_val state 0 valid
  have sought : fsSeek state 0 (-1) 0 =
      (state.setDescriptor 0 { state.fileDescriptors 0 with position := 3 }, 3) := by
    simp only [fsSeek, found, entry]
    rfl
  refine ⟨history, state, booted, freshFs_filesFit, run, valid, by rw [entry], ?_, ?_, ?_, ?_⟩
  · rw [entry]
    decide
  · rw [sought]
  · rw [sought, FileSystem.setDescriptor_self]
  · rw [(run_positioned booted freshFs_filesFit run).seekClamps_iff valid (-1) (by decide), entry]
    decide

end ArgoOS.Fs
