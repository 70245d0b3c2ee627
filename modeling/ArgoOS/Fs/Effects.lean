import ArgoOS.Fs.RoundTrip
import ArgoOS.Fs.TreeSteps

set_option autoImplicit false

/-! # What the calls can do -/

namespace ArgoOS.Fs

open FileSystem DiskInode

def newData (type : UInt32) : Data :=
  if type = typeFile then .buffer (fun _ => 0) else .null

def withNew (fs : FileSystem) (slot : Slot) (name : List UInt8) (type : UInt32)
    (parent : Option Slot) : FileSystem :=
  takeInode fs slot (newInode fs name type parent (newData type) true)

inductive Creation (fs : FileSystem) (slot : Slot) (name : List UInt8) (type : UInt32)
    (parent : Option Slot) : FileSystem → Prop where
  | apart
      (noDir : ∀ dir, parent = some dir →
        ((withNew fs slot name type parent).inodes dir).type ≠ typeDir) :
      Creation fs slot name type parent (withNew fs slot name type parent)
  | linked (dir : Slot) (first : Option Slot) (inDir : parent = some dir)
      (isDir : ((withNew fs slot name type parent).inodes dir).type = typeDir)
      (head : ((withNew fs slot name type parent).inodes dir).data.firstChild = .ok first) :
      Creation fs slot name type parent
        (((withNew fs slot name type parent).setNext slot first).setData dir (.child slot))

variable {fs after : FileSystem} {name : List UInt8} {type : UInt32} {parent : Option Slot}
  {slot : Slot} {mode size : UInt32} {node : Option Slot} {memory : Bool} {path : Option CString}
  {result fd : Int} {buffer : Option (Nat → UInt8)} {operation : Operation} {disk : Disk}
  {io : LoadIo}

theorem fsCreateInode_cases
    (returned : fsCreateInode fs name type parent memory = .ok (after, node)) :
    (fs.freeSlot = none ∧ node = none ∧ after = fs) ∨
    (∃ slot, fs.freeSlot = some slot ∧ node = none ∧ memory = false ∧ type = typeFile ∧
      after = takeInode fs slot (newInode fs name type parent .null false)) ∨
    ∃ slot, fs.freeSlot = some slot ∧ node = some slot ∧ (type = typeFile → memory = true) ∧
      Creation fs slot name type parent after := by
  unfold fsCreateInode at returned
  cases found : fs.freeSlot with
  | none =>
    rw [found] at returned
    cases returned
    exact .inl ⟨rfl, rfl, rfl⟩
  | some slot =>
    rw [found] at returned
    simp only at returned
    split at returned
    · next failed =>
      cases returned
      exact .inr (.inl ⟨slot, rfl, rfl, failed.2, failed.1, rfl⟩)
    · next made =>
      have allocated : type = typeFile → memory = true := by
        intro isFile
        cases memory with
        | true => rfl
        | false => exact absurd ⟨isFile, rfl⟩ made
      refine .inr (.inr ⟨slot, rfl, ?_⟩)
      cases parent with
      | none =>
        cases returned
        exact ⟨rfl, allocated, .apart nofun⟩
      | some dir =>
        by_cases isDir : ((withNew fs slot name type (some dir)).inodes dir).type = typeDir
        · have linked : (linkChild (withNew fs slot name type (some dir)) dir slot).map
              (·, some slot) = .ok (after, node) := by
            rw [← returned]
            exact (if_pos isDir).symm
          unfold linkChild at linked
          split at linked
          · contradiction
          · next first head =>
            cases linked
            exact ⟨rfl, allocated, .linked dir first rfl isDir head⟩
        · have kept : Except.ok (withNew fs slot name type (some dir), some slot) =
              (Except.ok (after, node) : Except Fault _) := by
            rw [← returned]
            exact (if_neg isDir).symm
          cases kept
          refine ⟨rfl, allocated, .apart ?_⟩
          rintro other ⟨⟩
          exact isDir

theorem Creation.header (creation : Creation fs slot name type parent after) (other : Slot) :
    SameHeader (after.inodes other) ((withNew fs slot name type parent).inodes other) ∧
    (after.inodes other).parent = ((withNew fs slot name type parent).inodes other).parent := by
  cases creation with
  | apart _ => exact ⟨⟨rfl, rfl, rfl, rfl, rfl⟩, rfl⟩
  | linked dir first _ _ _ =>
    rw [setData_inodes, setNext_inodes]
    exact ⟨⟨rfl, rfl, rfl, rfl, rfl⟩, rfl⟩

theorem Creation.globals (creation : Creation fs slot name type parent after) :
    after.rootDir = fs.rootDir ∧ after.currentDir = fs.currentDir ∧
    after.fileDescriptors = fs.fileDescriptors ∧ after.initialized = fs.initialized ∧
    after.nextInode = fs.nextInode + 1 := by
  cases creation with
  | apart _ => exact ⟨rfl, rfl, rfl, rfl, rfl⟩
  | linked _ _ _ _ _ => exact ⟨rfl, rfl, rfl, rfl, rfl⟩

theorem fsCreateInode_descriptors
    (returned : fsCreateInode fs name type parent memory = .ok (after, node)) :
    after.fileDescriptors = fs.fileDescriptors := by
  obtain ⟨-, -, rfl⟩ | ⟨slot, -, -, -, -, rfl⟩ | ⟨slot, -, -, -, creation⟩ :=
    fsCreateInode_cases returned
  · rfl
  · rfl
  · exact creation.globals.2.2.1

theorem Creation.new (creation : Creation fs slot name type parent after) :
    (after.inodes slot).name = .strncpy name ∧ (after.inodes slot).type = type ∧
    (after.inodes slot).size = 0 ∧ (after.inodes slot).valid = true ∧
    (after.inodes slot).inodeNum = fs.nextInode ∧ (after.inodes slot).parent = parent := by
  obtain ⟨⟨nameSame, typeSame, sizeSame, validSame, numSame⟩, parentSame⟩ := creation.header slot
  rw [nameSame, typeSame, sizeSame, validSame, numSame, parentSame, withNew, takeInode]
  simp [newInode]

theorem Creation.others (creation : Creation fs slot name type parent after) (other : Slot)
    (different : other ≠ slot) : SameHeader (after.inodes other) (fs.inodes other) ∧
    (after.inodes other).parent = (fs.inodes other).parent := by
  have kept : (withNew fs slot name type parent).inodes other = fs.inodes other :=
    fs.setInode_other slot other _ different
  have same := creation.header other
  rw [kept] at same
  exact same

section

variable (creation : Creation fs slot name type parent after)

include creation

theorem Creation.next_other (other : Slot) (different : other ≠ slot) :
    (after.inodes other).next = (fs.inodes other).next := by
  have kept : (withNew fs slot name type parent).inodes other = fs.inodes other :=
    fs.setInode_other slot other _ different
  cases creation with
  | apart _ => rw [kept]
  | linked _ _ _ _ _ =>
    rw [setData_inodes, setNext_inodes, kept]
    exact if_neg different

theorem Creation.data_other (other : Slot) (different : other ≠ slot)
    (elsewhere : parent ≠ some other ∨ (fs.inodes other).type ≠ typeDir) :
    (after.inodes other).data = (fs.inodes other).data := by
  have kept : (withNew fs slot name type parent).inodes other = fs.inodes other :=
    fs.setInode_other slot other _ different
  cases creation with
  | apart _ => rw [kept]
  | linked dir _ inDir isDir _ =>
    have notDir : other ≠ dir := by
      rintro rfl
      rw [kept] at isDir
      obtain outside | notDir := elsewhere
      · exact outside inDir
      · exact notDir isDir
    rw [setData_inodes, setNext_inodes, kept]
    exact if_neg notDir

theorem Creation.data_new (notDir : type ≠ typeDir) : (after.inodes slot).data = newData type := by
  cases creation with
  | apart _ =>
    rw [withNew, takeInode_self]
    rfl
  | linked dir _ _ isDir _ =>
    have different : slot ≠ dir := by
      rintro rfl
      rw [withNew, takeInode_self] at isDir
      exact notDir isDir
    rw [setData_inodes, setNext_inodes, withNew, takeInode_self]
    exact if_neg different

theorem Creation.childList_other (dir : Slot) (different : dir ≠ slot)
    (elsewhere : parent ≠ some dir ∨ (fs.inodes dir).type ≠ typeDir) {children : List Slot}
    (list : ChildList fs dir children) (outside : slot ∉ children) :
    ChildList after dir children := by
  refine list.congr (creation.data_other dir different elsewhere) ?_
  intro child member
  exact creation.next_other child (fun same => outside (same ▸ member))

theorem Creation.childList_parent (dir : Slot) (different : dir ≠ slot) (inDir : parent = some dir)
    (isDir : (fs.inodes dir).type = typeDir) {children : List Slot}
    (list : ChildList fs dir children) (outside : slot ∉ children) :
    ChildList after dir (slot :: children) := by
  have kept : (withNew fs slot name type parent).inodes dir = fs.inodes dir :=
    fs.setInode_other slot dir _ different
  have links : ∀ child ∈ children, (after.inodes child).next = (fs.inodes child).next :=
    fun child member => creation.next_other child (fun same => outside (same ▸ member))
  cases creation with
  | apart noDir =>
    rw [← kept] at isDir
    exact absurd isDir (noDir dir inDir)
  | linked dir' first inDir' _ head =>
    cases Option.some.inj (inDir.symm.trans inDir')
    rw [kept] at head
    refine list.push ?_ ?_ links
    · simpa [setData_inodes, setNext_inodes] using head
    · simp [setData_inodes]

theorem Creation.childList_new (isDir : type = typeDir) :
    ChildList after slot (if parent = some slot then [slot] else []) := by
  have fresh : (withNew fs slot name type parent).inodes slot =
      newInode fs name type parent (newData type) true := fs.setInode_self slot _
  have empty : newData type = .null := if_neg (fun isFile => by
    rw [isDir] at isFile
    exact absurd isFile (by decide))
  cases creation with
  | apart noDir =>
    have notSelf : parent ≠ some slot := by
      intro self
      refine noDir slot self ?_
      rw [fresh]
      exact isDir
    rw [if_neg notSelf]
    refine ⟨none, ?_, rfl⟩
    rw [fresh, newInode, empty]
    rfl
  | linked dir first inDir _ head =>
    by_cases self : dir = slot
    · subst self
      rw [fresh, newInode, empty] at head
      cases head
      rw [if_pos inDir]
      refine ⟨some dir, ?_, rfl, ?_⟩
      · rw [setData_inodes]
        simp [Data.firstChild]
      · simp [setData_inodes, setNext_inodes]
    · have notSelf : parent ≠ some slot := by
        rw [inDir]
        exact fun same => self (Option.some.inj same)
      rw [if_neg notSelf]
      refine ⟨none, ?_, rfl⟩
      rw [setData_inodes, setNext_inodes, fresh, newInode, empty]
      simp [Ne.symm self, Data.firstChild]

end

theorem openNode_cases {found : FileSystem} {path : CString}
    (returned : openNode fs path mode memory = .ok (found, node)) :
    (found = fs ∧ fsResolvePath fs (some path) = .ok node) ∨
    (fsResolvePath fs (some path) = .ok none ∧ mode &&& modeWrite ≠ 0 ∧
      fsCreateInode fs (baseName path) typeFile fs.getCurrentDir memory = .ok (found, node)) := by
  unfold openNode at returned
  split at returned
  · contradiction
  · next resolved =>
    cases returned
    exact .inl ⟨rfl, resolved⟩
  · next resolved =>
    split at returned
    · next writes => exact .inr ⟨resolved, writes, returned⟩
    · cases returned
      exact .inl ⟨rfl, resolved⟩

theorem openDescriptor_cases (fs : FileSystem) (node : Option Slot) (mode : UInt32) :
    openDescriptor fs node mode = (fs, -1) ∨ ∃ slot fd, node = some slot ∧
      (fs.inodes slot).type = typeFile ∧ freeDescriptor fs = some fd ∧
      openDescriptor fs node mode =
        (fs.setDescriptor fd (openEntry (fs.inodes slot) mode), (fd.val : Int)) := by
  unfold openDescriptor
  cases node with
  | none => exact .inl rfl
  | some slot =>
    simp only
    split
    · exact .inl rfl
    · next isFile =>
      split
      · exact .inl rfl
      · next fd free => exact .inr ⟨slot, fd, rfl, not_not.mp isFile, free, rfl⟩

theorem fsOpen_cases (returned : fsOpen fs path mode memory = .ok (after, result)) :
    (after = fs ∧ result = -1) ∨ ∃ text found node, path = some text ∧ fs.initialized = true ∧
      openNode fs text mode memory = .ok (found, node) ∧
      openDescriptor found node mode = (after, result) := by
  unfold fsOpen at returned
  cases path with
  | none =>
    cases returned
    exact .inl ⟨rfl, rfl⟩
  | some text =>
    simp only at returned
    split at returned
    · cases returned
      exact .inl ⟨rfl, rfl⟩
    · next ready =>
      split at returned
      · contradiction
      · next found node opened =>
        exact .inr ⟨text, found, node, rfl, by simpa using ready, opened, Except.ok.inj returned⟩

theorem fsMkdir_cases (returned : fsMkdir fs path = .ok (after, result)) :
    (after = fs ∧ result = -1) ∨ ∃ text node, path = some text ∧
      fsFindInodeInDir fs fs.getCurrentDir (baseName text) = .ok none ∧
      fsCreateInode fs (baseName text) typeDir fs.getCurrentDir true = .ok (after, node) ∧
      result = if node.isSome then 0 else -1 := by
  unfold fsMkdir at returned
  cases path with
  | none =>
    cases returned
    exact .inl ⟨rfl, rfl⟩
  | some text =>
    simp only at returned
    split at returned
    · contradiction
    · cases returned
      exact .inl ⟨rfl, rfl⟩
    · next missing =>
      split at returned
      · contradiction
      · next created dir made =>
        cases returned
        exact .inr ⟨text, dir, rfl, missing, made, rfl⟩

theorem unlinkChild_cases {parent : Slot} (returned : unlinkChild fs parent slot = .ok after) :
    ∃ first,
    (fs.inodes parent).data.firstChild = .ok first ∧
    ((first = some slot ∧ after = fs.setData parent (.ofChild (fs.inodes slot).next)) ∨
    (first ≠ some slot ∧ Linked.search (fun child => (fs.inodes child).next)
      (fun child => (fs.inodes child).next == some slot) 320 first = some none ∧ after = fs) ∨
    ∃ child, first ≠ some slot ∧ Linked.search (fun child => (fs.inodes child).next)
      (fun child => (fs.inodes child).next == some slot) 320 first = some (some child) ∧
      after = fs.setNext child (fs.inodes slot).next) := by
  unfold unlinkChild at returned
  split at returned
  · contradiction
  · next first head =>
    refine ⟨first, head, ?_⟩
    split at returned
    · next here =>
      cases returned
      exact .inl ⟨here, rfl⟩
    · next elsewhere =>
      split at returned
      · contradiction
      · next missing =>
        cases returned
        exact .inr (.inl ⟨elsewhere, missing, rfl⟩)
      · next child found =>
        cases returned
        exact .inr (.inr ⟨child, elsewhere, found, rfl⟩)

theorem fsRemove_cases (returned : fsRemove fs path = .ok (after, result)) :
    (after = fs ∧ result = -1) ∨ ∃ slot unlinked, fsResolvePath fs path = .ok (some slot) ∧
      fs.rootDir ≠ some slot ∧ result = 0 ∧
      ¬((fs.inodes slot).type = typeDir ∧ (fs.inodes slot).data.isNull = false) ∧
      after = invalidate unlinked slot ∧
      (((fs.inodes slot).parent = none ∧ unlinked = fs) ∨
        ∃ parent, (fs.inodes slot).parent = some parent ∧
          unlinkChild fs parent slot = .ok unlinked) := by
  unfold fsRemove at returned
  split at returned
  · contradiction
  · cases returned
    exact .inl ⟨rfl, rfl⟩
  · next slot resolved =>
    unfold removeNode at returned
    split at returned
    · cases returned
      exact .inl ⟨rfl, rfl⟩
    · next notRoot =>
      split at returned
      · cases returned
        exact .inl ⟨rfl, rfl⟩
      · next empty =>
        split at returned
        · next orphan =>
          cases returned
          exact .inr ⟨slot, fs, resolved, notRoot, rfl, empty, rfl, .inl ⟨orphan, rfl⟩⟩
        · next parent child =>
          split at returned
          · contradiction
          · next unlinked done =>
            cases returned
            exact .inr ⟨slot, unlinked, resolved, notRoot, rfl, empty, rfl,
              .inr ⟨parent, child, done⟩⟩

structure FileStep (fs after : FileSystem) : Prop where
  inodes : ∀ slot, after.inodes slot = fs.inodes slot ∨ ((fs.inodes slot).type = typeFile ∧
    ∃ bytes size, (size = (fs.inodes slot).size ∨ size.toNat ≤ maxFileSize) ∧
      after.inodes slot = { fs.inodes slot with data := .buffer bytes, size := size })
  rootDir : after.rootDir = fs.rootDir
  currentDir : after.currentDir = fs.currentDir
  nextInode : after.nextInode = fs.nextInode
  initialized : after.initialized = fs.initialized
  descriptors : ∀ fd, (after.fileDescriptors fd).valid = true →
    (fs.fileDescriptors fd).valid = true ∧
    (after.fileDescriptors fd).inode = (fs.fileDescriptors fd).inode

theorem FileStep.refl (fs : FileSystem) : FileStep fs fs :=
  ⟨fun _ => .inl rfl, rfl, rfl, rfl, rfl, fun _ valid => ⟨valid, rfl⟩⟩

theorem FileSystem.setDescriptor_self (fs : FileSystem) (fd : Descriptor) (entry : FileDescriptor) :
    (fs.setDescriptor fd entry).fileDescriptors fd = entry :=
  Function.update_self _ _ _

theorem FileSystem.setDescriptor_other (fs : FileSystem) (fd other : Descriptor)
    (entry : FileDescriptor) (different : other ≠ fd) :
    (fs.setDescriptor fd entry).fileDescriptors other = fs.fileDescriptors other :=
  Function.update_of_ne different _ _

theorem setDescriptor_fileStep (fs : FileSystem) (fd : Descriptor) {entry : FileDescriptor}
    (valid : entry.valid = true → (fs.fileDescriptors fd).valid = true)
    (same : entry.inode = (fs.fileDescriptors fd).inode) :
    FileStep fs (fs.setDescriptor fd entry) := by
  refine ⟨fun _ => .inl rfl, rfl, rfl, rfl, rfl, ?_⟩
  intro other opened
  by_cases here : other = fd
  · subst here
    rw [fs.setDescriptor_self] at opened ⊢
    exact ⟨valid opened, same⟩
  · rw [fs.setDescriptor_other fd other entry here] at opened ⊢
    exact ⟨opened, rfl⟩

theorem fsClose_fileStep (fs : FileSystem) (fd : Int) : FileStep fs (fsClose fs fd).1 := by
  unfold fsClose
  split
  · exact .refl fs
  · exact setDescriptor_fileStep fs _ nofun rfl

theorem fsSeek_fileStep (fs : FileSystem) (fd : Int) (offset : Int32) (whence : UInt32) :
    FileStep fs (fsSeek fs fd offset whence).1 := by
  unfold fsSeek
  split
  · exact .refl fs
  · simp only
    split
    · exact .refl fs
    · exact setDescriptor_fileStep fs _ id rfl

theorem fsRead_fileStep {target : Option (Nat → UInt8)}
    (returned : fsRead fs fd buffer size = .ok (after, result, target)) : FileStep fs after := by
  unfold fsRead at returned
  split at returned
  · simp only at returned
    split at returned
    · cases returned
      exact .refl _
    · split at returned
      · contradiction
      · cases returned
        exact setDescriptor_fileStep fs _ id rfl
  · cases returned
    exact .refl _

theorem writeExtent_size (position size : UInt32) :
    (writeExtent position size).2.toNat ≤ maxFileSize := by
  have limit : (UInt32.ofNat maxFileSize).toNat = maxFileSize := rfl
  unfold writeExtent
  split
  · exact Nat.le_refl _
  · next inside =>
    rw [gt_iff_lt, UInt32.lt_iff_toNat_lt, Nat.not_lt, limit] at inside
    exact inside

theorem validDescriptor_cases {index : Descriptor} (found : validDescriptor fs fd = some index) :
    fd = index.val ∧ (fs.fileDescriptors index).valid = true := by
  unfold validDescriptor at found
  split at found
  · next range =>
    simp only at found
    split at found
    · next valid =>
      cases found
      exact ⟨(Int.toNat_of_nonneg range.1).symm, valid⟩
    · contradiction
  · contradiction

theorem openFile_cases {index : Descriptor} (found : openFile fs fd mode = some (index, slot)) :
    validDescriptor fs fd = some index ∧ (fs.fileDescriptors index).mode &&& mode ≠ 0 ∧
    fs.findInodeByNum (fs.fileDescriptors index).inode = some slot ∧
    (fs.inodes slot).type = typeFile := by
  unfold openFile at found
  split at found
  · contradiction
  · next other valid =>
    split at found
    · contradiction
    · next opened =>
      split at found
      · contradiction
      · next node lookup =>
        split at found
        · next isFile =>
          cases found
          exact ⟨valid, opened, lookup, isFile⟩
        · contradiction

theorem fsWrite_cases (returned : fsWrite fs fd buffer size = .ok (after, result)) :
    (after = fs ∧ result = -1 ∧ (buffer = none ∨ openFile fs fd modeWrite = none)) ∨
    ∃ source index slot bytes, buffer = some source ∧
      openFile fs fd modeWrite = some (index, slot) ∧
      fileBuffer (fs.inodes slot).data (fs.fileDescriptors index).position
        (writeExtent (fs.fileDescriptors index).position size).1 = .ok bytes ∧
      result = signed (writeExtent (fs.fileDescriptors index).position size).1 ∧
      after = (fs.setInode slot { fs.inodes slot with
          data := .buffer (Bytes.copy bytes (fs.fileDescriptors index).position.toNat source
            (writeExtent (fs.fileDescriptors index).position size).1.toNat)
          size := if (writeExtent (fs.fileDescriptors index).position size).2 > (fs.inodes slot).size
            then (writeExtent (fs.fileDescriptors index).position size).2
            else (fs.inodes slot).size }).setDescriptor index { fs.fileDescriptors index with
          position := (fs.fileDescriptors index).position +
            (writeExtent (fs.fileDescriptors index).position size).1
          size := if (writeExtent (fs.fileDescriptors index).position size).2 > (fs.inodes slot).size
            then (writeExtent (fs.fileDescriptors index).position size).2
            else (fs.fileDescriptors index).size } := by
  cases buffer with
  | none =>
    cases returned
    exact .inl ⟨rfl, rfl, .inl rfl⟩
  | some source =>
    cases found : openFile fs fd modeWrite with
    | none =>
      simp only [fsWrite, found] at returned
      cases returned
      exact .inl ⟨rfl, rfl, .inr rfl⟩
    | some file =>
      obtain ⟨index, slot⟩ := file
      simp only [fsWrite, found] at returned
      split at returned
      · contradiction
      · next bytes copied =>
        cases returned
        exact .inr ⟨source, index, slot, bytes, rfl, rfl, copied, rfl, rfl⟩

theorem fsWrite_fileStep (returned : fsWrite fs fd buffer size = .ok (after, result)) :
    FileStep fs after := by
  obtain ⟨rfl, -⟩ | ⟨source, index, slot, bytes, -, found, -, -, rfl⟩ := fsWrite_cases returned
  · exact .refl _
  · refine ⟨?_, rfl, rfl, rfl, rfl, ?_⟩
    · intro other
      by_cases here : other = slot
      · subst here
        refine .inr ⟨(openFile_cases found).2.2.2, _, _, ?_, fs.setInode_self other _⟩
        split
        · exact .inr (writeExtent_size _ _)
        · exact .inl rfl
      · exact .inl (fs.setInode_other slot other _ here)
    · intro other opened
      exact (setDescriptor_fileStep (fs.setInode slot _) index (by exact id)
        (by rfl)).descriptors other opened

def Operation.onFile : Operation → Bool
  | .fsClose _ | .fsRead _ _ _ | .fsWrite _ _ _ | .fsSeek _ _ _ => true
  | _ => false

theorem Operation.onFile_fileStep (onFile : operation.onFile = true)
    (returned : operation.apply fs = .ok (after, result)) : FileStep fs after := by
  cases operation with
  | fsClose fd =>
    have closed : (Fs.fsClose fs fd).1 = after := congrArg Prod.fst (Except.ok.inj returned)
    rw [← closed]
    exact fsClose_fileStep fs fd
  | fsRead fd buffer size =>
    simp only [Operation.apply] at returned
    cases reading : Fs.fsRead fs fd buffer size with
    | error fault =>
      rw [reading] at returned
      contradiction
    | ok read =>
      rw [reading] at returned
      cases returned
      exact fsRead_fileStep reading
  | fsWrite fd buffer size => exact fsWrite_fileStep returned
  | fsSeek fd offset whence =>
    have sought : (Fs.fsSeek fs fd offset whence).1 = after :=
      congrArg Prod.fst (Except.ok.inj returned)
    rw [← sought]
    exact fsSeek_fileStep fs fd offset whence
  | fsOpen _ _ _ => contradiction
  | fsMkdir _ => contradiction
  | setCurrentDir _ => contradiction
  | fsRemove _ => contradiction

structure LinksOnly (before after : FileSystem) : Prop where
  header : ∀ slot, SameHeader (after.inodes slot) (before.inodes slot)
  rootDir : after.rootDir = before.rootDir
  currentDir : after.currentDir = before.currentDir
  descriptors : after.fileDescriptors = before.fileDescriptors
  nextInode : after.nextInode = before.nextInode
  initialized : after.initialized = before.initialized

theorem LinksOnly.refl (fs : FileSystem) : LinksOnly fs fs :=
  ⟨fun _ => ⟨rfl, rfl, rfl, rfl, rfl⟩, rfl, rfl, rfl, rfl, rfl⟩

theorem LinksOnly.trans {first second third : FileSystem} (one : LinksOnly first second)
    (two : LinksOnly second third) : LinksOnly first third where
  header := fun slot => (two.header slot).trans (one.header slot)
  rootDir := two.rootDir.trans one.rootDir
  currentDir := two.currentDir.trans one.currentDir
  descriptors := two.descriptors.trans one.descriptors
  nextInode := two.nextInode.trans one.nextInode
  initialized := two.initialized.trans one.initialized

theorem setParent_linksOnly (fs : FileSystem) (slot : Slot) (parent : Option Slot) :
    LinksOnly fs (setParent fs slot parent) := by
  refine ⟨?_, rfl, rfl, rfl, rfl, rfl⟩
  intro other
  rw [setParent_inodes]
  exact ⟨rfl, rfl, rfl, rfl, rfl⟩

theorem linkChild_linksOnly {parent : Slot} (returned : linkChild fs parent slot = .ok after) :
    LinksOnly fs after := by
  unfold linkChild at returned
  split at returned
  · contradiction
  · cases returned
    refine ⟨?_, rfl, rfl, rfl, rfl, rfl⟩
    intro other
    rw [setData_inodes, setNext_inodes]
    exact ⟨rfl, rfl, rfl, rfl, rfl⟩

theorem unlinkChild_linksOnly {parent : Slot} (returned : unlinkChild fs parent slot = .ok after) :
    LinksOnly fs after := by
  obtain ⟨first, -, ⟨-, rfl⟩ | ⟨-, -, rfl⟩ | ⟨child, -, -, rfl⟩⟩ := unlinkChild_cases returned
  · refine ⟨?_, rfl, rfl, rfl, rfl, rfl⟩
    intro other
    rw [setData_inodes]
    exact ⟨rfl, rfl, rfl, rfl, rfl⟩
  · exact .refl _
  · refine ⟨?_, rfl, rfl, rfl, rfl, rfl⟩
    intro other
    rw [setNext_inodes]
    exact ⟨rfl, rfl, rfl, rfl, rfl⟩

theorem setCurrentDir_cases
    (returned : (fsResolvePath fs path).map (fsSetCurrentDir fs) = .ok (after, result)) :
    after = fs ∨ ∃ slot, fsResolvePath fs path = .ok (some slot) ∧
      (fs.inodes slot).type = typeDir ∧ after = { fs with currentDir := some slot } := by
  cases resolved : fsResolvePath fs path with
  | error fault =>
    rw [resolved] at returned
    contradiction
  | ok node =>
    rw [resolved] at returned
    cases node with
    | none =>
      cases returned
      exact .inl rfl
    | some slot =>
      have set := Except.ok.inj returned
      unfold fsSetCurrentDir at set
      simp only at set
      split at set
      · next isDir =>
        cases set
        exact .inr ⟨slot, rfl, isDir, rfl⟩
      · cases set
        exact .inl rfl

def Operation.Creates (fs : FileSystem) : Operation → Prop
  | .fsOpen (some path) mode memory => fsResolvePath fs (some path) = .ok none ∧
      mode &&& modeWrite ≠ 0 ∧ memory = true ∧ fs.freeSlot ≠ none
  | .fsMkdir (some path) =>
    fsFindInodeInDir fs fs.getCurrentDir (baseName path) = .ok none ∧ fs.freeSlot ≠ none
  | _ => False

inductive Operation.Effect (fs : FileSystem) (operation : Operation) (after : FileSystem) : Prop where
  | pointers (same : after = { fs with
      currentDir := after.currentDir, fileDescriptors := after.fileDescriptors })
  | onFile (step : FileStep fs after)
  | create (path : CString) (type : UInt32) (memory : Bool) (found : FileSystem)
      (node : Option Slot)
      (source : (∃ mode, operation = .fsOpen (some path) mode memory) ∨
        operation = .fsMkdir (some path))
      (creates : node ≠ none → operation.Creates fs)
      (made : fsCreateInode fs (baseName path) type fs.getCurrentDir memory = .ok (found, node))
      (same : after = { found with fileDescriptors := after.fileDescriptors })
  | remove (slot : Slot) (unlinked : FileSystem) (removed : after = invalidate unlinked slot)
      (unlinking : ((fs.inodes slot).parent = none ∧ unlinked = fs) ∨
        ∃ parent, (fs.inodes slot).parent = some parent ∧
          unlinkChild fs parent slot = .ok unlinked)

theorem fsCreateInode_some (returned : fsCreateInode fs name type parent memory = .ok (after, node))
    (created : node ≠ none) : fs.freeSlot ≠ none ∧ (type = typeFile → memory = true) := by
  obtain ⟨-, failed, -⟩ | ⟨_, -, failed, -⟩ | ⟨slot, free, -, memoryFor, -⟩ :=
    fsCreateInode_cases returned
  · exact absurd failed created
  · exact absurd failed created
  · exact ⟨by rw [free]; nofun, memoryFor⟩

theorem openDescriptor_same (described : openDescriptor fs node mode = (after, result)) :
    after = { fs with fileDescriptors := after.fileDescriptors } := by
  obtain failed | ⟨slot, fd, -, -, -, given⟩ := openDescriptor_cases fs node mode
  · rw [failed] at described
    cases described
    rfl
  · rw [given] at described
    cases described
    rfl

theorem operation_effect (returned : operation.apply fs = .ok (after, result)) :
    operation.Effect fs after := by
  cases operation with
  | fsOpen path mode memory =>
    obtain ⟨rfl, -⟩ | ⟨text, found, node, rfl, -, opening, described⟩ := fsOpen_cases returned
    · exact .pointers rfl
    · have same := openDescriptor_same described
      obtain ⟨rfl, -⟩ | ⟨missing, writes, made⟩ := openNode_cases opening
      · exact .pointers (by rw [same])
      · refine .create text typeFile memory found node (.inl ⟨mode, rfl⟩) ?_ made same
        intro created
        obtain ⟨room, memoryFor⟩ := fsCreateInode_some made created
        exact ⟨missing, writes, memoryFor rfl, room⟩
  | fsMkdir path =>
    obtain ⟨rfl, -⟩ | ⟨text, node, rfl, missing, made, -⟩ := fsMkdir_cases returned
    · exact .pointers rfl
    · exact .create text typeDir true after node (.inr rfl)
        (fun created => ⟨missing, (fsCreateInode_some made created).1⟩) made rfl
  | setCurrentDir path =>
    obtain rfl | ⟨slot, -, -, rfl⟩ := setCurrentDir_cases returned
    · exact .pointers rfl
    · exact .pointers rfl
  | fsRemove path =>
    obtain ⟨rfl, -⟩ | ⟨slot, unlinked, -, -, -, -, removed, unlinking⟩ := fsRemove_cases returned
    · exact .pointers rfl
    · exact .remove slot unlinked removed unlinking
  | fsClose _ => exact .onFile (Operation.onFile_fileStep rfl returned)
  | fsRead _ _ _ => exact .onFile (Operation.onFile_fileStep rfl returned)
  | fsWrite _ _ _ => exact .onFile (Operation.onFile_fileStep rfl returned)
  | fsSeek _ _ _ => exact .onFile (Operation.onFile_fileStep rfl returned)

theorem operation_initialized (returned : operation.apply fs = .ok (after, result)) :
    after.initialized = fs.initialized := by
  cases operation_effect returned with
  | pointers same => rw [same]
  | onFile step => exact step.initialized
  | create path type memory found node _ _ made same =>
    rw [same]
    obtain ⟨-, -, rfl⟩ | ⟨slot, -, -, -, -, rfl⟩ | ⟨slot, -, -, -, creation⟩ :=
      fsCreateInode_cases made
    · rfl
    · rfl
    · exact creation.globals.2.2.2.1
  | remove slot unlinked removed unlinking =>
    rw [removed]
    obtain ⟨-, rfl⟩ | ⟨parent, -, done⟩ := unlinking
    · rfl
    · exact (unlinkChild_linksOnly done).initialized

theorem linkInode_linksOnly {table : Nat → UInt8} {index : Nat}
    (returned : linkInode table fs index = .ok after) : LinksOnly fs after := by
  simp only [linkInode] at returned
  split at returned
  · cases returned
    exact .refl fs
  · split at returned
    · cases returned
      exact .refl fs
    · next slot found =>
      have parented : LinksOnly fs (if 0 < (load table index).parentInode then
          setParent fs slot (fs.findInodeByNum (load table index).parentInode)
          else fs) := by
        split
        · exact setParent_linksOnly fs slot _
        · exact .refl fs
      generalize (if 0 < (load table index).parentInode then
        setParent fs slot (fs.findInodeByNum (load table index).parentInode)
        else fs) = linked at returned parented
      split at returned
      · cases returned
        exact parented
      · split at returned
        · exact parented.trans (linkChild_linksOnly returned)
        · cases returned
          exact parented

theorem linkInodes_linksOnly {table : Nat → UInt8} {indices : List Nat}
    (returned : linkInodes table indices fs = .ok after) : LinksOnly fs after := by
  induction indices generalizing fs with
  | nil =>
    cases returned
    exact .refl _
  | cons index indices ih =>
    simp only [linkInodes] at returned
    split at returned
    · contradiction
    · next linked one => exact (linkInode_linksOnly one).trans (ih returned)

theorem ataReadSectors_done {lba : UInt32} {count : UInt8} {buffer : Nat → UInt8}
    {transfer : Transfer} (done : (ataReadSectors disk lba count buffer transfer).2 = true) :
    transfer = .complete ∧ 0 < count.toNat := by
  unfold ataReadSectors at done
  split at done
  · contradiction
  · next nonzero =>
    refine ⟨?_, ?_⟩
    · cases transfer with
      | complete => rfl
      | stopped _ => contradiction
    · rw [Nat.pos_iff_ne_zero]
      exact fun zero => nonzero (UInt8.toNat_inj.mp zero)

theorem fsLoad_closed (closed : ¬Opens io disk) (fs : FileSystem) :
    fsLoad io disk fs = .ok (fs, -1) := by
  simp only [fsLoad]
  split
  · rfl
  · next opened =>
    rw [not_or, Bool.not_eq_false, not_not] at opened
    obtain ⟨complete, -⟩ := ataReadSectors_done opened.1
    have head := ataReadSectors_complete disk superblockLba 1 (fun _ => 0) (by decide) (by decide)
    rw [complete, head, superblock_read] at opened ⊢
    split
    · rfl
    · next counted =>
      rw [not_or] at counted
      have some : 0 < imageCount disk :=
        Nat.pos_of_ne_zero (fun zero => counted.1 (UInt32.toNat_inj.mp zero))
      split
      · rfl
      · next memory =>
        split
        · rfl
        · next read =>
          obtain ⟨table, -⟩ := ataReadSectors_done (by simpa using read)
          exact absurd ⟨⟨opened.2, some, Nat.le_of_not_gt counted.2⟩, complete,
            by simpa using memory, table⟩ closed

theorem fsLoad_cases (returned : fsLoad io disk fs = .ok (after, result)) :
    (after = fs ∧ result = -1) ∨ (Opens io disk ∧ ∃ loaded done,
      loadInodes io disk (loadTable disk) (List.range (imageCount disk)) fs = .ok (loaded, done) ∧
      ((done = false ∧ after = loaded ∧ result = -1) ∨
        (done = true ∧ linkInodes (loadTable disk) (List.range (imageCount disk)) loaded =
          .ok after ∧ result = if after.rootDir.isSome then 0 else -1))) := by
  by_cases opens : Opens io disk
  · refine .inr ⟨opens, ?_⟩
    rw [fsLoad_open opens, loadPasses] at returned
    split at returned
    · contradiction
    · next loaded first =>
      cases returned
      exact ⟨after, false, first, .inl ⟨rfl, rfl, rfl⟩⟩
    · next loaded first =>
      split at returned
      · contradiction
      · next linked second =>
        cases returned
        exact ⟨loaded, true, first, .inr ⟨rfl, second, rfl⟩⟩
  · rw [fsLoad_closed opens] at returned
    cases returned
    exact .inl ⟨rfl, rfl⟩

theorem fsInit_cases (fresh : fs.initialized = false) (returned : fsInit io disk fs = .ok after) :
    ∃ loaded result, fsLoad io disk (clearTables fs) = .ok (loaded, result) ∧
      ((result = 0 ∧ after = { loaded with initialized := true }) ∨
        (result ≠ 0 ∧ createRoot loaded = .ok after)) := by
  simp only [fsInit, fresh, Bool.false_eq_true, if_false] at returned
  split at returned
  · contradiction
  · next loaded result found =>
    split at returned
    · next zero =>
      cases returned
      exact ⟨loaded, result, found, .inl ⟨zero, rfl⟩⟩
    · next nonzero => exact ⟨loaded, result, found, .inr ⟨nonzero, returned⟩⟩

def freshFs : FileSystem :=
  match createRoot (clearTables bootState) with
  | .ok fs => fs
  | .error _ => bootState

theorem fsInit_fresh (io : LoadIo) (disk : Disk) (blank : (Superblock.load disk).magic ≠ fsMagic) :
    fsInit io disk bootState = .ok freshFs := by
  obtain ⟨fs, created, -⟩ := createRoot_keeps (clearTables bootState) (fun _ => rfl)
  have load := fsLoad_closed (fun opens : Opens io disk => blank opens.magic)
    (clearTables bootState)
  simp only [fsInit, load, freshFs, created]
  rfl

theorem freshFs_tree : TreeShaped freshFs := by
  obtain ⟨fs, created, -, keeps⟩ := createRoot_keeps (clearTables bootState) (fun _ => rfl)
  simp only [freshFs, created]
  exact keeps.1

end ArgoOS.Fs
