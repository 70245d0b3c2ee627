import ArgoOS.Fs.Tree

set_option autoImplicit false

/-! # The calls keep the directory tree -/

namespace ArgoOS.Fs

open List FileSystem Linked

structure Created (before after : FileSystem) (dir slot : Slot) : Prop where
  rootDir : after.rootDir = before.rootDir
  currentDir : after.currentDir = before.currentDir
  free : (before.inodes slot).valid = false
  valid : (after.inodes slot).valid = true
  parent : (after.inodes slot).parent = some dir
  next : (before.inodes dir).data.firstChild = .ok (after.inodes slot).next
  data : (after.inodes slot).type = typeFile ∧ (∃ bytes, (after.inodes slot).data = .buffer bytes) ∨
    (after.inodes slot).type = typeDir ∧ (after.inodes slot).data = .null
  pushed : after.inodes dir = { before.inodes dir with data := .child slot }
  others : ∀ other, other ≠ slot → other ≠ dir → after.inodes other = before.inodes other

theorem takeInode_other (fs : FileSystem) (slot other : Slot) (node : Inode)
    (different : other ≠ slot) : (takeInode fs slot node).inodes other = fs.inodes other :=
  fs.setInode_other slot other node different

@[simp] theorem takeInode_self (fs : FileSystem) (slot : Slot) (node : Inode) :
    (takeInode fs slot node).inodes slot = node :=
  fs.setInode_self slot node

variable {fs : FileSystem}

theorem takeInode_invalid {slot : Slot} {node : Inode} (free : (fs.inodes slot).valid = false)
    (invalid : node.valid = false) : SameShape fs (takeInode fs slot node) := by
  have kept : ∀ other, (fs.inodes other).valid = true →
      (takeInode fs slot node).inodes other = fs.inodes other := by
    intro other valid
    apply takeInode_other
    rintro rfl
    rw [free] at valid
    contradiction
  refine ⟨rfl, ?_, ?_, ?_⟩
  · intro other
    by_cases same : other = slot
    · subst same
      rw [takeInode_self, invalid, free]
    · rw [takeInode_other _ _ _ _ same]
  · intro other valid
    simp [kept other valid]
  · intro other valid
    exact .inl (by rw [kept other valid])

theorem linkChild_created {dir slot : Slot} (node : Inode) {first : Option Slot}
    (different : dir ≠ slot) (free : (fs.inodes slot).valid = false)
    (head : (fs.inodes dir).data.firstChild = .ok first) (valid : node.valid = true)
    (parent : node.parent = some dir)
    (data : node.type = typeFile ∧ (∃ bytes, node.data = .buffer bytes) ∨
      node.type = typeDir ∧ node.data = .null) :
    ∃ after, linkChild (takeInode fs slot node) dir slot = .ok after ∧
      Created fs after dir slot := by
  have atSlot : (((takeInode fs slot node).setNext slot first).setData dir (.child slot)).inodes slot =
      { node with next := first } := by
    simp [setData_inodes, setNext_inodes, different.symm]
  refine ⟨((takeInode fs slot node).setNext slot first).setData dir (.child slot), ?_, ?_⟩
  · simp only [linkChild, takeInode_other _ _ _ _ different, head]
  · exact {
      rootDir := rfl
      currentDir := rfl
      free := free
      valid := by rw [atSlot]; exact valid
      parent := by rw [atSlot]; exact parent
      next := by rw [atSlot]; exact head
      data := by rw [atSlot]; exact data
      pushed := by
        simp [setData_inodes, setNext_inodes, different,
          takeInode_other _ _ _ _ different]
      others := by
        intro other notSlot notDir
        simp [setData_inodes, setNext_inodes, notSlot, notDir,
          takeInode_other _ _ _ _ notSlot] }

theorem fsCreateInode_effect (name : List UInt8) {type : UInt32} {dir : Slot} (memory : Bool)
    (isDir : IsDir fs dir) (kind : type = typeFile ∨ type = typeDir) {first : Option Slot}
    (head : (fs.inodes dir).data.firstChild = .ok first) :
    ∃ after node, fsCreateInode fs name type (some dir) memory = .ok (after, node) ∧
      (node = none ∧ SameShape fs after ∧ after.currentDir = fs.currentDir ∨
        ∃ slot, node = some slot ∧ Created fs after dir slot) := by
  unfold fsCreateInode
  cases found : fs.freeSlot with
  | none => exact ⟨fs, none, rfl, .inl ⟨rfl, .of_inodes rfl rfl, rfl⟩⟩
  | some slot =>
    have free := fs.freeSlot_invalid found
    simp only
    split
    · exact ⟨_, none, rfl, .inl ⟨rfl, takeInode_invalid free rfl, rfl⟩⟩
    · have different : dir ≠ slot := by
        rintro rfl
        rw [isDir.1] at free
        contradiction
      rw [takeInode_other _ _ _ _ different, if_pos isDir.2]
      obtain ⟨after, linked, created⟩ := linkChild_created (newInode fs name type (some dir)
        (if type = typeFile then .buffer (fun _ => 0) else .null) true) different free head
        rfl rfl (by
          obtain rfl | rfl := kind
          · exact .inl ⟨rfl, _, rfl⟩
          · exact .inr ⟨rfl, rfl⟩)
      rw [linked]
      exact ⟨after, some slot, rfl, .inr ⟨slot, rfl, created⟩⟩

variable {before : FileSystem} {dir slot : Slot}

section

variable {after : FileSystem} (created : Created before after dir slot) (isDir : IsDir before dir)

include created

theorem Created.kept (other : Slot) (different : other ≠ slot) :
    (after.inodes other).valid = (before.inodes other).valid ∧
    (after.inodes other).type = (before.inodes other).type ∧
    (after.inodes other).parent = (before.inodes other).parent ∧
    (after.inodes other).next = (before.inodes other).next := by
  by_cases same : other = dir
  · subst same
    simp [created.pushed]
  · simp [created.others other different same]

theorem Created.notSlot (other : Slot) (valid : (before.inodes other).valid = true) :
    other ≠ slot := by
  rintro rfl
  rw [created.free] at valid
  contradiction

theorem Created.isDir_kept (other : Slot) (valid : IsDir before other) : IsDir after other := by
  obtain ⟨kept, kind, -⟩ := created.kept other (created.notSlot other valid.1)
  exact ⟨kept.trans valid.1, kind.trans valid.2⟩

theorem Created.valid_iff (other : Slot) : (after.inodes other).valid = true ↔
    other = slot ∨ (before.inodes other).valid = true := by
  by_cases same : other = slot
  · simp [same, created.valid]
  · simp [same, (created.kept other same).1]

theorem Created.members (above other : Slot) :
    (after.inodes other).valid = true ∧ (after.inodes other).parent = some above ↔
      other = slot ∧ above = dir ∨
      (before.inodes other).valid = true ∧ (before.inodes other).parent = some above := by
  rw [created.valid_iff]
  by_cases same : other = slot
  · subst same
    simp [created.parent, created.free, eq_comm]
  · simp [same, (created.kept other same).2.2.1]

include isDir

theorem Created.listed (tree : TreeShaped before) (above : Slot) (aboveDir : IsDir after above) :
    ∃ children, ChildList after above children ∧ ∀ other, other ∈ children ↔
      (after.inodes other).valid = true ∧ (after.inodes other).parent = some above := by
  simp only [created.members]
  by_cases new : above = slot
  · subst new
    have empty : (after.inodes above).data = .null := by
      obtain ⟨isFile, -⟩ | ⟨-, empty⟩ := created.data
      · exact absurd (isFile.symm.trans aboveDir.2) typeFile_ne_typeDir
      · exact empty
    refine ⟨[], ⟨none, by rw [empty]; rfl, rfl⟩, ?_⟩
    intro other
    simp only [not_mem_nil, false_iff, not_or, not_and]
    constructor
    · rintro - rfl
      exact created.notSlot above isDir.1 rfl
    · intro valid parent
      exact created.notSlot above (tree.parent_dir valid parent).1 rfl
  · obtain ⟨valid, kind, -⟩ := created.kept above new
    obtain ⟨children, list, members⟩ := tree.listed above
      ⟨valid.symm.trans aboveDir.1, kind.symm.trans aboveDir.2⟩
    have links : ∀ other ∈ children, (after.inodes other).next = (before.inodes other).next := by
      intro other member
      exact (created.kept other (created.notSlot other ((members other).mp member).1)).2.2.2
    by_cases same : above = dir
    · subst same
      refine ⟨slot :: children, list.push created.next (by rw [created.pushed]) links, ?_⟩
      intro other
      rw [mem_cons, members]
      simp
    · refine ⟨children, list.congr (by rw [created.others above new same]) links, ?_⟩
      intro other
      rw [members]
      simp [same]

theorem TreeShaped.create (tree : TreeShaped before) : TreeShaped after where
  root := by
    obtain ⟨root, rootDir, rootIsDir, noParent⟩ := tree.root
    refine ⟨root, created.rootDir.trans rootDir, created.isDir_kept root rootIsDir, ?_⟩
    rw [(created.kept root (created.notSlot root rootIsDir.1)).2.2.1, noParent]
  parented := by
    intro other valid notRoot
    obtain rfl | valid := (created.valid_iff other).mp valid
    · exact ⟨dir, created.parent, created.isDir_kept dir isDir⟩
    · rw [created.rootDir] at notRoot
      obtain ⟨above, parent, aboveDir⟩ := tree.parented other valid notRoot
      exact ⟨above, (created.kept other (created.notSlot other valid)).2.2.1.trans parent,
        created.isDir_kept above aboveDir⟩
  listed := created.listed isDir tree
  rooted := by
    have old : ∀ other, (before.inodes other).valid = true → Rooted after other := by
      intro other valid
      exact tree.rooted_congr created.rootDir
        (fun node valid => (created.kept node (created.notSlot node valid)).2.2.1) valid
    intro other valid
    obtain rfl | valid := (created.valid_iff other).mp valid
    · exact .child other dir created.parent (old dir isDir.1)
    · exact old other valid
  contents := by
    intro other valid isFile
    obtain rfl | valid := (created.valid_iff other).mp valid
    · obtain ⟨-, buffer⟩ | ⟨isDir', -⟩ := created.data
      · exact buffer
      · exact absurd (isFile.symm.trans isDir') typeFile_ne_typeDir
    · have different := created.notSlot other valid
      rw [(created.kept other different).2.1] at isFile
      have notDir : other ≠ dir := by
        rintro rfl
        exact typeFile_ne_typeDir (isFile.symm.trans isDir.2)
      rw [created.others other different notDir]
      exact tree.contents other valid isFile

end

structure Unlinked (before after : FileSystem) (dir slot : Slot) (children : List Slot) : Prop where
  rootDir : after.rootDir = before.rootDir
  currentDir : after.currentDir = before.currentDir
  fields : ∀ other, (after.inodes other).valid = (before.inodes other).valid ∧
    (after.inodes other).type = (before.inodes other).type ∧
    (after.inodes other).parent = (before.inodes other).parent
  list : ChildList after dir (children.erase slot)
  links : ∀ other, other ∉ children → (after.inodes other).next = (before.inodes other).next
  data : ∀ other, other ≠ dir → (after.inodes other).data = (before.inodes other).data

theorem unlinkFirst_effect {rest : List Slot} (list : ChildList fs dir (slot :: rest)) :
    ∃ after, unlinkChild fs dir slot = .ok after ∧ Unlinked fs after dir slot (slot :: rest) := by
  obtain ⟨first, head, rfl, chain⟩ := list
  refine ⟨fs.setData dir (.ofChild (fs.inodes slot).next), by simp [unlinkChild, head], rfl, rfl,
    ?_, ?_, ?_, ?_⟩
  · intro other
    simp [setData_inodes]
  · rw [erase_cons_head]
    refine ⟨(fs.inodes slot).next, by simp [setData_inodes], ?_⟩
    exact (path_congr _ _ _ (fun other _ => by simp [setData_inodes])).mpr chain
  · intro other _
    simp [setData_inodes]
  · intro other different
    simp [setData_inodes, different]

theorem unlinkLater_effect {before : Slot} {front rest : List Slot}
    (list : ChildList fs dir (front ++ before :: slot :: rest)) :
    ∃ after, unlinkChild fs dir slot = .ok after ∧
      Unlinked fs after dir slot (front ++ before :: slot :: rest) := by
  have short := list.length_le
  have distinct := list.nodup
  obtain ⟨first, head, chain⟩ := list
  have notInFront : slot ∉ front ++ [before] := by
    rw [show front ++ before :: slot :: rest = (front ++ [before]) ++ slot :: rest by simp] at distinct
    exact fun member => (nodup_append.mp distinct).2.2 slot member slot (by simp) rfl
  have notFirst : first ≠ some slot := by
    rintro rfl
    cases front with
    | nil => exact notInFront (by simp [Option.some.inj chain.1])
    | cons other front => exact notInFront (by simp [Option.some.inj chain.1])
  have search := search_chain (fun child => (fs.inodes child).next == some slot)
    chain short
  rw [chain_find_before chain] at search
  refine ⟨fs.setNext before (fs.inodes slot).next,
    by simp only [unlinkChild, head, if_neg notFirst, search], rfl, rfl, ?_, ?_, ?_, ?_⟩
  · intro other
    simp [setNext_inodes]
  · have erased : (front ++ before :: slot :: rest).erase slot = front ++ before :: rest := by
      rw [show front ++ before :: slot :: rest = (front ++ [before]) ++ slot :: rest by simp,
        erase_append_right _ notInFront, erase_cons_head]
      simp
    rw [erased]
    refine ⟨first, by simp [setNext_inodes, head], ?_⟩
    refine (path_congr _ _ _ (fun other _ => ?_)).mpr
      (chain_unlink chain)
    simp [setNext_inodes, Function.update_apply]
  · intro other outside
    have different : other ≠ before := by
      rintro rfl
      simp at outside
    simp [setNext_inodes, different]
  · intro other _
    simp [setNext_inodes]

theorem unlinkChild_effect {children : List Slot} (list : ChildList fs dir children)
    (member : slot ∈ children) :
    ∃ after, unlinkChild fs dir slot = .ok after ∧ Unlinked fs after dir slot children := by
  obtain ⟨front, rest, rfl⟩ := append_of_mem member
  cases front using List.reverseRecOn with
  | nil => exact unlinkFirst_effect list
  | append_singleton front before _ =>
    rw [append_assoc] at list ⊢
    exact unlinkLater_effect list

section

variable {unlinked : FileSystem} {children : List Slot} (tree : TreeShaped before)
  (done : Unlinked before unlinked dir slot children)
  (members : ∀ other, other ∈ children ↔ (before.inodes other).valid = true ∧ (before.inodes other).parent = some dir)
  (distinct : children.Nodup) (member : slot ∈ children)

theorem invalidate_fields (fs : FileSystem) (slot other : Slot) :
    (invalidate fs slot).inodes other = { fs.inodes other with
      valid := (fs.inodes other).valid && other != slot } := by
  by_cases same : other = slot
  · subst same
    simp [invalidate]
  · rw [show (other != slot) = true by simpa using same]
    simp [invalidate, fs.setInode_other slot other _ same]

include done

theorem Unlinked.invalidated (other : Slot) :
    ((invalidate unlinked slot).inodes other).valid =
      ((before.inodes other).valid && other != slot) ∧
    ((invalidate unlinked slot).inodes other).type = (before.inodes other).type ∧
    ((invalidate unlinked slot).inodes other).parent = (before.inodes other).parent := by
  obtain ⟨valid, kind, parent⟩ := done.fields other
  simp [invalidate_fields, valid, kind, parent]

theorem Unlinked.isDir_iff (other : Slot) :
    IsDir (invalidate unlinked slot) other ↔ IsDir before other ∧ other ≠ slot := by
  obtain ⟨valid, kind, -⟩ := done.invalidated other
  simp [IsDir, valid, kind]
  tauto

include members distinct member in
theorem Unlinked.listed (tree : TreeShaped before) (above : Slot)
    (aboveDir : IsDir (invalidate unlinked slot) above) :
    ∃ children, ChildList (invalidate unlinked slot) above children ∧ ∀ other, other ∈ children ↔
      ((invalidate unlinked slot).inodes other).valid = true ∧
      ((invalidate unlinked slot).inodes other).parent = some above := by
  have isDir := ((done.isDir_iff above).mp aboveDir).1
  obtain ⟨siblings, list, siblingsOf⟩ := tree.listed above isDir
  have same : ∀ other, ((invalidate unlinked slot).inodes other).valid = true ∧
      ((invalidate unlinked slot).inodes other).parent = some above ↔
      other ∈ siblings ∧ other ≠ slot := by
    intro other
    obtain ⟨valid, -, parent⟩ := done.invalidated other
    rw [valid, parent, siblingsOf]
    simp
    tauto
  simp only [same]
  by_cases here : above = dir
  · subst here
    refine ⟨children.erase slot, done.list.congr (by simp [invalidate_fields])
      (fun _ _ => by simp [invalidate_fields]), ?_⟩
    intro other
    rw [distinct.mem_erase_iff, members, siblingsOf]
    tauto
  · have outside : ∀ other ∈ siblings, other ∉ children := by
      intro other first second
      have parent := ((siblingsOf other).mp first).2
      rw [((members other).mp second).2] at parent
      exact here (Option.some.inj parent).symm
    have notHere : slot ∉ siblings := fun other => outside slot other member
    refine ⟨siblings, list.congr ?_ ?_, ?_⟩
    · simp [invalidate_fields, done.data above here]
    · intro other sibling
      simp [invalidate_fields, done.links other (outside other sibling)]
    · intro other
      refine ⟨fun sibling => ⟨sibling, ?_⟩, fun both => both.1⟩
      rintro rfl
      exact notHere sibling

include tree members distinct member in
theorem TreeShaped.remove (dirKind : (before.inodes dir).type = typeDir)
    (notRoot : before.rootDir ≠ some slot)
    (childless : ∀ other, (before.inodes other).valid = true →
      (before.inodes other).parent ≠ some slot) :
    TreeShaped (invalidate unlinked slot) where
  root := by
    obtain ⟨root, rootDir, isDir, noParent⟩ := tree.root
    refine ⟨root, done.rootDir.trans rootDir, (done.isDir_iff root).mpr ⟨isDir, ?_⟩, ?_⟩
    · rintro rfl
      exact notRoot rootDir
    · rw [(done.invalidated root).2.2, noParent]
  parented := by
    intro other valid otherNotRoot
    rw [(done.invalidated other).1, Bool.and_eq_true] at valid
    obtain ⟨dir, parent, isDir⟩ := tree.parented other valid.1
      (fun isRoot => otherNotRoot (done.rootDir.trans isRoot))
    refine ⟨dir, (done.invalidated other).2.2.trans parent, (done.isDir_iff dir).mpr ⟨isDir, ?_⟩⟩
    rintro rfl
    exact childless other valid.1 parent
  listed := done.listed members distinct member tree
  rooted := by
    intro other valid
    rw [(done.invalidated other).1, Bool.and_eq_true] at valid
    have rootDir : (invalidate unlinked slot).rootDir = before.rootDir := done.rootDir
    exact tree.rooted_congr rootDir (fun node _ => (done.invalidated node).2.2) valid.1
  contents := by
    intro other valid isFile
    rw [(done.invalidated other).1, Bool.and_eq_true] at valid
    rw [(done.invalidated other).2.1] at isFile
    have notDir : other ≠ dir := by
      rintro rfl
      exact typeFile_ne_typeDir (isFile.symm.trans dirKind)
    obtain ⟨bytes, data⟩ := tree.contents other valid.1 isFile
    exact ⟨bytes, by simp [invalidate_fields, done.data other notDir, data]⟩

end

theorem TreeShaped.childless (tree : TreeShaped fs) (slot : Slot)
    (empty : ¬((fs.inodes slot).type = typeDir ∧ (fs.inodes slot).data.isNull = false))
    (other : Slot) (valid : (fs.inodes other).valid = true) :
    (fs.inodes other).parent ≠ some slot := by
  intro parent
  have isDir := tree.parent_dir valid parent
  obtain ⟨children, ⟨first, head, chain⟩, members⟩ := tree.listed slot isDir
  have member := (members other).mpr ⟨valid, parent⟩
  cases data : (fs.inodes slot).data with
  | null =>
    rw [data] at head
    cases head
    cases chain_unique [] chain rfl
    simp at member
  | child _ => exact empty ⟨isDir.2, by rw [data]; rfl⟩
  | buffer _ => exact empty ⟨isDir.2, by rw [data]; rfl⟩

theorem writeFile_shape (index : Descriptor) {node : Inode} (entry : FileDescriptor)
    (isFile : (fs.inodes slot).type = typeFile) (buffer : ∃ bytes, node.data = .buffer bytes)
    (valid : node.valid = (fs.inodes slot).valid) (type : node.type = (fs.inodes slot).type)
    (parent : node.parent = (fs.inodes slot).parent) (next : node.next = (fs.inodes slot).next) :
    SameShape fs ((fs.setInode slot node).setDescriptor index entry) := by
  refine ⟨rfl, ?_, ?_, ?_⟩ <;> intro other <;> rw [setDescriptor_inodes] <;>
    by_cases same : other = slot
  · subst same
    rw [setInode_self, valid]
  · rw [setInode_other _ _ _ _ same]
  · subst same
    simp [type, parent, next]
  · simp [setInode_other _ _ _ _ same]
  · subst same
    rw [setInode_self]
    exact fun _ => .inr ⟨isFile, buffer⟩
  · rw [setInode_other _ _ _ _ same]
    exact fun _ => .inl rfl

def ReadOverruns (fs : FileSystem) (fd : Int) (size : UInt32) : Prop :=
  ∃ index slot, openFile fs fd modeRead = some (index, slot) ∧
    maxFileSize < (fs.fileDescriptors index).position.toNat +
      (readCount (fs.inodes slot) (fs.fileDescriptors index) size).toNat

def WriteOverruns (fs : FileSystem) (fd : Int) (size : UInt32) : Prop :=
  ∃ index slot, openFile fs fd modeWrite = some (index, slot) ∧
    maxFileSize < (fs.fileDescriptors index).position.toNat +
      (writeExtent (fs.fileDescriptors index).position size).1.toNat

def KeepsTree (after : FileSystem) : Prop :=
  TreeShaped after ∧ CurrentOk after

section

variable {fs : FileSystem} (tree : TreeShaped fs) (current : CurrentOk fs)

include tree current

theorem KeepsTree.same {after : FileSystem} (same : SameShape fs after)
    (kept : after.currentDir = fs.currentDir) : KeepsTree after :=
  ⟨tree.congr same, current.congr same kept⟩

theorem create_keeps (name : List UInt8) (type : UInt32) (memory : Bool)
    (kind : type = typeFile ∨ type = typeDir) :
    ∃ after node, fsCreateInode fs name type fs.getCurrentDir memory = .ok (after, node) ∧
      KeepsTree after := by
  obtain ⟨dir, currentDir, isDir⟩ := current
  obtain ⟨children, ⟨first, head, -⟩, -⟩ := tree.listed dir isDir
  rw [CurrentOk.getCurrentDir currentDir]
  obtain ⟨after, node, returned, unchanged | ⟨slot, -, created⟩⟩ :=
    fsCreateInode_effect name memory isDir kind head
  · exact ⟨after, node, returned,
      KeepsTree.same tree ⟨dir, currentDir, isDir⟩ unchanged.2.1 unchanged.2.2⟩
  · exact ⟨after, node, returned, tree.create created isDir, dir,
      created.currentDir.trans currentDir, created.isDir_kept dir isDir⟩

theorem openNode_keeps (path : CString) (mode : UInt32) (memory : Bool) :
    ∃ after node, openNode fs path mode memory = .ok (after, node) ∧ KeepsTree after := by
  obtain ⟨found, resolved, -⟩ := tree.resolve_valid current (some path)
  unfold openNode
  rw [resolved]
  cases found with
  | some node => exact ⟨fs, some node, rfl, tree, current⟩
  | none =>
    simp only
    split
    · exact create_keeps tree current (baseName path) typeFile memory (.inl rfl)
    · exact ⟨fs, none, rfl, tree, current⟩

theorem openDescriptor_keeps (node : Option Slot) (mode : UInt32) :
    KeepsTree (openDescriptor fs node mode).1 := by
  unfold openDescriptor
  cases node with
  | none => exact ⟨tree, current⟩
  | some slot =>
    simp only
    split
    · exact ⟨tree, current⟩
    · split
      · exact ⟨tree, current⟩
      · exact KeepsTree.same tree current (.of_inodes rfl rfl) rfl

theorem open_keeps (path : Option CString) (mode : UInt32) (memory : Bool) :
    ∃ after result, fsOpen fs path mode memory = .ok (after, result) ∧ KeepsTree after := by
  unfold fsOpen
  cases path with
  | none => exact ⟨fs, -1, rfl, tree, current⟩
  | some path =>
    simp only
    split
    · exact ⟨fs, -1, rfl, tree, current⟩
    · obtain ⟨found, node, opened, keeps⟩ := openNode_keeps tree current path mode memory
      rw [opened]
      exact ⟨_, _, rfl, openDescriptor_keeps keeps.1 keeps.2 node mode⟩

theorem mkdir_keeps (path : Option CString) :
    ∃ after result, fsMkdir fs path = .ok (after, result) ∧ KeepsTree after := by
  unfold fsMkdir
  cases path with
  | none => exact ⟨fs, -1, rfl, tree, current⟩
  | some path =>
    obtain ⟨dir, currentDir, isDir⟩ := id current
    obtain ⟨found, search, -⟩ := tree.walkable.find_valid dir (baseName path) isDir.1
    simp only [CurrentOk.getCurrentDir currentDir, search]
    cases found with
    | some _ => exact ⟨fs, -1, rfl, tree, current⟩
    | none =>
      obtain ⟨after, node, created, keeps⟩ :=
        create_keeps tree current (baseName path) typeDir true (.inr rfl)
      rw [CurrentOk.getCurrentDir currentDir] at created
      simp only [created]
      exact ⟨after, _, rfl, keeps⟩

theorem remove_keeps {path : Option CString} (spares : fsResolvePath fs path ≠ .ok fs.currentDir) :
    ∃ after result, fsRemove fs path = .ok (after, result) ∧ KeepsTree after := by
  obtain ⟨found, resolved, valid⟩ := tree.resolve_valid current path
  unfold fsRemove
  rw [resolved]
  cases found with
  | none => exact ⟨fs, -1, rfl, tree, current⟩
  | some slot =>
    simp only [removeNode]
    split
    · exact ⟨fs, -1, rfl, tree, current⟩
    · next notRoot =>
      split
      · exact ⟨fs, -1, rfl, tree, current⟩
      · next empty =>
        obtain ⟨dir, parent, isDir⟩ := tree.parented slot (valid slot rfl) notRoot
        obtain ⟨children, list, members⟩ := tree.listed dir isDir
        have member := (members slot).mpr ⟨valid slot rfl, parent⟩
        obtain ⟨unlinked, returned, done⟩ := unlinkChild_effect list member
        rw [parent]
        simp only [returned]
        refine ⟨_, 0, rfl, tree.remove done members list.nodup member isDir.2 notRoot
          (tree.childless slot empty), ?_⟩
        obtain ⟨here, currentDir, hereDir⟩ := current
        refine ⟨here, done.currentDir.trans currentDir, (done.isDir_iff here).mpr ⟨hereDir, ?_⟩⟩
        rintro rfl
        exact spares (by rw [resolved, currentDir])

theorem setCurrentDir_keeps (path : Option CString) :
    ∃ after result, (fsResolvePath fs path).map (fsSetCurrentDir fs) = .ok (after, result) ∧
      KeepsTree after := by
  obtain ⟨found, resolved, valid⟩ := tree.resolve_valid current path
  rw [resolved]
  cases found with
  | none => exact ⟨fs, -1, rfl, tree, current⟩
  | some slot =>
    simp only [Except.map, fsSetCurrentDir]
    split
    · next isDir => exact ⟨_, _, rfl, tree.congr (.of_inodes rfl rfl), slot, rfl, valid slot rfl, isDir⟩
    · exact ⟨fs, -1, rfl, tree, current⟩

theorem close_keeps (fd : Int) : KeepsTree (fsClose fs fd).1 := by
  unfold fsClose
  split
  · exact ⟨tree, current⟩
  · exact KeepsTree.same tree current (.of_inodes rfl rfl) rfl

theorem seek_keeps (fd : Int) (offset : Int32) (whence : UInt32) :
    KeepsTree (fsSeek fs fd offset whence).1 := by
  unfold fsSeek
  split
  · exact ⟨tree, current⟩
  · simp only
    split
    · exact ⟨tree, current⟩
    · exact KeepsTree.same tree current (.of_inodes rfl rfl) rfl

omit current in
theorem openFile_buffer {fd : Int} {mode : UInt32} {index : Descriptor}
    (opened : openFile fs fd mode = some (index, slot)) :
    (fs.inodes slot).valid = true ∧ (fs.inodes slot).type = typeFile ∧
      ∃ bytes, (fs.inodes slot).data = .buffer bytes := by
  simp only [openFile] at opened
  split at opened
  · contradiction
  · split at opened
    · contradiction
    · split at opened
      · contradiction
      · next found =>
        split at opened
        · next isFile =>
          cases opened
          have valid := (fs.findInodeByNum_spec found).1
          exact ⟨valid, isFile, tree.contents slot valid isFile⟩
        · contradiction

theorem read_keeps (fd : Int) (buffer : Option (Nat → UInt8)) (size : UInt32) :
    (∃ after result target, fsRead fs fd buffer size = .ok (after, result, target) ∧
      KeepsTree after) ∨
    fsRead fs fd buffer size = .error .outOfBounds ∧ ReadOverruns fs fd size := by
  cases buffer with
  | none => exact .inl ⟨fs, -1, none, rfl, tree, current⟩
  | some target =>
    cases opened : openFile fs fd modeRead with
    | none => exact .inl ⟨fs, -1, some target, by simp only [fsRead, opened], tree, current⟩
    | some pair =>
      obtain ⟨index, slot⟩ := pair
      obtain ⟨-, -, bytes, data⟩ := openFile_buffer tree opened
      simp only [fsRead, opened, data, fileBuffer]
      split
      · exact .inl ⟨fs, 0, some target, rfl, tree, current⟩
      · split
        · next fault failed =>
          split at failed
          · contradiction
          · next outside =>
            cases failed
            exact .inr ⟨rfl, index, slot, opened, Nat.lt_of_not_le outside⟩
        · exact .inl ⟨_, _, _, rfl, KeepsTree.same tree current (.of_inodes rfl rfl) rfl⟩

theorem write_keeps (fd : Int) (buffer : Option (Nat → UInt8)) (size : UInt32) :
    (∃ after result, fsWrite fs fd buffer size = .ok (after, result) ∧ KeepsTree after) ∨
    fsWrite fs fd buffer size = .error .outOfBounds ∧ WriteOverruns fs fd size := by
  cases buffer with
  | none => exact .inl ⟨fs, -1, rfl, tree, current⟩
  | some source =>
    cases opened : openFile fs fd modeWrite with
    | none => exact .inl ⟨fs, -1, by simp only [fsWrite, opened], tree, current⟩
    | some pair =>
      obtain ⟨index, slot⟩ := pair
      obtain ⟨valid, isFile, bytes, data⟩ := openFile_buffer tree opened
      simp only [fsWrite, opened, data, fileBuffer]
      split
      · next fault failed =>
        split at failed
        · contradiction
        · next outside =>
          cases failed
          exact .inr ⟨rfl, index, slot, opened, Nat.lt_of_not_le outside⟩
      · refine .inl ⟨_, _, rfl, KeepsTree.same tree current ?_ rfl⟩
        exact writeFile_shape index _ isFile ⟨_, rfl⟩ rfl rfl rfl rfl

end

theorem FileSystem.freeSlot_of_empty (fs : FileSystem)
    (empty : ∀ slot, (fs.inodes slot).valid = false) : ∃ slot, fs.freeSlot = some slot := by
  cases found : fs.freeSlot with
  | some slot => exact ⟨slot, rfl⟩
  | none =>
    have taken := List.find?_eq_none.mp found 0 (mem_finRange 0)
    simp [empty] at taken

theorem createRoot_keeps (fs : FileSystem) (empty : ∀ slot, (fs.inodes slot).valid = false) :
    ∃ after, createRoot fs = .ok after ∧ after.initialized = true ∧ KeepsTree after := by
  obtain ⟨root, found⟩ := fs.freeSlot_of_empty empty
  have notFile : ¬(typeDir = typeFile ∧ true = false) := by decide
  refine ⟨{ takeInode fs root (newInode fs [slash] typeDir none .null true) with
    rootDir := some root, currentDir := some root, initialized := true },
    by simp only [createRoot, fsCreateInode, found, if_neg notFile]; rfl, rfl, ?_⟩
  set node := newInode fs [slash] typeDir none .null true
  have atRoot : (takeInode fs root node).inodes root = node := takeInode_self fs root node
  have only : ∀ slot, ((takeInode fs root node).inodes slot).valid = true → slot = root := by
    intro slot valid
    by_contra different
    rw [takeInode_other _ _ _ _ different, empty slot] at valid
    contradiction
  have isDir : IsDir { takeInode fs root node with
      rootDir := some root, currentDir := some root, initialized := true } root := by
    unfold IsDir
    rw [atRoot]
    exact ⟨rfl, rfl⟩
  refine ⟨⟨⟨root, rfl, isDir, by rw [atRoot]; rfl⟩, ?_, ?_, ?_, ?_⟩, root, rfl, isDir⟩
  · intro slot valid notRoot
    exact absurd (congrArg some (only slot valid).symm) notRoot
  · intro dir dirValid
    cases only dir dirValid.1
    refine ⟨[], ⟨none, by rw [atRoot]; rfl, rfl⟩, ?_⟩
    intro slot
    simp only [not_mem_nil, false_iff, not_and]
    intro valid
    cases only slot valid
    rw [atRoot]
    nofun
  · intro slot valid
    cases only slot valid
    exact .root root rfl
  · intro slot valid isFile
    cases only slot valid
    rw [atRoot] at isFile
    exact absurd isFile.symm typeFile_ne_typeDir

def Operation.Overruns (fs : FileSystem) : Operation → Prop
  | .fsRead fd _ size => ReadOverruns fs fd size
  | .fsWrite fd _ size => WriteOverruns fs fd size
  | _ => False

def Operation.SparesCurrent (fs : FileSystem) : Operation → Prop
  | .fsRemove path => fsResolvePath fs path ≠ .ok fs.currentDir
  | _ => True

def faultOf {α : Type} : Except Fault α → Option Fault
  | .error fault => some fault
  | .ok _ => none

end ArgoOS.Fs
