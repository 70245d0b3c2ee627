import Mathlib
import ArgoOS.Fs.Operations

set_option autoImplicit false

/-!
# The directory tree

The valid inodes form a tree under `root_dir`, and the calls keep it. Slots of removed
inodes keep their old pointers, so the invariant speaks about valid inodes only.
-/

namespace ArgoOS.Fs

open Linked

def IsDir (fs : FileSystem) (slot : Slot) : Prop :=
  (fs.inodes slot).valid = true ∧ (fs.inodes slot).type = typeDir

inductive Rooted (fs : FileSystem) : Slot → Prop where
  | root (slot : Slot) (isRoot : fs.rootDir = some slot) : Rooted fs slot
  | child (slot dir : Slot) (parent : (fs.inodes slot).parent = some dir) (above : Rooted fs dir) :
      Rooted fs slot

structure TreeShaped (fs : FileSystem) : Prop where
  root : ∃ root, fs.rootDir = some root ∧ IsDir fs root ∧ (fs.inodes root).parent = none
  parented : ∀ slot, (fs.inodes slot).valid = true → fs.rootDir ≠ some slot →
    ∃ dir, (fs.inodes slot).parent = some dir ∧ IsDir fs dir
  listed : ∀ dir, IsDir fs dir → ∃ children, ChildList fs dir children ∧
    ∀ slot, slot ∈ children ↔ (fs.inodes slot).valid = true ∧ (fs.inodes slot).parent = some dir
  rooted : ∀ slot, (fs.inodes slot).valid = true → Rooted fs slot
  contents : ∀ slot, (fs.inodes slot).valid = true → (fs.inodes slot).type = typeFile →
    ∃ bytes, (fs.inodes slot).data = .buffer bytes

def CurrentOk (fs : FileSystem) : Prop :=
  ∃ dir, fs.currentDir = some dir ∧ IsDir fs dir

theorem typeFile_ne_typeDir : typeFile ≠ typeDir := by decide

variable {fs : FileSystem} {before after : FileSystem} {dir slot : Slot} {children : List Slot}

theorem ChildList.nodup (list : ChildList fs dir children) : children.Nodup := by
  obtain ⟨first, -, chain⟩ := list
  exact chain_nodup _ chain

theorem ChildList.length_le (list : ChildList fs dir children) : children.length ≤ 320 := by
  simpa using list.nodup.length_le_card

theorem ChildList.unique {first second : List Slot} (one : ChildList fs dir first)
    (two : ChildList fs dir second) : first = second := by
  obtain ⟨head, start, chain⟩ := one
  obtain ⟨head', start', chain'⟩ := two
  rw [start] at start'
  cases start'
  exact chain_unique second chain chain'

theorem ChildList.congr (list : ChildList before dir children)
    (data : (after.inodes dir).data = (before.inodes dir).data)
    (links : ∀ slot ∈ children, (after.inodes slot).next = (before.inodes slot).next) :
    ChildList after dir children := by
  obtain ⟨first, head, chain⟩ := list
  exact ⟨first, by rw [data, head], (path_congr _ _ _ links).mpr chain⟩

theorem ChildList.push (list : ChildList before dir children)
    (next : (before.inodes dir).data.firstChild = .ok (after.inodes slot).next)
    (data : (after.inodes dir).data = .child slot)
    (links : ∀ child ∈ children, (after.inodes child).next = (before.inodes child).next) :
    ChildList after dir (slot :: children) := by
  obtain ⟨first, head, chain⟩ := list
  cases Except.ok.inj (next.symm.trans head)
  exact ⟨some slot, by rw [data]; rfl, chain_push chain links⟩

theorem ChildList.find (list : ChildList fs dir children) (isDir : (fs.inodes dir).type = typeDir)
    (name : List UInt8) : fsFindInodeInDir fs (some dir) name =
      .ok (children.find? (fun slot => (fs.inodes slot).name.bytes == name)) := by
  have short := list.length_le
  obtain ⟨first, head, chain⟩ := list
  simp only [fsFindInodeInDir, isDir, head, search_chain _ chain short]
  rfl

theorem TreeShaped.parent_dir (tree : TreeShaped fs) (valid : (fs.inodes slot).valid = true)
    (parent : (fs.inodes slot).parent = some dir) : IsDir fs dir := by
  by_cases isRoot : fs.rootDir = some slot
  · obtain ⟨root, rootDir, -, noParent⟩ := tree.root
    cases Option.some.inj (rootDir.symm.trans isRoot)
    rw [noParent] at parent
    contradiction
  · obtain ⟨above, parent', isDir⟩ := tree.parented slot valid isRoot
    cases Option.some.inj (parent.symm.trans parent')
    exact isDir

theorem TreeShaped.rooted_congr (tree : TreeShaped before)
    (rootDir : after.rootDir = before.rootDir)
    (parents : ∀ slot, (before.inodes slot).valid = true →
      (after.inodes slot).parent = (before.inodes slot).parent)
    (valid : (before.inodes slot).valid = true) : Rooted after slot := by
  induction tree.rooted slot valid with
  | root slot isRoot => exact .root slot (by rw [rootDir, isRoot])
  | child slot dir parent _ ih =>
    exact .child slot dir (by rw [parents slot valid, parent])
      (ih (tree.parent_dir valid parent).1)

/-- What the tree depends on: the links of the valid inodes and the kind of their data. -/
structure SameShape (before after : FileSystem) : Prop where
  rootDir : after.rootDir = before.rootDir
  valid : ∀ slot, (after.inodes slot).valid = (before.inodes slot).valid
  links : ∀ slot, (before.inodes slot).valid = true →
    (after.inodes slot).type = (before.inodes slot).type ∧
    (after.inodes slot).parent = (before.inodes slot).parent ∧
    (after.inodes slot).next = (before.inodes slot).next
  data : ∀ slot, (before.inodes slot).valid = true → (after.inodes slot).data =
    (before.inodes slot).data ∨ (before.inodes slot).type = typeFile ∧
      ∃ bytes, (after.inodes slot).data = .buffer bytes

theorem SameShape.of_inodes (rootDir : after.rootDir = before.rootDir)
    (inodes : after.inodes = before.inodes) : SameShape before after where
  rootDir := rootDir
  valid := fun _ => by rw [inodes]
  links := fun _ _ => by simp [inodes]
  data := fun _ _ => .inl (by rw [inodes])

theorem SameShape.isDir (same : SameShape before after) (slot : Slot) :
    IsDir after slot ↔ IsDir before slot := by
  unfold IsDir
  rw [same.valid slot]
  refine and_congr_right (fun valid => ?_)
  rw [(same.links slot valid).1]

theorem SameShape.dir_data (same : SameShape before after) (isDir : IsDir before slot) :
    (after.inodes slot).data = (before.inodes slot).data := by
  obtain kept | ⟨isFile, -⟩ := same.data slot isDir.1
  · exact kept
  · exact absurd (isFile.symm.trans isDir.2) typeFile_ne_typeDir

theorem TreeShaped.congr (tree : TreeShaped before) (same : SameShape before after) :
    TreeShaped after where
  root := by
    obtain ⟨root, rootDir, isDir, noParent⟩ := tree.root
    refine ⟨root, same.rootDir.trans rootDir, (same.isDir root).mpr isDir, ?_⟩
    rw [(same.links root isDir.1).2.1, noParent]
  parented := by
    intro slot valid notRoot
    rw [same.valid] at valid
    rw [same.rootDir] at notRoot
    obtain ⟨dir, parent, isDir⟩ := tree.parented slot valid notRoot
    exact ⟨dir, (same.links slot valid).2.1.trans parent, (same.isDir dir).mpr isDir⟩
  listed := by
    intro dir isDir
    have isDir' := (same.isDir dir).mp isDir
    obtain ⟨children, list, members⟩ := tree.listed dir isDir'
    refine ⟨children, list.congr (same.dir_data isDir') ?_, ?_⟩
    · intro slot member
      exact (same.links slot ((members slot).mp member).1).2.2
    · intro slot
      rw [members, same.valid]
      refine and_congr_right (fun valid => ?_)
      rw [(same.links slot valid).2.1]
  rooted := by
    intro slot valid
    rw [same.valid] at valid
    exact tree.rooted_congr same.rootDir (fun slot valid => (same.links slot valid).2.1) valid
  contents := by
    intro slot valid isFile
    rw [same.valid] at valid
    rw [(same.links slot valid).1] at isFile
    obtain kept | ⟨-, buffer⟩ := same.data slot valid
    · rw [kept]
      exact tree.contents slot valid isFile
    · exact buffer

theorem CurrentOk.congr (current : CurrentOk before) (same : SameShape before after)
    (kept : after.currentDir = before.currentDir) : CurrentOk after := by
  obtain ⟨dir, currentDir, isDir⟩ := current
  exact ⟨dir, kept.trans currentDir, (same.isDir dir).mpr isDir⟩

theorem CurrentOk.getCurrentDir (current : fs.currentDir = some dir) :
    fs.getCurrentDir = some dir := by
  simp [FileSystem.getCurrentDir, current]

structure Walkable (fs : FileSystem) : Prop where
  root : ∃ root, fs.rootDir = some root ∧ (fs.inodes root).valid = true
  parents : ∀ slot dir, (fs.inodes slot).valid = true → (fs.inodes slot).parent = some dir →
    (fs.inodes dir).valid = true
  lists : ∀ dir, IsDir fs dir → ∃ children, ChildList fs dir children ∧
    ∀ slot ∈ children, (fs.inodes slot).valid = true

theorem TreeShaped.walkable (tree : TreeShaped fs) : Walkable fs where
  root := by
    obtain ⟨root, rootDir, isDir, -⟩ := tree.root
    exact ⟨root, rootDir, isDir.1⟩
  parents := fun _ _ valid parent => (tree.parent_dir valid parent).1
  lists := by
    intro dir isDir
    obtain ⟨children, list, members⟩ := tree.listed dir isDir
    exact ⟨children, list, fun slot member => ((members slot).mp member).1⟩

section

variable (walkable : Walkable fs)

include walkable

theorem Walkable.find_valid (dir : Slot) (name : List UInt8)
    (valid : (fs.inodes dir).valid = true) :
    ∃ found, fsFindInodeInDir fs (some dir) name = .ok found ∧
      ∀ slot, found = some slot → (fs.inodes slot).valid = true := by
  by_cases isDir : (fs.inodes dir).type = typeDir
  · obtain ⟨children, list, members⟩ := walkable.lists dir ⟨valid, isDir⟩
    refine ⟨_, list.find isDir name, ?_⟩
    intro slot found
    exact members slot (List.mem_of_find?_eq_some found)
  · exact ⟨none, by simp [fsFindInodeInDir, isDir], by simp⟩

theorem Walkable.parentOrRoot_valid (node : Slot) (valid : (fs.inodes node).valid = true) :
    ∃ above, parentOrRoot fs (some node) = .ok (some above) ∧ (fs.inodes above).valid = true := by
  cases parent : (fs.inodes node).parent with
  | none =>
    obtain ⟨root, rootDir, rootValid⟩ := walkable.root
    exact ⟨root, by simp [parentOrRoot, parent, rootDir], rootValid⟩
  | some dir =>
    exact ⟨dir, by simp [parentOrRoot, parent], walkable.parents node dir valid parent⟩

theorem Walkable.walk_valid (node : Slot) (path : List (List UInt8))
    (valid : (fs.inodes node).valid = true) :
    ∃ found, walk fs (some node) path = .ok found ∧
      ∀ slot, found = some slot → (fs.inodes slot).valid = true := by
  induction path generalizing node with
  | nil =>
    refine ⟨some node, rfl, ?_⟩
    rintro slot ⟨⟩
    exact valid
  | cons component rest ih =>
    simp only [walk]
    split
    · exact ih node valid
    · split
      · obtain ⟨above, found, valid'⟩ := walkable.parentOrRoot_valid node valid
        rw [found]
        exact ih above valid'
      · obtain ⟨found, search, valid'⟩ := walkable.find_valid node component valid
        rw [search]
        cases found with
        | none => exact ⟨none, rfl, by simp⟩
        | some child => exact ih child (valid' child rfl)

theorem Walkable.resolve_valid (currentDir : fs.currentDir = some dir)
    (valid : (fs.inodes dir).valid = true) (path : Option CString) :
    ∃ found, fsResolvePath fs path = .ok found ∧
      ∀ slot, found = some slot → (fs.inodes slot).valid = true := by
  obtain ⟨root, rootDir, rootValid⟩ := walkable.root
  have here : ∃ found, (.ok (some dir) : Except Fault (Option Slot)) = .ok found ∧
      ∀ slot, found = some slot → (fs.inodes slot).valid = true :=
    ⟨some dir, rfl, by rintro slot ⟨⟩; exact valid⟩
  unfold fsResolvePath
  rw [CurrentOk.getCurrentDir currentDir, rootDir]
  cases path with
  | none => exact here
  | some path =>
    simp only
    split
    · exact here
    · split
      · split
        · exact ⟨some root, rfl, by rintro slot ⟨⟩; exact rootValid⟩
        · exact walkable.walk_valid root _ rootValid
      · split
        · exact here
        · split
          · obtain ⟨above, found, valid'⟩ := walkable.parentOrRoot_valid dir valid
            exact ⟨some above, found, by rintro slot ⟨⟩; exact valid'⟩
          · exact walkable.walk_valid dir _ valid

end

theorem TreeShaped.resolve_valid (tree : TreeShaped fs) (current : CurrentOk fs)
    (path : Option CString) : ∃ found, fsResolvePath fs path = .ok found ∧
      ∀ slot, found = some slot → (fs.inodes slot).valid = true := by
  obtain ⟨dir, currentDir, isDir⟩ := current
  exact tree.walkable.resolve_valid currentDir isDir.1 path

end ArgoOS.Fs
