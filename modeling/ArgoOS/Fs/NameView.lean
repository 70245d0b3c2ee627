import ArgoOS.Shared.NameTree
import ArgoOS.Fs.PathText
import ArgoOS.Fs.Removal

set_option autoImplicit false

/-! # The names in the inode table -/

namespace ArgoOS.Fs

abbrev Names := NameTree Slot (List UInt8)

def view (fs : FileSystem) : Names where
  entries node :=
    if (fs.inodes node).valid = true ∧ (fs.inodes node).type = typeDir then children fs node else []
  name node := (fs.inodes node).name.bytes
  above node :=
    if (fs.inodes node).valid = true then (fs.inodes node).parent.or fs.rootDir else none

structure Shows (fs : FileSystem) (t : Names) : Prop where
  entries : ∀ dir, IsDir fs dir → ChildList fs dir (t.entries dir)
  files : ∀ slot, (fs.inodes slot).valid = true → (fs.inodes slot).type ≠ typeDir →
    t.entries slot = []
  name : ∀ slot, (fs.inodes slot).valid = true → t.name slot = (fs.inodes slot).name.bytes
  above : ∀ slot, (fs.inodes slot).valid = true →
    t.above slot = (fs.inodes slot).parent.or fs.rootDir

def leads (fs : FileSystem) (t : Names) (path : CString) : Option Slot :=
  t.lookup dot dotDot (pathStart fs path) (components path.bytes [])

variable {fs after : FileSystem} {t : Names}

section

variable (tree : TreeShaped fs)

include tree

theorem TreeShaped.shows : Shows fs (view fs) where
  entries := by
    intro dir isDir
    simp only [view, if_pos (show _ ∧ _ from isDir)]
    exact (tree.children_list isDir).1
  files := fun slot _ isFile => if_neg (fun isDir => isFile isDir.2)
  name := fun _ _ => rfl
  above := fun _ valid => if_pos valid

variable (shows : Shows fs t)

include shows

theorem Shows.members {dir : Slot} (isDir : IsDir fs dir) (slot : Slot) :
    slot ∈ t.entries dir ↔ (fs.inodes slot).valid = true ∧ (fs.inodes slot).parent = some dir := by
  obtain ⟨list, isList, members⟩ := tree.listed dir isDir
  rw [(shows.entries dir isDir).unique isList]
  exact members slot

theorem Shows.find {node : Slot} (valid : (fs.inodes node).valid = true) (name : List UInt8) :
    fsFindInodeInDir fs (some node) name =
      .ok ((t.entries node).find? fun entry => t.name entry = name) := by
  by_cases isDir : (fs.inodes node).type = typeDir
  · rw [(shows.entries node ⟨valid, isDir⟩).find isDir name]
    refine congrArg Except.ok (List.find?_congr fun entry member => ?_)
    rw [shows.name entry ((shows.members tree ⟨valid, isDir⟩ entry).mp member).1, beq_eq_decide]
  · rw [shows.files node valid isDir]
    simp [fsFindInodeInDir, isDir]

theorem Shows.walk (path : List (List UInt8)) {node : Slot}
    (valid : (fs.inodes node).valid = true) :
    walk fs (some node) path = .ok (t.lookup dot dotDot (some node) path) := by
  induction path generalizing node with
  | nil => rfl
  | cons component rest ih =>
    rw [NameTree.lookup, Option.bind_some, NameTree.enter, Fs.walk]
    by_cases isDot : component = dot
    · rw [if_pos isDot, if_pos isDot]
      exact ih valid
    · rw [if_neg isDot, if_neg isDot]
      by_cases isDotDot : component = dotDot
      · obtain ⟨above, found, aboveValid⟩ := tree.walkable.parentOrRoot_valid node valid
        have same : t.above node = some above := (shows.above node valid).trans (Except.ok.inj found)
        rw [if_pos isDotDot, if_pos isDotDot, found, same]
        exact ih aboveValid
      · obtain ⟨found, search, foundValid⟩ := tree.walkable.find_valid node component valid
        rw [if_neg isDotDot, if_neg isDotDot, search,
          Except.ok.inj ((shows.find tree valid component).symm.trans search)]
        cases found with
        | none => rw [NameTree.lookup_none]
        | some child => exact ih (foundValid child rfl)

theorem Shows.resolve (current : CurrentOk fs) (path : CString) :
    fsResolvePath fs (some path) = .ok (leads fs t path) := by
  obtain ⟨dir, currentDir, isDir⟩ := current
  obtain ⟨root, rootDir, rootIsDir, -⟩ := tree.root
  rw [resolve_eq_walk, leads, pathStart, CurrentOk.getCurrentDir currentDir, rootDir]
  split
  · exact shows.walk tree _ rootIsDir.1
  · exact shows.walk tree _ isDir.1

end

section

variable (tree : TreeShaped fs) (shows : Shows fs t)

include tree shows

theorem Shows.congr (same : SameShape fs after)
    (names : ∀ slot, (fs.inodes slot).valid = true →
      (after.inodes slot).name = (fs.inodes slot).name) : Shows after t where
  entries := by
    intro dir isDir
    have before := (same.isDir dir).mp isDir
    refine (shows.entries dir before).congr (same.dir_data before) fun slot member => ?_
    exact (same.links slot ((shows.members tree before slot).mp member).1).2.2
  files := by
    intro slot valid notDir
    rw [same.valid] at valid
    rw [(same.links slot valid).1] at notDir
    exact shows.files slot valid notDir
  name := by
    intro slot valid
    rw [same.valid] at valid
    rw [names slot valid]
    exact shows.name slot valid
  above := by
    intro slot valid
    rw [same.valid] at valid
    rw [(same.links slot valid).2.1, same.rootDir]
    exact shows.above slot valid

theorem Shows.create {slot dir : Slot} {name : List UInt8} (isDir : IsDir fs dir)
    (free : (fs.inodes slot).valid = false)
    (creation : Creation fs slot name typeFile (some dir) after) :
    Shows after (t.insert dir slot (Name.strncpy name).bytes) := by
  have isNew := creation.new
  have apart : slot ≠ dir := by
    rintro rfl
    exact Bool.false_ne_true (free.symm.trans isDir.1)
  have validOld : ∀ other, other ≠ slot → (after.inodes other).valid = true →
      (fs.inodes other).valid = true := by
    intro other old valid
    rw [← (creation.others other old).1.2.2.2.1]
    exact valid
  have isOld : ∀ other, IsDir after other → other ≠ slot := by
    rintro other ⟨-, type⟩ rfl
    exact typeFile_ne_typeDir (isNew.2.1.symm.trans type)
  have unlisted : ∀ other, IsDir fs other → slot ∉ t.entries other := by
    intro other otherDir member
    have valid := ((shows.members tree otherDir slot).mp member).1
    exact Bool.false_ne_true (free.symm.trans valid)
  refine ⟨fun other otherDir => ?_, fun other valid notDir => ?_, fun other valid => ?_,
    fun other valid => ?_⟩
  · have old := isOld other otherDir
    have before : IsDir fs other :=
      ⟨validOld other old otherDir.1, (creation.others other old).1.2.1.symm.trans otherDir.2⟩
    by_cases here : other = dir
    · subst here
      rw [NameTree.insert_entries_dir]
      exact creation.childList_parent other old rfl isDir.2 (shows.entries other before)
        (unlisted other before)
    · rw [NameTree.insert_entries_other old here]
      exact creation.childList_other other old (.inl fun same => here (Option.some.inj same).symm)
        (shows.entries other before) (unlisted other before)
  · by_cases old : other = slot
    · rw [old, NameTree.insert_entries_new apart]
    · have kind := (creation.others other old).1.2.1
      have elsewhere : other ≠ dir := by
        rintro rfl
        exact notDir (kind.trans isDir.2)
      rw [NameTree.insert_entries_other old elsewhere]
      exact shows.files other (validOld other old valid) (fun type => notDir (kind.trans type))
  · by_cases old : other = slot
    · rw [old, NameTree.insert_name_new, isNew.1]
    · rw [NameTree.insert_name_old old, (creation.others other old).1.1]
      exact shows.name other (validOld other old valid)
  · by_cases old : other = slot
    · rw [old, NameTree.insert_above_new, isNew.2.2.2.2.2]
      rfl
    · rw [NameTree.insert_above_old old, (creation.others other old).2, creation.globals.1]
      exact shows.above other (validOld other old valid)

theorem Shows.remove {gone : Slot} (removed : Removed fs after gone)
    (rootDir : after.rootDir = fs.rootDir) : Shows after (t.remove gone) := by
  have kept : ∀ other, (after.inodes other).valid = true → other ≠ gone := by
    rintro other valid rfl
    exact Bool.false_ne_true (removed.gone.symm.trans valid)
  have before : ∀ other, (after.inodes other).valid = true → (fs.inodes other).valid = true := by
    intro other valid
    rw [← (removed.headers other (kept other valid)).1.2.2.2.1]
    exact valid
  refine ⟨fun dir isDir => ?_, fun slot valid notDir => ?_, fun slot valid => ?_, fun slot valid => ?_⟩
  · obtain ⟨header, -⟩ := removed.headers dir (kept dir isDir.1)
    have wasDir : IsDir fs dir := ⟨before dir isDir.1, header.2.1.symm.trans isDir.2⟩
    by_cases parent : (fs.inodes gone).parent = some dir
    · exact removed.siblings dir _ parent (shows.entries dir wasDir)
    · have unlisted : gone ∉ t.entries dir := fun member =>
        parent ((shows.members tree wasDir gone).mp member).2
      change ChildList after dir ((t.entries dir).erase gone)
      rw [List.erase_of_not_mem unlisted]
      exact removed.lists dir _ wasDir parent (shows.entries dir wasDir)
  · obtain ⟨header, -⟩ := removed.headers slot (kept slot valid)
    have empty := shows.files slot (before slot valid) (fun type => notDir (header.2.1.trans type))
    change (t.entries slot).erase gone = []
    rw [empty]
    rfl
  · rw [(removed.headers slot (kept slot valid)).1.1]
    exact shows.name slot (before slot valid)
  · rw [(removed.headers slot (kept slot valid)).2, rootDir]
    exact shows.above slot (before slot valid)

end

end ArgoOS.Fs
