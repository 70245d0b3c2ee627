import ArgoOS.Fs.Boots
import ArgoOS.Fs.Paths

set_option autoImplicit false

/-! # Names in a directory -/

namespace ArgoOS.Fs

open List

def names (fs : FileSystem) (children : List Slot) : List Name :=
  children.map (fun child => (fs.inodes child).name)

def NamesDistinct (fs : FileSystem) : Prop :=
  ∀ dir children, IsDir fs dir → ChildList fs dir children → (names fs children).Nodup

-- The slots of removed directories count too: `current_dir` may still point to one.
structure DirOk (fs : FileSystem) (dir : Slot) (children : List Slot) : Prop where
  list : ChildList fs dir children
  members : ∀ child ∈ children,
    (fs.inodes child).valid = true ∧ (fs.inodes child).parent = some dir
  distinct : (names fs children).Nodup

structure NamesOk (fs : FileSystem) : Prop where
  dirs : ∀ dir, (fs.inodes dir).type = typeDir → ∃ children, DirOk fs dir children
  others : ∀ slot first, (fs.inodes slot).type ≠ typeDir → (fs.inodes slot).data ≠ .child first

variable {fs : FileSystem} {slot : Slot} {unlinked : FileSystem}

theorem NamesOk.namesDistinct (ok : NamesOk fs) : NamesDistinct fs := by
  intro dir children isDir list
  obtain ⟨others, dirOk⟩ := ok.dirs dir isDir.2
  rw [list.unique dirOk.list]
  exact dirOk.distinct

variable {dir : Slot} {children : List Slot}

theorem DirOk.keep {after : FileSystem} (ok : DirOk fs dir children)
    (list : ChildList after dir children)
    (kept : ∀ child ∈ children, (after.inodes child).valid = (fs.inodes child).valid ∧
      (after.inodes child).name = (fs.inodes child).name ∧
      (after.inodes child).parent = (fs.inodes child).parent) : DirOk after dir children where
  list := list
  members := by
    intro child member
    obtain ⟨valid, -, parent⟩ := kept child member
    rw [valid, parent]
    exact ok.members child member
  distinct := by
    have same : names after children = names fs children :=
      map_congr_left (fun child member => (kept child member).2.1)
    rw [same]
    exact ok.distinct

section

variable {after : FileSystem} (ok : NamesOk fs)

include ok

theorem NamesOk.of_inodes (same : after.inodes = fs.inodes) : NamesOk after where
  dirs := by
    intro dir isDir
    rw [same] at isDir
    obtain ⟨children, dirOk⟩ := ok.dirs dir isDir
    exact ⟨children, dirOk.keep (dirOk.list.congr (by rw [same]) (fun _ _ => by rw [same]))
      (fun _ _ => by rw [same]; exact ⟨rfl, rfl, rfl⟩)⟩
  others := by
    rw [same]
    exact ok.others

theorem FileStep.namesOk (step : FileStep fs after) : NamesOk after where
  dirs := by
    intro dir isDir
    have same : ∀ slot, (after.inodes slot).valid = (fs.inodes slot).valid ∧
        (after.inodes slot).name = (fs.inodes slot).name ∧
        (after.inodes slot).parent = (fs.inodes slot).parent ∧
        (after.inodes slot).next = (fs.inodes slot).next := by
      intro slot
      obtain same | ⟨-, bytes, size, -, written⟩ := step.inodes slot
      · rw [same]
        exact ⟨rfl, rfl, rfl, rfl⟩
      · rw [written]
        exact ⟨rfl, rfl, rfl, rfl⟩
    obtain here | ⟨isFile, bytes, size, -, written⟩ := step.inodes dir
    · rw [here] at isDir
      obtain ⟨children, dirOk⟩ := ok.dirs dir isDir
      refine ⟨children, dirOk.keep (dirOk.list.congr (by rw [here]) ?_) ?_⟩
      · exact fun child _ => (same child).2.2.2
      · exact fun child _ => ⟨(same child).1, (same child).2.1, (same child).2.2.1⟩
    · rw [written] at isDir
      exact absurd (isFile.symm.trans isDir) typeFile_ne_typeDir
  others := by
    intro slot first notDir
    obtain same | ⟨-, bytes, size, -, written⟩ := step.inodes slot
    · rw [same] at notDir ⊢
      exact ok.others slot first notDir
    · rw [written]
      exact nofun

theorem NamesOk.failedCreation (free : fs.freeSlot = some slot) (node : Inode)
    (isFile : node.type = typeFile) (empty : node.data = .null) :
    NamesOk (takeInode fs slot node) where
  dirs := by
    intro dir isDir
    have different : dir ≠ slot := by
      rintro rfl
      rw [takeInode_self, isFile] at isDir
      exact typeFile_ne_typeDir isDir
    rw [takeInode_other _ _ _ _ different] at isDir
    obtain ⟨children, dirOk⟩ := ok.dirs dir isDir
    have kept : ∀ child ∈ children, (takeInode fs slot node).inodes child = fs.inodes child := by
      intro child member
      refine takeInode_other _ _ _ _ ?_
      rintro rfl
      have valid := (dirOk.members child member).1
      rw [fs.freeSlot_invalid free] at valid
      contradiction
    refine ⟨children, dirOk.keep (dirOk.list.congr ?_ ?_) ?_⟩
    · rw [takeInode_other _ _ _ _ different]
    · intro child member
      rw [kept child member]
    · intro child member
      rw [kept child member]
      exact ⟨rfl, rfl, rfl⟩
  others := by
    intro other first notDir
    by_cases same : other = slot
    · rw [same, takeInode_self, empty]
      exact nofun
    · rw [takeInode_other _ _ _ _ same] at notDir ⊢
      exact ok.others other first notDir

section

variable {name : List UInt8} {type : UInt32} {parent : Option Slot}
  (creation : Creation fs slot name type parent after)

include creation

omit ok in
theorem Creation.dirOk_new (isDir : type = typeDir) :
    DirOk after slot (if parent = some slot then [slot] else []) := by
  obtain ⟨-, -, -, valid, -, sameParent⟩ := creation.new
  refine ⟨creation.childList_new isDir, ?_, ?_⟩
  · intro child member
    split at member
    · next own =>
      cases mem_singleton.mp member
      exact ⟨valid, sameParent.trans own⟩
    · contradiction
  · split
    · exact nodup_singleton _
    · exact nodup_nil

omit ok in
theorem Creation.dirOk_old (different : dir ≠ slot) (wasDir : (fs.inodes dir).type = typeDir)
    (dirOk : DirOk fs dir children) (outside : slot ∉ children)
    (newName : fsFindInodeInDir fs parent (Name.strncpy name).bytes = .ok none) :
    ∃ children, DirOk after dir children := by
  have kept : ∀ child ∈ children, (after.inodes child).valid = (fs.inodes child).valid ∧
      (after.inodes child).name = (fs.inodes child).name ∧
      (after.inodes child).parent = (fs.inodes child).parent := by
    intro child member
    obtain ⟨⟨childName, -, -, childValid, -⟩, childParent⟩ :=
      creation.others child (fun same => outside (same ▸ member))
    exact ⟨childValid, childName, childParent⟩
  by_cases here : parent = some dir
  · obtain ⟨sameName, -, -, valid, -, sameParent⟩ := creation.new
    -- The lookup in the directory found no child with the new name.
    have fresh : Name.strncpy name ∉ names fs children := by
      intro member
      obtain ⟨child, inside, same⟩ := mem_map.mp member
      rw [here, dirOk.list.find wasDir] at newName
      have missing := List.find?_eq_none.mp (Except.ok.inj newName) child inside
      simp [same] at missing
    have sameNames : names after children = names fs children :=
      map_congr_left (fun child member => (kept child member).2.1)
    refine ⟨slot :: children,
      creation.childList_parent dir different here wasDir dirOk.list outside, ?_, ?_⟩
    · intro child member
      obtain rfl | inside := mem_cons.mp member
      · exact ⟨valid, sameParent.trans here⟩
      · obtain ⟨childValid, -, childParent⟩ := kept child inside
        rw [childValid, childParent]
        exact dirOk.members child inside
    · change ((after.inodes slot).name :: names after children).Nodup
      rw [sameName, sameNames]
      exact nodup_cons.mpr ⟨fresh, dirOk.distinct⟩
  · exact ⟨children, dirOk.keep
      (creation.childList_other dir different (.inl here) dirOk.list outside) kept⟩

theorem Creation.namesOk (free : fs.freeSlot = some slot)
    (newName : fsFindInodeInDir fs parent (Name.strncpy name).bytes = .ok none) :
    NamesOk after where
  dirs := by
    intro dir isDir
    by_cases self : dir = slot
    · subst self
      exact ⟨_, creation.dirOk_new (creation.new.2.1.symm.trans isDir)⟩
    · have wasDir : (fs.inodes dir).type = typeDir :=
        (creation.others dir self).1.2.1.symm.trans isDir
      obtain ⟨children, dirOk⟩ := ok.dirs dir wasDir
      refine creation.dirOk_old self wasDir dirOk ?_ newName
      intro member
      have wasValid := (dirOk.members slot member).1
      rw [fs.freeSlot_invalid free] at wasValid
      contradiction
  others := by
    intro other first notDir
    by_cases same : other = slot
    · subst same
      rw [creation.data_new (creation.new.2.1 ▸ notDir), newData]
      split
      · exact nofun
      · exact nofun
    · have sameType := (creation.others other same).1.2.1
      rw [sameType] at notDir
      rw [creation.data_other other same (.inr notDir)]
      exact ok.others other first notDir

end

omit ok in
theorem unlinkChild_absent {slot : Slot} (list : ChildList fs dir children)
    (absent : slot ∉ children) : unlinkChild fs dir slot = .ok fs := by
  have short := list.length_le
  obtain ⟨first, head, chain⟩ := list
  have notFirst : first ≠ some slot := by
    rintro rfl
    cases children with
    | nil => cases chain
    | cons child children =>
      cases Option.some.inj chain.1
      exact absent (by simp)
  have notLinked : children.find? (fun child => (fs.inodes child).next == some slot) = none := by
    rw [List.find?_eq_none]
    intro child member link
    exact absent (Linked.chain_next_mem _ chain member (by simpa using link))
  simp only [unlinkChild, head, if_neg notFirst, Linked.search_chain _ chain short, notLinked]

theorem NamesOk.invalidate
    (absent : ∀ dir children, (fs.inodes dir).type = typeDir → DirOk fs dir children →
      slot ∉ children) : NamesOk (invalidate fs slot) where
  dirs := by
    intro dir isDir
    rw [invalidate_fields] at isDir
    obtain ⟨children, dirOk⟩ := ok.dirs dir isDir
    refine ⟨children, dirOk.keep (dirOk.list.congr ?_ ?_) ?_⟩
    · rw [invalidate_fields]
    · intro child _
      rw [invalidate_fields]
    · intro child member
      have different : child ≠ slot := fun same => absent dir children isDir dirOk (same ▸ member)
      rw [invalidate_fields]
      simp [different]
  others := by
    intro other first notDir
    rw [invalidate_fields] at notDir ⊢
    exact ok.others other first notDir

theorem NamesOk.unlink {parent : Slot} {siblings : List Slot}
    (isDir : (fs.inodes parent).type = typeDir) (parentOk : DirOk fs parent siblings)
    (listed : slot ∈ siblings) (done : unlinkChild fs parent slot = .ok unlinked) :
    NamesOk unlinked ∧
      ∀ dir children, DirOk unlinked dir children → slot ∈ children → dir ≠ parent := by
  obtain ⟨after, same, effect⟩ := unlinkChild_effect parentOk.list listed
  rw [done] at same
  cases same
  have links := unlinkChild_linksOnly done
  have kept : ∀ child, (unlinked.inodes child).valid = (fs.inodes child).valid ∧
      (unlinked.inodes child).name = (fs.inodes child).name ∧
      (unlinked.inodes child).parent = (fs.inodes child).parent :=
    fun child => ⟨(effect.fields child).1, (links.header child).1, (effect.fields child).2.2⟩
  refine ⟨⟨?_, ?_⟩, ?_⟩
  · intro dir dirType
    rw [(effect.fields dir).2.1] at dirType
    by_cases here : dir = parent
    · subst here
      refine ⟨siblings.erase slot, effect.list, ?_, ?_⟩
      · intro child member
        rw [(kept child).1, (kept child).2.2]
        exact parentOk.members child (mem_of_mem_erase member)
      · have same : names unlinked (siblings.erase slot) = names fs (siblings.erase slot) :=
          map_congr_left (fun child _ => (kept child).2.1)
        rw [same]
        exact parentOk.distinct.sublist (List.erase_sublist.map _)
    · obtain ⟨children, dirOk⟩ := ok.dirs dir dirType
      refine ⟨children, dirOk.keep (dirOk.list.congr (effect.data dir here) ?_)
        (fun child _ => kept child)⟩
      intro child member
      apply effect.links
      intro sibling
      have one := (dirOk.members child member).2
      rw [(parentOk.members child sibling).2] at one
      exact here (Option.some.inj one).symm
  · intro other first notDir
    rw [(effect.fields other).2.1] at notDir
    have different : other ≠ parent := by
      rintro rfl
      exact notDir isDir
    rw [effect.data other different]
    exact ok.others other first notDir
  · rintro dir children dirOk member rfl
    rw [dirOk.list.unique effect.list] at member
    exact parentOk.list.nodup.not_mem_erase member

theorem unlinkChild_file {parent : Slot} (notDir : (fs.inodes parent).type ≠ typeDir)
    (done : unlinkChild fs parent slot = .ok unlinked) : unlinked = fs := by
  obtain ⟨first, head, outcome⟩ := unlinkChild_cases done
  have nothing : first = none := by
    cases data : (fs.inodes parent).data with
    | null =>
      rw [data] at head
      exact (Except.ok.inj head).symm
    | child other => exact absurd data (ok.others parent other notDir)
    | buffer bytes =>
      rw [data] at head
      contradiction
  subst nothing
  obtain ⟨impossible, -⟩ | ⟨-, -, rfl⟩ | ⟨other, -, found, -⟩ := outcome
  · contradiction
  · rfl
  · simp [Linked.search] at found

theorem removal_namesOk (unlinking : ((fs.inodes slot).parent = none ∧ unlinked = fs) ∨
      ∃ parent, (fs.inodes slot).parent = some parent ∧
        unlinkChild fs parent slot = .ok unlinked) : NamesOk (invalidate unlinked slot) := by
  obtain ⟨orphan, rfl⟩ | ⟨parent, child, done⟩ := unlinking
  · refine ok.invalidate ?_
    intro dir children _ dirOk member
    rw [(dirOk.members slot member).2] at orphan
    contradiction
  · have sameParent : (unlinked.inodes slot).parent = some parent := by
      obtain ⟨first, -, ⟨-, rfl⟩ | ⟨-, -, rfl⟩ | ⟨other, -, -, rfl⟩⟩ := unlinkChild_cases done
      · rw [FileSystem.setData_inodes]
        exact child
      · exact child
      · rw [FileSystem.setNext_inodes]
        exact child
    have onlyHere : ∀ dir children, DirOk unlinked dir children → slot ∈ children →
        dir = parent := by
      intro dir children dirOk member
      exact Option.some.inj ((dirOk.members slot member).2.symm.trans sameParent)
    by_cases isDir : (fs.inodes parent).type = typeDir
    · obtain ⟨siblings, parentOk⟩ := ok.dirs parent isDir
      by_cases listed : slot ∈ siblings
      · obtain ⟨unlinkedOk, gone⟩ := ok.unlink isDir parentOk listed done
        refine unlinkedOk.invalidate ?_
        intro dir children _ dirOk member
        exact gone dir children dirOk member (onlyHere dir children dirOk member)
      · rw [unlinkChild_absent parentOk.list listed] at done
        cases done
        refine ok.invalidate ?_
        intro dir children _ dirOk member
        cases onlyHere dir children dirOk member
        rw [dirOk.list.unique parentOk.list] at member
        exact listed member
    · -- The slot of the parent was taken by a file.
      cases unlinkChild_file ok isDir done
      refine ok.invalidate ?_
      intro dir children dirType dirOk member
      cases onlyHere dir children dirOk member
      exact isDir dirType

theorem fsCreateInode_namesOk {name : List UInt8} {type : UInt32} {parent node : Option Slot}
    {memory : Bool} (returned : fsCreateInode fs name type parent memory = .ok (after, node))
    (newName : node ≠ none →
      fsFindInodeInDir fs parent (Name.strncpy name).bytes = .ok none) : NamesOk after := by
  obtain ⟨-, -, rfl⟩ | ⟨slot, free, -, -, isFile, rfl⟩ | ⟨slot, free, rfl, -, creation⟩ :=
    fsCreateInode_cases returned
  · exact ok
  · exact ok.failedCreation free _ isFile rfl
  · exact creation.namesOk ok free (newName nofun)

end

/-- The name that a call enters into the current directory is not there yet, as it is stored. -/
def EntersNewName (fs : FileSystem) : Operation → Prop
  | .fsOpen (some path) mode memory =>
    (Operation.fsOpen (some path) mode memory).Creates fs →
      fsFindInodeInDir fs fs.getCurrentDir (Name.strncpy (baseName path)).bytes = .ok none
  | .fsMkdir (some path) => (Operation.fsMkdir (some path)).Creates fs →
      fsFindInodeInDir fs fs.getCurrentDir (Name.strncpy (baseName path)).bytes = .ok none
  | _ => True

theorem operation_namesOk {after : FileSystem} {operation : Operation} {result : Int}
    (ok : NamesOk fs) (met : EntersNewName fs operation)
    (returned : operation.apply fs = .ok (after, result)) : NamesOk after := by
  cases operation_effect returned with
  | pointers same => exact ok.of_inodes (by rw [same])
  | onFile step => exact step.namesOk ok
  | create path type memory found node source creates made same =>
    refine (fsCreateInode_namesOk ok made ?_).of_inodes (by rw [same])
    intro created
    obtain ⟨mode, rfl⟩ | rfl := source
    · exact met (creates created)
    · exact met (creates created)
  | remove slot unlinked removed unlinking =>
    rw [removed]
    exact removal_namesOk ok unlinking

theorem freshFs_namesOk : NamesOk freshFs := by
  have empty : NamesOk (clearTables bootState) :=
    ⟨fun _ isDir => absurd isDir (show (0 : UInt32) ≠ typeDir by decide), fun _ _ _ => nofun⟩
  unfold freshFs createRoot
  split
  · next fs created =>
    split at created
    · contradiction
    · next made =>
      cases created
      exact (fsCreateInode_namesOk empty made (fun _ => rfl)).of_inodes rfl
  · exact empty.of_inodes rfl

theorem names_distinct_in_runs {io : LoadIo} {disk : Disk} {start fs : FileSystem}
    {history : List Empty} (blank : (Superblock.load disk).magic ≠ fsMagic)
    (booted : fsInit io disk bootState = .ok start)
    (run : Stepper.Run fsStep EntersNewName start history fs) : NamesDistinct fs := by
  rw [fsInit_fresh io disk blank] at booted
  cases booted
  have ok : NamesOk fs := by
    refine run.invariant (fun _ => NamesOk) freshFs_namesOk ?_
    intro _ before after operation _ held met taken
    obtain ⟨result, returned⟩ := fsStep_returned taken
    exact operation_namesOk held met returned
  exact ok.namesDistinct

instance (fs : FileSystem) : (operation : Operation) → Decidable (EntersNewName fs operation)
  | .fsOpen (some _) _ _ => inferInstanceAs (Decidable (_ → _))
  | .fsMkdir (some _) => inferInstanceAs (Decidable (_ → _))
  | .fsOpen none _ _ | .fsMkdir none | .fsClose _ | .fsRead _ _ _ | .fsWrite _ _ _
  | .fsSeek _ _ _ | .setCurrentDir _ | .fsRemove _ => .isTrue trivial

theorem names_distinct_in_runs_two : ∃ history fs,
    Stepper.Run fsStep EntersNewName freshFs history fs ∧ (fs.inodes 2).valid = true ∧
    NamesDistinct fs := by
  obtain ⟨history, fs, run, made⟩ := Stepper.Run.exists_of_actions fsStep EntersNewName freshFs
    [.fsMkdir (some ⟨[97], by decide⟩), .fsOpen (some ⟨[98], by decide⟩) modeWrite true]
    (fun _ fs => (fs.inodes 2).valid) (by decide +kernel)
  have blank : (Superblock.load (fun _ => 0)).magic ≠ fsMagic := by decide +kernel
  exact ⟨history, fs, run, made,
    names_distinct_in_runs blank (fsInit_fresh .success (fun _ => 0) blank) run⟩

-- `x/a` does not resolve while there is no `x`, so the root gets a second `a`.
theorem name_repeats : ∃ history fs, fsInit .success (fun _ => 0) bootState = .ok freshFs ∧
    Stepper.Run fsStep (fun _ _ => True) freshFs history fs ∧ ¬NamesDistinct fs := by
  have booted := fsInit_fresh .success (fun _ => 0) (by decide +kernel)
  obtain ⟨history, fs, run, checked⟩ := Stepper.Run.exists_of_actions fsStep (fun _ _ => True)
    freshFs
    [.fsOpen (some ⟨[97], by decide⟩) modeWrite true,
      .fsOpen (some ⟨[120, 47, 97], by decide⟩) modeWrite true]
    (fun _ fs => (fs.inodes 0).valid && decide ((fs.inodes 0).type = typeDir) &&
      decide ((fs.inodes 0).data.firstChild = .ok (some 2)) &&
      decide ((fs.inodes 2).next = some 1) && decide ((fs.inodes 1).next = none) &&
      decide ((fs.inodes 2).name = (fs.inodes 1).name)) (by decide +kernel)
  simp only [Bool.and_eq_true, decide_eq_true_eq] at checked
  obtain ⟨⟨⟨⟨⟨valid, isDir⟩, head⟩, second⟩, last⟩, same⟩ := checked
  refine ⟨history, fs, booted, run, ?_⟩
  intro distinct
  have list : ChildList fs 0 [2, 1] := ⟨some 2, head, rfl, second, last⟩
  have nodup := distinct 0 [2, 1] ⟨valid, isDir⟩ list
  simp [names, same] at nodup

end ArgoOS.Fs
