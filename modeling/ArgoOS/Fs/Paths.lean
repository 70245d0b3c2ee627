import Mathlib
import ArgoOS.Shared.Run
import ArgoOS.Fs.Effects

set_option autoImplicit false

/-! # Paths and the current directory -/

namespace ArgoOS.Fs

open Option

def fsStep (fs : FileSystem) (operation : Operation) : Option (FileSystem × List Empty) :=
  match operation.apply fs with
  | .ok (after, _) => some (after, [])
  | .error _ => none

variable {fs after : FileSystem} {start : FileSystem} {history : List Empty}

theorem fsStep_returned {operation : Operation} {events : List Empty}
    (taken : fsStep fs operation = some (after, events)) :
    ∃ result, operation.apply fs = .ok (after, result) := by
  unfold fsStep at taken
  split at taken
  · next found result applied =>
    cases taken
    exact ⟨result, applied⟩
  · contradiction

theorem fsInit_current {io : LoadIo} {disk : Disk} (booted : fsInit io disk bootState = .ok start) :
    start.initialized = true ∧ start.currentDir = start.rootDir := by
  obtain ⟨loaded, result, load, ended⟩ := fsInit_cases rfl booted
  have created : ∀ fs, createRoot fs = .ok start →
      start.initialized = true ∧ start.currentDir = start.rootDir := by
    intro fs made
    unfold createRoot at made
    split at made
    · contradiction
    · cases made
      exact ⟨rfl, rfl⟩
  obtain ⟨zero, rfl⟩ | ⟨-, made⟩ := ended
  · refine ⟨rfl, ?_⟩
    obtain ⟨rfl, rfl⟩ | ⟨has, first, done, filled, outcome⟩ := fsLoad_cases load
    · exact absurd zero (by decide)
    · obtain ⟨-, -, failed⟩ | ⟨rfl, linked, -⟩ := outcome
      · rw [failed] at zero
        exact absurd zero (by decide)
      · have room := has.room
        have empty : ∀ slot, ((clearTables bootState).inodes slot).valid = false := fun _ => rfl
        obtain ⟨items, -, -, -, complete⟩ := loadInodes_loaded empty (.refl _) room filled
        obtain ⟨-, roots⟩ := complete rfl
        have links := linkInodes_linksOnly linked
        change loaded.currentDir = loaded.rootDir
        rw [links.currentDir, links.rootDir, roots.1, roots.2]
        rfl
  · exact created loaded made

section

inductive Listed (fs : FileSystem) : Slot → Prop where
  | root (slot : Slot) (isRoot : fs.rootDir = some slot) : Listed fs slot
  | child (slot dir : Slot) (children : List Slot) (above : Listed fs dir)
      (list : ChildList fs dir children) (member : slot ∈ children) : Listed fs slot

def CurrentSound (fs : FileSystem) : Prop :=
  ∃ dir, fs.currentDir = some dir ∧ IsDir fs dir ∧ Listed fs dir

theorem TreeShaped.isListed (tree : TreeShaped fs) {slot : Slot}
    (valid : (fs.inodes slot).valid = true) : Listed fs slot := by
  induction tree.rooted slot valid with
  | root slot isRoot => exact .root slot isRoot
  | child slot dir parent _ ih =>
    have isDir := tree.parent_dir valid parent
    obtain ⟨children, list, members⟩ := tree.listed dir isDir
    exact .child slot dir children (ih isDir.1) list ((members slot).mpr ⟨valid, parent⟩)

def Operation.RemovesCurrent (fs : FileSystem) : Operation → Prop
  | .fsRemove path => fsResolvePath fs path = .ok fs.currentDir ∧ fs.currentDir ≠ fs.rootDir ∧
      ∀ dir ∈ fs.currentDir, (fs.inodes dir).data.isNull = true
  | _ => False

instance (fs : FileSystem) : (operation : Operation) → Decidable (operation.RemovesCurrent fs)
  | .fsRemove _ => inferInstanceAs (Decidable (_ ∧ _ ∧ _))
  | .fsOpen _ _ _ | .fsMkdir _ | .fsClose _ | .fsRead _ _ _ | .fsWrite _ _ _ | .fsSeek _ _ _
  | .setCurrentDir _ => .isFalse id

def KeepsCurrent (fs : FileSystem) (operation : Operation) : Prop :=
  ¬operation.RemovesCurrent fs

instance (fs : FileSystem) (operation : Operation) : Decidable (KeepsCurrent fs operation) :=
  inferInstanceAs (Decidable (¬_))

theorem FileStep.sameShape (step : FileStep fs after) : SameShape fs after where
  rootDir := step.rootDir
  valid := by
    intro slot
    obtain same | ⟨-, bytes, size, -, written⟩ := step.inodes slot
    · rw [same]
    · rw [written]
  links := by
    intro slot _
    obtain same | ⟨-, bytes, size, -, written⟩ := step.inodes slot
    · rw [same]
      exact ⟨rfl, rfl, rfl⟩
    · rw [written]
      exact ⟨rfl, rfl, rfl⟩
  data := by
    intro slot _
    obtain same | ⟨isFile, bytes, size, -, written⟩ := step.inodes slot
    · exact .inl (by rw [same])
    · exact .inr ⟨isFile, bytes, by rw [written]⟩

theorem KeepsTree.of_returned {α : Type} {call : Except Fault (FileSystem × α)} {result : α}
    (returned : call = .ok (after, result))
    (keeps : ∃ after result, call = .ok (after, result) ∧ KeepsTree after) : KeepsTree after := by
  obtain ⟨other, _, same, kept⟩ := keeps
  rw [returned] at same
  cases same
  exact kept

theorem operation_tree {operation : Operation} {result : Int} (tree : TreeShaped fs)
    (current : CurrentOk fs) (keeps : KeepsCurrent fs operation)
    (returned : operation.apply fs = .ok (after, result)) : KeepsTree after := by
  have onFile : operation.onFile = true → KeepsTree after := by
    intro file
    have step := Operation.onFile_fileStep file returned
    exact KeepsTree.same tree current step.sameShape step.currentDir
  cases operation with
  | fsOpen path mode memory => exact .of_returned returned (open_keeps tree current path mode memory)
  | fsMkdir path => exact .of_returned returned (mkdir_keeps tree current path)
  | setCurrentDir path => exact .of_returned returned (setCurrentDir_keeps tree current path)
  | fsRemove path =>
    by_cases here : fsResolvePath fs path = .ok fs.currentDir
    · -- The current directory is the root or has children, so the removal is refused.
      obtain ⟨rfl, -⟩ | ⟨slot, unlinked, resolved, notRoot, -, empty, -, -⟩ :=
        fsRemove_cases returned
      · exact ⟨tree, current⟩
      · rw [here] at resolved
        have currentDir : fs.currentDir = some slot := Except.ok.inj resolved
        obtain ⟨dir, currentDir', isDir⟩ := current
        cases some.inj (currentDir.symm.trans currentDir')
        refine absurd ⟨here, ?_, ?_⟩ keeps
        · rw [currentDir]
          exact Ne.symm notRoot
        · rw [currentDir]
          rintro dir ⟨⟩
          by_contra filled
          exact empty ⟨isDir.2, Bool.eq_false_of_not_eq_true filled⟩
    · exact .of_returned returned (remove_keeps tree current here)
  | fsClose _ => exact onFile rfl
  | fsRead _ _ _ => exact onFile rfl
  | fsWrite _ _ _ => exact onFile rfl
  | fsSeek _ _ _ => exact onFile rfl

theorem run_tree (tree : TreeShaped start) (current : CurrentOk start)
    (run : Stepper.Run fsStep KeepsCurrent start history fs) : KeepsTree fs := by
  refine run.invariant (fun _ => KeepsTree) ⟨tree, current⟩ ?_
  intro _ before after operation _ held met taken
  obtain ⟨result, returned⟩ := fsStep_returned taken
  exact operation_tree held.1 held.2 met returned

theorem fsInit_currentOk {io : LoadIo} {disk : Disk} (booted : fsInit io disk bootState = .ok start)
    (tree : TreeShaped start) : CurrentOk start := by
  obtain ⟨root, rootDir, isDir, -⟩ := tree.root
  exact ⟨root, (fsInit_current booted).2.trans rootDir, isDir⟩

theorem freshFs_keeps (run : Stepper.Run fsStep KeepsCurrent freshFs history fs) :
    KeepsTree fs := by
  have booted := fsInit_fresh .success (fun _ => 0) (by decide +kernel)
  exact run_tree freshFs_tree (fsInit_currentOk booted freshFs_tree) run

theorem current_sound_in_runs {io : LoadIo} {disk : Disk} {start fs : FileSystem}
    {history : List Empty} (booted : fsInit io disk bootState = .ok start)
    (tree : TreeShaped start) (run : Stepper.Run fsStep KeepsCurrent start history fs) :
    CurrentSound fs := by
  obtain ⟨final, dir, currentDir, isDir⟩ := run_tree tree (fsInit_currentOk booted tree) run
  exact ⟨dir, currentDir, isDir, final.isListed isDir.1⟩

theorem current_sound_in_runs_cd : ∃ history fs,
    fsInit .success (fun _ => 0) bootState = .ok freshFs ∧
    Stepper.Run fsStep KeepsCurrent freshFs history fs ∧ fs.currentDir = some 1 ∧
    CurrentSound fs := by
  have booted := fsInit_fresh .success (fun _ => 0) (by decide +kernel)
  obtain ⟨history, fs, run, moved⟩ := Stepper.Run.exists_of_actions fsStep KeepsCurrent freshFs
    [.fsMkdir (some ⟨[100], by decide⟩), .setCurrentDir (some ⟨[100], by decide⟩)]
    (fun _ fs => fs.currentDir == some 1) (by decide +kernel)
  exact ⟨history, fs, booted, run, by simpa using moved,
    current_sound_in_runs booted freshFs_tree run⟩

theorem current_removed : ∃ history fs, fsInit .success (fun _ => 0) bootState = .ok freshFs ∧
    Stepper.Run fsStep (fun _ _ => True) freshFs history fs ∧ ¬CurrentSound fs := by
  have booted := fsInit_fresh .success (fun _ => 0) (by decide +kernel)
  obtain ⟨history, fs, run, removed⟩ := Stepper.Run.exists_of_actions fsStep (fun _ _ => True)
    freshFs
    [.fsMkdir (some ⟨[100], by decide⟩), .setCurrentDir (some ⟨[100], by decide⟩),
      .fsRemove (some ⟨[46], by decide⟩)]
    (fun _ fs => fs.currentDir == some 1 && !(fs.inodes 1).valid) (by decide +kernel)
  rw [Bool.and_eq_true, beq_iff_eq, Bool.not_eq_true'] at removed
  refine ⟨history, fs, booted, run, ?_⟩
  rintro ⟨dir, currentDir, isDir, -⟩
  rw [removed.1] at currentDir
  cases currentDir
  exact Bool.false_ne_true (removed.2.symm.trans isDir.1)

end

def pathStart (fs : FileSystem) (path : CString) : Option Slot :=
  if path.bytes.head? = some slash then fs.rootDir else fs.getCurrentDir

theorem resolve_eq_walk (fs : FileSystem) (path : CString) :
    fsResolvePath fs (some path) = walk fs (pathStart fs path) (components path.bytes []) := by
  obtain ⟨bytes, noNul⟩ := path
  simp only [fsResolvePath, pathStart]
  cases bytes with
  | nil => rfl
  | cons c rest =>
    simp only [List.head?_cons, some.injEq]
    by_cases absolute : c = slash
    · rw [if_pos absolute, if_pos absolute]
      have skipped : components (c :: rest) [] = components rest [] := by
        simp [components, absolute]
      rw [skipped]
      by_cases bare : rest = []
      · rw [if_pos bare, bare]
        rfl
      · rw [if_neg bare]
    · rw [if_neg absolute, if_neg absolute]
      by_cases isDot : c :: rest = dot
      · rw [if_pos isDot, isDot]
        rfl
      · rw [if_neg isDot]
        by_cases isDotDot : c :: rest = dotDot
        · rw [if_pos isDotDot, isDotDot]
          rw [show components dotDot [] = [dotDot] by decide, walk, if_neg (by decide), if_pos rfl]
          cases parentOrRoot fs fs.getCurrentDir <;> rfl
        · rw [if_neg isDotDot]

/-- A place on a path: an inode of the table or the entry that is about to be made. -/
inductive Place where
  | old (slot : Slot)
  | new
deriving DecidableEq

/--
Where a path leads once `dir` has a new entry `name` without entries of its own, told from
the table before. `none` is a component that is not found.
-/
def foresee (fs : FileSystem) (dir : Slot) (name : List UInt8) :
    Place → List (List UInt8) → Option Place
  | place, [] => some place
  | place, component :: rest =>
    if component = dot then foresee fs dir name place rest
    else if component = dotDot then
      match place with
      | .new => foresee fs dir name (.old dir) rest
      | .old node =>
        match parentOrRoot fs (some node) with
        | .ok (some above) => foresee fs dir name (.old above) rest
        | _ => none
    else
      match place with
      | .new => none
      | .old node =>
        if node = dir ∧ component = name then foresee fs dir name .new rest
        else
          match fsFindInodeInDir fs (some node) component with
          | .ok (some child) => foresee fs dir name (.old child) rest
          | _ => none

def Place.slot (new : Slot) : Place → Slot
  | .old node => node
  | .new => new

section

variable {dir slot : Slot} {name : List UInt8} {type : UInt32} (tree : TreeShaped fs)
  (isDir : IsDir fs dir) (free : (fs.inodes slot).valid = false)
  (creation : Creation fs slot name type (some dir) after)

include tree isDir free creation

theorem find_created {node : Slot} (valid : (fs.inodes node).valid = true)
    (component : List UInt8) : fsFindInodeInDir after (some node) component =
      if node = dir ∧ component = (Name.strncpy name).bytes then .ok (some slot)
      else fsFindInodeInDir fs (some node) component := by
  have different : ∀ other, (fs.inodes other).valid = true → other ≠ slot := by
    rintro other otherValid rfl
    rw [free] at otherValid
    contradiction
  obtain ⟨⟨-, sameType, -⟩, -⟩ := creation.others node (different node valid)
  by_cases nodeDir : (fs.inodes node).type = typeDir
  · obtain ⟨children, list, members⟩ := tree.listed node ⟨valid, nodeDir⟩
    have outside : slot ∉ children := fun member =>
      different slot ((members slot).mp member).1 rfl
    have names : ∀ child ∈ children, ((after.inodes child).name.bytes == component) =
        ((fs.inodes child).name.bytes == component) := by
      intro child member
      rw [(creation.others child (fun same => outside (same ▸ member))).1.1]
    have sameFind : children.find? (fun child => (after.inodes child).name.bytes == component) =
        children.find? (fun child => (fs.inodes child).name.bytes == component) :=
      List.find?_congr names
    rw [list.find nodeDir component]
    by_cases here : node = dir
    · subst here
      have pushed := creation.childList_parent node (different node valid) rfl nodeDir list outside
      rw [pushed.find (sameType.trans nodeDir) component, List.find?_cons, creation.new.1]
      by_cases named : component = (Name.strncpy name).bytes
      · simp [named]
      · have other : ((Name.strncpy name).bytes == component) = false := by
          simpa using Ne.symm named
        rw [other, sameFind, if_neg (fun both => named both.2)]
    · have kept := creation.childList_other node (different node valid)
        (.inl (fun same => here (some.inj same).symm)) list outside
      rw [kept.find (sameType.trans nodeDir) component, sameFind, if_neg (fun both => here both.1)]
  · have notHere : node ≠ dir := by
      rintro rfl
      exact nodeDir isDir.2
    rw [if_neg (fun both => notHere both.1)]
    simp only [fsFindInodeInDir, sameType, ne_eq, nodeDir, not_false_eq_true, if_true]

omit tree in
theorem find_in_new (component : List UInt8) :
    fsFindInodeInDir after (some slot) component = .ok none := by
  have newType := creation.new.2.1
  by_cases made : type = typeDir
  · have list := creation.childList_new made
    have notSelf : some dir ≠ some slot := by
      intro same
      cases some.inj same
      exact Bool.false_ne_true (free.symm.trans isDir.1)
    rw [if_neg notSelf] at list
    rw [list.find (newType.trans made) component]
    rfl
  · simp only [fsFindInodeInDir, newType, ne_eq, made, not_false_eq_true, if_true]

theorem walk_created (place : Place) (path : List (List UInt8))
    (valid : ∀ node, place = .old node → (fs.inodes node).valid = true) :
    walk after (some (place.slot slot)) path =
      .ok ((foresee fs dir (Name.strncpy name).bytes place path).map (Place.slot slot)) ∧
    ∀ node, foresee fs dir (Name.strncpy name).bytes place path = some (.old node) →
      (fs.inodes node).valid = true := by
  induction path generalizing place with
  | nil =>
    refine ⟨rfl, ?_⟩
    intro node found
    exact valid node (some.inj found)
  | cons component rest ih =>
    simp only [walk, foresee]
    by_cases isDot : component = dot
    · rw [if_pos isDot, if_pos isDot]
      exact ih place valid
    · rw [if_neg isDot, if_neg isDot]
      by_cases isDotDot : component = dotDot
      · rw [if_pos isDotDot, if_pos isDotDot]
        cases place with
        | new =>
          have above : parentOrRoot after (some slot) = .ok (some dir) := by
            rw [parentOrRoot, creation.new.2.2.2.2.2]
            rfl
          simp only [Place.slot, above]
          exact ih (.old dir) (by rintro node ⟨⟩; exact isDir.1)
        | old node =>
          have nodeValid := valid node rfl
          obtain ⟨above, found, aboveValid⟩ := tree.walkable.parentOrRoot_valid node nodeValid
          have different : node ≠ slot := by
            rintro rfl
            rw [free] at nodeValid
            contradiction
          have same : parentOrRoot after (some node) = .ok (some above) := by
            rw [← found, parentOrRoot, parentOrRoot, (creation.others node different).2,
              creation.globals.1]
          simp only [Place.slot, same, found]
          exact ih (.old above) (by rintro node ⟨⟩; exact aboveValid)
      · rw [if_neg isDotDot, if_neg isDotDot]
        cases place with
        | new =>
          simp only [Place.slot, find_in_new isDir free creation component]
          exact ⟨rfl, by simp⟩
        | old node =>
          have nodeValid := valid node rfl
          simp only [Place.slot, find_created tree isDir free creation nodeValid component]
          by_cases here : node = dir ∧ component = (Name.strncpy name).bytes
          · rw [if_pos here, if_pos here]
            exact ih .new (by simp)
          · rw [if_neg here, if_neg here]
            obtain ⟨found, search, foundValid⟩ := tree.walkable.find_valid node component nodeValid
            rw [search]
            cases found with
            | none => exact ⟨rfl, by simp⟩
            | some child => exact ih (.old child) (by rintro node ⟨⟩; exact foundValid child rfl)

end

theorem walk_congr {other : FileSystem} (inodes : other.inodes = fs.inodes)
    (rootDir : other.rootDir = fs.rootDir) (node : Option Slot) (path : List (List UInt8)) :
    walk other node path = walk fs node path := by
  have find : ∀ node name, fsFindInodeInDir other node name = fsFindInodeInDir fs node name := by
    intro node name
    simp only [fsFindInodeInDir, inodes]
  have above : ∀ node, parentOrRoot other node = parentOrRoot fs node := by
    intro node
    cases node <;> simp only [parentOrRoot, inodes, rootDir]
  induction path generalizing node with
  | nil => rfl
  | cons component rest ih => simp only [walk, find, above, ih]

theorem resolve_setDescriptor (fs : FileSystem) (fd : Descriptor) (entry : FileDescriptor)
    (path : CString) :
    fsResolvePath (fs.setDescriptor fd entry) (some path) = fsResolvePath fs (some path) := by
  rw [resolve_eq_walk, resolve_eq_walk]
  exact walk_congr (fs.setDescriptor_inodes fd entry) rfl (pathStart fs path) _

/-- A path that `fs_open` with WRITE gives a descriptor for leads to the opened inode. -/
def OpenAgrees (fs : FileSystem) (path : CString) : Prop :=
  ∀ mode memory found node after fd, mode &&& modeWrite ≠ 0 →
    openNode fs path mode memory = .ok (found, some node) →
    fsOpen fs (some path) mode memory = .ok (after, fd) → 0 ≤ fd →
    fsResolvePath after (some path) = .ok (some node)

/-- A path that `fs_mkdir` returns 0 for leads to the slot of the new directory. -/
def MkdirAgrees (fs : FileSystem) (path : CString) : Prop :=
  ∀ after slot, fs.freeSlot = some slot → fsMkdir fs (some path) = .ok (after, 0) →
    fsResolvePath after (some path) = .ok (some slot)

-- The whole path ends at the entry that creation puts into the current directory.
def LeadsToEntry (fs : FileSystem) (path : CString) : Prop :=
  match fs.getCurrentDir, pathStart fs path with
  | some dir, some start => foresee fs dir (Name.strncpy (baseName path)).bytes (.old start)
      (components path.bytes []) = some .new
  | _, _ => False

theorem resolve_created {slot : Slot} {path : CString} {type : UInt32} (tree : TreeShaped fs)
    (current : CurrentOk fs) (free : fs.freeSlot = some slot)
    (creation : Creation fs slot (baseName path) type fs.getCurrentDir after) :
    fsResolvePath after (some path) = .ok (some slot) ↔ LeadsToEntry fs path := by
  obtain ⟨dir, currentDir, isDir⟩ := current
  obtain ⟨root, rootDir, rootIsDir, -⟩ := tree.root
  have invalid := fs.freeSlot_invalid free
  have here := CurrentOk.getCurrentDir currentDir
  obtain ⟨sameRoot, sameCurrent, -⟩ := creation.globals
  rw [here] at creation
  have started : ∃ start, pathStart fs path = some start ∧ (fs.inodes start).valid = true := by
    unfold pathStart
    split
    · exact ⟨root, rootDir, rootIsDir.1⟩
    · exact ⟨dir, here, isDir.1⟩
  obtain ⟨start, starts, startValid⟩ := started
  have sameStart : pathStart after path = some start := by
    rw [← starts]
    simp only [pathStart, FileSystem.getCurrentDir, sameRoot, sameCurrent]
  obtain ⟨walked, valid⟩ := walk_created tree isDir invalid creation (.old start)
    (components path.bytes []) (by rintro node ⟨⟩; exact startValid)
  simp only [LeadsToEntry, here, starts]
  rw [resolve_eq_walk, sameStart]
  change walk after (some (Place.slot slot (.old start))) _ = _ ↔ _
  rw [walked]
  cases ends : foresee fs dir (Name.strncpy (baseName path)).bytes (.old start)
      (components path.bytes []) with
  | none => simp
  | some place =>
    cases place with
    | new => simp [Place.slot]
    | old node =>
      have different : node ≠ slot := by
        rintro rfl
        exact Bool.false_ne_true (invalid.symm.trans (valid node ends))
      simp [Place.slot, different]

section

variable (tree : TreeShaped fs) (current : CurrentOk fs)

include tree current

theorem create_at {slot : Slot} (name : List UInt8) (type : UInt32)
    (known : type = typeFile ∨ type = typeDir) (free : fs.freeSlot = some slot) :
    ∃ after, fsCreateInode fs name type fs.getCurrentDir true = .ok (after, some slot) ∧
      Creation fs slot name type fs.getCurrentDir after := by
  obtain ⟨after, node, made, -⟩ := create_keeps tree current name type true known
  obtain ⟨full, -⟩ | ⟨other, -, -, failed, -⟩ | ⟨other, free', rfl, -, creation⟩ :=
    fsCreateInode_cases made
  · rw [free] at full
    contradiction
  · contradiction
  · rw [free] at free'
    cases free'
    exact ⟨after, made, creation⟩

theorem openAgrees_iff (ready : fs.initialized = true) (path : CString) : OpenAgrees fs path ↔
    fsResolvePath fs (some path) ≠ .ok none ∨ fs.freeSlot = none ∨ freeDescriptor fs = none ∨
      LeadsToEntry fs path := by
  constructor
  · intro agrees
    by_contra fails
    simp only [not_or, not_not] at fails
    obtain ⟨missing, room, descriptor, astray⟩ := fails
    obtain ⟨slot, free⟩ := Option.ne_none_iff_exists'.mp room
    obtain ⟨fd, freeFd⟩ := Option.ne_none_iff_exists'.mp descriptor
    obtain ⟨found, made, creation⟩ := create_at tree current (baseName path) typeFile (.inl rfl) free
    have opening : openNode fs path modeWrite true = .ok (found, some slot) := by
      simp only [openNode, missing, made]
      rfl
    have isFile : (found.inodes slot).type = typeFile := creation.new.2.1
    have sameFd : freeDescriptor found = some fd := by
      rw [← freeFd]
      simp only [freeDescriptor, creation.globals.2.2.1]
    have returned : fsOpen fs (some path) modeWrite true =
        .ok (found.setDescriptor fd (openEntry (found.inodes slot) modeWrite), fd.val) := by
      simp only [fsOpen, ready, opening, openDescriptor, isFile, sameFd]
      rfl
    have resolved := agrees modeWrite true found slot _ _ (by decide) opening returned
      (Int.natCast_nonneg _)
    rw [resolve_setDescriptor] at resolved
    exact astray ((resolve_created tree current free creation).mp resolved)
  · intro holds mode memory found node after fd writes opening returned opened
    obtain ⟨-, rfl⟩ | ⟨text, found', node', same, -, opening', described⟩ := fsOpen_cases returned
    · contradiction
    · cases same
      rw [opening] at opening'
      cases opening'
      have resolved : fsResolvePath found (some path) = .ok (some node) := by
        obtain ⟨rfl, here⟩ | ⟨missing, -, made⟩ := openNode_cases opening
        · exact here
        · obtain ⟨-, none', -⟩ | ⟨_, -, none', -⟩ | ⟨slot, free, same, -, creation⟩ :=
            fsCreateInode_cases made
          · contradiction
          · contradiction
          · cases same
            refine (resolve_created tree current free creation).mpr ?_
            obtain found | full | closed | leads := holds
            · exact absurd missing found
            · rw [free] at full
              contradiction
            · obtain failed | ⟨slot, fd', -, -, freeFd, -⟩ :=
                openDescriptor_cases found (some node) mode
              · rw [failed] at described
                cases described
                contradiction
              · have sameFd : freeDescriptor found = freeDescriptor fs := by
                  simp only [freeDescriptor, creation.globals.2.2.1]
                rw [sameFd, closed] at freeFd
                contradiction
            · exact leads
      obtain failed | ⟨slot, fd', -, -, -, given⟩ := openDescriptor_cases found (some node) mode
      · rw [failed] at described
        cases described
        exact resolved
      · rw [given] at described
        cases described
        rw [resolve_setDescriptor]
        exact resolved

theorem mkdirAgrees_iff (path : CString) : MkdirAgrees fs path ↔
    fsFindInodeInDir fs fs.getCurrentDir (baseName path) ≠ .ok none ∨ fs.freeSlot = none ∨
      LeadsToEntry fs path := by
  constructor
  · intro agrees
    by_contra fails
    simp only [not_or, not_not] at fails
    obtain ⟨missing, room, astray⟩ := fails
    obtain ⟨slot, free⟩ := Option.ne_none_iff_exists'.mp room
    obtain ⟨after, made, creation⟩ := create_at tree current (baseName path) typeDir (.inr rfl) free
    have returned : fsMkdir fs (some path) = .ok (after, 0) := by
      simp only [fsMkdir, missing, made]
      rfl
    exact astray ((resolve_created tree current free creation).mp (agrees after slot free returned))
  · intro holds after slot free returned
    obtain ⟨-, failed⟩ | ⟨text, node, same, missing, made, outcome⟩ := fsMkdir_cases returned
    · contradiction
    · cases same
      obtain ⟨full, -⟩ | ⟨other, -, -, failed, -⟩ | ⟨other, free', -, -, creation⟩ :=
        fsCreateInode_cases made
      · rw [free] at full
        contradiction
      · contradiction
      · rw [free] at free'
        cases free'
        refine (resolve_created tree current free creation).mpr ?_
        obtain found | full | leads := holds
        · exact absurd missing found
        · rw [free] at full
          contradiction
        · exact leads

end

theorem run_ready (ready : start.initialized = true)
    (run : Stepper.Run fsStep KeepsCurrent start history fs) : fs.initialized = true := by
  refine run.invariant (fun _ fs => fs.initialized = true) ready ?_
  intro _ before after operation _ held _ taken
  obtain ⟨result, returned⟩ := fsStep_returned taken
  exact (operation_initialized returned).trans held

theorem creation_agrees_iff {io : LoadIo} {disk : Disk} {start fs : FileSystem}
    {history : List Empty} (booted : fsInit io disk bootState = .ok start)
    (tree : TreeShaped start) (run : Stepper.Run fsStep KeepsCurrent start history fs)
    (path : CString) :
    (OpenAgrees fs path ↔ fsResolvePath fs (some path) ≠ .ok none ∨ fs.freeSlot = none ∨
      freeDescriptor fs = none ∨ LeadsToEntry fs path) ∧
    (MkdirAgrees fs path ↔ fsFindInodeInDir fs fs.getCurrentDir (baseName path) ≠ .ok none ∨
      fs.freeSlot = none ∨ LeadsToEntry fs path) := by
  obtain ⟨final, current⟩ := run_tree tree (fsInit_currentOk booted tree) run
  exact ⟨openAgrees_iff final current (run_ready (fsInit_current booted).1 run) path,
    mkdirAgrees_iff final current path⟩

instance (fs : FileSystem) (path : CString) : Decidable (LeadsToEntry fs path) := by
  unfold LeadsToEntry
  split <;> infer_instance

theorem creation_agrees_iff_cd : ∃ history fs,
    fsInit .success (fun _ => 0) bootState = .ok freshFs ∧
    Stepper.Run fsStep KeepsCurrent freshFs history fs ∧ fs.currentDir = some 1 ∧
    OpenAgrees fs ⟨[97], by decide⟩ ∧ MkdirAgrees fs ⟨[97], by decide⟩ := by
  have booted := fsInit_fresh .success (fun _ => 0) (by decide +kernel)
  obtain ⟨history, fs, run, checked⟩ := Stepper.Run.exists_of_actions fsStep KeepsCurrent freshFs
    [.fsMkdir (some ⟨[100], by decide⟩), .setCurrentDir (some ⟨[100], by decide⟩)]
    (fun _ fs => fs.currentDir == some 1 && decide (LeadsToEntry fs ⟨[97], by decide⟩))
    (by decide +kernel)
  rw [Bool.and_eq_true, beq_iff_eq, decide_eq_true_eq] at checked
  obtain ⟨opens, makes⟩ := creation_agrees_iff booted freshFs_tree run ⟨[97], by decide⟩
  exact ⟨history, fs, booted, run, checked.1, opens.mpr (.inr (.inr (.inr checked.2))),
    makes.mpr (.inr (.inr checked.2))⟩

-- An absolute path, opened in another directory than the root.
theorem absolute_open_disagrees : ∃ history fs,
    fsInit .success (fun _ => 0) bootState = .ok freshFs ∧
    Stepper.Run fsStep KeepsCurrent freshFs history fs ∧
    ¬OpenAgrees fs ⟨[47, 97], by decide⟩ ∧ ¬MkdirAgrees fs ⟨[47, 97], by decide⟩ := by
  have booted := fsInit_fresh .success (fun _ => 0) (by decide +kernel)
  obtain ⟨history, fs, run, checked⟩ := Stepper.Run.exists_of_actions fsStep KeepsCurrent freshFs
    [.fsMkdir (some ⟨[100], by decide⟩), .setCurrentDir (some ⟨[100], by decide⟩)]
    (fun _ fs => decide (fsResolvePath fs (some ⟨[47, 97], by decide⟩) = .ok none) &&
      decide (fsFindInodeInDir fs fs.getCurrentDir (baseName ⟨[47, 97], by decide⟩) = .ok none) &&
      fs.freeSlot.isSome && (freeDescriptor fs).isSome &&
      decide (¬LeadsToEntry fs ⟨[47, 97], by decide⟩)) (by decide +kernel)
  simp only [Bool.and_eq_true, decide_eq_true_eq, Option.isSome_iff_ne_none] at checked
  obtain ⟨⟨⟨⟨missing, unlisted⟩, room⟩, descriptor⟩, astray⟩ := checked
  obtain ⟨tree, current⟩ := freshFs_keeps run
  refine ⟨history, fs, booted, run, ?_, ?_⟩
  · rw [openAgrees_iff tree current (run_ready (fsInit_current booted).1 run)]
    simp [missing, room, descriptor, astray]
  · rw [mkdirAgrees_iff tree current]
    simp [unlisted, room, astray]

end ArgoOS.Fs
