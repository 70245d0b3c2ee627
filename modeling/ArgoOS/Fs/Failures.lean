import ArgoOS.Fs.Boots
import ArgoOS.Fs.LoadSafety
import ArgoOS.Fs.PathText
import ArgoOS.Fs.Positions

set_option autoImplicit false

/-! # What failed calls leave behind -/

namespace ArgoOS.Fs

open List DiskInode

variable {result : Int} {table : Nat → UInt8}

variable {slot : Slot}

section

variable {fs after : FileSystem}

structure OpenKeeps (fs after : FileSystem) : Prop where
  valid : ∀ slot, (after.inodes slot).valid = (fs.inodes slot).valid
  inodes : ∀ slot, (fs.inodes slot).valid = true → after.inodes slot = fs.inodes slot
  contents : ∀ dir, IsDir fs dir → children after dir = children fs dir
  rootDir : after.rootDir = fs.rootDir
  currentDir : after.currentDir = fs.currentDir
  descriptors : after.fileDescriptors = fs.fileDescriptors

theorem OpenKeeps.refl (fs : FileSystem) : OpenKeeps fs fs :=
  ⟨fun _ => rfl, fun _ _ => rfl, fun _ _ => rfl, rfl, rfl, rfl⟩

def FreeUnlisted (fs : FileSystem) : Prop :=
  ∀ slot ∈ fs.freeSlot, ∀ dir, IsDir fs dir → slot ∉ children fs dir

theorem TreeShaped.freeUnlisted (tree : TreeShaped fs) : FreeUnlisted fs := by
  intro slot free dir isDir listed
  have valid := ((tree.children_list isDir).2 slot).mp listed
  rw [fs.freeSlot_invalid free] at valid
  exact Bool.false_ne_true valid.1

theorem children_same {dir : Slot} (data : (after.inodes dir).data = (fs.inodes dir).data)
    (links : ∀ child ∈ children fs dir, (after.inodes child).next = (fs.inodes child).next) :
    children after dir = children fs dir := by
  unfold children at links ⊢
  rw [data]
  split at links
  · exact Linked.nodes_congr links
  · rfl

-- The slot is filled when `kmalloc` fails, but it stays free.
theorem failedCreation_keeps (unlisted : FreeUnlisted fs) (free : fs.freeSlot = some slot)
    {node : Inode} (invalid : node.valid = false) : OpenKeeps fs (takeInode fs slot node) := by
  have before := fs.freeSlot_invalid free
  have other : ∀ s, s ≠ slot → (takeInode fs slot node).inodes s = fs.inodes s :=
    fun s different => takeInode_other fs slot s node different
  have inUse : ∀ s, (fs.inodes s).valid = true → s ≠ slot := by
    rintro s valid rfl
    rw [before] at valid
    contradiction
  refine ⟨fun s => ?_, fun s valid => other s (inUse s valid), fun dir isDir => ?_, rfl, rfl, rfl⟩
  · by_cases here : s = slot
    · subst here
      rw [takeInode_self, invalid, before]
    · rw [other s here]
  · refine children_same (by rw [other dir (inUse dir isDir.1)]) (fun child listed => ?_)
    have different : child ≠ slot := by
      rintro rfl
      exact unlisted child free dir isDir listed
    rw [other child different]

theorem fsOpen_creates {path : CString} {mode : UInt32} {memory : Bool}
    (ready : fs.initialized = true)
    (creates : (Operation.fsOpen (some path) mode memory).Creates fs)
    (returned : fsOpen fs (some path) mode memory = .ok (after, result)) :
    ∃ slot found, fs.freeSlot = some slot ∧
      Creation fs slot (baseName path) typeFile fs.getCurrentDir found ∧
      openDescriptor found (some slot) mode = (after, result) := by
  obtain ⟨missing, writes, rfl, room⟩ := creates
  have notReady : ¬ fs.initialized = false := by simp [ready]
  simp only [fsOpen, if_neg notReady, openNode, missing, if_pos writes] at returned
  split at returned
  · contradiction
  · next found node made =>
    obtain ⟨full, -⟩ | ⟨_, -, -, failed, -⟩ | ⟨slot, free, rfl, -, creation⟩ :=
      fsCreateInode_cases made
    · exact absurd full room
    · contradiction
    · exact ⟨slot, found, free, creation, Except.ok.inj returned⟩

theorem openDescriptor_failed {mode : UInt32} (isFile : (fs.inodes slot).type = typeFile)
    (failed : openDescriptor fs (some slot) mode = (after, -1)) : freeDescriptor fs = none := by
  cases free : freeDescriptor fs with
  | none => rfl
  | some fd =>
    simp only [openDescriptor, if_neg (not_not.mpr isFile), free, Prod.mk.injEq] at failed
    omega

theorem failed_open_keeps_iff {fs after : FileSystem} {path : Option CString} {mode : UInt32}
    {memory : Bool} (unlisted : FreeUnlisted fs)
    (returned : fsOpen fs path mode memory = .ok (after, -1)) :
    OpenKeeps fs after ↔ ¬ (fs.initialized = true ∧
      (Operation.fsOpen path mode memory).Creates fs ∧ freeDescriptor fs = none) := by
  constructor
  · rintro keeps ⟨ready, creates, -⟩
    cases path with
    | none => exact creates
    | some path =>
      obtain ⟨slot, found, free, creation, described⟩ := fsOpen_creates ready creates returned
      have valid := keeps.valid slot
      rw [openDescriptor_same described, fs.freeSlot_invalid free] at valid
      exact Bool.false_ne_true (valid.symm.trans creation.new.2.2.2.1)
  · intro fine
    obtain ⟨rfl, -⟩ | ⟨text, found, node, rfl, ready, opening, described⟩ := fsOpen_cases returned
    · exact .refl after
    · obtain failed | ⟨_, fd, -, -, -, given⟩ := openDescriptor_cases found node mode
      · have same : after = found := (congrArg Prod.fst (described.symm.trans failed))
        subst same
        obtain ⟨rfl, -⟩ | ⟨missing, writes, made⟩ := openNode_cases opening
        · exact .refl after
        · obtain ⟨-, -, rfl⟩ | ⟨slot, free, -, -, -, rfl⟩ | ⟨slot, free, rfl, memoryFor, creation⟩ :=
            fsCreateInode_cases made
          · exact .refl after
          · exact failedCreation_keeps unlisted free rfl
          · -- The creation went through, so it is the descriptors that have run out.
            have full := openDescriptor_failed creation.new.2.1 described
            rw [freeDescriptor, creation.globals.2.2.1] at full
            exact absurd ⟨ready, ⟨missing, writes, memoryFor rfl, by simp [free]⟩, full⟩ fine
      · rw [given, Prod.mk.injEq] at described
        omega

end

def otherPath : CString := ⟨[98], by decide⟩

theorem descriptors_taken : ∃ history state,
    Stepper.Run fsStep KeepsCurrent freshFs history state ∧ state.initialized = true ∧
    freeDescriptor state = none ∧
    (Operation.fsOpen (some otherPath) modeWrite true).Creates state ∧
    (fsOpen state (some otherPath) modeWrite true).toOption.map Prod.snd = some (-1) ∧
    (fsOpen state (some otherPath) modeRead true).toOption.map Prod.snd = some (-1) := by
  obtain ⟨history, state, run, passed⟩ := Stepper.Run.exists_of_actions fsStep KeepsCurrent freshFs
    (List.replicate 64 openText)
    (fun _ fs => decide (fs.initialized = true ∧ freeDescriptor fs = none ∧
      (Operation.fsOpen (some otherPath) modeWrite true).Creates fs ∧
      (fsOpen fs (some otherPath) modeWrite true).toOption.map Prod.snd = some (-1) ∧
      (fsOpen fs (some otherPath) modeRead true).toOption.map Prod.snd = some (-1)))
    (by decide +kernel)
  exact ⟨history, state, run, of_decide_eq_true passed⟩

theorem ok_of_map_snd {α : Type} {outcome : Except Fault (α × Int)}
    (mapped : outcome.toOption.map Prod.snd = some result) :
    ∃ value, outcome = .ok (value, result) := by
  obtain ⟨⟨value, other⟩, found, rfl⟩ := Option.map_eq_some_iff.mp mapped
  exact ⟨value, ok_of_toOption found⟩

theorem failed_open_keeps_reader : ∃ state after, TreeShaped state ∧
    fsOpen state (some otherPath) modeRead true = .ok (after, -1) ∧ OpenKeeps state after := by
  obtain ⟨history, state, run, -, -, -, -, failed⟩ := descriptors_taken
  have tree := (freshFs_keeps run).1
  obtain ⟨after, returned⟩ := ok_of_map_snd failed
  refine ⟨state, after, tree, returned, (failed_open_keeps_iff tree.freeUnlisted returned).mpr ?_⟩
  rintro ⟨-, ⟨-, writes, -⟩, -⟩
  exact writes (by decide)

theorem failed_open_leaves_file : ∃ history state after,
    Stepper.Run fsStep KeepsCurrent freshFs history state ∧ TreeShaped state ∧
    fsOpen state (some otherPath) modeWrite true = .ok (after, -1) ∧
    (∃ slot, (state.inodes slot).valid = false ∧ (after.inodes slot).valid = true ∧
      (after.inodes slot).name = .strncpy (baseName otherPath)) ∧ ¬ OpenKeeps state after := by
  obtain ⟨history, state, run, ready, -, creates, failed, -⟩ := descriptors_taken
  have tree := (freshFs_keeps run).1
  obtain ⟨after, returned⟩ := ok_of_map_snd failed
  obtain ⟨slot, found, free, creation, described⟩ := fsOpen_creates ready creates returned
  have same := openDescriptor_same described
  have new : (after.inodes slot).valid = true ∧
      (after.inodes slot).name = .strncpy (baseName otherPath) := by
    rw [same]
    exact ⟨creation.new.2.2.2.1, creation.new.1⟩
  have old := state.freeSlot_invalid free
  refine ⟨history, state, after, run, tree, returned, ⟨slot, old, new⟩, fun keeps => ?_⟩
  have kept := keeps.valid slot
  rw [new.1, old] at kept
  exact Bool.false_ne_true kept.symm

section

variable {io : LoadIo} {disk : Disk}

structure LoadKeeps (after : FileSystem) : Prop where
  empty : ∀ slot, (after.inodes slot).valid = false
  rootDir : after.rootDir = bootState.rootDir
  currentDir : after.currentDir = bootState.currentDir

def OnlyRoot (fs : FileSystem) : Prop :=
  ∃ root, fs.rootDir = some root ∧ fs.currentDir = some root ∧ IsDir fs root ∧
    ∀ slot, (fs.inodes slot).valid = true ↔ slot = root

def NothingToLoad (io : LoadIo) (disk : Disk) : Prop :=
  Opens io disk → validEntries disk = []

section

variable {indices : List Nat} (fs : FileSystem)
    (invalid : ∀ index ∈ indices, loadable (load table index) = false)

include fs invalid

theorem loadInodes_skip : loadInodes io disk table indices fs = .ok (fs, true) := by
  induction indices with
  | nil => rfl
  | cons index indices ih =>
    have rest := ih (fun other member => invalid other (mem_cons_of_mem index member))
    simp only [loadInodes, loadInode_skip (invalid index mem_cons_self), rest]

theorem linkInodes_skip : linkInodes table indices fs = .ok fs := by
  induction indices with
  | nil => rfl
  | cons index indices ih =>
    have rest := ih (fun other member => invalid other (mem_cons_of_mem index member))
    have zero : (load table index).valid = 0 := by
      simpa [loadable] using invalid index mem_cons_self
    simp only [linkInodes, linkInode, if_pos zero, rest]

end

theorem exists_reached (indices : List Nat)
    (some : ∃ index ∈ indices, loadable (load table index) = true) :
    ∃ index, Reached io disk table indices index := by
  induction indices with
  | nil =>
    obtain ⟨_, member, -⟩ := some
    contradiction
  | cons first rest ih =>
    cases valid : loadable (load table first) with
    | true => exact ⟨first, .inl ⟨rfl, valid⟩⟩
    | false =>
      obtain ⟨index, member, entry⟩ := some
      obtain rfl | later := mem_cons.mp member
      · rw [valid] at entry
        contradiction
      · obtain ⟨reached, here⟩ := ih ⟨index, later, entry⟩
        exact ⟨reached, (reached_skip rest reached valid).mpr here⟩

theorem Opens.validEntries_nil (opens : Opens io disk) : validEntries disk = [] ↔
    ∀ index ∈ List.range (imageCount disk),
      loadable (load (loadTable disk) index) = false := by
  have same : ∀ index ∈ List.range (imageCount disk),
      load (loadTable disk) index = tableEntry disk index :=
    fun index member => loadTable_entry disk opens.few index (mem_range.mp member)
  simp only [validEntries, filter_eq_nil_iff, mem_map, forall_exists_index, and_imp,
    forall_apply_eq_imp_iff₂, Bool.not_eq_true]
  exact ⟨fun invalid index member => by rw [same index member]; exact invalid index member,
    fun invalid index member => by rw [← same index member]; exact invalid index member⟩

theorem NothingToLoad.fsLoad (nothing : NothingToLoad io disk) :
    fsLoad io disk (clearTables bootState) = .ok (clearTables bootState, -1) := by
  by_cases opens : Opens io disk
  · have invalid := opens.validEntries_nil.mp (nothing opens)
    rw [fsLoad_open opens, loadPasses, loadInodes_skip _ invalid]
    simp only [linkInodes_skip _ invalid]
    rfl
  · exact fsLoad_closed opens _

theorem NothingToLoad.fsInit (nothing : NothingToLoad io disk) :
    fsInit io disk bootState = .ok freshFs := by
  obtain ⟨fs, created, -⟩ := createRoot_keeps (clearTables bootState) (fun _ => rfl)
  simp only [Fs.fsInit, nothing.fsLoad, freshFs, created]
  rfl

theorem fsLoad_first {after : FileSystem} (some : ¬ NothingToLoad io disk)
    (load : fsLoad io disk (clearTables bootState) = .ok (after, result)) :
    (after.inodes 0).valid = true := by
  obtain ⟨opens, entries⟩ := Classical.not_imp.mp some
  obtain ⟨index, reached⟩ : ∃ index,
      Reached io disk (loadTable disk) (List.range (imageCount disk)) index := by
    apply exists_reached
    by_contra missing
    refine entries (opens.validEntries_nil.mpr (fun index member => ?_))
    by_contra valid
    exact missing ⟨index, member, by simpa using valid⟩
  have empty : ∀ slot, ((clearTables bootState).inodes slot).valid = false := fun _ => rfl
  cases first : loadInodes io disk (loadTable disk) (List.range (imageCount disk))
      (clearTables bootState) with
  | error fault =>
    rw [fsLoad_open opens, loadPasses, first] at load
    exact absurd load (by simp)
  | ok pair =>
    obtain ⟨loaded, done⟩ := pair
    obtain ⟨items, built, -, members⟩ := loadInodes_reached empty (.refl _) opens.room first
    rw [nil_append] at built
    have positive := length_pos_of_mem ((members _).mpr ⟨index, reached, rfl⟩)
    rw [length_map] at positive
    obtain ⟨linked, result', returned, links⟩ := fsLoad_returns empty opens first
    obtain rfl : after = linked := congrArg Prod.fst (Except.ok.inj (load.symm.trans returned))
    rw [(links.header 0).2.2.2.1, built.filled 0 positive]
    rfl

theorem createRoot_valid {fs : FileSystem} (valid : (fs.inodes slot).valid = true) :
    ∃ after, createRoot fs = .ok after ∧ ¬ OnlyRoot after := by
  have made : ∃ created node, fsCreateInode fs [slash] typeDir none true = .ok (created, node) := by
    unfold fsCreateInode
    split
    · exact ⟨fs, none, rfl⟩
    · rw [if_neg (by decide)]
      exact ⟨_, _, rfl⟩
  obtain ⟨created, node, made⟩ := made
  refine ⟨_, by simp only [createRoot, made]; rfl, ?_⟩
  rintro ⟨root, isRoot, -, -, only⟩
  obtain ⟨-, rfl, rfl⟩ | ⟨_, -, -, failed, -⟩ | ⟨new, free, rfl, -, creation⟩ :=
    fsCreateInode_cases made
  · contradiction
  · contradiction
  · cases isRoot
    have different : slot ≠ root := by
      rintro rfl
      rw [fs.freeSlot_invalid free] at valid
      contradiction
    exact different ((only slot).mp ((creation.others slot different).1.2.2.2.1.trans valid))

theorem freshFs_onlyRoot : OnlyRoot freshFs := by
  refine ⟨0, ?_, ?_, ?_, ?_⟩
  · decide +kernel
  · decide +kernel
  · unfold IsDir
    decide +kernel
  · decide +kernel

theorem freshFs_saved {saveIo : SaveIo} {image saved : Disk}
    (returned : fsSave freshFs saveIo image = .ok (saved, 0)) :
    imageCount saved = 1 ∧ tableEntry saved 0 = rootEntry := by
  have only : collectInodes freshFs = [0] := by decide +kernel
  have sizes := fun slot valid isFile => (freshFs_filesFit slot valid isFile).1
  refine ⟨by rw [fsSave_count returned sizes, only]; rfl, ?_⟩
  rw [fsSave_entry returned 0 (by rw [only]; decide)]
  simp only [only]
  change diskInode freshFs 0 dataBlocksLba = rootEntry
  decide +kernel

theorem failed_load_keeps_iff {io : LoadIo} {disk : Disk} {after : FileSystem}
    (failed : fsLoad io disk (clearTables bootState) = .ok (after, -1)) :
    (LoadKeeps after ↔ NothingToLoad io disk) ∧
    ∃ start, fsInit io disk bootState = .ok start ∧
      (OnlyRoot start ↔ NothingToLoad io disk) ∧
      (NothingToLoad io disk → ∀ saveIo image saved,
        fsSave start saveIo image = .ok (saved, 0) →
          imageCount saved = 1 ∧ tableEntry saved 0 = rootEntry) := by
  by_cases nothing : NothingToLoad io disk
  · cases failed.symm.trans nothing.fsLoad
    refine ⟨iff_of_true ⟨fun _ => rfl, rfl, rfl⟩ nothing, freshFs, nothing.fsInit,
      iff_of_true freshFs_onlyRoot nothing, ?_⟩
    intro _ saveIo image saved returned
    exact freshFs_saved returned
  · have left := fsLoad_first nothing failed
    have notKept : ¬ LoadKeeps after := by
      intro keeps
      rw [keeps.empty 0] at left
      contradiction
    obtain ⟨start, created, notOnly⟩ := createRoot_valid left
    refine ⟨iff_of_false notKept nothing, start, ?_, iff_of_false notOnly nothing,
      fun fine => absurd fine nothing⟩
    simp only [fsInit, failed]
    exact created

end

theorem failed_load_keeps_blank : ∃ after,
    fsLoad .success (imageOf [{ rootEntry with valid := 0 }]) (clearTables bootState) =
      .ok (after, -1) ∧ LoadKeeps after := by
  have empty : validEntries (imageOf [{ rootEntry with valid := 0 }]) = [] := by decide +kernel
  have nothing : NothingToLoad .success (imageOf [{ rootEntry with valid := 0 }]) :=
    fun _ => empty
  exact ⟨_, nothing.fsLoad, (failed_load_keeps_iff nothing.fsLoad).1.mpr nothing⟩

def noFileMemory : LoadIo :=
  { LoadIo.success with fileMemory := fun _ => false }

-- The root is loaded, and `kmalloc` fails for the file behind it.
theorem failed_load_leaves_tree : ∃ after start,
    fsLoad noFileMemory (imageOf [rootEntry, fileEntry 10]) (clearTables bootState) =
      .ok (after, -1) ∧
    after.rootDir = some 0 ∧ (after.inodes 0).valid = true ∧ (after.inodes 1).valid = true ∧
    ¬ LoadKeeps after ∧
    fsInit noFileMemory (imageOf [rootEntry, fileEntry 10]) bootState = .ok start ∧
    start.rootDir = some 2 ∧ collectInodes start = [0, 1, 2] ∧ ¬ OnlyRoot start := by
  have loading : (fsLoad noFileMemory (imageOf [rootEntry, fileEntry 10])
      (clearTables bootState)).toOption.any (fun r => decide (r.2 = -1 ∧ r.1.rootDir = some 0 ∧
        (r.1.inodes 0).valid = true ∧ (r.1.inodes 1).valid = true)) = true := by
    decide +kernel
  have starting : (fsInit noFileMemory (imageOf [rootEntry, fileEntry 10])
      bootState).toOption.any (fun fs => decide (fs.rootDir = some 2 ∧
        collectInodes fs = [0, 1, 2])) = true := by
    decide +kernel
  obtain ⟨⟨after, result⟩, loaded, passed⟩ := (Option.any_eq_true _ _).mp loading
  obtain ⟨start, booted, passed'⟩ := (Option.any_eq_true _ _).mp starting
  obtain ⟨rfl, rootDir, zero, one⟩ := of_decide_eq_true passed
  obtain ⟨rootDir', collected⟩ := of_decide_eq_true passed'
  refine ⟨after, start, ok_of_toOption loaded, rootDir, zero, one, ?_, ok_of_toOption booted,
    rootDir', collected, ?_⟩
  · intro keeps
    rw [keeps.empty 0] at zero
    exact Bool.false_ne_true zero
  · rintro ⟨root, isRoot, -, -, only⟩
    have valid : ∀ slot ∈ ([0, 1, 2] : List Slot), slot = root := fun slot member =>
      (only slot).mp (collectInodes_valid start slot (by rw [collected]; exact member))
    exact absurd ((valid 0 (by decide)).trans (valid 1 (by decide)).symm) (by decide)

end ArgoOS.Fs
