import ArgoOS.Fs.NameView
import ArgoOS.Fs.WholeFile

set_option autoImplicit false

/-! # Writing over a file -/

namespace ArgoOS.Fs

open List FileSystem Bytes

structure Sound (fs : FileSystem) : Prop where
  ready : fs.initialized = true
  tree : TreeShaped fs
  current : CurrentOk fs
  fits : FilesFit fs
  numbers : ∀ first second, (fs.inodes first).valid = true → (fs.inodes second).valid = true →
    (fs.inodes first).inodeNum = (fs.inodes second).inodeNum → first = second
  fresh : ∀ slot, (fs.inodes slot).valid = true → (fs.inodes slot).inodeNum ≠ fs.nextInode

variable {fs : FileSystem} {slot : Slot} {memory : Bool}

theorem sound_in_runs {history : List Unit}
    (run : Stepper.Run numberStep KeepsCurrent freshFs history fs)
    (few : history.length + 2 < 2 ^ 32) : Sound fs := by
  have booted := fsInit_fresh .success (fun _ => 0) (by decide +kernel)
  have kept : KeepsTree fs ∧ FilesFit fs ∧ fs.initialized = true := by
    refine run.invariant (fun _ fs => KeepsTree fs ∧ FilesFit fs ∧ fs.initialized = true)
      ⟨⟨freshFs_tree, fsInit_currentOk booted freshFs_tree⟩, freshFs_filesFit,
        (fsInit_current booted).1⟩ ?_
    rintro _ before after operation _ ⟨keeps, fits, ready⟩ met taken
    obtain ⟨⟨result, returned⟩, -⟩ := numberStep_returned taken
    exact ⟨operation_tree keeps.1 keeps.2 met returned, operation_filesFit fits returned,
      (operation_initialized returned).trans ready⟩
  have numbered := run_counted (fun _ _ _ => Numbered.step) freshFs_numbered
    (run.mono fun _ _ _ => trivial) (by omega)
  refine ⟨kept.2.2, kept.1.1, kept.1.2, kept.2.1, fun first second valid _ same => ?_,
    fun slot _ same => ?_⟩
  · exact numbered.distinct first second same (numbered.positive first valid)
  · have taken := numbered.taken slot
    rw [same, numbered.next, nextNumber_toNat (by omega)] at taken
    omega

theorem Sound.lookup (sound : Sound fs) (valid : (fs.inodes slot).valid = true) :
    fs.findInodeByNum (fs.inodes slot).inodeNum = some slot :=
  findInodeByNum_unique valid fun other otherValid => sound.numbers other slot otherValid valid

section

variable {path : CString} (sound : Sound fs)
    (resolved : fsResolvePath fs (some path) = .ok (some slot))

include sound resolved

theorem Sound.valid : (fs.inodes slot).valid = true := by
  obtain ⟨node, same, valid⟩ := sound.tree.resolve_valid sound.current (some path)
  rw [resolved] at same
  exact valid slot (Except.ok.inj same).symm

theorem Sound.readable (isFile : (fs.inodes slot).type = typeFile) : Readable fs path slot := by
  have valid := sound.valid resolved
  obtain ⟨small, stored⟩ := sound.fits slot valid isFile
  exact ⟨sound.ready, resolved, isFile, sound.lookup valid, small, stored⟩

end

structure Untouched (fs after : FileSystem) : Prop where
  valid : ∀ slot, (after.inodes slot).valid = (fs.inodes slot).valid
  inodes : ∀ slot, (fs.inodes slot).valid = true → after.inodes slot = fs.inodes slot
  rootDir : after.rootDir = fs.rootDir
  currentDir : after.currentDir = fs.currentDir

variable {middle after : FileSystem}

section

theorem SameHandles.untouched (same : SameHandles fs after) : Untouched fs after := by
  refine ⟨fun _ => ?_, fun _ _ => ?_, ?_, ?_⟩ <;> rw [same.rest]

theorem Untouched.trans (first : Untouched fs middle) (second : Untouched middle after) :
    Untouched fs after where
  valid slot := (second.valid slot).trans (first.valid slot)
  inodes slot valid :=
    (second.inodes slot ((first.valid slot).trans valid)).trans (first.inodes slot valid)
  rootDir := second.rootDir.trans first.rootDir
  currentDir := second.currentDir.trans first.currentDir

theorem Untouched.content (untouched : Untouched fs after) (valid : (fs.inodes slot).valid = true) :
    content after slot = content fs slot := by
  rw [Fs.content, Fs.content, untouched.inodes slot valid]

theorem Untouched.sameShape (untouched : Untouched fs after) : SameShape fs after where
  rootDir := untouched.rootDir
  valid := untouched.valid
  links slot valid := by
    rw [untouched.inodes slot valid]
    exact ⟨rfl, rfl, rfl⟩
  data slot valid := .inl (by rw [untouched.inodes slot valid])

theorem pathStart_congr (rootDir : after.rootDir = fs.rootDir)
    (currentDir : after.currentDir = fs.currentDir) (path : CString) :
    pathStart after path = pathStart fs path := by
  simp only [pathStart, FileSystem.getCurrentDir, rootDir, currentDir]

theorem Untouched.resolve (untouched : Untouched fs after) (tree : TreeShaped fs)
    (current : CurrentOk fs) (path : CString) :
    fsResolvePath after (some path) = fsResolvePath fs (some path) := by
  have same := untouched.sameShape
  have shows : Shows after (view fs) :=
    tree.shows.congr tree same fun slot valid => by rw [untouched.inodes slot valid]
  rw [shows.resolve (tree.congr same) (current.congr same untouched.currentDir),
    tree.shows.resolve tree current, leads, leads,
    pathStart_congr untouched.rootDir untouched.currentDir]

theorem Sound.sameHandles (sound : Sound fs) (same : SameHandles fs after) : Sound after := by
  rw [same.rest]
  have shape : SameShape fs { fs with fileDescriptors := after.fileDescriptors } :=
    .of_inodes rfl rfl
  exact ⟨sound.ready, sound.tree.congr shape, sound.current.congr shape rfl, sound.fits,
    sound.numbers, sound.fresh⟩

theorem SameHandles.freeDescriptor (same : SameHandles fs after) :
    freeDescriptor after = freeDescriptor fs := by
  simp only [Fs.freeDescriptor, same.valid]

end

def Target (fs : FileSystem) (path : CString) (memory : Bool) (slot : Slot) : Prop :=
  fsResolvePath fs (some path) = .ok (some slot) ∧ (fs.inodes slot).type = typeFile ∨
  fsResolvePath fs (some path) = .ok none ∧ fs.freeSlot = some slot ∧ memory = true

def oldContent (fs : FileSystem) (slot : Slot) : List UInt8 :=
  if (fs.inodes slot).valid = true then content fs slot else []

-- The names after `path` was opened for writing; a free slot gets a new entry.
def namesWith (fs : FileSystem) (path : CString) (slot : Slot) : Names :=
  match (fs.inodes slot).valid, fs.getCurrentDir with
  | false, some dir => (view fs).insert dir slot (Name.strncpy (baseName path)).bytes
  | _, _ => view fs

/-- The file in `slot` starts with `text`, and the rest of its old content follows. -/
structure Overwritten (fs now : FileSystem) (path : CString) (slot : Slot) (text : List UInt8) :
    Prop where
  tree : TreeShaped now
  current : CurrentOk now
  fits : FilesFit now
  rootDir : now.rootDir = fs.rootDir
  currentDir : now.currentDir = fs.currentDir
  names : Shows now (namesWith fs path slot)
  valid : (now.inodes slot).valid = true
  isFile : (now.inodes slot).type = typeFile
  content : content now slot = text ++ (oldContent fs slot).drop text.length
  others : ∀ other, other ≠ slot → (now.inodes other).valid = (fs.inodes other).valid ∧
    ((fs.inodes other).valid = true → (now.inodes other).type = (fs.inodes other).type ∧
      ((fs.inodes other).type = typeFile → Fs.content now other = Fs.content fs other))

structure Writing (fs now : FileSystem) (path : CString) (fd : Descriptor) (slot : Slot)
    (text : List UInt8) : Prop extends Overwritten fs now path slot text where
  opened : openFile now fd.val modeWrite = some (fd, slot)
  position : (now.fileDescriptors fd).position.toNat = text.length

variable {now : FileSystem} {path : CString} {text : List UInt8}

section

theorem Target.sameHandles (sound : Sound fs) (same : SameHandles fs middle) :
    Target middle path memory slot ↔ Target fs path memory slot := by
  rw [Target, Target, same.untouched.resolve sound.tree sound.current, same.rest]
  rfl

theorem Overwritten.sameHandles (same : SameHandles fs middle)
    (overwritten : Overwritten middle now path slot text) :
    Overwritten fs now path slot text := by
  rw [same.rest] at overwritten
  exact ⟨overwritten.tree, overwritten.current, overwritten.fits, overwritten.rootDir,
    overwritten.currentDir, overwritten.names, overwritten.valid, overwritten.isFile,
    overwritten.content, overwritten.others⟩

end

variable {fd : Descriptor}

section

theorem content_length (fits : FilesFit fs) (valid : (fs.inodes slot).valid = true)
    (isFile : (fs.inodes slot).type = typeFile) :
    (content fs slot).length = (fs.inodes slot).size.toNat := by
  obtain ⟨-, bytes, data⟩ := fits slot valid isFile
  rw [content, data, window_length]

theorem FileStep.name (step : FileStep fs after) (slot : Slot) :
    (after.inodes slot).name = (fs.inodes slot).name := by
  obtain kept | ⟨-, bytes, size, -, written⟩ := step.inodes slot
  · rw [kept]
  · rw [written]

section

variable (overwritten : Overwritten fs now path slot text)

include overwritten

theorem Overwritten.step (same : SameShape now after)
    (sameName : ∀ other, (after.inodes other).name = (now.inodes other).name)
    (currentDir : after.currentDir = now.currentDir) (fits : FilesFit after) {longer : List UInt8}
    (content' : Fs.content after slot = longer ++ (oldContent fs slot).drop longer.length)
    (others : ∀ other, other ≠ slot → after.inodes other = now.inodes other) :
    Overwritten fs after path slot longer where
  tree := overwritten.tree.congr same
  current := overwritten.current.congr same currentDir
  fits := fits
  rootDir := same.rootDir.trans overwritten.rootDir
  currentDir := currentDir.trans overwritten.currentDir
  names := overwritten.names.congr overwritten.tree same fun other _ => sameName other
  valid := (same.valid slot).trans overwritten.valid
  isFile := (same.links slot overwritten.valid).1.trans overwritten.isFile
  content := content'
  others := by
    intro other different
    rw [Fs.content, others other different]
    exact overwritten.others other different

theorem Overwritten.of_inodes (inodes : after.inodes = now.inodes)
    (rootDir : after.rootDir = now.rootDir) (currentDir : after.currentDir = now.currentDir) :
    Overwritten fs after path slot text := by
  refine overwritten.step (.of_inodes rootDir inodes) (fun other => by rw [inodes]) currentDir ?_ ?_
    fun other _ => by rw [inodes]
  · intro other
    rw [inodes]
    exact overwritten.fits other
  · rw [Fs.content, inodes]
    exact overwritten.content

theorem Overwritten.close (fd : Int) : Overwritten fs (fsClose now fd).1 path slot text := by
  have step := fsClose_fileStep now fd
  refine overwritten.of_inodes ?_ step.rootDir step.currentDir
  unfold fsClose
  split <;> rfl

end

theorem Writing.write (writing : Writing fs now path fd slot text) (buffer : Nat → UInt8)
    (size : UInt32) (room : text.length + size.toNat ≤ maxFileSize) :
    ∃ after, fsWrite now fd.val (some buffer) size = .ok (after, (size.toNat : Int)) ∧
      Writing fs after path fd slot (text ++ window buffer 0 size.toNat) := by
  obtain ⟨small, bytes, data⟩ := writing.fits slot writing.valid writing.isFile
  have limit : maxFileSize = 65536 := rfl
  have position := writing.position
  have length := content_length writing.fits writing.valid writing.isFile
  have behind : text.length ≤ (now.inodes slot).size.toNat := by
    rw [← length, writing.content, length_append]
    omega
  obtain ⟨moved, newSize, returned, movedTo, reaches⟩ := fsWrite_eq writing.opened data buffer size
    (by omega) (by omega) size.toNat (by omega)
  obtain ⟨valid, mode, lookup, isFile⟩ := openFile_cases writing.opened
  refine ⟨_, returned, ?_, ?_, ?_⟩
  · have step := fsWrite_fileStep returned
    refine writing.toOverwritten.step step.sameShape step.name step.currentDir ?_ ?_ ?_
    · exact operation_filesFit writing.fits (show (Operation.fsWrite _ _ _).apply now = _ from returned)
    · have replaced := window_overwrite bytes buffer size.toNat behind
      have old : window bytes 0 (now.inodes slot).size.toNat =
          text ++ (oldContent fs slot).drop text.length := by
        rw [← writing.content, Fs.content, data]
      rw [Fs.content]
      simp only [setDescriptor_inodes, setInode_self]
      rw [grownSize_toNat rfl, reaches, position, replaced, old, BoundedFile.overwrite]
      simp [drop_append]
    · intro other different
      exact now.setInode_other slot other _ different
  · refine openFile_val ?_ ?_ ?_ ?_
    · rw [setDescriptor_self]
      exact (validDescriptor_cases valid).2
    · rw [setDescriptor_self]
      exact mode
    · rw [setDescriptor_self]
      exact (setInode_lookup now slot (by rfl) (by rfl) _).trans lookup
    · rw [setDescriptor_inodes, setInode_self]
      exact isFile
  · rw [setDescriptor_self, length_append, window_length, ← position]
    exact movedTo

end

section

variable {found : FileSystem}

theorem Overwritten.open (overwritten : Overwritten fs found path slot [])
    (lookup : found.findInodeByNum (found.inodes slot).inodeNum = some slot) :
    Writing fs (found.setDescriptor fd (openEntry (found.inodes slot) modeWrite)) path fd slot
      [] := by
  have entry := found.setDescriptor_self fd (openEntry (found.inodes slot) modeWrite)
  refine ⟨overwritten.of_inodes rfl rfl rfl, ?_, ?_⟩
  · refine openFile_val ?_ ?_ ?_ overwritten.isFile <;> rw [entry]
    · rfl
    · exact (by decide : modeWrite &&& modeWrite ≠ 0)
    · exact lookup
  · rw [entry]
    rfl

variable (sound : Sound fs)

include sound

theorem Sound.existing (resolved : fsResolvePath fs (some path) = .ok (some slot))
    (isFile : (fs.inodes slot).type = typeFile) : Overwritten fs fs path slot [] := by
  have isValid := sound.valid resolved
  refine ⟨sound.tree, sound.current, sound.fits, rfl, rfl, ?_, isValid, isFile, ?_,
    fun _ _ => ⟨rfl, fun _ => ⟨rfl, fun _ => rfl⟩⟩⟩
  · simp only [namesWith, isValid]
    exact sound.tree.shows
  · rw [oldContent, if_pos isValid]
    rfl

theorem Sound.created (free : fs.freeSlot = some slot)
    (made : fsCreateInode fs (baseName path) typeFile fs.getCurrentDir true =
      .ok (found, some slot))
    (creation : Creation fs slot (baseName path) typeFile fs.getCurrentDir found) :
    Overwritten fs found path slot [] ∧
      found.findInodeByNum (found.inodes slot).inodeNum = some slot := by
  have invalid := fs.freeSlot_invalid free
  obtain ⟨-, type, size, valid, number, -⟩ := creation.new
  obtain ⟨rootDir, currentDir, -⟩ := creation.globals
  have others : ∀ other, other ≠ slot → (found.inodes other).valid = (fs.inodes other).valid :=
    fun other different => (creation.others other different).1.2.2.2.1
  obtain ⟨dir, here, isDir⟩ := sound.current
  have keeps := KeepsTree.of_returned made
    (create_keeps sound.tree sound.current (baseName path) typeFile true (.inl rfl))
  refine ⟨⟨keeps.1, keeps.2, creation.filesFit sound.fits, rootDir, currentDir, ?_, valid, type, ?_,
    ?_⟩, ?_⟩
  · rw [CurrentOk.getCurrentDir here] at creation
    simp only [namesWith, invalid, CurrentOk.getCurrentDir here]
    exact sound.tree.shows.create sound.tree isDir invalid creation
  · rw [content, creation.data_new typeFile_ne_typeDir, size, oldContent, invalid]
    rfl
  · intro other different
    refine ⟨others other different, fun isValid => ?_⟩
    obtain ⟨⟨-, sameType, sameSize, -⟩, -⟩ := creation.others other different
    refine ⟨sameType, fun isFile => ?_⟩
    have sameData := creation.data_other other different
      (.inr fun isDir => typeFile_ne_typeDir (isFile.symm.trans isDir))
    rw [content, content, sameData, sameSize]
  · refine findInodeByNum_unique valid fun other otherValid same => ?_
    by_contra different
    rw [others other different] at otherValid
    rw [(creation.others other different).1.2.2.2.2, number] at same
    exact sound.fresh other otherValid same

theorem Sound.opens (unused : freeDescriptor fs = some fd) (target : Target fs path memory slot) :
    ∃ now, fsOpen fs (some path) modeWrite memory = .ok (now, (fd.val : Int)) ∧
      Writing fs now path fd slot [] := by
  obtain ⟨resolved, isFile⟩ | ⟨missing, free, rfl⟩ := target
  · have existing := sound.existing resolved isFile
    refine ⟨_, ?_, existing.open (sound.lookup existing.valid)⟩
    simp only [fsOpen, sound.ready, openNode, resolved, openDescriptor, isFile, unused]
    rfl
  · obtain ⟨found, made, creation⟩ :=
      create_at sound.tree sound.current (baseName path) typeFile (.inl rfl) free
    obtain ⟨created, lookup⟩ := sound.created free made creation
    have sameUnused : freeDescriptor found = some fd := by
      rw [← unused]
      simp only [freeDescriptor, creation.globals.2.2.1]
    have opening : openNode fs path modeWrite true = .ok (found, some slot) := by
      simp only [openNode, missing, made]
      rfl
    refine ⟨_, ?_, created.open lookup⟩
    simp only [fsOpen, sound.ready, opening, openDescriptor, created.isFile, sameUnused]
    rfl

theorem Sound.refuses (refused : ∀ slot, ¬Target fs path memory slot) :
    ∃ after, fsOpen fs (some path) modeWrite memory = .ok (after, -1) ∧ Untouched fs after := by
  obtain ⟨node, resolved, -⟩ := sound.tree.resolve_valid sound.current (some path)
  have kept : Untouched fs fs := ⟨fun _ => rfl, fun _ _ => rfl, rfl, rfl⟩
  cases node with
  | some slot =>
    have notFile : (fs.inodes slot).type ≠ typeFile := fun isFile =>
      refused slot (.inl ⟨resolved, isFile⟩)
    refine ⟨fs, ?_, kept⟩
    simp only [fsOpen, sound.ready, openNode, resolved, openDescriptor, if_pos notFile]
    rfl
  | none =>
    obtain ⟨after, node, made, -⟩ :=
      create_keeps sound.tree sound.current (baseName path) typeFile memory (.inl rfl)
    have opened : fsOpen fs (some path) modeWrite memory =
        .ok (openDescriptor after node modeWrite) := by
      simp only [fsOpen, sound.ready, openNode, resolved, made]
      rfl
    obtain ⟨-, rfl, rfl⟩ | ⟨slot, free, rfl, -, -, rfl⟩ | ⟨slot, free, rfl, allocated, -⟩ :=
      fsCreateInode_cases made
    · exact ⟨_, opened, kept⟩
    · refine ⟨_, opened, (takeInode_invalid (fs.freeSlot_invalid free) (by rfl)).valid,
        fun other valid => takeInode_other fs slot other _ ?_, rfl, rfl⟩
      rintro rfl
      exact Bool.false_ne_true ((fs.freeSlot_invalid free).symm.trans valid)
    · exact absurd (.inr ⟨resolved, free, allocated rfl⟩) (refused slot)

end

section

variable {dst src : CString} {source gone : Slot}

-- A new entry can hide the file that a path led to, but no other one appears in its place.
theorem Sound.leads_namesWith (sound : Sound fs) (target : Target fs dst memory slot)
    (resolved : fsResolvePath fs (some src) = .ok (some source))
    (found : leads fs (namesWith fs dst slot) src = some gone) : gone = source ∨ gone = slot := by
  have led : leads fs (view fs) src = some source := by
    rw [sound.tree.shows.resolve sound.tree sound.current] at resolved
    exact Except.ok.inj resolved
  obtain ⟨existing, -⟩ | ⟨-, free, -⟩ := target
  · simp only [namesWith, sound.valid existing] at found
    exact .inl (Option.some.inj (found.symm.trans led))
  · have invalid := fs.freeSlot_invalid free
    have old : ∀ other, (fs.inodes other).valid = true → other ≠ slot := by
      rintro other valid rfl
      exact Bool.false_ne_true (invalid.symm.trans valid)
    obtain ⟨dir, here, isDir⟩ := sound.current
    obtain ⟨root, rootDir, rootIsDir, -⟩ := sound.tree.root
    have started : ∃ start, pathStart fs src = some start ∧ (fs.inodes start).valid = true := by
      rw [pathStart, CurrentOk.getCurrentDir here]
      split
      · exact ⟨root, rootDir, rootIsDir.1⟩
      · exact ⟨dir, rfl, isDir.1⟩
    obtain ⟨start, starts, startValid⟩ := started
    simp only [namesWith, invalid, CurrentOk.getCurrentDir here] at found
    rw [leads, starts] at led found
    refine NameTree.lookup_insert ?_ (old dir isDir.1).symm ?_ (.inl ⟨rfl, old start startValid⟩) led
      found
    · intro node entry member
      by_cases isDir : IsDir fs node
      · obtain ⟨valid, parent⟩ := (sound.tree.shows.members sound.tree isDir entry).mp member
        refine ⟨old entry valid, ?_⟩
        rw [sound.tree.shows.above entry valid, parent]
        rfl
      · have empty : (view fs).entries node = [] := if_neg isDir
        rw [empty] at member
        exact absurd member not_mem_nil
    · intro node above
      by_cases valid : (fs.inodes node).valid = true
      · obtain ⟨other, isAbove, otherValid⟩ := sound.tree.walkable.parentOrRoot_valid node valid
        rw [sound.tree.shows.above node valid, Except.ok.inj isAbove] at above
        exact old other otherValid (Option.some.inj above)
      · have nothing : (view fs).above node = none := if_neg valid
        rw [nothing] at above
        contradiction

theorem Overwritten.remove (overwritten : Overwritten fs now dst slot text)
    (resolved : fsResolvePath now (some src) = .ok (some gone))
    (isFile : (now.inodes gone).type = typeFile) :
    ∃ after, fsRemove now (some src) = .ok (after, 0) ∧ Removed now after gone ∧ KeepsTree after ∧
      (after.rootDir = fs.rootDir ∧ after.currentDir = fs.currentDir) ∧
      Shows after ((namesWith fs dst slot).remove gone) := by
  have notDir : (now.inodes gone).type ≠ typeDir := fun isDir =>
    typeFile_ne_typeDir (isFile.symm.trans isDir)
  have notRoot : now.rootDir ≠ some gone := by
    obtain ⟨root, rootDir, isDir, -⟩ := overwritten.tree.root
    rw [rootDir]
    rintro ⟨⟩
    exact notDir isDir.2
  have spares : fsResolvePath now (some src) ≠ .ok now.currentDir := by
    obtain ⟨dir, here, isDir⟩ := overwritten.current
    rw [resolved, here]
    rintro ⟨⟩
    exact notDir isDir.2
  obtain ⟨after, result, returned, keeps⟩ :=
    remove_keeps overwritten.tree overwritten.current spares
  have done : result = 0 := by
    simp only [fsRemove, resolved, removeNode, if_neg notRoot,
      if_neg (fun both => notDir (And.left both))] at returned
    split at returned
    · cases returned
      rfl
    · split at returned
      · contradiction
      · cases returned
        rfl
  subst done
  have links : after.rootDir = now.rootDir ∧ after.currentDir = now.currentDir := by
    obtain ⟨-, failed⟩ | ⟨_, unlinked, -, -, -, -, rfl, unlinking⟩ := fsRemove_cases returned
    · contradiction
    · obtain ⟨-, rfl⟩ | ⟨parent, -, unlinks⟩ := unlinking
      · exact ⟨rfl, rfl⟩
      · have same := unlinkChild_linksOnly unlinks
        exact ⟨same.rootDir, same.currentDir⟩
  obtain ⟨other, resolved', removed⟩ := fsRemove_removed overwritten.tree returned
  rw [resolved] at resolved'
  cases resolved'
  exact ⟨after, returned, removed, keeps, ⟨links.1.trans overwritten.rootDir,
    links.2.trans overwritten.currentDir⟩, overwritten.names.remove overwritten.tree removed links.1⟩

end

structure EntryName (path : CString) : Prop where
  nonempty : path.bytes ≠ []
  notDot : path.bytes ≠ dot
  notDotDot : path.bytes ≠ dotDot
  noSlash : slash ∉ path.bytes
  short : path.bytes.length ≤ 255

section

variable {dir : Slot} (named : EntryName path)

include named

theorem EntryName.components : components path.bytes [] = [path.bytes] := by
  have whole := Fields.fields_name named.nonempty named.noSlash
  rw [components_eq path.bytes [] not_mem_nil, nil_append, whole]
  intro name member
  rw [nil_append, whole, mem_singleton] at member
  rw [member]
  exact named.short

theorem EntryName.stored : (Name.strncpy (baseName path)).bytes = path.bytes := by
  have scan : ∀ text last : List UInt8, slash ∉ text → lastComponent last text = last := by
    intro text
    induction text with
    | nil => exact fun _ _ => rfl
    | cons c text ih =>
      intro last noSlash
      rw [mem_cons, not_or] at noSlash
      rw [lastComponent, if_neg (Ne.symm noSlash.1)]
      exact ih last noSlash.2
  rw [baseName, scan _ _ named.noSlash]
  exact congrArg Name.bytes (Name.strncpy_bytes ⟨path.bytes, path.noNul, named.short⟩)

theorem EntryName.leads (here : fs.currentDir = some dir) (t : Names) :
    leads fs t path = (t.entries dir).find? fun entry => t.name entry = path.bytes := by
  have relative : path.bytes.head? ≠ some slash := fun first =>
    named.noSlash (mem_of_head? first)
  rw [Fs.leads, named.components, pathStart, if_neg relative, CurrentOk.getCurrentDir here]
  simp [NameTree.lookup, NameTree.enter, named.notDot, named.notDotDot]

theorem Overwritten.resolves {text : List UInt8} (sound : Sound fs)
    (target : Target fs path memory slot) (overwritten : Overwritten fs now path slot text) :
    fsResolvePath now (some path) = .ok (some slot) := by
  rw [overwritten.names.resolve overwritten.tree overwritten.current, Fs.leads,
    pathStart_congr overwritten.rootDir overwritten.currentDir, ← Fs.leads]
  obtain ⟨resolved, -⟩ | ⟨-, free, -⟩ := target
  · rw [← resolved, sound.tree.shows.resolve sound.tree sound.current]
    simp only [namesWith, sound.valid resolved]
  · obtain ⟨dir, here, -⟩ := sound.current
    rw [named.leads here]
    simp only [namesWith, fs.freeSlot_invalid free, CurrentOk.getCurrentDir here]
    rw [NameTree.insert_entries_dir, List.find?_cons, NameTree.insert_name_new, named.stored,
      decide_eq_true rfl]

end

end ArgoOS.Fs
