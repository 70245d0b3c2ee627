import ArgoOS.Shared.Run
import ArgoOS.Fs.ByteFile

set_option autoImplicit false

/-! # Several descriptors on one file -/

namespace ArgoOS.Fs

open FileSystem

structure NamesFile (fs : FileSystem) (number : UInt32) (slot : Slot) : Prop where
  lookup : fs.findInodeByNum number = some slot
  isFile : (fs.inodes slot).type = typeFile

def OpenOn (fs : FileSystem) (number : UInt32) (fd : Descriptor) : Prop :=
  (fs.fileDescriptors fd).valid = true ∧ (fs.fileDescriptors fd).inode = number

instance (fs : FileSystem) (number : UInt32) (fd : Descriptor) : Decidable (OpenOn fs number fd) :=
  inferInstanceAs (Decidable (_ ∧ _))

def Operation.OnFile (fs : FileSystem) (slot : Slot) : Operation → Prop
  | .fsOpen path _ _ => fsResolvePath fs path = .ok (some slot)
  | .fsClose _ | .fsRead _ _ _ | .fsWrite _ _ _ | .fsSeek _ _ _ => True
  | .fsMkdir _ | .setCurrentDir _ | .fsRemove _ => False

instance (fs : FileSystem) (slot : Slot) :
    (operation : Operation) → Decidable (operation.OnFile fs slot)
  | .fsOpen _ _ _ => inferInstanceAs (Decidable (_ = _))
  | .fsClose _ | .fsRead _ _ _ | .fsWrite _ _ _ | .fsSeek _ _ _ => .isTrue trivial
  | .fsMkdir _ | .setCurrentDir _ | .fsRemove _ => .isFalse id

def fileStep (slot : Slot) (fs : FileSystem) (operation : Operation) :
    Option (FileSystem × List Empty) :=
  if operation.OnFile fs slot then (operation.apply fs).toOption.map (fun r => (r.1, [])) else none

def soughtPosition (size position : UInt32) (offset : Int32) (whence : UInt32) : Option UInt32 :=
  let target :=
    if whence = 0 then some offset.toUInt32
    else if whence = 1 then some (position + offset.toUInt32)
    else if whence = 2 then some (size + offset.toUInt32)
    else none
  target.map (fun position => if position > size then size else position)

def sought (fs : FileSystem) (fd : Descriptor) : Option UInt32 → FileSystem × Int
  | none => (fs, -1)
  | some position =>
    (fs.setDescriptor fd { fs.fileDescriptors fd with position := position }, signed position)

structure SizesCurrent (fs : FileSystem) (number : UInt32) (slot : Slot) : Prop where
  size : ∀ fd : Descriptor, OpenOn fs number fd → fsSize fs fd.val = (fs.inodes slot).size
  seek : ∀ (fd : Descriptor) (offset : Int32) (whence : UInt32), OpenOn fs number fd →
    fsSeek fs fd.val offset whence = sought fs fd
      (soughtPosition (fs.inodes slot).size (fs.fileDescriptors fd).position offset whence)

-- A write does not make the file longer, or its descriptor is the only one on the file.
def GrowsAlone (number : UInt32) (slot : Slot) (fs : FileSystem) : Operation → Prop
  | .fsWrite fd buffer size => ∀ index, buffer.isSome = true →
      openFile fs fd modeWrite = some (index, slot) →
      (fs.inodes slot).size < (writeExtent (fs.fileDescriptors index).position size).2 →
      ∀ other, other ≠ index → ¬ OpenOn fs number other
  | _ => True

instance (number : UInt32) (slot : Slot) (fs : FileSystem) (operation : Operation) :
    Decidable (GrowsAlone number slot fs operation) := by
  unfold GrowsAlone
  split <;> infer_instance

variable {result : Int}

section

variable {fs after : FileSystem} {number : UInt32} {slot : Slot}

def CopiesAgree (fs : FileSystem) (number : UInt32) (slot : Slot) : Prop :=
  ∀ fd, OpenOn fs number fd → (fs.fileDescriptors fd).size = (fs.inodes slot).size

theorem fsSize_open {fd : Descriptor} (opened : OpenOn fs number fd) :
    fsSize fs fd.val = (fs.fileDescriptors fd).size := by
  simp only [fsSize, validDescriptor_val fs fd opened.1]

theorem fsSeek_open {fd : Descriptor} (opened : OpenOn fs number fd) (offset : Int32)
    (whence : UInt32) : fsSeek fs fd.val offset whence = sought fs fd
      (soughtPosition (fs.fileDescriptors fd).size (fs.fileDescriptors fd).position offset
        whence) := by
  have same : soughtPosition (fs.fileDescriptors fd).size (fs.fileDescriptors fd).position offset
      whence = (seekTarget (fs.fileDescriptors fd) offset whence).map (fun target =>
        if target > (fs.fileDescriptors fd).size then (fs.fileDescriptors fd).size else target) := rfl
  rw [same]
  simp only [fsSeek, validDescriptor_val fs fd opened.1]
  cases seekTarget (fs.fileDescriptors fd) offset whence <;> rfl

theorem sizesCurrent_iff : SizesCurrent fs number slot ↔ CopiesAgree fs number slot := by
  refine ⟨fun current fd opened => ?_, fun agree => ⟨fun fd opened => ?_, fun fd _ _ opened => ?_⟩⟩
  · rw [← current.size fd opened, fsSize_open opened]
  · rw [fsSize_open opened, agree fd opened]
  · rw [fsSeek_open opened, agree fd opened]

theorem NamesFile.inodeNum (names : NamesFile fs number slot) :
    (fs.inodes slot).inodeNum = number :=
  (fs.findInodeByNum_spec names.lookup).2

theorem NamesFile.fileStep (names : NamesFile fs number slot) (step : FileStep fs after) :
    NamesFile after number slot := by
  have kept : ∀ other, (after.inodes other).valid = (fs.inodes other).valid ∧
      (after.inodes other).inodeNum = (fs.inodes other).inodeNum ∧
      (after.inodes other).type = (fs.inodes other).type := by
    intro other
    obtain same | ⟨-, bytes, size, -, written⟩ := step.inodes other
    · rw [same]
      exact ⟨rfl, rfl, rfl⟩
    · rw [written]
      exact ⟨rfl, rfl, rfl⟩
  refine ⟨?_, (kept slot).2.2.trans names.isFile⟩
  rw [findInodeByNum_same after (fun other => (kept other).1)
    (fun other => (kept other).2.1)]
  exact names.lookup

structure KeepsSizes (fs after : FileSystem) : Prop where
  inodes : after.inodes = fs.inodes
  entries : ∀ fd, (after.fileDescriptors fd).valid = true → (fs.fileDescriptors fd).valid = true ∧
    (after.fileDescriptors fd).inode = (fs.fileDescriptors fd).inode ∧
    (after.fileDescriptors fd).size = (fs.fileDescriptors fd).size

theorem KeepsSizes.refl (fs : FileSystem) : KeepsSizes fs fs := ⟨rfl, fun _ valid => ⟨valid, rfl, rfl⟩⟩

theorem setDescriptor_keepsSizes {index : Descriptor} {entry : FileDescriptor}
    (valid : entry.valid = true → (fs.fileDescriptors index).valid = true)
    (inode : entry.inode = (fs.fileDescriptors index).inode)
    (size : entry.size = (fs.fileDescriptors index).size) :
    KeepsSizes fs (fs.setDescriptor index entry) := by
  refine ⟨rfl, fun fd opened => ?_⟩
  by_cases here : fd = index
  · subst here
    rw [fs.setDescriptor_self] at opened ⊢
    exact ⟨valid opened, inode, size⟩
  · rw [fs.setDescriptor_other index fd entry here] at opened ⊢
    exact ⟨opened, rfl, rfl⟩

theorem fsClose_keepsSizes (fs : FileSystem) (fd : Int) : KeepsSizes fs (fsClose fs fd).1 := by
  unfold fsClose
  split
  · exact .refl fs
  · exact setDescriptor_keepsSizes nofun rfl rfl

theorem fsSeek_keepsSizes (fs : FileSystem) (fd : Int) (offset : Int32) (whence : UInt32) :
    KeepsSizes fs (fsSeek fs fd offset whence).1 := by
  unfold fsSeek
  split
  · exact .refl fs
  · simp only
    split
    · exact .refl fs
    · exact setDescriptor_keepsSizes id rfl rfl

theorem fsRead_keepsSizes {fd : Int} {buffer target : Option (Nat → UInt8)} {size : UInt32}
    (returned : fsRead fs fd buffer size = .ok (after, result, target)) : KeepsSizes fs after := by
  unfold fsRead at returned
  split at returned
  · simp only at returned
    split at returned
    · cases returned
      exact .refl _
    · split at returned
      · contradiction
      · cases returned
        exact setDescriptor_keepsSizes id rfl rfl
  · cases returned
    exact .refl _

theorem KeepsSizes.copiesAgree (keeps : KeepsSizes fs after) (agree : CopiesAgree fs number slot) :
    CopiesAgree after number slot := by
  intro fd opened
  obtain ⟨valid, inode, size⟩ := keeps.entries fd opened.1
  rw [size, keeps.inodes]
  exact agree fd ⟨valid, inode ▸ opened.2⟩

section

variable {path : Option CString} {mode : UInt32} {memory : Bool}
    (onFile : fsResolvePath fs path = .ok (some slot))

include onFile

theorem fsOpen_onFile (returned : fsOpen fs path mode memory = .ok (after, result)) :
    after = fs ∨ ∃ fd, freeDescriptor fs = some fd ∧
      after = fs.setDescriptor fd (openEntry (fs.inodes slot) mode) := by
  obtain ⟨rfl, -⟩ | ⟨text, found, node, rfl, -, opening, described⟩ := fsOpen_cases returned
  · exact .inl rfl
  · obtain ⟨rfl, resolved⟩ | ⟨missing, -⟩ := openNode_cases opening
    · rw [onFile] at resolved
      cases resolved
      obtain failed | ⟨slot', fd, same, -, free, given⟩ :=
        openDescriptor_cases found (some slot) mode
      · rw [failed] at described
        cases described
        exact .inl rfl
      · cases same
        rw [given] at described
        cases described
        exact .inr ⟨fd, free, rfl⟩
    · rw [onFile] at missing
      cases missing

theorem fsOpen_copiesAgree (agree : CopiesAgree fs number slot)
    (returned : fsOpen fs path mode memory = .ok (after, result)) :
    after.inodes = fs.inodes ∧ CopiesAgree after number slot := by
  obtain rfl | ⟨fd, -, rfl⟩ := fsOpen_onFile onFile returned
  · exact ⟨rfl, agree⟩
  · refine ⟨rfl, fun other opened => ?_⟩
    by_cases here : other = fd
    · subst here
      rw [fs.setDescriptor_self]
      rfl
    · rw [OpenOn, fs.setDescriptor_other fd other _ here] at opened
      rw [fs.setDescriptor_other fd other _ here]
      exact agree other opened

end

-- The only step that can part the copies is a write that makes the file longer.
theorem fsWrite_copiesAgree_iff {fd : Int} {buffer : Option (Nat → UInt8)} {size : UInt32}
    (names : NamesFile fs number slot) (agree : CopiesAgree fs number slot)
    (returned : fsWrite fs fd buffer size = .ok (after, result)) :
    CopiesAgree after number slot ↔ GrowsAlone number slot fs (.fsWrite fd buffer size) := by
  obtain ⟨rfl, -, nothing⟩ | ⟨source, index, slot', bytes, rfl, found, -, -, rfl⟩ :=
    fsWrite_cases returned
  · refine ⟨fun _ index given found => ?_, fun _ => agree⟩
    rcases nothing with rfl | closed
    · contradiction
    · rw [closed] at found
      contradiction
  · obtain ⟨valid, -, lookup, -⟩ := openFile_cases found
    by_cases here : slot' = slot
    · subst here
      have onFile : OpenOn fs number index := by
        refine ⟨(validDescriptor_cases valid).2, ?_⟩
        rw [← (fs.findInodeByNum_spec lookup).2]
        exact names.inodeNum
      have others : ∀ other, other ≠ index → ∀ entry node,
          ((fs.setInode slot' node).setDescriptor index entry).fileDescriptors other =
            fs.fileDescriptors other :=
        fun other different entry node => setDescriptor_other _ index other entry different
      by_cases grows : (fs.inodes slot').size <
          (writeExtent (fs.fileDescriptors index).position size).2
      · simp only [gt_iff_lt, if_pos grows]
        refine ⟨fun agrees index' _ found' _ other different opened => ?_, fun alone other opened => ?_⟩
        · rw [found] at found'
          cases found'
          have stale := agrees other (by rwa [OpenOn, others other different])
          rw [others other different, setDescriptor_inodes, setInode_self,
            agree other opened] at stale
          rw [UInt32.lt_iff_toNat_lt, stale] at grows
          exact Nat.lt_irrefl _ grows
        · have same : other = index := by
            by_contra different
            rw [OpenOn, others other different] at opened
            exact alone index rfl found grows other different opened
          subst same
          rw [setDescriptor_self, setDescriptor_inodes,
            setInode_self]
      · simp only [gt_iff_lt, if_neg grows]
        refine ⟨fun _ index' _ found' grows' => ?_, fun _ other opened => ?_⟩
        · rw [found] at found'
          cases found'
          exact absurd grows' grows
        · rw [setDescriptor_inodes, setInode_self]
          by_cases same : other = index
          · subst same
            rw [setDescriptor_self]
            exact agree other onFile
          · rw [OpenOn, others other same] at opened
            rw [others other same]
            exact agree other opened
    · -- The write goes to another file, whose descriptors have another number.
      have away : ¬ OpenOn fs number index := by
        intro onFile
        rw [onFile.2, names.lookup] at lookup
        exact here (Option.some.inj lookup).symm
      refine ⟨fun _ index' _ found' => ?_, fun _ other opened => ?_⟩
      · rw [found] at found'
        cases found'
        exact absurd rfl here
      · have different : other ≠ index := by
          rintro rfl
          rw [OpenOn, setDescriptor_self] at opened
          exact away ⟨(validDescriptor_cases valid).2, opened.2⟩
        rw [OpenOn, setDescriptor_other _ _ _ _ different] at opened
        rw [setDescriptor_other _ _ _ _ different, setDescriptor_inodes,
          setInode_other _ _ _ _ (Ne.symm here)]
        exact agree other opened

theorem fileStep_cases {operation : Operation} {events : List Empty}
    (taken : Fs.fileStep slot fs operation = some (after, events)) :
    operation.OnFile fs slot ∧ ∃ result, operation.apply fs = .ok (after, result) := by
  unfold Fs.fileStep at taken
  split at taken
  · next onFile =>
    obtain ⟨⟨fs', result⟩, returned, same⟩ := Option.map_eq_some_iff.mp taken
    cases same
    exact ⟨onFile, result, ok_of_toOption returned⟩
  · contradiction

theorem fileStep_copiesAgree_iff {operation : Operation} {events : List Empty}
    (names : NamesFile fs number slot) (agree : CopiesAgree fs number slot)
    (taken : Fs.fileStep slot fs operation = some (after, events)) :
    NamesFile after number slot ∧
      (CopiesAgree after number slot ↔ GrowsAlone number slot fs operation) := by
  obtain ⟨onFile, result, returned⟩ := fileStep_cases taken
  cases operation with
  | fsOpen path mode memory =>
    obtain ⟨same, agree'⟩ := fsOpen_copiesAgree onFile agree returned
    have lookup : after.findInodeByNum number = fs.findInodeByNum number :=
      findInodeByNum_same after (fun _ => by rw [same]) (fun _ => by rw [same]) number
    exact ⟨⟨lookup.trans names.lookup, by rw [same]; exact names.isFile⟩, fun _ => trivial,
      fun _ => agree'⟩
  | fsClose fd =>
    refine ⟨names.fileStep (Operation.onFile_fileStep rfl returned), fun _ => trivial, fun _ => ?_⟩
    obtain rfl : (Fs.fsClose fs fd).1 = after := congrArg Prod.fst (Except.ok.inj returned)
    exact (fsClose_keepsSizes fs fd).copiesAgree agree
  | fsRead fd buffer size =>
    refine ⟨names.fileStep (Operation.onFile_fileStep rfl returned), fun _ => trivial, fun _ => ?_⟩
    simp only [Operation.apply] at returned
    cases reading : Fs.fsRead fs fd buffer size with
    | error fault =>
      rw [reading] at returned
      contradiction
    | ok read =>
      rw [reading] at returned
      cases returned
      exact (fsRead_keepsSizes reading).copiesAgree agree
  | fsSeek fd offset whence =>
    refine ⟨names.fileStep (Operation.onFile_fileStep rfl returned), fun _ => trivial, fun _ => ?_⟩
    obtain rfl : (Fs.fsSeek fs fd offset whence).1 = after :=
      congrArg Prod.fst (Except.ok.inj returned)
    exact (fsSeek_keepsSizes fs fd offset whence).copiesAgree agree
  | fsWrite fd buffer size =>
    exact ⟨names.fileStep (fsWrite_fileStep returned), fsWrite_copiesAgree_iff names agree returned⟩
  | fsMkdir _ => exact absurd onFile id
  | setCurrentDir _ => exact absurd onFile id
  | fsRemove _ => exact absurd onFile id

end

theorem sizes_current_in_runs {start state : FileSystem} {number : UInt32} {slot : Slot}
    (names : NamesFile start number slot) (closed : ∀ fd, ¬ OpenOn start number fd)
    {history : List Empty}
    (run : Stepper.Run (fileStep slot) (fun fs => GrowsAlone number slot fs) start history state) :
    SizesCurrent state number slot ∧
    ∀ operation after events, fileStep slot state operation = some (after, events) →
      (SizesCurrent after number slot ↔ GrowsAlone number slot state operation) := by
  have reached : NamesFile state number slot ∧ CopiesAgree state number slot := by
    refine run.invariant (fun _ fs => NamesFile fs number slot ∧ CopiesAgree fs number slot)
      ⟨names, fun fd opened => absurd opened (closed fd)⟩ ?_
    rintro _ before after operation events ⟨names, agree⟩ met taken
    obtain ⟨names', iff⟩ := fileStep_copiesAgree_iff names agree taken
    exact ⟨names', iff.mpr met⟩
  refine ⟨sizesCurrent_iff.mpr reached.2, fun operation after events taken => ?_⟩
  rw [sizesCurrent_iff]
  exact (fileStep_copiesAgree_iff reached.1 reached.2 taken).2

def oneFile : FileSystem :=
  match (createRoot bootState).toOption.bind
      (fun fs => (fsOpen fs (some ⟨[97], letter_noNul⟩) modeWrite true).toOption) with
  | some (fs, fd) => (fsClose fs fd).1
  | none => bootState

theorem oneFile_closed : NamesFile oneFile 2 1 ∧ ∀ fd, ¬ OpenOn oneFile 2 fd :=
  ⟨⟨by decide +kernel, by decide +kernel⟩, by decide +kernel⟩

def openBoth : Operation := .fsOpen (some ⟨[97], letter_noNul⟩) (modeRead ||| modeWrite) true

theorem sizes_current_in_runs_two : ∃ history state,
    Stepper.Run (fileStep 1) (fun fs => GrowsAlone 2 1 fs) oneFile history state ∧
    OpenOn state 2 0 ∧ OpenOn state 2 1 ∧ (state.inodes 1).size = 3 ∧ SizesCurrent state 2 1 := by
  obtain ⟨history, state, run, passed⟩ := Stepper.Run.exists_of_actions (fileStep 1)
    (fun fs => GrowsAlone 2 1 fs) oneFile
    [openBoth, .fsWrite 0 (some fun _ => 7) 3, openBoth, .fsWrite 1 (some fun _ => 8) 2,
      .fsSeek 0 (-1) 2]
    (fun _ fs => decide (OpenOn fs 2 0 ∧ OpenOn fs 2 1 ∧ (fs.inodes 1).size = 3))
    (by decide +kernel)
  obtain ⟨first, second, size⟩ := of_decide_eq_true passed
  exact ⟨history, state, run, first, second, size,
    (sizes_current_in_runs oneFile_closed.1 oneFile_closed.2 run).1⟩

theorem second_descriptor_stale : ∃ history state,
    Stepper.Run (fileStep 1) (fun _ _ => True) oneFile history state ∧ OpenOn state 2 1 ∧
    (state.inodes 1).size = 1 ∧ fsSize state 1 = 0 ∧ (fsSeek state 1 0 2).2 = 0 ∧
    ¬ SizesCurrent state 2 1 := by
  obtain ⟨history, state, run, passed⟩ := Stepper.Run.exists_of_actions (fileStep 1)
    (fun _ _ => True) oneFile [openBoth, openBoth, .fsWrite 0 (some fun _ => 7) 1]
    (fun _ fs => decide (OpenOn fs 2 1 ∧ (fs.inodes 1).size = 1 ∧ fsSize fs 1 = 0 ∧
      (fsSeek fs 1 0 2).2 = 0))
    (by decide +kernel)
  obtain ⟨opened, size, stored, sought⟩ := of_decide_eq_true passed
  refine ⟨history, state, run, opened, size, stored, sought, fun current => ?_⟩
  have same := current.size 1 opened
  rw [size] at same
  exact absurd (same.symm.trans stored) (by decide)

end ArgoOS.Fs
