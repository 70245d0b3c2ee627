import ArgoOS.Fs.OpenSizes

set_option autoImplicit false

/-! # Appending through several descriptors -/

namespace ArgoOS.Fs

open List FileSystem Bytes

def content (fs : FileSystem) (slot : Slot) : List UInt8 :=
  match (fs.inodes slot).data with
  | .buffer bytes => Bytes.window bytes 0 (fs.inodes slot).size.toNat
  | .null | .child _ => []

-- The calls of writers that append: none of them seeks or reads.
def Operation.Appends (fs : FileSystem) (number : UInt32) (slot : Slot) : Operation → Prop
  | .fsOpen path mode _ => fsResolvePath fs path = .ok (some slot) ∧
      mode &&& modeWrite ≠ 0 ∧ mode &&& modeAppend ≠ 0
  | .fsWrite fd buffer _ => buffer.isSome = true ∧ ∃ index : Descriptor, fd = index.val ∧
      OpenOn fs number index
  | .fsClose _ => True
  | .fsRead _ _ _ | .fsSeek _ _ _ | .fsMkdir _ | .setCurrentDir _ | .fsRemove _ => False

instance (fs : FileSystem) (number : UInt32) (slot : Slot) :
    (operation : Operation) → Decidable (operation.Appends fs number slot)
  | .fsOpen _ _ _ => inferInstanceAs (Decidable (_ ∧ _ ∧ _))
  | .fsWrite _ _ _ => inferInstanceAs (Decidable (_ ∧ _))
  | .fsClose _ => .isTrue trivial
  | .fsRead _ _ _ | .fsSeek _ _ _ | .fsMkdir _ | .setCurrentDir _ | .fsRemove _ => .isFalse id

def Operation.chunks : Operation → List (List UInt8)
  | .fsWrite _ (some buffer) size => [Bytes.window buffer 0 size.toNat]
  | _ => []

-- The history has what the writes were given, newest first.
def appendStep (number : UInt32) (slot : Slot) (fs : FileSystem) (operation : Operation) :
    Option (FileSystem × List (List UInt8)) :=
  if operation.Appends fs number slot then
    (operation.apply fs).toOption.map (fun r => (r.1, operation.chunks))
  else none

-- The descriptor stands at the end of the file, or there is nothing to write.
def StandsAtEnd (fs : FileSystem) (slot : Slot) (index : Descriptor) (size : UInt32) : Prop :=
  (fs.fileDescriptors index).position.toNat + size.toNat < 2 ^ 32 ∧
    (size = 0 ∨ (fs.fileDescriptors index).position = (fs.inodes slot).size)

def WritesAtEnd (slot : Slot) (fs : FileSystem) : Operation → Prop
  | .fsWrite fd _ size => ∀ index : Descriptor, fd = index.val → StandsAtEnd fs slot index size
  | _ => True

instance (fs : FileSystem) (slot : Slot) (index : Descriptor) (size : UInt32) :
    Decidable (StandsAtEnd fs slot index size) :=
  inferInstanceAs (Decidable (_ ∧ _))

instance (slot : Slot) (fs : FileSystem) :
    (operation : Operation) → Decidable (WritesAtEnd slot fs operation)
  | .fsWrite fd _ size =>
    inferInstanceAs (Decidable (∀ index : Descriptor, fd = index.val → StandsAtEnd fs slot index size))
  | .fsOpen _ _ _ | .fsMkdir _ | .fsClose _ | .fsRead _ _ _ | .fsSeek _ _ _ | .setCurrentDir _
  | .fsRemove _ => .isTrue trivial

/-- The write of `data`, which copied `copied` bytes to the position of the descriptor, only
added to the end of the file. -/
structure Appended (fs after : FileSystem) (slot : Slot) (index : Descriptor) (data : List UInt8)
    (copied : Int) : Prop where
  apart : ∀ i, (fs.fileDescriptors index).position.toNat ≤ i →
    (i : Int) < (fs.fileDescriptors index).position.toNat + copied →
    (fs.inodes slot).size.toNat ≤ i
  size : (after.inodes slot).size.toNat = (fs.inodes slot).size.toNat +
    min data.length (maxFileSize - (fs.inodes slot).size.toNat)
  content : content after slot = (content fs slot ++ data).take maxFileSize

/-- What holds between the calls of appending writers: no descriptor is past the end. -/
structure Appending (fs : FileSystem) (number : UInt32) (slot : Slot) : Prop where
  names : NamesFile fs number slot
  fits : (fs.inodes slot).size.toNat ≤ maxFileSize
  bytes : ∃ bytes, (fs.inodes slot).data = .buffer bytes
  entries : ∀ fd, OpenOn fs number fd → (fs.fileDescriptors fd).mode &&& modeWrite ≠ 0 ∧
    (fs.fileDescriptors fd).position.toNat ≤ (fs.inodes slot).size.toNat

variable {fs after : FileSystem} {number : UInt32} {slot : Slot}

section

variable {index : Descriptor}

theorem Appending.openFile (appending : Appending fs number slot) (opened : OpenOn fs number index) :
    openFile fs index.val modeWrite = some (index, slot) :=
  openFile_val opened.1 (appending.entries index opened).1
    (opened.2 ▸ appending.names.lookup) appending.names.isFile

def Appending.file (appending : Appending fs number slot) (opened : OpenOn fs number index) :
    ByteFile where
  content := Fs.content fs slot
  position := (fs.fileDescriptors index).position.toNat
  within := by
    obtain ⟨bytes, data⟩ := appending.bytes
    rw [Fs.content, data, Bytes.window_length]
    exact (appending.entries index opened).2
  fits := by
    obtain ⟨bytes, data⟩ := appending.bytes
    rw [Fs.content, data, Bytes.window_length]
    exact appending.fits

theorem Appending.content_length (appending : Appending fs number slot) :
    (Fs.content fs slot).length = (fs.inodes slot).size.toNat := by
  obtain ⟨bytes, data⟩ := appending.bytes
  rw [Fs.content, data, window_length]

section

variable (appending : Appending fs number slot) (opened : OpenOn fs number index)
  (buffer : Nat → UInt8) (size : UInt32)

include appending opened buffer size

theorem Appending.fsWrite
    (noWrap : (fs.fileDescriptors index).position.toNat + size.toNat < 2 ^ 32) :
    ∃ after, Fs.fsWrite fs index.val (some buffer) size =
        .ok (after, ((appending.file opened).room size.toNat : Int)) ∧
      Appending after number slot ∧
      Fs.content after slot =
        ((appending.file opened).write (window buffer 0 size.toNat)).content := by
  obtain ⟨bytes, data⟩ := appending.bytes
  have behind := (appending.entries index opened).2
  have fits := appending.fits
  have room : (appending.file opened).room size.toNat =
      min size.toNat (maxFileSize - (fs.fileDescriptors index).position.toNat) := rfl
  obtain ⟨position, extent, returned, moved, reaches⟩ := fsWrite_eq (appending.openFile opened) data
    buffer size (Nat.le_trans behind fits) noWrap _ room
  have newSize : (if extent > (fs.inodes slot).size then extent else (fs.inodes slot).size).toNat =
      max (fs.inodes slot).size.toNat
        ((fs.fileDescriptors index).position.toNat + (appending.file opened).room size.toNat) := by
    rw [grownSize_toNat rfl, reaches]
  refine ⟨_, returned, ⟨⟨?_, ?_⟩, ?_, ?_, ?_⟩, ?_⟩
  · exact (setInode_lookup fs slot (by rfl) (by rfl) number).trans appending.names.lookup
  · rw [setDescriptor_inodes, setInode_self]
    exact appending.names.isFile
  · rw [setDescriptor_inodes, setInode_self, newSize]
    omega
  · rw [setDescriptor_inodes, setInode_self]
    exact ⟨_, rfl⟩
  · intro fd isOpen
    rw [setDescriptor_inodes, setInode_self, newSize]
    by_cases here : fd = index
    · subst here
      rw [setDescriptor_self, moved]
      exact ⟨(appending.entries fd opened).1, by omega⟩
    · rw [OpenOn, setDescriptor_other _ _ _ _ here] at isOpen
      rw [setDescriptor_other _ _ _ _ here]
      obtain ⟨mode, position⟩ := appending.entries fd isOpen
      exact ⟨mode, Nat.le_trans position (Nat.le_max_left _ _)⟩
  · have roomLe : (appending.file opened).room size.toNat ≤ size.toNat := Nat.min_le_left _ _
    have old : Fs.content fs slot = window bytes 0 (fs.inodes slot).size.toNat := by
      rw [Fs.content, data]
    have replaced := window_overwrite bytes buffer
      ((appending.file opened).room size.toNat) behind
    rw [← old] at replaced
    have new : ((appending.file opened).write (window buffer 0 size.toNat)).content =
        BoundedFile.overwrite (Fs.content fs slot) (fs.fileDescriptors index).position.toNat
          (window buffer 0 ((appending.file opened).room size.toNat)) := by
      simp only [BoundedFile.write, window_length]
      rw [window_take _ _ roomLe]
      rfl
    rw [new, ← replaced, Fs.content]
    simp only [setDescriptor_inodes, setInode_self]
    rw [newSize]

theorem Appending.fsWrite_wraps
    (wraps : 2 ^ 32 ≤ (fs.fileDescriptors index).position.toNat + size.toNat) :
    Fs.fsWrite fs index.val (some buffer) size = .error .outOfBounds := by
  obtain ⟨bytes, data⟩ := appending.bytes
  have inside := Nat.le_trans (appending.entries index opened).2 appending.fits
  exact Fs.fsWrite_wraps (appending.openFile opened) data buffer size inside wraps

theorem Appending.appended_iff :
    (∃ after copied, Fs.fsWrite fs index.val (some buffer) size = .ok (after, copied) ∧
      Appended fs after slot index (window buffer 0 size.toNat) copied) ↔
    StandsAtEnd fs slot index size := by
  have behind := (appending.entries index opened).2
  have fits := appending.fits
  have length := appending.content_length
  constructor
  · rintro ⟨after, copied, returned, appended⟩
    have noWrap : (fs.fileDescriptors index).position.toNat + size.toNat < 2 ^ 32 := by
      by_contra wraps
      rw [appending.fsWrite_wraps opened buffer size (Nat.le_of_not_lt wraps)] at returned
      contradiction
    refine ⟨noWrap, ?_⟩
    by_contra neither
    obtain ⟨nonempty, away⟩ := not_or.mp neither
    have positive : size.toNat ≠ 0 := fun zero => nonempty (UInt32.toNat_inj.mp zero)
    have before : (fs.fileDescriptors index).position.toNat ≠ (fs.inodes slot).size.toNat :=
      fun same => away (UInt32.toNat_inj.mp same)
    obtain ⟨after', returned', -⟩ := appending.fsWrite opened buffer size noWrap
    rw [returned] at returned'
    cases returned'
    have room : (appending.file opened).room size.toNat =
        min size.toNat (maxFileSize - (fs.fileDescriptors index).position.toNat) := rfl
    -- The first byte that is written belongs to the file.
    have inside := appended.apart (fs.fileDescriptors index).position.toNat (Nat.le_refl _)
      (by rw [room]; omega)
    omega
  · rintro ⟨noWrap, atEnd⟩
    obtain ⟨after, returned, appending', content'⟩ := appending.fsWrite opened buffer size noWrap
    have room : (appending.file opened).room size.toNat =
        min size.toNat (maxFileSize - (fs.fileDescriptors index).position.toNat) := rfl
    have appended : Fs.content after slot =
        (Fs.content fs slot ++ window buffer 0 size.toNat).take maxFileSize := by
      rw [content']
      rcases atEnd with rfl | here
      · have none : window buffer 0 (0 : UInt32).toNat = [] := rfl
        rw [none, append_nil, take_of_length_le (by rw [length]; exact fits)]
        simp only [BoundedFile.write, BoundedFile.overwrite, take_nil, append_nil,
          length_nil, Nat.add_zero, take_append_drop]
        rfl
      · refine ((appending.file opened).write_end _ ?_).1
        change (fs.fileDescriptors index).position.toNat = (Fs.content fs slot).length
        rw [length, here]
    refine ⟨after, _, returned, ?_, ?_, appended⟩
    · intro i reached below
      rcases atEnd with rfl | here
      · change (i : Int) < _ + ((min 0 _ : Nat) : Int) at below
        omega
      · rw [← here]
        exact reached
    · rw [← appending'.content_length, appended, length_take, length_append, length,
        window_length]
      omega

end

end

section

structure KeepsFile (fs after : FileSystem) (number : UInt32) (slot : Slot) : Prop where
  inodes : after.inodes = fs.inodes
  entries : ∀ fd, OpenOn after number fd →
    OpenOn fs number fd ∧ after.fileDescriptors fd = fs.fileDescriptors fd ∨
    (after.fileDescriptors fd).mode &&& modeWrite ≠ 0 ∧
      (after.fileDescriptors fd).position = (fs.inodes slot).size

theorem KeepsFile.appending (keeps : KeepsFile fs after number slot)
    (appending : Appending fs number slot) :
    Appending after number slot ∧ content after slot = content fs slot := by
  have lookup : after.findInodeByNum number = fs.findInodeByNum number :=
    findInodeByNum_same after (fun _ => by rw [keeps.inodes])
      (fun _ => by rw [keeps.inodes]) number
  refine ⟨⟨⟨lookup.trans appending.names.lookup, ?_⟩, ?_, ?_, fun fd opened => ?_⟩, ?_⟩
  · rw [keeps.inodes]
    exact appending.names.isFile
  · rw [keeps.inodes]
    exact appending.fits
  · rw [keeps.inodes]
    exact appending.bytes
  · rw [keeps.inodes]
    rcases keeps.entries fd opened with ⟨before, same⟩ | ⟨mode, position⟩
    · rw [same]
      exact appending.entries fd before
    · exact ⟨mode, by rw [position]⟩
  · rw [content, content, keeps.inodes]

theorem fsClose_keepsFile (fs : FileSystem) (fd : Int) (number : UInt32) (slot : Slot) :
    KeepsFile fs (fsClose fs fd).1 number slot := by
  unfold fsClose
  split
  · exact ⟨rfl, fun _ opened => .inl ⟨opened, rfl⟩⟩
  · next index _ =>
    refine ⟨rfl, fun other opened => .inl ?_⟩
    have different : other ≠ index := by
      rintro rfl
      rw [OpenOn, setDescriptor_self] at opened
      exact Bool.false_ne_true opened.1
    rw [OpenOn, setDescriptor_other _ _ _ _ different] at opened
    exact ⟨opened, setDescriptor_other _ _ _ _ different⟩

theorem fsOpen_keepsFile {path : Option CString} {mode : UInt32} {memory : Bool} {result : Int}
    (number : UInt32) (onFile : fsResolvePath fs path = .ok (some slot))
    (writes : mode &&& modeWrite ≠ 0) (appends : mode &&& modeAppend ≠ 0)
    (returned : fsOpen fs path mode memory = .ok (after, result)) :
    KeepsFile fs after number slot := by
  obtain rfl | ⟨fd, -, rfl⟩ := fsOpen_onFile onFile returned
  · exact ⟨rfl, fun _ opened => .inl ⟨opened, rfl⟩⟩
  · refine ⟨rfl, fun other opened => ?_⟩
    by_cases here : other = fd
    · subst here
      rw [setDescriptor_self]
      exact .inr ⟨writes, if_pos appends⟩
    · rw [OpenOn, setDescriptor_other _ _ _ _ here] at opened
      exact .inl ⟨opened, setDescriptor_other _ _ _ _ here⟩

theorem appendStep_cases {operation : Operation} {events : List (List UInt8)}
    (taken : appendStep number slot fs operation = some (after, events)) :
    operation.Appends fs number slot ∧ events = operation.chunks ∧
      ∃ result, operation.apply fs = .ok (after, result) := by
  unfold appendStep at taken
  split at taken
  · next appends =>
    obtain ⟨⟨fs', result⟩, returned, same⟩ := Option.map_eq_some_iff.mp taken
    cases same
    exact ⟨appends, rfl, result, ok_of_toOption returned⟩
  · contradiction

theorem appendStep_appending {operation : Operation} {events : List (List UInt8)}
    (appending : Appending fs number slot) (met : WritesAtEnd slot fs operation)
    (taken : appendStep number slot fs operation = some (after, events)) :
    Appending after number slot ∧
      content after slot = (content fs slot ++ events.reverse.flatten).take maxFileSize := by
  have whole : (content fs slot ++ ([] : List (List UInt8)).reverse.flatten).take maxFileSize =
      content fs slot := by
    rw [reverse_nil, flatten_nil, append_nil, take_of_length_le]
    rw [appending.content_length]
    exact appending.fits
  obtain ⟨appends, rfl, result, returned⟩ := appendStep_cases taken
  cases operation with
  | fsOpen path mode memory =>
    obtain ⟨appending', same⟩ :=
      (fsOpen_keepsFile number appends.1 appends.2.1 appends.2.2 returned).appending appending
    exact ⟨appending', same.trans whole.symm⟩
  | fsClose fd =>
    obtain rfl : (Fs.fsClose fs fd).1 = after := congrArg Prod.fst (Except.ok.inj returned)
    obtain ⟨appending', same⟩ := (fsClose_keepsFile fs fd number slot).appending appending
    exact ⟨appending', same.trans whole.symm⟩
  | fsWrite fd buffer size =>
    obtain ⟨given, index, rfl, opened⟩ := appends
    obtain ⟨source, rfl⟩ := Option.isSome_iff_exists.mp given
    have atEnd := met index rfl
    obtain ⟨after', result', returned', appended⟩ :=
      (appending.appended_iff opened source size).mpr atEnd
    obtain ⟨after'', returned'', appending', -⟩ := appending.fsWrite opened source size atEnd.1
    simp only [Operation.apply, returned''] at returned
    cases returned
    rw [returned''] at returned'
    cases returned'
    refine ⟨appending', ?_⟩
    rw [appended.content, Operation.chunks, reverse_singleton, flatten_singleton]
  | fsRead _ _ _ => exact absurd appends id
  | fsSeek _ _ _ => exact absurd appends id
  | fsMkdir _ => exact absurd appends id
  | setCurrentDir _ => exact absurd appends id
  | fsRemove _ => exact absurd appends id

end

theorem appends_in_runs {start state : FileSystem} {number : UInt32} {slot : Slot}
    (names : NamesFile start number slot) (fits : FilesFit start)
    (closed : ∀ fd, ¬ OpenOn start number fd) {history : List (List UInt8)}
    (run : Stepper.Run (appendStep number slot) (WritesAtEnd slot) start history state) :
    content state slot = (content start slot ++ history.reverse.flatten).take maxFileSize ∧
    ∀ index buffer size, OpenOn state number index →
      ((∃ after copied, fsWrite state index.val (some buffer) size = .ok (after, copied) ∧
        Appended state after slot index (Bytes.window buffer 0 size.toNat) copied) ↔
      StandsAtEnd state slot index size) := by
  obtain ⟨small, bytes⟩ := fits slot (start.findInodeByNum_spec names.lookup).1 names.isFile
  have initial : Appending start number slot :=
    ⟨names, small, bytes, fun fd opened => absurd opened (closed fd)⟩
  have reached : Appending state number slot ∧
      content state slot = (content start slot ++ history.reverse.flatten).take maxFileSize := by
    refine run.invariant (fun history fs => Appending fs number slot ∧
      content fs slot = (content start slot ++ history.reverse.flatten).take maxFileSize)
      ⟨initial, ?_⟩ ?_
    · rw [List.reverse_nil, List.flatten_nil, List.append_nil, List.take_of_length_le]
      rw [initial.content_length]
      exact small
    · rintro history before after operation events ⟨appending, content'⟩ met taken
      obtain ⟨appending', added⟩ := appendStep_appending appending met taken
      refine ⟨appending', ?_⟩
      rw [added, content', BoundedFile.take_take_append, List.append_assoc, List.reverse_append,
        List.flatten_append]
  exact ⟨reached.2, fun index buffer size opened => reached.1.appended_iff opened buffer size⟩

theorem oneFile_filesFit : FilesFit oneFile := by
  have none : FilesFit bootState := fun _ valid => absurd valid Bool.false_ne_true
  unfold oneFile
  split
  · next fs fd made =>
    obtain ⟨root, created, opened⟩ := Option.bind_eq_some_iff.mp made
    have opening : (Operation.fsOpen (some ⟨[97], by decide⟩) modeWrite true).apply root =
        .ok (fs, fd) := ok_of_toOption opened
    have closing : (Operation.fsClose fd).apply fs = .ok (fsClose fs fd) := rfl
    have rootFits := createRoot_filesFit none (ok_of_toOption created)
    exact operation_filesFit (operation_filesFit rootFits opening) closing
  · exact none

def openToAppend : Operation :=
  .fsOpen (some ⟨[97], letter_noNul⟩) (modeWrite ||| modeAppend) true

theorem appends_in_runs_two : ∃ history state,
    Stepper.Run (appendStep 2 1) (WritesAtEnd 1) oneFile history state ∧
    history.reverse.flatten = [7, 7, 8] ∧ content state 1 = [7, 7, 8] := by
  obtain ⟨history, state, run, passed⟩ := Stepper.Run.exists_of_actions (appendStep 2 1)
    (WritesAtEnd 1) oneFile
    [openToAppend, .fsWrite 0 (some fun _ => 7) 2, .fsClose 0, openToAppend,
      .fsWrite 0 (some fun _ => 8) 1]
    (fun history _ => decide (history.reverse.flatten = [7, 7, 8])) (by decide +kernel)
  have written := of_decide_eq_true passed
  refine ⟨history, state, run, written, ?_⟩
  have empty : content oneFile 1 = [] := by decide +kernel
  rw [(appends_in_runs oneFile_closed.1 oneFile_filesFit oneFile_closed.2 run).1, empty, written]
  decide

theorem second_writer_overwrites : ∃ history state,
    Stepper.Run (appendStep 2 1) (fun _ _ => True) oneFile history state ∧
    history.reverse.flatten = [7, 8] ∧ content oneFile 1 = [] ∧ content state 1 = [8] := by
  obtain ⟨history, state, run, passed⟩ := Stepper.Run.exists_of_actions (appendStep 2 1)
    (fun _ _ => True) oneFile
    [openToAppend, openToAppend, .fsWrite 0 (some fun _ => 7) 1, .fsWrite 1 (some fun _ => 8) 1]
    (fun history fs => decide (history.reverse.flatten = [7, 8] ∧ content fs 1 = [8]))
    (by decide +kernel)
  obtain ⟨written, left⟩ := of_decide_eq_true passed
  exact ⟨history, state, run, written, by decide +kernel, left⟩

end ArgoOS.Fs
