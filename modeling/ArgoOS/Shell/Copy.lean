import ArgoOS.Fs.Overwrite
import ArgoOS.Shell.Reading

set_option autoImplicit false

/-! # Commands that write a file -/

namespace ArgoOS.Shell

open List Bytes

open Fs (FileSystem CString Slot Descriptor Readable SameHandles content freeDescriptor modeRead
  modeWrite Sound Target Overwritten Writing Untouched EntryName fsResolvePath typeFile)
open Text (ascii)

variable {size : UInt32} {s' : Session} {args : List CString}

variable {s : Session} {dst : CString} {slot : Slot}

section

variable {directory : List UInt8} {src : CString} {source : Slot}

structure Copies (s : Session) (source : Slot) (dst : CString) (slot : Slot) : Prop where
  descriptor : freeDescriptor s.files ≠ none
  nonempty : content s.files source ≠ []
  buffer : s.heap.finds (s.heap.calls + 1) (s.files.inodes source).size = true
  target : Target s.files dst (s.heap.finds (s.heap.calls + 2) (UInt32.ofNat Fs.maxFileSize)) slot

theorem writeCopy_copies (sound : Sound s.files) {fd : Descriptor}
    (unused : freeDescriptor s.files = some fd) (target : Target s.files dst
      (s.heap.finds s.heap.calls (UInt32.ofNat Fs.maxFileSize)) slot)
    (fits : size.toNat ≤ Fs.maxFileSize) (buffer : Nat) (bytes : Nat → UInt8) :
    ∃ s', writeCopy dst buffer bytes size s = .ok (0, s') ∧
      Overwritten s.files s'.files dst slot (window bytes 0 size.toNat) := by
  obtain ⟨now, opened, writing⟩ := sound.opens unused target
  obtain ⟨written, returned, writing⟩ := writing.write bytes size (by simpa using fits)
  have wrote : fsWrite fd.val bytes size ((s.withHeap s.heap.ask).withFiles now) =
      .ok ((size.toNat : Int), ((s.withHeap s.heap.ask).withFiles now).withFiles written) :=
    fsCall_ok returned
  refine ⟨((s.withHeap s.heap.ask).withFiles (Fs.fsClose written fd.val).1).withHeap
    (s.heap.ask.release buffer), ?_, writing.toOverwritten.close fd.val⟩
  rw [writeCopy, bind_ok (fsOpen_ok opened), if_neg (by omega), bind_ok wrote, bind_ok rfl,
    bind_ok rfl, if_neg (by simp [shortCount])]
  rfl

theorem writeCopy_refused (sound : Sound s.files) (refused : ∀ slot, ¬Target s.files dst
      (s.heap.finds s.heap.calls (UInt32.ofNat Fs.maxFileSize)) slot) (buffer : Nat)
    (bytes : Nat → UInt8) :
    ∃ s', writeCopy dst buffer bytes size s = .ok (-1, s') ∧ Untouched s.files s'.files := by
  obtain ⟨now, opened, untouched⟩ := sound.refuses refused
  rw [writeCopy, bind_ok (fsOpen_ok opened), if_pos (by decide), bind_ok rfl, bind_ok rfl]
  exact ⟨_, rfl, untouched⟩

section

variable (sound : Sound s.files) (resolved : fsResolvePath s.files (some src) = .ok (some source))
  (isFile : (s.files.inodes source).type = typeFile)

include sound resolved isFile

omit sound isFile in
theorem fsExists_source : fsExists src s = .ok (true, s) :=
  checked_ok (by rw [Fs.fsExists, resolved]; rfl)

omit sound in
theorem fsType_source : fsType src s = .ok (typeFile, s) :=
  checked_ok (by rw [Fs.fsType, resolved, ← isFile]; rfl)

theorem size_eq_zero : (s.files.inodes source).size = 0 ↔ content s.files source = [] := by
  rw [← length_eq_zero_iff, (sound.readable resolved isFile).content_length]
  exact UInt32.toNat_inj.symm

theorem copyFile_reads {fd : Descriptor} (unused : freeDescriptor s.files = some fd)
    (nonempty : content s.files source ≠ [])
    (found : s.heap.finds (s.heap.calls + 1) (s.files.inodes source).size = true) :
    ∃ files bytes, copyFile directory src dst s =
        writeCopy dst (s.heap.calls + 1) bytes (s.files.inodes source).size
          ((s.withHeap s.heap.ask.hold).withFiles files) ∧
      SameHandles s.files files ∧
      window bytes 0 (s.files.inodes source).size.toNat = content s.files source := by
  have readable := sound.readable resolved isFile
  have allocated : kmalloc (s.files.inodes source).size (s.reading source fd) =
      .ok (some s.heap.ask.calls, (s.reading source fd).withHeap s.heap.ask.hold) :=
    kmalloc_ok ((size_eq_zero sound resolved isFile).not.mpr nonempty) found
  obtain ⟨files, bytes, returned, whole, same⟩ :=
    fsRead_readable readable unused s.heap.ask.hold s.heap.ask.calls
  refine ⟨(Fs.fsClose files fd.val).1, bytes, ?_, same, whole⟩
  rw [copyFile, bind_ok (fsExists_source resolved), if_neg (by decide),
    bind_ok (fsType_source resolved isFile), if_neg (by decide),
    bind_ok (fsOpen_readable readable unused), if_neg (by omega),
    bind_ok fsSize_reading, bind_ok allocated]
  dsimp only
  rw [bind_ok returned]
  dsimp only
  rw [bind_ok rfl, if_neg (by simp [shortCount])]
  rfl

theorem copyFile_copies (copies : Copies s source dst slot) :
    ∃ s', copyFile directory src dst s = .ok (0, s') ∧
      Overwritten s.files s'.files dst slot (content s.files source) := by
  obtain ⟨descriptor, nonempty, buffer, target⟩ := copies
  obtain ⟨fd, unused⟩ := Option.ne_none_iff_exists'.mp descriptor
  obtain ⟨files, bytes, reads, same, whole⟩ :=
    copyFile_reads sound resolved isFile unused nonempty buffer
  obtain ⟨s', returned, overwritten⟩ :=
    writeCopy_copies (s := (s.withHeap s.heap.ask.hold).withFiles files) (sound.sameHandles same)
      (same.freeDescriptor.trans unused) ((Target.sameHandles sound same).mpr target)
      (sound.readable resolved isFile).fits (s.heap.calls + 1) bytes
  refine ⟨s', reads.trans returned, ?_⟩
  rw [← whole]
  exact overwritten.sameHandles same

theorem copyFile_stops (stops : ∀ slot, ¬Copies s source dst slot) :
    ∃ s', copyFile directory src dst s = .ok (-1, s') ∧ Untouched s.files s'.files := by
  have readable := sound.readable resolved isFile
  cases unused : freeDescriptor s.files with
  | none =>
    have refused : Fs.fsOpen s.files (some src) modeRead
        (s.heap.finds s.heap.calls (UInt32.ofNat Fs.maxFileSize)) = .ok (s.files, -1) := by
      simp [Fs.fsOpen, readable.ready, Fs.openNode, resolved, Fs.openDescriptor, isFile, unused]
    rw [copyFile, bind_ok (fsExists_source resolved), if_neg (by decide),
      bind_ok (fsType_source resolved isFile), if_neg (by decide), bind_ok (fsOpen_ok refused),
      if_pos (by decide), bind_ok rfl]
    exact ⟨_, rfl, (SameHandles.refl s.files).untouched⟩
  | some fd =>
    by_cases allocates : content s.files source ≠ [] ∧
        s.heap.finds (s.heap.calls + 1) (s.files.inodes source).size = true
    · obtain ⟨files, bytes, reads, same, -⟩ :=
        copyFile_reads sound resolved isFile unused allocates.1 allocates.2
      obtain ⟨s', returned, untouched⟩ :=
        writeCopy_refused (s := (s.withHeap s.heap.ask.hold).withFiles files)
          (sound.sameHandles same) (fun slot target => stops slot ⟨by simp [unused],
            allocates.1, allocates.2, (Target.sameHandles sound same).mp target⟩)
          (s.heap.calls + 1) bytes
      exact ⟨s', reads.trans returned, same.untouched.trans untouched⟩
    · have failed : kmalloc (s.files.inodes source).size (s.reading source fd) =
          .ok (none, (s.reading source fd).withHeap s.heap.ask.ask) := by
        refine if_neg (fun finds => allocates ⟨?_, finds.2⟩)
        exact (size_eq_zero sound resolved isFile).not.mp finds.1
      rw [copyFile, bind_ok (fsExists_source resolved), if_neg (by decide),
        bind_ok (fsType_source resolved isFile), if_neg (by decide),
        bind_ok (fsOpen_readable readable unused), if_neg (by omega), bind_ok fsSize_reading,
        bind_ok failed]
      dsimp only
      rw [bind_ok rfl, bind_ok rfl]
      exact ⟨_, rfl, (Fs.openEntry_oneMore unused _ modeRead).close.untouched⟩

end

end

def HoldsText (fs : FileSystem) (path : CString) (text : List UInt8) : Prop :=
  ∃ slot, fsResolvePath fs (some path) = .ok (some slot) ∧ (fs.inodes slot).type = typeFile ∧
    content fs slot = text

/-- The command returns 0, and `dst` holds `text` then. -/
def Replaces (command : ShellM Int) (s : Session) (dst : CString) (text : List UInt8) : Prop :=
  ∃ s', command s = .ok (0, s') ∧ HoldsText s'.files dst text

def NotLonger (fs : FileSystem) (dst : CString) (length : Nat) : Prop :=
  ∀ slot, fsResolvePath fs (some dst) = .ok (some slot) →
    (fs.inodes slot).type = typeFile ∧ (content fs slot).length ≤ length

section

variable (sound : Sound s.files)

include sound

theorem oldContent_le_iff {memory : Bool} (target : Target s.files dst memory slot) (length : Nat) :
    (Fs.oldContent s.files slot).length ≤ length ↔ NotLonger s.files dst length := by
  obtain ⟨resolved, isFile⟩ | ⟨missing, free, -⟩ := target
  · rw [Fs.oldContent, if_pos (sound.valid resolved)]
    refine ⟨fun short other same => ?_, fun notLonger => (notLonger slot resolved).2⟩
    obtain rfl : slot = other := Option.some.inj (Except.ok.inj (resolved.symm.trans same))
    exact ⟨isFile, short⟩
  · rw [Fs.oldContent, s.files.freeSlot_invalid free]
    refine ⟨fun _ other found => ?_, fun _ => Nat.zero_le _⟩
    exact absurd (Except.ok.inj (missing.symm.trans found)) (by simp)

theorem replaces_iff (named : EntryName dst) {memory : Bool}
    (target : Target s.files dst memory slot) {command : ShellM Int} {text : List UInt8}
    (returned : command s = .ok (0, s'))
    (overwritten : Overwritten s.files s'.files dst slot text) :
    Replaces command s dst text ↔ NotLonger s.files dst text.length := by
  have holds : content s'.files slot = text ↔ NotLonger s.files dst text.length := by
    rw [overwritten.content, append_right_eq_self, drop_eq_nil_iff,
      oldContent_le_iff sound target]
  rw [← holds]
  have resolves := overwritten.resolves named sound target
  constructor
  · rintro ⟨other, same, found, resolved, -, held⟩
    rw [returned] at same
    cases same
    rw [resolves] at resolved
    cases resolved
    exact held
  · exact fun held => ⟨s', returned, slot, resolves, overwritten.isFile, held⟩

theorem exists_target (inode : s.files.freeSlot ≠ none) (dst : CString) :
    (∃ slot, Target s.files dst true slot) ∨
      (∀ length, ¬NotLonger s.files dst length) ∧ ∀ slot, ¬Target s.files dst true slot := by
  obtain ⟨node, resolved, -⟩ := sound.tree.resolve_valid sound.current (some dst)
  cases node with
  | none =>
    obtain ⟨slot, free⟩ := Option.ne_none_iff_exists'.mp inode
    exact .inl ⟨slot, .inr ⟨resolved, free, rfl⟩⟩
  | some slot =>
    by_cases isFile : (s.files.inodes slot).type = typeFile
    · exact .inl ⟨slot, .inl ⟨resolved, isFile⟩⟩
    · refine .inr ⟨fun length notLonger => isFile (notLonger slot resolved).1, ?_⟩
      rintro other (⟨same, otherFile⟩ | ⟨missing, -⟩)
      · rw [resolved] at same
        cases same
        exact isFile otherFile
      · rw [resolved] at missing
        cases missing

theorem cmdCp_replaces_iff (named : EntryName dst) (inode : s.files.freeSlot ≠ none)
    (descriptor : freeDescriptor s.files ≠ none) (supplied : s.heap.Supplies Fs.maxFileSize)
    {name src : CString} {rest : List CString} {source : Slot}
    (resolved : fsResolvePath s.files (some src) = .ok (some source))
    (isFile : (s.files.inodes source).type = typeFile) :
    Replaces (cmdCp (name :: src :: dst :: rest)) s dst (content s.files source) ↔
      content s.files source ≠ [] ∧
      NotLonger s.files dst (content s.files source).length := by
  have fits := (sound.readable resolved isFile).fits
  have memory := supplied (s.heap.calls + 2) (UInt32.ofNat Fs.maxFileSize) (by decide)
  have stopped : (∀ slot, ¬Copies s source dst slot) →
      ¬Replaces (cmdCp (name :: src :: dst :: rest)) s dst (content s.files source) := by
    rintro stops ⟨s', returned, -⟩
    obtain ⟨other, failed, -⟩ := copyFile_stops sound resolved isFile stops
    cases returned.symm.trans failed
  by_cases empty : content s.files source = []
  · exact iff_of_false (stopped fun slot copies => copies.nonempty empty) fun holds => holds.1 empty
  · rw [and_iff_right empty]
    obtain ⟨slot, target⟩ | ⟨longer, refused⟩ := exists_target sound inode dst
    · rw [← memory] at target
      obtain ⟨s', returned, overwritten⟩ := copyFile_copies sound resolved isFile
        ⟨descriptor, empty, supplied _ _ fits, target⟩
      exact replaces_iff sound named target returned overwritten
    · refine iff_of_false (stopped fun slot copies => refused slot ?_) (longer _)
      rw [← memory]
      exact copies.target

end

section

variable {fs : FileSystem} {fd : Descriptor} {text : List UInt8}

theorem window_argBuffer (arg : List UInt8) : window (argBuffer arg) 0 arg.length = arg := by
  refine ext_getElem (window_length _ _ _) fun i _ inside => ?_
  simp [window, argBuffer, inside]

theorem fsWrite_writing (writing : Writing fs s.files dst fd slot text) (more : List UInt8)
    (room : text.length + more.length ≤ Fs.maxFileSize) :
    ∃ files, fsWrite fd.val (argBuffer more) (UInt32.ofNat more.length) s =
        .ok ((more.length : Int), s.withFiles files) ∧ Writing fs files dst fd slot (text ++ more) := by
  have limit : Fs.maxFileSize = 65536 := rfl
  have size : (UInt32.ofNat more.length).toNat = more.length := by
    rw [UInt32.toNat_ofNat', Nat.mod_eq_of_lt (by omega)]
  obtain ⟨files, returned, writing⟩ :=
    writing.write (argBuffer more) (UInt32.ofNat more.length) (by rwa [size])
  rw [size] at returned writing
  rw [window_argBuffer] at writing
  exact ⟨files, fsCall_ok returned, writing⟩

def joined (args : List CString) : List UInt8 :=
  (ascii " ").intercalate (args.map CString.bytes)

theorem writeArgs_writes (args : List CString) (writing : Writing fs s.files dst fd slot text)
    (room : text.length + (joined args).length ≤ Fs.maxFileSize) :
    ∃ files, writeArgs fd.val args s = .ok ((), s.withFiles files) ∧
      Writing fs files dst fd slot (text ++ joined args) := by
  induction args generalizing s text with
  | nil => exact ⟨s.files, rfl, by simpa [joined] using writing⟩
  | cons arg rest ih =>
    cases rest with
    | nil =>
      have same : joined [arg] = arg.bytes := by simp [joined]
      rw [same] at room ⊢
      obtain ⟨files, wrote, writing⟩ := fsWrite_writing writing arg.bytes room
      refine ⟨files, ?_, writing⟩
      rw [writeArgs, bind_ok wrote]
      rfl
    | cons next rest =>
      have split : joined (arg :: next :: rest) =
          arg.bytes ++ (ascii " " ++ joined (next :: rest)) := by
        simp [joined]
      rw [split, length_append, length_append] at room
      obtain ⟨files, wrote, writing⟩ := fsWrite_writing writing arg.bytes (by omega)
      obtain ⟨files', wrote', writing'⟩ :=
        fsWrite_writing (s := s.withFiles files) writing (ascii " ") (by
          rw [length_append]
          omega)
      obtain ⟨final, rest', writing''⟩ := ih (s := (s.withFiles files).withFiles files') writing' (by
        rw [length_append, length_append]
        omega)
      refine ⟨final, ?_, ?_⟩
      · rw [writeArgs, bind_ok wrote, if_pos (cons_ne_nil _ _)]
        exact (bind_ok wrote' _).trans rest'
      · rw [split, ← append_assoc, ← append_assoc]
        exact writing''

theorem redirection_args (plain : ∀ arg ∈ args, arg.bytes ≠ ascii ">") (dst : CString)
    (more : List CString) :
    redirection (args ++ literal ">" :: dst :: more) = some (args, dst) := by
  induction args with
  | nil => exact if_pos (by decide)
  | cons arg args ih =>
    have rest := ih fun other member => plain other (mem_cons_of_mem arg member)
    have different : Strings.strcmp arg.bytes (ascii ">") ≠ 0 :=
      (Strings.strcmp_eq_zero arg.noNul (by decide)).not.mpr (plain arg mem_cons_self)
    obtain ⟨next, tail, list⟩ : ∃ next tail, args ++ literal ">" :: dst :: more = next :: tail :=
      exists_cons_of_ne_nil (by simp)
    rw [list] at rest
    rw [cons_append, list, redirection, if_neg different, rest]
    rfl

theorem cmdEcho_redirected (plain : ∀ arg ∈ args, arg.bytes ≠ ascii ">") (name : CString) {dst : CString}
    (more : List CString) {fd : Int} (opened : fsOpen dst modeWrite s = .ok (fd, s')) :
    (fd < 0 → ∃ s'', cmdEcho (name :: args ++ literal ">" :: dst :: more) s = .ok (-1, s'')) ∧
    (¬fd < 0 → cmdEcho (name :: args ++ literal ">" :: dst :: more) s = (do
      writeArgs fd args
      let _ ← fsWrite fd (argBuffer (ascii "\n")) 1
      let _ ← fsClose fd
      return (0 : Int)) s') := by
  have redirected := redirection_args plain dst more
  obtain ⟨next, tail, list⟩ : ∃ next tail, args ++ literal ">" :: dst :: more = next :: tail :=
    exists_cons_of_ne_nil (by simp)
  rw [list] at redirected
  rw [cons_append, list, cmdEcho, redirected]
  dsimp only
  rw [bind_ok opened]
  constructor
  · intro failed
    rw [if_pos failed, bind_ok rfl, bind_ok rfl, bind_ok rfl]
    exact ⟨_, rfl⟩
  · intro isOpen
    rw [if_neg isOpen]

def echoText (args : List CString) : List UInt8 :=
  joined args ++ ascii "\n"

theorem cmdEcho_writes (plain : ∀ arg ∈ args, arg.bytes ≠ ascii ">") (name : CString)
    (more : List CString) {now : FileSystem} (opened : Fs.fsOpen s.files (some dst) modeWrite
      (s.heap.finds s.heap.calls (UInt32.ofNat Fs.maxFileSize)) = .ok (now, (fd.val : Int)))
    (writing : Writing fs now dst fd slot []) (room : (echoText args).length ≤ Fs.maxFileSize) :
    ∃ s', cmdEcho (name :: args ++ literal ">" :: dst :: more) s = .ok (0, s') ∧
      Overwritten fs s'.files dst slot (echoText args) := by
  rw [echoText, length_append] at room
  obtain ⟨files, wrote, writing⟩ := writeArgs_writes
    (s := (s.withHeap s.heap.ask).withFiles now) args writing (by rw [length_nil]; omega)
  obtain ⟨files', wrote', writing⟩ := fsWrite_writing
    (s := ((s.withHeap s.heap.ask).withFiles now).withFiles files) writing (ascii "\n") room
  refine ⟨((s.withHeap s.heap.ask).withFiles now).withFiles (Fs.fsClose files' fd.val).1, ?_,
    writing.toOverwritten.close fd.val⟩
  rw [(cmdEcho_redirected plain name more (fsOpen_ok opened)).2 (by omega), bind_ok wrote]
  exact bind_ok wrote' _

-- However long the text is, a file in the tree does not grow over 65536 bytes.
def Fit (fs : FileSystem) : Prop :=
  Fs.KeepsTree fs ∧ Fs.FilesFit fs

theorem Fit.operation {after : FileSystem} {operation : Fs.Operation} {result : Int} (fit : Fit fs)
    (keeps : Fs.KeepsCurrent fs operation)
    (applied : operation.apply fs = .ok (after, result)) : Fit after :=
  ⟨Fs.operation_tree fit.1.1 fit.1.2 keeps applied, Fs.operation_filesFit fit.2 applied⟩

theorem Fit.content_le (fit : Fit fs) {path : CString}
    (resolved : fsResolvePath fs (some path) = .ok (some slot))
    (isFile : (fs.inodes slot).type = typeFile) :
    (content fs slot).length ≤ Fs.maxFileSize := by
  obtain ⟨node, same, valid⟩ := fit.1.1.resolve_valid fit.1.2 (some path)
  rw [resolved] at same
  have isValid := valid slot (Except.ok.inj same).symm
  rw [Fs.content_length fit.2 isValid isFile]
  exact (fit.2 slot isValid isFile).1

theorem fsWrite_fit {fd result : Int} {buffer : Nat → UInt8} (fit : Fit s.files)
    (returned : fsWrite fd buffer size s = .ok (result, s')) : Fit s'.files := by
  obtain ⟨files, ran, rfl⟩ := fsCall_inv returned
  have keeps : Fs.KeepsCurrent s.files (.fsWrite fd (some buffer) size) := id
  exact fit.operation keeps ran

theorem writeArgs_fit {fd : Int} (fit : Fit s.files)
    (returned : writeArgs fd args s = .ok ((), s')) : Fit s'.files := by
  induction args generalizing s with
  | nil =>
    cases returned
    exact fit
  | cons arg rest ih =>
    obtain ⟨_, between, wrote, returned⟩ := bind_inv returned
    have fit := fsWrite_fit fit wrote
    split at returned
    · obtain ⟨_, between, wrote, returned⟩ := bind_inv returned
      exact ih (fsWrite_fit fit wrote) returned
    · exact ih fit returned

theorem cmdEcho_replaces_iff (sound : Sound s.files) (named : EntryName dst)
    (inode : s.files.freeSlot ≠ none) (descriptor : freeDescriptor s.files ≠ none)
    (supplied : s.heap.Supplies Fs.maxFileSize) {name : CString} {more : List CString}
    (plain : ∀ arg ∈ args, arg.bytes ≠ ascii ">") :
    Replaces (cmdEcho (name :: args ++ literal ">" :: dst :: more)) s dst (echoText args) ↔
      (echoText args).length ≤ Fs.maxFileSize ∧
      NotLonger s.files dst (echoText args).length := by
  obtain ⟨fd, unused⟩ := Option.ne_none_iff_exists'.mp descriptor
  have memory := supplied s.heap.calls (UInt32.ofNat Fs.maxFileSize) (by decide)
  obtain ⟨slot, target⟩ | ⟨longer, refused⟩ := exists_target sound inode dst
  · rw [← memory] at target
    obtain ⟨now, opened, writing⟩ := sound.opens unused target
    by_cases short : (echoText args).length ≤ Fs.maxFileSize
    · obtain ⟨s', returned, overwritten⟩ := cmdEcho_writes plain name more opened writing short
      rw [and_iff_right short]
      exact replaces_iff sound named target returned overwritten
    · refine iff_of_false ?_ fun holds => short holds.1
      rintro ⟨s', returned, found, resolved, isFile, held⟩
      rw [(cmdEcho_redirected plain name more (fsOpen_ok opened)).2 (by omega)] at returned
      obtain ⟨_, between, wrote, returned⟩ := bind_inv returned
      obtain ⟨_, between', wrote', returned⟩ := bind_inv returned
      have fit : Fit between'.files :=
        fsWrite_fit (writeArgs_fit ⟨⟨writing.tree, writing.current⟩, writing.fits⟩ wrote) wrote'
      have keeps : Fs.KeepsCurrent between'.files (.fsClose fd.val) := id
      have closed : Fit (Fs.fsClose between'.files fd.val).1 := fit.operation keeps rfl
      cases returned
      exact short (held ▸ closed.content_le resolved isFile)
  · rw [← memory] at refused
    obtain ⟨now, opened, -⟩ := sound.refuses refused
    refine iff_of_false ?_ fun holds => longer _ holds.2
    rintro ⟨s', returned, -⟩
    obtain ⟨other, failed⟩ :=
      (cmdEcho_redirected plain name more (fsOpen_ok opened)).1 (by decide)
    cases returned.symm.trans failed

end

theorem overwrite_iff {s : Session} {dst : CString} (sound : Sound s.files) (named : EntryName dst)
    (inode : s.files.freeSlot ≠ none) (descriptor : freeDescriptor s.files ≠ none)
    (supplied : s.heap.Supplies Fs.maxFileSize) :
    (∀ name src more source, fsResolvePath s.files (some src) = .ok (some source) →
      (s.files.inodes source).type = typeFile →
      (Replaces (cmdCp (name :: src :: dst :: more)) s dst (content s.files source) ↔
        content s.files source ≠ [] ∧
        NotLonger s.files dst (content s.files source).length)) ∧
    ∀ name args more, (∀ arg ∈ args, arg.bytes ≠ ascii ">") →
      (Replaces (cmdEcho (name :: args ++ literal ">" :: dst :: more)) s dst (echoText args) ↔
        (echoText args).length ≤ Fs.maxFileSize ∧
        NotLonger s.files dst (echoText args).length) :=
  ⟨fun _ _ _ _ => cmdCp_replaces_iff sound named inode descriptor supplied,
    fun _ _ _ => cmdEcho_replaces_iff sound named inode descriptor supplied⟩

def storing (path : CString) (text : List UInt8) : List Fs.Operation :=
  [.fsOpen (some path) modeWrite true,
    .fsWrite 0 (some (argBuffer text)) (UInt32.ofNat text.length), .fsClose 0]

theorem overwrite_iff_shorter : ∃ history files,
    Stepper.Run Fs.numberStep Fs.KeepsCurrent Fs.freshFs history files ∧
    Replaces (cmdCp [literal "cp", literal "a", literal "b"]) (freshSession files) (literal "b")
      (ascii "xy") ∧
    Replaces (cmdEcho [literal "echo", literal "p", literal "q", literal ">", literal "b"])
      (freshSession files) (literal "b") (ascii "p q\n") := by
  obtain ⟨history, files, run, passed⟩ := Stepper.Run.exists_of_actions Fs.numberStep
    Fs.KeepsCurrent Fs.freshFs (storing (literal "a") (ascii "xy") ++ storing (literal "b") (ascii "z"))
    (fun history files => decide (history.length ≤ 2 ∧
      fsResolvePath files (some (literal "a")) = .ok (some 1) ∧
      (files.inodes 1).type = typeFile ∧ content files 1 = ascii "xy" ∧
      fsResolvePath files (some (literal "b")) = .ok (some 2) ∧
      (files.inodes 2).type = typeFile ∧ (content files 2).length = 1 ∧
      files.freeSlot ≠ none ∧ freeDescriptor files ≠ none)) (by decide +kernel)
  obtain ⟨few, source, isFile, text, target, isFile', length, inode, descriptor⟩ :=
    of_decide_eq_true passed
  have short : ∀ n, 1 ≤ n → NotLonger files (literal "b") n := by
    intro n positive slot resolved
    cases Option.some.inj (Except.ok.inj (target.symm.trans resolved))
    exact ⟨isFile', length ▸ positive⟩
  have named : EntryName (literal "b") := ⟨by decide, by decide, by decide, by decide, by decide⟩
  have sound : Sound (freshSession files).files := Fs.sound_in_runs run (by omega)
  obtain ⟨copies, echoes⟩ := overwrite_iff sound named inode descriptor (fun _ _ _ => rfl)
  refine ⟨history, files, run, ?_, ?_⟩
  · rw [← text]
    refine (copies (literal "cp") (literal "a") [] 1 source isFile).mpr ?_
    change content files 1 ≠ [] ∧ NotLonger files (literal "b") (content files 1).length
    rw [text]
    exact ⟨by decide, short _ (by decide)⟩
  · exact (echoes (literal "echo") [literal "p", literal "q"] [] (by decide)).mpr
      ⟨by decide, short _ (by decide)⟩

def replaced (dst : CString) (slot : Slot) (text : List UInt8) (r : Int × Session) : Bool :=
  decide (r.1 = 0 ∧ fsResolvePath r.2.files (some dst) = .ok (some slot) ∧
    (r.2.files.inodes slot).type = typeFile ∧ content r.2.files slot = text)

theorem replaces_of_any {command : ShellM Int} {s : Session} {dst : CString} {slot : Slot}
    {text : List UInt8} (passed : (command s).toOption.any (replaced dst slot text) = true) :
    Replaces command s dst text := by
  obtain ⟨_, s', returned, checked⟩ := returned_of_any passed
  obtain ⟨rfl, resolved, isFile, held⟩ := of_decide_eq_true checked
  exact ⟨s', returned, slot, resolved, isFile, held⟩

-- A longer file keeps its end, and an empty file is not copied.
theorem longer_file_keeps_end : ∃ history files refused,
    Stepper.Run Fs.numberStep Fs.KeepsCurrent Fs.freshFs history files ∧
    (fsResolvePath files (some (literal "a")) = .ok (some 1) ∧ content files 1 = ascii "xy" ∧
      fsResolvePath files (some (literal "e")) = .ok (some 3) ∧ content files 3 = []) ∧
    Replaces (cmdCp [literal "cp", literal "a", literal "b"]) (freshSession files) (literal "b")
      (ascii "xyng") ∧
    Replaces (cmdEcho [literal "echo", literal "p", literal ">", literal "b"]) (freshSession files)
      (literal "b") (ascii "p\nng") ∧
    cmdCp [literal "cp", literal "e", literal "b"] (freshSession files) = .ok (-1, refused) := by
  obtain ⟨history, files, run, passed⟩ := Stepper.Run.exists_of_actions Fs.numberStep
    Fs.KeepsCurrent Fs.freshFs (storing (literal "a") (ascii "xy") ++
      storing (literal "b") (ascii "long") ++ storing (literal "e") [])
    (fun _ files => decide (fsResolvePath files (some (literal "a")) = .ok (some 1) ∧
        content files 1 = ascii "xy" ∧ fsResolvePath files (some (literal "e")) = .ok (some 3) ∧
        content files 3 = []) &&
      ((cmdCp [literal "cp", literal "a", literal "b"] (freshSession files)).toOption.any
        (replaced (literal "b") 2 (ascii "xyng")) &&
      ((cmdEcho [literal "echo", literal "p", literal ">", literal "b"]
        (freshSession files)).toOption.any (replaced (literal "b") 2 (ascii "p\nng")) &&
      (cmdCp [literal "cp", literal "e", literal "b"] (freshSession files)).toOption.any
        (fun r : Int × Session => decide (r.1 = -1))))) (by decide +kernel)
  simp only [Bool.and_eq_true, decide_eq_true_eq] at passed
  obtain ⟨before, copied, echoed, refused⟩ := passed
  obtain ⟨_, refused, failed, checked⟩ := returned_of_any refused
  obtain rfl := of_decide_eq_true checked
  exact ⟨history, files, refused, run, before, replaces_of_any copied, replaces_of_any echoed,
    failed⟩

end ArgoOS.Shell
