import ArgoOS.Fs.WholeFile
import ArgoOS.Shell.Commands

set_option autoImplicit false

/-! # Commands that read a file -/

namespace ArgoOS.Shell

open Function

open Fs (CString Slot Descriptor Readable SameHandles content freeDescriptor modeRead openEntry)

section

variable {s : Session} {filename : CString} {slot : Slot} {fd : Descriptor}

def Session.reading (s : Session) (slot : Slot) (fd : Descriptor) : Session :=
  (s.withHeap s.heap.ask).withFiles
    (s.files.setDescriptor fd (openEntry (s.files.inodes slot) modeRead))

theorem fsOpen_readable (readable : Readable s.files filename slot)
    (free : freeDescriptor s.files = some fd) :
    fsOpen filename modeRead s = .ok ((fd.val : Int), s.reading slot fd) :=
  fsOpen_ok (readable.fsOpen free modeRead _)

theorem fsSize_reading :
    fsSize fd.val (s.reading slot fd) = .ok ((s.files.inodes slot).size, s.reading slot fd) := by
  rw [fsSize, Session.reading, Session.withFiles_files, Fs.openEntry_fsSize]

theorem openForReading_ok (readable : Readable s.files filename slot)
    (free : freeDescriptor s.files = some fd) :
    openForReading filename s = .ok (some (fd.val : Int), s.reading slot fd) := by
  rw [openForReading, bind_ok (fsOpen_readable readable free), if_neg (by omega)]
  rfl

structure Loaded (text : List UInt8) (bytes : Nat → UInt8) : Prop where
  content : Bytes.window bytes 0 text.length = text
  terminated : bytes text.length = 0

section

variable (readable : Readable s.files filename slot)

include readable

theorem fsRead_readable (free : freeDescriptor s.files = some fd) (heap : Heap) (buffer : Nat) :
    ∃ files bytes, fsRead fd.val buffer (s.files.inodes slot).size
        ((s.reading slot fd).withHeap heap) =
        .ok (((s.files.inodes slot).size.toNat, bytes), (s.withHeap heap).withFiles files) ∧
      Bytes.window bytes 0 (s.files.inodes slot).size.toNat = content s.files slot ∧
      SameHandles s.files (Fs.fsClose files fd.val).1 := by
  obtain ⟨files, bytes, returned, whole⟩ := readable.fsRead (heap.garbage buffer)
  refine ⟨files, bytes, ?_, whole, ?_⟩
  · rw [fsRead, fsCall]
    dsimp only [Session.withHeap, Session.reading, Session.withFiles]
    rw [returned]
    rfl
  · have opened := Fs.openEntry_oneMore free (s.files.inodes slot) modeRead
    exact (opened.trans (Fs.fsRead_sameHandles returned)).close

theorem readWhole_ok (free : freeDescriptor s.files = some fd)
    (supplied : s.heap.Supplies (Fs.maxFileSize + 1)) :
    ∃ files bytes, readWhole fd.val (s.files.inodes slot).size (s.reading slot fd) =
        .ok (some (s.heap.ask.calls, bytes), (s.withHeap s.heap.ask.hold).withFiles files) ∧
      SameHandles s.files files ∧ Loaded (content s.files slot) bytes := by
  have fits := readable.fits
  have limit : Fs.maxFileSize = 65536 := rfl
  have length := readable.content_length
  have room : ((s.files.inodes slot).size + 1).toNat = (s.files.inodes slot).size.toNat + 1 := by
    rw [UInt32.toNat_add, Nat.mod_eq_of_lt]
    · rfl
    · change (s.files.inodes slot).size.toNat + 1 < 2 ^ 32
      omega
  have positive : (s.files.inodes slot).size + 1 ≠ 0 := by
    intro zero
    rw [zero] at room
    contradiction
  have allocated : kmalloc ((s.files.inodes slot).size + 1) (s.reading slot fd) =
      .ok (some s.heap.ask.calls, (s.reading slot fd).withHeap s.heap.ask.hold) :=
    kmalloc_ok positive (supplied _ _ (by omega))
  obtain ⟨files, bytes, returned, whole, same⟩ :=
    fsRead_readable readable free s.heap.ask.hold s.heap.ask.calls
  refine ⟨(Fs.fsClose files fd.val).1, update bytes (s.files.inodes slot).size.toNat 0,
    ?_, same, ?_, ?_⟩
  · rw [readWhole, bind_ok allocated]
    dsimp only
    rw [bind_ok returned]
    dsimp only
    rw [bind_ok rfl, if_neg (by simp [shortCount])]
    rfl
  · rw [length, ← whole]
    refine Bytes.window_agree (fun i inside => ?_)
    rw [Nat.zero_add]
    exact update_of_ne (Nat.ne_of_lt inside) _ _
  · rw [length]
    exact update_self _ _ _

theorem onFile_ok (free : freeDescriptor s.files ≠ none)
    (supplied : s.heap.Supplies (Fs.maxFileSize + 1)) {print : (Nat → UInt8) → Nat → ShellM Unit}
    {out : List UInt8} (prints : ∀ bytes, Loaded (content s.files slot) bytes → ∀ now : Session,
      print bytes (content s.files slot).length now = .ok ((), now.send out)) :
    ∃ s', onFile filename print s = .ok (0, s') ∧ s'.serial.sent = s.serial.sent ++ out ∧
      SameHandles s.files s'.files ∧ s'.heap.held = s.heap.held := by
  obtain ⟨fd, free⟩ := Option.ne_none_iff_exists'.mp free
  obtain ⟨files, bytes, read, same, loaded⟩ := readWhole_ok readable free supplied
  have printed := prints bytes loaded
  rw [readable.content_length] at printed
  refine ⟨(((s.withHeap s.heap.ask.hold).withFiles files).send out).withHeap
    (s.heap.ask.hold.release s.heap.ask.calls), ?_, rfl, same, s.heap.ask.hold_release⟩
  rw [onFile, bind_ok (openForReading_ok readable free)]
  dsimp only
  rw [bind_ok fsSize_reading, bind_ok read]
  dsimp only
  rw [bind_ok (printed _), bind_ok rfl]
  rfl

end

end

end ArgoOS.Shell
