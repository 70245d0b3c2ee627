import ArgoOS.Fs.Append
import ArgoOS.Fs.Handles

set_option autoImplicit false

/-! # Reading a whole file -/

namespace ArgoOS.Fs

open Bytes

/-- A path to a regular file that is found again by its number. -/
structure Readable (fs : FileSystem) (path : CString) (slot : Slot) : Prop where
  ready : fs.initialized = true
  resolved : fsResolvePath fs (some path) = .ok (some slot)
  isFile : (fs.inodes slot).type = typeFile
  lookup : fs.findInodeByNum (fs.inodes slot).inodeNum = some slot
  fits : (fs.inodes slot).size.toNat ≤ maxFileSize
  stored : ∃ bytes, (fs.inodes slot).data = .buffer bytes

instance (data : Data) : Decidable (∃ bytes, data = .buffer bytes) :=
  match data with
  | .null => isFalse nofun
  | .child _ => isFalse nofun
  | .buffer bytes => isTrue ⟨bytes, rfl⟩

theorem readable_iff {fs : FileSystem} {path : CString} {slot : Slot} : Readable fs path slot ↔
    fs.initialized = true ∧ fsResolvePath fs (some path) = .ok (some slot) ∧
    (fs.inodes slot).type = typeFile ∧
    fs.findInodeByNum (fs.inodes slot).inodeNum = some slot ∧
    (fs.inodes slot).size.toNat ≤ maxFileSize ∧ ∃ bytes, (fs.inodes slot).data = .buffer bytes :=
  ⟨fun ⟨ready, resolved, isFile, lookup, fits, stored⟩ =>
    ⟨ready, resolved, isFile, lookup, fits, stored⟩,
    fun ⟨ready, resolved, isFile, lookup, fits, stored⟩ =>
    ⟨ready, resolved, isFile, lookup, fits, stored⟩⟩

instance (fs : FileSystem) (path : CString) (slot : Slot) : Decidable (Readable fs path slot) :=
  decidable_of_iff' _ readable_iff

def writeFile (fs : FileSystem) (path : CString) (text : List UInt8) : Option FileSystem :=
  match fsOpen fs (some path) modeWrite true with
  | .error _ => none
  | .ok (opened, fd) =>
    match fsWrite opened fd (some fun i => text.getD i 0) (UInt32.ofNat text.length) with
    | .error _ => none
    | .ok (written, _) => some (fsClose written fd).1

section

variable {fs : FileSystem} {path : CString} {slot : Slot} {fd : Descriptor}

theorem openEntry_oneMore (free : freeDescriptor fs = some fd) (node : Inode) (mode : UInt32) :
    OneMore fs (fs.setDescriptor fd (openEntry node mode)) fd := by
  refine ⟨rfl, by simpa using List.find?_some free, ?_, fun other different => ?_⟩
  · rw [fs.setDescriptor_self]
    rfl
  · rw [fs.setDescriptor_other fd other _ different]

theorem openEntry_fsSize (node : Inode) (mode : UInt32) :
    fsSize (fs.setDescriptor fd (openEntry node mode)) fd.val = node.size := by
  have entry := fs.setDescriptor_self fd (openEntry node mode)
  rw [fsSize, validDescriptor_val _ fd (by rw [entry]; rfl)]
  dsimp only
  rw [entry]
  rfl

variable (readable : Readable fs path slot)

include readable

theorem Readable.content_length : (content fs slot).length = (fs.inodes slot).size.toNat := by
  obtain ⟨bytes, data⟩ := readable.stored
  rw [content, data, window_length]

theorem Readable.fsOpen (free : freeDescriptor fs = some fd) (mode : UInt32) (memory : Bool) :
    fsOpen fs (some path) mode memory =
      .ok (fs.setDescriptor fd (openEntry (fs.inodes slot) mode), (fd.val : Int)) := by
  simp [Fs.fsOpen, readable.ready, openNode, readable.resolved, openDescriptor, readable.isFile, free]

theorem Readable.openFile {mode access : UInt32} (allowed : mode &&& access ≠ 0) :
    openFile (fs.setDescriptor fd (openEntry (fs.inodes slot) mode)) fd.val access =
      some (fd, slot) := by
  have entry := fs.setDescriptor_self fd (openEntry (fs.inodes slot) mode)
  refine openFile_val ?_ ?_ ?_ readable.isFile <;> rw [entry]
  · rfl
  · exact allowed
  · exact readable.lookup

theorem Readable.fsRead (buffer : Nat → UInt8) : ∃ after target,
    fsRead (fs.setDescriptor fd (openEntry (fs.inodes slot) modeRead)) fd.val (some buffer)
      (fs.inodes slot).size = .ok (after, ((fs.inodes slot).size.toNat : Int), some target) ∧
    window target 0 (fs.inodes slot).size.toNat = content fs slot := by
  obtain ⟨bytes, data⟩ := readable.stored
  have opened : Fs.openFile (fs.setDescriptor fd (openEntry (fs.inodes slot) modeRead)) fd.val
      modeRead = some (fd, slot) := readable.openFile (by decide)
  have entry := fs.setDescriptor_self fd (openEntry (fs.inodes slot) modeRead)
  have position : (openEntry (fs.inodes slot) modeRead).position = 0 := rfl
  have count : readCount (fs.inodes slot) (openEntry (fs.inodes slot) modeRead)
      (fs.inodes slot).size = (fs.inodes slot).size := by
    simp [readCount, position]
  have limit : maxFileSize = 65536 := rfl
  have fits := readable.fits
  have whole : content fs slot = window bytes 0 (fs.inodes slot).size.toNat := by
    rw [content, data]
  have copied : fileBuffer (fs.inodes slot).data 0 (fs.inodes slot).size = .ok bytes := by
    rw [data, fileBuffer, if_pos (by simpa using fits)]
  simp only [Fs.fsRead, opened, entry, FileSystem.setDescriptor_inodes, count, position, copied]
  split
  · next empty =>
    refine ⟨_, buffer, by rw [empty]; rfl, ?_⟩
    rw [whole, empty]
    rfl
  · refine ⟨_, _, by rw [signed_small _ (by omega)], ?_⟩
    rw [whole, window_agree (agree_copy _ _ _ _)]
    simp

end

end ArgoOS.Fs
