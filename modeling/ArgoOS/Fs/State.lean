import Mathlib
import ArgoOS.Shared.Bytes
import ArgoOS.Shared.Chain

set_option autoImplicit false

/-!
# State of the file system

The inode table and the descriptor table of `kernel/fs/fs.c`. A pointer to an inode
is the index of its slot. The `data` pointer of an inode is kept with what it points
to: the first child of a directory or the buffer of a file.
-/

namespace ArgoOS.Fs

open List

abbrev Slot := Fin 320

instance slots_neZero : NeZero (320 : Nat) := ⟨by decide⟩

abbrev Descriptor := Fin 64

def maxFileSize : Nat := 65536

def typeFile : UInt32 := 1
def typeDir : UInt32 := 2

def modeRead : UInt32 := 1
def modeWrite : UInt32 := 2
def modeAppend : UInt32 := 4

-- What ends a call other than a return. The kernel checks none of these.
inductive Fault where
  | nullPointer
  | wildPointer
  | outOfBounds
  | endlessList
deriving DecidableEq, Repr

theorem ok_of_toOption {α : Type} {outcome : Except Fault α} {value : α}
    (returned : outcome.toOption = some value) : outcome = .ok value := by
  cases outcome with
  | error fault => contradiction
  | ok other =>
    cases returned
    rfl

/-- A string argument: the bytes before its terminator. -/
structure CString where
  bytes : List UInt8
  noNul : 0 ∉ bytes
deriving DecidableEq

theorem letter_noNul : (0 : UInt8) ∉ [97] := by decide

/-- The contents of a `char name[256]` whose last byte is always set to null. -/
structure Name where
  bytes : List UInt8
  noNul : 0 ∉ bytes
  short : bytes.length ≤ 255
deriving DecidableEq

theorem strncpy_noNul (source : List UInt8) : 0 ∉ (source.takeWhile (· ≠ 0)).take 255 := by
  intro member
  have kept := mem_takeWhile_imp (mem_of_mem_take member)
  simp at kept

/-- `strncpy(name, source, 255)` followed by `name[255] = 0`. -/
def Name.strncpy (source : List UInt8) : Name where
  bytes := (source.takeWhile (· ≠ 0)).take 255
  noNul := strncpy_noNul source
  short := List.length_take_le 255 _

theorem Name.strncpy_bytes (name : Name) : Name.strncpy name.bytes = name := by
  have nonzero : ∀ byte ∈ name.bytes, decide (byte ≠ 0) = true := by
    intro byte member
    exact decide_eq_true (fun zero => name.noNul (zero ▸ member))
  cases name with
  | mk bytes noNul short =>
    simp only [Name.strncpy, Name.mk.injEq]
    rw [List.takeWhile_eq_self_iff.mpr nonzero, take_of_length_le short]

inductive Data where
  | null
  | child (first : Slot)
  | buffer (bytes : Nat → UInt8)

-- The `data` pointer read as a pointer to the first child.
def Data.firstChild : Data → Except Fault (Option Slot)
  | .null => .ok none
  | .child first => .ok (some first)
  | .buffer _ => .error .wildPointer

def Data.ofChild : Option Slot → Data
  | none => .null
  | some first => .child first

@[simp] theorem firstChild_ofChild (first : Option Slot) :
    (Data.ofChild first).firstChild = .ok first := by
  cases first <;> rfl

def Data.isNull : Data → Bool
  | .null => true
  | _ => false

structure Inode where
  name : Name
  type : UInt32
  size : UInt32
  data : Data
  valid : Bool
  parent : Option Slot
  next : Option Slot
  inodeNum : UInt32

structure FileDescriptor where
  inode : UInt32
  position : UInt32
  mode : UInt32
  size : UInt32
  valid : Bool
deriving DecidableEq

structure FileSystem where
  fileDescriptors : Descriptor → FileDescriptor
  inodes : Slot → Inode
  rootDir : Option Slot
  currentDir : Option Slot
  initialized : Bool
  nextInode : UInt32

def blankInode : Inode :=
  { name := .strncpy [], type := 0, size := 0, data := .null, valid := false, parent := none,
    next := none, inodeNum := 0 }

-- The variables as the kernel image holds them at the start of every boot.
def bootState : FileSystem :=
  { fileDescriptors := fun _ => { inode := 0, position := 0, mode := 0, size := 0, valid := false }
    inodes := fun _ => blankInode
    rootDir := none
    currentDir := none
    initialized := false
    nextInode := 1 }

namespace FileSystem

variable (fs : FileSystem)

def setInode (slot : Slot) (node : Inode) : FileSystem :=
  { fs with inodes := Function.update fs.inodes slot node }

def setDescriptor (fd : Descriptor) (entry : FileDescriptor) : FileSystem :=
  { fs with fileDescriptors := Function.update fs.fileDescriptors fd entry }

@[simp] theorem setInode_self (slot : Slot) (node : Inode) :
    (fs.setInode slot node).inodes slot = node :=
  Function.update_self _ _ _

theorem setInode_other (slot other : Slot) (node : Inode) (different : other ≠ slot) :
    (fs.setInode slot node).inodes other = fs.inodes other :=
  Function.update_of_ne different _ _

def setData (slot : Slot) (data : Data) : FileSystem :=
  fs.setInode slot { fs.inodes slot with data := data }

def setNext (slot : Slot) (next : Option Slot) : FileSystem :=
  fs.setInode slot { fs.inodes slot with next := next }

theorem setData_inodes (slot other : Slot) (data : Data) :
    (fs.setData slot data).inodes other = { fs.inodes other with
      data := if other = slot then data else (fs.inodes other).data } := by
  by_cases same : other = slot
  · subst same
    simp [setData]
  · simp [setData, same, setInode_other]

theorem setNext_inodes (slot other : Slot) (next : Option Slot) :
    (fs.setNext slot next).inodes other = { fs.inodes other with
      next := if other = slot then next else (fs.inodes other).next } := by
  by_cases same : other = slot
  · subst same
    simp [setNext]
  · simp [setNext, same, setInode_other]

@[simp] theorem setInode_rootDir (slot : Slot) (node : Inode) :
    (fs.setInode slot node).rootDir = fs.rootDir := rfl

@[simp] theorem setInode_currentDir (slot : Slot) (node : Inode) :
    (fs.setInode slot node).currentDir = fs.currentDir := rfl

@[simp] theorem setDescriptor_inodes (fd : Descriptor) (entry : FileDescriptor) :
    (fs.setDescriptor fd entry).inodes = fs.inodes := rfl

def getCurrentDir : Option Slot :=
  fs.currentDir.or fs.rootDir

-- The scan for `!inodes[i].valid` that both creation and loading use.
def freeSlot : Option Slot :=
  (List.finRange 320).find? (fun slot => !(fs.inodes slot).valid)

def findInodeByNum (num : UInt32) : Option Slot :=
  (List.finRange 320).find? (fun slot =>
    (fs.inodes slot).valid && (fs.inodes slot).inodeNum == num)

theorem freeSlot_invalid {slot : Slot} (found : fs.freeSlot = some slot) :
    (fs.inodes slot).valid = false := by
  simpa using List.find?_some found

theorem findInodeByNum_spec {num : UInt32} {slot : Slot} (found : fs.findInodeByNum num = some slot) :
    (fs.inodes slot).valid = true ∧ (fs.inodes slot).inodeNum = num := by
  simpa using List.find?_some found

theorem findInodeByNum_none {num : UInt32} (missing : fs.findInodeByNum num = none) (slot : Slot)
    (valid : (fs.inodes slot).valid = true) : (fs.inodes slot).inodeNum ≠ num := by
  have passed := List.find?_eq_none.mp missing slot (mem_finRange slot)
  simpa [valid] using passed

theorem findInodeByNum_same {other : FileSystem}
    (valid : ∀ slot, (fs.inodes slot).valid = (other.inodes slot).valid)
    (nums : ∀ slot, (fs.inodes slot).inodeNum = (other.inodes slot).inodeNum) (num : UInt32) :
    fs.findInodeByNum num = other.findInodeByNum num := by
  simp only [findInodeByNum, valid, nums]

end FileSystem

/-- Following `next` from the first child of `dir` visits `children` and ends in null. -/
def ChildList (fs : FileSystem) (dir : Slot) (children : List Slot) : Prop :=
  ∃ first, (fs.inodes dir).data.firstChild = .ok first ∧
    Linked.Chain (fun slot => (fs.inodes slot).next) first children

-- The link that `fs_create_inode` and the second pass of `fs_load` make:
-- `node->next = parent->data; parent->data = node`.
def linkChild (fs : FileSystem) (parent slot : Slot) : Except Fault FileSystem :=
  match (fs.inodes parent).data.firstChild with
  | .error fault => .error fault
  | .ok first => .ok ((fs.setNext slot first).setData parent (.child slot))

def newInode (fs : FileSystem) (name : List UInt8) (type : UInt32) (parent : Option Slot)
    (data : Data) (valid : Bool) : Inode :=
  { name := Name.strncpy name
    type := type
    size := 0
    data := data
    valid := valid
    parent := parent
    next := none
    inodeNum := fs.nextInode }

-- The slot is filled and the number is taken before `kmalloc` can fail.
def takeInode (fs : FileSystem) (slot : Slot) (node : Inode) : FileSystem :=
  { fs.setInode slot node with nextInode := fs.nextInode + 1 }

/-- `memory` tells whether `kmalloc(MAX_FILE_SIZE)` finds a block. -/
def fsCreateInode (fs : FileSystem) (name : List UInt8) (type : UInt32) (parent : Option Slot)
    (memory : Bool) : Except Fault (FileSystem × Option Slot) :=
  match fs.freeSlot with
  | none => .ok (fs, none)
  | some slot =>
    if type = typeFile ∧ memory = false then
      .ok (takeInode fs slot (newInode fs name type parent .null false), none)
    else
      let data := if type = typeFile then Data.buffer (fun _ => 0) else .null
      let created := takeInode fs slot (newInode fs name type parent data true)
      match parent with
      | none => .ok (created, some slot)
      | some dir =>
        if (created.inodes dir).type = typeDir then
          (linkChild created dir slot).map (·, some slot)
        else .ok (created, some slot)

def fsFindInodeInDir (fs : FileSystem) (dir : Option Slot) (name : List UInt8) :
    Except Fault (Option Slot) :=
  match dir with
  | none => .ok none
  | some dir =>
    if (fs.inodes dir).type ≠ typeDir then .ok none
    else
      match (fs.inodes dir).data.firstChild with
      | .error fault => .error fault
      | .ok first =>
        -- A list that is still going after as many nodes as there are slots never ends.
        match Linked.search (fun slot => (fs.inodes slot).next)
            (fun slot => (fs.inodes slot).name.bytes == name) 320 first with
        | none => .error .endlessList
        | some found => .ok found

end ArgoOS.Fs
