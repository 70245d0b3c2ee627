import ArgoOS.Fs.State

set_option autoImplicit false

/-!
# Operations of the file system

Path resolution and the calls of `kernel/fs/fs.c` that work on the inode table and on
the open descriptors. A result of -1 is the error return of the source.
-/

namespace ArgoOS.Fs

def slash : UInt8 := 47
def dot : List UInt8 := [46]
def dotDot : List UInt8 := [46, 46]

/--
The components that the parsing loop of `fs_resolve_path` copies out of a path, in
order. The second argument is the component under way: it ends at a slash, at the end
of the path, or when the 255 bytes of the buffer are full.
-/
def components : List UInt8 → List UInt8 → List (List UInt8)
  | [], [] => []
  | [], byte :: component => [byte :: component]
  | c :: path, component =>
    if c = slash then
      if component = [] then components path [] else component :: components path []
    else if component.length < 255 then components path (component ++ [c])
    else component :: components path [c]

section

variable (fs : FileSystem)

-- `node->parent ? node->parent : root_dir`
def parentOrRoot : Option Slot → Except Fault (Option Slot)
  | none => .error .nullPointer
  | some node => .ok ((fs.inodes node).parent.or fs.rootDir)

def walk : Option Slot → List (List UInt8) → Except Fault (Option Slot)
  | node, [] => .ok node
  | node, component :: rest =>
    if component = dot then walk node rest
    else if component = dotDot then
      match parentOrRoot fs node with
      | .error fault => .error fault
      | .ok above => walk above rest
    else
      match fsFindInodeInDir fs node component with
      | .error fault => .error fault
      | .ok none => .ok none
      | .ok (some child) => walk (some child) rest

def fsResolvePath (path : Option CString) : Except Fault (Option Slot) :=
  match path with
  | none => .ok fs.getCurrentDir
  | some path =>
    match path.bytes with
    | [] => .ok fs.getCurrentDir
    | c :: rest =>
      if c = slash then
        if rest = [] then .ok fs.rootDir else walk fs fs.rootDir (components rest [])
      else if c :: rest = dot then .ok fs.getCurrentDir
      else if c :: rest = dotDot then parentOrRoot fs fs.getCurrentDir
      else walk fs fs.getCurrentDir (components (c :: rest) [])

end

-- The scan for the text behind the last slash; the first argument is `last_slash`.
def lastComponent : List UInt8 → List UInt8 → List UInt8
  | last, [] => last
  | last, c :: path => lastComponent (if c = slash then path else last) path

def baseName (path : CString) : List UInt8 :=
  lastComponent path.bytes path.bytes

/-- The inode that `fs_open` finds or creates, before it is given a descriptor. -/
def openNode (fs : FileSystem) (path : CString) (mode : UInt32) (memory : Bool) :
    Except Fault (FileSystem × Option Slot) :=
  match fsResolvePath fs (some path) with
  | .error fault => .error fault
  | .ok (some node) => .ok (fs, some node)
  | .ok none =>
    -- The source tests for an absolute path after `path` has run to its end, so the
    -- parent is the current directory for every path.
    if mode &&& modeWrite ≠ 0 then
      fsCreateInode fs (baseName path) typeFile fs.getCurrentDir memory
    else .ok (fs, none)

def freeDescriptor (fs : FileSystem) : Option Descriptor :=
  (List.finRange 64).find? (fun fd => !(fs.fileDescriptors fd).valid)

def openEntry (node : Inode) (mode : UInt32) : FileDescriptor :=
  { inode := node.inodeNum
    position := if mode &&& modeAppend ≠ 0 then node.size else 0
    mode := mode
    size := node.size
    valid := true }

def openDescriptor (fs : FileSystem) (node : Option Slot) (mode : UInt32) : FileSystem × Int :=
  match node with
  | none => (fs, -1)
  | some slot =>
    if (fs.inodes slot).type ≠ typeFile then (fs, -1)
    else
      match freeDescriptor fs with
      | none => (fs, -1)
      | some fd => (fs.setDescriptor fd (openEntry (fs.inodes slot) mode), fd.val)

def fsOpen (fs : FileSystem) (path : Option CString) (mode : UInt32) (memory : Bool) :
    Except Fault (FileSystem × Int) :=
  match path with
  | none => .ok (fs, -1)
  | some path =>
    if fs.initialized = false then .ok (fs, -1)
    else
      match openNode fs path mode memory with
      | .error fault => .error fault
      | .ok (found, node) => .ok (openDescriptor found node mode)

-- `fd < 0 || fd >= MAX_FILE_DESCRIPTORS || !file_descriptors[fd].valid`
def validDescriptor (fs : FileSystem) (fd : Int) : Option Descriptor :=
  if range : 0 ≤ fd ∧ fd < 64 then
    let index : Descriptor := ⟨fd.toNat, by omega⟩
    if (fs.fileDescriptors index).valid then some index else none
  else none

def fsClose (fs : FileSystem) (fd : Int) : FileSystem × Int :=
  match validDescriptor fs fd with
  | none => (fs, -1)
  | some index => (fs.setDescriptor index { fs.fileDescriptors index with valid := false }, 0)

-- The checks that `fs_read` and `fs_write` share: a descriptor open in the given mode and
-- the first inode with its number, which has to be a file.
def openFile (fs : FileSystem) (fd : Int) (mode : UInt32) : Option (Descriptor × Slot) :=
  match validDescriptor fs fd with
  | none => none
  | some index =>
    if (fs.fileDescriptors index).mode &&& mode = 0 then none
    else
      match fs.findInodeByNum (fs.fileDescriptors index).inode with
      | none => none
      | some slot => if (fs.inodes slot).type = typeFile then some (index, slot) else none

-- The buffer that a copy of `size` bytes at `position` goes to or comes from.
def fileBuffer (data : Data) (position size : UInt32) : Except Fault (Nat → UInt8) :=
  match data with
  | .null => .error .nullPointer
  | .child _ => .error .wildPointer
  | .buffer bytes =>
    if position.toNat + size.toNat ≤ maxFileSize then .ok bytes else .error .outOfBounds

def signed (x : UInt32) : Int :=
  x.toInt32.toInt

-- The number of bytes `fs_read` copies. The difference is taken in 32 bits.
def readCount (node : Inode) (entry : FileDescriptor) (size : UInt32) : UInt32 :=
  let available := node.size - entry.position
  if size > available then available else size

/-- The third result is the caller's buffer after the call. -/
def fsRead (fs : FileSystem) (fd : Int) (buffer : Option (Nat → UInt8)) (size : UInt32) :
    Except Fault (FileSystem × Int × Option (Nat → UInt8)) :=
  match buffer, openFile fs fd modeRead with
  | some target, some (index, slot) =>
    let entry := fs.fileDescriptors index
    let node := fs.inodes slot
    let size := readCount node entry size
    if size = 0 then .ok (fs, 0, buffer)
    else
      match fileBuffer node.data entry.position size with
      | .error fault => .error fault
      | .ok bytes =>
        .ok (fs.setDescriptor index { entry with position := entry.position + size },
          signed size,
          some (Bytes.copy target 0 (fun i => bytes (entry.position.toNat + i)) size.toNat))
  | _, _ => .ok (fs, -1, buffer)

-- The number of bytes `fs_write` copies and the size it gives to the file. The sum is
-- taken in 32 bits.
def writeExtent (position size : UInt32) : UInt32 × UInt32 :=
  if position + size > UInt32.ofNat maxFileSize then
    (UInt32.ofNat maxFileSize - position, UInt32.ofNat maxFileSize)
  else (size, position + size)

def fsWrite (fs : FileSystem) (fd : Int) (buffer : Option (Nat → UInt8)) (size : UInt32) :
    Except Fault (FileSystem × Int) :=
  match buffer, openFile fs fd modeWrite with
  | some source, some (index, slot) =>
    let entry := fs.fileDescriptors index
    let node := fs.inodes slot
    let count := (writeExtent entry.position size).1
    let newSize := (writeExtent entry.position size).2
    match fileBuffer node.data entry.position count with
    | .error fault => .error fault
    | .ok bytes =>
      let written := { node with
        data := .buffer (Bytes.copy bytes entry.position.toNat source count.toNat)
        size := if newSize > node.size then newSize else node.size }
      let moved := { entry with
        position := entry.position + count
        size := if newSize > node.size then newSize else entry.size }
      .ok ((fs.setInode slot written).setDescriptor index moved, signed count)
  | _, _ => .ok (fs, -1)

def seekTarget (entry : FileDescriptor) (offset : Int32) (whence : UInt32) : Option UInt32 :=
  if whence = 0 then some offset.toUInt32
  else if whence = 1 then some (entry.position + offset.toUInt32)
  else if whence = 2 then some (entry.size + offset.toUInt32)
  else none

def fsSeek (fs : FileSystem) (fd : Int) (offset : Int32) (whence : UInt32) : FileSystem × Int :=
  match validDescriptor fs fd with
  | none => (fs, -1)
  | some index =>
    let entry := fs.fileDescriptors index
    match seekTarget entry offset whence with
    | none => (fs, -1)
    | some target =>
      let position := if target > entry.size then entry.size else target
      (fs.setDescriptor index { entry with position := position }, signed position)

def fsSize (fs : FileSystem) (fd : Int) : UInt32 :=
  match validDescriptor fs fd with
  | none => 0
  | some index => (fs.fileDescriptors index).size

def fsExists (fs : FileSystem) (path : Option CString) : Except Fault Bool :=
  (fsResolvePath fs path).map Option.isSome

def fsType (fs : FileSystem) (path : Option CString) : Except Fault UInt32 :=
  (fsResolvePath fs path).map (fun node => node.elim 0 (fun slot => (fs.inodes slot).type))

def fsMkdir (fs : FileSystem) (path : Option CString) : Except Fault (FileSystem × Int) :=
  match path with
  | none => .ok (fs, -1)
  | some path =>
    match fsFindInodeInDir fs fs.getCurrentDir (baseName path) with
    | .error fault => .error fault
    | .ok (some _) => .ok (fs, -1)
    | .ok none =>
      match fsCreateInode fs (baseName path) typeDir fs.getCurrentDir true with
      | .error fault => .error fault
      | .ok (created, dir) => .ok (created, if dir.isSome then 0 else -1)

-- The removal of `slot` from the child list of `parent`.
def unlinkChild (fs : FileSystem) (parent slot : Slot) : Except Fault FileSystem :=
  match (fs.inodes parent).data.firstChild with
  | .error fault => .error fault
  | .ok first =>
    if first = some slot then .ok (fs.setData parent (.ofChild (fs.inodes slot).next))
    else
      match Linked.search (fun child => (fs.inodes child).next)
          (fun child => (fs.inodes child).next == some slot) 320 first with
      | none => .error .endlessList
      | some none => .ok fs
      | some (some child) => .ok (fs.setNext child (fs.inodes slot).next)

def invalidate (fs : FileSystem) (slot : Slot) : FileSystem :=
  fs.setInode slot { fs.inodes slot with valid := false }

def removeNode (fs : FileSystem) (slot : Slot) : Except Fault (FileSystem × Int) :=
  if fs.rootDir = some slot then .ok (fs, -1)
  else if (fs.inodes slot).type = typeDir ∧ (fs.inodes slot).data.isNull = false then .ok (fs, -1)
  else
    match (fs.inodes slot).parent with
    | none => .ok (invalidate fs slot, 0)
    | some parent =>
      match unlinkChild fs parent slot with
      | .error fault => .error fault
      | .ok unlinked => .ok (invalidate unlinked slot, 0)

def fsRemove (fs : FileSystem) (path : Option CString) : Except Fault (FileSystem × Int) :=
  match fsResolvePath fs path with
  | .error fault => .error fault
  | .ok none => .ok (fs, -1)
  | .ok (some slot) => removeNode fs slot

def fsSetCurrentDir (fs : FileSystem) (dir : Option Slot) : FileSystem × Int :=
  match dir with
  | none => (fs, -1)
  | some slot =>
    if (fs.inodes slot).type = typeDir then ({ fs with currentDir := some slot }, 0) else (fs, -1)

-- The end of `fs_init` when there was nothing to load.
def createRoot (fs : FileSystem) : Except Fault FileSystem :=
  match fsCreateInode fs [slash] typeDir none true with
  | .error fault => .error fault
  | .ok (created, root) =>
    .ok { created with rootDir := root, currentDir := root, initialized := true }

/-- The calls that work on the mounted file system; `setCurrentDir` is the shell's use of
`fs_set_current_dir` on a resolved path. -/
inductive Operation where
  | fsOpen (path : Option CString) (mode : UInt32) (memory : Bool)
  | fsMkdir (path : Option CString)
  | fsClose (fd : Int)
  | fsRead (fd : Int) (buffer : Option (Nat → UInt8)) (size : UInt32)
  | fsWrite (fd : Int) (buffer : Option (Nat → UInt8)) (size : UInt32)
  | fsSeek (fd : Int) (offset : Int32) (whence : UInt32)
  | setCurrentDir (path : Option CString)
  | fsRemove (path : Option CString)

def Operation.apply (fs : FileSystem) : Operation → Except Fault (FileSystem × Int)
  | .fsOpen path mode memory => Fs.fsOpen fs path mode memory
  | .fsMkdir path => Fs.fsMkdir fs path
  | .fsClose fd => .ok (Fs.fsClose fs fd)
  | .fsRead fd buffer size => (Fs.fsRead fs fd buffer size).map (fun r => (r.1, r.2.1))
  | .fsWrite fd buffer size => Fs.fsWrite fs fd buffer size
  | .fsSeek fd offset whence => .ok (Fs.fsSeek fs fd offset whence)
  | .setCurrentDir path => (fsResolvePath fs path).map (fsSetCurrentDir fs)
  | .fsRemove path => Fs.fsRemove fs path

end ArgoOS.Fs
