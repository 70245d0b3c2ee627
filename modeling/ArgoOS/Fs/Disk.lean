import ArgoOS.Fs.Operations

set_option autoImplicit false

/-!
# The file system on disk

`fs_save`, `fs_load` and `fs_init` of `kernel/fs/fs.c` over the sector transfers of
`kernel/drivers/ata.c`. Sector 0 is the superblock, the inode table starts at sector 1
and file data at sector 65.
-/

namespace ArgoOS.Fs

-- The byte at offset `b` of sector `lba` is `disk (512 * lba + b)`.
abbrev Disk := Nat → UInt8

def sectorSize : Nat := 512

def fsMagic : UInt32 := 0x464C4F57
def superblockLba : UInt32 := 0
def inodeTableLba : UInt32 := 1
def dataBlocksLba : UInt32 := 65
def maxInodesOnDisk : Nat := 256

/-- How a transfer goes: to its end, or stopped by a timeout or an error after some sectors. -/
inductive Transfer where
  | complete
  | stopped (sectors : Nat)

def Transfer.moved : Transfer → Nat → Nat
  | .complete, sectors => sectors
  | .stopped before, sectors => min before sectors

def Transfer.ok : Transfer → Bool
  | .complete => true
  | .stopped _ => false

-- The drive is given 28 bits of the sector number.
def sectorAddress (lba : UInt32) : Nat :=
  sectorSize * (lba.toNat % 2 ^ 28)

def ataReadSectors (disk : Disk) (lba : UInt32) (numSectors : UInt8) (buffer : Nat → UInt8)
    (transfer : Transfer) : (Nat → UInt8) × Bool :=
  if numSectors = 0 then (buffer, false)
  else
    (Bytes.copy buffer 0 (fun i => disk (sectorAddress lba + i))
      (sectorSize * transfer.moved numSectors.toNat), transfer.ok)

def ataWriteSectors (disk : Disk) (lba : UInt32) (numSectors : UInt8) (buffer : Nat → UInt8)
    (transfer : Transfer) : Disk × Bool :=
  if numSectors = 0 then (disk, false)
  else
    (Bytes.copy disk (sectorAddress lba) buffer
      (sectorSize * transfer.moved numSectors.toNat), transfer.ok)

structure Superblock where
  magic : UInt32
  version : UInt32
  inodeCount : UInt32
  dataStartLba : UInt32
deriving DecidableEq

def Superblock.store (sb : Superblock) : Nat → UInt8 :=
  Bytes.storeWord (Bytes.storeWord (Bytes.storeWord (Bytes.storeWord (fun _ => 0)
    0 sb.magic) 4 sb.version) 8 sb.inodeCount) 12 sb.dataStartLba

def Superblock.load (bytes : Nat → UInt8) : Superblock :=
  { magic := Bytes.loadWord bytes 0
    version := Bytes.loadWord bytes 4
    inodeCount := Bytes.loadWord bytes 8
    dataStartLba := Bytes.loadWord bytes 12 }

structure DiskInode where
  name : Name
  type : UInt32
  size : UInt32
  inodeNum : UInt32
  parentInode : UInt32
  dataLba : UInt32
  valid : UInt32
deriving DecidableEq

def diskInodeSize : Nat := 280

-- The `index`-th `struct disk_inode` of a table.
def DiskInode.store (d : DiskInode) (table : Nat → UInt8) (index : Nat) : Nat → UInt8 :=
  let base := diskInodeSize * index
  Bytes.storeWord (Bytes.storeWord (Bytes.storeWord (Bytes.storeWord (Bytes.storeWord
    (Bytes.storeWord (Bytes.storeString table base d.name.bytes 256)
      (base + 256) d.type) (base + 260) d.size) (base + 264) d.inodeNum)
      (base + 268) d.parentInode) (base + 272) d.dataLba) (base + 276) d.valid

def DiskInode.load (table : Nat → UInt8) (index : Nat) : DiskInode :=
  let base := diskInodeSize * index
  { name := Name.strncpy (Bytes.loadString table base 256)
    type := Bytes.loadWord table (base + 256)
    size := Bytes.loadWord table (base + 260)
    inodeNum := Bytes.loadWord table (base + 264)
    parentInode := Bytes.loadWord table (base + 268)
    dataLba := Bytes.loadWord table (base + 272)
    valid := Bytes.loadWord table (base + 276) }

-- `(bytes + ATA_SECTOR_SIZE - 1) / ATA_SECTOR_SIZE` in 32 bits.
def sectorsFor (bytes : UInt32) : UInt32 :=
  (bytes + 512 - 1) / 512

def inodeSectors (count : UInt32) : UInt32 :=
  sectorsFor (count * 280)

section

variable (fs : FileSystem)

def collectInodes : List Slot :=
  ((List.finRange 320).filter (fun slot => (fs.inodes slot).valid)).take maxInodesOnDisk

def hasContent (slot : Slot) : Bool :=
  (fs.inodes slot).type == typeFile && !(fs.inodes slot).data.isNull &&
    decide (0 < (fs.inodes slot).size)

def parentNum (slot : Slot) : UInt32 :=
  match (fs.inodes slot).parent with
  | none => 0
  | some dir => (fs.inodes dir).inodeNum

def diskInode (slot : Slot) (lba : UInt32) : DiskInode :=
  { name := (fs.inodes slot).name
    type := (fs.inodes slot).type
    size := (fs.inodes slot).size
    inodeNum := (fs.inodes slot).inodeNum
    parentInode := parentNum fs slot
    dataLba := if hasContent fs slot then lba else 0
    valid := 1 }

structure SaveState where
  disk : Disk
  table : Nat → UInt8
  dataLba : UInt32

-- One turn of the loop over the collected inodes; `false` is the return of -1 when the
-- file data cannot be written.
def saveInode (transfer : Transfer) (index : Nat) (slot : Slot) (state : SaveState) :
    Except Fault (SaveState × Bool) :=
  let table := (diskInode fs slot state.dataLba).store state.table index
  if hasContent fs slot then
    let sectors := sectorsFor (fs.inodes slot).size
    match (fs.inodes slot).data with
    | .buffer bytes =>
      if sectorSize * transfer.moved sectors.toUInt8.toNat ≤ maxFileSize then
        let written := ataWriteSectors state.disk state.dataLba sectors.toUInt8 bytes transfer
        .ok ({ disk := written.1, table := table, dataLba := state.dataLba + sectors }, written.2)
      else .error .outOfBounds
    | _ => .error .wildPointer
  else .ok ({ state with table := table }, true)

def saveInodes (file : Nat → Transfer) :
    Nat → List Slot → SaveState → Except Fault (SaveState × Bool)
  | _, [], state => .ok (state, true)
  | index, slot :: slots, state =>
    match saveInode fs (file index) index slot state with
    | .error fault => .error fault
    | .ok (saved, false) => .ok (saved, false)
    | .ok (saved, true) => saveInodes file (index + 1) slots saved

/-- The outcomes of the transfers and of the allocation that `fs_save` makes. -/
structure SaveIo where
  superblock : Transfer
  memory : Bool
  file : Nat → Transfer
  table : Transfer

def SaveIo.success : SaveIo :=
  { superblock := .complete, memory := true, file := fun _ => .complete, table := .complete }

def superblockFor (count : Nat) : Superblock :=
  { magic := fsMagic, version := 1, inodeCount := UInt32.ofNat count, dataStartLba := dataBlocksLba }

def fsSave (io : SaveIo) (disk : Disk) : Except Fault (Disk × Int) :=
  let slots := collectInodes fs
  if fs.initialized = false ∨ slots = [] then .ok (disk, -1)
  else
    let marked := ataWriteSectors disk superblockLba 1 (superblockFor slots.length).store
      io.superblock
    if marked.2 = false ∨ io.memory = false then .ok (marked.1, -1)
    else
      match saveInodes fs io.file 0 slots
          { disk := marked.1, table := fun _ => 0, dataLba := dataBlocksLba } with
      | .error fault => .error fault
      | .ok (saved, false) => .ok (saved.disk, -1)
      | .ok (saved, true) =>
        let written := ataWriteSectors saved.disk inodeTableLba
          (inodeSectors (UInt32.ofNat slots.length)).toUInt8 saved.table io.table
        .ok (written.1, if written.2 then 0 else -1)

end

section

/-- The outcomes of the transfers and of the allocations that `fs_load` makes. -/
structure LoadIo where
  superblock : Transfer
  memory : Bool
  table : Transfer
  fileMemory : Nat → Bool
  file : Nat → Transfer

def LoadIo.success : LoadIo :=
  { superblock := .complete
    memory := true
    table := .complete
    fileMemory := fun _ => true
    file := fun _ => .complete }

variable (io : LoadIo) (disk : Disk) (table : Nat → UInt8)

def loadedInode (d : DiskInode) (data : Data) : Inode :=
  { name := d.name
    type := d.type
    size := d.size
    data := data
    valid := true
    parent := none
    next := none
    inodeNum := d.inodeNum }

-- The data pointer that the first pass gives to an inode; `false` is the return of -1.
def loadData (index : Nat) (d : DiskInode) : Except Fault (Data × Bool) :=
  if d.type = typeFile then
    if io.fileMemory index = false then .ok (.null, false)
    else if 0 < d.dataLba ∧ 0 < d.size then
      let sectors := (sectorsFor d.size).toUInt8
      if sectorSize * (io.file index).moved sectors.toNat ≤ maxFileSize then
        let filled := ataReadSectors disk d.dataLba sectors (fun _ => 0) (io.file index)
        .ok (.buffer filled.1, filled.2)
      else .error .outOfBounds
    else .ok (.buffer (fun _ => 0), true)
  else .ok (.null, true)

def markRoot (fs : FileSystem) (slot : Slot) (d : DiskInode) : FileSystem :=
  if d.name.bytes = [slash] ∧ d.type = typeDir then
    { fs with rootDir := some slot, currentDir := some slot }
  else fs

def loadInode (fs : FileSystem) (index : Nat) : Except Fault (FileSystem × Bool) :=
  let d := DiskInode.load table index
  if d.valid = 0 then .ok (fs, true)
  else
    match fs.freeSlot with
    | none => .ok (fs, false)
    | some slot =>
      match loadData io disk index d with
      | .error fault => .error fault
      | .ok (data, false) => .ok (fs.setInode slot (loadedInode d data), false)
      | .ok (data, true) => .ok (markRoot (fs.setInode slot (loadedInode d data)) slot d, true)

def loadInodes : List Nat → FileSystem → Except Fault (FileSystem × Bool)
  | [], fs => .ok (fs, true)
  | index :: indices, fs =>
    match loadInode io disk table fs index with
    | .error fault => .error fault
    | .ok (loaded, false) => .ok (loaded, false)
    | .ok (loaded, true) => loadInodes indices loaded

def setParent (fs : FileSystem) (slot : Slot) (parent : Option Slot) : FileSystem :=
  fs.setInode slot { fs.inodes slot with parent := parent }

def linkInode (fs : FileSystem) (index : Nat) : Except Fault FileSystem :=
  let d := DiskInode.load table index
  if d.valid = 0 then .ok fs
  else
    match fs.findInodeByNum d.inodeNum with
    | none => .ok fs
    | some slot =>
      let linked := if 0 < d.parentInode then
        setParent fs slot (fs.findInodeByNum d.parentInode) else fs
      match (linked.inodes slot).parent with
      | none => .ok linked
      | some dir =>
        if (linked.inodes dir).type = typeDir then linkChild linked dir slot else .ok linked

def linkInodes : List Nat → FileSystem → Except Fault FileSystem
  | [], fs => .ok fs
  | index :: indices, fs =>
    match linkInode table fs index with
    | .error fault => .error fault
    | .ok linked => linkInodes indices linked

def fsLoad (fs : FileSystem) : Except Fault (FileSystem × Int) :=
  let head := ataReadSectors disk superblockLba 1 (fun _ => 0) io.superblock
  let sb := Superblock.load head.1
  if head.2 = false ∨ sb.magic ≠ fsMagic then .ok (fs, -1)
  else if sb.inodeCount = 0 ∨ sb.inodeCount.toNat > maxInodesOnDisk then .ok (fs, -1)
  else if io.memory = false then .ok (fs, -1)
  else
    let entries := ataReadSectors disk inodeTableLba (inodeSectors sb.inodeCount).toUInt8
      (fun _ => 0) io.table
    if entries.2 = false then .ok (fs, -1)
    else
      match loadInodes io disk entries.1 (List.range sb.inodeCount.toNat) fs with
      | .error fault => .error fault
      | .ok (loaded, false) => .ok (loaded, -1)
      | .ok (loaded, true) =>
        match linkInodes entries.1 (List.range sb.inodeCount.toNat) loaded with
        | .error fault => .error fault
        | .ok linked => .ok (linked, if linked.rootDir.isSome then 0 else -1)

def clearInode (node : Inode) : Inode :=
  { node with valid := false, data := .null, parent := none, next := none }

def clearTables (fs : FileSystem) : FileSystem :=
  { fs with
    fileDescriptors := fun fd => { fs.fileDescriptors fd with valid := false }
    inodes := fun slot => clearInode (fs.inodes slot) }

def fsInit (fs : FileSystem) : Except Fault FileSystem :=
  if fs.initialized then .ok fs
  else
    match fsLoad io disk (clearTables fs) with
    | .error fault => .error fault
    | .ok (loaded, result) =>
      if result = 0 then .ok { loaded with initialized := true } else createRoot loaded

end

theorem Superblock.load_store (sb : Superblock) : Superblock.load sb.store = sb := by
  simp (disch := decide) only [Superblock.load, Superblock.store, Bytes.loadWord_storeWord,
    Bytes.loadWord_storeWord_other]

theorem Superblock.load_agree {first second : Nat → UInt8}
    (agree : Bytes.Agree first 0 second 0 16) : Superblock.load first = Superblock.load second := by
  simp only [Superblock.load, Bytes.loadWord_agree (agree.sub 0 4 (by decide)),
    Bytes.loadWord_agree (agree.sub 4 4 (by decide)),
    Bytes.loadWord_agree (agree.sub 8 4 (by decide)),
    Bytes.loadWord_agree (agree.sub 12 4 (by decide))]

theorem DiskInode.load_store (d : DiskInode) (table : Nat → UInt8) (index : Nat) :
    DiskInode.load (d.store table index) index = d := by
  have name := Bytes.loadString_storeString table (diskInodeSize * index)
    d.name.noNul (Nat.lt_succ_of_le d.name.short)
  simp (disch := omega) only [DiskInode.load, DiskInode.store, Bytes.loadWord_storeWord,
    Bytes.loadWord_storeWord_other, Bytes.loadString_storeWord, name, Name.strncpy_bytes]

theorem DiskInode.store_outside (d : DiskInode) (table : Nat → UInt8) (index i : Nat)
    (outside : i < diskInodeSize * index ∨ diskInodeSize * index + 280 ≤ i) :
    d.store table index i = table i := by
  simp (disch := omega) only [DiskInode.store, Bytes.storeWord, Bytes.storeString,
    Bytes.copy_outside]

theorem DiskInode.load_agree {first second : Nat → UInt8} {index index' : Nat}
    (agree : Bytes.Agree first (diskInodeSize * index) second (diskInodeSize * index') 280) :
    DiskInode.load first index = DiskInode.load second index' := by
  have name : Bytes.Agree first (diskInodeSize * index) second (diskInodeSize * index') 256 :=
    agree.sub 0 256 (by decide)
  simp only [DiskInode.load, Bytes.loadString_agree name,
    Bytes.loadWord_agree (agree.sub 256 4 (by decide)),
    Bytes.loadWord_agree (agree.sub 260 4 (by decide)),
    Bytes.loadWord_agree (agree.sub 264 4 (by decide)),
    Bytes.loadWord_agree (agree.sub 268 4 (by decide)),
    Bytes.loadWord_agree (agree.sub 272 4 (by decide)),
    Bytes.loadWord_agree (agree.sub 276 4 (by decide))]

theorem DiskInode.load_store_other (d : DiskInode) (table : Nat → UInt8) {index other : Nat}
    (different : other ≠ index) :
    DiskInode.load (d.store table index) other = DiskInode.load table other := by
  apply DiskInode.load_agree
  intro i inside
  apply DiskInode.store_outside
  unfold diskInodeSize
  omega

end ArgoOS.Fs
