import ArgoOS.Fs.Operations
import ArgoOS.Memory.ByteAccess

set_option autoImplicit false

/-!
# The ELF loader

`elf_load` with the page tables, the heap and the file system it works on. The header is
read to the stack, the program headers to the heap, the segments to the addresses that
the file names. The file system has its own memory here, apart from the machine's.
-/

namespace ArgoOS.Elf

open Memory
open Fs (FileSystem CString fsOpen fsRead fsClose fsSeek modeRead)

structure Loader where
  machine : Machine
  files : FileSystem

def elfMagic : UInt32 := 0x464C457F
def etExec : Nat := 2
def em386 : Nat := 3
def ptLoad : Nat := 1

def loadHalf (bytes : Nat → UInt8) (offset : Nat) : Nat :=
  (bytes offset).toNat + 256 * (bytes (offset + 1)).toNat

-- The fields of `struct elf32_ehdr` that the loader reads.
structure Elf32Ehdr where
  eIdent : Nat → UInt8
  eType : Nat
  eMachine : Nat
  eVersion : UInt32
  eEntry : UInt32
  ePhoff : UInt32
  ePhentsize : Nat
  ePhnum : Nat

def Elf32Ehdr.ofBytes (bytes : Nat → UInt8) : Elf32Ehdr where
  eIdent := bytes
  eType := loadHalf bytes 16
  eMachine := loadHalf bytes 18
  eVersion := Bytes.loadWord bytes 20
  eEntry := Bytes.loadWord bytes 24
  ePhoff := Bytes.loadWord bytes 28
  ePhentsize := loadHalf bytes 42
  ePhnum := loadHalf bytes 44

-- The fields of `struct elf32_phdr` that the loader reads.
structure Elf32Phdr where
  pType : Nat
  pOffset : Nat
  pVaddr : Nat
  pFilesz : Nat
  pMemsz : Nat
deriving DecidableEq, Repr

def Elf32Phdr.ofBytes (bytes : Nat → UInt8) (offset : Nat) : Elf32Phdr where
  pType := (Bytes.loadWord bytes offset).toNat
  pOffset := (Bytes.loadWord bytes (offset + 4)).toNat
  pVaddr := (Bytes.loadWord bytes (offset + 8)).toNat
  pFilesz := (Bytes.loadWord bytes (offset + 16)).toNat
  pMemsz := (Bytes.loadWord bytes (offset + 20)).toNat

def validateElfHeader (ehdr : Elf32Ehdr) : Int :=
  if Bytes.loadWord ehdr.eIdent 0 ≠ elfMagic then -1
  else if ehdr.eIdent 4 ≠ 1 then -1
  else if ehdr.eIdent 5 ≠ 1 then -1
  else if ehdr.eVersion ≠ 1 then -1
  else if ehdr.eMachine ≠ em386 then -1
  else if ehdr.eType ≠ etExec then -1
  else 0

-- Opens the file and reads its header. Without a valid header the file is closed again.
def openElf (files : FileSystem) (path : Option CString) :
    Option (FileSystem × Option (Int × Elf32Ehdr)) := do
  let (files, fd) ← (fsOpen files path modeRead false).toOption
  if fd < 0 then return (files, none)
  else
    let (files, bytesRead, header) ← (fsRead files fd (some fun _ => 0) 52).toOption
    let ehdr := Elf32Ehdr.ofBytes (header.getD fun _ => 0)
    if bytesRead < 0 ∨ bytesRead.toNat ≠ 52 then return ((fsClose files fd).1, none)
    else if validateElfHeader ehdr < 0 then return ((fsClose files fd).1, none)
    else return (files, some (fd, ehdr))

-- `fs_read` to an address. What it would copy is stored byte by byte.
def fsReadTo (s : Loader) (fd : Int) (dest size : Nat) : Option (Loader × Int) := do
  let buffer := if dest = 0 then none else some fun _ => 0
  let (files, bytesRead, bytes) ← (fsRead s.files fd buffer (UInt32.ofNat size)).toOption
  let m ← storeBytes s.machine dest (bytes.getD fun _ => 0) bytesRead.toNat
  return (⟨m, files⟩, bytesRead)

def seekTo (files : FileSystem) (fd : Int) (offset : UInt32) : FileSystem :=
  (fsSeek files fd offset.toInt32 0).1

def segmentPages (pMemsz : Nat) : Nat := word (pMemsz + 4095) / 4096

-- The loop over the pages of a segment, false when no page was left. The address is read
-- from the program header each time.
def mapSegment (phdr : Nat) : Nat → Nat → Machine → Option (Machine × Bool)
  | 0, _, m => some (m, true)
  | n + 1, j, m =>
    match pmmAllocPage m.pmm with
    | none => some (m, false)
    | some (page, pmm) => do
      let pVaddr ← m.load (phdr + 8)
      let m ← pagingMapPage (m.withPmm pmm) (word (pVaddr + j * 4096)) (page * pageSize)
        (pagePresent ||| pageWritable ||| pageUser)
      mapSegment phdr n (j + 1) m

def readSegment (s : Loader) (fd : Int) (phdr : Nat) : Option (Loader × Bool) := do
  let pOffset ← s.machine.load (phdr + 4)
  let pVaddr ← s.machine.load (phdr + 8)
  let pFilesz ← s.machine.load (phdr + 16)
  let files := seekTo s.files fd (UInt32.ofNat pOffset)
  let (s, bytesRead) ← fsReadTo ⟨s.machine, files⟩ fd pVaddr pFilesz
  let pFilesz ← s.machine.load (phdr + 16)
  if bytesRead < 0 ∨ bytesRead.toNat ≠ pFilesz then return (s, false)
  else
    let pMemsz ← s.machine.load (phdr + 20)
    if pFilesz < pMemsz then
      let m ← storeBytes s.machine (word (pVaddr + pFilesz)) (fun _ => 0) (pMemsz - pFilesz)
      return (⟨m, s.files⟩, true)
    else return (s, true)

-- False when the loader gives up.
def loadSegment (s : Loader) (fd : Int) (phdr : Nat) : Option (Loader × Bool) := do
  let pType ← s.machine.load phdr
  if pType ≠ ptLoad then return (s, true)
  else
    let pMemsz ← s.machine.load (phdr + 20)
    let (m, mapped) ← mapSegment phdr (segmentPages pMemsz) 0 s.machine
    if mapped then readSegment ⟨m, s.files⟩ fd phdr else return (⟨m, s.files⟩, false)

-- The headers are 32 bytes apart, whatever `e_phentsize` says.
def loadSegments (fd : Int) (phdrs : Nat) : Nat → Nat → Loader → Option (Loader × Bool)
  | 0, _, s => some (s, true)
  | n + 1, i, s => do
    let (s, loaded) ← loadSegment s fd (phdrs + 32 * i)
    if loaded then loadSegments fd phdrs n (i + 1) s else return (s, false)

def Elf32Ehdr.phdrSize (ehdr : Elf32Ehdr) : Nat := ehdr.ePhnum * ehdr.ePhentsize

-- Reads the program headers to `phdrs` and loads what they name.
def loadProgram (s : Loader) (fd : Int) (ehdr : Elf32Ehdr) (phdrs : Nat) :
    Option (Loader × Bool) := do
  let (s, bytesRead) ← fsReadTo ⟨s.machine, seekTo s.files fd ehdr.ePhoff⟩ fd phdrs ehdr.phdrSize
  if bytesRead < 0 ∨ bytesRead.toNat ≠ ehdr.phdrSize then return (s, false)
  else loadSegments fd phdrs ehdr.ePhnum 0 s

-- `current` is what `task_get_current` returns.
def elfLoad (s : Loader) (path : Option CString) (current : Nat) : Option (Loader × Int) := do
  let (files, opened) ← openElf s.files path
  match opened with
  | none => return (⟨s.machine, files⟩, -1)
  | some (fd, ehdr) =>
    let (m, phdrs) ← kmalloc s.machine ehdr.phdrSize
    if phdrs = 0 then return (⟨m, (fsClose files fd).1⟩, -1)
    else
      let (s, loaded) ← loadProgram ⟨m, files⟩ fd ehdr phdrs
      -- Every way out frees the headers and closes the file.
      let m ← kfree s.machine phdrs
      let files := (fsClose s.files fd).1
      if loaded = true ∧ current ≠ 0 then
        let m ← m.store (current + 12) ehdr.eEntry.toNat
        return (⟨m, files⟩, -1)
      else return (⟨m, files⟩, -1)

end ArgoOS.Elf
