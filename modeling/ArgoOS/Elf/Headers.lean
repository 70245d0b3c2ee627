import ArgoOS.Elf.Contents

set_option autoImplicit false

/-! # Where the program headers are read -/

namespace ArgoOS.Elf

open Memory Machine Blocks Option UInt32
open Fs (FileSystem CString fsRead readCount openFile modeRead)

def atHeader (fd : Int) (phdrs : Nat) (s : Loader) : Nat → Option Loader
  | 0 => some s
  | i + 1 => do
    let before ← atHeader fd phdrs s i
    let (after, loaded) ← loadSegment before fd (phdrs + 32 * i)
    if loaded then return after else none

def Elf32Ehdr.InTable (ehdr : Elf32Ehdr) (i : Nat) : Prop := 32 * i + 32 ≤ ehdr.phdrSize

-- What the loader takes for header `i` is what the file has there.
def Elf32Ehdr.SameRecord (ehdr : Elf32Ehdr) (content : Nat → UInt8) (i : Nat) : Prop :=
  Bytes.Agree content (ehdr.ePhoff.toNat + 32 * i) content
    (ehdr.ePhoff.toNat + i * ehdr.ePhentsize) 32

/-- Header `i` lies in the allocated table and is the record of the file with that number. -/
structure HeaderRead (ehdr : Elf32Ehdr) (content : Nat → UInt8) (phdrs i : Nat) (s : Loader) :
    Prop where
  inTable : ehdr.InTable i
  record : ∀ k < 32, loadByte s.machine (phdrs + 32 * i + k) =
    some (content (ehdr.ePhoff.toNat + i * ehdr.ePhentsize + k)).toNat

def TableKept (phdrs size : Nat) (s t : Loader) : Prop :=
  ∀ k < size, loadByte t.machine (phdrs + k) = loadByte s.machine (phdrs + k)

section

variable {files files' : FileSystem} {fd bytesRead : Int} {content : Nat → UInt8}
  {buffer : Option (Nat → UInt8)} {size : Nat} {offset count : UInt32}

theorem FileHolds.read_inside (holds : FileHolds files fd content size)
    (read : fsRead (seekTo files fd offset) fd (some fun _ => 0) count =
      .ok (files', bytesRead, buffer)) (whole : bytesRead.toNat = count.toNat) :
    count.toNat = 0 ∨ offset.toNat + count.toNat ≤ size := by
  obtain ⟨index, slot, opened, -, nodeSize, -, position⟩ := holds.seek offset
  generalize seekTo files fd offset = fs at *
  have available : ((fs.inodes slot).size - (fs.fileDescriptors index).position).toNat =
      size - min offset.toNat size := by
    rw [UInt32.toNat_sub_of_le _ _ (by rw [le_iff_toNat_le]; omega), nodeSize, position]
  have delivered : bytesRead.toNat ≤
      (readCount (fs.inodes slot) (fs.fileDescriptors index) count).toNat := by
    simp only [fsRead, opened] at read
    split at read
    · cases read
      exact Nat.zero_le _
    · split at read
      · contradiction
      · cases read
        exact signed_toNat_le _
  rw [whole, readCount] at delivered
  split at delivered
  · next more =>
    rw [gt_iff_lt, lt_iff_toNat_lt] at more
    omega
  · next enough =>
    rw [gt_iff_lt, lt_iff_toNat_lt, available] at enough
    omega

theorem loadSegments_atHeader {phdrs : Nat} {s t : Loader} {i : Nat}
    (reached : atHeader fd phdrs s i = some t) (n : Nat) :
    loadSegments fd phdrs (i + n) 0 s = loadSegments fd phdrs n i t := by
  induction i generalizing t n with
  | zero =>
    cases reached
    rw [Nat.zero_add]
  | succ i ih =>
    obtain ⟨before, earlier, reached⟩ := bind_eq_some_iff.mp reached
    obtain ⟨⟨after, loaded⟩, segment, reached⟩ := bind_eq_some_iff.mp reached
    cases loaded with
    | false => contradiction
    | true =>
      cases reached
      rw [Nat.add_assoc, Nat.add_comm 1, ih earlier, loadSegments, segment]
      rfl

section

variable {s : Loader} {path : Option CString} {ehdr : Elf32Ehdr} {phdrs : Nat} {s1 : Loader}
    {blocks : List Block} (table : TableRead s path files fd ehdr phdrs s1)
    (ok : HeapOk s.machine blocks) (low : ExpandsLow s.machine ehdr.phdrSize)
    (holds : FileHolds files fd content size)

include table ok low holds

theorem TableRead.bytes (k : Nat) (inside : k < ehdr.phdrSize) :
    loadByte s1.machine (phdrs + k) = some (content (ehdr.ePhoff.toNat + k)).toNat := by
  obtain ⟨m, bytesRead, allocated, read, whole⟩ := table.read
  obtain ⟨bytes, read, stored, -⟩ := fsReadTo_cases read
  rw [if_neg table.notNull] at read
  have word : (UInt32.ofNat ehdr.phdrSize).toNat = ehdr.phdrSize := by
    have count := fsRead_count read
    have bound := (UInt32.ofNat ehdr.phdrSize).toNat_lt
    rw [toNat_ofNat'] at *
    exact Nat.mod_eq_of_lt (by omega)
  have inFile := holds.read_inside read (whole.trans word.symm)
  obtain ⟨_, delivered, again, -, part⟩ := holds.read ehdr.ePhoff _ inFile
  rw [again] at read
  cases read
  have small := holds.1
  simp only [Fs.maxFileSize] at small
  obtain ⟨-, blocks1, new⟩ := kmalloc_effect ok _ _ (by omega) (by simp only [heapMaxSize]; omega) low
    allocated
  obtain ⟨b, inList, -, rfl, fits, -⟩ := new.new table.notNull
  have place := new.ok.shape.bounds b inList
  have limit := new.ok.limit
  simp only [Block.stop, heapEnd, heapBase, heapMaxSize] at place limit
  obtain ⟨tables, pages, mapping⟩ := new.ok.sees.mapping
  rw [whole] at stored
  rw [mapping.storeBytes_bytes _ _ _ (by simp only [heapBase]; omega) (by omega) stored _
    (by simp only [heapBase]; omega), if_pos (by omega), Nat.add_sub_cancel_left,
    getD_some, part k (by omega)]

theorem HeaderRead.iff_same {t : Loader} {i : Nat} (kept : TableKept phdrs ehdr.phdrSize s1 t) :
    HeaderRead ehdr content phdrs i t ↔ ehdr.InTable i ∧ ehdr.SameRecord content i := by
  have known : ehdr.InTable i → ∀ k < 32, loadByte t.machine (phdrs + 32 * i + k) =
      some (content (ehdr.ePhoff.toNat + 32 * i + k)).toNat := by
    intro inTable k small
    unfold Elf32Ehdr.InTable at inTable
    rw [Nat.add_assoc, kept _ (by omega), table.bytes ok low holds _ (by omega), Nat.add_assoc]
  constructor
  · rintro ⟨inTable, record⟩
    refine ⟨inTable, fun k small => UInt8.toNat_inj.mp ?_⟩
    exact some.inj ((known inTable k small).symm.trans (record k small))
  · rintro ⟨inTable, same⟩
    refine ⟨inTable, fun k small => ?_⟩
    rw [known inTable k small, same k small]

end

end

-- The headers are as far apart in the file as in memory, or there is one and it is whole.
def Elf32Ehdr.Sound (ehdr : Elf32Ehdr) : Prop :=
  ehdr.ePhnum = 0 ∨ ehdr.ePhentsize = 32 ∨ ehdr.ePhnum = 1 ∧ 32 ≤ ehdr.ePhentsize

theorem Elf32Ehdr.sound_iff (ehdr : Elf32Ehdr) :
    ehdr.Sound ↔ ∀ i < ehdr.ePhnum, ehdr.InTable i ∧ i * ehdr.ePhentsize = 32 * i := by
  unfold Elf32Ehdr.Sound Elf32Ehdr.InTable Elf32Ehdr.phdrSize
  constructor
  · rintro (none | stride | ⟨one, large⟩) i below
    · omega
    · rw [stride]
      omega
    · obtain rfl : i = 0 := by omega
      rw [one]
      omega
  · intro all
    by_cases few : ehdr.ePhnum ≤ 1
    · by_cases none : ehdr.ePhnum = 0
      · exact .inl none
      · obtain one : ehdr.ePhnum = 1 := by omega
        have first := (all 0 (by omega)).1
        rw [one] at first
        exact .inr (.inr ⟨one, by omega⟩)
    · exact .inr (.inl (by have second := (all 1 (by omega)).2; omega))

def wideFile : FileSystem :=
  let content := fun i => Bytes.byteOf ([0x464C457F, 0x00010101, 0, 0, 0x00030002, 1, 0, 52, 0, 0,
    0x00280034, 2, 0, 0, 0, 0, 0, 0, 0, 0, 0, 0, 0, 1].getD (i / 4) 0) (i % 4)
  match (Fs.createRoot Fs.bootState).toOption.bind fun fs =>
      (Fs.fsOpen fs programPath Fs.modeWrite true).toOption.bind fun (fs, fd) =>
        (Fs.fsWrite fs fd (some content) 132).toOption with
  | some (fs, _) => (Fs.fsClose fs 0).1
  | none => Fs.bootState

end ArgoOS.Elf
