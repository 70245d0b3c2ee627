import ArgoOS.Shared.BoundedFile
import ArgoOS.Fs.Effects

set_option autoImplicit false

/-! # A descriptor as a byte file -/

namespace ArgoOS.Fs

open List FileSystem Bytes UInt32

abbrev ByteFile := BoundedFile UInt8 maxFileSize

inductive FileCall where
  | fsWrite (buffer : Nat → UInt8) (size : UInt32)
  | fsRead (buffer : Nat → UInt8) (size : UInt32)
  | fsSeek (offset : Int32) (whence : UInt32)

structure Answer where
  result : Int
  bytes : List UInt8

def FileCall.apply (fs : FileSystem) (fd : Descriptor) :
    FileCall → Except Fault (FileSystem × Answer)
  | .fsWrite buffer size =>
    (Fs.fsWrite fs fd.val (some buffer) size).map (fun r => (r.1, { result := r.2, bytes := [] }))
  | .fsRead buffer size =>
    (Fs.fsRead fs fd.val (some buffer) size).map (fun r => (r.1,
      { result := r.2.1, bytes := Bytes.window (r.2.2.getD buffer) 0 r.2.1.toNat }))
  | .fsSeek offset whence =>
    let r := Fs.fsSeek fs fd.val offset whence
    .ok (r.1, { result := r.2, bytes := [] })

def runCalls (fd : Descriptor) : FileSystem → List FileCall →
    Except Fault (FileSystem × List Answer)
  | fs, [] => .ok (fs, [])
  | fs, call :: calls =>
    match call.apply fs fd with
    | .error fault => .error fault
    | .ok (next, answer) => (runCalls fd next calls).map (fun r => (r.1, answer :: r.2))

section

variable (file : ByteFile)

-- SEEK_SET, SEEK_CUR and SEEK_END
def seekBase (whence : UInt32) : Nat :=
  if whence = 0 then 0 else if whence = 1 then file.position else file.content.length

def FileCall.spec : FileCall → ByteFile × Answer
  | .fsWrite buffer size => (file.write (Bytes.window buffer 0 size.toNat),
      { result := file.room size.toNat, bytes := [] })
  | .fsRead _ size => (file.read size.toNat,
      { result := file.available size.toNat, bytes := file.taken size.toNat })
  | .fsSeek offset whence =>
    let sought := file.seek (seekBase file whence + offset.toInt).toNat
    (sought, { result := sought.position, bytes := [] })

def FileCall.Allowed : FileCall → Prop
  | .fsWrite _ size => size.toNat < 2 ^ 31
  | .fsRead _ size => size.toNat < 2 ^ 31
  | .fsSeek offset whence => whence < 3 ∧ 0 ≤ (seekBase file whence : Int) + offset.toInt

end

def runSpec : ByteFile → List FileCall → ByteFile × List Answer
  | file, [] => (file, [])
  | file, call :: calls =>
    let rest := runSpec (call.spec file).1 calls
    (rest.1, (call.spec file).2 :: rest.2)

def AllowedRun : ByteFile → List FileCall → Prop
  | _, [] => True
  | file, call :: calls => call.Allowed file ∧ AllowedRun (call.spec file).1 calls

structure Represents (fs : FileSystem) (fd : Descriptor) (slot : Slot) (file : ByteFile) :
    Prop where
  valid : (fs.fileDescriptors fd).valid = true
  reads : (fs.fileDescriptors fd).mode &&& modeRead ≠ 0
  writes : (fs.fileDescriptors fd).mode &&& modeWrite ≠ 0
  lookup : fs.findInodeByNum (fs.fileDescriptors fd).inode = some slot
  isFile : (fs.inodes slot).type = typeFile
  position : (fs.fileDescriptors fd).position.toNat = file.position
  size : (fs.fileDescriptors fd).size.toNat = file.content.length
  nodeSize : (fs.inodes slot).size.toNat = file.content.length
  bytes : ∃ bytes, (fs.inodes slot).data = .buffer bytes ∧
    Bytes.window bytes 0 file.content.length = file.content

theorem validDescriptor_val (fs : FileSystem) (fd : Descriptor)
    (valid : (fs.fileDescriptors fd).valid = true) : validDescriptor fs fd.val = some fd := by
  have range : (0 : Int) ≤ fd.val ∧ (fd.val : Int) < 64 := by omega
  simp only [validDescriptor, dif_pos range, Int.toNat_natCast, Fin.eta, valid, if_true]

variable {fs : FileSystem} {slot : Slot} {after : FileSystem}

theorem openFile_val {fd : Descriptor} {mode : UInt32}
    (valid : (fs.fileDescriptors fd).valid = true)
    (opened : (fs.fileDescriptors fd).mode &&& mode ≠ 0)
    (lookup : fs.findInodeByNum (fs.fileDescriptors fd).inode = some slot)
    (isFile : (fs.inodes slot).type = typeFile) : openFile fs fd.val mode = some (fd, slot) := by
  simp only [openFile, validDescriptor_val fs fd valid, if_neg opened, lookup, isFile, if_true]

theorem signed_small (x : UInt32) (small : x.toNat < 2 ^ 31) : signed x = x.toNat := by
  have bound : 2 * x.toBitVec.toNat < 2 ^ 32 := by
    change 2 * x.toNat < 2 ^ 32
    omega
  exact BitVec.toInt_eq_toNat_of_lt bound

theorem toInt_cases (offset : Int32) :
    offset.toInt = offset.toUInt32.toNat ∧ offset.toUInt32.toNat < 2 ^ 31 ∨
    offset.toInt = (offset.toUInt32.toNat : Int) - 2 ^ 32 ∧ offset.toUInt32.toNat < 2 ^ 32 := by
  have bound := offset.toUInt32.toNat_lt
  have value : offset.toInt = if 2 * offset.toUInt32.toNat < 2 ^ 32 then
      (offset.toUInt32.toNat : Int) else (offset.toUInt32.toNat : Int) - 2 ^ 32 :=
    BitVec.toInt_eq_toNat_cond _
  rw [value]
  split
  · exact .inl ⟨rfl, by omega⟩
  · exact .inr ⟨rfl, bound⟩

variable {whence : UInt32}

theorem whence_cases (known : whence < 3) : whence = 0 ∨ whence = 1 ∨ whence = 2 := by
  have below := lt_iff_toNat_lt.mp known
  rw [show (3 : UInt32).toNat = 3 from rfl] at below
  simp only [← UInt32.toNat_inj]
  change whence.toNat = 0 ∨ whence.toNat = 1 ∨ whence.toNat = 2
  omega

theorem grownSize_toNat {newSize nodeSize old : UInt32} (same : old.toNat = nodeSize.toNat) :
    (if newSize > nodeSize then newSize else old).toNat = max nodeSize.toNat newSize.toNat := by
  split
  · next more =>
    rw [gt_iff_lt, lt_iff_toNat_lt] at more
    omega
  · next less =>
    rw [gt_iff_lt, lt_iff_toNat_lt] at less
    omega

theorem writeExtent_toNat {position size : UInt32} (inside : position.toNat ≤ maxFileSize)
    (noWrap : position.toNat + size.toNat < 2 ^ 32) :
    (writeExtent position size).1.toNat = min size.toNat (maxFileSize - position.toNat) ∧
    (writeExtent position size).2.toNat =
      position.toNat + min size.toNat (maxFileSize - position.toNat) := by
  have limit : (UInt32.ofNat maxFileSize).toNat = 65536 := rfl
  unfold maxFileSize at inside ⊢
  have sum : (position + size).toNat = position.toNat + size.toNat := by
    rw [UInt32.toNat_add]
    omega
  unfold writeExtent
  split
  · next beyond =>
    rw [gt_iff_lt, lt_iff_toNat_lt, sum, limit] at beyond
    rw [UInt32.toNat_sub_of_le _ _ (by rw [le_iff_toNat_le, limit]; exact inside), limit]
    omega
  · next within =>
    rw [gt_iff_lt, lt_iff_toNat_lt, Nat.not_lt, sum, limit] at within
    simp only [sum]
    omega

theorem window_overwrite (bytes source : Nat → UInt8) {position : Nat} (count : Nat) {len : Nat}
    (inside : position ≤ len) :
    window (copy bytes position source count) 0 (max len (position + count)) =
      BoundedFile.overwrite (window bytes 0 len) position (window source 0 count) := by
  have before : window (copy bytes position source count) 0 position =
      window bytes 0 position :=
    window_agree (agree_copy_outside _ _ (by omega))
  have middle : window (copy bytes position source count) position count =
      window source 0 count :=
    window_agree (agree_copy _ _ _ _)
  have start := window_add (copy bytes position source count) 0 position count
  rw [Nat.zero_add, before, middle] at start
  rw [BoundedFile.overwrite, window_take _ _ inside, window_length]
  obtain shorter | longer := Nat.le_total (position + count) len
  · have rest : window (copy bytes position source count) (position + count)
        (len - (position + count)) = window bytes (position + count)
          (len - (position + count)) :=
      window_agree (agree_copy_outside _ _ (by omega))
    have whole := window_add (copy bytes position source count) 0 (position + count)
      (len - (position + count))
    rw [Nat.zero_add, start, rest, Nat.add_sub_cancel' shorter] at whole
    rw [Nat.max_eq_left shorter, whole, window_drop _ _ shorter, Nat.zero_add]
  · rw [Nat.max_eq_right longer, start, drop_of_length_le (by simpa using longer),
      append_nil]

theorem setInode_lookup (fs : FileSystem) (slot : Slot) {node : Inode}
    (valid : node.valid = (fs.inodes slot).valid)
    (number : node.inodeNum = (fs.inodes slot).inodeNum) (num : UInt32) :
    (fs.setInode slot node).findInodeByNum num = fs.findInodeByNum num := by
  apply findInodeByNum_same
  · intro other
    by_cases same : other = slot
    · rw [same, fs.setInode_self, valid]
    · rw [fs.setInode_other slot other node same]
  · intro other
    by_cases same : other = slot
    · rw [same, fs.setInode_self, number]
    · rw [fs.setInode_other slot other node same]

section

variable {fd : Int} {index : Descriptor} {bytes : Nat → UInt8}

structure Written (fs after : FileSystem) (index : Descriptor) (slot : Slot)
    (bytes buffer : Nat → UInt8) (count : Nat) : Prop where
  data : (after.inodes slot).data =
    .buffer (Bytes.copy bytes (fs.fileDescriptors index).position.toNat buffer count)
  position : (after.fileDescriptors index).position.toNat =
    (fs.fileDescriptors index).position.toNat + count
  size : (after.inodes slot).size.toNat =
    max (fs.inodes slot).size.toNat ((fs.fileDescriptors index).position.toNat + count)
  others : ∀ other, other ≠ slot → after.inodes other = fs.inodes other

section

variable (opened : openFile fs fd modeWrite = some (index, slot))
  (data : (fs.inodes slot).data = .buffer bytes) (buffer : Nat → UInt8) (size : UInt32)
  (inside : (fs.fileDescriptors index).position.toNat ≤ maxFileSize)

include opened data buffer size inside

section

variable (noWrap : (fs.fileDescriptors index).position.toNat + size.toNat < 2 ^ 32)

include noWrap

theorem fsWrite_eq (count : Nat)
    (room : count = min size.toNat (maxFileSize - (fs.fileDescriptors index).position.toNat)) :
    ∃ position newSize : UInt32, fsWrite fs fd (some buffer) size =
        .ok ((fs.setInode slot { fs.inodes slot with
          data := .buffer
            (copy bytes (fs.fileDescriptors index).position.toNat buffer count)
          size := if newSize > (fs.inodes slot).size then newSize else (fs.inodes slot).size
          }).setDescriptor index { fs.fileDescriptors index with
          position := position
          size := if newSize > (fs.inodes slot).size then newSize
            else (fs.fileDescriptors index).size }, (count : Int)) ∧
      position.toNat = (fs.fileDescriptors index).position.toNat + count ∧
      newSize.toNat = (fs.fileDescriptors index).position.toNat + count := by
  obtain ⟨copies, extent⟩ :=
    writeExtent_toNat inside noWrap
  rw [← room] at copies extent
  have limit : maxFileSize = 65536 := rfl
  have copied : fileBuffer (fs.inodes slot).data (fs.fileDescriptors index).position
      (writeExtent (fs.fileDescriptors index).position size).1 = .ok bytes := by
    rw [data, fileBuffer, copies, if_pos (by omega)]
  simp only [fsWrite, opened, copied]
  rw [signed_small _ (by rw [copies]; omega), copies]
  refine ⟨_, _, rfl, ?_, extent⟩
  rw [UInt32.toNat_add, copies]
  omega

theorem fsWrite_written :
    ∃ after, fsWrite fs fd (some buffer) size = .ok (after,
        (min size.toNat (maxFileSize - (fs.fileDescriptors index).position.toNat) : Nat)) ∧
      Written fs after index slot bytes buffer
        (min size.toNat (maxFileSize - (fs.fileDescriptors index).position.toNat)) := by
  obtain ⟨position, newSize, returned, moved, extent⟩ :=
    fsWrite_eq opened data buffer size inside noWrap _ rfl
  refine ⟨_, returned, ?_, ?_, ?_, ?_⟩
  · rw [setDescriptor_inodes, setInode_self]
  · rw [setDescriptor_self]
    exact moved
  · rw [setDescriptor_inodes, setInode_self, ← extent]
    exact grownSize_toNat rfl
  · intro other different
    exact fs.setInode_other slot other _ different

end

-- A count that wraps is taken as it is, and the copy leaves the buffer.
theorem fsWrite_wraps (wraps : 2 ^ 32 ≤ (fs.fileDescriptors index).position.toNat + size.toNat) :
    fsWrite fs fd (some buffer) size = .error .outOfBounds := by
  unfold maxFileSize at inside
  have bound := size.toNat_lt
  have sum : ((fs.fileDescriptors index).position + size).toNat =
      (fs.fileDescriptors index).position.toNat + size.toNat - 2 ^ 32 := by
    rw [UInt32.toNat_add]
    omega
  have whole : (writeExtent (fs.fileDescriptors index).position size).1 = size := by
    rw [writeExtent, if_neg]
    rw [gt_iff_lt, lt_iff_toNat_lt, sum, show (UInt32.ofNat maxFileSize).toNat = 65536 from rfl]
    omega
  have outside : ¬ (fs.fileDescriptors index).position.toNat + size.toNat ≤ maxFileSize := by
    unfold maxFileSize
    omega
  simp only [fsWrite, opened, whole, data, fileBuffer, if_neg outside]

end

end

section

variable {fd : Descriptor} {file : ByteFile} (represents : Represents fs fd slot file)

include represents

theorem Represents.openFile (mode : UInt32) (opened : (fs.fileDescriptors fd).mode &&& mode ≠ 0) :
    openFile fs fd.val mode = some (fd, slot) :=
  openFile_val represents.valid opened represents.lookup represents.isFile

theorem Represents.bounds : (fs.fileDescriptors fd).position.toNat ≤ maxFileSize ∧
    file.position ≤ maxFileSize := by
  have inside := Nat.le_trans file.within file.fits
  exact ⟨represents.position ▸ inside, inside⟩

theorem Represents.fsSize : (fsSize fs fd.val).toNat = file.content.length := by
  simp only [Fs.fsSize, validDescriptor_val fs fd represents.valid, represents.size]

theorem fsWrite_represents (buffer : Nat → UInt8) {size : UInt32} (small : size.toNat < 2 ^ 31) :
    ∃ after, fsWrite fs fd.val (some buffer) size = .ok (after, (file.room size.toNat : Int)) ∧
      Represents after fd slot (file.write (window buffer 0 size.toNat)) := by
  obtain ⟨bytes, data, content⟩ := represents.bytes
  obtain ⟨inside, -⟩ := represents.bounds
  have roomLe : file.room size.toNat ≤ size.toNat := Nat.min_le_left _ _
  obtain ⟨position, newSize, returned, moved, extent⟩ := fsWrite_eq
    (represents.openFile modeWrite represents.writes) data buffer size inside (by
      unfold maxFileSize at inside
      omega) (file.room size.toNat) (by rw [represents.position]; rfl)
  rw [represents.position] at moved extent
  refine ⟨_, returned, ?_⟩
  have length : (file.write (window buffer 0 size.toNat)).content.length =
      max file.content.length (file.position + file.room size.toNat) := by
    simp only [BoundedFile.write, BoundedFile.overwrite_length _ file.within,
      length_take, window_length]
    omega
  -- The sizes in the descriptor and in the inode grow together.
  have grown : ∀ old : UInt32, old.toNat = file.content.length →
      (if newSize > (fs.inodes slot).size then newSize else old).toNat =
      max file.content.length (file.position + file.room size.toNat) := by
    intro old oldSize
    rw [grownSize_toNat (oldSize.trans represents.nodeSize.symm), represents.nodeSize, extent]
  exact {
    valid := by rw [setDescriptor_self]; exact represents.valid
    reads := by rw [setDescriptor_self]; exact represents.reads
    writes := by rw [setDescriptor_self]; exact represents.writes
    lookup := by
      rw [setDescriptor_self, ← represents.lookup]
      exact setInode_lookup fs slot (by rfl) (by rfl) _
    isFile := by
      rw [setDescriptor_inodes, setInode_self]
      exact represents.isFile
    position := by
      rw [setDescriptor_self]
      refine moved.trans ?_
      simp only [BoundedFile.write, window_length]
    size := by
      rw [setDescriptor_self, length]
      exact grown _ represents.size
    nodeSize := by
      rw [setDescriptor_inodes, setInode_self, length]
      exact grown _ represents.nodeSize
    bytes := by
      rw [setDescriptor_inodes, setInode_self]
      refine ⟨_, rfl, ?_⟩
      rw [length, represents.position, window_overwrite _ _ _ file.within, content]
      simp only [BoundedFile.write, window_length]
      rw [window_take _ _ roomLe] }

theorem Represents.moved (moved : ByteFile) (position : UInt32)
    (content : moved.content = file.content) (here : position.toNat = moved.position) :
    Represents (fs.setDescriptor fd { fs.fileDescriptors fd with position := position }) fd slot
      moved := by
  refine ⟨?_, ?_, ?_, ?_, represents.isFile, ?_, ?_, ?_, ?_⟩
  · rw [setDescriptor_self]
    exact represents.valid
  · rw [setDescriptor_self]
    exact represents.reads
  · rw [setDescriptor_self]
    exact represents.writes
  · rw [setDescriptor_self]
    exact represents.lookup
  · rw [setDescriptor_self]
    exact here
  · rw [setDescriptor_self, content]
    exact represents.size
  · rw [content]
    exact represents.nodeSize
  · rw [content]
    exact represents.bytes

theorem readCount_toNat (size : UInt32) :
    (readCount (fs.inodes slot) (fs.fileDescriptors fd) size).toNat =
      file.available size.toNat := by
  have inside := file.within
  have available : ((fs.inodes slot).size - (fs.fileDescriptors fd).position).toNat =
      file.content.length - file.position := by
    rw [UInt32.toNat_sub_of_le _ _ (by
      rw [le_iff_toNat_le, represents.position, represents.nodeSize]
      exact inside), represents.position, represents.nodeSize]
  simp only [readCount, BoundedFile.available]
  split
  · next beyond =>
    rw [gt_iff_lt, lt_iff_toNat_lt, available] at beyond
    rw [available]
    omega
  · next within =>
    rw [gt_iff_lt, lt_iff_toNat_lt, available] at within
    omega

theorem fsRead_represents (buffer : Nat → UInt8) {size : UInt32} (small : size.toNat < 2 ^ 31) :
    ∃ after target, fsRead fs fd.val (some buffer) size =
        .ok (after, (file.available size.toNat : Int), some target) ∧
      window target 0 (file.available size.toNat) = file.taken size.toNat ∧
      Represents after fd slot (file.read size.toNat) := by
  obtain ⟨bytes, data, content⟩ := represents.bytes
  have count := readCount_toNat represents size
  have countLe : file.available size.toNat ≤ size.toNat := Nat.min_le_left _ _
  have within := file.within
  have most := file.fits
  have inside : file.position + file.available size.toNat ≤ file.content.length := by
    unfold BoundedFile.available
    omega
  simp only [fsRead, represents.openFile modeRead represents.reads]
  split
  · next nothing =>
    have zero : file.available size.toNat = 0 := by
      rw [← count, nothing]
      rfl
    have same : file.read size.toNat = file := by
      simp only [BoundedFile.read, zero, Nat.add_zero]
    refine ⟨fs, buffer, by rw [zero]; rfl, ?_, by rw [same]; exact represents⟩
    have empty := file.taken_length size.toNat
    rw [zero] at empty ⊢
    rw [eq_nil_of_length_eq_zero empty]
    rfl
  · have copied : fileBuffer (fs.inodes slot).data (fs.fileDescriptors fd).position
        (readCount (fs.inodes slot) (fs.fileDescriptors fd) size) = .ok bytes := by
      rw [data, fileBuffer, count, represents.position, if_pos (Nat.le_trans inside most)]
    simp only [copied]
    rw [signed_small _ (by omega), count]
    refine ⟨_, _, rfl, ?_, ?_⟩
    · rw [window_agree (agree_copy _ _ _ _), represents.position]
      have part := window_drop bytes 0 within
      rw [content, Nat.zero_add] at part
      rw [BoundedFile.taken, part, take_eq_take_min, window_length,
        window_take _ _ (Nat.min_le_right _ _)]
      exact window_agree (fun i _ => by rw [Nat.zero_add])
    · refine represents.moved (file.read size.toNat) _ rfl ?_
      unfold maxFileSize at most
      rw [UInt32.toNat_add, count, represents.position]
      simp only [BoundedFile.read]
      omega

section

variable {offset : Int32} (known : whence < 3)
    (forward : 0 ≤ (seekBase file whence : Int) + offset.toInt)

include known forward

theorem seekTarget_toNat :
    ∃ target, seekTarget (fs.fileDescriptors fd) offset whence = some target ∧
      target.toNat = (seekBase file whence + offset.toInt).toNat := by
  have position := represents.position
  have size := represents.size
  have inside := file.within
  have most := file.fits
  unfold maxFileSize at most
  have sum : ∀ base : UInt32, base.toNat = seekBase file whence →
      (base + offset.toUInt32).toNat = (seekBase file whence + offset.toInt).toNat := by
    intro base value
    have reach : seekBase file whence ≤ 65536 := by
      unfold seekBase
      split
      · exact Nat.zero_le _
      · split <;> omega
    have wrapped := toInt_cases offset
    rw [UInt32.toNat_add]
    omega
  obtain rfl | rfl | rfl := whence_cases known
  · have zero := sum 0 rfl
    rw [UInt32.zero_add] at zero
    exact ⟨_, rfl, zero⟩
  · exact ⟨_, rfl, sum _ position⟩
  · exact ⟨_, rfl, sum _ size⟩

theorem fsSeek_represents :
    ∃ after, fsSeek fs fd.val offset whence =
        (after, ((file.seek (seekBase file whence + offset.toInt).toNat).position : Int)) ∧
      Represents after fd slot (file.seek (seekBase file whence + offset.toInt).toNat) := by
  obtain ⟨target, found, value⟩ := seekTarget_toNat represents known forward
  have most := file.fits
  unfold maxFileSize at most
  have clamped : (if target > (fs.fileDescriptors fd).size then (fs.fileDescriptors fd).size
      else target).toNat = (file.seek (seekBase file whence + offset.toInt).toNat).position := by
    simp only [BoundedFile.seek]
    split
    · next beyond =>
      rw [gt_iff_lt, lt_iff_toNat_lt, represents.size] at beyond
      rw [represents.size]
      omega
    · next within =>
      rw [gt_iff_lt, lt_iff_toNat_lt, represents.size] at within
      omega
  have small : (file.seek (seekBase file whence + offset.toInt).toNat).position < 2 ^ 31 :=
    Nat.lt_of_le_of_lt (Nat.le_trans (Nat.min_le_right _ _) most) (by decide)
  simp only [fsSeek, validDescriptor_val fs fd represents.valid, found]
  rw [signed_small _ (by rw [clamped]; exact small), clamped]
  exact ⟨_, rfl, represents.moved _ _ rfl clamped⟩

end

theorem call_represents {call : FileCall} (allowed : call.Allowed file) :
    ∃ after, call.apply fs fd = .ok (after, (call.spec file).2) ∧
      Represents after fd slot (call.spec file).1 := by
  cases call with
  | fsWrite buffer size =>
    obtain ⟨after, returned, next⟩ := fsWrite_represents represents buffer allowed
    exact ⟨after, by rw [FileCall.apply, returned]; rfl, next⟩
  | fsRead buffer size =>
    obtain ⟨after, target, returned, taken, next⟩ :=
      fsRead_represents represents buffer allowed
    refine ⟨after, ?_, next⟩
    rw [FileCall.apply, returned, FileCall.spec, ← taken]
    rfl
  | fsSeek offset whence =>
    obtain ⟨after, returned, next⟩ :=
      fsSeek_represents represents allowed.1 allowed.2
    exact ⟨after, by rw [FileCall.apply, returned]; rfl, next⟩

end

theorem runCalls_represents {fd : Descriptor} {slot : Slot} {calls : List FileCall}
    {file : ByteFile} (represents : Represents fs fd slot file) (allowed : AllowedRun file calls) :
    ∃ after, runCalls fd fs calls = .ok (after, (runSpec file calls).2) ∧
      Represents after fd slot (runSpec file calls).1 := by
  induction calls generalizing fs file with
  | nil => exact ⟨fs, rfl, represents⟩
  | cons call calls ih =>
    obtain ⟨next, applied, kept⟩ := call_represents represents allowed.1
    obtain ⟨after, rest, final⟩ := ih kept allowed.2
    refine ⟨after, ?_, final⟩
    simp only [runCalls, applied, rest]
    rfl

theorem runSpec_append (first second : List FileCall) (file : ByteFile) :
    runSpec file (first ++ second) =
      ((runSpec (runSpec file first).1 second).1,
        (runSpec file first).2 ++ (runSpec (runSpec file first).1 second).2) := by
  induction first generalizing file with
  | nil => rfl
  | cons call calls ih => simp only [cons_append, runSpec, ih]

theorem allowedRun_append {first second : List FileCall} {file : ByteFile}
    (before : AllowedRun file first) (after : AllowedRun (runSpec file first).1 second) :
    AllowedRun file (first ++ second) := by
  induction first generalizing file with
  | nil => exact after
  | cons call calls ih => exact ⟨before.1, ih before.2 after⟩

abbrev Chunk := (Nat → UInt8) × UInt32

def Chunk.bytes (chunk : Chunk) : List UInt8 :=
  Bytes.window chunk.1 0 chunk.2.toNat

def writeCalls (chunks : List Chunk) : List FileCall :=
  chunks.map (fun chunk => .fsWrite chunk.1 chunk.2)

def readCalls (chunks : List Chunk) : List FileCall :=
  chunks.map (fun chunk => .fsRead chunk.1 chunk.2)

theorem allowedRun_always {calls : List FileCall} (file : ByteFile)
    (allowed : ∀ call ∈ calls, ∀ now, call.Allowed now) : AllowedRun file calls := by
  induction calls generalizing file with
  | nil => trivial
  | cons call calls ih =>
    exact ⟨allowed call mem_cons_self file,
      ih (call.spec file).1 (fun other member => allowed other (mem_cons_of_mem call member))⟩

theorem runSpec_writes (chunks : List Chunk) (file : ByteFile) :
    (runSpec file (writeCalls chunks)).1 = file.writes (chunks.map Chunk.bytes) ∧
    ((runSpec file (writeCalls chunks)).2.map Answer.bytes).flatten = [] := by
  induction chunks generalizing file with
  | nil => exact ⟨rfl, rfl⟩
  | cons chunk chunks ih => exact ih (file.write chunk.bytes)

theorem runSpec_reads (chunks : List Chunk) (file : ByteFile) :
    ((runSpec file (readCalls chunks)).2.map Answer.bytes).flatten =
      file.reads (chunks.map (fun chunk => chunk.2.toNat)) := by
  induction chunks generalizing file with
  | nil => rfl
  | cons chunk chunks ih =>
    exact congrArg (file.taken chunk.2.toNat ++ ·) (ih (file.read chunk.2.toNat))

theorem writes_seek_reads {file : ByteFile} (empty : file.content = []) {written wanted : List Chunk}
    (writesSmall : ∀ chunk ∈ written, chunk.2.toNat < 2 ^ 31)
    (readsSmall : ∀ chunk ∈ wanted, chunk.2.toNat < 2 ^ 31) :
    AllowedRun file (writeCalls written ++ .fsSeek 0 0 :: readCalls wanted) ∧
    ((runSpec file (writeCalls written ++ .fsSeek 0 0 :: readCalls wanted)).2.map
        Answer.bytes).flatten =
      ((written.map Chunk.bytes).flatten.take maxFileSize).take
        (wanted.map (fun chunk => chunk.2.toNat)).sum := by
  constructor
  · refine allowedRun_append (allowedRun_always _ ?_)
      ⟨⟨by decide, Int.le_refl 0⟩, allowedRun_always _ ?_⟩
    · intro call member _
      obtain ⟨chunk, inside, rfl⟩ := mem_map.mp member
      exact writesSmall chunk inside
    · intro call member _
      obtain ⟨chunk, inside, rfl⟩ := mem_map.mp member
      exact readsSmall chunk inside
  · have atEnd : file.position = file.content.length := by
      have inside := file.within
      rw [empty] at inside ⊢
      exact Nat.le_zero.mp inside
    obtain ⟨state, silent⟩ := runSpec_writes written file
    have content := (file.writes_end (written.map Chunk.bytes) atEnd).1
    rw [empty, nil_append] at content
    have rewound : ((FileCall.fsSeek 0 0).spec (runSpec file (writeCalls written)).1).1 =
        (file.writes (written.map Chunk.bytes)).seek 0 := by
      rw [state]
      rfl
    rw [runSpec_append, map_append, flatten_append, silent, nil_append]
    simp only [runSpec, map_cons, flatten_cons]
    rw [rewound, runSpec_reads, BoundedFile.reads_taken, BoundedFile.taken]
    simp only [BoundedFile.seek, Nat.zero_min, drop_zero, content]
    rfl

def FilesFit (fs : FileSystem) : Prop :=
  ∀ slot, (fs.inodes slot).valid = true → (fs.inodes slot).type = typeFile →
    (fs.inodes slot).size.toNat ≤ maxFileSize ∧ ∃ bytes, (fs.inodes slot).data = .buffer bytes

theorem Creation.filesFit {name : List UInt8} {type : UInt32} {parent : Option Slot}
    (creation : Creation fs slot name type parent after) (fits : FilesFit fs) : FilesFit after := by
  have new : FilesFit (withNew fs slot name type parent) := by
    intro other valid isFile
    by_cases same : other = slot
    · subst same
      rw [withNew, takeInode_self] at isFile ⊢
      refine ⟨Nat.zero_le _, fun _ => 0, ?_⟩
      exact if_pos isFile
    · rw [withNew, takeInode_other _ _ _ _ same] at valid isFile ⊢
      exact fits other valid isFile
  cases creation with
  | apart _ => exact new
  | linked dir first _ isDir _ =>
    intro other valid isFile
    rw [setData_inodes, setNext_inodes] at valid isFile ⊢
    have different : other ≠ dir := by
      rintro rfl
      exact typeFile_ne_typeDir (isFile.symm.trans isDir)
    simp only [if_neg different]
    exact new other valid isFile

theorem fsCreateInode_filesFit {name : List UInt8} {type : UInt32} {parent node : Option Slot}
    {memory : Bool} (fits : FilesFit fs)
    (returned : fsCreateInode fs name type parent memory = .ok (after, node)) : FilesFit after := by
  obtain ⟨-, -, rfl⟩ | ⟨slot, -, -, -, -, rfl⟩ | ⟨slot, -, -, -, creation⟩ :=
    fsCreateInode_cases returned
  · exact fits
  · intro other valid isFile
    by_cases same : other = slot
    · subst same
      rw [takeInode_self] at valid
      contradiction
    · rw [takeInode_other _ _ _ _ same] at valid isFile ⊢
      exact fits other valid isFile
  · exact creation.filesFit fits

theorem unlinkChild_filesFit {parent : Slot} (fits : FilesFit fs)
    (returned : unlinkChild fs parent slot = .ok after) : FilesFit after := by
  obtain ⟨first, head, ⟨-, rfl⟩ | ⟨-, -, rfl⟩ | ⟨child, -, -, rfl⟩⟩ := unlinkChild_cases returned
  · intro other valid isFile
    rw [setData_inodes] at valid isFile ⊢
    obtain ⟨small, bytes, data⟩ := fits other valid isFile
    have different : other ≠ parent := by
      rintro rfl
      rw [data] at head
      contradiction
    simp only [if_neg different]
    exact ⟨small, bytes, data⟩
  · exact fits
  · intro other valid isFile
    rw [setNext_inodes] at valid isFile ⊢
    exact fits other valid isFile

theorem operation_filesFit {operation : Operation} {result : Int} (fits : FilesFit fs)
    (returned : operation.apply fs = .ok (after, result)) : FilesFit after := by
  cases operation_effect returned with
  | pointers same =>
    rw [same]
    exact fits
  | onFile step =>
    intro slot valid isFile
    obtain same | ⟨wasFile, bytes, size, bound, written⟩ := step.inodes slot
    · rw [same] at valid isFile ⊢
      exact fits slot valid isFile
    · rw [written] at valid ⊢
      refine ⟨?_, bytes, rfl⟩
      obtain rfl | small := bound
      · exact (fits slot valid wasFile).1
      · exact small
  | create path type memory found node _ _ made same =>
    have foundFits := fsCreateInode_filesFit fits made
    rw [same]
    exact foundFits
  | remove slot unlinked removed unlinking =>
    have unlinkedFits : FilesFit unlinked := by
      obtain ⟨-, rfl⟩ | ⟨parent, -, done⟩ := unlinking
      · exact fits
      · exact unlinkChild_filesFit fits done
    rw [removed]
    intro other valid isFile
    by_cases same : other = slot
    · subst same
      rw [invalidate, setInode_self] at valid
      contradiction
    · rw [invalidate, setInode_other _ _ _ _ same] at valid isFile ⊢
      exact unlinkedFits other valid isFile

theorem createRoot_filesFit (fits : FilesFit fs) (returned : createRoot fs = .ok after) :
    FilesFit after := by
  unfold createRoot at returned
  split at returned
  · contradiction
  · next created root made =>
    cases returned
    have createdFits := fsCreateInode_filesFit fits made
    exact createdFits

theorem fsOpen_represents {found opened : FileSystem} {path : CString} {mode : UInt32}
    {memory : Bool} {fd : Descriptor}
    (returned : fsOpen fs (some path) mode memory = .ok (opened, (fd.val : Int)))
    (file : openNode fs path mode memory = .ok (found, some slot))
    (kept : (opened.inodes slot).valid = true)
    (distinct : ∀ first second, (opened.inodes first).valid = true →
      (opened.inodes second).valid = true →
      (opened.inodes first).inodeNum = (opened.inodes second).inodeNum → first = second)
    (fits : FilesFit opened) (reads : mode &&& modeRead ≠ 0) (writes : mode &&& modeWrite ≠ 0) :
    ∃ file, Represents opened fd slot file := by
  obtain ⟨-, failed⟩ | ⟨text, found', node, same, -, opening, described⟩ := fsOpen_cases returned
  · omega
  · cases same
    rw [file] at opening
    cases opening
    obtain failed | ⟨slot', fd', found', isFile, -, given⟩ := openDescriptor_cases found (some slot) mode
    · rw [failed, Prod.mk.injEq] at described
      omega
    · cases found'
      rw [given, Prod.mk.injEq] at described
      obtain ⟨rfl, number⟩ := described
      have sameFd : fd' = fd := Fin.ext (Int.ofNat.inj number)
      subst sameFd
      obtain ⟨small, bytes, data⟩ := fits slot kept isFile
      have entry := found.setDescriptor_self fd' (openEntry (found.inodes slot) mode)
      refine ⟨{
        content := window bytes 0 (found.inodes slot).size.toNat
        position := if mode &&& modeAppend ≠ 0 then (found.inodes slot).size.toNat else 0
        within := by rw [window_length]; split <;> omega
        fits := by rw [window_length]; exact small }, ?_⟩
      refine ⟨by rw [entry]; rfl, by rw [entry]; exact reads, by rw [entry]; exact writes, ?_, isFile,
        ?_, ?_, ?_, ⟨bytes, data, ?_⟩⟩
      · rw [entry]
        exact findInodeByNum_unique kept
          (fun other otherValid same => distinct other slot otherValid kept same)
      · rw [entry]
        simp only [openEntry]
        split <;> rfl
      · rw [entry, window_length]
        rfl
      · rw [window_length]
        rfl
      · simp only [window_length]

theorem descriptor_refines_byteFile {fs found opened : FileSystem} {path : CString}
    {mode : UInt32} {memory : Bool} {fd : Descriptor} {slot : Slot}
    (returned : fsOpen fs (some path) mode memory = .ok (opened, (fd.val : Int)))
    (file : openNode fs path mode memory = .ok (found, some slot))
    (kept : (opened.inodes slot).valid = true)
    (distinct : ∀ first second, (opened.inodes first).valid = true →
      (opened.inodes second).valid = true →
      (opened.inodes first).inodeNum = (opened.inodes second).inodeNum → first = second)
    (fits : FilesFit opened) (reads : mode &&& modeRead ≠ 0) (writes : mode &&& modeWrite ≠ 0) :
    ∃ file : ByteFile, Represents opened fd slot file ∧
      (∀ calls, AllowedRun file calls → ∃ after,
        runCalls fd opened calls = .ok (after, (runSpec file calls).2) ∧
        Represents after fd slot (runSpec file calls).1 ∧
        (fsSize after fd.val).toNat = (runSpec file calls).1.content.length) ∧
      (file.content = [] → ∀ written wanted : List Chunk,
        (∀ chunk ∈ written, chunk.2.toNat < 2 ^ 31) → (∀ chunk ∈ wanted, chunk.2.toNat < 2 ^ 31) →
        ∃ after answers, runCalls fd opened
            (writeCalls written ++ .fsSeek 0 0 :: readCalls wanted) = .ok (after, answers) ∧
          (answers.map Answer.bytes).flatten =
            ((written.map Chunk.bytes).flatten.take maxFileSize).take
              (wanted.map (fun chunk => chunk.2.toNat)).sum) := by
  obtain ⟨start, represents⟩ := fsOpen_represents returned file kept distinct fits reads writes
  refine ⟨start, represents, ?_, ?_⟩
  · intro calls allowed
    obtain ⟨after, ran, final⟩ := runCalls_represents represents allowed
    exact ⟨after, ran, final, final.fsSize⟩
  · intro empty written wanted writesSmall readsSmall
    obtain ⟨allowed, joined⟩ := writes_seek_reads empty writesSmall readsSmall
    obtain ⟨after, ran, -⟩ := runCalls_represents represents allowed
    exact ⟨after, _, ran, joined⟩

def secondOnly (fs : FileSystem) : Bool :=
  (fs.inodes 1).valid && decide (∀ slot, (fs.inodes slot).valid = true → slot = 0 ∨ slot = 1) &&
    (fs.inodes 0).inodeNum != (fs.inodes 1).inodeNum

theorem secondOnly_spec (checked : secondOnly fs = true) :
    (fs.inodes 1).valid = true ∧ ∀ first second, (fs.inodes first).valid = true →
      (fs.inodes second).valid = true →
      (fs.inodes first).inodeNum = (fs.inodes second).inodeNum → first = second := by
  simp only [secondOnly, Bool.and_eq_true, decide_eq_true_eq, bne_iff_ne] at checked
  obtain ⟨⟨valid, only⟩, different⟩ := checked
  refine ⟨valid, ?_⟩
  intro first second firstValid secondValid same
  obtain rfl | rfl := only first firstValid
  · obtain rfl | rfl := only second secondValid
    · rfl
    · exact absurd same different
  · obtain rfl | rfl := only second secondValid
    · exact absurd same.symm different
    · rfl

theorem descriptor_refines_byteFile_new : ∃ fs opened file, createRoot bootState = .ok fs ∧
    fsOpen fs (some ⟨[97], by decide⟩) 3 true = .ok (opened, ((0 : Descriptor).val : Int)) ∧
    Represents opened 0 1 file ∧
    ∃ after answers, runCalls 0 opened
        (writeCalls [(fun _ => 7, 3)] ++ .fsSeek 0 0 :: readCalls [(fun _ => 0, 2)]) =
          .ok (after, answers) ∧ (answers.map Answer.bytes).flatten = [7, 7] := by
  let path : CString := ⟨[97], by decide⟩
  have evaluated : (createRoot bootState).toOption.any (fun fs =>
      (openNode fs path 3 true).toOption.any (fun r => r.2 == some 1) &&
      (fsOpen fs (some path) 3 true).toOption.any (fun r =>
        r.2 == 0 && secondOnly r.1 && (r.1.inodes 1).size == 0)) = true := by
    decide +kernel
  obtain ⟨fs, created, -, tree, current⟩ := createRoot_keeps bootState (fun _ => rfl)
  obtain ⟨opened, result, returned, -⟩ := open_keeps tree current (some path) 3 true
  obtain ⟨found, node, file, -⟩ := openNode_keeps tree current path 3 true
  simp only [created, returned, file, Except.toOption, Option.any_some, Bool.and_eq_true,
    beq_iff_eq] at evaluated
  obtain ⟨rfl, ⟨rfl, checked⟩, size⟩ := evaluated
  obtain ⟨valid, distinct⟩ := secondOnly_spec checked
  have fits : FilesFit opened := by
    have opening : (Operation.fsOpen (some path) 3 true).apply fs = .ok (opened, 0) := returned
    have none : FilesFit bootState := fun _ valid => absurd valid Bool.false_ne_true
    exact operation_filesFit (createRoot_filesFit none created) opening
  have first : fsOpen fs (some path) 3 true = .ok (opened, ((0 : Descriptor).val : Int)) := returned
  obtain ⟨start, represents, -, chunks⟩ := descriptor_refines_byteFile first file valid distinct
    fits (by decide) (by decide)
  have empty : start.content = [] := by
    apply List.eq_nil_of_length_eq_zero
    rw [← represents.nodeSize, size]
    rfl
  exact ⟨fs, opened, start, created, returned, represents,
    chunks empty [(fun _ => 7, 3)] [(fun _ => 0, 2)] (by decide) (by decide)⟩

end ArgoOS.Fs
