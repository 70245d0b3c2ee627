import ArgoOS.Fs.Effects

set_option autoImplicit false

/-! # Reading and writing through system calls -/

namespace ArgoOS.Fs

open List

structure Serial where
  sent : List UInt8
  arriving : List UInt8

structure Kernel where
  files : FileSystem
  serial : Serial

def newline : UInt8 := 10
def carriageReturn : UInt8 := 13

-- The loop of `sys_read` on the port: the bytes it stores and those that are left. It has
-- no result if it waits for a byte that never arrives.
def readSerial : List UInt8 → Nat → Option (List UInt8 × List UInt8)
  | arriving, 0 => some ([], arriving)
  | [], _ + 1 => none
  | c :: arriving, n + 1 =>
    if c = 0 then readSerial arriving (n + 1)
    else if c = newline ∨ c = carriageReturn then some ([c], arriving)
    else (readSerial arriving n).map (fun r => (c :: r.1, r.2))

section

variable (s : Kernel)

def Kernel.write (result : Except Fault (FileSystem × Int)) : Except Fault (Kernel × Int) :=
  result.map (fun r => ({ s with files := r.1 }, r.2))

def Kernel.read (result : Except Fault (FileSystem × Int × Option (Nat → UInt8))) :
    Except Fault (Kernel × Int × Option (Nat → UInt8)) :=
  result.map (fun r => ({ s with files := r.1 }, r.2))

def Kernel.send (bytes : List UInt8) : Kernel :=
  { s with serial := { s.serial with sent := s.serial.sent ++ bytes } }

def Kernel.receive (arriving : List UInt8) : Kernel :=
  { s with serial := { s.serial with arriving := arriving } }

def sysWrite (fd : UInt32) (buffer : Option (Nat → UInt8)) (count : UInt32) :
    Except Fault (Kernel × Int) :=
  match buffer with
  | none => .ok (s, -1)
  | some bytes =>
    if count = 0 then .ok (s, -1)
    else if fd = 1 ∨ fd = 2 then .ok (s.send (Bytes.window bytes 0 count.toNat), signed count)
    else if 3 ≤ fd then s.write (fsWrite s.files (signed fd) (some bytes) count)
    else .ok (s, -1)

/-- The third result is the caller's buffer after the call. -/
def sysRead (fd : UInt32) (buffer : Option (Nat → UInt8)) (count : UInt32) :
    Option (Except Fault (Kernel × Int × Option (Nat → UInt8))) :=
  match buffer with
  | none => some (.ok (s, -1, none))
  | some target =>
    if count = 0 then some (.ok (s, -1, buffer))
    else if fd = 0 then
      (readSerial s.serial.arriving count.toNat).map (fun (line, arriving) =>
        .ok (s.receive arriving, signed (UInt32.ofNat line.length),
          some (Bytes.copy target 0 (fun i => line.getD i 0) line.length)))
    else if 3 ≤ fd then some (s.read (fsRead s.files (signed fd) (some target) count))
    else some (.ok (s, -1, buffer))

structure ActsOnFile (fd : UInt32) (buffer : Nat → UInt8) (count : UInt32) : Prop where
  write : sysWrite s fd (some buffer) count =
    s.write (fsWrite s.files (signed fd) (some buffer) count)
  read : sysRead s fd (some buffer) count =
    some (s.read (fsRead s.files (signed fd) (some buffer) count))

end

theorem readSerial_length {arriving line left : List UInt8} {n : Nat}
    (returned : readSerial arriving n = some (line, left)) :
    left.length ≤ arriving.length ∧ (0 < n → left.length < arriving.length) := by
  induction arriving generalizing n line with
  | nil =>
    cases n with
    | zero =>
      cases returned
      exact ⟨Nat.le_refl _, by omega⟩
    | succ n => contradiction
  | cons c arriving ih =>
    cases n with
    | zero =>
      cases returned
      exact ⟨Nat.le_refl _, by omega⟩
    | succ n =>
      rw [readSerial] at returned
      rw [length_cons]
      split at returned
      · have shorter := (ih returned).1
        omega
      · split at returned
        · cases returned
          omega
        · obtain ⟨⟨rest, left'⟩, read, same⟩ := Option.map_eq_some_iff.mp returned
          cases same
          have shorter := (ih read).1
          omega

section

variable {s : Kernel} {fd : UInt32} {buffer : Nat → UInt8} {count : UInt32}

theorem actsOnFile_high (positive : count ≠ 0) (high : 3 ≤ fd) :
    ActsOnFile s fd buffer count := by
  have least := UInt32.le_iff_toNat_le.mp high
  have notPort : ∀ port : UInt32, port.toNat < 3 → fd ≠ port := by
    rintro port small rfl
    change 3 ≤ fd.toNat at least
    omega
  have zero := notPort 0 (by decide)
  have one := notPort 1 (by decide)
  have two := notPort 2 (by decide)
  constructor
  · simp only [sysWrite, positive, one, two, high, or_self, if_false, if_true]
  · simp only [sysRead, positive, zero, high, if_false, if_true]

-- The port is written, which a call of the file system never does.
theorem not_actsOnFile_output (positive : count ≠ 0) (port : fd = 1 ∨ fd = 2) :
    ¬ ActsOnFile s fd buffer count := by
  rintro ⟨write, -⟩
  simp only [sysWrite, positive, port, if_false, if_true, Kernel.write] at write
  cases result : fsWrite s.files (signed fd) (some buffer) count with
  | error fault =>
    rw [result] at write
    contradiction
  | ok r =>
    rw [result] at write
    have serial : (s.send (Bytes.window buffer 0 count.toNat)).serial.sent = s.serial.sent :=
      congrArg (fun r : Kernel × Int => r.1.serial.sent) (Except.ok.inj write)
    have none : Bytes.window buffer 0 count.toNat = [] := append_right_eq_self.mp serial
    have length := congrArg List.length none
    rw [Bytes.window_length, length_nil] at length
    exact positive (UInt32.toNat_inj.mp length)

-- A byte is taken from the port, or the call never returns.
theorem not_actsOnFile_input (positive : count ≠ 0) : ¬ ActsOnFile s 0 buffer count := by
  rintro ⟨-, read⟩
  have more : 0 < count.toNat :=
    Nat.pos_of_ne_zero fun zero => positive (UInt32.toNat_inj.mp zero)
  simp only [sysRead, positive, if_false, if_true] at read
  obtain ⟨⟨line, left⟩, taken, same⟩ := Option.map_eq_some_iff.mp read
  have shorter := (readSerial_length taken).2 more
  unfold Kernel.read at same
  cases result : fsRead s.files (signed 0) (some buffer) count with
  | error fault =>
    rw [result] at same
    contradiction
  | ok r =>
    rw [result] at same
    have serial : left = s.serial.arriving :=
      congrArg (fun r : Kernel × Int × Option (Nat → UInt8) => r.1.serial.arriving)
        (Except.ok.inj same)
    rw [serial] at shorter
    omega

theorem actsOnFile_iff (positive : count ≠ 0) : ActsOnFile s fd buffer count ↔ 3 ≤ fd := by
  refine ⟨fun acts => ?_, actsOnFile_high positive⟩
  by_contra low
  rw [UInt32.le_iff_toNat_le] at low
  change ¬ 3 ≤ fd.toNat at low
  have port : fd = 0 ∨ fd = 1 ∨ fd = 2 := by
    simp only [← UInt32.toNat_inj]
    change fd.toNat = 0 ∨ fd.toNat = 1 ∨ fd.toNat = 2
    omega
  rcases port with rfl | output
  · exact not_actsOnFile_input positive acts
  · exact not_actsOnFile_output positive output acts

end

theorem freeDescriptor_lowest {fs : FileSystem} {fd : Descriptor}
    (free : freeDescriptor fs = some fd) : (fs.fileDescriptors fd).valid = false ∧
      ∀ lower : Descriptor, lower.val < fd.val → (fs.fileDescriptors lower).valid = true := by
  obtain ⟨invalid, before, after, split, passed⟩ := List.find?_eq_some_iff_append.mp free
  refine ⟨by simpa using invalid, fun lower below => ?_⟩
  have ordered : (List.finRange 64).Pairwise (· < ·) := pairwise_lt_finRange 64
  have member : lower ∈ before ++ fd :: after := split ▸ mem_finRange lower
  rw [split] at ordered
  rcases mem_append.mp member with inBefore | inRest
  · simpa using passed lower inBefore
  · rcases mem_cons.mp inRest with rfl | inAfter
    · exact absurd below (Nat.lt_irrefl _)
    · have above := rel_of_pairwise_cons (List.pairwise_append.mp ordered).2.1 inAfter
      exact absurd below (Nat.lt_asymm above)

theorem fsOpen_descriptor {fs opened : FileSystem} {path : Option CString} {mode : UInt32}
    {memory : Bool} {fd : Descriptor}
    (returned : fsOpen fs path mode memory = .ok (opened, (fd.val : Int))) :
    freeDescriptor fs = some fd := by
  obtain ⟨-, failed⟩ | ⟨text, found, node, -, -, opening, described⟩ := fsOpen_cases returned
  · omega
  · have table : found.fileDescriptors = fs.fileDescriptors := by
      obtain ⟨rfl, -⟩ | ⟨-, -, made⟩ := openNode_cases opening
      · rfl
      · exact fsCreateInode_descriptors made
    obtain failed | ⟨slot, fd', -, -, free, given⟩ := openDescriptor_cases found node mode
    · rw [failed, Prod.mk.injEq] at described
      omega
    · rw [given, Prod.mk.injEq] at described
      obtain rfl : fd' = fd := Fin.ext (Int.ofNat.inj described.2)
      simpa only [freeDescriptor, table] using free

theorem opened_acts_on_file_iff {fs opened : FileSystem} {path : Option CString} {mode : UInt32}
    {memory : Bool} {fd : Descriptor}
    (returned : fsOpen fs path mode memory = .ok (opened, (fd.val : Int))) (s : Kernel)
    (buffer : Nat → UInt8) (count : UInt32) (positive : count ≠ 0) :
    (ActsOnFile s (UInt32.ofNat fd.val) buffer count ↔ 3 ≤ fd.val) ∧
    (3 ≤ fd.val ↔ ∀ low : Descriptor, low.val < 3 → (fs.fileDescriptors low).valid = true) := by
  obtain ⟨free, taken⟩ := freeDescriptor_lowest (fsOpen_descriptor returned)
  have small := fd.isLt
  refine ⟨?_, fun high low below => taken low (by omega), fun inUse => ?_⟩
  · rw [actsOnFile_iff positive, UInt32.le_iff_toNat_le, UInt32.toNat_ofNat']
    change 3 ≤ fd.val % 2 ^ 32 ↔ 3 ≤ fd.val
    rw [Nat.mod_eq_of_lt (by omega)]
  · by_contra low
    rw [inUse fd (by omega)] at free
    contradiction

section

def textPath : CString := ⟨[97], letter_noNul⟩

def afterOpens : Nat → Option FileSystem
  | 0 => (createRoot bootState).toOption
  | n + 1 => (afterOpens n).bind
      (fun fs => (fsOpen fs (some textPath) (modeRead ||| modeWrite) true).toOption.map Prod.fst)

theorem opened_acts_on_file_iff_fourth : ∃ fs opened, afterOpens 3 = some fs ∧
    fsOpen fs (some textPath) (modeRead ||| modeWrite) true =
      .ok (opened, ((3 : Descriptor).val : Int)) ∧
    ActsOnFile ⟨opened, ⟨[], []⟩⟩ 3 (fun _ => 120) 1 := by
  have evaluated : (afterOpens 3).any (fun fs =>
      (fsOpen fs (some textPath) (modeRead ||| modeWrite) true).toOption.any (fun r =>
        r.2 == ((3 : Descriptor).val : Int))) = true := by
    decide +kernel
  obtain ⟨fs, before, evaluated⟩ := (Option.any_eq_true _ _).mp evaluated
  cases returned : fsOpen fs (some textPath) (modeRead ||| modeWrite) true with
  | error fault => simp [returned, Except.toOption] at evaluated
  | ok r =>
    obtain ⟨opened, fd⟩ := r
    simp only [returned, Except.toOption, Option.any_some, beq_iff_eq] at evaluated
    subst evaluated
    have acts := (opened_acts_on_file_iff returned ⟨opened, ⟨[], []⟩⟩ (fun _ => 120) 1
      (by decide)).1.mpr (by decide)
    exact ⟨fs, opened, before, returned, acts⟩

theorem first_descriptor_is_the_port : ∃ fs opened written, createRoot bootState = .ok fs ∧
    fsOpen fs (some textPath) (modeRead ||| modeWrite) true = .ok (opened, 0) ∧
    fsWrite opened 0 (some fun _ => 120) 1 = .ok (written, 1) ∧
    sysWrite ⟨opened, ⟨[], []⟩⟩ 0 (some fun _ => 120) 1 = .ok (⟨opened, ⟨[], []⟩⟩, -1) ∧
    ¬ ActsOnFile ⟨opened, ⟨[], []⟩⟩ 0 (fun _ => 120) 1 := by
  have evaluated : (createRoot bootState).toOption.any (fun fs =>
      (fsOpen fs (some textPath) (modeRead ||| modeWrite) true).toOption.any (fun r =>
        r.2 == 0 && (fsWrite r.1 0 (some fun _ => 120) 1).toOption.any (fun w => w.2 == 1))) =
          true := by
    decide +kernel
  cases created : createRoot bootState with
  | error fault => simp [created, Except.toOption] at evaluated
  | ok fs =>
    rw [created] at evaluated
    cases returned : fsOpen fs (some textPath) (modeRead ||| modeWrite) true with
    | error fault => simp [returned, Except.toOption] at evaluated
    | ok r =>
      obtain ⟨opened, fd⟩ := r
      cases wrote : fsWrite opened 0 (some fun _ => 120) 1 with
      | error fault => simp [returned, wrote, Except.toOption] at evaluated
      | ok w =>
        obtain ⟨written, count⟩ := w
        simp only [returned, wrote, Except.toOption, Option.any_some, Bool.and_eq_true,
          beq_iff_eq] at evaluated
        obtain ⟨rfl, rfl⟩ := evaluated
        exact ⟨fs, opened, written, rfl, returned, wrote, rfl,
          not_actsOnFile_input (by decide)⟩

end

end ArgoOS.Fs
