import Mathlib
import ArgoOS.Fs.SystemCalls
import ArgoOS.Drivers.Serial

set_option autoImplicit false

/-!
# The calls a shell command makes

A command works on the file system, the serial port and the heap. Of the heap only what
the shell sees is kept: whether a request finds a block, what the block holds then, and
which blocks were not given back.
-/

namespace ArgoOS.Shell

open List

open Fs (FileSystem CString Fault)

/-- `finds n size` tells whether the call number `n` gets a block of `size` bytes, and
`garbage n` is what that block holds before anything is written to it. Blocks have the
number of their call. -/
structure Heap where
  finds : Nat → UInt32 → Bool
  garbage : Nat → Nat → UInt8
  calls : Nat
  held : Finset Nat
  earlier : ∀ block ∈ held, block < calls

namespace Heap

variable (heap : Heap)

def ask : Heap :=
  { heap with
    calls := heap.calls + 1
    earlier := fun block member => Nat.lt_succ_of_lt (heap.earlier block member) }

-- The block of the next call is held after it.
def hold : Heap :=
  { heap with
    calls := heap.calls + 1
    held := insert heap.calls heap.held
    earlier := by
      intro block member
      obtain rfl | before := Finset.mem_insert.mp member
      · exact Nat.lt_succ_self _
      · exact Nat.lt_succ_of_lt (heap.earlier block before) }

def release (block : Nat) : Heap :=
  { heap with
    held := heap.held.erase block
    earlier := fun other member => heap.earlier other (Finset.mem_of_mem_erase member) }

theorem hold_release : (heap.hold.release heap.calls).held = heap.held :=
  Finset.erase_insert (fun member => Nat.lt_irrefl _ (heap.earlier _ member))

-- Every request of at most `limit` bytes finds a block.
def Supplies (limit : Nat) : Prop :=
  ∀ n size, size.toNat ≤ limit → heap.finds n size = true

end Heap

structure Session extends Fs.Kernel where
  heap : Heap

abbrev ShellM := StateT Session (Except Fault)

namespace Session

variable (s : Session)

def send (bytes : List UInt8) : Session :=
  { s with toKernel := s.toKernel.send bytes }

def withFiles (files : FileSystem) : Session :=
  { s with files := files }

def withHeap (heap : Heap) : Session :=
  { s with heap := heap }

@[simp] theorem send_files (bytes : List UInt8) : (s.send bytes).files = s.files := rfl
@[simp] theorem send_heap (bytes : List UInt8) : (s.send bytes).heap = s.heap := rfl
@[simp] theorem send_sent (bytes : List UInt8) :
    (s.send bytes).serial.sent = s.serial.sent ++ bytes := rfl

@[simp] theorem withFiles_files (files : FileSystem) : (s.withFiles files).files = files := rfl
@[simp] theorem withFiles_heap (files : FileSystem) : (s.withFiles files).heap = s.heap := rfl
@[simp] theorem withFiles_serial (files : FileSystem) : (s.withFiles files).serial = s.serial := rfl

@[simp] theorem withHeap_files (heap : Heap) : (s.withHeap heap).files = s.files := rfl
@[simp] theorem withHeap_heap (heap : Heap) : (s.withHeap heap).heap = heap := rfl
@[simp] theorem withHeap_serial (heap : Heap) : (s.withHeap heap).serial = s.serial := rfl

@[simp] theorem send_nil : s.send [] = s := by
  simp [send, Fs.Kernel.send]

@[simp] theorem send_send (first second : List UInt8) :
    (s.send first).send second = s.send (first ++ second) := by
  simp [send, Fs.Kernel.send]

end Session

def literal (s : String) : CString where
  bytes := (Text.ascii s).takeWhile (· ≠ 0)
  noNul := by
    intro member
    have kept := List.mem_takeWhile_imp member
    simp at kept

section

def serialPuts (str : List UInt8) : ShellM Unit :=
  fun s => .ok ((), s.send (Serial.serialPuts str))

def serialPutchar (c : UInt8) : ShellM Unit :=
  fun s => .ok ((), s.send [c])

def serialPutdec (value : UInt32) : ShellM Unit := fun s =>
  match Serial.serialPutdec value with
  | none => .error .outOfBounds
  | some digits => .ok ((), s.send digits)

-- The result is the number of the block.
def kmalloc (size : UInt32) : ShellM (Option Nat) := fun s =>
  if size ≠ 0 ∧ s.heap.finds s.heap.calls size = true then
    .ok (some s.heap.calls, s.withHeap s.heap.hold)
  else .ok (none, s.withHeap s.heap.ask)

def kfree (block : Nat) : ShellM Unit :=
  fun s => .ok ((), s.withHeap (s.heap.release block))

def checked {α : Type} (outcome : Except Fault α) : ShellM α :=
  fun s => outcome.map (·, s)

def fsCall {α : Type} (call : FileSystem → Except Fault (FileSystem × α)) : ShellM α :=
  fun s => (call s.files).map (fun r => (r.2, s.withFiles r.1))

-- Every call of `fs_open` counts as a request, also when it creates nothing.
def fsOpen (path : CString) (mode : UInt32) : ShellM Int := fun s =>
  fsCall (fun fs => Fs.fsOpen fs (some path) mode
    (s.heap.finds s.heap.calls (UInt32.ofNat Fs.maxFileSize))) (s.withHeap s.heap.ask)

def fsClose (fd : Int) : ShellM Int :=
  fsCall (fun fs => .ok (Fs.fsClose fs fd))

def fsSize (fd : Int) : ShellM UInt32 :=
  fun s => .ok (Fs.fsSize s.files fd, s)

-- The buffer is the block with the given number, which nothing was written to before.
def fsRead (fd : Int) (buffer : Nat) (size : UInt32) : ShellM (Int × (Nat → UInt8)) := fun s =>
  fsCall (fun fs => (Fs.fsRead fs fd (some (s.heap.garbage buffer)) size).map
    (fun (after, result, target) => (after, result, target.getD (s.heap.garbage buffer)))) s

def fsWrite (fd : Int) (buffer : Nat → UInt8) (size : UInt32) : ShellM Int :=
  fsCall (fun fs => Fs.fsWrite fs fd (some buffer) size)

def fsExists (path : CString) : ShellM Bool :=
  fun s => checked (Fs.fsExists s.files (some path)) s

def fsType (path : CString) : ShellM UInt32 :=
  fun s => checked (Fs.fsType s.files (some path)) s

def fsRemove (path : CString) : ShellM Int :=
  fsCall (fun fs => Fs.fsRemove fs (some path))

end

def freshSession (files : FileSystem) : Session where
  files := files
  serial := ⟨[], []⟩
  heap := ⟨fun _ _ => true, fun _ _ => 0, 0, ∅, nofun⟩

variable {files : FileSystem} {command : ShellM Int}

section

variable {α β : Type} {s s' : Session}

theorem bind_ok {first : ShellM α} {value : α} (returned : first s = .ok (value, s'))
    (next : α → ShellM β) : (first >>= next) s = next value s' := by
  change (first s >>= fun r => next r.1 r.2) = _
  rw [returned]
  rfl

theorem bind_fault {first : ShellM α} {fault : Fault} (failed : first s = .error fault)
    (next : α → ShellM β) : (first >>= next) s = .error fault := by
  change (first s >>= fun r => next r.1 r.2) = _
  rw [failed]
  rfl

theorem bind_inv {first : ShellM α} {next : α → ShellM β} {result : β × Session}
    (returned : (first >>= next) s = .ok result) :
    ∃ value between, first s = .ok (value, between) ∧ next value between = .ok result := by
  change (first s >>= fun r => next r.1 r.2) = _ at returned
  cases ran : first s with
  | error fault =>
    rw [ran] at returned
    contradiction
  | ok pair =>
    rw [ran] at returned
    exact ⟨pair.1, pair.2, rfl, returned⟩

theorem checked_ok {outcome : Except Fault α} {value : α} (returned : outcome = .ok value) :
    checked outcome s = .ok (value, s) := by
  rw [checked, returned]
  rfl

theorem fsCall_ok {call : FileSystem → Except Fault (FileSystem × α)} {value : α}
    (returned : call s.files = .ok (files, value)) :
    fsCall call s = .ok (value, s.withFiles files) := by
  rw [fsCall, returned]
  rfl

theorem fsCall_inv {call : FileSystem → Except Fault (FileSystem × α)} {value : α}
    (returned : fsCall call s = .ok (value, s')) :
    ∃ files, call s.files = .ok (files, value) ∧ s' = s.withFiles files := by
  unfold fsCall at returned
  cases ran : call s.files with
  | error fault =>
    rw [ran] at returned
    contradiction
  | ok pair =>
    rw [ran] at returned
    cases returned
    exact ⟨pair.1, rfl, rfl⟩

theorem fsOpen_ok {path : CString} {mode : UInt32} {fd : Int}
    (returned : Fs.fsOpen s.files (some path) mode
      (s.heap.finds s.heap.calls (UInt32.ofNat Fs.maxFileSize)) = .ok (files, fd)) :
    fsOpen path mode s = .ok (fd, (s.withHeap s.heap.ask).withFiles files) :=
  fsCall_ok returned

theorem kmalloc_ok {size : UInt32} (positive : size ≠ 0)
    (found : s.heap.finds s.heap.calls size = true) :
    kmalloc size s = .ok (some s.heap.calls, s.withHeap s.heap.hold) :=
  if_pos ⟨positive, found⟩

theorem serialPutdec_ok (value : UInt32) :
    serialPutdec value s = .ok ((), s.send (Text.decimal value.toNat)) := by
  rw [serialPutdec, Serial.serialPutdec_decimal]

theorem forM_putchar (text : List UInt8) :
    forM text serialPutchar s = .ok ((), s.send text) := by
  induction text generalizing s with
  | nil =>
    rw [forM_nil, Session.send_nil]
    rfl
  | cons c text ih =>
    rw [forM_cons, bind_ok (rfl : serialPutchar c s = .ok ((), s.send [c])), ih]
    simp

theorem mapM_send {items : List α} {body : α → ShellM β} {value : α → β} {out : α → List UInt8}
    (each : ∀ item ∈ items, ∀ now, body item now = .ok (value item, now.send (out item))) :
    items.mapM body s = .ok (items.map value, s.send (items.flatMap out)) := by
  induction items generalizing s with
  | nil =>
    rw [mapM_nil, flatMap_nil, Session.send_nil]
    rfl
  | cons item items ih =>
    have rest := ih (s := s.send (out item))
      (fun other member => each other (mem_cons_of_mem item member))
    rw [mapM_cons, bind_ok (each item mem_cons_self s), bind_ok rest, Session.send_send]
    rfl

theorem mapM_fault {items : List α} {body : α → ShellM β} {item : α} (member : item ∈ items)
    {fault : Fault} (fails : ∀ now, body item now = .error fault) (result : List β × Session) :
    items.mapM body s ≠ .ok result := by
  induction items generalizing s result with
  | nil => contradiction
  | cons first items ih =>
    rw [mapM_cons]
    intro returned
    obtain ⟨value, between, ran, returned⟩ := bind_inv returned
    obtain ⟨values, final, rest, -⟩ := bind_inv returned
    obtain rfl | later := mem_cons.mp member
    · rw [fails] at ran
      contradiction
    · exact ih later (values, final) rest

def Prints (command : ShellM Int) (s : Session) (out : List UInt8) : Prop :=
  ∃ s', command s = .ok (0, s') ∧ s'.serial.sent = s.serial.sent ++ out

theorem prints_iff {out expected : List UInt8} (printed : Prints command s out) :
    Prints command s expected ↔ out = expected := by
  obtain ⟨s', returned, sent⟩ := printed
  constructor
  · rintro ⟨other, returned', sent'⟩
    rw [returned] at returned'
    cases returned'
    exact append_cancel_left (sent.symm.trans sent')
  · rintro rfl
    exact ⟨s', returned, sent⟩

theorem returned_of_any {check : Int × Session → Bool}
    (passed : (command s).toOption.any check = true) :
    ∃ result s', command s = .ok (result, s') ∧ check (result, s') = true := by
  obtain ⟨⟨result, s'⟩, returned, checked⟩ := (Option.any_eq_true _ _).mp passed
  exact ⟨result, s', Fs.ok_of_toOption returned, checked⟩

theorem prints_of_any {out : List UInt8} (printed : (command (freshSession files)).toOption.any
      (fun r => r.1 == 0 && r.2.serial.sent == out) = true) :
    Prints command (freshSession files) out := by
  obtain ⟨result, s', returned, sent⟩ := returned_of_any printed
  rw [Bool.and_eq_true, beq_iff_eq, beq_iff_eq] at sent
  obtain ⟨rfl, sent⟩ := sent
  exact ⟨s', returned, sent⟩

end

end ArgoOS.Shell
