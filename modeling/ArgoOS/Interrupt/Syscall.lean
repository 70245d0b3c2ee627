import ArgoOS.Interrupt.Stubs

set_option autoImplicit false

/-!
# The system call gate

`syscall_entry` of `syscall.asm`: INT 0x80 saves the registers, hands four of
them to `syscall_handler` and restores them all.
-/

namespace ArgoOS.Interrupt

open Ia32

def syscallSave : List Instr :=
  [.push .edi, .push .esi, .push .ebp, .push .esp, .push .ebx, .push .edx, .push .ecx,
    .push .eax, .push .edx, .push .ecx, .push .ebx, .push .eax]

def syscallRestore : List Instr :=
  [.addEsp 16#32, .pop .eax, .pop .ecx, .pop .edx, .pop .ebx, .pop .esp, .pop .ebp, .pop .esi,
    .pop .edi]

/-- `iret` within one privilege level drops EIP, CS and EFLAGS. -/
def iret (m : Machine) : Machine := { m with esp := m.esp + 12#32 }

section

variable (frame : CpuFrame) (returnAddress : Word) (handler : Machine → Machine)
  (before : Machine)

def syscallHandlerEntry : Machine :=
  (run handler syscallSave (deliver { frame with errorCode := none } before)).push returnAddress

def syscallAtIret : Machine :=
  run handler (syscallSave ++ [.call returnAddress] ++ syscallRestore)
    (deliver { frame with errorCode := none } before)

/-- The value `syscall_handler` returns. -/
def syscallResult : Word := (handler (syscallHandlerEntry frame returnAddress handler before)).eax

/-- The handler's fifth argument slot, where EAX was saved, once it has returned. -/
def syscallArg4Slot : Word :=
  let entry := syscallHandlerEntry frame returnAddress handler before
  load32 (handler entry).mem (entry.esp + 20#32)

/-- The gate as its caller sees it: four registers in, the result in EAX, nothing else changed. -/
structure SyscallTransparent : Prop where
  arguments : (syscallHandlerEntry frame returnAddress handler before).argument 0 = before.eax ∧
    (syscallHandlerEntry frame returnAddress handler before).argument 1 = before.ebx ∧
    (syscallHandlerEntry frame returnAddress handler before).argument 2 = before.ecx ∧
    (syscallHandlerEntry frame returnAddress handler before).argument 3 = before.edx
  result : (iret (syscallAtIret frame returnAddress handler before)).eax =
    syscallResult frame returnAddress handler before
  kept : ∀ r, r ≠ .eax →
    (iret (syscallAtIret frame returnAddress handler before)).reg r = before.reg r
  eip : load32 (syscallAtIret frame returnAddress handler before).mem
    (syscallAtIret frame returnAddress handler before).esp = frame.eip

theorem syscallHandlerEntry_slots :
    let entry := syscallHandlerEntry frame returnAddress handler before
    entry.esp = before.esp - 64#32 ∧
    (load32 entry.mem (before.esp - 60#32) = before.eax ∧
      load32 entry.mem (before.esp - 56#32) = before.ebx ∧
      load32 entry.mem (before.esp - 52#32) = before.ecx ∧
      load32 entry.mem (before.esp - 48#32) = before.edx) ∧
    load32 entry.mem (before.esp - 40#32) = before.ecx ∧
    load32 entry.mem (before.esp - 36#32) = before.edx ∧
    load32 entry.mem (before.esp - 32#32) = before.ebx ∧
    load32 entry.mem (before.esp - 28#32) = before.esp - 24#32 ∧
    load32 entry.mem (before.esp - 24#32) = before.ebp ∧
    load32 entry.mem (before.esp - 20#32) = before.esi ∧
    load32 entry.mem (before.esp - 16#32) = before.edi ∧
    load32 entry.mem (before.esp - 12#32) = frame.eip := by
  simp (disch := decide) [syscallHandlerEntry, deliver, run, syscallSave, step, Machine.push,
    Machine.reg, slot_sub, load32_store32_slot]

theorem syscallRestore_run (m : Machine) (base i : Word) (esp : m.esp = base - i) :
    run handler syscallRestore m =
      { m with
        eax := load32 m.mem (base - (i - 16#32))
        ecx := load32 m.mem (base - (i - 20#32))
        edx := load32 m.mem (base - (i - 24#32))
        ebx := load32 m.mem (base - (i - 28#32))
        esp := load32 m.mem (base - (i - 32#32)) + 12#32
        ebp := load32 m.mem (load32 m.mem (base - (i - 32#32)))
        esi := load32 m.mem (load32 m.mem (base - (i - 32#32)) + 4#32)
        edi := load32 m.mem (load32 m.mem (base - (i - 32#32)) + 8#32) } := by
  simp [run, syscallRestore, step, Machine.pop, Machine.setReg, esp, slot_add, sub_sub, add_assoc]

theorem syscallAtIret_eq :
    syscallAtIret frame returnAddress handler before =
      run handler syscallRestore
        (handler (syscallHandlerEntry frame returnAddress handler before)) := by
  rw [syscallAtIret, run_append, run_append, syscallHandlerEntry]
  rfl

variable {handler}

theorem syscallAtIret_restored (cdecl : Cdecl 5 10 handler) :
    syscallAtIret frame returnAddress handler before =
      { handler (syscallHandlerEntry frame returnAddress handler before) with
        eax := syscallArg4Slot frame returnAddress handler before
        ecx := before.ecx
        edx := before.edx
        ebx := before.ebx
        esp := before.esp - 12#32
        ebp := before.ebp
        esi := before.esi
        edi := before.edi } := by
  obtain ⟨esp, -, ecx, edx, ebx, savedEsp, ebp, esi, edi, -⟩ :=
    syscallHandlerEntry_slots frame returnAddress handler before
  have kept := fun j => cdecl.kept_slot (syscallHandlerEntry frame returnAddress handler before)
    before.esp 64#32 j esp
  have exit := syscallRestore_run handler
    (handler (syscallHandlerEntry frame returnAddress handler before)) before.esp 60#32
    (by rw [cdecl.esp, esp, slot_add]; rfl)
  rw [syscallAtIret_eq, exit]
  simp (disch := decide) [syscallArg4Slot, kept, esp, slot_add, ecx, edx, ebx, savedEsp, ebp, esi,
    edi]

theorem syscall_transparent_iff (cdecl : Cdecl 5 10 handler) :
    SyscallTransparent frame returnAddress handler before ↔
      syscallArg4Slot frame returnAddress handler before =
        syscallResult frame returnAddress handler before := by
  obtain ⟨esp, ⟨eax, ebx, ecx, edx⟩, -, -, -, -, -, -, -, eip⟩ :=
    syscallHandlerEntry_slots frame returnAddress handler before
  have restored := syscallAtIret_restored frame returnAddress before cdecl
  constructor
  · intro h
    have result := h.result
    rw [restored] at result
    exact result
  · intro same
    have kept := cdecl.kept_slot (syscallHandlerEntry frame returnAddress handler before)
      before.esp 64#32 12#32 esp (by decide)
    refine ⟨?_, ?_, ?_, ?_⟩
    · simp [Machine.argument, esp, slot_add, eax, ebx, ecx, edx]
    · rw [restored]
      exact same
    · intro r other
      rw [restored]
      cases r <;> simp_all [iret, Machine.reg]
    · rw [restored]
      exact kept.trans eip

end

def returnsWord (result : Word) (m : Machine) : Machine :=
  { m with eax := result, esp := m.esp + 4#32 }

theorem returnsWord_cdecl (result : Word) (args frame : Nat) :
    Cdecl args frame (returnsWord result) := by
  constructor <;> intros <;> rfl

def yieldRequest : Machine := { kernelIdle with eax := 1 }

theorem yield_gate_iff :
    Cdecl 5 10 (returnsWord 0) ∧
      (SyscallTransparent idleFrame 0 (returnsWord 0) yieldRequest ↔
        syscallArg4Slot idleFrame 0 (returnsWord 0) yieldRequest =
          syscallResult idleFrame 0 (returnsWord 0) yieldRequest) :=
  ⟨returnsWord_cdecl 0 5 10,
    syscall_transparent_iff idleFrame 0 yieldRequest (returnsWord_cdecl 0 5 10)⟩

theorem yield_gate_not_transparent :
    ¬ SyscallTransparent idleFrame 0 (returnsWord 0) yieldRequest := by
  intro h
  have result := h.result
  rw [syscallAtIret_restored idleFrame 0 yieldRequest (returnsWord_cdecl 0 5 10)] at result
  exact absurd result (by decide)

end ArgoOS.Interrupt
