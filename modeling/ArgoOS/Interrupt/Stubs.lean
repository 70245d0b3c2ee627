import ArgoOS.Shared.Ia32

set_option autoImplicit false

/-!
# Exception and IRQ stubs

The 48 entry stubs of `idt.asm`, the two common tails they jump to, and what the
C handlers `isr_handler` and `irq_handler` are given.
-/

namespace ArgoOS.Interrupt

open Ia32

abbrev Vector := Fin 48

inductive StubMacro where
  | isrNoErrCode
  | isrErrCode
  | irq
deriving DecidableEq, Repr

/-- The macro invocations of `idt.asm` in file order: one stub for each vector. -/
def stubTable : List StubMacro :=
  List.replicate 8 .isrNoErrCode ++ [.isrErrCode, .isrNoErrCode] ++
    List.replicate 5 .isrErrCode ++ List.replicate 17 .isrNoErrCode ++ List.replicate 16 .irq

def stubMacro (v : Vector) : StubMacro := stubTable.get (v.cast (by decide))

def stubHead (v : Vector) : List Instr :=
  match stubMacro v with
  | .isrNoErrCode | .irq => [.cli, .pushByte 0#8, .pushByte (BitVec.ofNat 8 v)]
  | .isrErrCode => [.cli, .pushByte (BitVec.ofNat 8 v)]

-- `isr_common_stub` and `irq_common_stub` differ only in the handler they call.
def commonEntry : List Instr :=
  [.pusha, .movAxDs, .push .eax, .movAx 0x10#16, .movSegAx .ds, .movSegAx .es, .movSegAx .fs,
    .movSegAx .gs]

def commonExit : List Instr :=
  [.pop .eax, .movSegAx .ds, .movSegAx .es, .movSegAx .fs, .movSegAx .gs, .popa,
    .addEsp 8#32, .sti]

/-- What the CPU pushes when it delivers an interrupt without a privilege change. -/
structure CpuFrame where
  eip : Word
  cs : Word
  eflags : Word
  errorCode : Option Word

def deliver (frame : CpuFrame) (m : Machine) : Machine :=
  let m := ((m.push frame.eflags).push frame.cs).push frame.eip
  match frame.errorCode with
  | some code => m.push code
  | none => m

inductive Device where
  | timer
  | keyboard
  | unknown
deriving DecidableEq, Repr

/-- The device handler that the `switch` of `irq_handler` runs. -/
def irqHandler (intNo : Word) : Device :=
  let irq := (intNo - 32#32).setWidth 8
  if irq = 0#8 then .timer else if irq = 1#8 then .keyboard else .unknown

section

variable (callee : Machine → Machine) (m : Machine)

include callee m

theorem commonExit_run (base i : Word) (esp : m.esp = base - i) :
    run callee commonExit m =
      { m with
        eax := load32 m.mem (base - (i - 32#32))
        ecx := load32 m.mem (base - (i - 28#32))
        edx := load32 m.mem (base - (i - 24#32))
        ebx := load32 m.mem (base - (i - 20#32))
        esp := base - (i - 44#32)
        ebp := load32 m.mem (base - (i - 12#32))
        esi := load32 m.mem (base - (i - 8#32))
        edi := load32 m.mem (base - (i - 4#32))
        ds := (load32 m.mem (base - i)).setWidth 16
        es := (load32 m.mem (base - i)).setWidth 16
        fs := (load32 m.mem (base - i)).setWidth 16
        gs := (load32 m.mem (base - i)).setWidth 16
        interrupts := true } := by
  simp [run, commonExit, step, Machine.pop, Machine.setReg, Machine.setSeg, esp, slot_add, sub_sub]

theorem commonEntry_slots (returnAddress : Word) :
    let entry := (run callee commonEntry m).push returnAddress
    entry.esp = m.esp - 40#32 ∧
    load32 entry.mem (m.esp - 36#32) = withLow m.eax m.ds ∧
    load32 entry.mem (m.esp - 32#32) = m.edi ∧
    load32 entry.mem (m.esp - 28#32) = m.esi ∧
    load32 entry.mem (m.esp - 24#32) = m.ebp ∧
    load32 entry.mem (m.esp - 16#32) = m.ebx ∧
    load32 entry.mem (m.esp - 12#32) = m.edx ∧
    load32 entry.mem (m.esp - 8#32) = m.ecx ∧
    load32 entry.mem (m.esp - 4#32) = m.eax := by
  simp (disch := decide) [run, commonEntry, step, Machine.push, Machine.setSeg, Machine.reg,
    slot_sub, load32_store32_slot]

theorem commonEntry_above (returnAddress d : Word) (near : d.toNat < 1024) :
    load32 ((run callee commonEntry m).push returnAddress).mem (m.esp + d) =
      load32 m.mem (m.esp + d) := by
  simp (disch := first | decide | (simp; omega)) only [run, commonEntry, step, Machine.push,
    Machine.setSeg, Machine.reg, slot_sub, BitVec.reduceAdd, load32_store32_above]

end

theorem stubHead_regs (handler : Machine → Machine) (v : Vector) (frame : CpuFrame) (m : Machine) :
    let n := run handler (stubHead v) (deliver frame m)
    n = { m with
      mem := n.mem
      esp := m.esp - (12#32 + (if frame.errorCode.isSome then 4#32 else 0#32) +
        (if stubMacro v = .isrErrCode then 4#32 else 8#32))
      interrupts := false } ∧
    load32 n.mem (m.esp - 12#32) = frame.eip := by
  cases kind : stubMacro v <;> cases code : frame.errorCode <;>
    simp (disch := decide) [stubHead, deliver, kind, code, run, step, Machine.push, slot_sub,
      load32_store32_slot]

section

variable (v : Vector) (frame : CpuFrame) (returnAddress : Word) (handler : Machine → Machine)
  (before : Machine)

def handlerEntry : Machine :=
  (run handler (stubHead v ++ commonEntry) (deliver frame before)).push returnAddress

def atIret : Machine :=
  run handler (stubHead v ++ commonEntry ++ [.call returnAddress] ++ commonExit)
    (deliver frame before)

/-- `isr_handler` takes two words, `irq_handler` one. -/
def handlerArgs : Nat := if stubMacro v = .irq then 1 else 2

/--
What an entry stub is for: the handler is told the vector and the error code, and
the interrupted code finds its registers, its data segments and its stack again.
-/
structure StubTransparent : Prop where
  intNo : (handlerEntry v frame returnAddress handler before).argument 0 = BitVec.ofNat 32 v
  errCode : stubMacro v ≠ .irq →
    (handlerEntry v frame returnAddress handler before).argument 1 = frame.errorCode.getD 0#32
  general : ∀ r, r ≠ .esp → (atIret v frame returnAddress handler before).reg r = before.reg r
  segments : (atIret v frame returnAddress handler before).ds = before.ds ∧
    (atIret v frame returnAddress handler before).es = before.es ∧
    (atIret v frame returnAddress handler before).fs = before.fs ∧
    (atIret v frame returnAddress handler before).gs = before.gs
  esp : (atIret v frame returnAddress handler before).esp = before.esp - 12#32
  eip : load32 (atIret v frame returnAddress handler before).mem
    (atIret v frame returnAddress handler before).esp = frame.eip
  timer : stubMacro v = .irq →
    (irqHandler ((handlerEntry v frame returnAddress handler before).argument 0) = .timer ↔ v = 32)
  keyboard : stubMacro v = .irq →
    (irqHandler ((handlerEntry v frame returnAddress handler before).argument 0) = .keyboard ↔
      v = 33)

/-- The argument slots of the handler once it has returned. -/
def handlerSlot (i : Nat) : Word :=
  let entry := handlerEntry v frame returnAddress handler before
  load32 (handler entry).mem (entry.esp + BitVec.ofNat 32 (4 * i + 4))

/--
The slots the handler reads as its arguments are the saved DS and the saved EDI,
not the vector and the error code pushed above them.
-/
structure SlotsCoincide : Prop where
  vector : withLow before.eax before.ds = BitVec.ofNat 32 v
  errorCode : stubMacro v ≠ .irq → before.edi = frame.errorCode.getD 0#32
  pushed : frame.errorCode.isSome = decide (stubMacro v = .isrErrCode)
  segments : before.es = before.ds ∧ before.fs = before.ds ∧ before.gs = before.ds
  dsSlot : (handlerSlot v frame returnAddress handler before 0).setWidth 16 = before.ds
  ediSlot : stubMacro v ≠ .irq →
    handlerSlot v frame returnAddress handler before 1 = before.edi

def atCommon : Machine := run handler (stubHead v) (deliver frame before)

theorem handlerEntry_eq :
    handlerEntry v frame returnAddress handler before =
      (run handler commonEntry (atCommon v frame handler before)).push returnAddress := by
  rw [handlerEntry, run_append]
  rfl

theorem handlerEntry_arguments :
    (handlerEntry v frame returnAddress handler before).argument 0 =
        withLow before.eax before.ds ∧
      (handlerEntry v frame returnAddress handler before).argument 1 = before.edi := by
  obtain ⟨same, -⟩ := stubHead_regs handler v frame before
  obtain ⟨esp, dsSlot, ediSlot, -⟩ :=
    commonEntry_slots handler (atCommon v frame handler before) returnAddress
  have regs : (atCommon v frame handler before).eax = before.eax ∧
      (atCommon v frame handler before).ds = before.ds ∧
      (atCommon v frame handler before).edi = before.edi := by
    rw [atCommon, same]
    exact ⟨rfl, rfl, rfl⟩
  rw [regs.1, regs.2.1] at dsSlot
  rw [regs.2.2] at ediSlot
  rw [handlerEntry_eq]
  constructor
  · simpa [Machine.argument, esp, slot_add] using dsSlot
  · simpa [Machine.argument, esp, slot_add] using ediSlot

theorem atIret_eq :
    atIret v frame returnAddress handler before =
      run handler commonExit (handler (handlerEntry v frame returnAddress handler before)) := by
  rw [atIret, run_append, run_append, handlerEntry]
  rfl

variable {handler}

section

variable (cdecl : Cdecl (handlerArgs v) 14 handler)

include cdecl

theorem atIret_restored :
    let m := atIret v frame returnAddress handler before
    let slot := handlerSlot v frame returnAddress handler before
    (m.eax = before.eax ∧ m.ecx = before.ecx ∧ m.edx = before.edx ∧ m.ebx = before.ebx ∧
      m.ebp = before.ebp ∧ m.esi = before.esi ∧ m.edi = slot 1) ∧
    (m.ds = (slot 0).setWidth 16 ∧ m.es = (slot 0).setWidth 16 ∧ m.fs = (slot 0).setWidth 16 ∧
      m.gs = (slot 0).setWidth 16) ∧
    m.esp = (atCommon v frame handler before).esp + 8#32 ∧
    m.mem = (handler (handlerEntry v frame returnAddress handler before)).mem := by
  intro m slot
  obtain ⟨same, -⟩ := stubHead_regs handler v frame before
  obtain ⟨esp, -, -, esi, ebp, ebx, edx, ecx, eax⟩ :=
    commonEntry_slots handler (atCommon v frame handler before) returnAddress
  rw [← handlerEntry_eq] at esp esi ebp ebx edx ecx eax
  have kept := fun j => cdecl.kept_slot (handlerEntry v frame returnAddress handler before)
    (atCommon v frame handler before).esp 40#32 j esp
  have args : handlerArgs v = 1 ∨ handlerArgs v = 2 := by
    unfold handlerArgs
    split <;> simp
  have exit := commonExit_run handler (handler (handlerEntry v frame returnAddress handler before))
    (atCommon v frame handler before).esp 36#32 (by rw [cdecl.esp, esp, slot_add]; rfl)
  have regs : ∀ r, r ≠ .esp → (atCommon v frame handler before).reg r = before.reg r := by
    intro r other
    rw [atCommon, same]
    cases r <;> first | rfl | exact absurd rfl other
  have restored (j : Word) (r : Reg) (other : r ≠ .esp)
      (inside : 12 ≤ (40#32 - j).toNat ∧ (40#32 - j).toNat ≤ 60)
      (saved : load32 (handlerEntry v frame returnAddress handler before).mem
        ((atCommon v frame handler before).esp - j) = (atCommon v frame handler before).reg r) :
      load32 (handler (handlerEntry v frame returnAddress handler before)).mem
        ((atCommon v frame handler before).esp - j) = before.reg r := by
    rw [kept j (by omega), saved, regs r other]
  have slots (i : Nat) : slot i = load32 (handler (handlerEntry v frame returnAddress handler
      before)).mem ((atCommon v frame handler before).esp - (40#32 - BitVec.ofNat 32 (4 * i + 4))) := by
    simp only [slot, handlerSlot, esp, slot_add]
  simp only [m, atIret_eq, exit, slots]
  refine ⟨⟨restored _ .eax (by decide) (by decide) eax, restored _ .ecx (by decide) (by decide) ecx,
    restored _ .edx (by decide) (by decide) edx, restored _ .ebx (by decide) (by decide) ebx,
    restored _ .ebp (by decide) (by decide) ebp, restored _ .esi (by decide) (by decide) esi, rfl⟩,
    ⟨rfl, rfl, rfl, rfl⟩, ?_, trivial⟩
  bv_omega

theorem atIret_eip :
    load32 (atIret v frame returnAddress handler before).mem (before.esp - 12#32) = frame.eip := by
  obtain ⟨same, eip⟩ := stubHead_regs handler v frame before
  obtain ⟨-, -, -, mem⟩ := atIret_restored v frame returnAddress before cdecl
  obtain ⟨esp, -⟩ := commonEntry_slots handler (atCommon v frame handler before) returnAddress
  have above := commonEntry_above handler (atCommon v frame handler before) returnAddress
  rw [← handlerEntry_eq] at esp
  rw [← handlerEntry_eq] at above
  have args : handlerArgs v = 1 ∨ handlerArgs v = 2 := by
    unfold handlerArgs
    split <;> simp
  have common : ∃ d : Word, 4 ≤ d.toNat ∧ d.toNat ≤ 12 ∧
      before.esp - 12#32 = (atCommon v frame handler before).esp + d := by
    rw [atCommon, same]
    cases frame.errorCode <;> by_cases kind : stubMacro v = .isrErrCode
    · exact ⟨4#32, by decide, by decide, by simp [kind, slot_add]⟩
    · exact ⟨8#32, by decide, by decide, by simp [kind, slot_add]⟩
    · exact ⟨8#32, by decide, by decide, by simp [kind, slot_add]⟩
    · exact ⟨12#32, by decide, by decide, by simp [kind, slot_add]⟩
  obtain ⟨d, low, high, slot⟩ := common
  have kept := cdecl.kept (handlerEntry v frame returnAddress handler before) (40#32 + d)
    (by bv_omega) (by bv_omega)
  rw [esp] at kept
  have address : (atCommon v frame handler before).esp - 40#32 + (40#32 + d) = before.esp - 12#32 := by
    rw [slot]
    bv_omega
  rw [mem, ← address, kept, address, slot, above d (by omega), ← slot]
  exact eip

theorem handlerSlot_irq (irq : stubMacro v = .irq) :
    handlerSlot v frame returnAddress handler before 1 = before.edi := by
  have second := (handlerEntry_arguments v frame returnAddress handler before).2
  have kept := cdecl.kept (handlerEntry v frame returnAddress handler before) 8#32
    (by simp [handlerArgs, irq]) (by simp [handlerArgs, irq])
  exact kept.trans second

end

theorem irqHandler_vector (irq : stubMacro v = .irq) :
    (irqHandler (BitVec.ofNat 32 v) = .timer ↔ v = 32) ∧
      (irqHandler (BitVec.ofNat 32 v) = .keyboard ↔ v = 33) := by
  revert v
  decide

theorem atCommon_esp :
    (atCommon v frame handler before).esp + 8#32 = before.esp - 12#32 ↔
      frame.errorCode.isSome = decide (stubMacro v = .isrErrCode) := by
  obtain ⟨same, -⟩ := stubHead_regs handler v frame before
  rw [atCommon, same]
  cases frame.errorCode <;> by_cases kind : stubMacro v = .isrErrCode <;> simp [kind, slot_add]

theorem stub_transparent_iff (cdecl : Cdecl (handlerArgs v) 14 handler) :
    StubTransparent v frame returnAddress handler before ↔
      SlotsCoincide v frame returnAddress handler before := by
  obtain ⟨first, second⟩ := handlerEntry_arguments v frame returnAddress handler before
  obtain ⟨⟨eax, ecx, edx, ebx, ebp, esi, edi⟩, ⟨ds, es, fs, gs⟩, esp, -⟩ :=
    atIret_restored v frame returnAddress before cdecl
  constructor
  · intro h
    obtain ⟨sameDs, sameEs, sameFs, sameGs⟩ := h.segments
    rw [ds] at sameDs
    rw [es, sameDs] at sameEs
    rw [fs, sameDs] at sameFs
    rw [gs, sameDs] at sameGs
    exact {
      vector := first.symm.trans h.intNo
      errorCode := fun exception => second.symm.trans (h.errCode exception)
      pushed := (atCommon_esp v frame before).mp (esp.symm.trans h.esp)
      segments := ⟨sameEs.symm, sameFs.symm, sameGs.symm⟩
      dsSlot := sameDs
      ediSlot := fun _ => edi.symm.trans (h.general .edi (by decide)) }
  · intro h
    have ediSlot : handlerSlot v frame returnAddress handler before 1 = before.edi := by
      by_cases irq : stubMacro v = .irq
      · exact handlerSlot_irq v frame returnAddress before cdecl irq
      · exact h.ediSlot irq
    have intNo := first.trans h.vector
    have landing := esp.trans ((atCommon_esp v frame before).mpr h.pushed)
    refine ⟨intNo, ?_, ?_, ?_, landing, ?_, ?_, ?_⟩
    · exact fun exception => second.trans (h.errorCode exception)
    · intro r other
      cases r
      case esp => exact absurd rfl other
      case edi => exact edi.trans ediSlot
      all_goals assumption
    · rw [ds, es, fs, gs, h.dsSlot, h.segments.1, h.segments.2.1, h.segments.2.2]
      exact ⟨rfl, rfl, rfl, rfl⟩
    · rw [landing]
      exact atIret_eip v frame returnAddress before cdecl
    · rw [intNo]
      exact fun irq => (irqHandler_vector v irq).1
    · rw [intNo]
      exact fun irq => (irqHandler_vector v irq).2

end

theorem irqHandler_kernelData (v : Vector) (frame : CpuFrame) (returnAddress : Word)
    (handler : Machine → Machine) {before : Machine} (kernelData : before.ds = 0x10#16) :
    irqHandler ((handlerEntry v frame returnAddress handler before).argument 0) = .unknown := by
  rw [(handlerEntry_arguments v frame returnAddress handler before).1, kernelData]
  have low := congrArg BitVec.toNat (withLow_low before.eax 0x10#16)
  have irq : (withLow before.eax 0x10#16 - 32#32).setWidth 8 = 0xF0#8 := by bv_omega
  simp [irqHandler, irq]

def kernelIdle : Machine where
  eax := 0
  ecx := 0
  edx := 0
  ebx := 0
  esp := 0x9000
  ebp := 0
  esi := 0
  edi := 0
  ds := 0x10
  es := 0x10
  fs := 0x10
  gs := 0x10
  mem := fun _ => 0
  interrupts := true

def idleFrame : CpuFrame := ⟨0x100000, 0x08, 0x202, none⟩

def returnsAtOnce (m : Machine) : Machine := { m with esp := m.esp + 4#32 }

theorem returnsAtOnce_cdecl (args frame : Nat) : Cdecl args frame returnsAtOnce := by
  constructor <;> intros <;> rfl

theorem timer_stub_iff :
    Cdecl (handlerArgs 32) 14 returnsAtOnce ∧
      (StubTransparent 32 idleFrame 0 returnsAtOnce kernelIdle ↔
        SlotsCoincide 32 idleFrame 0 returnsAtOnce kernelIdle) :=
  ⟨returnsAtOnce_cdecl _ _, stub_transparent_iff 32 idleFrame 0 kernelIdle (returnsAtOnce_cdecl _ _)⟩

theorem timer_stub_not_transparent :
    ¬ StubTransparent 32 idleFrame 0 returnsAtOnce kernelIdle := by
  intro h
  have told := (handlerEntry_arguments 32 idleFrame 0 returnsAtOnce kernelIdle).1.symm.trans h.intNo
  exact absurd told (by decide)

end ArgoOS.Interrupt
