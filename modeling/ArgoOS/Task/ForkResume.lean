import ArgoOS.Interrupt.Syscall
import ArgoOS.Task.ContextSwitch
import ArgoOS.Task.Fork

set_option autoImplicit false

/-! # Where a forked child goes on -/

namespace ArgoOS.Tasking

open Ia32 ArgoOS.Interrupt Function UInt32

def copyWords (mem : Memory) (parentStack childStack : Word) : Nat → Memory
  | 0 => mem
  | n + 1 =>
    let mem := copyWords mem parentStack childStack n
    store32 mem (childStack + BitVec.ofNat 32 (4 * n))
      (load32 mem (parentStack + BitVec.ofNat 32 (4 * n)))

def forkFrame (mem : Memory) (parentStack childStack : Word) : Memory :=
  store32 (copyWords mem parentStack childStack 11) (childStack + 28#32) 0

section

-- The aligned words of the memory are those of the scheduler's `stack`.
def WordView (mem : Memory) (stack : UInt32 → UInt32) : Prop :=
  ∀ a : UInt32, 4 ∣ a.toNat → load32 mem a.toBitVec = (stack a).toBitVec

variable {mem : Memory} {stack : UInt32 → UInt32}

theorem WordView.store (view : WordView mem stack) (a value : UInt32) (aligned : 4 ∣ a.toNat) :
    WordView (store32 mem a.toBitVec value.toBitVec) (update stack a value) := by
  intro b aligned'
  by_cases same : b = a
  · subst same
    simp
  · have different : a.toNat ≠ b.toNat := fun equal => same (UInt32.toNat_inj.mp equal.symm)
    have small : a.toNat < 2 ^ 32 ∧ b.toNat < 2 ^ 32 := ⟨a.toNat_lt, b.toNat_lt⟩
    rw [update_of_ne same, ← view b aligned']
    apply load32_store32_of_apart
    · rw [BitVec.toNat_sub, toNat_toBitVec, toNat_toBitVec]
      omega
    · rw [BitVec.toNat_sub, toNat_toBitVec, toNat_toBitVec]
      omega

theorem WordView.copyWords (view : WordView mem stack) (parentStack childStack : UInt32)
    (parentAligned : 4 ∣ parentStack.toNat) (childAligned : 4 ∣ childStack.toNat) (n : Nat) :
    WordView (Tasking.copyWords mem parentStack.toBitVec childStack.toBitVec n)
      (copyContext stack parentStack childStack n) := by
  induction n with
  | zero => exact view
  | succ n ih =>
    have address : ∀ base : UInt32, base.toBitVec + BitVec.ofNat 32 (4 * n) =
        (base + 4 * UInt32.ofNat n).toBitVec := by
      intro base
      rw [BitVec.ofNat_mul, UInt32.toBitVec_add, UInt32.toBitVec_mul]
      rfl
    have aligned : ∀ base : UInt32, 4 ∣ base.toNat → 4 ∣ (base + 4 * UInt32.ofNat n).toNat := by
      intro base divides
      rw [UInt32.toNat_add, UInt32.toNat_mul, show (4 : UInt32).toNat = 4 from rfl]
      omega
    rw [Tasking.copyWords, copyContext, address, address, ih _ (aligned _ parentAligned)]
    exact ih.store _ _ (aligned _ childAligned)

theorem forkStack_wordView {s : Sched} {parent : TaskPtr} (child : TaskPtr) {childStack : UInt32}
    (view : WordView mem s.stack) (parentAligned : 4 ∣ (s.tasks parent).esp.toNat)
    (childAligned : 4 ∣ childStack.toNat) :
    WordView (forkFrame mem (s.tasks parent).esp.toBitVec childStack.toBitVec)
      (forkStack s parent child childStack).stack := by
  have copied := view.copyWords _ childStack parentAligned childAligned 11
  have aligned : 4 ∣ (childStack + 28).toNat := by
    rw [UInt32.toNat_add, show (28 : UInt32).toNat = 28 from rfl]
    omega
  exact copied.store (childStack + 28) 0 aligned

end

section

variable {Id : Type} [DecidableEq Id] (layout : Layout Id)

def forkedMemory (s : Switching Id) (child : Id) (base : Word) : Memory :=
  let mem := s.cpu.machine.mem
  store32 (forkFrame mem (load32 mem (layout.cell s.running)) base) (layout.cell child) base

def forkedContext (mem : Memory) (base : Word) : Saved where
  eip := load32 mem (base + 16#32)
  edi := load32 mem base
  esi := load32 mem (base + 4#32)
  ebx := load32 mem (base + 8#32)
  ebp := load32 mem (base + 12#32)
  esp := base + 20#32

def Switching.fork (s : Switching Id) (child : Id) (base : Word) : Switching Id :=
  { s.withMemory (forkedMemory layout s child base) with
    context := Function.update s.context child
      (some (.suspended (forkedContext (forkedMemory layout s child base) base))) }

inductive ForkSwitches : Switching Id → Switching Id → Prop where
  | step {s s' : Switching Id} (taken : Switches layout s s') : ForkSwitches s s'
  | fork (s : Switching Id) (child : Id) (base : Word) (absent : s.context child = none)
      (other : child ≠ s.running) (inside : Covers (layout.owns child) base 44) :
      ForkSwitches s (s.fork layout child base)

/--
From the parent's INT 0x80 to the first switch to its child. `parent` holds the registers
at the system call, `s` is the state in which `sys_fork` copies the frame and `last` the
one in which some task calls `task_switch_asm` with the child's `esp`.
-/
structure ForkRun (frame : CpuFrame) (parent : Machine) (child : Id) (base : Word)
    (s last : Switching Id) : Prop where
  entered : ∃ start entry : Switching Id, ∃ returnAddress, (∀ t, start.context t = none) ∧
    Relation.ReflTransGen (ForkSwitches layout) start entry ∧ entry.running = s.running ∧
    entry.cpu.machine = syscallHandlerEntry frame returnAddress id parent ∧
    Relation.ReflTransGen (ForkSwitches layout) entry s
  absent : s.context child = none
  other : child ≠ s.running
  inside : Covers (layout.owns child) base 44
  after : Relation.ReflTransGen (ForkSwitches layout) (s.fork layout child base) last
  first : last.context child = (s.fork layout child base).context child
  calls : CallsSwitch layout last child

-- Right after the parent's INT 0x80, with 0 as the result.
structure ForkReturns (frame : CpuFrame) (before : Machine) (c : Cpu) : Prop where
  eip : c.eip = frame.eip
  eax : c.machine.eax = 0
  ebx : c.machine.ebx = before.ebx
  esi : c.machine.esi = before.esi
  edi : c.machine.edi = before.edi
  ebp : c.machine.ebp = before.ebp

variable {layout} {s s' : Switching Id} {child : Id} {base : Word}

theorem copyWords_outside {owned : Word → Prop} {b : Word} (mem : Memory) (parentStack : Word)
    (outside : ¬ owned b) {n : Nat} (covers : Covers owned base (4 * n)) :
    copyWords mem parentStack base n b = mem b := by
  induction n with
  | zero => rfl
  | succ n ih =>
    have last : Covers owned (base + BitVec.ofNat 32 (4 * n)) 4 := covers.within _ (by omega)
    have before : Covers owned base (4 * n) := by
      simpa using covers.within (m := 4 * n) 0 (by omega)
    rw [copyWords, store32_outside _ _ last outside, ih before]

theorem forkFrame_outside {owned : Word → Prop} {b : Word} (mem : Memory) (parentStack : Word)
    (covers : Covers owned base 44) (outside : ¬ owned b) :
    forkFrame mem parentStack base b = mem b := by
  have eax : Covers owned (base + 28#32) 4 := covers.within 28 (by omega)
  rw [forkFrame, store32_outside _ _ eax outside]
  exact copyWords_outside mem parentStack outside covers

theorem SwitchInv.fork (inv : SwitchInv layout s) (other : child ≠ s.running)
    (inside : Covers (layout.owns child) base 44) : SwitchInv layout (s.fork layout child base) where
  home := by
    rw [Switching.fork, Switching.withMemory]
    exact (update_of_ne (Ne.symm other) _ _).trans inv.home
  held := by
    intro t context here
    simp only [Switching.fork, Switching.withMemory] at here ⊢
    by_cases same : t = child
    · subst same
      cases (update_self t _ _).symm.trans here
      refine ⟨base, load32_store32 _ _ _, ?_, ?_, ?_⟩
      · simpa [Context.words] using inside.within (m := 20) 0 (by omega)
      · simp [Context.words, forkedContext, WordsAt, add_assoc]
      · rintro saved ⟨⟩
        rfl
    · rw [update_of_ne same] at here
      obtain ⟨base', held⟩ := inv.held t context here
      refine ⟨base', held.congr ?_ ?_⟩
      · intro a own
        rw [forkedMemory, store32_outside _ _ (.span _ 4)
          (fun cell => layout.cellOutside _ _ a cell own)]
        exact forkFrame_outside _ _ inside (fun new => same (layout.apart _ _ a own new))
      · intro a cell
        rw [forkedMemory, store32_outside _ _ (.span _ 4)
          (fun new => same (layout.cellsApart _ _ a cell new))]
        exact forkFrame_outside _ _ inside (layout.cellOutside _ _ a cell)

theorem SwitchInv.forks {start : Switching Id} (initial : SwitchInv layout start)
    (run : Relation.ReflTransGen (ForkSwitches layout) start s) : SwitchInv layout s := by
  induction run with
  | refl => exact initial
  | tail _ step ih =>
    cases step with
    | step taken => exact ih.step taken
    | fork child base absent other inside => exact ih.fork other inside

end

-- The child is resumed with words of the frame its parent was last switched in from and
-- with the address of an `esp` field in EAX.
theorem forked_child_never_returns {Id : Type} [DecidableEq Id] (layout : Layout Id)
    -- The task structures lie in memory without wrapping around.
    (whole : ∀ t, ∃ task : Word, layout.cell t = task + 4#32 ∧ task.toNat + 76 ≤ 2 ^ 32)
    (frame : CpuFrame) (parent : Machine) (child : Id) (base : Word) (s last : Switching Id)
    (run : ForkRun layout frame parent child base s last) :
    Resumes layout (last.switch child).cpu
        (.suspended (forkedContext (forkedMemory layout s child base) base)) ∧
      (last.switch child).cpu.machine.eax = layout.cell last.running ∧
      ¬ ForkReturns frame parent (last.switch child).cpu := by
  obtain ⟨start, entry, -, initial, reached, -, -, executed⟩ := run.entered
  have begun : SwitchInv layout start :=
    ⟨initial _, fun t context here => by simp [initial t] at here⟩
  have inv : SwitchInv layout last :=
    (((begun.forks reached).forks executed).fork run.other run.inside).forks run.after
  have left : last.context child =
      some (.suspended (forkedContext (forkedMemory layout s child base) base)) :=
    run.first.trans (Function.update_self child _ _)
  obtain ⟨resumed, eax⟩ := inv.resumes left run.calls
  refine ⟨resumed, eax, ?_⟩
  intro returns
  obtain ⟨task, field, size⟩ := whole last.running
  have zero := eax.symm.trans returns.eax
  rw [field] at zero
  bv_omega

-- A task that was never switched out since its first frame was laid out at 0x1FE8 asks
-- for a fork; `call eax` has overwritten the entry point there.
def callerFrame : CpuFrame := { eip := 0x4002, cs := 8, eflags := 0x202, errorCode := none }

def caller : Machine where
  eax := 5
  ecx := 0
  edx := 0
  ebx := 3
  esp := 0x1F00
  ebp := 4
  esi := 2
  edi := 1
  ds := 0
  es := 0
  fs := 0
  gs := 0
  interrupts := true
  mem := store32 (store32 (layOutFrame (fun _ => 0) 0x1FE8 0x4000 0x9000) 0x1FFC 0x9004) 0x104 0x1FE8

def forking : Switching Bool where
  cpu := ⟨syscallHandlerEntry callerFrame 0x6000 id caller, 0x5000⟩
  running := false
  context := fun _ => none

def leavingParent : Switching Bool :=
  let forked := forking.fork twoStacks true 0x2FD4
  let mem := store32 (store32 (store32 forked.cpu.machine.mem 0x1800 0x77) 0x1804 0x104)
    0x1808 0x2FD4
  { forked with cpu := ⟨{ forked.cpu.machine with esp := 0x1800, mem }, 0x5000⟩ }

theorem leavingParent_run :
    ForkRun twoStacks callerFrame caller true 0x2FD4 forking leavingParent where
  entered := ⟨forking, forking, 0x6000, fun _ => rfl, .refl, rfl, rfl, .refl⟩
  absent := rfl
  other := by decide
  inside := show Covers (ownPage true) 0x2FD4 44 by decide
  after := by
    refine .single (.step (.work _ _ ?_))
    intro a guarded
    have word : ∀ b : Word, Covers (ownPage false) b 4 → ∀ mem value,
        store32 mem b value a = mem a := fun _ covers mem value =>
      guarded.store32_eq mem value covers
    simp only [word 0x1808 (by decide), word 0x1804 (by decide), word 0x1800 (by decide)]
  first := rfl
  calls := {
    room := show Covers (ownPage false) (0x1800 - 16#32) 28 by decide
    oldEsp := by decide +kernel
    newEsp := by decide +kernel }

theorem twoStacks_whole :
    ∀ t, ∃ task : Word, twoStacks.cell t = task + 4#32 ∧ task.toNat + 76 ≤ 2 ^ 32 := by
  intro t
  cases t with
  | false => exact ⟨0x100, rfl, by decide⟩
  | true => exact ⟨0x200, rfl, by decide⟩

theorem forked_child_never_returns_first_fork :
    ¬ ForkReturns callerFrame caller (leavingParent.switch true).cpu :=
  (forked_child_never_returns twoStacks twoStacks_whole callerFrame caller true 0x2FD4 forking
    leavingParent leavingParent_run).2.2

-- The child starts at `task_start_asm` again, which calls the instruction behind its own
-- `call eax`.
theorem forked_child_starts_over :
    ForkRun twoStacks callerFrame caller true 0x2FD4 forking leavingParent ∧
      (leavingParent.switch true).cpu.eip = 0x9000 ∧
      (leavingParent.switch true).cpu.machine.eax = 0x104 ∧
      (leavingParent.switch true).cpu.machine.ebx = 0 ∧
      (runOps taskStartAsm (leavingParent.switch true).cpu).eip = 0x9004 ∧
      ¬ ForkReturns callerFrame caller (leavingParent.switch true).cpu := by
  have eip : (leavingParent.switch true).cpu.eip = 0x9000 := by decide +kernel
  refine ⟨leavingParent_run, eip, by decide +kernel, by decide +kernel, by decide +kernel, ?_⟩
  intro returns
  exact absurd (eip.symm.trans returns.eip) (by decide)

end ArgoOS.Tasking
