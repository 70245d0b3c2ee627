import Mathlib
import ArgoOS.Shared.Ia32Control
import ArgoOS.Task.State

set_option autoImplicit false

/-!
# The context switch

`task_switch_asm` of `context_switch.asm`, the first frame that `task_create` lays out
and the start of `task_start_asm`. Tasks take turns on one CPU, each on its own stack;
`context` records what a task had when it was switched out.
-/

namespace ArgoOS.Tasking

open Ia32 Function

def taskSwitchAsm : List (Op × Word) :=
  [(.push .ebp, 1), (.push .ebx, 1), (.push .esi, 1), (.push .edi, 1),
    -- The pushes and the return address are below the two arguments.
    (.load .eax .esp 20, 4), (.store .eax 0 .esp, 2), (.load .esp .esp 24, 4),
    (.pop .edi, 1), (.pop .esi, 1), (.pop .ebx, 1), (.pop .ebp, 1), (.ret, 1)]

-- `task_start_asm` up to the call of the task's function.
def taskStartAsm : List (Op × Word) :=
  [(.pop .eax, 1), (.sti, 1), (.callReg .eax, 2)]

-- The frame that `task_create` writes at `base`, in the order of its stores.
def layOutFrame (mem : Memory) (base entry start : Word) : Memory :=
  let mem := store32 mem (base + 20#32) entry
  let mem := store32 mem (base + 16#32) start
  let mem := store32 mem (base + 12#32) 0
  let mem := store32 mem (base + 8#32) 0
  let mem := store32 mem (base + 4#32) 0
  store32 mem base 0

def savedRegisters (m : Machine) : Memory :=
  let mem := store32 m.mem (m.esp - 4#32) m.ebp
  let mem := store32 mem (m.esp - 8#32) m.ebx
  let mem := store32 mem (m.esp - 12#32) m.esi
  store32 mem (m.esp - 16#32) m.edi

theorem layOutFrame_outside {owned : Word → Prop} {base b : Word} (mem : Memory)
    (entry start : Word) (covers : Covers owned base 24) (outside : ¬ owned b) :
    layOutFrame mem base entry start b = mem b := by
  have part : ∀ k, k + 4 ≤ 24 → Covers owned (base + BitVec.ofNat 32 k) 4 :=
    fun k inside => covers.within k inside
  have first : Covers owned base 4 := by simpa using part 0 (by omega)
  unfold layOutFrame
  rw [store32_outside _ _ first outside, store32_outside _ _ (part 4 (by omega)) outside,
    store32_outside _ _ (part 8 (by omega)) outside,
    store32_outside _ _ (part 12 (by omega)) outside,
    store32_outside _ _ (part 16 (by omega)) outside,
    store32_outside _ _ (part 20 (by omega)) outside]

theorem layOutFrame_words (mem : Memory) (base entry start : Word) :
    WordsAt (layOutFrame mem base entry start) base [0, 0, 0, 0, start, entry] := by
  simp (disch := decide) [layOutFrame, WordsAt, add_assoc, load32_store32_word,
    load32_store32_base]

-- The same words as in the scheduler's model of `task_create`.
theorem layOutFrame_initialFrame (mem : Memory) (stack : UInt32 → UInt32)
    (base entry start : UInt32) :
    WordsAt (layOutFrame mem base.toBitVec entry.toBitVec start.toBitVec) base.toBitVec
      ([base, base + 4, base + 8, base + 12, base + 16, base + 20].map
        fun a => (initialFrame stack base entry start a).toBitVec) := by
  have words := layOutFrame_words mem base.toBitVec entry.toBitVec start.toBitVec
  simpa [initialFrame, update_apply] using words

theorem savedRegisters_outside {owned : Word → Prop} {b : Word} {m : Machine}
    (covers : Covers owned (m.esp - 16#32) 16) (outside : ¬ owned b) :
    savedRegisters m b = m.mem b := by
  have part : ∀ (k : Nat) (offset : Word), k + 4 ≤ 16 →
      m.esp - 16#32 + BitVec.ofNat 32 k = m.esp - offset → Covers owned (m.esp - offset) 4 :=
    fun k offset inside same => same ▸ covers.within k inside
  unfold savedRegisters
  rw [store32_outside _ _ (part 0 16#32 (by omega) (by bv_omega)) outside,
    store32_outside _ _ (part 4 12#32 (by omega) (by bv_omega)) outside,
    store32_outside _ _ (part 8 8#32 (by omega) (by bv_omega)) outside,
    store32_outside _ _ (part 12 4#32 (by omega) (by bv_omega)) outside]

theorem savedRegisters_above (m : Machine) (d : Word) (low : d.toNat ≤ 8) :
    load32 (savedRegisters m) (m.esp + d) = load32 m.mem (m.esp + d) := by
  unfold savedRegisters
  rw [load32_store32_above _ _ _ _ _ (by decide) (by simp; omega),
    load32_store32_above _ _ _ _ _ (by decide) (by simp; omega),
    load32_store32_above _ _ _ _ _ (by decide) (by simp; omega),
    load32_store32_above _ _ _ _ _ (by decide) (by simp; omega)]

theorem savedRegisters_words (m : Machine) :
    WordsAt (savedRegisters m) (m.esp - 16#32)
      [m.edi, m.esi, m.ebx, m.ebp, load32 m.mem m.esp] := by
  have returnAddress := savedRegisters_above m 0 (by decide)
  have first : m.esp - 16#32 + 4#32 = m.esp - 12#32 := by bv_omega
  have second : m.esp - 12#32 + 4#32 = m.esp - 8#32 := by bv_omega
  have third : m.esp - 8#32 + 4#32 = m.esp - 4#32 := by bv_omega
  have fourth : m.esp - 4#32 + 4#32 = m.esp := by bv_omega
  simp only [WordsAt, first, second, third, fourth]
  refine ⟨?_, ?_, ?_, ?_, by simpa using returnAddress, trivial⟩ <;>
    simp (disch := decide) [savedRegisters, load32_store32_slot]

theorem taskSwitchAsm_run {c : Cpu} {cell newEsp : Word} {mem : Memory}
    (old : load32 (savedRegisters c.machine) (c.machine.esp + 4#32) = cell)
    (stored : store32 (savedRegisters c.machine) cell (c.machine.esp - 16#32) = mem)
    (new : load32 mem (c.machine.esp + 8#32) = newEsp) :
    runOps taskSwitchAsm c =
      ⟨{ c.machine with
          eax := cell
          edi := load32 mem newEsp
          esi := load32 mem (newEsp + 4#32)
          ebx := load32 mem (newEsp + 8#32)
          ebp := load32 mem (newEsp + 12#32)
          esp := newEsp + 20#32
          mem }, load32 mem (newEsp + 16#32)⟩ := by
  subst old stored new
  have oldArgument : c.machine.esp - 16#32 + 20#32 = c.machine.esp + 4#32 := by bv_omega
  have newArgument : c.machine.esp - 16#32 + 24#32 = c.machine.esp + 8#32 := by bv_omega
  simp [runOps, taskSwitchAsm, exec, Machine.push, Machine.pop, Machine.reg, Machine.setReg,
    savedRegisters, slot_sub, oldArgument, newArgument, add_assoc]

-- What a task had when it called `task_switch_asm`; `esp` is that after the call.
structure Saved where
  eip : Word
  edi : Word
  esi : Word
  ebx : Word
  ebp : Word
  esp : Word
deriving DecidableEq, Repr

inductive Context where
  | fresh (entry : Word)
  | suspended (saved : Saved)
deriving DecidableEq, Repr

def savedBy (m : Machine) : Saved where
  eip := load32 m.mem m.esp
  edi := m.edi
  esi := m.esi
  ebx := m.ebx
  ebp := m.ebp
  esp := m.esp + 4#32

/--
Where the tasks' stacks are and where their `esp` fields. The fields lie in the task
structures, which are no part of a stack.
-/
structure Layout (Id : Type) where
  owns : Id → Word → Prop
  cell : Id → Word
  -- The address of `task_start_asm`.
  start : Word
  apart : ∀ t t' a, owns t a → owns t' a → t = t'
  cellOutside : ∀ t t' a, Span (cell t) 4 a → ¬ owns t' a
  cellsApart : ∀ t t' a, Span (cell t) 4 a → Span (cell t') 4 a → t = t'

structure Switching (Id : Type) where
  cpu : Cpu
  running : Id
  -- None for the running task and for tasks that were not created yet.
  context : Id → Option Context

section

variable {Id : Type} [DecidableEq Id] (layout : Layout Id)

-- What the running task may not write: the stacks of the others and the `esp` fields.
def Guarded (running : Id) (a : Word) : Prop :=
  (∃ t, t ≠ running ∧ layout.owns t a) ∨ ∃ t, Span (layout.cell t) 4 a

-- The running task is at the first instruction of `task_switch_asm`, called with the
-- address of its own `esp` field and the `esp` of `next`.
structure CallsSwitch (s : Switching Id) (next : Id) : Prop where
  room : Covers (layout.owns s.running) (s.cpu.machine.esp - 16#32) 28
  oldEsp : load32 s.cpu.machine.mem (s.cpu.machine.esp + 4#32) = layout.cell s.running
  newEsp : load32 s.cpu.machine.mem (s.cpu.machine.esp + 8#32) =
    load32 s.cpu.machine.mem (layout.cell next)

def Switching.switch (s : Switching Id) (next : Id) : Switching Id where
  cpu := runOps taskSwitchAsm s.cpu
  running := next
  context := Function.update
    (Function.update s.context s.running (some (.suspended (savedBy s.cpu.machine)))) next none

def Switching.withMemory (s : Switching Id) (mem : Memory) : Switching Id :=
  { s with cpu := ⟨{ s.cpu.machine with mem }, s.cpu.eip⟩ }

def Switching.create (s : Switching Id) (t : Id) (base entry : Word) : Switching Id :=
  { s.withMemory (store32 (layOutFrame s.cpu.machine.mem base entry layout.start)
      (layout.cell t) base) with
    context := Function.update s.context t (some (.fresh entry)) }

inductive Switches : Switching Id → Switching Id → Prop where
  -- The running task computes; its registers and instruction pointer may end up anywhere.
  | work (s : Switching Id) (cpu : Cpu)
      (keeps : ∀ a, Guarded layout s.running a → cpu.machine.mem a = s.cpu.machine.mem a) :
      Switches s { s with cpu }
  | create (s : Switching Id) (t : Id) (base entry : Word) (absent : s.context t = none)
      (other : t ≠ s.running) (inside : Covers (layout.owns t) base 24) :
      Switches s (s.create layout t base entry)
  | switch (s : Switching Id) (next : Id) (calls : CallsSwitch layout s next)
      (away : (s.context next).isSome) : Switches s (s.switch next)

def Resumes (c : Cpu) : Context → Prop
  | .suspended saved => c.eip = saved.eip ∧ c.machine.edi = saved.edi ∧
      c.machine.esi = saved.esi ∧ c.machine.ebx = saved.ebx ∧ c.machine.ebp = saved.ebp ∧
      c.machine.esp = saved.esp
  | .fresh entry => c.eip = layout.start ∧ (runOps taskStartAsm c).eip = entry

def Context.words (start : Word) : Context → List Word
  | .suspended saved => [saved.edi, saved.esi, saved.ebx, saved.ebp, saved.eip]
  | .fresh entry => [0, 0, 0, 0, start, entry]

structure Held (mem : Memory) (t : Id) (context : Context) (base : Word) : Prop where
  cell : load32 mem (layout.cell t) = base
  inside : Covers (layout.owns t) base (4 * (context.words layout.start).length)
  words : WordsAt mem base (context.words layout.start)
  esp : ∀ saved, context = .suspended saved → saved.esp = base + 20#32

variable {layout} {mem mem' : Memory} {t : Id} {context : Context} {base : Word} {s s' : Switching Id}

omit [DecidableEq Id] in
theorem Held.congr (held : Held layout mem t context base)
    (stack : ∀ a, layout.owns t a → mem' a = mem a)
    (cell : ∀ a, Span (layout.cell t) 4 a → mem' a = mem a) : Held layout mem' t context base where
  cell := (load32_congr (.span _ 4) cell).trans held.cell
  inside := held.inside
  words := held.words.congr held.inside stack
  esp := held.esp

omit [DecidableEq Id] in
theorem Held.resumes (held : Held layout mem t context base) (m : Machine) :
    Resumes layout ⟨{ m with
      edi := load32 mem base
      esi := load32 mem (base + 4#32)
      ebx := load32 mem (base + 8#32)
      ebp := load32 mem (base + 12#32)
      esp := base + 20#32
      mem }, load32 mem (base + 16#32)⟩ context := by
  have words := held.words
  cases context with
  | suspended saved =>
    simp only [Context.words, WordsAt, add_assoc, BitVec.reduceAdd] at words
    obtain ⟨edi, esi, ebx, ebp, eip, -⟩ := words
    exact ⟨eip, edi, esi, ebx, ebp, (held.esp saved rfl).symm⟩
  | fresh entry =>
    simp only [Context.words, WordsAt, add_assoc, BitVec.reduceAdd] at words
    obtain ⟨-, -, -, -, eip, entryWord, -⟩ := words
    refine ⟨eip, ?_⟩
    simpa [runOps, taskStartAsm, exec, Machine.pop, Machine.setReg, Machine.reg] using entryWord

variable (layout) in
structure SwitchInv (s : Switching Id) : Prop where
  home : s.context s.running = none
  held : ∀ t context, s.context t = some context →
    ∃ base, Held layout s.cpu.machine.mem t context base

omit [DecidableEq Id] in
theorem SwitchInv.other (inv : SwitchInv layout s) (here : s.context t = some context) :
    t ≠ s.running := by
  rintro rfl
  simp [inv.home] at here

omit [DecidableEq Id] in
theorem Guarded.store32_eq {running : Id} {a b : Word} (guarded : Guarded layout running a)
    (mem : Memory) (value : Word) (covers : Covers (layout.owns running) b 4) :
    store32 mem b value a = mem a := by
  refine store32_outside mem value covers fun mine => ?_
  rcases guarded with ⟨t, other, own⟩ | ⟨t, cell⟩
  · exact other (layout.apart t running a own mine)
  · exact layout.cellOutside t running a cell mine

omit [DecidableEq Id] in
theorem SwitchInv.work (inv : SwitchInv layout s) (cpu : Cpu)
    (keeps : ∀ a, Guarded layout s.running a → cpu.machine.mem a = s.cpu.machine.mem a) :
    SwitchInv layout { s with cpu } where
  home := inv.home
  held := by
    intro t context here
    obtain ⟨base, held⟩ := inv.held t context here
    exact ⟨base, held.congr (fun a own => keeps a (.inl ⟨t, inv.other here, own⟩))
      (fun a cell => keeps a (.inr ⟨t, cell⟩))⟩

theorem SwitchInv.create (inv : SwitchInv layout s) {entry : Word} (other : t ≠ s.running)
    (inside : Covers (layout.owns t) base 24) :
    SwitchInv layout (s.create layout t base entry) where
  home := by
    rw [Switching.create, Switching.withMemory]
    exact (update_of_ne (Ne.symm other) _ _).trans inv.home
  held := by
    intro t' context here
    simp only [Switching.create, Switching.withMemory] at here ⊢
    by_cases same : t' = t
    · subst same
      cases (update_self t' _ _).symm.trans here
      refine ⟨base, by simp, inside, ?_, nofun⟩
      refine (layOutFrame_words s.cpu.machine.mem base entry layout.start).congr inside ?_
      intro a own
      exact store32_outside _ _ (.span _ 4) (fun cell => layout.cellOutside _ _ a cell own)
    · rw [update_of_ne same] at here
      obtain ⟨base', held⟩ := inv.held t' context here
      refine ⟨base', held.congr ?_ ?_⟩
      · intro a own
        rw [store32_outside _ _ (.span _ 4) (fun cell => layout.cellOutside _ _ a cell own)]
        exact layOutFrame_outside _ _ _ inside (fun new => same (layout.apart _ _ a own new))
      · intro a cell
        rw [store32_outside _ _ (.span _ 4) (fun new => same (layout.cellsApart _ _ a cell new))]
        exact layOutFrame_outside _ _ _ inside (layout.cellOutside _ _ a cell)

variable (layout) in
def switchedMemory (s : Switching Id) : Memory :=
  store32 (savedRegisters s.cpu.machine) (layout.cell s.running) (s.cpu.machine.esp - 16#32)

omit [DecidableEq Id] in
theorem CallsSwitch.run {next : Id} (calls : CallsSwitch layout s next) {base : Word}
    (newEsp : load32 s.cpu.machine.mem (layout.cell next) = base) :
    runOps taskSwitchAsm s.cpu =
      ⟨{ s.cpu.machine with
          eax := layout.cell s.running
          edi := load32 (switchedMemory layout s) base
          esi := load32 (switchedMemory layout s) (base + 4#32)
          ebx := load32 (switchedMemory layout s) (base + 8#32)
          ebp := load32 (switchedMemory layout s) (base + 12#32)
          esp := base + 20#32
          mem := switchedMemory layout s }, load32 (switchedMemory layout s) (base + 16#32)⟩ := by
  have old : load32 (savedRegisters s.cpu.machine) (s.cpu.machine.esp + 4#32) =
      layout.cell s.running := (savedRegisters_above _ _ (by decide)).trans calls.oldEsp
  have argument : Covers (layout.owns s.running) (s.cpu.machine.esp + 8#32) 4 := by
    have part := calls.room.within (m := 4) 24 (by omega)
    rwa [show s.cpu.machine.esp - 16#32 + BitVec.ofNat 32 24 = s.cpu.machine.esp + 8#32 by
      bv_omega] at part
  have new : load32 (switchedMemory layout s) (s.cpu.machine.esp + 8#32) = base := by
    rw [switchedMemory, load32_store32_ranges _ _ (.span _ 4) argument
      (fun a cell => layout.cellOutside _ _ a cell), savedRegisters_above _ _ (by decide),
      calls.newEsp, newEsp]
  exact taskSwitchAsm_run old rfl new

omit [DecidableEq Id] in
theorem CallsSwitch.others {next : Id} (calls : CallsSwitch layout s next) (other : t ≠ s.running)
    {a : Word} (guarded : layout.owns t a ∨ Span (layout.cell t) 4 a) :
    switchedMemory layout s a = s.cpu.machine.mem a := by
  have saved : Covers (layout.owns s.running) (s.cpu.machine.esp - 16#32) 16 := by
    simpa using calls.room.within (m := 16) 0 (by omega)
  unfold switchedMemory
  rcases guarded with own | cell
  · rw [store32_outside _ _ (.span _ 4) (fun cell => layout.cellOutside _ _ a cell own)]
    exact savedRegisters_outside saved (fun mine => other (layout.apart _ _ a own mine))
  · rw [store32_outside _ _ (.span _ 4) (fun mine => other (layout.cellsApart _ _ a cell mine))]
    exact savedRegisters_outside saved (layout.cellOutside _ _ a cell)

omit [DecidableEq Id] in
theorem CallsSwitch.held {next : Id} (calls : CallsSwitch layout s next) :
    Held layout (switchedMemory layout s) s.running (.suspended (savedBy s.cpu.machine))
      (s.cpu.machine.esp - 16#32) where
  cell := load32_store32 _ _ _
  inside := by simpa [Context.words] using calls.room.within (m := 20) 0 (by omega)
  words := by
    have frame : Covers (layout.owns s.running) (s.cpu.machine.esp - 16#32) 20 := by
      simpa using calls.room.within (m := 20) 0 (by omega)
    refine (savedRegisters_words s.cpu.machine).congr frame ?_
    intro a own
    exact store32_outside _ _ (.span _ 4) (fun cell => layout.cellOutside _ _ a cell own)
  esp := by
    rintro saved ⟨⟩
    simp only [savedBy]
    bv_omega

theorem SwitchInv.switch {next : Id} (inv : SwitchInv layout s) (calls : CallsSwitch layout s next)
    (away : (s.context next).isSome) : SwitchInv layout (s.switch next) where
  home := update_self next _ _
  held := by
    obtain ⟨left, isLeft⟩ := Option.isSome_iff_exists.mp away
    obtain ⟨base, nextHeld⟩ := inv.held next left isLeft
    intro t context here
    simp only [Switching.switch] at here ⊢
    rw [calls.run nextHeld.cell]
    by_cases isNext : t = next
    · simp [isNext] at here
    rw [update_of_ne isNext] at here
    by_cases isRunning : t = s.running
    · subst isRunning
      cases (update_self s.running _ _).symm.trans here
      exact ⟨_, calls.held⟩
    · rw [update_of_ne isRunning] at here
      obtain ⟨base', held⟩ := inv.held t context here
      exact ⟨base', held.congr (fun a own => calls.others isRunning (.inl own))
        (fun a cell => calls.others isRunning (.inr cell))⟩

theorem SwitchInv.step (inv : SwitchInv layout s) (step : Switches layout s s') :
    SwitchInv layout s' := by
  cases step with
  | work cpu keeps => exact inv.work cpu keeps
  | create t base entry absent other inside => exact inv.create other inside
  | switch next calls away => exact inv.switch calls away

theorem SwitchInv.resumes {next : Id} (inv : SwitchInv layout s)
    (left : s.context next = some context) (calls : CallsSwitch layout s next) :
    Resumes layout (s.switch next).cpu context ∧
      (s.switch next).cpu.machine.eax = layout.cell s.running := by
  obtain ⟨base, held⟩ := inv.held next context left
  have other := inv.other left
  have kept : Held layout (switchedMemory layout s) next context base :=
    held.congr (fun a own => calls.others other (.inl own))
      (fun a cell => calls.others other (.inr cell))
  rw [Switching.switch, calls.run held.cell]
  exact ⟨kept.resumes { s.cpu.machine with eax := layout.cell s.running }, rfl⟩

theorem SwitchInv.run {start : Switching Id} (initial : ∀ t, start.context t = none)
    (run : Relation.ReflTransGen (Switches layout) start s) : SwitchInv layout s := by
  induction run with
  | refl => exact ⟨initial _, fun t context here => by simp [initial t] at here⟩
  | tail _ step ih => exact ih.step step

end

-- Whatever the tasks did in between, a switch to a task continues it with what it had
-- when it was left, or starts its function.
theorem switch_resumes {Id : Type} [DecidableEq Id] (layout : Layout Id) (start s : Switching Id)
    (initial : ∀ t, start.context t = none)
    (run : Relation.ReflTransGen (Switches layout) start s) (next : Id) (context : Context)
    (left : s.context next = some context) (calls : CallsSwitch layout s next) :
    Resumes layout (s.switch next).cpu context :=
  ((SwitchInv.run initial run).resumes left calls).1

def ownPage (t : Bool) (a : Word) : Prop := a >>> 12 = if t then 2#32 else 1#32

def espField (t : Bool) : Word := if t then 0x204 else 0x104

instance (t : Bool) : DecidablePred (ownPage t) := fun _ => inferInstanceAs (Decidable (_ = _))

theorem espField_outside : ∀ t t', ∀ i < 4, ¬ ownPage t' (espField t + BitVec.ofNat 32 i) := by
  decide

theorem espField_apart : ∀ t t', ∀ i < 4, ∀ j < 4,
    espField t + BitVec.ofNat 32 i = espField t' + BitVec.ofNat 32 j → t = t' := by
  decide

def twoStacks : Layout Bool where
  owns := ownPage
  cell := espField
  start := 0x9000
  apart := by
    intro t t' a mine yours
    have same : (if t then 2#32 else 1#32) = if t' then 2#32 else 1#32 := mine.symm.trans yours
    cases t <;> cases t' <;> simp_all
  cellOutside := by
    rintro t t' a ⟨i, below, rfl⟩
    exact espField_outside t t' i below
  cellsApart := by
    rintro t t' a ⟨i, below, rfl⟩ ⟨j, below', same⟩
    exact espField_apart t t' i below j below' same

def callingSwitch : Switching Bool where
  cpu := ⟨{ eax := 0, ecx := 0, edx := 0, ebx := 3, esp := 0x1800, ebp := 4, esi := 2, edi := 1
            ds := 0, es := 0, fs := 0, gs := 0, interrupts := false
            mem := store32 (store32 (store32 (fun _ => 0) 0x1800 0x77) 0x1804 0x104) 0x1808 0x2FE8 },
          0x5000⟩
  running := false
  context := fun _ => none

def bothCreated : Switching Bool := callingSwitch.create twoStacks true 0x2FE8 0x4444

def callingBack : Switching Bool :=
  let s := bothCreated.switch true
  let mem := store32 (store32 (store32 s.cpu.machine.mem 0x2F00 0x88) 0x2F04 0x204) 0x2F08 0x17F0
  { s with cpu := ⟨{ s.cpu.machine with esp := 0x2F00, ebx := 9, edi := 9, mem }, 0x5000⟩ }

theorem bothCreated_calls : CallsSwitch twoStacks bothCreated true where
  room := show Covers (ownPage false) (0x1800 - 16#32) 28 by decide
  oldEsp := by decide +kernel
  newEsp := by decide +kernel

theorem callingBack_calls : CallsSwitch twoStacks callingBack false where
  room := show Covers (ownPage true) (0x2F00 - 16#32) 28 by decide
  oldEsp := by decide +kernel
  newEsp := by decide +kernel

theorem callingBack_reached :
    Relation.ReflTransGen (Switches twoStacks) callingSwitch callingBack := by
  have created : Switches twoStacks callingSwitch bothCreated :=
    .create _ true 0x2FE8 0x4444 rfl (by decide) (show Covers (ownPage true) 0x2FE8 24 by decide)
  have switched : Switches twoStacks bothCreated (bothCreated.switch true) :=
    .switch _ true bothCreated_calls rfl
  have pushed : Switches twoStacks (bothCreated.switch true) callingBack := by
    refine .work _ _ ?_
    intro a guarded
    have word : ∀ b : Word, Covers (ownPage true) b 4 → ∀ mem value,
        store32 mem b value a = mem a := fun _ covers mem value =>
      guarded.store32_eq mem value covers
    simp only [word 0x2F08 (by decide), word 0x2F04 (by decide), word 0x2F00 (by decide)]
  exact ((Relation.ReflTransGen.single created).tail switched).tail pushed

theorem switch_resumes_first_task :
    Resumes twoStacks (callingBack.switch false).cpu
      (.suspended ⟨0x77, 1, 2, 3, 4, 0x1804⟩) :=
  switch_resumes twoStacks callingSwitch callingBack (fun _ => rfl) callingBack_reached false _
    (by decide +kernel) callingBack_calls

end ArgoOS.Tasking
