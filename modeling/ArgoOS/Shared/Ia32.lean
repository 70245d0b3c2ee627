import Mathlib

set_option autoImplicit false

/-!
# The IA-32 integer stack machine

Registers, data segments, byte-addressed memory and the instructions that entry
stubs are written in. A C function called from such a stub is a function on the
machine that keeps the cdecl contract.
-/

namespace Ia32

abbrev Word := BitVec 32
abbrev Selector := BitVec 16
abbrev Memory := Word → BitVec 8

def load32 (mem : Memory) (a : Word) : Word :=
  mem (a + 3#32) ++ mem (a + 2#32) ++ mem (a + 1#32) ++ mem a

def store32 (mem : Memory) (a value : Word) : Memory := fun b =>
  if b = a then value.extractLsb' 0 8
  else if b = a + 1#32 then value.extractLsb' 8 8
  else if b = a + 2#32 then value.extractLsb' 16 8
  else if b = a + 3#32 then value.extractLsb' 24 8
  else mem b

@[simp] theorem load32_store32 (mem : Memory) (a value : Word) :
    load32 (store32 mem a value) a = value := by
  apply BitVec.eq_of_getLsbD_eq
  intro i hi
  have one : a + 1#32 ≠ a := by bv_omega
  have two : a + 2#32 ≠ a ∧ a + 2#32 ≠ a + 1#32 := by constructor <;> bv_omega
  have three : a + 3#32 ≠ a ∧ a + 3#32 ≠ a + 1#32 ∧ a + 3#32 ≠ a + 2#32 := by
    refine ⟨?_, ?_, ?_⟩ <;> bv_omega
  simp only [load32, store32, one, two.1, two.2, three.1, three.2.1, three.2.2, if_true, if_false,
    BitVec.getLsbD_append, BitVec.getLsbD_extractLsb']
  -- Bit `i` comes from byte `i / 8` of the stored value.
  split_ifs with first second third
  · simp [first]
  · simp [show i - 8 < 8 by omega, show 8 + (i - 8) = i by omega]
  · simp [show i - 8 - 8 < 8 by omega, show 16 + (i - 8 - 8) = i by omega]
  · simp [show i - 8 - 8 - 8 < 8 by omega, show 24 + (i - 8 - 8 - 8) = i by omega]

theorem load32_store32_of_apart (mem : Memory) (a b value : Word)
    (above : 4 ≤ (a - b).toNat) (below : 4 ≤ (b - a).toNat) :
    load32 (store32 mem a value) b = load32 mem b := by
  have apart (i j : Word) (hi : i.toNat < 4) (hj : j.toNat < 4) : b + i ≠ a + j := by
    intro same
    bv_omega
  have start (j : Word) (hj : j.toNat < 4) : b ≠ a + j := by
    simpa using apart 0#32 j (by decide) hj
  have base (i : Word) (hi : i.toNat < 4) : b + i ≠ a := by
    simpa using apart i 0#32 hi (by decide)
  have same : b ≠ a := by simpa using start 0#32 (by decide)
  simp [load32, store32, apart, start, base, same]

-- Stack slots are addressed downwards from a fixed base, so that both sides are literals.
theorem load32_store32_slot (mem : Memory) (base i j value : Word)
    (apart : 4 ≤ (i - j).toNat ∧ 4 ≤ (j - i).toNat) :
    load32 (store32 mem (base - i) value) (base - j) = load32 mem (base - j) := by
  apply load32_store32_of_apart
  · rw [sub_sub_sub_cancel_left]
    exact apart.2
  · rw [sub_sub_sub_cancel_left]
    exact apart.1

theorem load32_store32_above (mem : Memory) (base i d value : Word)
    (apart : 4 ≤ i.toNat) (room : i.toNat + d.toNat + 4 ≤ 2 ^ 32) :
    load32 (store32 mem (base - i) value) (base + d) = load32 mem (base + d) := by
  apply load32_store32_of_apart <;> bv_omega

theorem slot_sub (base i j : Word) : base - i - j = base - (i + j) := sub_sub base i j

theorem slot_add (base i j : Word) : base - i + j = base - (i - j) := by
  rw [sub_sub_eq_add_sub, sub_add_eq_add_sub]

structure Machine where
  eax : Word
  ecx : Word
  edx : Word
  ebx : Word
  esp : Word
  ebp : Word
  esi : Word
  edi : Word
  ds : Selector
  es : Selector
  fs : Selector
  gs : Selector
  mem : Memory
  interrupts : Bool

inductive Reg where
  | eax | ecx | edx | ebx | esp | ebp | esi | edi
deriving DecidableEq, Repr

inductive Seg where
  | ds | es | fs | gs
deriving DecidableEq, Repr

namespace Machine

def reg (m : Machine) : Reg → Word
  | .eax => m.eax
  | .ecx => m.ecx
  | .edx => m.edx
  | .ebx => m.ebx
  | .esp => m.esp
  | .ebp => m.ebp
  | .esi => m.esi
  | .edi => m.edi

def setReg (m : Machine) (value : Word) : Reg → Machine
  | .eax => { m with eax := value }
  | .ecx => { m with ecx := value }
  | .edx => { m with edx := value }
  | .ebx => { m with ebx := value }
  | .esp => { m with esp := value }
  | .ebp => { m with ebp := value }
  | .esi => { m with esi := value }
  | .edi => { m with edi := value }

def setSeg (m : Machine) (value : Selector) : Seg → Machine
  | .ds => { m with ds := value }
  | .es => { m with es := value }
  | .fs => { m with fs := value }
  | .gs => { m with gs := value }

def push (m : Machine) (value : Word) : Machine :=
  { m with esp := m.esp - 4#32, mem := store32 m.mem (m.esp - 4#32) value }

-- `pop esp` ends with the popped word in ESP: the increment comes first.
def pop (m : Machine) (r : Reg) : Machine :=
  { m with esp := m.esp + 4#32 }.setReg (load32 m.mem m.esp) r

/-- The words a function entered by `call` finds above its return address. -/
def argument (m : Machine) (i : Nat) : Word :=
  load32 m.mem (m.esp + BitVec.ofNat 32 (4 * i + 4))

end Machine

inductive Instr where
  | cli
  | sti
  | pushByte (value : BitVec 8)
  | push (r : Reg)
  | pop (r : Reg)
  | pusha
  | popa
  | movAxDs
  | movAx (value : Selector)
  | movSegAx (s : Seg)
  | addEsp (value : Word)
  | call (returnAddress : Word)
deriving DecidableEq, Repr

/-- The low half of a register replaced, its high half kept. -/
def withLow (r : Word) (low : Selector) : Word :=
  r &&& 0xFFFF0000#32 ||| low.setWidth 32

def step (callee : Machine → Machine) : Instr → Machine → Machine
  | .cli, m => { m with interrupts := false }
  | .sti, m => { m with interrupts := true }
  | .pushByte value, m => m.push (value.signExtend 32)
  | .push r, m => m.push (m.reg r)
  | .pop r, m => m.pop r
  | .pusha, m =>
      ((((((((m.push m.eax).push m.ecx).push m.edx).push m.ebx).push m.esp).push m.ebp).push
        m.esi).push m.edi)
  | .popa, m =>
      let m := ((m.pop .edi).pop .esi).pop .ebp
      let m := { m with esp := m.esp + 4#32 }
      (((m.pop .ebx).pop .edx).pop .ecx).pop .eax
  | .movAxDs, m => { m with eax := withLow m.eax m.ds }
  | .movAx value, m => { m with eax := withLow m.eax value }
  | .movSegAx s, m => m.setSeg (m.eax.setWidth 16) s
  | .addEsp value, m => { m with esp := m.esp + value }
  | .call returnAddress, m => callee (m.push returnAddress)

def run (callee : Machine → Machine) : List Instr → Machine → Machine
  | [], m => m
  | i :: rest, m => run callee rest (step callee i m)

theorem run_append (callee : Machine → Machine) (first second : List Instr) (m : Machine) :
    run callee (first ++ second) m = run callee second (run callee first m) := by
  induction first generalizing m with
  | nil => rfl
  | cons i rest ih => exact ih (step callee i m)

/--
What a cdecl function with `args` words of arguments promises its caller: it
returns with the return address popped, keeps EBX, EBP, ESI, EDI and the data
segments, and leaves the `frame` words above its arguments alone. The argument
slots themselves belong to the callee.
-/
structure Cdecl (args frame : Nat) (callee : Machine → Machine) : Prop where
  esp : ∀ m, (callee m).esp = m.esp + 4#32
  ebx : ∀ m, (callee m).ebx = m.ebx
  ebp : ∀ m, (callee m).ebp = m.ebp
  esi : ∀ m, (callee m).esi = m.esi
  edi : ∀ m, (callee m).edi = m.edi
  ds : ∀ m, (callee m).ds = m.ds
  es : ∀ m, (callee m).es = m.es
  fs : ∀ m, (callee m).fs = m.fs
  gs : ∀ m, (callee m).gs = m.gs
  kept : ∀ m (d : Word), 4 * args + 4 ≤ d.toNat → d.toNat ≤ 4 * (args + frame) →
    load32 (callee m).mem (m.esp + d) = load32 m.mem (m.esp + d)

theorem Cdecl.kept_slot {args frame : Nat} {callee : Machine → Machine}
    (cdecl : Cdecl args frame callee) (m : Machine) (base i j : Word)
    (at_esp : m.esp = base - i)
    (inside : 4 * args + 4 ≤ (i - j).toNat ∧ (i - j).toNat ≤ 4 * (args + frame)) :
    load32 (callee m).mem (base - j) = load32 m.mem (base - j) := by
  have address : m.esp + (i - j) = base - j := by
    rw [at_esp]
    exact sub_add_sub_cancel base i j
  rw [← address]
  exact cdecl.kept m (i - j) inside.1 inside.2

theorem withLow_low (r : Word) (low : Selector) : (withLow r low).setWidth 16 = low := by
  apply BitVec.eq_of_getLsbD_eq
  intro i hi
  simp [withLow, hi]

end Ia32
