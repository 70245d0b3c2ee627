import ArgoOS.Shared.Ia32

set_option autoImplicit false

/-!
# Leaving one IA-32 stack for another

The machine with its instruction pointer, the instructions that change stacks, and
byte ranges of memory with an owner.
-/

namespace Ia32

structure Cpu where
  machine : Machine
  eip : Word

inductive Op where
  | push (r : Reg)
  | pop (r : Reg)
  -- `mov r, [base + offset]`
  | load (r base : Reg) (offset : Word)
  -- `mov [base + offset], r`
  | store (base : Reg) (offset : Word) (r : Reg)
  | sti
  | callReg (r : Reg)
  | ret
deriving DecidableEq, Repr

-- `next` is the address of the instruction that follows.
def exec (next : Word) (c : Cpu) : Op → Cpu
  | .push r => ⟨c.machine.push (c.machine.reg r), next⟩
  | .pop r => ⟨c.machine.pop r, next⟩
  | .load r base offset =>
    ⟨c.machine.setReg (load32 c.machine.mem (c.machine.reg base + offset)) r, next⟩
  | .store base offset r =>
    ⟨{ c.machine with
        mem := store32 c.machine.mem (c.machine.reg base + offset) (c.machine.reg r) }, next⟩
  | .sti => ⟨{ c.machine with interrupts := true }, next⟩
  | .callReg r => ⟨c.machine.push next, c.machine.reg r⟩
  | .ret => ⟨{ c.machine with esp := c.machine.esp + 4#32 }, load32 c.machine.mem c.machine.esp⟩

def runOps : List (Op × Word) → Cpu → Cpu
  | [], c => c
  | (op, length) :: rest, c => runOps rest (exec (c.eip + length) c op)

def Covers (owned : Word → Prop) (a : Word) (n : Nat) : Prop :=
  ∀ i < n, owned (a + BitVec.ofNat 32 i)

instance (owned : Word → Prop) [DecidablePred owned] (a : Word) (n : Nat) :
    Decidable (Covers owned a n) :=
  inferInstanceAs (Decidable (∀ i < n, _))

def Span (a : Word) (n : Nat) (b : Word) : Prop := ∃ i < n, b = a + BitVec.ofNat 32 i

theorem Covers.span (a : Word) (n : Nat) : Covers (Span a n) a n := fun i inside => ⟨i, inside, rfl⟩

def WordsAt (mem : Memory) : Word → List Word → Prop
  | _, [] => True
  | a, word :: rest => load32 mem a = word ∧ WordsAt mem (a + 4#32) rest

section

variable {owned : Word → Prop} {mem mem' : Memory} {a b value : Word}

theorem Covers.within {n m : Nat} (covers : Covers owned a n) (k : Nat) (inside : k + m ≤ n) :
    Covers owned (a + BitVec.ofNat 32 k) m := by
  intro i below
  have byte := covers (k + i) (by omega)
  rwa [BitVec.ofNat_add, ← BitVec.add_assoc] at byte

theorem load32_congr (covers : Covers owned a 4) (same : ∀ b, owned b → mem' b = mem b) :
    load32 mem' a = load32 mem a := by
  have first : mem' a = mem a := by simpa using same _ (covers 0 (by omega))
  have second := same _ (covers 1 (by omega))
  have third := same _ (covers 2 (by omega))
  have fourth := same _ (covers 3 (by omega))
  unfold load32
  rw [first, second, third, fourth]

theorem store32_outside (mem : Memory) (value : Word) (covers : Covers owned a 4)
    (outside : ¬ owned b) : store32 mem a value b = mem b := by
  have apart : ∀ i < 4, b ≠ a + BitVec.ofNat 32 i := by
    rintro i below rfl
    exact outside (covers i below)
  have first : b ≠ a := by simpa using apart 0 (by omega)
  have second : b ≠ a + 1#32 := apart 1 (by omega)
  have third : b ≠ a + 2#32 := apart 2 (by omega)
  have fourth : b ≠ a + 3#32 := apart 3 (by omega)
  simp [store32, first, second, third, fourth]

theorem load32_store32_ranges {other : Word → Prop} (mem : Memory) (value : Word)
    (stored : Covers owned a 4) (loaded : Covers other b 4)
    (disjoint : ∀ c, owned c → ¬ other c) :
    load32 (store32 mem a value) b = load32 mem b :=
  load32_congr loaded fun c inside => store32_outside mem value stored fun both =>
    disjoint c both inside

theorem load32_store32_word (mem : Memory) (base i j value : Word)
    (apart : 4 ≤ (i - j).toNat ∧ 4 ≤ (j - i).toNat) :
    load32 (store32 mem (base + i) value) (base + j) = load32 mem (base + j) := by
  apply load32_store32_of_apart
  · rw [add_sub_add_left_eq_sub]
    exact apart.1
  · rw [add_sub_add_left_eq_sub]
    exact apart.2

theorem load32_store32_base (mem : Memory) (base j value : Word)
    (apart : 4 ≤ j.toNat ∧ 4 ≤ (-j).toNat) :
    load32 (store32 mem base value) (base + j) = load32 mem (base + j) := by
  have word := load32_store32_word mem base 0#32 j value (by simpa using apart.symm)
  simpa using word

theorem WordsAt.congr {words : List Word} (holds : WordsAt mem a words)
    (covers : Covers owned a (4 * words.length)) (same : ∀ b, owned b → mem' b = mem b) :
    WordsAt mem' a words := by
  induction words generalizing a with
  | nil => trivial
  | cons word rest ih =>
    obtain ⟨first, later⟩ := holds
    rw [List.length_cons] at covers
    have head : Covers owned a 4 := by simpa using covers.within (m := 4) 0 (by omega)
    have tail : Covers owned (a + 4#32) (4 * rest.length) := covers.within 4 (by omega)
    exact ⟨(load32_congr head same).trans first, ih later tail⟩

end

end Ia32
