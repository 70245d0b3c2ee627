import Mathlib
import ArgoOS.Shared.Ia32

set_option autoImplicit false

/-!
# String instructions

`movs` and `stos` with the direction flag clear and a `rep` in front, and the memory that
they leave: a row of bytes that is given by the index of each byte.
-/

namespace Ia32

open Function BitVec

variable {i hi : Nat}

section

/-- The bytes with the indices `lo` to `hi - 1`, counted from `start`, have the given values. -/
def filled (mem : Memory) (start : Word) (values : Nat → BitVec 8) (lo hi : Nat) : Memory := fun a =>
  if start.toNat + lo ≤ a.toNat ∧ a.toNat < start.toNat + hi then values (a.toNat - start.toNat)
  else mem a

variable (mem : Memory) (start : Word) (values : Nat → BitVec 8)

theorem filled_empty (lo : Nat) : filled mem start values lo lo = mem := by
  funext a
  rw [filled, if_neg (by omega)]

theorem toNat_add_ofNat {start : Word} (fits : start.toNat + i < 2 ^ 32) :
    (start + BitVec.ofNat 32 i).toNat = start.toNat + i := by
  rw [toNat_add, toNat_ofNat]
  omega

theorem filled_update {lo lo' hi' : Nat} (fits : start.toNat + i < 2 ^ 32)
    (grown : lo' ≤ i ∧ i < hi' ∧ ∀ j, j ≠ i → (lo' ≤ j ∧ j < hi' ↔ lo ≤ j ∧ j < hi)) :
    update (filled mem start values lo hi) (start + BitVec.ofNat 32 i) (values i) =
      filled mem start values lo' hi' := by
  have address := toNat_add_ofNat fits
  funext a
  by_cases same : a = start + BitVec.ofNat 32 i
  · subst same
    rw [update_self, filled, if_pos (by omega), address, Nat.add_sub_cancel_left]
  · have other : a.toNat ≠ start.toNat + i := fun isSame => same (eq_of_toNat_eq (by omega))
    have rest := grown.2.2 (a.toNat - start.toNat)
    rw [update_of_ne same, filled, filled]
    refine if_congr ?_ rfl rfl
    omega

theorem filled_snoc (fits : start.toNat + hi < 2 ^ 32) :
    update (filled mem start values 0 hi) (start + BitVec.ofNat 32 hi) (values hi) =
      filled mem start values 0 (hi + 1) :=
  filled_update mem start values fits ⟨by omega, by omega, fun j other => by omega⟩

theorem filled_cons {lo : Nat} (nonempty : lo < hi) (fits : start.toNat + lo < 2 ^ 32) :
    update (filled mem start values (lo + 1) hi) (start + BitVec.ofNat 32 lo) (values lo) =
      filled mem start values lo hi :=
  filled_update mem start values fits ⟨by omega, by omega, fun j other => by omega⟩

theorem store32_bytes (a : Word) (b0 b1 b2 b3 : BitVec 8) :
    store32 mem a (b3 ++ b2 ++ b1 ++ b0) = update (update (update
      (update mem a b0) (a + 1#32) b1) (a + 2#32) b2) (a + 3#32) b3 := by
  have byte (i : Nat) (part : BitVec 8)
      (bits : ∀ j < 8, (b3 ++ b2 ++ b1 ++ b0).getLsbD (8 * i + j) = part.getLsbD j) :
      (b3 ++ b2 ++ b1 ++ b0).extractLsb' (8 * i) 8 = part := by
    apply eq_of_getLsbD_eq
    intro j inside
    simp only [getLsbD_extractLsb', inside, decide_true, Bool.true_and, bits j inside]
  have byte0 : (b3 ++ b2 ++ b1 ++ b0).extractLsb' 0 8 = b0 := byte 0 b0 fun j inside => by
    simp only [getLsbD_append]
    rw [if_pos (by omega)]
    congr 1
    omega
  have byte1 : (b3 ++ b2 ++ b1 ++ b0).extractLsb' 8 8 = b1 := byte 1 b1 fun j inside => by
    simp only [getLsbD_append]
    rw [if_neg (by omega), if_pos (by omega)]
    congr 1
    omega
  have byte2 : (b3 ++ b2 ++ b1 ++ b0).extractLsb' 16 8 = b2 := byte 2 b2 fun j inside => by
    simp only [getLsbD_append]
    rw [if_neg (by omega), if_neg (by omega), if_pos (by omega)]
    congr 1
    omega
  have byte3 : (b3 ++ b2 ++ b1 ++ b0).extractLsb' 24 8 = b3 := byte 3 b3 fun j inside => by
    simp only [getLsbD_append]
    rw [if_neg (by omega), if_neg (by omega), if_neg (by omega)]
    congr 1
    omega
  funext b
  simp only [store32, byte0, byte1, byte2, byte3, update_apply]
  split_ifs <;> first | rfl | bv_omega

theorem filled_snoc32 (fits : start.toNat + hi + 3 < 2 ^ 32) :
    store32 (filled mem start values 0 hi) (start + BitVec.ofNat 32 hi)
        (values (hi + 3) ++ values (hi + 2) ++ values (hi + 1) ++ values hi) =
      filled mem start values 0 (hi + 4) := by
  have next (i : Nat) : start + BitVec.ofNat 32 hi + BitVec.ofNat 32 i =
      start + BitVec.ofNat 32 (hi + i) := by
    rw [BitVec.add_assoc, ← ofNat_add]
  rw [store32_bytes, next 1, next 2, next 3, filled_snoc _ _ _ (by omega),
    filled_snoc _ _ _ (by omega), filled_snoc _ _ _ (by omega), filled_snoc _ _ _ (by omega)]

end

def rep {State : Type} (instr : State → State) (ecx : Word) : State → State := instr^[ecx.toNat]

/-- A row of equal instructions, each of which handles `width` bytes. -/
theorem rep_row {State : Type} {instr : State → State} {reached : Nat → State} {width len : Nat}
    (step : ∀ done, done + width ≤ len → instr (reached done) = reached (done + width)) (ecx : Word)
    (done : Nat) (fits : done + width * ecx.toNat ≤ len) :
    rep instr ecx (reached done) = reached (done + width * ecx.toNat) := by
  unfold rep
  generalize ecx.toNat = count at fits ⊢
  induction count with
  | zero => rfl
  | succ count ih =>
    rw [Nat.mul_succ] at fits ⊢
    rw [iterate_succ_apply', ih (by omega), step _ (by omega), Nat.add_assoc]

section

structure Movs where
  edi : Word
  esi : Word
  mem : Memory

def movsb (s : Movs) : Movs :=
  ⟨s.edi + 1#32, s.esi + 1#32, Function.update s.mem s.edi (s.mem s.esi)⟩

def movsd (s : Movs) : Movs :=
  ⟨s.edi + 4#32, s.esi + 4#32, store32 s.mem s.edi (load32 s.mem s.esi)⟩

/-- A copy with rising addresses reads no byte that it has written. -/
structure CopiesUp (dest src : Word) (len : Nat) : Prop where
  destFits : dest.toNat + len ≤ 2 ^ 32
  srcFits : src.toNat + len ≤ 2 ^ 32
  order : dest.toNat ≤ src.toNat ∨ src.toNat + len ≤ dest.toNat

def bytesAt (mem : Memory) (src : Word) (i : Nat) : BitVec 8 := mem (src + BitVec.ofNat 32 i)

def Movs.after (mem : Memory) (dest src : Word) (done : Nat) : Movs :=
  ⟨dest + BitVec.ofNat 32 done, src + BitVec.ofNat 32 done,
    filled mem dest (bytesAt mem src) 0 done⟩

variable {dest src : Word} {len : Nat}

section

variable (up : CopiesUp dest src len) (mem : Memory)

include up mem

theorem CopiesUp.source {done : Nat} (later : done ≤ i) (inside : i < len) :
    filled mem dest (bytesAt mem src) 0 done (src + BitVec.ofNat 32 i) = bytesAt mem src i := by
  obtain ⟨-, fits, order⟩ := up
  have address : (src + BitVec.ofNat 32 i).toNat = src.toNat + i := toNat_add_ofNat (by omega)
  rw [filled, if_neg (by omega), bytesAt]

theorem CopiesUp.movsb (done : Nat) (inside : done + 1 ≤ len) :
    Ia32.movsb (Movs.after mem dest src done) = Movs.after mem dest src (done + 1) := by
  have fits := up.destFits
  simp only [Ia32.movsb, Movs.after, up.source mem (Nat.le_refl done) inside, ofNat_add,
    BitVec.add_assoc]
  rw [filled_snoc _ _ _ (by omega)]

theorem CopiesUp.movsd (done : Nat) (inside : done + 4 ≤ len) :
    Ia32.movsd (Movs.after mem dest src done) = Movs.after mem dest src (done + 4) := by
  have fits := up.destFits
  have next (i : Nat) (below : i < 4) : filled mem dest (bytesAt mem src) 0 done
      (src + BitVec.ofNat 32 done + BitVec.ofNat 32 i) = bytesAt mem src (done + i) := by
    rw [BitVec.add_assoc, ← ofNat_add]
    exact up.source mem (by omega) (by omega)
  have loaded : load32 (filled mem dest (bytesAt mem src) 0 done) (src + BitVec.ofNat 32 done) =
      bytesAt mem src (done + 3) ++ bytesAt mem src (done + 2) ++ bytesAt mem src (done + 1) ++
        bytesAt mem src done := by
    rw [load32, next 1 (by omega), next 2 (by omega), next 3 (by omega),
      up.source mem (Nat.le_refl done) (by omega)]
  simp only [Ia32.movsd, Movs.after, loaded, ofNat_add, BitVec.add_assoc]
  rw [filled_snoc32 _ _ _ (by omega)]

end

end

section

structure Stos where
  edi : Word
  mem : Memory

def stosb (al : BitVec 8) (s : Stos) : Stos :=
  ⟨s.edi + 1#32, Function.update s.mem s.edi al⟩

def stosd (eax : Word) (s : Stos) : Stos :=
  ⟨s.edi + 4#32, store32 s.mem s.edi eax⟩

def Stos.after (mem : Memory) (start : Word) (values : Nat → BitVec 8) (done : Nat) : Stos :=
  ⟨start + BitVec.ofNat 32 done, filled mem start values 0 done⟩

variable (mem : Memory) {start : Word} {values : Nat → BitVec 8} {done : Nat}

theorem stosb_after {al : BitVec 8} (value : values done = al)
    (fits : start.toNat + done + 1 ≤ 2 ^ 32) :
    stosb al (Stos.after mem start values done) = Stos.after mem start values (done + 1) := by
  simp only [stosb, Stos.after, ← value, ofNat_add, BitVec.add_assoc]
  rw [filled_snoc _ _ _ (by omega)]

theorem stosd_after {eax : Word}
    (value : values (done + 3) ++ values (done + 2) ++ values (done + 1) ++ values done = eax)
    (fits : start.toNat + done + 4 ≤ 2 ^ 32) :
    stosd eax (Stos.after mem start values done) = Stos.after mem start values (done + 4) := by
  simp only [stosd, Stos.after, ← value, ofNat_add, BitVec.add_assoc]
  rw [filled_snoc32 _ _ _ (by omega)]

end

end Ia32
