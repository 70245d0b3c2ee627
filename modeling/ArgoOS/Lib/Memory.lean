import Mathlib
import ArgoOS.Shared.Ia32Strings

set_option autoImplicit false

/-!
# Copying and filling memory

`memcpy_asm` and `memset_asm` of `string_asm.asm` between the load of their arguments and the
return, and `memmove` of `string.c`. The registers they save lie below the caller's stack
pointer and are left out of the memory.
-/

namespace ArgoOS.Strings

open Ia32 List BitVec

variable {dest src : Word} {len : Nat}

section

-- The parts of `memcpy_asm` behind `.byte_copy` and `.aligned`.
def byteCopy (ecx : Word) (s : Movs) : Movs := rep movsb ecx s

def alignedCopy (ecx : Word) (s : Movs) : Movs :=
  let edx := ecx
  let s := rep movsd (ecx >>> 2) s
  let ecx := edx &&& 3#32
  if ecx = 0#32 then s else byteCopy ecx s

def memcpyAsm (mem : Memory) (dest src n : Word) : Memory × Word :=
  let s : Movs := ⟨dest, src, mem⟩
  let s :=
    if n = 0#32 then s
    else if n < 4#32 then byteCopy n s
    else
      let eax := dest &&& 3#32
      if eax = 0#32 then alignedCopy n s
      else
        let edx := 4#32 - eax
        if n < edx then byteCopy n s
        else alignedCopy edx (rep movsb (n - edx) s)
  (s.mem, dest)

theorem toNat_and_three (w : Word) : (w &&& 3#32).toNat = w.toNat % 4 := by
  rw [toNat_and]
  exact Nat.and_two_pow_sub_one_eq_mod w.toNat 2

theorem toNat_shift_two (w : Word) : (w >>> 2).toNat = w.toNat / 4 := by
  rw [toNat_ushiftRight, Nat.shiftRight_eq_div_pow]

section

variable (up : CopiesUp dest src len) (mem : Memory) (ecx : Word) (done : Nat)
    (fits : done + ecx.toNat ≤ len)

include up mem ecx done fits

theorem byteCopy_after :
    byteCopy ecx (Movs.after mem dest src done) = Movs.after mem dest src (done + ecx.toNat) := by
  have row := rep_row (up.movsb mem) ecx done (by omega)
  rwa [Nat.one_mul] at row

theorem alignedCopy_after :
    alignedCopy ecx (Movs.after mem dest src done) =
      Movs.after mem dest src (done + ecx.toNat) := by
  have words := toNat_shift_two ecx
  have tail := toNat_and_three ecx
  have row := rep_row (up.movsd mem) (ecx >>> 2) done (by omega)
  simp only [alignedCopy, row]
  split
  · next none =>
    rw [none] at tail
    congr 1
    simp only [toNat_ofNat] at tail
    omega
  · rw [byteCopy_after up mem _ _ (by omega)]
    congr 1
    omega

end

theorem memcpyAsm_copies (mem : Memory) (dest src n : Word)
    (destFits : dest.toNat + n.toNat ≤ 2 ^ 32) (srcFits : src.toNat + n.toNat ≤ 2 ^ 32)
    (apart : dest.toNat + n.toNat ≤ src.toNat ∨ src.toNat + n.toNat ≤ dest.toNat ∨
      dest.toNat ≤ src.toNat) :
    memcpyAsm mem dest src n = (filled mem dest (bytesAt mem src) 0 n.toNat, dest) := by
  have up : CopiesUp dest src n.toNat := ⟨destFits, srcFits, by omega⟩
  have start : (⟨dest, src, mem⟩ : Movs) = Movs.after mem dest src 0 := by
    simp [Movs.after, filled_empty]
  have small := byteCopy_after up mem n 0 (by omega)
  have large := alignedCopy_after up mem n 0 (by omega)
  rw [Nat.zero_add] at small large
  simp only [memcpyAsm, start]
  split_ifs with none few aligned short
  · rw [none]
    rfl
  · rw [small]
    rfl
  · rw [large]
    rfl
  · rw [small]
    rfl
  · -- The bytes in front of the last `edx` ones are copied first.
    have rest : (n - (4#32 - (dest &&& 3#32))).toNat + (4#32 - (dest &&& 3#32)).toNat = n.toNat := by
      bv_omega
    have bulk := byteCopy_after up mem (n - (4#32 - (dest &&& 3#32))) 0 (by omega)
    rw [byteCopy, Nat.zero_add] at bulk
    rw [bulk, alignedCopy_after up mem _ _ (by omega), rest]
    rfl

-- Each byte is the low byte of its address.
def addressBytes : Memory := fun a => a.setWidth 8

theorem memcpyAsm_copies_overlap :
    memcpyAsm addressBytes 0x1001#32 0x1003#32 7#32 =
      (filled addressBytes 0x1001#32 (bytesAt addressBytes 0x1003#32) 0 7, 0x1001#32) :=
  memcpyAsm_copies addressBytes 0x1001#32 0x1003#32 7#32 (by decide) (by decide) (by decide)

end

section

-- `mov ah, al`, then the shift and the `or`.
def fillPattern (c : Word) : Word :=
  let eax := c &&& 0xFFFF00FF#32 ||| (c &&& 0xFF#32) <<< 8
  let edx := eax
  eax <<< 16 ||| edx

def byteFill (eax ecx : Word) (s : Stos) : Stos := rep (stosb (eax.extractLsb' 0 8)) ecx s

def alignedFill (eax ecx : Word) (s : Stos) : Stos :=
  let edx := ecx
  let s := rep (stosd eax) (ecx >>> 2) s
  let ecx := edx &&& 3#32
  if ecx = 0#32 then s else byteFill eax ecx s

def memsetAsm (mem : Memory) (s c n : Word) : Memory × Word :=
  let cursor : Stos := ⟨s, mem⟩
  let cursor :=
    if n = 0#32 then cursor
    else
      let eax := fillPattern c
      if n < 4#32 then byteFill eax n cursor
      else if s &&& 3#32 = 0#32 then alignedFill eax n cursor
      else
        let edx := 4#32 - (s &&& 3#32)
        if n < edx then byteFill eax n cursor
        else alignedFill eax edx (rep (stosb (eax.extractLsb' 0 8)) (n - edx) cursor)
  (cursor.mem, s)

def lowByte (c : Word) : BitVec 8 := c.extractLsb' 0 8

-- Each byte of the upper half of `c` goes into the pattern by an `or` with the low byte.
def KeepsPattern (c : Word) : Prop :=
  lowByte c ||| c.extractLsb' 16 8 = lowByte c ∧ lowByte c ||| c.extractLsb' 24 8 = lowByte c

instance (c : Word) : Decidable (KeepsPattern c) := inferInstanceAs (Decidable (_ ∧ _))

theorem fillPattern_bytes (c : Word) : (fillPattern c).extractLsb' 0 8 = lowByte c ∧
    (fillPattern c).extractLsb' 8 8 = lowByte c ∧
    (fillPattern c).extractLsb' 16 8 = lowByte c ||| c.extractLsb' 16 8 ∧
    (fillPattern c).extractLsb' 24 8 = lowByte c ||| c.extractLsb' 24 8 := by
  refine ⟨?_, ?_, ?_, ?_⟩ <;>
  · apply eq_of_getLsbD_eq
    intro i inside
    interval_cases i <;> simp [fillPattern, lowByte]

def patternAt (c : Word) (n i : Nat) : BitVec 8 :=
  if i < 4 * (n / 4) then (fillPattern c).extractLsb' (8 * (i % 4)) 8 else lowByte c

theorem word_eq_bytes (w : Word) : w.extractLsb' 24 8 ++ w.extractLsb' 16 8 ++ w.extractLsb' 8 8 ++
    w.extractLsb' 0 8 = w := by
  have loaded := load32_store32 (fun _ => 0#8) 0#32 w
  simpa [load32, store32] using loaded

theorem byteFill_after (mem : Memory) (start c : Word) (values : Nat → BitVec 8) (ecx : Word)
    (done : Nat) (low : ∀ i, done ≤ i → i < done + ecx.toNat → values i = lowByte c)
    (fits : start.toNat + done + ecx.toNat ≤ 2 ^ 32) :
    byteFill (fillPattern c) ecx (Stos.after mem start values done) =
      Stos.after mem start values (done + ecx.toNat) := by
  have step : ∀ k, k + 1 ≤ ecx.toNat →
      stosb (lowByte c) (Stos.after mem start values (done + k)) =
        Stos.after mem start values (done + (k + 1)) :=
    fun k inside => stosb_after mem (low _ (by omega) (by omega)) (by omega)
  have row := rep_row step ecx 0 (by omega)
  rw [byteFill, (fillPattern_bytes c).1]
  simpa using row

theorem patternAt_word (c : Word) {n k : Nat} (inside : k + 1 ≤ n / 4) :
    patternAt c n (4 * k + 3) ++ patternAt c n (4 * k + 2) ++ patternAt c n (4 * k + 1) ++
      patternAt c n (4 * k) = fillPattern c := by
  have byte (j : Nat) (below : j < 4) :
      patternAt c n (4 * k + j) = (fillPattern c).extractLsb' (8 * j) 8 := by
    rw [patternAt, if_pos (by omega), show (4 * k + j) % 4 = j by omega]
  rw [byte 3 (by omega), byte 2 (by omega), byte 1 (by omega), ← Nat.add_zero (4 * k),
    byte 0 (by omega)]
  exact word_eq_bytes (fillPattern c)

theorem alignedFill_after (mem : Memory) {start : Word} (c : Word) {n : Word}
    (fits : start.toNat + n.toNat ≤ 2 ^ 32) :
    alignedFill (fillPattern c) n (Stos.after mem start (patternAt c n.toNat) 0) =
      Stos.after mem start (patternAt c n.toNat) n.toNat := by
  have words := toNat_shift_two n
  have tail := toNat_and_three n
  have step : ∀ k, k + 1 ≤ n.toNat / 4 →
      stosd (fillPattern c) (Stos.after mem start (patternAt c n.toNat) (4 * k)) =
        Stos.after mem start (patternAt c n.toNat) (4 * (k + 1)) :=
    fun k inside => stosd_after mem (patternAt_word c inside) (by omega)
  have row := rep_row step (n >>> 2)
    0 (by omega)
  simp only [Nat.mul_zero, Nat.zero_add, Nat.one_mul, words] at row
  simp only [alignedFill, row]
  split
  · next none =>
    rw [none] at tail
    simp only [toNat_ofNat] at tail
    rw [show 4 * (n.toNat / 4) = n.toNat by omega]
  · rw [byteFill_after mem start c _ _ _ (fun i behind _ => by rw [patternAt, if_neg (by omega)])
      (by omega), show 4 * (n.toNat / 4) + (n &&& 3#32).toNat = n.toNat by omega]

theorem alignedFill_short (c ecx : Word) (s : Stos) (positive : 0 < ecx.toNat)
    (short : ecx.toNat < 4) :
    alignedFill (fillPattern c) ecx s = byteFill (fillPattern c) ecx s := by
  have words : ecx >>> 2 = 0#32 := by
    apply eq_of_toNat_eq
    rw [toNat_shift_two, Nat.div_eq_of_lt short]
    rfl
  have tail : ecx &&& 3#32 = ecx := by
    apply eq_of_toNat_eq
    rw [toNat_and_three, Nat.mod_eq_of_lt short]
  simp only [alignedFill, words, tail]
  rw [if_neg (by bv_omega)]
  rfl

theorem filled_at (mem : Memory) {start : Word} (values : Nat → BitVec 8) {i hi : Nat}
    (inside : i < hi) (fits : start.toNat + i < 2 ^ 32) :
    filled mem start values 0 hi (start + BitVec.ofNat 32 i) = values i := by
  have address := toNat_add_ofNat fits
  rw [filled, if_pos (by omega), address, Nat.add_sub_cancel_left]

theorem patternAt_low_iff (mem : Memory) {s : Word} (c : Word) {n : Nat} (several : 4 ≤ n)
    (fits : s.toNat + n ≤ 2 ^ 32) :
    filled mem s (patternAt c n) 0 n = filled mem s (fun _ => lowByte c) 0 n ↔ KeepsPattern c := by
  obtain ⟨byte0, byte1, byte2, byte3⟩ := fillPattern_bytes c
  constructor
  · intro same
    have value (i : Nat) (below : i < 4) : (fillPattern c).extractLsb' (8 * i) 8 = lowByte c := by
      have cursor := congrFun same (s + BitVec.ofNat 32 i)
      rw [filled_at mem _ (by omega) (by omega), filled_at mem _ (by omega) (by omega), patternAt,
        if_pos (by omega), Nat.mod_eq_of_lt below] at cursor
      exact cursor
    exact ⟨byte2 ▸ value 2 (by omega), byte3 ▸ value 3 (by omega)⟩
  · rintro ⟨third, fourth⟩
    have low : patternAt c n = fun _ => lowByte c := by
      funext i
      rw [patternAt]
      split
      · have cases : i % 4 = 0 ∨ i % 4 = 1 ∨ i % 4 = 2 ∨ i % 4 = 3 := by omega
        obtain rest | rest | rest | rest := cases <;> rw [rest]
        · exact byte0
        · exact byte1
        · exact byte2.trans third
        · exact byte3.trans fourth
      · rfl
    rw [low]

theorem memsetAsm_fills_iff (mem : Memory) (s c n : Word) (fits : s.toNat + n.toNat ≤ 2 ^ 32) :
    memsetAsm mem s c n = (filled mem s (fun _ => lowByte c) 0 n.toNat, s) ↔
      n.toNat < 4 ∨ s.toNat % 4 ≠ 0 ∨ KeepsPattern c := by
  have start (values : Nat → BitVec 8) : (⟨s, mem⟩ : Stos) = Stos.after mem s values 0 := by
    simp [Stos.after, filled_empty]
  have bytes := byteFill_after mem s c (fun _ => lowByte c) n 0 (fun _ _ _ => rfl) (by omega)
  rw [← start, Nat.zero_add] at bytes
  have remainder := toNat_and_three s
  simp only [memsetAsm]
  split_ifs with none few aligned short
  · subst none
    simp [filled_empty]
  · rw [bytes]
    exact iff_of_true rfl (.inl few)
  · have whole := alignedFill_after mem c fits
    rw [← start] at whole
    have isAligned : s.toNat % 4 = 0 := by rw [← remainder, aligned]; rfl
    have several : ¬ n.toNat < 4 := few
    rw [whole, ← patternAt_low_iff mem c (Nat.not_lt.mp several) fits]
    simp [Stos.after, isAligned, several]
  · rw [bytes]
    exact iff_of_true rfl (.inl (by bv_omega))
  · -- The last `edx` bytes are fewer than a word.
    have unaligned : s.toNat % 4 ≠ 0 := by
      intro zero
      exact aligned (BitVec.eq_of_toNat_eq (by rw [remainder, zero]; rfl))
    have edx : (4#32 - (s &&& 3#32)).toNat = 4 - s.toNat % 4 := by bv_omega
    have rest : (n - (4#32 - (s &&& 3#32))).toNat = n.toNat - (4 - s.toNat % 4) := by bv_omega
    have several : ¬ n.toNat < 4 := few
    have bulk := byteFill_after mem s c (fun _ => lowByte c) (n - (4#32 - (s &&& 3#32))) 0
      (fun _ _ _ => rfl) (by omega)
    have last := byteFill_after mem s c (fun _ => lowByte c) (4#32 - (s &&& 3#32))
      (n.toNat - (4 - s.toNat % 4)) (fun _ _ _ => rfl) (by omega)
    have tail := alignedFill_short c (4#32 - (s &&& 3#32))
      (Stos.after mem s (fun _ => lowByte c) (n.toNat - (4 - s.toNat % 4))) (by omega) (by omega)
    rw [← start, Nat.zero_add, rest, byteFill, (fillPattern_bytes c).1] at bulk
    rw [last, edx, Nat.sub_add_cancel (by omega)] at tail
    rw [(fillPattern_bytes c).1, bulk, tail]
    exact iff_of_true rfl (.inr (.inl unaligned))

theorem memsetAsm_fills_iff_char : memsetAsm addressBytes 0x1000#32 0x41#32 9#32 =
    (filled addressBytes 0x1000#32 (fun _ => lowByte 0x41#32) 0 9, 0x1000#32) :=
  (memsetAsm_fills_iff addressBytes 0x1000#32 0x41#32 9#32 (by decide)).mpr (by decide)

-- The third of four bytes is 1 where 0 was to be filled in.
theorem memset_upper_bits :
    (memsetAsm (fun _ => 0#8) 0x1000#32 0x10000#32 4#32).1 0x1002#32 = 1#8 ∧
      lowByte 0x10000#32 = 0#8 := by
  decide +kernel

end

section

-- `d[i] = s[i]`.
def moveByte (dest src : Word) (mem : Memory) (i : Nat) : Memory :=
  Function.update mem (dest + BitVec.ofNat 32 i) (mem (src + BitVec.ofNat 32 i))

def memmove (mem : Memory) (dest src n : Word) : Memory × Word :=
  let mem :=
    if dest < src then (List.range n.toNat).foldl (moveByte dest src) mem
    else (List.range n.toNat).foldr (fun i mem => moveByte dest src mem i) mem
  (mem, dest)

theorem moveUp_filled (up : CopiesUp dest src len) (mem : Memory) {done : Nat}
    (inside : done ≤ len) : (List.range done).foldl (moveByte dest src) mem =
      filled mem dest (bytesAt mem src) 0 done := by
  have fits := up.destFits
  induction done with
  | zero => rw [filled_empty]; rfl
  | succ done ih =>
    rw [range_succ, foldl_append, ih (by omega), foldl_cons, foldl_nil,
      moveByte, up.source mem (Nat.le_refl done) (by omega), filled_snoc _ _ _ (by omega)]

-- From the end on, the bytes that are still to be read are below those that were written.
theorem moveDown_filled (destFits : dest.toNat + len ≤ 2 ^ 32) (order : src.toNat ≤ dest.toNat)
    (mem : Memory) {count : Nat} (inside : count ≤ len) :
    (List.range' (len - count) count).foldr (fun i mem => moveByte dest src mem i) mem =
      filled mem dest (bytesAt mem src) (len - count) len := by
  induction count with
  | zero => rw [Nat.sub_zero, filled_empty]; rfl
  | succ count ih =>
    have next : len - count = len - (count + 1) + 1 := by omega
    have address : (src + BitVec.ofNat 32 (len - (count + 1))).toNat =
        src.toNat + (len - (count + 1)) := toNat_add_ofNat (by omega)
    rw [range'_succ, foldr_cons, ← next, ih (by omega), moveByte]
    have read : filled mem dest (bytesAt mem src) (len - count) len
        (src + BitVec.ofNat 32 (len - (count + 1))) = bytesAt mem src (len - (count + 1)) := by
      rw [filled, if_neg (by omega), bytesAt]
    rw [read, next, filled_cons _ _ _ (by omega) (by omega)]

theorem memmove_moves (mem : Memory) (dest src n : Word)
    (destFits : dest.toNat + n.toNat ≤ 2 ^ 32) (srcFits : src.toNat + n.toNat ≤ 2 ^ 32) :
    memmove mem dest src n = (filled mem dest (bytesAt mem src) 0 n.toNat, dest) := by
  simp only [memmove]
  split
  · next below =>
    have up : CopiesUp dest src n.toNat := ⟨destFits, srcFits, .inl (Nat.le_of_lt below)⟩
    rw [moveUp_filled up mem (Nat.le_refl _)]
  · next above =>
    have down := moveDown_filled destFits (Nat.not_lt.mp above) mem (Nat.le_refl _)
    rw [Nat.sub_self, ← List.range_eq_range'] at down
    rw [down]

theorem memmove_moves_overlap : memmove addressBytes 0x1003#32 0x1001#32 7#32 =
    (filled addressBytes 0x1003#32 (bytesAt addressBytes 0x1001#32) 0 7, 0x1003#32) :=
  memmove_moves addressBytes 0x1003#32 0x1001#32 7#32 (by decide) (by decide)

end

end ArgoOS.Strings
