import Mathlib
import ArgoOS.Shared.Text

set_option autoImplicit false

/-!
# Numerals

Positional notation in any base with any characters for the digits, and the number that a
numeral stands for.
-/

namespace Text

open List

def numeral (base : Nat) (digit : Nat → UInt8) (n : Nat) : List UInt8 :=
  if n = 0 then [digit 0] else ((Nat.digits base n).map digit).reverse

def numeralValue (base : Nat) (value : UInt8 → Nat) (text : List UInt8) : Nat :=
  text.foldl (fun n c => value c + base * n) 0

variable {base : Nat} {digit : Nat → UInt8} {value : UInt8 → Nat}

theorem numeral_zero : numeral base digit 0 = [digit 0] := if_pos rfl

variable {n : Nat}

theorem numeral_digit (small : n < base) : numeral base digit n = [digit n] := by
  by_cases zero : n = 0
  · rw [zero, numeral_zero]
  · rw [numeral, if_neg zero, Nat.digits_of_lt base n zero small]
    rfl

section

variable (several : 1 < base)

include several

theorem numeral_step (large : base ≤ n) :
    numeral base digit n = numeral base digit (n / base) ++ [digit (n % base)] := by
  have quotient : n / base ≠ 0 := Nat.ne_of_gt (Nat.div_pos large (by omega))
  rw [numeral, numeral, if_neg (by omega), if_neg quotient,
    Nat.digits_def' several (by omega), map_cons, reverse_cons]

theorem numeralValue_numeral (reads : ∀ d < base, value (digit d) = d) (n : Nat) :
    numeralValue base value (numeral base digit n) = n := by
  by_cases zero : n = 0
  · subst zero
    simp [numeral_zero, numeralValue, reads 0 (by omega)]
  · have read : (Nat.digits base n).map (fun d => value (digit d)) = Nat.digits base n := by
      rw [map_congr_left (fun d member => reads d (Nat.digits_lt_base several member)),
        map_id']
    have digits := Nat.ofDigits_digits base n
    rw [← read, Nat.ofDigits_eq_foldr, foldr_map] at digits
    rw [numeral, if_neg zero, numeralValue, foldl_reverse, foldr_map]
    exact digits

theorem numeral_head (nonzero : n ≠ 0) :
    ∃ d rest, numeral base digit n = digit d :: rest ∧ d ≠ 0 ∧ d < base := by
  have nonempty : Nat.digits base n ≠ [] := Nat.digits_ne_nil_iff_ne_zero.mpr nonzero
  refine ⟨(Nat.digits base n).getLast nonempty, ((Nat.digits base n).dropLast.map digit).reverse,
    ?_, Nat.getLast_digit_ne_zero base nonzero,
    Nat.digits_lt_base several (getLast_mem nonempty)⟩
  rw [numeral, if_neg nonzero]
  conv_lhs => rw [← dropLast_append_getLast nonempty]
  simp

theorem mem_numeral {c : UInt8} (member : c ∈ numeral base digit n) : ∃ d < base, c = digit d := by
  unfold numeral at member
  split at member
  · exact ⟨0, by omega, mem_singleton.mp member⟩
  · obtain ⟨d, isDigit, rfl⟩ := mem_map.mp (mem_reverse.mp member)
    exact ⟨d, Nat.digits_lt_base several isDigit, rfl⟩

theorem numeral_length {len : Nat} (positive : 0 < len) (fits : n < base ^ len) :
    (numeral base digit n).length ≤ len := by
  unfold numeral
  split
  · exact positive
  · rw [length_reverse, length_map]
    exact (Nat.digits_length_le_iff several n).mpr fits

theorem numeral_congr {other : Nat → UInt8} (same : ∀ d < base, digit d = other d) (n : Nat) :
    numeral base digit n = numeral base other n := by
  unfold numeral
  rw [same 0 (by omega),
    map_congr_left fun d member => same d (Nat.digits_lt_base several member)]

end

theorem digitChar_byte {d : Nat} (small : d < 10) :
    UInt8.ofNat d.digitChar.toNat = UInt8.ofNat (48 + d) := by
  decide +revert

theorem decimal_numeral (n : Nat) : decimal n = numeral 10 (fun d => UInt8.ofNat (48 + d)) n := by
  induction n using Nat.strong_induction_on with
  | _ n ih =>
    rw [decimal]
    by_cases small : n < 10
    · rw [Nat.toDigits_of_lt_base small, numeral_digit small]
      simp [digitChar_byte small]
    · rw [Nat.toDigits_eq_if (by decide), if_neg small, map_append, ← decimal,
        ih (n / 10) (by omega), numeral_step (n := n) (by decide) (by omega)]
      simp [digitChar_byte (Nat.mod_lt n (by decide : 10 > 0))]

end Text
