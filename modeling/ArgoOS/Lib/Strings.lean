import Mathlib

set_option autoImplicit false

/-!
# String functions

`memcmp` and `strcmp` of `string.c`. A string is the list of the bytes before its
terminator; the arguments of `memcmp` are the `n` bytes it may look at.
-/

namespace ArgoOS.Strings

open List

-- The bytes are compared as signed `char`s.
def memcmp : List UInt8 → List UInt8 → Int
  | c1 :: s1, c2 :: s2 =>
    if c1 ≠ c2 then (if c1.toInt8 < c2.toInt8 then -1 else 1) else memcmp s1 s2
  | _, _ => 0

theorem memcmp_eq_zero {s1 s2 : List UInt8} (sameLength : s1.length = s2.length) :
    memcmp s1 s2 = 0 ↔ s1 = s2 := by
  induction s1 generalizing s2 with
  | nil =>
    rw [eq_nil_of_length_eq_zero sameLength.symm]
    exact ⟨fun _ => rfl, fun _ => rfl⟩
  | cons c1 s1 ih =>
    cases s2 with
    | nil => contradiction
    | cons c2 s2 =>
      by_cases same : c1 = c2
      · simpa [memcmp, same] using ih (Nat.succ.inj sameLength)
      · have different : memcmp (c1 :: s1) (c2 :: s2) ≠ 0 := by
          rw [memcmp, if_pos same]
          split <;> decide
        simp [different, same]

def strcmp : List UInt8 → List UInt8 → Int
  | c1 :: s1, c2 :: s2 => if c1 = c2 then strcmp s1 s2 else c1.toNat - c2.toNat
  | [], c2 :: _ => -c2.toNat
  | c1 :: _, [] => c1.toNat
  | [], [] => 0

theorem strcmp_eq_zero {s1 s2 : List UInt8} (noNul1 : 0 ∉ s1) (noNul2 : 0 ∉ s2) :
    strcmp s1 s2 = 0 ↔ s1 = s2 := by
  have positive : ∀ (c : UInt8) (s : List UInt8), 0 ∉ c :: s → (c.toNat : Int) ≠ 0 := by
    intro c s noNul zero
    have isZero : c = 0 := UInt8.toNat.inj (Int.ofNat_eq_zero.mp zero)
    exact noNul (isZero ▸ mem_cons_self)
  induction s1 generalizing s2 with
  | nil =>
    cases s2 with
    | nil => simp [strcmp]
    | cons c2 s2 => simpa [strcmp] using positive c2 s2 noNul2
  | cons c1 s1 ih =>
    cases s2 with
    | nil => simpa [strcmp] using positive c1 s1 noNul1
    | cons c2 s2 =>
      by_cases same : c1 = c2
      · have rest := ih (not_mem_of_not_mem_cons noNul1) (not_mem_of_not_mem_cons noNul2)
        simpa [strcmp, same] using rest
      · have different : strcmp (c1 :: s1) (c2 :: s2) ≠ 0 := by
          rw [strcmp, if_neg same]
          intro zero
          exact same (UInt8.toNat.inj (by omega))
        simp [different, same]

end ArgoOS.Strings
