import ArgoOS.Shared.Numerals

set_option autoImplicit false

/-!
# Output on the serial port

The bytes that the routines of `serial.c` send for a string and for a number. The port is
always ready to take the next byte.
-/

namespace ArgoOS.Serial

open List

-- '\r' goes out before every '\n'.
def serialPuts (str : List UInt8) : List UInt8 :=
  str.flatMap (fun c => if c = 10 then [13, c] else [c])

theorem serialPuts_line {str : List UInt8} (unbroken : 10 ∉ str) : serialPuts str = str := by
  induction str with
  | nil => rfl
  | cons c str ih =>
    have other : c ≠ 10 := fun same => unbroken (same ▸ mem_cons_self)
    have rest := ih (not_mem_of_not_mem_cons unbroken)
    simp only [serialPuts] at rest ⊢
    rw [flatMap_cons, rest, if_neg other]
    rfl

/--
The loop that stores the digits of a number in a buffer, lowest first, and sends them from
the end. The second argument is the room that is left; without room for a digit the loop
would write behind the buffer.
-/
def storeDigits (base : Nat) (digit : Nat → UInt8) : Nat → Nat → List UInt8 → Option (List UInt8)
  | _, 0, stored => some stored
  | 0, _ + 1, _ => none
  | room + 1, value + 1, stored =>
    storeDigits base digit room ((value + 1) / base) (digit ((value + 1) % base) :: stored)

def serialPutdec (value : UInt32) : Option (List UInt8) :=
  if value = 0 then some [48]
  else storeDigits 10 (fun digit => UInt8.ofNat (48 + digit)) 12 value.toNat []

def lowerDigit (d : Nat) : UInt8 := if d < 10 then UInt8.ofNat (48 + d) else UInt8.ofNat (87 + d)

def serialPuthex (value : UInt32) : Option (List UInt8) := do
  let digits := if value = 0 then some [lowerDigit 0] else storeDigits 16 lowerDigit 9 value.toNat []
  return serialPuts (Text.ascii "0x") ++ (← digits)

theorem storeDigits_step (base : Nat) (digit : Nat → UInt8) (room : Nat) {value : Nat}
    (stored : List UInt8) (positive : 0 < value) :
    storeDigits base digit (room + 1) value stored =
      storeDigits base digit room (value / base) (digit (value % base) :: stored) := by
  cases value with
  | zero => contradiction
  | succ value => rfl

theorem storeDigits_numeral {base : Nat} (several : 1 < base) (digit : Nat → UInt8)
    (room : Nat) {value : Nat} (stored : List UInt8) (positive : 0 < value) (fits : value < base ^ room) :
    storeDigits base digit room value stored =
      some (Text.numeral base digit value ++ stored) := by
  induction room generalizing value stored with
  | zero => rw [Nat.pow_zero] at fits; omega
  | succ room ih =>
    rw [storeDigits_step _ _ _ _ positive]
    by_cases last : value < base
    · rw [Nat.div_eq_of_lt last, Nat.mod_eq_of_lt last, Text.numeral_digit last]
      cases room <;> rfl
    · have more : 0 < value / base := Nat.div_pos (Nat.not_lt.mp last) (by omega)
      have fits' : value / base < base ^ room := Nat.div_lt_of_lt_mul (by rwa [Nat.pow_succ'] at fits)
      rw [ih _ more fits', Text.numeral_step several (Nat.not_lt.mp last),
        append_assoc]
      rfl

theorem digits_numeral {base : Nat} (several : 1 < base) (digit : Nat → UInt8) (room : Nat)
    (value : UInt32) (fits : value.toNat < base ^ room) :
    (if value = 0 then some [digit 0] else storeDigits base digit room value.toNat []) =
      some (Text.numeral base digit value.toNat) := by
  split
  · next zero =>
    subst zero
    exact congrArg some Text.numeral_zero.symm
  · next nonzero =>
    have positive : 0 < value.toNat :=
      Nat.pos_of_ne_zero (fun zero => nonzero (UInt32.toNat.inj zero))
    rw [storeDigits_numeral several digit room [] positive fits, append_nil]

theorem serialPutdec_decimal (value : UInt32) :
    serialPutdec value = some (Text.decimal value.toNat) := by
  have bound := value.toNat_lt
  rw [Text.decimal_numeral]
  exact digits_numeral (by decide) _ 12 value (by omega)

theorem serialPuthex_numeral (value : UInt32) : serialPuthex value =
    some (Text.ascii "0x" ++ Text.numeral 16 lowerDigit value.toNat) := by
  have bound := value.toNat_lt
  have digits := digits_numeral (show 1 < 16 by decide) lowerDigit 9 value (by omega)
  simp only [serialPuthex, digits]
  rfl

end ArgoOS.Serial
