import ArgoOS.Drivers.Vga
import ArgoOS.Lib.Printf

set_option autoImplicit false

/-! # The panic message and the digit routines -/

namespace ArgoOS.Panic

open Text Printf List

-- The exchange of `line_buf[j]` and `line_buf[i - j - 1]`.
def swapEnds (i : Nat) (lineBuf : List UInt8) (j : Nat) : List UInt8 :=
  (lineBuf.set j (lineBuf.getD (i - j - 1) 0)).set (i - j - 1) (lineBuf.getD j 0)

-- `line_buf` has 16 bytes, with the lowest digit first before the exchanges.
def printLine (line : UInt32) : Option (List UInt8) := do
  let digit := fun d => UInt8.ofNat (48 + d)
  let stored := if line = 0 then some [digit 0] else Serial.storeDigits 10 digit 16 line.toNat []
  let lineBuf := (← stored).reverse
  let i := lineBuf.length
  if i < 16 then return Serial.serialPuts ((List.range (i / 2)).foldl (swapEnds i) lineBuf) else none

def kpanic (message file : List UInt8) (line : UInt32) : Option (List UInt8) := do
  let digits ← printLine line
  return Serial.serialPuts (ascii "\n!!! KERNEL PANIC !!!\n") ++ Serial.serialPuts message ++
    Serial.serialPuts (ascii "\nAt: ") ++ Serial.serialPuts file ++ Serial.serialPuts (ascii ":") ++
    digits ++ Serial.serialPuts (ascii "\nSystem Halted.\n")

theorem swaps_getElem (buf : List UInt8) (count : Nat) (half : 2 * count ≤ buf.length) :
    ((List.range count).foldl (swapEnds buf.length) buf).length = buf.length ∧
    ∀ t < buf.length, ((List.range count).foldl (swapEnds buf.length) buf)[t]? =
      if t < count ∨ buf.length - count ≤ t then buf[buf.length - 1 - t]? else buf[t]? := by
  induction count with
  | zero => exact ⟨rfl, fun t inside => by rw [if_neg (by omega)]; rfl⟩
  | succ count ih =>
    obtain ⟨length, swapped⟩ := ih (by omega)
    rw [range_succ, foldl_append, foldl_cons, foldl_nil]
    generalize (List.range count).foldl (swapEnds buf.length) buf = middle at length swapped ⊢
    refine ⟨by simp [swapEnds, length], fun t inside => ?_⟩
    have low := swapped count (by omega)
    have high := swapped (buf.length - count - 1) (by omega)
    rw [if_neg (by omega)] at low high
    have value (k : Nat) (below : k < buf.length) : some (buf[k]?.getD 0) = buf[k]? := by
      rw [List.getElem?_eq_getElem below, Option.getD_some]
    simp only [swapEnds, List.getElem?_set, length_set, length, getD_eq_getElem?_getD, low,
      high, swapped t inside]
    by_cases last : buf.length - count - 1 = t
    · rw [if_pos last, if_pos (by omega), if_pos (by omega), value count (by omega)]
      congr 1
      omega
    · rw [if_neg last]
      by_cases first : count = t
      · rw [if_pos first, if_pos (by omega), if_pos (by omega), value _ (by omega)]
        congr 1
        omega
      · rw [if_neg first]
        exact if_congr (by omega) rfl rfl

theorem swaps_reverse (buf : List UInt8) :
    (List.range (buf.length / 2)).foldl (swapEnds buf.length) buf = buf.reverse := by
  obtain ⟨length, swapped⟩ := swaps_getElem buf (buf.length / 2) (by omega)
  apply ext_getElem?
  intro t
  by_cases inside : t < buf.length
  · rw [swapped t inside, List.getElem?_reverse inside]
    split
    · rfl
    · rw [show buf.length - 1 - t = t by omega]
  · rw [List.getElem?_eq_none (by omega), List.getElem?_eq_none (by simp; omega)]

theorem mem_decimal {n : Nat} {c : UInt8} (member : c ∈ decimal n) : 48 ≤ c ∧ c ≤ 57 := by
  rw [decimal_numeral] at member
  obtain ⟨d, small, rfl⟩ := mem_numeral (by decide) member
  clear member
  decide +revert

theorem printLine_decimal (line : UInt32) : printLine line = some (decimal line.toNat) := by
  have bound := line.toNat_lt
  have short : (decimal line.toNat).length ≤ 10 := by
    rw [decimal_numeral]
    exact numeral_length (by decide) (by decide) (by omega)
  have unbroken : 10 ∉ decimal line.toNat := by
    intro member
    exact absurd (mem_decimal member) (by decide)
  have stored := Serial.digits_numeral (show 1 < 10 by decide) (fun d => UInt8.ofNat (48 + d)) 16 line
    (by omega)
  rw [← decimal_numeral] at stored
  have swapped := swaps_reverse (decimal line.toNat).reverse
  rw [length_reverse, reverse_reverse] at swapped
  simp only [printLine, stored, Option.bind_eq_bind, Option.bind_some, length_reverse, swapped,
    Serial.serialPuts_line unbroken]
  exact if_pos (by omega)

section

def digitValue (c : UInt8) : Nat :=
  if c < 58 then c.toNat - 48 else if c < 97 then c.toNat - 55 else c.toNat - 87

def signedValue (text : List UInt8) : Int :=
  if text.head? = some 45 then -(numeralValue 10 digitValue text.tail : Int)
  else numeralValue 10 digitValue text

def lowercase (c : UInt8) : UInt8 := if 65 ≤ c ∧ c ≤ 90 then c + 32 else c

def NoLeadingZero (text : List UInt8) : Prop :=
  text = [48] ∨ ∃ c rest, text = c :: rest ∧ c ≠ 48

theorem decimal_value (n : Nat) : numeralValue 10 digitValue (decimal n) = n := by
  rw [decimal_numeral]
  exact numeralValue_numeral (by decide) (by decide) n

theorem decimal_noLeadingZero (n : Nat) : NoLeadingZero (decimal n) := by
  rw [decimal_numeral]
  by_cases zero : n = 0
  · subst zero
    exact .inl numeral_zero
  · obtain ⟨d, rest, text, nonzero, small⟩ := numeral_head (show 1 < 10 by decide) zero
    have other : ∀ d < 10, d ≠ 0 → UInt8.ofNat (48 + d) ≠ 48 := by decide
    exact .inr ⟨_, rest, text, other d small nonzero⟩

theorem signedDecimal_value (n : Int) : signedValue (signedDecimal n) = n := by
  unfold signedDecimal signedValue
  split
  · rw [List.head?_cons, if_pos rfl, tail_cons, decimal_value]
    omega
  · have digits : (decimal n.natAbs).head? ≠ some 45 := fun sign =>
      absurd (mem_decimal (mem_of_mem_head? sign)) (by decide)
    rw [if_neg digits, decimal_value]
    omega

theorem lowerDigits (n : Nat) :
    (numeral 16 upperDigit n).map lowercase = numeral 16 Serial.lowerDigit n := by
  have same : ∀ d < 16, lowercase (upperDigit d) = Serial.lowerDigit d := by decide
  unfold numeral
  split
  · rfl
  · rw [map_reverse, map_map]
    exact congrArg List.reverse (map_congr_left fun d member =>
      same d (Nat.digits_lt_base (by decide) member))

end

-- The whole of a number's ways to the outside; `none` would be a store outside of the buffer.
theorem digit_routines_agree (value : UInt32) :
    (∃ text, NoLeadingZero text ∧ numeralValue 10 digitValue text = value.toNat ∧
      itoa 10 value = some text ∧ Serial.serialPutdec value = some text ∧
      printLine value = some text ∧
      ∀ vga, Vga.vgaPutdec vga value = text.foldlM Vga.vgaPutchar vga) ∧
    (∃ text, numeralValue 16 digitValue text = value.toNat ∧
      numeralValue 16 digitValue (text.map lowercase) = value.toNat ∧
      itoa 16 value = some text ∧
      Serial.serialPuthex value = some (ascii "0x" ++ text.map lowercase) ∧
      ∀ vga, Vga.vgaPuthex vga value =
        (ascii "0x" ++ text.map lowercase).foldlM Vga.vgaPutchar vga) ∧
    ∃ text, vsprintf (ascii "%d" ++ [0]) [.word value] =
        .ok (text ++ [0], Int32.ofNat text.length) ∧ signedValue text = value.toInt32.toInt := by
  refine ⟨⟨decimal value.toNat, decimal_noLeadingZero _, decimal_value _, itoa_decimal value,
    Serial.serialPutdec_decimal value, printLine_decimal value, fun vga =>
      Vga.vgaPutdec_decimal vga value⟩, ⟨numeral 16 upperDigit value.toNat, ?_, ?_,
    itoa_hexadecimal value, ?_, fun vga => ?_⟩, signedDecimal value.toInt32.toInt, ?_,
    signedDecimal_value _⟩
  · exact numeralValue_numeral (by decide) (by decide) _
  · rw [lowerDigits]
    exact numeralValue_numeral (by decide) (by decide) _
  · rw [lowerDigits]
    exact Serial.serialPuthex_numeral value
  · rw [lowerDigits]
    exact Vga.vgaPuthex_numeral vga value
  · have expanded := (expand_text (ascii "%d") [] (by decide)
      (show expansion (pieces (ascii "%d")) [.word value] =
        some (signedDecimal value.toInt32.toInt ++ []) from rfl)).1 (by decide)
    rw [List.append_nil] at expanded
    rw [vsprintf, expanded]
    rfl

end ArgoOS.Panic
