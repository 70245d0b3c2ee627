import ArgoOS.Drivers.Serial

set_option autoImplicit false

/-!
# Formatted output

`vsprintf` and `itoa` of `printf.c`. The format is the memory from its first byte on, so that
a read behind the end of this memory shows; the buffer has room for all of the output.
-/

namespace ArgoOS.Printf

open Text List

def hexChars : List UInt8 := ascii "0123456789ABCDEF"

-- The digits go through `temp[32]` into `buf`, which has 32 bytes in both calls.
def itoa (base : Nat) (n : UInt32) : Option (List UInt8) := do
  let digit := fun d => hexChars.getD d 0
  let temp := if n = 0 then some [digit 0] else Serial.storeDigits base digit 32 n.toNat []
  let buf ← temp
  if buf.length < 32 then return buf else none

-- A `char *` is given by the bytes before the terminator it points to, `none` for `NULL`.
inductive Arg where
  | word (n : UInt32)
  | string (s : Option (List UInt8))
deriving DecidableEq, Repr

inductive PrintFault where
  -- A byte of the format behind the given memory.
  | format
  -- A write behind a buffer of digits.
  | digits
  -- No argument of the kind that the conversion takes.
  | argument
deriving DecidableEq, Repr

def formatDecimal (n : Int32) : Option (List UInt8) :=
  if n < 0 then do
    let tmp ← itoa 10 (-n).toUInt32
    return 45 :: tmp
  else itoa 10 n.toUInt32

def orDigits (tmp : Option (List UInt8)) : Except PrintFault (List UInt8) :=
  match tmp with
  | none => .error .digits
  | some tmp => .ok tmp

-- The cases of the `switch`: the output and the arguments that are left.
def convert (c : UInt8) (args : List Arg) : Except PrintFault (List UInt8 × List Arg) :=
  if c = 115 then
    match args with
    | .string s :: args => .ok (s.getD (ascii "(null)"), args)
    | _ => .error .argument
  else if c = 100 then
    match args with
    | .word n :: args => do return (← orDigits (formatDecimal n.toInt32), args)
    | _ => .error .argument
  else if c = 120 ∨ c = 112 then
    match args with
    | .word n :: args => do return (← orDigits (itoa 16 n), args)
    | _ => .error .argument
  else if c = 99 then
    match args with
    | .word n :: args => .ok ([n.toUInt8], args)
    | _ => .error .argument
  else if c = 37 then .ok ([37], args)
  else .ok ([c], args)

def expand : List UInt8 → List Arg → Except PrintFault (List UInt8)
  | [], _ => .error .format
  | c :: f, args =>
    if c = 0 then .ok []
    else if c = 37 then
      match f with
      | [] => .error .format
      | c :: f =>
        match convert c args with
        | .error fault => .error fault
        | .ok (text, args) => (text ++ ·) <$> expand f args
    else (c :: ·) <$> expand f args

def vsprintf (format : List UInt8) (args : List Arg) : Except PrintFault (List UInt8 × Int32) := do
  let out ← expand format args
  return (out ++ [0], Int32.ofNat out.length)

section

inductive Piece where
  | literal (c : UInt8)
  | string
  | decimal
  | hexadecimal
  | character
deriving DecidableEq, Repr

def conversionPiece (c : UInt8) : Piece :=
  if c = 115 then .string
  else if c = 100 then .decimal
  else if c = 120 ∨ c = 112 then .hexadecimal
  else if c = 99 then .character
  else .literal c

def pieces : List UInt8 → List Piece
  | [] => []
  | [c] => if c = 37 then [] else [.literal c]
  | c :: c' :: text =>
    if c = 37 then conversionPiece c' :: pieces text else .literal c :: pieces (c' :: text)

def Complete : List UInt8 → Bool
  | [] => true
  | [c] => c ≠ 37
  | c :: c' :: text => if c = 37 then Complete text else Complete (c' :: text)

def upperDigit (d : Nat) : UInt8 := if d < 10 then UInt8.ofNat (48 + d) else UInt8.ofNat (55 + d)

def signedDecimal (n : Int) : List UInt8 :=
  if n < 0 then 45 :: decimal n.natAbs else decimal n.natAbs

def Piece.output : Piece → List Arg → Option (List UInt8 × List Arg)
  | .literal c, args => some ([c], args)
  | .string, .string s :: args => some (s.getD (ascii "(null)"), args)
  | .decimal, .word n :: args => some (signedDecimal n.toInt32.toInt, args)
  | .hexadecimal, .word n :: args => some (numeral 16 upperDigit n.toNat, args)
  | .character, .word n :: args => some ([n.toUInt8], args)
  | _, _ => none

def expansion : List Piece → List Arg → Option (List UInt8)
  | [], _ => some []
  | piece :: rest, args => do
    let (text, args) ← piece.output args
    return text ++ (← expansion rest args)

end

section

theorem itoa_numeral {base : Nat} (several : 1 < base) {digit : Nat → UInt8}
    (same : ∀ d < base, hexChars.getD d 0 = digit d) (n : UInt32) (fits : n.toNat < base ^ 31) :
    itoa base n = some (numeral base digit n.toNat) := by
  have room : n.toNat < base ^ 32 := Nat.lt_trans fits (Nat.pow_lt_pow_right several (by decide))
  have short : (numeral base digit n.toNat).length ≤ 31 := numeral_length several (by decide) fits
  have temp : (if n = 0 then some [hexChars.getD 0 0]
      else Serial.storeDigits base (fun d => hexChars.getD d 0) 32 n.toNat []) =
      some (numeral base digit n.toNat) := by
    rw [← numeral_congr several same]
    exact Serial.digits_numeral several _ 32 n room
  simp only [itoa, temp]
  exact if_pos (by omega)

theorem itoa_decimal (n : UInt32) : itoa 10 n = some (decimal n.toNat) := by
  have bound := n.toNat_lt
  rw [decimal_numeral]
  exact itoa_numeral (by decide) (by decide) n (by omega)

theorem itoa_hexadecimal (n : UInt32) : itoa 16 n = some (numeral 16 upperDigit n.toNat) := by
  have bound := n.toNat_lt
  exact itoa_numeral (by decide) (by decide) n (by omega)

-- The negation of the smallest number is that number again, which is 2 ^ 31 without a sign.
theorem formatDecimal_signed (n : Int32) : formatDecimal n = some (signedDecimal n.toInt) := by
  have signed : n.toInt = n.toBitVec.toInt := rfl
  have condition := BitVec.toInt_eq_toNat_cond n.toBitVec
  have bound := n.toBitVec.isLt
  unfold formatDecimal signedDecimal
  by_cases negative : n < 0
  · have negative' : n.toInt < 0 := Int32.lt_iff_toInt_lt.mp negative
    have magnitude : (-n).toUInt32.toNat = n.toInt.natAbs := by
      have negated : (-n).toUInt32.toNat = (-n.toBitVec).toNat := rfl
      rw [negated, BitVec.toNat_neg, signed]
      split at condition <;> omega
    rw [if_pos negative, if_pos negative', itoa_decimal, magnitude]
    rfl
  · have positive : ¬ n.toInt < 0 := fun isNegative => negative (Int32.lt_iff_toInt_lt.mpr isNegative)
    have magnitude : n.toUInt32.toNat = n.toInt.natAbs := by
      have plain : n.toUInt32.toNat = n.toBitVec.toNat := rfl
      rw [plain, signed]
      split at condition <;> omega
    rw [if_neg negative, if_neg positive, itoa_decimal, magnitude]

end

variable {c : UInt8}

section

variable {args rest : List Arg} {out text : List UInt8}

theorem Piece.output_word {piece : Piece} {print : UInt32 → List UInt8}
    (reads : ∀ args, piece.output args = match args with
      | .word n :: args => some (print n, args)
      | _ => none)
    (matching : piece.output args = some (text, rest)) :
    ∃ n, args = .word n :: rest ∧ text = print n := by
  rw [reads] at matching
  split at matching
  · next n args =>
    cases matching
    exact ⟨n, rfl, rfl⟩
  · contradiction

theorem convert_output (matching : (conversionPiece c).output args = some (text, rest)) :
    convert c args = .ok (text, rest) := by
  unfold conversionPiece at matching
  unfold convert
  split_ifs at matching ⊢ with isString isDecimal isHex isChar isPercent
  · cases args with
    | nil => contradiction
    | cons arg args =>
      cases arg with
      | word n => contradiction
      | string s =>
        cases matching
        rfl
  · obtain ⟨n, rfl, rfl⟩ := Piece.output_word (fun args => by rcases args with _ | ⟨_ | _, _⟩ <;> rfl)
      matching
    simp only [formatDecimal_signed, orDigits]
    rfl
  · obtain ⟨n, rfl, rfl⟩ := Piece.output_word (fun args => by rcases args with _ | ⟨_ | _, _⟩ <;> rfl)
      matching
    simp only [itoa_hexadecimal, orDigits]
    rfl
  · obtain ⟨n, rfl, rfl⟩ := Piece.output_word (fun args => by rcases args with _ | ⟨_ | _, _⟩ <;> rfl)
      matching
    rfl
  · cases matching
    rw [isPercent]
  · cases matching
    rfl

theorem expansion_cons {piece : Piece} {more : List Piece}
    (matching : expansion (piece :: more) args = some out) :
    ∃ text rest out', piece.output args = some (text, rest) ∧
      expansion more rest = some out' ∧ out = text ++ out' := by
  obtain ⟨⟨text, rest⟩, output, matching⟩ := Option.bind_eq_some_iff.mp matching
  obtain ⟨out', expanded, same⟩ := Option.bind_eq_some_iff.mp matching
  cases same
  exact ⟨text, rest, out', output, expanded, rfl⟩

theorem expand_nul (f : List UInt8) : expand (0 :: f) args = .ok [] := by
  rw [expand.eq_def]
  exact if_pos rfl

theorem expand_literal (nonzero : c ≠ 0) (notPercent : c ≠ 37) (f : List UInt8) :
    expand (c :: f) args = (c :: ·) <$> expand f args := by
  conv_lhs => rw [expand.eq_def]
  simp only [nonzero, notPercent, if_false]

theorem expand_conversion (converted : convert c args = .ok (text, rest)) (f : List UInt8) :
    expand (37 :: c :: f) args = (text ++ ·) <$> expand f rest := by
  conv_lhs => rw [expand.eq_def]
  simp only [converted]
  exact if_neg (by decide)

-- A percent sign at the end takes the terminator for the character behind it.
theorem expand_text (text beyond : List UInt8) (noNul : 0 ∉ text)
    (matching : expansion (pieces text) args = some out) :
    (Complete text = true → expand (text ++ 0 :: beyond) args = .ok out) ∧
      (Complete text = false → expand (text ++ [0]) args = .error .format) := by
  fun_induction pieces text generalizing args out with
  | case1 =>
    cases matching
    exact ⟨fun _ => expand_nul beyond, fun incomplete => by simp [Complete] at incomplete⟩
  | case2 =>
    have read : expand [37, 0] args = .error .format := by
      have converted : convert 0 args = .ok ([0], args) := rfl
      rw [expand_conversion converted, expand.eq_def]
      rfl
    exact ⟨fun complete => by simp [Complete] at complete, fun _ => read⟩
  | case3 c notPercent =>
    cases matching
    have nonzero : c ≠ 0 := fun zero => noNul (zero ▸ mem_cons_self)
    refine ⟨fun _ => ?_, fun incomplete => ?_⟩
    · rw [cons_append, expand_literal nonzero notPercent, nil_append, expand_nul]
      rfl
    · simp [Complete, notPercent] at incomplete
  | case4 c text ih =>
    obtain ⟨first, rest, out', output, matching', rfl⟩ := expansion_cons matching
    obtain ⟨complete, incomplete⟩ := ih (fun member => noNul (by simp [member])) matching'
    have converted := convert_output output
    simp only [Complete, if_true, cons_append]
    refine ⟨fun isComplete => ?_, fun isIncomplete => ?_⟩
    · rw [expand_conversion converted, complete isComplete]
      rfl
    · rw [expand_conversion converted, incomplete isIncomplete]
      rfl
  | case5 c c' text notPercent ih =>
    obtain ⟨first, rest, out', output, matching', rfl⟩ := expansion_cons matching
    cases output
    have nonzero : c ≠ 0 := fun zero => noNul (zero ▸ mem_cons_self)
    obtain ⟨complete, incomplete⟩ := ih (not_mem_of_not_mem_cons noNul) matching'
    simp only [Complete, notPercent, if_false, cons_append]
    refine ⟨fun isComplete => ?_, fun isIncomplete => ?_⟩
    · rw [expand_literal nonzero notPercent, ← cons_append, complete isComplete]
      rfl
    · rw [expand_literal nonzero notPercent, ← cons_append, incomplete isIncomplete]
      rfl

end

theorem vsprintf_expands_iff (text : List UInt8) (noNul : 0 ∉ text) (args : List Arg)
    (out : List UInt8) (matching : expansion (pieces text) args = some out) :
    (∀ beyond, vsprintf (text ++ 0 :: beyond) args = .ok (out ++ [0], Int32.ofNat out.length)) ↔
      Complete text := by
  constructor
  · intro expands
    by_contra incomplete
    have fault := (expand_text text [] noNul matching).2 (Bool.eq_false_iff.mpr incomplete)
    have expanded := expands []
    rw [vsprintf, fault] at expanded
    contradiction
  · intro complete beyond
    rw [vsprintf, (expand_text text beyond noNul matching).1 complete]
    rfl

theorem vsprintf_expands_iff_all :
    vsprintf (ascii "%s: %d%% of %x%c" ++ [0])
        [.string (some (ascii "heap")), .word 0x80000000, .word 0xBEEF, .word 10] =
      .ok (ascii "heap: -2147483648% of BEEF\n" ++ [0], 27) :=
  (vsprintf_expands_iff (ascii "%s: %d%% of %x%c") (by decide)
    [.string (some (ascii "heap")), .word 0x80000000, .word 0xBEEF, .word 10]
    (ascii "heap: -2147483648% of BEEF\n") (by decide +kernel)).mpr (by decide +kernel) []

-- The terminator is copied as the character behind the sign, and then the next bytes of memory.
theorem percent_at_end_reads_on :
    vsprintf (ascii "100%" ++ [0]) [] = .error .format ∧
    vsprintf (ascii "100%" ++ 0 :: ascii "next" ++ [0]) [] =
      .ok (ascii "100" ++ 0 :: ascii "next" ++ [0], 8) := by
  decide +kernel

end ArgoOS.Printf
