import ArgoOS.Shell.Reading

set_option autoImplicit false

/-! # The lines of `head` and `tail` -/

namespace ArgoOS.Shell

open List UInt32

open Fs (CString Slot Readable content freeDescriptor newline)
open Text (ascii lines firstLines lastLines Unterminated)

-- The number of lines that is asked for; without an argument it is 10.
def requested : Option CString → Nat
  | none => 10
  | some numStr => (numStr.bytes.takeWhile (fun c => 48 ≤ c ∧ c ≤ 57)).foldl
      (fun n c => n * 10 + (c.toNat - 48)) 0

section

theorem parseLines_ofNat (numStr : List UInt8) (n : Nat) : parseLines (UInt32.ofNat n) numStr =
    UInt32.ofNat ((numStr.takeWhile (fun c => 48 ≤ c ∧ c ≤ 57)).foldl
      (fun n c => n * 10 + (c.toNat - 48)) n) := by
  induction numStr generalizing n with
  | nil => rfl
  | cons c numStr ih =>
    rw [parseLines]
    split
    · next digit =>
      have value : (c - 48).toUInt32 = UInt32.ofNat (c.toNat - 48) := by
        apply UInt32.toNat.inj
        have least := UInt8.le_iff_toNat_le.mp digit.1
        have bound := c.toNat_lt
        rw [UInt8.toNat_toUInt32, UInt8.toNat_sub_of_le _ _ digit.1, toNat_ofNat',
          Nat.mod_eq_of_lt (by omega)]
        rfl
      have next : UInt32.ofNat n * 10 + (c - 48).toUInt32 =
          UInt32.ofNat (n * 10 + (c.toNat - 48)) := by
        rw [value, ofNat_add, ofNat_mul]
        rfl
      rw [next, ih, takeWhile_cons_of_pos (by simpa using digit), foldl_cons]
    · next other => rw [takeWhile_cons_of_neg (by simpa using other), foldl_nil]

theorem lineCount_toNat {numStr : Option CString} {n : Nat} (asked : requested numStr = n) :
    (lineCount numStr).toNat = if n % 2 ^ 32 = 0 then 10 else n % 2 ^ 32 := by
  cases numStr with
  | none =>
    subst asked
    rfl
  | some numStr =>
    have parsed : parseLines 0 numStr.bytes = UInt32.ofNat n := by
      rw [← asked]
      exact parseLines_ofNat numStr.bytes 0
    have value : (UInt32.ofNat n).toNat = n % 2 ^ 32 := toNat_ofNat'
    have zero : UInt32.ofNat n = 0 ↔ n % 2 ^ 32 = 0 := by
      rw [← UInt32.toNat_inj, value]
      rfl
    simp only [lineCount, parsed, zero]
    split
    · rfl
    · exact value

end

variable {text : List UInt8}

section

theorem headLoop_eq (numLines linesPrinted : Nat) (text : List UInt8) :
    headLoop numLines linesPrinted text = firstLines newline (numLines - linesPrinted) text := by
  unfold firstLines
  induction text generalizing linesPrinted with
  | nil => simp [headLoop, lines]
  | cons c text ih =>
    rw [headLoop]
    split
    · next more =>
      obtain ⟨left, count⟩ : ∃ left, numLines - linesPrinted = left + 1 :=
        ⟨numLines - (linesPrinted + 1), by omega⟩
      rw [ih, lines]
      split
      · next ends =>
        rw [count, take_succ_cons, flatten_cons,
          show numLines - (linesPrinted + 1) = left by omega]
        rfl
      · split
        · next last =>
          rw [last, count, take_nil]
          simp
        · next line rest found =>
          rw [found, count]
          rfl
    · next done => rw [show numLines - linesPrinted = 0 by omega, take_zero, flatten_nil]

theorem drop_behind {c : UInt8} {i start : Nat} (later : i + 1 ≤ start) :
    (c :: text).drop (start - i) = text.drop (start - (i + 1)) := by
  rw [show start - i = start - (i + 1) + 1 by omega, drop_succ_cons]

theorem tailStart_eq {linesToSkip linesSkipped : Nat} (i : Nat) (text : List UInt8)
    (behind : linesSkipped ≤ linesToSkip) :
    (linesToSkip - linesSkipped < text.count newline →
      i ≤ tailStart linesToSkip i linesSkipped text ∧
      text.drop (tailStart linesToSkip i linesSkipped text - i) =
        ((lines newline text).drop (linesToSkip - linesSkipped + 1)).flatten) ∧
    (text.count newline ≤ linesToSkip - linesSkipped →
      tailStart linesToSkip i linesSkipped text = 0) := by
  induction text generalizing i linesSkipped with
  | nil => exact ⟨fun more => absurd more (Nat.not_lt_zero _), fun _ => rfl⟩
  | cons c text ih =>
    rw [tailStart, lines]
    split
    · next ends =>
      subst ends
      rw [count_cons_self, drop_succ_cons]
      split
      · next last =>
        rw [show linesToSkip - linesSkipped = 0 by omega, drop_zero, Text.lines_flatten,
          Nat.add_sub_cancel_left]
        exact ⟨fun _ => ⟨Nat.le_succ i, rfl⟩, fun none => absurd none (by omega)⟩
      · next more =>
        obtain ⟨found, missing⟩ := ih (i + 1) (by omega : linesSkipped + 1 ≤ linesToSkip)
        refine ⟨fun enough => ?_, fun few => missing (by omega)⟩
        obtain ⟨later, rest⟩ := found (by omega)
        refine ⟨by omega, ?_⟩
        rw [drop_behind later, rest,
          show linesToSkip - linesSkipped = linesToSkip - (linesSkipped + 1) + 1 by omega]
    · next other =>
      obtain ⟨found, missing⟩ := ih (i + 1) behind
      rw [count_cons_of_ne other]
      refine ⟨fun enough => ?_, missing⟩
      obtain ⟨later, rest⟩ := found enough
      refine ⟨by omega, ?_⟩
      rw [drop_behind later, rest]
      split
      · next none =>
        rw [none, drop_nil]
        simp
      · next line more split =>
        rw [split]
        rfl

-- What `tail` prints: nothing is skipped without a newline, and one line more than there
-- are above the last `numLines` newlines with one.
def tailOutput (numLines : Nat) (text : List UInt8) : List UInt8 :=
  if text.count newline = 0 then text
  else ((lines newline text).drop (text.count newline - numLines + 1)).flatten

theorem printHead_eq (numLines : UInt32) {bytes : Nat → UInt8} (loaded : Loaded text bytes)
    (s : Session) : printHead numLines bytes text.length s =
      .ok ((), s.send (firstLines newline numLines.toNat text)) := by
  rw [printHead, loaded.content, headLoop_eq, forM_putchar, Nat.sub_zero]

theorem printTail_eq {numLines : UInt32} (positive : 1 ≤ numLines.toNat) {bytes : Nat → UInt8}
    (loaded : Loaded text bytes) (s : Session) :
    printTail numLines bytes text.length s =
      .ok ((), s.send (tailOutput numLines.toNat text)) := by
  have skipped : (if text.count newline > numLines.toNat then text.count newline - numLines.toNat
      else 0) = text.count newline - numLines.toNat := by
    split <;> omega
  obtain ⟨found, missing⟩ := tailStart_eq 0 text (Nat.zero_le (text.count newline - numLines.toNat))
  have inside : ∀ start, text.drop start = Bytes.window bytes start (text.length - start) := by
    intro start
    obtain within | past := Nat.le_total start text.length
    · conv_lhs => rw [← loaded.content]
      rw [Bytes.window_drop _ _ within, Nat.zero_add]
    · rw [drop_of_length_le past, Nat.sub_eq_zero_of_le past]
      rfl
  simp only [printTail, loaded.content, skipped]
  rw [← inside, forM_putchar, tailOutput]
  split
  · next none =>
    rw [missing (by omega)]
    rfl
  · next some =>
    have rest := (found (by omega)).2
    rw [Nat.sub_zero, Nat.sub_zero] at rest
    rw [rest]

end

section

variable {text : List UInt8} {n : Nat}

theorem wrapped_of_lt {n : Nat} (positive : 1 ≤ n) (small : n < 2 ^ 32) :
    (if n % 2 ^ 32 = 0 then 10 else n % 2 ^ 32) = n := by
  rw [Nat.mod_eq_of_lt small, if_neg (Nat.ne_of_gt positive)]

theorem wrapped_pos (n : Nat) : 1 ≤ if n % 2 ^ 32 = 0 then 10 else n % 2 ^ 32 := by
  split <;> omega

variable (fits : text.length ≤ Fs.maxFileSize) (positive : 1 ≤ n)

include fits

theorem lines_few : (lines newline text).length ≤ 65536 := by
  have parts : (lines newline text).length ≤ (lines newline text).flatten.length :=
    Text.length_le_flatten (fun _ => Text.lines_nonempty)
  rw [Text.lines_flatten] at parts
  exact Nat.le_trans parts fits

include positive

theorem firstLines_iff :
    firstLines newline (if n % 2 ^ 32 = 0 then 10 else n % 2 ^ 32) text = firstLines newline n text ↔
      n < 2 ^ 32 ∨
        (lines newline text).length ≤ if n % 2 ^ 32 = 0 then 10 else n % 2 ^ 32 := by
  have few := lines_few fits
  by_cases small : n < 2 ^ 32
  · rw [wrapped_of_lt positive small]
    exact ⟨fun _ => .inl small, fun _ => rfl⟩
  · have all : firstLines newline n text = text := by
      rw [firstLines, take_of_length_le (by omega), Text.lines_flatten]
    generalize (if n % 2 ^ 32 = 0 then 10 else n % 2 ^ 32) = wrapped
    constructor
    · intro same
      have equal := Text.take_flatten_inj (fun _ => Text.lines_nonempty) same
      omega
    · rintro (less | enough)
      · contradiction
      · rw [all, firstLines, take_of_length_le enough, Text.lines_flatten]

theorem tailOutput_iff :
    tailOutput (if n % 2 ^ 32 = 0 then 10 else n % 2 ^ 32) text = lastLines newline n text ↔
      text.count newline = 0 ∨ Unterminated newline text ∧ n ≤ text.count newline := by
  have few := lines_few fits
  have length := Text.lines_length newline text
  have least := wrapped_pos n
  have unwrapped := wrapped_of_lt positive
  generalize (if n % 2 ^ 32 = 0 then 10 else n % 2 ^ 32) = wrapped at *
  rw [tailOutput, lastLines]
  split
  · next none =>
    have all : (lines newline text).length - n = 0 := by
      rw [none] at length
      split at length <;> omega
    rw [all, drop_zero, Text.lines_flatten]
    exact ⟨fun _ => .inl none, fun _ => rfl⟩
  · next some =>
    constructor
    · intro same
      have equal := Text.drop_flatten_inj (fun _ => Text.lines_nonempty) same
      split at length
      · next ends => exact .inr ⟨ends, by omega⟩
      · omega
    · rintro (none | ⟨ends, most⟩)
      · contradiction
      · rw [if_pos ends] at length
        rw [length, unwrapped (by omega), show text.count newline + 1 - n = text.count newline - n + 1 by omega]

end

section

variable {s : Session} {name filename : CString} {rest : List CString} {slot : Slot} {n : Nat}
  (readable : Readable s.files filename slot) (free : freeDescriptor s.files ≠ none)
  (supplied : s.heap.Supplies (Fs.maxFileSize + 1)) (asked : requested rest.head? = n)

include readable free supplied asked

theorem cmdHead_prints : Prints (cmdHead (name :: filename :: rest)) s
    (firstLines newline (if n % 2 ^ 32 = 0 then 10 else n % 2 ^ 32) (content s.files slot)) := by
  obtain ⟨s', returned, sent, -⟩ := onFile_ok readable free supplied
    (fun bytes loaded now => printHead_eq (lineCount rest.head?) loaded now)
  rw [lineCount_toNat asked] at sent
  exact ⟨s', returned, sent⟩

theorem cmdTail_prints : Prints (cmdTail (name :: filename :: rest)) s
    (tailOutput (if n % 2 ^ 32 = 0 then 10 else n % 2 ^ 32) (content s.files slot)) := by
  have positive : 1 ≤ (lineCount rest.head?).toNat := by
    rw [lineCount_toNat asked]
    exact wrapped_pos n
  obtain ⟨s', returned, sent, -⟩ := onFile_ok readable free supplied
    (fun bytes loaded now => printTail_eq positive loaded now)
  rw [lineCount_toNat asked] at sent
  exact ⟨s', returned, sent⟩

end

/--
For which files and counts `head` prints the first and `tail` the last lines. What `head`
and `tail` print of a file whose lines all end never makes up the file.
-/
theorem head_tail_iff {s : Session} {name filename : CString} {rest : List CString} {slot : Slot}
    {n : Nat} (readable : Readable s.files filename slot)
    (free : freeDescriptor s.files ≠ none) (supplied : s.heap.Supplies (Fs.maxFileSize + 1))
    (asked : requested rest.head? = n) (positive : 1 ≤ n) :
    (Prints (cmdHead (name :: filename :: rest)) s
        (firstLines newline n (content s.files slot)) ↔
      n < 2 ^ 32 ∨ (lines newline (content s.files slot)).length ≤
        if n % 2 ^ 32 = 0 then 10 else n % 2 ^ 32) ∧
    (Prints (cmdTail (name :: filename :: rest)) s
        (lastLines newline n (content s.files slot)) ↔
      (content s.files slot).count newline = 0 ∨
        Unterminated newline (content s.files slot) ∧ n ≤ (content s.files slot).count newline) ∧
    (∀ m more, requested (List.head? more) = m → 1 ≤ m →
      ¬Unterminated newline (content s.files slot) →
      (lines newline (content s.files slot)).length = n + m →
      ∀ first last, Prints (cmdHead (name :: filename :: rest)) s first →
        Prints (cmdTail (name :: filename :: more)) s last →
        first ++ last ≠ content s.files slot) := by
  have fits : (content s.files slot).length ≤ Fs.maxFileSize := by
    rw [readable.content_length]
    exact readable.fits
  refine ⟨?_, ?_, ?_⟩
  · rw [prints_iff (cmdHead_prints readable free supplied asked)]
    exact firstLines_iff fits positive
  · rw [prints_iff (cmdTail_prints readable free supplied asked)]
    exact tailOutput_iff fits positive
  · intro m more askedLast positiveLast ended length first last printsFirst printsLast joined
    have few := lines_few fits
    rw [prints_iff (cmdHead_prints readable free supplied asked), wrapped_of_lt positive (by omega)]
      at printsFirst
    rw [prints_iff (cmdTail_prints readable free supplied askedLast)] at printsLast
    have counted := Text.lines_length newline (content s.files slot)
    rw [if_neg ended] at counted
    -- The last `m` lines are what is missing behind the first `n`.
    have parts : first ++ lastLines newline m (content s.files slot) = content s.files slot := by
      rw [← printsFirst, firstLines, lastLines, length, Nat.add_sub_cancel, ← List.flatten_append,
        List.take_append_drop, Text.lines_flatten]
    have tail := printsLast.trans (List.append_cancel_left (joined.trans parts.symm))
    obtain none | ⟨unended, -⟩ := (tailOutput_iff fits positiveLast).mp tail
    · omega
    · exact ended unended

theorem head_tail_unterminated : ∃ files,
    Fs.writeFile Fs.freshFs (literal "f") (ascii "a\nb") = some files ∧
    Prints (cmdHead [literal "head", literal "f", literal "1"]) (freshSession files)
      (ascii "a\n") ∧
    Prints (cmdTail [literal "head", literal "f", literal "1"]) (freshSession files)
      (ascii "b") := by
  have written : (Fs.writeFile Fs.freshFs (literal "f") (ascii "a\nb")).any
      (fun files => decide (Readable files (literal "f") 1 ∧
        freeDescriptor files ≠ none ∧ content files 1 = ascii "a\nb")) = true := by
    decide +kernel
  obtain ⟨files, saved, checked⟩ := (Option.any_eq_true _ _).mp written
  obtain ⟨readable, free, text⟩ := of_decide_eq_true checked
  have asked : requested [literal "1"].head? = 1 := by decide
  obtain ⟨head, tail, -⟩ : (Prints (cmdHead [literal "head", literal "f", literal "1"])
      (freshSession files) _ ↔ _) ∧ _ :=
    head_tail_iff readable free (fun _ _ _ => rfl) asked (by decide)
  have first : firstLines newline 1 (content files 1) = ascii "a\n" := by
    rw [text]
    decide
  have last : lastLines newline 1 (content files 1) = ascii "b" := by
    rw [text]
    decide
  refine ⟨files, saved, first ▸ head.mpr (.inl (by decide)), last ▸ tail.mpr (.inr ?_)⟩
  change Unterminated newline (content files 1) ∧ 1 ≤ (content files 1).count newline
  rw [text]
  decide

-- `tail` prints nothing of two lines, and `head` takes the number of lines modulo 2^32.
theorem tail_skips_line : ∃ files,
    Fs.writeFile Fs.freshFs (literal "f") (ascii "a\nb\n") = some files ∧
    Prints (cmdTail [literal "tail", literal "f", literal "1"]) (freshSession files) [] ∧
    lastLines newline 1 (ascii "a\nb\n") = ascii "b\n" ∧
    Prints (cmdHead [literal "head", literal "f", literal "4294967297"]) (freshSession files)
      (ascii "a\n") ∧
    firstLines newline 4294967297 (ascii "a\nb\n") = ascii "a\nb\n" := by
  have evaluated : (Fs.writeFile Fs.freshFs (literal "f") (ascii "a\nb\n")).any (fun files =>
      (cmdTail [literal "tail", literal "f", literal "1"] (freshSession files)).toOption.any
        (fun r => r.1 == 0 && r.2.serial.sent == []) &&
      (cmdHead [literal "head", literal "f", literal "4294967297"]
        (freshSession files)).toOption.any
        (fun r => r.1 == 0 && r.2.serial.sent == ascii "a\n")) = true := by
    decide +kernel
  obtain ⟨files, saved, printed⟩ := (Option.any_eq_true _ _).mp evaluated
  rw [Bool.and_eq_true] at printed
  refine ⟨files, saved, prints_of_any printed.1, by decide, prints_of_any printed.2, by decide⟩

end ArgoOS.Shell
