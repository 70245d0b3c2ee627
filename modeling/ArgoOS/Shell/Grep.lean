import ArgoOS.Shell.Reading

set_option autoImplicit false

/-! # The lines of `grep` -/

namespace ArgoOS.Shell

open List

open Fs (CString Slot Readable content freeDescriptor newline)
open Text (ascii decimal lines lineText hits occurrences)

def grepEntry (hit : Nat × List UInt8) : List UInt8 :=
  decimal hit.1 ++ ascii ": " ++ hit.2 ++ ascii "\r\n"

def grepOutput (found : List (Nat × List UInt8)) : List UInt8 :=
  if found = [] then ascii "Pattern not found\r\n" else found.flatMap grepEntry

def matchingLines (pattern text : List UInt8) : List (Nat × List UInt8) :=
  (((lines newline text).zipIdx 1).filter (fun (line, _) => decide (pattern <:+: line))).map
    (fun (line, number) => (number, lineText newline line))

variable {bytes : Nat → UInt8}

variable {i : Nat}

section

variable {text : List UInt8}

theorem lineBefore_succ (bytes : Nat → UInt8) (i : Nat) : lineBefore bytes (i + 1) =
    if bytes i = newline then ((lineBefore bytes i).1 + 1, i + 1) else lineBefore bytes i := by
  rw [lineBefore, range_succ, foldl_append]
  rfl

theorem lineBefore_bounds (bytes : Nat → UInt8) (i : Nat) :
    (lineBefore bytes i).1 ≤ i + 1 ∧ (lineBefore bytes i).2 ≤ i := by
  induction i with
  | zero => exact ⟨Nat.le_refl _, Nat.le_refl _⟩
  | succ i ih =>
    rw [lineBefore_succ]
    split
    · exact ⟨Nat.succ_le_succ ih.1, Nat.le_refl _⟩
    · exact ⟨Nat.le_succ_of_le ih.1, Nat.le_succ_of_le ih.2⟩

def lineHead (bytes : Nat → UInt8) (i : Nat) : List UInt8 :=
  Bytes.window bytes (lineBefore bytes i).2 (i - (lineBefore bytes i).2)

theorem lineHead_succ (bytes : Nat → UInt8) (i : Nat) : lineHead bytes (i + 1) =
    if bytes i = newline then [] else lineHead bytes i ++ [bytes i] := by
  have behind := (lineBefore_bounds bytes i).2
  rw [lineHead, lineBefore_succ]
  split
  · simp [Bytes.window]
  · rw [lineHead, Nat.succ_sub behind, Nat.succ_eq_add_one, Bytes.window_add,
      Nat.add_sub_cancel' behind]
    rfl

theorem lineEnd_scan {rest : List UInt8} (noNul : 0 ∉ rest) :
    rest.takeWhile (fun c => c ≠ newline ∧ c ≠ 0) = lineText newline rest := by
  induction rest with
  | nil => rfl
  | cons c rest ih =>
    rw [mem_cons, not_or] at noNul
    have nonzero : c ≠ 0 := Ne.symm noNul.1
    simp only [lineText, takeWhile_cons, nonzero, ne_eq, not_false_eq_true, and_true] at ih ⊢
    rw [ih noNul.2]

variable (loaded : Loaded text bytes)

include loaded

theorem Loaded.window {len : Nat} (inside : i + len ≤ text.length) :
    Bytes.window bytes i len = (text.drop i).take len := by
  conv_rhs => rw [← loaded.content]
  rw [Bytes.window_drop _ _ (by omega), Bytes.window_take _ _ (by omega), Nat.zero_add]

theorem Loaded.drop_cons (inside : i < text.length) :
    text.drop i = bytes i :: text.drop (i + 1) := by
  have first : Bytes.window bytes i 1 = (text.drop i).take 1 := loaded.window (by omega)
  rw [drop_eq_getElem_cons inside] at first ⊢
  rw [take_succ_cons] at first
  exact congrArg (· :: text.drop (i + 1)) (List.cons.inj first).1.symm

theorem printedLine_eq (noNul : 0 ∉ text) (inside : i ≤ text.length) :
    Bytes.window bytes (lineBefore bytes i).2
        (min (lineEnd bytes text.length i) text.length - (lineBefore bytes i).2) =
      lineHead bytes i ++ lineText newline (text.drop i) := by
  have behind := (lineBefore_bounds bytes i).2
  have rest : Bytes.window bytes i (text.length - i) = text.drop i := by
    rw [loaded.window (by omega), take_of_length_le (by simp)]
  have scanned : lineEnd bytes text.length i = i + (lineText newline (text.drop i)).length := by
    rw [lineEnd, rest, lineEnd_scan (fun member => noNul (mem_of_mem_drop member))]
  have isPrefix : lineText newline (text.drop i) <+: text.drop i := takeWhile_prefix _
  have short := isPrefix.length_le
  rw [length_drop] at short
  have tail : Bytes.window bytes i (lineText newline (text.drop i)).length =
      lineText newline (text.drop i) := by
    rw [loaded.window (by omega), ← prefix_iff_eq_take.mp isPrefix]
  rw [scanned, Nat.min_eq_left (by omega),
    show i + (lineText newline (text.drop i)).length - (lineBefore bytes i).2 =
      i - (lineBefore bytes i).2 + (lineText newline (text.drop i)).length by omega,
    Bytes.window_add, Nat.add_sub_cancel' behind, tail, lineHead]

end

section

variable {pattern text : List UInt8} (loaded : Loaded text bytes)

def foundAt (pattern text : List UInt8) (bytes : Nat → UInt8) (i : Nat) : List (Nat × List UInt8) :=
  if pattern <+: text.drop i then
    [((lineBefore bytes i).1, lineHead bytes i ++ lineText newline (text.drop i))]
  else []

theorem patternLen_short (short : pattern.length < 2 ^ 31) : patternLen pattern = pattern.length := by
  have value : (UInt32.ofNat pattern.length).toNat = pattern.length := by
    rw [UInt32.toNat_ofNat', Nat.mod_eq_of_lt (by omega)]
  rw [patternLen, Fs.signed_small _ (by omega), value]

include loaded

theorem positions_hits (k i : Nat) (rest : i + k = text.length) :
    (List.range' i k).flatMap (foundAt pattern text bytes) =
      hits newline pattern (lineBefore bytes i).1 (lineHead bytes i) (text.drop i) := by
  induction k generalizing i with
  | zero =>
    have done : text.drop i = [] := drop_of_length_le (Nat.le_of_eq rest.symm)
    rw [done]
    rfl
  | succ k ih =>
    have next := ih (i + 1) (by omega)
    have split := loaded.drop_cons (by omega : i < text.length)
    rw [lineBefore_succ, lineHead_succ] at next
    rw [range'_succ, flatMap_cons, next, foundAt, split, hits]
    by_cases ends : bytes i = newline
    · rw [if_pos ends, if_pos ends, if_pos ends]
    · rw [if_neg ends, if_neg ends, if_neg ends]

theorem grepAt_eq (noNul : 0 ∉ text) (fits : text.length ≤ Fs.maxFileSize)
    (inside : i + pattern.length ≤ text.length) (s : Session) :
    grepAt pattern bytes text.length i s = .ok (decide (pattern <+: text.drop i),
      s.send ((foundAt pattern text bytes i).flatMap grepEntry)) := by
  have limit : Fs.maxFileSize = 65536 := rfl
  have same : (Strings.memcmp (Bytes.window bytes i pattern.length) pattern == 0) =
      decide (pattern <+: text.drop i) := by
    rw [beq_eq_decide _ _, decide_eq_decide,
      Strings.memcmp_eq_zero (Bytes.window_length bytes i pattern.length), loaded.window inside,
      prefix_iff_eq_take, eq_comm]
  have compared : matchAt pattern bytes text.length i s =
      .ok (decide (pattern <+: text.drop i), s) := by
    rw [matchAt, if_pos (by omega), same]
  have number : (UInt32.ofNat (lineBefore bytes i).1).toNat = (lineBefore bytes i).1 := by
    have most := (lineBefore_bounds bytes i).1
    rw [UInt32.toNat_ofNat', Nat.mod_eq_of_lt (by omega)]
  have colon : Serial.serialPuts (ascii ": ") = ascii ": " := rfl
  have lineEnd : Serial.serialPuts (ascii "\n") = ascii "\r\n" := rfl
  rw [grepAt, bind_ok compared, foundAt]
  by_cases here : pattern <+: text.drop i
  · rw [if_pos (by simpa using here), if_pos here, bind_ok (serialPutdec_ok _), bind_ok rfl,
      bind_ok (forM_putchar _), bind_ok rfl, number, printedLine_eq loaded noNul (by omega),
      decide_eq_true here]
    simp only [Session.send_send, colon, lineEnd, flatMap_cons, flatMap_nil,
      append_nil, grepEntry, append_assoc]
    rfl
  · rw [if_neg (by simpa using here), if_neg here, decide_eq_false here, flatMap_nil,
      Session.send_nil]
    rfl

theorem positions_found (nonempty : pattern ≠ []) (short : pattern.length < 2 ^ 31) :
    (grepPositions pattern text.length).flatMap (foundAt pattern text bytes) =
      hits newline pattern 1 [] text := by
  have len := patternLen_short short
  have positive := length_pos_iff.mpr nonempty
  have all : (List.range text.length).flatMap (foundAt pattern text bytes) =
      hits newline pattern 1 [] text := by
    rw [range_eq_range']
    exact positions_hits loaded text.length 0 (Nat.zero_add _)
  -- The pattern is longer than what is left at the positions that are not tried.
  have none : ∀ i, text.length < i + pattern.length → foundAt pattern text bytes i = [] := by
    intro i beyond
    rw [foundAt, if_neg]
    intro isPrefix
    have fits := isPrefix.length_le
    rw [length_drop] at fits
    omega
  obtain ⟨tried, count⟩ : ∃ tried, tried = ((text.length : Int) - pattern.length + 1).toNat :=
    ⟨_, rfl⟩
  have parts : List.range text.length =
      List.range tried ++ (List.range (text.length - tried)).map (tried + ·) := by
    rw [← range_add, Nat.add_sub_cancel' (by omega)]
  have skipped : ((List.range (text.length - tried)).map (tried + ·)).flatMap
      (foundAt pattern text bytes) = [] := by
    rw [flatMap_eq_nil_iff]
    intro i member
    obtain ⟨j, -, rfl⟩ := mem_map.mp member
    exact none _ (by omega)
  rw [grepPositions, len, ← count, ← all, parts, flatMap_append, skipped, append_nil]

end

variable {s : Session}

section

variable {pattern : CString} {text : List UInt8}

-- The loop leaves the buffer if the length of the pattern is negative as an `int`.
theorem printMatches_fault (long : 2 ^ 31 ≤ pattern.bytes.length)
    (inMemory : pattern.bytes.length < 2 ^ 32) (result : Unit × Session) :
    printMatches pattern bytes text.length s ≠ .ok result := by
  have negative : patternLen pattern.bytes < 0 := by
    have value : (UInt32.ofNat pattern.bytes.length).toNat = pattern.bytes.length := by
      rw [UInt32.toNat_ofNat', Nat.mod_eq_of_lt inMemory]
    have same : (UInt32.ofNat pattern.bytes.length).toInt32.toUInt32 =
        UInt32.ofNat pattern.bytes.length := rfl
    obtain ⟨-, small⟩ | ⟨wrapped, -⟩ := Fs.toInt_cases (UInt32.ofNat pattern.bytes.length).toInt32
    · rw [same, value] at small
      omega
    · rw [same, value] at wrapped
      rw [patternLen, Fs.signed, wrapped]
      omega
  have member : text.length + 1 ∈ grepPositions pattern.bytes text.length := by
    rw [grepPositions, mem_range]
    omega
  have fails : ∀ now, grepAt pattern.bytes bytes text.length (text.length + 1) now =
      .error .outOfBounds := by
    intro now
    exact bind_fault (if_neg (by omega)) _
  intro returned
  obtain ⟨values, between, searched, -⟩ := bind_inv returned
  exact mapM_fault member fails _ searched

theorem printMatches_eq (nonempty : pattern.bytes ≠ []) (loaded : Loaded text bytes)
    (noNul : 0 ∉ text) (fits : text.length ≤ Fs.maxFileSize) (short : pattern.bytes.length < 2 ^ 31) :
    printMatches pattern bytes text.length s =
      .ok ((), s.send (grepOutput (hits newline pattern.bytes 1 [] text))) := by
  have found := positions_found loaded nonempty short
  have searched : (grepPositions pattern.bytes text.length).mapM
      (grepAt pattern.bytes bytes text.length) s = .ok
        ((grepPositions pattern.bytes text.length).map
          (fun i => decide (pattern.bytes <+: text.drop i)),
        s.send ((grepPositions pattern.bytes text.length).flatMap
          (fun i => (foundAt pattern.bytes text bytes i).flatMap grepEntry))) := by
    refine mapM_send (fun i member now => grepAt_eq loaded noNul fits ?_ now)
    rw [grepPositions, mem_range, patternLen_short short] at member
    omega
  have none : ((grepPositions pattern.bytes text.length).map
      (fun i => decide (pattern.bytes <+: text.drop i))).count true = 0 ↔
        hits newline pattern.bytes 1 [] text = [] := by
    rw [← found, count_eq_zero, flatMap_eq_nil_iff]
    simp [foundAt]
  rw [printMatches, bind_ok searched, ← flatMap_assoc, found, grepOutput]
  simp only [none]
  split
  · next empty =>
    rw [empty, flatMap_nil, Session.send_nil]
    rfl
  · rfl

end

section

variable {pattern : List UInt8} (nonempty : pattern ≠ []) (unbroken : newline ∉ pattern)
  (text : List UInt8)

theorem matchingLines_eq (pattern : List UInt8) : matchingLines pattern text =
    Text.chosen (fun entry => occurrences pattern entry.1)
      (fun entry => (entry.2, lineText newline entry.1)) ((lines newline text).zipIdx 1) := by
  simp only [matchingLines, Text.chosen, Text.occurrences_pos]

theorem grepEntry_ne_nil (hit : Nat × List UInt8) : grepEntry hit ≠ [] := by
  simp [grepEntry, ascii]

include nonempty unbroken

theorem grepOutput_iff : grepOutput (hits newline pattern 1 [] text) =
    grepOutput (matchingLines pattern text) ↔
      ∀ line ∈ lines newline text, occurrences pattern line ≤ 1 := by
  have each : (∀ line ∈ lines newline text, occurrences pattern line ≤ 1) ↔
      ∀ entry ∈ (lines newline text).zipIdx 1, occurrences pattern entry.1 ≤ 1 := by
    conv_lhs => rw [← zipIdx_map_fst 1 (lines newline text)]
    exact forall_mem_map
  rw [each, Text.hits_eq nonempty unbroken, matchingLines_eq]
  constructor
  · intro same
    rw [grepOutput, grepOutput] at same
    simp only [Text.repeats_eq_nil] at same
    split at same
    · next none =>
      intro entry member
      rw [Text.chosen_eq_nil.mp none entry member]
      exact Nat.zero_le 1
    · exact Text.once_of_length_le grepEntry_ne_nil (Nat.le_of_eq (congrArg List.length same))
  · intro once
    rw [Text.repeats_eq_chosen once]

end

section

variable {name pattern filename : CString} {rest : List CString} {slot : Slot}
  (readable : Readable s.files filename slot) (free : freeDescriptor s.files ≠ none)
  (supplied : s.heap.Supplies (Fs.maxFileSize + 1))

include readable free

theorem cmdGrep_empty (empty : content s.files slot = []) :
    Prints (cmdGrep (name :: pattern :: filename :: rest)) s [] := by
  obtain ⟨fd, free⟩ := Option.ne_none_iff_exists'.mp free
  have size : (s.files.inodes slot).size = 0 := by
    have length := readable.content_length
    rw [empty] at length
    exact UInt32.toNat.inj length.symm
  refine ⟨(s.reading slot fd).withFiles (Fs.fsClose (s.reading slot fd).files fd.val).1, ?_,
    (append_nil _).symm⟩
  rw [cmdGrep, bind_ok (openForReading_ok readable free)]
  dsimp only
  rw [bind_ok fsSize_reading, if_pos size, bind_ok rfl]
  rfl

include supplied

theorem cmdGrep_search (some : content s.files slot ≠ []) : ∃ files bytes block,
    Loaded (content s.files slot) bytes ∧
    cmdGrep (name :: pattern :: filename :: rest) s =
      (printMatches pattern bytes (content s.files slot).length >>= fun _ =>
        kfree block >>= fun _ => pure 0) ((s.withHeap s.heap.ask.hold).withFiles files) := by
  obtain ⟨fd, free⟩ := Option.ne_none_iff_exists'.mp free
  obtain ⟨files, bytes, read, same, loaded⟩ := readWhole_ok readable free supplied
  have size : (s.files.inodes slot).size ≠ 0 := by
    intro zero
    have length := readable.content_length
    rw [zero] at length
    exact some (eq_nil_of_length_eq_zero length)
  refine ⟨files, bytes, s.heap.ask.calls, loaded, ?_⟩
  rw [cmdGrep, bind_ok (openForReading_ok readable free)]
  dsimp only
  rw [bind_ok fsSize_reading, if_neg size, bind_ok read, readable.content_length]

end

theorem grep_iff {s : Session} {name pattern filename : CString} {rest : List CString}
    {slot : Slot} (readable : Readable s.files filename slot)
    (free : freeDescriptor s.files ≠ none) (supplied : s.heap.Supplies (Fs.maxFileSize + 1))
    (noNul : 0 ∉ content s.files slot) (nonempty : pattern.bytes ≠ [])
    (unbroken : newline ∉ pattern.bytes) (inMemory : pattern.bytes.length < 2 ^ 32) :
    Prints (cmdGrep (name :: pattern :: filename :: rest)) s
        (grepOutput (matchingLines pattern.bytes (content s.files slot))) ↔
      content s.files slot ≠ [] ∧ pattern.bytes.length < 2 ^ 31 ∧
      ∀ line ∈ lines newline (content s.files slot), occurrences pattern.bytes line ≤ 1 := by
  have fits : (content s.files slot).length ≤ Fs.maxFileSize := by
    rw [readable.content_length]
    exact readable.fits
  by_cases empty : content s.files slot = []
  · have report : grepOutput (matchingLines pattern.bytes []) = ascii "Pattern not found\r\n" := rfl
    rw [prints_iff (cmdGrep_empty readable free empty), empty, report]
    exact ⟨fun same => absurd same (by decide), fun ⟨text, _⟩ => absurd rfl text⟩
  · obtain ⟨files, bytes, block, loaded, course⟩ := cmdGrep_search readable free supplied empty
    by_cases short : pattern.bytes.length < 2 ^ 31
    · have printed : Prints (cmdGrep (name :: pattern :: filename :: rest)) s
          (grepOutput (hits newline pattern.bytes 1 [] (content s.files slot))) := by
        have searched := printMatches_eq nonempty loaded noNul fits short
          (s := (s.withHeap s.heap.ask.hold).withFiles files)
        refine ⟨_, course.trans (bind_ok searched _), ?_⟩
        rfl
      rw [prints_iff printed, grepOutput_iff nonempty unbroken]
      exact ⟨fun once => ⟨empty, short, once⟩, fun ⟨_, _, once⟩ => once⟩
    · refine ⟨fun ⟨s', returned, _⟩ => ?_, fun ⟨_, short', _⟩ => absurd short' short⟩
      rw [course] at returned
      obtain ⟨value, between, searched, -⟩ := bind_inv returned
      exact absurd searched (printMatches_fault (Nat.not_lt.mp short) inMemory _)

theorem grep_line : ∃ files,
    Fs.writeFile Fs.freshFs (literal "f") (ascii "ab\ncd\n") = some files ∧
    Prints (cmdGrep [literal "grep", literal "d", literal "f"]) (freshSession files)
      (ascii "2: cd\r\n") := by
  have written : (Fs.writeFile Fs.freshFs (literal "f") (ascii "ab\ncd\n")).any
      (fun files => decide (Readable files (literal "f") 1 ∧
        freeDescriptor files ≠ none ∧ content files 1 = ascii "ab\ncd\n")) = true := by
    decide +kernel
  obtain ⟨files, saved, checked⟩ := (Option.any_eq_true _ _).mp written
  obtain ⟨readable, free, text⟩ := of_decide_eq_true checked
  have noNul : 0 ∉ content files 1 := by
    rw [text]
    decide
  have report : grepOutput (matchingLines (literal "d").bytes (content files 1)) =
      ascii "2: cd\r\n" := by
    rw [text]
    decide +kernel
  have searched : Prints (cmdGrep [literal "grep", literal "d", literal "f"]) (freshSession files)
      (grepOutput (matchingLines (literal "d").bytes (content files 1))) ↔ _ :=
    grep_iff readable free (fun _ _ _ => rfl) noNul (by decide) (by decide) (by decide)
  refine ⟨files, saved, report ▸ searched.mpr ?_⟩
  change content files 1 ≠ [] ∧ _ ∧ ∀ line ∈ lines newline (content files 1), _
  rw [text]
  decide +kernel

-- The line is printed for both occurrences, and nothing is printed for the empty file.
theorem grep_repeats_line : ∃ files empty,
    Fs.writeFile Fs.freshFs (literal "f") (ascii "aa\n") = some files ∧
    Prints (cmdGrep [literal "grep", literal "a", literal "f"]) (freshSession files)
      (ascii "1: aa\r\n1: aa\r\n") ∧
    grepOutput (matchingLines (ascii "a") (ascii "aa\n")) = ascii "1: aa\r\n" ∧
    Fs.writeFile Fs.freshFs (literal "f") [] = some empty ∧
    Prints (cmdGrep [literal "grep", literal "a", literal "f"]) (freshSession empty) [] ∧
    grepOutput (matchingLines (ascii "a") []) = ascii "Pattern not found\r\n" := by
  have twice : (Fs.writeFile Fs.freshFs (literal "f") (ascii "aa\n")).any (fun files =>
      (cmdGrep [literal "grep", literal "a", literal "f"] (freshSession files)).toOption.any
        (fun r => r.1 == 0 && r.2.serial.sent == ascii "1: aa\r\n1: aa\r\n")) = true := by
    decide +kernel
  have silent : (Fs.writeFile Fs.freshFs (literal "f") []).any (fun files =>
      (cmdGrep [literal "grep", literal "a", literal "f"] (freshSession files)).toOption.any
        (fun r => r.1 == 0 && r.2.serial.sent == [])) = true := by
    decide +kernel
  obtain ⟨files, saved, printed⟩ := (Option.any_eq_true _ _).mp twice
  obtain ⟨empty, savedEmpty, printedEmpty⟩ := (Option.any_eq_true _ _).mp silent
  exact ⟨files, empty, saved, prints_of_any printed, by decide +kernel, savedEmpty,
    prints_of_any printedEmpty, by decide +kernel⟩

end ArgoOS.Shell
