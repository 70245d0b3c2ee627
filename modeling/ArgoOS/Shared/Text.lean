import Mathlib

set_option autoImplicit false

/-!
# Texts

A text is a list over any type of characters. Its words are the maximal runs without
separators, its lines end behind each line separator, and a pattern occurs in it wherever
it is a prefix of the rest.
-/

namespace Text

open List

variable {α : Type}

def ascii (s : String) : List UInt8 :=
  s.toList.map (fun c => UInt8.ofNat c.toNat)

def decimal (n : Nat) : List UInt8 :=
  (Nat.toDigits 10 n).map (fun c => UInt8.ofNat c.toNat)

section

variable {blank : α → Bool}

/-- The maximal runs of characters that are not blank, in order. -/
def runs (blank : α → Bool) (text : List α) : List (List α) :=
  (text.splitOnP blank).filter (fun run => !run.isEmpty)

@[simp] theorem runs_nil : runs blank [] = [] := by
  simp [runs]

theorem runs_blank {c : α} (isBlank : blank c = true) (text : List α) :
    runs blank (c :: text) = runs blank text := by
  simp [runs, splitOnP_cons_eq_if_modifyHead, isBlank]

theorem runs_word_blank {word : List α} (nonempty : word ≠ []) (solid : ∀ c ∈ word, blank c = false)
    {c : α} (isBlank : blank c = true) (text : List α) :
    runs blank (word ++ c :: text) = word :: runs blank text := by
  rw [runs, splitOnP_append_cons_of_forall_mem solid c isBlank, filter_cons_of_pos]
  · rfl
  · simpa using nonempty

theorem runs_word {word : List α} (nonempty : word ≠ []) (solid : ∀ c ∈ word, blank c = false) :
    runs blank word = [word] := by
  rw [runs, splitOnP_eq_singleton solid, filter_cons_of_pos]
  · rfl
  · simpa using nonempty

theorem runs_blanks {blanks : List α} (all : ∀ c ∈ blanks, blank c = true) (text : List α) :
    runs blank (blanks ++ text) = runs blank text := by
  induction blanks with
  | nil => rfl
  | cons c blanks ih =>
    rw [forall_mem_cons] at all
    rw [cons_append, runs_blank all.1, ih all.2]

inductive FirstRun (blank : α → Bool) : List α → Prop where
  | none (text : List α) (all : ∀ c ∈ text, blank c = true) : FirstRun blank text
  | last (blanks word : List α) (all : ∀ c ∈ blanks, blank c = true) (nonempty : word ≠ [])
      (solid : ∀ c ∈ word, blank c = false) : FirstRun blank (blanks ++ word)
  | more (blanks word : List α) (c : α) (rest : List α) (all : ∀ c ∈ blanks, blank c = true)
      (nonempty : word ≠ []) (solid : ∀ c ∈ word, blank c = false) (ends : blank c = true) :
      FirstRun blank (blanks ++ (word ++ c :: rest))

theorem span_cases (p : α → Bool) (text : List α) : ∃ part rest, text = part ++ rest ∧
    (∀ c ∈ part, p c = true) ∧ (rest = [] ∨ ∃ c more, rest = c :: more ∧ p c = false) := by
  induction text with
  | nil => exact ⟨[], [], rfl, fun _ member => absurd member not_mem_nil, .inl rfl⟩
  | cons c text ih =>
    cases holds : p c with
    | false =>
      exact ⟨[], c :: text, rfl, fun _ member => absurd member not_mem_nil,
        .inr ⟨c, text, rfl, holds⟩⟩
    | true =>
      obtain ⟨part, rest, rfl, all, stops⟩ := ih
      exact ⟨c :: part, rest, rfl, forall_mem_cons.mpr ⟨holds, all⟩, stops⟩

theorem firstRun (blank : α → Bool) (text : List α) : FirstRun blank text := by
  obtain ⟨blanks, rest, rfl, all, rfl | ⟨first, more, rfl, notBlank⟩⟩ := span_cases blank text
  · exact .none _ (by simpa using all)
  · obtain ⟨word, rest, split, solid, stops⟩ := span_cases (fun c => !blank c) (first :: more)
    have solid : ∀ c ∈ word, blank c = false := fun c member => by simpa using solid c member
    rw [split]
    have nonempty : word ≠ [] := by
      rintro rfl
      rw [nil_append] at split
      obtain rfl | ⟨c, _, rfl, isBlank⟩ := stops
      · contradiction
      · rw [(List.cons.inj split).1] at notBlank
        simp [notBlank] at isBlank
    obtain rfl | ⟨c, more, rfl, isBlank⟩ := stops
    · rw [append_nil]
      exact .last blanks word all nonempty solid
    · exact .more blanks word c more all nonempty solid (by simpa using isBlank)

theorem runs_grow_length {first second : α} (firstSolid : blank first = false)
    (secondSolid : blank second = false) (text : List α) :
    (runs blank (first :: second :: text)).length = (runs blank (second :: text)).length := by
  have parts := splitOnP_ne_nil blank text
  simp only [runs, splitOnP_cons_eq_if_modifyHead, firstSolid, secondSolid]
  cases split : text.splitOnP blank with
  | nil => exact absurd split parts
  | cons run rest => simp

theorem runs_length_le (blank : α → Bool) (text : List α) :
    (runs blank text).length ≤ text.length := by
  induction text with
  | nil => simp
  | cons c text ih =>
    have more : (runs blank (c :: text)).length ≤ (runs blank text).length + 1 := by
      cases isBlank : blank c with
      | true =>
        rw [runs_blank isBlank]
        exact Nat.le_succ _
      | false =>
        have parts := splitOnP_ne_nil blank text
        simp only [runs, splitOnP_cons_eq_if_modifyHead, isBlank]
        cases split : text.splitOnP blank with
        | nil => exact absurd split parts
        | cons run rest =>
          have fewer := List.Sublist.length_le (List.Sublist.filter (fun run => !run.isEmpty)
            (sublist_cons_self run rest))
          simpa using fewer
    exact Nat.le_trans more (Nat.succ_le_succ ih)

end

variable {separator : α}

section

variable [DecidableEq α]

/-- The lines of a text, each with the separator that ends it. Only the last one can be
without, and it is then not empty. -/
def lines (separator : α) : List α → List (List α)
  | [] => []
  | c :: text =>
    if c = separator then [c] :: lines separator text
    else
      match lines separator text with
      | [] => [[c]]
      | line :: rest => (c :: line) :: rest

theorem lines_flatten (text : List α) : (lines separator text).flatten = text := by
  induction text with
  | nil => rfl
  | cons c text ih =>
    rw [lines]
    split
    · rw [flatten_cons, ih]
      rfl
    · split
      · next none =>
        rw [none] at ih
        rw [← ih]
        rfl
      · next line rest more =>
        rw [more] at ih
        rw [← ih]
        rfl

theorem lines_nonempty {text line : List α} (member : line ∈ lines separator text) :
    line ≠ [] := by
  induction text generalizing line with
  | nil => contradiction
  | cons c text ih =>
    rw [lines] at member
    split at member
    · obtain rfl | inRest := mem_cons.mp member
      · exact cons_ne_nil c []
      · exact ih inRest
    · split at member
      · rw [mem_singleton.mp member]
        exact cons_ne_nil c []
      · next first rest more =>
        obtain rfl | inRest := mem_cons.mp member
        · exact cons_ne_nil c first
        · exact ih (more ▸ mem_cons_of_mem first inRest)

theorem lines_line {line : List α} (unbroken : separator ∉ line) (text : List α) :
    lines separator (line ++ separator :: text) =
      (line ++ [separator]) :: lines separator text := by
  induction line with
  | nil => simp [lines]
  | cons c line ih =>
    rw [mem_cons, not_or] at unbroken
    obtain ⟨different, unbroken⟩ := unbroken
    rw [cons_append, lines, if_neg (Ne.symm different), ih unbroken]
    rfl

theorem lines_last {line : List α} (nonempty : line ≠ []) (unbroken : separator ∉ line) :
    lines separator line = [line] := by
  induction line with
  | nil => contradiction
  | cons c line ih =>
    rw [mem_cons, not_or] at unbroken
    obtain ⟨different, unbroken⟩ := unbroken
    rw [lines, if_neg (Ne.symm different)]
    cases line with
    | nil => rfl
    | cons second line => rw [ih (cons_ne_nil second line) unbroken]

theorem line_induction (separator : α) {motive : List α → Prop} (nil : motive [])
    (last : ∀ line, line ≠ [] → separator ∉ line → motive line)
    (line : ∀ line text, separator ∉ line → motive text → motive (line ++ separator :: text))
    (text : List α) : motive text := by
  suffices ∀ (before : List α), separator ∉ before → motive (before ++ text) from
    this [] not_mem_nil
  induction text with
  | nil =>
    intro before unbroken
    rw [append_nil]
    by_cases empty : before = []
    · exact empty ▸ nil
    · exact last before empty unbroken
  | cons c text ih =>
    intro before unbroken
    by_cases ends : c = separator
    · subst ends
      exact line before text unbroken (ih [] not_mem_nil)
    · have longer := ih (before ++ [c]) (by simp [unbroken, Ne.symm ends])
      rwa [append_assoc] at longer

def Unterminated (separator : α) (text : List α) : Prop :=
  ∃ last ∈ text.getLast?, last ≠ separator

instance (text : List α) : Decidable (Unterminated separator text) :=
  inferInstanceAs (Decidable (∃ last ∈ text.getLast?, last ≠ separator))

theorem lines_length (separator : α) (text : List α) : (lines separator text).length =
    text.count separator + if Unterminated separator text then 1 else 0 := by
  induction text using line_induction separator with
  | nil => simp [lines, Unterminated]
  | last line nonempty unbroken =>
    have ends : Unterminated separator line :=
      ⟨line.getLast nonempty, List.getLast?_eq_some_getLast nonempty,
        fun same => unbroken (same ▸ getLast_mem nonempty)⟩
    rw [lines_last nonempty unbroken, count_eq_zero_of_not_mem unbroken, if_pos ends]
    rfl
  | line line text unbroken ih =>
    have same : Unterminated separator (line ++ separator :: text) ↔
        Unterminated separator text := by
      unfold Unterminated
      cases text with
      | nil => simp
      | cons c text => simp [List.getLast?_append, List.getLast?_cons_cons]
    rw [lines_line unbroken, length_cons, ih, count_append,
      count_eq_zero_of_not_mem unbroken, count_cons_self]
    simp only [same]
    omega

def lineText (separator : α) (text : List α) : List α :=
  text.takeWhile (fun c => decide (c ≠ separator))

theorem lineText_append {line : List α} (unbroken : separator ∉ line) (text : List α) :
    lineText separator (line ++ text) = line ++ lineText separator text := by
  apply takeWhile_append_of_pos
  intro c member
  rw [decide_eq_true_eq]
  rintro rfl
  exact unbroken member

theorem lineText_separator (text : List α) : lineText separator (separator :: text) = [] := by
  simp [lineText]

theorem lineText_last {line : List α} (unbroken : separator ∉ line) :
    lineText separator line = line := by
  simpa [lineText] using lineText_append unbroken []

theorem lineText_line {line : List α} (unbroken : separator ∉ line) (text : List α) :
    lineText separator (line ++ separator :: text) = line := by
  rw [lineText_append unbroken, lineText_separator, append_nil]

def firstLines (separator : α) (n : Nat) (text : List α) : List α :=
  ((lines separator text).take n).flatten

def lastLines (separator : α) (n : Nat) (text : List α) : List α :=
  ((lines separator text).drop ((lines separator text).length - n)).flatten

end

section

variable {parts : List (List α)} (nonempty : ∀ part ∈ parts, part ≠ [])

include nonempty

theorem length_le_flatten : parts.length ≤ parts.flatten.length := by
  induction parts with
  | nil => exact Nat.zero_le _
  | cons part parts ih =>
    have first := length_pos_iff.mpr (nonempty part mem_cons_self)
    have rest := ih (fun other member => nonempty other (mem_cons_of_mem part member))
    rw [length_cons, flatten_cons, length_append]
    omega

theorem take_flatten_inj {a b : Nat} (same : (parts.take a).flatten = (parts.take b).flatten) :
    min a parts.length = min b parts.length := by
  induction parts generalizing a b with
  | nil => simp
  | cons part parts ih =>
    have first := nonempty part mem_cons_self
    have rest : ∀ other ∈ parts, other ≠ [] :=
      fun other member => nonempty other (mem_cons_of_mem part member)
    cases a with
    | zero =>
      cases b with
      | zero => rfl
      | succ b => simp [first] at same
    | succ a =>
      cases b with
      | zero => simp [first] at same
      | succ b =>
        simp only [take_succ_cons, flatten_cons, append_cancel_left_eq] at same
        have shorter := ih rest same
        simp only [length_cons]
        omega

theorem drop_flatten_inj {a b : Nat} (same : (parts.drop a).flatten = (parts.drop b).flatten) :
    min a parts.length = min b parts.length := by
  have whole : ∀ n, (parts.take n).flatten ++ (parts.drop n).flatten = parts.flatten := by
    intro n
    rw [← flatten_append, take_append_drop]
  have equal := (whole a).trans (whole b).symm
  rw [same] at equal
  exact take_flatten_inj nonempty (append_cancel_right equal)

end

section

variable {β γ : Type} {count : β → Nat} {item : β → γ} {entries : List β}

def repeats (count : β → Nat) (item : β → γ) (entries : List β) : List γ :=
  entries.flatMap (fun entry => List.replicate (count entry) (item entry))

def chosen (count : β → Nat) (item : β → γ) (entries : List β) : List γ :=
  (entries.filter (fun entry => decide (0 < count entry))).map item

theorem chosen_eq_nil : chosen count item entries = [] ↔ ∀ entry ∈ entries, count entry = 0 := by
  simp [chosen, filter_eq_nil_iff]

theorem repeats_eq_nil : repeats count item entries = [] ↔ chosen count item entries = [] := by
  rw [chosen_eq_nil]
  simp [repeats]

theorem repeats_eq_chosen (once : ∀ entry ∈ entries, count entry ≤ 1) :
    repeats count item entries = chosen count item entries := by
  induction entries with
  | nil => rfl
  | cons entry entries ih =>
    have rest := ih (fun other member => once other (mem_cons_of_mem entry member))
    have first := once entry mem_cons_self
    rw [repeats, chosen] at rest ⊢
    rw [flatMap_cons, rest]
    obtain zero | one : count entry = 0 ∨ count entry = 1 := by omega
    · simp [zero]
    · simp [one]

variable {print : γ → List α}

theorem repeats_length (entry : β) (entries : List β) :
    ((repeats count item (entry :: entries)).flatMap print).length =
      count entry * (print (item entry)).length +
        ((repeats count item entries).flatMap print).length := by
  rw [repeats, flatMap_cons, flatMap_append, length_append]
  simp [repeats, length_flatMap]

theorem chosen_length (entry : β) (entries : List β) :
    ((chosen count item (entry :: entries)).flatMap print).length =
      (if 0 < count entry then (print (item entry)).length else 0) +
        ((chosen count item entries).flatMap print).length := by
  rw [chosen, filter_cons]
  simp only [decide_eq_true_eq]
  split
  · rw [map_cons, flatMap_cons, length_append]
    rfl
  · rw [Nat.zero_add]
    rfl

theorem chosen_length_le (entries : List β) : ((chosen count item entries).flatMap print).length ≤
    ((repeats count item entries).flatMap print).length := by
  induction entries with
  | nil => exact Nat.le_refl _
  | cons entry entries ih =>
    rw [repeats_length, chosen_length]
    split
    · next counts =>
      have most := Nat.le_mul_of_pos_left (print (item entry)).length counts
      omega
    · omega

-- What is printed tells whether an entry was listed again.
theorem once_of_length_le (visible : ∀ value, print value ≠ [])
    (short : ((repeats count item entries).flatMap print).length ≤
      ((chosen count item entries).flatMap print).length) :
    ∀ entry ∈ entries, count entry ≤ 1 := by
  induction entries with
  | nil => exact fun _ member => absurd member not_mem_nil
  | cons entry entries ih =>
    have rest : ((chosen count item entries).flatMap print).length ≤
      ((repeats count item entries).flatMap print).length := chosen_length_le entries
    have long := length_pos_iff.mpr (visible (item entry))
    rw [repeats_length, chosen_length] at short
    rw [forall_mem_cons]
    obtain zero | one | more : count entry = 0 ∨ count entry = 1 ∨ 2 ≤ count entry := by omega
    · rw [zero] at short
      exact ⟨by omega, ih (by simpa using short)⟩
    · rw [one] at short
      exact ⟨by omega, ih (by simpa using short)⟩
    · have twice := Nat.mul_le_mul_right (print (item entry)).length more
      split at short <;> omega

end

section

variable [DecidableEq α]

-- How often `pattern` occurs in a text; occurrences may overlap.
def occurrences (pattern text : List α) : Nat :=
  text.tails.countP (fun rest => decide (pattern <+: rest))

/--
The line of every occurrence of `pattern` and its number, for a search that goes through
the text by positions. `number` and `before` are the number of the current line and the
part of it that is behind the search.
-/
def hits (separator : α) (pattern : List α) : Nat → List α → List α → List (Nat × List α)
  | _, _, [] => []
  | number, before, c :: text =>
    let line := before ++ lineText separator (c :: text)
    let here := if pattern <+: c :: text then [(number, line)] else []
    if c = separator then here ++ hits separator pattern (number + 1) [] text
    else here ++ hits separator pattern number (before ++ [c]) text

variable {pattern : List α}

theorem occurrences_cons (pattern : List α) (c : α) (text : List α) :
    occurrences pattern (c :: text) =
      occurrences pattern text + if pattern <+: c :: text then 1 else 0 := by
  rw [occurrences, tails_cons, countP_cons]
  simp [occurrences]

theorem occurrences_pos {text : List α} : 0 < occurrences pattern text ↔ pattern <:+: text := by
  rw [occurrences, countP_pos_iff, infix_iff_prefix_suffix]
  simp [mem_tails, and_comm]

section

variable (nonempty : pattern ≠ []) (unbroken : separator ∉ pattern)

include nonempty unbroken

omit [DecidableEq α] in
theorem prefix_line_iff (line text : List α) :
    pattern <+: line ++ separator :: text ↔ pattern <+: line := by
  refine ⟨fun found => ?_, fun found => prefix_append_of_prefix found⟩
  obtain short | long := Nat.le_total pattern.length line.length
  · exact prefix_of_prefix_length_le found (prefix_append _ _) short
  · obtain ⟨rest, rfl⟩ := prefix_of_prefix_length_le (prefix_append _ _) found long
    cases rest with
    | nil => simp
    | cons c rest =>
      have first := (prefix_append_right_inj line).mp found
      obtain ⟨rfl, -⟩ := List.cons_prefix_cons.mp first
      simp at unbroken

omit [DecidableEq α] in
theorem not_prefix_separator (text : List α) : ¬pattern <+: separator :: text := by
  have found := prefix_line_iff nonempty unbroken [] text
  rw [nil_append, prefix_nil] at found
  exact fun isPrefix => nonempty (found.mp isPrefix)

theorem occurrences_line (line : List α) :
    occurrences pattern (line ++ [separator]) = occurrences pattern line := by
  induction line with
  | nil =>
    have none := not_prefix_separator nonempty unbroken []
    rw [nil_append, occurrences_cons, if_neg none, Nat.add_zero]
  | cons c line ih =>
    have same := prefix_line_iff nonempty unbroken (c :: line) []
    rw [cons_append] at same
    rw [cons_append, occurrences_cons, occurrences_cons, ih]
    simp only [same]

theorem hits_append (number : Nat) (before line text : List α) (inLine : separator ∉ line)
    (ends : text = [] ∨ ∃ rest, text = separator :: rest) :
    hits separator pattern number before (line ++ text) =
      List.replicate (occurrences pattern line) (number, before ++ line) ++
        hits separator pattern number (before ++ line) text := by
  have atEnd : ∀ line : List α, pattern <+: line ++ text ↔ pattern <+: line := by
    intro line
    obtain rfl | ⟨rest, rfl⟩ := ends
    · rw [append_nil]
    · exact prefix_line_iff nonempty unbroken _ rest
  induction line generalizing before with
  | nil => simp [occurrences, nonempty]
  | cons c line ih =>
    rw [mem_cons, not_or] at inLine
    have whole : lineText separator (c :: (line ++ text)) = c :: line := by
      have unbroken : separator ∉ c :: line := by
        rw [mem_cons, not_or]
        exact inLine
      rw [← cons_append]
      obtain rfl | ⟨rest, rfl⟩ := ends
      · rw [append_nil, lineText_last unbroken]
      · exact lineText_line unbroken rest
    have same := atEnd (c :: line)
    rw [cons_append] at same
    rw [cons_append, hits, if_neg (Ne.symm inLine.1), ih (before ++ [c]) inLine.2,
      occurrences_cons, whole]
    simp only [same, append_assoc, singleton_append]
    split
    · rw [replicate_succ]
      rfl
    · rfl

theorem hits_eq (number : Nat) (text : List α) : hits separator pattern number [] text =
    repeats (fun entry => occurrences pattern entry.1)
      (fun entry => (entry.2, lineText separator entry.1))
      ((lines separator text).zipIdx number) := by
  rw [repeats]
  induction text using line_induction separator generalizing number with
  | nil => rfl
  | last line some inLine =>
    have searched := hits_append nonempty unbroken number [] line [] inLine (.inl rfl)
    rw [append_nil] at searched
    rw [searched, lines_last some inLine]
    simp [hits, lineText_last inLine]
  | line line text inLine ih =>
    rw [hits_append nonempty unbroken number [] line _ inLine (.inr ⟨text, rfl⟩), lines_line inLine,
      hits, if_pos rfl, if_neg (not_prefix_separator nonempty unbroken text), ih]
    simp [zipIdx_cons, occurrences_line nonempty unbroken, lineText_line inLine]

end

end

end Text
