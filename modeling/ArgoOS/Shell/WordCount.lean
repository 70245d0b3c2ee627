import ArgoOS.Shell.Reading

set_option autoImplicit false

/-! # The counts of `wc` -/

namespace ArgoOS.Shell

open List

open Fs (CString Slot Readable SameHandles content freeDescriptor newline)
open Text (ascii decimal runs)

def wcReport (filename : CString) (text : List UInt8) : List UInt8 :=
  decimal (text.count newline) ++ ascii " " ++
    decimal (runs (fun c => decide (c ∈ ascii " \t\n\r")) text).length ++ ascii " " ++
    decimal text.length ++ ascii " " ++ Serial.serialPuts filename.bytes ++ ascii "\r\n"

theorem wcBlank_eq : wcBlank = fun c => decide (c ∈ ascii " \t\n\r") := by
  funext c
  simp [wcBlank, ascii, newline, Bool.or_assoc, Bool.beq_eq_decide_eq]

section

theorem scan_lines (text : List UInt8) (counts : Counts) :
    (text.foldl Counts.scan counts).lines = counts.lines + text.count newline := by
  induction text generalizing counts with
  | nil => simp
  | cons c text ih =>
    have step : (counts.scan c).lines =
        if c = newline then counts.lines + 1 else counts.lines := by
      unfold Counts.scan
      dsimp only
      split
      · split <;> rfl
      · rfl
    rw [foldl_cons, ih, step, count_cons]
    simp only [beq_iff_eq]
    split <;> omega

-- Inside a word, the rest of the text is counted as if the word started right before it.
theorem scan_words (text : List UInt8) (counts : Counts) {before : UInt8}
    (solid : wcBlank before = false) :
    (text.foldl Counts.scan counts).total = counts.words +
      (runs wcBlank (if counts.inWord then before :: text else text)).length := by
  have word : ∀ c, wcBlank c = false → ∀ d ∈ [c], wcBlank d = false := by
    intro c cSolid d member
    rw [mem_singleton.mp member, cSolid]
  induction text generalizing counts before with
  | nil =>
    rw [foldl_nil, Counts.total]
    split
    · rw [Text.runs_word (cons_ne_nil _ _) (word before solid)]
      rfl
    · simp
  | cons c text ih =>
    rw [foldl_cons]
    cases blank : wcBlank c with
    | true =>
      rw [ih (counts.scan c) solid]
      cases inside : counts.inWord with
      | true =>
        have split := Text.runs_word_blank (cons_ne_nil _ _) (word before solid) blank text
        rw [singleton_append] at split
        simp only [Counts.scan, blank, inside, if_true, split, length_cons]
        simp
        omega
      | false => simp [Counts.scan, blank, inside, Text.runs_blank blank]
    | false =>
      rw [ih (counts.scan c) blank]
      cases inside : counts.inWord with
      | true => simp [Counts.scan, blank, Text.runs_grow_length solid blank]
      | false => simp [Counts.scan, blank]

theorem printCounts_report (filename : CString) {text : List UInt8} {bytes : Nat → UInt8}
    (loaded : Loaded text bytes) (fits : text.length ≤ Fs.maxFileSize) (s : Session) :
    printCounts filename bytes text.length s = .ok ((), s.send (wcReport filename text)) := by
  have lines := scan_lines text ⟨0, 0, false⟩
  have words := scan_words text ⟨0, 0, false⟩ (by decide : wcBlank 97 = false)
  have lineBound := count_le_length (a := newline) (l := text)
  have wordBound := Text.runs_length_le wcBlank text
  have limit : Fs.maxFileSize = 65536 := rfl
  have small : ∀ n, n ≤ text.length → (UInt32.ofNat n).toNat = n :=
    fun n most => UInt32.toNat_ofNat_of_lt (by change n < 2 ^ 32; omega)
  simp only [Nat.zero_add, Bool.false_eq_true, if_false] at lines words
  rw [printCounts, loaded.content, lines, words]
  rw [bind_ok (serialPutdec_ok _), bind_ok rfl, bind_ok (serialPutdec_ok _), bind_ok rfl,
    bind_ok (serialPutdec_ok _), bind_ok rfl, bind_ok rfl, small _ lineBound, small _ wordBound,
    small _ (Nat.le_refl _)]
  have space : Serial.serialPuts (ascii " ") = ascii " " := rfl
  have lineEnd : Serial.serialPuts (ascii "\n") = ascii "\r\n" := rfl
  simp only [serialPuts, Session.send_send, space, lineEnd, wcReport, wcBlank_eq, append_assoc]

end

theorem wc_reports {s : Session} {name filename : CString} {rest : List CString} {slot : Slot}
    (readable : Readable s.files filename slot) (free : freeDescriptor s.files ≠ none)
    (supplied : s.heap.Supplies (Fs.maxFileSize + 1)) :
    ∃ s', cmdWc (name :: filename :: rest) s = .ok (0, s') ∧
      s'.serial.sent = s.serial.sent ++ wcReport filename (content s.files slot) ∧
      SameHandles s.files s'.files ∧ s'.heap.held = s.heap.held := by
  have fits : (content s.files slot).length ≤ Fs.maxFileSize := by
    rw [readable.content_length]
    exact readable.fits
  exact onFile_ok readable free supplied
    (fun bytes loaded now => printCounts_report filename loaded fits now)

theorem wc_reports_sample : ∃ files s',
    Fs.writeFile Fs.freshFs (literal "f") (ascii "a bc\n\td") = some files ∧
    cmdWc [literal "wc", literal "f"] (freshSession files) = .ok (0, s') ∧
    s'.serial.sent = ascii "1 3 7 f\r\n" := by
  have written : (Fs.writeFile Fs.freshFs (literal "f") (ascii "a bc\n\td")).any
      (fun files => decide (Readable files (literal "f") 1 ∧
        freeDescriptor files ≠ none ∧ content files 1 = ascii "a bc\n\td")) = true := by
    decide +kernel
  obtain ⟨files, saved, checked⟩ := (Option.any_eq_true _ _).mp written
  obtain ⟨readable, free, text⟩ := of_decide_eq_true checked
  obtain ⟨s', returned, printed, -⟩ :
      ∃ s', cmdWc [literal "wc", literal "f"] (freshSession files) = .ok (0, s') ∧ _ :=
    wc_reports readable free (fun _ _ _ => rfl)
  refine ⟨files, s', saved, returned, printed.trans ?_⟩
  change [] ++ wcReport _ (content files 1) = _
  rw [text]
  decide +kernel

end ArgoOS.Shell
