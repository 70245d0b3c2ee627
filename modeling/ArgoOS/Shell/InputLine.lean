import ArgoOS.Shell.Tokens

set_option autoImplicit false

/-! # The input line -/

namespace ArgoOS.Shell

open List

open Fs (CString Fault)
open Text (ascii)

section

-- `char input_line[256]` and `int input_pos`
structure Input where
  inputLine : List UInt8
  inputPos : Int

def emptyInput : Input :=
  ⟨List.replicate 256 0, 0⟩

-- `input_line[pos] = c`
def setChar (inputLine : List UInt8) (pos : Int) (c : UInt8) : Except Fault (List UInt8) :=
  if 0 ≤ pos ∧ pos < inputLine.length then .ok (inputLine.set pos.toNat c)
  else .error .outOfBounds

def bufferString (inputLine : List UInt8) : Except Fault CString :=
  if 0 ∈ inputLine then .ok (stringAt inputLine 0) else .error .outOfBounds

variable (process : CString → ShellM Int) (input : Input)

-- The second result is the line that was given to `shell_process_command`, if there was one.
def submitLine : ShellM (Input × List CString) := do
  if 0 < input.inputPos then
    let inputLine ← checked (setChar input.inputLine input.inputPos 0)
    let line ← checked (bufferString inputLine)
    let _ ← process line
    return (emptyInput, [line])
  else
    return (input, [])

/-- What the loop does with a byte that `serial_getchar` returns. A `char` is signed, so the
bytes from 128 on are below 32. -/
def inputStep (c : UInt8) : ShellM (Input × List CString) := do
  if c = 10 ∨ c = 13 then
    serialPuts (ascii "\n")
    let submitted ← submitLine process input
    serialPuts (ascii "ArgOS> ")
    return submitted
  else if c = 8 ∨ c = 127 then
    if 0 < input.inputPos then
      let inputLine ← checked (setChar input.inputLine (input.inputPos - 1) 0)
      serialPuts (ascii "\x08 \x08")
      return (⟨inputLine, input.inputPos - 1⟩, [])
    else
      return (input, [])
  else if 32 ≤ c ∧ c < 127 then
    if input.inputPos < 255 then
      let inputLine ← checked (setChar input.inputLine input.inputPos c)
      serialPutchar c
      return (⟨inputLine, input.inputPos + 1⟩, [])
    else
      return (input, [])
  else
    return (input, [])

def inputRun : Input → List UInt8 → ShellM (Input × List CString)
  | input, [] => return (input, [])
  | input, c :: bytes => do
    let (next, first) ← inputStep process input c
    let (final, rest) ← inputRun next bytes
    return (final, first ++ rest)

end

structure Editor where
  line : List UInt8
  entered : List (List UInt8)

def Editor.type (editor : Editor) (c : UInt8) : Editor :=
  if c = 10 ∨ c = 13 then
    { line := []
      entered := if editor.line = [] then editor.entered else editor.entered ++ [editor.line] }
  else if c = 8 ∨ c = 127 then { editor with line := editor.line.dropLast }
  else if 32 ≤ c ∧ c ≤ 126 then
    if editor.line.length < 255 then { editor with line := editor.line ++ [c] } else editor
  else editor

structure Holds (input : Input) (line : List UInt8) : Prop where
  position : input.inputPos = line.length
  short : line.length ≤ 255
  buffer : input.inputLine = line ++ List.replicate (256 - line.length) 0
  printable : ∀ c ∈ line, 32 ≤ c ∧ c < 127

section

variable {process : CString → ShellM Int} {input : Input} {line : List UInt8} {s : Session}

theorem holds_empty : Holds emptyInput [] :=
  ⟨rfl, by decide, rfl, fun _ member => absurd member not_mem_nil⟩

theorem Holds.noNul (holds : Holds input line) : 0 ∉ line := by
  intro member
  have printable := holds.printable 0 member
  revert printable
  decide

theorem setChar_append (before after : List UInt8) (old c : UInt8) :
    setChar (before ++ old :: after) before.length c = .ok (before ++ c :: after) := by
  rw [setChar, if_pos (by simp), Int.toNat_natCast, set_append_right _ _ (Nat.le_refl _),
    Nat.sub_self]
  rfl

section

variable (holds : Holds input line)

include holds

theorem Holds.append (room : line.length < 255) {c : UInt8} (printable : 32 ≤ c ∧ c < 127) :
    ∃ inputLine, setChar input.inputLine input.inputPos c = .ok inputLine ∧
      Holds ⟨inputLine, input.inputPos + 1⟩ (line ++ [c]) := by
  have left : 256 - line.length = 256 - (line ++ [c]).length + 1 := by
    simp
    omega
  refine ⟨_, by rw [holds.buffer, holds.position, left, replicate_succ, setChar_append],
    ?_, ?_, ?_, ?_⟩
  · simp [holds.position]
  · simp
    omega
  · simp
  · intro d member
    obtain before | here := mem_append.mp member
    · exact holds.printable d before
    · rw [mem_singleton.mp here]
      exact printable

theorem Holds.erase (nonempty : line ≠ []) :
    ∃ inputLine, setChar input.inputLine (input.inputPos - 1) 0 = .ok inputLine ∧
      Holds ⟨inputLine, input.inputPos - 1⟩ line.dropLast := by
  obtain ⟨before, last, rfl⟩ := eq_nil_or_concat line |>.resolve_left nonempty
  rw [concat_eq_append] at holds ⊢
  have short := holds.short
  have position : input.inputPos - 1 = before.length := by
    rw [holds.position]
    simp
  rw [length_append] at short
  have left : 256 - before.length = 256 - (before ++ [last]).length + 1 := by
    simp at short ⊢
    omega
  refine ⟨before ++ 0 :: List.replicate (256 - (before ++ [last]).length) 0, ?_, ?_, ?_, ?_, ?_⟩
  · rw [holds.buffer, position, append_assoc, singleton_append, setChar_append]
  · rw [position, dropLast_concat]
  · rw [dropLast_concat]
    omega
  · rw [dropLast_concat, left, replicate_succ]
  · rw [dropLast_concat]
    exact fun d member => holds.printable d (mem_append_left _ member)

theorem Holds.terminate : setChar input.inputLine input.inputPos 0 = .ok input.inputLine ∧
    ∃ text, bufferString input.inputLine = .ok text ∧ text.bytes = line := by
  have short := holds.short
  have left : 256 - line.length = 255 - line.length + 1 := by omega
  have buffer : input.inputLine = line ++ 0 :: List.replicate (255 - line.length) 0 := by
    rw [holds.buffer, left, replicate_succ]
  refine ⟨?_, stringAt input.inputLine 0, ?_, ?_⟩
  · rw [buffer, holds.position, setChar_append]
  · rw [bufferString, if_pos (by rw [buffer]; simp)]
  · exact stringAt_terminated ⟨holds.noNul, _, buffer⟩

end

theorem Holds.position_pos (holds : Holds input line) : 0 < input.inputPos ↔ line ≠ [] := by
  rw [holds.position, Int.natCast_pos, length_pos_iff]

structure Follows (editor edited : Editor) (next : Input) (passed : List CString) : Prop where
  line : Holds next edited.line
  entered : edited.entered = editor.entered ++ passed.map CString.bytes

/-- One byte: the loop returns, or it goes on when the shell is done with the line. -/
inductive Steps (process : CString → ShellM Int) (editor edited : Editor) (s : Session) :
    Except Fault ((Input × List CString) × Session) → Prop where
  | returns (next : Input) (s' : Session) (follows : Follows editor edited next []) :
      Steps process editor edited s (.ok ((next, []), s'))
  | submits (next : Input) (text : CString) (follows : Follows editor edited next [text]) :
      Steps process editor edited s ((process text >>= fun _ =>
        serialPuts (ascii "ArgOS> ") >>= fun _ => pure (next, [text]))
          (s.send (Serial.serialPuts (ascii "\n"))))

section

variable {editor : Editor} {c : UInt8} (holds : Holds input editor.line)

include holds

theorem inputStep_enter (enter : c = 10 ∨ c = 13) :
    Steps process editor (editor.type c) s (inputStep process input c s) := by
  rw [inputStep, if_pos enter, bind_ok rfl, submitLine, Editor.type, if_pos enter]
  by_cases empty : editor.line = []
  · rw [if_neg (fun pos => holds.position_pos.mp pos empty), if_pos empty]
    exact .returns input _ ⟨empty ▸ holds, (append_nil _).symm⟩
  · obtain ⟨kept, text, passed, bytes⟩ := holds.terminate
    rw [if_pos (holds.position_pos.mpr empty), if_neg empty, bind_assoc, bind_ok (checked_ok kept),
      bind_assoc, bind_ok (checked_ok passed), bind_assoc]
    simp only [pure_bind]
    exact .submits emptyInput text ⟨holds_empty, by rw [← bytes]; rfl⟩

theorem inputStep_erase (erase : c = 8 ∨ c = 127) :
    Steps process editor (editor.type c) s (inputStep process input c s) := by
  have notEnter : ¬(c = 10 ∨ c = 13) := by
    obtain rfl | rfl := erase <;> decide
  rw [inputStep, if_neg notEnter, if_pos erase, Editor.type, if_neg notEnter, if_pos erase]
  by_cases empty : editor.line = []
  · rw [if_neg (fun pos => holds.position_pos.mp pos empty)]
    exact .returns input s ⟨by rw [empty] at holds ⊢; exact holds, (append_nil _).symm⟩
  · obtain ⟨inputLine, written, next⟩ := holds.erase empty
    rw [if_pos (holds.position_pos.mpr empty), bind_ok (checked_ok written)]
    exact .returns _ _ ⟨next, (append_nil _).symm⟩

theorem inputStep_other (notEnter : ¬(c = 10 ∨ c = 13)) (notErase : ¬(c = 8 ∨ c = 127)) :
    Steps process editor (editor.type c) s (inputStep process input c s) := by
  have below : 32 ≤ c ∧ c ≤ 126 ↔ 32 ≤ c ∧ c < 127 := by
    rw [UInt8.lt_iff_toNat_lt, UInt8.le_iff_toNat_le (b := 126)]
    exact and_congr_right fun _ => Nat.lt_succ_iff.symm
  have unchanged : Steps process editor editor s (.ok ((input, []), s)) :=
    .returns input s ⟨holds, (append_nil _).symm⟩
  rw [inputStep, if_neg notEnter, if_neg notErase, Editor.type, if_neg notEnter, if_neg notErase]
  simp only [below]
  by_cases printable : 32 ≤ c ∧ c < 127
  · rw [if_pos printable, if_pos printable]
    by_cases room : editor.line.length < 255
    · obtain ⟨inputLine, written, next⟩ := holds.append room printable
      rw [if_pos room, if_pos (by rw [holds.position]; omega), bind_ok (checked_ok written)]
      exact .returns _ _ ⟨next, (append_nil _).symm⟩
    · rw [if_neg room, if_neg (by rw [holds.position]; omega)]
      exact unchanged
  · rw [if_neg printable, if_neg printable]
    exact unchanged

theorem inputStep_steps (c : UInt8) :
    Steps process editor (editor.type c) s (inputStep process input c s) := by
  by_cases enter : c = 10 ∨ c = 13
  · exact inputStep_enter holds enter
  · by_cases erase : c = 8 ∨ c = 127
    · exact inputStep_erase holds erase
    · exact inputStep_other holds enter erase

end

section

variable {editor edited : Editor} {outcome : Except Fault ((Input × List CString) × Session)}
    (steps : Steps process editor edited s outcome)

include steps

-- The accesses to the buffer are in bounds: only the command can fail.
theorem Steps.fault {fault : Fault} (failed : outcome = .error fault) :
    ∃ line now, process line now = .error fault := by
  cases steps with
  | returns next s' _ => contradiction
  | submits next text _ =>
    refine ⟨text, s.send (Serial.serialPuts (ascii "\n")), ?_⟩
    cases ran : process text (s.send (Serial.serialPuts (ascii "\n"))) with
    | error other =>
      rw [bind_fault ran] at failed
      cases failed
      rfl
    | ok result =>
      rw [bind_ok ran] at failed
      contradiction

theorem Steps.follows {next : Input} {passed : List CString} {s' : Session}
    (returned : outcome = .ok ((next, passed), s')) : Follows editor edited next passed := by
  cases steps with
  | returns _ _ follows =>
    cases returned
    exact follows
  | submits _ _ follows =>
    obtain ⟨_, _, -, returned⟩ := bind_inv returned
    cases returned
    exact follows

end

end

section

variable {process : CString → ShellM Int}

section

variable {input : Input} {editor : Editor} {bytes : List UInt8} {s : Session}
    (holds : Holds input editor.line)

include holds

theorem inputRun_follows {final : Input} {passed : List CString} {s' : Session}
    (returned : inputRun process input bytes s = .ok ((final, passed), s')) :
    Follows editor (bytes.foldl Editor.type editor) final passed := by
  induction bytes generalizing input editor passed s with
  | nil =>
    cases returned
    exact ⟨holds, (append_nil _).symm⟩
  | cons c bytes ih =>
    obtain ⟨⟨next, first⟩, between, stepped, returned⟩ := bind_inv returned
    obtain ⟨⟨final', rest⟩, last, ran, returned⟩ := bind_inv returned
    cases returned
    have step := (inputStep_steps holds c).follows stepped
    have follow := ih step.line ran
    exact ⟨follow.line, by rw [foldl_cons, follow.entered, step.entered]; simp⟩

theorem inputRun_fault {fault : Fault} (failed : inputRun process input bytes s = .error fault) :
    ∃ line now, process line now = .error fault := by
  induction bytes generalizing input editor s with
  | nil => contradiction
  | cons c bytes ih =>
    have steps : Steps process editor _ s _ := inputStep_steps holds c
    cases stepped : inputStep process input c s with
    | error other =>
      rw [inputRun, bind_fault stepped] at failed
      exact steps.fault (stepped.trans failed)
    | ok result =>
      obtain ⟨⟨next, passed⟩, s'⟩ := result
      refine ih (steps.follows stepped).line (s := s') ?_
      cases ran : inputRun process next bytes s' with
      | error other =>
        rw [inputRun, bind_ok stepped] at failed
        dsimp only at failed
        rw [bind_fault ran] at failed
        exact failed
      | ok rest =>
        rw [inputRun, bind_ok stepped] at failed
        dsimp only at failed
        rw [bind_ok ran] at failed
        contradiction

end

end

end ArgoOS.Shell
