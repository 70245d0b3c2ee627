import ArgoOS.Lib.Strings
import ArgoOS.Shell.Session

set_option autoImplicit false

/-! # Command lines -/

namespace ArgoOS.Shell

open List

open Fs (CString Fault)
open Text (ascii runs)

section

def shellMaxArgs : Nat := 16

-- `' '`, `'\t'` and `'\n'`
def isBlank (c : UInt8) : Bool :=
  c == 32 || c == 9 || c == 10

-- `*p` for a pointer into the copy of the line, which has one byte more than the line.
def charAt (buffer : List UInt8) (p : Nat) : Except Fault UInt8 :=
  match buffer[p]? with
  | none => .error .outOfBounds
  | some c => .ok c

-- The loop that moves `start` over blanks; the list is the buffer from there on.
def skipBlanks : List UInt8 → Nat → Except Fault Nat
  | [], _ => .error .outOfBounds
  | c :: rest, start => if isBlank c then skipBlanks rest (start + 1) else .ok start

-- The loop that moves `end` over a token.
def findEnd : List UInt8 → Nat → Except Fault Nat
  | [], _ => .error .outOfBounds
  | c :: rest, stop => if c ≠ 0 ∧ isBlank c = false then findEnd rest (stop + 1) else .ok stop

-- `args[argc++] = arg` in an array of `SHELL_MAX_ARGS` pointers.
def storeArg (args : List (Option Nat)) (arg : Option Nat) : Except Fault (List (Option Nat)) :=
  if args.length < shellMaxArgs then .ok (args ++ [arg]) else .error .outOfBounds

-- A null pointer ends the arguments; the others are offsets into the buffer.
structure Tokens where
  buffer : List UInt8
  args : List (Option Nat)

/-- The loop of the tokenizer, with `start` equal to `end` at its head. The first argument
is the number of arguments that may still be stored. -/
def tokenize : Nat → Tokens → Nat → Except Fault Tokens
  | 0, tokens, _ => .ok tokens
  | room + 1, tokens, stop => do
    if (← charAt tokens.buffer stop) = 0 then
      return tokens
    else
      let start ← skipBlanks (tokens.buffer.drop stop) stop
      if (← charAt tokens.buffer start) = 0 then
        return tokens
      else
        let stop ← findEnd (tokens.buffer.drop start) start
        let args ← storeArg tokens.args (some start)
        if (← charAt tokens.buffer stop) ≠ 0 then
          tokenize room ⟨tokens.buffer.set stop 0, args⟩ (stop + 1)
        else
          tokenize room ⟨tokens.buffer, args⟩ stop

-- `strcpy` into a block of `size` bytes.
def strcpy (size : UInt32) (line : List UInt8) : Except Fault (List UInt8) :=
  if line.length + 1 ≤ size.toNat then .ok (line ++ [0]) else .error .outOfBounds

-- The tokenizer, with `args[argc] = NULL` at its end.
def parse (lineCopy : List UInt8) : Except Fault Tokens := do
  let tokens ← tokenize (shellMaxArgs - 1) ⟨lineCopy, []⟩ 0
  let args ← storeArg tokens.args none
  return { tokens with args := args }

def stringAt (buffer : List UInt8) (p : Nat) : CString where
  bytes := (buffer.drop p).takeWhile (· ≠ 0)
  noNul := by
    intro member
    have kept := List.mem_takeWhile_imp member
    simp at kept

def Tokens.argv (tokens : Tokens) : List CString :=
  tokens.args.filterMap (fun arg => arg.map (stringAt tokens.buffer))

end

structure ShellCommand where
  name : CString
  handler : List CString → ShellM Int

def shellGetCommand (commands : List ShellCommand) (name : CString) : Option ShellCommand :=
  commands.find? (fun command => Strings.strcmp command.name.bytes name.bytes == 0)

def withoutLeading (line : List UInt8) : List UInt8 :=
  line.dropWhile (fun c => c == 32 || c == 9)

-- The end of the function, once the arguments are found.
def runCommand (commands : List ShellCommand) (lineCopy : Nat) : List CString → ShellM Int
  | [] => do
    kfree lineCopy
    return 0
  | name :: args => do
    match shellGetCommand commands name with
    | none =>
      serialPuts (ascii "Command not found: ")
      serialPuts name.bytes
      serialPuts (ascii "\n")
      serialPuts (ascii "Type 'help' for available commands.\n")
      kfree lineCopy
      return -1
    | some command =>
      let result ← command.handler (name :: args)
      kfree lineCopy
      return result

def shellProcessCommand (commands : List ShellCommand) (line : Option CString) : ShellM Int := do
  match line with
  | none => return 0
  | some line =>
    if withoutLeading line.bytes = [] then
      return 0
    else
      let size := UInt32.ofNat ((withoutLeading line.bytes).length + 1)
      match ← kmalloc size with
      | none => return -1
      | some lineCopy =>
        let copied ← checked (strcpy size (withoutLeading line.bytes))
        let tokens ← checked (parse copied)
        runCommand commands lineCopy tokens.argv

variable {c : UInt8} {tokens : Tokens}

section

theorem charAt_append (done rest : List UInt8) (c : UInt8) :
    charAt (done ++ c :: rest) done.length = .ok c := by
  simp [charAt]

theorem skipBlanks_append {blanks : List UInt8} (all : ∀ c ∈ blanks, isBlank c = true)
    (stops : isBlank c = false) (rest : List UInt8) (start : Nat) :
    skipBlanks (blanks ++ c :: rest) start = .ok (start + blanks.length) := by
  induction blanks generalizing start with
  | nil => simp [skipBlanks, stops]
  | cons b blanks ih =>
    rw [forall_mem_cons] at all
    rw [cons_append, skipBlanks, if_pos all.1, ih all.2, length_cons]
    congr 1
    omega

theorem findEnd_append {word : List UInt8} (solid : ∀ c ∈ word, isBlank c = false)
    (noNul : 0 ∉ word) (stops : c = 0 ∨ isBlank c = true) (rest : List UInt8) (stop : Nat) :
    findEnd (word ++ c :: rest) stop = .ok (stop + word.length) := by
  induction word generalizing stop with
  | nil =>
    rw [nil_append, findEnd, if_neg]
    · rfl
    · rintro ⟨nonzero, solid⟩
      obtain zero | blank := stops
      · exact nonzero zero
      · rw [solid] at blank
        exact Bool.false_ne_true blank
  | cons b word ih =>
    rw [forall_mem_cons] at solid
    rw [mem_cons, not_or] at noNul
    rw [cons_append, findEnd, if_pos ⟨Ne.symm noNul.1, solid.1⟩, ih solid.2 noNul.2,
      length_cons]
    congr 1
    omega

theorem tokenize_stop {stop : Nat} (ended : charAt tokens.buffer stop = .ok 0) (room : Nat) :
    tokenize room tokens stop = .ok tokens := by
  cases room with
  | zero => rfl
  | succ room =>
    rw [tokenize, ended]
    rfl

theorem tokenize_step {room : Nat} {stop start finish : Nat} {d e : UInt8}
    {args : List (Option Nat)} (here : charAt tokens.buffer stop = .ok c) (more : c ≠ 0)
    (skipped : skipBlanks (tokens.buffer.drop stop) stop = .ok start)
    (first : charAt tokens.buffer start = .ok d) (word : d ≠ 0)
    (found : findEnd (tokens.buffer.drop start) start = .ok finish)
    (stored : storeArg tokens.args (some start) = .ok args)
    (last : charAt tokens.buffer finish = .ok e) :
    tokenize (room + 1) tokens stop =
      if e ≠ 0 then tokenize room ⟨tokens.buffer.set finish 0, args⟩ (finish + 1)
      else tokenize room ⟨tokens.buffer, args⟩ finish := by
  rw [tokenize, here]
  change (if c = 0 then _ else _) = _
  rw [if_neg more, skipped]
  change (charAt tokens.buffer start >>= _) = _
  rw [first]
  change (if d = 0 then _ else _) = _
  rw [if_neg word, found]
  change (storeArg tokens.args (some start) >>= _) = _
  rw [stored]
  change (charAt tokens.buffer finish >>= _) = _
  rw [last]
  rfl

end

def TerminatedAt (buffer : List UInt8) (p : Nat) (word : List UInt8) : Prop :=
  0 ∉ word ∧ ∃ rest, buffer.drop p = word ++ 0 :: rest

section

variable {room : Nat} {done blanks word rest : List UInt8} {c : UInt8} {args : List (Option Nat)}
  (all : ∀ c ∈ blanks, isBlank c = true) (nonempty : word ≠ [])
  (solid : ∀ c ∈ word, isBlank c = false) (noNul : 0 ∉ blanks ++ word)
  (stops : c = 0 ∨ isBlank c = true) (few : args.length < shellMaxArgs)

include all nonempty solid noNul stops few

theorem tokenize_word :
    tokenize (room + 1) ⟨done ++ (blanks ++ (word ++ c :: rest)), args⟩ done.length =
      if c ≠ 0 then tokenize room ⟨done ++ (blanks ++ (word ++ 0 :: rest)),
        args ++ [some (done.length + blanks.length)]⟩
        (done.length + blanks.length + word.length + 1)
      else tokenize room ⟨done ++ (blanks ++ (word ++ c :: rest)),
        args ++ [some (done.length + blanks.length)]⟩
        (done.length + blanks.length + word.length) := by
  have wordNoNul : 0 ∉ word := fun member => noNul (mem_append_right blanks member)
  obtain ⟨w, word', rfl⟩ := exists_cons_of_ne_nil nonempty
  have wNonzero : w ≠ 0 := fun zero => wordNoNul (zero ▸ mem_cons_self)
  obtain ⟨b, text, head, nonzero⟩ :
      ∃ b text, blanks ++ (w :: word' ++ c :: rest) = b :: text ∧ b ≠ 0 := by
    cases blanks with
    | nil => exact ⟨w, word' ++ c :: rest, rfl, wNonzero⟩
    | cons b blanks => exact ⟨b, _, rfl, fun zero => noNul (zero ▸ mem_cons_self)⟩
  -- The buffer seen from the start of the word and from its end.
  have fromStart : done ++ (blanks ++ (w :: word' ++ c :: rest)) =
      (done ++ blanks) ++ w :: (word' ++ c :: rest) := by simp
  have fromEnd : ∀ d, done ++ (blanks ++ (w :: word' ++ d :: rest)) =
      (done ++ blanks ++ w :: word') ++ d :: rest := by simp
  have start : (done ++ blanks).length = done.length + blanks.length := length_append
  have finish : (done ++ blanks ++ w :: word').length =
      done.length + blanks.length + (w :: word').length := by
    rw [length_append, start]
  have here : charAt (done ++ (blanks ++ (w :: word' ++ c :: rest))) done.length = .ok b := by
    rw [head]
    exact charAt_append done text b
  have skipped : skipBlanks ((done ++ (blanks ++ (w :: word' ++ c :: rest))).drop done.length)
      done.length = .ok (done.length + blanks.length) := by
    rw [drop_left]
    exact skipBlanks_append all (solid w mem_cons_self) _ _
  have first : charAt (done ++ (blanks ++ (w :: word' ++ c :: rest)))
      (done.length + blanks.length) = .ok w := by
    rw [fromStart, ← start]
    exact charAt_append _ _ _
  have found : findEnd ((done ++ (blanks ++ (w :: word' ++ c :: rest))).drop
      (done.length + blanks.length)) (done.length + blanks.length) =
      .ok (done.length + blanks.length + (w :: word').length) := by
    rw [fromStart, ← start, drop_left]
    exact findEnd_append solid wordNoNul stops _ _
  have last : charAt (done ++ (blanks ++ (w :: word' ++ c :: rest)))
      (done.length + blanks.length + (w :: word').length) = .ok c := by
    rw [fromEnd, ← finish]
    exact charAt_append _ _ _
  have cut : (done ++ (blanks ++ (w :: word' ++ c :: rest))).set
      (done.length + blanks.length + (w :: word').length) 0 =
      done ++ (blanks ++ (w :: word' ++ 0 :: rest)) := by
    rw [fromEnd, fromEnd, ← finish, set_append_right _ _ (Nat.le_refl _), Nat.sub_self]
    rfl
  have stored : storeArg args (some (done.length + blanks.length)) =
      .ok (args ++ [some (done.length + blanks.length)]) := if_pos few
  refine (tokenize_step here nonzero skipped first wNonzero found stored last).trans ?_
  rw [cut]

end

theorem tokenize_blank {text : List UInt8} (all : ∀ c ∈ text, isBlank c = true)
    (noNul : 0 ∉ text) (room : Nat) (done : List UInt8) (args : List (Option Nat)) :
    tokenize room ⟨done ++ (text ++ [0]), args⟩ done.length =
      .ok ⟨done ++ (text ++ [0]), args⟩ := by
  cases text with
  | nil => exact tokenize_stop (charAt_append done [] 0) room
  | cons b text =>
    have nonzero : b ≠ 0 := fun zero => noNul (zero ▸ mem_cons_self)
    cases room with
    | zero => rfl
    | succ room =>
      have ended : charAt (done ++ (b :: text ++ [0])) (done.length + (b :: text).length) =
          .ok 0 := by
        rw [← append_assoc, ← length_append]
        exact charAt_append _ _ _
      rw [tokenize, cons_append, charAt_append]
      change (if b = 0 then _ else _) = _
      rw [if_neg nonzero, drop_left, ← cons_append,
        skipBlanks_append all (by decide : isBlank 0 = false)]
      change (charAt _ _ >>= _) = _
      rw [ended]
      rfl

/-- The tokenizer went from `done` to the end of a buffer of `size` bytes and found `words`
there. -/
structure Tokenized (done : List UInt8) (size : Nat) (args : List (Option Nat))
    (words : List (List UInt8)) (tokens : Tokens) : Prop where
  length : tokens.buffer.length = size
  kept : done <+: tokens.buffer
  found : ∃ pointers, tokens.args = args ++ pointers.map some ∧
    List.Forall₂ (TerminatedAt tokens.buffer) pointers words

theorem tokenized_none (done text : List UInt8) (args : List (Option Nat)) :
    Tokenized done (done.length + text.length + 1) args [] ⟨done ++ (text ++ [0]), args⟩ :=
  ⟨by simp [Nat.add_assoc], prefix_append _ _, [], by simp, .nil⟩

theorem tokenize_runs (room : Nat) (done text : List UInt8) (args : List (Option Nat))
    (noNul : 0 ∉ text) (few : args.length + room < shellMaxArgs) :
    ∃ tokens, tokenize room ⟨done ++ (text ++ [0]), args⟩ done.length = .ok tokens ∧
      Tokenized done (done.length + text.length + 1) args ((runs isBlank text).take room)
        tokens := by
  induction room generalizing done text args with
  | zero => exact ⟨_, rfl, tokenized_none done text args⟩
  | succ room ih =>
    have roomLeft : args.length < shellMaxArgs := by omega
    cases Text.firstRun isBlank text with
    | none _ all =>
      have noRun := Text.runs_blanks all []
      rw [append_nil, Text.runs_nil] at noRun
      rw [noRun]
      exact ⟨_, tokenize_blank all noNul _ done args, tokenized_none done text args⟩
    | last blanks word all nonempty solid =>
      have round : tokenize (room + 1) ⟨done ++ (blanks ++ (word ++ [0])), args⟩ done.length = _ :=
        tokenize_word all nonempty solid noNul (.inl rfl) roomLeft
      rw [if_neg (by simp)] at round
      have place : (done ++ blanks ++ word).length = done.length + blanks.length + word.length := by
        rw [length_append, length_append]
      have ended : charAt (done ++ (blanks ++ (word ++ [0])))
          (done.length + blanks.length + word.length) = .ok 0 := by
        rw [← place, ← append_assoc, ← append_assoc]
        exact charAt_append _ _ _
      rw [Text.runs_blanks all, Text.runs_word nonempty solid, append_assoc, round,
        take_succ_cons, take_nil]
      refine ⟨_, tokenize_stop ended _, ?_, prefix_append _ _,
        [done.length + blanks.length], rfl, .cons ⟨?_, [], ?_⟩ .nil⟩
      · simp [Nat.add_assoc]
      · exact fun member => noNul (mem_append_right blanks member)
      · rw [← append_assoc, ← length_append, drop_left]
    | more blanks word c rest all nonempty solid ends =>
      have nonzero : c ≠ 0 := by
        rintro rfl
        contradiction
      have wordNoNul : 0 ∉ blanks ++ word := by
        intro member
        apply noNul
        rw [← append_assoc]
        exact mem_append_left _ member
      have restNoNul : 0 ∉ rest := by
        intro member
        apply noNul
        simp [member]
      have round : tokenize (room + 1) ⟨done ++ (blanks ++ (word ++ c :: (rest ++ [0]))), args⟩
          done.length = _ := tokenize_word all nonempty solid wordNoNul (.inr ends) roomLeft
      rw [if_pos nonzero] at round
      -- The next round starts behind the terminator that took the place of `c`.
      have behind : (done ++ (blanks ++ (word ++ [0]))).length =
          done.length + blanks.length + word.length + 1 := by
        simp [Nat.add_assoc]
      have next : done ++ (blanks ++ (word ++ 0 :: (rest ++ [0]))) =
          (done ++ (blanks ++ (word ++ [0]))) ++ (rest ++ [0]) := by simp
      obtain ⟨tokens, returned, length, ⟨tail, kept⟩, pointers, args', terminated⟩ :=
        ih (done ++ (blanks ++ (word ++ [0]))) rest (args ++ [some (done.length + blanks.length)])
          restNoNul (by rw [length_append]; simp; omega)
      rw [behind, ← next] at returned
      refine ⟨tokens, ?_, ?_, ?_, (done.length + blanks.length) :: pointers, ?_, ?_⟩
      · rw [← returned, ← round]
        simp
      · rw [length, behind]
        simp
        omega
      · rw [← kept, append_assoc]
        exact prefix_append _ _
      · rw [args']
        simp
      · rw [Text.runs_blanks all, Text.runs_word_blank nonempty solid ends, take_succ_cons]
        have whole : done ++ (blanks ++ (word ++ [0])) ++ tail =
            (done ++ blanks) ++ (word ++ 0 :: tail) := by simp
        refine .cons ⟨fun member => wordNoNul (mem_append_right blanks member), tail, ?_⟩
          terminated
        rw [← kept, whole, ← length_append, drop_left]

section

theorem bytes_injective : Function.Injective CString.bytes := by
  intro first second same
  cases first
  cases second
  cases same
  rfl

variable {commands : List ShellCommand} {line : CString} {s : Session}

theorem withoutLeading_runs (line : List UInt8) :
    runs isBlank (withoutLeading line) = runs isBlank line := by
  induction line with
  | nil => rfl
  | cons c line ih =>
    rw [withoutLeading, dropWhile_cons]
    split
    · next leading =>
      have blank : isBlank c = true := by
        rw [isBlank, leading]
        rfl
      rw [Text.runs_blank blank]
      exact ih
    · rfl

theorem withoutLeading_noNul (line : CString) : 0 ∉ withoutLeading line.bytes :=
  fun member => line.noNul ((dropWhile_sublist _).subset member)

theorem stringAt_terminated {buffer word : List UInt8} {p : Nat}
    (terminated : TerminatedAt buffer p word) : (stringAt buffer p).bytes = word := by
  obtain ⟨noNul, rest, found⟩ := terminated
  have nonzero : ∀ c ∈ word, decide (c ≠ 0) = true := by
    intro c member
    rw [decide_eq_true_eq]
    rintro rfl
    exact noNul member
  simp only [stringAt, found]
  rw [takeWhile_append_of_pos nonzero]
  simp

/-- What the tokenizer makes of a copy of `line`. -/
structure Parsed (line : List UInt8) (tokens : Tokens) : Prop where
  length : tokens.buffer.length = line.length + 1
  argv : ∃ pointers, tokens.args = pointers.map some ++ [none] ∧
    List.Forall₂ (TerminatedAt tokens.buffer) pointers ((runs isBlank line).take 15)

theorem parse_parsed {line : List UInt8} (noNul : 0 ∉ line) :
    ∃ tokens, parse (line ++ [0]) = .ok tokens ∧ Parsed line tokens := by
  obtain ⟨tokens, returned, length, -, pointers, args, terminated⟩ :=
    tokenize_runs (shellMaxArgs - 1) [] line [] noNul (by decide)
  have count := terminated.length_eq
  have most : tokens.args.length < shellMaxArgs := by
    rw [args, nil_append, length_map, count]
    exact Nat.lt_succ_of_le (length_take_le _ _)
  refine ⟨⟨tokens.buffer, tokens.args ++ [none]⟩, ?_, ?_, pointers, ?_, terminated⟩
  · have stored : storeArg tokens.args none = .ok (tokens.args ++ [none]) := if_pos most
    rw [parse, show tokenize (shellMaxArgs - 1) ⟨line ++ [0], []⟩ 0 = .ok tokens from returned]
    change (storeArg tokens.args none >>= _) = _
    rw [stored]
    rfl
  · rw [length]
    simp
  · rw [args]
    rfl

theorem Parsed.argv_bytes {line : List UInt8} (parsed : Parsed line tokens) :
    tokens.argv.map CString.bytes = (runs isBlank line).take 15 := by
  obtain ⟨pointers, args, terminated⟩ := parsed.argv
  have strings : tokens.argv = pointers.map (stringAt tokens.buffer) := by
    rw [Tokens.argv, args]
    simp
  have equal := List.forall₂_map_left_iff.mpr
    (terminated.imp (fun p word isTerminated => stringAt_terminated isTerminated))
  rw [strings, map_map]
  rw [forall₂_eq_eq_eq] at equal
  exact equal

/--
What the shell does with a line: `words` are its first 15 runs of bytes other than space,
tab and newline. The block of the copy has the number of the next call of the heap.
-/
structure ProcessesLine (commands : List ShellCommand) (line : CString) (s : Session)
    (words : List (List UInt8)) : Prop where
  parsed : ∃ tokens, parse (withoutLeading line.bytes ++ [0]) = .ok tokens ∧
    tokens.buffer.length = (withoutLeading line.bytes).length + 1 ∧
    ∃ pointers, tokens.args = pointers.map some ++ [none] ∧
      List.Forall₂ (TerminatedAt tokens.buffer) pointers words
  blank : words = [] → ∃ s', shellProcessCommand commands (some line) s = .ok (0, s') ∧
    s'.toKernel = s.toKernel ∧ s'.heap.held = s.heap.held
  unknown : ∀ name args, words = name :: args →
    commands.find? (fun command => command.name.bytes = name) = none →
    ∃ s', shellProcessCommand commands (some line) s = .ok (-1, s') ∧ s'.files = s.files ∧
      s'.serial.sent = s.serial.sent ++ ascii "Command not found: " ++ Serial.serialPuts name ++
        ascii "\r\nType 'help' for available commands.\r\n" ∧
      s'.heap.held = s.heap.held
  known : ∀ name args, (name :: args).map CString.bytes = words → ∀ command,
    commands.find? (fun command => command.name.bytes = name.bytes) = some command →
    ∀ result s', command.handler (name :: args) (s.withHeap s.heap.hold) = .ok (result, s') →
    shellProcessCommand commands (some line) s =
      .ok (result, s'.withHeap (s'.heap.release s.heap.calls))
  freed : ∀ result s', shellProcessCommand commands (some line) s = .ok (result, s') →
    s.heap.calls ∉ s'.heap.held

theorem shellGetCommand_eq (commands : List ShellCommand) (name : CString) :
    shellGetCommand commands name =
      commands.find? (fun command => command.name.bytes = name.bytes) := by
  refine congrArg (List.find? · commands) (funext fun command => ?_)
  rw [beq_eq_decide _ _, decide_eq_decide]
  exact Strings.strcmp_eq_zero command.name.noNul name.noNul

theorem shellProcessCommand_eq (memory : ∀ size, s.heap.finds s.heap.calls size = true)
    (inMemory : line.bytes.length + 1 < 2 ^ 32) (text : withoutLeading line.bytes ≠ [])
    (parsed : parse (withoutLeading line.bytes ++ [0]) = .ok tokens) :
    shellProcessCommand commands (some line) s =
      runCommand commands s.heap.calls tokens.argv (s.withHeap s.heap.hold) := by
  have short : (withoutLeading line.bytes).length ≤ line.bytes.length :=
    (dropWhile_sublist _).length_le
  have size : (UInt32.ofNat ((withoutLeading line.bytes).length + 1)).toNat =
      (withoutLeading line.bytes).length + 1 := by
    rw [UInt32.toNat_ofNat', Nat.mod_eq_of_lt (by omega)]
  have positive : UInt32.ofNat ((withoutLeading line.bytes).length + 1) ≠ 0 := by
    intro zero
    rw [zero] at size
    contradiction
  have copied : strcpy (UInt32.ofNat ((withoutLeading line.bytes).length + 1))
      (withoutLeading line.bytes) = .ok (withoutLeading line.bytes ++ [0]) :=
    if_pos (Nat.le_of_eq size.symm)
  rw [shellProcessCommand, if_neg text, bind_ok (kmalloc_ok positive (memory _))]
  dsimp only
  rw [bind_ok (checked_ok copied), bind_ok (checked_ok parsed)]

theorem runCommand_freed {lineCopy : Nat} {argv : List CString} {result : Int} {s' : Session}
    (returned : runCommand commands lineCopy argv s = .ok (result, s')) :
    lineCopy ∉ s'.heap.held := by
  cases argv with
  | nil =>
    cases returned
    exact Finset.notMem_erase _ _
  | cons name args =>
    cases found : shellGetCommand commands name with
    | none =>
      rw [runCommand, found] at returned
      cases returned
      exact Finset.notMem_erase _ _
    | some command =>
      rw [runCommand, found] at returned
      obtain ⟨value, between, -, returned⟩ := bind_inv returned
      cases returned
      exact Finset.notMem_erase _ _

theorem shellProcessCommand_freed {result : Int} {s' : Session}
    (memory : ∀ size, s.heap.finds s.heap.calls size = true)
    (inMemory : line.bytes.length + 1 < 2 ^ 32)
    (returned : shellProcessCommand commands (some line) s = .ok (result, s')) :
    s.heap.calls ∉ s'.heap.held := by
  by_cases text : withoutLeading line.bytes = []
  · rw [shellProcessCommand, if_pos text] at returned
    cases returned
    exact fun member => Nat.lt_irrefl _ (s.heap.earlier _ member)
  · obtain ⟨tokens, parsed, -⟩ := parse_parsed (withoutLeading_noNul line)
    rw [shellProcessCommand_eq memory inMemory text parsed] at returned
    exact runCommand_freed returned

theorem isBlank_eq : isBlank = fun c => decide (c ∈ ascii " \t\n") := by
  funext c
  simp [isBlank, ascii, Bool.or_assoc, Bool.beq_eq_decide_eq]

end

theorem processes_line (commands : List ShellCommand) (line : CString) (s : Session)
    (memory : ∀ size, s.heap.finds s.heap.calls size = true)
    (inMemory : line.bytes.length + 1 < 2 ^ 32) :
    ProcessesLine commands line s
      ((runs (fun c => decide (c ∈ ascii " \t\n")) line.bytes).take 15) := by
  obtain ⟨tokens, returned, parsed⟩ := parse_parsed (withoutLeading_noNul line)
  have argv := parsed.argv_bytes
  obtain ⟨pointers, args, terminated⟩ := parsed.argv
  rw [withoutLeading_runs] at argv terminated
  rw [← isBlank_eq]
  -- Without a word in it the line may end before anything is allocated.
  have course : (runs isBlank line.bytes).take 15 ≠ [] →
      shellProcessCommand commands (some line) s =
        runCommand commands s.heap.calls tokens.argv (s.withHeap s.heap.hold) := by
    intro word
    refine shellProcessCommand_eq memory inMemory (fun empty => word ?_) returned
    rw [← withoutLeading_runs, empty]
    rfl
  have argvNil : (runs isBlank line.bytes).take 15 = [] → tokens.argv = [] := by
    intro none
    rw [none] at argv
    exact List.map_eq_nil_iff.mp argv
  constructor
  case parsed => exact ⟨tokens, returned, parsed.length, pointers, args, terminated⟩
  case freed => exact fun result s' => shellProcessCommand_freed memory inMemory
  case blank =>
    intro none
    by_cases text : withoutLeading line.bytes = []
    · exact ⟨s, by rw [shellProcessCommand, if_pos text]; rfl, rfl, rfl⟩
    · rw [shellProcessCommand_eq memory inMemory text returned, argvNil none]
      exact ⟨_, rfl, rfl, s.heap.hold_release⟩
  case unknown =>
    intro name args words missing
    rw [words] at argv course
    obtain ⟨first, rest, split, rfl, -⟩ := List.map_eq_cons_iff.mp argv
    have notFound : shellGetCommand commands first = none := by
      rw [shellGetCommand_eq]
      exact missing
    rw [course (List.cons_ne_nil _ _), split, runCommand, notFound]
    refine ⟨_, rfl, rfl, ?_, s.heap.hold_release⟩
    have texts : Serial.serialPuts (ascii "\n") ++
        Serial.serialPuts (ascii "Type 'help' for available commands.\n") =
        ascii "\r\nType 'help' for available commands.\r\n" := rfl
    rw [← texts, ← List.append_assoc]
    rfl
  case known =>
    intro name args words command found result s' ran
    have same : tokens.argv = name :: args :=
      List.map_injective_iff.mpr bytes_injective (argv.trans words.symm)
    have isFound : shellGetCommand commands name = some command := by
      rw [shellGetCommand_eq]
      exact found
    have word : (runs isBlank line.bytes).take 15 ≠ [] := by
      rw [← words]
      exact List.cons_ne_nil _ _
    rw [course word, same, runCommand, isFound]
    exact bind_ok ran _

theorem processes_line_words : ∃ s',
    shellProcessCommand [⟨literal "ls", fun argv => pure argv.length⟩]
      (some (literal " ls\t -l ")) (freshSession Fs.bootState) = .ok (2, s') ∧
    s'.heap.held = ∅ := by
  obtain ⟨-, -, -, known, -⟩ := processes_line [⟨literal "ls", fun argv => pure argv.length⟩]
    (literal " ls\t -l ") (freshSession Fs.bootState) (fun _ => rfl) (by decide)
  have returned := known (literal "ls") [literal "-l"] (by decide +kernel) _ rfl 2 _ rfl
  exact ⟨_, returned, rfl⟩

end ArgoOS.Shell
