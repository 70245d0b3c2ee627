import Mathlib
import ArgoOS.Shared.Run

set_option autoImplicit false

/-!
# The keyboard

`keyboard.c` takes scancodes from one port in two ways: the interrupt handler and the
polling of `keyboard_is_key_available`, which the shell calls before `keyboard_get_key`.
-/

namespace ArgoOS.Keyboard

open Stepper List

-- The tables give no value for the last scancodes, which are 0 then.
def keyboardMap : List UInt8 :=
  [0, 27, 49, 50, 51, 52, 53, 54, 55, 56, 57, 48, 45, 61, 8,
    9, 113, 119, 101, 114, 116, 121, 117, 105, 111, 112, 91, 93, 10,
    0, 97, 115, 100, 102, 103, 104, 106, 107, 108, 59, 39, 96,
    0, 92, 122, 120, 99, 118, 98, 110, 109, 44, 46, 47, 0,
    42, 0, 32, 0, 0, 0, 0, 0, 0, 0, 0, 0, 0, 0, 0,
    0, 0, 0, 0, 45, 0, 0, 0, 43]

def keyboardMapShift : List UInt8 :=
  [0, 27, 33, 64, 35, 36, 37, 94, 38, 42, 40, 41, 95, 43, 8,
    9, 81, 87, 69, 82, 84, 89, 85, 73, 79, 80, 123, 125, 10,
    0, 65, 83, 68, 70, 71, 72, 74, 75, 76, 58, 34, 126,
    0, 124, 90, 88, 67, 86, 66, 78, 77, 60, 62, 63, 0,
    42, 0, 32, 0, 0, 0, 0, 0, 0, 0, 0, 0, 0, 0, 0,
    0, 0, 0, 0, 45, 0, 0, 0, 43]

structure Modifiers where
  shiftPressed : Bool
  capsLock : Bool
deriving DecidableEq, Repr

-- The globals of the driver. No callback is ever registered.
structure Driver where
  lastKey : UInt8
  keyAvailable : Bool
  modifiers : Modifiers
deriving DecidableEq, Repr

def keyboardInit : Driver := ⟨0, false, ⟨false, false⟩⟩

def keyboardScancodeToAscii (modifiers : Modifiers) (scancode : UInt8) : UInt8 :=
  if 128 ≤ scancode then 0
  else
    let useShift := modifiers.shiftPressed ^^ modifiers.capsLock
    (if useShift then keyboardMapShift else keyboardMap).getD scancode.toNat 0

-- The part that `keyboard_handler` and `keyboard_poll` share: the character, or 0.
def translate (driver : Driver) (scancode : UInt8) : Driver × UInt8 :=
  let modifiers := driver.modifiers
  if scancode = 0x2A ∨ scancode = 0x36 then
    ({ driver with modifiers := { modifiers with shiftPressed := true } }, 0)
  else if scancode = 0xAA ∨ scancode = 0xB6 then
    ({ driver with modifiers := { modifiers with shiftPressed := false } }, 0)
  else if scancode = 0x3A then
    ({ driver with modifiers := { modifiers with capsLock := !modifiers.capsLock } }, 0)
  else if scancode &&& 0x80 ≠ 0 then (driver, 0)
  else (driver, keyboardScancodeToAscii modifiers scancode)

def keyboardHandler (driver : Driver) (scancode : UInt8) : Driver :=
  let (driver, character) := translate driver scancode
  if character ≠ 0 then { driver with lastKey := character, keyAvailable := true } else driver

-- The controller: the scancodes that nobody has read, oldest first, and what the data port
-- shows when there is none.
structure Controller where
  pending : List UInt8
  output : UInt8
deriving DecidableEq, Repr

def Controller.read (controller : Controller) : UInt8 × Controller :=
  match controller.pending with
  | [] => (controller.output, controller)
  | scancode :: rest => (scancode, ⟨rest, scancode⟩)

def keyboardPoll (driver : Driver) (controller : Controller) : Driver × Controller × UInt8 :=
  if controller.pending = [] then (driver, controller, 0)
  else
    let modifiers := driver.modifiers
    let (scancode, controller) := controller.read
    if scancode = 0x2A ∨ scancode = 0x36 then
      ({ driver with modifiers := { modifiers with shiftPressed := true } }, controller, 0)
    else if scancode = 0xAA ∨ scancode = 0xB6 then
      ({ driver with modifiers := { modifiers with shiftPressed := false } }, controller, 0)
    else if scancode = 0x3A then
      ({ driver with modifiers := { modifiers with capsLock := !modifiers.capsLock } }, controller, 0)
    else if scancode &&& 0x80 ≠ 0 then (driver, controller, 0)
    else (driver, controller, keyboardScancodeToAscii modifiers scancode)

def keyboardGetKey (driver : Driver) : Driver × UInt8 :=
  if driver.keyAvailable then ({ driver with keyAvailable := false }, driver.lastKey)
  else (driver, 0)

-- How far the reader is in `keyboard_is_key_available` and `keyboard_get_key`. An interrupt
-- can come between any two of these.
inductive Reader where
  -- The next access is that of the status port.
  | idle
  -- The status port showed a byte.
  | full
  | scanned (scancode : UInt8)
  -- `keyboard_poll` has returned a character.
  | polled (key : UInt8)
  -- `last_key` is set, `key_available` is not yet.
  | stored
  -- Between the two calls.
  | available
  -- `keyboard_get_key` has cleared `key_available` and returns `last_key` next.
  | cleared
deriving DecidableEq, Repr

structure Session where
  controller : Controller
  driver : Driver
  reader : Reader
deriving DecidableEq, Repr

inductive KeyAction where
  | press (scancode : UInt8)
  | interrupt
  | read
deriving DecidableEq, Repr

inductive KeyEvent where
  | pressed (scancode : UInt8)
  | returned (key : UInt8)
deriving DecidableEq, Repr

def Session.read (s : Session) : Session × List KeyEvent :=
  match s.reader with
  | .idle => ({ s with reader := if s.controller.pending = [] then .idle else .full }, [])
  | .full =>
    let (scancode, controller) := s.controller.read
    ({ s with controller, reader := .scanned scancode }, [])
  | .scanned scancode =>
    let (driver, key) := translate s.driver scancode
    ({ s with driver, reader := if key = 0 then .idle else .polled key }, [])
  | .polled key => ({ s with driver := { s.driver with lastKey := key }, reader := .stored }, [])
  | .stored =>
    ({ s with driver := { s.driver with keyAvailable := true }, reader := .available }, [])
  | .available =>
    if s.driver.keyAvailable then
      ({ s with driver := { s.driver with keyAvailable := false }, reader := .cleared }, [])
    else ({ s with reader := .idle }, [.returned 0])
  | .cleared => ({ s with reader := .idle }, [.returned s.driver.lastKey])

def keyStep (s : Session) : KeyAction → Option (Session × List KeyEvent)
  | .press scancode =>
    let controller := { s.controller with pending := s.controller.pending ++ [scancode] }
    some ({ s with controller }, [.pressed scancode])
  | .interrupt =>
    let (scancode, controller) := s.controller.read
    some ({ s with controller, driver := keyboardHandler s.driver scancode }, [])
  | .read => some s.read

section

def Modifiers.after (modifiers : Modifiers) (scancode : UInt8) : Modifiers where
  shiftPressed :=
    if scancode ∈ [0x2A, 0x36] then true
    else if scancode ∈ [0xAA, 0xB6] then false
    else modifiers.shiftPressed
  capsLock := if scancode = 0x3A then !modifiers.capsLock else modifiers.capsLock

-- The character of a key press; the releases are the scancodes from 0x80 on.
def character (modifiers : Modifiers) (scancode : UInt8) : Option UInt8 :=
  if scancode ∈ [0x2A, 0x36, 0x3A] ∨ 0x80 ≤ scancode then none
  else
    let key := keyboardScancodeToAscii modifiers scancode
    if key = 0 then none else some key

def typed (modifiers : Modifiers) : List UInt8 → List UInt8
  | [] => []
  | scancode :: rest =>
    (character modifiers scancode).toList ++ typed (modifiers.after scancode) rest

theorem typed_append (modifiers : Modifiers) (first second : List UInt8) :
    typed modifiers (first ++ second) =
      typed modifiers first ++ typed (first.foldl Modifiers.after modifiers) second := by
  induction first generalizing modifiers with
  | nil => rfl
  | cons scancode rest ih => simp [typed, ih]

end

theorem release_iff (scancode : UInt8) : scancode &&& 0x80 ≠ 0 ↔ 0x80 ≤ scancode := by
  cases scancode with
  | ofBitVec bits =>
    revert bits
    decide

theorem translate_eq (driver : Driver) (scancode : UInt8) :
    translate driver scancode = ({ driver with modifiers := driver.modifiers.after scancode },
      (character driver.modifiers scancode).getD 0) := by
  unfold translate Modifiers.after character
  by_cases shift : scancode = 0x2A ∨ scancode = 0x36
  · rcases shift with rfl | rfl <;> rfl
  by_cases unshift : scancode = 0xAA ∨ scancode = 0xB6
  · rcases unshift with rfl | rfl <;> rfl
  by_cases caps : scancode = 0x3A
  · subst caps
    rfl
  simp only [shift, unshift, caps, if_false, mem_cons, not_mem_nil, or_false, false_or,
    release_iff]
  by_cases released : 0x80 ≤ scancode
  · simp [released]
  · by_cases key : keyboardScancodeToAscii driver.modifiers scancode = 0 <;>
      simp [released, key]

variable {scancode : UInt8} {driver : Driver}

theorem character_ne_zero {modifiers : Modifiers} {key : UInt8}
    (char : character modifiers scancode = some key) : key ≠ 0 := by
  simp only [character] at char
  split at char
  · contradiction
  · split at char
    · contradiction
    · next nonzero =>
      cases char
      exact nonzero

theorem keyboardHandler_silent (silent : character driver.modifiers scancode = none) :
    keyboardHandler driver scancode =
      { driver with modifiers := driver.modifiers.after scancode } := by
  simp [keyboardHandler, translate_eq, silent]

theorem keyboardHandler_key {key : UInt8} (char : character driver.modifiers scancode = some key) :
    keyboardHandler driver scancode =
      ⟨key, true, driver.modifiers.after scancode⟩ := by
  simp [keyboardHandler, translate_eq, char, character_ne_zero char]

def pressed (history : List KeyEvent) : List UInt8 :=
  history.reverse.filterMap fun
    | .pressed scancode => some scancode
    | .returned _ => none

def returned (history : List KeyEvent) : List UInt8 :=
  history.reverse.filterMap fun
    | .pressed _ => none
    | .returned key => some key

-- An interrupt is late, and reads a byte again that changes nothing the reader still uses,
-- or reads a scancode without a character, and then not while the reader is between its look
-- at the status port and the end of the translation.
def TakesNoKey (s : Session) : KeyAction → Prop
  | .interrupt =>
    match s.controller.pending with
    | [] => s.driver.modifiers.after s.controller.output = s.driver.modifiers ∧
        (s.reader ∈ [.stored, .available, .cleared] →
          character s.driver.modifiers s.controller.output ∈ [none, some s.driver.lastKey])
    | scancode :: _ => character s.driver.modifiers scancode = none ∧
        s.reader ∈ [.idle, .stored, .available, .cleared]
  | _ => True

instance : ∀ (s : Session) (action : KeyAction), Decidable (TakesNoKey s action)
  | ⟨⟨[], _⟩, _, _⟩, .interrupt => inferInstanceAs (Decidable (_ ∧ (_ → _)))
  | ⟨⟨_ :: _, _⟩, _, _⟩, .interrupt => inferInstanceAs (Decidable (_ ∧ _))
  | _, .press _ => inferInstanceAs (Decidable True)
  | _, .read => inferInstanceAs (Decidable True)

def Session.unread (s : Session) : List UInt8 :=
  match s.reader with
  | .scanned scancode => scancode :: s.controller.pending
  | _ => s.controller.pending

def Session.underway (s : Session) : List UInt8 :=
  match s.reader with
  | .polled key => [key]
  | .stored | .available | .cleared => [s.driver.lastKey]
  | _ => []

structure KeyInv (history : List KeyEvent) (s : Session) : Prop where
  full : s.reader = .full → s.controller.pending ≠ []
  available : s.reader = .available → s.driver.keyAvailable = true
  modifiers : s.unread.foldl Modifiers.after s.driver.modifiers =
    (pressed history).foldl Modifiers.after ⟨false, false⟩
  keys : returned history ++ s.underway ++ typed s.driver.modifiers s.unread =
    typed ⟨false, false⟩ (pressed history)

section

variable {history : List KeyEvent} {s : Session}

section

variable (inv : KeyInv history s)

include inv

theorem KeyInv.press (scancode : UInt8) :
    KeyInv (.pressed scancode :: history) { s with
      controller := { s.controller with pending := s.controller.pending ++ [scancode] } } := by
  obtain ⟨full, available, modifiers, keys⟩ := inv
  have added : pressed (.pressed scancode :: history) = pressed history ++ [scancode] := by
    simp [pressed]
  have kept : returned (.pressed scancode :: history) = returned history := by simp [returned]
  have unread : Session.unread { s with
      controller := { s.controller with pending := s.controller.pending ++ [scancode] } } =
        s.unread ++ [scancode] := by
    unfold Session.unread
    cases s.reader <;> rfl
  refine ⟨fun _ => by simp, available, ?_, ?_⟩
  · rw [unread, added, foldl_append, foldl_append, modifiers]
  · rw [unread, added, kept, typed_append, typed_append, ← modifiers, ← keys]
    simp only [append_assoc]
    rfl

theorem KeyInv.interrupt (met : TakesNoKey s .interrupt) :
    KeyInv history { s with
      controller := s.controller.read.2
      driver := keyboardHandler s.driver s.controller.read.1 } := by
  obtain ⟨⟨pending, output⟩, driver, reader⟩ := s
  obtain ⟨full, available, modifiers, keys⟩ := inv
  cases pending with
  | nil =>
    obtain ⟨unchanged, underway⟩ := met
    simp only [Controller.read] at unchanged underway ⊢
    cases char : character driver.modifiers output with
    | none =>
      rw [keyboardHandler_silent char, unchanged]
      exact ⟨full, available, modifiers, keys⟩
    | some key =>
      rw [keyboardHandler_key char, unchanged]
      refine ⟨full, fun _ => rfl, modifiers, ?_⟩
      have same : reader ∈ [.stored, .available, .cleared] → key = driver.lastKey := by
        simpa [char] using underway
      rw [← keys]
      cases reader <;> first | rfl | rw [same (by simp)]; rfl
  | cons scancode rest =>
    obtain ⟨silent, reader_mem⟩ := met
    simp only [Controller.read, keyboardHandler_silent silent]
    simp only [mem_cons, not_mem_nil, or_false] at reader_mem
    have skipped : typed driver.modifiers (scancode :: rest) =
        typed (driver.modifiers.after scancode) rest := by
      simp [typed, show character driver.modifiers scancode = none from silent]
    rcases reader_mem with rfl | rfl | rfl | rfl <;>
      exact ⟨by simp, available, modifiers, skipped ▸ keys⟩

theorem KeyInv.read : KeyInv (s.read.2 ++ history) s.read.1 := by
  obtain ⟨⟨pending, output⟩, driver, reader⟩ := s
  obtain ⟨full, available, modifiers, keys⟩ := inv
  cases reader with
  | idle =>
    by_cases empty : pending = []
    · simp only [Session.read, empty, if_true] at *
      exact ⟨by simp, by simp, modifiers, keys⟩
    · simp only [Session.read, empty, if_false]
      exact ⟨fun _ => empty, by simp, modifiers, keys⟩
  | full =>
    obtain ⟨scancode, rest, rfl⟩ := exists_cons_of_ne_nil (full rfl)
    exact ⟨by simp [Session.read], by simp [Session.read], modifiers, keys⟩
  | scanned scancode =>
    cases char : character driver.modifiers scancode with
    | none =>
      simp only [Session.read, translate_eq, char, Option.getD_none, if_true]
      refine ⟨by simp, by simp, modifiers, ?_⟩
      simpa [Session.underway, Session.unread, typed, char] using keys
    | some key =>
      have nonzero := character_ne_zero char
      simp only [Session.read, translate_eq, char, Option.getD_some, nonzero, if_false]
      refine ⟨by simp, by simp, modifiers, ?_⟩
      simpa [Session.underway, Session.unread, typed, char] using keys
  | polled key => exact ⟨by simp [Session.read], by simp [Session.read], modifiers, keys⟩
  | stored => exact ⟨by simp [Session.read], by simp [Session.read], modifiers, keys⟩
  | available =>
    have set : driver.keyAvailable = true := available rfl
    simp only [Session.read, set, if_true]
    exact ⟨by simp, by simp, modifiers, keys⟩
  | cleared =>
    refine ⟨by simp [Session.read], by simp [Session.read], ?_, ?_⟩
    · simpa [Session.read, Session.unread, pressed] using modifiers
    · simpa [Session.read, Session.unread, Session.underway, pressed, returned] using keys

theorem keyStep_inv {s' : Session} {action : KeyAction} {events : List KeyEvent}
    (met : TakesNoKey s action) (taken : keyStep s action = some (s', events)) :
    KeyInv (events ++ history) s' := by
  cases action with
  | press scancode =>
    cases taken
    exact inv.press scancode
  | interrupt =>
    cases taken
    exact inv.interrupt met
  | read =>
    obtain ⟨rfl, rfl⟩ := Prod.mk.injEq _ _ _ _ ▸ Option.some.inj taken
    exact inv.read

end

end

theorem keys_returned_in_order (controller : Controller) (empty : controller.pending = [])
    (history : List KeyEvent) (s : Session)
    (run : Run keyStep TakesNoKey ⟨controller, keyboardInit, .idle⟩ history s)
    (idle : s.reader = .idle) (drained : s.controller.pending = []) :
    returned history = typed ⟨false, false⟩ (pressed history) := by
  have start : KeyInv [] ⟨controller, keyboardInit, .idle⟩ :=
    ⟨by simp, by simp, by simp [Session.unread, empty, pressed, keyboardInit],
      by simp [Session.unread, Session.underway, empty, pressed, returned, typed]⟩
  have reached := run.invariant KeyInv start fun _ _ _ _ _ inv met taken => keyStep_inv inv met taken
  have keys := reached.keys
  simpa [Session.unread, Session.underway, idle, drained, typed] using keys

theorem keys_returned_shifted : ∃ history s,
    Run keyStep TakesNoKey ⟨⟨[], 0⟩, keyboardInit, .idle⟩ history s ∧
      pressed history = [0x2A, 0x1E] ∧
      returned history = typed ⟨false, false⟩ (pressed history) := by
  obtain ⟨history, s, run, check⟩ := Run.exists_of_actions keyStep TakesNoKey
    ⟨⟨[], 0⟩, keyboardInit, .idle⟩
    [.press 0x2A, .interrupt, .press 0x1E, .read, .read, .read, .interrupt, .read, .read, .read,
      .read]
    (fun history s => pressed history = [0x2A, 0x1E] ∧ s.reader = .idle ∧
      s.controller.pending = [])
    (by decide +kernel)
  obtain ⟨scancodes, idle, drained⟩ := of_decide_eq_true check
  exact ⟨history, s, run, scancodes, keys_returned_in_order ⟨[], 0⟩ rfl history s run idle drained⟩

-- The interrupt stores the character, but the reader polls for another one.
theorem interrupt_loses_key : ∃ history s,
    Run keyStep (fun _ _ => True) ⟨⟨[], 0⟩, keyboardInit, .idle⟩ history s ∧
      s.reader = .idle ∧ s.controller.pending = [] ∧
      returned history ≠ typed ⟨false, false⟩ (pressed history) := by
  obtain ⟨history, s, run, check⟩ := Run.exists_of_actions keyStep (fun _ _ => True)
    ⟨⟨[], 0⟩, keyboardInit, .idle⟩ [.press 0x1E, .interrupt, .read]
    (fun history s => s.reader = .idle ∧ s.controller.pending = [] ∧
      returned history ≠ typed ⟨false, false⟩ (pressed history))
    (by decide +kernel)
  exact ⟨history, s, run, of_decide_eq_true check⟩

section

def handleAll (driver : Driver) : List UInt8 → Driver × List UInt8
  | [] => (driver, [])
  | scancode :: rest =>
    let (driver, key) := keyboardGetKey (keyboardHandler driver scancode)
    let (driver, keys) := handleAll driver rest
    (driver, key :: keys)

def pollAll (driver : Driver) (controller : Controller) : Nat → Driver × List UInt8
  | 0 => (driver, [])
  | polls + 1 =>
    let (driver, controller, key) := keyboardPoll driver controller
    let (driver, keys) := pollAll driver controller polls
    (driver, key :: keys)

def keyOf (scancode : UInt8) : UInt8 := scancode &&& 0x7F

def held (scancodes : List UInt8) (key : UInt8) : Bool :=
  scancodes.foldl (fun down scancode => if keyOf scancode = key then scancode < 0x80 else down) false

def shiftHeld (scancodes : List UInt8) : Bool := held scancodes 0x2A || held scancodes 0x36

def WellFormed (scancodes : List UInt8) : Prop :=
  ∀ i < scancodes.length, held (scancodes.take i) (keyOf (scancodes.getD i 0)) =
    decide (0x80 ≤ scancodes.getD i 0)

instance (scancodes : List UInt8) : Decidable (WellFormed scancodes) :=
  inferInstanceAs (Decidable (∀ i < scancodes.length, _))

-- The next scancode does not release one shift key while the other is down.
def ReleasesLast (scancodes : List UInt8) (next : UInt8) : Prop :=
  (next = 0xAA → held scancodes 0x36 = false) ∧ (next = 0xB6 → held scancodes 0x2A = false)

theorem keyboardPoll_eq (driver : Driver) (scancode : UInt8) (rest : List UInt8) (output : UInt8) :
    keyboardPoll driver ⟨scancode :: rest, output⟩ =
      ((translate driver scancode).1, ⟨rest, scancode⟩, (translate driver scancode).2) := by
  unfold keyboardPoll translate
  rw [if_neg (cons_ne_nil scancode rest)]
  simp only [Controller.read]
  by_cases shift : scancode = 0x2A ∨ scancode = 0x36
  · simp only [shift, if_true]
  by_cases unshift : scancode = 0xAA ∨ scancode = 0xB6
  · simp only [shift, unshift, if_true, if_false]
  by_cases caps : scancode = 0x3A
  · subst caps
    rfl
  · simp only [shift, unshift, caps, if_false]
    by_cases pressed : scancode &&& 0x80 = 0 <;> simp [pressed]

theorem getKey_handler (taken : driver.keyAvailable = false) (scancode : UInt8) :
    ∃ after, keyboardGetKey (keyboardHandler driver scancode) =
        (after, (character driver.modifiers scancode).getD 0) ∧
      after.modifiers = driver.modifiers.after scancode ∧ after.keyAvailable = false := by
  cases char : character driver.modifiers scancode with
  | none =>
    rw [keyboardHandler_silent char, keyboardGetKey, if_neg (by simp [taken])]
    exact ⟨_, rfl, rfl, taken⟩
  | some key =>
    rw [keyboardHandler_key char]
    exact ⟨_, rfl, rfl, rfl⟩

theorem handleAll_pollAll (driver driver' : Driver) (same : driver.modifiers = driver'.modifiers)
    (taken : driver.keyAvailable = false) (scancodes more : List UInt8) (output : UInt8) :
    (handleAll driver scancodes).1.modifiers = scancodes.foldl Modifiers.after driver.modifiers ∧
    (pollAll driver' ⟨scancodes ++ more, output⟩ scancodes.length).1.modifiers =
      scancodes.foldl Modifiers.after driver.modifiers ∧
    (handleAll driver scancodes).2 =
      (pollAll driver' ⟨scancodes ++ more, output⟩ scancodes.length).2 := by
  induction scancodes generalizing driver driver' output with
  | nil => exact ⟨rfl, same.symm, rfl⟩
  | cons scancode rest ih =>
    obtain ⟨after, got, counted, free⟩ := getKey_handler taken scancode
    have counted' : (translate driver' scancode).1.modifiers = after.modifiers := by
      rw [translate_eq, counted, same]
    have key : (translate driver' scancode).2 = (character driver.modifiers scancode).getD 0 := by
      rw [translate_eq, same]
    obtain ⟨handled, polled, keys⟩ := ih after (translate driver' scancode).1 counted'.symm free
      scancode
    rw [counted] at handled polled
    simp only [handleAll, pollAll, got, cons_append, length_cons, keyboardPoll_eq, key,
      foldl_cons]
    exact ⟨handled, polled, congrArg _ keys⟩

theorem held_append (scancodes : List UInt8) (next key : UInt8) : held (scancodes ++ [next]) key =
    if keyOf next = key then decide (next < 0x80) else held scancodes key := by
  rw [held, foldl_append]
  rfl

theorem shift_step {modifiers : Modifiers} {scancodes : List UInt8} (next : UInt8)
    (follows : modifiers.shiftPressed = shiftHeld scancodes) :
    (modifiers.after next).shiftPressed = shiftHeld (scancodes ++ [next]) ↔
      ReleasesLast scancodes next := by
  have other : next ∉ [0x2A, 0x36, 0xAA, 0xB6] → keyOf next ≠ 0x2A ∧ keyOf next ≠ 0x36 := by
    cases next with
    | ofBitVec bits =>
      revert bits
      decide
  unfold shiftHeld at follows ⊢
  simp only [held_append, ReleasesLast, Modifiers.after]
  by_cases special : next ∈ [0x2A, 0x36, 0xAA, 0xB6]
  · simp only [mem_cons, not_mem_nil, or_false] at special
    have keys : keyOf 0x2A = 0x2A ∧ keyOf 0x36 = 0x36 ∧ keyOf 0xAA = 0x2A ∧ keyOf 0xB6 = 0x36 := by
      decide
    rcases special with rfl | rfl | rfl | rfl <;> simp [keys]
  · obtain ⟨left, right⟩ := other special
    simp only [mem_cons, not_mem_nil, or_false, not_or] at special
    simp [special, left, right, follows]

theorem shift_flag_iff (scancodes : List UInt8) (output : UInt8) :
    ((∀ i ≤ scancodes.length, (handleAll keyboardInit (scancodes.take i)).1.modifiers.shiftPressed =
        shiftHeld (scancodes.take i)) ↔
      ∀ i < scancodes.length, ReleasesLast (scancodes.take i) (scancodes.getD i 0)) ∧
    ∀ i ≤ scancodes.length,
      (handleAll keyboardInit (scancodes.take i)).1.modifiers =
        (pollAll keyboardInit ⟨scancodes, output⟩ i).1.modifiers ∧
      (handleAll keyboardInit (scancodes.take i)).2 =
        (pollAll keyboardInit ⟨scancodes, output⟩ i).2 := by
  have all (i : Nat) := handleAll_pollAll keyboardInit keyboardInit rfl rfl (scancodes.take i)
    (scancodes.drop i) output
  have step (i : Nat) (inside : i < scancodes.length)
      (follows : (handleAll keyboardInit (scancodes.take i)).1.modifiers.shiftPressed =
        shiftHeld (scancodes.take i)) :
      (handleAll keyboardInit (scancodes.take (i + 1))).1.modifiers.shiftPressed =
        shiftHeld (scancodes.take (i + 1)) ↔
      ReleasesLast (scancodes.take i) (scancodes.getD i 0) := by
    have next : scancodes.take (i + 1) = scancodes.take i ++ [scancodes.getD i 0] := by
      rw [List.take_add_one, List.getElem?_eq_getElem inside]
      simp [inside]
    rw [(all i).1] at follows
    rw [(all (i + 1)).1, next, List.foldl_append]
    exact shift_step _ follows
  refine ⟨⟨fun follows i inside => ?_, fun released i => ?_⟩, fun i inside => ?_⟩
  · exact (step i inside (follows i (by omega))).mp (follows (i + 1) inside)
  · induction i with
    | zero => exact fun _ => rfl
    | succ i ih => exact fun inside => (step i inside (ih (by omega))).mpr (released i inside)
  · have both := all i
    rw [List.take_append_drop, List.length_take, Nat.min_eq_left inside] at both
    exact ⟨both.1.trans both.2.1.symm, both.2.2⟩

-- Left shift down, right shift down, left shift up: the right one is still held.
theorem second_shift_lost : WellFormed [0x2A, 0x36, 0xAA] ∧ shiftHeld [0x2A, 0x36, 0xAA] = true ∧
    (handleAll keyboardInit [0x2A, 0x36, 0xAA]).1.modifiers.shiftPressed = false := by
  decide

end

end ArgoOS.Keyboard
