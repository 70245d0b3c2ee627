import ArgoOS.Shell.Copy

set_option autoImplicit false

/-! # Moving a file -/

namespace ArgoOS.Shell

open Fs (FileSystem CString Slot Names Sound Target Overwritten Removed Shows content oldContent
  namesWith leads view fsResolvePath typeFile)
open Text (ascii)

structure MoveKeeps (s s' : Session) (src dst : CString) (text : List UInt8) (result : Int) :
    Prop where
  kept : HoldsText s'.files src text ∨ HoldsText s'.files dst text
  moved : result = 0 → HoldsText s'.files dst text ∧
    (fsResolvePath s'.files (some src) = .ok none ∨
      fsResolvePath s.files (some dst) = fsResolvePath s.files (some src))

def KeepsText (fs : FileSystem) (slot : Slot) (text : List UInt8) (node : Slot) : Prop :=
  if node = slot then (oldContent fs slot).length ≤ text.length
  else (fs.inodes node).type = typeFile ∧ content fs node = text

def namesAfter (fs : FileSystem) (src dst : CString) (slot : Slot) : Names :=
  match leads fs (namesWith fs dst slot) src with
  | none => namesWith fs dst slot
  | some gone => (namesWith fs dst slot).remove gone

structure Moves (fs : FileSystem) (src dst : CString) (slot : Slot) (text : List UInt8) : Prop where
  found : ∃ node, leads fs (namesAfter fs src dst slot) dst = some node ∧
    KeepsText fs slot text node
  gone : leads fs (namesAfter fs src dst slot) src = none ∨
    fsResolvePath fs (some dst) = fsResolvePath fs (some src)

section

variable {fs now after : FileSystem} {src dst : CString} {slot gone : Slot} {text : List UInt8}

theorem target_unique {memory : Bool} {other : Slot} (one : Target fs dst memory slot)
    (two : Target fs dst memory other) : slot = other := by
  obtain ⟨resolved, -⟩ | ⟨missing, free, -⟩ := one
  · obtain ⟨resolved', -⟩ | ⟨missing, -⟩ := two
    · exact Option.some.inj (Except.ok.inj (resolved.symm.trans resolved'))
    · cases resolved.symm.trans missing
  · obtain ⟨resolved, -⟩ | ⟨-, free', -⟩ := two
    · cases missing.symm.trans resolved
    · exact Option.some.inj (free.symm.trans free')

theorem holdsText_iff {t : Names} (tree : Fs.TreeShaped after) (current : Fs.CurrentOk after)
    (rootDir : after.rootDir = fs.rootDir) (currentDir : after.currentDir = fs.currentDir)
    (shows : Shows after t)
    (texts : ∀ node, (after.inodes node).valid = true →
      ((after.inodes node).type = typeFile ∧ content after node = text ↔
        KeepsText fs slot text node)) (path : CString) :
    HoldsText after path text ↔
      ∃ node, leads fs t path = some node ∧ KeepsText fs slot text node := by
  obtain ⟨found, resolved, valid⟩ := tree.resolve_valid current (some path)
  have led : found = leads fs t path := by
    rw [shows.resolve tree current, leads, Fs.pathStart_congr rootDir currentDir] at resolved
    exact (Except.ok.inj resolved).symm
  rw [← led]
  constructor
  · rintro ⟨node, resolved', holds⟩
    have same : found = some node := Except.ok.inj (resolved.symm.trans resolved')
    exact ⟨node, same, (texts node (valid node same)).mp holds⟩
  · rintro ⟨node, rfl, keeps⟩
    exact ⟨node, resolved, (texts node (valid node rfl)).mpr keeps⟩

variable (overwritten : Overwritten fs now dst slot text)

include overwritten

theorem overwritten_keepsText (node : Slot) (valid : (now.inodes node).valid = true) :
    (now.inodes node).type = typeFile ∧ content now node = text ↔ KeepsText fs slot text node := by
  unfold KeepsText
  split
  · next same =>
    rw [same, and_iff_right overwritten.isFile, overwritten.content, List.append_right_eq_self,
      List.drop_eq_nil_iff]
  · next different =>
    obtain ⟨sameValid, kept⟩ := overwritten.others node different
    obtain ⟨type, contents⟩ := kept (sameValid ▸ valid)
    rw [type]
    exact and_congr_right fun isFile => by rw [contents isFile]

theorem removed_keepsText (removed : Removed now after gone) (node : Slot)
    (valid : (after.inodes node).valid = true) :
    (after.inodes node).type = typeFile ∧ content after node = text ↔
      KeepsText fs slot text node := by
  have different : node ≠ gone := by
    rintro rfl
    exact Bool.false_ne_true (removed.gone.symm.trans valid)
  obtain ⟨⟨-, type, size, sameValid, -⟩, -⟩ := removed.headers node different
  have before : (now.inodes node).valid = true := sameValid ▸ valid
  rw [← overwritten_keepsText overwritten node before, type]
  refine and_congr_right fun isFile => ?_
  obtain ⟨-, bytes, data⟩ := overwritten.fits node before isFile
  rw [content, content, removed.contents node different bytes data, data, size]

end

section

variable {s : Session} {name src dst : CString} {more : List CString} {source slot : Slot}
  (sound : Sound s.files) (resolved : fsResolvePath s.files (some src) = .ok (some source))
  (isFile : (s.files.inodes source).type = typeFile)

include sound resolved isFile

theorem cmdMv_stops (stops : ∀ slot, ¬Copies s source dst slot) :
    ∃ s', cmdMv (name :: src :: dst :: more) s = .ok (-1, s') ∧
      MoveKeeps s s' src dst (content s.files source) (-1) := by
  obtain ⟨s', failed, untouched⟩ := copyFile_stops sound resolved isFile stops
  have valid := sound.valid resolved
  refine ⟨s', ?_, .inl ⟨source, ?_, ?_, untouched.content valid⟩, nofun⟩
  · rw [cmdMv, bind_ok failed, if_pos (by decide)]
    rfl
  · rw [untouched.resolve sound.tree sound.current, resolved]
  · rw [untouched.inodes source valid, isFile]

theorem cmdMv_copies (copies : Copies s source dst slot) :
    ∃ result s', cmdMv (name :: src :: dst :: more) s = .ok (result, s') ∧
      (MoveKeeps s s' src dst (content s.files source) result ↔
        Moves s.files src dst slot (content s.files source)) := by
  obtain ⟨s1, copied, overwritten⟩ : ∃ s1, copyFile _ src dst s = .ok (0, s1) ∧ _ :=
    copyFile_copies sound resolved isFile copies
  have located : fsResolvePath s1.files (some src) =
      .ok (leads s.files (namesWith s.files dst slot) src) := by
    rw [overwritten.names.resolve overwritten.tree overwritten.current, leads, leads,
      Fs.pathStart_congr overwritten.rootDir overwritten.currentDir]
  cases led : leads s.files (namesWith s.files dst slot) src with
  | none =>
    rw [led] at located
    have names : namesAfter s.files src dst slot = namesWith s.files dst slot := by
      rw [namesAfter, led]
    have refused : fsRemove src s1 = .ok (-1, s1.withFiles s1.files) :=
      fsCall_ok (by rw [Fs.fsRemove, located])
    refine ⟨-1, s1.send (Serial.serialPuts
      (ascii "Warning: File copied but source could not be removed\n")), ?_, ?_⟩
    · rw [cmdMv, bind_ok copied, if_neg (by decide), bind_ok refused, if_pos (by decide), bind_ok rfl]
      rfl
    · have holds := holdsText_iff overwritten.tree overwritten.current overwritten.rootDir
        overwritten.currentDir overwritten.names (overwritten_keepsText overwritten) dst
      constructor
      · rintro ⟨⟨node, found, -⟩ | kept, -⟩
        · cases located.symm.trans found
        · rw [← names] at holds
          exact ⟨holds.mp kept, .inl (by rw [names, led])⟩
      · rintro ⟨found, -⟩
        rw [names] at found
        exact ⟨.inr (holds.mpr found), by simp⟩
  | some gone =>
    rw [led] at located
    have names : namesAfter s.files src dst slot = (namesWith s.files dst slot).remove gone := by
      rw [namesAfter, led]
    have goneFile : (s1.files.inodes gone).type = typeFile := by
      by_cases written : gone = slot
      · rw [written]
        exact overwritten.isFile
      · obtain rfl | isSlot := sound.leads_namesWith copies.target resolved led
        · rw [((overwritten.others gone written).2 (sound.valid resolved)).1, isFile]
        · exact absurd isSlot written
    obtain ⟨after, returned, removed, keeps, ⟨rootDir, currentDir⟩, shows⟩ :=
      overwritten.remove located goneFile
    have holds := holdsText_iff keeps.1 keeps.2 rootDir currentDir shows
      (removed_keepsText overwritten removed) dst
    have missing : fsResolvePath after (some src) = .ok none ↔
        leads s.files ((namesWith s.files dst slot).remove gone) src = none := by
      rw [shows.resolve keeps.1 keeps.2, leads, Fs.pathStart_congr rootDir currentDir, ← leads]
      exact ⟨Except.ok.inj, congrArg _⟩
    have done : fsRemove src s1 = .ok (0, s1.withFiles after) := fsCall_ok returned
    refine ⟨0, s1.withFiles after, ?_, ?_⟩
    · rw [cmdMv, bind_ok copied, if_neg (by decide), bind_ok done, if_neg (by decide)]
      rfl
    · constructor
      · rintro ⟨-, moved⟩
        obtain ⟨found, emptied⟩ := moved rfl
        refine ⟨names ▸ holds.mp found, ?_⟩
        rw [names, ← missing]
        exact emptied
      · rintro ⟨found, emptied⟩
        rw [names] at found
        rw [names, ← missing] at emptied
        exact ⟨.inr (holds.mpr found), fun _ => ⟨holds.mpr found, emptied⟩⟩

end

theorem mv_keeps_iff {s : Session} {name src dst : CString} {more : List CString} {source : Slot}
    (sound : Sound s.files) (resolved : fsResolvePath s.files (some src) = .ok (some source))
    (isFile : (s.files.inodes source).type = typeFile) :
    (∃ result s', cmdMv (name :: src :: dst :: more) s = .ok (result, s') ∧
      MoveKeeps s s' src dst (content s.files source) result) ↔
    ∀ slot, Copies s source dst slot → Moves s.files src dst slot (content s.files source) := by
  by_cases copies : ∃ slot, Copies s source dst slot
  · obtain ⟨slot, copies⟩ := copies
    obtain ⟨result, s', returned, keeps⟩ :=
      cmdMv_copies sound resolved isFile copies
    constructor
    · rintro ⟨result', found, same, kept⟩ other copies'
      rw [returned] at same
      cases same
      rw [← target_unique copies.target copies'.target]
      exact keeps.mp kept
    · intro moves
      exact ⟨result, s', returned, keeps.mpr (moves slot copies)⟩
  · have stops : ∀ slot, ¬Copies s source dst slot := fun slot made => copies ⟨slot, made⟩
    obtain ⟨s', returned, keeps⟩ := cmdMv_stops sound resolved isFile stops
    exact iff_of_true ⟨-1, s', returned, keeps⟩ fun slot made => absurd made (stops slot)

theorem mv_keeps_iff_renamed : ∃ history files,
    Stepper.Run Fs.numberStep Fs.KeepsCurrent Fs.freshFs history files ∧
    ∃ result s', cmdMv [literal "mv", literal "a", literal "b"] (freshSession files) =
        .ok (result, s') ∧
      MoveKeeps (freshSession files) s' (literal "a") (literal "b") (ascii "xy") result := by
  obtain ⟨history, files, run, passed⟩ := Stepper.Run.exists_of_actions Fs.numberStep
    Fs.KeepsCurrent Fs.freshFs (storing (literal "a") (ascii "xy"))
    (fun history files => decide (history.length ≤ 1 ∧
      fsResolvePath files (some (literal "a")) = .ok (some 1) ∧
      (files.inodes 1).type = typeFile ∧ content files 1 = ascii "xy" ∧
      fsResolvePath files (some (literal "b")) = .ok none ∧ files.freeSlot = some 2 ∧
      leads files (namesAfter files (literal "a") (literal "b") 2) (literal "b") = some 2 ∧
      (oldContent files 2).length = 0 ∧
      leads files (namesAfter files (literal "a") (literal "b") 2) (literal "a") = none))
    (by decide +kernel)
  obtain ⟨few, source, isFile, text, missing, free, found, length, gone⟩ :=
    of_decide_eq_true passed
  have sound : Sound (freshSession files).files := Fs.sound_in_runs run (by omega)
  refine ⟨history, files, run, ?_⟩
  rw [← text]
  refine (mv_keeps_iff sound source isFile).mpr ?_
  intro slot copies
  obtain ⟨resolved, -⟩ | ⟨-, free', -⟩ := copies.target
  · cases missing.symm.trans resolved
  · obtain rfl : 2 = slot := Option.some.inj (free.symm.trans free')
    refine ⟨⟨2, found, ?_⟩, .inl gone⟩
    rw [KeepsText, if_pos rfl]
    exact length.trans_le (Nat.zero_le _)

-- A file moved onto itself is removed, and a longer file keeps its end.
theorem mv_loses_file : ∃ history files onto after,
    Stepper.Run Fs.numberStep Fs.KeepsCurrent Fs.freshFs history files ∧
    (fsResolvePath files (some (literal "a")) = .ok (some 1) ∧ content files 1 = ascii "xy") ∧
    cmdMv [literal "mv", literal "a", literal "a"] (freshSession files) = .ok (0, onto) ∧
    fsResolvePath onto.files (some (literal "a")) = .ok none ∧
    cmdMv [literal "mv", literal "a", literal "b"] (freshSession files) = .ok (0, after) ∧
    fsResolvePath after.files (some (literal "a")) = .ok none ∧
    fsResolvePath after.files (some (literal "b")) = .ok (some 2) ∧
    content after.files 2 = ascii "xyng" := by
  obtain ⟨history, files, run, passed⟩ := Stepper.Run.exists_of_actions Fs.numberStep
    Fs.KeepsCurrent Fs.freshFs
    (storing (literal "a") (ascii "xy") ++ storing (literal "b") (ascii "long"))
    (fun _ files => decide (fsResolvePath files (some (literal "a")) = .ok (some 1) ∧
        content files 1 = ascii "xy") &&
      ((cmdMv [literal "mv", literal "a", literal "a"] (freshSession files)).toOption.any
        (fun r : Int × Session => decide (r.1 = 0 ∧
          fsResolvePath r.2.files (some (literal "a")) = .ok none)) &&
      (cmdMv [literal "mv", literal "a", literal "b"] (freshSession files)).toOption.any
        (fun r : Int × Session => decide (r.1 = 0 ∧
          fsResolvePath r.2.files (some (literal "a")) = .ok none ∧
          fsResolvePath r.2.files (some (literal "b")) = .ok (some 2) ∧
          content r.2.files 2 = ascii "xyng")))) (by decide +kernel)
  simp only [Bool.and_eq_true, decide_eq_true_eq] at passed
  obtain ⟨before, itself, longer⟩ := passed
  obtain ⟨_, onto, removed, checked⟩ := returned_of_any itself
  obtain ⟨rfl, gone⟩ := of_decide_eq_true checked
  obtain ⟨_, after, moved, checked⟩ := returned_of_any longer
  obtain ⟨rfl, emptied, found, held⟩ := of_decide_eq_true checked
  exact ⟨history, files, onto, after, run, before, removed, gone, moved, emptied, found, held⟩

end ArgoOS.Shell
