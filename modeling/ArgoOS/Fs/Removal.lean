import ArgoOS.Fs.Paths

set_option autoImplicit false

/-! # Removal and stale descriptors -/

namespace ArgoOS.Fs

open List FileSystem Linked

variable {count : Nat} {dir parent : Slot} {list : List Slot} {operation : Operation}
  {number : UInt32}

variable {fs after : FileSystem}

section

variable {unlinked : FileSystem} {x : Slot}

structure Removed (fs after : FileSystem) (x : Slot) : Prop where
  gone : (after.inodes x).valid = false
  headers : ∀ slot, slot ≠ x → SameHeader (after.inodes slot) (fs.inodes slot) ∧
    (after.inodes slot).parent = (fs.inodes slot).parent
  contents : ∀ slot, slot ≠ x → ∀ bytes, (fs.inodes slot).data = .buffer bytes →
    (after.inodes slot).data = .buffer bytes
  siblings : ∀ dir list, (fs.inodes x).parent = some dir → ChildList fs dir list →
    ChildList after dir (list.erase x)
  lists : ∀ dir list, IsDir fs dir → (fs.inodes x).parent ≠ some dir → ChildList fs dir list →
    ChildList after dir list
  descriptors : after.fileDescriptors = fs.fileDescriptors
  nextInode : after.nextInode = fs.nextInode

theorem unlinkChild_unlisted (isList : ChildList fs dir list) (outside : x ∉ list) :
    unlinkChild fs dir x = .ok fs := by
  have short := isList.length_le
  obtain ⟨first, head, chain⟩ := isList
  have notFirst : first ≠ some x := by
    rintro rfl
    cases list with
    | nil => cases chain
    | cons other list => exact outside (by simp [Option.some.inj chain.1])
  have missing : list.find? (fun child => (fs.inodes child).next == some x) = none := by
    rw [List.find?_eq_none]
    intro child member link
    exact outside (chain_next_mem x chain member (by simpa using link))
  have search := search_chain (fun child => (fs.inodes child).next == some x)
    chain short
  rw [missing] at search
  simp only [unlinkChild, head, if_neg notFirst, search]

theorem unlinkChild_siblings (isList : ChildList fs dir list)
    (done : unlinkChild fs dir x = .ok unlinked) : ChildList unlinked dir (list.erase x) := by
  by_cases member : x ∈ list
  · obtain ⟨found, returned, effect⟩ := unlinkChild_effect isList member
    cases done.symm.trans returned
    exact effect.list
  · rw [unlinkChild_unlisted isList member] at done
    cases done
    rw [erase_of_not_mem member]
    exact isList

theorem unlinkChild_lists (tree : TreeShaped fs) (isDir : IsDir fs dir)
    (apart : (fs.inodes x).parent ≠ some dir) (different : dir ≠ parent)
    (isList : ChildList fs dir list) (done : unlinkChild fs parent x = .ok unlinked) :
    ChildList unlinked dir list := by
  obtain ⟨first, -, ⟨-, rfl⟩ | ⟨-, -, rfl⟩ | ⟨child, -, found, rfl⟩⟩ := unlinkChild_cases done
  · refine isList.congr ?_ (fun slot _ => ?_)
    · rw [setData_inodes]
      exact if_neg different
    · rw [setData_inodes]
  · exact isList
  · -- The child in front of `x` is in the list of `dir` only if `x` is.
    have link : (fs.inodes child).next = some x := by
      simpa using search_passes found
    have outside : child ∉ list := by
      intro member
      obtain ⟨children, whole, members⟩ := tree.listed dir isDir
      obtain rfl := whole.unique isList
      obtain ⟨head, -, chain⟩ := isList
      have listed := chain_next_mem x chain member link
      exact apart ((members x).mp listed).2
    refine isList.congr ?_ (fun slot member => ?_)
    · rw [setNext_inodes]
    · rw [setNext_inodes]
      exact if_neg fun same : slot = child => outside (same ▸ member)

theorem unlinkChild_parent (done : unlinkChild fs parent x = .ok unlinked) (slot : Slot) :
    (unlinked.inodes slot).parent = (fs.inodes slot).parent := by
  obtain ⟨first, -, ⟨-, rfl⟩ | ⟨-, -, rfl⟩ | ⟨child, -, -, rfl⟩⟩ := unlinkChild_cases done
  · rw [setData_inodes]
  · rfl
  · rw [setNext_inodes]

theorem unlinkChild_contents {slot : Slot} {bytes : Nat → UInt8}
    (data : (fs.inodes slot).data = .buffer bytes) (done : unlinkChild fs parent x = .ok unlinked) :
    (unlinked.inodes slot).data = .buffer bytes := by
  obtain ⟨first, head, ⟨-, rfl⟩ | ⟨-, -, rfl⟩ | ⟨child, -, -, rfl⟩⟩ := unlinkChild_cases done
  · have different : slot ≠ parent := by
      rintro rfl
      rw [data] at head
      contradiction
    rw [setData_inodes, ← data]
    exact if_neg different
  · exact data
  · rw [setNext_inodes]
    exact data

theorem invalidate_list (isList : ChildList unlinked dir list) :
    ChildList (invalidate unlinked x) dir list := by
  refine isList.congr ?_ (fun slot _ => ?_)
  · rw [invalidate_fields]
  · rw [invalidate_fields]

theorem invalidate_removed (links : LinksOnly fs unlinked)
    (parents : ∀ slot, (unlinked.inodes slot).parent = (fs.inodes slot).parent)
    (contents : ∀ slot bytes, (fs.inodes slot).data = .buffer bytes →
      (unlinked.inodes slot).data = .buffer bytes)
    (siblings : ∀ dir list, (fs.inodes x).parent = some dir → ChildList fs dir list →
      ChildList unlinked dir (list.erase x))
    (lists : ∀ dir list, IsDir fs dir → (fs.inodes x).parent ≠ some dir → ChildList fs dir list →
      ChildList unlinked dir list) : Removed fs (invalidate unlinked x) x where
  gone := by
    rw [invalidate, setInode_self]
  headers := by
    intro slot different
    rw [invalidate, setInode_other _ _ _ _ different]
    exact ⟨links.header slot, parents slot⟩
  contents := by
    intro slot _ bytes data
    rw [invalidate_fields]
    exact contents slot bytes data
  siblings := fun dir list above isList => invalidate_list (siblings dir list above isList)
  lists := fun dir list isDir apart isList => invalidate_list (lists dir list isDir apart isList)
  descriptors := links.descriptors
  nextInode := links.nextInode

theorem fsRemove_removed (tree : TreeShaped fs) {path : Option CString}
    (returned : fsRemove fs path = .ok (after, 0)) :
    ∃ x, fsResolvePath fs path = .ok (some x) ∧ Removed fs after x := by
  obtain ⟨-, failed⟩ | ⟨x, unlinked, resolved, -, -, -, rfl, unlinking⟩ := fsRemove_cases returned
  · contradiction
  · refine ⟨x, resolved, ?_⟩
    obtain ⟨orphan, rfl⟩ | ⟨parent, above, done⟩ := unlinking
    · refine invalidate_removed (.refl _) (fun _ => rfl) (fun _ _ data => data) ?_
        (fun _ _ _ _ isList => isList)
      intro dir list above
      rw [orphan] at above
      contradiction
    · refine invalidate_removed (unlinkChild_linksOnly done) (unlinkChild_parent done)
        (fun slot bytes data => unlinkChild_contents data done) ?_ ?_
      · intro dir list above' isList
        cases Option.some.inj (above.symm.trans above')
        exact unlinkChild_siblings isList done
      · intro dir list isDir apart isList
        exact unlinkChild_lists tree isDir apart (fun same => apart (same ▸ above)) isList done

end

section

def numberStep (fs : FileSystem) (operation : Operation) : Option (FileSystem × List Unit) :=
  match operation.apply fs with
  | .ok (after, _) => some (after, if after.nextInode = fs.nextInode then [] else [()])
  | .error _ => none

theorem numberStep_returned {events : List Unit}
    (taken : numberStep fs operation = some (after, events)) :
    (∃ result, operation.apply fs = .ok (after, result)) ∧
      events = if after.nextInode = fs.nextInode then [] else [()] := by
  unfold numberStep at taken
  split at taken
  · next found result applied =>
    cases taken
    exact ⟨⟨result, applied⟩, rfl⟩
  · contradiction

inductive Renumbered (fs after : FileSystem) : Prop where
  | none (next : after.nextInode = fs.nextInode)
      (kept : ∀ slot, (after.inodes slot).inodeNum = (fs.inodes slot).inodeNum ∧
        ((after.inodes slot).valid = true → (fs.inodes slot).valid = true))
  | one (new : Slot) (next : after.nextInode = fs.nextInode + 1)
      (number : (after.inodes new).inodeNum = fs.nextInode)
      (kept : ∀ slot, slot ≠ new → (after.inodes slot).inodeNum = (fs.inodes slot).inodeNum ∧
        ((after.inodes slot).valid = true → (fs.inodes slot).valid = true))

theorem fsCreateInode_renumbered {name : List UInt8} {type : UInt32} {parent node : Option Slot}
    {memory : Bool} (returned : fsCreateInode fs name type parent memory = .ok (after, node)) :
    Renumbered fs after := by
  obtain ⟨-, -, rfl⟩ | ⟨new, -, -, -, -, rfl⟩ | ⟨new, -, -, -, creation⟩ :=
    fsCreateInode_cases returned
  · exact .none rfl (fun _ => ⟨rfl, id⟩)
  · refine .one new rfl (by rw [takeInode_self]; rfl) (fun slot different => ?_)
    rw [takeInode_other _ _ _ _ different]
    exact ⟨rfl, id⟩
  · refine .one new creation.globals.2.2.2.2 creation.new.2.2.2.2.1 (fun slot different => ?_)
    obtain ⟨⟨-, -, -, valid, number⟩, -⟩ := creation.others slot different
    exact ⟨number, fun isValid => valid ▸ isValid⟩

theorem operation_renumbered {result : Int} (returned : operation.apply fs = .ok (after, result)) :
    Renumbered fs after := by
  cases operation_effect returned with
  | pointers same =>
    rw [same]
    exact .none rfl (fun _ => ⟨rfl, id⟩)
  | onFile step =>
    refine .none step.nextInode (fun slot => ?_)
    obtain same | ⟨-, bytes, size, -, written⟩ := step.inodes slot
    · rw [same]
      exact ⟨rfl, id⟩
    · rw [written]
      exact ⟨rfl, id⟩
  | create path type memory found node _ _ made same =>
    rw [same]
    cases fsCreateInode_renumbered made with
    | none next kept => exact .none next kept
    | one new next number kept => exact .one new next number kept
  | remove slot unlinked removed unlinking =>
    have links : LinksOnly fs unlinked := by
      obtain ⟨-, rfl⟩ | ⟨parent, -, done⟩ := unlinking
      · exact .refl _
      · exact unlinkChild_linksOnly done
    rw [removed]
    refine .none links.nextInode (fun other => ?_)
    obtain ⟨-, -, -, valid, number⟩ := links.header other
    rw [invalidate_fields]
    refine ⟨number, fun isValid => ?_⟩
    rw [← valid]
    exact (Bool.and_eq_true_iff.mp isValid).1

/-- The numbers after `count` of them were taken. Slots that were never used have 0. -/
structure Numbered (count : Nat) (fs : FileSystem) : Prop where
  next : fs.nextInode = UInt32.ofNat (count + 1)
  taken : ∀ slot, (fs.inodes slot).inodeNum.toNat ≤ count
  positive : ∀ slot, (fs.inodes slot).valid = true → (fs.inodes slot).inodeNum ≠ 0
  distinct : ∀ first second, (fs.inodes first).inodeNum = (fs.inodes second).inodeNum →
    (fs.inodes first).inodeNum ≠ 0 → first = second

structure Retired (count : Nat) (number : UInt32) (fs : FileSystem) : Prop where
  next : fs.nextInode = UInt32.ofNat (count + 1)
  taken : number.toNat ≤ count
  absent : ∀ slot, (fs.inodes slot).valid = true → (fs.inodes slot).inodeNum ≠ number

theorem nextNumber_toNat (few : count + 1 < 2 ^ 32) :
    (UInt32.ofNat (count + 1)).toNat = count + 1 := by
  rw [UInt32.toNat_ofNat', Nat.mod_eq_of_lt few]

theorem next_ne (number : UInt32) : number + 1 ≠ number := by
  intro same
  have values := congrArg UInt32.toNat same
  have bound := number.toNat_lt
  rw [UInt32.toNat_add, show (1 : UInt32).toNat = 1 from rfl] at values
  omega

def counted (fs after : FileSystem) (count : Nat) : Nat :=
  if after.nextInode = fs.nextInode then count else count + 1

theorem Numbered.step (numbered : Numbered count fs) (few : counted fs after count < 2 ^ 32)
    (renumbered : Renumbered fs after) : Numbered (counted fs after count) after := by
  cases renumbered with
  | none next kept =>
    rw [counted, if_pos next]
    refine ⟨next.trans numbered.next, fun slot => ?_, fun slot valid => ?_,
      fun first second same nonzero => ?_⟩
    · rw [(kept slot).1]
      exact numbered.taken slot
    · rw [(kept slot).1]
      exact numbered.positive slot ((kept slot).2 valid)
    · rw [(kept first).1] at same nonzero
      rw [(kept second).1] at same
      exact numbered.distinct first second same nonzero
  | one new next number kept =>
    have moved : counted fs after count = count + 1 := by
      rw [counted, next, if_neg (next_ne _)]
    rw [moved] at few ⊢
    have value : (after.inodes new).inodeNum.toNat = count + 1 := by
      rw [number, numbered.next, nextNumber_toNat few]
    -- The new number is larger than every number that was there.
    have apart : ∀ slot, slot ≠ new →
        (after.inodes slot).inodeNum ≠ (after.inodes new).inodeNum := by
      intro slot different same
      have old := numbered.taken slot
      rw [← (kept slot different).1, same, value] at old
      omega
    refine ⟨?_, fun slot => ?_, fun slot valid => ?_, fun first second same nonzero => ?_⟩
    · rw [next, numbered.next]
      exact (UInt32.ofNat_add (count + 1) 1).symm
    · by_cases here : slot = new
      · rw [here, value]
      · rw [(kept slot here).1]
        exact Nat.le_succ_of_le (numbered.taken slot)
    · by_cases here : slot = new
      · intro zero
        rw [here] at zero
        rw [zero] at value
        exact absurd value.symm (Nat.succ_ne_zero count)
      · rw [(kept slot here).1]
        exact numbered.positive slot ((kept slot here).2 valid)
    · by_cases firstNew : first = new
      · subst firstNew
        by_contra different
        exact apart second (Ne.symm different) same.symm
      · by_cases secondNew : second = new
        · subst secondNew
          exact absurd same (apart first firstNew)
        · rw [(kept first firstNew).1] at same nonzero
          rw [(kept second secondNew).1] at same
          exact numbered.distinct first second same nonzero

theorem Retired.step (retired : Retired count number fs) (few : counted fs after count < 2 ^ 32)
    (renumbered : Renumbered fs after) : Retired (counted fs after count) number after := by
  cases renumbered with
  | none next kept =>
    rw [counted, if_pos next]
    refine ⟨next.trans retired.next, retired.taken, fun slot valid => ?_⟩
    rw [(kept slot).1]
    exact retired.absent slot ((kept slot).2 valid)
  | one new next given kept =>
    have moved : counted fs after count = count + 1 := by
      rw [counted, next, if_neg (next_ne _)]
    rw [moved] at few ⊢
    have taken := retired.taken
    refine ⟨?_, Nat.le_succ_of_le taken, fun slot valid => ?_⟩
    · rw [next, retired.next]
      exact (UInt32.ofNat_add (count + 1) 1).symm
    · by_cases here : slot = new
      · intro same
        rw [here, given, retired.next] at same
        have value := nextNumber_toNat few
        rw [same] at value
        omega
      · rw [(kept slot here).1]
        exact retired.absent slot ((kept slot here).2 valid)

theorem Removed.retired {x : Slot} (removed : Removed fs after x) (numbered : Numbered count fs) :
    Retired count (fs.inodes x).inodeNum after := by
  refine ⟨removed.nextInode.trans numbered.next, numbered.taken x, fun slot valid same => ?_⟩
  have different : slot ≠ x := by
    rintro rfl
    rw [removed.gone] at valid
    contradiction
  obtain ⟨⟨-, -, -, sameValid, sameNumber⟩, -⟩ := removed.headers slot different
  rw [sameNumber] at same
  exact different (numbered.distinct slot x same
    (numbered.positive slot (sameValid.symm.trans valid)))

section

variable {fd : Int} {index : Descriptor} (retired : Retired count number fs)
  (valid : validDescriptor fs fd = some index) (stale : (fs.fileDescriptors index).inode = number)

include retired valid stale

-- The number leads nowhere, so the calls stop at their checks.
theorem Retired.openFile (mode : UInt32) : openFile fs fd mode = none := by
  cases opened : Fs.openFile fs fd mode with
  | none => rfl
  | some file =>
    obtain ⟨index', slot⟩ := file
    obtain ⟨valid', -, lookup, -⟩ := openFile_cases opened
    cases Option.some.inj (valid.symm.trans valid')
    rw [stale] at lookup
    obtain ⟨slotValid, same⟩ := fs.findInodeByNum_spec lookup
    exact absurd same (retired.absent slot slotValid)

theorem Retired.calls (buffer : Option (Nat → UInt8)) (size : UInt32) :
    fsRead fs fd buffer size = .ok (fs, -1, buffer) ∧
      fsWrite fs fd buffer size = .ok (fs, -1) := by
  have reading := retired.openFile valid stale modeRead
  have writing := retired.openFile valid stale modeWrite
  cases buffer with
  | none => exact ⟨rfl, rfl⟩
  | some bytes => simp only [fsRead, fsWrite, reading, writing, and_self]

end

end

section

variable {start state : FileSystem} {history : List Unit}

theorem numberStep_counted {fs after : FileSystem} {events : List Unit}
    (taken : numberStep fs operation = some (after, events)) (history : List Unit) :
    Renumbered fs after ∧
      count + (events ++ history).length = counted fs after (count + history.length) := by
  obtain ⟨⟨result, returned⟩, rfl⟩ := numberStep_returned taken
  refine ⟨operation_renumbered returned, ?_⟩
  rw [length_append, counted]
  split
  · rw [length_nil, Nat.zero_add]
  · rw [length_singleton]
    omega

theorem counted_le (fs after : FileSystem) (count : Nat) : count ≤ counted fs after count := by
  unfold counted
  split
  · exact Nat.le_refl _
  · exact Nat.le_succ _

theorem run_counted {Inv : Nat → FileSystem → Prop}
    (step : ∀ count fs after, Inv count fs → counted fs after count < 2 ^ 32 →
      Renumbered fs after → Inv (counted fs after count) after)
    (initial : Inv count start)
    (run : Stepper.Run numberStep (fun _ _ => True) start history state)
    (few : count + history.length < 2 ^ 32) : Inv (count + history.length) state := by
  refine run.invariant (fun history fs => count + history.length < 2 ^ 32 →
    Inv (count + history.length) fs) (fun _ => initial) ?_ few
  intro history before after operation events held _ taken few
  obtain ⟨renumbered, same⟩ := numberStep_counted taken history
  rw [same] at few ⊢
  exact step _ before after (held (Nat.lt_of_le_of_lt (counted_le before after _) few)) few
    renumbered

theorem freshFs_numbered : Numbered 1 freshFs := by
  refine ⟨?_, ?_, ?_, ?_⟩
  · decide +kernel
  · decide +kernel
  · decide +kernel
  · have only : ∀ slot : Slot, (freshFs.inodes slot).inodeNum ≠ 0 → slot = 0 := by
      decide +kernel
    intro first second same nonzero
    rw [only first nonzero, only second (same ▸ nonzero)]

end

theorem removed_files_stay_closed {state after : FileSystem} {history : List Unit}
    {path : Option CString}
    (run : Stepper.Run numberStep (fun _ _ => True) freshFs history state)
    (tree : TreeShaped state) (returned : fsRemove state path = .ok (after, 0)) :
    ∃ x, fsResolvePath state path = .ok (some x) ∧ Removed state after x ∧
      ∀ later history', Stepper.Run numberStep (fun _ _ => True) after history' later →
        1 + history.length + history'.length < 2 ^ 32 →
        ∀ fd index, validDescriptor later fd = some index →
          (later.fileDescriptors index).inode = (state.inodes x).inodeNum →
          ∀ buffer size, fsRead later fd buffer size = .ok (later, -1, buffer) ∧
            fsWrite later fd buffer size = .ok (later, -1) := by
  obtain ⟨x, resolved, removed⟩ := fsRemove_removed tree returned
  refine ⟨x, resolved, removed, ?_⟩
  intro later history' run' few fd index valid stale buffer size
  have numbered := run_counted (fun _ _ _ => Numbered.step) freshFs_numbered run (by omega)
  have retired := run_counted
    (fun _ _ _ => Retired.step) (removed.retired numbered) run' few
  exact retired.calls valid stale buffer size

theorem numberStep_taken {fs after : FileSystem} {result : Int}
    (returned : operation.apply fs = .ok (after, result)) :
    ∃ events, numberStep fs operation = some (after, events) ∧ events.length ≤ 1 := by
  refine ⟨if after.nextInode = fs.nextInode then [] else [()], by simp only [numberStep, returned],
    ?_⟩
  split <;> decide

def openNamed (name : UInt8) (noNul : 0 ∉ [name]) : Operation :=
  .fsOpen (some ⟨[name], noNul⟩) (modeRead ||| modeWrite) true

theorem removed_files_stay_closed_reused : ∃ history state after history' later,
    Stepper.Run numberStep (fun _ _ => True) freshFs history state ∧ TreeShaped state ∧
    fsRemove state (some ⟨[97], by decide⟩) = .ok (after, 0) ∧
    Stepper.Run numberStep (fun _ _ => True) after history' later ∧
    (later.inodes 1).valid = true ∧ validDescriptor later 0 = some 0 ∧
    fsWrite later 0 (some fun _ => 120) 1 = .ok (later, -1) := by
  have evaluated : ((openNamed 97 (by decide)).apply freshFs).toOption.any (fun first =>
      (fsRemove first.1 (some ⟨[97], by decide⟩)).toOption.any (fun removal =>
        ((openNamed 98 (by decide)).apply removal.1).toOption.any (fun second => decide
          (removal.2 = 0 ∧ (fsResolvePath first.1 (some ⟨[97], by decide⟩)).toOption =
            some (some 1) ∧ (first.1.inodes 1).inodeNum = 2 ∧
          (second.1.inodes 1).valid = true ∧ validDescriptor second.1 0 = some 0 ∧
          (second.1.fileDescriptors 0).inode = 2)))) = true := by
    decide +kernel
  obtain ⟨⟨state, fd⟩, opened, evaluated⟩ := (Option.any_eq_true _ _).mp evaluated
  obtain ⟨⟨after, result⟩, removal, evaluated⟩ := (Option.any_eq_true _ _).mp evaluated
  obtain ⟨⟨later, fd'⟩, reopened, evaluated⟩ := (Option.any_eq_true _ _).mp evaluated
  obtain ⟨rfl, resolved, number, valid, isOpen, stale⟩ := of_decide_eq_true evaluated
  obtain ⟨events, taken, short⟩ := numberStep_taken (ok_of_toOption opened)
  obtain ⟨events', taken', short'⟩ := numberStep_taken (ok_of_toOption reopened)
  have run : Stepper.Run numberStep (fun _ _ => True) freshFs (events ++ []) state :=
    .step [] freshFs state _ events .refl trivial taken
  have run' : Stepper.Run numberStep (fun _ _ => True) after (events' ++ []) later :=
    .step [] after later _ events' .refl trivial taken'
  have step : fsStep freshFs (openNamed 97 (by decide)) = some (state, []) := by
    simp only [fsStep, ok_of_toOption opened]
  have tree : TreeShaped state :=
    (freshFs_keeps (.step [] freshFs state _ [] .refl (by decide +kernel) step)).1
  obtain ⟨x, here, -, closed⟩ := removed_files_stay_closed run tree (ok_of_toOption removal)
  rw [ok_of_toOption resolved] at here
  cases here
  refine ⟨_, state, after, _, later, run, tree, ok_of_toOption removal, run', valid, isOpen, ?_⟩
  have few : 1 + (events ++ []).length + (events' ++ []).length < 2 ^ 32 := by
    rw [List.append_nil, List.append_nil]
    omega
  exact (closed later _ run' few 0 0 isOpen (stale.trans number.symm) _ 1).2

end ArgoOS.Fs
