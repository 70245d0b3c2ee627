import ArgoOS.Fs.Positions

set_option autoImplicit false

/-! # Opening a file to read it -/

namespace ArgoOS.Fs

structure SameHandles (fs after : FileSystem) : Prop where
  rest : after = { fs with fileDescriptors := after.fileDescriptors }
  valid : ∀ fd, (after.fileDescriptors fd).valid = (fs.fileDescriptors fd).valid

structure OneMore (fs after : FileSystem) (index : Descriptor) : Prop where
  rest : after = { fs with fileDescriptors := after.fileDescriptors }
  free : (fs.fileDescriptors index).valid = false
  opened : (after.fileDescriptors index).valid = true
  others : ∀ fd, fd ≠ index → (after.fileDescriptors fd).valid = (fs.fileDescriptors fd).valid

section

variable {fs middle after : FileSystem} {index : Descriptor} {fd result : Int}

theorem SameHandles.refl (fs : FileSystem) : SameHandles fs fs := ⟨rfl, fun _ => rfl⟩

theorem SameHandles.inodes (same : SameHandles fs after) : after.inodes = fs.inodes := by
  rw [same.rest]

theorem SameHandles.trans (first : SameHandles fs middle) (second : SameHandles middle after) :
    SameHandles fs after := by
  refine ⟨?_, fun fd => (second.valid fd).trans (first.valid fd)⟩
  have rest := second.rest
  rw [first.rest] at rest
  exact rest

theorem OneMore.trans (first : OneMore fs middle index) (second : SameHandles middle after) :
    OneMore fs after index := by
  refine ⟨?_, first.free, (second.valid index).trans first.opened,
    fun fd other => (second.valid fd).trans (first.others fd other)⟩
  have rest := second.rest
  rw [first.rest] at rest
  exact rest

theorem setDescriptor_sameHandles {index : Descriptor} {entry : FileDescriptor}
    (valid : entry.valid = (fs.fileDescriptors index).valid) :
    SameHandles fs (fs.setDescriptor index entry) := by
  refine ⟨rfl, fun fd => ?_⟩
  by_cases here : fd = index
  · rw [here, fs.setDescriptor_self, valid]
  · rw [fs.setDescriptor_other index fd entry here]

theorem fsRead_sameHandles {buffer target : Option (Nat → UInt8)} {size : UInt32}
    (returned : fsRead fs fd buffer size = .ok (after, result, target)) : SameHandles fs after := by
  obtain ⟨rfl, -⟩ | ⟨_, _, _, _, _, -, -, -, -, -, rfl⟩ := fsRead_cases returned
  · exact .refl _
  · exact setDescriptor_sameHandles rfl

theorem fsSeek_sameHandles (fs : FileSystem) (fd : Int) (offset : Int32) (whence : UInt32) :
    SameHandles fs (fsSeek fs fd offset whence).1 := by
  unfold fsSeek
  split
  · exact .refl fs
  · dsimp only
    split
    · exact .refl fs
    · exact setDescriptor_sameHandles rfl

theorem fsOpen_oneMore {path : Option CString} {memory : Bool}
    (returned : fsOpen fs path modeRead memory = .ok (after, result)) :
    (after = fs ∧ result = -1) ∨ ∃ index, result = (index.val : Int) ∧ OneMore fs after index := by
  obtain unopened | ⟨text, found, node, -, -, resolved, opened⟩ := fsOpen_cases returned
  · exact .inl unopened
  · obtain ⟨rfl, -⟩ | ⟨-, writes, -⟩ := openNode_cases resolved
    · obtain refused | ⟨slot, index, -, -, free, isOpen⟩ := openDescriptor_cases found node modeRead
      · rw [refused] at opened
        cases opened
        exact .inl ⟨rfl, rfl⟩
      · rw [isOpen] at opened
        cases opened
        have unused : (found.fileDescriptors index).valid = false := by
          simpa using List.find?_some free
        refine .inr ⟨index, rfl, rfl, unused, ?_, fun fd other => ?_⟩
        · rw [found.setDescriptor_self]
          rfl
        · rw [found.setDescriptor_other index fd _ other]
    · exact absurd (by decide) writes

theorem OneMore.close (opened : OneMore fs after index) :
    SameHandles fs (fsClose after index.val).1 := by
  rw [fsClose, validDescriptor_val after index opened.opened]
  refine ⟨?_, fun fd => ?_⟩
  · rw [opened.rest]
    rfl
  · by_cases here : fd = index
    · rw [here, after.setDescriptor_self, opened.free]
    · rw [after.setDescriptor_other index fd _ here, opened.others fd here]

end

end ArgoOS.Fs
