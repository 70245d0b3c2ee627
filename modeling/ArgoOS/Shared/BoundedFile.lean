import Mathlib

set_option autoImplicit false

/-!
# Bounded files

A file as a list with a position in it, under a fixed capacity. A write stores what fits
and a read returns what is there.
-/

structure BoundedFile (α : Type) (capacity : Nat) where
  content : List α
  position : Nat
  within : position ≤ content.length
  fits : content.length ≤ capacity

namespace BoundedFile

open List

variable {α : Type} {capacity : Nat}

def room (file : BoundedFile α capacity) (size : Nat) : Nat :=
  min size (capacity - file.position)

def overwrite (content : List α) (position : Nat) (data : List α) : List α :=
  content.take position ++ data ++ content.drop (position + data.length)

theorem overwrite_length {content : List α} (data : List α) {position : Nat}
    (within : position ≤ content.length) :
    (overwrite content position data).length = max content.length (position + data.length) := by
  simp only [overwrite, length_append, length_take, length_drop]
  omega

def write (file : BoundedFile α capacity) (data : List α) : BoundedFile α capacity where
  content := overwrite file.content file.position (data.take (file.room data.length))
  position := file.position + file.room data.length
  within := by
    rw [overwrite_length _ file.within, List.length_take]
    unfold room
    omega
  fits := by
    have small := file.fits
    have inside := file.within
    rw [overwrite_length _ file.within, List.length_take]
    unfold room
    omega

def available (file : BoundedFile α capacity) (size : Nat) : Nat :=
  min size (file.content.length - file.position)

def taken (file : BoundedFile α capacity) (size : Nat) : List α :=
  (file.content.drop file.position).take size

theorem taken_length (file : BoundedFile α capacity) (size : Nat) :
    (file.taken size).length = file.available size := by
  simp only [taken, available, length_take, length_drop]

def read (file : BoundedFile α capacity) (size : Nat) : BoundedFile α capacity :=
  { file with
    position := file.position + file.available size
    within := by
      have inside := file.within
      unfold available
      omega }

def seek (file : BoundedFile α capacity) (target : Nat) : BoundedFile α capacity :=
  { file with
    position := min target file.content.length
    within := Nat.min_le_right _ _ }

def writes (file : BoundedFile α capacity) (chunks : List (List α)) : BoundedFile α capacity :=
  chunks.foldl write file

def reads : BoundedFile α capacity → List Nat → List α
  | _, [] => []
  | file, size :: sizes => file.taken size ++ (file.read size).reads sizes

theorem write_end (file : BoundedFile α capacity) (data : List α)
    (atEnd : file.position = file.content.length) :
    (file.write data).content = (file.content ++ data).take capacity ∧
    (file.write data).position = (file.write data).content.length := by
  have content : (file.write data).content = (file.content ++ data).take capacity := by
    have small := file.fits
    simp only [write, overwrite, atEnd, room]
    rw [take_length, drop_of_length_le (Nat.le_add_right _ _), append_nil,
      take_append, take_of_length_le small]
    rw [Nat.min_comm, ← take_eq_take_min]
  refine ⟨content, ?_⟩
  rw [content]
  simp only [write, room, length_take, length_append]
  have small := file.fits
  omega

theorem take_take_append (n : Nat) (xs ys : List α) :
    (xs.take n ++ ys).take n = (xs ++ ys).take n := by
  obtain short | long := Nat.le_total xs.length n
  · rw [take_of_length_le short]
  · have filled : (xs.take n).length = n := length_take_of_le long
    rw [take_append_of_le_length (Nat.le_of_eq filled.symm),
      take_append_of_le_length long, take_take, Nat.min_self]

theorem writes_end (file : BoundedFile α capacity) (chunks : List (List α))
    (atEnd : file.position = file.content.length) :
    (file.writes chunks).content = (file.content ++ chunks.flatten).take capacity ∧
    (file.writes chunks).position = (file.writes chunks).content.length := by
  induction chunks generalizing file with
  | nil =>
    refine ⟨?_, atEnd⟩
    simp [writes, take_of_length_le file.fits]
  | cons data chunks ih =>
    obtain ⟨content, position⟩ := write_end file data atEnd
    obtain ⟨contents, positions⟩ := ih (file.write data) position
    refine ⟨?_, positions⟩
    rw [flatten_cons, ← append_assoc]
    exact contents.trans (by rw [content, take_take_append])

theorem reads_taken (file : BoundedFile α capacity) (sizes : List Nat) :
    file.reads sizes = file.taken sizes.sum := by
  induction sizes generalizing file with
  | nil => simp [reads, taken]
  | cons size sizes ih =>
    rw [reads, ih, sum_cons]
    simp only [taken, read, available]
    rw [take_add, drop_drop]
    obtain more | all := Nat.le_total size (file.content.length - file.position)
    · rw [Nat.min_eq_left more]
    · have inside := file.within
      have past : ∀ i, file.content.length ≤ i → file.content.drop i = [] :=
        fun _ => drop_of_length_le
      rw [Nat.min_eq_right all, past (file.position + _) (by omega),
        past (file.position + size) (by omega)]

end BoundedFile
