import Mathlib

set_option autoImplicit false

/-!
# Byte images

A memory or a disk as a function from offsets to bytes, with block copies,
little-endian words and null-terminated strings on top of it.
-/

namespace Bytes

open List

def copy (target : Nat → UInt8) (offset : Nat) (source : Nat → UInt8) (len : Nat) : Nat → UInt8 :=
  fun i => if offset ≤ i ∧ i < offset + len then source (i - offset) else target i

theorem copy_inside (target source : Nat → UInt8) (offset len i : Nat) (inside : i < len) :
    copy target offset source len (offset + i) = source i := by
  simp [copy, inside]

theorem copy_outside (target source : Nat → UInt8) (offset len i : Nat)
    (outside : i < offset ∨ offset + len ≤ i) : copy target offset source len i = target i := by
  rw [copy, if_neg (by omega)]

-- Two images that agree on a window of `len` bytes, each taken from its own base.
def Agree (first : Nat → UInt8) (base : Nat) (second : Nat → UInt8) (base' len : Nat) : Prop :=
  ∀ i < len, first (base + i) = second (base' + i)

variable {first second : Nat → UInt8} {base base' len : Nat}

theorem Agree.sub (agree : Agree first base second base' len) (skip part : Nat)
    (fits : skip + part ≤ len) : Agree first (base + skip) second (base' + skip) part := by
  intro i inside
  rw [Nat.add_assoc, Nat.add_assoc]
  exact agree (skip + i) (by omega)

theorem agree_copy (target source : Nat → UInt8) (offset len : Nat) :
    Agree (copy target offset source len) offset source 0 len := by
  intro i inside
  rw [copy_inside _ _ _ _ _ inside, Nat.zero_add]

variable {part : Nat}

theorem agree_copy_outside (target source : Nat → UInt8) {offset base : Nat}
    (outside : base + part ≤ offset ∨ offset + len ≤ base) :
    Agree (copy target offset source len) base target base part := by
  intro i inside
  exact copy_outside _ _ _ _ _ (by omega)

def window (bytes : Nat → UInt8) (base len : Nat) : List UInt8 :=
  (List.range len).map (fun i => bytes (base + i))

@[simp] theorem window_length (bytes : Nat → UInt8) (base len : Nat) :
    (window bytes base len).length = len := by
  simp [window]

theorem window_agree (agree : Agree first base second base' len) :
    window first base len = window second base' len := by
  apply map_congr_left
  intro i member
  exact agree i (mem_range.mp member)

theorem window_add (bytes : Nat → UInt8) (base len more : Nat) :
    window bytes base (len + more) = window bytes base len ++ window bytes (base + len) more := by
  simp only [window, range_add, map_append, map_map, Nat.add_assoc]
  rfl

theorem window_take (bytes : Nat → UInt8) (base : Nat) (fits : part ≤ len) :
    (window bytes base len).take part = window bytes base part := by
  obtain ⟨rest, rfl⟩ := Nat.exists_eq_add_of_le fits
  rw [window_add, take_left' (window_length bytes base part)]

theorem window_drop (bytes : Nat → UInt8) (base : Nat) (fits : part ≤ len) :
    (window bytes base len).drop part = window bytes (base + part) (len - part) := by
  obtain ⟨rest, rfl⟩ := Nat.exists_eq_add_of_le fits
  rw [window_add, drop_left' (window_length bytes base part), Nat.add_sub_cancel_left]

def byteOf (x : UInt32) (i : Nat) : UInt8 :=
  UInt8.ofNat (x.toNat / 256 ^ i)

def loadWord (bytes : Nat → UInt8) (offset : Nat) : UInt32 :=
  UInt32.ofNat ((bytes offset).toNat + 256 * (bytes (offset + 1)).toNat +
    65536 * (bytes (offset + 2)).toNat + 16777216 * (bytes (offset + 3)).toNat)

def storeWord (bytes : Nat → UInt8) (offset : Nat) (x : UInt32) : Nat → UInt8 :=
  copy bytes offset (byteOf x) 4

theorem loadWord_byteOf (x : UInt32) : loadWord (byteOf x) 0 = x := by
  apply UInt32.toNat.inj
  have bound := x.toNat_lt
  simp only [loadWord, byteOf, UInt32.toNat_ofNat', UInt8.toNat_ofNat']
  omega

theorem loadWord_agree (agree : Agree first base second base' 4) :
    loadWord first base = loadWord second base' := by
  have first0 := agree 0 (by decide)
  rw [Nat.add_zero, Nat.add_zero] at first0
  simp only [loadWord, first0, agree 1 (by decide), agree 2 (by decide), agree 3 (by decide)]

@[simp] theorem loadWord_storeWord (bytes : Nat → UInt8) (offset : Nat) (x : UInt32) :
    loadWord (storeWord bytes offset x) offset = x :=
  (loadWord_agree (agree_copy _ _ _ _)).trans (loadWord_byteOf x)

theorem loadWord_copy (bytes source : Nat → UInt8) {offset base : Nat}
    (outside : base + 4 ≤ offset ∨ offset + len ≤ base) :
    loadWord (copy bytes offset source len) base = loadWord bytes base :=
  loadWord_agree (agree_copy_outside _ _ outside)

theorem loadWord_storeWord_other (bytes : Nat → UInt8) (offset base : Nat) (x : UInt32)
    (outside : base + 4 ≤ offset ∨ offset + 4 ≤ base) :
    loadWord (storeWord bytes offset x) base = loadWord bytes base :=
  loadWord_copy _ _ outside

/-- The string that starts at `offset`, cut at the first null byte or after `len` bytes. -/
def loadString (bytes : Nat → UInt8) (offset len : Nat) : List UInt8 :=
  ((List.range len).map (fun i => bytes (offset + i))).takeWhile (· ≠ 0)

def storeString (bytes : Nat → UInt8) (offset : Nat) (text : List UInt8) (len : Nat) :
    Nat → UInt8 :=
  copy bytes offset (fun i => text.getD i 0) len

theorem loadString_agree (agree : Agree first base second base' len) :
    loadString first base len = loadString second base' len := by
  unfold loadString
  congr 1
  apply map_congr_left
  intro i member
  exact agree i (mem_range.mp member)

theorem loadString_getD {text : List UInt8} (noNul : 0 ∉ text) (fits : text.length < len) :
    loadString (fun i => text.getD i 0) 0 len = text := by
  have padded : (List.range len).map (fun i => text.getD (0 + i) 0) =
      text ++ List.replicate (len - text.length) 0 := by
    apply ext_getElem
    · simp
      omega
    · intro i _ _
      rw [getElem_map, getElem_range, Nat.zero_add, getElem_append]
      split
      · next inside => simp [inside]
      · next outside => simp [Nat.le_of_not_lt outside]
  have nonzero : ∀ byte ∈ text, decide (byte ≠ 0) = true := by
    intro byte member
    exact decide_eq_true (fun zero => noNul (zero ▸ member))
  rw [loadString, padded, takeWhile_append_of_pos nonzero,
    show len - text.length = (len - text.length - 1) + 1 by omega, replicate_succ]
  simp

theorem loadString_storeString (bytes : Nat → UInt8) (offset : Nat) {text : List UInt8}
    (noNul : 0 ∉ text) (fits : text.length < len) :
    loadString (storeString bytes offset text len) offset len = text :=
  (loadString_agree (agree_copy _ _ _ _)).trans (loadString_getD noNul fits)

theorem loadString_storeWord (bytes : Nat → UInt8) (offset base len : Nat) (x : UInt32)
    (outside : base + len ≤ offset ∨ offset + 4 ≤ base) :
    loadString (storeWord bytes offset x) base len = loadString bytes base len :=
  loadString_agree (agree_copy_outside _ _ outside)

end Bytes
