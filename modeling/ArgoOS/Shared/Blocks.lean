import Mathlib

set_option autoImplicit false

/-!
# Contiguous block lists

A region of word memory cut into blocks, each behind a header of four words: its
size, whether it is free, and the addresses of its neighbours. `view` is the
memory, `none` where nothing can be read.
-/

namespace Blocks

open List Function

structure Block where
  addr : Nat
  size : Nat
  free : Bool
deriving DecidableEq, Repr

abbrev View := Nat → Option Nat

def Block.stop (b : Block) : Nat := b.addr + 16 + b.size

structure Header (view : View) (b : Block) (prev next : Nat) : Prop where
  size : view b.addr = some b.size
  free : view (b.addr + 4) = some b.free.toNat
  next : view (b.addr + 8) = some next
  prev : view (b.addr + 12) = some prev

def front : List Block → Nat → Nat
  | [], next => next
  | b :: _, _ => b.addr

def back : Nat → List Block → Nat
  | prev, [] => prev
  | _, b :: bs => back b.addr bs

-- Every block of the list has its header, with the links to its neighbours.
def Linked (view : View) : Nat → List Block → Nat → Prop
  | _, [], _ => True
  | prev, b :: bs, next => Header view b prev (front bs next) ∧ Linked view b.addr bs next

-- The blocks fill the region from `start` to `stop`.
def Contiguous : Nat → List Block → Nat → Prop
  | start, [], stop => start = stop
  | start, b :: bs, stop => b.addr = start ∧ Contiguous b.stop bs stop

variable {start a : Nat} {b : Block} {next prev : Nat} {xs ys : List Block}

section

@[simp] theorem front_nil (next : Nat) : front [] next = next := rfl

@[simp] theorem front_cons (b : Block) (bs : List Block) (next : Nat) :
    front (b :: bs) next = b.addr :=
  rfl

@[simp] theorem back_nil (prev : Nat) : back prev [] = prev := rfl

@[simp] theorem back_cons (prev : Nat) (b : Block) (bs : List Block) :
    back prev (b :: bs) = back b.addr bs :=
  rfl

@[simp] theorem front_append (xs ys : List Block) (next : Nat) :
    front (xs ++ ys) next = front xs (front ys next) := by
  cases xs <;> rfl

@[simp] theorem back_append (prev : Nat) (xs ys : List Block) :
    back prev (xs ++ ys) = back (back prev xs) ys := by
  induction xs generalizing prev with
  | nil => rfl
  | cons x xs ih => exact ih x.addr

def extent (blocks : List Block) : Nat := (blocks.map fun b => 16 + b.size).sum

def usedBlocks (blocks : List Block) : List Block := blocks.filter fun b => !b.free

@[simp] theorem extent_nil : extent [] = 0 := rfl

@[simp] theorem extent_cons (b : Block) (bs : List Block) :
    extent (b :: bs) = 16 + b.size + extent bs := by
  simp [extent]

@[simp] theorem extent_append (xs ys : List Block) : extent (xs ++ ys) = extent xs + extent ys := by
  simp [extent]

@[simp] theorem usedBlocks_nil : usedBlocks [] = [] := rfl

@[simp] theorem usedBlocks_append (xs ys : List Block) :
    usedBlocks (xs ++ ys) = usedBlocks xs ++ usedBlocks ys :=
  filter_append ..

theorem mem_usedBlocks {u : Block} {bs : List Block} :
    u ∈ usedBlocks bs ↔ u ∈ bs ∧ u.free = false := by
  simp [usedBlocks]

theorem usedBlocks_free (isFree : b.free = true) (bs : List Block) :
    usedBlocks (b :: bs) = usedBlocks bs := by
  simp [usedBlocks, isFree]

theorem usedBlocks_used (used : b.free = false) (bs : List Block) :
    usedBlocks (b :: bs) = b :: usedBlocks bs := by
  simp [usedBlocks, used]

theorem linked_append (view : View) (prev next : Nat) (xs ys : List Block) :
    Linked view prev (xs ++ ys) next ↔
      Linked view prev xs (front ys next) ∧ Linked view (back prev xs) ys next := by
  induction xs generalizing prev with
  | nil => simp [Linked, back]
  | cons x xs ih => simp [Linked, back, ih, and_assoc]

theorem contiguous_append (start stop : Nat) (xs ys : List Block) :
    Contiguous start (xs ++ ys) stop ↔
      ∃ middle, Contiguous start xs middle ∧ Contiguous middle ys stop := by
  induction xs generalizing start with
  | nil => simp [Contiguous]
  | cons x xs ih => simp [Contiguous, ih, and_assoc]

section

variable {stop : Nat} (fills : Contiguous start xs stop)

include fills

theorem Contiguous.le : start ≤ stop := by
  induction xs generalizing start with
  | nil => exact Nat.le_of_eq fills
  | cons x xs ih =>
    have rest := ih fills.2
    have first := fills.1
    simp only [Block.stop] at rest
    omega

theorem Contiguous.bounds (b : Block) (member : b ∈ xs) : start ≤ b.addr ∧ b.stop ≤ stop := by
  induction xs generalizing start with
  | nil => simp at member
  | cons x xs ih =>
    have first := fills.1
    have rest := fills.2.le
    rcases mem_cons.mp member with rfl | later
    · exact ⟨by omega, rest⟩
    · have inner := ih fills.2 later
      simp only [Block.stop] at *
      omega

theorem Contiguous.nonempty_front (nonempty : xs ≠ []) : front xs next = start := by
  cases xs with
  | nil => contradiction
  | cons x xs => exact fills.1

end

theorem Contiguous.split {stop : Nat} (fills : Contiguous start (xs ++ b :: ys) stop) :
    (∀ x ∈ xs, x.stop ≤ b.addr) ∧ (∀ y ∈ ys, b.stop ≤ y.addr) ∧
      Contiguous start xs b.addr ∧ Contiguous b.stop ys stop := by
  obtain ⟨middle, before, first, after⟩ := (contiguous_append _ _ _ _).mp fills
  subst first
  exact ⟨fun x member => (before.bounds x member).2, fun y member => (after.bounds y member).1,
    before, after⟩

section

variable {stop : Nat} (fills : Contiguous start xs stop)

include fills

theorem Contiguous.apart {a : Block} (first : a ∈ xs) (second : b ∈ xs) :
    a = b ∨ a.stop ≤ b.addr ∨ b.stop ≤ a.addr := by
  induction xs generalizing start with
  | nil => simp at first
  | cons x xs ih =>
    rcases mem_cons.mp first with rfl | inA <;> rcases mem_cons.mp second with rfl | inB
    · exact .inl rfl
    · exact .inr (.inl (fills.2.bounds b inB).1)
    · exact .inr (.inr (fills.2.bounds a inA).1)
    · exact ih fills.2 inA inB

theorem Contiguous.addr_inj {a : Block} (first : a ∈ xs) (second : b ∈ xs)
    (same : a.addr = b.addr) : a = b := by
  refine (fills.apart first second).resolve_right ?_
  simp only [Block.stop]
  omega

theorem Contiguous.length_le : start + 16 * xs.length ≤ stop := by
  induction xs generalizing start with
  | nil => simpa using fills.le
  | cons x xs ih =>
    have rest := ih fills.2
    have first := fills.1
    simp only [Block.stop, length_cons] at *
    omega

end

end

variable {view view' : View}

section

theorem Header.congr (header : Header view b prev next)
    (same : ∀ a, b.addr ≤ a → a < b.addr + 16 → view' a = view a) : Header view' b prev next where
  size := (same _ (by omega) (by omega)).trans header.size
  free := (same _ (by omega) (by omega)).trans header.free
  next := (same _ (by omega) (by omega)).trans header.next
  prev := (same _ (by omega) (by omega)).trans header.prev

theorem Linked.unique {prev' : Nat} (first : Linked view prev xs 0)
    (second : Linked view prev' ys 0) (same : front xs 0 = front ys 0)
    (nonzero : ∀ b ∈ xs ++ ys, b.addr ≠ 0) : xs = ys := by
  induction xs generalizing prev prev' ys with
  | nil =>
    cases ys with
    | nil => rfl
    | cons y ys => exact absurd same.symm (nonzero y (by simp))
  | cons x xs ih =>
    cases ys with
    | nil => exact absurd same (nonzero x (by simp))
    | cons y ys =>
      obtain ⟨header, linked⟩ := first
      obtain ⟨header', linked'⟩ := second
      have place : x.addr = y.addr := same
      have size := header.size
      have free := header.free
      have next := header.next
      rw [place, header'.size, Option.some.injEq] at size
      rw [place, header'.free, Option.some.injEq] at free
      rw [place, header'.next, Option.some.injEq] at next
      have rest := ih linked linked' next.symm fun b member => nonzero b (by
        simp only [mem_append, mem_cons] at member ⊢
        tauto)
      have isFree : y.free = x.free := by
        cases freeX : x.free <;> cases freeY : y.free <;> simp [freeX, freeY] at free ⊢
      have block : x = y := by
        change Block.mk x.addr x.size x.free = Block.mk y.addr y.size y.free
        rw [place, size, isFree]
      rw [block, rest]

theorem Linked.congr (linked : Linked view prev xs next)
    (same : ∀ b ∈ xs, ∀ a, b.addr ≤ a → a < b.addr + 16 → view' a = view a) :
    Linked view' prev xs next := by
  induction xs generalizing prev with
  | nil => trivial
  | cons x xs ih =>
    exact ⟨linked.1.congr (same x (by simp)), ih linked.2 (fun b member => same b (by simp [member]))⟩

def writeHeader (view : View) (b : Block) (prev next : Nat) : View :=
  Function.update (Function.update (Function.update (Function.update view b.addr
    (some b.size)) (b.addr + 4) (some b.free.toNat)) (b.addr + 8) (some next))
    (b.addr + 12) (some prev)

theorem writeHeader_header (view : View) (b : Block) (prev next : Nat) :
    Header (writeHeader view b prev next) b prev next := by
  refine ⟨?_, ?_, ?_, ?_⟩ <;> simp [writeHeader]

theorem writeHeader_other (view : View) (b : Block) (prev next a : Nat)
    (outside : a < b.addr ∨ b.addr + 16 ≤ a) : writeHeader view b prev next a = view a := by
  rw [writeHeader, update_of_ne (by omega), update_of_ne (by omega),
    update_of_ne (by omega), update_of_ne (by omega)]

theorem Linked.link_back (linked : Linked view prev (xs ++ ys) next) (nonempty : ys ≠ []) :
    view (front ys next + 12) = some (back prev xs) := by
  obtain ⟨-, rest⟩ := (linked_append _ _ _ _ _).mp linked
  obtain ⟨y, ys, rfl⟩ := exists_cons_of_ne_nil nonempty
  exact rest.1.prev

-- The blocks between `xs` and `ys` are exchanged: nothing is written below them, and
-- above them only the link of the next block back to them.
theorem Linked.replace {stop : Nat} {middle : List Block}
    (linked : Linked view prev (xs ++ (b :: middle) ++ ys) 0) (view' : View) (middle' : List Block)
    (fills : Contiguous start (xs ++ (b :: middle) ++ ys) stop)
    (sameFront : front middle' (front ys 0) = b.addr)
    (inside : Linked view' (back prev xs) middle' (front ys 0))
    (below : ∀ a < b.addr, view' a = view a)
    (above : ys ≠ [] → ∀ a, (∀ x ∈ b :: middle, x.stop ≤ a) → a ≠ front ys 0 + 12 →
      view' a = view a)
    (link : ys ≠ [] → view' (front ys 0 + 12) = some (back (back prev xs) middle')) :
    Linked view' prev (xs ++ middle' ++ ys) 0 := by
  rw [append_assoc] at linked fills ⊢
  obtain ⟨first, fillsFirst, rest⟩ := (contiguous_append _ _ _ _).mp fills
  obtain ⟨second, fillsMiddle, fillsLast⟩ := (contiguous_append _ _ _ _).mp rest
  obtain ⟨linkedFirst, linkedRest⟩ := (linked_append _ _ _ _ _).mp linked
  obtain ⟨-, linkedLast⟩ := (linked_append _ _ _ _ _).mp linkedRest
  obtain rfl : b.addr = first := fillsMiddle.1
  refine (linked_append _ _ _ _ _).mpr ⟨?_, (linked_append _ _ _ _ _).mpr ⟨inside, ?_⟩⟩
  · rw [front_append, sameFront]
    refine Linked.congr (by simpa using linkedFirst) ?_
    intro x member a _ inHeader
    have bound := (fillsFirst.bounds x member).2
    simp only [Block.stop] at bound
    exact below a (by omega)
  · cases ys with
    | nil => trivial
    | cons y ys =>
      obtain ⟨rfl, tail⟩ := fillsLast
      have high : ∀ a, y.addr ≤ a → a ≠ y.addr + 12 → view' a = view a := by
        intro a reached notLink
        refine above (by simp) a (fun x member => ?_) notLink
        exact Nat.le_trans (fillsMiddle.bounds x member).2 reached
      refine ⟨⟨?_, ?_, ?_, link (by simp)⟩, linkedLast.2.congr ?_⟩
      · exact (high _ (by omega) (by omega)).trans linkedLast.1.size
      · exact (high _ (by omega) (by omega)).trans linkedLast.1.free
      · exact (high _ (by omega) (by omega)).trans linkedLast.1.next
      · intro x member a reached inHeader
        have bound := (tail.bounds x member).1
        simp only [Block.stop] at bound
        exact high a (by omega) (by omega)

theorem Linked.exchange {stop : Nat} (linked : Linked view prev (xs ++ b :: ys) 0) (view' : View)
    (middle : List Block) (fills : Contiguous start (xs ++ b :: ys) stop)
    (sameFront : front middle (front ys 0) = b.addr)
    (inside : Linked view' (back prev xs) middle (front ys 0))
    (below : ∀ a < b.addr, view' a = view a)
    (above : ys ≠ [] → ∀ a, b.stop ≤ a → a ≠ front ys 0 + 12 → view' a = view a)
    (link : ys ≠ [] → view' (front ys 0 + 12) = some (back (back prev xs) middle)) :
    Linked view' prev (xs ++ (middle ++ ys)) 0 := by
  rw [append_cons] at linked fills
  rw [← append_assoc]
  refine linked.replace view' middle fills sameFront inside below ?_ link
  exact fun nonempty a past => above nonempty a (past b (by simp))

end

section

-- A word is as it was, or it is one of those `written` and can be read.
def Rewrites (written : Nat → Prop) (view view' : View) : Prop :=
  ∀ a, view' a = view a ∨ written a ∧ view' a ≠ none

variable {written written' : Nat → Prop} {view'' : View}

theorem Rewrites.refl (written : Nat → Prop) (view : View) : Rewrites written view view :=
  fun _ => .inl rfl

theorem Rewrites.trans (first : Rewrites written view view')
    (second : Rewrites written view' view'') : Rewrites written view view'' := by
  intro a
  rcases second a with same | new
  · rw [same]
    exact first a
  · exact .inr new

section

variable (rewrites : Rewrites written view view')

include rewrites

theorem Rewrites.mono (wider : ∀ a, written a → written' a) : Rewrites written' view view' :=
  fun a => (rewrites a).imp_right fun new => ⟨wider a new.1, new.2⟩

theorem Rewrites.update (value : Nat) (inside : written a) :
    Rewrites written view (update view' a (some value)) := by
  intro k
  by_cases here : k = a
  · subst here
    exact .inr ⟨inside, by simp⟩
  · rw [update_of_ne here]
    exact rewrites k

theorem Rewrites.same (outside : ¬ written a) : view' a = view a :=
  (rewrites a).resolve_right fun new => outside new.1

theorem Rewrites.readable (known : view a ≠ none) : view' a ≠ none := by
  rcases rewrites a with same | new
  · rwa [same]
  · exact new.2

end

theorem rewrites_header (prev next : Nat) (inside : ∀ a, b.addr ≤ a → a < b.addr + 16 → written a) :
    Rewrites written view (writeHeader view b prev next) :=
  ((((Rewrites.refl written view).update _ (inside _ (by omega) (by omega))).update _
    (inside _ (by omega) (by omega))).update _ (inside _ (by omega) (by omega))).update _
    (inside _ (by omega) (by omega))

theorem rewrites_link {link : Nat} (linked : ys ≠ [] → view' (front ys 0 + 12) = some link)
    (kept : ∀ a, (ys ≠ [] → a ≠ front ys 0 + 12) → view' a = view a)
    (inside : ys ≠ [] → written (front ys 0 + 12)) : Rewrites written view view' := by
  intro a
  by_cases here : ys ≠ [] ∧ a = front ys 0 + 12
  · obtain ⟨nonempty, rfl⟩ := here
    exact .inr ⟨inside nonempty, by simp [linked nonempty]⟩
  · exact .inl (kept a fun nonempty same => here ⟨nonempty, same⟩)

end

section

def InUse (blocks : List Block) (a : Nat) : Prop :=
  ∃ u ∈ blocks, u.free = false ∧ u.addr + 16 ≤ a ∧ a < u.stop

variable {blocks : List Block} {stop : Nat} {c : Block}

theorem InUse.mono {blocks' : List Block} (inUse : InUse blocks a)
    (kept : ∀ u ∈ blocks, u.free = false → u ∈ blocks') : InUse blocks' a := by
  obtain ⟨u, member, used, inside⟩ := inUse
  exact ⟨u, kept u member used, used, inside⟩

theorem Contiguous.header_unused (fills : Contiguous start blocks stop) (member : c ∈ blocks)
    (reached : c.addr ≤ a) (inHeader : a < c.addr + 16) : ¬ InUse blocks a := by
  rintro ⟨u, inList, -, above, below⟩
  rcases fills.apart member inList with rfl | before | after <;> simp only [Block.stop] at * <;>
    omega

theorem Contiguous.free_unused (fills : Contiguous start blocks stop) (member : c ∈ blocks)
    (free : c.free = true) (reached : c.addr ≤ a) (below : a < c.stop) : ¬ InUse blocks a := by
  rintro ⟨u, inList, used, above, inside⟩
  rcases fills.apart member inList with rfl | before | after
  · rw [free] at used
    contradiction
  · omega
  · omega

theorem Contiguous.link_unused (fills : Contiguous start (xs ++ c :: ys) stop)
    (nonempty : ys ≠ []) : ¬ InUse (xs ++ c :: ys) (front ys 0 + 12) := by
  obtain ⟨y, rest, rfl⟩ := exists_cons_of_ne_nil nonempty
  rw [front_cons]
  exact fills.header_unused (c := y) (by simp) (by omega) (by omega)

theorem Contiguous.above_unused (fills : Contiguous start blocks stop) (above : stop ≤ a) :
    ¬ InUse blocks a := by
  rintro ⟨u, inList, -, -, inside⟩
  have bound := (fills.bounds u inList).2
  omega

end

end Blocks
