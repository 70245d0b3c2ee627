import ArgoOS.Memory.Heap
import ArgoOS.Shared.Blocks
import Mathlib

set_option autoImplicit false

/-! # Block lists of the heap -/

namespace ArgoOS.Memory

open Blocks List

structure Tiled (blocks : List Block) (limit : Nat) : Prop where
  fills : ∃ stop, Contiguous heapBase blocks stop ∧ stop ≤ limit
  sizes : ∀ b ∈ blocks, b.size % 4 = 0 ∧ 4 ≤ b.size

def Parted (a b : Block) : Prop := a.free = false ∨ b.free = false

structure Shape (blocks : List Block) (limit : Nat) : Prop extends Tiled blocks limit where
  parted : blocks.IsChain Parted

variable {limit : Nat} {blocks : List Block} {u : Block}

theorem Tiled.bounds (tiled : Tiled blocks limit) (b : Block) (member : b ∈ blocks) :
    heapBase ≤ b.addr ∧ b.stop ≤ limit := by
  obtain ⟨stop, fills, bound⟩ := tiled.fills
  have inside := fills.bounds b member
  omega

theorem Contiguous.aligned {start stop : Nat} (fills : Contiguous start blocks stop)
    (sizes : ∀ b ∈ blocks, b.size % 4 = 0) (aligned : start % 4 = 0) :
    ∀ b ∈ blocks, b.addr % 4 = 0 := by
  induction blocks generalizing start with
  | nil => simp
  | cons x xs ih =>
    have first := sizes x (by simp)
    have place := fills.1
    have rest := ih fills.2 (fun b member => sizes b (by simp [member]))
      (by simp only [Block.stop]; omega)
    intro b member
    rcases mem_cons.mp member with rfl | later
    · omega
    · exact rest b later

theorem Tiled.aligned (tiled : Tiled blocks limit) : ∀ b ∈ blocks, b.addr % 4 = 0 := by
  obtain ⟨stop, fills, -⟩ := tiled.fills
  exact Contiguous.aligned fills (fun b member => (tiled.sizes b member).1) (by decide)

theorem Tiled.mono {limit' : Nat} (tiled : Tiled blocks limit) (larger : limit ≤ limit') :
    Tiled blocks limit' := by
  obtain ⟨stop, fills, bound⟩ := tiled.fills
  exact ⟨⟨stop, fills, by omega⟩, tiled.sizes⟩

theorem Tiled.exchange {xs middle ys : List Block} (tiled : Tiled (xs ++ (middle ++ ys)) limit)
    (middle' : List Block)
    (fills : ∀ start stop, Contiguous start middle stop → Contiguous start middle' stop)
    (sizes : (∀ b ∈ middle, b.size % 4 = 0 ∧ 4 ≤ b.size) →
      ∀ b ∈ middle', b.size % 4 = 0 ∧ 4 ≤ b.size) : Tiled (xs ++ (middle' ++ ys)) limit := by
  obtain ⟨stop, whole, bound⟩ := tiled.fills
  obtain ⟨first, before, rest⟩ := (contiguous_append _ _ _ _).mp whole
  obtain ⟨last, inner, after⟩ := (contiguous_append _ _ _ _).mp rest
  refine ⟨⟨stop, ?_, bound⟩, ?_⟩
  · exact (contiguous_append _ _ _ _).mpr ⟨first, before,
      (contiguous_append _ _ _ _).mpr ⟨last, fills first last inner, after⟩⟩
  · intro b member
    rcases mem_append.mp member with early | late
    · exact tiled.sizes b (by simp [early])
    rcases mem_append.mp late with new | old
    · exact sizes (fun c inMiddle => tiled.sizes c (by simp [inMiddle])) b new
    · exact tiled.sizes b (by simp [old])

/-- Beside a free block every block is used, so any block may take its place. -/
theorem parted_head {ys : List Block} {b : Block} (after : (b :: ys).IsChain Parted)
    (isFree : b.free = true) (c : Block) : (c :: ys).IsChain Parted := by
  rw [isChain_cons] at after ⊢
  exact ⟨fun y first => .inr ((after.1 y first).resolve_left (by simp [isFree])), after.2⟩

theorem parted_last {xs : List Block} {b : Block} (before : (xs ++ [b]).IsChain Parted)
    (isFree : b.free = true) (c : Block) : (xs ++ [c]).IsChain Parted := by
  obtain ⟨first, -, joint⟩ := List.isChain_append.mp before
  refine List.isChain_append.mpr ⟨first, by simp, fun x last y _ => .inl ?_⟩
  exact (joint x last b (by simp)).resolve_right (by simp [isFree])

theorem mem_exchange {xs ys ys' : List Block} {b c : Block} (member : u ∈ xs ++ b :: ys)
    (isFree : b.free = true) (used : u.free = false) (rest : u ∈ ys → u ∈ ys') :
    u ∈ xs ++ c :: ys' := by
  have other : u ≠ b := by
    rintro rfl
    simp [isFree] at used
  simp only [mem_append, mem_cons, other, false_or] at member ⊢
  exact member.imp_right fun later => .inr (rest later)

variable {xs ys : List Block} {b : Block}

section

def splitHead (b : Block) (size : Nat) : Block :=
  if 20 ≤ b.size - size then { b with size } else b

def splitRest (b : Block) (size : Nat) : List Block :=
  if 20 ≤ b.size - size then [⟨b.addr + 16 + size, b.size - size - 16, true⟩] else []

def takenHead (b : Block) (size : Nat) : Block := { splitHead b size with free := false }

@[simp] theorem splitHead_addr (b : Block) (size : Nat) : (splitHead b size).addr = b.addr := by
  unfold splitHead
  split <;> rfl

@[simp] theorem takenHead_addr (b : Block) (size : Nat) : (takenHead b size).addr = b.addr :=
  splitHead_addr b size

theorem takenHead_size {b : Block} {size : Nat} (fits : size ≤ b.size) :
    size ≤ (takenHead b size).size := by
  unfold takenHead splitHead
  split
  · exact Nat.le_refl size
  · exact fits

variable {size : Nat}

theorem Tiled.split (tiled : Tiled (xs ++ b :: ys) limit) (fits : size ≤ b.size)
    (words : size % 4 = 0 ∧ 4 ≤ size) (free : Bool) :
    Tiled (xs ++ { splitHead b size with free } :: (splitRest b size ++ ys)) limit := by
  have whole : Tiled (xs ++ ([b] ++ ys)) limit := by simpa using tiled
  have exchanged := whole.exchange ({ splitHead b size with free } :: splitRest b size) ?_ ?_
  · simpa using exchanged
  · rintro start stop ⟨rfl, filled⟩
    simp only [Contiguous, Block.stop] at filled
    by_cases splits : 20 ≤ b.size - size
    · simp only [splitHead, splitRest, splits, if_true, Contiguous, Block.stop, true_and]
      omega
    · simpa [splitHead, splitRest, splits, Contiguous, Block.stop] using filled
  · intro old c member
    have sizeOld := old b (by simp)
    by_cases splits : 20 ≤ b.size - size
    · simp only [splitHead, splitRest, splits, if_true, mem_cons, not_mem_nil,
        or_false] at member
      rcases member with rfl | rfl
      · exact words
      · simp only
        omega
    · simp only [splitHead, splitRest, splits, if_false, mem_cons, not_mem_nil,
        or_false] at member
      subst member
      exact sizeOld

theorem Shape.take (shape : Shape (xs ++ b :: ys) limit) (isFree : b.free = true)
    (fits : size ≤ b.size) (words : size % 4 = 0 ∧ 4 ≤ size) :
    Shape (xs ++ takenHead b size :: (splitRest b size ++ ys)) limit := by
  obtain ⟨before, after⟩ := List.isChain_split.mp shape.parted
  have rest : (splitRest b size ++ ys).IsChain Parted := by
    unfold splitRest
    split
    · exact parted_head after isFree _
    · exact after.tail
  refine ⟨shape.toTiled.split fits words false, List.isChain_split.mpr ⟨?_, ?_⟩⟩
  · exact parted_last before isFree _
  · exact isChain_cons.mpr ⟨fun _ _ => .inl rfl, rest⟩

theorem mem_split {c : Block} (member : u ∈ xs ++ b :: ys) (isFree : b.free = true)
    (used : u.free = false) : u ∈ xs ++ c :: (splitRest b size ++ ys) :=
  mem_exchange member isFree used fun later => mem_append_right _ later

theorem extent_take (fits : size ≤ b.size) :
    extent (xs ++ takenHead b size :: (splitRest b size ++ ys)) = extent (xs ++ b :: ys) := by
  by_cases splits : 20 ≤ b.size - size
  · simp only [takenHead, splitHead, splitRest, splits, if_true, extent_append, extent_cons,
      extent_nil]
    omega
  · simp [takenHead, splitHead, splitRest, splits]

theorem usedBlocks_take :
    usedBlocks (xs ++ takenHead b size :: (splitRest b size ++ ys)) =
      usedBlocks xs ++ takenHead b size :: usedBlocks ys := by
  have rest : usedBlocks (splitRest b size) = [] := by
    unfold splitRest
    split <;> simp [usedBlocks]
  rw [usedBlocks_append, usedBlocks_used rfl, usedBlocks_append, rest, nil_append]

end

section

def growList (xs : List Block) (b : Block) (expandSize : Nat) : List Block × Block :=
  if b.free then (xs, { b with size := b.size + expandSize })
  else (xs ++ [b], ⟨b.stop, expandSize - 16, true⟩)

variable {expandSize limit' : Nat}

theorem growList_free : (growList xs b expandSize).2.free = true := by
  unfold growList
  cases b.free <;> simp

theorem growList_size (xs : List Block) (b : Block) (size : Nat) :
    size ≤ (growList xs b (size + 16)).2.size := by
  unfold growList
  cases b.free
  · simp
  · simp only [if_true]
    omega

theorem Shape.grow (shape : Shape (xs ++ [b]) limit) (words : expandSize % 4 = 0)
    (room : 20 ≤ expandSize) (larger : limit + expandSize ≤ limit') :
    Shape ((growList xs b expandSize).1 ++ [(growList xs b expandSize).2]) limit' := by
  obtain ⟨stop, whole, bound⟩ := shape.fills
  obtain ⟨first, before, rfl, rfl⟩ := (contiguous_append _ _ _ _).mp whole
  have size := shape.sizes b (by simp)
  unfold growList
  cases free : b.free with
  | true =>
    simp only [if_true]
    refine ⟨⟨⟨_, (contiguous_append _ _ _ _).mpr ⟨_, before, rfl, rfl⟩, ?_⟩, ?_⟩,
      parted_last shape.parted free _⟩
    · simp only [Block.stop] at *
      omega
    · refine List.forall_mem_append.mpr ⟨fun c old => shape.sizes c (by simp [old]), ?_⟩
      simp only [forall_mem_singleton]
      omega
  | false =>
    simp only [Bool.false_eq_true, if_false]
    refine ⟨⟨⟨_, (contiguous_append _ _ _ _).mpr ⟨_, whole, rfl, rfl⟩, ?_⟩, ?_⟩, ?_⟩
    · simp only [Block.stop] at *
      omega
    · refine List.forall_mem_append.mpr ⟨shape.sizes, ?_⟩
      simp only [forall_mem_singleton]
      omega
    · rw [append_assoc]
      exact List.isChain_split.mpr ⟨shape.parted, by simp [Parted, free]⟩

theorem extent_grow (room : 16 ≤ expandSize) :
    extent ((growList xs b expandSize).1 ++ [(growList xs b expandSize).2]) =
      extent (xs ++ [b]) + expandSize := by
  unfold growList
  cases b.free
  · simp only [Bool.false_eq_true, if_false, extent_append, extent_cons, extent_nil]
    omega
  · simp only [if_true, extent_append, extent_cons, extent_nil]
    omega

theorem usedBlocks_grow : usedBlocks (growList xs b expandSize).1 = usedBlocks (xs ++ [b]) := by
  unfold growList
  cases free : b.free with
  | true => simp [usedBlocks_free free]
  | false => simp

theorem mem_grow (member : u ∈ xs ++ [b]) (used : u.free = false) :
    u ∈ (growList xs b expandSize).1 :=
  (mem_usedBlocks.mp (usedBlocks_grow ▸ mem_usedBlocks.mpr ⟨member, used⟩)).1

end

section

def mergeNextList (b : Block) : List Block → Block × List Block
  | [] => (b, [])
  | c :: ys => if c.free then ({ b with size := b.size + (16 + c.size) }, ys) else (b, c :: ys)

def mergePrevList (xs : List Block) (b : Block) (ys : List Block) : List Block :=
  match xs.getLast? with
  | some a =>
    if a.free then xs.dropLast ++ { a with size := a.size + (16 + b.size) } :: ys
    else xs ++ b :: ys
  | none => xs ++ b :: ys

def releaseList (xs : List Block) (b : Block) (ys : List Block) : List Block :=
  let merged := mergeNextList { b with free := true } ys
  mergePrevList xs merged.1 merged.2

theorem mergeNextList_cases (b : Block) (ys : List Block) :
    (mergeNextList b ys = (b, ys) ∧ ∀ c ∈ ys.head?, c.free = false) ∨
      ∃ c zs, ys = c :: zs ∧ c.free = true ∧
        mergeNextList b ys = ({ b with size := b.size + (16 + c.size) }, zs) := by
  cases ys with
  | nil => exact .inl ⟨rfl, by simp⟩
  | cons c ys =>
    cases free : c.free with
    | false => exact .inl (by simp [mergeNextList, free])
    | true => exact .inr ⟨c, ys, rfl, free, by simp [mergeNextList, free]⟩

theorem mergePrevList_cases (xs : List Block) (b : Block) (ys : List Block) :
    (mergePrevList xs b ys = xs ++ b :: ys ∧ ∀ a ∈ xs.getLast?, a.free = false) ∨
      ∃ zs a, xs = zs ++ [a] ∧ a.free = true ∧
        mergePrevList xs b ys = zs ++ { a with size := a.size + (16 + b.size) } :: ys := by
  rcases xs.eq_nil_or_concat' with rfl | ⟨xs, a, rfl⟩
  · exact .inl ⟨rfl, by simp⟩
  · cases free : a.free with
    | false => exact .inl (by simp [mergePrevList, free])
    | true => exact .inr ⟨xs, a, rfl, free, by simp [mergePrevList, free]⟩

theorem Tiled.setFree (tiled : Tiled (xs ++ b :: ys) limit) (free : Bool) :
    Tiled (xs ++ { b with free } :: ys) limit := by
  have whole : Tiled (xs ++ ([b] ++ ys)) limit := by simpa using tiled
  have exchanged := whole.exchange [{ b with free }] (fun _ _ fills => fills) ?_
  · simpa using exchanged
  · intro old c member
    simp only [mem_singleton] at member
    subst member
    exact old b (by simp)

theorem Tiled.absorb {a c : Block} (tiled : Tiled (xs ++ a :: c :: ys) limit) :
    Tiled (xs ++ { a with size := a.size + (16 + c.size) } :: ys) limit := by
  have whole : Tiled (xs ++ ([a, c] ++ ys)) limit := by simpa using tiled
  have exchanged := whole.exchange [{ a with size := a.size + (16 + c.size) }] ?_ ?_
  · simpa using exchanged
  · rintro start stop ⟨rfl, adjacent, filled⟩
    simp only [Contiguous, Block.stop] at adjacent filled
    simp only [Contiguous, Block.stop, true_and]
    omega
  · intro old d member
    have sizeA := old a (by simp)
    have sizeC := old c (by simp)
    simp only [mem_singleton] at member
    subst member
    simp only
    omega

theorem Tiled.mergeNext (tiled : Tiled (xs ++ b :: ys) limit) :
    Tiled (xs ++ (mergeNextList b ys).1 :: (mergeNextList b ys).2) limit := by
  obtain ⟨kept, -⟩ | ⟨c, zs, rfl, -, merged⟩ := mergeNextList_cases b ys
  · rw [kept]
    exact tiled
  · rw [merged]
    exact tiled.absorb

theorem Tiled.mergePrev (tiled : Tiled (xs ++ b :: ys) limit) :
    Tiled (mergePrevList xs b ys) limit := by
  obtain ⟨kept, -⟩ | ⟨zs, a, rfl, -, merged⟩ := mergePrevList_cases xs b ys
  · rw [kept]
    exact tiled
  · rw [merged]
    rw [append_assoc] at tiled
    exact tiled.absorb

theorem mergeNext_parted (parted : ys.IsChain Parted) :
    ((mergeNextList b ys).1 :: (mergeNextList b ys).2).IsChain Parted := by
  obtain ⟨kept, used⟩ | ⟨c, zs, rfl, free, merged⟩ := mergeNextList_cases b ys
  · rw [kept]
    exact isChain_cons.mpr ⟨fun y first => .inr (used y first), parted⟩
  · rw [merged]
    exact parted_head parted free _

theorem mergePrev_parted (before : xs.IsChain Parted) (after : (b :: ys).IsChain Parted)
    (isFree : b.free = true) : (mergePrevList xs b ys).IsChain Parted := by
  obtain ⟨kept, used⟩ | ⟨zs, a, rfl, free, merged⟩ := mergePrevList_cases xs b ys
  · rw [kept]
    exact List.isChain_append.mpr ⟨before, after, fun x last y _ => .inl (used x last)⟩
  · rw [merged]
    exact List.isChain_split.mpr ⟨parted_last before free _, parted_head after isFree _⟩

theorem mergeNext_head (b : Block) (ys : List Block) :
    (mergeNextList b ys).1.addr = b.addr ∧ (mergeNextList b ys).1.free = b.free := by
  obtain ⟨kept, -⟩ | ⟨c, zs, -, -, merged⟩ := mergeNextList_cases b ys
  · simp [kept]
  · simp [merged]

theorem releaseList_nonempty : releaseList xs b ys ≠ [] := by
  unfold releaseList mergePrevList
  split
  · split <;> simp
  · simp

theorem Shape.release (shape : Shape (xs ++ b :: ys) limit) : Shape (releaseList xs b ys) limit := by
  obtain ⟨before, after, -⟩ := List.isChain_append.mp shape.parted
  refine ⟨(shape.toTiled.setFree true).mergeNext.mergePrev, ?_⟩
  exact mergePrev_parted before (mergeNext_parted after.tail) (mergeNext_head _ ys).2

theorem extent_release : extent (releaseList xs b ys) = extent (xs ++ b :: ys) := by
  have next : ∀ c : Block, 16 + (mergeNextList c ys).1.size + extent (mergeNextList c ys).2 =
      16 + c.size + extent ys := by
    intro c
    obtain ⟨kept, -⟩ | ⟨d, zs, rfl, -, merged⟩ := mergeNextList_cases c ys
    · rw [kept]
    · simp only [merged, extent_cons]
      omega
  have merged := next { b with free := true }
  unfold releaseList
  generalize mergeNextList { b with free := true } ys = joined at merged
  simp only [extent_append, extent_cons] at merged ⊢
  obtain ⟨kept, -⟩ | ⟨zs, a, rfl, -, joins⟩ := mergePrevList_cases xs joined.1 joined.2
  · simp [kept, merged]
  · simp only [joins, extent_append, extent_cons, extent_nil]
    omega

theorem usedBlocks_mergeNext (b : Block) (ys : List Block) :
    usedBlocks (mergeNextList b ys).2 = usedBlocks ys := by
  obtain ⟨kept, -⟩ | ⟨c, zs, rfl, free, merged⟩ := mergeNextList_cases b ys
  · rw [kept]
  · rw [merged, usedBlocks_free free]

theorem usedBlocks_release : usedBlocks (releaseList xs b ys) = usedBlocks xs ++ usedBlocks ys := by
  have merged := usedBlocks_mergeNext { b with free := true } ys
  have isFree := (mergeNext_head { b with free := true } ys).2
  unfold releaseList
  generalize mergeNextList { b with free := true } ys = joined at merged isFree
  obtain ⟨kept, -⟩ | ⟨zs, a, rfl, free, joins⟩ := mergePrevList_cases xs joined.1 joined.2
  · rw [kept, usedBlocks_append, usedBlocks_free isFree, merged]
  · rw [joins, usedBlocks_append, usedBlocks_append, usedBlocks_free free, usedBlocks_nil,
      append_nil, usedBlocks_free (b := { a with size := _ + _ }) free, merged]

theorem mem_mergeNext (member : u ∈ xs ++ b :: ys) (isFree : b.free = true)
    (used : u.free = false) : u ∈ xs ++ (mergeNextList b ys).1 :: (mergeNextList b ys).2 :=
  mem_exchange member isFree used fun later =>
    (mem_usedBlocks.mp (usedBlocks_mergeNext b ys ▸ mem_usedBlocks.mpr ⟨later, used⟩)).1

theorem mem_release (member : u ∈ xs ++ b :: ys) (used : u.free = false) (other : u ≠ b) :
    u ∈ releaseList xs b ys := by
  refine (mem_usedBlocks.mp (?_ : u ∈ usedBlocks (releaseList xs b ys))).1
  rw [usedBlocks_release, mem_append, mem_usedBlocks, mem_usedBlocks]
  simp only [mem_append, mem_cons, other, false_or] at member
  exact member.imp (⟨·, used⟩) (⟨·, used⟩)

theorem used_of_release {start stop : Nat} (fills : Contiguous start (xs ++ b :: ys) stop)
    (member : u ∈ releaseList xs b ys) (used : u.free = false) :
    u ∈ xs ++ b :: ys ∧ u.addr ≠ b.addr := by
  have inUsed := mem_usedBlocks.mpr ⟨member, used⟩
  obtain ⟨before, after, -⟩ := fills.split
  simp only [Block.stop] at before after
  rw [usedBlocks_release] at inUsed
  rcases mem_append.mp inUsed with early | late
  · have inList := mem_of_mem_filter early
    have place := before u inList
    exact ⟨by simp [inList], by omega⟩
  · have inList := mem_of_mem_filter late
    have place := after u inList
    exact ⟨by simp [inList], by omega⟩

end

end ArgoOS.Memory
