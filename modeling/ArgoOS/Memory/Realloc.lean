import ArgoOS.Memory.Requests

set_option autoImplicit false

/-! # Resizing a block -/

namespace ArgoOS.Memory

open Machine Blocks

def SameWords (m m' : Machine) (u : Block) : Prop := ∀ a, InPayload u a → m'.load a = m.load a

structure Resized (m m' : Machine) (blocks blocks' : List Block) (b : Block) (n q : Nat) : Prop where
  ok : HeapOk m' blocks'
  mapped : HeapMapped m'
  others : ∀ u ∈ blocks, u.free = false → u ≠ b → u ∈ blocks' ∧ SameWords m m' u
  failed : q = 0 → b ∈ blocks' ∧ SameWords m m' b
  moved : q ≠ 0 → (∃ size, ksize m' q = some size ∧ n ≤ size) ∧
    ∀ offset < min b.size n, offset % 4 = 0 → m'.load (q + offset) = m.load (b.addr + 16 + offset)
  freed : q ≠ 0 → q ≠ b.addr + 16 → ∀ u ∈ blocks', u.free = false → u.addr ≠ b.addr

variable {a n : Nat} {u : Block}

variable {m : Machine} {blocks : List Block}

section

variable {m' : Machine} {blocks' : List Block}

theorem load_kept {written : Nat → Prop} (ok : HeapOk m blocks) (ok' : HeapOk m' blocks')
    (rewrites : Rewrites written (m.view allGood) (m'.view allGood)) (high : heapBase ≤ a)
    (outside : ¬ written a) : m'.load a = m.load a := by
  rw [← ok'.sees.load_eq a high, ← ok.sees.load_eq a high]
  exact rewrites.same outside

theorem HeapOk.payload_high (ok : HeapOk m blocks) (member : u ∈ blocks) (inside : InPayload u a) :
    heapBase ≤ a := by
  have base := (ok.shape.bounds u member).1
  have reached := inside.1
  omega

theorem SameWords.of_rewrites {written : Nat → Prop} (ok : HeapOk m blocks)
    (ok' : HeapOk m' blocks') (rewrites : Rewrites written (m.view allGood) (m'.view allGood))
    (member : u ∈ blocks) (outside : ∀ a, InPayload u a → ¬ written a) : SameWords m m' u :=
  fun a inside => load_kept ok ok' rewrites (ok.payload_high member inside) (outside a inside)

theorem SameWords.trans {a b c : Machine} (first : SameWords a b u) (second : SameWords b c u) :
    SameWords a c u :=
  fun k inside => (second k inside).trans (first k inside)

theorem Enlarges.words (enlarges : Enlarges blocks n m m') (ok : HeapOk m blocks)
    (ok' : HeapOk m' blocks') (member : u ∈ blocks) (used : u.free = false) : SameWords m m' u :=
  .of_rewrites ok ok' enlarges.rewrites member
    fun _ inside => not_not_intro ⟨u, member, used, inside⟩

theorem HeapOk.apart (ok : HeapOk m blocks) {b c : Block} (first : b ∈ blocks) (second : c ∈ blocks)
    (different : b ≠ c) (inside : InPayload b a) : ¬ InPayload c a := by
  obtain ⟨stop, fills, -⟩ := ok.shape.fills
  intro inOther
  obtain ⟨reached, below⟩ := inside
  obtain ⟨reached', below'⟩ := inOther
  rcases fills.apart first second with same | before | after
  · exact different same
  · omega
  · omega

theorem copyWords_copies (ok : HeapOk m blocks) (mapped : HeapMapped m) {b c : Block}
    (source : b ∈ blocks) (dest : c ∈ blocks) (different : b ≠ c) (n : Nat) (holds : 4 * n ≤ b.size)
    (fits : 4 * n ≤ c.size) :
    ∃ m', copyWords m (c.addr + 16) (b.addr + 16) n = some m' ∧ Stores (InPayload c) m m' ∧
      HeapOk m' blocks ∧ ∀ i < n, m'.load (c.addr + 16 + 4 * i) = m.load (b.addr + 16 + 4 * i) := by
  induction n with
  | zero => exact ⟨m, rfl, .refl _ m, ok, by simp⟩
  | succ n ih =>
    obtain ⟨m1, copied, same1, ok1, words1⟩ := ih (by omega) (by omega)
    have mapped1 : HeapMapped m1 := mapped.mono same1.rewrites same1.heapSize
    have places := ok.shape.aligned b source
    have places' := ok.shape.aligned c dest
    have inSource : InPayload b (b.addr + 16 + 4 * n) := ⟨by omega, by simp only [Block.stop]; omega⟩
    have inDest : InPayload c (c.addr + 16 + 4 * n) := ⟨by omega, by simp only [Block.stop]; omega⟩
    obtain ⟨value, read⟩ := Option.ne_none_iff_exists'.mp
      (ok1.known mapped1 source (by omega) inSource.2 (by omega))
    obtain ⟨m2, stored⟩ := (ok1.sees.store_yields _ value (ok1.payload_high dest inDest)
      fun _ : True => ok1.known mapped1 dest (by omega) inDest.2 (by omega)).returns trivial
    obtain ⟨same2, ok2, written⟩ := ok1.storeWord c dest _ value inDest.1 inDest.2 stored
    have loaded := ok1.sees.load _ read
    refine ⟨m2, ?_, same1.trans (same2.mono fun k here => here ▸ inDest), ok2, ?_⟩
    · rw [copyWords, copied, Option.bind_eq_bind, Option.bind_some, loaded]
      exact stored
    · intro i small
      by_cases last : i = n
      · rw [last, ok2.sees.load _ written, ← loaded]
        exact load_kept ok ok1 same1.rewrites (ok.payload_high source inSource)
          (ok.apart source dest different inSource)
      · have base := (ok.shape.bounds c dest).1
        rw [load_kept ok1 ok2 same2.rewrites (by omega) (by omega)]
        exact words1 i (by omega)

end

section

theorem Resized.same (ok : HeapOk m blocks) (mapped : HeapMapped m) (b : Block)
    (member : b ∈ blocks) (large : n ≤ b.size) : Resized m m blocks blocks b n (b.addr + 16) := by
  refine ⟨ok, mapped, fun u inList _ _ => ⟨inList, fun _ _ => rfl⟩, by simp, fun _ => ⟨?_, ?_⟩, ?_⟩
  · exact (ok.inBounds b member large).large
  · exact fun _ _ _ => rfl
  · exact fun _ other => absurd rfl other

theorem krealloc_moves (ok : HeapOk m blocks) {b : Block} (member : b ∈ blocks)
    (used : b.free = false) {p : Nat} {m1 : Machine} {blocks1 : List Block} (small : b.size < n)
    (enlarges : Enlarges blocks n m m1) (mapped1 : HeapMapped m1)
    (effect : Allocated m1 blocks blocks1 n p) (nonzero : p ≠ 0) :
    ∃ m2 m3 blocks3, copyWords m1 p (b.addr + 16) (b.size / 4) = some m2 ∧
      kfree m2 (b.addr + 16) = some m3 ∧ Resized m m3 blocks blocks3 b n p := by
  obtain ⟨c, inNew, usedNew, rfl, fits, apart⟩ := effect.new nonzero
  have stays := effect.kept b member used
  have differs : b ≠ c := fun same => apart b member used (by rw [same])
  have words := ok.shape.sizes b member
  obtain ⟨m2, copied, same2, ok2, words2⟩ := copyWords_copies effect.ok mapped1 stays inNew differs
    (b.size / 4) (by omega) (by omega)
  obtain ⟨m3, freed⟩ := (ok2.free b stays used).returns trivial
  obtain ⟨same3, blocks3, ok3, kept3, only3⟩ := (ok2.free b stays used).post _ freed
  have inNew3 : c ∈ blocks3 := kept3 c inNew usedNew differs.symm
  have unfreed : ∀ u ∈ blocks1, u.free = false → u ≠ b → SameWords m2 m3 u :=
    fun u inList isUsed other => .of_rewrites ok2 ok3 same3.rewrites inList
      fun a inside written => written u inList isUsed other inside
  refine ⟨m2, m3, blocks3, copied, freed, ok3, ?_, ?_, fun zero => absurd zero nonzero,
    fun _ => ⟨(ok3.inBounds c inNew3 fits).large, ?_⟩, fun _ _ u inList isUsed =>
      (only3 u inList isUsed).2⟩
  · exact (mapped1.mono same2.rewrites same2.heapSize).mono same3.rewrites same3.heapSize
  · intro u inList isUsed other
    have inNew1 := effect.kept u inList isUsed
    refine ⟨kept3 u inNew1 isUsed other, ?_⟩
    have kept1 := enlarges.words ok effect.ok inList isUsed
    have kept2 : SameWords m1 m2 u := .of_rewrites effect.ok ok2 same2.rewrites inNew1
      fun a inside => effect.ok.apart inNew1 inNew (fun same => apart u inList isUsed (by rw [same]))
        inside
    exact (kept1.trans kept2).trans (unfreed u inNew1 isUsed other)
  · intro offset below aligned
    have inside : offset < b.size := by omega
    have place : offset = 4 * (offset / 4) := by omega
    calc m3.load (c.addr + 16 + offset)
        = m2.load (c.addr + 16 + offset) := unfreed c inNew usedNew differs.symm _
          ⟨by omega, by simp only [Block.stop]; omega⟩
      _ = m1.load (b.addr + 16 + offset) := by
          rw [place]
          exact words2 (offset / 4) (by omega)
      _ = m.load (b.addr + 16 + offset) := enlarges.words ok effect.ok member used _
          ⟨by omega, by simp only [Block.stop]; omega⟩

def clashConfig : BootConfig where
  ram := fun _ => 0
  info := ⟨1, 640, 5520, []⟩
  firstPageTableAt := 0x105000
  aligned := tableAt_aligned
  image := tableAt_image

def clashMachine : Machine := (firstHeader (bootPages clashConfig 1540)).get (by decide +kernel)

theorem clash_boot : boot clashConfig = some clashMachine ∧ FirstTable clashMachine 256 1540 :=
  boot_firstTable (Option.some_get _).symm (by decide) (by decide) (by decide)
    (by decide) (by decide)

attribute [irreducible] clashMachine

end

end ArgoOS.Memory
