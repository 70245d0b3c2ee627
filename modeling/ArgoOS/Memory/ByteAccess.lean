import ArgoOS.Memory.TaskMemory
import ArgoOS.Shared.Bytes

set_option autoImplicit false

/-!
# Bytes in memory

`memcpy` and `memset` to any address. The memory is kept word by word, so a byte is
stored by writing back the word around it.
-/

namespace ArgoOS.Memory

open Machine Blocks Option Function

def setByte (old i : Nat) (byte : UInt8) : Nat :=
  word old % 256 ^ i + byte.toNat * 256 ^ i + word old / 256 ^ (i + 1) * 256 ^ (i + 1)

def storeByte (m : Machine) (v : Nat) (byte : UInt8) : Option Machine := do
  let old ← m.load (v / 4 * 4)
  m.store (v / 4 * 4) (setByte old (v % 4) byte)

def storeBytes (m : Machine) (dest : Nat) (bytes : Nat → UInt8) : Nat → Option Machine
  | 0 => some m
  | n + 1 => do
    let m ← storeBytes m dest bytes n
    storeByte m (word (dest + n)) (bytes n)

def byteAt (w i : Nat) : Nat := w / 256 ^ i % 256

theorem setByte_lt (old : Nat) {i : Nat} (byte : UInt8) (small : i < 4) :
    setByte old i byte < 0x100000000 := by
  have bound := byte.toNat_lt
  have wordBound : word old < 0x100000000 := Nat.mod_lt _ (by decide)
  unfold setByte
  generalize word old = w at *
  rcases (by omega : i = 0 ∨ i = 1 ∨ i = 2 ∨ i = 3) with rfl | rfl | rfl | rfl <;> omega

theorem byteAt_setByte (old : Nat) {i k : Nat} (byte : UInt8) (small : i < 4) (other : k < 4) :
    byteAt (setByte old i byte) k = if k = i then byte.toNat else byteAt (word old) k := by
  have bound := byte.toNat_lt
  have wordBound : word old < 0x100000000 := Nat.mod_lt _ (by decide)
  unfold setByte byteAt
  generalize word old = w at *
  rcases (by omega : i = 0 ∨ i = 1 ∨ i = 2 ∨ i = 3) with rfl | rfl | rfl | rfl <;>
    rcases (by omega : k = 0 ∨ k = 1 ∨ k = 2 ∨ k = 3) with rfl | rfl | rfl | rfl <;> simp <;> omega

theorem word_of_bytes {w : Nat} (base : Nat) (bytes : Nat → UInt8) (bound : w < 0x100000000)
    (same : ∀ i < 4, byteAt w i = (bytes (base + i)).toNat) :
    w = (Bytes.loadWord bytes base).toNat := by
  have first := same 0 (by decide)
  have second := same 1 (by decide)
  have third := same 2 (by decide)
  have fourth := same 3 (by decide)
  have bound0 := (bytes base).toNat_lt
  have bound1 := (bytes (base + 1)).toNat_lt
  have bound2 := (bytes (base + 2)).toNat_lt
  have bound3 := (bytes (base + 3)).toNat_lt
  simp only [byteAt, Nat.add_zero] at first second third fourth
  simp only [Bytes.loadWord, UInt32.toNat_ofNat']
  omega

variable {m m' : Machine}

section

variable {blocks : List Block}

theorem storeBytes_effect {written : Nat → Prop}
    (safe : ∀ {m m' : Machine} (a value : Nat), HeapOk m blocks → written a →
      m.store a value = some m' → Stores written m m' ∧ HeapOk m' blocks)
    (ok : HeapOk m blocks) {dest : Nat} {bytes : Nat → UInt8} {n : Nat}
    (inside : ∀ k < n, written (word (dest + k) / 4 * 4))
    (stored : storeBytes m dest bytes n = some m') : Stores written m m' ∧ HeapOk m' blocks := by
  induction n generalizing m' with
  | zero =>
    obtain rfl : m = m' := some.inj stored
    exact ⟨.refl _ m, ok⟩
  | succ n ih =>
    obtain ⟨m1, first, stored⟩ := bind_eq_some_iff.mp stored
    obtain ⟨old, -, stored⟩ := bind_eq_some_iff.mp stored
    obtain ⟨stores1, ok1⟩ := ih (fun k below => inside k (by omega)) first
    obtain ⟨stores2, ok2⟩ := safe _ _ ok1 (inside n (by omega)) stored
    exact ⟨stores1.trans stores2, ok2⟩

theorem HeapOk.storeBytesAbove (ok : HeapOk m blocks) (dest : Nat) (bytes : Nat → UInt8) (n : Nat)
    (above : heapEnd ≤ dest) (below : dest + n ≤ 0x100000000)
    (stored : storeBytes m dest bytes n = some m') :
    Stores (heapEnd ≤ ·) m m' ∧ HeapOk m' blocks := by
  refine storeBytes_effect (fun a value ok inside stored => ok.storeAbove a value inside stored)
    ok ?_ stored
  intro k small
  rw [word_eq _ (by omega)]
  simp only [heapEnd, heapBase, heapMaxSize] at *
  omega

section

variable (ok : HeapOk m blocks) (b : Block) (member : b ∈ blocks) (bytes : Nat → UInt8) (n : Nat)
  (fits : n ≤ b.size) (stored : storeBytes m (b.addr + 16) bytes n = some m')

include ok b member bytes n fits stored

theorem HeapOk.storeBytesPayload : Stores (InPayload b) m m' ∧ HeapOk m' blocks := by
  have aligned := ok.shape.aligned b member
  have inside := (ok.shape.bounds b member).2
  have limit := ok.limit
  refine storeBytes_effect (fun a value ok inside stored =>
    ok.storePayload b member a value inside.1 inside.2 stored) ok ?_ stored
  intro k small
  simp only [InPayload, Block.stop, heapEnd, heapBase, heapMaxSize] at *
  rw [word_eq _ (by omega)]
  omega

theorem storeBytes_words (k : Nat) (inside : 4 * k + 4 ≤ n) :
    m'.view allGood (b.addr + 16 + 4 * k) = some (Bytes.loadWord bytes (4 * k)).toNat := by
  have aligned := ok.shape.aligned b member
  have limit := ok.limit
  have place := ok.shape.bounds b member
  simp only [Block.stop, heapEnd, heapBase, heapMaxSize] at place limit
  -- Byte by byte, each word that was touched is a machine word.
  have bytewise : ∀ i < n, ∃ w, m'.view allGood (b.addr + 16 + i / 4 * 4) = some w ∧
      w < 0x100000000 ∧ byteAt w (i % 4) = (bytes i).toNat := by
    clear inside
    induction n generalizing m' with
    | zero => exact fun i below => absurd below (Nat.not_lt_zero i)
    | succ n ih =>
      obtain ⟨m1, first, stored⟩ := bind_eq_some_iff.mp stored
      obtain ⟨old, loaded, stored⟩ := bind_eq_some_iff.mp stored
      have known := ih (by omega) first
      obtain ⟨-, ok1⟩ := ok.storeBytesPayload b member bytes n (by omega) first
      rw [word_eq _ (by omega)] at loaded stored
      have address : (b.addr + 16 + n) / 4 * 4 = b.addr + 16 + n / 4 * 4 := by omega
      have offset : (b.addr + 16 + n) % 4 = n % 4 := by omega
      rw [address] at loaded stored
      rw [offset] at stored
      obtain ⟨sees', -⟩ := ok1.sees.store _ _ (by simp only [heapBase]; omega) stored
      intro i below
      by_cases sameWord : i / 4 = n / 4
      · rw [sees'.view, sameWord, update_self]
        refine ⟨_, rfl, setByte_lt old _ (by omega), ?_⟩
        rw [byteAt_setByte old _ (by omega) (by omega)]
        by_cases here : i = n
        · rw [here, if_pos rfl]
        · obtain ⟨w, view, bound, byte⟩ := known i (by omega)
          rw [sameWord, ok1.sees.load_eq _ (by simp only [heapBase]; omega), loaded,
            some.injEq] at view
          rw [if_neg (by omega), view, word_eq w bound, byte]
      · obtain ⟨w, view, bound, byte⟩ := known i (by omega)
        refine ⟨w, ?_, bound, byte⟩
        rw [sees'.view, update_of_ne (by omega)]
        exact view
  obtain ⟨w, view, bound, -⟩ := bytewise (4 * k) (by omega)
  rw [show 4 * k / 4 * 4 = 4 * k by omega] at view
  rw [view, word_of_bytes (4 * k) bytes bound]
  intro i small
  obtain ⟨w', view', -, byte⟩ := bytewise (4 * k + i) (by omega)
  rw [show (4 * k + i) / 4 * 4 = 4 * k by omega, view, some.injEq] at view'
  rw [show (4 * k + i) % 4 = i by omega] at byte
  rw [view', byte]

end

theorem Mapping.storeBytes {tables pages : Nat → Option Nat} (mapping : Mapping m allGood tables pages)
    (dest : Nat) (bytes : Nat → UInt8) (n : Nat) (base : heapBase ≤ dest)
    (bound : dest + n ≤ 0x100000000)
    (mapped : ∀ a, dest ≤ a → a < dest + n → pages (a / pageSize) ≠ none) :
    ∃ m', Memory.storeBytes m dest bytes n = some m' ∧ Mapping m' allGood tables pages ∧
      SameBut m m' ∧
        ∀ a, (∀ k < n, a ≠ (dest + k) / 4 * 4) → m'.view allGood a = m.view allGood a := by
  induction n with
  | zero => exact ⟨m, rfl, mapping, .refl m, fun _ _ => rfl⟩
  | succ n ih =>
    obtain ⟨m1, first, mapping1, same1, view1⟩ := ih (by omega)
      (fun a low high => mapped a low (by omega))
    obtain ⟨g, page⟩ := Option.ne_none_iff_exists'.mp (mapped (dest + n) (by omega) (by omega))
    have samePage : (dest + n) / 4 * 4 / pageSize = (dest + n) / pageSize := by
      simp only [pageSize]
      omega
    have high : heapBase ≤ (dest + n) / 4 * 4 := by
      simp only [heapBase] at *
      omega
    have aligned : (dest + n) / 4 * 4 % 4 = 0 := by omega
    have loaded := mapping1.load_high _ high rfl
    rw [if_pos aligned, samePage, page, map_some] at loaded
    have stored := mapping1.store_eq (setByte (m1.ram (g * pageSize + (dest + n) / 4 * 4 % pageSize))
      ((dest + n) % 4) (bytes n)) high rfl aligned (samePage ▸ page)
    refine ⟨_, ?_, mapping1.store_mapping _ _ high rfl stored, same1.trans (store_same stored), ?_⟩
    · simp only [Memory.storeBytes, first, bind_eq_bind, bind_some, storeByte,
        word_eq (dest + n) (by omega), loaded]
      exact stored
    · intro a outside
      rw [mapping1.store_view _ _ high rfl stored, update_of_ne (outside n (by omega))]
      exact view1 a fun k below => outside k (by omega)

end

section

variable {view : View}

def loadByte (m : Machine) (v : Nat) : Option Nat :=
  (m.load (v / 4 * 4)).map fun w => byteAt (word w) (v % 4)

theorem word_high {v : Nat} (high : heapBase ≤ v) : heapBase ≤ v / 4 * 4 := by
  simp only [heapBase] at *
  omega

theorem loadByte_congr {v : Nat} (high : heapBase ≤ v)
    (same : m'.view allGood (v / 4 * 4) = m.view allGood (v / 4 * 4)) :
    loadByte m' v = loadByte m v := by
  simp only [Machine.view, word_high high, allGood, and_self, if_true] at same
  rw [loadByte, same, loadByte]

theorem Sees.storeByte (sees : Sees m view) (v : Nat) (byte : UInt8) (high : heapBase ≤ v)
    (stored : Memory.storeByte m v byte = some m') (a : Nat) (above : heapBase ≤ a) :
    loadByte m' a = if a = v then some byte.toNat else loadByte m a := by
  obtain ⟨old, loaded, stored⟩ := bind_eq_some_iff.mp stored
  obtain ⟨sees', -⟩ := sees.store _ _ (word_high high) stored
  by_cases sameWord : a / 4 = v / 4
  · have new : m'.load (v / 4 * 4) = some (setByte old (v % 4) byte) := by
      rw [← sees'.load_eq _ (word_high high), update_self]
    rw [loadByte, loadByte, sameWord, new, loaded, map_some, map_some,
      word_eq _ (setByte_lt old byte (by omega)), byteAt_setByte old byte (by omega) (by omega)]
    by_cases here : a = v
    · rw [if_pos here, if_pos (by rw [here])]
    · rw [if_neg here, if_neg (by omega)]
  · rw [if_neg (by rintro rfl; exact sameWord rfl)]
    refine loadByte_congr above ?_
    rw [sees'.view, update_of_ne (by omega), sees.view]

section

variable {tables pages : Nat → Option Nat} (mapping : Mapping m allGood tables pages) (dest : Nat)
  (bytes : Nat → UInt8) (n : Nat) (high : heapBase ≤ dest) (bound : dest + n ≤ 0x100000000)

include mapping high bound

theorem Mapping.after_storeBytes (stored : Memory.storeBytes m dest bytes n = some m') :
    Mapping m' allGood tables pages := by
  induction n generalizing m' with
  | zero =>
    obtain rfl : m = m' := some.inj stored
    exact mapping
  | succ n ih =>
    obtain ⟨m1, first, stored⟩ := bind_eq_some_iff.mp stored
    rw [word_eq _ (by omega)] at stored
    obtain ⟨old, -, stored⟩ := bind_eq_some_iff.mp stored
    exact (ih (by omega) first).store_mapping _ _ (word_high (by omega)) rfl stored

theorem Mapping.storeBytes_bytes (stored : Memory.storeBytes m dest bytes n = some m') (a : Nat)
    (above : heapBase ≤ a) : loadByte m' a =
      if dest ≤ a ∧ a < dest + n then some (bytes (a - dest)).toNat else loadByte m a := by
  induction n generalizing m' with
  | zero =>
    obtain rfl : m = m' := some.inj stored
    rw [if_neg (by omega)]
  | succ n ih =>
    obtain ⟨m1, first, stored⟩ := bind_eq_some_iff.mp stored
    rw [word_eq _ (by omega)] at stored
    have mapping1 := mapping.after_storeBytes dest bytes n high (by omega) first
    have sees1 : Sees m1 (m1.view allGood) := ⟨⟨tables, pages, mapping1⟩, rfl⟩
    rw [sees1.storeByte _ _ (by omega) stored a above, ih (by omega) first]
    by_cases last : a = dest + n
    · rw [if_pos last, if_pos (by omega), last, Nat.add_sub_cancel_left]
    · rw [if_neg last]
      by_cases inside : dest ≤ a ∧ a < dest + n
      · rw [if_pos inside, if_pos (by omega)]
      · rw [if_neg inside, if_neg (by omega)]

end

end

end ArgoOS.Memory
