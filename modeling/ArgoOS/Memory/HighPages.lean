import ArgoOS.Memory.TaskMemory

set_option autoImplicit false

/-! # Pages above the heap -/

namespace ArgoOS.Memory

open Machine Blocks Option Function

-- Where the hardware shows the screen, and how large it is.
structure Framebuffer where
  address : Nat
  width : Nat
  height : Nat
  bpp : Nat
deriving DecidableEq, Repr

def Framebuffer.pages (fb : Framebuffer) : Nat :=
  word (word (fb.width * fb.height * (fb.bpp / 8)) + 0xFFF) / 0x1000

def mapFramebuffer (framebuffer : Nat) : Nat → Nat → Machine → Option Machine
  | 0, _, m => some m
  | n + 1, i, m => do
    let addr := word (framebuffer + i * 0x1000)
    let m ← pagingMapPage m addr addr (pagePresent ||| pageWritable)
    mapFramebuffer framebuffer n (i + 1) m

def graphicsInit (m : Machine) (fb : Framebuffer) : Option Machine :=
  if fb.address = 0 then some m else mapFramebuffer fb.address fb.pages 0 m

variable {m m' : Machine}

variable {v flags : Nat} {fb : Framebuffer}

section

structure Frames where
  pmm : Pmm
  present : Nat → Bool

def Machine.frameState (m : Machine) : Frames :=
  ⟨m.pmm, fun i => decide (Present (m.pageDirectory i))⟩

namespace Frames

def mapPage (f : Frames) (v : Nat) : Frames :=
  if f.present (pdIndex v) = true then f
  else
    match pmmAllocPage f.pmm with
    | none => f
    | some (_, pmm) => ⟨pmm, Function.update f.present (pdIndex v) true⟩

-- If the page has no table yet, the frame for one lies in the first four megabytes.
def TableBelow (f : Frames) (v : Nat) : Prop :=
  f.present (pdIndex v) = false → ∀ table pmm, pmmAllocPage f.pmm = some (table, pmm) → table < 1024

end Frames

theorem KeepsDirectory.frameState (keeps : KeepsDirectory m m') : m'.frameState = m.frameState := by
  rw [Machine.frameState, keeps.pmm, keeps.pageDirectory, Machine.frameState]

theorem SameBut.frameState (same : SameBut m m') : m'.frameState = m.frameState := by
  rw [Machine.frameState, same.pmm, same.pageDirectory, Machine.frameState]

theorem tableLow_of_below (below : m.frameState.TableBelow v) : TableLow m v :=
  fun absent => below (decide_eq_false absent)

theorem pagingMapPage_frameState (ok : PmmOk m.pmm) {physicalAddr : Nat}
    (mapped : pagingMapPage m v physicalAddr flags = some m') :
    m'.frameState = m.frameState.mapPage v := by
  unfold Frames.mapPage
  rw [show m.frameState.pmm = m.pmm from rfl]
  cases pagingMapPage_cases ok mapped with
  | table present keeps =>
    rw [if_pos (by exact decide_eq_true present)]
    exact keeps.frameState
  | exhausted absent none same =>
    rw [if_neg (by simpa [Machine.frameState] using absent), none, same]
  | newTable page pmm absent allocated pmm' directory =>
    rw [if_neg (by simpa [Machine.frameState] using absent), allocated]
    simp only [Machine.frameState, pmm', directory]
    refine congrArg (Frames.mk pmm) (funext fun i => ?_)
    by_cases here : i = pdIndex v
    · subst here
      rw [update_self, update_self]
      exact decide_eq_true (frame_present page)
    · rw [update_of_ne here, update_of_ne here]

theorem pagingMapPage_exhausted (none : pmmAllocPage m.pmm = none) {physicalAddr : Nat}
    (mapped : pagingMapPage m v physicalAddr flags = some m') : KeepsDirectory m m' := by
  unfold pagingMapPage at mapped
  split at mapped
  · exact storeTableWord_keeps mapped
  · simp only [pagingCreatePageTable, none, bind_eq_bind, bind_some, if_true] at mapped
    obtain rfl := some.inj mapped
    exact ⟨rfl, rfl, rfl, rfl⟩

end

-- Every table on the way lies in the first four megabytes; each page takes a frame first.
def TablesBelow : List Nat → Frames → Prop
  | [], _ => True
  | v :: rest, f => ∀ page pmm, pmmAllocPage f.pmm = some (page, pmm) →
      Frames.TableBelow ⟨pmm, f.present⟩ v ∧ TablesBelow rest (Frames.mapPage ⟨pmm, f.present⟩ v)

def DeviceTablesBelow : List Nat → Frames → Prop
  | [], _ => True
  | v :: rest, f => f.TableBelow v ∧ DeviceTablesBelow rest (f.mapPage v)

def PagesLeft : List Nat → Frames → Prop
  | [], _ => True
  | v :: rest, f => ∃ page pmm, pmmAllocPage f.pmm = some (page, pmm) ∧
      (f.present (pdIndex v) = false → pmmAllocPage pmm ≠ none) ∧
      PagesLeft rest (Frames.mapPage ⟨pmm, f.present⟩ v)

theorem Mapping.mapFreshPage {m : Machine} {tables pages : Nat → Option Nat}
    (mapping : Mapping m allGood tables pages) (v : Nat) (high : heapBase ≤ v) {page : Nat}
    (allowed : PageFlags flags) {pmm : Pmm} {rest : List Nat}
    (allocated : pmmAllocPage m.pmm = some (page, pmm))
    (below : TablesBelow (v :: rest) m.frameState) (left : PagesLeft (v :: rest) m.frameState) :
    ∃ m' tables' pages', pagingMapPage (m.withPmm pmm) v (page * pageSize) flags = some m' ∧
      Mapping m' allGood tables' pages' ∧ pages' (v / pageSize) = some page ∧
      (∀ vp, vp ≠ v / pageSize → pages' vp = pages vp) ∧
      (∀ a, a / pageSize ≠ v / pageSize → m'.view allGood a = m.view allGood a) ∧
      TablesBelow rest m'.frameState ∧ PagesLeft rest m'.frameState := by
  obtain ⟨mapping1, fresh⟩ := mapping.alloc page pmm allocated
  obtain ⟨low, below'⟩ := below page pmm allocated
  obtain ⟨page', pmm', allocated', room, left'⟩ := left
  obtain ⟨rfl, rfl⟩ := Prod.mk.inj (some.inj (allocated.symm.trans allocated'))
  obtain ⟨m', tables', pages', mapped, mapping', others, rewrites, -, outcome⟩ :=
    mapping1.mapPage v page allowed high rfl (fresh.target _) (tableLow_of_below low)
  have frames := pagingMapPage_frameState mapping1.pmm mapped
  have here : pages' (v / pageSize) = some page := by
    rcases outcome with ⟨here, -⟩ | ⟨absent, none, -⟩
    · exact here
    · exact absurd none (room (decide_eq_false absent))
  refine ⟨m', tables', pages', mapped, mapping', here, others, fun a other => ?_,
    frames ▸ below', frames ▸ left'⟩
  rw [rewrites.same other, view_withPmm mapping mapping1]

def Framebuffer.addresses (fb : Framebuffer) (i n : Nat) : List Nat :=
  (List.range' i n).map fun i => fb.address + i * 0x1000

-- The framebuffer lies above the heap, and it is none of the memory that `pmm` manages.
structure FramebufferAbove (m : Machine) (fb : Framebuffer) : Prop where
  aligned : fb.address % pageSize = 0
  above : heapEnd ≤ fb.address
  outside : m.pmm.totalPages ≤ fb.address / pageSize ∧ m.frames ≤ fb.address / pageSize
  below : fb.address + fb.pages * pageSize ≤ 0x100000000
  tables : DeviceTablesBelow (fb.addresses 0 fb.pages) m.frameState

section

variable {blocks : List Block} {whole : Prop} {tasks live : List (Nat × Nat)}

theorem HeapOk.mapDevice (ok : HeapOk m blocks) (v : Nat) (aligned : v % pageSize = 0)
    (above : heapEnd ≤ v) (outside : m.pmm.totalPages ≤ v / pageSize ∧ m.frames ≤ v / pageSize)
    (low : TableLow m v)
    (mapped : pagingMapPage m v v (pagePresent ||| pageWritable) = some m') :
    HeapOk m' blocks ∧ Keeps m m' ∧ Rewrites (heapEnd ≤ ·) (m.view allGood) (m'.view allGood) := by
  obtain ⟨tables, pages, mapping⟩ := ok.sees.mapping
  have target : Target m tables pages (v / pageSize) (v / pageSize) := by
    refine ⟨outside.2, .inr ⟨rfl, outside.1⟩, ?_, ?_⟩
    · intro i table
      have low := (mapping.tableLow i _ table).2.1
      simp only [heapEnd, heapBase, heapMaxSize, pageSize] at *
      omega
    · intro other differs page
      rcases (mapping.pageHigh other _ page).2 with managed | device
      · exact absurd managed.1 (Nat.not_lt.mpr outside.1)
      · exact differs device.1
  have whole : v / pageSize * pageSize = v := by
    simp only [pageSize] at *
    omega
  obtain ⟨ok', keeps, rewrites, -⟩ := ok.mapAbove mapping v (v / pageSize) (.inl rfl) above target low
    (by rw [whole]; exact mapped)
  exact ⟨ok', keeps, rewrites⟩

theorem mapFramebuffer_inv {n i : Nat} (inv : TaskInv whole m blocks tasks live)
    (aligned : fb.address % pageSize = 0) (above : heapEnd ≤ fb.address)
    (outside : m.pmm.totalPages ≤ fb.address / pageSize ∧ m.frames ≤ fb.address / pageSize)
    (below : fb.address + (i + n) * pageSize ≤ 0x100000000)
    (tables : DeviceTablesBelow (fb.addresses i n) m.frameState)
    (mapped : mapFramebuffer fb.address n i m = some m') : TaskInv whole m' blocks tasks live := by
  induction n generalizing i m with
  | zero =>
    obtain rfl := some.inj mapped
    exact inv
  | succ n ih =>
    obtain ⟨m1, first, rest⟩ := bind_eq_some_iff.mp mapped
    rw [Framebuffer.addresses, List.range'_succ, List.map_cons] at tables
    obtain ⟨here, later⟩ := tables
    rw [word_eq _ (by simp only [pageSize] at below; omega)] at first
    obtain ⟨ok1, keeps, rewrites⟩ := inv.heap.mapDevice _ (by simp only [pageSize] at *; omega)
      (by omega) (by simp only [pageSize] at *; omega) (tableLow_of_below here) first
    obtain ⟨_, pages, mapping⟩ := inv.heap.sees.mapping
    refine ih (inv.above keeps.toGrows keeps.heap.2 rewrites ok1) ?_ ?_ ?_ rest
    · rw [frames, keeps.marks.totalPages, keeps.marks.bitmapSize]
      exact outside
    · rw [Nat.add_right_comm]
      exact below
    · rw [pagingMapPage_frameState mapping.pmm first]
      exact later

theorem graphicsInit_inv (inv : TaskInv whole m blocks tasks live)
    (met : fb.address ≠ 0 → FramebufferAbove m fb) (returned : graphicsInit m fb = some m') :
    TaskInv whole m' blocks tasks live := by
  unfold graphicsInit at returned
  split at returned
  · obtain rfl := some.inj returned
    exact inv
  · next present =>
    have place := met present
    exact mapFramebuffer_inv inv place.aligned place.above place.outside
      (by rw [Nat.zero_add]; exact place.below) place.tables returned

theorem graphicsInit_exhausted (none : pmmAllocPage m.pmm = none)
    (returned : graphicsInit m fb = some m') : KeepsDirectory m m' := by
  have loop : ∀ n i m, pmmAllocPage m.pmm = .none → mapFramebuffer fb.address n i m = some m' →
      KeepsDirectory m m' := by
    intro n
    induction n with
    | zero =>
      intro i m _ mapped
      obtain rfl := some.inj mapped
      exact ⟨rfl, rfl, rfl, rfl⟩
    | succ n ih =>
      intro i m none mapped
      obtain ⟨m1, first, rest⟩ := bind_eq_some_iff.mp mapped
      have keeps := pagingMapPage_exhausted none first
      exact keeps.trans (ih (i + 1) m1 (by rw [keeps.pmm]; exact none) rest)
  unfold graphicsInit at returned
  split at returned
  · obtain rfl := some.inj returned
    exact ⟨rfl, rfl, rfl, rfl⟩
  · exact loop _ _ m none returned

end

end ArgoOS.Memory
