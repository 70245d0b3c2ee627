import ArgoOS.Memory.Boot
import ArgoOS.Shared.Run

set_option autoImplicit false

/-! # The page tables as one map -/

namespace ArgoOS.Memory

open Machine Option Function

def Describes (word : Nat) : Option Nat → Prop
  | none => ¬Present word
  | some frame => Present word ∧ pageAddress word = frame * pageSize

/-- The tables, in the frames `tables`, map page `vp` to frame `map vp`. -/
structure Denotes (m : Machine) (tables map : Nat → Option Nat) : Prop where
  aligned : m.firstPageTableAt % pageSize = 0
  image : m.firstPageTableAt < 0x200000
  lowDirectory : m.pageDirectory 0 = m.firstPageTableAt + 3
  lowEntries : ∀ j < 1024, Describes (m.firstPageTable j) (map j)
  directory : ∀ i, 1 ≤ i → m.pageDirectory i = tableWord (tables i)
  entries : ∀ i f, 1 ≤ i → tables i = some f → ∀ j < 1024,
    Describes (m.ram (f * pageSize + 4 * j)) (map (i * 1024 + j))
  unmapped : ∀ i, 1 ≤ i → tables i = none → ∀ j < 1024, map (i * 1024 + j) = none
  inRam : ∀ i f, 1 ≤ i → tables i = some f → i < 1024 ∧ m.frames ≤ f
  apart : ∀ i i' f, 1 ≤ i → 1 ≤ i' → tables i = some f → tables i' = some f → i = i'

-- The code can use the physical address of the table as a pointer to it.
def Reachable (m : Machine) (table : Nat) : Prop :=
  table = m.firstPageTableAt ∨ m.translate table = some table

theorem pageAddress_add (f : Nat) {j : Nat} (bound : j < 1024) :
    pageAddress (f * pageSize + 4 * j) = f * pageSize := by
  simp only [pageAddress, pageSize]
  omega

variable {m : Machine} {tables map : Nat → Option Nat}

variable {i f : Nat}

section

variable (denotes : Denotes m tables map)

include denotes

theorem Denotes.low_address : pageAddress (m.pageDirectory 0) = m.firstPageTableAt ∧
    Present (m.pageDirectory 0) := by
  have aligned := denotes.aligned
  rw [denotes.lowDirectory, present_iff]
  simp only [pageAddress, pageSize] at *
  omega

theorem Denotes.not_image (high : 1 ≤ i) (table : tables i = some f) :
    f * pageSize ≠ m.firstPageTableAt := by
  have low := (denotes.inRam i f high table).2
  have image := denotes.image
  have frames := frames_image m
  simp only [pageSize] at *
  omega

theorem Denotes.low_word (j : Nat) (bound : j < 1024) :
    pageAddress (m.firstPageTableAt + 4 * j) = m.firstPageTableAt ∧
      (m.firstPageTableAt + 4 * j) % pageSize / 4 = j := by
  have aligned := denotes.aligned
  simp only [pageAddress, pageSize] at *
  omega

theorem Denotes.table_cases (present : Present (m.pageDirectory i)) :
    (i = 0 ∧ pageAddress (m.pageDirectory i) = m.firstPageTableAt) ∨
    ∃ f, 1 ≤ i ∧ tables i = some f ∧ pageAddress (m.pageDirectory i) = f * pageSize := by
  by_cases low : i = 0
  · subst low
    exact .inl ⟨rfl, denotes.low_address.1⟩
  · have high : 1 ≤ i := Nat.pos_of_ne_zero low
    rw [denotes.directory i high] at present ⊢
    cases table : tables i with
    | none =>
      rw [table] at present
      exact absurd present (by simp [tableWord, Present])
    | some f => exact .inr ⟨f, high, rfl, frame_address f⟩

theorem Denotes.entry (v : Nat) :
    (¬Present (m.pageDirectory (pdIndex v)) ∧ map (v / pageSize) = none) ∨
    (Present (m.pageDirectory (pdIndex v)) ∧
      Describes (m.tableEntry (pageAddress (m.pageDirectory (pdIndex v))) (ptIndex v))
        (map (v / pageSize))) := by
  have bound := ptIndex_lt v
  have page := page_split v
  by_cases low : pdIndex v = 0
  · obtain ⟨address, present⟩ := denotes.low_address
    rw [low, Nat.zero_mul, Nat.zero_add] at page
    rw [low, address, tableEntry, if_pos rfl, ← page]
    exact .inr ⟨present, denotes.lowEntries _ bound⟩
  · have high : 1 ≤ pdIndex v := Nat.pos_of_ne_zero low
    rw [denotes.directory _ high, ← page]
    cases table : tables (pdIndex v) with
    | none => exact .inl ⟨by simp [tableWord, Present], denotes.unmapped _ high table _ bound⟩
    | some f =>
      refine .inr ⟨frame_present f, ?_⟩
      rw [tableWord, frame_address, tableEntry, if_neg (denotes.not_image high table)]
      exact denotes.entries _ f high table _ bound

theorem Denotes.translate (v : Nat) :
    m.translate v = (map (v / pageSize)).map (· * pageSize + v % pageSize) := by
  unfold Machine.translate
  obtain ⟨absent, none⟩ | ⟨present, describes⟩ := denotes.entry v
  · rw [none]
    simp [absent]
  · simp only [present, if_true]
    cases mapped : map (v / pageSize) with
    | none =>
      rw [mapped] at describes
      simp only [Describes] at describes
      simp [describes]
    | some frame =>
      rw [mapped] at describes
      simp only [Describes] at describes
      simp [describes.1, describes.2]

theorem Denotes.translate_offset (here : m.translate (f * pageSize) = some (f * pageSize))
    (offset : Nat) (inPage : offset < pageSize) :
    m.translate (f * pageSize + offset) = some (f * pageSize + offset) := by
  have page := page_offset f inPage
  rw [denotes.translate, Nat.mul_div_cancel f (by decide), Nat.mul_mod_left] at here
  rw [denotes.translate, page.1, page.2]
  cases mapped : map f with
  | none => simp [mapped] at here
  | some frame =>
    simp only [mapped, map_some, some.injEq, Nat.add_zero] at here
    rw [map_some, here]

end

theorem page_index {j v : Nat} (bound : j < 1024) (same : i * 1024 + j = v / pageSize) :
    i = pdIndex v ∧ j = ptIndex v := by
  have page := page_split v
  have small := ptIndex_lt v
  omega

section

variable (denotes : Denotes m tables map) {v value : Nat} {new : Option Nat}
  (describes : Describes value new)

include denotes describes

theorem Denotes.storeLow (low : pdIndex v = 0) :
    ∃ m', storeTableWord m (m.firstPageTableAt + 4 * ptIndex v) value = some m' ∧
      Denotes m' tables (update map (v / pageSize) new) ∧ m'.pmm = m.pmm := by
  have bound := ptIndex_lt v
  have page := page_split v
  have address := denotes.low_word (ptIndex v) bound
  refine ⟨{ m with firstPageTable := update m.firstPageTable (ptIndex v) value },
    by rw [storeTableWord, if_pos address.1, address.2],
    { denotes with lowEntries := ?_, entries := ?_, unmapped := ?_ }, rfl⟩
  · intro j inside
    by_cases here : j = ptIndex v
    · have samePage : j = v / pageSize := by omega
      simp only [← here, samePage, update_self]
      exact describes
    · have otherPage : j ≠ v / pageSize := by omega
      simp only [update_of_ne here, update_of_ne otherPage]
      exact denotes.lowEntries j inside
  · intro i f high table j inside
    have otherPage : i * 1024 + j ≠ v / pageSize := by omega
    rw [update_of_ne otherPage]
    exact denotes.entries i f high table j inside
  · intro i high noTable j inside
    have otherPage : i * 1024 + j ≠ v / pageSize := by omega
    rw [update_of_ne otherPage]
    exact denotes.unmapped i high noTable j inside

theorem Denotes.storeHigh (high : 1 ≤ pdIndex v) (table : tables (pdIndex v) = some f)
    (here : m.translate (f * pageSize) = some (f * pageSize)) :
    ∃ m', storeTableWord m (f * pageSize + 4 * ptIndex v) value = some m' ∧
      Denotes m' tables (update map (v / pageSize) new) ∧ m'.pmm = m.pmm := by
  have bound := ptIndex_lt v
  have page := page_split v
  have stored := storeTableWord_mapped (f * pageSize + 4 * ptIndex v) f (4 * ptIndex v) value
    (by rw [pageAddress_add f bound]; exact denotes.not_image high table)
    (denotes.translate_offset here _ (by simp only [pageSize]; omega))
    (denotes.inRam _ f high table).2 (by omega)
  refine ⟨_, stored, { denotes with lowEntries := ?_, entries := ?_, unmapped := ?_ }, rfl⟩
  · intro j inside
    have otherPage : j ≠ v / pageSize := by omega
    rw [update_of_ne otherPage]
    exact denotes.lowEntries j inside
  · intro i f' high' table' j inside
    simp only
    by_cases samePage : i * 1024 + j = v / pageSize
    · obtain ⟨rfl, rfl⟩ := page_index inside samePage
      cases some.inj (table.symm.trans table')
      rw [samePage, update_self, update_self]
      exact describes
    · have different : f' * pageSize + 4 * j ≠ f * pageSize + 4 * ptIndex v := by
        intro same
        have parts : f' = f ∧ j = ptIndex v := by
          simp only [pageSize] at same
          omega
        have sameTable := denotes.apart i (pdIndex v) f high' high (parts.1 ▸ table') table
        rw [sameTable, parts.2] at samePage
        exact samePage page
      rw [update_of_ne different, update_of_ne samePage]
      exact denotes.entries i f' high' table' j inside
  · intro i high' noTable j inside
    have otherPage : i * 1024 + j ≠ v / pageSize := by
      intro samePage
      rw [(page_index inside samePage).1, table] at noTable
      contradiction
    rw [update_of_ne otherPage]
    exact denotes.unmapped i high' noTable j inside

theorem Denotes.storeEntry (present : Present (m.pageDirectory (pdIndex v)))
    (reachable : Reachable m (pageAddress (m.pageDirectory (pdIndex v)))) :
    ∃ m', storeTableWord m (pageAddress (m.pageDirectory (pdIndex v)) + 4 * ptIndex v) value =
      some m' ∧ Denotes m' tables (update map (v / pageSize) new) ∧ m'.pmm = m.pmm := by
  obtain ⟨low, address⟩ | ⟨f, high, table, address⟩ := denotes.table_cases present
  · rw [address]
    exact denotes.storeLow describes low
  · rw [address] at reachable ⊢
    exact denotes.storeHigh describes high table
      (reachable.resolve_left (denotes.not_image high table))

end

section

variable (denotes : Denotes m tables map) {f : Nat} (inRam : m.frames ≤ f)
  (noTable : ∀ i, 1 ≤ i → tables i ≠ some f)

include denotes inRam noTable

theorem Denotes.withCleared (n : Nat) (bound : n ≤ 1024) (writes : List TableWrite) :
    Denotes (withCleared m f n writes) tables map := by
  refine { denotes with entries := ?_ }
  intro i f' high table j inside
  have different : f' ≠ f := by
    rintro rfl
    exact noTable i high table
  have outside : ¬(f * pageSize ≤ f' * pageSize + 4 * j ∧
      f' * pageSize + 4 * j < f * pageSize + 4 * n ∧ (f' * pageSize + 4 * j) % 4 = 0) := by
    simp only [pageSize]
    omega
  change Describes (clearWords m.ram (f * pageSize) n (f' * pageSize + 4 * j)) _
  rw [clearWords, if_neg outside]
  exact denotes.entries i f' high table j inside

theorem Denotes.newTable (high : 1 ≤ i) (bound : i < 1024) (absent : tables i = none)
    (writes : List TableWrite) :
    Denotes (setDirectoryEntry (Memory.withCleared m f 1024 writes) i (f * pageSize + 3))
      (update tables i (some f)) map := by
  have cleared := denotes.withCleared inRam noTable 1024 (Nat.le_refl _) writes
  refine { cleared with
    lowDirectory := ?_, directory := ?_, entries := ?_, unmapped := ?_, inRam := ?_, apart := ?_ }
  · exact (update_of_ne (Nat.ne_of_lt high) _ _).trans cleared.lowDirectory
  · intro i' high'
    by_cases here : i' = i
    · simp [here, setDirectoryEntry, tableWord]
    · simp only [setDirectoryEntry, update_of_ne here]
      exact cleared.directory i' high'
  · intro i' f' high' table j inside
    rcases update_some_cases table with ⟨rfl, rfl⟩ | ⟨-, table⟩
    · rw [denotes.unmapped i' high' absent j inside]
      change ¬Present (clearWords m.ram (f' * pageSize) 1024 (f' * pageSize + 4 * j))
      rw [clearWords_self m.ram f' inside]
      decide
    · exact cleared.entries i' f' high' table j inside
  · intro i' high' none
    have different : i' ≠ i := by
      rintro rfl
      simp at none
    rw [update_of_ne different] at none
    exact cleared.unmapped i' high' none
  · intro i' f' high' table
    rcases update_some_cases table with ⟨rfl, rfl⟩ | ⟨-, table⟩
    · exact ⟨bound, inRam⟩
    · exact cleared.inRam i' f' high' table
  · intro i1 i2 f' high1 high2 table1 table2
    rcases update_some_cases table1 with ⟨rfl, rfl⟩ | ⟨-, table1⟩ <;>
      rcases update_some_cases table2 with ⟨there, new⟩ | ⟨-, table2⟩
    · exact there.symm
    · exact absurd table2 (noTable i2 high2)
    · exact absurd (new ▸ table1) (noTable i1 high1)
    · exact denotes.apart i1 i2 f' high1 high2 table1 table2

theorem Denotes.createTable {pmm : Pmm} (allocated : pmmAllocPage m.pmm = some (f, pmm))
    (here : m.translate (f * pageSize) = some (f * pageSize)) :
    ∃ writes, pagingCreatePageTable m =
      some (Memory.withCleared (m.withPmm pmm) f 1024 writes, f * pageSize) := by
  obtain ⟨-, -, -, rfl⟩ := pmmAllocPage_some allocated
  have taken : Denotes (m.withPmm (m.pmm.markUsed f)) tables map := { denotes with }
  have frames : (m.withPmm (m.pmm.markUsed f)).frames ≤ f := inRam
  have image := denotes.image
  have least := frames_image m
  have cleared := clearTable_mapped (f * pageSize) f (Nat.le_refl _) frames
    (by
      intro j inside
      rw [pageAddress_add f inside]
      change f * pageSize ≠ m.firstPageTableAt
      simp only [pageSize] at *
      omega)
    (by
      intro k bound writes j inside
      have kept := taken.withCleared frames noTable k bound writes
      rw [kept.translate, ← denotes.translate]
      exact denotes.translate_offset here _ (by simp only [pageSize]; omega))
  refine ⟨clearLog (f * pageSize) f 1024, ?_⟩
  simp only [pagingCreatePageTable, allocated, cleared, bind_eq_bind, bind_some]
  rfl

end

theorem entry_describes {p flags : Nat} (aligned : p % pageSize = 0) (small : flags < 0x1000)
    (present : Present flags) : Describes (p ||| flags) (some (p / pageSize)) := by
  have bits := Nat.two_pow_add_eq_or_of_lt (show flags < 2 ^ 12 from small) (p / pageSize)
  have whole : 2 ^ 12 * (p / pageSize) = p := by
    simp only [pageSize] at *
    omega
  rw [whole] at bits
  rw [present_iff] at present
  rw [← bits, Describes, present_iff]
  simp only [pageAddress, pageSize] at *
  omega

/-- The allocation of a table succeeds with a frame in which nothing is yet. -/
def GetsFreshTable (m : Machine) : Prop :=
  ∃ allocated ∈ pmmAllocPage m.pmm, m.frames ≤ allocated.1 ∧
    Reachable m (allocated.1 * pageSize) ∧ ∀ i < 1024, Present (m.pageDirectory i) →
      pageAddress (m.pageDirectory i) ≠ allocated.1 * pageSize

def TablesReachable (m : Machine) : Prop :=
  ∀ i < 1024, Present (m.pageDirectory i) → Reachable m (pageAddress (m.pageDirectory i))

instance (m : Machine) (table : Nat) : Decidable (Reachable m table) :=
  inferInstanceAs (Decidable (_ ∨ _))

instance (m : Machine) (P : Nat → Prop) [DecidablePred P] :
    Decidable (∀ i < 1024, Present (m.pageDirectory i) → P (pageAddress (m.pageDirectory i))) :=
  decidable_of_iff (∀ i ∈ List.range 1024, Present (m.pageDirectory i) →
    P (pageAddress (m.pageDirectory i))) (by simp only [List.mem_range])

instance (m : Machine) : Decidable (TablesReachable m) :=
  inferInstanceAs (Decidable (∀ i < 1024, _ → Reachable m _))

instance (m : Machine) : Decidable (GetsFreshTable m) :=
  inferInstanceAs (Decidable (∃ allocated ∈ pmmAllocPage m.pmm, _ ∧ _ ∧
    ∀ i < 1024, _ → (fun table => table ≠ allocated.1 * pageSize) _))

theorem pdIndex_lt (v : UInt32) : pdIndex v.toNat < 1024 := by
  have bound := v.toNat_lt
  simp only [pdIndex]
  omega

section

variable (denotes : Denotes m tables map) (reachable : TablesReachable m)

include denotes reachable

theorem Denotes.mapPage (v p flags : UInt32) (aligned : p.toNat % pageSize = 0)
    (small : flags.toNat < 0x1000) (present : Present flags.toNat)
    (fresh : ¬Present (m.pageDirectory (pdIndex v.toNat)) → GetsFreshTable m) :
    ∃ m' tables', pagingMapPage m v.toNat p.toNat flags.toNat = some m' ∧ Denotes m' tables'
      (update map (v.toNat / pageSize) (some (p.toNat / pageSize))) := by
  have describes := entry_describes aligned small present
  have bound := pdIndex_lt v
  by_cases hasTable : Present (m.pageDirectory (pdIndex v.toNat))
  · obtain ⟨m', stored, denotes', -⟩ :=
      denotes.storeEntry describes hasTable (reachable _ bound hasTable)
    exact ⟨m', tables, by rw [pagingMapPage, if_pos hasTable, setTableEntry, stored], denotes'⟩
  · have high : 1 ≤ pdIndex v.toNat := by
      refine Nat.pos_of_ne_zero ?_
      intro low
      rw [low] at hasTable
      exact hasTable denotes.low_address.2
    have absent : tables (pdIndex v.toNat) = none := by
      cases table : tables (pdIndex v.toNat) with
      | none => rfl
      | some f =>
        rw [denotes.directory _ high, table] at hasTable
        exact absurd (frame_present f) hasTable
    obtain ⟨⟨f, pmm⟩, allocated, inRam, frame, others⟩ := fresh hasTable
    have least := frames_image m
    have image := denotes.image
    have noTable : ∀ i, 1 ≤ i → tables i ≠ some f := by
      intro i iHigh table
      have entry := denotes.directory i iHigh
      rw [table, tableWord] at entry
      refine others i (denotes.inRam i f iHigh table).1 ?_ ?_
      · rw [entry]
        exact frame_present f
      · rw [entry, frame_address]
    have here : m.translate (f * pageSize) = some (f * pageSize) := by
      refine frame.resolve_left ?_
      simp only [pageSize] at *
      omega
    obtain ⟨writes, created⟩ := denotes.createTable inRam noTable allocated here
    obtain ⟨-, -, -, rfl⟩ := pmmAllocPage_some allocated
    have taken : Denotes (m.withPmm (m.pmm.markUsed f)) tables map := { denotes with }
    have made := taken.newTable inRam noTable high bound absent writes
    have nonzero : f * pageSize ≠ 0 := by
      simp only [pageSize] at *
      omega
    have entry : (setDirectoryEntry (Memory.withCleared (m.withPmm (m.pmm.markUsed f)) f 1024
        writes) (pdIndex v.toNat) (f * pageSize + 3)).pageDirectory (pdIndex v.toNat) =
        f * pageSize + 3 := update_self _ _ _
    obtain ⟨m', stored, denotes', -⟩ := made.storeEntry describes
      (by rw [entry]; exact frame_present f)
      (by
        rw [entry, frame_address]
        exact .inr (by rw [made.translate, ← denotes.translate, here]))
    refine ⟨m', _, ?_, denotes'⟩
    rw [pagingMapPage, if_neg hasTable, created]
    simp only [bind_eq_bind, bind_some, if_neg nonzero, Nat.or_assoc,
      frame_or_flags]
    exact stored

theorem Denotes.unmapPage (v : UInt32) : ∃ m', pagingUnmapPage m v.toNat = some m' ∧
    Denotes m' tables (update map (v.toNat / pageSize) none) := by
  unfold pagingUnmapPage
  obtain ⟨absent, none⟩ | ⟨present, -⟩ := denotes.entry v.toNat
  · rw [if_neg absent, ← none, update_eq_self]
    exact ⟨m, rfl, denotes⟩
  · have zero : Describes 0 none := show ¬Present 0 by decide
    rw [if_pos present]
    obtain ⟨m', stored, denotes', -⟩ :=
      denotes.storeEntry zero present (reachable _ (pdIndex_lt v) present)
    exact ⟨m', stored, denotes'⟩

theorem Denotes.loadTableWord (v : UInt32)
    (present : Present (m.pageDirectory (pdIndex v.toNat))) :
    loadTableWord m (pageAddress (m.pageDirectory (pdIndex v.toNat)) + 4 * ptIndex v.toNat) =
      some (m.tableEntry (pageAddress (m.pageDirectory (pdIndex v.toNat))) (ptIndex v.toNat)) := by
  have small := ptIndex_lt v.toNat
  have here := reachable _ (pdIndex_lt v) present
  unfold Memory.loadTableWord tableEntry
  obtain ⟨-, address⟩ | ⟨f, high, table, address⟩ := denotes.table_cases present
  · obtain ⟨page, index⟩ := denotes.low_word (ptIndex v.toNat) small
    rw [address, if_pos page, index, if_pos rfl]
  · have outside := denotes.not_image high table
    have inRam := (denotes.inRam _ f high table).2
    rw [address] at here ⊢
    have mapped := denotes.translate_offset (here.resolve_left outside) (4 * ptIndex v.toNat)
      (by simp only [pageSize]; omega)
    have inside : ¬(f * pageSize + 4 * ptIndex v.toNat < m.frames * pageSize ∨
        (f * pageSize + 4 * ptIndex v.toNat) % 4 ≠ 0) := by
      simp only [pageSize] at *
      omega
    rw [pageAddress_add f small, if_neg outside, if_neg outside]
    simp only [load, ramAddress, mapped, if_neg inside, map_some]

def mappedAddress (map : Nat → Option Nat) (v : Nat) : Nat :=
  match map (v / pageSize) with
  | some frame => frame * pageSize + v % pageSize
  | none => 0

theorem Denotes.readPhysical (v : UInt32) :
    pagingReadPhysical m v.toNat = some (mappedAddress map v.toNat) := by
  unfold pagingReadPhysical mappedAddress
  obtain ⟨absent, none⟩ | ⟨present, describes⟩ := denotes.entry v.toNat
  · rw [if_neg absent, none]
  · rw [if_pos present, denotes.loadTableWord reachable v present]
    cases mapped : map (v.toNat / pageSize) with
    | none =>
      rw [mapped] at describes
      simp only [bind_eq_bind, bind_some, if_neg describes]
      rfl
    | some frame =>
      rw [mapped] at describes
      simp only [bind_eq_bind, bind_some, if_pos describes.1, describes.2]
      rfl

end

inductive PagingCall where
  | pagingMapPage (v p flags : UInt32)
  | pagingUnmapPage (v : UInt32)
  -- Other code has taken pages from the allocator or given them back.
  | allocator (pmm : Pmm)

def pagingStep (m : Machine) (call : PagingCall) : Option (Machine × List PagingCall) :=
  match call with
  | .pagingMapPage v p flags =>
    (pagingMapPage m v.toNat p.toNat flags.toNat).map (fun after => (after, [call]))
  | .pagingUnmapPage v => (pagingUnmapPage m v.toNat).map (fun after => (after, [call]))
  | .allocator pmm => some (m.withPmm pmm, [call])

def CallAllowed (m : Machine) : PagingCall → Prop
  | .pagingMapPage v p flags => TablesReachable m ∧ p.toNat % pageSize = 0 ∧
    flags.toNat < 0x1000 ∧ Present flags.toNat ∧
    (¬Present (m.pageDirectory (pdIndex v.toNat)) → GetsFreshTable m)
  | .pagingUnmapPage _ => TablesReachable m
  | .allocator pmm => pmm.bitmapSize = m.pmm.bitmapSize

instance (m : Machine) : (call : PagingCall) → Decidable (CallAllowed m call)
  | .pagingMapPage _ _ _ => inferInstanceAs (Decidable (_ ∧ _ ∧ _ ∧ _ ∧ _))
  | .pagingUnmapPage _ => inferInstanceAs (Decidable (TablesReachable m))
  | .allocator _ => inferInstanceAs (Decidable (_ = _))

def PagingCall.page : PagingCall → Option Nat
  | .pagingMapPage v _ _ => some (v.toNat / pageSize)
  | .pagingUnmapPage v => some (v.toNat / pageSize)
  | .allocator _ => none

def reference : List PagingCall → Nat → Option Nat
  | [] => fun page => if page < 1024 then some page else none
  | .pagingMapPage v p _ :: calls =>
    Function.update (reference calls) (v.toNat / pageSize) (some (p.toNat / pageSize))
  | .pagingUnmapPage v :: calls => Function.update (reference calls) (v.toNat / pageSize) none
  | .allocator _ :: calls => reference calls

theorem reference_other {call : PagingCall} (calls : List PagingCall) {page : Nat}
    (other : call.page ≠ some page) : reference (call :: calls) page = reference calls page := by
  cases call with
  | pagingMapPage v p flags =>
    exact update_of_ne (fun same => other (congrArg some same.symm)) _ _
  | pagingUnmapPage v =>
    exact update_of_ne (fun same => other (congrArg some same.symm)) _ _
  | allocator pmm => rfl

theorem pagingStep_denotes {m : Machine} {tables : Nat → Option Nat} {calls : List PagingCall}
    {call : PagingCall} (denotes : Denotes m tables (reference calls))
    (allowed : CallAllowed m call) : ∃ after tables', pagingStep m call = some (after, [call]) ∧
      Denotes after tables' (reference (call :: calls)) := by
  cases call with
  | pagingMapPage v p flags =>
    obtain ⟨reachable, aligned, small, present, fresh⟩ := allowed
    obtain ⟨after, tables', mapped, denotes'⟩ :=
      denotes.mapPage reachable v p flags aligned small present fresh
    exact ⟨after, tables', by rw [pagingStep, mapped]; rfl, denotes'⟩
  | pagingUnmapPage v =>
    obtain ⟨after, unmapped, denotes'⟩ := denotes.unmapPage allowed v
    exact ⟨after, tables, by rw [pagingStep, unmapped]; rfl, denotes'⟩
  | allocator pmm =>
    have frames : (m.withPmm pmm).frames = m.frames := congrArg reservedPages allowed
    exact ⟨m.withPmm pmm, tables, rfl, { denotes with
      inRam := by rw [frames]; exact denotes.inRam }⟩

theorem beforeHeap_denotes (config : BootConfig) :
    Denotes (beforeHeap config) (fun _ => none) (reference []) := by
  have mapping := beforeHeap_mapping config
  refine ⟨mapping.aligned, mapping.image, mapping.lowDirectory, ?_, ?_, nofun, ?_, nofun, nofun⟩
  · intro j inside
    rw [mapping.lowTable j inside, show reference [] j = some j from if_pos inside]
    exact ⟨frame_present j, frame_address j⟩
  · exact fun i high => mapping.directory i high rfl
  · intro i high _ j inside
    exact if_neg (by omega)

/-- What `paging_get_physical` answers is what the reference map has, each call returns, and
it changes nothing about the other pages. -/
structure FollowsReference (calls : List PagingCall) (m : Machine) : Prop where
  lookups : TablesReachable m → ∀ v : UInt32,
    pagingReadPhysical m v.toNat = some (mappedAddress (reference calls) v.toNat)
  returns : ∀ call, CallAllowed m call → ∃ after, pagingStep m call = some (after, [call])
  others : ∀ call after, CallAllowed m call → pagingStep m call = some (after, [call]) →
    TablesReachable m → TablesReachable after → ∀ v : UInt32,
      call.page ≠ some (v.toNat / pageSize) →
        pagingReadPhysical after v.toNat = pagingReadPhysical m v.toNat

theorem Denotes.follows {m : Machine} {tables : Nat → Option Nat} {calls : List PagingCall}
    (denotes : Denotes m tables (reference calls)) : FollowsReference calls m where
  lookups := fun reachable v => denotes.readPhysical reachable v
  returns := by
    intro call allowed
    obtain ⟨after, -, taken, -⟩ := pagingStep_denotes denotes allowed
    exact ⟨after, taken⟩
  others := by
    intro call after allowed taken reachable reachable' v other
    obtain ⟨after', tables', taken', denotes'⟩ := pagingStep_denotes denotes allowed
    cases some.inj (taken.symm.trans taken')
    rw [denotes'.readPhysical reachable', denotes.readPhysical reachable, mappedAddress,
      mappedAddress, reference_other calls other]

theorem paging_follows_reference (config : BootConfig) {calls : List PagingCall} {m : Machine}
    (run : Stepper.Run pagingStep CallAllowed (beforeHeap config) calls m) :
    FollowsReference calls m := by
  have denotes := Stepper.Run.invariant
    (fun calls m => ∃ tables, Denotes m tables (reference calls))
    ⟨_, beforeHeap_denotes config⟩ (by
      rintro calls before after call events ⟨tables, denotes⟩ allowed taken
      obtain ⟨after', tables', taken', denotes'⟩ := pagingStep_denotes denotes allowed
      cases Option.some.inj (taken.symm.trans taken')
      exact ⟨tables', denotes'⟩) run
  obtain ⟨tables, final⟩ := denotes
  exact final.follows

def pagingConfig : BootConfig :=
  { ram := fun _ => 0
    info := { flags := 0, memLower := 0, memUpper := 0, mmap := [] }
    firstPageTableAt := 0x100000
    aligned := by decide
    image := by decide }

theorem paging_follows_reference_two : ∃ calls m,
    Stepper.Run pagingStep CallAllowed (beforeHeap pagingConfig) calls m ∧
    pagingReadPhysical m 0x5123 = some 0 ∧ pagingReadPhysical m 0x6123 = some 0x80123 ∧
    pagingReadPhysical m 0x7123 = some 0x7123 := by
  obtain ⟨calls, m, run, checked⟩ := Stepper.Run.exists_of_actions pagingStep CallAllowed
    (beforeHeap pagingConfig) [.pagingUnmapPage 0x5000, .pagingMapPage 0x6000 0x80000 3]
    (fun calls m => decide (TablesReachable m) &&
      [0x5123, 0x6123, 0x7123].map (mappedAddress (reference calls)) == [0, 0x80123, 0x7123])
    (by decide +kernel)
  rw [Bool.and_eq_true, decide_eq_true_eq, beq_iff_eq] at checked
  obtain ⟨reachable, addresses⟩ := checked
  simp only [List.map_cons, List.map_nil, List.cons.injEq, and_true] at addresses
  have lookups := (paging_follows_reference pagingConfig run).lookups reachable
  exact ⟨calls, m, run, (lookups 0x5123).trans (congrArg some addresses.1),
    (lookups 0x6123).trans (congrArg some addresses.2.1),
    (lookups 0x7123).trans (congrArg some addresses.2.2)⟩

end ArgoOS.Memory
