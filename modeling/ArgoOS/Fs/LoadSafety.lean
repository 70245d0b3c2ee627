import ArgoOS.Fs.Effects

set_option autoImplicit false

/-! # Loading any image -/

namespace ArgoOS.Fs

open List FileSystem DiskInode

variable {start : FileSystem} {io : LoadIo} {disk : Disk} {table : Nat → UInt8} {indices : List Nat}
  {index : Nat} {fs loaded : FileSystem} {items : List Item} {slot : Slot} {d : DiskInode}

section

variable (empty : ∀ slot, (start.inodes slot).valid = false)

theorem Reached.mem (reached : Reached io disk table indices index) : index ∈ indices := by
  induction indices with
  | nil => exact reached.elim
  | cons first rest ih =>
    obtain ⟨rfl, -⟩ | ⟨-, later⟩ := reached
    · exact mem_cons_self
    · exact mem_cons_of_mem first (ih later)

theorem reached_skip {first : Nat} (rest : List Nat) (index : Nat)
    (invalid : Fs.loadable (load table first) = false) :
    Reached io disk table (first :: rest) index ↔ Reached io disk table rest index := by
  simp [Reached, invalid]

include empty

theorem loadInodes_reached {indices : List Nat} (loaded : Loaded start fs items)
    (room : items.length + indices.length ≤ 320) {after : FileSystem} {done : Bool}
    (returned : loadInodes io disk table indices fs = .ok (after, done)) :
    ∃ more, Loaded start after (items ++ more) ∧
      (items ++ more).length ≤ items.length + indices.length ∧
      ∀ d, d ∈ more.map Prod.fst ↔
        ∃ index, Reached io disk table indices index ∧ d = load table index := by
  obtain ⟨more, built, entries, members, -⟩ := loadInodes_loaded empty loaded room returned
  have short := entries.length_le
  rw [length_map, length_map, validIndices] at short
  refine ⟨more, built, ?_, members⟩
  rw [length_append]
  exact Nat.add_le_add_left (short.trans (length_filter_le _ _)) _

end

section

structure Linkable (fs : FileSystem) : Prop where
  dirs : ∀ dir, IsDir fs dir → ∃ first, (fs.inodes dir).data.firstChild = .ok first
  parents : ∀ slot dir, (fs.inodes slot).valid = true → (fs.inodes slot).parent = some dir →
    (fs.inodes dir).valid = true

theorem Linkable.setParent (ready : Linkable fs) (slot : Slot) (parent : Option Slot)
    (valid : ∀ dir, parent = some dir → (fs.inodes dir).valid = true) :
    Linkable (setParent fs slot parent) where
  dirs := by
    intro dir isDir
    unfold IsDir at isDir
    rw [setParent_inodes] at isDir ⊢
    exact ready.dirs dir isDir
  parents := by
    intro other dir otherValid above
    rw [setParent_inodes] at otherValid above ⊢
    simp only at above
    split at above
    · exact valid dir above
    · exact ready.parents other dir otherValid above

theorem Linkable.linkChild (ready : Linkable fs) (dir slot : Slot) (isDir : IsDir fs dir) :
    ∃ after, linkChild fs dir slot = .ok after ∧ Linkable after := by
  obtain ⟨first, head⟩ := ready.dirs dir isDir
  refine ⟨(fs.setNext slot first).setData dir (.child slot), by simp only [Fs.linkChild, head],
    ?_, ?_⟩
  · intro other otherDir
    unfold IsDir at otherDir
    rw [setData_inodes, setNext_inodes] at otherDir ⊢
    by_cases here : other = dir
    · simp [here, Data.firstChild]
    · simp only [if_neg here]
      exact ready.dirs other otherDir
  · intro other above otherValid parent
    rw [setData_inodes, setNext_inodes] at otherValid parent ⊢
    exact ready.parents other above otherValid parent

theorem linkInode_total (ready : Linkable fs) (table : Nat → UInt8) (index : Nat) :
    ∃ after, linkInode table fs index = .ok after ∧ Linkable after := by
  simp only [linkInode]
  split
  · exact ⟨fs, rfl, ready⟩
  · split
    · exact ⟨fs, rfl, ready⟩
    · next slot found =>
      have slotValid := (fs.findInodeByNum_spec found).1
      have parented : Linkable (if 0 < (load table index).parentInode then
          setParent fs slot (fs.findInodeByNum (load table index).parentInode)
          else fs) ∧ ((if 0 < (load table index).parentInode then
          setParent fs slot (fs.findInodeByNum (load table index).parentInode)
          else fs).inodes slot).valid = true := by
        split
        · refine ⟨ready.setParent slot _ (fun dir above => (fs.findInodeByNum_spec above).1), ?_⟩
          rw [setParent_inodes]
          exact slotValid
        · exact ⟨ready, slotValid⟩
      generalize (if 0 < (load table index).parentInode then
        setParent fs slot (fs.findInodeByNum (load table index).parentInode)
        else fs) = linked at parented ⊢
      obtain ⟨linkable, valid⟩ := parented
      split
      · exact ⟨linked, rfl, linkable⟩
      · next dir above =>
        split
        · next isDir => exact linkable.linkChild dir slot ⟨linkable.parents slot dir valid above, isDir⟩
        · exact ⟨linked, rfl, linkable⟩

theorem linkInodes_total (table : Nat → UInt8) (indices : List Nat) (ready : Linkable fs) :
    ∃ after, linkInodes table indices fs = .ok after := by
  induction indices generalizing fs with
  | nil => exact ⟨fs, rfl⟩
  | cons index indices ih =>
    obtain ⟨linked, one, linkable⟩ := linkInode_total ready table index
    obtain ⟨after, rest⟩ := ih linkable
    exact ⟨after, by simp only [linkInodes, one, rest]⟩

section

variable (empty : ∀ slot, (start.inodes slot).valid = false) (built : Loaded start loaded items)
  (pairs : List.Forall₂ (LoadedItem io disk table) indices items)

include empty built pairs

theorem Loaded.linkable : Linkable loaded where
  dirs := by
    intro dir isDir
    rw [built.empty_dir empty pairs isDir]
    exact ⟨none, rfl⟩
  parents := by
    intro slot dir valid above
    obtain ⟨inside, filled⟩ := built.valid_inode empty valid
    rw [filled] at above
    contradiction

end

end

section

/-- The number of sectors that the first pass reads into the buffer of an entry, before it is
cut to the eight bits of the parameter. -/
def fileRequest (io : LoadIo) (index : Nat) (d : DiskInode) : Option UInt32 :=
  if d.type = typeFile ∧ io.fileMemory index = true ∧ 0 < d.dataLba ∧ 0 < d.size then
    some (sectorsFor d.size)
  else none

def LoadReaches (io : LoadIo) (disk : Disk) (index : Nat) : Prop :=
  Opens io disk ∧ Reached io disk (loadTable disk) (List.range (imageCount disk)) index

structure LoadFits (io : LoadIo) (disk : Disk) (start : FileSystem) : Prop where
  requests : ∀ index, LoadReaches io disk index →
    ∀ sectors ∈ fileRequest io index (DiskInode.load (loadTable disk) index),
      sectors.toUInt8.toNat = sectors.toNat ∧ sectorSize * sectors.toUInt8.toNat ≤ maxFileSize
  sizes : ∀ after result, fsLoad io disk start = .ok (after, result) →
    ∀ slot, (after.inodes slot).valid = true → (after.inodes slot).type = typeFile →
      (after.inodes slot).size.toNat ≤ maxFileSize

theorem fileRequest_fits {sectors : UInt32} (request : sectors ∈ fileRequest io index d)
    (size : d.size.toNat ≤ maxFileSize) :
    sectors.toUInt8.toNat = sectors.toNat ∧ sectorSize * sectors.toUInt8.toNat ≤ maxFileSize := by
  unfold fileRequest at request
  split at request
  · cases request
    unfold maxFileSize at size ⊢
    have count := sectorsFor_toNat d.size (by omega)
    have narrow := toUInt8_toNat (sectorsFor d.size) (by omega)
    refine ⟨narrow, ?_⟩
    rw [narrow, count]
    unfold sectorSize
    omega
  · contradiction

theorem loadData_fault {fault : Fault} (failed : loadData io disk index d = .error fault) :
    ∃ sectors ∈ fileRequest io index d, maxFileSize < sectorSize * sectors.toUInt8.toNat := by
  unfold loadData at failed
  split at failed
  · next isFile =>
    split at failed
    · contradiction
    · next memory =>
      split at failed
      · next content =>
        simp only at failed
        split at failed
        · contradiction
        · next beyond =>
          refine ⟨sectorsFor d.size, ?_, ?_⟩
          · unfold fileRequest
            rw [if_pos ⟨isFile, by simpa using memory, content⟩]
            rfl
          · have most : (io.file index).moved (sectorsFor d.size).toUInt8.toNat ≤
                (sectorsFor d.size).toUInt8.toNat := by
              cases io.file index with
              | complete => exact Nat.le_refl _
              | stopped before => exact Nat.min_le_right _ _
            unfold sectorSize at beyond ⊢
            omega
      · contradiction
  · contradiction

variable (empty : ∀ slot, (start.inodes slot).valid = false)

include empty

theorem fsLoad_returns (opens : Opens io disk) {done : Bool}
    (first : loadInodes io disk (loadTable disk) (List.range (imageCount disk)) start =
      .ok (loaded, done)) : ∃ after result, fsLoad io disk start = .ok (after, result) ∧
    LinksOnly loaded after := by
  rw [fsLoad_open opens, loadPasses, first]
  cases done with
  | false => exact ⟨loaded, -1, rfl, .refl loaded⟩
  | true =>
    obtain ⟨items, built, -, -, complete⟩ := loadInodes_loaded empty (.refl start) opens.room first
    obtain ⟨linked, second⟩ := linkInodes_total (loadTable disk) (List.range (imageCount disk))
      (built.linkable empty (complete rfl).1)
    simp only [second]
    exact ⟨linked, _, rfl, linkInodes_linksOnly second⟩

theorem load_fits_iff : LoadFits io disk start ↔ ∀ index, LoadReaches io disk index →
    (DiskInode.load (loadTable disk) index).type = typeFile →
    (DiskInode.load (loadTable disk) index).size.toNat ≤ maxFileSize := by
  constructor
  · rintro fits index ⟨opens, reached⟩ isFile
    cases first : loadInodes io disk (loadTable disk) (List.range (imageCount disk)) start with
    | error fault =>
      obtain ⟨broken, reached', failed⟩ := loadInodes_fault empty (.refl start) opens.room first
      obtain ⟨sectors, request, beyond⟩ := loadData_fault failed
      have bound := (fits.requests broken ⟨opens, reached'⟩ sectors request).2
      omega
    | ok pair =>
      obtain ⟨loaded, done⟩ := pair
      obtain ⟨items, built, short, members⟩ :=
        loadInodes_reached empty (.refl start) opens.room first
      rw [List.nil_append] at built short
      have slots := Nat.le_trans short opens.room
      -- The entry is in some slot, and the second pass leaves its header alone.
      obtain ⟨item, member, same⟩ := List.mem_map.mp ((members _).mpr ⟨index, reached, rfl⟩)
      obtain ⟨j, inside, rfl⟩ := List.getElem_of_mem member
      obtain ⟨after, result, returned, links⟩ := fsLoad_returns empty opens first
      have filled := built.filled ⟨j, by omega⟩ inside
      obtain ⟨-, type, size, valid, -⟩ := links.header ⟨j, by omega⟩
      rw [filled] at type size valid
      have bound := fits.sizes after result returned ⟨j, by omega⟩ valid
        (type.trans ((congrArg DiskInode.type same).trans isFile))
      rw [size] at bound
      rw [← same]
      exact bound
  · intro small
    refine ⟨?_, ?_⟩
    · rintro index reached sectors request
      refine fileRequest_fits request (small index reached ?_)
      unfold fileRequest at request
      split at request
      · next cond => exact cond.1
      · contradiction
    · intro after result returned slot valid isFile
      obtain ⟨rfl, -⟩ | ⟨opens, loaded, done, first, ended⟩ := fsLoad_cases returned
      · rw [empty slot] at valid
        contradiction
      · obtain ⟨items, built, -, members⟩ :=
          loadInodes_reached empty (.refl start) opens.room first
        rw [List.nil_append] at built
        have header : SameHeader (after.inodes slot) (loaded.inodes slot) := by
          obtain ⟨-, rfl, -⟩ | ⟨-, linked, -⟩ := ended
          · exact ⟨rfl, rfl, rfl, rfl, rfl⟩
          · exact (linkInodes_linksOnly linked).header slot
        obtain ⟨-, sameType, sameSize, sameValid, -⟩ := header
        rw [sameValid] at valid
        obtain ⟨inside, filled⟩ := built.valid_inode empty valid
        obtain ⟨index, reached, entry⟩ :=
          (members _).mp (List.mem_map_of_mem (List.getElem_mem inside))
        rw [sameType, filled] at isFile
        rw [sameSize, filled]
        simp only [loadedInode, entry] at isFile ⊢
        exact small index ⟨opens, reached⟩ isFile

end

def storeEntries : Nat → List DiskInode → (Nat → UInt8) → Nat → UInt8
  | _, [], table => table
  | index, d :: rest, table => storeEntries (index + 1) rest (d.store table index)

def imageOf (entries : List DiskInode) : Disk :=
  fun i => if i < 512 then (superblockFor entries.length).store i
    else storeEntries 0 entries (fun _ => 0) (i - 512)

def rootEntry : DiskInode :=
  { name := .strncpy [slash], type := typeDir, size := 0, inodeNum := 1, parentInode := 0
    dataLba := 0, valid := 1 }

def fileEntry (size : UInt32) : DiskInode :=
  { name := .strncpy [97], type := typeFile, size := size, inodeNum := 2, parentInode := 1
    dataLba := 65, valid := 1 }

theorem load_fits_iff_full : LoadFits .success (imageOf [rootEntry, fileEntry 65536])
    (clearTables bootState) := by
  refine (load_fits_iff (fun _ => rfl)).mpr ?_
  have count : imageCount (imageOf [rootEntry, fileEntry 65536]) = 2 := by decide +kernel
  rintro index ⟨-, reached⟩
  have inside := List.mem_range.mp reached.mem
  rw [count] at inside
  obtain rfl | rfl : index = 0 ∨ index = 1 := by omega
  · decide +kernel
  · decide +kernel

-- 129 sectors for a buffer of 128.
theorem load_overflows : ¬LoadFits .success (imageOf [rootEntry, fileEntry 65537])
    (clearTables bootState) := by
  intro fits
  have opens : Opens .success (imageOf [rootEntry, fileEntry 65537]) :=
    ⟨⟨by decide +kernel, by decide +kernel, by decide +kernel⟩, rfl, rfl, rfl⟩
  have count : imageCount (imageOf [rootEntry, fileEntry 65537]) = 2 := by decide +kernel
  have reached : LoadReaches .success (imageOf [rootEntry, fileEntry 65537]) 1 := by
    refine ⟨opens, ?_⟩
    rw [count]
    refine .inr ⟨fun _ => ⟨.null, loadData_other _ _ _ ?_⟩, .inl ⟨rfl, ?_⟩⟩
    · decide +kernel
    · decide +kernel
  have bound := (fits.requests 1 reached 129 (by decide +kernel)).2
  exact absurd bound (by decide)

variable {after : FileSystem}

section

def validEntries (disk : Disk) : List DiskInode :=
  ((List.range (imageCount disk)).map (tableEntry disk)).filter loadable

def NamesParent (d up : DiskInode) : Prop :=
  0 < d.parentInode ∧ up.inodeNum = d.parentInode

instance (d up : DiskInode) : Decidable (NamesParent d up) :=
  inferInstanceAs (Decidable (_ ∧ _))

-- The slot of the last valid directory named `/`, or else what `root_dir` was before.
def imageRoot (root : Option Slot) (disk : Disk) : Option Slot :=
  rootFrom root 0 ((validEntries disk).map (fun d => (d, Data.null)))

/-- The entry of a slot comes to the root through the numbers of parents in the table. -/
inductive LeadsToRoot (root : Option Slot) (entries : List DiskInode) : Slot → Prop where
  | root (slot : Slot) (isRoot : root = some slot) : LeadsToRoot root entries slot
  | child (slot above : Slot) (d up : DiskInode) (here : entries[slot.val]? = some d)
      (there : entries[above.val]? = some up) (named : NamesParent d up)
      (leads : LeadsToRoot root entries above) : LeadsToRoot root entries slot

def ParentsLeadToRoot (root : Option Slot) (entries : List DiskInode) : Prop :=
  ∀ (slot : Slot) (d up : DiskInode), entries[slot.val]? = some d → up ∈ entries →
    NamesParent d up → LeadsToRoot root entries slot

instance (entries : List DiskInode) : Decidable (DistinctNumbers entries) :=
  inferInstanceAs (Decidable (List.Nodup _))

def IsLinked (fs : FileSystem) (slot : Slot) : Prop :=
  (fs.inodes slot).parent ≠ none ∨
    ∃ dir children, IsDir fs dir ∧ ChildList fs dir children ∧ slot ∈ children

structure LookupsEnd (fs : FileSystem) : Prop where
  find : ∀ dir name, (fs.inodes dir).valid = true →
    ∃ found, fsFindInodeInDir fs (some dir) name = .ok found
  resolve : ∀ path, ∃ found, fsResolvePath fs path = .ok found
  elsewhere : ∀ dir path, (fs.inodes dir).valid = true →
    ∃ found, fsResolvePath { fs with currentDir := some dir } path = .ok found

/-- The load has built lists that end and parents that come to `root_dir`. Lookups start at
`root_dir` and at `current_dir`, which the load sets if `root_dir` was `NULL` before. -/
structure LoadSound (start after : FileSystem) : Prop where
  lists : ∀ dir, IsDir after dir → ∃ children, ChildList after dir children ∧ children.Nodup
  rooted : ∀ slot, (after.inodes slot).valid = true → IsLinked after slot → Rooted after slot
  lookups : start.rootDir = none → LookupsEnd after

theorem validEntries_eq {disk : Disk} (few : imageCount disk ≤ 256) : validEntries disk =
    (validIndices (loadTable disk) (List.range (imageCount disk))).map
      (load (loadTable disk)) := by
  have same : (List.range (imageCount disk)).map (tableEntry disk) =
      (List.range (imageCount disk)).map (load (loadTable disk)) := by
    apply map_congr_left
    intro index member
    rw [loadTable_entry disk few index (mem_range.mp member)]
  rw [validEntries, same, filter_map]
  rfl

structure LinkedImage (root : Option Slot) (entries : List DiskInode) (after : FileSystem) :
    Prop where
  valid : ∀ slot : Slot, (after.inodes slot).valid = true ↔ slot.val < entries.length
  parent : ∀ slot above, (after.inodes slot).valid = true →
    ((after.inodes slot).parent = some above ↔ ∃ d up, entries[slot.val]? = some d ∧
      entries[above.val]? = some up ∧ NamesParent d up)
  lists : ∀ dir, IsDir after dir → ∃ children, ChildList after dir children ∧
    ∀ slot ∈ children, (after.inodes slot).valid = true ∧ (after.inodes slot).parent = some dir
  rootDir : after.rootDir = root

section

variable {root : Option Slot} {entries : List DiskInode} (image : LinkedImage root entries after)

include image

theorem LinkedImage.parent_valid (slot above : Slot) (valid : (after.inodes slot).valid = true)
    (parent : (after.inodes slot).parent = some above) : (after.inodes above).valid = true := by
  obtain ⟨d, up, -, there, -⟩ := (image.parent slot above valid).mp parent
  exact (image.valid above).mpr (List.getElem?_eq_some_iff.mp there).1

theorem LinkedImage.rooted_iff (valid : (after.inodes slot).valid = true) :
    Rooted after slot ↔ LeadsToRoot root entries slot := by
  constructor
  · intro rooted
    induction rooted with
    | root slot isRoot => exact .root slot (image.rootDir.symm.trans isRoot)
    | child slot above parent _ ih =>
      obtain ⟨d, up, here, there, named⟩ := (image.parent slot above valid).mp parent
      exact .child slot above d up here there named (ih (image.parent_valid slot above valid parent))
  · intro leads
    induction leads with
    | root slot isRoot => exact .root slot (image.rootDir.trans isRoot)
    | child slot above d up here there named _ ih =>
      have parent := (image.parent slot above valid).mpr ⟨d, up, here, there, named⟩
      exact .child slot above parent (ih (image.parent_valid slot above valid parent))

theorem LinkedImage.linked_parent (linked : IsLinked after slot) :
    ∃ above, (after.inodes slot).parent = some above := by
  obtain parent | ⟨dir, children, isDir, list, member⟩ := linked
  · exact Option.ne_none_iff_exists'.mp parent
  · obtain ⟨others, list', members⟩ := image.lists dir isDir
    rw [list.unique list'] at member
    exact ⟨dir, (members slot member).2⟩

theorem LinkedImage.walkable (found : ∃ slot, root = some slot ∧ (after.inodes slot).valid = true) :
    Walkable after where
  root := by
    rw [image.rootDir]
    exact found
  parents := image.parent_valid
  lists := by
    intro dir isDir
    obtain ⟨children, list, members⟩ := image.lists dir isDir
    exact ⟨children, list, fun slot member => (members slot member).1⟩

theorem LinkedImage.lookups (isRoot : root = some slot) (valid : (after.inodes slot).valid = true)
    (current : after.currentDir = some slot) : LookupsEnd after where
  find := by
    intro dir name dirValid
    obtain ⟨found, search, -⟩ :=
      (image.walkable ⟨slot, isRoot, valid⟩).find_valid dir name dirValid
    exact ⟨found, search⟩
  resolve := by
    intro path
    obtain ⟨found, search, -⟩ :=
      (image.walkable ⟨slot, isRoot, valid⟩).resolve_valid current valid path
    exact ⟨found, search⟩
  elsewhere := by
    intro dir path dirValid
    have moved : Walkable { after with currentDir := some dir } := by
      obtain ⟨hasRoot, parents, lists⟩ := image.walkable ⟨slot, isRoot, valid⟩
      exact ⟨hasRoot, parents, lists⟩
    obtain ⟨found, search, -⟩ := moved.resolve_valid rfl dirValid path
    exact ⟨found, search⟩

end

theorem rootFrom_or (root : Option Slot) (count : Nat) (items : List Item) :
    rootFrom root count items = (rootFrom none count items).or root := by
  induction items generalizing root count with
  | nil => rfl
  | cons item items ih =>
    simp only [rootFrom]
    split
    · rw [ih (some _)]
      cases rootFrom none (count + 1) items <;> rfl
    · exact ih root (count + 1)

theorem rootFrom_inside {count : Nat} (room : count + items.length ≤ 320)
    (found : rootFrom none count items = some slot) : slot.val < count + items.length := by
  induction items generalizing count with
  | nil => contradiction
  | cons item items ih =>
    rw [length_cons] at room ⊢
    rw [rootFrom, rootFrom_or] at found
    cases later : rootFrom none (count + 1) items with
    | some last =>
      rw [later] at found
      cases found
      have inside := ih (by omega) later
      omega
    | none =>
      rw [later, Option.none_or] at found
      split at found
      · cases found
        have small : (Fin.ofNat 320 count).val = count := Nat.mod_eq_of_lt (by omega)
        omega
      · contradiction

theorem entryParent_eq_some {above : Slot} :
    entryParent loaded d = some above ↔
      0 < d.parentInode ∧ loaded.findInodeByNum d.parentInode = some above := by
  unfold entryParent
  split <;> simp [*]

section

variable (empty : ∀ slot, (start.inodes slot).valid = false)
  (returned : fsLoad io disk start = .ok (after, 0))
  (distinct : DistinctNumbers (validEntries disk))

include empty returned distinct

theorem fsLoad_image : LinkedImage (imageRoot start.rootDir disk) (validEntries disk) after ∧
    after.currentDir = imageRoot start.currentDir disk ∧ (validEntries disk).length ≤ 320 ∧
    after.rootDir.isSome = true := by
  obtain ⟨-, failed⟩ | ⟨opens, loaded, done, first, ended⟩ := fsLoad_cases returned
  · exact absurd failed (by decide)
  obtain ⟨-, -, failed⟩ | ⟨rfl, second, result⟩ := ended
  · exact absurd failed (by decide)
  have hasRoot : after.rootDir.isSome = true := by
    by_contra missing
    rw [if_neg missing] at result
    exact absurd result (by decide)
  have few := opens.few
  have room := opens.room
  obtain ⟨items, built, -, -, complete⟩ := loadInodes_loaded empty (.refl start) room first
  rw [nil_append] at built
  obtain ⟨pairs, roots⟩ := complete rfl
  have entries : items.map Prod.fst = validEntries disk := by
    rw [LoadedItem.entries pairs, validEntries_eq few]
  have short : items.length ≤ 320 := by
    rw [← pairs.length_eq]
    rw [length_nil, Nat.zero_add] at room
    exact Nat.le_trans (length_filter_le _ _) room
  have length : (validEntries disk).length = items.length := by
    rw [← entries, length_map]
  have plain : items.map Prod.fst = ((validEntries disk).map fun d => (d, Data.null)).map Prod.fst := by
    rw [entries, map_map]
    exact (map_id _).symm
  rw [rootFrom_congr _ _ plain, rootFrom_congr _ _ plain] at roots
  rw [← entries] at distinct
  obtain ⟨linked, links, linkedAll, linking, members⟩ := built.links empty short pairs distinct
  cases Except.ok.inj (linkedAll.symm.trans second)
  have valid : ∀ slot, (after.inodes slot).valid = true ↔ slot.val < items.length := by
    intro slot
    rw [(linking.header slot).2.2.2.1]
    exact built.valid_iff empty slot
  have parent : ∀ slot d, (validEntries disk)[slot.val]? = some d →
      (after.inodes slot).parent = entryParent loaded d := by
    intro slot d here
    rw [← entries] at here
    exact linking.parents (slot, entryParent loaded d) ((members _).mpr ⟨d, here, rfl⟩)
  refine ⟨⟨by rw [length]; exact valid, ?_, ?_, linking.rootDir.trans roots.1⟩,
    linking.currentDir.trans roots.2, by omega, hasRoot⟩
  · intro slot above slotValid
    have inside := (valid slot).mp slotValid
    rw [← length] at inside
    have here := List.getElem?_eq_getElem inside
    rw [parent slot _ here, entryParent_eq_some, built.lookup empty distinct, entries]
    constructor
    · rintro ⟨positive, up, there, number⟩
      exact ⟨_, up, here, there, positive, number⟩
    · rintro ⟨d, up, here', there, positive, number⟩
      cases Option.some.inj (here.symm.trans here')
      exact ⟨positive, up, there, number⟩
  · intro dir isDir
    have loadedDir : IsDir loaded dir := by
      obtain ⟨-, type, -, same, -⟩ := linking.header dir
      exact ⟨same.symm.trans isDir.1, type.symm.trans isDir.2⟩
    refine ⟨_, linking.lists dir loadedDir, ?_⟩
    intro slot member
    have link := (mem_linkedTo links dir slot).mp member
    obtain ⟨d, here, -⟩ := (members _).mp link
    refine ⟨(valid slot).mpr ?_, linking.parents _ link⟩
    simpa using (List.getElem?_eq_some_iff.mp here).1

theorem load_sound_iff : LoadSound start after ↔
    ParentsLeadToRoot (imageRoot start.rootDir disk) (validEntries disk) := by
  obtain ⟨image, currentDir, few, hasRoot⟩ := fsLoad_image empty returned distinct
  constructor
  · intro sound slot d up here member named
    obtain ⟨inside, rfl⟩ := List.getElem?_eq_some_iff.mp here
    obtain ⟨above, within, rfl⟩ := List.getElem_of_mem member
    have valid := (image.valid slot).mpr inside
    have parent := (image.parent slot ⟨above, by omega⟩ valid).mpr
      ⟨_, _, here, List.getElem?_eq_getElem within, named⟩
    exact (image.rooted_iff valid).mp (sound.rooted slot valid (.inl (by simp [parent])))
  · intro leads
    refine ⟨?_, ?_, ?_⟩
    · intro dir isDir
      obtain ⟨children, list, -⟩ := image.lists dir isDir
      exact ⟨children, list, list.nodup⟩
    · intro slot valid linked
      obtain ⟨above, parent⟩ := image.linked_parent linked
      obtain ⟨d, up, here, there, named⟩ := (image.parent slot above valid).mp parent
      exact (image.rooted_iff valid).mpr (leads slot d up here (List.mem_of_getElem? there) named)
    · intro noRoot
      obtain ⟨root, rootDir⟩ := Option.isSome_iff_exists.mp hasRoot
      have found := image.rootDir.symm.trans rootDir
      rw [noRoot] at found image
      have inside := rootFrom_inside (by simpa using few) found
      rw [Nat.zero_add, List.length_map] at inside
      rw [imageRoot, rootFrom_or, ← imageRoot, found, Option.some_or] at currentDir
      exact image.lookups found ((image.valid root).mpr inside) currentDir

end

end

def loadThenResolve (disk : Disk) (path : CString) : Option (Int × Option Fault) :=
  match fsLoad .success disk (clearTables bootState) with
  | .error _ => none
  | .ok (after, result) =>
    match fsResolvePath after (some path) with
    | .error fault => some (result, some fault)
    | .ok _ => some (result, none)

theorem loadThenResolve_spec {path : CString} {result : Int} {fault : Option Fault}
    (found : loadThenResolve disk path = some (result, fault)) :
    ∃ after, fsLoad .success disk (clearTables bootState) = .ok (after, result) ∧
      ∀ broken, fault = some broken → fsResolvePath after (some path) = .error broken := by
  unfold loadThenResolve at found
  split at found
  · contradiction
  · next after returned loaded =>
    split at found
    · next broken search =>
      cases found
      exact ⟨after, loaded, by rintro _ ⟨⟩; exact search⟩
    · cases found
      exact ⟨after, loaded, nofun⟩

theorem load_sound_iff_file : ∃ after,
    fsLoad .success (imageOf [rootEntry, fileEntry 10]) (clearTables bootState) =
      .ok (after, 0) ∧ LoadSound (clearTables bootState) after := by
  obtain ⟨after, returned, -⟩ := loadThenResolve_spec (show
    loadThenResolve (imageOf [rootEntry, fileEntry 10]) ⟨[97], by decide⟩ = some (0, none) by
      decide +kernel)
  have entries : validEntries (imageOf [rootEntry, fileEntry 10]) = [rootEntry, fileEntry 10] := by
    decide +kernel
  have root : imageRoot none (imageOf [rootEntry, fileEntry 10]) = some 0 := by
    rw [imageRoot, entries]
    decide
  refine ⟨after, returned, (load_sound_iff (fun _ => rfl) returned ?_).mpr ?_⟩
  · rw [entries]
    decide
  · rw [show (clearTables bootState).rootDir = none from rfl, root, entries]
    intro slot d up here _ named
    obtain zero | one : slot.val = 0 ∨ slot.val = 1 := by
      have inside := (List.getElem?_eq_some_iff.mp here).1
      simp only [List.length_cons, List.length_nil] at inside
      omega
    · exact .root slot (congrArg some (Fin.ext zero.symm))
    · exact .child slot 0 (fileEntry 10) rootEntry (by rw [one]; rfl) rfl (by decide) (.root 0 rfl)

-- The second entry of a number puts the inode on the list where it already is.
theorem number_twice_never_ends : ∃ after,
    fsLoad .success (imageOf [rootEntry, fileEntry 10, fileEntry 20]) (clearTables bootState) =
      .ok (after, 0) ∧ ¬LoadSound (clearTables bootState) after := by
  obtain ⟨after, returned, lost⟩ := loadThenResolve_spec (show
    loadThenResolve (imageOf [rootEntry, fileEntry 10, fileEntry 20]) ⟨[98], by decide⟩ =
      some (0, some .endlessList) by decide +kernel)
  refine ⟨after, returned, fun sound => ?_⟩
  obtain ⟨found, search⟩ := (sound.lookups rfl).resolve (some ⟨[98], by decide⟩)
  rw [lost .endlessList rfl] at search
  contradiction

end ArgoOS.Fs
