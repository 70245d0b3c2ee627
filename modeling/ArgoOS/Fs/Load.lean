import Mathlib
import ArgoOS.Fs.Disk
import ArgoOS.Fs.Tree

set_option autoImplicit false

/-! # What a load builds -/

namespace ArgoOS.Fs

open List FileSystem DiskInode

theorem FileSystem.freeSlot_eq (fs : FileSystem) (slot : Slot)
    (free : (fs.inodes slot).valid = false)
    (taken : ∀ other < slot, (fs.inodes other).valid = true) : fs.freeSlot = some slot := by
  cases found : fs.freeSlot with
  | none =>
    have valid := List.find?_eq_none.mp found slot (mem_finRange slot)
    simp [free] at valid
  | some first =>
    have invalid := fs.freeSlot_invalid found
    obtain less | same | greater := lt_trichotomy first slot
    · rw [taken first less] at invalid
      contradiction
    · rw [same]
    · obtain ⟨-, before, after, split, earlier⟩ := List.find?_eq_some_iff_append.mp found
      have member : slot ∈ before := by
        have sorted := pairwise_lt_finRange 320
        have all := mem_finRange slot
        rw [split] at sorted all
        obtain member | member := mem_append.mp all
        · exact member
        · obtain rfl | member := mem_cons.mp member
          · exact absurd greater (lt_irrefl _)
          · have later := (List.pairwise_cons.mp (List.pairwise_append.mp sorted).2.1).1 slot member
            exact absurd greater (lt_asymm later)
      have valid := earlier slot member
      simp [free] at valid

def loadable (d : DiskInode) : Bool :=
  d.valid != 0

/-- The valid entries of a table, in order, with the data that the first pass loads. -/
abbrev Item := DiskInode × Data

structure Loaded (start fs : FileSystem) (items : List Item) : Prop where
  filled : ∀ (slot : Slot) (inside : slot.val < items.length),
    fs.inodes slot = loadedInode items[slot.val].1 items[slot.val].2
  rest : ∀ slot : Slot, items.length ≤ slot.val → fs.inodes slot = start.inodes slot
  descriptors : fs.fileDescriptors = start.fileDescriptors
  nextInode : fs.nextInode = start.nextInode
  initialized : fs.initialized = start.initialized

theorem Loaded.refl (start : FileSystem) : Loaded start start [] :=
  ⟨fun _ inside => absurd inside (Nat.not_lt_zero _), fun _ _ => rfl, rfl, rfl, rfl⟩

variable {after : FileSystem}

variable {indices : List Nat}

variable {index : Nat} {fs : FileSystem} {slot : Slot} {table : Nat → UInt8}

section

variable {start fs : FileSystem} {items : List Item}
  (empty : ∀ slot, (start.inodes slot).valid = false)

include empty

theorem Loaded.freeSlot (loaded : Loaded start fs items) (room : items.length < 320) :
    fs.freeSlot = some ⟨items.length, room⟩ := by
  apply fs.freeSlot_eq
  · rw [loaded.rest _ (Nat.le_refl _), empty]
  · intro other less
    rw [loaded.filled other less]
    rfl

omit empty in
theorem Loaded.add (loaded : Loaded start fs items) (room : items.length < 320) (item : Item) :
    Loaded start (fs.setInode ⟨items.length, room⟩ (loadedInode item.1 item.2))
      (items ++ [item]) where
  filled := by
    intro slot inside
    by_cases last : slot.val = items.length
    · have same : slot = ⟨items.length, room⟩ := Fin.ext last
      subst same
      simp
    · rw [length_append, length_singleton] at inside
      have before : slot.val < items.length := by omega
      rw [setInode_other _ _ _ _ (fun same => last (congrArg Fin.val same)),
        loaded.filled slot before, getElem_append_left before]
  rest := by
    intro slot outside
    rw [length_append, length_singleton] at outside
    have different : slot ≠ ⟨items.length, room⟩ := by
      rintro rfl
      exact absurd outside (Nat.not_succ_le_self _)
    rw [setInode_other _ _ _ _ different, loaded.rest slot (by omega)]
  descriptors := loaded.descriptors
  nextInode := loaded.nextInode
  initialized := loaded.initialized

omit empty in
theorem Loaded.markRoot (loaded : Loaded start fs items) (slot : Slot) (d : DiskInode) :
    Loaded start (markRoot fs slot d) items := by
  unfold Fs.markRoot
  split
  · exact ⟨loaded.filled, loaded.rest, loaded.descriptors, loaded.nextInode, loaded.initialized⟩
  · exact loaded

variable {io : LoadIo} {disk : Disk} {table : Nat → UInt8}

omit empty in
theorem loadInode_skip (invalid : loadable (load table index) = false) :
    loadInode io disk table fs index = .ok (fs, true) := by
  have zero : (load table index).valid = 0 := by simpa [loadable] using invalid
  simp only [loadInode, if_pos zero]

def LoadedItem (io : LoadIo) (disk : Disk) (table : Nat → UInt8) (index : Nat) (item : Item) :
    Prop :=
  item.1 = DiskInode.load table index ∧ loadData io disk index item.1 = .ok (item.2, true)

omit empty in
theorem LoadedItem.entries {items : List Item}
    (pairs : List.Forall₂ (LoadedItem io disk table) indices items) :
    items.map Prod.fst = indices.map (load table) := by
  induction pairs with
  | nil => rfl
  | cons pair _ ih => rw [map_cons, map_cons, pair.1, ih]

def validIndices (table : Nat → UInt8) (indices : List Nat) : List Nat :=
  indices.filter (fun index => loadable (DiskInode.load table index))

/-- The valid entries that the first pass comes to. It ends at the first one whose buffer
cannot be allocated or filled. -/
def Reached (io : LoadIo) (disk : Disk) (table : Nat → UInt8) : List Nat → Nat → Prop
  | [], _ => False
  | first :: rest, index =>
    (index = first ∧ loadable (DiskInode.load table first) = true) ∨
    ((loadable (DiskInode.load table first) = true →
      ∃ data, loadData io disk first (DiskInode.load table first) = .ok (data, true)) ∧
      Reached io disk table rest index)

/-- The slot of the last entry that is a directory named `/`, counted from slot `count`. -/
def rootFrom : Option Slot → Nat → List Item → Option Slot
  | root, _, [] => root
  | root, count, item :: items =>
    rootFrom (if item.1.name.bytes = [slash] ∧ item.1.type = typeDir then
      some (Fin.ofNat 320 count) else root) (count + 1) items

omit empty in
theorem rootFrom_congr {items others : List Item} (root : Option Slot) (count : Nat)
    (same : items.map Prod.fst = others.map Prod.fst) :
    rootFrom root count items = rootFrom root count others := by
  induction items generalizing others root count with
  | nil => rw [List.map_eq_nil_iff.mp same.symm]
  | cons item items ih =>
    obtain ⟨other, rest, rfl, first, later⟩ := List.map_eq_cons_iff.mp same.symm
    rw [rootFrom, rootFrom, first]
    exact ih _ _ later.symm

omit empty in
theorem markRoot_rootDir (fs : FileSystem) (slot : Slot) (d : DiskInode) :
    (Fs.markRoot fs slot d).rootDir = (if d.name.bytes = [slash] ∧ d.type = typeDir then
      some slot else fs.rootDir) ∧
    (Fs.markRoot fs slot d).currentDir = (if d.name.bytes = [slash] ∧ d.type = typeDir then
      some slot else fs.currentDir) := by
  unfold Fs.markRoot
  split <;> exact ⟨rfl, rfl⟩

/-- The course of the first pass from `fs`, where `items` are loaded, to its result. -/
inductive FirstPass (start : FileSystem) (io : LoadIo) (disk : Disk) (table : Nat → UInt8) :
    List Nat → FileSystem → List Item → Except Fault (FileSystem × Bool) → Prop
  | done {fs items : _} (loaded : Loaded start fs items) :
    FirstPass start io disk table [] fs items (.ok (fs, true))
  | skip {index indices fs items result : _}
      (invalid : loadable (DiskInode.load table index) = false)
      (rest : FirstPass start io disk table indices fs items result) :
    FirstPass start io disk table (index :: indices) fs items result
  | fault {index indices fs items fault : _}
      (valid : loadable (DiskInode.load table index) = true)
      (failed : loadData io disk index (DiskInode.load table index) = .error fault) :
    FirstPass start io disk table (index :: indices) fs items (.error fault)
  | stop {index indices fs after items data : _}
      (valid : loadable (DiskInode.load table index) = true)
      (failed : loadData io disk index (DiskInode.load table index) = .ok (data, false))
      (loaded : Loaded start after (items ++ [(DiskInode.load table index, data)])) :
    FirstPass start io disk table (index :: indices) fs items (.ok (after, false))
  | next {index indices fs after items data result : _}
      (valid : loadable (DiskInode.load table index) = true)
      (filled : loadData io disk index (DiskInode.load table index) = .ok (data, true))
      (roots : after.rootDir = rootFrom fs.rootDir items.length [(DiskInode.load table index, data)] ∧
        after.currentDir =
          rootFrom fs.currentDir items.length [(DiskInode.load table index, data)])
      (rest : FirstPass start io disk table indices after
        (items ++ [(DiskInode.load table index, data)]) result) :
    FirstPass start io disk table (index :: indices) fs items result

section

variable (loaded : Loaded start fs items) (room : items.length + indices.length ≤ 320)

include loaded room

theorem loadInodes_pass :
    FirstPass start io disk table indices fs items (loadInodes io disk table indices fs) := by
  induction indices generalizing fs items with
  | nil => exact .done loaded
  | cons index indices ih =>
    rw [length_cons] at room
    cases valid : loadable (load table index) with
    | false =>
      simp only [loadInodes, loadInode_skip valid]
      exact .skip valid (ih loaded (by omega))
    | true =>
      have nonzero : (load table index).valid ≠ 0 := by simpa [loadable] using valid
      have small : items.length < 320 := by omega
      simp only [loadInodes, loadInode, if_neg nonzero, loaded.freeSlot empty small]
      cases data : loadData io disk index (load table index) with
      | error fault => exact .fault valid data
      | ok pair =>
        obtain ⟨content, filled⟩ := pair
        have added := loaded.add small (load table index, content)
        cases filled with
        | false => exact .stop valid data added
        | true =>
          refine .next valid data ?_ (ih (added.markRoot _ _) ?_)
          · rw [rootFrom, rootFrom, rootFrom, rootFrom, show Fin.ofNat 320 items.length =
              ⟨items.length, small⟩ from Fin.ext (Nat.mod_eq_of_lt small)]
            exact markRoot_rootDir _ _ _
          · rw [length_append, length_singleton]
            omega

/-- The first pass, however it ends, leaves exactly the entries it came to. -/
theorem loadInodes_loaded {done : Bool}
    (returned : loadInodes io disk table indices fs = .ok (after, done)) :
    ∃ more, Loaded start after (items ++ more) ∧
      more.map Prod.fst <+: (validIndices table indices).map (load table) ∧
      (∀ d, d ∈ more.map Prod.fst ↔
        ∃ index, Reached io disk table indices index ∧ d = load table index) ∧
      (done = true → List.Forall₂ (LoadedItem io disk table) (validIndices table indices) more ∧
        after.rootDir = rootFrom fs.rootDir items.length more ∧
        after.currentDir = rootFrom fs.currentDir items.length more) := by
  have pass : FirstPass start io disk table indices fs items _ := loadInodes_pass empty loaded room
  clear loaded room
  generalize loadInodes io disk table indices fs = result at pass returned
  induction pass with
  | done loaded =>
    cases returned
    exact ⟨[], by simpa using loaded, nil_prefix, by simp [Reached], fun _ => ⟨.nil, rfl, rfl⟩⟩
  | skip invalid _ ih => simpa [validIndices, Reached, invalid] using ih returned
  | fault => contradiction
  | @stop index _ _ _ _ data valid failed loaded =>
    cases returned
    exact ⟨[(load table index, data)], loaded, by simp [validIndices, valid],
      by simp [Reached, valid, failed], nofun⟩
  | @next index _ _ _ _ data _ valid filled roots _ ih =>
    obtain ⟨more, final, entries, members, complete⟩ := ih returned
    refine ⟨(load table index, data) :: more, by simpa using final,
      by simpa [validIndices, valid] using entries, fun d => ?_, fun finished => ?_⟩
    · simp only [map_cons, mem_cons, members, Reached, valid, filled]
      constructor
      · rintro (rfl | ⟨later, reached, rfl⟩)
        · exact ⟨index, .inl ⟨rfl, trivial⟩, rfl⟩
        · exact ⟨later, .inr ⟨fun _ => ⟨data, rfl⟩, reached⟩, rfl⟩
      · rintro ⟨later, ⟨rfl, -⟩ | ⟨-, reached⟩, rfl⟩
        · exact .inl rfl
        · exact .inr ⟨later, reached, rfl⟩
    · obtain ⟨pairs, rootDir, currentDir⟩ := complete finished
      rw [length_append, length_singleton] at rootDir currentDir
      rw [rootDir, currentDir, roots.1, roots.2]
      exact ⟨by simpa [validIndices, valid] using ⟨⟨rfl, filled⟩, pairs⟩, rfl, rfl⟩

theorem loadInodes_fault {fault : Fault}
    (failed : loadInodes io disk table indices fs = .error fault) :
    ∃ index, Reached io disk table indices index ∧
      loadData io disk index (load table index) = .error fault := by
  have pass : FirstPass start io disk table indices fs items _ := loadInodes_pass empty loaded room
  clear loaded room
  generalize loadInodes io disk table indices fs = result at pass failed
  induction pass with
  | done => contradiction
  | skip invalid _ ih => simpa [Reached, invalid] using ih failed
  | fault valid broken =>
    cases failed
    exact ⟨_, .inl ⟨rfl, valid⟩, broken⟩
  | stop => contradiction
  | next _ filled _ _ ih =>
    obtain ⟨index, reached, broken⟩ := ih failed
    exact ⟨index, .inr ⟨fun _ => ⟨_, filled⟩, reached⟩, broken⟩

theorem loadInodes_succeeds (data : ∀ index ∈ indices, ∃ data,
      loadData io disk index (load table index) = .ok (data, true)) :
    ∃ after, loadInodes io disk table indices fs = .ok (after, true) := by
  have pass : FirstPass start io disk table indices fs items _ := loadInodes_pass empty loaded room
  clear loaded room
  generalize loadInodes io disk table indices fs = result at pass
  induction pass with
  | done => exact ⟨_, rfl⟩
  | skip _ _ ih => exact ih fun index member => data index (mem_cons_of_mem _ member)
  | fault _ failed | stop _ failed _ =>
    obtain ⟨content, filled⟩ := data _ mem_cons_self
    cases failed.symm.trans filled
  | next _ _ _ _ ih => exact ih fun index member => data index (mem_cons_of_mem _ member)

end

end

def SameHeader (a b : Inode) : Prop :=
  a.name = b.name ∧ a.type = b.type ∧ a.size = b.size ∧ a.valid = b.valid ∧
    a.inodeNum = b.inodeNum

theorem SameHeader.trans {a b c : Inode} (first : SameHeader a b) (second : SameHeader b c) :
    SameHeader a c :=
  ⟨first.1.trans second.1, first.2.1.trans second.2.1, first.2.2.1.trans second.2.2.1,
    first.2.2.2.1.trans second.2.2.2.1, first.2.2.2.2.trans second.2.2.2.2⟩

theorem findInodeByNum_congr {other : FileSystem}
    (same : ∀ slot, SameHeader (fs.inodes slot) (other.inodes slot)) (num : UInt32) :
    fs.findInodeByNum num = other.findInodeByNum num :=
  fs.findInodeByNum_same (fun slot => (same slot).2.2.2.1) (fun slot => (same slot).2.2.2.2) num

abbrev Link := Slot × Option Slot

def linkedTo (links : List Link) (dir : Slot) : List Slot :=
  (links.filter (fun link => link.2 == some dir)).map Prod.fst

theorem linkedTo_cons (links : List Link) (slot : Slot) (parent : Option Slot) (dir : Slot) :
    linkedTo ((slot, parent) :: links) dir =
      if parent = some dir then slot :: linkedTo links dir else linkedTo links dir := by
  by_cases here : parent = some dir <;> simp [linkedTo, here]

theorem mem_linkedTo (links : List Link) (dir slot : Slot) :
    slot ∈ linkedTo links dir ↔ (slot, some dir) ∈ links := by
  simp [linkedTo]

structure Linking (loaded fs : FileSystem) (links : List Link) : Prop where
  header : ∀ slot, SameHeader (fs.inodes slot) (loaded.inodes slot)
  files : ∀ slot, (loaded.inodes slot).type ≠ typeDir →
    (fs.inodes slot).data = (loaded.inodes slot).data
  rootDir : fs.rootDir = loaded.rootDir
  currentDir : fs.currentDir = loaded.currentDir
  descriptors : fs.fileDescriptors = loaded.fileDescriptors
  nextInode : fs.nextInode = loaded.nextInode
  initialized : fs.initialized = loaded.initialized
  parents : ∀ link ∈ links, (fs.inodes link.1).parent = link.2
  unlinked : ∀ slot, (loaded.inodes slot).valid = true → slot ∉ links.map Prod.fst →
    (fs.inodes slot).parent = none
  lists : ∀ dir, IsDir loaded dir → ChildList fs dir (linkedTo links dir)
  distinct : (links.map Prod.fst).Nodup

theorem setParent_inodes (fs : FileSystem) (slot other : Slot) (parent : Option Slot) :
    (setParent fs slot parent).inodes other = { fs.inodes other with
      parent := if other = slot then parent else (fs.inodes other).parent } := by
  by_cases same : other = slot
  · subst same
    simp [setParent]
  · simp [setParent, same, setInode_other]

theorem setParent_same {parent : Option Slot} (same : (fs.inodes slot).parent = parent) :
    setParent fs slot parent = fs := by
  subst same
  simp only [setParent, FileSystem.setInode, Function.update_eq_self]

def entryParent (loaded : FileSystem) (d : DiskInode) : Option Slot :=
  if 0 < d.parentInode then loaded.findInodeByNum d.parentInode else none

theorem Linking.start (loaded : FileSystem)
    (parents : ∀ slot, (loaded.inodes slot).valid = true → (loaded.inodes slot).parent = none)
    (empty : ∀ dir, IsDir loaded dir → (loaded.inodes dir).data = .null) :
    Linking loaded loaded [] where
  header := fun _ => ⟨rfl, rfl, rfl, rfl, rfl⟩
  files := fun _ _ => rfl
  rootDir := rfl
  currentDir := rfl
  descriptors := rfl
  nextInode := rfl
  initialized := rfl
  parents := nofun
  unlinked := fun slot valid _ => parents slot valid
  lists := fun dir isDir => ⟨none, by rw [empty dir isDir]; rfl, rfl⟩
  distinct := nodup_nil

section

variable {loaded fs : FileSystem} {links : List Link} (linking : Linking loaded fs links)
  {slot : Slot} (new : slot ∉ links.map Prod.fst)

include linking new

theorem Linking.extend (parent : Option Slot)
    (same : ∀ other, ∃ next data, after.inodes other = { fs.inodes other with
      parent := if other = slot then parent else (fs.inodes other).parent
      next := next
      data := data }) (files : ∀ other, (loaded.inodes other).type ≠ typeDir →
      (after.inodes other).data = (fs.inodes other).data)
    (rest : after = { fs with inodes := after.inodes }) (lists : ∀ dir, IsDir loaded dir →
      ChildList after dir (linkedTo ((slot, parent) :: links) dir)) :
    Linking loaded after ((slot, parent) :: links) where
  header := by
    intro other
    obtain ⟨next, data, fields⟩ := same other
    rw [fields]
    exact linking.header other
  files := fun other notDir => (files other notDir).trans (linking.files other notDir)
  rootDir := by
    rw [rest]
    exact linking.rootDir
  currentDir := by
    rw [rest]
    exact linking.currentDir
  descriptors := by
    rw [rest]
    exact linking.descriptors
  nextInode := by
    rw [rest]
    exact linking.nextInode
  initialized := by
    rw [rest]
    exact linking.initialized
  parents := by
    intro link member
    obtain ⟨next, data, fields⟩ := same link.1
    rw [fields]
    obtain rfl | earlier := mem_cons.mp member
    · simp
    · have different : link.1 ≠ slot := by
        rintro rfl
        exact new (mem_map_of_mem earlier)
      simp [different, linking.parents link earlier]
  unlinked := by
    intro other valid outside
    rw [map_cons, mem_cons, not_or] at outside
    obtain ⟨next, data, fields⟩ := same other
    rw [fields]
    simp [outside.1, linking.unlinked other valid outside.2]
  lists := lists
  distinct := nodup_cons.mpr ⟨new, linking.distinct⟩

theorem Linking.record (parent : Option Slot)
    (noDir : ∀ dir, parent = some dir → ¬IsDir loaded dir) :
    Linking loaded (setParent fs slot parent) ((slot, parent) :: links) := by
  refine linking.extend new parent (fun other => ⟨_, _, setParent_inodes fs slot other parent⟩)
    (fun other _ => by rw [setParent_inodes]) rfl ?_
  intro dir isDir
  have elsewhere : parent ≠ some dir := fun here => noDir dir here isDir
  rw [linkedTo_cons, if_neg elsewhere]
  exact (linking.lists dir isDir).congr (by rw [setParent_inodes])
    (fun _ _ => by rw [setParent_inodes])

theorem Linking.push (dir : Slot) (isDir : IsDir loaded dir) :
    ∃ after, linkChild (setParent fs slot (some dir)) dir slot = .ok after ∧
      Linking loaded after ((slot, some dir) :: links) := by
  obtain ⟨first, head, -⟩ := linking.lists dir isDir
  have fields : ∀ other, (((setParent fs slot (some dir)).setNext slot first).setData dir
      (.child slot)).inodes other = { fs.inodes other with
        parent := if other = slot then some dir else (fs.inodes other).parent
        next := if other = slot then first else (fs.inodes other).next
        data := if other = dir then .child slot else (fs.inodes other).data } := by
    intro other
    simp only [setData_inodes, setNext_inodes, setParent_inodes]
  refine ⟨((setParent fs slot (some dir)).setNext slot first).setData dir (.child slot), ?_, ?_⟩
  · simp only [linkChild, setParent_inodes, head]
  · refine linking.extend new (some dir) (fun other => ⟨_, _, fields other⟩) ?_ rfl ?_
    · intro other notDir
      have different : other ≠ dir := by
        rintro rfl
        exact notDir isDir.2
      simp [fields, different]
    · intro above aboveDir
      have links' : ∀ child ∈ linkedTo links above, ((((setParent fs slot (some dir)).setNext
          slot first).setData dir (.child slot)).inodes child).next = (fs.inodes child).next := by
        intro child member
        have different : child ≠ slot := by
          rintro rfl
          exact new (mem_map_of_mem ((mem_linkedTo links above child).mp member))
        simp [fields, different]
      rw [linkedTo_cons]
      by_cases here : dir = above
      · subst here
        rw [if_pos rfl]
        exact (linking.lists dir isDir).push (by simp [fields, head]) (by simp [fields]) links'
      · rw [if_neg (fun same => here (Option.some.inj same))]
        exact (linking.lists above aboveDir).congr (by simp [fields, Ne.symm here]) links'

theorem linkInode_step (valid : loadable (load table index) = true)
    (found : loaded.findInodeByNum (load table index).inodeNum = some slot) :
    ∃ after, linkInode table fs index = .ok after ∧ Linking loaded after
      ((slot, entryParent loaded (load table index)) :: links) := by
  have nonzero : (load table index).valid ≠ 0 := by simpa [loadable] using valid
  have lookup := findInodeByNum_congr linking.header
  have parentNone := linking.unlinked slot (loaded.findInodeByNum_spec found).1 new
  have recorded : (if 0 < (load table index).parentInode then
      setParent fs slot (loaded.findInodeByNum (load table index).parentInode) else fs) =
      setParent fs slot (entryParent loaded (load table index)) := by
    unfold entryParent
    split
    · rfl
    · rw [setParent_same parentNone]
  have slotParent : ∀ parent, ((setParent fs slot parent).inodes slot).parent = parent := by
    intro parent
    simp [setParent_inodes]
  simp only [linkInode, if_neg nonzero, lookup, found, recorded, slotParent]
  cases parent : entryParent loaded (load table index) with
  | none => exact ⟨_, rfl, linking.record new none nofun⟩
  | some dir =>
    have kind : ((setParent fs slot (some dir)).inodes dir).type = (loaded.inodes dir).type := by
      rw [setParent_inodes]
      exact (linking.header dir).2.1
    have dirValid : (loaded.inodes dir).valid = true := by
      unfold entryParent at parent
      split at parent
      · exact (loaded.findInodeByNum_spec parent).1
      · contradiction
    simp only [kind]
    split
    · next isDir => exact linking.push new dir ⟨dirValid, isDir⟩
    · next notDir =>
      refine ⟨_, rfl, linking.record new (some dir) ?_⟩
      rintro other ⟨⟩ isDir
      exact notDir isDir.2

end

theorem linkInode_skip (fs : FileSystem) (invalid : loadable (load table index) = false) :
    linkInode table fs index = .ok fs := by
  have zero : (load table index).valid = 0 := by simpa [loadable] using invalid
  simp only [linkInode, if_pos zero]

theorem linkInodes_linking {loaded : FileSystem} {links : List Link} {slots : List Slot}
    (linking : Linking loaded fs links) (found : List.Forall₂ (fun index slot =>
      loaded.findInodeByNum (load table index).inodeNum = some slot)
      (validIndices table indices) slots) (distinct : (slots ++ links.map Prod.fst).Nodup) :
    ∃ after, linkInodes table indices fs = .ok after ∧ Linking loaded after
      ((List.zipWith (fun index slot => (slot, entryParent loaded (load table index)))
        (validIndices table indices) slots).reverse ++ links) := by
  induction indices generalizing fs links slots with
  | nil =>
    cases found
    exact ⟨fs, rfl, by simpa [validIndices] using linking⟩
  | cons index indices ih =>
    cases valid : loadable (load table index) with
    | false =>
      have same : validIndices table (index :: indices) = validIndices table indices := by
        simp [validIndices, valid]
      rw [same] at found ⊢
      simp only [linkInodes, linkInode_skip fs valid]
      exact ih linking found distinct
    | true =>
      have same : validIndices table (index :: indices) = index :: validIndices table indices := by
        simp [validIndices, valid]
      rw [same] at found ⊢
      cases found with
      | @cons _ slot _ slots one rest =>
        rw [cons_append, nodup_cons, mem_append, not_or] at distinct
        obtain ⟨next, linked, linking'⟩ :=
          linkInode_step linking distinct.1.2 valid one
        have apart : (slots ++ ((slot, entryParent loaded (load table index)) ::
            links).map Prod.fst).Nodup := by
          rw [map_cons]
          exact List.nodup_middle.mpr (nodup_cons.mpr
            ⟨by rw [mem_append, not_or]; exact distinct.1, distinct.2⟩)
        obtain ⟨after, returned, final⟩ := ih linking' rest apart
        refine ⟨after, by simp only [linkInodes, linked, returned], ?_⟩
        simpa using final

theorem findInodeByNum_unique (valid : (fs.inodes slot).valid = true)
    (unique : ∀ other, (fs.inodes other).valid = true →
      (fs.inodes other).inodeNum = (fs.inodes slot).inodeNum → other = slot) :
    fs.findInodeByNum (fs.inodes slot).inodeNum = some slot := by
  cases found : fs.findInodeByNum (fs.inodes slot).inodeNum with
  | none => exact absurd rfl (fs.findInodeByNum_none found slot valid)
  | some other =>
    obtain ⟨otherValid, same⟩ := fs.findInodeByNum_spec found
    rw [unique other otherValid same]

def DistinctNumbers (entries : List DiskInode) : Prop :=
  (entries.map DiskInode.inodeNum).Nodup

theorem loadData_other (io : LoadIo) (disk : Disk) (index : Nat) {d : DiskInode}
    (notFile : d.type ≠ typeFile) : loadData io disk index d = .ok (.null, true) := by
  rw [loadData, if_neg notFile]

section

variable {start loaded : FileSystem} {items : List Item} {io : LoadIo} {disk : Disk}
  {table : Nat → UInt8} (empty : ∀ slot, (start.inodes slot).valid = false)
  (built : Loaded start loaded items)

include empty built

theorem Loaded.valid_inode (valid : (loaded.inodes slot).valid = true) :
    ∃ inside : slot.val < items.length,
      loaded.inodes slot = loadedInode items[slot.val].1 items[slot.val].2 := by
  by_cases inside : slot.val < items.length
  · exact ⟨inside, built.filled slot inside⟩
  · rw [built.rest slot (Nat.le_of_not_lt inside), empty slot] at valid
    contradiction

theorem Loaded.valid_iff (slot : Slot) :
    (loaded.inodes slot).valid = true ↔ slot.val < items.length := by
  constructor
  · intro valid
    exact (built.valid_inode empty valid).1
  · intro inside
    rw [built.filled slot inside]
    rfl

theorem Loaded.empty_dir (pairs : List.Forall₂ (LoadedItem io disk table) indices items)
    {dir : Slot} (isDir : IsDir loaded dir) : (loaded.inodes dir).data = .null := by
  obtain ⟨inside, filled⟩ := built.valid_inode empty isDir.1
  obtain ⟨index, -, same, data⟩ : ∃ index ∈ indices, LoadedItem io disk table index items[dir.val] := by
    obtain ⟨length, each⟩ := forall₂_iff_get.mp pairs
    exact ⟨_, getElem_mem (by omega), each dir.val (by omega) inside⟩
  have kind : items[dir.val].1.type = typeDir := by
    have type := isDir.2
    rw [filled] at type
    exact type
  rw [loadData_other io disk index (by rw [kind]; exact typeFile_ne_typeDir.symm)] at data
  have nothing : items[dir.val].2 = .null := (congrArg Prod.fst (Except.ok.inj data)).symm
  rw [filled]
  exact nothing

theorem Loaded.lookup (distinct : DistinctNumbers (items.map Prod.fst)) (num : UInt32)
    (slot : Slot) : loaded.findInodeByNum num = some slot ↔
      ∃ d, (items.map Prod.fst)[slot.val]? = some d ∧ d.inodeNum = num := by
  constructor
  · intro found
    obtain ⟨valid, number⟩ := loaded.findInodeByNum_spec found
    obtain ⟨inside, filled⟩ := built.valid_inode empty valid
    rw [filled] at number
    exact ⟨items[slot.val].1, by simp [inside], number⟩
  · rintro ⟨d, here, rfl⟩
    obtain ⟨inside, rfl⟩ := List.getElem?_eq_some_iff.mp here
    rw [length_map] at inside
    have number : (items.map Prod.fst)[slot.val].inodeNum = (loaded.inodes slot).inodeNum := by
      rw [built.filled slot inside, getElem_map]
      rfl
    rw [number]
    refine findInodeByNum_unique ((built.valid_iff empty slot).mpr inside) ?_
    intro other valid same
    obtain ⟨within, filled⟩ := built.valid_inode empty valid
    rw [filled, built.filled slot inside] at same
    have one : other.val < ((items.map Prod.fst).map DiskInode.inodeNum).length := by
      simpa using within
    have two : slot.val < ((items.map Prod.fst).map DiskInode.inodeNum).length := by
      simpa using inside
    have numbers : ((items.map Prod.fst).map DiskInode.inodeNum)[other.val] =
        ((items.map Prod.fst).map DiskInode.inodeNum)[slot.val] := by
      simpa [loadedInode] using same
    exact Fin.ext ((List.Nodup.getElem_inj_iff distinct).mp numbers)

-- The second pass gives each slot the parent that its own entry names.
theorem Loaded.links (few : items.length ≤ 320)
    (pairs : List.Forall₂ (LoadedItem io disk table) (validIndices table indices) items)
    (distinct : DistinctNumbers (items.map Prod.fst)) :
    ∃ after links, linkInodes table indices loaded = .ok after ∧ Linking loaded after links ∧
      ∀ link, link ∈ links ↔
        ∃ d, (items.map Prod.fst)[link.1.val]? = some d ∧ link.2 = entryParent loaded d := by
  have entries := LoadedItem.entries pairs
  have length := pairs.length_eq
  have slotAt : ∀ j < items.length, (Fin.ofNat 320 j).val = j :=
    fun j inside => Nat.mod_eq_of_lt (by omega)
  have begin : Linking loaded loaded [] := by
    apply Linking.start
    · intro slot valid
      obtain ⟨inside, filled⟩ := built.valid_inode empty valid
      rw [filled]
      rfl
    · exact fun dir isDir => built.empty_dir empty pairs isDir
  have found : List.Forall₂ (fun index slot =>
      loaded.findInodeByNum (load table index).inodeNum = some slot)
      (validIndices table indices) ((List.range items.length).map (Fin.ofNat 320)) := by
    rw [forall₂_iff_get]
    refine ⟨by simp [length], ?_⟩
    intro j inside _
    simp only [get_eq_getElem, getElem_map, getElem_range]
    rw [built.lookup empty distinct, slotAt j (by omega), entries]
    exact ⟨load table (validIndices table indices)[j], by simp [inside], rfl⟩
  have apart : ((List.range items.length).map (Fin.ofNat 320)).Nodup := by
    refine List.nodup_range.map_on ?_
    intro i first j second same
    have values := congrArg Fin.val same
    rwa [slotAt i (mem_range.mp first), slotAt j (mem_range.mp second)] at values
  obtain ⟨linked, second, linking⟩ :=
    linkInodes_linking begin found (by simpa using apart)
  refine ⟨linked, _, second, linking, ?_⟩
  rintro ⟨slot, parent⟩
  rw [append_nil, mem_reverse, entries]
  constructor
  · intro member
    obtain ⟨j, inside, same⟩ := getElem_of_mem member
    rw [length_zipWith, length_map, length_range, length, Nat.min_self] at inside
    simp only [getElem_zipWith, getElem_map, getElem_range] at same
    cases same
    refine ⟨load table (validIndices table indices)[j], ?_, rfl⟩
    rw [slotAt j inside]
    simp [length, inside]
  · rintro ⟨d, here, same⟩
    obtain ⟨inside, rfl⟩ := List.getElem?_eq_some_iff.mp here
    simp only [length_map, getElem_map] at inside same
    refine List.mem_iff_getElem.mpr ⟨slot.val, by simp [inside, ← length], ?_⟩
    simp only [getElem_zipWith, getElem_map, getElem_range]
    exact Prod.ext (Fin.ext (slotAt slot.val (by omega))) same.symm

end

end ArgoOS.Fs
