import ArgoOS.Shared.Fields
import ArgoOS.Fs.Paths

set_option autoImplicit false

/-! # Paths as texts -/

namespace ArgoOS.Fs

open Fields Option List Function Bytes

def children (fs : FileSystem) (dir : Slot) : List Slot :=
  match (fs.inodes dir).data.firstChild with
  | .ok first => Linked.nodes (fun slot => (fs.inodes slot).next) 320 first
  | .error _ => []

def enter (fs : FileSystem) (node : Slot) (name : List UInt8) : Option Slot :=
  if name = dot then some node
  else if name = dotDot then (fs.inodes node).parent.or fs.rootDir
  else if (fs.inodes node).type = typeDir then
    (children fs node).find? fun slot => (fs.inodes slot).name.bytes == name
  else none

-- A name that is not found ends the path, whatever follows.
def follow (fs : FileSystem) (start : Option Slot) (names : List (List UInt8)) : Option Slot :=
  names.foldl (fun node name => node.bind fun slot => enter fs slot name) start

def resolved (fs : FileSystem) (path : CString) : Option Slot :=
  follow fs (pathStart fs path) (fields slash path.bytes)

-- The loop of `fs_resolve_path` fills its buffer before it looks for the next slash.
theorem components_eq (path component : List UInt8) (clean : slash ∉ component)
    (short : ∀ name ∈ fields slash (component ++ path), name.length ≤ 255) :
    components path component = fields slash (component ++ path) := by
  induction path generalizing component with
  | nil =>
    cases component with
    | nil => simp [components]
    | cons byte component => simp [components, fields_name _ clean]
  | cons c path ih =>
    simp only [components]
    by_cases separates : c = slash
    · subst separates
      rw [fields_append] at short
      have rest := ih [] (by simp) fun name member => short name (mem_append_right _ member)
      by_cases empty : component = []
      · simp [empty, rest]
      · simp [empty, rest, fields_append, fields_name empty clean]
    · rw [if_neg separates]
      have whole : component ++ c :: path = component ++ [c] ++ path := by simp
      have clean' : slash ∉ component ++ [c] := by simp [clean, Ne.symm separates]
      rw [whole] at short ⊢
      by_cases room : component.length < 255
      · rw [if_pos room]
        exact ih _ clean' short
      · obtain ⟨field, member, longer⟩ := fields_started (by simp) clean' path
        have fits := short field member
        rw [length_append, length_singleton] at longer
        omega

theorem follow_none (fs : FileSystem) (names : List (List UInt8)) :
    follow fs none names = none := by
  induction names with
  | nil => rfl
  | cons name names ih => exact ih

-- The current directory may be one that was removed: `fs_remove` takes only an empty one, and
-- leaves its links as they are.
inductive Stands (fs : FileSystem) : Slot → Prop where
  | kept (slot : Slot) (valid : (fs.inodes slot).valid = true) : Stands fs slot
  | removed (slot : Slot)
      (empty : (fs.inodes slot).type = typeDir → (fs.inodes slot).data.firstChild = .ok none)
      (above : ∀ dir, (fs.inodes slot).parent = some dir → Stands fs dir) : Stands fs slot

variable {dir node slot : Slot} {names : List (List UInt8)}

variable {fs : FileSystem}

section

variable (tree : TreeShaped fs)

include tree

theorem TreeShaped.children_list (isDir : IsDir fs dir) :
    ChildList fs dir (children fs dir) ∧ ∀ slot, slot ∈ children fs dir ↔
      (fs.inodes slot).valid = true ∧ (fs.inodes slot).parent = some dir := by
  obtain ⟨list, isList, members⟩ := tree.listed dir isDir
  have short := isList.length_le
  have same : children fs dir = list := by
    obtain ⟨first, head, chain⟩ := isList
    simp only [children, head]
    exact Linked.nodes_chain chain short
  rw [same]
  exact ⟨isList, members⟩

theorem TreeShaped.find_children (stands : Stands fs node) (name : List UInt8) :
    fsFindInodeInDir fs (some node) name =
      .ok (if (fs.inodes node).type = typeDir then
        (children fs node).find? fun slot => (fs.inodes slot).name.bytes == name
      else none) := by
  by_cases isDir : (fs.inodes node).type = typeDir
  · rw [if_pos isDir]
    cases stands with
    | kept _ valid => exact (tree.children_list ⟨valid, isDir⟩).1.find isDir name
    | removed _ empty _ =>
      simp [fsFindInodeInDir, isDir, children, empty isDir, Linked.search, Linked.nodes]
  · simp [fsFindInodeInDir, isDir]

theorem TreeShaped.enter_stands {next : Slot} (stands : Stands fs node) {name : List UInt8}
    (entered : enter fs node name = some next) : Stands fs next := by
  obtain ⟨top, rootDir, topIsDir, -⟩ := tree.root
  unfold enter at entered
  split at entered
  · cases entered
    exact stands
  · split at entered
    · cases above : (fs.inodes node).parent with
      | none =>
        rw [above, none_or, rootDir] at entered
        cases entered
        exact .kept next topIsDir.1
      | some dir =>
        rw [above, some_or] at entered
        cases entered
        cases stands with
        | kept _ valid => exact .kept next (tree.parent_dir valid above).1
        | removed _ _ parents => exact parents next above
    · split at entered
      · next isDir =>
        have member := List.mem_of_find?_eq_some entered
        cases stands with
        | kept _ valid =>
          have members := (tree.children_list ⟨valid, isDir⟩).2
          exact .kept next ((members next).mp member).1
        | removed _ empty _ => simp [children, empty isDir, Linked.nodes] at member
      · contradiction

theorem TreeShaped.walk_enter (stands : Stands fs node) (name : List UInt8)
    (names : List (List UInt8)) : walk fs (some node) (name :: names) =
      match enter fs node name with
      | none => .ok none
      | some next => walk fs (some next) names := by
  rw [walk, enter]
  by_cases isDot : name = dot
  · simp [isDot]
  · by_cases isDotDot : name = dotDot
    · obtain ⟨top, rootDir, -, -⟩ := tree.root
      simp only [if_neg isDot, if_pos isDotDot, parentOrRoot, rootDir]
      cases (fs.inodes node).parent <;> rfl
    · simp only [if_neg isDot, if_neg isDotDot, tree.find_children stands name]
      generalize (if (fs.inodes node).type = typeDir then
        (children fs node).find? fun slot => (fs.inodes slot).name.bytes == name else none) = found
      cases found <;> rfl

theorem TreeShaped.walk_follow (node : Slot) (stands : Stands fs node) (names : List (List UInt8)) :
    walk fs (some node) names = .ok (follow fs (some node) names) := by
  induction names generalizing node with
  | nil => rfl
  | cons name names ih =>
    rw [tree.walk_enter stands, follow, foldl_cons, bind_some, ← follow]
    cases entered : enter fs node name with
    | none => rw [follow_none]
    | some next => exact ih next (tree.enter_stands stands entered)

theorem TreeShaped.resolve_follow (current : ∀ dir, fs.currentDir = some dir → Stands fs dir)
    (path : CString) (short : ∀ name ∈ fields slash path.bytes, name.length ≤ 255) :
    fsResolvePath fs (some path) = .ok (resolved fs path) := by
  have parsed : components path.bytes [] = fields slash path.bytes :=
    components_eq path.bytes [] (by simp) short
  obtain ⟨top, rootDir, isDir, -⟩ := tree.root
  have start : ∃ node, pathStart fs path = some node ∧ Stands fs node := by
    unfold pathStart FileSystem.getCurrentDir
    split
    · exact ⟨top, rootDir, .kept top isDir.1⟩
    · cases currentDir : fs.currentDir with
      | none => exact ⟨top, by simp [rootDir], .kept top isDir.1⟩
      | some dir => exact ⟨dir, by simp, current dir currentDir⟩
  obtain ⟨node, started, stands⟩ := start
  rw [resolve_eq_walk, parsed, resolved, started]
  exact tree.walk_follow node stands _

end

theorem resolve_path_fold (fs : FileSystem) (tree : TreeShaped fs)
    (current : ∀ dir, fs.currentDir = some dir → Stands fs dir) (path : CString)
    (short : ∀ name ∈ fields slash path.bytes, name.length ≤ 255) :
    fsResolvePath fs (some path) = .ok (resolved fs path) ∧
    -- repeated and trailing slashes
    (∀ (left right : List UInt8) (other : CString), path.bytes = left ++ slash :: right →
      other.bytes = left ++ slash :: slash :: right →
      fsResolvePath fs (some other) = fsResolvePath fs (some path)) ∧
    (∀ other : CString, path.bytes ≠ [] → other.bytes = path.bytes ++ [slash] →
      fsResolvePath fs (some other) = fsResolvePath fs (some path)) ∧
    -- the two branches
    (∀ other : CString, fs.getCurrentDir = fs.rootDir → other.bytes = slash :: path.bytes →
      fsResolvePath fs (some other) = fsResolvePath fs (some path)) := by
  have same : ∀ other : CString, pathStart fs other = pathStart fs path →
      fields slash other.bytes = fields slash path.bytes →
      fsResolvePath fs (some other) = fsResolvePath fs (some path) := by
    intro other start names
    rw [tree.resolve_follow current path short,
      tree.resolve_follow current other (by rw [names]; exact short), resolved, resolved, start,
      names]
  refine ⟨tree.resolve_follow current path short, ?_, ?_, ?_⟩
  · intro left right other text twice
    refine same other ?_ ?_
    · cases left <;> simp [pathStart, text, twice]
    · rw [text, twice, fields_append, fields_append, fields_cons]
  · intro other nonempty text
    refine same other ?_ ?_
    · rw [pathStart, pathStart, text, List.head?_append_of_ne_nil _ nonempty]
    · rw [text, fields_append, fields_nil, List.append_nil]
  · intro other atRoot text
    refine same other ?_ ?_
    · simp [pathStart, text, atRoot]
    · rw [text, fields_cons]

theorem resolve_path_fold_mkdir : ∃ history fs, Stepper.Run fsStep KeepsCurrent freshFs history fs ∧
    fsResolvePath fs (some ⟨[47, 100, 47, 47, 46, 46, 47, 100], by decide⟩) = .ok (some 1) := by
  obtain ⟨history, fs, run, found⟩ := Stepper.Run.exists_of_actions fsStep KeepsCurrent freshFs
    [.fsMkdir (some ⟨[100], by decide⟩)]
    (fun _ fs => resolved fs ⟨[47, 100, 47, 47, 46, 46, 47, 100], by decide⟩ == some 1)
    (by decide +kernel)
  obtain ⟨tree, dir, currentDir, isDir⟩ := freshFs_keeps run
  have current : ∀ slot, fs.currentDir = some slot → Stands fs slot := by
    intro slot isCurrent
    cases Option.some.inj (currentDir.symm.trans isCurrent)
    exact .kept dir isDir.1
  refine ⟨history, fs, run, ?_⟩
  rw [(resolve_path_fold fs tree current _ (by decide)).1]
  exact congrArg Except.ok (by simpa using found)

def maxPathLength : Nat := 256

-- The loop of `fs_get_current_path`, over `pos` and `temp_path`.
def pathLoop (fs : FileSystem) (node : Option Slot) (pos : Int) (temp : Nat → UInt8) :
    Int × (Nat → UInt8) :=
  match node with
  | none => (pos, temp)
  | some slot =>
    if fs.rootDir = some slot then (pos, temp)
    else
      let name := (fs.inodes slot).name.bytes
      let start := pos - name.length
      if start < 0 then (start, temp)
      else
        let named := Bytes.copy temp start.toNat (fun i => name.getD i 0) name.length
        let pos' := start - 1
        let temp' := if 0 ≤ pos' then Function.update named pos'.toNat slash else named
        pathLoop fs (fs.inodes slot).parent pos' temp'
termination_by (pos + 1).toNat
decreasing_by omega

theorem loadString_noNul (bytes : Nat → UInt8) (offset len : Nat) :
    0 ∉ loadString bytes offset len := by
  intro member
  have kept := mem_takeWhile_imp member
  simp at kept

-- The string that the caller finds in `path`.
def fsGetCurrentPath (fs : FileSystem) : CString :=
  if fs.currentDir = none ∨ fs.currentDir = fs.rootDir then ⟨[slash], by decide⟩
  else
    let (pos, temp) := pathLoop fs fs.currentDir (maxPathLength - 1) (fun _ => 0)
    if pos < 0 then ⟨[slash], by decide⟩
    else ⟨Bytes.loadString temp pos.toNat (maxPathLength - pos.toNat), loadString_noNul _ _ _⟩

inductive Spelled (fs : FileSystem) : Slot → List (List UInt8) → Prop where
  | root (slot : Slot) (isRoot : fs.rootDir = some slot) : Spelled fs slot []
  | child (slot dir : Slot) (names : List (List UInt8)) (notRoot : fs.rootDir ≠ some slot)
      (parent : (fs.inodes slot).parent = some dir) (above : Spelled fs dir names) :
      Spelled fs slot (names ++ [(fs.inodes slot).name.bytes])

structure DirNames (fs : FileSystem) : Prop where
  plain : ∀ dir, IsDir fs dir → fs.rootDir ≠ some dir →
    (fs.inodes dir).name.bytes ≠ [] ∧ slash ∉ (fs.inodes dir).name.bytes ∧
      (fs.inodes dir).name.bytes ≠ dot ∧ (fs.inodes dir).name.bytes ≠ dotDot
  unique : ∀ dir slot, IsDir fs dir → (fs.inodes slot).valid = true →
    (fs.inodes slot).parent = (fs.inodes dir).parent →
    (fs.inodes slot).name.bytes = (fs.inodes dir).name.bytes → slot = dir

def EndsWith (temp : Nat → UInt8) (pos : Nat) (text : List UInt8) : Prop :=
  pos + text.length = maxPathLength - 1 ∧
    Bytes.Agree temp pos (fun i => text.getD i 0) 0 (text.length + 1)

variable {temp : Nat → UInt8} {pos : Nat} {text : List UInt8}

theorem EndsWith.push {name : List UInt8} (ends : EndsWith temp (pos + 1 + name.length) text) :
    EndsWith (update (copy temp (pos + 1) (fun i => name.getD i 0) name.length)
      pos slash) pos (slash :: name ++ text) := by
  obtain ⟨total, agree⟩ := ends
  refine ⟨by simp; omega, ?_⟩
  intro i inside
  rw [length_append, length_cons] at inside
  cases i with
  | zero => simp
  | succ i =>
    rw [update_of_ne (by omega), show pos + (i + 1) = pos + 1 + i by omega]
    by_cases here : i < name.length
    · rw [copy_inside _ _ _ _ _ here]
      simp [here, List.getElem?_append_left]
    · obtain ⟨rest, rfl⟩ := Nat.exists_eq_add_of_le (Nat.le_of_not_lt here)
      rw [copy_outside _ _ _ _ _ (by omega), ← Nat.add_assoc, agree rest (by omega)]
      simp [List.getElem?_append_right]

theorem EndsWith.loadString (ends : EndsWith temp pos text) (noNul : 0 ∉ text) :
    loadString temp pos (maxPathLength - pos) = text := by
  obtain ⟨total, agree⟩ := ends
  have whole : maxPathLength - pos = text.length + 1 := by
    unfold maxPathLength at total ⊢
    omega
  rw [whole, loadString_agree agree, loadString_getD noNul (Nat.lt_succ_self _)]

theorem render_append (names : List (List UInt8)) (name : List UInt8) :
    render slash (names ++ [name]) = render slash names ++ slash :: name := by
  simp [render]

section

theorem TreeShaped.spelled (tree : TreeShaped fs) (valid : (fs.inodes slot).valid = true) :
    ∃ names, Spelled fs slot names := by
  have rooted := tree.rooted slot valid
  induction rooted with
  | root slot isRoot => exact ⟨[], .root slot isRoot⟩
  | child slot dir parent _ ih =>
    by_cases isRoot : fs.rootDir = some slot
    · exact ⟨[], .root slot isRoot⟩
    · obtain ⟨names, above⟩ := ih (tree.parent_dir valid parent).1
      exact ⟨_, .child slot dir names isRoot parent above⟩

theorem pathLoop_name (notRoot : fs.rootDir ≠ some slot) (pos : Nat) (temp : Nat → UInt8) :
    pathLoop fs (some slot) ((pos + 1 + (fs.inodes slot).name.bytes.length : Nat) : Int) temp =
      pathLoop fs (fs.inodes slot).parent (pos : Int)
        (update (copy temp (pos + 1) (fun i => (fs.inodes slot).name.bytes.getD i 0)
          (fs.inodes slot).name.bytes.length) pos slash) := by
  have start : ((pos + 1 + (fs.inodes slot).name.bytes.length : Nat) : Int) -
      (fs.inodes slot).name.bytes.length = ((pos + 1 : Nat) : Int) := by omega
  have next : ((pos + 1 : Nat) : Int) - 1 = (pos : Int) := by omega
  rw [pathLoop]
  simp only [if_neg notRoot, start, next]
  rw [if_neg (by omega), if_pos (by omega), Int.toNat_natCast, Int.toNat_natCast]

theorem pathLoop_spelled (spelled : Spelled fs node names)
    (ends : EndsWith temp (pos + (render slash names).length) text) :
    ∃ temp', pathLoop fs (some node) ((pos + (render slash names).length : Nat) : Int) temp =
      ((pos : Int), temp') ∧ EndsWith temp' pos (render slash names ++ text) := by
  induction spelled generalizing temp text with
  | root slot isRoot =>
    refine ⟨temp, ?_, ends⟩
    rw [pathLoop]
    simp [isRoot, render]
  | child slot dir names notRoot parent _ ih =>
    have length : pos + (render slash (names ++ [(fs.inodes slot).name.bytes])).length =
        pos + (render slash names).length + 1 + (fs.inodes slot).name.bytes.length := by
      rw [render_append, length_append, length_cons]
      omega
    rw [length] at ends ⊢
    obtain ⟨temp', done, written⟩ := ih ends.push
    refine ⟨temp', ?_, ?_⟩
    · rw [pathLoop_name notRoot, parent]
      exact done
    · rw [render_append, append_assoc]
      exact written

theorem Spelled.nil_iff (spelled : Spelled fs node names) :
    names = [] ↔ fs.rootDir = some node := by
  cases spelled with
  | root _ isRoot => simp [isRoot]
  | child _ _ _ notRoot _ _ => simp [notRoot]

variable (tree : TreeShaped fs)

include tree

theorem TreeShaped.spelled_by_dirs (isDir : IsDir fs node) (spelled : Spelled fs node names) :
    ∀ name ∈ names,
    ∃ dir, IsDir fs dir ∧ fs.rootDir ≠ some dir ∧ name = (fs.inodes dir).name.bytes := by
  induction spelled with
  | root _ _ => simp
  | child slot dir names notRoot parent _ ih =>
    intro name member
    rw [mem_append, mem_singleton] at member
    obtain before | rfl := member
    · exact ih (tree.parent_dir isDir.1 parent) name before
    · exact ⟨slot, isDir, notRoot, rfl⟩

theorem TreeShaped.enter_child (named : DirNames fs) (isDir : IsDir fs slot)
    (notRoot : fs.rootDir ≠ some slot) (parent : (fs.inodes slot).parent = some dir) :
    enter fs dir (fs.inodes slot).name.bytes = some slot := by
  obtain ⟨-, -, notDot, notDotDot⟩ := named.plain slot isDir notRoot
  have dirIsDir := tree.parent_dir isDir.1 parent
  have members := (tree.children_list dirIsDir).2
  rw [enter, if_neg notDot, if_neg notDotDot, if_pos dirIsDir.2]
  cases search : (children fs dir).find? fun other =>
      (fs.inodes other).name.bytes == (fs.inodes slot).name.bytes with
  | none =>
    have missing := List.find?_eq_none.mp search slot ((members slot).mpr ⟨isDir.1, parent⟩)
    simp at missing
  | some other =>
    obtain ⟨valid, otherParent⟩ := (members other).mp (List.mem_of_find?_eq_some search)
    have sameName := List.find?_some search
    rw [beq_iff_eq] at sameName
    rw [named.unique slot other isDir valid (otherParent.trans parent.symm) sameName]

theorem TreeShaped.follow_spelled (named : DirNames fs) (isDir : IsDir fs node)
    (spelled : Spelled fs node names) : follow fs fs.rootDir names = some node := by
  induction spelled with
  | root _ isRoot => exact isRoot
  | child slot dir names notRoot parent _ ih =>
    have above := ih (tree.parent_dir isDir.1 parent)
    rw [follow] at above
    rw [follow, foldl_append, above]
    exact tree.enter_child named isDir notRoot parent

theorem TreeShaped.getCurrentPath_text (current : fs.getCurrentDir = some dir)
    (isDir : IsDir fs dir) (spelled : Spelled fs dir names)
    (short : (render slash names).length ≤ 255) :
    (fsGetCurrentPath fs).bytes = if names = [] then [slash] else render slash names := by
  have isCurrent : fs.currentDir = none ∨ fs.currentDir = some dir := by
    unfold FileSystem.getCurrentDir at current
    cases currentDir : fs.currentDir with
    | none => exact .inl rfl
    | some other =>
      rw [currentDir, some_or] at current
      exact .inr current
  by_cases empty : names = []
  · have rootDir := spelled.nil_iff.mp empty
    rw [fsGetCurrentPath, if_pos (rootDir ▸ isCurrent), if_pos empty]
  · have notRoot : fs.rootDir ≠ some dir := fun isRoot => empty (spelled.nil_iff.mpr isRoot)
    have currentDir : fs.currentDir = some dir := by
      refine isCurrent.resolve_left fun missing => notRoot ?_
      rwa [FileSystem.getCurrentDir, missing, none_or] at current
    obtain ⟨pos, whole⟩ := Nat.exists_eq_add_of_le' short
    have noNul : 0 ∉ render slash names := by
      intro member
      simp only [render, mem_flatMap, mem_cons] at member
      obtain ⟨name, isName, zero | zero⟩ := member
      · exact absurd zero (by decide)
      · obtain ⟨other, -, -, rfl⟩ := tree.spelled_by_dirs isDir spelled name isName
        exact (fs.inodes other).name.noNul zero
    have blank : EndsWith (fun _ => 0) (pos + (render slash names).length) [] := by
      refine ⟨by rw [← whole]; rfl, ?_⟩
      intro i _
      simp
    obtain ⟨temp, looped, ends⟩ := pathLoop_spelled spelled blank
    rw [append_nil] at ends
    rw [← whole] at looped
    have started : ((maxPathLength : Int) - 1) = ((255 : Nat) : Int) := rfl
    rw [fsGetCurrentPath, if_neg (by simp [currentDir, Ne.symm notRoot]), currentDir, started,
      looped, if_neg empty]
    simp only [if_neg (Int.not_lt.mpr (Int.natCast_nonneg pos)), Int.toNat_natCast]
    exact ends.loadString noNul

end

theorem current_path_round_trip (fs : FileSystem) (tree : TreeShaped fs) (named : DirNames fs)
    (dir : Slot) (current : fs.getCurrentDir = some dir) (isDir : IsDir fs dir)
    (short : ∀ names, Spelled fs dir names → (render slash names).length ≤ 255) :
    (fsGetCurrentPath fs).bytes.length + 1 ≤ 256 ∧
    fsResolvePath fs (some (fsGetCurrentPath fs)) = .ok (some dir) ∧
    ((fsGetCurrentPath fs).bytes = [slash] ↔ fs.rootDir = some dir) := by
  obtain ⟨names, spelled⟩ := tree.spelled isDir.1
  have fits := short names spelled
  have text := tree.getCurrentPath_text current isDir spelled fits
  have clean : ∀ name ∈ names, name ≠ [] ∧ slash ∉ name ∧ name.length ≤ 255 := by
    intro name member
    obtain ⟨other, otherIsDir, notRoot, rfl⟩ := tree.spelled_by_dirs isDir spelled name member
    obtain ⟨nonempty, noSlash, -, -⟩ := named.plain other otherIsDir notRoot
    exact ⟨nonempty, noSlash, (fs.inodes other).name.short⟩
  have spells : fields slash (fsGetCurrentPath fs).bytes = names := by
    rw [text]
    split
    · next empty => simp [empty]
    · exact fields_render fun name member => ⟨(clean name member).1, (clean name member).2.1⟩
  have absolute : pathStart fs (fsGetCurrentPath fs) = fs.rootDir := by
    rw [pathStart, text]
    cases names <;> simp [render]
  have stands : ∀ slot, fs.currentDir = some slot → Stands fs slot := by
    intro slot currentDir
    rw [FileSystem.getCurrentDir, currentDir, Option.some_or] at current
    cases current
    exact .kept dir isDir.1
  refine ⟨?_, ?_, ?_⟩
  · rw [text]
    split
    · decide
    · omega
  · have parsed := tree.resolve_follow stands (fsGetCurrentPath fs) (by
      rw [spells]
      exact fun name member => (clean name member).2.2)
    rw [parsed, resolved, absolute, spells, tree.follow_spelled named isDir spelled]
  · rw [← spelled.nil_iff, text]
    cases names with
    | nil => simp
    | cons name names =>
      have nonempty := (clean name (by simp)).1
      simp [render, nonempty]

theorem current_path_round_trip_cd : ∃ history fs,
    Stepper.Run fsStep KeepsCurrent freshFs history fs ∧ fs.getCurrentDir = some 1 ∧
    fsResolvePath fs (some (fsGetCurrentPath fs)) = .ok (some 1) := by
  obtain ⟨history, fs, run, found⟩ := Stepper.Run.exists_of_actions fsStep KeepsCurrent freshFs
    [.fsMkdir (some ⟨[100], by decide⟩), .setCurrentDir (some ⟨[100], by decide⟩)]
    (fun _ fs => decide (fs.currentDir = some 1 ∧ fs.rootDir = some 0 ∧
      (∀ slot, (fs.inodes slot).valid = true → slot = 0 ∨ slot = 1) ∧
      (fs.inodes 1).parent = some 0 ∧ (fs.inodes 1).name.bytes = [100]))
    (by decide +kernel)
  obtain ⟨currentDir, rootDir, few, parent, name⟩ := of_decide_eq_true found
  obtain ⟨tree, dir, currentDir', isDir⟩ := freshFs_keeps run
  cases Option.some.inj (currentDir.symm.trans currentDir')
  obtain ⟨top, rootDir', -, noParent⟩ := tree.root
  cases Option.some.inj (rootDir.symm.trans rootDir')
  have current : fs.getCurrentDir = some 1 := by
    rw [FileSystem.getCurrentDir, currentDir, Option.some_or]
  have only : ∀ slot, (fs.inodes slot).valid = true → fs.rootDir ≠ some slot → slot = 1 := by
    intro slot valid notRoot
    refine (few slot valid).resolve_left ?_
    rintro rfl
    exact notRoot rootDir
  have named : DirNames fs := by
    refine ⟨?_, ?_⟩
    · intro slot slotIsDir notRoot
      rw [only slot slotIsDir.1 notRoot, name]
      decide
    · intro slot other slotIsDir valid sameParent _
      obtain rfl | rfl := few slot slotIsDir.1 <;> obtain rfl | rfl := few other valid <;>
        simp_all
  have short : ∀ names, Spelled fs 1 names → (render slash names).length ≤ 255 := by
    intro names spelled
    cases spelled with
    | root _ _ => simp [render]
    | child _ above names _ isAbove spelledAbove =>
      cases Option.some.inj (parent.symm.trans isAbove)
      rw [spelledAbove.nil_iff.mpr rootDir, name]
      decide
  exact ⟨history, fs, run, current,
    (current_path_round_trip fs tree named 1 current isDir short).2.1⟩

end ArgoOS.Fs
