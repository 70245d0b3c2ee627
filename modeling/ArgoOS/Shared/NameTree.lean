import Mathlib

set_option autoImplicit false

/-!
# Directories as lists of named entries

Where a path leads depends on the entries of the directories, their names and the
directory above each node. Names may repeat, the first entry counts.
-/

structure NameTree (Node Name : Type) where
  entries : Node → List Node
  name : Node → Name
  above : Node → Option Node

namespace NameTree

open Option Function

variable {Node Name : Type} [DecidableEq Node] [DecidableEq Name]

-- `self` and `up` are the names for a node itself and for the one above it.
def enter (self up : Name) (t : NameTree Node Name) (node : Node) (step : Name) : Option Node :=
  if step = self then some node
  else if step = up then t.above node
  else (t.entries node).find? (fun entry => t.name entry = step)

def lookup (self up : Name) (t : NameTree Node Name) : Option Node → List Name → Option Node
  | node, [] => node
  | node, step :: path => lookup self up t (node.bind fun n => t.enter self up n step) path

-- The new entry is the first one and has no entries of its own.
def insert (t : NameTree Node Name) (dir new : Node) (name : Name) : NameTree Node Name where
  entries := Function.update (Function.update t.entries new []) dir (new :: t.entries dir)
  name := Function.update t.name new name
  above := Function.update t.above new (some dir)

def remove (t : NameTree Node Name) (node : Node) : NameTree Node Name :=
  { t with entries := fun dir => (t.entries dir).erase node }

section

variable {self up : Name} {t : NameTree Node Name} {dir new node : Node} {name step : Name}

omit [DecidableEq Node] in
theorem lookup_none (path : List Name) : t.lookup self up none path = none := by
  induction path with
  | nil => rfl
  | cons step path ih => exact ih

omit [DecidableEq Name] in
theorem insert_entries_dir : (t.insert dir new name).entries dir = new :: t.entries dir :=
  update_self _ _ _

omit [DecidableEq Name] in
theorem insert_entries_new (apart : new ≠ dir) : (t.insert dir new name).entries new = [] :=
  (update_of_ne apart _ _).trans (update_self _ _ _)

omit [DecidableEq Name] in
theorem insert_entries_other (old : node ≠ new) (elsewhere : node ≠ dir) :
    (t.insert dir new name).entries node = t.entries node :=
  (update_of_ne elsewhere _ _).trans (update_of_ne old _ _)

omit [DecidableEq Name] in
theorem insert_name_new : (t.insert dir new name).name new = name :=
  update_self _ _ _

omit [DecidableEq Name] in
theorem insert_name_old (old : node ≠ new) : (t.insert dir new name).name node = t.name node :=
  update_of_ne old _ _

omit [DecidableEq Name] in
theorem insert_above_new : (t.insert dir new name).above new = some dir :=
  update_self _ _ _

omit [DecidableEq Name] in
theorem insert_above_old (old : node ≠ new) : (t.insert dir new name).above node = t.above node :=
  update_of_ne old _ _

variable (listed : ∀ node entry, entry ∈ t.entries node → entry ≠ new ∧ t.above entry = some node)

include listed

theorem enter_insert (old : node ≠ new) :
    (t.insert dir new name).enter self up node step = t.enter self up node step ∨
    (t.insert dir new name).enter self up node step = some new ∧
      ∀ entry, t.enter self up node step = some entry → t.above entry = some dir := by
  have sameName : ∀ entry ∈ t.entries node,
      decide ((t.insert dir new name).name entry = step) = decide (t.name entry = step) := by
    intro entry member
    rw [insert_name_old (listed node entry member).1]
  unfold enter
  by_cases isSelf : step = self
  · exact .inl (by rw [if_pos isSelf, if_pos isSelf])
  · by_cases isUp : step = up
    · exact .inl (by rw [if_neg isSelf, if_neg isSelf, if_pos isUp, if_pos isUp, insert_above_old old])
    · rw [if_neg isSelf, if_neg isSelf, if_neg isUp, if_neg isUp]
      by_cases here : node = dir
      · subst here
        rw [insert_entries_dir, List.find?_cons, List.find?_congr sameName]
        split
        · refine .inr ⟨rfl, fun entry found => ?_⟩
          exact (listed node entry (List.mem_of_find?_eq_some found)).2
        · exact .inl rfl
      · rw [insert_entries_other old here, List.find?_congr sameName]
        exact .inl rfl

section

variable {later : Node} (apart : new ≠ dir) (below : ∀ n, t.above n ≠ some new)
    (together : node = later ∧ node ≠ new ∨ later = new ∧ t.above node = some dir)

include apart below together

-- What can be entered together: the same node, or the new entry in the place of another
-- entry of its directory.
theorem enter_together {next : Node} (entered : t.enter self up node step = some next) :
    (t.insert dir new name).enter self up later step = none ∨ ∃ after,
      (t.insert dir new name).enter self up later step = some after ∧
      (next = after ∧ next ≠ new ∨ after = new ∧ t.above next = some dir) := by
  obtain ⟨rfl, old⟩ | ⟨rfl, sibling⟩ := together
  · obtain same | ⟨isNew, siblings⟩ := enter_insert listed old
    · refine .inr ⟨next, same.trans entered, .inl ⟨rfl, ?_⟩⟩
      rintro rfl
      unfold enter at entered
      split at entered
      · exact old (some.inj entered)
      · split at entered
        · exact below node entered
        · exact (listed node next (List.mem_of_find?_eq_some entered)).1 rfl
    · exact .inr ⟨new, isNew, .inr ⟨rfl, siblings next entered⟩⟩
  · unfold enter at entered ⊢
    by_cases isSelf : step = self
    · rw [if_pos isSelf] at entered ⊢
      cases entered
      exact .inr ⟨later, rfl, .inr ⟨rfl, sibling⟩⟩
    · rw [if_neg isSelf] at entered ⊢
      by_cases isUp : step = up
      · rw [if_pos isUp] at entered ⊢
        have atDir : next = dir := some.inj (entered.symm.trans sibling)
        exact .inr ⟨dir, insert_above_new, .inl ⟨atDir, atDir ▸ apart.symm⟩⟩
      · rw [if_neg isUp, insert_entries_new apart]
        exact .inl rfl

/-- A path that led to `found` leads there, to the new entry, or nowhere. -/
theorem lookup_insert {found other : Node} {path : List Name}
    (led : t.lookup self up (some node) path = some found)
    (leads : (t.insert dir new name).lookup self up (some later) path = some other) :
    other = found ∨ other = new := by
  induction path generalizing node later with
  | nil =>
    obtain ⟨rfl, -⟩ | ⟨rfl, -⟩ := together
    · exact .inl (some.inj (leads.symm.trans led))
    · exact .inr (some.inj leads).symm
  | cons step path ih =>
    rw [lookup, bind_some] at led leads
    cases entered : t.enter self up node step with
    | none =>
      rw [entered, lookup_none] at led
      contradiction
    | some next =>
      rw [entered] at led
      obtain missing | ⟨after, entered', together⟩ :=
        enter_together listed apart below together entered
      · rw [missing, lookup_none] at leads
        contradiction
      · rw [entered'] at leads
        exact ih together led leads

end

end

end NameTree
