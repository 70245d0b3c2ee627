import Mathlib

set_option autoImplicit false

/-!
# Texts made of names and separators

The names of a text are its non-empty stretches without a separator. Where a
separator stands, the names of the two sides are simply put together.
-/

namespace Fields

open List

variable {α : Type} [DecidableEq α] {sep : α}

def fields (sep : α) (text : List α) : List (List α) :=
  (text.splitOn sep).filter (· ≠ [])

def render (sep : α) (names : List (List α)) : List α :=
  names.flatMap fun name => sep :: name

theorem fields_append (left right : List α) :
    fields sep (left ++ sep :: right) = fields sep left ++ fields sep right := by
  rw [fields, List.splitOn, splitOnP_append_cons left right (by simp), filter_append]
  rfl

@[simp] theorem fields_nil : fields sep [] = [] := by
  simp [fields]

@[simp] theorem fields_cons (text : List α) : fields sep (sep :: text) = fields sep text := by
  have whole : fields sep ([] ++ sep :: text) = fields sep [] ++ fields sep text :=
    fields_append [] text
  simpa using whole

theorem fields_name {name : List α} (nonempty : name ≠ []) (clean : sep ∉ name) :
    fields sep name = [name] := by
  have single : List.splitOn sep name = [name] := by
    refine splitOnP_eq_singleton fun x member => ?_
    rw [beq_eq_false_iff_ne]
    rintro rfl
    exact clean member
  simp [fields, single, nonempty]

-- A name that is under way is part of one field of the whole text.
theorem fields_started {name : List α} (nonempty : name ≠ []) (clean : sep ∉ name) (rest : List α) :
    ∃ field ∈ fields sep (name ++ rest), name.length ≤ field.length := by
  induction rest generalizing name with
  | nil => exact ⟨name, by simp [fields_name nonempty clean], Nat.le_refl _⟩
  | cons c rest ih =>
    by_cases separates : c = sep
    · subst separates
      exact ⟨name, by simp [fields_append, fields_name nonempty clean], Nat.le_refl _⟩
    · have clean' : sep ∉ name ++ [c] := by simp [clean, Ne.symm separates]
      obtain ⟨field, member, longer⟩ := ih (by simp) clean'
      rw [append_assoc, singleton_append] at member
      rw [length_append] at longer
      exact ⟨field, member, by omega⟩

theorem fields_render {names : List (List α)} (clean : ∀ name ∈ names, name ≠ [] ∧ sep ∉ name) :
    fields sep (render sep names) = names := by
  induction names with
  | nil => simp [render]
  | cons name names ih =>
    have rest := ih fun other member => clean other (by simp [member])
    have first := clean name (by simp)
    cases names with
    | nil => simp [render, fields_name first.1 first.2]
    | cons other names =>
      simp only [render, flatMap_cons, cons_append, fields_cons] at rest ⊢
      rw [fields_append, fields_name first.1 first.2, rest]
      rfl

end Fields
