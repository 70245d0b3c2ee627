import Mathlib

set_option autoImplicit false

/-!
# Results of partial computations

What a computation that may have no result guarantees: every result it has meets a
postcondition, and it has one where it is safe.
-/

namespace Partial

variable {α β : Type} {safe : Prop}

structure Yields (safe : Prop) (c : Option α) (post : α → Prop) : Prop where
  post : ∀ r, c = some r → post r
  returns : safe → ∃ r, c = some r

theorem Yields.pure {post : α → Prop} {r : α} (meets : post r) : Yields safe (some r) post := by
  refine ⟨?_, fun _ => ⟨r, rfl⟩⟩
  rintro _ ⟨⟩
  exact meets

theorem Yields.bind {c : Option α} {f : α → Option β} {middle : α → Prop} {post : β → Prop}
    (first : Yields safe c middle) (next : ∀ r, middle r → Yields safe (f r) post) :
    Yields safe (c >>= f) post := by
  constructor
  · intro r returned
    obtain ⟨between, began, ended⟩ := Option.bind_eq_some_iff.mp returned
    exact (next between (first.post between began)).post r ended
  · intro isSafe
    obtain ⟨between, began⟩ := first.returns isSafe
    obtain ⟨r, ended⟩ := (next between (first.post between began)).returns isSafe
    exact ⟨r, Option.bind_eq_some_iff.mpr ⟨between, began, ended⟩⟩

theorem Yields.mono {c : Option α} {post post' : α → Prop} (yields : Yields safe c post)
    (weaker : ∀ r, post r → post' r) : Yields safe c post' :=
  ⟨fun r returned => weaker r (yields.post r returned), yields.returns⟩

theorem Yields.weaken {safe' : Prop} {c : Option α} {post : α → Prop}
    (yields : Yields safe c post) (stronger : safe' → safe) : Yields safe' c post :=
  ⟨yields.post, fun isSafe => yields.returns (stronger isSafe)⟩

end Partial
