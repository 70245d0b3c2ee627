import Mathlib

set_option autoImplicit false

/-!
# Intrusive linked lists

A list threaded through the nodes themselves: `next` gives the link of a node and
`none` is the null pointer. `Path` is a stretch of such a list, `Chain` one that
ends in null and `RingPath` one that closes on itself.
-/

namespace Linked

open Option List Function

variable {α : Type}

/-- Following `next` from `start` visits exactly `xs` and then stands at `stop`. -/
def Path (next : α → Option α) : Option α → List α → Option α → Prop
  | start, [], stop => start = stop
  | start, x :: xs, stop => start = some x ∧ Path next (next x) xs stop

def Chain (next : α → Option α) (head : Option α) (xs : List α) : Prop :=
  Path next head xs none

def RingPath (next : α → Option α) (head : α) (xs : List α) : Prop :=
  Path next (some head) xs (some head) ∧ xs ≠ []

variable {next : α → Option α}

@[simp] theorem path_nil (start stop : Option α) : Path next start [] stop ↔ start = stop :=
  Iff.rfl

@[simp] theorem path_cons (start stop : Option α) (x : α) (xs : List α) :
    Path next start (x :: xs) stop ↔ start = some x ∧ Path next (next x) xs stop :=
  Iff.rfl

theorem path_append (start stop : Option α) (xs ys : List α) :
    Path next start (xs ++ ys) stop ↔
      ∃ middle, Path next start xs middle ∧ Path next middle ys stop := by
  induction xs generalizing start with
  | nil => simp
  | cons x xs ih => simp [ih, and_assoc]

theorem path_congr {other : α → Option α} (start stop : Option α) (xs : List α)
    (same : ∀ x ∈ xs, other x = next x) :
    Path other start xs stop ↔ Path next start xs stop := by
  induction xs generalizing start with
  | nil => rfl
  | cons x xs ih =>
    rw [path_cons, path_cons, same x (by simp), ih _ (fun y hy => same y (by simp [hy]))]

theorem path_update [DecidableEq α] (start stop : Option α) {xs : List α} {x : α}
    (link : Option α) (outside : x ∉ xs) :
    Path (update next x link) start xs stop ↔ Path next start xs stop := by
  apply path_congr
  intro y hy
  have different : y ≠ x := by
    rintro rfl
    exact outside hy
  exact update_of_ne different _ _

theorem chain_unique {head : Option α} {xs : List α} (ys : List α)
    (first : Chain next head xs) (second : Chain next head ys) : xs = ys := by
  induction xs generalizing head ys with
  | nil =>
    cases ys with
    | nil => rfl
    | cons y ys =>
      rw [Chain, path_nil] at first
      simp [Chain, first] at second
  | cons x xs ih =>
    obtain ⟨rfl, rest⟩ := first
    cases ys with
    | nil => simp [Chain] at second
    | cons y ys =>
      obtain ⟨same, tail⟩ := second
      cases some.inj same
      rw [ih ys rest tail]

theorem chain_suffix (head : Option α) (xs ys : List α) (x : α)
    (chain : Chain next head (xs ++ x :: ys)) : Chain next (next x) ys := by
  obtain ⟨middle, -, rest⟩ := (path_append _ _ _ _).mp chain
  exact rest.2

theorem chain_nodup (head : Option α) {xs : List α} (chain : Chain next head xs) : xs.Nodup := by
  induction xs generalizing head with
  | nil => exact nodup_nil
  | cons x xs ih =>
    rw [nodup_cons]
    refine ⟨?_, ih (next x) chain.2⟩
    intro again
    obtain ⟨before, after, rfl⟩ := append_of_mem again
    have tail := chain_suffix head (x :: before) after x chain
    have lengths := congrArg List.length (chain_unique _ chain.2 tail)
    simp at lengths
    omega

theorem chain_push {other : α → Option α} {xs : List α} {x : α}
    (chain : Chain next (other x) xs) (same : ∀ y ∈ xs, other y = next y) :
    Chain other (some x) (x :: xs) :=
  ⟨rfl, (path_congr _ _ _ same).mpr chain⟩

theorem chain_snoc [DecidableEq α] {head : Option α} {xs : List α} {last x : α}
    (chain : Chain next head (xs ++ [last])) (outside : x ∉ xs ++ [last]) (link : next x = none) :
    Chain (update next last (some x)) head (xs ++ [last, x]) := by
  have distinct := chain_nodup _ chain
  obtain ⟨middle, front, back⟩ := (path_append _ _ _ _).mp chain
  have lastOutside : last ∉ xs := by
    rw [nodup_append] at distinct
    exact fun h => distinct.2.2 last h last (by simp) rfl
  have different : x ≠ last := by
    rintro rfl
    simp at outside
  refine (path_append _ _ _ _).mpr ⟨middle, (path_update _ _ _ lastOutside).mpr front, ?_⟩
  simp [back.1, update_of_ne different, link]

theorem chain_find_last {head : Option α} {xs : List α} {last : α}
    (chain : Chain next head (xs ++ [last])) :
    (xs ++ [last]).find? (fun x => (next x).isNone) = some last := by
  induction xs generalizing head with
  | nil => simp [show next last = none from chain.2]
  | cons x xs ih =>
    have linked : (next x).isNone = false := by
      cases xs with
      | nil => simp [show next x = some last from chain.2.1]
      | cons y ys => simp [show next x = some y from chain.2.1]
    rw [cons_append, List.find?_cons, linked]
    exact ih chain.2

theorem chain_find_before [DecidableEq α] {head : Option α} {xs ys : List α} {before x : α}
    (chain : Chain next head (xs ++ before :: x :: ys)) :
    (xs ++ before :: x :: ys).find? (fun y => next y == some x) = some before := by
  induction xs generalizing head with
  | nil => simp [show next before = some x from chain.2.1]
  | cons y xs ih =>
    have distinct := chain_nodup _ chain.2
    have other : (next y == some x) = false := by
      rw [beq_eq_false_iff_ne]
      intro link
      cases xs with
      | nil =>
        cases some.inj (link.symm.trans chain.2.1)
        simp at distinct
      | cons z zs =>
        cases some.inj (link.symm.trans chain.2.1)
        simp at distinct
    rw [cons_append, List.find?_cons, other]
    exact ih chain.2

theorem chain_next_mem {head : Option α} {xs : List α} {x : α} (y : α) (chain : Chain next head xs)
    (member : x ∈ xs) (link : next x = some y) : y ∈ xs := by
  obtain ⟨front, rest, rfl⟩ := append_of_mem member
  have tail := chain_suffix head front rest x chain
  rw [link] at tail
  cases rest with
  | nil => cases tail
  | cons z rest =>
    cases some.inj tail.1
    simp

theorem chain_unlink [DecidableEq α] {head : Option α} {xs ys : List α} {before x : α}
    (chain : Chain next head (xs ++ before :: x :: ys)) :
    Chain (update next before (next x)) head (xs ++ before :: ys) := by
  have distinct := chain_nodup _ chain
  obtain ⟨middle, front, start, link, rest⟩ := (path_append _ _ _ _).mp chain
  rw [nodup_append, nodup_cons] at distinct
  have frontOutside : before ∉ xs := fun h => distinct.2.2 before h before (by simp) rfl
  have restOutside : before ∉ ys := fun h => distinct.2.1.1 (by simp [h])
  refine (path_append _ _ _ _).mpr ⟨middle, (path_update _ _ _ frontOutside).mpr front, start, ?_⟩
  rw [update_self]
  exact (path_update _ _ _ restOutside).mpr rest

theorem RingPath.rotate {next : α → Option α} {head : α} {xs : List α} (ring : RingPath next head xs)
    (x : α) (member : x ∈ xs) :
    ∃ before after, xs = before ++ x :: after ∧ RingPath next x (x :: after ++ before) := by
  obtain ⟨before, after, rfl⟩ := append_of_mem member
  obtain ⟨middle, front, back⟩ := (path_append _ _ _ _).mp ring.1
  obtain ⟨rfl, rest⟩ := back
  exact ⟨before, after, rfl,
    (path_append _ _ _ _).mpr ⟨some head, ⟨rfl, rest⟩, front⟩, by simp⟩

theorem RingPath.insert [DecidableEq α] {head x : α} {rest : List α}
    (ring : RingPath next head (head :: rest)) (apart : head ∉ rest) (new : x ∉ head :: rest) :
    RingPath (update (update next x (next head)) head (some x)) head
      (head :: x :: rest) := by
  rw [mem_cons, not_or] at new
  refine ⟨⟨rfl, ?_⟩, cons_ne_nil _ _⟩
  rw [update_self]
  refine ⟨rfl, ?_⟩
  rw [update_of_ne new.1, update_self]
  exact (path_update _ _ _ apart).mpr ((path_update _ _ _ new.2).mpr ring.1.2)

theorem RingPath.advance {head x : α} {rest : List α} (ring : RingPath next head (head :: x :: rest)) :
    RingPath next x (x :: rest ++ [head]) := by
  obtain ⟨⟨-, link, path⟩, -⟩ := ring
  exact ⟨⟨rfl, (path_append _ _ _ _).mpr ⟨some head, path, rfl, link⟩⟩, cons_ne_nil _ _⟩

/--
The loop that follows `next` until a node passes the test. `none` means that the
loop was still going after `fuel` nodes.
-/
def search (next : α → Option α) (test : α → Bool) : Nat → Option α → Option (Option α)
  | _, none => some none
  | 0, some _ => none
  | fuel + 1, some x => if test x then some (some x) else search next test fuel (next x)

variable {fuel : Nat}

theorem search_chain (test : α → Bool) {head : Option α} {xs : List α} (chain : Chain next head xs)
    (enough : xs.length ≤ fuel) : search next test fuel head = some (xs.find? test) := by
  induction xs generalizing head fuel with
  | nil =>
    rw [Chain, path_nil] at chain
    subst chain
    cases fuel <;> rfl
  | cons x xs ih =>
    obtain ⟨rfl, rest⟩ := chain
    cases fuel with
    | zero => simp at enough
    | succ fuel =>
      rw [search, List.find?_cons]
      cases test x
      · exact ih rest (by simpa using enough)
      · rfl

theorem search_passes {test : α → Bool} {head : Option α} {x : α}
    (found : search next test fuel head = some (some x)) : test x = true := by
  induction fuel generalizing head with
  | zero => cases head <;> simp [search] at found
  | succ fuel ih =>
    cases head with
    | none => simp [search] at found
    | some y =>
      rw [search] at found
      split at found
      · next passed =>
        cases found
        exact passed
      · exact ih found

def nodes (next : α → Option α) : Nat → Option α → List α
  | _, none => []
  | 0, some _ => []
  | fuel + 1, some x => x :: nodes next fuel (next x)

theorem nodes_congr {other : α → Option α} {head : Option α}
    (same : ∀ x ∈ nodes next fuel head, other x = next x) :
    nodes other fuel head = nodes next fuel head := by
  induction fuel generalizing head with
  | zero => cases head <;> rfl
  | succ fuel ih =>
    cases head with
    | none => rfl
    | some x =>
      have first := same x mem_cons_self
      have rest := ih (fun y member => same y (mem_cons_of_mem x member))
      rw [nodes, nodes, first, rest]

theorem nodes_chain {head : Option α} {xs : List α} (chain : Chain next head xs)
    (enough : xs.length ≤ fuel) : nodes next fuel head = xs := by
  induction xs generalizing head fuel with
  | nil =>
    rw [Chain, path_nil] at chain
    subst chain
    cases fuel <;> rfl
  | cons x xs ih =>
    obtain ⟨rfl, rest⟩ := chain
    cases fuel with
    | zero => simp at enough
    | succ fuel => rw [nodes, ih rest (by simpa using enough)]

end Linked
