/-
**Slots that are used again and again.**

A slot holds one owner after the other. `born` numbers the owners in the order in which they came,
so that two owners of one slot, at different times, are different; `parent` is the number of the
owner that asked for this one. A field that names the parent by its slot (`Tracks`) says who it is
for as long as the parent is there.
-/

import Mathlib.Logic.Function.Basic

namespace NjuOs.Lib

/-- The numbers of the owners, and of their parents. -/
structure Lineage (α : Type*) where
  born : α → Nat
  births : Nat
  parent : α → Option Nat

namespace Lineage

variable {α : Type*} [DecidableEq α] {l : Lineage α} {alive : α → Bool} {slot : α → α}

/-- A new owner. -/
def start (l : Lineage α) (a : α) (parent : Option Nat) : Lineage α where
  born := Function.update l.born a l.births
  births := l.births + 1
  parent := Function.update l.parent a parent

/-- The owner of `a` was asked for by the present owner of `q`. -/
def ChildOf (l : Lineage α) (a q : α) : Prop := l.parent a = some (l.born q)

instance (a q : α) : Decidable (l.ChildOf a q) := inferInstanceAs (Decidable (_ = _))

/-- Present owners have different numbers, and so have their parents. -/
structure Valid (l : Lineage α) (alive : α → Bool) : Prop where
  past : ∀ a, alive a → l.born a < l.births
  distinct : ∀ a b, alive a → alive b → l.born a = l.born b → a = b
  forked : ∀ a n, alive a → l.parent a = some n → n < l.births

/-- `slot` names the parent, where it is still there. -/
def Tracks (l : Lineage α) (alive : α → Bool) (slot : α → α) : Prop :=
  ∀ a q, alive a → alive q → l.ChildOf a q → slot a = q

theorem born_start_self (a : α) (parent : Option Nat) : (l.start a parent).born a = l.births :=
  Function.update_self _ _ _

theorem born_start_of_ne {a b : α} (ne : b ≠ a) (parent : Option Nat) :
    (l.start a parent).born b = l.born b :=
  Function.update_of_ne ne _ _

theorem childOf_start_of_ne {a b q : α} {parent : Option Nat} (ne : b ≠ a) (ne' : q ≠ a) :
    (l.start a parent).ChildOf b q ↔ l.ChildOf b q := by
  simp [ChildOf, start, ne, ne']

theorem Valid.stop (valid : l.Valid alive) (a : α) : l.Valid (Function.update alive a false) := by
  have less : ∀ b, Function.update alive a false b = true → alive b = true := by
    intro b
    by_cases same : b = a
    · subst same
      simp
    · simp [same]
  exact ⟨fun b there => valid.past b (less b there),
    fun b c there there' => valid.distinct b c (less b there) (less c there'),
    fun b n there => valid.forked b n (less b there)⟩

theorem Valid.start (valid : l.Valid alive) (a : α) {parent : Option Nat}
    (known : ∀ n, parent = some n → n < l.births) :
    (l.start a parent).Valid (Function.update alive a true) where
  past b there := by
    by_cases same : b = a
    · subst same
      rw [born_start_self]
      exact Nat.lt_succ_self _
    · rw [born_start_of_ne same]
      rw [Function.update_of_ne same] at there
      exact Nat.lt_succ_of_lt (valid.past b there)
  distinct b c there there' equal := by
    by_cases same : b = a <;> by_cases same' : c = a
    · rw [same, same']
    · rw [same, born_start_self, born_start_of_ne same'] at equal
      rw [Function.update_of_ne same'] at there'
      exact absurd (valid.past c there') (equal ▸ Nat.lt_irrefl _)
    · rw [same', born_start_self, born_start_of_ne same] at equal
      rw [Function.update_of_ne same] at there
      exact absurd (valid.past b there) (equal ▸ Nat.lt_irrefl _)
    · rw [born_start_of_ne same, born_start_of_ne same'] at equal
      rw [Function.update_of_ne same] at there
      rw [Function.update_of_ne same'] at there'
      exact valid.distinct b c there there' equal
  forked b n there is := by
    by_cases same : b = a
    · subst same
      exact Nat.lt_succ_of_lt (known n (by simpa [Lineage.start] using is))
    · rw [Function.update_of_ne same] at there
      exact Nat.lt_succ_of_lt (valid.forked b n there (by simpa [Lineage.start, same] using is))

theorem Tracks.stop (tracks : l.Tracks alive slot) (a : α) :
    l.Tracks (Function.update alive a false) slot := by
  intro b q there there' child
  refine tracks b q ?_ ?_ child
  · by_cases same : b = a
    · simp [same] at there
    · simpa [same] using there
  · by_cases same : q = a
    · simp [same] at there'
    · simpa [same] using there'

/-- No owner that is there yet is a child of the one that comes. -/
theorem not_childOf_start (valid : l.Valid alive) {a b : α} {parent : Option Nat} (ne : b ≠ a)
    (there : alive b) :
    ¬ (l.start a parent).ChildOf b a := by
  intro child
  have is : l.parent b = some l.births := by
    simpa [ChildOf, Lineage.start, ne] using child
  exact Nat.lt_irrefl _ (valid.forked b _ there is)

/-- The field of the new owner is set to the slot `p` of its parent; without a parent it can be
anything. -/
theorem Tracks.start (tracks : l.Tracks alive slot) (valid : l.Valid alive) {a : α}
    {parent : Option Nat} {slot' : α → α} (others : ∀ b, b ≠ a → slot' b = slot b)
    (own : ∀ n, parent = some n → n < l.births ∧ ∀ q, alive q → l.born q = n → slot' a = q) :
    (l.start a parent).Tracks (Function.update alive a true) slot' := by
  intro b q there there' child
  by_cases same : b = a
  · subst same
    have is : parent = some ((l.start b parent).born q) := by
      simpa [ChildOf, Lineage.start] using child
    obtain ⟨old, found⟩ := own _ is
    by_cases new : q = b
    · subst new
      rw [born_start_self] at old
      exact absurd old (Nat.lt_irrefl _)
    · rw [born_start_of_ne new] at found
      rw [Function.update_of_ne new] at there'
      exact found q there' rfl
  · rw [Function.update_of_ne same] at there
    by_cases new : q = a
    · exact absurd (new ▸ child) (not_childOf_start valid same there)
    · rw [Function.update_of_ne new] at there'
      rw [others b same]
      exact tracks b q there there' ((childOf_start_of_ne same new).mp child)

end Lineage

end NjuOs.Lib
