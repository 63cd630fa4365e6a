/-
**Turns: a fair order under change.**

The members of a round robin stand in the order in which they will be selected. A selection takes
the first one and puts it last; between selections members come and go, and those who stay keep
their order (`Keeps`). `Move` is one such step, with the member it selects.

Two members that stay take turns: `pair a b` is the part of the order that is about `a` and `b`, a
selection of one of them swaps it (`Move.pair_first`, `Move.pair_second`) and nothing else touches
it, so that between two selections of `a` there is exactly one of `b` (`fair`).
-/

import Mathlib.Data.List.Nodup
import Mathlib.Tactic.Common

namespace NjuOs.Lib.RoundRobin

variable {α : Type} [DecidableEq α]

/-! ### Orders -/

/-- The order of `a` and `b`. -/
def pair (a b : α) (order : List α) : List α := order.filter fun x => x = a ∨ x = b

/-- Those in both lists stand in the same order. -/
def Keeps (order order' : List α) : Prop := order.filter (· ∈ order') = order'.filter (· ∈ order)

theorem Keeps.refl (order : List α) : Keeps order order := rfl

theorem Keeps.symm {order order' : List α} (keeps : Keeps order order') : Keeps order' order :=
  Eq.symm keeps

theorem keeps_insert {d : α} {xs ys : List α} (fresh : d ∉ xs ++ ys) :
    Keeps (xs ++ ys) (xs ++ d :: ys) := by
  have all : ∀ x ∈ xs ++ ys, decide (x ∈ xs ++ d :: ys) = true := by
    intro x member
    rcases List.mem_append.mp member with left | right
    · simp [left]
    · simp [right]
  have left : ∀ x ∈ xs, decide (x ∈ xs ++ ys) = true := fun x member => by simp [member]
  have right : ∀ x ∈ ys, decide (x ∈ xs ++ ys) = true := fun x member => by simp [member]
  unfold Keeps
  rw [List.filter_eq_self.mpr all, List.filter_append, List.filter_eq_self.mpr left,
    List.filter_cons_of_neg (by simpa using fresh), List.filter_eq_self.mpr right]

theorem Keeps.pair_eq {order order' : List α} (keeps : Keeps order order') {a b : α}
    (aIn : a ∈ order) (bIn : b ∈ order) (aStays : a ∈ order') (bStays : b ∈ order') :
    pair a b order' = pair a b order := by
  have narrow : ∀ xs ys : List α, a ∈ ys → b ∈ ys →
      pair a b (xs.filter (· ∈ ys)) = pair a b xs := by
    intro xs ys aHere bHere
    unfold pair
    rw [List.filter_filter]
    refine List.filter_congr fun x _ => ?_
    by_cases one : x = a ∨ x = b
    · have here : x ∈ ys := by
        rcases one with rfl | rfl
        · exact aHere
        · exact bHere
      simp [one, here]
    · simp [one]
  rw [← narrow order order' aStays bStays, keeps, narrow order' order aIn bIn]

/-- Two members stand in one of two orders. -/
theorem pair_cases {order : List α} (nodup : order.Nodup) {a b : α} (other : a ≠ b)
    (aIn : a ∈ order) (bIn : b ∈ order) : pair a b order = [a, b] ∨ pair a b order = [b, a] := by
  have perm : (pair a b order).Perm [a, b] := by
    refine (List.perm_ext_iff_of_nodup (nodup.filter _) (by simp [other])).mpr fun x => ?_
    simp only [List.mem_filter, decide_eq_true_eq, List.mem_cons, List.not_mem_nil, or_false]
    refine ⟨And.right, fun one => ⟨?_, one⟩⟩
    rcases one with rfl | rfl
    · exact aIn
    · exact bIn
  obtain ⟨x, y, shape⟩ : ∃ x y, pair a b order = [x, y] :=
    List.length_eq_two.mp (by simpa using perm.length_eq)
  rw [shape] at perm ⊢
  have members := fun z => perm.mem_iff (a := z)
  have xy : x ≠ y := by
    have distinct : [x, y].Nodup := perm.nodup_iff.mpr (by simp [other])
    simpa using distinct
  have xIs : x = a ∨ x = b := by simpa using (members x).mp (by simp)
  have yIs : y = a ∨ y = b := by simpa using (members y).mp (by simp)
  rcases xIs with rfl | rfl
  · rcases yIs with rfl | rfl
    · exact absurd rfl xy
    · exact .inl rfl
  · rcases yIs with rfl | rfl
    · exact .inr rfl
    · exact absurd rfl xy

/-! ### Moves -/

/-- **One step, and the member it selects.** The one selected last may leave as the next one is
selected. -/
inductive Move : List α → Option α → List α → Prop
  | change {order order' : List α} (keeps : Keeps order order') : Move order none order'
  | next (n : α) (rest : List α) : Move (n :: rest) (some n) (rest ++ [n])
  | leave (n : α) (rest : List α) (last : α) : Move (n :: rest ++ [last]) (some n) (rest ++ [n])

variable {order order' : List α} {a b : α} {selected : Option α}

/-- The one selected was first. -/
theorem Move.first (move : Move order (some a) order') : ∃ rest, order = a :: rest := by
  cases move with
  | next n rest => exact ⟨rest, rfl⟩
  | leave n rest last => exact ⟨rest ++ [last], rfl⟩

/-- The one selected is last. -/
theorem Move.last (move : Move order (some a) order') : ∃ rest, order' = rest ++ [a] := by
  cases move with
  | next n rest => exact ⟨rest, rfl⟩
  | leave n rest last => exact ⟨rest, rfl⟩

/-- The order of two members that stay, behind a selection: the part about the rest, and the one
selected. -/
theorem Move.pair_selected {n : α} (move : Move order (some n) order') (nodup : order.Nodup)
    (aStays : a ∈ order') (bStays : b ∈ order') :
    ∃ rest, pair a b order = pair a b (n :: rest) ∧ pair a b order' = pair a b (rest ++ [n]) := by
  cases move with
  | next n rest => exact ⟨rest, rfl, rfl⟩
  | leave n rest last =>
      refine ⟨rest, ?_, rfl⟩
      have gone : ∀ x ∈ rest ++ [n], x ≠ last := by
        rintro x member rfl
        have apart := (List.nodup_append.mp nodup).2.2
        refine apart x ?_ x (List.mem_singleton_self x) rfl
        rw [List.mem_cons, or_comm]
        simpa using member
      have notA : last ≠ a := fun same => gone a aStays same.symm
      have notB : last ≠ b := fun same => gone b bStays same.symm
      unfold pair
      rw [List.filter_append]
      simp [notA, notB]

/-- A step that selects neither of two members that stay keeps their order. -/
theorem Move.pair_neither (move : Move order selected order') (nodup : order.Nodup)
    (aIn : a ∈ order) (bIn : b ∈ order) (aStays : a ∈ order') (bStays : b ∈ order')
    (notA : selected ≠ some a) (notB : selected ≠ some b) :
    pair a b order' = pair a b order := by
  cases selected with
  | none =>
      cases move with
      | change keeps => exact keeps.pair_eq aIn bIn aStays bStays
  | some n =>
      obtain ⟨rest, before, after⟩ := move.pair_selected nodup aStays bStays
      have otherA : n ≠ a := fun same => notA (congrArg some same)
      have otherB : n ≠ b := fun same => notB (congrArg some same)
      rw [before, after]
      simp [pair, otherA, otherB]

/-- The selection of one of two members that stay: it was before the other one. -/
theorem Move.pair_first (move : Move order (some a) order') (nodup : order.Nodup) (other : a ≠ b)
    (bIn : b ∈ order) :
    pair a b order = [a, b] := by
  obtain ⟨rest, rfl⟩ := move.first
  have first : ∃ more, pair a b (a :: rest) = a :: more := ⟨pair a b rest, by simp [pair]⟩
  obtain ⟨more, shape⟩ := first
  rcases pair_cases nodup other List.mem_cons_self bIn with here | there
  · exact here
  · rw [shape] at there
    exact absurd (List.cons.inj there).1 other

/-- And it is behind it now. -/
theorem Move.pair_second (move : Move order (some a) order') (nodup : order'.Nodup) (other : a ≠ b)
    (bStays : b ∈ order') : pair a b order' = [b, a] := by
  obtain ⟨rest, rfl⟩ := move.last
  have last : pair a b (rest ++ [a]) = pair a b rest ++ [a] := by simp [pair]
  rcases pair_cases nodup other (by simp) bStays with here | there
  · rw [last] at here
    have same := congrArg List.getLast? here
    rw [List.getLast?_append] at same
    exact absurd (by simpa using same) other
  · exact there

theorem pair_comm (a b : α) (order : List α) : pair a b order = pair b a order :=
  List.filter_congr fun x _ => by simp [or_comm]

/-! ### Fairness -/

/-- One step of a run. -/
structure Turn (α : Type) where
  before : List α
  selected : Option α
  after : List α

/-- A run of moves from `order`, each from where the one before ended, of which `a` and `b` are
members all along. -/
inductive Stays (a b : α) : List α → List (Turn α) → List α → Prop
  | start {order : List α} (nodup : order.Nodup) (aIn : a ∈ order) (bIn : b ∈ order) :
      Stays a b order [] order
  | step {order : List α} {turn : Turn α} {turns : List (Turn α)} {final : List α}
      (nodup : order.Nodup)
      (aIn : a ∈ order) (bIn : b ∈ order) (here : turn.before = order)
      (move : Move turn.before turn.selected turn.after)
      (rest : Stays a b turn.after turns final) : Stays a b order (turn :: turns) final

theorem Stays.first {turns : List (Turn α)} (stays : Stays a b order turns order') :
    order.Nodup ∧ a ∈ order ∧ b ∈ order := by
  cases stays with
  | start nodup aIn bIn => exact ⟨nodup, aIn, bIn⟩
  | step nodup aIn bIn => exact ⟨nodup, aIn, bIn⟩

theorem Stays.last {turns : List (Turn α)} (stays : Stays a b order turns order') :
    order'.Nodup ∧ a ∈ order' ∧ b ∈ order' := by
  induction stays with
  | start nodup aIn bIn => exact ⟨nodup, aIn, bIn⟩
  | step _ _ _ _ _ _ ih => exact ih

/-- The number of selections of a member. -/
def selections (b : α) (turns : List (Turn α)) : Nat :=
  turns.countP fun turn => turn.selected = some b

/-- Where `a` is not selected: `b` is selected at most once, and exactly once if `a` comes to stand
before it. -/
theorem Stays.alternate {turns : List (Turn α)} (stays : Stays a b order turns order')
    (other : a ≠ b) (never : ∀ turn ∈ turns, turn.selected ≠ some a) :
    (pair a b order = [a, b] → selections b turns = 0 ∧ pair a b order' = [a, b]) ∧
      (pair a b order = [b, a] → selections b turns = 0 ∧ pair a b order' = [b, a] ∨
        selections b turns = 1 ∧ pair a b order' = [a, b]) := by
  induction stays with
  | start => exact ⟨fun ready => ⟨rfl, ready⟩, fun ready => .inl ⟨rfl, ready⟩⟩
  | @step order turn turns final nodup aIn bIn here move rest ih =>
      obtain ⟨afterA, afterB⟩ := ih fun turn member => never turn (List.mem_cons_of_mem _ member)
      obtain ⟨nodup', aStays, bStays⟩ := rest.first
      have notA := never turn List.mem_cons_self
      rw [here] at move
      by_cases isB : turn.selected = some b
      · -- `b` was first and is last now
        have counted : selections b (turn :: turns) = selections b turns + 1 := by
          simp [selections, isB]
        rw [isB] at move
        have before : pair a b order = [b, a] :=
          (pair_comm a b order).trans (move.pair_first nodup other.symm aIn)
        have after : pair a b turn.after = [a, b] :=
          (pair_comm a b turn.after).trans (move.pair_second nodup' other.symm aStays)
        obtain ⟨none, final⟩ := afterA after
        refine ⟨fun ready => ?_, fun _ => .inr ⟨by rw [counted, none], final⟩⟩
        rw [before] at ready
        exact absurd (List.cons.inj ready).1.symm other
      · have counted : selections b (turn :: turns) = selections b turns := by
          simp [selections, isB]
        have same := move.pair_neither nodup aIn bIn aStays bStays notA isB
        rw [counted, ← same]
        exact ⟨afterA, afterB⟩

/-- **Fairness.** Between two selections of `a` with none between, `b` is selected exactly once. -/
theorem fair {turns : List (Turn α)} {start final : List α} (other : a ≠ b)
    (first : Move start (some a) order) (stays : Stays a b order turns order')
    (never : ∀ turn ∈ turns, turn.selected ≠ some a) (last : Move order' (some a) final) :
    selections b turns = 1 := by
  obtain ⟨nodup, aIn, bIn⟩ := stays.first
  obtain ⟨nodup', aIn', bIn'⟩ := stays.last
  have before := last.pair_first nodup' other bIn'
  rcases (stays.alternate other never).2 (first.pair_second nodup other bIn) with ⟨_,
    same⟩ | ⟨once, _⟩
  · rw [before] at same
    exact absurd (List.cons.inj same).1 other
  · exact once

end NjuOs.Lib.RoundRobin
