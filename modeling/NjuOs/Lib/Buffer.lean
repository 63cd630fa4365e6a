/-
**Texts and queues in arrays.**

`Stored nul buf text`: the array holds the text, which ends at the first `nul`. A character is put
in by moving the rest of the text up by one place (`Stored.insert`) and taken out by moving it down
(`Stored.remove`).

`Fifo n buf f r xs`: the `n` places of the array, taken as a circle, hold the queue `xs` from `f` up
to `r`. One place stays free, so that `f = r` means the queue is empty (`Fifo.empty_iff`) and a
queue is full when the place behind `r` is `f` (`Fifo.full_iff`).
-/

import Mathlib.Data.List.Basic
import Mathlib.Logic.Function.Basic
import Mathlib.Tactic.Common

namespace NjuOs.Lib

variable {α : Type}

/-! ### Texts -/

/-- **The text of an array**, up to its end. -/
structure Stored (nul : α) (buf : Nat → α) (text : List α) : Prop where
  holds : ∀ k, k ≤ text.length → buf k = (text[k]?).getD nul
  plain : nul ∉ text

section Stored

variable {nul ch : α} {buf buf' : Nat → α} {before after text : List α}

theorem Stored.stop (stored : Stored nul buf text) : buf text.length = nul := by
  rw [stored.holds _ (Nat.le_refl _), List.getElem?_eq_none (Nat.le_refl _), Option.getD_none]

theorem Stored.ne_nul (stored : Stored nul buf text) {k : Nat} (inside : k < text.length) :
    buf k ≠ nul := by
  rw [stored.holds k (Nat.le_of_lt inside), List.getElem?_eq_getElem inside, Option.getD_some]
  intro same
  exact stored.plain (same ▸ List.getElem_mem inside)

/-- The first character, and the text behind it. -/
theorem Stored.uncons {text : List α} (stored : Stored nul buf (ch :: text)) :
    buf 0 = ch ∧ ch ≠ nul ∧ Stored nul (fun k => buf (k + 1)) text := by
  refine ⟨stored.holds 0 (Nat.zero_le _), fun same => stored.plain (same ▸ List.mem_cons_self),
    fun k inside => ?_,
    fun here => stored.plain (List.mem_cons_of_mem _ here)⟩
  exact (stored.holds (k + 1) (Nat.succ_le_succ inside)).trans (by rw [List.getElem?_cons_succ])

/-- An array holds one text. -/
theorem Stored.unique {text' : List α} (stored : Stored nul buf text)
    (stored' : Stored nul buf text') :
    text = text' := by
  have length : text.length = text'.length := by
    rcases Nat.lt_trichotomy text.length text'.length with less | same | more
    · exact absurd stored.stop (stored'.ne_nul less)
    · exact same
    · exact absurd stored'.stop (stored.ne_nul more)
  refine List.ext_getElem length fun k left right => ?_
  have here := stored.holds k (Nat.le_of_lt left)
  rw [stored'.holds k (Nat.le_of_lt right), List.getElem?_eq_getElem left,
    List.getElem?_eq_getElem right] at here
  exact here.symm

/-- The text ends at the cursor exactly when nothing is behind it. -/
theorem Stored.eq_nul_iff (stored : Stored nul buf (before ++ after)) :
    buf before.length = nul ↔ after = [] := by
  refine ⟨fun stop => ?_, ?_⟩
  · by_contra more
    refine stored.ne_nul (k := before.length) ?_ stop
    rw [List.length_append]
    have := List.length_pos_iff.mpr more
    omega
  · rintro rfl
    rw [List.append_nil] at stored
    exact stored.stop

theorem Stored.insert (stored : Stored nul buf (before ++ after)) (printable : ch ≠ nul)
    (low : ∀ k, k < before.length → buf' k = buf k) (here : buf' before.length = ch)
    (high : ∀ k, before.length ≤ k → k ≤ (before ++ after).length → buf' (k + 1) = buf k) :
    Stored nul buf' (before ++ ch :: after) := by
  have length : (before ++ ch :: after).length = (before ++ after).length + 1 := by simp; omega
  refine ⟨fun k bound => ?_, ?_⟩
  · rcases Nat.lt_trichotomy k before.length with left | rfl | right
    · have short : k ≤ (before ++ after).length := by rw [List.length_append]; omega
      rw [low k left, stored.holds k short, List.getElem?_append_left left,
        List.getElem?_append_left left]
    · rw [here, List.getElem?_append_right (Nat.le_refl _)]
      simp
    · obtain ⟨k, rfl⟩ : ∃ j, k = j + 1 := ⟨k - 1, by omega⟩
      have short : k ≤ (before ++ after).length := by omega
      rw [high k (by omega) short, stored.holds k short, List.getElem?_append_right (by omega),
        List.getElem?_append_right (by omega), Nat.succ_sub (by omega), List.getElem?_cons_succ]
  · have plain := stored.plain
    rw [List.mem_append, not_or] at plain
    rw [List.mem_append, List.mem_cons, not_or, not_or]
    exact ⟨plain.1, printable.symm, plain.2⟩

theorem Stored.remove (stored : Stored nul buf (before ++ ch :: after))
    (low : ∀ k, k < before.length → buf' k = buf k)
    (high : ∀ k, before.length ≤ k → k ≤ (before ++ after).length → buf' k = buf (k + 1)) :
    Stored nul buf' (before ++ after) := by
  have length : (before ++ ch :: after).length = (before ++ after).length + 1 := by simp; omega
  refine ⟨fun k bound => ?_, ?_⟩
  · rcases Nat.lt_or_ge k before.length with left | right
    · rw [low k left, stored.holds k (by omega), List.getElem?_append_left left,
        List.getElem?_append_left left]
    · rw [high k right bound, stored.holds (k + 1) (by omega),
        List.getElem?_append_right (by omega), List.getElem?_append_right (by omega),
        Nat.succ_sub right, List.getElem?_cons_succ]
  · have plain := stored.plain
    rw [List.mem_append, List.mem_cons, not_or, not_or] at plain
    rw [List.mem_append, not_or]
    exact ⟨plain.1, plain.2.2⟩

/-- The text ends where a NUL is put. -/
theorem Stored.cut (stored : Stored nul buf (before ++ after))
    (low : ∀ k, k < before.length → buf' k = buf k) (here : buf' before.length = nul) :
    Stored nul buf' before := by
  refine ⟨fun k bound => ?_, fun member => stored.plain (List.mem_append_left _ member)⟩
  rcases Nat.lt_or_eq_of_le bound with inside | rfl
  · rw [low k inside, stored.holds k (by rw [List.length_append]; omega),
      List.getElem?_append_left inside]
  · rw [here, List.getElem?_eq_none (Nat.le_refl _), Option.getD_none]

/-- A text behind another. -/
theorem Stored.behind {tail : Nat → α} (stored : Stored nul tail after)
    (low : ∀ k, k < before.length → buf' k = (before[k]?).getD nul)
    (high : ∀ k, k ≤ after.length → buf' (before.length + k) = tail k) (plain : nul ∉ before) :
    Stored nul buf' (before ++ after) := by
  refine ⟨fun k bound => ?_, fun member => (List.mem_append.mp member).elim plain stored.plain⟩
  rw [List.length_append] at bound
  rcases Nat.lt_or_ge k before.length with left | right
  · rw [low k left, List.getElem?_append_left left]
  · obtain ⟨k, rfl⟩ := Nat.exists_eq_add_of_le right
    rw [high k (by omega), stored.holds k (by omega), List.getElem?_append_right right,
      Nat.add_sub_cancel_left]

end Stored

/-! ### Queues -/

/-- **The queue in a circle of `n` places.** -/
structure Fifo (n : Nat) (buf : Nat → α) (f r : Nat) (xs : List α) : Prop where
  front : f < n
  rear : r = (f + xs.length) % n
  room : xs.length < n
  holds : ∀ k (inside : k < xs.length), buf ((f + k) % n) = xs[k]

section Fifo

variable {n f r : Nat} {buf : Nat → α} {xs : List α} {x : α}

/-- A place at most one turn further on. -/
theorem wrap_eq {k : Nat} (front : f < n) (turn : k ≤ n) :
    (f + k) % n = if f + k < n then f + k else f + k - n := by
  split
  · exact Nat.mod_eq_of_lt ‹_›
  · rw [Nat.mod_eq_sub_mod (by omega)]
    exact Nat.mod_eq_of_lt (by omega)

theorem fifo_empty (buf : Nat → α) (positive : 0 < n) : Fifo n buf 0 0 [] :=
  ⟨positive, by simp, positive, fun k inside => absurd inside (Nat.not_lt_zero k)⟩

theorem Fifo.empty_iff (fifo : Fifo n buf f r xs) : f = r ↔ xs = [] := by
  have front := fifo.front
  have room := fifo.room
  rw [fifo.rear, wrap_eq front (Nat.le_of_lt room), ← List.length_eq_zero_iff]
  split <;> omega

theorem Fifo.next_rear (fifo : Fifo n buf f r xs) : (r + 1) % n = (f + (xs.length + 1)) % n := by
  rw [fifo.rear, Nat.mod_add_mod, Nat.add_assoc]

theorem Fifo.full_iff (fifo : Fifo n buf f r xs) : (r + 1) % n = f ↔ xs.length + 1 = n := by
  have front := fifo.front
  have room := fifo.room
  rw [fifo.next_rear, wrap_eq front room]
  split <;> omega

theorem Fifo.push (fifo : Fifo n buf f r xs) (more : xs.length + 1 < n) (x : α) :
    Fifo n (Function.update buf r x) f ((r + 1) % n) (xs ++ [x]) := by
  have front := fifo.front
  have room := fifo.room
  refine ⟨front, ?_, by simpa using more, fun k inside => ?_⟩
  · rw [fifo.next_rear]
    simp
  · rw [List.length_append, List.length_singleton] at inside
    rcases Nat.lt_or_ge k xs.length with old | new
    · have other : (f + k) % n ≠ r := by
        rw [fifo.rear, wrap_eq front (by omega), wrap_eq front (Nat.le_of_lt room)]
        split <;> split <;> omega
      rw [Function.update_of_ne other, fifo.holds k old, List.getElem_append_left old]
    · obtain rfl : k = xs.length := by omega
      rw [← fifo.rear, Function.update_self]
      simp

theorem Fifo.head (fifo : Fifo n buf f r (x :: xs)) : buf f = x := by
  have first := fifo.holds 0 (by simp)
  rw [Nat.add_zero, Nat.mod_eq_of_lt fifo.front] at first
  exact first

theorem Fifo.pop (fifo : Fifo n buf f r (x :: xs)) : Fifo n buf ((f + 1) % n) r xs := by
  have front := fifo.front
  have room := fifo.room
  rw [List.length_cons] at room
  refine ⟨Nat.mod_lt _ (by omega), ?_, by omega, fun k inside => ?_⟩
  · rw [fifo.rear, List.length_cons, Nat.mod_add_mod]
    congr 1
    omega
  · have old := fifo.holds (k + 1) (by simpa using inside)
    rw [Nat.mod_add_mod, Nat.add_assoc, Nat.add_comm 1 k, old, List.getElem_cons_succ]

end Fifo

end NjuOs.Lib
