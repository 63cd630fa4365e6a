/-
**Byte stores and little-endian words.**

A store is a byte at every address. `read` and `write` move runs of bytes, `word` reads the
little-endian 32-bit word at an address and `writeWords` stores a run of them. The facts a proof
needs about stores are few: a run that was written is there (`write_inside`, `word_writeWords`),
and what lies outside the run is unchanged (`write_outside`, `writeWords_outside`). Everything
read through `word` depends on four bytes only (`word_congr`).
-/

import Mathlib.Data.List.Basic
import Mathlib.Tactic.Ring
import Mathlib.Tactic.IntervalCases

namespace NjuOs.Lib

/-- A byte at every address. -/
abbrev Store := Nat → UInt8

namespace Store

/-- The `n` bytes from `a` on. -/
def read (m : Store) (a n : Nat) : List UInt8 := (List.range n).map fun i => m (a + i)

/-- Store the bytes `bs` from `a` on. -/
def write (m : Store) (a : Nat) (bs : List UInt8) : Store := fun x =>
  if a ≤ x ∧ x < a + bs.length then bs.getD (x - a) 0 else m x

/-- Set the `n` bytes from `a` on to zero. -/
def clear (m : Store) (a n : Nat) : Store := fun x => if a ≤ x ∧ x < a + n then 0 else m x

/-- The little-endian word at `a`. -/
def word (m : Store) (a : Nat) : UInt32 :=
  UInt32.ofNat ((m a).toNat + 256 * (m (a + 1)).toNat + 65536 * (m (a + 2)).toNat
    + 16777216 * (m (a + 3)).toNat)

/-- Byte `k` of a word, least significant first. -/
def wordByte (w : UInt32) (k : Nat) : UInt8 := UInt8.ofNat (w.toNat / 256 ^ k)

/-- Store the `n` words `t 0 … t (n - 1)` from `a` on. -/
def writeWords (m : Store) (a n : Nat) (t : Nat → UInt32) : Store := fun x =>
  if a ≤ x ∧ x < a + 4 * n then wordByte (t ((x - a) / 4)) ((x - a) % 4) else m x

variable {m m' : Store} {a n : Nat}

/-! ### Runs of bytes -/

@[simp] theorem read_length : (m.read a n).length = n := by simp [read]

theorem read_getD {i : Nat} (inside : i < n) : (m.read a n).getD i 0 = m (a + i) := by
  simp [read, List.getD_eq_getElem?_getD, inside]

theorem write_outside {bs : List UInt8} {x : Nat} (outside : x < a ∨ a + bs.length ≤ x) :
    m.write a bs x = m x := by
  refine if_neg fun inside => ?_
  omega

theorem write_inside {bs : List UInt8} {i : Nat} (inside : i < bs.length) :
    m.write a bs (a + i) = bs.getD i 0 := by
  rw [write, if_pos ⟨by omega, by omega⟩, Nat.add_sub_cancel_left]

theorem clear_outside {x : Nat} (outside : x < a ∨ a + n ≤ x) : m.clear a n x = m x := by
  refine if_neg fun inside => ?_
  omega

theorem clear_inside {x : Nat} (low : a ≤ x) (high : x < a + n) : m.clear a n x = 0 :=
  if_pos ⟨low, high⟩

/-! ### Words -/

theorem word_congr (same : ∀ i, i < 4 → m' (a + i) = m (a + i)) : m'.word a = m.word a := by
  have zero := same 0 (by omega)
  have one := same 1 (by omega)
  have two := same 2 (by omega)
  have three := same 3 (by omega)
  simp only [Nat.add_zero] at zero
  simp only [word, zero, one, two, three]

/-- The four bytes of a word make the word. -/
theorem wordByte_sum (w : UInt32) :
    (wordByte w 0).toNat + 256 * (wordByte w 1).toNat + 65536 * (wordByte w 2).toNat
      + 16777216 * (wordByte w 3).toNat = w.toNat := by
  have bound : w.toNat < 4294967296 := w.toNat_lt
  simp only [wordByte, UInt8.toNat_ofNat']
  norm_num
  omega

/-- The bytes of a word are those it was read from. -/
theorem wordByte_word {k : Nat} (small : k < 4) : wordByte (m.word a) k = m (a + k) := by
  have bound : ∀ b : UInt8, b.toNat < 256 := fun b => b.toNat_lt
  have b0 := bound (m a)
  have b1 := bound (m (a + 1))
  have b2 := bound (m (a + 2))
  have b3 := bound (m (a + 3))
  apply UInt8.toNat_inj.mp
  simp only [wordByte, word, UInt8.toNat_ofNat', UInt32.toNat_ofNat']
  interval_cases k <;> norm_num <;> omega

/-- A word is its four bytes. -/
theorem word_eq_iff {w : UInt32} : m.word a = w ↔ ∀ k, k < 4 → m (a + k) = wordByte w k := by
  constructor
  · rintro rfl k small
    exact (wordByte_word small).symm
  · intro bytes
    have first := bytes 0 (by omega)
    rw [Nat.add_zero] at first
    rw [word, first, bytes 1 (by omega), bytes 2 (by omega), bytes 3 (by omega), wordByte_sum,
      UInt32.ofNat_toNat]

theorem writeWords_outside {t : Nat → UInt32} {x : Nat} (outside : x < a ∨ a + 4 * n ≤ x) :
    m.writeWords a n t x = m x := by
  refine if_neg fun inside => ?_
  omega

theorem writeWords_inside {t : Nat → UInt32} {i k : Nat} (index : i < n) (byte : k < 4) :
    m.writeWords a n t (a + 4 * i + k) = wordByte (t i) k := by
  have quotient : (a + 4 * i + k - a) / 4 = i := by omega
  have remainder : (a + 4 * i + k - a) % 4 = k := by omega
  rw [writeWords, if_pos ⟨by omega, by omega⟩, quotient, remainder]

theorem writeWords_zero {t : Nat → UInt32} : m.writeWords a 0 t = m := by
  funext x
  exact writeWords_outside (by omega)

/-- One word more. -/
theorem writeWords_succ {t : Nat → UInt32} :
    m.writeWords a (n + 1) t = (m.writeWords a n t).writeWords (a + 4 * n) 1 fun _ => t n := by
  funext x
  by_cases last : a + 4 * n ≤ x ∧ x < a + 4 * n + 4
  · rw [writeWords, writeWords, if_pos (by omega), if_pos (by omega), show (x - a) / 4 = n by omega,
      show (x - a) % 4 = (x - (a + 4 * n)) % 4 by omega]
  · rw [writeWords_outside (m := m.writeWords a n t) (by omega)]
    unfold writeWords
    by_cases before : a ≤ x ∧ x < a + 4 * n
    · rw [if_pos before, if_pos (by omega)]
    · rw [if_neg before, if_neg (by omega)]

/-- **A word that was written reads back.** -/
theorem word_writeWords {t : Nat → UInt32} {i : Nat} (index : i < n) :
    (m.writeWords a n t).word (a + 4 * i) = t i := by
  have zero := writeWords_inside (m := m) (a := a) (t := t) index (k := 0) (by omega)
  have one := writeWords_inside (m := m) (a := a) (t := t) index (k := 1) (by omega)
  have two := writeWords_inside (m := m) (a := a) (t := t) index (k := 2) (by omega)
  have three := writeWords_inside (m := m) (a := a) (t := t) index (k := 3) (by omega)
  simp only [Nat.add_zero] at zero
  simp only [word, zero, one, two, three, wordByte_sum, UInt32.ofNat_toNat]

/-- A word apart from the written run is unchanged. -/
theorem word_writeWords_outside {t : Nat → UInt32} {x : Nat}
    (outside : x + 4 ≤ a ∨ a + 4 * n ≤ x) : (m.writeWords a n t).word x = m.word x :=
  word_congr fun _ _ => writeWords_outside (by omega)

/-- A word of cleared bytes. -/
theorem word_clear {x : Nat} (low : a ≤ x) (high : x + 4 ≤ a + n) : (m.clear a n).word x = 0 := by
  unfold word
  rw [clear_inside low (by omega), clear_inside (by omega) (by omega),
    clear_inside (by omega) (by omega), clear_inside (by omega) (by omega)]
  rfl

theorem writeWords_congr {t t' : Nat → UInt32} (same : ∀ i, i < n → t i = t' i) :
    m.writeWords a n t = m.writeWords a n t' := by
  funext x
  unfold writeWords
  split
  · rw [same _ (by omega)]
  · rfl

/-- Storing back the words a run already holds changes nothing. -/
theorem writeWords_self : (m.writeWords a n fun i => m.word (a + 4 * i)) = m := by
  funext x
  by_cases inside : a ≤ x ∧ x < a + 4 * n
  · obtain ⟨d, rfl⟩ := Nat.exists_eq_add_of_le inside.1
    have split : a + d = a + 4 * (d / 4) + d % 4 := by omega
    have small : d % 4 < 4 := Nat.mod_lt _ (by omega)
    rw [split, writeWords_inside (by omega) small]
    exact wordByte_word small
  · exact writeWords_outside (by omega)

end Store

end NjuOs.Lib
