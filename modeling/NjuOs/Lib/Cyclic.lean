/-
**First-fit search around a circular table of flags.**

`firstIdle used n fuel cursor` walks from `cursor` round a table of `n` flags and stops at the first
one that is not set. With `n` steps it sees the whole table, so it fails exactly when every flag
is set (`firstIdle_isSome`).
-/

import Mathlib.Data.Finset.Card
import Mathlib.Data.Finset.Range
import Mathlib.Logic.Function.Basic
import Mathlib.Tactic.Common

namespace NjuOs.Lib

/-- The first clear flag at or cyclically after `cursor`, looking at most at `fuel` flags. -/
def firstIdle (used : Nat → Bool) (n : Nat) : Nat → Nat → Option Nat
  | 0, _ => none
  | fuel + 1, cursor => if used cursor then firstIdle used n fuel ((cursor + 1) % n)
      else some cursor

variable {used : Nat → Bool} {n : Nat}

theorem firstIdle_idle {fuel cursor found : Nat}
    (run : firstIdle used n fuel cursor = some found) : used found = false := by
  induction fuel generalizing cursor with
  | zero => simp [firstIdle] at run
  | succ fuel ih =>
      unfold firstIdle at run
      split at run
      · exact ih run
      · next idle =>
          obtain rfl := Option.some.inj run
          simpa using idle

theorem firstIdle_lt {fuel cursor found : Nat} (inside : cursor < n)
    (run : firstIdle used n fuel cursor = some found) : found < n := by
  induction fuel generalizing cursor with
  | zero => simp [firstIdle] at run
  | succ fuel ih =>
      unfold firstIdle at run
      split at run
      · exact ih (Nat.mod_lt _ (by omega)) run
      · obtain rfl := Option.some.inj run
        exact inside

/-- A search that fails saw only set flags. -/
theorem firstIdle_none {fuel cursor : Nat} (inside : cursor < n)
    (run : firstIdle used n fuel cursor = none) :
    ∀ d, d < fuel → used ((cursor + d) % n) = true := by
  induction fuel generalizing cursor with
  | zero => intro d small; omega
  | succ fuel ih =>
      unfold firstIdle at run
      split at run
      · next busy =>
          intro d small
          cases d with
          | zero => simpa [Nat.mod_eq_of_lt inside] using busy
          | succ d =>
              have rest := ih (Nat.mod_lt _ (by omega)) run d (by omega)
              rw [Nat.mod_add_mod] at rest
              rwa [show cursor + (d + 1) = cursor + 1 + d by omega]
      · simp at run

/-- **The search sees the whole table**: with `n` steps it fails only when every flag is set. -/
theorem firstIdle_isSome {cursor idle : Nat} (inside : cursor < n) (found : idle < n)
    (clear : used idle = false) : (firstIdle used n n cursor).isSome := by
  by_contra fails
  have none : firstIdle used n n cursor = none := by simpa using fails
  have busy := firstIdle_none inside none ((idle + n - cursor) % n) (Nat.mod_lt _ (by omega))
  have meets : (cursor + (idle + n - cursor) % n) % n = idle := by
    rw [Nat.add_mod_mod, show cursor + (idle + n - cursor) = idle + n by omega, Nat.add_mod_right,
      Nat.mod_eq_of_lt found]
  rw [meets, clear] at busy
  exact absurd busy (by simp)

/-- A search that starts behind set flags only finds the lowest clear one. -/
theorem firstIdle_lowest {fuel cursor found : Nat} (inside : cursor < n)
    (below : ∀ i, i < cursor → used i = true) (run : firstIdle used n fuel cursor = some found) :
    ∀ i, i < found → used i = true := by
  induction fuel generalizing cursor with
  | zero => simp [firstIdle] at run
  | succ fuel ih =>
      unfold firstIdle at run
      split at run
      · next busy =>
          have more : ∀ i, i < cursor + 1 → used i = true := fun i small =>
            (Nat.lt_succ_iff_lt_or_eq.mp small).elim (below i) fun same => same ▸ busy
          by_cases last : cursor + 1 = n
          · have idle := firstIdle_idle run
            have low := firstIdle_lt (Nat.mod_lt (cursor + 1) (Nat.zero_lt_of_lt inside)) run
            rw [more found (last ▸ low)] at idle
            cases idle
          · rw [Nat.mod_eq_of_lt (by omega)] at run
            exact ih (by omega) more run
      · obtain rfl := Option.some.inj run
        exact below

/-- The number of clear flags. -/
def idleCount (used : Nat → Bool) (n : Nat) : Nat :=
  ((Finset.range n).filter fun i => ¬ used i).card

theorem idleCount_pos {i : Nat} (inside : i < n) (clear : used i = false) :
    0 < idleCount used n :=
  Finset.card_pos.mpr ⟨i, by simp [inside, clear]⟩

/-- With fewer flags set, more are clear. -/
theorem idleCount_mono {used' : Nat → Bool} (fewer : ∀ i, used' i = true → used i = true) :
    idleCount used n ≤ idleCount used' n := by
  refine Finset.card_le_card fun i member => ?_
  simp only [Finset.mem_filter, Finset.mem_range] at member ⊢
  exact ⟨member.1, fun set => member.2 (fewer i set)⟩

theorem idleCount_clear : idleCount (fun _ => false) n = n := by
  unfold idleCount
  rw [Finset.filter_true_of_mem fun i _ => Bool.false_ne_true, Finset.card_range]

/-- Setting a clear flag uses up one of them. -/
theorem idleCount_set {i : Nat} (inside : i < n) (clear : used i = false) :
    idleCount (Function.update used i true) n + 1 = idleCount used n := by
  have erased : ((Finset.range n).filter fun j => ¬ Function.update used i true j)
      = ((Finset.range n).filter fun j => ¬ used j).erase i := by
    ext j
    by_cases same : j = i
    · subst same
      simp
    · simp [same]
  have member : i ∈ (Finset.range n).filter fun j => ¬ used j := by simp [inside, clear]
  rw [idleCount, idleCount, erased, Finset.card_erase_add_one member]

end NjuOs.Lib
