/-
**`lock` and `unlock`: the interrupt flag around a critical section.**

`lock` clears the interrupt flag and counts, `unlock` counts back and, when the count is at zero,
reads the flags register to decide whether to set the flag again. The register it reads is the one
`lock` has cleared, so no `unlock` ever sets the flag.

* `run_some`: well nested calls run through as long as fewer than 2^31 locks are open, the count is
  the number of open locks, and after the first call the flag is clear.
* `run_bounded`: calls that run through never have 2^31 locks open.
* `restores_iff`: the calls give the flag back after every outermost pair exactly when it was clear
  from the start.
-/

import Mathlib.Combinatorics.Enumerative.DyckWord
import Mathlib.Tactic.Common

namespace NjuOs.Process.Lock

open DyckStep DyckWord

/-! ### The processor and the calls -/

/-- What `lock` and `unlock` touch: the flags register and the `lock_count` of the current
process. -/
structure Cpu where
  eflags : UInt32
  lockCount : Int
  deriving DecidableEq, Repr

namespace Cpu

/-- The interrupt flag is set. -/
def Enabled (c : Cpu) : Prop := c.eflags &&& 0x200 ≠ 0

instance (c : Cpu) : Decidable c.Enabled := inferInstanceAs (Decidable (_ ≠ _))

/-- The interrupt flag is set. -/
def sti (c : Cpu) : Cpu := { c with eflags := c.eflags ||| 0x200 }

/-- The interrupt flag is cleared. -/
def cli (c : Cpu) : Cpu := { c with eflags := c.eflags &&& ~~~0x200 }

/-- `read_eflags`. -/
def readEflags (c : Cpu) : UInt32 := c.eflags

/-- `none`: `lock_count` overflows. -/
def lock (c : Cpu) : Option Cpu :=
  let c := c.cli
  if c.lockCount = 2147483647 then none else some { c with lockCount := c.lockCount + 1 }

/-- `unlock`: the flag is set behind the last one, but only if it is set already. -/
def unlock (c : Cpu) : Cpu :=
  let c := if c.lockCount > 0 then { c with lockCount := c.lockCount - 1 } else c
  if c.lockCount = 0 then
    let eflags := c.readEflags
    if eflags &&& 0x200 ≠ 0 then c.sti else c
  else c

/-- One call: `U` is `lock`, `D` is `unlock`. -/
def call (c : Cpu) : DyckStep → Option Cpu
  | U => c.lock
  | D => some c.unlock

/-- A sequence of `lock` and `unlock`, as steps up and down. -/
def run (calls : List DyckStep) (c : Cpu) : Option Cpu := calls.foldlM call c

end Cpu

open Cpu

/-- **What the calls should do**, for every outermost pair `inner.nest` among them: interrupts are
disabled after its `lock` and everywhere up to its `unlock`, and then the count is zero and the flag
as before. -/
def Restores (calls : DyckWord) (c : Cpu) : Prop :=
  ∀ before inner after : DyckWord, calls = before + inner.nest + after →
    ∃ outside, run before.toList c = some outside ∧
      (∀ part, part <+: inner.toList → ∃ inside, run (U :: part) outside = some inside ∧
        ¬ inside.Enabled) ∧
      ∃ left, run inner.nest.toList outside = some left ∧ left.lockCount = 0 ∧
        (left.Enabled ↔ outside.Enabled)

/-- The number of locks open after `calls`. -/
def opened (calls : List DyckStep) : Int := calls.count U - calls.count D

/-- Fewer than 2^31 locks are open at any time. -/
def Shallow (calls : List DyckStep) : Prop := ∀ part, part <+: calls → opened part ≤ 2147483647

/-! ### One call -/

section Calls

variable {calls : List DyckStep} {step : DyckStep} {c d : Cpu}

@[simp] theorem not_enabled_cli : ¬ c.cli.Enabled := by
  simp [Enabled, cli, UInt32.and_assoc, UInt32.not_and_self, UInt32.and_zero]

/-- `lock` goes through unless the count is at its highest value. -/
theorem lock_eq_some :
    c.lock = some d ↔ c.lockCount ≠ 2147483647 ∧
    d = { c.cli with lockCount := c.lockCount + 1 } := by
  unfold lock
  by_cases highest : c.lockCount = 2147483647
  · simp [cli, highest]
  · simp [cli, highest, eq_comm]

/-- `unlock` on a flag that is clear leaves it clear. -/
theorem unlock_of_not_enabled (clear : ¬ c.Enabled) :
    c.unlock = { c with lockCount := if c.lockCount > 0 then c.lockCount - 1
      else c.lockCount } := by
  have same : ∀ n : Int, ¬ ({ c with lockCount := n } : Cpu).Enabled := fun n => clear
  unfold unlock
  split_ifs <;> simp_all [readEflags, Enabled]

/-! ### The count and the flag along a run -/

@[simp] theorem run_nil : run [] c = some c := rfl

theorem run_append (first second : List DyckStep) :
    run (first ++ second) c = (run first c).bind (run second) :=
  List.foldlM_append

theorem run_concat : run (calls ++ [step]) c = (run calls c).bind fun d => d.call step := by
  rw [run_append]
  congr 1
  funext d
  exact (List.foldlM_cons ..).trans (Option.bind_fun_some _)

@[simp] theorem opened_append (first second : List DyckStep) :
    opened (first ++ second) = opened first + opened second := by
  simp only [opened, List.count_append]
  omega

/-- No prefix of the calls unlocks more than it locks. -/
def Nested (calls : List DyckStep) : Prop := ∀ part, part <+: calls → 0 ≤ opened part

theorem nested_toList (p : DyckWord) : Nested p.toList := by
  intro part initial
  have fewer := p.count_D_le_count_U part.length
  rw [← List.prefix_iff_eq_take.mp initial] at fewer
  unfold opened
  omega

theorem opened_toList (p : DyckWord) : opened p.toList = 0 := by
  rw [opened, p.count_U_eq_count_D]
  omega

theorem Nested.initial (nested : Nested calls) {part : List DyckStep} (initial : part <+: calls) :
    Nested part :=
  fun shorter first => nested shorter (first.trans initial)

/-- **Along a run** the count is the number of open locks, and after the first call the flag is
clear. -/
theorem run_tracks (nested : Nested calls) (start : c.lockCount = 0) (ran : run calls c = some d) :
    d.lockCount = opened calls ∧ (calls ≠ [] → ¬ d.Enabled) := by
  induction calls using List.reverseRecOn generalizing d with
  | nil =>
      obtain rfl := Option.some.inj ran
      exact ⟨start, fun some => absurd rfl some⟩
  | append_singleton calls step ih =>
      rw [run_concat, Option.bind_eq_some_iff] at ran
      obtain ⟨mid, before, last⟩ := ran
      obtain ⟨count, clear⟩ := ih (nested.initial (List.prefix_append _ _)) before
      have remains := nested _ List.prefix_rfl
      rw [opened_append] at remains ⊢
      cases step with
      | U =>
          obtain ⟨-, rfl⟩ := lock_eq_some.mp last
          exact ⟨by simp [opened, count], fun _ => not_enabled_cli⟩
      | D =>
          obtain rfl := Option.some.inj last
          have one : opened [D] = -1 := rfl
          have locked : calls ≠ [] := by
            rintro rfl
            simp [opened] at remains
          rw [unlock_of_not_enabled (clear locked), if_pos (by omega)]
          exact ⟨by simp only [count, one]; omega, fun _ => clear locked⟩

theorem shallow_concat :
    Shallow (calls ++ [step]) ↔ Shallow calls ∧ opened (calls ++ [step]) ≤ 2147483647 := by
  refine ⟨fun shallow => ⟨fun part initial => shallow part (initial.trans (List.prefix_append _ _)),
    shallow _ List.prefix_rfl⟩, fun ⟨shallow, last⟩ part initial => ?_⟩
  rcases List.prefix_concat_iff.mp initial with rfl | shorter
  · exact last
  · exact shallow part shorter

/-- **Calls run through exactly when fewer than 2^31 locks are open at any time.** -/
theorem run_isSome (nested : Nested calls) (start : c.lockCount = 0) :
    (run calls c).isSome ↔ Shallow calls := by
  induction calls using List.reverseRecOn with
  | nil =>
      refine ⟨fun _ part initial => ?_, fun _ => rfl⟩
      rw [List.prefix_nil.mp initial]
      decide
  | append_singleton calls step ih =>
      have earlier := nested.initial (List.prefix_append calls [step])
      rw [shallow_concat, ← ih earlier, run_concat, opened_append]
      cases ran : run calls c with
      | none => simp
      | some d =>
          have count := (run_tracks earlier start ran).1
          have bound : opened calls ≤ 2147483647 :=
            (ih earlier).mp (by rw [ran]; rfl) calls List.prefix_rfl
          simp only [Option.bind_some, Option.isSome_some, true_and]
          cases step with
          | U =>
              have one : opened [U] = 1 := rfl
              rw [Option.isSome_iff_exists, call]
              simp only [lock_eq_some, exists_and_left, exists_eq, and_true, count, one]
              omega
          | D =>
              have one : opened [D] = -1 := rfl
              simp only [call, Option.isSome_some, one, true_iff]
              omega

end Calls

/-! ### Giving the flag back -/

section Restores

variable {calls before inner after : DyckWord} {c : Cpu}

theorem prefix_pair (split : calls = before + inner.nest + after) {part : List DyckStep}
    (inside : part <+: inner.toList) : before.toList ++ U :: part <+: calls.toList := by
  obtain ⟨rest, whole⟩ := inside
  refine ⟨rest ++ D :: after.toList, ?_⟩
  rw [split]
  show _ = before.toList ++ ([U] ++ inner.toList ++ [D]) ++ after.toList
  simp [← whole]

/-- From a clear flag everything is as it should be. -/
theorem restores_of_clear (start : c.lockCount = 0) (clear : ¬ c.Enabled)
    (shallow : Shallow calls.toList) :
    Restores calls c := by
  intro before inner after split
  -- a run of a part of the calls is there, and leaves the flag clear
  have reaches : ∀ part, part <+: calls.toList → ∃ d, run part c = some d ∧
      d.lockCount = opened part ∧ ¬ d.Enabled := by
    intro part initial
    have nested := (nested_toList calls).initial initial
    obtain ⟨d, ran⟩ := Option.isSome_iff_exists.mp
      ((run_isSome nested start).mpr fun shorter first => shallow shorter (first.trans initial))
    obtain ⟨count, later⟩ := run_tracks nested start ran
    refine ⟨d, ran, count, ?_⟩
    by_cases none : part = []
    · subst none
      obtain rfl := Option.some.inj ran
      exact clear
    · exact later none
  have upto : ∀ {part}, part <+: inner.toList → before.toList ++ U :: part <+: calls.toList :=
    prefix_pair split
  obtain ⟨outside, ran, -, still⟩ :=
    reaches before.toList ((List.prefix_append _ _).trans (upto List.nil_prefix))
  have resume : ∀ {part d}, run (before.toList ++ part) c = some d → run part outside = some d := by
    intro part d whole
    rwa [run_append, ran, Option.bind_some] at whole
  refine ⟨outside, ran, fun part inside => ?_, ?_⟩
  · obtain ⟨d, whole, -, off⟩ := reaches _ (upto inside)
    exact ⟨d, resume whole, off⟩
  · have pair : (before + inner.nest).toList <+: calls.toList := by
      rw [split]
      exact List.prefix_append _ after.toList
    obtain ⟨left, whole, count, off⟩ := reaches _ pair
    exact ⟨left, resume whole, count.trans (opened_toList _), iff_of_false off still⟩

/-- After an outermost pair the rest of the calls starts over. -/
theorem Restores.rest {left : Cpu} (restores : Restores (inner.nest + after) c)
    (pair : run inner.nest.toList c = some left) : Restores after left := by
  intro before inside later split
  obtain ⟨outside, ran, points⟩ := restores (inner.nest + before) inside later
    (by rw [split, add_assoc, add_assoc, add_assoc])
  refine ⟨outside, ?_, points⟩
  have whole : run (inner.nest.toList ++ before.toList) c = some outside := ran
  rwa [run_append, pair, Option.bind_some] at whole

theorem Restores.runs (restores : Restores calls c) : (run calls.toList c).isSome := by
  induction size : calls.semilength using Nat.strong_induction_on generalizing calls c with
  | _ n ih =>
      subst size
      by_cases none : calls = 0
      · subst none
        rfl
      · have split := nest_insidePart_add_outsidePart none
        obtain ⟨outside, here, -, left, pair, -⟩ := restores 0 calls.insidePart calls.outsidePart
          (by rw [zero_add, split])
        obtain rfl := Option.some.inj here
        rw [← split] at restores ⊢
        have rest := ih _ (semilength_outsidePart_lt none) (restores.rest pair) rfl
        show (run (calls.insidePart.nest.toList ++ calls.outsidePart.toList) c).isSome
        rwa [run_append, pair, Option.bind_some]

/-- **The calls give the flag back exactly when it was clear from the start.** -/
theorem restores_iff (start : c.lockCount = 0) :
    Restores calls c ↔ calls = 0 ∨ ¬ c.Enabled ∧ Shallow calls.toList := by
  constructor
  · intro restores
    refine or_iff_not_imp_left.mpr fun some =>
      ⟨?_, (run_isSome (nested_toList calls) start).mp restores.runs⟩
    obtain ⟨outside, here, -, left, pair, -, same⟩ := restores 0 calls.insidePart calls.outsidePart
      (by rw [zero_add, nest_insidePart_add_outsidePart some])
    obtain rfl := Option.some.inj here
    exact fun set => (run_tracks (nested_toList _) start pair).2 (toList_ne_nil.mpr nest_ne_zero)
      (same.mpr set)
  · rintro (rfl | ⟨clear, shallow⟩)
    · intro before inner after split
      have empty : (0 : DyckWord).toList.length = (before + inner.nest + after).toList.length := by
        rw [← split]
      change 0 = (before.toList ++ ([U] ++ inner.toList ++ [D]) ++ after.toList).length at empty
      simp at empty
    · exact restores_of_clear start clear shallow

/-- With interrupts disabled, two critical sections with one inside the first. -/
theorem restores_disabled : Restores ((0 : DyckWord).nest.nest + (0 : DyckWord).nest) ⟨0x2, 0⟩ := by
  refine (restores_iff rfl).mpr (.inr ⟨by decide, fun part initial => ?_⟩)
  have few : part.count U ≤ 3 := (initial.sublist.count_le U).trans (by decide)
  unfold opened
  omega

/-- With interrupts enabled a single `lock` and `unlock` leaves them disabled. -/
theorem not_restores_enabled : ¬ ∀ (calls : DyckWord) (c : Cpu), c.lockCount = 0 →
    Restores calls c := by
  intro all
  obtain ⟨outside, here, -, left, pair, -, same⟩ :=
    all (0 : DyckWord).nest ⟨0x202, 0⟩ rfl 0 0 0 (by decide)
  obtain rfl := Option.some.inj here
  have ends : run (0 : DyckWord).nest.toList ⟨0x202, 0⟩ = some ⟨0x2, 0⟩ := by decide
  obtain rfl := Option.some.inj (ends.symm.trans pair)
  revert same
  decide

end Restores

end NjuOs.Process.Lock
