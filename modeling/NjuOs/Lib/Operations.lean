/-
**Programs that get their operations as a parameter.**

A program over operations `Ω` is a function from `Ω` to programs. Some of the operations may only
be used in a permitted way: operations that *fit* are those that do what the program's own do
wherever their use is permitted, and may do anything elsewhere. A program keeps to the permitted
uses from a state exactly if it cannot tell its own operations from ones that fit; the `failing`
operations, which end the run at the first use that is not permitted, tell them apart.

`Needs x need` says that `need` is the exact condition for this, and its rules follow the
constructors of the monad, so the condition of a program is put together along its text
(`Needs.same_iff`).
-/

import NjuOs.Lib.Prog

namespace NjuOs.Lib

/-- Operations of a program: its own, the ones that fit, and for each failure ones that fit and fail
so wherever a use is not permitted. -/
structure Operations (Ω ε : Type) where
  own : Ω
  Fits : Ω → Prop
  failing : ε → Ω
  fits : ∀ e, Fits (failing e)

/-- What is needed of the state that `x` leaves, with its result, if it ends well. -/
def After {ε σ α : Type} (x : EStateM ε σ α) (need : α → σ → Prop) (s : σ) : Prop :=
  ∀ a s', x s = .ok a s' → need a s'

namespace Operations

variable {Ω ε σ α β : Type} (O : Operations Ω ε)

/-- **`need` is what a state must satisfy for `x` to keep to the permitted uses.** Where it holds,
the run is the same with all operations that fit; elsewhere the failing operations end it. -/
structure Needs (x : Ω → EStateM ε σ α) (need : σ → Prop) : Prop where
  same : ∀ s, need s → ∀ ω, O.Fits ω → x ω s = x O.own s
  fails : ∀ s, ¬ need s → ∀ e, ∃ s', x (O.failing e) s = .error e s'

namespace Needs

variable {O} {x y : Ω → EStateM ε σ α} {f : Ω → α → EStateM ε σ β} {n n' : σ → Prop}
  {m : α → σ → Prop}

/-- A part that uses no operation. -/
theorem const {x : EStateM ε σ α} : O.Needs (fun _ => x) fun _ => True :=
  ⟨fun _ _ _ _ => rfl, fun _ never => absurd trivial never⟩

theorem congr (needs : O.Needs x n) (same : ∀ s, n s ↔ n' s) : O.Needs x n' :=
  ⟨fun s here => needs.same s ((same s).mpr here),
    fun s fails => needs.fails s fun here => fails ((same s).mp here)⟩

theorem bind (first : O.Needs x n) (rest : ∀ a, O.Needs (fun ω => f ω a) (m a)) :
    O.Needs (fun ω => x ω >>= f ω) fun s => n s ∧ After (x O.own) m s := by
  constructor
  · rintro s ⟨here, later⟩ ω fits
    show EStateM.bind (x ω) (f ω) s = EStateM.bind (x O.own) (f O.own) s
    unfold EStateM.bind
    rw [first.same s here ω fits]
    cases run : x O.own s with
    | ok a s' => exact (rest a).same s' (later a s' run) ω fits
    | error e s' => rfl
  · intro s never e
    by_cases here : n s
    · -- the first part ends well, and the rest fails
      have later : ¬ After (x O.own) m s := fun later => never ⟨here, later⟩
      unfold After at later
      push Not at later
      obtain ⟨a, s', run, not⟩ := later
      rw [← first.same s here _ (O.fits e)] at run
      rw [run_bind run]
      exact (rest a).fails s' not e
    · obtain ⟨s', run⟩ := first.fails s here e
      exact ⟨s', run_bind_error run⟩

/-- Behind a part that uses no operation. -/
theorem after {x : EStateM ε σ α} (rest : ∀ a, O.Needs (fun ω => f ω a) (m a)) :
    O.Needs (fun ω => x >>= f ω) (After x m) :=
  (bind const rest).congr fun _ => by rw [true_and]

/-- Before a part that uses no operation. -/
theorem before (needs : O.Needs x n) (rest : ∀ a, O.Needs (fun ω => f ω a) fun _ => True) :
    O.Needs (fun ω => x ω >>= f ω) n :=
  (bind needs rest).congr fun _ => and_iff_left fun _ _ _ => trivial

theorem map {g : α → β} (needs : O.Needs x n) : O.Needs (fun ω => g <$> x ω) n := by
  simp only [map_eq_pure_bind]
  exact needs.before (f := fun _ a => pure (g a)) fun _ => const

theorem ite {c : Prop} [Decidable c] (yes : O.Needs x n) (no : O.Needs y n') :
    O.Needs (fun ω => if c then x ω else y ω) fun s => if c then n s else n' s := by
  by_cases holds : c
  · simpa only [if_pos holds] using yes
  · simpa only [if_neg holds] using no

/-- **The exact condition.** Two failures are enough to tell the operations apart. -/
theorem same_iff (needs : O.Needs x n) {e e' : ε} (two : e ≠ e') (s : σ) :
    (∀ ω, O.Fits ω → x ω s = x O.own s) ↔ n s := by
  refine ⟨fun all => ?_, needs.same s⟩
  by_contra never
  obtain ⟨s₁, run⟩ := needs.fails s never e
  obtain ⟨s₂, run'⟩ := needs.fails s never e'
  rw [all _ (O.fits e)] at run
  rw [all _ (O.fits e'), run] at run'
  injection run' with same
  exact two same

end Needs

end Operations

end NjuOs.Lib
