/-
**Rules of outcome for stateful programs that can fail.**

A program is an `EStateM ε σ α`: it maps a state to a result with a new state, or to a failure with
the state it failed in. `Ends x s Q E` says what a run of `x` from `s` ends in: `Q` of the result
and the new state, or `E` of the failure. The rules follow the constructors of the monad, so a
proof about a program follows its text; `Ends.of_ok` and `Ends.run_ok` read the result back.

`Erases view y x` says that `y`, on a larger state, does on the part `view` what `x` does: a program
with something recorded beside it. `Alike R x R'` says that two runs of `x` from states that `R`
relates end alike.

`bind_eq_ok` and its companions are the inversion form of the same rules, for facts that only speak
about runs that end well. `Moves R x` says that such a run relates its two states by the preorder
`R`, and `Keeps view x` is the case where a part of the state stays what it was.
-/

import Mathlib.Logic.Function.Basic
import Mathlib.Order.Defs.Unbundled
import Mathlib.Tactic.Common

namespace NjuOs.Lib

variable {ε σ α β : Type}

/-! ### Inversion of runs that end well -/

theorem bind_eq_ok {x : EStateM ε σ α} {f : α → EStateM ε σ β} {s : σ} {b : β} {s'' : σ} :
    (x >>= f) s = .ok b s'' ↔ ∃ a s', x s = .ok a s' ∧ f a s' = .ok b s'' := by
  show EStateM.bind x f s = _ ↔ _
  unfold EStateM.bind
  cases x s with
  | ok a s' => simp
  | error e s' => simp

theorem pure_eq_ok {a b : α} {s s' : σ} :
    (pure a : EStateM ε σ α) s = .ok b s' ↔ a = b ∧ s = s' := by
  show EStateM.Result.ok a s = _ ↔ _
  simp

theorem throw_eq_ok {e : ε} {b : α} {s s' : σ} :
    (throw e : EStateM ε σ α) s = .ok b s' ↔ False := by
  show EStateM.Result.error e s = _ ↔ _
  simp

theorem get_eq_ok {b : σ} {s s' : σ} :
    (get : EStateM ε σ σ) s = .ok b s' ↔ s = b ∧ s = s' := by
  show EStateM.Result.ok s s = _ ↔ _
  simp

theorem set_eq_ok {t : σ} {b : PUnit} {s s' : σ} :
    (set t : EStateM ε σ PUnit) s = .ok b s' ↔ t = s' := by
  show EStateM.Result.ok _ t = _ ↔ _
  simp

theorem modify_eq_ok {f : σ → σ} {b : PUnit} {s s' : σ} :
    (modify f : EStateM ε σ PUnit) s = .ok b s' ↔ f s = s' := by
  show EStateM.Result.ok _ (f s) = _ ↔ _
  simp

/-- The rest of a program behind a part whose result is known. -/
theorem run_bind {x : EStateM ε σ α} {f : α → EStateM ε σ β} {s s' : σ} {a : α}
    (run : x s = .ok a s') : (x >>= f) s = f a s' := by
  show EStateM.bind x f s = _
  unfold EStateM.bind
  rw [run]

theorem run_bind_error {x : EStateM ε σ α} {f : α → EStateM ε σ β} {s s' : σ} {e : ε}
    (run : x s = .error e s') : (x >>= f) s = .error e s' := by
  show EStateM.bind x f s = _
  unfold EStateM.bind
  rw [run]

theorem run_bind_congr {x y : EStateM ε σ α} {f : α → EStateM ε σ β} {s t : σ} (same : x s = y t) :
    (x >>= f) s = (y >>= f) t := by
  show EStateM.bind x f s = EStateM.bind y f t
  unfold EStateM.bind
  rw [same]

theorem run_get {s : σ} : (get : EStateM ε σ σ) s = .ok s s := rfl

/-- The state a run ends in, well or not. -/
def lastState (x : EStateM ε σ α) (s : σ) : σ :=
  match x s with
  | .ok _ s' => s'
  | .error _ s' => s'

/-- The result of a run that ends well. -/
def outcome (x : EStateM ε σ α) (s : σ) : Option α :=
  match x s with
  | .ok a _ => some a
  | .error _ _ => none

theorem run_of_outcome {x : EStateM ε σ α} {s : σ} {a : α} (ends : outcome x s = some a) :
    x s = .ok a (lastState x s) := by
  unfold outcome at ends
  unfold lastState
  cases run : x s with
  | ok b s' =>
      rw [run] at ends
      rw [Option.some.inj ends]
  | error e s' =>
      rw [run] at ends
      exact absurd ends (by simp)

theorem outcome_of_run {x : EStateM ε σ α} {s s' : σ} {a : α} (run : x s = .ok a s') :
    outcome x s = some a := by
  unfold outcome
  rw [run]

/-! ### What a run ends in -/

/-- A run of `x` from `s` ends in `Q`, or fails in `E`. (A structure, so that it never unfolds to
the program's text.) -/
structure Ends (x : EStateM ε σ α) (s : σ) (Q : α → σ → Prop) (E : ε → σ → Prop) : Prop where
  result : match x s with
    | .ok a s' => Q a s'
    | .error e s' => E e s'

namespace Ends

variable {x : EStateM ε σ α} {f : α → EStateM ε σ β} {s : σ}
  {Q : α → σ → Prop} {R : β → σ → Prop} {E : ε → σ → Prop}

/-- To prove an outcome, it is enough to look at each result. -/
theorem intro (ok : ∀ a s', x s = .ok a s' → Q a s') (fail : ∀ e s', x s = .error e s' → E e s') :
    Ends x s Q E := by
  constructor
  cases run : x s with
  | ok a s' => exact ok a s' run
  | error e s' => exact fail e s' run

/-- What a run that ended well ended in. -/
theorem of_ok {a : α} {s' : σ} (ends : Ends x s Q E) (run : x s = .ok a s') : Q a s' := by
  have result := ends.result
  rw [run] at result
  exact result

theorem of_error {e : ε} {s' : σ} (ends : Ends x s Q E) (run : x s = .error e s') : E e s' := by
  have result := ends.result
  rw [run] at result
  exact result

/-- A run that cannot fail ends well. -/
theorem run_ok (ends : Ends x s Q fun _ _ => False) : ∃ a s', x s = .ok a s' ∧ Q a s' := by
  cases run : x s with
  | ok a s' => exact ⟨a, s', rfl, ends.of_ok run⟩
  | error e s' => exact (ends.of_error run).elim

/-- What holds in the state a run ends in, well or not. -/
theorem last {P : σ → Prop} (ends : Ends x s (fun _ => P) fun _ => P) : P (lastState x s) := by
  unfold lastState
  cases run : x s with
  | ok a s' => exact ends.of_ok run
  | error e s' => exact ends.of_error run

theorem of_last {P : σ → Prop} (here : P (lastState x s)) : Ends x s (fun _ => P) fun _ => P := by
  unfold lastState at here
  constructor
  cases run : x s with
  | ok a s' => rwa [run] at here
  | error e s' => rwa [run] at here

theorem mono {Q' : α → σ → Prop} {E' : ε → σ → Prop} (ends : Ends x s Q E)
    (ok : ∀ a s', Q a s' → Q' a s') (fail : ∀ e s', E e s' → E' e s') : Ends x s Q' E' :=
  .intro (fun a s' run => ok a s' (ends.of_ok run)) fun e s' run => fail e s' (ends.of_error run)

/-- A part whose result is known. -/
theorem ok {a : α} {s' : σ} (run : x s = .ok a s') (here : Q a s') : Ends x s Q E := by
  constructor
  rw [run]
  exact here

theorem error {e : ε} {s' : σ} (run : x s = .error e s') (here : E e s') : Ends x s Q E := by
  constructor
  rw [run]
  exact here

/-- A run that fails only where `P` fails ends well where `P` holds. -/
theorem run_where {P : Prop} (ends : Ends x s Q fun _ _ => ¬ P) (here : P) :
    ∃ a s', x s = .ok a s' ∧ Q a s' :=
  (ends.mono (fun _ _ result => result) fun _ _ fails => fails here).run_ok

theorem bind (first : Ends x s (fun a s' => Ends (f a) s' R E) E) : Ends (x >>= f) s R E := by
  constructor
  show match EStateM.bind x f s with
    | .ok a s' => R a s'
    | .error e s' => E e s'
  unfold EStateM.bind
  cases run : x s with
  | ok a s' => exact (first.of_ok run).result
  | error e s' => exact first.of_error run

theorem bind_ok {a : α} {s' : σ} (run : x s = .ok a s') (rest : Ends (f a) s' R E) :
    Ends (x >>= f) s R E :=
  Ends.bind (Ends.ok run rest)

theorem pure {a : α} (here : Q a s) : Ends (Pure.pure a) s Q E := ⟨here⟩

theorem throw {e : ε} (here : E e s) : Ends (throw e : EStateM ε σ α) s Q E := ⟨here⟩

theorem get {Q : σ → σ → Prop} (here : Q s s) : Ends (get : EStateM ε σ σ) s Q E := ⟨here⟩

theorem set {t : σ} {Q : PUnit → σ → Prop} (here : Q ⟨⟩ t) :
    Ends (set t : EStateM ε σ PUnit) s Q E := ⟨here⟩

theorem modify {g : σ → σ} {Q : PUnit → σ → Prop} (here : Q ⟨⟩ (g s)) :
    Ends (modify g : EStateM ε σ PUnit) s Q E := ⟨here⟩

theorem ite {c : Prop} [Decidable c] {y : EStateM ε σ α} (yes : c → Ends x s Q E)
    (no : ¬ c → Ends y s Q E) : Ends (if c then x else y) s Q E := by
  by_cases holds : c
  · rw [if_pos holds]
    exact yes holds
  · rw [if_neg holds]
    exact no holds

end Ends

/-! ### Programs that only look -/

/-- A run of `x` leaves the state as it was, however it ends. -/
def Still (x : EStateM ε σ α) : Prop := ∀ s, lastState x s = s

namespace Still

variable {x : EStateM ε σ α} {f : α → EStateM ε σ β} {s s' : σ} {a : α}

theorem ends (still : Still x) : Ends x s (fun _ s' => s' = s) fun _ s' => s' = s :=
  .of_last (still s)

theorem of_ok (still : Still x) (run : x s = .ok a s') : s' = s := still.ends.of_ok run

theorem bind (first : Still x) (rest : ∀ a, Still (f a)) : Still (x >>= f) := by
  refine fun s => (Ends.bind (first.ends.mono ?_ fun _ _ same => same)).last
  rintro a _ rfl
  exact (rest a).ends

theorem pure {a : α} : Still (Pure.pure a : EStateM ε σ α) := fun _ => rfl

theorem throw {e : ε} : Still (throw e : EStateM ε σ α) := fun _ => rfl

theorem get : Still (get : EStateM ε σ σ) := fun _ => rfl

theorem ite {c : Prop} [Decidable c] {y : EStateM ε σ α} (yes : Still x) (no : Still y) :
    Still (if c then x else y) := by
  split
  · exact yes
  · exact no

end Still

/-! ### Counted loops -/

/-- A counted loop: the body at `i`, `i + 1`, …, `i + n - 1`. -/
def loop (body : Nat → EStateM ε σ PUnit) : Nat → Nat → EStateM ε σ PUnit
  | 0, _ => pure ⟨⟩
  | n + 1, i => do
      body i
      loop body n (i + 1)

/-- **The rule of the counted loop**: what every turn hands on to the next holds behind the last. -/
theorem Ends.loop {body : Nat → EStateM ε σ PUnit} {E : ε → σ → Prop} (inv : Nat → σ → Prop)
    {n i : Nat} {s : σ} (start : inv i s)
    (turn : ∀ j s, i ≤ j → j < i + n → inv j s → Ends (body j) s (fun _ s' => inv (j + 1) s') E) :
    Ends (loop body n i) s (fun _ s' => inv (i + n) s') E := by
  induction n generalizing i s with
  | zero => exact .pure start
  | succ n ih =>
      refine .bind (Ends.mono (turn i s (Nat.le_refl i) (by omega) start) (fun _ s' here => ?_)
        fun _ _ fails => fails)
      have rest := ih here fun j s low high => turn j s (by omega) (by omega)
      rw [show i + (n + 1) = i + 1 + n by omega]
      exact rest

/-! ### Programs on a larger state -/

/-- `y` does on the part `view` of its state what `x` does. -/
def Erases {τ : Type} (view : τ → σ) (y : EStateM ε τ α) (x : EStateM ε σ α) : Prop :=
  ∀ t, x (view t) = match y t with
    | .ok a t' => .ok a (view t')
    | .error e t' => .error e (view t')

namespace Erases

variable {τ : Type} {view : τ → σ} {y : EStateM ε τ α} {x : EStateM ε σ α}

theorem pure {a : α} : Erases view (Pure.pure a : EStateM ε τ α) (Pure.pure a) := fun _ => rfl

theorem bind {g : α → EStateM ε τ β} {f : α → EStateM ε σ β} (first : Erases view y x)
    (rest : ∀ a, Erases view (g a) (f a)) : Erases view (y >>= g) (x >>= f) := by
  intro t
  show EStateM.bind x f (view t) = match EStateM.bind y g t with
    | .ok a t' => .ok a (view t')
    | .error e t' => .error e (view t')
  unfold EStateM.bind
  rw [first t]
  cases y t with
  | ok a t' => exact rest a t'
  | error e t' => rfl

/-- A step that only touches what is not seen. -/
theorem after {g : τ → τ} (unseen : ∀ t, view (g t) = view t) (rest : Erases view y x) :
    Erases view ((modify g : EStateM ε τ PUnit) >>= fun _ => y) x := by
  intro t
  have here := rest (g t)
  rw [unseen] at here
  exact here

theorem ite {c : Prop} [Decidable c] {y' : EStateM ε τ α} {x' : EStateM ε σ α}
    (yes : Erases view y x) (no : Erases view y' x') :
    Erases view (if c then y else y') (if c then x else x') := by
  split
  · exact yes
  · exact no

end Erases

/-! ### Two runs side by side -/

/-- From states that `R` relates, `x` ends in the same way: with one result in states that `R'`
relates, or in one failure. -/
def Alike (R : σ → σ → Prop) (x : EStateM ε σ α) (R' : α → σ → σ → Prop) : Prop :=
  ∀ s t, R s t → Ends x s (fun a s' => ∃ t', x t = .ok a t' ∧ R' a s' t') fun e _ =>
    ∃ t', x t = .error e t'

namespace Alike

variable {R : σ → σ → Prop} {x : EStateM ε σ α} {S : α → σ → σ → Prop} {f : α → EStateM ε σ β}
  {R' : β → σ → σ → Prop}

theorem bind (first : Alike R x S) (rest : ∀ a, Alike (S a) (f a) R') : Alike R (x >>= f) R' := by
  intro s t related
  refine .bind ((first s t related).mono (fun a s' here => ?_) fun e _ fails => ?_)
  · obtain ⟨t', run, related'⟩ := here
    rw [run_bind run]
    exact rest a s' t' related'
  · obtain ⟨t', run⟩ := fails
    exact ⟨t', run_bind_error run⟩

theorem pure {a : α} (here : ∀ s t, R s t → S a s t) : Alike R (Pure.pure a : EStateM ε σ α) S :=
  fun s t related => .pure ⟨t, rfl, here s t related⟩

theorem ite {c : Prop} [Decidable c] {y : EStateM ε σ α} (yes : c → Alike R x S)
    (no : ¬ c → Alike R y S) :
    Alike R (if c then x else y) S := by
  split
  · next holds => exact yes holds
  · next fails => exact no fails

end Alike

/-! ### How a program moves the state -/

/-- Every run of `x` that ends well leads from its first state to one that `R` relates to it. -/
def Moves (R : σ → σ → Prop) (x : EStateM ε σ α) : Prop := ∀ s a s', x s = .ok a s' → R s s'

namespace Moves

variable {R : σ → σ → Prop} {x : EStateM ε σ α} {f : α → EStateM ε σ β}

theorem bind [IsTrans σ R] (first : Moves R x) (rest : ∀ a, Moves R (f a)) : Moves R (x >>= f) := by
  intro s b s'' run
  obtain ⟨a, s', early, late⟩ := bind_eq_ok.mp run
  exact Trans.trans (first s a s' early) (rest a s' b s'' late)

theorem pure [Std.Refl R] {a : α} : Moves R (Pure.pure a : EStateM ε σ α) := by
  intro s b s' run
  rw [(pure_eq_ok.mp run).2]
  exact Std.Refl.refl s'

theorem throw {e : ε} : Moves R (throw e : EStateM ε σ α) := fun _ _ _ run =>
  (throw_eq_ok.mp run).elim

theorem get [Std.Refl R] : Moves R (get : EStateM ε σ σ) := by
  intro s b s' run
  rw [(get_eq_ok.mp run).2]
  exact Std.Refl.refl s'

theorem modify {g : σ → σ} (step : ∀ s, R s (g s)) : Moves R (modify g : EStateM ε σ PUnit) := by
  intro s b s' run
  rw [← modify_eq_ok.mp run]
  exact step s

theorem ite {c : Prop} [Decidable c] {y : EStateM ε σ α} (yes : Moves R x) (no : Moves R y) :
    Moves R (if c then x else y) := by
  split
  · exact yes
  · exact no

theorem map [Std.Refl R] [IsTrans σ R] {g : α → β} (moves : Moves R x) : Moves R (g <$> x) := by
  rw [map_eq_pure_bind]
  exact moves.bind fun _ => Moves.pure

theorem mono {R' : σ → σ → Prop} (moves : Moves R x) (wider : ∀ s s', R s s' → R' s s') :
    Moves R' x :=
  fun s a s' run => wider s s' (moves s a s' run)

end Moves

/-! ### What a program leaves alone -/

/-- The part `view` of two states is the same. -/
def SameView {τ : Type} (view : σ → τ) (s s' : σ) : Prop := view s' = view s

instance {τ : Type} (view : σ → τ) : Std.Refl (SameView view) := ⟨fun _ => rfl⟩

instance {τ : Type} (view : σ → τ) : IsTrans σ (SameView view) :=
  ⟨fun _ _ _ first second => Eq.trans second first⟩

/-- Every run of `x` that ends well leaves the part `view` of the state as it was. -/
abbrev Keeps {τ : Type} (view : σ → τ) (x : EStateM ε σ α) : Prop := Moves (SameView view) x

/-- A part of a part that is left alone is left alone. -/
theorem Keeps.comp {τ υ : Type} {view : σ → τ} {x : EStateM ε σ α} (keeps : Keeps view x)
    (part : τ → υ) :
    Keeps (fun s => part (view s)) x :=
  keeps.mono fun _ _ same => congrArg part same

end NjuOs.Lib
