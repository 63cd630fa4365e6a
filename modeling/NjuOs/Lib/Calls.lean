/-
**Calls between parties.**

A party that calls another one sends it a request and waits for the answer. The request lies at the
party that is called (`asked`) until that party takes it and owes the answer (`owed`); then the
answer lies at the caller (`answered`). `Calls.Balanced` says that of the call of a party that waits
exactly one of these is there, the request unchanged, and that nothing else is about.

A call that is made (`start`), taken (`pass`), answered (`answer`) and ended (`finish`, `drop`)
keeps the balance. Where the parties have ranks and call only below their own,

* `Balanced.load_le`: what lies at one party is at most one message for each party there is;
* `Balanced.chain`: the chain of calls from a party that waits ends at one whose answer lies there,
  or at the request of one at a party that does not wait itself.
-/

import Mathlib.Algebra.BigOperators.Group.Finset.Basic
import Mathlib.Algebra.Group.Action.Defs
import Mathlib.Algebra.Order.BigOperators.Group.Finset
import Mathlib.Algebra.Order.Group.Multiset
import Mathlib.Data.Fintype.BigOperators
import Mathlib.Logic.Relation

namespace NjuOs.Lib

/-- Who waits for whom and with which request, and what lies where: `asked p s` and `owed p s` are
requests of `p` at `s`, `answered p s` are answers of `s` at `p`. -/
structure Calls (P M : Type) where
  waits : P → Option (P × M)
  asked : P → P → Multiset M
  owed : P → P → Multiset M
  answered : P → P → Multiset M

variable {P M : Type} {c c' : Calls P M} {p q s t : P} {m r : M}

namespace Calls

/-- The requests of `p` to `s` that are not answered. -/
def requests (c : Calls P M) (p s : P) : Multiset M := c.asked p s + c.owed p s

/-- The one thing that is there of a call. -/
def Due (m : M) (requests answers : Multiset M) : Prop :=
  requests = {m} ∧ answers = 0 ∨ requests = 0 ∧ ∃ r, answers = {r}

/-- **Every call is at one place.** -/
structure Balanced (c : Calls P M) : Prop where
  due : ∀ {p s m}, c.waits p = some (s, m) → Due m (c.requests p s) (c.answered p s)
  clear : ∀ {p s}, (∀ m, c.waits p ≠ some (s, m)) → c.requests p s = 0 ∧ c.answered p s = 0

/-- Calls go down the ranks. -/
def Down (c : Calls P M) (rank : P → Nat) : Prop :=
  ∀ {p s m}, c.waits p = some (s, m) → rank s < rank p

/-- One waits for the other. -/
def Waits (c : Calls P M) (p s : P) : Prop := ∃ m, c.waits p = some (s, m)

/-- What a move adds between `p` and `s`. -/
def only [DecidableEq P] (p s : P) (m : M) (q t : P) : Multiset M :=
  if q = p ∧ t = s then {m} else 0

section Only

variable [DecidableEq P]

@[simp] theorem only_self (p s : P) (m : M) : only p s m p s = {m} := if_pos ⟨rfl, rfl⟩

theorem only_caller (other : q ≠ p) : only p s m q t = 0 := if_neg fun same => other same.1

theorem only_server (other : t ≠ s) : only p s m q t = 0 := if_neg fun same => other same.2

end Only

namespace Balanced

/-! ### What lies somewhere -/

/-- A request that is there is the one its sender waits with. -/
theorem of_request (balanced : c.Balanced) (there : m ∈ c.requests p s) :
    c.waits p = some (s, m) ∧ c.requests p s = {m} ∧ c.answered p s = 0 := by
  by_cases none : ∀ m, c.waits p ≠ some (s, m)
  · rw [(balanced.clear none).1] at there
    exact absurd there (Multiset.notMem_zero m)
  · push Not at none
    obtain ⟨asked, waits⟩ := none
    rcases balanced.due waits with ⟨request, nothing⟩ | ⟨nothing, _⟩
    · rw [request, Multiset.mem_singleton] at there
      subst there
      exact ⟨waits, request, nothing⟩
    · rw [nothing] at there
      exact absurd there (Multiset.notMem_zero m)

/-- An answer that is there is for a call that its receiver makes. -/
theorem of_answer (balanced : c.Balanced) (there : r ∈ c.answered p s) :
    ∃ m, c.waits p = some (s, m) ∧ c.requests p s = 0 ∧ c.answered p s = {r} := by
  by_cases none : ∀ m, c.waits p ≠ some (s, m)
  · rw [(balanced.clear none).2] at there
    exact absurd there (Multiset.notMem_zero r)
  · push Not at none
    obtain ⟨asked, waits⟩ := none
    rcases balanced.due waits with ⟨_, nothing⟩ | ⟨nothing, other, answer⟩
    · rw [nothing] at there
      exact absurd there (Multiset.notMem_zero r)
    · rw [answer, Multiset.mem_singleton] at there
      subst there
      exact ⟨asked, waits, nothing, answer⟩

theorem card_requests_le (balanced : c.Balanced) (p s : P) : (c.requests p s).card ≤ 1 := by
  by_cases empty : c.requests p s = 0
  · rw [empty, Multiset.card_zero]
    exact Nat.zero_le 1
  · obtain ⟨m, there⟩ := Multiset.exists_mem_of_ne_zero empty
    rw [(balanced.of_request there).2.1, Multiset.card_singleton]

/-! ### The moves -/

section Moves

variable [DecidableEq P]

/-- A party that does not wait makes a call. -/
theorem start (balanced : c.Balanced) (idle : c.waits p = none)
    (waits : c'.waits = Function.update c.waits p (some (s, m)))
    (requests : ∀ q t, c'.requests q t = c.requests q t + only p s m q t)
    (answered : ∀ q t, c'.answered q t = c.answered q t) : c'.Balanced := by
  have nothing : ∀ t, c.requests p t = 0 ∧ c.answered p t = 0 := fun t => balanced.clear fun m => by
    rw [idle]
    exact nofun
  refine ⟨fun {q t n} waiting => ?_, fun {q t} none => ?_⟩
  · rw [requests, answered]
    rw [waits] at waiting
    by_cases here : q = p
    · subst here
      rw [Function.update_self, Option.some.injEq, Prod.mk.injEq] at waiting
      obtain ⟨rfl, rfl⟩ := waiting
      refine .inl ⟨?_, (nothing s).2⟩
      rw [(nothing s).1, only_self, Multiset.zero_add]
    · rw [Function.update_of_ne here] at waiting
      rw [only_caller here, Multiset.add_zero]
      exact balanced.due waiting
  · rw [requests, answered]
    rw [waits] at none
    by_cases here : q = p
    · subst here
      have other : t ≠ s := by
        rintro rfl
        exact none m (Function.update_self ..)
      rw [only_server other, Multiset.add_zero]
      exact nothing t
    · rw [only_caller here, Multiset.add_zero]
      exact balanced.clear fun m => by
        have := none m
        rwa [Function.update_of_ne here] at this

omit [DecidableEq P] in
/-- A request is taken, or nothing happens to the calls. -/
theorem pass (balanced : c.Balanced) (waits : c'.waits = c.waits)
    (requests : ∀ q t, c'.requests q t = c.requests q t)
    (answered : ∀ q t, c'.answered q t = c.answered q t) : c'.Balanced := by
  refine ⟨fun waiting => ?_, fun none => ?_⟩
  · rw [requests, answered]
    exact balanced.due (waits ▸ waiting)
  · rw [requests, answered]
    exact balanced.clear (waits ▸ none)

/-- A request becomes its answer. -/
theorem answer (balanced : c.Balanced) (waits : c'.waits = c.waits)
    (requests : ∀ q t, c.requests q t = c'.requests q t + only p s m q t)
    (answered : ∀ q t, c'.answered q t = c.answered q t + only p s r q t) : c'.Balanced := by
  have there : m ∈ c.requests p s := by
    rw [requests, only_self]
    exact Multiset.mem_add.mpr (.inr (Multiset.mem_singleton_self m))
  obtain ⟨waited, alone, nothing⟩ := balanced.of_request there
  have gone : c'.requests p s = 0 := by
    rw [requests, only_self] at alone
    exact add_eq_right.mp alone
  refine ⟨fun {q t n} waiting => ?_, fun {q t} none => ?_⟩
  · rw [waits] at waiting
    by_cases here : q = p ∧ t = s
    · obtain ⟨rfl, rfl⟩ := here
      refine .inr ⟨gone, r, ?_⟩
      rw [answered, nothing, only_self, Multiset.zero_add]
    · have same := requests q t
      rw [only, if_neg here, Multiset.add_zero] at same
      rw [← same, answered, only, if_neg here, Multiset.add_zero]
      exact balanced.due waiting
  · rw [waits] at none
    have other : ¬ (q = p ∧ t = s) := by
      rintro ⟨rfl, rfl⟩
      exact none m waited
    have same := requests q t
    rw [only, if_neg other, Multiset.add_zero] at same
    rw [← same, answered, only, if_neg other, Multiset.add_zero]
    exact balanced.clear none

/-- After its answer or without it, a caller does not wait any more and nothing of its call is
left. -/
theorem ended (balanced : c.Balanced) (waits : c'.waits = Function.update c.waits p none)
    (gone : ∀ t, c'.requests p t = 0 ∧ c'.answered p t = 0)
    (same : ∀ q t, q ≠ p → c'.requests q t = c.requests q t ∧ c'.answered q t = c.answered q t) :
    c'.Balanced := by
  refine ⟨fun {q t n} waiting => ?_, fun {q t} none => ?_⟩
  · rw [waits] at waiting
    by_cases here : q = p
    · subst here
      rw [Function.update_self] at waiting
      exact absurd waiting nofun
    · rw [Function.update_of_ne here] at waiting
      rw [(same q t here).1, (same q t here).2]
      exact balanced.due waiting
  · rw [waits] at none
    by_cases here : q = p
    · subst here
      exact gone t
    · rw [(same q t here).1, (same q t here).2]
      exact balanced.clear fun m => by
        have := none m
        rwa [Function.update_of_ne here] at this

/-- The answer is taken. -/
theorem finish (balanced : c.Balanced) (waits : c'.waits = Function.update c.waits p none)
    (requests : ∀ q t, c'.requests q t = c.requests q t)
    (answered : ∀ q t, c.answered q t = c'.answered q t + only p s r q t) : c'.Balanced := by
  have there : r ∈ c.answered p s := by
    rw [answered, only_self]
    exact Multiset.mem_add.mpr (.inr (Multiset.mem_singleton_self r))
  obtain ⟨m, waited, nothing, alone⟩ := balanced.of_answer there
  refine balanced.ended waits (fun t => ?_) fun q t here => ?_
  · by_cases server : t = s
    · subst server
      rw [answered, only_self] at alone
      exact ⟨(requests p t).trans nothing, add_eq_right.mp alone⟩
    · have before := balanced.clear (p := p) (s := t) fun m => by
        rw [waited]
        exact fun same => server (Prod.mk.inj (Option.some.inj same)).1.symm
      have same := answered p t
      rw [only_server server, Multiset.add_zero] at same
      exact ⟨(requests p t).trans before.1, same.symm.trans before.2⟩
  · have same := answered q t
    rw [only_caller here, Multiset.add_zero] at same
    exact ⟨requests q t, same.symm⟩

/-- The request is dropped and its sender does not wait any more. -/
theorem drop (balanced : c.Balanced) (waits : c'.waits = Function.update c.waits p none)
    (requests : ∀ q t, c.requests q t = c'.requests q t + only p s m q t)
    (answered : ∀ q t, c'.answered q t = c.answered q t) : c'.Balanced := by
  have there : m ∈ c.requests p s := by
    rw [requests, only_self]
    exact Multiset.mem_add.mpr (.inr (Multiset.mem_singleton_self m))
  obtain ⟨waited, alone, nothing⟩ := balanced.of_request there
  refine balanced.ended waits (fun t => ?_) fun q t here => ?_
  · by_cases server : t = s
    · subst server
      rw [requests, only_self] at alone
      exact ⟨add_eq_right.mp alone, (answered p t).trans nothing⟩
    · have before := balanced.clear (p := p) (s := t) fun m => by
        rw [waited]
        exact fun same => server (Prod.mk.inj (Option.some.inj same)).1.symm
      have same := requests p t
      rw [only_server server, Multiset.add_zero] at same
      exact ⟨same.symm.trans before.1, (answered p t).trans before.2⟩
  · have same := requests q t
    rw [only_caller here, Multiset.add_zero] at same
    exact ⟨same.symm, answered q t⟩

end Moves

/-! ### How much lies at one party -/

/-- **At most one message for each party** lies at a party. -/
theorem load_le [Fintype P] [DecidableEq P] {rank : P → Nat} (balanced : c.Balanced)
    (down : c.Down rank) (s : P) :
    ∑ p, (c.asked p s).card + ∑ t, (c.answered s t).card ≤ Fintype.card P := by
  have own : (c.asked s s).card = 0 := by
    have none := (balanced.clear (p := s) (s := s) fun m waits => absurd (down waits)
      (lt_irrefl _)).1
    rw [requests] at none
    rw [Multiset.card_eq_zero]
    exact (add_eq_zero.mp none).1
  have others : ∑ p, (c.asked p s).card ≤ Fintype.card P - 1 := by
    rw [← Finset.add_sum_erase Finset.univ _ (Finset.mem_univ s), own, Nat.zero_add]
    calc ∑ p ∈ Finset.univ.erase s, (c.asked p s).card ≤ (Finset.univ.erase s).card • 1 := by
          apply Finset.sum_le_card_nsmul
          intro p _
          have := balanced.card_requests_le p s
          rw [requests, Multiset.card_add] at this
          omega
      _ = Fintype.card P - 1 := by
          rw [smul_eq_mul, Nat.mul_one, Finset.card_erase_of_mem (Finset.mem_univ s),
            Finset.card_univ]
  have answers : ∑ t, (c.answered s t).card ≤ 1 := by
    by_cases empty : ∀ t, c.answered s t = 0
    · rw [Finset.sum_eq_zero fun t _ => by rw [empty t, Multiset.card_zero]]
      exact Nat.zero_le 1
    · push Not at empty
      obtain ⟨u, some⟩ := empty
      obtain ⟨r, there⟩ := Multiset.exists_mem_of_ne_zero some
      obtain ⟨m, waits, _, alone⟩ := balanced.of_answer there
      rw [Finset.sum_eq_single u, alone, Multiset.card_singleton]
      · intro t _ other
        rw [(balanced.clear (p := s) (s := t) fun n => ?_).2, Multiset.card_zero]
        rw [waits]
        exact fun same => other (Prod.mk.inj (Option.some.inj same)).1.symm
      · exact fun absent => absurd (Finset.mem_univ u) absent
  have positive : 0 < Fintype.card P := Fintype.card_pos_iff.mpr ⟨s⟩
  omega

/-! ### Where a chain of calls ends -/

/-- **A chain of calls ends**: at a caller whose answer lies there, or at a party that does not wait
and has the request of the last caller. -/
theorem chain {rank : P → Nat} (balanced : c.Balanced) (down : c.Down rank)
    (waiting : c.waits p = some (s, m)) :
    ∃ q t n, Relation.ReflTransGen (Waits c) p q ∧ c.waits q = some (t, n) ∧
      ((∃ r, c.answered q t = {r}) ∨ c.waits t = none ∧ c.requests q t = {n}) := by
  -- the rank falls with every call of the chain
  induction level : rank p using Nat.strong_induction_on generalizing p s m with
  | _ level' ih =>
      subst level
      rcases balanced.due waiting with ⟨request, _⟩ | ⟨_, answer⟩
      · cases next : c.waits s with
        | none => exact ⟨p, s, m, .refl, waiting, .inr ⟨next, request⟩⟩
        | some call =>
            obtain ⟨q, t, n, path, last, ends⟩ := ih (rank s) (down waiting) next rfl
            exact ⟨q, t, n, .head ⟨m, waiting⟩ path, last, ends⟩
      · exact ⟨p, s, m, .refl, waiting, .inl answer⟩

end Balanced

end Calls

end NjuOs.Lib
