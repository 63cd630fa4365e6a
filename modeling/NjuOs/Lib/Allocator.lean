/-
**Allocators over a table of flags.**

An allocator takes the first clear flag at or cyclically after a cursor, sets it and leaves the
cursor there; what it hands out is a name for the flag's number, and giving the name back clears the
flag. `Allocates` says this of two programs on a state that holds the flags and the cursor.

* `Allocates.successive`: with `k` flags clear, `k` allocations end, and their numbers come in turn
  (`InTurn`).
* `InTurn.nodup`: they are distinct, and were clear.
* `Allocates.releases`: giving some of the names back, in any order, clears just their flags.
* `Allocates.serves`: the two together.
-/

import NjuOs.Lib.Cyclic
import NjuOs.Lib.Prog

namespace NjuOs.Lib

/-! ### The first clear flag -/

/-- The first clear flag at or cyclically after the cursor. -/
def FirstFrom (used : Nat → Bool) (n cursor i : Nat) : Prop :=
  used i = false ∧ ∃ d, d < n ∧ i = (cursor + d) % n ∧ ∀ e, e < d → used ((cursor + e) % n) = true

/-- Each number is that of the first clear flag from where the one before was found. -/
def InTurn (n : Nat) : (Nat → Bool) → Nat → List Nat → Prop
  | _, _, [] => True
  | used, cursor, i :: rest => FirstFrom used n cursor i ∧
      InTurn n (Function.update used i true) i rest

section First

variable {used : Nat → Bool} {n cursor i : Nat} {found : List Nat}

theorem firstIdle_first {fuel : Nat} (inside : cursor < n)
    (run : firstIdle used n fuel cursor = some i) :
    ∃ d, d < fuel ∧ i = (cursor + d) % n ∧ ∀ e, e < d → used ((cursor + e) % n) = true := by
  induction fuel generalizing cursor with
  | zero => simp [firstIdle] at run
  | succ fuel ih =>
      unfold firstIdle at run
      split at run
      · next busy =>
          obtain ⟨d, small, place, before⟩ := ih (Nat.mod_lt _ (Nat.zero_lt_of_lt inside)) run
          refine ⟨d + 1, Nat.succ_lt_succ small, ?_, fun e earlier => ?_⟩
          · rw [place, Nat.mod_add_mod]
            congr 1
            omega
          · cases e with
            | zero => rwa [Nat.add_zero, Nat.mod_eq_of_lt inside]
            | succ e =>
                have here := before e (by omega)
                rw [Nat.mod_add_mod] at here
                rwa [show cursor + (e + 1) = cursor + 1 + e by omega]
      · obtain rfl := Option.some.inj run
        exact ⟨0, Nat.succ_pos _, (Nat.mod_eq_of_lt inside).symm,
          fun e none => absurd none (Nat.not_lt_zero e)⟩

theorem FirstFrom.lt (first : FirstFrom used n cursor i) : i < n := by
  obtain ⟨-, d, small, rfl, -⟩ := first
  exact Nat.mod_lt _ (Nat.zero_lt_of_lt small)

/-- Numbers that come in turn are distinct, and were all clear. -/
theorem InTurn.nodup (turn : InTurn n used cursor found) :
    found.Nodup ∧ ∀ i ∈ found, i < n ∧ used i = false := by
  induction found generalizing used cursor with
  | nil => exact ⟨List.nodup_nil, fun i member => by cases member⟩
  | cons i found ih =>
      obtain ⟨first, rest⟩ := turn
      obtain ⟨distinct, clear⟩ := ih rest
      have fresh : i ∉ found := fun member => by
        have taken := (clear i member).2
        rw [Function.update_self] at taken
        cases taken
      refine ⟨List.nodup_cons.mpr ⟨fresh, distinct⟩, fun j member => ?_⟩
      rcases List.mem_cons.mp member with rfl | later
      · exact ⟨first.lt, first.1⟩
      · obtain ⟨inside, still⟩ := clear j later
        rw [Function.update_of_ne fun same : j = i => fresh (same ▸ later)] at still
        exact ⟨inside, still⟩

end First

/-! ### Programs -/

section Programs

variable {ε σ α : Type}

/-- A program that many times, with the results. -/
def successive (x : EStateM ε σ α) : Nat → EStateM ε σ (List α)
  | 0 => pure []
  | k + 1 => do
    let a ← x
    let rest ← successive x k
    pure (a :: rest)

/-- A program for each of the values. -/
def each (f : α → EStateM ε σ PUnit) : List α → EStateM ε σ PUnit
  | [] => pure ⟨⟩
  | a :: rest => do
    f a
    each f rest

/-- The flags and the cursor of a state: they can be read and put, and nothing else is in them. -/
structure Table (σ : Type) where
  used : σ → Nat → Bool
  cursor : σ → Nat
  put : (Nat → Bool) → Nat → σ → σ
  used_put : ∀ u c s, used (put u c s) = u
  cursor_put : ∀ u c s, cursor (put u c s) = c
  put_put : ∀ u c u' c' s, put u c (put u' c' s) = put u c s
  put_same : ∀ s, put (used s) (cursor s) s = s

/-- **One allocation and one release**, of flags with the names `name`. -/
structure Allocates (table : Table σ) (n : Nat) (name : Nat → α) (alloc : EStateM ε σ α)
    (release : α → EStateM ε σ PUnit) : Prop where
  alloc : ∀ s i, firstIdle (table.used s) n n (table.cursor s) = some i →
    alloc s = .ok (name i) (table.put (Function.update (table.used s) i true) i s)
  release : ∀ s i, i < n →
    release (name i) s =
      .ok ⟨⟩ (table.put (Function.update (table.used s) i false) (table.cursor s) s)

variable {table : Table σ} {n : Nat} {name : Nat → α} {alloc : EStateM ε σ α}
  {release : α → EStateM ε σ PUnit} {s : σ}

/-- **Successive allocations** end as long as flags are clear, and set the flags they come to in
turn. -/
theorem Allocates.successive (allocates : Allocates table n name alloc release)
    (inside : table.cursor s < n) {k : Nat} (enough : k ≤ idleCount (table.used s) n) :
    ∃ found, found.length = k ∧ InTurn n (table.used s) (table.cursor s) found ∧
      Lib.successive alloc k s = .ok (found.map name)
        (table.put (fun i => table.used s i || decide (i ∈ found))
          (found.getLastD (table.cursor s)) s) := by
  induction k generalizing s with
  | zero =>
      refine ⟨[], rfl, trivial, ?_⟩
      have same : (fun i => table.used s i || decide (i ∈ ([] : List Nat))) = table.used s := by
        funext i
        simp
      rw [same]
      exact congrArg _ (table.put_same s).symm
  | succ k ih =>
      obtain ⟨clear, member⟩ := Finset.card_pos.mp (Nat.lt_of_lt_of_le (Nat.succ_pos k) enough)
      rw [Finset.mem_filter, Finset.mem_range, Bool.not_eq_true] at member
      obtain ⟨i, search⟩ := Option.isSome_iff_exists.mp (firstIdle_isSome inside member.1 member.2)
      have first : FirstFrom (table.used s) n (table.cursor s) i :=
        ⟨firstIdle_idle search, firstIdle_first inside search⟩
      have count := idleCount_set first.lt first.1
      obtain ⟨found, length, turn, run⟩ :=
        ih (s := table.put (Function.update (table.used s) i true) i s)
        (by rw [table.cursor_put]; exact first.lt) (by rw [table.used_put]; omega)
      rw [table.used_put, table.cursor_put] at turn run
      refine ⟨i :: found, by rw [List.length_cons, length], ⟨first, turn⟩, ?_⟩
      have flags : (fun j => Function.update (table.used s) i true j || decide (j ∈ found))
          = fun j => table.used s j || decide (j ∈ i :: found) := by
        funext j
        by_cases same : j = i
        · simp [same]
        · simp [same]
      rw [Lib.successive, run_bind (allocates.alloc s i search), run_bind run, table.put_put, flags]
      cases found <;> rfl

/-- **Releases** in any order clear the flags named. -/
theorem Allocates.releases (allocates : Allocates table n name alloc release) {back : List Nat}
    (inside : ∀ i ∈ back, i < n) :
    each release (back.map name) s
      = .ok ⟨⟩ (table.put (fun i => table.used s i && !decide (i ∈ back)) (table.cursor s) s) := by
  induction back generalizing s with
  | nil =>
      have same : (fun i => table.used s i && !decide (i ∈ ([] : List Nat))) = table.used s := by
        funext i
        simp
      rw [same]
      exact congrArg _ (table.put_same s).symm
  | cons i back ih =>
      have flags : (fun j => Function.update (table.used s) i false j && !decide (j ∈ back))
          = fun j => table.used s j && !decide (j ∈ i :: back) := by
        funext j
        by_cases same : j = i
        · simp [same]
        · simp [same]
      rw [List.map_cons, each, run_bind (allocates.release s i (inside i List.mem_cons_self)),
        ih fun j member => inside j (List.mem_cons_of_mem _ member), table.used_put,
        table.cursor_put, table.put_put, flags]

/-- **What an allocator is for**: with `k` flags clear, `k` allocations end with the names of
distinct numbers whose flags were clear, each the first one from where the last was found, and set
these flags and nothing else; and then giving names back, any of them in any order, clears the flags
of just these. -/
def Serves (table : Table σ) (n : Nat) (name : Nat → α) (alloc : EStateM ε σ α)
    (release : α → EStateM ε σ PUnit) : Prop :=
  ∀ s k, table.cursor s < n → k ≤ idleCount (table.used s) n → ∃ found s',
    found.length = k ∧ (found.map name).Nodup ∧ (∀ i ∈ found, i < n ∧ table.used s i = false) ∧
      InTurn n (table.used s) (table.cursor s) found ∧
        Lib.successive alloc k s = .ok (found.map name) s' ∧
      s' = table.put (fun i => table.used s i || decide (i ∈ found))
        (found.getLastD (table.cursor s)) s ∧
      ∀ back : List Nat, (∀ i ∈ back, i ∈ found) → each release (back.map name) s'
        = .ok ⟨⟩ (table.put (fun i => table.used s i || decide (i ∈ found ∧ i ∉ back))
          (table.cursor s') s')

theorem Allocates.serves (allocates : Allocates table n name alloc release) {number : α → Nat}
    (inverse : ∀ i, i < n → number (name i) = i) : Serves table n name alloc release := by
  intro s k inside enough
  obtain ⟨found, length, turn, run⟩ := allocates.successive inside enough
  obtain ⟨distinct, clear⟩ := turn.nodup
  refine ⟨found, _, length, ?_, clear, turn, run, rfl, fun back among => ?_⟩
  · refine distinct.map_on fun i here j there same => ?_
    rw [← inverse i (clear i here).1, same, inverse j (clear j there).1]
  · rw [allocates.releases fun i member => (clear i (among i member)).1, table.used_put]
    have flags : (fun i => (table.used s i || decide (i ∈ found)) && !decide (i ∈ back))
        = fun i => table.used s i || decide (i ∈ found ∧ i ∉ back) := by
      funext i
      by_cases given : i ∈ back
      · simp [given, (clear i (among i given)).2]
      · simp [given]
    rw [flags]

end Programs

end NjuOs.Lib
