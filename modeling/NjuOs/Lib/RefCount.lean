/-
**Reference counts with a free list.**

Each referrer of a finite set `S` points to at most one object: `f i`. `refs S f k` is the number of
referrers that point to `k`. `Balanced` says that a table of counts and a free list agree with the
pointers: an object is free exactly when nothing refers to it, and the count of every other one is
the number of its references, with `base k` of them that no pointer shows. The four operations of
such a table keep it: an object taken from the free list (`take`), one more reference to an object
(`share`), one reference fewer (`drop_more`), and the last one gone (`drop_last`).
-/

import Mathlib.Data.Finset.Card
import Mathlib.Logic.Function.Basic
import Mathlib.Tactic.Common

namespace NjuOs.Lib

variable {ι κ : Type} [DecidableEq κ] {S : Finset ι} {U : Finset κ}
  {f g : ι → Option κ} {i : ι} {k : κ}

/-- The number of referrers that point to `k`. -/
def refs (S : Finset ι) (f : ι → Option κ) (k : κ) : Nat := (S.filter fun i => f i = some k).card

theorem refs_congr (same : ∀ i ∈ S, f i = g i) (k : κ) : refs S f k = refs S g k := by
  unfold refs
  congr 1
  exact Finset.filter_congr fun i member => by rw [same i member]

theorem refs_pos (member : i ∈ S) (points : f i = some k) : 0 < refs S f k :=
  Finset.card_pos.mpr ⟨i, Finset.mem_filter.mpr ⟨member, points⟩⟩

/-- A referrer that pointed nowhere points to `k`. -/
theorem refs_add [DecidableEq ι] (member : i ∈ S) (idle : f i = none) (k k' : κ) :
    refs S (Function.update f i (some k)) k' = refs S f k' + if k' = k then 1 else 0 := by
  unfold refs
  have others : (S.erase i).filter (fun j => Function.update f i (some k) j = some k')
      = (S.erase i).filter fun j => f j = some k' :=
    Finset.filter_congr fun j inside => by
      rw [Function.update_of_ne (Finset.ne_of_mem_erase inside)]
  rw [← Finset.insert_erase member, Finset.filter_insert, Finset.filter_insert, others, idle,
    Function.update_self]
  by_cases same : k' = k
  · subst same
    simp
  · simp [same, Ne.symm same]

/-- A referrer that pointed to `k` points nowhere. -/
theorem refs_drop [DecidableEq ι] (member : i ∈ S) (points : f i = some k) (k' : κ) :
    refs S (Function.update f i none) k' + (if k' = k then 1 else 0) = refs S f k' := by
  have back := refs_add (f := Function.update f i none) member (by simp) k k'
  rw [Function.update_idem, ← points, Function.update_eq_self] at back
  exact back.symm

/-- **The counts and the free list agree with the pointers.** -/
structure Balanced (S : Finset ι) (U : Finset κ) (f : ι → Option κ) (base : κ → Nat)
    (count : κ → Int) (free : List κ) : Prop where
  nodup : free.Nodup
  known : ∀ k ∈ free, k ∈ U
  within : ∀ i ∈ S, ∀ k, f i = some k → k ∈ U
  free_iff : ∀ k ∈ U, k ∈ free ↔ refs S f k + base k = 0
  counts : ∀ k ∈ U, k ∉ free → count k = (refs S f k + base k : Nat)

namespace Balanced

variable {base : κ → Nat} {count count' : κ → Int} {free rest : List κ}

/-- An object that is pointed to is not free. -/
theorem not_free (balanced : Balanced S U f base count free) (member : i ∈ S)
    (points : f i = some k) :
    k ∉ free := fun idle => by
  have none := (balanced.free_iff k (balanced.known k idle)).mp idle
  have some := refs_pos member points
  omega

theorem congr (balanced : Balanced S U f base count free) (same : ∀ i ∈ S, g i = f i)
    (counts : ∀ k ∈ U, k ∉ free → count' k = count k) : Balanced S U g base count' free where
  nodup := balanced.nodup
  known := balanced.known
  within i member k points := balanced.within i member k (same i member ▸ points)
  free_iff k here := by
    rw [refs_congr same k]
    exact balanced.free_iff k here
  counts k here used := by
    rw [counts k here used, refs_congr same k]
    exact balanced.counts k here used

/-- The references of an object before one of them goes. -/
theorem count_pos (balanced : Balanced S U f base count free) (member : i ∈ S)
    (points : f i = some k) :
    count k = (refs S f k + base k : Nat) ∧ 0 < refs S f k :=
  ⟨balanced.counts k (balanced.within i member k points) (balanced.not_free member points),
    refs_pos member points⟩

variable [DecidableEq ι]

/-- **One more reference to an object in use.** -/
theorem share (balanced : Balanced S U f base count free) (member : i ∈ S) (idle : f i = none)
    (here : k ∈ U) (used : k ∉ free) (more : count' k = count k + 1)
    (others : ∀ k', k' ≠ k → count' k' = count k') :
    Balanced S U (Function.update f i (some k)) base count' free where
  nodup := balanced.nodup
  known := balanced.known
  within j there k' points := by
    by_cases same : j = i
    · subst same
      rw [Function.update_self] at points
      exact Option.some.inj points ▸ here
    · rw [Function.update_of_ne same] at points
      exact balanced.within j there k' points
  free_iff k' there := by
    rw [refs_add member idle, balanced.free_iff k' there]
    by_cases same : k' = k
    · subst same
      have busy := mt (balanced.free_iff k' here).mpr used
      simp only [if_true]
      omega
    · simp only [if_neg same]
      omega
  counts k' there used' := by
    rw [refs_add member idle]
    have old := balanced.counts k' there used'
    by_cases same : k' = k
    · subst same
      rw [more, old]
      push_cast
      simp only [if_true]
      omega
    · rw [others k' same, old]
      simp [same]

/-- **The first free object taken.** -/
theorem take (balanced : Balanced S U f base count (k :: rest)) (member : i ∈ S) (idle : f i = none)
    (one : count' k = 1) (others : ∀ k', k' ≠ k → count' k' = count k') :
    Balanced S U (Function.update f i (some k)) base count' rest where
  nodup := (List.nodup_cons.mp balanced.nodup).2
  known k' later := balanced.known k' (List.mem_cons_of_mem k later)
  within j there k' points := by
    by_cases same : j = i
    · subst same
      rw [Function.update_self] at points
      exact Option.some.inj points ▸ balanced.known k List.mem_cons_self
    · rw [Function.update_of_ne same] at points
      exact balanced.within j there k' points
  free_iff k' there := by
    rw [refs_add member idle]
    have old := balanced.free_iff k' there
    by_cases same : k' = k
    · subst same
      have gone := (List.nodup_cons.mp balanced.nodup).1
      simp [gone]
    · simpa [same] using old
  counts k' there used := by
    rw [refs_add member idle]
    by_cases same : k' = k
    · subst same
      have none := (balanced.free_iff k' there).mp List.mem_cons_self
      rw [one]
      simp only [if_true]
      omega
    · rw [others k' same, balanced.counts k' there (by simp [same, used])]
      simp [same]

/-- **One reference fewer**, with others left. -/
theorem drop_more (balanced : Balanced S U f base count free) (member : i ∈ S)
    (points : f i = some k) (left : count k ≠ 1) (fewer : count' k = count k - 1)
    (others : ∀ k', k' ≠ k → count' k' = count k') :
    Balanced S U (Function.update f i none) base count' free where
  nodup := balanced.nodup
  known := balanced.known
  within j there k' points' := by
    by_cases same : j = i
    · subst same
      simp at points'
    · rw [Function.update_of_ne same] at points'
      exact balanced.within j there k' points'
  free_iff k' there := by
    rw [balanced.free_iff k' there, ← refs_drop member points k']
    by_cases same : k' = k
    · subst same
      have total := balanced.count_pos member points
      have before := refs_drop member points k'
      simp only [if_true] at before ⊢
      omega
    · simp [same]
  counts k' there used := by
    have old := balanced.counts k' there used
    have before := refs_drop member points k'
    by_cases same : k' = k
    · subst same
      simp only [if_true] at before
      rw [fewer, old]
      omega
    · simp only [if_neg same] at before
      rw [others k' same, old]
      omega

/-- **The last reference gone**: the object is free. -/
theorem drop_last (balanced : Balanced S U f base count free) (member : i ∈ S)
    (points : f i = some k) (last : count k = 1) (others : ∀ k', k' ≠ k → count' k' = count k') :
    Balanced S U (Function.update f i none) base count' (k :: free) where
  nodup := List.nodup_cons.mpr ⟨balanced.not_free member points, balanced.nodup⟩
  known k' member' := by
    rcases List.mem_cons.mp member' with rfl | old
    · exact balanced.within i member k' points
    · exact balanced.known k' old
  within j there k' points' := by
    by_cases same : j = i
    · subst same
      simp at points'
    · rw [Function.update_of_ne same] at points'
      exact balanced.within j there k' points'
  free_iff k' there := by
    have before := refs_drop member points k'
    by_cases same : k' = k
    · subst same
      have total := balanced.count_pos member points
      simp only [if_true] at before
      simp only [List.mem_cons_self, true_iff]
      omega
    · rw [List.mem_cons, balanced.free_iff k' there]
      simp only [if_neg same] at before
      simp only [same, false_or]
      omega
  counts k' there used := by
    have before := refs_drop member points k'
    have same : k' ≠ k := fun same => used (same ▸ List.mem_cons_self)
    have old := balanced.counts k' there fun idle => used (List.mem_cons_of_mem k idle)
    simp only [if_neg same] at before
    rw [others k' same, old]
    omega

end Balanced

end NjuOs.Lib
