/-
**Resources with one owner each.**

Slots hold resources: `holds a f`. `Owned holds held used` says that no resource is in two slots,
that those in `held` are in none, and that `used` is exactly what is in a slot or held. The moves of
an allocator keep it: a resource is taken (`take`), put into an empty slot (`link`), and taken out
of its slot and given back (`release`) or not (`forget`).

Where the slots are those of several owners, one of them can be parted from the others (`part`), to
whom all that it does not have belongs, and joined with them again (`join`).
-/

import Mathlib.Data.Set.Insert
import Mathlib.Tactic.Common

namespace NjuOs.Lib

variable {ι φ : Type}

/-- **Nothing is held twice**: by two slots, or by a slot and from outside; and what is held is
marked. -/
structure Owned (holds : ι → φ → Prop) (held used : Set φ) : Prop where
  unique : ∀ a b f, holds a f → holds b f → a = b
  apart : ∀ a f, holds a f → f ∉ held
  marked : ∀ f, f ∈ used ↔ f ∈ held ∨ ∃ a, holds a f

/-- The slots of the owners in `live`, each with its owner. -/
def Among {κ : Type} (live : Set κ) (owns : κ → ι → φ → Prop) (slot : κ × ι) (f : φ) : Prop :=
  slot.1 ∈ live ∧ owns slot.1 slot.2 f

namespace Owned

variable {holds holds' : ι → φ → Prop} {held used : Set φ} {a : ι} {f : φ}

theorem used_of_holds (owned : Owned holds held used) (here : holds a f) : f ∈ used :=
  (owned.marked f).mpr (.inr ⟨a, here⟩)

theorem used_of_held (owned : Owned holds held used) (here : f ∈ held) : f ∈ used :=
  (owned.marked f).mpr (.inl here)

theorem congr (owned : Owned holds held used) (same : ∀ b g, holds' b g ↔ holds b g) :
    Owned holds' held used := by
  have equal : holds' = holds := by
    funext b g
    exact propext (same b g)
  rw [equal]
  exact owned

/-- A resource that was not in use is held. -/
theorem take (owned : Owned holds held used) (free : f ∉ used) :
    Owned holds (insert f held) (insert f used) := by
  refine ⟨owned.unique, fun b g here member => ?_, fun g => ?_⟩
  · rcases member with rfl | member
    · exact free (owned.used_of_holds here)
    · exact owned.apart b g here member
  · rw [Set.mem_insert_iff, Set.mem_insert_iff, owned.marked g, or_assoc]

/-- A held resource goes into a slot. -/
theorem link (owned : Owned holds (insert f held) used) (free : f ∉ held)
    (entered : ∀ b g, holds' b g ↔ holds b g ∨ b = a ∧ g = f) : Owned holds' held used := by
  have nowhere : ∀ b, ¬ holds b f := fun b here => owned.apart b f here (Set.mem_insert f held)
  refine ⟨fun b c g first second => ?_, fun b g here member => ?_, fun g => ?_⟩
  · rcases (entered b g).mp first with first | ⟨rfl, rfl⟩
    · rcases (entered c g).mp second with second | ⟨rfl, rfl⟩
      · exact owned.unique b c g first second
      · exact (nowhere b first).elim
    · rcases (entered c g).mp second with second | ⟨rfl, _⟩
      · exact (nowhere c second).elim
      · rfl
  · rcases (entered b g).mp here with here | ⟨_, rfl⟩
    · exact owned.apart b g here (Set.mem_insert_of_mem f member)
    · exact free member
  · rw [owned.marked g, Set.mem_insert_iff]
    constructor
    · rintro ((rfl | member) | ⟨b, here⟩)
      · exact .inr ⟨a, (entered a g).mpr (.inr ⟨rfl, rfl⟩)⟩
      · exact .inl member
      · exact .inr ⟨b, (entered b g).mpr (.inl here)⟩
    · rintro (member | ⟨b, here⟩)
      · exact .inl (.inr member)
      · rcases (entered b g).mp here with here | ⟨_, rfl⟩
        · exact .inr ⟨b, here⟩
        · exact .inl (.inl rfl)

/-- A resource is taken out of its slot and given back. -/
theorem release (owned : Owned holds held used) (here : holds a f) (one : ∀ g, holds a g → g = f)
    (left : ∀ b g, holds' b g ↔ holds b g ∧ b ≠ a) : Owned holds' held (used \ {f}) := by
  refine ⟨fun b c g first second => ?_, fun b g there => ?_, fun g => ?_⟩
  · exact owned.unique b c g ((left b g).mp first).1 ((left c g).mp second).1
  · exact owned.apart b g ((left b g).mp there).1
  · rw [Set.mem_sdiff, Set.mem_singleton_iff, owned.marked g]
    constructor
    · rintro ⟨member | ⟨b, there⟩, other⟩
      · exact .inl member
      · refine .inr ⟨b, (left b g).mpr ⟨there, ?_⟩⟩
        rintro rfl
        exact other (one g there)
    · rintro (member | ⟨b, there⟩)
      · refine ⟨.inl member, ?_⟩
        rintro rfl
        exact owned.apart a g here member
      · obtain ⟨there, other⟩ := (left b g).mp there
        refine ⟨.inr ⟨b, there⟩, ?_⟩
        rintro rfl
        exact other (owned.unique b a g there here)

/-- Some slots are emptied, and what was in them stays in use. -/
theorem forget {gone : ι → Prop} (owned : Owned holds held used)
    (left : ∀ b g, holds' b g ↔ holds b g ∧ ¬ gone b) :
    Owned holds' (held ∪ {g | ∃ b, gone b ∧ holds b g}) used := by
  refine ⟨fun b c g first second => ?_, fun b g here member => ?_, fun g => ?_⟩
  · exact owned.unique b c g ((left b g).mp first).1 ((left c g).mp second).1
  · obtain ⟨here, stays⟩ := (left b g).mp here
    rcases member with member | ⟨c, leaves, there⟩
    · exact owned.apart b g here member
    · rw [owned.unique b c g here there] at stays
      exact stays leaves
  · rw [owned.marked g, Set.mem_union, or_assoc]
    refine or_congr_right ⟨?_, ?_⟩
    · rintro ⟨b, here⟩
      by_cases leaves : gone b
      · exact .inl ⟨b, leaves, here⟩
      · exact .inr ⟨b, (left b g).mpr ⟨here, leaves⟩⟩
    · rintro (⟨b, _, here⟩ | ⟨b, here⟩)
      · exact ⟨b, here⟩
      · exact ⟨b, ((left b g).mp here).1⟩

/-! ### Several owners -/

variable {κ : Type} {live : Set κ} {owns : κ → ι → φ → Prop} {q : κ} {others : Set φ}

/-- One owner beside the others, to whom all it does not have belongs. -/
theorem join (owned : Owned (Among live owns) ∅ others) (one : Owned (owns q) others used) :
    Owned (Among (insert q live) owns) ∅ used := by
  have theirs : ∀ slot g, Among live owns slot g → g ∈ others :=
    fun slot g here => owned.used_of_holds here
  refine ⟨fun a b g first second => ?_, fun _ _ _ => Set.notMem_empty _, fun g => ?_⟩
  · obtain ⟨first | first, here⟩ := first
    · obtain ⟨second | second, there⟩ := second
      · have same := one.unique a.2 b.2 g (first ▸ here) (second ▸ there)
        exact Prod.ext (first.trans second.symm) same
      · exact absurd (theirs b g ⟨second, there⟩) (one.apart a.2 g (first ▸ here))
    · obtain ⟨second | second, there⟩ := second
      · exact absurd (theirs a g ⟨first, here⟩) (one.apart b.2 g (second ▸ there))
      · exact owned.unique a b g ⟨first, here⟩ ⟨second, there⟩
  · rw [one.marked g, owned.marked g]
    constructor
    · rintro ((nothing | ⟨slot, member, here⟩) | ⟨a, here⟩)
      · exact .inl nothing
      · exact .inr ⟨slot, .inr member, here⟩
      · exact .inr ⟨(q, a), .inl rfl, here⟩
    · rintro (nothing | ⟨⟨r, a⟩, member | member, here⟩)
      · exact .inl (.inl nothing)
      · exact .inr ⟨a, (show r = q from member) ▸ here⟩
      · exact .inl (.inr ⟨(r, a), member, here⟩)

/-- One of the owners, and the others. -/
theorem part (owned : Owned (Among (insert q live) owns) ∅ used) (new : q ∉ live) :
    ∃ others, Owned (Among live owns) ∅ others ∧ Owned (owns q) others used := by
  refine ⟨{g | ∃ slot, Among live owns slot g},
    ⟨fun a b g first second => ?_, fun _ _ _ => Set.notMem_empty _, fun g => ?_⟩,
    ⟨fun a b g first second => ?_, fun a g here => ?_, fun g => ?_⟩⟩
  · exact owned.unique a b g ⟨.inr first.1, first.2⟩ ⟨.inr second.1, second.2⟩
  · exact ⟨.inr, fun here => here.resolve_left (Set.notMem_empty g)⟩
  · exact congrArg Prod.snd (owned.unique (q, a) (q, b) g ⟨.inl rfl, first⟩ ⟨.inl rfl, second⟩)
  · rintro ⟨slot, member, there⟩
    have same := owned.unique (q, a) slot g ⟨.inl rfl, here⟩ ⟨.inr member, there⟩
    exact new (by rw [← same] at member; exact member)
  · rw [owned.marked g]
    constructor
    · rintro (nothing | ⟨⟨r, a⟩, member | member, here⟩)
      · exact (Set.notMem_empty g nothing).elim
      · exact .inr ⟨a, (show r = q from member) ▸ here⟩
      · exact .inl ⟨(r, a), member, here⟩
    · rintro (⟨slot, member, here⟩ | ⟨a, here⟩)
      · exact .inr ⟨slot, .inr member, here⟩
      · exact .inr ⟨(q, a), .inl rfl, here⟩

end Owned

end NjuOs.Lib
