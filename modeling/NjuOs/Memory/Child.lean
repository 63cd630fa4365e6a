/-
**The address space of a child.**

`handle_child` lays out the kernel's part of the child's directory and copies every table and every
page of its parent between 16 MB and `0xC0000000`, each into a new frame. What is assumed of the
parent is that `page_bitmap` marks the frames its directory and tables name there (`Source`); its
frames need not be its own.

A turn over an entry of a table (`copyPage_turn`) gives the place its frame and its content, the
loop over a table (`copyPages_ends`) all the places of one table, and the loop over the directory
(`copyTables_ends`) all of them. Every frame that is written was free, so the parent is only read,
and afterwards neither sees what the other writes (`Forked`, `handleChild_ends`). What fails is only
the search for a frame.
-/

import NjuOs.Memory.Growth
import Mathlib.Data.Nat.Count
import Mathlib.Algebra.BigOperators.Group.Finset.Basic
import Mathlib.Algebra.Order.BigOperators.Group.Finset

namespace NjuOs.Memory

open NjuOs.Lib

/-- The frames that the parent's directory and tables name are marked. -/
structure Source (T : Nat → Nat → Option Nat) (d : Nat) (held : Set Nat) : Prop where
  marked : ∀ (a : Place) f, 4 ≤ a.index → reach T d a = some f → f ∈ held

/-- The frames a copy of table `i` takes, with its pages. -/
def tableFrames (T : Nat → Nat → Option Nat) (d i : Nat) : Nat :=
  (if (reach T d (.table i)).isSome then 1 else 0) +
  Nat.count (fun j => (reach T d (.page i j)).isSome) 1024

/-- The frames a copy of the tables from number 4 on takes, `n` of them. -/
def spaceFrames (T : Nat → Nat → Option Nat) (d n : Nat) : Nat :=
  ∑ i ∈ Finset.range n, tableFrames T d (i + 4)

/-- Frame `g` holds now what frame `f` held then. -/
def SameFrame (ram : Store) (f : Nat) (ram' : Store) (g : Nat) : Prop :=
  ∀ k, k < 4096 → ram' (g * pageSize + k) = ram (f * pageSize + k)

theorem tableFrames_none {T : Nat → Nat → Option Nat} {d i : Nat}
    (nothing : ∀ a : Place, a.index = i → reach T d a = none) :
    tableFrames T d i = 0 := by
  unfold tableFrames
  rw [nothing (.table i) rfl, if_neg (by simp)]
  have none : Nat.count (fun j => (reach T d (.page i j)).isSome) 1024 = 0 :=
      Nat.count_of_forall_not fun j _ => by
    rw [nothing (.page i j) rfl]
    exact Bool.false_ne_true
  rw [none]

section Copy

variable {d e i j n p t : Nat} {held : Set Nat} {s s₀ s' : MemoryState}

/-- One entry of a table: a page for the child, with the parent's bytes. -/
theorem copyPage_turn (owns : Owns d held s) (user : 4 ≤ i ∧ i < 768) (inside : j < 1024)
    (entry : tables s.ram d i = some t) (empty : tables s.ram t j = none) (table : p < 32768)
    (pages : ∀ f, tables s.ram p j = some f → f < 32768)
    (room : Room (if (tables s.ram p j).isSome then 1 else 0) s) :
    ∃ s', copyPage (p * pageSize) (t * pageSize) j s = .ok ⟨⟩ s' ∧
      Grows d 768 held {a | a = .page i j ∧ (tables s.ram p j).isSome}
        (if (tables s.ram p j).isSome then 1 else 0) s s' ∧
      ∀ f, tables s.ram p j = some f → ∃ g, reach (tables s'.ram) d (.page i j) = some g ∧
      SameFrame s.ram f s'.ram g := by
  obtain ⟨w, load, word⟩ := load_entry (s := s) (At.direct table) inside
  unfold copyPage
  rw [run_bind load]
  cases source : tables s.ram p j with
  | none =>
      rw [source] at word
      rw [named_eq_none.mp word, if_neg Bool.false_ne_true]
      refine ⟨s, rfl, (Grows.refl owns).places_eq (by simp), fun f none => by cases none⟩
  | some f =>
      rw [source] at word room
      have below := pages f source
      rw [(named_eq_some.mp word).1, if_pos rfl, (named_eq_some.mp word).2]
      obtain ⟨g, s', run, grows, reached, content⟩ :=
        newPage_grows (fun A => memcpy A (f * pageSize) pageSize)
        (fun g ram => ram.write (g * pageSize) (ram.read (f * pageSize) pageSize)) owns room user
        inside entry empty
        fun g s₁ takes => by
          have range := takes.range
          refine ⟨?_, ?_⟩
          · rw [memcpy_at (kernelPa_direct (by unfold pageSize physMem; omega))
              (kernelPa_direct (by unfold pageSize physMem; omega)), takes.ram]
            rfl
          · have within :
              Within
              g s.ram (s.ram.write (g * pageSize + 0) (s.ram.read (f * pageSize) pageSize)) :=
              within_write (by rw [Store.read_length]; unfold pageSize; omega)
            rwa [Nat.add_zero] at within
      refine ⟨s', run, grows.places_eq (by simp), fun f' same => ⟨g, reached, fun k small => ?_⟩⟩
      cases same
      rw [content _ (by unfold frameOf pageSize; omega),
        Store.write_inside (by rw [Store.read_length]; exact small)]
      exact Store.read_getD small

/-- Without a frame for the page the search never ends. -/
theorem copyPage_full (cursor : s.bitmapIdx < pageNum) (inside : j < 1024) (table : p < 32768)
    (full : ¬ Room (if (tables s.ram p j).isSome then 1 else 0) s) :
    copyPage (p * pageSize) (t * pageSize) j s = .error .hang s := by
  obtain ⟨w, load, word⟩ := load_entry (s := s) (At.direct table) inside
  unfold copyPage
  rw [run_bind load]
  cases source : tables s.ram p j with
  | none =>
      rw [source] at full
      exact absurd room_zero full
  | some f =>
      rw [source] at word full
      rw [(named_eq_some.mp word).1, if_pos rfl]
      exact run_bind_error (getIdlePage_full cursor full)

/-- The parent's entries are read as they were. -/
theorem Grows.row {top : Nat} {P : Set Place} (grows : Grows d top held P n s₀ s)
    (owns : Owns d held s₀) (here : p ∈ held) :
    tables s.ram p = tables s₀.ram p :=
  tables_congr p fun _ inside => grows.held_bytes owns (inside ▸ here)

/-- A frame that holds a copy does so after a growth. -/
theorem SameFrame.grows {top f g : Nat} {P : Set Place} {ram : Store}
    (same : SameFrame ram f s₀.ram g) (grows : Grows d top held P n s₀ s) (owns : Owns d held s₀)
    (here : reach (tables s₀.ram) d (.page i j) = some g) :
    SameFrame ram f s.ram g := by
  intro k small
  have frame : frameOf (g * pageSize + k) = g := by
    unfold frameOf pageSize
    omega
  rw [grows.page_bytes owns (by rw [frame]; exact here), same k small]

/-- Another frame with the same bytes was copied. -/
theorem SameFrame.source {f g : Nat} {ram ram₀ ram' : Store} (same : SameFrame ram f ram' g)
    (bytes : ∀ x, frameOf x = f → ram x = ram₀ x) : SameFrame ram₀ f ram' g := by
  intro k small
  rw [same k small, bytes _ (by unfold frameOf pageSize; omega)]

/-- **The loop over a table.** -/
theorem copyPages_ends (owns : Owns d held s) (user : 4 ≤ i ∧ i < 768)
    (entry : tables s.ram d i = some t) (empty : ∀ j, tables s.ram t j = none) (table : p ∈ held)
    (pages : ∀ j f, tables s.ram p j = some f → f ∈ held) :
    Ends (loop (copyPage (p * pageSize) (t * pageSize)) 1024 0) s (fun _ s' =>
      Grows d 768 held {a | ∃ j, j < 1024 ∧ a = .page i j ∧ (tables s.ram p j).isSome}
        (Nat.count (fun j => (tables s.ram p j).isSome) 1024) s s' ∧
      ∀ j f, j < 1024 → tables s.ram p j = some f →
        ∃ g, reach (tables s'.ram) d (.page i j) = some g ∧ SameFrame s.ram f s'.ram g)
      fun _ _ => ¬ Room (Nat.count (fun j => (tables s.ram p j).isSome) 1024) s := by
  have nothing : ∀ j, reach (tables s.ram) d (.page i j) = none :=
    fun j => by rw [reach_page user entry, empty]
  have turns : Ends (loop (copyPage (p * pageSize) (t * pageSize)) 1024 0) s (fun _ s' =>
      Grows d 768 held {a | ∃ j, j < 0 + 1024 ∧ a = .page i j ∧ (tables s.ram p j).isSome}
        (Nat.count (fun j => (tables s.ram p j).isSome) (0 + 1024)) s s' ∧
      ∀ j f, j < 0 + 1024 → tables s.ram p j = some f →
        ∃ g, reach (tables s'.ram) d (.page i j) = some g ∧ SameFrame s.ram f s'.ram g)
      fun _ _ => ¬ Room (Nat.count (fun j => (tables s.ram p j).isSome) 1024) s := by
    refine Ends.loop (fun n s' => Grows d 768 held {a | ∃ j, j < n ∧ a = .page i j ∧
      (tables s.ram p j).isSome}
        (Nat.count (fun j => (tables s.ram p j).isSome) n) s s' ∧
      ∀ j f, j < n → tables s.ram p j = some f →
        ∃ g, reach (tables s'.ram) d (.page i j) = some g ∧ SameFrame s.ram f s'.ram g) ⟨?_, ?_⟩ ?_
    · refine (Grows.refl owns).places_eq fun a => ⟨fun member => member.elim, ?_⟩
      rintro ⟨j, small, _⟩
      exact absurd small (Nat.not_lt_zero j)
    · exact fun j f small => absurd small (Nat.not_lt_zero j)
    · rintro n s₁ - small ⟨grows, copied⟩
      have row := grows.row owns table
      have entry₁ := (reach_table_eq_some.mp
        (grows.kept _ _ (reach_table_eq_some.mpr ⟨user.2, entry⟩))).2
      have empty₁ : tables s₁.ram t n = none := by
        rw [← reach_page user entry₁, grows.places _ (nothing n)]
        rintro ⟨j, before, same, _⟩
        cases same
        omega
      have count : Nat.count (fun j => (tables s.ram p j).isSome) (n + 1) ≤
        Nat.count (fun j => (tables s.ram p j).isSome) 1024 :=
        Nat.count_monotone _ (by omega)
      rw [Nat.count_succ] at count
      have below := (used_range (owns.owned.used_of_held table)).2
      by_cases room₁ : Room (if (tables s₁.ram p n).isSome then 1 else 0) s₁
      case neg =>
        refine .error (copyPage_full grows.cursor (by omega) below room₁) fun more => room₁ ?_
        rw [row, grows.room]
        exact le_trans (by omega) more
      obtain ⟨s₂, run, next, content⟩ :=
        copyPage_turn grows.toOwns user (by omega) entry₁ empty₁ below
        (fun f here => (used_range (owns.owned.used_of_held (pages n f (row ▸ here)))).2) room₁
      rw [row] at next content
      refine .ok run ⟨?_, fun j f before here => ?_⟩
      · rw [Nat.count_succ]
        refine (grows.trans next).places_eq fun a => ?_
        constructor
        · rintro (⟨j, before, rfl, here⟩ | ⟨rfl, here⟩)
          · exact ⟨j, by omega, rfl, here⟩
          · exact ⟨n, by omega, rfl, here⟩
        · rintro ⟨j, before, rfl, here⟩
          by_cases last : j = n
          · exact .inr ⟨by rw [last], last ▸ here⟩
          · exact .inl ⟨j, by omega, rfl, here⟩
      · by_cases last : j = n
        · subst last
          obtain ⟨g, reached, same⟩ := content f here
          exact ⟨g, reached,
            same.source fun x inside => grows.held_bytes owns (inside ▸ pages j f here)⟩
        · obtain ⟨g, reached, same⟩ := copied j f (by omega) here
          exact ⟨g, next.kept _ _ reached, same.grows next grows.toOwns reached⟩
  rwa [Nat.zero_add] at turns

/-- **One entry of the directory**, with its table. -/
theorem copyTable_ends (owns : Owns d held s) (kernel : e < 4096)
    (source : Source (tables s.ram) e held) (user : 4 ≤ i ∧ i < 768)
    (empty : tables s.ram d i = none) :
    Ends (copyTable (e * pageSize) (d * pageSize) i) s (fun _ s' =>
      Grows d 768 held {a | a.index = i ∧ (reach (tables s.ram) e a).isSome}
        (tableFrames (tables s.ram) e i) s s' ∧
      ∀ j f, reach (tables s.ram) e (.page i j) = some f →
        ∃ g, reach (tables s'.ram) d (.page i j) = some g ∧ SameFrame s.ram f s'.ram g)
      fun _ _ => ¬ Room (tableFrames (tables s.ram) e i) s := by
  obtain ⟨w, load, word⟩ :=
    load_entry (s := s) (At.direct (show e < 32768 by omega)) (show i < 1024 by omega)
  unfold copyTable
  refine .bind_ok load ?_
  cases entry : tables s.ram e i with
  | none =>
      have nothing : ∀ a : Place, a.index = i → reach (tables s.ram) e a = none := by
        intro a index
        cases a with
        | table k =>
            obtain rfl : k = i := index
            rw [reach_table user.2, entry]
        | page k j =>
            obtain rfl : k = i := index
            rw [reach_page_def, if_pos user, entry]
            rfl
      rw [entry] at word
      rw [named_eq_none.mp word, if_neg Bool.false_ne_true, tableFrames_none nothing]
      refine .pure ⟨(Grows.refl owns).places_eq fun a => ⟨fun member => member.elim, ?_⟩,
        fun j f here => ?_⟩
      · rintro ⟨index, some⟩
        rw [nothing a index] at some
        cases some
      · rw [nothing (.page i j) rfl] at here
        cases here
  | some p =>
      have pages : ∀ j, reach (tables s.ram) e (.page i j) = tables s.ram p j :=
        fun j => reach_page user entry
      have table : p ∈ held :=
        source.marked (.table i) p user.1 (reach_table_eq_some.mpr ⟨user.2, entry⟩)
      rw [entry] at word
      rw [(named_eq_some.mp word).1, if_pos rfl, (named_eq_some.mp word).2]
      unfold tableFrames at *
      rw [reach_table user.2, entry]
      simp only [pages, Option.isSome_some, if_true]
      have directory : d < 32768 := by
        have low := owns.low
        omega
      by_cases room : Room 1 s
      case neg =>
        exact .error (run_bind_error (newTable_full owns.cursor room)) fun more =>
          room (le_trans (by omega) more)
      obtain ⟨t, s₁, run, first, entry₁, clear⟩ :=
        newTable_grows (.direct directory) owns room user.2 empty
      have row := first.row owns table
      have turns := copyPages_ends first.toOwns user entry₁ clear table
        fun j f here => source.marked (.page i j) f user.1 (by rw [pages, ← row, here])
      rw [row] at turns
      refine .bind_ok run (turns.mono ?_ fun _ _ full more => full ?_)
      case refine_2 =>
        rwa [first.room, Nat.add_comm]
      rintro _ s' ⟨second, copied⟩
      refine ⟨(first.trans second).places_eq fun a => ?_, fun j f here => ?_⟩
      · constructor
        · rintro (rfl | ⟨j, _, rfl, here⟩)
          · refine ⟨rfl, ?_⟩
            rw [reach_table user.2, entry]
            rfl
          · exact ⟨rfl, by rw [pages]; exact here⟩
        · rintro ⟨index, here⟩
          cases a with
          | table k =>
              obtain rfl : k = i := index
              exact .inl rfl
          | page k j =>
              obtain rfl : k = i := index
              rw [pages] at here
              obtain ⟨f, named⟩ := Option.isSome_iff_exists.mp here
              exact .inr ⟨j, tables_small named, rfl, here⟩
      · obtain ⟨g, reached, same⟩ := copied j f (tables_small here) here
        exact ⟨g, reached, same.source fun x inside =>
          first.held_bytes owns (inside ▸ source.marked (.page i j) f user.1 (by rw [pages, here]))⟩

/-- Where the parent's directory and the marked frames are as they were, its places name what they
named. -/
theorem Source.reach_eq {ram r : Store} (source : Source (tables ram) e held)
    (same : ∀ x, frameOf x = e ∨ frameOf x ∈ held → r x = ram x) (a : Place) (user : 4 ≤ a.index) :
    reach (tables r) e a = reach (tables ram) e a := by
  have own : tables r e = tables ram e := tables_congr e fun x inside => same x (.inl inside)
  cases a with
  | table i => rw [reach_table_def, reach_table_def, own]
  | page i j =>
      rw [reach_page_def, reach_page_def, own]
      split
      · next inside =>
        cases entry : tables ram e i with
        | none => rfl
        | some t =>
            have table : t ∈ held :=
              source.marked (.table i) t user (reach_table_eq_some.mpr ⟨inside.2, entry⟩)
            rw [Option.bind_some, Option.bind_some,
              tables_congr t fun x here => same x (.inr (here ▸ table))]
      · rfl

theorem Source.congr {ram r : Store} (source : Source (tables ram) e held)
    (same : ∀ x, frameOf x = e ∨ frameOf x ∈ held → r x = ram x) : Source (tables r) e held :=
  ⟨fun a f user here => source.marked a f user (source.reach_eq same a user ▸ here)⟩

theorem Source.tableFrames_eq {ram r : Store} (source : Source (tables ram) e held)
    (same : ∀ x, frameOf x = e ∨ frameOf x ∈ held → r x = ram x) (user : 4 ≤ i) :
    tableFrames (tables r) e i = tableFrames (tables ram) e i := by
  unfold tableFrames
  rw [source.reach_eq same (.table i) user]
  simp only [fun j => source.reach_eq same (.page i j) user]

/-- **The loop over the directory.** -/
theorem copyTables_ends (owns : Owns d held s) (kernel : e < 4096) (other : e ≠ d)
    (source : Source (tables s.ram) e held)
    (empty : ∀ a : Place, 4 ≤ a.index → reach (tables s.ram) d a = none) :
    Ends (loop (copyTable (e * pageSize) (d * pageSize)) 764 4) s (fun _ s' =>
      Grows d 768 held {a | 4 ≤ a.index ∧ a.index < 768 ∧ (reach (tables s.ram) e a).isSome}
        (spaceFrames (tables s.ram) e 764) s s' ∧
      ∀ i j f, 4 ≤ i → i < 768 → reach (tables s.ram) e (.page i j) = some f →
        ∃ g, reach (tables s'.ram) d (.page i j) = some g ∧ SameFrame s.ram f s'.ram g)
      fun _ _ => ¬ Room (spaceFrames (tables s.ram) e 764) s := by
  have turns : Ends (loop (copyTable (e * pageSize) (d * pageSize)) 764 4) s (fun _ s' =>
      Grows d 768 held {a | 4 ≤ a.index ∧ a.index < 4 + 764 ∧ (reach (tables s.ram) e a).isSome}
        (spaceFrames (tables s.ram) e (4 + 764 - 4)) s s' ∧
      ∀ i j f, 4 ≤ i → i < 4 + 764 → reach (tables s.ram) e (.page i j) = some f →
        ∃ g, reach (tables s'.ram) d (.page i j) = some g ∧ SameFrame s.ram f s'.ram g)
      fun _ _ => ¬ Room (spaceFrames (tables s.ram) e 764) s := by
    refine Ends.loop (fun n s' => Grows d 768 held {a | 4 ≤ a.index ∧ a.index < n ∧
      (reach (tables s.ram) e a).isSome}
        (spaceFrames (tables s.ram) e (n - 4)) s s' ∧
      ∀ i j f, 4 ≤ i → i < n → reach (tables s.ram) e (.page i j) = some f →
        ∃ g, reach (tables s'.ram) d (.page i j) = some g ∧ SameFrame s.ram f s'.ram g) ⟨?_, ?_⟩ ?_
    · refine (Grows.refl owns).places_eq fun a => ⟨fun member => member.elim, ?_⟩
      rintro ⟨low, high, _⟩
      exact absurd high (by omega)
    · exact fun i j f low high => absurd high (by omega)
    · rintro n s₁ low high ⟨grows, copied⟩
      have same : ∀ x, frameOf x = e ∨ frameOf x ∈ held → s₁.ram x = s.ram x := by
        rintro x (here | here)
        · exact grows.kernel_bytes (here ▸ kernel) (here ▸ other)
        · exact grows.held_bytes owns here
      have empty₁ : tables s₁.ram d n = none := by
        have nowhere := grows.reach_other (a := .table n)
          (fun member => absurd member.2.1 (Nat.lt_irrefl n))
        rw [empty (.table n) low, reach_table (by omega)] at nowhere
        exact nowhere
      have total : spaceFrames (tables s.ram) e (n - 4) + tableFrames (tables s.ram) e n ≤
          spaceFrames (tables s.ram) e 764 := by
        have next : spaceFrames (tables s.ram) e (n - 4 + 1) ≤ spaceFrames (tables s.ram) e 764 :=
          Finset.sum_le_sum_of_subset (Finset.range_mono (by omega))
        unfold spaceFrames at next ⊢
        rw [Finset.sum_range_succ, show n - 4 + 4 = n by omega] at next
        exact next
      have cost := source.tableFrames_eq same low
      have turn := copyTable_ends grows.toOwns kernel (source.congr same) ⟨low, by omega⟩ empty₁
      rw [cost] at turn
      refine turn.mono ?_ fun _ _ full more => full ((grows.room _).mpr (le_trans (by omega) more))
      rintro _ s₂ ⟨turn, content⟩
      refine ⟨?_, fun i j f user before here => ?_⟩
      · have frames : spaceFrames (tables s.ram) e (n + 1 - 4)
            = spaceFrames (tables s.ram) e (n - 4) + tableFrames (tables s.ram) e n := by
          unfold spaceFrames
          rw [show n + 1 - 4 = n - 4 + 1 by
            omega, Finset.sum_range_succ, show n - 4 + 4 = n by omega]
        rw [frames]
        refine (grows.trans turn).places_eq fun a => ?_
        constructor
        · rintro (⟨user, before, here⟩ | ⟨index, here⟩)
          · exact ⟨user, by omega, here⟩
          · have user : 4 ≤ a.index := by omega
            rw [source.reach_eq same a user] at here
            exact ⟨user, by omega, here⟩
        · rintro ⟨user, before, here⟩
          by_cases last : a.index = n
          · exact .inr ⟨last, by rwa [source.reach_eq same a user]⟩
          · exact .inl ⟨user, by omega, here⟩
      · by_cases last : i = n
        · subst last
          obtain ⟨g, reached, frame⟩ :=
            content j f (by rw [source.reach_eq same (.page i j) user, here])
          exact ⟨g, reached, frame.source fun x inside =>
            same x (.inr (inside ▸ source.marked (.page i j) f user here))⟩
        · obtain ⟨g, reached, frame⟩ := copied i j f user (by omega) here
          exact ⟨g, turn.kept _ _ reached, frame.grows turn grows.toOwns reached⟩
  rwa [show 4 + 764 - 4 = 764 by omega, show 4 + 764 = 768 by omega] at turns

/-! ### The child -/

/-- The byte a process reads at an address. -/
def view (ram : Store) (d va : Nat) : Option UInt8 := (translate (tables ram) d va).map ram

/-- **What `fork` is to do with the address space.** -/
structure Forked (parent child : Nat) (s s' : MemoryState) : Prop where
  mapping : ∀ va, kernelMem ≤ va → va < kOffset → view s'.ram child va = view s.ram parent va
  distinct : ∀ a b f, reach (tables s'.ram) child a = some f →
    reach (tables s'.ram) child b = some f → a = b
  fresh : ∀ a f, reach (tables s'.ram) child a = some f → f ∉ usedFrames s ∧ f ∈ usedFrames s'
  kernel : KernelMapped (tables s'.ram) child
  unchanged : ∀ x, frameOf x = parent ∨ frameOf x ∈ usedFrames s → s'.ram x = s.ram x
  child_writes : ∀ va pa v, kernelMem ≤ va → va < kOffset →
    translate (tables s'.ram) child va = some pa →
    ∀ va', kernelMem ≤ va' → va' < kOffset → view (Function.update s'.ram pa v) parent va' =
      view s'.ram parent va'
  parent_writes : ∀ va pa v, kernelMem ≤ va → va < kOffset →
    translate (tables s'.ram) parent va = some pa →
    ∀ va', kernelMem ≤ va' → va' < kOffset → view (Function.update s'.ram pa v) child va' =
      view s'.ram child va'

/-- Where the directory and the frames it names are as they were, a process reads what it read. -/
theorem Source.view_eq {ram r : Store} {va : Nat} (source : Source (tables ram) e held)
    (same : ∀ x, frameOf x = e ∨ frameOf x ∈ held → r x = ram x) (low : kernelMem ≤ va)
    (high : va < kOffset) :
    view r e va = view ram e va := by
  have user : 4 ≤ (Place.pageAt (va / 4096)).index := by
    show 4 ≤ va / 4096 / 1024
    unfold kernelMem at low
    omega
  unfold view
  rw [translate_user low high, translate_user low high, source.reach_eq same _ user]
  cases here : reach (tables ram) e (.pageAt (va / 4096)) with
  | none => rfl
  | some f =>
      have frame : frameOf (f * pageSize + va % 4096) = f := by
        unfold frameOf pageSize
        omega
      have inside : frameOf (f * pageSize + va % 4096) ∈ held := by
        rw [frame]
        exact source.marked _ f user here
      simp only [Option.map_some]
      rw [same _ (.inr inside)]

/-- The frame of an address that a process writes to. -/
theorem Source.written {ram : Store} {va pa : Nat} (source : Source (tables ram) e held)
    (low : kernelMem ≤ va) (high : va < kOffset) (found : translate (tables ram) e va = some pa) :
    frameOf pa ∈ held := by
  rw [translate_user low high] at found
  obtain ⟨f, here, rfl⟩ := Option.map_eq_some_iff.mp found
  have frame : frameOf (f * pageSize + va % 4096) = f := by
    unfold frameOf pageSize
    omega
  rw [frame]
  refine source.marked _ f ?_ here
  show 4 ≤ va / 4096 / 1024
  unfold kernelMem at low
  omega

theorem update_other {ram : Store} {x pa : Nat} {v : UInt8} (other : frameOf x ≠ frameOf pa) :
    Function.update ram pa v x = ram x :=
  Function.update_of_ne (fun same => other (congrArg frameOf same)) v ram

variable {pool : PcbPool} {ppid cpid : Pid}

/-- **`handle_child` copies the address space**, unless frames are lacking. Its own directory apart,
kernel memory stays as it is, and so does every frame in use. -/
theorem handleChild_ends (differ : ppid ≠ cpid) (cursor : s.bitmapIdx < pageNum)
    (source : Source (tables s.ram) (pool.pdir ppid) (usedFrames s)) :
    Ends (handleChild pool ppid cpid) s (fun _ s' => Forked (pool.pdir ppid) (pool.pdir cpid) s s' ∧
      UserSpace (pool.pdir cpid) (usedFrames s) s' ∧
      ∀ x, frameOf x ≠ pool.pdir cpid → frameOf x < 4096 ∨ frameOf x ∈ usedFrames s →
      s'.ram x = s.ram x)
      fun _ _ => ¬ Room (4 + spaceFrames (tables s.ram) (pool.pdir ppid) 764) s := by
  obtain ⟨e, is_e⟩ : ∃ e, e = pool.pdir ppid := ⟨_, rfl⟩
  obtain ⟨d, is_d⟩ : ∃ d, d = pool.pdir cpid := ⟨_, rfl⟩
  have other : e ≠ d := fun same => differ (pool.pdir_injective (is_e ▸ is_d ▸ same))
  have kernel : e < 4096 := by
    have range := pool.pdir_range ppid
    omega
  have low : d < 4096 := by
    have range := pool.pdir_range cpid
    omega
  unfold handleChild copyProcess
  rw [← is_e] at source ⊢
  rw [← is_d]
  -- the kernel's part
  refine .bind ((createKernelDir_ends (s := s) (At.alias (show d < 32768 by omega)) low cursor).mono
    (fun _ s₁ dir => ?_)
    fun _ _ full more => full (le_trans (Nat.le_add_right _ _) more))
  have space₁ := dir.userSpace
  have same₁ : ∀ x, frameOf x ≠ d → frameOf x < 4096 ∨ frameOf x ∈ usedFrames s →
      s₁.ram x = s.ram x := by
    intro x outside here
    rw [← emptied_outside (s := s) outside]
    rcases here with here | here
    · exact dir.grows.kernel_bytes here outside
    · exact dir.grows.held_bytes (owns_emptied low cursor) here
  have apart : ∀ x, frameOf x = e ∨ frameOf x ∈ usedFrames s →
      frameOf x ≠ d ∧ (frameOf x < 4096 ∨ frameOf x ∈ usedFrames s) := by
    rintro x (here | here)
    · exact ⟨by omega, .inl (by omega)⟩
    · have range := used_range here
      exact ⟨by omega, .inr here⟩
  have parent₁ : ∀ x, frameOf x = e ∨ frameOf x ∈ usedFrames s → s₁.ram x = s.ram x := fun x here =>
    same₁ x (apart x here).1 (apart x here).2
  refine .bind (.modify ?_)
  obtain ⟨s₂, is_s₂⟩ :
    ∃ r, r =
    { s₁ with spaces := Function.update s₁.spaces cpid { s₁.spaces cpid with cr3 := d } } :=
  ⟨_, rfl⟩
  have ram₂ : s₂.ram = s₁.ram := by rw [is_s₂]
  have space₂ : UserSpace d (usedFrames s) s₂ := by
    rw [is_s₂]
    exact ⟨⟨space₁.owned, space₁.low, space₁.cursor⟩, space₁.kernel⟩
  have room₂ : ∀ k, Room k s₂ ↔ Room (k + 4) (s.emptied d) := by
    intro k
    rw [is_s₂]
    exact dir.grows.room k
  rw [← is_s₂]
  -- the copy
  have source₁ := source.congr parent₁
  have frames : spaceFrames (tables s₁.ram) e 764 = spaceFrames (tables s.ram) e 764 :=
    Finset.sum_congr rfl fun i _ => source.tableFrames_eq parent₁ (by omega)
  have copies := copyTables_ends space₂.toOwns kernel other (ram₂ ▸ source₁) fun a user => by
    rw [ram₂]
    exact dir.nothing fun k small same => by subst same; exact absurd user (by show ¬ 4 ≤ k; omega)
  rw [ram₂, frames] at copies
  refine copies.mono ?_ fun _ _ full more => full ((room₂ _).mpr (by rwa [Nat.add_comm]))
  rintro _ s₃ ⟨grows, copied⟩
  have same₃ : ∀ x, frameOf x ≠ d → frameOf x < 4096 ∨ frameOf x ∈ usedFrames s →
      s₃.ram x = s.ram x := by
    intro x outside here
    rw [← same₁ x outside here, ← ram₂]
    rcases here with here | here
    · exact grows.kernel_bytes here outside
    · exact grows.held_bytes space₂.toOwns here
  have parent₃ : ∀ x, frameOf x = e ∨ frameOf x ∈ usedFrames s → s₃.ram x = s.ram x := fun x here =>
    same₃ x (apart x here).1 (apart x here).2
  have fresh : ∀ a f, reach (tables s₃.ram) d a = some f → f ∉ usedFrames s :=
    fun a f => grows.owned.apart a f
  have parent : Source (tables s₃.ram) e (usedFrames s) := source.congr parent₃
  have child : Source (tables s₃.ram) d {f | f ∉ usedFrames s} := ⟨fun a f _ here => fresh a f here⟩
  refine ⟨⟨fun va low high => ?_, grows.owned.unique,
    fun a f here => ⟨fresh a f here, grows.owned.used_of_holds here⟩,
    grows.kernelMapped space₂.toOwns (ram₂ ▸ space₁.kernel), parent₃,
    fun va pa v low high found va' low' high' => ?_,
    fun va pa v low high found va' low' high' => ?_⟩, grows.userSpace space₂, same₃⟩
  · have user : 4 ≤ va / 4096 / 1024 ∧ va / 4096 / 1024 < 768 := by
      unfold kernelMem at low
      unfold kOffset at high
      omega
    unfold view
    rw [translate_user low high, translate_user low high,
      ← source.reach_eq parent₁ (.pageAt (va / 4096)) user.1]
    cases here : reach (tables s₁.ram) e (.pageAt (va / 4096)) with
    | none =>
        rw [grows.reach_other (fun member => by simp [here] at member), ram₂,
          dir.nothing fun k _ same => by cases same]
        rfl
    | some f =>
        obtain ⟨g, reached, frame⟩ := copied _ _ f user.1 user.2 here
        have place : reach (tables s₃.ram) d (.pageAt (va / 4096)) = some g := reached
        rw [place, Option.map_some, Option.map_some, Option.map_some, Option.map_some,
          frame _ (Nat.mod_lt _ (by omega)), parent₁ _ (.inr ?_)]
        have inside : frameOf (f * pageSize + va % 4096) = f := by
          unfold frameOf pageSize
          omega
        rw [inside]
        exact source₁.marked (.pageAt (va / 4096)) f user.1 here
  · refine parent.view_eq (fun x here => update_other fun same => ?_) low' high'
    have written := child.written low high found
    rw [← same] at written
    rcases here with here | here
    · obtain ⟨reached, _⟩ := UserSpace.page low high found
      have range := grows.range reached
      omega
    · exact written here
  · refine child.view_eq (fun x here => update_other fun same => ?_) low' high'
    have written := parent.written low high found
    rw [← same] at written
    rcases here with here | here
    · have range := used_range written
      omega
    · exact here written

/-- **What `fork` does with the address space.** -/
theorem handleChild_copies (differ : ppid ≠ cpid) (cursor : s.bitmapIdx < pageNum)
    (source : Source (tables s.ram) (pool.pdir ppid) (usedFrames s))
    (room : Room (4 + spaceFrames (tables s.ram) (pool.pdir ppid) 764) s) :
    ∃ s', handleChild pool ppid cpid s = .ok ⟨⟩ s' ∧
    Forked (pool.pdir ppid) (pool.pdir cpid) s s' := by
  obtain ⟨_, s', run, forked, _⟩ := (handleChild_ends differ cursor source).run_where room
  exact ⟨s', run, forked⟩

end Copy

/-! ### A run -/

/-- A process with at most two pages at 16 MB. -/
theorem spaceFrames_few {T : Nat → Nat → Option Nat} {d n : Nat} (some : 0 < n)
    (places : ∀ a : Place, 4 ≤ a.index → a.index < n + 4 → reach T d a ≠ none →
      a = .table 4 ∨ a = .page 4 0 ∨ a = .page 4 1) : spaceFrames T d n ≤ 3 := by
  unfold spaceFrames
  rw [Finset.sum_eq_single_of_mem 0 (Finset.mem_range.mpr some) fun i small other => ?_]
  · have pages : Nat.count (fun j => (reach T d (.page 4 j)).isSome) 1024 ≤ 2 := by
      rw [Nat.count_eq_card_filter_range]
      refine le_trans (Finset.card_le_card (t := {0, 1}) fun j member => ?_) Finset.card_le_two
      have here := (Finset.mem_filter.mp member).2
      rw [Option.isSome_iff_ne_none] at here
      rcases places (.page 4 j) (Nat.le_refl 4) (Nat.lt_add_of_pos_left some)
        here with same | same | same
      · cases same
      · cases same
        simp
      · cases same
        simp
    unfold tableFrames
    rw [Nat.zero_add]
    split <;> omega
  · have small := Finset.mem_range.mp small
    refine tableFrames_none fun a index => ?_
    by_contra here
    rcases places a (by omega) (by omega) here with rfl | rfl | rfl
    · change 4 = i + 4 at index
      omega
    · change 4 = i + 4 at index
      omega
    · change 4 = i + 4 at index
      omega

theorem boot_frames {s : MemoryState}
    (places : ∀ a, reach (tables s.ram) 16 a = none ↔
      ¬ ((∃ k, k < 5 ∧ a = .table k) ∨ a = .page 4 0 ∨ a = .page 4 1)) :
    spaceFrames (tables s.ram) 16 764 ≤ 3 := by
  refine spaceFrames_few (by omega) fun a low _ here => ?_
  rw [ne_eq, places, not_not] at here
  rcases here with ⟨k, small, rfl⟩ | rfl | rfl
  · change 4 ≤ k at low
    exact .inl (congrArg Place.table (by omega))
  · exact .inr (.inl rfl)
  · exact .inr (.inr rfl)

/-- A child of the process with two pages. -/
theorem boot_fork : ∃ s s', handleChild bootPool 0 1 s = .ok ⟨⟩ s' ∧ Forked 16 19 s s' := by
  obtain ⟨s, space, room, _, places, _⟩ := boot_pages
  have copies : ∃ s', handleChild bootPool 0 1 s = .ok ⟨⟩ s' ∧ Forked 16 19 s s' :=
    handleChild_copies (by decide) space.cursor ⟨fun a f _ here => space.owned.used_of_holds here⟩
      (le_trans (Nat.add_le_add_left (boot_frames places) 4) (le_trans (by omega) room))
  exact ⟨s, copies⟩

end NjuOs.Memory
