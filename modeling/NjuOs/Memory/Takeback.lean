/-
**Giving an address space back.**

`takeback_page` goes over the directory of a process and gives back the four tables of the kernel,
and of every table between 16 MB and `0xC0000000` first the pages and then the table itself.

In front of entry `j` of table `i` the places that are `Passed` have been given back. The others
still have their frames and name them as before; `Returning` says so in terms of the tables as they
stood at the beginning, which the stores of the loops cannot change. A place that is passed releases
its frame (`Returning.release`). Behind the last table no place is left, so `page_bitmap` marks what
belongs to others and nothing else (`takebackPage_ok`).

Whatever the tables hold, the directory and its tables are all that is written
(`takebackPage_clears`).
-/

import NjuOs.Memory.Frames

namespace NjuOs.Memory

open NjuOs.Lib

/-- Frame `f` is given back. -/
structure Frees (f : Nat) (s s' : MemoryState) : Prop where
  used : usedFrames s' = usedFrames s \ {f}
  ram : s'.ram = s.ram

/-- The places in front of entry `j` of table `i`. -/
def Passed (i j : Nat) : Place → Prop
  | .table k => k < i
  | .page k l => k < i ∨ k = i ∧ l < j

/-- From `s₀` to `s` the frames of the places in front of entry `j` of table `i` were given back. -/
structure Returning (d : Nat) (held : Set Nat) (s₀ : MemoryState) (i j : Nat)
    (s : MemoryState) : Prop where
  owned : Owned (fun a f => reach (tables s₀.ram) d a = some f ∧ ¬ Passed i j a) held (usedFrames s)
  directory : ∀ k, i ≤ k → tables s.ram d k = tables s₀.ram d k
  table : ∀ k t l, i < k ∨ k = i ∧ j ≤ l → 4 ≤ k → k < 768 → tables s₀.ram d k = some t →
    tables s.ram t l = tables s₀.ram t l

/-- The tables that `takeback_page` goes through are frames of user memory. -/
def TablesUser (T : Nat → Nat → Option Nat) (d : Nat) : Prop :=
  ∀ i t, 4 ≤ i → i < 768 → T d i = some t → 4096 ≤ t ∧ t < 32768

/-- From `s₀` to `s` nothing was written but the directory and these tables. -/
structure Clears (d : Nat) (s₀ s : MemoryState) : Prop where
  cursor : s.bitmapIdx = s₀.bitmapIdx
  bytes : ∀ x, frameOf x ≠ d → (∀ k, 4 ≤ k → k < 768 → tables s₀.ram d k ≠ some (frameOf x)) →
    s.ram x = s₀.ram x

section Clears

variable {d t i j n : Nat} {s s₀ : MemoryState}

theorem Clears.of_eq {s' : MemoryState} (clears : Clears d s₀ s) (ram : s'.ram = s.ram)
    (cursor : s'.bitmapIdx = s.bitmapIdx) :
    Clears d s₀ s' where
  cursor := cursor.trans clears.cursor
  bytes := by
    rw [ram]
    exact clears.bytes

theorem setPageIdle_keeps {page : Nat} :
    Ends (setPageIdle page) s (fun _ s' => s'.ram = s.ram ∧ s'.bitmapIdx = s.bitmapIdx)
    fun _ s' => s'.ram = s.ram ∧ s'.bitmapIdx = s.bitmapIdx := by
  unfold setPageIdle
  exact .ite (fun _ => .modify ⟨rfl, rfl⟩) fun _ => .throw ⟨rfl, rfl⟩

/-- One entry of a table. -/
theorem takebackEntry_clears (low : d < 4096) (user : TablesUser (tables s₀.ram) d) (above : 4 ≤ i)
    (below : i < 768) (table : tables s₀.ram d i = some t) (inside : j < 1024)
    (clears : Clears d s₀ s) :
    Ends (takebackEntry (t * pageSize) j) s
      (fun _ s' => Clears d s₀ s' ∧ tables s'.ram d = tables s.ram d)
      fun _ => Clears d s₀ := by
  have range := user i t above below table
  have place : At (t * pageSize) t := .direct range.2
  obtain ⟨w, load, _⟩ := load_entry (s := s) place inside
  unfold takebackEntry
  refine .bind_ok load (.ite (fun _ => .bind ?_) fun _ => .pure ⟨clears, rfl⟩)
  refine setPageIdle_keeps.mono (fun _ s₁ same => .ok (store32_at place inside)
    ⟨⟨same.2.trans clears.cursor, fun x directory outside => ?_⟩, ?_⟩) fun _ s₁ same =>
    clears.of_eq same.1 same.2
  · show s₁.ram.writeWords (t * pageSize + 4 * j) 1 (fun _ => 0) x = _
    rw [within_store inside x fun here => outside i above below (here ▸ table), same.1]
    exact clears.bytes x directory outside
  · show tables (s₁.ram.writeWords (t * pageSize + 4 * j) 1 fun _ => 0) d = _
    rw [tables_store inside, Function.update_of_ne (by omega), same.1]

/-- One entry of the directory, with its pages. -/
theorem takebackTable_clears (low : d < 4096) (user : TablesUser (tables s₀.ram) d) (above : 4 ≤ i)
    (below : i < 768) (clears : Clears d s₀ s)
    (same : ∀ k, i ≤ k → tables s.ram d k = tables s₀.ram d k) :
    Ends (takebackTable (d * pageSize) i) s
      (fun _ s' => Clears d s₀ s' ∧ ∀ k, i + 1 ≤ k → tables s'.ram d k = tables s₀.ram d k) fun _ =>
      Clears d s₀ := by
  have place : At (d * pageSize) d := .direct (by omega)
  obtain ⟨w, load, word⟩ := load_entry (s := s) place (show i < 1024 by omega)
  unfold takebackTable
  refine .bind_ok load
    (.ite (fun there => ?_) fun _ => .pure ⟨clears, fun k behind => same k (by omega)⟩)
  have table : tables s₀.ram d i = some (pageFrame w) := (same i (Nat.le_refl i)).symm.trans
    (word ▸ named_eq_some.mpr ⟨there, rfl⟩)
  have turns : Ends (loop (takebackEntry (pageFrame w * pageSize)) 1024 0) s
      (fun _ s' => Clears d s₀ s' ∧ tables s'.ram d = tables s.ram d) fun _ => Clears d s₀ := by
    refine Ends.loop (fun _ s' => Clears d s₀ s' ∧ tables s'.ram d = tables s.ram d) ⟨clears, rfl⟩
      fun j s₁ _ inside here => ?_
    refine (takebackEntry_clears low user above below table (by omega) here.1).mono
      (fun _ s₂ next => ?_) fun _ _ fails => fails
    exact ⟨next.1, next.2.trans here.2⟩
  refine .bind (turns.mono (fun _ s₁ here => .bind ?_) fun _ _ fails => fails)
  refine setPageIdle_keeps.mono (fun _ s₂ kept => .ok (store32_at place (by omega))
    ⟨⟨kept.2.trans here.1.cursor, fun x directory outside => ?_⟩, fun k behind => ?_⟩)
    fun _ s₂ kept => here.1.of_eq kept.1 kept.2
  · show s₂.ram.writeWords (d * pageSize + 4 * i) 1 (fun _ => 0) x = _
    rw [within_store (by omega) x directory, kept.1]
    exact here.1.bytes x directory outside
  · show tables (s₂.ram.writeWords (d * pageSize + 4 * i) 1 fun _ => 0) d k = _
    rw [tables_store (by omega), Function.update_self, Function.update_of_ne (by omega),
      kept.1, here.2]
    exact same k (by omega)

/-- **`takeback_page` writes the directory and its tables alone**, however it ends. -/
theorem takebackPage_clears (low : d < 4096) (user : TablesUser (tables s.ram) d) :
    Ends (takebackPage (d * pageSize)) s (fun _ => Clears d s) fun _ => Clears d s := by
  have place : At (d * pageSize) d := .direct (by omega)
  have kernel : Ends (loop (takebackKernelTable (d * pageSize)) 4 0) s
      (fun _ s' => Clears d s s' ∧ tables s'.ram d = tables s.ram d) fun _ => Clears d s := by
    refine Ends.loop (fun _ s' => Clears d s s' ∧ tables s'.ram d = tables s.ram d)
      ⟨⟨rfl, fun _ _ _ => rfl⟩, rfl⟩
      fun i s₁ _ small (here : Clears d s s₁ ∧ _) => ?_
    obtain ⟨w, load, _⟩ := load_entry (s := s₁) place (show i < 1024 by omega)
    unfold takebackKernelTable
    exact .bind_ok load (setPageIdle_keeps.mono
      (fun _ _ same => ⟨here.1.of_eq same.1 same.2, by rw [same.1, here.2]⟩)
      fun _ _ same => here.1.of_eq same.1 same.2)
  unfold takebackPage
  refine .bind (kernel.mono (fun _ s₁ first => ?_) fun _ _ fails => fails)
  refine Ends.mono (Ends.loop (fun i s' => Clears d s s' ∧ ∀ k, i ≤ k →
    tables s'.ram d k = tables s.ram d k)
    ⟨first.1, fun k _ => by rw [first.2]⟩ fun i s₂ above below (here : Clears d s s₂ ∧ _) => ?_)
    (fun _ _ here => here.1)
    fun _ _ fails => fails
  exact takebackTable_clears low user above (by omega) here.1 here.2

end Clears

section Takeback

variable {d f t i j i' j' : Nat} {held : Set Nat} {s s' s₀ : MemoryState} {r : Store} {a : Place}

/-- `set_page_idle`, of a frame of user memory. -/
theorem setPageIdle_frees (range : 4096 ≤ f ∧ f < 32768) :
    ∃ s', setPageIdle (f * pageSize) s = .ok ⟨⟩ s' ∧ Frees f s s' := by
  have index : (f * pageSize - kernelMem) / 4096 = f - 4096 := by
    unfold pageSize kernelMem
    omega
  unfold setPageIdle
  rw [if_pos (by rw [index]; unfold pageSize kernelMem pageNum; omega), index]
  refine ⟨_, rfl, ?_, rfl⟩
  ext g
  rw [Set.mem_sdiff, Set.mem_singleton_iff]
  constructor
  · rintro ⟨b, inside, set, rfl⟩
    change Function.update s.pageBitmap (f - 4096) false b = true at set
    by_cases same : b = f - 4096
    · rw [same, Function.update_self] at set
      cases set
    · rw [Function.update_of_ne same] at set
      exact ⟨⟨b, inside, set, rfl⟩, by omega⟩
  · rintro ⟨⟨b, inside, set, rfl⟩, other⟩
    refine ⟨b, inside, ?_, rfl⟩
    show Function.update s.pageBitmap (f - 4096) false b = true
    rwa [Function.update_of_ne (by omega)]

theorem passed_entry : Passed i (j + 1) a ↔ Passed i j a ∨ a = .page i j := by
  cases a with
  | table k => simp [Passed]
  | page k l =>
      simp only [Passed, Place.page.injEq]
      omega

theorem passed_table (entries : ∀ l, a = .page i l → l < j) :
    Passed (i + 1) 0 a ↔ Passed i j a ∨ a = .table i := by
  cases a with
  | table k =>
      simp only [Passed, Place.table.injEq]
      omega
  | page k l =>
      simp only [Passed, reduceCtorEq, or_false]
      by_cases here : k = i
      · have small := entries l (by rw [here])
        omega
      · omega

/-- A place is passed, and its frame is given back. -/
theorem Returning.release (ret : Returning d held s₀ i j s)
    (here : reach (tables s₀.ram) d a = some f) (waiting : ¬ Passed i j a)
    (next : ∀ b g, reach (tables s₀.ram) d b = some g → (Passed i' j' b ↔ Passed i j b ∨ b = a))
    (freed : usedFrames s' = usedFrames s \ {f}) :
    Owned (fun b g => reach (tables s₀.ram) d b = some g ∧ ¬ Passed i' j' b) held
      (usedFrames s') := by
  rw [freed]
  refine ret.owned.release (a := a) ⟨here, waiting⟩ (fun g there => ?_) fun b g => ?_
  · exact Option.some.inj (there.1.symm.trans here)
  · constructor
    · rintro ⟨there, outside⟩
      rw [next b g there, not_or] at outside
      exact ⟨⟨there, outside.1⟩, outside.2⟩
    · rintro ⟨⟨there, outside⟩, other⟩
      refine ⟨there, ?_⟩
      rw [next b g there, not_or]
      exact ⟨outside, other⟩

/-- Places that name no frame are passed. -/
theorem Returning.skip (ret : Returning d held s₀ i j s)
    (next : ∀ b g, reach (tables s₀.ram) d b = some g → (Passed i' j' b ↔ Passed i j b)) :
    Owned (fun b g => reach (tables s₀.ram) d b = some g ∧ ¬ Passed i' j' b) held (usedFrames s) :=
  ret.owned.congr fun b g => and_congr_right fun there => not_congr (next b g there)

/-- One entry of a table: its page is given back, and it is cleared. -/
theorem takebackEntry_turn (space : UserSpace d held s₀) (ret : Returning d held s₀ i j s)
    (user : 4 ≤ i ∧ i < 768) (inside : j < 1024) (entry : tables s₀.ram d i = some t) :
    ∃ s', takebackEntry (t * pageSize) j s = .ok ⟨⟩ s' ∧ Returning d held s₀ i (j + 1) s' := by
  have table : reach (tables s₀.ram) d (.table i) = some t :=
    reach_table_eq_some.mpr ⟨user.2, entry⟩
  have page : reach (tables s₀.ram) d (.page i j) = tables s₀.ram t j := reach_page user entry
  have place : At (t * pageSize) t := .direct (space.range table).2
  obtain ⟨w, load, word⟩ := load_entry (s := s) place inside
  rw [ret.table i t j (.inr ⟨rfl, le_refl j⟩) user.1 user.2 entry] at word
  unfold takebackEntry
  rw [run_bind load]
  cases named_f : tables s₀.ram t j with
  | none =>
      rw [named_f] at word page
      rw [named_eq_none.mp word, if_neg Bool.false_ne_true]
      refine ⟨s, rfl, ret.skip fun b g there => ?_, ret.directory,
        fun k u l behind => ret.table k u l (by omega)⟩
      rw [passed_entry, or_iff_left]
      rintro rfl
      rw [page] at there
      cases there
  | some f =>
      rw [named_f] at word page
      rw [(named_eq_some.mp word).1, if_pos rfl, (named_eq_some.mp word).2]
      obtain ⟨s₁, freed, frees⟩ := setPageIdle_frees (s := s) (space.range page)
      obtain ⟨r, is_r⟩ : ∃ r, r = s.ram.writeWords (t * pageSize + 4 * j) 1 fun _ => 0 := ⟨_, rfl⟩
      have stored : tables r =
          Function.update (tables s.ram) t (Function.update (tables s.ram t) j none) := by
        rw [is_r, tables_store inside, named_zero]
      refine ⟨s₁.withRam r, ?_, ?_, fun k high => ?_, fun k u l behind low high there => ?_⟩
      · rw [run_bind freed, store32_at place inside, frees.ram, is_r]
        rfl
      · exact ret.release page (by simp [Passed]) (fun b g _ => passed_entry) frees.used
      · rw [withRam_ram, stored, Function.update_of_ne (space.ne_directory table).symm]
        exact ret.directory k high
      · rw [withRam_ram, stored, ← ret.table k u l (by omega) low high there]
        by_cases same : u = t
        · subst same
          have alike := space.owned.unique _ _ u (reach_table_eq_some.mpr ⟨high, there⟩) table
          cases alike
          rw [Function.update_self, Function.update_of_ne (by omega)]
        · rw [Function.update_of_ne same]

/-- One entry of the directory, with its pages. -/
theorem takebackTable_turn (space : UserSpace d held s₀) (ret : Returning d held s₀ i 0 s)
    (user : 4 ≤ i ∧ i < 768) :
    ∃ s', takebackTable (d * pageSize) i s = .ok ⟨⟩ s' ∧ Returning d held s₀ (i + 1) 0 s' := by
  have place : At (d * pageSize) d := .direct (by have low := space.low; omega)
  obtain ⟨w, load, word⟩ := load_entry (s := s) place (show i < 1024 by omega)
  rw [ret.directory i (le_refl i)] at word
  unfold takebackTable
  rw [run_bind load]
  cases entry : tables s₀.ram d i with
  | none =>
      have nothing : ∀ b g, reach (tables s₀.ram) d b = some g → b.index ≠ i := by
        rintro b g there rfl
        cases b with
        | table k =>
            rw [reach_table_eq_some, show tables s₀.ram d k = none from entry] at there
            cases there.2
        | page k l =>
            obtain ⟨_, _, u, there, _⟩ := reach_page_eq_some.mp there
            rw [show tables s₀.ram d k = none from entry] at there
            cases there
      rw [entry] at word
      rw [named_eq_none.mp word, if_neg Bool.false_ne_true]
      refine ⟨s, rfl, ret.skip fun b g there => ?_, fun k high => ret.directory k (by omega),
        fun k u l behind => ret.table k u l (by omega)⟩
      have other := nothing b g there
      rw [passed_table (j := 0) fun l here => absurd (by rw [here]; rfl) other, or_iff_left]
      rintro rfl
      exact other rfl
  | some t =>
      have table : reach (tables s₀.ram) d (.table i) = some t :=
        reach_table_eq_some.mpr ⟨user.2, entry⟩
      rw [entry] at word
      rw [(named_eq_some.mp word).1, if_pos rfl, (named_eq_some.mp word).2]
      have turns :
        Ends (loop (takebackEntry (t * pageSize)) 1024 0) s
        (fun _ s' => Returning d held s₀ i (0 + 1024) s')
          fun _ _ => False := by
        refine Ends.loop (Returning d held s₀ i) ret fun j s₁ _ inside here => ?_
        obtain ⟨s₂, run, next⟩ := takebackEntry_turn space here user (by omega) entry
        exact .ok run next
      obtain ⟨_, s₁, pages, ret₁⟩ := turns.run_ok
      rw [Nat.zero_add] at ret₁
      obtain ⟨s₂, freed, frees⟩ := setPageIdle_frees (s := s₁) (space.range table)
      obtain ⟨r, is_r⟩ : ∃ r, r = s₁.ram.writeWords (d * pageSize + 4 * i) 1 fun _ => 0 := ⟨_, rfl⟩
      have stored : tables r =
          Function.update (tables s₁.ram) d (Function.update (tables s₁.ram d) i none) := by
        rw [is_r, tables_store (by omega), named_zero]
      refine ⟨s₂.withRam r, ?_, ?_, fun k high => ?_, fun k u l behind low high there => ?_⟩
      · rw [run_bind pages, run_bind freed, store32_at place (by omega), frees.ram, is_r]
        rfl
      · refine ret₁.release table (by simp [Passed])
          (fun b g there => passed_table fun l here => ?_) frees.used
        rw [here, reach_page user entry] at there
        exact tables_small there
      · rw [withRam_ram, stored, Function.update_self, Function.update_of_ne (by omega)]
        exact ret₁.directory k (by omega)
      · have other : u ≠ d := space.ne_directory (reach_table_eq_some.mpr ⟨high, there⟩)
        rw [withRam_ram, stored, Function.update_of_ne other]
        exact ret₁.table k u l (by omega) low high there

/-- A table of the kernel. -/
theorem takebackKernelTable_turn (space : UserSpace d held s₀) (ret : Returning d held s₀ i 0 s)
    (kernel : i < 4) :
    ∃ s', takebackKernelTable (d * pageSize) i s = .ok ⟨⟩ s' ∧
    Returning d held s₀ (i + 1) 0 s' := by
  obtain ⟨t, entry, _⟩ := space.kernel.tables i kernel
  have table : reach (tables s₀.ram) d (.table i) = some t :=
    reach_table_eq_some.mpr ⟨by omega, entry⟩
  obtain ⟨w, load, word⟩ :=
    load_entry (s := s) (At.direct (show d < 32768 by have low := space.low; omega))
    (show i < 1024 by omega)
  rw [ret.directory i (le_refl i), entry] at word
  obtain ⟨s₁, freed, frees⟩ := setPageIdle_frees (s := s) (space.range table)
  refine ⟨s₁, ?_, ?_, ?_, ?_⟩
  · unfold takebackKernelTable
    rw [run_bind load, (named_eq_some.mp word).2, freed]
  · refine ret.release table (by simp [Passed])
      (fun b g there => passed_table fun l here => ?_) frees.used
    rw [here] at there
    obtain ⟨low, _⟩ := reach_page_eq_some.mp there
    omega
  · rw [frees.ram]
    exact fun k high => ret.directory k (by omega)
  · rw [frees.ram]
    exact fun k u l behind => ret.table k u l (by omega)

/-- **`takeback_page` gives back every frame of the address space, and no other.** It writes in the
directory and its tables alone. -/
theorem takebackPage_ok (space : UserSpace d held s) :
    ∃ s', takebackPage (d * pageSize) s = .ok ⟨⟩ s' ∧ usedFrames s' = held ∧ Clears d s s' := by
  have start : Returning d held s 0 0 s := by
    refine ⟨space.owned.congr fun a f => and_iff_left ?_, fun _ _ => rfl, fun _ _ _ _ _ _ _ => rfl⟩
    cases a with
    | table k => exact Nat.not_lt_zero k
    | page k l => simp [Passed]
  have kernel : Ends (loop (takebackKernelTable (d * pageSize)) 4 0) s
    (fun _ s' => Returning d held s (0 + 4) 0 s')
      fun _ _ => False := by
    refine Ends.loop (fun i => Returning d held s i 0) start fun i s₁ _ small here => ?_
    obtain ⟨s₂, run, next⟩ := takebackKernelTable_turn space here (by omega)
    exact .ok run next
  obtain ⟨_, s₁, run₁, ret₁⟩ := kernel.run_ok
  have user :
    Ends (loop (takebackTable (d * pageSize)) 764 4) s₁
    (fun _ s' => Returning d held s (4 + 764) 0 s')
      fun _ _ => False := by
    refine Ends.loop (fun i => Returning d held s i 0) ret₁ fun i s₂ low high here => ?_
    obtain ⟨s₃, run, next⟩ := takebackTable_turn space here (by omega)
    exact .ok run next
  obtain ⟨_, s₂, run₂, ret₂⟩ := user.run_ok
  have run : takebackPage (d * pageSize) s = .ok ⟨⟩ s₂ := by
    unfold takebackPage
    rw [run_bind run₁, run₂]
  have tables_user : TablesUser (tables s.ram) d := fun i t _ below entry =>
    space.range (a := .table i) (reach_table_eq_some.mpr ⟨below, entry⟩)
  refine ⟨s₂, run, Set.ext fun f => ?_, (takebackPage_clears space.low tables_user).of_ok run⟩
  · rw [ret₂.owned.marked f, or_iff_left]
    rintro ⟨a, here, waiting⟩
    refine waiting ?_
    cases a with
    | table k => exact (reach_table_eq_some.mp here).1
    | page k l => exact .inl (reach_page_eq_some.mp here).2.1

end Takeback

end NjuOs.Memory
