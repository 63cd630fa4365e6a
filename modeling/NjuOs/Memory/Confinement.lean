/-
**What a load writes.**

The bytes of a file choose where `load_program` makes pages and where their bytes go. `Untouched d
own s₀ s`: apart from the page at `0x8000`, the directory in frame `d` and the frames obtained on
the way, memory is as it was. `load_segment` never asks whether an address is one of user memory,
and the copy goes through the tables that are being built, in which the kernel is mapped; a segment
below 16 MB therefore overwrites the kernel (`load_escapes`).

Nothing else goes wrong. Segments may overlap, come in any order, share pages and take the place of
pages and tables that were there: what the directory names was obtained on the way, and so were the
pages outside the kernel's part, which are no tables (`Confined`). So where no byte is read to an
address of the kernel, and the pages end with the address space (`Fits`), nothing but its own is
written, however the load ends (`load_untouched`).
-/

import NjuOs.Memory.Loader
import NjuOs.Memory.Takeback

namespace NjuOs.Memory

open NjuOs.Lib

/-- Frame `f` was obtained on the way from `s₀` to `s`. -/
def Obtained (s₀ s : MemoryState) (f : Nat) : Prop := f ∈ usedFrames s ∧ f ∉ usedFrames s₀

/-- Memory is as it was, apart from the page at `0x8000`, the directory, the frames obtained on the
way and what the kernel keeps for itself. -/
def Untouched (d : Nat) (own : Set Nat) (s₀ s : MemoryState) : Prop :=
  ∀ x, x ∉ own → frameOf x ≠ 8 → frameOf x ≠ d → ¬ Obtained s₀ s (frameOf x) → s.ram x = s₀.ram x

/-- Frame `f` was obtained, and is no table. -/
def Data (d : Nat) (s₀ s : MemoryState) (f : Nat) : Prop :=
  Obtained s₀ s f ∧ ∀ k, tables s.ram d k ≠ some f

/-- The entries of a directory with which `create_kernel_dir` maps the kernel. -/
def KernelEntry (i : Nat) : Prop := i < 4 ∨ 768 ≤ i ∧ i < 772

/-- What a load keeps up. -/
structure Confined (d : Nat) (own : Set Nat) (s₀ s : MemoryState) : Prop where
  cursor : s.bitmapIdx < pageNum
  used : usedFrames s₀ ⊆ usedFrames s
  directory : ∀ i t, tables s.ram d i = some t → Obtained s₀ s t
  pages : ∀ i j t f, ¬ KernelEntry i → tables s.ram d i = some t →
    tables s.ram t j = some f → Data d s₀ s f
  untouched : Untouched d own s₀ s

/-- Frame `t` was obtained, has no entry, and is named neither as a table outside the kernel's part
nor as a page there. -/
structure Blank (d : Nat) (s₀ s : MemoryState) (t : Nat) : Prop where
  obtained : Obtained s₀ s t
  clear : ∀ j, tables s.ram t j = none
  nowhere : ∀ k, ¬ KernelEntry k → tables s.ram d k ≠ some t
  unnamed : ∀ i j u, ¬ KernelEntry i → tables s.ram d i = some u → tables s.ram u j ≠ some t

section Moves

variable {A d f t u i j p n : Nat} {own : Set Nat} {s s' s₀ : MemoryState} {r : Store}

theorem Obtained.range (here : Obtained s₀ s f) : 4096 ≤ f ∧ f < 32768 := used_range here.1

theorem Obtained.mono (here : Obtained s₀ s f) (more : usedFrames s ⊆ usedFrames s') :
    Obtained s₀ s' f :=
  ⟨more here.1, here.2⟩

namespace Confined

/-- What is stored neither in the directory nor in a table outside the kernel's part. -/
theorem write (confined : Confined d own s₀ s)
    (spares : ∀ x, frameOf x = d ∨ (∃ i, ¬ KernelEntry i ∧ tables s.ram d i = some (frameOf x)) →
      r x = s.ram x)
    (untouched : ∀ x, x ∉ own → frameOf x ≠ 8 → frameOf x ≠ d → ¬ Obtained s₀ s (frameOf x) →
      r x = s.ram x) :
    Confined d own s₀ (s.withRam r) := by
  have row : tables r d = tables s.ram d := tables_congr d fun x inside => spares x (.inl inside)
  have rows : ∀ i t, ¬ KernelEntry i → tables s.ram d i = some t → tables r t = tables s.ram t :=
    fun i t user entry =>
    tables_congr t fun x inside => spares x (.inr ⟨i, user, inside ▸ entry⟩)
  refine ⟨confined.cursor, confined.used, fun i t entry => ?_, fun i j t f user entry here => ?_,
    fun x mine page dir new => ?_⟩
  · rw [withRam_ram, row] at entry
    exact confined.directory i t entry
  · rw [withRam_ram, row] at entry
    rw [withRam_ram, rows i t user entry] at here
    obtain ⟨obtained, none⟩ := confined.pages i j t f user entry here
    exact ⟨obtained, fun k => by rw [withRam_ram, row]; exact none k⟩
  · exact (untouched x mine page dir new).trans (confined.untouched x mine page dir new)

/-- A frame is taken. -/
theorem take (confined : Confined d own s₀ s) :
    Ends getIdlePage s (fun A s' => ∃ f, A = f * pageSize ∧ f ∉ usedFrames s ∧
    usedFrames s' = insert f (usedFrames s) ∧ s'.ram = s.ram ∧ Confined d own s₀ s' ∧
    Data d s₀ s' f)
    fun _ => Confined d own s₀ := by
  by_cases room : Room 1 s
  · obtain ⟨f, s', run, takes, cursor⟩ := take_frame confined.cursor room
    have more : usedFrames s ⊆ usedFrames s' := takes.used ▸ Set.subset_insert f _
    have obtained : Obtained s₀ s' f :=
      ⟨takes.used ▸ Set.mem_insert f _, fun old => takes.free (confined.used old)⟩
    refine .ok run ⟨f, rfl, takes.free, takes.used, takes.ram,
      ⟨cursor, confined.used.trans more, ?_, ?_, ?_⟩, obtained, ?_⟩
    · rw [takes.ram]
      exact fun i t entry => (confined.directory i t entry).mono more
    · rw [takes.ram]
      intro i j t g user entry here
      obtain ⟨old, none⟩ := confined.pages i j t g user entry here
      exact ⟨old.mono more, by rw [takes.ram]; exact none⟩
    · rw [Untouched, takes.ram]
      exact fun x mine page dir new => confined.untouched x mine page dir fun old =>
        new (old.mono more)
    · rw [takes.ram]
      exact fun k entry => takes.free (confined.directory k f entry).1
  · exact .error (getIdlePage_full confined.cursor room) confined

/-- A frame is filled that was obtained, and is no table outside the kernel's part. -/
theorem fill (confined : Confined d own s₀ s) (low : d < 4096) (obtained : Obtained s₀ s f)
    (nowhere : ∀ k, ¬ KernelEntry k → tables s.ram d k ≠ some f) (within : Within f s.ram r) :
    Confined d own s₀ (s.withRam r) := by
  have range := obtained.range
  refine confined.write (fun x here => within x ?_) fun x _ _ _ new => within x fun same =>
    new (same ▸ obtained)
  rintro rfl
  rcases here with directory | ⟨i, user, entry⟩
  · omega
  · exact nowhere i user entry

/-- An empty table is entered in the directory. -/
theorem enterTable (confined : Confined d own s₀ s) (low : d < 4096) (blank : Blank d s₀ s t)
    (stored : tables r =
      Function.update (tables s.ram) d (Function.update (tables s.ram d) i (some t)))
    (within : Within d s.ram r) : Confined d own s₀ (s.withRam r) := by
  have entries : ∀ k u, tables r d k = some u → u = t ∨ tables s.ram d k = some u := by
    intro k u entry
    rw [stored, Function.update_self] at entry
    by_cases here : k = i
    · rw [here, Function.update_self] at entry
      exact .inl (Option.some.inj entry).symm
    · rw [Function.update_of_ne here] at entry
      exact .inr entry
  have obtained : ∀ k u, tables r d k = some u → Obtained s₀ s u := by
    intro k u entry
    rcases entries k u entry with rfl | old
    · exact blank.obtained
    · exact confined.directory k u old
  refine ⟨confined.cursor, confined.used, obtained, fun k j u f user entry here => ?_,
    fun x mine page dir new => ?_⟩
  · have range := (obtained k u entry).range
    rw [withRam_ram, stored, Function.update_of_ne (by omega)] at here
    rcases entries k u entry with rfl | old
    · rw [blank.clear j] at here
      cases here
    · obtain ⟨page, none⟩ := confined.pages k j u f user old here
      refine ⟨page, fun l named => ?_⟩
      rcases entries l f named with rfl | there
      · exact blank.unnamed k j u user old here
      · exact none l there
  · exact (within x dir).trans (confined.untouched x mine page dir new)

/-- A page is entered in a table. -/
theorem enterPage (confined : Confined d own s₀ s) (low : d < 4096) (table : Obtained s₀ s u)
    (data : Data d s₀ s f)
    (stored : tables r =
      Function.update (tables s.ram) u (Function.update (tables s.ram u) j (some f)))
    (within : Within u s.ram r) : Confined d own s₀ (s.withRam r) := by
  have range := table.range
  have row : tables r d = tables s.ram d := by rw [stored, Function.update_of_ne (by omega)]
  refine ⟨confined.cursor, confined.used, fun k t entry => ?_, fun k l t g user entry here => ?_,
    fun x mine page dir new => ?_⟩
  · rw [withRam_ram, row] at entry
    exact confined.directory k t entry
  · rw [withRam_ram, row] at entry
    have page : Data d s₀ s g := by
      rw [withRam_ram, stored] at here
      by_cases same : t = u
      · rw [same, Function.update_self] at here
        by_cases entry_j : l = j
        · rw [entry_j, Function.update_self] at here
          cases here
          exact data
        · rw [Function.update_of_ne entry_j] at here
          exact confined.pages k l u g user (same ▸ entry) here
      · rw [Function.update_of_ne same] at here
        exact confined.pages k l t g user entry here
    exact ⟨page.1, fun m => by rw [withRam_ram, row]; exact page.2 m⟩
  · exact (within x fun same => new (same ▸ table)).trans (confined.untouched x mine page dir new)

end Confined

/-- A table that is entered for the kernel stays blank. -/
theorem Blank.enterKernel (blank : Blank d s₀ s t) (low : d < 4096)
    (directory : ∀ k u, tables s.ram d k = some u → 4096 ≤ u) (kernel : KernelEntry i)
    (stored : tables r =
      Function.update (tables s.ram) d (Function.update (tables s.ram d) i (some t))) :
    Blank d s₀ (s.withRam r) t := by
  have range := blank.obtained.range
  have entries : ∀ k, ¬ KernelEntry k → tables r d k = tables s.ram d k := by
    intro k user
    rw [stored, Function.update_self, Function.update_of_ne]
    rintro rfl
    exact user kernel
  refine ⟨blank.obtained, fun j => ?_, fun k user => ?_, fun k j u user entry => ?_⟩
  · rw [withRam_ram, stored, Function.update_of_ne (by omega)]
    exact blank.clear j
  · rw [withRam_ram, entries k user]
    exact blank.nowhere k user
  · rw [withRam_ram, entries k user] at entry
    have above := directory k u entry
    rw [withRam_ram, stored, Function.update_of_ne (by omega)]
    exact blank.unnamed k j u user entry

/-! ### Tables and pages -/

/-- **A frame is taken and cleared**, as every table and every page of a segment is. -/
theorem zeroPage_confined (low : d < 4096) (confined : Confined d own s₀ s) {α : Type}
    {rest : Nat → Mm α} {Q : α → MemoryState → Prop}
    (behind : ∀ f s', Confined d own s₀ s' → Data d s₀ s' f → Blank d s₀ s' f →
      (∀ g, Obtained s₀ s g → Obtained s₀ s' g ∧ g ≠ f) →
      (∀ k, tables s'.ram d k = tables s.ram d k) →
      Ends (rest (f * pageSize)) s' Q fun _ => Confined d own s₀) :
    Ends (do
      let pframe ← getIdlePage
      memset pframe pageSize
      rest pframe) s Q fun _ => Confined d own s₀ := by
  refine .bind (confined.take.mono ?_ fun _ _ fails => fails)
  rintro _ s₁ ⟨f, rfl, free, used, ram, confined₁, data⟩
  have range := data.1.range
  obtain ⟨r, is_r⟩ : ∃ r, r = s₁.ram.clear (f * pageSize) pageSize := ⟨_, rfl⟩
  have cleared : tables r = Function.update (tables s.ram) f fun _ => none := by
    rw [is_r, tables_clear, ram]
  have row : tables r d = tables s.ram d := by rw [cleared, Function.update_of_ne (by omega)]
  have nowhere : ∀ k, tables s.ram d k ≠ some f :=
    fun k entry => free (confined.directory k f entry).1
  refine .bind_ok (memset_at (.direct range.2)) ?_
  rw [← is_r]
  refine behind f (s₁.withRam r)
    (confined₁.fill low data.1 (fun k _ => data.2 k) (is_r ▸ within_clear))
    ⟨data.1, fun k => by rw [withRam_ram, row]; exact nowhere k⟩ ⟨data.1, fun j => ?_,
      fun k _ => ?_, fun k j u user entry => ?_⟩
    (fun g here => ⟨here.mono (used ▸ Set.subset_insert f _), ?_⟩) fun k => by rw [withRam_ram, row]
  · rw [withRam_ram, cleared, Function.update_self]
  · rw [withRam_ram, row]
    exact nowhere k
  · rw [withRam_ram, row] at entry
    have other : u ≠ f := by
      rintro rfl
      exact nowhere k entry
    rw [withRam_ram, cleared, Function.update_of_ne other]
    exact fun here => free (confined.pages k j u f user entry here).1.1
  · exact fun same => free (same ▸ here.1)

theorem newTable_confined (place : At A d) (low : d < 4096) (confined : Confined d own s₀ s)
    (small : i < 1024) :
    Ends (newTable A i) s (fun B s' => ∃ t, B = t * pageSize ∧ Confined d own s₀ s' ∧
      Obtained s₀ s' t ∧
      tables s'.ram d i = some t ∧ ∀ f, Data d s₀ s f → Data d s₀ s' f) fun _ =>
      Confined d own s₀ := by
  unfold newTable
  refine zeroPage_confined low confined fun t s₁ confined₁ data blank more row => ?_
  obtain ⟨r, is_r⟩ : ∃ r, r = s₁.ram.writeWords (d * pageSize + 4 * i) 1 fun _ =>
    makePde (t * pageSize) := ⟨_, rfl⟩
  have range := data.1.range
  have stored : tables r =
      Function.update (tables s₁.ram) d (Function.update (tables s₁.ram d) i (some t)) := by
    rw [is_r, tables_entry small (named_makePde (by omega))]
  refine .bind_ok (store32_at place small) (.pure ?_)
  rw [← is_r]
  refine ⟨t, rfl, confined₁.enterTable low blank stored (is_r ▸ within_store small), data.1,
    ?_, fun f here =>
    ⟨(more f here.1).1, fun k => ?_⟩⟩
  · show tables r d i = some t
    rw [stored, Function.update_self, Function.update_self]
  · show tables r d k ≠ some f
    rw [stored, Function.update_self]
    by_cases same : k = i
    · rw [same, Function.update_self]
      exact fun again => (more f here.1).2 (Option.some.inj again).symm
    · rw [Function.update_of_ne same, row]
      exact here.2 k

/-- A page is entered. -/
theorem storePage_confined (low : d < 4096) (confined : Confined d own s₀ s)
    (table : Obtained s₀ s u) (data : Data d s₀ s f) (inside : j < 1024) :
    ∃ s', store32 (u * pageSize + 4 * j) (makePte (f * pageSize)) s = .ok ⟨⟩ s' ∧
      Confined d own s₀ s' ∧ usedFrames s' = usedFrames s :=
  ⟨_, store32_at (.direct table.range.2) inside, confined.enterPage low table data
    (tables_entry inside (named_makePte (by have := data.1.range; omega))) (within_store inside),
    rfl⟩

theorem ensureTable_confined (place : At A d) (low : d < 4096) (confined : Confined d own s₀ s)
    (small : i < 1024) :
    Ends (ensureTable A i) s (fun _ s' => Confined d own s₀ s' ∧ ∃ t, tables s'.ram d i = some t)
      fun _ => Confined d own s₀ := by
  obtain ⟨w, load, word⟩ := load_entry (s := s) place small
  unfold ensureTable
  refine .bind_ok load (.ite (fun there => .pure ⟨confined, pageFrame w, ?_⟩) fun _ => .bind ?_)
  · exact word ▸ named_eq_some.mpr ⟨there, rfl⟩
  · refine (newTable_confined place low confined small).mono ?_ fun _ _ fails => fails
    rintro _ s' ⟨t, _, confined', _, entry, _⟩
    exact .pure ⟨confined', t, entry⟩

/-- **Table and page of an address.** -/
theorem ensureFirst_confined (place : At A d) (low : d < 4096) (confined : Confined d own s₀ s)
    (small : i < 1024) (inside : j < 1024) :
    Ends (ensureFirst A i j) s (fun B s' => ∃ t, B = t * pageSize ∧ Confined d own s₀ s' ∧
      Obtained s₀ s' t) fun _ => Confined d own s₀ := by
  unfold ensureFirst
  refine .bind ((ensureTable_confined place low confined small).mono ?_ fun _ _ fails => fails)
  rintro _ s₁ ⟨confined₁, t, entry⟩
  obtain ⟨w, load, word⟩ := load_entry (s := s₁) place small
  have table := confined₁.directory i t entry
  refine .bind_ok load ?_
  show Ends (ensurePage (pageFrame w * pageSize) j >>= fun _ =>
    pure (pageFrame w * pageSize)) s₁ _ _
  rw [(named_eq_some.mp (word.trans entry)).2]
  unfold ensurePage
  obtain ⟨v, load', _⟩ := load_entry (s := s₁) (At.direct table.range.2) inside
  rw [bind_assoc]
  refine .bind_ok load' ?_
  split
  · exact .pure ⟨t, rfl, confined₁, table⟩
  · simp only [bind_assoc]
    refine zeroPage_confined low confined₁ fun f s₂ confined₂ data _ more _ => ?_
    obtain ⟨s₃, run, confined₃, used⟩ :=
      storePage_confined low confined₂ (more t table).1 data inside
    exact .bind_ok run (.pure ⟨t, rfl, confined₃, (more t table).1.mono used.ge⟩)

/-- **The next page**, whatever stands in its place. -/
theorem nextPage_confined (place : At A d) (low : d < 4096) (confined : Confined d own s₀ s)
    (table : Obtained s₀ s t) (number : p = 1024 * i + j) (behind : 0 < j ∧ j ≤ 1024)
    (below : p < 1048576) :
    Ends (nextPage A (t * pageSize) i j) s (fun next s' => ∃ t', next.1 = t' * pageSize ∧
      Confined d own s₀ s' ∧
      Obtained s₀ s' t' ∧ p + 1 = 1024 * next.2.1 + next.2.2 ∧ 0 < next.2.2 ∧ next.2.2 ≤ 1024)
      fun _ => Confined d own s₀ := by
  unfold nextPage
  refine zeroPage_confined low confined fun f s₁ confined₁ data _ more _ => ?_
  by_cases last : j = 1024
  · rw [if_pos last]
    refine .bind ((newTable_confined place low confined₁ (show i + 1 < 1024 by omega)).mono ?_
      fun _ _ fails => fails)
    rintro _ s₂ ⟨t', rfl, confined₂, table', _, kept⟩
    obtain ⟨s₃, run, confined₃, used⟩ :=
      storePage_confined (j := 0) low confined₂ table' (kept f data) (by omega)
    exact .bind_ok run
      (.pure ⟨t', rfl, confined₃, table'.mono used.ge, by show p + 1 = 1024 * (i + 1) + 1; omega,
      Nat.one_pos, by show 1 ≤ 1024; omega⟩)
  · rw [if_neg last]
    obtain ⟨s₂, run, confined₂, used⟩ :=
      storePage_confined low confined₁ (more t table).1 data (show j < 1024 by omega)
    exact .bind_ok run (.pure ⟨t, rfl, confined₂, (more t table).1.mono used.ge,
      by show p + 1 = 1024 * i + (j + 1); omega,
      Nat.succ_pos j, by show j + 1 ≤ 1024; omega⟩)

theorem mapPages_confined (place : At A d) (low : d < 4096) (confined : Confined d own s₀ s)
    (table : Obtained s₀ s t) (number : p = 1024 * i + j) (behind : 0 < j ∧ j ≤ 1024)
    (below : p + n ≤ 1048576) :
    Ends (mapPages A n (t * pageSize, i, j)) s (fun _ => Confined d own s₀) fun _ =>
    Confined d own s₀ := by
  induction n generalizing p t i j s with
  | zero => exact .pure confined
  | succ n ih =>
      unfold mapPages
      refine .bind ((nextPage_confined place low confined table number behind (by omega)).mono ?_
        fun _ _ fails => fails)
      rintro ⟨B, i', j'⟩ s₁ ⟨t', same, confined₁, table', number', behind'⟩
      cases (show B = t' * pageSize from same)
      exact ih confined₁ table' number' behind' (by omega)

/-! ### The kernel's part, and the stack -/

/-- One of the tables that map the kernel. -/
theorem kernelTable_confined (place : At A d) (low : d < 4096) (confined : Confined d own s₀ s)
    (small : i < 4) :
    Ends (kernelTable A i) s (fun _ => Confined d own s₀) fun _ => Confined d own s₀ := by
  unfold kernelTable
  refine zeroPage_confined low confined fun t s₁ confined₁ data blank _ _ => ?_
  have range := data.1.range
  obtain ⟨r₁, is₁⟩ : ∃ r, r = s₁.ram.writeWords (d * pageSize + 4 * i) 1 fun _ =>
    makeSupervisorPde (t * pageSize) := ⟨_, rfl⟩
  obtain ⟨r₂, is₂⟩ : ∃ r, r = r₁.writeWords (d * pageSize + 4 * (i + 768)) 1 fun _ =>
    makePde (t * pageSize) := ⟨_, rfl⟩
  have stored₁ : tables r₁ =
      Function.update (tables s₁.ram) d (Function.update (tables s₁.ram d) i (some t)) := by
    rw [is₁, tables_entry (by omega) (named_makeSupervisorPde (by omega))]
  have stored₂ : tables r₂ =
      Function.update (tables r₁) d (Function.update (tables r₁ d) (i + 768) (some t)) := by
    rw [is₂, tables_entry (by omega) (named_makePde (by omega))]
  have confined₂ := confined₁.enterTable low blank stored₁ (is₁ ▸ within_store (by omega))
  have blank₂ := blank.enterKernel low (fun k u entry => (confined₁.directory k u entry).range.1)
    (.inl small) stored₁
  have confined₃ := confined₂.enterTable (r := r₂) low blank₂ stored₂
    (is₂ ▸ within_store (by omega))
  have blank₃ := blank₂.enterKernel low (fun k u entry => (confined₂.directory k u entry).range.1)
    (.inr (by omega)) stored₂
  have low_entry : store32 (A + 4 * i) (makeSupervisorPde (t * pageSize)) s₁ =
    .ok ⟨⟩ (s₁.withRam r₁) :=
    is₁ ▸ store32_at place (by omega)
  have high_entry : store32 (A + 4 * (i + 768)) (makePde (t * pageSize)) (s₁.withRam r₁) =
    .ok ⟨⟩ (s₁.withRam r₂) :=
    is₂ ▸ store32_at place (by omega)
  exact .bind_ok low_entry (.bind_ok high_entry (.ok (storeLoop_at (.direct range.2))
    (confined₃.fill low blank₃.obtained blank₃.nowhere within_all)))

/-- **`create_kernel_dir`**, with which the load begins. -/
theorem createKernelDir_confined (place : At A d) (low : d < 4096)
    (cursor : s.bitmapIdx < pageNum) :
    Ends (createKernelDir A) s (fun _ => Confined d own s) fun _ => Confined d own s := by
  have start : Confined d own s (s.emptied d) := by
    have none : ∀ i, tables (s.emptied d).ram d i = none :=
      fun i => by rw [tables_emptied, Function.update_self]
    refine ⟨cursor, Set.Subset.rfl, fun i t entry => ?_, fun i j t f _ entry => ?_,
      fun x _ _ dir _ => emptied_outside dir⟩
    · rw [none i] at entry
      cases entry
    · rw [none i] at entry
      cases entry
  unfold createKernelDir
  exact .bind_ok (storeLoop_at place)
    (Ends.loop (fun _ => Confined d own s) start fun i s₁ _ small here =>
    kernelTable_confined place low here (by omega))

/-- **`create_stack_page`.** -/
theorem createStackPage_confined (place : At A d) (low : d < 4096)
    (confined : Confined d own s₀ s) :
    Ends (createStackPage A) s (fun _ => Confined d own s₀) fun _ => Confined d own s₀ := by
  unfold createStackPage
  refine .bind ((newTable_confined place low confined (by omega)).mono ?_ fun _ _ fails => fails)
  rintro _ s₁ ⟨t, rfl, confined₁, table, _, _⟩
  refine Ends.mono (Ends.loop (fun _ s' => Confined d own s₀ s' ∧ Obtained s₀ s' t)
    ⟨confined₁, table⟩
    fun n s₂ _ small (here : Confined d own s₀ s₂ ∧ _) => ?_) (fun _ _ done => done.1)
      fun _ _ fails => fails
  unfold stackPage
  refine .bind (here.1.take.mono ?_ fun _ _ fails => fails)
  rintro _ s₃ ⟨f, rfl, _, used, _, confined₃, data⟩
  have kept := here.2.mono (used ▸ Set.subset_insert f _)
  obtain ⟨s₄, run, confined₄, same⟩ :=
    storePage_confined (j := 1023 - n) low confined₃ kept data (by omega)
  exact .ok run ⟨confined₄, kept.mono same.ge⟩

end Moves

end NjuOs.Memory
