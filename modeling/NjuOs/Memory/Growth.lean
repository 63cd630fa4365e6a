/-
**How an address space grows.**

`Grows d top held P n s₀ s`: on the way from `s₀` to `s` the address space with the directory in
frame `d` was given the places in `P`, from `n` frames that were free, and lost none; the frames in
`held` wait to be entered. Its entries from `top` on, every frame that is neither new nor one of its
tables, and all the rest are as they were.

The moves of the manager go on from there (`take`, `fill`, `enterTable`, `enterPage`), and one
growth follows another (`trans`). So the functions that build address spaces are specified each by
itself: a new table (`newTable_grows`), the next page of a segment or heap (`nextPage_grows`), the
kernel's part (`createKernelDir_ends`) and the stack (`createStackPage_ends`).
-/

import NjuOs.Memory.Frames

namespace NjuOs.Memory

open NjuOs.Lib

/-- The address space has grown by the places in `P`, from `n` free frames. -/
structure Grows (d top : Nat) (held : Set Nat) (P : Set Place) (n : Nat) (s₀ s : MemoryState) : Prop
    extends Owns d held s where
  used : usedFrames s₀ ⊆ usedFrames s
  kept : ∀ a f, reach (tables s₀.ram) d a = some f → reach (tables s.ram) d a = some f
  places : ∀ a, reach (tables s₀.ram) d a = none → (reach (tables s.ram) d a = none ↔ a ∉ P)
  fresh : ∀ a f, reach (tables s₀.ram) d a = none → reach (tables s.ram) d a = some f →
    f ∉ usedFrames s₀
  upper : ∀ i, top ≤ i → tables s.ram d i = tables s₀.ram d i
  bytes : ∀ x, frameOf x ≠ d → (frameOf x ∈ usedFrames s → frameOf x ∈ usedFrames s₀) →
    (∀ i, 4 ≤ i → reach (tables s.ram) d (.table i) ≠ some (frameOf x)) → s.ram x = s₀.ram x
  room : ∀ k, Room k s ↔ Room (k + n) s₀
  spaces : s.spaces = s₀.spaces

namespace Grows

variable {d top f t i j n m : Nat} {held held' : Set Nat} {P Q : Set Place} {s₀ s s' : MemoryState}
  {r : Store} {w : UInt32}

theorem refl (owns : Owns d held s) : Grows d top held ∅ 0 s s where
  toOwns := owns
  used := Set.Subset.refl _
  kept := fun _ _ here => here
  places := fun a none => ⟨fun _ => Set.notMem_empty a, fun _ => none⟩
  fresh := fun a f none some => by rw [none] at some; cases some
  upper := fun _ _ => rfl
  bytes := fun _ _ _ _ => rfl
  room := fun _ => Iff.rfl
  spaces := rfl

theorem trans (first : Grows d top held P n s₀ s) (second : Grows d top held' Q m s s') :
    Grows d top held' (P ∪ Q) (n + m) s₀ s' where
  toOwns := second.toOwns
  used := first.used.trans second.used
  kept := fun a f here => second.kept a f (first.kept a f here)
  places := by
    intro a none
    cases between : reach (tables s.ram) d a with
    | none => simp [second.places a between, (first.places a none).mp between]
    | some f =>
        have member : a ∈ P := by
          by_contra outside
          rw [(first.places a none).mpr outside] at between
          cases between
        simp [second.kept a f between, member]
  fresh := by
    intro a f none here
    cases between : reach (tables s.ram) d a with
    | none => exact fun old => second.fresh a f between here (first.used old)
    | some g =>
        have same := second.kept a g between
        rw [here] at same
        cases same
        exact first.fresh a f none between
  upper := fun i high => (second.upper i high).trans (first.upper i high)
  bytes := by
    intro x directory old table
    have late := second.bytes x directory (fun inside => first.used (old inside)) table
    have early := first.bytes x directory (fun inside => old (second.used inside))
      fun i user here =>
      table i user (second.kept _ _ here)
    exact late.trans early
  room := fun k => by rw [second.room k, first.room (k + m), Nat.add_assoc, Nat.add_comm m n]
  spaces := second.spaces.trans first.spaces

/-- The places may be described in another way. -/
theorem places_eq (grows : Grows d top held P n s₀ s) (same : ∀ a, a ∈ P ↔ a ∈ Q) :
    Grows d top held Q n s₀ s := by
  rw [← Set.ext same]
  exact grows

/-- At a place that was not given, nothing has changed. -/
theorem reach_other {a : Place} (grows : Grows d top held P n s₀ s) (outside : a ∉ P) :
    reach (tables s.ram) d a = reach (tables s₀.ram) d a := by
  cases before : reach (tables s₀.ram) d a with
  | none => exact (grows.places a before).mpr outside
  | some f => exact grows.kept a f before

/-- The places that were given are filled. -/
theorem isSome {a : Place} (grows : Grows d top held P n s₀ s) (inside : a ∈ P) :
    (reach (tables s.ram) d a).isSome := by
  cases before : reach (tables s₀.ram) d a with
  | none =>
      rw [Option.isSome_iff_ne_none, ne_eq, grows.places a before, not_not]
      exact inside
  | some f =>
      rw [grows.kept a f before]
      rfl

/-- A frame is taken. -/
theorem take (grows : Grows d top held P n s₀ s) (room : Room 1 s) :
    ∃ f s', getIdlePage s = .ok (f * pageSize) s' ∧
    Takes f s s' ∧ Grows d top (insert f held) P (n + 1) s₀ s' := by
  obtain ⟨f, s', run, takes, owns⟩ := grows.toOwns.take room
  refine ⟨f, s', run, takes, {
    toOwns := owns
    used := fun g old => takes.used ▸ Set.mem_insert_of_mem f (grows.used old)
    kept := by rw [takes.ram]; exact grows.kept
    places := by rw [takes.ram]; exact grows.places
    fresh := by rw [takes.ram]; exact grows.fresh
    upper := by rw [takes.ram]; exact grows.upper
    bytes := ?_
    room := fun k => by rw [takes.room, grows.room, Nat.add_right_comm, Nat.add_assoc]
    spaces := takes.spaces.trans grows.spaces }⟩
  rw [takes.ram, takes.used]
  exact fun x directory old table => grows.bytes x directory
    (fun inside => old (Set.mem_insert_of_mem f inside)) table

/-- A new frame that is no table of user pages is filled. -/
theorem fill (grows : Grows d top held P n s₀ s) (mine : f ∈ usedFrames s) (new : f ∉ usedFrames s₀)
    (table : ∀ i, 4 ≤ i → reach (tables s.ram) d (.table i) ≠ some f) (within : Within f s.ram r) :
    Grows d top held P n s₀ (s.withRam r) := by
  have low := grows.low
  have range := used_range mine
  have other : d ≠ f := by omega
  obtain ⟨same, owns⟩ := grows.toOwns.fill other.symm table within
  refine {
    toOwns := owns
    used := grows.used
    kept := by rw [withRam_ram, same]; exact grows.kept
    places := by rw [withRam_ram, same]; exact grows.places
    fresh := by rw [withRam_ram, same]; exact grows.fresh
    upper := ?_
    bytes := ?_
    room := grows.room
    spaces := grows.spaces }
  · intro i high
    show tables r d i = _
    rw [tables_within within, Function.update_of_ne other]
    exact grows.upper i high
  · intro x directory old table
    change ∀ i, 4 ≤ i → reach (tables r) d (.table i) ≠ some (frameOf x) at table
    rw [same] at table
    have elsewhere : frameOf x ≠ f := fun here => new (here ▸ old (here ▸ mine))
    exact (within x elsewhere).trans (grows.bytes x directory old table)

/-- A held frame was entered at an empty place. -/
theorem entered {a : Place} (grows : Grows d top (insert f held) P n s₀ s) (new : f ∉ usedFrames s₀)
    (owns : Owns d held (s.withRam r)) (empty : reach (tables s.ram) d a = none)
    (reached : reach (tables r) d = Function.update (reach (tables s.ram) d) a (some f))
    (upper : ∀ i, top ≤ i → tables r d i = tables s.ram d i)
    (bytes : ∀ x, frameOf x ≠ d → (∀ i, 4 ≤ i → reach (tables r) d (.table i) ≠ some (frameOf x)) →
      r x = s.ram x) :
    Grows d top held (insert a P) n s₀ (s.withRam r) where
  toOwns := owns
  used := grows.used
  kept := by
    intro b g here
    have before := grows.kept b g here
    have other : b ≠ a := by
      rintro rfl
      rw [empty] at before
      cases before
    show reach (tables r) d b = some g
    rw [reached, Function.update_of_ne other, before]
  places := by
    intro b none
    show reach (tables r) d b = _ ↔ _
    rw [reached]
    by_cases here : b = a
    · simp [here]
    · rw [Function.update_of_ne here, grows.places b none]
      simp [here]
  fresh := by
    intro b g none here
    change reach (tables r) d b = some g at here
    rw [reached] at here
    by_cases same : b = a
    · rw [same, Function.update_self] at here
      cases here
      exact new
    · rw [Function.update_of_ne same] at here
      exact grows.fresh b g none here
  upper := fun i high => (upper i high).trans (grows.upper i high)
  bytes := by
    intro x directory old table
    refine (bytes x directory table).trans (grows.bytes x directory old fun i user here => ?_)
    refine table i user ?_
    show reach (tables r) d (.table i) = _
    have other : Place.table i ≠ a := by
      rintro rfl
      rw [empty] at here
      cases here
    rw [reached, Function.update_of_ne other, here]
  room := grows.room
  spaces := grows.spaces

/-- An empty table is entered in the directory. -/
theorem enterTable (grows : Grows d top (insert t held) P n s₀ s) (free : t ∉ held)
    (new : t ∉ usedFrames s₀) (small : i < 768) (below : i < top) (empty : tables s.ram d i = none)
    (clear : ∀ j, tables s.ram t j = none)
    (stored : tables r =
      Function.update (tables s.ram) d (Function.update (tables s.ram d) i (some t)))
    (within : Within d s.ram r) :
    reach (tables r) d = Function.update (reach (tables s.ram) d) (.table i) (some t) ∧
      Grows d top held (insert (.table i) P) n s₀ (s.withRam r) := by
  obtain ⟨reached, owns⟩ := grows.toOwns.enterTable free small empty clear stored
  refine ⟨reached, grows.entered new owns ((reach_table small).trans empty) reached
    (fun k high => ?_) ?_⟩
  · rw [stored, Function.update_self, Function.update_of_ne (by omega)]
  · exact fun x directory _ => within x directory

/-- An entry at `0xC0000000` or above, which the growth leaves open. -/
theorem enterUpper {entry : Option Nat} (grows : Grows d top held P n s₀ s) (high : 768 ≤ i)
    (below : i < top)
    (stored : tables r =
      Function.update (tables s.ram) d (Function.update (tables s.ram d) i entry))
    (within : Within d s.ram r) :
    reach (tables r) d = reach (tables s.ram) d ∧ Grows d top held P n s₀ (s.withRam r) := by
  have same : reach (tables r) d = reach (tables s.ram) d := by
    rw [stored]
    exact reach_enterUpper high fun k u inside entry => grows.ne_directory
      (reach_table_eq_some.mpr ⟨inside, entry⟩)
  refine ⟨same, {
    toOwns := ⟨?_, grows.low, grows.cursor⟩
    used := grows.used
    kept := by rw [withRam_ram, same]; exact grows.kept
    places := by rw [withRam_ram, same]; exact grows.places
    fresh := by rw [withRam_ram, same]; exact grows.fresh
    upper := fun k above => ?_
    bytes := fun x directory old table => ?_
    room := grows.room
    spaces := grows.spaces }⟩
  · rw [withRam_ram, same]
    exact grows.owned
  · rw [withRam_ram, stored, Function.update_self, Function.update_of_ne (by omega)]
    exact grows.upper k above
  · rw [withRam_ram, same] at table
    exact (within x directory).trans (grows.bytes x directory old table)

/-- A page is entered in a table. -/
theorem enterPage (grows : Grows d top (insert f held) P n s₀ s) (free : f ∉ held)
    (new : f ∉ usedFrames s₀) (user : 4 ≤ i ∧ i < 768) (entry : tables s.ram d i = some t)
    (empty : tables s.ram t j = none)
    (stored : tables r =
      Function.update (tables s.ram) t (Function.update (tables s.ram t) j (some f)))
    (within : Within t s.ram r) :
    reach (tables r) d = Function.update (reach (tables s.ram) d) (.page i j) (some f) ∧
      Grows d top held (insert (.page i j) P) n s₀ (s.withRam r) := by
  have table : reach (tables s.ram) d (.table i) = some t := reach_table_eq_some.mpr ⟨user.2, entry⟩
  obtain ⟨reached, owns⟩ := grows.toOwns.enterPage free user.1 user.2 entry empty stored
  refine ⟨reached, grows.entered new owns ?_ reached (fun k _ => ?_) fun x _ tables => ?_⟩
  · rw [reach_page user entry, empty]
  · rw [stored, Function.update_of_ne (grows.ne_directory table).symm]
  · refine within x fun here => tables i user.1 ?_
    rw [reached, Function.update_of_ne (by simp), table, here]

/-- The kernel's part stays as it is. -/
theorem kernelMapped (grows : Grows d 768 held P n s₀ s) (owns : Owns d held' s₀)
    (kernel : KernelMapped (tables s₀.ram) d) :
    KernelMapped (tables s.ram) d := by
  refine ⟨fun k small => ?_, fun k high => (grows.upper k (by omega)).trans (kernel.rest k high)⟩
  obtain ⟨t, first, second, row⟩ := kernel.tables k small
  have before : reach (tables s₀.ram) d (.table k) = some t :=
    reach_table_eq_some.mpr ⟨by omega, first⟩
  have here := grows.kept _ _ before
  refine ⟨t, (reach_table_eq_some.mp here).2, (grows.upper _ (by omega)).trans second,
    fun l inside => ?_⟩
  rw [← row l inside, tables_congr t fun x same => ?_]
  refine grows.bytes x ?_ (fun _ => ?_) fun l user table => ?_
  · rw [same]
    exact owns.ne_directory before
  · rw [same]
    exact owns.owned.used_of_holds before
  · rw [same] at table
    have place := grows.owned.unique _ _ t table here
    cases place
    omega

end Grows

/-! ### Tables and pages -/

/-- Every byte of the frame is zero. -/
def Zeroed (f : Nat) (ram : Store) : Prop := ∀ x, frameOf x = f → ram x = 0

/-- The places that are filled for the pages `p`, …, `p + n - 1`, with a new table at each
border. -/
def newPlaces (p n : Nat) : Set Place :=
  {a | ∃ q, p ≤ q ∧ q < p + n ∧ (a = .pageAt q ∨ q % 1024 = 0 ∧ a = .table (q / 1024))}

/-- The frames for them. -/
def newFrames (p n : Nat) : Nat := n + ((p + n + 1023) / 1024 - (p + 1023) / 1024)

/-- Where `load_segment` and `sbrk` stand in front of page `p`: the table of the page before, in
entry `i`, and the index `j` behind that page. -/
structure Cursor (d p t i j : Nat) (s : MemoryState) : Prop where
  page : p = 1024 * i + j
  behind : 0 < j ∧ j ≤ 1024
  user : 4 ≤ i ∧ i < 768
  entry : tables s.ram d i = some t

theorem newPlaces_one {p : Nat} {a : Place} :
    a ∈ newPlaces p 1 ↔ a = .pageAt p ∨ p % 1024 = 0 ∧ a = .table (p / 1024) := by
  constructor
  · rintro ⟨q, low, high, here⟩
    obtain rfl : q = p := by omega
    exact here
  · exact fun here => ⟨p, by omega, by omega, here⟩

section Specs

variable {A d f t i j p : Nat} {held : Set Nat} {s s₀ : MemoryState}

theorem zeroed_clear {ram : Store} : Zeroed f (ram.clear (f * pageSize) pageSize) := by
  intro x inside
  unfold frameOf at inside
  refine Store.clear_inside ?_ ?_
  · unfold pageSize
    omega
  · unfold pageSize
    omega

/-- `new_table`: the table is empty. -/
theorem newTable_grows (place : At A d) (owns : Owns d held s) (room : Room 1 s) (small : i < 768)
    (empty : tables s.ram d i = none) : ∃ t s', newTable A i s = .ok (t * pageSize) s' ∧
      Grows d 768 held {.table i} 1 s s' ∧ tables s'.ram d i = some t ∧
      ∀ j, tables s'.ram t j = none := by
  have start : Grows d 768 held ∅ 0 s s := .refl owns
  obtain ⟨t, s₁, taken, takes, grows⟩ := start.take room
  have low := owns.low
  have range := takes.range
  have other : t ≠ d := by omega
  have mine : t ∈ usedFrames s₁ := takes.used ▸ Set.mem_insert t _
  have free : t ∉ held := fun member => takes.free (owns.owned.used_of_held member)
  obtain ⟨r₁, is₁⟩ : ∃ r, r = s₁.ram.clear (t * pageSize) pageSize := ⟨_, rfl⟩
  obtain ⟨r₂, is₂⟩ : ∃ r, r = r₁.writeWords (d * pageSize + 4 * i) 1 fun _ =>
    makePde (t * pageSize) := ⟨_, rfl⟩
  have tables₁ : tables r₁ = Function.update (tables s.ram) t fun _ => none := by
    rw [is₁, tables_clear, takes.ram]
  have tables₂ : tables r₂ =
      Function.update (tables r₁) d (Function.update (tables r₁ d) i (some t)) := by
    rw [is₂, tables_entry (by omega) (named_makePde (by omega))]
  have empty₁ : tables r₁ d i = none := by rw [tables₁, Function.update_of_ne other.symm, empty]
  have clear₁ : ∀ j, tables r₁ t j = none := by
    intro j
    rw [tables₁, Function.update_self]
  have filled := grows.fill mine takes.free
    (fun i _ => grows.toOwns.held_ne (Set.mem_insert t held) i)
    (r := r₁) (is₁ ▸ within_clear)
  obtain ⟨_, done⟩ := filled.enterTable (r := r₂) free takes.free small small empty₁ clear₁ tables₂
    (is₂ ▸ within_store (by omega))
  refine ⟨t, s₁.withRam r₂, ?_, done.places_eq (by simp), ?_, fun j => ?_⟩
  · unfold newTable
    rw [run_bind taken, run_bind (memset_at (.direct range.2)),
      run_bind (store32_at place (by omega)), is₂, is₁]
    rfl
  · rw [withRam_ram, tables₂, Function.update_self, Function.update_self]
  · rw [withRam_ram, tables₂, Function.update_of_ne other, clear₁]

theorem newTable_full (cursor : s.bitmapIdx < pageNum) (full : ¬ Room 1 s) :
    newTable A i s = .error .hang s := by
  unfold newTable
  exact run_bind_error (getIdlePage_full cursor full)

/-- A new page: a frame, what is put there, and its entry. -/
theorem newPage_grows (fill : Nat → Mm PUnit) (content : Nat → Store → Store) (owns : Owns d held s)
    (room : Room 1 s) (user : 4 ≤ i ∧ i < 768) (inside : j < 1024)
    (entry : tables s.ram d i = some t) (empty : tables s.ram t j = none)
    (filled : ∀ f s', Takes f s s' → fill (f * pageSize) s' =
      .ok ⟨⟩ (s'.withRam (content f s.ram)) ∧ Within f s.ram (content f s.ram)) :
    ∃ f s', (do
        let pframe ← getIdlePage
        fill pframe
        store32 (t * pageSize + 4 * j) (makePte pframe)) s = .ok ⟨⟩ s' ∧
      Grows d 768 held {.page i j} 1 s s' ∧ reach (tables s'.ram) d (.page i j) = some f ∧
      ∀ x, frameOf x = f → s'.ram x = content f s.ram x := by
  have start : Grows d 768 held ∅ 0 s s := .refl owns
  obtain ⟨f, s₁, taken, takes, grows⟩ := start.take room
  have low := owns.low
  have range := takes.range
  have table : reach (tables s.ram) d (.table i) = some t := reach_table_eq_some.mpr ⟨user.2, entry⟩
  have other : t ≠ f := by
    rintro rfl
    exact takes.free (owns.owned.used_of_holds table)
  have mine : f ∈ usedFrames s₁ := takes.used ▸ Set.mem_insert f _
  have free : f ∉ held := fun member => takes.free (owns.owned.used_of_held member)
  obtain ⟨stored, within⟩ := filled f s₁ takes
  obtain ⟨r₁, is₁⟩ : ∃ r, r = content f s.ram := ⟨_, rfl⟩
  obtain ⟨r₂, is₂⟩ : ∃ r, r = r₁.writeWords (t * pageSize + 4 * j) 1 fun _ =>
    makePte (f * pageSize) := ⟨_, rfl⟩
  rw [← is₁] at stored within
  have tables₁ := tables_within within
  have tables₂ : tables r₂ =
      Function.update (tables r₁) t (Function.update (tables r₁ t) j (some f)) := by
    rw [is₂, tables_entry inside (named_makePte (by omega))]
  have within₂ : Within t r₁ r₂ := is₂ ▸ within_store inside
  have entry₁ : tables r₁ d i = some t := by rw [tables₁, Function.update_of_ne (by omega), entry]
  have empty₁ : tables r₁ t j = none := by rw [tables₁, Function.update_of_ne other, empty]
  have full := grows.fill mine takes.free
    (fun i _ => grows.toOwns.held_ne (Set.mem_insert f held) i)
    (r := r₁) (by rw [takes.ram]; exact within)
  obtain ⟨reached, done⟩ :=
    full.enterPage (r := r₂) free takes.free user entry₁ empty₁ tables₂ within₂
  refine ⟨f, s₁.withRam r₂, ?_, done.places_eq (by simp), ?_, fun x here => ?_⟩
  · rw [run_bind taken, run_bind stored, is₂]
    exact store32_at (.direct (owns.range table).2) inside
  · rw [withRam_ram, reached, Function.update_self]
  · rw [withRam_ram, within₂ x (by rw [here]; exact other.symm), is₁]

/-- A new page of zeros. -/
theorem newPage_zeroed (owns : Owns d held s) (room : Room 1 s) (user : 4 ≤ i ∧ i < 768)
    (inside : j < 1024) (entry : tables s.ram d i = some t) (empty : tables s.ram t j = none) :
    ∃ f s', (do
        let pframe ← getIdlePage
        memset pframe pageSize
        store32 (t * pageSize + 4 * j) (makePte pframe)) s = .ok ⟨⟩ s' ∧
      Grows d 768 held {.page i j} 1 s s' ∧ reach (tables s'.ram) d (.page i j) = some f ∧
      Zeroed f s'.ram := by
  obtain ⟨f, s', run, grows, reached, content⟩ := newPage_grows (fun A => memset A pageSize)
    (fun f ram => ram.clear (f * pageSize) pageSize) owns room user inside entry empty
    fun f s' takes =>
    ⟨by rw [memset_at (.direct takes.range.2), takes.ram]; rfl, within_clear⟩
  exact ⟨f, s', run, grows, reached, fun x here => (content x here).trans (zeroed_clear x here)⟩

/-! ### The kernel's part, and the stack -/

/-- The page directory without an entry. -/
def MemoryState.emptied (s : MemoryState) (d : Nat) : MemoryState :=
  s.withRam (s.ram.writeWords (d * pageSize) 1024 fun _ => 0)

theorem tables_emptied :
    tables (s.emptied d).ram = Function.update (tables s.ram) d fun _ => none := by
  show tables (Store.writeWords _ _ _ _) = _
  rw [tables_words]
  congr 1
  funext j
  simp

theorem emptied_outside {x : Nat} (outside : frameOf x ≠ d) : (s.emptied d).ram x = s.ram x := by
  have within : Within d s.ram (s.ram.writeWords (d * pageSize) 1024 fun _ => 0) := within_all
  exact within x outside

theorem reach_emptied (a : Place) : reach (tables (s.emptied d).ram) d a = none := by
  rw [tables_emptied]
  cases a with
  | table i => simp [reach_table_def]
  | page i j => simp [reach_page_def]

/-- Before the first entry every frame in use belongs to others. -/
theorem owns_emptied (low : d < 4096) (cursor : s.bitmapIdx < pageNum) :
    Owns d (usedFrames s) (s.emptied d) where
  owned := {
    unique := fun a _ f here => by rw [reach_emptied] at here; cases here
    apart := fun a f here => by rw [reach_emptied] at here; cases here
    marked := by
      intro f
      simp only [reach_emptied, reduceCtorEq, exists_false, or_false]
      rfl }
  low := low
  cursor := cursor

/-- The tables of the kernel that `create_kernel_dir` has laid out after `n` turns. -/
def Laid (n d : Nat) (T : Nat → Nat → Option Nat) : Prop :=
  ∀ i, i < n → ∃ t, T d i = some t ∧ T d (i + 768) = some t ∧ ∀ j, j < 1024 →
    T t j = some (1024 * i + j)

/-- The state after `n` turns. -/
structure KernelDir (s : MemoryState) (d n : Nat) (s' : MemoryState) : Prop where
  laid : Laid n d (tables s'.ram)
  grows : Grows d 772 (usedFrames s) {a | ∃ k, k < n ∧ a = .table k} n (s.emptied d) s'

/-- One turn: the table is entered twice and filled. -/
theorem kernelTable_turn {s₁ : MemoryState} (place : At A d) (small : i < 4)
    (here : KernelDir s d i s₁) (room : Room 1 s₁) :
    ∃ s', kernelTable A i s₁ = .ok ⟨⟩ s' ∧ KernelDir s d (i + 1) s' := by
  obtain ⟨t, s₂, taken, takes, grows⟩ := here.grows.take room
  have low := grows.low
  have range := takes.range
  have other : t ≠ d := by omega
  have mine : t ∈ usedFrames s₂ := takes.used ▸ Set.mem_insert t _
  have new : t ∉ usedFrames s := fun old => takes.free (here.grows.used old)
  have empty : tables s₁.ram d i = none := by
    have nowhere := (here.grows.places (.table i) (reach_emptied _)).mpr fun ⟨k, below, same⟩ => by
      cases same; omega
    rwa [reach_table (by omega)] at nowhere
  obtain ⟨r₁, is₁⟩ : ∃ r, r = s₂.ram.clear (t * pageSize) pageSize := ⟨_, rfl⟩
  obtain ⟨r₂, is₂⟩ : ∃ r, r = r₁.writeWords (d * pageSize + 4 * i) 1 fun _ =>
    makeSupervisorPde (t * pageSize) := ⟨_, rfl⟩
  obtain ⟨r₃, is₃⟩ : ∃ r, r = r₂.writeWords (d * pageSize + 4 * (i + 768)) 1 fun _ =>
    makePde (t * pageSize) := ⟨_, rfl⟩
  obtain ⟨r₄, is₄⟩ :
    ∃ r, r = r₃.writeWords (t * pageSize) 1024 fun j => makePte ((1024 * i + j) * 4096) := ⟨_, rfl⟩
  have tables₁ : tables r₁ = Function.update (tables s₁.ram) t fun _ => none := by
    rw [is₁, tables_clear, takes.ram]
  have tables₂ : tables r₂ =
      Function.update (tables r₁) d (Function.update (tables r₁ d) i (some t)) := by
    rw [is₂, tables_entry (by omega) (named_makeSupervisorPde (by omega))]
  have tables₃ : tables r₃ =
      Function.update (tables r₂) d (Function.update (tables r₂ d) (i + 768) (some t)) := by
    rw [is₃, tables_entry (by omega) (named_makePde (by omega))]
  have tables₄ : tables r₄ = Function.update (tables r₃) t fun j =>
      if j < 1024 then named (makePte ((1024 * i + j) * 4096)) else none := by
    rw [is₄, tables_words]
  have within₄ : Within t r₃ r₄ := is₄ ▸ within_all
  have cleared := grows.fill mine new (fun k _ => grows.toOwns.held_ne (Set.mem_insert t _) k)
    (r := r₁) (is₁ ▸ within_clear)
  obtain ⟨reached, entered⟩ := cleared.enterTable (i := i) (r := r₂) new new (by omega) (by omega)
    (by rw [withRam_ram, tables₁, Function.update_of_ne other.symm, empty])
    (by intro j; rw [withRam_ram, tables₁, Function.update_self]) tables₂
    (is₂ ▸ within_store (by omega))
  obtain ⟨kept, twice⟩ := entered.enterUpper (r := r₃) (i := i + 768) (by omega) (by omega) tables₃
    (is₃ ▸ within_store (by omega))
  have table : reach (tables r₃) d (.table i) = some t := by
    rw [kept, withRam_ram, reached, Function.update_self]
  have laid := twice.fill (r := r₄) mine new (fun k user there => by
    cases twice.owned.unique _ _ t there table
    omega) within₄
  have directory :
      tables r₄ d = Function.update (Function.update (tables s₁.ram d) i (some t)) (i + 768)
      (some t) := by
    rw [tables₄, Function.update_of_ne other.symm, tables₃, Function.update_self, tables₂,
      Function.update_self, tables₁, Function.update_of_ne other.symm]
  have rest : ∀ g, g ≠ t → g ≠ d → tables r₄ g = tables s₁.ram g := by
    intro g not_table not_directory
    rw [tables₄, Function.update_of_ne not_table, tables₃, Function.update_of_ne not_directory,
      tables₂, Function.update_of_ne not_directory, tables₁, Function.update_of_ne not_table]
  refine ⟨s₂.withRam r₄, ?_, fun k below => ?_, laid.places_eq fun a => ?_⟩
  · unfold kernelTable
    rw [run_bind taken, run_bind (memset_at (.direct range.2)),
      run_bind (store32_at place (by omega)), run_bind (store32_at place (by omega)),
      storeLoop_at (.direct range.2), is₄, is₃, is₂, is₁]
    rfl
  · by_cases same : k = i
    · subst same
      refine ⟨t, ?_, ?_, fun j inside => ?_⟩
      · rw [withRam_ram, directory, Function.update_of_ne (by omega), Function.update_self]
      · rw [withRam_ram, directory, Function.update_self]
      · rw [withRam_ram, tables₄, Function.update_self, if_pos inside]
        exact named_makePte (by omega)
    · obtain ⟨u, first, second, row⟩ := here.laid k (by omega)
      have owned : reach (tables s₁.ram) d (.table k) = some u :=
        reach_table_eq_some.mpr ⟨by omega, first⟩
      have apart : u ≠ t := by
        rintro rfl
        exact takes.free (here.grows.owned.used_of_holds owned)
      refine ⟨u, ?_, ?_, fun j inside => ?_⟩
      · rw [withRam_ram, directory, Function.update_of_ne (by omega),
          Function.update_of_ne same, first]
      · rw [withRam_ram, directory, Function.update_of_ne (by omega),
          Function.update_of_ne (by omega), second]
      · rw [withRam_ram, rest u apart (here.grows.ne_directory owned), row j inside]
  · rw [Set.mem_insert_iff, Set.mem_ofPred_eq, Set.mem_ofPred_eq]
    constructor
    · rintro (rfl | ⟨k, below, rfl⟩)
      · exact ⟨i, by omega, rfl⟩
      · exact ⟨k, by omega, rfl⟩
    · rintro ⟨k, below, rfl⟩
      by_cases same : k = i
      · exact .inl (by rw [same])
      · exact .inr ⟨k, by omega, rfl⟩

/-- **`create_kernel_dir` lays out the kernel's part**, in an address space that has nothing else,
unless frames are lacking. -/
theorem createKernelDir_ends (place : At A d) (low : d < 4096) (cursor : s.bitmapIdx < pageNum) :
    Ends (createKernelDir A) s (fun _ s' => KernelDir s d 4 s') fun _ _ => ¬ Room 4 s := by
  unfold createKernelDir
  refine .bind_ok (storeLoop_at place) (Ends.loop (s := s.emptied d) (KernelDir s d)
    ⟨fun i below => absurd below (by omega), ?_⟩ fun i s₁ _ small here => ?_)
  · exact (Grows.refl (owns_emptied low cursor)).places_eq (by simp)
  · by_cases room : Room 1 s₁
    · obtain ⟨s', run, next⟩ := kernelTable_turn place (by omega) here room
      exact .ok run next
    · refine .error (run_bind_error (getIdlePage_full here.grows.cursor room)) fun more => room ?_
      exact (here.grows.room 1).mpr (le_trans (by omega) more)

theorem createKernelDir_ok (place : At A d) (low : d < 4096) (cursor : s.bitmapIdx < pageNum)
    (room : Room 4 s) :
    ∃ s', createKernelDir A s = .ok ⟨⟩ s' ∧ KernelDir s d 4 s' := by
  obtain ⟨_, s', run, here⟩ := (createKernelDir_ends place low cursor).run_where room
  exact ⟨s', run, here⟩

/-- The places of the stack. -/
def stackPlaces : Set Place := {a | a = .table 767 ∨ ∃ j, 1014 ≤ j ∧ j < 1024 ∧ a = .page 767 j}

/-- **`create_stack_page` maps ten pages**, unless frames are lacking. -/
theorem createStackPage_ends (place : At A d) (owns : Owns d held s)
    (empty : tables s.ram d 767 = none) :
    Ends (createStackPage A) s (fun _ s' => Grows d 768 held stackPlaces 11 s s') fun _ _ =>
    ¬ Room 11 s := by
  unfold createStackPage
  by_cases some : Room 1 s
  · obtain ⟨t, s₁, run, first, entry, clear⟩ := newTable_grows place owns some (by omega) empty
    have before : ∀ j, reach (tables s₁.ram) d (.page 767 j) = none := fun j => by
      rw [reach_page (by omega) entry, clear]
    have turns : Ends (loop (stackPage (t * pageSize)) 10 0) s₁ (fun _ s' =>
        Grows d 768 held {a | ∃ j, 1024 - (0 + 10) ≤ j ∧ j < 1024 ∧ a = .page 767 j} (0 + 10) s₁ s')
        fun _ _ => ¬ Room 11 s := by
      refine Ends.loop (fun n s' => Grows d 768 held {a | ∃ j, 1024 - n ≤ j ∧ j < 1024 ∧
        a = .page 767 j} n s₁ s') ?_
        fun n s₂ _ small here => ?_
      · refine (Grows.refl first.toOwns).places_eq fun a => ⟨fun member => member.elim, ?_⟩
        rintro ⟨j, low, high, _⟩
        omega
      · have entry₂ := (reach_table_eq_some.mp
          (here.kept _ _ (reach_table_eq_some.mpr ⟨by omega, entry⟩))).2
        have empty₂ : tables s₂.ram t (1023 - n) = none := by
          rw [← reach_page (by omega) entry₂, here.places _ (before _)]
          rintro ⟨j, low, _, same⟩
          cases same
          omega
        by_cases room₂ : Room 1 s₂
        · obtain ⟨f, s₃, page, grows, _⟩ :=
            newPage_grows (j := 1023 - n) (fun _ => pure ⟨⟩) (fun _ ram => ram)
            here.toOwns room₂ (by omega) (by omega) entry₂ empty₂ fun f s' takes =>
              ⟨by rw [← takes.ram]; rfl, fun _ _ => rfl⟩
          refine .ok page ((here.trans grows).places_eq fun a => ?_)
          constructor
          · rintro (⟨j, low, high, rfl⟩ | rfl)
            · exact ⟨j, by omega, high, rfl⟩
            · exact ⟨1023 - n, by omega, by omega, rfl⟩
          · rintro ⟨j, low, high, rfl⟩
            by_cases last : j = 1023 - n
            · exact .inr (by rw [last]; rfl)
            · exact .inl ⟨j, by omega, high, rfl⟩
        · refine .error (run_bind_error (getIdlePage_full here.cursor room₂)) fun more => room₂ ?_
          exact (here.room 1).mpr ((first.room (1 + n)).mpr (le_trans (by omega) more))
    refine .bind_ok run (turns.mono (fun _ s' grows => ?_) fun _ _ full => full)
    exact (first.trans grows).places_eq fun a => Iff.rfl
  · exact .error (run_bind_error (newTable_full owns.cursor some)) fun more =>
      some (le_trans (by omega) more)

/-- The ten pages below `0xC0000000` are mapped. -/
def StackMapped (T : Nat → Nat → Option Nat) (d : Nat) : Prop :=
  ∀ j, 1014 ≤ j → j < 1024 → (reach T d (.page 767 j)).isSome

theorem StackMapped.translate {T : Nat → Nat → Option Nat} {va : Nat} (stack : StackMapped T d)
    (low : 3221184512 ≤ va) (high : va < kOffset) :
    (translate T d va).isSome := by
  have top := high
  unfold kOffset at top
  rw [translate_user (le_trans (by decide) low) high, Option.isSome_map]
  have page : Place.pageAt (va / 4096) = .page 767 (va / 4096 % 1024) := by
    unfold Place.pageAt
    rw [show va / 4096 / 1024 = 767 by omega]
  rw [page]
  exact stack _ (by omega) (by omega)

/-! ### Segments and the heap -/

/-- One frame, if nothing is at the place. -/
def vacant (T : Nat → Nat → Option Nat) (d : Nat) (a : Place) : Nat :=
  if (reach T d a).isSome then 0 else 1

/-- A table for an address, if there is none. -/
theorem ensureTable_grows (place : At A d) (owns : Owns d held s) (small : i < 768)
    (room : Room (vacant (tables s.ram) d (.table i)) s) : ∃ t s', ensureTable A i s = .ok ⟨⟩ s' ∧
      Grows d 768 held {.table i} (vacant (tables s.ram) d (.table i)) s s' ∧
      tables s'.ram d i = some t := by
  obtain ⟨w, load, word⟩ := load_entry (s := s) place (show i < 1024 by omega)
  have same := reach_table (T := tables s.ram) (d := d) small
  unfold ensureTable vacant at *
  rw [same] at room ⊢
  rw [run_bind load]
  cases entry : tables s.ram d i with
  | none =>
      rw [entry] at word room
      rw [named_eq_none.mp word, if_neg Bool.false_ne_true]
      obtain ⟨t, s', run, grows, entered, _⟩ := newTable_grows place owns room small entry
      refine ⟨t, s', ?_, grows, entered⟩
      rw [run_bind run]
      rfl
  | some t =>
      rw [entry] at word
      rw [(named_eq_some.mp word).1, if_pos rfl]
      refine ⟨t, s, rfl, ?_, entry⟩
      refine { Grows.refl owns with places := fun a none => ?_ }
      simp only [Set.mem_singleton_iff, none, true_iff]
      rintro rfl
      rw [same, entry] at none
      cases none

/-- A page for an address, if there is none. -/
theorem ensurePage_grows (owns : Owns d held s) (user : 4 ≤ i ∧ i < 768) (inside : j < 1024)
    (entry : tables s.ram d i = some t) (room : Room (vacant (tables s.ram) d (.page i j)) s) :
    ∃ s', ensurePage (t * pageSize) j s = .ok ⟨⟩ s' ∧
      Grows d 768 held {.page i j} (vacant (tables s.ram) d (.page i j)) s s' ∧
      (reach (tables s.ram) d (.page i j) = none →
        ∃ f, reach (tables s'.ram) d (.page i j) = some f ∧ Zeroed f s'.ram) := by
  have table : reach (tables s.ram) d (.table i) = some t := reach_table_eq_some.mpr ⟨user.2, entry⟩
  obtain ⟨w, load, word⟩ := load_entry (s := s) (At.direct (owns.range table).2) inside
  have same := reach_page (j := j) user entry
  unfold ensurePage vacant at *
  rw [same] at room ⊢
  rw [run_bind load]
  cases page : tables s.ram t j with
  | none =>
      rw [page] at word room
      rw [named_eq_none.mp word, if_neg Bool.false_ne_true]
      obtain ⟨f, s', run, grows, reached, zeroed⟩ := newPage_zeroed owns room user inside entry page
      exact ⟨s', run, grows, fun _ => ⟨f, reached, zeroed⟩⟩
  | some f =>
      rw [page] at word
      rw [(named_eq_some.mp word).1, if_pos rfl]
      refine ⟨s, rfl, ?_, fun none => by cases none⟩
      refine { Grows.refl owns with places := fun a none => ?_ }
      simp only [Set.mem_singleton_iff, none, true_iff]
      rintro rfl
      rw [same, page] at none
      cases none

/-- **Table and page of an address** are there behind `ensureFirst`, and a new page is zero. -/
theorem ensureFirst_grows (place : At A d) (owns : Owns d held s) (user : 4 ≤ i ∧ i < 768)
    (inside : j < 1024)
    (room : Room (vacant (tables s.ram) d (.table i) + vacant (tables s.ram) d (.page i j)) s) :
    ∃ t s', ensureFirst A i j s = .ok (t * pageSize) s' ∧ Grows d 768 held {.table i, .page i j}
        (vacant (tables s.ram) d (.table i) + vacant (tables s.ram) d (.page i j)) s s' ∧
        tables s'.ram d i = some t ∧
      (reach (tables s.ram) d (.page i j) = none →
        ∃ f, reach (tables s'.ram) d (.page i j) = some f ∧ Zeroed f s'.ram) := by
  obtain ⟨t, s₁, run, first, entry⟩ :=
    ensureTable_grows place owns user.2 (le_trans (by omega) room)
  have page := first.reach_other (a := .page i j) (by simp)
  have same : vacant (tables s₁.ram) d (.page i j) = vacant (tables s.ram) d (.page i j) := by
    unfold vacant
    rw [page]
  obtain ⟨s', rest, second, zeroed⟩ := ensurePage_grows first.toOwns user inside entry
    (by rw [same, first.room, Nat.add_comm]; exact room)
  rw [same] at second
  rw [page] at zeroed
  obtain ⟨w, load, word⟩ := load_entry (s := s₁) place (show i < 1024 by omega)
  rw [entry] at word
  have kept := second.kept _ _ (reach_table_eq_some.mpr ⟨user.2, entry⟩)
  refine ⟨t, s', ?_, (first.trans second).places_eq fun a => ?_,
    (reach_table_eq_some.mp kept).2, zeroed⟩
  · unfold ensureFirst
    rw [run_bind run, run_bind load]
    show (ensurePage (pageFrame w * pageSize) j >>= fun _ => pure (pageFrame w * pageSize)) s₁ = _
    rw [(named_eq_some.mp word).2, run_bind rest]
    rfl
  · simp [or_comm]

theorem room_zero : Room 0 s := Nat.zero_le _

/-- Without the frames for them the search never ends. -/
theorem ensureFirst_full (place : At A d) (owns : Owns d held s) (user : 4 ≤ i ∧ i < 768)
    (inside : j < 1024)
    (full : ¬ Room (vacant (tables s.ram) d (.table i) + vacant (tables s.ram) d (.page i j)) s) :
    ∃ s', ensureFirst A i j s = .error .hang s' := by
  unfold ensureFirst
  by_cases room : Room (vacant (tables s.ram) d (.table i)) s
  · obtain ⟨t, s₁, run, first, entry⟩ := ensureTable_grows place owns user.2 room
    have page := first.reach_other (a := .page i j) (by simp)
    obtain ⟨w, load, word⟩ := load_entry (s := s₁) place (show i < 1024 by omega)
    rw [entry] at word
    rw [run_bind run, run_bind load]
    show ∃ s', (ensurePage (pageFrame w * pageSize) j >>= fun _ =>
      pure (pageFrame w * pageSize)) s₁ = .error .hang s'
    rw [(named_eq_some.mp word).2]
    have few : ¬ Room (vacant (tables s.ram) d (.page i j)) s₁ := fun more => full (by
      rwa [first.room, Nat.add_comm] at more)
    obtain ⟨v, load', word'⟩ := load_entry (s := s₁) (At.direct (first.toOwns.range
      (reach_table_eq_some.mpr ⟨user.2, entry⟩)).2) inside
    unfold vacant at few
    rw [← page, reach_page user entry, ← word'] at few
    refine ⟨s₁, run_bind_error ?_⟩
    unfold ensurePage
    rw [run_bind load']
    cases absent : named v with
    | some f =>
        rw [absent] at few
        exact absurd room_zero few
    | none =>
        rw [absent] at few
        rw [named_eq_none.mp absent, if_neg Bool.false_ne_true]
        exact run_bind_error (getIdlePage_full first.cursor few)
  · obtain ⟨w, load, word⟩ := load_entry (s := s) place (show i < 1024 by omega)
    refine ⟨s, run_bind_error ?_⟩
    unfold vacant at room
    rw [reach_table user.2, ← word] at room
    unfold ensureTable
    rw [run_bind load]
    cases absent : named w with
    | some t =>
        rw [absent] at room
        exact absurd room_zero room
    | none =>
        rw [absent] at room
        rw [named_eq_none.mp absent, if_neg Bool.false_ne_true]
        exact run_bind_error (newTable_full owns.cursor room)

/-- **One turn of `load_segment` or `sbrk`** maps the next page, in a new table at the border of
one. -/
theorem nextPage_grows (place : At A d) (owns : Owns d held s) (cursor : Cursor d p t i j s)
    (below : p < 768 * 1024) (empty : reach (tables s.ram) d (.pageAt p) = none)
    (border : p % 1024 = 0 → tables s.ram d (p / 1024) = none) (room : Room (newFrames p 1) s) :
    ∃ t' i' j' s', nextPage A (t * pageSize) i j s = .ok (t' * pageSize, i', j') s' ∧
      Cursor d (p + 1) t' i' j' s' ∧ Grows d 768 held (newPlaces p 1) (newFrames p 1) s s' ∧
      ∃ f, reach (tables s'.ram) d (.pageAt p) = some f ∧ Zeroed f s'.ram := by
  obtain ⟨number, behind, user, entry⟩ := cursor
  by_cases last : j = 1024
  · have frames : newFrames p 1 = 2 := by
      unfold newFrames
      omega
    have here : Place.pageAt p = .page (i + 1) 0 := by
      unfold Place.pageAt
      rw [show p / 1024 = i + 1 by omega, show p % 1024 = 0 by omega]
    have vacant := border (by omega)
    rw [show p / 1024 = i + 1 by omega] at vacant
    rw [frames] at room
    -- the page is taken first, and waits for its table
    have start : Grows d 768 held ∅ 0 s s := .refl owns
    obtain ⟨f, s₁, taken, takes, first⟩ := start.take (le_trans (by omega) room)
    have mine : f ∈ usedFrames s₁ := takes.used ▸ Set.mem_insert f _
    have free : f ∉ held := fun member => takes.free (owns.owned.used_of_held member)
    have low := owns.low
    have range := takes.range
    obtain ⟨r₁, is₁⟩ : ∃ r, r = s₁.ram.clear (f * pageSize) pageSize := ⟨_, rfl⟩
    have filled := first.fill mine takes.free
      (fun k _ => first.toOwns.held_ne (Set.mem_insert f held) k)
      (r := r₁) (is₁ ▸ within_clear)
    have vacant₁ : tables (s₁.withRam r₁).ram d (i + 1) = none := by
      rw [withRam_ram, is₁, tables_clear, Function.update_of_ne (by omega), takes.ram, vacant]
    obtain ⟨t', s₂, table, second, entry', clear⟩ := newTable_grows place filled.toOwns
      ((filled.room 1).mpr room) (show i + 1 < 768 by omega) vacant₁
    have both := filled.trans second
    have other : t' ≠ f := by
      rintro rfl
      exact both.toOwns.held_ne (Set.mem_insert t' held) (i + 1)
        (reach_table_eq_some.mpr ⟨by omega, entry'⟩)
    have below' := both.toOwns.range (reach_table_eq_some.mpr ⟨by omega, entry'⟩)
    obtain ⟨r₃, is₃⟩ : ∃ r, r = s₂.ram.writeWords (t' * pageSize + 4 * 0) 1 fun _ =>
      makePte (f * pageSize) := ⟨_, rfl⟩
    have within₃ : Within t' s₂.ram r₃ := is₃ ▸ within_store (by omega)
    obtain ⟨reached, done⟩ :=
      both.enterPage (r := r₃) (j := 0) free takes.free (by omega) entry' (clear 0)
      (by rw [is₃, tables_entry (by omega) (named_makePte (by omega))]) within₃
    refine ⟨t', i + 1, 1, s₂.withRam r₃, ?_, ⟨by omega, by omega, by omega, ?_⟩, ?_, f, ?_,
      fun x inside => ?_⟩
    · unfold nextPage
      rw [run_bind taken, run_bind (memset_at (.direct range.2)), if_pos last]
      rw [is₁] at table
      refine (run_bind table).trans ?_
      rw [run_bind (store32_at (.direct below'.2) (by omega)), is₃]
      rfl
    · rw [withRam_ram, tables_within within₃, Function.update_of_ne (by omega), entry']
    · rw [frames]
      refine done.places_eq fun a => ?_
      have zero : p % 1024 = 0 := by omega
      rw [newPlaces_one, here, show p / 1024 = i + 1 by omega]
      simp [zero]
    · rw [here, withRam_ram, reached, Function.update_self]
    · have unchanged : s₂.ram x = r₁ x :=
          second.bytes x (by omega) (fun _ => inside ▸ mine) fun k _ => by
        rw [inside]
        exact second.toOwns.held_ne (Set.mem_insert f held) k
      rw [withRam_ram, within₃ x (by omega), unchanged, is₁, zeroed_clear x inside]
  · have frames : newFrames p 1 = 1 := by
      unfold newFrames
      omega
    have here : Place.pageAt p = .page i j := by
      unfold Place.pageAt
      rw [show p / 1024 = i by omega, show p % 1024 = j by omega]
    rw [here] at empty ⊢
    rw [frames] at room ⊢
    rw [reach_page user entry] at empty
    obtain ⟨f, s', run, grows, reached, zeroed⟩ :=
      newPage_zeroed owns room user (by omega) entry empty
    have kept := grows.kept _ _ (reach_table_eq_some.mpr ⟨user.2, entry⟩)
    refine ⟨t, i, j + 1, s', ?_, ⟨by omega, by omega, user, (reach_table_eq_some.mp kept).2⟩,
      grows.places_eq fun a => ?_, f, reached, zeroed⟩
    · have body : nextPage A (t * pageSize) i j = (do
          let pframe ← getIdlePage
          memset pframe pageSize
          store32 (t * pageSize + 4 * j) (makePte pframe)) >>= fun _ =>
            pure (t * pageSize, i, j + 1) := by
        unfold nextPage
        simp only [if_neg last, bind_assoc]
      rw [body, run_bind run]
      rfl
    · rw [newPlaces_one, here, Set.mem_singleton_iff]
      exact ⟨.inl, fun member => member.elim id fun border => absurd border.1 (by omega)⟩

/-- Behind `create_kernel_dir` the address space has the kernel's part and nothing else. -/
theorem KernelDir.userSpace (here : KernelDir s₀ d 4 s) : UserSpace d (usedFrames s₀) s where
  toOwns := here.grows.toOwns
  kernel := ⟨here.laid,
    fun i high => by rw [here.grows.upper i high, tables_emptied, Function.update_self]⟩

theorem KernelDir.nothing (here : KernelDir s₀ d 4 s) {a : Place}
    (user : ∀ k, k < 4 → a ≠ .table k) :
    reach (tables s.ram) d a = none :=
  (here.grows.places a (reach_emptied a)).mpr fun ⟨k, small, same⟩ => user k small same

/-- **`create_kernel_dir` and `create_stack_page`**, as every program starts. -/
theorem createStackPage_kernelDir_ends (place : At A d) (low : d < 4096)
    (cursor : s.bitmapIdx < pageNum) :
    Ends (createKernelDir A) s (fun _ s₁ => KernelDir s d 4 s₁ ∧ Ends (createStackPage A) s₁
      (fun _ s₂ => Grows d 768 (usedFrames s) stackPlaces 11 s₁ s₂) fun _ _ => ¬ Room 15 s)
        fun _ _ => ¬ Room 15 s := by
  refine (createKernelDir_ends place low cursor).mono (fun _ s₁ dir => ⟨dir, ?_⟩)
    fun _ _ full more =>
    full (le_trans (by omega) more)
  have empty : tables s₁.ram d 767 = none := by
    have nowhere := dir.nothing (a := .table 767) fun k small same => by cases same; omega
    rwa [reach_table (by omega)] at nowhere
  exact (createStackPage_ends place dir.grows.toOwns empty).mono (fun _ _ grows => grows)
    fun _ _ full more =>
    full ((dir.grows.room 11).mpr (le_trans (by omega) more))

theorem createStackPage_kernelDir (place : At A d) (low : d < 4096) (cursor : s.bitmapIdx < pageNum)
    (room : Room 15 s) :
    ∃ s₁ s₂, createKernelDir A s = .ok ⟨⟩ s₁ ∧ createStackPage A s₁ = .ok ⟨⟩ s₂ ∧
    KernelDir s d 4 s₁ ∧
      Grows d 768 (usedFrames s) stackPlaces 11 s₁ s₂ := by
  obtain ⟨_, s₁, kernel, dir,
    turns⟩ := (createStackPage_kernelDir_ends place low cursor).run_where room
  obtain ⟨_, s₂, stack, grows⟩ := turns.run_where room
  exact ⟨s₁, s₂, kernel, stack, dir, grows⟩

/-- Of kernel memory the directory alone is changed. -/
theorem Grows.kernel_bytes {top : Nat} {held' : Set Nat} {P : Set Place} {n x : Nat}
    (grows : Grows d top held' P n s₀ s) (kernel : frameOf x < 4096) (directory : frameOf x ≠ d) :
    s.ram x = s₀.ram x := by
  refine grows.bytes x directory (fun used => ?_) fun i _ table => ?_
  · have range := used_range used
    omega
  · have range := grows.toOwns.range table
    omega

/-- An old page keeps its bytes. -/
theorem Grows.page_bytes {top n x : Nat} {held' : Set Nat} {P : Set Place}
    (grows : Grows d top held' P n s₀ s) (owns : Owns d held s₀)
    (here : reach (tables s₀.ram) d (.page i j) = some (frameOf x)) : s.ram x = s₀.ram x := by
  refine grows.bytes x (owns.ne_directory here) (fun _ => owns.owned.used_of_holds here)
    fun k _ table => ?_
  cases grows.owned.unique _ _ _ (grows.kept _ _ here) table

/-- Bytes that belong to no table are spared by a growth, unless it takes their frame. -/
theorem Grows.other_bytes {top n x : Nat} {P : Set Place} (grows : Grows d top held P n s₀ s)
    (apart : ¬ InTables (tables s₀.ram) d x)
    (free : frameOf x ∈ usedFrames s → frameOf x ∈ usedFrames s₀) :
    s.ram x = s₀.ram x ∧ ¬ InTables (tables s.ram) d x := by
  have table : ∀ i, reach (tables s.ram) d (.table i) ≠ some (frameOf x) := by
    intro i here
    have old := free (grows.owned.used_of_holds here)
    cases before : reach (tables s₀.ram) d (.table i) with
    | none => exact grows.fresh _ _ before here old
    | some f =>
        have same := grows.kept _ _ before
        rw [here] at same
        exact apart (.inr ⟨i, before.trans same.symm⟩)
  have directory : frameOf x ≠ d := fun here => apart (.inl here)
  refine ⟨grows.bytes x directory free fun i _ => table i, ?_⟩
  rintro (here | ⟨i, here⟩)
  · exact directory here
  · exact table i here

/-- What belongs to others stays as it is. -/
theorem Grows.held_bytes {top n x : Nat} {P : Set Place} (grows : Grows d top held P n s₀ s)
    (owns : Owns d held s₀) (here : frameOf x ∈ held) : s.ram x = s₀.ram x := by
  have mine := owns.owned.used_of_held here
  have range := used_range mine
  have low := owns.low
  exact grows.bytes x (by omega) (fun _ => mine) fun i _ => grows.toOwns.held_ne here i

/-- A space that has grown is a space. -/
theorem Grows.userSpace {held' : Set Nat} {P : Set Place} {n : Nat}
    (grows : Grows d 768 held' P n s₀ s) (space : UserSpace d held s₀) : UserSpace d held' s where
  toOwns := grows.toOwns
  kernel := grows.kernelMapped space.toOwns space.kernel

end Specs

/-! ### Two pages -/

/-- Memory in which every frame is free. -/
def bootMemory : MemoryState where
  ram := fun _ => 0
  pageBitmap := fun _ => false
  bitmapIdx := 0
  spaces := fun _ => { cr3 := 0, entry := 0, heapStart := 16777216, heapTop := 16777216 }

/-- The first directory in frame 16, and a PCB every three frames. -/
def bootPool : PcbPool where
  base := 16
  stride := 3
  behind := by decide
  apart := by decide
  inside := by decide

theorem usedFrames_boot : usedFrames bootMemory = ∅ := by
  ext f
  constructor
  · rintro ⟨b, _, set, _⟩
    cases set
  · exact fun member => member.elim

theorem room_boot {k : Nat} (small : k ≤ 28672) : Room k bootMemory := by
  unfold Room bootMemory idleCount pageNum
  simp
  omega

/-- What is not in use is free: the used frames are named in at most as many places as `P` has. -/
theorem room_of_used {s : MemoryState} {P : Finset Place} {T : Nat → Nat → Option Nat} {d : Nat}
    (covered : ∀ f, f ∈ usedFrames s → ∃ a, a ∈ P ∧ reach T d a = some f) :
    Room (pageNum - P.card) s := by
  unfold Room idleCount
  have split := Finset.card_filter_add_card_filter_not (s := Finset.range pageNum) fun i =>
    (s.pageBitmap i : Prop)
  rw [Finset.card_range] at split
  have few : ((Finset.range pageNum).filter fun i => (s.pageBitmap i : Prop)).card ≤ P.card := by
    refine le_trans (Finset.card_le_card fun b member => ?_)
      (Finset.card_image_le (s := P) (f := fun a => (reach T d a).getD 0 - 4096))
    obtain ⟨inside, set⟩ := Finset.mem_filter.mp member
    obtain ⟨a, member, here⟩ := covered (4096 + b) ⟨b, Finset.mem_range.mp inside, set, rfl⟩
    refine Finset.mem_image.mpr ⟨a, member, ?_⟩
    rw [here, Option.getD_some, Nat.add_sub_cancel_left]
  omega

/-- An address space with two pages of zeros at 16 MB. -/
theorem boot_pages : ∃ s, UserSpace 16 ∅ s ∧ Room 100 s ∧ s.ram (17 * pageSize) = 0 ∧
    (∀ a, reach (tables s.ram) 16 a = none ↔
      ¬ ((∃ k, k < 5 ∧ a = .table k) ∨ a = .page 4 0 ∨ a = .page 4 1)) ∧
    ∀ x, ¬ InTables (tables s.ram) 16 x → s.ram x = 0 := by
  have place : At (16 * pageSize) 16 := .direct (by omega)
  obtain ⟨s₁, _, dir⟩ := createKernelDir_ok (s := bootMemory) place (by omega) (by decide)
    (room_boot (by omega))
  have space := dir.userSpace
  rw [usedFrames_boot] at space
  have empty : ∀ j, reach (tables s₁.ram) 16 (.page 4 j) = none :=
    fun j => dir.nothing fun k _ same => by cases same
  have no_table : reach (tables s₁.ram) 16 (.table 4) = none :=
    dir.nothing fun k small same => by cases same; omega
  have room : Room 6 s₁ := (dir.grows.room 6).mpr (room_boot (by omega))
  have cost : vacant (tables s₁.ram) 16 (.table 4) + vacant (tables s₁.ram) 16 (.page 4 0) = 2 := by
    unfold vacant
    rw [empty, no_table]
    rfl
  obtain ⟨t, s₂, _, first, entry, zeroed⟩ :=
    ensureFirst_grows (i := 4) (j := 0) place space.toOwns (by omega) (by omega)
    (by rw [cost]; exact le_trans (by omega) room)
  rw [cost] at first
  obtain ⟨f, page, zero⟩ := zeroed (empty 0)
  have empty₂ : reach (tables s₂.ram) 16 (.pageAt 4097) = none :=
    (first.places _ (empty 1)).mpr (by simp)
  obtain ⟨_, _, _, s₃, _, _, second, f', page', zero'⟩ :=
    nextPage_grows (p := 4097) (i := 4) (j := 1) place first.toOwns
    ⟨rfl, by omega, by omega, entry⟩ (by omega) empty₂ (fun border => absurd border (by omega))
    ((first.room _).mpr (le_trans (by decide) room))
  have both := first.trans second
  have kernel : ∀ a, reach (tables s₁.ram) 16 a = none ↔ ¬ ∃ k, k < 4 ∧ a = .table k :=
    fun a => dir.grows.places a (reach_emptied a)
  have space₃ := both.userSpace space
  have places : ∀ a, reach (tables s₃.ram) 16 a = none ↔
      ¬ ((∃ k, k < 5 ∧ a = .table k) ∨ a = .page 4 0 ∨ a = .page 4 1) := by
    intro a
    cases before : reach (tables s₁.ram) 16 a with
    | some g =>
        have table : ∃ k, k < 4 ∧ a = .table k := by
          by_contra outside
          rw [(kernel a).mpr outside] at before
          cases before
        obtain ⟨k, small, rfl⟩ := table
        rw [both.kept _ _ before]
        simp
        omega
    | none =>
        have user := (kernel a).mp before
        rw [both.places a before, not_iff_not, Set.mem_union, newPlaces_one, Set.mem_insert_iff,
          Set.mem_singleton_iff]
        constructor
        · rintro ((rfl | rfl) | (rfl | ⟨border, _⟩))
          · exact .inl ⟨4, by omega, rfl⟩
          · exact .inr (.inl rfl)
          · exact .inr (.inr rfl)
          · omega
        · rintro (⟨k, small, rfl⟩ | rfl | rfl)
          · by_cases last : k = 4
            · exact .inl (.inl (by rw [last]))
            · exact absurd ⟨k, by omega, rfl⟩ user
          · exact .inl (.inr rfl)
          · exact .inr (.inl rfl)
  have zeros : ∀ x, ¬ InTables (tables s₃.ram) 16 x → s₃.ram x = 0 := by
    intro x outside
    have directory : frameOf x ≠ 16 := fun here => outside (.inl here)
    have table : ∀ i, reach (tables s₃.ram) 16 (.table i) ≠ some (frameOf x) :=
      fun i here => outside (.inr ⟨i, here⟩)
    by_cases mine : frameOf x ∈ usedFrames s₃
    · rcases (space₃.owned.marked _).mp mine with member | ⟨a, here⟩
      · exact member.elim
      · have listed : (∃ k, k < 5 ∧ a = .table k) ∨ a = .page 4 0 ∨ a = .page 4 1 := by
          by_contra other
          rw [(places a).mpr other] at here
          cases here
        rcases listed with ⟨k, _, rfl⟩ | rfl | rfl
        · exact (table k here).elim
        · have same := second.kept _ _ page
          rw [here] at same
          cases same
          have unchanged := second.bytes x directory (fun _ => first.owned.used_of_holds page)
            fun i _ => table i
          rw [unchanged, zero x rfl]
        · rw [show Place.page 4 1 = .pageAt 4097 from rfl, page'] at here
          cases here
          exact zero' x rfl
    · have late := both.bytes x directory (fun used => absurd used mine) fun i _ => table i
      have early := dir.grows.bytes x directory (fun used => absurd (both.used used) mine)
        fun i _ here =>
        table i (both.kept _ _ here)
      rw [late, early]
      exact emptied_outside directory
  refine ⟨s₃, space₃, (both.room 100).mpr ((dir.grows.room _).mpr (room_boot (by decide))),
    zeros _ ?_, places, zeros⟩
  rintro (directory | ⟨i, table⟩)
  · exact absurd directory (by decide)
  · have range := space₃.range table
    exact absurd range.1 (by decide)

end NjuOs.Memory
