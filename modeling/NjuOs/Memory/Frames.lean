/-
**Address spaces, and who owns which frame.**

A frame of user memory is a page table, entered in a page directory, or a page, entered in one of
its tables. A `Place` is an entry that can name such a frame, and `reach T d` says which frame a
place of the directory in frame `d` names. `Owns d held s`: no frame is in two places of the
directory, those in `held` are in none, and `page_bitmap` marks exactly these and those
(`Lib.Owned`). What the manager does to an address space is a few moves on it: a frame is taken
(`Owns.take`), filled (`Owns.fill`), and put into an empty place (`Owns.enterTable`,
`Owns.enterPage`), where `reach` changes at that place and nowhere else.

The places that count are those below `0xC0000000`. The tables behind them are the four of the
kernel once more, whose pages are not user memory (`KernelMapped`).
-/

import NjuOs.Lib.Ownership
import NjuOs.Memory.Tables

namespace NjuOs.Memory

open NjuOs.Lib

/-- An entry of a page directory, or of a table that the directory names. -/
inductive Place where
  | table (i : Nat)
  | page (i j : Nat)
  deriving DecidableEq

/-- The frame a place of a directory names. -/
def reach (T : Nat → Nat → Option Nat) (d : Nat) : Place → Option Nat
  | .table i => if i < 768 then T d i else none
  | .page i j => if 4 ≤ i ∧ i < 768 then (T d i).bind fun t => T t j else none

/-- The place of a page, by its number. -/
def Place.pageAt (p : Nat) : Place := .page (p / 1024) (p % 1024)

/-- The number of a place's table. -/
def Place.index : Place → Nat
  | .table i => i
  | .page i _ => i

/-- The frames that `page_bitmap` marks. -/
def usedFrames (s : MemoryState) : Set Nat :=
  {f | ∃ b, b < pageNum ∧ s.pageBitmap b = true ∧ f = 4096 + b}

/-- At least `k` frames are free. -/
def Room (k : Nat) (s : MemoryState) : Prop := k ≤ idleCount s.pageBitmap pageNum

/-- The kernel's part of an address space, as `create_kernel_dir` lays it out. -/
structure KernelMapped (T : Nat → Nat → Option Nat) (d : Nat) : Prop where
  tables : ∀ i, i < 4 → ∃ t, T d i = some t ∧ T d (i + 768) = some t ∧ ∀ j, j < 1024 →
    T t j = some (1024 * i + j)
  rest : ∀ i, 772 ≤ i → T d i = none

/-- **The frames of an address space are its own.** -/
structure Owns (d : Nat) (held : Set Nat) (s : MemoryState) : Prop where
  owned : Owned (fun a f => reach (tables s.ram) d a = some f) held (usedFrames s)
  low : d < 4096
  cursor : s.bitmapIdx < pageNum

/-- A byte of the directory or of one of its tables. -/
def InTables (T : Nat → Nat → Option Nat) (d x : Nat) : Prop :=
  frameOf x = d ∨ ∃ i, reach T d (.table i) = some (frameOf x)

/-- The address space of a process. -/
structure UserSpace (d : Nat) (held : Set Nat) (s : MemoryState) : Prop extends Owns d held s where
  kernel : KernelMapped (tables s.ram) d

theorem Place.pageAt_inj {p q : Nat} : Place.pageAt p = Place.pageAt q ↔ p = q := by
  constructor
  · intro same
    injection same with tables entries
    omega
  · rintro rfl
    rfl

theorem PcbPool.pdir_injective (pool : PcbPool) {p q : Pid} (same : pool.pdir p = pool.pdir q) :
    p = q := by
  unfold PcbPool.pdir at same
  have apart := pool.apart
  have product : p.val * pool.stride = q.val * pool.stride := by omega
  exact Fin.ext (Nat.eq_of_mul_eq_mul_right (by omega) product)

theorem PcbPool.pdir_range (pool : PcbPool) (q : Pid) :
    8 < pool.pdir q ∧ pool.pdir q + 1 < 4096 := by
  have below : q.val ≤ 49 := Nat.le_of_lt_succ q.isLt
  have product := Nat.mul_le_mul_right pool.stride below
  have behind := pool.behind
  have inside := pool.inside
  unfold PcbPool.pdir
  omega

/-! ### The bitmap -/

/-- The state in which one more frame is marked. -/
def MemoryState.marked (s : MemoryState) (b : Nat) : MemoryState :=
  { s with pageBitmap := Function.update s.pageBitmap b true, bitmapIdx := b }

section Bitmap

variable {s s' : MemoryState} {b f k : Nat}

theorem used_range (used : f ∈ usedFrames s) : 4096 ≤ f ∧ f < 32768 := by
  obtain ⟨b, inside, _, rfl⟩ := used
  unfold pageNum at inside
  omega

theorem usedFrames_marked (inside : b < pageNum) :
    usedFrames (s.marked b) = insert (4096 + b) (usedFrames s) := by
  ext f
  rw [Set.mem_insert_iff]
  constructor
  · rintro ⟨c, small, set, rfl⟩
    by_cases same : c = b
    · exact .inl (by rw [same])
    · refine .inr ⟨c, small, ?_, rfl⟩
      change Function.update s.pageBitmap b true c = true at set
      rwa [Function.update_of_ne same] at set
  · rintro (rfl | ⟨c, small, set, rfl⟩)
    · exact ⟨b, inside, Function.update_self .., rfl⟩
    · refine ⟨c, small, ?_, rfl⟩
      show Function.update s.pageBitmap b true c = true
      by_cases same : c = b
      · rw [same, Function.update_self]
      · rwa [Function.update_of_ne same]

theorem room_marked (inside : b < pageNum) (free : s.pageBitmap b = false) :
    Room k (s.marked b) ↔ Room (k + 1) s := by
  have count := idleCount_set inside free
  unfold Room
  show k ≤ idleCount (Function.update s.pageBitmap b true) pageNum ↔ _
  omega

/-- `get_idle_page` finds a free frame as long as there is one. -/
theorem getIdlePage_ok (cursor : s.bitmapIdx < pageNum) (room : Room 1 s) :
    ∃ b, b < pageNum ∧ s.pageBitmap b = false ∧
    getIdlePage s = .ok ((4096 + b) * pageSize) (s.marked b) := by
  obtain ⟨i, member⟩ := Finset.card_pos.mp room
  rw [Finset.mem_filter, Finset.mem_range, Bool.not_eq_true] at member
  obtain ⟨b, search⟩ := Option.isSome_iff_exists.mp (firstIdle_isSome cursor member.1 member.2)
  refine ⟨b, firstIdle_lt cursor search, firstIdle_idle search, ?_⟩
  have address : kernelMem + b * 4096 = (4096 + b) * pageSize := by
    unfold kernelMem pageSize
    omega
  unfold getIdlePage
  rw [run_bind run_get, search, ← address]
  rfl

/-- Without a free frame the search never ends. -/
theorem getIdlePage_full (cursor : s.bitmapIdx < pageNum) (full : ¬ Room 1 s) :
    getIdlePage s = .error .hang s := by
  unfold getIdlePage
  rw [run_bind run_get]
  cases search : firstIdle s.pageBitmap pageNum pageNum s.bitmapIdx with
  | none => rfl
  | some b => exact absurd (idleCount_pos (firstIdle_lt cursor search) (firstIdle_idle search)) full

end Bitmap

/-! ### Places and stores -/

section Reach

variable {T : Nat → Nat → Option Nat} {row : Nat → Option Nat} {d f g t i j : Nat} {a : Place}

theorem reach_table_def : reach T d (.table i) = if i < 768 then T d i else none := rfl

theorem reach_page_def : reach T d (.page i j) = if 4 ≤ i ∧ i < 768 then (T d i).bind fun t => T t j
    else none := rfl

theorem reach_table (small : i < 768) : reach T d (.table i) = T d i := if_pos small

theorem reach_table_eq_some : reach T d (.table i) = some t ↔ i < 768 ∧ T d i = some t := by
  rw [reach_table_def]
  split
  · next small => exact ⟨fun here => ⟨small, here⟩, fun here => here.2⟩
  · next large => exact ⟨fun none => (by cases none), fun here => absurd here.1 large⟩

theorem reach_page_eq_some : reach T d (.page i j) = some f ↔ 4 ≤ i ∧ i < 768 ∧
    ∃ t, T d i = some t ∧ T t j = some f := by
  rw [reach_page_def]
  split
  · next inside =>
    rw [Option.bind_eq_some_iff]
    exact ⟨fun here => ⟨inside.1, inside.2, here⟩, fun here => here.2.2⟩
  · next outside => exact ⟨fun none => (by cases none),
      fun here => absurd ⟨here.1, here.2.1⟩ outside⟩

theorem reach_page (user : 4 ≤ i ∧ i < 768) (entry : T d i = some t) :
    reach T d (.page i j) = T t j := by
  rw [reach_page_def, if_pos user, entry, Option.bind_some]

/-- A store in a frame that is neither the directory nor a table of user pages. -/
theorem reach_update_other (directory : g ≠ d)
    (table : ∀ i, 4 ≤ i → reach T d (.table i) ≠ some g) :
    reach (Function.update T g row) d = reach T d := by
  have own : Function.update T g row d = T d := Function.update_of_ne directory.symm _ _
  funext a
  cases a with
  | table i => rw [reach_table_def, reach_table_def, own]
  | page i j =>
      rw [reach_page_def, reach_page_def, own]
      split
      · next inside =>
        cases entry : T d i with
        | none => rfl
        | some t =>
            have other : t ≠ g := by
              rintro rfl
              exact table i inside.1 (reach_table_eq_some.mpr ⟨inside.2, entry⟩)
            rw [Option.bind_some, Option.bind_some, Function.update_of_ne other]
      · rfl

/-- An empty table is entered in the directory. -/
theorem reach_enterTable (small : i < 768) (empty : T d i = none) (clear : ∀ j, T t j = none)
    (other : t ≠ d) (tables : ∀ k u, k < 768 → T d k = some u → u ≠ d) :
    reach (Function.update T d (Function.update (T d) i (some t))) d
      = Function.update (reach T d) (.table i) (some t) := by
  have own : Function.update T d (Function.update (T d) i (some t)) d =
    Function.update (T d) i (some t) :=
    Function.update_self _ _ _
  funext a
  cases a with
  | table k =>
      rw [reach_table_def, own]
      by_cases same : k = i
      · rw [same, if_pos small, Function.update_self, Function.update_self]
      · rw [Function.update_of_ne same, Function.update_of_ne (by simpa using same),
          reach_table_def]
  | page k j =>
      rw [Function.update_of_ne (by simp), reach_page_def, reach_page_def, own]
      by_cases same : k = i
      · rw [same, Function.update_self, empty, Option.bind_some, Function.update_of_ne other, clear]
        rfl
      · rw [Function.update_of_ne same]
        split
        · next inside =>
          cases entry : T d k with
          | none => rfl
          | some u => rw [Option.bind_some, Option.bind_some,
              Function.update_of_ne (tables k u inside.2 entry)]
        · rfl

/-- A page is entered in a table. -/
theorem reach_enterPage (low : 4 ≤ i) (small : i < 768) (entry : T d i = some t) (other : t ≠ d)
    (only : ∀ k, k < 768 → T d k = some t → k = i) :
    reach (Function.update T t (Function.update (T t) j (some f))) d
      = Function.update (reach T d) (.page i j) (some f) := by
  have own : Function.update T t (Function.update (T t) j (some f)) d = T d :=
    Function.update_of_ne other.symm _ _
  funext a
  cases a with
  | table k => rw [Function.update_of_ne (by simp), reach_table_def, reach_table_def, own]
  | page k l =>
      rw [reach_page_def, own]
      by_cases same : k = i
      · subst same
        rw [if_pos ⟨low, small⟩, entry, Option.bind_some, Function.update_self]
        by_cases here : l = j
        · rw [here, Function.update_self, Function.update_self]
        · rw [Function.update_of_ne here, Function.update_of_ne (by simpa using here),
            reach_page_def, if_pos ⟨low, small⟩, entry, Option.bind_some]
      · rw [Function.update_of_ne (by simp [same]), reach_page_def]
        split
        · next inside =>
          cases at_k : T d k with
          | none => rfl
          | some u =>
              have differs : u ≠ t := by
                rintro rfl
                exact same (only k inside.2 at_k)
              rw [Option.bind_some, Option.bind_some, Function.update_of_ne differs]
        · rfl

/-- An entry at `0xC0000000` or above. -/
theorem reach_enterUpper {entry : Option Nat} (high : 768 ≤ i)
    (tables : ∀ k u, k < 768 → T d k = some u → u ≠ d) :
    reach (Function.update T d (Function.update (T d) i entry)) d = reach T d := by
  funext a
  cases a with
  | table k =>
      rw [reach_table_def, reach_table_def, Function.update_self]
      split
      · rw [Function.update_of_ne (by omega)]
      · rfl
  | page k j =>
      rw [reach_page_def, reach_page_def, Function.update_self]
      split
      · next inside =>
        rw [Function.update_of_ne (by omega)]
        cases at_k : T d k with
        | none => rfl
        | some u => rw [Option.bind_some, Option.bind_some,
            Function.update_of_ne (tables k u inside.2 at_k)]
      · rfl

/-- What a user address is translated to. -/
theorem translate_user {va : Nat} (low : kernelMem ≤ va) (high : va < kOffset) :
    translate T d va = (reach T d (.pageAt (va / 4096))).map fun f => f * pageSize + va % 4096 := by
  unfold kernelMem at low
  unfold kOffset at high
  unfold translate Place.pageAt
  rw [reach_page_def, if_pos (by omega), Nat.div_div_eq_div_mul]
  cases T d (va / 4194304) with
  | none => rfl
  | some t => rfl

end Reach

/-! ### The moves -/

/-- Another content of memory. -/
def MemoryState.withRam (s : MemoryState) (ram : Store) : MemoryState := { s with ram }

@[simp] theorem withRam_ram {s : MemoryState} {ram : Store} : (s.withRam ram).ram = ram := rfl

@[simp] theorem withRam_twice {s : MemoryState} {ram ram' : Store} :
    (s.withRam ram).withRam ram' = s.withRam ram' := rfl

/-- Frame `f` is taken. -/
structure Takes (f : Nat) (s s' : MemoryState) : Prop where
  free : f ∉ usedFrames s
  range : 4096 ≤ f ∧ f < 32768
  used : usedFrames s' = insert f (usedFrames s)
  room : ∀ k, Room k s' ↔ Room (k + 1) s
  ram : s'.ram = s.ram
  spaces : s'.spaces = s.spaces

section Moves

variable {d f t i j : Nat} {held : Set Nat} {s : MemoryState} {ram : Store} {a : Place}

theorem take_frame (cursor : s.bitmapIdx < pageNum) (room : Room 1 s) :
    ∃ f s', getIdlePage s = .ok (f * pageSize) s' ∧ Takes f s s' ∧ s'.bitmapIdx < pageNum := by
  obtain ⟨b, inside, free, run⟩ := getIdlePage_ok cursor room
  refine ⟨4096 + b, s.marked b, run, {
    free := ?_
    range := by unfold pageNum at inside; omega
    used := usedFrames_marked inside
    room := fun k => room_marked inside free
    ram := rfl
    spaces := rfl }, inside⟩
  rintro ⟨c, small, set, same⟩
  obtain rfl : b = c := by omega
  rw [free] at set
  cases set

namespace Owns

theorem range (owns : Owns d held s) (here : reach (tables s.ram) d a = some f) :
    4096 ≤ f ∧ f < 32768 :=
  used_range (owns.owned.used_of_holds here)

theorem ne_directory (owns : Owns d held s) (here : reach (tables s.ram) d a = some f) : f ≠ d := by
  have low := owns.low
  have range := owns.range here
  omega

/-- A frame is taken. -/
theorem take (owns : Owns d held s) (room : Room 1 s) :
    ∃ f s', getIdlePage s = .ok (f * pageSize) s' ∧ Takes f s s' ∧ Owns d (insert f held) s' := by
  obtain ⟨f, s', run, takes, cursor⟩ := take_frame owns.cursor room
  refine ⟨f, s', run, takes, ?_, owns.low, cursor⟩
  rw [takes.used, takes.ram]
  exact owns.owned.take takes.free

/-- What is held is no table. -/
theorem held_ne (owns : Owns d held s) (here : f ∈ held) (i : Nat) :
    reach (tables s.ram) d (.table i) ≠ some f :=
  fun table => owns.owned.apart _ f table here

/-- A frame that is held, a page, or kernel memory apart from the directory is filled. -/
theorem fill (owns : Owns d held s) (directory : f ≠ d)
    (table : ∀ i, 4 ≤ i → reach (tables s.ram) d (.table i) ≠ some f)
    (within : Within f s.ram ram) : reach (tables ram) d = reach (tables s.ram) d ∧
    Owns d held (s.withRam ram) := by
  have same : reach (tables ram) d = reach (tables s.ram) d := by
    rw [tables_within within]
    exact reach_update_other directory table
  refine ⟨same, ?_, owns.low, owns.cursor⟩
  show Owned (fun a f => reach (tables ram) d a = some f) held (usedFrames s)
  rw [same]
  exact owns.owned

/-- A held frame is entered at an empty place. -/
theorem link (owns : Owns d (insert f held) s) (free : f ∉ held)
    (empty : reach (tables s.ram) d a = none)
    (entered : reach (tables ram) d = Function.update (reach (tables s.ram) d) a (some f)) :
    Owns d held (s.withRam ram) := by
  refine ⟨?_, owns.low, owns.cursor⟩
  show Owned (fun a f => reach (tables ram) d a = some f) held (usedFrames s)
  refine Owned.link (a := a) owns.owned free fun b g => ?_
  rw [entered]
  by_cases here : b = a
  · rw [here, Function.update_self, empty]
    simp [eq_comm]
  · rw [Function.update_of_ne here]
    simp [here]

theorem enterTable (owns : Owns d (insert t held) s) (free : t ∉ held) (small : i < 768)
    (empty : tables s.ram d i = none) (clear : ∀ j, tables s.ram t j = none)
    (stored : tables ram =
      Function.update (tables s.ram) d (Function.update (tables s.ram d) i (some t))) :
    reach (tables ram) d = Function.update (reach (tables s.ram) d) (.table i) (some t) ∧
    Owns d held (s.withRam ram) := by
  have low := owns.low
  have range := used_range (owns.owned.used_of_held (Set.mem_insert t held))
  have entered :
      reach (tables ram) d = Function.update (reach (tables s.ram) d) (.table i) (some t) := by
    rw [stored]
    exact reach_enterTable small empty clear (by omega) fun k u inside entry =>
      owns.ne_directory (reach_table_eq_some.mpr ⟨inside, entry⟩)
  exact ⟨entered, owns.link free ((reach_table small).trans empty) entered⟩

theorem enterPage (owns : Owns d (insert f held) s) (free : f ∉ held) (low : 4 ≤ i)
    (small : i < 768) (entry : tables s.ram d i = some t) (empty : tables s.ram t j = none)
    (stored : tables ram =
      Function.update (tables s.ram) t (Function.update (tables s.ram t) j (some f))) :
    reach (tables ram) d = Function.update (reach (tables s.ram) d) (.page i j) (some f) ∧
    Owns d held (s.withRam ram) := by
  have here : reach (tables s.ram) d (.table i) = some t := reach_table_eq_some.mpr ⟨small, entry⟩
  have entered :
      reach (tables ram) d = Function.update (reach (tables s.ram) d) (.page i j) (some f) := by
    rw [stored]
    refine reach_enterPage low small entry (owns.ne_directory here) fun k inside other => ?_
    have same := owns.owned.unique _ _ t (reach_table_eq_some.mpr ⟨inside, other⟩) here
    cases same
    rfl
  refine ⟨entered, owns.link free ?_ entered⟩
  rw [reach_page ⟨low, small⟩ entry, empty]

end Owns

end Moves

/-! ### What spares a directory and its tables -/

section Spares

variable {d t i : Nat} {ram r : Store}

/-- A table behind an entry of the directory is a table below `0xC0000000`. -/
theorem kernel_table {T : Nat → Nat → Option Nat} (kernel : KernelMapped T d)
    (entry : T d i = some t) :
    ∃ k, reach T d (.table k) = some t := by
  by_cases low : i < 768
  · exact ⟨i, reach_table_eq_some.mpr ⟨low, entry⟩⟩
  · by_cases upper : i < 772
    · obtain ⟨u, first, second, _⟩ := kernel.tables (i - 768) (by omega)
      rw [show i - 768 + 768 = i by omega, entry] at second
      cases second
      exact ⟨i - 768, reach_table_eq_some.mpr ⟨by omega, first⟩⟩
    · rw [kernel.rest i (by omega)] at entry
      cases entry

/-- What spares the directory and its tables spares what they name. -/
theorem kernel_rows (kernel : KernelMapped (tables ram) d)
    (same : ∀ x, InTables (tables ram) d x → r x = ram x) :
    tables r d = tables ram d ∧ ∀ k t, tables ram d k = some t → tables r t = tables ram t := by
  refine ⟨tables_congr d fun x inside => same x (.inl inside), fun k t entry => ?_⟩
  obtain ⟨l, here⟩ := kernel_table kernel entry
  exact tables_congr t fun x inside => same x (.inr ⟨l, by rw [inside, here]⟩)

theorem kernel_reach (kernel : KernelMapped (tables ram) d)
    (same : ∀ x, InTables (tables ram) d x → r x = ram x) :
    reach (tables r) d = reach (tables ram) d := by
  obtain ⟨own, others⟩ := kernel_rows kernel same
  funext a
  cases a with
  | table i => rw [reach_table_def, reach_table_def, own]
  | page i j =>
      rw [reach_page_def, reach_page_def, own]
      cases entry : tables ram d i with
      | none => rfl
      | some t => rw [Option.bind_some, Option.bind_some, others i t entry]

theorem kernel_spared (kernel : KernelMapped (tables ram) d)
    (same : ∀ x, InTables (tables ram) d x → r x = ram x) :
    KernelMapped (tables r) d := by
  obtain ⟨own, others⟩ := kernel_rows kernel same
  refine ⟨fun k small => ?_, fun k high => by rw [own, kernel.rest k high]⟩
  obtain ⟨t, first, second, row⟩ := kernel.tables k small
  exact ⟨t, by rw [own, first], by rw [own, second], by rw [others k t first]; exact row⟩

end Spares

/-! ### Addresses of a process -/

namespace UserSpace

variable {d f t i va va' pa : Nat} {held : Set Nat} {s : MemoryState} {r : Store}

theorem table_below (space : UserSpace d held s) (t : Nat) (entry : tables s.ram d i = some t) :
    t < 32768 := by
  obtain ⟨_, here⟩ := kernel_table space.kernel entry
  exact (space.range here).2

/-- A user address lies in a frame of user memory that the process owns. -/
theorem page (low : kernelMem ≤ va) (high : va < kOffset)
    (found : translate (tables s.ram) d va = some pa) :
    reach (tables s.ram) d (.pageAt (va / 4096)) = some (frameOf pa) ∧
    pa = frameOf pa * pageSize + va % 4096 := by
  rw [translate_user low high] at found
  obtain ⟨f, here, rfl⟩ := Option.map_eq_some_iff.mp found
  have frame : frameOf (f * pageSize + va % 4096) = f := by
    unfold frameOf pageSize
    omega
  rw [frame]
  exact ⟨here, rfl⟩

/-- It is no byte of the directory or of a table. -/
theorem page_apart (space : UserSpace d held s) (low : kernelMem ≤ va) (high : va < kOffset)
    (found : translate (tables s.ram) d va = some pa) : ¬ InTables (tables s.ram) d pa := by
  obtain ⟨here, _⟩ := page low high found
  rintro (directory | ⟨i, table⟩)
  · exact space.ne_directory here directory
  · have same := space.owned.unique _ _ _ here table
    unfold Place.pageAt at same
    cases same

theorem page_range (space : UserSpace d held s) (low : kernelMem ≤ va) (high : va < kOffset)
    (found : translate (tables s.ram) d va = some pa) :
    kernelMem ≤ pa ∧ pa + (4096 - va % 4096) ≤ physMem := by
  obtain ⟨here, place⟩ := page low high found
  have range := space.range here
  unfold pageSize at place
  unfold kernelMem physMem
  omega

/-- Kernel memory is mapped to itself. -/
theorem translate_kernel (space : UserSpace d held s) (low : va < kernelMem) :
    translate (tables s.ram) d va = some va := by
  unfold kernelMem at low
  obtain ⟨t, entry, _, row⟩ := space.kernel.tables (va / 4194304) (by omega)
  refine translate_eq_some.mpr ⟨t, _, entry, row _ (Nat.mod_lt _ (by omega)), ?_⟩
  unfold pageSize
  omega

/-- What is mapped is memory. -/
theorem translate_lt (space : UserSpace d held s)
    (found : translate (tables s.ram) d va = some pa) : pa < physMem := by
  obtain ⟨t, f, entry, here, rfl⟩ := translate_eq_some.mp found
  have frame : f < 32768 := by
    by_cases user : 4 ≤ va / 4194304 ∧ va / 4194304 < 768
    · exact (space.range (reach_page_eq_some.mpr ⟨user.1, user.2, t, entry, here⟩)).2
    · have kernel : ∃ i, i < 4 ∧ (va / 4194304 = i ∨ va / 4194304 = i + 768) := by
        by_cases low : va / 4194304 < 4
        · exact ⟨_, low, .inl rfl⟩
        · by_cases high : va / 4194304 < 772
          · exact ⟨va / 4194304 - 768, by omega, .inr (by omega)⟩
          · rw [space.kernel.rest _ (by omega)] at entry
            cases entry
      obtain ⟨i, small, index⟩ := kernel
      obtain ⟨u, first, second, row⟩ := space.kernel.tables i small
      have same : u = t := by
        rcases index with index | index
        · rw [index, first] at entry
          exact Option.some.inj entry
        · rw [index, second] at entry
          exact Option.some.inj entry
      rw [← same, row _ (Nat.mod_lt _ (by omega))] at here
      cases here
      omega
  unfold physMem pageSize
  omega

/-- Different addresses lie in different places. -/
theorem translate_injective (space : UserSpace d held s) (low : kernelMem ≤ va)
    (high : va < kOffset) (low' : kernelMem ≤ va') (high' : va' < kOffset)
    (found : translate (tables s.ram) d va = some pa)
    (found' : translate (tables s.ram) d va' = some pa) : va = va' := by
  obtain ⟨here, place⟩ := page low high found
  obtain ⟨here', place'⟩ := page low' high' found'
  have same := space.owned.unique _ _ _ here here'
  unfold Place.pageAt at same
  injection same with tables entries
  unfold pageSize at place place'
  omega

theorem spared_reach (space : UserSpace d held s)
    (same : ∀ x, InTables (tables s.ram) d x → r x = s.ram x) :
    reach (tables r) d = reach (tables s.ram) d :=
  kernel_reach space.kernel same

/-- What spares the directory and its tables spares the address space. -/
theorem spared (space : UserSpace d held s)
    (same : ∀ x, InTables (tables s.ram) d x → r x = s.ram x) :
    translate (tables r) d = translate (tables s.ram) d ∧ UserSpace d held (s.withRam r) := by
  obtain ⟨own, others⟩ := kernel_rows space.kernel same
  refine ⟨?_, ⟨?_, space.low, space.cursor⟩, kernel_spared space.kernel same⟩
  · funext va
    unfold translate
    rw [own]
    cases entry : tables s.ram d (va / 4194304) with
    | none => rfl
    | some t => rw [Option.bind_some, Option.bind_some, others _ t entry]
  · rw [withRam_ram, space.spared_reach same]
    exact space.owned

/-- `physical_addr`, for any address. -/
theorem physicalAddr (space : UserSpace d held s) (address : va < 4294967296) :
    physicalAddr (d * pageSize) va s = match translate (tables s.ram) d va with
      | some pa => .ok pa s
      | none => .error .panic s :=
  physicalAddr_at (.direct (lt_trans space.low (by omega))) address fun t => space.table_below t

end UserSpace

end NjuOs.Memory
