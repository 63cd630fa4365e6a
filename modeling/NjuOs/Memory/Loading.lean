/-
**Loading a program.**

`load_program` lays out the kernel's part and the stack, has the first page of the file read to
`0x8000`, and loads one segment after the other: the pages that a segment touches, of which the
first may be there already, and then its bytes.

What `read_elf` does is assumed (`Reads`): where all the addresses of a request are mapped the bytes
of the file are stored there, and of user memory, of the page directories and of the page at
`0x8000` nothing else is changed. An `Executable` has its program headers in its first page and its
segments one above the other below `0xBFC00000`; two may share a page.

After the headers before number `i` the segments of these are in place, every other mapped byte
below the stack is zero, and all pages and tables there are theirs (`Loading`). A segment keeps this
up (`loadSegment_ok`, `loadHeader_ok`), and so the whole program is loaded (`loadProgram_loads`).
-/

import NjuOs.Memory.Copies
import NjuOs.Memory.Pages
import Mathlib.Algebra.BigOperators.Intervals

namespace NjuOs.Memory

open NjuOs.Lib

/-! ### The file -/

/-- `e_phoff`. -/
def phoff (file : Store) : Nat := (file.word 28).toNat

/-- `e_phnum`, a `short`. -/
def phnum (file : Store) : Nat := (file.word 44).toNat % 65536

/-- The words of program header `j`. -/
def headerOf (file : Store) (j : Nat) : ProgramHeader where
  type := file.word (phoff file + 32 * j)
  off := file.word (phoff file + 32 * j + 4)
  vaddr := file.word (phoff file + 32 * j + 8)
  filesz := file.word (phoff file + 32 * j + 16)
  memsz := file.word (phoff file + 32 * j + 20)

/-- A segment that can be loaded: in user memory below the table of the stack, its bytes in the
file. -/
structure Segment (length : Nat) (ph : ProgramHeader) : Prop where
  some : ph.memsz ≠ 0
  fits : ph.filesz.toNat ≤ ph.memsz.toNat
  low : kernelMem ≤ ph.vaddr.toNat
  high : ph.vaddr.toNat + ph.memsz.toNat ≤ 0xBFC00000
  inFile : ph.off.toNat + ph.filesz.toNat ≤ length

/-- What is assumed of the file, `length` bytes long. -/
structure Executable (file : Store) (length : Nat) : Prop where
  header : 52 ≤ length
  table : phoff file + 32 * phnum file ≤ 4096 ∧ phoff file + 32 * phnum file ≤ length
  segment : ∀ j, j < phnum file → (headerOf file j).memsz ≠ 0 → Segment length (headerOf file j)
  sorted : ∀ i j, i < j → j < phnum file → (headerOf file i).memsz ≠ 0 →
    (headerOf file j).memsz ≠ 0 →
    (headerOf file i).vaddr.toNat + (headerOf file i).memsz.toNat ≤ (headerOf file j).vaddr.toNat

/-! ### What `read_elf` does -/

/-- What a request to the file server leaves alone, besides what it is to store: user memory, the
page directories, and the page at `0x8000`. -/
def Spared (pool : PcbPool) (x : Nat) : Prop :=
  kernelMem ≤ x ∨ frameOf x = 8 ∨ ∃ q, frameOf x = pool.pdir q

/-- The bytes of the file from `off` on are stored at the addresses from `va` on. -/
structure Stored (pool : PcbPool) (file : Store) (length : Nat) (tr : Nat → Option Nat)
    (va off size : Nat) (ram ram' : Store) : Prop where
  bytes : ∀ k pa, k < size → off + k < length → tr (va + k) = some pa → ram' pa = file (off + k)
  rest : ∀ x, Spared pool x → (∀ k, k < size → tr (va + k) ≠ some x) → ram' x = ram x

/-- `read_elf` stores what it is asked for, in the memory of the manager, a kernel thread, and in
that of the process. -/
structure Reads (pool : PcbPool) (memory pid : Pid) (file : Store) (length : Nat)
    (readElf : ReadElf) : Prop where
  header : ∀ s va off size, va + size.toNat ≤ kernelMem →
    ∃ r, readElf memory va off size s = .ok ⟨⟩ (s.withRam r) ∧
    Stored pool file length some va off.toNat size.toNat s.ram r
  segment : ∀ held s va off size, UserSpace (pool.pdir pid) held s →
    UserRange (translate (tables s.ram) (pool.pdir pid)) va size.toNat →
    ∃ r, readElf pid va off size s = .ok ⟨⟩ (s.withRam r) ∧
      Stored pool file length (translate (tables s.ram) (pool.pdir pid)) va off.toNat
        size.toNat s.ram r

/-! ### One segment -/

/-- The first page of a segment. -/
def ProgramHeader.firstPage (ph : ProgramHeader) : Nat := ph.vaddr.toNat / 4096

/-- The first page behind a segment. -/
def ProgramHeader.endPage (ph : ProgramHeader) : Nat := pageCeil (ph.vaddr.toNat + ph.memsz.toNat)

/-- The pages and tables that a segment touches. -/
def ProgramHeader.places (ph : ProgramHeader) : Set Place :=
  {a | ∃ q, ph.firstPage ≤ q ∧ q < ph.endPage ∧ (a = .pageAt q ∨ a = .table (q / 1024))}

/-- Their number. -/
def ProgramHeader.frames (ph : ProgramHeader) : Nat :=
  if ph.memsz = 0 then 0
  else ph.endPage - ph.firstPage + ((ph.endPage - 1) / 1024 - ph.firstPage / 1024 + 1)

/-- From `s` to `s'` a segment was loaded. -/
structure SegmentLoaded (d : Nat) (held : Set Nat) (file : Store) (ph : ProgramHeader)
    (s s' : MemoryState) : Prop where
  space : UserSpace d held s'
  kept : ∀ a f, reach (tables s.ram) d a = some f → reach (tables s'.ram) d a = some f
  given : ∀ a, reach (tables s.ram) d a = none → a ∉ ph.places → reach (tables s'.ram) d a = none
  mapped : ∀ k, k < ph.memsz.toNat → (translate (tables s'.ram) d (ph.vaddr.toNat + k)).isSome
  read : ∀ k pa, k < ph.filesz.toNat → translate (tables s'.ram) d (ph.vaddr.toNat + k) = some pa →
    s'.ram pa = file (ph.off.toNat + k)
  old : ∀ va pa, kernelMem ≤ va → va < kOffset →
    ¬ (ph.vaddr.toNat ≤ va ∧ va < ph.vaddr.toNat + ph.filesz.toNat) →
    translate (tables s.ram) d va = some pa → s'.ram pa = s.ram pa
  zero : ∀ va pa, kernelMem ≤ va → va < kOffset →
    ¬ (ph.vaddr.toNat ≤ va ∧ va < ph.vaddr.toNat + ph.filesz.toNat) →
    translate (tables s.ram) d va = none → translate (tables s'.ram) d va = some pa → s'.ram pa = 0
  header : ∀ x, frameOf x = 8 → s'.ram x = s.ram x
  room : ∀ k, Room (ph.frames + k) s → Room k s'
  spaces : s'.spaces = s.spaces

section Loads

variable {pool : PcbPool} {memory pid : Pid} {file : Store} {length d i j p q n : Nat}
  {readElf : ReadElf} {held : Set Nat} {s s' : MemoryState} {ph : ProgramHeader}

theorem room_le_pageNum {k : Nat} (room : Room k s) : k ≤ pageNum := by
  refine le_trans room ?_
  unfold idleCount
  exact le_trans (Finset.card_filter_le _ _) (by rw [Finset.card_range])

/-- **The part of `load_segment` that gives pages**, `n` of them behind the first one; there may be
fewer than the segment has, because `mem_rest_size` is an `int`. -/
theorem segmentPages_ends (owns : Owns d held s) (size : ph.memsz ≠ 0)
    (low : kernelMem ≤ ph.vaddr.toNat) (high : ph.vaddr.toNat + ph.memsz.toNat ≤ 0xBFC00000)
    (count : pageCeil (memRestSize ph).toNat = n) (fits : ph.firstPage + 1 + n ≤ ph.endPage)
    (empty : ∀ q, ph.firstPage + 1 ≤ q → q < ph.endPage → reach (tables s.ram) d (.pageAt q) = none)
    (border : ∀ k, tableFrom (ph.firstPage + 1) ≤ k → k < tableFrom ph.endPage →
      tables s.ram d k = none) :
    Ends (do
        let ptable ← ensureFirst (d * pageSize) (ph.vaddr.toNat / 4194304)
          (ph.vaddr.toNat / 4096 % 1024)
        loadPages (d * pageSize) (memRestSize ph).toNat (memRestSize ph) ptable
          (ph.vaddr.toNat / 4194304) (ph.vaddr.toNat / 4096 % 1024 + 1)) s (fun _ s' =>
      ∃ P m, Grows d 768 held P m s s' ∧ m ≤ ph.frames ∧ (∀ a, a ∈ P → a ∈ ph.places) ∧
        (∀ q, ph.firstPage ≤ q → q < ph.firstPage + 1 + n →
          (reach (tables s'.ram) d (.pageAt q)).isSome) ∧
        ∀ q f, reach (tables s.ram) d (.pageAt q) = none →
        reach (tables s'.ram) d (.pageAt q) = some f → Zeroed f s'.ram)
      fun _ _ => ¬ Room ph.frames s := by
  have place : At (d * pageSize) d := .direct (by have := owns.low; omega)
  have user : 4 ≤ ph.vaddr.toNat / 4194304 ∧ ph.vaddr.toNat / 4194304 < 768 := by
    unfold kernelMem at low
    omega
  have page : Place.page (ph.vaddr.toNat / 4194304) (ph.vaddr.toNat / 4096 % 1024) =
      .pageAt ph.firstPage := by
    unfold Place.pageAt ProgramHeader.firstPage
    rw [Nat.div_div_eq_div_mul]
  have table : ph.vaddr.toNat / 4194304 = ph.firstPage / 1024 := by
    unfold ProgramHeader.firstPage
    rw [Nat.div_div_eq_div_mul]
  have cost : vacant (tables s.ram) d (.table (ph.vaddr.toNat / 4194304))
      + vacant (tables s.ram) d (.page (ph.vaddr.toNat / 4194304) (ph.vaddr.toNat / 4096 % 1024))
      + newFrames (ph.firstPage + 1) n ≤ ph.frames := by
    unfold ProgramHeader.frames vacant newFrames
    rw [if_neg size]
    split <;> split <;> omega
  have below : ph.firstPage + 1 + n ≤ 767 * 1024 := by
    refine le_trans fits ?_
    unfold ProgramHeader.endPage pageCeil
    omega
  have loop : ∀ ptable, loadPages (d * pageSize) (memRestSize ph).toNat (memRestSize ph) ptable
    (ph.vaddr.toNat / 4194304)
      (ph.vaddr.toNat / 4096 % 1024 + 1)
      = mapPages (d * pageSize) n (ptable, ph.vaddr.toNat / 4194304,
        ph.vaddr.toNat / 4096 % 1024 + 1) := fun ptable =>
    loadPages_eq count (by unfold pageCeil at count; omega)
  simp only [loop]
  by_cases room₁ : Room (vacant (tables s.ram) d (.table (ph.vaddr.toNat / 4194304))
      + vacant (tables s.ram) d (.page (ph.vaddr.toNat / 4194304) (ph.vaddr.toNat / 4096 % 1024))) s
  case neg =>
    obtain ⟨s', run⟩ := ensureFirst_full place owns user (Nat.mod_lt _ (by omega)) room₁
    exact .error (run_bind_error run) fun more =>
      room₁ (le_trans (le_trans (Nat.le_add_right _ _) cost) more)
  obtain ⟨t, s₁, run₁, first, entry, zero₁⟩ :=
    ensureFirst_grows place owns user (Nat.mod_lt _ (by omega)) room₁
  have other : ∀ a : Place, a ≠ .table (ph.vaddr.toNat / 4194304) → a ≠ .pageAt ph.firstPage →
      reach (tables s₁.ram) d a = reach (tables s.ram) d a := by
    intro a no_table no_page
    refine first.reach_other ?_
    rw [page]
    rintro (here | here)
    · exact no_table here
    · exact no_page here
  have number : ph.firstPage + 1 = 1024 * (ph.vaddr.toNat / 4194304) +
      (ph.vaddr.toNat / 4096 % 1024 + 1) := by
    unfold ProgramHeader.firstPage
    omega
  have cursor : Cursor d (ph.firstPage + 1) t (ph.vaddr.toNat / 4194304)
    (ph.vaddr.toNat / 4096 % 1024 + 1) s₁ :=
    ⟨number, by omega, user, entry⟩
  have empty₁ : ∀ q, ph.firstPage + 1 ≤ q → q < ph.firstPage + 1 + n →
      reach (tables s₁.ram) d (.pageAt q) = none := by
    intro q after before
    rw [other (.pageAt q) Place.noConfusion fun same => by rw [Place.pageAt_inj] at same; omega]
    exact empty q after (by omega)
  have border₁ : ∀ k, tableFrom (ph.firstPage + 1) ≤ k → k < tableFrom (ph.firstPage + 1 + n) →
      tables s₁.ram d k = none := by
    intro k after before
    have order : tableFrom (ph.firstPage + 1 + n) ≤ tableFrom ph.endPage := by
      unfold tableFrom
      omega
    have small : k < 768 := by
      unfold tableFrom at before
      omega
    have same :=
      other (.table k) (fun same => by injection same with index; unfold tableFrom at after; omega)
        Place.noConfusion
    rw [reach_table small, reach_table small] at same
    exact same.trans (border k after (by omega))
  by_cases room₂ : Room (newFrames (ph.firstPage + 1) n) s₁
  case neg =>
    obtain ⟨s', run₂⟩ := mapPages_full place first.toOwns cursor (by omega) empty₁ border₁ room₂
    refine .bind_ok run₁ (.error run₂ fun more => room₂ ((first.room _).mpr (le_trans ?_ more)))
    omega
  obtain ⟨s', run₂, second, zero₂⟩ :=
    mapPages_grows place first.toOwns cursor (by omega) empty₁ border₁ room₂
  refine .bind_ok run₁
    (.ok run₂ ⟨_, _, first.trans second, cost, fun a inside => ?_, fun q after before => ?_,
    fun q f none here => ?_⟩)
  · rcases inside with (rfl | here) | ⟨q, after, before, here⟩
    · exact ⟨ph.firstPage, Nat.le_refl _, by omega, .inr (by rw [table])⟩
    · exact ⟨ph.firstPage, Nat.le_refl _, by omega, .inl (page ▸ here)⟩
    · exact ⟨q, by omega, by omega, here.imp id And.right⟩
  · refine (first.trans second).isSome ?_
    by_cases here : q = ph.firstPage
    · rw [here, ← page]
      exact .inl (.inr rfl)
    · exact .inr (page_newPlaces.mpr ⟨by omega, by omega⟩)
  · by_cases first_page : q = ph.firstPage
    · rw [first_page, ← page] at none
      obtain ⟨g, reached, zero⟩ := zero₁ none
      have same := second.kept _ _ reached
      rw [page, ← first_page, here] at same
      cases same
      exact fun x inside => (second.page_bytes first.toOwns (inside ▸ reached)).trans
        (zero x inside)
    · by_cases new : ph.firstPage + 1 ≤ q ∧ q < ph.firstPage + 1 + n
      · obtain ⟨g, reached, zero⟩ := zero₂ q new.1 new.2
        rw [here] at reached
        cases reached
        exact zero
      · rw [second.reach_other (by rwa [page_newPlaces]), other (.pageAt q) Place.noConfusion
          fun same => first_page (Place.pageAt_inj.mp same), none] at here
        cases here

/-- With frames for all of them there are as many pages as the segment has. -/
theorem segmentPages_grows (owns : Owns d held s) (segment : Segment length ph)
    (empty : ∀ q, ph.firstPage + 1 ≤ q → q < ph.endPage → reach (tables s.ram) d (.pageAt q) = none)
    (border : ∀ k, tableFrom (ph.firstPage + 1) ≤ k → k < tableFrom ph.endPage →
      tables s.ram d k = none) (room : Room ph.frames s) :
    ∃ s', (do
        let ptable ← ensureFirst (d * pageSize) (ph.vaddr.toNat / 4194304)
          (ph.vaddr.toNat / 4096 % 1024)
        loadPages (d * pageSize) (memRestSize ph).toNat (memRestSize ph) ptable
          (ph.vaddr.toNat / 4194304) (ph.vaddr.toNat / 4096 % 1024 + 1)) s = .ok ⟨⟩ s' ∧
      ∃ P m, Grows d 768 held P m s s' ∧ m ≤ ph.frames ∧ (∀ a, a ∈ P → a ∈ ph.places) ∧
        (∀ q, ph.firstPage ≤ q → q < ph.endPage → (reach (tables s'.ram) d (.pageAt q)).isSome) ∧
        ∀ q f, reach (tables s.ram) d (.pageAt q) = none →
        reach (tables s'.ram) d (.pageAt q) = some f → Zeroed f s'.ram := by
  have high := segment.high
  have few := room_le_pageNum room
  obtain ⟨n, last⟩ : ∃ n, ph.endPage = ph.firstPage + 1 + n := by
    have some : 0 < ph.memsz.toNat := by
      by_contra zero
      exact segment.some (UInt32.toNat_inj.mp (Nat.le_zero.mp (Nat.le_of_not_lt zero)))
    unfold ProgramHeader.endPage ProgramHeader.firstPage pageCeil
    exact ⟨(ph.vaddr.toNat + ph.memsz.toNat + 4095) / 4096 - (ph.vaddr.toNat / 4096 + 1), by omega⟩
  have count : pageCeil (memRestSize ph).toNat = n := by
    unfold ProgramHeader.frames at few
    rw [if_neg segment.some, last] at few
    unfold ProgramHeader.endPage ProgramHeader.firstPage pageCeil at last
    unfold ProgramHeader.firstPage pageNum at few
    have rest : memRestSize ph =
        ((ph.memsz.toNat - min (4096 - ph.vaddr.toNat % 4096) ph.memsz.toNat : Nat) : Int) := by
      unfold memRestSize signed pageSize
      rw [if_pos (by omega)]
    rw [rest, Int.toNat_natCast]
    unfold pageCeil
    omega
  obtain ⟨_, s', run, grown⟩ :=
    (segmentPages_ends owns segment.some segment.low high count (by omega) empty
      border).run_where room
  rw [← last] at grown
  exact ⟨s', run, grown⟩

/-- What the file server stores for the process spares its address space. -/
theorem Stored.spares {va off size : Nat} {r : Store} (space : UserSpace (pool.pdir pid) held s)
    (range : UserRange (translate (tables s.ram) (pool.pdir pid)) va size)
    (stored :
      Stored pool file length (translate (tables s.ram) (pool.pdir pid)) va off size s.ram r)
    (x : Nat) (inside : InTables (tables s.ram) (pool.pdir pid) x) : r x = s.ram x := by
  have low := range.low
  have high := range.high
  refine stored.rest x ?_ fun k small found => space.page_apart (by omega) (by omega) found inside
  rcases inside with directory | ⟨i, table⟩
  · exact .inr (.inr ⟨pid, directory⟩)
  · have bounds := space.range table
    refine .inl ?_
    unfold frameOf at bounds
    unfold kernelMem
    omega

/-- **One segment is loaded.** -/
theorem loadSegment_ok (reads : Reads pool memory pid file length readElf)
    (space : UserSpace (pool.pdir pid) held s) (segment : Segment length ph)
    (empty : ∀ q, ph.firstPage + 1 ≤ q → q < ph.endPage →
      reach (tables s.ram) (pool.pdir pid) (.pageAt q) = none)
    (border : ∀ k, tableFrom (ph.firstPage + 1) ≤ k → k < tableFrom ph.endPage →
      tables s.ram (pool.pdir pid) k = none) (room : Room ph.frames s) :
    ∃ s', loadSegment pool pid readElf ph s = .ok ⟨⟩ s' ∧
    SegmentLoaded (pool.pdir pid) held file ph s s' := by
  have behind := (pool.pdir_range pid).1
  obtain ⟨s₁, run₁, P, m, grows, cost, places, filled, zeroed⟩ :=
    segmentPages_grows space.toOwns segment empty border room
  have space₁ := grows.userSpace space
  have low := segment.low
  have high := segment.high
  have fits := segment.fits
  have page : ∀ k, k < ph.memsz.toNat →
      (translate (tables s₁.ram) (pool.pdir pid) (ph.vaddr.toNat + k)).isSome := by
    intro k small
    rw [translate_user (by omega) (by unfold kOffset; omega), Option.isSome_map]
    refine filled _ ?_ ?_
    · unfold ProgramHeader.firstPage
      omega
    · unfold ProgramHeader.endPage pageCeil
      omega
  have range : UserRange (translate (tables s₁.ram) (pool.pdir pid)) ph.vaddr.toNat
    ph.filesz.toNat :=
    ⟨low, by unfold kOffset; omega, fun k small => page k (by omega)⟩
  obtain ⟨r, run₂, stored⟩ := reads.segment held s₁ ph.vaddr.toNat ph.off ph.filesz space₁ range
  have spares := stored.spares space₁ range
  obtain ⟨translated, space₂⟩ := space₁.spared spares
  have reached := space₁.spared_reach spares
  -- what is not the segment's own
  have beside : ∀ va pa, kernelMem ≤ va → va < kOffset →
      ¬ (ph.vaddr.toNat ≤ va ∧ va < ph.vaddr.toNat + ph.filesz.toNat) →
      translate (tables s₁.ram) (pool.pdir pid) va = some pa → r pa = s₁.ram pa := by
    intro va pa user below outside found
    have bounds := space₁.page_range user below found
    refine stored.rest pa (.inl bounds.1) fun k small same => outside ?_
    have equal := space₁.translate_injective user below (by omega)
      (by unfold kOffset; omega) found same
    omega
  refine ⟨s₁.withRam r, ?_, space₂, fun a f here => ?_, fun a none outside => ?_, fun k small => ?_,
    fun k pa small found => ?_, fun va pa user below outside found => ?_,
    fun va pa user below outside none found => ?_,
    fun x inside => ?_, fun k more => ?_, grows.spaces⟩
  · unfold loadSegment
    rw [← bind_assoc]
    exact (run_bind run₁).trans run₂
  · rw [withRam_ram, reached]
    exact grows.kept a f here
  · rw [withRam_ram, reached, grows.places a none]
    exact fun inside => outside (places a inside)
  · rw [withRam_ram, translated]
    exact page k small
  · rw [withRam_ram, translated] at found
    have inFile := segment.inFile
    exact stored.bytes k pa small (by omega) found
  · rw [translate_user user below] at found
    obtain ⟨f, here, rfl⟩ := Option.map_eq_some_iff.mp found
    have frame : frameOf (f * pageSize + va % 4096) = f := by
      unfold frameOf pageSize
      omega
    have there : translate (tables s₁.ram) (pool.pdir pid) va =
        some (f * pageSize + va % 4096) := by
      rw [translate_user user below, grows.kept _ _ here]
      rfl
    exact (beside va _ user below outside there).trans
      (grows.page_bytes space.toOwns (by rw [frame]; exact here))
  · rw [withRam_ram, translated] at found
    rw [translate_user user below, Option.map_eq_none_iff] at none
    exact (beside va pa user below outside found).trans
      (zeroed _ _ none (UserSpace.page user below found).1 pa rfl)
  · have kernel : s₁.ram x = s.ram x := grows.kernel_bytes (by omega) (by omega)
    refine (stored.rest x (.inr (.inl inside)) fun k small found => ?_).trans kernel
    have bounds := space₁.page_range (by omega) (by unfold kOffset; omega) found
    unfold frameOf at inside
    unfold kernelMem at bounds
    omega
  · exact (grows.room k).mpr (le_trans (by omega) more)

/-! ### The headers -/

/-- The loop over the program headers, with these as they were read. -/
def passHeaders (pool : PcbPool) (pid : Pid) (readElf : ReadElf) :
    Nat → Nat → Mm (List ProgramHeader)
  | 0, _ => pure []
  | n + 1, ph => do
      let header ← readHeader ph
      loadHeader pool pid readElf header
      let rest ← passHeaders pool pid readElf n (ph + 32)
      pure (header :: rest)

/-- `load_program`, with the program headers it goes through. -/
def passProgram (pool : PcbPool) (memory pid : Pid) (readElf : ReadElf) :
    Mm (List ProgramHeader) := do
  let pdir := pool.pdir pid * pageSize
  createKernelDir pdir
  createStackPage pdir
  readElf memory elfHeader 0 4096
  let phoff ← load32 (elfHeader + 28)
  let phnum ← load32 (elfHeader + 44)
  let ph := (elfHeader + phoff.toNat) % 4294967296
  let headers ← passHeaders pool pid readElf (headerCount ph (phnum.toNat % 65536)) ph
  let entry ← load32 (elfHeader + 24)
  modify fun s =>
    { s with spaces := Function.update s.spaces pid { s.spaces pid with
      cr3 := pool.pdir pid, entry := entry } }
  pure headers

theorem loadHeaders_eq {ph : Nat} :
    loadHeaders pool pid readElf n ph = passHeaders pool pid readElf n ph >>= fun _ => pure ⟨⟩ := by
  induction n generalizing ph with
  | zero => rfl
  | succ n ih =>
      unfold loadHeaders passHeaders
      simp only [ih, bind_assoc, pure_bind]

theorem loadProgram_eq :
    loadProgram pool memory pid readElf = passProgram pool memory pid readElf >>=
      fun _ => pure ⟨⟩ := by
  unfold loadProgram passProgram
  simp only [loadHeaders_eq, bind_assoc, pure_bind]
  rfl

/-- The segments of the headers before number `i` are in place, and nothing else is there below the
stack. -/
structure SegmentsLoaded (pool : PcbPool) (pid : Pid) (held : Set Nat) (file : Store) (i : Nat)
    (s : MemoryState) : Prop where
  space : UserSpace (pool.pdir pid) held s
  stack : StackMapped (tables s.ram) (pool.pdir pid)
  places : ∀ a : Place, 4 ≤ a.index → a.index < 767 →
    reach (tables s.ram) (pool.pdir pid) a ≠ none →
    ∃ j, j < i ∧ (headerOf file j).memsz ≠ 0 ∧ a ∈ (headerOf file j).places
  mapped : ∀ j k, j < i → (headerOf file j).memsz ≠ 0 → k < (headerOf file j).memsz.toNat →
    (translate (tables s.ram) (pool.pdir pid) ((headerOf file j).vaddr.toNat + k)).isSome
  read : ∀ j k pa, j < i → (headerOf file j).memsz ≠ 0 → k < (headerOf file j).filesz.toNat →
    translate (tables s.ram) (pool.pdir pid) ((headerOf file j).vaddr.toNat + k) = some pa →
    s.ram pa = file ((headerOf file j).off.toNat + k)
  zero : ∀ va pa, kernelMem ≤ va → va < 0xBFC00000 →
    translate (tables s.ram) (pool.pdir pid) va = some pa →
    (∀ j, j < i → (headerOf file j).memsz ≠ 0 → ¬ ((headerOf file j).vaddr.toNat ≤ va ∧
      va < (headerOf file j).vaddr.toNat + (headerOf file j).filesz.toNat)) → s.ram pa = 0
  header : ∀ k, k < 4096 → k < phoff file + 32 * phnum file ∨ k < 52 →
    s.ram (elfHeader + k) = file k
  room : Room (∑ j ∈ Finset.Ico i (phnum file), (headerOf file j).frames) s

/-- What is mapped stays mapped. -/
theorem SegmentLoaded.translate_kept {va pa : Nat} (loaded : SegmentLoaded d held file ph s s')
    (low : kernelMem ≤ va) (high : va < kOffset) (found : translate (tables s.ram) d va = some pa) :
    translate (tables s'.ram) d va = some pa := by
  rw [translate_user low high] at found ⊢
  obtain ⟨f, here, same⟩ := Option.map_eq_some_iff.mp found
  rw [loaded.kept _ f here, Option.map_some, same]

/-- The pages behind the first one, and their tables, are nobody's. -/
theorem SegmentsLoaded.nothing (loaded : SegmentsLoaded pool pid held file i s)
    (exec : Executable file length) (small : i < phnum file) (some : (headerOf file i).memsz ≠ 0) :
    (∀ q, (headerOf file i).firstPage + 1 ≤ q → q < (headerOf file i).endPage →
      reach (tables s.ram) (pool.pdir pid) (.pageAt q) = none) ∧
    ∀ k, tableFrom ((headerOf file i).firstPage + 1) ≤ k → k < tableFrom (headerOf file i).endPage →
      tables s.ram (pool.pdir pid) k = none := by
  have segment := exec.segment i small some
  have low := segment.low
  have high := segment.high
  have before : ∀ j, j < i → (headerOf file j).memsz ≠ 0 →
      (headerOf file j).endPage ≤ (headerOf file i).firstPage + 1 := by
    intro j early there
    have apart := exec.sorted j i early small there some
    unfold ProgramHeader.endPage ProgramHeader.firstPage pageCeil
    omega
  have bound : (headerOf file i).endPage ≤ 767 * 1024 := by
    unfold ProgramHeader.endPage pageCeil
    omega
  have first : 4096 ≤ (headerOf file i).firstPage := by
    unfold kernelMem at low
    unfold ProgramHeader.firstPage
    omega
  constructor
  · intro q after inside
    by_contra filled
    obtain ⟨j, early, there, r, _, last, here | other⟩ :=
      loaded.places (.pageAt q) (by show 4 ≤ q / 1024; omega)
      (by show q / 1024 < 767; omega) filled
    · have limit := before j early there
      rw [Place.pageAt_inj] at here
      omega
    · cases other
  · intro k after inside
    unfold tableFrom at after inside
    by_contra filled
    rw [← reach_table (T := tables s.ram) (d := pool.pdir pid) (show k < 768 by omega)] at filled
    obtain ⟨j, early, there, r, _, last, other | here⟩ :=
      loaded.places (.table k) (by show 4 ≤ k; omega)
      (by show k < 767; omega) filled
    · cases other
    · have limit := before j early there
      injection here with index
      omega

/-- **The next segment**, if the header has one. -/
theorem segment_turn (reads : Reads pool memory pid file length readElf)
    (exec : Executable file length) (loaded : SegmentsLoaded pool pid held file i s)
    (small : i < phnum file) :
    ∃ s', (if (headerOf file i).memsz ≠ 0 then loadSegment pool pid readElf (headerOf file i)
      else pure ⟨⟩) s = .ok ⟨⟩ s' ∧
      SegmentsLoaded pool pid held file (i + 1) s' ∧ s'.spaces = s.spaces := by
  have split := Finset.sum_eq_sum_Ico_succ_bot small fun j => (headerOf file j).frames
  have room := loaded.room
  rw [split] at room
  by_cases some : (headerOf file i).memsz ≠ 0
  · have segment := exec.segment i small some
    have low := segment.low
    have high := segment.high
    obtain ⟨empty, border⟩ := loaded.nothing exec small some
    obtain ⟨s', run, next⟩ :=
      loadSegment_ok reads loaded.space segment empty border (le_trans (Nat.le_add_right _ _) room)
    -- the segments before lie below, and are not touched
    have apart : ∀ j k, j < i → (headerOf file j).memsz ≠ 0 → k < (headerOf file j).memsz.toNat →
        kernelMem ≤ (headerOf file j).vaddr.toNat + k ∧
          (headerOf file j).vaddr.toNat + k < (headerOf file i).vaddr.toNat := by
      intro j k early there inside
      have below := (exec.segment j (by omega) there).low
      have order := exec.sorted j i early small there some
      omega
    rw [if_pos some]
    refine ⟨s', run, ⟨next.space, fun j first last => ?_, ?_, ?_, ?_, ?_, fun k page inside => ?_,
      next.room _ room⟩, next.spaces⟩
    · obtain ⟨f, here⟩ := Option.isSome_iff_exists.mp (loaded.stack j first last)
      rw [next.kept _ f here]
      rfl
    · intro a user below filled
      by_cases old : reach (tables s.ram) (pool.pdir pid) a = none
      · refine ⟨i, by omega, some, ?_⟩
        by_contra outside
        exact filled (next.given a old outside)
      · obtain ⟨j, early, there⟩ := loaded.places a user below old
        exact ⟨j, by omega, there⟩
    · intro j k early there inside
      by_cases last : j = i
      · subst last
        exact next.mapped k inside
      · obtain ⟨pa, found⟩ := Option.isSome_iff_exists.mp
          (loaded.mapped j k (by omega) there inside)
        have bounds := apart j k (by omega) there inside
        rw [next.translate_kept bounds.1 (by unfold kOffset; omega) found]
        rfl
    · intro j k pa early there inside found
      by_cases last : j = i
      · subst last
        exact next.read k pa inside found
      · have fits := (exec.segment j (by omega) there).fits
        obtain ⟨pa', found'⟩ := Option.isSome_iff_exists.mp
          (loaded.mapped j k (by omega) there (by omega))
        have bounds := apart j k (by omega) there (by omega)
        have same := next.translate_kept bounds.1 (by unfold kOffset; omega) found'
        rw [found] at same
        cases same
        rw [next.old _ pa bounds.1 (by unfold kOffset; omega) (by omega) found']
        exact loaded.read j k pa (by omega) there inside found'
    · intro va pa user below found outside
      have beside := outside i (by omega) some
      cases before : translate (tables s.ram) (pool.pdir pid) va with
      | none => exact next.zero va pa user (by unfold kOffset; omega) beside before found
      | some pa' =>
          have same := next.translate_kept user (by unfold kOffset; omega) before
          rw [found] at same
          cases same
          rw [next.old va pa user (by unfold kOffset; omega) beside before]
          exact loaded.zero va pa user below before fun j early => outside j (by omega)
    · rw [next.header _ (by unfold elfHeader frameOf; omega)]
      exact loaded.header k page inside
  · rw [if_neg some]
    refine ⟨s, rfl, ⟨loaded.space, loaded.stack, ?_, ?_, ?_, ?_, loaded.header,
      le_trans (Nat.le_add_left _ _) room⟩, rfl⟩
    · intro a low high filled
      obtain ⟨j, early, there⟩ := loaded.places a low high filled
      exact ⟨j, by omega, there⟩
    · intro j k early there inside
      by_cases last : j = i
      · exact absurd (last ▸ there) some
      · exact loaded.mapped j k (by omega) there inside
    · intro j k pa early there inside
      by_cases last : j = i
      · exact absurd (last ▸ there) some
      · exact loaded.read j k pa (by omega) there inside
    · exact fun va pa low high found outside => loaded.zero va pa low high found fun j early =>
        outside j (by omega)

/-- The heap begins behind the last segment of type 1 among the headers before number `i`. -/
def HeapSet (pid : Pid) (file : Store) (i : Nat) (s : MemoryState) : Prop :=
  ∀ j, j < i → (headerOf file j).type = 1 → (∀ l, j < l → l < i → (headerOf file l).type ≠ 1) →
    (s.spaces pid).heapStart = (headerOf file j).vaddr + (headerOf file j).memsz ∧
      (s.spaces pid).heapTop = (headerOf file j).vaddr + (headerOf file j).memsz

theorem SegmentsLoaded.withSpaces {spaces : Pid → Space}
    (loaded : SegmentsLoaded pool pid held file i s) :
    SegmentsLoaded pool pid held file i { s with spaces := spaces } :=
  ⟨⟨⟨loaded.space.owned, loaded.space.low, loaded.space.cursor⟩, loaded.space.kernel⟩, loaded.stack,
    loaded.places, loaded.mapped, loaded.read, loaded.zero, loaded.header, loaded.room⟩

/-- The heap is set behind a segment of type 1. -/
def setHeap (pid : Pid) (ph : ProgramHeader) : Mm PUnit :=
  if ph.type = 1 then
    modify fun s =>
      { s with
        spaces := Function.update s.spaces pid
          { s.spaces pid with heapStart := ph.vaddr + ph.memsz, heapTop := ph.vaddr + ph.memsz } }
  else pure ⟨⟩

theorem loadHeader_eq : loadHeader pool pid readElf ph
    = (if ph.memsz ≠ 0 then loadSegment pool pid readElf ph else pure ⟨⟩) >>= fun _ =>
    setHeap pid ph := by
  unfold loadHeader setHeap
  by_cases some : ph.memsz ≠ 0
  · rw [if_pos some, if_pos some]
  · rw [if_neg some, if_neg some]
    rfl

/-- **One turn over the headers.** -/
theorem loadHeader_ok (reads : Reads pool memory pid file length readElf)
    (exec : Executable file length) (loaded : SegmentsLoaded pool pid held file i s)
    (heap : HeapSet pid file i s) (small : i < phnum file) :
    ∃ s', loadHeader pool pid readElf (headerOf file i) s = .ok ⟨⟩ s' ∧
      SegmentsLoaded pool pid held file (i + 1) s' ∧ HeapSet pid file (i + 1) s' := by
  obtain ⟨s₁, run, next, spaces⟩ := segment_turn reads exec loaded small
  rw [loadHeader_eq, run_bind run]
  unfold setHeap
  by_cases type : (headerOf file i).type = 1
  · rw [if_pos type]
    refine ⟨_, rfl, next.withSpaces, fun j early one last => ?_⟩
    by_cases here : j = i
    · subst here
      simp only [Function.update_self, and_self]
    · exact absurd type (last i (by omega) (by omega))
  · rw [if_neg type]
    refine ⟨s₁, rfl, next, fun j early one last => ?_⟩
    rw [spaces]
    by_cases here : j = i
    · exact absurd (here ▸ one) type
    · exact heap j (by omega) one fun l after before => last l after (by omega)

/-- A word that was read from the file. -/
theorem word_file {ram : Store} {a : Nat}
    (same : ∀ k, k < 4 → ram (elfHeader + (a + k)) = file (a + k)) :
    ram.word (elfHeader + a) = file.word a := by
  refine Store.word_eq_iff.mpr fun k small => ?_
  rw [Store.wordByte_word small, ← same k small, Nat.add_assoc]

theorem readHeader_ok (table : phoff file + 32 * phnum file ≤ 4096) (small : i < phnum file)
    (header : ∀ k, k < 4096 → k < phoff file + 32 * phnum file ∨ k < 52 →
      s.ram (elfHeader + k) = file k) :
    readHeader (elfHeader + (phoff file + 32 * i)) s = .ok (headerOf file i) s := by
  have word : ∀ a, a + 4 ≤ 32 → load32 (elfHeader + (phoff file + 32 * i) + a) s
      = .ok (file.word (phoff file + 32 * i + a)) s := by
    intro a inside
    rw [load32_direct (by unfold elfHeader physMem; omega), Nat.add_assoc,
      word_file fun k byte => header _ (by omega) (.inl (by omega))]
  have type := word 0 (by omega)
  rw [Nat.add_zero, Nat.add_zero] at type
  unfold readHeader
  rw [run_bind type, run_bind (word 4 (by omega)), run_bind (word 8 (by omega)),
    run_bind (word 16 (by omega)), run_bind (word 20 (by omega))]
  rfl

/-- **The loop over the headers.** -/
theorem passHeaders_ok (reads : Reads pool memory pid file length readElf)
    (exec : Executable file length) (loaded : SegmentsLoaded pool pid held file i s)
    (heap : HeapSet pid file i s) (count : i + n = phnum file) :
    ∃ s', passHeaders pool pid readElf n (elfHeader + (phoff file + 32 * i)) s
        = .ok ((List.range' i n).map (headerOf file)) s' ∧
      SegmentsLoaded pool pid held file (phnum file) s' ∧ HeapSet pid file (phnum file) s' := by
  induction n generalizing i s with
  | zero =>
      obtain rfl : i = phnum file := by omega
      exact ⟨s, rfl, loaded, heap⟩
  | succ n ih =>
      have small : i < phnum file := by omega
      obtain ⟨s₁, run, loaded₁, heap₁⟩ := loadHeader_ok reads exec loaded heap small
      obtain ⟨s', rest, done⟩ := ih loaded₁ heap₁ (by omega)
      refine ⟨s', ?_, done⟩
      unfold passHeaders
      rw [run_bind (readHeader_ok exec.table.1 small loaded.header), run_bind run, Nat.add_assoc,
        Nat.add_assoc]
      exact run_bind rest

/-! ### The program -/

/-- **What is there when a program has been loaded.** -/
structure ProgramLoaded (pool : PcbPool) (pid : Pid) (file : Store) (s' : MemoryState) : Prop where
  space : ∃ held, UserSpace (pool.pdir pid) held s'
  segments : ∀ j, j < phnum file → (headerOf file j).memsz ≠ 0 →
    ∀ k, k < (headerOf file j).memsz.toNat →
    ∃ pa, translate (tables s'.ram) (pool.pdir pid) ((headerOf file j).vaddr.toNat + k) = some pa ∧
      s'.ram pa = if k < (headerOf file j).filesz.toNat then
        file ((headerOf file j).off.toNat + k) else 0
  places : ∀ a : Place, 4 ≤ a.index → a.index < 767 →
    reach (tables s'.ram) (pool.pdir pid) a ≠ none →
    ∃ j, j < phnum file ∧ (headerOf file j).memsz ≠ 0 ∧ a ∈ (headerOf file j).places
  stack : StackMapped (tables s'.ram) (pool.pdir pid)
  heap : HeapSet pid file (phnum file) s'
  entry : (s'.spaces pid).entry = file.word 24 ∧ (s'.spaces pid).cr3 = pool.pdir pid

/-- The byte of a segment that is in place. -/
theorem SegmentsLoaded.byte (loaded : SegmentsLoaded pool pid held file (phnum file) s)
    (exec : Executable file length) {k : Nat} (small : j < phnum file)
    (some : (headerOf file j).memsz ≠ 0) (inside : k < (headerOf file j).memsz.toNat) :
    ∃ pa, translate (tables s.ram) (pool.pdir pid) ((headerOf file j).vaddr.toNat + k) =
    Option.some pa ∧
      s.ram pa = if k < (headerOf file j).filesz.toNat then
      file ((headerOf file j).off.toNat + k) else 0 := by
  have segment := exec.segment j small some
  have low := segment.low
  have high := segment.high
  obtain ⟨pa, found⟩ := Option.isSome_iff_exists.mp (loaded.mapped j k small some inside)
  refine ⟨pa, found, ?_⟩
  by_cases read : k < (headerOf file j).filesz.toNat
  · rw [if_pos read]
    exact loaded.read j k pa small some read found
  · rw [if_neg read]
    refine loaded.zero _ pa (by omega) (by omega) found fun i early there within => ?_
    have fits := (exec.segment i early there).fits
    rcases Nat.lt_trichotomy i j with before | rfl | after
    · have order := exec.sorted i j before small there some
      omega
    · omega
    · have order := exec.sorted j i after early some there
      omega

/-- The program is loaded, and its headers are those of the file. -/
theorem passProgram_ok (reads : Reads pool memory pid file length readElf)
    (exec : Executable file length) (cursor : s.bitmapIdx < pageNum)
    (room : Room (15 + ∑ j ∈ Finset.range (phnum file), (headerOf file j).frames) s) :
    ∃ s', passProgram pool memory pid readElf s =
      .ok ((List.range (phnum file)).map (headerOf file)) s' ∧
      ProgramLoaded pool pid file s' := by
  have bounds := pool.pdir_range pid
  have place : At (pool.pdir pid * pageSize) (pool.pdir pid) := .direct (by omega)
  -- the kernel's part and the stack
  obtain ⟨s₁, s₂, run₁, run₂, dir, stack⟩ :=
    createStackPage_kernelDir (s := s) place (by omega) cursor (le_trans (by omega) room)
  have space₂ := stack.userSpace dir.userSpace
  -- the first page of the file
  obtain ⟨r, run₃, stored⟩ := reads.header s₂ elfHeader 0 4096 (by decide)
  have spares : ∀ x, InTables (tables s₂.ram) (pool.pdir pid) x → r x = s₂.ram x := by
    rintro x (directory | ⟨i, table⟩)
    · refine stored.rest x (.inr (.inr ⟨pid, directory⟩)) fun k small same => ?_
      cases same
      change k < 4096 at small
      unfold frameOf elfHeader at directory
      omega
    · have range := space₂.range table
      unfold frameOf at range
      refine stored.rest x (.inl (by unfold kernelMem; omega)) fun k small same => ?_
      cases same
      change k < 4096 at small
      unfold elfHeader at range
      omega
  obtain ⟨_, space₃⟩ := space₂.spared spares
  have reached := space₂.spared_reach spares
  have header : ∀ k, k < 4096 → k < phoff file + 32 * phnum file ∨ k < 52 →
      r (elfHeader + k) = file k := by
    intro k page inside
    have size := exec.header
    have table := exec.table.2
    have byte := stored.bytes k (elfHeader + k) page (by show 0 + k < length; omega) rfl
    change r (elfHeader + k) = file (0 + k) at byte
    rwa [Nat.zero_add] at byte
  have below : ∀ a : Place, 4 ≤ a.index → a.index < 767 →
      reach (tables r) (pool.pdir pid) a = none := by
    intro a low high
    rw [reached, stack.reach_other, dir.nothing]
    · rintro k small rfl
      exact absurd low (by show ¬ 4 ≤ k; omega)
    · rintro (rfl | ⟨j, _, _, rfl⟩)
      · exact absurd high (Nat.lt_irrefl 767)
      · exact absurd high (Nat.lt_irrefl 767)
  have start : SegmentsLoaded pool pid (usedFrames s) file 0 (s₂.withRam r) := by
    refine ⟨space₃, fun j low high => ?_, fun a low high filled => absurd (below a low high) filled,
      fun j k early => absurd early (Nat.not_lt_zero j),
      fun j k pa early => absurd early (Nat.not_lt_zero j),
      fun va pa low high found _ => ?_, header, ?_⟩
    · rw [withRam_ram, reached]
      exact stack.isSome (.inr ⟨j, low, high, rfl⟩)
    · rw [withRam_ram, translate_user low (by unfold kOffset; omega), below _ ?_ ?_] at found
      · cases found
      · show 4 ≤ va / 4096 / 1024
        unfold kernelMem at low
        omega
      · show va / 4096 / 1024 < 767
        omega
    · rw [Finset.range_eq_Ico] at room
      exact (stack.room _).mpr ((dir.grows.room _).mpr (le_trans (by omega) room))
  obtain ⟨s₄, run₄, loaded, heap⟩ :=
    passHeaders_ok (n := phnum file) reads exec start
      (fun j early => absurd early (Nat.not_lt_zero j))
    (Nat.zero_add _)
  have table := exec.table.1
  have word : ∀ {s : MemoryState}, (∀ k, k < 4096 → k < phoff file + 32 * phnum file ∨ k < 52 →
    s.ram (elfHeader + k) = file k) →
      ∀ a, a + 4 ≤ 52 → load32 (elfHeader + a) s = .ok (file.word a) s := by
    intro s header a inside
    rw [load32_direct (by unfold elfHeader physMem; omega),
      word_file fun k small => header _ (by omega) (.inr (by omega))]
  have first : (elfHeader + (file.word 28).toNat) % 4294967296 =
      elfHeader + (phoff file + 32 * 0) := by
    unfold phoff elfHeader at *
    omega
  have count : headerCount (elfHeader + (phoff file + 32 * 0)) (phnum file) = phnum file := by
    unfold headerCount elfHeader
    rw [if_pos (by omega)]
  obtain ⟨spaces, is_spaces⟩ : ∃ g, g = Function.update s₄.spaces pid
    { s₄.spaces pid with cr3 := pool.pdir pid, entry := file.word 24 } := ⟨_, rfl⟩
  refine ⟨{ s₄ with spaces }, ?_, ⟨_, loaded.withSpaces.space⟩,
    fun j small some k inside => loaded.byte exec small some inside, loaded.places, loaded.stack,
    fun j early one last => ?_, ?_⟩
  · unfold passProgram
    rw [run_bind run₁, run_bind run₂, run_bind run₃, run_bind (word start.header 28 (by omega)),
      run_bind (word start.header 44 (by omega)), first,
      show (file.word 44).toNat % 65536 = phnum file from rfl, count, run_bind run₄,
      run_bind (word loaded.header 24 (by omega)), is_spaces, List.range_eq_range']
    rfl
  · simp only [is_spaces, Function.update_self]
    exact heap j early one last
  · simp only [is_spaces, Function.update_self, and_self]

/-- **`load_program` loads the program.** -/
theorem loadProgram_loads (reads : Reads pool memory pid file length readElf)
    (exec : Executable file length) (cursor : s.bitmapIdx < pageNum)
    (room : Room (15 + ∑ j ∈ Finset.range (phnum file), (headerOf file j).frames) s) :
    ∃ s', loadProgram pool memory pid readElf s = .ok ⟨⟩ s' ∧ ProgramLoaded pool pid file s' := by
  obtain ⟨s', run, loaded⟩ := passProgram_ok reads exec cursor room
  refine ⟨s', ?_, loaded⟩
  rw [loadProgram_eq, run_bind run]
  rfl

end Loads

/-! ### A run -/

/-- The bytes of a request, each at its address. -/
def storeFile (file : Store) (length : Nat) (tr : Nat → Option Nat) (va off size : Nat)
    (ram : Store) : Store := fun x =>
  match (List.range size).find? fun k => off + k < length ∧ tr (va + k) = some x with
  | some k => file (off + k)
  | none => ram x

theorem storeFile_stored {pool : PcbPool} {file ram : Store} {length va off size : Nat}
    {tr : Nat → Option Nat}
    (injective : ∀ k l x, k < size → l < size → tr (va + k) = some x →
      tr (va + l) = some x → k = l) :
    Stored pool file length tr va off size ram (storeFile file length tr va off size ram) := by
  refine ⟨fun k x small inside found => ?_, fun x _ outside => ?_⟩
  · have search : ((List.range size).find? fun k => off + k < length ∧
      tr (va + k) = some x).isSome :=
      List.find?_isSome.mpr ⟨k, List.mem_range.mpr small, by simp [inside, found]⟩
    obtain ⟨l, here⟩ := Option.isSome_iff_exists.mp search
    have there := List.find?_some here
    have member := List.mem_range.mp (List.mem_of_find?_eq_some here)
    simp only [decide_eq_true_eq] at there
    unfold storeFile
    rw [here, injective k l x small member found there.2]
  · have search : ((List.range size).find? fun k => off + k < length ∧
        tr (va + k) = some x) = none := by
      refine List.find?_eq_none.mpr fun k member => ?_
      simp only [decide_eq_true_eq]
      exact fun here => outside k (List.mem_range.mp member) here.2
    unfold storeFile
    rw [search]

/-- A file server for one file. -/
def bootReadElf (file : Store) (length : Nat) : ReadElf := fun pid va off size s =>
  .ok ⟨⟩ (s.withRam
    (storeFile file length (if pid = 0 then some
      else translate (tables s.ram) (bootPool.pdir pid)) va
    off.toNat size.toNat s.ram))

theorem bootReadElf_reads (file : Store) (length : Nat) :
    Reads bootPool 0 1 file length (bootReadElf file length) where
  header := by
    intro s va off size _
    refine ⟨_, rfl, ?_⟩
    rw [if_pos rfl]
    refine storeFile_stored fun k l x _ _ first second => ?_
    injection first with first
    injection second with second
    omega
  segment := by
    intro held s va off size space range
    have low := range.low
    have high := range.high
    refine ⟨_, rfl, ?_⟩
    rw [if_neg (by decide)]
    refine storeFile_stored fun k l x small small' first second => ?_
    have same := space.translate_injective (by omega) (by omega) (by omega) (by omega) first second
    omega

/-- The words of a file with two segments that share a page. -/
def bootWords : Nat → UInt32
  | 6 => 16777216
  | 7 => 52
  | 11 => 2
  | 13 => 1
  | 14 => 200
  | 15 => 16777216
  | 17 => 100
  | 18 => 200
  | 21 => 1
  | 22 => 300
  | 23 => 16777516
  | 25 => 50
  | 26 => 5000
  | _ => 0

/-- A file with these words, and zeros behind them. -/
def bootFile : Store := Store.writeWords (fun _ => 0) 0 30 bootWords

theorem bootFile_word {i : Nat} (small : i < 30) : bootFile.word (4 * i) = bootWords i := by
  have word : bootFile.word (0 + 4 * i) = bootWords i := Store.word_writeWords small
  rwa [Nat.zero_add] at word

theorem bootFile_phoff : phoff bootFile = 52 := by
  unfold phoff
  rw [show 28 = 4 * 7 by omega, bootFile_word (by omega)]
  rfl

theorem bootFile_phnum : phnum bootFile = 2 := by
  unfold phnum
  rw [show 44 = 4 * 11 by omega, bootFile_word (by omega)]
  rfl

theorem bootFile_header {j : Nat} (small : j < 2) : headerOf bootFile j = {
    type := bootWords (13 + 8 * j), off := bootWords (14 + 8 * j), vaddr := bootWords (15 + 8 * j),
    filesz := bootWords (17 + 8 * j), memsz := bootWords (18 + 8 * j) } := by
  unfold headerOf
  rw [bootFile_phoff, ← bootFile_word (show 13 + 8 * j < 30 by omega),
    ← bootFile_word (show 14 + 8 * j < 30 by omega),
    ← bootFile_word (show 15 + 8 * j < 30 by omega),
    ← bootFile_word (show 17 + 8 * j < 30 by omega),
    ← bootFile_word (show 18 + 8 * j < 30 by omega)]
  congr 2 <;> omega

theorem bootFile_executable : Executable bootFile 400 where
  header := by omega
  table := by
    rw [bootFile_phoff, bootFile_phnum]
    omega
  segment := by
    rw [bootFile_phnum]
    intro j small some
    rw [bootFile_header small] at some ⊢
    interval_cases j
    · exact ⟨some, by decide, by decide, by decide, by decide⟩
    · exact ⟨some, by decide, by decide, by decide, by decide⟩
  sorted := by
    rw [bootFile_phnum]
    intro i j less small _ _
    obtain ⟨rfl, rfl⟩ : i = 0 ∧ j = 1 := by omega
    rw [bootFile_header (by omega), bootFile_header (by omega)]
    decide

/-- The file is loaded into an empty memory. -/
theorem boot_loads :
    ∃ s', loadProgram bootPool 0 1 (bootReadElf bootFile 400) bootMemory = .ok ⟨⟩ s' ∧
    ProgramLoaded bootPool 1 bootFile s' := by
  refine loadProgram_loads (bootReadElf_reads bootFile 400) bootFile_executable (by decide)
    (room_boot ?_)
  rw [bootFile_phnum, Finset.sum_range_succ, Finset.sum_range_one, bootFile_header (by omega),
    bootFile_header (by omega)]
  decide

end NjuOs.Memory
