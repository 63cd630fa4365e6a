/-
**Copies between address spaces.**

`copy_from_kernel` and `copy_to_kernel` move bytes between a buffer of the kernel and an address of
a process. What they are for is said by `CopiedIn` and `CopiedOut`: the bytes are there, in order,
and nothing else has changed.

The loop does this chunk by chunk and translates the address behind every chunk, also behind the
last one. So when all bytes are there the copy still fails if the address behind the buffer is not
mapped (`copyPages_run`): the functions do their work exactly for the buffers whose end is mapped
(`transfers_iff`).
-/

import NjuOs.Memory.Growth

namespace NjuOs.Memory

open NjuOs.Lib

/-- The bytes from `b` on are now at the process's address `va`, and nothing else has changed. -/
structure CopiedIn (tr : Nat → Option Nat) (va b len : Nat) (ram ram' : Store) : Prop where
  bytes : ∀ k pa, k < len → tr (va + k) = some pa → ram' pa = ram (b + k)
  rest : ∀ x, (∀ k, k < len → tr (va + k) ≠ some x) → ram' x = ram x

/-- The bytes at the process's address `va` are now from `b` on, and nothing else has changed. -/
structure CopiedOut (tr : Nat → Option Nat) (va b len : Nat) (ram ram' : Store) : Prop where
  bytes : ∀ k pa, k < len → tr (va + k) = some pa → ram' (b + k) = ram pa
  rest : ∀ x, (∀ k, k < len → x ≠ b + k) → ram' x = ram x

/-- A buffer of the kernel, at `b` in memory, apart from the page directory in frame `d`. -/
structure Buffer (d buf b len : Nat) : Prop where
  place : buf = b ∨ buf = kOffset + b
  kernel : b + len ≤ kernelMem
  apart : ∀ k, k < len → frameOf (b + k) ≠ d

/-- A buffer of the process. -/
structure UserRange (tr : Nat → Option Nat) (va len : Nat) : Prop where
  low : kernelMem ≤ va
  high : va + len ≤ kOffset
  mapped : ∀ k, k < len → (tr (va + k)).isSome

section Copies

variable {d va buf b n m len pa : Nat} {held : Set Nat} {s : MemoryState} {ram ram' ram'' : Store}
  {tr : Nat → Option Nat}

theorem kernelPa_buffer (buffer : Buffer d buf b len) : kernelPa buf len s = .ok b s := by
  have kernel := buffer.kernel
  unfold kernelMem at kernel
  obtain here | here := buffer.place
  · rw [here]
    exact kernelPa_direct (by unfold physMem; omega)
  · unfold kernelPa physMem kOffset at *
    rw [here, if_neg (by omega), if_pos (by omega), show 3221225472 + b - 3221225472 = b by omega]
    rfl

theorem Buffer.drop (buffer : Buffer d buf b (n + m)) : Buffer d (buf + n) (b + n) m where
  place := by
    obtain here | here := buffer.place
    · exact .inl (by rw [here])
    · exact .inr (by rw [here, Nat.add_assoc])
  kernel := by
    have kernel := buffer.kernel
    omega
  apart := fun k inside => by
    rw [Nat.add_assoc]
    exact buffer.apart (n + k) (by omega)

theorem Buffer.take (buffer : Buffer d buf b (n + m)) : Buffer d buf b n where
  place := buffer.place
  kernel := le_trans (by omega) buffer.kernel
  apart := fun k inside => buffer.apart k (by omega)

theorem UserRange.drop (range : UserRange tr va (n + m)) : UserRange tr (va + n) m where
  low := le_trans range.low (Nat.le_add_right va n)
  high := by
    have high := range.high
    omega
  mapped := fun k inside => by
    rw [Nat.add_assoc]
    exact range.mapped (n + k) (by omega)

theorem UserRange.take (range : UserRange tr va (n + m)) : UserRange tr va n where
  low := range.low
  high := le_trans (by omega) range.high
  mapped := fun k inside => range.mapped k (by omega)

/-! ### One direction -/

/-- What the loop needs to know about the direction it copies in: how one chunk inside a page is
copied, how two ranges become one, and that the address space is spared. -/
structure Direction (move : Nat → Nat → Nat → Mm PUnit) (C : Nat → Nat → Nat → Store → Store → Prop)
    (d : Nat) (s : MemoryState) : Prop where
  none : ∀ va b ram, C va b 0 ram ram
  chunk : ∀ va pa buf b n t, translate (tables s.ram) d va = some pa → 0 < n →
    n ≤ 4096 - va % 4096 →
    UserRange (translate (tables s.ram) d) va n → Buffer d buf b n →
    ∃ ram, move buf pa n t = .ok ⟨⟩ (t.withRam ram) ∧ C va b n t.ram ram
  append : ∀ va buf b n m ram ram' ram'', UserRange (translate (tables s.ram) d) va (n + m) →
    Buffer d buf b (n + m) →
    C va b n ram ram' → C (va + n) (b + n) m ram' ram'' → C va b (n + m) ram ram''
  spares : ∀ va buf b n ram ram', UserRange (translate (tables s.ram) d) va n → Buffer d buf b n →
    C va b n ram ram' →
    ∀ x, InTables (tables s.ram) d x → ram' x = ram x

/-- **The loop copies the whole range**; then the address behind it decides how the loop ends. -/
theorem copyPages_run {move : Nat → Nat → Nat → Mm PUnit}
    {C : Nat → Nat → Nat → Store → Store → Prop} {fuel : Nat} (space : UserSpace d held s)
    (direction : Direction move C d s) (enough : len ≤ fuel)
    (same : ∀ x, InTables (tables s.ram) d x → ram x = s.ram x)
    (range : UserRange (translate (tables s.ram) d) va len) (buffer : Buffer d buf b len)
    (found : 0 < len → translate (tables s.ram) d va = some pa) :
    ∃ ram', C va b len ram ram' ∧
      copyPages move (d * pageSize) fuel va pa buf len (min (4096 - va % 4096) len) (s.withRam ram)
        = if len = 0 ∨ (translate (tables s.ram) d (va + len)).isSome then .ok ⟨⟩ (s.withRam ram')
          else .error .panic (s.withRam ram') := by
  induction fuel generalizing va pa buf b len ram with
  | zero =>
      obtain rfl : len = 0 := by omega
      exact ⟨ram, direction.none va b ram, by rw [if_pos (.inl rfl)]; rfl⟩
  | succ fuel ih =>
      by_cases zero : len = 0
      · subst zero
        exact ⟨ram, direction.none va b ram, by rw [if_pos (.inl rfl)]; rfl⟩
      · obtain ⟨n, is_n⟩ : ∃ n, n = min (4096 - va % 4096) len := ⟨_, rfl⟩
        obtain ⟨m, rfl⟩ : ∃ m, len = n + m := ⟨len - n, by omega⟩
        have high := range.high
        unfold kOffset at high
        obtain ⟨ram₁, moved, copied⟩ :=
          direction.chunk va pa buf b n (s.withRam ram) (found (by omega)) (by omega) (by omega)
          range.take buffer.take
        have same₁ : ∀ x, InTables (tables s.ram) d x → ram₁ x = s.ram x := fun x inside =>
          (direction.spares va buf b n ram ram₁ range.take buffer.take copied x inside).trans
          (same x inside)
        obtain ⟨translated, space₁⟩ := space.spared same₁
        have behind := space₁.physicalAddr (show va + n < 4294967296 by omega)
        rw [withRam_ram, translated] at behind
        have ahead : advance va n = va + n := by
          unfold advance
          omega
        rw [← is_n]
        unfold copyPages
        rw [if_pos (by omega), run_bind moved, ahead, Nat.add_sub_cancel_left]
        cases next : translate (tables s.ram) d (va + n) with
        | none =>
            -- the chunk was the last one: every other byte of the range is mapped
            have last : m = 0 := by
              by_contra more
              have mapped := range.mapped n (by omega)
              rw [next] at mapped
              cases mapped
            subst last
            rw [next] at behind
            refine ⟨ram₁, copied, ?_⟩
            rw [Nat.add_zero, next, if_neg (by simp; omega)]
            exact run_bind_error behind
        | some pa' =>
            rw [next] at behind
            obtain ⟨ram', rest, run⟩ := ih (by omega) same₁ range.drop buffer.drop fun _ => next
            refine ⟨ram', direction.append va buf b n m ram ram₁ ram' range buffer copied rest, ?_⟩
            have chunk : min (4096 - (va + n) % 4096) m = min pageSize m := by
              unfold pageSize
              omega
            rw [chunk] at run
            refine (run_bind behind).trans ?_
            rw [run, Nat.add_assoc]
            refine if_congr ?_ rfl rfl
            constructor
            · rintro (rfl | mapped)
              · exact .inr (by rw [Nat.add_zero, next]; rfl)
              · exact .inr mapped
            · rintro (none | mapped)
              · exact absurd none zero
              · exact .inr mapped

/-! ### Both directions -/

/-- The address of a buffer is none of a process. -/
theorem Buffer.apart_user (buffer : Buffer d buf b len) (space : UserSpace d held s) {k va : Nat}
    (inside : k < len) (low : kernelMem ≤ va) (high : va < kOffset) :
    translate (tables s.ram) d va ≠ some (b + k) := by
  intro found
  have range := space.page_range low high found
  have kernel := buffer.kernel
  omega

theorem inward (space : UserSpace d held s) :
    Direction (fun buf pa n => memcpy pa buf n) (CopiedIn (translate (tables s.ram) d)) d s where
  none := fun va b ram => ⟨fun k _ inside => absurd inside (Nat.not_lt_zero k), fun _ _ => rfl⟩
  chunk := by
    intro va pa buf b n t found some inside range buffer
    have low := range.low
    have high := range.high
    have bounds := space.page_range low (by omega) found
    refine ⟨t.ram.write pa (t.ram.read b n),
      memcpy_at (kernelPa_buffer buffer) (kernelPa_direct (by omega)), ?_, ?_⟩
    · intro k pa' small there
      rw [translate_add found (by omega)] at there
      cases there
      rw [Store.write_inside (by simpa using small), Store.read_getD small]
    · intro x outside
      refine Store.write_outside ?_
      rw [Store.read_length]
      by_contra here
      refine outside (x - pa) (by omega) ?_
      rw [translate_add found (by omega)]
      congr 1
      omega
  append := by
    intro va buf b n m ram ram' ram'' range buffer first second
    have low := range.low
    have high := range.high
    constructor
    · intro k pa small found
      by_cases early : k < n
      · rw [second.rest pa fun j more again => ?_, first.bytes k pa early found]
        have same := space.translate_injective (by omega) (by omega) (by omega)
          (by omega) found again
        omega
      · obtain ⟨j, rfl⟩ : ∃ j, k = n + j := ⟨k - n, by omega⟩
        rw [← Nat.add_assoc] at found
        rw [second.bytes j pa (by omega) found, first.rest, Nat.add_assoc]
        intro i _ there
        rw [Nat.add_assoc] at there
        exact buffer.apart_user space small (by omega) (by omega) there
    · intro x outside
      rw [second.rest x fun j more => ?_, first.rest x fun j early => outside j (by omega)]
      rw [Nat.add_assoc]
      exact outside (n + j) (by omega)
  spares := by
    intro va buf b n ram ram' range buffer copied x inside
    refine copied.rest x fun k small found => ?_
    have low := range.low
    have high := range.high
    exact space.page_apart (by omega) (by omega) found inside

theorem outward (space : UserSpace d held s) :
    Direction (fun buf pa n => memcpy buf pa n) (CopiedOut (translate (tables s.ram) d)) d s where
  none := fun va b ram => ⟨fun k _ inside => absurd inside (Nat.not_lt_zero k), fun _ _ => rfl⟩
  chunk := by
    intro va pa buf b n t found some inside range buffer
    have low := range.low
    have high := range.high
    have bounds := space.page_range low (by omega) found
    refine ⟨t.ram.write b (t.ram.read pa n),
      memcpy_at (kernelPa_direct (by omega)) (kernelPa_buffer buffer), ?_, ?_⟩
    · intro k pa' small there
      rw [translate_add found (by omega)] at there
      cases there
      rw [Store.write_inside (by simpa using small), Store.read_getD small]
    · intro x outside
      refine Store.write_outside ?_
      rw [Store.read_length]
      by_contra here
      exact outside (x - b) (by omega) (by omega)
  append := by
    intro va buf b n m ram ram' ram'' range buffer first second
    have low := range.low
    have high := range.high
    constructor
    · intro k pa small found
      by_cases early : k < n
      · rw [second.rest (b + k) (by omega), first.bytes k pa early found]
      · obtain ⟨j, rfl⟩ : ∃ j, k = n + j := ⟨k - n, by omega⟩
        have there := found
        rw [← Nat.add_assoc] at found ⊢
        rw [second.bytes j pa (by omega) found, first.rest]
        rintro i some rfl
        exact buffer.apart_user space (by omega) (by omega) (by omega) there
    · intro x outside
      rw [second.rest x fun j more => ?_, first.rest x fun j early => outside j (by omega)]
      rw [Nat.add_assoc]
      exact outside (n + j) (by omega)
  spares := by
    intro va buf b n ram ram' range buffer copied x inside
    refine copied.rest x fun k small here => ?_
    subst here
    rcases inside with directory | ⟨i, table⟩
    · exact buffer.apart k small directory
    · have bounds := space.range table
      have kernel := buffer.kernel
      unfold frameOf at bounds
      unfold kernelMem at kernel
      omega

/-! ### The functions -/

/-- A process with an address space, no kernel thread. -/
structure UserProcess (pool : PcbPool) (pid : Pid) (held : Set Nat) (s : MemoryState) : Prop
    extends UserSpace (pool.pdir pid) held s where
  user : s.ram ((pool.pdir pid + 1) * pageSize) = 0

variable {pool : PcbPool} {pid : Pid}

theorem isKernel_user (process : UserProcess pool pid held s) :
    isKernel pool pid s = .ok false s := by
  have range := pool.pdir_range pid
  have inside : (pool.pdir pid + 1) * pageSize < physMem := by
    unfold pageSize physMem
    omega
  unfold isKernel
  rw [run_bind (load8_direct inside), process.user]
  rfl

/-- **The copy is made, and the address behind it decides.** -/
theorem copyUser_run {move : Nat → Nat → Nat → Mm PUnit}
    {C : Nat → Nat → Nat → Store → Store → Prop} (process : UserProcess pool pid held s)
    (direction : Direction move C (pool.pdir pid) s) (some : 1 ≤ len)
    (range : UserRange (translate (tables s.ram) (pool.pdir pid)) va len)
    (buffer : Buffer (pool.pdir pid) buf b len) :
    ∃ ram, C va b len s.ram ram ∧ copyUser move pool pid va buf len s
      = if (translate (tables s.ram) (pool.pdir pid) (va + len)).isSome then .ok ⟨⟩ (s.withRam ram)
        else .error .panic (s.withRam ram) := by
  have high := range.high
  unfold kOffset at high
  obtain ⟨pa, found⟩ := Option.isSome_iff_exists.mp (range.mapped 0 some)
  rw [Nat.add_zero] at found
  have first := process.physicalAddr (show va < 4294967296 by omega)
  rw [found] at first
  obtain ⟨ram, copied, run⟩ :=
    copyPages_run process.toUserSpace direction (Nat.le_refl len) (fun _ _ => rfl) range buffer
    fun _ => found
  refine ⟨ram, copied, ?_⟩
  unfold copyUser
  rw [run_bind (isKernel_user process), if_neg Bool.false_ne_true]
  refine (run_bind first).trans (run.trans ?_)
  refine if_congr ⟨fun here => here.resolve_left (by omega), .inr⟩ rfl rfl

/-- Both functions complete, have copied the range, and have changed nothing else. -/
structure Transfers (pool : PcbPool) (pid : Pid) (va buf b len : Nat) (s : MemoryState) : Prop where
  into : ∃ ram, copyFromKernel pool pid va buf len s = .ok ⟨⟩ (s.withRam ram) ∧
    CopiedIn (translate (tables s.ram) (pool.pdir pid)) va b len s.ram ram
  out : ∃ ram, copyToKernel pool pid buf va len s = .ok ⟨⟩ (s.withRam ram) ∧
    CopiedOut (translate (tables s.ram) (pool.pdir pid)) va b len s.ram ram

/-- **The functions do their work exactly if the address behind the buffer is mapped.** -/
theorem transfers_iff (process : UserProcess pool pid held s) (some : 1 ≤ len)
    (range : UserRange (translate (tables s.ram) (pool.pdir pid)) va len)
    (buffer : Buffer (pool.pdir pid) buf b len) :
    Transfers pool pid va buf b len s ↔
    (translate (tables s.ram) (pool.pdir pid) (va + len)).isSome := by
  obtain ⟨ram, copied, run⟩ := copyUser_run process (inward process.toUserSpace) some range buffer
  obtain ⟨ram', copied', run'⟩ :=
    copyUser_run process (outward process.toUserSpace) some range buffer
  constructor
  · intro transfers
    obtain ⟨_, ends, _⟩ := transfers.into
    by_contra unmapped
    unfold copyFromKernel at ends
    rw [run, if_neg unmapped] at ends
    cases ends
  · intro mapped
    rw [if_pos mapped] at run run'
    exact ⟨⟨ram, run, copied⟩, ⟨ram', run', copied'⟩⟩

end Copies

/-- A process with two pages of zeros at 16 MB, and none behind them. -/
theorem boot_process :
    ∃ s, UserProcess bootPool 0 ∅ s ∧ UserRange (translate (tables s.ram) 16) kernelMem 8192 ∧
    translate (tables s.ram) 16 (kernelMem + 8192) = none ∧
    (∀ x, ¬ InTables (tables s.ram) 16 x → s.ram x = 0) ∧
    Room 100 s := by
  obtain ⟨s, space, room, user, places, zeros⟩ := boot_pages
  refine ⟨s, ⟨space, user⟩, ⟨Nat.le_refl _, by decide, fun k inside => ?_⟩, ?_, zeros, room⟩
  · rw [translate_user (Nat.le_add_right _ _) (by unfold kernelMem kOffset; omega),
      Option.isSome_map, Option.isSome_iff_ne_none, ne_eq, places, not_not]
    refine .inr ?_
    unfold Place.pageAt kernelMem
    by_cases early : k < 4096
    · exact .inl (by congr 1 <;> omega)
    · exact .inr (by congr 1 <;> omega)
  · rw [translate_user (Nat.le_add_right _ _) (by decide), Option.map_eq_none_iff, places]
    simp [Place.pageAt, kernelMem]

/-- A buffer whose end is mapped. -/
theorem transfers_inside :
    ∃ s, UserProcess bootPool 0 ∅ s ∧ Transfers bootPool 0 (kernelMem + 4095) 0 0 100 s := by
  obtain ⟨s, process, range, _⟩ := boot_process
  have part : UserRange (translate (tables s.ram) 16) (kernelMem + 4095) 100 :=
    UserRange.take (m := 3997) (UserRange.drop (n := 4095) range)
  have buffer : Buffer 16 0 0 100 := ⟨.inl rfl, by decide, fun k inside => by unfold frameOf; omega⟩
  refine ⟨s, process, (transfers_iff process (by omega) part buffer).mpr ?_⟩
  exact range.mapped 4195 (by omega)

/-- A buffer that ends with its page, in front of a page that is not mapped: the copy is made, and
then the assertion fails. -/
theorem transfers_at_end : ∃ s, UserProcess bootPool 0 ∅ s ∧
    UserRange (translate (tables s.ram) (bootPool.pdir 0)) (kernelMem + 4096) 4096 ∧
    Buffer (bootPool.pdir 0) 0 0 4096 ∧
    ¬ Transfers bootPool 0 (kernelMem + 4096) 0 0 4096 s := by
  obtain ⟨s, process, range, behind, _⟩ := boot_process
  have part : UserRange (translate (tables s.ram) 16) (kernelMem + 4096) 4096 :=
    UserRange.drop (n := 4096) range
  have buffer : Buffer 16 0 0 4096 :=
    ⟨.inl rfl, by decide, fun k inside => by unfold frameOf; omega⟩
  refine ⟨s, process, part, buffer, fun transfers => ?_⟩
  obtain ⟨ram, _, run⟩ := copyUser_run process (inward process.toUserSpace) (by omega) part buffer
  obtain ⟨_, ends, _⟩ := transfers.into
  rw [show bootPool.pdir 0 = 16 from rfl, behind, if_neg (by simp)] at run
  unfold copyFromKernel at ends
  rw [run] at ends
  cases ends

end NjuOs.Memory
