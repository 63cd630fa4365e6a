/-
**Strings of a process.**

A string is known by its first NUL (`FirstNul`). `strlen_user_string` should look for it in the
bytes from the string's address on. The address that it goes on with behind the first page is made
of the offset in the page alone, so what it looks at is the rest of the first page and then the
memory from address `va % 4096 + 4096` on, page by page: that is the kernel's (`scannedByte`). Its
result is the first NUL there (`strlenUserString_eq_ok`).

A string inside one page is scanned as it is. For any other one the scan does not see the rest of
the string at all: it finds the right length exactly if the memory it goes on in happens to have its
first NUL as far behind as the string (`scanned_iff`); as long as that memory is below 16 MB these
are the kernel's own bytes (`strayByte_kernel`). The copy must translate the address behind the NUL
too (`fetches_iff`).
-/

import NjuOs.Memory.Copies

namespace NjuOs.Memory

open NjuOs.Lib

/-! ### The first NUL -/

/-- The first `n` bytes are there, and none is zero. -/
def NoNul (f : Nat → Option UInt8) (n : Nat) : Prop := ∀ i, i < n → ∃ c, f i = some c ∧ c ≠ 0

/-- The first NUL is byte `z`. -/
def FirstNul (f : Nat → Option UInt8) (z : Nat) : Prop := NoNul f z ∧ f z = some 0

section FirstNul

variable {f g : Nat → Option UInt8} {n m z : Nat}

theorem noNul_add : NoNul f (n + m) ↔ NoNul f n ∧ NoNul (fun i => f (n + i)) m := by
  constructor
  · exact fun all => ⟨fun i small => all i (by omega), fun i small => all (n + i) (by omega)⟩
  · rintro ⟨first, second⟩ i small
    by_cases early : i < n
    · exact first i early
    · obtain ⟨k, rfl⟩ : ∃ k, i = n + k := ⟨i - n, by omega⟩
      exact second k (by omega)

theorem firstNul_add : FirstNul f (n + z) ↔ NoNul f n ∧ FirstNul (fun i => f (n + i)) z := by
  unfold FirstNul
  rw [noNul_add, and_assoc]

theorem noNul_one {c : UInt8} (here : f 0 = some c) (some : c ≠ 0) : NoNul f 1 := by
  intro i small
  obtain rfl : i = 0 := by omega
  exact ⟨c, here, some⟩

theorem FirstNul.start (nul : FirstNul f z) : ∃ c, f 0 = some c := by
  by_cases zero : z = 0
  · exact ⟨0, zero ▸ nul.2⟩
  · obtain ⟨c, here, _⟩ := nul.1 0 (by omega)
    exact ⟨c, here⟩

theorem FirstNul.unique (first : FirstNul f n) (second : FirstNul f m) : n = m := by
  by_contra other
  rcases Nat.lt_or_gt_of_ne other with less | more
  · obtain ⟨c, here, some⟩ := second.1 n less
    rw [first.2] at here
    cases here
    exact some rfl
  · obtain ⟨c, here, some⟩ := first.1 m more
    rw [second.2] at here
    cases here
    exact some rfl

theorem FirstNul.congr (same : ∀ i, i ≤ z → g i = f i) : FirstNul g z ↔ FirstNul f z := by
  unfold FirstNul NoNul
  rw [same z (Nat.le_refl z)]
  refine and_congr_left fun _ => forall₂_congr fun i small => ?_
  rw [same i (by omega)]

end FirstNul

/-! ### What the scan reads -/

/-- A byte of memory, where there is memory. -/
def physByte (ram : Store) (a : Nat) : Option UInt8 := if a < physMem then some (ram a) else none

/-- Byte `i` of the memory that the scan reads behind the first page. -/
def strayByte (tr : Nat → Option Nat) (ram : Store) (va i : Nat) : Option UInt8 :=
  (tr (advance (va % 4096) (4096 * (i / 4096 + 1)))).bind fun pa => physByte ram (pa + i % 4096)

/-- Byte `i` of what is left to read: `n` bytes from `pa` on, then the pages behind the first, from
page `c` on. -/
def readFrom (tr : Nat → Option Nat) (ram : Store) (va c pa n i : Nat) : Option UInt8 :=
  if i < n then physByte ram (pa + i) else strayByte tr ram va (4096 * c + (i - n))

/-- Byte `i` of all that it reads. -/
def scannedByte (tr : Nat → Option Nat) (ram : Store) (va i : Nat) : Option UInt8 :=
  (tr va).bind fun pa => readFrom tr ram va 0 pa (4096 - va % 4096) i

section Scan

variable {d va pa n l z r fuel c : Nat} {held : Set Nat} {s s' : MemoryState}

theorem load8_eq_ok {b : UInt8} (low : pa < kOffset) :
    load8 pa s = .ok b s' ↔ s' = s ∧ physByte s.ram pa = some b := by
  unfold physByte
  by_cases inside : pa < physMem
  · rw [load8_direct inside, if_pos inside]
    constructor
    · rintro ⟨⟩
      exact ⟨rfl, rfl⟩
    · rintro ⟨rfl, same⟩
      cases same
      rfl
  · have fault : kernelPa pa 1 s = .error .pageFault s := by
      unfold kernelPa
      rw [if_neg (by omega), if_neg (by omega)]
      rfl
    unfold load8
    rw [run_bind_error fault, if_neg inside]
    constructor
    · intro ends
      cases ends
    · rintro ⟨_, none⟩
      cases none

/-- The inner loop. -/
theorem scanChunk_eq_ok {found : Bool} (low : pa + n ≤ kOffset) :
    scanChunk n pa l s = .ok (found, r) s' ↔ s' = s ∧
    ((found = false ∧ NoNul (fun i => physByte s.ram (pa + i)) n ∧ r = l + n) ∨
      (found = true ∧ ∃ z, z < n ∧ FirstNul (fun i => physByte s.ram (pa + i)) z ∧
        r = l + z + 1)) := by
  induction n generalizing pa l with
  | zero =>
      unfold scanChunk
      rw [pure_eq_ok]
      constructor
      · rintro ⟨same, rfl⟩
        cases same
        exact ⟨rfl, .inl ⟨rfl, fun i small => absurd small (Nat.not_lt_zero i), rfl⟩⟩
      · rintro ⟨rfl, ⟨rfl, _, rfl⟩ | ⟨_, z, small, _⟩⟩
        · exact ⟨rfl, rfl⟩
        · exact absurd small (Nat.not_lt_zero z)
  | succ n ih =>
      have shift : ∀ t : MemoryState, (fun i => physByte t.ram (pa + (1 + i))) =
          fun i => physByte t.ram (pa + 1 + i) := by
        intro t
        funext i
        rw [Nat.add_assoc]
      unfold scanChunk
      rw [bind_eq_ok]
      constructor
      · rintro ⟨c, s₁, load, rest⟩
        obtain ⟨rfl, here⟩ := (load8_eq_ok (by omega)).mp load
        by_cases nul : c = 0
        · subst nul
          rw [if_pos rfl, pure_eq_ok] at rest
          obtain ⟨same, rfl⟩ := rest
          cases same
          exact ⟨rfl,
            .inr ⟨rfl, 0, by omega, ⟨fun i small => absurd small (Nat.not_lt_zero i), here⟩, rfl⟩⟩
        · have first : NoNul (fun i => physByte s₁.ram (pa + i)) 1 := noNul_one here nul
          rw [if_neg nul, ih (by omega), ← shift s₁] at rest
          obtain ⟨rfl, ⟨rfl, clear, rfl⟩ | ⟨rfl, z, small, nul, rfl⟩⟩ := rest
          · refine ⟨rfl, .inl ⟨rfl, ?_, by omega⟩⟩
            rw [Nat.add_comm n 1]
            exact noNul_add.mpr ⟨first, clear⟩
          · refine ⟨rfl, .inr ⟨rfl, 1 + z, by omega, ?_, by omega⟩⟩
            exact firstNul_add.mpr ⟨first, nul⟩
      · rintro ⟨rfl, ⟨rfl, clear, rfl⟩ | ⟨rfl, z, small, nul, rfl⟩⟩
        · rw [Nat.add_comm n 1, noNul_add] at clear
          obtain ⟨c, here, some⟩ := clear.1 0 (by omega)
          refine ⟨c, s', (load8_eq_ok (by omega)).mpr ⟨rfl, here⟩, ?_⟩
          rw [if_neg some, ih (by omega), ← shift s']
          exact ⟨rfl, .inl ⟨rfl, clear.2, by omega⟩⟩
        · by_cases zero : z = 0
          · subst zero
            refine ⟨0, s', (load8_eq_ok (by omega)).mpr ⟨rfl, nul.2⟩, ?_⟩
            rw [if_pos rfl]
            rfl
          · obtain ⟨c, here, some⟩ := nul.1 0 (by omega)
            refine ⟨c, s', (load8_eq_ok (by omega)).mpr ⟨rfl, here⟩, ?_⟩
            rw [show z = 1 + (z - 1) by omega, firstNul_add] at nul
            rw [if_neg some, ih (by omega), ← shift s']
            exact ⟨rfl, .inr ⟨rfl, z - 1, by omega, nul.2, by omega⟩⟩

theorem readFrom_chunk {tr : Nat → Option Nat} {ram : Store} (small : z < n) :
    FirstNul (readFrom tr ram va c pa n) z ↔ FirstNul (fun i => physByte ram (pa + i)) z :=
  FirstNul.congr fun i below => if_pos (by omega)

theorem noNul_chunk {tr : Nat → Option Nat} {ram : Store} :
    NoNul (readFrom tr ram va c pa n) n ↔ NoNul (fun i => physByte ram (pa + i)) n := by
  refine forall₂_congr fun i small => ?_
  rw [readFrom, if_pos small]

/-- The next page. -/
theorem readFrom_next {tr : Nat → Option Nat} {ram : Store} {pa' : Nat}
    (next : tr (advance (va % 4096) (4096 * (c + 1))) = some pa') :
    (fun i => readFrom tr ram va c pa n (n + i)) = readFrom tr ram va (c + 1) pa' 4096 := by
  funext i
  unfold readFrom
  rw [if_neg (by omega), Nat.add_sub_cancel_left]
  split
  · next early =>
    unfold strayByte
    rw [show (4096 * c + i) / 4096 = c by omega, show (4096 * c + i) % 4096 = i by omega, next]
    rfl
  · rw [show 4096 * (c + 1) + (i - 4096) = 4096 * c + i by omega]

theorem advance_page :
    advance (advance (va % 4096) (4096 * (c + 1))) pageSize =
      advance (va % 4096) (4096 * (c + 1 + 1)) := by
  unfold advance pageSize
  omega

/-- A result of the outer loop is the first NUL of what it reads. -/
theorem scanPages_of_ok (space : UserSpace d held s) (low : pa + n ≤ kOffset)
    (run : scanPages (d * pageSize) fuel (advance (va % 4096) (4096 * (c + 1))) pa n l s =
      .ok r s') : s' = s ∧
    ∃ z, FirstNul (readFrom (translate (tables s.ram) d) s.ram va c pa n) z ∧ r = l + z + 1 := by
  induction fuel generalizing c pa n l with
  | zero => cases run
  | succ fuel ih =>
      unfold scanPages at run
      obtain ⟨⟨found, r₁⟩, s₁, chunk, rest⟩ := bind_eq_ok.mp run
      obtain ⟨rfl, ⟨rfl, clear, rfl⟩ | ⟨rfl, z, small, nul, rfl⟩⟩ := (scanChunk_eq_ok low).mp chunk
      · have next := space.physicalAddr
          (show advance (va % 4096) (4096 * (c + 1)) < 4294967296 from Nat.mod_lt _ (by omega))
        obtain ⟨pa', s₂, step, rest⟩ := bind_eq_ok.mp rest
        cases found : translate (tables s₁.ram) d (advance (va % 4096) (4096 * (c + 1))) with
        | none =>
            rw [found, step] at next
            cases next
        | some pa'' =>
            rw [found, step] at next
            cases next
            have bound := space.translate_lt found
            rw [advance_page] at rest
            obtain ⟨rfl, z, nul, rfl⟩ := ih (by unfold physMem kOffset pageSize at *; omega) rest
            refine ⟨rfl, n + z, ?_, by omega⟩
            rw [firstNul_add, noNul_chunk, readFrom_next found]
            exact ⟨clear, nul⟩
      · obtain ⟨rfl, rfl⟩ := pure_eq_ok.mp rest
        exact ⟨rfl, z, (readFrom_chunk small).mpr nul, rfl⟩

/-- The outer loop finds the first NUL of what it reads. -/
theorem scanPages_ok (fuel : Nat) (space : UserSpace d held s) (low : pa + n ≤ kOffset)
    (enough : z < n + 4096 * fuel)
    (nul : FirstNul (readFrom (translate (tables s.ram) d) s.ram va c pa n) z) :
    scanPages (d * pageSize) (fuel + 1) (advance (va % 4096) (4096 * (c + 1))) pa n l s =
      .ok (l + z + 1) s := by
  induction fuel generalizing c pa n l z with
  | zero =>
      have chunk := (scanChunk_eq_ok (l := l) low).mpr
        ⟨rfl, .inr ⟨rfl, z, by omega, (readFrom_chunk (by omega)).mp nul, rfl⟩⟩
      unfold scanPages
      rw [run_bind chunk]
      rfl
  | succ fuel ih =>
      by_cases early : z < n
      · have chunk := (scanChunk_eq_ok (l := l) low).mpr
          ⟨rfl, .inr ⟨rfl, z, early, (readFrom_chunk early).mp nul, rfl⟩⟩
        unfold scanPages
        rw [run_bind chunk]
        rfl
      · obtain ⟨k, rfl⟩ : ∃ k, z = n + k := ⟨z - n, by omega⟩
        obtain ⟨clear, rest⟩ := firstNul_add.mp nul
        have chunk := (scanChunk_eq_ok (l := l) low).mpr
          ⟨rfl, .inl ⟨rfl, noNul_chunk.mp clear, rfl⟩⟩
        have next := space.physicalAddr
          (show advance (va % 4096) (4096 * (c + 1)) < 4294967296 from Nat.mod_lt _ (by omega))
        cases found : translate (tables s.ram) d (advance (va % 4096) (4096 * (c + 1))) with
        | none =>
            obtain ⟨b, here⟩ := rest.start
            unfold readFrom strayByte at here
            rw [if_neg (by omega), show (4096 * c + (n + 0 - n)) / 4096 = c by omega, found] at here
            cases here
        | some pa' =>
            rw [found] at next
            have bound := space.translate_lt found
            rw [readFrom_next found] at rest
            have run := ih (l := l + n) (by unfold physMem kOffset at *; omega) (by omega) rest
            unfold scanPages
            refine (run_bind chunk).trans ?_
            refine (run_bind next).trans ?_
            rw [advance_page, ← Nat.add_assoc l n k]
            exact run

theorem translate_offset {T : Nat → Nat → Option Nat} (found : translate T d va = some pa) :
    pa % 4096 = va % 4096 := by
  obtain ⟨t, f, _, _, rfl⟩ := translate_eq_some.mp found
  unfold pageSize
  omega

theorem UserSpace.first_page (space : UserSpace d held s)
    (found : translate (tables s.ram) d va = some pa) :
    pa + (4096 - va % 4096) ≤ kOffset := by
  have bound := space.translate_lt found
  have offset := translate_offset found
  unfold physMem at bound
  unfold kOffset
  omega

/-- A result of `strlen_user_string` is the first NUL of what it reads, and one more. -/
theorem strlenUserString_of_ok {pool : PcbPool} {pid : Pid}
    (space : UserSpace (pool.pdir pid) held s) (address : va < 4294967296)
    (run : strlenUserString pool pid va s = .ok r s') :
    s' = s ∧
      ∃ z, FirstNul (scannedByte (translate (tables s.ram) (pool.pdir pid)) s.ram va) z ∧
      r = z + 1 := by
  have first := space.physicalAddr address
  unfold strlenUserString at run
  obtain ⟨pa, s₁, step, rest⟩ := bind_eq_ok.mp run
  cases found : translate (tables s.ram) (pool.pdir pid) va with
  | none =>
      rw [found, step] at first
      cases first
  | some pa' =>
      rw [found, step] at first
      cases first
      have low := space.first_page found
      rw [translate_offset found] at rest
      obtain ⟨rfl, z, nul, rfl⟩ := scanPages_of_ok (c := 0) space low rest
      refine ⟨rfl, z, ?_, by omega⟩
      unfold scannedByte
      rw [found]
      exact nul

/-- **What `strlen_user_string` finds.** -/
theorem strlenUserString_eq_ok {pool : PcbPool} {pid : Pid} {L : Nat}
    (space : UserSpace (pool.pdir pid) held s) (address : va < 4294967296)
    (short : L < 4294967296) :
    strlenUserString pool pid va s = .ok (L + 1) s ↔
      FirstNul (scannedByte (translate (tables s.ram) (pool.pdir pid)) s.ram va) L := by
  constructor
  · intro ends
    obtain ⟨_, z, nul, same⟩ := strlenUserString_of_ok space address ends
    obtain rfl : L = z := by omega
    exact nul
  · intro nul
    have first := space.physicalAddr address
    unfold scannedByte at nul
    cases found : translate (tables s.ram) (pool.pdir pid) va with
    | none =>
        rw [found] at nul
        obtain ⟨c, here⟩ := nul.start
        cases here
    | some pa =>
        rw [found] at first nul
        have low := space.first_page found
        have run := scanPages_ok 1048576 (c := 0) (l := 0) space low (by omega) nul
        rw [show 0 + L + 1 = L + 1 by omega] at run
        unfold strlenUserString
        rw [run_bind first, translate_offset found]
        exact run

/-! ### Fetching a string -/

/-- A string of `L` bytes and its NUL at the process's address `va`. -/
structure UserString (tr : Nat → Option Nat) (ram : Store) (va L : Nat) : Prop where
  range : UserRange tr va (L + 1)
  nul : FirstNul (fun k => (tr (va + k)).map ram) L

/-- The length is right, and the string is copied to `b`. -/
structure Fetches (pool : PcbPool) (pid : Pid) (dest b va L : Nat) (s : MemoryState) : Prop where
  length : strlenUserString pool pid va s = .ok (L + 1) s
  copy : ∃ ram, strcpyToKernel pool pid dest va s = .ok ⟨⟩ (s.withRam ram) ∧
    CopiedOut (translate (tables s.ram) (pool.pdir pid)) va b (L + 1) s.ram ram

variable {pool : PcbPool} {pid : Pid} {dest b L : Nat}

/-- In its first page the string is scanned as it is. -/
theorem scanned_first {i : Nat} (space : UserSpace d held s)
    (string : UserString (translate (tables s.ram) d) s.ram va L) (first : va % 4096 + i < 4096) :
    scannedByte (translate (tables s.ram) d) s.ram va i =
      (translate (tables s.ram) d (va + i)).map s.ram := by
  obtain ⟨pa, found⟩ := Option.isSome_iff_exists.mp (string.range.mapped 0 (by omega))
  rw [Nat.add_zero] at found
  have low := string.range.low
  have high := string.range.high
  have range := space.page_range low (by omega) found
  unfold scannedByte readFrom physByte
  rw [found, Option.bind_some, if_pos (by omega), if_pos (by omega), translate_add found (by omega),
    Option.map_some]

theorem scanned_page (space : UserSpace d held s)
    (string : UserString (translate (tables s.ram) d) s.ram va L) (inside : va % 4096 + L < 4096) :
    FirstNul (scannedByte (translate (tables s.ram) d) s.ram va) L :=
  (FirstNul.congr fun _ _ => scanned_first space string (by omega)).mpr string.nul

/-- Behind its first page it is not read at all. -/
theorem scanned_behind (string : UserString (translate (tables s.ram) d) s.ram va L) :
    (fun i => scannedByte (translate (tables s.ram) d) s.ram va (4096 - va % 4096 + i))
      = strayByte (translate (tables s.ram) d) s.ram va := by
  obtain ⟨pa, found⟩ := Option.isSome_iff_exists.mp (string.range.mapped 0 (by omega))
  rw [Nat.add_zero] at found
  funext i
  unfold scannedByte readFrom
  rw [found, Option.bind_some, if_neg (by omega), Nat.mul_zero, Nat.zero_add,
    Nat.add_sub_cancel_left]

/-- How far the scan gets: there is no NUL in front of byte `k` where it looks for the string. -/
def Reaches (tr : Nat → Option Nat) (ram : Store) (va k : Nat) : Prop :=
  va % 4096 + k ≤ 4096 ∨ NoNul (strayByte tr ram va) (va % 4096 + k - 4096)

theorem scanned_reaches {k : Nat} (space : UserSpace d held s)
    (string : UserString (translate (tables s.ram) d) s.ram va L) (small : k ≤ L) :
    NoNul (scannedByte (translate (tables s.ram) d) s.ram va) k ↔
    Reaches (translate (tables s.ram) d) s.ram va k := by
  have clear : ∀ n, n ≤ L → va % 4096 + n ≤ 4096 →
      NoNul (scannedByte (translate (tables s.ram) d) s.ram va) n := by
    intro n short first i early
    rw [scanned_first space string (by omega)]
    exact string.nul.1 i (by omega)
  by_cases first : va % 4096 + k ≤ 4096
  · exact iff_of_true (clear k small first) (.inl first)
  · have parts := noNul_add (f := scannedByte (translate (tables s.ram) d) s.ram va)
      (n := 4096 - va % 4096)
      (m := va % 4096 + k - 4096)
    rw [scanned_behind string, show 4096 - va % 4096 + (va % 4096 + k - 4096) = k by omega] at parts
    rw [parts]
    exact ⟨fun nul => .inr nul.2,
      fun nul => ⟨clear _ (by omega) (by omega), nul.resolve_left first⟩⟩

/-- **A string is scanned as it is exactly if it ends in its first page, or the memory that the scan
goes on in ends where the string does.** -/
theorem scanned_iff (space : UserSpace d held s)
    (string : UserString (translate (tables s.ram) d) s.ram va L) :
    FirstNul (scannedByte (translate (tables s.ram) d) s.ram va) L ↔
      va % 4096 + L < 4096 ∨
      FirstNul (strayByte (translate (tables s.ram) d) s.ram va) (va % 4096 + L - 4096) := by
  by_cases inside : va % 4096 + L < 4096
  · exact iff_of_true (scanned_page space string inside) (.inl inside)
  · have parts := firstNul_add (f := scannedByte (translate (tables s.ram) d) s.ram va)
      (n := 4096 - va % 4096)
      (z := va % 4096 + L - 4096)
    rw [scanned_behind string, show 4096 - va % 4096 + (va % 4096 + L - 4096) = L by omega] at parts
    have clear := (scanned_reaches space string (show 4096 - va % 4096 ≤ L by omega)).mpr
      (.inl (by omega))
    rw [parts]
    exact ⟨fun nul => .inr nul.2, fun nul => ⟨clear, nul.resolve_left inside⟩⟩

/-- Below 16 MB the scan goes on in the memory of the kernel. -/
theorem strayByte_kernel {i : Nat} (space : UserSpace d held s)
    (low : va % 4096 + 4096 * (i / 4096 + 1) < kernelMem) :
    strayByte (translate (tables s.ram) d) s.ram va i = some (s.ram (va % 4096 + 4096 + i)) := by
  have ahead : advance (va % 4096) (4096 * (i / 4096 + 1)) = va % 4096 + 4096 * (i / 4096 + 1) := by
    unfold kernelMem at low
    unfold advance
    omega
  have inside : va % 4096 + 4096 * (i / 4096 + 1) + i % 4096 < physMem := by
    unfold kernelMem at low
    unfold physMem
    omega
  unfold strayByte physByte
  rw [ahead, space.translate_kernel low, Option.bind_some, if_pos inside,
    show va % 4096 + 4096 * (i / 4096 + 1) + i % 4096 = va % 4096 + 4096 + i by omega]

/-- A string is fetched if the scan finds its NUL and the address behind it is mapped. -/
theorem fetch_run (process : UserProcess pool pid held s)
    (string : UserString (translate (tables s.ram) (pool.pdir pid)) s.ram va L)
    (buffer : Buffer (pool.pdir pid) dest b (L + 1))
    (nul : FirstNul (scannedByte (translate (tables s.ram) (pool.pdir pid)) s.ram va) L)
    (mapped : (translate (tables s.ram) (pool.pdir pid) (va + L + 1)).isSome) :
    Fetches pool pid dest b va L s := by
  have high := string.range.high
  unfold kOffset at high
  have length := (strlenUserString_eq_ok process.toUserSpace (by omega) (by omega)).mpr nul
  obtain ⟨ram, copied, run⟩ :=
    copyUser_run process (outward process.toUserSpace) (by omega) string.range buffer
  rw [← Nat.add_assoc, if_pos mapped] at run
  refine ⟨length, ram, ?_, copied⟩
  unfold strcpyToKernel copyToKernel
  rw [run_bind length, run]

/-- **A string is fetched exactly if the scan is not led astray and the address behind the string is
mapped**: either it ends in its first page, or the memory from address `va % 4096 + 4096` on has its
first NUL as far behind that address as the string has its own behind its first page. -/
theorem fetches_iff (process : UserProcess pool pid held s)
    (string : UserString (translate (tables s.ram) (pool.pdir pid)) s.ram va L)
    (buffer : Buffer (pool.pdir pid) dest b (L + 1)) :
    Fetches pool pid dest b va L s ↔
      (va % 4096 + L < 4096 ∨
        FirstNul (strayByte (translate (tables s.ram) (pool.pdir pid)) s.ram va)
          (va % 4096 + L - 4096)) ∧
      (translate (tables s.ram) (pool.pdir pid) (va + L + 1)).isSome := by
  have high := string.range.high
  unfold kOffset at high
  have length := strlenUserString_eq_ok process.toUserSpace (show va < 4294967296 by omega)
    (show L < 4294967296 by omega)
  obtain ⟨ram, _, run⟩ :=
    copyUser_run process (outward process.toUserSpace) (by omega) string.range buffer
  rw [← Nat.add_assoc] at run
  rw [← scanned_iff process.toUserSpace string]
  constructor
  · intro fetches
    refine ⟨length.mp fetches.length, ?_⟩
    obtain ⟨_, ends, _⟩ := fetches.copy
    by_contra unmapped
    unfold strcpyToKernel copyToKernel at ends
    rw [run_bind fetches.length, run, if_neg unmapped] at ends
    cases ends
  · exact fun ⟨nul, mapped⟩ => fetch_run process string buffer nul mapped

end Scan

/-! ### A string over the border of two pages -/

/-- A process with the string `A` at `0x1000fff`, its NUL on the next page, and the byte `stray` at
`0x1fff`. -/
theorem border_string (stray : UInt8) : ∃ s, UserProcess bootPool 0 ∅ s ∧
    UserString (translate (tables s.ram) 16) s.ram (kernelMem + 4095) 1 ∧ Buffer 16 0 0 2 ∧
    (translate (tables s.ram) 16 (kernelMem + 4095 + 1 + 1)).isSome ∧
    strayByte (translate (tables s.ram) 16) s.ram (kernelMem + 4095) 0 = some stray := by
  obtain ⟨s, process, range, _, zeros, _⟩ := boot_process
  obtain ⟨pa, last⟩ := Option.isSome_iff_exists.mp (range.mapped 4095 (by omega))
  obtain ⟨pa', next⟩ := Option.isSome_iff_exists.mp (range.mapped 4096 (by omega))
  have apart := process.page_apart (Nat.le_add_right _ _) (by decide) last
  have apart' := process.page_apart (Nat.le_add_right _ _) (by decide) next
  have low := (process.page_range (Nat.le_add_right _ _) (by decide) last).1
  have low' := (process.page_range (Nat.le_add_right _ _) (by decide) next).1
  have other : pa' ≠ pa := by
    rintro rfl
    have same := process.translate_injective (Nat.le_add_right _ _) (by decide)
      (Nat.le_add_right _ _) (by decide) last next
    exact absurd same (by decide)
  unfold kernelMem at low low'
  obtain ⟨ram, is_ram⟩ : ∃ r, r = Function.update (Function.update s.ram pa 65) 8191 stray :=
    ⟨_, rfl⟩
  have letter : ram pa = 65 := by
    rw [is_ram, Function.update_of_ne (by omega), Function.update_self]
  have nul : ram pa' = 0 := by
    rw [is_ram, Function.update_of_ne (by omega), Function.update_of_ne other, zeros pa' apart']
  obtain ⟨translated, space⟩ := process.toUserSpace.spared (r := ram) fun x inside => by
    have not_last : x ≠ pa := fun here => apart (here ▸ inside)
    have not_stray : x ≠ 8191 := by
      rintro rfl
      rcases inside with directory | ⟨i, table⟩
      · exact absurd directory (by decide)
      · exact absurd (process.range table).1 (by decide)
    rw [is_ram, Function.update_of_ne not_stray, Function.update_of_ne not_last]
  change translate (tables ram) 16 = translate (tables s.ram) 16 at translated
  have user : ram (17 * pageSize) = 0 := by
    rw [is_ram, Function.update_of_ne (by decide),
      Function.update_of_ne (by unfold pageSize; omega)]
    exact process.user
  have part : UserRange (translate (tables s.ram) 16) (kernelMem + 4095) 2 :=
    UserRange.take (m := 4095) (UserRange.drop (n := 4095) range)
  refine ⟨s.withRam ram, ⟨space, user⟩, ⟨?_, ?_, ?_⟩,
    ⟨.inl rfl, by decide, fun k inside => ?_⟩, ?_, ?_⟩
  · rw [withRam_ram, translated]
    exact part
  · intro i small
    obtain rfl : i = 0 := by omega
    refine ⟨65, ?_, by decide⟩
    rw [withRam_ram, translated]
    show (translate (tables s.ram) 16 (kernelMem + 4095)).map ram = _
    rw [last, Option.map_some, letter]
  · rw [withRam_ram, translated]
    show (translate (tables s.ram) 16 (kernelMem + 4096)).map ram = _
    rw [next, Option.map_some, nul]
  · show frameOf (0 + k) ≠ 16
    unfold frameOf
    omega
  · rw [withRam_ram, translated]
    exact range.mapped 4097 (by omega)
  · refine (strayByte_kernel space (by decide)).trans ?_
    show some (ram 8191) = some stray
    rw [is_ram, Function.update_self]

/-- With a zero byte there the string is fetched. -/
theorem fetches_border :
    ∃ s, UserString (translate (tables s.ram) (bootPool.pdir 0)) s.ram (kernelMem + 4095) 1 ∧
    Fetches bootPool 0 0 0 (kernelMem + 4095) 1 s := by
  obtain ⟨s, process, string, buffer, behind, stray⟩ := border_string 0
  refine ⟨s, string, (fetches_iff process string buffer).mpr ⟨.inr ⟨?_, stray⟩, behind⟩⟩
  exact fun i small => absurd small (Nat.not_lt_zero i)

/-- With any other one the scan goes on behind it, though all of the string is mapped, and what
follows it. -/
theorem fetch_over_border : ∃ s, UserProcess bootPool 0 ∅ s ∧
    UserString (translate (tables s.ram) (bootPool.pdir 0)) s.ram (kernelMem + 4095) 1 ∧
    Buffer (bootPool.pdir 0) 0 0 2 ∧
    (translate (tables s.ram) (bootPool.pdir 0) (kernelMem + 4095 + 1 + 1)).isSome ∧
    ¬ Fetches bootPool 0 0 0 (kernelMem + 4095) 1 s := by
  obtain ⟨s, process, string, buffer, behind, stray⟩ := border_string 1
  refine ⟨s, process, string, buffer, behind, fun fetches => ?_⟩
  have scanned := (strlenUserString_eq_ok process.toUserSpace (by decide) (by decide)).mp
    fetches.length
  obtain far | nul := (scanned_iff process.toUserSpace string).mp scanned
  · exact absurd far (by decide)
  · have zero : some (1 : UInt8) = some 0 := stray.symm.trans nul.2
    cases zero

end NjuOs.Memory
