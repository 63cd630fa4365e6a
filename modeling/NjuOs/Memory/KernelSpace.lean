/-
**The address space of the kernel.**

`init_page` fills the page directory and the page tables of `kvm.c` before paging is on. The kernel
threads run with this directory ever after, and everything that is said of their accesses rests on
`kernelPa`.

`kernel_space`: the directory translates the 128 MB from `0` on and from `KOFFSET` on to physical
memory, and no other address, so that `kernelPa` is what the hardware finds in the tables.
-/

import NjuOs.Memory.Tables

namespace NjuOs.Memory

open NjuOs.Lib

/-! ### The model -/

/-- `PD_SIZE` -/
def pdSize : Nat := 1024 * pageSize

/-- Memory and the two counters of `init_page`. -/
structure Building where
  ram : Store
  ptable : Nat
  pframeIdx : Nat

/-- The first `n` turns of the loop over `make_invalid_pde`. -/
def invalidLoop (pdir : Nat) : Nat → Store → Store
  | 0, ram => ram
  | n + 1, ram => (invalidLoop pdir n ram).writeWords (pdir + 4 * n) 1 fun _ => 0

/-- A turn of the inner loop: an entry of a table. -/
def pteTurn (b : Building) : Building where
  ram := b.ram.writeWords b.ptable 1 fun _ => makePte (b.pframeIdx * 4096)
  ptable := b.ptable + 4
  pframeIdx := b.pframeIdx + 1

/-- The first `n` turns of the inner loop. -/
def pteLoop : Nat → Building → Building
  | 0, b => b
  | n + 1, b => pteTurn (pteLoop n b)

/-- A turn of the outer loop: two entries of the directory for the same table, and its entries. -/
def pdeTurn (pdir pdirIdx : Nat) (b : Building) : Building :=
  let ram := b.ram.writeWords (pdir + 4 * pdirIdx) 1 fun _ => makePde b.ptable
  let ram := ram.writeWords (pdir + 4 * (pdirIdx + kOffset / pdSize)) 1 fun _ => makePde b.ptable
  pteLoop 1024 { b with ram }

/-- The first `n` turns of the outer loop. -/
def pdeLoop (pdir : Nat) : Nat → Building → Building
  | 0, b => b
  | n + 1, b => pdeTurn pdir n (pdeLoop pdir n b)

/-- `init_page`, with the physical addresses of `kpdir` and `kptable`. -/
def initPage (pdir ptable : Nat) (ram : Store) : Store :=
  (pdeLoop pdir (physMem / pdSize) ⟨invalidLoop pdir 1024 ram, ptable, 0⟩).ram

/-! ### The tables -/

section Tables

variable {ram : Store} {d t n va pa : Nat} {b : Building}

theorem invalidLoop_eq (pdir : Nat) :
    invalidLoop pdir n ram = ram.writeWords pdir n fun _ => 0 := by
  induction n with
  | zero => exact Store.writeWords_zero.symm
  | succ n ih => rw [invalidLoop, ih, Store.writeWords_succ (n := n)]

/-- The inner loop stores one entry behind the other. -/
theorem pteLoop_eq : pteLoop n b =
    ⟨b.ram.writeWords b.ptable n fun e => makePte ((b.pframeIdx + e) * 4096), b.ptable + 4 * n,
      b.pframeIdx + n⟩ := by
  induction n with
  | zero =>
      rw [Store.writeWords_zero]
      rfl
  | succ n ih =>
      rw [pteLoop, ih, pteTurn, Store.writeWords_succ (n := n)]
      rfl

/-- The entries of the directory after `k` turns: two for each table. -/
def kernelDir (t k i : Nat) : Option Nat :=
  if i < k then some (t + i) else if 768 ≤ i ∧ i < 768 + k then some (t + (i - 768)) else none

/-- After `k` turns of the outer loop. -/
structure Built (d t k : Nat) (b : Building) : Prop where
  ptable : b.ptable = (t + k) * pageSize
  pframeIdx : b.pframeIdx = 1024 * k
  directory : ∀ i, i < 1024 → tables b.ram d i = kernelDir t k i
  table : ∀ j, j < k → ∀ e, e < 1024 → tables b.ram (t + j) e = some (1024 * j + e)

theorem built_invalid : Built d t 0 ⟨invalidLoop (d * pageSize) 1024 ram, t * pageSize, 0⟩ where
  ptable := rfl
  pframeIdx := rfl
  directory i small := by
    show tables (invalidLoop (d * pageSize) 1024 ram) d i = _
    rw [invalidLoop_eq, tables_words, Function.update_self, if_pos small, kernelDir,
      if_neg (Nat.not_lt_zero i), if_neg (by omega), named_zero]
  table j none := absurd none (Nat.not_lt_zero j)

/-- **One turn of the outer loop** adds a table, and its two entries in the directory. -/
theorem Built.turn {k : Nat} (built : Built d t k b) (few : k < 32) (inside : t + 32 ≤ 32768)
    (apart : d < t ∨ t + 32 ≤ d) :
    Built d t (k + 1) (pdeTurn (d * pageSize) k b) := by
  obtain ⟨ptable, pframeIdx, directory, table⟩ := built
  have second : kOffset / pdSize = 768 := rfl
  have other : d ≠ t + k := by omega
  have entry : named (makePde ((t + k) * pageSize)) = some (t + k) := named_makePde (by omega)
  unfold pdeTurn
  rw [pteLoop_eq]
  simp only [ptable, pframeIdx, second]
  refine ⟨?_, ?_, fun i small => ?_, fun j below e small => ?_⟩
  · show (t + k) * 4096 + 4 * 1024 = (t + (k + 1)) * 4096
    omega
  · show 1024 * k + 1024 = 1024 * (k + 1)
    omega
  · show tables (Store.writeWords _ ((t + k) * pageSize) 1024 _) d i = _
    rw [tables_words, Function.update_of_ne other, tables_entry (by omega) entry,
      Function.update_self, tables_entry (by omega) entry, Function.update_self]
    unfold kernelDir
    by_cases high : i = k + 768
    · rw [high, Function.update_self, if_neg (by omega), if_pos (by omega)]
      exact congrArg some (by omega)
    rw [Function.update_of_ne high]
    by_cases low : i = k
    · rw [low, Function.update_self, if_pos (Nat.lt_succ_self k)]
    rw [Function.update_of_ne low, directory i small]
    unfold kernelDir
    split
    · rw [if_pos (by omega)]
    · rw [if_neg (show ¬ i < k + 1 by omega)]
      split
      · rw [if_pos (by omega)]
      · rw [if_neg (by omega)]
  · show tables (Store.writeWords _ ((t + k) * pageSize) 1024 _) (t + j) e = _
    rw [tables_words]
    by_cases last : j = k
    · rw [last, Function.update_self, if_pos small]
      exact named_makePte (by omega)
    · rw [Function.update_of_ne (by omega), tables_entry (by omega) entry,
        Function.update_of_ne (by omega), tables_entry (by omega) entry,
        Function.update_of_ne (by omega)]
      exact table j (by omega) e small

/-- **All turns.** -/
theorem built_pages (ram : Store) {k : Nat} (few : k ≤ 32) (inside : t + 32 ≤ 32768)
    (apart : d < t ∨ t + 32 ≤ d) :
    Built d t
      k (pdeLoop (d * pageSize) k ⟨invalidLoop (d * pageSize) 1024 ram, t * pageSize, 0⟩) := by
  induction k with
  | zero => exact built_invalid
  | succ k ih => exact (ih (by omega)).turn (by omega) inside apart

/-- What the directory does to an address. -/
theorem translate_initPage (ram : Store) (va : Nat) (inside : t + 32 ≤ 32768)
    (apart : d < t ∨ t + 32 ≤ d) (address : va < 4294967296) :
    translate (tables (initPage (d * pageSize) (t * pageSize) ram)) d va =
      if va < physMem then some va
      else if kOffset ≤ va ∧ va < kOffset + physMem then some (va - kOffset)
      else none := by
  have turns : physMem / pdSize = 32 := rfl
  have size : physMem = 134217728 := rfl
  have offset : kOffset = 3221225472 := rfl
  have page : pageSize = 4096 := rfl
  obtain ⟨_, _, directory, table⟩ := built_pages ram (show 32 ≤ 32 from le_rfl) inside apart
  unfold initPage
  rw [turns, translate, directory _ (by omega), kernelDir]
  by_cases low : va / 4194304 < 32
  · rw [if_pos low, if_pos (by omega), Option.bind_some, table _ low _ (Nat.mod_lt _ (by decide)),
      Option.map_some]
    exact congrArg some (by rw [page]; omega)
  rw [if_neg low, if_neg (show ¬ va < physMem by omega)]
  by_cases high : 768 ≤ va / 4194304 ∧ va / 4194304 < 768 + 32
  · rw [if_pos high, if_pos (by omega), Option.bind_some,
      table _ (by omega) _ (Nat.mod_lt _ (by decide)), Option.map_some]
    exact congrArg some (by rw [page]; omega)
  · rw [if_neg high, if_neg (by omega)]
    rfl

end Tables

/-! ### The accesses of the kernel -/

/-- **The kernel's address space**: an access of a kernel thread goes to physical memory exactly if
the tables of `init_page` translate each of its bytes, and to the bytes that they say. -/
theorem kernel_space {ram : Store} {d t va pa n : Nat} {s : MemoryState} (inside : t + 32 ≤ 32768)
    (apart : d < t ∨ t + 32 ≤ d) (nonempty : 0 < n) (address : va + n ≤ 4294967296) :
    kernelPa va n s = .ok pa s ↔ ∀ k, k < n →
      translate (tables (initPage (d * pageSize) (t * pageSize) ram)) d (va + k) =
        some (pa + k) := by
  have byte (k : Nat) (below : k < n) := translate_initPage ram (va + k) inside apart (by omega)
  have size : physMem = 134217728 := rfl
  have offset : kOffset = 3221225472 := rfl
  unfold kernelPa
  constructor
  · intro goes k below
    rw [byte k below]
    split at goes
    · obtain rfl : va = pa := (EStateM.Result.ok.inj goes).1
      rw [if_pos (by omega)]
    split at goes
    · obtain rfl : va - kOffset = pa := (EStateM.Result.ok.inj goes).1
      rw [if_neg (by omega), if_pos (by omega)]
      exact congrArg some (by omega)
    · cases goes
  · intro mapped
    have all (k : Nat) (below : k < n) := (byte k below).symm.trans (mapped k below)
    have first := all 0 nonempty
    rw [Nat.add_zero, Nat.add_zero] at first
    by_cases low : va < physMem
    · rw [if_pos low] at first
      obtain rfl := Option.some.inj first
      -- otherwise the range comes to the first address behind memory
      have fits : va + n ≤ physMem := by
        by_contra outside
        have edge := all (physMem - va) (by omega)
        rw [if_neg (by omega), if_neg (by omega)] at edge
        cases edge
      rw [if_pos fits]
      rfl
    · rw [if_neg low] at first
      split at first
      · rename_i high
        obtain rfl := Option.some.inj first
        have fits : va + n ≤ kOffset + physMem := by
          by_contra outside
          have edge := all (kOffset + physMem - va) (by omega)
          rw [if_neg (by omega), if_neg (by omega)] at edge
          cases edge
        rw [if_neg (by omega), if_pos ⟨high.1, fits⟩]
        rfl
      · cases first

/-- The third of four bytes across the end of a page, at their high address. -/
theorem kernel_space_high :
    translate (tables (initPage (512 * pageSize) (513 * pageSize) fun _ => 0)) 512
      (0xC0100FFE + 2) = some (0x100FFE + 2) :=
  have accessed : kernelPa 0xC0100FFE 4 ⟨fun _ => 0, fun _ => false, 0, fun _ => ⟨0, 0, 0, 0⟩⟩ =
    .ok 0x100FFE _ := rfl
  (kernel_space (by decide) (by decide) (by decide) (by decide)).mp accessed 2 (by decide)

end NjuOs.Memory
