/-
**The argument block of EXEC.**

`exec` of `pcb_manager.c` fetches the file name and the argument string into its own stack, has the
memory manager exchange the address space, and copies the string to the top of the new stack: under
the string a word with its address, and `esp` one word further down. The address is computed as
`(0xbfffffff - len) ^ 3`, which is aligned, and leaves room for the NUL, exactly for the lengths
that are multiples of four (`newArgs_aligned`, `arguments_iff`).

Whose string that is, is the question of the fetch: the caller's string is in the buffer exactly if
the scan of `strlen_user_string` gets to its end, or what the scan misses was in the buffer already
(`delivered_iff`). So the block holds the caller's string exactly if it was delivered and its length
is a multiple of four (`arguments_iff`).

The request to the memory manager is a parameter, `execMemory`: what it does to memory, and its
reply.
-/

import NjuOs.Memory.Strings

namespace NjuOs.Memory

open NjuOs.Lib

/-- What `exec` puts into the trap frame. -/
structure UserFrame where
  esp : UInt32
  ebp : UInt32
  ss : UInt32
  eflags : UInt32
  cs : UInt32
  eip : UInt32
  deriving DecidableEq, Repr

/-- `SELECTOR_USER(SEG_USER_CODE)`. -/
def userCode : UInt32 := 27

/-- `SELECTOR_USER(SEG_USER_DATA)`. -/
def userData : UInt32 := 35

/-- What `iret` takes from the kernel stack of a new program. -/
def userFrame (esp eip : UInt32) : UserFrame :=
  { esp, ebp := 0, ss := userData, eflags := 0x206, cs := userCode, eip }

/-- `strlen`. A string that does not end before memory does ends in a page fault. -/
def strlen (str : Nat) : Mm Nat := do
  let (_, n) ← scanChunk (physMem + 1) str 0
  pure (n - 1)

/-- `file_name` and `temp`, the buffers of `exec`; `temp` lies one word behind `buf`. -/
def fetchRequest (pool : PcbPool) (pid : Pid) (fileName args fileBuf buf : Nat) : Mm PUnit := do
  strcpyToKernel pool pid fileBuf fileName
  strcpyToKernel pool pid (buf + 4) args

/-- Where the argument string goes. -/
def newArgs (argsLen : Nat) : UInt32 := (0xbfffffff - UInt32.ofNat argsLen) ^^^ 3

/-- `exec`: no frame if the reply is to be `-1`. -/
def exec (pool : PcbPool) (pid : Pid) (execMemory : Mm Int) (fileName args fileBuf buf : Nat) :
    Mm (Option UserFrame) := do
  fetchRequest pool pid fileName args fileBuf buf
  let argsLen ← strlen (buf + 4)
  let ret ← execMemory
  if ret = -1 then pure none
  else do
    store32 buf (newArgs argsLen)
    let stackHead := newArgs argsLen - 4
    copyFromKernel pool pid stackHead.toNat buf (argsLen + 4 + 1)
    let s ← get
    pure (some (userFrame (stackHead - 4) (s.spaces pid).entry))

/-! ### The address -/

/-- The address is aligned for lengths that are multiples of four only. -/
theorem newArgs_aligned :
    ∀ L, L < 252 → ((newArgs L).toNat % 4 = 0 ↔ L % 4 = 0) := by decide +kernel

theorem newArgs_value :
    ∀ L, L < 252 → L % 4 = 0 → (newArgs L).toNat = 3221225468 - L := by decide +kernel

theorem stackHead_value :
    ∀ L, L < 252 → L % 4 = 0 → (newArgs L - 4).toNat = 3221225464 - L := by decide +kernel

theorem esp_value (L : Nat) : newArgs L - 4 - 4 = newArgs L - 8 := by
  rw [UInt32.sub_eq_add_neg, UInt32.sub_eq_add_neg, UInt32.sub_eq_add_neg, UInt32.add_assoc]
  rfl

theorem newArgs_injective {L M : Nat} (small : L < 4294967296) (small' : M < 4294967296)
    (same : newArgs L = newArgs M) :
    L = M := by
  unfold newArgs at same
  rw [UInt32.xor_left_inj, UInt32.sub_right_inj] at same
  have value := congrArg UInt32.toNat same
  rwa [UInt32.toNat_ofNat', UInt32.toNat_ofNat', Nat.mod_eq_of_lt small,
    Nat.mod_eq_of_lt small'] at value

/-! ### The block -/

section Block

variable {pool : PcbPool} {pid : Pid} {d va buf b L n l : Nat} {held : Set Nat} {s : MemoryState}

theorem load8_buffer (buffer : Buffer d buf b (L + 1)) : load8 buf s = .ok (s.ram b) s := by
  unfold load8
  rw [run_bind (kernelPa_buffer (Buffer.take (n := 1) (m := L) (by rwa [Nat.add_comm] at buffer))),
    run_bind run_get]
  rfl

/-- A string in a buffer of the kernel is scanned to its NUL. -/
theorem scanChunk_buffer (buffer : Buffer d buf b (L + 1))
    (nul : FirstNul (fun k => some (s.ram (b + k))) L) (enough : L < n) :
    scanChunk n buf l s = .ok (true, l + L + 1) s := by
  induction n generalizing buf b L l with
  | zero => omega
  | succ n ih =>
      have load := load8_buffer (s := s) buffer
      unfold scanChunk
      rw [run_bind load]
      by_cases zero : L = 0
      · subst zero
        have here : s.ram b = 0 := Option.some.inj nul.2
        rw [if_pos here]
        rfl
      · obtain ⟨m, rfl⟩ : ∃ m, L = 1 + m := ⟨L - 1, by omega⟩
        obtain ⟨first, rest⟩ := firstNul_add.mp nul
        obtain ⟨c, here, letter⟩ := first 0 (by omega)
        cases here
        have shift : (fun i => some (s.ram (b + (1 + i)))) = fun i => some (s.ram (b + 1 + i)) := by
          funext i
          rw [Nat.add_assoc]
        rw [shift] at rest
        have buffer' : Buffer d (buf + 1) (b + 1) (m + 1) :=
          Buffer.drop (by rwa [Nat.add_assoc] at buffer)
        rw [if_neg (show ¬ s.ram b = 0 from letter), ih buffer' rest (by omega),
          Nat.add_assoc l 1 m]

theorem strlen_buffer (buffer : Buffer d buf b (L + 1))
    (nul : FirstNul (fun k => some (s.ram (b + k))) L) :
    strlen buf s = .ok L s := by
  have kernel := buffer.kernel
  have scan := scanChunk_buffer (n := physMem + 1) (l := 0) buffer nul
    (by unfold kernelMem physMem at *; omega)
  unfold strlen
  rw [run_bind scan]
  show EStateM.Result.ok (0 + L + 1 - 1) s = _
  rw [show 0 + L + 1 - 1 = L by omega]

/-- A scan counts every byte that it looks at. -/
theorem scanChunk_bounds {found : Bool} {r : Nat} {s' : MemoryState}
    (scan : scanChunk n buf l s = .ok (found, r) s') :
    l + min 1 n ≤ r ∧ r ≤ l + n := by
  induction n generalizing buf l s with
  | zero =>
      obtain ⟨same, _⟩ := pure_eq_ok.mp scan
      cases same
      omega
  | succ n ih =>
      unfold scanChunk at scan
      obtain ⟨c, s₁, _, rest⟩ := bind_eq_ok.mp scan
      by_cases nul : c = 0
      · rw [if_pos nul] at rest
        obtain ⟨same, _⟩ := pure_eq_ok.mp rest
        cases same
        omega
      · rw [if_neg nul] at rest
        have bounds := ih rest
        omega

/-- A scan that ends inside a buffer has found the first NUL of it. -/
theorem firstNul_of_scan {found : Bool} {s' : MemoryState} (buffer : Buffer d buf b (L + 1))
    (enough : L + 1 < n) (scan : scanChunk n buf l s = .ok (found, l + L + 1) s') :
    FirstNul (fun k => some (s.ram (b + k))) L := by
  induction n generalizing buf b L l with
  | zero => omega
  | succ n ih =>
      have load := load8_buffer (s := s) buffer
      unfold scanChunk at scan
      rw [run_bind load] at scan
      by_cases nul : s.ram b = 0
      · rw [if_pos nul] at scan
        obtain ⟨same, _⟩ := pure_eq_ok.mp scan
        obtain rfl : L = 0 := by
          have counts := (Prod.mk.inj same).2
          omega
        exact ⟨fun i small => absurd small (Nat.not_lt_zero i), congrArg some nul⟩
      · rw [if_neg nul] at scan
        have bounds := scanChunk_bounds scan
        obtain ⟨m, rfl⟩ : ∃ m, L = 1 + m := ⟨L - 1, by omega⟩
        have buffer' : Buffer d (buf + 1) (b + 1) (m + 1) :=
          Buffer.drop (by rwa [Nat.add_assoc] at buffer)
        rw [← Nat.add_assoc l 1 m] at scan
        refine firstNul_add.mpr ⟨noNul_one rfl nul, ?_⟩
        have rest := ih buffer' (by omega) scan
        simpa only [Nat.add_assoc] using rest

/-! ### The run -/

/-- A buffer on the stack of the PCB manager: it is no part of the PCB of the process. -/
structure StackBuffer (d buf b len : Nat) : Prop extends Buffer d buf b len where
  flag : ∀ k, k < len → b + k ≠ (d + 1) * pageSize

/-- A successful run of `exec` for a caller whose argument string has `L` bytes, up to `exec`'s own
stores. `ram` is the memory with the file name fetched. Both fetches stay inside their buffers, and
the memory manager exchanges the address space. -/
structure ExecRun (pool : PcbPool) (pid : Pid) (execMemory : Mm Int)
    (fileName args fileBuf f buf b L : Nat) (owned held : Set Nat) (s : MemoryState) (ram : Store)
    (s₁ s₂ : MemoryState) : Prop where
  caller : UserProcess pool pid owned s
  string : UserString (translate (tables s.ram) (pool.pdir pid)) s.ram args L
  short : L ≤ 251
  fileBuffer : StackBuffer (pool.pdir pid) fileBuf f 256
  named : strcpyToKernel pool pid fileBuf fileName s = .ok ⟨⟩ (s.withRam ram)
  nameInside : ∀ x, (x < f ∨ f + 256 ≤ x) → ram x = s.ram x
  buffer : StackBuffer (pool.pdir pid) buf b 256
  fetched : strcpyToKernel pool pid (buf + 4) args (s.withRam ram) = .ok ⟨⟩ s₁
  inside : ∀ len t, strlenUserString pool pid args (s.withRam ram) = .ok len t → len ≤ 252
  loaded : execMemory s₁ = .ok 0 s₂
  process : UserProcess pool pid held s₂
  stack : StackMapped (tables s₂.ram) (pool.pdir pid)
  kept : ∀ k, k < 256 → s₂.ram (b + k) = s₁.ram (b + k)

/-- A process stays one, with the same translation, when only a buffer is written. -/
theorem UserProcess.stored {dest : Nat} {r : Store} (process : UserProcess pool pid held s)
    (buffer : StackBuffer (pool.pdir pid) dest b n)
    (outside : ∀ x, (x < b ∨ b + n ≤ x) → r x = s.ram x) :
    UserProcess pool pid held (s.withRam r) ∧
      translate (tables r) (pool.pdir pid) = translate (tables s.ram) (pool.pdir pid) := by
  have kernel := buffer.kernel
  obtain ⟨translated, space⟩ := process.toUserSpace.spared (r := r) fun x table => by
    refine outside x ?_
    by_contra here
    obtain ⟨k, rfl⟩ : ∃ k, x = b + k := ⟨x - b, by omega⟩
    rcases table with directory | ⟨i, table⟩
    · exact buffer.apart k (by omega) directory
    · have range := process.range table
      unfold frameOf at range
      unfold kernelMem at kernel
      omega
  have user : r ((pool.pdir pid + 1) * pageSize) = 0 := by
    rw [outside _ ?_, process.user]
    by_contra here
    exact buffer.flag ((pool.pdir pid + 1) * pageSize - b) (by omega) (by omega)
  exact ⟨⟨space, user⟩, translated⟩

/-- And its strings stay what they are. -/
theorem UserProcess.buffered {dest va' L' : Nat} {ram : Store}
    (process : UserProcess pool pid held s) (buffer : StackBuffer (pool.pdir pid) dest b n)
    (inside : ∀ x, (x < b ∨ b + n ≤ x) → ram x = s.ram x)
    (string : UserString (translate (tables s.ram) (pool.pdir pid)) s.ram va' L') :
    UserProcess pool pid held (s.withRam ram) ∧
      translate (tables ram) (pool.pdir pid) = translate (tables s.ram) (pool.pdir pid) ∧
      (∀ k, k ≤ L' → (translate (tables s.ram) (pool.pdir pid) (va' + k)).map ram
        = (translate (tables s.ram) (pool.pdir pid) (va' + k)).map s.ram) ∧
      UserString (translate (tables s.ram) (pool.pdir pid)) ram va' L' := by
  have kernel := buffer.kernel
  have bytes : ∀ k, k ≤ L' → (translate (tables s.ram) (pool.pdir pid) (va' + k)).map ram
      = (translate (tables s.ram) (pool.pdir pid) (va' + k)).map s.ram := by
    intro k small
    obtain ⟨pa, found⟩ := Option.isSome_iff_exists.mp (string.range.mapped k (by omega))
    have low := string.range.low
    have high := string.range.high
    have bounds := process.page_range (by omega) (by omega) found
    rw [found, Option.map_some, Option.map_some, inside pa (by omega)]
  obtain ⟨stays, translated⟩ := process.stored buffer inside
  exact ⟨stays, translated, bytes, string.range, (FirstNul.congr bytes).mpr string.nul⟩

/-! ### The fetch -/

/-- What a fetch of less than 252 bytes reads lies in the pages of the string. -/
theorem fetched_range {z : Nat} (space : UserSpace d held s)
    (string : UserString (translate (tables s.ram) d) s.ram va L)
    (nul : FirstNul (scannedByte (translate (tables s.ram) d) s.ram va) z) (short : L ≤ 251)
    (inside : z ≤ 251) :
    UserRange (translate (tables s.ram) d) va (z + 1) := by
  have low := string.range.low
  have high := string.range.high
  by_cases page : va % 4096 + L < 4096
  · obtain rfl := nul.unique (scanned_page space string page)
    exact string.range
  · refine ⟨low, by unfold kOffset at *; omega, fun k small => ?_⟩
    by_cases first : va % 4096 + k < 4096
    · exact string.range.mapped k (by omega)
    · -- on the second page, which the string has reached
      obtain ⟨pa, found⟩ := Option.isSome_iff_exists.mp
        (string.range.mapped (4096 - va % 4096) (by omega))
      have here := translate_add (k := va % 4096 + k - 4096) found (by omega)
      rw [show va + (4096 - va % 4096) + (va % 4096 + k - 4096) = va + k by omega] at here
      rw [here]
      rfl

/-- The caller's string is in the buffer behind the fetch: the scan gets as far as byte `k`, or it
was there already. -/
def Delivered (tr : Nat → Option Nat) (ram : Store) (args b L : Nat) : Prop :=
  ∀ k, k ≤ L → Reaches tr ram args k ∨ some (ram (b + 4 + k)) = (tr (args + k)).map ram

section Run

variable {execMemory : Mm Int} {fileName args fileBuf f : Nat} {owned : Set Nat} {ram : Store}
  {s₁ s₂ : MemoryState}

/-- **What the buffer holds.** -/
theorem delivered_iff
    (run : ExecRun pool pid execMemory fileName args fileBuf f buf b L owned held s ram s₁ s₂) :
    (∀ k, k ≤ L →
      some (s₁.ram (b + 4 + k)) = (translate (tables s.ram) (pool.pdir pid) (args + k)).map s.ram) ↔
      Delivered (translate (tables s.ram) (pool.pdir pid)) ram args b L := by
  obtain ⟨process, translated, bytes, string⟩ :=
    run.caller.buffered run.fileBuffer run.nameInside run.string
  have high := run.string.range.high
  unfold kOffset at high
  have fetched := run.fetched
  unfold strcpyToKernel at fetched
  obtain ⟨len, t, length, copy⟩ := bind_eq_ok.mp fetched
  have short := run.inside len t length
  obtain ⟨rfl, z, nul, rfl⟩ := strlenUserString_of_ok process.toUserSpace (by omega) length
  have reaches :=
    fun (k : Nat) (small : k ≤ L) => scanned_reaches process.toUserSpace (translated ▸ string) small
  have range := fetched_range process.toUserSpace (translated ▸ string) nul run.short (by omega)
  have temp : Buffer (pool.pdir pid) (buf + 4) (b + 4) (z + 1) := Buffer.take (m := 251 - z) (by
    rw [show z + 1 + (251 - z) = 252 by omega]
    exact Buffer.drop (n := 4) run.buffer.toBuffer)
  obtain ⟨ram', copied, ends⟩ :=
    copyUser_run process (outward process.toUserSpace) (by omega) range temp
  rw [withRam_ram, translated] at nul reaches range copied
  unfold copyToKernel at copy
  rw [ends] at copy
  obtain rfl : s₁ = (s.withRam ram).withRam ram' := by
    split at copy <;> cases copy
    rfl
  refine forall₂_congr fun k small => ?_
  rw [← bytes k small, withRam_ram]
  by_cases early : k ≤ z
  · -- copied
    obtain ⟨pa, found⟩ := Option.isSome_iff_exists.mp (range.mapped k (by omega))
    have reached := (reaches k small).mp fun i before => nul.1 i (by omega)
    refine iff_of_true ?_ (.inl reached)
    rw [copied.bytes k pa (by omega) found, found, Option.map_some]
  · -- not copied
    have missed : ¬ Reaches (translate (tables s.ram) (pool.pdir pid)) ram args k := by
      intro reached
      obtain ⟨c, here, letter⟩ := (reaches k small).mpr reached z (by omega)
      rw [nul.2] at here
      cases here
      exact letter rfl
    rw [copied.rest _ fun i before => by omega]
    exact ⟨.inr, fun there => there.resolve_left missed⟩

/-! ### The block of a run -/

/-- The block is where it should be, and nothing else was written than it and the word in the
buffer. -/
structure ArgumentBlock (tr : Nat → Option Nat) (string : Nat → Option UInt8) (b L : Nat)
    (frame : UserFrame) (ram ram' : Store) : Prop where
  string : ∀ k, k ≤ L → ∃ pa, tr ((newArgs L).toNat + k) = some pa ∧ some (ram' pa) = string k
  aligned : (newArgs L).toNat % 4 = 0
  address : ∀ k, k < 4 → ∃ pa, tr ((newArgs L).toNat - 4 + k) = some pa ∧
    ram' pa = Store.wordByte (newArgs L) k
  saved : frame.esp = newArgs L - 8
  low : 3221184512 ≤ (newArgs L).toNat - 4
  high : (newArgs L).toNat + L + 1 ≤ kOffset
  rest : ∀ x, (x < b ∨ b + 4 ≤ x) → (∀ va, kernelMem ≤ va → va < kOffset → tr va ≠ some x) →
    ram' x = ram x

theorem ExecRun.request
    (run : ExecRun pool pid execMemory fileName args fileBuf f buf b L owned held s ram s₁ s₂) :
    fetchRequest pool pid fileName args fileBuf buf s = .ok ⟨⟩ s₁ := by
  unfold fetchRequest
  rw [run_bind run.named]
  exact run.fetched

/-- A string in the buffer whose length is a multiple of four gets its block. -/
theorem exec_block
    (run : ExecRun pool pid execMemory fileName args fileBuf f buf b L owned held s ram s₁ s₂)
    (nul : FirstNul (fun k => some (s₁.ram (b + 4 + k))) L) (multiple : L % 4 = 0) :
    ∃ frame ram', exec pool pid execMemory fileName args fileBuf buf s =
      .ok (some frame) (s₂.withRam ram') ∧
      ArgumentBlock (translate (tables s₂.ram) (pool.pdir pid)) (fun k => some (s₁.ram (b + 4 + k)))
        b L frame s₂.ram ram' := by
  have short := run.short
  have value := newArgs_value L (by omega) multiple
  have head := stackHead_value L (by omega) multiple
  obtain ⟨r, is_r⟩ : ∃ r, r = s₂.ram.writeWords b 1 fun _ => newArgs L := ⟨_, rfl⟩
  have outside : ∀ x, (x < b ∨ b + 4 ≤ x) → r x = s₂.ram x := by
    intro x away
    rw [is_r]
    exact Store.writeWords_outside (by omega)
  have word : Buffer (pool.pdir pid) buf b 4 := Buffer.take (m := 252) run.buffer.toBuffer
  have stored : store32 buf (newArgs L) s₂ = .ok ⟨⟩ (s₂.withRam r) := by
    unfold store32
    rw [run_bind (kernelPa_buffer word), is_r]
    rfl
  obtain ⟨process, translated⟩ :=
    run.process.stored run.buffer fun x away => outside x (by omega)
  have range : UserRange (translate (tables (s₂.withRam r).ram) (pool.pdir pid)) (3221225464 - L)
      (L + 4 + 1) := by
    refine ⟨by unfold kernelMem; omega, by unfold kOffset; omega, fun k small => ?_⟩
    rw [withRam_ram, translated]
    exact run.stack.translate (by omega) (by unfold kOffset; omega)
  have source : Buffer (pool.pdir pid) buf b (L + 4 + 1) := Buffer.take (m := 251 - L) (by
    rw [show L + 4 + 1 + (251 - L) = 256 by omega]
    exact run.buffer.toBuffer)
  obtain ⟨ram', copied, copy⟩ :=
    copyUser_run process (inward process.toUserSpace) (by omega) range source
  rw [withRam_ram, translated] at copied copy range
  have behind : (translate (tables s₂.ram) (pool.pdir pid) (3221225464 - L + (L + 4 + 1))).isSome :=
    run.stack.translate (by omega) (by unfold kOffset; omega)
  rw [if_pos behind, withRam_twice] at copy
  have temp : Buffer (pool.pdir pid) (buf + 4) (b + 4) (L + 1) := Buffer.take (m := 251 - L) (by
    rw [show L + 1 + (251 - L) = 252 by omega]
    exact Buffer.drop (n := 4) run.buffer.toBuffer)
  have length := strlen_buffer temp nul
  refine ⟨userFrame (newArgs L - 4 - 4) (s₂.spaces pid).entry, ram', ?_, ?_⟩
  · unfold exec
    rw [run_bind run.request, run_bind length, run_bind run.loaded, if_neg (by decide),
      run_bind stored, head]
    refine (run_bind copy).trans ?_
    rfl
  · refine ⟨fun k small => ?_, (newArgs_aligned L (by omega)).mpr multiple, fun k small => ?_,
      esp_value L, by omega,
      by unfold kOffset; omega, fun x away apart => ?_⟩
    · obtain ⟨pa, found⟩ := Option.isSome_iff_exists.mp (range.mapped (4 + k) (by omega))
      refine ⟨pa, ?_, ?_⟩
      · rw [value, ← found]
        congr 1
        omega
      · rw [copied.bytes (4 + k) pa (by omega) found, outside _ (by omega), run.kept _ (by omega),
          Nat.add_assoc]
    · obtain ⟨pa, found⟩ := Option.isSome_iff_exists.mp (range.mapped k (by omega))
      refine ⟨pa, ?_, ?_⟩
      · rw [value, ← found]
        congr 1
        omega
      · rw [copied.bytes k pa (by omega) found, is_r]
        exact Store.writeWords_inside (i := 0) (by omega) small
    · rw [copied.rest x fun k small => ?_, outside x away]
      exact apart _ (by unfold kernelMem; omega) (by unfold kOffset; omega)

/-- The frame of a run tells which length `exec` has measured. -/
theorem exec_measured {frame : UserFrame} {t : MemoryState}
    (run : ExecRun pool pid execMemory fileName args fileBuf f buf b L owned held s ram s₁ s₂)
    (ends : exec pool pid execMemory fileName args fileBuf buf s = .ok (some frame) t) :
    ∃ n t', strlen (buf + 4) s₁ = .ok n t' ∧ frame.esp = newArgs n - 8 := by
  unfold exec at ends
  rw [run_bind run.request] at ends
  obtain ⟨n, t', length, ends⟩ := bind_eq_ok.mp ends
  obtain ⟨ret, _, _, ends⟩ := bind_eq_ok.mp ends
  refine ⟨n, t', length, ?_⟩
  by_cases failed : ret = -1
  · rw [if_pos failed] at ends
    obtain ⟨none, _⟩ := pure_eq_ok.mp ends
    cases none
  · rw [if_neg failed] at ends
    obtain ⟨_, _, _, ends⟩ := bind_eq_ok.mp ends
    obtain ⟨_, _, _, ends⟩ := bind_eq_ok.mp ends
    obtain ⟨_, _, _, ends⟩ := bind_eq_ok.mp ends
    obtain ⟨same, _⟩ := pure_eq_ok.mp ends
    cases same
    exact esp_value n

/-- So a frame for a string of `L` bytes says that the buffer holds one of `L` bytes. -/
theorem firstNul_of_frame {frame : UserFrame} {t : MemoryState}
    (run : ExecRun pool pid execMemory fileName args fileBuf f buf b L owned held s ram s₁ s₂)
    (ends : exec pool pid execMemory fileName args fileBuf buf s = .ok (some frame) t)
    (saved : frame.esp = newArgs L - 8) :
    FirstNul (fun k => some (s₁.ram (b + 4 + k))) L := by
  have short := run.short
  obtain ⟨n, t', length, esp⟩ := exec_measured run ends
  unfold strlen at length
  obtain ⟨⟨found, r⟩, _, scan, length⟩ := bind_eq_ok.mp length
  obtain ⟨rfl, rfl⟩ := pure_eq_ok.mp length
  have bounds := scanChunk_bounds scan
  unfold physMem at bounds
  have same : r - 1 = L :=
    newArgs_injective (by omega) (by omega) ((UInt32.sub_left_inj 8).mp (esp.symm.trans saved))
  obtain rfl : r = 0 + L + 1 := by omega
  have temp : Buffer (pool.pdir pid) (buf + 4) (b + 4) (L + 1) := Buffer.take (m := 251 - L) (by
    rw [show L + 1 + (251 - L) = 252 by omega]
    exact Buffer.drop (n := 4) run.buffer.toBuffer)
  exact firstNul_of_scan temp (by unfold physMem; omega) scan

end Run

end Block

/-! ### A run -/

/-- The process of two pages, with a string of letters at 16 MB. -/
theorem boot_string {L : Nat} (short : L ≤ 100) : ∃ s, UserProcess bootPool 0 ∅ s ∧
    UserString (translate (tables s.ram) 16) s.ram kernelMem L ∧
    (translate (tables s.ram) 16 (kernelMem + L + 1)).isSome ∧
    Room 100 s := by
  obtain ⟨s, process, range, _, zeros, room⟩ := boot_process
  obtain ⟨pa, found⟩ := Option.isSome_iff_exists.mp (range.mapped 0 (by omega))
  have chunk : ∀ k, k < 4096 → translate (tables s.ram) 16 (kernelMem + k) = some (pa + k) :=
    fun k small =>
    translate_add found (by unfold kernelMem; omega)
  have low := (process.page_range (Nat.le_refl _) (by decide) found).1
  unfold kernelMem at low
  obtain ⟨ram, is_ram⟩ : ∃ r : Store, r = fun x => if pa ≤ x ∧ x < pa + L then 65 else s.ram x :=
    ⟨_, rfl⟩
  obtain ⟨translated, space⟩ := process.toUserSpace.spared (r := ram) fun x inside => by
    rw [is_ram]
    refine if_neg fun here => ?_
    have there := chunk (x - pa) (by omega)
    rw [show pa + (x - pa) = x by omega] at there
    exact process.page_apart (Nat.le_add_right _ _)
      (by unfold kernelMem kOffset; omega) there inside
  change translate (tables ram) 16 = translate (tables s.ram) 16 at translated
  have user : ram (17 * pageSize) = 0 := by
    rw [is_ram]
    exact (if_neg (by unfold pageSize; omega)).trans process.user
  refine ⟨s.withRam ram, ⟨space, user⟩, ⟨?_, fun i small => ⟨65, ?_, by decide⟩, ?_⟩, ?_, room⟩
  · rw [withRam_ram, translated]
    exact UserRange.take (m := 8191 - L)
      (by rw [show L + 1 + (8191 - L) = 8192 by omega]; exact range)
  · rw [withRam_ram, translated]
    show (translate (tables s.ram) 16 (kernelMem + i)).map ram = _
    rw [chunk i (by omega), Option.map_some, is_ram]
    exact congrArg some (if_pos ⟨by omega, by omega⟩)
  · have apart := process.page_apart (Nat.le_add_right _ _) (by unfold kernelMem kOffset; omega)
      (chunk L (by omega))
    rw [withRam_ram, translated]
    show (translate (tables s.ram) 16 (kernelMem + L)).map ram = _
    rw [chunk L (by omega), Option.map_some, is_ram]
    exact congrArg some ((if_neg (by omega)).trans (zeros _ apart))
  · rw [withRam_ram, translated]
    exact range.mapped (L + 1) (by omega)

/-- What the memory manager does for a program without segments. -/
def emptyProgram : Mm Int := do
  createKernelDir (16 * pageSize)
  createStackPage (16 * pageSize)
  pure 0

/-- EXEC of such a process: file name and arguments are that string. -/
theorem boot_exec {L : Nat} (short : L ≤ 100) : ∃ held s ram s₁ s₂,
    ExecRun bootPool 0 emptyProgram kernelMem kernelMem 0 0 4096 4096 L ∅ held s ram s₁ s₂ := by
  obtain ⟨s, process, string, behind, room⟩ := boot_string short
  have fileBuffer : StackBuffer 16 0 0 256 :=
    ⟨⟨.inl rfl, by decide, fun k inside => by unfold frameOf; omega⟩,
      fun k small => by unfold pageSize; omega⟩
  have buffer : StackBuffer 16 4096 4096 256 :=
    ⟨⟨.inl rfl, by decide, fun k inside => by unfold frameOf; omega⟩,
      fun k small => by unfold pageSize; omega⟩
  have name : Buffer 16 0 0 (L + 1) := Buffer.take (m := 255 - L) (by
    rw [show L + 1 + (255 - L) = 256 by omega]
    exact fileBuffer.toBuffer)
  have temp : Buffer 16 (4096 + 4) (4096 + 4) (L + 1) := Buffer.take (m := 251 - L) (by
    rw [show L + 1 + (251 - L) = 252 by omega]
    exact Buffer.drop (n := 4) buffer.toBuffer)
  have offset : kernelMem % 4096 + L < 4096 := by
    unfold kernelMem
    omega
  -- the two fetches
  obtain ⟨ram₁, run₁, copied₁⟩ :=
    (fetch_run process string name (scanned_page process.toUserSpace string offset) behind).copy
  have inside₁ : ∀ x, (x < 0 ∨ 0 + 256 ≤ x) → ram₁ x = s.ram x :=
    fun x away => copied₁.rest x fun k small => by omega
  obtain ⟨process₁, translated₁, _, string₁⟩ := process.buffered fileBuffer inside₁ string
  change translate (tables ram₁) 16 = translate (tables s.ram) 16 at translated₁
  change UserString (translate (tables s.ram) 16) ram₁ kernelMem L at string₁
  rw [← translated₁] at string₁ behind
  have fetches :=
    fetch_run process₁ string₁ temp (scanned_page process₁.toUserSpace string₁ offset) behind
  obtain ⟨ram₂, run₂, copied₂⟩ := fetches.copy
  rw [withRam_twice] at run₂
  change CopiedOut (translate (tables ram₁) 16) kernelMem 4100 (L + 1) ram₁ ram₂ at copied₂
  -- the new address space
  have place : At (16 * pageSize) 16 := .direct (by omega)
  obtain ⟨s₂, s₃, kernel, stack, dir, grows⟩ :=
    createStackPage_kernelDir (s := s.withRam ram₂) place (by omega)
    process.cursor (le_trans (by omega) room)
  have nothing : ∀ j, reach (tables s₂.ram) 16 (.page 767 j) = none :=
    fun j => dir.nothing fun k _ same => by cases same
  have kept : ∀ x, frameOf x < 16 ∨ frameOf x = 17 → s₃.ram x = ram₂ x := by
    intro x low
    rw [grows.kernel_bytes (by omega) (by omega), dir.grows.kernel_bytes (by omega) (by omega),
      emptied_outside (by omega)]
    rfl
  have loaded : emptyProgram (s.withRam ram₂) = .ok 0 s₃ := by
    unfold emptyProgram
    rw [run_bind kernel, run_bind stack]
    rfl
  refine ⟨usedFrames (s.withRam ram₂), s, ram₁, s.withRam ram₂, s₃, process, string,
    by omega, fileBuffer, run₁, inside₁,
    buffer, run₂, fun len t ends => ?_, loaded, ⟨grows.userSpace dir.userSpace, ?_⟩,
    fun j low high => ?_,
    fun k small => kept _ (by unfold frameOf; omega)⟩
  · rw [fetches.length] at ends
    cases ends
    omega
  · have user := copied₂.rest (17 * pageSize) fun k small => by unfold pageSize; omega
    show s₃.ram (17 * pageSize) = 0
    rw [kept _ (.inr (by decide)), user]
    exact process₁.user
  · rw [Option.isSome_iff_ne_none, ne_eq]
    show ¬ reach (tables s₃.ram) 16 (.page 767 j) = none
    rw [grows.places _ (nothing j), not_not]
    exact .inr ⟨j, low, high, rfl⟩

end NjuOs.Memory
