/-
**Loading, whatever the file is.**

The bytes of a file choose what `load_program` does: which headers it reads, and where. Here nothing
is assumed of the file but that the headers it goes through are `Ordered`, and nothing of `read_elf`
but that it stores what it has read at the addresses it was asked for, as long as they are mapped
(`Serves`).

Segments in this order rise through the address space. In front of each of them no page and no table
is there from the end of the one before up to the stack (`Rising`), so every page it needs is new
(`Rising.segment`), and the bytes that are read stop at the first page that is not mapped
(`Rising.read`). When `load_program` has ended the process has an address space of its own, and what
is `Foreign` to it is as it was (`passProgram_space`).
-/

import NjuOs.Memory.Loading

namespace NjuOs.Memory

open NjuOs.Lib

/-- The address of `is_kernel`. -/
def flagAt (pool : PcbPool) (q : Pid) : Nat := (pool.pdir q + 1) * pageSize

/-- The bytes that are none of a process's: those in the frames of others, the other page
directories, the flags. -/
def Foreign (pool : PcbPool) (pid : Pid) (others : Set Nat) (x : Nat) : Prop :=
  frameOf x ∈ others ∨ (∃ q, q ≠ pid ∧ frameOf x = pool.pdir q) ∨ ∃ q, x = flagAt pool q

/-- What a request to the file server does that comes to an end. The manager has its memory where
the kernel has it; to a process the bytes go one after the other, each to where its directory maps
it. `own` is the memory in which the kernel keeps messages and caches. -/
structure Serves (pool : PcbPool) (memory pid : Pid) (own : Set Nat)
    (readElf : ReadElf) : Prop where
  apart : ∀ x, x ∈ own → ¬ Spared pool x ∧ ∀ q, x ≠ flagAt pool q
  header : ∀ s s', s.ram (flagAt pool memory) ≠ 0 → readElf memory elfHeader 0 4096 s = .ok ⟨⟩ s' →
    ∃ r, s' = s.withRam r ∧ ∀ x, x ∉ own → frameOf x ≠ 8 → r x = s.ram x
  segment : ∀ held s s' va off size, UserProcess pool pid held s →
    readElf pid va off size s = .ok ⟨⟩ s' →
    ∃ r m, s' = s.withRam r ∧ m ≤ size.toNat ∧
      (∀ k, k < m → (translate (tables s.ram) (pool.pdir pid) (advance va k)).isSome) ∧
      ∀ x, x ∉ own →
        (∀ k, k < m → translate (tables s.ram) (pool.pdir pid) (advance va k) ≠ some x) →
        r x = s.ram x

/-- The segments lie one above the other, between 16 MB and the table of the stack. -/
structure Ordered (headers : List ProgramHeader) : Prop where
  inside : ∀ ph ∈ headers, ph.memsz ≠ 0 → kernelMem ≤ ph.vaddr.toNat ∧
    ph.vaddr.toNat + ph.memsz.toNat ≤ 0xBFC00000
  sorted : headers.Pairwise fun ph ph' => ph.memsz ≠ 0 → ph'.memsz ≠ 0 →
    ph.vaddr.toNat + ph.memsz.toNat ≤ ph'.vaddr.toNat

/-- From `b` on nothing is mapped up to the pages of the stack, and what is foreign is as it was in
`s₀`. -/
structure Rising (pool : PcbPool) (pid : Pid) (others : Set Nat) (s₀ : MemoryState) (b : Nat)
    (s : MemoryState) : Prop
    extends UserSpace (pool.pdir pid) others s where
  bound : b ≤ 0xBFC00000
  pages : ∀ q, pageCeil b ≤ q → q ≤ 767 * 1024 →
    reach (tables s.ram) (pool.pdir pid) (.pageAt q) = none
  border : ∀ k, tableFrom (pageCeil b) ≤ k → k < 767 →
    reach (tables s.ram) (pool.pdir pid) (.table k) = none
  foreign : ∀ x, Foreign pool pid others x → s.ram x = s₀.ram x

section Foreign

variable {pool : PcbPool} {pid q : Pid} {others : Set Nat} {x : Nat}

theorem PcbPool.flag_ne (pool : PcbPool) (p q : Pid) : pool.pdir q + 1 ≠ pool.pdir p := by
  unfold PcbPool.pdir
  have apart := pool.apart
  rcases Nat.lt_or_ge q.val p.val with below | above
  · have product := Nat.mul_le_mul_right pool.stride (show q.val + 1 ≤ p.val from below)
    rw [Nat.add_mul, Nat.one_mul] at product
    omega
  · have product := Nat.mul_le_mul_right pool.stride above
    omega

theorem frameOf_flag : frameOf (flagAt pool q) = pool.pdir q + 1 := by
  unfold frameOf flagAt pageSize
  omega

/-- What is foreign lies in a frame of others, or in kernel memory outside the directory. -/
theorem Foreign.cases (here : Foreign pool pid others x) :
    frameOf x ∈ others ∨ 8 < frameOf x ∧ frameOf x < 4096 ∧ frameOf x ≠ pool.pdir pid := by
  rcases here with member | ⟨q, other, directory⟩ | ⟨q, rfl⟩
  · exact .inl member
  · have range := pool.pdir_range q
    refine .inr ⟨by omega, by omega, ?_⟩
    rw [directory]
    exact fun same => other (pool.pdir_injective same)
  · have range := pool.pdir_range q
    rw [frameOf_flag]
    exact .inr ⟨by omega, by omega, pool.flag_ne pid q⟩

/-- The kernel does not keep its own there. -/
theorem Serves.foreign {memory : Pid} {own : Set Nat} {readElf : ReadElf}
    (serves : Serves pool memory pid own readElf) (range : ∀ f, f ∈ others → 4096 ≤ f)
    (here : Foreign pool pid others x) : x ∉ own := by
  intro inside
  obtain ⟨apart, flags⟩ := serves.apart x inside
  rcases here with member | ⟨q, _, directory⟩ | ⟨q, flag⟩
  · have low := range _ member
    unfold frameOf at low
    exact apart (.inl (by unfold kernelMem; omega))
  · exact apart (.inr (.inr ⟨q, directory⟩))
  · exact flags q flag

variable {top n : Nat} {P : Set Place} {s s₀ : MemoryState}

theorem Grows.foreign (grows : Grows (pool.pdir pid) top others P n s₀ s)
    (owns : Owns (pool.pdir pid) others s₀) (here : Foreign pool pid others x) :
    s.ram x = s₀.ram x := by
  rcases here.cases with member | ⟨_, kernel, directory⟩
  · exact grows.held_bytes owns member
  · exact grows.kernel_bytes kernel directory

end Foreign

section Loads

variable {pool : PcbPool} {memory pid : Pid} {own others : Set Nat} {readElf : ReadElf}
  {b c n : Nat} {ph : ProgramHeader} {s s' s₀ : MemoryState}

/-! ### One segment -/

/-- The pages that are given behind the first one are pages of the segment. -/
theorem restPages_le (size : ph.memsz ≠ 0) :
    ph.firstPage + 1 + pageCeil (memRestSize ph).toNat ≤ ph.endPage := by
  have some : 0 < ph.memsz.toNat := by
    by_contra zero
    exact size (UInt32.toNat_inj.mp (Nat.le_zero.mp (Nat.le_of_not_lt zero)))
  have below := ph.memsz.toNat_lt
  obtain ⟨rest, is_rest⟩ :
    ∃ n, n = ph.memsz.toNat - min (4096 - ph.vaddr.toNat % 4096) ph.memsz.toNat := ⟨_, rfl⟩
  have bound : (memRestSize ph).toNat ≤ rest := by
    unfold memRestSize signed pageSize
    rw [← is_rest]
    split <;> omega
  unfold ProgramHeader.firstPage ProgramHeader.endPage pageCeil
  omega

/-- New places below `c`. -/
theorem Rising.grow {P : Set Place} (rising : Rising pool pid others s₀ b s)
    (grows : Grows (pool.pdir pid) 768 others P n s s') (higher : b ≤ c) (high : c ≤ 0xBFC00000)
    (pages : ∀ q, Place.pageAt q ∈ P → q < pageCeil c)
    (border : ∀ k, Place.table k ∈ P → k < tableFrom (pageCeil c)) :
    Rising pool pid others s₀ c s' where
  toUserSpace := grows.userSpace rising.toUserSpace
  bound := high
  pages := by
    intro q above top
    have order : pageCeil b ≤ pageCeil c := by
      unfold pageCeil
      omega
    rw [grows.reach_other fun member => Nat.not_lt.mpr above (pages q member)]
    exact rising.pages q (le_trans order above) top
  border := by
    intro k above top
    have order : tableFrom (pageCeil b) ≤ tableFrom (pageCeil c) := by
      unfold tableFrom pageCeil
      omega
    rw [grows.reach_other fun member => Nat.not_lt.mpr above (border k member)]
    exact rising.border k (le_trans order above) top
  foreign := fun x here => (grows.foreign rising.toOwns here).trans (rising.foreign x here)

theorem Rising.withSpaces {spaces : Pid → Space} (rising : Rising pool pid others s₀ b s) :
    Rising pool pid others s₀ b { s with spaces := spaces } :=
  ⟨⟨⟨rising.owned, rising.low, rising.cursor⟩, rising.kernel⟩, rising.bound, rising.pages,
    rising.border, rising.foreign⟩

/-- What is stored neither in the directory, nor in its tables, nor in anything foreign. -/
theorem Rising.stored {r : Store} (rising : Rising pool pid others s₀ b s)
    (spares : ∀ x, InTables (tables s.ram) (pool.pdir pid) x → r x = s.ram x)
    (foreign : ∀ x, Foreign pool pid others x → r x = s.ram x) :
    Rising pool pid others s₀ b (s.withRam r) where
  toUserSpace := (rising.toUserSpace.spared spares).2
  bound := rising.bound
  pages := by
    rw [withRam_ram, rising.spared_reach spares]
    exact rising.pages
  border := by
    rw [withRam_ram, rising.spared_reach spares]
    exact rising.border
  foreign := fun x here => (foreign x here).trans (rising.foreign x here)

/-- **What is read stops below the stack**, where a page is missing. -/
theorem Rising.read {va : Nat} {off size : UInt32} (serves : Serves pool memory pid own readElf)
    (user : s₀.ram (flagAt pool pid) = 0) (rising : Rising pool pid others s₀ b s)
    (low : kernelMem ≤ va) (high : va < 0xBFC00000) (run : readElf pid va off size s = .ok ⟨⟩ s') :
    Rising pool pid others s₀ b s' := by
  have process : UserProcess pool pid others s :=
    ⟨rising.toUserSpace, (rising.foreign _ (.inr (.inr ⟨pid, rfl⟩))).trans user⟩
  obtain ⟨r, m, rfl, -, mapped, rest⟩ := serves.segment others s s' va off size process run
  have below : ∀ k, k < m → va + k < 0xBFC00000 := by
    intro k small
    by_contra beyond
    have gap := mapped (0xBFC00000 - va) (by omega)
    have address : advance va (0xBFC00000 - va) = 0xBFC00000 := by
      unfold advance
      omega
    have missing : pageCeil b ≤ 767 * 1024 := by
      have bound := rising.bound
      unfold pageCeil
      omega
    rw [address, translate_user (by unfold kernelMem; omega) (by unfold kOffset; omega),
      show 0xBFC00000 / 4096 = 767 * 1024 from rfl, rising.pages _ missing (le_refl _)] at gap
    cases gap
  have target : ∀ k x, k < m → translate (tables s.ram) (pool.pdir pid) (advance va k) = some x →
      kernelMem ≤ advance va k ∧ advance va k < kOffset := by
    intro k x small _
    have bound := below k small
    unfold advance kOffset
    omega
  have range : ∀ f, f ∈ others → 4096 ≤ f :=
    fun f member => (used_range (rising.owned.used_of_held member)).1
  refine rising.stored (fun x inside => rest x (fun mine => ?_) fun k small found =>
    ?_) fun x here =>
    rest x (serves.foreign range here) fun k small found => ?_
  · refine (serves.apart x mine).1 ?_
    rcases inside with directory | ⟨i, table⟩
    · exact .inr (.inr ⟨pid, directory⟩)
    · have bounds := rising.range table
      unfold frameOf at bounds
      exact .inl (by unfold kernelMem; omega)
  · obtain ⟨from_16, to_stack⟩ := target k x small found
    exact rising.page_apart from_16 to_stack found inside
  · obtain ⟨from_16, to_stack⟩ := target k x small found
    obtain ⟨page, _⟩ := UserSpace.page from_16 to_stack found
    rcases here.cases with member | ⟨_, kernel, _⟩
    · exact rising.owned.apart _ _ page member
    · have bounds := rising.range page
      omega

/-- **A segment above `b`.** -/
theorem Rising.segment (serves : Serves pool memory pid own readElf)
    (user : s₀.ram (flagAt pool pid) = 0) (rising : Rising pool pid others s₀ b s)
    (size : ph.memsz ≠ 0) (from_16 : kernelMem ≤ ph.vaddr.toNat) (above : b ≤ ph.vaddr.toNat)
    (high : ph.vaddr.toNat + ph.memsz.toNat ≤ 0xBFC00000)
    (run : loadSegment pool pid readElf ph s = .ok ⟨⟩ s') :
    Rising pool pid others s₀ (ph.vaddr.toNat + ph.memsz.toNat) s' := by
  have some : 0 < ph.memsz.toNat := by
    by_contra zero
    exact size (UInt32.toNat_inj.mp (Nat.le_zero.mp (Nat.le_of_not_lt zero)))
  have bound := rising.bound
  have first : pageCeil b ≤ ph.firstPage + 1 := by
    unfold pageCeil ProgramHeader.firstPage
    omega
  have last : ph.endPage ≤ 767 * 1024 := by
    unfold ProgramHeader.endPage pageCeil
    omega
  have pages := segmentPages_ends rising.toOwns size from_16 high rfl (restPages_le size)
    (fun q after before => rising.pages q (le_trans first after) (by omega))
    fun k after before => by
      have order : tableFrom (pageCeil b) ≤ tableFrom (ph.firstPage + 1) := by
        unfold tableFrom
        omega
      have small : k < 767 := by
        unfold tableFrom at before
        omega
      rw [← reach_table (T := tables s.ram) (d := pool.pdir pid) (show k < 768 by omega)]
      exact rising.border k (le_trans order after) small
  unfold loadSegment at run
  rw [← bind_assoc] at run
  obtain ⟨_, s₁, run₁, run₂⟩ := bind_eq_ok.mp run
  obtain ⟨P, m, grows, _, places, _⟩ := pages.of_ok run₁
  have next : Rising pool pid others s₀ (ph.vaddr.toNat + ph.memsz.toNat) s₁ := by
    refine rising.grow grows (by omega) high (fun q member => ?_) fun k member => ?_
    · obtain ⟨p, _, before, here | other⟩ := places _ member
      · rw [Place.pageAt_inj.mp here]
        exact before
      · cases other
    · obtain ⟨p, _, before, other | here⟩ := places _ member
      · cases other
      · injection here with index
        change p < pageCeil _ at before
        unfold tableFrom
        omega
  exact next.read serves user from_16 (by omega) run₂

/-! ### The headers -/

theorem load32_still {va : Nat} : Still (load32 va) := by
  unfold load32 kernelPa
  exact .bind (.ite .pure (.ite .pure .throw)) fun pa => .bind .get fun s => .pure

theorem readHeader_still {ph : Nat} : Still (readHeader ph) := by
  unfold readHeader
  exact .bind load32_still fun _ => .bind load32_still fun _ => .bind load32_still fun _ =>
    .bind load32_still fun _ =>
    .bind load32_still fun _ => .pure

theorem setHeap_spaces (run : setHeap pid ph s = .ok ⟨⟩ s') :
    ∃ spaces, s' = { s with spaces := spaces } := by
  unfold setHeap at run
  split at run
  · rw [modify_eq_ok] at run
    exact ⟨_, run.symm⟩
  · rw [pure_eq_ok] at run
    exact ⟨s.spaces, run.2.symm⟩

/-- **The loop over the headers**, above `b`. -/
theorem passHeaders_rising {headers : List ProgramHeader} {A : Nat}
    (serves : Serves pool memory pid own readElf) (user : s₀.ram (flagAt pool pid) = 0)
    (rising : Rising pool pid others s₀ b s)
    (run : passHeaders pool pid readElf n A s = .ok headers s') (ordered : Ordered headers)
    (above : ∀ ph ∈ headers, ph.memsz ≠ 0 → b ≤ ph.vaddr.toNat) :
    ∃ c, Rising pool pid others s₀ c s' := by
  induction n generalizing A b s headers with
  | zero =>
      obtain ⟨_, rfl⟩ := pure_eq_ok.mp run
      exact ⟨b, rising⟩
  | succ n ih =>
      unfold passHeaders at run
      obtain ⟨ph, s₁, read, run₁⟩ := bind_eq_ok.mp run
      obtain ⟨_, s₂, turn, run₂⟩ := bind_eq_ok.mp run₁
      obtain ⟨rest, s₃, later, run₃⟩ := bind_eq_ok.mp run₂
      obtain ⟨rfl, rfl⟩ := pure_eq_ok.mp run₃
      obtain rfl : s₁ = s := readHeader_still.of_ok read
      have sorted := List.pairwise_cons.mp ordered.sorted
      have ordered' : Ordered rest :=
        ⟨fun ph' member => ordered.inside ph' (List.mem_cons_of_mem _ member), sorted.2⟩
      rw [loadHeader_eq] at turn
      obtain ⟨_, s₄, segment, heap⟩ := bind_eq_ok.mp turn
      obtain ⟨spaces, rfl⟩ := setHeap_spaces heap
      by_cases size : ph.memsz ≠ 0
      · rw [if_pos size] at segment
        obtain ⟨from_16, high⟩ := ordered.inside ph List.mem_cons_self size
        have next := rising.segment serves user size from_16
          (above ph List.mem_cons_self size) high segment
        exact ih next.withSpaces later ordered' fun ph' member => sorted.1 ph' member size
      · rw [if_neg size] at segment
        obtain ⟨_, rfl⟩ := pure_eq_ok.mp segment
        exact ih rising.withSpaces later ordered' fun ph' member =>
          above ph' (List.mem_cons_of_mem _ member)

/-! ### The program -/

/-- The kernel's part and the stack. -/
theorem rising_start {s₁ : MemoryState} (cursor : s.bitmapIdx < pageNum)
    (dir : KernelDir s (pool.pdir pid) 4 s₁)
    (stack : Grows (pool.pdir pid) 768 (usedFrames s) stackPlaces 11 s₁ s') :
    Rising pool pid (usedFrames s) s kernelMem s' where
  toUserSpace := stack.userSpace dir.userSpace
  bound := by decide
  pages := by
    intro q low high
    rw [stack.reach_other, dir.nothing fun k _ same => by cases same]
    rintro (other | ⟨j, above, _, same⟩)
    · cases other
    · unfold Place.pageAt at same
      injection same with table entry
      omega
  border := by
    intro k low high
    rw [show tableFrom (pageCeil kernelMem) = 4 from rfl] at low
    rw [stack.reach_other, dir.nothing]
    · rintro l small same
      cases same
      omega
    · rintro (same | ⟨j, _, _, other⟩)
      · cases same
        omega
      · cases other
  foreign := by
    intro x here
    have bounds := pool.pdir_range pid
    have owns := owns_emptied (s := s) (d := pool.pdir pid) (by omega) cursor
    have outside : frameOf x ≠ pool.pdir pid := by
      rcases here.cases with member | ⟨_, _, directory⟩
      · have range := used_range member
        omega
      · exact directory
    rw [stack.foreign dir.userSpace.toOwns here, dir.grows.foreign owns here,
      emptied_outside outside]

/-- **A program whose segments are ordered is given an address space of its own**, and nothing
foreign is touched. -/
theorem passProgram_space {headers : List ProgramHeader}
    (serves : Serves pool memory pid own readElf) (cursor : s.bitmapIdx < pageNum)
    (manager : s.ram (flagAt pool memory) ≠ 0) (user : s.ram (flagAt pool pid) = 0)
    (run : passProgram pool memory pid readElf s = .ok headers s') (ordered : Ordered headers) :
    UserSpace (pool.pdir pid) (usedFrames s) s' ∧ ∀ x, Foreign pool pid (usedFrames s) x →
    s'.ram x = s.ram x := by
  have bounds := pool.pdir_range pid
  have place : At (pool.pdir pid * pageSize) (pool.pdir pid) := .direct (by omega)
  have built := createStackPage_kernelDir_ends (s := s) place (by omega) cursor
  unfold passProgram at run
  obtain ⟨_, s₁, kernel, run₁⟩ := bind_eq_ok.mp run
  obtain ⟨_, s₂, stack, run₂⟩ := bind_eq_ok.mp run₁
  obtain ⟨dir, rest⟩ := built.of_ok kernel
  have start := rising_start cursor dir (rest.of_ok stack)
  -- the first page of the file
  obtain ⟨_, s₃, header, run₃⟩ := bind_eq_ok.mp run₂
  obtain ⟨r, rfl, same⟩ := serves.header s₂ s₃
    ((start.foreign _ (.inr (.inr ⟨memory, rfl⟩))).symm ▸ manager) header
  have range : ∀ f, f ∈ usedFrames s → 4096 ≤ f := fun f member => (used_range member).1
  have read : Rising pool pid (usedFrames s) s kernelMem (s₂.withRam r) := by
    refine start.stored (fun x inside => ?_) fun x here => same x (serves.foreign range here) ?_
    · rcases inside with directory | ⟨i, table⟩
      · exact same x (fun mine => (serves.apart x mine).1 (.inr (.inr ⟨pid, directory⟩))) (by omega)
      · have above := start.range table
        refine same x (fun mine => (serves.apart x mine).1 (.inl ?_)) (by omega)
        unfold frameOf at above
        unfold kernelMem
        omega
    · rcases here.cases with member | ⟨low, _⟩
      · have above := range _ member
        omega
      · omega
  -- the headers
  obtain ⟨phoff, s₄, load, run₄⟩ := bind_eq_ok.mp run₃
  obtain ⟨phnum, s₅, load', run₅⟩ := bind_eq_ok.mp run₄
  obtain ⟨passed, s₆, loop, run₆⟩ := bind_eq_ok.mp run₅
  obtain ⟨entry, s₇, load'', run₇⟩ := bind_eq_ok.mp run₆
  obtain ⟨_, s₈, set, run₈⟩ := bind_eq_ok.mp run₇
  obtain ⟨rfl, rfl⟩ := pure_eq_ok.mp run₈
  obtain rfl : s₄ = s₂.withRam r := load32_still.of_ok load
  obtain rfl : s₅ = s₂.withRam r := load32_still.of_ok load'
  obtain rfl : s₇ = s₆ := load32_still.of_ok load''
  rw [modify_eq_ok] at set
  subst set
  obtain ⟨c, done⟩ := passHeaders_rising serves user read loop ordered fun ph member size =>
    (ordered.inside ph member size).1
  exact ⟨done.withSpaces.toUserSpace, done.withSpaces.foreign⟩

end Loads

/-! ### A file server -/

/-- The segments of an `Executable` are ordered. -/
theorem Executable.ordered {file : Store} {length : Nat} (exec : Executable file length) :
    Ordered ((List.range (phnum file)).map (headerOf file)) where
  inside := by
    intro ph member size
    obtain ⟨j, small, rfl⟩ := List.mem_map.mp member
    have segment := exec.segment j (List.mem_range.mp small) size
    exact ⟨segment.low, segment.high⟩
  sorted := by
    rw [List.pairwise_map]
    refine List.Pairwise.imp_of_mem
      (fun _ small before => exec.sorted _ _ before (List.mem_range.mp small)) ?_
    exact List.pairwise_lt_range

/-- A file server that fails where an address is not mapped. -/
def strictReadElf (file : Store) (length : Nat) : ReadElf := fun pid va off size s =>
  if ∀ k, k < min size.toNat (length - off.toNat) →
    (translate (tables s.ram) (bootPool.pdir pid) (advance va k)).isSome ∨
      pid = 0 then bootReadElf file length pid va off size s
  else .error .panic s

theorem strictReadElf_reads (file : Store) (length : Nat) :
    Reads bootPool 0 1 file length (strictReadElf file length) where
  header := by
    intro s va off size inside
    unfold strictReadElf
    rw [if_pos fun _ _ => .inr rfl]
    exact (bootReadElf_reads file length).header s va off size inside
  segment := by
    intro held s va off size space range
    have high := range.high
    unfold kOffset at high
    unfold strictReadElf
    rw [if_pos]
    · exact (bootReadElf_reads file length).segment held s va off size space range
    · intro k small
      have mapped := range.mapped k (by omega)
      rw [show advance va k = va + k by unfold advance; omega]
      exact .inl mapped

/-- Where `storeFile` writes. -/
theorem storeFile_outside {file ram : Store} {length va off size x : Nat} {tr : Nat → Option Nat}
    (outside : ∀ k, k < size → off + k < length → tr (va + k) ≠ some x) :
    storeFile file length tr va off size ram x = ram x := by
  have search : ((List.range size).find? fun k => off + k < length ∧
      tr (va + k) = some x) = none := by
    refine List.find?_eq_none.mpr fun k member => ?_
    simp only [decide_eq_true_eq]
    exact fun here => outside k (List.mem_range.mp member) here.1 here.2
  unfold storeFile
  rw [search]

/-- A request of the process that ends. -/
theorem strictReadElf_ok {file : Store} {length va : Nat} {off size : UInt32} {s s' : MemoryState}
    (run : strictReadElf file length 1 va off size s = .ok ⟨⟩ s') :
    ∃ r m, s' = s.withRam r ∧ m ≤ size.toNat ∧
      (∀ k, k < m → (translate (tables s.ram) (bootPool.pdir 1) (advance va k)).isSome) ∧
      ∀ x, (∀ k, k < m → translate (tables s.ram) (bootPool.pdir 1) (advance va k) ≠ some x) →
      r x = s.ram x := by
  unfold strictReadElf at run
  split at run
  · next mapped =>
    obtain ⟨_, rfl⟩ := EStateM.Result.ok.inj run
    refine ⟨_, _, rfl, Nat.min_le_left _ _,
      fun k small => (mapped k small).resolve_right (by decide), fun x outside => ?_⟩
    rw [if_neg (by decide)]
    refine storeFile_outside fun k small inFile found => outside k (by omega) ?_
    obtain ⟨t, f, entry, _⟩ := translate_eq_some.mp found
    have address := tables_small entry
    rwa [show advance va k = va + k by unfold advance; omega]
  · cases run

/-- A request of the manager. -/
theorem strictReadElf_header {file : Store} {length : Nat} {s s' : MemoryState}
    (run : strictReadElf file length 0 elfHeader 0 4096 s = .ok ⟨⟩ s') :
    ∃ r, s' = s.withRam r ∧ ∀ x, frameOf x ≠ 8 → r x = s.ram x := by
  unfold strictReadElf at run
  rw [if_pos fun _ _ => .inr rfl] at run
  obtain ⟨_, rfl⟩ := EStateM.Result.ok.inj run
  refine ⟨_, rfl, fun x other => storeFile_outside fun k small _ found => other ?_⟩
  cases found
  change k < 4096 at small
  unfold frameOf elfHeader
  omega

theorem strictReadElf_serves (file : Store) (length : Nat) :
    Serves bootPool 0 1 ∅ (strictReadElf file length) where
  apart := fun x member => member.elim
  header := by
    intro s s' _ run
    obtain ⟨r, same, rest⟩ := strictReadElf_header run
    exact ⟨r, same, fun x _ => rest x⟩
  segment := by
    intro held s s' va off size _ run
    obtain ⟨r, m, same, bound, mapped, rest⟩ := strictReadElf_ok run
    exact ⟨r, m, same, bound, mapped, fun x _ => rest x⟩

/-- All frames are free, and process 0 is the manager. -/
def startMemory : MemoryState :=
  bootMemory.withRam (Function.update bootMemory.ram (flagAt bootPool 0) 1)

theorem startMemory_manager : startMemory.ram (flagAt bootPool 0) ≠ 0 := by
  unfold startMemory
  rw [withRam_ram, Function.update_self]
  decide

theorem startMemory_user : startMemory.ram (flagAt bootPool 1) = 0 := by
  unfold startMemory
  rw [withRam_ram, Function.update_of_ne (by decide)]
  rfl

/-- Where no frame is in use, the file is loaded. -/
theorem bootFile_pass {s : MemoryState} (none : usedFrames s = ∅) (cursor : s.bitmapIdx < pageNum) :
    ∃ s', passProgram bootPool 0 1 (strictReadElf bootFile 400) s
      = .ok ((List.range (phnum bootFile)).map (headerOf bootFile)) s' ∧
      ProgramLoaded bootPool 1 bootFile s' := by
  have room : Room (pageNum - (∅ : Finset Place).card) s := by
    refine room_of_used (T := fun _ _ => Option.none) (d := 0) fun f member => ?_
    rw [none] at member
    exact member.elim
  refine passProgram_ok (strictReadElf_reads bootFile 400) bootFile_executable cursor
    (le_trans ?_ room)
  rw [bootFile_phnum, Finset.sum_range_succ, Finset.sum_range_one, bootFile_header (by omega),
    bootFile_header (by omega)]
  decide

/-- Below the stack it has two pages. -/
theorem bootFile_places {s : MemoryState} (loaded : ProgramLoaded bootPool 1 bootFile s) {a : Place}
    (low : 4 ≤ a.index) (high : a.index < 767)
    (here : reach (tables s.ram) (bootPool.pdir 1) a ≠ none) :
    a = .table 4 ∨ a = .page 4 0 ∨ a = .page 4 1 := by
  obtain ⟨j, small, _, q, first, last, is⟩ := loaded.places a low high here
  rw [bootFile_phnum] at small
  have pages : q = 4096 ∨ q = 4097 := by
    rw [bootFile_header small] at first last
    interval_cases j
    · change 16777216 / 4096 ≤ q at first
      change q < pageCeil (16777216 + 200) at last
      unfold pageCeil at last
      omega
    · change 16777516 / 4096 ≤ q at first
      change q < pageCeil (16777516 + 5000) at last
      unfold pageCeil at last
      omega
  rcases pages with rfl | rfl
  · rcases is with rfl | rfl
    · exact .inr (.inl rfl)
    · exact .inl rfl
  · rcases is with rfl | rfl
    · exact .inr (.inr rfl)
    · exact .inl rfl

end NjuOs.Memory
