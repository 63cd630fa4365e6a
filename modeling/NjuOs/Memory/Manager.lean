/-
**The memory manager.**

`memory_manager.c`: the frames of user memory, the address space of a new process
(`create_kernel_dir`, `create_stack_page`, `load_segment`), its copy in a fork, its heap and its
release, and the handlers of the requests CREATE_SPACE, CREATE_CHILD_SPACE, EXEC_MEMORY, EXIT_MEMORY
and SBRK.

The manager reads an executable through the file server, which copies into the address space itself.
What that does to memory is a parameter, `ReadElf`; the ELF header and the program headers are then
read from memory, where they are.
-/

import NjuOs.Memory.Paging

namespace NjuOs.Memory

open NjuOs.Lib

/-! ### Frames -/

/-- `get_idle_page`: the first idle frame from the cursor on; with none the search has no end. -/
def getIdlePage : Mm Nat := do
  let s ← get
  match firstIdle s.pageBitmap pageNum pageNum s.bitmapIdx with
  | none => throw .hang
  | some idx =>
      set { s with pageBitmap := Function.update s.pageBitmap idx true, bitmapIdx := idx }
      pure (kernelMem + idx * 4096)

/-- An address below user memory would give a number far behind the bitmap. -/
def setPageIdle (page : Nat) : Mm PUnit :=
  if kernelMem ≤ page ∧ (page - kernelMem) / 4096 < pageNum then
    modify fun s =>
      { s with pageBitmap := Function.update s.pageBitmap ((page - kernelMem) / 4096) false }
  else throw .outOfBounds

/-! ### Building an address space -/

/-- An empty table, entered in the directory. -/
def newTable (pdir pdirIdx : Nat) : Mm Nat := do
  let ptable ← getIdlePage
  memset ptable pageSize
  store32 (pdir + 4 * pdirIdx) (makePde ptable)
  pure ptable

/-- One of the tables that map kernel memory; the directory has it at `0` and at `KOFFSET`. -/
def kernelTable (pdir pdirIdx : Nat) : Mm PUnit := do
  let ptable ← getIdlePage
  memset ptable pageSize
  store32 (pdir + 4 * pdirIdx) (makeSupervisorPde ptable)
  store32 (pdir + 4 * (pdirIdx + 768)) (makePde ptable)
  loop (fun ptableIdx => store32 (ptable + 4 * ptableIdx)
    (makePte ((1024 * pdirIdx + ptableIdx) * 4096))) 1024 0

/-- `create_kernel_dir`: an empty directory, and the kernel's four tables. -/
def createKernelDir (pdir : Nat) : Mm PUnit := do
  loop (fun pdirIdx => store32 (pdir + 4 * pdirIdx) 0) 1024 0
  loop (kernelTable pdir) 4 0

/-- Page `i` of the stack, from its top; its content is what the frame held. -/
def stackPage (ptable i : Nat) : Mm PUnit := do
  let pframe ← getIdlePage
  store32 (ptable + 4 * (1023 - i)) (makePte pframe)

/-- Ten pages below `0xC0000000`. -/
def createStackPage (pdir : Nat) : Mm PUnit := do
  let ptable ← newTable pdir 767
  loop (stackPage ptable) 10 0

/-- A table for an address, if the directory has none. -/
def ensureTable (pdir pdirIdx : Nat) : Mm PUnit := do
  let pde ← load32 (pdir + 4 * pdirIdx)
  if present pde then pure ⟨⟩
  else do
    let _ ← newTable pdir pdirIdx
    pure ⟨⟩

/-- A page for an address, if the table has none. -/
def ensurePage (ptable ptableIdx : Nat) : Mm PUnit := do
  let pte ← load32 (ptable + 4 * ptableIdx)
  if present pte then pure ⟨⟩
  else do
    let pframe ← getIdlePage
    memset pframe pageSize
    store32 (ptable + 4 * ptableIdx) (makePte pframe)

/-- Table and page of an address, as `load_segment` and `sbrk` begin; the table. -/
def ensureFirst (pdir pdirIdx ptableIdx : Nat) : Mm Nat := do
  ensureTable pdir pdirIdx
  let pde ← load32 (pdir + 4 * pdirIdx)
  let ptable := pageFrame pde * pageSize
  ensurePage ptable ptableIdx
  pure ptable

/-- One turn of the loops of `load_segment` and `sbrk`: a page, behind the last entry of a table in
the first one of a new table. The table and the indices for the next turn. -/
def nextPage (pdir ptable pdirIdx ptableIdx : Nat) : Mm (Nat × Nat × Nat) := do
  let pframe ← getIdlePage
  memset pframe pageSize
  if ptableIdx = 1024 then do
    let ptable ← newTable pdir (pdirIdx + 1)
    store32 (ptable + 4 * 0) (makePte pframe)
    pure (ptable, pdirIdx + 1, 1)
  else do
    store32 (ptable + 4 * ptableIdx) (makePte pframe)
    pure (ptable, pdirIdx, ptableIdx + 1)

/-! ### Loading -/

/-- `ProgramHeader`: what `load_segment` uses of it. -/
structure ProgramHeader where
  type : UInt32
  off : UInt32
  vaddr : UInt32
  filesz : UInt32
  memsz : UInt32
  deriving DecidableEq, Repr

/-- An unsigned word, taken as an `int`. -/
def signed (n : Nat) : Int := if n < 2147483648 then n else n - 4294967296

/-- `read_elf` with the descriptor that `open_elf_file` gave: what a request for `size` bytes of the
file from `offset` on, to the address `buf` of a process or kernel thread, does to memory. -/
abbrev ReadElf := Pid → Nat → UInt32 → UInt32 → Mm PUnit

/-- The program header at an address. -/
def readHeader (ph : Nat) : Mm ProgramHeader := do
  let type ← load32 ph
  let off ← load32 (ph + 4)
  let vaddr ← load32 (ph + 8)
  let filesz ← load32 (ph + 16)
  let memsz ← load32 (ph + 20)
  pure { type, off, vaddr, filesz, memsz }

/-- The loop of `load_segment` over the pages behind the first one. -/
def loadPages (pdir : Nat) : Nat → Int → Nat → Nat → Nat → Mm PUnit
  | 0, _, _, _, _ => pure ⟨⟩
  | fuel + 1, memRest, ptable, pdirIdx, ptableIdx =>
      if 0 < memRest then do
        let (ptable, pdirIdx, ptableIdx) ← nextPage pdir ptable pdirIdx ptableIdx
        loadPages pdir fuel (memRest - 4096) ptable pdirIdx ptableIdx
      else pure ⟨⟩

/-- `mem_rest_size`: what lies behind the first page, as an `int`. -/
def memRestSize (ph : ProgramHeader) : Int :=
  signed (ph.memsz.toNat - min (pageSize - ph.vaddr.toNat % 4096) ph.memsz.toNat)

/-- `load_segment`: frames for the pages, and the bytes of the file. -/
def loadSegment (pool : PcbPool) (pid : Pid) (readElf : ReadElf) (ph : ProgramHeader) :
    Mm PUnit := do
  let pdir := pool.pdir pid * pageSize
  let pdirIdx := ph.vaddr.toNat / 4194304
  let ptableIdx := ph.vaddr.toNat / 4096 % 1024
  let ptable ← ensureFirst pdir pdirIdx ptableIdx
  loadPages pdir (memRestSize ph).toNat (memRestSize ph) ptable pdirIdx (ptableIdx + 1)
  readElf pid ph.vaddr.toNat ph.off ph.filesz

/-- The body of the loop over the program headers. -/
def loadHeader (pool : PcbPool) (pid : Pid) (readElf : ReadElf) (ph : ProgramHeader) :
    Mm PUnit := do
  if ph.memsz ≠ 0 then loadSegment pool pid readElf ph
  if ph.type = 1 then
    modify fun s =>
      { s with
        spaces := Function.update s.spaces pid
          { s.spaces pid with heapStart := ph.vaddr + ph.memsz, heapTop := ph.vaddr + ph.memsz } }

/-- The loop over the program headers. -/
def loadHeaders (pool : PcbPool) (pid : Pid) (readElf : ReadElf) : Nat → Nat → Mm PUnit
  | 0, _ => pure ⟨⟩
  | n + 1, ph => do
      let header ← readHeader ph
      loadHeader pool pid readElf header
      loadHeaders pool pid readElf n (ph + 32)

/-- Where the file's first page is read to. -/
def elfHeader : Nat := 0x8000

/-- The number of turns of `for(; ph < eph; ph++)`: none if the end of the table lies behind the
last address. -/
def headerCount (ph phnum : Nat) : Nat := if ph + 32 * phnum < 4294967296 then phnum else 0

/-- `memory` is the manager itself, a kernel thread. -/
def loadProgram (pool : PcbPool) (memory pid : Pid) (readElf : ReadElf) : Mm PUnit := do
  let pdir := pool.pdir pid * pageSize
  createKernelDir pdir
  createStackPage pdir
  readElf memory elfHeader 0 4096
  let phoff ← load32 (elfHeader + 28)
  let phnum ← load32 (elfHeader + 44)
  let ph := (elfHeader + phoff.toNat) % 4294967296
  loadHeaders pool pid readElf (headerCount ph (phnum.toNat % 65536)) ph
  let entry ← load32 (elfHeader + 24)
  modify fun s =>
    { s with spaces := Function.update s.spaces pid { s.spaces pid with
      cr3 := pool.pdir pid, entry := entry } }

/-! ### Copying and releasing -/

/-- One entry of a table. -/
def copyPage (pPtable cPtable ptableIdx : Nat) : Mm PUnit := do
  let pte ← load32 (pPtable + 4 * ptableIdx)
  if present pte then do
    let cPframe ← getIdlePage
    memcpy cPframe (pageFrame pte * pageSize) pageSize
    store32 (cPtable + 4 * ptableIdx) (makePte cPframe)
  else pure ⟨⟩

/-- One entry of the directory. -/
def copyTable (pPdir cPdir pdirIdx : Nat) : Mm PUnit := do
  let pde ← load32 (pPdir + 4 * pdirIdx)
  if present pde then do
    let cPtable ← newTable cPdir pdirIdx
    loop (copyPage (pageFrame pde * pageSize) cPtable) 1024 0
  else pure ⟨⟩

/-- `copy_process`: the tables and pages of the parent. -/
def copyProcess (pool : PcbPool) (ppid cpid : Pid) : Mm PUnit := do
  modify fun s =>
    { s with spaces := Function.update s.spaces cpid { s.spaces cpid with cr3 := pool.pdir cpid } }
  loop (copyTable (pool.pdir ppid * pageSize) (pool.pdir cpid * pageSize)) 764 4

/-- One entry of a table. -/
def takebackEntry (ptable ptableIdx : Nat) : Mm PUnit := do
  let pte ← load32 (ptable + 4 * ptableIdx)
  if present pte then do
    setPageIdle (pageFrame pte * pageSize)
    store32 (ptable + 4 * ptableIdx) 0
  else pure ⟨⟩

/-- One entry of the directory, with its pages. -/
def takebackTable (pdir pdirIdx : Nat) : Mm PUnit := do
  let pde ← load32 (pdir + 4 * pdirIdx)
  if present pde then do
    loop (takebackEntry (pageFrame pde * pageSize)) 1024 0
    setPageIdle (pageFrame pde * pageSize)
    store32 (pdir + 4 * pdirIdx) 0
  else pure ⟨⟩

/-- A table of the kernel; its entries stay in the directory. -/
def takebackKernelTable (pdir pdirIdx : Nat) : Mm PUnit := do
  let pde ← load32 (pdir + 4 * pdirIdx)
  setPageIdle (pageFrame pde * pageSize)

/-- `takeback_page`: all frames of an address space. -/
def takebackPage (pdir : Nat) : Mm PUnit := do
  loop (takebackKernelTable pdir) 4 0
  loop (takebackTable pdir) 764 4

/-! ### The heap -/

/-- The loop of `sbrk` for a higher top. It ends before the addresses do, or with the last free
frame. -/
def growPages (pdir newHeapTop : Nat) : Nat → Nat → Nat → Nat → Nat → Mm PUnit
  | 0, _, _, _, _ => throw .hang
  | fuel + 1, newPageAddr, ptable, pdirIdx, ptableIdx =>
      if newPageAddr < newHeapTop then do
        let (ptable, pdirIdx, ptableIdx) ← nextPage pdir ptable pdirIdx ptableIdx
        growPages pdir newHeapTop fuel (advance newPageAddr pageSize) ptable pdirIdx ptableIdx
      else pure ⟨⟩

/-- The loop for a lower top, with `ptable` and `remove_page_addr` as they stand before it: the null
pointer, and the page of the old top. Only `ptable_idx` changes, an unsigned number that is never
below zero. -/
def shrinkPages (newHeapTop removePageAddr : Nat) : Nat → Nat → Mm PUnit
  | 0, _ => throw .hang
  | fuel + 1, ptableIdx =>
      if newHeapTop ≤ removePageAddr then do
        let pte ← load32 (advance 0 (4 * ptableIdx))
        store32 (advance 0 (4 * ptableIdx)) 0
        setPageIdle (pageFrame pte * pageSize)
        shrinkPages newHeapTop removePageAddr fuel (advance ptableIdx 4294967295)
      else pure ⟨⟩

/-- `sbrk`: the reply is the new top. -/
def sbrk (pool : PcbPool) (pid : Pid) (inc : Int) : Mm UInt32 := do
  let heapTop := ((← get).spaces pid).heapTop
  let newHeapTop := heapTop + UInt32.ofInt inc
  let pdir := pool.pdir pid * pageSize
  if 0 < inc then do
    let pdirIdx := heapTop.toNat / 4194304
    let ptableIdx := heapTop.toNat / 4096 % 1024
    let ptable ← ensureFirst pdir pdirIdx ptableIdx
    growPages pdir newHeapTop.toNat 1048577
      (advance (heapTop.toNat - heapTop.toNat % 4096) pageSize) ptable pdirIdx
      (ptableIdx + 1)
  else if inc < 0 then
    shrinkPages newHeapTop.toNat (heapTop.toNat / 4096 * 4096) 1048577 (heapTop.toNat / 4096 % 1024)
  modify fun s =>
    { s with spaces := Function.update s.spaces pid { s.spaces pid with heapTop := newHeapTop } }
  return newHeapTop

/-! ### The handlers -/

/-- CREATE_SPACE. Whether the file could be opened is not asked. -/
def handlePcb (pool : PcbPool) (memory pid : Pid) (readElf : ReadElf) : Mm PUnit :=
  loadProgram pool memory pid readElf

/-- CREATE_CHILD_SPACE. -/
def handleChild (pool : PcbPool) (ppid cpid : Pid) : Mm PUnit := do
  createKernelDir (kOffset + pool.pdir cpid * pageSize)
  copyProcess pool ppid cpid

/-- EXEC_MEMORY, with the file if it could be opened: the reply. -/
def handleExec (pool : PcbPool) (memory pid : Pid) : Option ReadElf → Mm Int
  | none => pure (-1)
  | some readElf => do
      takebackPage (pool.pdir pid * pageSize)
      loadProgram pool memory pid readElf
      pure 0

/-- EXIT_MEMORY. -/
def handleExit (pool : PcbPool) (pid : Pid) : Mm PUnit := takebackPage (pool.pdir pid * pageSize)

end NjuOs.Memory
