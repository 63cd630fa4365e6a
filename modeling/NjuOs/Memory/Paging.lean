/-
**Physical memory, page tables and copies between address spaces.**

`x86/memory.h`, `memory/util.c` and `kcpy.c`. Physical memory is a byte store; page directories and
page tables are words in it. The code of the model runs in kernel threads, whose address space is
the one of `kvm.c`: the 128 MB of memory at address `0` and once more at `KOFFSET`. An access
elsewhere is a page fault in the kernel, which is a panic.

The page directory of a process is a field of its `PCB`, one page long, and the flag `is_kernel` is
the byte behind it. Where the linker puts `pcb_pool` is a parameter (`PcbPool`).
-/

import NjuOs.Lib.Bytes
import NjuOs.Lib.Cyclic
import NjuOs.Lib.Prog
import NjuOs.Process.Schedule

namespace NjuOs.Memory

open NjuOs.Lib

/-- The number of a PCB. -/
abbrev Pid := Fin Process.Schedule.poolNum

/-- `PAGE_SIZE`. -/
def pageSize : Nat := 4096

/-- `KERNEL_MEM`: where the frames for processes begin. -/
def kernelMem : Nat := 16 * 1024 * 1024

/-- `PHY_MEM`. -/
def physMem : Nat := 128 * 1024 * 1024

/-- `KOFFSET`. -/
def kOffset : Nat := 0xC0000000

/-- The frames of user memory, one flag of `page_bitmap` each. -/
def pageNum : Nat := 28 * 1024

/-- How the manager can end other than by going on: a page fault or a failed `assert` in the kernel,
an access outside an array, a loop that never ends. -/
inductive Fault where
  | pageFault
  | panic
  | outOfBounds
  | hang
  deriving DecidableEq, Repr

/-- The fields of a `PCB` that the memory manager sets, besides the page directory. -/
structure Space where
  cr3 : Nat
  entry : UInt32
  heapStart : UInt32
  heapTop : UInt32

/-- The physical memory, and what the memory manager keeps. -/
structure MemoryState where
  ram : Store
  pageBitmap : Nat → Bool
  bitmapIdx : Nat
  spaces : Pid → Space

/-- A computation of the memory manager: it may end at a fault. -/
abbrev Mm := EStateM Fault MemoryState

/-- Where `pcb_pool` lies: `base` is the frame of the first page directory and `stride` the number
of frames of a `PCB`. The pool lies in kernel memory, behind the page at `0x8000`. -/
structure PcbPool where
  base : Nat
  stride : Nat
  behind : 9 ≤ base
  apart : 2 ≤ stride
  inside : base + 49 * stride + 1 < 4096

/-- The frame of a process's page directory. -/
def PcbPool.pdir (pool : PcbPool) (pid : Pid) : Nat := pool.base + pid.val * pool.stride

/-- The sum of a 32-bit address and a length. -/
def advance (addr n : Nat) : Nat := (addr + n) % 4294967296

/-! ### Entries of directories and tables -/

/-- The bit `present` of a `PDE` or `PTE`. -/
def present (entry : UInt32) : Bool := entry.toNat % 2 = 1

/-- The field `page_frame`. -/
def pageFrame (entry : UInt32) : Nat := entry.toNat / 4096

/-- An entry with the given flags in its low bits. -/
def makeEntry (flags addr : Nat) : UInt32 := UInt32.ofNat (addr / 4096 % 1048576 * 4096 + flags)

/-- `make_pde`: `present`, `read_write` and `user_supervisor` are set. -/
def makePde (addr : Nat) : UInt32 := makeEntry 7 addr

/-- `make_pte`, with the same flags. -/
def makePte (addr : Nat) : UInt32 := makeEntry 7 addr

/-- What `make_pde` stores, with `user_supervisor` cleared again. -/
def makeSupervisorPde (addr : Nat) : UInt32 := makeEntry 3 addr

/-! ### Accesses of a kernel thread -/

/-- The physical address of `n` bytes in the address space of kernel threads. -/
def kernelPa (va n : Nat) : Mm Nat :=
  if va + n ≤ physMem then pure va
  else if kOffset ≤ va ∧ va + n ≤ kOffset + physMem then pure (va - kOffset)
  else throw .pageFault

/-- A byte is read at a kernel address. -/
def load8 (va : Nat) : Mm UInt8 := do
  let pa ← kernelPa va 1
  let s ← get
  pure (s.ram pa)

/-- A word is read at a kernel address. -/
def load32 (va : Nat) : Mm UInt32 := do
  let pa ← kernelPa va 4
  let s ← get
  pure (s.ram.word pa)

/-- A word is stored at a kernel address. -/
def store32 (va : Nat) (w : UInt32) : Mm PUnit := do
  let pa ← kernelPa va 4
  modify fun s => { s with ram := s.ram.writeWords pa 1 fun _ => w }

/-- `memset(p, 0, n)`. -/
def memset (va n : Nat) : Mm PUnit := do
  let pa ← kernelPa va n
  modify fun s => { s with ram := s.ram.clear pa n }

/-- The bytes at an address. -/
def loadBytes (va n : Nat) : Mm (List UInt8) := do
  let pa ← kernelPa va n
  let s ← get
  pure (s.ram.read pa n)

/-- Bytes are stored at a kernel address. -/
def storeBytes (va : Nat) (bytes : List UInt8) : Mm PUnit := do
  let pa ← kernelPa va bytes.length
  modify fun s => { s with ram := s.ram.write pa bytes }

/-- `memcpy`, of two ranges that do not overlap. -/
def memcpy (dest src n : Nat) : Mm PUnit := do
  let bytes ← loadBytes src n
  storeBytes dest bytes

/-! ### Copies between address spaces -/

/-- `pcb->is_kernel`, the byte behind the page directory. -/
def isKernel (pool : PcbPool) (pid : Pid) : Mm Bool := do
  let flag ← load8 ((pool.pdir pid + 1) * pageSize)
  pure (flag != 0)

/-- `physical_addr`, for the page directory at `pdir`. -/
def physicalAddr (pdir virAddr : Nat) : Mm Nat := do
  let pde ← load32 (pdir + 4 * (virAddr / 4194304))
  if present pde then do
    let pte ← load32 (pageFrame pde * pageSize + 4 * (virAddr / 4096 % 1024))
    if present pte then pure (pageFrame pte * pageSize + virAddr % 4096) else throw .panic
  else throw .panic

/-- The loop of `copy_from_kernel` and `copy_to_kernel`, where `move` copies between a buffer of the
kernel and a physical address. Every turn moves at least one byte, so the length is fuel enough. The
address behind the bytes is translated whether any are left or not. -/
def copyPages (move : Nat → Nat → Nat → Mm PUnit) (pdir : Nat) :
    Nat → Nat → Nat → Nat → Nat → Nat → Mm PUnit
  | 0, _, _, _, _, _ => pure ⟨⟩
  | fuel + 1, user, pa, buf, len, readLen =>
      if 0 < len then do
        move buf pa readLen
        let pa ← physicalAddr pdir (advance user readLen)
        copyPages move pdir fuel (advance user readLen) pa (buf + readLen) (len - readLen)
          (min pageSize (len - readLen))
      else pure ⟨⟩

/-- What the two functions have in common; a kernel thread has all its memory where the kernel has
it. -/
def copyUser (move : Nat → Nat → Nat → Mm PUnit) (pool : PcbPool) (pid : Pid) (user buf len : Nat) :
    Mm PUnit := do
  if ← isKernel pool pid then move buf user len
  else do
    let pdir := pool.pdir pid * pageSize
    let pa ← physicalAddr pdir user
    copyPages move pdir len user pa buf len (min (pageSize - user % 4096) len)

/-- `copy_from_kernel`. -/
def copyFromKernel (pool : PcbPool) (pid : Pid) (dest src len : Nat) : Mm PUnit :=
  copyUser (fun buf pa n => memcpy pa buf n) pool pid dest src len

/-- `copy_to_kernel`. -/
def copyToKernel (pool : PcbPool) (pid : Pid) (dest src len : Nat) : Mm PUnit :=
  copyUser (fun buf pa n => memcpy buf pa n) pool pid src dest len

/-! ### Strings of a process -/

/-- The inner loop of `strlen_user_string`, over the `n` bytes up to `page_end`: the length so far,
and whether the NUL was among them. -/
def scanChunk : Nat → Nat → Nat → Mm (Bool × Nat)
  | 0, _, len => pure (false, len)
  | n + 1, paAddr, len => do
      let c ← load8 paAddr
      if c = 0 then pure (true, len + 1) else scanChunk n (paAddr + 1) (len + 1)

/-- The outer loop. After as many turns as there are pages every address was looked at. -/
def scanPages (pdir : Nat) : Nat → Nat → Nat → Nat → Nat → Mm Nat
  | 0, _, _, _, _ => throw .hang
  | fuel + 1, virAddr, paAddr, n, len => do
      let (found, len) ← scanChunk n paAddr len
      if found then pure len
      else do
        let paAddr ← physicalAddr pdir virAddr
        scanPages pdir fuel (advance virAddr pageSize) paAddr pageSize len

/-- `strlen_user_string`. The address that goes on to the next page is made of the offset in the
page alone. -/
def strlenUserString (pool : PcbPool) (pid : Pid) (virAddr : Nat) : Mm Nat := do
  let pdir := pool.pdir pid * pageSize
  let paAddr ← physicalAddr pdir virAddr
  scanPages pdir 1048577 (advance (virAddr % 4096) pageSize) paAddr (pageSize - paAddr % 4096) 0

/-- `strcpy_to_kernel`. -/
def strcpyToKernel (pool : PcbPool) (pid : Pid) (dest src : Nat) : Mm PUnit := do
  let len ← strlenUserString pool pid src
  copyToKernel pool pid dest src len

end NjuOs.Memory
