/-
**The bitmaps of blocks, inodes and frames.**

The file server and the memory manager hand out blocks, inodes and frames from three bitmaps in the
same way: a search from the place of the last one, round the bitmap, for an entry that is 0. A block
goes by its address on the disk, a frame by its address in memory.

`allocators_serve`: all three are allocators over a table of flags, and the number computed back
from an address is the one the address was made from.
-/

import NjuOs.FileSystem.Rules
import NjuOs.Lib.Allocator
import NjuOs.Memory.Manager

namespace NjuOs.Allocators

open NjuOs.Lib NjuOs.FileSystem NjuOs.Memory

/-! ### The tables -/

/-- The bitmap of the blocks, with its cursor. -/
def blockTable : Table FmState where
  used s := s.blockBitmap
  cursor s := s.blockBitIndex
  put u c s := { s with blockBitmap := u, blockBitIndex := c }
  used_put _ _ _ := rfl
  cursor_put _ _ _ := rfl
  put_put _ _ _ _ _ := rfl
  put_same _ := rfl

/-- The bitmap of the inodes, with its cursor. -/
def inodeTable : Table FmState where
  used s := s.inodeBitmap
  cursor s := s.inodeBitIndex
  put u c s := { s with inodeBitmap := u, inodeBitIndex := c }
  used_put _ _ _ := rfl
  cursor_put _ _ _ := rfl
  put_put _ _ _ _ _ := rfl
  put_same _ := rfl

/-- The bitmap of the page frames, with its cursor. -/
def pageTable : Table MemoryState where
  used s := s.pageBitmap
  cursor s := s.bitmapIdx
  put u c s := { s with pageBitmap := u, bitmapIdx := c }
  used_put _ _ _ := rfl
  cursor_put _ _ _ := rfl
  put_put _ _ _ _ _ := rfl
  put_same _ := rfl

/-- The address `get_free_block` makes from a number. -/
def blockAddr (i : Nat) : UInt32 := UInt32.ofNat (blockBase + i * blockSize)

/-- An inode goes by its number. -/
def inodeNumber (i : Nat) : Int := i

/-- The address `get_idle_page` makes from a number. -/
def pageAddr (i : Nat) : Nat := kernelMem + i * 4096

/-- The number `set_page_idle` makes from an address. -/
def pageIndex (page : Nat) : Nat := (page - kernelMem) / 4096

theorem isBlock_blockAddr {i : Nat} (inside : i < blockNum) : IsBlock (blockAddr i) i := by
  refine ⟨inside, ?_⟩
  unfold blockNum at inside
  show (UInt32.ofNat (82944 + i * 256)).toNat = _
  simp
  omega

theorem pageIndex_pageAddr (i : Nat) : pageIndex (pageAddr i) = i := by
  unfold pageIndex pageAddr
  omega

/-! ### One allocation and one release -/

theorem block_allocates : Allocates blockTable blockNum blockAddr getFreeBlock setBlockIdle where
  alloc s i search := by
    unfold getFreeBlock
    rw [run_bind run_get,
      show firstIdle s.blockBitmap blockNum blockNum s.blockBitIndex = some i from search]
    rfl
  release _ _ inside := setBlockIdle_isBlock (isBlock_blockAddr inside)

theorem inode_allocates :
    Allocates inodeTable inodeNum inodeNumber getFreeDiskInode releaseDiskInode where
  alloc s i search := by
    unfold getFreeDiskInode
    rw [run_bind run_get,
      show firstIdle s.inodeBitmap inodeNum inodeNum s.inodeBitIndex = some i from search]
    rfl
  release s i inside := by
    unfold releaseDiskInode
    rw [if_pos ⟨Int.natCast_nonneg i, Int.ofNat_lt.mpr inside⟩]
    rfl

theorem page_allocates : Allocates pageTable pageNum pageAddr getIdlePage setPageIdle where
  alloc s i search := by
    unfold getIdlePage
    rw [run_bind run_get,
      show firstIdle s.pageBitmap pageNum pageNum s.bitmapIdx = some i from search]
    rfl
  release s i inside := by
    have number : (pageAddr i - kernelMem) / 4096 = i := pageIndex_pageAddr i
    have behind : kernelMem ≤ pageAddr i := Nat.le_add_right ..
    unfold setPageIdle
    rw [number, if_pos ⟨behind, inside⟩]
    rfl

/-- **The three bitmaps are allocators**, and the numbers computed from addresses are the right
ones. -/
theorem allocators_serve :
    Serves blockTable blockNum blockAddr getFreeBlock setBlockIdle ∧
    Serves inodeTable inodeNum inodeNumber getFreeDiskInode releaseDiskInode ∧
    Serves pageTable pageNum pageAddr getIdlePage setPageIdle ∧
    (∀ i, i < blockNum → blockIndex (blockAddr i) = i) ∧ ∀ i, i < pageNum →
    pageIndex (pageAddr i) = i :=
  ⟨block_allocates.serves fun _ inside => (isBlock_blockAddr inside).blockIndex_eq,
    inode_allocates.serves fun i _ => Int.toNat_natCast i,
    page_allocates.serves fun i _ => pageIndex_pageAddr i,
    fun _ inside => (isBlock_blockAddr inside).blockIndex_eq, fun i _ => pageIndex_pageAddr i⟩

end NjuOs.Allocators
