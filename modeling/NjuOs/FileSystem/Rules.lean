/-
**What the backstage operations do.**

One rule for each operation of `State`: the equation of its successful run where it cannot fail, or
an outcome in the sense of `Ends`. Callers use these and never unfold the operation. `coarse` is
the part of the state that reading, writing and truncating file data leave alone.
-/

import NjuOs.FileSystem.BlockMap
import NjuOs.FileSystem.Data

namespace NjuOs.FileSystem

open NjuOs.Lib

/-! ### Machine arithmetic -/

theorem tmod_blockSize (n : Nat) : (n : Int).tmod (blockSize : Nat) = ((n % 256 : Nat) : Int) := by
  rw [← Int.ofNat_tmod]
  rfl

theorem tdiv_blockSize (n : Nat) : (n : Int).tdiv (blockSize : Nat) = ((n / 256 : Nat) : Int) := by
  rw [← Int.ofNat_tdiv]
  rfl

theorem ofInt_natCast (r : Nat) : UInt32.ofInt (r : Int) = UInt32.ofNat r := by
  apply UInt32.toNat_inj.mp
  simp [UInt32.ofInt]
  omega

theorem toNat_ofInt (x : Int) : (UInt32.ofInt x).toNat = (x % 4294967296).toNat := by
  simp only [UInt32.ofInt, UInt32.toNat_ofNat']
  omega

/-- An `int` comes back from the word it is stored in. -/
theorem toInt_ofInt {x : Int} (low : -2147483648 ≤ x) (high : x < 2147483648) :
    toInt (UInt32.ofInt x) = x := by
  unfold toInt
  rw [toNat_ofInt]
  split <;> omega

theorem ofInt_toInt (w : UInt32) : UInt32.ofInt (toInt w) = w := by
  have bound : w.toNat < 4294967296 := w.toNat_lt
  refine UInt32.toNat_inj.mp ?_
  rw [toNat_ofInt]
  unfold toInt
  split <;> omega

theorem toNat_add_offset {a : UInt32} {r : Nat} (fits : a.toNat + r < 4294967296) :
    (a + UInt32.ofInt (r : Int)).toNat = a.toNat + r := by
  rw [ofInt_natCast, UInt32.toNat_add]
  simp
  omega

/-! ### The states the operations lead to -/

/-- Block `b` taken. -/
def FmState.take (s : FmState) (b : Nat) : FmState :=
  { s with blockBitmap := Function.update s.blockBitmap b true, blockBitIndex := b }

/-- Block `b` given back. -/
def FmState.drop (s : FmState) (b : Nat) : FmState :=
  { s with blockBitmap := Function.update s.blockBitmap b false }

/-- Bytes stored at `x`. -/
def FmState.put (s : FmState) (x : Nat) (bytes : List UInt8) : FmState :=
  { s with disk := s.disk.write x bytes }

/-- An index block stored at `x`. -/
def FmState.putTable (s : FmState) (x : Nat) (words : Nat → UInt32) : FmState :=
  { s with disk := s.disk.writeWords x 64 words }

/-- A scratch index block loaded. -/
def FmState.scratch1 (s : FmState) (words : Nat → UInt32) : FmState :=
  { s with indexBlock1 := words }

/-- The second scratch index block holds these words. -/
def FmState.scratch2 (s : FmState) (words : Nat → UInt32) : FmState :=
  { s with indexBlock2 := words }

/-! ### The driver -/

section Driver

variable {s : FmState}

theorem devRead_ok {a : UInt32} {n : Nat} (fits : a.toNat + n < 4194304) :
    devRead a n s = .ok (s.disk.read a.toNat n) s := by
  unfold devRead
  rw [if_pos (by unfold ramdiskSize; omega)]
  rfl

theorem devWrite_ok {a : UInt32} {bytes : List UInt8} (fits : a.toNat + bytes.length < 4194304) :
    devWrite a bytes s = .ok () (s.put a.toNat bytes) := by
  unfold devWrite
  rw [if_pos (by unfold ramdiskSize; omega)]
  rfl

theorem devReadBlock_ok {a : UInt32} (fits : a.toNat + 256 < 4194304) :
    devReadBlock a s = .ok (fun i => s.disk.word (a.toNat + 4 * i)) s := by
  unfold devReadBlock
  rw [if_pos (by unfold ramdiskSize blockSize; omega)]
  rfl

theorem devWriteBlock_ok {a : UInt32} {words : Nat → UInt32} (fits : a.toNat + 256 < 4194304) :
    devWriteBlock a words s = .ok () (s.putTable a.toNat words) := by
  unfold devWriteBlock
  rw [if_pos (by unfold ramdiskSize blockSize; omega)]
  rfl

/-- A block of the disk lies inside the ramdisk. -/
theorem IsBlock.fits {a : UInt32} {b : Nat} (block : IsBlock a b) : a.toNat + 512 < 4194304 := by
  have := block.1
  have := block.2
  omega

theorem slot_ok {inode : INode} {i : Nat} (small : i < 15) :
    inode.slot i s = .ok (inode.index (Fin.ofNat 15 i)) s := by
  unfold INode.slot
  rw [if_pos (by omega)]
  rfl

theorem setSlot_ok {inode : INode} {i : Nat} (small : i < 15) (block : UInt32) :
    inode.setSlot i block s
      = .ok { inode with index := Function.update inode.index (Fin.ofNat 15 i) block } s := by
  unfold INode.setSlot
  rw [if_pos (by omega)]
  rfl

theorem blockWord_ok {table : Nat → UInt32} {i : Nat} (small : i < 64) :
    blockWord table i s = .ok (table i) s := by
  unfold blockWord
  rw [if_pos small]
  rfl

/-- Entry `i` of a table set. -/
def Table.put (t : Table) (i : Nat) (block : UInt32) : Table where
  words := Function.update t.words i block
  dirty := true

theorem tableSet_ok {t : Table} {i : Nat} (small : i < 64) (block : UInt32) :
    t.set i block s = .ok (t.put i block) s := by
  unfold Table.set
  rw [if_pos small]
  rfl

end Driver

/-! ### The block allocator -/

theorem getFreeBlock_ends {s : FmState} (cursor : s.blockBitIndex < 4096) :
    Ends getFreeBlock s
      (fun a s' => ∃ b, IsBlock a b ∧ s.blockBitmap b = false ∧ s' = s.take b)
      (fun e _ => e = .hang ∧ idleCount s.blockBitmap 4096 = 0) := by
  unfold getFreeBlock
  refine Ends.bind (Ends.get ?_)
  cases found : firstIdle s.blockBitmap blockNum blockNum s.blockBitIndex with
  | none =>
      refine Ends.throw ⟨rfl, ?_⟩
      by_contra some
      obtain ⟨b, member⟩ := Finset.card_pos.mp (Nat.pos_of_ne_zero some)
      simp only [Finset.mem_filter, Finset.mem_range, Bool.not_eq_true] at member
      have seen := firstIdle_isSome (n := 4096) cursor member.1 member.2
      rw [show firstIdle s.blockBitmap 4096 4096 s.blockBitIndex = none from found] at seen
      exact absurd seen (by simp)
  | some b =>
      have inside : b < 4096 := firstIdle_lt (n := 4096) cursor found
      refine Ends.bind (Ends.set (Ends.pure ⟨b, ⟨inside, ?_⟩, firstIdle_idle found, rfl⟩))
      show (UInt32.ofNat (82944 + b * 256)).toNat = _
      simp
      omega

/-- The number `set_block_idle` computes for an address. -/
def blockIndex (a : UInt32) : Nat := (a - UInt32.ofNat blockBase).toNat / blockSize

theorem IsBlock.blockIndex_eq {a : UInt32} {b : Nat} (block : IsBlock a b) : blockIndex a = b := by
  have start := block.2
  have small := block.1
  have base : (UInt32.ofNat blockBase).toNat = 82944 := rfl
  unfold blockIndex
  rw [UInt32.toNat_sub_of_le _ _ (UInt32.le_iff_toNat_le.mpr (by omega)), base]
  unfold blockSize
  omega

/-- Clearing the flag an address leads to, when that is inside the bitmap. -/
theorem setBlockIdle_ok {s : FmState} {a : UInt32} (inside : blockIndex a < 4096) :
    setBlockIdle a s = .ok () (s.drop (blockIndex a)) := by
  unfold setBlockIdle
  rw [if_pos (show (a - UInt32.ofNat blockBase).toNat / blockSize < blockNum from inside)]
  rfl

theorem setBlockIdle_isBlock {s : FmState} {a : UInt32} {b : Nat} (block : IsBlock a b) :
    setBlockIdle a s = .ok () (s.drop b) := by
  rw [setBlockIdle_ok (by rw [block.blockIndex_eq]; exact block.1), block.blockIndex_eq]

theorem setBlockIdle_error {s : FmState} {a : UInt32} (outside : 4096 ≤ blockIndex a) :
    setBlockIdle a s = .error .outOfBounds s := by
  unfold setBlockIdle
  rw [if_neg (show ¬ (a - UInt32.ofNat blockBase).toNat / blockSize < blockNum
    from Nat.not_lt.mpr outside)]
  rfl

/-! ### What file data does not touch -/

/-- The state without the disk, the block bitmap with its cursor and the scratch index blocks. -/
def FmState.coarse (s : FmState) : FmState :=
  { s with
    disk := fun _ => 0
    blockBitmap := fun _ => false
    blockBitIndex := 0
    indexBlock1 := fun _ => 0
    indexBlock2 := fun _ => 0
    indexBlock3 := fun _ => 0 }

/-- A state with the same rest is the same state with other data. -/
theorem FmState.eq_of_coarse {s s' : FmState} (same : s'.coarse = s.coarse) :
    s' = { s with
      disk := s'.disk
      blockBitmap := s'.blockBitmap
      blockBitIndex := s'.blockBitIndex
      indexBlock1 := s'.indexBlock1
      indexBlock2 := s'.indexBlock2
      indexBlock3 := s'.indexBlock3 } := by
  cases s
  cases s'
  simp only [FmState.coarse, FmState.mk.injEq] at same ⊢
  tauto

/-- The image a state shows of an inode. -/
def FmState.image (s : FmState) (inode : INode) : Image := ⟨s.disk, inode.index, s.blockBitmap⟩

end NjuOs.FileSystem
