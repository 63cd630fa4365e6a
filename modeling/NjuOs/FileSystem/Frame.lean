/-
**What the readers leave alone.**

Reading file data, scanning a directory and walking a path change the scratch index blocks and the
pool of block buffers, whatever the records on the disk say. `core` is the rest of the state.
-/

import NjuOs.FileSystem.Syscall

namespace NjuOs.FileSystem

open NjuOs.Lib

/-- The state without the scratch index blocks and the block buffers. -/
def FmState.core (s : FmState) : FmState :=
  { s with
    indexBlock1 := fun _ => 0
    indexBlock2 := fun _ => 0
    indexBlock3 := fun _ => 0
    blockBufArray := fun _ => 0
    blockBufFlag := fun _ => false }

theorem disk_of_core {s s' : FmState} (same : s'.core = s.core) : s'.disk = s.disk := by
  show s'.core.disk = s.core.disk
  rw [same]

/-! ### Reading data -/

section Data

variable {inode : INode} {i : Nat} {r : Reading}

theorem slot_core {j : Int} : Keeps FmState.core (inode.slot j) := .ite .pure .throw

theorem blockWord_core {table : Nat → UInt32} : Keeps FmState.core (blockWord table i) :=
  .ite .pure .throw

theorem devRead_core {a : UInt32} {len : Int} : Keeps FmState.core (devRead a len) :=
  .ite (.bind .get fun _ => .pure) .throw

theorem devReadBlock_core {a : UInt32} : Keeps FmState.core (devReadBlock a) :=
  .ite (.bind .get fun _ => .pure) .throw

theorem readTurn_core {size : Int} {a : UInt32} : Keeps FmState.core (readTurn size a r) :=
  .bind devRead_core fun _ => .pure

theorem readDirect_core {minEnd : Int} {fuel : Nat} :
    Keeps FmState.core (readDirect inode minEnd fuel r) := by
  induction fuel generalizing r with
  | zero => exact .pure
  | succ fuel ih => exact .ite (.bind slot_core fun _ => .bind readTurn_core fun _ => ih) .pure

theorem readLoop_core {table : Nat → UInt32} {size minEnd : Int} {fuel : Nat} :
    Keeps FmState.core (readLoop table size minEnd fuel i r) := by
  induction fuel generalizing i r with
  | zero => exact .pure
  | succ fuel ih => exact .ite (.bind blockWord_core fun _ => .bind readTurn_core fun _ => ih) .pure

theorem readTwo_core {minEnd : Int} {fuel : Nat} :
    Keeps FmState.core (readTwo inode minEnd fuel i r) := by
  induction fuel generalizing i r with
  | zero => exact .pure
  | succ fuel ih =>
      exact .ite (.bind .get fun _ => .bind blockWord_core fun _ => .bind devReadBlock_core fun _ =>
        .bind (.modify fun _ => rfl) fun _ => .bind readLoop_core fun _ => ih) .pure

theorem readThreeInner_core {j : Nat} {minEnd : Int} {fuel : Nat} :
    Keeps FmState.core (readThreeInner inode i minEnd fuel j r) := by
  induction fuel generalizing j r with
  | zero => exact .pure
  | succ fuel ih =>
      exact .ite (.bind .get fun _ => .bind blockWord_core fun _ => .bind devReadBlock_core fun _ =>
        .bind (.modify fun _ => rfl) fun _ => .bind readLoop_core fun _ => ih) .pure

theorem readThree_core {minEnd : Int} {fuel : Nat} :
    Keeps FmState.core (readThree inode minEnd fuel i r) := by
  induction fuel generalizing i r with
  | zero => exact .pure
  | succ fuel ih =>
      exact .ite (.bind .get fun _ => .bind blockWord_core fun _ => .bind devReadBlock_core fun _ =>
        .bind (.modify fun _ => rfl) fun _ => .bind readThreeInner_core fun _ => ih) .pure

theorem readData_core {o len : Int} : Keeps FmState.core (readData o inode len) := by
  have level0 : ∀ r, Keeps FmState.core (readLevel0 inode r) := fun _ => .ite readDirect_core .pure
  have level1 : ∀ r, Keeps FmState.core (readLevel1 inode r) := fun _ =>
    .ite (.bind devReadBlock_core fun _ => .bind (.modify fun _ => rfl) fun _ =>
      readLoop_core) .pure
  have level2 : ∀ r, Keeps FmState.core (readLevel2 inode r) := fun _ =>
    .ite (.bind devReadBlock_core fun _ => .bind (.modify fun _ => rfl) fun _ => readTwo_core) .pure
  have level3 : ∀ r, Keeps FmState.core (readLevel3 inode r) := fun _ =>
    .ite (.bind devReadBlock_core fun _ => .bind (.modify fun _ => rfl) fun _ =>
      readThree_core) .pure
  exact .bind (level0 _) fun _ => .ite .pure (.bind (level1 _) fun _ => .ite .pure
    (.bind (level2 _) fun _ => .ite .pure (.bind (level3 _) fun _ => .pure)))

end Data

/-! ### Directories and paths -/

section Dir

variable {inode : INode} {dir : Int} {name path : List UInt8} {buf fuel : Nat}

theorem sameName_core {pool : Store} {p : Nat} : Keeps FmState.core (sameName pool p name) := by
  induction name generalizing p with
  | nil => exact .ite .pure .throw
  | cons c cs ih => exact .ite (.ite ih .pure) .throw

theorem readIntoBuffer_core {o len : Int} : Keeps FmState.core (readIntoBuffer buf o inode len) :=
  .bind readData_core fun _ => .bind (.modify fun _ => rfl) fun _ => .pure

theorem scanChunk_core {p : Nat} {len : Int} : Keeps FmState.core (scanChunk name fuel p len) := by
  induction fuel generalizing p len with
  | zero => exact .pure
  | succ fuel ih =>
      exact .ite (.bind .get fun _ => .bind sameName_core fun _ => .ite .pure ih) .pure

theorem scanDir_core {o : Int} : Keeps FmState.core (scanDir name buf inode fuel o) := by
  induction fuel generalizing o with
  | zero => exact .pure
  | succ fuel ih =>
      refine .bind readIntoBuffer_core fun _ => .ite (.bind scanChunk_core fun found => ?_) .pure
      cases found with
      | none => exact ih
      | some index => exact .pure

theorem readInodeFromDisk_core {index : Int} : Keeps FmState.core (readInodeFromDisk index) :=
  .ite (.bind .get fun _ => .pure) .throw

theorem getFreeBlockBuffer_core : Keeps FmState.core getFreeBlockBuffer := by
  intro s a s' run
  obtain ⟨_, _, got, rest⟩ := bind_eq_ok.mp run
  obtain ⟨rfl, rfl⟩ := get_eq_ok.mp got
  cases free : (List.range 20).find? fun i => !s.blockBufFlag i with
  | none =>
      rw [free] at rest
      obtain ⟨_, rfl⟩ := pure_eq_ok.mp rest
      rfl
  | some buf =>
      rw [free] at rest
      obtain ⟨_, _, stored, rest⟩ := bind_eq_ok.mp rest
      rw [← (pure_eq_ok.mp rest).2, ← set_eq_ok.mp stored]
      rfl

theorem freeBlockBuffer_core : Keeps FmState.core (freeBlockBuffer buf) := .modify fun _ => rfl

theorem readDirEntry_core : Keeps FmState.core (readDirEntry dir name) := by
  refine .bind readInodeFromDisk_core fun _ => .bind getFreeBlockBuffer_core fun found => ?_
  cases found with
  | none => exact .throw
  | some buf =>
      exact .bind scanDir_core fun _ =>
        .ite (.bind .throw fun _ => .bind freeBlockBuffer_core fun _ => .pure)
        (.bind freeBlockBuffer_core fun _ => .pure)

theorem cut_core : Keeps FmState.core (cut path) := by
  unfold cut
  split
  · exact .throw
  · exact .pure

theorem resolve_core : Keeps FmState.core (resolve fuel dir path) := by
  induction fuel generalizing dir path with
  | zero => exact .throw
  | succ fuel ih =>
      refine .bind cut_core fun _ => .bind readDirEntry_core fun found => ?_
      cases found with
      | none => exact .pure
      | some index => exact .ite .pure ih

theorem poolString_core {pool : Store} {p : Nat} : Keeps FmState.core (poolString pool fuel p) := by
  induction fuel generalizing p with
  | zero => exact .throw
  | succ fuel ih => exact .ite (.ite .pure (.bind ih fun _ => .pure)) .throw

theorem listChunk_core {p : Nat} {len : Int} : Keeps FmState.core (listChunk fuel p len) := by
  induction fuel generalizing p len with
  | zero => exact .pure
  | succ fuel ih =>
      exact .ite (.bind .get fun _ => .bind poolString_core fun _ => .bind ih fun _ => .pure) .pure

theorem listChunks_core {o : Int} : Keeps FmState.core (listChunks buf inode fuel o) := by
  induction fuel generalizing o with
  | zero => exact .pure
  | succ fuel ih =>
      exact .bind readIntoBuffer_core fun _ =>
        .ite (.bind listChunk_core fun _ => .bind ih fun _ => .pure) .pure

theorem lsdir_core : Keeps FmState.core (lsdir dir) := by
  refine .bind readInodeFromDisk_core fun _ => .bind getFreeBlockBuffer_core fun found => ?_
  cases found with
  | none => exact .throw
  | some buf => exact .bind listChunks_core fun _ => .bind freeBlockBuffer_core fun _ => .pure

theorem walkTo_core : Keeps FmState.core (walkTo dir path) := .ite .pure resolve_core

end Dir

end NjuOs.FileSystem
