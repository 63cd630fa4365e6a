/-
**What the writers leave alone.**

Writing and truncating file data, and everything that works on directories, changes the disk, the
two bitmaps with their cursors, the scratch index blocks and the pool of block buffers. The vnode
table, the open-file table and the descriptor tables stay as they are, and the cursors stay inside
their bitmaps, whatever the records on the disk say. `OnDisk` is this relation between two states.
-/

import NjuOs.FileSystem.Frame

namespace NjuOs.FileSystem

open NjuOs.Lib

/-- The in-memory tables: the state without the disk, the bitmaps and the buffers. -/
def FmState.tables (s : FmState) : FmState :=
  { s with
    disk := fun _ => 0
    inodeBitmap := fun _ => false
    inodeBitIndex := 0
    blockBitmap := fun _ => false
    blockBitIndex := 0
    indexBlock1 := fun _ => 0
    indexBlock2 := fun _ => 0
    indexBlock3 := fun _ => 0
    blockBufArray := fun _ => 0
    blockBufFlag := fun _ => false }

/-- A state with the same tables is the same state with another disk. -/
theorem FmState.eq_of_tables {s s' : FmState} (same : s'.tables = s.tables) :
    s' = { s with
      disk := s'.disk
      inodeBitmap := s'.inodeBitmap
      inodeBitIndex := s'.inodeBitIndex
      blockBitmap := s'.blockBitmap
      blockBitIndex := s'.blockBitIndex
      indexBlock1 := s'.indexBlock1
      indexBlock2 := s'.indexBlock2
      indexBlock3 := s'.indexBlock3
      blockBufArray := s'.blockBufArray
      blockBufFlag := s'.blockBufFlag } := by
  cases s
  cases s'
  simp only [FmState.tables, FmState.mk.injEq] at same ⊢
  tauto

/-- The cursors are inside their bitmaps. -/
structure Cursors (s : FmState) : Prop where
  block : s.blockBitIndex < 4096
  inode : s.inodeBitIndex < 1024

/-- **The in-memory tables are the same, and the cursors stay inside.** -/
structure OnDisk (s s' : FmState) : Prop where
  tables : s'.tables = s.tables
  cursors : Cursors s → Cursors s'

instance : Std.Refl OnDisk := ⟨fun _ => ⟨rfl, id⟩⟩

instance : IsTrans FmState OnDisk :=
  ⟨fun _ _ _ first second =>
    ⟨second.tables.trans first.tables, fun inside => second.cursors (first.cursors inside)⟩⟩

/-- A step that leaves the cursors alone as well. -/
theorem OnDisk.of_same {s s' : FmState} (tables : s'.tables = s.tables)
    (block : s'.blockBitIndex = s.blockBitIndex) (inode : s'.inodeBitIndex = s.inodeBitIndex) :
    OnDisk s s' :=
  ⟨tables, fun inside => ⟨block ▸ inside.block, inode ▸ inside.inode⟩⟩

/-- What changes only the buffers is on the disk's side. -/
theorem OnDisk.of_core {s s' : FmState} (same : s'.core = s.core) : OnDisk s s' := by
  have tables : s'.core.tables = s.core.tables := congrArg _ same
  have block : s'.core.blockBitIndex = s.core.blockBitIndex := congrArg _ same
  have inode : s'.core.inodeBitIndex = s.core.inodeBitIndex := congrArg _ same
  exact .of_same tables block inode

theorem onDisk_of_core {α : Type} {x : Fm α} (keeps : Keeps FmState.core x) : Moves OnDisk x :=
  keeps.mono fun _ _ => OnDisk.of_core

/-! ### The driver and the allocators -/

section Backstage

variable {a : UInt32} {index : Int}

theorem devWrite_onDisk {bytes : List UInt8} : Moves OnDisk (devWrite a bytes) :=
  .ite (.modify fun _ => .of_same rfl rfl rfl) .throw

theorem devWriteBlock_onDisk {words : Nat → UInt32} : Moves OnDisk (devWriteBlock a words) :=
  .ite (.modify fun _ => .of_same rfl rfl rfl) .throw

theorem writeInodeToDisk_onDisk {inode : INode} : Moves OnDisk (writeInodeToDisk index inode) :=
  .ite (.modify fun _ => .of_same rfl rfl rfl) .throw

theorem setBlockIdle_onDisk : Moves OnDisk (setBlockIdle a) :=
  .ite (.modify fun _ => .of_same rfl rfl rfl) .throw

theorem releaseDiskInode_onDisk : Moves OnDisk (releaseDiskInode index) :=
  .ite (.modify fun _ => .of_same rfl rfl rfl) .throw

theorem getFreeBlock_onDisk : Moves OnDisk getFreeBlock := by
  intro s a s' run
  obtain ⟨_, _, got, run⟩ := bind_eq_ok.mp run
  obtain ⟨rfl, rfl⟩ := get_eq_ok.mp got
  cases found : firstIdle s.blockBitmap blockNum blockNum s.blockBitIndex with
  | none =>
      rw [found] at run
      exact (throw_eq_ok.mp run).elim
  | some b =>
      rw [found] at run
      obtain ⟨_, s₁, stored, run⟩ := bind_eq_ok.mp run
      obtain ⟨_, rfl⟩ := pure_eq_ok.mp run
      obtain rfl := set_eq_ok.mp stored
      exact ⟨rfl, fun inside => ⟨firstIdle_lt inside.block found, inside.inode⟩⟩

theorem getFreeDiskInode_onDisk : Moves OnDisk getFreeDiskInode := by
  intro s n s' run
  obtain ⟨_, _, got, run⟩ := bind_eq_ok.mp run
  obtain ⟨rfl, rfl⟩ := get_eq_ok.mp got
  cases found : firstIdle s.inodeBitmap inodeNum inodeNum s.inodeBitIndex with
  | none =>
      rw [found] at run
      exact (throw_eq_ok.mp run).elim
  | some b =>
      rw [found] at run
      obtain ⟨_, s₁, stored, run⟩ := bind_eq_ok.mp run
      obtain ⟨_, rfl⟩ := pure_eq_ok.mp run
      obtain rfl := set_eq_ok.mp stored
      exact ⟨rfl, fun inside => ⟨inside.block, firstIdle_lt inside.inode found⟩⟩

end Backstage

/-! ### `write_data` -/

section Write

variable {w : Writing} {t : Table} {i fuel : Nat} {a : UInt32} {first stop : Int}

theorem setSlot_onDisk {inode : INode} {j : Int} : Moves OnDisk (inode.setSlot j a) :=
  .ite .pure .throw

theorem tableSet_onDisk : Moves OnDisk (t.set i a) := .ite .pure .throw

theorem tableStore_onDisk : Moves OnDisk (t.store a) := .ite devWriteBlock_onDisk .pure

theorem writeTurn_onDisk : Moves OnDisk (writeTurn a w) := .bind devWrite_onDisk fun _ => .pure

theorem openDirect_onDisk : Moves OnDisk (openDirect w) :=
  .ite (.bind getFreeBlock_onDisk fun _ => setSlot_onDisk) .pure

theorem writeDirect_onDisk : Moves OnDisk (writeDirect fuel w) := by
  induction fuel generalizing w with
  | zero => exact .pure
  | succ fuel ih =>
      exact .ite (.bind openDirect_onDisk fun _ => .bind (onDisk_of_core slot_core) fun _ =>
        .bind writeTurn_onDisk fun _ => ih) .pure

theorem writeLoop_onDisk : Moves OnDisk (writeLoop stop fuel i t w) := by
  induction fuel generalizing i t w with
  | zero => exact .pure
  | succ fuel ih =>
      refine .ite (.ite ?_ ?_) .pure
      · exact .bind getFreeBlock_onDisk fun _ => .bind tableSet_onDisk fun _ =>
          .bind writeTurn_onDisk fun _ => ih
      · exact .bind (onDisk_of_core blockWord_core) fun _ => .bind writeTurn_onDisk fun _ => ih

theorem openTable_onDisk {slot : Fin 15} : Moves OnDisk (openTable first slot w) :=
  .ite (.bind getFreeBlock_onDisk fun _ => .bind setSlot_onDisk fun _ => .bind .get fun _ => .pure)
    (.bind (onDisk_of_core devReadBlock_core) fun _ => .pure)

theorem openEntry_onDisk {scratch : FmState → Nat → UInt32} :
    Moves OnDisk (openEntry scratch first i t w) :=
  .ite (.bind getFreeBlock_onDisk fun _ => .bind tableSet_onDisk fun _ => .bind .get fun _ => .pure)
    (.bind (onDisk_of_core blockWord_core) fun _ => .bind (onDisk_of_core devReadBlock_core)
      fun _ => .pure)

theorem openLast_onDisk : Moves OnDisk (openLast w) :=
  .ite (.bind getFreeBlock_onDisk fun _ => .bind setSlot_onDisk fun _ => .bind .get fun _ => .pure)
    (.bind (onDisk_of_core devReadBlock_core) fun _ => .pure)

/-- The scratch copy kept and the index block written back. -/
theorem settle_onDisk {α : Type} {g : FmState → FmState} {rest : Fm α}
    (buffer : ∀ s, OnDisk s (g s)) (onward : Moves OnDisk rest) :
    Moves OnDisk (do modify g; t.store a; rest) :=
  .bind (.modify buffer) fun _ => .bind tableStore_onDisk fun _ => onward

theorem writeLevel1_onDisk : Moves OnDisk (writeLevel1 w) :=
  .ite (.bind openTable_onDisk fun _ => .bind writeLoop_onDisk fun _ =>
    settle_onDisk (fun _ => .of_same rfl rfl rfl) .pure) .pure

theorem writeTwo_onDisk : Moves OnDisk (writeTwo fuel i t w) := by
  induction fuel generalizing i t w with
  | zero => exact .pure
  | succ fuel ih =>
      exact .ite (.bind openEntry_onDisk fun _ => .bind writeLoop_onDisk fun _ =>
        settle_onDisk (fun _ => .of_same rfl rfl rfl) ih) .pure

theorem writeLevel2_onDisk : Moves OnDisk (writeLevel2 w) :=
  .ite (.bind openTable_onDisk fun _ => .bind writeTwo_onDisk fun _ =>
    settle_onDisk (fun _ => .of_same rfl rfl rfl) .pure) .pure

theorem writeThreeInner_onDisk {j : Nat} : Moves OnDisk (writeThreeInner j stop fuel i t w) := by
  induction fuel generalizing i t w with
  | zero => exact .pure
  | succ fuel ih =>
      exact .ite (.bind openEntry_onDisk fun _ => .bind writeLoop_onDisk fun _ =>
        settle_onDisk (fun _ => .of_same rfl rfl rfl) ih) .pure

theorem writeThree_onDisk : Moves OnDisk (writeThree fuel i t w) := by
  induction fuel generalizing i t w with
  | zero => exact .pure
  | succ fuel ih =>
      exact .ite (.bind openEntry_onDisk fun _ => .bind writeThreeInner_onDisk fun _ =>
        settle_onDisk (fun _ => .of_same rfl rfl rfl) ih) .pure

theorem writeLevel3_onDisk : Moves OnDisk (writeLevel3 w) :=
  .ite (.bind openLast_onDisk fun _ => .bind writeThree_onDisk fun _ =>
    settle_onDisk (fun _ => .of_same rfl rfl rfl) .pure) .pure

theorem writeData_onDisk {o : Int} {inode : INode} {buf : List UInt8} :
    Moves OnDisk (writeData o inode buf) :=
  .bind writeDirect_onDisk fun _ => .bind writeLevel1_onDisk fun _ =>
  .bind writeLevel2_onDisk fun _ =>
    .bind writeLevel3_onDisk fun _ => .pure

end Write

/-! ### `release_block` -/

section Release

variable {inode : INode} {i fuel : Nat} {o stop : Int}

theorem releaseIndex_onDisk {first : Int} {a : UInt32} : Moves OnDisk (releaseIndex o first a) :=
  .ite setBlockIdle_onDisk .pure

theorem releaseLoop_onDisk {table : Nat → UInt32} :
    Moves OnDisk (releaseLoop table stop fuel i o) := by
  induction fuel generalizing i o with
  | zero => exact .pure
  | succ fuel ih =>
      exact .ite (.bind (onDisk_of_core blockWord_core) fun _ =>
        .ite (.bind setBlockIdle_onDisk fun _ => ih) ih) .pure

/-- An index block loaded into a scratch copy. -/
theorem load_onDisk {α : Type} {a : UInt32} {g : (Nat → UInt32) → FmState → FmState}
    {rest : (Nat → UInt32) → Fm α} (buffer : ∀ words s, OnDisk s (g words s))
    (onward : ∀ words, Moves OnDisk (rest words)) :
    Moves OnDisk (do let words ← devReadBlock a; modify (g words); rest words) :=
  .bind (onDisk_of_core devReadBlock_core) fun words => .bind (.modify (buffer words))
  fun _ => onward words

theorem releaseTwo_onDisk : Moves OnDisk (releaseTwo inode stop fuel i o) := by
  induction fuel generalizing i o with
  | zero => exact .pure
  | succ fuel ih =>
      exact .ite (.bind .get fun _ => .bind (onDisk_of_core blockWord_core) fun _ =>
        load_onDisk (fun _ _ => .of_same rfl rfl rfl) fun _ => .bind releaseIndex_onDisk fun _ =>
          .bind releaseLoop_onDisk fun _ => ih) .pure

theorem releaseThreeInner_onDisk {j : Nat} {first : Int} :
    Moves OnDisk (releaseThreeInner inode j first stop fuel i o) := by
  induction fuel generalizing i o with
  | zero => exact .pure
  | succ fuel ih =>
      exact .ite (.bind .get fun _ => .bind (onDisk_of_core blockWord_core) fun _ =>
        load_onDisk (fun _ _ => .of_same rfl rfl rfl) fun _ => .bind releaseIndex_onDisk fun _ =>
          .bind releaseLoop_onDisk fun _ => ih) .pure

theorem releaseThree_onDisk : Moves OnDisk (releaseThree inode fuel i o) := by
  induction fuel generalizing i o with
  | zero => exact .pure
  | succ fuel ih =>
      exact .ite (.bind .get fun _ => .bind (onDisk_of_core blockWord_core) fun _ =>
        load_onDisk (fun _ _ => .of_same rfl rfl rfl) fun _ => .bind releaseIndex_onDisk fun _ =>
          .bind releaseThreeInner_onDisk fun _ => ih) .pure

theorem releaseBlock_onDisk : Moves OnDisk (releaseBlock inode o) := by
  have level0 : ∀ o, Moves OnDisk (releaseLevel0 inode o) := fun _ =>
    .ite (.ite (.bind (onDisk_of_core slot_core) fun _ => .bind setBlockIdle_onDisk fun _ =>
      .pure) .pure) .pure
  have level1 : ∀ o, Moves OnDisk (releaseLevel1 inode o) := fun _ =>
    .ite (load_onDisk (fun _ _ => .of_same rfl rfl rfl) fun _ => .bind releaseIndex_onDisk fun _ =>
      releaseLoop_onDisk) .pure
  have level2 : ∀ o, Moves OnDisk (releaseLevel2 inode o) := fun _ =>
    .ite (load_onDisk (fun _ _ => .of_same rfl rfl rfl) fun _ => .bind releaseIndex_onDisk fun _ =>
      releaseTwo_onDisk) .pure
  have level3 : ∀ o, Moves OnDisk (releaseLevel3 inode o) := fun _ =>
    .ite (load_onDisk (fun _ _ => .of_same rfl rfl rfl) fun _ => .bind releaseIndex_onDisk fun _ =>
      releaseThree_onDisk) .pure
  exact .bind (level0 _) fun _ => .bind (level1 _) fun _ => .bind (level2 _) fun _ =>
    .bind (level3 _) fun _ => .pure

end Release

/-! ### Directories -/

section Dir

variable {junk : Junk} {inode : INode} {dir index : Int} {name path : List UInt8} {buf fuel : Nat}

theorem addInodeIntoDir_onDisk : Moves OnDisk (addInodeIntoDir junk dir name index) :=
  .bind (onDisk_of_core readInodeFromDisk_core) fun _ => .ite .throw
    (.bind writeData_onDisk fun _ => writeInodeToDisk_onDisk)

theorem removeAddr_onDisk {o : Int} : Moves OnDisk (removeAddr inode o) := by
  have word : ∀ {table : Nat → UInt32} {i : Nat}, Moves OnDisk (blockWord table i) :=
    fun {_ _} => onDisk_of_core blockWord_core
  refine .ite (onDisk_of_core slot_core) (.ite ?_ (.ite ?_ ?_))
  · exact load_onDisk (fun _ _ => .of_same rfl rfl rfl) fun _ => word
  · exact load_onDisk (fun _ _ => .of_same rfl rfl rfl) fun _ => .bind word fun _ =>
      load_onDisk (fun _ _ => .of_same rfl rfl rfl) fun _ => word
  · exact load_onDisk (fun _ _ => .of_same rfl rfl rfl) fun _ => .bind .get fun _ =>
      .bind word fun _ =>
      load_onDisk (fun _ _ => .of_same rfl rfl rfl) fun _ => .bind word fun _ =>
        load_onDisk (fun _ _ => .of_same rfl rfl rfl) fun _ => word

theorem overwrite_onDisk {o : Int} {bytes : List UInt8} :
    Moves OnDisk (overwrite inode fuel o bytes) := by
  induction fuel generalizing o bytes with
  | zero => exact .pure
  | succ fuel ih =>
      exact .ite (.bind removeAddr_onDisk fun _ => .bind devWrite_onDisk fun _ => ih) .pure

theorem moveLastEntry_onDisk {lastDir : Nat → UInt8} {position : Nat} :
    Moves OnDisk (moveLastEntry lastDir inode position) :=
  .bind (onDisk_of_core readData_core) fun _ => .bind releaseBlock_onDisk fun _ => overwrite_onDisk

theorem removeChunk_core {p position : Nat} {len : Int} :
    Keeps FmState.core (removeChunk name fuel p len position) := by
  induction fuel generalizing p len position with
  | zero => exact .pure
  | succ fuel ih =>
      exact .ite (.bind .get fun _ => .bind sameName_core fun _ => .ite .pure ih) .pure

theorem removeScan_core {o : Int} {position : Nat} :
    Keeps FmState.core (removeScan name buf inode fuel o position) := by
  induction fuel generalizing o position with
  | zero => exact .throw
  | succ fuel ih =>
      refine .bind readIntoBuffer_core fun _ => .ite (.bind removeChunk_core fun found => ?_) .pure
      obtain ⟨position, left⟩ := found
      cases left with
      | none => exact .pure
      | some left => exact ih

theorem removeInodeFromDir_onDisk : Moves OnDisk (removeInodeFromDir junk dir name) := by
  refine .bind (onDisk_of_core readInodeFromDisk_core) fun _ =>
    .bind (onDisk_of_core getFreeBlockBuffer_core) fun buffer => ?_
  cases buffer with
  | none => exact .throw
  | some buf =>
      refine .bind (onDisk_of_core removeScan_core) fun place => ?_
      cases place with
      | none => exact onDisk_of_core freeBlockBuffer_core
      | some position =>
          exact .bind moveLastEntry_onDisk fun _ => .bind writeInodeToDisk_onDisk fun _ =>
            onDisk_of_core freeBlockBuffer_core

theorem deleteFileByInode_onDisk : Moves OnDisk (deleteFileByInode index inode) :=
  .bind releaseBlock_onDisk fun _ => releaseDiskInode_onDisk

theorem deleteChunk_onDisk {again : Int → INode → Fm Unit} (below : ∀ i n, Moves OnDisk (again i n))
    {p : Nat} {len : Int} : Moves OnDisk (deleteChunk again fuel p len) := by
  have name_onDisk :
    ∀ {pool : Store} {p : Nat} {name : List UInt8}, Moves OnDisk (sameName pool p name) :=
    fun {_ _ _} => onDisk_of_core sameName_core
  induction fuel generalizing p len with
  | zero => exact .pure
  | succ fuel ih =>
      exact .ite (.bind .get fun _ => .bind name_onDisk fun _ => .ite ih (.bind .get fun _ =>
        .bind name_onDisk fun _ => .ite ih (.bind .get fun _ =>
          .bind (onDisk_of_core readInodeFromDisk_core) fun _ => .bind (below _ _) fun _ => ih)))
          .pure

theorem deleteChunks_onDisk {again : Int → INode → Fm Unit}
    (below : ∀ i n, Moves OnDisk (again i n)) {o : Int} :
    Moves OnDisk (deleteChunks again buf inode fuel o) := by
  induction fuel generalizing o with
  | zero => exact .pure
  | succ fuel ih =>
      exact .bind (onDisk_of_core readIntoBuffer_core) fun _ =>
        .ite (.bind (deleteChunk_onDisk below) fun _ => ih) .pure

theorem deleteDirByInode_onDisk : Moves OnDisk (deleteDirByInode fuel index inode) := by
  induction fuel generalizing index inode with
  | zero => exact .throw
  | succ fuel ih =>
      refine .ite deleteFileByInode_onDisk
        (.bind (onDisk_of_core getFreeBlockBuffer_core) fun buffer => ?_)
      cases buffer with
      | none => exact .throw
      | some buf =>
          exact .bind (deleteChunks_onDisk fun _ _ => ih) fun _ =>
            .bind (onDisk_of_core freeBlockBuffer_core) fun _ => deleteFileByInode_onDisk

end Dir

/-! ### Paths -/

section Path

variable {junk : Junk} {dir index : Int} {name path : List UInt8} {fuel : Nat}

theorem newDir_onDisk : Moves OnDisk (newDir junk dir name) :=
  .bind getFreeDiskInode_onDisk fun _ => .bind writeInodeToDisk_onDisk fun _ =>
    .bind addInodeIntoDir_onDisk fun _ => .bind addInodeIntoDir_onDisk fun _ =>
      .bind addInodeIntoDir_onDisk fun _ => .pure

theorem enterDir_onDisk : Moves OnDisk (enterDir junk dir name) := by
  refine .bind (onDisk_of_core readDirEntry_core) fun found => ?_
  cases found with
  | none => exact newDir_onDisk
  | some index => exact .pure

theorem createDir_onDisk : Moves OnDisk (createDir junk fuel dir path) := by
  induction fuel generalizing dir path with
  | zero => exact .throw
  | succ fuel ih =>
      exact .bind (onDisk_of_core cut_core) fun _ => .bind enterDir_onDisk fun _ => .ite .pure ih

theorem deleteEntry_onDisk {isFile : Bool} :
    Moves OnDisk (deleteEntry junk isFile dir name index) :=
  .bind (onDisk_of_core readInodeFromDisk_core) fun _ => .ite .pure (.ite .pure
    (.bind deleteDirByInode_onDisk fun _ => .bind removeInodeFromDir_onDisk fun _ => .pure))

theorem deleteFile_onDisk {isFile flag : Bool} :
    Moves OnDisk (deleteFile junk isFile fuel flag dir path) := by
  induction fuel generalizing flag dir path with
  | zero => exact .throw
  | succ fuel ih =>
      refine .bind (onDisk_of_core cut_core) fun _ => .bind (onDisk_of_core readDirEntry_core)
        fun found => ?_
      cases found with
      | none => exact .pure
      | some index => exact .ite (.bind deleteEntry_onDisk fun _ => .ite ih .pure) ih

theorem createFile_onDisk : Moves OnDisk (createFile junk dir name none) :=
  .bind getFreeDiskInode_onDisk fun _ => .bind writeInodeToDisk_onDisk fun _ =>
    .bind addInodeIntoDir_onDisk fun _ => .pure

/-- A path that leads to an entry changes nothing; one that does not ends in making a file, behind
what it took to make the directories on the way. -/
theorem createLoop_cases {vnode : Option Nat} {s s' : FmState} {ret : Int}
    (run : createLoop junk vnode fuel dir path s = .ok ret s') :
    (ret = -1 ∧ s'.core = s.core) ∨
      (ret = 0 ∧ ∃ dir' name s₁, OnDisk s s₁ ∧ createFile junk dir' name vnode s₁ = .ok () s') := by
  induction fuel generalizing dir path s with
  | zero => exact (throw_eq_ok.mp run).elim
  | succ fuel ih =>
      obtain ⟨found, s₁, cutOff, run⟩ := bind_eq_ok.mp run
      obtain ⟨entry, s₂, looked, run⟩ := bind_eq_ok.mp run
      have same : s₂.core = s.core := (readDirEntry_core _ _ _ looked).trans (cut_core _ _ _ cutOff)
      have moved : OnDisk s s₂ :=
        Trans.trans (onDisk_of_core cut_core _ _ _ cutOff)
          (onDisk_of_core readDirEntry_core _ _ _ looked)
      cases entry with
      | some index =>
          dsimp only at run
          split at run
          · obtain ⟨rfl, rfl⟩ := pure_eq_ok.mp run
            exact .inl ⟨rfl, same⟩
          · rcases ih run with ⟨there, rest⟩ | ⟨made, dir', name, s₃, rest, file⟩
            · exact .inl ⟨there, rest.trans same⟩
            · exact .inr ⟨made, dir', name, s₃, Trans.trans moved rest, file⟩
      | none =>
          dsimp only at run
          split at run
          · obtain ⟨_, s₃, file, run⟩ := bind_eq_ok.mp run
            obtain ⟨rfl, rfl⟩ := pure_eq_ok.mp run
            exact .inr ⟨rfl, dir, found.name, s₂, moved, file⟩
          · obtain ⟨_, s₃, below, run⟩ := bind_eq_ok.mp run
            obtain ⟨rfl, rfl⟩ := pure_eq_ok.mp run
            unfold createBelow at below
            split at below
            · obtain ⟨dir', s₄, made, file⟩ := bind_eq_ok.mp below
              exact .inr ⟨rfl, dir', _, s₄, Trans.trans moved (createDir_onDisk _ _ _ made), file⟩
            · exact (throw_eq_ok.mp below).elim

theorem create_cases {vnode : Option Nat} {s s' : FmState} {ret : Int}
    (run : create junk dir path vnode s = .ok ret s') :
    (ret = -1 ∧ s'.core = s.core) ∨
      (ret = 0 ∧ ∃ dir' name s₁, OnDisk s s₁ ∧ createFile junk dir' name vnode s₁ = .ok () s') :=
  createLoop_cases run

theorem create_onDisk : Moves OnDisk (create junk dir path none) := by
  intro s ret s' run
  rcases create_cases run with ⟨_, same⟩ | ⟨_, dir', name, s₁, moved, file⟩
  · exact .of_core same
  · exact Trans.trans moved (createFile_onDisk _ _ _ file)

end Path

end NjuOs.FileSystem
