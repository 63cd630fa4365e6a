/-
**Requests that only look.**

READ, LSEEK, DUP, LSDIR, CHDIR, the requests about descriptor tables, and OPEN without the flag to
create change the tables of vnodes, open files and processes. The part of the state a volume depends
on, `ground`, stays as it was whatever the records on the disk say (`handle_ground`): a walk gives
the buffer it takes from the pool back before it answers.
-/

import NjuOs.FileSystem.Volume
import NjuOs.FileSystem.SharedFile
import NjuOs.FileSystem.Tables

namespace NjuOs.FileSystem

open NjuOs.Lib

/-- A request that neither makes nor removes anything on the disk, whatever it finds there. -/
def Request.looks : Request → Prop
  | .open _ flag => flag ≠ 1
  | .read _ _ | .lseek _ _ _ | .dup _ | .lsdir _ | .chdir _ | .copyFdTable
      _ _ | .initFdTable _ => True
  | _ => False

section Looks

variable {inode : INode} {i j n : Nat} {r : Reading} {name path : List UInt8}
  {buf fuel src pid v e : Nat} {dir fd : Int} {junk : Junk}

theorem devReadBlock_ground {a : UInt32} : Keeps FmState.ground (devReadBlock a) :=
  .ite (.bind .get fun _ => .pure) .throw

theorem readTurn_ground {size : Int} {a : UInt32} : Keeps FmState.ground (readTurn size a r) :=
  .bind (.ite (.bind .get fun _ => .pure) .throw) fun _ => .pure

theorem readDirect_ground {minEnd : Int} :
    Keeps FmState.ground (readDirect inode minEnd fuel r) := by
  induction fuel generalizing r with
  | zero => exact .pure
  | succ fuel ih =>
      exact .ite (.bind (.ite .pure .throw) fun _ => .bind readTurn_ground fun _ => ih) .pure

theorem readLoop_ground {table : Nat → UInt32} {size minEnd : Int} :
    Keeps FmState.ground (readLoop table size minEnd fuel i r) := by
  induction fuel generalizing i r with
  | zero => exact .pure
  | succ fuel ih =>
      exact .ite (.bind (.ite .pure .throw) fun _ => .bind readTurn_ground fun _ => ih) .pure

theorem readTwo_ground {minEnd : Int} : Keeps FmState.ground (readTwo inode minEnd fuel i r) := by
  induction fuel generalizing i r with
  | zero => exact .pure
  | succ fuel ih =>
      exact .ite (.bind .get fun _ => .bind (.ite .pure .throw) fun _ =>
        .bind devReadBlock_ground fun _ =>
        .bind (.modify fun _ => rfl) fun _ => .bind readLoop_ground fun _ => ih) .pure

theorem readThreeInner_ground {minEnd : Int} :
    Keeps FmState.ground (readThreeInner inode i minEnd fuel j r) := by
  induction fuel generalizing j r with
  | zero => exact .pure
  | succ fuel ih =>
      exact .ite (.bind .get fun _ => .bind (.ite .pure .throw) fun _ =>
        .bind devReadBlock_ground fun _ =>
        .bind (.modify fun _ => rfl) fun _ => .bind readLoop_ground fun _ => ih) .pure

theorem readThree_ground {minEnd : Int} :
    Keeps FmState.ground (readThree inode minEnd fuel i r) := by
  induction fuel generalizing i r with
  | zero => exact .pure
  | succ fuel ih =>
      exact .ite (.bind .get fun _ => .bind (.ite .pure .throw) fun _ =>
        .bind devReadBlock_ground fun _ =>
        .bind (.modify fun _ => rfl) fun _ => .bind readThreeInner_ground fun _ => ih) .pure

theorem readData_ground {o len : Int} : Keeps FmState.ground (readData o inode len) := by
  have level0 : ∀ r, Keeps FmState.ground (readLevel0 inode r) :=
    fun _ => .ite readDirect_ground .pure
  have level1 : ∀ r, Keeps FmState.ground (readLevel1 inode r) := fun _ =>
    .ite (.bind devReadBlock_ground fun _ => .bind (.modify fun _ => rfl) fun _ =>
      readLoop_ground) .pure
  have level2 : ∀ r, Keeps FmState.ground (readLevel2 inode r) := fun _ =>
    .ite (.bind devReadBlock_ground fun _ => .bind (.modify fun _ => rfl) fun _ =>
      readTwo_ground) .pure
  have level3 : ∀ r, Keeps FmState.ground (readLevel3 inode r) := fun _ =>
    .ite (.bind devReadBlock_ground fun _ => .bind (.modify fun _ => rfl) fun _ =>
      readThree_ground) .pure
  exact .bind (level0 _) fun _ => .ite .pure (.bind (level1 _) fun _ => .ite .pure
    (.bind (level2 _) fun _ => .ite .pure (.bind (level3 _) fun _ => .pure)))

/-! ### Directories and paths -/

theorem sameName_ground {pool : Store} {p : Nat} : Keeps FmState.ground (sameName pool p name) := by
  induction name generalizing p with
  | nil => exact .ite .pure .throw
  | cons c cs ih => exact .ite (.ite ih .pure) .throw

theorem readIntoBuffer_ground {o len : Int} :
    Keeps FmState.ground (readIntoBuffer buf o inode len) :=
  .bind readData_ground fun _ => .bind (.modify fun _ => rfl) fun _ => .pure

theorem scanChunk_ground {p : Nat} {len : Int} :
    Keeps FmState.ground (scanChunk name fuel p len) := by
  induction fuel generalizing p len with
  | zero => exact .pure
  | succ fuel ih =>
      exact .ite (.bind .get fun _ => .bind sameName_ground fun _ => .ite .pure ih) .pure

theorem scanDir_ground {o : Int} : Keeps FmState.ground (scanDir name buf inode fuel o) := by
  induction fuel generalizing o with
  | zero => exact .pure
  | succ fuel ih =>
      refine .bind readIntoBuffer_ground fun _ =>
        .ite (.bind scanChunk_ground fun found => ?_) .pure
      cases found with
      | none => exact ih
      | some index => exact .pure

theorem poolString_ground {pool : Store} {p : Nat} :
    Keeps FmState.ground (poolString pool fuel p) := by
  induction fuel generalizing p with
  | zero => exact .throw
  | succ fuel ih => exact .ite (.ite .pure (.bind ih fun _ => .pure)) .throw

theorem listChunk_ground {p : Nat} {len : Int} : Keeps FmState.ground (listChunk fuel p len) := by
  induction fuel generalizing p len with
  | zero => exact .pure
  | succ fuel ih => exact .ite (.bind .get fun _ => .bind poolString_ground fun _ =>
      .bind ih fun _ => .pure) .pure

theorem listChunks_ground {o : Int} : Keeps FmState.ground (listChunks buf inode fuel o) := by
  induction fuel generalizing o with
  | zero => exact .pure
  | succ fuel ih =>
      exact .bind readIntoBuffer_ground fun _ =>
        .ite (.bind listChunk_ground fun _ => .bind ih fun _ => .pure) .pure

theorem readInodeFromDisk_ground {index : Int} : Keeps FmState.ground (readInodeFromDisk index) :=
  .ite (.bind .get fun _ => .pure) .throw

/-- A buffer is taken from the pool, and given back at the end. -/
theorem withBuffer_ground {α β : Type} {use : Nat → Fm α} {answer : Nat → α → Fm β}
    (uses : ∀ buf, Keeps FmState.ground (use buf))
    (ends : ∀ buf a s b s', answer buf a s = .ok b s' →
      s'.ground = { s with blockBufFlag := Function.update s.blockBufFlag buf false }.ground) :
    Keeps FmState.ground (getFreeBlockBuffer >>= fun found => match found with
      | none => throw .nullPointer
      | some buf => use buf >>= answer buf) := by
  intro s b s' run
  obtain ⟨found, s₁, taken, run⟩ := bind_eq_ok.mp run
  obtain ⟨_, _, got, taken⟩ := bind_eq_ok.mp taken
  obtain ⟨rfl, rfl⟩ := get_eq_ok.mp got
  cases search : (List.range 20).find? fun i => !s.blockBufFlag i with
  | none =>
      rw [search] at taken
      obtain ⟨rfl, rfl⟩ := pure_eq_ok.mp taken
      exact (throw_eq_ok.mp run).elim
  | some buf =>
      rw [search] at taken
      obtain ⟨_, _, stored, taken⟩ := bind_eq_ok.mp taken
      obtain rfl := set_eq_ok.mp stored
      obtain ⟨rfl, rfl⟩ := pure_eq_ok.mp taken
      obtain ⟨a, s₂, used, run⟩ := bind_eq_ok.mp run
      have kept := uses buf _ _ _ used
      have back := ends buf a s₂ b s' run
      have idle : s.blockBufFlag buf = false := by simpa using List.find?_some search
      simp only [SameView, FmState.ground, Prod.mk.injEq] at kept back ⊢
      obtain ⟨disk, inodes, inodeCursor, blocks, cursor, flags⟩ := back
      obtain ⟨disk', inodes', inodeCursor', blocks', cursor', flags'⟩ := kept
      refine ⟨disk.trans disk', inodes.trans inodes', inodeCursor.trans inodeCursor',
        blocks.trans blocks', cursor.trans cursor', ?_⟩
      rw [flags, flags', Function.update_idem, ← idle, Function.update_eq_self]

theorem readDirEntry_ground : Keeps FmState.ground (readDirEntry dir name) := by
  refine .bind readInodeFromDisk_ground fun inode =>
    withBuffer_ground (fun buf => scanDir_ground) fun buf found s b s' run => ?_
  dsimp only at run
  split at run
  · exact (throw_eq_ok.mp (bind_eq_ok.mp run).choose_spec.choose_spec.1).elim
  · obtain ⟨_, _, freed, run⟩ := bind_eq_ok.mp run
    obtain rfl := modify_eq_ok.mp freed
    obtain ⟨-, rfl⟩ := pure_eq_ok.mp run
    rfl

theorem lsdir_ground : Keeps FmState.ground (lsdir dir) := by
  refine .bind readInodeFromDisk_ground fun inode =>
    withBuffer_ground (fun buf => listChunks_ground) fun buf text s b s' run => ?_
  obtain ⟨_, _, freed, run⟩ := bind_eq_ok.mp run
  obtain rfl := modify_eq_ok.mp freed
  obtain ⟨-, rfl⟩ := pure_eq_ok.mp run
  rfl

theorem resolve_ground : Keeps FmState.ground (resolve fuel dir path) := by
  induction fuel generalizing dir path with
  | zero => exact .throw
  | succ fuel ih =>
      have cuts : Keeps FmState.ground (cut path) := by
        unfold cut
        split
        · exact .throw
        · exact .pure
      refine .bind cuts fun _ => .bind readDirEntry_ground fun found => ?_
      cases found with
      | none => exact .pure
      | some index => exact .ite .pure ih

theorem walkTo_ground : Keeps FmState.ground (walkTo dir path) := .ite .pure resolve_ground

/-! ### The handlers -/

theorem getFreeFileEntry_ground : Keeps FmState.ground getFreeFileEntry := by
  intro s e s' run
  obtain ⟨rest, -, rfl⟩ := getFreeFileEntry_cases run
  rfl

theorem modifyFile_ground {f : OpenFile → OpenFile} : Keeps FmState.ground (modifyFile e f) :=
  .modify fun _ => rfl

theorem modifyVnode_ground {f : Vnode → Vnode} : Keeps FmState.ground (modifyVnode v f) :=
  .modify fun _ => rfl

theorem modifyPcb_ground {f : Pcb → Pcb} : Keeps FmState.ground (modifyPcb pid f) :=
  .modify fun _ => rfl

theorem readInode_ground : Keeps FmState.ground (readInode dir path) := by
  refine .ite .pure (.bind resolve_ground fun found => ?_)
  cases found with
  | none => exact .pure
  | some index =>
      refine .bind (fun s v s' run => ?_) fun _ => .pure
      rcases openVnode_cases run with ⟨-, rfl⟩ | ⟨-, rest, -, rfl⟩ <;> rfl

theorem attach_ground : Keeps FmState.ground (attach src v) := by
  refine .bind getFreeFileEntry_ground fun _ => .bind modifyFile_ground fun _ => .bind .get fun _ =>
    .bind ?_ fun _ =>
    .bind modifyPcb_ground fun _ => .pure
  unfold freeFd
  split
  · exact .throw
  · exact .pure

theorem fmOpen_ground {flag : Int} (looks : flag ≠ 1) :
    Keeps FmState.ground (fmOpen junk src path flag) := by
  refine .bind fetchPcb_keeps fun pcb => .bind readInode_ground fun found => ?_
  cases found with
  | none =>
      rw [if_pos ⟨rfl, looks⟩]
      exact .pure
  | some v =>
      rw [if_neg fun both => Option.some_ne_none v both.1]
      exact .bind .pure fun _ => attach_ground

theorem copySlots_ground {child parent : Nat} :
    Keeps FmState.ground (copySlots child parent fuel) := by
  induction fuel with
  | zero => exact .pure
  | succ count ih =>
      refine .bind ih fun _ => .bind .get fun s => ?_
      cases (s.pcbs parent).fdTable count with
      | none => exact .pure
      | some e => exact .bind modifyFile_ground fun _ => modifyPcb_ground

theorem initFdTable_ground : Keeps FmState.ground (initFdTable src pid) :=
  .bind fetchPcb_keeps fun _ => .bind getFreeFileEntry_ground fun _ =>
  .bind modifyPcb_ground fun _ =>
    .bind getFreeFileEntry_ground fun _ => .bind modifyPcb_ground fun _ =>
    .bind getFreeFileEntry_ground fun _ =>
    .bind modifyPcb_ground fun _ => .bind .get fun _ => .bind modifyFile_ground fun _ =>
    .bind modifyVnode_ground fun _ =>
    .bind modifyFile_ground fun _ => .bind modifyVnode_ground fun _ =>
    .bind modifyFile_ground fun _ =>
    .bind modifyVnode_ground fun _ => .pure

theorem fmRead_ground {len : Int} : Keeps FmState.ground (fmRead junk src fd len) := by
  refine .bind fetchPcb_keeps fun _ => .bind fdSlot_keeps fun slot => ?_
  cases slot with
  | none => exact .pure
  | some e =>
      exact .bind .get fun _ => .bind .get fun _ => .ite
        (.bind readData_ground fun _ => .bind modifyFile_ground fun _ => .pure)
        (.bind ttyName_keeps fun _ => .pure)

theorem fmLseek_ground {offset whence : Int} :
    Keeps FmState.ground (fmLseek src fd offset whence) := by
  refine .bind fetchPcb_keeps fun _ => .bind fdSlot_keeps fun slot => ?_
  cases slot with
  | none => exact .pure
  | some e => exact .bind .get fun _ => .bind .get fun _ => .bind modifyFile_ground fun _ => .pure

theorem fmDup_ground : Keeps FmState.ground (fmDup src fd) := by
  intro s reply s' run
  rcases fmDup_cases run with ⟨-, rfl⟩ | ⟨e, minFd, -, -, -, rfl⟩ <;> rfl

theorem fmLsdir_ground : Keeps FmState.ground (fmLsdir src path) := by
  refine .bind fetchPcb_keeps fun _ => .bind walkTo_ground fun found => ?_
  cases found with
  | none => exact .pure
  | some dir => exact .bind lsdir_ground fun _ => .pure

theorem fmChdir_ground : Keeps FmState.ground (fmChdir src path) := by
  refine .bind fetchPcb_keeps fun _ => .ite .pure (.bind walkTo_ground fun found => ?_)
  cases found with
  | none => exact .pure
  | some dir =>
    exact .bind readInodeFromDisk_ground fun _ =>
      .ite .pure (.bind modifyPcb_ground fun _ => .pure)

/-- **A request that only looks** leaves the disk, the bitmaps and the pool as they were. -/
theorem handle_ground {request : Request} (looks : request.looks) :
    Keeps FmState.ground (handle junk src request) := by
  cases request with
  | «open» path flag => exact .map (fmOpen_ground looks)
  | read fd len => exact .map fmRead_ground
  | lseek fd offset whence => exact fmLseek_ground
  | dup fd => exact fmDup_ground
  | lsdir path => exact .map fmLsdir_ground
  | chdir path => exact .map fmChdir_ground
  | copyFdTable child parent =>
      exact .map (.bind fetchPcb_keeps fun _ => .bind fetchPcb_keeps fun _ =>
        .bind copySlots_ground fun _ => .pure)
  | initFdTable pid => exact .map initFdTable_ground
  | write fd buf => exact looks.elim
  | close fd => exact looks.elim
  | create path => exact looks.elim
  | delete path => exact looks.elim
  | dup2 fd newFd => exact looks.elim
  | mkdir path => exact looks.elim
  | rmdir path => exact looks.elim
  | exitFile pid => exact looks.elim

end Looks

end NjuOs.FileSystem
