/-
**Types along a path.**

The six walkers of `fm_syscall.c` look the next component up in whatever inode the one before has
led to. Types are tested at the end of a path: CHDIR refuses a plain file, DELETE a directory and
RMDIR a plain file, and a refusal leaves the file system as it was, as does a path with a component
that is not found (`end_of_path`).
-/

import NjuOs.FileSystem.VnodeCache

namespace NjuOs.FileSystem

open NjuOs.Lib

/-- The inode number has a record on the disk, and its type is `type`. -/
def HasType (s : FmState) (n type : Int) : Prop :=
  (inodeAddr n).toNat + inodeSize < ramdiskSize ∧ (diskInode s.disk n).type = type

/-- A component of the path, as process `src` gives it, is not found. -/
def Missing (s : FmState) (src : Nat) (path : List UInt8) : Prop :=
  ∃ dir walked s₁, walkStart (s.pcbs src).currentDir path = (dir, walked) ∧ walked.head? ≠ some 0 ∧
    resolve walked.length dir walked s = .ok none s₁

/-- The handler ends well, answers `ret`, and leaves everything but the buffers as it was. -/
def Declines (x : Fm Reply) (s : FmState) (src : Nat) (ret : Int) : Prop :=
  ∃ s', x s = .ok { dest := src, ret } s' ∧ s'.core = s.core

section Walks

variable {s s₁ : FmState} {n dir : Int} {fuel : Nat} {path : List UInt8} {junk : Junk}
  {isFile : Bool}

theorem HasType.read {type : Int} (has : HasType s n type) (same : s₁.core = s.core) :
    readInodeFromDisk n s₁ = .ok (diskInode s.disk n) s₁ := by
  unfold readInodeFromDisk
  rw [if_pos has.1]
  show EStateM.Result.ok (diskInode s₁.disk n) s₁ = _
  rw [disk_of_core same]

/-- The turn of a walk that looks a component up. -/
theorem resolve_succ {found : Option Int} (run : resolve (fuel + 1) dir path s = .ok found s₁) :
    ∃ here s₂ s₃ entry, cut path s = .ok here s₂ ∧ readDirEntry dir here.name s₂ = .ok entry s₃ ∧
      ((entry = none ∧ found = none ∧ s₁ = s₃) ∨
        ∃ index, entry = some index ∧ ((here.last = true ∧ found = some index ∧ s₁ = s₃) ∨
          (here.last = false ∧ resolve fuel index here.rest s₃ = .ok found s₁))) := by
  obtain ⟨here, s₂, cut, run⟩ := bind_eq_ok.mp run
  obtain ⟨entry, s₃, looked, run⟩ := bind_eq_ok.mp run
  refine ⟨here, s₂, s₃, entry, cut, looked, ?_⟩
  cases entry with
  | none =>
      obtain ⟨rfl, rfl⟩ := pure_eq_ok.mp run
      exact .inl ⟨rfl, rfl, rfl⟩
  | some index =>
      refine .inr ⟨index, rfl, ?_⟩
      cases last : here.last with
      | true =>
          simp only [last, if_true] at run
          obtain ⟨rfl, rfl⟩ := pure_eq_ok.mp run
          exact .inl ⟨rfl, rfl, rfl⟩
      | false =>
          simp only [last, Bool.false_eq_true, if_false] at run
          exact .inr ⟨rfl, run⟩

/-- `_delete_file` walks as `read_inode` does. -/
theorem deleteFile_missing (walk : resolve fuel dir path s = .ok none s₁) :
    deleteFile junk isFile fuel false dir path s = .ok () s₁ := by
  induction fuel generalizing dir path s with
  | zero => exact (throw_eq_ok.mp walk).elim
  | succ fuel rest =>
      obtain ⟨here, s₂, s₃, entry, cut, looked,
        ⟨rfl, -, rfl⟩ | ⟨index, rfl, ⟨_, found, _⟩ | ⟨more, walk⟩⟩⟩ :=
        resolve_succ walk
      · unfold deleteFile
        rw [run_bind cut, run_bind looked]
        rfl
      · simp at found
      · unfold deleteFile
        rw [run_bind cut, run_bind looked]
        simp only [more, Bool.or_false, Bool.false_eq_true, if_false]
        exact rest walk

theorem deleteFile_refused (walk : resolve fuel dir path s = .ok (some n) s₁) {type : Int}
    (has : HasType s n type)
    (kind : (isFile = true ∧ type = dirType) ∨ (isFile = false ∧ type = plainType)) :
    deleteFile junk isFile fuel false dir path s = .ok () s₁ := by
  induction fuel generalizing dir path s with
  | zero => exact (throw_eq_ok.mp walk).elim
  | succ fuel rest =>
      have same := resolve_core _ _ _ walk
      obtain ⟨here, s₂, s₃, entry, cut, looked,
        ⟨_, none, _⟩ | ⟨index, rfl, ⟨last, found, rfl⟩ | ⟨more, walk'⟩⟩⟩ :=
        resolve_succ walk
      · simp at none
      · obtain rfl := Option.some.inj found
        have entry : deleteEntry junk isFile dir here.name n s₁ = .ok false s₁ := by
          unfold deleteEntry
          rw [run_bind (has.read same)]
          have is := has.2
          rcases kind with ⟨rfl, rfl⟩ | ⟨rfl, rfl⟩
          · rw [if_pos ⟨rfl, is⟩]
            rfl
          · rw [if_neg (by simp), if_pos ⟨rfl, is⟩]
            rfl
        unfold deleteFile
        rw [run_bind cut, run_bind looked]
        simp only [last, Bool.or_true, if_true]
        rw [run_bind entry]
        rfl
      · unfold deleteFile
        rw [run_bind cut, run_bind looked]
        simp only [more, Bool.or_false, Bool.false_eq_true, if_false]
        have before : s₃.core = s.core :=
          (readDirEntry_core _ _ _ looked).trans (cut_core _ _ _ cut)
        refine rest walk' ⟨has.1, ?_⟩
        rw [disk_of_core before]
        exact has.2

end Walks

section Handlers

variable {s : FmState} {src : Nat} {path : List UInt8} {n : Int} {junk : Junk}

/-- CHDIR and LSDIR walk as `read_inode` does, when the path is not empty. -/
theorem walkTo_eq {currentDir dir : Int} {walked : List UInt8}
    (start : walkStart currentDir path = (dir, walked)) (some : walked.head? ≠ some 0) :
    walkTo currentDir path = resolve walked.length dir walked := by
  unfold walkTo
  rw [start]
  exact if_neg some

/-- A path that is empty behind the start is empty. -/
theorem head_ne_of_walkStart {currentDir dir : Int} {walked : List UInt8}
    (start : walkStart currentDir path = (dir, walked)) (some : walked.head? ≠ some 0) :
    path.head? ≠ Option.some 0 := by
  intro empty
  unfold walkStart at start
  rw [if_neg (by simp [empty])] at start
  obtain ⟨-, rfl⟩ := Prod.mk.inj start
  exact some empty

theorem fmChdir_plain (process : src < 50) (resolves : Resolves s src path n)
    (plain : HasType s n plainType) :
    Declines (fmChdir src path) s src (-1) := by
  obtain ⟨dir, walked, s₁, start, some, walk⟩ := resolves
  have same := resolve_core _ _ _ walk
  refine ⟨s₁, ?_, same⟩
  unfold fmChdir
  rw [run_bind (fetchPcb_ok process), if_neg (head_ne_of_walkStart start some),
    walkTo_eq start some, run_bind walk]
  show (readInodeFromDisk n >>= _) s₁ = _
  rw [run_bind (plain.read same), if_pos plain.2]
  rfl

theorem fmChdir_missing (process : src < 50) (missing : Missing s src path) :
    Declines (fmChdir src path) s src (-1) := by
  obtain ⟨dir, walked, s₁, start, some, walk⟩ := missing
  refine ⟨s₁, ?_, resolve_core _ _ _ walk⟩
  unfold fmChdir
  rw [run_bind (fetchPcb_ok process), if_neg (head_ne_of_walkStart start some),
    walkTo_eq start some, run_bind walk]
  rfl

theorem fmLsdir_missing (process : src < 50) (missing : Missing s src path) :
    Declines (fmLsdir src path) s src (-1) := by
  obtain ⟨dir, walked, s₁, start, some, walk⟩ := missing
  refine ⟨s₁, ?_, resolve_core _ _ _ walk⟩
  unfold fmLsdir
  rw [run_bind (fetchPcb_ok process), walkTo_eq start some, run_bind walk]
  rfl

theorem fmOpen_missing (process : src < 50) (missing : Missing s src path) {flag : Int}
    (other : flag ≠ 1) :
    Declines (fmOpen junk src path flag) s src (-1) := by
  obtain ⟨dir, walked, s₁, start, some, walk⟩ := missing
  refine ⟨s₁, ?_, resolve_core _ _ _ walk⟩
  have look : readInode dir walked s = .ok none s₁ := by
    unfold readInode
    rw [if_neg some, run_bind walk]
    rfl
  unfold fmOpen
  rw [run_bind (fetchPcb_ok process), start]
  show (readInode dir walked >>= _) s = _
  rw [run_bind look, if_pos ⟨rfl, other⟩]
  rfl

/-- DELETE and RMDIR, where the walk of `_delete_file` ends without a deletion. -/
theorem delete_declines (junk : Junk) (process : src < 50) {dir : Int} {walked : List UInt8}
    {s₁ : FmState} (start : walkStart (s.pcbs src).currentDir path = (dir, walked))
    (same : s₁.core = s.core) :
    (deleteFile junk true walked.length false dir walked s = .ok () s₁ →
      Declines (fmDeleteFile junk src path) s src 0) ∧
      (deleteFile junk false walked.length false dir walked s = .ok () s₁ →
        Declines (fmRmdir junk src path) s src 0) := by
  refine ⟨fun run => ⟨s₁, ?_, same⟩, fun run => ⟨s₁, ?_, same⟩⟩
  · unfold fmDeleteFile
    rw [run_bind (fetchPcb_ok process), start]
    show (deleteFile junk true walked.length false dir walked >>= _) s = _
    rw [run_bind run]
    rfl
  · unfold fmRmdir
    rw [run_bind (fetchPcb_ok process), start]
    show (deleteFile junk false walked.length false dir walked >>= _) s = _
    rw [run_bind run]
    rfl

end Handlers

/-- **The end of a path.** In every state: CHDIR refuses a path that ends at a plain file, DELETE
does nothing for one that ends at a directory and RMDIR nothing for one that ends at a plain file; a
path with a component that is not found leads nowhere, for OPEN without the flag to create, LSDIR,
CHDIR, DELETE and RMDIR. In all these cases the file system stays as it was. -/
theorem end_of_path (s : FmState) (junk : Junk) {src : Nat} (process : src < 50)
    (path : List UInt8) :
    (∀ n, Resolves s src path n →
      (HasType s n plainType → Declines (fmChdir src path) s src (-1) ∧
        Declines (fmRmdir junk src path) s src 0) ∧
      (HasType s n dirType → Declines (fmDeleteFile junk src path) s src 0)) ∧
    (Missing s src path →
      (∀ flag, flag ≠ 1 → Declines (fmOpen junk src path flag) s src (-1)) ∧
      Declines (fmLsdir src path) s src (-1) ∧ Declines (fmChdir src path) s src (-1) ∧
      Declines (fmDeleteFile junk src path) s src 0 ∧
      Declines (fmRmdir junk src path) s src 0) := by
  refine ⟨fun n resolves => ⟨fun plain => ⟨fmChdir_plain process resolves plain, ?_⟩,
    fun isDir => ?_⟩, fun missing => ?_⟩
  · obtain ⟨dir, walked, s₁, start, _, walk⟩ := resolves
    exact (delete_declines junk process start (resolve_core _ _ _ walk)).2
      (deleteFile_refused walk plain (.inr ⟨rfl, rfl⟩))
  · obtain ⟨dir, walked, s₁, start, _, walk⟩ := resolves
    exact (delete_declines junk process start (resolve_core _ _ _ walk)).1
      (deleteFile_refused walk isDir (.inl ⟨rfl, rfl⟩))
  · refine ⟨fun flag other => fmOpen_missing process missing other, fmLsdir_missing process missing,
      fmChdir_missing process missing, ?_⟩
    obtain ⟨dir, walked, s₁, start, _, walk⟩ := missing
    have ends := delete_declines junk process start (resolve_core _ _ _ walk)
    exact ⟨ends.1 (deleteFile_missing walk), ends.2 (deleteFile_missing walk)⟩

/-- A plain file "/a" of 36 bytes: the name "x" and the inode number of the root. -/
def forgedRun : List (Nat × Request) :=
  [(1, .open (pathBuffer [47, 97]) 1), (1, .write 0 (120 :: List.replicate 35 0)), (1, .close 0)]

/-- The state behind these requests. -/
def forgedState : FmState := lastState (serveFromBoot zeroJunk forgedRun) zeroState

theorem reachable_forgedState : Reachable forgedState := by
  have ends : (outcome (serveFromBoot zeroJunk forgedRun) zeroState).isSome = true := by
    decide +kernel
  obtain ⟨replies, is⟩ := Option.isSome_iff_exists.mp ends
  exact reachable_serveFromBoot (run_of_outcome is)

/-- CHDIR to the plain file "/a" and RMDIR of it are declined, and so is OPEN of "/b". -/
theorem end_of_path_plain :
    (Resolves forgedState 1 (pathBuffer [47, 97]) 1 ∧ HasType forgedState 1 plainType) ∧
      Declines (fmChdir 1 (pathBuffer [47, 97])) forgedState 1 (-1) ∧
      Declines (fmRmdir zeroJunk 1 (pathBuffer [47, 97])) forgedState 1 0 ∧
      Declines (fmOpen zeroJunk 1 (pathBuffer [47, 98]) 0) forgedState 1 (-1) := by
  have file : outcome (resolve (pathBuffer [47, 97]).tail.length 0 (pathBuffer [47, 97]).tail)
      forgedState = some (some 1) := by decide +kernel
  have other : outcome (resolve (pathBuffer [47, 98]).tail.length 0 (pathBuffer [47, 98]).tail)
      forgedState = some none := by decide +kernel
  have plain : HasType forgedState 1 plainType := ⟨by decide +kernel, by decide +kernel⟩
  have resolves : Resolves forgedState 1 (pathBuffer [47, 97]) 1 :=
    ⟨0, (pathBuffer [47, 97]).tail, _, by decide +kernel, by decide, run_of_outcome file⟩
  have missing : Missing forgedState 1 (pathBuffer [47, 98]) :=
    ⟨0, (pathBuffer [47, 98]).tail, _, by decide +kernel, by decide, run_of_outcome other⟩
  have ends := end_of_path forgedState zeroJunk (show 1 < 50 by decide)
  have declined := ((ends (pathBuffer [47, 97])).1 1 resolves).1 plain
  exact ⟨⟨resolves, plain⟩, declined.1, declined.2,
    ((ends (pathBuffer [47, 98])).2 missing).1 0 (by decide)⟩

end NjuOs.FileSystem
