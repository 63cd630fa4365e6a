/-
**Seeking, reading and writing one open file.**

Several descriptors of several processes may lead to one vnode. `Sharing v` is one request of
theirs: a seek to anywhere, a read, or a write at an offset inside the file whose truncation gives
back no block the prefix needs. `shared_run` carries the content of the file through any such run,
and `write_at_offset` says what a write does in every state of it. Behind the end of the file the
source has no case of its own: `write_behind_end` shows the size it leaves.
-/

import NjuOs.FileSystem.Content
import NjuOs.FileSystem.Frame
import Mathlib.Logic.Relation

namespace NjuOs.FileSystem

open NjuOs.Lib

/-! ### Descriptors -/

/-- Descriptor `fd` of process `src` is open on entry `e`. -/
structure Descriptor (s : FmState) (src : Nat) (fd : Int) (e : Nat) : Prop where
  process : src < 50
  low : 0 ≤ fd
  high : fd < 100
  slot : (s.pcbs src).fdTable fd.toNat = some e

section Descriptors

variable {s : FmState} {src e : Nat} {fd : Int}

theorem fetchPcb_ok {pid : Nat} (process : pid < 50) : fetchPcb pid s = .ok (s.pcbs pid) s := by
  unfold fetchPcb
  rw [if_pos process]
  rfl

theorem Descriptor.slot_ok (open_ : Descriptor s src fd e) {t : FmState} :
    fdSlot (s.pcbs src) fd t = .ok (some e) t := by
  unfold fdSlot
  rw [if_pos ⟨open_.low, open_.high⟩, open_.slot]
  rfl

end Descriptors

/-! ### The states the handlers lead to -/

/-- The inode in a vnode. -/
def FmState.setInode (s : FmState) (v : Nat) (inode : INode) : FmState :=
  { s with vnodes := Function.update s.vnodes v { s.vnodes v with inode } }

/-- The offset of an open file. -/
def FmState.setOffset (s : FmState) (e : Nat) (offset : UInt32) : FmState :=
  { s with files := Function.update s.files e { s.files e with offset } }

/-- The record of the file an entry leads to. -/
def FmState.fileInode (s : FmState) (e : Nat) : INode := (s.vnodes (s.files e).vnode).inode

theorem toInt_ofNat {n : Nat} (small : n < 2147483648) : toInt (UInt32.ofNat n) = n := by
  have value : (UInt32.ofNat n).toNat = n := by
    rw [UInt32.toNat_ofNat']
    omega
  unfold toInt
  rw [value, if_pos small]

section Handlers

variable {s : FmState} {src e : Nat} {fd : Int} {data : List UInt8}

/-- **A read through a descriptor** delivers the content from its offset on. -/
theorem fmRead_ok (junk : Junk) (open_ : Descriptor s src fd e)
    (shows : Shows (s.fileInode e) data s) (disk : (s.fileInode e).devId = 0) {o c : Nat}
    (offset : toInt (s.files e).offset = o) (inside : o + c ≤ data.length) :
    ∃ s', fmRead junk src fd c s = .ok { dest := src, ret := c, data := (data.drop o).take c } s' ∧
      s'.unscratch = (s.setOffset e ((s.files e).offset + UInt32.ofNat c)).unscratch := by
  obtain ⟨s', run, same⟩ := shows.read inside
  have length : ((data.drop o).take c).length = c := by
    rw [List.length_take, List.length_drop]
    omega
  refine ⟨s'.setOffset e ((s'.files e).offset + UInt32.ofNat c), ?_, ?_⟩
  · unfold fmRead
    rw [run_bind (fetchPcb_ok open_.process), run_bind open_.slot_ok]
    unfold FmState.fileInode at run disk
    show (get >>= _ : Fm Reply) s = _
    rw [run_bind run_get, run_bind run_get, if_pos disk, offset, run_bind run, length]
    rfl
  · rw [FmState.eq_of_unscratch same]
    rfl

/-- The truncation a write starts with. -/
theorem cutFile_ok {v o : Nat} (shows : Shows (s.vnodes v).inode data s) (within : o ≤ data.length)
    (safe : o < data.length → CutSafe (s.vnodes v).inode data.length o s) :
    ∃ s', cutFile v o s = .ok () s' ∧
      Shows { (s.vnodes v).inode with size := o } (data.take o) s' ∧
      s'.coarse = (s.setInode v { (s.vnodes v).inode with size := o }).coarse ∧
      ∀ b, s'.blockBitmap b = true → s.blockBitmap b = true := by
  unfold cutFile
  rw [run_bind run_get]
  by_cases below : o < data.length
  · obtain ⟨s', run, cut, coarse, fewer⟩ := shows.truncate below (safe below)
    rw [if_pos (by rw [shows.size]; omega), run_bind run]
    refine ⟨_, rfl, ⟨cut.size, cut.own, cut.bytes, cut.cursor⟩, ?_, fewer⟩
    rw [FmState.eq_of_coarse coarse]
    rfl
  · have all : data.take o = data := List.take_of_length_le (by omega)
    have same : ({ (s.vnodes v).inode with size := (o : Int) } : INode) = (s.vnodes v).inode := by
      have size := shows.size
      rw [show (o : Int) = (s.vnodes v).inode.size by omega]
    refine ⟨s, ?_, ?_, ?_, fun _ => id⟩
    · rw [if_neg (by rw [shows.size]; omega)]
      rfl
    · rw [all, same]
      exact shows
    · unfold FmState.setInode
      rw [same, Function.update_eq_self]

/-- **A write through a descriptor**, at an offset inside the file: the content is cut there and the
bytes put behind it, or the server hangs for want of free blocks. -/
theorem fmWrite_ends (junk : Junk) (open_ : Descriptor s src fd e)
    (shows : Shows (s.fileInode e) data s) (disk : (s.fileInode e).devId = 0) {o : Nat}
    (offset : toInt (s.files e).offset = o) (within : o ≤ data.length)
    (safe : o < data.length → CutSafe (s.fileInode e) data.length o s) (buf : List UInt8) :
    Ends (fmWrite junk src fd buf) s
      (fun reply s' => reply = { dest := src, ret := buf.length } ∧ ∃ inode',
        inode' = { s.fileInode e with size := (o + buf.length : Nat), index := inode'.index } ∧
        Shows inode' (data.take o ++ buf) s' ∧
        s'.coarse = ((s.setInode (s.files e).vnode inode').setOffset e
          (UInt32.ofNat (o + buf.length))).coarse)
      (fun f _ => Short o buf.length s f) := by
  unfold FmState.fileInode at *
  generalize file : (s.files e).vnode = v at *
  obtain ⟨s₁, run, cut, coarse₁, fewer⟩ := cutFile_ok shows within safe
  have length : (data.take o).length = o := by
    rw [List.length_take]
    omega
  unfold fmWrite
  refine Ends.bind_ok (fetchPcb_ok open_.process) (Ends.bind_ok open_.slot_ok ?_)
  refine Ends.bind_ok run_get ?_
  dsimp only
  rw [file, offset]
  refine Ends.bind_ok run ?_
  unfold storeFile
  refine Ends.bind_ok run_get ?_
  rw [file]
  have inode₁ : (s₁.vnodes v).inode = { (s.vnodes v).inode with size := (o : Int) } := by
    rw [FmState.eq_of_coarse coarse₁]
    simp [FmState.setInode]
  rw [inode₁]
  dsimp only
  rw [if_pos disk]
  have stored := cut.write buf
  rw [length] at stored
  refine Ends.bind (stored.mono ?_ fun f _ short => ⟨short.1, ?_⟩)
  rotate_left
  · exact lt_of_le_of_lt (Nat.add_le_add_right (idleCount_mono fewer) _) short.2
  rintro ⟨count, inode'⟩ s₂ ⟨all, record, content, coarse₂, _⟩
  dsimp only at all record content coarse₂ ⊢
  rw [List.length_append, length] at record
  refine Ends.bind (Ends.modify (Ends.bind (Ends.modify (Ends.pure ⟨?_, inode', record, ?_, ?_⟩))))
  · rw [all]
  · exact ⟨content.size, content.own, content.bytes, content.cursor⟩
  · have size : UInt32.ofInt inode'.size = UInt32.ofNat (o + buf.length) := by
      rw [record]
      exact ofInt_natCast _
    rw [FmState.eq_of_coarse coarse₂, FmState.eq_of_coarse coarse₁, size]
    simp [FmState.coarse, FmState.setInode, FmState.setOffset]

end Handlers

/-! ### What does not touch the content -/

theorem fetchPcb_keeps {τ : Type} {view : FmState → τ} {pid : Nat} : Keeps view (fetchPcb pid) :=
  .ite (.bind .get fun _ => .pure) .throw

theorem fdSlot_keeps {τ : Type} {view : FmState → τ} {pcb : Pcb} {fd : Int} :
    Keeps view (fdSlot pcb fd) :=
  .ite .pure .throw

theorem ttyName_keeps {τ : Type} {view : FmState → τ} {devId : Int} : Keeps view (ttyName devId) :=
  .ite .pure .throw

/-- The state without what a read or a seek can change. -/
def FmState.still (s : FmState) : FmState :=
  { s with
    files := fun e => { s.files e with offset := 0 }
    indexBlock1 := fun _ => 0
    indexBlock2 := fun _ => 0
    indexBlock3 := fun _ => 0
    blockBufArray := fun _ => 0
    blockBufFlag := fun _ => false }

theorem setOffset_still {e : Nat} {place : OpenFile → UInt32} :
    Keeps FmState.still (modifyFile e fun file => { file with offset := place file }) := by
  refine .modify fun s => ?_
  simp only [SameView, FmState.still, FmState.mk.injEq, true_and, and_true]
  funext e'
  by_cases same : e' = e
  · subst same
    simp
  · simp [Function.update_of_ne same]

theorem fmRead_still {junk : Junk} {src : Nat} {fd len : Int} :
    Keeps FmState.still (fmRead junk src fd len) := by
  have read : ∀ {o inode}, Keeps FmState.still (readData o inode len) := fun {_ _} =>
    readData_core.comp FmState.still
  refine .bind fetchPcb_keeps fun _ => .bind fdSlot_keeps fun slot => ?_
  cases slot with
  | none => exact .pure
  | some e =>
      exact .bind .get fun _ => .bind .get fun _ => .ite
        (.bind read fun _ => .bind setOffset_still fun _ => .pure)
        (.bind ttyName_keeps fun _ => .pure)

theorem fmLseek_still {src : Nat} {fd offset whence : Int} :
    Keeps FmState.still (fmLseek src fd offset whence) := by
  refine .bind fetchPcb_keeps fun _ => .bind fdSlot_keeps fun slot => ?_
  cases slot with
  | none => exact .pure
  | some e => exact .bind .get fun _ => .bind .get fun _ => .bind setOffset_still fun _ => .pure

/-! ### Runs on one file -/

/-- A seek or a read by a process that shares the file. -/
inductive Quiet (v : Nat) (s s' : FmState) : Prop
  | seek {junk : Junk} {src e : Nat} {fd offset whence : Int} {reply : Option Reply}
      (opened : Descriptor s src fd e) (file : (s.files e).vnode = v)
      (run : handle junk src (.lseek fd offset whence) s = .ok reply s')
  | read {junk : Junk} {src e : Nat} {fd len : Int} {reply : Option Reply}
      (opened : Descriptor s src fd e) (file : (s.files e).vnode = v)
      (run : handle junk src (.read fd len) s = .ok reply s')

/-- The entry's offset is inside its file, and cutting the file there is safe. -/
structure WritesInside (s : FmState) (e : Nat) : Prop where
  low : 0 ≤ toInt (s.files e).offset
  high : toInt (s.files e).offset ≤ (s.fileInode e).size
  safe : toInt (s.files e).offset < (s.fileInode e).size →
    CutSafe (s.fileInode e) (s.fileInode e).size.toNat (toInt (s.files e).offset).toNat s

/-- A request of a process that shares the file; a write is one inside it. -/
inductive Sharing (v : Nat) (s s' : FmState) : Prop
  | quiet (request : Quiet v s s')
  | write {junk : Junk} {src e : Nat} {fd : Int} {buf : List UInt8} {reply : Option Reply}
      (opened : Descriptor s src fd e) (file : (s.files e).vnode = v) (inside : WritesInside s e)
      (run : handle junk src (.write fd buf) s = .ok reply s')

/-- Vnode `v` is a disk file with content `data`. -/
structure IsFile (v : Nat) (data : List UInt8) (s : FmState) : Prop where
  device : (s.vnodes v).inode.devId = 0
  shows : Shows (s.vnodes v).inode data s

section Runs

variable {v : Nat} {s s' : FmState} {data : List UInt8}

theorem map_eq_ok {α β : Type} {f : α → β} {x : Fm α} {b : β} (run : (f <$> x) s = .ok b s') :
    ∃ a, x s = .ok a s' ∧ f a = b := by
  rw [map_eq_pure_bind] at run
  obtain ⟨a, s₁, first, rest⟩ := bind_eq_ok.mp run
  obtain ⟨rfl, rfl⟩ := pure_eq_ok.mp rest
  exact ⟨a, first, rfl⟩

theorem IsFile.of_still (file : IsFile v data s) (same : s'.still = s.still) :
    IsFile v data s' := by
  have vnodes := congrArg (fun t : FmState => t.vnodes) same
  have disk := congrArg (fun t : FmState => t.disk) same
  have used := congrArg (fun t : FmState => t.blockBitmap) same
  have cursor := congrArg (fun t : FmState => t.blockBitIndex) same
  change s'.vnodes = s.vnodes at vnodes
  refine ⟨?_, ?_⟩
  · rw [vnodes]
    exact file.device
  · rw [vnodes]
    exact file.shows.congr disk used cursor

theorem Quiet.still (request : Quiet v s s') : s'.still = s.still := by
  cases request with
  | seek _ _ run => exact fmLseek_still _ _ _ run
  | read _ _ run =>
      obtain ⟨reply, read, _⟩ := map_eq_ok run
      exact fmRead_still _ _ _ read

/-- **A write by a process that shares the file.** -/
theorem IsFile.write (isFile : IsFile v data s) (junk : Junk) {src e : Nat} {fd : Int}
    (opened : Descriptor s src fd e) (file : (s.files e).vnode = v) (inside : WritesInside s e)
    (buf : List UInt8) :
    ∃ o : Nat, toInt (s.files e).offset = o ∧ o ≤ data.length ∧
      Ends (fmWrite junk src fd buf) s
        (fun reply s' => reply = { dest := src, ret := buf.length } ∧
          IsFile v (data.take o ++ buf) s' ∧ (s'.files e).offset = UInt32.ofNat (o + buf.length) ∧
          s'.pcbs = s.pcbs ∧ ∀ e', (s'.files e').vnode = (s.files e').vnode)
        (fun f _ => Short o buf.length s f) := by
  subst file
  have size : (s.fileInode e).size = data.length := isFile.shows.size
  obtain ⟨o, offset⟩ := Int.eq_ofNat_of_zero_le inside.low
  have high := inside.high
  have safe := inside.safe
  rw [size, offset] at high safe
  refine ⟨o, offset, by omega, ?_⟩
  refine (fmWrite_ends junk opened isFile.shows isFile.device offset (by omega)
    (fun below => ?_) buf).mono ?_
    fun _ _ => id
  · have cut := safe (by omega)
    rwa [Int.toNat_natCast, Int.toNat_natCast] at cut
  · rintro reply s' ⟨answer, inode', record, content, coarse⟩
    have vnode : (s'.vnodes (s.files e).vnode).inode = inode' := by
      rw [FmState.eq_of_coarse coarse]
      simp [FmState.setInode, FmState.setOffset]
    refine ⟨answer, ⟨?_, ?_⟩, ?_, ?_, ?_⟩
    · rw [vnode, record]
      exact isFile.device
    · rw [vnode]
      exact content
    · rw [FmState.eq_of_coarse coarse]
      simp [FmState.setOffset]
    · rw [FmState.eq_of_coarse coarse]
      rfl
    · intro e'
      rw [FmState.eq_of_coarse coarse]
      by_cases same : e' = e
      · subst same
        simp [FmState.setInode, FmState.setOffset]
      · simp [FmState.setInode, FmState.setOffset, Function.update_of_ne same]

/-- **One request of a process that shares the file.** -/
theorem IsFile.step (isFile : IsFile v data s) (request : Sharing v s s') :
    ∃ data', IsFile v data' s' := by
  cases request with
  | quiet quiet => exact ⟨data, isFile.of_still quiet.still⟩
  | write opened file inside run =>
      obtain ⟨reply, run, _⟩ := map_eq_ok run
      obtain ⟨o, _, _, ends⟩ := isFile.write _ opened file inside _
      exact ⟨_, (ends.of_ok run).2.1⟩

theorem IsFile.run (isFile : IsFile v data s) (run : Relation.ReflTransGen (Sharing v) s s') :
    ∃ data', IsFile v data' s' := by
  induction run with
  | refl => exact ⟨data, isFile⟩
  | tail _ request ih =>
      obtain ⟨data', here⟩ := ih
      exact here.step request

theorem IsFile.quiet_run (isFile : IsFile v data s) (run : Relation.ReflTransGen (Quiet v) s s') :
    IsFile v data s' := by
  induction run with
  | refl => exact isFile
  | tail _ request ih => exact ih.of_still request.still

/-! ### What a write does -/

/-- The effect of a write of `buf` at offset `o` through entry `e` of vnode `v`: the size and the
offset it leaves, what it keeps, and what a later read at `o` delivers. -/
structure Wrote (v e : Nat) (o : Int) (buf : List UInt8) (s s' : FmState) : Prop where
  size : (s'.vnodes v).inode.size = o + buf.length
  offset : toInt (s'.files e).offset = o + buf.length
  keeps : ∀ q : Nat, q < min o (s.vnodes v).inode.size →
    (s'.image (s'.vnodes v).inode).byte q = (s.image (s.vnodes v).inode).byte q
  reads : ∀ s'', Relation.ReflTransGen (Quiet v) s' s'' → ∀ junk src fd e',
    Descriptor s'' src fd e' → (s''.files e').vnode = v → toInt (s''.files e').offset = o →
    ∃ s₃, handle junk src (.read fd buf.length) s''
      = .ok (some { dest := src, ret := buf.length, data := buf }) s₃

/-- **Seek and write**: in every state of a run of seeks, reads and writes inside the file, a write
inside it leaves the size and the offset behind its bytes, keeps what is before them, and a read
there delivers them; it fails only when the disk has too few free blocks, and then it hangs. -/
theorem write_at_offset {s₀ : FmState} {data₀ : List UInt8} (start : IsFile v data₀ s₀)
    (run : Relation.ReflTransGen (Sharing v) s₀ s) {src e : Nat} {fd : Int} {buf : List UInt8}
    (opened : Descriptor s src fd e) (file : (s.files e).vnode = v) (inside : WritesInside s e)
    (junk : Junk) :
    Ends (handle junk src (.write fd buf)) s
      (fun _ s' => Wrote v e (toInt (s.files e).offset) buf s s')
      (fun f _ => Short (toInt (s.files e).offset).toNat buf.length s f) := by
  obtain ⟨data, isFile⟩ := start.run run
  obtain ⟨o, offset, within, ends⟩ := isFile.write junk opened file inside buf
  rw [offset, Int.toNat_natCast]
  show Ends (some <$> fmWrite junk src fd buf) s _ _
  rw [map_eq_pure_bind]
  refine Ends.bind (ends.mono ?_ fun _ _ => id)
  rintro reply s' ⟨_, after, place, _, _⟩
  have length : (data.take o ++ buf).length = o + buf.length := by
    rw [List.length_append, List.length_take]
    omega
  have small := after.shows.own.size_le
  rw [length] at small
  refine Ends.pure ⟨?_, ?_, ?_, ?_⟩
  · rw [after.shows.size, length]
    push_cast
    rfl
  · rw [place, toInt_ofNat (by omega)]
    push_cast
    rfl
  · intro q below
    rw [isFile.shows.size] at below
    rw [after.shows.bytes q (by omega), isFile.shows.bytes q (by omega)]
    simp [List.getD_eq_getElem?_getD, List.getElem?_append, List.length_take, show q < o by omega,
      show q < data.length by omega]
  · intro s'' quiet junk' src' fd' e' opened' file' offset'
    have there := after.quiet_run quiet
    subst file'
    obtain ⟨s₃, read, _⟩ := fmRead_ok junk' opened' there.shows there.device offset'
      (c := buf.length) (by omega)
    refine ⟨s₃, ?_⟩
    show (some <$> fmRead junk' src' fd' buf.length) s'' = _
    rw [map_eq_pure_bind, run_bind read]
    have taken : ((data.take o ++ buf).drop o).take buf.length = buf := by
      rw [List.drop_append_of_le_length (by rw [List.length_take]; omega),
        List.drop_eq_nil_of_le (by rw [List.length_take]; omega), List.nil_append, List.take_length]
    rw [taken]
    rfl

end Runs

/-! ### Inside a file, and behind its end -/

/-- Every index slot built on the stack names a block of the disk. -/
def blockJunk : Junk := { zeroJunk with index := fun _ _ => UInt32.ofNat (82944 + 256 * 10) }

/-- Process 1 has opened the new file `/a`. -/
def newFileState : FmState :=
  lastState (serveFromBoot blockJunk [(1, .open (pathBuffer [47, 97]) 1)]) zeroState

/-- It has written three bytes. -/
def threeBytesState : FmState := lastState (handle blockJunk 1 (.write 0 [1, 2, 3])) newFileState

/-- It has gone back behind the first one. -/
def soughtState : FmState := lastState (handle blockJunk 1 (.lseek 0 1 0)) threeBytesState

/-- Its descriptor 0 is the open file 127, over the vnode 124 of an empty file. -/
theorem newFile_opened : Reachable newFileState ∧ Descriptor newFileState 1 0 127 ∧
    IsFile 124 [] newFileState := by
  have reachable : Reachable newFileState := reachable_serveFromBoot
    (run_of_outcome (a := [some { dest := 1, ret := 0 }]) (by decide +kernel))
  have descriptor : Descriptor newFileState 1 0 127 :=
    ⟨by decide, by decide, by decide, by decide +kernel⟩
  have file : IsFile 124 [] newFileState :=
    ⟨by decide +kernel, Shows.empty (by decide +kernel) (by decide +kernel)⟩
  exact ⟨reachable, descriptor, file⟩

/-- The slot of the block of indices names block 10, which the first byte does not need. -/
theorem sought_writesInside : WritesInside soughtState 127 := by
  refine ⟨by decide +kernel, by decide +kernel, fun _ => .inr (.inr ⟨by decide +kernel, ?_⟩)⟩
  intro r needed block
  have offset : (toInt (soughtState.files 127).offset).toNat = 1 := by decide +kernel
  rw [offset] at needed
  obtain rfl := eq_data_of_active (by decide) needed
  exact absurd block.2 (by decide +kernel)

/-- **A write in the middle**: three bytes, back to the first of them, and one byte. -/
theorem write_at_offset_middle :
    Ends (handle blockJunk 1 (.write 0 [7])) soughtState
      (fun _ s' => Wrote 124 127 (toInt (soughtState.files 127).offset) [7] soughtState s')
      (fun f _ => Short (toInt (soughtState.files 127).offset).toNat 1 soughtState f) := by
  obtain ⟨-, descriptor, file⟩ := newFile_opened
  have written : handle blockJunk 1 (.write 0 [1, 2, 3]) newFileState =
      .ok (some { dest := 1, ret := 3 }) threeBytesState := run_of_outcome (by decide +kernel)
  have sought : handle blockJunk 1 (.lseek 0 1 0) threeBytesState =
      .ok (some { dest := 1, ret := 0 }) soughtState := run_of_outcome (by decide +kernel)
  have inside : WritesInside newFileState 127 :=
    ⟨by decide +kernel, by decide +kernel, fun below => absurd below (by decide +kernel)⟩
  have seek : Descriptor threeBytesState 1 0 127 :=
    ⟨by decide, by decide, by decide, by decide +kernel⟩
  have write : Descriptor soughtState 1 0 127 :=
    ⟨by decide, by decide, by decide, by decide +kernel⟩
  exact write_at_offset file
    ((Relation.ReflTransGen.single (.write descriptor (by decide +kernel) inside written)).tail
      (.quiet (.seek seek (by decide +kernel) sought)))
    write (by decide +kernel) sought_writesInside blockJunk

/-- The same process has moved its offset to 5, behind the end of the empty file. -/
def behindEnd : List (Nat × Request) := [(1, .open (pathBuffer [47, 97]) 1), (1, .lseek 0 5 0)]

/-- **A write behind the end** adds its length to the old size and goes on from there: the size it
leaves is not the offset behind its bytes. -/
theorem write_behind_end : ∃ s s' reply, Reachable s ∧ Descriptor s 1 0 127 ∧
    (s.files 127).vnode = 124 ∧
    toInt (s.files 127).offset = 5 ∧ handle zeroJunk 1 (.write 0 [7]) s = .ok reply s' ∧
    ¬ Wrote 124 127 5 [7] s s' := by
  have ran := run_of_outcome (x := serveFromBoot zeroJunk behindEnd) (s := zeroState)
    (a := [some { dest := 1, ret := 0 }, some { dest := 1, ret := 0 }]) (by decide +kernel)
  have wrote := run_of_outcome (x := handle zeroJunk 1 (.write 0 [7]))
    (s := lastState (serveFromBoot zeroJunk behindEnd) zeroState)
    (a := some { dest := 1, ret := 1 })
    (by decide +kernel)
  refine ⟨_, _, _, reachable_serveFromBoot ran,
    ⟨by decide, by decide, by decide, by decide +kernel⟩, by decide +kernel,
    by decide +kernel, wrote, fun effect => ?_⟩
  exact absurd effect.size (by decide +kernel)

end NjuOs.FileSystem
