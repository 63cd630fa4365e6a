/-
**Recursive deletion.**

`Tree disk n levels inodes`: from inode `n` of the disk a finite tree hangs, of the inodes `inodes`
and with `levels` directories one in another; "." and ".." lead back and are not part of it.
`_delete_dir_by_inode` takes one of the twenty block buffers for every directory it is in, and reads
it in chunks that a deletion below must not disturb: what a run changes is `Swept`, and a call
leaves every buffer alone that was held when it began.

`recursive_delete_iff`: it ends, clears exactly the flags of the tree's inodes and gives its buffers
back, exactly if there is a buffer for each level, `index[12]` of every inode with data names an
entry of the block bitmap (the one `release_block` clears), and no directory is read past its end
into the level of `index[14]`.
-/

import NjuOs.FileSystem.Entries

namespace NjuOs.FileSystem

open NjuOs.Lib

/-! ### Trees -/

/-- The record leads back, to its own directory or to the one above. -/
def IsBack (r : Record) : Prop := r.name = dot ∨ r.name = dotDot

/-- A record of a directory, and what hangs below it: an inode, as many levels of directories, and
their inodes. -/
structure Branch where
  record : Record
  child : Nat
  levels : Nat
  inodes : Set Nat

/-- **A finite tree of directories and files hangs at inode `n`.** -/
inductive Tree (disk : Store) : Nat → Nat → Set Nat → Prop
  | file {n : Nat} {data : List UInt8} : n < 1024 → (diskInode disk n).type = plainType →
    OnBlocks disk (diskInode disk n) data → Tree disk n 0 {n}
  | dir {n : Nat} {branches : List Branch} : n < 1024 → (diskInode disk n).type ≠ plainType →
    OnBlocks disk (diskInode disk n) (content (branches.map Branch.record)) →
    (∀ b ∈ branches, IsBack b.record → b.levels = 0 ∧ b.inodes = ∅) →
    (∀ b ∈ branches, ¬ IsBack b.record → b.record.index = b.child) →
    (∀ b ∈ branches, ¬ IsBack b.record → Tree disk b.child b.levels b.inodes) →
    Tree disk n ((branches.map Branch.levels).foldr max 0 + 1)
      ({n} ∪ { m | ∃ b ∈ branches, m ∈ b.inodes })

theorem Tree.number {disk : Store} {n levels : Nat} {inodes : Set Nat}
    (tree : Tree disk n levels inodes) : n < 1024 := by
  cases tree with
  | file number _ _ => exact number
  | dir number _ _ _ _ _ => exact number

/-! ### What a deletion changes -/

/-- **The inodes in `gone` are free**; the disk, the flags of the buffers and the buffers `kept` are
as before. -/
structure Swept (kept : Nat → Bool) (gone : Set Nat) (s s' : FmState) : Prop where
  disk : s'.disk = s.disk
  flags : s'.blockBufFlag = s.blockBufFlag
  held : ∀ b, kept b = true → ∀ i, i < 256 →
    s'.blockBufArray (256 * b + i) = s.blockBufArray (256 * b + i)
  inodes : ∀ m, s'.inodeBitmap m = true ↔ s.inodeBitmap m = true ∧ m ∉ gone

namespace Swept

variable {kept kept' : Nat → Bool} {gone gone' : Set Nat} {s s' s'' : FmState}

theorem refl : Swept kept ∅ s s := ⟨rfl, rfl, fun _ _ _ _ => rfl, fun m => by simp⟩

theorem trans (first : Swept kept gone s s') (second : Swept kept gone' s' s'') :
    Swept kept (gone ∪ gone') s s'' where
  disk := second.disk.trans first.disk
  flags := second.flags.trans first.flags
  held b keep i inside := (second.held b keep i inside).trans (first.held b keep i inside)
  inodes m := by
    rw [second.inodes, first.inodes, and_assoc, Set.mem_union, not_or]

theorem mono (swept : Swept kept gone s s') (fewer : ∀ b, kept' b = true → kept b = true) :
    Swept kept' gone s s' :=
  ⟨swept.disk, swept.flags, fun b keep => swept.held b (fewer b keep), swept.inodes⟩

/-- Reading a directory into a buffer that is not to be kept. -/
theorem of_scanned {buf : Nat} (scanned : Scanned buf s s') (own : kept buf = false) :
    Swept kept ∅ s s' where
  disk := disk_of_core scanned.core
  flags := scanned.flags
  held b keep i inside := by
    have other : b ≠ buf := by
      rintro rfl
      rw [own] at keep
      cases keep
    exact scanned.others _ (by omega)
  inodes m := by
    have same : s'.core.inodeBitmap = s.core.inodeBitmap :=
      congrArg FmState.inodeBitmap scanned.core
    rw [show s'.inodeBitmap = s.inodeBitmap from same]
    simp

end Swept

/-! ### One inode -/

/-- Read chunk by chunk, the data is not read past its end into the last level, or `index[14]` names
a block there. -/
def Straight (inode : INode) : Prop :=
  inode.size ≤ 19456 ∨ inode.size % 252 = 0 ∨ (inode.index 14).toNat + 256 < 4194304

/-- An inode that can be deleted: `release_block` clears the flag that `index[12]` leads to, and a
directory is read up to its end. -/
structure Sound (inode : INode) : Prop where
  named : 0 < inode.size → blockIndex (inode.index 12) < 4096
  straight : inode.type ≠ plainType → Straight inode

section Release

variable {s : FmState} {inode : INode} {data : List UInt8} {n : Nat}

/-- Giving all blocks of a file back. -/
theorem releaseBlock_whole (stored : OnBlocks s.disk inode data) :
    Ends (releaseBlock inode 0) s
      (fun _ s' => (0 < inode.size → blockIndex (inode.index 12) < 4096) ∧ s'.disk = s.disk ∧
        s'.coarse = s.coarse)
      (fun _ _ => ¬ (0 < inode.size → blockIndex (inode.index 12) < 4096)) := by
  have size : 0 < inode.size ↔ 0 < data.length := by
    rw [stored.size]
    exact Int.natCast_pos
  have ends := releaseBlock_stored stored 0
  simp only [Nat.zero_lt_succ, forall_true_left, ← size] at ends
  exact ends

/-- **One inode deleted.** -/
theorem deleteFileByInode_ends (stored : OnBlocks s.disk inode data) (number : n < 1024)
    (kept : Nat → Bool) :
    Ends (deleteFileByInode n inode) s
      (fun _ s' => (0 < inode.size → blockIndex (inode.index 12) < 4096) ∧ Swept kept {n} s s')
      (fun _ _ => ¬ (0 < inode.size → blockIndex (inode.index 12) < 4096)) := by
  unfold deleteFileByInode
  refine Ends.bind ((releaseBlock_whole stored).mono ?_ fun _ _ => id)
  rintro _ s₁ ⟨named, disk, coarse⟩
  unfold releaseDiskInode
  rw [if_pos (by unfold inodeNum; omega)]
  refine Ends.modify ⟨named, disk, ?_, fun b _ i _ => ?_, fun m => ?_⟩
  · show s₁.coarse.blockBufFlag = s.coarse.blockBufFlag
    rw [coarse]
  · show s₁.coarse.blockBufArray _ = s.coarse.blockBufArray _
    rw [coarse]
  · have same : s₁.coarse.inodeBitmap = s.coarse.inodeBitmap := congrArg FmState.inodeBitmap coarse
    show Function.update s₁.inodeBitmap (n : Int).toNat false m = true ↔ _
    rw [show s₁.inodeBitmap = s.inodeBitmap from same, Int.toNat_natCast]
    by_cases here : m = n
    · simp [here]
    · simp [here]

end Release

/-! ### One chunk of a directory -/

/-- What hangs below a record can be deleted with `free` buffers. -/
def Branch.Fine (disk : Store) (free : Nat) (b : Branch) : Prop :=
  b.levels ≤ free ∧ ∀ m ∈ b.inodes, Sound (diskInode disk m)

/-- The inodes below the records. -/
def below (branches : List Branch) : Set Nat := { m | ∃ b ∈ branches, m ∈ b.inodes }

section Chunk

variable {s : FmState} {disk : Store} {flags : Nat → Bool} {free buf : Nat} {branches : List Branch}
  {again : Int → INode → Fm Unit}

@[simp] theorem below_nil : below [] = ∅ := by
  ext m
  simp [below]

theorem below_cons (b : Branch) : below (b :: branches) = b.inodes ∪ below branches := by
  ext m
  simp [below]

theorem below_append (more : List Branch) :
    below (branches ++ more) = below branches ∪ below more := by
  ext m
  simp only [below, List.mem_append, Set.mem_union, Set.mem_ofPred_eq, or_and_right, exists_or]

/-- The recursive call deletes what hangs below each of the records. -/
structure Deletes (again : Int → INode → Fm Unit) (disk : Store) (flags : Nat → Bool) (free : Nat)
    (branches : List Branch) : Prop where
  back : ∀ b ∈ branches, IsBack b.record → b.levels = 0 ∧ b.inodes = ∅
  index : ∀ b ∈ branches, ¬ IsBack b.record → b.record.index = b.child
  number : ∀ b ∈ branches, ¬ IsBack b.record → b.child < 1024
  ends : ∀ b ∈ branches, ¬ IsBack b.record → ∀ s : FmState, s.disk = disk → s.blockBufFlag = flags →
    Ends (again b.child (diskInode disk b.child)) s
      (fun _ s' => b.Fine disk free ∧ Swept flags b.inodes s s') (fun _ _ => ¬ b.Fine disk free)

theorem Deletes.sub (deletes : Deletes again disk flags free branches) {fewer : List Branch}
    (sub : ∀ b ∈ fewer, b ∈ branches) : Deletes again disk flags free fewer :=
  ⟨fun b member => deletes.back b (sub b member), fun b member => deletes.index b (sub b member),
    fun b member => deletes.number b (sub b member), fun b member => deletes.ends b (sub b member)⟩

/-- **The records of a chunk, one after the other.** The buffer they stand in is held, so a deletion
below leaves them alone. -/
theorem deleteChunk_ends (deletes : Deletes again disk flags free branches) (pool : buf < 20)
    (held : flags buf = true) {p fuel : Nat} (low : 256 * buf ≤ p)
    (high : p + 36 * branches.length ≤ 256 * buf + 256)
    (holds : Holds s.blockBufArray p (content (branches.map Branch.record)))
    (onDisk : s.disk = disk) (flagged : s.blockBufFlag = flags) (enough : branches.length ≤ fuel) :
    Ends (deleteChunk again fuel p ((36 * branches.length : Nat) : Int)) s
      (fun _ s' => (∀ b ∈ branches, b.Fine disk free) ∧ Swept flags (below branches) s s')
      (fun _ _ => ¬ ∀ b ∈ branches, b.Fine disk free) := by
  induction branches generalizing s p fuel with
  | nil =>
      rw [below_nil]
      cases fuel with
      | zero => exact Ends.pure ⟨by simp, .refl⟩
      | succ fuel =>
          unfold deleteChunk
          rw [if_neg (by simp)]
          exact Ends.pure ⟨by simp, .refl⟩
  | cons b branches ih =>
      rw [List.length_cons] at high enough
      obtain ⟨fuel, rfl⟩ : ∃ m, fuel = m + 1 := ⟨fuel - 1, by omega⟩
      have length := b.record.length
      rw [List.map_cons, content_cons] at holds
      obtain ⟨here, later⟩ := holds.append
      rw [length] at later
      have left : ((36 * (b :: branches).length : Nat) : Int) - (dirEntrySize : Nat) =
          ((36 * branches.length : Nat) : Int) := by
        rw [List.length_cons]
        unfold dirEntrySize
        push_cast
        ring
      have compare : ∀ name, 0 ∉ name →
        sameName s.blockBufArray p name s = .ok (decide (b.record.name = name)) s :=
        fun name clean => sameName_ok here (by omega) b.record.ends clean
      -- the records behind this one, from a state in which the buffer still holds them
      have rest : ∀ s₁, b.Fine disk free → Swept flags b.inodes s s₁ →
          Ends (deleteChunk again fuel (p + dirEntrySize) ((36 * branches.length : Nat) : Int)) s₁
            (fun _ s' => (∀ b' ∈ b :: branches, b'.Fine disk free) ∧
              Swept flags (below (b :: branches)) s s')
            (fun _ _ => ¬ ∀ b' ∈ b :: branches, b'.Fine disk free) := by
        intro s₁ fine swept
        have same : ∀ x, 256 * buf ≤ x → x < 256 * buf + 256 →
            s₁.blockBufArray x = s.blockBufArray x := by
          intro x above beneath
          have kept := swept.held buf held (x - 256 * buf) (by omega)
          rwa [Nat.add_sub_cancel' above] at kept
        refine (ih (deletes.sub fun b' member => List.mem_cons_of_mem _ member) (p := p + 36)
          (by omega) (by omega)
          (fun i inside => ?_) (swept.disk.trans onDisk) (swept.flags.trans flagged)
          (by omega)).mono ?_ ?_
        · rw [content_length, List.length_map] at inside
          rw [same _ (by omega) (by omega)]
          exact later i (by rw [content_length, List.length_map]; exact inside)
        · rintro _ s' ⟨all, swept'⟩
          rw [below_cons]
          exact ⟨List.forall_mem_cons.mpr ⟨fine, all⟩, swept.trans swept'⟩
        · exact fun _ _ fails all => fails (List.forall_mem_cons.mp all).2
      have member : b ∈ b :: branches := List.mem_cons_self
      unfold deleteChunk
      rw [if_pos (by rw [List.length_cons]; push_cast; omega), left]
      refine Ends.bind (Ends.get (Ends.bind_ok (compare dot (by decide)) ?_))
      by_cases isDot : b.record.name = dot
      · obtain ⟨levels, none⟩ := deletes.back b member (.inl isDot)
        rw [decide_eq_true isDot, if_pos rfl]
        exact rest s ⟨by omega, by simp [none]⟩ (none ▸ .refl)
      rw [decide_eq_false isDot, if_neg (by simp)]
      refine Ends.bind (Ends.get (Ends.bind_ok (compare dotDot (by decide)) ?_))
      by_cases isDotDot : b.record.name = dotDot
      · obtain ⟨levels, none⟩ := deletes.back b member (.inr isDotDot)
        rw [decide_eq_true isDotDot, if_pos rfl]
        exact rest s ⟨by omega, by simp [none]⟩ (none ▸ .refl)
      have down : ¬ IsBack b.record := fun back => back.elim isDot isDotDot
      rw [decide_eq_false isDotDot, if_neg (by simp)]
      refine Ends.bind (Ends.get ?_)
      rw [entryIndex_eq here, deletes.index b member down]
      refine Ends.bind_ok (readInodeFromDisk_ok (deletes.number b member down)) ?_
      rw [onDisk]
      refine Ends.bind ((deletes.ends b member down s onDisk flagged).mono ?_ ?_)
      · rintro _ s₁ ⟨fine, swept⟩
        exact rest s₁ fine swept
      · exact fun _ _ fails all => fails (List.forall_mem_cons.mp all).1

/-- **The whole directory**, chunk by chunk in a buffer of its own. -/
theorem deleteChunks_ends {inode : INode}
    (deletes : Deletes again disk (Function.update flags buf true) free branches) (pool : buf < 20)
    (idle : flags buf = false) (stored : OnBlocks disk inode (content (branches.map Branch.record)))
    (fuel : Nat) {k : Nat} (place : k = branches.length ∨ 7 ∣ k ∧ k ≤ branches.length)
    (enough : branches.length - k < fuel) (onDisk : s.disk = disk)
    (flagged : s.blockBufFlag = Function.update flags buf true) :
    Ends (deleteChunks again buf inode fuel ((36 * k : Nat) : Int)) s
      (fun _ s' => ((7 ∣ k → Straight inode) ∧ ∀ b ∈ branches.drop k, b.Fine disk free) ∧
        Swept flags (below (branches.drop k)) s s')
      (fun _ _ => ¬ (Straight inode ∧ ∀ b ∈ branches.drop k, b.Fine disk free)) := by
  have size : inode.size = ((36 * branches.length : Nat) : Int) := stored.size.trans (by simp)
  induction fuel generalizing k s with
  | zero => omega
  | succ fuel ih =>
      have read := readChunk_ends buf (onDisk ▸ stored) k
      rw [← List.map_drop, ← List.map_take, List.length_map, List.length_map] at read
      unfold deleteChunks
      refine Ends.bind (read.mono ?_ fun _ _ stray fine => ?_)
      rotate_left
      · have straight := fine.1
        unfold Straight Stray at *
        omega
      rintro _ s₁ ⟨rfl, holds, scanned, notStray⟩
      have read : Swept flags ∅ s s₁ := .of_scanned scanned idle
      generalize piece : (branches.drop k).take 7 = part at holds ⊢
      have length : part.length = min 7 (branches.length - k) := by
        rw [← piece]
        simp
      by_cases done : branches.length ≤ k
      · rw [if_neg (by omega), List.drop_of_length_le done, below_nil]
        refine Ends.pure ⟨⟨fun seven => .inr (.inl ?_), by simp⟩, read⟩
        omega
      have split : branches.drop k = part ++ branches.drop (k + part.length) := by
        rw [length, ← List.drop_drop, ← List.length_drop]
        conv_lhs => rw [← List.take_append_drop 7 (branches.drop k), piece]
        rw [← List.drop_eq_drop_min]
      have inPart : ∀ b ∈ part, b ∈ branches := fun b member => by
        rw [← piece] at member
        exact List.mem_of_mem_drop (List.mem_of_mem_take member)
      rw [if_pos (by omega), split, below_append, Nat.mul_comm buf blockSize]
      refine Ends.bind ((deleteChunk_ends (deletes.sub inPart) pool (Function.update_self _ _ _)
        (p := blockSize * buf)
        (Nat.le_refl _) (by unfold blockSize; omega) holds (read.disk.trans onDisk)
        (read.flags.trans flagged)
        (by omega)).mono ?_ ?_)
      rotate_left
      · exact fun _ _ fails fine => fails fun b member => fine.2 b (List.mem_append_left _ member)
      rintro _ s₂ ⟨fine, swept⟩
      have swept : Swept flags (below part) s₁ s₂ := swept.mono fun b keep => by
        by_cases same : b = buf
        · rw [same]
          exact Function.update_self _ _ _
        · rw [Function.update_of_ne same]
          exact keep
      have so_far := read.trans swept
      rw [Set.empty_union] at so_far
      have next : ((36 * k : Nat) : Int) + ((36 * part.length : Nat) : Int) =
          ((36 * (k + part.length) : Nat) : Int) := by
        push_cast
        ring
      rw [next]
      refine (ih (k := k + part.length) (by omega) (by omega) (so_far.disk.trans onDisk)
        (so_far.flags.trans flagged)).mono ?_ ?_
      · rintro _ s' ⟨⟨straight, rest⟩, swept'⟩
        refine ⟨⟨fun seven => ?_, List.forall_mem_append.mpr ⟨fine, rest⟩⟩, so_far.trans swept'⟩
        by_cases full : part.length = 7
        · rw [full] at straight
          exact straight (Nat.dvd_add seven (Nat.dvd_refl 7))
        · unfold Stray at notStray
          unfold Straight
          omega
      · exact fun _ _ fails all =>
          fails ⟨all.1, fun b member => all.2 b (List.mem_append_right _ member)⟩

end Chunk

/-! ### The whole tree -/

section Whole

variable {s : FmState} {disk : Store} {n levels : Nat} {inodes : Set Nat}

theorem getFreeBlockBuffer_none (busy : ∀ b, b < 20 → s.blockBufFlag b = true) :
    getFreeBlockBuffer s = .ok none s := by
  unfold getFreeBlockBuffer
  rw [run_bind run_get]
  have search : (List.range 20).find? (fun i => !s.blockBufFlag i) = none := by
    rw [List.find?_eq_none]
    intro b member
    simp [busy b (List.mem_range.mp member)]
  rw [search]
  rfl

theorem foldr_max_le {xs : List Nat} {m : Nat} : xs.foldr max 0 ≤ m ↔ ∀ x ∈ xs, x ≤ m := by
  induction xs with
  | nil => simp
  | cons x xs ih => rw [List.foldr_cons, max_le_iff, ih, List.forall_mem_cons]

/-- The number of free buffers. -/
def FmState.freeBuffers (s : FmState) : Nat := idleCount s.blockBufFlag 20

/-- **The recursion**, by induction on the tree: it fails exactly where a level finds no buffer or
an inode is not to be deleted. -/
theorem deleteDirByInode_ends (tree : Tree disk n levels inodes) (fuel : Nat)
    (onDisk : s.disk = disk) (enough : s.freeBuffers < fuel) :
    Ends (deleteDirByInode fuel n (diskInode disk n)) s
      (fun _ s' => (levels ≤ s.freeBuffers ∧ ∀ m ∈ inodes, Sound (diskInode disk m)) ∧
        Swept s.blockBufFlag inodes s s')
      (fun _ _ => ¬ (levels ≤ s.freeBuffers ∧ ∀ m ∈ inodes, Sound (diskInode disk m))) := by
  induction tree generalizing s fuel with
  | @file n data number plain stored =>
      obtain ⟨fuel, rfl⟩ : ∃ f, fuel = f + 1 := ⟨fuel - 1, by omega⟩
      unfold deleteDirByInode
      rw [if_pos plain]
      have stored : OnBlocks s.disk (diskInode disk n) data := by
        rw [onDisk]
        exact stored
      refine (deleteFileByInode_ends stored number s.blockBufFlag).mono ?_ ?_
      · rintro _ s' ⟨named, swept⟩
        refine ⟨⟨Nat.zero_le _, ?_⟩, swept⟩
        rintro m rfl
        exact ⟨named, fun other => absurd plain other⟩
      · exact fun _ _ fails fine => fails (fine.2 n rfl).named
  | @dir n branches number isDir stored back index below ih =>
      obtain ⟨fuel, rfl⟩ : ∃ f, fuel = f + 1 := ⟨fuel - 1, by omega⟩
      unfold deleteDirByInode
      rw [if_neg isDir]
      by_cases free : ∃ b, b < 20 ∧ s.blockBufFlag b = false
      · obtain ⟨b, pool, idle, taken⟩ := getFreeBlockBuffer_ok free
        have count : idleCount (Function.update s.blockBufFlag b true) 20 + 1 = s.freeBuffers :=
          idleCount_set pool idle
        generalize free' : idleCount (Function.update s.blockBufFlag b true) 20 = left at count
        have deletes : Deletes (deleteDirByInode fuel) disk (Function.update s.blockBufFlag b true)
            left branches := by
          refine ⟨back, index, fun b member down => (below b member down).number,
            fun b' member down s₁ onDisk₁ flagged => ?_⟩
          have buffers : s₁.freeBuffers = left := by
            unfold FmState.freeBuffers
            rw [flagged]
            exact free'
          have ends := ih b' member down fuel onDisk₁ (by omega)
          rw [buffers, flagged] at ends
          exact ends
        have size : (diskInode disk n).size = ((36 * branches.length : Nat) : Int) :=
          stored.size.trans (by simp)
        have loop := deleteChunks_ends (s := s.setFlag b true) (k := 0) deletes pool idle stored
          ((diskInode disk n).size.toNat + 1) (.inr ⟨Nat.dvd_zero 7, Nat.zero_le _⟩)
          (by omega) onDisk rfl
        rw [Nat.mul_zero, Nat.cast_zero, List.drop_zero] at loop
        refine Ends.bind_ok taken (Ends.bind (loop.mono ?_ ?_))
        rotate_left
        · refine fun _ _ fails fine => fails ⟨(fine.2 n (.inl rfl)).straight isDir,
            fun b' member => ⟨?_, fun m inside => ?_⟩⟩
          · have high := foldr_max_le.mp
              (show (branches.map Branch.levels).foldr max 0 ≤ left by have := fine.1; omega)
            exact high _ (List.mem_map_of_mem member)
          · exact fine.2 m (.inr ⟨b', member, inside⟩)
        rintro _ s₁ ⟨⟨straight, fine⟩, swept⟩
        -- the buffer is given back
        have back : Swept s.blockBufFlag (FileSystem.below branches) s (s₁.setFlag b false) := by
          refine ⟨swept.disk, ?_, swept.held, swept.inodes⟩
          show Function.update s₁.blockBufFlag b false = s.blockBufFlag
          rw [swept.flags]
          show Function.update (Function.update s.blockBufFlag b true) b false = s.blockBufFlag
          rw [Function.update_idem, ← idle, Function.update_eq_self]
        refine Ends.bind (Ends.modify ?_)
        show Ends (deleteFileByInode n (diskInode disk n)) (s₁.setFlag b false) _ _
        have stored : OnBlocks (s₁.setFlag b false).disk (diskInode disk n)
            (content (branches.map Branch.record)) := by
          rw [back.disk.trans onDisk]
          exact stored
        refine (deleteFileByInode_ends stored number s.blockBufFlag).mono ?_ ?_
        · rintro _ s' ⟨named, last⟩
          refine ⟨⟨?_, ?_⟩, ?_⟩
          · have high : (branches.map Branch.levels).foldr max 0 ≤ left :=
                foldr_max_le.mpr fun x among => by
              obtain ⟨b', member, rfl⟩ := List.mem_map.mp among
              exact (fine b' member).1
            omega
          · rintro m (rfl | ⟨b', member, inside⟩)
            · exact ⟨named, fun _ => straight (Nat.dvd_zero 7)⟩
            · exact (fine b' member).2 m inside
          · rw [Set.union_comm]
            exact back.trans last
        · exact fun _ _ fails fine => fails (fine.2 n (.inl rfl)).named
      · push Not at free
        have busy : ∀ b, b < 20 → s.blockBufFlag b = true :=
          fun b inside => by simpa using free b inside
        refine Ends.bind_ok (getFreeBlockBuffer_none busy) (Ends.throw fun fine => ?_)
        have none : s.freeBuffers = 0 := by
          unfold FmState.freeBuffers idleCount
          rw [Finset.card_eq_zero, Finset.filter_eq_empty_iff]
          intro b member
          simp [busy b (Finset.mem_range.mp member)]
        have := fine.1
        omega

/-- What `_delete_dir_by_inode` is to do at the root of a tree: end without a fault, clear the flags
of the tree's inodes and no other, and leave the flags of the buffers as they were. -/
def DeletesTree (s : FmState) (n : Nat) (inodes : Set Nat) : Prop :=
  ∃ s', deleteDirByInode 22 n (diskInode s.disk n) s = .ok () s' ∧
    (∀ m, s'.inodeBitmap m = true ↔ s.inodeBitmap m = true ∧ m ∉ inodes) ∧
    s'.blockBufFlag = s.blockBufFlag

/-- **Recursive deletion.** -/
theorem recursive_delete_iff (tree : Tree s.disk n levels inodes) :
    DeletesTree s n inodes ↔ levels ≤ s.freeBuffers ∧ ∀ m ∈ inodes, Sound (diskInode s.disk m) := by
  have few : s.freeBuffers < 22 := by
    have all := Finset.card_filter_le (Finset.range 20) fun i => ¬ s.blockBufFlag i
    rw [Finset.card_range] at all
    unfold FmState.freeBuffers idleCount
    omega
  have ends := deleteDirByInode_ends tree 22 rfl few
  constructor
  · rintro ⟨s', run, -⟩
    exact (ends.of_ok run).1
  · intro fine
    obtain ⟨_, s', run, -, swept⟩ := (ends.mono (fun _ _ => id) fun _ _ fails => fails fine).run_ok
    exact ⟨s', run, swept.inodes, swept.flags⟩

end Whole

/-! ### A chain of directories -/

/-- A disk with these inode records and blocks. -/
def diskOf (inodes : Nat → INode) (blocks : Nat → List UInt8) : Store := fun x =>
  if x < 82944 then Store.wordByte ((inodes ((x - 5120) / 76)).words ((x - 5120) % 76 / 4))
    ((x - 5120) % 76 % 4)
  else (blocks ((x - 82944) / 256)).getD ((x - 82944) % 256) 0

section Disk

variable {inodes : Nat → INode} {blocks : Nat → List UInt8}

theorem diskOf_inode {n : Nat} (number : n < 1024) :
    diskInode (diskOf inodes blocks) n = INode.ofWords (inodes n).words := by
  have word : ∀ i, i < 19 → (diskOf inodes blocks).word ((inodeAddr n).toNat + 4 * i) =
      (inodes n).words i := by
    intro i small
    rw [inodeAddr_toNat number, Store.word_eq_iff]
    intro k inside
    unfold diskOf
    rw [if_pos (by omega), show (5120 + 76 * n + 4 * i + k - 5120) / 76 = n by omega,
      show (5120 + 76 * n + 4 * i + k - 5120) % 76 / 4 = i by omega,
      show (5120 + 76 * n + 4 * i + k - 5120) % 76 % 4 = k by omega]
  unfold diskInode INode.ofWords
  dsimp only
  rw [word 0 (by omega), word 1 (by omega), word 2 (by omega), word 3 (by omega)]
  congr 1
  funext i
  exact word _ (by omega)

/-- A file of one block. -/
theorem diskOf_onBlocks (blocks : Nat → List UInt8) {inode : INode} {b : Nat} (small : b < 4096)
    (first : inode.index 0 = blockAt b) (size : inode.size = (blocks b).length)
    (short : (blocks b).length ≤ 256) :
    OnBlocks (diskOf inodes blocks) inode (blocks b) := by
  have role : ∀ r ∈ Active (blocks b).length, r = .data 0 := by
    intro r member
    obtain ⟨k, rfl, -⟩ := direct_of_start member (by omega)
    have inside : 256 * k < (blocks b).length := member.2
    rw [show k = 0 by omega]
  have addr : ∀ used, (⟨diskOf inodes blocks, inode.index, used⟩ : Image).addr (.data 0) =
    blockAt b := fun _ => first
  refine ⟨size, fun _ => true, ⟨active_closed _, fun _ member => member.1, fun r member => ?_,
    fun r here r' there _ => ?_⟩,
    fun q below => ?_⟩
  · rw [role r member, addr]
    exact ⟨b, isBlock_blockAt small, rfl⟩
  · rw [role r here, role r' there]
  · unfold Image.byte
    rw [show q / 256 = 0 by omega, addr, (isBlock_blockAt small).2, Nat.mod_eq_of_lt (by omega)]
    show diskOf inodes blocks _ = _
    unfold diskOf
    rw [if_neg (by omega), show (82944 + 256 * b + q - 82944) / 256 = b by omega,
      show (82944 + 256 * b + q - 82944) % 256 = q by omega]

end Disk

/-- The records of directory `k` of the chain: its own, the one above and, but for the last, "d" for
the next. -/
def chain (k : Nat) : List Branch :=
  [⟨newRecord (fun _ => 0) dot k (by decide), k, 0, ∅⟩,
    ⟨newRecord (fun _ => 0) dotDot (k - 1 : Nat) (by decide), k - 1, 0, ∅⟩] ++
    if k < 20 then [⟨newRecord (fun _ => 0) [100] (k + 1 : Nat) (by decide), k + 1, 20 - k,
      { m | k + 1 ≤ m ∧ m ≤ 20 }⟩]
    else []

/-- The inode of directory `k` of the chain. -/
def chainInode (k : Nat) : INode where
  size := 36 * (chain k).length
  type := dirType
  devId := 0
  link := 1
  index _ := blockAt k

/-- Twenty-one directories, one in another. -/
def chainState : FmState := { zeroState with
  disk := diskOf chainInode fun b => content ((chain b).map Branch.record)
  inodeBitmap := fun n => n ≤ 20
  blockBitmap := fun b => b ≤ 20 }

theorem chain_length (k : Nat) : (chain k).length ≤ 3 := by
  unfold chain
  split
  · exact Nat.le_refl 3
  · exact Nat.le_succ 2

theorem chain_inode {k : Nat} (small : k < 1024) : diskInode chainState.disk k = chainInode k := by
  have length := chain_length k
  have disk : chainState.disk = diskOf chainInode fun b => content ((chain b).map Branch.record) :=
    rfl
  rw [disk, diskOf_inode small, ofWords_words]
  have size : toInt (UInt32.ofInt (chainInode k).size) = (chainInode k).size := by
    have is : (chainInode k).size = 36 * ((chain k).length : Int) := rfl
    rw [is]
    exact toInt_ofInt (by omega) (by omega)
  rw [size]
  rfl

theorem chain_stored {k : Nat} (small : k ≤ 20) :
    OnBlocks chainState.disk (diskInode chainState.disk k)
      (content ((chain k).map Branch.record)) := by
  rw [chain_inode (by omega)]
  have length := chain_length k
  refine diskOf_onBlocks (fun b => content ((chain b).map Branch.record)) (b := k)
    (by omega) rfl ?_ ?_
  · show 36 * ((chain k).length : Int) = _
    rw [content_length, List.length_map]
    push_cast
    rfl
  · rw [content_length, List.length_map]
    omega

/-- The record of the chain that does not lead back. -/
theorem chain_down {k : Nat} {b : Branch} (member : b ∈ chain k) :
    (IsBack b.record ∧ b.levels = 0 ∧ b.inodes = ∅) ∨
      k < 20 ∧ ¬ IsBack b.record ∧ b.record.index = b.child ∧ b.child = k + 1 ∧ b.levels = 20 - k ∧
        b.inodes = { m | k + 1 ≤ m ∧ m ≤ 20 } := by
  unfold chain at member
  rcases List.mem_append.mp member with back | next
  · rcases List.mem_pair.mp back with rfl | rfl
    · exact .inl ⟨.inl (newRecord_name (by decide) (by decide)), rfl, rfl⟩
    · exact .inl ⟨.inr (newRecord_name (by decide) (by decide)), rfl, rfl⟩
  · split at next
    · rename_i small
      obtain rfl := List.mem_singleton.mp next
      refine .inr ⟨small, ?_, ?_, rfl, rfl, rfl⟩
      · rintro (is | is)
        · rw [newRecord_name (by decide) (by decide)] at is
          exact absurd is (by decide)
        · rw [newRecord_name (by decide) (by decide)] at is
          exact absurd is (by decide)
      · exact (newRecord_index (by decide) (by omega) (by omega) _).mpr
          (overlaps_of_short (by decide))
    · cases next

theorem chain_measures {k : Nat} (small : k ≤ 20) :
    ((chain k).map Branch.levels).foldr max 0 + 1 = 21 - k ∧
      {k} ∪ { m | ∃ b ∈ chain k, m ∈ b.inodes } = { m | k ≤ m ∧ m ≤ 20 } := by
  by_cases more : k < 20
  · refine ⟨?_, Set.ext fun m => ?_⟩
    · simp only [chain, if_pos more, List.cons_append, List.nil_append, List.map_cons, List.map_nil,
        List.foldr_cons, List.foldr_nil]
      omega
    · simp only [chain, if_pos more, List.cons_append, List.nil_append, List.mem_cons,
        List.not_mem_nil, or_false, exists_eq_or_imp, exists_eq_left, Set.mem_empty_iff_false,
        false_or, Set.mem_union, Set.mem_singleton_iff, Set.mem_ofPred_eq]
      omega
  · obtain rfl : k = 20 := by omega
    refine ⟨rfl, Set.ext fun m => ?_⟩
    simp only [chain, if_neg more, List.append_nil, List.mem_cons, List.not_mem_nil, or_false,
      exists_eq_or_imp, exists_eq_left, Set.mem_empty_iff_false, Set.mem_union,
      Set.mem_singleton_iff, Set.mem_ofPred_eq]
    omega

/-- One directory of the chain, over the next one. -/
theorem chain_dir {k : Nat} (small : k ≤ 20)
    (next : k < 20 → Tree chainState.disk (k + 1) (20 - k) { m | k + 1 ≤ m ∧ m ≤ 20 }) :
    Tree chainState.disk k (21 - k) { m | k ≤ m ∧ m ≤ 20 } := by
  obtain ⟨levels, inodes⟩ := chain_measures small
  rw [← levels, ← inodes]
  refine Tree.dir (by omega) ?_ (chain_stored small) ?_ ?_ ?_
  · rw [chain_inode (by omega)]
    show dirType ≠ plainType
    decide
  all_goals
    intro b member
    rcases chain_down member with ⟨back, levels, none⟩ | ⟨more, down, index, child, levels, inodes⟩
  · exact fun _ => ⟨levels, none⟩
  · exact fun back => absurd back down
  · exact fun down => absurd back down
  · exact fun _ => index
  · exact fun down => absurd back down
  · intro _
    rw [child, levels, inodes]
    exact next more

/-- From directory `k` on the chain is a tree of `21 - k` levels. -/
theorem chain_tree {k : Nat} (small : k ≤ 20) :
    Tree chainState.disk k (21 - k) { m | k ≤ m ∧ m ≤ 20 } := by
  obtain ⟨d, left⟩ : ∃ d, k + d = 20 := ⟨20 - k, by omega⟩
  induction d generalizing k with
  | zero => exact chain_dir small fun more => by omega
  | succ d ih =>
      refine chain_dir small fun more => ?_
      have next := ih (k := k + 1) (by omega) (by omega)
      rwa [show 21 - (k + 1) = 20 - k by omega] at next

theorem chain_sound {m : Nat} (small : m ≤ 20) : Sound (diskInode chainState.disk m) := by
  have length := chain_length m
  rw [chain_inode (by omega)]
  refine ⟨fun _ => ?_, fun _ => .inl ?_⟩
  · show blockIndex (blockAt m) < 4096
    rw [(isBlock_blockAt (b := m) (by omega)).blockIndex_eq]
    omega
  · show 36 * ((chain m).length : Int) ≤ 19456
    omega

theorem chain_freeBuffers : chainState.freeBuffers = 20 := by decide

/-- Twenty directories one in another are the most that can be deleted. -/
theorem recursive_delete_twenty : DeletesTree chainState 1 { m | 1 ≤ m ∧ m ≤ 20 } :=
  (recursive_delete_iff (chain_tree (k := 1) (by omega))).mpr
    ⟨by rw [chain_freeBuffers], fun _ member => chain_sound member.2⟩

/-- The twenty-first directory is read into a null buffer. -/
theorem twenty_first_level :
    ¬ ∀ (s : FmState) (n levels : Nat) (inodes : Set Nat), Tree s.disk n levels inodes →
    (∀ b, b < 20 → s.blockBufFlag b = false) → DeletesTree s n inodes := by
  intro all
  have tree := chain_tree (k := 0) (by omega)
  obtain ⟨s', run, -⟩ := all chainState 0 21 { m | 0 ≤ m ∧ m ≤ 20 } tree fun _ _ => rfl
  have ends := deleteDirByInode_ends (s := chainState) tree 22 rfl
    (by rw [chain_freeBuffers]; omega)
  have fits := (ends.of_ok run).1.1
  rw [chain_freeBuffers] at fits
  omega

end NjuOs.FileSystem
