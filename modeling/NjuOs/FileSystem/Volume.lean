/-
**The directories of a disk.**

`Volume dirs s`: every inode that `dirs` gives records to is a directory of these records, in blocks
that no other one has, and its entries lead to inodes in use; what an entry leads to is a directory
of `dirs` or none at all. So a volume is a graph (`graph`), and `read_dir_entry` is the question it
answers (`Volume.readDirEntry`).

Entering a record, claiming an inode and writing its first record keep a volume (`Volume.add`,
`Volume.claim`, `Volume.put`); together they make a new directory (`Volume.newDir`) and a new file
(`Volume.createFile`).
-/

import NjuOs.FileSystem.Entries
import NjuOs.Lib.Places

namespace NjuOs.FileSystem

open NjuOs.Lib

/-- The directories by their inode numbers, with their records. -/
abbrev Dirs := Nat → Option (List Record)

/-- An entry may lead to the inode: it is in use, and one of `dirs` if it is a directory. -/
structure Linked (dirs : Dirs) (s : FmState) (m : Nat) : Prop where
  number : m < 1024
  used : s.inodeBitmap m = true
  isDir : (diskInode s.disk m).type = dirType → ∃ records, dirs m = some records

/-- **The directories of a disk.** -/
structure Volume (dirs : Dirs) (s : FmState) : Prop where
  directory : ∀ n records, dirs n = some records → Directory n records s
  type : ∀ n records, dirs n = some records → (diskInode s.disk n).type = dirType
  used : ∀ n records, dirs n = some records → s.inodeBitmap n = true
  entry : ∀ n records, dirs n = some records → ∀ r ∈ records, ∃ m : Nat, r.index = m ∧
    Linked dirs s m
  apart : ∀ m n records records', dirs m = some records → dirs n = some records' → m ≠ n →
    ∀ r ∈ Active (36 * records.length), ∀ r' ∈ Active (36 * records'.length),
      (s.image (diskInode s.disk m)).addr r ≠ (s.image (diskInode s.disk n)).addr r'
  cursor : s.inodeBitIndex < 1024
  buffer : ∃ b, b < 20 ∧ s.blockBufFlag b = false

/-- The graph of the directories. -/
def graph (dirs : Dirs) : NamedGraph Nat (List UInt8) where
  look n name := (dirs n).bind fun records => (lookup records name).map Int.toNat
  self := dot
  up := dotDot

/-- The part of the state that a volume depends on. -/
def FmState.ground (s : FmState) : Store × (Nat → Bool) × Nat × (Nat → Bool) × Nat × (Nat → Bool) :=
  (s.disk, s.inodeBitmap, s.inodeBitIndex, s.blockBitmap, s.blockBitIndex, s.blockBufFlag)

section Volume

variable {dirs : Dirs} {s s' : FmState} {n m k : Nat} {records : List Record} {name : List UInt8}
  {junk : Junk}

theorem Volume.congr (volume : Volume dirs s) (same : s'.ground = s.ground) : Volume dirs s' := by
  simp only [FmState.ground, Prod.mk.injEq] at same
  obtain ⟨disk, inodes, inodeCursor, blocks, cursor, flags⟩ := same
  have image : ∀ inode, s'.image inode = s.image inode := by
    intro inode
    unfold FmState.image
    rw [disk, blocks]
  refine {
    directory := fun n records here => ⟨(volume.directory n records here).number, ?_⟩
    type := fun n records here => by rw [disk]; exact volume.type n records here
    used := fun n records here => by rw [inodes]; exact volume.used n records here
    entry := fun n records here r member => ?_
    apart := fun m n records records' here there other r member r' member' => ?_
    cursor := inodeCursor ▸ volume.cursor
    buffer := flags ▸ volume.buffer }
  · rw [disk]
    exact (volume.directory n records here).shows.congr disk blocks cursor
  · obtain ⟨m, index, linked⟩ := volume.entry n records here r member
    exact ⟨m, index, linked.number, inodes ▸ linked.used, disk ▸ linked.isDir⟩
  · rw [image, image, disk]
    exact volume.apart m n records records' here there other r member r' member'

theorem ground_of_core (core : s'.core = s.core) (flags : s'.blockBufFlag = s.blockBufFlag) :
    s'.ground = s.ground := by
  have field : ∀ {α : Type} (part : FmState → α), (∀ t : FmState, part t.core = part t) →
      part s' = part s := by
    intro α part same
    rw [← same s', core, same s]
  simp only [FmState.ground, Prod.mk.injEq]
  exact ⟨field FmState.disk fun _ => rfl, field FmState.inodeBitmap fun _ => rfl,
    field FmState.inodeBitIndex fun _ => rfl,
    field FmState.blockBitmap fun _ => rfl, field FmState.blockBitIndex fun _ => rfl, flags⟩

/-! ### Lookups -/

theorem look_eq (here : dirs n = some records) :
    (graph dirs).look n name = (lookup records name).map Int.toNat := by
  show (dirs n).bind _ = _
  rw [here]
  rfl

theorem look_isDir (found : (graph dirs).look n name = some m) :
    ∃ records, dirs n = some records := by
  obtain ⟨records, here, -⟩ := Option.bind_eq_some_iff.mp found
  exact ⟨records, here⟩

/-- What a lookup answers is an inode in use. -/
theorem Volume.lookup_eq (volume : Volume dirs s) (here : dirs n = some records) :
    lookup records name = ((graph dirs).look n name).map Nat.cast := by
  rw [look_eq here]
  cases found : lookup records name with
  | none => rfl
  | some index =>
      obtain ⟨r, search, rfl⟩ := Option.map_eq_some_iff.mp found
      obtain ⟨m, index, -⟩ := volume.entry n records here r (List.mem_of_find?_eq_some search)
      simp [index]

theorem Volume.linked (volume : Volume dirs s) (found : (graph dirs).look n name = some m) :
    Linked dirs s m := by
  obtain ⟨records, here, answer⟩ := Option.bind_eq_some_iff.mp found
  obtain ⟨index, looked, rfl⟩ := Option.map_eq_some_iff.mp answer
  obtain ⟨r, search, rfl⟩ := Option.map_eq_some_iff.mp looked
  obtain ⟨m, index, linked⟩ := volume.entry n records here r (List.mem_of_find?_eq_some search)
  rw [index, Int.toNat_natCast]
  exact linked

/-- **`read_dir_entry` is a question to the graph.** -/
theorem Volume.readDirEntry (volume : Volume dirs s) (here : dirs n = some records)
    (small : 36 * records.length ≤ 19456) (clean : 0 ∉ name) :
    ∃ s', readDirEntry n name s = .ok (((graph dirs).look n name).map Nat.cast) s' ∧
      s'.ground = s.ground := by
  obtain ⟨s', run, core, flags⟩ :=
    readDirEntry_ok (volume.directory n records here) small clean volume.buffer
  rw [volume.lookup_eq here] at run
  exact ⟨s', run, ground_of_core core flags⟩

/-! ### Changes -/

/-- A directory whose record and blocks are not touched. -/
theorem Directory.frame (directory : Directory n records s)
    (record : diskInode s'.disk n = diskInode s.disk n)
    (blocks : ∀ r ∈ Active (36 * records.length), ∀ x,
      InBlock ((s.image (diskInode s.disk n)).addr r) x → s'.disk x = s.disk x)
    (used : ∀ b, s.blockBitmap b = true → s'.blockBitmap b = true)
    (cursor : s'.blockBitIndex < 4096) :
    Directory n records s' ∧ ∀ r ∈ Active (36 * records.length),
      (s'.image (diskInode s'.disk n)).addr r = (s.image (diskInode s.disk n)).addr r := by
  have blocks' := blocks
  rw [← content_length] at blocks'
  rw [record]
  refine ⟨⟨directory.number, ?_⟩, ?_⟩
  · rw [record]
    exact directory.shows.frame rfl rfl blocks' used cursor
  · rw [← content_length]
    exact directory.shows.addr_frame rfl blocks'

/-- Only the record and the blocks of inode `n` are touched, and blocks that were free. -/
structure Spared (dirs : Dirs) (n : Nat) (s s' : FmState) : Prop where
  coarse : s'.coarse = s.coarse
  record : ∀ m, m < 1024 → m ≠ n → diskInode s'.disk m = diskInode s.disk m
  blocks : ∀ m records, dirs m = some records → m ≠ n → ∀ r ∈ Active (36 * records.length), ∀ x,
    InBlock ((s.image (diskInode s.disk m)).addr r) x → s'.disk x = s.disk x
  grow : ∀ b, s.blockBitmap b = true → s'.blockBitmap b = true
  cursor : s'.blockBitIndex < 4096

theorem Spared.inodes (spared : Spared dirs n s s') : s'.inodeBitmap = s.inodeBitmap := by
  show s'.coarse.inodeBitmap = s.coarse.inodeBitmap
  rw [spared.coarse]

theorem Spared.inodeCursor (spared : Spared dirs n s s') : s'.inodeBitIndex = s.inodeBitIndex := by
  show s'.coarse.inodeBitIndex = s.coarse.inodeBitIndex
  rw [spared.coarse]

theorem Spared.flags (spared : Spared dirs n s s') : s'.blockBufFlag = s.blockBufFlag := by
  show s'.coarse.blockBufFlag = s.coarse.blockBufFlag
  rw [spared.coarse]

theorem Volume.directory_spared (volume : Volume dirs s) (spared : Spared dirs n s s')
    (here : dirs m = some records) (other : m ≠ n) :
    Directory m records s' ∧ ∀ r ∈ Active (36 * records.length),
      (s'.image (diskInode s'.disk m)).addr r = (s.image (diskInode s.disk m)).addr r :=
  have directory := volume.directory m records here
  directory.frame (spared.record m directory.number other) (spared.blocks m records here other)
    spared.grow spared.cursor

theorem Linked.spared {dirs' : Dirs} (linked : Linked dirs s m) (spared : Spared dirs n s s')
    (more : ∀ m records, dirs m = some records → ∃ records, dirs' m = some records)
    (self : (diskInode s'.disk n).type = dirType → ∃ records, dirs' n = some records) :
    Linked dirs' s' m := by
  refine ⟨linked.number, spared.inodes ▸ linked.used, fun isDir => ?_⟩
  by_cases same : m = n
  · subst same
    exact self isDir
  · rw [spared.record m linked.number same] at isDir
    obtain ⟨records, here⟩ := linked.isDir isDir
    exact more m records here

/-- **A directory gets other records, or a new one its first.** -/
theorem Volume.replace (volume : Volume dirs s) (spared : Spared dirs n s s')
    (used : s.inodeBitmap n = true) (directory : Directory n records s')
    (type : (diskInode s'.disk n).type = dirType)
    (entry : ∀ r ∈ records, ∃ m : Nat, r.index = m ∧ Linked dirs s m)
    (apart : ∀ m records', dirs m = some records' → m ≠ n →
      ∀ r ∈ Active (36 * records'.length), ∀ r' ∈ Active (36 * records.length),
      (s.image (diskInode s.disk m)).addr r ≠ (s'.image (diskInode s'.disk n)).addr r') :
    Volume (Function.update dirs n (some records)) s' := by
  have more : ∀ m old, dirs m = some old → ∃ new, Function.update dirs n (some records) m =
      some new := by
    intro m old here
    by_cases same : m = n
    · exact ⟨records, by rw [same, Function.update_self]⟩
    · exact ⟨old, by rw [Function.update_of_ne same, here]⟩
  have self : (diskInode s'.disk n).type = dirType →
    ∃ new, Function.update dirs n (some records) n = some new :=
    fun _ => ⟨records, Function.update_self _ _ _⟩
  -- the directory itself, or another one that is as it was
  have split : ∀ m new, Function.update dirs n (some records) m = some new →
      m = n ∧ new = records ∨ m ≠ n ∧ dirs m = some new := by
    intro m new here
    by_cases same : m = n
    · subst same
      rw [Function.update_self, Option.some.injEq] at here
      exact .inl ⟨rfl, here.symm⟩
    · rw [Function.update_of_ne same] at here
      exact .inr ⟨same, here⟩
  refine {
    directory := fun m new here => ?_
    type := fun m new here => ?_
    used := fun m new here => ?_
    entry := fun m new here r member => ?_
    apart := fun l m recordsL recordsM hereL hereM other r member r' member' => ?_
    cursor := spared.inodeCursor ▸ volume.cursor
    buffer := spared.flags ▸ volume.buffer }
  · rcases split m new here with ⟨rfl, rfl⟩ | ⟨other, old⟩
    · exact directory
    · exact (volume.directory_spared spared old other).1
  · rcases split m new here with ⟨rfl, rfl⟩ | ⟨other, old⟩
    · exact type
    · rw [spared.record m (volume.directory m new old).number other]
      exact volume.type m new old
  · rw [spared.inodes]
    rcases split m new here with ⟨rfl, rfl⟩ | ⟨other, old⟩
    · exact used
    · exact volume.used m new old
  · have known : ∃ m : Nat, r.index = m ∧ Linked dirs s m := by
      rcases split m new here with ⟨rfl, rfl⟩ | ⟨other, old⟩
      · exact entry r member
      · exact volume.entry m new old r member
    obtain ⟨l, index, linked⟩ := known
    exact ⟨l, index, linked.spared spared more self⟩
  · rcases split l recordsL hereL with ⟨rfl, rfl⟩ | ⟨otherL, oldL⟩ <;>
      rcases split m recordsM hereM with ⟨rfl, rfl⟩ | ⟨otherM, oldM⟩
    · exact absurd rfl other
    · rw [(volume.directory_spared spared oldM otherM).2 r' member']
      exact (apart m recordsM oldM otherM r' member' r member).symm
    · rw [(volume.directory_spared spared oldL otherL).2 r member]
      exact apart l recordsL oldL otherL r member r' member'
    · rw [(volume.directory_spared spared oldL otherL).2 r member,
        (volume.directory_spared spared oldM otherM).2 r' member']
      exact volume.apart l m recordsL recordsM oldL oldM other r member r' member'

/-- An inode that is no directory is written. -/
theorem Volume.keep (volume : Volume dirs s) (spared : Spared dirs n s s') (none : dirs n = none)
    (type : (diskInode s'.disk n).type ≠ dirType) : Volume dirs s' := by
  have other : ∀ m records, dirs m = some records → m ≠ n := by
    rintro m records here rfl
    rw [none] at here
    cases here
  refine {
    directory :=
      fun m records here => (volume.directory_spared spared here (other m records here)).1
    type := fun m records here => ?_
    used := fun m records here => spared.inodes ▸ volume.used m records here
    entry := fun m records here r member => ?_
    apart := fun l m recordsL recordsM hereL hereM apart r member r' member' => ?_
    cursor := spared.inodeCursor ▸ volume.cursor
    buffer := spared.flags ▸ volume.buffer }
  · rw [spared.record m (volume.directory m records here).number (other m records here)]
    exact volume.type m records here
  · obtain ⟨l, index, linked⟩ := volume.entry m records here r member
    exact ⟨l, index, linked.spared spared (fun m records here => ⟨records, here⟩) fun isDir =>
      absurd isDir type⟩
  · rw [(volume.directory_spared spared hereL (other l recordsL hereL)).2 r member,
      (volume.directory_spared spared hereM (other m recordsM hereM)).2 r' member']
    exact volume.apart l m recordsL recordsM hereL hereM apart r member r' member'

/-! ### Entering a record -/

theorem diskInode_putInode_of_ne {inode : INode} (number : n < 1024) (small : m < 1024)
    (other : m ≠ n) :
    diskInode (s.putInode n inode).disk m = diskInode s.disk m := by
  refine diskInode_congr small fun x low high => Store.writeWords_outside ?_
  rw [inodeAddr_toNat number]
  omega

/-- Behind `write_data` at the end of one directory the other ones are as they were. -/
theorem Volume.stored {s₁ : FmState} {inode : INode} {e : Nat} {buf : List UInt8}
    (volume : Volume dirs s) (here : dirs n = some records)
    (stored : Stored (36 * records.length) e buf (diskInode s.disk n) s inode s₁) :
    (∀ m records', dirs m = some records' → m ≠ n → ∀ r ∈ Active (36 * records'.length),
      ∀ r' ∈ Active (36 * records.length + buf.length), (s.image (diskInode s.disk m)).addr r ≠
        (s₁.image inode).addr r') ∧
    Spared dirs n s (s₁.putInode n inode) := by
  have grown := stored.grown
  have number := (volume.directory n records here).number
  have apart : ∀ m records', dirs m = some records' → m ≠ n → ∀ r ∈ Active (36 * records'.length),
      ∀ r' ∈ Active (36 * records.length + buf.length),
      (s.image (diskInode s.disk m)).addr r ≠ (s₁.image inode).addr r' := by
    intro m records' there other r member r' member' same
    have own := (volume.directory m records' there).shows.own
    rw [content_length] at own
    by_cases old : r' ∈ Active (36 * records.length)
    · rw [grown.keep r' old] at same
      exact volume.apart m n records' records there here other r member r' old same
    · -- a block that was free is not one of another directory
      obtain ⟨b, block, used⟩ := own.block r member
      have idle := grown.fresh r' member' old b (same ▸ block)
      rw [show (s.image (diskInode s.disk n)).used b = (s.image (diskInode s.disk m)).used b
        from rfl, used] at idle
      cases idle
  have low : ∀ x, x < 82944 → s₁.disk x = s.disk x := by
    intro x low
    refine grown.frame x fun r' member' inside => ?_
    obtain ⟨b, block, -⟩ := grown.own.block r' member'
    have := block.2
    have := inside.1
    omega
  refine ⟨apart, {
    coarse := stored.coarse
    record := fun m small other => ?_
    blocks := fun m records' there other r member x inside => ?_
    grow := grown.grow
    cursor := stored.cursor }⟩
  · rw [diskInode_putInode_of_ne number small other]
    exact diskInode_congr small fun x _ above => low x (by omega)
  · have own := (volume.directory m records' there).shows.own
    rw [content_length] at own
    obtain ⟨b, block, -⟩ := own.block r member
    rw [putInode_block number (by have := block.2; have := inside.1; omega)]
    refine grown.frame x fun r' member' inside' => ?_
    obtain ⟨b', block', -⟩ := grown.own.block r' member'
    exact apart m records' there other r member r' member'
      (block.eq_of_inBlock block' inside inside')

/-- **`add_inode_into_dir` on a volume.** -/
theorem Volume.add (volume : Volume dirs s) (here : dirs n = some records)
    (short : name.length < 32) (clean : 0 ∉ name) (linked : Linked dirs s k)
    (room : Affords (36 * records.length) 36 s) (junk : Junk) :
    ∃ (new : Record) (s' : FmState), addInodeIntoDir junk n name k s = .ok () s' ∧ new.name = name ∧
    new.index = k ∧
      Volume (Function.update dirs n (some (records ++ [new]))) s' ∧ Spared dirs n s s' ∧
      idleCount s'.blockBitmap 4096 + blockCost (36 * records.length + 36)
        = idleCount s.blockBitmap 4096 + blockCost (36 * records.length) := by
  have directory := volume.directory n records here
  have isDir := volume.type n records here
  have fits : name.length < 36 := by omega
  obtain ⟨s₁, inode, e, run, stored⟩ := addInodeIntoDir_stored junk k directory fits room
  obtain ⟨s₂, run₂, directory', -⟩ := addInodeIntoDir_ok junk k directory fits room
  rw [run] at run₂
  cases run₂
  obtain ⟨apart, spared⟩ := volume.stored here stored
  rw [entryBytes_length] at apart
  have grown := stored.grown
  rw [entryBytes_length] at grown
  have record : diskInode (s₁.putInode n inode).disk n = INode.ofWords inode.words :=
    diskInode_putInode inode
  have address : ∀ r ∈ Active (36 * records.length + 36),
      ((s₁.putInode n inode).image (diskInode (s₁.putInode n inode).disk n)).addr r =
      (s₁.image inode).addr r := by
    refine grown.own.addr_eq (fun r _ _ => ?_) fun r member x inside => ?_
    · show (diskInode (s₁.putInode n inode).disk n).index _ = inode.index _
      rw [record, ofWords_words]
    · obtain ⟨b, block, -⟩ := grown.own.block r member
      exact putInode_block directory.number (by have := block.2; have := inside.1; omega)
  have small := linked.number
  have index := (newRecord_index fits (show (-2147483648 : Int) ≤ k by omega)
    (show (k : Int) < 2147483648 by omega)
    (junk.name n name)).mpr (overlaps_of_short short)
  refine ⟨_, _, run, newRecord_name fits clean, index,
    volume.replace spared (volume.used n records here) directory' ?_
    (fun r member => ?_) (fun m records' there other r member r' member' => ?_), spared, ?_⟩
  · rw [record, ofWords_words, stored.record]
    show toInt (UInt32.ofInt (diskInode s.disk n).type) = dirType
    rw [isDir]
    decide
  · rcases List.mem_append.mp member with old | new
    · exact volume.entry n records here r old
    · obtain rfl := List.mem_singleton.mp new
      exact ⟨k, index, linked⟩
  · rw [List.length_append, List.length_singleton, Nat.mul_add] at member'
    rw [address r' member']
    exact apart m records' there other r member r' member'
  · have paid := grown.paid
    have cost := stored.paid
    rw [entryBytes_length] at cost
    change idleCount s.blockBitmap 4096 = idleCount s₁.blockBitmap 4096 + e at paid
    show idleCount s₁.blockBitmap 4096 + _ = _
    omega

/-! ### New inodes -/

/-- Inode `k` is taken. -/
def FmState.claim (s : FmState) (k : Nat) : FmState :=
  { s with inodeBitmap := Function.update s.inodeBitmap k true, inodeBitIndex := k }

/-- `get_free_disk_inode` finds a free inode as long as there is one. -/
theorem Volume.getFreeDiskInode (volume : Volume dirs s) (room : 0 < idleCount s.inodeBitmap 1024) :
    ∃ k, k < 1024 ∧ s.inodeBitmap k = false ∧ getFreeDiskInode s = .ok (k : Int) (s.claim k) := by
  obtain ⟨i, member⟩ := Finset.card_pos.mp room
  simp only [Finset.mem_filter, Finset.mem_range, Bool.not_eq_true] at member
  have some := firstIdle_isSome volume.cursor member.1 member.2
  obtain ⟨k, search⟩ := Option.isSome_iff_exists.mp some
  refine ⟨k, firstIdle_lt volume.cursor search, firstIdle_idle search, ?_⟩
  unfold FileSystem.getFreeDiskInode
  rw [run_bind run_get]
  dsimp only [inodeNum]
  rw [search]
  rfl

theorem Volume.unclaimed (volume : Volume dirs s) (free : s.inodeBitmap k = false) :
    dirs k = none := by
  cases here : dirs k with
  | none => rfl
  | some records =>
      rw [volume.used k records here] at free
      cases free

theorem Volume.claim (volume : Volume dirs s) (number : k < 1024) : Volume dirs (s.claim k) := by
  have more : ∀ m, s.inodeBitmap m = true → (s.claim k).inodeBitmap m = true := by
    intro m used
    show Function.update s.inodeBitmap k true m = true
    by_cases same : m = k
    · rw [same, Function.update_self]
    · rw [Function.update_of_ne same, used]
  exact {
    directory := fun n records here =>
      ⟨(volume.directory n records here).number,
        (volume.directory n records here).shows.congr rfl rfl rfl⟩
    type := volume.type
    used := fun n records here => more n (volume.used n records here)
    entry := fun n records here r member => by
      obtain ⟨m, index, linked⟩ := volume.entry n records here r member
      exact ⟨m, index, linked.number, more m linked.used, linked.isDir⟩
    apart := volume.apart
    cursor := number
    buffer := volume.buffer }

theorem spared_putInode (volume : Volume dirs s) (cursor : s.blockBitIndex < 4096)
    (number : k < 1024) (inode : INode) :
    Spared dirs k s (s.putInode k inode) where
  coarse := rfl
  record m small other := diskInode_putInode_of_ne number small other
  blocks m records there _ r member x inside := by
    have shows := (volume.directory m records there).shows
    rw [← content_length] at member
    exact putInode_block number (shows.inBlock_le member inside)
  grow _ used := used
  cursor := cursor

/-- The record of a new directory is written. -/
theorem Volume.put (volume : Volume dirs s) (cursor : s.blockBitIndex < 4096) (number : k < 1024)
    (used : s.inodeBitmap k = true) (inode : INode) (size : inode.size = 0)
    (type : inode.type = dirType) :
    Volume (Function.update dirs k (some [])) (s.putInode k inode) := by
  have spared := spared_putInode volume cursor number inode
  have record : diskInode (s.putInode k inode).disk k = INode.ofWords inode.words :=
    diskInode_putInode inode
  refine volume.replace spared used ⟨number, Shows.empty ?_ spared.cursor⟩ ?_
    (fun r member => absurd member List.not_mem_nil)
    fun m records' _ _ r _ r' member' => absurd member'.2 (Nat.not_lt_zero _)
  · rw [record, ofWords_words, size]
    rfl
  · rw [record, ofWords_words, type]
    rfl

theorem blockCost_step {len : Nat} (small : 36 * (len + 1) ≤ 19456) :
    blockCost (36 * len + 36) ≤ blockCost (36 * len) + 2 := by
  unfold blockCost dataCost
  split_ifs <;> omega

/-- What a lookup finds when a record was put behind the others. -/
theorem look_append {new : Record} (here : dirs n = some records) (named : new.name = name)
    (index : new.index = k) (m : Nat) (asked : List UInt8) :
    (graph (Function.update dirs n (some (records ++ [new])))).look m asked
      = if m = n ∧ asked = name then ((graph dirs).look n name).or (some k)
      else (graph dirs).look m asked := by
  by_cases same : m = n
  · subst same
    rw [look_eq (Function.update_self _ _ _), lookup_append, lookup_cons, named, index,
      look_eq here, look_eq here]
    by_cases found : asked = name
    · subst found
      rw [if_pos rfl, if_pos ⟨rfl, rfl⟩]
      cases lookup records asked <;> rfl
    · rw [if_neg (Ne.symm found), if_neg fun both => found both.2, lookup_nil, Option.or_none]
  · rw [if_neg fun both => same both.1]
    show (Function.update dirs n _ m).bind _ = _
    rw [Function.update_of_ne same]
    rfl

theorem look_update_of_ne {x : Option (List Record)} (other : m ≠ n) :
    (graph (Function.update dirs n x)).look m = (graph dirs).look m := by
  funext asked
  show (Function.update dirs n x m).bind _ = _
  rw [Function.update_of_ne other]
  rfl

theorem Volume.linked_dir (volume : Volume dirs s) (here : dirs n = some records) :
    Linked dirs s n :=
  ⟨(volume.directory n records here).number, volume.used n records here, fun _ => ⟨records, here⟩⟩

/-- **Inode `k` became a directory**, entered under the name in inode `n`. -/
structure MadeDir (dirs : Dirs) (s : FmState) (n : Nat) (name : List UInt8) (k : Nat) (dirs' : Dirs)
    (s' : FmState) :
    Prop where
  free : s.inodeBitmap k = false
  volume : Volume dirs' s'
  look : (graph dirs').look = (graph dirs).attach (graph dirs).look n name k
  above : ∀ records, dirs n = some records → ∃ records', dirs' n = some records' ∧
    records'.length = records.length + 1
  here : ∃ records, dirs' k = some records ∧ records.length = 2
  others : ∀ m, m ≠ n → m ≠ k → dirs' m = dirs m
  inodes : s'.inodeBitmap = Function.update s.inodeBitmap k true
  blocks : idleCount s.blockBitmap 4096 ≤ idleCount s'.blockBitmap 4096 + 3

/-- **A new directory is made.** -/
theorem Volume.newDir (volume : Volume dirs s) (here : dirs n = some records)
    (short : name.length < 32) (clean : 0 ∉ name) (absent : (graph dirs).look n name = none)
    (small : 36 * (records.length + 1) ≤ 19456) (inodes : 0 < idleCount s.inodeBitmap 1024)
    (blocks : 3 ≤ idleCount s.blockBitmap 4096) (junk : Junk) :
    ∃ (k : Nat) (dirs' : Dirs) (s' : FmState), newDir junk n name s = .ok (k : Int) s' ∧
    MadeDir dirs s n name k dirs' s' := by
  obtain ⟨k, number, free, claimed⟩ := volume.getFreeDiskInode inodes
  have unclaimed := volume.unclaimed free
  have other : n ≠ k := by
    rintro rfl
    rw [here] at unclaimed
    cases unclaimed
  let record : INode :=
    { size := 0, type := dirType, link := 1, devId := junk.devId k, index := junk.index k }
  have cursor := (volume.directory n records here).shows.cursor
  have volume₁ := (volume.claim number).put cursor number (Function.update_self _ _ _)
    record rfl rfl
  have here₁ : Function.update dirs k (some []) n = some records := by
    rw [Function.update_of_ne other, here]
  have step := blockCost_step small
  have costs : blockCost 36 = 1 ∧ blockCost 72 = 1 ∧ blockCost 0 = 0 := by decide
  -- the entry in the directory above
  obtain ⟨new, s₂, run₂, newName, newIndex, volume₂, spared₂, paid₂⟩ :=
    volume₁.add here₁ short clean
    (volume₁.linked_dir (Function.update_self _ _ _))
    (show blockCost _ ≤ idleCount s.blockBitmap 4096 + _ by omega) junk
  change idleCount s₂.blockBitmap 4096 + _ = idleCount s.blockBitmap 4096 + _ at paid₂
  generalize second : Function.update (Function.update dirs k (some [])) n
    (some (records ++ [new])) = dirs₂ at volume₂
  have here₂ : dirs₂ k = some [] := by
    rw [← second, Function.update_of_ne (Ne.symm other), Function.update_self]
  have above₂ : dirs₂ n = some (records ++ [new]) := by rw [← second, Function.update_self]
  -- its own two entries
  obtain ⟨self, s₃, run₃, selfName, selfIndex, volume₃, spared₃, paid₃⟩ := volume₂.add here₂
    (show dot.length < 32 by decide) (by decide) (volume₂.linked_dir here₂)
    (show blockCost 36 ≤ idleCount s₂.blockBitmap 4096 + _ by omega) junk
  change idleCount s₃.blockBitmap 4096 + blockCost 36 = idleCount s₂.blockBitmap 4096 +
    blockCost 0 at paid₃
  rw [List.nil_append] at volume₃
  generalize third : Function.update dirs₂ k (some [self]) = dirs₃ at volume₃
  have here₃ : dirs₃ k = some [self] := by rw [← third, Function.update_self]
  have above₃ : dirs₃ n = some (records ++ [new]) := by
    rw [← third, Function.update_of_ne other, above₂]
  obtain ⟨up, s₄, run₄, upName, upIndex, volume₄, spared₄, paid₄⟩ := volume₃.add here₃
    (show dotDot.length < 32 by decide) (by decide) (volume₃.linked_dir above₃)
    (show blockCost 72 ≤ idleCount s₃.blockBitmap 4096 + blockCost 36 by omega) junk
  change idleCount s₄.blockBitmap 4096 + blockCost 72 = idleCount s₃.blockBitmap 4096 +
    blockCost 36 at paid₄
  refine ⟨k, _, s₄, ?_, {
    free := free
    volume := volume₄
    look := ?_
    above := fun records' here' => ?_
    here := ⟨_, Function.update_self _ _ _, rfl⟩
    others := fun m notAbove notNew => ?_
    inodes := ?_
    blocks := by omega }⟩
  · unfold FileSystem.newDir
    rw [run_bind claimed, run_bind (writeInodeToDisk_ok number), run_bind run₂, run_bind run₃,
      run_bind run₄]
    rfl
  · have start : ∀ m asked, (graph dirs₃).look m asked = if m = k ∧ asked = dot then _ else _ :=
      fun m asked =>
      third ▸ look_append here₂ selfName selfIndex m asked
    have bottom : ∀ asked, (graph dirs₂).look k asked = none := by
      intro asked
      rw [look_eq here₂]
      rfl
    have old : (graph (Function.update dirs k (some []))).look n name = none := by
      rw [look_update_of_ne other, absent]
    funext m asked
    rw [look_append here₃ upName upIndex, start, start]
    unfold NamedGraph.attach
    by_cases new : m = k
    · rw [if_pos new, new, bottom, bottom, Option.none_or, bottom]
      show _ = if asked = dot then some k else if asked = dotDot then some n else none
      by_cases self : asked = dot
      · subst self
        rw [if_pos rfl, if_neg fun both => absurd both.2 (by decide), if_pos ⟨rfl, rfl⟩]
      · rw [if_neg self]
        by_cases up : asked = dotDot
        · subst up
          rw [if_pos rfl, if_pos ⟨rfl, rfl⟩, if_neg fun both => absurd both.2 (by decide)]
          rfl
        · rw [if_neg up, if_neg fun both => up both.2, if_neg fun both => self both.2]
    · rw [if_neg new, if_neg fun both => new both.1, if_neg fun both => new both.1, ← second,
        look_append here₁ newName newIndex, old, Option.none_or, look_update_of_ne new]
  · rw [here] at here'
    obtain rfl := Option.some.inj here'
    exact ⟨_, (Function.update_of_ne other _ _).trans above₃,
      by rw [List.length_append, List.length_singleton]⟩
  · rw [Function.update_of_ne notNew, ← third, Function.update_of_ne notNew, ← second,
      Function.update_of_ne notAbove, Function.update_of_ne notNew]
  · rw [spared₄.inodes, spared₃.inodes, spared₂.inodes]
    rfl

/-- **Inode `k` became an empty file**, entered under the name in inode `n`. -/
structure MadeFile (dirs : Dirs) (s : FmState) (n : Nat) (name : List UInt8) (k : Nat)
    (dirs' : Dirs) (s' : FmState) :
    Prop where
  free : s.inodeBitmap k = false
  volume : Volume dirs' s'
  look : ∀ m asked, (graph dirs').look m asked
    = if m = n ∧ asked = name then ((graph dirs).look n name).or (some k)
      else (graph dirs).look m asked
  above : ∀ records, dirs n = some records → ∃ records', dirs' n = some records' ∧
    records'.length = records.length + 1
  others : ∀ m, m ≠ n → dirs' m = dirs m
  type : (diskInode s'.disk k).type = plainType
  size : (diskInode s'.disk k).size = 0

theorem MadeFile.congr {dirs' : Dirs} {s₁ s₂ : FmState} (new : MadeFile dirs s n name k dirs' s₁)
    (same : s₂.ground = s₁.ground) : MadeFile dirs s n name k dirs' s₂ := by
  have disk : s₂.disk = s₁.disk := congrArg Prod.fst same
  exact { new with
    volume := new.volume.congr same
    type := disk ▸ new.type
    size := disk ▸ new.size }

/-- **A new file is made.** -/
theorem Volume.createFile (volume : Volume dirs s) (here : dirs n = some records)
    (short : name.length < 32) (clean : 0 ∉ name) (small : 36 * (records.length + 1) ≤ 19456)
    (inodes : 0 < idleCount s.inodeBitmap 1024) (blocks : 2 ≤ idleCount s.blockBitmap 4096)
    (junk : Junk) (vnode : Option Nat) :
    ∃ (k : Nat) (dirs' : Dirs) (s' : FmState), createFile junk n name vnode s = .ok () s' ∧
      MadeFile dirs s n name k dirs' s' := by
  obtain ⟨k, number, free, claimed⟩ := volume.getFreeDiskInode inodes
  have unclaimed := volume.unclaimed free
  have other : k ≠ n := by
    rintro rfl
    rw [here] at unclaimed
    cases unclaimed
  let record : INode :=
    { size := 0, type := plainType, link := 1, devId := 0, index := junk.index k }
  have spared := spared_putInode (volume.claim number)
    (volume.directory n records here).shows.cursor number record
  have stored : diskInode ((s.claim k).putInode k record).disk k = INode.ofWords record.words :=
    diskInode_putInode record
  have plain : (diskInode ((s.claim k).putInode k record).disk k).type = plainType := by
    rw [stored, ofWords_words]
    rfl
  have notDir : (diskInode ((s.claim k).putInode k record).disk k).type ≠ dirType := by
    rw [plain]
    decide
  have volume₁ := (volume.claim number).keep spared unclaimed notDir
  have step := blockCost_step small
  have linked : Linked dirs ((s.claim k).putInode k record) k :=
    ⟨number, Function.update_self _ _ _, fun isDir => absurd isDir notDir⟩
  obtain ⟨new, s₂, run₂, newName, newIndex, volume₂, spared₂, -⟩ :=
    volume₁.add here short clean linked
    (show blockCost _ ≤ idleCount s.blockBitmap 4096 + _ by omega) junk
  have kept := spared₂.record k number other
  have new : MadeFile dirs s n name k (Function.update dirs n (some (records ++ [new]))) s₂ := {
    free := free
    volume := volume₂
    look := look_append here newName newIndex
    above := fun records' here' => by
      rw [here] at here'
      obtain rfl := Option.some.inj here'
      exact ⟨_, Function.update_self _ _ _, by rw [List.length_append, List.length_singleton]⟩
    others := fun m notAbove => Function.update_of_ne notAbove _ _
    type := by rw [kept, plain]
    size := by
      rw [kept, stored, ofWords_words]
      rfl }
  unfold FileSystem.createFile
  rw [run_bind claimed, run_bind (writeInodeToDisk_ok number), run_bind run₂]
  cases vnode with
  | none => exact ⟨k, _, s₂, rfl, new⟩
  | some v => exact ⟨k, _, _, rfl, new.congr rfl⟩

end Volume

end NjuOs.FileSystem
