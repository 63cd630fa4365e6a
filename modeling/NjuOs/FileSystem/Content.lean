/-
**The content of a file.**

`Shows inode data s`: in state `s` the record `inode` has the size of `data`, its blocks are its
own, and they hold `data`. The three data operations in these terms: appending adds to the content
(`Shows.write`), reading delivers a part of it (`Shows.read`), and truncating takes a prefix of it
(`Shows.truncate`) as long as the block that `index[12]` names is not one of those the prefix needs.
-/

import NjuOs.FileSystem.Release
import NjuOs.FileSystem.Syscall

namespace NjuOs.FileSystem

open NjuOs.Lib

/-- **In state `s` the record `inode` is a file with content `data`.** -/
structure Shows (inode : INode) (data : List UInt8) (s : FmState) : Prop where
  size : inode.size = data.length
  own : Own (Active data.length) (s.image inode)
  bytes : ∀ q, q < data.length → (s.image inode).byte q = data.getD q 0
  cursor : s.blockBitIndex < 4096

/-- The data of a record as a disk holds it, whatever the flags of its blocks say. -/
structure OnBlocks (disk : Store) (inode : INode) (data : List UInt8) : Prop where
  size : inode.size = data.length
  blocks : ∃ used, Own (Active data.length) ⟨disk, inode.index, used⟩ ∧
    ∀ q, q < data.length → (⟨disk, inode.index, used⟩ : Image).byte q = data.getD q 0

section Content

variable {inode : INode} {data : List UInt8} {s s' : FmState} {n : Nat}

theorem Shows.onBlocks (shows : Shows inode data s) : OnBlocks s.disk inode data :=
  ⟨shows.size, s.blockBitmap, shows.own, shows.bytes⟩

/-- What the content of a file depends on. -/
theorem Shows.congr (shows : Shows inode data s) (disk : s'.disk = s.disk)
    (used : s'.blockBitmap = s.blockBitmap) (cursor : s'.blockBitIndex = s.blockBitIndex) :
    Shows inode data s' := by
  have image : s'.image inode = s.image inode := by
    unfold FmState.image
    rw [disk, used]
  exact ⟨shows.size, image ▸ shows.own, image ▸ shows.bytes, cursor ▸ shows.cursor⟩

theorem Shows.empty (size : inode.size = 0) (cursor : s.blockBitIndex < 4096) :
    Shows inode [] s where
  size := size
  own := {
    closed := active_closed 0
    valid := fun _ member => member.1
    block := fun _ member => absurd member.2 (Nat.not_lt_zero _)
    apart := fun _ member => absurd member.2 (Nat.not_lt_zero _) }
  bytes _ absurd := (Nat.not_lt_zero _ absurd).elim
  cursor := cursor

/-- The content with what was stored behind it. -/
theorem Shows.stored {inode' : INode} {buf : List UInt8} {e : Nat} (shows : Shows inode data s)
    (stored : Stored data.length e buf inode s inode' s') : Shows inode' (data ++ buf) s' := by
  refine {
    size := by
      rw [stored.record, shows.size, List.length_append]
      push_cast
      rfl
    own := by
      rw [List.length_append]
      exact stored.grown.own
    bytes := fun q below => ?_
    cursor := stored.cursor }
  by_cases early : q < data.length
  · rw [stored.grown.hold q early (active_covers (by have := shows.own.size_le; omega) q early),
      shows.bytes q early]
    simp [List.getD_eq_getElem?_getD, List.getElem?_append_left early]
  · rw [List.length_append] at below
    have value := stored.grown.bytes_eq (q - data.length) (by omega)
    rw [show data.length + (q - data.length) = q by omega] at value
    rw [value]
    simp [List.getD_eq_getElem?_getD, List.getElem?_append_right (Nat.le_of_not_lt early)]

/-- **Appending.** -/
theorem Shows.write (shows : Shows inode data s) (buf : List UInt8) :
    Ends (writeData data.length inode buf) s
      (fun r s' => r.1 = buf.length ∧
        r.2 = { inode with size := (data ++ buf).length, index := r.2.index } ∧
        Shows r.2 (data ++ buf) s' ∧ s'.coarse = s.coarse ∧
        idleCount s'.blockBitmap 4096 + blockCost (data ++ buf).length
          = idleCount s.blockBitmap 4096 + blockCost data.length)
      (fun f _ => Short data.length buf.length s f) := by
  refine (writeData_ends shows.own shows.cursor buf).mono ?_ fun _ _ => id
  rintro ⟨len, inode'⟩ s' ⟨count, e, stored⟩
  have record := stored.record
  dsimp only at count record ⊢
  have length : inode.size + buf.length = ((data ++ buf).length : Int) := by
    rw [shows.size, List.length_append]
    push_cast
    rfl
  rw [length] at record
  refine ⟨count, record, shows.stored stored, stored.coarse, ?_⟩
  have paid : idleCount s.blockBitmap 4096 = idleCount s'.blockBitmap 4096 + e := stored.grown.paid
  have cost := stored.paid
  rw [List.length_append]
  omega

/-- The bytes an image shows are the content. -/
theorem Image.bytes_eq {image : Image} (bytes : ∀ q, q < data.length → image.byte q = data.getD q 0)
    {o c : Nat} (inside : o + c ≤ data.length) : image.bytes o c = (data.drop o).take c := by
  refine List.ext_getElem ?_ fun i _ below => ?_
  · simp only [Image.bytes_length, List.length_take, List.length_drop]
    omega
  · have value := bytes (o + i) (by simp at below; omega)
    simp only [Image.bytes, List.getElem_map, List.getElem_range, value, List.getElem_take,
      List.getElem_drop]
    exact (List.getElem_eq_getD 0).symm

/-- **Reading.** -/
theorem Shows.read (shows : Shows inode data s) {o c : Nat} (inside : o + c ≤ data.length) :
    ∃ s', readData o inode c s = .ok ((data.drop o).take c) s' ∧ s'.unscratch = s.unscratch := by
  have ends := readData_ends shows.own shows.size o c
  rw [Int.toNat_natCast, Nat.min_eq_left (by omega), Image.bytes_eq shows.bytes inside] at ends
  have total : Ends _ _ _ fun _ _ => False := ends.mono (fun _ _ => id) fun f _ fails => by omega
  obtain ⟨bytes, s', run, rfl, same⟩ := total.run_ok
  exact ⟨s', run, same⟩

/-- Reading needs no flags. -/
theorem OnBlocks.read (stored : OnBlocks s.disk inode data) {o c : Nat}
    (inside : o + c ≤ data.length) :
    ∃ s', readData o inode c s = .ok ((data.drop o).take c) s' ∧ s'.unscratch = s.unscratch := by
  obtain ⟨used, own, bytes⟩ := stored.blocks
  have ends := readData_image_ends own rfl rfl stored.size o c
  rw [Int.toNat_natCast, Nat.min_eq_left (by omega), Image.bytes_eq bytes inside] at ends
  have straight : ¬ Stray inode data.length o c := by
    unfold Stray
    omega
  obtain ⟨_, s', run, rfl, same, -⟩ :=
    (ends.mono (fun _ _ => id) fun _ _ fails => straight fails.2).run_ok
  exact ⟨s', run, same⟩

/-- With the right flags, what a disk holds is the content of a file. -/
theorem OnBlocks.shows (stored : OnBlocks s.disk inode data) :
    ∃ used, Shows inode data { s with blockBitmap := used, blockBitIndex := 0 } := by
  obtain ⟨used, own, bytes⟩ := stored.blocks
  exact ⟨used, stored.size, own, bytes, show 0 < 4096 by omega⟩

/-! ### Truncation -/

/-- A role that begins in the direct part is a direct block. -/
theorem direct_of_start {role : Role} {n : Nat} (member : role ∈ Active n) (low : n ≤ 3072) :
    ∃ k, role = .data k ∧ k < 12 := by
  have inside := member.2
  cases role with
  | data k => exact ⟨k, rfl, by simp only [Role.start] at inside; omega⟩
  | _ => simp only [Role.start] at inside; omega

theorem IsBlock.address_eq {a a' : UInt32} {b : Nat} (here : IsBlock a b) (there : IsBlock a' b) :
    a = a' :=
  UInt32.toNat_inj.mp (here.2.trans there.2.symm)

/-- The content up to `o`, when the flags of its blocks are still set. -/
theorem Shows.prefix_of_used (shows : Shows inode data s) {o : Nat} (le : o ≤ data.length)
    (disk : s'.disk = s.disk) (cursor : s'.blockBitIndex = s.blockBitIndex)
    (used : ∀ r ∈ Active o, ∀ b, IsBlock ((s.image inode).addr r) b → s.blockBitmap b = true →
      s'.blockBitmap b = true) :
    Shows { inode with size := o } (data.take o) s' := by
  have length : (data.take o).length = o := by
    rw [List.length_take]
    exact Nat.min_eq_left le
  have address : ∀ r, (s'.image { inode with size := o }).addr r = (s.image inode).addr r := by
    intro r
    cases r <;> simp only [Image.addr, FmState.image, blockAddr, disk]
  have sub := active_mono le
  refine {
    size := by rw [length]
    own := ?_
    bytes := fun q below => ?_
    cursor := by
      rw [cursor]
      exact shows.cursor }
  · rw [length]
    refine {
      closed := active_closed o
      valid := fun _ member => member.1
      block := fun r member => ?_
      apart := fun r here r' there same => ?_ }
    · obtain ⟨b, block, marked⟩ := shows.own.block r (sub member)
      rw [address]
      exact ⟨b, block, used r member b block marked⟩
    · rw [address, address] at same
      exact shows.own.apart r (sub here) r' (sub there) same
  · rw [length] at below
    have value := shows.bytes q (by omega)
    unfold Image.byte at value ⊢
    rw [address]
    show s'.disk _ = _
    rw [disk]
    refine value.trans ?_
    simp [List.getD_eq_getElem?_getD, below]

/-- `release_block` at `o` gives no block back that the first `o` bytes need. -/
def CutSafe (inode : INode) (n o : Nat) (s : FmState) : Prop :=
  3072 ≤ o ∨ 3072 < n ∨ (blockIndex (inode.index 12) < 4096 ∧
    ∀ r ∈ Active o, ¬ IsBlock ((s.image inode).addr r) (blockIndex (inode.index 12)))

/-- **Truncating.** -/
theorem Shows.truncate (shows : Shows inode data s) {o : Nat} (inside : o < data.length)
    (safe : CutSafe inode data.length o s) :
    ∃ s', releaseBlock inode o s = .ok () s' ∧
      Shows { inode with size := o } (data.take o) s' ∧ s'.coarse = s.coarse ∧
      ∀ b, s'.blockBitmap b = true → s.blockBitmap b = true := by
  have own := shows.own
  -- a role the prefix needs is not among those that begin behind it
  have kept : ∀ {o₁ : Nat}, o ≤ o₁ → ∀ r ∈ Active o, ∀ b, IsBlock ((s.image inode).addr r) b →
      ∀ d ∈ From o₁ data.length, ¬ IsBlock ((s.image inode).addr d) b := by
    intro o₁ le r member b block d dropped other
    have same := own.apart r (active_mono (by omega) member) d ⟨dropped.1, dropped.2.2⟩
      (block.address_eq other)
    have before := member.2
    have after := dropped.2.1
    rw [same] at before
    omega
  by_cases high : 3072 ≤ o
  · obtain ⟨s', run, cleared⟩ := releaseBlock_high own shows.size high
    refine ⟨s', run, shows.prefix_of_used (by omega) cleared.disk cleared.cursor ?_, cleared.coarse,
      fun b used => ((cleared.bitmap b).mp used).1⟩
    intro r member b block marked
    exact (cleared.bitmap b).mpr ⟨marked, kept le_rfl r member b block⟩
  · -- below, the flag of the block `index[12]` names is cleared as well
    have slot : blockIndex (inode.index 12) < 4096 ∧
        ∀ r ∈ Active o, ¬ IsBlock ((s.image inode).addr r) (blockIndex (inode.index 12)) := by
      rcases safe with above | single | named
      · exact absurd above high
      · have one : Role.one ∈ Active data.length := ⟨trivial, single⟩
        obtain ⟨b, block, _⟩ := own.block .one one
        have block : IsBlock (inode.index 12) b := block
        rw [block.blockIndex_eq]
        refine ⟨block.1, fun r member other => ?_⟩
        have same := own.apart r (active_mono (by omega) member) .one one (other.address_eq block)
        have before := member.2
        rw [same] at before
        change 3072 < o at before
        omega
      · exact named
    obtain ⟨s', run, cleared⟩ :=
      releaseBlock_low (o := o) own shows.size (by omega) (by omega) slot.1
    refine ⟨s', run, shows.prefix_of_used (by omega) cleared.disk cleared.cursor ?_, cleared.coarse,
      fun b used => ?_⟩
    rotate_left
    · have dropped := ((cleared.bitmap b).mp used).1
      change Function.update s.blockBitmap _ false b = true at dropped
      by_cases same : b = blockIndex (inode.index 12)
      · simp [same] at dropped
      · rwa [Function.update_of_ne same] at dropped
    intro r member b block marked
    refine (cleared.bitmap b).mpr ⟨?_, kept (by omega) r member b block⟩
    have other : b ≠ blockIndex (inode.index 12) := by
      rintro rfl
      exact slot.2 r member block
    show Function.update s.blockBitmap _ false b = true
    rw [Function.update_of_ne other]
    exact marked

/-- **`release_block` ends**, unless the flag it clears below the first index block is outside the
bitmap; the disk stays as it is. -/
theorem releaseBlock_stored (stored : OnBlocks s.disk inode data) (o : Nat) :
    Ends (releaseBlock inode o) s
      (fun _ s' => (o < 3072 → o < data.length → blockIndex (inode.index 12) < 4096) ∧
        s'.disk = s.disk ∧ s'.coarse = s.coarse)
      (fun _ _ => ¬ (o < 3072 → o < data.length → blockIndex (inode.index 12) < 4096)) := by
  obtain ⟨used, own, -⟩ := stored.blocks
  have size := stored.size
  by_cases high : 3072 ≤ o
  · have skip : releaseLevel0 inode o s = .ok (o : Int) s := by
      unfold releaseLevel0
      rw [if_neg (by unfold levelEnd0; omega)]
      rfl
    refine Ends.bind_ok skip ((release_indirect own rfl rfl size high).mono ?_
      fun _ _ => False.elim)
    rintro _ s' cleared
    exact ⟨fun low => absurd high (by omega), cleared.disk, cleared.coarse⟩
  by_cases some : o < data.length
  · by_cases slot : blockIndex (inode.index 12) < 4096
    · have level := releaseLevel0_ok (s := s) (o := o) size (by omega) (by omega) slot
      have rest := release_indirect (s := s.drop (blockIndex (inode.index 12))) (o := 3328) own rfl
        rfl size (by omega)
      refine Ends.bind_ok level (rest.mono ?_ fun _ _ => False.elim)
      rintro _ s' cleared
      exact ⟨fun _ _ => slot, cleared.disk, cleared.coarse⟩
    · refine Ends.intro (fun _ s' run => ?_) fun _ _ _ fits => slot (fits (by omega) some)
      exact absurd run (releaseBlock_low_error size (by omega) (by omega) (by omega))
  · have stays : (pure (o : Int) : Fm Int) s = .ok (o : Int) s := rfl
    refine Ends.ok (show releaseBlock inode o s = .ok () s from ?_)
      ⟨fun _ inside => absurd inside some, rfl, rfl⟩
    unfold releaseBlock releaseLevel0
    rw [if_neg (by omega), run_bind stays]
    unfold releaseLevel1
    rw [if_neg (by omega), run_bind stays]
    unfold releaseLevel2
    rw [if_neg (by omega), run_bind stays]
    unfold releaseLevel3
    rw [if_neg (by omega)]
    rfl

end Content

/-! ### The record on the disk -/

section Record

variable {s s' : FmState} {ino : Nat}

theorem inodeAddr_toNat (small : ino < 1024) : (inodeAddr ino).toNat = 5120 + 76 * ino := by
  unfold inodeAddr
  rw [show ((inodeBase : Nat) : Int) + (ino : Int) * ((inodeSize : Nat) : Int)
      = ((5120 + 76 * ino : Nat) : Int) by
        simp only [inodeBase, inodeNum, blockNum, inodeSize]; omega,
    ofInt_natCast, UInt32.toNat_ofNat']
  omega

/-- A record as its words read back. -/
theorem ofWords_words (inode : INode) :
    INode.ofWords inode.words = {
      size := toInt (UInt32.ofInt inode.size), type := toInt (UInt32.ofInt inode.type)
      devId := toInt (UInt32.ofInt inode.devId), link := toInt (UInt32.ofInt inode.link)
      index := inode.index } := by
  unfold INode.ofWords
  congr 1
  funext i
  show inode.index (Fin.ofNat 15 i) = inode.index i
  congr 1
  exact Fin.ext (Nat.mod_eq_of_lt i.isLt)

theorem diskInode_writeWords {disk : Store} (inode : INode) :
    diskInode (disk.writeWords (inodeAddr ino).toNat 19 inode.words) ino =
      INode.ofWords inode.words := by
  have word : ∀ i, i < 19 →
      (disk.writeWords (inodeAddr ino).toNat 19 inode.words).word ((inodeAddr ino).toNat + 4 * i)
        = inode.words i := fun _ small => Store.word_writeWords small
  unfold diskInode INode.ofWords
  dsimp only
  rw [word 0 (by omega), word 1 (by omega), word 2 (by omega), word 3 (by omega)]
  congr 1
  funext i
  exact word _ (by omega)

/-- A record lies in its 76 bytes. -/
theorem diskInode_congr {disk disk' : Store} (small : ino < 1024)
    (same : ∀ x, 5120 + 76 * ino ≤ x → x < 5120 + 76 * ino + 76 → disk' x = disk x) :
    diskInode disk' ino = diskInode disk ino := by
  have word : ∀ i, i < 19 →
      disk'.word ((inodeAddr ino).toNat + 4 * i) = disk.word ((inodeAddr ino).toNat + 4 * i) := by
    intro i inside
    rw [inodeAddr_toNat small]
    exact Store.word_congr fun j inner => same _ (by omega) (by omega)
  unfold diskInode INode.ofWords
  dsimp only
  rw [word 0 (by omega), word 1 (by omega), word 2 (by omega), word 3 (by omega)]
  congr 1
  funext i
  exact word _ (by omega)

/-- The blocks of a file stay where they are when what is in them stays. -/
theorem Shows.addr_frame {inode inode' : INode} {data : List UInt8} (shows : Shows inode data s)
    (index : inode'.index = inode.index)
    (blocks : ∀ r ∈ Active data.length, ∀ x, InBlock ((s.image inode).addr r) x →
      s'.disk x = s.disk x) :
    ∀ r ∈ Active data.length, (s'.image inode').addr r = (s.image inode).addr r :=
  shows.own.addr_eq (fun r _ _ => congrFun index (Fin.ofNat 15 r.slot)) blocks

/-- **The content of a file is in its blocks**: what is written elsewhere does not matter. -/
theorem Shows.frame {inode inode' : INode} {data : List UInt8} (shows : Shows inode data s)
    (size : inode'.size = inode.size) (index : inode'.index = inode.index)
    (blocks : ∀ r ∈ Active data.length, ∀ x, InBlock ((s.image inode).addr r) x →
      s'.disk x = s.disk x) (used : ∀ b, s.blockBitmap b = true → s'.blockBitmap b = true)
    (cursor : s'.blockBitIndex < 4096) :
    Shows inode' data s' := by
  have address := shows.addr_frame index blocks
  refine ⟨size.trans shows.size, shows.own.carry address fun _ _ b _ marked => used b marked,
    fun q below => ?_, cursor⟩
  have covered := active_covers (by have := shows.own.size_le; omega) q below
  rw [Image.byte_eq (address _ covered) (blocks _ covered)]
  exact shows.bytes q below

/-- Blocks lie behind the bitmaps and the inode records. -/
theorem Shows.inBlock_le {inode : INode} {data : List UInt8} (shows : Shows inode data s) {r : Role}
    (member : r ∈ Active data.length) {x : Nat} (within : InBlock ((s.image inode).addr r) x) :
    82944 ≤ x := by
  obtain ⟨b, block, -⟩ := shows.own.block r member
  have := block.2
  have := within.1
  omega

theorem Shows.of_blocks {inode inode' : INode} {data : List UInt8} (shows : Shows inode data s)
    (size : inode'.size = inode.size) (index : inode'.index = inode.index)
    (blocks : ∀ x, 82944 ≤ x → s'.disk x = s.disk x) (used : s'.blockBitmap = s.blockBitmap)
    (cursor : s'.blockBitIndex = s.blockBitIndex) : Shows inode' data s' :=
  shows.frame size index (fun _ member x within => blocks x (shows.inBlock_le member within))
    (fun b marked => by rw [used]; exact marked) (cursor ▸ shows.cursor)

end Record

end NjuOs.FileSystem
