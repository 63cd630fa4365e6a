/-
**Truncating: which blocks `release_block` gives back.**

`releaseBlock_ends`: from an offset behind the direct blocks on, `release_block` clears the flags of
exactly the roles the file no longer needs. Below that it clears the flag of the block that
`index[12]` names, whether the file has a single-indirect level or not, and of the roles from byte
3328 on; the direct blocks and the first single-indirect one stay marked.
-/

import NjuOs.FileSystem.Read
import NjuOs.FileSystem.Syscall

namespace NjuOs.FileSystem

open NjuOs.Lib

/-- **The flags of the roles in `D` were cleared**, and nothing else changed but the scratch
blocks. -/
structure Cleared (D : Set Role) (image : Image) (s s' : FmState) : Prop where
  disk : s'.disk = s.disk
  coarse : s'.coarse = s.coarse
  cursor : s'.blockBitIndex = s.blockBitIndex
  bitmap : ∀ b, s'.blockBitmap b = true ↔
    s.blockBitmap b = true ∧ ∀ r ∈ D, ¬ IsBlock (image.addr r) b

namespace Cleared

variable {D D' : Set Role} {image : Image} {s s' s'' : FmState}

theorem refl : Cleared ∅ image s s where
  disk := rfl
  coarse := rfl
  cursor := rfl
  bitmap b := by simp

theorem trans (first : Cleared D image s s') (second : Cleared D' image s' s'') :
    Cleared (D ∪ D') image s s'' where
  disk := second.disk.trans first.disk
  coarse := second.coarse.trans first.coarse
  cursor := second.cursor.trans first.cursor
  bitmap b := by
    rw [second.bitmap, first.bitmap, and_assoc]
    refine and_congr_right fun _ => ?_
    constructor
    · rintro ⟨here, there⟩ r (member | member)
      · exact here r member
      · exact there r member
    · intro all
      exact ⟨fun r member => all r (.inl member), fun r member => all r (.inr member)⟩

/-- Loading a scratch block is not noticed. -/
theorem scratch1 (cleared : Cleared D image s s') (words : Nat → UInt32) :
    Cleared D image s (s'.scratch1 words) :=
  ⟨cleared.disk, cleared.coarse, cleared.cursor, cleared.bitmap⟩

theorem scratch2 (cleared : Cleared D image s s') (words : Nat → UInt32) :
    Cleared D image s (s'.scratch2 words) :=
  ⟨cleared.disk, cleared.coarse, cleared.cursor, cleared.bitmap⟩

theorem drop {r : Role} {b : Nat} (block : IsBlock (image.addr r) b) :
    Cleared {r} image s (s.drop b) where
  disk := rfl
  coarse := rfl
  cursor := rfl
  bitmap b' := by
    show Function.update s.blockBitmap b false b' = true ↔ _
    by_cases same : b' = b
    · subst same
      simp [block]
    · have other : ¬ IsBlock (image.addr r) b' := fun there => same (there.unique block)
      simp [Function.update_of_ne same, other]

end Cleared

section Release

variable {n o i k m : Nat} {s : FmState} {inode : INode} {image : Image}

/-- The data blocks that begin in `[o, m)`. -/
def dataFrom (o m : Nat) : Set Role := { r | ∃ k, r = .data k ∧ o ≤ 256 * k ∧ 256 * k < m }

theorem dataFrom_empty (stop : m ≤ o) : dataFrom o m = ∅ := by
  ext r
  simp only [dataFrom, Set.mem_ofPred_eq, Set.mem_empty_iff_false, iff_false]
  rintro ⟨k, _, low, high⟩
  omega

/-- Where a loop that runs from `o` to `m` in whole blocks stops. -/
def Stops (o m o' : Nat) : Prop :=
  (o < m → m ≤ o' ∧ o' < m + 256 ∧ o' % 256 = 0) ∧ (m ≤ o → o' = o)

/-- **The innermost loop** clears the flags of the data blocks from its offset on. -/
theorem releaseLoop_ends (own : Own (Active n) image) {table : Nat → UInt32}
    (words : ∀ j, j < 64 → 256 * (k + j) < n → table j = image.addr (.data (k + j)))
    (place : o < m → o / 256 = k + i) (bound : m ≤ n) (last : m ≤ 256 * (k + 64)) {fuel : Nat}
    (enough : m - o ≤ fuel) :
    Ends (releaseLoop table m fuel i o) s
      (fun r s' => (∃ o' : Nat, r = o' ∧ Stops o m o') ∧ Cleared (dataFrom o m) image s s' ∧
        s'.indexBlock1 = s.indexBlock1)
      (fun _ _ => False) := by
  have small := own.size_le
  induction fuel generalizing o i s with
  | zero =>
      rw [dataFrom_empty (by omega)]
      exact Ends.pure ⟨⟨o, rfl, by omega, fun _ => rfl⟩, Cleared.refl, rfl⟩
  | succ fuel ih =>
      unfold releaseLoop
      refine Ends.ite (fun more => ?_) fun done => ?_
      · have inside : o < m := by omega
        have place := place inside
        have next : ((o / 256 * 256 + 256 : Nat) : Int) = (o : Int) - ((o % 256 : Nat) : Int) +
            (blockSize : Nat) := by
          unfold blockSize
          omega
        -- the rest of the loop from the next block on
        have again : ∀ s₁, s₁.indexBlock1 = s.indexBlock1 →
            Cleared (dataFrom o m \ dataFrom (o / 256 * 256 + 256) m) image s s₁ →
            Ends (releaseLoop table m fuel (i + 1) ((o / 256 * 256 + 256 : Nat) : Int)) s₁
              (fun r s' => (∃ o' : Nat, r = o' ∧ Stops o m o') ∧ Cleared (dataFrom o m) image s s' ∧
                s'.indexBlock1 = s.indexBlock1)
              (fun _ _ => False) := by
          intro s₁ kept first
          refine (ih (o := o / 256 * 256 + 256) (by omega) (by omega)).mono ?_ fun _ _ => id
          rintro r s' ⟨⟨o', rfl, later, there⟩, second, kept'⟩
          refine ⟨⟨o', rfl, by omega, by omega⟩, ?_, kept'.trans kept⟩
          have all := first.trans second
          rwa [Set.sdiff_union_of_subset] at all
          rintro r ⟨k', rfl, low, high⟩
          exact ⟨k', rfl, by omega, high⟩
        rw [tmod_blockSize]
        refine Ends.bind_ok (blockWord_ok (by omega)) (Ends.ite (fun aligned => ?_) fun inner => ?_)
        · have member : Role.data (k + i) ∈ Active n :=
            ⟨show k + i < 266316 by omega, show 256 * (k + i) < n by omega⟩
          obtain ⟨b, block, _⟩ := own.block _ member
          rw [words i (by omega) (by omega)]
          refine Ends.bind_ok (setBlockIdle_isBlock block) ?_
          rw [show (o : Int) + (blockSize : Nat) = ((o / 256 * 256 + 256 : Nat) : Int) by
            unfold blockSize; omega]
          refine again (s.drop b) rfl ?_
          have single : dataFrom o m \ dataFrom (o / 256 * 256 + 256) m = {.data (k + i)} := by
            ext r
            constructor
            · rintro ⟨⟨k', rfl, low, high⟩, out⟩
              have : ¬ o / 256 * 256 + 256 ≤ 256 * k' := fun late => out ⟨k', rfl, late, high⟩
              rw [show k' = k + i by omega]
              rfl
            · rintro rfl
              refine ⟨⟨k + i, rfl, by omega, by omega⟩, ?_⟩
              rintro ⟨k', same, low, _⟩
              have := Role.data.inj same
              omega
          rw [single]
          exact Cleared.drop block
        · rw [← next]
          refine again s rfl ?_
          have empty : dataFrom o m \ dataFrom (o / 256 * 256 + 256) m = ∅ := by
            ext r
            constructor
            · rintro ⟨⟨k', rfl, low, high⟩, out⟩
              exact out ⟨k', rfl, by omega, high⟩
            · intro absurd
              exact absurd.elim
          rw [empty]
          exact Cleared.refl
      · rw [dataFrom_empty (by omega)]
        exact Ends.pure ⟨⟨o, rfl, by omega, fun _ => rfl⟩, Cleared.refl, rfl⟩

/-! ### The levels -/

/-- The index block of role `p`, given back when the truncation starts at its first byte. -/
theorem releaseIndex_ends {p : Role} (own : Own (Active n) image) (inside : o < n) (valid : p.Valid)
    (after : p.start ≤ o) {a : UInt32} (address : image.addr p = a) {first : Int}
    (start : first = p.start) :
    Ends (releaseIndex o first a) s
      (fun _ s' => Cleared { r | r = p ∧ o ≤ p.start } image s s' ∧ s'.indexBlock1 = s.indexBlock1)
      (fun _ _ => False) := by
  unfold releaseIndex
  refine Ends.ite (fun here => ?_) fun later => ?_
  · obtain ⟨b, block, _⟩ := own.block p ⟨valid, by omega⟩
    have single : { r | r = p ∧ o ≤ p.start } = {p} := by
      ext r
      exact ⟨fun member => member.1, fun member => ⟨member, by omega⟩⟩
    refine Ends.ok (setBlockIdle_isBlock (address ▸ block)) ⟨?_, rfl⟩
    rw [single]
    exact Cleared.drop block
  · have none : { r | r = p ∧ o ≤ p.start } = ∅ := by
      ext r
      simp only [Set.mem_ofPred_eq, Set.mem_empty_iff_false, iff_false]
      omega
    refine Ends.pure ⟨?_, rfl⟩
    rw [none]
    exact Cleared.refl

/-- The roles from `o` on of a file of `n` bytes. -/
def From (o n : Nat) : Set Role := { r | r.Valid ∧ o ≤ r.start ∧ r.start < n }

/-- The loop over the second-level blocks. -/
theorem releaseTwo_ends (own : Own (Active n) image) (disk : s.disk = image.disk)
    (size : inode.size = n) (words : ∀ j, j < 64 → s.indexBlock1 j = image.addr (.twoSub j))
    (after : 19456 ≤ o) (place : o < n → (o - 19456) / 16384 = i) {fuel : Nat}
    (enough : n - o ≤ fuel) :
    Ends (releaseTwo inode n fuel i o) s
      (fun r s' => (∃ o' : Nat, r = o' ∧ n ≤ o') ∧ Cleared (From o n \ {.two}) image s s')
      (fun _ _ => False) := by
  have bound := own.size_le
  have empty : ∀ {o}, n ≤ o → From o n \ {.two} = ∅ := by
    intro o stop
    ext r
    simp only [Set.mem_sdiff, Set.mem_empty_iff_false, iff_false]
    rintro ⟨⟨_, low, high⟩, _⟩
    omega
  induction fuel generalizing o i s with
  | zero =>
      rw [empty (by omega)]
      exact Ends.pure ⟨⟨o, rfl, by omega⟩, Cleared.refl⟩
  | succ fuel ih =>
      unfold releaseTwo
      refine Ends.ite (fun more => ?_) fun done => ?_
      · have inside : o < n := by omega
        have place := place inside
        have small : i < 64 := by omega
        have start : (Role.twoSub i).start = 19456 + 16384 * i := rfl
        have member : Role.twoSub i ∈ Active n := ⟨small, by omega⟩
        obtain ⟨b, block, _⟩ := own.block _ member
        have fits := block.fits
        have tempEnd : levelEnd1 + ((i : Int) + 1) * indexOneSize =
            ((19456 + 16384 * (i + 1) : Nat) : Int) := by
          unfold levelEnd1 indexOneSize
          push_cast
          ring
        have first : ((19456 + 16384 * (i + 1) : Nat) : Int) - indexOneSize =
            ((19456 + 16384 * i : Nat) : Int) := by
          unfold indexOneSize
          push_cast
          ring
        have slot : ((o : Int) - ((19456 + 16384 * i : Nat) : Int)).tdiv (blockSize : Nat)
            = ((o / 256 - (76 + 64 * i) : Nat) : Int) := by
          rw [← Int.ofNat_sub (by omega), tdiv_blockSize,
            show (o - (19456 + 16384 * i)) / 256 = o / 256 - (76 + 64 * i) by omega]
        refine Ends.bind (Ends.get (Ends.bind_ok (blockWord_ok small) ?_))
        rw [words i small]
        refine Ends.bind_ok (devReadBlock_ok (by omega)) (Ends.bind (Ends.modify ?_))
        dsimp only
        rw [tempEnd, min_end size, first, slot, Int.toNat_natCast]
        generalize fill : (fun j => s.disk.word ((image.addr (.twoSub i)).toNat + 4 * j)) = block2
        have entries : ∀ j, j < 64 → 256 * (76 + 64 * i + j) < n →
            block2 j = image.addr (.data (76 + 64 * i + j)) := by
          intro j smaller _
          rw [← fill, Image.addr_child _ ((isTable_twoSub small).parent j smaller),
            (isTable_twoSub small).slot j smaller, disk]
        refine Ends.bind ((releaseIndex_ends (s := s.scratch2 block2) (p := .twoSub i) own inside
          small (by omega) rfl
          (show ((19456 + 16384 * i : Nat) : Int) = _ from rfl)).mono ?_ fun _ _ => id)
        rintro _ s₁ ⟨index, kept₁⟩
        generalize stop : min n (19456 + 16384 * (i + 1)) = m
        refine Ends.bind ((releaseLoop_ends (m := m) own entries (by omega) (by omega) (by omega)
          (show m - _ ≤ inode.size.toNat by omega)).mono ?_ fun _ _ => id)
        rintro _ s₂ ⟨⟨o', rfl, later, _⟩, data, kept₂⟩
        have later := later (by omega)
        have done : Cleared ({ r | r = .twoSub i ∧ o ≤ (Role.twoSub i).start } ∪ dataFrom o m)
            image s s₂ := by
          have both := index.trans data
          exact ⟨both.disk, both.coarse, both.cursor, both.bitmap⟩
        refine (ih (o := o') (i := i + 1) (done.disk.trans disk)
          (fun j smaller => by rw [kept₂, kept₁]; exact words j smaller) (by omega) (by omega)
          (by omega)).mono ?_
          fun _ _ => id
        rintro r s' ⟨end_, rest⟩
        refine ⟨end_, ?_⟩
        have all := done.trans rest
        have roles :
          { r | r = .twoSub i ∧ o ≤ (Role.twoSub i).start } ∪ dataFrom o m ∪ (From o' n \ {.two})
            = From o n \ {.two} := by
          ext r
          have bound₁ : o' = m ∨ n ≤ o' := by omega
          cases r <;>
            simp only [Set.mem_union, Set.mem_ofPred_eq, dataFrom, From, Set.mem_sdiff,
              Set.mem_singleton_iff, Role.start, Role.Valid, Role.data.injEq, Role.twoSub.injEq,
              reduceCtorEq, exists_eq_left', false_and, true_and, not_false_eq_true, and_true,
              exists_false, false_or, not_true_eq_false, and_false, or_false] <;>
            omega
        rwa [roles] at all
      · rw [empty (by omega)]
        exact Ends.pure ⟨⟨o, rfl, by omega⟩, Cleared.refl⟩

theorem releaseLevel1_ends (own : Own (Active n) image) (disk : s.disk = image.disk)
    (index : image.index = inode.index) (size : inode.size = n) (after : 3072 ≤ o) :
    Ends (releaseLevel1 inode o) s
      (fun r s' => (∃ o' : Nat, r = o' ∧ (n ≤ 19456 ∧ n ≤ o' ∨ 19456 ≤ n ∧ o' = max o 19456)) ∧
        Cleared (From o (min n 19456)) image s s')
      (fun _ _ => False) := by
  unfold releaseLevel1
  refine Ends.ite (fun more => ?_) fun done => ?_
  · have inside : o < n := by omega
    have within : o < 19456 := by
      have := more.2
      unfold levelEnd1 at this
      omega
    have one : Role.one.start = 3072 := rfl
    obtain ⟨b, block, _⟩ := own.block .one ⟨trivial, by omega⟩
    have address : image.addr .one = inode.index 12 := congrFun index 12
    rw [address] at block
    have fits := block.fits
    have slot : ((o : Int) - levelEnd0).tdiv (blockSize : Nat) = ((o / 256 - 12 : Nat) : Int) := by
      rw [show (o : Int) - levelEnd0 = ((o - 3072 : Nat) : Int) by unfold levelEnd0; omega,
        tdiv_blockSize, show (o - 3072) / 256 = o / 256 - 12 by omega]
    refine Ends.bind_ok (devReadBlock_ok (by omega)) (Ends.bind (Ends.modify ?_))
    dsimp only
    rw [slot, Int.toNat_natCast,
      show (if inode.size < levelEnd1 then inode.size else levelEnd1) = ((min n 19456 : Nat) : Int)
        from min_end size 19456]
    generalize stop : min n 19456 = m
    generalize fill : (fun j => s.disk.word ((inode.index 12).toNat + 4 * j)) = block1
    have entries : ∀ j, j < 64 → 256 * (12 + j) < n → block1 j = image.addr (.data (12 + j)) := by
      intro j smaller _
      rw [← fill, Image.addr_child _ (isTable_one.parent j smaller), isTable_one.slot j smaller,
        address, disk]
    refine Ends.bind ((releaseIndex_ends (s := s.scratch1 block1) (p := .one) own inside
      trivial after address
      (show levelEnd0 = _ from rfl)).mono ?_ fun _ _ => id)
    rintro _ s₁ ⟨first, _⟩
    refine (releaseLoop_ends (m := m) own entries (by omega) (by omega) (by omega)
      (show m - _ ≤ inode.size.toNat by omega)).mono ?_ fun _ _ => id
    rintro _ s₂ ⟨⟨o', rfl, later, _⟩, data, _⟩
    refine ⟨⟨o', rfl, by omega⟩, ?_⟩
    have both := first.trans data
    have roles : { r | r = .one ∧ o ≤ Role.one.start } ∪ dataFrom o m = From o m := by
      have bound := own.size_le
      ext r
      cases r <;>
        simp only [Set.mem_union, Set.mem_ofPred_eq, dataFrom, From, Role.start, Role.Valid,
          Role.data.injEq, reduceCtorEq, exists_eq_left', false_and, true_and, exists_false,
          false_or, or_false, or_self, false_iff] <;>
        omega
    rw [roles] at both
    exact ⟨both.disk, both.coarse, both.cursor, both.bitmap⟩
  · have none : From o (min n 19456) = ∅ := by
      ext r
      simp only [From, Set.mem_ofPred_eq, Set.mem_empty_iff_false, iff_false]
      rintro ⟨_, low, high⟩
      unfold levelEnd1 at done
      omega
    unfold levelEnd1 at done
    refine Ends.pure ⟨⟨o, rfl, by omega⟩, ?_⟩
    rw [none]
    exact Cleared.refl

theorem releaseLevel2_ends (own : Own (Active n) image) (disk : s.disk = image.disk)
    (index : image.index = inode.index) (size : inode.size = n) (after : o < n → 19456 ≤ o) :
    Ends (releaseLevel2 inode o) s
      (fun r s' => (∃ o' : Nat, r = o' ∧ n ≤ o') ∧ Cleared (From o n) image s s')
      (fun _ _ => False) := by
  have bound := own.size_le
  unfold releaseLevel2
  refine Ends.ite (fun more => ?_) fun done => ?_
  · have inside : o < n := by omega
    have after := after inside
    have two : Role.two.start = 19456 := rfl
    obtain ⟨b, block, _⟩ := own.block .two ⟨trivial, by omega⟩
    have address : image.addr .two = inode.index 13 := congrFun index 13
    rw [address] at block
    have fits := block.fits
    have slot : ((o : Int) - levelEnd1).tdiv indexOneSize =
        (((o - 19456) / 16384 : Nat) : Int) := by
      rw [show (o : Int) - levelEnd1 = ((o - 19456 : Nat) : Int) by unfold levelEnd1; omega]
      show ((o - 19456 : Nat) : Int).tdiv (16384 : Nat) = _
      rw [← Int.ofNat_tdiv]
    have stop : (if inode.size < levelEnd2 then inode.size else levelEnd2) = (n : Int) := by
      rw [show levelEnd2 = ((1068032 : Nat) : Int) from rfl, min_end size,
        Nat.min_eq_left (by omega)]
    refine Ends.bind_ok (devReadBlock_ok (by omega)) (Ends.bind (Ends.modify ?_))
    dsimp only
    rw [slot, Int.toNat_natCast, stop]
    generalize fill : (fun j => s.disk.word ((inode.index 13).toNat + 4 * j)) = block1
    refine Ends.bind ((releaseIndex_ends (s := s.scratch1 block1) (p := .two) own inside
      trivial after address
      (show levelEnd1 = _ from rfl)).mono ?_ fun _ _ => id)
    rintro _ s₁ ⟨first, kept⟩
    have entries : ∀ j, j < 64 → s₁.indexBlock1 j = image.addr (.twoSub j) := by
      intro j _
      rw [kept, Image.addr_child _ (show (Role.twoSub j).parent = some .two from rfl),
        address, ← disk]
      exact (congrFun fill j).symm
    refine (releaseTwo_ends own (first.disk.trans disk) size entries after (fun _ => rfl)
      (show n - _ ≤ inode.size.toNat by omega)).mono ?_ fun _ _ => id
    rintro _ s₂ ⟨ended, rest⟩
    refine ⟨ended, ?_⟩
    have both := first.trans rest
    have roles : { r | r = .two ∧ o ≤ Role.two.start } ∪ (From o n \ {.two}) = From o n := by
      ext r
      cases r <;>
        simp only [Set.mem_union, Set.mem_ofPred_eq, From, Set.mem_sdiff, Set.mem_singleton_iff,
          Role.start, Role.Valid, reduceCtorEq, false_and, true_and, not_false_eq_true, and_true,
          false_or, not_true_eq_false, and_false, or_false]
      omega
    rw [roles] at both
    exact ⟨both.disk, both.coarse, both.cursor, both.bitmap⟩
  · have none : From o n = ∅ := by
      ext r
      simp only [From, Set.mem_ofPred_eq, Set.mem_empty_iff_false, iff_false]
      rintro ⟨_, low, high⟩
      unfold levelEnd2 at done
      omega
    unfold levelEnd2 at done
    refine Ends.pure ⟨⟨o, rfl, by omega⟩, ?_⟩
    rw [none]
    exact Cleared.refl

/-- The levels behind the direct blocks, from any offset behind these. -/
theorem release_indirect (own : Own (Active n) image) (disk : s.disk = image.disk)
    (index : image.index = inode.index) (size : inode.size = n) (after : 3072 ≤ o) :
    Ends (do
        let fileOffset ← releaseLevel1 inode o
        let fileOffset ← releaseLevel2 inode fileOffset
        let _ ← releaseLevel3 inode fileOffset) s
      (fun _ s' => Cleared (From o n) image s s')
      (fun _ _ => False) := by
  refine Ends.bind ((releaseLevel1_ends own disk index size after).mono ?_ fun _ _ => id)
  rintro _ s₁ ⟨⟨o₁, rfl, stop₁⟩, first⟩
  refine Ends.bind ((releaseLevel2_ends (o := o₁) own (first.disk.trans disk) index size
    (by omega)).mono ?_
    fun _ _ => id)
  rintro _ s₂ ⟨⟨o₂, rfl, stop₂⟩, second⟩
  unfold releaseLevel3
  rw [if_neg (by omega)]
  refine Ends.bind (Ends.pure (Ends.pure ?_))
  have both := first.trans second
  have roles : From o (min n 19456) ∪ From o₁ n = From o n := by
    ext r
    simp only [Set.mem_union, Set.mem_ofPred_eq, From, ← and_or_left]
    exact and_congr_right fun _ => by omega
  rwa [roles] at both

/-- **Behind the direct blocks `release_block` gives back exactly what the shorter file does not
need.** -/
theorem releaseBlock_high (own : Own (Active n) (s.image inode)) (size : inode.size = n)
    (after : 3072 ≤ o) :
    ∃ s', releaseBlock inode o s = .ok () s' ∧ Cleared (From o n) (s.image inode) s s' := by
  obtain ⟨_, s', run, cleared⟩ := (release_indirect own rfl rfl size after).run_ok
  refine ⟨s', ?_, cleared⟩
  unfold releaseBlock releaseLevel0
  rw [if_neg (by unfold levelEnd0; omega)]
  exact run

/-- The direct level does not look at the direct blocks. -/
theorem releaseLevel0_ok {o : Int} (size : inode.size = n) (before : o < 3072) (inside : o < n)
    (slot : blockIndex (inode.index 12) < 4096) :
    releaseLevel0 inode o s = .ok (3328 : Nat) (s.drop (blockIndex (inode.index 12))) := by
  unfold releaseLevel0
  rw [if_pos ⟨by omega, by unfold levelEnd0; omega⟩]
  dsimp only
  rw [if_pos (by decide), show levelEnd0.tdiv (blockSize : Nat) = ((12 : Nat) : Int) by decide,
    run_bind (slot_ok (by omega)), show inode.index (Fin.ofNat 15 12) = inode.index 12 from rfl,
    run_bind (setBlockIdle_ok slot)]
  rfl

/-- **Below it gives back the block `index[12]` names**, and the roles from byte 3328 on. -/
theorem releaseBlock_low {o : Int} (own : Own (Active n) (s.image inode)) (size : inode.size = n)
    (before : o < 3072) (inside : o < n) (slot : blockIndex (inode.index 12) < 4096) :
    ∃ s', releaseBlock inode o s = .ok () s' ∧
      Cleared (From 3328 n) (s.image inode) (s.drop (blockIndex (inode.index 12))) s' := by
  obtain ⟨_, s', run, cleared⟩ := (release_indirect (s := s.drop (blockIndex (inode.index 12)))
    (o := 3328) own rfl rfl size (by omega)).run_ok
  refine ⟨s', ?_, cleared⟩
  unfold releaseBlock
  rw [run_bind (releaseLevel0_ok size before inside slot)]
  exact run

/-- An `index[12]` that names no block of the disk stops the server. -/
theorem releaseBlock_low_error {o : Int} (size : inode.size = n) (before : o < 3072)
    (inside : o < n) (outside : 4096 ≤ blockIndex (inode.index 12)) {u : Unit} {s' : FmState} :
    releaseBlock inode o s ≠ .ok u s' := by
  intro run
  obtain ⟨o', s₁, level, -⟩ := bind_eq_ok.mp run
  unfold releaseLevel0 at level
  rw [if_pos ⟨by omega, by unfold levelEnd0; omega⟩] at level
  dsimp only at level
  rw [if_pos (by decide),
    show levelEnd0.tdiv (blockSize : Nat) = ((12 : Nat) : Int) by
    decide, run_bind (slot_ok (by omega)),
    show inode.index (Fin.ofNat 15 12) = inode.index 12 from rfl] at level
  obtain ⟨_, s₂, idle, -⟩ := bind_eq_ok.mp level
  rw [setBlockIdle_error outside] at idle
  cases idle

/-! ### Truncation frees exactly the tail -/

/-- `release_block` ends well, and clears the flags of the blocks of the roles from `o` on and no
other. -/
def FreesTail (inode : INode) (n o : Nat) (s : FmState) : Prop :=
  ∃ s', releaseBlock inode o s = .ok () s' ∧
    ∀ b, s'.blockBitmap b = true ↔
      s.blockBitmap b = true ∧ ∀ r ∈ From o n, ¬ IsBlock ((s.image inode).addr r) b

/-- The block that `index[12]` names is all that begins in the direct part of the tail: nothing
begins there and the block is free already, or it is the only one. -/
def OnlyNamed (inode : INode) (n o : Nat) (s : FmState) : Prop :=
  blockIndex (inode.index 12) < 4096 ∧
    (From o n = ∅ ∧ s.blockBitmap (blockIndex (inode.index 12)) = false ∨
      ∃ r, From o n = {r} ∧ IsBlock ((s.image inode).addr r) (blockIndex (inode.index 12)))

theorem drop_bitmap {b c : Nat} : (s.drop c).blockBitmap b = true ↔
    b ≠ c ∧ s.blockBitmap b = true := by
  show Function.update s.blockBitmap c false b = true ↔ _
  by_cases same : b = c
  · simp [same]
  · simp [same]

/-- What the property says for an offset in the direct part, where `release_block` frees the block
`index[12]` names and the roles from byte 3328 on. -/
theorem FreesTail.low (own : Own (Active n) (s.image inode)) (size : inode.size = n)
    (before : o < 3072) (inside : o < n) (frees : FreesTail inode n o s) :
    blockIndex (inode.index 12) < 4096 ∧
      ∀ b, s.blockBitmap b = true → ((b ≠ blockIndex (inode.index 12) ∧
          ∀ r ∈ From 3328 n, ¬ IsBlock ((s.image inode).addr r) b) ↔
        ∀ r ∈ From o n, ¬ IsBlock ((s.image inode).addr r) b) := by
  obtain ⟨s', run, tail⟩ := frees
  have slot : blockIndex (inode.index 12) < 4096 := by
    by_contra outside
    exact releaseBlock_low_error size (by omega) (by omega) (by omega) run
  obtain ⟨s₁, low, cleared⟩ := releaseBlock_low (o := o) own size (by omega) (by omega) slot
  rw [run] at low
  cases low
  refine ⟨slot, fun b used => ?_⟩
  have both := (cleared.bitmap b).symm.trans (tail b)
  rw [drop_bitmap] at both
  simpa [used] using both

/-- With a direct offset, a role that begins before byte 3328 is freed only as the block `index[12]`
names. -/
theorem FreesTail.named (own : Own (Active n) (s.image inode)) (size : inode.size = n)
    (before : o < 3072) (inside : o < n) (frees : FreesTail inode n o s) {r : Role}
    (member : r ∈ From o n) (early : r.start < 3328) :
    IsBlock ((s.image inode).addr r) (blockIndex (inode.index 12)) := by
  obtain ⟨b, block, used⟩ := own.block r ⟨member.1, member.2.2⟩
  by_cases same : b = blockIndex (inode.index 12)
  · rw [← same]
    exact block
  refine absurd
    block ((((frees.low own size before inside).2 b used).mp ⟨same, fun d later other => ?_⟩) r
      member)
  have same := own.apart d ⟨later.1, later.2.2⟩ r ⟨member.1, member.2.2⟩
    (UInt32.toNat_inj.mp (other.2.trans block.2.symm))
  have := later.2.1
  rw [same] at this
  omega

/-- **Truncation frees exactly the tail** behind the direct blocks; before, only where the block
`index[12]` names happens to be the tail. -/
theorem frees_tail_iff (own : Own (Active n) (s.image inode)) (size : inode.size = n)
    (inside : o < n) :
    FreesTail inode n o s ↔ 3072 ≤ o ∨ n ≤ 3072 ∧ OnlyNamed inode n o s := by
  constructor
  · intro frees
    by_cases high : 3072 ≤ o
    · exact .inl high
    have before : o < 3072 := by omega
    have named := fun r member early => frees.named own size before inside (r := r) member early
    obtain ⟨slot, tail⟩ := frees.low own size before inside
    have direct : n ≤ 3072 := by
      by_contra single
      -- `index[12]` and the first block behind it begin at the same byte.
      have one : Role.one ∈ From o n := ⟨trivial, show o ≤ 3072 by omega, show 3072 < n by omega⟩
      have data : Role.data 12 ∈ From o n :=
        ⟨show 12 < 266316 by omega, show o ≤ 3072 by omega, show 3072 < n by omega⟩
      have same := own.apart .one ⟨one.1, one.2.2⟩ (.data 12) ⟨data.1, data.2.2⟩
        (UInt32.toNat_inj.mp ((named _ one (show 3072 < 3328 by omega)).2.trans
          (named _ data (show 3072 < 3328 by omega)).2.symm))
      cases same
    refine .inr ⟨direct, slot, ?_⟩
    rcases Set.eq_empty_or_nonempty (From o n) with none | ⟨r, member⟩
    · refine .inl ⟨none, Bool.eq_false_of_not_eq_true fun used => ?_⟩
      refine ((tail _ used).mpr fun r member => ?_).1 rfl
      rw [none] at member
      exact member.elim
    · have here := named r member (by have := member.2.2; omega)
      refine .inr ⟨r, Set.eq_singleton_iff_unique_mem.mpr ⟨member, fun r' other => ?_⟩, here⟩
      have there := named r' other (by have := other.2.2; omega)
      exact own.apart r' ⟨other.1, other.2.2⟩ r ⟨member.1, member.2.2⟩
        (UInt32.toNat_inj.mp (there.2.trans here.2.symm))
  · rintro (high | ⟨direct, slot, cases⟩)
    · obtain ⟨s', run, cleared⟩ := releaseBlock_high own size high
      exact ⟨s', run, cleared.bitmap⟩
    by_cases high : 3072 ≤ o
    · omega
    obtain ⟨s', run, cleared⟩ := releaseBlock_low (o := o) own size (by omega) (by omega) slot
    refine ⟨s', run, fun b => ?_⟩
    rw [cleared.bitmap, drop_bitmap, and_comm (a := b ≠ _), and_assoc]
    refine and_congr_right fun used => ?_
    have none : ∀ r ∈ From 3328 n, ¬ IsBlock ((s.image inode).addr r) b := by
      rintro r ⟨-, low, below⟩
      omega
    rw [and_iff_left none]
    rcases cases with ⟨empty, free⟩ | ⟨r, single, block⟩
    · rw [empty]
      refine ⟨fun _ _ member => member.elim, fun _ same => ?_⟩
      rw [same, free] at used
      cases used
    · rw [single]
      constructor
      · rintro other _ rfl there
        exact other (there.unique block)
      · rintro free rfl
        exact free r rfl block

end Release

/-- The address of block `b`. -/
def blockAt (b : Nat) : UInt32 := UInt32.ofNat (82944 + 256 * b)

theorem isBlock_blockAt {b : Nat} (small : b < 4096) : IsBlock (blockAt b) b :=
  ⟨small, UInt32.toNat_ofNat_of_lt' (show 82944 + 256 * b < 4294967296 by omega)⟩

/-- A file of 300 bytes in the blocks 0 and 1; its unused slots name blocks that are free. -/
def smallInode : INode where
  size := 300
  type := plainType
  devId := 0
  link := 0
  index i := blockAt i

/-- A disk of zeros with the first two blocks in use. -/
def smallState : FmState := { zeroState with blockBitmap := fun b => b < 2 }

theorem small_active {r : Role} (member : r ∈ Active 300) : r = .data 0 ∨ r = .data 1 := by
  have needed := member.2
  cases r with
  | data k =>
      change 256 * k < 300 at needed
      obtain rfl | rfl : k = 0 ∨ k = 1 := by omega
      · exact .inl rfl
      · exact .inr rfl
  | one => exact absurd needed (by decide)
  | two => exact absurd needed (by decide)
  | three => exact absurd needed (by decide)
  | twoSub j =>
      change 19456 + 16384 * j < 300 at needed
      omega
  | threeSub i =>
      change 1068032 + 1048576 * i < 300 at needed
      omega
  | threeSubSub i j =>
      change 1068032 + 1048576 * i + 16384 * j < 300 at needed
      omega

theorem small_own : Own (Active 300) (smallState.image smallInode) where
  closed := active_closed 300
  valid _ member := member.1
  block r member := by
    rcases small_active member with rfl | rfl
    · exact ⟨0, isBlock_blockAt (by omega), rfl⟩
    · exact ⟨1, isBlock_blockAt (by omega), rfl⟩
  apart r here r' there same := by
    rcases small_active here with rfl | rfl <;> rcases small_active there with rfl | rfl
    · rfl
    · exact absurd same (by decide)
    · exact absurd same (by decide)
    · rfl

/-- A file of 3073 bytes: its last byte lies in block 13, which block 12 leads to. -/
def indexedInode : INode := { smallInode with size := 3073 }

/-- The blocks 0 to 13 are in use. -/
def indexedState : FmState where
  __ := zeroState
  disk := zeroState.disk.writeWords (82944 + 256 * 12) 1 fun _ => blockAt 13
  blockBitmap b := b < 14

/-- The blocks of that file. -/
def indexedPlace : Role → Nat
  | .data k => if k < 12 then k else 13
  | _ => 12

theorem indexed_active {r : Role} (member : r ∈ Active 3073) :
    r = .one ∨ ∃ k, k < 13 ∧ r = .data k := by
  have needed := member.2
  cases r with
  | data k =>
      change 256 * k < 3073 at needed
      exact .inr ⟨k, by omega, rfl⟩
  | one => exact .inl rfl
  | two | three =>
      simp only [Role.start] at needed
      omega
  | twoSub _ | threeSub _ | threeSubSub _ _ =>
      simp only [Role.start] at needed
      omega

theorem indexed_block {r : Role} (member : r ∈ Active 3073) :
    IsBlock ((indexedState.image indexedInode).addr r) (indexedPlace r) ∧ indexedPlace r < 14 := by
  rcases indexed_active member with rfl | ⟨k, small, rfl⟩
  · exact ⟨isBlock_blockAt (by omega), by decide⟩
  · have place : indexedPlace (.data k) = if k < 12 then k else 13 := rfl
    by_cases direct : k < 12
    · rw [Image.addr_direct _ direct, place, if_pos direct]
      have slot : (Fin.ofNat 15 k).val = k := Nat.mod_eq_of_lt (by omega)
      refine ⟨?_, by omega⟩
      show IsBlock (blockAt (Fin.ofNat 15 k).val) k
      rw [slot]
      exact isBlock_blockAt (by omega)
    · obtain rfl : k = 12 := by omega
      exact ⟨⟨by decide, by decide⟩, by decide⟩

theorem indexed_own : Own (Active 3073) (indexedState.image indexedInode) where
  closed := active_closed 3073
  valid _ member := member.1
  block r member := by
    obtain ⟨block, used⟩ := indexed_block member
    exact ⟨_, block, decide_eq_true used⟩
  apart r here r' there same := by
    have block := (indexed_block here).1
    rw [same] at block
    have place := block.unique (indexed_block there).1
    rcases indexed_active here with rfl | ⟨k, small, rfl⟩ <;>
      rcases indexed_active there with rfl | ⟨k', small', rfl⟩ <;>
      simp only [indexedPlace] at place
    · rfl
    · split_ifs at place <;> omega
    · split_ifs at place <;> omega
    · congr 1
      split_ifs at place <;> omega

/-- **Cutting the last byte** frees the block of indices and the block it leads to. -/
theorem indexed_frees_tail : FreesTail indexedInode 3073 3072 indexedState ∧
    ∃ s', releaseBlock indexedInode 3072 indexedState = .ok () s' ∧ s'.blockBitmap 11 = true ∧
      s'.blockBitmap 12 = false ∧ s'.blockBitmap 13 = false :=
  ⟨(frees_tail_iff indexed_own rfl (by omega)).mpr (.inl le_rfl),
    _, run_of_outcome (by decide +kernel), by decide +kernel, by decide +kernel, by decide +kernel⟩

/-- Cutting the whole file frees block 12, and neither of its own. -/
theorem small_keeps_tail :
    ¬ ∀ (inode : INode) (n o : Nat) (s : FmState), Own (Active n) (s.image inode) →
    inode.size = n → n ≤ 1068032 → o < n → FreesTail inode n o s := by
  intro all
  have frees := all smallInode 300 0 smallState small_own rfl (by omega) (by omega)
  have named := frees.named small_own rfl (by omega) (by omega) (r := .data 0)
    ⟨show 0 < 266316 by omega, Nat.zero_le _, show 0 < 300 by omega⟩ (show 0 < 3328 by omega)
  exact absurd (named.unique (isBlock_blockAt (b := 0) (by omega))) (by decide)

end NjuOs.FileSystem
