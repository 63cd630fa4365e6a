/-
**Reading: what `read_data` delivers.**

`readData_ends`: on a file whose blocks are its own, `read_data` delivers the bytes from the offset
on, as many as are asked for and the file has, and changes nothing but the scratch index blocks. Its
one failure is a read beyond the end of a file that reaches the double-indirect level: the test
before the last level lets it through, and the driver refuses the garbage address in `index[14]`.
-/

import NjuOs.FileSystem.Append

namespace NjuOs.FileSystem

open NjuOs.Lib

/-- The state without the scratch index blocks. -/
def FmState.unscratch (s : FmState) : FmState :=
  { s with indexBlock1 := fun _ => 0, indexBlock2 := fun _ => 0, indexBlock3 := fun _ => 0 }

theorem FmState.eq_of_unscratch {s s' : FmState} (same : s'.unscratch = s.unscratch) :
    s' = { s with
      indexBlock1 := s'.indexBlock1
      indexBlock2 := s'.indexBlock2
      indexBlock3 := s'.indexBlock3 } := by
  cases s
  cases s'
  simp only [FmState.unscratch, FmState.mk.injEq] at same ⊢
  tauto

/-- The `c` bytes from `o` on of the file an image shows. -/
def Image.bytes (image : Image) (o c : Nat) : List UInt8 :=
  (List.range c).map fun i => image.byte (o + i)

@[simp] theorem Image.bytes_length (image : Image) (o c : Nat) : (image.bytes o c).length = c := by
  simp [Image.bytes]

theorem Image.bytes_add (image : Image) (o c c' : Nat) :
    image.bytes o (c + c') = image.bytes o c ++ image.bytes (o + c) c' := by
  simp only [Image.bytes, List.range_add, List.map_append, List.map_map]
  congr 1
  refine List.map_congr_left fun i _ => ?_
  simp [Nat.add_assoc]

/-- The variables of `read_data` when `c` more bytes are delivered from offset `o`. -/
def Reading.advance (r : Reading) (image : Image) (o c : Nat) : Reading where
  fileOffset := (o + c : Nat)
  len := r.len - c
  delivered := r.delivered ++ image.bytes o c

theorem Reading.advance_advance (r : Reading) (image : Image) (o c c' : Nat) :
    (r.advance image o c).advance image (o + c) c' = r.advance image o (c + c') := by
  unfold Reading.advance
  rw [Image.bytes_add, List.append_assoc, Nat.add_assoc]
  congr 1
  push_cast
  ring

/-- A first part does not pass a bound, and what is left goes up to it. -/
theorem Reading.advance_upTo {r : Reading} {image : Image} {o c m : Nat}
    (fits : c ≤ min r.len.toNat (m - o)) :
    (r.advance image o c).advance image (o + c) (min (r.advance image o c).len.toNat (m - (o + c)))
      = r.advance image o (min r.len.toNat (m - o)) := by
  have left : (r.advance image o c).len = r.len - c := rfl
  have total : c + min (r.advance image o c).len.toNat (m - (o + c)) = min r.len.toNat (m - o) := by
    omega
  rw [Reading.advance_advance, total]

theorem Reading.advance_zero {r : Reading} {o : Nat} (offset : r.fileOffset = o) (image : Image) :
    r.advance image o 0 = r := by
  unfold Reading.advance
  simp [Image.bytes, ← offset]

section Read

variable {n o i k m : Nat} {s : FmState} {inode : INode} {r : Reading} {image : Image}

theorem curReadLen_eq {len : Int} {size : Nat} (inside : o < size) (positive : 0 < len) :
    curReadLen len o size = ((min (min (256 - o % 256) len.toNat) (size - o) : Nat) : Int) := by
  unfold curReadLen
  simp only [tmod_blockSize]
  unfold blockSize
  split_ifs <;> omega

/-- One turn of a reading loop, at a data block of the file. -/
theorem readTurn_ok (own : Own (Active n) image) (disk : s.disk = image.disk)
    (offset : r.fileOffset = o) (inside : o < n) (positive : 0 < r.len) {a : UInt32}
    (address : image.addr (.data (o / 256)) = a) :
    readTurn n a r s
      = .ok (r.advance image o (min (min (256 - o % 256) r.len.toNat) (n - o))) s := by
  obtain ⟨c, count⟩ : ∃ c, min (min (256 - o % 256) r.len.toNat) (n - o) = c := ⟨_, rfl⟩
  have member : Role.data (o / 256) ∈ Active n := by
    have := own.size_le
    exact active_covers (by omega) o inside
  obtain ⟨b, block, _⟩ := own.block _ member
  rw [address] at block
  have fits := block.fits
  have start : (a + UInt32.ofInt ((o % 256 : Nat) : Int)).toNat = a.toNat + o % 256 :=
    toNat_add_offset (by omega)
  have bytes : s.disk.read (a.toNat + o % 256) c = image.bytes o c := by
    unfold Store.read Image.bytes
    refine List.map_congr_left fun i below => ?_
    have below := List.mem_range.mp below
    unfold Image.byte
    rw [show (o + i) / 256 = o / 256 by
      omega, show (o + i) % 256 = o % 256 + i by omega, address, disk, Nat.add_assoc]
  unfold readTurn
  rw [offset, tmod_blockSize, curReadLen_eq inside positive, count]
  rw [run_bind (devRead_ok (by rw [start]; omega)), start, bytes]
  rfl

theorem readDirect_ok (own : Own (Active n) image) (disk : s.disk = image.disk)
    (index : image.index = inode.index) (size : inode.size = n) (offset : r.fileOffset = o)
    (bound : m ≤ n) (last : m ≤ 3072) (lastBlock : m = n ∨ m = 3072) {fuel : Nat}
    (enough : r.len.toNat ≤ fuel) :
    readDirect inode m fuel r s = .ok (r.advance image o (min r.len.toNat (m - o))) s := by
  induction fuel generalizing r o with
  | zero =>
      rw [show min r.len.toNat (m - o) = 0 by omega, Reading.advance_zero offset]
      rfl
  | succ fuel ih =>
      unfold readDirect
      split
      · next more =>
        have inside : o < m := by omega
        obtain ⟨c, count⟩ : ∃ c, min (min (256 - o % 256) r.len.toNat) (n - o) = c := ⟨_, rfl⟩
        have address : image.addr (.data (o / 256)) = inode.index (Fin.ofNat 15 (o / 256)) := by
          rw [Image.addr_direct _ (by omega), index]
        have turn := readTurn_ok own disk offset (by omega) more.2 address
        rw [← size, count] at turn
        rw [offset, tdiv_blockSize]
        rw [run_bind (slot_ok (by omega)), run_bind turn]
        have left : (r.advance image o c).len = r.len - c := rfl
        have fits : c ≤ min r.len.toNat (m - o) := by omega
        rw [ih (r := r.advance image o c) (o := o + c) rfl (by omega), Reading.advance_upTo fits]
      · next done =>
        rw [show min r.len.toNat (m - o) = 0 by omega, Reading.advance_zero offset]
        rfl

/-- **The innermost reading loop**, over a table that holds the addresses of the file's blocks. -/
theorem readLoop_ok (own : Own (Active n) image) (disk : s.disk = image.disk) {table : Nat → UInt32}
    (words : ∀ j, j < 64 → 256 * (k + j) < n → table j = image.addr (.data (k + j)))
    (offset : r.fileOffset = o) (place : 0 < r.len → o < m → o / 256 = k + i) (bound : m ≤ n)
    (last : m ≤ 256 * (k + 64)) (lastBlock : m = n ∨ m = 256 * (k + 64)) {fuel : Nat}
    (enough : r.len.toNat ≤ fuel) :
    readLoop table n m fuel i r s = .ok (r.advance image o (min r.len.toNat (m - o))) s := by
  induction fuel generalizing r o i with
  | zero =>
      rw [show min r.len.toNat (m - o) = 0 by omega, Reading.advance_zero offset]
      rfl
  | succ fuel ih =>
      unfold readLoop
      split
      · next more =>
        have inside : o < m := by omega
        have place := place more.2 inside
        obtain ⟨c, count⟩ : ∃ c, min (min (256 - o % 256) r.len.toNat) (n - o) = c := ⟨_, rfl⟩
        have address : image.addr (.data (o / 256)) = table i := by
          rw [place, words i (by omega) (by omega)]
        have turn := readTurn_ok own disk offset (by omega) more.2 address
        rw [count] at turn
        rw [run_bind (blockWord_ok (by omega)), run_bind turn]
        have left : (r.advance image o c).len = r.len - c := rfl
        have fits : c ≤ min r.len.toNat (m - o) := by omega
        rw [ih (r := r.advance image o c) (o := o + c) (i := i + 1) rfl (by omega) (by omega),
          Reading.advance_upTo fits]
      · next done =>
        rw [show min r.len.toNat (m - o) = 0 by omega, Reading.advance_zero offset]
        rfl

theorem min_end {size : Int} (holds : size = n) (e : Nat) :
    (if size < (e : Int) then size else (e : Int)) = ((min n e : Nat) : Int) := by
  split <;> omega

/-- The loop over the second-level blocks. -/
theorem readTwo_ends (own : Own (Active n) image) (disk : s.disk = image.disk)
    (size : inode.size = n) (words : ∀ j, j < 64 → s.indexBlock1 j = image.addr (.twoSub j))
    (offset : r.fileOffset = o) (after : 19456 ≤ o)
    (place : 0 < r.len → o < n → (o - 19456) / 16384 = i) {fuel : Nat}
    (enough : r.len.toNat ≤ fuel) :
    Ends (readTwo inode n fuel i r) s
      (fun r' s' => r' = r.advance image o (min r.len.toNat (n - o)) ∧ s'.unscratch = s.unscratch)
      (fun _ _ => False) := by
  have bound := own.size_le
  induction fuel generalizing r o i s with
  | zero =>
      rw [show min r.len.toNat (n - o) = 0 by omega, Reading.advance_zero offset]
      exact Ends.pure ⟨rfl, rfl⟩
  | succ fuel ih =>
      unfold readTwo
      refine Ends.ite (fun more => ?_) fun done => ?_
      · have inside : o < n := by omega
        have place := place more.2 inside
        have small : i < 64 := by omega
        have start : (Role.twoSub i).start = 19456 + 16384 * i := rfl
        have member : Role.twoSub i ∈ Active n := ⟨small, by omega⟩
        obtain ⟨b, block, _⟩ := own.block _ member
        have fits := block.fits
        obtain ⟨c, count⟩ : ∃ c, min r.len.toNat (min n (19456 + 16384 * (i + 1)) - o) = c :=
          ⟨_, rfl⟩
        have fits : c ≤ min r.len.toNat (n - o) := by omega
        have tempEnd : levelEnd1 + ((i : Int) + 1) * indexOneSize =
            ((19456 + 16384 * (i + 1) : Nat) : Int) := by
          unfold levelEnd1 indexOneSize
          push_cast
          ring
        have slot : (r.fileOffset - (((19456 + 16384 * (i + 1) : Nat) : Int) - indexOneSize)).tdiv
          (blockSize : Nat)
            = ((o / 256 - (76 + 64 * i) : Nat) : Int) := by
          rw [offset, show (o : Int) - (((19456 + 16384 * (i + 1) : Nat) : Int) - indexOneSize)
            = ((o - (19456 + 16384 * i) : Nat) : Int) by unfold indexOneSize; omega, tdiv_blockSize,
            show (o - (19456 + 16384 * i)) / 256 = o / 256 - (76 + 64 * i) by omega]
        refine Ends.bind (Ends.get (Ends.bind_ok (blockWord_ok small) ?_))
        rw [words i small]
        refine Ends.bind_ok (devReadBlock_ok (by omega)) (Ends.bind (Ends.modify ?_))
        dsimp only
        rw [tempEnd, min_end size, slot, Int.toNat_natCast, size]
        generalize fill : (fun j => s.disk.word ((image.addr (.twoSub i)).toNat + 4 * j)) = block2
        have entries : ∀ j, j < 64 → 256 * (76 + 64 * i + j) < n →
            block2 j = image.addr (.data (76 + 64 * i + j)) := by
          intro j smaller _
          rw [← fill, Image.addr_child _ ((isTable_twoSub small).parent j smaller),
            (isTable_twoSub small).slot j smaller, disk]
        have inner := readLoop_ok (i := o / 256 - (76 + 64 * i)) (r := r)
          (m := min n (19456 + 16384 * (i + 1))) (s := s.scratch2 block2) own disk entries
          offset (by omega)
          (min_le_left _ _) (by omega) (by omega) le_rfl
        rw [count] at inner
        refine Ends.bind_ok inner ?_
        have left : (r.advance image o c).len = r.len - c := rfl
        have enough : (r.advance image o c).len.toNat ≤ fuel := by omega
        have reached : 0 < r.len - c → o + c < n → o + c = 19456 + 16384 * (i + 1) := by omega
        have next : 0 < r.len - c → o + c < n → (o + c - 19456) / 16384 = i + 1 := by
          intro more inside
          rw [reached more inside, Nat.add_sub_cancel_left, Nat.mul_div_cancel_left _ (by decide)]
        refine (ih (s := s.scratch2 block2) (r := r.advance image o c) (o := o + c)
          (i := i + 1) disk
          words rfl (Nat.le_add_right_of_le after) next enough).mono ?_ fun _ _ => id
        rintro r' s' ⟨rfl, same⟩
        exact ⟨Reading.advance_upTo fits, same⟩
      · rw [show min r.len.toNat (n - o) = 0 by omega, Reading.advance_zero offset]
        exact Ends.pure ⟨rfl, rfl⟩

/-! ### The levels -/

theorem readLevel0_ok (own : Own (Active n) image) (disk : s.disk = image.disk)
    (index : image.index = inode.index) (size : inode.size = n) (offset : r.fileOffset = o) :
    readLevel0 inode r s = .ok (r.advance image o (min r.len.toNat (min n 3072 - o))) s := by
  unfold readLevel0
  split
  · show readDirect inode (if inode.size < ((3072 : Nat) : Int) then inode.size
      else ((3072 : Nat) : Int))
      r.len.toNat r s = _
    rw [min_end size]
    exact readDirect_ok own disk index size offset (by omega) (by omega) (by omega) le_rfl
  · next done =>
    unfold levelEnd0 at done
    rw [show min r.len.toNat (min n 3072 - o) = 0 by omega, Reading.advance_zero offset]
    rfl

theorem readLevel1_ends (own : Own (Active n) image) (disk : s.disk = image.disk)
    (index : image.index = inode.index) (size : inode.size = n) (offset : r.fileOffset = o)
    (inside : o < n) (after : 0 < r.len → 3072 ≤ o) :
    Ends (readLevel1 inode r) s
      (fun r' s' => r' = r.advance image o (min r.len.toNat (min n 19456 - o)) ∧
        s'.unscratch = s.unscratch)
      (fun _ _ => False) := by
  unfold readLevel1
  refine Ends.ite (fun more => ?_) fun done => ?_
  · have after := after more.2
    have within : o < 19456 := by
      have := more.1
      unfold levelEnd1 at this
      omega
    have member : Role.one ∈ Active n := ⟨trivial, show 3072 < n by omega⟩
    obtain ⟨b, block, _⟩ := own.block _ member
    have address : image.addr .one = inode.index 12 := congrFun index 12
    rw [address] at block
    have fits := block.fits
    have slot : (r.fileOffset - levelEnd0).tdiv (blockSize : Nat) =
        ((o / 256 - 12 : Nat) : Int) := by
      rw [offset, show (o : Int) - levelEnd0 = ((o - 3072 : Nat) : Int) by unfold levelEnd0; omega,
        tdiv_blockSize, show (o - 3072) / 256 = o / 256 - 12 by omega]
    refine Ends.bind_ok (devReadBlock_ok (by omega)) (Ends.bind (Ends.modify ?_))
    dsimp only
    rw [slot, Int.toNat_natCast,
      show (if inode.size < levelEnd1 then inode.size else levelEnd1) = ((min n 19456 : Nat) : Int)
        from min_end size 19456, size]
    generalize fill : (fun j => s.disk.word ((inode.index 12).toNat + 4 * j)) = block1
    have entries : ∀ j, j < 64 → 256 * (12 + j) < n → block1 j = image.addr (.data (12 + j)) := by
      intro j smaller _
      rw [← fill, Image.addr_child _ (isTable_one.parent j smaller), isTable_one.slot j smaller,
        address, disk]
    exact Ends.ok (readLoop_ok (m := min n 19456) (i := o / 256 - 12) (s := s.scratch1 block1)
      own disk entries
      offset (by omega) (by omega) (by omega) (by omega) le_rfl) ⟨rfl, rfl⟩
  · unfold levelEnd1 at done
    rw [show min r.len.toNat (min n 19456 - o) = 0 by omega, Reading.advance_zero offset]
    exact Ends.pure ⟨rfl, rfl⟩

theorem readLevel2_ends (own : Own (Active n) image) (disk : s.disk = image.disk)
    (index : image.index = inode.index) (size : inode.size = n) (offset : r.fileOffset = o)
    (inside : o < n) (after : 0 < r.len → 19456 ≤ o) :
    Ends (readLevel2 inode r) s
      (fun r' s' => r' = r.advance image o (min r.len.toNat (n - o)) ∧ s'.unscratch = s.unscratch)
      (fun _ _ => False) := by
  have bound := own.size_le
  unfold readLevel2
  refine Ends.ite (fun more => ?_) fun done => ?_
  · have after := after more.2
    have member : Role.two ∈ Active n := ⟨trivial, show 19456 < n by omega⟩
    obtain ⟨b, block, _⟩ := own.block _ member
    have address : image.addr .two = inode.index 13 := congrFun index 13
    rw [address] at block
    have fits := block.fits
    have slot : (r.fileOffset - levelEnd1).tdiv indexOneSize =
        (((o - 19456) / 16384 : Nat) : Int) := by
      rw [offset, show (o : Int) - levelEnd1 = ((o - 19456 : Nat) : Int) by unfold levelEnd1; omega]
      show ((o - 19456 : Nat) : Int).tdiv (16384 : Nat) = _
      rw [← Int.ofNat_tdiv]
    have stop : (if inode.size < levelEnd2 then inode.size else levelEnd2) = (n : Int) := by
      rw [show levelEnd2 = ((1068032 : Nat) : Int) from rfl, min_end size,
        Nat.min_eq_left (by omega)]
    refine Ends.bind_ok (devReadBlock_ok (by omega)) (Ends.bind (Ends.modify ?_))
    dsimp only
    rw [slot, Int.toNat_natCast, stop]
    generalize fill : (fun j => s.disk.word ((inode.index 13).toNat + 4 * j)) = block1
    have entries : ∀ j, j < 64 → block1 j = image.addr (.twoSub j) := by
      intro j _
      rw [← fill, Image.addr_child _ (show (Role.twoSub j).parent = some .two from rfl),
        address, ← disk]
      rfl
    exact readTwo_ends (s := s.scratch1 block1) own disk size entries offset after
      (fun _ _ => rfl) le_rfl
  · unfold levelEnd2 at done
    rw [show min r.len.toNat (n - o) = 0 by omega, Reading.advance_zero offset]
    exact Ends.pure ⟨rfl, rfl⟩

/-- What the last level does at the end of a file: it reads the block `index[14]` names and delivers
nothing. -/
theorem readLevel3_ends (size : inode.size = n) (offset : r.fileOffset = o)
    (rest : 0 < r.len → n ≤ o) :
    Ends (readLevel3 inode r) s (fun r' s' => r' = r ∧ s'.unscratch = s.unscratch ∧
        (0 < r.len → (inode.index 14).toNat + 256 < 4194304))
      (fun f _ => f = .panic ∧ 0 < r.len ∧ 4194304 ≤ (inode.index 14).toNat + 256) := by
  unfold readLevel3
  refine Ends.ite (fun more => ?_) fun done => Ends.pure ⟨rfl, rfl, fun more => absurd more done⟩
  by_cases fits : (inode.index 14).toNat + 256 < 4194304
  · refine Ends.bind_ok (devReadBlock_ok fits) (Ends.bind (Ends.modify ?_))
    dsimp only
    have stop : ¬ r.fileOffset < if inode.size < levelEnd3 then inode.size else levelEnd3 := by
      have := rest more
      split <;> omega
    cases r.len.toNat with
    | zero => exact Ends.pure ⟨rfl, rfl, fun _ => fits⟩
    | succ fuel =>
        unfold readThree
        rw [if_neg fun run => stop run.1]
        exact Ends.pure ⟨rfl, rfl, fun _ => fits⟩
  · refine Ends.bind ?_
    unfold devReadBlock
    rw [if_neg (by unfold blockSize ramdiskSize; omega)]
    exact Ends.throw ⟨rfl, more, by omega⟩

/-- A read that begins before the end of a file with two levels and goes on behind it: the last
level is entered, and the block `index[14]` names lies outside the disk. -/
def Stray (inode : INode) (n o : Nat) (len : Int) : Prop :=
  19456 < n ∧ o < n ∧ n < o + len.toNat ∧ 4194304 ≤ (inode.index 14).toNat + 256

/-- **`read_data` delivers the bytes the file has from the offset on**, as many as are asked for.
The flags of the file's blocks are not looked at. -/
theorem readData_image_ends (own : Own (Active n) image) (disk : s.disk = image.disk)
    (index : image.index = inode.index) (size : inode.size = n) (o : Nat) (len : Int) :
    Ends (readData o inode len) s
      (fun bytes s' => bytes = image.bytes o (min len.toNat (n - o)) ∧ s'.unscratch = s.unscratch ∧
        ¬ Stray inode n o len)
      (fun f _ => f = .panic ∧ Stray inode n o len) := by
  have bound := own.size_le
  unfold Stray
  unfold readData
  generalize start : (⟨o, len, []⟩ : Reading) = r₀
  have offset₀ : r₀.fileOffset = o := by rw [← start]
  have len₀ : r₀.len = len := by rw [← start]
  -- the variables when `c` bytes are delivered
  have after : ∀ {c : Nat} {r : Reading}, r₀.advance image o c = r →
      r.fileOffset = (o + c : Nat) ∧ r.len = len - c ∧ r.delivered = image.bytes o c := by
    rintro c _ rfl
    rw [← start]
    exact ⟨rfl, rfl, rfl⟩
  refine Ends.bind_ok (readLevel0_ok own disk index size offset₀) ?_
  rw [len₀]
  generalize count₀ : min len.toNat (min n 3072 - o) = c₀
  generalize step₁ : r₀.advance image o c₀ = r₁
  obtain ⟨offset₁, left₁, bytes₁⟩ := after step₁
  refine Ends.ite (fun stop => Ends.pure ⟨?_, rfl, by omega⟩) fun goes => ?_
  · rw [bytes₁, show min len.toNat (n - o) = c₀ by omega]
  refine Ends.bind ((readLevel1_ends own disk index size offset₁ (by omega) (by omega)).mono ?_
    fun _ _ => False.elim)
  rintro _ s₁ ⟨rfl, same₁⟩
  have fits₁ : c₀ ≤ min r₀.len.toNat (min n 19456 - o) := by omega
  rw [← step₁, Reading.advance_upTo fits₁, len₀]
  clear fits₁ left₁ offset₁ bytes₁ step₁ goes count₀
  generalize count₁ : min len.toNat (min n 19456 - o) = c₁
  generalize step₂ : r₀.advance image o c₁ = r₂
  obtain ⟨offset₂, left₂, bytes₂⟩ := after step₂
  refine Ends.ite (fun stop => Ends.pure ⟨?_, same₁, by omega⟩) fun goes => ?_
  · rw [bytes₂, show min len.toNat (n - o) = c₁ by omega]
  have disk₁ : s₁.disk = image.disk := (congrArg FmState.disk same₁).trans disk
  refine Ends.bind ((readLevel2_ends own disk₁ index size offset₂ (by omega) (by omega)).mono ?_
    fun _ _ => False.elim)
  rintro _ s₂ ⟨rfl, same₂⟩
  have fits₂ : c₁ ≤ min r₀.len.toNat (n - o) := by omega
  rw [← step₂, Reading.advance_upTo fits₂, len₀]
  generalize step₃ : r₀.advance image o (min len.toNat (n - o)) = r₃
  obtain ⟨offset₃, left₃, all⟩ := after step₃
  refine Ends.ite (fun stop => Ends.pure ⟨all, same₂.trans same₁, by omega⟩) fun _ => ?_
  refine Ends.bind ((readLevel3_ends size offset₃ (by omega)).mono ?_ ?_)
  · rintro _ s₃ ⟨rfl, same₃, fits⟩
    exact Ends.pure ⟨all, same₃.trans (same₂.trans same₁),
      fun stray => by have := fits (by omega); omega⟩
  · rintro f _ ⟨rfl, more, far⟩
    exact ⟨rfl, by omega, by omega, by omega, far⟩

/-- The same for a file whose blocks are marked. -/
theorem readData_ends (own : Own (Active n) (s.image inode)) (size : inode.size = n) (o : Nat)
    (len : Int) :
    Ends (readData o inode len) s
      (fun bytes s' => bytes = (s.image inode).bytes o (min len.toNat (n - o)) ∧
        s'.unscratch = s.unscratch) (fun f _ => f = .panic ∧ 19456 < n ∧ o < n ∧ n < o + len.toNat ∧
        4194304 ≤ (inode.index 14).toNat + 256) :=
  (readData_image_ends own rfl rfl size o len).mono
  (fun _ _ ends => ⟨ends.1, ends.2.1⟩) fun _ _ => id

end Read

end NjuOs.FileSystem
