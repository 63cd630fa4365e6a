/-
**Three walks over one index tree.**

`blockAddr` is the reference walk. `read_data`, `write_data` and `_remove_inode_from_dir` each have
their own code for it, four levels long. Up to the end of the double-indirect level all three follow
the reference, for every index array and every disk; in the last one `_remove_inode_from_dir` looks
for the second-level block in `index_block2`, which it has not filled yet, so what it finds depends
on the request before (`one_block_map_iff`).

As for `read_data`, the addresses `write_data` uses are written down: `Logged.writeData` is
`write_data` with a note of every store of data.
-/

import NjuOs.FileSystem.ReadLog

namespace NjuOs.FileSystem

open NjuOs.Lib

/-- What a read of an index block gives. -/
theorem devReadBlock_eq_ok {a : UInt32} {s s' : FmState} {words : Nat → UInt32}
    (run : devReadBlock a s = .ok words s') :
    (words = fun j => s.disk.word (a.toNat + 4 * j)) ∧ s' = s := by
  unfold devReadBlock at run
  split at run
  · obtain ⟨_, _, got, run⟩ := bind_eq_ok.mp run
    obtain ⟨rfl, rfl⟩ := get_eq_ok.mp got
    obtain ⟨rfl, rfl⟩ := pure_eq_ok.mp run
    exact ⟨rfl, rfl⟩
  · exact (throw_eq_ok.mp run).elim

/-! ### `write_data` with its stores written down -/

namespace Logged

/-- The last part of a writing loop's turn; `block` is the block the bytes go to. -/
def writeTurn (block : UInt32) (w : Writing) : EStateM Fault Logged Writing := do
  note {
    role := .data (w.fileOffset.tdiv blockSize).toNat
    block
    offset := w.fileOffset.tmod blockSize
    len := w.curLen }
  lift (FileSystem.writeTurn (block + UInt32.ofInt (w.fileOffset.tmod blockSize)) w)

/-- The loop of `write_data` over the direct blocks, with its accesses. -/
def writeDirect : Nat → Writing → EStateM Fault Logged Writing
  | 0, w => pure w
  | fuel + 1, w =>
    if w.fileOffset < levelEnd0 ∧ 0 < w.rest.length then do
      let inode ← lift (openDirect w)
      let block ← lift (inode.slot (w.fileOffset.tdiv blockSize))
      let w ← writeTurn block { w with inode }
      writeDirect fuel w
    else pure w

/-- The loop over the blocks of one index block. -/
def writeLoop (stop : Int) : Nat → Nat → Table → Writing → EStateM Fault Logged (Table × Writing)
  | 0, _, t, w => pure (t, w)
  | fuel + 1, i, t, w =>
    if w.fileOffset < stop ∧ 0 < w.rest.length then do
      if w.fileOffset.tmod blockSize = 0 then
        let block ← lift getFreeBlock
        let t ← lift (t.set i block)
        let w ← writeTurn block w
        writeLoop stop fuel (i + 1) t w
      else
        let block ← lift (blockWord t.words i)
        let w ← writeTurn block w
        writeLoop stop fuel (i + 1) t w
    else pure (t, w)

/-- The index block in slot 12. -/
def writeLevel1 (w : Writing) : EStateM Fault Logged Writing :=
  if w.fileOffset < levelEnd1 ∧ 0 < w.rest.length then do
    let (w, words) ← lift (openTable levelEnd0 12 w)
    let indexOffset1 := w.inode.index 12
    let i := (w.fileOffset - levelEnd0).tdiv blockSize
    let (t, w) ← writeLoop levelEnd1 w.rest.length i.toNat { words, dirty := false } w
    lift (modify fun s => { s with indexBlock1 := t.words })
    lift (t.store indexOffset1)
    return w
  else pure w

/-- The loop over the index blocks of the second level. -/
def writeTwo : Nat → Nat → Table → Writing → EStateM Fault Logged (Table × Writing)
  | 0, _, t, w => pure (t, w)
  | fuel + 1, i, t, w =>
    if w.fileOffset < levelEnd2 ∧ 0 < w.rest.length then do
      let minEnd := levelEnd1 + (i + 1) * indexOneSize
      let preEnd := minEnd - indexOneSize
      let (t, indexOffset2, words) ← lift (openEntry FmState.indexBlock2 preEnd i t w)
      let j := (w.fileOffset - preEnd).tdiv blockSize
      let (t2, w) ← writeLoop minEnd w.rest.length j.toNat { words, dirty := false } w
      lift (modify fun s => { s with indexBlock2 := t2.words })
      lift (t2.store indexOffset2)
      writeTwo fuel (i + 1) t w
    else pure (t, w)

/-- The blocks behind slot 13. -/
def writeLevel2 (w : Writing) : EStateM Fault Logged Writing :=
  if w.fileOffset < levelEnd2 ∧ 0 < w.rest.length then do
    let (w, words) ← lift (openTable levelEnd1 13 w)
    let indexOffset1 := w.inode.index 13
    let i := (w.fileOffset - levelEnd1).tdiv indexOneSize
    let (t, w) ← writeTwo w.rest.length i.toNat { words, dirty := false } w
    lift (modify fun s => { s with indexBlock1 := t.words })
    lift (t.store indexOffset1)
    return w
  else pure w

/-- The loop over the index blocks below one of the third level. -/
def writeThreeInner (i : Nat) (minEnd1 : Int) :
    Nat → Nat → Table → Writing → EStateM Fault Logged (Table × Writing)
  | 0, _, t, w => pure (t, w)
  | fuel + 1, j, t, w =>
    if w.fileOffset < minEnd1 ∧ 0 < w.rest.length then do
      let minEnd2 := levelEnd2 + i * indexTwoSize + (j + 1) * indexOneSize
      let preEnd2 := minEnd2 - indexOneSize
      let (t, indexOffset3, words) ← lift (openEntry FmState.indexBlock3 preEnd2 j t w)
      let k := (w.fileOffset - preEnd2).tdiv blockSize
      let (t3, w) ← writeLoop minEnd2 w.rest.length k.toNat { words, dirty := false } w
      lift (modify fun s => { s with indexBlock3 := t3.words })
      lift (t3.store indexOffset3)
      writeThreeInner i minEnd1 fuel (j + 1) t w
    else pure (t, w)

/-- The outer loop of the third level. -/
def writeThree : Nat → Nat → Table → Writing → EStateM Fault Logged (Table × Writing)
  | 0, _, t, w => pure (t, w)
  | fuel + 1, i, t, w =>
    if w.fileOffset < levelEnd3 ∧ 0 < w.rest.length then do
      let minEnd1 := levelEnd2 + (i + 1) * indexTwoSize
      let preEnd1 := minEnd1 - indexTwoSize
      let (t, indexOffset2, words) ← lift (openEntry FmState.indexBlock2 preEnd1 i t w)
      let j := (w.fileOffset - preEnd1).tdiv indexOneSize
      let (t2, w) ← writeThreeInner i minEnd1 w.rest.length j.toNat { words, dirty := false } w
      lift (modify fun s => { s with indexBlock2 := t2.words })
      lift (t2.store indexOffset2)
      writeThree fuel (i + 1) t w
    else pure (t, w)

/-- The blocks behind slot 14. -/
def writeLevel3 (w : Writing) : EStateM Fault Logged Writing :=
  if w.fileOffset < levelEnd3 ∧ 0 < w.rest.length then do
    let (w, indexOffset1, words) ← lift (openLast w)
    let i := (w.fileOffset - levelEnd2).tdiv indexTwoSize
    let (t, w) ← writeThree w.rest.length i.toNat { words, dirty := false } w
    lift (modify fun s => { s with indexBlock1 := t.words })
    lift (t.store indexOffset1)
    return w
  else pure w

/-- `write_data` with its accesses to blocks of data. -/
def writeData (fileOffset : Int) (inode : INode) (buf : List UInt8) :
    EStateM Fault Logged (Int × INode) := do
  let w ← writeDirect buf.length { fileOffset, writedLen := 0, rest := buf, inode }
  let w ← writeLevel1 w
  let w ← writeLevel2 w
  let w ← writeLevel3 w
  return (w.writedLen, w.inode)

/-! ### The notes change nothing else -/

theorem writeTurn_erases {block : UInt32} {w : Writing} :
    Erases Logged.state (writeTurn block w)
      (FileSystem.writeTurn (block + UInt32.ofInt (w.fileOffset.tmod blockSize)) w) :=
  note_erases lift_erases

theorem writeDirect_erases {fuel : Nat} {w : Writing} :
    Erases Logged.state (writeDirect fuel w) (FileSystem.writeDirect fuel w) := by
  induction fuel generalizing w with
  | zero => exact .pure
  | succ fuel ih =>
      exact .ite (.bind lift_erases fun _ => .bind lift_erases fun _ =>
        .bind writeTurn_erases fun _ => ih) .pure

theorem writeLoop_erases {stop : Int} {fuel i : Nat} {t : Table} {w : Writing} :
    Erases Logged.state (writeLoop stop fuel i t w) (FileSystem.writeLoop stop fuel i t w) := by
  induction fuel generalizing i t w with
  | zero => exact .pure
  | succ fuel ih =>
      unfold writeLoop FileSystem.writeLoop
      refine .ite ?_ .pure
      by_cases aligned : w.fileOffset.tmod blockSize = 0
      · rw [if_pos aligned, if_pos aligned]
        refine .bind lift_erases fun block => .bind lift_erases fun _ => .bind ?_ fun _ => ih
        -- A fresh block is written from its start.
        have same : Erases Logged.state (writeTurn block w) _ := writeTurn_erases
        rw [aligned, show UInt32.ofInt 0 = 0 from rfl, UInt32.add_zero] at same
        exact same
      · rw [if_neg aligned, if_neg aligned]
        exact .bind lift_erases fun _ => .bind writeTurn_erases fun _ => ih

theorem writeTwo_erases {fuel i : Nat} {t : Table} {w : Writing} :
    Erases Logged.state (writeTwo fuel i t w) (FileSystem.writeTwo fuel i t w) := by
  induction fuel generalizing i t w with
  | zero => exact .pure
  | succ fuel ih =>
      exact .ite (.bind lift_erases fun _ => .bind writeLoop_erases fun _ =>
        .bind lift_erases fun _ => .bind lift_erases fun _ => ih) .pure

theorem writeThreeInner_erases {minEnd : Int} {fuel i j : Nat} {t : Table} {w : Writing} :
    Erases Logged.state (writeThreeInner i minEnd fuel j t w)
      (FileSystem.writeThreeInner i minEnd fuel j t w) := by
  induction fuel generalizing j t w with
  | zero => exact .pure
  | succ fuel ih =>
      exact .ite (.bind lift_erases fun _ => .bind writeLoop_erases fun _ =>
        .bind lift_erases fun _ => .bind lift_erases fun _ => ih) .pure

theorem writeThree_erases {fuel i : Nat} {t : Table} {w : Writing} :
    Erases Logged.state (writeThree fuel i t w) (FileSystem.writeThree fuel i t w) := by
  induction fuel generalizing i t w with
  | zero => exact .pure
  | succ fuel ih =>
      exact .ite (.bind lift_erases fun _ => .bind writeThreeInner_erases fun _ =>
        .bind lift_erases fun _ => .bind lift_erases fun _ => ih) .pure

/-- **The logged `write_data` is `write_data`.** -/
theorem writeData_erases {o : Int} {inode : INode} {buf : List UInt8} :
    Erases Logged.state (writeData o inode buf) (FileSystem.writeData o inode buf) := by
  refine .bind writeDirect_erases fun _ => ?_
  refine .bind (.ite (.bind lift_erases fun _ => .bind writeLoop_erases fun _ =>
    .bind lift_erases fun _ => .bind lift_erases fun _ => .pure) .pure) fun _ => ?_
  refine .bind (.ite (.bind lift_erases fun _ => .bind writeTwo_erases fun _ =>
    .bind lift_erases fun _ => .bind lift_erases fun _ => .pure) .pure) fun _ => ?_
  refine .bind (.ite (.bind lift_erases fun _ => .bind writeThree_erases fun _ =>
    .bind lift_erases fun _ => .bind lift_erases fun _ => .pure) .pure) fun _ => .pure

/-! ### The first note -/

/-- A part of the program that only adds to the log. -/
def Grows {α : Type} (x : EStateM Fault Logged α) : Prop :=
  ∀ t, Ends x t (fun _ t' => t.log <+: t'.log) fun _ t' => t.log <+: t'.log

section Grows

variable {α β : Type}

theorem Grows.pure {a : α} : Grows (Pure.pure a : EStateM Fault Logged α) :=
  fun t => .pure (List.prefix_refl t.log)

theorem Grows.bind {x : EStateM Fault Logged α} {f : α → EStateM Fault Logged β} (first : Grows x)
    (rest : ∀ a, Grows (f a)) : Grows (x >>= f) := by
  intro t
  refine .bind ((first t).mono (fun a t' early => ?_) fun _ _ early => early)
  exact (rest a t').mono (fun _ _ late => early.trans late) fun _ _ late => early.trans late

theorem Grows.note {access : Access} : Grows (note access) :=
  fun t => .modify (List.prefix_append t.log _)

theorem Grows.ite {c : Prop} [Decidable c] {x y : EStateM Fault Logged α} (yes : Grows x)
    (no : Grows y) :
    Grows (if c then x else y) := by
  split
  · exact yes
  · exact no

theorem lift_grows {x : Fm α} : Grows (lift x) := by
  intro t
  constructor
  unfold lift
  cases x t.state with
  | ok a s => exact List.prefix_refl _
  | error e s => exact List.prefix_refl _

theorem writeTurn_grows {block : UInt32} {w : Writing} : Grows (writeTurn block w) :=
  .bind .note fun _ => lift_grows

theorem writeDirect_grows {fuel : Nat} {w : Writing} : Grows (writeDirect fuel w) := by
  induction fuel generalizing w with
  | zero => exact .pure
  | succ fuel ih => exact .ite (.bind lift_grows fun _ => .bind lift_grows fun _ =>
      .bind writeTurn_grows fun _ => ih) .pure

theorem writeLoop_grows {stop : Int} {fuel i : Nat} {t : Table} {w : Writing} :
    Grows (writeLoop stop fuel i t w) := by
  induction fuel generalizing i t w with
  | zero => exact .pure
  | succ fuel ih =>
      exact .ite (.ite (.bind lift_grows fun _ => .bind lift_grows fun _ =>
        .bind writeTurn_grows fun _ => ih)
        (.bind lift_grows fun _ => .bind writeTurn_grows fun _ => ih)) .pure

theorem writeTwo_grows {fuel i : Nat} {t : Table} {w : Writing} : Grows (writeTwo fuel i t w) := by
  induction fuel generalizing i t w with
  | zero => exact .pure
  | succ fuel ih =>
      exact .ite (.bind lift_grows fun _ => .bind writeLoop_grows fun _ => .bind lift_grows fun _ =>
        .bind lift_grows fun _ => ih) .pure

theorem writeThreeInner_grows {minEnd : Int} {fuel i j : Nat} {t : Table} {w : Writing} :
    Grows (writeThreeInner i minEnd fuel j t w) := by
  induction fuel generalizing j t w with
  | zero => exact .pure
  | succ fuel ih =>
      exact .ite (.bind lift_grows fun _ => .bind writeLoop_grows fun _ => .bind lift_grows fun _ =>
        .bind lift_grows fun _ => ih) .pure

theorem writeThree_grows {fuel i : Nat} {t : Table} {w : Writing} :
    Grows (writeThree fuel i t w) := by
  induction fuel generalizing i t w with
  | zero => exact .pure
  | succ fuel ih =>
      exact .ite (.bind lift_grows fun _ => .bind writeThreeInner_grows fun _ =>
        .bind lift_grows fun _ =>
        .bind lift_grows fun _ => ih) .pure

theorem writeLevel1_grows {w : Writing} : Grows (writeLevel1 w) :=
  .ite (.bind lift_grows fun _ => .bind writeLoop_grows fun _ => .bind lift_grows fun _ =>
    .bind lift_grows fun _ => .pure) .pure

theorem writeLevel2_grows {w : Writing} : Grows (writeLevel2 w) :=
  .ite (.bind lift_grows fun _ => .bind writeTwo_grows fun _ => .bind lift_grows fun _ =>
    .bind lift_grows fun _ => .pure) .pure

theorem writeLevel3_grows {w : Writing} : Grows (writeLevel3 w) :=
  .ite (.bind lift_grows fun _ => .bind writeThree_grows fun _ => .bind lift_grows fun _ =>
    .bind lift_grows fun _ => .pure) .pure

end Grows

/-- The first note, if there is one, is about the block at `a`. -/
def First (a : UInt32) (t : Logged) : Prop := ∀ y, t.log.head? = some y → y.block = a

/-- The first note has been made, and is about the block at `a`. -/
def Begun (a : UInt32) (t : Logged) : Prop := ∃ y later, t.log = y :: later ∧ y.block = a

section First

variable {α β : Type} {a : UInt32} {t : Logged} {w : Writing} {x n : Nat}

theorem Begun.first (begun : Begun a t) : First a t := by
  obtain ⟨y, later, log, block⟩ := begun
  intro z head
  rw [log] at head
  rw [← Option.some.inj head]
  exact block

theorem First.of_nil (empty : t.log = []) : First a t := by
  intro y head
  rw [empty] at head
  cases head

/-- A part that makes its first note and then only adds to it. -/
theorem Begun.then {x : EStateM Fault Logged α} (begun : Begun a t) (grows : Grows x) :
    Ends x t (fun _ t' => First a t') fun _ t' => First a t' := by
  obtain ⟨y, later, log, block⟩ := begun
  have step : ∀ t', t.log <+: t'.log → First a t' := by
    rintro t' ⟨more, longer⟩
    rw [log] at longer
    exact Begun.first ⟨y, later ++ more, longer.symm, block⟩
  exact (grows t).mono (fun _ => step) fun _ => step

/-- A turn of a writing loop makes a note first. -/
theorem writeTurn_first {f : Writing → EStateM Fault Logged β} (empty : t.log = [])
    (rest : ∀ w', Grows (f w')) :
    Ends (writeTurn a w >>= f) t (fun _ t' => First a t') fun _ t' => First a t' := by
  unfold writeTurn
  rw [bind_assoc]
  refine .bind (.modify (Begun.then ?_ (.bind lift_grows rest)))
  exact ⟨_, [], by rw [empty]; rfl, rfl⟩

/-- A part that makes no note, and may fail. -/
theorem lift_first {x : Fm α} {f : α → EStateM Fault Logged β} (empty : t.log = [])
    (rest : ∀ b s, x t.state = .ok b s →
      Ends (f b) { t with state := s } (fun _ t' => First a t') fun _ t' => First a t') :
    Ends (lift x >>= f) t (fun _ t' => First a t') fun _ t' => First a t' := by
  refine .bind ⟨?_⟩
  unfold lift
  cases run : x t.state with
  | ok b s => exact rest b s run
  | error e s => exact First.of_nil empty

theorem openTable_read {first : Int} {slot : Fin 15} {s s' : FmState} {p : Writing × (Nat → UInt32)}
    (started : w.fileOffset ≠ first) (run : openTable first slot w s = .ok p s') :
    p = (w, fun j => s.disk.word ((w.inode.index slot).toNat + 4 * j)) ∧ s' = s := by
  unfold openTable at run
  rw [if_neg started] at run
  obtain ⟨words, s₁, read, run⟩ := bind_eq_ok.mp run
  obtain ⟨rfl, rfl⟩ := devReadBlock_eq_ok read
  obtain ⟨rfl, rfl⟩ := pure_eq_ok.mp run
  exact ⟨rfl, rfl⟩

theorem openEntry_read {scratch : FmState → Nat → UInt32} {first : Int} {i : Nat} {tab : Table}
    {s s' : FmState} {p : Table × UInt32 × (Nat → UInt32)} (started : w.fileOffset ≠ first)
    (small : i < 64) (run : openEntry scratch first i tab w s = .ok p s') :
    p = (tab, tab.words i, fun j => s.disk.word ((tab.words i).toNat + 4 * j)) ∧ s' = s := by
  unfold openEntry at run
  rw [if_neg started] at run
  obtain ⟨block, s₁, entry, run⟩ := bind_eq_ok.mp run
  rw [blockWord_ok small] at entry
  cases entry
  obtain ⟨words, s₂, read, run⟩ := bind_eq_ok.mp run
  obtain ⟨rfl, rfl⟩ := devReadBlock_eq_ok read
  obtain ⟨rfl, rfl⟩ := pure_eq_ok.mp run
  exact ⟨rfl, rfl⟩

theorem writeDirect_first {f : Writing → EStateM Fault Logged β} {fuel : Nat}
    (offset : w.fileOffset = x) (small : x < 3072) (started : x % 256 ≠ 0)
    (some : 0 < w.rest.length) (empty : t.log = []) (rest : ∀ w', Grows (f w')) :
    Ends (writeDirect (fuel + 1) w >>= f) t
      (fun _ t' => First (w.inode.index (Fin.ofNat 15 (x / 256))) t')
      fun _ t' => First (w.inode.index (Fin.ofNat 15 (x / 256))) t' := by
  unfold writeDirect
  have inside : w.fileOffset < levelEnd0 := by
    unfold levelEnd0
    omega
  rw [if_pos ⟨inside, some⟩, bind_assoc]
  have kept : openDirect w t.state = .ok w.inode t.state := by
    unfold openDirect
    rw [offset, tmod_blockSize, if_neg (by omega)]
    rfl
  refine .bind_ok (lift_ok kept) ?_
  rw [bind_assoc, offset, tdiv_blockSize]
  refine .bind_ok (lift_ok (slot_ok (by omega))) ?_
  rw [bind_assoc]
  exact writeTurn_first empty fun _ => .bind writeDirect_grows rest

theorem writeLoop_first {f : Table × Writing → EStateM Fault Logged β} {fuel i : Nat} {stop : Int}
    {tab : Table} (offset : w.fileOffset = x) (inside : x < stop) (started : x % 256 ≠ 0)
    (some : 0 < w.rest.length) (small : i < 64) (empty : t.log = []) (rest : ∀ p, Grows (f p)) :
    Ends (writeLoop stop (fuel + 1) i tab w >>= f) t (fun _ t' => First (tab.words i) t')
      fun _ t' => First (tab.words i) t' := by
  unfold writeLoop
  rw [if_pos ⟨by omega, some⟩, offset, tmod_blockSize, if_neg (by omega), bind_assoc]
  refine .bind_ok (lift_ok (blockWord_ok small)) ?_
  rw [bind_assoc]
  exact writeTurn_first empty fun _ => .bind writeLoop_grows rest

theorem writeLevel1_first {f : Writing → EStateM Fault Logged β} (offset : w.fileOffset = x)
    (after : 3072 ≤ x) (small : x < 19456) (started : x % 256 ≠ 0) (some : 0 < w.rest.length)
    (empty : t.log = []) (rest : ∀ w', Grows (f w'))
    (address : a = blockAddr t.state.disk w.inode.index (x / 256)) :
    Ends (writeLevel1 w >>= f) t (fun _ t' => First a t') fun _ t' => First a t' := by
  unfold writeLevel1
  have inside : w.fileOffset < levelEnd1 := by
    unfold levelEnd1
    omega
  rw [if_pos ⟨inside, some⟩, bind_assoc]
  refine lift_first empty fun p s run => ?_
  obtain ⟨rfl, rfl⟩ := openTable_read (by unfold levelEnd0; omega) run
  dsimp only
  have slot : (w.fileOffset - levelEnd0).tdiv (blockSize : Nat) = ((x / 256 - 12 : Nat) : Int) := by
    rw [offset, show (x : Int) - levelEnd0 = ((x - 3072 : Nat) : Int) by unfold levelEnd0; omega,
      tdiv_blockSize, show (x - 3072) / 256 = x / 256 - 12 by omega]
  obtain ⟨fuel, length⟩ : ∃ fuel, w.rest.length = fuel + 1 := ⟨w.rest.length - 1, by omega⟩
  rw [bind_assoc, slot, Int.toNat_natCast, length]
  have entry : a = t.state.disk.word ((w.inode.index 12).toNat + 4 * (x / 256 - 12)) := by
    rw [address, blockAddr, if_neg (by omega), if_pos (by omega)]
  rw [entry]
  exact writeLoop_first offset (show (x : Int) < 19456 by omega) started some (by omega)
    empty fun _ =>
    .bind (.bind lift_grows fun _ => .bind lift_grows fun _ => .pure) rest

theorem writeLevel2_first {f : Writing → EStateM Fault Logged β} (offset : w.fileOffset = x)
    (after : 19456 ≤ x) (small : x < 1068032) (started : x % 256 ≠ 0) (some : 0 < w.rest.length)
    (empty : t.log = []) (rest : ∀ w', Grows (f w'))
    (address : a = blockAddr t.state.disk w.inode.index (x / 256)) :
    Ends (writeLevel2 w >>= f) t (fun _ t' => First a t') fun _ t' => First a t' := by
  unfold writeLevel2
  have inside : w.fileOffset < levelEnd2 := by
    unfold levelEnd2
    omega
  rw [if_pos ⟨inside, some⟩, bind_assoc]
  refine lift_first empty fun p s run => ?_
  obtain ⟨rfl, rfl⟩ := openTable_read (by unfold levelEnd1; omega) run
  dsimp only
  have place : (w.fileOffset - levelEnd1).tdiv indexOneSize =
      (((x - 19456) / 16384 : Nat) : Int) := by
    rw [offset, show (x : Int) - levelEnd1 = ((x - 19456 : Nat) : Int) by unfold levelEnd1; omega]
    show ((x - 19456 : Nat) : Int).tdiv (16384 : Nat) = _
    rw [← Int.ofNat_tdiv]
  obtain ⟨fuel, length⟩ : ∃ fuel, w.rest.length = fuel + 1 := ⟨w.rest.length - 1, by omega⟩
  obtain ⟨i, here⟩ : ∃ i, (x - 19456) / 16384 = i := ⟨_, rfl⟩
  rw [bind_assoc, place, here, Int.toNat_natCast, length]
  unfold writeTwo
  rw [if_pos ⟨inside, some⟩, bind_assoc]
  have preEnd : levelEnd1 + ((i : Int) + 1) * indexOneSize - indexOneSize =
      ((19456 + 16384 * i : Nat) : Int) := by
    unfold levelEnd1 indexOneSize
    push_cast
    ring
  rw [preEnd]
  refine lift_first empty fun p s run => ?_
  obtain ⟨rfl, rfl⟩ := openEntry_read (by omega) (by omega) run
  dsimp only
  have slot : (w.fileOffset - ((19456 + 16384 * i : Nat) : Int)).tdiv (blockSize : Nat)
      = ((x / 256 - (76 + 64 * i) : Nat) : Int) := by
    rw [offset,
      show (x : Int) - ((19456 + 16384 * i : Nat) : Int) = ((x - (19456 + 16384 * i) : Nat) :
        Int) by
        omega, tdiv_blockSize, show (x - (19456 + 16384 * i)) / 256 = x / 256 - (76 + 64 * i) by
        omega]
  rw [bind_assoc, slot, Int.toNat_natCast, length]
  have entry : a = t.state.disk.word ((t.state.disk.word ((w.inode.index 13).toNat + 4 * i)).toNat
      + 4 * (x / 256 - (76 + 64 * i))) := by
    rw [address, blockAddr, if_neg (by omega), if_neg (by omega), if_pos (by omega),
      show (x / 256 - 76) / 64 = i by
      omega, show (x / 256 - 76) % 64 = x / 256 - (76 + 64 * i) by omega]
  rw [entry]
  refine writeLoop_first offset ?_ started some (by omega) empty fun _ =>
    .bind (.bind lift_grows fun _ => .bind lift_grows fun _ => writeTwo_grows) fun _ =>
      .bind (.bind lift_grows fun _ => .bind lift_grows fun _ => .pure) rest
  have minEnd : levelEnd1 + ((i : Int) + 1) * indexOneSize =
      ((19456 + 16384 * (i + 1) : Nat) : Int) := by
    unfold levelEnd1 indexOneSize
    push_cast
    ring
  rw [minEnd]
  omega

/-- A level that ends before the offset is passed over. -/
theorem writeDirect_passed {fuel : Nat} (offset : w.fileOffset = x) (after : 3072 ≤ x) :
    writeDirect fuel w t = .ok w t := by
  cases fuel with
  | zero => rfl
  | succ fuel =>
      unfold writeDirect
      rw [if_neg fun more => ?_]
      · rfl
      · have := more.1
        unfold levelEnd0 at this
        omega

theorem writeLevel1_passed (offset : w.fileOffset = x) (after : 19456 ≤ x) :
    writeLevel1 w t = .ok w t := by
  unfold writeLevel1
  rw [if_neg fun more => ?_]
  · rfl
  · have := more.1
    unfold levelEnd1 at this
    omega

/-- With nothing to write, nothing is written. -/
theorem writeData_nil {o : Int} {inode : INode} : writeData o inode [] t = .ok (0, inode) t := by
  have idle : ∀ e : Int, ¬ (o < e ∧ 0 < ([] : List UInt8).length) :=
    fun e more => Nat.lt_irrefl 0 more.2
  unfold writeData writeDirect writeLevel1 writeLevel2 writeLevel3
  refine (run_bind rfl).trans ?_
  dsimp only
  rw [if_neg (idle _)]
  refine (run_bind rfl).trans ?_
  rw [if_neg (idle _)]
  refine (run_bind rfl).trans ?_
  rw [if_neg (idle _)]
  rfl

/-- **Appending into a started block uses the block of the reference walk**, up to the end of the
double-indirect level. -/
theorem writeData_first {inode : INode} {buf : List UInt8} (small : x < 1068032)
    (started : x % 256 ≠ 0) (empty : t.log = []) :
    Ends (writeData x inode buf) t
      (fun _ t' => First (blockAddr t.state.disk inode.index (x / 256)) t')
      fun _ t' => First (blockAddr t.state.disk inode.index (x / 256)) t' := by
  cases buf with
  | nil => exact .ok writeData_nil (.of_nil empty)
  | cons c cs =>
      have some : 0 < (c :: cs).length := Nat.succ_pos _
      have late : ∀ w, Grows (do
          let w ← writeLevel3 w
          return (w.writedLen, w.inode)) := fun w => .bind writeLevel3_grows fun _ => .pure
      unfold writeData
      by_cases direct : x < 3072
      · rw [show blockAddr t.state.disk inode.index (x / 256) = inode.index (Fin.ofNat 15
          (x / 256)) from
          if_pos (by omega)]
        exact writeDirect_first rfl direct started some empty fun _ =>
          .bind writeLevel1_grows fun _ => .bind writeLevel2_grows late
      · refine .bind_ok (writeDirect_passed rfl (by omega)) ?_
        by_cases single : x < 19456
        · exact writeLevel1_first rfl (by omega) single started some empty
            (fun _ => .bind writeLevel2_grows late) rfl
        · refine .bind_ok (writeLevel1_passed rfl (by omega)) ?_
          exact writeLevel2_first rfl (by omega) small started some empty late rfl

end First

end Logged

/-! ### One block map -/

/-- Every read that `read_data` makes for byte `x` of a file is in the block of the reference
walk. -/
def ReadsAt (x : Nat) : Prop :=
  ∀ (inode : INode) (s : FmState) (o : Nat) (len : Int), x < inode.size →
    ∀ y ∈ (lastState (Logged.readData o inode len) ⟨s, []⟩).log, y.role = .data (x / 256) →
      y.offset ≤ (x % 256 : Nat) → (x % 256 : Nat) < y.offset + y.len →
        y.block = blockAddr s.disk inode.index (x / 256)

/-- The first store of `write_data` for a file whose last block is started and ends at `x` is in the
block of the reference walk. -/
def AppendsAt (x : Nat) : Prop :=
  ∀ (inode : INode) (s : FmState) (buf : List UInt8), inode.size = x → x % 256 ≠ 0 →
    ∀ y, (lastState (Logged.writeData x inode buf) ⟨s, []⟩).log.head? = some y →
      y.block = blockAddr s.disk inode.index (x / 256)

/-- The block `_remove_inode_from_dir` finds for byte `x` is the one of the reference walk. -/
def RemovesAt (x : Nat) : Prop :=
  ∀ (inode : INode) (s s' : FmState) (a : UInt32), removeAddr inode x s = .ok a s' →
    a = blockAddr s.disk inode.index (x / 256)

theorem readsAt_of_lt {x : Nat} (small : x < 1068032) : ReadsAt x := by
  intro inode s o len inside y member role low high
  obtain ⟨n, size⟩ := Int.eq_ofNat_of_zero_le (show 0 ≤ inode.size by omega)
  have explained : Logged.Explained inode n o len ⟨s, []⟩
      (lastState (Logged.readData o inode len) ⟨s, []⟩) := by
    have run : Ends (Logged.readData o inode len) ⟨s, []⟩ _ _ := Logged.readData_ends size
    unfold lastState
    cases ended : Logged.readData o inode len ⟨s, []⟩ with
    | ok bytes t => exact (run.of_ok ended).1
    | error e t => exact (run.of_error ended).1
  rcases explained.log y member with old | proper | ⟨late, -⟩
  · exact absurd old List.not_mem_nil
  · rw [proper.block, role]
    rfl
  · unfold Logged.Late at late
    rw [role] at late
    change 1068032 ≤ 256 * (x / 256) at late
    omega

theorem appendsAt_of_lt {x : Nat} (small : x < 1068032) : AppendsAt x := by
  intro inode s buf _ started y head
  have run : Ends (Logged.writeData x inode buf) ⟨s, []⟩ _ _ :=
    Logged.writeData_first small started rfl
  unfold lastState at head
  cases ended : Logged.writeData x inode buf ⟨s, []⟩ with
  | ok result t =>
      rw [ended] at head
      exact run.of_ok ended y head
  | error e t =>
      rw [ended] at head
      exact run.of_error ended y head

theorem removesAt_of_lt {x : Nat} (small : x < 1068032) : RemovesAt x := by
  intro inode s s' a run
  unfold removeAddr at run
  by_cases direct : x < 3072
  · rw [if_pos (show (x : Int) < levelEnd0 by unfold levelEnd0; omega), tdiv_blockSize,
      slot_ok (by omega)] at run
    cases run
    exact (if_pos (by omega)).symm
  rw [if_neg (show ¬ (x : Int) < levelEnd0 by unfold levelEnd0; omega)] at run
  by_cases single : x < 19456
  · rw [if_pos (show (x : Int) < levelEnd1 by unfold levelEnd1; omega)] at run
    obtain ⟨block1, s₁, read, run⟩ := bind_eq_ok.mp run
    obtain ⟨rfl, rfl⟩ := devReadBlock_eq_ok read
    obtain ⟨_, s₂, fill, run⟩ := bind_eq_ok.mp run
    rw [show (x : Int) - levelEnd0 = ((x - 3072 : Nat) : Int) by
      unfold levelEnd0; omega, tdiv_blockSize, Int.toNat_natCast, blockWord_ok (by omega)] at run
    cases run
    rw [blockAddr, if_neg (by omega), if_pos (by omega),
      show (x - 3072) / 256 = x / 256 - 12 by omega]
  rw [if_neg (show ¬ (x : Int) < levelEnd1 by unfold levelEnd1; omega),
    if_pos (show (x : Int) < levelEnd2 by unfold levelEnd2; omega),
    show (x : Int) - levelEnd1 = ((x - 19456 : Nat) : Int) by
    unfold levelEnd1; omega, show indexOneSize = ((16384 : Nat) : Int) from rfl, ← Int.ofNat_tdiv,
    ← Int.ofNat_tmod, tdiv_blockSize, Int.toNat_natCast, Int.toNat_natCast] at run
  obtain ⟨block1, s₁, read, run⟩ := bind_eq_ok.mp run
  obtain ⟨rfl, rfl⟩ := devReadBlock_eq_ok read
  obtain ⟨_, s₂, fill, run⟩ := bind_eq_ok.mp run
  obtain rfl := modify_eq_ok.mp fill
  obtain ⟨a₂, s₃, entry, run⟩ := bind_eq_ok.mp run
  rw [blockWord_ok (by omega)] at entry
  cases entry
  obtain ⟨block2, s₄, read, run⟩ := bind_eq_ok.mp run
  obtain ⟨rfl, rfl⟩ := devReadBlock_eq_ok read
  obtain ⟨_, s₅, fill, run⟩ := bind_eq_ok.mp run
  rw [blockWord_ok (by omega)] at run
  cases run
  rw [blockAddr, if_neg (by omega), if_neg (by omega), if_pos (by omega),
    show (x - 19456) / 16384 = (x / 256 - 76) / 64 by omega,
    show (x - 19456) % 16384 / 256 = (x / 256 - 76) % 64 by omega]

/-- A disk with one index block, that only names itself. -/
def loopDisk : Store := zeroState.disk.writeWords 65792 64 fun _ => 65792

theorem loopDisk_inside {j : Nat} (small : j < 64) : loopDisk.word (65792 + 4 * j) = 65792 :=
  Store.word_writeWords small

theorem loopDisk_outside {j : Nat} (small : j < 64) : loopDisk.word (0 + 4 * j) = 0 :=
  Store.word_writeWords_outside (by omega)

/-- An inode whose slots are all zero. -/
def emptyInode : INode := { size := 0, type := 0, devId := 0, link := 0, index := fun _ => 0 }

/-- A state whose `index_block2` still names the block of another walk. -/
def staleState : FmState := { zeroState with disk := loopDisk, indexBlock2 := fun _ => 65792 }

theorem not_removesAt {x : Nat} (late : 1068032 ≤ x) (range : x < 68176896) : ¬ RemovesAt x := by
  intro removes
  obtain ⟨i, first⟩ : ∃ i, (x - 1068032) / 1048576 = i := ⟨_, rfl⟩
  obtain ⟨j, second⟩ : ∃ j, (x - 1068032) % 1048576 / 16384 = j := ⟨_, rfl⟩
  obtain ⟨k, third⟩ : ∃ k, (x - 1068032) % 1048576 % 16384 / 256 = k := ⟨_, rfl⟩
  have ends : Ends (removeAddr emptyInode x) staleState (fun a _ => a = 65792)
      fun _ _ => False := by
    unfold removeAddr
    rw [if_neg (show ¬ (x : Int) < levelEnd0 by unfold levelEnd0; omega),
      if_neg (show ¬ (x : Int) < levelEnd1 by unfold levelEnd1; omega),
      if_neg (show ¬ (x : Int) < levelEnd2 by unfold levelEnd2; omega),
      show (x : Int) - levelEnd2 = ((x - 1068032 : Nat) : Int) by
      unfold levelEnd2; omega, show indexTwoSize = ((1048576 : Nat) : Int) from rfl,
      show indexOneSize = ((16384 : Nat) : Int) from rfl, ← Int.ofNat_tdiv, ← Int.ofNat_tmod,
      ← Int.ofNat_tdiv, ← Int.ofNat_tmod, tdiv_blockSize, Int.toNat_natCast, Int.toNat_natCast,
      Int.toNat_natCast, first, second, third]
    have fits : (65792 : UInt32).toNat + 256 < 4194304 := by decide
    refine .bind_ok (devReadBlock_ok (by decide)) (.bind (.modify (.bind (.get ?_))))
    refine .bind_ok (blockWord_ok (by omega)) (.bind_ok (devReadBlock_ok fits) (.bind (.modify ?_)))
    refine .bind_ok (blockWord_ok (by omega)) (.bind_ok (devReadBlock_ok ?_) (.bind (.modify ?_)))
    · show (loopDisk.word (65792 + 4 * j)).toNat + 256 < 4194304
      rw [loopDisk_inside (by omega)]
      exact fits
    · refine .ok (blockWord_ok (by omega)) ?_
      show loopDisk.word ((loopDisk.word (65792 + 4 * j)).toNat + 4 * k) = 65792
      rw [loopDisk_inside (by omega)]
      exact loopDisk_inside (by omega)
  obtain ⟨a, s', run, rfl⟩ := ends.run_ok
  have address := removes emptyInode staleState s' 65792 run
  have zero : blockAddr loopDisk emptyInode.index (x / 256) = 0 := by
    rw [blockAddr, if_neg (by omega), if_neg (by omega), if_neg (by omega)]
    show loopDisk.word ((loopDisk.word ((loopDisk.word (0 + 4 * ((x / 256 - 4172) / 4096))).toNat
      + 4 * ((x / 256 - 4172) % 4096 / 64))).toNat + 4 * ((x / 256 - 4172) % 64)) = 0
    rw [loopDisk_outside (by omega)]
    show loopDisk.word ((loopDisk.word (0 + 4 * ((x / 256 - 4172) % 4096 / 64))).toNat + 4 *
      ((x / 256 - 4172) % 64)) = 0
    rw [loopDisk_outside (by omega)]
    exact loopDisk_outside (by omega)
  exact absurd (address.trans zero) (by decide)

theorem one_block_map_iff {x : Nat} (range : x < 68176896) :
    (ReadsAt x ∧ AppendsAt x ∧ RemovesAt x) ↔ x < 1068032 := by
  constructor
  · rintro ⟨-, -, removes⟩
    by_contra late
    exact not_removesAt (by omega) range removes
  · intro small
    exact ⟨readsAt_of_lt small, appendsAt_of_lt small, removesAt_of_lt small⟩

/-- A byte behind two levels of indices. -/
theorem one_block_map_double : ReadsAt 500001 ∧ AppendsAt 500001 ∧ RemovesAt 500001 :=
  (one_block_map_iff (by omega)).mpr (by omega)

theorem two_block_maps : ¬ ∀ x, x < 68176896 → ReadsAt x ∧ AppendsAt x ∧ RemovesAt x := by
  intro all
  exact not_removesAt (x := 1068032) le_rfl (by omega) (all 1068032 (by omega)).2.2

end NjuOs.FileSystem
