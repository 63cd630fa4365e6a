/-
**`read_data` with its device reads written down.**

`Logged.readData` is `read_data` with the calls of the driver written down, each with the role of
the block it is for; `Logged.readData_erases` says that nothing else is different. Up to the end of
the double-indirect level every read is at the address the reference walk gives
(`Logged.readData_ends`).

On a file whose blocks are blocks of the disk it reads only these and delivers what the file has,
unless the request runs past the end of a file with a double-indirect level: the last of the four
sections ends on `>` where the others have `>=`, so it goes on to read the block that `index[14]`
names (`reads_inside_iff`).
-/

import NjuOs.FileSystem.Content
import NjuOs.FileSystem.Frame

namespace NjuOs.FileSystem

open NjuOs.Lib

/-! ### `read_data` with its reads written down -/

/-- A call of the driver: `len` bytes from `offset` on in a block, by the role it is read for and
the address that was found for it. -/
structure Access where
  role : Role
  block : UInt32
  offset : Int
  len : Int

/-- A state, and the accesses so far. -/
structure Logged where
  state : FmState
  log : List Access

namespace Logged

/-- A part that calls no driver, or whose call is written down already. -/
def lift {α : Type} (x : Fm α) : EStateM Fault Logged α := fun t =>
  match x t.state with
  | .ok a s => .ok a { t with state := s }
  | .error e s => .error e { t with state := s }

/-- An access is noted. -/
def note (access : Access) : EStateM Fault Logged PUnit :=
  modify fun t => { t with log := t.log ++ [access] }

/-- A turn of a read loop, with its access. -/
def readTurn (size : Int) (block : UInt32) (r : Reading) : EStateM Fault Logged Reading := do
  note {
    role := .data (r.fileOffset.tdiv blockSize).toNat
    block
    offset := r.fileOffset.tmod blockSize
    len := curReadLen r.len r.fileOffset size }
  lift (FileSystem.readTurn size block r)

/-- An index block is read. -/
def devReadBlock (role : Role) (block : UInt32) : EStateM Fault Logged (Nat → UInt32) := do
  note { role, block, offset := 0, len := blockSize }
  lift (FileSystem.devReadBlock block)

/-- The loop of `read_data` over the direct blocks. -/
def readDirect (inode : INode) (minEnd : Int) : Nat → Reading → EStateM Fault Logged Reading
  | 0, r => pure r
  | fuel + 1, r =>
    if r.fileOffset < minEnd ∧ 0 < r.len then do
      let block ← lift (inode.slot (r.fileOffset.tdiv blockSize))
      let r ← readTurn inode.size block r
      readDirect inode minEnd fuel r
    else pure r

/-- The loop over the blocks of one index block. -/
def readLoop (table : Nat → UInt32) (size minEnd : Int) :
    Nat → Nat → Reading → EStateM Fault Logged Reading
  | 0, _, r => pure r
  | fuel + 1, i, r =>
    if r.fileOffset < minEnd ∧ 0 < r.len then do
      let block ← lift (blockWord table i)
      let r ← readTurn size block r
      readLoop table size minEnd fuel (i + 1) r
    else pure r

/-- The loop over the index blocks of the second level. -/
def readTwo (inode : INode) (minEnd1 : Int) : Nat → Nat → Reading → EStateM Fault Logged Reading
  | 0, _, r => pure r
  | fuel + 1, i, r =>
    if r.fileOffset < minEnd1 ∧ 0 < r.len then do
      let s ← lift get
      let indexOffset2 ← lift (blockWord s.indexBlock1 i)
      let block2 ← devReadBlock (.twoSub i) indexOffset2
      lift (modify fun s => { s with indexBlock2 := block2 })
      let tempEnd := levelEnd1 + (i + 1) * indexOneSize
      let minEnd2 := if inode.size < tempEnd then inode.size else tempEnd
      let j := (r.fileOffset - (tempEnd - indexOneSize)).tdiv blockSize
      let r ← readLoop block2 inode.size minEnd2 r.len.toNat j.toNat r
      readTwo inode minEnd1 fuel (i + 1) r
    else pure r

/-- The loop over the index blocks below one of the third level. -/
def readThreeInner (inode : INode) (i : Nat) (minEnd2 : Int) :
    Nat → Nat → Reading → EStateM Fault Logged Reading
  | 0, _, r => pure r
  | fuel + 1, j, r =>
    if r.fileOffset < minEnd2 ∧ 0 < r.len then do
      let s ← lift get
      let indexOffset3 ← lift (blockWord s.indexBlock1 j)
      let block3 ← devReadBlock (.threeSubSub i j) indexOffset3
      lift (modify fun s => { s with indexBlock3 := block3 })
      let tempEnd1 := levelEnd2 + i * indexTwoSize + (j + 1) * indexOneSize
      let minEnd3 := if inode.size < tempEnd1 then inode.size else tempEnd1
      let k := (r.fileOffset - (tempEnd1 - indexOneSize)).tdiv blockSize
      let r ← readLoop block3 inode.size minEnd3 r.len.toNat k.toNat r
      readThreeInner inode i minEnd2 fuel (j + 1) r
    else pure r

/-- The outer loop of the third level. -/
def readThree (inode : INode) (minEnd1 : Int) : Nat → Nat → Reading → EStateM Fault Logged Reading
  | 0, _, r => pure r
  | fuel + 1, i, r =>
    if r.fileOffset < minEnd1 ∧ 0 < r.len then do
      let s ← lift get
      let indexOffset2 ← lift (blockWord s.indexBlock1 i)
      let block2 ← devReadBlock (.threeSub i) indexOffset2
      lift (modify fun s => { s with indexBlock2 := block2 })
      let tempEnd := levelEnd2 + (i + 1) * indexTwoSize
      let minEnd2 := if inode.size < tempEnd then inode.size else tempEnd
      let j := (r.fileOffset - (tempEnd - indexTwoSize)).tdiv indexOneSize
      let r ← readThreeInner inode i minEnd2 r.len.toNat j.toNat r
      readThree inode minEnd1 fuel (i + 1) r
    else pure r

/-- The direct blocks. -/
def readLevel0 (inode : INode) (r : Reading) : EStateM Fault Logged Reading :=
  if r.fileOffset < levelEnd0 ∧ 0 < r.len then
    let minEnd := if inode.size < levelEnd0 then inode.size else levelEnd0
    readDirect inode minEnd r.len.toNat r
  else pure r

/-- The index block in slot 12. -/
def readLevel1 (inode : INode) (r : Reading) : EStateM Fault Logged Reading :=
  if r.fileOffset < levelEnd1 ∧ 0 < r.len then do
    let block1 ← devReadBlock .one (inode.index 12)
    lift (modify fun s => { s with indexBlock1 := block1 })
    let minEnd := if inode.size < levelEnd1 then inode.size else levelEnd1
    let i := (r.fileOffset - levelEnd0).tdiv blockSize
    readLoop block1 inode.size minEnd r.len.toNat i.toNat r
  else pure r

/-- The blocks behind slot 13. -/
def readLevel2 (inode : INode) (r : Reading) : EStateM Fault Logged Reading :=
  if r.fileOffset < levelEnd2 ∧ 0 < r.len then do
    let block1 ← devReadBlock .two (inode.index 13)
    lift (modify fun s => { s with indexBlock1 := block1 })
    let minEnd1 := if inode.size < levelEnd2 then inode.size else levelEnd2
    let i := (r.fileOffset - levelEnd1).tdiv indexOneSize
    readTwo inode minEnd1 r.len.toNat i.toNat r
  else pure r

/-- The blocks behind slot 14. -/
def readLevel3 (inode : INode) (r : Reading) : EStateM Fault Logged Reading :=
  if 0 < r.len then do
    let block1 ← devReadBlock .three (inode.index 14)
    lift (modify fun s => { s with indexBlock1 := block1 })
    let minEnd1 := if inode.size < levelEnd3 then inode.size else levelEnd3
    let i := (r.fileOffset - levelEnd2).tdiv indexTwoSize
    readThree inode minEnd1 r.len.toNat i.toNat r
  else pure r

/-- `read_data` with its accesses. -/
def readData (fileOffset : Int) (inode : INode) (len : Int) :
    EStateM Fault Logged (List UInt8) := do
  let r ← readLevel0 inode { fileOffset, len, delivered := [] }
  if r.fileOffset ≥ inode.size then return r.delivered
  let r ← readLevel1 inode r
  if r.fileOffset ≥ inode.size then return r.delivered
  let r ← readLevel2 inode r
  if r.fileOffset > inode.size then return r.delivered
  let r ← readLevel3 inode r
  return r.delivered

/-! ### The log changes nothing else -/

theorem lift_erases {α : Type} {x : Fm α} : Erases Logged.state (lift x) x := by
  intro t
  unfold lift
  cases x t.state with
  | ok a s => rfl
  | error e s => rfl

/-- An access is written down, and then made. -/
theorem note_erases {α : Type} {y : EStateM Fault Logged α} {x : Fm α} {access : Access}
    (rest : Erases Logged.state y x) : Erases Logged.state (note access >>= fun _ => y) x := by
  unfold note
  exact .after (fun _ => rfl) rest

theorem readTurn_erases {size : Int} {block : UInt32} {r : Reading} :
    Erases Logged.state (readTurn size block r) (FileSystem.readTurn size block r) :=
  note_erases lift_erases

theorem devReadBlock_erases {role : Role} {block : UInt32} :
    Erases Logged.state (devReadBlock role block) (FileSystem.devReadBlock block) :=
  note_erases lift_erases

theorem readDirect_erases {inode : INode} {minEnd : Int} {fuel : Nat} {r : Reading} :
    Erases Logged.state (readDirect inode minEnd fuel r)
      (FileSystem.readDirect inode minEnd fuel r) := by
  induction fuel generalizing r with
  | zero => exact .pure
  | succ fuel ih =>
      exact .ite (.bind lift_erases fun _ => .bind readTurn_erases fun _ => ih) .pure

theorem readLoop_erases {table : Nat → UInt32} {size minEnd : Int} {fuel i : Nat} {r : Reading} :
    Erases Logged.state (readLoop table size minEnd fuel i r)
      (FileSystem.readLoop table size minEnd fuel i r) := by
  induction fuel generalizing i r with
  | zero => exact .pure
  | succ fuel ih =>
      exact .ite (.bind lift_erases fun _ => .bind readTurn_erases fun _ => ih) .pure

theorem readTwo_erases {inode : INode} {minEnd : Int} {fuel i : Nat} {r : Reading} :
    Erases Logged.state (readTwo inode minEnd fuel i r)
      (FileSystem.readTwo inode minEnd fuel i r) := by
  induction fuel generalizing i r with
  | zero => exact .pure
  | succ fuel ih =>
      exact .ite (.bind lift_erases fun _ => .bind lift_erases fun _ =>
        .bind devReadBlock_erases fun _ =>
        .bind lift_erases fun _ => .bind readLoop_erases fun _ => ih) .pure

theorem readThreeInner_erases {inode : INode} {minEnd : Int} {fuel i j : Nat} {r : Reading} :
    Erases Logged.state (readThreeInner inode i minEnd fuel j r)
      (FileSystem.readThreeInner inode i minEnd fuel j r) := by
  induction fuel generalizing j r with
  | zero => exact .pure
  | succ fuel ih =>
      exact .ite (.bind lift_erases fun _ => .bind lift_erases fun _ =>
        .bind devReadBlock_erases fun _ =>
        .bind lift_erases fun _ => .bind readLoop_erases fun _ => ih) .pure

theorem readThree_erases {inode : INode} {minEnd : Int} {fuel i : Nat} {r : Reading} :
    Erases Logged.state (readThree inode minEnd fuel i r)
      (FileSystem.readThree inode minEnd fuel i r) := by
  induction fuel generalizing i r with
  | zero => exact .pure
  | succ fuel ih =>
      exact .ite (.bind lift_erases fun _ => .bind lift_erases fun _ =>
        .bind devReadBlock_erases fun _ =>
        .bind lift_erases fun _ => .bind readThreeInner_erases fun _ => ih) .pure

/-- **The logged `read_data` is `read_data`.** -/
theorem readData_erases {o : Int} {inode : INode} {len : Int} :
    Erases Logged.state (readData o inode len) (FileSystem.readData o inode len) := by
  refine .bind (.ite readDirect_erases .pure) fun _ => .ite .pure ?_
  refine .bind
    (.ite (.bind devReadBlock_erases fun _ => .bind lift_erases fun _ => readLoop_erases) .pure)
    fun _ => .ite .pure ?_
  refine .bind
    (.ite (.bind devReadBlock_erases fun _ => .bind lift_erases fun _ => readTwo_erases) .pure)
    fun _ => .ite .pure ?_
  refine .bind
    (.ite (.bind devReadBlock_erases fun _ => .bind lift_erases fun _ => readThree_erases) .pure)
    fun _ => .pure

/-! ### What the log holds -/

/-- From `t` to `t'` the disk is the same and what was written down satisfies `P`. -/
structure Adds (P : Access → Prop) (t t' : Logged) : Prop where
  disk : t'.state.disk = t.state.disk
  log : ∀ x, x ∈ t'.log → x ∈ t.log ∨ P x

/-- The same, where nothing of the state has changed. -/
structure Notes (P : Access → Prop) (t t' : Logged) : Prop where
  state : t'.state = t.state
  log : ∀ x, x ∈ t'.log → x ∈ t.log ∨ P x

section Relations

variable {P P' : Access → Prop} {t t' t'' : Logged}

theorem Adds.refl : Adds P t t := ⟨rfl, fun _ => .inl⟩

theorem Adds.trans (first : Adds P t t') (second : Adds P t' t'') : Adds P t t'' := by
  refine ⟨second.disk.trans first.disk, fun x member => ?_⟩
  rcases second.log x member with before | new
  · exact first.log x before
  · exact .inr new

theorem Adds.mono (adds : Adds P t t') (weaker : ∀ x, P x → P' x) : Adds P' t t' :=
  ⟨adds.disk, fun x member => (adds.log x member).imp id (weaker x)⟩

theorem Notes.adds (notes : Notes P t t') : Adds P t t' := ⟨by rw [notes.state], notes.log⟩

theorem Notes.refl : Notes P t t := ⟨rfl, fun _ => .inl⟩

theorem Notes.trans (first : Notes P t t') (second : Notes P t' t'') : Notes P t t'' :=
  ⟨second.state.trans first.state, (first.adds.trans second.adds).log⟩

/-- A scratch buffer is filled. -/
theorem Notes.scratch {s : FmState} (notes : Notes P t t') (disk : s.disk = t'.state.disk) :
    Adds P t { t' with state := s } :=
  ⟨by rw [← notes.state]; exact disk, notes.log⟩

end Relations

theorem lift_ok {α : Type} {x : Fm α} {t : Logged} {a : α} {s : FmState}
    (run : x t.state = .ok a s) :
    lift x t = .ok a { t with state := s } := by
  unfold lift
  rw [run]

/-- The driver's assertion fails for an access. -/
def Refused (x : Access) : Prop := ¬ (x.block + UInt32.ofInt x.offset).toNat + x.len < ramdiskSize

/-- The run stops at an access that is refused. -/
def Fails (P : Access → Prop) (t : Logged) (_ : Fault) (t' : Logged) : Prop :=
  Adds P t t' ∧ ∃ x, P x ∧ Refused x

theorem Fails.after {P : Access → Prop} {t t' t'' : Logged} {e : Fault} (adds : Adds P t t')
    (fails : Fails P t' e t'') :
    Fails P t e t'' := ⟨adds.trans fails.1, fails.2⟩

/-- An access that is written down and then made, by a part that changes nothing. -/
theorem note_notes {α : Type} {x : Fm α} {access : Access} {t : Logged} {P : Access → Prop}
    {Q : α → Prop} (proper : P access)
    (ends : Ends x t.state (fun a s => Q a ∧ s = t.state) fun _ s => Refused access ∧ s = t.state) :
    Ends (note access >>= fun _ => lift x) t (fun a t' => Q a ∧ Notes P t t') (Fails P t) := by
  have log : ∀ y, y ∈ t.log ++ [access] → y ∈ t.log ∨ P y := by
    intro y member
    rcases List.mem_append.mp member with before | new
    · exact .inl before
    · rw [List.mem_singleton.mp new]
      exact .inr proper
  refine .bind (.modify ⟨?_⟩)
  unfold lift
  cases run : x t.state with
  | ok a s => exact ⟨(ends.of_ok run).1, (ends.of_ok run).2, log⟩
  | error e s => exact ⟨Notes.adds ⟨(ends.of_error run).2, log⟩, access, proper,
      (ends.of_error run).1⟩

section Log

variable {P : Access → Prop} {n o i k m : Nat} {inode : INode} {r : Reading} {t : Logged}

/-- The variables of `read_data` when `c` bytes more have been delivered. -/
structure Moved (r r' : Reading) (o c : Nat) : Prop where
  offset : r'.fileOffset = (o + c : Nat)
  left : r'.len = r.len - c
  count : r'.delivered.length = r.delivered.length + c

theorem readTurn_notes {block : UInt32} (offset : r.fileOffset = o) (inside : o < n)
    (positive : 0 < r.len)
    (proper : P ⟨.data (o / 256), block, (o % 256 : Nat),
      (min (min (256 - o % 256) r.len.toNat) (n - o) : Nat)⟩) :
    Ends (readTurn n block r) t
      (fun r' t' => Moved r r' o (min (min (256 - o % 256) r.len.toNat) (n - o)) ∧ Notes P t t')
      (Fails P t) := by
  unfold readTurn
  rw [offset, tdiv_blockSize, tmod_blockSize, curReadLen_eq inside positive, Int.toNat_natCast]
  refine note_notes proper ?_
  unfold FileSystem.readTurn
  rw [offset, curReadLen_eq inside positive, tmod_blockSize]
  unfold devRead
  refine .bind (.ite (fun _ => .bind (.get (.pure ?_))) fun refused => .throw ⟨refused, rfl⟩)
  refine .pure ⟨⟨by push_cast; rfl, rfl, ?_⟩, rfl⟩
  rw [List.length_append, Store.read_length, Int.toNat_natCast]

theorem Moved.zero (offset : r.fileOffset = o) : Moved r r o 0 :=
  ⟨offset, (sub_zero r.len).symm, rfl⟩

theorem Moved.trans {r' r'' : Reading} {c c' : Nat} (first : Moved r r' o c)
    (second : Moved r' r'' (o + c) c') :
    Moved r r'' o (c + c') := by
  refine ⟨by
    rw [second.offset, Nat.add_assoc], ?_, by rw [second.count, first.count, Nat.add_assoc]⟩
  rw [second.left, first.left]
  push_cast
  ring

/-- A first part does not pass a bound, and what is left goes up to it. -/
theorem Moved.upTo {r' r'' : Reading} {c : Nat} (first : Moved r r' o c)
    (fits : c ≤ min r.len.toNat (m - o))
    (second : Moved r' r'' (o + c) (min r'.len.toNat (m - (o + c)))) :
    Moved r r'' o (min r.len.toNat (m - o)) := by
  have left := first.left
  have total : c + min r'.len.toNat (m - (o + c)) = min r.len.toNat (m - o) := by omega
  rw [← total]
  exact first.trans second

/-- The read that a file of size `n` with the given image makes for one of its blocks. -/
structure Proper (image : Image) (n : Nat) (x : Access) : Prop where
  valid : x.role.Valid
  needed : x.role.start < n
  block : x.block = image.addr x.role
  low : 0 ≤ x.offset
  length : 0 ≤ x.len
  high : x.offset + x.len ≤ 256

theorem Proper.turn {image : Image} {a : UInt32} {c : Nat}
    (address : a = image.addr (.data (o / 256))) (inside : o < n) (small : o < 1068032)
    (fits : c ≤ 256 - o % 256) :
    Proper image n ⟨.data (o / 256), a, (o % 256 : Nat), (c : Nat)⟩ where
  valid := show o / 256 < 266316 by omega
  needed := show 256 * (o / 256) < n by omega
  block := address
  low := Int.natCast_nonneg _
  length := Int.natCast_nonneg _
  high := by
    show ((o % 256 : Nat) : Int) + (c : Nat) ≤ 256
    omega

/-- An index block is read. -/
theorem devReadBlock_notes {role : Role} {a : UInt32} (proper : P ⟨role, a, 0, (blockSize : Nat)⟩) :
    Ends (devReadBlock role a) t
      (fun words t' => (words = fun j => t.state.disk.word (a.toNat + 4 * j)) ∧ Notes P t t')
        (Fails P t) := by
  unfold devReadBlock
  refine note_notes proper ?_
  unfold FileSystem.devReadBlock
  refine .ite (fun _ => .bind (.get (.pure ⟨rfl, rfl⟩))) fun refused => .throw ⟨?_, rfl⟩
  show ¬ (a + UInt32.ofInt ((0 : Nat) : Int)).toNat + ((blockSize : Nat) : Int) < ramdiskSize
  rw [ofInt_natCast, show UInt32.ofNat 0 = 0 from rfl, UInt32.add_zero]
  exact_mod_cast refused

theorem devReadBlock_logged {role : Role} {a : UInt32} :
    Ends (devReadBlock role a) t (fun _ t' => ⟨role, a, 0, (blockSize : Nat)⟩ ∈ t'.log)
      fun _ _ => True := by
  refine .bind (.modify ⟨?_⟩)
  unfold lift
  cases FileSystem.devReadBlock a t.state with
  | ok words s => exact List.mem_append_right _ (List.mem_singleton_self _)
  | error e s => trivial

variable {image : Image}

theorem readDirect_notes (index : image.index = inode.index) (size : inode.size = n)
    (offset : r.fileOffset = o) (bound : m ≤ n) (last : m ≤ 3072) (lastBlock : m = n ∨ m = 3072)
    {fuel : Nat} (enough : r.len.toNat ≤ fuel) :
    Ends (readDirect inode m fuel r) t
      (fun r' t' => Moved r r' o (min r.len.toNat (m - o)) ∧ Notes (Proper image n) t t')
      (Fails (Proper image n) t) := by
  induction fuel generalizing r o t with
  | zero =>
      rw [show min r.len.toNat (m - o) = 0 by omega]
      exact .pure ⟨.zero offset, .refl⟩
  | succ fuel ih =>
      unfold readDirect
      refine .ite (fun more => ?_) fun done => ?_
      · have inside : o < m := by omega
        obtain ⟨c, count⟩ : ∃ c, min (min (256 - o % 256) r.len.toNat) (n - o) = c := ⟨_, rfl⟩
        have fits : c ≤ min r.len.toNat (m - o) := by omega
        rw [offset, tdiv_blockSize, size]
        refine .bind_ok (lift_ok (slot_ok (by omega))) ?_
        have address : inode.index (Fin.ofNat 15 (o / 256)) = image.addr (.data (o / 256)) := by
          rw [Image.addr_direct _ (by omega), index]
        refine .bind ((readTurn_notes offset (by omega) more.2
          (Proper.turn address (by omega) (by omega) (by omega))).mono ?_ fun _ _ fails => fails)
        rintro r₁ t₁ ⟨moved, notes⟩
        rw [count] at moved
        refine (ih (r := r₁) (o := o + c) moved.offset (by rw [moved.left]; omega)).mono ?_
          fun _ _ fails => .after notes.adds fails
        rintro r₂ t₂ ⟨further, later⟩
        exact ⟨moved.upTo fits further, notes.trans later⟩
      · rw [show min r.len.toNat (m - o) = 0 by omega]
        exact .pure ⟨.zero offset, .refl⟩

theorem readLoop_notes {table : Nat → UInt32}
    (words : ∀ j, j < 64 → table j = image.addr (.data (k + j))) (offset : r.fileOffset = o)
    (place : 0 < r.len → o < m → o / 256 = k + i) (bound : m ≤ n) (last : m ≤ 256 * (k + 64))
    (low : m ≤ 1068032) (lastBlock : m = n ∨ m = 256 * (k + 64)) {fuel : Nat}
    (enough : r.len.toNat ≤ fuel) :
    Ends (readLoop table n m fuel i r) t
      (fun r' t' => Moved r r' o (min r.len.toNat (m - o)) ∧ Notes (Proper image n) t t')
      (Fails (Proper image n) t) := by
  induction fuel generalizing r o i t with
  | zero =>
      rw [show min r.len.toNat (m - o) = 0 by omega]
      exact .pure ⟨.zero offset, .refl⟩
  | succ fuel ih =>
      unfold readLoop
      refine .ite (fun more => ?_) fun done => ?_
      · have inside : o < m := by omega
        have place := place more.2 inside
        obtain ⟨c, count⟩ : ∃ c, min (min (256 - o % 256) r.len.toNat) (n - o) = c := ⟨_, rfl⟩
        have fits : c ≤ min r.len.toNat (m - o) := by omega
        refine .bind_ok (lift_ok (blockWord_ok (by omega))) ?_
        have address : table i = image.addr (.data (o / 256)) := by
          rw [place, words i (by omega)]
        refine .bind ((readTurn_notes offset (by omega) more.2
          (Proper.turn address (by omega) (by omega) (by omega))).mono ?_ fun _ _ fails => fails)
        rintro r₁ t₁ ⟨moved, notes⟩
        rw [count] at moved
        have left := moved.left
        refine (ih (r := r₁) (o := o + c) (i := i + 1) moved.offset (by omega) (by omega)).mono ?_
          fun _ _ fails => .after notes.adds fails
        rintro r₂ t₂ ⟨further, later⟩
        exact ⟨moved.upTo fits further, notes.trans later⟩
      · rw [show min r.len.toNat (m - o) = 0 by omega]
        exact .pure ⟨.zero offset, .refl⟩

theorem Proper.index {role : Role} {a : UInt32} (address : a = image.addr role) (valid : role.Valid)
    (needed : role.start < n) : Proper image n ⟨role, a, 0, (blockSize : Nat)⟩ where
  valid := valid
  needed := needed
  block := address
  low := le_rfl
  length := Int.natCast_nonneg _
  high := show (0 : Int) + (blockSize : Nat) ≤ 256 by decide

theorem readTwo_adds (disk : t.state.disk = image.disk) (size : inode.size = n)
    (words : ∀ j, j < 64 → t.state.indexBlock1 j = image.addr (.twoSub j))
    (offset : r.fileOffset = o) (after : 19456 ≤ o) (bound : m ≤ n) (low : m ≤ 1068032)
    (lastBlock : m = n ∨ m = 1068032) (place : 0 < r.len → o < m → (o - 19456) / 16384 = i)
    {fuel : Nat} (enough : r.len.toNat ≤ fuel) :
    Ends (readTwo inode m fuel i r) t
      (fun r' t' => Moved r r' o (min r.len.toNat (m - o)) ∧ Adds (Proper image n) t t')
      (Fails (Proper image n) t) := by
  induction fuel generalizing r o i t with
  | zero =>
      rw [show min r.len.toNat (m - o) = 0 by omega]
      exact .pure ⟨.zero offset, .refl⟩
  | succ fuel ih =>
      unfold readTwo
      refine .ite (fun more => ?_) fun done => ?_
      · have inside : o < m := by omega
        have place := place more.2 inside
        have small : i < 64 := by omega
        obtain ⟨c, count⟩ : ∃ c, min r.len.toNat (min n (19456 + 16384 * (i + 1)) - o) = c :=
          ⟨_, rfl⟩
        have fits : c ≤ min r.len.toNat (m - o) := by omega
        have tempEnd : levelEnd1 + ((i : Int) + 1) * indexOneSize =
            ((19456 + 16384 * (i + 1) : Nat) : Int) := by
          unfold levelEnd1 indexOneSize
          push_cast
          ring
        have slot : (r.fileOffset - (((19456 + 16384 * (i + 1) : Nat) : Int) - indexOneSize)).tdiv
          (blockSize : Nat)
            = ((o / 256 - (76 + 64 * i) : Nat) : Int) := by
          rw [offset, show (o : Int) - (((19456 + 16384 * (i + 1) : Nat) : Int) - indexOneSize)
            = ((o - (19456 + 16384 * i) : Nat) : Int) by unfold indexOneSize; omega, tdiv_blockSize,
            show (o - (19456 + 16384 * i)) / 256 = o / 256 - (76 + 64 * i) by omega]
        refine .bind_ok (lift_ok run_get) (.bind_ok (lift_ok (blockWord_ok small)) ?_)
        refine .bind ((devReadBlock_notes (Proper.index (words i small) small
          (show 19456 + 16384 * i < n by omega))).mono ?_ fun _ _ fails => fails)
        rintro block2 t₁ ⟨fill, notes⟩
        refine .bind_ok (lift_ok rfl) ?_
        dsimp only
        rw [tempEnd, min_end size, slot, Int.toNat_natCast, size]
        have entries : ∀ j, j < 64 → block2 j = image.addr (.data (76 + 64 * i + j)) := by
          intro j smaller
          rw [fill, words i small, Image.addr_child _ ((isTable_twoSub small).parent j smaller),
            (isTable_twoSub small).slot j smaller, disk]
        have filled := notes.scratch (s := { t₁.state with indexBlock2 := block2 }) rfl
        refine .bind ((readLoop_notes (i := o / 256 - (76 + 64 * i)) (r := r)
          (m := min n (19456 + 16384 * (i + 1)))
          entries offset (by omega) (min_le_left _ _) (by omega) (by omega)
            (by omega) le_rfl).mono ?_
          fun _ _ fails => .after filled fails)
        rintro r₁ t₂ ⟨moved, turns⟩
        rw [count] at moved
        have left := moved.left
        have before := filled.trans turns.adds
        have words₂ : ∀ j, j < 64 → t₂.state.indexBlock1 j = image.addr (.twoSub j) := by
          rw [turns.state]
          show ∀ j, j < 64 → t₁.state.indexBlock1 j = _
          rw [notes.state]
          exact words
        have enough : r₁.len.toNat ≤ fuel := by omega
        have reached : 0 < r₁.len → o + c < m → o + c = 19456 + 16384 * (i + 1) := by omega
        have next : 0 < r₁.len → o + c < m → (o + c - 19456) / 16384 = i + 1 := by
          intro more inside
          rw [reached more inside, Nat.add_sub_cancel_left, Nat.mul_div_cancel_left _ (by decide)]
        refine (ih (t := t₂) (r := r₁) (o := o + c) (i := i + 1) (before.disk.trans disk)
          words₂ moved.offset
          (Nat.le_add_right_of_le after) next enough).mono ?_ fun _ _ fails => .after before fails
        rintro r₂ t₃ ⟨further, later⟩
        exact ⟨moved.upTo fits further, before.trans later⟩
      · rw [show min r.len.toNat (m - o) = 0 by omega]
        exact .pure ⟨.zero offset, .refl⟩

/-! ### The levels -/

theorem readLevel0_adds (index : image.index = inode.index) (size : inode.size = n)
    (offset : r.fileOffset = o) :
    Ends (readLevel0 inode r) t
      (fun r' t' => Moved r r' o (min r.len.toNat (min n 3072 - o)) ∧ Adds (Proper image n) t t')
      (Fails (Proper image n) t) := by
  unfold readLevel0
  refine .ite (fun _ => ?_) fun done => ?_
  · show Ends (readDirect inode (if inode.size < ((3072 : Nat) : Int) then inode.size
      else ((3072 : Nat) : Int))
      r.len.toNat r) t _ _
    rw [min_end size]
    exact (readDirect_notes index size offset (by omega) (by omega) (by omega) le_rfl).mono
      (fun _ _ here => ⟨here.1, here.2.adds⟩) fun _ _ fails => fails
  · unfold levelEnd0 at done
    rw [show min r.len.toNat (min n 3072 - o) = 0 by omega]
    exact .pure ⟨.zero offset, .refl⟩

theorem readLevel1_adds (disk : t.state.disk = image.disk) (index : image.index = inode.index)
    (size : inode.size = n) (offset : r.fileOffset = o) (inside : o < n)
    (after : 0 < r.len → 3072 ≤ o) :
    Ends (readLevel1 inode r) t
      (fun r' t' => Moved r r' o (min r.len.toNat (min n 19456 - o)) ∧ Adds (Proper image n) t t')
      (Fails (Proper image n) t) := by
  unfold readLevel1
  refine .ite (fun more => ?_) fun done => ?_
  · have after := after more.2
    have within : o < 19456 := by
      have := more.1
      unfold levelEnd1 at this
      omega
    have address : inode.index 12 = image.addr .one := (congrFun index 12).symm
    have slot : (r.fileOffset - levelEnd0).tdiv (blockSize : Nat) =
        ((o / 256 - 12 : Nat) : Int) := by
      rw [offset, show (o : Int) - levelEnd0 = ((o - 3072 : Nat) : Int) by unfold levelEnd0; omega,
        tdiv_blockSize, show (o - 3072) / 256 = o / 256 - 12 by omega]
    refine .bind ((devReadBlock_notes (Proper.index address trivial (show 3072 < n by omega))).mono
      ?_
      fun _ _ fails => fails)
    rintro block1 t₁ ⟨fill, notes⟩
    refine .bind_ok (lift_ok rfl) ?_
    dsimp only
    rw [slot, Int.toNat_natCast,
      show (if inode.size < levelEnd1 then inode.size else levelEnd1) = ((min n 19456 : Nat) : Int)
        from min_end size 19456, size]
    have entries : ∀ j, j < 64 → block1 j = image.addr (.data (12 + j)) := by
      intro j smaller
      rw [fill, address, Image.addr_child _ (isTable_one.parent j smaller),
        isTable_one.slot j smaller, disk]
    have filled := notes.scratch (s := { t₁.state with indexBlock1 := block1 }) rfl
    exact (readLoop_notes (m := min n 19456) (i := o / 256 - 12) entries offset (by omega)
      (by omega) (by omega)
      (by omega) (by omega) le_rfl).mono (fun _ _ here => ⟨here.1, filled.trans here.2.adds⟩)
      fun _ _ fails => .after filled fails
  · unfold levelEnd1 at done
    rw [show min r.len.toNat (min n 19456 - o) = 0 by omega]
    exact .pure ⟨.zero offset, .refl⟩

theorem readLevel2_adds (disk : t.state.disk = image.disk) (index : image.index = inode.index)
    (size : inode.size = n) (offset : r.fileOffset = o) (inside : o < n)
    (after : 0 < r.len → 19456 ≤ o) :
    Ends (readLevel2 inode r) t
      (fun r' t' => Moved r r' o (min r.len.toNat (min n 1068032 - o)) ∧ Adds (Proper image n) t t')
      (Fails (Proper image n) t) := by
  unfold readLevel2
  refine .ite (fun more => ?_) fun done => ?_
  · have after := after more.2
    have within : o < 1068032 := by
      have := more.1
      unfold levelEnd2 at this
      omega
    have address : inode.index 13 = image.addr .two := (congrFun index 13).symm
    have slot : (r.fileOffset - levelEnd1).tdiv indexOneSize =
        (((o - 19456) / 16384 : Nat) : Int) := by
      rw [offset, show (o : Int) - levelEnd1 = ((o - 19456 : Nat) : Int) by unfold levelEnd1; omega]
      show ((o - 19456 : Nat) : Int).tdiv (16384 : Nat) = _
      rw [← Int.ofNat_tdiv]
    refine .bind ((devReadBlock_notes (Proper.index address trivial (show 19456 < n by omega))).mono
      ?_
      fun _ _ fails => fails)
    rintro block1 t₁ ⟨fill, notes⟩
    refine .bind_ok (lift_ok rfl) ?_
    dsimp only
    rw [slot, Int.toNat_natCast,
      show (if inode.size < levelEnd2 then inode.size
        else levelEnd2) = ((min n 1068032 : Nat) : Int)
        from min_end size 1068032]
    have entries : ∀ j, j < 64 → block1 j = image.addr (.twoSub j) := by
      intro j _
      rw [fill, Image.addr_child _ (show (Role.twoSub j).parent = some .two from rfl),
        address, disk]
      rfl
    have filled := notes.scratch (s := { t₁.state with indexBlock1 := block1 }) rfl
    exact (readTwo_adds (t := { t₁ with state := { t₁.state with indexBlock1 := block1 } })
      (filled.disk.trans disk) size
      entries offset after (by omega) (by omega) (by omega) (fun _ _ => rfl) le_rfl).mono
      (fun _ _ here => ⟨here.1, filled.trans here.2⟩) fun _ _ fails => .after filled fails
  · unfold levelEnd2 at done
    rw [show min r.len.toNat (min n 1068032 - o) = 0 by omega]
    exact .pure ⟨.zero offset, .refl⟩

/-! In the last level the log is only known to be about the last level. -/

theorem blockWord_same {table : Nat → UInt32} :
    Ends (lift (blockWord table i)) t (fun _ t' => t' = t) fun _ t' => t' = t := by
  constructor
  by_cases small : i < 64
  · rw [lift_ok (blockWord_ok small)]
  · unfold lift blockWord
    rw [if_neg small]
    rfl

/-- A read for a block of the last level. -/
def Late (x : Access) : Prop := 1068032 ≤ x.role.start

theorem readLoop_late {table : Nat → UInt32} (offset : r.fileOffset = o) (after : 1068032 ≤ o)
    (bound : m ≤ n) {fuel : Nat} :
    Ends (readLoop table n m fuel i r) t (fun r' t' => (∃ o', r'.fileOffset = (o' : Nat) ∧ o ≤ o') ∧
      Adds Late t t')
      fun _ t' => Adds Late t t' := by
  induction fuel generalizing r o i t with
  | zero => exact .pure ⟨⟨o, offset, le_rfl⟩, .refl⟩
  | succ fuel ih =>
      unfold readLoop
      refine .ite (fun more => ?_) fun _ => .pure ⟨⟨o, offset, le_rfl⟩, .refl⟩
      refine .bind (blockWord_same.mono ?_ ?_)
      · rintro block _ rfl
        have late : Late ⟨.data (o / 256), block, (o % 256 : Nat),
            (min (min (256 - o % 256) r.len.toNat) (n - o) : Nat)⟩ := by
          show 1068032 ≤ 256 * (o / 256)
          omega
        refine .bind ((readTurn_notes offset (by omega) more.2 late).mono ?_
          fun _ _ fails => fails.1)
        rintro r₁ t₁ ⟨moved, notes⟩
        refine (ih moved.offset (by omega)).mono ?_ fun _ _ later => notes.adds.trans later
        rintro r₂ t₂ ⟨⟨o', offset', further⟩, later⟩
        exact ⟨⟨o', offset', by omega⟩, notes.adds.trans later⟩
      · rintro _ _ rfl
        exact .refl

/-- An entry of a table is looked up, and the index block it names read into a scratch buffer. -/
theorem load_late {β : Type} {role : Role} {table : Nat → UInt32}
    (put : (Nat → UInt32) → FmState → FmState) {rest : (Nat → UInt32) → EStateM Fault Logged β}
    {Q : β → Prop} (late : 1068032 ≤ role.start) (keeps : ∀ words s, (put words s).disk = s.disk)
    (go : ∀ words t',
      Ends (rest words) t' (fun b t'' => Q b ∧ Adds Late t' t'') fun _ t'' => Adds Late t' t'') :
    Ends (do
        let a ← lift (blockWord table i)
        let words ← devReadBlock role a
        lift (modify (put words))
        rest words) t
      (fun b t' => Q b ∧ Adds Late t t') fun _ t' => Adds Late t t' := by
  refine .bind (blockWord_same.mono ?_ ?_)
  · rintro a _ rfl
    refine .bind ((devReadBlock_notes (P := Late) late).mono ?_ fun _ _ fails => fails.1)
    rintro words t₁ ⟨_, notes⟩
    refine .bind_ok (lift_ok rfl) ?_
    have filled := notes.scratch (keeps words t₁.state)
    exact (go words _).mono (fun _ _ here => ⟨here.1, filled.trans here.2⟩) fun _ _ later =>
      filled.trans later
  · rintro _ _ rfl
    exact .refl

theorem readThreeInner_late {j : Nat} {minEnd : Int} (size : inode.size = n)
    (offset : r.fileOffset = o) (after : 1068032 ≤ o) {fuel : Nat} :
    Ends (readThreeInner inode i minEnd fuel j r) t
      (fun r' t' => (∃ o', r'.fileOffset = (o' : Nat) ∧ 1068032 ≤ o') ∧ Adds Late t t') fun _ t' =>
      Adds Late t t' := by
  induction fuel generalizing r o j t with
  | zero => exact .pure ⟨⟨o, offset, after⟩, .refl⟩
  | succ fuel ih =>
      unfold readThreeInner
      refine .ite (fun _ => .bind_ok (lift_ok run_get) ?_) fun _ =>
        .pure ⟨⟨o, offset, after⟩, .refl⟩
      refine load_late (Q := fun r' : Reading => ∃ o', r'.fileOffset = (o' : Nat) ∧ 1068032 ≤ o')
        (fun words s => { s with indexBlock3 := words })
        (show 1068032 ≤ 1068032 + 1048576 * i + 16384 * j by omega) (fun _ _ => rfl)
        fun words t₁ => ?_
      dsimp only
      have tempEnd : levelEnd2 + i * indexTwoSize + ((j : Int) + 1) * indexOneSize
          = ((1068032 + 1048576 * i + 16384 * (j + 1) : Nat) : Int) := by
        unfold levelEnd2 indexTwoSize indexOneSize
        push_cast
        ring
      rw [tempEnd, min_end size, size]
      refine .bind ((readLoop_late offset after (min_le_left _ _)).mono ?_ fun _ _ adds => adds)
      rintro r₁ t₂ ⟨⟨o', offset', further⟩, adds⟩
      exact (ih offset' (by omega)).mono (fun _ _ here => ⟨here.1, adds.trans here.2⟩)
        fun _ _ later => adds.trans later

theorem readThree_late {minEnd : Int} (size : inode.size = n) (offset : r.fileOffset = o)
    (after : 1068032 ≤ o) {fuel : Nat} :
    Ends (readThree inode minEnd fuel i r) t
      (fun r' t' => (∃ o', r'.fileOffset = (o' : Nat) ∧ 1068032 ≤ o') ∧ Adds Late t t') fun _ t' =>
      Adds Late t t' := by
  induction fuel generalizing r o i t with
  | zero => exact .pure ⟨⟨o, offset, after⟩, .refl⟩
  | succ fuel ih =>
      unfold readThree
      refine .ite (fun _ => .bind_ok (lift_ok run_get) ?_) fun _ =>
        .pure ⟨⟨o, offset, after⟩, .refl⟩
      refine load_late (Q := fun r' : Reading => ∃ o', r'.fileOffset = (o' : Nat) ∧ 1068032 ≤ o')
        (fun words s => { s with indexBlock2 := words })
        (show 1068032 ≤ 1068032 + 1048576 * i by omega) (fun _ _ => rfl) fun words t₁ => ?_
      dsimp only
      refine .bind ((readThreeInner_late size offset after).mono ?_ fun _ _ adds => adds)
      rintro r₁ t₂ ⟨⟨o', offset', further⟩, adds⟩
      exact (ih offset' further).mono (fun _ _ here => ⟨here.1, adds.trans here.2⟩) fun _ _ later =>
        adds.trans later

/-- Behind the end of the file the loops of the last level do nothing. -/
theorem readThree_done {fuel : Nat} (size : inode.size = n) (offset : r.fileOffset = o)
    (done : n ≤ o) :
    readThree inode (if inode.size < levelEnd3 then inode.size else levelEnd3) fuel i r t =
      .ok r t := by
  cases fuel with
  | zero => rfl
  | succ fuel =>
      unfold readThree
      rw [if_neg fun more => ?_]
      · rfl
      · have := more.1
        split at this <;> omega

theorem readLevel3_late (size : inode.size = n) (offset : r.fileOffset = o)
    (after : 0 < r.len → n ≤ o ∨ 1068032 ≤ o) :
    Ends (readLevel3 inode r) t (fun _ t' => Adds (fun x => Late x ∧ 0 < r.len) t t')
      fun _ t' => Adds (fun x => Late x ∧ 0 < r.len) t t' := by
  unfold readLevel3
  refine .ite (fun more => ?_) fun _ => .pure .refl
  have strengthen : ∀ {t₁ t₂ : Logged}, Adds Late t₁ t₂ →
    Adds (fun x => Late x ∧ 0 < r.len) t₁ t₂ :=
    fun adds => adds.mono fun _ late => ⟨late, more⟩
  have late : Late ⟨.three, inode.index 14, 0, (blockSize : Nat)⟩ := le_rfl
  refine .bind ((devReadBlock_notes late).mono ?_ fun _ _ fails => strengthen fails.1)
  rintro words t₁ ⟨_, notes⟩
  refine .bind_ok (lift_ok rfl) ?_
  have filled := notes.scratch (s := { t₁.state with indexBlock1 := words }) rfl
  dsimp only
  rcases after more with done | deep
  · exact .ok (readThree_done size offset done) (strengthen filled)
  · exact (readThree_late size offset deep).mono (fun _ _ here => strengthen (filled.trans here.2))
      fun _ _ later => strengthen (filled.trans later)

/-- Behind the end of the file the last level delivers nothing, but it reads its index block. -/
theorem readLevel3_behind (size : inode.size = n) (offset : r.fileOffset = o)
    (done : 0 < r.len → n ≤ o) :
    Ends (readLevel3 inode r) t (fun r' t' => r' = r ∧ (0 < r.len → ∃ x ∈ t'.log, x.role = .three))
      fun _ _ => 0 < r.len := by
  unfold readLevel3
  refine .ite (fun more => ?_) fun idle => .pure ⟨rfl, fun more => absurd more idle⟩
  refine .bind (devReadBlock_logged.mono ?_ fun _ _ _ => more)
  intro words t₁ member
  refine .bind_ok (lift_ok rfl)
    (.ok (readThree_done size offset (done more)) ⟨rfl, fun _ => ⟨_, member, rfl⟩⟩)

/-- The request runs past what the double-indirect level can end at. -/
def Past (n o : Nat) (len : Int) : Prop := 19456 < n ∧ o < n ∧ min n 1068032 < o + len.toNat

/-- What is known of a logged run of `read_data`: every read is for a block the file needs, at the
address of the reference walk, or it is one of the last level. -/
def Explained (inode : INode) (n o : Nat) (len : Int) (t t' : Logged) : Prop :=
  Adds (fun x => Proper (t.state.image inode) n x ∨ Late x ∧ Past n o len) t t'

/-- **The outcome of `read_data`.** Without the last level it delivers what the file has, and only
fails when the driver refuses a block the file needs. -/
theorem readData_ends {len : Int} (size : inode.size = n) :
    Ends (readData o inode len) t
      (fun bytes t' => Explained inode n o len t t' ∧ (n ≤ 1068032 →
        bytes.length = min len.toNat (n - o) ∧ (Past n o len → ∃ x ∈ t'.log, x.role = .three)))
      fun _ t' => Explained inode n o len t t' ∧ (n ≤ 1068032 →
        (∃ x, Proper (t.state.image inode) n x ∧ Refused x) ∨ Past n o len) := by
  unfold Explained
  generalize view : t.state.image inode = image
  have disk : t.state.disk = image.disk := by rw [← view]; rfl
  have index : image.index = inode.index := by rw [← view]; rfl
  have widen : ∀ {t₁ t₂ : Logged}, Adds (Proper image n) t₁ t₂ →
      Adds (fun x => Proper image n x ∨ Late x ∧ Past n o len) t₁ t₂ :=
        fun adds => adds.mono fun _ => .inl
  unfold readData
  refine .bind ((readLevel0_adds (o := o) index size rfl).mono ?_
    fun _ _ fails => ⟨widen fails.1, fun _ => .inl fails.2⟩)
  rintro r₁ t₁ ⟨moved₁, adds₁⟩
  have offset₁ : r₁.fileOffset = (o + min len.toNat (min n 3072 - o) : Nat) := moved₁.offset
  have left₁ : r₁.len = len - (min len.toNat (min n 3072 - o) : Nat) := moved₁.left
  have count₁ : r₁.delivered.length = 0 + min len.toNat (min n 3072 - o) := moved₁.count
  refine .ite (fun filled => .pure ⟨widen adds₁, fun _ => ⟨?_, ?_⟩⟩) fun more₁ => ?_
  · rw [size, offset₁] at filled
    omega
  · rintro ⟨large, inside, -⟩
    rw [size, offset₁] at filled
    omega
  rw [size, offset₁] at more₁
  refine .bind ((readLevel1_adds (adds₁.disk.trans disk) index size offset₁ (by omega)
    (by omega)).mono ?_
    fun _ _ fails => ⟨widen (adds₁.trans fails.1), fun _ => .inl fails.2⟩)
  rintro r₂ t₂ ⟨turns₂, adds₂⟩
  have adds₂ := adds₁.trans adds₂
  have moved₂ := moved₁.upTo (m := min n 19456) (by dsimp only; omega) turns₂
  clear turns₂ count₁ left₁ offset₁ moved₁
  have offset₂ : r₂.fileOffset = (o + min len.toNat (min n 19456 - o) : Nat) := moved₂.offset
  have left₂ : r₂.len = len - (min len.toNat (min n 19456 - o) : Nat) := moved₂.left
  have count₂ : r₂.delivered.length = 0 + min len.toNat (min n 19456 - o) := moved₂.count
  refine .ite (fun filled => .pure ⟨widen adds₂, fun _ => ⟨?_, ?_⟩⟩) fun more₂ => ?_
  · rw [size, offset₂] at filled
    omega
  · rintro ⟨large, inside, -⟩
    rw [size, offset₂] at filled
    omega
  rw [size, offset₂] at more₂
  refine .bind ((readLevel2_adds (adds₂.disk.trans disk) index size offset₂ (by omega)
    (by omega)).mono ?_
    fun _ _ fails => ⟨widen (adds₂.trans fails.1), fun _ => .inl fails.2⟩)
  rintro r₃ t₃ ⟨turns₃, adds₃⟩
  have adds₃ := adds₂.trans adds₃
  have moved₃ := moved₂.upTo (m := min n 1068032) (by dsimp only; omega) turns₃
  clear turns₃ count₂ left₂ offset₂ moved₂
  have offset₃ : r₃.fileOffset = (o + min len.toNat (min n 1068032 - o) : Nat) := moved₃.offset
  have left₃ : r₃.len = len - (min len.toNat (min n 1068032 - o) : Nat) := moved₃.left
  have count₃ : r₃.delivered.length = 0 + min len.toNat (min n 1068032 - o) := moved₃.count
  refine .ite (fun filled => ?_) fun more₃ => ?_
  · rw [size, offset₃] at filled
    omega
  rw [size, offset₃] at more₃
  have past : 0 < r₃.len → Past n o len := fun positive => ⟨by omega, by omega, by omega⟩
  have finish : ∀ {t₄ : Logged}, Adds (fun x => Late x ∧ 0 < r₃.len) t₃ t₄ →
      Adds (fun x => Proper image n x ∨ Late x ∧ Past n o len) t t₄ := fun adds =>
    (widen adds₃).trans (adds.mono fun _ here => .inr ⟨here.1, past here.2⟩)
  have late := readLevel3_late (t := t₃) size offset₃ (by omega)
  have behind : n ≤ 1068032 → _ := fun small => readLevel3_behind (t := t₃) size offset₃ (by omega)
  refine .bind (.intro (fun r₄ t₄ run => .pure ⟨finish (late.of_ok run), fun small => ?_⟩)
    fun _ _ run => ⟨finish (late.of_error run),
      fun small => .inr (past ((behind small).of_error run))⟩)
  obtain ⟨rfl, three⟩ := (behind small).of_ok run
  refine ⟨by omega, ?_⟩
  rintro ⟨-, -, far⟩
  exact three (by omega)

end Log

end Logged

/-! ### Reads stay inside the file -/

/-- `read_data` ends with the bytes the file has from `o` on, and each of its reads is for a block
that the file needs, inside that block. -/
def ReadsInside (inode : INode) (n o : Nat) (len : Int) (s : FmState) : Prop :=
  ∃ bytes t, Logged.readData o inode len ⟨s, []⟩ = .ok bytes t ∧
    bytes.length = max 0 (min len (n - o)) ∧
    ∀ x ∈ t.log, x.role ∈ Active n ∧ x.block = (s.image inode).addr x.role ∧ 0 ≤ x.offset ∧
      x.offset + x.len ≤ 256

/-- The driver takes every access inside a block of the disk. -/
theorem Logged.Proper.taken {image : Image} {n : Nat} {x : Access}
    (proper : Logged.Proper image n x) (blocks : ∀ r ∈ Active n, ∃ b, IsBlock (image.addr r) b) :
    ¬ Logged.Refused x := by
  obtain ⟨b, small, address⟩ := blocks x.role ⟨proper.valid, proper.needed⟩
  have low := proper.low
  have length := proper.length
  have high := proper.high
  obtain ⟨r, offset⟩ := Int.eq_ofNat_of_zero_le low
  unfold Logged.Refused ramdiskSize
  rw [proper.block, offset, toNat_add_offset (by omega)]
  omega

section Inside

variable {inode : INode} {n o : Nat} {len : Int} {s : FmState}

/-- A request past the end of a file with a double-indirect level follows `index[14]`. -/
theorem not_readsInside_of_past (size : inode.size = n) (small : n ≤ 1068032)
    (past : Logged.Past n o len) :
    ¬ ReadsInside inode n o len s := by
  rintro ⟨bytes, t, ok, -, inside⟩
  obtain ⟨x, member, three⟩ := (((Logged.readData_ends size).of_ok ok).2 small).2 past
  have needed : x.role.start < n := (inside x member).1.2
  rw [three] at needed
  have late : Role.three.start = 1068032 := rfl
  omega

theorem readsInside_of_not_past (size : inode.size = n) (small : n ≤ 1068032)
    (blocks : ∀ r ∈ Active n, ∃ b, IsBlock ((s.image inode).addr r) b)
    (inside : ¬ Logged.Past n o len) :
    ReadsInside inode n o len s := by
  have run : Ends (Logged.readData o inode len) ⟨s, []⟩ _ fun _ _ => False :=
    (Logged.readData_ends size).mono (fun _ _ here => here) fun _ _ fails => by
      rcases fails.2 small with ⟨x, proper, refused⟩ | past
      · exact proper.taken blocks refused
      · exact inside past
  obtain ⟨bytes, t, ok, explained, delivered⟩ := run.run_ok
  refine ⟨bytes, t, ok, ?_, fun x member => ?_⟩
  · have := (delivered small).1
    omega
  · rcases explained.log x member with old | proper | ⟨-, past⟩
    · exact absurd old List.not_mem_nil
    · exact ⟨⟨proper.valid, proper.needed⟩, proper.block, proper.low, proper.high⟩
    · exact absurd past inside

/-- **Reads stay inside the file**, except for requests that run past the end of a file with a
double-indirect level. -/
theorem reads_inside_iff (size : inode.size = n) (small : n ≤ 1068032)
    (blocks : ∀ r ∈ Active n, ∃ b, IsBlock ((s.image inode).addr r) b ∧ s.blockBitmap b = true) :
    ReadsInside inode n o len s ↔ ¬ (19456 < n ∧ o < n ∧ n < o + len) := by
  have past : Logged.Past n o len ↔ 19456 < n ∧ o < n ∧ n < o + len := by
    unfold Logged.Past
    omega
  rw [← past]
  constructor
  · intro inside past
    exact not_readsInside_of_past size small past inside
  · exact readsInside_of_not_past size small fun r member =>
      (blocks r member).imp fun _ here => here.1

end Inside

/-! ### A file with a double-indirect level -/

/-- A disk with the index blocks of a file of 77 data blocks: data block `k` is block `k`, and
`index[12]`, `index[13]` and the first entry of the latter are the blocks 4000, 4001 and 4002. -/
def largeDisk : Store :=
  ((zeroState.disk.writeWords (82944 + 256 * 4000) 64 fun j => blockAt (12 + j)).writeWords
    (82944 + 256 * 4001) 64 fun j => blockAt (4002 + j)).writeWords (82944 + 256 * 4002) 64 fun j =>
    blockAt (76 + j)

/-- A file of 19457 bytes, one more than the first level has. -/
def largeInode : INode where
  size := 19457
  type := plainType
  devId := 0
  link := 0
  index i := if i = 12 then blockAt 4000 else if i = 13 then blockAt 4001 else blockAt i

/-- The state with this file, all blocks in use. -/
def largeState : FmState := { zeroState with disk := largeDisk, blockBitmap := fun _ => true }

theorem largeDisk_one {j : Nat} (small : j < 64) :
    largeDisk.word (82944 + 256 * 4000 + 4 * j) = blockAt (12 + j) := by
  unfold largeDisk
  rw [Store.word_writeWords_outside (by omega), Store.word_writeWords_outside (by omega),
    Store.word_writeWords small]

theorem largeDisk_two {j : Nat} (small : j < 64) :
    largeDisk.word (82944 + 256 * 4001 + 4 * j) = blockAt (4002 + j) := by
  unfold largeDisk
  rw [Store.word_writeWords_outside (by omega), Store.word_writeWords small]

theorem largeDisk_twoSub {j : Nat} (small : j < 64) :
    largeDisk.word (82944 + 256 * 4002 + 4 * j) = blockAt (76 + j) := by
  unfold largeDisk
  rw [Store.word_writeWords small]

theorem largeState_blocks : ∀ r ∈ Active 19457,
    ∃ b, IsBlock ((largeState.image largeInode).addr r) b ∧ largeState.blockBitmap b = true := by
  intro r member
  have needed := member.2
  suffices there : ∃ b, b < 4096 ∧ (largeState.image largeInode).addr r = blockAt b by
    obtain ⟨b, small, address⟩ := there
    exact ⟨b, by rw [address]; exact isBlock_blockAt small, rfl⟩
  cases r with
  | data k =>
      change 256 * k < 19457 at needed
      refine ⟨k, by omega, ?_⟩
      by_cases direct : k < 12
      · interval_cases k <;> rfl
      · show blockAddr largeDisk largeInode.index k = _
        unfold blockAddr
        rw [if_neg direct]
        by_cases single : k < 76
        · rw [if_pos single]
          have entry := largeDisk_one (j := k - 12) (by omega)
          rw [show 12 + (k - 12) = k by omega] at entry
          exact entry
        · obtain rfl : k = 76 := by omega
          have entry : largeDisk.word ((largeInode.index 13).toNat + 4 * ((76 - 76) / 64)) =
            blockAt 4002 :=
            largeDisk_two (j := 0) (by omega)
          rw [if_neg single, if_pos (by omega), entry]
          exact largeDisk_twoSub (j := 0) (by omega)
  | one => exact ⟨4000, by omega, rfl⟩
  | two => exact ⟨4001, by omega, rfl⟩
  | twoSub j =>
      change 19456 + 16384 * j < 19457 at needed
      obtain rfl : j = 0 := by omega
      exact ⟨4002, by omega, largeDisk_two (j := 0) (by omega)⟩
  | three =>
      change 1068032 < 19457 at needed
      omega
  | threeSub i =>
      change 1068032 + 1048576 * i < 19457 at needed
      omega
  | threeSubSub i j =>
      change 1068032 + 1048576 * i + 16384 * j < 19457 at needed
      omega

theorem largeFile_reads_inside : ReadsInside largeInode 19457 0 19457 largeState :=
  (reads_inside_iff rfl (by omega) largeState_blocks).mpr (by omega)

/-- One byte more than the file has. -/
theorem largeFile_reads_outside :
    ¬ ∀ (inode : INode) (n o : Nat) (len : Int) (s : FmState), inode.size = n →
    n ≤ 1068032 →
    (∀ r ∈ Active n, ∃ b, IsBlock ((s.image inode).addr r) b ∧ s.blockBitmap b = true) →
    ReadsInside inode n o len s := by
  intro all
  exact not_readsInside_of_past rfl (by omega) ⟨by omega, by omega, by omega⟩
    (all largeInode 19457 19456 2 largeState rfl (by omega) largeState_blocks)

end NjuOs.FileSystem
