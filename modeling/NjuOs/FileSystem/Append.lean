/-
**Appending: `write_data` at the end of a file.**

`writeData_ends`: at the end of a file whose blocks are its own, `write_data` stores the bytes, all
of them, and the image of the file grows by exactly these (`Grown`): the roles it had keep their
blocks, the new ones have blocks that were free, the bytes it had are unchanged and nothing outside
the file's blocks is. It fails only when the free blocks do not suffice, and then it hangs.

Each level of the source is one lemma with the same conclusion, `Appended`; the levels compose by
`Appended.trans`. The last level is never entered, because the disk is smaller than what lies
before it (`Own.size_le`).
-/

import NjuOs.FileSystem.Pending

namespace NjuOs.FileSystem

open NjuOs.Lib

/-! ### What a level does -/

/-- The blocks that a file of `n` bytes needs, its index blocks included. -/
def blockCost (n : Nat) : Nat :=
  dataCost n + (if 3072 < n then 1 else 0)
    + (if 19456 < n then 1 + (n - 19456 + 16383) / 16384 else 0)

/-- A write in progress with other index slots. -/
def Writing.withIndex (w : Writing) (index : Fin 15 → UInt32) : Writing :=
  { w with inode := { w.inode with index } }

@[simp] theorem Writing.withIndex_rest (w : Writing) (index : Fin 15 → UInt32) :
    (w.withIndex index).rest = w.rest := rfl

/-- `c` bytes were appended at offset `n`, for `e` blocks. -/
structure Appended (n c e : Nat) (w : Writing) (s : FmState) (w' : Writing)
    (s' : FmState) : Prop where
  enough : c ≤ w.rest.length
  writing : w' = (w.advance c).withIndex w'.inode.index
  grown : Grown n e (w.rest.take c) (Active n) (Active (n + c)) (s.image w.inode)
    (s'.image w'.inode)
  paid : e + blockCost n = blockCost (n + c)
  coarse : s'.coarse = s.coarse
  cursor : s'.blockBitIndex < 4096

/-- The disk has too few free blocks for `c` bytes more. -/
def Short (n c : Nat) (s : FmState) (e : Fault) : Prop :=
  e = .hang ∧ idleCount s.blockBitmap 4096 + blockCost n < blockCost (n + c)

theorem blockCost_mono {n n' : Nat} (le : n ≤ n') : blockCost n ≤ blockCost n' := by
  unfold blockCost dataCost
  split_ifs <;> omega

theorem Short.mono {n c c' : Nat} {s : FmState} {f : Fault} (short : Short n c s f) (le : c ≤ c') :
    Short n c' s f :=
  ⟨short.1, lt_of_lt_of_le short.2 (blockCost_mono (by omega))⟩

section Levels

variable {n c c' e e' : Nat} {w w' w'' : Writing} {s s' s'' : FmState}

theorem Appended.rest (first : Appended n c e w s w' s') : w'.rest = w.rest.drop c := by
  rw [first.writing]
  rfl

theorem Appended.offset (first : Appended n c e w s w' s') (offset : w.fileOffset = n) :
    w'.fileOffset = (n + c : Nat) := by
  rw [first.writing]
  show w.fileOffset + c = _
  rw [offset]
  push_cast
  rfl

theorem Appended.trans (first : Appended n c e w s w' s')
    (second : Appended (n + c) c' e' w' s' w'' s'') : Appended n (c + c') (e + e') w s w'' s'' := by
  have length : (w.rest.take c).length = c := by
    rw [List.length_take]
    exact Nat.min_eq_left first.enough
  have enough := second.enough
  rw [first.rest, List.length_drop] at enough
  have start := first.enough
  refine {
    enough := by omega
    writing := ?_
    grown := ?_
    paid := by
      have one := first.paid
      have two := second.paid
      rw [Nat.add_assoc n c c'] at two
      omega
    coarse := second.coarse.trans first.coarse
    cursor := second.cursor }
  · calc w'' = (((w.advance c).withIndex w'.inode.index).advance c').withIndex w''.inode.index := by
          rw [← first.writing]
          exact second.writing
      _ = ((w.advance c).advance c').withIndex w''.inode.index := rfl
      _ = (w.advance (c + c')).withIndex w''.inode.index := by rw [Writing.advance_advance]
  · have later := second.grown
    rw [first.rest, Nat.add_assoc n c c'] at later
    rw [List.take_add]
    refine first.grown.trans ?_
    rw [length]
    exact later

theorem Appended.stay (own : Own (Active n) (s.image w.inode)) (cursor : s.blockBitIndex < 4096) :
    Appended n 0 0 w s w s where
  enough := Nat.zero_le _
  writing := by
    rw [Writing.advance_zero]
    rfl
  grown := Grown.refl own (active_covers (by have := own.size_le; omega))
  paid := Nat.zero_add _
  coarse := rfl
  cursor := cursor

/-- A shortage behind a part that was written is one from the start. -/
theorem Appended.short (first : Appended n c e w s w' s') {f : Fault}
    (short : Short (n + c) c' s' f) :
    Short n (c + c') s f := by
  have paid : idleCount s.blockBitmap 4096 = idleCount s'.blockBitmap 4096 + e := first.grown.paid
  have cost := first.paid
  have few := short.2
  refine ⟨short.1, ?_⟩
  rw [← Nat.add_assoc]
  omega

/-! ### The direct blocks -/

theorem active_next {k : Nat} (direct : k < 12) (place : n = 256 * k) (positive : 0 < c)
    (fits : c ≤ 256) : Active (n + c) = insert (.data k) (Active n) := by
  ext r
  obtain ⟨m, start⟩ := start_dvd r
  constructor
  · rintro ⟨valid, before⟩
    by_cases early : r.start < n
    · exact Set.mem_insert_of_mem _ ⟨valid, early⟩
    · cases r <;> simp only [Role.start] at before early start <;> first | omega | skip
      next k' =>
        obtain rfl : k' = k := by omega
        exact Set.mem_insert _ _
  · rintro (rfl | ⟨valid, before⟩)
    · refine ⟨show k < 266316 by omega, ?_⟩
      show 256 * k < n + c
      omega
    · exact ⟨valid, by omega⟩

/-- Bytes stored at the end of the last data block of a file. -/
theorem image_append {A : Set Role} {inode : INode} (own : Own A (s.image inode))
    {bytes : List UInt8} (fits : n % 256 + bytes.length ≤ 256)
    (covers : ∀ q, q < n + bytes.length → .data (q / 256) ∈ A) (member : .data (n / 256) ∈ A)
    {a : UInt32} (address : (s.image inode).addr (.data (n / 256)) = a) :
    Grown n 0 bytes A A (s.image inode) ((s.put (a.toNat + n % 256) bytes).image inode) := by
  refine own.append fits covers member ?_ ?_
  · intro q below
    rw [address]
    exact Store.write_inside below
  · intro x outside
    rw [address] at outside
    exact Store.write_outside outside

theorem Appended.newDirect {k : Nat} (own : Own (Active n) (s.image w.inode)) (direct : k < 12)
    (place : n = 256 * k) (positive : 0 < w.rest.length) {a : UInt32} {b : Nat}
    (block : IsBlock a b) (idle : s.blockBitmap b = false) (chunk : min 256 w.rest.length = c) :
    Appended n c 1 w s
      ((w.withIndex (Function.update w.inode.index (Fin.ofNat 15 k) a)).advance c)
      ((s.take b).put a.toNat (w.rest.take c)) := by
  have next := active_next direct place (c := c) (by omega) (by omega)
  have length : (w.rest.take c).length = c := by
    rw [List.length_take]
    omega
  have root : (Role.data k).parent = none := if_pos direct
  have slot : (Role.data k).slot = k := if_pos direct
  have new : Role.data k ∉ Active n := by
    rintro ⟨_, before⟩
    change 256 * k < n at before
    omega
  have entered := own.enterRoot (n := n) root (show k < 266316 by omega) new block idle
  rw [slot] at entered
  rw [← next] at entered
  have member : Role.data (n / 256) ∈ Active (n + c) := by
    rw [next, show n / 256 = k by omega]
    exact Set.mem_insert _ _
  have address : ((s.take b).image
      { w.inode with index := Function.update w.inode.index (Fin.ofNat 15 k) a }).addr
      (.data (n / 256)) = a := by
    rw [show n / 256 = k by omega, Image.addr_root _ root, slot]
    exact Function.update_self _ _ _
  have stored := image_append (n := n) (s := s.take b) entered.own
    (show n % 256 + (w.rest.take c).length ≤ 256 by omega)
    (fun q below => active_covers (by omega) q (by omega)) member address
  rw [show n % 256 = 0 by omega, Nat.add_zero] at stored
  exact {
    enough := by omega
    writing := rfl
    grown := Grown.prepend entered stored
    paid := by
      unfold blockCost dataCost
      rw [if_neg (by omega), if_neg (by omega), if_neg (by omega), if_neg (by omega)]
      omega
    coarse := rfl
    cursor := block.1 }

theorem Appended.oldDirect (own : Own (Active n) (s.image w.inode)) (direct : n < 3072)
    (inside : n % 256 ≠ 0) (cursor : s.blockBitIndex < 4096)
    (chunk : min (256 - n % 256) w.rest.length = c) :
    Appended n c 0 w s (w.advance c)
      (s.put ((w.inode.index (Fin.ofNat 15 (n / 256))).toNat + n % 256) (w.rest.take c)) := by
  have length : (w.rest.take c).length = c := by
    rw [List.length_take]
    omega
  have same := active_inside (n := n) (c := c) inside (by omega)
  have address : (s.image w.inode).addr (.data (n / 256)) =
    w.inode.index (Fin.ofNat 15 (n / 256)) :=
    Image.addr_direct _ (by omega)
  have member : Role.data (n / 256) ∈ Active n := by
    refine ⟨show n / 256 < 266316 by omega, ?_⟩
    show 256 * (n / 256) < n
    omega
  have stored := image_append (n := n) own (show n % 256 + (w.rest.take c).length ≤ 256 by omega)
    (fun q below => same ▸ active_covers (by omega) q (by omega)) member address
  exact {
    enough := by omega
    writing := rfl
    grown := by
      rw [same]
      exact stored
    paid := by
      unfold blockCost dataCost
      rw [if_neg (by omega), if_neg (by omega), if_neg (by omega), if_neg (by omega)]
      omega
    coarse := rfl
    cursor := cursor }

theorem writeDirect_ends (own : Own (Active n) (s.image w.inode)) (cursor : s.blockBitIndex < 4096)
    (offset : w.fileOffset = n) {fuel : Nat} (enough : w.rest.length ≤ fuel) :
    Ends (writeDirect fuel w) s
      (fun w' s' => ∃ e, Appended n (min w.rest.length (3072 - n)) e w s w' s')
      (fun f _ => Short n (min w.rest.length (3072 - n)) s f) := by
  induction fuel generalizing w s n with
  | zero =>
      rw [show min w.rest.length (3072 - n) = 0 by omega]
      exact Ends.pure ⟨0, Appended.stay own cursor⟩
  | succ fuel ih =>
      unfold writeDirect
      refine Ends.ite (fun run => ?_) fun done => ?_
      · have more := run.2
        have within : n < 3072 := by
          have := run.1
          unfold levelEnd0 at this
          omega
        obtain ⟨c, chunk⟩ : ∃ c, min (256 - n % 256) w.rest.length = c := ⟨_, rfl⟩
        have positive : 0 < c := by omega
        have again : ∀ {e w' s'}, Appended n c e w s w' s' →
            Ends (writeDirect fuel w') s'
              (fun w'' s'' => ∃ e, Appended n (min w.rest.length (3072 - n)) e w s w'' s'')
              (fun f _ => Short n (min w.rest.length (3072 - n)) s f) := by
          intro e w' s' turn
          have rest : w'.rest.length = w.rest.length - c := by rw [turn.rest, List.length_drop]
          rw [show min w.rest.length (3072 - n) = c + min w'.rest.length (3072 - (n + c)) by omega]
          exact (ih turn.grown.own turn.cursor (turn.offset offset) (by omega)).mono
            (fun w'' s'' ⟨e', later⟩ => ⟨_, turn.trans later⟩) fun f s'' short => turn.short short
        have quotient : w.fileOffset.tdiv (blockSize : Nat) = (n / 256 : Nat) := by
          rw [offset, tdiv_blockSize]
        have remainder : w.fileOffset.tmod (blockSize : Nat) = (n % 256 : Nat) := by
          rw [offset, tmod_blockSize]
        rw [quotient, remainder]
        have small : n / 256 < 15 := by omega
        unfold openDirect
        rw [quotient, remainder]
        refine Ends.bind (Ends.ite (fun aligned => ?_) fun inside => ?_)
        · refine Ends.bind ((getFreeBlock_ends cursor).mono ?_ ?_)
          · rintro a _ ⟨b, block, idle, rfl⟩
            have fits := block.fits
            have start : (a + UInt32.ofInt ((n % 256 : Nat) : Int)).toNat = a.toNat := by
              rw [toNat_add_offset (by omega)]
              omega
            refine Ends.ok (setSlot_ok small a) (Ends.bind_ok (slot_ok small) ?_)
            dsimp only
            rw [Function.update_self]
            refine Ends.bind_ok (writeTurn_ok
              (w := w.withIndex (Function.update w.inode.index (Fin.ofNat 15 (n / 256)) a)) offset
              ?_) ?_
            · rw [start]
              omega
            rw [start, Writing.withIndex_rest, chunk]
            exact again (Appended.newDirect own (by omega) (by omega) more block idle (by omega))
          · rintro f _ ⟨rfl, none⟩
            refine ⟨rfl, ?_⟩
            unfold blockCost dataCost
            rw [if_neg (by omega), if_neg (by omega), if_neg (by omega), if_neg (by omega)]
            omega
        · have turn := Appended.oldDirect own within (by omega) cursor chunk
          obtain ⟨b, block, _⟩ := own.block (.data (n / 256)) (by
            have covered := active_covers (n := n) (by omega) (n - 1) (by omega)
            rwa [show (n - 1) / 256 = n / 256 by omega] at covered)
          rw [Image.addr_direct _ (by omega)] at block
          change IsBlock (w.inode.index _) b at block
          have fits := block.fits
          have start := toNat_add_offset (a := w.inode.index (Fin.ofNat 15 (n / 256)))
            (r := n % 256) (by omega)
          refine Ends.pure (Ends.bind_ok (slot_ok small) (Ends.bind_ok (writeTurn_ok offset ?_) ?_))
          · rw [start]
            omega
          · rw [start, chunk]
            exact again turn
      · have none : min w.rest.length (3072 - n) = 0 := by
          by_contra more
          refine done ⟨?_, by omega⟩
          unfold levelEnd0
          omega
        rw [none]
        exact Ends.pure ⟨0, Appended.stay own cursor⟩

/-! ### Opening an index block -/

/-- The table `p` is open at offset `n`: its block has a role, and its words are in the scratch
copy. -/
structure Opened (p : Role) (outer : Store → Store) (index : Fin 15 → UInt32) (n e : Nat)
    (A : Set Role) (image : Image) (s : FmState) (a : UInt32) (words : Nat → UInt32)
    (s' : FmState) : Prop where
  grown : Extends n e A (Reach p n) image (pending outer a index ⟨words, false⟩ s')
  here : (pending outer a index ⟨words, false⟩ s').addr p = a
  loaded : n ≠ p.start → words = fun i => s'.disk.word (a.toNat + 4 * i)
  paid : e = if n = p.start then 1 else 0
  coarse : s'.coarse = s.coarse
  cursor : s'.blockBitIndex < 4096
  disk : s'.disk = s.disk

variable {p : Role} {outer : Store → Store} {Z : Nat → Prop} {index : Fin 15 → UInt32}
  {A : Set Role} {image : Image} {a : UInt32}

/-- A fresh table: whatever its scratch copy holds, no entry of it is in use. -/
theorem Opened.fresh (patch : IsPatch Z outer) (first : n = p.start) (notData : ∀ k, p ≠ .data k)
    (entered : Extends n 1 A (insert p A) image ⟨outer s'.disk, index, s'.blockBitmap⟩)
    (roles : insert p A = Reach p n)
    (here : (⟨outer s'.disk, index, s'.blockBitmap⟩ : Image).addr p = a)
    (coarse : s'.coarse = s.coarse) (cursor : s'.blockBitIndex < 4096) (disk : s'.disk = s.disk)
    (words : Nat → UInt32) : Opened p outer index n 1 A image s a words s' := by
  rw [roles] at entered
  have member : p ∈ Reach p n := .inr (.inl rfl)
  have childless : ∀ r ∈ Reach p n, r.parent ≠ some p := by
    rintro r (⟨_, before⟩ | above) child
    · have := Role.parent_start child
      omega
    · rcases above with rfl | above
      · exact Role.parent_ne_self r child
      · exact Role.parent_asymm child above
  have same : ∀ x, ¬ InBlock a x → outer (s'.disk.writeWords a.toNat 64 words) x =
      outer s'.disk x := by
    intro x outside
    by_cases zone : Z x
    · exact patch.inside _ _ x zone
    · rw [patch.outside _ _ zone, patch.outside _ _ zone]
      unfold InBlock at outside
      exact Store.writeWords_outside (by omega)
  rw [← here] at same
  have scribbled := entered.own.scribble (n := n) member notData childless same
  rw [here] at scribbled
  exact {
    grown := entered.trans scribbled le_rfl
    here := (scribbled.keep p member).trans here
    loaded := fun other => absurd first other
    paid := (if_pos first).symm
    coarse, cursor, disk }

/-- A table the disk has. -/
theorem Opened.old (own : Own A image) (view : image = ⟨outer s.disk, index, s.blockBitmap⟩)
    (after : n ≠ p.start) (roles : A = Reach p n) (here : image.addr p = a)
    (cursor : s.blockBitIndex < 4096) :
    Opened p outer index n 0 A image s a (fun i => s.disk.word (a.toNat + 4 * i)) s := by
  have same : pending outer a index ⟨fun i => s.disk.word (a.toNat + 4 * i), false⟩ s = image := by
    unfold pending
    rw [Store.writeWords_self, view]
  exact {
    grown := by
      rw [same, ← roles]
      exact Extends.refl own
    here := by rw [same, here]
    loaded := fun _ => rfl
    paid := (if_neg after).symm
    coarse := rfl
    cursor := cursor
    disk := rfl }

/-- **The index block of a slot of the inode is opened.** -/
theorem openTable_ends (own : Own (Active n) (s.image w.inode)) (cursor : s.blockBitIndex < 4096)
    (offset : w.fileOffset = n) {slot : Fin 15} (root : p.parent = none) (place : p.slot = slot)
    (notData : ∀ k, p ≠ .data k) (valid : p.Valid) (after : p.start ≤ n) {first : Int}
    (start : first = p.start) :
    Ends (openTable first slot w) s
      (fun r s' => ∃ e, r.1 = w.withIndex r.1.inode.index ∧
        Opened p id r.1.inode.index n e (Active n) (s.image w.inode) s
          (r.1.inode.index slot) r.2 s')
      (fun f _ => f = .hang ∧ idleCount s.blockBitmap 4096 = 0 ∧ n = p.start) := by
  have number : Fin.ofNat 15 p.slot = slot := by
    rw [place]
    exact Fin.ofNat_val_eq_self slot
  unfold openTable
  refine Ends.ite (fun atStart => ?_) fun later => ?_
  · have atStart : n = p.start := by omega
    refine Ends.bind ((getFreeBlock_ends cursor).mono ?_ fun f _ fails =>
      ⟨fails.1, fails.2, atStart⟩)
    rintro a _ ⟨b, block, idle, rfl⟩
    refine Ends.bind_ok (setSlot_ok slot.isLt a) (Ends.bind (Ends.get (Ends.pure ⟨1, rfl, ?_⟩)))
    have new : p ∉ Active n := fun member => by
      have := member.2
      omega
    have entered := own.enterRoot (n := n) root valid new block idle
    rw [number] at entered
    rw [Fin.ofNat_val_eq_self]
    refine Opened.fresh isPatch_id atStart notData entered ?_ ?_
      (show (s.take b).coarse = s.coarse from rfl)
      (show (s.take b).blockBitIndex < 4096 from block.1) rfl _
    · ext r
      constructor
      · rintro (rfl | member)
        · exact .inr (.inl rfl)
        · exact .inl member
      · rintro (member | rfl | above)
        · exact .inr member
        · exact .inl rfl
        · rw [root] at above
          exact absurd above (by simp)
    · rw [Image.addr_root _ root, number]
  · have later : p.start < n := by omega
    have member : p ∈ Active n := ⟨valid, later⟩
    have address : (s.image w.inode).addr p = w.inode.index slot := by
      rw [Image.addr_root _ root, number]
      rfl
    obtain ⟨b, block, _⟩ := own.block p member
    rw [address] at block
    have fits := block.fits
    refine Ends.bind_ok (devReadBlock_ok (by omega)) (Ends.pure ⟨0, rfl, ?_⟩)
    exact Opened.old own rfl (by omega) (reach_eq valid later).symm address cursor

/-- **A level is done**: its table was opened, filled and stored. -/
theorem Appended.close {words : Nat → UInt32} {t : Table} {w₁ : Writing} {s₁ : FmState}
    {cost : Nat → Nat} (moved : w₁ = w.withIndex index)
    (opened : Opened p id index n e (Active n) (s.image w.inode) s a words s₁)
    (filled : Filled p cost id a index n c e' ⟨words, false⟩ w₁ s₁ t w' s') (valid : p.Valid)
    (after : p.start ≤ n) (positive : 0 < c) (paid : e + e' + blockCost n = blockCost (n + c))
    (scratch : Nat → UInt32) :
    Appended n c (e + e') w s w'
      (FmState.putTable { s' with indexBlock1 := scratch } a.toNat t.words) := by
  have ends := filled.writing
  subst moved ends
  have grown := Grown.prepend opened.grown filled.grown
  rw [reach_eq valid (show p.start < n + c by omega)] at grown
  exact {
    enough := filled.enough
    writing := rfl
    grown := grown
    paid := paid
    coarse := filled.coarse.trans opened.coarse
    cursor := filled.cursor }

/-- The block of an open table. -/
theorem Opened.block {words : Nat → UInt32}
    (opened : Opened p outer index n e A image s a words s') :
    ∃ b, IsBlock a b := by
  obtain ⟨b, block, _⟩ := opened.grown.own.block p (.inr (.inl rfl))
  rw [opened.here] at block
  exact ⟨b, block⟩

/-! ### The single-indirect level -/

theorem writeLevel1_ends (own : Own (Active n) (s.image w.inode)) (cursor : s.blockBitIndex < 4096)
    (offset : w.fileOffset = n) (after : 0 < w.rest.length → 3072 ≤ n) :
    Ends (writeLevel1 w) s
      (fun w' s' => ∃ e, Appended n (min w.rest.length (19456 - n)) e w s w' s')
      (fun f _ => Short n (min w.rest.length (19456 - n)) s f) := by
  unfold writeLevel1
  refine Ends.ite (fun run => ?_) fun done => ?_
  · have more := run.2
    have after := after more
    have within : n < 19456 := by
      have := run.1
      unfold levelEnd1 at this
      omega
    generalize chunk : min w.rest.length (19456 - n) = c
    have one : Role.one.start = 3072 := rfl
    refine Ends.bind ((openTable_ends (p := .one) own cursor offset rfl rfl
      (by simp) trivial after rfl).mono
      ?_ ?_)
    · rintro ⟨w₁, words⟩ s₁ ⟨e₁, moved, opened⟩
      dsimp only at moved opened ⊢
      have index : (w₁.fileOffset - levelEnd0).tdiv (blockSize : Nat) =
          ((n / 256 - 12 : Nat) : Int) := by
        rw [moved]
        show (w.fileOffset - 3072).tdiv (256 : Nat) = _
        rw [offset, show (n : Int) - 3072 = ((n - 3072 : Nat) : Int) by omega, ← Int.ofNat_tdiv]
        congr 1
        omega
      rw [index, Int.toNat_natCast]
      have rest : w₁.rest = w.rest := by
        rw [moved]
        rfl
      have amount : min w₁.rest.length (256 * (12 + 64) - n) = c := by
        rw [rest]
        exact chunk
      have loop := writeLoop_ends (n := n) (w := w₁) (i := n / 256 - 12) isTable_one isPatch_id
        (fun _ absurd => absurd.elim) opened.grown.own opened.here opened.cursor
        (by rw [moved]; exact offset) (by omega) (by omega) (show levelEnd1 = _ from rfl) le_rfl
      rw [amount] at loop
      refine Ends.bind (loop.mono ?_ ?_)
      · rintro ⟨t, w'⟩ s' ⟨e₂, filled⟩
        obtain ⟨b, block⟩ := opened.block
        have here := (filled.grown.keep .one (.inr (.inl rfl))).trans opened.here
        refine Ends.bind (Ends.modify (Ends.bind_ok
          (filled.settle here block (by omega) opened.loaded rfl) (Ends.pure ⟨e₁ + e₂, ?_⟩)))
        refine Appended.close moved opened filled trivial after (by omega) ?_ _
        have paid := filled.paid
        have start := opened.paid
        rw [one] at start
        unfold blockCost
        split_ifs at start ⊢ <;> omega
      · rintro f _ ⟨rfl, few⟩
        have paid : idleCount s.blockBitmap 4096 = idleCount s₁.blockBitmap 4096 + e₁ :=
          opened.grown.paid
        have start := opened.paid
        rw [one] at start
        refine ⟨rfl, ?_⟩
        unfold blockCost
        split_ifs at start ⊢ <;> omega
    · rintro f _ ⟨rfl, none, first⟩
      rw [one] at first
      refine ⟨rfl, ?_⟩
      unfold blockCost dataCost
      rw [if_neg (by omega), if_neg (by omega), if_pos (by omega), if_neg (by omega)]
      omega
  · have none : min w.rest.length (19456 - n) = 0 := by
      by_contra more
      refine done ⟨?_, by omega⟩
      unfold levelEnd1
      omega
    rw [none]
    exact Ends.pure ⟨0, Appended.stay own cursor⟩

/-! ### The double-indirect level -/

/-- The blocks below `index[13]`, and all data blocks, that `n` bytes need. -/
def twoCost (n : Nat) : Nat := dataCost n + (n - 19456 + 16383) / 16384

variable {t t' : Table} {i : Nat}

/-- **The index block of an entry of the table is opened.** -/
theorem openEntry_ends (own : Own (Reach .two n) (pending id a index t s)) (here : index 13 = a)
    (cursor : s.blockBitIndex < 4096) (offset : w.fileOffset = n) (small : i < 64)
    (after : (Role.twoSub i).start ≤ n) {first : Int} (start : first = (Role.twoSub i).start)
    (scratch : FmState → Nat → UInt32) :
    Ends (openEntry scratch first i t w) s
      (fun r s' => ∃ e, Opened (.twoSub i) (fun d => d.writeWords a.toNat 64 r.1.words) index n e
          (Reach .two n) (pending id a index t s) s r.2.1 r.2.2 s' ∧
        (r.1 = t ∨ r.1.dirty = true) ∧ (n = (Role.twoSub i).start → r.1.dirty = true))
      (fun f _ => f = .hang ∧ idleCount s.blockBitmap 4096 = 0 ∧ n = (Role.twoSub i).start) := by
  have child : (Role.twoSub i).parent = some .two := rfl
  have above : Above .two index fun _ => False := fun _ absurd => absurd.elim
  unfold openEntry
  refine Ends.ite (fun atStart => ?_) fun later => ?_
  · have atStart : n = (Role.twoSub i).start := by omega
    refine Ends.bind ((getFreeBlock_ends cursor).mono ?_ fun f _ fails =>
      ⟨fails.1, fails.2, atStart⟩)
    rintro a' _ ⟨b, block, idle, rfl⟩
    refine Ends.bind_ok (tableSet_ok small a')
      (Ends.bind (Ends.get (Ends.pure ⟨1, ?_, .inr rfl, fun _ => rfl⟩)))
    have new : Role.twoSub i ∉ Reach .two n := by
      rintro (member | member)
      · have := member.2
        omega
      · rcases member with equal | equal <;> simp [Role.parent] at equal
    obtain ⟨entered, address⟩ :=
      pending_enter (n := n) isPatch_id above (fun _ member => .inr member) own
      here child small new block idle
    refine Opened.fresh (isPatch_table a.toNat (t.put i a').words) atStart
      (by simp) entered ?_ address
      (show (s.take b).coarse = s.coarse from rfl)
      (show (s.take b).blockBitIndex < 4096 from block.1) rfl _
    ext r
    constructor
    · rintro (rfl | member | rfl | above)
      · exact .inr (.inl rfl)
      · exact .inl member
      · exact .inr (.inr child)
      · simp [Role.parent] at above
    · rintro (member | rfl | parent)
      · exact .inr (.inl member)
      · exact .inl rfl
      · exact .inr (.inr (.inl (Option.some.inj (child.symm.trans parent)).symm))
  · have later : (Role.twoSub i).start < n := by omega
    have two : Role.two.start < n := lt_of_le_of_lt (Role.parent_start child) later
    have member : Role.twoSub i ∈ Reach .two n := .inl ⟨small, later⟩
    have address : (pending id a index t s).addr (.twoSub i) = t.words i := by
      rw [Image.addr_child _ child, show (pending id a index t s).addr .two = a from here]
      exact isPatch_id.word (fun _ _ _ => id) small
    obtain ⟨b, block, _⟩ := own.block _ member
    rw [address] at block
    have fits := block.fits
    refine Ends.bind_ok (blockWord_ok small) (Ends.bind_ok (devReadBlock_ok (by omega))
      (Ends.pure ⟨0, ?_, .inl rfl, fun atStart => absurd atStart (by omega)⟩))
    refine Opened.old own rfl (by omega) ?_ address cursor
    rw [reach_eq (p := .two) trivial two, reach_eq (p := .twoSub i) small later]

/-- One turn over a second-level block, with the block's own table opened, filled and stored. -/
theorem Filled.close {a₂ : UInt32} {words : Nat → UInt32} {t₁ t₂ : Table} {s₁ : FmState}
    (small : i < 64) (after : (Role.twoSub i).start ≤ n)
    (before : n + c ≤ (Role.twoSub i).start + 16384)
    (opened : Opened (.twoSub i) (fun d => d.writeWords a.toNat 64 t₁.words) index n e
      (Reach .two n) (pending id a index t s) s a₂ words s₁)
    (filled : Filled (.twoSub i) dataCost
      (fun d => d.writeWords a.toNat 64 t₁.words) a₂ index n c e' ⟨words, false⟩ w s₁ t₂ w' s')
    (positive : 0 < c) (clean : t₁ = t ∨ t₁.dirty = true)
    (dirty : n = (Role.twoSub i).start → t₁.dirty = true) (scratch : Nat → UInt32) :
    Filled .two twoCost id a index n c (e + e') t w s t₁ w'
      (FmState.putTable { s' with indexBlock2 := scratch } a₂.toNat t₂.words) := by
  have grown := Grown.prepend opened.grown filled.grown
  have sub : (Role.twoSub i).start < n + c := by omega
  have two : Role.two.start < n + c := lt_of_le_of_lt (Role.parent_start (r := .twoSub i) rfl) sub
  have roles : Reach (.twoSub i) (n + c) = Reach .two (n + c) := by
    rw [reach_eq (p := .two) trivial two, reach_eq (p := .twoSub i) small sub]
  rw [roles] at grown
  have member : Role.twoSub i ∈ Reach .two (n + c) := .inl ⟨small, sub⟩
  have here := (filled.grown.keep (.twoSub i) (.inr (.inl rfl))).trans opened.here
  refine {
    enough := filled.enough
    writing := filled.writing
    grown := grown
    paid := ?_
    coarse := filled.coarse.trans opened.coarse
    cursor := filled.cursor
    raw := fun x outside => ?_
    clean := clean
    dirty := fun first _ => dirty ?_ }
  · have paid := filled.paid
    have start := opened.paid
    have value : (Role.twoSub i).start = 19456 + 16384 * i := rfl
    unfold twoCost
    split_ifs at start <;> omega
  · have own : ¬ InBlock a₂ x := by
      rw [← here]
      exact outside _ member (by rintro (equal | equal) <;> simp [Role.parent] at equal)
    unfold InBlock at own
    show s'.disk.writeWords a₂.toNat 64 t₂.words x = _
    rw [Store.writeWords_outside (by omega), ← opened.disk]
    refine filled.raw x fun r inside other => ?_
    rw [roles] at inside
    refine outside r inside fun above => other ?_
    rcases above with rfl | above
    · exact .inr rfl
    · simp [Role.parent] at above
  · have value : (Role.twoSub i).start = 19456 + 16384 * i := rfl
    have value₂ : Role.two.start = 19456 := rfl
    omega

theorem writeTwo_ends (own : Own (Reach .two n) (pending id a index t s)) (here : index 13 = a)
    (cursor : s.blockBitIndex < 4096) (offset : w.fileOffset = n) (after : 19456 ≤ n)
    (place : 0 < w.rest.length → n < 1068032 → (n - 19456) / 16384 = i) (bound : n ≤ 1068032)
    {fuel : Nat} (enough : w.rest.length ≤ fuel) :
    Ends (writeTwo fuel i t w) s
      (fun r s' => ∃ e, Filled .two twoCost id a index n (min w.rest.length (1068032 - n)) e
        t w s r.1 r.2 s')
      (fun f _ => f = .hang ∧ idleCount s.blockBitmap 4096 + twoCost n
        < twoCost (n + min w.rest.length (1068032 - n))) := by
  induction fuel generalizing i t w s n with
  | zero =>
      rw [show min w.rest.length (1068032 - n) = 0 by omega]
      exact Ends.pure ⟨0, Filled.stay own bound cursor⟩
  | succ fuel ih =>
      unfold writeTwo
      refine Ends.ite (fun run => ?_) fun done => ?_
      · have more := run.2
        have within : n < 1068032 := by
          have := run.1
          unfold levelEnd2 at this
          omega
        have place := place more within
        have small : i < 64 := by omega
        have value : (Role.twoSub i).start = 19456 + 16384 * i := rfl
        obtain ⟨c, chunk⟩ : ∃ c, min w.rest.length (19456 + 16384 * (i + 1) - n) = c := ⟨_, rfl⟩
        have positive : 0 < c := by omega
        have preEnd : levelEnd1 + (i + 1) * indexOneSize - indexOneSize =
            ((Role.twoSub i).start : Nat) := by
          rw [value]
          unfold levelEnd1 indexOneSize
          push_cast
          ring
        have again : ∀ {e t' w' s'}, Filled .two twoCost id a index n c e t w s t' w' s' →
            Ends (writeTwo fuel (i + 1) t' w') s'
              (fun r s'' => ∃ e, Filled .two twoCost id a index n
                (min w.rest.length (1068032 - n)) e
                t w s r.1 r.2 s'')
              (fun f _ => f = .hang ∧ idleCount s.blockBitmap 4096 + twoCost n
                < twoCost (n + min w.rest.length (1068032 - n))) := by
          intro e t' w' s' turn
          have rest : w'.rest.length = w.rest.length - c := by
            rw [turn.writing]
            exact List.length_drop
          have moved : w'.fileOffset = (n + c : Nat) := by
            rw [turn.writing]
            show w.fileOffset + c = _
            rw [offset]
            push_cast
            rfl
          have amount :
              c + min w'.rest.length (1068032 - (n + c)) = min w.rest.length (1068032 - n) := by
            omega
          rw [← amount]
          refine (ih turn.grown.own turn.cursor moved (by omega) (by omega) (by omega)
            (by omega)).mono
            (fun r s'' ⟨e', filled⟩ => ⟨_, turn.trans filled⟩) fun f s'' fails => ⟨fails.1, ?_⟩
          have cost := turn.paid
          have paid : idleCount s.blockBitmap 4096 = idleCount s'.blockBitmap 4096 + e :=
            turn.grown.paid
          have few := fails.2
          rw [← Nat.add_assoc]
          omega
        dsimp only
        rw [preEnd]
        refine Ends.bind ((openEntry_ends own here cursor offset small (by omega) rfl _).mono ?_ ?_)
        · rintro ⟨t₁, a₂, words⟩ s₁ ⟨e₁, opened, clean, dirty⟩
          dsimp only at opened clean dirty ⊢
          have stop : levelEnd1 + (i + 1) * indexOneSize = (256 * (76 + 64 * i + 64) : Nat) := by
            unfold levelEnd1 indexOneSize
            push_cast
            ring
          have slot : (w.fileOffset - ((Role.twoSub i).start : Nat)).tdiv (blockSize : Nat)
              = ((n / 256 - (76 + 64 * i) : Nat) : Int) := by
            rw [offset, ← Int.ofNat_sub (by omega), tdiv_blockSize,
              show (n - (Role.twoSub i).start) / 256 = n / 256 - (76 + 64 * i) by omega]
          rw [slot, Int.toNat_natCast]
          have amount : min w.rest.length (256 * (76 + 64 * i + 64) - n) = c := by
            rw [show 256 * (76 + 64 * i + 64) = 19456 + 16384 * (i + 1) by ring]
            exact chunk
          have above : Above (.twoSub i) index fun x => a.toNat ≤ x ∧ x < a.toNat + 256 :=
            fun x zone => ⟨.two, rfl, rfl, by
              show InBlock (index 13) x
              rw [here]
              exact zone⟩
          have loop := writeLoop_ends (n := n) (w := w) (i := n / 256 - (76 + 64 * i))
            (isTable_twoSub small)
            (isPatch_table a.toNat t₁.words) above opened.grown.own opened.here opened.cursor offset
            (by omega) (by omega) stop le_rfl
          rw [amount] at loop
          refine Ends.bind (loop.mono ?_ ?_)
          · rintro ⟨t₂, w'⟩ s' ⟨e₂, filled⟩
            obtain ⟨b, block⟩ := opened.block
            have stored := (filled.grown.keep (.twoSub i) (.inr (.inl rfl))).trans opened.here
            refine Ends.bind (Ends.modify (Ends.bind_ok
              (filled.settle stored block positive opened.loaded rfl) ?_))
            exact again (Filled.close small (by omega) (by omega) opened filled positive
              clean dirty _)
          · rintro f _ ⟨rfl, few⟩
            have paid : idleCount s.blockBitmap 4096 = idleCount s₁.blockBitmap 4096 + e₁ :=
              opened.grown.paid
            have start := opened.paid
            have more : dataCost (n + c) ≤ dataCost (n + min w.rest.length (1068032 - n)) := by
              unfold dataCost
              omega
            refine ⟨rfl, ?_⟩
            unfold twoCost
            split_ifs at start <;> omega
        · rintro f _ ⟨rfl, none, first⟩
          refine ⟨rfl, ?_⟩
          unfold twoCost dataCost
          omega
      · have none : min w.rest.length (1068032 - n) = 0 := by
          by_contra more
          refine done ⟨?_, by omega⟩
          unfold levelEnd2
          omega
        rw [none]
        exact Ends.pure ⟨0, Filled.stay own bound cursor⟩

theorem writeLevel2_ends (own : Own (Active n) (s.image w.inode)) (cursor : s.blockBitIndex < 4096)
    (offset : w.fileOffset = n) (after : 0 < w.rest.length → 19456 ≤ n) :
    Ends (writeLevel2 w) s
      (fun w' s' => ∃ e, Appended n (min w.rest.length (1068032 - n)) e w s w' s')
      (fun f _ => Short n (min w.rest.length (1068032 - n)) s f) := by
  unfold writeLevel2
  refine Ends.ite (fun run => ?_) fun done => ?_
  · have more := run.2
    have after := after more
    have within : n < 1068032 := by
      have := run.1
      unfold levelEnd2 at this
      omega
    generalize chunk : min w.rest.length (1068032 - n) = c
    have two : Role.two.start = 19456 := rfl
    refine Ends.bind ((openTable_ends (p := .two) own cursor offset rfl rfl
      (by simp) trivial after rfl).mono
      ?_ ?_)
    · rintro ⟨w₁, words⟩ s₁ ⟨e₁, moved, opened⟩
      dsimp only at moved opened ⊢
      have index : (w₁.fileOffset - levelEnd1).tdiv indexOneSize =
          (((n - 19456) / 16384 : Nat) : Int) := by
        rw [moved]
        show (w.fileOffset - 19456).tdiv (16384 : Nat) = _
        rw [offset, show (n : Int) - 19456 = ((n - 19456 : Nat) : Int) by omega, ← Int.ofNat_tdiv]
      rw [index, Int.toNat_natCast]
      have rest : w₁.rest = w.rest := by
        rw [moved]
        rfl
      have loop := writeTwo_ends (n := n) (w := w₁) opened.grown.own rfl opened.cursor
        (by rw [moved]; exact offset) after (fun _ _ => rfl) (by omega) le_rfl
      rw [rest, chunk, ← rest] at loop
      refine Ends.bind (loop.mono ?_ ?_)
      · rintro ⟨t, w'⟩ s' ⟨e₂, filled⟩
        obtain ⟨b, block⟩ := opened.block
        have here := (filled.grown.keep .two (.inr (.inl rfl))).trans opened.here
        refine Ends.bind (Ends.modify (Ends.bind_ok
          (filled.settle here block (by omega) opened.loaded rfl) (Ends.pure ⟨e₁ + e₂, ?_⟩)))
        refine Appended.close moved opened filled trivial after (by omega) ?_ _
        have paid := filled.paid
        have start := opened.paid
        rw [two] at start
        unfold twoCost at paid
        unfold blockCost
        split_ifs at start ⊢ <;> omega
      · rintro f _ ⟨rfl, few⟩
        have paid : idleCount s.blockBitmap 4096 = idleCount s₁.blockBitmap 4096 + e₁ :=
          opened.grown.paid
        have start := opened.paid
        rw [two] at start
        refine ⟨rfl, ?_⟩
        unfold twoCost at few
        unfold blockCost
        split_ifs at start ⊢ <;> omega
    · rintro f _ ⟨rfl, none, first⟩
      rw [two] at first
      refine ⟨rfl, ?_⟩
      unfold blockCost dataCost
      rw [if_pos (by omega), if_neg (by omega), if_pos (by omega), if_pos (by omega)]
      omega
  · have none : min w.rest.length (1068032 - n) = 0 := by
      by_contra more
      refine done ⟨?_, by omega⟩
      unfold levelEnd2
      omega
    rw [none]
    exact Ends.pure ⟨0, Appended.stay own cursor⟩

end Levels

/-! ### The whole of `write_data` -/

/-- `buf` was stored behind the `n` bytes of a file, for `e` blocks. -/
structure Stored (n e : Nat) (buf : List UInt8) (inode : INode) (s : FmState) (inode' : INode)
    (s' : FmState) : Prop where
  record : inode' = { inode with size := inode.size + buf.length, index := inode'.index }
  grown : Grown n e buf (Active n) (Active (n + buf.length)) (s.image inode) (s'.image inode')
  paid : e + blockCost n = blockCost (n + buf.length)
  coarse : s'.coarse = s.coarse
  cursor : s'.blockBitIndex < 4096

/-- **`write_data` at the end of a file appends its bytes**, or hangs for want of free blocks. -/
theorem writeData_ends {n : Nat} {inode : INode} {s : FmState}
    (own : Own (Active n) (s.image inode)) (cursor : s.blockBitIndex < 4096) (buf : List UInt8) :
    Ends (writeData n inode buf) s
      (fun r s' => r.1 = buf.length ∧ ∃ e, Stored n e buf inode s r.2 s')
      (fun f _ => Short n buf.length s f) := by
  unfold writeData
  have all : (buf.length : Nat) ≤ buf.length := le_rfl
  refine Ends.bind ((writeDirect_ends own cursor (w := ⟨n, 0, buf, inode⟩) rfl all).mono ?_
    fun f _ short =>
    short.mono (min_le_left _ _))
  rintro w₀ s₀ ⟨e₀, direct⟩
  have rest₀ : w₀.rest.length = buf.length - min buf.length (3072 - n) := by
    rw [direct.rest, List.length_drop]
  generalize count₀ : min buf.length (3072 - n) = c₀ at direct rest₀
  refine Ends.bind ((writeLevel1_ends direct.grown.own direct.cursor (direct.offset rfl)
    (by omega)).mono ?_
    fun f _ short => (direct.short short).mono (by omega))
  rintro w₁ s₁ ⟨e₁, single⟩
  generalize count₁ : min w₀.rest.length (19456 - (n + c₀)) = c₁ at single
  have sofar := direct.trans single
  have rest₁ : w₁.rest.length = buf.length - (c₀ + c₁) := by rw [sofar.rest, List.length_drop]
  refine Ends.bind ((writeLevel2_ends sofar.grown.own sofar.cursor (sofar.offset rfl)
    (by omega)).mono ?_
    fun f _ short => (sofar.short short).mono (by omega))
  rintro w₂ s₂ ⟨e₂, double⟩
  generalize count₂ : min w₁.rest.length (1068032 - (n + (c₀ + c₁))) = c₂ at double
  have appended := sofar.trans double
  have rest₂ : w₂.rest.length = buf.length - (c₀ + c₁ + c₂) := by
    rw [appended.rest, List.length_drop]
  -- the last level would start behind the end of the disk
  have small := appended.grown.own.size_le
  have count : c₀ + c₁ + c₂ = buf.length := by omega
  rw [count] at appended
  unfold writeLevel3
  rw [if_neg (by omega)]
  have grown := appended.grown
  dsimp only at grown
  rw [List.take_length] at grown
  refine Ends.bind (Ends.pure
    (Ends.pure ⟨?_, e₀ + e₁ + e₂, ?_, grown, appended.paid, appended.coarse, appended.cursor⟩))
  · rw [appended.writing]
    exact Int.zero_add _
  · rw [appended.writing]
    rfl

end NjuOs.FileSystem
