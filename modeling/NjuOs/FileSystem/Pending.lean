/-
**Filling an index block that the disk does not hold yet.**

While `write_data` works on a level, the level's index block is a scratch table; it goes to the disk
when the level is done. The proofs look at the disk *as it will be* when the pending tables are
stored (`pending`, `IsPatch`): on that disk every turn of a loop is one extension of the file's
image and the write-back changes nothing. `Filled` is what a part of such a loop does, and
`writeLoop_ends` the innermost loop: it fills its table to the end or writes what is left, and fails
only when no block is free.
-/

import NjuOs.FileSystem.Rules

namespace NjuOs.FileSystem

open NjuOs.Lib

/-! ### Growth -/

/-- `image'` shows the file of `n` bytes that `image` shows, with `bytes` behind it. -/
structure Grown (n e : Nat) (bytes : List UInt8) (A A' : Set Role) (image image' : Image) : Prop
    extends Extends n e A A' image image' where
  covers : ∀ q, q < n + bytes.length → .data (q / 256) ∈ A'
  bytes_eq : ∀ q, q < bytes.length → image'.byte (n + q) = bytes.getD q 0

namespace Grown

variable {n e e' : Nat} {bytes bytes' : List UInt8} {A A' A'' : Set Role}
  {image image' image'' : Image}

theorem refl (own : Own A image) (covers : ∀ q, q < n → .data (q / 256) ∈ A) :
    Grown n 0 [] A A image image where
  toExtends := Extends.refl own
  covers := by simpa using covers
  bytes_eq := by simp

theorem trans (first : Grown n e bytes A A' image image')
    (second : Grown (n + bytes.length) e' bytes' A' A'' image' image'') :
    Grown n (e + e') (bytes ++ bytes') A A'' image image'' where
  toExtends := first.toExtends.trans second.toExtends (Nat.le_add_right _ _)
  covers q below := second.covers q (by simpa [Nat.add_assoc] using below)
  bytes_eq q below := by
    by_cases early : q < bytes.length
    · rw [second.hold (n + q) (by omega) (first.covers (n + q) (by omega)), first.bytes_eq q early]
      simp [List.getD_eq_getElem?_getD, List.getElem?_append_left early]
    · have late : q - bytes.length < bytes'.length := by
        rw [List.length_append] at below
        omega
      have value := second.bytes_eq (q - bytes.length) late
      rw [show n + bytes.length + (q - bytes.length) = n + q by omega] at value
      rw [value]
      simp [List.getD_eq_getElem?_getD, List.getElem?_append_right (Nat.le_of_not_lt early)]

/-- A first extension that stores no bytes. -/
theorem prepend (first : Extends n e A A' image image')
    (second : Grown n e' bytes A' A'' image' image'') :
    Grown n (e + e') bytes A A'' image image'' where
  toExtends := first.trans second.toExtends le_rfl
  covers := second.covers
  bytes_eq := second.bytes_eq

end Grown

/-- **Bytes stored at the end of the last data block.** -/
theorem Own.append {A : Set Role} {image : Image} {n : Nat} (own : Own A image)
    {bytes : List UInt8} (fits : n % 256 + bytes.length ≤ 256)
    (covers : ∀ q, q < n + bytes.length → .data (q / 256) ∈ A) (member : .data (n / 256) ∈ A)
    {disk : Store}
    (inside : ∀ q, q < bytes.length →
      disk ((image.addr (.data (n / 256))).toNat + n % 256 + q) = bytes.getD q 0)
    (outside : ∀ x, x < (image.addr (.data (n / 256))).toNat + n % 256 ∨
      (image.addr (.data (n / 256))).toNat + n % 256 + bytes.length ≤ x → disk x = image.disk x) :
    Grown n 0 bytes A A image ⟨disk, image.index, image.used⟩ := by
  have stored : Extends n 0 A A image ⟨disk, image.index, image.used⟩ := by
    refine own.store member fun x apart => outside x ?_
    by_contra overlap
    refine apart (n + (x - ((image.addr (.data (n / 256))).toNat + n % 256))) ?_ ?_ ?_ <;> omega
  refine { toExtends := stored, covers, bytes_eq := fun q below => ?_ }
  have block : (n + q) / 256 = n / 256 := by omega
  have place : (n + q) % 256 = n % 256 + q := by omega
  rw [Image.byte, block, place, stored.keep _ member, ← inside q below, Nat.add_assoc]

/-! ### Tables that are not stored yet -/

/-- Only the bytes in `Z` are replaced, by bytes that do not depend on the store. -/
structure IsPatch (Z : Nat → Prop) (outer : Store → Store) : Prop where
  outside : ∀ d x, ¬ Z x → outer d x = d x
  inside : ∀ d d' x, Z x → outer d x = outer d' x

theorem isPatch_id : IsPatch (fun _ => False) id where
  outside _ _ _ := rfl
  inside _ _ _ absurd := absurd.elim

theorem isPatch_table (a : Nat) (t : Nat → UInt32) :
    IsPatch (fun x => a ≤ x ∧ x < a + 256) fun d => d.writeWords a 64 t where
  outside d x out := Store.writeWords_outside (by omega)
  inside d d' x inside := by
    simp only [Store.writeWords, if_pos (show a ≤ x ∧ x < a + 4 * 64 from inside)]

section Patch

variable {Z : Nat → Prop} {outer : Store → Store} {d : Store} {a i : Nat} {t : Nat → UInt32}

/-- The word set in a pending table. -/
theorem IsPatch.word_set (patch : IsPatch Z outer) (apart : ∀ x, a ≤ x → x < a + 256 → ¬ Z x)
    (small : i < 64) (v : UInt32) :
    (outer (d.writeWords a 64 (Function.update t i v))).word (a + 4 * i) = v := by
  have same : (outer (d.writeWords a 64 (Function.update t i v))).word (a + 4 * i)
      = (d.writeWords a 64 (Function.update t i v)).word (a + 4 * i) :=
    Store.word_congr fun k smaller => patch.outside _ _ (apart _ (by omega) (by omega))
  rw [same, Store.word_writeWords small, Function.update_self]

/-- Everything but that word is as before. -/
theorem IsPatch.set_outside (patch : IsPatch Z outer) (v : UInt32) {x : Nat}
    (outside : x < a + 4 * i ∨ a + 4 * i + 4 ≤ x) :
    outer (d.writeWords a 64 (Function.update t i v)) x = outer (d.writeWords a 64 t) x := by
  by_cases zone : Z x
  · exact patch.inside _ _ x zone
  rw [patch.outside _ _ zone, patch.outside _ _ zone]
  by_cases inside : a ≤ x ∧ x < a + 256
  · have other : (x - a) / 4 ≠ i := by omega
    simp only [Store.writeWords, if_pos (show a ≤ x ∧ x < a + 4 * 64 from inside),
      Function.update_of_ne other]
  · rw [Store.writeWords_outside (by omega), Store.writeWords_outside (by omega)]

/-- A word of a pending table. -/
theorem IsPatch.word (patch : IsPatch Z outer) (apart : ∀ x, a ≤ x → x < a + 256 → ¬ Z x)
    (small : i < 64) : (outer (d.writeWords a 64 t)).word (a + 4 * i) = t i := by
  have same : (outer (d.writeWords a 64 t)).word (a + 4 * i)
      = (d.writeWords a 64 t).word (a + 4 * i) :=
    Store.word_congr fun k smaller => patch.outside _ _ (apart _ (by omega) (by omega))
  rw [same, Store.word_writeWords small]

/-- Bytes stored apart from the pending tables are seen through them. -/
theorem IsPatch.write_inside (patch : IsPatch Z outer) {c q : Nat} {bytes : List UInt8}
    (below : q < bytes.length) (out : ¬ (a ≤ c + q ∧ c + q < a + 256)) (zone : ¬ Z (c + q)) :
    outer ((d.write c bytes).writeWords a 64 t) (c + q) = bytes.getD q 0 := by
  rw [patch.outside _ _ zone, Store.writeWords_outside (by omega), Store.write_inside below]

theorem IsPatch.write_outside (patch : IsPatch Z outer) {c x : Nat} {bytes : List UInt8}
    (outside : x < c ∨ c + bytes.length ≤ x) :
    outer ((d.write c bytes).writeWords a 64 t) x = outer (d.writeWords a 64 t) x := by
  by_cases zone : Z x
  · exact patch.inside _ _ x zone
  rw [patch.outside _ _ zone, patch.outside _ _ zone]
  by_cases inside : a ≤ x ∧ x < a + 256
  · simp only [Store.writeWords, if_pos (show a ≤ x ∧ x < a + 4 * 64 from inside)]
  · rw [Store.writeWords_outside (by omega), Store.writeWords_outside (by omega),
      Store.write_outside outside]

end Patch

/-! ### One turn -/

/-- The variables of `write_data` when `c` more bytes are written. -/
def Writing.advance (w : Writing) (c : Nat) : Writing where
  fileOffset := w.fileOffset + c
  writedLen := w.writedLen + c
  rest := w.rest.drop c
  inode := { w.inode with size := w.inode.size + c }

theorem Writing.advance_zero (w : Writing) : w.advance 0 = w := by
  simp [Writing.advance]

theorem Writing.advance_advance (w : Writing) (c c' : Nat) :
    (w.advance c).advance c' = w.advance (c + c') := by
  simp [Writing.advance, Int.add_assoc, List.drop_drop]

theorem Writing.curLen_eq {w : Writing} {n : Nat} (offset : w.fileOffset = n) :
    w.curLen = ((min (256 - n % 256) w.rest.length : Nat) : Int) := by
  unfold Writing.curLen
  simp only [offset, tmod_blockSize]
  unfold blockSize
  split_ifs <;> omega

theorem writeTurn_ok {s : FmState} {w : Writing} {n : Nat} (offset : w.fileOffset = n) {a : UInt32}
    (fits : a.toNat + 256 < 4194304) :
    writeTurn a w s = .ok (w.advance (min (256 - n % 256) w.rest.length))
      (s.put a.toNat (w.rest.take (min (256 - n % 256) w.rest.length))) := by
  unfold writeTurn
  rw [Writing.curLen_eq offset, Int.toNat_natCast]
  rw [run_bind (devWrite_ok (by rw [List.length_take]; omega))]
  rfl

/-! ### Index tables -/

theorem start_dvd : ∀ r : Role, 256 ∣ r.start := by
  intro r
  cases r <;> simp only [Role.start] <;> omega

/-- A node and its parent. -/
def way (p : Role) : Set Role := { r | r = p ∨ p.parent = some r }

theorem way_valid {p r : Role} (valid : p.Valid) (member : r ∈ way p) : r.Valid := by
  rcases member with rfl | above
  · exact valid
  · exact Role.parent_valid valid above

theorem way_start {p r : Role} (member : r ∈ way p) : r.start ≤ p.start := by
  rcases member with rfl | above
  · exact le_rfl
  · exact Role.parent_start above

/-- `p` is an index block whose 64 entries are the data blocks from `k₀` on. -/
structure IsTable (p : Role) (k₀ : Nat) : Prop where
  valid : p.Valid
  start : p.start = 256 * k₀
  parent : ∀ i, i < 64 → (Role.data (k₀ + i)).parent = some p
  slot : ∀ i, i < 64 → (Role.data (k₀ + i)).slot = i
  only : ∀ r : Role, r.Valid → ∀ i, i < 64 → r.start = 256 * (k₀ + i) →
    r = .data (k₀ + i) ∨ r ∈ way p
  bound : k₀ + 64 ≤ 4172

theorem isTable_one : IsTable .one 12 where
  valid := trivial
  start := rfl
  parent i small := by
    simp only [Role.parent]
    rw [if_neg (by omega), if_pos (by omega)]
  slot i small := by
    simp only [Role.slot]
    rw [if_neg (by omega), if_pos (by omega)]
    omega
  only r valid i small same := by
    cases r <;> simp only [Role.start] at same <;> first | omega | skip
    · left
      congr 1
      omega
    · exact .inr (.inl rfl)
  bound := by omega

theorem isTable_twoSub {j : Nat} (small : j < 64) : IsTable (.twoSub j) (76 + 64 * j) where
  valid := small
  start := by
    simp only [Role.start]
    omega
  parent i smaller := by
    simp only [Role.parent]
    rw [if_neg (by omega), if_neg (by omega), if_pos (by omega)]
    congr 2
    omega
  slot i smaller := by
    simp only [Role.slot]
    rw [if_neg (by omega), if_neg (by omega), if_pos (by omega)]
    omega
  only r valid i smaller same := by
    cases r <;> simp only [Role.start] at same <;> first | omega | skip
    · left
      congr 1
      omega
    · exact .inr (.inr rfl)
    · right
      left
      congr 1
      omega
  bound := by omega

/-- The roles in use while the table `p` is being filled at offset `n`. -/
def Reach (p : Role) (n : Nat) : Set Role := Active n ∪ way p

/-- Within a block no role is added. -/
theorem active_inside {n c : Nat} (inside : n % 256 ≠ 0) (fits : n % 256 + c ≤ 256) :
    Active (n + c) = Active n := by
  ext r
  obtain ⟨m, start⟩ := start_dvd r
  constructor
  · rintro ⟨valid, before⟩
    exact ⟨valid, by omega⟩
  · rintro ⟨valid, before⟩
    exact ⟨valid, by omega⟩

section Reach

variable {p : Role} {k₀ n c i : Nat}

theorem reach_inside (inside : n % 256 ≠ 0) (fits : n % 256 + c ≤ 256) :
    Reach p (n + c) = Reach p n := by
  unfold Reach
  rw [active_inside inside fits]

/-- A new block adds its data role and nothing else. -/
theorem IsTable.reach_next (table : IsTable p k₀) (small : i < 64) (place : n = 256 * (k₀ + i))
    (positive : 0 < c) (fits : c ≤ 256) :
    Reach p (n + c) = insert (.data (k₀ + i)) (Reach p n) := by
  have bound := table.bound
  ext r
  obtain ⟨m, start⟩ := start_dvd r
  constructor
  · rintro (⟨valid, before⟩ | above)
    · by_cases early : r.start < n
      · exact Set.mem_insert_of_mem _ (.inl ⟨valid, early⟩)
      · rcases table.only r valid i small (by omega) with rfl | above
        · exact Set.mem_insert _ _
        · exact Set.mem_insert_of_mem _ (.inr above)
    · exact Set.mem_insert_of_mem _ (.inr above)
  · rintro (rfl | ⟨valid, before⟩ | above)
    · refine .inl ⟨show k₀ + i < 266316 by omega, ?_⟩
      show 256 * (k₀ + i) < n + c
      omega
    · exact .inl ⟨valid, by omega⟩
    · exact .inr above

/-- Behind its first position a table is in use like every other role. -/
theorem reach_eq (valid : p.Valid) (after : p.start < n) : Reach p n = Active n := by
  unfold Reach
  refine Set.union_eq_self_of_subset_right fun r member => ?_
  exact ⟨way_valid valid member, lt_of_le_of_lt (way_start member) after⟩

theorem active_covers (bound : n ≤ 1068032) : ∀ q, q < n → .data (q / 256) ∈ Active n := by
  intro q below
  refine ⟨show q / 256 < 266316 by omega, ?_⟩
  show 256 * (q / 256) < n
  omega

theorem reach_covers (bound : n ≤ 1068032) : ∀ q, q < n → .data (q / 256) ∈ Reach p n :=
  fun q below => .inl (active_covers bound q below)

/-- A block that is not full yet has its data role. -/
theorem reach_last (inside : n % 256 ≠ 0) (bound : n ≤ 1068032) : .data (n / 256) ∈ Reach p n := by
  have covered := reach_covers (p := p) bound (n - 1) (by omega)
  rwa [show (n - 1) / 256 = n / 256 by omega] at covered

end Reach

/-! ### The innermost loop -/

section Loop

/-- The image of a file with the table `t` of the index block at `a` still pending. -/
def pending (outer : Store → Store) (a : UInt32) (index : Fin 15 → UInt32) (t : Table)
    (s : FmState) :
    Image :=
  ⟨outer (s.disk.writeWords a.toNat 64 t.words), index, s.blockBitmap⟩

/-- What a part of the loop that fills the table `p` does when it writes `c` bytes at offset `n`;
`cost n` is the number of blocks below `p` that `n` bytes need. -/
structure Filled (p : Role) (cost : Nat → Nat) (outer : Store → Store) (a : UInt32)
    (index : Fin 15 → UInt32) (n c e : Nat) (t : Table) (w : Writing) (s : FmState)
    (t' : Table) (w' : Writing) (s' : FmState) : Prop where
  enough : c ≤ w.rest.length
  writing : w' = w.advance c
  grown : Grown n e (w.rest.take c) (Reach p n) (Reach p (n + c)) (pending outer a index t s)
    (pending outer a index t' s')
  paid : e + cost n = cost (n + c)
  coarse : s'.coarse = s.coarse
  cursor : s'.blockBitIndex < 4096
  raw : ∀ x, (∀ r ∈ Reach p (n + c), r ∉ way p →
    ¬ InBlock ((pending outer a index t' s').addr r) x) →
    s'.disk x = s.disk x
  clean : t' = t ∨ t'.dirty = true
  dirty : n = p.start → 0 < c → t'.dirty = true

/-- The data blocks that `n` bytes need. -/
def dataCost (n : Nat) : Nat := (n + 255) / 256

variable {p : Role} {k₀ : Nat} {cost : Nat → Nat} {outer : Store → Store} {Z : Nat → Prop}
  {a : UInt32} {index : Fin 15 → UInt32} {n c c' e e' i : Nat} {t t' t'' : Table}
  {w w' w'' : Writing} {s s' s'' : FmState}

theorem Filled.trans (first : Filled p cost outer a index n c e t w s t' w' s')
    (second : Filled p cost outer a index (n + c) c' e' t' w' s' t'' w'' s'') :
    Filled p cost outer a index n (c + c') (e + e') t w s t'' w'' s'' := by
  have rest : w'.rest = w.rest.drop c := by rw [first.writing]; rfl
  have length : (w.rest.take c).length = c := by
    rw [List.length_take]
    exact Nat.min_eq_left first.enough
  have enough := second.enough
  rw [rest, List.length_drop] at enough
  have start := first.enough
  refine {
    enough := by omega
    writing := by rw [second.writing, first.writing, Writing.advance_advance]
    grown := ?_
    paid := by
      have one := first.paid
      have two := second.paid
      rw [Nat.add_assoc n c c'] at two
      omega
    coarse := second.coarse.trans first.coarse
    cursor := second.cursor
    raw := fun x outside => ?_
    clean := ?_
    dirty := fun aligned positive => ?_ }
  · have later := second.grown
    rw [rest, ← Nat.add_assoc n c c'] at *
    rw [List.take_add]
    refine first.grown.trans ?_
    rw [length]
    exact later
  · rw [← Nat.add_assoc] at outside
    rw [second.raw x outside]
    refine first.raw x fun r member other inside => ?_
    rw [← second.grown.keep _ member] at inside
    exact outside r (second.grown.sub member) other inside
  · rcases second.clean with same | dirty
    · rw [same]
      exact first.clean
    · exact .inr dirty
  · by_cases none : c = 0
    · subst none
      exact second.dirty aligned (by omega)
    · rcases second.clean with same | dirty
      · rw [same]
        exact first.dirty aligned (Nat.pos_of_ne_zero none)
      · exact dirty

theorem Filled.stay (own : Own (Reach p n) (pending outer a index t s))
    (bound : n ≤ 1068032) (cursor : s.blockBitIndex < 4096) :
    Filled p cost outer a index n 0 0 t w s t w s where
  enough := Nat.zero_le _
  writing := w.advance_zero.symm
  grown := Grown.refl own (reach_covers bound)
  paid := Nat.zero_add _
  coarse := rfl
  cursor := cursor
  raw _ _ := rfl
  clean := .inl rfl
  dirty _ positive := absurd positive (lt_irrefl 0)

/-- The pending tables above `p` lie in the block of its parent. -/
def Above (p : Role) (index : Fin 15 → UInt32) (Z : Nat → Prop) : Prop :=
  ∀ x, Z x → ∃ r, p.parent = some r ∧ r.parent = none ∧ InBlock (index (Fin.ofNat 15 r.slot)) x

/-- A role other than the parent has no byte in the pending tables above. -/
theorem Above.apart (above : Above p index Z) {A : Set Role} {disk : Store} {used : Nat → Bool}
    (own : Own A ⟨disk, index, used⟩) (inside : way p ⊆ A) {r : Role} (member : r ∈ A)
    (other : p.parent ≠ some r) {x : Nat}
    (here : InBlock ((⟨disk, index, used⟩ : Image).addr r) x) :
    ¬ Z x := by
  intro zone
  obtain ⟨q, parent, root, block⟩ := above x zone
  have address := (⟨disk, index, used⟩ : Image).addr_root root
  rw [← show (⟨disk, index, used⟩ : Image).addr q = index (Fin.ofNat 15 q.slot)
    from address] at block
  have same := own.eq_of_inBlock member (inside (.inr parent)) here block
  exact other (by rw [same, parent])

theorem way_ne_data {r : Role} (table : IsTable p k₀) (member : r ∈ way p) (k : Nat) :
    r ≠ .data k := by
  rcases member with rfl | parent
  · exact Role.parent_ne_data (table.parent 0 (by omega)) k
  · exact Role.parent_ne_data parent k

/-- The roles on the way to a table being filled are apart from the pending tables above it. -/
theorem Above.apart_table (above : Above p index Z) {A : Set Role} (inside : way p ⊆ A)
    (own : Own A (pending outer a index t s)) (here : (pending outer a index t s).addr p = a) :
    ∀ x, a.toNat ≤ x → x < a.toNat + 256 → ¬ Z x := by
  intro x low high
  refine above.apart own inside (inside (.inl rfl)) (Role.parent_ne_self p) ?_
  show InBlock ((pending outer a index t s).addr p) x
  rw [here]
  exact ⟨low, high⟩

/-- **A fresh block entered in the pending table.** -/
theorem pending_enter (patch : IsPatch Z outer) (above : Above p index Z) {A : Set Role}
    (inside : way p ⊆ A) (own : Own A (pending outer a index t s))
    (here : (pending outer a index t s).addr p = a) {r : Role} (child : r.parent = some p)
    (valid : r.Valid) (new : r ∉ A) {a' : UInt32} {b : Nat} (block : IsBlock a' b)
    (idle : s.blockBitmap b = false) :
    Extends n 1 A (insert r A) (pending outer a index t s)
        (pending outer a index (t.put r.slot a') (s.take b)) ∧
      (pending outer a index (t.put r.slot a') (s.take b)).addr r = a' := by
  have small := Role.slot_lt valid child
  have apart := above.apart_table inside own here
  have entered : Extends n 1 A (insert r A)
      (pending outer a index t s) (pending outer a index (t.put r.slot a') (s.take b)) := by
    refine own.enter child (inside (.inl rfl)) valid new block idle ?_ ?_
    · rw [here]
      exact patch.word_set apart small a'
    · rw [here]
      exact fun x outside => patch.set_outside a' outside
  refine ⟨entered, ?_⟩
  rw [Image.addr_child _ child, entered.keep p (inside (.inl rfl)), here]
  exact patch.word_set apart small a'

/-- The words of the pending table are the addresses of its data blocks. -/
theorem pending_word (table : IsTable p k₀) (patch : IsPatch Z outer) (above : Above p index Z)
    (own : Own (Reach p n) (pending outer a index t s))
    (here : (pending outer a index t s).addr p = a) (small : i < 64) :
    (pending outer a index t s).addr (.data (k₀ + i)) = t.words i := by
  rw [Image.addr_child _ (table.parent i small), here, table.slot i small]
  exact patch.word (above.apart_table (fun _ member => .inr member) own here) small

/-- **Bytes stored in a data block below the pending table.** -/
theorem pending_append (table : IsTable p k₀) (patch : IsPatch Z outer) (above : Above p index Z)
    {A : Set Role} (inside : way p ⊆ A) (own : Own A (pending outer a index t s))
    (here : (pending outer a index t s).addr p = a) {bytes : List UInt8}
    (fits : n % 256 + bytes.length ≤ 256) (covers : ∀ q, q < n + bytes.length → .data (q / 256) ∈ A)
    (member : .data (n / 256) ∈ A) {a' : UInt32}
    (address : (pending outer a index t s).addr (.data (n / 256)) = a') :
    Grown n 0 bytes A A (pending outer a index t s)
      (pending outer a index t (s.put (a'.toNat + n % 256) bytes)) := by
  have free : ∀ q, q < 256 → ¬ (a.toNat ≤ a'.toNat + q ∧ a'.toNat + q < a.toNat + 256) ∧
      ¬ Z (a'.toNat + q) := by
    intro q below
    have inBlock : InBlock ((pending outer a index t s).addr (.data (n / 256))) (a'.toNat + q) := by
      rw [address]
      exact ⟨by omega, by omega⟩
    refine ⟨fun meets => ?_, ?_⟩
    · have same := own.eq_of_inBlock member (inside (.inl rfl)) inBlock (by rw [here]; exact meets)
      exact way_ne_data table (.inl rfl) _ same.symm
    · refine above.apart own inside member (fun parent => ?_) inBlock
      exact way_ne_data table (.inr parent) _ rfl
  refine own.append fits covers member ?_ ?_
  · intro q below
    rw [address, Nat.add_assoc]
    have apart := free (n % 256 + q) (by omega)
    have value := patch.write_inside (d := s.disk) (a := a.toNat) (t := t.words)
      (c := a'.toNat + n % 256) below
    rw [Nat.add_assoc] at value
    exact value apart.1 apart.2
  · intro x outside
    rw [address] at outside
    exact patch.write_outside outside

/-- **A turn that starts a block.** -/
theorem Filled.newBlock (table : IsTable p k₀) (patch : IsPatch Z outer) (above : Above p index Z)
    (own : Own (Reach p n) (pending outer a index t s))
    (here : (pending outer a index t s).addr p = a) (small : i < 64) (place : n = 256 * (k₀ + i))
    (positive : 0 < w.rest.length) {a' : UInt32} {b : Nat} (block : IsBlock a' b)
    (idle : s.blockBitmap b = false) (chunk : min 256 w.rest.length = c) :
    Filled p dataCost outer a index n c 1 t w s (t.put i a') (w.advance c)
      ((s.take b).put a'.toNat (w.rest.take c)) := by
  have bound := table.bound
  have aligned : n % 256 = 0 := by omega
  have quotient : n / 256 = k₀ + i := by omega
  have length : (w.rest.take c).length = c := by
    rw [List.length_take]
    omega
  have next := table.reach_next small place (c := c) (by omega) (by omega)
  have new : Role.data (k₀ + i) ∉ Reach p n := by
    rintro (⟨_, before⟩ | member)
    · change 256 * (k₀ + i) < n at before
      omega
    · exact way_ne_data table member _ rfl
  obtain ⟨entered, address⟩ :=
    pending_enter (n := n) patch above (fun _ member => .inr member) own here
    (table.parent i small) (show k₀ + i < 266316 by omega) new block idle
  rw [table.slot i small] at entered address
  rw [← next] at entered
  have member : Role.data (k₀ + i) ∈ Reach p (n + c) := by
    rw [next]
    exact Set.mem_insert _ _
  have appended := pending_append (n := n) table patch above
    (fun _ above => .inr above) entered.own ((entered.keep p (.inr (.inl rfl))).trans here)
    (show n % 256 + (w.rest.take c).length ≤ 256 by omega)
    (fun q below => reach_covers (by omega) q (by omega)) (by rw [quotient]; exact member)
    ((congrArg (fun k => Image.addr _ (.data k)) quotient).trans address)
  rw [aligned, Nat.add_zero] at appended
  refine {
    enough := by omega
    writing := rfl
    grown := Grown.prepend entered appended
    paid := by
      unfold dataCost
      omega
    coarse := rfl
    cursor := block.1
    raw := fun x outside => ?_
    clean := .inr rfl
    dirty := fun _ _ => rfl }
  have outside := outside _ member fun above => way_ne_data table above _ rfl
  rw [appended.keep _ member, address] at outside
  refine Store.write_outside ?_
  rw [length]
  by_contra inside
  exact outside ⟨by omega, by omega⟩

/-- **A turn that goes on in a block.** -/
theorem Filled.oldBlock (table : IsTable p k₀) (patch : IsPatch Z outer) (above : Above p index Z)
    (own : Own (Reach p n) (pending outer a index t s))
    (here : (pending outer a index t s).addr p = a) (small : i < 64) (place : n / 256 = k₀ + i)
    (inside : n % 256 ≠ 0) (cursor : s.blockBitIndex < 4096)
    (chunk : min (256 - n % 256) w.rest.length = c) :
    Filled p dataCost outer a index n c 0 t w s t (w.advance c)
      (s.put ((t.words i).toNat + n % 256) (w.rest.take c)) := by
  have bound := table.bound
  have length : (w.rest.take c).length = c := by
    rw [List.length_take]
    omega
  have same := reach_inside (p := p) inside (c := c) (by omega)
  have member : Role.data (n / 256) ∈ Reach p n := reach_last inside (by omega)
  have address := place ▸ pending_word table patch above own here small
  have appended := pending_append (n := n) table patch above
    (fun _ above => .inr above) own here (show n % 256 + (w.rest.take c).length ≤ 256 by omega)
    (fun q below => same ▸ reach_covers (n := n + c) (by omega) q (by omega)) member address
  refine {
    enough := by omega
    writing := rfl
    grown := by
      rw [same]
      exact appended
    paid := by
      unfold dataCost
      omega
    coarse := rfl
    cursor := cursor
    raw := fun x outside => ?_
    clean := .inl rfl
    dirty := fun aligned => absurd (aligned ▸ start_dvd p) (by omega) }
  have outside := outside _ (by rw [same]; exact member) fun above => way_ne_data table above _ rfl
  rw [appended.keep _ member, address] at outside
  refine Store.write_outside ?_
  rw [length]
  by_contra inside
  exact outside ⟨by omega, by omega⟩

/-- **The innermost loop** fills its table to the end or writes what is left, whichever is less. -/
theorem writeLoop_ends (table : IsTable p k₀) (patch : IsPatch Z outer) (above : Above p index Z)
    (own : Own (Reach p n) (pending outer a index t s))
    (here : (pending outer a index t s).addr p = a) (cursor : s.blockBitIndex < 4096)
    (offset : w.fileOffset = n) (place : 0 < w.rest.length → n < 256 * (k₀ + 64) → n / 256 = k₀ + i)
    (bound : n ≤ 256 * (k₀ + 64)) {stop : Int} (stops : stop = (256 * (k₀ + 64) : Nat)) {fuel : Nat}
    (enough : w.rest.length ≤ fuel) :
    Ends (writeLoop stop fuel i t w) s (fun r s' => ∃ e, Filled p dataCost outer a index n
        (min w.rest.length (256 * (k₀ + 64) - n)) e
        t w s r.1 r.2 s')
      (fun e _ => e = .hang ∧ idleCount s.blockBitmap 4096 + dataCost n
        < dataCost (n + min w.rest.length (256 * (k₀ + 64) - n))) := by
  have last := table.bound
  induction fuel generalizing i t w s n with
  | zero =>
      rw [show min w.rest.length (256 * (k₀ + 64) - n) = 0 by omega]
      exact Ends.pure ⟨0, Filled.stay own (by omega) cursor⟩
  | succ fuel ih =>
      unfold writeLoop
      refine Ends.ite (fun run => ?_) fun done => ?_
      · have more := run.2
        have within : n < 256 * (k₀ + 64) := by
          have := run.1
          omega
        have place := place more within
        have small : i < 64 := by omega
        obtain ⟨c, chunk⟩ : ∃ c, min (256 - n % 256) w.rest.length = c := ⟨_, rfl⟩
        have positive : 0 < c := by omega
        -- the rest of the loop behind a turn that wrote `c` bytes
        have again : ∀ {e t' s'}, Filled p dataCost outer a index n c e t w s t' (w.advance c) s' →
            Ends (writeLoop stop fuel (i + 1) t' (w.advance c)) s'
              (fun r s'' => ∃ e, Filled p dataCost outer a index n
                (min w.rest.length (256 * (k₀ + 64) - n)) e t w s r.1 r.2 s'')
              (fun e _ => e = .hang ∧ idleCount s.blockBitmap 4096 + dataCost n
                < dataCost (n + min w.rest.length (256 * (k₀ + 64) - n))) := by
          intro e t' s' turn
          have rest : (w.advance c).rest.length = w.rest.length - c := List.length_drop
          have amount : c + min (w.advance c).rest.length (256 * (k₀ + 64) - (n + c))
              = min w.rest.length (256 * (k₀ + 64) - n) := by omega
          have later := ih (i := i + 1) (n := n + c) (w := w.advance c) turn.grown.own
            ((turn.grown.keep p (.inr (.inl rfl))).trans here) turn.cursor
            (by
              show w.fileOffset + c = _
              rw [offset]
              push_cast
              rfl)
            (by omega) (by omega) (by omega)
          rw [← amount]
          refine later.mono (fun r s'' ⟨e', filled⟩ => ⟨_, turn.trans filled⟩) fun f s'' fails => ?_
          have cost := turn.paid
          have paid : idleCount s.blockBitmap 4096 = idleCount s'.blockBitmap 4096 + e :=
            turn.grown.paid
          refine ⟨fails.1, ?_⟩
          rw [← Nat.add_assoc]
          omega
        refine Ends.ite (fun aligned => ?_) fun inside => ?_
        · rw [offset, tmod_blockSize] at aligned
          refine Ends.bind ((getFreeBlock_ends cursor).mono ?_ ?_)
          · rintro a' _ ⟨b, block, idle, rfl⟩
            refine Ends.bind_ok (tableSet_ok small a') (Ends.bind_ok (writeTurn_ok offset ?_) ?_)
            · have := block.fits
              omega
            · rw [chunk]
              exact again (Filled.newBlock table patch above own here small
                (by omega) more block idle
                (by omega))
          · rintro e _ ⟨rfl, none⟩
            refine ⟨rfl, ?_⟩
            unfold dataCost
            omega
        · rw [offset, tmod_blockSize] at inside
          have inside : n % 256 ≠ 0 := by omega
          have turn := Filled.oldBlock (w := w) table patch above own here small place
            inside cursor chunk
          obtain ⟨b, block, _⟩ := own.block _ (reach_last inside (by omega))
          rw [place, pending_word table patch above own here small] at block
          have fits := block.fits
          have sum : (t.words i + UInt32.ofInt (w.fileOffset.tmod (blockSize : Nat))).toNat
              = (t.words i).toNat + n % 256 := by
            rw [offset, tmod_blockSize]
            exact toNat_add_offset (by omega)
          refine Ends.bind_ok (blockWord_ok small) (Ends.bind_ok (writeTurn_ok offset ?_) ?_)
          · rw [sum]
            omega
          · rw [chunk, sum]
            exact again turn
      · have none : min w.rest.length (256 * (k₀ + 64) - n) = 0 := by
          by_contra more
          exact done ⟨by omega, by omega⟩
        rw [none]
        exact Ends.pure ⟨0, Filled.stay own (by omega) cursor⟩

/-! ### Storing the table -/

/-- **The write-back**: a table that was not changed is on the disk already. -/
theorem Filled.settle {words : Nat → UInt32}
    (filled : Filled p cost outer a index n c e ⟨words, false⟩ w s t' w' s')
    (here : (pending outer a index t' s').addr p = a) {b : Nat} (block : IsBlock a b)
    (positive : 0 < c) (loaded : n ≠ p.start → words = fun i => s.disk.word (a.toNat + 4 * i))
    {r : FmState} (same : r.disk = s'.disk) :
    t'.store a r = .ok () (r.putTable a.toNat t'.words) := by
  have fits := block.fits
  unfold Table.store
  split
  · exact devWriteBlock_ok (by omega)
  · next clean =>
    have unchanged : t' = ⟨words, false⟩ := filled.clean.resolve_right clean
    have loaded := loaded fun first => clean (filled.dirty first positive)
    -- no block that was written is the table's own
    have old : ∀ x, InBlock a x → s'.disk x = s.disk x := fun x inside =>
      filled.raw x fun role member other meets => by
        rw [← here] at inside
        have roles := filled.grown.own.eq_of_inBlock member (.inr (.inl rfl)) meets inside
        exact other (.inl roles)
    have table : ∀ i, i < 64 → words i = r.disk.word (a.toNat + 4 * i) := by
      intro i small
      rw [loaded, same]
      exact (Store.word_congr fun k smaller => old _ ⟨by omega, by omega⟩).symm
    have disk : r.disk.writeWords a.toNat 64 t'.words = r.disk := by
      rw [unchanged]
      conv_rhs => rw [← Store.writeWords_self (m := r.disk) (a := a.toNat) (n := 64)]
      exact Store.writeWords_congr table
    show EStateM.Result.ok () r = EStateM.Result.ok () { r with disk := _ }
    rw [disk]

end Loop

end NjuOs.FileSystem
