/-
**Removing an entry from a directory.**

`_remove_inode_from_dir` puts the last record in the place of the removed one and shortens the
directory by a record (`swapPop`). The map from names to inode numbers then loses the name and
nothing else exactly if the name stood for one record only and the last record can move
(`lookup_swapPop_iff`), as in a directory with distinct names. The scan before it takes
`readed_len` down to zero over a chunk and only then adds it to `offset`, so it reads the first
seven records again and again: a name behind them is never found (`removeScan_hang`). And the flag
that `release_block` clears is that of the block `index[12]` leads to, which may be outside the
bitmap. `entry_removal_iff` says that nothing else goes wrong.
-/

import NjuOs.FileSystem.Entries

namespace NjuOs.FileSystem

open NjuOs.Lib

/-! ### The last in the place of another -/

/-- The list with its last element in place `i`, shortened by one. -/
def swapPop {α : Type} (xs : List α) (i : Nat) : List α :=
  match xs.getLast? with
  | none => []
  | some last => (xs.set i last).dropLast

section SwapPop

variable {α : Type} {xs : List α} {last : α} {i : Nat}

theorem swapPop_concat : swapPop (xs ++ [last]) i = xs.set i last := by
  unfold swapPop
  rw [List.getLast?_concat]
  show ((xs ++ [last]).set i last).dropLast = _
  rw [List.set_append]
  split
  · exact List.dropLast_concat
  · have same : [last].set (i - xs.length) last = [last] := by cases i - xs.length <;> rfl
    rw [same, List.dropLast_concat, List.set_eq_of_length_le (by omega)]

theorem swapPop_middle {front back : List α} {x : α} :
    swapPop (front ++ x :: (back ++ [last])) front.length = front ++ last :: back := by
  rw [← List.cons_append, ← List.append_assoc, swapPop_concat,
    List.set_append_right _ _ (Nat.le_refl _), Nat.sub_self]
  rfl

end SwapPop

/-! ### The map without a name -/

/-- Where the name stands: behind the last record when it does not. -/
def place (records : List Record) (name : List UInt8) : Nat :=
  records.findIdx fun r => r.name = name

section Maps

variable {records records' : List Record} {r : Record} {name asked : List UInt8}

theorem place_cons :
    place (r :: records) name = if r.name = name then 0 else place records name + 1 := by
  unfold place
  rw [List.findIdx_cons]
  by_cases same : r.name = name
  · simp [same]
  · simp [same]

theorem lookup_eq_none : lookup records name = none ↔ name ∉ records.map Record.name := by
  induction records with
  | nil => simp
  | cons r records ih =>
      rw [lookup_cons, List.map_cons, List.mem_cons, not_or, ← ih]
      by_cases same : r.name = name
      · simp [same]
      · simp [same, Ne.symm same]

/-- The name stands for one record only, and the last record's name leads to the last record's inode
number, or to a record in front of the one with the name. Distinct names are enough. -/
def Movable (records : List Record) (name : List UInt8) : Prop :=
  name ∉ (records.drop (place records name + 1)).map Record.name ∧
  ∀ last ∈ records.getLast?, lookup records last.name = some last.index ∨
    last.name ∈ (records.take (place records name)).map Record.name

theorem place_name (present : place records name < records.length) :
    records[place records name].name = name :=
  of_decide_eq_true
    (List.findIdx_getElem (p := fun r : Record => decide (r.name = name)) (w := present))

/-- The records in front of the name, and behind it. -/
theorem place_split (present : place records name < records.length) :
    ∃ front x back, records = front ++ x :: back ∧ front.length = place records name ∧
      x.name = name ∧ lookup front name = none := by
  refine ⟨records.take (place records name), records[place records name],
    records.drop (place records name + 1), ?_, ?_, place_name present, ?_⟩
  · rw [List.getElem_cons_drop, List.take_append_drop]
  · rw [List.length_take]
    exact Nat.min_eq_left (Nat.le_of_lt present)
  · rw [lookup_eq_none, List.mem_map]
    rintro ⟨r, member, same⟩
    obtain ⟨i, inside, rfl⟩ := List.mem_iff_getElem.mp member
    rw [List.length_take] at inside
    rw [List.getElem_take] at same
    have early := List.not_of_lt_findIdx (p := fun r : Record => decide (r.name = name))
      (show i < place records name by omega)
    exact absurd same (of_decide_eq_false early)

/-- Other names are looked up around the record with the name. -/
theorem lookup_without {front back : List Record} (named : r.name = name) (other : asked ≠ name) :
    lookup (front ++ r :: back) asked = (lookup front asked).or (lookup back asked) := by
  rw [lookup_append, lookup_cons, if_neg (by rw [named]; exact Ne.symm other)]

/-- **The last record in the place of another one**: when every other name is found as before. -/
theorem lookup_moved_iff {front back : List Record} {last : Record} (named : r.name = name)
    (absent : lookup front name = none) :
    (∀ asked, lookup (front ++ last :: back) asked =
      if asked = name then none else lookup (front ++ r :: (back ++ [last])) asked) ↔
    (last.name ≠ name ∧ lookup back name = none) ∧
      (lookup (front ++ r :: (back ++ [last])) last.name = some last.index ∨
        last.name ∈ front.map Record.name) := by
  have before (asked : List UInt8) (other : asked ≠ name) :
      lookup (front ++ r :: (back ++ [last])) asked = (lookup front asked).or
        ((lookup back asked).or (if last.name = asked then some last.index else none)) := by
    rw [lookup_without named other, lookup_append, lookup_cons, lookup_nil]
  have after (asked : List UInt8) : lookup (front ++ last :: back) asked = (lookup front asked).or
      (if last.name = asked then some last.index else lookup back asked) := by
    rw [lookup_append, lookup_cons]
  constructor
  · intro all
    have gone := all name
    rw [if_pos rfl, after, absent, Option.none_or] at gone
    have other : last.name ≠ name := by
      intro same
      rw [if_pos same] at gone
      cases gone
    rw [if_neg other] at gone
    refine ⟨⟨other, gone⟩, ?_⟩
    have same := all last.name
    rw [if_neg other, after, if_pos rfl] at same
    rw [← same]
    cases found : lookup front last.name with
    | none => exact .inl rfl
    | some index =>
        refine .inr ?_
        by_contra missing
        rw [lookup_eq_none.mpr missing] at found
        cases found
  · rintro ⟨⟨other, gone⟩, moved⟩ asked
    rw [after]
    by_cases removed : asked = name
    · rw [if_pos removed, removed, absent, Option.none_or, if_neg other, gone]
    · rw [if_neg removed, before asked removed]
      by_cases same : last.name = asked
      · subst same
        rw [if_pos rfl]
        rcases moved with leads | early
        · rw [before _ removed, if_pos rfl] at leads
          cases found : lookup front last.name with
          | some index => rfl
          | none =>
              rw [found, Option.none_or] at leads
              rw [Option.none_or, Option.none_or, if_pos rfl]
              exact leads.symm
        · cases found : lookup front last.name with
          | some index => rfl
          | none => exact absurd early (lookup_eq_none.mp found)
      · rw [if_neg same, if_neg same, Option.or_none]

/-- **When every other name is found as before** and the removed one is not found. -/
theorem lookup_swapPop_iff (present : place records name < records.length) :
    (∀ asked, lookup (swapPop records (place records name)) asked =
      if asked = name then none else lookup records asked) ↔ Movable records name := by
  obtain ⟨front, x, back, split, length, named, absent⟩ := place_split present
  have drop : records.drop (place records name + 1) = back := by
    rw [← length, split, List.drop_append, List.drop_of_length_le (by omega),
      Nat.add_sub_cancel_left]
    rfl
  have take : records.take (place records name) = front := by
    rw [← length, split, List.take_left]
  unfold Movable
  rw [drop, take, ← length]
  subst split
  clear drop take present length
  obtain rfl | ⟨back, last, rfl⟩ := back.eq_nil_or_concat'
  · -- the last record is the one that is removed
    have popped : swapPop (front ++ [x]) front.length = front := by
      rw [swapPop_concat, List.set_eq_of_length_le (Nat.le_refl _)]
    rw [popped]
    refine iff_of_true (fun asked => ?_) ⟨by simp, fun last here => .inl ?_⟩
    · split
      · rename_i same
        rw [same, absent]
      · rename_i other
        rw [lookup_without named other, lookup_nil, Option.or_none]
    · obtain rfl : x = last := by simpa using here
      rw [lookup_append, named, absent, Option.none_or, lookup_cons, if_pos named]
  · have once : name ∉ (back ++ [last]).map Record.name ↔
        last.name ≠ name ∧ lookup back name = none := by
      rw [lookup_eq_none]
      simp [not_or, and_comm, eq_comm]
    have ends : (front ++ x :: (back ++ [last])).getLast? = some last := by
      rw [← List.cons_append, ← List.append_assoc, List.getLast?_concat]
    rw [swapPop_middle, lookup_moved_iff named absent, once, ends]
    exact and_congr_right' ⟨fun moved _ here => Option.some.inj here ▸ moved,
      fun moved => moved last rfl⟩

theorem movable_of_nodup (distinct : (records.map Record.name).Nodup)
    (present : place records name < records.length) : Movable records name := by
  obtain ⟨front, x, back, split, length, named, absent⟩ := place_split present
  have drop : records.drop (place records name + 1) = back := by
    rw [← length, split, List.drop_append, List.drop_of_length_le (by omega),
      Nat.add_sub_cancel_left]
    rfl
  refine ⟨?_, fun last here => .inl ?_⟩
  · rw [drop]
    rw [split, List.map_append, List.map_cons, named] at distinct
    exact (List.nodup_cons.mp (List.nodup_append.mp distinct).2.1).1
  · obtain ⟨before, rfl⟩ := List.getLast?_eq_some_iff.mp here
    rw [lookup_append, lookup_cons, if_pos rfl]
    have missing : lookup before last.name = none := by
      rw [lookup_eq_none]
      rw [List.map_append] at distinct
      exact fun member => (List.nodup_append.mp distinct).2.2 _ member _ (by simp) rfl
    rw [missing, Option.none_or]

end Maps

/-! ### The scan -/

section Scan

variable {s : FmState} {inode : INode} {records : List Record} {name : List UInt8}
  {fuel p position buf : Nat}

/-- The records of a chunk: the place of the name, or nothing left to read. -/
theorem removeChunk_ok (fuel position : Nat) (holds : Holds s.blockBufArray p (content records))
    (inside : p + 36 * records.length ≤ 5120) (clean : 0 ∉ name) (enough : records.length ≤ fuel) :
    removeChunk name fuel p ((36 * records.length : Nat) : Int) position s
      = .ok (position + place records name, if place records name < records.length then none
        else some 0) s := by
  induction records generalizing p fuel position with
  | nil =>
      cases fuel with
      | zero => rfl
      | succ fuel =>
          unfold removeChunk
          rw [if_neg (by simp)]
          rfl
  | cons r records ih =>
      rw [List.length_cons] at inside enough
      obtain ⟨fuel, rfl⟩ : ∃ m, fuel = m + 1 := ⟨fuel - 1, by omega⟩
      have length := r.length
      rw [content_cons] at holds
      obtain ⟨here, later⟩ := holds.append
      unfold removeChunk
      rw [if_pos (by rw [List.length_cons]; push_cast; omega), run_bind run_get,
        run_bind (sameName_ok here (by omega) r.ends clean), place_cons]
      by_cases same : r.name = name
      · have found : decide (r.bytes.takeWhile (· ≠ 0) = name) = true := decide_eq_true same
        rw [if_pos found, if_pos same, if_pos (by simp)]
        rfl
      · have other : ¬ decide (r.bytes.takeWhile (· ≠ 0) = name) = true :=
          fun found => same (of_decide_eq_true found)
        rw [if_neg other, if_neg same]
        rw [length] at later
        have rest := ih fuel (position + 1) later (by omega) (by omega)
        have left : ((36 * (r :: records).length : Nat) : Int) - (dirEntrySize : Nat) =
            ((36 * records.length : Nat) : Int) := by
          rw [List.length_cons]
          unfold dirEntrySize
          push_cast
          ring
        rw [left]
        refine Eq.trans rest ?_
        simp only [List.length_cons, Nat.add_lt_add_iff_right, Nat.add_assoc, Nat.add_comm 1]

theorem place_take {k : Nat} : place (records.take k) name = min k (place records name) := by
  induction records generalizing k with
  | nil => simp [place]
  | cons r records ih =>
      cases k with
      | zero => simp [place]
      | succ k =>
          rw [List.take_succ_cons, place_cons, place_cons, ih]
          split
          · simp
          · omega

/-- One turn of the scan: it always reads the first seven records. -/
theorem removeTurn_ok (fuel position : Nat) (stored : OnBlocks s.disk inode (content records))
    (inside : buf < 20) (clean : 0 ∉ name) (some : records ≠ []) :
    ∃ s', Scanned buf s s' ∧ removeScan name buf inode (fuel + 1) 0 position s =
      if place records name < min 7 records.length then
      .ok (Option.some (position + place records name)) s'
      else removeScan name buf inode fuel 0 (position + place (records.take 7) name) s' := by
  have positive := List.length_pos_iff.mpr some
  obtain ⟨s₁, read, holds, scanned⟩ := readChunk_ok buf stored (k := 0) (by omega)
  rw [Nat.mul_zero, Nat.cast_zero, List.drop_zero] at read
  rw [List.drop_zero] at holds
  have length : (records.take 7).length = min 7 records.length := List.length_take
  refine ⟨s₁, scanned, ?_⟩
  conv_lhs => unfold removeScan
  rw [run_bind read, if_pos (by omega), Nat.mul_comm buf blockSize]
  have chunk := removeChunk_ok (s := s₁) (p := blockSize * buf) 7 position holds
    (by unfold blockSize; omega) clean (by omega)
  rw [run_bind chunk, length, place_take]
  by_cases found : place records name < min 7 records.length
  · rw [if_pos (by omega), if_pos found, Nat.min_eq_right (by omega)]
    rfl
  · rw [if_neg (by omega), if_neg found]
    rfl

/-- **A name behind the first seven records is never reached.** -/
theorem removeScan_hang (stored : OnBlocks s.disk inode (content records)) (inside : buf < 20)
    (clean : 0 ∉ name) (behind : min 7 records.length ≤ place records name) (some : records ≠ [])
    {found : Option Nat} {s' : FmState} :
    removeScan name buf inode fuel 0 position s ≠ .ok found s' := by
  induction fuel generalizing position s with
  | zero => exact throw_eq_ok.mp
  | succ fuel ih =>
      obtain ⟨s₁, scanned, turn⟩ := removeTurn_ok fuel position stored inside clean some
      rw [turn, if_neg (by omega)]
      exact ih ((disk_of_core scanned.core).symm ▸ stored)

end Scan

/-! ### The last record in the place of another -/

section Move

variable {s s' : FmState} {inode : INode} {records before : List Record} {r last : Record}
  {data data' bytes : List UInt8} {i p fuel : Nat}

theorem content_set {q : Nat} (inside : q < 36 * records.length) :
    (content (records.set i r)).getD q 0 =
      if 36 * i ≤ q ∧ q < 36 * i + 36 then r.bytes.getD (q - 36 * i) 0
      else (content records).getD q 0 := by
  induction records generalizing i q with
  | nil => exact absurd inside (Nat.not_lt_zero q)
  | cons r' records ih =>
      have length := r.length
      have length' := r'.length
      rw [List.length_cons] at inside
      cases i with
      | zero =>
          rw [List.set_cons_zero, content_cons, content_cons]
          by_cases early : q < 36
          · rw [if_pos (by omega), List.getD_append _ _ _ _ (by omega)]
            rfl
          · rw [if_neg (by omega), List.getD_append_right _ _ _ _ (by omega),
              List.getD_append_right _ _ _ _ (by omega), length, length']
      | succ i =>
          rw [List.set_cons_succ, content_cons, content_cons]
          by_cases early : q < 36
          · rw [if_neg (by omega), List.getD_append _ _ _ _ (by omega),
              List.getD_append _ _ _ _ (by omega)]
          · rw [List.getD_append_right _ _ _ _ (by omega),
              List.getD_append_right _ _ _ _ (by omega), length', ih (by omega),
              show q - 36 - 36 * i = q - 36 * (i + 1) by omega]
            by_cases here : 36 * (i + 1) ≤ q ∧ q < 36 * (i + 1) + 36
            · rw [if_pos (by omega), if_pos here]
            · rw [if_neg (by omega), if_neg here]

/-- **Bytes replaced in the first block of a file.** -/
theorem Shows.patch (shows : Shows inode data s) (fits : p + bytes.length ≤ 256)
    (length : data'.length = data.length)
    (patched : ∀ q, q < data.length → data'.getD q 0 = if p ≤ q ∧
      q < p + bytes.length then bytes.getD (q - p) 0 else data.getD q 0) :
    Shows inode data' (s.put ((inode.index 0).toNat + p) bytes) := by
  rcases Nat.eq_zero_or_pos data.length with none | positive
  · obtain rfl := List.length_eq_zero_iff.mp (length.trans none)
    exact .empty (by rw [shows.size, none]; rfl) shows.cursor
  have own := shows.own
  have first : Role.data 0 ∈ Active data.length := ⟨show 0 < 266316 by omega, positive⟩
  have base : (s.image inode).addr (.data 0) = inode.index 0 := rfl
  have stored : Extends 0 0 _ _ _ ⟨s.disk.write ((inode.index 0).toNat + p) bytes, inode.index,
    s.blockBitmap⟩ :=
      own.store first fun x outside => by
    refine Store.write_outside ?_
    by_contra inside
    refine outside (x - (inode.index 0).toNat) (Nat.zero_le _) (by omega) ?_
    rw [base]
    omega
  refine ⟨shows.size.trans (by rw [length]), length ▸ stored.own, fun q below => ?_, shows.cursor⟩
  rw [length] at below
  have member : Role.data (q / 256) ∈ Active data.length :=
    active_covers (by have := own.size_le; omega) q below
  have value := shows.bytes q below
  unfold Image.byte at value ⊢
  rw [show ((s.put ((inode.index 0).toNat + p) bytes).image inode).addr (.data
    (q / 256)) = _ from stored.keep _ member]
  show s.disk.write ((inode.index 0).toNat + p) bytes _ = _
  rw [patched q below]
  by_cases early : q < 256
  · have here : (s.image inode).addr (.data (q / 256)) = inode.index 0 := by
      rw [Nat.div_eq_of_lt early]
      exact base
    rw [here, Nat.mod_eq_of_lt early] at value ⊢
    by_cases inside : p ≤ q ∧ q < p + bytes.length
    · rw [if_pos inside,
        show (inode.index 0).toNat + q = (inode.index 0).toNat + p + (q - p) by omega]
      exact Store.write_inside (by omega)
    · rw [if_neg inside, Store.write_outside (by omega)]
      exact value
  · rw [if_neg (by omega), Store.write_outside ?_]
    · exact value
    by_contra inside
    have meets : InBlock ((s.image inode).addr (.data 0))
        (((s.image inode).addr (.data (q / 256))).toNat + q % 256) := by
      rw [base]
      constructor <;> omega
    have same := own.eq_of_inBlock member first ⟨by omega, by omega⟩ meets
    have := Role.data.inj same
    omega

theorem overwrite_ok (fuel : Nat) {b : Nat} (block : IsBlock (inode.index 0) b)
    (fits : p + bytes.length ≤ 256) (some : 0 < bytes.length) :
    overwrite inode (fuel + 1) p bytes s = .ok () (s.put ((inode.index 0).toNat + p) bytes) := by
  have inside := block.fits
  unfold overwrite removeAddr
  rw [if_pos some, if_pos (by unfold levelEnd0; omega), tdiv_blockSize, tmod_blockSize,
    Nat.div_eq_of_lt (by omega), Nat.mod_eq_of_lt (by omega), run_bind (slot_ok (by omega))]
  have cur :
    (if ((blockSize : Nat) : Int) - (p : Int) < (bytes.length : Int) then
      ((blockSize : Nat) : Int) - (p : Int)
      else (bytes.length : Int)) = bytes.length := by
    unfold blockSize
    split
    · omega
    · rfl
  rw [cur, Int.toNat_natCast, List.take_length, List.drop_length]
  have address : (inode.index (Fin.ofNat 15 0) + UInt32.ofInt p).toNat =
    (inode.index 0).toNat + p :=
    toNat_add_offset (show (inode.index 0).toNat + p < 4294967296 by omega)
  rw [run_bind (devWrite_ok (by rw [address]; omega)), address]
  cases fuel <;> rfl

/-- The last record, as `read_data` delivers it. -/
theorem range_getD {f : Nat → UInt8} (length : bytes.length = 36) :
    ((List.range dirEntrySize).map fun i => if i < bytes.length then bytes.getD i 0
      else f i) = bytes := by
  refine List.ext_getElem (by simp [length, dirEntrySize]) fun i _ inside => ?_
  simp [inside]

/-- **The last record goes in the place of another**, and on the disk the directory is a record
shorter; the move ends if `release_block` does. -/
theorem moveLastEntry_ok (lastDir : Nat → UInt8)
    (stored : OnBlocks s.disk inode (content (before ++ [last])))
    (named : 86 ≤ before.length + 1 ∨ blockIndex (inode.index 12) < 4096) (early : i < 7) :
    ∃ s', moveLastEntry lastDir inode i s = .ok () s' ∧
      (∃ s₀, s₀.disk = s'.disk ∧ Shows { inode with size := ((36 * before.length : Nat) : Int) }
        (content (before.set i last)) s₀) ∧
      s'.blockBufFlag = s.blockBufFlag := by
  have total : (content (before ++ [last])).length = 36 * (before.length + 1) := by simp
  have size : inode.size - (dirEntrySize : Nat) = ((36 * before.length : Nat) : Int) := by
    rw [stored.size, total]
    unfold dirEntrySize
    push_cast
    ring
  obtain ⟨s₁, read, scratch⟩ := stored.read (o := 36 * before.length) (c := 36) (by omega)
  have bytes : ((content (before ++ [last])).drop (36 * before.length)).take 36 = last.bytes := by
    rw [content_drop, List.drop_left, content_cons, content_nil, List.append_nil, ← last.length,
      List.take_length]
  rw [bytes] at read
  have disk : s₁.disk = s.disk := disk_of_core (readData_core _ _ _ read)
  have slot : 36 * before.length < 3072 → 36 * before.length < (content (before ++ [last])).length →
      blockIndex (inode.index 12) < 4096 := by
    intro low inside
    rcases named with many | named
    · -- the index block is one of the directory's own
      obtain ⟨used, own, -⟩ := stored.blocks
      obtain ⟨b, block, -⟩ := own.block .one ⟨trivial, show 3072 < _ by omega⟩
      have block : IsBlock (inode.index 12) b := block
      rw [block.blockIndex_eq]
      exact block.1
    · exact named
  have stored₁ : OnBlocks s₁.disk inode (content (before ++ [last])) := disk ▸ stored
  obtain ⟨_, s₂, release, -, kept, coarse⟩ :=
    ((releaseBlock_stored stored₁ (36 * before.length)).mono
    (fun _ _ => id) fun _ _ fails => fails slot).run_ok
  obtain ⟨used, shows⟩ := stored.shows
  generalize flagged : ({ s with blockBitmap := used, blockBitIndex := 0 } : FmState) = t at shows
  have cut : Shows _ _ t := shows.prefix_of_used (o := 36 * before.length) (by omega) rfl rfl
    fun _ _ _ _ marked => marked
  rw [content_take, List.take_left] at cut
  obtain ⟨b, block, -⟩ := shows.own.block (.data 0) ⟨show 0 < 266316 by omega, show 0 < _ by omega⟩
  have block : IsBlock (inode.index 0) b := block
  have length := last.length
  have patched : Shows { inode with size := ((36 * before.length : Nat) : Int) }
      (content (before.set i last)) (t.put ((inode.index 0).toNat + 36 * i) last.bytes) :=
    cut.patch (by omega) (by simp) fun q below => by
      rw [length, content_set (by simpa using below)]
  refine ⟨s₂.put ((inode.index 0).toNat + 36 * i) last.bytes, ?_, ⟨_, ?_, patched⟩, ?_⟩
  · unfold moveLastEntry
    rw [size]
    show (readData _ inode ((36 : Nat) : Int) >>= _) s = _
    rw [run_bind read, run_bind release]
    rw [range_getD length, show ((i : Int) * (dirEntrySize : Nat)) = ((36 * i : Nat) : Int) by
      unfold dirEntrySize; push_cast; ring]
    exact overwrite_ok 35 block (by omega) (by omega)
  · show t.disk.write _ _ = s₂.disk.write _ _
    rw [kept, disk, ← flagged]
  · show s₂.coarse.blockBufFlag = s.blockBufFlag
    rw [coarse]
    show s₁.unscratch.blockBufFlag = s.unscratch.blockBufFlag
    rw [scratch]

/-- An `index[12]` that leads outside the bitmap stops the move of a small directory. -/
theorem moveLastEntry_error {lastDir : Nat → UInt8}
    (stored : OnBlocks s.disk inode (content (before ++ [last])))
    (small : before.length + 1 < 86) (outside : 4096 ≤ blockIndex (inode.index 12)) {u : Unit} :
    moveLastEntry lastDir inode i s ≠ .ok u s' := by
  intro run
  have size : inode.size = ((36 * (before.length + 1) : Nat) : Int) := stored.size.trans (by simp)
  have start : inode.size - (dirEntrySize : Nat) = ((36 * before.length : Nat) : Int) := by
    rw [size]
    unfold dirEntrySize
    push_cast
    ring
  obtain ⟨bytes, s₁, read, run⟩ := bind_eq_ok.mp run
  obtain ⟨_, s₂, release, run⟩ := bind_eq_ok.mp run
  rw [start] at release
  exact releaseBlock_low_error size (by omega) (by omega) outside release

end Move

/-! ### The whole removal -/

/-- Directory `dir` holds the records on the disk, whatever the flags of its blocks say. -/
structure StoredDirectory (dir : Nat) (records : List Record) (s : FmState) : Prop where
  number : dir < 1024
  stored : OnBlocks s.disk (diskInode s.disk dir) (content records)

section Removal

variable {s : FmState} {dir : Nat} {records : List Record} {name : List UInt8} {junk : Junk}

theorem Directory.storedDirectory (directory : Directory dir records s) :
    StoredDirectory dir records s :=
  ⟨directory.number, directory.shows.onBlocks⟩

/-- The end of `remove_inode_from_dir`, once the name is found. -/
def removeAt (junk : Junk) (dir : Nat) (name : List UInt8) (inode : INode) (buf position : Nat) :
    Fm Unit := do
  moveLastEntry (junk.name dir name) inode position
  writeInodeToDisk dir { inode with size := inode.size - dirEntrySize }
  freeBlockBuffer buf

/-- **A name among the first seven records is found.** -/
theorem removeInodeFromDir_found (junk : Junk) (directory : StoredDirectory dir records s)
    (present : place records name < records.length) (clean : 0 ∉ name)
    (free : ∃ b, b < 20 ∧ s.blockBufFlag b = false) (early : place records name < 7) :
    ∃ b s₁, b < 20 ∧ s₁.core = s.core ∧
      removeInodeFromDir junk dir name s =
        removeAt junk dir name (diskInode s.disk dir) b (place records name) s₁ := by
  obtain ⟨b, inside, idle, taken⟩ := getFreeBlockBuffer_ok free
  have some : records ≠ [] := by
    rintro rfl
    exact absurd present (Nat.not_lt_zero _)
  obtain ⟨s₁, scanned, turn⟩ := removeTurn_ok (s := s.setFlag b true) 255 0 directory.stored inside
    clean some
  rw [if_pos (by omega), Nat.zero_add] at turn
  refine ⟨b, s₁, inside, scanned.core, ?_⟩
  unfold removeInodeFromDir
  rw [run_bind (readInodeFromDisk_ok directory.number), run_bind taken]
  show (removeScan name b (diskInode s.disk dir) (255 + 1) 0 0 >>= _) (s.setFlag b true) = _
  rw [run_bind turn]
  rfl

/-- A name behind them is not. -/
theorem removeInodeFromDir_behind (directory : StoredDirectory dir records s)
    (present : place records name < records.length) (clean : 0 ∉ name)
    (free : ∃ b, b < 20 ∧ s.blockBufFlag b = false) (behind : 7 ≤ place records name) {u : Unit}
    {s' : FmState} : removeInodeFromDir junk dir name s ≠ .ok u s' := by
  intro run
  obtain ⟨b, inside, idle, taken⟩ := getFreeBlockBuffer_ok free
  have some : records ≠ [] := by
    rintro rfl
    exact absurd present (Nat.not_lt_zero _)
  unfold removeInodeFromDir at run
  rw [run_bind (readInodeFromDisk_ok directory.number), run_bind taken] at run
  obtain ⟨found, s₁, scan, -⟩ := bind_eq_ok.mp run
  exact removeScan_hang (s := s.setFlag b true) directory.stored inside clean (by omega) some scan

/-- `remove_inode_from_dir` ends and leaves the directory with the last record in the place of the
named one and one record less, where names are found as before but for the removed one. -/
def Removes (junk : Junk) (dir : Nat) (name : List UInt8) (records : List Record) (s : FmState) :
    Prop :=
  ∃ s', removeInodeFromDir junk dir name s = .ok () s' ∧
    StoredDirectory dir (swapPop records (place records name)) s' ∧
    (∀ asked, lookup (swapPop records (place records name)) asked =
      if asked = name then none else lookup records asked) ∧
    ∀ asked, 0 ∉ asked → 36 * records.length ≤ 19456 →
      Answers dir asked s' (if asked = name then none else lookup records asked)

theorem removes_of_named (directory : StoredDirectory dir records s)
    (present : place records name < records.length) (clean : 0 ∉ name)
    (free : ∃ b, b < 20 ∧ s.blockBufFlag b = false) (movable : Movable records name)
    (early : place records name < 7)
    (named : 86 ≤ records.length ∨ blockIndex ((diskInode s.disk dir).index 12) < 4096) :
    Removes junk dir name records s := by
  obtain ⟨b, s₁, inside, core, is⟩ :=
    removeInodeFromDir_found junk directory present clean free early
  have answers := (lookup_swapPop_iff present).mpr movable
  obtain rfl | ⟨before, last, rfl⟩ := records.eq_nil_or_concat'
  · exact absurd present (Nat.not_lt_zero _)
  have total : (before ++ [last]).length = before.length + 1 := by simp
  rw [total] at named
  have stored : OnBlocks s₁.disk (diskInode s.disk dir) (content (before ++ [last])) := by
    rw [disk_of_core core]
    exact directory.stored
  obtain ⟨s₂, moved, ⟨s₀, disk, shorter⟩, flags⟩ :=
    moveLastEntry_ok (junk.name dir name) stored named early
  have size : (diskInode s.disk dir).size - (dirEntrySize : Nat) =
      ((36 * before.length : Nat) : Int) := by
    rw [directory.stored.size, content_length, total]
    unfold dirEntrySize
    push_cast
    ring
  rw [← size] at shorter
  generalize record : { diskInode s.disk dir with
    size := (diskInode s.disk dir).size - (dirEntrySize : Nat) } = inode at shorter
  have same : (s₀.putInode dir inode).disk = ((s₂.putInode dir inode).setFlag b false).disk := by
    show s₀.disk.writeWords _ _ _ = s₂.disk.writeWords _ _ _
    rw [disk]
  have ends : StoredDirectory dir (swapPop (before ++ [last]) (place (before ++ [last]) name))
      ((s₂.putInode dir inode).setFlag b false) := by
    rw [swapPop_concat]
    exact ⟨directory.number, same ▸ (shorter.putInode directory.number).onBlocks⟩
  refine ⟨(s₂.putInode dir inode).setFlag b false, ?_, ends, answers, fun asked clean' small => ?_⟩
  · rw [is]
    unfold removeAt
    rw [run_bind moved, record, run_bind (writeInodeToDisk_ok directory.number)]
    rfl
  · obtain ⟨s₃, look, -⟩ := readDirEntry_stored ends.number ends.stored (by
      rw [swapPop_concat, List.length_set]
      omega) clean' ⟨b, inside, Function.update_self _ _ _⟩
    rw [← answers asked]
    exact ⟨s₃, look⟩

/-- **Removing an entry.** In a directory of any number of records, the removal of a name that is
present does what it is to do exactly if the name stands for one record and the last one can take
its place, it is among the first seven, and the flag `release_block` clears is in the bitmap. -/
theorem entry_removal_iff (directory : StoredDirectory dir records s)
    (present : place records name < records.length)
    (free : ∃ b, b < 20 ∧ s.blockBufFlag b = false) (junk : Junk) :
    Removes junk dir name records s ↔ Movable records name ∧ place records name < 7 ∧
      (86 ≤ records.length ∨ blockIndex ((diskInode s.disk dir).index 12) < 4096) := by
  have clean : 0 ∉ name := by
    rw [← place_name present]
    intro zero
    exact absurd (List.mem_takeWhile_imp zero) (by decide)
  refine ⟨?_, fun ⟨movable, early, named⟩ =>
    removes_of_named directory present clean free movable early named⟩
  rintro ⟨s', run, -, answers, -⟩
  refine ⟨(lookup_swapPop_iff present).mp answers, ?_⟩
  have early : place records name < 7 := by
    by_contra behind
    exact removeInodeFromDir_behind directory present clean free (by omega) run
  refine ⟨early, ?_⟩
  by_contra needed
  obtain ⟨b, s₁, -, core, is⟩ := removeInodeFromDir_found junk directory present clean free early
  obtain rfl | ⟨before, last, rfl⟩ := records.eq_nil_or_concat'
  · exact absurd present (Nat.not_lt_zero _)
  rw [List.length_append, List.length_singleton] at needed
  rw [is] at run
  obtain ⟨_, s₂, moved, -⟩ := bind_eq_ok.mp run
  have stored : OnBlocks s₁.disk (diskInode s.disk dir) (content (before ++ [last])) := by
    rw [disk_of_core core]
    exact directory.stored
  exact moveLastEntry_error stored (by omega) (by omega) moved

end Removal

/-! ### Three names, and eight -/

/-- The second of three names is removed, and the third takes its place. -/
theorem entry_removal_second :
    Removes zeroJunk 0 [98] [letterRecord 97, letterRecord 98, letterRecord 99]
      (listedState [letterRecord 97, letterRecord 98, letterRecord 99]) := by
  refine (entry_removal_iff (listed_directory (by decide)).storedDirectory (by decide)
    (listed_free _) zeroJunk).mpr ⟨movable_of_nodup (by decide) (by decide), by decide, .inr ?_⟩
  have named : IsBlock
    ((diskInode (listedState [letterRecord 97, letterRecord 98, letterRecord 99]).disk 0).index 12)
      12 := by
    rw [listed_index]
    exact isBlock_blockAt (by omega)
  rw [show (((0 : Nat) : Int)) = 0 from rfl, named.blockIndex_eq]
  omega

/-- Eight names: the scan for the last one does not end. -/
theorem eighth_entry_hangs :
    ¬ ∀ (s : FmState) (dir : Nat) (records : List Record) (name : List UInt8) (junk : Junk),
      StoredDirectory dir records s → (records.map Record.name).Nodup →
      place records name < records.length → (∃ b, b < 20 ∧ s.blockBufFlag b = false) →
      Removes junk dir name records s := by
  intro all
  have listed : StoredDirectory 0 ([97, 98, 99, 100, 101, 102, 103, 104].map letterRecord)
    (listedState _) := (listed_directory (by decide)).storedDirectory
  obtain ⟨s', run, -⟩ := all _ 0 _ [104] zeroJunk listed (by decide) (by decide) (listed_free _)
  exact removeInodeFromDir_behind listed (by decide) (by decide) (listed_free _) (by decide) run

end NjuOs.FileSystem
