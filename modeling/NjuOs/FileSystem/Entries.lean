/-
**A directory is a sequence of records.**

`Record` is a 36-byte entry whose name ends inside it; `Directory dir records s` says that the data
of inode `dir` are the records, in blocks of its own. `read_dir_entry` on such a directory is
`lookup`, the first record with the name (`readDirEntry_ok`), though it reads the records in chunks
of seven and compares names where they lie in the pool of buffers. `add_inode_into_dir` puts a
record behind the others (`addInodeIntoDir_ok`).

So a directory is a map from names to inode numbers (`directory_map`). The record of a component
that is too long for the name field has its inode number overwritten: what was stored comes back
exactly if the bytes written over the number are its own (`entry_codec_iff`).
-/

import Mathlib.Data.List.GetD
import Mathlib.Data.List.TakeWhile
import NjuOs.FileSystem.Content
import NjuOs.FileSystem.Frame

namespace NjuOs.FileSystem

open NjuOs.Lib

/-! ### Records -/

/-- A `dir_entry` on the disk: 36 bytes, with a NUL among them. -/
structure Record where
  bytes : List UInt8
  length : bytes.length = 36
  ends : 0 ∈ bytes

namespace Record

/-- The string a record starts with. -/
def name (r : Record) : List UInt8 := r.bytes.takeWhile (· ≠ 0)

/-- The inode number. -/
def index (r : Record) : Int := toInt (Store.word (fun i => r.bytes.getD i 0) 32)

end Record

/-- The data of a directory. -/
def content (records : List Record) : List UInt8 := records.flatMap Record.bytes

/-- The inode number of the first record that has the name. -/
def lookup (records : List Record) (name : List UInt8) : Option Int :=
  (records.find? fun r => r.name = name).map Record.index

section Records

variable {records : List Record} {r : Record} {name : List UInt8}

@[simp] theorem content_nil : content [] = [] := rfl

@[simp] theorem content_cons : content (r :: records) = r.bytes ++ content records := rfl

theorem content_append (more : List Record) :
    content (records ++ more) = content records ++ content more :=
  List.flatMap_append

@[simp] theorem content_length : (content records).length = 36 * records.length := by
  induction records with
  | nil => rfl
  | cons r records ih =>
      rw [content_cons, List.length_append, r.length, ih, List.length_cons]
      ring

theorem content_drop (k : Nat) : (content records).drop (36 * k) = content (records.drop k) := by
  induction k generalizing records with
  | zero => rfl
  | succ k ih =>
      cases records with
      | nil => simp
      | cons r records =>
          rw [content_cons, List.drop_succ_cons, ← ih,
            show 36 * (k + 1) = r.bytes.length + 36 * k by rw [r.length]; ring, List.drop_append]
          simp

theorem content_take (k : Nat) : (content records).take (36 * k) = content (records.take k) := by
  induction k generalizing records with
  | zero => rfl
  | succ k ih =>
      cases records with
      | nil => simp
      | cons r records =>
          rw [content_cons, List.take_succ_cons, content_cons, ← ih,
            show 36 * (k + 1) = r.bytes.length + 36 * k by
            rw [r.length]; ring, List.take_length_add_append]

@[simp] theorem lookup_nil : lookup [] name = none := rfl

theorem lookup_cons :
    lookup (r :: records) name = if r.name = name then some r.index else lookup records name := by
  unfold lookup
  by_cases same : r.name = name
  · simp [same]
  · simp [same]

theorem lookup_append (more : List Record) :
    lookup (records ++ more) name = (lookup records name).or (lookup more name) := by
  induction records with
  | nil => simp
  | cons r records ih =>
      rw [List.cons_append, lookup_cons, lookup_cons, ih]
      split
      · rfl
      · rfl

end Records

/-! ### Records in the pool of buffers -/

/-- The bytes stand in the store from `p` on. -/
def Holds (pool : Store) (p : Nat) (bytes : List UInt8) : Prop :=
  ∀ i, i < bytes.length → pool (p + i) = bytes.getD i 0

section Pool

variable {pool : Store} {p : Nat} {bytes name : List UInt8} {s : FmState} {r : Record}
  {records : List Record}

theorem Holds.tail {c : UInt8} (holds : Holds pool p (c :: bytes)) :
    pool p = c ∧ Holds pool (p + 1) bytes := by
  constructor
  · exact holds 0 (Nat.succ_pos _)
  · intro i inside
    have here := holds (i + 1) (Nat.succ_lt_succ inside)
    rw [show p + (i + 1) = p + 1 + i by omega] at here
    exact here

theorem Holds.append {more : List UInt8} (holds : Holds pool p (bytes ++ more)) :
    Holds pool p bytes ∧ Holds pool (p + bytes.length) more := by
  constructor
  · intro i inside
    rw [holds i (by rw [List.length_append]; omega)]
    simp [List.getD_eq_getElem?_getD, List.getElem?_append_left inside]
  · intro i inside
    have here := holds (bytes.length + i) (by rw [List.length_append]; omega)
    rw [← Nat.add_assoc] at here
    rw [here]
    simp [List.getD_eq_getElem?_getD, List.getElem?_append_right]

/-- **`strcmp` on a string that ends inside the bytes.** -/
theorem sameName_ok (holds : Holds pool p bytes) (inside : p + bytes.length ≤ 5120)
    (ends : 0 ∈ bytes) (clean : 0 ∉ name) :
    sameName pool p name s = .ok (decide (bytes.takeWhile (· ≠ 0) = name)) s := by
  induction bytes generalizing p name with
  | nil => exact absurd ends List.not_mem_nil
  | cons b bytes ih =>
      obtain ⟨first, rest⟩ := holds.tail
      have small : p < 20 * blockSize := by
        rw [List.length_cons] at inside
        unfold blockSize
        omega
      cases name with
      | nil =>
          unfold sameName
          rw [if_pos small, first]
          show EStateM.Result.ok _ s = _
          by_cases zero : b = 0
          · simp [zero]
          · simp [zero]
      | cons c cs =>
          have other : c ≠ 0 := fun zero => clean (by simp [zero])
          unfold sameName
          rw [if_pos small, first]
          by_cases same : b = c
          · subst same
            have later : 0 ∈ bytes := (List.mem_cons.mp ends).resolve_left (Ne.symm other)
            rw [if_pos rfl, ih rest (by rw [List.length_cons] at inside; omega) later
              fun zero => clean (List.mem_cons_of_mem _ zero)]
            simp [other]
          · rw [if_neg same]
            show EStateM.Result.ok _ s = _
            by_cases zero : b = 0
            · simp [zero]
            · simp [zero, same]

theorem entryIndex_eq (holds : Holds pool p r.bytes) : entryIndex pool p = r.index := by
  unfold entryIndex Record.index
  congr 1
  have length := r.length
  have value : ∀ i, i < 4 → pool (p + 32 + i) = r.bytes.getD (32 + i) 0 := by
    intro i small
    rw [Nat.add_assoc]
    exact holds (32 + i) (by omega)
  have first := value 0 (by omega)
  simp only [Nat.add_zero] at first
  simp only [Store.word, first, value 1 (by omega), value 2 (by omega), value 3 (by omega)]

/-- **The scan of a chunk is a lookup in its records.** -/
theorem scanChunk_ok (fuel : Nat) (holds : Holds s.blockBufArray p (content records))
    (inside : p + 36 * records.length ≤ 5120) (clean : 0 ∉ name) (enough : records.length ≤ fuel) :
    scanChunk name fuel p ((36 * records.length : Nat) : Int) s = .ok (lookup records name) s := by
  induction records generalizing p fuel with
  | nil =>
      cases fuel with
      | zero => rfl
      | succ fuel =>
          unfold scanChunk
          rw [if_neg (by simp)]
          rfl
  | cons r records ih =>
      rw [List.length_cons] at inside enough
      obtain ⟨fuel, rfl⟩ : ∃ m, fuel = m + 1 := ⟨fuel - 1, by omega⟩
      have length := r.length
      rw [content_cons] at holds
      obtain ⟨here, later⟩ := holds.append
      unfold scanChunk
      rw [if_pos (by rw [List.length_cons]; push_cast; omega), run_bind run_get,
        run_bind (sameName_ok here (by omega) r.ends clean), lookup_cons]
      by_cases same : r.name = name
      · have found : decide (r.bytes.takeWhile (· ≠ 0) = name) = true := decide_eq_true same
        rw [if_pos found, if_pos same, entryIndex_eq here]
        rfl
      · have other : ¬ decide (r.bytes.takeWhile (· ≠ 0) = name) = true :=
          fun found => same (of_decide_eq_true found)
        rw [if_neg other, if_neg same]
        rw [length] at later
        have rest := ih fuel later (by omega) (by omega)
        rw [← rest]
        congr 1
        rw [List.length_cons]
        unfold dirEntrySize
        push_cast
        ring

end Pool

/-! ### Reading a directory -/

/-- **Inode `dir` is a directory of the records**, in blocks of its own. -/
structure Directory (dir : Nat) (records : List Record) (s : FmState) : Prop where
  number : dir < 1024
  shows : Shows (diskInode s.disk dir) (content records) s

/-- What a scan with buffer `buf` changes: that buffer, and the scratch index blocks. -/
structure Scanned (buf : Nat) (s s' : FmState) : Prop where
  core : s'.core = s.core
  flags : s'.blockBufFlag = s.blockBufFlag
  others : ∀ x, x < 256 * buf ∨ 256 * buf + 256 ≤ x → s'.blockBufArray x = s.blockBufArray x

section Scan

variable {s s' s'' : FmState} {buf : Nat} {inode : INode} {records : List Record}
  {name : List UInt8}

theorem Scanned.trans (first : Scanned buf s s') (second : Scanned buf s' s'') :
    Scanned buf s s'' :=
  ⟨second.core.trans first.core, second.flags.trans first.flags,
    fun x outside => (second.others x outside).trans (first.others x outside)⟩

theorem holds_write {pool : Store} {p : Nat} {bytes : List UInt8} :
    Holds (pool.write p bytes) p bytes := fun _ inside =>
  Store.write_inside inside

/-- **A chunk of a directory is read into a buffer**, unless it is the last one of a directory with
two levels, and the block `index[14]` names lies outside the disk. -/
theorem readChunk_ends (buf : Nat) (stored : OnBlocks s.disk inode (content records)) (k : Nat) :
    Ends (readIntoBuffer buf ((36 * k : Nat) : Int) inode dirChunk) s
      (fun len s' => len = ((36 * ((records.drop k).take 7).length : Nat) : Int) ∧
        Holds s'.blockBufArray (256 * buf) (content ((records.drop k).take 7)) ∧ Scanned buf s s' ∧
        ¬ Stray inode (36 * records.length) (36 * k) 252)
      (fun _ _ => Stray inode (36 * records.length) (36 * k) 252) := by
  obtain ⟨used, own, bytes⟩ := stored.blocks
  have read := readData_image_ends own rfl rfl stored.size (36 * k) dirChunk
  rw [content_length, show dirChunk = 252 from rfl] at read
  unfold readIntoBuffer
  refine Ends.bind (read.mono ?_ fun _ _ fails => fails.2)
  rintro _ s₁ ⟨rfl, same, straight⟩
  have chunk : (⟨s.disk, inode.index, used⟩ : Image).bytes (36 * k)
    (min (252 : Int).toNat (36 * records.length - 36 * k))
      = content ((records.drop k).take 7) := by
    by_cases inside : 36 * k ≤ 36 * records.length
    · rw [Image.bytes_eq bytes (by rw [content_length]; omega), content_drop, ← content_take,
        show (252 : Int).toNat = 252 from rfl]
      rw [Nat.min_def]
      split
      · rfl
      · rw [List.take_of_length_le (by simp; omega), List.take_of_length_le (by simp; omega)]
    · rw [List.drop_of_length_le (by omega),
        show 36 * records.length - 36 * k = 0 by omega, Nat.min_zero]
      rfl
  rw [chunk]
  have pool : s₁.unscratch.blockBufArray = s.unscratch.blockBufArray := by rw [same]
  generalize piece : (records.drop k).take 7 = part
  have length : part.length ≤ 7 := by
    rw [← piece]
    exact List.length_take_le _ _
  refine Ends.bind (Ends.modify (Ends.pure ⟨by rw [content_length], ?_, ?_, straight⟩))
  · rw [Nat.mul_comm]
    exact holds_write
  · constructor
    · show s₁.unscratch.core = s.unscratch.core
      rw [same]
    · show s₁.unscratch.blockBufFlag = s.unscratch.blockBufFlag
      rw [same]
    · intro x outside
      show s₁.blockBufArray.write (buf * blockSize) (content part) x = _
      unfold blockSize
      rw [Store.write_outside (by rw [content_length]; omega)]
      exact congrFun pool x

theorem readChunk_ok (buf : Nat) (stored : OnBlocks s.disk inode (content records)) {k : Nat}
    (small : 36 * records.length ≤ 19456 ∨ k + 7 ≤ records.length) :
    ∃ s', readIntoBuffer buf ((36 * k : Nat) : Int) inode dirChunk s
        = .ok ((36 * ((records.drop k).take 7).length : Nat) : Int) s' ∧
      Holds s'.blockBufArray (256 * buf) (content ((records.drop k).take 7)) ∧
      Scanned buf s s' := by
  have straight : ¬ Stray inode (36 * records.length) (36 * k) 252 := by
    unfold Stray
    omega
  obtain ⟨len, s', run, rfl, holds, scanned, -⟩ :=
    ((readChunk_ends buf stored k).mono (fun _ _ => id) fun _ _ => straight).run_ok
  exact ⟨s', run, holds, scanned⟩

/-- **The scan of a directory is a lookup**, from the record on where it stands. -/
theorem scanDir_ok (stored : OnBlocks s.disk inode (content records))
    (small : 36 * records.length ≤ 19456) (inside : buf < 20) (clean : 0 ∉ name) (fuel : Nat)
    {k : Nat} (enough : 36 * (records.length - k) < fuel) :
    ∃ s', scanDir name buf inode fuel ((36 * k : Nat) : Int) s =
      .ok (lookup (records.drop k) name) s' ∧
      Scanned buf s s' := by
  induction fuel generalizing k s with
  | zero => omega
  | succ fuel ih =>
      obtain ⟨s₁, read, holds, scanned⟩ := readChunk_ok buf stored (k := k) (.inl small)
      unfold scanDir
      rw [run_bind read]
      by_cases done : records.length ≤ k
      · have none : records.drop k = [] := List.drop_of_length_le done
        rw [none, List.take_nil, List.length_nil, if_neg (by simp)]
        exact ⟨s₁, rfl, scanned⟩
      · generalize piece : (records.drop k).take 7 = part at holds ⊢
        have length : part.length = min 7 (records.length - k) := by
          rw [← piece]
          simp
        have split : records.drop k = part ++ records.drop (k + part.length) := by
          rw [length, ← List.drop_drop, ← List.length_drop]
          conv_lhs => rw [← List.take_append_drop 7 (records.drop k), piece]
          rw [← List.drop_eq_drop_min]
        rw [if_pos (by omega), Nat.mul_comm buf blockSize]
        have chunk := scanChunk_ok (s := s₁) (p := blockSize * buf) 7 holds
          (by unfold blockSize; omega) clean (by omega)
        rw [run_bind chunk, split, lookup_append]
        cases found : lookup part name with
        | some index => exact ⟨s₁, rfl, scanned⟩
        | none =>
            rw [Option.none_or]
            obtain ⟨s₂, run, later⟩ := ih (k := k + part.length)
              (by rw [disk_of_core scanned.core]; exact stored) (by omega)
            refine ⟨s₂, ?_, scanned.trans later⟩
            rw [← run]
            show scanDir name buf inode fuel _ s₁ = _
            rw [show ((36 * k : Nat) : Int) + ((36 * part.length : Nat) : Int) =
              ((36 * (k + part.length) : Nat) : Int) by
              push_cast; ring]

/-- A buffer is taken or given back. -/
def FmState.setFlag (s : FmState) (b : Nat) (taken : Bool) : FmState :=
  { s with blockBufFlag := Function.update s.blockBufFlag b taken }

/-- The first free buffer of the pool. -/
theorem getFreeBlockBuffer_ok (free : ∃ b, b < 20 ∧ s.blockBufFlag b = false) :
    ∃ b, b < 20 ∧ s.blockBufFlag b = false ∧
      getFreeBlockBuffer s = .ok (some b) (s.setFlag b true) := by
  unfold getFreeBlockBuffer
  rw [run_bind run_get]
  cases search : (List.range 20).find? fun i => !s.blockBufFlag i with
  | none =>
      obtain ⟨b, small, idle⟩ := free
      have := List.find?_eq_none.mp search b (List.mem_range.mpr small)
      simp [idle] at this
  | some b =>
      have idle := List.find?_some search
      exact ⟨b, List.mem_range.mp (List.mem_of_find?_eq_some search), by simpa using idle, rfl⟩

theorem readInodeFromDisk_ok {dir : Nat} (number : dir < 1024) :
    readInodeFromDisk dir s = .ok (diskInode s.disk dir) s := by
  unfold readInodeFromDisk
  have fits : (inodeAddr dir).toNat + inodeSize < ramdiskSize := by
    rw [inodeAddr_toNat number]
    unfold inodeSize ramdiskSize
    omega
  rw [if_pos fits]
  rfl

theorem Record.name_length (r : Record) : r.name.length < 36 := by
  have le := (List.takeWhile_prefix (l := r.bytes) fun b => b ≠ 0).length_le
  refine lt_of_le_of_ne (r.length ▸ le) fun full => ?_
  have all : r.name = r.bytes := (List.takeWhile_prefix _).eq_of_length (full.trans r.length.symm)
  have zero : 0 ∈ r.name := all ▸ r.ends
  exact absurd (List.mem_takeWhile_imp zero) (by decide)

theorem lookup_length {index : Int} (found : lookup records name = some index) :
    name.length < 36 := by
  unfold lookup at found
  obtain ⟨r, member, -⟩ := Option.map_eq_some_iff.mp found
  have same : r.name = name := by simpa using List.find?_some member
  rw [← same]
  exact r.name_length

end Scan

section Lookup

variable {s : FmState} {dir : Nat} {records : List Record} {name : List UInt8}

/-- **`read_dir_entry` is the lookup of a name**, whatever the flags of the blocks say. It gives its
buffer back and changes nothing but the buffers. -/
theorem readDirEntry_stored (number : dir < 1024)
    (stored : OnBlocks s.disk (diskInode s.disk dir) (content records))
    (small : 36 * records.length ≤ 19456) (clean : 0 ∉ name)
    (free : ∃ b, b < 20 ∧ s.blockBufFlag b = false) :
    ∃ s', readDirEntry dir name s = .ok (lookup records name) s' ∧ s'.core = s.core ∧
      s'.blockBufFlag = s.blockBufFlag := by
  obtain ⟨b, inside, idle, taken⟩ := getFreeBlockBuffer_ok free
  have size := stored.size
  rw [content_length] at size
  obtain ⟨s₁, run, scanned⟩ := scanDir_ok (k := 0) (s := s.setFlag b true) stored small inside clean
    ((diskInode s.disk dir).size.toNat + 1) (by omega)
  rw [Nat.mul_zero, Nat.cast_zero, List.drop_zero] at run
  refine ⟨s₁.setFlag b false, ?_, ?_, ?_⟩
  · unfold readDirEntry
    rw [run_bind (readInodeFromDisk_ok number), run_bind taken]
    dsimp only
    rw [run_bind run, if_neg]
    · rfl
    · rintro ⟨found, long⟩
      obtain ⟨index, found⟩ := Option.isSome_iff_exists.mp found
      have := lookup_length found
      unfold dirEntrySize at long
      omega
  · exact scanned.core
  · show Function.update s₁.blockBufFlag b false = s.blockBufFlag
    rw [scanned.flags]
    show Function.update (Function.update s.blockBufFlag b true) b false = s.blockBufFlag
    rw [Function.update_idem, ← idle, Function.update_eq_self]

theorem readDirEntry_ok (directory : Directory dir records s)
    (small : 36 * records.length ≤ 19456) (clean : 0 ∉ name)
    (free : ∃ b, b < 20 ∧ s.blockBufFlag b = false) :
    ∃ s', readDirEntry dir name s = .ok (lookup records name) s' ∧ s'.core = s.core ∧
      s'.blockBufFlag = s.blockBufFlag :=
  readDirEntry_stored directory.number directory.shows.onBlocks small clean free

end Lookup

/-! ### New records -/

section New

variable {junk : Nat → UInt8} {name : List UInt8} {index : Int}

theorem entryBytes_getD {i : Nat} (inside : i < 36) :
    (entryBytes junk name index).getD i 0 = if i < name.length then name.getD i 0
    else if i = name.length then 0
      else if i < 32 then junk i else Store.wordByte (UInt32.ofInt index) (i - 32) := by
  unfold entryBytes dirEntrySize
  simp [List.getD_eq_getElem?_getD, inside]

theorem entryBytes_length :
    (entryBytes junk name index).length = 36 := by simp [entryBytes, dirEntrySize]

/-- The record starts with the name and its NUL. -/
theorem entryBytes_eq (short : name.length < 36) :
    entryBytes junk name index = name ++ 0 :: (entryBytes junk name index).drop
      (name.length + 1) := by
  refine List.ext_getElem ?_ fun i inside _ => ?_
  · simp only [List.length_append, List.length_cons, List.length_drop, entryBytes_length]
    omega
  · have value : (entryBytes junk name index).getD i 0 = _ :=
      entryBytes_getD (entryBytes_length ▸ inside)
    rw [List.getD_eq_getElem _ _ inside] at value
    rw [value]
    by_cases early : i < name.length
    · rw [if_pos early, List.getElem_append_left early, List.getD_eq_getElem _ _ early]
    · rw [if_neg early, List.getElem_append_right (by omega)]
      by_cases here : i = name.length
      · simp [here]
      · rw [if_neg here]
        obtain ⟨d, rfl⟩ : ∃ d, i = name.length + 1 + d := ⟨i - (name.length + 1), by omega⟩
        rw [if_neg early, if_neg here] at value
        rw [← value]
        simp only [show name.length + 1 + d - name.length = d + 1 by
          omega, List.getElem_cons_succ, List.getElem_drop]

/-- The record `add_inode_into_dir` stores for a name that is not longer than a record. -/
def newRecord (junk : Nat → UInt8) (name : List UInt8) (index : Int) (short : name.length < 36) :
    Record where
  bytes := entryBytes junk name index
  length := entryBytes_length
  ends := by
    rw [entryBytes_eq short]
    exact List.mem_append_right _ List.mem_cons_self

theorem newRecord_name (short : name.length < 36) (clean : 0 ∉ name) :
    (newRecord junk name index short).name = name := by
  show (entryBytes junk name index).takeWhile _ = name
  rw [entryBytes_eq short, List.takeWhile_append_of_pos fun b member => ?_]
  · simp
  · simp only [decide_eq_true_eq]
    rintro rfl
    exact clean member

/-- The bytes that the name and its NUL put over the inode number are those of the number. -/
def Overlaps (name : List UInt8) (index : Int) : Prop :=
  ∀ k, k < 4 → 32 + k ≤ name.length →
    Store.wordByte (UInt32.ofInt index) k = (name ++ [0]).getD (32 + k) 0

/-- **The inode number that is stored**: its own, or what the name has left of it. -/
theorem newRecord_index (short : name.length < 36) (low : -2147483648 ≤ index)
    (high : index < 2147483648) (junk : Nat → UInt8) :
    (newRecord junk name index short).index = index ↔ Overlaps name index := by
  have value : ∀ w : UInt32, toInt w = index ↔ w = UInt32.ofInt index := by
    intro w
    constructor
    · rintro rfl
      exact (ofInt_toInt w).symm
    · rintro rfl
      exact toInt_ofInt low high
  unfold Record.index
  rw [value, Store.word_eq_iff]
  refine forall_congr' fun k => forall_congr' fun small => ?_
  show (entryBytes junk name index).getD (32 + k) 0 = _ ↔ _
  rw [entryBytes_getD (by omega)]
  by_cases early : 32 + k < name.length
  · rw [if_pos early, List.getD_append _ _ _ _ early]
    exact ⟨fun same _ => same.symm, fun same => (same (by omega)).symm⟩
  · rw [if_neg early]
    by_cases here : 32 + k = name.length
    · rw [if_pos here, List.getD_append_right _ _ _ _ (by omega), here, Nat.sub_self]
      exact ⟨fun same _ => same.symm, fun same => (same (by omega)).symm⟩
    · rw [if_neg here, if_neg (by omega), show 32 + k - 32 = k by omega]
      exact ⟨fun _ inside => by omega, fun _ => rfl⟩

theorem overlaps_of_short (short : name.length < 32) : Overlaps name index :=
  fun k _ inside => by omega

end New

/-! ### A directory as a map -/

/-- An inode is stored on the disk. -/
def FmState.putInode (s : FmState) (n : Nat) (inode : INode) : FmState :=
  { s with disk := s.disk.writeWords (inodeAddr n).toNat 19 inode.words }

section Insert

variable {s : FmState} {dir : Nat} {records : List Record} {name : List UInt8} {index : Int}
  {junk : Junk}

theorem writeInodeToDisk_ok {inode : INode} (number : dir < 1024) :
    writeInodeToDisk dir inode s = .ok () (s.putInode dir inode) := by
  unfold writeInodeToDisk
  have fits : (inodeAddr dir).toNat + inodeSize < ramdiskSize := by
    rw [inodeAddr_toNat number]
    unfold inodeSize ramdiskSize
    omega
  rw [if_pos fits]
  rfl

/-- The inode records lie before the blocks. -/
theorem putInode_block {inode : INode} (number : dir < 1024) {x : Nat} (block : 82944 ≤ x) :
    (s.putInode dir inode).disk x = s.disk x := by
  refine Store.writeWords_outside ?_
  rw [inodeAddr_toNat number]
  omega

/-- A record that was written is read back, up to the width of its fields. -/
theorem diskInode_putInode (inode : INode) :
    diskInode (s.putInode dir inode).disk dir = INode.ofWords inode.words :=
  diskInode_writeWords inode

/-- The content of a file goes with its record to the disk. -/
theorem Shows.putInode {inode : INode} {data : List UInt8} (shows : Shows inode data s)
    (number : dir < 1024) :
    Shows (diskInode (s.putInode dir inode).disk dir) data (s.putInode dir inode) := by
  have bound := shows.own.size_le
  rw [diskInode_putInode, ofWords_words]
  refine shows.of_blocks ?_ rfl (fun x block => putInode_block number block) rfl rfl
  show toInt (UInt32.ofInt inode.size) = inode.size
  rw [shows.size]
  exact toInt_ofInt (by omega) (by omega)

/-- There are blocks for `c` bytes behind the first `n` of a file. -/
def Affords (n c : Nat) (s : FmState) : Prop :=
  blockCost (n + c) ≤ idleCount s.blockBitmap 4096 + blockCost n

/-- What `add_inode_into_dir` does: `write_data` at the end of the directory, then the new record of
it. -/
theorem addInodeIntoDir_stored (junk : Junk) (index : Int) (directory : Directory dir records s)
    (short : name.length < 36) (room : Affords (36 * records.length) 36 s) :
    ∃ s₁ inode e, addInodeIntoDir junk dir name index s = .ok () (s₁.putInode dir inode) ∧
      Stored (36 * records.length) e (entryBytes (junk.name dir name) name index)
        (diskInode s.disk dir) s inode s₁ := by
  have shows := directory.shows
  have own := shows.own
  rw [content_length] at own
  have ends : Ends _ _ _ fun _ _ => False :=
    (writeData_ends own shows.cursor (entryBytes (junk.name dir name) name index)).mono
    (fun _ _ here => here)
      fun _ _ fails => by
        have fails := fails.2
        rw [entryBytes_length] at fails
        unfold Affords at room
        omega
  obtain ⟨⟨len, inode⟩, s₁, run, -, e, stored⟩ := ends.run_ok
  refine ⟨s₁, inode, e, ?_, stored⟩
  unfold addInodeIntoDir
  rw [run_bind (readInodeFromDisk_ok directory.number), if_neg (by unfold dirEntrySize; omega)]
  dsimp only
  rw [shows.size, content_length, run_bind run]
  exact writeInodeToDisk_ok directory.number

/-- **`add_inode_into_dir` puts a record behind the others.** -/
theorem addInodeIntoDir_ok (junk : Junk) (index : Int) (directory : Directory dir records s)
    (short : name.length < 36) (room : Affords (36 * records.length) 36 s) :
    ∃ s', addInodeIntoDir junk dir name index s = .ok () s' ∧
      Directory dir (records ++ [newRecord (junk.name dir name) name index short]) s' ∧
      s'.coarse = s.coarse := by
  obtain ⟨s₁, inode, e, run, stored⟩ := addInodeIntoDir_stored junk index directory short room
  rw [← content_length] at stored
  refine ⟨s₁.putInode dir inode, run, ⟨directory.number, ?_⟩, stored.coarse⟩
  rw [content_append]
  show Shows _ (content records ++ (entryBytes (junk.name dir name) name index ++ [])) _
  rw [List.append_nil]
  exact (directory.shows.stored stored).putInode directory.number

/-- A name that is longer than a record does not fit the variable it is copied to. -/
theorem addInodeIntoDir_long (long : 36 ≤ name.length) {u : Unit} {s' : FmState} :
    addInodeIntoDir junk dir name index s ≠ .ok u s' := by
  intro run
  obtain ⟨inode, s₁, -, run⟩ := bind_eq_ok.mp run
  rw [if_pos (by unfold dirEntrySize; omega)] at run
  exact throw_eq_ok.mp run

/-- The answer of `read_dir_entry`: an inode number, or none when the name is not found. -/
def Answers (dir : Nat) (name : List UInt8) (s : FmState) (answer : Option Int) : Prop :=
  ∃ s', readDirEntry dir name s = .ok answer s'

/-- What a directory answers before and after a record is put behind the others. -/
theorem answers_insert (junk : Junk) (index : Int) (directory : Directory dir records s)
    (small : 36 * (records.length + 1) ≤ 19456) (short : name.length < 36)
    (room : Affords (36 * records.length) 36 s) (free : ∃ b, b < 20 ∧ s.blockBufFlag b = false) :
    ∃ s', addInodeIntoDir junk dir name index s = .ok () s' ∧
      ∀ asked, 0 ∉ asked → Answers dir asked s (lookup records asked) ∧
        Answers dir asked s'
          (lookup (records ++ [newRecord (junk.name dir name) name index short]) asked) := by
  obtain ⟨s', run, directory', coarse⟩ := addInodeIntoDir_ok junk index directory short room
  have flags : s'.blockBufFlag = s.blockBufFlag := by
    show s'.coarse.blockBufFlag = s.coarse.blockBufFlag
    rw [coarse]
  refine ⟨s', run, fun asked clean => ⟨?_, ?_⟩⟩
  · obtain ⟨s₁, look, -⟩ := readDirEntry_ok directory (by omega) clean free
    exact ⟨s₁, look⟩
  · obtain ⟨s₁, look, -⟩ :=
      readDirEntry_ok directory' (by rw [List.length_append]; exact small) clean (flags ▸ free)
    exact ⟨s₁, look⟩

/-- **A directory is a map.** After an insertion the new name answers with the inode number it was
given, and every other name answers as before. -/
theorem directory_map (directory : Directory dir records s)
    (small : 36 * (records.length + 1) ≤ 19456) (length : name.length ≤ 31) (clean : 0 ∉ name)
    (absent : lookup records name = none) (low : -2147483648 ≤ index) (high : index < 2147483648)
    (room : Affords (36 * records.length) 36 s) (free : ∃ b, b < 20 ∧ s.blockBufFlag b = false)
    (junk : Junk) :
    ∃ s', addInodeIntoDir junk dir name index s = .ok () s' ∧ Answers dir name s' (some index) ∧
      ∀ other, 0 ∉ other → other ≠ name → ∃ answer, Answers dir other s answer ∧
      Answers dir other s' answer := by
  have short : name.length < 36 := by omega
  obtain ⟨s', run, answers⟩ := answers_insert junk index directory small short room free
  refine ⟨s', run, ?_,
    fun other cleanOther distinct => ⟨lookup records other, (answers other cleanOther).1, ?_⟩⟩
  · have found := (answers name clean).2
    rw [lookup_append, absent, Option.none_or, lookup_cons, if_pos (newRecord_name short clean),
      (newRecord_index short low high _).mpr (overlaps_of_short (by omega))] at found
    exact found
  · have found := (answers other cleanOther).2
    rw [lookup_append, lookup_cons,
      if_neg (by rw [newRecord_name short clean]; exact Ne.symm distinct), lookup_nil,
      Option.or_none] at found
    exact found

/-! ### Names of any length -/

/-- What is stored under a name is found under it. -/
def Decodes (junk : Junk) (dir : Nat) (name : List UInt8) (index : Int) (s : FmState) : Prop :=
  ∃ s', addInodeIntoDir junk dir name index s = .ok () s' ∧ Answers dir name s' (some index)

theorem decodes_iff (directory : Directory dir records s)
    (small : 36 * (records.length + 1) ≤ 19456) (clean : 0 ∉ name)
    (absent : lookup records name = none) (low : -2147483648 ≤ index) (high : index < 2147483648)
    (room : Affords (36 * records.length) 36 s) (free : ∃ b, b < 20 ∧ s.blockBufFlag b = false) :
    Decodes junk dir name index s ↔ name.length < 36 ∧ Overlaps name index := by
  by_cases short : name.length < 36
  · obtain ⟨s', run, answers⟩ := answers_insert junk index directory small short room free
    have found := (answers name clean).2
    rw [lookup_append, absent, Option.none_or, lookup_cons,
      if_pos (newRecord_name short clean)] at found
    rw [and_iff_right short, ← newRecord_index short low high (junk.name dir name)]
    constructor
    · rintro ⟨s₁, stored, s₂, look⟩
      rw [run] at stored
      cases stored
      obtain ⟨s₃, look'⟩ := found
      rw [look'] at look
      exact Option.some.inj (EStateM.Result.ok.inj look).1
    · intro same
      exact ⟨s', run, same ▸ found⟩
  · constructor
    · rintro ⟨s₁, stored, -⟩
      exact absurd stored (addInodeIntoDir_long (by omega))
    · exact fun fits => absurd fits.1 short

/-- A component has neither a NUL nor a `/`, and is shorter than the path. -/
theorem component_clean {path : List UInt8} {c : Component} (found : component path = some c) :
    0 ∉ c.name ∧ 47 ∉ c.name ∧ c.name.length < path.length := by
  induction path generalizing c with
  | nil => cases found
  | cons b path ih =>
      unfold component at found
      split at found
      · cases found
        simp
      · split at found
        · cases found
          simp
        · obtain ⟨rest, below, rfl⟩ := Option.map_eq_some_iff.mp found
          obtain ⟨clean, plain, shorter⟩ := ih below
          refine ⟨?_, ?_, Nat.succ_lt_succ shorter⟩
          · exact fun zero => (List.mem_cons.mp zero).elim (fun here => by simp_all) clean
          · exact fun slash => (List.mem_cons.mp slash).elim (fun here => by simp_all) plain

/-- **The directory-entry codec.** A component of a path comes back with its inode number exactly if
its name fits the field, or fits the record and happens to write the number's own bytes over it. -/
theorem entry_codec_iff (directory : Directory dir records s)
    (small : 36 * (records.length + 1) ≤ 19456) (room : Affords (36 * records.length) 36 s)
    (free : ∃ b, b < 20 ∧ s.blockBufFlag b = false) {path : List UInt8} {c : Component}
    (cut : component path = some c) (absent : lookup records c.name = none)
    (low : -2147483648 ≤ index) (high : index < 2147483648) (junk : Junk) :
    Decodes junk dir c.name index s ↔ c.name.length ≤ 31 ∨ c.name.length ≤ 35 ∧
    Overlaps c.name index := by
  rw [decodes_iff directory small (component_clean cut).1 absent low high room free]
  constructor
  · rintro ⟨short, overlaps⟩
    exact .inr ⟨by omega, overlaps⟩
  · rintro (short | ⟨short, overlaps⟩)
    · exact ⟨by omega, overlaps_of_short (by omega)⟩
    · exact ⟨by omega, overlaps⟩

end Insert

/-! ### A directory of letters -/

/-- The record of a letter, with inode number 0. -/
def letterRecord (c : UInt8) : Record where
  bytes := c :: List.replicate 35 0
  length := rfl
  ends := List.mem_cons_of_mem _ (by simp)

/-- Inode 0 as a directory of the records, in the blocks 0 and 1. -/
def listedInode (records : List Record) : INode :=
  { smallInode with size := 36 * records.length, type := dirType }

/-- A disk whose root directory has these records. -/
def listedState (records : List Record) : FmState :=
  (smallState.put 82944 (content records)).putInode 0 (listedInode records)

theorem listed_shows {records : List Record} (small : records.length ≤ 8) :
    Shows (listedInode records) (content records) (smallState.put 82944 (content records)) := by
  have role : ∀ r ∈ Active (content records).length, r = .data 0 ∨ r = .data 1 := fun r member =>
    small_active (active_mono (by rw [content_length]; omega) member)
  refine ⟨by rw [content_length]; rfl, ?_, fun q below => ?_, show 0 < 4096 by omega⟩
  · refine ⟨active_closed _, fun _ member => member.1, fun r member => ?_,
      fun r here r' there same => ?_⟩
    · rcases role r member with rfl | rfl
      · exact ⟨0, isBlock_blockAt (by omega), rfl⟩
      · exact ⟨1, isBlock_blockAt (by omega), rfl⟩
    · rcases role r here with rfl | rfl <;> rcases role r' there with rfl | rfl
      · rfl
      · exact absurd (show blockAt 0 = blockAt 1 from same) (by decide)
      · exact absurd (show blockAt 1 = blockAt 0 from same) (by decide)
      · rfl
  · have direct : q / 256 < 12 := by rw [content_length] at below; omega
    unfold Image.byte
    rw [Image.addr_direct _ direct]
    have place : (blockAt (q / 256)).toNat + q % 256 = 82944 + q := by
      rw [(isBlock_blockAt (b := q / 256) (by omega)).2]
      omega
    have slot : ((smallState.put 82944 (content records)).image (listedInode records)).index
      (Fin.ofNat 15 (q / 256)) =
        blockAt (q / 256) := by
      show blockAt ((Fin.ofNat 15 (q / 256) : Fin 15) : Nat) = _
      rw [Fin.val_ofNat, Nat.mod_eq_of_lt (by omega)]
    rw [slot, place]
    exact Store.write_inside below

theorem listed_directory {records : List Record} (small : records.length ≤ 8) :
    Directory 0 records (listedState records) :=
  ⟨by omega, (listed_shows small).putInode (by omega)⟩

theorem listed_free (records : List Record) :
    ∃ b, b < 20 ∧ (listedState records).blockBufFlag b = false :=
  ⟨0, by omega, rfl⟩

theorem listed_index (records : List Record) :
    (diskInode (listedState records).disk 0).index = smallInode.index := by
  unfold listedState
  rw [show (0 : Int) = ((0 : Nat) : Int) from rfl, diskInode_putInode, ofWords_words]
  rfl

/-- Seven names fill the first block but for four bytes. -/
def sevenState : FmState := listedState ([97, 98, 99, 100, 101, 102, 103].map letterRecord)

theorem seven_room : Affords (36 * ([97, 98, 99, 100, 101, 102, 103].map letterRecord).length) 36
    sevenState := by
  unfold Affords
  have idle : 0 < idleCount sevenState.blockBitmap 4096 := idleCount_pos (i := 2) (by omega) rfl
  have more : blockCost (36 * ([97, 98, 99, 100, 101, 102, 103].map letterRecord).length + 36) =
      2 := by
    decide
  have cost : blockCost (36 * ([97, 98, 99, 100, 101, 102, 103].map letterRecord).length) = 1 := by
    decide
  omega

/-- **The eighth name** goes over the end of the block; the seven others answer as before. -/
theorem directory_map_eighth :
    ∃ s', addInodeIntoDir zeroJunk 0 [104] 5 sevenState = .ok () s' ∧ Answers 0 [104] s' (some 5) ∧
      ∀ other, 0 ∉ other → other ≠ [104] →
        ∃ answer, Answers 0 other sevenState answer ∧ Answers 0 other s' answer :=
  directory_map (listed_directory (by decide)) (by decide) (by decide) (by decide) (by decide)
    (by decide) (by decide) seven_room (listed_free _) zeroJunk

/-! ### An empty directory -/

theorem empty_directory : Directory 0 [] zeroState :=
  ⟨by omega, .empty (by decide) (by decide)⟩

theorem empty_room : Affords (36 * ([] : List Record).length) 36 zeroState := by
  unfold Affords
  have idle : 0 < idleCount zeroState.blockBitmap 4096 := idleCount_pos (i := 0) (by omega) rfl
  have cost : blockCost 36 = 1 := by decide
  show blockCost 36 ≤ _
  omega

theorem empty_free : ∃ b, b < 20 ∧ zeroState.blockBufFlag b = false := ⟨0, by omega, rfl⟩

/-- A name of 31 bytes. -/
theorem entry_codec_full : Decodes zeroJunk 0 (List.replicate 31 97) 5 zeroState :=
  have cut : component (List.replicate 31 97 ++ [0]) = some ⟨List.replicate 31 97, true, []⟩ := rfl
  (entry_codec_iff empty_directory (by decide) empty_room empty_free cut rfl (by omega)
    (by omega) zeroJunk).mpr
    (.inl (by decide))

/-- One byte more: the NUL is written over the low byte of the inode number. -/
theorem entry_codec_long :
    ¬ ∀ (s : FmState) (dir : Nat) (records : List Record) (path : List
      UInt8) (c : Component) (index : Int) (junk : Junk),
      Directory dir records s → 36 * (records.length + 1) ≤ 19456 →
      Affords (36 * records.length) 36 s →
      (∃ b, b < 20 ∧ s.blockBufFlag b = false) → path.length ≤ 256 → component path = some c →
      lookup records c.name = none → 0 ≤ index → index < 1024 →
      Decodes junk dir c.name index s := by
  intro all
  have decodes :=
    all zeroState 0 [] (List.replicate 32 97 ++ [0]) ⟨List.replicate 32 97, true, []⟩ 5 zeroJunk
    empty_directory (by decide) empty_room empty_free (by decide) rfl rfl (by omega) (by omega)
  have overlaps := ((decodes_iff empty_directory (by decide) (by decide) rfl (by omega)
    (by omega) empty_room
    empty_free).mp decodes).2
  exact absurd (overlaps 0 (by omega) (by decide)) (by decide)

end NjuOs.FileSystem
