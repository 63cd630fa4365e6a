/-
**The block map of an inode: which block plays which role.**

An inode reaches its data through a tree: twelve direct slots, one index block (`one`), a block of
index blocks (`two`, its entries `twoSub j`) and one more level (`three`). A `Role` names one node
of this tree; `addr` is the block address an inode and a disk give it, computed the way the tree is
defined: the slot of the inode, or the word of the parent's block. `Role.start` is the first
file position below the node, so a file of `n` bytes needs exactly the roles with `start < n`
(`Active n`).

`Own A image` says that the blocks of the roles in `A` are blocks of the disk, marked in use, and
pairwise different. `Extends` is how writing changes an image: roles keep their addresses, new roles
get blocks that were free, and nothing outside the file's blocks changes. It composes
(`Extends.trans`), and the two things a writer does are instances of it: a fresh block entered in
its parent (`Own.enter`, `Own.enterRoot`) and bytes stored in a data block (`Own.store`).
-/

import NjuOs.FileSystem.State
import Mathlib.Data.Set.Basic

namespace NjuOs.FileSystem

open NjuOs.Lib

/-! ### Roles -/

/-- What a block of a file is: data block `k`, or an index block of one of the three levels. -/
inductive Role where
  | data (k : Nat)
  | one
  | two
  | twoSub (j : Nat)
  | three
  | threeSub (i : Nat)
  | threeSubSub (i j : Nat)
  deriving DecidableEq

namespace Role

/-- The first file position below a node. -/
def start : Role → Nat
  | data k => 256 * k
  | one => 3072
  | two => 19456
  | twoSub j => 19456 + 16384 * j
  | three => 1068032
  | threeSub i => 1068032 + 1048576 * i
  | threeSubSub i j => 1068032 + 1048576 * i + 16384 * j

/-- The nodes the tree really has. -/
def Valid : Role → Prop
  | data k => k < 266316
  | twoSub j => j < 64
  | threeSub i => i < 64
  | threeSubSub i j => i < 64 ∧ j < 64
  | _ => True

/-- The index block that names it; none for those that the inode names. -/
def parent : Role → Option Role
  | data k =>
    if k < 12 then none
    else if k < 76 then some one
    else if k < 4172 then some (twoSub ((k - 76) / 64))
    else some (threeSubSub ((k - 4172) / 4096) ((k - 4172) % 4096 / 64))
  | twoSub _ => some two
  | threeSub _ => some three
  | threeSubSub i _ => some (threeSub i)
  | _ => none

theorem parent_data (k : Nat) : (data k).parent =
    if k < 12 then none
    else if k < 76 then some one
    else if k < 4172 then some (twoSub ((k - 76) / 64))
    else some (threeSubSub ((k - 4172) / 4096) ((k - 4172) % 4096 / 64)) := rfl

/-- The position of a node in its parent's block, or in the inode. -/
def slot : Role → Nat
  | data k =>
    if k < 12 then k
    else if k < 76 then k - 12
    else if k < 4172 then (k - 76) % 64
    else (k - 4172) % 64
  | one => 12
  | two => 13
  | three => 14
  | twoSub j => j
  | threeSub i => i
  | threeSubSub _ j => j

theorem parent_start {r p : Role} (child : r.parent = some p) : p.start ≤ r.start := by
  cases r with
  | data k =>
      rw [parent_data] at child
      split_ifs at child <;> cases child <;> simp only [start] <;> omega
  | one | two | three => cases child
  | twoSub j =>
      obtain rfl := Option.some.inj child
      simp only [start]
      omega
  | threeSub i =>
      obtain rfl := Option.some.inj child
      simp only [start]
      omega
  | threeSubSub i j =>
      obtain rfl := Option.some.inj child
      simp only [start]
      omega

theorem parent_valid {r p : Role} (valid : r.Valid) (child : r.parent = some p) : p.Valid := by
  cases r with
  | data k =>
      rw [parent_data] at child
      simp only [Valid] at valid
      split_ifs at child <;> cases child <;> simp only [Valid] <;> omega
  | one | two | three => cases child
  | twoSub j =>
      obtain rfl := Option.some.inj child
      trivial
  | threeSub i =>
      obtain rfl := Option.some.inj child
      trivial
  | threeSubSub i j =>
      obtain rfl := Option.some.inj child
      exact valid.1

theorem slot_lt {r p : Role} (valid : r.Valid) (child : r.parent = some p) : r.slot < 64 := by
  cases r with
  | data k =>
      rw [parent_data] at child
      simp only [slot]
      split_ifs at child ⊢ <;> cases child <;> omega
  | one | two | three => cases child
  | twoSub j => exact valid
  | threeSub i => exact valid
  | threeSubSub i j => exact valid.2

/-- A node is its place: parent and slot determine it. -/
theorem eq_of_place {r r' : Role} (parents : r.parent = r'.parent) (slots : r.slot = r'.slot) :
    r = r' := by
  cases r <;> cases r' <;> simp only [parent, slot] at parents slots <;>
    first
      | (split_ifs at parents slots <;> simp_all <;> omega)
      | simp_all

theorem parent_ne_data {r p : Role} (child : r.parent = some p) (k : Nat) : p ≠ data k := by
  rintro rfl
  cases r with
  | data k' =>
      rw [parent_data] at child
      split_ifs at child <;> cases child
  | one | two | three | twoSub _ | threeSub _ | threeSubSub _ _ => cases child

theorem parent_asymm {r p : Role} (child : r.parent = some p) : p.parent ≠ some r := by
  intro loop
  cases r with
  | data k => exact parent_ne_data loop k rfl
  | one | two | three => cases child
  | twoSub j =>
      obtain rfl := Option.some.inj child
      cases loop
  | threeSub i =>
      obtain rfl := Option.some.inj child
      cases loop
  | threeSubSub i j =>
      obtain rfl := Option.some.inj child
      cases loop

theorem parent_ne_self (r : Role) : r.parent ≠ some r := fun loop => parent_asymm loop loop

theorem root_slot_lt {r : Role} (root : r.parent = none) : r.slot < 15 := by
  cases r with
  | data k =>
      rw [parent_data] at root
      split_ifs at root with direct
      simp only [slot, if_pos direct]
      omega
  | one => decide
  | two => decide
  | three => decide
  | twoSub _ | threeSub _ | threeSubSub _ _ => cases root

/-- Induction along parents. -/
theorem induction_on_parent {P : Role → Prop} (step : ∀ r, (∀ p, r.parent = some p → P p) → P r)
    (r : Role) : P r := by
  have root : ∀ r : Role, r.parent = none → P r := fun r none =>
    step r fun p child => by simp [none] at child
  have below : ∀ {r q : Role}, r.parent = some q → P q → P r := fun {r q} child here =>
    step r fun p other => by
      obtain rfl := Option.some.inj (child.symm.trans other)
      exact here
  have twoSub : ∀ j, P (.twoSub j) := fun j => below rfl (root .two rfl)
  have subSub : ∀ i j, P (.threeSubSub i j) := fun i j => below rfl (below rfl (root .three rfl))
  refine step r fun p child => ?_
  cases r with
  | data k =>
      rw [parent_data] at child
      split_ifs at child <;> cases child
      · exact root .one rfl
      · exact twoSub _
      · exact subSub _ _
  | one | two | three => cases child
  | twoSub j =>
      obtain rfl := Option.some.inj child
      exact root .two rfl
  | threeSub i =>
      obtain rfl := Option.some.inj child
      exact root .three rfl
  | threeSubSub i j =>
      obtain rfl := Option.some.inj child
      exact below rfl (root .three rfl)

end Role

/-- The roles a file of `n` bytes needs. -/
def Active (n : Nat) : Set Role := { r | r.Valid ∧ r.start < n }

/-- A set of roles that contains the way to each of them. -/
def Closed (A : Set Role) : Prop := ∀ r p, r ∈ A → r.parent = some p → p ∈ A

theorem active_closed (n : Nat) : Closed (Active n) := fun _ _ member child =>
  ⟨Role.parent_valid member.1 child, lt_of_le_of_lt (Role.parent_start child) member.2⟩

theorem active_mono {n n' : Nat} (le : n ≤ n') : Active n ⊆ Active n' := fun _ member =>
  ⟨member.1, lt_of_lt_of_le member.2 le⟩

/-- A file of one block needs its first block only. -/
theorem eq_data_of_active {r : Role} {n : Nat} (small : n ≤ 256) (member : r ∈ Active n) :
    r = .data 0 := by
  have needed := member.2
  cases r with
  | data k =>
      change 256 * k < n at needed
      obtain rfl : k = 0 := by omega
      rfl
  | one | two | three =>
      simp only [Role.start] at needed
      omega
  | twoSub _ | threeSub _ | threeSubSub _ _ =>
      simp only [Role.start] at needed
      omega

/-! ### Addresses -/

/-- What the block map of a file depends on: the disk, the index slots, the block bitmap. -/
structure Image where
  disk : Store
  index : Fin 15 → UInt32
  used : Nat → Bool

/-- The address of data block `k`: the reference walk of the index tree. -/
def blockAddr (disk : Store) (index : Fin 15 → UInt32) (k : Nat) : UInt32 :=
  if k < 12 then index (Fin.ofNat 15 k)
  else if k < 76 then disk.word ((index 12).toNat + 4 * (k - 12))
  else if k < 4172 then
    disk.word ((disk.word ((index 13).toNat + 4 * ((k - 76) / 64))).toNat + 4 * ((k - 76) % 64))
  else
    let second := disk.word ((index 14).toNat + 4 * ((k - 4172) / 4096))
    let third := disk.word (second.toNat + 4 * ((k - 4172) % 4096 / 64))
    disk.word (third.toNat + 4 * ((k - 4172) % 64))

/-- Where a block of the file lies. -/
def Image.addr (image : Image) : Role → UInt32
  | .data k => blockAddr image.disk image.index k
  | .one => image.index 12
  | .two => image.index 13
  | .twoSub j => image.disk.word ((image.index 13).toNat + 4 * j)
  | .three => image.index 14
  | .threeSub i => image.disk.word ((image.index 14).toNat + 4 * i)
  | .threeSubSub i j =>
    image.disk.word ((image.disk.word ((image.index 14).toNat + 4 * i)).toNat + 4 * j)

theorem Image.addr_root (image : Image) {r : Role} (root : r.parent = none) :
    image.addr r = image.index (Fin.ofNat 15 r.slot) := by
  cases r with
  | data k =>
      rw [Role.parent_data] at root
      split_ifs at root with direct
      simp [Image.addr, blockAddr, Role.slot, direct]
  | one => rfl
  | two => rfl
  | three => rfl
  | twoSub _ | threeSub _ | threeSubSub _ _ => cases root

theorem Image.addr_child (image : Image) {r p : Role} (child : r.parent = some p) :
    image.addr r = image.disk.word ((image.addr p).toNat + 4 * r.slot) := by
  cases r with
  | data k =>
      rw [Role.parent_data] at child
      split_ifs at child with a b c <;> cases child
      · simp [Image.addr, blockAddr, Role.slot, a, b]
      · simp [Image.addr, blockAddr, Role.slot, a, b, c]
      · simp [Image.addr, blockAddr, Role.slot, a, b, c]
  | one | two | three => cases child
  | twoSub j =>
      obtain rfl := Option.some.inj child
      rfl
  | threeSub i =>
      obtain rfl := Option.some.inj child
      rfl
  | threeSubSub i j =>
      obtain rfl := Option.some.inj child
      rfl

theorem Image.addr_direct (image : Image) {k : Nat} (direct : k < 12) :
    image.addr (.data k) = image.index (Fin.ofNat 15 k) := by
  simp [Image.addr, blockAddr, direct]

/-- Address `a` is the first byte of block `b` of the disk. -/
def IsBlock (a : UInt32) (b : Nat) : Prop := b < 4096 ∧ a.toNat = 82944 + 256 * b

/-- Byte `x` lies in the block at `a`. -/
def InBlock (a : UInt32) (x : Nat) : Prop := a.toNat ≤ x ∧ x < a.toNat + 256

theorem IsBlock.unique {a : UInt32} {b b' : Nat} (here : IsBlock a b) (there : IsBlock a b') :
    b = b' := by
  have := here.2
  have := there.2
  omega

/-- Blocks that share a byte are the same block. -/
theorem IsBlock.eq_of_inBlock {a a' : UInt32} {b b' x : Nat} (here : IsBlock a b)
    (there : IsBlock a' b') (inside : InBlock a x) (inside' : InBlock a' x) : a = a' := by
  unfold IsBlock InBlock at *
  exact UInt32.toNat_inj.mp (by omega)

/-! ### Ownership -/

/-- **The blocks of the roles in `A` are blocks of the disk, in use, and pairwise different.** -/
structure Own (A : Set Role) (image : Image) : Prop where
  closed : Closed A
  valid : ∀ r ∈ A, r.Valid
  block : ∀ r ∈ A, ∃ b, IsBlock (image.addr r) b ∧ image.used b = true
  apart : ∀ r ∈ A, ∀ r' ∈ A, image.addr r = image.addr r' → r = r'

/-- Addresses depend on the index slots and on one word per node. -/
theorem Image.addr_congr {A : Set Role} (closed : Closed A) {image image' : Image}
    (roots : ∀ r ∈ A, r.parent = none →
      image'.index (Fin.ofNat 15 r.slot) = image.index (Fin.ofNat 15 r.slot))
    (words : ∀ r ∈ A, ∀ p, r.parent = some p →
      image'.disk.word ((image.addr p).toNat + 4 * r.slot)
        = image.disk.word ((image.addr p).toNat + 4 * r.slot)) :
    ∀ r ∈ A, image'.addr r = image.addr r := by
  intro r
  induction r using Role.induction_on_parent with
  | step r above =>
      intro member
      cases place : r.parent with
      | none => rw [image'.addr_root place, image.addr_root place, roots r member place]
      | some p =>
          rw [image'.addr_child place, image.addr_child place,
            above p place (closed r p member place), words r member p place]

section Blocks

variable {A : Set Role} {image : Image}

/-- Two roles whose blocks share a byte are one role. -/
theorem Own.eq_of_inBlock (own : Own A image) {r r' : Role} (here : r ∈ A) (there : r' ∈ A)
    {x : Nat} (inside : InBlock (image.addr r) x) (inside' : InBlock (image.addr r') x) :
    r = r' := by
  obtain ⟨b, block, _⟩ := own.block r here
  obtain ⟨b', block', _⟩ := own.block r' there
  exact own.apart r here r' there (block.eq_of_inBlock block' inside inside')

/-- The word of a node lies in its parent's block. -/
theorem Own.word_inBlock (own : Own A image) {r p : Role} (here : r ∈ A)
    (child : r.parent = some p) {i : Nat} (small : i < 4) :
    InBlock (image.addr p) ((image.addr p).toNat + 4 * r.slot + i) := by
  have bound := Role.slot_lt (own.valid r here) child
  constructor <;> omega

end Blocks

/-- Byte `q` of the file an image shows. -/
def Image.byte (image : Image) (q : Nat) : UInt8 :=
  image.disk ((image.addr (.data (q / 256))).toNat + q % 256)

/-! ### What ownership depends on -/

section Carry

variable {A : Set Role} {image image' : Image}

/-- **The roles in `A` keep their addresses** as long as their blocks keep their bytes. -/
theorem Own.addr_eq (own : Own A image)
    (roots : ∀ r ∈ A, r.parent = none →
      image'.index (Fin.ofNat 15 r.slot) = image.index (Fin.ofNat 15 r.slot))
    (blocks : ∀ r ∈ A, ∀ x, InBlock (image.addr r) x → image'.disk x = image.disk x) :
    ∀ r ∈ A, image'.addr r = image.addr r := by
  refine Image.addr_congr own.closed roots fun r here p child => ?_
  refine Store.word_congr fun i small => ?_
  exact blocks p (own.closed r p here child) _ (own.word_inBlock here child small)

/-- **Ownership is carried over** by an image that keeps the addresses and the flags of the
blocks. -/
theorem Own.carry (own : Own A image) (same : ∀ r ∈ A, image'.addr r = image.addr r)
    (used : ∀ r ∈ A, ∀ b, IsBlock (image.addr r) b → image.used b = true → image'.used b = true) :
    Own A image' where
  closed := own.closed
  valid := own.valid
  block r here := by
    obtain ⟨b, block, marked⟩ := own.block r here
    exact ⟨b, by rwa [same r here], used r here b block marked⟩
  apart r here r' there equal := by
    rw [same r here, same r' there] at equal
    exact own.apart r here r' there equal

/-- A byte of the file lies in its data block. -/
theorem Image.byte_eq {q : Nat}
    (address : image'.addr (.data (q / 256)) = image.addr (.data (q / 256)))
    (blocks : ∀ x, InBlock (image.addr (.data (q / 256))) x → image'.disk x = image.disk x) :
    image'.byte q = image.byte q := by
  unfold Image.byte
  rw [address]
  exact blocks _ ⟨by omega, by omega⟩

end Carry

/-! ### Extension -/

/-- **How writing changes an image**: the roles in `A` keep their blocks, the roles that `A'` adds
got `e` blocks that were free, the file's bytes below `n` and everything outside its blocks are as
before. -/
structure Extends (n e : Nat) (A A' : Set Role) (image image' : Image) : Prop where
  own : Own A' image'
  sub : A ⊆ A'
  keep : ∀ r ∈ A, image'.addr r = image.addr r
  fresh : ∀ r ∈ A', r ∉ A → ∀ b, IsBlock (image'.addr r) b → image.used b = false
  grow : ∀ b, image.used b = true → image'.used b = true
  new : ∀ b, image'.used b = true →
    image.used b = true ∨ ∃ r ∈ A', r ∉ A ∧ IsBlock (image'.addr r) b
  frame : ∀ x, (∀ r ∈ A', ¬ InBlock (image'.addr r) x) → image'.disk x = image.disk x
  hold : ∀ q, q < n → .data (q / 256) ∈ A → image'.byte q = image.byte q
  paid : idleCount image.used 4096 = idleCount image'.used 4096 + e

namespace Extends

variable {n n' e e' : Nat} {A A' A'' : Set Role} {image image' image'' : Image}

theorem refl (own : Own A image) : Extends n 0 A A image image where
  own := own
  sub := subset_rfl
  keep _ _ := rfl
  fresh _ member absent := absurd member absent
  grow _ used := used
  new _ used := .inl used
  frame _ _ := rfl
  hold _ _ _ := rfl
  paid := (Nat.add_zero _).symm

theorem trans (first : Extends n e A A' image image') (second : Extends n' e' A' A'' image' image'')
    (le : n ≤ n') : Extends n (e + e') A A'' image image'' where
  own := second.own
  sub := first.sub.trans second.sub
  keep r member := (second.keep r (first.sub member)).trans (first.keep r member)
  fresh r member absent b block := by
    by_cases early : r ∈ A'
    · rw [second.keep r early] at block
      exact first.fresh r early absent b block
    · have idle := second.fresh r member early b block
      by_contra busy
      rw [first.grow b (by simpa using busy)] at idle
      exact absurd idle (by simp)
  grow b used := second.grow b (first.grow b used)
  new b used := by
    rcases second.new b used with early | ⟨r, member, absent, block⟩
    · rcases first.new b early with old | ⟨r, member, absent, block⟩
      · exact .inl old
      · exact .inr ⟨r, second.sub member, absent, by rwa [second.keep r member]⟩
    · exact .inr ⟨r, member, fun old => absent (first.sub old), block⟩
  frame x outside := by
    rw [second.frame x outside]
    refine first.frame x fun r member inside => ?_
    rw [← second.keep r member] at inside
    exact outside r (second.sub member) inside
  hold q below member := by
    rw [second.hold q (lt_of_lt_of_le below le) (first.sub member), first.hold q below member]
  paid := by rw [first.paid, second.paid, Nat.add_assoc, Nat.add_comm e e']

end Extends

section Steps

variable {A : Set Role} {image : Image} {n : Nat}

/-- A node and the way to it, added to a closed set. -/
theorem closed_insert {r : Role} (closed : Closed A) (way : ∀ p, r.parent = some p → p ∈ A) :
    Closed (insert r A) := by
  intro s p member child
  rcases Set.mem_insert_iff.mp member with rfl | old
  · exact Set.mem_insert_of_mem _ (way p child)
  · exact Set.mem_insert_of_mem _ (closed s p old child)

/-- **A fresh block gets a role**: what is left to show is that the image gives the role that block,
and the roles in `A` the blocks they had. -/
theorem Own.extend (own : Own A image) {r : Role} (valid : r.Valid) (new : r ∉ A)
    (way : ∀ p, r.parent = some p → p ∈ A) {b : Nat} (idle : image.used b = false) {disk : Store}
    {index : Fin 15 → UInt32}
    (here : IsBlock ((⟨disk, index, Function.update image.used b true⟩ : Image).addr r) b)
    (keep : ∀ s ∈ A, (⟨disk, index, Function.update image.used b true⟩ : Image).addr s =
      image.addr s) (frame : ∀ x, (∀ s ∈ A, ¬ InBlock (image.addr s) x) → disk x = image.disk x)
    (hold : ∀ q, q < n → .data (q / 256) ∈ A →
      disk ((image.addr (.data (q / 256))).toNat + q % 256) = image.byte q) :
    Extends n 1 A (insert r A) image ⟨disk, index, Function.update image.used b true⟩ where
  own := {
    closed := closed_insert own.closed way
    valid := by
      rintro s (rfl | old)
      · exact valid
      · exact own.valid s old
    block := by
      rintro s (rfl | old)
      · exact ⟨b, here, by simp⟩
      · obtain ⟨b', block, used⟩ := own.block s old
        rw [keep s old]
        refine ⟨b', block, ?_⟩
        by_cases same : b' = b
        · simp [same]
        · simpa [Function.update_of_ne same] using used
    apart := by
      have different : ∀ s ∈ A,
          (⟨disk, index, Function.update image.used b true⟩ : Image).addr r ≠ image.addr s := by
        intro s old same
        obtain ⟨b', block, used⟩ := own.block s old
        rw [← same] at block
        rw [here.unique block, used] at idle
        exact absurd idle (by simp)
      rintro s (rfl | old) s' (rfl | old') same
      · rfl
      · rw [keep s' old'] at same
        exact absurd same (different s' old')
      · rw [keep s old] at same
        exact absurd same.symm (different s old)
      · rw [keep s old, keep s' old'] at same
        exact own.apart s old s' old' same }
  sub := Set.subset_insert r A
  keep := keep
  fresh := by
    rintro s (rfl | old) absent b' block
    · rwa [← here.unique block]
    · exact absurd old absent
  grow b' used := by
    by_cases same : b' = b
    · simp [same]
    · simpa [Function.update_of_ne same] using used
  new b' used := by
    by_cases same : b' = b
    · subst same
      exact .inr ⟨r, Set.mem_insert r A, new, here⟩
    · exact .inl (by simpa [Function.update_of_ne same] using used)
  frame x outside := by
    refine frame x fun s old inside => ?_
    rw [← keep s old] at inside
    exact outside s (Set.mem_insert_of_mem r old) inside
  hold q below member := by
    rw [Image.byte, keep _ member]
    exact hold q below member
  paid := (idleCount_set here.1 idle).symm

/-- **A fresh block entered in its parent's block.** -/
theorem Own.enter (own : Own A image) {r p : Role} (child : r.parent = some p) (way : p ∈ A)
    (valid : r.Valid) (new : r ∉ A) {a : UInt32} {b : Nat} (block : IsBlock a b)
    (idle : image.used b = false) {disk : Store}
    (word : disk.word ((image.addr p).toNat + 4 * r.slot) = a)
    (same : ∀ x, x < (image.addr p).toNat + 4 * r.slot ∨ (image.addr p).toNat + 4 * r.slot + 4 ≤ x →
      disk x = image.disk x) :
    Extends n 1 A (insert r A) image ⟨disk, image.index, Function.update image.used b true⟩ := by
  have small := Role.slot_lt valid child
  have keep : ∀ s ∈ A,
      (⟨disk, image.index, Function.update image.used b true⟩ : Image).addr s = image.addr s := by
    refine Image.addr_congr own.closed (fun _ _ _ => rfl) fun s old q above => ?_
    refine Store.word_congr fun i smaller => same _ ?_
    -- the word of an old node is not the word of the new one
    by_contra overlap
    have inside := own.word_inBlock old above smaller
    have meets : InBlock (image.addr p) ((image.addr q).toNat + 4 * s.slot + i) := by
      constructor <;> omega
    have parents := own.eq_of_inBlock (own.closed s q old above) way inside meets
    subst parents
    refine new ?_
    rw [← Role.eq_of_place (above.trans child.symm) (by omega)]
    exact old
  refine own.extend valid new (fun q other => ?_) idle ?_ keep (fun x outside => same x ?_) ?_
  · rwa [← Option.some.inj (child.symm.trans other)]
  · rw [Image.addr_child _ child, keep p way]
    show IsBlock (disk.word _) b
    rwa [word]
  · by_contra overlap
    exact outside p way ⟨by omega, by omega⟩
  · intro q below member
    refine same _ ?_
    by_contra overlap
    have inside : InBlock (image.addr (.data (q / 256)))
        ((image.addr (.data (q / 256))).toNat + q % 256) := by
      constructor <;> omega
    have meets : InBlock (image.addr p) ((image.addr (.data (q / 256))).toNat + q % 256) := by
      constructor <;> omega
    exact Role.parent_ne_data child _ (own.eq_of_inBlock way member meets inside)

/-- **A fresh block entered in the inode.** -/
theorem Own.enterRoot (own : Own A image) {r : Role} (root : r.parent = none) (valid : r.Valid)
    (new : r ∉ A) {a : UInt32} {b : Nat} (block : IsBlock a b) (idle : image.used b = false) :
    Extends n 1 A (insert r A) image
      ⟨image.disk, Function.update image.index (Fin.ofNat 15 r.slot) a,
        Function.update image.used b true⟩ := by
  refine own.extend valid new (fun q other => ?_) idle ?_ ?_ (fun _ _ => rfl) fun _ _ _ => rfl
  · simp [root] at other
  · rw [Image.addr_root _ root]
    simpa using block
  · refine Image.addr_congr own.closed (fun s old place => ?_) fun _ _ _ _ => rfl
    have different : Fin.ofNat 15 s.slot ≠ Fin.ofNat 15 r.slot := by
      intro equal
      have values := congrArg Fin.val equal
      simp only [Fin.val_ofNat, Nat.mod_eq_of_lt (Role.root_slot_lt place),
        Nat.mod_eq_of_lt (Role.root_slot_lt root)] at values
      refine new ?_
      rw [← Role.eq_of_place (place.trans root.symm) values]
      exact old
    exact Function.update_of_ne different _ _

/-- **Bytes replaced**, with every role in its block. -/
theorem Own.redraw (own : Own A image) {disk : Store}
    (keep : ∀ r ∈ A, (⟨disk, image.index, image.used⟩ : Image).addr r = image.addr r)
    (frame : ∀ x, (∀ r ∈ A, ¬ InBlock (image.addr r) x) → disk x = image.disk x)
    (hold : ∀ q, q < n → .data (q / 256) ∈ A →
      disk ((image.addr (.data (q / 256))).toNat + q % 256) = image.byte q) :
    Extends n 0 A A image ⟨disk, image.index, image.used⟩ where
  own := {
    closed := own.closed
    valid := own.valid
    block := fun r here => by
      rw [keep r here]
      exact own.block r here
    apart := fun r here r' there equal => by
      rw [keep r here, keep r' there] at equal
      exact own.apart r here r' there equal }
  sub := subset_rfl
  keep := keep
  fresh _ here absent := absurd here absent
  grow _ used := used
  new _ used := .inl used
  frame x outside := by
    refine frame x fun r here inside => ?_
    rw [← keep r here] at inside
    exact outside r here inside
  hold q below here := by
    rw [Image.byte, keep _ here]
    exact hold q below here
  paid := (Nat.add_zero _).symm

/-- **Bytes stored in a data block**, behind the first `n` of the file. -/
theorem Own.store (own : Own A image) {k : Nat} (member : .data k ∈ A) {disk : Store}
    (same : ∀ x, (∀ q, n ≤ q → q / 256 = k → x ≠ (image.addr (.data k)).toNat + q % 256) →
      disk x = image.disk x) :
    Extends n 0 A A image ⟨disk, image.index, image.used⟩ := by
  have apart : ∀ r ∈ A, r ≠ .data k → ∀ x, InBlock (image.addr r) x → disk x = image.disk x := by
    intro r here different x inside
    refine same x fun q _ _ equal => different (own.eq_of_inBlock here member inside ?_)
    constructor <;> omega
  refine own.redraw ?_ (fun x outside => same x fun q _ _ equal => ?_) fun q below here => ?_
  · refine Image.addr_congr own.closed (fun _ _ _ => rfl) fun s old p above => ?_
    refine Store.word_congr fun i smaller => ?_
    exact apart p (own.closed s p old above) (Role.parent_ne_data above k) _
      (own.word_inBlock old above smaller)
  · refine outside (.data k) member ?_
    constructor <;> omega
  · have inside : InBlock (image.addr (.data (q / 256)))
        ((image.addr (.data (q / 256))).toNat + q % 256) := by
      constructor <;> omega
    by_cases sameBlock : q / 256 = k
    · subst sameBlock
      exact same _ fun q' after block equal => by omega
    · exact apart _ here (fun equal => sameBlock (Role.data.inj equal)) _ inside

/-- **An index block without entries rewritten.** -/
theorem Own.scribble (own : Own A image) {p : Role} (member : p ∈ A) (notData : ∀ k, p ≠ .data k)
    (childless : ∀ r ∈ A, r.parent ≠ some p) {disk : Store}
    (same : ∀ x, ¬ InBlock (image.addr p) x → disk x = image.disk x) :
    Extends n 0 A A image ⟨disk, image.index, image.used⟩ := by
  have apart : ∀ r ∈ A, r ≠ p → ∀ x, InBlock (image.addr r) x → disk x = image.disk x :=
    fun r here different x inside =>
      same x fun meets => different (own.eq_of_inBlock here member inside meets)
  refine own.redraw ?_ (fun x outside => same x (outside p member)) fun q _ here => ?_
  · refine Image.addr_congr own.closed (fun _ _ _ => rfl) fun s old q above => ?_
    refine Store.word_congr fun i smaller => ?_
    refine apart q (own.closed s q old above) ?_ _ (own.word_inBlock old above smaller)
    rintro rfl
    exact childless s old above
  · refine apart _ here (notData _).symm _ ?_
    constructor <;> omega

end Steps

/-! ### The disk is smaller than the last level -/

/-- A file of `n` bytes has its `n` bytes on the disk. -/
theorem Own.size_le {n : Nat} {image : Image} (own : Own (Active n) image) : n ≤ 1048576 := by
  by_contra large
  have each : ∀ k, k ≤ 4096 → ∃ b, IsBlock (image.addr (.data k)) b := fun k small => by
    obtain ⟨b, block, _⟩ := own.block (.data k)
      ⟨show k < 266316 by omega, show 256 * k < n by omega⟩
    exact ⟨b, block⟩
  choose! block isBlock using each
  have injective : Set.InjOn block (Finset.range 4097 : Finset Nat) := by
    intro k here k' there equal
    simp only [Finset.coe_range, Set.mem_Iio] at here there
    have same : image.addr (.data k) = image.addr (.data k') := by
      have first := (isBlock k (by omega)).2
      have second := (isBlock k' (by omega)).2
      exact UInt32.toNat_inj.mp (by rw [first, second, equal])
    have roles := own.apart (.data k) ⟨show k < 266316 by omega, show 256 * k < n by omega⟩
      (.data k') ⟨show k' < 266316 by omega, show 256 * k' < n by omega⟩ same
    exact Role.data.inj roles
  have inside : Set.MapsTo block (Finset.range 4097 : Finset Nat)
      (Finset.range 4096 : Finset Nat) := by
    intro k here
    simp only [Finset.coe_range, Set.mem_Iio] at here ⊢
    exact (isBlock k (by omega)).1
  have counts := Finset.card_le_card_of_injOn block inside injective
  simp at counts

end NjuOs.FileSystem
