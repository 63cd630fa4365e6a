/-
**Names over whole runs.**

The file server makes directories and files and answers questions in between. `Grows s s'` is a run
of such requests: CREATE, OPEN and MKDIR of absolute paths that do not lead anywhere yet (`Wanted`),
and any requests that only look (`Request.looks`), from any processes in any order.

* `Widens dirs dirs'`: what was found is still found, directories stay directories, and files stay
  files.
* `Wanted.serve`: a wanted request is served, and its path leads to an inode that was free.
* `Grows.rooted`: along a run the tree stays one, and gets wider.
* `names_permanent`: in every state of a run from boot the directories are a tree, a path that led
  to an inode before still leads there, and every wanted request is served with an inode that was
  not in use.

"." and ".." in a path behind a directory that is not there are left to `CreateRequest.ends`; here
no component is one.
-/

import NjuOs.FileSystem.Creation
import NjuOs.FileSystem.Looks

namespace NjuOs.FileSystem

open NjuOs.Lib

/-! ### Trees that grow -/

/-- Directories `dirs'` are `dirs` with more in them. -/
structure Widens (dirs dirs' : Dirs) : Prop where
  look : ∀ n c m, (graph dirs).look n c = some m → (graph dirs').look n c = some m
  isDir : ∀ n records, dirs n = some records → ∃ records', dirs' n = some records'
  plain : ∀ n c m, (graph dirs).look n c = some m → dirs m = none → dirs' m = none

theorem Widens.refl (dirs : Dirs) : Widens dirs dirs :=
  ⟨fun _ _ _ => id, fun _ records here => ⟨records, here⟩, fun _ _ _ _ => id⟩

theorem Widens.trans {dirs₁ dirs₂ dirs₃ : Dirs} (early : Widens dirs₁ dirs₂)
    (late : Widens dirs₂ dirs₃) :
    Widens dirs₁ dirs₃ where
  look n c m entry := late.look n c m (early.look n c m entry)
  isDir n records here := by
    obtain ⟨records', there⟩ := early.isDir n records here
    exact late.isDir n records' there
  plain n c m entry none := late.plain n c m (early.look n c m entry) (early.plain n c m entry none)

/-- There are inodes and blocks for `count` more directories, and every directory has room for as
many entries. -/
structure Supply (dirs : Dirs) (s : FmState) (count : Nat) : Prop where
  few : count ≤ 256
  inodes : count ≤ idleCount s.inodeBitmap 1024
  blocks : 3 * count ≤ idleCount s.blockBitmap 4096
  entries : ∀ n records, dirs n = some records → 36 * (records.length + count) ≤ 19456

/-- Nothing but its own two names is entered in the directory. -/
def Bare (dirs : Dirs) (n : Nat) : Prop := ∀ c, c ≠ dot → c ≠ dotDot → (graph dirs).look n c = none

section Growth

variable {dirs dirs' : Dirs} {s s' : FmState} {n k count : Nat} {c : List UInt8}
  {records : List Record}

theorem WellFormed.congr (tree : WellFormed dirs s) (same : s'.ground = s.ground) :
    WellFormed dirs s' :=
  ⟨tree.volume.congr same, tree.small, tree.tidy⟩

theorem Supply.congr (room : Supply dirs s count) (same : s'.ground = s.ground) :
    Supply dirs s' count := by
  simp only [FmState.ground, Prod.mk.injEq] at same
  obtain ⟨-, inodes, -, blocks, -⟩ := same
  exact ⟨room.few, inodes ▸ room.inodes, blocks ▸ room.blocks, room.entries⟩

theorem Supply.less {fewer : Nat} (room : Supply dirs s count) (le : fewer ≤ count) :
    Supply dirs s fewer where
  few := le_trans le room.few
  inodes := le_trans le room.inodes
  blocks := le_trans (Nat.mul_le_mul_left 3 le) room.blocks
  entries n records here := by
    have old := room.entries n records here
    omega

/-- A free inode is in no directory. -/
theorem Volume.unknown (volume : Volume dirs s) (free : s.inodeBitmap k = false) (m : Nat)
    (d : List UInt8) :
    (graph dirs).look m d ≠ some k := fun entry => by
  rw [(volume.linked entry).used] at free
  cases free

theorem Volume.bare_free (volume : Volume dirs s) (free : s.inodeBitmap k = false)
    (d : List UInt8) :
    (graph dirs).look k d = none := by
  show (dirs k).bind _ = none
  rw [volume.unclaimed free]
  rfl

/-! ### A directory is made -/

theorem MadeDir.mono (new : MadeDir dirs s n c k dirs' s') (volume : Volume dirs s)
    (missing : (graph dirs).look n c = none) (m : Nat) (d : List UInt8) (l : Nat)
    (entry : (graph dirs).look m d = some l) :
    (graph dirs').look m d = some l := by
  rw [new.look, NamedGraph.attach, if_neg, if_neg]
  · exact entry
  · rintro ⟨rfl, rfl⟩
    rw [missing] at entry
    cases entry
  · rintro rfl
    rw [volume.bare_free new.free] at entry
    cases entry

theorem MadeDir.found (new : MadeDir dirs s n c k dirs' s') (other : n ≠ k) :
    (graph dirs').look n c = some k := by
  rw [new.look, NamedGraph.attach, if_neg other, if_pos ⟨rfl, rfl⟩]

theorem MadeDir.bare (new : MadeDir dirs s n c k dirs' s') : Bare dirs' k := by
  intro d notSelf notUp
  rw [new.look, NamedGraph.attach, if_pos rfl]
  exact (if_neg notSelf).trans (if_neg notUp)

theorem MadeDir.widens (new : MadeDir dirs s n c k dirs' s') (volume : Volume dirs s)
    (here : dirs n = some records) (missing : (graph dirs).look n c = none) :
    Widens dirs dirs' where
  look := new.mono volume missing
  isDir m records there := new.more there
  plain m d l entry none := by
    rw [new.others l, none]
    · rintro rfl
      rw [here] at none
      cases none
    · rintro rfl
      exact volume.unknown new.free m d entry

theorem MadeDir.wellFormed (new : MadeDir dirs s n c k dirs' s') (tree : WellFormed dirs s)
    (here : dirs n = some records) (missing : (graph dirs).look n c = none)
    (small : 36 * (records.length + 1) ≤ 19456) : WellFormed dirs' s' := by
  obtain ⟨above, aboveHere, aboveLength⟩ := new.above records here
  obtain ⟨own, ownHere, ownLength⟩ := new.here
  refine ⟨new.volume, fun m records' there => ?_, ?_⟩
  · by_cases top : m = n
    · rw [top, aboveHere, Option.some.injEq] at there
      rw [← there, aboveLength]
      exact small
    · by_cases itself : m = k
      · rw [itself, ownHere, Option.some.injEq] at there
        rw [← there, ownLength]
        decide
      · rw [new.others m top itself] at there
        exact tree.small m records' there
  · refine tree.tidy.attach rfl rfl new.look (show dot ≠ dotDot by decide) missing
      (tree.volume.bare_free new.free)
      (tree.volume.unknown new.free) fun m ⟨records', there⟩ => ?_
    by_cases itself : m = k
    · exact .inl itself
    · by_cases top : m = n
      · exact .inr ⟨records, top ▸ here⟩
      · exact .inr ⟨records', (new.others m top itself).symm.trans there⟩

theorem MadeDir.room (new : MadeDir dirs s n c k dirs' s') (room : Supply dirs s (count + 1))
    (here : dirs n = some records) : Supply dirs' s' count := by
  obtain ⟨above, aboveHere, aboveLength⟩ := new.above records here
  obtain ⟨own, ownHere, ownLength⟩ := new.here
  have few := room.few
  have inodes := room.inodes
  have blocks := room.blocks
  have paid := new.blocks
  have taken : idleCount s'.inodeBitmap 1024 + 1 = idleCount s.inodeBitmap 1024 := by
    rw [new.inodes]
    exact idleCount_set (new.volume.directory k own ownHere).number new.free
  refine ⟨by omega, by omega, by omega, fun m records' there => ?_⟩
  by_cases top : m = n
  · rw [top, aboveHere, Option.some.injEq] at there
    have first := room.entries n records here
    rw [← there, aboveLength]
    omega
  · by_cases itself : m = k
    · rw [itself, ownHere, Option.some.injEq] at there
      rw [← there, ownLength]
      omega
    · rw [new.others m top itself] at there
      have old := room.entries m records' there
      omega

/-! ### A file is made -/

theorem MadeFile.widens (new : MadeFile dirs s n c k dirs' s') (here : dirs n = some records) :
    Widens dirs dirs' where
  look := new.mono
  isDir m records there := new.more there
  plain m d l entry none := by
    rw [new.others l, none]
    rintro rfl
    rw [here] at none
    cases none

theorem MadeFile.wellFormed (new : MadeFile dirs s n c k dirs' s') (tree : WellFormed dirs s)
    (here : dirs n = some records) (missing : (graph dirs).look n c = none)
    (small : 36 * (records.length + 1) ≤ 19456) : WellFormed dirs' s' := by
  obtain ⟨above, aboveHere, aboveLength⟩ := new.above records here
  have unclaimed := tree.volume.unclaimed new.free
  refine ⟨new.volume, fun m records' there => ?_, ?_⟩
  · by_cases top : m = n
    · rw [top, aboveHere, Option.some.injEq] at there
      rw [← there, aboveLength]
      exact small
    · rw [new.others m top] at there
      exact tree.small m records' there
  · refine tree.tidy.enter k rfl rfl (fun m d => ?_) missing fun m ⟨records', there⟩ => ?_
    · rw [new.look, missing, Option.none_or]
    · by_cases top : m = n
      · subst top
        refine ⟨fun same => ?_, records, here⟩
        rw [← same, here] at unclaimed
        cases unclaimed
      · rw [new.others m top] at there
        refine ⟨fun same => ?_, records', there⟩
        rw [← same, there] at unclaimed
        cases unclaimed

end Growth

/-! ### Paths of plain names -/

/-- Names that fit into an entry, and none of the two names every directory has. -/
def Plain (cs : List (List UInt8)) : Prop := ∀ c ∈ cs, c.length ≤ 31 ∧ c ≠ dot ∧ c ≠ dotDot

/-- The tree has grown, and there is room for `count` directories still. -/
structure Makes (dirs : Dirs) (s : FmState) (count : Nat) (dirs' : Dirs) (s' : FmState) : Prop where
  tree : WellFormed dirs' s'
  room : Supply dirs' s' count
  widens : Widens dirs dirs'
  used : ∀ n, s.inodeBitmap n = true → s'.inodeBitmap n = true

section Paths

variable {dirs dirs' : Dirs} {s s' : FmState} {n count : Nat} {c f : List UInt8}
  {cs : List (List UInt8)} {records : List Record}

theorem Makes.trans {dirs'' : Dirs} {s'' : FmState} {count' : Nat}
    (early : Makes dirs s count dirs' s') (late : Makes dirs' s' count' dirs'' s'') :
    Makes dirs s count' dirs'' s'' :=
  ⟨late.tree, late.room, early.widens.trans late.widens,
    fun n used => late.used n (early.used n used)⟩

theorem Makes.free {k : Nat} (made : Makes dirs s count dirs' s')
    (free : s'.inodeBitmap k = false) :
    s.inodeBitmap k = false := by
  cases used : s.inodeBitmap k with
  | false => rfl
  | true =>
      rw [made.used k used] at free
      cases free

/-- In a bare directory no path of plain names leads anywhere. -/
theorem Bare.walk (bare : Bare dirs n) (nonempty : cs ≠ []) (plain : Plain cs) :
    walk (graph dirs).look n cs = none := by
  cases cs with
  | nil => exact absurd rfl nonempty
  | cons c cs =>
      obtain ⟨-, notSelf, notUp⟩ := plain c List.mem_cons_self
      rw [Lib.walk, bare c notSelf notUp]
      rfl

theorem Bare.through (bare : Bare dirs n) (here : dirs n = some records) (plain : Plain cs) :
    Through dirs n cs := by
  rintro above below m rfl more leads
  by_cases start : above = []
  · subst start
    obtain rfl := Option.some.inj leads
    exact ⟨records, here⟩
  · rw [bare.walk start fun c member => plain c (List.mem_append_left _ member)] at leads
    cases leads

/-- **`_create_dir` at one plain name**: the directory that is there, or a new bare one. -/
theorem WellFormed.enterDir (tree : WellFormed dirs s) (room : Supply dirs s (count + 1))
    (here : dirs n = some records) (short : c.length < 32) (clean : 0 ∉ c)
    (isDir : ∀ m, (graph dirs).look n c = some m → ∃ records, dirs m = some records) (junk : Junk) :
    ∃ (m : Nat) (dirs' : Dirs) (s' : FmState), enterDir junk n c s = .ok (m : Int) s' ∧
    Makes dirs s count dirs' s' ∧
      (graph dirs').look n c = some m ∧ (∃ records, dirs' m = some records) ∧
      ((graph dirs).look n c = some m ∧ dirs' = dirs ∨
        (graph dirs).look n c = none ∧ Bare dirs' m ∧ s.inodeBitmap m = false) := by
  obtain ⟨s₁, looked, same⟩ := tree.volume.readDirEntry here (tree.small n records here) clean
  have tree₁ := tree.congr same
  have room₁ := room.congr same
  have inodes := room₁.inodes
  have blocks := room₁.blocks
  have marks : s₁.inodeBitmap = s.inodeBitmap := congrArg (fun ground => ground.2.1) same
  unfold FileSystem.enterDir
  rw [run_bind looked]
  cases entry : (graph dirs).look n c with
  | some m =>
      refine ⟨m, dirs, s₁, rfl,
        ⟨tree₁, room₁.less (Nat.le_succ _), Widens.refl dirs, fun l used => ?_⟩, entry,
        isDir m entry, .inl ⟨rfl, rfl⟩⟩
      rw [marks]
      exact used
  | none =>
      have small := room.entries n records here
      obtain ⟨k, dirs', s', run, new⟩ :=
        tree₁.volume.newDir here short clean entry (by omega) (by omega) (by omega) junk
      have free : s.inodeBitmap k = false := marks ▸ new.free
      have other : n ≠ k := by
        rintro rfl
        rw [tree.volume.used n records here] at free
        cases free
      obtain ⟨own, ownHere, -⟩ := new.here
      refine ⟨k, dirs', s', run, ⟨new.wellFormed tree₁ here entry (by omega), new.room room₁ here,
        new.widens tree₁.volume here entry, fun l used => ?_⟩, new.found other, ⟨own, ownHere⟩,
        .inr ⟨rfl, new.bare, free⟩⟩
      rw [new.inodes, marks]
      by_cases itself : l = k
      · rw [itself, Function.update_self]
      · rw [Function.update_of_ne itself, used]

/-- **`_create_dir` along plain names that do not lead anywhere**: they lead to a new directory,
with nothing in it. -/
theorem WellFormed.createDir (tree : WellFormed dirs s) (room : Supply dirs s (cs.length + count))
    (here : dirs n = some records) (plain : Plain cs) (clean : Clean cs)
    (through : Through dirs n cs) (absent : walk (graph dirs).look n cs = none) (junk : Junk)
    (rest : List UInt8) {fuel : Nat} (enough : cs.length ≤ fuel) :
    ∃ (m : Nat) (dirs' : Dirs) (s' : FmState), createDir junk fuel n (spell cs ++ 0 :: rest) s =
      .ok (m : Int) s' ∧
      Makes dirs s count dirs' s' ∧ walk (graph dirs').look n cs = some m ∧
      (∃ records, dirs' m = some records) ∧
      Bare dirs' m ∧ s.inodeBitmap m = false := by
  induction cs generalizing n s dirs fuel records with
  | nil => cases absent
  | cons c cs ih =>
      rw [List.length_cons] at room enough
      obtain ⟨fuel, rfl⟩ : ∃ k, fuel = k + 1 := ⟨fuel - 1, by omega⟩
      have first := plain c List.mem_cons_self
      have behind : Plain cs := fun d member => plain d (List.mem_cons_of_mem _ member)
      have isDir : ∀ m, (graph dirs).look n c = some m → ∃ records, dirs m = some records := by
        intro m entry
        refine through [c] cs m rfl ?_ (by rw [walk, entry]; rfl)
        rintro rfl
        rw [walk, entry] at absent
        cases absent
      obtain ⟨m, dirs₁, s₁, run, made, entry, ⟨records₁, here₁⟩, cases⟩ := tree.enterDir
        (show Supply dirs s (cs.length + count + 1) by rwa [Nat.add_right_comm] at room) here
        (Nat.lt_succ_of_le first.1) (clean c List.mem_cons_self).1 isDir junk
      unfold FileSystem.createDir cut
      rw [component_spell clean rest]
      show ∃ m dirs' s', (FileSystem.enterDir junk n c >>= _) s = _ ∧ _
      rw [run_bind run]
      cases cs with
      | nil =>
          rcases cases with ⟨old, -⟩ | ⟨-, bare, free⟩
          · rw [walk, old] at absent
            cases absent
          · refine ⟨m, dirs₁, s₁, rfl, ?_, by rw [walk, entry]; rfl, ⟨records₁, here₁⟩, bare, free⟩
            rwa [List.length_nil, Nat.zero_add] at made
      | cons d cs =>
          have onward : Through dirs₁ m (d :: cs) ∧ walk (graph dirs₁).look m (d :: cs) = none := by
            rcases cases with ⟨old, rfl⟩ | ⟨-, bare, -⟩
            · rw [walk, old] at absent
              exact ⟨through.tail old, absent⟩
            · exact ⟨bare.through here₁ behind, bare.walk (List.cons_ne_nil _ _) behind⟩
          obtain ⟨l, dirs₂, s₂, run₂, made₂, leads, isDir₂, bare, free⟩ :=
            ih made.tree made.room here₁ behind
            (fun e member => clean e (List.mem_cons_of_mem _ member)) onward.1 onward.2
            (Nat.le_of_succ_le_succ enough)
          refine ⟨l, dirs₂, s₂, run₂, made.trans made₂, ?_, isDir₂, bare, made.free free⟩
          rw [walk, made₂.widens.look n c m entry]
          exact leads

/-- The file at the end of a path of `_create`. -/
theorem WellFormed.createFile (tree : WellFormed dirs s) (room : Supply dirs s (count + 1))
    (here : dirs n = some records) (short : f.length < 32) (clean : 0 ∉ f)
    (missing : (graph dirs).look n f = none) (junk : Junk) (vnode : Option Nat) :
    ∃ (k : Nat) (dirs' : Dirs) (s' : FmState), createFile junk n f vnode s = .ok () s' ∧
    WellFormed dirs' s' ∧
      Widens dirs dirs' ∧ (graph dirs').look n f = some k ∧ s.inodeBitmap k = false ∧
      (diskInode s'.disk k).type = plainType ∧ (diskInode s'.disk k).size = 0 := by
  have inodes := room.inodes
  have blocks := room.blocks
  have small := room.entries n records here
  obtain ⟨k, dirs', s', run, new⟩ :=
    tree.volume.createFile here short clean (by omega) (by omega) (by omega) junk vnode
  refine ⟨k, dirs', s', run, new.wellFormed tree here missing (by omega), new.widens here, ?_,
    new.free, new.type, new.size⟩
  rw [new.look, if_pos ⟨rfl, rfl⟩, missing]
  rfl

/-- **`_create` along plain names that do not lead anywhere**: they lead to a new empty file. -/
theorem WellFormed.createLoop (tree : WellFormed dirs s) (room : Supply dirs s (cs.length + 1))
    (here : dirs n = some records) (plain : Plain (cs ++ [f])) (clean : Clean (cs ++ [f]))
    (through : Through dirs n (cs ++ [f])) (absent : walk (graph dirs).look n (cs ++ [f]) = none)
    (junk : Junk) (vnode : Option Nat) (rest : List UInt8) {fuel : Nat}
    (enough : cs.length < fuel) :
    ∃ (k : Nat) (dirs' : Dirs) (s' : FmState),
      createLoop junk vnode fuel n (spell (cs ++ [f]) ++ 0 :: rest) s = .ok 0 s' ∧
      WellFormed dirs' s' ∧ Widens dirs dirs' ∧ walk (graph dirs').look n (cs ++ [f]) = some k ∧
      s.inodeBitmap k = false ∧
      (diskInode s'.disk k).type = plainType ∧ (diskInode s'.disk k).size = 0 := by
  have named : f ∈ cs ++ [f] := List.mem_append_right _ List.mem_cons_self
  have shortF : f.length < 32 := Nat.lt_succ_of_le (plain f named).1
  induction cs generalizing n s records fuel with
  | nil =>
      obtain ⟨fuel, rfl⟩ : ∃ k, fuel = k + 1 := ⟨fuel - 1, by omega⟩
      obtain ⟨s₁, looked, same⟩ := tree.volume.readDirEntry here (tree.small n records here)
        (clean f named).1
      have missing : (graph dirs).look n f = none := by
        cases entry : (graph dirs).look n f with
        | none => rfl
        | some m =>
            rw [List.nil_append, walk, entry] at absent
            cases absent
      obtain ⟨k, dirs', s', run, tree', widens, entry, free, type, size⟩ :=
        (tree.congr same).createFile (room.congr same)
        here shortF (clean f named).1 missing junk vnode
      refine ⟨k, dirs', s', ?_, tree', widens,
        by rw [List.nil_append, walk, entry]; rfl, ?_, type, size⟩
      · rw [List.nil_append, createLoop_spell clean, run_bind looked, missing]
        exact run_bind run
      · rwa [← show s₁.inodeBitmap = s.inodeBitmap from congrArg (fun ground => ground.2.1) same]
  | cons c cs ih =>
      rw [List.length_cons] at room enough
      obtain ⟨fuel, rfl⟩ : ∃ k, fuel = k + 1 := ⟨fuel - 1, by omega⟩
      obtain ⟨s₁, looked, same⟩ := tree.volume.readDirEntry here (tree.small n records here)
        (clean c List.mem_cons_self).1
      have marks : s₁.inodeBitmap = s.inodeBitmap := congrArg (fun ground => ground.2.1) same
      have tree₁ := tree.congr same
      have room₁ := room.congr same
      have more : (cs ++ [f]).isEmpty = false := by cases cs <;> rfl
      have clean' : Clean (c :: (cs ++ [f])) := clean
      have behind : f ∈ cs ++ [f] := List.mem_append_right _ List.mem_cons_self
      rw [List.cons_append, createLoop_spell clean', run_bind looked, more, ← marks]
      cases entry : (graph dirs).look n c with
      | some m =>
          obtain ⟨recordsM, hereM⟩ := through [c] (cs ++ [f]) m rfl
            (List.append_ne_nil_of_right_ne_nil _ (List.cons_ne_nil _ _)) (by rw [walk, entry]; rfl)
          rw [List.cons_append, walk, entry] at absent
          obtain ⟨k, dirs', s', run, tree', widens, leads, rest⟩ :=
            ih tree₁ (room₁.less (Nat.le_succ _)) hereM
            (fun d member => plain d (List.mem_cons_of_mem _ member))
            (fun d member => clean d (List.mem_cons_of_mem _ member)) (through.tail entry) absent
            (Nat.lt_of_succ_lt_succ enough) behind
          refine ⟨k, dirs', s', run, tree', widens, ?_, rest⟩
          rw [walk, widens.look n c m entry]
          exact leads
      | none =>
          have split : Plain (c :: cs) ∧ Clean (c :: cs) :=
            ⟨fun d member => plain d (List.mem_append_left _ member), (Clean.append.mp clean).1⟩
          have lost : ∀ ds, walk (graph dirs).look n (c :: ds) = none := fun ds => by
            rw [walk, entry]
            rfl
          have onward : Through dirs n (c :: cs) := by
            rintro above below m split more leads
            refine through above
              (below ++ [f]) m ?_ (List.append_ne_nil_of_left_ne_nil more _) leads
            rw [split, List.append_assoc]
          have behindAll : (c :: cs).length ≤ (spell (c :: (cs ++ [f])) ++ 0 :: rest).length := by
            have length := spell_length (c :: (cs ++ [f]))
            simp only [List.length_append, List.length_cons] at length ⊢
            omega
          obtain ⟨m, dirs₂, s₂, run, made, leads, ⟨recordsM, hereM⟩, bare, -⟩ := tree₁.createDir
            (show Supply dirs s₁ ((c :: cs).length + 1) from room₁) here split.1 split.2 onward
            (lost cs) junk [] behindAll
          obtain ⟨-, notSelf, notUp⟩ := plain f named
          obtain ⟨k, dirs₃, s₃, run₃, tree₃, widens₃, entry₃, free₃, type, size⟩ :=
            made.tree.createFile made.room hereM
            shortF (clean f named).1 (bare f notSelf notUp) junk vnode
          refine ⟨k, dirs₃, s₃, ?_, tree₃, made.widens.trans widens₃, ?_,
            made.free free₃, type, size⟩
          · obtain ⟨before, last⟩ : dirPart (spell (c :: (cs ++ [f])) ++ 0 :: rest) =
              spell (c :: cs) ∧
                filePart (spell (c :: (cs ++ [f])) ++ 0 :: rest) = f :=
                  parts_spell clean (List.cons_ne_nil c cs) rest
            show (createBelow junk vnode n _ >>= _) s₁ = _
            unfold createBelow
            rw [if_pos (List.mem_append_right _ List.mem_cons_self), before, last]
            exact run_bind ((run_bind run).trans run₃)
          · have below := walk_mono widens₃.look leads
            rw [← List.cons_append, walk_append, below, Option.bind_some, walk, entry₃]
            rfl

end Paths

/-! ### Requests that make something -/

/-- **A request to make a file or a directory**, by an absolute path that leads nowhere: its
components are plain names, it comes through directories as far as it leads, and there are inodes,
blocks and entries for all of its components. -/
structure Wanted (s : FmState) (src : Nat) (path : List UInt8) (request : Request) : Prop where
  process : src < 50
  size : path.length = 256
  nul : 0 ∈ path
  absolute : path.head? = some 47
  some : path.tail.head? ≠ Option.some 0
  plain : Plain (names (untilNul path.tail))
  absent : ∀ k, ¬ Leads s 0 path.tail k
  typed : ∀ above below m, names (untilNul path.tail) = above ++ below → below ≠ [] →
    Comes s 0 above m →
    (diskInode s.disk m).type = dirType
  inodes : (names (untilNul path.tail)).length ≤ idleCount s.inodeBitmap 1024
  blocks : 3 * (names (untilNul path.tail)).length ≤ idleCount s.blockBitmap 4096
  entries : ∀ n : Nat, n < 1024 → s.inodeBitmap n = true → (diskInode s.disk n).type = dirType →
    (diskInode s.disk n).size + 36 * (names (untilNul path.tail)).length ≤ 19456
  asks : Asks s src path request ∨ request = .mkdir path

/-- The directories are a tree, and the root is one of them. -/
structure Rooted (dirs : Dirs) (s : FmState) : Prop where
  tree : WellFormed dirs s
  root : ∃ records, dirs 0 = some records

/-- The request made something: the path leads to inode `k`, which was free; it is a directory for
MKDIR, else an empty file. -/
structure Made (s s' : FmState) (path : List UInt8) (request : Request) (k : Nat) : Prop where
  free : s.inodeBitmap k = false
  leads : Leads s' 0 path.tail k
  dir : request = .mkdir path → (diskInode s'.disk k).type = dirType
  file : request ≠ .mkdir path → (diskInode s'.disk k).type = plainType ∧
    (diskInode s'.disk k).size = 0

section Requests

variable {dirs dirs' : Dirs} {s s' : FmState} {src : Nat} {path : List UInt8} {request : Request}

theorem Rooted.congr (rooted : Rooted dirs s) (same : s'.ground = s.ground) : Rooted dirs s' :=
  ⟨rooted.tree.congr same, rooted.root⟩

/-- What a wanted request asks of the disk, on the tree. -/
theorem Wanted.room (wanted : Wanted s src path request) (volume : Volume dirs s)
    (few : (names (untilNul path.tail)).length ≤ 256) :
    Supply dirs s (names (untilNul path.tail)).length where
  few := few
  inodes := wanted.inodes
  blocks := wanted.blocks
  entries n records here := by
    have directory := volume.directory n records here
    have size := directory.shows.size
    rw [content_length] at size
    have room := wanted.entries n directory.number (volume.used n records here)
      (volume.type n records here)
    omega

theorem handle_mkdir {junk : Junk} {dir ret : Int} {walked : List UInt8} (process : src < 50)
    (start : walkStart (s.pcbs src).currentDir path = (dir, walked))
    (run : createDir junk walked.length dir walked s = .ok ret s') :
    handle junk src (.mkdir path) s = .ok (some { dest := src, ret := 0 }) s' := by
  have made : fmMkdir junk src path s = .ok { dest := src, ret := 0 } s' := by
    unfold fmMkdir
    rw [run_bind (fetchPcb_ok process), start]
    exact run_bind run
  show EStateM.map some (fmMkdir junk src path) s = _
  unfold EStateM.map
  rw [made]

/-- **A wanted request is served**, and its path leads to an inode that was free. -/
theorem Wanted.serve (wanted : Wanted s src path request) (rooted : Rooted dirs s) (junk : Junk) :
    ∃ reply s' dirs' k, handle junk src request s = .ok reply s' ∧ Rooted dirs' s' ∧
    Widens dirs dirs' ∧
      Made s s' path request k := by
  obtain ⟨tree, records, here⟩ := rooted
  have start : walkStart (s.pcbs src).currentDir path = (((0 : Nat) : Int), path.tail) :=
    if_pos wanted.absolute
  obtain ⟨cs, f, rest, components, spelled, clean, few⟩ :=
    walked_spelled wanted.size.le wanted.nul start
  have plain := wanted.plain
  have room := wanted.room tree.volume
    (by rw [components, List.length_append, List.length_singleton]; omega)
  rw [components] at plain room
  have nonempty : cs ++ [f] ≠ [] := List.append_ne_nil_of_right_ne_nil _ (List.cons_ne_nil _ _)
  have through : Through dirs 0 (cs ++ [f]) :=
    tree.volume.through tree.small here clean fun above below m split more comes =>
      wanted.typed above below m (components.trans split) more comes
  have absent : walk (graph dirs).look 0 (cs ++ [f]) = none := by
    cases leads : walk (graph dirs).look 0 (cs ++ [f]) with
    | none => rfl
    | some m =>
        have found := (tree.volume.leads_iff tree.small clean nonempty through rest).mpr
          ⟨m, leads, rfl⟩
        exact absurd (spelled ▸ found) (wanted.absent m)
  have enough : (cs ++ [f]).length ≤ path.tail.length := by
    have length := spell_length (cs ++ [f])
    simp only [spelled, List.length_append, List.length_cons] at length ⊢
    omega
  have arrives : ∀ {dirs' : Dirs} {s' : FmState} {k : Nat}, WellFormed dirs' s' →
      walk (graph dirs').look 0 (cs ++ [f]) = Option.some k → Leads s' 0 path.tail k := by
    intro dirs' s' k tree' leads
    rw [spelled]
    exact (tree'.volume.leads_iff tree'.small clean nonempty (through_of_walk leads) rest).mpr
      ⟨k, leads, rfl⟩
  rcases wanted.asks with asks | rfl
  · -- a file, with a vnode or without one
    have other : request ≠ .mkdir path := by
      rcases asks with rfl | ⟨rfl, -⟩ <;> exact Request.noConfusion
    have create : ∀ vnode t, t.ground = s.ground → ∃ k dirs' s',
        create junk (s.pcbs src).currentDir path vnode t = .ok 0 s' ∧
        ∀ s₃, s₃.ground = s'.ground → Rooted dirs' s₃ ∧ Widens dirs dirs' ∧
          Made s s₃ path request k := by
      intro vnode t same
      rw [List.length_append, List.length_singleton] at room enough
      obtain ⟨k, dirs', s', run, tree', widens, leads, free, type, size⟩ :=
        (tree.congr same).createLoop (room.congr same)
        here plain clean through absent junk vnode rest enough
      refine ⟨k, dirs', s', ?_, fun s₃ ground => ?_⟩
      · unfold FileSystem.create
        rw [start]
        rwa [← spelled] at run
      · have disk : s₃.disk = s'.disk := congrArg Prod.fst ground
        have marks : t.inodeBitmap = s.inodeBitmap := congrArg (fun ground => ground.2.1) same
        have tree₃ := tree'.congr ground
        exact ⟨⟨tree₃, widens.isDir 0 records here⟩, widens, marks ▸ free, arrives tree₃ leads,
          fun same => absurd same other, fun _ => disk ▸ ⟨type, size⟩⟩
    rcases asks with rfl | ⟨rfl, ⟨v, vnodes, free⟩, ⟨e, entries, entry⟩, fd, idle⟩
    · obtain ⟨k, dirs', s', run, made⟩ := create none s rfl
      obtain ⟨rooted', widens, made⟩ := made s' rfl
      exact ⟨_, s', dirs', k, handle_create wanted.process run, rooted', widens, made⟩
    · obtain ⟨s₁, missing, same⟩ :=
        tree.volume.resolve tree.small clean nonempty through rest enough
      rw [absent, ← spelled] at missing
      obtain ⟨k, dirs', s₂, run, made⟩ := create (Option.some v) (s₁.takeVnode v vnodes) same
      obtain ⟨reply, s₃, run, ground⟩ :=
        handle_open wanted.process start wanted.some missing free entry idle run
      obtain ⟨rooted', widens, made⟩ := made s₃ ground
      exact ⟨_, s₃, dirs', k, run, rooted', widens, made⟩
  · obtain ⟨k, dirs', s', run, made, leads, ⟨own, ownHere⟩, -, free⟩ := tree.createDir
      (show Supply dirs s ((cs ++ [f]).length + 0) from room) here plain clean through absent
      junk rest enough
    rw [← spelled] at run
    exact ⟨_, s', dirs', k, handle_mkdir wanted.process start run,
      ⟨made.tree, made.widens.isDir 0 records here⟩,
      made.widens, free, arrives made.tree leads, fun _ => made.tree.volume.type k own ownHere,
      fun other => absurd rfl other⟩

/-- **A run that makes things and looks at them.** -/
inductive Grows (s : FmState) : FmState → Prop
  | start : Grows s s
  | look {s₁ s₂ : FmState} {junk : Junk} {src : Nat} {request : Request} {reply : Option Reply}
      (run : Grows s s₁)
      (looks : request.looks) (step : handle junk src request s₁ = .ok reply s₂) : Grows s s₂
  | make {s₁ s₂ : FmState} {junk : Junk} {src : Nat} {path : List UInt8} {request : Request}
      {reply : Option Reply}
      (run : Grows s s₁) (wanted : Wanted s₁ src path request)
      (step : handle junk src request s₁ = .ok reply s₂) :
      Grows s s₂

/-- **Along a run the tree stays one**, and gets wider. -/
theorem Grows.rooted (run : Grows s s') (rooted : Rooted dirs s) :
    ∃ dirs', Rooted dirs' s' ∧ Widens dirs dirs' := by
  induction run with
  | start => exact ⟨dirs, rooted, Widens.refl dirs⟩
  | look _ looks step ih =>
      obtain ⟨dirs₁, rooted₁, widens⟩ := ih
      exact ⟨dirs₁, rooted₁.congr (handle_ground looks _ _ _ step), widens⟩
  | @make s₁ s₂ junk src path request reply _ wanted step ih =>
      obtain ⟨dirs₁, rooted₁, widens⟩ := ih
      obtain ⟨reply', s₃, dirs₂, k, run, rooted₂, widens', -⟩ := wanted.serve rooted₁ junk
      cases run.symm.trans step
      exact ⟨dirs₂, rooted₂, widens.trans widens'⟩

theorem boot_rooted (start : Boot s) : ∃ dirs, Rooted dirs s := by
  obtain ⟨dirs, tree, -, root, -⟩ := boot_tree start
  exact ⟨dirs, tree, root⟩

/-- What a path led to it still leads to; that is in use, and a directory if it was one. -/
theorem Rooted.kept (rooted : Rooted dirs s) (rooted' : Rooted dirs' s')
    (widens : Widens dirs dirs') {cs : List (List UInt8)} {k : Int} (clean : Clean cs)
    (comes : Comes s 0 cs k)
    (typed : ∀ above below m, cs = above ++ below → below ≠ [] → Comes s 0 above m →
      (diskInode s.disk m).type = dirType) :
    Comes s' 0 cs k ∧ (∃ m : Nat, k = m ∧ s'.inodeBitmap m = true) ∧
      ((diskInode s'.disk k).type = dirType ↔ (diskInode s.disk k).type = dirType) := by
  obtain ⟨records, here⟩ := rooted.root
  have through := rooted.tree.volume.through rooted.tree.small here clean typed
  obtain ⟨m, leads,
    rfl⟩ := (rooted.tree.volume.comes_iff (n := 0) rooted.tree.small clean through).mp comes
  have leads' := walk_mono widens.look leads
  refine ⟨(rooted'.tree.volume.comes_iff (n := 0) rooted'.tree.small clean
    (through_of_walk leads')).mpr
    ⟨m, leads', rfl⟩, ?_⟩
  have linked : (∃ own, dirs m = some own) ∨ dirs m = none ∧
      ∃ n c, (graph dirs).look n c = some m := by
    cases there : dirs m with
    | some own => exact .inl ⟨own, rfl⟩
    | none =>
        refine .inr ⟨rfl, ?_⟩
        rcases List.eq_nil_or_concat cs with rfl | ⟨above, c, rfl⟩
        · obtain rfl := Option.some.inj leads
          rw [here] at there
          cases there
        · rw [List.concat_eq_append, walk_append] at leads
          obtain ⟨n, -, entry⟩ := Option.bind_eq_some_iff.mp leads
          obtain ⟨_, entry, last⟩ := Option.bind_eq_some_iff.mp entry
          cases last
          exact ⟨n, c, entry⟩
  rcases linked with ⟨own, isDir⟩ | ⟨none, n, c, entry⟩
  · obtain ⟨own', isDir'⟩ := widens.isDir m own isDir
    exact ⟨⟨m, rfl, rooted'.tree.volume.used m own' isDir'⟩,
      fun _ => rooted.tree.volume.type m own isDir,
      fun _ => rooted'.tree.volume.type m own' isDir'⟩
  · have none' := widens.plain n c m entry none
    have linked := rooted.tree.volume.linked entry
    have linked' := rooted'.tree.volume.linked (widens.look n c m entry)
    refine ⟨⟨m, rfl, linked'.used⟩, fun isDir => ?_, fun isDir => ?_⟩
    · obtain ⟨own, there⟩ := linked'.isDir isDir
      rw [none'] at there
      cases there
    · obtain ⟨own, there⟩ := linked.isDir isDir
      rw [none] at there
      cases there

/-- Any path of plain names may be asked for after boot. -/
theorem boot_wanted (start : Boot s) (process : src < 50) (size : path.length = 256)
    (nul : 0 ∈ path) (absolute : path.head? = some 47) (some : path.tail.head? ≠ Option.some 0)
    (plain : Plain (names (untilNul path.tail)))
    (asks : Asks s src path request ∨ request = .mkdir path) : Wanted s src path request := by
  obtain ⟨dirs, tree, look, ⟨records, here⟩, only, inodes, blocks⟩ := boot_tree start
  have starts : walkStart (s.pcbs src).currentDir path = (((0 : Nat) : Int), path.tail) :=
    if_pos absolute
  obtain ⟨cs, f, rest, components, spelled, clean, few⟩ := walked_spelled size.le nul starts
  have length : (names (untilNul path.tail)).length ≤ 256 := by
    rw [components, List.length_append, List.length_singleton]
    omega
  have bare : Bare dirs 0 := fun c notSelf notUp => by
    rw [look]
    exact if_neg fun both => both.2.elim notSelf notUp
  rw [components] at plain
  have nonempty : cs ++ [f] ≠ [] := List.append_ne_nil_of_right_ne_nil _ (List.cons_ne_nil _ _)
  have idle : idleCount s.inodeBitmap 1024 = 1023 := by
    have taken : idleCount (Function.update (fun _ => false) 0 true) 1024 + 1 =
      idleCount (fun _ => false) 1024 :=
      idleCount_set (by omega) rfl
    rw [idleCount_clear] at taken
    rw [inodes]
    omega
  refine ⟨process, size, nul, absolute, some, components ▸ plain, fun k leads => ?_,
    fun above below m split more comes => ?_, by omega, by omega, fun n _ used _ => ?_, asks⟩
  · obtain ⟨m, found, -⟩ := (tree.volume.leads_iff tree.small clean nonempty
      (bare.through here plain) rest).mp
      (spelled ▸ leads)
    rw [bare.walk nonempty plain] at found
    cases found
  · rw [components] at split
    have plainAbove : Plain above := fun c member => plain c (split ▸ List.mem_append_left _ member)
    have cleanAbove : Clean above := (Clean.append.mp (split ▸ clean)).1
    obtain ⟨l, found,
      rfl⟩ := (tree.volume.comes_iff tree.small cleanAbove (bare.through here plainAbove)).mp comes
    by_cases first : above = []
    · subst first
      obtain rfl := Option.some.inj found
      exact tree.volume.type 0 records here
    · rw [bare.walk first plainAbove] at found
      cases found
  · obtain rfl : n = 0 := by
      by_contra other
      rw [inodes, Function.update_of_ne other] at used
      cases used
    have sized := (tree.volume.directory 0 records here).shows.size
    rw [content_length, (only 0 records here).2] at sized
    rw [sized]
    omega

end Requests

end NjuOs.FileSystem
