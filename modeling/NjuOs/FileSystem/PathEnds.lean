/-
**Paths end at their NUL, except where something is deleted.**

Two path buffers of one size hold the same string when they agree up to and including their first
NUL (`SameString`). The walkers of `fm_syscall.c` cut the same components off both and stop at the
last one, so OPEN, CREATE, MKDIR, LSDIR and CHDIR do the same on both, whatever follows the NUL.
`_delete_file` has no return behind the deletion: its loop goes on one byte behind the NUL, in the
directory that was just deleted. So DELETE and RMDIR do the same on both exactly as long as nothing
is deleted or nothing follows the NUL (`nul_ends_iff`); two buffers that both spell "/a" of which
one goes on without a NUL get different ends (`path_behind_nul`).
-/

import NjuOs.FileSystem.PathTypes
import NjuOs.FileSystem.RoundTrip

namespace NjuOs.FileSystem

open NjuOs.Lib

/-- The buffers have one size and agree up to and including their first NUL. -/
def SameString (p q : List UInt8) : Prop :=
  ∃ text rest rest', 0 ∉ text ∧ p = text ++ 0 :: rest ∧ q = text ++ 0 :: rest' ∧
    rest.length = rest'.length

/-- Two requests that differ in nothing but what follows the NUL of their paths. -/
inductive Alike : Request → Request → Prop
  | open {p q : List UInt8} (flag : Int) : SameString p q → Alike (.open p flag) (.open q flag)
  | create {p q : List UInt8} : SameString p q → Alike (.create p) (.create q)
  | mkdir {p q : List UInt8} : SameString p q → Alike (.mkdir p) (.mkdir q)
  | delete {p q : List UInt8} : SameString p q → Alike (.delete p) (.delete q)
  | rmdir {p q : List UInt8} : SameString p q → Alike (.rmdir p) (.rmdir q)
  | lsdir {p q : List UInt8} : SameString p q → Alike (.lsdir p) (.lsdir q)
  | chdir {p q : List UInt8} : SameString p q → Alike (.chdir p) (.chdir q)

/-! ### Components -/

section Components

variable {name p q text rest : List UInt8}

theorem component_nul (clean : 0 ∉ name) (plain : 47 ∉ name) :
    component (name ++ 0 :: rest) = some { name, last := true, rest } := by
  induction name with
  | nil => rfl
  | cons c name ih =>
      rw [List.mem_cons, not_or] at clean plain
      rw [List.cons_append, component, if_neg (Ne.symm clean.1), if_neg (Ne.symm plain.1),
        ih clean.2 plain.2]
      rfl

theorem component_slash (clean : 0 ∉ name) (plain : 47 ∉ name) :
    component (name ++ 47 :: rest) = some { name, last := false, rest } := by
  induction name with
  | nil => rfl
  | cons c name ih =>
      rw [List.mem_cons, not_or] at clean plain
      rw [List.cons_append, component, if_neg (Ne.symm clean.1), if_neg (Ne.symm plain.1),
        ih clean.2 plain.2]
      rfl

/-- A text without NUL is one component, or a component, a `/` and a text. -/
theorem split_slash (clean : 0 ∉ text) : 47 ∉ text ∨
    ∃ name below, text = name ++ 47 :: below ∧ 0 ∉ name ∧ 47 ∉ name ∧ 0 ∉ below := by
  by_cases slash : (47 : UInt8) ∈ text
  · obtain ⟨name, below, rfl, plain⟩ := List.eq_append_cons_of_mem slash
    rw [List.mem_append, List.mem_cons, not_or, not_or] at clean
    exact .inr ⟨name, below, rfl, clean.1, plain, clean.2.2⟩
  · exact .inl slash

theorem SameString.length (same : SameString p q) : p.length = q.length := by
  obtain ⟨text, rest, rest', -, rfl, rfl, size⟩ := same
  simp [size]

theorem SameString.head (same : SameString p q) : p.head? = q.head? := by
  obtain ⟨text, rest, rest', -, rfl, rfl, -⟩ := same
  cases text <;> rfl

theorem untilNul_text (clean : 0 ∉ text) (rest : List UInt8) :
    untilNul (text ++ 0 :: rest) = text := by
  unfold untilNul
  rw [List.takeWhile_append_of_pos fun c member => decide_eq_true (p := c ≠ 0) fun zero =>
    clean (zero ▸ member)]
  simp

theorem SameString.untilNul (same : SameString p q) : untilNul p = untilNul q := by
  obtain ⟨text, rest, rest', clean, rfl, rfl, -⟩ := same
  rw [untilNul_text clean, untilNul_text clean]

theorem SameString.nul (same : SameString p q) : (0 : UInt8) ∈ p ∧ (0 : UInt8) ∈ q := by
  obtain ⟨text, rest, rest', -, rfl, rfl, -⟩ := same
  simp

end Components

/-! ### The walkers -/

section Walkers

variable {p q : List UInt8} {α : Type} {junk : Junk}

/-- Programs that start by cutting a component are the same when they go on alike: with the last
component whatever is behind it, with another one as long as the rests are the same string. -/
theorem cut_same {f g : Component → Fm α} (same : SameString p q)
    (last : ∀ name rest rest', f ⟨name, true, rest⟩ = g ⟨name, true, rest'⟩)
    (more : ∀ name rest rest', SameString rest rest' →
      f ⟨name, false, rest⟩ = g ⟨name, false, rest'⟩) :
    (cut p >>= f) = (cut q >>= g) := by
  obtain ⟨text, rest, rest', clean, rfl, rfl, size⟩ := same
  unfold cut
  rcases split_slash clean with plain | ⟨name, below, rfl, clean, plain, belowClean⟩
  · rw [component_nul clean plain, component_nul clean plain]
    exact last text rest rest'
  · rw [List.append_assoc, List.append_assoc, List.cons_append, List.cons_append,
      component_slash clean plain, component_slash clean plain]
    exact more name _ _ ⟨below, rest, rest', belowClean, rfl, rfl, size⟩

theorem resolve_same (same : SameString p q) (fuel : Nat) (dir : Int) :
    resolve fuel dir p = resolve fuel dir q := by
  induction fuel generalizing dir p q with
  | zero => rfl
  | succ fuel ih =>
      refine cut_same same (fun name rest rest' => rfl) fun name rest rest' same => ?_
      show (readDirEntry dir name >>= _) = (readDirEntry dir name >>= _)
      refine bind_congr fun entry => ?_
      cases entry with
      | none => rfl
      | some index => exact ih same index

theorem readInode_same (same : SameString p q) (dir : Int) : readInode dir p = readInode dir q := by
  unfold readInode
  rw [same.head, same.length, resolve_same same]

theorem createDir_same (same : SameString p q) (fuel : Nat) (dir : Int) :
    createDir junk fuel dir p = createDir junk fuel dir q := by
  induction fuel generalizing dir p q with
  | zero => rfl
  | succ fuel ih =>
      refine cut_same same (fun name rest rest' => rfl) fun name rest rest' same => ?_
      show (enterDir junk dir name >>= _) = (enterDir junk dir name >>= _)
      exact bind_congr fun next => ih same next

theorem createBelow_same (junk : Junk) (same : SameString p q) (vnode : Option Nat) (dir : Int) :
    createBelow junk vnode dir p = createBelow junk vnode dir q := by
  unfold createBelow dirPart filePart
  rw [if_pos same.nul.1, if_pos same.nul.2, same.length, same.untilNul]

theorem createLoop_same (same : SameString p q) (vnode : Option Nat) (fuel : Nat) (dir : Int) :
    createLoop junk vnode fuel dir p = createLoop junk vnode fuel dir q := by
  induction fuel generalizing dir p q with
  | zero => rfl
  | succ fuel ih =>
      have below := createBelow_same junk same vnode dir
      refine cut_same same (fun name rest rest' => rfl) fun name rest rest' same => ?_
      show (readDirEntry dir name >>= _) = (readDirEntry dir name >>= _)
      refine bind_congr fun entry => ?_
      cases entry with
      | none =>
          show (createBelow junk vnode dir p >>= _) = (createBelow junk vnode dir q >>= _)
          rw [below]
      | some index => exact ih same index

/-- Where a walk starts depends on the string alone. -/
theorem walkStart_text {text : List UInt8} (clean : 0 ∉ text) (currentDir : Int) :
    ∃ dir walked, 0 ∉ walked ∧ ∀ rest, walkStart currentDir (text ++ 0 :: rest) =
      (dir, walked ++ 0 :: rest) := by
  unfold walkStart
  cases text with
  | nil => exact ⟨currentDir, [], clean, fun rest => rfl⟩
  | cons c text =>
      by_cases slash : c = 47
      · subst slash
        exact ⟨0, text, fun nul => clean (List.mem_cons_of_mem _ nul), fun rest => rfl⟩
      · exact ⟨currentDir, c :: text, clean,
          fun rest => if_neg fun head => slash (Option.some.inj head)⟩

/-- Both walks start in one directory, with the same string. -/
theorem walkStart_same (same : SameString p q) (currentDir : Int) :
    (walkStart currentDir p).1 = (walkStart currentDir q).1 ∧
      SameString (walkStart currentDir p).2 (walkStart currentDir q).2 := by
  obtain ⟨text, rest, rest', clean, rfl, rfl, size⟩ := same
  obtain ⟨dir, walked, clean, start⟩ := walkStart_text clean currentDir
  rw [start rest, start rest']
  exact ⟨rfl, walked, rest, rest', clean, rfl, rfl, size⟩

theorem create_same (same : SameString p q) (currentDir : Int) (vnode : Option Nat) :
    create junk currentDir p vnode = create junk currentDir q vnode := by
  obtain ⟨start, walked⟩ := walkStart_same same currentDir
  unfold create
  show createLoop junk vnode (walkStart currentDir p).2.length (walkStart currentDir p).1 (walkStart
    currentDir p).2 = _
  rw [start, walked.length, createLoop_same walked]

theorem walkTo_same (same : SameString p q) (currentDir : Int) :
    walkTo currentDir p = walkTo currentDir q := by
  obtain ⟨start, walked⟩ := walkStart_same same currentDir
  unfold walkTo
  show (if (walkStart currentDir p).2.head? = some 0 then pure (some (walkStart currentDir p).1)
    else resolve (walkStart currentDir p).2.length (walkStart currentDir p).1
      (walkStart currentDir p).2) = _
  rw [start, walked.head, walked.length, resolve_same walked]

end Walkers

/-! ### Deletion -/

section Deletion

variable {p q text rest : List UInt8} {junk : Junk} {isFile : Bool} {fuel : Nat} {dir n : Int}
  {s s₁ : FmState}

/-- Where the walk of `read_inode` fails, that of `_delete_file` fails as well. -/
theorem deleteFile_error {e : Fault} (walk : resolve fuel dir p s = .error e s₁) :
    deleteFile junk isFile fuel false dir p s = .error e s₁ := by
  induction fuel generalizing dir p s with
  | zero =>
      cases walk
      rfl
  | succ fuel ih =>
      change (cut p >>= _) s = _ at walk
      show (cut p >>= _) s = _
      cases first : cut p s with
      | error e' s' =>
          rw [run_bind_error first] at walk ⊢
          cases walk
          rfl
      | ok here s₂ =>
          rw [run_bind first] at walk ⊢
          change (readDirEntry dir here.name >>= _) s₂ = _ at walk
          show (readDirEntry dir here.name >>= _) s₂ = _
          cases looked : readDirEntry dir here.name s₂ with
          | error e' s' =>
              rw [run_bind_error looked] at walk ⊢
              cases walk
              rfl
          | ok entry s₃ =>
              rw [run_bind looked] at walk ⊢
              cases entry with
              | none => cases walk
              | some index =>
                  cases last : here.last with
                  | true =>
                      simp only [last, if_true] at walk
                      cases walk
                  | false =>
                      simp only [last, Bool.false_eq_true, if_false, Bool.or_false] at walk ⊢
                      exact ih walk

/-- The end of the walk of `_delete_file`: the entry, and when it was deleted the loop once more,
behind the NUL. -/
theorem deleteFile_end (junk : Junk) (isFile : Bool) (clean : 0 ∉ text)
    (walk : resolve fuel dir (text ++ 0 :: rest) s = .ok (some n) s₁) :
    ∃ above name left, ∀ rest', deleteFile junk isFile fuel false dir (text ++ 0 :: rest') s =
      (deleteEntry junk isFile above name n >>= fun gone =>
        if gone then deleteFile junk isFile left true n rest' else pure ()) s₁ := by
  induction fuel generalizing dir text s with
  | zero => exact (throw_eq_ok.mp walk).elim
  | succ fuel ih =>
      obtain ⟨here, s₂, s₃, entry, first, looked, ⟨-, none, -⟩ | ⟨index, rfl, goes⟩⟩ :=
        resolve_succ walk
      · cases none
      unfold cut at first
      rcases split_slash clean with plain | ⟨name, below, rfl, clean, plain, belowClean⟩
      · rw [component_nul clean plain] at first
        obtain ⟨rfl, rfl⟩ := pure_eq_ok.mp first
        obtain ⟨-, found, rfl⟩ | ⟨more, -⟩ := goes
        · obtain rfl := Option.some.inj found
          refine ⟨dir, text, fuel, fun rest' => ?_⟩
          conv_lhs => unfold deleteFile cut
          rw [component_nul clean plain]
          show (readDirEntry dir text >>= _) s = _
          rw [run_bind looked]
          rfl
        · cases more
      · rw [List.append_assoc, List.cons_append, component_slash clean plain] at first
        obtain ⟨rfl, rfl⟩ := pure_eq_ok.mp first
        obtain ⟨last, -⟩ | ⟨-, walk⟩ := goes
        · cases last
        obtain ⟨above, entry, left, ends⟩ := ih belowClean walk
        refine ⟨above, entry, left, fun rest' => ?_⟩
        rw [← ends rest']
        conv_lhs => unfold deleteFile cut
        rw [List.append_assoc, List.cons_append, component_slash clean plain]
        show (readDirEntry dir name >>= _) s = _
        rw [run_bind looked]
        rfl

/-- `_delete_file` has a right to delete an inode of this type. -/
def Deletable (isFile : Bool) (type : Int) : Prop :=
  ¬ (isFile = true ∧ type = dirType) ∧ ¬ (isFile = false ∧ type = plainType)

theorem readInodeFromDisk_eq_ok {inode : INode} (read : readInodeFromDisk n s = .ok inode s₁) :
    inode = diskInode s.disk n ∧ s₁ = s := by
  unfold readInodeFromDisk at read
  split at read
  · obtain ⟨t, t', got, read⟩ := bind_eq_ok.mp read
    obtain ⟨rfl, rfl⟩ := get_eq_ok.mp got
    obtain ⟨rfl, rfl⟩ := pure_eq_ok.mp read
    exact ⟨rfl, rfl⟩
  · exact (throw_eq_ok.mp read).elim

theorem deleteEntry_eq_ok {above : Int} {name : List UInt8} {gone : Bool}
    (run : deleteEntry junk isFile above name n s = .ok gone s₁) :
    gone = true ↔ Deletable isFile (diskInode s.disk n).type := by
  obtain ⟨inode, s₂, read, run⟩ := bind_eq_ok.mp run
  obtain ⟨rfl, rfl⟩ := readInodeFromDisk_eq_ok read
  by_cases file : isFile = true ∧ (diskInode s₂.disk n).type = dirType
  · rw [if_pos file] at run
    obtain ⟨rfl, -⟩ := pure_eq_ok.mp run
    exact ⟨fun gone => (by cases gone), fun allowed => absurd file allowed.1⟩
  · rw [if_neg file] at run
    by_cases isDir : isFile = false ∧ (diskInode s₂.disk n).type = plainType
    · rw [if_pos isDir] at run
      obtain ⟨rfl, -⟩ := pure_eq_ok.mp run
      exact ⟨fun gone => (by cases gone), fun allowed => absurd isDir allowed.2⟩
    · rw [if_neg isDir] at run
      obtain ⟨_, _, -, run⟩ := bind_eq_ok.mp run
      obtain ⟨_, _, -, run⟩ := bind_eq_ok.mp run
      exact ⟨fun _ => ⟨file, isDir⟩, fun _ => (pure_eq_ok.mp run).1.symm⟩

/-- Where nothing is deleted, `_delete_file` does not look behind the NUL. -/
theorem deleteFile_same (same : SameString p q)
    (stops : ∀ n s₁, resolve fuel dir p s = .ok (some n) s₁ →
      ¬ Deletable isFile (diskInode s.disk n).type) :
    deleteFile junk isFile fuel false dir p s = deleteFile junk isFile fuel false dir q s := by
  have walks := resolve_same same fuel dir
  cases walk : resolve fuel dir p s with
  | error e s₁ => rw [deleteFile_error walk, deleteFile_error (walks ▸ walk)]
  | ok found s₁ =>
      cases found with
      | none => rw [deleteFile_missing walk, deleteFile_missing (walks ▸ walk)]
      | some n =>
          have refused := stops n s₁ walk
          have disk := disk_of_core (resolve_core _ _ _ walk)
          obtain ⟨text, rest, rest', clean, rfl, rfl, -⟩ := same
          obtain ⟨above, name, left, ends⟩ := deleteFile_end junk isFile clean walk
          rw [ends rest, ends rest']
          cases entry : deleteEntry junk isFile above name n s₁ with
          | error e s₂ => rw [run_bind_error entry, run_bind_error entry]
          | ok gone s₂ =>
              have kept : gone = false := by
                rw [← Bool.not_eq_true, deleteEntry_eq_ok entry, disk]
                exact refused
              rw [run_bind entry, run_bind entry, kept]
              rfl

theorem component_last {c : Component} (found : component p = some c) :
    (c.last = true → 0 ∈ p) ∧ (0 ∈ c.rest → 0 ∈ p) := by
  induction p generalizing c with
  | nil => cases found
  | cons b p ih =>
      unfold component at found
      split at found
      · obtain rfl : b = 0 := ‹_›
        simp
      · split at found
        · cases found
          exact ⟨fun last => (by cases last), fun below => List.mem_cons_of_mem _ below⟩
        · obtain ⟨c, below, rfl⟩ := Option.map_eq_some_iff.mp found
          exact ⟨fun last => List.mem_cons_of_mem _ ((ih below).1 last),
            fun nul => List.mem_cons_of_mem _ ((ih below).2 nul)⟩

/-- A walk that ends well has found a NUL. -/
theorem resolve_nul (walk : resolve fuel dir p s = .ok (some n) s₁) : 0 ∈ p := by
  induction fuel generalizing dir p s with
  | zero => exact (throw_eq_ok.mp walk).elim
  | succ fuel ih =>
      obtain ⟨here, s₂, s₃, entry, first, looked, ⟨-, none, -⟩ | ⟨index, rfl, goes⟩⟩ :=
        resolve_succ walk
      · cases none
      unfold cut at first
      cases cuts : component p with
      | none =>
          rw [cuts] at first
          exact (throw_eq_ok.mp first).elim
      | some found =>
        rw [cuts] at first
        obtain ⟨rfl, -⟩ := pure_eq_ok.mp first
        obtain ⟨last, -⟩ | ⟨-, walk⟩ := goes
        · exact (component_last cuts).1 last
        · exact (component_last cuts).2 (ih walk)

theorem component_none (clean : 0 ∉ text) (plain : 47 ∉ text) : component text = none := by
  induction text with
  | nil => rfl
  | cons c text ih =>
      rw [List.mem_cons, not_or] at clean plain
      rw [component, if_neg (Ne.symm clean.1), if_neg (Ne.symm plain.1), ih clean.2 plain.2]
      rfl

/-- Behind a deletion the loop needs a `/` or another NUL in the buffer. -/
theorem deleteFile_behind (clean : 0 ∉ text)
    (walk : resolve fuel dir (text ++ 0 :: rest) s = .ok (some n) s₁)
    (allowed : Deletable isFile (diskInode s.disk n).type) {rest' : List UInt8} (nul : 0 ∉ rest')
    (slash : 47 ∉ rest') (s' : FmState) :
    deleteFile junk isFile fuel false dir (text ++ 0 :: rest') s ≠ .ok () s' := by
  intro run
  have disk := disk_of_core (resolve_core _ _ _ walk)
  obtain ⟨above, name, left, ends⟩ := deleteFile_end junk isFile clean walk
  rw [ends rest'] at run
  obtain ⟨gone, s₂, entry, run⟩ := bind_eq_ok.mp run
  have deleted : gone = true := (deleteEntry_eq_ok entry).mpr (disk ▸ allowed)
  rw [deleted, if_pos rfl] at run
  cases left with
  | zero => exact throw_eq_ok.mp run
  | succ left =>
      obtain ⟨here, s₃, first, -⟩ := bind_eq_ok.mp run
      unfold cut at first
      rw [component_none nul slash] at first
      exact throw_eq_ok.mp first

/-- The path leads to an inode that `_delete_file` deletes. -/
def Reaches (s : FmState) (src : Nat) (path : List UInt8) (isFile : Bool) : Prop :=
  ∃ n s₁, resolve (walkStart (s.pcbs src).currentDir path).2.length
    (walkStart (s.pcbs src).currentDir path).1
    (walkStart (s.pcbs src).currentDir path).2 s = .ok (some n) s₁ ∧
    Deletable isFile (diskInode s.disk n).type

/-- Such a path is a string in a buffer. -/
theorem Reaches.terminated {src : Nat} (reaches : Reaches s src p isFile) :
    ∃ text rest, 0 ∉ text ∧ p = text ++ 0 :: rest := by
  obtain ⟨n, s₁, walk, -⟩ := reaches
  have nul := resolve_nul walk
  have inside : 0 ∈ p := by
    unfold walkStart at nul
    split at nul
    · exact List.mem_of_mem_tail nul
    · exact nul
  obtain ⟨text, rest, is, clean⟩ := List.eq_append_cons_of_mem inside
  exact ⟨text, rest, clean, is⟩

end Deletion

/-! ### The handlers -/

/-- Nothing follows the NUL. -/
def NulLast (path : List UInt8) : Prop := ∃ text, 0 ∉ text ∧ path = text ++ [0]

/-- The request does not look behind the NUL of its path. -/
def StopsAtNul (s : FmState) (src : Nat) : Request → Prop
  | .delete path => ¬ Reaches s src path true ∨ NulLast path
  | .rmdir path => ¬ Reaches s src path false ∨ NulLast path
  | _ => True

section Handlers

variable {p q : List UInt8} {src : Nat} {s : FmState} {junk : Junk}

theorem NulLast.eq (last : NulLast p) (same : SameString p q) : q = p := by
  obtain ⟨text', clean', is⟩ := last
  obtain ⟨text, rest, rest', clean, rfl, rfl, size⟩ := same
  have texts : text = text' := by rw [← untilNul_text clean rest, is, untilNul_text clean']
  subst texts
  obtain rfl := (List.cons.inj (List.append_cancel_left is)).2
  rw [List.length_eq_zero_iff.mp size.symm]

theorem fmOpen_same (same : SameString p q) (flag : Int) :
    fmOpen junk src p flag = fmOpen junk src q flag := by
  unfold fmOpen
  refine bind_congr fun pcb => ?_
  obtain ⟨start, walked⟩ := walkStart_same same pcb.currentDir
  have looks : readInode (walkStart pcb.currentDir p).1 (walkStart pcb.currentDir p).2 =
      readInode (walkStart pcb.currentDir q).1 (walkStart pcb.currentDir q).2 := by
    rw [start, readInode_same walked]
  have makes : vnodeFor junk pcb p = vnodeFor junk pcb q := by
    funext found
    cases found with
    | some v => rfl
    | none =>
        unfold vnodeFor
        refine bind_congr fun v => ?_
        rw [create_same same]
  show (readInode (walkStart pcb.currentDir p).1 (walkStart pcb.currentDir p).2 >>= _) = _
  rw [looks, makes]

theorem fmCreate_same (same : SameString p q) : fmCreate junk src p = fmCreate junk src q := by
  unfold fmCreate
  refine bind_congr fun pcb => ?_
  rw [create_same same]

theorem fmMkdir_same (same : SameString p q) : fmMkdir junk src p = fmMkdir junk src q := by
  unfold fmMkdir
  refine bind_congr fun pcb => ?_
  obtain ⟨start, walked⟩ := walkStart_same same pcb.currentDir
  show (createDir junk (walkStart pcb.currentDir p).2.length (walkStart pcb.currentDir p).1
    (walkStart pcb.currentDir p).2 >>= _) = _
  rw [start, walked.length, createDir_same walked]

theorem fmLsdir_same (same : SameString p q) : fmLsdir src p = fmLsdir src q := by
  unfold fmLsdir
  refine bind_congr fun pcb => ?_
  rw [walkTo_same same]

theorem fmChdir_same (same : SameString p q) : fmChdir src p = fmChdir src q := by
  unfold fmChdir
  refine bind_congr fun pcb => ?_
  rw [walkTo_same same, same.head]

/-- DELETE and RMDIR behind the process's record. -/
def deleteWalk (junk : Junk) (isFile : Bool) (currentDir : Int) (path : List UInt8) : Fm Unit :=
  deleteFile junk isFile (walkStart currentDir path).2.length false (walkStart currentDir path).1
    (walkStart currentDir path).2

theorem fmDeleteFile_run (process : src < 50) : fmDeleteFile junk src p s =
    (deleteWalk junk true (s.pcbs src).currentDir p >>= fun _ => pure { dest := src, ret := 0 })
      s := by
  unfold fmDeleteFile
  rw [run_bind (fetchPcb_ok process)]
  rfl

theorem fmRmdir_run (process : src < 50) : fmRmdir junk src p s =
    (deleteWalk junk false (s.pcbs src).currentDir p >>= fun _ => pure { dest := src, ret := 0 })
      s := by
  unfold fmRmdir
  rw [run_bind (fetchPcb_ok process)]
  rfl

theorem fetchPcb_error (none : ¬ src < 50) : fetchPcb src s = .error .panic s := by
  unfold fetchPcb
  rw [if_neg none]
  rfl

/-- A deletion that does not look behind the NUL. -/
theorem deleteWalk_same {isFile : Bool} (same : SameString p q)
    (stops : ¬ Reaches s src p isFile ∨ NulLast p) :
    deleteWalk junk isFile (s.pcbs src).currentDir p s =
      deleteWalk junk isFile (s.pcbs src).currentDir q s := by
  rcases stops with nothing | last
  · obtain ⟨start, walked⟩ := walkStart_same same (s.pcbs src).currentDir
    unfold deleteWalk
    rw [← start, ← walked.length]
    exact deleteFile_same walked fun n s₁ walk allowed => nothing ⟨n, s₁, walk, allowed⟩
  · rw [last.eq same]

theorem fmDeleteFile_same (same : SameString p q) (stops : ¬ Reaches s src p true ∨ NulLast p) :
    fmDeleteFile junk src p s = fmDeleteFile junk src q s := by
  by_cases process : src < 50
  · rw [fmDeleteFile_run process, fmDeleteFile_run process]
    exact run_bind_congr (deleteWalk_same same stops)
  · unfold fmDeleteFile
    rw [run_bind_error (fetchPcb_error process), run_bind_error (fetchPcb_error process)]

theorem fmRmdir_same (same : SameString p q) (stops : ¬ Reaches s src p false ∨ NulLast p) :
    fmRmdir junk src p s = fmRmdir junk src q s := by
  by_cases process : src < 50
  · rw [fmRmdir_run process, fmRmdir_run process]
    exact run_bind_congr (deleteWalk_same same stops)
  · unfold fmRmdir
    rw [run_bind_error (fetchPcb_error process), run_bind_error (fetchPcb_error process)]

/-- The string, followed by letters. -/
def lettersBehind (text : List UInt8) (size : Nat) : List UInt8 :=
  text ++ 0 :: List.replicate size 97

theorem same_lettersBehind {text : List UInt8} (clean : 0 ∉ text) (rest : List UInt8) :
    SameString (text ++ 0 :: rest) (lettersBehind text rest.length) :=
  ⟨text, rest, _, clean, rfl, rfl, List.length_replicate.symm⟩

/-- A deletion with letters behind the NUL runs off the buffer. -/
theorem deleteWalk_letters {isFile : Bool} {text rest : List UInt8} (clean : 0 ∉ text)
    (reaches : Reaches s src (text ++ 0 :: rest) isFile) (s' : FmState) :
    deleteWalk junk isFile (s.pcbs src).currentDir (lettersBehind text rest.length) s ≠
      .ok () s' := by
  obtain ⟨n, s₁, walk, allowed⟩ := reaches
  obtain ⟨dir, walked, clean, start⟩ := walkStart_text clean (s.pcbs src).currentDir
  rw [start rest] at walk
  have size : (walked ++ 0 :: List.replicate rest.length (97 : UInt8)).length =
    (walked ++ 0 :: rest).length := by simp
  unfold deleteWalk lettersBehind
  rw [start (List.replicate rest.length 97)]
  show deleteFile junk isFile (walked ++ 0 :: List.replicate rest.length
    (97 : UInt8)).length _ _ _ s ≠ _
  rw [size]
  exact deleteFile_behind clean walk allowed (by simp) (by simp) s'

/-- With letters behind the NUL neither DELETE nor RMDIR ends well when it deletes something. -/
theorem handle_letters {text rest : List UInt8} (clean : 0 ∉ text) {reply : Option Reply}
    {s' : FmState} (process : src < 50) :
    (Reaches s src (text ++ 0 :: rest) true →
      handle junk src (.delete (lettersBehind text rest.length)) s ≠ .ok reply s') ∧
      (Reaches s src (text ++ 0 :: rest) false →
        handle junk src (.rmdir (lettersBehind text rest.length)) s ≠ .ok reply s') := by
  refine ⟨fun reaches run => ?_, fun reaches run => ?_⟩
  · change (some <$> fmDeleteFile junk src _) s = _ at run
    rw [map_eq_pure_bind] at run
    obtain ⟨_, s₁, run, -⟩ := bind_eq_ok.mp run
    rw [fmDeleteFile_run process] at run
    obtain ⟨_, s₂, run, -⟩ := bind_eq_ok.mp run
    exact deleteWalk_letters clean reaches s₂ run
  · change (some <$> fmRmdir junk src _) s = _ at run
    rw [map_eq_pure_bind] at run
    obtain ⟨_, s₁, run, -⟩ := bind_eq_ok.mp run
    rw [fmRmdir_run process] at run
    obtain ⟨_, s₂, run, -⟩ := bind_eq_ok.mp run
    exact deleteWalk_letters clean reaches s₂ run

/-- Behind a reply there is a process. -/
theorem process_of_reply {reply : Option Reply} {s' : FmState} :
    (handle junk src (.delete p) s = .ok reply s' → src < 50) ∧
    (handle junk src (.rmdir p) s = .ok reply s' → src < 50) := by
  refine ⟨fun run => ?_, fun run => ?_⟩
  all_goals
    by_contra none
    rw [handle, map_eq_pure_bind] at run
    obtain ⟨_, s₁, run, -⟩ := bind_eq_ok.mp run
    obtain ⟨_, s₂, run, -⟩ := bind_eq_ok.mp run
    rw [fetchPcb_error none] at run
    cases run

theorem map_run_congr {x y : Fm Reply} (same : x s = y s) :
    (some <$> x : Fm (Option Reply)) s = (some <$> y : Fm (Option Reply)) s := by
  rw [map_eq_pure_bind, map_eq_pure_bind]
  exact run_bind_congr same

theorem handle_same {request request' : Request} (alike : Alike request request')
    (stops : StopsAtNul s src request) :
    handle junk src request' s = handle junk src request s := by
  cases alike with
  | «open» flag same => exact map_run_congr (congrFun (fmOpen_same same flag).symm s)
  | create same => exact map_run_congr (congrFun (fmCreate_same same).symm s)
  | mkdir same => exact map_run_congr (congrFun (fmMkdir_same same).symm s)
  | delete same => exact map_run_congr (fmDeleteFile_same same stops).symm
  | rmdir same => exact map_run_congr (fmRmdir_same same stops).symm
  | lsdir same => exact map_run_congr (congrFun (fmLsdir_same same).symm s)
  | chdir same => exact map_run_congr (congrFun (fmChdir_same same).symm s)

end Handlers

/-- **Paths end at their NUL.** Whatever the request and the state: when nothing is deleted, or
nothing follows the NUL, every request that is alike has the same effect and gives the same reply;
and when the request is answered and every alike one has this effect and this answer, nothing was
deleted or nothing follows the NUL. -/
theorem nul_ends_iff (s : FmState) (junk : Junk) (src : Nat) (request : Request) :
    (StopsAtNul s src request → ∀ request', Alike request request' →
      handle junk src request' s = handle junk src request s) ∧
    (∀ reply s', handle junk src request s = .ok reply s' →
      (∀ request', Alike request request' → handle junk src request' s = .ok reply s') →
      StopsAtNul s src request) := by
  refine ⟨fun stops request' alike => handle_same alike stops, fun reply s' run all => ?_⟩
  unfold StopsAtNul
  split
  · rename_i path
    by_contra goes
    rw [not_or, not_not] at goes
    obtain ⟨text, rest, clean, rfl⟩ := (Reaches.terminated goes.1)
    exact (handle_letters clean (process_of_reply.1 run)).1 goes.1
      (all _ (.delete (same_lettersBehind clean rest)))
  · rename_i path
    by_contra goes
    rw [not_or, not_not] at goes
    obtain ⟨text, rest, clean, rfl⟩ := (Reaches.terminated goes.1)
    exact (handle_letters clean (process_of_reply.2 run)).2 goes.1
      (all _ (.rmdir (same_lettersBehind clean rest)))
  · trivial

/-- A file "/a" and a directory "/d". -/
def folderState : FmState :=
  lastState (serveFromBoot blockJunk [(1, .create (pathBuffer [47, 97])),
    (1, .mkdir (pathBuffer [47, 100]))]) zeroState

theorem reachable_folderState : Reachable folderState := by
  have ends : (outcome (serveFromBoot blockJunk
      [(1, .create (pathBuffer [47, 97])), (1, .mkdir (pathBuffer [47, 100]))]) zeroState).isSome =
      true := by
    decide +kernel
  obtain ⟨replies, is⟩ := Option.isSome_iff_exists.mp ends
  exact reachable_serveFromBoot (run_of_outcome is)

/-- Two buffers with the path "/d", one with ".." behind the NUL: RMDIR on the second deletes the
root as well. -/
theorem path_behind_nul :
    ¬ ∀ s, Reachable s → ∀ (junk : Junk) (src : Nat) (p q : List UInt8), p.length = 256 →
    SameString p q → handle junk src (.rmdir q) s = handle junk src (.rmdir p) s := by
  intro all
  have same : SameString (pathBuffer [47, 100]) (pathBuffer [47, 100, 0, 46, 46]) :=
    ⟨[47, 100], List.replicate 253 0, 46 :: 46 :: List.replicate 251 0,
      by decide, by decide +kernel, by decide +kernel,
      by decide +kernel⟩
  have runs := all folderState reachable_folderState blockJunk 1 _ _ (by decide +kernel) same
  have root : (lastState (handle blockJunk 1 (.rmdir (pathBuffer [47, 100])))
      folderState).inodeBitmap 0 = true := by
    decide +kernel
  have gone : (lastState (handle blockJunk 1 (.rmdir (pathBuffer [47, 100, 0, 46, 46])))
    folderState).inodeBitmap 0 =
      false := by
    decide +kernel
  unfold lastState at root gone
  rw [runs] at gone
  rw [root] at gone
  cases gone

end NjuOs.FileSystem
