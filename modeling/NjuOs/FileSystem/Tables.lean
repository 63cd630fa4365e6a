/-
**The vnode table, the open-file table and the descriptor tables.**

What each operation on these tables can do, once for every operation: the states a run that ends
well can lead to. Every invariant about counts, lists and descriptors is proved from these and never
unfolds an operation.
-/

import NjuOs.FileSystem.SharedFile
import NjuOs.FileSystem.Writers

namespace NjuOs.FileSystem

open NjuOs.Lib

/-! ### The states the operations lead to -/

namespace FmState

/-- The count of a vnode goes up by `d`. -/
def addVnode (s : FmState) (v : Nat) (d : Int) : FmState :=
  { s with vnodes := Function.update s.vnodes v { s.vnodes v with
    count := (s.vnodes v).count + d } }

/-- The count of an open file goes up by `d`. -/
def addFile (s : FmState) (e : Nat) (d : Int) : FmState :=
  { s with files := Function.update s.files e { s.files e with count := (s.files e).count + d } }

/-- The record of `v` goes to the disk and `v` to the free list. -/
def retire (s : FmState) (v : Nat) : FmState :=
  { s with
    disk := s.disk.writeWords (inodeAddr (s.vnodes v).index).toNat 19 (s.vnodes v).inode.words
    activeVnodeList := s.activeVnodeList.erase v
    freeVnodeList := v :: s.freeVnodeList }

/-- An entry goes to the front of the free list. -/
def freeEntry (s : FmState) (e : Nat) :
    FmState := { s with freeOpenFileList := e :: s.freeOpenFileList }

/-- The first free vnode taken. -/
def takeVnode (s : FmState) (v : Nat) (rest : List Nat) : FmState :=
  { s with
    freeVnodeList := rest
    activeVnodeList := s.activeVnodeList ++ [v]
    vnodes := Function.update s.vnodes v { s.vnodes v with count := 1 } }

/-- Another vnode. -/
def setVnode (s : FmState) (v : Nat) (vnode : Vnode) : FmState :=
  { s with vnodes := Function.update s.vnodes v vnode }

/-- The first free entry taken. -/
def takeEntry (s : FmState) (e : Nat) (rest : List Nat) : FmState :=
  { s with
    freeOpenFileList := rest
    files := Function.update s.files e { s.files e with count := 1 } }

/-- Another open file. -/
def setFile (s : FmState) (e : Nat) (file : OpenFile) : FmState :=
  { s with files := Function.update s.files e file }

/-- Another process's part. -/
def setPcb (s : FmState) (pid : Nat) (pcb : Pcb) : FmState :=
  { s with pcbs := Function.update s.pcbs pid pcb }

/-- Another slot of a descriptor table. -/
def setSlot (s : FmState) (pid fd : Nat) (entry : Option Nat) : FmState :=
  s.setPcb pid { s.pcbs pid with fdTable := Function.update (s.pcbs pid).fdTable fd entry }

end FmState

section Tables

variable {s s' : FmState} {v e : Nat}

/-! ### Vnodes -/

theorem releaseKernelVnode_cases {u : Unit} (run : releaseKernelVnode v s = .ok u s') :
    ((s.vnodes v).count ≠ 1 ∧ s' = s.addVnode v (-1)) ∨
      ((s.vnodes v).count = 1 ∧ s' = (s.addVnode v (-1)).retire v) := by
  obtain ⟨_, s₁, first, run⟩ := bind_eq_ok.mp run
  obtain rfl := modify_eq_ok.mp first
  obtain ⟨_, _, got, run⟩ := bind_eq_ok.mp run
  obtain ⟨rfl, rfl⟩ := get_eq_ok.mp got
  simp only [Function.update_self] at run
  split at run
  · next zero =>
    obtain ⟨_, s₂, wrote, run⟩ := bind_eq_ok.mp run
    refine .inr ⟨by omega, ?_⟩
    unfold writeInodeToDisk at wrote
    split at wrote
    · obtain rfl := modify_eq_ok.mp wrote
      obtain rfl := modify_eq_ok.mp run
      simp [FmState.addVnode, FmState.retire, Int.sub_eq_add_neg]
    · exact (throw_eq_ok.mp wrote).elim
  · next more =>
    obtain ⟨_, rfl⟩ := pure_eq_ok.mp run
    exact .inl ⟨by omega, by simp [FmState.addVnode, Int.sub_eq_add_neg]⟩

theorem getFreeVnode_cases (run : getFreeVnode s = .ok v s') :
    ∃ rest, s.freeVnodeList = v :: rest ∧ s' = s.takeVnode v rest := by
  obtain ⟨_, _, got, run⟩ := bind_eq_ok.mp run
  obtain ⟨rfl, rfl⟩ := get_eq_ok.mp got
  cases free : s.freeVnodeList with
  | nil =>
      rw [free] at run
      exact (throw_eq_ok.mp run).elim
  | cons first rest =>
      rw [free] at run
      obtain ⟨_, s₁, stored, run⟩ := bind_eq_ok.mp run
      obtain ⟨rfl, rfl⟩ := pure_eq_ok.mp run
      obtain rfl := set_eq_ok.mp stored
      exact ⟨rest, rfl, rfl⟩

theorem getFreeVnode_ok {rest : List Nat} (free : s.freeVnodeList = v :: rest) :
    getFreeVnode s = .ok v (s.takeVnode v rest) := by
  unfold getFreeVnode
  rw [run_bind run_get]
  dsimp only
  rw [free]
  rfl

/-- The vnode of an inode number: the active one that carries it, or a fresh one filled from
disk. -/
theorem openVnode_cases {index : Int} (run : openVnode index s = .ok v s') :
    (searchVnodeByIndex s index = some v ∧ s' = s.addVnode v 1) ∨
      (searchVnodeByIndex s index = none ∧ ∃ rest, s.freeVnodeList = v :: rest ∧
        s' = (s.takeVnode v rest).setVnode v
          { index, inode := diskInode s.disk index, count := 1 }) := by
  obtain ⟨_, _, got, run⟩ := bind_eq_ok.mp run
  obtain ⟨rfl, rfl⟩ := get_eq_ok.mp got
  cases found : searchVnodeByIndex s index with
  | some v' =>
      rw [found] at run
      obtain ⟨_, s₁, counted, run⟩ := bind_eq_ok.mp run
      obtain ⟨rfl, rfl⟩ := pure_eq_ok.mp run
      obtain rfl := modify_eq_ok.mp counted
      exact .inl ⟨rfl, rfl⟩
  | none =>
      rw [found] at run
      obtain ⟨v', s₁, taken, run⟩ := bind_eq_ok.mp run
      obtain ⟨rest, free, rfl⟩ := getFreeVnode_cases taken
      obtain ⟨_, s₂, named, run⟩ := bind_eq_ok.mp run
      obtain rfl := modify_eq_ok.mp named
      obtain ⟨inode, s₃, read, run⟩ := bind_eq_ok.mp run
      obtain ⟨_, s₄, filled, run⟩ := bind_eq_ok.mp run
      obtain ⟨rfl, rfl⟩ := pure_eq_ok.mp run
      obtain rfl := modify_eq_ok.mp filled
      unfold readInodeFromDisk at read
      split at read
      · obtain ⟨_, _, got, read⟩ := bind_eq_ok.mp read
        obtain ⟨rfl, rfl⟩ := get_eq_ok.mp got
        obtain ⟨rfl, rfl⟩ := pure_eq_ok.mp read
        exact .inr ⟨rfl, rest, free, by simp [FmState.takeVnode, FmState.setVnode]⟩
      · exact (throw_eq_ok.mp read).elim

/-! ### Open-file entries -/

theorem getFreeFileEntry_cases (run : getFreeFileEntry s = .ok e s') :
    ∃ rest, s.freeOpenFileList = e :: rest ∧ s' = s.takeEntry e rest := by
  obtain ⟨_, _, got, run⟩ := bind_eq_ok.mp run
  obtain ⟨rfl, rfl⟩ := get_eq_ok.mp got
  cases free : s.freeOpenFileList with
  | nil =>
      rw [free] at run
      exact (throw_eq_ok.mp run).elim
  | cons first rest =>
      rw [free] at run
      obtain ⟨_, s₁, stored, run⟩ := bind_eq_ok.mp run
      obtain ⟨rfl, rfl⟩ := pure_eq_ok.mp run
      obtain rfl := set_eq_ok.mp stored
      exact ⟨rest, rfl, rfl⟩

/-- An entry that is given up by its last descriptor gives up its vnode. -/
theorem releaseFileEntry_cases {u : Unit} (run : releaseFileEntry e s = .ok u s') :
    ((s.files e).count ≠ 1 ∧ s' = s.addFile e (-1)) ∨
      ((s.files e).count = 1 ∧ ∃ s₁,
        releaseKernelVnode (s.files e).vnode (s.addFile e (-1)) = .ok () s₁ ∧
        s' = s₁.freeEntry e) := by
  obtain ⟨_, s₁, first, run⟩ := bind_eq_ok.mp run
  obtain rfl := modify_eq_ok.mp first
  obtain ⟨_, _, got, run⟩ := bind_eq_ok.mp run
  obtain ⟨rfl, rfl⟩ := get_eq_ok.mp got
  simp only [Function.update_self] at run
  split at run
  · next zero =>
    obtain ⟨_, s₂, released, run⟩ := bind_eq_ok.mp run
    obtain rfl := modify_eq_ok.mp run
    exact .inr ⟨by omega, s₂, by simpa [FmState.addFile, Int.sub_eq_add_neg] using released, rfl⟩
  · next more =>
    obtain ⟨_, rfl⟩ := pure_eq_ok.mp run
    exact .inl ⟨by omega, by simp [FmState.addFile, Int.sub_eq_add_neg]⟩

/-! ### Descriptors -/

theorem fetchPcb_cases {pid : Nat} {pcb : Pcb} (run : fetchPcb pid s = .ok pcb s') :
    pid < 50 ∧ pcb = s.pcbs pid ∧ s = s' := by
  unfold fetchPcb at run
  split at run
  · next process =>
    obtain ⟨_, _, got, run⟩ := bind_eq_ok.mp run
    obtain ⟨rfl, rfl⟩ := get_eq_ok.mp got
    obtain ⟨rfl, rfl⟩ := pure_eq_ok.mp run
    exact ⟨process, rfl, rfl⟩
  · exact (throw_eq_ok.mp run).elim

theorem fdSlot_cases {pcb : Pcb} {fd : Int} {slot : Option Nat}
    (run : fdSlot pcb fd s = .ok slot s') :
    0 ≤ fd ∧ fd < 100 ∧ slot = pcb.fdTable fd.toNat ∧ s = s' := by
  unfold fdSlot at run
  split at run
  · next inside =>
    obtain ⟨rfl, rfl⟩ := pure_eq_ok.mp run
    exact ⟨inside.1, inside.2, rfl, rfl⟩
  · exact (throw_eq_ok.mp run).elim

theorem freeFd_cases {table : Nat → Option Nat} {minFd fd : Nat}
    (run : freeFd table minFd s = .ok fd s') :
    firstIdle (fun i => (table i).isSome) 100 100 minFd = some fd ∧ s = s' := by
  unfold freeFd at run
  cases found : firstIdle (fun i => (table i).isSome) 100 100 minFd with
  | none =>
      rw [found] at run
      exact (throw_eq_ok.mp run).elim
  | some fd' =>
      rw [found] at run
      obtain ⟨rfl, rfl⟩ := pure_eq_ok.mp run
      exact ⟨rfl, rfl⟩

/-- An entry and a descriptor for a vnode. -/
theorem attach_cases {src v : Nat} {reply : Reply} (run : attach src v s = .ok reply s') :
    ∃ e rest fd, s.freeOpenFileList = e :: rest ∧
      firstIdle (fun i => ((s.pcbs src).fdTable i).isSome) 100 100 (s.pcbs src).minFd = some fd ∧
      reply = { dest := src, ret := fd } ∧
      s' = ((s.takeEntry e rest).setFile e { vnode := v, offset := 0, count := 1 }).setPcb src
        { s.pcbs src with
          fdTable := Function.update (s.pcbs src).fdTable fd (some e)
          minFd := (fd + 1) % 100 } := by
  obtain ⟨e, s₁, taken, run⟩ := bind_eq_ok.mp run
  obtain ⟨rest, free, rfl⟩ := getFreeFileEntry_cases taken
  obtain ⟨_, s₂, filled, run⟩ := bind_eq_ok.mp run
  obtain rfl := modify_eq_ok.mp filled
  obtain ⟨_, _, got, run⟩ := bind_eq_ok.mp run
  obtain ⟨rfl, rfl⟩ := get_eq_ok.mp got
  obtain ⟨fd, s₃, found, run⟩ := bind_eq_ok.mp run
  obtain ⟨idle, rfl⟩ := freeFd_cases found
  obtain ⟨_, s₄, stored, run⟩ := bind_eq_ok.mp run
  obtain rfl := modify_eq_ok.mp stored
  obtain ⟨rfl, rfl⟩ := pure_eq_ok.mp run
  exact ⟨e, rest, fd, free, idle, rfl, rfl⟩

/-- It goes well when there is a free entry, and the search finds a free slot. -/
theorem attach_ok {src e fd : Nat} {rest : List Nat} (v : Nat)
    (entry : s.freeOpenFileList = e :: rest)
    (idle : firstIdle (fun i => ((s.pcbs src).fdTable i).isSome) 100 100 (s.pcbs src).minFd =
      some fd) :
    attach src v s = .ok { dest := src, ret := fd }
      (((s.takeEntry e rest).setFile e { vnode := v, offset := 0, count := 1 }).setPcb src
        { s.pcbs src with
          fdTable := Function.update (s.pcbs src).fdTable fd (some e)
          minFd := (fd + 1) % 100 }) := by
  have taken : getFreeFileEntry s = .ok e (s.takeEntry e rest) := by
    unfold getFreeFileEntry
    rw [run_bind run_get]
    dsimp only
    rw [entry]
    rfl
  have found : ∀ t, freeFd (s.pcbs src).fdTable (s.pcbs src).minFd t = .ok fd t := by
    intro t
    unfold freeFd
    rw [idle]
    rfl
  unfold attach
  rw [run_bind taken]
  show (freeFd (s.pcbs src).fdTable (s.pcbs src).minFd >>= _)
    ((s.takeEntry e rest).setFile e { vnode := v, offset := 0, count := 1 }) = _
  rw [run_bind (found _)]
  rfl

theorem readInode_cases {dir : Int} {path : List UInt8} {found : Option Nat}
    (run : readInode dir path s = .ok found s') :
    (found = none ∧ s'.core = s.core ∧
      (path.head? = some 0 ∨ resolve path.length dir path s = .ok none s')) ∨
      ∃ v index s₁, found = some v ∧ resolve path.length dir path s = .ok (some index) s₁ ∧
        s₁.core = s.core ∧ openVnode index s₁ = .ok v s' := by
  unfold readInode at run
  split at run
  · obtain ⟨rfl, rfl⟩ := pure_eq_ok.mp run
    exact .inl ⟨rfl, rfl, .inl ‹_›⟩
  · obtain ⟨index, s₁, walked, run⟩ := bind_eq_ok.mp run
    cases index with
    | none =>
        obtain ⟨rfl, rfl⟩ := pure_eq_ok.mp run
        exact .inl ⟨rfl, resolve_core _ _ _ walked, .inr walked⟩
    | some index =>
        obtain ⟨v, s₂, opened, run⟩ := bind_eq_ok.mp run
        obtain ⟨rfl, rfl⟩ := pure_eq_ok.mp run
        exact .inr ⟨v, index, s₁, rfl, walked, resolve_core _ _ _ walked, opened⟩

/-- The file `_create` makes for OPEN: its inode number was free, and the vnode carries its
record. -/
theorem createFile_cases {junk : Junk} {dir : Int} {name : List UInt8} {u : Unit}
    (run : createFile junk dir name (some v) s = .ok u s') :
    ∃ index : Nat, ∃ s₁, OnDisk s s₁ ∧ (Cursors s → index < 1024) ∧ s' = s₁.setVnode v {
      index, count := 1
      inode := {
        size := 0, type := plainType, link := 1, devId := 0, index := junk.index index } } := by
  obtain ⟨index, s₁, taken, run⟩ := bind_eq_ok.mp run
  obtain ⟨_, s₂, wrote, run⟩ := bind_eq_ok.mp run
  obtain ⟨_, s₃, entered, run⟩ := bind_eq_ok.mp run
  obtain rfl := modify_eq_ok.mp run
  have moved : OnDisk s s₃ := Trans.trans (getFreeDiskInode_onDisk _ _ _ taken)
    (Trans.trans (writeInodeToDisk_onDisk _ _ _ wrote) (addInodeIntoDir_onDisk _ _ _ entered))
  obtain ⟨n, rfl, inside⟩ : ∃ n : Nat, index = n ∧ (Cursors s → n < 1024) := by
    obtain ⟨_, _, got, taken⟩ := bind_eq_ok.mp taken
    obtain ⟨rfl, rfl⟩ := get_eq_ok.mp got
    cases found : firstIdle s.inodeBitmap inodeNum inodeNum s.inodeBitIndex with
    | none =>
        rw [found] at taken
        exact (throw_eq_ok.mp taken).elim
    | some n =>
        rw [found] at taken
        obtain ⟨_, _, _, taken⟩ := bind_eq_ok.mp taken
        obtain ⟨rfl, _⟩ := pure_eq_ok.mp taken
        exact ⟨n, rfl, fun inside => firstIdle_lt inside.inode found⟩
  exact ⟨n, s₃, moved, inside, rfl⟩

/-- `_create` leaves the descriptor tables and the list of free entries alone. -/
theorem create_tables {junk : Junk} {currentDir ret : Int} {path : List UInt8}
    (run : create junk currentDir path (some v) s = .ok ret s') :
    s'.freeOpenFileList = s.freeOpenFileList ∧ s'.pcbs = s.pcbs := by
  have part : ∀ {t t' : FmState}, t'.tables = t.tables → t'.freeOpenFileList = t.freeOpenFileList ∧
      t'.pcbs = t.pcbs := by
    intro t t' same
    constructor
    · show t'.tables.freeOpenFileList = t.tables.freeOpenFileList
      rw [same]
    · show t'.tables.pcbs = t.tables.pcbs
      rw [same]
  rcases create_cases run with ⟨-, same⟩ | ⟨-, dir, name, s₁, moved, file⟩
  · exact part (OnDisk.of_core same).tables
  · obtain ⟨index, s₂, moved', -, rfl⟩ := createFile_cases file
    have tables : s₂.tables = s.tables := moved'.tables.trans moved.tables
    exact ⟨(part tables).1, (part tables).2⟩

/-- **OPEN** answers `-1` and changes no table, attaches a vnode that exists, or attaches a fresh
one behind `_create`. -/
theorem fmOpen_cases {junk : Junk} {src : Nat} {path : List UInt8} {flag : Int} {reply : Reply}
    (run : fmOpen junk src path flag s = .ok reply s') :
    src < 50 ∧ ∃ dir walked, walkStart (s.pcbs src).currentDir path = (dir, walked) ∧
      ((reply = { dest := src, ret := -1 } ∧ s'.core = s.core) ∨
        (∃ v index s₁ s₂, resolve walked.length dir walked s = .ok (some index) s₁ ∧
          s₁.core = s.core ∧
          openVnode index s₁ = .ok v s₂ ∧ attach src v s₂ = .ok reply s') ∨
        ∃ v s₁ s₂ ret s₃, (walked.head? = some 0 ∨
          resolve walked.length dir walked s = .ok none s₁) ∧
          s₁.core = s.core ∧ getFreeVnode s₁ = .ok v s₂ ∧
          create junk (s.pcbs src).currentDir path (some v) s₂ = .ok ret s₃ ∧
          attach src v s₃ = .ok reply s') := by
  obtain ⟨_, _, fetched, run⟩ := bind_eq_ok.mp run
  obtain ⟨process, rfl, rfl⟩ := fetchPcb_cases fetched
  refine ⟨process, ?_⟩
  obtain ⟨⟨dir, walked⟩, start⟩ : ∃ start, walkStart (s.pcbs src).currentDir path = start :=
    ⟨_, rfl⟩
  rw [start] at run
  refine ⟨dir, walked, start, ?_⟩
  obtain ⟨found, s₁, looked, run⟩ := bind_eq_ok.mp run
  split at run
  · next absent =>
    obtain ⟨rfl, rfl⟩ := pure_eq_ok.mp run
    rcases readInode_cases looked with ⟨_, same, _⟩ | ⟨v, _, _, some, _⟩
    · exact .inl ⟨rfl, same⟩
    · rw [some] at absent
      exact absurd absent.1 (by simp)
  · obtain ⟨v, s₂, vnode, run⟩ := bind_eq_ok.mp run
    rcases readInode_cases looked with ⟨rfl, same, walk⟩ | ⟨v', index, s₀, rfl, walk, same, opened⟩
    · obtain ⟨v', s₃, taken, vnode⟩ := bind_eq_ok.mp vnode
      obtain ⟨ret, s₄, created, vnode⟩ := bind_eq_ok.mp vnode
      obtain ⟨rfl, rfl⟩ := pure_eq_ok.mp vnode
      exact .inr (.inr ⟨v', s₁, s₃, ret, s₄, walk, same, taken, created, run⟩)
    · obtain ⟨rfl, rfl⟩ := pure_eq_ok.mp vnode
      exact .inr (.inl ⟨v', index, s₀, s₁, walk, same, opened, run⟩)

/-- **CLOSE** releases the entry and empties the slot. -/
theorem fmClose_cases {src : Nat} {fd : Int} {reply : Reply}
    (run : fmClose src fd s = .ok reply s') :
    ∃ e s₁, Descriptor s src fd e ∧ releaseFileEntry e s = .ok () s₁ ∧
      s' = s₁.setPcb src { s₁.pcbs src with
        fdTable := Function.update (s₁.pcbs src).fdTable fd.toNat none
        minFd := if (s₁.pcbs src).minFd > fd then fd.toNat else (s₁.pcbs src).minFd } := by
  obtain ⟨_, _, fetched, run⟩ := bind_eq_ok.mp run
  obtain ⟨process, rfl, rfl⟩ := fetchPcb_cases fetched
  obtain ⟨slot, _, looked, run⟩ := bind_eq_ok.mp run
  obtain ⟨low, high, same, rfl⟩ := fdSlot_cases looked
  cases slot with
  | none => exact (throw_eq_ok.mp run).elim
  | some e =>
      obtain ⟨_, s₁, released, run⟩ := bind_eq_ok.mp run
      obtain ⟨_, s₂, emptied, run⟩ := bind_eq_ok.mp run
      obtain rfl := modify_eq_ok.mp emptied
      obtain ⟨_, s₃, moved, run⟩ := bind_eq_ok.mp run
      obtain rfl := modify_eq_ok.mp moved
      obtain ⟨_, rfl⟩ := pure_eq_ok.mp run
      refine ⟨e, s₁, ⟨process, low, high, same.symm⟩, released, ?_⟩
      simp [FmState.setPcb]

/-- **DUP** puts the entry into slot `min_fd`. -/
theorem fmDup_cases {src : Nat} {fd : Int} {reply : Option Reply}
    (run : fmDup src fd s = .ok reply s') :
    (reply = none ∧ s' = s) ∨
      ∃ e minFd, Descriptor s src fd e ∧ reply = some { dest := src, ret := (s.pcbs src).minFd } ∧
        firstIdle (fun i => (Function.update (s.pcbs src).fdTable (s.pcbs src).minFd
          (some e) i).isSome)
          100 100 (s.pcbs src).minFd = some minFd ∧
        s' = (s.addFile e 1).setPcb src { s.pcbs src with
          fdTable := Function.update (s.pcbs src).fdTable (s.pcbs src).minFd (some e), minFd } := by
  obtain ⟨_, _, fetched, run⟩ := bind_eq_ok.mp run
  obtain ⟨process, rfl, rfl⟩ := fetchPcb_cases fetched
  obtain ⟨slot, _, looked, run⟩ := bind_eq_ok.mp run
  obtain ⟨low, high, same, rfl⟩ := fdSlot_cases looked
  cases slot with
  | none =>
      obtain ⟨rfl, rfl⟩ := pure_eq_ok.mp run
      exact .inl ⟨rfl, rfl⟩
  | some e =>
      obtain ⟨_, s₁, stored, run⟩ := bind_eq_ok.mp run
      obtain rfl := modify_eq_ok.mp stored
      obtain ⟨_, s₂, counted, run⟩ := bind_eq_ok.mp run
      obtain rfl := modify_eq_ok.mp counted
      obtain ⟨_, _, got, run⟩ := bind_eq_ok.mp run
      obtain ⟨rfl, rfl⟩ := get_eq_ok.mp got
      obtain ⟨minFd, s₃, found, run⟩ := bind_eq_ok.mp run
      obtain ⟨idle, rfl⟩ := freeFd_cases found
      obtain ⟨_, s₄, moved, run⟩ := bind_eq_ok.mp run
      obtain rfl := modify_eq_ok.mp moved
      obtain ⟨rfl, rfl⟩ := pure_eq_ok.mp run
      refine .inr ⟨e, minFd, ⟨process, low, high, same.symm⟩, rfl, ?_, ?_⟩
      · simpa using idle
      · simp [FmState.setPcb, FmState.addFile]

/-- **DUP2** onto a free slot copies the entry there; onto an occupied one it releases the entry of
the old descriptor, empties its slot, and ends in the null pointer. -/
theorem fmDup2_cases {src : Nat} {fd newFd : Int} {reply : Reply}
    (run : fmDup2 src fd newFd s = .ok reply s') :
    ∃ e, Descriptor s src fd e ∧ 0 ≤ newFd ∧ newFd < 100 ∧ (s.pcbs src).fdTable newFd.toNat = none ∧
      s' = (s.setSlot src newFd.toNat (some e)).addFile e 1 := by
  obtain ⟨_, _, fetched, run⟩ := bind_eq_ok.mp run
  obtain ⟨process, rfl, rfl⟩ := fetchPcb_cases fetched
  obtain ⟨_, s₁, room, run⟩ := bind_eq_ok.mp run
  obtain ⟨_, _, got, run⟩ := bind_eq_ok.mp run
  obtain ⟨rfl, rfl⟩ := get_eq_ok.mp got
  obtain ⟨entry, _, looked, run⟩ := bind_eq_ok.mp run
  obtain ⟨low, high, same, rfl⟩ := fdSlot_cases looked
  obtain ⟨_, s₂, stored, run⟩ := bind_eq_ok.mp run
  obtain rfl := modify_eq_ok.mp stored
  obtain ⟨_, _, got, run⟩ := bind_eq_ok.mp run
  obtain ⟨rfl, rfl⟩ := get_eq_ok.mp got
  obtain ⟨last, _, again, run⟩ := bind_eq_ok.mp run
  obtain ⟨_, _, there, rfl⟩ := fdSlot_cases again
  obtain ⟨target, _, looked, room⟩ := bind_eq_ok.mp room
  obtain ⟨newLow, newHigh, free, rfl⟩ := fdSlot_cases looked
  -- an entry that is `none` after it was copied to the new slot ends in the null pointer
  have present : entry ≠ none := by
    rintro rfl
    have empty : last = none := by
      rw [there]
      by_cases slot : fd.toNat = newFd.toNat
      · simp [slot]
      · simp [Function.update_of_ne slot, ← same]
    rw [empty] at run
    exact (throw_eq_ok.mp run).elim
  cases target with
  | some old =>
      obtain ⟨slot, _, looked, room⟩ := bind_eq_ok.mp room
      obtain ⟨_, _, _, rfl⟩ := fdSlot_cases looked
      cases slot with
      | none => exact (throw_eq_ok.mp room).elim
      | some e =>
          obtain ⟨_, s₃, _, room⟩ := bind_eq_ok.mp room
          obtain rfl := modify_eq_ok.mp room
          refine (present ?_).elim
          rw [same]
          simp
  | none =>
      obtain ⟨_, rfl⟩ := pure_eq_ok.mp room
      obtain ⟨e, rfl⟩ := Option.ne_none_iff_exists'.mp present
      have kept : last = some e := by
        rw [there]
        by_cases slot : fd.toNat = newFd.toNat
        · simp [slot]
        · simp [Function.update_of_ne slot, ← same]
      rw [kept] at run
      obtain ⟨_, s₃, counted, run⟩ := bind_eq_ok.mp run
      obtain rfl := modify_eq_ok.mp counted
      obtain ⟨_, rfl⟩ := pure_eq_ok.mp run
      exact ⟨e, ⟨process, low, high, same.symm⟩, newLow, newHigh, free.symm, rfl⟩

/-! ### The table of a new process -/

/-- The table of the child when the first `count` slots were looked at. -/
def copiedTable (s : FmState) (child parent count f : Nat) : Option Nat :=
  if f < count ∧ (s.pcbs parent).fdTable f ≠ none then (s.pcbs parent).fdTable f
    else (s.pcbs child).fdTable f

theorem copiedTable_zero (child parent : Nat) :
    copiedTable s child parent 0 = (s.pcbs child).fdTable := by
  funext f
  simp [copiedTable]

theorem copiedTable_below {child parent count f : Nat} (below : f < count) :
    copiedTable s child parent (count + 1) f = copiedTable s child parent count f := by
  simp only [copiedTable, below, show f < count + 1 by omega]

/-- The next slot is the parent's, unless that is empty. -/
theorem copiedTable_succ (child parent count : Nat) :
    copiedTable s child parent (count + 1) = match (s.pcbs parent).fdTable count with
      | none => copiedTable s child parent count
      | some e => Function.update (copiedTable s child parent count) count (some e) := by
  cases entry : (s.pcbs parent).fdTable count with
  | none =>
      funext f
      by_cases here : f = count
      · subst here
        simp [copiedTable, entry]
      · simp only [copiedTable, show f < count + 1 ↔ f < count by omega]
  | some e =>
      funext f
      by_cases here : f = count
      · subst here
        simp [copiedTable, entry]
      · dsimp only
        rw [Function.update_of_ne here]
        simp only [copiedTable, show f < count + 1 ↔ f < count by omega]

/-- The copying loop reads the parent's table as it was. -/
theorem copiedTable_source {child parent count : Nat}
    (pcbs : s'.pcbs =
      (s.setPcb child { s.pcbs child with fdTable := copiedTable s child parent count }).pcbs) :
    (s'.pcbs parent).fdTable count = (s.pcbs parent).fdTable count := by
  rw [pcbs]
  by_cases itself : parent = child
  · subst itself
    simp [FmState.setPcb, copiedTable]
  · simp [FmState.setPcb, Function.update_of_ne itself]

theorem copySlots_pcbs {child parent count : Nat} {u : Unit}
    (run : copySlots child parent count s = .ok u s') :
    s'.pcbs = (s.setPcb child
      { s.pcbs child with fdTable := copiedTable s child parent count }).pcbs := by
  induction count generalizing s' with
  | zero =>
      obtain ⟨_, rfl⟩ := pure_eq_ok.mp run
      rw [copiedTable_zero]
      exact (Function.update_eq_self child s.pcbs).symm
  | succ count ih =>
      obtain ⟨_, s₁, before, run⟩ := bind_eq_ok.mp run
      have pcbs := ih before
      have source := copiedTable_source pcbs
      obtain ⟨_, _, got, run⟩ := bind_eq_ok.mp run
      obtain ⟨rfl, rfl⟩ := get_eq_ok.mp got
      rw [copiedTable_succ, ← source]
      cases entry : (s₁.pcbs parent).fdTable count with
      | none =>
          rw [entry] at run
          obtain ⟨_, rfl⟩ := pure_eq_ok.mp run
          exact pcbs
      | some e =>
          rw [entry] at run
          obtain ⟨_, s₂, more, run⟩ := bind_eq_ok.mp run
          obtain rfl := modify_eq_ok.mp more
          obtain rfl := modify_eq_ok.mp run
          dsimp only
          rw [pcbs]
          simp [FmState.setPcb]

/-- A fresh entry on vnode `v`, which keeps its old offset. -/
def terminal (s : FmState) (v e : Nat) (rest : List Nat) : FmState :=
  ((s.addVnode v 1).takeEntry e rest).setFile e { s.files e with vnode := v, count := 1 }

section Terminal

variable (s : FmState) (v e : Nat) (rest : List Nat)

theorem terminal_free : (terminal s v e rest).freeOpenFileList = rest := rfl

@[simp] theorem terminal_pcbs : (terminal s v e rest).pcbs = s.pcbs := rfl

@[simp] theorem terminal_stdin : (terminal s v e rest).stdinVnode = s.stdinVnode := rfl

@[simp] theorem terminal_stdout : (terminal s v e rest).stdoutVnode = s.stdoutVnode := rfl

@[simp] theorem terminal_stderr : (terminal s v e rest).stderrVnode = s.stderrVnode := rfl

end Terminal

/-- The three slots of a new process. -/
def stdTable (table : Nat → Option Nat) (e0 e1 e2 : Nat) : Nat → Option Nat :=
  Function.update (Function.update (Function.update table 0 (some e0)) 1 (some e1)) 2 (some e2)

/-- **INIT_FD_TABLE** opens the three terminals one after the other, on different entries if the
free list repeats none. -/
theorem initFdTable_cases {src pid : Nat} {reply : Reply}
    (run : initFdTable src pid s = .ok reply s') :
    pid < 50 ∧ ∃ e0 e1 e2 rest, s.freeOpenFileList = e0 :: e1 :: e2 :: rest ∧
      s'.pcbs = (s.setPcb pid
        { s.pcbs pid with fdTable := stdTable (s.pcbs pid).fdTable e0 e1 e2 }).pcbs ∧
      (s.freeOpenFileList.Nodup → s' =
        (terminal (terminal (terminal s s.stdinVnode e0 (e1 :: e2 :: rest))
          s.stdoutVnode e1 (e2 :: rest)) s.stderrVnode e2 rest).setPcb pid
          { s.pcbs pid with fdTable := stdTable (s.pcbs pid).fdTable e0 e1 e2 }) := by
  obtain ⟨_, _, fetched, run⟩ := bind_eq_ok.mp run
  obtain ⟨process, _, rfl⟩ := fetchPcb_cases fetched
  obtain ⟨e0, _, first, run⟩ := bind_eq_ok.mp run
  obtain ⟨rest0, free0, rfl⟩ := getFreeFileEntry_cases first
  obtain ⟨_, _, step, run⟩ := bind_eq_ok.mp run
  obtain rfl := modify_eq_ok.mp step
  obtain ⟨e1, _, second, run⟩ := bind_eq_ok.mp run
  obtain ⟨rest1, free1, rfl⟩ := getFreeFileEntry_cases second
  obtain ⟨_, _, step, run⟩ := bind_eq_ok.mp run
  obtain rfl := modify_eq_ok.mp step
  obtain ⟨e2, _, third, run⟩ := bind_eq_ok.mp run
  obtain ⟨rest2, free2, rfl⟩ := getFreeFileEntry_cases third
  obtain ⟨_, _, step, run⟩ := bind_eq_ok.mp run
  obtain rfl := modify_eq_ok.mp step
  obtain ⟨_, _, got, run⟩ := bind_eq_ok.mp run
  obtain ⟨rfl, rfl⟩ := get_eq_ok.mp got
  obtain ⟨_, _, step, run⟩ := bind_eq_ok.mp run
  obtain rfl := modify_eq_ok.mp step
  obtain ⟨_, _, step, run⟩ := bind_eq_ok.mp run
  obtain rfl := modify_eq_ok.mp step
  obtain ⟨_, _, step, run⟩ := bind_eq_ok.mp run
  obtain rfl := modify_eq_ok.mp step
  obtain ⟨_, _, step, run⟩ := bind_eq_ok.mp run
  obtain rfl := modify_eq_ok.mp step
  obtain ⟨_, _, step, run⟩ := bind_eq_ok.mp run
  obtain rfl := modify_eq_ok.mp step
  obtain ⟨_, _, step, run⟩ := bind_eq_ok.mp run
  obtain rfl := modify_eq_ok.mp step
  obtain ⟨_, rfl⟩ := pure_eq_ok.mp run
  change rest0 = e1 :: rest1 at free1
  change rest1 = e2 :: rest2 at free2
  subst free2 free1
  refine ⟨process, e0, e1, e2, rest2, free0, ?_, fun nodup => ?_⟩
  · simp [FmState.setPcb, FmState.takeEntry, stdTable]
  rw [free0] at nodup
  simp only [List.nodup_cons, List.mem_cons, not_or] at nodup
  obtain ⟨⟨other01, other02, _⟩, ⟨other12, _⟩, _⟩ := nodup
  simp only [terminal, FmState.setPcb, FmState.setFile, FmState.takeEntry, FmState.addVnode,
    FmState.mk.injEq, true_and]
  refine ⟨?_, ?_⟩
  · funext k
    by_cases same0 : k = e0
    · subst same0
      simp [other01, other02]
    · by_cases same1 : k = e1
      · subst same1
        simp [same0, other12]
      · by_cases same2 : k = e2
        · subst same2
          simp [same0, same1]
        · simp [same0, same1, same2]
  · simp [stdTable]

end Tables

/-! ### Every request -/

/-- **A request served for process `pid`**: the cursors stay inside their bitmaps, and no other
process's `PCB` changes. -/
structure Serves (pid : Nat) (s s' : FmState) : Prop where
  cursors : Cursors s → Cursors s'
  others : ∀ p, p ≠ pid → s'.pcbs p = s.pcbs p

instance (pid : Nat) : Std.Refl (Serves pid) := ⟨fun _ => ⟨id, fun _ _ => rfl⟩⟩

theorem Serves.trans {pid : Nat} {s s' s'' : FmState} (first : Serves pid s s')
    (second : Serves pid s' s'') :
    Serves pid s s'' :=
  ⟨fun inside => second.cursors (first.cursors inside),
    fun p other => (second.others p other).trans (first.others p other)⟩

instance (pid : Nat) : IsTrans FmState (Serves pid) := ⟨fun _ _ _ => Serves.trans⟩

/-- A step that leaves every `PCB` and the cursors alone. -/
theorem Serves.of_same {pid : Nat} {s s' : FmState} (pcbs : s'.pcbs = s.pcbs)
    (block : s'.blockBitIndex = s.blockBitIndex) (inode : s'.inodeBitIndex = s.inodeBitIndex) :
    Serves pid s s' :=
  ⟨fun inside => ⟨block ▸ inside.block, inode ▸ inside.inode⟩, fun p _ => by rw [pcbs]⟩

theorem OnDisk.serves {s s' : FmState} (moved : OnDisk s s') (pid : Nat) : Serves pid s s' :=
  ⟨moved.cursors, fun p _ => by rw [FmState.eq_of_tables moved.tables]⟩

section Serves

variable {junk : Junk} {src pid v e : Nat} {fd : Int} {path : List UInt8}

theorem serves_of_onDisk {α : Type} {x : Fm α} (moves : Moves OnDisk x) : Moves (Serves pid) x :=
  moves.mono fun _ _ step => step.serves pid

theorem serves_of_core {α : Type} {x : Fm α} (keeps : Keeps FmState.core x) :
    Moves (Serves pid) x :=
  serves_of_onDisk (onDisk_of_core keeps)

theorem fetchPcb_serves {p : Nat} : Moves (Serves pid) (fetchPcb p) :=
  .ite (.bind .get fun _ => .pure) .throw

theorem fdSlot_serves {pcb : Pcb} : Moves (Serves pid) (fdSlot pcb fd) := .ite .pure .throw

theorem modifyPcb_serves {f : Pcb → Pcb} : Moves (Serves pid) (modifyPcb pid f) :=
  .modify fun _ => ⟨fun inside => ⟨inside.block, inside.inode⟩,
    fun _ other => Function.update_of_ne other _ _⟩

theorem modifyFile_serves {f : OpenFile → OpenFile} : Moves (Serves pid) (modifyFile e f) :=
  .modify fun _ => .of_same rfl rfl rfl

theorem modifyVnode_serves {f : Vnode → Vnode} : Moves (Serves pid) (modifyVnode v f) :=
  .modify fun _ => .of_same rfl rfl rfl

theorem getFreeVnode_serves : Moves (Serves pid) getFreeVnode := by
  intro s v s' run
  obtain ⟨rest, _, rfl⟩ := getFreeVnode_cases run
  exact .of_same rfl rfl rfl

theorem releaseKernelVnode_serves : Moves (Serves pid) (releaseKernelVnode v) := by
  intro s _ s' run
  rcases releaseKernelVnode_cases run with ⟨_, rfl⟩ | ⟨_, rfl⟩ <;> exact .of_same rfl rfl rfl

theorem openVnode_serves {index : Int} : Moves (Serves pid) (openVnode index) := by
  intro s v s' run
  rcases openVnode_cases run with ⟨_, rfl⟩ | ⟨_, rest, _, rfl⟩ <;> exact .of_same rfl rfl rfl

theorem getFreeFileEntry_serves : Moves (Serves pid) getFreeFileEntry := by
  intro s e s' run
  obtain ⟨rest, _, rfl⟩ := getFreeFileEntry_cases run
  exact .of_same rfl rfl rfl

theorem releaseFileEntry_serves : Moves (Serves pid) (releaseFileEntry e) := by
  intro s _ s' run
  rcases releaseFileEntry_cases run with ⟨_, rfl⟩ | ⟨_, s₁, released, rfl⟩
  · exact .of_same rfl rfl rfl
  · have last : Serves pid (s.addFile e (-1)) s₁ := releaseKernelVnode_serves _ _ _ released
    have counted : Serves pid s (s.addFile e (-1)) := .of_same rfl rfl rfl
    have freed : Serves pid s₁ (s₁.freeEntry e) := .of_same rfl rfl rfl
    exact counted.trans (last.trans freed)

theorem attach_serves : Moves (Serves src) (attach src v) := by
  intro s reply s' run
  obtain ⟨e, rest, fd, _, _, _, rfl⟩ := attach_cases run
  exact ⟨fun inside => ⟨inside.block, inside.inode⟩, fun _ other => Function.update_of_ne other _ _⟩

theorem fmOpen_serves {flag : Int} : Moves (Serves src) (fmOpen junk src path flag) := by
  intro s reply s' run
  obtain ⟨_, dir, walked, _, none | ⟨v, index, s₁, s₂, _, same, opened, attached⟩ |
    ⟨v, s₁, s₂, ret, s₃, _, same, taken, created, attached⟩⟩ := fmOpen_cases run
  · exact (OnDisk.of_core none.2).serves src
  · exact ((OnDisk.of_core same).serves src).trans ((openVnode_serves _ _ _ opened).trans
      (attach_serves _ _ _ attached))
  · refine ((OnDisk.of_core same).serves src).trans ((getFreeVnode_serves _ _ _ taken).trans
      (Serves.trans ?_ (attach_serves _ _ _ attached)))
    rcases create_cases created with ⟨_, same⟩ | ⟨_, _, _, s₄, moved, file⟩
    · exact (OnDisk.of_core same).serves src
    · obtain ⟨index, s₅, made, _, rfl⟩ := createFile_cases file
      exact (moved.serves src).trans ((made.serves src).trans (.of_same rfl rfl rfl))

theorem fmRead_serves {len : Int} : Moves (Serves pid) (fmRead junk src fd len) := by
  refine .bind fetchPcb_serves fun _ => .bind fdSlot_serves fun slot => ?_
  cases slot with
  | none => exact .pure
  | some e =>
      exact .bind .get fun _ => .bind .get fun _ => .ite
        (.bind (serves_of_core readData_core) fun _ => .bind modifyFile_serves fun _ => .pure)
        (.bind (.ite .pure .throw) fun _ => .pure)

theorem fmWrite_serves {buf : List UInt8} : Moves (Serves pid) (fmWrite junk src fd buf) := by
  refine .bind fetchPcb_serves fun _ => .bind fdSlot_serves fun slot => ?_
  cases slot with
  | none => exact .pure
  | some e =>
      have cut : ∀ v o, Moves (Serves pid) (cutFile v o) := fun _ _ => .bind .get fun _ =>
        .ite (.bind (serves_of_onDisk releaseBlock_onDisk) fun _ => modifyVnode_serves) .pure
      have store : ∀ file o, Moves (Serves pid) (storeFile junk src e file o buf) := fun _ _ =>
        .bind .get fun _ => .ite
          (.bind (serves_of_onDisk writeData_onDisk) fun _ => .bind modifyVnode_serves fun _ =>
            .bind modifyFile_serves fun _ => .pure)
          (.bind (.ite .pure .throw) fun _ => .pure)
      exact .bind .get fun _ => .bind (cut _ _) fun _ => store _ _

theorem fmLseek_serves {offset whence : Int} :
    Moves (Serves pid) (fmLseek src fd offset whence) := by
  refine .bind fetchPcb_serves fun _ => .bind fdSlot_serves fun slot => ?_
  cases slot with
  | none => exact .pure
  | some e => exact .bind .get fun _ => .bind .get fun _ => .bind modifyFile_serves fun _ => .pure

theorem fmClose_serves : Moves (Serves src) (fmClose src fd) := by
  intro s reply s' run
  obtain ⟨e, s₁, _, released, rfl⟩ := fmClose_cases run
  have step : Serves src s s₁ := releaseFileEntry_serves _ _ _ released
  exact ⟨fun inside => ⟨(step.cursors inside).block, (step.cursors inside).inode⟩, fun p other =>
    (Function.update_of_ne other _ _).trans (step.others p other)⟩

theorem fmDup_serves : Moves (Serves src) (fmDup src fd) := by
  intro s reply s' run
  rcases fmDup_cases run with ⟨_, rfl⟩ | ⟨e, minFd, _, _, _, rfl⟩
  · exact .of_same rfl rfl rfl
  · exact ⟨fun inside => ⟨inside.block, inside.inode⟩,
      fun _ other => Function.update_of_ne other _ _⟩

theorem fmDup2_serves {newFd : Int} : Moves (Serves src) (fmDup2 src fd newFd) := by
  intro s reply s' run
  obtain ⟨e, _, _, _, _, rfl⟩ := fmDup2_cases run
  exact ⟨fun inside => ⟨inside.block, inside.inode⟩, fun _ other => Function.update_of_ne other _ _⟩

theorem exitSlots_serves {count : Nat} : Moves (Serves pid) (exitSlots src count) := by
  induction count with
  | zero => exact .pure
  | succ count ih =>
      refine .bind ih fun _ => .bind .get fun s => ?_
      cases (s.pcbs src).fdTable count with
      | none => exact .pure
      | some e => exact releaseFileEntry_serves

theorem copySlots_serves {parent count : Nat} :
    Moves (Serves pid) (copySlots pid parent count) := by
  induction count with
  | zero => exact .pure
  | succ count ih =>
      refine .bind ih fun _ => .bind .get fun s => ?_
      cases (s.pcbs parent).fdTable count with
      | none => exact .pure
      | some e => exact .bind modifyFile_serves fun _ => modifyPcb_serves

theorem fmLsdir_serves : Moves (Serves pid) (fmLsdir src path) := by
  refine .bind fetchPcb_serves fun _ => .bind (serves_of_core walkTo_core) fun found => ?_
  cases found with
  | none => exact .pure
  | some dir => exact .bind (serves_of_core lsdir_core) fun _ => .pure

theorem fmChdir_serves : Moves (Serves src) (fmChdir src path) := by
  refine .bind fetchPcb_serves fun _ =>
    .ite .pure (.bind (serves_of_core walkTo_core) fun found => ?_)
  cases found with
  | none => exact .pure
  | some dir =>
      exact .bind (serves_of_core readInodeFromDisk_core) fun _ => .ite .pure
        (.bind modifyPcb_serves fun _ => .pure)

theorem initFdTable_serves : Moves (Serves pid) (initFdTable src pid) :=
  .bind fetchPcb_serves fun _ => .bind getFreeFileEntry_serves fun _ =>
  .bind modifyPcb_serves fun _ =>
    .bind getFreeFileEntry_serves fun _ => .bind modifyPcb_serves fun _ =>
    .bind getFreeFileEntry_serves fun _ => .bind modifyPcb_serves fun _ => .bind .get fun _ =>
    .bind modifyFile_serves fun _ => .bind modifyVnode_serves fun _ =>
    .bind modifyFile_serves fun _ =>
    .bind modifyVnode_serves fun _ => .bind modifyFile_serves fun _ =>
    .bind modifyVnode_serves fun _ => .pure

/-- The process a request is served for: the sender, or the one that the process manager names. -/
def Request.owner (src : Nat) : Request → Nat
  | .exitFile pid => pid
  | .copyFdTable child _ => child
  | .initFdTable pid => pid
  | _ => src

/-- **Every request is served for one process.** -/
theorem handle_serves {request : Request} :
    Moves (Serves (request.owner src)) (handle junk src request) := by
  have reply : ∀ {p : Nat} {x : Fm Reply}, Moves (Serves p) x → Moves (Serves p) (some <$> x) :=
    fun moves => moves.map
  cases request with
  | «open» path flag => exact reply fmOpen_serves
  | read fd len => exact reply fmRead_serves
  | write fd buf => exact reply fmWrite_serves
  | close fd => exact reply fmClose_serves
  | create path =>
      exact reply (.bind fetchPcb_serves fun _ => .bind (serves_of_onDisk create_onDisk)
        fun _ => .pure)
  | delete path =>
      exact reply (.bind fetchPcb_serves fun _ => .bind (serves_of_onDisk deleteFile_onDisk)
        fun _ => .pure)
  | lseek fd offset whence => exact fmLseek_serves
  | dup fd => exact fmDup_serves
  | dup2 fd newFd => exact reply fmDup2_serves
  | mkdir path =>
      exact reply (.bind fetchPcb_serves fun _ => .bind (serves_of_onDisk createDir_onDisk)
        fun _ => .pure)
  | rmdir path =>
      exact reply (.bind fetchPcb_serves fun _ => .bind (serves_of_onDisk deleteFile_onDisk)
        fun _ => .pure)
  | lsdir path => exact reply fmLsdir_serves
  | chdir path => exact reply fmChdir_serves
  | exitFile pid =>
      exact reply (.bind fetchPcb_serves fun _ => .bind exitSlots_serves fun _ => .pure)
  | copyFdTable child parent =>
      exact reply (.bind fetchPcb_serves fun _ => .bind fetchPcb_serves fun _ =>
        .bind copySlots_serves fun _ => .pure)
  | initFdTable pid => exact reply initFdTable_serves

theorem initFileFormat_serves : Moves (Serves pid) (initFileFormat junk) :=
  .bind (serves_of_onDisk getFreeDiskInode_onDisk) fun _ =>
    .bind (serves_of_onDisk writeInodeToDisk_onDisk) fun _ =>
    .bind (serves_of_onDisk addInodeIntoDir_onDisk) fun _ =>
    .bind (serves_of_onDisk addInodeIntoDir_onDisk) fun _ =>
    .bind getFreeVnode_serves fun _ => .bind getFreeVnode_serves fun _ =>
    .bind getFreeVnode_serves fun _ =>
    .bind (.modify fun _ => .of_same rfl rfl rfl) fun _ =>
    .bind modifyVnode_serves fun _ => .bind modifyVnode_serves fun _ => modifyVnode_serves

end Serves

/-- **The cursors of both bitmaps are inside them, in every reachable state.** -/
theorem Reachable.cursors {s : FmState} (reachable : Reachable s) : Cursors s := by
  induction reachable with
  | boot start =>
      obtain ⟨junk, run⟩ := start
      have step : Serves 0 zeroState _ := initFileFormat_serves _ _ _ run
      exact step.cursors ⟨by decide, by decide⟩
  | step _ run ih => exact (handle_serves _ _ _ run).cursors ih

/-! ### The state the server starts in -/

/-- The terminals have taken the first three vnodes; else the tables are those of static memory. -/
structure BootTables (s : FmState) : Prop where
  pcbs : s.pcbs = zeroState.pcbs
  files : s.files = zeroState.files
  freeFiles : s.freeOpenFileList = zeroState.freeOpenFileList
  free : s.freeVnodeList = (List.range 125).reverse
  active : s.activeVnodeList = [127, 126, 125]
  stdin : s.stdinVnode = 127
  stdout : s.stdoutVnode = 126
  stderr : s.stderrVnode = 125
  index : ∀ v, (s.vnodes v).index = 0
  count : ∀ v, (s.vnodes v).count = if v = 127 ∨ v = 126 ∨ v = 125 then 1 else 0

theorem bootTables_of_boot {s : FmState} (start : Boot s) : BootTables s := by
  obtain ⟨junk, run⟩ := start
  obtain ⟨index, s₁, taken, run⟩ := bind_eq_ok.mp run
  obtain ⟨_, s₂, wrote, run⟩ := bind_eq_ok.mp run
  obtain ⟨_, s₃, entered, run⟩ := bind_eq_ok.mp run
  obtain ⟨_, s₄, again, run⟩ := bind_eq_ok.mp run
  have moved : OnDisk zeroState s₄ := Trans.trans (getFreeDiskInode_onDisk _ _ _ taken)
    (Trans.trans (writeInodeToDisk_onDisk _ _ _ wrote)
      (Trans.trans (addInodeIntoDir_onDisk _ _ _ entered) (addInodeIntoDir_onDisk _ _ _ again)))
  have disk := FmState.eq_of_tables moved.tables
  have free : s₄.freeVnodeList = 127 :: 126 :: 125 :: (List.range 125).reverse := by
    rw [disk]
    rfl
  obtain ⟨v0, _, first, run⟩ := bind_eq_ok.mp run
  obtain ⟨rest0, free0, rfl⟩ := getFreeVnode_cases first
  obtain ⟨v1, _, second, run⟩ := bind_eq_ok.mp run
  obtain ⟨rest1, free1, rfl⟩ := getFreeVnode_cases second
  obtain ⟨v2, _, third, run⟩ := bind_eq_ok.mp run
  obtain ⟨rest2, free2, rfl⟩ := getFreeVnode_cases third
  change rest0 = v1 :: rest1 at free1
  change rest1 = v2 :: rest2 at free2
  rw [free, free1, free2] at free0
  obtain ⟨rfl, rfl, rfl, rfl⟩ : v0 = 127 ∧ v1 = 126 ∧ v2 = 125 ∧
      rest2 = (List.range 125).reverse := by
    simp only [List.cons.injEq] at free0
    exact ⟨free0.1.symm, free0.2.1.symm, free0.2.2.1.symm, free0.2.2.2.symm⟩
  obtain ⟨_, _, step, run⟩ := bind_eq_ok.mp run
  obtain rfl := modify_eq_ok.mp step
  obtain ⟨_, _, step, run⟩ := bind_eq_ok.mp run
  obtain rfl := modify_eq_ok.mp step
  obtain ⟨_, _, step, run⟩ := bind_eq_ok.mp run
  obtain rfl := modify_eq_ok.mp step
  obtain rfl := modify_eq_ok.mp run
  have vnodes : s₄.vnodes = zeroState.vnodes := by rw [disk]
  have active : s₄.activeVnodeList = [] := by
    rw [disk]
    rfl
  refine ⟨?_, ?_, ?_, rfl, ?_, rfl, rfl, rfl, fun v => ?_, fun v => ?_⟩
  · show s₄.pcbs = _
    rw [disk]
  · show s₄.files = _
    rw [disk]
  · show s₄.freeOpenFileList = _
    rw [disk]
  · show s₄.activeVnodeList ++ [127] ++ [126] ++ [125] = _
    rw [active]
    rfl
  · by_cases terminal : v = 127 ∨ v = 126 ∨ v = 125
    · rcases terminal with rfl | rfl | rfl <;> simp [FmState.takeVnode, vnodes, zeroState]
    · obtain ⟨other0, other1, other2⟩ : v ≠ 127 ∧ v ≠ 126 ∧ v ≠ 125 := by omega
      simp [FmState.takeVnode, vnodes, other0, other1, other2, zeroState]
  · by_cases terminal : v = 127 ∨ v = 126 ∨ v = 125
    · rcases terminal with rfl | rfl | rfl <;> simp [FmState.takeVnode]
    · obtain ⟨other0, other1, other2⟩ : v ≠ 127 ∧ v ≠ 126 ∧ v ≠ 125 := by omega
      simp [FmState.takeVnode, vnodes, other0, other1, other2, zeroState]

end NjuOs.FileSystem
