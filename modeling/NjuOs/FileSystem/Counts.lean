/-
**Reference counts of the open-file table and the vnode table.**

The slots of the descriptor tables point to open-file entries, and the entries in use point to
vnodes: two tables of reference counts, one above the other. `Counted slot s` says that both are
balanced, for a map `slot` of the descriptors that count. `FmState.slot live` is that map for a set
of live processes; while a process exits or is started, its slots join or leave one by one.

The requests OPEN, CLOSE, DUP, DUP2, EXIT_FILE, INIT_FD_TABLE and COPY_FD_TABLE keep the balance
(`Counted.step`) as long as none of them writes into a slot that still holds an entry, or starts a
process with slots it does not write. `dup_overwrites` is a run where DUP does.
-/

import NjuOs.FileSystem.Tables
import NjuOs.Lib.RefCount
import Mathlib.Data.Finset.Prod

namespace NjuOs.FileSystem

open NjuOs.Lib

/-! ### The two tables -/

/-- The slots of all descriptor tables: a process and a descriptor. -/
def slots : Finset (Nat × Nat) := Finset.range 50 ×ˢ Finset.range 100

/-- What the slots of the live processes point to. -/
def FmState.slot (live : Nat → Bool) (s : FmState) : Nat × Nat → Option Nat := fun i =>
  if live i.1 then (s.pcbs i.1).fdTable i.2 else none

/-- What the entries in use point to. -/
def FmState.entryVnode (s : FmState) (e : Nat) : Option Nat :=
  if e ∈ s.freeOpenFileList then none else some (s.files e).vnode

/-- The server's own reference to the three terminals. -/
def standard (stdin stdout stderr v : Nat) : Nat :=
  if v = stdin ∨ v = stdout ∨ v = stderr then 1 else 0

/-- The references to a vnode that the standard descriptors hold. -/
abbrev FmState.standard (s : FmState) : Nat → Nat :=
  NjuOs.FileSystem.standard s.stdinVnode s.stdoutVnode s.stderrVnode

/-- The vnode table is balanced, and the active list is what the free list leaves. -/
structure VnodesCounted (s : FmState) : Prop where
  vnodes : Balanced (Finset.range 128) (Finset.range 128) s.entryVnode s.standard
    (fun v => (s.vnodes v).count) s.freeVnodeList
  active : ∀ v, v ∈ s.activeVnodeList ↔ v < 128 ∧ v ∉ s.freeVnodeList
  nodup : s.activeVnodeList.Nodup
  terminals : ∀ v, s.standard v = 1 → v < 128

/-- **Both tables are balanced.** -/
structure Counted (slot : Nat × Nat → Option Nat) (s : FmState) : Prop extends VnodesCounted s where
  entries : Balanced slots (Finset.range 128) slot (fun _ => 0) (fun e => (s.files e).count)
    s.freeOpenFileList

/-- What the balance depends on is the same. -/
structure SameCounts (s s' : FmState) : Prop where
  files : ∀ e, (s'.files e).count = (s.files e).count ∧ (s'.files e).vnode = (s.files e).vnode
  vnodes : ∀ v, (s'.vnodes v).count = (s.vnodes v).count
  freeFiles : s'.freeOpenFileList = s.freeOpenFileList
  freeVnodes : s'.freeVnodeList = s.freeVnodeList
  active : s'.activeVnodeList = s.activeVnodeList
  stdin : s'.stdinVnode = s.stdinVnode
  stdout : s'.stdoutVnode = s.stdoutVnode
  stderr : s'.stderrVnode = s.stderrVnode

section Counted

variable {s s' : FmState} {slot slot' : Nat × Nat → Option Nat} {i : Nat × Nat} {e v : Nat}

theorem OnDisk.same_counts (moved : OnDisk s s') : SameCounts s s' := by
  have same := moved.tables
  cases s
  cases s'
  simp only [FmState.tables, FmState.mk.injEq] at same
  obtain ⟨_, _, _, _, _, rfl, rfl, rfl, rfl, rfl, _, _, _, _, _, rfl, rfl, rfl, _⟩ := same
  exact ⟨fun _ => ⟨rfl, rfl⟩, fun _ => rfl, rfl, rfl, rfl, rfl, rfl, rfl⟩

theorem VnodesCounted.congr (counted : VnodesCounted s) (same : SameCounts s s') :
    VnodesCounted s' := by
  have pointed : s'.entryVnode = s.entryVnode := by
    funext e
    unfold FmState.entryVnode
    rw [same.freeFiles, (same.files e).2]
  have own : s'.standard = s.standard := by
    unfold FmState.standard
    rw [same.stdin, same.stdout, same.stderr]
  refine ⟨?_, ?_, ?_, ?_⟩
  · rw [same.freeVnodes, own, pointed]
    exact counted.vnodes.congr (fun _ _ => rfl) fun v _ _ => same.vnodes v
  · rw [same.active, same.freeVnodes]
    exact counted.active
  · rw [same.active]
    exact counted.nodup
  · rw [own]
    exact counted.terminals

theorem Counted.congr (counted : Counted slot s) (same : SameCounts s s')
    (pointers : ∀ i ∈ slots, slot' i = slot i) : Counted slot' s' := by
  refine ⟨counted.toVnodesCounted.congr same, ?_⟩
  rw [same.freeFiles]
  exact counted.entries.congr pointers fun e _ _ => (same.files e).1

/-- The descriptors may be looked at in another way. -/
theorem Counted.of_slots (counted : Counted slot s) (pointers : ∀ i ∈ slots, slot' i = slot i) :
    Counted slot' s :=
  ⟨counted.toVnodesCounted, counted.entries.congr pointers fun _ _ _ => rfl⟩

/-- An entry a slot points to is in use. -/
theorem Counted.in_use (counted : Counted slot s) (member : i ∈ slots) (points : slot i = some e) :
    e < 128 ∧ s.entryVnode e = some (s.files e).vnode := by
  refine ⟨Finset.mem_range.mp (counted.entries.within i member e points), if_neg ?_⟩
  exact counted.entries.not_free member points

/-! ### Entries and their vnodes -/

theorem entryVnode_addFile (d : Int) : (s.addFile e d).entryVnode = s.entryVnode := by
  funext k
  unfold FmState.entryVnode FmState.addFile
  by_cases same : k = e
  · subst same
    simp
  · simp [Function.update_of_ne same]

theorem entryVnode_freeEntry :
    (s.freeEntry e).entryVnode = Function.update s.entryVnode e none := by
  funext k
  by_cases same : k = e
  · subst same
    simp [FmState.entryVnode, FmState.freeEntry]
  · simp [FmState.entryVnode, FmState.freeEntry, same]

theorem addFile_count (d : Int) : ((s.addFile e d).files e).count = (s.files e).count + d := by
  simp [FmState.addFile]

theorem addFile_count_other {d : Int} {k : Nat} (different : k ≠ e) :
    ((s.addFile e d).files k).count = (s.files k).count := by
  simp [FmState.addFile, Function.update_of_ne different]

theorem addVnode_count (d : Int) : ((s.addVnode v d).vnodes v).count = (s.vnodes v).count + d := by
  simp [FmState.addVnode]

theorem addVnode_count_other {d : Int} {w : Nat} (different : w ≠ v) :
    ((s.addVnode v d).vnodes w).count = (s.vnodes w).count := by
  simp [FmState.addVnode, Function.update_of_ne different]

/-! ### One more descriptor on an entry -/

/-- **A descriptor copied**: a slot that pointed nowhere points to an entry in use. -/
theorem Counted.share (counted : Counted slot s) (member : i ∈ slots) (idle : slot i = none)
    {j : Nat × Nat} (other : j ∈ slots) (points : slot j = some e) :
    Counted (Function.update slot i (some e)) (s.addFile e 1) := by
  refine ⟨⟨?_, counted.active, counted.nodup, counted.terminals⟩, ?_⟩
  · rw [entryVnode_addFile]
    exact counted.vnodes
  · exact counted.entries.share member idle (counted.entries.within j other e points)
      (counted.entries.not_free other points) (addFile_count 1) fun k => addFile_count_other

/-! ### A descriptor gone -/

/-- An entry given up gives up its vnode. -/
theorem VnodesCounted.release {s₁ : FmState} (counted : VnodesCounted s) (inside : e < 128)
    (points : s.entryVnode e = some v) {u : Unit} (run : releaseKernelVnode v s = .ok u s₁) :
    VnodesCounted (s₁.freeEntry e) ∧ s₁.files = s.files ∧ s₁.freeOpenFileList = s.freeOpenFileList ∧
      s₁.pcbs = s.pcbs := by
  have member := Finset.mem_range.mpr inside
  rcases releaseKernelVnode_cases run with ⟨more, rfl⟩ | ⟨last, rfl⟩
  · refine ⟨⟨?_, counted.active, counted.nodup, counted.terminals⟩, rfl, rfl, rfl⟩
    rw [entryVnode_freeEntry]
    exact counted.vnodes.drop_more member points more (addVnode_count (-1)) fun w =>
      addVnode_count_other
  · refine ⟨⟨?_, fun w => ?_, counted.nodup.erase v, counted.terminals⟩, rfl, rfl, rfl⟩
    · rw [entryVnode_freeEntry]
      exact counted.vnodes.drop_last member points last fun w => addVnode_count_other
    · show w ∈ s.activeVnodeList.erase v ↔ w < 128 ∧ w ∉ v :: s.freeVnodeList
      rw [counted.nodup.mem_erase_iff, counted.active, List.mem_cons]
      tauto

/-- **A descriptor gone**: the entry is released, and with its last descriptor the vnode. -/
theorem Counted.release (counted : Counted slot s) (member : i ∈ slots) (points : slot i = some e)
    {u : Unit} (run : releaseFileEntry e s = .ok u s') :
    Counted (Function.update slot i none) s' ∧ s'.pcbs = s.pcbs := by
  obtain ⟨inside, vnode⟩ := counted.in_use member points
  have left : VnodesCounted (s.addFile e (-1)) := by
    refine ⟨?_, counted.active, counted.nodup, counted.terminals⟩
    rw [entryVnode_addFile]
    exact counted.vnodes
  rcases releaseFileEntry_cases run with ⟨more, rfl⟩ | ⟨last, s₁, released, rfl⟩
  · exact ⟨⟨left, counted.entries.drop_more member points more (addFile_count (-1)) fun k =>
      addFile_count_other⟩, rfl⟩
  · rw [← entryVnode_addFile (-1)] at vnode
    obtain ⟨vnodes, files, free, pcbs⟩ := left.release inside vnode released
    refine ⟨⟨vnodes, ?_⟩, pcbs⟩
    show Balanced slots _ _ _ (fun k => (s₁.files k).count) (e :: s₁.freeOpenFileList)
    rw [free, files]
    exact counted.entries.drop_last member points last fun k => addFile_count_other

/-! ### A fresh entry -/

theorem entryVnode_fill {rest : List Nat} {file : OpenFile} (free : s.freeOpenFileList = e :: rest)
    (nodup : s.freeOpenFileList.Nodup) :
    ((s.takeEntry e rest).setFile e file).entryVnode =
      Function.update s.entryVnode e (some file.vnode) := by
  rw [free] at nodup
  have gone := (List.nodup_cons.mp nodup).1
  funext k
  by_cases same : k = e
  · subst same
    simp [FmState.entryVnode, FmState.setFile, FmState.takeEntry, gone]
  · simp [FmState.entryVnode, FmState.setFile, FmState.takeEntry, free, same]

/-- **A fresh entry and a descriptor for it**, on a vnode in use. -/
theorem Counted.fill (counted : Counted slot s) (member : i ∈ slots) (idle : slot i = none)
    {rest : List Nat} (free : s.freeOpenFileList = e :: rest) (file : OpenFile)
    (one : file.count = 1) (active : file.vnode ∈ s.activeVnodeList) :
    Counted (Function.update slot i (some e))
      (((s.addVnode file.vnode 1).takeEntry e rest).setFile e file) := by
  have nodup := counted.entries.nodup
  have entries := counted.entries
  rw [free] at entries
  have inside : e ∈ Finset.range 128 := entries.known e List.mem_cons_self
  have unused : s.entryVnode e = none := if_pos (by rw [free]; exact List.mem_cons_self)
  obtain ⟨small, used⟩ := (counted.active _).mp active
  refine ⟨⟨?_, counted.active, counted.nodup, counted.terminals⟩, ?_⟩
  · rw [entryVnode_fill (s := s.addVnode file.vnode 1) free nodup]
    exact counted.vnodes.share inside unused (Finset.mem_range.mpr small) used
      (addVnode_count 1) fun w =>
      addVnode_count_other
  · show Balanced slots _ _ _ _ rest
    refine entries.take member idle ?_ fun k different => ?_
    · simp [FmState.setFile, one]
    · simp [FmState.setFile, FmState.takeEntry, FmState.addVnode, Function.update_of_ne different]

/-- **A fresh entry and a descriptor for it**, on a fresh vnode. -/
theorem Counted.fill_fresh (counted : Counted slot s) (member : i ∈ slots) (idle : slot i = none)
    {rest freeRest : List Nat} (free : s.freeOpenFileList = e :: rest)
    (freeVnode : s.freeVnodeList = v :: freeRest) (vnode : Vnode) (first : vnode.count = 1)
    (file : OpenFile) (one : file.count = 1) (leads : file.vnode = v) :
    Counted (Function.update slot i (some e))
      ((((s.takeVnode v freeRest).setVnode v vnode).takeEntry e rest).setFile e file) := by
  have nodup := counted.entries.nodup
  have entries := counted.entries
  rw [free] at entries
  have vnodes := counted.vnodes
  rw [freeVnode] at vnodes
  have inside : e ∈ Finset.range 128 := entries.known e List.mem_cons_self
  have unused : s.entryVnode e = none := if_pos (by rw [free]; exact List.mem_cons_self)
  have absent : v ∉ s.activeVnodeList := fun busy => by
    have used := ((counted.active v).mp busy).2
    rw [freeVnode] at used
    exact used List.mem_cons_self
  refine ⟨⟨?_, fun w => ?_, ?_, counted.terminals⟩, ?_⟩
  · rw [entryVnode_fill (s := (s.takeVnode v freeRest).setVnode v vnode) free nodup, leads]
    refine vnodes.take inside unused ?_ fun w different => ?_
    · simp [FmState.setFile, FmState.takeEntry, FmState.setVnode, first]
    · simp [FmState.setFile, FmState.takeEntry, FmState.setVnode, FmState.takeVnode,
        Function.update_of_ne different]
  · show w ∈ s.activeVnodeList ++ [v] ↔ w < 128 ∧ w ∉ freeRest
    have known := vnodes.known w
    have nodup := (List.nodup_cons.mp vnodes.nodup).1
    have old := counted.active w
    rw [freeVnode] at old
    rw [List.mem_append, List.mem_singleton, old]
    simp only [List.mem_cons, Finset.mem_range] at known ⊢
    by_cases same : w = v
    · subst same
      simp [known (.inl rfl), nodup]
    · simp only [same, false_or, or_false]
  · show (s.activeVnodeList ++ [v]).Nodup
    exact counted.nodup.append (List.nodup_singleton v) (by simpa using absent)
  · show Balanced slots _ _ _ _ rest
    refine entries.take member idle ?_ fun k different => ?_
    · simp [FmState.setFile, one]
    · simp [FmState.setFile, FmState.takeEntry, FmState.setVnode, FmState.takeVnode,
        Function.update_of_ne different]

theorem Counted.setPcb (counted : Counted slot s) (pid : Nat) (pcb : Pcb) :
    Counted slot (s.setPcb pid pcb) :=
  ⟨⟨counted.vnodes, counted.active, counted.nodup, counted.terminals⟩, counted.entries⟩

end Counted

/-! ### The descriptors of the live processes -/

/-- Every search for a free descriptor starts inside the table. -/
def MinFdInside (s : FmState) : Prop := ∀ pid, (s.pcbs pid).minFd < 100

/-- **The invariant**: the tables are balanced for the descriptors of the live processes. -/
structure LiveCounted (live : Nat → Bool) (s : FmState) : Prop where
  counted : Counted (s.slot live) s
  minFd : MinFdInside s

section Handlers

variable {live : Nat → Bool} {s s' : FmState} {src pid e v : Nat} {fd : Int}

theorem slot_setPcb (alive : live src = true) {k : Nat} {entry : Option Nat} {pcb : Pcb}
    (table : pcb.fdTable = Function.update (s.pcbs src).fdTable k entry) :
    (s.setPcb src pcb).slot live = Function.update (s.slot live) (src, k) entry := by
  funext ⟨p, f⟩
  by_cases process : p = src
  · subst process
    by_cases descriptor : f = k
    · subst descriptor
      simp [FmState.slot, FmState.setPcb, alive, table]
    · have other : (p, f) ≠ (p, k) := fun same => descriptor (Prod.mk.inj same).2
      simp [FmState.slot, FmState.setPcb, alive, table, Function.update_of_ne descriptor,
        Function.update_of_ne other]
  · have other : (p, f) ≠ (src, k) := fun same => process (Prod.mk.inj same).1
    simp [FmState.slot, FmState.setPcb, Function.update_of_ne process, Function.update_of_ne other]

theorem slot_of_pcbs (same : s'.pcbs = s.pcbs) : s'.slot live = s.slot live := by
  unfold FmState.slot
  rw [same]

theorem minFd_setPcb (inside : MinFdInside s) {pcb : Pcb} (small : pcb.minFd < 100) :
    MinFdInside (s.setPcb src pcb) := by
  intro p
  by_cases process : p = src
  · subst process
    simpa [FmState.setPcb] using small
  · simpa [FmState.setPcb, Function.update_of_ne process] using inside p

theorem Descriptor.member (opened : Descriptor s src fd e) : (src, fd.toNat) ∈ slots := by
  have low := opened.low
  have high := opened.high
  exact Finset.mem_product.mpr ⟨Finset.mem_range.mpr opened.process,
    Finset.mem_range.mpr (by omega)⟩

theorem Descriptor.points (opened : Descriptor s src fd e) (alive : live src = true) :
    s.slot live (src, fd.toNat) = some e := by
  simp [FmState.slot, alive, opened.slot]

theorem LiveCounted.of_onDisk (counts : LiveCounted live s) (moved : OnDisk s s') :
    LiveCounted live s' := by
  have pcbs : s'.pcbs = s.pcbs := by rw [FmState.eq_of_tables moved.tables]
  refine ⟨counts.counted.congr moved.same_counts fun _ _ => by rw [slot_of_pcbs pcbs], fun p => ?_⟩
  rw [pcbs]
  exact counts.minFd p

/-- A fresh entry gets a descriptor: `t` is the state with the entry filled. -/
theorem LiveCounted.attach {t : FmState} (counts : LiveCounted live s) (process : src < 50)
    (alive : live src = true) {k : Nat} (pcbs : t.pcbs = s.pcbs)
    (idle : firstIdle (fun i => ((s.pcbs src).fdTable i).isSome) 100 100 (s.pcbs src).minFd =
      some k)
    (filled : (src, k) ∈ slots → s.slot live (src, k) = none →
      Counted (Function.update (s.slot live) (src, k) (some e)) t) :
    LiveCounted live (t.setPcb src { s.pcbs src with
      fdTable := Function.update (s.pcbs src).fdTable k (some e), minFd := (k + 1) % 100 }) := by
  have small : k < 100 := firstIdle_lt (counts.minFd src) idle
  have empty : (s.pcbs src).fdTable k = none := by simpa using firstIdle_idle idle
  have counted :=
    filled (Finset.mem_product.mpr ⟨Finset.mem_range.mpr process, Finset.mem_range.mpr small⟩)
    (by simp [FmState.slot, empty])
  refine ⟨?_, minFd_setPcb (fun p => ?_) (Nat.mod_lt _ (by omega))⟩
  · rw [slot_setPcb alive (by rw [pcbs]), slot_of_pcbs pcbs]
    exact counted.setPcb _ _
  · rw [pcbs]
    exact counts.minFd p

/-- What `_create` leaves for OPEN: the fresh vnode, filled or not, over a disk that may have
changed. -/
theorem LiveCounted.create (counts : LiveCounted live s) {rest : List Nat}
    (free : s.freeVnodeList = v :: rest) {junk : Junk} {dir ret : Int} {path : List UInt8}
    (run : create junk dir path (some v) (s.takeVnode v rest) = .ok ret s') :
    ∃ s₀ vnode, LiveCounted live s₀ ∧ s₀.freeVnodeList = v :: rest ∧ vnode.count = 1 ∧
      s' = (s₀.takeVnode v rest).setVnode v vnode := by
  have onDisk : ∀ {t : FmState}, OnDisk (s.takeVnode v rest) t →
      ∃ s₀, LiveCounted live s₀ ∧ s₀.freeVnodeList = v :: rest ∧ t = s₀.takeVnode v rest := by
    intro t moved
    refine ⟨{ s with
      disk := t.disk
      inodeBitmap := t.inodeBitmap
      inodeBitIndex := t.inodeBitIndex
      blockBitmap := t.blockBitmap
      blockBitIndex := t.blockBitIndex
      indexBlock1 := t.indexBlock1
      indexBlock2 := t.indexBlock2
      indexBlock3 := t.indexBlock3
      blockBufArray := t.blockBufArray
      blockBufFlag := t.blockBufFlag }, ⟨?_, counts.minFd⟩, free, FmState.eq_of_tables moved.tables⟩
    exact counts.counted.congr ⟨fun _ => ⟨rfl, rfl⟩, fun _ => rfl, rfl, rfl, rfl, rfl, rfl, rfl⟩
      fun _ _ => rfl
  rcases create_cases run with ⟨_, same⟩ | ⟨_, dir', name, s₁, moved, file⟩
  · obtain ⟨s₀, counts₀, free₀, rfl⟩ := onDisk (.of_core same)
    refine ⟨s₀, { s₀.vnodes v with count := 1 }, counts₀, free₀, rfl, ?_⟩
    simp [FmState.setVnode, FmState.takeVnode]
  · obtain ⟨index, s₂, made, _, rfl⟩ := createFile_cases file
    obtain ⟨s₀, counts₀, free₀, rfl⟩ := onDisk (Trans.trans moved made)
    exact ⟨s₀, _, counts₀, free₀, rfl, rfl⟩

theorem LiveCounted.open (counts : LiveCounted live s) (alive : live src = true) {junk : Junk}
    {path : List UInt8} {flag : Int} {reply : Reply}
    (run : fmOpen junk src path flag s = .ok reply s') :
    LiveCounted live s' := by
  obtain ⟨process, dir, walked, _, none | ⟨v, index, s₁, s₂, _, same, opened, attached⟩ |
    ⟨v, s₁, s₂, ret, s₃, _, same, taken, created, attached⟩⟩ := fmOpen_cases run
  · exact counts.of_onDisk (.of_core none.2)
  · have counts₁ := counts.of_onDisk (.of_core same)
    obtain ⟨e, rest, k, free, idle, _, rfl⟩ := attach_cases attached
    rcases openVnode_cases opened with ⟨found, rfl⟩ | ⟨_, freeRest, freeVnode, rfl⟩
    · refine counts₁.attach process alive rfl idle fun member empty => ?_
      exact counts₁.counted.fill member empty free { vnode := v, offset := 0, count := 1 } rfl
        (List.mem_of_find?_eq_some found)
    · refine counts₁.attach process alive rfl idle fun member empty => ?_
      exact counts₁.counted.fill_fresh member empty free freeVnode _ rfl _ rfl rfl
  · have counts₁ := counts.of_onDisk (.of_core same)
    obtain ⟨freeRest, freeVnode, rfl⟩ := getFreeVnode_cases taken
    obtain ⟨s₀, vnode, counts₀, free₀, one, rfl⟩ := counts₁.create freeVnode created
    obtain ⟨e, rest, k, free, idle, _, rfl⟩ := attach_cases attached
    refine counts₀.attach process alive rfl idle fun member empty => ?_
    exact counts₀.counted.fill_fresh member empty free free₀ vnode one _ rfl rfl

/-! ### Closing and copying -/

theorem LiveCounted.close (counts : LiveCounted live s) (alive : live src = true) {reply : Reply}
    (run : fmClose src fd s = .ok reply s') : LiveCounted live s' := by
  obtain ⟨e, s₁, opened, released, rfl⟩ := fmClose_cases run
  obtain ⟨counted, pcbs⟩ := counts.counted.release opened.member (opened.points alive) released
  have high := opened.high
  refine ⟨?_, minFd_setPcb (fun p => ?_) ?_⟩
  · rw [slot_setPcb alive rfl, slot_of_pcbs pcbs]
    exact counted.setPcb _ _
  · rw [pcbs]
    exact counts.minFd p
  · rw [pcbs]
    have inside := counts.minFd src
    dsimp only
    split
    · omega
    · exact inside

theorem LiveCounted.dup (counts : LiveCounted live s) (alive : live src = true)
    (room : (s.pcbs src).fdTable (s.pcbs src).minFd = none) {reply : Option Reply}
    (run : fmDup src fd s = .ok reply s') : LiveCounted live s' := by
  rcases fmDup_cases run with ⟨_, rfl⟩ | ⟨e, minFd, opened, _, idle, rfl⟩
  · exact counts
  · have inside := counts.minFd src
    have member : (src, (s.pcbs src).minFd) ∈ slots :=
      Finset.mem_product.mpr ⟨Finset.mem_range.mpr opened.process, Finset.mem_range.mpr inside⟩
    have empty : s.slot live (src, (s.pcbs src).minFd) = none := by simp [FmState.slot, room]
    have counted := counts.counted.share member empty opened.member (opened.points alive)
    refine ⟨?_, minFd_setPcb counts.minFd (firstIdle_lt inside idle)⟩
    rw [slot_setPcb (s := s.addFile e 1) alive rfl]
    exact counted.setPcb _ _

theorem LiveCounted.dup2 (counts : LiveCounted live s) (alive : live src = true) {newFd : Int}
    {reply : Reply} (run : fmDup2 src fd newFd s = .ok reply s') : LiveCounted live s' := by
  obtain ⟨e, opened, low, high, room, rfl⟩ := fmDup2_cases run
  have member : (src, newFd.toNat) ∈ slots :=
    Finset.mem_product.mpr ⟨Finset.mem_range.mpr opened.process, Finset.mem_range.mpr (by omega)⟩
  have empty : s.slot live (src, newFd.toNat) = none := by simp [FmState.slot, room]
  have counted := counts.counted.share member empty opened.member (opened.points alive)
  have slot : ((s.setSlot src newFd.toNat (some e)).addFile e 1).slot live
      = Function.update (s.slot live) (src, newFd.toNat) (some e) :=
    slot_setPcb (s := s) alive rfl
  refine ⟨?_, minFd_setPcb counts.minFd (counts.minFd src)⟩
  rw [slot]
  exact counted.setPcb _ _

/-! ### A process exits or starts -/

/-- The slots below `count` of process `pid` count as they are in `table`. -/
def withTable (pid count : Nat) (table : Nat → Option Nat) (slot : Nat × Nat → Option Nat) :
    Nat × Nat → Option Nat := fun i => if i.1 = pid ∧ i.2 < count then table i.2 else slot i

theorem withTable_zero (table : Nat → Option Nat) (slot : Nat × Nat → Option Nat) :
    withTable pid 0 table slot = slot := by
  funext i
  simp [withTable]

theorem withTable_succ (count : Nat) {table table' : Nat → Option Nat}
    (slot : Nat × Nat → Option Nat) (same : ∀ f, f < count → table' f = table f) :
    withTable pid (count + 1) table' slot
      = Function.update (withTable pid count table slot) (pid, count) (table' count) := by
  funext ⟨p, f⟩
  by_cases here : (p, f) = (pid, count)
  · cases here
    simp [withTable]
  · rw [Function.update_of_ne here]
    rw [Prod.mk.injEq] at here
    unfold withTable
    by_cases inside : p = pid ∧ f < count
    · have below : p = pid ∧ f < count + 1 := by omega
      dsimp only
      rw [if_pos inside, if_pos below, same f inside.2]
    · have above : ¬ (p = pid ∧ f < count + 1) := by omega
      dsimp only
      rw [if_neg inside, if_neg above]

theorem withTable_at (count : Nat) (table : Nat → Option Nat) (slot : Nat × Nat → Option Nat)
    (p : Nat) :
    withTable pid count table slot (p, count) = slot (p, count) := by
  simp [withTable]

/-- With the whole table of a process replaced, the descriptors are those of a state in which it is
live, or is no more. -/
theorem slot_eq_withTable {b : Bool} {table : Nat → Option Nat}
    (others : ∀ p, p ≠ pid → (s'.pcbs p).fdTable = (s.pcbs p).fdTable)
    (own : ∀ f, f < 100 → table f = if b then (s'.pcbs pid).fdTable f else none) :
    ∀ i ∈ slots, s'.slot (Function.update live pid b) i =
      withTable pid 100 table (s.slot live) i := by
  rintro ⟨p, f⟩ member
  have small : f < 100 := Finset.mem_range.mp (Finset.mem_product.mp member).2
  by_cases same : p = pid
  · subst same
    simp [withTable, FmState.slot, small, own f small]
  · simp [withTable, FmState.slot, same, others p same]

theorem exitSlots_counted (counts : LiveCounted live s) (process : pid < 50)
    (alive : live pid = true) {count : Nat} (small : count ≤ 100) {u : Unit}
    (run : exitSlots pid count s = .ok u s') :
    Counted (withTable pid count (fun _ => none) (s.slot live)) s' ∧ s'.pcbs = s.pcbs := by
  induction count generalizing s' with
  | zero =>
      obtain ⟨_, rfl⟩ := pure_eq_ok.mp run
      rw [withTable_zero]
      exact ⟨counts.counted, rfl⟩
  | succ count ih =>
      obtain ⟨_, s₁, before, run⟩ := bind_eq_ok.mp run
      obtain ⟨counted, pcbs⟩ := ih (by omega) before
      obtain ⟨_, _, got, run⟩ := bind_eq_ok.mp run
      obtain ⟨rfl, rfl⟩ := get_eq_ok.mp got
      have here : withTable pid count (fun _ => none) (s.slot live) (pid, count) =
          (s₁.pcbs pid).fdTable count := by
        rw [withTable_at]
        simp [FmState.slot, alive, pcbs]
      have same : ∀ f, f < count → (none : Option Nat) = (fun _ => none) f := fun _ _ => rfl
      rw [withTable_succ count _ same]
      cases entry : (s₁.pcbs pid).fdTable count with
      | none =>
          rw [entry] at run
          obtain ⟨_, rfl⟩ := pure_eq_ok.mp run
          have idle : Function.update (withTable pid count (fun _ => none) (s.slot live))
            (pid, count) none
              = withTable pid count (fun _ => none) (s.slot live) :=
            Function.update_eq_self_iff.mpr (here.trans entry).symm
          rw [idle]
          exact ⟨counted, pcbs⟩
      | some e =>
          rw [entry] at run
          have member : (pid, count) ∈ slots :=
            Finset.mem_product.mpr ⟨Finset.mem_range.mpr process, Finset.mem_range.mpr (by omega)⟩
          obtain ⟨released, same⟩ := counted.release member (here.trans entry) run
          exact ⟨released, same.trans pcbs⟩

theorem LiveCounted.exit (counts : LiveCounted live s) (alive : live pid = true) {reply : Reply}
    (run : fmExitFile src pid s = .ok reply s') :
    LiveCounted (Function.update live pid false) s' := by
  obtain ⟨_, _, fetched, run⟩ := bind_eq_ok.mp run
  obtain ⟨process, _, rfl⟩ := fetchPcb_cases fetched
  obtain ⟨_, s₁, exited, run⟩ := bind_eq_ok.mp run
  obtain ⟨_, rfl⟩ := pure_eq_ok.mp run
  obtain ⟨counted, pcbs⟩ := exitSlots_counted counts process alive le_rfl exited
  refine ⟨counted.of_slots (slot_eq_withTable (fun p _ => by rw [pcbs]) fun _ _ => rfl),
    fun p => ?_⟩
  rw [pcbs]
  exact counts.minFd p

/-- The slots a process starts with are those written for it: a slot that is written holds no entry
that counts, and one that is not is empty or counts already. -/
def Room (live : Nat → Bool) (s : FmState) (pid : Nat) (written : Nat → Prop) : Prop :=
  ∀ f, f < 100 → (written f → live pid = true → (s.pcbs pid).fdTable f = none) ∧
    (¬ written f → live pid = true ∨ (s.pcbs pid).fdTable f = none)

/-- A slot that is written does not count yet, and one that is not counts as it stands. -/
theorem Room.slot {written : Nat → Prop} (room : Room live s pid written) {f : Nat}
    (small : f < 100) :
    (written f → s.slot live (pid, f) = none) ∧
      (¬ written f → s.slot live (pid, f) = (s.pcbs pid).fdTable f) := by
  obtain ⟨busy, idle⟩ := room f small
  unfold FmState.slot
  dsimp only
  by_cases alive : live pid = true
  · rw [if_pos alive]
    exact ⟨fun here => busy here alive, fun _ => rfl⟩
  · rw [if_neg alive]
    exact ⟨fun _ => rfl, fun here => ((idle here).resolve_left alive).symm⟩

theorem copySlots_counted {child parent : Nat} (counts : LiveCounted live s) (process : child < 50)
    (source : parent < 50) (alive : live parent = true)
    (room : Room live s child fun f => (s.pcbs parent).fdTable f ≠ none) {count : Nat}
    (small : count ≤ 100) {u : Unit} (run : copySlots child parent count s = .ok u s') :
    Counted (withTable child count (copiedTable s child parent count) (s.slot live)) s' := by
  induction count generalizing s' with
  | zero =>
      obtain ⟨_, rfl⟩ := pure_eq_ok.mp run
      rw [withTable_zero]
      exact counts.counted
  | succ count ih =>
      obtain ⟨_, s₁, before, run⟩ := bind_eq_ok.mp run
      have counted := ih (by omega) before
      have same := copiedTable_source (copySlots_pcbs before)
      obtain ⟨_, _, got, run⟩ := bind_eq_ok.mp run
      obtain ⟨rfl, rfl⟩ := get_eq_ok.mp got
      obtain ⟨free, kept⟩ := room.slot (show count < 100 by omega)
      have here : withTable child count (copiedTable s child parent count) (s.slot live)
        (child, count)
          = s.slot live (child, count) := withTable_at ..
      have earlier : ∀ f, f < count →
        copiedTable s child parent (count + 1) f = copiedTable s child parent count f :=
        fun _ => copiedTable_below
      rw [withTable_succ count _ earlier]
      cases entry : (s₁.pcbs parent).fdTable count with
      | none =>
          rw [entry] at run same
          obtain ⟨_, rfl⟩ := pure_eq_ok.mp run
          have unwritten : copiedTable s child parent (count + 1) count =
              (s.pcbs child).fdTable count := by
            simp [copiedTable, ← same]
          rw [unwritten, ← kept (by simp [← same]), ← here, Function.update_eq_self]
          exact counted
      | some e =>
          rw [entry] at run same
          obtain ⟨_, s₂, more, run⟩ := bind_eq_ok.mp run
          obtain rfl := modify_eq_ok.mp more
          obtain rfl := modify_eq_ok.mp run
          have written : copiedTable s child parent (count + 1) count = some e := by
            simp [copiedTable, ← same]
          have points : withTable child count (copiedTable s child parent count) (s.slot live)
            (parent, count)
              = some e := by
            rw [withTable_at]
            simp [FmState.slot, alive, ← same]
          have member : ∀ {p : Nat}, p < 50 → (p, count) ∈ slots := fun inside =>
            Finset.mem_product.mpr ⟨Finset.mem_range.mpr inside, Finset.mem_range.mpr (by omega)⟩
          have idle : withTable child count (copiedTable s child parent count) (s.slot live)
            (child, count)
              = none := here.trans (free (by simp [← same]))
          rw [written]
          exact (counted.share (member process) idle (member source) points).setPcb _ _

theorem LiveCounted.copy {child parent : Nat} (counts : LiveCounted live s)
    (alive : live parent = true)
    (room : Room live s child fun f => (s.pcbs parent).fdTable f ≠ none) {reply : Reply}
    (run : copyFdTable src child parent s = .ok reply s') :
    LiveCounted (Function.update live child true) s' := by
  obtain ⟨_, _, fetched, run⟩ := bind_eq_ok.mp run
  obtain ⟨process, _, rfl⟩ := fetchPcb_cases fetched
  obtain ⟨_, _, fetched, run⟩ := bind_eq_ok.mp run
  obtain ⟨source, _, rfl⟩ := fetchPcb_cases fetched
  obtain ⟨_, s₁, copied, run⟩ := bind_eq_ok.mp run
  obtain ⟨_, rfl⟩ := pure_eq_ok.mp run
  have counted := copySlots_counted counts process source alive room le_rfl copied
  have pcbs := copySlots_pcbs copied
  refine ⟨counted.of_slots (slot_eq_withTable (fun p other => ?_) fun f _ => ?_), fun p => ?_⟩
  · rw [pcbs]
    simp [FmState.setPcb, Function.update_of_ne other]
  · rw [pcbs]
    simp [FmState.setPcb]
  · have inside : MinFdInside (s.setPcb child { s.pcbs child with
        fdTable := copiedTable s child parent 100 }) :=
          minFd_setPcb counts.minFd (counts.minFd child)
    rw [pcbs]
    exact inside p

theorem Counted.terminal {slot : Nat × Nat → Option Nat} {i : Nat × Nat} (counted : Counted slot s)
    (member : i ∈ slots) (idle : slot i = none) {rest : List Nat}
    (free : s.freeOpenFileList = e :: rest)
    (own : v = s.stdinVnode ∨ v = s.stdoutVnode ∨ v = s.stderrVnode) :
    Counted (Function.update slot i (some e)) (terminal s v e rest) := by
  have own : s.standard v = 1 := if_pos own
  have small := counted.terminals v own
  have used : v ∉ s.freeVnodeList := fun free => by
    have none := (counted.vnodes.free_iff v (Finset.mem_range.mpr small)).mp free
    omega
  exact counted.fill member idle free { s.files e with vnode := v, count := 1 } rfl
    ((counted.active v).mpr ⟨small, used⟩)

/-- The descriptors of a process that has got its three terminals. -/
theorem slot_stdTable {t : FmState} (pcbs : t.pcbs = s.pcbs) (room : Room live s pid (· < 3))
    (e0 e1 e2 : Nat) :
    ∀ i ∈ slots, (t.setPcb pid { s.pcbs pid with
        fdTable := stdTable (s.pcbs pid).fdTable e0 e1 e2 }).slot (Function.update live pid true) i
      = Function.update (Function.update (Function.update (s.slot live) (pid, 0) (some e0))
        (pid, 1) (some e1))
          (pid, 2) (some e2) i := by
  rintro ⟨p, f⟩ inside
  have small : f < 100 := Finset.mem_range.mp (Finset.mem_product.mp inside).2
  by_cases same : p = pid
  · subst same
    have kept := (room.slot small).2
    simp only [FmState.setPcb, stdTable, Function.update_apply, Prod.mk.injEq, true_and]
    by_cases two : f = 2
    · simp [FmState.slot, two]
    · by_cases one : f = 1
      · simp [FmState.slot, one]
      · by_cases zero : f = 0
        · simp [FmState.slot, zero]
        · have own := kept (by omega)
          simp only [two, one, zero, if_false]
          rw [own]
          simp [FmState.slot, two, one, zero]
  · simp [FmState.slot, FmState.setPcb, same, pcbs]

theorem LiveCounted.init (counts : LiveCounted live s) (room : Room live s pid (· < 3))
    {reply : Reply} (run : initFdTable src pid s = .ok reply s') :
    LiveCounted (Function.update live pid true) s' := by
  obtain ⟨process, e0, e1, e2, rest, free, _, made⟩ := initFdTable_cases run
  obtain rfl := made counts.counted.entries.nodup
  have member : ∀ {f : Nat}, f < 3 → (pid, f) ∈ slots := fun small =>
    Finset.mem_product.mpr ⟨Finset.mem_range.mpr process, Finset.mem_range.mpr (by omega)⟩
  have idle : ∀ {f : Nat}, f < 3 → s.slot live (pid, f) = none := fun small =>
    (room.slot (by omega)).1 small
  have first := counts.counted.terminal (v := s.stdinVnode) (member (show 0 < 3 by omega))
    (idle (by omega)) free (.inl rfl)
  have second := first.terminal (v := s.stdoutVnode) (member (show 1 < 3 by omega))
    (by simp [idle (show 1 < 3 by omega)]) (terminal_free _ _ _ _) (by simp)
  have third := second.terminal (v := s.stderrVnode) (member (show 2 < 3 by omega))
    (by simp [idle (show 2 < 3 by omega)]) (terminal_free _ _ _ _) (by simp)
  refine ⟨(third.setPcb pid _).of_slots (slot_stdTable ?_ room e0 e1 e2),
    minFd_setPcb ?_ (counts.minFd pid)⟩
  · simp only [terminal_pcbs]
  · intro p
    simp only [terminal_pcbs]
    exact counts.minFd p

end Handlers

/-! ### The state the server starts in -/

/-- The tables of the state the server starts in, as far as counts go. -/
def bootTables : FmState :=
  { zeroState with
    vnodes := fun v =>
      { zeroState.vnodes v with count := if v = 127 ∨ v = 126 ∨ v = 125 then 1 else 0 }
    freeVnodeList := (List.range 125).reverse
    activeVnodeList := [127, 126, 125]
    stdinVnode := 127
    stdoutVnode := 126
    stderrVnode := 125 }

/-- No entry is in use, and the three terminals have a vnode each. -/
theorem bootTables_counted : Counted (fun _ => none) bootTables := by
  have nobody : ∀ k, refs (Finset.range 128) bootTables.entryVnode k = 0 := by
    intro k
    rw [refs_congr (g := fun _ => none) (fun e member => ?_)]
    · simp [refs]
    · refine if_pos ?_
      show e ∈ (List.range 128).reverse
      simpa using member
  refine ⟨⟨⟨?_, ?_, ?_, ?_, ?_⟩, fun v => ?_, by decide, fun v own => ?_⟩, ⟨?_, ?_, ?_, ?_, ?_⟩⟩
  · show (List.range 125).reverse.Nodup
    exact List.nodup_reverse.mpr List.nodup_range
  · intro k (member : k ∈ (List.range 125).reverse)
    simp only [List.mem_reverse, List.mem_range] at member
    exact Finset.mem_range.mpr (by omega)
  · intro e member v points
    have none := nobody v
    have some := refs_pos member points
    omega
  · intro k member
    rw [nobody]
    show k ∈ (List.range 125).reverse ↔ 0 + standard 127 126 125 k = 0
    simp only [List.mem_reverse, List.mem_range, standard]
    have small := Finset.mem_range.mp member
    split <;> omega
  · intro k member used
    rw [nobody]
    show (if k = 127 ∨ k = 126 ∨ k = 125 then (1 : Int)
      else 0) = ((0 + standard 127 126 125 k : Nat) : Int)
    unfold standard
    split <;> rfl
  · show v ∈ [127, 126, 125] ↔ v < 128 ∧ v ∉ (List.range 125).reverse
    simp only [List.mem_cons, List.not_mem_nil, or_false, List.mem_reverse, List.mem_range]
    omega
  · change standard 127 126 125 v = 1 at own
    unfold standard at own
    split at own <;> omega
  · exact List.nodup_reverse.mpr List.nodup_range
  · intro k (member : k ∈ (List.range 128).reverse)
    simpa using member
  · intro i _ k points
    exact absurd points (by simp)
  · intro k member
    show k ∈ (List.range 128).reverse ↔ _
    simpa [refs] using member
  · intro k member used
    refine (used ?_).elim
    show k ∈ (List.range 128).reverse
    simpa using member

theorem boot_counted {s : FmState} (start : Boot s) :
    Counted (fun _ => none) s ∧ s.pcbs = zeroState.pcbs := by
  have boot := bootTables_of_boot start
  refine ⟨bootTables_counted.congr ⟨fun e => ?_, fun v => ?_, ?_, ?_, ?_, ?_, ?_, ?_⟩ fun _ _ =>
    rfl, boot.pcbs⟩
  · rw [boot.files]
    exact ⟨rfl, rfl⟩
  · rw [boot.count]
    rfl
  · exact boot.freeFiles
  · exact boot.free
  · exact boot.active
  · exact boot.stdin
  · exact boot.stdout
  · exact boot.stderr

/-! ### Runs of requests -/

/-- The processes that are live behind a request. -/
def liveAfter (live : Nat → Bool) : Request → Nat → Bool
  | .exitFile pid => Function.update live pid false
  | .copyFdTable child _ => Function.update live child true
  | .initFdTable pid => Function.update live pid true
  | _ => live

/-- The requests on descriptors, of and for live processes. -/
def Admissible (live : Nat → Bool) (src : Nat) : Request → Prop
  | .open _ _ => live src = true
  | .close _ => live src = true
  | .dup _ => live src = true
  | .dup2 _ _ => live src = true
  | .exitFile pid => live pid = true
  | .copyFdTable _ parent => live parent = true
  | .initFdTable _ => True
  | _ => False

/-- The request writes into no slot that holds an entry, and starts no process with an entry in a
slot that it does not write. -/
def NoOverwrite (live : Nat → Bool) (s : FmState) (src : Nat) : Request → Prop
  | .dup _ => (s.pcbs src).fdTable (s.pcbs src).minFd = none
  | .dup2 _ newFd => (s.pcbs src).fdTable newFd.toNat = none
  | .copyFdTable child parent => Room live s child fun f => (s.pcbs parent).fdTable f ≠ none
  | .initFdTable pid => Room live s pid (· < 3)
  | _ => True

/-- One request on descriptors, with the processes that are live. -/
inductive DescriptorStep : (Nat → Bool) × FmState → (Nat → Bool) × FmState → Prop
  | request {live : Nat → Bool} {s s' : FmState} {junk : Junk} {src : Nat} {request : Request}
      {reply : Option Reply} (admissible : Admissible live src request)
      (run : handle junk src request s = .ok reply s') :
      DescriptorStep (live, s) (liveAfter live request, s')

/-- A request that overwrites no entry. -/
inductive CarefulStep : (Nat → Bool) × FmState → (Nat → Bool) × FmState → Prop
  | request {live : Nat → Bool} {s s' : FmState} {junk : Junk} {src : Nat} {request : Request}
      {reply : Option Reply} (admissible : Admissible live src request)
      (careful : NoOverwrite live s src request) (run : handle junk src request s = .ok reply s') :
      CarefulStep (live, s) (liveAfter live request, s')

/-- **The counts are the numbers of references**, an entry is free when no slot of a live process
points to it, and what a slot points to is in use. -/
structure RefCounts (live : Nat → Bool) (s : FmState) : Prop where
  entry : ∀ e, e < 128 → e ∉ s.freeOpenFileList → (s.files e).count = refs slots (s.slot live) e
  free : ∀ e, e < 128 → (e ∈ s.freeOpenFileList ↔ ∀ i ∈ slots, s.slot live i ≠ some e)
  vnode : ∀ v ∈ s.activeVnodeList,
    (s.vnodes v).count = (refs (Finset.range 128) s.entryVnode v + s.standard v : Nat)
  valid : ∀ i ∈ slots, ∀ e, s.slot live i = some e → e < 128 ∧ e ∉ s.freeOpenFileList

/-- DUP and DUP2 write into the slot they answer with, or were asked for, and into no other. -/
structure DupKeeps (s : FmState) : Prop where
  dup : ∀ junk src fd reply s', handle junk src (.dup fd) s = .ok reply s' → ∀ pid f,
    (pid, f) ≠ (src, (s.pcbs src).minFd) → (s'.pcbs pid).fdTable f = (s.pcbs pid).fdTable f
  dup2 : ∀ junk src fd newFd reply s', handle junk src (.dup2 fd newFd) s = .ok reply s' → ∀ pid f,
    (pid, f) ≠ (src, newFd.toNat) → (s'.pcbs pid).fdTable f = (s.pcbs pid).fdTable f

section Runs

variable {live : Nat → Bool} {s s' : FmState}

theorem LiveCounted.refCounts (counts : LiveCounted live s) : RefCounts live s := by
  have entries := counts.counted.entries
  refine ⟨fun e small used => ?_, fun e small => ?_, fun v active => ?_,
    fun i member e points => ?_⟩
  · simpa using entries.counts e (Finset.mem_range.mpr small) used
  · rw [entries.free_iff e (Finset.mem_range.mpr small)]
    simp only [refs, Nat.add_zero, Finset.card_eq_zero, Finset.filter_eq_empty_iff]
  · obtain ⟨small, used⟩ := (counts.counted.active v).mp active
    exact counts.counted.vnodes.counts v (Finset.mem_range.mpr small) used
  · exact ⟨(counts.counted.in_use member points).1, entries.not_free member points⟩

/-- **One request that overwrites no entry.** -/
theorem LiveCounted.step {live' : Nat → Bool} (counts : LiveCounted live s)
    (step : CarefulStep (live, s) (live', s')) : LiveCounted live' s' := by
  cases step with
  | @request _ _ _ _ src request reply admissible careful run =>
      cases request with
      | «open» path flag =>
          obtain ⟨_, run, _⟩ := map_eq_ok run
          exact counts.open admissible run
      | close fd =>
          obtain ⟨_, run, _⟩ := map_eq_ok run
          exact counts.close admissible run
      | dup fd => exact counts.dup admissible careful run
      | dup2 fd newFd =>
          obtain ⟨_, run, _⟩ := map_eq_ok run
          exact counts.dup2 admissible run
      | exitFile pid =>
          obtain ⟨_, run, _⟩ := map_eq_ok run
          exact counts.exit admissible run
      | copyFdTable child parent =>
          obtain ⟨_, run, _⟩ := map_eq_ok run
          exact counts.copy admissible careful run
      | initFdTable pid =>
          obtain ⟨_, run, _⟩ := map_eq_ok run
          exact counts.init careful run
      | read | write | create | delete | lseek | mkdir | rmdir | lsdir | chdir =>
          exact admissible.elim

theorem LiveCounted.run {live₀ : Nat → Bool} {s₀ : FmState} (counts : LiveCounted live₀ s₀)
    (run : Relation.ReflTransGen CarefulStep (live₀, s₀) (live, s)) : LiveCounted live s := by
  generalize final : (live, s) = last at run
  induction run generalizing live s with
  | refl =>
      cases final
      exact counts
  | @tail middle _ _ step ih =>
      subst final
      obtain ⟨live₁, s₁⟩ := middle
      exact (ih rfl).step step

theorem liveCounted_of_boot (start : Boot s) : LiveCounted live s := by
  obtain ⟨counted, pcbs⟩ := boot_counted start
  have none : s.slot live = fun _ => none := by
    funext i
    unfold FmState.slot
    rw [pcbs]
    exact ite_self _
  refine ⟨none ▸ counted, fun p => ?_⟩
  rw [pcbs]
  show 0 < 100
  omega

theorem dupKeeps (s : FmState) : DupKeeps s := by
  refine ⟨fun junk src fd reply s' run p f other => ?_,
    fun junk src fd newFd reply s' run p f other => ?_⟩
  · rcases fmDup_cases run with ⟨_, rfl⟩ | ⟨e, minFd, _, _, _, rfl⟩
    · rfl
    · by_cases same : p = src
      · subst same
        have slot : f ≠ (s.pcbs p).minFd := fun here => other (by rw [here])
        simp [FmState.setPcb, Function.update_of_ne slot]
      · simp [FmState.setPcb, Function.update_of_ne same, FmState.addFile]
  · obtain ⟨_, run, _⟩ := map_eq_ok run
    obtain ⟨e, _, _, _, _, rfl⟩ := fmDup2_cases run
    by_cases same : p = src
    · subst same
      have slot : f ≠ newFd.toNat := fun here => other (by rw [here])
      simp [FmState.setSlot, FmState.setPcb, FmState.addFile, Function.update_of_ne slot]
    · simp [FmState.setSlot, FmState.setPcb, FmState.addFile, Function.update_of_ne same]

/-- **Reference counts**: from the state the server starts in, after any run of requests on
descriptors that overwrite no entry, every count is the number of its references. -/
theorem reference_counts {live₀ : Nat → Bool} {s₀ : FmState} (start : Boot s₀)
    (run : Relation.ReflTransGen CarefulStep (live₀, s₀) (live, s)) :
    RefCounts live s ∧ DupKeeps s :=
  ⟨((liveCounted_of_boot start).run run).refCounts, dupKeeps s⟩

end Runs

/-! ### A descriptor overwritten -/

/-- Process 5 was started. -/
def startedState : FmState := lastState (handle zeroJunk 1 (.initFdTable 5)) bootState

/-- Process 5 alone has been started. -/
def started : Nat → Bool := Function.update (fun _ => false) 5 true

theorem startedState_run : handle zeroJunk 1 (.initFdTable 5) bootState
    = .ok (some { dest := 1, ret := 0 }) startedState := run_of_outcome (by decide +kernel)

/-- Process 5 opens a file. -/
def openedState : FmState :=
  lastState (handle zeroJunk 5 (.open (pathBuffer [47, 97]) 1)) startedState

/-- It duplicates a descriptor onto the free slot behind it. -/
def dupState : FmState := lastState (handle zeroJunk 5 (.dup 0)) openedState

theorem reference_counts_dup : RefCounts started dupState ∧ DupKeeps dupState := by
  have empty : Room (fun _ => false) bootState 5 (· < 3) := fun f _ =>
    ⟨fun _ alive => absurd alive (by simp),
      fun _ => .inr (by rw [(boot_counted boot_bootState).2]; rfl)⟩
  have init : CarefulStep (fun _ => false, bootState) (started, startedState) := by
    refine .request ?_ ?_ startedState_run
    · exact trivial
    · exact empty
  have opened : CarefulStep (started, startedState) (started, openedState) := by
    refine .request ?_ ?_ (run_of_outcome (x := handle zeroJunk 5 (.open (pathBuffer [47, 97]) 1))
      (a := some { dest := 5, ret := 3 }) (by decide +kernel))
    · exact rfl
    · exact trivial
  have dup : CarefulStep (started, openedState) (started, dupState) := by
    refine .request ?_ ?_ (run_of_outcome (x := handle zeroJunk 5 (.dup 0))
      (a := some { dest := 5, ret := 4 })
      (by decide +kernel))
    · exact rfl
    · show (openedState.pcbs 5).fdTable (openedState.pcbs 5).minFd = none
      decide +kernel
  exact reference_counts boot_bootState (((Relation.ReflTransGen.single init).tail opened).tail dup)

/-- **DUP overwrites a descriptor**: `min_fd` of a new process is `0`, so its first DUP puts the
copy into slot `0`, and no slot points to the entry that was there. -/
theorem dup_overwrites : ∃ s₀ live s, Boot s₀ ∧
    Relation.ReflTransGen DescriptorStep (fun _ => false, s₀) (live, s) ∧ ¬ RefCounts live s := by
  have init : DescriptorStep (fun _ => false, bootState) (started, startedState) := by
    refine .request ?_ startedState_run
    exact trivial
  have dup : DescriptorStep (started, startedState)
      (started, lastState (handle zeroJunk 5 (.dup 1)) startedState) := by
    refine .request ?_ (run_of_outcome (x := handle zeroJunk 5 (.dup 1))
      (a := some { dest := 5, ret := 0 })
      (by decide +kernel))
    exact rfl
  refine ⟨bootState, _, _, boot_bootState, (Relation.ReflTransGen.single init).tail dup,
    fun counts => ?_⟩
  have used : 127 ∉ (lastState (handle zeroJunk 5 (.dup 1)) startedState).freeOpenFileList := by
    decide +kernel
  refine used ((counts.free 127 (by omega)).mpr ?_)
  rintro ⟨p, f⟩ member points
  have small : f < 100 := Finset.mem_range.mp (Finset.mem_product.mp member).2
  by_cases process : p = 5
  · subst process
    have nowhere : ∀ f, f < 100 →
        ((lastState (handle zeroJunk 5 (.dup 1)) startedState).pcbs 5).fdTable f ≠
        some 127 := by decide +kernel
    exact nowhere f small points
  · simp [FmState.slot, started, process] at points

end NjuOs.FileSystem
