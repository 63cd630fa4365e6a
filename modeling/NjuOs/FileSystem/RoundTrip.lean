/-
**A file written in chunks reads back.**

`OnFile ino` is one request on the file with inode number `ino`: a write at its end, a read, a seek,
the close of a descriptor, or an OPEN whose path leads to it. A run of them moves the file's record
between the vnode table and the disk: the last close writes it back, and the next OPEN reads it into
a fresh vnode. `StoredFile` says that the record the server would use next shows the bytes written
so far, and every request keeps it (`StoredFile.step`), as long as one active vnode at most carries
the number (`OneVnode`). `stale_vnode` is the run that shows what happens otherwise.
-/

import NjuOs.FileSystem.Tables

namespace NjuOs.FileSystem

open NjuOs.Lib

/-! ### The record of an inode number -/

/-- Vnode `v` is active and carries inode number `ino`. -/
structure Carries (s : FmState) (ino : Nat) (v : Nat) : Prop where
  active : v ∈ s.activeVnodeList
  index : (s.vnodes v).index = ino

/-- The record the server goes on with: that of the first active vnode that carries the number, or
the one on the disk. -/
def FmState.newest (s : FmState) (ino : Nat) : INode :=
  match searchVnodeByIndex s ino with
  | some v => (s.vnodes v).inode
  | none => diskInode s.disk ino

/-- **No vnode is listed twice, and one active vnode at most carries the number.** -/
structure OneVnode (ino : Nat) (s : FmState) : Prop where
  nodup : (s.freeVnodeList ++ s.activeVnodeList).Nodup
  single : ∀ v ∈ s.activeVnodeList, ∀ v' ∈ s.activeVnodeList,
    (s.vnodes v).index = ino → (s.vnodes v').index = ino → v = v'

section Newest

variable {s s' : FmState} {ino v : Nat}

theorem search_some (found : searchVnodeByIndex s ino = some v) : Carries s ino v :=
  ⟨List.mem_of_find?_eq_some found, by simpa using List.find?_some found⟩

theorem search_none (absent : searchVnodeByIndex s ino = none) : ¬ Carries s ino v := fun carries =>
  List.find?_eq_none.mp absent v carries.active (by simpa using carries.index)

theorem OneVnode.newest_eq (one : OneVnode ino s) (carries : Carries s ino v) :
    s.newest ino = (s.vnodes v).inode := by
  unfold FmState.newest
  cases found : searchVnodeByIndex s ino with
  | none => exact (search_none found carries).elim
  | some v' =>
      have first := search_some found
      rw [one.single v' first.active v carries.active first.index carries.index]

theorem newest_of_absent (absent : ∀ v, ¬ Carries s ino v) :
    s.newest ino = diskInode s.disk ino := by
  unfold FmState.newest
  cases found : searchVnodeByIndex s ino with
  | none => rfl
  | some v => exact (absent v (search_some found)).elim

end Newest

/-! ### The invariant -/

/-- **The file with inode number `ino` holds `data`**, in the record the server goes on with. -/
structure StoredFile (ino : Nat) (data : List UInt8) (s : FmState) : Prop where
  small : ino < 1024
  one : OneVnode ino s
  shows : Shows (s.newest ino) data s
  device : (s.newest ino).devId = 0

/-- The vnodes have their numbers, and the two lists are the same. -/
structure SameVnodes (s s' : FmState) : Prop where
  index : ∀ v, (s'.vnodes v).index = (s.vnodes v).index
  free : s'.freeVnodeList = s.freeVnodeList
  active : s'.activeVnodeList = s.activeVnodeList

/-- What the content of every file depends on is the same. -/
structure SameRecords (s s' : FmState) : Prop extends SameVnodes s s' where
  inode : ∀ v, (s'.vnodes v).inode = (s.vnodes v).inode
  disk : s'.disk = s.disk
  used : s'.blockBitmap = s.blockBitmap
  cursor : s'.blockBitIndex = s.blockBitIndex

section Stored

variable {s s' : FmState} {ino v e : Nat} {data : List UInt8}

theorem SameRecords.trans {s'' : FmState} (first : SameRecords s s') (second : SameRecords s' s'') :
    SameRecords s s'' where
  index v := (second.index v).trans (first.index v)
  free := second.free.trans first.free
  active := second.active.trans first.active
  inode v := (second.inode v).trans (first.inode v)
  disk := second.disk.trans first.disk
  used := second.used.trans first.used
  cursor := second.cursor.trans first.cursor

theorem SameRecords.of_core (same : s'.core = s.core) : SameRecords s s' := by
  cases s
  cases s'
  simp only [FmState.core, FmState.mk.injEq] at same
  obtain ⟨rfl, rfl, rfl, rfl, rfl, rfl, rfl, rfl, _⟩ := same
  exact ⟨⟨fun _ => rfl, rfl, rfl⟩, fun _ => rfl, rfl, rfl, rfl⟩

theorem addVnode_same (d : Int) : SameRecords s (s.addVnode v d) := by
  have same : ∀ w, ((s.addVnode v d).vnodes w).index = (s.vnodes w).index ∧
      ((s.addVnode v d).vnodes w).inode = (s.vnodes w).inode := by
    intro w
    by_cases here : w = v
    · subst here
      simp [FmState.addVnode]
    · simp [FmState.addVnode, Function.update_of_ne here]
  exact ⟨⟨fun w => (same w).1, rfl, rfl⟩, fun w => (same w).2, rfl, rfl, rfl⟩

theorem Carries.of_same (carries : Carries s ino v) (same : SameVnodes s s') : Carries s' ino v :=
  ⟨same.active ▸ carries.active, (same.index v).trans carries.index⟩

theorem OneVnode.of_same (one : OneVnode ino s) (same : SameVnodes s s') : OneVnode ino s' := by
  refine ⟨?_, ?_⟩
  · rw [same.free, same.active]
    exact one.nodup
  · rw [same.active]
    simp only [same.index]
    exact one.single

theorem newest_of_same (same : SameRecords s s') : s'.newest ino = s.newest ino := by
  have search : searchVnodeByIndex s' ino = searchVnodeByIndex s ino := by
    unfold searchVnodeByIndex
    rw [same.active]
    simp only [same.index]
  unfold FmState.newest
  rw [search, same.disk]
  cases searchVnodeByIndex s ino with
  | none => rfl
  | some v => exact same.inode v

theorem StoredFile.of_same (file : StoredFile ino data s) (same : SameRecords s s') :
    StoredFile ino data s' := by
  refine ⟨file.small, file.one.of_same same.toSameVnodes, ?_, ?_⟩
  · rw [newest_of_same same]
    exact file.shows.congr same.disk same.used same.cursor
  · rw [newest_of_same same]
    exact file.device

/-- The file after its record was changed in the vnode. -/
theorem StoredFile.rewrite (file : StoredFile ino data s) (carries : Carries s ino v)
    (same : SameVnodes s s') {data' : List UInt8} (shows : Shows (s'.vnodes v).inode data' s')
    (device : (s'.vnodes v).inode.devId = 0) : StoredFile ino data' s' := by
  have one := file.one.of_same same
  have newest := one.newest_eq (carries.of_same same)
  refine ⟨file.small, one, ?_, ?_⟩
  · rw [newest]
    exact shows
  · rw [newest]
    exact device

/-- **The last close**: the record goes to the disk, and no vnode carries the number. -/
theorem StoredFile.retire (file : StoredFile ino data s) (carries : Carries s ino v) :
    StoredFile ino data (s.retire v) := by
  have active : s.activeVnodeList.Nodup := (List.nodup_append.mp file.one.nodup).2.1
  have absent : ∀ w, ¬ Carries (s.retire v) ino w := by
    intro w other
    have member : w ∈ s.activeVnodeList.erase v := other.active
    obtain ⟨different, old⟩ := active.mem_erase_iff.mp member
    exact different (file.one.single w old v carries.active other.index carries.index)
  have record := file.one.newest_eq carries
  have shows := file.shows
  have device := file.device
  rw [record] at shows device
  have newest : (s.retire v).newest ino = INode.ofWords (s.vnodes v).inode.words := by
    rw [newest_of_absent absent]
    show diskInode (s.disk.writeWords (inodeAddr (s.vnodes v).index).toNat 19 _) ino = _
    rw [carries.index]
    exact diskInode_writeWords _
  refine ⟨file.small, ⟨?_, fun w here w' there one two => ?_⟩, ?_, ?_⟩
  · have moved : (v :: s.freeVnodeList ++ s.activeVnodeList.erase v).Perm
        (s.freeVnodeList ++ s.activeVnodeList) :=
      List.perm_middle.symm.trans ((List.perm_cons_erase carries.active).symm.append_left _)
    exact moved.nodup_iff.mpr file.one.nodup
  · exact (absent w ⟨here, one⟩).elim
  · rw [newest, ofWords_words]
    refine shows.of_blocks ?_ rfl (fun x high => ?_) rfl rfl
    · have small := shows.own.size_le
      dsimp only
      rw [shows.size, ofInt_natCast]
      exact toInt_ofNat (by omega)
    · refine Store.writeWords_outside ?_
      have inside := file.small
      rw [carries.index, inodeAddr_toNat inside]
      omega
  · rw [newest, ofWords_words]
    dsimp only
    rw [device]
    decide

/-- **The next OPEN** takes a fresh vnode and reads the record from the disk. -/
theorem StoredFile.reopen (file : StoredFile ino data s) (absent : searchVnodeByIndex s ino = none)
    {rest : List Nat} (free : s.freeVnodeList = v :: rest) {vnode : Vnode}
    (index : vnode.index = ino) (record : vnode.inode = diskInode s.disk ino) :
    StoredFile ino data ((s.takeVnode v rest).setVnode v vnode) := by
  have fresh : v ∉ s.activeVnodeList := by
    have nodup := file.one.nodup
    rw [free] at nodup
    exact fun old => (List.nodup_cons.mp nodup).1 (List.mem_append_right _ old)
  have carries : Carries ((s.takeVnode v rest).setVnode v vnode) ino v := by
    refine ⟨List.mem_append_right _ (List.mem_singleton_self v), ?_⟩
    simp [FmState.setVnode, index]
  have only : ∀ w ∈ s.activeVnodeList ++ [v],
      (((s.takeVnode v rest).setVnode v vnode).vnodes w).index = ino → w = v := by
    intro w member number
    rcases List.mem_append.mp member with old | new
    · by_contra different
      refine search_none absent (v := w) ⟨old, ?_⟩
      simpa [FmState.setVnode, FmState.takeVnode, Function.update_of_ne different] using number
    · exact List.mem_singleton.mp new
  have one : OneVnode ino ((s.takeVnode v rest).setVnode v vnode) := by
    refine ⟨?_, fun w here w' there first second => ?_⟩
    · have moved : (rest ++ (s.activeVnodeList ++ [v])).Perm
          (s.freeVnodeList ++ s.activeVnodeList) := by
        rw [free, ← List.append_assoc]
        exact List.perm_append_singleton v _
      exact moved.nodup_iff.mpr file.one.nodup
    · rw [only w here first, only w' there second]
  have newest : ((s.takeVnode v rest).setVnode v vnode).newest ino = s.newest ino := by
    rw [one.newest_eq carries, newest_of_absent fun w => search_none absent]
    simp [FmState.setVnode, record]
  refine ⟨file.small, one, ?_, ?_⟩
  · rw [newest]
    exact file.shows.congr rfl rfl rfl
  · rw [newest]
    exact file.device

end Stored

/-! ### Requests on one file -/

/-- Descriptor `fd` of process `src` is open on entry `e`, which leads to the file. -/
structure OpenOn (s : FmState) (ino src : Nat) (fd : Int) (e : Nat) : Prop where
  descriptor : Descriptor s src fd e
  carries : Carries s ino (s.files e).vnode

/-- The path leads to the file for process `src`. -/
def Names (s : FmState) (ino src : Nat) (path : List UInt8) : Prop :=
  ∃ dir walked s₁, walkStart (s.pcbs src).currentDir path = (dir, walked) ∧ walked.head? ≠ some 0 ∧
    resolve walked.length dir walked s = .ok (some (ino : Int)) s₁

/-- One request on the file, with the bytes written to it so far: a write at its end, a read, a
seek, a close, or an OPEN that finds it. -/
inductive OnFile (ino : Nat) : FmState × List UInt8 → FmState × List UInt8 → Prop
  | write {s s' : FmState} {data : List UInt8} {junk : Junk} {src e : Nat} {fd : Int}
      {buf : List UInt8}
      {reply : Option Reply} (opened : OpenOn s ino src fd e)
      (atEnd : toInt (s.files e).offset = (s.fileInode e).size)
      (run : handle junk src (.write fd buf) s = .ok reply s') :
      OnFile ino (s, data) (s', data ++ buf)
  | quiet {s s' : FmState} {data : List UInt8} {src e : Nat} {fd : Int}
      (opened : OpenOn s ino src fd e)
      (request : Quiet (s.files e).vnode s s') : OnFile ino (s, data) (s', data)
  | close {s s' : FmState} {data : List UInt8} {junk : Junk} {src e : Nat} {fd : Int}
      {reply : Option Reply} (opened : OpenOn s ino src fd e)
      (run : handle junk src (.close fd) s = .ok reply s') : OnFile ino (s, data) (s', data)
  | «open» {s s' : FmState} {data : List UInt8} {junk : Junk} {src : Nat}
      {path : List UInt8} {flag : Int}
      {reply : Option Reply} (names : Names s ino src path)
      (run : handle junk src (.open path flag) s = .ok reply s') : OnFile ino (s, data) (s', data)

section Steps

variable {s s' : FmState} {ino v e src : Nat} {fd : Int} {data buf : List UInt8}

theorem SameRecords.of_still (same : s'.still = s.still) : SameRecords s s' := by
  cases s
  cases s'
  simp only [FmState.still, FmState.mk.injEq] at same
  obtain ⟨rfl, rfl, rfl, rfl, rfl, rfl, rfl, rfl, _⟩ := same
  exact ⟨⟨fun _ => rfl, rfl, rfl⟩, fun _ => rfl, rfl, rfl, rfl⟩

/-- **A write at the end** appends its bytes; with enough free blocks it does not fail. -/
theorem StoredFile.write (file : StoredFile ino data s) (junk : Junk)
    (opened : OpenOn s ino src fd e) (atEnd : toInt (s.files e).offset = (s.fileInode e).size)
    (buf : List UInt8) :
    Ends (fmWrite junk src fd buf) s
      (fun reply s' => reply = { dest := src, ret := buf.length } ∧ StoredFile ino (data ++ buf) s')
      (fun f _ => Short data.length buf.length s f) := by
  have record := file.one.newest_eq opened.carries
  have shows := file.shows
  have device := file.device
  rw [record] at shows device
  have offset : toInt (s.files e).offset = data.length := by
    rw [atEnd]
    exact shows.size
  refine (fmWrite_ends junk opened.descriptor shows device offset le_rfl
    (fun below => (lt_irrefl _ below).elim) buf).mono ?_ fun _ _ => id
  rintro reply s' ⟨answer, inode', changed, content, coarse⟩
  rw [List.take_length] at content
  refine ⟨answer, ?_⟩
  have state := FmState.eq_of_coarse coarse
  have vnode : (s'.vnodes (s.files e).vnode).inode = inode' := by
    rw [state]
    simp [FmState.setInode, FmState.setOffset]
  refine file.rewrite opened.carries ⟨fun w => ?_, ?_, ?_⟩ ?_ ?_
  · rw [state]
    by_cases same : w = (s.files e).vnode
    · subst same
      simp [FmState.setInode, FmState.setOffset]
    · simp [FmState.setInode, FmState.setOffset, Function.update_of_ne same]
  · rw [state]
    rfl
  · rw [state]
    rfl
  · rw [vnode]
    exact content
  · rw [vnode, changed]
    exact device

theorem StoredFile.close (file : StoredFile ino data s) (opened : OpenOn s ino src fd e)
    {reply : Reply} (run : fmClose src fd s = .ok reply s') : StoredFile ino data s' := by
  obtain ⟨e', s₁, descriptor, released, rfl⟩ := fmClose_cases run
  obtain rfl := Option.some.inj (opened.descriptor.slot.symm.trans descriptor.slot)
  refine StoredFile.of_same (s := s₁) ?_ ⟨⟨fun _ => rfl, rfl, rfl⟩, fun _ => rfl, rfl, rfl, rfl⟩
  have counted : SameRecords s (s.addFile e (-1)) :=
    ⟨⟨fun _ => rfl, rfl, rfl⟩, fun _ => rfl, rfl, rfl, rfl⟩
  rcases releaseFileEntry_cases released with ⟨_, rfl⟩ | ⟨_, s₂, last, rfl⟩
  · exact file.of_same counted
  · refine StoredFile.of_same (s := s₂) ?_ ⟨⟨fun _ => rfl, rfl, rfl⟩, fun _ => rfl, rfl, rfl, rfl⟩
    have fewer := counted.trans (addVnode_same (v := (s.files e).vnode) (-1))
    rcases releaseKernelVnode_cases last with ⟨_, rfl⟩ | ⟨_, rfl⟩
    · exact file.of_same fewer
    · exact (file.of_same fewer).retire (opened.carries.of_same fewer.toSameVnodes)

theorem StoredFile.open (file : StoredFile ino data s) {junk : Junk} {path : List UInt8}
    {flag : Int} (names : Names s ino src path) {reply : Reply}
    (run : fmOpen junk src path flag s = .ok reply s') :
    StoredFile ino data s' := by
  obtain ⟨dir, walked, s₀, start, nonempty, found⟩ := names
  obtain ⟨_, dir', walked', start', cases⟩ := fmOpen_cases run
  obtain ⟨rfl, rfl⟩ : dir' = dir ∧ walked' = walked := by
    rw [start] at start'
    cases start'
    exact ⟨rfl, rfl⟩
  rcases cases with ⟨_, same⟩ | ⟨v, index, s₁, s₂, there, same, vnode, attached⟩ | ⟨v, s₁, s₂, ret,
    s₃, absent, _⟩
  · exact file.of_same (.of_core same)
  · rw [found] at there
    obtain ⟨rfl, rfl⟩ : index = ino ∧ s₁ = s₀ := by
      cases there
      exact ⟨rfl, rfl⟩
    obtain ⟨e, rest, fd, _, _, _, rfl⟩ := attach_cases attached
    refine StoredFile.of_same (s := s₂) ?_ ⟨⟨fun _ => rfl, rfl, rfl⟩, fun _ => rfl, rfl, rfl, rfl⟩
    have file₁ := file.of_same (.of_core same)
    rcases openVnode_cases vnode with ⟨_, rfl⟩ | ⟨unknown, rest, free, rfl⟩
    · exact file₁.of_same (addVnode_same 1)
    · exact file₁.reopen unknown free rfl rfl
  · rcases absent with empty | none
    · exact (nonempty empty).elim
    · rw [found] at none
      cases none

/-- **One request on the file.** -/
theorem StoredFile.step {data' : List UInt8} (file : StoredFile ino data s)
    (request : OnFile ino (s, data) (s', data')) : StoredFile ino data' s' := by
  cases request with
  | write opened atEnd run =>
      obtain ⟨reply, run, _⟩ := map_eq_ok run
      exact ((file.write _ opened atEnd _).of_ok run).2
  | quiet opened request => exact file.of_same (.of_still request.still)
  | close opened run =>
      obtain ⟨reply, run, _⟩ := map_eq_ok run
      exact file.close opened run
  | «open» names run =>
      obtain ⟨reply, run, _⟩ := map_eq_ok run
      exact file.open names run

theorem StoredFile.run {s₀ : FmState} {data₀ : List UInt8} (file : StoredFile ino data₀ s₀)
    (run : Relation.ReflTransGen (OnFile ino) (s₀, data₀) (s, data)) : StoredFile ino data s := by
  generalize final : (s, data) = last at run
  induction run generalizing s data with
  | refl =>
      cases final
      exact file
  | @tail middle _ _ request ih =>
      subst final
      obtain ⟨s₁, data₁⟩ := middle
      exact (ih rfl).step request

end Steps

/-! ### The round trip -/

/-- A plain file on the disk, without bytes. -/
structure EmptyFile (inode : INode) : Prop where
  size : inode.size = 0
  type : inode.type = plainType
  device : inode.devId = 0

/-- **A new file**: empty in the vnode that was made for it, or on the disk when none is active. -/
structure NewFile (ino : Nat) (s : FmState) : Prop where
  small : ino < 1024
  record : (∃ v, Carries s ino v ∧ EmptyFile (s.vnodes v).inode) ∨
    ((∀ v, ¬ Carries s ino v) ∧ EmptyFile (diskInode s.disk ino))

/-- What `_create` leaves for OPEN is a new file. -/
theorem newFile_of_create {s s' : FmState} {junk : Junk} {dir : Int} {name : List UInt8} {v : Nat}
    {u : Unit} (cursors : Cursors s) (taken : v ∈ s.activeVnodeList)
    (run : createFile junk dir name (some v) s = .ok u s') : ∃ ino, NewFile ino s' := by
  obtain ⟨ino, s₁, moved, inside, rfl⟩ := createFile_cases run
  have active : s₁.tables.activeVnodeList = s.tables.activeVnodeList := by rw [moved.tables]
  change s₁.activeVnodeList = s.activeVnodeList at active
  refine ⟨ino, inside cursors, .inl ⟨v, ⟨?_, ?_⟩, ?_⟩⟩
  · show v ∈ s₁.activeVnodeList
    rwa [active]
  · simp [FmState.setVnode]
  · constructor <;> simp [FmState.setVnode]

/-- **The file delivers what was written to it**: every read inside it returns its length and
exactly those bytes, through a descriptor or from the record itself, and a write at its end for
which there are enough free blocks returns. -/
structure Delivers (ino : Nat) (data : List UInt8) (s : FmState) : Prop where
  size : (s.newest ino).size = data.length
  read : ∀ junk src fd e, OpenOn s ino src fd e → ∀ o n : Nat, toInt (s.files e).offset = o →
    o + n ≤ data.length → ∃ s', handle junk src (.read fd n) s
      = .ok (some { dest := src, ret := n, data := (data.drop o).take n }) s'
  readData : ∀ o n : Nat, o + n ≤ data.length →
    ∃ s', readData o (s.newest ino) n s = .ok ((data.drop o).take n) s'
  write : ∀ junk src fd e, OpenOn s ino src fd e → toInt (s.files e).offset = (s.fileInode e).size →
    ∀ buf : List UInt8, blockCost (data.length + buf.length)
      ≤ blockCost data.length + idleCount s.blockBitmap 4096 →
    ∃ s', handle junk src (.write fd buf) s = .ok (some { dest := src, ret := buf.length }) s'

/-- **Write and read back**: after any run of requests on a new file, it delivers the concatenation
of the chunks written to it. -/
theorem written_file_delivers {ino : Nat} {s₀ s : FmState} {data : List UInt8}
    (reachable : Reachable s₀) (new : NewFile ino s₀) (one : OneVnode ino s₀)
    (run : Relation.ReflTransGen (OnFile ino) (s₀, []) (s, data)) : Delivers ino data s := by
  have cursor := reachable.cursors.block
  have start : StoredFile ino [] s₀ := by
    have record : EmptyFile (s₀.newest ino) := by
      rcases new.record with ⟨v, carries, empty⟩ | ⟨absent, empty⟩
      · rwa [one.newest_eq carries]
      · rwa [newest_of_absent absent]
    exact ⟨new.small, one, .empty record.size cursor, record.device⟩
  have file := start.run run
  refine ⟨file.shows.size, ?_, ?_, ?_⟩
  · intro junk src fd e opened o n offset inside
    have record := file.one.newest_eq opened.carries
    have shows := file.shows
    have device := file.device
    rw [record] at shows device
    obtain ⟨s', read, _⟩ := fmRead_ok junk opened.descriptor shows device offset inside
    refine ⟨s', ?_⟩
    show (some <$> fmRead junk src fd n) s = _
    rw [map_eq_pure_bind, run_bind read]
    rfl
  · intro o n inside
    obtain ⟨s', read, _⟩ := file.shows.read inside
    exact ⟨s', read⟩
  · intro junk src fd e opened atEnd buf enough
    have total : Ends (fmWrite junk src fd buf) s
        (fun reply s' => reply = { dest := src, ret := buf.length } ∧
          StoredFile ino (data ++ buf) s')
        fun _ _ => False :=
      (file.write junk opened atEnd buf).mono (fun _ _ => id) fun f _ short => by
        have := short.2
        omega
    obtain ⟨reply, s', write, rfl, _⟩ := total.run_ok
    refine ⟨s', ?_⟩
    show (some <$> fmWrite junk src fd buf) s = _
    rw [map_eq_pure_bind, run_bind write]
    rfl

/-! ### A new file, and one that shares its number with a stale vnode -/

/-- Process 1 writes 250 bytes into the file it has just made. -/
def grownState : FmState :=
  lastState (handle blockJunk 1 (.write 0 (List.replicate 250 1))) newFileState

/-- It writes ten bytes more, over the end of the block. -/
def borderState : FmState :=
  lastState (handle blockJunk 1 (.write 0 (List.replicate 10 2))) grownState

/-- It closes the file. -/
def shutState : FmState := lastState (handle blockJunk 1 (.close 0)) borderState

/-- It opens the file again. -/
def againState : FmState := lastState (handle blockJunk 1 (.open (pathBuffer [47, 97]) 0)) shutState

/-- It seeks the end of the file. -/
def endState : FmState := lastState (handle blockJunk 1 (.lseek 0 0 2)) againState

/-- It writes three bytes there. -/
def longerState : FmState := lastState (handle blockJunk 1 (.write 0 [3, 4, 5])) endState

/-- **Three chunks, over the border of a block and over a close**, are read back. -/
theorem written_file_delivers_chunks :
    Delivers 1 ([] ++ List.replicate 250 1 ++ List.replicate 10 2 ++ [3, 4, 5]) longerState := by
  have grown := run_of_outcome (x := handle blockJunk 1 (.write 0 (List.replicate 250 1)))
    (s := newFileState) (a := some { dest := 1, ret := 250 }) (by decide +kernel)
  have border := run_of_outcome (x := handle blockJunk 1 (.write 0 (List.replicate 10 2)))
    (s := grownState) (a := some { dest := 1, ret := 10 }) (by decide +kernel)
  have shut := run_of_outcome (x := handle blockJunk 1 (.close 0)) (s := borderState)
    (a := some { dest := 1, ret := 0 }) (by decide +kernel)
  have found := run_of_outcome
    (x := resolve (pathBuffer [47, 97]).tail.length 0 (pathBuffer [47, 97]).tail) (s := shutState)
    (a := some 1) (by decide +kernel)
  have again := run_of_outcome (x := handle blockJunk 1 (.open (pathBuffer [47, 97]) 0))
    (s := shutState) (a := some { dest := 1, ret := 0 }) (by decide +kernel)
  have sought := run_of_outcome (x := handle blockJunk 1 (.lseek 0 0 2)) (s := againState)
    (a := some { dest := 1, ret := 0 }) (by decide +kernel)
  have longer := run_of_outcome (x := handle blockJunk 1 (.write 0 [3, 4, 5])) (s := endState)
    (a := some { dest := 1, ret := 3 }) (by decide +kernel)
  have onNew : OpenOn newFileState 1 1 0 127 :=
    ⟨newFile_opened.2.1, ⟨by decide +kernel, by decide +kernel⟩⟩
  have onGrown : OpenOn grownState 1 1 0 127 :=
    ⟨⟨by decide, by decide, by decide, by decide +kernel⟩, ⟨by decide +kernel, by decide +kernel⟩⟩
  have onBorder : OpenOn borderState 1 1 0 127 :=
    ⟨⟨by decide, by decide, by decide, by decide +kernel⟩, ⟨by decide +kernel, by decide +kernel⟩⟩
  have onAgain : OpenOn againState 1 1 0 127 :=
    ⟨⟨by decide, by decide, by decide, by decide +kernel⟩, ⟨by decide +kernel, by decide +kernel⟩⟩
  have onEnd : OpenOn endState 1 1 0 127 := ⟨⟨by decide, by decide, by decide, by decide +kernel⟩,
    ⟨by decide +kernel, by decide +kernel⟩⟩
  have chunks : Relation.ReflTransGen (OnFile 1) (newFileState, [])
      (borderState, [] ++ List.replicate 250 1 ++ List.replicate 10 2) :=
    (Relation.ReflTransGen.single (.write onNew (by decide +kernel) grown)).tail
      (.write onGrown (by decide +kernel) border)
  have reopened : Relation.ReflTransGen (OnFile 1) (newFileState, [])
      (againState, [] ++ List.replicate 250 1 ++ List.replicate 10 2) :=
    (chunks.tail (.close onBorder shut)).tail
      (.open ⟨0, (pathBuffer [47, 97]).tail, _, by decide +kernel, by decide, found⟩ again)
  refine written_file_delivers newFile_opened.1
    ⟨by decide, .inl ⟨124, ⟨?_, ?_⟩, ⟨?_, ?_, ?_⟩⟩⟩ ⟨?_, ?_⟩
    ((reopened.tail (.quiet onAgain (.seek onAgain.descriptor (by decide +kernel) sought))).tail
      (.write onEnd (by decide +kernel) longer))
  all_goals decide +kernel

/-- Process 1 opens the new file `/a`, process 2 deletes it and makes the file `/b`, which gets the
same inode number. -/
def reusedNumber : List (Nat × Request) :=
  [(1, .open (pathBuffer [47, 97]) 1), (2, .delete (pathBuffer [47, 97])),
    (2, .open (pathBuffer [47, 98]) 1)]

/-- A disk on which the inode has been used before. -/
def reusedState : FmState := lastState (serveFromBoot blockJunk reusedNumber) zeroState

/-- Process 2 writes three bytes into `/b`. -/
def wroteState : FmState := lastState (handle blockJunk 2 (.write 0 [1, 2, 3])) reusedState

/-- Process 2 closes it. -/
def closedState : FmState := lastState (handle blockJunk 2 (.close 0)) wroteState

/-- Process 2 opens it again. -/
def reopenedState : FmState :=
  lastState (handle blockJunk 2 (.open (pathBuffer [47, 98]) 0)) closedState

/-- **A stale vnode**: the OPEN finds the vnode of the deleted file, and the read delivers
nothing. -/
theorem stale_vnode : Reachable reusedState ∧ NewFile 1 reusedState ∧
    Relation.ReflTransGen (OnFile 1) (reusedState, []) (reopenedState, [] ++ [1, 2, 3]) ∧
    ¬ Delivers 1 ([] ++ [1, 2, 3]) reopenedState := by
  have wrote := run_of_outcome (x := handle blockJunk 2 (.write 0 [1, 2, 3])) (s := reusedState)
    (a := some { dest := 2, ret := 3 }) (by decide +kernel)
  have closed := run_of_outcome (x := handle blockJunk 2 (.close 0)) (s := wroteState)
    (a := some { dest := 2, ret := 0 }) (by decide +kernel)
  have reopened := run_of_outcome (x := handle blockJunk 2 (.open (pathBuffer [47, 98]) 0))
    (s := closedState)
    (a := some { dest := 2, ret := 0 }) (by decide +kernel)
  have found := run_of_outcome
    (x := resolve (pathBuffer [47, 98]).tail.length 0 (pathBuffer [47, 98]).tail) (s := closedState)
    (a := some 1) (by decide +kernel)
  refine ⟨reachable_serveFromBoot
    (run_of_outcome (a := [some { dest := 1, ret := 0 }, some { dest := 2, ret := 0 },
    some { dest := 2, ret := 0 }]) (by decide +kernel)),
    ⟨by decide, .inl ⟨123, ⟨?_, ?_⟩, ⟨?_, ?_, ?_⟩⟩⟩,
    ((Relation.ReflTransGen.single (.write (e := 126) ⟨⟨?_, ?_, ?_, ?_⟩, ?_, ?_⟩ ?_ wrote)).tail
      (.close (e := 126) ⟨⟨?_, ?_, ?_, ?_⟩, ?_, ?_⟩ closed)).tail
      (.open ⟨0, (pathBuffer [47, 98]).tail, _, ?_, ?_, found⟩ reopened), fun delivers => ?fails⟩
  case fails =>
    obtain ⟨s', full⟩ :=
      delivers.read blockJunk 2 0 126 ⟨⟨by decide, by decide, by decide, by decide +kernel⟩,
      by decide +kernel, by decide +kernel⟩ 0 3 (by decide +kernel) (by decide)
    -- the reply of this read is `0`
    exact absurd (outcome_of_run full) (by decide +kernel)
  all_goals decide +kernel

end NjuOs.FileSystem
