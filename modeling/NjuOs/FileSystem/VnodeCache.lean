/-
**The vnode cache and the terminals.**

`init_file_format` takes three vnodes for the terminals and sets their device number, not their
index, which is the `0` of static memory: the number of the root's inode. They are the first on
`active_vnode_list`, so that `search_vnode_by_index(0)` finds the one of `stdin` and OPEN of any
path to the root attaches a terminal.

`TableSteps` lists what the handlers other than OPEN do to the tables; a preorder that allows each
of these steps allows the handlers (`TableSteps.handle`). Here it is the one by which the terminals
stay at the front of the list with index `0` until one of them is released (`Stay`).
-/

import NjuOs.FileSystem.Tables

namespace NjuOs.FileSystem

open NjuOs.Lib

/-! ### What the handlers do to the tables -/

/-- A relation that holds between the states before and after each step on the tables. -/
structure TableSteps (R : FmState → FmState → Prop) : Prop where
  onDisk : ∀ {s s'}, OnDisk s s' → R s s'
  pcb : ∀ s pid pcb, R s (s.setPcb pid pcb)
  file : ∀ s e file, R s (s.setFile e file)
  takeEntry : ∀ s e rest, R s (s.takeEntry e rest)
  freeEntry : ∀ s e, R s (s.freeEntry e)
  vnode : ∀ s v vnode, vnode.index = (s.vnodes v).index → R s (s.setVnode v vnode)
  retire : ∀ s v, R s (s.retire v)

namespace TableSteps

variable {R : FmState → FmState → Prop} {junk : Junk} {src pid v e : Nat} {fd : Int}
  {path : List UInt8}

section Single

variable (steps : TableSteps R)

include steps

theorem of_core {α : Type} {x : Fm α} (keeps : Keeps FmState.core x) : Moves R x :=
  (onDisk_of_core keeps).mono fun _ _ => steps.onDisk

theorem of_onDisk {α : Type} {x : Fm α} (moves : Moves OnDisk x) : Moves R x :=
  moves.mono fun _ _ => steps.onDisk

theorem modifyPcb {f : Pcb → Pcb} : Moves R (modifyPcb pid f) := .modify fun s => steps.pcb s pid _

theorem modifyFile {f : OpenFile → OpenFile} : Moves R (modifyFile e f) :=
  .modify fun s => steps.file s e _

theorem modifyVnode {f : Vnode → Vnode} (same : ∀ vnode, (f vnode).index = vnode.index) :
    Moves R (modifyVnode v f) :=
  .modify fun s => steps.vnode s v _ (same _)

theorem getFreeFileEntry : Moves R getFreeFileEntry := by
  intro s e s' run
  obtain ⟨rest, _, rfl⟩ := getFreeFileEntry_cases run
  exact steps.takeEntry s e rest

variable [IsTrans FmState R]

omit steps in
theorem chain {s₁ s₂ s₃ : FmState} (first : R s₁ s₂) (second : R s₂ s₃) : R s₁ s₃ :=
  IsTrans.trans _ _ _ first second

theorem releaseFileEntry : Moves R (releaseFileEntry e) := by
  intro s _ s' run
  have counted : R s (s.addFile e (-1)) := steps.file s e _
  have dropped : ∀ (t : FmState) v, R t (t.addVnode v (-1)) := fun t v => steps.vnode t v _ rfl
  rcases releaseFileEntry_cases run with ⟨_, rfl⟩ | ⟨_, s₁, released, rfl⟩
  · exact counted
  · refine chain counted (chain ?_ (steps.freeEntry s₁ e))
    rcases releaseKernelVnode_cases released with ⟨_, rfl⟩ | ⟨_, rfl⟩
    · exact dropped _ _
    · exact chain (dropped _ _) (steps.retire _ _)

theorem fmClose : Moves R (fmClose src fd) := by
  intro s reply s' run
  obtain ⟨e, s₁, _, released, rfl⟩ := fmClose_cases run
  exact chain (steps.releaseFileEntry _ _ _ released) (steps.pcb s₁ src _)

theorem fmDup2 {newFd : Int} : Moves R (fmDup2 src fd newFd) := by
  intro s reply s' run
  obtain ⟨e, _, _, _, _, rfl⟩ := fmDup2_cases run
  exact chain (steps.pcb s src _) (steps.file (s.setSlot src newFd.toNat (some e)) e _)

end Single

theorem looks_slot [Std.Refl R] {pcb : Pcb} : Moves R (fdSlot pcb fd) := .ite .pure .throw

variable [Std.Refl R] [IsTrans FmState R]

theorem looks_pcb {p : Nat} : Moves R (fetchPcb p) := .ite (.bind .get fun _ => .pure) .throw

variable (steps : TableSteps R)

include steps

theorem fmRead {len : Int} : Moves R (fmRead junk src fd len) := by
  refine .bind looks_pcb fun _ => .bind looks_slot fun slot => ?_
  cases slot with
  | none => exact .pure
  | some e =>
      exact .bind .get fun _ => .bind .get fun _ => .ite
        (.bind (steps.of_core readData_core) fun _ => .bind steps.modifyFile fun _ => .pure)
        (.bind (.ite .pure .throw) fun _ => .pure)

theorem fmWrite {buf : List UInt8} : Moves R (fmWrite junk src fd buf) := by
  refine .bind looks_pcb fun _ => .bind looks_slot fun slot => ?_
  cases slot with
  | none => exact .pure
  | some e =>
      have cut : ∀ v o, Moves R (cutFile v o) := fun _ _ => .bind .get fun _ =>
        .ite (.bind (steps.of_onDisk releaseBlock_onDisk) fun _ =>
          steps.modifyVnode fun _ => rfl) .pure
      have store : ∀ file o, Moves R (storeFile junk src e file o buf) := fun _ _ =>
        .bind .get fun _ => .ite
          (.bind (steps.of_onDisk writeData_onDisk) fun _ =>
            .bind (steps.modifyVnode fun _ => rfl) fun _ =>
            .bind steps.modifyFile fun _ => .pure)
          (.bind (.ite .pure .throw) fun _ => .pure)
      exact .bind .get fun _ => .bind (cut _ _) fun _ => store _ _

theorem fmLseek {offset whence : Int} : Moves R (fmLseek src fd offset whence) := by
  refine .bind looks_pcb fun _ => .bind looks_slot fun slot => ?_
  cases slot with
  | none => exact .pure
  | some e => exact .bind .get fun _ => .bind .get fun _ => .bind steps.modifyFile fun _ => .pure

theorem fmDup : Moves R (fmDup src fd) := by
  intro s reply s' run
  rcases fmDup_cases run with ⟨_, rfl⟩ | ⟨e, minFd, _, _, _, rfl⟩
  · exact Std.Refl.refl _
  · exact chain (steps.file s e _) (steps.pcb (s.addFile e 1) src _)

theorem fmLsdir : Moves R (fmLsdir src path) := by
  refine .bind looks_pcb fun _ => .bind (steps.of_core walkTo_core) fun found => ?_
  cases found with
  | none => exact .pure
  | some dir => exact .bind (steps.of_core lsdir_core) fun _ => .pure

theorem fmChdir : Moves R (fmChdir src path) := by
  refine .bind looks_pcb fun _ => .ite .pure (.bind (steps.of_core walkTo_core) fun found => ?_)
  cases found with
  | none => exact .pure
  | some dir =>
      exact .bind (steps.of_core readInodeFromDisk_core) fun _ => .ite .pure
        (.bind steps.modifyPcb fun _ => .pure)

theorem exitSlots {count : Nat} : Moves R (exitSlots src count) := by
  induction count with
  | zero => exact .pure
  | succ count ih =>
      refine .bind ih fun _ => .bind .get fun s => ?_
      cases (s.pcbs src).fdTable count with
      | none => exact .pure
      | some e => exact steps.releaseFileEntry

theorem copySlots {parent count : Nat} : Moves R (copySlots pid parent count) := by
  induction count with
  | zero => exact .pure
  | succ count ih =>
      refine .bind ih fun _ => .bind .get fun s => ?_
      cases (s.pcbs parent).fdTable count with
      | none => exact .pure
      | some e => exact .bind steps.modifyFile fun _ => steps.modifyPcb

theorem initFdTable : Moves R (initFdTable src pid) :=
  have more :
    ∀ v : Nat, Moves
    R (FileSystem.modifyVnode v fun vnode => { vnode with count := vnode.count + 1 }) :=
    fun _ => steps.modifyVnode fun _ => rfl
  .bind looks_pcb fun _ => .bind steps.getFreeFileEntry fun _ => .bind steps.modifyPcb fun _ =>
    .bind steps.getFreeFileEntry fun _ => .bind steps.modifyPcb fun _ =>
    .bind steps.getFreeFileEntry fun _ => .bind steps.modifyPcb fun _ => .bind .get fun _ =>
    .bind steps.modifyFile fun _ => .bind (more _) fun _ => .bind steps.modifyFile fun _ =>
    .bind (more _) fun _ => .bind steps.modifyFile fun _ => .bind (more _) fun _ => .pure

/-- **Every request but OPEN** is made of these steps. -/
theorem handle {request : Request} (other : ∀ path flag, request ≠ .open path flag) :
    Moves R (handle junk src request) := by
  have reply : ∀ {x : Fm Reply}, Moves R x → Moves R (some <$> x) := fun moves => moves.map
  cases request with
  | «open» path flag => exact absurd rfl (other path flag)
  | read fd len => exact reply steps.fmRead
  | write fd buf => exact reply steps.fmWrite
  | close fd => exact reply steps.fmClose
  | create path =>
      exact reply (.bind looks_pcb fun _ => .bind (steps.of_onDisk create_onDisk) fun _ => .pure)
  | delete path =>
      exact reply (.bind looks_pcb fun _ => .bind (steps.of_onDisk deleteFile_onDisk)
        fun _ => .pure)
  | lseek fd offset whence => exact steps.fmLseek
  | dup fd => exact steps.fmDup
  | dup2 fd newFd => exact reply steps.fmDup2
  | mkdir path =>
      exact reply (.bind looks_pcb fun _ => .bind (steps.of_onDisk createDir_onDisk) fun _ => .pure)
  | rmdir path =>
      exact reply (.bind looks_pcb fun _ => .bind (steps.of_onDisk deleteFile_onDisk)
        fun _ => .pure)
  | lsdir path => exact reply steps.fmLsdir
  | chdir path => exact reply steps.fmChdir
  | exitFile pid => exact reply (.bind looks_pcb fun _ => .bind steps.exitSlots fun _ => .pure)
  | copyFdTable child parent =>
      exact reply (.bind looks_pcb fun _ => .bind looks_pcb fun _ =>
        .bind steps.copySlots fun _ => .pure)
  | initFdTable pid => exact reply steps.initFdTable

end TableSteps

/-! ### The terminals at the front -/

/-- The vnodes of the terminals, in the order in which they were taken. -/
def FmState.terminals (s : FmState) : List Nat := [s.stdinVnode, s.stdoutVnode, s.stderrVnode]

/-- The vnodes of `ts` that are not released keep their index, and their place at the front of the
list. -/
structure Stay (ts : List Nat) (s s' : FmState) : Prop where
  free : ∀ v ∈ s.freeVnodeList, v ∈ s'.freeVnodeList
  terminals : s'.terminals = s.terminals
  index : ∀ v, (s'.vnodes v).index = (s.vnodes v).index
  front : (∀ t ∈ ts, t ∉ s'.freeVnodeList) → ts <+: s.activeVnodeList → ts <+: s'.activeVnodeList

instance (ts : List Nat) : Std.Refl (Stay ts) :=
  ⟨fun _ => ⟨fun _ => id, rfl, fun _ => rfl, fun _ => id⟩⟩

instance (ts : List Nat) : IsTrans FmState (Stay ts) where
  trans _ _ _ first second :=
    { free := fun v member => second.free v (first.free v member)
      terminals := second.terminals.trans first.terminals
      index := fun v => (second.index v).trans (first.index v)
      front := fun kept front =>
        second.front
          kept (first.front (fun t member gone => kept t member (second.free t gone)) front) }

theorem erase_front {ts active : List Nat} {v : Nat} (front : ts <+: active) (other : v ∉ ts) :
    ts <+: active.erase v := by
  obtain ⟨rest, rfl⟩ := front
  rw [List.erase_append_right _ other]
  exact List.prefix_append _ _

theorem stay_steps (ts : List Nat) : TableSteps (Stay ts) where
  onDisk moved := by
    rw [FmState.eq_of_tables moved.tables]
    exact ⟨fun _ => id, rfl, fun _ => rfl, fun _ => id⟩
  pcb _ _ _ := ⟨fun _ => id, rfl, fun _ => rfl, fun _ => id⟩
  file _ _ _ := ⟨fun _ => id, rfl, fun _ => rfl, fun _ => id⟩
  takeEntry _ _ _ := ⟨fun _ => id, rfl, fun _ => rfl, fun _ => id⟩
  freeEntry _ _ := ⟨fun _ => id, rfl, fun _ => rfl, fun _ => id⟩
  vnode s v vnode same := by
    refine ⟨fun _ => id, rfl, fun w => ?_, fun _ => id⟩
    by_cases here : w = v
    · subst here
      simpa [FmState.setVnode] using same
    · simp [FmState.setVnode, here]
  retire s v := by
    refine ⟨fun _ => List.mem_cons_of_mem v, rfl, fun _ => rfl,
      fun kept front => erase_front front fun member => ?_⟩
    exact kept v member List.mem_cons_self

/-- **The terminals stand**: not released, at the front of the active list, with the index of the
root. -/
structure Standing (s : FmState) : Prop where
  nodup : s.terminals.Nodup
  active : s.terminals <+: s.activeVnodeList
  index : ∀ t ∈ s.terminals, (s.vnodes t).index = 0
  kept : ∀ t ∈ s.terminals, t ∉ s.freeVnodeList

section Standing

variable {s s' : FmState} {v : Nat}

theorem Standing.of_stay (standing : Standing s) (stay : Stay s.terminals s s')
    (kept : ∀ t ∈ s'.terminals, t ∉ s'.freeVnodeList) : Standing s' := by
  rw [stay.terminals] at kept
  refine ⟨?_, ?_, ?_, ?_⟩ <;> rw [stay.terminals]
  · exact standing.nodup
  · exact stay.front kept standing.active
  · exact fun t member => (stay.index t).trans (standing.index t member)
  · exact kept

theorem Standing.of_onDisk (standing : Standing s) (moved : OnDisk s s') : Standing s' := by
  rw [FmState.eq_of_tables moved.tables]
  exact ⟨standing.nodup, standing.active, standing.index, standing.kept⟩

/-- A free vnode is none of the terminals. -/
theorem Standing.take (standing : Standing s) {rest : List Nat} (free : s.freeVnodeList = v :: rest)
    (vnode : Vnode) :
    v ∉ s.terminals ∧ Standing (s.takeVnode v rest) ∧
    Standing ((s.takeVnode v rest).setVnode v vnode) := by
  have other : v ∉ s.terminals := fun member => standing.kept v member (by simp [free])
  have kept : ∀ t ∈ s.terminals, t ∉ rest :=
    fun t member found => standing.kept t member (by simp [free, found])
  have ne : ∀ t ∈ s.terminals, t ≠ v := fun t member same => other (same ▸ member)
  have front : s.terminals <+: s.activeVnodeList ++ [v] :=
    standing.active.trans (List.prefix_append _ _)
  refine ⟨other, ⟨standing.nodup, front, fun t member => ?_, kept⟩,
    ⟨standing.nodup, front, fun t member => ?_, kept⟩⟩
  · simp only [FmState.takeVnode, Function.update_of_ne (ne t member)]
    exact standing.index t member
  · simp only [FmState.setVnode, FmState.takeVnode, Function.update_of_ne (ne t member)]
    exact standing.index t member

theorem Standing.setVnode (standing : Standing s) (other : v ∉ s.terminals) (vnode : Vnode) :
    Standing (s.setVnode v vnode) := by
  refine ⟨standing.nodup, standing.active, fun t member => ?_, standing.kept⟩
  have ne : t ≠ v := fun same => other (same ▸ member)
  simp only [FmState.setVnode, Function.update_of_ne ne]
  exact standing.index t member

theorem Standing.of_openVnode (standing : Standing s) {index : Int}
    (run : openVnode index s = .ok v s') : Standing s' := by
  rcases openVnode_cases run with ⟨_, rfl⟩ | ⟨_, rest, free, rfl⟩
  · exact standing.of_stay ((stay_steps _).vnode s v _ rfl) standing.kept
  · exact (standing.take free _).2.2

theorem Standing.of_attach (standing : Standing s) {src : Nat} {reply : Reply}
    (run : attach src v s = .ok reply s') :
    Standing s' := by
  obtain ⟨e, rest, fd, _, _, _, rfl⟩ := attach_cases run
  exact ⟨standing.nodup, standing.active, standing.index, standing.kept⟩

theorem Standing.of_open (standing : Standing s) {junk : Junk} {src : Nat} {path : List UInt8}
    {flag : Int} {reply : Reply} (run : fmOpen junk src path flag s = .ok reply s') :
    Standing s' := by
  obtain ⟨_, dir, walked, _, none | ⟨v, index, s₁, s₂, _, same, opened, attached⟩ |
    ⟨v, s₁, s₂, ret, s₃, _, same, taken, created, attached⟩⟩ := fmOpen_cases run
  · exact standing.of_onDisk (.of_core none.2)
  · exact ((standing.of_onDisk (.of_core same)).of_openVnode opened).of_attach attached
  · have before := standing.of_onDisk (.of_core same)
    obtain ⟨rest, free, rfl⟩ := getFreeVnode_cases taken
    obtain ⟨other, standing₂, _⟩ := before.take free (s₁.vnodes v)
    refine Standing.of_attach ?_ attached
    rcases create_cases created with ⟨_, same⟩ | ⟨_, _, _, s₄, moved, file⟩
    · exact standing₂.of_onDisk (.of_core same)
    · obtain ⟨index, s₅, made, _, rfl⟩ := createFile_cases file
      have moved : OnDisk (s₁.takeVnode v rest) s₅ := Trans.trans moved made
      refine (standing₂.of_onDisk moved).setVnode ?_ _
      rw [FmState.eq_of_tables moved.tables]
      exact other

theorem Standing.of_handle (standing : Standing s) {junk : Junk} {src : Nat} {request : Request}
    {reply : Option Reply} (run : handle junk src request s = .ok reply s')
    (kept : ∀ t ∈ s'.terminals, t ∉ s'.freeVnodeList) :
    Standing s' := by
  by_cases opens : ∃ path flag, request = .open path flag
  · obtain ⟨path, flag, rfl⟩ := opens
    obtain ⟨reply, opened, _⟩ := map_eq_ok run
    exact standing.of_open opened
  · refine standing.of_stay ((stay_steps s.terminals).handle ?_ _ _ _ run) kept
    exact fun path flag same => opens ⟨path, flag, same⟩

/-- After boot they do. -/
theorem standing_of_boot (start : Boot s) : Standing s := by
  have boot := bootTables_of_boot start
  have terminals : s.terminals = [127, 126, 125] := by
    rw [FmState.terminals, boot.stdin, boot.stdout, boot.stderr]
  refine ⟨?_, ?_, fun t _ => boot.index t, fun t member => ?_⟩
  · rw [terminals]
    decide
  · rw [terminals, boot.active]
  · rw [terminals] at member
    rw [boot.free]
    simp only [List.mem_cons, List.not_mem_nil, or_false] at member
    simp only [List.mem_reverse, List.mem_range]
    omega

end Standing

/-! ### Runs -/

/-- A run in which no terminal's vnode is released: states the server gets to from `s₀`. -/
inductive Kept (s₀ : FmState) : FmState → Prop
  | refl : Kept s₀ s₀
  | step {s s' : FmState} {junk : Junk} {src : Nat} {request : Request} {reply : Option Reply} :
    Kept s₀ s → handle junk src request s = .ok reply s' →
      (∀ t ∈ s'.terminals, t ∉ s'.freeVnodeList) → Kept s₀ s'

theorem Kept.standing {s₀ s : FmState} (start : Boot s₀) (run : Kept s₀ s) : Standing s := by
  induction run with
  | refl => exact standing_of_boot start
  | step _ handled kept ih => exact ih.of_handle handled kept

/-- No two active vnodes carry the same inode number. -/
def Distinct (s : FmState) : Prop :=
  ∀ v ∈ s.activeVnodeList, ∀ w ∈ s.activeVnodeList, (s.vnodes v).index = (s.vnodes w).index → v = w

/-- The path, as process `src` gives it to OPEN, resolves to the inode number `n`. -/
def Resolves (s : FmState) (src : Nat) (path : List UInt8) (n : Int) : Prop :=
  ∃ dir walked s₁, walkStart (s.pcbs src).currentDir path = (dir, walked) ∧ walked.head? ≠ some 0 ∧
    resolve walked.length dir walked s = .ok (some n) s₁

/-- The descriptor `fd` of process `src` is on vnode `v`. -/
def OnVnode (s : FmState) (src : Nat) (fd : Int) (v : Nat) : Prop :=
  ∃ e, (s.pcbs src).fdTable fd.toNat = some e ∧ (s.files e).vnode = v

section Open

variable {s s' : FmState} {junk : Junk} {src v : Nat} {path : List UInt8} {flag n : Int}
  {reply : Reply}

theorem fmOpen_found (resolves : Resolves s src path n)
    (run : fmOpen junk src path flag s = .ok reply s') :
    ∃ v s₁ s₂, s₁.core = s.core ∧ openVnode n s₁ = .ok v s₂ ∧ attach src v s₂ = .ok reply s' := by
  obtain ⟨dir, walked, s₁, start, some, walk⟩ := resolves
  obtain ⟨_, _, fetched, run⟩ := bind_eq_ok.mp run
  obtain ⟨process, rfl, rfl⟩ := fetchPcb_cases fetched
  rw [start] at run
  obtain ⟨found, s₂, looked, run⟩ := bind_eq_ok.mp run
  obtain ⟨_, _, empty | none⟩ | ⟨v, index, s₃, rfl, walk', same, opened⟩ := readInode_cases looked
  · exact absurd empty some
  · rw [walk] at none
    simp at none
  · rw [walk] at walk'
    obtain ⟨rfl, rfl⟩ : n = index ∧ s₁ = s₃ := by simpa using walk'
    rw [if_neg (by simp)] at run
    obtain ⟨_, _, vnode, run⟩ := bind_eq_ok.mp run
    obtain ⟨rfl, rfl⟩ := pure_eq_ok.mp vnode
    exact ⟨v, s₁, s₂, same, opened, run⟩

theorem attach_onVnode (run : attach src v s = .ok reply s') :
    OnVnode s' src reply.ret v ∧ s'.vnodes = s.vnodes ∧ s'.terminals = s.terminals := by
  obtain ⟨e, rest, fd, _, idle, rfl, rfl⟩ := attach_cases run
  refine ⟨⟨e, ?_, ?_⟩, rfl, rfl⟩
  · simp [FmState.setPcb]
  · simp [FmState.setPcb, FmState.setFile]

/-- The vnode for `n`: that of `stdin` for the root, and none of the terminals' for any other
number. -/
theorem Standing.vnode_for (standing : Standing s) (run : openVnode n s = .ok v s') :
    (s'.vnodes v).index = n ∧ (v ∈ s'.terminals ↔ n = 0) ∧
      (searchVnodeByIndex s n = none → (s'.vnodes v).inode = diskInode s.disk n) := by
  rcases openVnode_cases run with ⟨found, rfl⟩ | ⟨absent, rest, free, rfl⟩
  · have carries : (s.vnodes v).index = n := by simpa using List.find?_some found
    refine ⟨by
      simpa [FmState.addVnode] using carries, ⟨fun member => ?_, fun root => ?_⟩, by simp [found]⟩
    · exact carries.symm.trans (standing.index v member)
    · subst root
      obtain ⟨rest, active⟩ := standing.active
      have first : searchVnodeByIndex s 0 = some s.stdinVnode := by
        unfold searchVnodeByIndex
        rw [← active]
        exact List.find?_cons_of_pos (by simpa using standing.index _ (by simp [FmState.terminals]))
      obtain rfl := Option.some.inj (first.symm.trans found)
      exact List.mem_cons_self
  · refine ⟨by
      simp [FmState.setVnode], ⟨fun member => ?_, fun root => ?_⟩,
      fun _ => by simp [FmState.setVnode]⟩
    · exact absurd member (standing.take free (s.vnodes v)).1
    · subst root
      have none := List.find?_eq_none.mp absent s.stdinVnode
        (standing.active.subset List.mem_cons_self)
      exact absurd (standing.index _ List.mem_cons_self) (by simpa using none)

theorem Standing.not_distinct (standing : Standing s) : ¬ Distinct s := by
  intro distinct
  have nodup := standing.nodup
  have members : ∀ t ∈ s.terminals, t ∈ s.activeVnodeList :=
    fun t member => standing.active.subset member
  have same := distinct s.stdinVnode (members _ (by simp [FmState.terminals]))
    s.stdoutVnode (members _ (by simp [FmState.terminals]))
    ((standing.index _ (by simp [FmState.terminals])).trans
      (standing.index _ (by simp [FmState.terminals])).symm)
  simp [FmState.terminals, same] at nodup

end Open

/-- **The vnode cache.** In a run from boot, as long as no terminal's vnode is released, two active
vnodes carry the same inode number in every state, the first one included; and OPEN gives a terminal
for exactly those paths that resolve to the root, and else a vnode with the path's inode number,
filled from the disk if no vnode had it. -/
theorem vnode_cache {s₀ s : FmState} (start : Boot s₀) (run : Kept s₀ s) :
    ¬ Distinct s ∧
    ∀ (junk : Junk) (src : Nat) (path : List UInt8) (flag n : Int) (reply : Reply) (s' : FmState),
      Resolves s src path n → fmOpen junk src path flag s = .ok reply s' →
        ∃ v, OnVnode s' src reply.ret v ∧ (s'.vnodes v).index = n ∧ (v ∈ s'.terminals ↔ n = 0) ∧
          (searchVnodeByIndex s n = none → (s'.vnodes v).inode = diskInode s.disk n) := by
  have standing := run.standing start
  refine ⟨standing.not_distinct, ?_⟩
  intro junk src path flag n reply s' resolves opened
  obtain ⟨v, s₁, s₂, same, found, attached⟩ := fmOpen_found resolves opened
  obtain ⟨on, vnodes, terminals⟩ := attach_onVnode attached
  obtain ⟨index, root, filled⟩ := (standing.of_onDisk (.of_core same)).vnode_for found
  have disk : s₁.core.disk = s.core.disk := congrArg (fun t : FmState => t.disk) same
  have search : searchVnodeByIndex s₁.core n = searchVnodeByIndex s.core n :=
    congrArg (fun t : FmState => searchVnodeByIndex t n) same
  rw [vnodes, terminals]
  refine ⟨v, on, index, root, fun absent => ?_⟩
  exact (filled (search.trans absent)).trans (congrArg (fun d => diskInode d n) disk)

/-- The state after process 1 has opened the path "/." in a freshly booted system. -/
def rootOpened : FmState := lastState (fmOpen zeroJunk 1 (pathBuffer [47, 46]) 0) bootState

theorem rootOpened_run :
    fmOpen zeroJunk 1 (pathBuffer [47, 46]) 0 bootState = .ok { dest := 1, ret := 0 } rootOpened :=
  run_of_outcome (by decide +kernel)

theorem root_resolves : Resolves bootState 1 (pathBuffer [47, 46]) 0 := by
  have walk : outcome
    (resolve (pathBuffer [47, 46]).tail.length 0 (pathBuffer [47, 46]).tail) bootState =
      some (some 0) := by decide +kernel
  exact ⟨0, (pathBuffer [47, 46]).tail, _, by decide +kernel, by decide, run_of_outcome walk⟩

theorem vnode_cache_boot : Boot bootState ∧ Kept bootState bootState ∧ ¬ Distinct bootState ∧
    ∃ v, OnVnode rootOpened 1 0 v ∧ (v ∈ rootOpened.terminals ↔ (0 : Int) = 0) := by
  obtain ⟨distinct, opens⟩ := vnode_cache boot_bootState .refl
  obtain ⟨v, on, _, root, _⟩ := opens zeroJunk 1 _ 0 0 _ _ root_resolves rootOpened_run
  exact ⟨boot_bootState, .refl, distinct, v, on, root⟩

/-- A descriptor on the vnode of `stdin` for the path "/.". -/
theorem root_is_terminal :
    ¬ ∀ s, Reachable s → Distinct s ∧
    ∀ (junk : Junk) (src : Nat) (path : List UInt8) (flag n : Int) (reply : Reply)
      (s' : FmState), Resolves s src path n → fmOpen junk src path flag s = .ok reply s' →
        ∃ v, OnVnode s' src reply.ret v ∧ (s'.vnodes v).index = n ∧ v ∉ s'.terminals := by
  intro all
  obtain ⟨v, ⟨e, slot, on⟩, _, other⟩ :=
    (all bootState (.boot boot_bootState)).2 zeroJunk 1 _ 0 0 _ _ root_resolves rootOpened_run
  have entry : (rootOpened.pcbs 1).fdTable 0 = some 127 := by decide +kernel
  simp only [Int.toNat_zero] at slot
  obtain rfl : 127 = e := Option.some.inj (entry.symm.trans slot)
  have vnode : (rootOpened.files 127).vnode = rootOpened.stdinVnode := by decide +kernel
  exact other (by rw [← on, vnode]; exact List.mem_cons_self)

end NjuOs.FileSystem
