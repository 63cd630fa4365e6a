/-
**Descriptors that are not open, and the one OPEN gives.**

Six requests name a descriptor of the caller, any integer. READ and WRITE look at the slot and
answer `-1` when it is empty; nothing asks whether the integer is inside the table, LSEEK and DUP
leave the caller without an answer, and CLOSE and DUP2 follow the null pointer
(`bad_descriptor_iff`).

`min_fd` is where OPEN and DUP start their search round the table. It is a hint that no request
spoils: below it every slot is in use (`Hinted`), so the first free slot the search meets is the
lowest one (`lowest_free_descriptor`).
-/

import NjuOs.FileSystem.VnodeCache

namespace NjuOs.FileSystem

open NjuOs.Lib

/-! ### Descriptors that are not open -/

/-- The descriptor a request works on. -/
def Request.source : Request → Option Int
  | .read fd _ => some fd
  | .write fd _ => some fd
  | .close fd => some fd
  | .lseek fd _ _ => some fd
  | .dup fd => some fd
  | .dup2 fd _ => some fd
  | _ => none

/-- READ and WRITE answer when the slot is empty. -/
def Request.checks : Request → Bool
  | .read _ _ => true
  | .write _ _ => true
  | _ => false

/-- The caller gets one reply, `-1`, and no table, bitmap or block is changed. -/
def Refuses (junk : Junk) (src : Nat) (request : Request) (s : FmState) : Prop :=
  ∃ s', handle junk src request s = .ok (some { dest := src, ret := -1 }) s' ∧ s'.pcbs = s.pcbs ∧
    s'.files = s.files ∧
    s'.vnodes = s.vnodes ∧ s'.inodeBitmap = s.inodeBitmap ∧ s'.blockBitmap = s.blockBitmap ∧
      s'.disk = s.disk

section Refuses

variable {junk : Junk} {src : Nat} {s : FmState} {fd : Int}

theorem fdSlot_empty (bad : ¬ ∃ e, Descriptor s src fd e) (process : src < 50) (low : 0 ≤ fd)
    (high : fd < 100) :
    fdSlot (s.pcbs src) fd s = .ok none s := by
  unfold fdSlot
  rw [if_pos ⟨low, high⟩]
  cases slot : (s.pcbs src).fdTable fd.toNat with
  | none => rfl
  | some e => exact absurd ⟨e, process, low, high, slot⟩ bad

theorem refuses_read (bad : ¬ ∃ e, Descriptor s src fd e) (process : src < 50) (low : 0 ≤ fd)
    (high : fd < 100) (len : Int) :
    handle junk src (.read fd len) s = .ok (some { dest := src, ret := -1 }) s := by
  have run : fmRead junk src fd len s = .ok { dest := src, ret := -1 } s := by
    unfold fmRead
    rw [run_bind (fetchPcb_ok process), run_bind (fdSlot_empty bad process low high)]
    rfl
  show EStateM.map some (fmRead junk src fd len) s = _
  unfold EStateM.map
  rw [run]

theorem refuses_write (bad : ¬ ∃ e, Descriptor s src fd e) (process : src < 50) (low : 0 ≤ fd)
    (high : fd < 100) (buf : List UInt8) :
    handle junk src (.write fd buf) s = .ok (some { dest := src, ret := -1 }) s := by
  have run : fmWrite junk src fd buf s = .ok { dest := src, ret := -1 } s := by
    unfold fmWrite
    rw [run_bind (fetchPcb_ok process), run_bind (fdSlot_empty bad process low high)]
    rfl
  show EStateM.map some (fmWrite junk src fd buf) s = _
  unfold EStateM.map
  rw [run]

/-- READ and WRITE index the table. -/
theorem fdSlot_of_read {len : Int} {reply : Option Reply} {s' : FmState}
    (run : handle junk src (.read fd len) s = .ok reply s') : 0 ≤ fd ∧ fd < 100 := by
  obtain ⟨_, run, _⟩ := map_eq_ok run
  obtain ⟨_, _, _, run⟩ := bind_eq_ok.mp run
  obtain ⟨_, _, looked, _⟩ := bind_eq_ok.mp run
  obtain ⟨low, high, -⟩ := fdSlot_cases looked
  exact ⟨low, high⟩

theorem fdSlot_of_write {buf : List UInt8} {reply : Option Reply} {s' : FmState}
    (run : handle junk src (.write fd buf) s = .ok reply s') : 0 ≤ fd ∧ fd < 100 := by
  obtain ⟨_, run, _⟩ := map_eq_ok run
  obtain ⟨_, _, _, run⟩ := bind_eq_ok.mp run
  obtain ⟨_, _, looked, _⟩ := bind_eq_ok.mp run
  obtain ⟨low, high, -⟩ := fdSlot_cases looked
  exact ⟨low, high⟩

/-- **A descriptor that is not open** is refused by READ and WRITE, if it is an index of the table,
and by nothing else. -/
theorem bad_descriptor_iff {request : Request} (process : src < 50)
    (source : request.source = some fd) (bad : ¬ ∃ e, Descriptor s src fd e) :
    Refuses junk src request s ↔ request.checks = true ∧ 0 ≤ fd ∧ fd < 100 := by
  have unanswered : ∀ {reply : Option Reply} {s' : FmState}, handle junk src request s =
    .ok reply s' →
      reply = some { dest := src, ret := -1 } → request.checks = true ∧ 0 ≤ fd ∧ fd < 100 := by
    rintro _ s' run rfl
    cases request with
    | read fd len =>
        obtain rfl := Option.some.inj source
        exact ⟨rfl, fdSlot_of_read run⟩
    | write fd buf =>
        obtain rfl := Option.some.inj source
        exact ⟨rfl, fdSlot_of_write run⟩
    | close fd =>
        obtain rfl := Option.some.inj source
        obtain ⟨_, run, _⟩ := map_eq_ok run
        obtain ⟨e, _, opened, -⟩ := fmClose_cases run
        exact absurd ⟨e, opened⟩ bad
    | lseek fd offset whence =>
        obtain rfl := Option.some.inj source
        obtain ⟨_, _, fetched, run⟩ := bind_eq_ok.mp run
        obtain ⟨-, rfl, rfl⟩ := fetchPcb_cases fetched
        obtain ⟨slot, _, looked, run⟩ := bind_eq_ok.mp run
        obtain ⟨low, high, same, rfl⟩ := fdSlot_cases looked
        cases slot with
        | none => cases (pure_eq_ok.mp run).1
        | some e => exact absurd ⟨e, process, low, high, same.symm⟩ bad
    | dup fd =>
        obtain rfl := Option.some.inj source
        rcases fmDup_cases run with ⟨none, -⟩ | ⟨e, _, opened, -⟩
        · cases none
        · exact absurd ⟨e, opened⟩ bad
    | dup2 fd newFd =>
        obtain rfl := Option.some.inj source
        obtain ⟨_, run, _⟩ := map_eq_ok run
        obtain ⟨e, opened, -⟩ := fmDup2_cases run
        exact absurd ⟨e, opened⟩ bad
    | «open» | create | delete | mkdir | rmdir | lsdir | chdir | exitFile | copyFdTable
        | initFdTable => cases source
  constructor
  · rintro ⟨s', run, -⟩
    exact unanswered run rfl
  · rintro ⟨checks, low, high⟩
    cases request with
    | read fd len =>
        obtain rfl := Option.some.inj source
        exact ⟨s, refuses_read bad process low high len, rfl, rfl, rfl, rfl, rfl, rfl⟩
    | write fd buf =>
        obtain rfl := Option.some.inj source
        exact ⟨s, refuses_write bad process low high buf, rfl, rfl, rfl, rfl, rfl, rfl⟩
    | close | lseek | dup | dup2 | «open» | create | delete | mkdir | rmdir | lsdir | chdir
        | exitFile | copyFdTable
      | initFdTable => cases checks

/-- After boot no process has a descriptor. -/
theorem boot_closed (src : Nat) (fd : Int) : ¬ ∃ e, Descriptor bootState src fd e := by
  rintro ⟨e, opened⟩
  have slot := opened.slot
  rw [(bootTables_of_boot boot_bootState).pcbs] at slot
  cases slot

theorem bad_descriptor_boot : Refuses zeroJunk 1 (.read 5 10) bootState ↔
    (Request.read 5 10).checks = true ∧ (0 : Int) ≤ 5 ∧ (5 : Int) < 100 :=
  bad_descriptor_iff (by omega) rfl (boot_closed 1 5)

/-- DUP of a descriptor that is not open: the caller waits for an answer that does not come. -/
theorem dup_unanswered :
    ¬ ∀ (s : FmState) (junk : Junk) (src : Nat) (request : Request) (fd : Int), src < 50 →
    request.source = some fd → (¬ ∃ e, Descriptor s src fd e) → Refuses junk src request s := by
  intro all
  obtain ⟨s', run, -⟩ := all bootState zeroJunk 1 (.dup 7) 7 (by omega) rfl (boot_closed 1 7)
  have empty := fdSlot_empty (boot_closed 1 7) (by omega) (by omega) (by omega)
  have silent : handle zeroJunk 1 (.dup 7) bootState = .ok none bootState := by
    show fmDup 1 7 bootState = _
    unfold fmDup
    rw [run_bind (fetchPcb_ok (by omega)), run_bind empty]
    rfl
  rw [silent] at run
  cases run

end Refuses

/-! ### The lowest free descriptor -/

/-- Below `min_fd` no slot is free. -/
structure Hinted (pcb : Pcb) : Prop where
  inside : pcb.minFd < 100
  busy : ∀ i, i < pcb.minFd → pcb.fdTable i ≠ none

/-- The smallest index of a free slot. -/
structure Lowest (fdTable : Nat → Option Nat) (fd : Nat) : Prop where
  inside : fd < 100
  free : fdTable fd = none
  below : ∀ i, i < fd → fdTable i ≠ none

section Search

variable {table : Nat → Option Nat} {minFd fd : Nat}

/-- **The search from the hint finds the lowest free slot.** -/
theorem lowest_of_search (inside : minFd < 100) (busy : ∀ i, i < minFd → table i ≠ none)
    (search : firstIdle (fun i => (table i).isSome) 100 100 minFd = some fd) : Lowest table fd := by
  have set : ∀ i, i < minFd → (table i).isSome = true :=
    fun i small => Option.isSome_iff_ne_none.mpr (busy i small)
  refine ⟨firstIdle_lt inside search, ?_, fun i small => ?_⟩
  · simpa using firstIdle_idle search
  · exact Option.isSome_iff_ne_none.mp (firstIdle_lowest inside set search i small)

/-- With the found slot in use, the hint may go to the next one, round the table. -/
theorem hinted_behind {pcb : Pcb} (lowest : Lowest table fd) (next : pcb.minFd = (fd + 1) % 100)
    (keeps : ∀ i, table i ≠ none → pcb.fdTable i ≠ none) (taken : pcb.fdTable fd ≠ none) :
    Hinted pcb := by
  have inside := lowest.inside
  refine ⟨by omega, fun i small => ?_⟩
  have low : i < fd ∨ i = fd := by omega
  rcases low with low | rfl
  · exact keeps i (lowest.below i low)
  · exact taken

/-- More slots in use do not spoil the hint. -/
theorem Hinted.more {pcb pcb' : Pcb} (hinted : Hinted pcb) (same : pcb'.minFd = pcb.minFd)
    (keeps : ∀ i, pcb.fdTable i ≠ none → pcb'.fdTable i ≠ none) : Hinted pcb' :=
  ⟨same ▸ hinted.inside, fun i small => keeps i (hinted.busy i (same ▸ small))⟩

theorem update_ne_none {e : Nat} {i : Nat} (used : table i ≠ none) :
    Function.update table fd (some e) i ≠ none := by
  by_cases here : i = fd
  · rw [here, Function.update_self]
    exact Option.some_ne_none e
  · rwa [Function.update_of_ne here]

end Search

/-- The requests that open and close descriptors. -/
def Request.moves : Request → Prop
  | .open _ _ | .close _ | .dup _ | .initFdTable _ | .copyFdTable _ _ | .exitFile _ => True
  | _ => False

/-- A request that may change the descriptors. -/
inductive TableStep : FmState → FmState → Prop
  | request {s s' : FmState} {junk : Junk} {src : Nat} {request : Request} {reply : Option Reply}
      (moves : request.moves)
      (run : handle junk src request s = .ok reply s') : TableStep s s'

section Steps

variable {s s' : FmState} {junk : Junk} {src pid : Nat}

/-- **OPEN, as the descriptor tables see it.** -/
theorem fmOpen_tables {path : List UInt8} {flag : Int} {reply : Reply}
    (run : fmOpen junk src path flag s = .ok reply s') :
    (reply.ret = -1 ∧ s'.pcbs = s.pcbs) ∨ ∃ e rest v fd, s.freeOpenFileList = e :: rest ∧
      firstIdle (fun i => ((s.pcbs src).fdTable i).isSome) 100 100 (s.pcbs src).minFd = some fd ∧
      reply = { dest := src, ret := fd } ∧ s'.files e = { vnode := v, offset := 0, count := 1 } ∧
      s'.pcbs = Function.update s.pcbs src { s.pcbs src with
        fdTable := Function.update (s.pcbs src).fdTable fd (some e)
        minFd := (fd + 1) % 100 } := by
  have attached : ∀ {t : FmState} {v : Nat}, t.freeOpenFileList = s.freeOpenFileList →
    t.pcbs = s.pcbs →
      attach src v t = .ok reply s' → ∃ e rest v fd, s.freeOpenFileList = e :: rest ∧
        firstIdle (fun i => ((s.pcbs src).fdTable i).isSome) 100 100 (s.pcbs src).minFd = some fd ∧
        reply = { dest := src, ret := fd } ∧ s'.files e = { vnode := v, offset := 0, count := 1 } ∧
        s'.pcbs = Function.update s.pcbs src { s.pcbs src with
          fdTable := Function.update (s.pcbs src).fdTable fd (some e)
          minFd := (fd + 1) % 100 } := by
    intro t v list pcbs run
    obtain ⟨e, rest, fd, free, search, answer, rfl⟩ := attach_cases run
    rw [pcbs] at search
    refine ⟨e, rest, v, fd, list ▸ free, search, answer, Function.update_self _ _ _, ?_⟩
    show Function.update t.pcbs src _ = _
    rw [pcbs]
  have unchanged : ∀ {t : FmState}, t.core = s.core → t.freeOpenFileList = s.freeOpenFileList ∧
      t.pcbs = s.pcbs := by
    intro t core
    constructor
    · show t.core.freeOpenFileList = s.core.freeOpenFileList
      rw [core]
    · show t.core.pcbs = s.core.pcbs
      rw [core]
  obtain ⟨-, dir, walked, -, cases⟩ := fmOpen_cases run
  rcases cases with ⟨rfl, core⟩ | ⟨v, index, s₁, s₂, -, core, opened, run⟩ | ⟨v, s₁, s₂, ret, s₃, -,
    core, taken, created, run⟩
  · exact .inl ⟨rfl, (unchanged core).2⟩
  · obtain ⟨list, pcbs⟩ := unchanged core
    have same : s₂.freeOpenFileList = s₁.freeOpenFileList ∧ s₂.pcbs = s₁.pcbs := by
      rcases openVnode_cases opened with ⟨-, rfl⟩ | ⟨-, rest, -, rfl⟩ <;> exact ⟨rfl, rfl⟩
    exact .inr (attached (same.1.trans list) (same.2.trans pcbs) run)
  · obtain ⟨list, pcbs⟩ := unchanged core
    obtain ⟨rest, -, rfl⟩ := getFreeVnode_cases taken
    obtain ⟨list', pcbs'⟩ := create_tables created
    exact .inr (attached (list'.trans list) (pcbs'.trans pcbs) run)

theorem releaseFileEntry_pcbs {e : Nat} : Keeps FmState.pcbs (releaseFileEntry e) := by
  intro s _ s' run
  rcases releaseFileEntry_cases run with ⟨-, rfl⟩ | ⟨-, s₁, released, rfl⟩
  · rfl
  · rcases releaseKernelVnode_cases released with ⟨-, rfl⟩ | ⟨-, rfl⟩ <;> rfl

theorem exitSlots_pcbs {count : Nat} : Keeps FmState.pcbs (exitSlots pid count) := by
  induction count with
  | zero => exact .pure
  | succ count ih =>
      refine .bind ih fun _ => .bind .get fun s => ?_
      cases (s.pcbs pid).fdTable count with
      | none => exact .pure
      | some e => exact releaseFileEntry_pcbs

/-- Only one process's record is another one, with a hint that holds. -/
theorem hinted_update {pcb : Pcb} (hinted : ∀ p, Hinted (s.pcbs p)) (new : Hinted pcb)
    (same : s'.pcbs = Function.update s.pcbs pid pcb) : ∀ p, Hinted (s'.pcbs p) := by
  intro p
  rw [same]
  by_cases here : p = pid
  · rw [here, Function.update_self]
    exact new
  · rw [Function.update_of_ne here]
    exact hinted p

/-- **A request on descriptors keeps the hints.** -/
theorem TableStep.hinted (step : TableStep s s') (hinted : ∀ p, Hinted (s.pcbs p)) :
    ∀ p, Hinted (s'.pcbs p) := by
  cases step with
  | @request junk src request reply moves run =>
  cases request with
  | «open» path flag =>
      obtain ⟨_, run, _⟩ := map_eq_ok run
      rcases fmOpen_tables run with ⟨-, same⟩ | ⟨e, rest, v, fd, -, search, -, -, same⟩
      · rwa [same]
      · have lowest := lowest_of_search (hinted src).inside (hinted src).busy search
        refine hinted_update hinted (hinted_behind lowest rfl (fun i => update_ne_none) ?_) same
        show Function.update (s.pcbs src).fdTable fd (some e) fd ≠ none
        rw [Function.update_self]
        exact Option.some_ne_none e
  | close fd =>
      obtain ⟨_, run, _⟩ := map_eq_ok run
      obtain ⟨e, s₁, opened, released, rfl⟩ := fmClose_cases run
      have pcbs := releaseFileEntry_pcbs _ _ _ released
      have here := hinted src
      rw [← pcbs] at hinted here
      refine hinted_update hinted ⟨?_, fun i small => ?_⟩ rfl
      · have inside := here.inside
        show (if _ then _ else _) < 100
        split
        · exact (Int.toNat_lt opened.low).mpr opened.high
        · exact inside
      · have low := opened.low
        change i < if ((s₁.pcbs src).minFd : Int) > fd then fd.toNat
          else (s₁.pcbs src).minFd at small
        show Function.update (s₁.pcbs src).fdTable fd.toNat none i ≠ none
        have below : i < (s₁.pcbs src).minFd ∧ i ≠ fd.toNat := by
          split at small <;> omega
        rw [Function.update_of_ne below.2]
        exact here.busy i below.1
  | dup fd =>
      rcases fmDup_cases run with ⟨-, rfl⟩ | ⟨e, minFd, opened, -, search, rfl⟩
      · exact hinted
      · have busy : ∀ i, i < (s.pcbs src).minFd →
            Function.update (s.pcbs src).fdTable (s.pcbs src).minFd (some e) i ≠ none :=
              fun i small =>
          update_ne_none ((hinted src).busy i small)
        have lowest := lowest_of_search (hinted src).inside busy search
        exact hinted_update hinted ⟨lowest.inside, lowest.below⟩ rfl
  | initFdTable pid =>
      obtain ⟨_, run, _⟩ := map_eq_ok run
      obtain ⟨-, e0, e1, e2, rest, -, same, -⟩ := initFdTable_cases run
      refine hinted_update hinted
        (?_ : Hinted { s.pcbs pid with fdTable := stdTable (s.pcbs pid).fdTable e0 e1 e2 }) same
      exact (hinted pid).more rfl fun i used =>
        update_ne_none (update_ne_none (update_ne_none used))
  | copyFdTable child parent =>
      obtain ⟨_, run, _⟩ := map_eq_ok run
      obtain ⟨_, _, fetched, run⟩ := bind_eq_ok.mp run
      obtain ⟨-, -, rfl⟩ := fetchPcb_cases fetched
      obtain ⟨_, _, fetched, run⟩ := bind_eq_ok.mp run
      obtain ⟨-, -, rfl⟩ := fetchPcb_cases fetched
      obtain ⟨_, _, copied, run⟩ := bind_eq_ok.mp run
      obtain ⟨_, rfl⟩ := pure_eq_ok.mp run
      refine hinted_update hinted
        (?_ : Hinted { s.pcbs child with fdTable := copiedTable s child parent 100 })
        (copySlots_pcbs copied)
      refine (hinted child).more rfl fun i used => ?_
      show copiedTable s child parent 100 i ≠ none
      unfold copiedTable
      split
      · next taken => exact taken.2
      · exact used
  | exitFile pid =>
      obtain ⟨_, run, _⟩ := map_eq_ok run
      obtain ⟨_, _, fetched, run⟩ := bind_eq_ok.mp run
      obtain ⟨-, -, rfl⟩ := fetchPcb_cases fetched
      obtain ⟨_, _, released, run⟩ := bind_eq_ok.mp run
      obtain ⟨_, rfl⟩ := pure_eq_ok.mp run
      rwa [exitSlots_pcbs _ _ _ released]
  | read | write | create | delete | lseek | dup2 | mkdir | rmdir | lsdir | chdir =>
      exact moves.elim

/-- **No run of such requests spoils a hint.** -/
theorem hinted_of_run {s₀ : FmState} (zeroed : s₀.pcbs = zeroState.pcbs)
    (run : Relation.ReflTransGen TableStep s₀ s) :
    ∀ p, Hinted (s.pcbs p) := by
  induction run with
  | refl =>
      intro p
      rw [zeroed]
      exact ⟨show 0 < 100 by omega, fun i small => absurd small (Nat.not_lt_zero i)⟩
  | tail _ step ih => exact step.hinted ih

end Steps

/-- **An OPEN for which there is room**: a free entry of the file table; and a path that resolves,
to an inode that is active or can be read into a free vnode, or the flag to create and a `_create`
that ends. -/
structure Opens (junk : Junk) (src : Nat) (path : List UInt8) (flag : Int)
    (s : FmState) : Prop where
  process : src < 50
  entry : s.freeOpenFileList ≠ []
  vnode : (∃ n, Resolves s src path n ∧ ((searchVnodeByIndex s n).isSome = true ∨
      s.freeVnodeList ≠ [] ∧ (inodeAddr n).toNat + inodeSize < ramdiskSize)) ∨
    flag = 1 ∧ ∃ dir walked s₁ v s₂, walkStart (s.pcbs src).currentDir path = (dir, walked) ∧
      readInode dir walked s = .ok none s₁ ∧ vnodeFor junk (s.pcbs src) path none s₁ = .ok v s₂

section Opens

variable {s s' : FmState} {junk : Junk} {src : Nat} {path : List UInt8} {flag : Int}

theorem openVnode_ok {n : Int} (vnode : (searchVnodeByIndex s n).isSome = true ∨
    s.freeVnodeList ≠ [] ∧ (inodeAddr n).toNat + inodeSize < ramdiskSize) :
    ∃ v s', openVnode n s = .ok v s' := by
  unfold openVnode
  rw [run_bind run_get]
  cases found : searchVnodeByIndex s n with
  | some v => exact ⟨v, _, rfl⟩
  | none =>
      rw [found] at vnode
      obtain ⟨some, inside⟩ := vnode.resolve_left (by simp)
      obtain ⟨v, rest, free⟩ := List.exists_cons_of_ne_nil some
      refine ⟨v, ((s.takeVnode v rest).setVnode v { (s.takeVnode v rest).vnodes v with
        index := n }).setVnode v
        { ((s.takeVnode v rest).setVnode v { (s.takeVnode v rest).vnodes v with index := n }).vnodes
          v with
          inode := diskInode s.disk n }, ?_⟩
      show (getFreeVnode >>= _) s = _
      rw [run_bind (getFreeVnode_ok free)]
      show (readInodeFromDisk n >>= _) _ = _
      unfold readInodeFromDisk
      rw [if_pos inside]
      rfl

/-- What OPEN is done with before it takes a descriptor: the entries and the tables are as they
were. -/
theorem Opens.before (opens : Opens junk src path flag s) :
    ∃ dir walked found s₁ v s₂, walkStart (s.pcbs src).currentDir path = (dir, walked) ∧
      readInode dir walked s = .ok found s₁ ∧ ¬ (found = none ∧ flag ≠ 1) ∧
      vnodeFor junk (s.pcbs src) path found s₁ = .ok v s₂ ∧
      s₂.freeOpenFileList = s.freeOpenFileList ∧ s₂.pcbs = s.pcbs := by
  have unchanged {t : FmState} (core : t.core = s.core) :
      t.freeOpenFileList = s.freeOpenFileList ∧ t.pcbs = s.pcbs ∧
        t.freeVnodeList = s.freeVnodeList ∧
        ∀ n, searchVnodeByIndex t n = searchVnodeByIndex s n := by
    refine ⟨?_, ?_, ?_, fun n => ?_⟩
    · show t.core.freeOpenFileList = s.core.freeOpenFileList
      rw [core]
    · show t.core.pcbs = s.core.pcbs
      rw [core]
    · show t.core.freeVnodeList = s.core.freeVnodeList
      rw [core]
    · show searchVnodeByIndex t.core n = searchVnodeByIndex s.core n
      rw [core]
  rcases opens.vnode with ⟨n, resolves, vnode⟩ | ⟨rfl, dir, walked, s₁, v, s₂, start, look, made⟩
  · obtain ⟨dir, walked, s₁, start, some, walk⟩ := resolves
    obtain ⟨list, pcbs, free, search⟩ := unchanged (resolve_core _ _ _ walk)
    rw [← search, ← free] at vnode
    obtain ⟨v, s₂, opened⟩ := openVnode_ok vnode
    have same : s₂.freeOpenFileList = s₁.freeOpenFileList ∧ s₂.pcbs = s₁.pcbs := by
      rcases openVnode_cases opened with ⟨-, rfl⟩ | ⟨-, rest, -, rfl⟩ <;> exact ⟨rfl, rfl⟩
    refine ⟨dir, walked, Option.some v, s₂, v, s₂, start, ?_, by simp, rfl, same.1.trans list,
      same.2.trans pcbs⟩
    unfold readInode
    rw [if_neg some, run_bind walk]
    show (openVnode n >>= _) s₁ = _
    rw [run_bind opened]
    rfl
  · have core : s₁.core = s.core := by
      rcases readInode_cases look with ⟨-, core, -⟩ | ⟨v, index, s₂, none, -⟩
      · exact core
      · cases none
    obtain ⟨list, pcbs, -⟩ := unchanged core
    obtain ⟨_, s₃, taken, run⟩ := bind_eq_ok.mp made
    obtain ⟨rest, -, rfl⟩ := getFreeVnode_cases taken
    obtain ⟨ret, s₄, created, run⟩ := bind_eq_ok.mp run
    obtain ⟨rfl, rfl⟩ := pure_eq_ok.mp run
    obtain ⟨list', pcbs'⟩ := create_tables created
    exact ⟨dir, walked, none, s₁, _, s₄, start, look, fun ⟨_, other⟩ => other rfl, made,
      list'.trans list, pcbs'.trans pcbs⟩

/-- **OPEN answers** with the descriptor its search finds. -/
theorem Opens.answers (opens : Opens junk src path flag s) {fd : Nat}
    (search : firstIdle (fun i => ((s.pcbs src).fdTable i).isSome) 100 100 (s.pcbs src).minFd
      = some fd) :
    ∃ s', handle junk src (.open path flag) s = .ok (some { dest := src, ret := fd }) s' := by
  obtain ⟨dir, walked, found, s₁, v, s₂, start, look, allowed, vnode, list, pcbs⟩ := opens.before
  obtain ⟨e, rest, free⟩ := List.exists_cons_of_ne_nil opens.entry
  obtain ⟨s₃, attached⟩ : ∃ s₃, attach src v s₂ = .ok { dest := src, ret := fd } s₃ :=
    ⟨_, attach_ok v (list.trans free) (pcbs ▸ search)⟩
  have opened : fmOpen junk src path flag s = .ok { dest := src, ret := fd } s₃ := by
    unfold fmOpen
    rw [run_bind (fetchPcb_ok opens.process), start]
    show (readInode dir walked >>= _) s = _
    rw [run_bind look, if_neg allowed, run_bind vnode, attached]
  refine ⟨s₃, ?_⟩
  show EStateM.map some (fmOpen junk src path flag) s = _
  unfold EStateM.map
  rw [opened]

end Opens

/-- **The lowest free descriptor**: in every run of requests on descriptors from empty tables,
OPEN's search ends when there is a free slot; an OPEN for which there is room answers with the
lowest one, and one that succeeds puts the new entry there, and changes no other slot. -/
theorem lowest_free_descriptor {s₀ s : FmState} {src : Nat} (zeroed : s₀.pcbs = zeroState.pcbs)
    (run : Relation.ReflTransGen TableStep s₀ s)
    (free : ∃ i, i < 100 ∧ (s.pcbs src).fdTable i = none) :
    ∃ fd, Lowest (s.pcbs src).fdTable fd ∧
      (∀ t, freeFd (s.pcbs src).fdTable (s.pcbs src).minFd t = .ok fd t) ∧
      (∀ junk path flag, Opens junk src path flag s →
        ∃ s', handle junk src (.open path flag) s = .ok (some { dest := src, ret := fd }) s') ∧
      ∀ junk path flag reply s', handle junk src (.open path flag) s = .ok (some reply) s' →
        reply.ret ≠ -1 →
        reply = { dest := src, ret := fd } ∧ ∃ e rest v, s.freeOpenFileList = e :: rest ∧
          s'.files e = { vnode := v, offset := 0, count := 1 } ∧
          (s'.pcbs src).fdTable = Function.update (s.pcbs src).fdTable fd (some e) ∧
          ∀ p, p ≠ src → s'.pcbs p = s.pcbs p := by
  have hinted := hinted_of_run zeroed run
  obtain ⟨i, inside, empty⟩ := free
  have some : (firstIdle (fun i => ((s.pcbs src).fdTable i).isSome) 100 100
      (s.pcbs src).minFd).isSome :=
    firstIdle_isSome (hinted src).inside inside (by simp [empty])
  obtain ⟨fd, search⟩ := Option.isSome_iff_exists.mp some
  have lowest := lowest_of_search (hinted src).inside (hinted src).busy search
  refine ⟨fd, lowest, fun t => ?_, fun junk path flag opens => opens.answers search,
    fun junk path flag reply s' run succeeds => ?_⟩
  · unfold freeFd
    rw [search]
    rfl
  · obtain ⟨_, opened, answer⟩ := map_eq_ok run
    obtain rfl := Option.some.inj answer
    rcases fmOpen_tables opened with
      ⟨failed, -⟩ | ⟨e, rest, v, fd', list, search', answer, entry, same⟩
    · exact absurd failed succeeds
    · obtain rfl := Option.some.inj (search.symm.trans search')
      refine ⟨answer, e, rest, v, list, entry, ?_, fun p other => ?_⟩
      · rw [same, Function.update_self]
      · rw [same, Function.update_of_ne other]

/-- Process 1 opens the new file "/a". -/
def firstOpenState : FmState :=
  lastState (handle zeroJunk 1 (.open (pathBuffer [47, 97]) 1)) bootState

/-- It opens the file once more. -/
def twiceOpenState : FmState :=
  lastState (handle zeroJunk 1 (.open (pathBuffer [47, 97]) 0)) firstOpenState

/-- It closes the first of the two descriptors. -/
def gapState : FmState := lastState (handle zeroJunk 1 (.close 0)) twiceOpenState

/-- **The gap is filled**: the next OPEN of "/a" answers `0`, with descriptor 1 in use. -/
theorem lowest_free_gap : (gapState.pcbs 1).fdTable 1 ≠ none ∧
    ∃ s', handle zeroJunk 1 (.open (pathBuffer [47, 97]) 0) gapState =
        .ok (some { dest := 1, ret := 0 }) s' ∧
      ∃ e, (s'.pcbs 1).fdTable = Function.update (gapState.pcbs 1).fdTable 0 (some e) := by
  have first := run_of_outcome (x := handle zeroJunk 1 (.open (pathBuffer [47, 97]) 1))
    (s := bootState) (a := some { dest := 1, ret := 0 }) (by decide +kernel)
  have second := run_of_outcome (x := handle zeroJunk 1 (.open (pathBuffer [47, 97]) 0))
    (s := firstOpenState) (a := some { dest := 1, ret := 1 }) (by decide +kernel)
  have closed := run_of_outcome (x := handle zeroJunk 1 (.close 0)) (s := twiceOpenState)
    (a := some { dest := 1, ret := 0 }) (by decide +kernel)
  have opened : Request.moves (.open (pathBuffer [47, 97]) 1) ∧
      Request.moves (.open (pathBuffer [47, 97]) 0) ∧ Request.moves (.close 0) :=
    ⟨trivial, trivial, trivial⟩
  have run : Relation.ReflTransGen TableStep bootState gapState :=
    ((Relation.ReflTransGen.single (.request opened.1 first)).tail
      (.request opened.2.1 second)).tail (.request opened.2.2 closed)
  have gap : (gapState.pcbs 1).fdTable 0 = none := by decide +kernel
  have found := run_of_outcome
    (x := resolve (pathBuffer [47, 97]).tail.length 0 (pathBuffer [47, 97]).tail) (s := gapState)
    (a := some 1) (by decide +kernel)
  have opens : Opens zeroJunk 1 (pathBuffer [47, 97]) 0 gapState := {
    process := by decide
    entry := by decide +kernel
    vnode := .inl ⟨1, ⟨0, (pathBuffer [47, 97]).tail, _, by decide +kernel, by decide, found⟩,
      .inl (by decide +kernel)⟩ }
  obtain ⟨fd, lowest, -, answers, succeeds⟩ :=
    lowest_free_descriptor (bootTables_of_boot boot_bootState).pcbs run ⟨0, by decide, gap⟩
  obtain rfl : fd = 0 := by
    by_contra other
    exact lowest.below 0 (Nat.pos_of_ne_zero other) gap
  obtain ⟨s', answer⟩ := answers zeroJunk (pathBuffer [47, 97]) 0 opens
  obtain ⟨-, e, -, -, -, -, table, -⟩ := succeeds _ _ _ _ s' answer (by decide)
  exact ⟨by decide +kernel, s', answer, e, table⟩

end NjuOs.FileSystem
