/-
**The process manager on top of the file server.**

A `PCB` goes from the free list to a new process and, when that exits, back to the end of the free
list. Its descriptor table is never cleared: `fm_exit_file` releases the entries and leaves the
pointers, `init_fd_table` writes the slots `0`, `1` and `2` only, and `copy_fd_table` writes only
those that are not `NULL` in the parent. So a new process has, besides what it should have, what the
former owner of its `PCB` left in the other slots (`descriptor_isolation`).

The process manager serves one request at a time, but waits for the memory manager and the file
server inside `create_process` and `fork`; requests of other processes are served meanwhile. `Event`
has one constructor for each part that nothing interrupts.
-/

import NjuOs.FileSystem.Tables

namespace NjuOs.Process

open NjuOs.Lib NjuOs.FileSystem

/-! ### The model -/

/-- The pid the process manager has after boot. -/
def pcbManager : Nat := 9

/-- What the process manager is in the middle of. -/
inductive Phase where
  | idle
  /-- `create_process` has taken the `PCB` off the free list. -/
  | creating (pid : Nat)
  /-- So has `fork`, for the child; the parent is blocked until the reply. -/
  | forking (parent child : Nat)
  deriving DecidableEq

/-- The `PCB` that is neither free nor used. -/
def Phase.pending : Phase → List Nat
  | .idle => []
  | .creating pid => [pid]
  | .forking _ child => [child]

/-- Whether a process waits for the process manager's reply. -/
def Phase.blocked (phase : Phase) (pid : Nat) : Bool :=
  match phase with
  | .forking parent _ => pid = parent
  | _ => false

/-- The state. `left` is history: the descriptor table that the last owner of a `PCB` had when it
ended. -/
structure System where
  fm : FmState
  freePcb : List Nat
  isUsed : Nat → Bool
  isKernel : Nat → Bool
  phase : Phase
  left : Nat → Nat → Option Nat

/-- What happens to the manager and the file server: requests, and the parts of the manager's
services. -/
inductive Event where
  /-- A process's own request to the file server. -/
  | request (junk : Junk) (src : Nat) (request : Request)
  /-- `create_process` up to `init_fd_table`. -/
  | createProcess
  /-- Its rest. -/
  | initFdTable
  /-- `fork` up to `copy_fd_table`. -/
  | fork (parent : Nat)
  /-- Its rest. -/
  | copyFdTable
  | exit (pid : Nat)
  /-- A kernel thread's function returns. -/
  | wrap (pid : Nat)

/-- The requests a process sends for itself; the others come from the process manager. -/
def own : Request → Bool
  | .exitFile _ | .copyFdTable _ _ | .initFdTable _ => false
  | _ => true

/-- The state after a run that ends well. -/
def served {α : Type} (x : Fm α) (s : FmState) : Option FmState :=
  match x s with
  | .ok _ s' => some s'
  | .error _ _ => none

theorem served_eq_some {α : Type} {x : Fm α} {s s' : FmState} :
    served x s = some s' ↔ ∃ a, x s = .ok a s' := by
  unfold served
  cases x s with
  | ok a t => simp
  | error e t => simp

/-- The end of `exit` and of `wrap`: the `PCB` goes to the end of the free list. -/
def System.retire (x : System) (fm : FmState) (pid : Nat) : System :=
  { x with
    fm
    freePcb := x.freePcb ++ [pid]
    isUsed := Function.update x.isUsed pid false
    left := Function.update x.left pid (x.fm.pcbs pid).fdTable }

/-- The end of `init_pcb` and of `fork`: the new process runs, in the directory `dir`. -/
def System.enter (x : System) (fm : FmState) (pid : Nat) (dir : Int) : System :=
  { x with
    fm := fm.setPcb pid { fm.pcbs pid with currentDir := dir }
    isUsed := Function.update x.isUsed pid true
    isKernel := Function.update x.isKernel pid false
    phase := .idle }

/-- `create_process` up to `init_fd_table`: a PCB is taken. -/
def createProcess (x : System) : Option System :=
  match x.freePcb with
  | [] => none
  | pid :: rest => some { x with freePcb := rest, phase := .creating pid }

/-- `fork` up to `copy_fd_table`: a PCB is taken. -/
def fork (parent : Nat) (x : System) : Option System :=
  match x.freePcb with
  | [] => none
  | child :: rest => some { x with freePcb := rest, phase := .forking parent child }

/-- What an event does, if it can happen. -/
def step (event : Event) (x : System) : Option System :=
  match event, x.phase with
  | .request junk src request, phase =>
    if x.isUsed src ∧ !phase.blocked src ∧ own request then
      (served (handle junk src request) x.fm).map fun fm => { x with fm }
    else
      none
  | .wrap pid, phase =>
    if x.isUsed pid ∧ x.isKernel pid ∧ !phase.blocked pid then some (x.retire x.fm pid) else none
  | .createProcess, .idle => createProcess x
  | .initFdTable, .creating pid =>
    (served (FileSystem.initFdTable pcbManager pid) x.fm).map fun fm => x.enter fm pid 0
  | .fork parent, .idle => if x.isUsed parent then fork parent x else none
  | .copyFdTable, .forking parent child =>
    (served (FileSystem.copyFdTable pcbManager child parent) x.fm).map fun fm =>
      x.enter fm child (x.fm.pcbs parent).currentDir
  | .exit pid, .idle =>
    if x.isUsed pid then
      (served (fmExitFile pcbManager pid) x.fm).map fun fm => x.retire fm pid
    else
      none
  | _, _ => none

/-- After boot: the drivers, the three managers and `create_shell` run, in the first eleven
`PCB`s. -/
def System.boot (fm : FmState) : System where
  fm
  freePcb := (List.range 50).drop 11
  isUsed := (· < 11)
  isKernel := (· < 11)
  phase := .idle
  left _ _ := none

/-! ### Starts of processes -/

/-- A process that was started: its table, the table its parent had, and what the former owner of
its `PCB` had left there. -/
structure Start where
  pid : Nat
  parent : Option (Nat → Option Nat)
  left : Nat → Option Nat
  table : Nat → Option Nat

/-- The process an event starts. -/
def started (event : Event) (x x' : System) : Option Start :=
  match event, x.phase with
  | .initFdTable, .creating pid =>
    some { pid, parent := none, left := x.left pid, table := (x'.fm.pcbs pid).fdTable }
  | .copyFdTable, .forking parent child =>
    some { pid := child, parent := (x.fm.pcbs parent).fdTable, left := x.left child
           table := (x'.fm.pcbs child).fdTable }
  | _, _ => none

/-- The processes a run starts. -/
def starts : List Event → System → List Start
  | [], _ => []
  | event :: events, x =>
    match step event x with
    | none => []
    | some x' => (started event x x').toList ++ starts events x'

/-- The slots that a start writes. -/
def Start.Writes (start : Start) (f : Nat) : Prop :=
  match start.parent with
  | none => f < 3
  | some table => table f ≠ none

/-- The process has the descriptors it should have: `0`, `1` and `2` only, or exactly its
parent's. -/
def Start.Isolated (start : Start) : Prop :=
  match start.parent with
  | none => ∀ f, f < 100 → (start.table f ≠ none ↔ f < 3)
  | some table => ∀ f, f < 100 → start.table f = table f

/-- Every slot that the former owner had not closed is written by the start. -/
def Start.Covered (start : Start) : Prop := ∀ f, f < 100 → start.left f ≠ none → start.Writes f

/-! ### What a `PCB` holds while it waits for its next owner -/

/-- The `PCB`s without a process. -/
def System.waiting (x : System) : List Nat := x.phase.pending ++ x.freePcb

/-- **The invariant**: a `PCB` without a process holds the table that its last owner left. -/
structure Recycled (x : System) : Prop where
  nodup : x.waiting.Nodup
  unused : ∀ p ∈ x.waiting, x.isUsed p = false
  table : ∀ p ∈ x.waiting, (x.fm.pcbs p).fdTable = x.left p

section Recycled

variable {x x' : System} {fm : FmState} {pid : Nat} {event : Event}

theorem Recycled.serve (recycled : Recycled x) {p : Nat} (running : x.isUsed p)
    (served : Serves p x.fm fm) :
    Recycled { x with fm } where
  nodup := recycled.nodup
  unused := recycled.unused
  table q waits := by
    have other : q ≠ p := by
      rintro rfl
      exact absurd running (by simp [recycled.unused q waits])
    show (fm.pcbs q).fdTable = x.left q
    rw [served.others q other]
    exact recycled.table q waits

theorem Recycled.take (recycled : Recycled x) (idle : x.phase = .idle) {rest : List Nat}
    {phase : Phase} (free : x.freePcb = pid :: rest) (pending : phase.pending = [pid]) :
    Recycled { x with freePcb := rest, phase } := by
  have same : ({ x with freePcb := rest, phase } : System).waiting = x.waiting := by
    show phase.pending ++ rest = x.phase.pending ++ x.freePcb
    rw [pending, idle, free]
    rfl
  exact ⟨same ▸ recycled.nodup, fun p waits => recycled.unused p (same ▸ waits),
    fun p waits => recycled.table p (same ▸ waits)⟩

theorem Recycled.enter (recycled : Recycled x) {dir : Int} (pending : x.phase.pending = [pid])
    (served : Serves pid x.fm fm) : Recycled (x.enter fm pid dir) := by
  have before : x.waiting = pid :: x.freePcb := by simp [System.waiting, pending]
  have nodup := recycled.nodup
  rw [before, List.nodup_cons] at nodup
  have other : ∀ p ∈ x.freePcb, p ≠ pid := fun p free same => nodup.1 (same ▸ free)
  have waits : ∀ p ∈ x.freePcb, p ∈ x.waiting := fun p free => before ▸ List.mem_cons_of_mem _ free
  refine ⟨nodup.2, fun p free => ?_, fun p free => ?_⟩
  · exact (Function.update_of_ne (other p free) ..).trans (recycled.unused p (waits p free))
  · show (Function.update fm.pcbs pid _ p).fdTable = x.left p
    rw [Function.update_of_ne (other p free), served.others p (other p free)]
    exact recycled.table p (waits p free)

theorem Recycled.retire (recycled : Recycled x) (running : x.isUsed pid)
    (same : fm.pcbs = x.fm.pcbs) :
    Recycled (x.retire fm pid) := by
  have after : (x.retire fm pid).waiting = x.waiting ++ [pid] := by
    simp [System.waiting, System.retire]
  have fresh : pid ∉ x.waiting := fun waits => absurd running (by simp [recycled.unused pid waits])
  refine ⟨?_, fun p waits => ?_, fun p waits => ?_⟩
  · rw [after]
    exact List.nodup_append.mpr ⟨recycled.nodup, List.nodup_singleton pid,
      fun p waits q last same => by
      rw [List.mem_singleton] at last
      exact fresh (last ▸ same ▸ waits)⟩
  · show Function.update x.isUsed pid false p = false
    by_cases itself : p = pid
    · rw [itself, Function.update_self]
    · rw [Function.update_of_ne itself]
      rw [after, List.mem_append, List.mem_singleton, or_iff_left itself] at waits
      exact recycled.unused p waits
  · show (fm.pcbs p).fdTable = Function.update x.left pid (x.fm.pcbs pid).fdTable p
    rw [same]
    by_cases itself : p = pid
    · rw [itself, Function.update_self]
    · rw [Function.update_of_ne itself]
      rw [after, List.mem_append, List.mem_singleton, or_iff_left itself] at waits
      exact recycled.table p waits

/-- EXIT_FILE is served for any process, so it changes the table of none. -/
theorem fmExitFile_pcbs {src : Nat} {s s' : FmState} {reply : Reply}
    (run : fmExitFile src pid s = .ok reply s') :
    s'.pcbs = s.pcbs := by
  obtain ⟨_, s₁, fetched, run⟩ := bind_eq_ok.mp run
  obtain ⟨_, _, rfl⟩ := fetchPcb_cases fetched
  obtain ⟨_, s₂, released, run⟩ := bind_eq_ok.mp run
  obtain ⟨_, rfl⟩ := pure_eq_ok.mp run
  funext p
  have moved : Serves (p + 1) s s₂ := exitSlots_serves _ _ _ released
  exact moved.others p (by omega)

theorem copyFdTable_serves {src parent : Nat} {s s' : FmState} {reply : Reply}
    (run : FileSystem.copyFdTable src pid parent s = .ok reply s') : Serves pid s s' := by
  have moves : Moves (Serves pid) (FileSystem.copyFdTable src pid parent) :=
    .bind fetchPcb_serves fun _ => .bind fetchPcb_serves fun _ =>
    .bind copySlots_serves fun _ => .pure
  exact moves _ _ _ run

theorem owner_of_own {src : Nat} {request : Request} (sent : own request) :
    request.owner src = src := by
  cases request with
  | exitFile | copyFdTable | initFdTable => exact absurd sent (by simp [own])
  | _ => rfl

theorem Recycled.step (recycled : Recycled x) (run : step event x = some x') : Recycled x' := by
  unfold Process.step at run
  split at run
  · -- a process's own request
    split at run
    case isFalse => exact absurd run (by simp)
    case isTrue allowed =>
      obtain ⟨fm, answered, rfl⟩ := Option.map_eq_some_iff.mp run
      obtain ⟨_, handled⟩ := served_eq_some.mp answered
      have moved := handle_serves _ _ _ handled
      rw [owner_of_own allowed.2.2] at moved
      exact recycled.serve allowed.1 moved
  · -- a kernel thread ends
    split at run
    case isFalse => exact absurd run (by simp)
    case isTrue allowed =>
      obtain rfl := Option.some.inj run
      exact recycled.retire allowed.1 rfl
  · case h_3 idle =>
      unfold createProcess at run
      split at run
      · exact absurd run (by simp)
      · case h_2 free =>
          obtain rfl := Option.some.inj run
          exact recycled.take idle free rfl
  · case h_4 pid creating =>
      obtain ⟨fm, answered, rfl⟩ := Option.map_eq_some_iff.mp run
      obtain ⟨_, handled⟩ := served_eq_some.mp answered
      exact recycled.enter (by rw [creating]; rfl) (initFdTable_serves _ _ _ handled)
  · case h_5 idle =>
      split at run
      case isFalse => exact absurd run (by simp)
      unfold fork at run
      split at run
      · exact absurd run (by simp)
      · case h_2 free =>
          obtain rfl := Option.some.inj run
          exact recycled.take idle free rfl
  · case h_6 parent child forking =>
      obtain ⟨fm, answered, rfl⟩ := Option.map_eq_some_iff.mp run
      obtain ⟨_, handled⟩ := served_eq_some.mp answered
      exact recycled.enter (by rw [forking]; rfl) (copyFdTable_serves handled)
  · case h_7 idle =>
      split at run
      case isFalse => exact absurd run (by simp)
      case isTrue running =>
        obtain ⟨fm, answered, rfl⟩ := Option.map_eq_some_iff.mp run
        obtain ⟨_, handled⟩ := served_eq_some.mp answered
        exact recycled.retire running (fmExitFile_pcbs handled)
  · exact absurd run (by simp)

theorem recycled_boot {s : FmState} (start : Boot s) : Recycled (.boot s) := by
  obtain ⟨junk, run⟩ := start
  refine ⟨?_, fun p waits => ?_, fun p _ => ?_⟩
  · show ((List.range 50).drop 11).Nodup
    exact List.nodup_range.drop
  · have waits : p ∈ (List.range 50).drop 11 := waits
    rw [List.mem_drop_iff_getElem] at waits
    obtain ⟨i, small, rfl⟩ := waits
    simp [System.boot]
  · have moved : Serves (p + 1) zeroState s := initFileFormat_serves _ _ _ run
    show (s.pcbs p).fdTable = fun _ => none
    rw [moved.others p (by omega)]
    rfl

/-! ### The tables of new processes -/

theorem stdTable_isSome {table : Nat → Option Nat} {e0 e1 e2 f : Nat} :
    stdTable table e0 e1 e2 f ≠ none ↔ f < 3 ∨ table f ≠ none := by
  unfold stdTable
  by_cases two : f = 2
  · simp [two]
  · by_cases one : f = 1
    · simp [one]
    · by_cases zero : f = 0
      · simp [zero]
      · simp [two, one, zero, show ¬ f < 3 by omega]

/-- What a CREATE_PROCESS leaves in the table: its three slots, over what was there. -/
theorem initFdTable_table {src : Nat} {s s' : FmState} {reply : Reply}
    (run : FileSystem.initFdTable src pid s = .ok reply s') (f : Nat) :
    (s'.pcbs pid).fdTable f ≠ none ↔ f < 3 ∨ (s.pcbs pid).fdTable f ≠ none := by
  obtain ⟨_, e0, e1, e2, _, _, pcbs, _⟩ := initFdTable_cases run
  have table : (s'.pcbs pid).fdTable = stdTable (s.pcbs pid).fdTable e0 e1 e2 := by
    rw [pcbs]
    simp [FmState.setPcb]
  rw [table]
  exact stdTable_isSome

/-- What a FORK leaves in the table: the parent's slots, over what was there. -/
theorem copyFdTable_table {src child parent : Nat} {s s' : FmState} {reply : Reply}
    (run : FileSystem.copyFdTable src child parent s = .ok reply s') {f : Nat} (small : f < 100) :
    (s'.pcbs child).fdTable f = ((s.pcbs parent).fdTable f).or ((s.pcbs child).fdTable f) := by
  obtain ⟨_, _, fetched, run⟩ := bind_eq_ok.mp run
  obtain ⟨_, _, rfl⟩ := fetchPcb_cases fetched
  obtain ⟨_, _, fetched, run⟩ := bind_eq_ok.mp run
  obtain ⟨_, _, rfl⟩ := fetchPcb_cases fetched
  obtain ⟨_, s₁, copied, run⟩ := bind_eq_ok.mp run
  obtain ⟨_, rfl⟩ := pure_eq_ok.mp run
  have table : (s₁.pcbs child).fdTable = copiedTable s child parent 100 := by
    rw [copySlots_pcbs copied]
    simp [FmState.setPcb]
  rw [table]
  unfold copiedTable
  cases (s.pcbs parent).fdTable f <;> simp [small]

theorem enter_table {dir : Int} :
    ((x.enter fm pid dir).fm.pcbs pid).fdTable = (fm.pcbs pid).fdTable := by
  simp [System.enter, FmState.setPcb]

theorem Recycled.started (recycled : Recycled x) (run : Process.step event x = some x')
    {start : Start} (new : Process.started event x x' = some start) :
    start.Isolated ↔ start.Covered := by
  unfold Process.started at new
  split at new
  · case h_1 pid creating =>
      obtain rfl := Option.some.inj new
      simp only [Process.step, creating] at run
      obtain ⟨fm, answered, rfl⟩ := Option.map_eq_some_iff.mp run
      obtain ⟨_, handled⟩ := served_eq_some.mp answered
      have held : (x.fm.pcbs pid).fdTable = x.left pid :=
        recycled.table pid (by simp [System.waiting, creating, Phase.pending])
      show (∀ f, f < 100 → (((x.enter fm pid 0).fm.pcbs pid).fdTable f ≠ none ↔ f < 3)) ↔
        ∀ f, f < 100 → x.left pid f ≠ none → f < 3
      refine forall₂_congr fun f _ => ?_
      rw [enter_table, initFdTable_table handled, held]
      exact or_iff_left_iff_imp
  · case h_2 parent child forking =>
      obtain rfl := Option.some.inj new
      simp only [Process.step, forking] at run
      obtain ⟨fm, answered, rfl⟩ := Option.map_eq_some_iff.mp run
      obtain ⟨_, handled⟩ := served_eq_some.mp answered
      have held : (x.fm.pcbs child).fdTable = x.left child :=
        recycled.table child (by simp [System.waiting, forking, Phase.pending])
      show (∀ f, f < 100 →
        ((x.enter fm child _).fm.pcbs child).fdTable f = (x.fm.pcbs parent).fdTable f) ↔
        ∀ f, f < 100 → x.left child f ≠ none → (x.fm.pcbs parent).fdTable f ≠ none
      refine forall₂_congr fun f small => ?_
      rw [enter_table, copyFdTable_table handled small, held]
      cases (x.fm.pcbs parent).fdTable f <;> simp
  · exact absurd new (by simp)

theorem Recycled.starts (recycled : Recycled x) (events : List Event) :
    ∀ start ∈ Process.starts events x, start.Isolated ↔ start.Covered := by
  induction events generalizing x with
  | nil => simp [Process.starts]
  | cons event events ih =>
      intro start among
      unfold Process.starts at among
      cases run : Process.step event x with
      | none => simp [run] at among
      | some x' =>
          rw [run] at among
          rcases List.mem_append.mp among with here | later
          · exact recycled.started run (Option.mem_toList.mp here)
          · exact ih (recycled.step run) start later

end Recycled

/-- **Descriptor isolation**: in every run, a process that is started has exactly the descriptors it
should have if and only if the former owner of its `PCB` had closed every other one. -/
theorem descriptor_isolation {s : FmState} (boot : Boot s) (events : List Event) :
    ∀ start ∈ starts events (.boot s), start.Isolated ↔ start.Covered :=
  (recycled_boot boot).starts events

/-- The second process of a run: its number, and whether nobody had left anything in its `PCB`. -/
def secondStart (x : System) : Option (Nat × Bool) :=
  (starts [.createProcess, .initFdTable, .fork 11, .copyFdTable] x)[1]?.map fun start =>
    (start.pid, (List.range 100).all fun f => start.left f = none)

/-- The shell is created and forks. -/
theorem descriptor_isolation_fork :
    ∃ start ∈ starts [.createProcess, .initFdTable, .fork 11, .copyFdTable]
    (.boot bootState), start.pid = 12 ∧ start.Isolated := by
  have second : secondStart (.boot bootState) = some (12, true) := by decide +kernel
  obtain ⟨start, there, same⟩ := Option.map_eq_some_iff.mp second
  obtain ⟨pid, unused⟩ := Prod.mk.inj same
  have among := List.mem_of_getElem? there
  refine ⟨start, among,
    pid, (descriptor_isolation boot_bootState _ start among).mpr fun f small held => ?_⟩
  have none : start.left f = none := by
    simpa using List.all_eq_true.mp unused f (List.mem_range.mpr small)
  exact absurd none held

/-- Process 11 is created, opens a file and exits; then all other `PCB`s get a process, and it is
the turn of that one again. -/
def reuseRun : List Event :=
  [.createProcess, .initFdTable, .request zeroJunk 11 (.open (pathBuffer [47, 97]) 1), .exit 11] ++
    (List.replicate 39 [.createProcess, .initFdTable]).flatten

/-- Whether descriptor `f` of the `n`th process of a run, created by CREATE_PROCESS, is open. -/
def createdWith (n f : Nat) (x : System) : Bool :=
  (starts reuseRun x)[n]?.any fun start => start.parent.isNone && (start.table f).isSome

set_option maxRecDepth 4000 in
/-- **A descriptor of a former owner**: the second process `11` starts with the descriptor `3` that
the first one left open. -/
theorem stale_descriptor :
    ∃ s events, Boot s ∧ ∃ start ∈ starts events (.boot s), ¬ start.Isolated := by
  have stale : createdWith 39 3 (.boot bootState) = true := by decide +kernel
  obtain ⟨start, there, held⟩ := (Option.any_eq_true _ _).mp stale
  obtain ⟨created, open3⟩ := Bool.and_eq_true_iff.mp held
  refine ⟨bootState, reuseRun, boot_bootState, start, List.mem_of_getElem? there,
    fun isolated => ?_⟩
  rw [Start.Isolated, Option.isNone_iff_eq_none.mp created] at isolated
  exact absurd ((isolated 3 (by omega)).mp (Option.isSome_iff_ne_none.mp open3)) (by omega)

end NjuOs.Process
