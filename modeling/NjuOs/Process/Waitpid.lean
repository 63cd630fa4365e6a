/-
**Parents and children: `waitpid` and `exit`.**

A parent is known to the manager as a pid in the PCB of its child, and the slot of a process that
ended is given to others. `Lives` adds what the code does not keep: which process, by its number, is
in which PCB, which process forked it (`Lib.Lineage`), and which processes are blocked in
`receive(PCB_MANAGER)` after a `WAIT_PID` without an answer.

A forked process always names its parent rightly while that one runs (`Inv.tracks`), so what can go
wrong is a wait for an orphan: a process whose parent has ended, that nobody forked, or the memory
outside of the pool (`waitpid_exit_pairing`, `heir_waits`).
-/

import Mathlib.Data.List.Nodup
import NjuOs.Lib.Lineage
import NjuOs.Process.Manager

namespace NjuOs.Process.Manager

open NjuOs.Lib

/-! ### The processes behind the PCBs -/

/-- A PCB of the pool that is in use. -/
def System.alive (s : System) (pcb : Int) : Bool := decide (0 ≤ pcb ∧ pcb < 50) && s.isUsed pcb

/-- The system with its history. -/
structure Lives where
  system : System
  lineage : Lineage Int
  waiting : Int → Option Int

/-- The process in the PCB `i0` runs, and the process in the PCB `src` forked it. -/
def Lives.Own (x : Lives) (src i0 : Int) : Prop :=
  x.system.alive i0 = true ∧ x.lineage.ChildOf i0 src

/-- No process that runs forked the one in the PCB `i0`. -/
def Lives.Orphan (x : Lives) (i0 : Int) : Prop :=
  ∀ q, x.system.alive q = true → ¬ x.lineage.ChildOf i0 q

/-- The history after a step that answered with `messages`. -/
def Lives.next (x : Lives) (step : Step) (messages : List Message) (system : System) : Lives :=
  match step, x.system.free with
  | .serve _ (.createProcess _), pcb :: _ => { x with system, lineage := x.lineage.start pcb none }
  | .serve _ (.fork src),
      pcb :: _ => { x with system, lineage := x.lineage.start pcb (some (x.lineage.born src)) }
  | .serve _ (.waitPid src i0), _ =>
    { x with system, waiting := if messages = [] then Function.update x.waiting src (some i0)
      else x.waiting }
  | .serve _ (.exit _ _), _ =>
    { x with system, waiting := fun q => if messages.any (·.dest = q) then none else x.waiting q }
  | _, _ => { x with system }

/-- A step of a process that is not blocked. -/
def Lives.step (step : Step) (x : Lives) : Option (List Message × Lives) :=
  if x.waiting step.src = none then
    (step.run x.system).map fun handled => (handled.1, x.next step handled.1 handled.2)
  else
    none

/-- A step of a run. -/
structure Event where
  before : Lives
  step : Step
  messages : List Message
  after : Lives

/-- The events of a run, up to the first step that cannot happen. -/
def events : List Step → Lives → List Event
  | [], _ => []
  | step :: steps, x =>
    match x.step step with
    | none => []
    | some (messages, x') => ⟨x, step, messages, x'⟩ :: events steps x'

/-- Boot: nobody has a parent or waits. -/
def Lives.boot (outside : Outside) : Lives where
  system := Manager.boot outside
  lineage := { born := Int.toNat, births := 50, parent := fun _ => none }
  waiting _ := none

/-! ### What should happen

A `WAIT_PID` for a running child of the sender is recorded and not answered; any other is answered
with `-1`. The process that waits for the one that exits is its parent and gets one message, with
the argument of the exit; nobody else gets one. No other step sends a message to a process that
waits, or ends one that is waited for. -/

/-- **A WAIT_PID is paired with the exit of the child**, or answered -1 at once; an exit answers
only who waits. -/
def Event.Paired (e : Event) : Prop :=
  match e.step with
  | .serve _ (.waitPid src i0) =>
    (e.before.Own src i0 → e.messages = [] ∧ e.after.system.parentWait i0 = true ∧
      e.after.waiting src = some i0) ∧
      (¬ e.before.Own src i0 → e.messages = [⟨src, -1⟩])
  | .serve _ (.exit src i0) =>
    (∀ q, e.before.waiting q = some src → e.before.system.alive q = true ∧
      e.before.lineage.ChildOf src q ∧
      e.messages = [⟨q, i0⟩] ∧ e.after.waiting q = none) ∧
      ((∀ q, e.before.waiting q ≠ some src) → e.messages = [])
  | .serve _ (.createProcess _) | .serve _ (.fork _) | .serve _ (.exec _ _) =>
    ∀ message ∈ e.messages, e.before.waiting message.dest = none
  | .wrap pcb => ∀ q, e.before.waiting q ≠ some pcb

/-- No `WAIT_PID` for an orphan passes the test of `handle_waitpid`. -/
def Event.Raised (e : Event) : Prop :=
  match e.step with
  | .serve _ (.waitPid src i0) => e.before.system.Matches src i0 → ¬ e.before.Orphan i0
  | _ => True

/-! ### The invariant -/

/-- **The invariant** of a run. -/
structure Inv (x : Lives) : Prop where
  pids : ∀ k, 0 ≤ k → k < 50 → x.system.pid k = k
  pool : ∀ k ∈ x.system.free, 0 ≤ k ∧ k < 50 ∧ x.system.isUsed k = false
  nodup : x.system.free.Nodup
  valid : x.lineage.Valid x.system.alive
  tracks : x.lineage.Tracks x.system.alive x.system.ppid
  strangers : ∀ k, ¬ (0 ≤ k ∧ k < 50) → x.lineage.parent k = none
  user : ∀ k, x.system.alive k = true → x.lineage.parent k ≠ none → x.system.isKernel k = false
  /-- Who waits, waits for a child. -/
  waits : ∀ q k, x.waiting q = some k →
    x.system.alive q = true ∧ x.system.alive k = true ∧ x.lineage.ChildOf k q ∧
      x.system.parentWait k = true
  /-- A child with `parent_wait` is waited for. -/
  waited : ∀ k, x.system.alive k = true → x.system.parentWait k = true →
    x.waiting (x.system.ppid k) = some k

section Steps

variable {x : Lives}

/-- The lock counts play no part. -/
theorem Inv.of_rest {s : System} {l : Lineage Int} {waiting : Int → Option Int} :
    Inv ⟨s.rest, l, waiting⟩ ↔ Inv ⟨s, l, waiting⟩ :=
  ⟨fun inv => ⟨inv.pids, inv.pool, inv.nodup, inv.valid, inv.tracks, inv.strangers, inv.user,
    inv.waits, inv.waited⟩,
    fun inv => ⟨inv.pids, inv.pool, inv.nodup, inv.valid, inv.tracks, inv.strangers, inv.user,
      inv.waits, inv.waited⟩⟩

theorem Inv.of_after {s t : System} {l : Lineage Int} {waiting : Int → Option Int}
    (after : s.rest = t) (inv : Inv ⟨t, l, waiting⟩) : Inv ⟨s, l, waiting⟩ := by
  rw [← Inv.of_rest, after]
  exact inv

theorem System.alive_iff {s : System} {pcb : Int} :
    s.alive pcb = true ↔ (0 ≤ pcb ∧ pcb < 50) ∧ s.isUsed pcb = true := by
  simp [System.alive]

theorem System.alive_start {s : System} {pcb : Int} (pool : 0 ≤ pcb ∧ pcb < 50) :
    (s.start pcb).alive = Function.update s.alive pcb true := by
  funext k
  by_cases same : k = pcb
  · simp [System.alive, System.start, same, pool]
  · simp [System.alive, System.start, same]

theorem System.alive_leave (s : System) (pcb : Int) :
    (s.leave pcb).alive = Function.update s.alive pcb false := by
  funext k
  by_cases same : k = pcb
  · simp [System.alive, System.leave, same]
  · simp [System.alive, System.leave, same]

/-- A process in a PCB of the free list, with `parent` and a new `ppid`. -/
theorem Inv.start (inv : Inv x) {pcb : Int} {free : List Int} (taken : x.system.free = pcb :: free)
    {parent : Option Nat} {ppid : Int → Int} (others : ∀ k, k ≠ pcb → ppid k = x.system.ppid k)
    (own : ∀ n, parent = some n →
      n < x.lineage.births ∧ ∀ q, x.system.alive q = true → x.lineage.born q = n → ppid pcb = q) :
    Inv { x with
      system := { (x.system.setFree free).start pcb with ppid }
      lineage := x.lineage.start pcb parent } := by
  obtain ⟨low, high, unused⟩ := inv.pool pcb (by simp [taken])
  have nodup := inv.nodup
  rw [taken, List.nodup_cons] at nodup
  have alive : System.alive { (x.system.setFree free).start pcb with ppid } =
      Function.update x.system.alive pcb true := System.alive_start ⟨low, high⟩
  have fresh : ∀ k, x.system.alive k = true → k ≠ pcb := by
    rintro k there rfl
    simp [System.alive, unused] at there
  refine ⟨inv.pids, ?_, nodup.2, ?_, ?_, ?_, ?_, ?_, ?_⟩
  · intro k member
    have member : k ∈ free := member
    obtain ⟨low, high, unused⟩ := inv.pool k (by simp [taken, member])
    have ne : k ≠ pcb := fun same => nodup.1 (same ▸ member)
    exact ⟨low, high, (Function.update_of_ne ne _ _).trans unused⟩
  · rw [alive]
    exact inv.valid.start pcb fun n is => (own n is).1
  · rw [alive]
    exact inv.tracks.start inv.valid others own
  · intro k stranger
    have ne : k ≠ pcb := fun same => stranger (same ▸ ⟨low, high⟩)
    exact (Function.update_of_ne ne _ _).trans (inv.strangers k stranger)
  · intro k there forked
    by_cases same : k = pcb
    · exact same ▸ Function.update_self _ _ _
    · rw [alive, Function.update_of_ne same] at there
      rw [show (x.lineage.start pcb parent).parent k = _ from Function.update_of_ne same
        _ _] at forked
      exact (Function.update_of_ne same _ _).trans (inv.user k there forked)
  · intro q k waits
    obtain ⟨there, there', child, wait⟩ := inv.waits q k waits
    have ne := fresh q there
    have ne' := fresh k there'
    refine ⟨?_, ?_, (Lineage.childOf_start_of_ne ne' ne).mpr child,
      (Function.update_of_ne ne' _ _).trans wait⟩
    · rw [alive, Function.update_of_ne ne, there]
    · rw [alive, Function.update_of_ne ne', there']
  · intro k there wait
    by_cases same : k = pcb
    · subst same
      exact absurd wait (by simp [System.start])
    · rw [alive, Function.update_of_ne same] at there
      refine (congrArg x.waiting (others k same)).trans (inv.waited k there ?_)
      exact (Function.update_of_ne same _ _).symm.trans wait

/-- The end of a process that does not wait; who waited for it does so no more. -/
theorem Inv.leave (inv : Inv x) {src : Int} (running : x.system.alive src = true)
    (awake : x.waiting src = none) {waiting : Int → Option Int}
    (answered : ∀ q, x.waiting q = some src → waiting q = none)
    (others : ∀ q, x.waiting q ≠ some src → waiting q = x.waiting q) :
    Inv { x with system := x.system.leave src, waiting } := by
  obtain ⟨⟨low, high⟩, used⟩ := System.alive_iff.mp running
  have alive := x.system.alive_leave src
  refine ⟨inv.pids, ?_, ?_, ?_, ?_, inv.strangers, ?_, ?_, ?_⟩
  · intro k member
    rcases List.mem_append.mp member with old | new
    · obtain ⟨low, high, unused⟩ := inv.pool k old
      refine ⟨low, high, ?_⟩
      by_cases same : k = src
      · exact same ▸ Function.update_self _ _ _
      · exact (Function.update_of_ne same _ _).trans unused
    · obtain rfl := List.mem_singleton.mp new
      exact ⟨low, high, Function.update_self _ _ _⟩
  · refine List.nodup_append.mpr ⟨inv.nodup, by simp, ?_⟩
    rintro a free b new rfl
    obtain rfl := List.mem_singleton.mp new
    exact absurd (inv.pool a free).2.2 (by simp [used])
  · rw [alive]
    exact inv.valid.stop src
  · rw [alive]
    exact inv.tracks.stop src
  · intro k there forked
    rw [alive] at there
    by_cases same : k = src
    · simp [same] at there
    · rw [Function.update_of_ne same] at there
      exact inv.user k there forked
  · intro q k waits
    have waits : waiting q = some k := waits
    have other : x.waiting q ≠ some src := fun gone => by simp [answered q gone] at waits
    rw [others q other] at waits
    obtain ⟨there, there', child, wait⟩ := inv.waits q k waits
    have ne : q ≠ src := fun same => by simp [same, awake] at waits
    have ne' : k ≠ src := fun same => other (same ▸ waits)
    refine ⟨?_, ?_, child, wait⟩
    · rw [alive, Function.update_of_ne ne, there]
    · rw [alive, Function.update_of_ne ne', there']
  · intro k there wait
    rw [alive] at there
    by_cases same : k = src
    · simp [same] at there
    · rw [Function.update_of_ne same] at there
      have waits := inv.waited k there wait
      refine (others (x.system.ppid k) ?_).trans waits
      simp [waits, same]

theorem Inv.setUser (inv : Inv x) (src : Int) : Inv { x with system := x.system.setUser src } := by
  refine ⟨inv.pids, inv.pool, inv.nodup, inv.valid, inv.tracks, inv.strangers, ?_,
    inv.waits, inv.waited⟩
  intro k there forked
  by_cases same : k = src
  · exact same ▸ Function.update_self _ _ _
  · exact (Function.update_of_ne same _ _).trans (inv.user k there forked)

theorem Inv.setWait (inv : Inv x) {src i0 : Int} (running : x.system.alive src = true)
    (awake : x.waiting src = none) (own : x.Own src i0) :
    Inv { x with
      system := x.system.setWait i0, waiting := Function.update x.waiting src (some i0) } := by
  have parent : x.system.ppid i0 = src := inv.tracks i0 src own.1 running own.2
  refine ⟨inv.pids, inv.pool, inv.nodup, inv.valid, inv.tracks, inv.strangers, inv.user, ?_, ?_⟩
  · intro q k waits
    by_cases same : q = src
    · subst same
      obtain rfl : i0 = k := by simpa using waits
      exact ⟨running, own.1, own.2, Function.update_self _ _ _⟩
    · obtain ⟨there, there', child, wait⟩ :=
        inv.waits q k ((Function.update_of_ne same _ _).symm.trans waits)
      refine ⟨there, there', child, ?_⟩
      by_cases same' : k = i0
      · exact same' ▸ Function.update_self _ _ _
      · exact (Function.update_of_ne same' _ _).trans wait
  · intro k there wait
    by_cases same : k = i0
    · subst same
      exact parent ▸ Function.update_self _ _ _
    · have waits := inv.waited k there ((Function.update_of_ne same _ _).symm.trans wait)
      have ne : x.system.ppid k ≠ src := fun is => by simp [is, awake] at waits
      exact (Function.update_of_ne ne _ _).trans waits

/-- The test finds the children of the sender, and may find an orphan. -/
theorem Inv.own_iff (inv : Inv x) {src i0 : Int} (running : x.system.alive src = true) :
    x.Own src i0 ↔ x.system.Matches src i0 ∧ ¬ x.Orphan i0 := by
  obtain ⟨⟨low, high⟩, -⟩ := System.alive_iff.mp running
  constructor
  · rintro ⟨there, child⟩
    obtain ⟨⟨low', high'⟩, used⟩ := System.alive_iff.mp there
    have is := inv.pids i0 low' high'
    refine ⟨⟨?_, ?_, ?_, used⟩, fun orphan => orphan src running child⟩
    · rw [is]
      exact low'
    · rw [is]
      exact high'
    · rw [inv.pids src low high, inv.tracks i0 src there running child]
  · rintro ⟨⟨-, -, parent, used⟩, raised⟩
    obtain ⟨q, there, child⟩ : ∃ q, x.system.alive q = true ∧ x.lineage.ChildOf i0 q := by
      simpa [Lives.Orphan] using raised
    have pool : 0 ≤ i0 ∧ i0 < 50 := by
      refine Classical.not_not.mp fun stranger => ?_
      rw [Lineage.ChildOf, inv.strangers i0 stranger] at child
      simp at child
    have alive : x.system.alive i0 = true := System.alive_iff.mpr ⟨pool, used⟩
    have same : x.system.ppid i0 = q := inv.tracks i0 q alive there child
    rw [inv.pids src low high, same] at parent
    exact ⟨alive, parent ▸ child⟩

theorem Lives.step_eq_some {step : Step} {messages : List Message} {x' : Lives} :
    x.step step = some (messages, x') ↔ x.waiting step.src = none ∧
      ∃ s, step.run x.system = some (messages, s) ∧ x' = x.next step messages s := by
  unfold Lives.step
  split <;> simp_all [eq_comm]

theorem System.alive_of_allowed {s : System} {step : Step} (allowed : step.allowed s = true) :
    s.alive step.src = true := by
  simp only [Step.allowed, Bool.and_eq_true, decide_eq_true_eq] at allowed
  exact System.alive_iff.mpr ⟨allowed.1.1.1, allowed.1.1.2⟩

/-- One step, from any state with the invariant. -/
theorem Inv.step (inv : Inv x) {step : Step} {messages : List Message} {x' : Lives}
    (stepped : x.step step = some (messages, x')) :
    (Event.Paired ⟨x, step, messages, x'⟩ ↔ Event.Raised ⟨x, step, messages, x'⟩) ∧
      (Event.Raised ⟨x, step, messages, x'⟩ → Inv x') := by
  obtain ⟨awake, s', ran, rfl⟩ := Lives.step_eq_some.mp stepped
  have running : x.system.alive step.src = true :=
    System.alive_of_allowed (Step.run_eq_some.mp ran).1
  have allowed := (Step.run_eq_some.mp ran).1
  have does := Step.does_of_run ran
  obtain ⟨s, l, waiting⟩ := x
  have inv' := Inv.of_rest.mpr inv
  generalize after : s'.rest = t at does
  cases does with
  | createProcess w src taken =>
      have taken : s.free = _ :: _ := taken
      refine ⟨iff_of_true ?_ trivial, fun _ => ?_⟩
      · intro message member
        obtain rfl := List.mem_singleton.mp member
        exact awake
      · simp only [Lives.next, taken]
        refine Inv.of_after after ?_
        exact inv'.start taken (fun _ _ => rfl) (fun n is => by simp at is)
  | fork w src taken =>
      have taken : s.free = _ :: _ := taken
      obtain ⟨⟨low, high⟩, -⟩ := System.alive_iff.mp running
      refine ⟨iff_of_true ?_ trivial, fun _ => ?_⟩
      · intro message member
        obtain rfl := List.mem_singleton.mp member
        exact awake
      · simp only [Lives.next, taken]
        refine Inv.of_after after ?_
        refine inv'.start taken (fun k ne => Function.update_of_ne ne _ _) ?_
        rintro n ⟨⟩
        refine ⟨inv.valid.past src running, fun q there same => ?_⟩
        -- the only running process with the number of the parent is the parent
        obtain rfl := inv.valid.distinct q src there running same
        exact (Function.update_self _ _ _).trans (inv.pids q low high)
  | exec w src =>
      refine ⟨iff_of_true (fun _ member => by simp at member) trivial, fun _ => ?_⟩
      refine Inv.of_after after ?_
      exact inv'.setUser src
  | execFails w src =>
      refine ⟨iff_of_true ?_ trivial, fun _ => ?_⟩
      · intro message member
        obtain rfl := List.mem_singleton.mp member
        exact awake
      · refine Inv.of_after after ?_
        exact inv'
  | exit w src i0 waited =>
      have waited : s.parentWait src = false := waited
      have alone : ∀ q, waiting q ≠ some src := by
        intro q waits
        have wait : s.parentWait src = true := (inv.waits q src waits).2.2.2
        simp [waited] at wait
      refine ⟨iff_of_true ⟨fun q waits => absurd waits (alone q), fun _ => rfl⟩ trivial,
        fun _ => ?_⟩
      refine Inv.of_after after ?_
      exact inv'.leave running awake (fun q waits => absurd waits (alone q)) fun _ _ => rfl
  | exitWaited w src i0 waited =>
      have waited : s.parentWait src = true := waited
      have waits : waiting (s.ppid src) = some src := inv.waited src running waited
      have parent : ∀ q, waiting q = some src → s.ppid src = q := fun q waits =>
        inv.tracks src q running (inv.waits q src waits).1 (inv.waits q src waits).2.2.1
      refine ⟨iff_of_true ⟨fun q waits => ?_, fun alone => absurd waits (alone _)⟩ trivial,
        fun _ => ?_⟩
      · obtain ⟨there, -, child, -⟩ := inv.waits q src waits
        obtain rfl := parent q waits
        exact ⟨there, child, rfl, by simp [Lives.next, System.rest]⟩
      · refine Inv.of_after after ?_
        refine inv'.leave running awake (fun q waits => ?_) fun q other => ?_
        · obtain rfl := parent q waits
          simp [System.rest]
        · have ne : s.ppid src ≠ q := fun same => other (same ▸ waits)
          simp [System.rest, ne]
  | waitPid w src i0 own =>
      have own : s.Matches src i0 := own
      have raised : (s.Matches src i0 → ¬ Lives.Orphan ⟨s, l, waiting⟩ i0) ↔
        Lives.Own ⟨s, l, waiting⟩ src i0 :=
        ⟨fun raised => (inv.own_iff running).mpr ⟨own, raised own⟩,
          fun is _ => ((inv.own_iff running).mp is).2⟩
      refine ⟨⟨fun paired =>
        raised.mpr (Classical.not_not.mp fun other => by simpa using paired.2 other),
          fun fits => ?_⟩,
        fun fits => ?_⟩
      · have child := raised.mp fits
        have wait : s'.rest.parentWait i0 = true := by
          rw [after]
          exact Function.update_self _ _ _
        exact ⟨fun _ => ⟨rfl, wait, by simp [Lives.next]⟩, fun other => absurd child other⟩
      · simp only [Lives.next, if_true]
        refine Inv.of_after after ?_
        exact inv'.setWait running awake (raised.mp fits)
  | waitPidFails w src i0 other =>
      have other : ¬ s.Matches src i0 := other
      have stranger : ¬ Lives.Own ⟨s, l, waiting⟩ src i0 :=
        fun child => other ((inv.own_iff running).mp child).1
      refine ⟨iff_of_true ⟨fun child => absurd child stranger, fun _ => rfl⟩ fun matched =>
        absurd matched other,
        fun _ => ?_⟩
      refine Inv.of_after after ?_
      exact inv'
  | wrap pcb =>
      have kernel : s.isKernel pcb = true := by
        simp only [Step.allowed, Bool.and_eq_true] at allowed
        exact allowed.2
      -- a child is no kernel thread
      have alone : ∀ q, waiting q ≠ some pcb := by
        intro q waits
        obtain ⟨-, there, child, -⟩ := inv.waits q pcb waits
        have user : s.isKernel pcb = false := inv.user pcb there (by rw [child]; simp)
        simp [user] at kernel
      refine ⟨iff_of_true alone trivial, fun _ => ?_⟩
      refine Inv.of_after after ?_
      exact inv'.leave running awake (fun q waits => absurd waits (alone q)) fun _ _ => rfl

end Steps

/-! ### Runs -/

theorem Inv.boot (outside : Outside) : Inv (Lives.boot outside) where
  pids k low high := by simp [Lives.boot, Manager.boot, low, high]
  pool k member := by
    obtain ⟨n, range, rfl⟩ := List.mem_map.mp member
    have less := List.mem_range.mp range
    have pool : (0 : Int) ≤ n + 11 ∧ (n : Int) + 11 < 50 := by omega
    refine ⟨pool.1, pool.2, ?_⟩
    simp [Lives.boot, Manager.boot, pool]
  nodup := by
    refine List.Nodup.map (fun a b same => ?_) List.nodup_range
    simpa using same
  valid := by
    refine ⟨fun a there => ?_, fun a b there there' same => ?_,
      fun a n _ is => by simp [Lives.boot] at is⟩
    · obtain ⟨⟨low, high⟩, -⟩ := System.alive_iff.mp there
      show a.toNat < 50
      omega
    · obtain ⟨⟨low, -⟩, -⟩ := System.alive_iff.mp there
      obtain ⟨⟨low', -⟩, -⟩ := System.alive_iff.mp there'
      have same : a.toNat = b.toNat := same
      omega
  tracks a q _ _ child := by simp [Lineage.ChildOf, Lives.boot] at child
  strangers _ _ := rfl
  user _ _ forked := absurd rfl forked
  waits _ _ waits := by simp [Lives.boot] at waits
  waited _ _ wait := by simp [Lives.boot, Manager.boot] at wait

theorem paired_iff (steps : List Step) :
    ∀ {x : Lives}, Inv x → ((∀ e ∈ events steps x, e.Paired) ↔ ∀ e ∈ events steps x, e.Raised) := by
  induction steps with
  | nil => simp [events]
  | cons step steps rest =>
      intro x inv
      unfold events
      cases stepped : x.step step with
      | none => simp
      | some result =>
          obtain ⟨messages, x'⟩ := result
          obtain ⟨one, next⟩ := inv.step stepped
          simp only [List.forall_mem_cons]
          rw [one]
          exact and_congr_right fun raised => rest (next raised)

/-- **Parents and children.** In a run from boot waits and exits are paired as they should, exactly
if no `WAIT_PID` for an orphan passes the test of `handle_waitpid`. -/
theorem waitpid_exit_pairing (outside : Outside) (steps : List Step) :
    (∀ e ∈ events steps (Lives.boot outside), e.Paired) ↔
    ∀ e ∈ events steps (Lives.boot outside), e.Raised :=
  paired_iff steps (Inv.boot outside)

instance (x : Lives) (src i0 : Int) : Decidable (x.Own src i0) :=
  inferInstanceAs (Decidable (_ ∧ _))

/-- A `WAIT_PID` for somebody else's process, without an answer. -/
def Event.misses (e : Event) : Bool :=
  match e.step with
  | .serve _ (.waitPid src i0) => !decide (e.before.Own src i0) && e.messages.isEmpty
  | _ => false

theorem Event.not_paired_of_misses {e : Event} (misses : e.misses = true) : ¬ e.Paired := by
  intro paired
  unfold Event.misses at misses
  unfold Event.Paired at paired
  split at misses
  · rename_i src i0 is
    simp only [is] at paired
    simp only [Bool.and_eq_true, Bool.not_eq_true', decide_eq_false_iff_not,
      List.isEmpty_iff] at misses
    simpa [misses.2] using paired.2 misses.1
  · simp at misses

/-- The shell (11) forks 12, which forks 13 and exits. When the slots 14 to 49 have been given away
the shell's next child is in slot 12, and waits for 13. -/
theorem heir_waits :
    ¬ ∀ (outside : Outside) (steps : List Step), ∀ e ∈ events steps (Lives.boot outside),
    e.Paired := by
  intro all
  let serve : Request → Step := .serve fun _ => (false, false)
  let steps : List Step :=
    [serve (.createProcess 10), serve (.fork 11), serve (.fork 12), serve (.exit 12 0)] ++
      List.replicate 37 (serve (.fork 11)) ++ [serve (.waitPid 12 13)]
  let outside : Outside := ⟨fun _ => -1, fun _ => 0, fun _ => false⟩
  have found : (events steps (Lives.boot outside)).any Event.misses = true := by decide +kernel
  obtain ⟨e, member, misses⟩ := List.any_eq_true.mp found
  exact Event.not_paired_of_misses misses (all outside steps e member)

end NjuOs.Process.Manager
