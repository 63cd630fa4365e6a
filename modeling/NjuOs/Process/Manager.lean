/-
**The process manager: requests, PCB slots and locks.**

`pcb_manager.c`, the fields of a `PCB` that its handlers read or write, and the free list. The
manager serves one request after the other; a request and its reply are one step here. It runs the
code of `send`, `receive`, `P`, `V`, `sleep` and `wakeup` itself, each of which calls `lock` and
`unlock` on the manager's own `lock_count`: these calls are all here, and what else the functions
do is in `Process.Message` and `Process.Schedule`. Whether a semaphore has a waiter, or blocks, is
not decided here: `w k` says it for the two semaphores of the `k`-th call of a handler.

`pcb_pool[i]` is taken at any `i`, as the code does with the argument of `WAIT_PID`; what stands in
memory outside of the pool is a parameter. A creation finds a free PCB, as `fork` asserts.

`lock_balance`: handling a request leaves `lock_count` as it was, unless the request is a
`WAIT_PID` that records a wait: `handle_waitpid` returns between its `lock` and its `unlock` then.
-/

import Mathlib.Logic.Function.Basic
import Mathlib.Tactic.Ring

namespace NjuOs.Process.Manager

/-! ### The model -/

/-- The PCBs, by their index relative to `pcb_pool`. -/
structure System where
  pid : Int → Int
  ppid : Int → Int
  isUsed : Int → Bool
  isKernel : Int → Bool
  parentWait : Int → Bool
  lockCount : Int → Nat
  free : List Int

/-- The pid the process manager has after boot: `PCB_MANAGER`, and `current` while it runs. -/
def manager : Int := 9

/-- A message of the manager to the process that waits for it. -/
structure Message where
  dest : Int
  ret : Int
deriving DecidableEq

/-- `lock`, by the manager. -/
def lock (s : System) : System :=
  { s with lockCount := Function.update s.lockCount manager (s.lockCount manager + 1) }

/-- `unlock`, by the manager. -/
def unlock (s : System) : System :=
  if s.lockCount manager > 0 then
    { s with lockCount := Function.update s.lockCount manager (s.lockCount manager - 1) }
  else
    s

/-- The locks of `sleep`; while the manager sleeps only others run. -/
def sleep (s : System) : System := unlock (lock s)

/-- `wakeup`. -/
def wakeup (s : System) : System := unlock (lock s)

/-- `P`, where the token runs out or not. -/
def P (blocks : Bool) (s : System) : System :=
  let s := lock s
  unlock (if blocks then sleep s else s)

/-- `V`, with or without a waiter. -/
def V (waiter : Bool) (s : System) : System :=
  let s := lock s
  unlock (if waiter then wakeup s else s)

/-- `send`, with what its two `V` wake up. -/
def send (w : Bool × Bool) (s : System) : System := unlock (V w.2 (V w.1 (lock s)))

/-- `receive`, whose first and second `P` are on different semaphores in its two modes. -/
def receive (w : Bool × Bool) (s : System) : System := unlock (P w.2 (P w.1 (lock s)))

/-- A request to another server and its answer. -/
def call (w w' : Bool × Bool) (s : System) : System := receive w' (send w s)

/-- A PCB's count of locks. -/
def System.setCount (s : System) (pcb : Int) (lockCount : Nat) : System :=
  { s with lockCount := Function.update s.lockCount pcb lockCount }

/-- Another free list. -/
def System.setFree (s : System) (free : List Int) : System := { s with free }

/-- A PCB's parent. -/
def System.setPpid (s : System) (pcb ppid : Int) : System :=
  { s with ppid := Function.update s.ppid pcb ppid }

/-- The flags of a PCB that `init_pcb` and `fork` set. -/
def System.start (s : System) (pcb : Int) : System :=
  { s with
    isUsed := Function.update s.isUsed pcb true
    isKernel := Function.update s.isKernel pcb false
    parentWait := Function.update s.parentWait pcb false }

/-- A PCB goes to the end of the free list. -/
def System.leave (s : System) (pcb : Int) : System :=
  { s with isUsed := Function.update s.isUsed pcb false, free := s.free ++ [pcb] }

/-- A PCB of a user process. -/
def System.setUser (s : System) (pcb : Int) : System :=
  { s with isKernel := Function.update s.isKernel pcb false }

/-- The parent waits for this PCB. -/
def System.setWait (s : System) (pcb : Int) : System :=
  { s with parentWait := Function.update s.parentWait pcb true }

/-- `init_pcb`. -/
def initPcb (pcb : Int) (s : System) : System := unlock (((lock s).setCount pcb 0).start pcb)

/-- What the semaphores of the messages wake up, call by call. -/
abbrev Calls := Nat → Bool × Bool

/-- The messages a handler sends to processes, and the state it leaves. -/
abbrev Handled := List Message × System

/-- `create_process`. -/
def createProcess (w : Calls) (src : Int) (s : System) : Option Handled :=
  match s.free with
  | [] => none
  | newPcb :: free =>
    let s := unlock ((lock s).setFree free)
    let s := call (w 0) (w 1) s
    let s := call (w 2) (w 3) s
    let s := wakeup (initPcb newPcb s)
    some ([⟨src, s.pid newPcb⟩], send (w 4) s)

/-- `fork`. -/
def fork (w : Calls) (src : Int) (s : System) : Option Handled :=
  match s.free with
  | [] => none
  | newPcb :: free =>
    let s := unlock ((lock s).setFree free)
    let s := call (w 0) (w 1) s
    let s := lock s
    let s := unlock (((s.setCount newPcb (s.lockCount src)).start newPcb).setPpid
      newPcb (s.pid src))
    let s := call (w 2) (w 3) s
    some ([⟨src, s.pid newPcb⟩], send (w 4) s)

/-- `exec`, where the memory manager can load the file or not. A process that has its new program is
woken up without an answer. -/
def exec (w : Calls) (src : Int) (loaded : Bool) (s : System) : Option Handled :=
  let s := call (w 0) (w 1) s
  if loaded then
    some ([], wakeup ((s.setCount src 0).setUser src))
  else
    some ([⟨src, -1⟩], send (w 2) s)

/-- `exit`: the one that waits gets the answer. -/
def exit (w : Calls) (src : Int) (i0 : Int) (s : System) : Option Handled :=
  let s := call (w 0) (w 1) s
  let s := call (w 2) (w 3) s
  let s := unlock ((lock s).leave src)
  if s.parentWait src then some ([⟨s.ppid src, i0⟩], send (w 4) s) else some ([], s)

/-- `handle_waitpid`: a child is waited for; for any other PCB the answer is -1. -/
def handleWaitpid (w : Calls) (src : Int) (i0 : Int) (s : System) : Option Handled :=
  let s := lock s
  if s.pid i0 ≥ 0 ∧ s.pid i0 < 50 ∧ s.pid src = s.ppid i0 ∧ s.isUsed i0 = true then
    some ([], s.setWait i0)
  else
    some ([⟨src, -1⟩], send (w 0) (unlock s))

/-- The requests to the manager, with their sender. -/
inductive Request where
  | createProcess (src : Int)
  | fork (src : Int)
  | exec (src : Int) (loaded : Bool)
  | exit (src : Int) (i0 : Int)
  | waitPid (src : Int) (i0 : Int)

/-- Who asks. -/
def Request.src : Request → Int
  | .createProcess src | .fork src | .exec src _ | .exit src _ | .waitPid src _ => src

/-- One turn of the loop of `pcb_manager_thread`: `receive(ANY)` and the handler. -/
def Request.handle (w : Calls) (request : Request) (s : System) : Option Handled :=
  let s := receive (w 9) s
  match request with
  | .createProcess src => Manager.createProcess w src s
  | .fork src => Manager.fork w src s
  | .exec src loaded => Manager.exec w src loaded s
  | .exit src i0 => Manager.exit w src i0 s
  | .waitPid src i0 => handleWaitpid w src i0 s

/-- A kernel thread's function returns: the lists and `is_used` at the end of `wrap`. -/
def wrap (pcb : Int) (s : System) : System := s.leave pcb

/-- What may happen: a request, or the end of a kernel thread. -/
inductive Step where
  | serve (w : Calls) (request : Request)
  | wrap (pcb : Int)

/-- The process whose code a step is. -/
def Step.src : Step → Int
  | .serve _ request => request.src
  | .wrap pcb => pcb

/-- Requests come from running processes; the manager's own loop sends none and does not end. -/
def Step.allowed (step : Step) (s : System) : Bool :=
  0 ≤ step.src && step.src < 50 && s.isUsed step.src && step.src ≠ manager &&
    match step with
    | .serve _ _ => true
    | .wrap pcb => s.isKernel pcb

/-- What a step does, if it is allowed. -/
def Step.run (step : Step) (s : System) : Option Handled :=
  if step.allowed s then
    match step with
    | .serve w request => request.handle w s
    | .wrap pcb => some ([], Manager.wrap pcb s)
  else
    none

/-- The memory outside of the pool, as far as it is taken for a PCB. -/
structure Outside where
  pid : Int → Int
  ppid : Int → Int
  isUsed : Int → Bool

/-- After boot: the drivers, the three managers and `create_shell` run in the first eleven PCBs. -/
def boot (outside : Outside) : System where
  pid k := if 0 ≤ k ∧ k < 50 then k else outside.pid k
  ppid k := if 0 ≤ k ∧ k < 50 then 0 else outside.ppid k
  isUsed k := if 0 ≤ k ∧ k < 50 then k < 11 else outside.isUsed k
  isKernel k := 0 ≤ k ∧ k < 11
  parentWait _ := false
  lockCount _ := 0
  free := (List.range 39).map fun (k : Nat) => (k : Int) + 11

/-! ### What a lock and its unlock leave alone -/

/-- Everything but the lock counts. -/
def System.rest (s : System) : System := { s with lockCount := fun _ => 0 }

section Lock

variable (s : System) (w w' : Bool × Bool) (b : Bool)

@[simp] theorem rest_lock : (lock s).rest = s.rest := rfl

@[simp] theorem rest_unlock : (unlock s).rest = s.rest := by
  unfold unlock
  split <;> rfl

@[simp] theorem rest_sleep : (sleep s).rest = s.rest := by simp [sleep]

@[simp] theorem rest_wakeup : (wakeup s).rest = s.rest := by simp [wakeup]

@[simp] theorem rest_P : (P b s).rest = s.rest := by
  unfold P
  cases b <;> simp

@[simp] theorem rest_V : (V b s).rest = s.rest := by
  unfold V
  cases b <;> simp

@[simp] theorem rest_send : (send w s).rest = s.rest := by simp [send]

@[simp] theorem rest_receive : (receive w s).rest = s.rest := by simp [receive]

@[simp] theorem rest_call : (call w w' s).rest = s.rest := by simp [call]

/-- The manager's `lock_count`. -/
def System.depth (s : System) : Nat := s.lockCount manager

@[simp] theorem depth_lock : (lock s).depth = s.depth + 1 := by simp [System.depth, lock]

@[simp] theorem depth_unlock : (unlock s).depth = s.depth - 1 := by
  unfold unlock System.depth
  split
  · simp
  · omega

@[simp] theorem depth_sleep : (sleep s).depth = s.depth := by simp [sleep]

@[simp] theorem depth_wakeup : (wakeup s).depth = s.depth := by simp [wakeup]

@[simp] theorem depth_P : (P b s).depth = s.depth := by
  unfold P
  cases b <;> simp

@[simp] theorem depth_V : (V b s).depth = s.depth := by
  unfold V
  cases b <;> simp

@[simp] theorem depth_send : (send w s).depth = s.depth := by simp [send]

@[simp] theorem depth_receive : (receive w s).depth = s.depth := by simp [receive]

@[simp] theorem depth_call : (call w w' s).depth = s.depth := by simp [call]

variable (pcb k : Int) (n : Nat) (free : List Int)

@[simp] theorem rest_setCount : (s.setCount pcb n).rest = s.rest := rfl

@[simp] theorem rest_setFree : (s.setFree free).rest = s.rest.setFree free := rfl

@[simp] theorem rest_setPpid : (s.setPpid pcb k).rest = s.rest.setPpid pcb k := rfl

@[simp] theorem rest_start : (s.start pcb).rest = s.rest.start pcb := rfl

@[simp] theorem rest_leave : (s.leave pcb).rest = s.rest.leave pcb := rfl

@[simp] theorem rest_setUser : (s.setUser pcb).rest = s.rest.setUser pcb := rfl

@[simp] theorem rest_setWait : (s.setWait pcb).rest = s.rest.setWait pcb := rfl

@[simp] theorem rest_initPcb : (initPcb pcb s).rest = s.rest.start pcb := by simp [initPcb]

@[simp] theorem depth_setFree : (s.setFree free).depth = s.depth := rfl

@[simp] theorem depth_setPpid : (s.setPpid pcb k).depth = s.depth := rfl

@[simp] theorem depth_start : (s.start pcb).depth = s.depth := rfl

@[simp] theorem depth_leave : (s.leave pcb).depth = s.depth := rfl

@[simp] theorem depth_setUser : (s.setUser pcb).depth = s.depth := rfl

@[simp] theorem depth_setWait : (s.setWait pcb).depth = s.depth := rfl

variable {pcb}

@[simp] theorem depth_setCount (other : pcb ≠ manager) : (s.setCount pcb n).depth = s.depth :=
  Function.update_of_ne other.symm _ _

@[simp] theorem depth_initPcb (other : pcb ≠ manager) : (initPcb pcb s).depth = s.depth := by
  simp [initPcb, other]

end Lock

/-! ### What each handler does

The messages, the state but for the lock counts, and the manager's `lock_count`. -/

section Handlers

variable {w : Calls} {src i0 : Int} {loaded : Bool} {s s' : System} {messages : List Message}

/-- The pids are no lock counts. -/
theorem pid_congr {s t : System} (same : s.rest.pid = t.rest.pid) : s.pid = t.pid := same

theorem parentWait_congr {s t : System} (same : s.rest.parentWait = t.rest.parentWait) :
    s.parentWait = t.parentWait := same

theorem ppid_congr {s t : System} (same : s.rest.ppid = t.rest.ppid) : s.ppid = t.ppid := same

theorem createProcess_spec (handled : createProcess w src s = some (messages, s')) :
    ∃ pcb free, s.free = pcb :: free ∧ messages = [⟨src, s.pid pcb⟩] ∧
      s'.rest = (s.rest.setFree free).start pcb ∧ (pcb ≠ manager → s'.depth = s.depth) := by
  unfold createProcess at handled
  cases list : s.free with
  | nil => simp [list] at handled
  | cons pcb free =>
      simp only [list, Option.some.injEq, Prod.mk.injEq] at handled
      obtain ⟨rfl, rfl⟩ := handled
      refine ⟨pcb, free, rfl, ?_, by simp, fun other => by simp [other]⟩
      refine congrArg (fun pid : Int → Int => [(⟨src, pid pcb⟩ : Message)]) (pid_congr ?_)
      simp
      rfl

theorem fork_spec (handled : fork w src s = some (messages, s')) :
    ∃ pcb free, s.free = pcb :: free ∧ messages = [⟨src, s.pid pcb⟩] ∧
      s'.rest = ((s.rest.setFree free).start pcb).setPpid pcb (s.pid src) ∧
      (pcb ≠ manager → s'.depth = s.depth) := by
  unfold fork at handled
  cases list : s.free with
  | nil => simp [list] at handled
  | cons pcb free =>
      simp only [list, Option.some.injEq, Prod.mk.injEq] at handled
      obtain ⟨rfl, rfl⟩ := handled
      -- the parent's pid, as `fork` reads it
      have parent : (lock (call (w 0) (w 1) (unlock ((lock s).setFree free)))).pid = s.pid := by
        refine pid_congr ?_
        simp
        rfl
      refine ⟨pcb, free, rfl, ?_, by simp [parent], fun other => by simp [other]⟩
      refine congrArg (fun pid : Int → Int => [(⟨src, pid pcb⟩ : Message)]) (pid_congr ?_)
      simp
      rfl

theorem exec_spec (handled : exec w src loaded s = some (messages, s')) :
    messages = (if loaded then [] else [⟨src, -1⟩]) ∧
      s'.rest = (if loaded then s.rest.setUser src else s.rest) ∧
      (src ≠ manager → s'.depth = s.depth) := by
  unfold exec at handled
  cases loaded with
  | true =>
      obtain ⟨rfl, rfl⟩ := by simpa using handled
      exact ⟨rfl, by simp, fun other => by simp [other]⟩
  | false =>
      obtain ⟨rfl, rfl⟩ := by simpa using handled
      exact ⟨rfl, by simp, fun _ => by simp⟩

theorem exit_spec (handled : exit w src i0 s = some (messages, s')) :
    messages = (if s.parentWait src then [⟨s.ppid src, i0⟩] else []) ∧ s'.rest = s.rest.leave src ∧
      s'.depth = s.depth := by
  have wait : (unlock ((lock (call (w 2) (w 3) (call (w 0) (w 1) s))).leave src)).parentWait =
      s.parentWait := by
    refine parentWait_congr ?_
    simp
    rfl
  have parent : (unlock ((lock (call (w 2) (w 3) (call (w 0) (w 1) s))).leave src)).ppid =
      s.ppid := by
    refine ppid_congr ?_
    simp
    rfl
  simp only [exit, wait, parent] at handled
  split at handled
  · rename_i waits
    obtain ⟨rfl, rfl⟩ := by simpa using handled
    exact ⟨by simp [waits], by simp, by simp⟩
  · rename_i waits
    obtain ⟨rfl, rfl⟩ := by simpa using handled
    exact ⟨by simp [waits], by simp, by simp⟩

/-- What `handle_waitpid` tests: the PCB at `i0` is in use and its `ppid` is the sender's pid. -/
def System.Matches (s : System) (src i0 : Int) : Prop :=
  s.pid i0 ≥ 0 ∧ s.pid i0 < 50 ∧ s.pid src = s.ppid i0 ∧ s.isUsed i0 = true

instance : Decidable (s.Matches src i0) :=
  inferInstanceAs (Decidable (s.pid i0 ≥ 0 ∧ s.pid i0 < 50 ∧ s.pid src = s.ppid i0 ∧
    s.isUsed i0 = true))

/-- The early return leaves the lock taken. -/
theorem handleWaitpid_spec (handled : handleWaitpid w src i0 s = some (messages, s')) :
    messages = (if s.Matches src i0 then [] else [⟨src, -1⟩]) ∧
      s'.rest = (if s.Matches src i0 then s.rest.setWait i0 else s.rest) ∧
      s'.depth = (if s.Matches src i0 then s.depth + 1 else s.depth) := by
  have split : handleWaitpid w src i0 s =
      if s.Matches src i0 then some ([], (lock s).setWait i0)
      else some ([⟨src, -1⟩], send (w 0) (unlock (lock s))) := rfl
  rw [split] at handled
  by_cases own : s.Matches src i0
  · obtain ⟨rfl, rfl⟩ := by simpa [own] using handled
    simp [own]
  · obtain ⟨rfl, rfl⟩ := by simpa [own] using handled
    simp [own]

end Handlers

/-! ### What a step does -/

/-- A step, its messages and the state it leaves, but for the lock counts. -/
inductive Does (s : System) : Step → List Message → System → Prop
  | createProcess (w : Calls) (src : Int) {pcb : Int} {free : List Int}
      (taken : s.free = pcb :: free) :
      Does s (.serve w (.createProcess src)) [⟨src, s.pid pcb⟩] ((s.setFree free).start pcb)
  | fork (w : Calls) (src : Int) {pcb : Int} {free : List Int} (taken : s.free = pcb :: free) :
      Does s (.serve w (.fork src)) [⟨src, s.pid pcb⟩]
        (((s.setFree free).start pcb).setPpid pcb (s.pid src))
  | exec (w : Calls) (src : Int) : Does s (.serve w (.exec src true)) [] (s.setUser src)
  | execFails (w : Calls) (src : Int) : Does s (.serve w (.exec src false)) [⟨src, -1⟩] s
  | exit (w : Calls) (src i0 : Int) (waited : s.parentWait src = false) :
      Does s (.serve w (.exit src i0)) [] (s.leave src)
  | exitWaited (w : Calls) (src i0 : Int) (waited : s.parentWait src = true) :
      Does s (.serve w (.exit src i0)) [⟨s.ppid src, i0⟩] (s.leave src)
  | waitPid (w : Calls) (src i0 : Int) (own : s.Matches src i0) :
      Does s (.serve w (.waitPid src i0)) [] (s.setWait i0)
  | waitPidFails (w : Calls) (src i0 : Int) (other : ¬ s.Matches src i0) :
      Does s (.serve w (.waitPid src i0)) [⟨src, -1⟩] s
  | wrap (pcb : Int) : Does s (.wrap pcb) [] (s.leave pcb)

/-- A `WAIT_PID` that `handle_waitpid` takes for one of a parent. -/
def Step.Records (s : System) : Step → Prop
  | .serve _ (.waitPid src i0) => s.Matches src i0
  | _ => False

instance (s : System) : (step : Step) → Decidable (step.Records s)
  | .serve _ (.waitPid src i0) => inferInstanceAs (Decidable (s.Matches src i0))
  | .serve _ (.createProcess _) | .serve _ (.fork _) | .serve _ (.exec _ _) | .serve
      _ (.exit _ _) | .wrap _ =>
    inferInstanceAs (Decidable False)

section Run

variable {step : Step} {s s' : System} {messages : List Message}

theorem Step.run_eq_some :
    step.run s = some (messages, s') ↔ step.allowed s = true ∧
      (match step with
        | .serve w request => request.handle w s
        | .wrap pcb => some ([], Manager.wrap pcb s)) = some (messages, s') := by
  unfold Step.run
  split <;> simp_all

theorem Step.does_of_run (ran : step.run s = some (messages, s')) :
    Does s.rest step messages s'.rest := by
  obtain ⟨-, handled⟩ := Step.run_eq_some.mp ran
  cases step with
  | wrap pcb =>
      obtain ⟨rfl, rfl⟩ := by simpa using handled
      exact .wrap pcb
  | serve w request =>
      have same : (receive (w 9) s).rest = s.rest := rest_receive s (w 9)
      rw [← same]
      cases request with
      | createProcess src =>
          obtain ⟨pcb, free, taken, rfl, after, -⟩ := createProcess_spec handled
          exact after ▸ .createProcess w src taken
      | fork src =>
          obtain ⟨pcb, free, taken, rfl, after, -⟩ := fork_spec handled
          exact after ▸ .fork w src taken
      | exec src loaded =>
          obtain ⟨rfl, after, -⟩ := exec_spec handled
          cases loaded with
          | true => exact after ▸ .exec w src
          | false => exact after ▸ .execFails w src
      | exit src i0 =>
          obtain ⟨rfl, after, -⟩ := exit_spec handled
          rw [after]
          split
          · rename_i waited
            exact .exitWaited w src i0 waited
          · rename_i waited
            exact .exit w src i0 (Bool.eq_false_of_not_eq_true waited)
      | waitPid src i0 =>
          obtain ⟨rfl, after, -⟩ := handleWaitpid_spec handled
          rw [after]
          split
          · rename_i own
            exact .waitPid w src i0 own
          · rename_i other
            exact .waitPidFails w src i0 other

theorem Step.src_ne_of_allowed (allowed : step.allowed s = true) : step.src ≠ manager := by
  simp only [Step.allowed, Bool.and_eq_true, decide_eq_true_eq] at allowed
  exact allowed.1.2

/-- The manager's `lock_count` after a step: one more where a wait was recorded. -/
theorem Step.depth_run (away : manager ∉ s.free) (ran : step.run s = some (messages, s')) :
    s'.depth = if step.Records s then s.depth + 1 else s.depth := by
  obtain ⟨allowed, handled⟩ := Step.run_eq_some.mp ran
  have other : step.src ≠ manager := Step.src_ne_of_allowed allowed
  cases step with
  | wrap pcb =>
      obtain ⟨rfl, rfl⟩ := by simpa using handled
      simp [Step.Records, Manager.wrap]
  | serve w request =>
      have depth : (receive (w 9) s).depth = s.depth := depth_receive s (w 9)
      have same : (receive (w 9) s).rest = s.rest := rest_receive s (w 9)
      have free : (receive (w 9) s).free = s.free :=
        show System.free (System.rest _) = _ by rw [same]; rfl
      cases request with
      | createProcess src =>
          obtain ⟨pcb, rest, taken, -, -, after⟩ := createProcess_spec handled
          rw [free] at taken
          simp only [Step.Records, if_false, ← depth]
          exact after fun stolen => away (by simp [taken, stolen])
      | fork src =>
          obtain ⟨pcb, rest, taken, -, -, after⟩ := fork_spec handled
          rw [free] at taken
          simp only [Step.Records, if_false, ← depth]
          exact after fun stolen => away (by simp [taken, stolen])
      | exec src loaded =>
          obtain ⟨-, -, after⟩ := exec_spec handled
          simp only [Step.Records, if_false, ← depth]
          exact after other
      | exit src i0 =>
          obtain ⟨-, -, after⟩ := exit_spec handled
          simp only [Step.Records, if_false, ← depth]
          exact after
      | waitPid src i0 =>
          obtain ⟨-, -, after⟩ := handleWaitpid_spec handled
          have tests : (receive (w 9) s).Matches src i0 ↔ s.Matches src i0 := by
            show (receive (w 9) s).rest.Matches src i0 ↔ s.rest.Matches src i0
            rw [same]
          rw [after, depth]
          exact if_congr tests rfl rfl

/-- The manager's own PCB never gets to the free list. -/
theorem Step.run_away (away : manager ∉ s.free) (ran : step.run s = some (messages, s')) :
    manager ∉ s'.free := by
  obtain ⟨allowed, -⟩ := Step.run_eq_some.mp ran
  have other : step.src ≠ manager := Step.src_ne_of_allowed allowed
  have does := Step.does_of_run ran
  show manager ∉ s'.rest.free
  have stays : manager ∉ s.rest.free := away
  generalize s'.rest = after at does ⊢
  cases does with
  | createProcess w src taken | fork w src taken =>
      rw [taken] at stays
      exact fun found => stays (List.mem_cons_of_mem _ found)
  | exec w src | execFails w src | waitPid w src i0 _ | waitPidFails w src i0 _ => exact stays
  | exit w src i0 _ | exitWaited w src i0 _ | wrap src =>
      intro found
      rcases List.mem_append.mp found with old | new
      · exact stays old
      · exact other (List.mem_singleton.mp new).symm

end Run

/-! ### Runs -/

/-- A step of a run, with the states before and after it. -/
structure Entry where
  before : System
  step : Step
  after : System

/-- The steps of a run, until one cannot be made. -/
def entries : List Step → System → List Entry
  | [], _ => []
  | step :: steps, s =>
    match step.run s with
    | none => []
    | some (_, s') => ⟨s, step, s'⟩ :: entries steps s'

/-- The manager is back in its loop with the `lock_count` it had before, which is the one it started
with. -/
def Entry.Balanced (e : Entry) (start : System) : Prop :=
  e.after.lockCount manager = e.before.lockCount manager ∧
    e.after.lockCount manager = start.lockCount manager

instance (e : Entry) (start : System) : Decidable (e.Balanced start) :=
  inferInstanceAs (Decidable (_ ∧ _))

/-- The induction: `s` has the `lock_count` of the start. -/
theorem balanced_iff {start : System} (steps : List Step) :
    ∀ {s : System}, manager ∉ s.free → s.depth = start.depth →
      ((∀ e ∈ entries steps s, e.Balanced start) ↔
        ∀ e ∈ entries steps s, ¬ e.step.Records e.before) := by
  induction steps with
  | nil => simp [entries]
  | cons step steps rest =>
      intro s away same
      unfold entries
      cases ran : step.run s with
      | none => simp
      | some handled =>
          obtain ⟨messages, s'⟩ := handled
          have depth := Step.depth_run away ran
          simp only [List.forall_mem_cons]
          by_cases records : step.Records s
          · rw [if_pos records] at depth
            refine iff_of_false ?_ fun all => all.1 records
            intro all
            have kept : s'.depth = s.depth := all.1.1
            omega
          · rw [if_neg records] at depth
            rw [rest (Step.run_away away ran) (depth.trans same)]
            exact and_congr_left fun _ => iff_of_true ⟨depth, depth.trans same⟩ records

/-- **Lock balance.** In a run from boot the manager comes back to its loop with its `lock_count` as
it was before the request, every time, exactly if no `WAIT_PID` of the run passes the test of
`handle_waitpid`. -/
theorem lock_balance (outside : Outside) (steps : List Step) :
    (∀ e ∈ entries steps (boot outside), e.Balanced (boot outside)) ↔
      ∀ e ∈ entries steps (boot outside), ¬ e.step.Records e.before := by
  refine balanced_iff steps ?_ rfl
  show (9 : Int) ∉ (List.range 39).map fun (k : Nat) => (k : Int) + 11
  simp only [List.mem_map, not_exists, not_and]
  intro k _
  omega

/-- The shell waits for its child. -/
theorem waitpid_keeps_lock :
    ¬ ∀ (outside : Outside) (steps : List Step),
      ∀ e ∈ entries steps (boot outside), e.Balanced (boot outside) := by
  intro all
  let calls : Calls := fun _ => (false, false)
  exact absurd
    (all ⟨fun _ => -1, fun _ => 0, fun _ => false⟩
      [.serve calls (.createProcess 10), .serve calls (.fork 11), .serve calls (.waitPid 11 12)])
    (by decide)

end NjuOs.Process.Manager
