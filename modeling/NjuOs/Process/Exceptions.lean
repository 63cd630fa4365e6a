/-
**Exceptions: which faults stop a process and which stop the machine.**

`irq_handle` tells a user process from a kernel thread by its pid: above 11 it ends the process as
`SYS_exit` would, up to 11 it panics. `init_proc` gives the first eleven PCBs to kernel threads
(`initProc_eq`), so the first process, the shell, runs in PCB 11; and the PCB of a kernel thread
that returns goes back to the free list and may be a process's later.

`user_faults_exit_iff`: in a run from boot every fault of a user process ends that process, and only
kernel threads make the machine panic, exactly if no user process faults in one of the PCBs 0 to 11.
-/

import NjuOs.Process.Manager

namespace NjuOs.Process.Manager

/-! ### Boot -/

/-- The kernel threads of `init_driver`, `init_file` and `init_manager`, and the one that starts the
shell. -/
inductive Thread where
  | timer
  | ttyd
  | getty
  | ide
  | ram
  | file
  | memory
  | pcbManager
  | createShell
deriving DecidableEq

/-- The order in which `init_proc` creates them; there is a `getty` for every terminal but one. -/
def bootThreads : List Thread :=
  [.timer, .ttyd, .getty, .getty, .getty, .ide, .ram, .file, .memory, .pcbManager, .createShell]

/-- `create_kthread`: the first free PCB becomes a kernel thread. -/
def createKthread (s : System) : Option System :=
  match s.free with
  | [] => none
  | newPcb :: free => some
      { s with
        isUsed := Function.update s.isUsed newPcb true
        isKernel := Function.update s.isKernel newPcb true
        lockCount := Function.update s.lockCount newPcb 0
        free }

/-- The pool when the first `n` PCBs have been taken for kernel threads. -/
def pool (outside : Outside) (n : Nat) : System where
  pid k := if 0 ≤ k ∧ k < 50 then k else outside.pid k
  ppid k := if 0 ≤ k ∧ k < 50 then 0 else outside.ppid k
  isUsed k := if 0 ≤ k ∧ k < 50 then k < n else outside.isUsed k
  isKernel k := 0 ≤ k ∧ k < n
  parentWait _ := false
  lockCount _ := 0
  free := (List.range (50 - n)).map fun (k : Nat) => (k : Int) + n

/-- `init_proc`: the threads of boot. -/
def initProc (outside : Outside) : Option System :=
  bootThreads.foldlM (fun s _ => createKthread s) (pool outside 0)

theorem createKthread_pool (outside : Outside) {n : Nat} (room : n < 50) :
    createKthread (pool outside n) = some (pool outside (n + 1)) := by
  have list : (pool outside n).free = (n : Int) :: (pool outside (n + 1)).free := by
    obtain ⟨m, left⟩ : ∃ m, 50 - n = m + 1 := ⟨49 - n, by omega⟩
    have rest : 50 - (n + 1) = m := by omega
    simp only [pool, left, rest, List.range_succ_eq_map, List.map_cons, List.map_map]
    congr 1
    · simp
    · refine List.map_congr_left fun k _ => ?_
      show ((k + 1 : Nat) : Int) + n = k + (n + 1 : Nat)
      push_cast
      ring
  unfold createKthread
  rw [list]
  refine congrArg some ?_
  have used : Function.update (pool outside n).isUsed n true = (pool outside (n + 1)).isUsed := by
    funext k
    by_cases here : k = n
    · subst here
      simp [pool, room]
    · rw [Function.update_of_ne here]
      simp only [pool]
      split
      · exact decide_eq_decide.mpr (by omega)
      · rfl
  have kernel : Function.update (pool outside n).isKernel n true =
      (pool outside (n + 1)).isKernel := by
    funext k
    by_cases here : k = n
    · subst here
      simp [pool]
    · rw [Function.update_of_ne here]
      exact decide_eq_decide.mpr (by omega)
  have count : Function.update (pool outside n).lockCount n 0 = (pool outside (n + 1)).lockCount :=
    Function.update_eq_self _ _
  rw [used, kernel, count]
  rfl

theorem foldlM_createKthread (outside : Outside) (threads : List Thread) {n : Nat}
    (room : n + threads.length ≤ 50) :
    threads.foldlM (fun s _ => createKthread s) (pool outside n) =
      some (pool outside (n + threads.length)) := by
  induction threads generalizing n with
  | nil => rfl
  | cons thread threads ih =>
      rw [List.length_cons] at room ⊢
      rw [List.foldlM_cons, createKthread_pool outside (by omega)]
      exact (ih (by omega)).trans (by rw [Nat.add_right_comm, Nat.add_assoc])

/-- **After `init_proc` the first eleven PCBs are kernel threads**, and `PCB_MANAGER` is the
manager's. -/
theorem initProc_eq (outside : Outside) :
    initProc outside = some (boot outside) ∧ bootThreads.idxOf .pcbManager = manager :=
  ⟨foldlM_createKthread outside bootThreads (by decide), rfl⟩

/-! ### The handler -/

/-- The fields of a `TrapFrame` that `irq_handle` and `syscall_exit` use. -/
structure TrapFrame where
  irq : Int
  eax : Int
  ebx : Int
deriving DecidableEq

/-- `SYS_exit`. -/
def sysExit : Int := 3

/-- What `irq_handle` comes to before it calls `schedule`. -/
inductive Outcome where
  | panic
  | syscall (tf : TrapFrame)
  | hardware (irqId : Int)
deriving DecidableEq

/-- `irq_handle`, with `pid` that of the current process. -/
def irqHandle (pid : Int) (tf : TrapFrame) : Outcome :=
  if tf.irq < 0 then
    .panic
  else if tf.irq = 0x80 then
    .syscall tf
  else if tf.irq < 1000 ∧ tf.irq ≠ 0x80 then
    if pid > 11 then
      .syscall { tf with eax := sysExit, ebx := 8 }
    else
      .panic
  else if tf.irq - 1000 < 16 then
    .hardware (tf.irq - 1000)
  else
    .panic

/-- The request `do_syscall` sends to the manager for `SYS_exit`; the other calls are steps of their
own. -/
def doSyscall (current : Int) (tf : TrapFrame) : Option Request :=
  if tf.eax = sysExit then some (.exit current tf.ebx) else none

/-- A step of the system: one of the manager, or an exception while a process runs. -/
inductive Incident where
  | act (step : Step)
  | fault (w : Calls) (current : Int) (tf : TrapFrame)

/-- The numbers that are pushed for exceptions. -/
def TrapFrame.IsException (tf : TrapFrame) : Prop := 0 ≤ tf.irq ∧ tf.irq < 1000 ∧ tf.irq ≠ 0x80

instance (tf : TrapFrame) : Decidable tf.IsException := inferInstanceAs (Decidable (_ ∧ _))

/-- An exception in a PCB of the pool that is in use. -/
def System.Running (s : System) (current : Int) : Prop :=
  0 ≤ current ∧ current < 50 ∧ s.isUsed current = true

instance (s : System) (current : Int) : Decidable (s.Running current) :=
  inferInstanceAs (Decidable (_ ∧ _))

/-- What the machine does about an exception: nothing after a panic. -/
def System.fault (s : System) (w : Calls) (current : Int) (tf : TrapFrame) : Option System :=
  match irqHandle (s.pid current) tf with
  | .panic => none
  | .hardware _ => some s
  | .syscall tf =>
    match doSyscall current tf with
    | none => some s
    | some request => (request.handle w s).map Prod.snd

/-- What an incident does; it must be possible in the state. -/
def Incident.run (incident : Incident) (s : System) : Option System :=
  match incident with
  | .act step => (step.run s).map Prod.snd
  | .fault w current tf => if s.Running current ∧ tf.IsException then s.fault w current tf else none

/-! ### Runs with faults -/

/-- An exception of a run, with the state it arrives in. -/
structure Fault where
  state : System
  w : Calls
  current : Int
  tf : TrapFrame

/-- The exceptions of a run; it ends where an incident is not possible, or the machine panics. -/
def faults : List Incident → System → List Fault
  | [], _ => []
  | incident :: incidents, s =>
    (match incident with
      | .fault w current tf => if s.Running current ∧ tf.IsException then
          [⟨s, w, current, tf⟩] else []
      | .act _ => []) ++
    match incident.run s with
    | none => []
    | some s' => faults incidents s'

/-- The exception comes from a user process. -/
def Fault.User (f : Fault) : Prop := f.state.isKernel f.current = false

instance (f : Fault) : Decidable f.User := inferInstanceAs (Decidable (_ = _))

/-- **A user process is ended by its fault**, as by `SYS_exit`, and a panic is for a kernel
thread. -/
structure Fault.Contained (f : Fault) : Prop where
  exits : f.User →
    irqHandle (f.state.pid f.current) f.tf = .syscall { f.tf with eax := sysExit, ebx := 8 } ∧
      ∃ s', f.state.fault f.w f.current f.tf = some s' ∧ s'.isUsed f.current = false ∧
        f.current ∈ s'.free
  kernel : irqHandle (f.state.pid f.current) f.tf = .panic → ¬ f.User

section Faults

variable {s : System} {w : Calls} {current : Int} {tf : TrapFrame}

theorem irqHandle_exception (exception : tf.IsException) (pid : Int) :
    irqHandle pid tf = if pid > 11 then .syscall { tf with eax := sysExit, ebx := 8 }
    else .panic := by
  obtain ⟨low, high, other⟩ := exception
  unfold irqHandle
  rw [if_neg (by omega), if_neg other, if_pos ⟨high, other⟩]

/-- The PCBs carry their own numbers. -/
def Numbered (s : System) : Prop := ∀ k, 0 ≤ k → k < 50 → s.pid k = k

theorem does_pid {step : Step} {messages : List Message} {s' : System}
    (does : Does s step messages s') :
    s'.pid = s.pid := by
  cases does <;> rfl

theorem Numbered.of_rest {s' : System} (numbered : Numbered s) (same : s'.rest.pid = s.rest.pid) :
    Numbered s' := by
  intro k low high
  have value : s'.pid k = s.pid k := congrFun same k
  rw [value]
  exact numbered k low high

/-- The exit of the process that faulted. -/
theorem fault_exit (high : s.pid current > 11) (exception : tf.IsException) :
    ∃ s', s.fault w current tf = some s' ∧ s'.rest = s.rest.leave current := by
  unfold System.fault
  rw [irqHandle_exception exception, if_pos high]
  show ∃ s', (Request.handle w (.exit current 8) s).map Prod.snd = some s' ∧ _
  unfold Request.handle
  cases handled : exit w current 8 (receive (w 9) s) with
  | none =>
      unfold exit at handled
      dsimp only at handled
      split at handled <;> cases handled
  | some result =>
      obtain ⟨messages, s'⟩ := result
      refine ⟨s', by simp [handled], ?_⟩
      rw [(exit_spec handled).2.1, rest_receive]

theorem fault_panic (low : ¬ s.pid current > 11) (exception : tf.IsException) :
    s.fault w current tf = none := by
  unfold System.fault
  rw [irqHandle_exception exception, if_neg low]

theorem contained_iff (numbered : Numbered s) (running : s.Running current)
    (exception : tf.IsException) :
    Fault.Contained ⟨s, w, current, tf⟩ ↔ (s.isKernel current = false → 11 < current) := by
  have pid := numbered current running.1 running.2.1
  constructor
  · intro contained user
    by_contra low
    refine contained.kernel ?_ user
    show irqHandle (s.pid current) tf = .panic
    rw [irqHandle_exception exception, if_neg (by omega)]
  · intro above
    constructor
    · intro user
      have high : s.pid current > 11 := by
        have := above user
        omega
      refine ⟨by rw [irqHandle_exception exception, if_pos high], ?_⟩
      obtain ⟨s', ended, rest⟩ := fault_exit (w := w) high exception
      refine ⟨s', ended, ?_, ?_⟩
      · show s'.rest.isUsed current = false
        rw [rest]
        exact Function.update_self _ _ _
      · show current ∈ s'.rest.free
        rw [rest]
        exact List.mem_append_right _ (List.mem_singleton_self _)
    · intro panics user
      have high := above user
      change irqHandle (s.pid current) tf = .panic at panics
      rw [irqHandle_exception exception, if_pos (by omega)] at panics
      cases panics

/-- One incident keeps the numbers. -/
theorem Incident.run_numbered {incident : Incident} {s' : System} (numbered : Numbered s)
    (ran : incident.run s = some s') :
    Numbered s' := by
  cases incident with
  | act step =>
      change (step.run s).map Prod.snd = some s' at ran
      obtain ⟨⟨messages, s₁⟩, did, rfl⟩ := Option.map_eq_some_iff.mp ran
      exact numbered.of_rest (does_pid (Step.does_of_run did))
  | fault w current tf =>
      change (if s.Running current ∧ tf.IsException then s.fault w current tf else none) =
        some s' at ran
      split at ran
      · rename_i here
        by_cases high : s.pid current > 11
        · obtain ⟨s₁, ended, rest⟩ := fault_exit (w := w) high here.2
          rw [ended] at ran
          cases ran
          exact numbered.of_rest (by rw [rest]; rfl)
        · rw [fault_panic high here.2] at ran
          cases ran
      · cases ran

/-- The induction over a run. -/
theorem faults_contained_iff (incidents : List Incident) (numbered : Numbered s) :
    (∀ f ∈ faults incidents s, f.Contained) ↔ ∀ f ∈ faults incidents s, f.User →
    11 < f.current := by
  induction incidents generalizing s with
  | nil => simp [faults]
  | cons incident incidents ih =>
      have later : (∀ f ∈ (match incident.run s with
          | none => []
          | some s' => faults incidents s'), f.Contained) ↔ ∀ f ∈ (match incident.run s with
          | none => []
          | some s' => faults incidents s'), f.User → 11 < f.current := by
        cases ran : incident.run s with
        | none => simp
        | some s' => exact ih (incident.run_numbered numbered ran)
      unfold faults
      simp only [List.forall_mem_append]
      refine and_congr ?_ later
      cases incident with
      | act step => simp
      | fault w current tf =>
          dsimp only
          split
          · rename_i here
            simp only [List.forall_mem_singleton]
            exact contained_iff numbered here.1 here.2
          · simp

end Faults

theorem numbered_boot (outside : Outside) : Numbered (boot outside) :=
  fun _ low high => if_pos ⟨low, high⟩

/-- **User faults never panic the kernel**, in a run from boot, exactly if no user process faults in
one of the PCBs that the test of `irq_handle` takes for kernel threads. -/
theorem user_faults_exit_iff (outside : Outside) (incidents : List Incident) :
    (∀ f ∈ faults incidents (boot outside), f.Contained) ↔
      ∀ f ∈ faults incidents (boot outside), f.User → 11 < f.current :=
  faults_contained_iff incidents (numbered_boot outside)

/-- The shell's page fault. -/
theorem shell_fault_panics :
    ¬ ∀ (outside : Outside) (incidents : List Incident), ∀ f ∈ faults incidents (boot outside),
    f.Contained := by
  intro all
  let calls : Calls := fun _ => (false, false)
  let outside : Outside := ⟨fun _ => -1, fun _ => 0, fun _ => false⟩
  have contained :=
    all outside [.act (.serve calls (.createProcess 10)), .fault calls 11 ⟨14, 0, 0⟩]
  have member :
    ∃ f ∈ faults [.act (.serve calls (.createProcess 10)),
      .fault calls 11 ⟨14, 0, 0⟩] (boot outside),
      f.User ∧ irqHandle (f.state.pid f.current) f.tf = .panic :=
    ⟨_, List.mem_singleton_self _, by decide, by decide⟩
  obtain ⟨f, member, user, panics⟩ := member
  exact (contained f member).kernel panics user

end NjuOs.Process.Manager
