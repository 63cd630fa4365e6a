/-
**The scheduler: three lists of processes and the turns of the run ring.**

`schedule.c`, `sleep.c`, `util.c` and the list operations of `pcb_manager.c`. The PCBs are linked
into the run ring (whose head is the idle process), the wait list and the free list; `current` is
the process that runs and `pre_current` the place in the ring from which `schedule` goes on.

A `Step` is one section that runs with interrupts off. `sleep` and `wrap` end in `int $0x80`, which
is `schedule`; nothing runs between the two. They are code of a thread, so never of the idle
process, which only waits for interrupts (`main.c`); `exit` is code of the process manager about
another process. `create_process` and `fork` take a PCB from the free list and link it into the wait
list later: between the two it is in creation and on no list.

`scheduler_correct`: in every run no assertion of `list_del` fails, every PCB is on one list or in
creation, idle is selected only when the ring is empty, and two processes that stay in the ring take
turns. The order of the coming selections is `turns`, and every step is a move of
`Lib.RoundRobin` on it.
-/

import NjuOs.Lib.Ring
import NjuOs.Lib.RoundRobin
import Mathlib.Tactic.Ring
import Mathlib.Data.List.FinRange

namespace NjuOs.Process.Schedule

open NjuOs.Lib

/-- `POOL_NUM`. -/
def poolNum : Nat := 50

instance poolSlots : NeZero poolNum := ⟨Nat.succ_ne_zero 49⟩

/-- The nodes of the lists: the three heads and the PCBs of `pcb_pool`. -/
inductive Node where
  | idle
  | waitHead
  | freePcb
  | pcb (pid : Fin poolNum)
deriving DecidableEq

/-- `is_head`, which `init_proc` sets for the idle process and everyone else clears. -/
def Node.isHead : Node → Bool
  | .idle => true
  | _ => false

/-- The lists of the PCBs, and who runs. -/
structure State where
  links : Links Node
  current : Node
  preCurrent : Node
  /-- The PCBs that are in creation. -/
  creating : List (Fin poolNum)

/-- More than the nodes of any list. -/
def fuel : Nat := poolNum + 3

/-! ### The operations -/

/-- `schedule`: the next one in the ring that is no head of it. -/
def schedule (s : State) : Option State := do
  let current ← s.links.next s.preCurrent
  let current ← if current.isHead then s.links.next current else some current
  return { s with current, preCurrent := current }

/-- `sleep`, with the `schedule` of its `int $0x80`. -/
def sleep (s : State) : Option State := do
  let prev ← s.links.prev s.current
  let links ← listDel s.current s.links
  schedule { s with links := listAddBefore .waitHead s.current links, preCurrent := prev }

/-- `wakeup`: one that is in the wait list goes in front of the current one. -/
def wakeup (p : Fin poolNum) (s : State) : Option State := do
  let first ← s.links.next .waitHead
  let ptr ← s.links.search .waitHead (· = .pcb p) fuel first none
  if ptr = some (.pcb p) then
    let links ← listDel (.pcb p) s.links
    return { s with links := listAddBefore s.current (.pcb p) links }
  else
    return s

/-- `create_kthread`: a PCB goes to the wait list. -/
def createKthread (s : State) : Option State := do
  let newPcb ← s.links.next .freePcb
  let links ← listDel newPcb s.links
  return { s with links := listAddBefore .waitHead newPcb links }

/-- The first section of `create_process` and of `fork`. -/
def takePcb (s : State) : Option State := do
  let newPcb ← s.links.next .freePcb
  let links ← listDel newPcb s.links
  match newPcb with
  | .pcb pid => return { s with links, creating := pid :: s.creating }
  | _ => none

/-- `init_pcb`, and the last section of `fork`. -/
def initPcb (p : Fin poolNum) (s : State) : Option State :=
  some { s with links := listAddBefore .waitHead (.pcb p) s.links, creating := s.creating.erase p }

/-- A PCB leaves the ring and is free. -/
def exit (p : Fin poolNum) (s : State) : Option State := do
  let links ← listDel (.pcb p) s.links
  return { s with links := listAddBefore .freePcb (.pcb p) links }

/-- The end of `wrap`, with the `schedule` of its `int $0x80`. -/
def wrap (s : State) : Option State := do
  let prev ← s.links.prev s.current
  let links ← listDel s.current s.links
  schedule { s with links := listAddBefore .freePcb s.current links, preCurrent := prev }

/-- The lists after `init_proc`, from any content of the links. -/
def initProc (l : Links Node) : State where
  links := (List.finRange poolNum).foldl (fun l pid => listAddBefore .freePcb (.pcb pid) l)
    (listInit .freePcb (listInit .waitHead (listInit .idle l)))
  current := .idle
  preCurrent := .idle
  creating := []

/-! ### Runs -/

/-- What can happen to the lists. -/
inductive Step where
  | schedule
  | sleep
  | wakeup (p : Fin poolNum)
  | createKthread
  | takePcb
  | initPcb (p : Fin poolNum)
  | exit (p : Fin poolNum)
  | wrap
deriving DecidableEq

/-- What it does. -/
def Step.exec : Step → State → Option State
  | .schedule => Schedule.schedule
  | .sleep => Schedule.sleep
  | .wakeup p => Schedule.wakeup p
  | .createKthread => Schedule.createKthread
  | .takePcb => Schedule.takePcb
  | .initPcb p => Schedule.initPcb p
  | .exit p => Schedule.exit p
  | .wrap => Schedule.wrap

/-- Where a step can run. A creation finds a free PCB. -/
def Step.Allowed (s : State) : Step → Prop
  | .sleep | .wrap => s.current ≠ .idle
  | .createKthread | .takePcb => listEmpty .freePcb s.links = false
  | .initPcb p => p ∈ s.creating
  | .exit p => s.current ≠ .pcb p ∧ p ∉ s.creating
  | .schedule | .wakeup _ => True

instance (s : State) (step : Step) : Decidable (step.Allowed s) := by
  cases step <;> unfold Step.Allowed <;> infer_instance

/-- The steps that call `schedule`. -/
def Step.schedules : Step → Bool
  | .schedule | .sleep | .wrap => true
  | _ => false

/-- One step of a run. -/
structure Entry where
  before : State
  step : Step
  after : State

/-- A `schedule` that selects `a`. -/
def Entry.selects (entry : Entry) (a : Node) : Bool :=
  entry.step.schedules && entry.after.current = a

/-- **Runs**, with their steps in order. -/
inductive Run : State → List Entry → State → Prop
  | done {s : State} : Run s [] s
  | step {s s' final : State} {trace : List Entry} (step : Step) (allowed : step.Allowed s)
      (ran : step.exec s = some s') (rest : Run s' trace final) :
      Run s (⟨s, step, s'⟩ :: trace) final

/-- The run of a list of steps, if they can all run. -/
def replay : List Step → State → Option (List Entry × State)
  | [], s => some ([], s)
  | step :: steps, s =>
    if step.Allowed s then do
      let s' ← step.exec s
      let (trace, final) ← replay steps s'
      return (⟨s, step, s'⟩ :: trace, final)
    else
      none

theorem run_of_replay {steps : List Step} {s final : State} {trace : List Entry}
    (played : replay steps s = some (trace, final)) : Run s trace final := by
  induction steps generalizing s trace with
  | nil =>
      obtain ⟨rfl, rfl⟩ := Prod.mk.inj (Option.some.inj played)
      exact .done
  | cons step steps ih =>
      unfold replay at played
      split at played
      · rename_i allowed
        cases ran : step.exec s with
        | none => simp [ran] at played
        | some s' =>
            cases more : replay steps s' with
            | none => simp [ran, more] at played
            | some result =>
                simp only [ran, more, Option.bind_eq_bind, Option.bind_some, Option.pure_def,
                  Option.some.injEq, Prod.mk.injEq] at played
                obtain ⟨rfl, rfl⟩ := played
                exact .step step allowed ran (ih more)
      · cases played

/-! ### The lists -/

/-- The members of a list, in order. -/
def State.list (s : State) (head : Node) : List Node := s.links.nodes head fuel (s.links.next head)

/-- The processes in the ring. -/
def State.ring (s : State) : List Node := s.list .idle

/-- All PCBs. -/
def pcbs : List Node := (List.finRange poolNum).map .pcb

/-- **Every PCB is on exactly one list**, or in creation. -/
structure Partition (s : State) : Prop where
  ring : Ring s.links .idle s.ring
  waiting : Ring s.links .waitHead (s.list .waitHead)
  free : Ring s.links .freePcb (s.list .freePcb)
  all : (s.ring ++ (s.list .waitHead ++ (s.list .freePcb ++ s.creating.map Node.pcb))).Perm pcbs

/-- **Fairness of a run.** Between two consecutive selections of `a`, all along which `a` and `b`
are in the ring, `b` is selected once. -/
def Fair (trace : List Entry) : Prop :=
  ∀ (a b : Node) (before middle after : List Entry) (first last : Entry),
    a ≠ b → trace = before ++ first :: (middle ++ last :: after) → first.selects a →
    last.selects a →
    (∀ entry ∈ middle, entry.selects a = false) →
    (∀ entry ∈ first :: middle, a ∈ entry.after.ring ∧ b ∈ entry.after.ring) →
    middle.countP (Entry.selects · b) = 1

/-! ### The invariant -/

/-- The three lists. -/
inductive Queue where
  | run
  | wait
  | free
deriving DecidableEq

/-- The head of a list. -/
def Queue.head : Queue → Node
  | .run => .idle
  | .wait => .waitHead
  | .free => .freePcb

/-- How often a node stands on the lists. -/
def total (lists : Queue → List Node) (a : Node) : Nat :=
  (lists .run).count a + (lists .wait).count a + (lists .free).count a

theorem total_update (lists : Queue → List Node) (k : Queue) (xs : List Node) (a : Node) :
    total (Function.update lists k xs) a + (lists k).count a = total lists a + xs.count a := by
  cases k <;> simp [total] <;> omega

theorem count_le_total (lists : Queue → List Node) (k : Queue) (a : Node) :
    (lists k).count a ≤ total lists a := by
  unfold total
  cases k <;> omega

/-- The lists of a state, whatever `pre_current` is. -/
structure Listed (s : State) (lists : Queue → List Node) : Prop where
  rings : Lists s.links Queue.head lists
  all : ∀ a, total lists a + (s.creating.map Node.pcb).count a = pcbs.count a

/-- **The invariant between two steps.** -/
structure Sound (s : State) (lists : Queue → List Node) : Prop extends Listed s lists where
  current : s.current = .idle ∨ s.current ∈ lists .run
  same : s.preCurrent = s.current

section Listed

variable {s : State} {lists : Queue → List Node} {k : Queue} {a : Node} {p : Fin poolNum}
  {xs ys : List Node}

theorem nodup_pcbs : pcbs.Nodup :=
  (List.nodup_finRange poolNum).map fun _ _ same => Node.pcb.inj same

theorem Listed.mem_pcbs (listed : Listed s lists) (member : a ∈ lists k) : a ∈ pcbs := by
  have here := List.count_pos_iff.mpr member
  have le := count_le_total lists k a
  have all := listed.all a
  exact List.count_pos_iff.mp (by omega)

theorem Listed.is_pcb (listed : Listed s lists) (member : a ∈ lists k) : ∃ p, a = .pcb p := by
  obtain ⟨p, _, rfl⟩ := List.mem_map.mp (listed.mem_pcbs member)
  exact ⟨p, rfl⟩

theorem Listed.short (listed : Listed s lists) : (lists k).length < fuel := by
  have nodup := (List.nodup_cons.mp (listed.rings.ring k).nodup).2
  have le := (List.subperm_of_subset nodup fun a member => listed.mem_pcbs member).length_le
  have size : pcbs.length = poolNum := by simp [pcbs]
  unfold fuel
  omega

theorem Listed.list_eq (listed : Listed s lists) (k : Queue) : s.list k.head = lists k :=
  (listed.rings.ring k).nodes_eq listed.short

theorem Listed.ring_eq (listed : Listed s lists) : s.ring = lists .run := listed.list_eq .run

theorem Listed.partition (listed : Listed s lists) : Partition s := by
  have ring := listed.list_eq .run
  have waiting := listed.list_eq .wait
  have free := listed.list_eq .free
  simp only [Queue.head] at ring waiting free
  refine ⟨?_, ?_, ?_, ?_⟩
  · rw [listed.ring_eq]
    exact listed.rings.ring .run
  · rw [waiting]
    exact listed.rings.ring .wait
  · rw [free]
    exact listed.rings.ring .free
  · rw [listed.ring_eq, waiting, free, List.perm_iff_count]
    intro a
    rw [← listed.all a, total, List.count_append, List.count_append, List.count_append]
    omega

/-- A PCB in creation is on no list. -/
theorem Listed.fresh (listed : Listed s lists) (creating : p ∈ s.creating) (k : Queue) :
    Node.pcb p ∉ k.head :: lists k := by
  have here : 0 < (s.creating.map Node.pcb).count (.pcb p) :=
    List.count_pos_iff.mpr (List.mem_map_of_mem creating)
  have once := List.nodup_iff_count_le_one.mp nodup_pcbs (.pcb p)
  have all := listed.all (.pcb p)
  have le := count_le_total lists k (.pcb p)
  rw [List.mem_cons, not_or]
  refine ⟨by cases k <;> exact Node.noConfusion, fun member => ?_⟩
  have there := List.count_pos_iff.mpr member
  omega

/-- A PCB that is not in creation is on a list. -/
theorem Listed.on_list (listed : Listed s lists) (created : p ∉ s.creating) :
    ∃ k xs ys, lists k = xs ++ .pcb p :: ys := by
  have member : Node.pcb p ∈ pcbs := List.mem_map_of_mem (List.mem_finRange p)
  have here := List.count_pos_iff.mpr member
  have away : (s.creating.map Node.pcb).count (.pcb p) = 0 := by
    rw [List.count_eq_zero, List.mem_map_of_injective fun _ _ same => Node.pcb.inj same]
    exact created
  have all := listed.all (.pcb p)
  by_contra none
  have nowhere : ∀ k, (lists k).count (.pcb p) = 0 := by
    refine fun k => List.count_eq_zero.mpr fun there => none ?_
    obtain ⟨xs, ys, split⟩ := List.append_of_mem there
    exact ⟨k, xs, ys, split⟩
  rw [total, nowhere, nowhere, nowhere] at all
  omega

/-- **A PCB moved from its list to any place of another.** -/
theorem Listed.move (listed : Listed s lists) (split : lists k = xs ++ a :: ys) (j : Queue)
    {us vs : List Node} (place : Function.update lists k (xs ++ ys) j = us ++ vs) :
    ∃ links, listDel a s.links = some links ∧ ∀ current preCurrent,
      Listed { s with links := listAddBefore (vs.headD j.head) a links, current, preCurrent }
        (Function.update (Function.update lists k (xs ++ ys)) j (us ++ a :: vs)) := by
  obtain ⟨links, ran, shorter, fresh⟩ := listed.rings.del split
  refine ⟨links, ran, fun current preCurrent => ⟨shorter.insert place fresh, fun b => ?_⟩⟩
  have first := total_update lists k (xs ++ ys) b
  have second := total_update (Function.update lists k (xs ++ ys)) j (us ++ a :: vs) b
  have all := listed.all b
  rw [split] at first
  rw [place] at second
  simp only [List.count_append, List.count_cons] at first second ⊢
  omega

end Listed

/-! ### The order of the turns -/

/-- The processes in the order in which they will be selected: the ring behind `current`, which
comes last. -/
def order (current : Node) (run : List Node) : List Node :=
  if current = .idle then run
  else (run.dropWhile (· ≠ current)).tail ++ run.takeWhile (· ≠ current) ++ [current]

/-- The ring in the order of its turns, from the current one on. -/
def State.turns (s : State) : List Node := order s.current s.ring

section Order

variable {c d : Node} {run before after xs ys : List Node}

theorem order_idle (run : List Node) : order .idle run = run := if_pos rfl

theorem order_split (thread : c ≠ .idle) (absent : c ∉ before) :
    order c (before ++ c :: after) = after ++ before ++ [c] := by
  have skipped : ∀ x ∈ before, decide (x ≠ c) = true := by
    intro x member
    simp only [decide_eq_true_eq]
    rintro rfl
    exact absent member
  unfold order
  rw [if_neg thread, List.dropWhile_append_of_pos skipped, List.takeWhile_append_of_pos skipped]
  simp

theorem order_perm (current : c = .idle ∨ c ∈ run) (nodup : run.Nodup) :
    (order c run).Perm run := by
  by_cases thread : c = .idle
  · rw [thread, order_idle]
  · obtain ⟨before, after, rfl⟩ := List.append_of_mem (current.resolve_left thread)
    have absent : c ∉ before := fun here =>
      (List.nodup_append.mp nodup).2.2 c here c List.mem_cons_self rfl
    rw [order_split thread absent, List.append_assoc]
    exact List.perm_append_comm.trans (by simp)

/-- **A process that comes or goes anywhere in the ring** leaves the others' order alone. -/
theorem keeps_order (current : c = .idle ∨ c ∈ xs ++ ys) (nodup : (xs ++ d :: ys).Nodup) :
    RoundRobin.Keeps (order c (xs ++ ys)) (order c (xs ++ d :: ys)) := by
  have moved := List.nodup_cons.mp (List.perm_middle.nodup_iff.mp nodup)
  by_cases thread : c = .idle
  · rw [thread, order_idle, order_idle]
    exact RoundRobin.keeps_insert moved.1
  · have here := current.resolve_left thread
    have other : d ≠ c := by
      rintro rfl
      exact moved.1 here
    rcases List.mem_append.mp here with left | right
    · obtain ⟨before, after, rfl⟩ := List.append_of_mem left
      have absent : c ∉ before := by
        intro there
        rw [List.append_assoc] at nodup
        exact (List.nodup_append.mp nodup).2.2 c there c (by simp) rfl
      have fresh : d ∉ after ++ (ys ++ before ++ [c]) := by
        intro there
        refine moved.1 ?_
        simp only [List.mem_append, List.mem_cons, List.not_mem_nil, or_false] at there ⊢
        tauto
      have short : before ++ c :: after ++ ys = before ++ c :: (after ++ ys) := by simp
      have long : before ++ c :: after ++ d :: ys = before ++ c :: (after ++ d :: ys) := by simp
      rw [short, long, order_split thread absent, order_split thread absent]
      simpa using RoundRobin.keeps_insert fresh
    · obtain ⟨before, after, rfl⟩ := List.append_of_mem right
      have absent : c ∉ xs ++ d :: before := by
        intro there
        rw [← List.cons_append, ← List.append_assoc] at nodup
        exact (List.nodup_append.mp nodup).2.2 c there c (by simp) rfl
      have absent' : c ∉ xs ++ before := by
        intro there
        refine absent ?_
        simp only [List.mem_append, List.mem_cons] at there ⊢
        tauto
      have fresh : d ∉ (after ++ xs) ++ (before ++ [c]) := by
        intro there
        refine moved.1 ?_
        simp only [List.mem_append, List.mem_cons, List.not_mem_nil, or_false] at there ⊢
        tauto
      have short : xs ++ (before ++ c :: after) = (xs ++ before) ++ c :: after := by simp
      have long : xs ++ d :: (before ++ c :: after) = (xs ++ d :: before) ++ c :: after := by simp
      rw [short, long, order_split thread absent, order_split thread absent']
      simpa using RoundRobin.keeps_insert fresh

end Order

/-! ### One step -/

/-- The process a step selects, if it selects one that is not idle. -/
def chosen (step : Step) (s' : State) : Option Node :=
  if step.schedules ∧ s'.current ≠ .idle then some s'.current else none

/-- **What a step does**: the invariant holds again, and the step is a move of the round robin. -/
structure Taken (step : Step) (s s' : State) (lists : Queue → List Node) : Prop where
  sound : Sound s' lists
  move : RoundRobin.Move s.turns (chosen step s') s'.turns
  idle : step.schedules → s'.current = .idle → s'.ring = []

section Step

variable {s : State} {lists : Queue → List Node} {xs ys : List Node} {p : Fin poolNum}

theorem Sound.turns_eq (sound : Sound s lists) : s.turns = order s.current (lists .run) := by
  unfold State.turns
  rw [sound.ring_eq]

theorem Sound.run_nodup (sound : Sound s lists) : (lists .run).Nodup :=
  (List.nodup_cons.mp (sound.rings.ring .run).nodup).2

/-- A step that changes neither the ring nor `current`. -/
theorem Sound.stay (sound : Sound s lists) {step : Step} {s' : State} {lists' : Queue → List Node}
    (listed : Listed s' lists') (run : lists' .run = lists .run) (current : s'.current = s.current)
    (same : s'.preCurrent = s'.current) (plain : step.schedules = false) :
    Taken step s s' lists' := by
  have sound' : Sound s' lists' := ⟨listed, by rw [run, current]; exact sound.current, same⟩
  refine ⟨sound', ?_, fun schedules => by simp [plain] at schedules⟩
  rw [sound.turns_eq, sound'.turns_eq, run, current, chosen, if_neg (by simp [plain])]
  exact .change (.refl _)

/-- **`schedule` from the end of `xs`**: the first process of `ys ++ xs` runs next, or idle if there
is none. The step that calls it may have taken the process that ran out of the ring. -/
theorem schedule_spec (xs ys : List Node) (listed : Listed s lists) (split : lists .run = xs ++ ys)
    (place : s.preCurrent = xs.getLastD .idle) {step : Step} (schedules : step.schedules = true)
    (start : State) (turns : start.turns = ys ++ xs ∨ ∃ c, start.turns = ys ++ xs ++ [c]) :
    ∃ s', schedule s = some s' ∧ Taken step start s' lists := by
  have ring := listed.rings.ring .run
  rw [split] at ring
  have thread : ∀ a ∈ ys ++ xs, a.isHead = false := by
    intro a member
    rw [List.mem_append, or_comm, ← List.mem_append] at member
    obtain ⟨p, rfl⟩ := listed.is_pcb (k := .run) (split ▸ member)
    rfl
  have behind : s.links.next s.preCurrent = some (ys.headD .idle) := by
    rw [place]
    rcases List.eq_nil_or_concat xs with rfl | ⟨init, x, rfl⟩
    · exact ring.next_head
    · rw [List.concat_eq_append, List.append_assoc] at ring
      rw [List.concat_eq_append, List.getLastD_concat]
      exact ring.next_of
  have ran : schedule s = some { s with
      current := (ys ++ xs).headD .idle, preCurrent := (ys ++ xs).headD .idle } := by
    unfold schedule
    rw [behind]
    cases ys with
    | nil =>
        rw [List.append_nil] at ring
        have next : s.links.next .idle = some (xs.headD .idle) := ring.next_head
        simp [Node.isHead, next]
    | cons y ys =>
        have notHead := thread y (by simp)
        simp [notHead]
  refine ⟨_, ran, ?_⟩
  cases shape : ys ++ xs with
  | nil =>
      obtain ⟨rfl, rfl⟩ := List.append_eq_nil_iff.mp shape
      have sound : Sound { s with current := .idle, preCurrent := .idle } lists :=
        ⟨⟨listed.rings, listed.all⟩, .inl rfl, rfl⟩
      refine ⟨sound, ?_, fun _ _ => sound.ring_eq.trans split⟩
      have after : State.turns { s with current := .idle, preCurrent := .idle } = [] := by
        rw [sound.turns_eq, split]
        exact order_idle []
      have nobody : chosen step { s with current := .idle, preCurrent := .idle } = none :=
        if_neg (by simp)
      rw [List.headD_nil, after, nobody]
      refine .change ?_
      rcases turns with turns | ⟨c, turns⟩
      · rw [turns]
        exact .refl _
      · rw [turns]
        exact (show RoundRobin.Keeps ([] ++ []) ([] ++ [c]) from RoundRobin.keeps_insert
          List.not_mem_nil).symm
  | cons n rest =>
      have member : n ∈ ys ++ xs := shape ▸ List.mem_cons_self
      have inRing : n ∈ lists .run := by
        rw [split, List.mem_append, or_comm, ← List.mem_append]
        exact member
      have notIdle : n ≠ .idle := by
        rintro rfl
        exact absurd (thread .idle member) (by simp [Node.isHead])
      have sound : Sound { s with current := n, preCurrent := n } lists :=
        ⟨⟨listed.rings, listed.all⟩, .inr inRing, rfl⟩
      refine ⟨sound, ?_, fun _ idle => absurd idle notIdle⟩
      have after : State.turns { s with current := n, preCurrent := n } = rest ++ [n] := by
        rw [sound.turns_eq, split]
        cases ys with
        | nil =>
            obtain rfl : xs = n :: rest := shape
            have turned : order n ([] ++ n :: rest) = rest ++ [] ++ [n] :=
              order_split notIdle List.not_mem_nil
            simpa using turned
        | cons y ys =>
            obtain ⟨rfl, rfl⟩ := List.cons.inj shape
            have absent : y ∉ xs := fun here =>
              (List.nodup_append.mp (List.nodup_cons.mp ring.nodup).2).2.2 y here y
              List.mem_cons_self rfl
            exact order_split notIdle absent
      have it : chosen step { s with current := n, preCurrent := n } = some n :=
        if_pos ⟨schedules, notIdle⟩
      rw [List.headD_cons, after, it]
      rw [shape] at turns
      rcases turns with turns | ⟨c, turns⟩
      · rw [turns]
        exact .next n rest
      · rw [turns]
        exact .leave n rest c

/-- The place of a thread that runs. -/
theorem Sound.running (sound : Sound s lists) (thread : s.current ≠ .idle) : ∃ before after,
    lists .run = before ++ s.current :: after ∧ s.turns = after ++ before ++ [s.current] := by
  obtain ⟨before, after, split⟩ := List.append_of_mem (sound.current.resolve_left thread)
  have nodup := sound.run_nodup
  rw [split] at nodup
  have absent : s.current ∉ before :=
    fun here => (List.nodup_append.mp nodup).2.2 _ here _ List.mem_cons_self rfl
  refine ⟨before, after, split, ?_⟩
  rw [sound.turns_eq, split, order_split thread absent]

theorem Sound.schedule (sound : Sound s lists) : ∃ s', Step.schedule.exec s = some s' ∧
    Taken .schedule s s' lists := by
  by_cases thread : s.current = .idle
  · refine schedule_spec [] (lists .run) sound.toListed rfl (sound.same.trans thread)
      rfl s (.inl ?_)
    rw [sound.turns_eq, thread, order_idle, List.append_nil]
  · obtain ⟨before, after, split, turns⟩ := sound.running thread
    refine schedule_spec (before ++ [s.current]) after sound.toListed (by simp [split]) ?_
      rfl s (.inl ?_)
    · rw [sound.same, List.getLastD_concat]
    · rw [turns, List.append_assoc]

/-- **The process that runs goes to another list, and the next one runs**: `sleep` and `wrap`. -/
theorem Sound.retire (sound : Sound s lists) (thread : s.current ≠ .idle) {j : Queue}
    (other : j ≠ .run) (step : Step) (schedules : step.schedules = true) :
    ∃ prev links s' lists', s.links.prev s.current = some prev ∧
      listDel s.current s.links = some links ∧
      Schedule.schedule
        { s with links := listAddBefore j.head s.current links, preCurrent := prev } = some s' ∧
      Taken step s s' lists' := by
  obtain ⟨before, after, split, turns⟩ := sound.running thread
  have ring := sound.rings.ring .run
  rw [split] at ring
  obtain ⟨links, ran, listed⟩ := sound.toListed.move split j (List.append_nil _).symm
  have short : Function.update (Function.update lists .run (before ++ after)) j
      (Function.update lists .run (before ++ after) j ++ [s.current]) .run = before ++ after := by
    rw [Function.update_of_ne other.symm, Function.update_self]
  obtain ⟨s', scheduled, taken⟩ :=
    schedule_spec before after (listed s.current (before.getLastD .idle)) short rfl schedules s
      (.inr ⟨s.current, turns⟩)
  exact ⟨_, links, s', _, ring.prev_of, ran, scheduled, taken⟩

theorem Sound.sleep (sound : Sound s lists) (thread : s.current ≠ .idle) :
    ∃ s' lists', Step.sleep.exec s = some s' ∧ Taken .sleep s s' lists' := by
  obtain ⟨prev, links, s', lists', before, deleted, scheduled, taken⟩ :=
    sound.retire (j := .wait) thread nofun .sleep rfl
  refine ⟨s', lists', ?_, taken⟩
  show Schedule.sleep s = some s'
  unfold Schedule.sleep
  rw [before, deleted]
  exact scheduled

theorem Sound.wrap (sound : Sound s lists) (thread : s.current ≠ .idle) :
    ∃ s' lists', Step.wrap.exec s = some s' ∧ Taken .wrap s s' lists' := by
  obtain ⟨prev, links, s', lists', before, deleted, scheduled, taken⟩ :=
    sound.retire (j := .free) thread nofun .wrap rfl
  refine ⟨s', lists', ?_, taken⟩
  show Schedule.wrap s = some s'
  unfold Schedule.wrap
  rw [before, deleted]
  exact scheduled

/-- The search of `wakeup`. -/
theorem Sound.search (sound : Sound s lists) : ∃ first ptr, s.links.next .waitHead = some first ∧
    s.links.search .waitHead (· = .pcb p) fuel first none = some ptr ∧
    (ptr = some (.pcb p) ↔ .pcb p ∈ lists .wait) := by
  have ring := sound.rings.ring .wait
  refine ⟨_, _, ring.next_head, ring.search_eq sound.short ring.next_head, ?_⟩
  by_cases here : Node.pcb p ∈ lists .wait
  · have found : (lists .wait).find? (fun a => decide (a = .pcb p)) = some (.pcb p) := by
      cases result : (lists .wait).find? (fun a => decide (a = .pcb p)) with
      | none => exact absurd (decide_eq_true rfl) (List.find?_eq_none.mp result _ here)
      | some a => simpa using List.find?_some result
    simp [found, here]
  · have missing : (lists .wait).find? (fun a => decide (a = .pcb p)) = none := by
      refine List.find?_eq_none.mpr fun a member => ?_
      rw [decide_eq_true_eq]
      rintro rfl
      exact here member
    rw [missing, Option.none_or]
    exact ⟨fun last => List.mem_of_getLast? last, fun member => absurd member here⟩

theorem Sound.wakeup (sound : Sound s lists) (p : Fin poolNum) :
    ∃ s' lists', (Step.wakeup p).exec s = some s' ∧ Taken (.wakeup p) s s' lists' := by
  obtain ⟨first, ptr, next, searched, found⟩ := sound.search (p := p)
  have plain : (Step.wakeup p).schedules = false := rfl
  show ∃ s' lists', Schedule.wakeup p s = some s' ∧ _
  unfold Schedule.wakeup
  by_cases here : Node.pcb p ∈ lists .wait
  · obtain ⟨zs, ws, split⟩ := List.append_of_mem here
    have runSame : Function.update lists .wait (zs ++ ws) .run = lists .run :=
      Function.update_of_ne (show Queue.run ≠ .wait from nofun) _ _
    -- the ring around `current`, which the process is put before
    obtain ⟨xs, ys, around, place⟩ : ∃ xs ys, lists .run = xs ++ ys ∧
        s.current = ys.headD .idle := by
      by_cases thread : s.current = .idle
      · exact ⟨lists .run, [], (List.append_nil _).symm, thread⟩
      · obtain ⟨before, after, split, _⟩ := sound.running thread
        exact ⟨before, s.current :: after, split, rfl⟩
    obtain ⟨links, ran, moved⟩ := sound.toListed.move split .run (runSame.trans around)
    have listed := moved s.current s.preCurrent
    rw [show ys.headD (Queue.head .run) = s.current from place.symm] at listed
    have sound' : Sound { s with links := listAddBefore s.current (.pcb p) links }
        (Function.update (Function.update lists .wait (zs ++ ws)) .run (xs ++ .pcb p :: ys)) := by
      refine ⟨listed, sound.current.imp_right fun member => ?_, sound.same⟩
      rw [around] at member
      rw [Function.update_self]
      rcases List.mem_append.mp member with left | right
      · exact List.mem_append_left _ left
      · exact List.mem_append_right _ (List.mem_cons_of_mem _ right)
    refine ⟨_, _, ?_, sound', ?_, fun schedules => by simp [plain] at schedules⟩
    · simp [next, searched, found.mpr here, ran]
    · have current := sound.current
      have nodup := sound'.run_nodup
      rw [Function.update_self] at nodup
      rw [around] at current
      rw [sound.turns_eq, sound'.turns_eq, around, Function.update_self, chosen,
        if_neg (by simp [plain])]
      exact .change (keeps_order current nodup)
  · have missed : ptr ≠ some (.pcb p) := fun hit => here (found.mp hit)
    refine ⟨s, lists, ?_, sound.stay sound.toListed rfl rfl sound.same plain⟩
    simp [next, searched, missed]

/-- The PCB a creation takes. -/
theorem Listed.first_free (listed : Listed s lists) (room : listEmpty .freePcb s.links = false) :
    ∃ pid rest, lists .free = .pcb pid :: rest ∧ s.links.next .freePcb = some (.pcb pid) := by
  have ring : Ring s.links .freePcb (lists .free) := listed.rings.ring .free
  obtain ⟨a, rest, split⟩ : ∃ a rest, lists .free = a :: rest :=
      List.exists_cons_of_ne_nil fun none => by
    rw [ring.listEmpty_iff.mpr none] at room
    cases room
  obtain ⟨pid, rfl⟩ := listed.is_pcb (k := .free) (split ▸ List.mem_cons_self)
  refine ⟨pid, rest, split, ?_⟩
  rw [ring.next_head, split]
  rfl

theorem Sound.createKthread (sound : Sound s lists) (room : listEmpty .freePcb s.links = false) :
    ∃ s' lists', Step.createKthread.exec s = some s' ∧ Taken .createKthread s s' lists' := by
  obtain ⟨pid, rest, split, next⟩ := sound.first_free room
  obtain ⟨links, ran, moved⟩ :=
    sound.toListed.move (show lists .free = [] ++ .pcb pid :: rest from split) .wait
    (List.append_nil _).symm
  refine ⟨{ s with links := listAddBefore .waitHead (.pcb pid) links }, _, ?_,
    sound.stay (moved s.current s.preCurrent) ?_ rfl sound.same rfl⟩
  · show Schedule.createKthread s = _
    simp [Schedule.createKthread, next, ran]
  · rw [Function.update_of_ne (by nofun), Function.update_of_ne (by nofun)]

theorem Sound.takePcb (sound : Sound s lists) (room : listEmpty .freePcb s.links = false) :
    ∃ s' lists', Step.takePcb.exec s = some s' ∧ Taken .takePcb s s' lists' := by
  obtain ⟨pid, rest, split, next⟩ := sound.first_free room
  obtain ⟨links, ran, shorter, _⟩ :=
    sound.rings.del (show lists .free = [] ++ .pcb pid :: rest from split)
  refine ⟨{ s with links, creating := pid :: s.creating }, _, ?_,
    sound.stay ⟨shorter, fun b => ?_⟩ ?_ rfl sound.same rfl⟩
  · show Schedule.takePcb s = _
    simp [Schedule.takePcb, next, ran]
  · have updated := total_update lists .free ([] ++ rest) b
    have all := sound.all b
    rw [split] at updated
    simp only [List.nil_append, List.map_cons, List.count_cons] at updated ⊢
    omega
  · exact Function.update_of_ne (by nofun) _ _

theorem Sound.initPcb (sound : Sound s lists) (creating : p ∈ s.creating) :
    ∃ s' lists', (Step.initPcb p).exec s = some s' ∧ Taken (.initPcb p) s s' lists' := by
  have longer := sound.rings.add (k := .wait) (sound.fresh creating)
  refine ⟨{ s with
    links := listAddBefore .waitHead (.pcb p) s.links, creating := s.creating.erase p }, _, rfl,
    sound.stay ⟨longer, fun b => ?_⟩ ?_ rfl sound.same rfl⟩
  · have updated := total_update lists .wait (lists .wait ++ [.pcb p]) b
    have all := sound.all b
    have split : (s.creating.map Node.pcb).count b =
      (Node.pcb p :: (s.creating.erase p).map Node.pcb).count b :=
      ((List.perm_cons_erase creating).map Node.pcb).count_eq b
    simp only [List.count_append, List.count_cons, List.count_nil] at updated split ⊢
    omega
  · exact Function.update_of_ne (by nofun) _ _

theorem Sound.exit (sound : Sound s lists) (other : s.current ≠ .pcb p) (created : p ∉ s.creating) :
    ∃ s' lists', (Step.exit p).exec s = some s' ∧ Taken (.exit p) s s' lists' := by
  obtain ⟨k, xs, ys, split⟩ := sound.on_list created
  obtain ⟨links, ran, moved⟩ := sound.toListed.move split .free (List.append_nil _).symm
  have listed := moved s.current s.preCurrent
  have plain : (Step.exit p).schedules = false := rfl
  refine ⟨{ s with links := listAddBefore .freePcb (.pcb p) links },
    Function.update (Function.update lists k (xs ++ ys))
    .free (Function.update lists k (xs ++ ys) .free ++ [.pcb p]), ?_, ?_⟩
  · show Schedule.exit p s = _
    simp [Schedule.exit, ran]
  · by_cases running : k = .run
    · subst running
      have run : Function.update (Function.update lists .run (xs ++ ys)) .free
          (Function.update lists .run (xs ++ ys) .free ++ [.pcb p]) .run = xs ++ ys := by
        rw [Function.update_of_ne (by nofun), Function.update_self]
      have current : s.current = .idle ∨ s.current ∈ xs ++ ys := by
        refine sound.current.imp_right fun member => ?_
        rw [split, List.mem_append, List.mem_cons] at member
        rw [List.mem_append]
        tauto
      have sound' : Sound { s with links := listAddBefore .freePcb (.pcb p) links }
          (Function.update (Function.update lists .run (xs ++ ys)) .free
            (Function.update lists .run (xs ++ ys) .free ++ [.pcb p])) := by
        refine ⟨listed, ?_, sound.same⟩
        rw [run]
        exact current
      have nodup := sound.run_nodup
      rw [split] at nodup
      refine ⟨sound', ?_, fun schedules => by simp [plain] at schedules⟩
      rw [sound.turns_eq, sound'.turns_eq, split, run, chosen, if_neg (by simp [plain])]
      exact .change (keeps_order current nodup).symm
    · refine sound.stay listed ?_ rfl sound.same plain
      rw [Function.update_of_ne (by nofun), Function.update_of_ne (Ne.symm running)]

/-- **Every step that can run succeeds**, keeps the invariant and is a move. -/
theorem Sound.step (sound : Sound s lists) {step : Step} (allowed : step.Allowed s) :
    ∃ s' lists', step.exec s = some s' ∧ Taken step s s' lists' := by
  cases step with
  | schedule => exact sound.schedule.imp fun s' taken => ⟨lists, taken⟩
  | sleep => exact sound.sleep allowed
  | wakeup p => exact sound.wakeup p
  | createKthread => exact sound.createKthread allowed
  | takePcb => exact sound.takePcb allowed
  | initPcb p => exact sound.initPcb allowed
  | exit p => exact sound.exit allowed.1 allowed.2
  | wrap => exact sound.wrap allowed

end Step

/-! ### The lists after `init_proc` -/

theorem lists_init (l : Links Node) :
    Lists (listInit .freePcb (listInit .waitHead (listInit .idle l))) Queue.head fun _ => [] := by
  refine ⟨fun k => ?_, fun {j k a} left right => ?_⟩
  · have idle := ring_init l Node.idle
    have waiting := ring_init (listInit .idle l) Node.waitHead
    have free := ring_init (listInit .waitHead (listInit .idle l)) Node.freePcb
    have apart : ∀ (h h' : Node) (l : Links Node), h ≠ h' → Ring l h [] →
        Ring (listInit h' l) h [] := by
      intro h h' l other ring
      refine ring.frame fun a member => listInit_same l ?_
      rw [List.mem_singleton.mp member]
      exact other
    cases k with
    | run => exact apart _ _ _ nofun (apart _ _ _ nofun idle)
    | wait => exact apart _ _ _ nofun waiting
    | free => exact free
  · have same : j.head = k.head :=
      (List.mem_singleton.mp left).symm.trans (List.mem_singleton.mp right)
    revert same
    cases j <;> cases k <;> simp [Queue.head]

/-- The loop that fills the free list. -/
theorem lists_fill {l : Links Node} {lists : Queue → List Node} (rest : Lists l Queue.head lists)
    (pids : List (Fin poolNum)) (nodup : pids.Nodup)
    (fresh : ∀ p ∈ pids, ∀ k, Node.pcb p ∉ k.head :: lists k) :
    Lists (pids.foldl (fun l pid => listAddBefore .freePcb (.pcb pid) l) l) Queue.head
      (Function.update lists .free (lists .free ++ pids.map .pcb)) := by
  induction pids generalizing l lists with
  | nil =>
      rw [List.map_nil, List.append_nil, Function.update_eq_self]
      exact rest
  | cons p pids ih =>
      obtain ⟨new, nodup⟩ := List.nodup_cons.mp nodup
      have added := rest.add (k := .free) (fresh p List.mem_cons_self)
      have filled := ih added nodup fun q member k => ?_
      · rw [Function.update_self, Function.update_idem, List.append_assoc] at filled
        exact filled
      · have old := fresh q (List.mem_cons_of_mem p member) k
        have other : q ≠ p := by
          rintro rfl
          exact new member
        rcases eq_or_ne k .free with rfl | notFree
        · rw [Function.update_self, List.mem_cons, List.mem_append, List.mem_singleton,
            Node.pcb.injEq]
          rw [List.mem_cons] at old
          tauto
        · rw [Function.update_of_ne notFree]
          exact old

theorem sound_initProc (l : Links Node) : ∃ lists, Sound (initProc l) lists := by
  have filled := lists_fill (lists_init l) (List.finRange poolNum) (List.nodup_finRange poolNum)
      fun p _ k => by
    cases k <;> simp [Queue.head]
  refine ⟨_, ⟨filled, fun a => ?_⟩, .inl rfl, rfl⟩
  simp [total, initProc, pcbs]

/-! ### Runs -/

section Run

variable {s t : State} {lists : Queue → List Node} {trace middle after : List Entry} {entry : Entry}
  {a b : Node}

/-- The invariant at the end of a run. -/
theorem Run.sound (run : Run s trace t) (sound : Sound s lists) : ∃ lists', Sound t lists' := by
  induction run generalizing lists with
  | done => exact ⟨lists, sound⟩
  | step step allowed ran rest ih =>
      obtain ⟨s', lists', ran', taken⟩ := sound.step allowed
      obtain rfl := Option.some.inj (ran.symm.trans ran')
      exact ih taken.sound

theorem Run.split (run : Run s (middle ++ after) t) : ∃ u, Run s middle u ∧ Run u after t := by
  induction middle generalizing s with
  | nil => exact ⟨s, .done, run⟩
  | cons entry middle ih =>
      cases run with
      | step step allowed ran rest =>
          obtain ⟨u, first, second⟩ := ih rest
          exact ⟨u, .step step allowed ran first, second⟩

/-- The first step of a run. -/
theorem Run.first (run : Run s (entry :: after) t) (sound : Sound s lists) :
    ∃ lists', entry.before = s ∧ Taken entry.step s entry.after lists' ∧
    Run entry.after after t := by
  cases run with
  | step step allowed ran rest =>
      obtain ⟨s', lists', ran', taken⟩ := sound.step allowed
      obtain rfl := Option.some.inj (ran.symm.trans ran')
      exact ⟨lists', rfl, taken, rest⟩

/-- A step of a run as a step of the round robin. -/
def Entry.turn (entry : Entry) : RoundRobin.Turn Node :=
  ⟨entry.before.turns, chosen entry.step entry.after, entry.after.turns⟩

theorem Entry.selects_iff (thread : a ≠ .idle) : entry.turn.selected = some a ↔
    entry.selects a = true := by
  unfold Entry.turn chosen Entry.selects
  rw [Bool.and_eq_true, decide_eq_true_iff]
  split
  · rename_i selects
    simp [selects.1]
  · rename_i none
    simp only [reduceCtorEq, false_iff, not_and]
    rintro schedules rfl
    exact none ⟨schedules, thread⟩

theorem Sound.turns_perm (sound : Sound s lists) : s.turns.Perm s.ring := by
  rw [sound.turns_eq, sound.ring_eq]
  exact order_perm sound.current sound.run_nodup

theorem Sound.turns_nodup (sound : Sound s lists) : s.turns.Nodup := by
  rw [sound.turns_perm.nodup_iff, sound.ring_eq]
  exact sound.run_nodup

/-- Two processes that stay in the ring. -/
theorem Run.stays (run : Run s middle t) (sound : Sound s lists) (here : a ∈ s.ring ∧ b ∈ s.ring)
    (stay : ∀ entry ∈ middle, a ∈ entry.after.ring ∧ b ∈ entry.after.ring) :
    RoundRobin.Stays a b s.turns (middle.map Entry.turn) t.turns := by
  have perm := sound.turns_perm
  induction middle generalizing s lists with
  | nil =>
      cases run
      exact .start sound.turns_nodup (perm.mem_iff.mpr here.1) (perm.mem_iff.mpr here.2)
  | cons entry middle ih =>
      obtain ⟨lists', rfl, taken, rest⟩ := run.first sound
      refine .step sound.turns_nodup (perm.mem_iff.mpr here.1) (perm.mem_iff.mpr here.2)
        rfl taken.move ?_
      exact ih rest taken.sound (stay entry List.mem_cons_self)
        (fun e member => stay e (List.mem_cons_of_mem entry member)) taken.sound.turns_perm

theorem Run.fair (run : Run s trace t) (sound : Sound s lists) : Fair trace := by
  rintro a b before middle after first last other rfl firstIs lastIs never stay
  obtain ⟨u, early, run⟩ := run.split
  obtain ⟨lists, sound⟩ := early.sound sound
  obtain ⟨lists', rfl, firstTaken, run⟩ := run.first sound
  have sound' := firstTaken.sound
  obtain ⟨v, during, run⟩ := run.split
  obtain ⟨lists'', sound''⟩ := during.sound sound'
  obtain ⟨_, rfl, lastTaken, _⟩ := run.first sound''
  have here := stay first List.mem_cons_self
  have thread : ∀ c ∈ first.after.ring, c ≠ Node.idle := by
    rintro c member rfl
    rw [sound'.ring_eq] at member
    obtain ⟨p, isPcb⟩ := sound'.is_pcb member
    cases isPcb
  have aThread := thread a here.1
  have firstMove := firstTaken.move
  have lastMove := lastTaken.move
  rw [show chosen first.step first.after = some a from (Entry.selects_iff aThread).mpr
    firstIs] at firstMove
  rw [show chosen last.step last.after = some a from (Entry.selects_iff aThread).mpr
    lastIs] at lastMove
  have stays := during.stays sound' here fun e member => stay e (List.mem_cons_of_mem first member)
  have once := RoundRobin.fair other firstMove stays (fun turn member => ?_) lastMove
  · rw [RoundRobin.selections, List.countP_map] at once
    rw [← once]
    refine List.countP_congr fun e _ => ?_
    rw [Function.comp_apply, decide_eq_true_iff, Entry.selects_iff (thread b here.2)]
  · obtain ⟨e, inMiddle, rfl⟩ := List.mem_map.mp member
    rw [Ne, Entry.selects_iff aThread, never e inMiddle]
    exact Bool.false_ne_true

end Run

/-- **The scheduler.** In the state that any run from `init_proc` reaches, every PCB is on exactly
one list or in creation; every step that can run there does, with no failed assertion; one that
calls `schedule` selects idle only when no process is in the ring; and the run was fair. -/
theorem scheduler_correct (l : Links Node) {trace : List Entry} {s : State}
    (run : Run (initProc l) trace s) :
    Partition s ∧
      (∀ step : Step, step.Allowed s → ∃ s', step.exec s = some s' ∧
        (step.schedules → s'.current = .idle → s'.ring = [])) ∧
      Fair trace := by
  obtain ⟨lists, start⟩ := sound_initProc l
  obtain ⟨lists', sound⟩ := run.sound start
  refine ⟨sound.partition, fun step allowed => ?_, run.fair start⟩
  obtain ⟨s', _, ran, taken⟩ := sound.step allowed
  exact ⟨s', ran, taken.idle⟩

/-- Two threads that take turns while a third one is created, woken up before the one that runs and
sleeps. -/
def threeThreads : List Step :=
  [.createKthread, .wakeup 0, .createKthread, .wakeup 1, .schedule, .createKthread, .wakeup 2,
    .schedule, .schedule, .sleep, .schedule]

theorem scheduler_correct_three : ∃ trace s,
    replay threeThreads (initProc ⟨fun _ => none, fun _ => none⟩) = some (trace, s) ∧
      (trace.filter (·.step.schedules)).map (·.after.current) =
        [.pcb 0, .pcb 1, .pcb 2, .pcb 0, .pcb 1] ∧
      Partition s ∧ Fair trace := by
  have selected : ((replay threeThreads (initProc ⟨fun _ => none, fun _ => none⟩)).map fun result =>
      (result.1.filter (·.step.schedules)).map (·.after.current)) =
        some [.pcb 0, .pcb 1, .pcb 2, .pcb 0, .pcb 1] := by
    decide +kernel
  obtain ⟨⟨trace, s⟩, played, shown⟩ := Option.map_eq_some_iff.mp selected
  have correct := scheduler_correct _ (run_of_replay played)
  exact ⟨trace, s, played, shown, correct.1, correct.2.2⟩

end NjuOs.Process.Schedule
