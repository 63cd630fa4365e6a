/-
**The mailbox of a process.**

A message lies in one of the hundred slots of the receiver's `PCB`, on `msg_queue` while it waits
and on `free_queue` else. Two semaphores count it, `any_sem` and the one of its sender; `send`
raises both, `receive(ANY)` takes the first and then the second, `receive(src)` the second and then
the first. The receiver may be suspended inside either, and other processes and interrupts send
meanwhile.

Everything between `lock` and the next `sleep` runs without interruption, so the steps of the model
are `send`, a call of `receive` up to the point where it returns or is suspended, and its
continuation. `Mailbox` has the links of the slots and of the semaphores' waiting lists as they are
in memory; `Spec` is what a mailbox is for, a list of messages. `Mirrors` ties the two together, and
`mailbox_correct` says that every run of the one is a run of the other.
-/

import NjuOs.Lib.Ring
import Mathlib.Data.List.Count

namespace NjuOs.Process

open NjuOs.Lib

/-! ### The model -/

/-- A message; `i` is the union of its five words. -/
structure Msg where
  src : Int
  dest : Int
  type : Int
  i : Fin 5 → Int

/-- The semaphores of a mailbox. -/
inductive Sem where
  | any
  | pid (k : Nat)
  deriving DecidableEq

/-- What has a link: the two queues, the slots, the waiting lists of the semaphores, and the
owner. -/
inductive MsgNode where
  | freeQueue
  | msgQueue
  | msgSpace (i : Nat)
  | block (s : Sem)
  | sem
  deriving DecidableEq

/-- Where inside `receive` the owner can be suspended: in the first or the second `P` of either
mode. -/
inductive Point where
  | any1
  | any2 (msg : Nat)
  | pid1 (src : Int)
  | pid2 (src : Int)
  deriving DecidableEq

/-- Where the owner of a mailbox is: it runs, or waits at a `P`, or was waked up there. -/
inductive Running where
  | running
  | asleep (point : Point)
  | woken (point : Point)
  deriving DecidableEq

/-- What a PCB has for messages. -/
structure Mailbox where
  pid : Int
  links : Links MsgNode
  msgSpace : Nat → Msg
  token : Sem → Int
  phase : Running

/-- `real_src`; no result outside `pid_sem`. -/
def realSrc (src : Int) : Option Nat :=
  if src = -2 then some 50 else if 0 ≤ src ∧ src ≤ 50 then some src.toNat else none

/-- The counter of a semaphore goes up by `d`. -/
def Mailbox.addToken (b : Mailbox) (s : Sem) (d : Int) : Mailbox :=
  { b with token := Function.update b.token s (b.token s + d) }

/-- `wakeup`: only a process that sleeps is on the wait list. -/
def Mailbox.wakeup (b : Mailbox) : Mailbox :=
  match b.phase with
  | .asleep point => { b with phase := .woken point }
  | _ => b

/-- The outcome of a part of `receive`: the message it returns, or none where the owner was
suspended; no result where an assertion fails. -/
abbrev Outcome := Option (Option Msg × Mailbox)

/-- `P`, called by the owner, and what it does then. -/
def P (s : Sem) (point : Point) (rest : Mailbox → Outcome) (b : Mailbox) : Outcome :=
  let b := b.addToken s (-1)
  if b.token s < 0 then
    some (none, { b with links := listAddBefore (.block s) .sem b.links, phase := .asleep point })
  else
    rest b

/-- `V`; its wait list holds the owner at most. -/
def V (s : Sem) (b : Mailbox) : Option Mailbox :=
  let b := b.addToken s 1
  if b.token s ≤ 0 then
    if listEmpty (.block s) b.links then none
    else
      match b.links.next (.block s) with
      | some .sem => (listDel .sem b.links).map fun links => { b with links }.wakeup
      | _ => none
  else
    some b

/-- `send`: a free slot takes the message, and two semaphores tell of it. -/
def send (m : Msg) (b : Mailbox) : Option Mailbox :=
  match b.links.next .freeQueue, realSrc m.src with
  | some (.msgSpace i), some src =>
    match listDel (.msgSpace i) b.links with
    | none => none
    | some links =>
      (V .any { b with
        links := listAddBefore .msgQueue (.msgSpace i) links
        msgSpace := Function.update b.msgSpace i { m with dest := b.pid } }).bind (V (.pid src))
  | _, _ => none

/-- The end of `receive`: the slot goes back to the free queue. -/
def deliver (i : Nat) (b : Mailbox) : Outcome :=
  (listDel (.msgSpace i) b.links).map fun links =>
    (some (b.msgSpace i),
      { b with links := listAddBefore .freeQueue (.msgSpace i) links, phase := .running })

/-- `receive(ANY)` behind its first `P`. -/
def takeFirst (b : Mailbox) : Outcome :=
  match b.links.next .msgQueue with
  | some (.msgSpace i) =>
    match realSrc (b.msgSpace i).src with
    | some k => P (.pid k) (.any2 i) (deliver i) b
    | none => none
  | _ => none

/-- Whether a node is a slot that holds a message from `src`. -/
def Mailbox.isFrom (b : Mailbox) (src : Int) : MsgNode → Bool
  | .msgSpace i => (b.msgSpace i).src = src
  | _ => false

/-- `receive(src)` behind its second `P`. -/
def takeFrom (src : Int) (b : Mailbox) : Outcome :=
  match b.links.next .msgQueue with
  | none => none
  | some first =>
    match b.links.search .msgQueue (b.isFrom src) 101 first none with
    | some (some (.msgSpace i)) => deliver i b
    | _ => none

/-- `receive`: from anyone for -1, else from one sender. -/
def receive (src : Int) (b : Mailbox) : Outcome :=
  if src = -1 then
    P .any .any1 takeFirst b
  else
    match realSrc src with
    | some k => P (.pid k) (.pid1 src) (P .any (.pid2 src) (takeFrom src)) b
    | none => none

/-- What `receive` does when the owner runs again. -/
def resume (b : Mailbox) : Outcome :=
  match b.phase with
  | .woken .any1 => takeFirst b
  | .woken (.any2 i) => deliver i b
  | .woken (.pid1 src) => P .any (.pid2 src) (takeFrom src) b
  | .woken (.pid2 src) => takeFrom src b
  | _ => none

/-- The loop of `init_msg` over the slots. -/
def freeSlots : Nat → Links MsgNode → Links MsgNode
  | 0, l => l
  | i + 1, l => listAddBefore .freeQueue (.msgSpace i) (freeSlots i l)

/-- `create_sem` of the first `count` semaphores of `pid_sem`. -/
def createSems : Nat → Links MsgNode → Links MsgNode
  | 0, l => l
  | k + 1, l => listInit (.block (.pid k)) (createSems k l)

/-- `init_msg`: all slots are free. -/
def initMsg (b : Mailbox) : Mailbox :=
  { b with
    links := freeSlots 100
      (createSems 51 (listInit (.block .any) (listInit .msgQueue (listInit .freeQueue b.links))))
    token := fun _ => 0
    phase := .running }

/-- A step: somebody sends, the owner calls `receive`, or runs again inside it. -/
inductive Step where
  | send (m : Msg)
  | receive (src : Int)
  | resume

/-- What happens to a mailbox at a step. -/
def Step.run : Step → Mailbox → Outcome
  | .send m, b => (Process.send m b).map fun b => (none, b)
  | .receive src, b => if b.phase = .running then Process.receive src b else none
  | .resume, b => Process.resume b

/-! ### What a mailbox is for -/

/-- The messages not delivered yet, oldest first, and what the owner asks for. -/
structure Spec where
  queue : List Msg
  asked : Option Int

/-- A call of `receive(src)` takes the message. -/
def wants (src : Int) (m : Msg) : Bool := src = -1 || m.src = src

/-- The oldest message that the call takes, if there is one. -/
def Spec.serve (src : Int) (x : Spec) : Option Msg × Spec :=
  match x.queue.find? (wants src) with
  | some m => (some m, { queue := x.queue.eraseP (wants src), asked := none })
  | none => (none, { x with asked := some src })

/-- The same to a queue. -/
def Spec.step (pid : Int) : Step → Spec → Option Msg × Spec
  | .send m, x => (none, { x with queue := x.queue ++ [{ m with dest := pid }] })
  | .receive src, x => x.serve src
  | .resume, x =>
    match x.asked with
    | some src => x.serve src
    | none => (none, x)

/-- A sender: a process, or an interrupt. -/
def Sender (src : Int) : Prop := src = -2 ∨ (0 ≤ src ∧ src < 50)

instance (src : Int) : Decidable (Sender src) := inferInstanceAs (Decidable (_ ∨ _))

/-- The steps that can happen: a message from a sender while there is room, a call by an owner that
is not in one already, and its continuation when the message it waits for is there. -/
def Spec.Allowed (x : Spec) : Step → Prop
  | .send m => Sender m.src ∧ x.queue.length < 100
  | .receive src => x.asked = none ∧ (src = -1 ∨ Sender src)
  | .resume => ∃ src m, x.asked = some src ∧ x.queue.find? (wants src) = some m

/-! ### The lists in memory -/

/-- The semaphores there are. -/
def Sem.Valid : Sem → Prop
  | .any => True
  | .pid k => k ≤ 50

/-- **The lists**: the two queues hold every slot once, and at most the owner waits at a
semaphore. -/
structure Rings (l : Links MsgNode) (msgs free : List Nat) (blocked : Option Sem) : Prop where
  msgRing : Ring l .msgQueue (msgs.map .msgSpace)
  freeRing : Ring l .freeQueue (free.map .msgSpace)
  nodes : (msgs ++ free).Perm (List.range 100)
  block : ∀ s : Sem, s.Valid → Ring l (.block s) (if blocked = some s then [.sem] else [])

section Rings

variable {l : Links MsgNode} {msgs free : List Nat} {blocked : Option Sem} {s : Sem} {i : Nat}

theorem mem_slots {is : List Nat} : MsgNode.msgSpace i ∈ is.map MsgNode.msgSpace ↔ i ∈ is :=
  List.mem_map_of_injective fun _ _ same => MsgNode.msgSpace.inj same

theorem Rings.nodup (rings : Rings l msgs free blocked) : (msgs ++ free).Nodup :=
  rings.nodes.nodup_iff.mpr List.nodup_range

theorem Rings.length (rings : Rings l msgs free blocked) : msgs.length + free.length = 100 := by
  rw [← List.length_append, rings.nodes.length_eq, List.length_range]

/-- A waiting list has neither the queues nor a slot on it. -/
theorem mem_block {a : MsgNode}
    (member : a ∈ MsgNode.block s :: if blocked = some s then [.sem] else []) :
    a = .block s ∨ a = .sem := by
  rcases List.mem_cons.mp member with here | rest
  · exact .inl here
  · split at rest
    · exact .inr (List.mem_singleton.mp rest)
    · exact absurd rest List.not_mem_nil

/-- A slot goes from the front of the free queue to the end of the other. -/
theorem Rings.push (rings : Rings l msgs (i :: free) blocked) :
    ∃ l', listDel (.msgSpace i) l = some l' ∧
      Rings (listAddBefore .msgQueue (.msgSpace i) l') (msgs ++ [i]) free blocked := by
  have nodup := rings.nodup
  rw [List.nodup_append] at nodup
  obtain ⟨_, freeDistinct, apart⟩ := nodup
  have newFree := (List.nodup_cons.mp freeDistinct).1
  have fresh : i ∉ msgs := fun member => apart i member i List.mem_cons_self rfl
  obtain ⟨l', taken, freeRing, same⟩ := rings.freeRing.del_first
  have msgRing : Ring l' .msgQueue (msgs.map .msgSpace) := by
    refine rings.msgRing.frame fun a member => same a fun there => ?_
    rcases List.mem_cons.mp member with rfl | member
    · simp at there
    · obtain ⟨j, inside, rfl⟩ := List.mem_map.mp member
      exact apart j inside j (List.mem_cons_of_mem _ (by simpa using there)) rfl
  obtain ⟨added, kept⟩ := msgRing.add (d := .msgSpace i) (by simpa using fresh)
  refine ⟨l', taken, by simpa using added, ?_, ?_, fun s valid => ?_⟩
  · refine freeRing.frame fun a member => kept a (fun there => ?_) ?_
    · rcases List.mem_cons.mp member with rfl | member
      · simp at there
      · obtain ⟨j, inside, rfl⟩ := List.mem_map.mp member
        exact apart j (by simpa using there) j (List.mem_cons_of_mem _ inside) rfl
    · rintro rfl
      exact newFree (by simpa using member)
  · rw [List.append_assoc]
    exact rings.nodes
  · refine (rings.block s valid).frame fun a member => ?_
    rcases mem_block member with rfl | rfl
    · exact (same _ (by simp)).trans (kept _ (by simp) (by simp))
    · exact (same _ (by simp)).trans (kept _ (by simp) (by simp))

/-- A slot goes from anywhere in the message queue to the end of the free one. -/
theorem Rings.pull {before after : List Nat} (rings : Rings l (before ++ i :: after) free blocked) :
    ∃ l', listDel (.msgSpace i) l = some l' ∧
      Rings (listAddBefore .freeQueue (.msgSpace i) l') (before ++ after)
        (free ++ [i]) blocked := by
  have moved : (before ++ i :: after ++ free).Perm (i :: (before ++ after ++ free)) := by
    rw [List.append_assoc, List.cons_append, List.append_assoc]
    exact List.perm_middle
  have nodup := moved.nodup_iff.mp rings.nodup
  rw [List.nodup_cons, List.nodup_append, List.mem_append, not_or] at nodup
  obtain ⟨⟨gone, fresh⟩, _, _, apart⟩ := nodup
  have msgRing := rings.msgRing
  rw [List.map_append, List.map_cons] at msgRing
  obtain ⟨l', taken, msgRing, same⟩ := msgRing.del
  rw [← List.map_append] at msgRing same
  have freeRing : Ring l' .freeQueue (free.map .msgSpace) := by
    refine rings.freeRing.frame fun a member => same a fun there => ?_
    rcases List.mem_cons.mp member with rfl | member
    · simp at there
    · obtain ⟨j, inside, rfl⟩ := List.mem_map.mp member
      rw [List.mem_cons, mem_slots] at there
      exact apart j (there.resolve_left nofun) j inside rfl
  obtain ⟨added, kept⟩ := freeRing.add (d := .msgSpace i) (by simpa using fresh)
  refine ⟨l', taken, ?_, by simpa using added, ?_, fun s valid => ?_⟩
  · refine msgRing.frame fun a member => kept a (fun there => ?_) ?_
    · rcases List.mem_cons.mp member with rfl | member
      · simp at there
      · obtain ⟨j, inside, rfl⟩ := List.mem_map.mp member
        exact apart j inside j (by simpa using there) rfl
    · rintro rfl
      rw [List.mem_cons, mem_slots] at member
      exact gone (member.resolve_left nofun)
  · refine List.Perm.trans ?_ rings.nodes
    rw [← List.append_assoc]
    exact (List.perm_append_singleton i _).trans moved.symm
  · refine (rings.block s valid).frame fun a member => ?_
    rcases mem_block member with rfl | rfl
    · exact (same _ (by simp)).trans (kept _ (by simp) (by simp))
    · exact (same _ (by simp)).trans (kept _ (by simp) (by simp))

/-- The owner joins the waiting list of a semaphore. -/
theorem Rings.sleep (rings : Rings l msgs free none) (valid : s.Valid) :
    Rings (listAddBefore (.block s) .sem l) msgs free (some s) := by
  have empty : Ring l (.block s) [] := rings.block s valid
  obtain ⟨added, kept⟩ := empty.add (d := .sem) (by simp)
  have others : ∀ a : MsgNode, a ≠ .block s → a ≠ .sem →
    SameAt l (listAddBefore (.block s) .sem l) a :=
    fun a notHead => kept a (by simpa using notHead)
  refine ⟨?_, ?_, rings.nodes, fun s' valid' => ?_⟩
  · refine rings.msgRing.frame fun a member => others a ?_ ?_
    · rintro rfl
      simp at member
    · rintro rfl
      simp at member
  · refine rings.freeRing.frame fun a member => others a ?_ ?_
    · rintro rfl
      simp at member
    · rintro rfl
      simp at member
  · by_cases here : s = s'
    · subst here
      simpa using added
    · rw [if_neg (by simpa using here)]
      refine (rings.block s' valid').frame fun a member => others a ?_ ?_
      · rw [List.mem_singleton.mp member]
        simpa using Ne.symm here
      · rw [List.mem_singleton.mp member]
        simp

/-- The owner leaves it. -/
theorem Rings.wake (rings : Rings l msgs free (some s)) (valid : s.Valid) :
    ∃ l', listDel .sem l = some l' ∧ Rings l' msgs free none := by
  have alone : Ring l (.block s) [.sem] := by simpa using rings.block s valid
  obtain ⟨l', taken, empty, same⟩ := alone.del_first
  refine ⟨l', taken, ?_, ?_, rings.nodes, fun s' valid' => ?_⟩
  · refine rings.msgRing.frame fun a member => same a ?_
    rintro here
    rw [List.mem_singleton.mp here] at member
    simp at member
  · refine rings.freeRing.frame fun a member => same a ?_
    rintro here
    rw [List.mem_singleton.mp here] at member
    simp at member
  · by_cases here : s = s'
    · subst here
      exact empty
    · have other : Ring l (.block s') [] := by
        have ring := rings.block s' valid'
        rwa [if_neg (by simpa using here)] at ring
      refine other.frame fun a member => same a ?_
      rw [List.mem_singleton.mp member]
      simpa using Ne.symm here

end Rings

/-! ### The invariant -/

/-- The semaphore that the owner is inside the `P` of. -/
def Running.inside : Running → Option Sem
  | .asleep .any1 | .woken .any1 | .asleep (.pid2 _) | .woken (.pid2 _) => some .any
  | .asleep (.pid1 src) | .woken (.pid1 src) => (realSrc src).map .pid
  | _ => none

/-- The semaphore that it sleeps at. -/
def Running.blocked (phase : Running) : Option Sem :=
  match phase with
  | .asleep _ => phase.inside
  | _ => none

/-- How many of the messages are counted by `pid_sem[k]`. -/
def countFrom (k : Nat) (queue : List Msg) : Nat := queue.countP fun m => realSrc m.src = some k

/-- Where the owner is, by what it asks for and whether it is there. It is never suspended in a
second `P`. -/
def Running.Mirrors : Running → Spec → Prop
  | .running, x => x.asked = none
  | .asleep .any1, x => x.asked = some (-1) ∧ x.queue.find? (wants (-1)) = none
  | .woken .any1, x => x.asked = some (-1) ∧ x.queue.find? (wants (-1)) ≠ none
  | .asleep (.pid1 src), x => x.asked = some src ∧ Sender src ∧ x.queue.find? (wants src) = none
  | .woken (.pid1 src), x => x.asked = some src ∧ Sender src ∧ x.queue.find? (wants src) ≠ none
  | _, _ => False

/-- The semaphores count the messages, less one while the owner is inside their `P`. -/
structure Counts (token : Sem → Int) (queue : List Msg) (inside : Option Sem) : Prop where
  any : token .any = queue.length - if inside = some .any then 1 else 0
  pid : ∀ k, k ≤ 50 → token (.pid k) = countFrom k queue - if inside = some (.pid k) then 1 else 0

/-- **The invariant**: the slots `msgs` hold the messages that are not delivered, in their order. -/
structure Mirrors (b : Mailbox) (x : Spec) (msgs free : List Nat) : Prop where
  rings : Rings b.links msgs free b.phase.blocked
  queue : x.queue = msgs.map b.msgSpace
  senders : ∀ m ∈ x.queue, Sender m.src
  counts : Counts b.token x.queue b.phase.inside
  phase : b.phase.Mirrors x

section Semaphores

variable {b : Mailbox} {x : Spec} {msgs free : List Nat} {s : Sem} {src : Int} {m : Msg}

theorem realSrc_sender (sender : Sender src) : ∃ k, realSrc src = some k ∧ k ≤ 50 := by
  unfold realSrc
  rcases sender with rfl | ⟨low, high⟩
  · exact ⟨50, rfl, le_refl 50⟩
  · rw [if_neg (by omega), if_pos (by omega)]
    exact ⟨src.toNat, rfl, by omega⟩

/-- Different senders have different semaphores. -/
theorem realSrc_inj {src' : Int} (sender : Sender src) (sender' : Sender src')
    (same : realSrc src = realSrc src') :
    src = src' := by
  unfold realSrc at same
  unfold Sender at sender sender'
  split at same
  · split at same
    · omega
    · split at same
      · have := Option.some.inj same
        omega
      · simp at same
  · rw [if_pos (by omega)] at same
    split at same
    · have := Option.some.inj same
      omega
    · rw [if_pos (by omega)] at same
      have := Option.some.inj same
      omega

theorem wants_any (m : Msg) : wants (-1) m = true := by simp [wants]

theorem wants_sender (sender : Sender src) (m : Msg) : wants src m = true ↔ m.src = src := by
  unfold Sender at sender
  simp only [wants, Bool.or_eq_true, decide_eq_true_eq]
  omega

theorem find_any {queue : List Msg} : queue.find? (wants (-1)) = none ↔ queue = [] := by
  rw [List.find?_eq_none]
  constructor
  · intro none
    cases queue with
    | nil => rfl
    | cons m rest => exact absurd (wants_any m) (none m List.mem_cons_self)
  · rintro rfl
    simp

/-- The semaphore of a sender counts the messages a call takes. -/
theorem countFrom_eq {queue : List Msg} {k : Nat} (senders : ∀ m ∈ queue, Sender m.src)
    (sender : Sender src) (slot : realSrc src = some k) :
    countFrom k queue = queue.countP (wants src) := by
  refine List.countP_congr fun m member => ?_
  rw [wants_sender sender, decide_eq_true_iff, ← slot]
  exact ⟨realSrc_inj (senders m member) sender, fun same => by rw [same]⟩

theorem find_sender {queue : List Msg} {k : Nat} (senders : ∀ m ∈ queue, Sender m.src)
    (sender : Sender src) (slot : realSrc src = some k) :
    queue.find? (wants src) = none ↔ countFrom k queue = 0 := by
  rw [countFrom_eq senders sender slot, List.countP_eq_zero, List.find?_eq_none]

/-- A semaphore the owner sleeps at has no message. -/
theorem Mirrors.low (mirrors : Mirrors b x msgs free) (asleep : b.phase.blocked = some s) :
    b.token s = -1 := by
  obtain ⟨any, pid⟩ := mirrors.counts
  have phase := mirrors.phase
  unfold Running.Mirrors at phase
  split at phase
  · case h_1 state => simp [state, Running.blocked] at asleep
  · case h_2 state =>
      simp only [state, Running.blocked, Running.inside, Option.some.injEq] at asleep any
      subst asleep
      rw [any, find_any.mp phase.2]
      rfl
  · case h_3 state => simp [state, Running.blocked] at asleep
  · case h_4 src state =>
      obtain ⟨k, slot, small⟩ := realSrc_sender phase.2.1
      simp only [state, Running.blocked, Running.inside, slot, Option.map_some,
        Option.some.injEq] at asleep pid
      subst asleep
      rw [pid k small, (find_sender mirrors.senders phase.2.1 slot).mp phase.2.2]
      simp
  · case h_5 state => simp [state, Running.blocked] at asleep
  · exact phase.elim

/-- Every other semaphore is not negative. -/
theorem Mirrors.high (mirrors : Mirrors b x msgs free) (valid : s.Valid)
    (awake : b.phase.blocked ≠ some s) :
    0 ≤ b.token s := by
  obtain ⟨any, pid⟩ := mirrors.counts
  -- inside its `P` but awake, the owner has a message there
  have there : b.phase.inside = some s → 0 < match s with
      | .any => x.queue.length
      | .pid k => countFrom k x.queue := by
    intro inside
    have phase := mirrors.phase
    unfold Running.Mirrors at phase
    split at phase
    · case h_1 state => simp [state, Running.inside] at inside
    · case h_2 state => exact absurd (by rw [← inside, state]; rfl) awake
    · case h_3 state =>
        simp only [state, Running.inside, Option.some.injEq] at inside
        subst inside
        exact List.length_pos_iff.mpr fun empty => phase.2 (find_any.mpr empty)
    · case h_4 state => exact absurd (by rw [← inside, state]; rfl) awake
    · case h_5 src state =>
        obtain ⟨k, slot, small⟩ := realSrc_sender phase.2.1
        simp only [state, Running.inside, slot, Option.map_some, Option.some.injEq] at inside
        subst inside
        exact Nat.pos_of_ne_zero fun none =>
          phase.2.2 ((find_sender mirrors.senders phase.2.1 slot).mpr none)
    · exact phase.elim
  cases s with
  | any =>
      rw [any]
      split
      · have := there ‹_›
        dsimp only at this
        omega
      · omega
  | pid k =>
      rw [pid k valid]
      split
      · have := there ‹_›
        dsimp only at this
        omega
      · omega

/-! ### `P` and `V` -/

/-- What `V` does to the owner. -/
def Running.signal (s : Sem) (phase : Running) : Running :=
  match phase with
  | .asleep point => if phase.blocked = some s then .woken point else phase
  | _ => phase

theorem signal_inside (phase : Running) : (phase.signal s).inside = phase.inside := by
  unfold Running.signal
  split
  · case h_1 point =>
      split
      · cases point <;> rfl
      · rfl
  · rfl

theorem signal_blocked (phase : Running) :
    (phase.signal s).blocked = if phase.blocked = some s then none else phase.blocked := by
  unfold Running.signal
  split
  · case h_1 point =>
      split
      · rfl
      · rfl
  · case h_2 awake =>
      have none : phase.blocked = none := by
        unfold Running.blocked
        split
        · exact absurd rfl (awake _)
        · rfl
      rw [none]
      simp

/-- **`V`**: its assertion holds, and it wakes the owner exactly if it sleeps there. -/
theorem V_spec (rings : Rings b.links msgs free b.phase.blocked) (valid : s.Valid)
    (low : b.phase.blocked = some s → b.token s = -1)
    (high : b.phase.blocked ≠ some s → 0 ≤ b.token s) :
    ∃ l, V s b = some { b.addToken s 1 with links := l, phase := b.phase.signal s } ∧
      Rings l msgs free (b.phase.signal s).blocked := by
  have raised : (b.addToken s 1).token s = b.token s + 1 := Function.update_self ..
  unfold V
  dsimp only
  rw [raised]
  by_cases asleep : b.phase.blocked = some s
  · rw [asleep] at rings
    have alone : Ring b.links (.block s) [.sem] := by simpa using rings.block s valid
    obtain ⟨l, taken, after⟩ := rings.wake valid
    have nonempty : ¬ listEmpty (.block s) (b.addToken s 1).links = true := fun empty =>
      List.cons_ne_nil _ _ (alone.listEmpty_iff.mp empty)
    have next : (b.addToken s 1).links.next (.block s) = some .sem := alone.next_head
    have gone : listDel .sem (b.addToken s 1).links = some l := taken
    refine ⟨l, ?_, ?_⟩
    · rw [if_pos (by rw [low asleep]; decide), if_neg nonempty, next]
      dsimp only
      rw [gone, Option.map_some]
      congr 1
      cases state : b.phase with
      | asleep point =>
          rw [state] at asleep
          simp [Mailbox.wakeup, Mailbox.addToken, state, Running.signal, asleep]
      | running => simp [state, Running.blocked] at asleep
      | woken point => simp [state, Running.blocked] at asleep
    · rw [signal_blocked, if_pos asleep]
      exact after
  · have positive := high asleep
    refine ⟨b.links, ?_, ?_⟩
    · rw [if_neg (by omega)]
      congr 1
      have same : b.phase.signal s = b.phase := by
        unfold Running.signal
        split
        · rw [if_neg asleep]
        · rfl
      rw [same]
      rfl
    · rw [signal_blocked, if_neg asleep]
      exact rings

theorem P_go {point : Point} {rest : Mailbox → Outcome} (positive : 0 < b.token s) :
    P s point rest b = rest (b.addToken s (-1)) := by
  have lowered : (b.addToken s (-1)).token s = b.token s + -1 := Function.update_self ..
  unfold P
  dsimp only
  rw [lowered, if_neg (by omega)]

theorem P_stop {point : Point} {rest : Mailbox → Outcome} (zero : b.token s ≤ 0) :
    P s point rest b = some (none, { b.addToken s (-1) with
      links := listAddBefore (.block s) .sem b.links, phase := .asleep point }) := by
  have lowered : (b.addToken s (-1)).token s = b.token s + -1 := Function.update_self ..
  unfold P
  dsimp only
  rw [lowered, if_pos (by omega)]
  rfl

/-! ### Sending -/

theorem countFrom_append (k : Nat) (queue : List Msg) (m : Msg) :
    countFrom k (queue ++ [m]) = countFrom k queue + if realSrc m.src = some k then 1 else 0 := by
  unfold countFrom
  rw [List.countP_append, List.countP_singleton]
  simp

theorem Counts.append {token : Sem → Int} {queue : List Msg} {inside : Option Sem} {k : Nat}
    (counts : Counts token queue inside) (slot : realSrc m.src = some k) :
    Counts (Function.update (Function.update token .any (token .any + 1)) (.pid k)
      (token (.pid k) + 1))
      (queue ++ [m]) inside := by
  refine ⟨?_, fun j small => ?_⟩
  · rw [Function.update_of_ne (show Sem.any ≠ .pid k from nofun), Function.update_self, counts.any,
      List.length_append, List.length_singleton]
    push_cast
    omega
  · rw [countFrom_append, slot]
    by_cases same : j = k
    · subst same
      rw [Function.update_self, counts.pid j small]
      simp
      omega
    · rw [Function.update_of_ne (by simpa using same),
        Function.update_of_ne (show Sem.pid j ≠ .any from nofun), counts.pid j small]
      simp [Ne.symm same]

/-- A message that comes in wakes the owner exactly if it waits for that one. -/
theorem Running.Mirrors.append {phase : Running} {k : Nat} (mirrors : phase.Mirrors x)
    (sender : Sender m.src) (slot : realSrc m.src = some k) :
    ((phase.signal .any).signal (.pid k)).Mirrors { x with queue := x.queue ++ [m] } := by
  have more : ∀ {src : Int}, x.queue.find? (wants src) ≠ none →
      (x.queue ++ [m]).find? (wants src) ≠ none := by
    intro src there none
    rw [List.find?_append, Option.or_eq_none_iff] at none
    exact there none.1
  unfold Running.Mirrors at mirrors
  split at mirrors
  · exact mirrors
  · refine ⟨mirrors.1, fun none => ?_⟩
    exact List.append_ne_nil_of_right_ne_nil _ (by simp) (find_any.mp none)
  · exact ⟨mirrors.1, more mirrors.2⟩
  · case h_4 src =>
      obtain ⟨asked, waits, none⟩ := mirrors
      obtain ⟨j, slot', _⟩ := realSrc_sender waits
      have notAny : (Running.asleep (.pid1 src)).signal .any = .asleep (.pid1 src) := by
        simp [Running.signal, Running.blocked, Running.inside, slot']
      rw [notAny]
      unfold Running.signal
      simp only [Running.blocked, Running.inside, slot', Option.map_some, Option.some.injEq,
        Sem.pid.injEq]
      by_cases same : j = k
      · rw [if_pos same]
        refine ⟨asked, waits, fun missing => ?_⟩
        have source : m.src = src := realSrc_inj sender waits (by rw [slot, slot', same])
        rw [List.find?_eq_none] at missing
        exact missing m (by simp) ((wants_sender waits m).mpr source)
      · rw [if_neg same]
        refine ⟨asked, waits, ?_⟩
        rw [List.find?_append, none, Option.none_or, List.find?_eq_none]
        intro other member wanted
        rw [List.mem_singleton.mp member, wants_sender waits] at wanted
        rw [wanted, slot'] at slot
        exact same (Option.some.inj slot)
  · exact ⟨mirrors.1, mirrors.2.1, more mirrors.2.2⟩
  · exact mirrors.elim

/-- **A message is sent.** -/
theorem Mirrors.send {i : Nat} (mirrors : Mirrors b x msgs (i :: free)) (sender : Sender m.src) :
    ∃ b', send m b = some b' ∧ b'.pid = b.pid ∧
      Mirrors b' { x with queue := x.queue ++ [{ m with dest := b.pid }] } (msgs ++ [i]) free := by
  obtain ⟨k, slot, small⟩ := realSrc_sender sender
  obtain ⟨l₀, taken, rings₀⟩ := mirrors.rings.push
  have first : b.links.next .freeQueue = some (.msgSpace i) := mirrors.rings.freeRing.next_head
  have fresh : i ∉ msgs := fun member =>
    (List.nodup_append.mp mirrors.rings.nodup).2.2 i member i List.mem_cons_self rfl
  generalize stored : ({ b with
    links := listAddBefore .msgQueue (.msgSpace i) l₀
    msgSpace := Function.update b.msgSpace i { m with dest := b.pid } } : Mailbox) = b₀
  have phase₀ : b₀.phase = b.phase := by rw [← stored]
  have token₀ : b₀.token = b.token := by rw [← stored]
  have links₀ : b₀.links = listAddBefore .msgQueue (.msgSpace i) l₀ := by rw [← stored]
  rw [← links₀, ← phase₀] at rings₀
  obtain ⟨l₁, raised, rings₁⟩ := V_spec (s := .any) rings₀ trivial
    (fun asleep => by rw [token₀]; exact mirrors.low (phase₀ ▸ asleep))
    (fun awake => by rw [token₀]; exact mirrors.high trivial (phase₀ ▸ awake))
  have token₁ : (b₀.addToken .any 1).token (.pid k) = b.token (.pid k) := by
    show Function.update b₀.token .any (b₀.token .any + 1) (.pid k) = _
    rw [Function.update_of_ne (show Sem.pid k ≠ .any from nofun), token₀]
  have still : (b₀.phase.signal .any).blocked = some (.pid k) ↔
      b.phase.blocked = some (.pid k) := by
    rw [signal_blocked, phase₀]
    split
    · case isTrue asleep => simp [asleep]
    · rfl
  obtain ⟨l₂, again, rings₂⟩ := V_spec (s := .pid k)
    (b := { b₀.addToken .any 1 with links := l₁, phase := b₀.phase.signal .any }) rings₁ small
    (fun asleep => token₁.trans (mirrors.low (still.mp asleep)))
    (fun awake => by
      rw [token₁]
      exact mirrors.high small fun asleep => awake (still.mpr asleep))
  refine ⟨{
    ({ b₀.addToken .any 1 with links := l₁, phase := b₀.phase.signal .any } : Mailbox).addToken
    (.pid k) 1 with
    links := l₂, phase := (b₀.phase.signal .any).signal (.pid k) }, ?_, ?_,
      ⟨rings₂, ?_, ?_, ?_, ?_⟩⟩
  · unfold Process.send
    rw [first, slot]
    dsimp only
    rw [taken]
    dsimp only
    rw [stored, raised, Option.bind_some, again]
  · rw [← stored]
    rfl
  · show x.queue ++ [_] = (msgs ++ [i]).map b₀.msgSpace
    have same : msgs.map b₀.msgSpace = msgs.map b.msgSpace := by
      rw [← stored]
      exact List.map_congr_left fun j member =>
        Function.update_of_ne (fun here : j = i => fresh (here ▸ member)) ..
    have new : b₀.msgSpace i = { m with dest := b.pid } := by
      rw [← stored]
      exact Function.update_self ..
    rw [List.map_append, List.map_singleton, new, same, mirrors.queue]
  · intro other member
    rcases List.mem_append.mp member with old | new
    · exact mirrors.senders other old
    · rw [List.mem_singleton.mp new]
      exact sender
  · show Counts (Function.update (Function.update b₀.token .any (b₀.token .any + 1)) (.pid k)
      (Function.update b₀.token .any (b₀.token .any + 1) (.pid k) + 1))
      _ ((b₀.phase.signal .any).signal (.pid k)).inside
    rw [signal_inside, signal_inside, phase₀, token₀,
      Function.update_of_ne (show Sem.pid k ≠ .any from nofun)]
    exact mirrors.counts.append (m := { m with dest := b.pid }) slot
  · show ((b₀.phase.signal .any).signal (.pid k)).Mirrors _
    rw [phase₀]
    exact mirrors.phase.append (m := { m with dest := b.pid }) sender slot

/-! ### Receiving -/

/-- The messages without one of them are counted without it. -/
theorem Counts.remove {token : Sem → Int} {before after : List Msg} {k : Nat}
    (slot : realSrc m.src = some k) (any : token .any = (before ++ m :: after).length - 1)
    (pid : ∀ j, j ≤ 50 →
      token (.pid j) = countFrom j (before ++ m :: after) - if j = k then 1 else 0) :
    Counts token (before ++ after) none := by
  refine ⟨?_, fun j small => ?_⟩
  · rw [any]
    simp
    omega
  · rw [pid j small]
    unfold countFrom
    rw [List.countP_append, List.countP_append, List.countP_cons, slot]
    by_cases same : j = k
    · subst same
      simp
      omega
    · simp [same, Ne.symm same]

/-- The call takes the first message it wants. -/
theorem serve_eq {queue after : List Msg} (asked : Option Int) (before : List Msg)
    (split : queue = before ++ m :: after) (wanted : wants src m = true)
    (others : ∀ other ∈ before, wants src other = false) :
    Spec.serve src { queue, asked } = (some m, { queue := before ++ after, asked := none }) := by
  have none : before.find? (wants src) = none := List.find?_eq_none.mpr fun other member => by
    simp [others other member]
  have found : queue.find? (wants src) = some m := by
    rw [split, List.find?_append, none, Option.none_or, List.find?_cons_of_pos wanted]
  have rest : queue.eraseP (wants src) = before ++ after := by
    rw [split, List.eraseP_append_right _ fun other member => by simp [others other member],
      List.eraseP_cons_of_pos wanted]
  simp only [Spec.serve, found, rest]

/-- The end of `receive`, in any mode: the message goes out, its slot is free. -/
theorem deliver_spec (before : List Nat) {after : List Nat} {i k : Nat}
    (rings : Rings b.links (before ++ i :: after) free none)
    (senders : ∀ m ∈ (before ++ i :: after).map b.msgSpace, Sender m.src)
    (slot : realSrc (b.msgSpace i).src = some k)
    (any : b.token .any = (before ++ i :: after).length - 1)
    (pid : ∀ j, j ≤ 50 → b.token (.pid j) =
      countFrom j ((before ++ i :: after).map b.msgSpace) - if j = k then 1 else 0) :
    ∃ b', deliver i b = some (some (b.msgSpace i), b') ∧ b'.pid = b.pid ∧
      Mirrors b' { queue := before.map b.msgSpace ++ after.map b.msgSpace, asked := none }
        (before ++ after)
        (free ++ [i]) := by
  obtain ⟨l, taken, after'⟩ := rings.pull
  rw [List.map_append, List.map_cons] at senders pid
  refine ⟨{ b with links := listAddBefore .freeQueue (.msgSpace i) l, phase := .running }, ?_,
    rfl, after', ?_, ?_, ?_, rfl⟩
  · unfold deliver
    rw [taken]
    rfl
  · exact (List.map_append).symm
  · intro m member
    refine senders m ?_
    rcases List.mem_append.mp member with early | late
    · exact List.mem_append_left _ early
    · exact List.mem_append_right _ (List.mem_cons_of_mem _ late)
  · refine Counts.remove slot ?_ pid
    rw [any]
    simp

/-- The state of a call that has taken one semaphore of a message. -/
structure Taken (b : Mailbox) (queue : List Msg) (msgs free : List Nat) (s : Sem) : Prop where
  rings : Rings b.links msgs free none
  slots : queue = msgs.map b.msgSpace
  senders : ∀ m ∈ queue, Sender m.src
  counts : Counts b.token queue (some s)

theorem Taken.takeFirst {queue : List Msg} (taken : Taken b queue msgs free .any)
    (nonempty : queue ≠ []) (asked : Option Int) :
    ∃ b' free', takeFirst b = some ((Spec.serve (-1) { queue, asked }).1, b') ∧ b'.pid = b.pid ∧
      ∃ msgs', Mirrors b' (Spec.serve (-1) { queue, asked }).2 msgs' free' := by
  obtain ⟨rings, same, senders, any, pid⟩ := taken
  subst same
  obtain ⟨i, rest, rfl⟩ : ∃ i rest, msgs = i :: rest := List.exists_cons_of_ne_nil (by
    rintro rfl
    exact nonempty rfl)
  obtain ⟨k, slot, small⟩ := realSrc_sender (senders (b.msgSpace i) (by simp))
  have first : b.links.next .msgQueue = some (.msgSpace i) := rings.msgRing.next_head
  have positive : 0 < b.token (.pid k) := by
    have here : 0 < countFrom k ((i :: rest).map b.msgSpace) :=
      List.countP_pos_iff.mpr ⟨b.msgSpace i, by simp, by simp [slot]⟩
    rw [pid k small, if_neg (by simp)]
    omega
  have others : ∀ j, j ≤ 50 → (b.addToken (.pid k) (-1)).token (.pid j)
      = countFrom j ((i :: rest).map b.msgSpace) - if j = k then 1 else 0 := by
    intro j bound
    show Function.update b.token (.pid k) (b.token (.pid k) + -1) (.pid j) = _
    by_cases here : j = k
    · subst here
      rw [Function.update_self, pid j bound]
      simp
      omega
    · rw [Function.update_of_ne (by simpa using here), pid j bound]
      simp [here]
  have total : (b.addToken (.pid k) (-1)).token .any = (i :: rest).length - 1 := by
    show Function.update b.token (.pid k) (b.token (.pid k) + -1) .any = _
    rw [Function.update_of_ne (show Sem.any ≠ .pid k from nofun), any]
    simp
  obtain ⟨b', run, owner, mirrors⟩ :=
    deliver_spec (b := b.addToken (.pid k) (-1)) [] rings senders slot total
    others
  have served := serve_eq asked []
    (show (i :: rest).map b.msgSpace = [] ++ b.msgSpace i :: rest.map b.msgSpace from rfl)
    (wants_any (b.msgSpace i))
    (by simp)
  rw [served]
  refine ⟨b', _, ?_, owner, _, mirrors⟩
  simp only [Process.takeFirst, first, slot]
  rw [P_go positive]
  exact run

theorem Taken.takeFrom {queue : List Msg} {k : Nat} (taken : Taken b queue msgs free (.pid k))
    (sender : Sender src) (slot : realSrc src = some k) (there : queue.find? (wants src) ≠ none)
    (asked : Option Int) :
    ∃ b' free', P .any (.pid2 src) (takeFrom src) b =
      some ((Spec.serve src { queue, asked }).1, b') ∧ b'.pid = b.pid ∧
      ∃ msgs', Mirrors b' (Spec.serve src { queue, asked }).2 msgs' free' := by
  obtain ⟨rings, same, senders, any, pid⟩ := taken
  subst same
  -- the loop over the queue and the search for the oldest message stop at the same slot
  rw [List.find?_map, Ne, Option.map_eq_none_iff] at there
  obtain ⟨i, found⟩ := Option.ne_none_iff_exists'.mp there
  obtain ⟨wanted, before, after, split, others⟩ := List.find?_eq_some_iff_append.mp found
  subst split
  have source : (b.msgSpace i).src = src := (wants_sender sender _).mp wanted
  have fits := rings.length
  have first : ∃ ptr, b.links.next .msgQueue = some ptr := ⟨_, rings.msgRing.next_head⟩
  obtain ⟨ptr, first⟩ := first
  have search : b.links.search .msgQueue (b.isFrom src) 101 ptr none =
      some (some (.msgSpace i)) := by
    rw [rings.msgRing.search_eq (by rw [List.length_map]; omega) first, List.find?_map]
    have looked : (before ++ i :: after).find? (b.isFrom src ∘ MsgNode.msgSpace) = some i := by
      rw [List.find?_eq_some_iff_append]
      refine ⟨by simpa [Mailbox.isFrom] using source, before, after, rfl, fun j member => ?_⟩
      have other := others j member
      rw [Bool.not_eq_true', Bool.eq_false_iff, Function.comp_apply, Ne,
        wants_sender sender] at other
      simpa [Mailbox.isFrom] using other
    rw [looked]
    rfl
  have positive : 0 < b.token .any := by
    rw [any]
    simp
    omega
  have pids : ∀ j, j ≤ 50 → (b.addToken .any (-1)).token (.pid j)
      = countFrom j ((before ++ i :: after).map b.msgSpace) - if j = k then 1 else 0 := by
    intro j bound
    show Function.update b.token .any (b.token .any + -1) (.pid j) = _
    rw [Function.update_of_ne (show Sem.pid j ≠ .any from nofun), pid j bound]
    simp [eq_comm]
  have total : (b.addToken .any (-1)).token .any = (before ++ i :: after).length - 1 := by
    show Function.update b.token .any (b.token .any + -1) .any = _
    rw [Function.update_self, any]
    simp
    omega
  obtain ⟨b', run, owner, mirrors⟩ :=
    deliver_spec (b := b.addToken .any (-1)) before rings senders (by rw [← slot, ← source]; rfl)
    total pids
  have served := serve_eq asked (before.map b.msgSpace)
    (show (before ++ i :: after).map b.msgSpace = before.map b.msgSpace ++
      b.msgSpace i :: after.map b.msgSpace by simp)
    wanted (by
      intro other member
      obtain ⟨j, inside, rfl⟩ := List.mem_map.mp member
      simpa using others j inside)
  rw [served]
  refine ⟨b', _, ?_, owner, _, mirrors⟩
  rw [P_go positive]
  unfold Process.takeFrom
  have start : (b.addToken .any (-1)).links.next .msgQueue = some ptr := first
  have looked : (b.addToken .any (-1)).links.search .msgQueue
    ((b.addToken .any (-1)).isFrom src) 101 ptr none
      = some (some (.msgSpace i)) := search
  rw [start]
  dsimp only
  rw [looked]
  exact run

/-- A semaphore is taken. -/
theorem Counts.take {token : Sem → Int} {queue : List Msg} (counts : Counts token queue none)
    (s : Sem) :
    Counts (Function.update token s (token s + -1)) queue (some s) := by
  obtain ⟨any, pid⟩ := counts
  refine ⟨?_, fun k small => ?_⟩
  · by_cases here : s = .any
    · subst here
      rw [Function.update_self, any]
      simp
      omega
    · rw [Function.update_of_ne (Ne.symm here), any]
      simp [here]
  · by_cases here : s = .pid k
    · subst here
      rw [Function.update_self, pid k small]
      simp
      omega
    · rw [Function.update_of_ne (Ne.symm here), pid k small]
      simp [here]

/-- The first `P` of a call finds no message: the owner sleeps. -/
theorem Mirrors.sleep (mirrors : Mirrors b x msgs free) (running : b.phase = .running)
    (valid : s.Valid) {point : Point} (inside : (Running.asleep point).inside = some s)
    (asked : Option Int) (phase : (Running.asleep point).Mirrors { x with asked }) :
    Mirrors { b.addToken s (-1) with
      links := listAddBefore (.block s) .sem b.links, phase := .asleep point }
      { x with asked } msgs free := by
  have rings := mirrors.rings
  have counts := mirrors.counts
  rw [running] at rings counts
  have blocked : (Running.asleep point).blocked = some s := inside
  refine ⟨?_, mirrors.queue, mirrors.senders, ?_, phase⟩
  · show Rings _ msgs free (Running.asleep point).blocked
    rw [blocked]
    exact rings.sleep valid
  · show Counts _ x.queue (Running.asleep point).inside
    rw [inside]
    exact counts.take s

/-- It finds one. -/
theorem Mirrors.take (mirrors : Mirrors b x msgs free) (running : b.phase = .running) (s : Sem) :
    Taken (b.addToken s (-1)) x.queue msgs free s := by
  have rings := mirrors.rings
  have counts := mirrors.counts
  rw [running] at rings counts
  exact ⟨rings, mirrors.queue, mirrors.senders, counts.take s⟩

/-- **The owner calls `receive`.** -/
theorem Mirrors.receive (mirrors : Mirrors b x msgs free) (running : b.phase = .running)
    (valid : src = -1 ∨ Sender src) :
    ∃ b' free', receive src b = some ((x.serve src).1, b') ∧ b'.pid = b.pid ∧
      ∃ msgs', Mirrors b' (x.serve src).2 msgs' free' := by
  have counts := mirrors.counts
  rw [running] at counts
  unfold Process.receive
  by_cases any : src = -1
  · subst any
    rw [if_pos rfl]
    by_cases empty : x.queue = []
    · have none := find_any.mpr empty
      have zero : b.token .any ≤ 0 := by
        rw [counts.any, empty]
        simp [Running.inside]
      rw [P_stop zero]
      simp only [Spec.serve, none]
      exact ⟨_, _, rfl,
        rfl, _, mirrors.sleep running (s := .any) trivial rfl (some (-1)) ⟨rfl, none⟩⟩
    · have positive : 0 < b.token .any := by
        have := List.length_pos_iff.mpr empty
        rw [counts.any]
        simp [Running.inside]
        omega
      rw [P_go positive]
      exact (mirrors.take running .any).takeFirst empty x.asked
  · have sender := valid.resolve_left any
    obtain ⟨k, slot, small⟩ := realSrc_sender sender
    rw [if_neg any, slot]
    dsimp only
    by_cases none : x.queue.find? (wants src) = none
    · have zero : b.token (.pid k) ≤ 0 := by
        rw [counts.pid k small, (find_sender mirrors.senders sender slot).mp none]
        simp [Running.inside]
      rw [P_stop zero]
      simp only [Spec.serve, none]
      exact ⟨_, _, rfl, rfl, _, mirrors.sleep running (s := .pid k) small
        (by simp [Running.inside, slot]) (some src)
        ⟨rfl, sender, none⟩⟩
    · have positive : 0 < b.token (.pid k) := by
        have := Nat.pos_of_ne_zero fun zero =>
          none ((find_sender mirrors.senders sender slot).mpr zero)
        rw [counts.pid k small]
        simp [Running.inside]
        omega
      rw [P_go positive]
      exact (mirrors.take running (.pid k)).takeFrom sender slot none x.asked

/-- **The owner runs again.** -/
theorem Mirrors.resume (mirrors : Mirrors b x msgs free) (asked : x.asked = some src)
    (there : x.queue.find? (wants src) ≠ none) :
    ∃ b' free', resume b = some ((x.serve src).1, b') ∧ b'.pid = b.pid ∧
      ∃ msgs', Mirrors b' (x.serve src).2 msgs' free' := by
  have phase := mirrors.phase
  have rings := mirrors.rings
  have counts := mirrors.counts
  unfold Process.resume
  cases state : b.phase with
  | running =>
      rw [state] at phase
      exact absurd (asked.symm.trans phase) nofun
  | asleep point =>
      rw [state] at phase
      cases point with
      | any1 =>
          obtain rfl := Option.some.inj (asked.symm.trans phase.1)
          exact absurd phase.2 there
      | pid1 other =>
          obtain rfl := Option.some.inj (asked.symm.trans phase.1)
          exact absurd phase.2.2 there
      | any2 i => exact phase.elim
      | pid2 other => exact phase.elim
  | woken point =>
      rw [state] at phase rings counts
      cases point with
      | any1 =>
          obtain rfl := Option.some.inj (asked.symm.trans phase.1)
          have taken : Taken b x.queue msgs free .any :=
            ⟨rings, mirrors.queue, mirrors.senders, counts⟩
          exact taken.takeFirst (fun empty => there (find_any.mpr empty)) x.asked
      | pid1 other =>
          obtain rfl := Option.some.inj (asked.symm.trans phase.1)
          obtain ⟨k, slot, _⟩ := realSrc_sender phase.2.1
          have inside : (Running.woken (.pid1 src)).inside = some (.pid k) := by
            simp [Running.inside, slot]
          have taken : Taken b x.queue msgs free (.pid k) :=
            ⟨rings, mirrors.queue, mirrors.senders, inside ▸ counts⟩
          exact taken.takeFrom phase.2.1 slot there x.asked
      | any2 i => exact phase.elim
      | pid2 other => exact phase.elim

theorem Mirrors.running (mirrors : Mirrors b x msgs free) (idle : x.asked = none) :
    b.phase = .running := by
  have phase := mirrors.phase
  unfold Running.Mirrors at phase
  split at phase
  · assumption
  · exact absurd (idle.symm.trans phase.1) nofun
  · exact absurd (idle.symm.trans phase.1) nofun
  · exact absurd (idle.symm.trans phase.1) nofun
  · exact absurd (idle.symm.trans phase.1) nofun
  · exact phase.elim

/-- **One step of the mailbox is one of its specification.** -/
theorem Mirrors.step (mirrors : Mirrors b x msgs free) {step : Step} (allowed : x.Allowed step) :
    ∃ b' free', step.run b = some ((x.step b.pid step).1, b') ∧ b'.pid = b.pid ∧
      ∃ msgs', Mirrors b' (x.step b.pid step).2 msgs' free' := by
  cases step with
  | send m =>
      obtain ⟨sender, room⟩ := allowed
      have total := mirrors.rings.length
      rw [mirrors.queue, List.length_map] at room
      obtain ⟨i, rest, rfl⟩ : ∃ i rest, free = i :: rest := List.exists_cons_of_ne_nil (by
        rintro rfl
        rw [List.length_nil] at total
        omega)
      obtain ⟨b', run, owner, after⟩ := mirrors.send sender
      refine ⟨b', rest, ?_, owner, _, after⟩
      simp only [Step.run, run, Option.map_some, Spec.step]
  | receive src =>
      have running := mirrors.running allowed.1
      simp only [Step.run, if_pos running, Spec.step]
      exact mirrors.receive running allowed.2
  | resume =>
      obtain ⟨src, m, asked, found⟩ := allowed
      simp only [Step.run, Spec.step, asked]
      exact mirrors.resume asked (by simp [found])

end Semaphores

/-! ### Runs -/

/-- A run: what every step returns, and the last state. -/
def runSteps : List Step → Mailbox → Option (List (Option Msg) × Mailbox)
  | [], b => some ([], b)
  | step :: steps, b =>
    match step.run b with
    | none => none
    | some (out, b) => (runSteps steps b).map fun rest => (out :: rest.1, rest.2)

/-- A run of a queue, with what is received. -/
def Spec.runSteps (pid : Int) : List Step → Spec → List (Option Msg) × Spec
  | [], x => ([], x)
  | step :: steps, x =>
    let rest := Spec.runSteps pid steps (x.step pid step).2
    ((x.step pid step).1 :: rest.1, rest.2)

/-- Every step of the run can happen when its turn comes. -/
def Spec.AllAllowed (pid : Int) : List Step → Spec → Prop
  | [], _ => True
  | step :: steps, x => x.Allowed step ∧ Spec.AllAllowed pid steps (x.step pid step).2

/-- The messages a run sends to process `pid`, as they arrive. -/
def sentIn (pid : Int) (steps : List Step) : List Msg :=
  steps.filterMap fun
    | .send m => some { m with dest := pid }
    | _ => none

/-- **A mailbox in order**: the two queues hold every slot once, the messages that wait are those of
`queue`, and the semaphores count them. -/
structure Orderly (b : Mailbox) (queue : List Msg) : Prop where
  slots : ∃ msgs free : List Nat, Ring b.links .msgQueue (msgs.map .msgSpace) ∧
    Ring b.links .freeQueue (free.map .msgSpace) ∧
    (msgs ++ free).Perm (List.range 100) ∧ queue = msgs.map b.msgSpace
  counts : Counts b.token queue b.phase.inside

section Runs

variable {b : Mailbox} {x : Spec} {msgs free : List Nat} {src : Int}

theorem Mirrors.orderly (mirrors : Mirrors b x msgs free) : Orderly b x.queue :=
  ⟨⟨msgs, free, mirrors.rings.msgRing, mirrors.rings.freeRing, mirrors.rings.nodes, mirrors.queue⟩,
    mirrors.counts⟩

theorem Mirrors.runSteps (mirrors : Mirrors b x msgs free) {steps : List Step}
    (allowed : Spec.AllAllowed b.pid steps x) :
    ∃ b', runSteps steps b = some ((Spec.runSteps b.pid steps x).1, b') ∧
      Orderly b' (Spec.runSteps b.pid steps x).2.queue := by
  induction steps generalizing b x msgs free with
  | nil => exact ⟨b, rfl, mirrors.orderly⟩
  | cons step steps ih =>
      obtain ⟨b₁, free₁, run, owner, msgs₁, after⟩ := mirrors.step allowed.1
      have later : Spec.AllAllowed b₁.pid steps (x.step b.pid step).2 := owner ▸ allowed.2
      obtain ⟨b', rest, orderly⟩ := ih after later
      rw [owner] at rest orderly
      refine ⟨b', ?_, orderly⟩
      rw [Process.runSteps, run]
      dsimp only
      rw [rest]
      rfl

/-- A call takes nothing but what it returns. -/
theorem serve_perm : ((x.serve src).1.toList ++ (x.serve src).2.queue).Perm x.queue := by
  cases found : x.queue.find? (wants src) with
  | none =>
      simp only [Spec.serve, found]
      exact List.Perm.refl _
  | some m =>
      obtain ⟨wanted, before, after, split, others⟩ := List.find?_eq_some_iff_append.mp found
      have served := serve_eq x.asked before split wanted fun other member => by
        simpa using others other member
      rw [show x = ⟨x.queue, x.asked⟩ from rfl, served]
      show (m :: (before ++ after)).Perm x.queue
      rw [split]
      exact List.perm_middle.symm

theorem step_perm (pid : Int) (step : Step) :
    ((x.step pid step).1.toList ++ (x.step pid step).2.queue).Perm
      (x.queue ++ sentIn pid [step]) := by
  cases step with
  | send m => exact List.Perm.refl _
  | receive src =>
      rw [show sentIn pid [.receive src] = [] from rfl, List.append_nil]
      exact serve_perm
  | resume =>
      rw [show sentIn pid [.resume] = [] from rfl, List.append_nil]
      cases asked : x.asked with
      | none =>
          simp only [Spec.step, asked]
          exact List.Perm.refl _
      | some src =>
          simp only [Spec.step, asked]
          exact serve_perm

theorem runSteps_perm (pid : Int) (steps : List Step) (x : Spec) :
    ((Spec.runSteps pid steps x).1.filterMap id ++ (Spec.runSteps pid steps x).2.queue).Perm
      (x.queue ++ sentIn pid steps) := by
  induction steps generalizing x with
  | nil =>
      rw [show sentIn pid [] = [] from rfl, List.append_nil]
      exact List.Perm.refl _
  | cons step steps ih =>
      have here := step_perm (x := x) pid step
      have split : sentIn pid (step :: steps) = sentIn pid [step] ++ sentIn pid steps := by
        rw [sentIn, sentIn, sentIn, ← List.filterMap_append]
        rfl
      have outs : (Spec.runSteps pid (step :: steps) x).1.filterMap id
          = (x.step pid step).1.toList ++
            (Spec.runSteps pid steps (x.step pid step).2).1.filterMap id := by
        show ((x.step pid step).1 :: _).filterMap id = _
        rw [List.filterMap_cons]
        cases (x.step pid step).1 with
        | none => rfl
        | some m => rfl
      rw [outs, split, List.append_assoc]
      refine ((ih (x.step pid step).2).append_left _).trans ?_
      rw [← List.append_assoc, ← List.append_assoc]
      exact here.append_right _

/-! ### The empty mailbox -/

theorem createSems_rings {l : Links MsgNode} (msgRing : Ring l .msgQueue [])
    (freeRing : Ring l .freeQueue []) (any : Ring l (.block .any) []) (count : Nat) :
    Ring (createSems count l) .msgQueue [] ∧ Ring (createSems count l) .freeQueue [] ∧
      Ring (createSems count l) (.block .any) [] ∧
      ∀ k, k < count → Ring (createSems count l) (.block (.pid k)) [] := by
  have alone : ∀ {l : Links MsgNode} {h : MsgNode} {k : Nat}, Ring l h [] → h ≠ .block (.pid k) →
      Ring (listInit (.block (.pid k)) l) h [] := fun ring other =>
    ring.frame fun a member => listInit_same _ (by
      rw [List.mem_singleton.mp member]
      exact other)
  induction count with
  | zero => exact ⟨msgRing, freeRing, any, fun k absurd => by omega⟩
  | succ count ih =>
      obtain ⟨msg, free, any, pid⟩ := ih
      refine ⟨alone msg nofun, alone free nofun, alone any nofun, fun k small => ?_⟩
      by_cases here : k = count
      · subst here
        exact ring_init _ _
      · exact alone (pid k (by omega)) (by simpa using here)

theorem freeSlots_rings {l : Links MsgNode} (rings : Ring l .freeQueue []) (count : Nat) :
    Ring (freeSlots count l) .freeQueue ((List.range count).map .msgSpace) ∧
      ∀ a, a ≠ .freeQueue → (∀ i, a ≠ .msgSpace i) → SameAt l (freeSlots count l) a := by
  induction count with
  | zero => exact ⟨rings, fun a _ _ => ⟨rfl, rfl⟩⟩
  | succ count ih =>
      obtain ⟨free, same⟩ := ih
      obtain ⟨added, kept⟩ := free.add (d := .msgSpace count) (by simp)
      rw [List.range_succ, List.map_append]
      refine ⟨added, fun a notHead notSlot => (same a notHead notSlot).trans
        (kept a ?_ (notSlot count))⟩
      intro member
      rcases List.mem_cons.mp member with here | there
      · exact notHead here
      · obtain ⟨i, _, rfl⟩ := List.mem_map.mp there
        exact notSlot i rfl

theorem mirrors_initMsg (b : Mailbox) : Mirrors (initMsg b) ⟨[], none⟩ [] (List.range 100) := by
  have alone : ∀ {l : Links MsgNode} {h : MsgNode} (new : MsgNode), Ring l h [] → h ≠ new →
    Ring (listInit new l) h [] :=
    fun new ring other => ring.frame fun a member => listInit_same _ (by
      rw [List.mem_singleton.mp member]
      exact other)
  have free₀ := ring_init b.links MsgNode.freeQueue
  have msg₀ := ring_init (listInit .freeQueue b.links) MsgNode.msgQueue
  obtain ⟨msg, free, any, pid⟩ := createSems_rings (alone (.block .any) msg₀ nofun)
    (alone _ (alone .msgQueue free₀ nofun) nofun) (ring_init _ _) 51
  obtain ⟨freeRing, same⟩ := freeSlots_rings free 100
  have others : ∀ {h : MsgNode}, Ring (createSems 51 _) h [] → h ≠ .freeQueue →
    (∀ i, h ≠ .msgSpace i) →
      Ring (freeSlots 100 (createSems 51 _)) h [] :=
        fun ring notHead notSlot => ring.frame fun a member => by
    rw [List.mem_singleton.mp member]
    exact same _ notHead notSlot
  refine ⟨⟨others msg nofun (fun _ => nofun), freeRing, List.Perm.refl _, fun s valid => ?_⟩, rfl,
    by simp, ?_, rfl⟩
  · cases s with
    | any => exact others any nofun fun _ => nofun
    | pid k => exact others (pid k (Nat.lt_succ_of_le valid)) nofun fun _ => nofun
  · exact ⟨rfl, fun _ _ => rfl⟩

/-- **The mailbox is correct**: in every interleaving of messages sent to a process with its own
calls of `receive`, no assertion fails, every call returns the oldest message it asks for and is
suspended only while there is none, the queues and the semaphores are in order, and every message is
delivered once or still waits. -/
theorem mailbox_correct (b : Mailbox) {steps : List Step}
    (allowed : Spec.AllAllowed b.pid steps ⟨[], none⟩) :
    ∃ b', runSteps steps (initMsg b) = some ((Spec.runSteps b.pid steps ⟨[], none⟩).1, b') ∧
      Orderly b' (Spec.runSteps b.pid steps ⟨[], none⟩).2.queue ∧
      ((Spec.runSteps b.pid steps ⟨[], none⟩).1.filterMap id ++
        (Spec.runSteps b.pid steps ⟨[], none⟩).2.queue).Perm
        (sentIn b.pid steps) := by
  obtain ⟨b', run, orderly⟩ := (mirrors_initMsg b).runSteps allowed
  exact ⟨b', run, orderly, runSteps_perm b.pid steps ⟨[], none⟩⟩

end Runs

/-- A message from `4` and one from an interrupt come while the owner waits for the interrupt. -/
def interruptRun : List Step :=
  [.receive (-2), .send { src := 4, dest := 0, type := 1, i := fun _ => 0 },
    .send { src := -2, dest := 0, type := 2, i := fun _ => 0 }, .resume, .receive (-1), .receive 7]

/-- A mailbox before `init_msg`. -/
def blankMailbox : Mailbox where
  pid := 3
  links := { prev := fun _ => none, next := fun _ => none }
  msgSpace _ := { src := 0, dest := 0, type := 0, i := fun _ => 0 }
  token _ := 0
  phase := .running

theorem mailbox_correct_interrupt : ∃ b', runSteps interruptRun (initMsg blankMailbox)
      = some ([none, none, none, some { src := -2, dest := 3, type := 2, i := fun _ => 0 },
          some { src := 4, dest := 3, type := 1, i := fun _ => 0 }, none], b') ∧ Orderly b' [] := by
  have allowed : Spec.AllAllowed blankMailbox.pid interruptRun ⟨[], none⟩ :=
    ⟨⟨rfl, .inr (.inl rfl)⟩, ⟨.inr (by decide), by decide⟩, ⟨.inl rfl, by decide⟩,
      ⟨-2, _, rfl, rfl⟩, ⟨rfl, .inl rfl⟩, ⟨rfl, .inr (.inr (by decide))⟩, trivial⟩
  obtain ⟨b', run, orderly, _⟩ := mailbox_correct blankMailbox allowed
  exact ⟨b', run, orderly⟩

end NjuOs.Process
