/-
**The timer's queue of sleepers.**

A sleeper's node holds the seconds it has to wait after the one before it, so a tick only counts
down the first node. `add_time_event` walks along the queue and subtracts, `time_event_proc` takes
the nodes that have come to zero off its front; the nodes move between `wait_queue` and `free_list`.

The links are those of the nodes in memory (`NjuOs.Lib.Ring`); `Queued` says which nodes the two
lists hold, and both operations become operations on the list of waiting nodes (`insertDelta`,
`popZeros`). The second half adds the differences up: `Schedule` ties the queue to the requests made
so far by the tick each is due at, and `wakeups_on_time` says what every tick of a run sends. The
last part follows the nodes: a request that need not wait is answered at once and its node is on
neither list afterwards (`conserved_iff`).
-/

import NjuOs.Lib.Ring

namespace NjuOs.Drivers.Timer

open NjuOs.Lib

/-! ### The model -/

/-- What has a link: the two heads and the nodes of `time_vec`. -/
inductive Node where
  | waitQueue
  | freeList
  | timeVec (i : Nat)
  deriving DecidableEq

/-- `Time_node` without its link: who is waked up, and how many seconds behind the node before it.
-/
structure TimeNode where
  pid : Int
  sec : Int
  deriving DecidableEq

/-- The two lists of the timer, and its nodes. -/
structure State where
  links : Links Node
  timeVec : Nat → TimeNode

/-- Node `i` with another number of seconds. -/
def State.setSec (t : State) (i : Nat) (sec : Int) : State :=
  { t with timeVec := Function.update t.timeVec i { t.timeVec i with sec } }

/-- `list_foreach` of `add_time_event`: where the new node goes. -/
def placeLoop (new : Nat) : Nat → Node → State → Option (Node × State)
  | 0, _, _ => none
  | fuel + 1, .timeVec i, t =>
    if (t.timeVec new).sec < (t.timeVec i).sec then
      some (.timeVec i, t.setSec i ((t.timeVec i).sec - (t.timeVec new).sec))
    else
      match t.links.next (.timeVec i) with
      | none => none
      | some next => placeLoop new fuel
          next (t.setSec new ((t.timeVec new).sec - (t.timeVec i).sec))
  | _ + 1, .waitQueue, t => some (.waitQueue, t)
  | _ + 1, .freeList, _ => none

/-- The end of `add_time_event`, for a node that has been taken off the free list. -/
def enqueue (new : Nat) (t : State) : Option (List Int × State) :=
  match t.links.next .waitQueue with
  | none => none
  | some ptr =>
    (placeLoop new 101 ptr t).map fun place =>
      ([], { place.2 with links := listAddBefore place.1 (.timeVec new) place.2.links })

/-- `add_time_event`: the processes it sends a message to, and the new state. No result where an
assertion fails or there is no free node. -/
def addTimeEvent (pid sec : Int) (t : State) : Option (List Int × State) :=
  match t.links.next .freeList with
  | some (.timeVec new) =>
    match listDel (.timeVec new) t.links with
    | none => none
    | some links =>
      let t := { links, timeVec := Function.update t.timeVec new { pid, sec } }
      if sec ≤ 0 then some ([pid], t) else enqueue new t
  | _ => none

/-- The loop of `time_event_proc`. -/
def popLoop : Nat → Node → State → Option (List Int × State)
  | 0, _, _ => none
  | fuel + 1, .timeVec i, t =>
    if (t.timeVec i).sec = 0 then
      match t.links.next (.timeVec i), listDel (.timeVec i) t.links with
      | some next, some links =>
        (popLoop fuel next { t with links := listAddBefore .freeList (.timeVec i) links }).map
        fun rest =>
          ((t.timeVec i).pid :: rest.1, rest.2)
      | _, _ => none
    else
      some ([], t)
  | _ + 1, .waitQueue, t => some ([], t)
  | _ + 1, .freeList, _ => none

/-- `time_event_proc`: a second has passed; the processes that are waked up. -/
def timeEventProc (t : State) : Option (List Int × State) :=
  if listEmpty .waitQueue t.links then some ([], t)
  else
    match t.links.next .waitQueue with
    | some (.timeVec first) => popLoop 101 (.timeVec first)
        (t.setSec first ((t.timeVec first).sec - 1))
    | _ => none

/-- The loop of `init_wait_list`. -/
def freeNodes : Nat → Links Node → Links Node
  | 0, l => l
  | i + 1, l => listAddBefore .freeList (.timeVec i) (freeNodes i l)

/-- `init_wait_list`: all nodes are free. -/
def initWaitList (t : State) : State :=
  { t with links := freeNodes 100 (listInit .freeList (listInit .waitQueue t.links)) }

/-- What happens to the timer: a request, or a second passes. -/
inductive Event where
  | addTimeEvent (pid sec : Int)
  | tick

/-- What happens at an event: the processes that are waked up, and the timer behind it. -/
def Event.run : Event → State → Option (List Int × State)
  | .addTimeEvent pid sec, t => Timer.addTimeEvent pid sec t
  | .tick, t => timeEventProc t

/-- The messages that each event of a run sends. -/
def run : List Event → State → Option (List (List Int))
  | [], _ => some []
  | event :: events, t =>
    match event.run t with
    | none => none
    | some (sent, t) => (run events t).map (sent :: ·)

/-! ### The queue as a list -/

/-- The list of differences with one node more, behind those that are due earlier or at the same
time. -/
def insertDelta (new : TimeNode) : List TimeNode → List TimeNode
  | [] => [new]
  | node :: rest =>
    if new.sec < node.sec then new :: { node with sec := node.sec - new.sec } :: rest
    else node :: insertDelta { new with sec := new.sec - node.sec } rest

/-- The nodes that come off the front, and those that stay. -/
def popZeros : List TimeNode → List TimeNode × List TimeNode
  | [] => ([], [])
  | node :: rest =>
    if node.sec = 0 then (node :: (popZeros rest).1, (popZeros rest).2) else ([], node :: rest)

/-- One tick of the queue. -/
def tickQueue : List TimeNode → List TimeNode × List TimeNode
  | [] => ([], [])
  | node :: rest => popZeros ({ node with sec := node.sec - 1 } :: rest)

/-- The lists hold these nodes, each once. -/
structure Queued (t : State) (waiting free : List Nat) : Prop where
  waitRing : Ring t.links .waitQueue (waiting.map .timeVec)
  freeRing : Ring t.links .freeList (free.map .timeVec)
  nodes : (waiting ++ free).Perm (List.range 100)

section Queue

variable {t : State} {waiting free : List Nat}

theorem timeVec_injective : Function.Injective Node.timeVec := fun _ _ same => Node.timeVec.inj same

theorem mem_nodes {i : Nat} {is : List Nat} : Node.timeVec i ∈ is.map Node.timeVec ↔ i ∈ is :=
  List.mem_map_of_injective timeVec_injective

theorem Queued.nodup (queued : Queued t waiting free) : (waiting ++ free).Nodup :=
  queued.nodes.nodup_iff.mpr List.nodup_range

theorem Queued.length (queued : Queued t waiting free) : waiting.length + free.length = 100 := by
  rw [← List.length_append, queued.nodes.length_eq, List.length_range]

/-! ### Where a new node goes -/

theorem map_setSec {i : Nat} {sec : Int} {is : List Nat} (outside : i ∉ is) :
    is.map (t.setSec i sec).timeVec = is.map t.timeVec := by
  refine List.map_congr_left fun j member => ?_
  exact Function.update_of_ne (fun same : j = i => outside (same ▸ member)) ..

/-- The loop finds the place of the new node, before the nodes of `kept`. -/
theorem placeLoop_eq {new : Nat} (done : List Nat) {rest : List Nat}
    (ring : Ring t.links .waitQueue ((done ++ rest).map .timeVec)) (fresh : new ∉ rest)
    (distinct : rest.Nodup) {fuel : Nat} (enough : rest.length < fuel) :
    ∃ skipped kept vec, rest = skipped ++ kept ∧
      placeLoop new fuel ((rest.map Node.timeVec).headD .waitQueue) t
        = some ((kept.map Node.timeVec).headD .waitQueue, { t with timeVec := vec }) ∧
      (skipped ++ new :: kept).map vec = insertDelta (t.timeVec new) (rest.map t.timeVec) ∧
      ∀ i, i ∉ new :: rest → vec i = t.timeVec i := by
  induction rest generalizing done t fuel with
  | nil =>
      obtain ⟨fuel, rfl⟩ : ∃ k, fuel = k + 1 := ⟨fuel - 1, by simp at enough; omega⟩
      exact ⟨[], [], t.timeVec, rfl, rfl, rfl, fun _ _ => rfl⟩
  | cons i rest ih =>
      obtain ⟨fuel, rfl⟩ : ∃ k, fuel = k + 1 := ⟨fuel - 1, by simp at enough; omega⟩
      obtain ⟨other, fresh⟩ := not_or.mp (List.mem_cons.not.mp fresh)
      obtain ⟨once, distinct⟩ := List.nodup_cons.mp distinct
      show ∃ skipped kept vec, _ ∧ placeLoop new (fuel + 1) (.timeVec i) t = _ ∧ _
      unfold placeLoop
      by_cases less : (t.timeVec new).sec < (t.timeVec i).sec
      · rw [if_pos less]
        refine ⟨[], i :: rest, _, rfl, rfl, ?_, fun j outside => ?_⟩
        · rw [List.map_cons, insertDelta, if_pos less]
          show _ :: _ :: rest.map (t.setSec i _).timeVec = _
          rw [map_setSec once, Function.update_of_ne other, Function.update_self]
        · exact Function.update_of_ne (fun same => outside (by simp [same])) ..
      · rw [if_neg less]
        have next : t.links.next (.timeVec i) =
            some ((rest.map Node.timeVec).headD .waitQueue) := by
          rw [List.map_append, List.map_cons] at ring
          exact ring.next_of
        rw [next]
        have moved : Ring (t.setSec new ((t.timeVec new).sec - (t.timeVec i).sec)).links .waitQueue
            (((done ++ [i]) ++ rest).map .timeVec) := by
          rw [List.append_assoc]
          exact ring
        obtain ⟨skipped, kept, vec, rfl, found, values, same⟩ :=
          ih (done ++ [i]) moved fresh distinct (by simpa using enough)
        refine ⟨i :: skipped, kept, vec, rfl, found, ?_, fun j outside => ?_⟩
        · have value : vec i = t.timeVec i := by
            rw [same i (by simp [Ne.symm other, once])]
            exact Function.update_of_ne (Ne.symm other) ..
          rw [List.map_cons, insertDelta, if_neg less, List.cons_append, List.map_cons, value,
            values, map_setSec fresh]
          congr 2
          exact Function.update_self ..
        · obtain ⟨notNew, outside⟩ := not_or.mp (List.mem_cons.not.mp outside)
          rw [same j
            (by
              simp only [List.mem_cons, not_or];
              exact ⟨notNew, fun here => outside (List.mem_cons_of_mem _ here)⟩)]
          exact Function.update_of_ne notNew ..

/-! ### The nodes move between the lists -/

/-- A change of the links that stays at one list leaves the other alone. -/
theorem ring_apart {l l' : Links Node} {head : Node} {is : List Nat}
    (ring : Ring l head (is.map .timeVec)) (other : Node) (js : List Nat) (heads : head ≠ other)
    (isHead : ∀ i, head ≠ .timeVec i) (isOther : ∀ i, other ≠ .timeVec i) (apart : ∀ i ∈ is, i ∉ js)
    (same : ∀ a, a ∉ other :: js.map .timeVec → SameAt l l' a) :
    Ring l' head (is.map .timeVec) := by
  refine ring.frame fun a member => same a fun there => ?_
  rcases List.mem_cons.mp member with rfl | member
  · rcases List.mem_cons.mp there with there | there
    · exact heads there
    · obtain ⟨i, _, here⟩ := List.mem_map.mp there
      exact isHead i here.symm
  · obtain ⟨i, inside, rfl⟩ := List.mem_map.mp member
    rcases List.mem_cons.mp there with there | there
    · exact isOther i there.symm
    · exact apart i inside (mem_nodes.mp there)

/-- The first free node is taken. -/
theorem Queued.take {new : Nat} (queued : Queued t waiting (new :: free)) :
    ∃ links, listDel (.timeVec new) t.links = some links ∧
    Ring links .waitQueue (waiting.map .timeVec) ∧
      Ring links .freeList (free.map .timeVec) := by
  obtain ⟨links, taken, freeRing, same⟩ := queued.freeRing.del_first
  refine ⟨links, taken, ?_, freeRing⟩
  have apart := (List.nodup_append.mp queued.nodup).2.2
  exact ring_apart queued.waitRing .freeList free (by decide) (fun _ => nofun) (fun _ => nofun)
    (fun i member there => apart i member i (List.mem_cons_of_mem _ there) rfl) same

/-- **A request on the queue as a list.** -/
theorem Queued.addTimeEvent {new : Nat} (queued : Queued t waiting (new :: free)) (pid : Int)
    {sec : Int} (positive : 0 < sec) :
    ∃ t' waiting', addTimeEvent pid sec t = some ([], t') ∧ Queued t' waiting' free ∧
      waiting'.map t'.timeVec = insertDelta ⟨pid, sec⟩ (waiting.map t.timeVec) := by
  have nodup := queued.nodup
  rw [List.nodup_append] at nodup
  obtain ⟨distinct, freeDistinct, apart⟩ := nodup
  have fresh : new ∉ waiting := fun member => apart new member new List.mem_cons_self rfl
  have newFree : new ∉ free := (List.nodup_cons.mp freeDistinct).1
  have small := queued.length
  rw [List.length_cons] at small
  obtain ⟨links, taken, waitRing, freeRing⟩ := queued.take
  generalize vec₁ : Function.update t.timeVec new { pid, sec } = vec
  have newValue : vec new = { pid, sec } := by rw [← vec₁, Function.update_self]
  have oldValues : waiting.map vec = waiting.map t.timeVec := by
    refine List.map_congr_left fun i member => ?_
    rw [← vec₁, Function.update_of_ne fun same : i = new => fresh (same ▸ member)]
  obtain ⟨skipped, kept, vec', rfl, found, values, _⟩ :=
    placeLoop_eq (t := ⟨links, vec⟩) [] waitRing fresh
    distinct (show waiting.length < 101 by omega)
  rw [List.map_append] at waitRing
  obtain ⟨inserted, same⟩ := Ring.insert (d := .timeVec new) _ _ waitRing (by
    rw [← List.map_append, List.mem_cons, mem_nodes]
    simpa using fresh)
  rw [← List.map_append] at waitRing
  rw [← List.map_append] at same
  refine ⟨⟨listAddBefore ((kept.map Node.timeVec).headD .waitQueue) (.timeVec new) links, vec'⟩,
    skipped ++ new :: kept, ?_, ⟨?_, ?_, ?_⟩, ?_⟩
  · have first : t.links.next .freeList = some (.timeVec new) := queued.freeRing.next_head
    have start : links.next .waitQueue = some _ := waitRing.next_head
    simp only [Timer.addTimeEvent, first, taken, if_neg (show ¬ sec ≤ 0 by omega), vec₁, enqueue,
      start, found, Option.map_some]
  · rw [List.map_append, List.map_cons]
    exact inserted
  · refine ring_apart freeRing .waitQueue (new :: (skipped ++ kept)) (by decide) (fun _ => nofun)
      (fun _ => nofun) ?_ fun a outside => same a ?_ ?_
    · intro i member there
      rcases List.mem_cons.mp there with rfl | there
      · exact newFree member
      · exact apart i there i (List.mem_cons_of_mem _ member) rfl
    · intro here
      rcases List.mem_cons.mp here with rfl | here
      · exact outside List.mem_cons_self
      · exact outside (List.mem_cons_of_mem _ (List.mem_cons_of_mem _ here))
    · rintro rfl
      exact outside (by simp)
  · have moved : (skipped ++ new :: kept ++ free).Perm (skipped ++ kept ++ new :: free) := by
      rw [List.append_assoc, List.append_assoc, List.cons_append]
      exact List.Perm.append_left _ List.perm_middle.symm
    exact moved.trans queued.nodes
  · refine values.trans ?_
    show insertDelta (vec new) ((skipped ++ kept).map vec) = _
    rw [newValue, oldValues]

/-- The loop of a tick, on the queue as a list. -/
theorem Queued.popLoop (queued : Queued t waiting free) {fuel : Nat}
    (enough : waiting.length < fuel) :
    ∃ t' waiting' free', popLoop fuel ((waiting.map Node.timeVec).headD .waitQueue) t
        = some ((popZeros (waiting.map t.timeVec)).1.map TimeNode.pid, t') ∧
        Queued t' waiting' free' ∧
      waiting'.map t'.timeVec = (popZeros (waiting.map t.timeVec)).2 := by
  induction waiting generalizing t free fuel with
  | nil =>
      obtain ⟨fuel, rfl⟩ : ∃ k, fuel = k + 1 := ⟨fuel - 1, by simp at enough; omega⟩
      exact ⟨t, [], free, rfl, queued, rfl⟩
  | cons i waiting ih =>
      obtain ⟨fuel, rfl⟩ : ∃ k, fuel = k + 1 := ⟨fuel - 1, by simp at enough; omega⟩
      show ∃ t' waiting' free', Timer.popLoop (fuel + 1) (.timeVec i) t = _ ∧ _
      unfold Timer.popLoop
      rw [List.map_cons, popZeros]
      by_cases zero : (t.timeVec i).sec = 0
      swap
      · rw [if_neg zero, if_neg zero]
        exact ⟨t, i :: waiting, free, rfl, queued, rfl⟩
      rw [if_pos zero, if_pos zero]
      have nodup := queued.nodup
      rw [List.cons_append, List.nodup_cons, List.nodup_append] at nodup
      obtain ⟨once, distinct, _, apart⟩ := nodup
      rw [List.mem_append, not_or] at once
      obtain ⟨links, taken, waitRing, same⟩ := queued.waitRing.del_first
      have freeRing : Ring links .freeList (free.map .timeVec) :=
        ring_apart queued.freeRing .waitQueue waiting (by decide) (fun _ => nofun) (fun _ => nofun)
          (fun j member there => apart j there j member rfl) same
      obtain ⟨added, kept⟩ := freeRing.add (d := .timeVec i) (by
        rw [List.mem_cons, mem_nodes]
        simpa using once.2)
      have next : t.links.next (.timeVec i) = some ((waiting.map Node.timeVec).headD .waitQueue) :=
        (show Ring t.links .waitQueue ([] ++ .timeVec i :: waiting.map .timeVec)
          from queued.waitRing).next_of
      have after : Queued { t with links := listAddBefore .freeList (.timeVec i) links } waiting
          (free ++ [i]) := by
        refine ⟨?_, ?_, ?_⟩
        · refine ring_apart waitRing .freeList (i :: free) (by decide) (fun _ => nofun)
            (fun _ => nofun)
            ?_ fun a outside => kept a ?_ ?_
          · intro j member there
            rcases List.mem_cons.mp there with rfl | there
            · exact once.1 member
            · exact apart j member j there rfl
          · intro here
            rcases List.mem_cons.mp here with rfl | here
            · exact outside List.mem_cons_self
            · exact outside (List.mem_cons_of_mem _ (List.mem_cons_of_mem _ here))
          · rintro rfl
            exact outside (by simp)
        · rw [List.map_append]
          exact added
        · refine List.Perm.trans ?_ queued.nodes
          rw [← List.append_assoc]
          exact List.perm_append_singleton i (waiting ++ free)
      obtain ⟨t', waiting', free', run, queued', values⟩ := ih after (by simpa using enough)
      refine ⟨t', waiting', free', ?_, queued', values⟩
      rw [next, taken]
      dsimp only
      rw [run]
      rfl

/-- **A tick on the queue as a list.** -/
theorem Queued.timeEventProc (queued : Queued t waiting free) :
    ∃ t' waiting' free', timeEventProc t =
      some ((tickQueue (waiting.map t.timeVec)).1.map TimeNode.pid, t') ∧
      Queued t' waiting' free' ∧
      waiting'.map t'.timeVec = (tickQueue (waiting.map t.timeVec)).2 := by
  unfold Timer.timeEventProc
  cases waiting with
  | nil =>
      rw [if_pos (queued.waitRing.listEmpty_iff.mpr rfl)]
      exact ⟨t, [], free, rfl, queued, rfl⟩
  | cons first waiting =>
      have nonempty : ¬ listEmpty .waitQueue t.links = true := fun empty =>
        List.cons_ne_nil _ _ (queued.waitRing.listEmpty_iff.mp empty)
      rw [if_neg nonempty, queued.waitRing.next_head]
      have small := queued.length
      have once : first ∉ waiting := by
        have nodup := queued.nodup
        rw [List.cons_append, List.nodup_cons] at nodup
        exact fun member => nodup.1 (List.mem_append_left _ member)
      have counted : Queued (t.setSec first ((t.timeVec first).sec - 1)) (first :: waiting) free :=
        ⟨queued.waitRing, queued.freeRing, queued.nodes⟩
      have loop := counted.popLoop (show (first :: waiting).length < 101 by omega)
      simp only [List.map_cons, map_setSec once] at loop
      have value : (t.setSec first ((t.timeVec first).sec - 1)).timeVec first
          = { t.timeVec first with sec := (t.timeVec first).sec - 1 } := Function.update_self ..
      rw [value] at loop
      exact loop

end Queue

/-! ### When each node is due -/

/-- The processes of a queue, with the ticks they are woken at. -/
def dues (now : Int) : List TimeNode → List (Int × Int)
  | [] => []
  | node :: rest => (node.pid, now + node.sec) :: dues (now + node.sec) rest

/-- The differences are what they should be: none is negative, and the first is not zero. -/
structure Ordered (queue : List TimeNode) : Prop where
  all : ∀ node ∈ queue, 0 ≤ node.sec
  first : ∀ node ∈ queue.head?, 0 < node.sec

/-- **The queue holds the requests that are not due yet**, those of one tick in the order they were
made. -/
structure Schedule (now : Int) (queue : List TimeNode) (requests : List (Int × Int)) : Prop where
  ordered : Ordered queue
  due : ∀ n, now < n → (dues now queue).filter (·.2 = n) = requests.filter (·.2 = n)

section Schedule

variable {now n : Int} {queue : List TimeNode} {requests : List (Int × Int)}

theorem dues_ge (all : ∀ node ∈ queue, 0 ≤ node.sec) : ∀ due ∈ dues now queue, now ≤ due.2 := by
  induction queue generalizing now with
  | nil => simp [dues]
  | cons node rest ih =>
      have here := all node List.mem_cons_self
      intro due member
      rcases List.mem_cons.mp member with rfl | later
      · show now ≤ now + node.sec
        omega
      · have := ih (fun other inside => all other (List.mem_cons_of_mem _ inside)) due later
        omega

/-- Nothing of a queue is due before its first node. -/
theorem dues_filter_before (all : ∀ node ∈ queue, 0 ≤ node.sec) (before : n < now) :
    (dues now queue).filter (·.2 = n) = [] := by
  rw [List.filter_eq_nil_iff]
  intro due member
  have := dues_ge all due member
  simp
  omega

theorem insertDelta_all {new : TimeNode} (nonneg : 0 ≤ new.sec)
    (all : ∀ node ∈ queue, 0 ≤ node.sec) :
    ∀ node ∈ insertDelta new queue, 0 ≤ node.sec := by
  induction queue generalizing new with
  | nil => simpa [insertDelta] using nonneg
  | cons node rest ih =>
      have here := all node List.mem_cons_self
      have later : ∀ other ∈ rest, 0 ≤ other.sec :=
        fun other inside => all other (List.mem_cons_of_mem _ inside)
      unfold insertDelta
      split
      · intro other member
        simp only [List.mem_cons] at member
        rcases member with rfl | rfl | inside
        · exact nonneg
        · show 0 ≤ node.sec - new.sec
          omega
        · exact later other inside
      · intro other member
        rcases List.mem_cons.mp member with rfl | inside
        · exact here
        · exact ih (show 0 ≤ new.sec - node.sec by omega) later other inside

theorem Ordered.insertDelta (ordered : Ordered queue) {new : TimeNode} (positive : 0 < new.sec) :
    Ordered (insertDelta new queue) := by
  refine ⟨insertDelta_all (by omega) ordered.all, ?_⟩
  cases queue with
  | nil => simpa [Timer.insertDelta] using positive
  | cons node rest =>
      have here : 0 < node.sec := ordered.first node rfl
      unfold Timer.insertDelta
      split
      · simpa using positive
      · simpa using here

/-- A new node comes behind those of its tick, and no other moves. -/
theorem dues_insertDelta {new : TimeNode} (all : ∀ node ∈ queue, 0 ≤ node.sec) :
    (dues now (insertDelta new queue)).filter (·.2 = n)
      = (dues now queue).filter (·.2 = n) ++ [(new.pid, now + new.sec)].filter (·.2 = n) := by
  induction queue generalizing now new with
  | nil => rfl
  | cons node rest ih =>
      have later : ∀ other ∈ rest, 0 ≤ other.sec :=
        fun other inside => all other (List.mem_cons_of_mem _ inside)
      unfold insertDelta
      split
      · case isTrue less =>
          have same : now + new.sec + (node.sec - new.sec) = now + node.sec := by omega
          have text : dues now (new :: { node with sec := node.sec - new.sec } :: rest)
              = [(new.pid, now + new.sec)] ++ dues now (node :: rest) := by
            simp only [dues, same, List.singleton_append]
          rw [text, List.filter_append]
          by_cases due : now + new.sec = n
          · have none : (dues now (node :: rest)).filter (·.2 = n) = [] := by
              rw [dues, List.filter_cons_of_neg (by simp; omega)]
              exact dues_filter_before later (by omega)
            rw [none, List.append_nil, List.nil_append]
          · have none : [(new.pid, now + new.sec)].filter (·.2 = n) = [] := by simp [due]
            rw [none, List.append_nil, List.nil_append]
      · have same : now + node.sec + (new.sec - node.sec) = now + new.sec := by omega
        simp only [dues]
        rw [List.filter_cons, List.filter_cons, ih later]
        simp only [same]
        split
        · rfl
        · rfl

/-- What comes off the front is what is due now; the rest stays due when it was. -/
theorem popZeros_spec (now : Int) (all : ∀ node ∈ queue, 0 ≤ node.sec) :
    (popZeros queue).1.map (fun node => (node.pid, now)) = (dues now queue).filter (·.2 = now) ∧
      (∀ n, now < n →
        (dues now (popZeros queue).2).filter (·.2 = n) = (dues now queue).filter (·.2 = n)) ∧
      Ordered (popZeros queue).2 := by
  induction queue with
  | nil => exact ⟨rfl, fun _ _ => rfl, ⟨by simp [popZeros], by simp [popZeros]⟩⟩
  | cons node rest ih =>
      have here := all node List.mem_cons_self
      have later : ∀ other ∈ rest, 0 ≤ other.sec :=
        fun other inside => all other (List.mem_cons_of_mem _ inside)
      unfold popZeros
      by_cases zero : node.sec = 0
      · obtain ⟨popped, kept, ordered⟩ := ih later
        rw [if_pos zero]
        refine ⟨?_, fun n after => ?_, ordered⟩
        · rw [List.map_cons, popped, dues, zero, Int.add_zero, List.filter_cons_of_pos (by simp)]
        · rw [dues, zero, Int.add_zero, List.filter_cons_of_neg (by simp; omega)]
          exact kept n after
      · rw [if_neg zero]
        refine ⟨?_, fun _ _ => rfl, ⟨all, fun other first => ?_⟩⟩
        · rw [dues, List.filter_cons_of_neg (by simp; omega), dues_filter_before later (by omega)]
          rfl
        · obtain rfl : node = other := by simpa using first
          omega

/-! ### Requests and ticks -/

theorem Schedule.add (schedule : Schedule now queue requests) (pid : Int) {sec : Int}
    (positive : 0 < sec) :
    Schedule now (insertDelta ⟨pid, sec⟩ queue) (requests ++ [(pid, now + sec)]) where
  ordered := schedule.ordered.insertDelta positive
  due n after := by
    rw [dues_insertDelta schedule.ordered.all, List.filter_append, schedule.due n after]

theorem Schedule.tick (schedule : Schedule now queue requests) :
    (tickQueue queue).1.map TimeNode.pid = (requests.filter (·.2 = now + 1)).map Prod.fst ∧
      Schedule (now + 1) (tickQueue queue).2 requests := by
  cases queue with
  | nil =>
      have none := schedule.due (now + 1) (by omega)
      refine ⟨?_, ⟨by simp [tickQueue], by simp [tickQueue]⟩,
        fun n after => schedule.due n (by omega)⟩
      rw [← none]
      rfl
  | cons node rest =>
      have positive : 0 < node.sec := schedule.ordered.first node rfl
      have all : ∀ other ∈ ({ node with sec := node.sec - 1 } : TimeNode) :: rest, 0 ≤
          other.sec := by
        intro other member
        rcases List.mem_cons.mp member with rfl | inside
        · show 0 ≤ node.sec - 1
          omega
        · exact schedule.ordered.all other (List.mem_cons_of_mem _ inside)
      have same : dues (now + 1) ({ node with sec := node.sec - 1 } :: rest) =
          dues now (node :: rest) := by
        have shift : now + 1 + (node.sec - 1) = now + node.sec := by omega
        simp only [dues, shift]
      obtain ⟨popped, kept, ordered⟩ := popZeros_spec (now + 1) all
      rw [same] at popped kept
      refine ⟨?_, ordered, fun n after => (kept n after).trans (schedule.due n (by omega))⟩
      rw [← schedule.due (now + 1) (by omega), ← popped, List.map_map]
      rfl

/-- The requests that are not due yet. -/
def pending (now : Int) (requests : List (Int × Int)) : List (Int × Int) :=
  requests.filter (now < ·.2)

/-- The queue is as long as it should be. -/
theorem Schedule.length (schedule : Schedule now queue requests) :
    queue.length = (pending now requests).length := by
  have all : ∀ due ∈ dues now queue, now < due.2 := by
    intro due member
    cases queue with
    | nil => simp [dues] at member
    | cons node rest =>
        have positive : 0 < node.sec := schedule.ordered.first node rfl
        rcases List.mem_cons.mp member with rfl | inside
        · show now < now + node.sec
          omega
        · have := dues_ge (fun other later => schedule.ordered.all other
            (List.mem_cons_of_mem _ later)) due inside
          omega
  have same : (dues now queue).Perm (pending now requests) := by
    rw [List.perm_iff_count]
    intro due
    by_cases after : now < due.2
    · have counted :
          ∀ l : List (Int × Int), List.count due l = List.count due (l.filter (·.2 = due.2)) := by
        intro l
        rw [List.count_filter (by simp)]
      rw [counted (dues now queue), schedule.due due.2 after, ← counted, pending,
        List.count_filter (by simpa using after)]
    · rw [List.count_eq_zero_of_not_mem fun member => after (all due member),
        List.count_eq_zero_of_not_mem]
      intro member
      exact after (by simpa using (List.mem_filter.mp member).2)
  have lengths : ∀ (now : Int) (q : List TimeNode), (dues now q).length = q.length := by
    intro now q
    induction q generalizing now with
    | nil => rfl
    | cons node rest ih => exact congrArg (· + 1) (ih _)
  rw [← lengths now, same.length_eq]

end Schedule

/-! ### Runs -/

/-- The requests of a run after tick `now`, each with the tick it is due at. -/
def requests (now : Int) : List Event → List (Int × Int)
  | [] => []
  | .addTimeEvent pid sec :: events => (pid, now + sec) :: requests now events
  | .tick :: events => requests (now + 1) events

/-- What each event of a run should send: a request nothing, a tick the messages to all that are
due, in the order of their requests. -/
def expected (all : List (Int × Int)) (now : Int) : List Event → List (List Int)
  | [] => []
  | .addTimeEvent _ _ :: events => [] :: expected all now events
  | .tick :: events => (all.filter (·.2 = now + 1)).map Prod.fst :: expected all (now + 1) events

/-- Every request is for a positive time, and finds a free node: fewer than a hundred are
pending. -/
def Fits : Int → List (Int × Int) → List Event → Prop
  | _, _, [] => True
  | now, past, .addTimeEvent pid sec :: events =>
    0 < sec ∧ (pending now past).length < 100 ∧ Fits now (past ++ [(pid, now + sec)]) events
  | now, past, .tick :: events => Fits (now + 1) past events

instance Fits.decidable :
    ∀ (now : Int) (past : List (Int × Int)) (events : List Event), Decidable (Fits now past events)
  | _, _, [] => inferInstanceAs (Decidable True)
  | now, past, .addTimeEvent pid sec :: events =>
    have :=
  Fits.decidable now (past ++ [(pid, now + sec)]) events
    inferInstanceAs (Decidable (_ ∧ _ ∧ _))
  | now, past, .tick :: events => Fits.decidable (now + 1) past events

/-- A request made later is due later. -/
theorem requests_after {now n : Int} {past : List (Int × Int)} {events : List Event}
    (fits : Fits now past events) (early : n ≤ now) :
    (requests now events).filter (·.2 = n) = [] := by
  induction events generalizing now past with
  | nil => rfl
  | cons event events ih =>
      cases event with
      | addTimeEvent pid sec =>
          obtain ⟨positive, _, fits⟩ := fits
          rw [requests, List.filter_cons_of_neg (by simp; omega)]
          exact ih fits early
      | tick => exact ih fits (by omega)

theorem run_eq {now : Int} {past : List (Int × Int)} {events : List Event} {t : State}
    {waiting free : List Nat} (fits : Fits now past events) (queued : Queued t waiting free)
    (schedule : Schedule now (waiting.map t.timeVec) past) :
    run events t = some (expected (past ++ requests now events) now events) := by
  induction events generalizing now past t waiting free with
  | nil => rfl
  | cons event events ih =>
      cases event with
      | addTimeEvent pid sec =>
          obtain ⟨positive, room, fits⟩ := fits
          have total := queued.length
          rw [← schedule.length, List.length_map] at room
          obtain ⟨new, rest, rfl⟩ := List.exists_cons_of_ne_nil (show free ≠ [] by
            rintro rfl
            rw [List.length_nil] at total
            omega)
          obtain ⟨t', waiting', ran, queued', values⟩ := queued.addTimeEvent pid positive
          have later := schedule.add pid positive
          rw [← values] at later
          rw [run, Event.run, ran]
          dsimp only
          rw [ih fits queued' later, requests, List.append_assoc]
          rfl
      | tick =>
          have fits : Fits (now + 1) past events := fits
          obtain ⟨t', waiting', free', ran, queued', values⟩ := queued.timeEventProc
          obtain ⟨sent, later⟩ := schedule.tick
          rw [← values] at later
          rw [run, Event.run, ran]
          dsimp only
          rw [ih fits queued' later, sent, requests, expected, List.filter_append,
            requests_after fits (Int.le_refl (now + 1)), List.append_nil]
          rfl

theorem freeNodes_rings {l : Links Node} (wait : Ring l .waitQueue []) (free : Ring l .freeList [])
    (count : Nat) :
    Ring (freeNodes count l) .waitQueue [] ∧
    Ring (freeNodes count l) .freeList ((List.range count).map .timeVec) := by
  induction count with
  | zero => exact ⟨wait, free⟩
  | succ count ih =>
      obtain ⟨wait, free⟩ := ih
      obtain ⟨added, same⟩ := free.add (d := .timeVec count) (by
        rw [List.mem_cons, mem_nodes]
        simp)
      rw [List.range_succ, List.map_append]
      refine ⟨wait.frame fun a member => same a ?_ ?_, added⟩
      · rw [List.mem_singleton.mp member]
        simp
      · rw [List.mem_singleton.mp member]
        simp

theorem queued_init (t : State) : Queued (initWaitList t) [] (List.range 100) := by
  have wait : Ring (listInit .freeList (listInit .waitQueue t.links)) .waitQueue [] :=
    (ring_init t.links .waitQueue).frame fun a member => listInit_same _ (by
      rw [List.mem_singleton.mp member]
      decide)
  obtain ⟨waitRing, freeRing⟩ := freeNodes_rings wait (ring_init _ _) 100
  exact ⟨waitRing, freeRing, List.Perm.refl _⟩

/-- **Sleepers are woken on time**: in every run of requests and ticks, a request for `sec` seconds
that is accepted after tick `t` gets its message at tick `t + sec` and at no other, and those of one
tick get theirs in the order of the requests. -/
theorem wakeups_on_time (t : State) {events : List Event} (fits : Fits 0 [] events) :
    run events (initWaitList t) = some (expected (requests 0 events) 0 events) :=
  run_eq fits (queued_init t) ⟨⟨by simp, by simp⟩, fun _ _ => rfl⟩

/-- Memory before `init_wait_list`. -/
def blankState : State where
  links := { prev := fun _ => none, next := fun _ => none }
  timeVec _ := { pid := 0, sec := 0 }

/-- Two requests for the second tick, made in different seconds. -/
theorem wakeups_on_time_tie :
    run [.addTimeEvent 3 2, .addTimeEvent 4 1, .tick, .addTimeEvent 5 1, .tick, .tick]
      (initWaitList blankState)
      = some [[], [], [4], [], [3, 5], []] :=
  wakeups_on_time blankState (by decide)

/-! ### The nodes of a run -/

/-- The state after a run. -/
def after (events : List Event) (t : State) : Option State :=
  events.foldlM (fun t event => (event.run t).map Prod.snd) t

/-- The seconds that pass in a run. -/
def ticks : List Event → Int
  | [] => 0
  | .addTimeEvent _ _ :: events => ticks events
  | .tick :: events => ticks events + 1

/-- At most a hundred sleepers are pending at any time. -/
def Bounded (events : List Event) : Prop :=
  ∀ part, part <+: events → (pending (ticks part) (requests 0 part)).length ≤ 100

/-- **Conservation**: at every moment of the run each node is on one of the two lists, and no
request has failed for want of a node. -/
def Conserved (events : List Event) (t : State) : Prop :=
  ∀ part, part <+: events → ∃ t' waiting free, after part t = some t' ∧ Queued t' waiting free

section Nodes

variable {t t' : State} {waiting free : List Nat} {events : List Event} {event : Event}

theorem after_concat (events : List Event) (event : Event) (t : State) :
    after (events ++ [event]) t = (after events t).bind fun t => (event.run t).map Prod.snd := by
  unfold after
  rw [List.foldlM_append]
  congr 1
  funext t
  exact (List.foldlM_cons ..).trans (Option.bind_fun_some _)

theorem ticks_append (first second : List Event) :
    ticks (first ++ second) = ticks first + ticks second := by
  induction first with
  | nil => simp [ticks]
  | cons event first ih =>
      cases event with
      | addTimeEvent pid sec => exact ih
      | tick =>
          simp only [List.cons_append, ticks, ih]
          omega

theorem requests_append (now : Int) (first second : List Event) :
    requests now (first ++ second) = requests now first ++ requests (now + ticks first) second := by
  induction first generalizing now with
  | nil => simp [requests, ticks]
  | cons event first ih =>
      cases event with
      | addTimeEvent pid sec => simp only [List.cons_append, requests, ticks, ih]
      | tick =>
          have same : now + 1 + ticks first = now + (ticks first + 1) := by omega
          simp only [List.cons_append, requests, ticks, ih, same]

/-- **A request that need not wait loses its node**: `add_time_event` has taken it off the free list
before it looks at the seconds, and returns. -/
theorem Queued.lost (queued : Queued t waiting free) {pid sec : Int} (early : sec ≤ 0)
    {sent : List Int} (ran : Timer.addTimeEvent pid sec t = some (sent, t')) :
    ¬ ∃ waiting' free', Queued t' waiting' free' := by
  cases free with
  | nil => simp [Timer.addTimeEvent, queued.freeRing.next_head] at ran
  | cons new free =>
      obtain ⟨links, taken, waitRing, freeRing⟩ := queued.take
      have first : t.links.next .freeList = some (.timeVec new) := queued.freeRing.next_head
      simp only [Timer.addTimeEvent, first, taken, if_pos early, Option.some.injEq,
        Prod.mk.injEq] at ran
      obtain ⟨-, rfl⟩ := ran
      rintro ⟨waiting', free', queued'⟩
      have sameWaiting := waitRing.unique queued'.waitRing
      have sameFree := freeRing.unique queued'.freeRing
      have total := queued.length
      have total' := queued'.length
      replace sameWaiting := congrArg List.length sameWaiting
      replace sameFree := congrArg List.length sameFree
      simp only [List.length_map, List.length_cons] at *
      omega

/-- Requests that have to wait keep the nodes on the lists. -/
theorem after_queued (bounded : Bounded events)
    (positive : ∀ pid sec, .addTimeEvent pid sec ∈ events → 0 < sec) :
    ∃ t' waiting free, after events (initWaitList t) = some t' ∧ Queued t' waiting free ∧
      Schedule (ticks events) (waiting.map t'.timeVec) (requests 0 events) := by
  induction events using List.reverseRecOn with
  | nil => exact ⟨_, [], _, rfl, queued_init t, ⟨⟨by simp, by simp⟩, fun _ _ => rfl⟩⟩
  | append_singleton events event ih =>
      obtain ⟨t', waiting, free, ran, queued, schedule⟩ := ih
        (fun part initial => bounded part (initial.trans (List.prefix_append _ _)))
        (fun pid sec member => positive pid sec (List.mem_append_left _ member))
      rw [after_concat, ran, Option.bind_some, ticks_append, requests_append, Int.zero_add]
      cases event with
      | addTimeEvent pid sec =>
          have waits : 0 < sec := positive pid sec (by simp)
          have room := bounded _ List.prefix_rfl
          have later := schedule.add pid waits
          rw [ticks_append, requests_append, Int.zero_add] at room
          have total := queued.length
          simp only [requests, ticks, Int.add_zero] at room ⊢
          rw [pending, List.filter_append, List.length_append,
            List.filter_cons_of_pos (by simp; omega)] at room
          change (pending (ticks events) (requests 0 events)).length + 1 ≤ 100 at room
          rw [← schedule.length, List.length_map] at room
          obtain ⟨new, rest, rfl⟩ := List.exists_cons_of_ne_nil (show free ≠ [] by
            rintro rfl
            rw [List.length_nil] at total
            omega)
          obtain ⟨t'', waiting', accepted, queued', values⟩ := queued.addTimeEvent pid waits
          rw [← values] at later
          exact ⟨t'', waiting', rest, by rw [Event.run, accepted]; rfl, queued', later⟩
      | tick =>
          obtain ⟨t'', waiting', free', passed, queued', values⟩ := queued.timeEventProc
          have later := schedule.tick.2
          rw [← values] at later
          simp only [requests, ticks, List.append_nil]
          exact ⟨t'', waiting', free',
            by rw [Event.run, passed]; rfl, queued', by simpa using later⟩

/-- **No node is lost exactly when every request is for a positive time.** -/
theorem conserved_iff (t : State) (bounded : Bounded events) :
    Conserved events (initWaitList t) ↔ ∀ pid sec, .addTimeEvent pid sec ∈ events → 0 < sec := by
  constructor
  · intro conserved pid sec member
    by_contra early
    obtain ⟨before, rest, rfl⟩ := List.append_of_mem member
    obtain ⟨t₁, waiting, free, ran, queued⟩ := conserved before (List.prefix_append _ _)
    obtain ⟨t₂, waiting', free', ran', queued'⟩ :=
      conserved (before ++ [.addTimeEvent pid sec]) (by simp)
    rw [after_concat, ran, Option.bind_some, Option.map_eq_some_iff] at ran'
    obtain ⟨⟨sent, _⟩, step, rfl⟩ := ran'
    exact queued.lost (by omega) step ⟨waiting', free', queued'⟩
  · intro positive part initial
    obtain ⟨t', waiting, free, ran, queued, -⟩ := after_queued (t := t)
      (fun shorter first => bounded shorter (first.trans initial))
      (fun pid sec member => positive pid sec (initial.subset member))
    exact ⟨t', waiting, free, ran, queued⟩

/-- A short run stays within bounds. -/
theorem bounded_of_length (short : events.length ≤ 100) : Bounded events := by
  have fewer : ∀ (events : List Event) (now : Int), (requests now events).length ≤
      events.length := by
    intro events
    induction events with
    | nil => exact fun _ => Nat.le_refl 0
    | cons event events ih =>
        intro now
        cases event with
        | addTimeEvent pid sec => exact Nat.succ_le_succ (ih now)
        | tick => exact (ih (now + 1)).trans (Nat.le_succ _)
  intro part initial
  calc (pending (ticks part) (requests 0 part)).length
      ≤ (requests 0 part).length := List.length_filter_le ..
    _ ≤ part.length := fewer part 0
    _ ≤ 100 := initial.length_le.trans short

/-- Two sleepers, of which one is woken. -/
theorem conserved_pair :
    Conserved [.addTimeEvent 3 2, .addTimeEvent 4 1, .tick, .addTimeEvent 5 1]
      (initWaitList blankState) := by
  refine (conserved_iff blankState (bounded_of_length (by decide))).mpr fun pid sec member => ?_
  simp only [List.mem_cons, List.not_mem_nil, Event.addTimeEvent.injEq, reduceCtorEq, false_or,
    or_false] at member
  omega

/-- A request for no time at all leaves 99 nodes. -/
theorem not_conserved_zero :
    ¬ ∀ (t : State) (events : List Event), Bounded events → Conserved events (initWaitList t) := by
  intro all
  obtain ⟨t, waiting, free, ran, queued⟩ :=
    all blankState [.addTimeEvent 3 0] (bounded_of_length (by decide)) _
    List.prefix_rfl
  have start := queued_init blankState
  generalize initWaitList blankState = s at ran start
  obtain ⟨⟨sent, _⟩, step, rfl⟩ := Option.map_eq_some_iff.mp ((after_concat [] _ s).symm.trans ran)
  exact start.lost (Int.le_refl 0) step ⟨waiting, free, queued⟩

end Nodes

end NjuOs.Drivers.Timer
