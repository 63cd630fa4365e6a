/-
**What the protocol of the servers promises.**

* `mailboxes_have_room`: of the hundred slots of a mailbox at most fifty hold messages of processes,
  so `send` finds a free one; only the interrupts of the terminals and of the disk can take more.
* `messages_expected`: every message in a mailbox is a request that its owner knows how to serve,
  from a process that waits for it, or the answer its owner waits for, or an interrupt's; and no
  assertion of the message loops fails.
* `no_deadlock`: behind every process that waits there is a process that can go on, unless the last
  one waits for the clock, for a line, for a child that lives, or for one of the two answers that
  the file server does not send.
* `wakeup_finds_child`, `reset_mailbox_empty`: a process is woken up from outside of its mailbox
  only if it has just been set up, by the one it was set up for, and no mailbox is reset or given up
  with a message in it.
* `waiting_lists_bounded`: at most four reads wait at the terminals, and at most forty sleeps wait
  for the clock.
* `exit_finds_parent`: the recorded waits are those of the processes that wait for a child.
-/

import NjuOs.Process.Startup

namespace NjuOs.Process.Services

open NjuOs.Lib NjuOs.Process

variable {w w' : World} {queue : Pid → List Msg} {p q s d : Pid} {m c r request : Msg}
  {hand : Option Msg} {script : Script} {rest : Msg → Script}

/-! ### States the system comes to -/

theorem reachable_boot (format : List (DevType × DevWords)) (programs : Programs)
    (box : Pid → Mailbox) :
    Reachable (boot format programs box) := ⟨format, programs, box, .refl⟩

/-- A state in which the process manager is at work, for `create_shell`. -/
theorem reachable_wakeup :
    ∃ w hand next, Reachable w ∧ w.thread pcbManager = .awake hand (.wakeup shell.val next) := by
  obtain ⟨w, booting⟩ := boots_to_wakeup [] ⟨0, 0, 0, 0, 0, 0⟩ fun _ => blankMailbox
  exact ⟨w, _, _, ⟨_, _, _, booting.run⟩, booting.manager⟩

/-- A state in which `create_shell` waits for the process manager. -/
theorem reachable_creating :
    ∃ w : World, Reachable w ∧ listEmpty .freeQueue (w.box tty).links = false ∧
    ∃ request rest, w.thread createShell = .waiting none pcbManager request rest := by
  obtain ⟨w, booting⟩ := creating_start [] ⟨0, 0, 0, 0, 0, 0⟩ fun _ => blankMailbox
  have idle := booting.servers tty (by decide)
  have holds := booting.quiet.empty tty (by
    rw [idle]
    exact nofun)
  exact ⟨w, ⟨_, _, _, booting.run⟩, holds.has_room (by decide), _, _, booting.creator⟩

/-- A state in which a request of the first `getty` lies in the terminals' mailbox. -/
theorem reachable_asking : ∃ w : World, Reachable w ∧ w.thread tty = .awake none .done ∧
    ∃ m, Holds (w.box tty) [m] none := by
  obtain ⟨w, start⟩ : ∃ w, w = boot [] ⟨0, 0, 0, 0, 0, 0⟩ fun _ => blankMailbox := ⟨_, rfl⟩
  have begins : w.thread 2 = .awake none .done := by
    rw [start]
    rfl
  have loops : w.thread tty = .awake none .done := by
    rw [start]
    rfl
  have turn : Step 2 w (w.setThread 2 (.awake none (getty 2 1 0))) :=
    .getty (by decide) begins (by decide) (by decide)
  have quiet : Quiet (w.setThread 2 (.awake none (getty 2 1 0))) := by
    refine Quiet.setThread (start ▸ quiet_boot ..) ?_ ?_ <;> rw [begins]
    · exact nofun
    · rfl
  have idle := (w.setThread_other (t := .awake none (getty 2 1 0)) (by decide : tty ≠ 2)).trans
    loops
  obtain ⟨w', call, waits, holds⟩ := quiet.sends (w.setThread_thread _) idle (by decide) rfl
  obtain ⟨format, programs, box, run⟩ : Reachable w := start ▸ reachable_boot ..
  exact ⟨w', ⟨format, programs, box, (run.tail (.inl ⟨_, turn⟩)).tail (.inl ⟨_, call⟩)⟩,
    waits, _, holds⟩

/-! ### The mailboxes -/

/-- The messages of processes among those that lie somewhere. -/
def letters (ms : List Msg) : List Msg := ms.filter fun m => m.src ≠ hardIntr

theorem letters_eq_self {ms : List Msg} (none : ∀ m ∈ ms, m.src ≠ hardIntr) : letters ms = ms :=
  List.filter_eq_self.mpr fun m here => decide_eq_true (none m here)

/-- Every one of them is from one process. -/
theorem length_letters {ms : List Msg} (sources : ∀ m ∈ ms, m.src = hardIntr ∨ ∃ q, IsFrom q m) :
    (letters ms).length = ∑ q : Pid, (mail q ms).card := by
  induction ms with
  | nil => simp [letters, mail]
  | cons m ms ih =>
      have before := ih fun c here => sources c (List.mem_cons_of_mem m here)
      by_cases intr : m.src = hardIntr
      · have same : ∀ q : Pid, mail q (m :: ms) = mail q ms := fun q => by
          unfold mail
          rw [← Multiset.cons_coe, Multiset.filter_cons_of_neg]
          exact fun source => source.not_intr intr
        rw [letters, List.filter_cons_of_neg (by simp [intr])]
        simp only [same]
        exact before
      · obtain ⟨a, source⟩ := (sources m List.mem_cons_self).resolve_left intr
        rw [letters, List.filter_cons_of_pos (by simp [intr]), List.length_cons]
        simp only [mail_cons source, Multiset.card_add]
        rw [Finset.sum_add_distrib, ← before,
          Finset.sum_eq_single a (fun q _ other => by rw [if_neg other]; rfl)
          fun absent => absurd (Finset.mem_univ a) absent, if_pos rfl]
        rfl

/-- **At most fifty messages of processes** lie in a mailbox. -/
theorem Inv.length_letters_le (inv : Inv w queue) (p : Pid) : (letters (queue p)).length ≤ 50 := by
  rw [length_letters fun m here => (inv.sources p m here).imp (fun interrupt => interrupt.1) id]
  have split : ∀ q : Pid, (mail q (queue p)).card ≤
      ((calls w queue).asked q p).card + ((calls w queue).answered p q).card := fun q => by
    show _ ≤ (askedIn queue q p).card + (answeredIn queue p q).card
    unfold askedIn answeredIn
    by_cases up : rank p ≤ rank q
    · rw [if_pos up]
      exact Nat.le_add_right _ _
    · rw [if_pos (not_le.mp up)]
      exact Nat.le_add_left _ _
  calc ∑ q : Pid, (mail q (queue p)).card
      ≤ ∑ q : Pid, (((calls w queue).asked q p).card + ((calls w queue).answered p q).card) :=
        Finset.sum_le_sum fun q _ => split q
    _ = ∑ q : Pid, ((calls w queue).asked q p).card + ∑ q :
      Pid, ((calls w queue).answered p q).card :=
      Finset.sum_add_distrib
    _ ≤ Fintype.card Pid := inv.balanced.load_le inv.down p
    _ = 50 := Fintype.card_fin 50

theorem Holds.orderly {b : Mailbox} {ms : List Msg} {asked : Option Int}
    (holds : Holds b ms asked) : Orderly b ms := by
  obtain ⟨_, _, mirrors⟩ := holds
  exact mirrors.orderly

theorem listEmpty_orderly {b : Mailbox} {ms : List Msg} (orderly : Orderly b ms) :
    listEmpty .msgQueue b.links = true ↔ ms = [] := by
  obtain ⟨msgs, free, ring, _, _, rfl⟩ := orderly.slots
  rw [ring.listEmpty_iff, List.map_eq_nil_iff, List.map_eq_nil_iff]

/-- **Every mailbox has room for the messages of processes.** -/
theorem mailboxes_have_room (reachable : Reachable w) : ∃ queue : Pid → List Msg,
    (∀ p, w.thread p ≠ .absent → Orderly (w.box p) (queue p)) ∧
    (∀ p, (letters (queue p)).length ≤ 50) ∧
    ∀ p, p ≠ tty → p ≠ ide → letters (queue p) = queue p := by
  obtain ⟨queue, inv⟩ := reachable.inv
  refine ⟨queue, fun p there => (inv.boxes p there).orderly, inv.length_letters_le,
    fun p notTty notIde => ?_⟩
  refine letters_eq_self fun m here => ?_
  rcases inv.sources p m here with ⟨_, ⟨same, _⟩ | ⟨same, _⟩⟩ | ⟨q, source⟩
  · exact absurd same notTty
  · exact absurd same notIde
  · exact source.not_intr

theorem mailboxes_have_room_asking : ∃ (w : World) (queue : Pid → List Msg), queue tty ≠ [] ∧
    (∀ p, w.thread p ≠ .absent → Orderly (w.box p) (queue p)) ∧
    (∀ p, (letters (queue p)).length ≤ 50) ∧
    ∀ p, p ≠ tty → p ≠ ide → letters (queue p) = queue p := by
  obtain ⟨w, reachable, idle, m, holds⟩ := reachable_asking
  obtain ⟨queue, orderly, rooms⟩ := mailboxes_have_room reachable
  have there := orderly tty (by
    rw [idle]
    exact nofun)
  refine ⟨w, queue, fun none => ?_, orderly, rooms⟩
  have some := (listEmpty_orderly holds.orderly).mp ((listEmpty_orderly there).mpr none)
  cases some

/-- **Every message is expected.** -/
theorem messages_expected (reachable : Reachable w) : ∃ queue : Pid → List Msg,
    (∀ p, w.thread p ≠ .absent → Orderly (w.box p) (queue p)) ∧
    (∀ p, ∀ m ∈ queue p, IsInterrupt p m ∨
      (∃ q hand rest, w.thread q = .waiting hand p m rest ∧ IsFrom q m ∧ Known q p m) ∨
      ∃ hand s request rest, w.thread p = .waiting hand s request rest ∧ IsFrom s m ∧
      Fits s request m) ∧
    ∀ p hand, w.thread p ≠ .awake hand .panic := by
  obtain ⟨queue, inv⟩ := reachable.inv
  refine ⟨queue, fun p there => (inv.boxes p there).orderly, fun p m here => ?_,
    fun p hand here => ?_⟩
  · rcases inv.sources p m here with interrupt | ⟨q, source⟩
    · exact .inl interrupt
    · refine .inr ?_
      by_cases caller : ∃ request, (w.thread p).waits = some (q, request)
      · obtain ⟨request, waits⟩ := caller
        obtain ⟨hand, rest, there⟩ := Thread.waits_eq waits
        exact .inr ⟨hand, q, request, rest, there, source,
          (inv.answers waits (inv.of_server waits here source)).1⟩
      · have waits := inv.of_queue here source fun request same => caller ⟨request, same⟩
        obtain ⟨hand, rest, there⟩ := Thread.waits_eq waits
        exact .inl ⟨q, hand, rest, there, source, (inv.waits waits).2⟩
  · obtain ⟨_, _, behaves⟩ := inv.awake here
    nomatch behaves

theorem messages_expected_creating : ∃ w : World,
    (∃ request rest, w.thread createShell = .waiting none pcbManager request rest) ∧
    ∃ queue : Pid → List Msg, (∀ p, w.thread p ≠ .absent → Orderly (w.box p) (queue p)) ∧
    (∀ p, ∀ m ∈ queue p, IsInterrupt p m ∨
      (∃ q hand rest, w.thread q = .waiting hand p m rest ∧ IsFrom q m ∧ Known q p m) ∨
      ∃ hand s request rest, w.thread p = .waiting hand s request rest ∧ IsFrom s m ∧
      Fits s request m) ∧
    ∀ p hand, w.thread p ≠ .awake hand .panic := by
  obtain ⟨w, reachable, _, waits⟩ := reachable_creating
  exact ⟨w, waits, messages_expected reachable⟩

/-! ### What a thread can do -/

/-- There is a step of `p`. -/
def CanStep (w : World) (p : Pid) : Prop := ∃ w', Step p w w'

/-- With a free slot there is room for a message. -/
theorem Holds.can_send_free {b : Mailbox} {ms : List Msg} {asked : Option Int}
    (holds : Holds b ms asked) (sender : Sender m.src)
    (room : listEmpty .freeQueue b.links = false) : ∃ b', send m b = some b' := by
  obtain ⟨msgs, free, mirrors⟩ := id holds
  refine holds.can_send sender ?_
  have total := mirrors.rings.length
  have some : free ≠ [] := by
    rintro rfl
    rw [mirrors.rings.freeRing.listEmpty_iff.mpr rfl] at room
    exact nomatch room
  have length := congrArg List.length mirrors.queue
  rw [List.length_map] at length
  have := List.length_pos_iff.mpr some
  have same : ms.length = msgs.length := length
  omega

/-- A message of a process can be sent to every process that has been started, but for the disk. -/
theorem Inv.can_send (inv : Inv w queue) (room : listEmpty .freeQueue (w.box tty).links = false)
    (notIde : d ≠ ide) (there : w.thread d ≠ .absent) (source : IsFrom p m) :
    ∃ b, send m (w.box d) = some b := by
  have holds := inv.boxes d there
  by_cases isTty : d = tty
  · subst isTty
    exact holds.can_send_free source.sender room
  · refine holds.can_send source.sender ?_
    have few := inv.length_letters_le d
    rw [letters_eq_self fun m here => ?_] at few
    · omega
    · rcases inv.sources d m here with ⟨_, ⟨same, _⟩ | ⟨same, _⟩⟩ | ⟨q, source⟩
      · exact absurd same isTty
      · exact absurd same notIde
      · exact source.not_intr

theorem kinds (p : Pid) : IsServer p ∨ IsGetty p ∨ IsUser p := by
  revert p
  decide

theorem Known.ne_ide (known : Known p s m) : s ≠ ide := by
  rintro rfl
  nomatch known

/-- A thread that has come to the end of its function goes on. -/
theorem Inv.done_can_step (inv : Inv w queue) (here : w.thread p = .awake hand .done) :
    CanStep w p := by
  have loop : AtLoop w p hand := .inl here
  obtain ⟨birth, _, behaves⟩ := inv.awake here
  rcases kinds p with server | other
  · obtain ⟨msgs, free, mirrors⟩ := inv.boxes p loop.live.ne_absent
    rw [show (w.thread p).asked = none by rw [here]; rfl] at mirrors
    obtain ⟨b, _, ran, _⟩ := mirrors.receive (mirrors.running rfl) (.inl rfl)
    have heard : hear (-1) (w.box p) = some _ := (if_pos (mirrors.running rfl)).trans ran
    cases found : (Spec.serve (-1) ⟨queue p, none⟩).1 with
    | none =>
        rw [found] at heard
        exact ⟨_, .listen server here heard⟩
    | some m =>
        rw [found] at heard
        have member : m ∈ queue p := by
          have perm : ((Spec.serve (-1) ⟨queue p, none⟩).1.toList ++
            (Spec.serve (-1) ⟨queue p, none⟩).2.queue).Perm
              (queue p) := serve_perm
          rw [found] at perm
          exact perm.mem_iff.mp List.mem_cons_self
        obtain ⟨script, serves⟩ : ∃ script, Serves m p script := by
          rcases inv.sources p m member with interrupt | ⟨q, source⟩
          · exact serves_known (p := p) (.inr interrupt)
          · have waits := inv.of_queue member source (by rw [loop.waits]; exact fun _ => nofun)
            exact serves_known (.inl (inv.waits waits).2)
        exact ⟨_, .accept loop heard serves⟩
  · have empty : hand = none := by
      cases behaves with
      | done keeps =>
          cases hand with
          | none => rfl
          | some c =>
              -- only servers keep requests
              rcases keeps c rfl with ⟨rfl, _⟩ | ⟨rfl, _⟩ | ⟨rfl, _⟩
              · exact absurd other (by decide)
              · exact absurd other (by decide)
              · exact absurd other (by decide)
    subst empty
    rcases other with getty | user
    · exact ⟨_, @Step.getty p w 1 0 getty here (by decide) (by decide)⟩
    · exact ⟨_, @Step.syscall p w 0 4 0 0 0 0 user here⟩

/-- **A thread that is awake can go on**, unless the manager needs a PCB and there is none. -/
theorem Inv.awake_can_step (inv : Inv w queue)
    (room : listEmpty .freeQueue (w.box tty).links = false)
    (here : w.thread p = .awake hand script) : CanStep w p ∨ p = pcbManager ∧ w.free = [] ∧
      ∃ rest, script = .takePcb rest := by
  obtain ⟨birth, tends, behaves⟩ := inv.awake here
  have live := live_awake here
  cases script with
  | done => exact .inl (inv.done_can_step here)
  | panic => cases behaves
  | call dest m rest =>
      obtain ⟨s, rfl, source, known, _⟩ := behaves.of_call
      have other : p ≠ s := fun same => by
        have below := known.rank_lt
        rw [same] at below
        exact lt_irrefl _ below
      obtain ⟨b, sent⟩ := inv.can_send room known.ne_ide (inv.server_live known).ne_absent source
      obtain ⟨msgs, free, mirrors⟩ := inv.boxes p live.ne_absent
      rw [show (w.thread p).asked = none by rw [here]; rfl] at mirrors
      obtain ⟨b', _, ran, _⟩ := mirrors.receive (mirrors.running rfl) (.inr (sender_pid s))
      have unchanged : (w.setBox s b).box p = w.box p := Function.update_of_ne other ..
      rw [← unchanged] at ran
      exact .inl ⟨_, .call here rfl sent ran⟩
  | answer dest m rest =>
      obtain ⟨c, rfl, rfl, source⟩ : ∃ c, hand = some c ∧ dest = c.src ∧ IsFrom p m := by
        cases behaves with
        | answer source _ _ _ => exact ⟨_, rfl, rfl, source⟩
        | answerFork _ source _ _ _ => exact ⟨_, rfl, rfl, source⟩
      have member : c ∈ w.held p := by
        rw [World.held, here]
        exact List.mem_cons_self
      obtain ⟨d, fromD, waits, _⟩ := inv.of_held member
      obtain ⟨handD, restD, there⟩ := Thread.waits_eq waits
      have notIde : d ≠ ide := by
        rintro rfl
        exact absurd (inv.waits waits).2.rank_lt (by
          show ¬ rank p < 0
          omega)
      obtain ⟨b, sent⟩ := inv.can_send room notIde (by rw [there]; exact Thread.noConfusion) source
      exact .inl ⟨_, .answer here fromD.symm sent⟩
  | serveReader rest => exact .inl ⟨_, .noReader here⟩
  | takePcb rest =>
      cases behaves with
      | takePcb manager _ =>
          cases free : w.free with
          | nil => exact .inr ⟨manager, rfl, rest, rfl⟩
          | cons k free => exact .inl ⟨_, .takePcb here free⟩
  | startChild k parent rest => exact .inl ⟨_, .startChild here⟩
  | initPcb k rest => exact .inl ⟨_, .initPcb here⟩
  | initMsg pcb rest =>
      obtain ⟨c, rfl, rfl, _⟩ := behaves.of_initMsg
      obtain ⟨d, fromD, _⟩ :=
        inv.of_held (s := p) (c := c) (by rw [World.held, here]; exact List.mem_cons_self)
      exact .inl ⟨_, .initMsg here fromD.symm⟩
  | leave pcb m rest =>
      obtain ⟨c, rfl, rfl, rfl, source, _⟩ := behaves.of_leave
      obtain ⟨d, fromD, waits, _⟩ := inv.of_held (s := pcbManager) (c := c)
        (by rw [World.held, here]; exact List.mem_cons_self)
      cases alone : w.parentWait d with
      | false => exact .inl ⟨_, .leave here fromD.symm alone⟩
      | true =>
          -- the parent that waits is in `receive`, and its request is put aside
          have used : w.isUsed d = true := (inv.used d).mpr (by
            obtain ⟨_, _, there⟩ := Thread.waits_eq waits
            rw [there]
            exact Thread.noConfusion)
          obtain ⟨x, member, parent, _⟩ := inv.recorded d used alone
          obtain ⟨before, after, split⟩ := List.append_of_mem member
          obtain ⟨a, fromA, waitsA, _⟩ :=
            inv.of_held (s := pcbManager) (c := x) (List.mem_append_right _ member)
          obtain ⟨handA, restA, there⟩ := Thread.waits_eq waitsA
          have notIde : a ≠ ide := by
            rintro rfl
            exact absurd (inv.waits waitsA).2.rank_lt (by decide)
          obtain ⟨b, sent⟩ :=
            inv.can_send room notIde (by rw [there]; exact Thread.noConfusion) source
          exact .inl
            ⟨_, .leaveParent here fromD.symm alone (fromA.symm.trans parent) sent split parent⟩
  | recordWait ppcb cpcb recorded other =>
      by_cases inside : 0 ≤ cpcb ∧ cpcb < 50
      · obtain ⟨k, place⟩ : ∃ k : Pid, (k.val : Int) = cpcb := ⟨⟨cpcb.toNat, by omega⟩, by
          show ((cpcb.toNat : Nat) : Int) = cpcb
          omega⟩
        by_cases child : w.ppid k = ppcb ∧ w.isUsed k = true
        · exact .inl ⟨_, .recordWait here place child.1 child.2⟩
        · exact .inl ⟨_, .noChild here place child⟩
      · exact .inl ⟨_, .outside here inside⟩
  | wakeup pcb rest =>
      obtain ⟨k, rfl, created, _⟩ := inv.wakes here
      exact .inl ⟨_, .wakeup here rfl created⟩
  | wrap => exact .inl ⟨_, .wrap here⟩

/-- A server that listens can go on when it has a message. -/
theorem Inv.listening_can_step (inv : Inv w queue) (here : w.thread p = .listening)
    (there : queue p ≠ []) : CanStep w p := by
  have loop : AtLoop w p none := .inr ⟨here, rfl⟩
  obtain ⟨m, b, heard, member⟩ := (inv.boxes p loop.live.ne_absent).can_hear loop.asked there
  obtain ⟨script, serves⟩ : ∃ script, Serves m p script := by
    rcases inv.sources p m member with interrupt | ⟨q, source⟩
    · exact serves_known (p := p) (.inr interrupt)
    · have waits := inv.of_queue member source (by rw [loop.waits]; exact fun _ => nofun)
      exact serves_known (.inl (inv.waits waits).2)
  exact ⟨_, .accept loop heard serves⟩

/-- A caller whose answer is there can go on. -/
theorem Inv.answered_can_step (inv : Inv w queue) (here : w.thread p = .waiting hand s request rest)
    (there : r ∈ answeredIn queue p s) : CanStep w p := by
  have holds := inv.boxes p (by rw [here]; exact nofun)
  rw [here] at holds
  have mine : r ∈ queue p ∧ IsFrom s r := by
    unfold answeredIn at there
    split at there
    · exact mem_mail.mp there
    · exact absurd there (Multiset.notMem_zero r)
  have found : (queue p).find? (wants s.val) ≠ none := by
    rw [ne_eq, List.find?_eq_none]
    exact fun none => none r mine.1 ((wants_sender (sender_pid s) r).mpr mine.2)
  obtain ⟨⟨out, b⟩, ran⟩ := holds.can_resume found
  exact ⟨_, .resume here ran⟩

/-! ### No deadlock -/

/-- `p` is in a `receive` from `s`. -/
def WaitsFor (w : World) (p s : Pid) : Prop :=
  ∃ hand request rest, w.thread p = .waiting hand s request rest

/-- What a process can wait for that is not another process's turn: the clock, a line, a child that
lives, and the two requests that the file server does not always answer. -/
def Awaits (w : World) (s : Pid) (request : Msg) : Prop :=
  request ∈ w.kept s ∧ (Keeps s request ∨ Waited w s request)

/-- **There is no deadlock**: the chain of processes that wait for each other ends at one that can
go on, or at one that waits for something else, or the manager finds no free PCB. -/
theorem no_deadlock (reachable : Reachable w)
    (room : listEmpty .freeQueue (w.box tty).links = false) (waits : WaitsFor w p s) :
    ∃ q t hand request rest, Relation.ReflTransGen (WaitsFor w) p q ∧
    w.thread q = .waiting hand t request rest ∧
      (CanStep w q ∨ CanStep w t ∨ Awaits w t request ∨ t = pcbManager ∧ w.free = []) := by
  obtain ⟨queue, inv⟩ := reachable.inv
  obtain ⟨hand, request, rest, here⟩ := waits
  have waiting : (calls w queue).waits p = some (s, request) := by
    show (w.thread p).waits = _
    rw [here]
    rfl
  obtain ⟨q, t, n, path, last, ends⟩ := inv.balanced.chain inv.down waiting
  obtain ⟨handQ, restQ, there⟩ := Thread.waits_eq last
  have chain : Relation.ReflTransGen (WaitsFor w) p q := path.lift id fun a b ⟨m, waits⟩ => by
    obtain ⟨hand, rest, here⟩ := Thread.waits_eq waits
    exact ⟨hand, m, rest, here⟩
  refine ⟨q, t, handQ, n, restQ, chain, there, ?_⟩
  rcases ends with ⟨r, answer⟩ | ⟨idle, lies⟩
  · refine .inl (inv.answered_can_step there (r := r) ?_)
    show r ∈ (calls w queue).answered q t
    rw [answer]
    exact Multiset.mem_singleton_self r
  · have known := (inv.waits last).2
    have member : n ∈ askedIn queue q t + mail q (w.held t) := by
      show n ∈ (calls w queue).requests q t
      rw [lies]
      exact Multiset.mem_singleton_self n
    have awake : ∀ {hand script}, w.thread t = .awake hand script →
        CanStep w q ∨ CanStep w t ∨ Awaits w t n ∨ t = pcbManager ∧ w.free = [] := fun here => by
      rcases inv.awake_can_step room here with go | ⟨manager, none, _⟩
      · exact .inr (.inl go)
      · exact .inr (.inr (.inr ⟨manager, none⟩))
    have live := inv.server_live known
    rcases Multiset.mem_add.mp member with inQueue | held
    · have nonempty : queue t ≠ [] := by
        unfold askedIn at inQueue
        split at inQueue
        · exact List.ne_nil_of_mem (mem_mail.mp inQueue).1
        · exact absurd inQueue (Multiset.notMem_zero n)
      cases state : w.thread t with
      | absent => exact absurd state live.ne_absent
      | created _ => exact absurd state live.ne_created
      | awake hand script => exact awake state
      | listening => exact .inr (.inl (inv.listening_can_step state nonempty))
      | waiting hand s m rest =>
          have idle : (w.thread t).waits = none := idle
          rw [state] at idle
          exact absurd idle nofun
    · rcases List.mem_append.mp (mem_mail.mp held).1 with inHand | kept
      · cases state : w.thread t with
        | awake hand script => exact awake state
        | waiting hand s m rest =>
            have idle : (w.thread t).waits = none := idle
            rw [state] at idle
            exact absurd idle nofun
        | absent => exact absurd state live.ne_absent
        | created _ => exact absurd state live.ne_created
        | listening =>
            rw [state] at inHand
            exact absurd inHand List.not_mem_nil
      · exact .inr (.inr (.inl ⟨kept, inv.kept t n kept⟩))

theorem no_deadlock_creating : ∃ w : World, WaitsFor w createShell pcbManager ∧
    ∃ q t hand request rest, Relation.ReflTransGen (WaitsFor w) createShell q ∧
    w.thread q = .waiting hand t request rest ∧
      (CanStep w q ∨ CanStep w t ∨ Awaits w t request ∨ t = pcbManager ∧ w.free = []) := by
  obtain ⟨w, reachable, room, request, rest, waits⟩ := reachable_creating
  exact ⟨w, ⟨none, request, rest, waits⟩, no_deadlock reachable room ⟨none, request, rest, waits⟩⟩

/-! ### The processes that start and end -/

/-- **`wakeup` finds the child**: who calls it from the process manager or after a `fork` names a
process that is set up for the caller to wake it up, is in use and has no message. -/
theorem wakeup_finds_child {pcb : Int} {next : Script} (reachable : Reachable w)
    (here : w.thread p = .awake hand (.wakeup pcb next)) :
    ∃ k : Pid, pcb = k.val ∧ w.thread k = .created p.val ∧ w.isUsed k = true ∧ k ∉ w.free ∧
    Orderly (w.box k) [] := by
  obtain ⟨queue, inv⟩ := reachable.inv
  obtain ⟨k, same, created, _⟩ := inv.wakes here
  have there : w.thread k ≠ .absent := by
    rw [created]
    exact nofun
  have user : IsUser k := by
    by_contra server
    exact (inv.served k server).ne_created created
  have empty := inv.queue_of_idle (rank_user user) (by rw [created]; rfl)
  refine ⟨k, same, created, (inv.used k).mpr there, fun free => there (inv.free k free).2, ?_⟩
  have holds := inv.boxes k there
  rw [empty] at holds
  exact holds.orderly

theorem wakeup_finds_shell : ∃ w : World, ∃ k : Pid, (shell.val : Int) = k.val ∧
    w.thread k = .created pcbManager.val ∧
    w.isUsed k = true ∧ k ∉ w.free ∧ Orderly (w.box k) [] := by
  obtain ⟨w, _, _, reachable, here⟩ := reachable_wakeup
  exact ⟨w, wakeup_finds_child reachable here⟩

/-- What is left of a function begins with the setting up or the giving up of the PCB `d`. -/
def Resets (me : Pid) (script : Script) (d : Pid) : Prop :=
  match script with
  | .startChild newPcb _ _ => newPcb = d
  | .initPcb pcb _ => pcb = d
  | .initMsg pcb _ => pcb = d.val
  | .leave pcb _ _ => pcb = d.val
  | .wrap => me = d
  | _ => False

/-- **No message is lost with a mailbox**: where a PCB is set up, started again or given up, it is a
user's and not on the free list, nobody waits for it, and its mailbox is empty if it has one. -/
theorem reset_mailbox_empty (reachable : Reachable w) (here : w.thread p = .awake hand script)
    (resets : Resets p script d) :
    IsUser d ∧ d ∉ w.free ∧ (∀ q, ¬ WaitsFor w q d) ∧
    (w.thread d = .absent ∨ Orderly (w.box d) []) := by
  obtain ⟨queue, inv⟩ := reachable.inv
  obtain ⟨birth, tends, behaves⟩ := inv.awake here
  have nobody : IsUser d → ∀ q, ¬ WaitsFor w q d := by
    rintro user q ⟨handQ, request, restQ, there⟩
    have below := inv.down (p := q) (s := d) (m := request) (by
      show (w.thread q).waits = _
      rw [there]
      rfl)
    have := rank_user user
    have := rank_le q
    omega
  -- a PCB that the manager has taken
  have taken : birth = .taken d → IsUser d ∧ d ∉ w.free ∧ (∀ q, ¬ WaitsFor w q d) ∧
      (w.thread d = .absent ∨ Orderly (w.box d) []) := by
    rintro rfl
    exact ⟨tends.2.1, tends.2.2.2, nobody tends.2.1, .inl tends.2.2.1⟩
  -- a client of the manager
  have client : ∀ {c}, hand = some c → p = pcbManager → c.src = d.val → IsUser d ∧ d ∉ w.free ∧
    (∀ q, ¬ WaitsFor w q d) ∧
      (w.thread d = .absent ∨ Orderly (w.box d) []) := by
    rintro c rfl manager source
    obtain ⟨user, _, _, live, empty, _⟩ := inv.client here manager source
    have holds := inv.boxes d live.ne_absent
    rw [empty] at holds
    exact ⟨user, fun free => live.ne_absent (inv.free d free).2, nobody user, .inr holds.orderly⟩
  cases script with
  | startChild k parent rest =>
      cases behaves with
      | startChild next => exact taken (congrArg Birth.taken resets)
  | initPcb k rest =>
      cases behaves with
      | initPcb next => exact taken (congrArg Birth.taken resets)
  | initMsg pcb rest =>
      obtain ⟨c, same, source, manager, _⟩ := behaves.of_initMsg
      exact client same manager (source.symm.trans resets)
  | leave pcb m rest =>
      obtain ⟨c, same, source, manager, _⟩ := behaves.of_leave
      exact client same manager (source.symm.trans resets)
  | wrap =>
      obtain rfl : p = d := resets
      have live := live_awake here
      cases behaves with
      | wrap =>
          have holds := inv.boxes p live.ne_absent
          rw [inv.queue_of_idle (rank_user tends.1) (by rw [here]; rfl)] at holds
          exact ⟨tends.1, fun free => live.ne_absent (inv.free p free).2, nobody tends.1,
            .inr holds.orderly⟩
  | done => exact resets.elim
  | panic => exact resets.elim
  | call _ _ _ => exact resets.elim
  | answer _ _ _ => exact resets.elim
  | serveReader _ => exact resets.elim
  | takePcb _ => exact resets.elim
  | recordWait _ _ _ _ => exact resets.elim
  | wakeup _ _ => exact resets.elim

theorem reset_mailbox_exec :
    ∃ w : World, (∃ request rest, w.thread shell = .waiting none pcbManager request rest) ∧
    IsUser shell ∧ shell ∉ w.free ∧ (∀ q, ¬ WaitsFor w q shell) ∧
    (w.thread shell = .absent ∨ Orderly (w.box shell) []) := by
  obtain ⟨w, request, rest, reachable, waits, here⟩ := boots_to_exec
  exact ⟨w, ⟨request, rest, waits⟩, reset_mailbox_empty reachable here rfl⟩

/-- **The recorded waits**: `exit` of a process finds its parent in the `receive` of a `WAIT_PID`
for it exactly if the wait is recorded. -/
theorem exit_finds_parent (reachable : Reachable w) {k : Pid} (used : w.isUsed k = true) :
    w.parentWait k = true ↔
    ∃ parent hand request rest, w.thread parent = .waiting hand pcbManager request rest ∧
      request ∈ w.kept pcbManager ∧ request.type = ManagerType.waitPid.type ∧ request.i 0 = k.val ∧
      w.ppid k = parent.val := by
  obtain ⟨queue, inv⟩ := reachable.inv
  constructor
  · intro waiting
    obtain ⟨c, member, source, child⟩ := inv.recorded k used waiting
    obtain ⟨q, fromQ, waits, _⟩ :=
      inv.of_held (s := pcbManager) (c := c) (List.mem_append_right _ member)
    obtain ⟨hand, rest, there⟩ := Thread.waits_eq waits
    obtain ⟨before, after, split⟩ := List.append_of_mem member
    exact ⟨q, hand, c, rest, there, member,
      (inv.parent_waits split source fromQ used waiting).1, child, source.symm.trans fromQ⟩
  · rintro ⟨parent, hand, request, rest, there, member, type, child, _⟩
    rcases inv.kept pcbManager request member with (⟨no, _⟩ | ⟨no, _⟩ | ⟨no, _⟩) | waited
    · exact absurd no (by decide)
    · exact absurd no (by decide)
    · exact absurd no (by decide)
    · exact (waited.2.2 k child).2.2

theorem exit_finds_shell : ∃ w : World, w.parentWait firstChild = true ∧
    ∃ parent hand request rest, w.thread parent = .waiting hand pcbManager request rest ∧
      request ∈ w.kept pcbManager ∧ request.type = ManagerType.waitPid.type ∧
      request.i 0 = firstChild.val ∧
      w.ppid firstChild = parent.val := by
  obtain ⟨w, reachable, used, waiting⟩ := boots_to_wait
  exact ⟨w, waiting, (exit_finds_parent reachable used).mp waiting⟩

/-! ### The waiting lists -/

/-- Requests that are put aside are of different processes. -/
theorem Inv.length_kept_le (inv : Inv w queue) (s : Pid) (callers : Finset Pid)
    (known : ∀ {q m}, Known q s m → q ∈ callers) : (w.kept s).length ≤ callers.card := by
  have sources : ∀ m ∈ w.kept s, ∃ q, IsFrom q m ∧ q ∈ callers := fun m here => by
    obtain ⟨q, source, waits, _⟩ := inv.of_held (s := s) (c := m) (List.mem_append_right _ here)
    exact ⟨q, source, known (inv.waits waits).2⟩
  have one : ∀ q : Pid, (mail q (w.kept s)).card ≤ 1 := fun q => by
    by_cases empty : mail q (w.kept s) = 0
    · rw [empty]
      exact Nat.zero_le 1
    · obtain ⟨m, there⟩ := Multiset.exists_mem_of_ne_zero empty
      obtain ⟨here, source⟩ := mem_mail.mp there
      obtain ⟨a, fromA, _, _, single⟩ :=
        inv.of_held (s := s) (c := m) (List.mem_append_right _ here)
      obtain rfl := (isFrom_inj fromA).mp source
      calc (mail q (w.kept s)).card ≤ (mail q (w.held s)).card :=
            Multiset.card_le_card (Multiset.filter_le_filter _ (by
              rw [World.held, ← Multiset.coe_add]
              exact Multiset.le_add_left _ _))
        _ = 1 := by
            rw [single]
            rfl
  have nobody : ∀ q, q ∉ callers → (mail q (w.kept s)).card = 0 := fun q other => by
    rw [Multiset.card_eq_zero]
    refine Multiset.eq_zero_of_forall_notMem fun m there => ?_
    obtain ⟨here, source⟩ := mem_mail.mp there
    obtain ⟨a, fromA, member⟩ := sources m here
    obtain rfl := (isFrom_inj fromA).mp source
    exact other member
  have letters : letters (w.kept s) = w.kept s := letters_eq_self fun m here => by
    obtain ⟨_, source, _⟩ := sources m here
    exact source.not_intr
  calc (w.kept s).length = ∑ q : Pid, (mail q (w.kept s)).card := by
        rw [← length_letters fun m here => .inr ((sources m here).imp fun _ both => both.1),
          letters]
    _ = ∑ q ∈ callers, (mail q (w.kept s)).card :=
      (Finset.sum_subset (Finset.subset_univ callers) fun q _ other =>
      nobody q other).symm
    _ ≤ callers.card • 1 := Finset.sum_le_card_nsmul _ _ 1 fun q _ => one q
    _ = callers.card := by rw [smul_eq_mul, Nat.mul_one]

theorem getty_mem (getty : IsGetty q) : q ∈ ({file, 2, 3, 4} : Finset Pid) := by
  unfold IsGetty at getty
  revert q
  decide

/-- **The waiting lists stay short**: at most four reads are kept, and a terminal has room for
sixteen; at most forty sleeps are kept. The nodes that sleeps of no seconds lose are not counted. -/
theorem waiting_lists_bounded (reachable : Reachable w) :
    (w.kept tty).length ≤ 4 ∧ (w.kept timer).length ≤ 40 := by
  obtain ⟨queue, inv⟩ := reachable.inv
  constructor
  · refine inv.length_kept_le tty {file, 2, 3, 4} fun known => ?_
    cases known with
    | terminal _ sender _ _ =>
        rcases sender with rfl | getty
        · decide
        · exact getty_mem getty
  · refine (inv.length_kept_le timer (Finset.univ.filter fun p => createShell ≤ p) fun known =>
      ?_).trans (by decide)
    cases known with
    | sleep user _ => exact Finset.mem_filter.mpr ⟨Finset.mem_univ _, user⟩

theorem waiting_lists_bounded_creating : ∃ w : World,
    (∃ request rest, w.thread createShell = .waiting none pcbManager request rest) ∧
    (w.kept tty).length ≤ 4 ∧ (w.kept timer).length ≤ 40 := by
  obtain ⟨w, reachable, _, waits⟩ := reachable_creating
  exact ⟨w, waits, waiting_lists_bounded reachable⟩

end NjuOs.Process.Services
