/-
**The messages that are under way.**

A mailbox in memory `Holds` a list of messages; what `send` and `receive` make of it is read off
from `Mirrors`. A message from `p` in the queue of `s` is a request if `p` has the higher rank and
an answer else: `calls` are the `Calls` of the system, and `Puts` says what they become when a
message is put somewhere or taken away.
-/

import NjuOs.Lib.Calls
import NjuOs.Process.Conduct

namespace NjuOs.Process.Services

open NjuOs.Lib NjuOs.Process

/-! ### The mailboxes -/

section Boxes

variable {b b' : Mailbox} {asked : Option Int} {msgs free : List Nat} {queue : List Msg} {src : Int}
  {m : Msg} {out : Option Msg}

/-- A mailbox whose messages are those of `queue`. -/
def Holds (b : Mailbox) (queue : List Msg) (asked : Option Int) : Prop :=
  ∃ msgs free, Mirrors b ⟨queue, asked⟩ msgs free

/-- Without a free slot there is no message to `send`. -/
theorem Holds.send_eq (holds : Holds b queue asked) (sender : Sender m.src)
    (sent : send m b = some b') :
    b'.pid = b.pid ∧ Holds b' (queue ++ [{ m with dest := b.pid }]) asked := by
  obtain ⟨msgs, free, mirrors⟩ := holds
  cases free with
  | nil =>
      have head : b.links.next .freeQueue = some .freeQueue := mirrors.rings.freeRing.next_head
      unfold Process.send at sent
      rw [head] at sent
      exact absurd sent nofun
  | cons i rest =>
      obtain ⟨b₁, sent₁, owner, after⟩ := mirrors.send sender
      obtain rfl := Option.some.inj (sent.symm.trans sent₁)
      exact ⟨owner, _, _, after⟩

/-- With fewer than a hundred messages in the queue there is one. -/
theorem Holds.can_send (holds : Holds b queue asked) (sender : Sender m.src)
    (room : queue.length < 100) :
    ∃ b', send m b = some b' := by
  obtain ⟨msgs, free, mirrors⟩ := holds
  obtain ⟨b', _, run, _⟩ := mirrors.step (show Spec.Allowed _ (.send m) from ⟨sender, room⟩)
  simp only [Step.run] at run
  obtain ⟨b₁, sent, _⟩ := Option.map_eq_some_iff.mp run
  exact ⟨b₁, sent⟩

theorem Holds.has_room (holds : Holds b queue asked) (room : queue.length < 100) :
    listEmpty .freeQueue b.links = false := by
  obtain ⟨msgs, free, mirrors⟩ := holds
  have total := mirrors.rings.length
  have length := congrArg List.length mirrors.queue
  rw [List.length_map] at length
  have same : queue.length = msgs.length := length
  rw [Bool.eq_false_iff, ne_eq, mirrors.rings.freeRing.listEmpty_iff, List.map_eq_nil_iff]
  rintro rfl
  rw [List.length_nil] at total
  omega

/-- What a call of `receive(src)` comes to: the oldest message it takes, or the owner is
suspended. -/
def Heard (b : Mailbox) (queue : List Msg) (src : Int) : Option Msg → Prop
  | none => queue.find? (wants src) = none ∧ Holds b queue (some src)
  | some m => wants src m ∧ ∃ rest, queue.Perm (m :: rest) ∧ Holds b rest none

theorem heard_serve (src : Int) (x : Spec) (same : x.queue = queue)
    (mirrors : Mirrors b' (x.serve src).2 msgs free) :
    Heard b' queue src (x.serve src).1 := by
  subst same
  cases found : x.queue.find? (wants src) with
  | none =>
      simp only [Spec.serve, found] at mirrors ⊢
      exact ⟨found, msgs, free, mirrors⟩
  | some m =>
      have perm : ((x.serve src).1.toList ++ (x.serve src).2.queue).Perm x.queue := serve_perm
      simp only [Spec.serve, found] at mirrors perm ⊢
      exact ⟨List.find?_some found, _, perm.symm, msgs, free, mirrors⟩

theorem Holds.receive (holds : Holds b queue none) (valid : src = -1 ∨ Sender src)
    (ran : receive src b = some (out, b')) : b'.pid = b.pid ∧ Heard b' queue src out := by
  obtain ⟨msgs, free, mirrors⟩ := holds
  obtain ⟨b₁, free₁, ran₁, owner, msgs₁, after⟩ := mirrors.receive (mirrors.running rfl) valid
  obtain ⟨rfl, rfl⟩ := Prod.mk.inj (Option.some.inj (ran.symm.trans ran₁))
  exact ⟨owner, heard_serve _ _ rfl after⟩

theorem Holds.can_receive (holds : Holds b queue none) (valid : src = -1 ∨ Sender src) :
    ∃ out b', Process.receive src b = some (out, b') := by
  obtain ⟨msgs, free, mirrors⟩ := holds
  obtain ⟨b', _, ran, _⟩ := mirrors.receive (mirrors.running rfl) valid
  exact ⟨_, b', ran⟩

/-- An owner that runs again inside `receive` has its message. -/
theorem Holds.resume (holds : Holds b queue (some src)) (ran : resume b = some (out, b')) :
    b'.pid = b.pid ∧ ∃ m, out = some m ∧ Heard b' queue src (some m) := by
  obtain ⟨msgs, free, mirrors⟩ := holds
  have there : queue.find? (wants src) ≠ none := by
    have phase := mirrors.phase
    unfold Running.Mirrors at phase
    split at phase
    · exact absurd phase nofun
    · case h_2 state =>
        rw [Process.resume, state] at ran
        exact absurd ran nofun
    · obtain rfl := Option.some.inj phase.1
      exact phase.2
    · case h_4 state =>
        rw [Process.resume, state] at ran
        exact absurd ran nofun
    · obtain rfl := Option.some.inj phase.1
      exact phase.2.2
    · exact phase.elim
  obtain ⟨b₁, free₁, ran₁, owner, msgs₁, after⟩ := mirrors.resume rfl there
  obtain ⟨rfl, rfl⟩ := Prod.mk.inj (Option.some.inj (ran.symm.trans ran₁))
  obtain ⟨m, found⟩ := Option.ne_none_iff_exists'.mp there
  have heard := heard_serve src ⟨queue, some src⟩ rfl after
  have served : ((⟨queue, some src⟩ : Spec).serve src).1 = some m := by
    simp only [Spec.serve, found]
  rw [served] at heard
  exact ⟨owner, m, served, heard⟩

/-- One whose message is there can run again. -/
theorem Holds.can_resume (holds : Holds b queue (some src))
    (there : queue.find? (wants src) ≠ none) :
    ∃ out, Process.resume b = some out := by
  obtain ⟨msgs, free, mirrors⟩ := holds
  obtain ⟨b', _, run, _⟩ := mirrors.resume rfl there
  exact ⟨_, run⟩

/-- `receive(ANY)` in the loop of a server. -/
theorem Holds.hear (holds : Holds b queue asked) (loop : asked = none ∨ asked = some (-1))
    (ran : hear (-1) b = some (out, b')) :
    b'.pid = b.pid ∧ Heard b' queue (-1) out := by
  unfold Services.hear at ran
  rcases loop with rfl | rfl
  · obtain ⟨msgs, free, mirrors⟩ := id holds
    rw [if_pos (mirrors.running rfl)] at ran
    exact holds.receive (.inl rfl) ran
  · obtain ⟨msgs, free, mirrors⟩ := id holds
    have inside : b.phase ≠ .running := by
      intro running
      have phase := mirrors.phase
      rw [running] at phase
      exact absurd phase nofun
    rw [if_neg inside] at ran
    obtain ⟨owner, m, rfl, heard⟩ := holds.resume ran
    exact ⟨owner, heard⟩

/-- A message in the queue of a server that has come to its loop is taken. -/
theorem Holds.can_hear (holds : Holds b queue asked) (loop : asked = none ∨ asked = some (-1))
    (there : queue ≠ []) :
    ∃ m b', Services.hear (-1) b = some (some m, b') ∧ m ∈ queue := by
  have found : queue.find? (wants (-1)) ≠ none := fun none => there (find_any.mp none)
  obtain ⟨m, found⟩ := Option.ne_none_iff_exists'.mp found
  obtain ⟨msgs, free, mirrors⟩ := id holds
  unfold Services.hear
  rcases loop with rfl | rfl
  · rw [if_pos (mirrors.running rfl)]
    obtain ⟨b', _, ran, _⟩ := mirrors.receive (mirrors.running rfl) (.inl rfl)
    simp only [Spec.serve, found] at ran
    exact ⟨m, b', ran, List.mem_of_find?_eq_some found⟩
  · have inside : b.phase ≠ .running := by
      intro running
      have phase := mirrors.phase
      rw [running] at phase
      cases phase
    rw [if_neg inside]
    obtain ⟨b', _, ran, _⟩ := mirrors.resume rfl (by
      rw [found]
      exact Option.some_ne_none m)
    simp only [Spec.serve, found] at ran
    exact ⟨m, b', ran, List.mem_of_find?_eq_some found⟩

end Boxes

/-! ### Where the requests and the answers lie -/

section Places

variable {p q s t d : Pid} {m c : Msg} {small big : Pid → List Msg}

/-- A message that `p` has sent. -/
def IsFrom (p : Pid) (m : Msg) : Prop := m.src = p.val

instance (p : Pid) : DecidablePred (IsFrom p) := fun m => inferInstanceAs (Decidable (m.src = _))

theorem isFrom_inj (here : IsFrom p m) : IsFrom q m ↔ q = p := by
  unfold IsFrom at *
  constructor
  · intro there
    exact Fin.ext (by omega)
  · rintro rfl
    exact here

/-- Whom a thread has sent a request that is not answered, and which. -/
def Thread.waits : Thread → Option (Pid × Msg)
  | .waiting _ server request _ => some (server, request)
  | _ => none

/-- The message that a thread serves. -/
def Thread.hand : Thread → Option Msg
  | .awake hand _ => hand
  | .waiting hand _ _ _ => hand
  | _ => none

/-- What it is inside a `receive` of. -/
def Thread.asked : Thread → Option Int
  | .listening => some (-1)
  | .waiting _ server _ _ => some server.val
  | _ => none

/-- The messages of `p` among those that lie somewhere. -/
def mail (p : Pid) (ms : List Msg) : Multiset Msg := (ms : Multiset Msg).filter (IsFrom p)

/-- The requests of `p` in the mailbox of `s`. -/
def askedIn (queue : Pid → List Msg) (p s : Pid) : Multiset Msg :=
  if rank s ≤ rank p then mail p (queue s) else 0

/-- The answers of `s` in the mailbox of `p`. -/
def answeredIn (queue : Pid → List Msg) (p s : Pid) : Multiset Msg :=
  if rank s < rank p then mail s (queue p) else 0

/-- The requests a thread has not answered. -/
def World.held (w : World) (s : Pid) : List Msg := (w.thread s).hand.toList ++ w.kept s

/-- **The calls of the system**: a message from `p` in the queue of `s` is a request if `p` has the
higher rank, and an answer else. -/
def calls (w : World) (queue : Pid → List Msg) : Calls Pid Msg where
  waits p := (w.thread p).waits
  asked := askedIn queue
  owed p s := mail p (w.held s)
  answered := answeredIn queue

theorem mail_cons (here : IsFrom p m) (ms : List Msg) :
    mail q (m :: ms) = mail q ms + if q = p then {m} else 0 := by
  unfold mail
  rw [← Multiset.cons_coe]
  by_cases same : q = p
  · subst same
    rw [Multiset.filter_cons_of_pos _ here, if_pos rfl, add_comm]
    rfl
  · rw [Multiset.filter_cons_of_neg _ fun there => same ((isFrom_inj here).mp there),
      if_neg same, add_zero]

theorem mail_perm {ms ns : List Msg} (perm : ms.Perm ns) : mail p ms = mail p ns := by
  unfold mail
  rw [Multiset.coe_eq_coe.mpr perm]

theorem mem_mail {ms : List Msg} : m ∈ mail p ms ↔ m ∈ ms ∧ IsFrom p m := by
  unfold mail
  rw [Multiset.mem_filter, Multiset.mem_coe]

/-- The queues `big` are the queues `small` and the message `m` in that of `d`. -/
structure Puts (small big : Pid → List Msg) (d : Pid) (m : Msg) : Prop where
  here : (big d).Perm (m :: small d)
  same : ∀ e, e ≠ d → big e = small e

/-- A message from `p` is a request where `p` has the higher rank. -/
theorem Puts.request (puts : Puts small big d m) (here : IsFrom p m) (up : rank d ≤ rank p)
    (q t : Pid) :
    askedIn big q t = askedIn small q t + Calls.only p d m q t ∧
    answeredIn big q t = answeredIn small q t := by
  unfold askedIn answeredIn
  constructor
  · by_cases there : t = d
    · subst there
      rw [mail_perm puts.here, mail_cons here]
      by_cases same : q = p
      · subst same
        rw [if_pos up, if_pos up, if_pos rfl, Calls.only_self]
      · rw [if_neg same, Calls.only_caller same, add_zero, add_zero]
    · rw [puts.same t there, Calls.only_server there, add_zero]
  · by_cases there : q = d
    · subst there
      rw [mail_perm puts.here, mail_cons here]
      by_cases same : t = p
      · subst same
        rw [if_neg (by omega), if_neg (by omega)]
      · rw [if_neg same, add_zero]
    · rw [puts.same q there]

/-- And an answer where it has the lower one. -/
theorem Puts.answer (puts : Puts small big d m) (here : IsFrom p m) (down : rank p < rank d)
    (q t : Pid) :
    askedIn big q t = askedIn small q t ∧
    answeredIn big q t = answeredIn small q t + Calls.only d p m q t := by
  unfold askedIn answeredIn
  constructor
  · by_cases there : t = d
    · subst there
      rw [mail_perm puts.here, mail_cons here]
      by_cases same : q = p
      · subst same
        rw [if_neg (by omega), if_neg (by omega)]
      · rw [if_neg same, add_zero]
    · rw [puts.same t there]
  · by_cases there : q = d
    · subst there
      rw [mail_perm puts.here, mail_cons here]
      by_cases same : t = p
      · subst same
        rw [if_pos down, if_pos down, if_pos rfl, Calls.only_self]
      · rw [if_neg same, Calls.only_server same, add_zero, add_zero]
    · rw [puts.same q there, Calls.only_caller there, add_zero]

/-- Likewise where requests are held. -/
theorem Puts.owed (puts : Puts small big d m) (here : IsFrom p m) (q t : Pid) :
    mail q (big t) = mail q (small t) + Calls.only p d m q t := by
  by_cases there : t = d
  · subst there
    rw [mail_perm puts.here, mail_cons here]
    by_cases same : q = p
    · subst same
      rw [if_pos rfl, Calls.only_self]
    · rw [if_neg same, Calls.only_caller same]
  · rw [puts.same t there, Calls.only_server there, add_zero]

theorem Puts.mem (puts : Puts small big d m) (here : c ∈ small q) : c ∈ big q := by
  by_cases there : q = d
  · subst there
    exact puts.here.mem_iff.mpr (List.mem_cons_of_mem m here)
  · rwa [puts.same q there]

theorem Puts.mem_big (puts : Puts small big d m) (here : c ∈ big q) :
    c ∈ small q ∨ q = d ∧ c = m := by
  by_cases there : q = d
  · subst there
    rcases List.mem_cons.mp (puts.here.mem_iff.mp here) with new | old
    · exact .inr ⟨rfl, new⟩
    · exact .inl old
  · rw [puts.same q there] at here
    exact .inl here

/-- A message is taken out of a queue. -/
theorem puts_take {queue : Pid → List Msg} {rest : List Msg} (perm : (queue d).Perm (m :: rest)) :
    Puts (Function.update queue d rest) queue d m :=
  ⟨by rwa [Function.update_self], fun e other => (Function.update_of_ne other ..).symm⟩

/-- And put into one. -/
theorem puts_append (queue : Pid → List Msg) (d : Pid) (m : Msg) :
    Puts queue (Function.update queue d (queue d ++ [m])) d m :=
  ⟨by
    rw [Function.update_self]
    exact List.perm_append_singleton m _, fun e other => Function.update_of_ne other ..⟩

/-- The message of an interrupt is neither. -/
theorem Puts.interrupt (puts : Puts small big d m) (intr : m.src = hardIntr) (q t : Pid) :
    askedIn big q t = askedIn small q t ∧ answeredIn big q t = answeredIn small q t := by
  have nobody : ∀ q : Pid, ∀ ms, mail q (m :: ms) = mail q ms := fun q ms => by
    unfold mail
    rw [← Multiset.cons_coe, Multiset.filter_cons_of_neg]
    unfold IsFrom hardIntr at *
    omega
  unfold askedIn answeredIn
  constructor
  · by_cases there : t = d
    · subst there
      rw [mail_perm puts.here, nobody]
    · rw [puts.same t there]
  · by_cases there : q = d
    · subst there
      rw [mail_perm puts.here, nobody]
    · rw [puts.same q there]

end Places

end NjuOs.Process.Services
