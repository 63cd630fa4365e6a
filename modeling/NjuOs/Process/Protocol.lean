/-
**The protocol of the servers.**

The invariant `Inv` connects a state of the system to the lists of messages in its mailboxes: the
calls are balanced, an answer fits its request, every thread goes on as its function has it, a
request that is put aside is one of those that may wait, and a PCB that is free has no thread.

* `Inv.of_held`, `Inv.of_queue`, `Inv.of_server`: whoever has a request has it from a process that
  waits for it.
* `Inv.stash`, `Inv.stay`: what a step of one thread has to show.
-/

import NjuOs.Process.Letters

namespace NjuOs.Process.Services

open NjuOs.Lib NjuOs.Process

/-! ### The invariant -/

section Invariant

variable {w w' : World} {queue queue' : Pid → List Msg} {p q s d : Pid} {m c r : Msg}
  {t t' : Thread} {hand : Option Msg} {birth : Birth} {rest : Msg → Script}

/-- A process that has been started. -/
def Thread.Live : Thread → Prop
  | .absent | .created _ => False
  | _ => True

/-- The child a thread has to do with is where it should be. -/
def Tends (w : World) (p : Pid) (hand : Option Msg) : Birth → Prop
  | .none => True
  | .thread => IsUser p ∧ w.ppid p = 0
  | .taken newPcb => p = pcbManager ∧ IsUser newPcb ∧ w.thread newPcb = .absent ∧ newPcb ∉ w.free
  | .born newPcb waker => w.thread newPcb = .created waker ∧
      (waker = p.val ∨ p = pcbManager ∧ ∃ c, hand = some c ∧ waker = c.src)

/-- What is left for a thread to do keeps to the protocol. -/
def Sound (w : World) (p : Pid) : Thread → Prop
  | .absent | .created _ => True
  | .listening => IsServer p
  | .awake hand script => ∃ birth, Tends w p hand birth ∧ Behaves p hand birth script
  | .waiting hand s m rest => IsFrom p m ∧ Known p s m ∧ ∃ birth, Tends w p hand birth ∧
      Expects p hand birth s m rest

/-- An answer that lies at `p`; that to a `FORK` names a child that `p` has to wake up. -/
def AnswerOk (w : World) (p s : Pid) (c r : Msg) : Prop :=
  Fits s c r ∧ (IsFork s c → ∃ newPcb : Pid, r.type = newPcb.val ∧ w.thread newPcb = .created p.val)

/-- **The invariant.** -/
structure Inv (w : World) (queue : Pid → List Msg) : Prop where
  owner : ∀ p, (w.box p).pid = p.val
  boxes : ∀ p, w.thread p ≠ .absent → Holds (w.box p) (queue p) (w.thread p).asked
  empty : ∀ p, w.thread p = .absent → queue p = []
  sources : ∀ p, ∀ m ∈ queue p, IsInterrupt p m ∨ ∃ q, IsFrom q m
  held : ∀ s, ∀ c ∈ w.held s, ∃ p, IsFrom p c
  balanced : (calls w queue).Balanced
  answers : ∀ {p s c r}, (w.thread p).waits = some (s, c) → r ∈ answeredIn queue p s →
    AnswerOk w p s c r
  threads : ∀ p, Sound w p (w.thread p)
  kept : ∀ s, ∀ c ∈ w.kept s, Keeps s c ∨ Waited w s c
  recorded : ∀ k, w.isUsed k = true → w.parentWait k = true →
    ∃ c ∈ w.kept pcbManager, c.src = w.ppid k ∧ c.i 0 = k.val
  free_nodup : w.free.Nodup
  free : ∀ k ∈ w.free, IsUser k ∧ w.thread k = .absent
  used : ∀ k, w.isUsed k = true ↔ w.thread k ≠ .absent
  served : ∀ p, ¬ IsUser p → (w.thread p).Live

theorem Thread.waits_eq (waits : t.waits = some (s, c)) :
    ∃ hand rest, t = .waiting hand s c rest := by
  cases t with
  | waiting hand server request rest =>
      obtain ⟨rfl, rfl⟩ := Prod.mk.inj (Option.some.inj waits)
      exact ⟨hand, rest, rfl⟩
  | absent => exact absurd waits nofun
  | created _ => exact absurd waits nofun
  | awake _ _ => exact absurd waits nofun
  | listening => exact absurd waits nofun

theorem Thread.Live.ne_absent (live : t.Live) : t ≠ .absent := by
  rintro rfl
  exact live

theorem Thread.Live.ne_created (live : t.Live) {waker : Int} : t ≠ .created waker := by
  rintro rfl
  exact live

/-! ### What the invariant says about a message -/

/-- A thread that waits has asked a server below it for something that it knows. -/
theorem Inv.waits (inv : Inv w queue) (waits : (w.thread p).waits = some (s, c)) :
    IsFrom p c ∧ Known p s c := by
  obtain ⟨hand, rest, here⟩ := Thread.waits_eq waits
  have sound := inv.threads p
  rw [here] at sound
  exact ⟨sound.1, sound.2.1⟩

theorem Inv.down (inv : Inv w queue) : (calls w queue).Down rank :=
  fun waits => (inv.waits waits).2.rank_lt

/-- **A request in hand, or put aside,** is the one its sender waits with. -/
theorem Inv.of_held (inv : Inv w queue) (here : c ∈ w.held s) :
    ∃ p, IsFrom p c ∧ (w.thread p).waits = some (s, c) ∧
    (∀ t, answeredIn queue p t = 0) ∧ mail p (w.held s) = {c} := by
  obtain ⟨p, source⟩ := inv.held s c here
  have member : c ∈ mail p (w.held s) := mem_mail.mpr ⟨here, source⟩
  obtain ⟨waits, alone, none⟩ :=
    inv.balanced.of_request (p := p) (s := s) (m := c) (Multiset.mem_add.mpr (.inr member))
  refine ⟨p, source, waits, fun t => ?_, ?_⟩
  · by_cases same : t = s
    · rw [same]
      exact none
    · refine (inv.balanced.clear (p := p) (s := t) fun m => ?_).2
      rw [waits]
      exact fun both => same (Prod.mk.inj (Option.some.inj both)).1.symm
  · -- there is one request, and it is not in the queue
    have below : mail p (w.held s) ≤ {c} := by
      rw [← alone]
      exact Multiset.le_add_left _ _
    exact le_antisymm below (Multiset.singleton_le.mpr member)

/-- So is one in the queue of a thread that does not wait for its sender. -/
theorem Inv.of_queue (inv : Inv w queue) (here : m ∈ queue s) (source : IsFrom p m)
    (other : ∀ c, (w.thread s).waits ≠ some (p, c)) : (w.thread p).waits = some (s, m) := by
  by_cases up : rank s ≤ rank p
  · refine (inv.balanced.of_request (p := p) (s := s) (m := m) (Multiset.mem_add.mpr (.inl ?_))).1
    show m ∈ askedIn queue p s
    rw [askedIn, if_pos up]
    exact mem_mail.mpr ⟨here, source⟩
  · have there : m ∈ (calls w queue).answered s p := by
      show m ∈ answeredIn queue s p
      rw [answeredIn, if_pos (by omega)]
      exact mem_mail.mpr ⟨here, source⟩
    obtain ⟨c, waits, _⟩ := inv.balanced.of_answer there
    exact absurd waits (other c)

/-- A message from the server a thread waits for is the answer. -/
theorem Inv.of_server (inv : Inv w queue) (waits : (w.thread p).waits = some (s, c))
    (here : r ∈ queue p) (source : IsFrom s r) : r ∈ answeredIn queue p s := by
  rw [answeredIn, if_pos (inv.waits waits).2.rank_lt]
  exact mem_mail.mpr ⟨here, source⟩

/-- A message that lies at a process with nobody above it, where no answer does, is an
interrupt's. -/
theorem Inv.no_mail (inv : Inv w queue) (top : rank p = 4)
    (noAnswer : ∀ s, answeredIn queue p s = 0) (here : m ∈ queue p) :
    IsInterrupt p m := by
  rcases inv.sources p m here with interrupt | ⟨q, source⟩
  · exact interrupt
  · by_cases up : rank q < rank p
    · have there : m ∈ answeredIn queue p q := by
        rw [answeredIn, if_pos up]
        exact mem_mail.mpr ⟨here, source⟩
      rw [noAnswer q] at there
      exact absurd there (Multiset.notMem_zero m)
    · have there : m ∈ (calls w queue).requests q p := by
        refine Multiset.mem_add.mpr (.inl ?_)
        show m ∈ askedIn queue q p
        rw [askedIn, if_pos (by omega)]
        exact mem_mail.mpr ⟨here, source⟩
      have below := inv.down (inv.balanced.of_request there).1
      have := rank_le q
      omega

theorem not_interrupt_of_top (top : rank p = 4) : ¬ IsInterrupt p m := by
  rintro ⟨_, ⟨rfl, _⟩ | ⟨rfl, _⟩⟩
  · exact absurd top (by decide)
  · exact absurd top (by decide)

/-- A process with nobody above it, and no answer, has no message. -/
theorem Inv.queue_eq_nil (inv : Inv w queue) (top : rank p = 4)
    (noAnswer : ∀ s, answeredIn queue p s = 0) :
    queue p = [] :=
  List.eq_nil_iff_forall_not_mem.mpr fun _ here => not_interrupt_of_top top
    (inv.no_mail top noAnswer here)

/-- Nothing is answered to a thread that does not wait. -/
theorem Inv.answeredIn_eq_zero (inv : Inv w queue) (none : (w.thread p).waits = none) (s : Pid) :
    answeredIn queue p s = 0 :=
  (inv.balanced.clear (p := p) (s := s) fun m => by
    show (w.thread p).waits ≠ _
    rw [none]
    exact nofun).2

theorem IsFrom.sender (source : IsFrom p m) : Sender m.src := by
  unfold IsFrom at source
  unfold Sender
  have := p.isLt
  omega

theorem IsFrom.not_intr (source : IsFrom p m) : m.src ≠ hardIntr := by
  unfold IsFrom hardIntr at *
  omega

theorem sender_pid (p : Pid) : Sender (p.val : Int) := .inr ⟨by omega, by omega⟩

/-! ### What a step of one thread leaves -/

/-- The children that are set up stay as they are. -/
structure Frame (w w' : World) : Prop where
  absent : ∀ k, w.thread k = .absent → w'.thread k = .absent
  created : ∀ {k waker}, w.thread k = .created waker → w'.thread k = .created waker
  free : ∀ k, w.thread k = .absent → k ∉ w.free → k ∉ w'.free
  ppid : ∀ k, w'.ppid k = w.ppid k

theorem Tends.frame (tends : Tends w p hand birth) (frame : Frame w w') :
    Tends w' p hand birth := by
  cases birth with
  | none => trivial
  | thread => exact ⟨tends.1, (frame.ppid p).trans tends.2⟩
  | taken k => exact ⟨tends.1, tends.2.1, frame.absent k tends.2.2.1,
      frame.free k tends.2.2.1 tends.2.2.2⟩
  | born k waker => exact ⟨frame.created tends.1, tends.2⟩

theorem Sound.imp (sound : Sound w p t)
    (tends : ∀ {hand birth}, t.hand = hand → Tends w p hand birth → Tends w' p hand birth) :
    Sound w' p t := by
  cases t with
  | absent => trivial
  | created _ => trivial
  | listening => exact sound
  | awake hand script =>
      obtain ⟨birth, before, behaves⟩ := sound
      exact ⟨birth, tends rfl before, behaves⟩
  | waiting hand s m rest =>
      obtain ⟨source, known, birth, before, expects⟩ := sound
      exact ⟨source, known, birth, tends rfl before, expects⟩

theorem Sound.frame (sound : Sound w p t) (frame : Frame w w') : Sound w' p t :=
  sound.imp fun _ tends => tends.frame frame

theorem Sound.of_dead (dead : ¬ t.Live) : Sound w p t := by
  cases t with
  | absent => trivial
  | created _ => trivial
  | awake _ _ => exact absurd trivial dead
  | listening => exact absurd trivial dead
  | waiting _ _ _ _ => exact absurd trivial dead

theorem AnswerOk.frame (ok : AnswerOk w p s c r) (frame : Frame w w') : AnswerOk w' p s c r :=
  ⟨ok.1, fun fork => by
    obtain ⟨k, same, created⟩ := ok.2 fork
    exact ⟨k, same, frame.created created⟩⟩

/-- Where only a thread that has been started changes, they do. -/
theorem Frame.of_live (live : (w.thread p).Live)
    (thread : w'.thread = Function.update w.thread p t') (free : w'.free <:+ w.free)
    (ppid : w'.ppid = w.ppid) : Frame w w' := by
  have other : ∀ {q}, ¬ (w.thread q).Live → w'.thread q = w.thread q := fun {q} dead => by
    rw [thread]
    refine Function.update_of_ne (fun same => dead ?_) ..
    rw [same]
    exact live
  exact {
    absent := fun k absent => (other (by rw [absent]; exact id)).trans absent
    created := fun {k _} created => (other (by rw [created]; exact id)).trans created
    free := fun k _ away member => away (free.subset member)
    ppid := fun k => congrFun ppid k }

/-- A step of `p` that changes no other thread. -/
theorem Inv.turn (inv : Inv w queue) (live : (w.thread p).Live) (live' : t'.Live)
    (thread : w'.thread = Function.update w.thread p t') (free : w'.free <:+ w.free)
    (used : w'.isUsed = w.isUsed) (ppid : w'.ppid = w.ppid) (owner : ∀ q, (w'.box q).pid = q.val)
    (boxes : ∀ q, w.thread q ≠ .absent →
      Holds (w'.box q) (queue' q) (Function.update w.thread p t' q).asked)
    (empty : ∀ q, w.thread q = .absent → queue' q = queue q)
    (sources : ∀ q, ∀ m ∈ queue' q, IsInterrupt q m ∨ ∃ a, IsFrom a m)
    (held : ∀ s, ∀ c ∈ w'.held s, ∃ a, IsFrom a c) (balanced : (calls w' queue').Balanced)
    (answers : ∀ {q s c r}, (w'.thread q).waits = some (s, c) → r ∈ answeredIn queue' q s →
      (w.thread q).waits = some (s, c) ∧ r ∈ answeredIn queue q s ∨ AnswerOk w q s c r)
    (sound : Sound w' p t') (kept : ∀ s, ∀ c ∈ w'.kept s, Keeps s c ∨ Waited w' s c)
    (recorded : ∀ k, w'.isUsed k = true → w'.parentWait k = true →
      ∃ c ∈ w'.kept pcbManager, c.src = w'.ppid k ∧ c.i 0 = k.val) : Inv w' queue' := by
  have frame := Frame.of_live live thread free ppid
  have absent : ∀ q, w'.thread q = .absent ↔ w.thread q = .absent := fun q => by
    rw [thread]
    by_cases here : q = p
    · subst here
      rw [Function.update_self]
      exact ⟨fun same => absurd same live'.ne_absent, fun same => absurd same live.ne_absent⟩
    · rw [Function.update_of_ne here]
  refine ⟨owner, fun q there => ?_, fun q gone => ?_, sources, held, balanced, fun waits here => ?_,
    fun q => ?_, kept,
    recorded,
    inv.free_nodup.sublist free.sublist, fun k member => ?_, fun k => ?_, fun q server => ?_⟩
  · rw [thread]
    exact boxes q fun gone => there ((absent q).mpr gone)
  · have before := (absent q).mp gone
    exact (empty q before).trans (inv.empty q before)
  · rcases answers waits here with ⟨waits, here⟩ | ok
    · exact (inv.answers waits here).frame frame
    · exact ok.frame frame
  · rw [thread]
    by_cases here : q = p
    · subst here
      rw [Function.update_self]
      exact sound
    · rw [Function.update_of_ne here]
      exact (inv.threads q).frame frame
  · obtain ⟨user, gone⟩ := inv.free k (free.subset member)
    exact ⟨user, (absent k).mpr gone⟩
  · rw [used, inv.used, not_iff_not, absent]
  · rw [thread]
    by_cases here : q = p
    · subst here
      rw [Function.update_self]
      exact live'
    · rw [Function.update_of_ne here]
      exact inv.served q server

/-! ### The parts of a step -/

theorem owner_update {b : Mailbox} (owner : ∀ q, (w.box q).pid = q.val)
    (same : b.pid = (w.box p).pid) (q : Pid) :
    (Function.update w.box p b q).pid = q.val := by
  by_cases here : q = p
  · subst here
    rw [Function.update_self, same, owner]
  · rw [Function.update_of_ne here, owner]

theorem update_waits (waits : t'.waits = (w.thread p).waits) (q : Pid) :
    (Function.update w.thread p t' q).waits = (w.thread q).waits := by
  by_cases here : q = p
  · subst here
    rw [Function.update_self, waits]
  · rw [Function.update_of_ne here]

theorem calls_waits (t' : Thread) (thread : w'.thread = Function.update w.thread p t') :
    (calls w' queue').waits = Function.update (calls w queue).waits p t'.waits := by
  funext q
  show (w'.thread q).waits = Function.update (fun q => (w.thread q).waits) p t'.waits q
  rw [thread]
  by_cases here : q = p
  · subst here
    rw [Function.update_self, Function.update_self]
  · rw [Function.update_of_ne here, Function.update_of_ne here]

theorem calls_waits_same (thread : w'.thread = Function.update w.thread p t')
    (waits : t'.waits = (w.thread p).waits) :
    (calls w' queue').waits = (calls w queue).waits := by
  funext q
  show (w'.thread q).waits = (w.thread q).waits
  rw [thread, update_waits waits]

/-- The requests that are held, where one thread goes from `hand` to `t'` and puts `more` aside. -/
theorem held_update (thread : w'.thread = Function.update w.thread p t')
    (kept : w'.kept = Function.update w.kept p (w.kept p ++ more))
    (perm : (t'.hand.toList ++ more).Perm (w.thread p).hand.toList) (s : Pid) :
    (w'.held s).Perm (w.held s) := by
  unfold World.held
  rw [thread, kept]
  by_cases here : s = p
  · subst here
    rw [Function.update_self, Function.update_self]
    refine (List.perm_append_comm.append_left _).trans ?_
    rw [← List.append_assoc]
    exact perm.append_right _
  · rw [Function.update_of_ne here, Function.update_of_ne here]

theorem Waited.mono (waited : Waited w s c) (used : w'.isUsed = w.isUsed) (ppid : w'.ppid = w.ppid)
    (parentWait : ∀ k, w.parentWait k = true → w'.parentWait k = true) : Waited w' s c := by
  obtain ⟨server, type, child⟩ := waited
  refine ⟨server, type, fun k same => ?_⟩
  rw [used, ppid]
  exact ⟨(child k same).1, (child k same).2.1, parentWait k (child k same).2.2⟩

/-- **A step without a message**: `p` goes on, and can put requests aside. -/
theorem Inv.stash {b : Mailbox} (more : List Msg) (inv : Inv w queue) (live : (w.thread p).Live)
    (live' : t'.Live) (thread : w'.thread = Function.update w.thread p t')
    (free : w'.free <:+ w.free) (used : w'.isUsed = w.isUsed) (ppid : w'.ppid = w.ppid)
    (box : w'.box = Function.update w.box p b) (pid : b.pid = (w.box p).pid)
    (holds : Holds b (queue p) t'.asked) (waits : t'.waits = (w.thread p).waits)
    (kept : w'.kept = Function.update w.kept p (w.kept p ++ more))
    (perm : (t'.hand.toList ++ more).Perm (w.thread p).hand.toList)
    (aside : ∀ c ∈ more, Keeps p c ∨ Waited w' p c) (sound : Sound w' p t')
    (parentWait : ∀ k, w.parentWait k = true → w'.parentWait k = true)
    (recorded : ∀ k, w.isUsed k = true → w'.parentWait k = true → w.parentWait k = true ∨
      ∃ c ∈ w'.kept pcbManager, c.src = w.ppid k ∧ c.i 0 = k.val) : Inv w' queue := by
  have held := held_update thread kept perm
  have old : ∀ s, ∀ c ∈ w.kept s, c ∈ w'.kept s := fun s c member => by
    rw [kept]
    by_cases here : s = p
    · subst here
      rw [Function.update_self]
      exact List.mem_append_left _ member
    · rwa [Function.update_of_ne here]
  refine inv.turn live live' thread free used ppid ?_ ?_ (fun _ _ => rfl) inv.sources
    (fun s c member => ?_) ?_ ?_ sound
    (fun s c member => ?_) fun k user recording => ?_
  · rw [box]
    exact owner_update inv.owner pid
  · intro q there
    rw [box]
    by_cases here : q = p
    · subst here
      rw [Function.update_self, Function.update_self]
      exact holds
    · rw [Function.update_of_ne here, Function.update_of_ne here]
      exact inv.boxes q there
  · exact inv.held s c ((held s).mem_iff.mp member)
  · refine inv.balanced.pass (calls_waits_same thread waits) (fun q t => ?_) fun _ _ => rfl
    exact congrArg (askedIn queue q t + ·) (mail_perm (held t))
  · intro q s c r waiting there
    rw [thread, update_waits waits] at waiting
    exact .inl ⟨waiting, there⟩
  · rw [kept] at member
    by_cases here : s = p
    · subst here
      rw [Function.update_self] at member
      rcases List.mem_append.mp member with before | now
      · exact (inv.kept s c before).imp id fun waited => waited.mono used ppid parentWait
      · exact aside c now
    · rw [Function.update_of_ne here] at member
      exact (inv.kept s c member).imp id fun waited => waited.mono used ppid parentWait
  · rw [used] at user
    rw [ppid]
    rcases recorded k user recording with before | now
    · obtain ⟨c, member, source, child⟩ := inv.recorded k user before
      exact ⟨c, old _ c member, source, child⟩
    · exact now

/-- **A step without anything**: only what is left of the function changes. -/
theorem Inv.stay (inv : Inv w queue) (live : (w.thread p).Live) (live' : t'.Live)
    (asked : t'.asked = (w.thread p).asked) (waits : t'.waits = (w.thread p).waits)
    (hand : t'.hand = (w.thread p).hand) {free : List Pid} (suffix : free <:+ w.free)
    (sound : Sound ({ w with free }.setThread p t') p t') :
    Inv ({ w with free }.setThread p t') queue := by
  have holds := inv.boxes p live.ne_absent
  rw [← asked] at holds
  refine inv.stash [] live live' rfl suffix rfl rfl
    (Function.update_eq_self ..).symm rfl holds waits ?_ ?_
    nofun sound (fun _ => id) fun k _ recording => .inl recording
  · rw [List.append_nil, Function.update_eq_self]
    rfl
  · rw [List.append_nil, hand]

end Invariant

end NjuOs.Process.Services
