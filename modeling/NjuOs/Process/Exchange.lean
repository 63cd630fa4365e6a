/-
**The steps of a call.**

One lemma for each thing that a thread does with messages: the loop of a server, a call, an answer,
the requests that are put aside and served later, the interrupts and the waits for a child. Each
keeps `Inv`, with the lists that the step leaves.
-/

import NjuOs.Process.Protocol

namespace NjuOs.Process.Services

open NjuOs.Lib NjuOs.Process

/-! ### The steps of a thread -/

section Exchange

variable {w w' : World} {queue queue' : Pid → List Msg} {p q s d : Pid} {m c r : Msg}
  {t t' : Thread} {hand : Option Msg} {birth : Birth} {rest : Msg → Script} {b b' : Mailbox}
  {script next : Script} {out : Option Msg}

theorem live_awake (here : w.thread p = .awake hand script) : (w.thread p).Live := by
  rw [here]
  trivial

theorem live_listening : Thread.listening.Live := trivial

theorem live_mk (hand : Option Msg) (script : Script) : (Thread.awake hand script).Live := trivial

/-- What the invariant says about a thread that is awake. -/
theorem Inv.awake (inv : Inv w queue) (here : w.thread p = .awake hand script) :
    ∃ birth, Tends w p hand birth ∧ Behaves p hand birth script := by
  have sound := inv.threads p
  rwa [here] at sound

/-- Only what is left of the function of an awake thread changes. -/
theorem Inv.goOn (inv : Inv w queue) (here : w.thread p = .awake hand script)
    (sound : ∃ birth, Tends w p hand birth ∧ Behaves p hand birth next) :
    Inv (w.setThread p (.awake hand next)) queue := by
  obtain ⟨birth, tends, behaves⟩ := sound
  have frame : Frame w (w.setThread p (.awake hand next)) :=
    .of_live (live_awake here) rfl (List.suffix_refl _) rfl
  exact inv.stay (live_awake here) (live_mk hand next) (by rw [here]; rfl) (by rw [here]; rfl)
    (by rw [here]; rfl)
    (List.suffix_refl _) ⟨birth, tends.frame frame, behaves⟩

/-- The first free PCB is taken. -/
theorem Inv.takePcb {k : Pid} {free : List Pid} {rest : Pid → Script} (inv : Inv w queue)
    (here : w.thread p = .awake hand (.takePcb rest)) (first : w.free = k :: free) :
    Inv ({ w with free }.setThread p (.awake hand (rest k))) queue := by
  obtain ⟨birth, _, behaves⟩ := inv.awake here
  cases behaves with
  | takePcb manager next =>
      have suffix : free <:+ w.free := by
        rw [first]
        exact List.suffix_cons k free
      obtain ⟨user, absent⟩ := inv.free k (by
        rw [first]
        exact List.mem_cons_self)
      have away : k ∉ free := by
        have nodup := inv.free_nodup
        rw [first] at nodup
        exact (List.nodup_cons.mp nodup).1
      have frame : Frame w ({ w with free }.setThread p (.awake hand (rest k))) :=
        .of_live (live_awake here) rfl suffix rfl
      exact inv.stay (live_awake here) (live_mk hand _) (by rw [here]; rfl) (by rw [here]; rfl)
        (by rw [here]; rfl) suffix
        ⟨.taken k, ⟨manager, user, frame.absent k absent, away⟩, next k⟩

/-! #### The loop of a server -/

/-- A server is at the end of a handler, or inside `receive(ANY)`. -/
def AtLoop (w : World) (p : Pid) (hand : Option Msg) : Prop :=
  w.thread p = .awake hand .done ∨ w.thread p = .listening ∧ hand = none

theorem AtLoop.live (loop : AtLoop w p hand) : (w.thread p).Live := by
  rcases loop with here | ⟨here, _⟩
  · rw [here]
    trivial
  · rw [here]
    trivial

theorem AtLoop.waits (loop : AtLoop w p hand) : (w.thread p).waits = none := by
  rcases loop with here | ⟨here, _⟩
  · rw [here]
    rfl
  · rw [here]
    rfl

theorem AtLoop.inHand (loop : AtLoop w p hand) : (w.thread p).hand = hand := by
  rcases loop with here | ⟨here, none⟩
  · rw [here]
    rfl
  · rw [here, none]
    rfl

theorem AtLoop.asked (loop : AtLoop w p hand) :
    (w.thread p).asked = none ∨ (w.thread p).asked = some (-1) := by
  rcases loop with here | ⟨here, _⟩
  · exact .inl (by rw [here]; rfl)
  · exact .inr (by rw [here]; rfl)

/-- Only a request that may be kept is put aside there. -/
theorem Inv.aside (inv : Inv w queue) (loop : AtLoop w p hand) (here : c ∈ hand.toList) :
    Keeps p c := by
  rcases loop with awake | ⟨_, none⟩
  · obtain ⟨birth, _, behaves⟩ := inv.awake awake
    cases behaves with
    | done keeps => exact keeps c (Option.mem_toList.mp here)
  · rw [none] at here
    exact absurd here List.not_mem_nil

theorem Inv.listen (inv : Inv w queue) (server : IsServer p) (here : w.thread p = .awake hand .done)
    (ran : hear (-1) (w.box p) = some (none, b)) :
    Inv (((w.setBox p b).keep p hand).setThread p .listening) queue := by
  have loop : AtLoop w p hand := .inl here
  obtain ⟨owner, _, holds⟩ := (inv.boxes p loop.live.ne_absent).hear loop.asked ran
  refine inv.stash _ loop.live live_listening rfl (List.suffix_refl _) rfl rfl rfl owner holds
    (by rw [loop.waits]; rfl) rfl ?_
    (fun c member => .inl (inv.aside loop member)) server (fun _ => id) fun k _ recording =>
    .inl recording
  rw [loop.inHand]
  exact List.Perm.refl _

/-- A box that has changed. -/
theorem Inv.boxes_update {ms : List Msg} (inv : Inv w queue) (holds : Holds b ms t'.asked) (q : Pid)
    (there : w.thread q ≠ .absent) :
    Holds (Function.update w.box p b q) (Function.update queue p ms q)
      (Function.update w.thread p t' q).asked := by
  by_cases here : q = p
  · subst here
    rw [Function.update_self, Function.update_self, Function.update_self]
    exact holds
  · rw [Function.update_of_ne here, Function.update_of_ne here, Function.update_of_ne here]
    exact inv.boxes q there

theorem Inv.empty_update {ms : List Msg} (live : (w.thread p).Live) (q : Pid)
    (absent : w.thread q = .absent) :
    Function.update queue p ms q = queue q := by
  refine Function.update_of_ne (fun same => ?_) ..
  rw [same] at absent
  exact live.ne_absent absent

/-- **A server takes a message.** -/
theorem Inv.accept (inv : Inv w queue) (loop : AtLoop w p hand)
    (ran : hear (-1) (w.box p) = some (some m, b)) (serves : Serves m p script) :
    ∃ queue', Inv (((w.setBox p b).keep p hand).setThread p
      (.awake (if m.src = hardIntr then none else some m) script))
      queue' := by
  obtain ⟨owner, _, rest, perm, holds⟩ := (inv.boxes p loop.live.ne_absent).hear loop.asked ran
  have puts := puts_take perm
  have member : m ∈ queue p := perm.mem_iff.mpr List.mem_cons_self
  generalize taken : (if m.src = hardIntr then none else some m) = new
  generalize after : ((w.setBox p b).keep p hand).setThread p (.awake new script) = w'
  have thread : w'.thread = Function.update w.thread p (.awake new script) := by rw [← after]; rfl
  have kept : w'.kept = Function.update w.kept p (w.kept p ++ hand.toList) := by rw [← after]; rfl
  have box : w'.box = Function.update w.box p b := by rw [← after]; rfl
  have free : w'.free = w.free := by rw [← after]; rfl
  have used : w'.isUsed = w.isUsed := by rw [← after]; rfl
  have ppid : w'.ppid = w.ppid := by rw [← after]; rfl
  have parentWait : w'.parentWait = w.parentWait := by rw [← after]; rfl
  have same : ∀ {c}, c ∈ w.kept p → c ∈ w'.kept p := fun {c} here => by
    rw [kept, Function.update_self]
    exact List.mem_append_left _ here
  -- the calls: an interrupt is none of them, a request goes from the queue into the hand
  obtain ⟨sound, balanced, answered, held⟩ : Sound w' p (.awake new script) ∧
      (calls w' (Function.update queue p rest)).Balanced ∧
      (∀ q t, answeredIn (Function.update queue p rest) q t = answeredIn queue q t) ∧
      ∀ s, ∀ c ∈ w'.held s, ∃ a, IsFrom a c := by
    have waits : (calls w' (Function.update queue p rest)).waits = (calls w queue).waits :=
      calls_waits_same thread (by rw [loop.waits]; rfl)
    rcases inv.sources p m member with interrupt | ⟨q, source⟩
    · rw [if_pos interrupt.1] at taken
      subst taken
      have perm : ∀ s, (w'.held s).Perm (w.held s) :=
        held_update thread kept (by rw [loop.inHand]; exact List.Perm.refl _)
      have moved := puts.interrupt interrupt.1
      refine ⟨⟨.none, trivial, serves.behaves_interrupt interrupt⟩,
        inv.balanced.pass waits (fun q t => ?_) fun q t =>
        (moved q t).2.symm, fun q t => (moved q t).2.symm,
        fun s c here => inv.held s c ((perm s).mem_iff.mp here)⟩
      show askedIn _ q t + mail q (w'.held t) = askedIn queue q t + mail q (w.held t)
      rw [(moved q t).1, mail_perm (perm t)]
    · rw [if_neg source.not_intr] at taken
      subst taken
      have asked := inv.of_queue member source (by rw [loop.waits]; exact fun _ => nofun)
      have known := (inv.waits asked).2
      have moved := puts.request source known.rank_lt.le
      have held : Puts w.held w'.held p m := by
        refine ⟨?_, fun e other => ?_⟩
        · rw [World.held, World.held, thread, kept, Function.update_self,
            Function.update_self, loop.inHand]
          show (m :: (w.kept p ++ hand.toList)).Perm (m :: (hand.toList ++ w.kept p))
          exact List.perm_append_comm.cons m
        · rw [World.held, World.held, thread, kept, Function.update_of_ne other,
            Function.update_of_ne other]
      refine ⟨⟨.none, trivial, serves.behaves known source.not_intr⟩,
        inv.balanced.pass waits (fun a t => ?_) fun a t =>
        (moved a t).2.symm, fun a t => (moved a t).2.symm, fun s c here => ?_⟩
      · show askedIn _ a t + mail a (w'.held t) = askedIn queue a t + mail a (w.held t)
        rw [(moved a t).1, held.owed source a t]
        exact (add_assoc ..).symm.trans (add_right_comm ..)
      · rcases held.mem_big here with old | ⟨_, rfl⟩
        · exact inv.held s c old
        · exact ⟨q, source⟩
  refine ⟨Function.update queue p rest,
    inv.turn loop.live (live_mk new script) thread (by rw [free]) used ppid ?_ ?_
    (Inv.empty_update loop.live) (fun q c here => inv.sources q c (puts.mem here)) held balanced
    ?_ sound ?_ ?_⟩
  · rw [box]
    exact owner_update inv.owner owner
  · rw [box]
    exact inv.boxes_update holds
  · intro q s c r waiting there
    rw [thread, update_waits (by rw [loop.waits]; rfl)] at waiting
    rw [answered] at there
    exact .inl ⟨waiting, there⟩
  · intro s c here
    rw [kept] at here
    by_cases there : s = p
    · subst there
      rw [Function.update_self] at here
      rcases List.mem_append.mp here with old | aside
      · exact (inv.kept s c old).imp id fun waited => waited.mono used ppid fun k => by
          rw [parentWait]; exact id
      · exact .inl (inv.aside loop aside)
    · rw [Function.update_of_ne there] at here
      exact (inv.kept s c here).imp id fun waited => waited.mono used ppid fun k => by
        rw [parentWait]; exact id
  · intro k user recording
    rw [used] at user
    rw [parentWait] at recording
    obtain ⟨c, here, source, child⟩ := inv.recorded k user recording
    refine ⟨c, ?_, by rw [ppid]; exact source, child⟩
    rw [kept]
    by_cases there : pcbManager = p
    · rw [there, Function.update_self]
      exact List.mem_append_left _ (there ▸ here)
    · rw [Function.update_of_ne there]
      exact here

/-! #### The messages of a call -/

/-- A step of `p` in which messages move and no request does. -/
theorem Inv.move {box : Pid → Mailbox} (t' : Thread) (inv : Inv w queue) (live : (w.thread p).Live)
    (live' : t'.Live) (hand : t'.hand = (w.thread p).hand) (owner : ∀ q, (box q).pid = q.val)
    (boxes : ∀ q, w.thread q ≠ .absent →
      Holds (box q) (queue' q) (Function.update w.thread p t' q).asked)
    (empty : ∀ q, w.thread q = .absent → queue' q = queue q)
    (sources : ∀ q, ∀ m ∈ queue' q, IsInterrupt q m ∨ ∃ a, IsFrom a m)
    (balanced :
      (∀ s, World.held { w with box, thread := Function.update w.thread p t' } s = w.held s) →
      (calls { w with box, thread := Function.update w.thread p t' } queue').Balanced)
    (answers : ∀ {q s c r}, (Function.update w.thread p t' q).waits = some (s, c) →
      r ∈ answeredIn queue' q s → (w.thread q).waits = some (s, c) ∧ r ∈ answeredIn queue q s)
    (sound : Frame w { w with box, thread := Function.update w.thread p t' } →
      Sound { w with box, thread := Function.update w.thread p t' } p t') :
    Inv { w with box, thread := Function.update w.thread p t' } queue' := by
  have held : ∀ s, World.held { w with box, thread := Function.update w.thread p t' } s =
      w.held s := fun s => by
    unfold World.held
    by_cases here : s = p
    · subst here
      show (Function.update w.thread s t' s).hand.toList ++ _ = _
      rw [Function.update_self, hand]
    · show (Function.update w.thread p t' s).hand.toList ++ _ = _
      rw [Function.update_of_ne here]
  exact inv.turn live live' rfl (List.suffix_refl _) rfl rfl owner boxes empty sources
    (fun s c here => inv.held s c (held s ▸ here)) (balanced held)
    (fun waiting there => .inl (answers waiting there))
    (sound (.of_live live rfl (List.suffix_refl _) rfl)) inv.kept inv.recorded

/-- The servers that are asked have been started. -/
theorem Inv.server_live (inv : Inv w queue) (known : Known p s m) : (w.thread s).Live := by
  refine inv.served s ?_
  cases known <;> decide

/-- **A request is sent**, and the caller is suspended. -/
theorem Inv.call {dest : Int} (inv : Inv w queue)
    (here : w.thread p = .awake hand (.call dest m rest)) (place : (d.val : Int) = dest)
    (sent : send m (w.box d) = some b)
    (ran : receive dest ((w.setBox d b).box p) = some (out, b')) :
    ∃ queue', Inv (((w.setBox d b).setBox p b').setThread p
      (.heard hand d { m with dest } rest out)) queue' := by
  obtain ⟨birth, tends, behaves⟩ := inv.awake here
  obtain ⟨s, same, source, known, expects⟩ := behaves.of_call
  obtain rfl : s = d := Fin.ext (by omega)
  have below := known.rank_lt
  have other : p ≠ s := fun same => by
    rw [same] at below
    exact lt_irrefl _ below
  have idle : (w.thread p).waits = none := by rw [here]; rfl
  have live := live_awake here
  have serverLive := inv.server_live known
  -- the request comes to the server
  have fromMe : IsFrom p m := source
  obtain ⟨owner, holds⟩ := (inv.boxes s serverLive.ne_absent).send_eq fromMe.sender sent
  rw [inv.owner s, place] at holds
  -- and the caller finds no answer
  have unchanged : (w.setBox s b).box p = w.box p := Function.update_of_ne other ..
  rw [unchanged] at ran
  have mine := inv.boxes p live.ne_absent
  rw [show (w.thread p).asked = none by rw [here]; rfl] at mine
  obtain ⟨owner', heard⟩ := mine.receive (.inr (place ▸ sender_pid s)) ran
  have nothing : out = none := by
    cases out with
    | none => rfl
    | some r =>
        obtain ⟨wanted, ms, perm, _⟩ := heard
        rw [wants_sender (place ▸ sender_pid s), ← place] at wanted
        have there : r ∈ answeredIn queue p s := by
          rw [answeredIn, if_pos below]
          exact mem_mail.mpr ⟨perm.mem_iff.mpr List.mem_cons_self, wanted⟩
        rw [inv.answeredIn_eq_zero idle] at there
        exact absurd there (Multiset.notMem_zero r)
  subst nothing
  have puts := puts_append queue s { m with dest }
  have moved := puts.request (p := p) fromMe below.le
  refine ⟨Function.update queue s (queue s ++ [{ m with dest }]),
    inv.move (.waiting hand s { m with dest } rest) live
    trivial (by rw [here]; rfl) ?_ (fun q there => ?_) (Inv.empty_update serverLive)
      (fun q c there => ?_) (fun held => ?_)
    (fun {q a c r} waiting there => ?_) fun frame => ⟨fromMe, known.redirect dest, birth,
      tends.frame frame, expects⟩⟩
  · have first := owner_update (p := s) inv.owner owner
    intro q
    by_cases me : q = p
    · subst me
      show (Function.update (Function.update w.box s b) q b' q).pid = _
      rw [Function.update_self, owner', inv.owner]
    · show (Function.update (Function.update w.box s b) p b' q).pid = _
      rw [Function.update_of_ne me]
      exact first q
  · show Holds (Function.update (Function.update w.box s b) p b' q) _ _
    by_cases me : q = p
    · subst me
      rw [Function.update_self, Function.update_self, Function.update_of_ne other]
      exact place ▸ heard.2
    · rw [Function.update_of_ne me, Function.update_of_ne me]
      by_cases server : q = s
      · subst server
        rw [Function.update_self, Function.update_self]
        exact holds
      · rw [Function.update_of_ne server, Function.update_of_ne server]
        exact inv.boxes q there
  · rcases puts.mem_big there with old | ⟨_, rfl⟩
    · exact inv.sources q c old
    · exact .inr ⟨p, fromMe⟩
  · refine inv.balanced.start (p := p) (s := s) (m := { m with dest }) idle
      (calls_waits (.waiting hand s { m with dest } rest) rfl) (fun q t => ?_)
      fun q t => (moved q t).2
    show askedIn _ q t + mail q (World.held _ t) = askedIn queue q t + mail q (w.held t) + _
    rw [(moved q t).1, held t]
    exact add_right_comm ..
  · rw [(moved q a).2] at there
    by_cases me : q = p
    · subst me
      rw [inv.answeredIn_eq_zero idle] at there
      exact absurd there (Multiset.notMem_zero r)
    · rw [Function.update_of_ne me] at waiting
      exact ⟨waiting, there⟩

/-- **The answer is taken**: a caller that runs again has it. -/
theorem Inv.resume {request : Msg} (inv : Inv w queue)
    (here : w.thread p = .waiting hand d request rest) (ran : resume (w.box p) = some (out, b)) :
    ∃ queue', Inv ((w.setBox p b).setThread p (.heard hand d request rest out)) queue' := by
  have live : (w.thread p).Live := by
    rw [here]
    trivial
  have waits : (w.thread p).waits = some (d, request) := by rw [here]; rfl
  have sound := inv.threads p
  have mine := inv.boxes p live.ne_absent
  rw [here] at sound mine
  obtain ⟨_, known, birth, tends, expects⟩ := sound
  have below := known.rank_lt
  obtain ⟨owner, r, rfl, wanted, ms, perm, holds⟩ := mine.resume ran
  have source : IsFrom d r := (wants_sender (sender_pid d) r).mp wanted
  have puts := puts_take perm
  have moved := puts.answer source below
  obtain ⟨fits, named⟩ :=
    inv.answers waits (inv.of_server waits (perm.mem_iff.mpr List.mem_cons_self) source)
  refine ⟨Function.update queue p ms,
    inv.move (.awake hand (rest r)) live trivial (by rw [here]; rfl)
    (owner_update inv.owner owner) (inv.boxes_update holds) (Inv.empty_update live)
    (fun q c there => inv.sources q c (puts.mem there)) (fun held => ?_)
    (fun {q a c x} waiting there => ?_)
    fun frame => ?_⟩
  · refine inv.balanced.finish (p := p) (s := d) (r := r) (calls_waits (.awake hand (rest r)) rfl)
      (fun q t => ?_)
      fun q t => (moved q t).2
    show askedIn _ q t + mail q (World.held _ t) = askedIn queue q t + mail q (w.held t)
    rw [(moved q t).1, held t]
  · by_cases me : q = p
    · subst me
      rw [Function.update_self] at waiting
      exact absurd waiting nofun
    · rw [Function.update_of_ne me] at waiting
      refine ⟨waiting, ?_⟩
      rw [(moved q a).2]
      exact Multiset.mem_add.mpr (.inl there)
  · unfold Expects at expects
    split at expects
    · case isTrue fork =>
        obtain ⟨k, same, created⟩ := named fork
        exact ⟨.born k p.val, ⟨frame.created created, .inl rfl⟩, expects.2 r k same⟩
    · exact ⟨birth, tends.frame frame, expects r fits⟩

/-- **An answer is sent**: the request `c` of `d` is no longer held by the server `s`. -/
theorem Inv.deliver (t' : Thread) (inv : Inv w queue) (live : (w.thread s).Live) (live' : t'.Live)
    (thread : w'.thread = Function.update w.thread s t') (free : w'.free = w.free)
    (used : w'.isUsed = w.isUsed) (ppid : w'.ppid = w.ppid)
    (box : w'.box = Function.update w.box d b) (sent : send m (w.box d) = some b)
    (source : IsFrom s m) (asked : t'.asked = (w.thread s).asked)
    (waits : t'.waits = (w.thread s).waits) (place : IsFrom d c) (held : Puts w'.held w.held s c)
    (ok : AnswerOk w d s c m) (sound : Sound w' s t')
    (kept : ∀ a, ∀ x ∈ w'.kept a, Keeps a x ∨ Waited w' a x)
    (recorded : ∀ k, w'.isUsed k = true → w'.parentWait k = true →
      ∃ x ∈ w'.kept pcbManager, x.src = w'.ppid k ∧ x.i 0 = k.val) : ∃ queue', Inv w' queue' := by
  -- the one that is answered waits for it
  have request : c ∈ w.held s := held.here.mem_iff.mpr List.mem_cons_self
  obtain ⟨p, from_p, waiting, none, _⟩ := inv.of_held request
  obtain rfl := (isFrom_inj from_p).mp place
  obtain ⟨_, known⟩ := inv.waits waiting
  have below := known.rank_lt
  obtain ⟨handD, restD, there⟩ := Thread.waits_eq waiting
  have other : d ≠ s := fun same => by
    rw [same] at below
    exact lt_irrefl _ below
  have liveD : (w.thread d).Live := by
    rw [there]
    trivial
  obtain ⟨owner, holds⟩ := (inv.boxes d liveD.ne_absent).send_eq source.sender sent
  have puts := puts_append queue d { m with dest := (w.box d).pid }
  have moved := puts.answer (p := s) source below
  refine ⟨Function.update queue d (queue d ++ [{ m with dest := (w.box d).pid }]),
    inv.turn live live' thread
    (by rw [free]) used
    ppid ?_ (fun q there => ?_) (Inv.empty_update liveD) (fun q x there => ?_)
    (fun a x there => inv.held a x (held.mem there)) ?_
    (fun {q a x r} waitingQ there => ?_) sound kept recorded⟩
  · rw [box]
    exact owner_update inv.owner owner
  · rw [box]
    have same : (Function.update w.thread s t' q).asked = (w.thread q).asked := by
      by_cases me : q = s
      · subst me
        rw [Function.update_self, asked]
      · rw [Function.update_of_ne me]
    rw [same]
    by_cases answered : q = d
    · subst answered
      rw [Function.update_self, Function.update_self]
      exact holds
    · rw [Function.update_of_ne answered, Function.update_of_ne answered]
      exact inv.boxes q there
  · rcases puts.mem_big there with old | ⟨_, rfl⟩
    · exact inv.sources q x old
    · exact .inr ⟨s, source⟩
  · refine inv.balanced.answer (p := d) (s := s) (m := c) (r := { m with dest := (w.box d).pid })
      (calls_waits_same thread waits) (fun q t => ?_) fun q t => (moved q t).2
    show askedIn queue q t + mail q (w.held t) = askedIn _ q t + mail q (w'.held t) + _
    rw [(moved q t).1, held.owed place q t, add_assoc]
  · rw [thread, update_waits waits] at waitingQ
    rw [(moved q a).2] at there
    rcases Multiset.mem_add.mp there with old | new
    · exact .inl ⟨waitingQ, old⟩
    · refine .inr ?_
      unfold Calls.only at new
      split at new
      · case isTrue same =>
          obtain ⟨rfl, rfl⟩ := same
          obtain ⟨_, rfl⟩ := Prod.mk.inj (Option.some.inj (waiting.symm.trans waitingQ))
          rw [Multiset.mem_singleton.mp new]
          exact ok
      · exact absurd new (Multiset.notMem_zero r)

theorem Inv.answer {dest : Int} (inv : Inv w queue)
    (here : w.thread p = .awake hand (.answer dest m next)) (place : (d.val : Int) = dest)
    (sent : send m (w.box d) = some b) :
    ∃ queue', Inv ((w.setBox d b).setThread p (.awake none next)) queue' := by
  obtain ⟨birth, tends, behaves⟩ := inv.awake here
  obtain ⟨c, rfl, source, fromD, ok, after⟩ : ∃ c, hand = some c ∧ IsFrom p m ∧ IsFrom d c ∧
    AnswerOk w d p c m ∧
      Behaves p none .none next := by
    cases behaves with
    | answer source fits other after =>
        exact ⟨_, rfl, source, place.symm, ⟨fits, fun fork => absurd fork other⟩, after⟩
    | answerFork k source fork named after =>
        refine ⟨_, rfl, source, place.symm,
          ⟨fun same => absurd (fork.1.symm.trans same) (by decide), fun _ =>
          ⟨k, named, ?_⟩⟩, after⟩
        rw [place]
        exact tends.1
  refine inv.deliver (.awake none next) (live_awake here) trivial rfl rfl rfl rfl rfl sent source
    (by rw [here]; rfl)
    (by rw [here]; rfl) fromD ⟨?_, fun e other => ?_⟩ ok ⟨.none, trivial,
      after⟩ inv.kept inv.recorded
  · rw [World.held, World.held, here]
    show (c :: w.kept p).Perm
      (c :: ((Function.update w.thread p (.awake none next) p).hand.toList ++ w.kept p))
    rw [Function.update_self]
    exact List.Perm.refl _
  · show (w.thread e).hand.toList ++ w.kept e = (Function.update w.thread p
      _ e).hand.toList ++ w.kept e
    rw [Function.update_of_ne other]

/-- Requests that are put aside at a server below the manager are not answered by a new process. -/
theorem Inv.kept_ok (inv : Inv w queue) (here : c ∈ w.kept s) (server : s = timer ∨ s = tty) :
    AnswerOk w d s c m := by
  have keeps : Keeps s c := (inv.kept s c here).resolve_right fun waited => by
    have manager := waited.1
    rcases server with rfl | rfl
    · exact absurd manager (by decide)
    · exact absurd manager (by decide)
  refine ⟨fun same write => ?_, fun fork => ?_⟩
  · subst same
    rcases keeps with ⟨no, _⟩ | ⟨_, read⟩ | ⟨no, _⟩
    · exact absurd no (by decide)
    · exact absurd (read.symm.trans write) (by decide)
    · exact absurd no (by decide)
  · have manager := fork.1
    rcases server with rfl | rfl
    · exact absurd manager (by decide)
    · exact absurd manager (by decide)

/-- Without one of the requests that are put aside. -/
theorem mem_kept {before after : List Msg} (split : w.kept s = before ++ c :: after)
    (here : m ∈ Function.update w.kept s (before ++ after) p) : m ∈ w.kept p := by
  by_cases same : p = s
  · subst same
    rw [Function.update_self] at here
    rw [split]
    exact List.mem_append.mpr ((List.mem_append.mp here).imp id (List.mem_cons_of_mem c))
  · rwa [Function.update_of_ne same] at here

theorem puts_held {before after : List Msg} (split : w.kept s = before ++ c :: after)
    (thread : w'.thread = Function.update w.thread s t') (hand : t'.hand = (w.thread s).hand)
    (kept : w'.kept = Function.update w.kept s (before ++ after)) : Puts w'.held w.held s c := by
  refine ⟨?_, fun e other => ?_⟩
  · rw [World.held, World.held, thread, kept, Function.update_self, Function.update_self, hand,
      split, ← List.append_assoc, ← List.append_assoc]
    exact List.perm_middle
  · rw [World.held, World.held, thread, kept, Function.update_of_ne other,
      Function.update_of_ne other]

/-- No two requests of one process are put aside. -/
theorem Inv.kept_alone {before after : List Msg} (inv : Inv w queue)
    (split : w.kept s = before ++ c :: after) (place : IsFrom d c) (here : m ∈ before ++ after) :
    ¬ IsFrom d m := by
  intro source
  have member : c ∈ w.kept s := by
    rw [split]
    exact List.mem_append_right _ List.mem_cons_self
  obtain ⟨q, fromQ, _, _, single⟩ := inv.of_held (s := s) (c := c) (List.mem_append_right _ member)
  obtain rfl := (isFrom_inj fromQ).mp place
  have perm : (w.held s).Perm (c :: ((w.thread s).hand.toList ++ (before ++ after))) := by
    rw [World.held, split, ← List.append_assoc, ← List.append_assoc]
    exact List.perm_middle
  rw [mail_perm perm, mail_cons place, if_pos rfl, add_eq_right] at single
  have two : m ∈ mail d ((w.thread s).hand.toList ++ (before ++ after)) :=
    mem_mail.mpr ⟨List.mem_append_right _ here, source⟩
  rw [single] at two
  exact Multiset.notMem_zero m two

/-- A request that was put aside there is answered. -/
theorem Inv.serveKept {before after : List Msg} (inv : Inv w queue) (server : s = timer ∨ s = tty)
    (split : w.kept s = before ++ c :: after) (place : (d.val : Int) = c.src) (source : IsFrom s m)
    (sent : send m (w.box d) = some b) (live : (w.thread s).Live) (live' : t'.Live)
    (asked : t'.asked = (w.thread s).asked) (waits : t'.waits = (w.thread s).waits)
    (hand : t'.hand = (w.thread s).hand) (sound : ∀ w', Frame w w' → Sound w' s t') :
    ∃ queue', Inv (((w.setBox d b).setKept s (before ++ after)).setThread s t') queue' := by
  have member : c ∈ w.kept s := by
    rw [split]
    exact List.mem_append_right _ List.mem_cons_self
  refine inv.deliver _ live live' rfl rfl rfl rfl rfl sent source asked waits (c := c) place.symm
    (puts_held split rfl hand rfl)
    (inv.kept_ok member server) (sound _ (.of_live live rfl (List.suffix_refl _) rfl))
    (fun a x there => inv.kept a x (mem_kept split there)) fun k user recording => ?_
  obtain ⟨x, there, child⟩ := inv.recorded k user recording
  refine ⟨x, ?_, child⟩
  show x ∈ Function.update w.kept s (before ++ after) pcbManager
  rwa [Function.update_of_ne (by rcases server with rfl | rfl <;> decide)]

theorem Inv.serveReader {before after : List Msg} {nread : Int} (inv : Inv w queue)
    (here : w.thread p = .awake hand (.serveReader next)) (split : w.kept p = before ++ c :: after)
    (place : (d.val : Int) = c.src)
    (sent : send { c with src := p.val, type := nread } (w.box d) = some b) :
    ∃ queue', Inv (((w.setBox d b).setKept p (before ++ after)).setThread p
      (.awake hand next)) queue' := by
  obtain ⟨birth, tends, behaves⟩ := inv.awake here
  cases behaves with
  | serveReader terminal rest =>
      exact inv.serveKept (.inr terminal) split place
        (show IsFrom p { c with src := p.val, type := nread } from rfl) sent
        (live_awake here) (live_mk none next) (by rw [here]; rfl)
        (by rw [here]; rfl) (by rw [here]; rfl) fun _ _ => ⟨.none, trivial, rest⟩

/-- **The clock wakes a process up** that has asked the timer. -/
theorem Inv.tick {before after : List Msg} (inv : Inv w queue)
    (split : w.kept timer = before ++ c :: after) (place : (d.val : Int) = c.src)
    (source : r.src = timer.val) (sent : send r (w.box d) = some b) :
    ∃ queue', Inv ((w.setBox d b).setKept timer (before ++ after)) queue' := by
  have live : (w.thread timer).Live := inv.served timer (by decide)
  obtain ⟨queue', after⟩ := inv.serveKept (.inl rfl) split place source sent live live rfl rfl rfl
    fun _ frame => (inv.threads timer).frame frame
  have same : Function.update w.thread timer (w.thread timer) = w.thread :=
    Function.update_eq_self ..
  refine ⟨queue', ?_⟩
  unfold World.setThread at after
  rwa [show ((w.setBox d b).setKept timer _).thread = w.thread from rfl, same] at after

/-- **An interrupt** sends a message to the terminals or the disk. -/
theorem Inv.interrupt (inv : Inv w queue) (interrupt : IsInterrupt d m)
    (sent : send m (w.box d) = some b) :
    ∃ queue', Inv (w.setBox d b) queue' := by
  have live : (w.thread d).Live :=
    inv.served d (by rcases interrupt with ⟨_, ⟨rfl, _⟩ | ⟨rfl, _⟩⟩ <;> decide)
  have same : Function.update w.thread d (w.thread d) = w.thread := Function.update_eq_self ..
  obtain ⟨owner, holds⟩ := (inv.boxes d live.ne_absent).send_eq (.inl interrupt.1) sent
  have puts := puts_append queue d { m with dest := (w.box d).pid }
  have moved := puts.interrupt interrupt.1
  have frame : Frame w (w.setBox d b) := ⟨fun _ => id, id, fun _ _ => id, fun _ => rfl⟩
  refine ⟨Function.update queue d (queue d ++ [{ m with dest := (w.box d).pid }]),
    inv.turn live live same.symm
    (List.suffix_refl _) rfl rfl (owner_update inv.owner owner) (inv.boxes_update holds)
    (Inv.empty_update live)
    (fun q x there => ?_) inv.held ?_ (fun {q a x r} waiting there => .inl ⟨waiting, ?_⟩)
    ((inv.threads d).frame frame) inv.kept
    inv.recorded⟩
  · rcases puts.mem_big there with old | ⟨rfl, rfl⟩
    · exact inv.sources q x old
    · exact .inl interrupt
  · refine inv.balanced.pass rfl (fun q t => ?_) fun q t => (moved q t).2
    exact congrArg (· + mail q (w.held t)) (moved q t).1
  · rwa [(moved q a).2] at there

/-! #### The waits for a child -/

theorem Inv.recordWait {ppcb cpcb : Int} {recorded other : Script} (inv : Inv w queue)
    (here : w.thread p = .awake hand (.recordWait ppcb cpcb recorded other))
    (place : (d.val : Int) = cpcb) (child : w.ppid d = ppcb) (used : w.isUsed d = true) :
    Inv (({ w with parentWait := Function.update w.parentWait d true }.keep p hand).setThread p
    (.awake none recorded)) queue := by
  obtain ⟨birth, _, behaves⟩ := inv.awake here
  obtain ⟨c, rfl, rfl, rfl, manager, type, next, _⟩ := behaves.of_recordWait
  have live := live_awake here
  have holds := inv.boxes p live.ne_absent
  rw [here] at holds
  have more : ∀ k, w.parentWait k = true → Function.update w.parentWait d true k = true :=
      fun k waiting => by
    by_cases same : k = d
    · rw [same, Function.update_self]
    · rw [Function.update_of_ne same, waiting]
  refine inv.stash (b := w.box p) _ live (live_mk none recorded) rfl (List.suffix_refl _) rfl rfl
    (Function.update_eq_self ..).symm rfl holds (by rw [here]; rfl) rfl
    (by rw [here]; exact List.Perm.refl _)
    (fun x member => .inr ?_) ⟨.none, trivial, next⟩ more fun k _
      (waiting : Function.update w.parentWait d true k = true) => ?_
  · rw [List.mem_singleton.mp member]
    refine ⟨manager, type, fun k same => ?_⟩
    obtain rfl : k = d := Fin.ext (by omega)
    exact ⟨used, child, Function.update_self ..⟩
  · by_cases same : k = d
    · subst same
      refine .inr ⟨c, ?_, child.symm, place.symm⟩
      show c ∈ Function.update w.kept p (w.kept p ++ [c]) pcbManager
      rw [← manager, Function.update_self]
      exact List.mem_append_right _ (List.mem_singleton_self c)
    · rw [Function.update_of_ne same] at waiting
      exact .inl waiting

theorem Inv.outsideWait {ppcb cpcb : Int} {recorded other : Script} (inv : Inv w queue)
    (here : w.thread p = .awake hand (.recordWait ppcb cpcb recorded other))
    (outside : ¬ (0 ≤ cpcb ∧ cpcb < 50)) :
    Inv ((w.keep p hand).setThread p (.awake none recorded)) queue := by
  obtain ⟨birth, _, behaves⟩ := inv.awake here
  obtain ⟨c, rfl, rfl, rfl, manager, type, next, _⟩ := behaves.of_recordWait
  have live := live_awake here
  have holds := inv.boxes p live.ne_absent
  rw [here] at holds
  refine inv.stash (b := w.box p) _ live (live_mk none recorded) rfl (List.suffix_refl _) rfl rfl
    (Function.update_eq_self ..).symm rfl holds (by rw [here]; rfl) rfl
    (by rw [here]; exact List.Perm.refl _)
    (fun x member => .inr ?_) ⟨.none, trivial, next⟩ (fun _ => id) fun k _ waiting => .inl waiting
  rw [List.mem_singleton.mp member]
  refine ⟨manager, type, fun k same => absurd ?_ outside⟩
  have := k.isLt
  omega

/-- The wait is not recorded. -/
theorem Inv.noChild {ppcb cpcb : Int} {recorded other : Script} (inv : Inv w queue)
    (here : w.thread p = .awake hand (.recordWait ppcb cpcb recorded other)) :
    Inv (w.setThread p (.awake hand other)) queue := by
  obtain ⟨birth, tends, behaves⟩ := inv.awake here
  obtain ⟨_, _, _, _, _, _, _, next⟩ := behaves.of_recordWait
  exact inv.goOn here ⟨.none, trivial, next⟩

theorem Inv.noReader (inv : Inv w queue) (here : w.thread p = .awake hand (.serveReader next)) :
    Inv (w.setThread p (.awake hand next)) queue := by
  obtain ⟨birth, tends, behaves⟩ := inv.awake here
  refine inv.goOn here ?_
  cases behaves with
  | serveReader _ next => exact ⟨.none, trivial, next⟩

end Exchange

end NjuOs.Process.Services
