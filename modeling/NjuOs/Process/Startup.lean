/-
**The boot of the servers.**

`create_shell` writes the two programs to files and asks the process manager for a process that runs
the first of them. The manager takes a PCB, has the memory manager set up its address space, which
reads the program through the file server, has the file server set up its descriptors, sets up the
PCB and wakes it up. A run in which every server answers before the next process goes on leads
through all of this.

* `boots_to_init_pcb`, `boots_to_wakeup`: the states in which the manager has the PCB of the shell
  in its hands.
* `boots_to_shell`: from everything that can lie in memory the system comes to a state in which the
  servers are in their loops, no message is anywhere and the shell is ready to run.
* `boots_to_exec`, `boots_to_child`, `boots_to_wait`: from there the shell asks for another program,
  or forks and waits for its child.
-/

import NjuOs.Process.Lifecycle

namespace NjuOs.Process.Services

open NjuOs.Process

variable {w w₁ w₂ : World} {p s : Pid} {m r request : Msg} {hand : Option Msg}
  {script next : Script} {rest : Msg → Script}

/-! ### Calls that are served at once -/

/-- No message lies in a mailbox. -/
structure Quiet (w : World) : Prop where
  owner : ∀ q, (w.box q).pid = q.val
  empty : ∀ q, w.thread q ≠ .absent → Holds (w.box q) [] (w.thread q).asked

/-- There is a run to `w'`, but for the mailboxes, which are empty behind it. -/
def Settles (w w' : World) : Prop :=
  ∃ box, Relation.ReflTransGen Next w { w' with box } ∧ Quiet { w' with box }

theorem Quiet.settles (quiet : Quiet w) : Settles w w := ⟨w.box, .refl, quiet⟩

theorem Settles.trans (first : Settles w w₁)
    (second : ∀ box, Quiet { w₁ with box } → Settles { w₁ with box } w₂) :
    Settles w w₂ := by
  obtain ⟨box, run, quiet⟩ := first
  obtain ⟨box₂, run₂, quiet₂⟩ := second box quiet
  exact ⟨box₂, run.trans run₂, quiet₂⟩

theorem Settles.step (step : Step p w w₁) (quiet : Quiet w₁) : Settles w w₁ :=
  ⟨w₁.box, .single (.inl ⟨p, step⟩), quiet⟩

/-- A thread goes on and leaves its mailbox alone. -/
theorem Quiet.setThread {t : Thread} (quiet : Quiet w) (there : w.thread p ≠ .absent)
    (asked : t.asked = (w.thread p).asked) : Quiet (w.setThread p t) := by
  refine ⟨quiet.owner, fun q here => ?_⟩
  show Holds (w.box q) [] (Function.update w.thread p t q).asked
  by_cases same : q = p
  · subst same
    rw [Function.update_self, asked]
    exact quiet.empty q there
  · rw [Function.update_of_ne same]
    refine quiet.empty q fun absent => here ?_
    show Function.update w.thread p t q = _
    rw [Function.update_of_ne same, absent]

theorem World.setThread_idem (w : World) (t t' : Thread) :
    (w.setThread p t).setThread p t' = w.setThread p t' := by
  unfold World.setThread
  rw [Function.update_idem]

@[simp] theorem World.setThread_thread (w : World) (t : Thread) : (w.setThread p t).thread p = t :=
  Function.update_self ..

theorem World.setThread_other (w : World) {t : Thread} (other : s ≠ p) :
    (w.setThread p t).thread s = w.thread s :=
  Function.update_of_ne other ..

theorem World.start_other (w : World) (waker : Int) (other : s ≠ p) :
    (w.start p waker).thread s = w.thread s :=
  Function.update_of_ne other ..

theorem World.retire_other (w : World) (other : s ≠ p) : (w.retire p).thread s = w.thread s :=
    Function.update_of_ne other ..

theorem World.setThread_comm (w : World) (other : p ≠ s) (t t' : Thread) :
    (w.setThread p t).setThread s t' = (w.setThread s t').setThread p t := by
  unfold World.setThread
  rw [Function.update_comm other]

theorem World.setThread_self (w : World) {t : Thread} (here : w.thread p = t) :
    w.setThread p t = w := by
  unfold World.setThread
  rw [← here, Function.update_eq_self]

/-- Where two threads have gone on. -/
theorem World.setThread_both (w : World) {t t' : Thread} {q : Pid} (notS : q ≠ s) (notP : q ≠ p) :
    ((w.setThread p t).setThread s t').thread q = w.thread q :=
  ((w.setThread p t).setThread_other notS).trans (w.setThread_other notP)

theorem World.keep_none (w : World) : w.keep p none = w := by
  unfold World.keep World.setKept
  rw [Option.toList_none, List.append_nil, Function.update_eq_self]

/-- What is left of a mailbox whose only message is taken. -/
theorem heard_single {b : Mailbox} {src : Int} {c : Msg} (heard : Heard b [m] src (some c)) :
    c = m ∧ Holds b [] none := by
  obtain ⟨_, rest, perm, holds⟩ := heard
  obtain ⟨rfl, rfl⟩ := List.cons.inj (List.perm_singleton.mp perm.symm)
  exact ⟨rfl, holds⟩

/-- A request is sent to a server that is in its loop. -/
theorem Quiet.calls (quiet : Quiet w) (here : w.thread p = .awake hand (.call s.val m rest))
    (idle : w.thread s = .awake none .done) (other : p ≠ s) (source : IsFrom p m) :
    ∃ b b', Step p w
      (((w.setBox s b).setBox p b').setThread p (.waiting hand s { m with dest := s.val } rest)) ∧
      (b.pid = s.val ∧ Holds b [{ m with dest := s.val }] none) ∧ b'.pid = p.val ∧
      Holds b' [] (some s.val) := by
  have boxP := quiet.empty p (by rw [here]; exact nofun)
  have boxS := quiet.empty s (by rw [idle]; exact nofun)
  rw [here] at boxP
  rw [idle] at boxS
  obtain ⟨b, sent⟩ := boxS.can_send source.sender (by decide)
  obtain ⟨ownerB, holdsB⟩ := boxS.send_eq source.sender sent
  obtain ⟨out, b', ran⟩ :=
    boxP.can_receive (show (s.val : Int) = -1 ∨ Sender s.val from .inr (sender_pid s))
  obtain ⟨ownerB', heard⟩ := boxP.receive (.inr (sender_pid s)) ran
  obtain rfl : out = none := by
    cases out with
    | none => rfl
    | some c =>
        obtain ⟨_, rest, perm, _⟩ := heard
        exact absurd perm.symm.eq_nil nofun
  have unchanged : (w.setBox s b).box p = w.box p := Function.update_of_ne other ..
  rw [List.nil_append, quiet.owner s] at holdsB
  exact ⟨b, b', .call here rfl sent (by rwa [unchanged]), ⟨ownerB.trans (quiet.owner s), holdsB⟩,
    ownerB'.trans (quiet.owner p), heard.2⟩

theorem Quiet.sends (quiet : Quiet w) (here : w.thread p = .awake hand (.call s.val m rest))
    (idle : w.thread s = .awake none .done) (other : p ≠ s) (source : IsFrom p m) :
    ∃ w', Step p w w' ∧ w'.thread s = .awake none .done ∧
    Holds (w'.box s) [{ m with dest := s.val }] none := by
  obtain ⟨b, b', call, ⟨_, holds⟩, _⟩ := quiet.calls here idle other source
  refine ⟨_, call, (World.setThread_other _ other.symm).trans idle, ?_⟩
  show Holds (Function.update (Function.update w.box s b) p b' s) _ none
  rw [Function.update_of_ne other.symm, Function.update_self]
  exact holds

/-- A request reaches a server that is in its loop. -/
theorem Quiet.asked (quiet : Quiet w) (here : w.thread p = .awake hand (.call s.val m rest))
    (idle : w.thread s = .awake none .done) (other : p ≠ s) (source : IsFrom p m)
    (serves : Serves { m with dest := s.val } s script) :
    Settles w ((w.setThread p (.waiting hand s { m with dest := s.val } rest)).setThread s
      (.awake (some { m with dest := s.val }) script)) := by
  obtain ⟨b, b', call, ⟨ownerB, holdsB⟩, ownerB', holdsB'⟩ := quiet.calls here idle other source
  -- the server has one message
  obtain ⟨c, b₂, hears, member⟩ := holdsB.can_hear (.inl rfl) nofun
  obtain ⟨ownerB₂, heard₂⟩ := holdsB.hear (.inl rfl) hears
  obtain ⟨rfl, holds₂⟩ := heard_single heard₂
  have loop : (((w.setBox s b).setBox p b').setThread p
    (.waiting hand s { m with dest := s.val } rest)).thread s =
      .awake none .done := by
    show Function.update w.thread p _ s = _
    rw [Function.update_of_ne other.symm, idle]
  have accept := Step.accept (.inl loop)
    (by
      show Services.hear (-1) (Function.update (Function.update w.box s b) p b' s) = _
      rw [Function.update_of_ne other.symm, Function.update_self]
      exact hears) serves
  rw [World.keep,
    if_neg (show ({ m with dest := s.val } : Msg).src ≠ hardIntr from source.not_intr)] at accept
  refine ⟨Function.update (Function.update (Function.update w.box s b) p b') s b₂, ?_, fun q => ?_,
    fun q there => ?_⟩
  · refine (Relation.ReflTransGen.single (.inl ⟨p, call⟩)).tail (.inl ⟨s, ?_⟩)
    have kept := World.keep_none (p := s) ((((w.setBox s b).setBox p b').setThread p
      (.waiting hand s { m with dest := s.val } rest)).setBox s b₂)
    rw [World.keep] at kept
    rw [kept] at accept
    exact accept
  · show (Function.update (Function.update (Function.update w.box s b) p b') s b₂ q).pid = _
    by_cases isS : q = s
    · subst isS
      rw [Function.update_self, ownerB₂, ownerB]
    · rw [Function.update_of_ne isS]
      by_cases isP : q = p
      · subst isP
        rw [Function.update_self, ownerB']
      · rw [Function.update_of_ne isP, Function.update_of_ne isS]
        exact quiet.owner q
  · show Holds (Function.update (Function.update (Function.update w.box s b) p b') s b₂ q) []
      (Function.update (Function.update w.thread p _) s _ q).asked
    by_cases isS : q = s
    · subst isS
      rw [Function.update_self, Function.update_self]
      exact holds₂
    · rw [Function.update_of_ne isS, Function.update_of_ne isS]
      by_cases isP : q = p
      · subst isP
        rw [Function.update_self, Function.update_self]
        exact holdsB'
      · rw [Function.update_of_ne isP, Function.update_of_ne isP, Function.update_of_ne isS]
        refine quiet.empty q fun absent => there ?_
        show Function.update (Function.update w.thread p _) s _ q = _
        rw [Function.update_of_ne isS, Function.update_of_ne isP, absent]

/-- An answer reaches the process that waits for it. -/
theorem Quiet.answered {handS : Option Msg} (quiet : Quiet w)
    (here : w.thread s = .awake handS (.answer p.val r next))
    (waits : w.thread p = .waiting hand s request rest) (other : p ≠ s) (source : IsFrom s r) :
    Settles w ((w.setThread s (.awake none next)).setThread p
      (.awake hand (rest { r with dest := p.val }))) := by
  have boxP := quiet.empty p (by rw [waits]; exact nofun)
  rw [waits] at boxP
  obtain ⟨b, sent⟩ := boxP.can_send source.sender (by decide)
  obtain ⟨ownerB, holdsB⟩ := boxP.send_eq source.sender sent
  rw [List.nil_append, quiet.owner p] at holdsB
  have answer := Step.answer here rfl sent
  obtain ⟨⟨out, b'⟩, ran⟩ := holdsB.can_resume (by
    have wanted : wants s.val ({ r with dest := p.val } : Msg) = true :=
      (wants_sender (sender_pid s) _).mpr source
    rw [List.find?_cons_of_pos wanted]
    exact nofun)
  obtain ⟨ownerB', c, rfl, heard⟩ := holdsB.resume ran
  obtain ⟨rfl, holds'⟩ := heard_single heard
  have resume := Step.resume (p := p) (w := (w.setBox p b).setThread s (.awake none next))
    (by
      show Function.update w.thread s _ p = _
      rw [Function.update_of_ne other, waits])
    (by
      show Process.resume (Function.update w.box p b p) = _
      rw [Function.update_self]
      exact ran)
  refine ⟨Function.update (Function.update w.box p b) p b',
    (Relation.ReflTransGen.single (.inl ⟨s, answer⟩)).tail (.inl ⟨p, resume⟩), fun q => ?_,
    fun q there => ?_⟩
  · show (Function.update (Function.update w.box p b) p b' q).pid = _
    by_cases isP : q = p
    · subst isP
      rw [Function.update_self, ownerB', ownerB]
      exact quiet.owner q
    · rw [Function.update_of_ne isP, Function.update_of_ne isP]
      exact quiet.owner q
  · show Holds (Function.update (Function.update w.box p b) p b' q) []
      (Function.update (Function.update w.thread s _) p _ q).asked
    by_cases isP : q = p
    · subst isP
      rw [Function.update_self, Function.update_self]
      exact holds'
    · rw [Function.update_of_ne isP, Function.update_of_ne isP, Function.update_of_ne isP]
      by_cases isS : q = s
      · subst isS
        rw [Function.update_self]
        have boxS := quiet.empty q (by rw [here]; exact nofun)
        rw [here] at boxS
        exact boxS
      · rw [Function.update_of_ne isS]
        refine quiet.empty q fun absent => there ?_
        show Function.update (Function.update w.thread s _) p _ q = _
        rw [Function.update_of_ne isP, Function.update_of_ne isS, absent]

/-! ### What a thread comes to -/

/-- There is a run after which the mailboxes are empty and nothing has changed but the thread of
`p`. -/
def Comes (w : World) (p : Pid) (t : Thread) : Prop := Settles w (w.setThread p t)

theorem Quiet.stays {t : Thread} (quiet : Quiet w) (here : w.thread p = t) : Comes w p t := by
  unfold Comes
  rw [w.setThread_self here]
  exact quiet.settles

theorem Comes.andThen {t t' : Thread} (first : Comes w p t)
    (second : ∀ {w'}, Quiet w' → w'.thread p = t → (∀ q, q ≠ p → w'.thread q = w.thread q) →
      Comes w' p t') :
    Comes w p t' := by
  unfold Comes at first ⊢
  refine first.trans fun box quiet => ?_
  have last := second quiet (w.setThread_thread t) fun q other => w.setThread_other other
  have same := w.setThread_idem (p := p) t t'
  rw [← same]
  exact last

/-- **A call that is served at once** changes the caller only. -/
theorem Quiet.ask (quiet : Quiet w) (here : w.thread p = .awake hand (.call s.val m rest))
    (idle : w.thread s = .awake none .done) (other : p ≠ s) (source : IsFrom p m)
    (answer : IsFrom s r) (serves : Serves { m with dest := s.val } s script)
    (work : ∀ {w'}, Quiet w' → w'.thread s = .awake (some { m with dest := s.val }) script →
      (∀ q, q ≠ s → q ≠ p → w'.thread q = w.thread q) →
      Comes w' s (.awake (some { m with dest := s.val }) (.answer p.val r .done))) :
    Comes w p (.awake hand (rest { r with dest := p.val })) := by
  refine (quiet.asked here idle other source serves).trans fun box quiet => ?_
  refine (work quiet (World.setThread_thread ..) fun q notS notP =>
    (World.setThread_other _ notS).trans (w.setThread_other notP)).trans fun box quiet => ?_
  have served := quiet.answered (World.setThread_thread ..)
    ((World.setThread_other _ other).trans
      ((World.setThread_other _ other).trans (w.setThread_thread _))) other answer
  have same : (((((w.setThread p (.waiting hand s { m with dest := s.val } rest)).setThread s
      (.awake (some { m with dest := s.val }) script)).setThread s
      (.awake (some { m with dest := s.val })
      (.answer p.val r .done))).setThread s (.awake none .done)).setThread p
      (.awake hand (rest { r with dest := p.val }))) =
      w.setThread p (.awake hand (rest { r with dest := p.val })) := by
    rw [World.setThread_idem, World.setThread_idem, World.setThread_comm w other,
      w.setThread_self idle, World.setThread_idem]
  rw [← same]
  exact served

/-- The file server answers with any number it likes. -/
theorem Quiet.askFile {type : FileType} {i : List Int} (quiet : Quiet w) (ret : Int)
    (here : w.thread p = .awake hand (fileCall p type i rest))
    (idle : w.thread file = .awake none .done) (other : p ≠ file) :
    ∃ r : Msg, r.type = ret ∧ Comes w p (.awake hand (rest r)) :=
  ⟨_, rfl, quiet.ask (r := { msg p type.type i with dest := p.val, src := file.val, type := ret })
    here idle other rfl rfl
    (.file (.serve type _ rfl (.reply ret))) fun quiet here _ => quiet.stays here⟩

/-- The ramdisk reads or writes. -/
theorem Quiet.askRam {type : DevType} {words : DevWords} (quiet : Quiet w)
    (here : w.thread p = .awake hand (devRw p ramdisk type words rest))
    (idle : w.thread ramdisk = .awake none .done) (other : p ≠ ramdisk) :
    ∃ r : Msg, Comes w p (.awake hand (rest r)) := by
  have served : ∀ m : Msg, m.type = type.type → ramDriverThread m = reply ramdisk m (m.i 4) :=
      fun m same => by
    refine if_pos ?_
    rw [same]
    cases type with
    | read => exact .inl rfl
    | write => exact .inr rfl
  refine ⟨_, quiet.ask
    (r := { msg p type.type [words.reqPid, words.devId, words.buf, words.offset, words.len] with
    dest := p.val, src := ramdisk.val, type := words.len }) here idle other rfl rfl .ramdisk
      fun quiet here _ => ?_⟩
  rw [served _ rfl] at here
  exact quiet.stays here

/-- **The file server comes to its loop.** -/
theorem Quiet.fileBoot {format : List (DevType × DevWords)} (quiet : Quiet w)
    (here : w.thread file = .awake none (fileBoot format))
    (idle : w.thread ramdisk = .awake none .done) :
    Comes w file (.awake none .done) := by
  induction format generalizing w with
  | nil => exact quiet.stays here
  | cons request format ih =>
      obtain ⟨r, comes⟩ := quiet.askRam here idle (by decide)
      exact comes.andThen fun quiet here same => ih quiet here ((same _ (by decide)).trans idle)

/-- A program is written to a file. -/
theorem Quiet.writeToFile {name buf len : Int} (quiet : Quiet w)
    (here : w.thread createShell = .awake none (writeToFile name buf len next))
    (idle : w.thread file = .awake none .done) :
    Comes w createShell (.awake none next) := by
  obtain ⟨_, _, opened⟩ := quiet.askFile 0 here idle (by decide)
  refine opened.andThen fun quiet here same => ?_
  have idle := (same _ (by decide)).trans idle
  obtain ⟨_, _, written⟩ := quiet.askFile 0 here idle (by decide)
  refine written.andThen fun quiet here same => ?_
  obtain ⟨_, _, closed⟩ := quiet.askFile 0 here ((same _ (by decide)).trans idle) (by decide)
  exact closed

/-- The memory manager sets up an address space. -/
theorem Quiet.askSpace {i : List Int} (quiet : Quiet w)
    (here : w.thread pcbManager = .awake hand (memoryCall .createSpace i rest))
    (idle : w.thread memory = .awake none .done) (idleFile : w.thread file = .awake none .done) :
    ∃ r : Msg, Comes w pcbManager (.awake hand (rest r)) := by
  refine ⟨_, quiet.ask
    (r := { msg pcbManager MemoryType.createSpace.type i with
      dest := pcbManager.val, src := memory.val })
    here idle (by decide) rfl rfl (.memory (.createSpace [] rfl)) fun quiet here same => ?_⟩
  -- the program has no segment
  have idleFile := (same _ (by decide) (by decide)).trans idleFile
  obtain ⟨_, _, opened⟩ := quiet.askFile 0 here idleFile (by decide)
  refine opened.andThen fun quiet here same => ?_
  obtain ⟨_, _, closed⟩ := quiet.askFile 0 here ((same _ (by decide)).trans idleFile) (by decide)
  exact closed

/-! ### The way to the shell -/

section Boot

variable (format : List (DevType × DevWords)) (programs : Programs) (box : Pid → Mailbox)

/-- On the way to the shell: no message is anywhere, and only `create_shell` and the process manager
have work to do. -/
structure Booting (free : List Pid) (creator manager child : Thread) (w : World) : Prop where
  run : Relation.ReflTransGen Next (boot format programs box) w
  quiet : Quiet w
  servers : ∀ q, q < pcbManager → w.thread q = .awake none .done
  manager : w.thread pcbManager = manager
  creator : w.thread createShell = creator
  child : w.thread shell = child
  others : ∀ q, shell < q → w.thread q = .absent
  kept : ∀ s, w.kept s = []
  free : w.free = free

/-- The PCBs that are free behind the shell's. -/
def behindShell : List Pid := (List.finRange 50).filter fun p => shell < p

theorem quiet_boot : Quiet (boot format programs box) := by
  refine ⟨fun q => ?_, fun q there => (inv_boot format programs box).boxes q there⟩
  unfold boot
  dsimp only
  split_ifs <;> rfl

/-- The file server comes to its loop before anything else happens. -/
theorem booting_start :
    ∃ w, Booting format programs box (shell :: behindShell) (.awake none (startShell programs))
    (.awake none .done) .absent w := by
  have file := (quiet_boot format programs box).fileBoot rfl rfl
  obtain ⟨box', run, quiet⟩ := file
  refine ⟨_, run, quiet, fun q below => ?_, rfl, rfl, rfl, fun q above => ?_, fun _ => rfl, ?_⟩
  · show Function.update (boot format programs box).thread _ _ q = _
    by_cases isFile : q = Services.file
    · subst isFile
      rw [Function.update_self]
    · rw [Function.update_of_ne isFile]
      have low : q < createShell := lt_trans below (by decide)
      unfold boot
      dsimp only
      rw [if_neg isFile, if_neg low.ne, if_pos low]
  · have high : createShell < q := lt_trans (by decide) above
    have notFile : q ≠ Services.file := (lt_trans (by decide) above).ne'
    show Function.update (boot format programs box).thread _ _ q = _
    rw [Function.update_of_ne notFile]
    unfold boot
    dsimp only
    rw [if_neg notFile, if_neg high.ne', if_neg high.not_gt]
  · show ((List.finRange 50).filter fun p => createShell < p) = shell :: behindShell
    decide

variable {format programs box} {free free' : List Pid}
  {creator creator' manager manager' child child' t : Thread}

theorem Booting.settles (booting : Booting format programs box free creator manager child w)
    (settles : Settles w w₁)
    (others : ∀ q, q ≠ createShell → q ≠ pcbManager → q ≠ shell → w₁.thread q = w.thread q)
    (kept : w₁.kept = w.kept) (isFree : w₁.free = free')
    (creates : w₁.thread createShell = creator') (manages : w₁.thread pcbManager = manager')
    (runs : w₁.thread shell = child') :
    ∃ w', Booting format programs box free' creator' manager' child' w' := by
  obtain ⟨box', run, quiet⟩ := settles
  refine ⟨_, booting.run.trans run, quiet, fun q below => ?_, manages, creates, runs,
    fun q above => ?_, fun s => ?_, isFree⟩
  · have server := others q (lt_trans below (by decide)).ne below.ne (lt_trans below (by decide)).ne
    exact server.trans (booting.servers q below)
  · have other :=
      others q (lt_trans (by decide) above).ne' (lt_trans (by decide) above).ne' above.ne'
    exact other.trans (booting.others q above)
  · exact (congrFun kept s).trans (booting.kept s)

/-- `create_shell` goes on. -/
theorem Booting.creates (booting : Booting format programs box free creator manager child w)
    (comes : Comes w createShell t) :
    ∃ w', Booting format programs box free t manager child w' :=
  booting.settles comes (fun _ other _ _ => w.setThread_other other) rfl booting.free
    (w.setThread_thread t)
    ((w.setThread_other (by decide)).trans booting.manager)
    ((w.setThread_other (by decide)).trans booting.child)

/-- The manager goes on. -/
theorem Booting.manages (booting : Booting format programs box free creator manager child w)
    (comes : Comes w pcbManager t) :
    ∃ w', Booting format programs box free creator t child w' :=
  booting.settles comes (fun _ _ other _ => w.setThread_other other) rfl booting.free
    ((w.setThread_other (by decide)).trans booting.creator) (w.setThread_thread t)
    ((w.setThread_other (by decide)).trans booting.child)

variable (format programs box)

/-- The request of `create_shell`. -/
def creation : Msg :=
  { msg createShell ManagerType.createProcess.type [0, 0, programs.shellName] with
    dest := pcbManager.val }

/-- `create_shell` waits until the shell is there. -/
def Creating (free : List Pid) (left : Script) (child : Thread) : World → Prop :=
  Booting format programs box free (.waiting none pcbManager (creation programs) fun _ => .wrap)
    (.awake (some (creation programs)) left) child

/-- The manager takes up the request. -/
theorem creating_start :
    ∃ w, Creating format programs box (shell :: behindShell) (createProcess (creation programs))
    .absent w := by
  obtain ⟨w, booting⟩ := booting_start format programs box
  obtain ⟨w, booting⟩ :=
    booting.creates (booting.quiet.writeToFile booting.creator (booting.servers file (by decide)))
  obtain ⟨w, booting⟩ :=
    booting.creates (booting.quiet.writeToFile booting.creator (booting.servers file (by decide)))
  have asked := booting.quiet.asked booting.creator booting.manager (by decide) rfl
    (.pcbManager (.createProcess rfl))
  exact booting.settles asked (fun _ notP notS _ => w.setThread_both notS notP) rfl booting.free
    ((World.setThread_other _ (by decide)).trans (w.setThread_thread _)) (World.setThread_thread ..)
    ((w.setThread_both (by decide) (by decide)).trans booting.child)

/-- **The PCB of the shell is about to be set up.** -/
theorem boots_to_init_pcb : ∃ w, Creating format programs box behindShell
    (.initPcb shell (.wakeup shell.val (reply pcbManager (creation programs) shell.val)))
    .absent w := by
  obtain ⟨w, booting⟩ := creating_start format programs box
  have quiet : Quiet { w with free := behindShell } := ⟨booting.quiet.owner, booting.quiet.empty⟩
  have taken := Settles.step (.takePcb booting.manager booting.free) (quiet.setThread (by
    rw [booting.manager]
    exact nofun) (by rw [booting.manager]; rfl))
  obtain ⟨w, booting⟩ :=
    booting.settles taken (fun _ _ other _ => World.setThread_other _ other) rfl rfl
    ((World.setThread_other _ (by decide)).trans booting.creator) (World.setThread_thread ..)
    ((World.setThread_other _ (by decide)).trans booting.child)
  have file := booting.servers Services.file (by decide)
  obtain ⟨_, comes⟩ := booting.quiet.askSpace booting.manager
    (booting.servers memory (by decide)) file
  obtain ⟨w, booting⟩ := booting.manages comes
  obtain ⟨_, _, comes⟩ := booting.quiet.askFile 0 booting.manager
    (booting.servers Services.file (by decide)) (by decide)
  exact booting.manages comes

/-- A PCB that is set up has an empty mailbox. -/
theorem Quiet.start {k : Pid} {waker : Int} (quiet : Quiet w) : Quiet (w.start k waker) := by
  refine ⟨fun q => ?_, fun q there => ?_⟩
  · show (Function.update w.box k (Process.initMsg (w.box k)) q).pid = _
    by_cases same : q = k
    · subst same
      rw [Function.update_self]
      exact quiet.owner q
    · rw [Function.update_of_ne same]
      exact quiet.owner q
  · show Holds (Function.update w.box k (Process.initMsg (w.box k)) q) []
      (Function.update w.thread k (.created waker) q).asked
    by_cases same : q = k
    · subst same
      rw [Function.update_self, Function.update_self]
      exact holds_initMsg _
    · rw [Function.update_of_ne same, Function.update_of_ne same]
      refine quiet.empty q fun absent => there ?_
      show Function.update w.thread k (.created waker) q = _
      rw [Function.update_of_ne same, absent]

/-- **The shell is about to be woken up.** -/
theorem boots_to_wakeup : ∃ w, Creating format programs box behindShell
    (.wakeup shell.val (reply pcbManager (creation programs) shell.val))
      (.created pcbManager.val) w := by
  obtain ⟨w, booting⟩ := boots_to_init_pcb format programs box
  have manager := (w.start_other pcbManager.val (by decide : pcbManager ≠ shell)).trans
    booting.manager
  have set := Settles.step (.initPcb booting.manager) (booting.quiet.start.setThread (by
    rw [manager]
    exact nofun) (by rw [manager]; rfl))
  exact booting.settles set (fun q _ notManager notShell =>
      (World.setThread_other _ notManager).trans (w.start_other _ notShell)) rfl booting.free
    ((World.setThread_other _ (by decide)).trans
      ((w.start_other _ (by decide)).trans booting.creator))
    (World.setThread_thread ..) ((World.setThread_other _ (by decide)).trans
      (Function.update_self shell _ w.thread))

/-- A process that has come to its end. -/
theorem Quiet.retire (quiet : Quiet w) : Quiet (w.retire p) := by
  refine ⟨quiet.owner, fun q there => ?_⟩
  show Holds (w.box q) [] (Function.update w.thread p .absent q).asked
  by_cases same : q = p
  · subst same
    exact absurd (Function.update_self ..) there
  · rw [Function.update_of_ne same]
    refine quiet.empty q fun absent => there ?_
    show Function.update w.thread p .absent q = _
    rw [Function.update_of_ne same, absent]

/-- **The system can boot to the shell**, whatever lies in memory: the servers are in their loops,
no message is left, and `create_shell` has given up its PCB. -/
theorem boots_to_shell : ∃ w, Relation.ReflTransGen Next (boot format programs box) w ∧
    (∀ q, IsServer q ∨ IsGetty q ∨ q = shell → w.thread q = .awake none .done) ∧
    (∀ q, shell < q ∨ q = createShell → w.thread q = .absent) ∧
    w.free = behindShell ++ [createShell] ∧ Quiet w := by
  obtain ⟨w, booting⟩ := boots_to_wakeup format programs box
  -- the shell is woken up
  have woken : Quiet (w.setThread shell (.awake none .done)) := booting.quiet.setThread (by
    rw [booting.child]
    exact nofun) (by rw [booting.child]; rfl)
  have manager : (w.setThread shell (.awake none .done)).thread pcbManager = _ :=
    (w.setThread_other (by decide)).trans booting.manager
  have wakeup := Settles.step (.wakeup booting.manager rfl booting.child) (woken.setThread (by
    rw [manager]
    exact nofun) (by rw [manager]; rfl))
  obtain ⟨w, booting⟩ := booting.settles wakeup (fun q _ notManager notShell =>
      (World.setThread_other _ notManager).trans (w.setThread_other notShell)) rfl booting.free
    ((World.setThread_other _ (by decide)).trans
      ((w.setThread_other (by decide)).trans booting.creator))
    (World.setThread_thread ..) ((World.setThread_other _ (by decide)).trans (w.setThread_thread _))
  -- `create_shell` has its answer
  have answered := booting.quiet.answered booting.manager booting.creator (by decide) rfl
  obtain ⟨w, booting⟩ := booting.settles answered
    (fun q notCreator notManager _ => w.setThread_both notCreator notManager) rfl booting.free
    (World.setThread_thread ..) ((World.setThread_other _ (by decide)).trans (w.setThread_thread _))
    ((w.setThread_both (by decide) (by decide)).trans booting.child)
  -- and comes to its end
  obtain ⟨w, booting⟩ := booting.settles (.step (.wrap booting.creator) booting.quiet.retire)
    (fun q notCreator _ _ => w.retire_other notCreator) rfl
    (congrArg (· ++ [createShell]) booting.free)
    (Function.update_self createShell _ w.thread)
    ((w.retire_other (by decide)).trans booting.manager)
    ((w.retire_other (by decide)).trans booting.child)
  have loops : ∀ q, IsServer q ∨ IsGetty q ∨ q = shell → w.thread q = .awake none .done :=
      fun q which => by
    rcases lt_trichotomy q pcbManager with below | rfl | above
    · exact booting.servers q below
    · exact booting.manager
    · obtain rfl : q = shell := by
        revert q
        decide
      exact booting.child
  have ended : ∀ q, shell < q ∨ q = createShell → w.thread q = .absent := fun q which => by
    rcases which with above | rfl
    · exact booting.others q above
    · exact booting.creator
  exact ⟨w, booting.run, loops, ended, booting.free, booting.quiet⟩

end Boot

/-! ### The shell and its child -/

/-- The PCB that the first child of the shell gets. -/
def firstChild : Pid := ⟨12, by decide⟩

/-- Behind the boot: no message is anywhere, and only the process manager, the shell and its child
have work to do. `kin` is what the PCB of the child says of its parent, and whether it is in use. -/
structure Served (free : List Pid) (manager parent child : Thread) (kin : Int × Bool)
    (w : World) : Prop where
  reachable : Reachable w
  quiet : Quiet w
  servers : ∀ q, q < pcbManager → w.thread q = .awake none .done
  manager : w.thread pcbManager = manager
  parent : w.thread shell = parent
  child : w.thread firstChild = child
  free : w.free = free
  kin : (w.ppid firstChild, w.isUsed firstChild) = kin

/-- The PCBs that are free when the shell runs, but for the first one. -/
def behindChild : List Pid := ((List.finRange 50).filter fun p => firstChild < p) ++ [createShell]

theorem served_start :
    ∃ w kin, Served (firstChild :: behindChild) (.awake none .done)
      (.awake none .done) .absent kin w := by
  obtain ⟨w, run, loops, ended, free, quiet⟩ :=
    boots_to_shell [] ⟨0, 0, 0, 0, 0, 0⟩ fun _ => blankMailbox
  have server : ∀ q, q < pcbManager → IsServer q ∨ IsGetty q ∨ q = shell := by decide
  refine ⟨w, _, ⟨_, _, _, run⟩, quiet, fun q below => loops q (server q below),
    loops _ (.inl (by decide)),
    loops _ (.inr (.inr rfl)), ended _ (.inl (by decide)), free.trans ?_, rfl⟩
  decide

section Served

variable {free free' : List Pid} {manager manager' parent parent' child child' t : Thread}
  {kin kin' : Int × Bool}

theorem Served.settles (served : Served free manager parent child kin w) (settles : Settles w w₁)
    (others : ∀ q, q < pcbManager → w₁.thread q = w.thread q) (isFree : w₁.free = free')
    (manages : w₁.thread pcbManager = manager') (runs : w₁.thread shell = parent')
    (lives : w₁.thread firstChild = child')
    (known : (w₁.ppid firstChild, w₁.isUsed firstChild) = kin') :
    ∃ w', Served free' manager' parent' child' kin' w' := by
  obtain ⟨box, run, quiet⟩ := settles
  obtain ⟨format, programs, box', before⟩ := served.reachable
  exact ⟨_, ⟨format, programs, box', before.trans run⟩, quiet,
    fun q below => (others q below).trans (served.servers q below), manages, runs, lives,
    isFree, known⟩

/-- The manager goes on. -/
theorem Served.manages (served : Served free manager parent child kin w)
    (comes : Comes w pcbManager t) :
    ∃ w', Served free t parent child kin w' :=
  served.settles comes (fun _ below => w.setThread_other below.ne) served.free
    (w.setThread_thread t)
    ((w.setThread_other (by decide)).trans served.parent)
    ((w.setThread_other (by decide)).trans served.child) served.kin

/-- The shell goes on. -/
theorem Served.runs (served : Served free manager parent child kin w) (comes : Comes w shell t) :
    ∃ w', Served free manager t child kin w' :=
  served.settles comes
    (fun _ below => w.setThread_other (lt_trans below (by decide)).ne) served.free
    ((w.setThread_other (by decide)).trans served.manager) (w.setThread_thread t)
    ((w.setThread_other (by decide)).trans served.child) served.kin

/-- The shell makes a system call. -/
theorem Served.syscall (served : Served free manager (.awake none .done) child kin w)
    (tf eax ebx ecx edx strlen : Int) :
    ∃ w', Served free manager (.awake none (doSyscall shell tf eax ebx ecx edx strlen))
    child kin w' := by
  have step :
    Step shell w (w.setThread shell (.awake none (doSyscall shell tf eax ebx ecx edx strlen))) :=
    .syscall (by decide) served.parent
  exact served.runs (.step step (served.quiet.setThread (by
    rw [served.parent]
    exact nofun) (by rw [served.parent]; rfl)))

/-- What the shell asks the process manager. -/
def shellRequest (type : ManagerType) (i : List Int) : Msg :=
  { msg shell type.type i with dest := pcbManager.val }

/-- The manager takes up a request of the shell. -/
theorem Served.asks {type : ManagerType} {i : List Int}
    (served :
      Served free (.awake none .done) (.awake none (managerCall shell type i rest)) child kin w)
    (serves : PcbManagerThread (shellRequest type i) script) :
    ∃ w', Served free (.awake (some (shellRequest type i)) script)
      (.waiting none pcbManager (shellRequest type i) rest)
      child kin w' := by
  have asked := served.quiet.asked served.parent served.manager (by decide) rfl (.pcbManager serves)
  exact served.settles asked
    (fun q below => w.setThread_both below.ne (lt_trans below (by decide)).ne) served.free
    (World.setThread_thread ..) ((World.setThread_other _ (by decide)).trans (w.setThread_thread _))
    ((w.setThread_both (by decide) (by decide)).trans served.child) served.kin

/-- The memory manager serves a request for an address space. -/
theorem Served.askMemory {type : MemoryType} {i : List Int} {r : Msg}
    (served : Served free (.awake hand (memoryCall type i rest)) parent child kin w)
    (source : IsFrom memory r)
    (serves : MemoryThread { msg pcbManager type.type i with dest := memory.val } script)
    (work : ∀ {w'}, Quiet w' →
      w'.thread memory =
      .awake (some { msg pcbManager type.type i with dest := memory.val }) script →
      (∀ q, q ≠ memory → q ≠ pcbManager → w'.thread q = w.thread q) →
      Comes w' memory (.awake (some { msg pcbManager type.type i with dest := memory.val })
        (.answer pcbManager.val r .done))) :
    ∃ w', Served free (.awake hand (rest { r with dest := pcbManager.val })) parent child kin w' :=
  served.manages (served.quiet.ask served.manager (served.servers memory (by decide))
    (by decide) rfl source
    (.memory serves) work)

/-- **A program is loaded into the shell's address space**: `exec` is about to empty its mailbox. -/
theorem boots_to_exec : ∃ w request rest, Reachable w ∧
    w.thread shell = .waiting none pcbManager request rest ∧
    w.thread pcbManager = .awake (some request) (.initMsg shell.val (.wakeup shell.val .done)) := by
  obtain ⟨w, kin, served⟩ := served_start
  obtain ⟨w, served⟩ := served.syscall 0 2 0 0 0 0
  obtain ⟨w, served⟩ := served.asks (.exec 0 rfl)
  have idle := served.servers file (by decide)
  obtain ⟨w, served⟩ := served.askMemory
    (r := { msg pcbManager MemoryType.execMemory.type [shell.val, 0] with
      dest := pcbManager.val, src := memory.val, type := 0 })
    rfl (.execMemory [] rfl) fun quiet here same => by
      -- the file server opens the program, and closes it
      have idle := (same _ (by decide) (by decide)).trans idle
      obtain ⟨r, opens, opened⟩ := quiet.askFile 0 here idle (by decide)
      refine opened.andThen fun quiet here same => ?_
      rw [if_neg (by rw [opens]; decide)] at here
      obtain ⟨_, _, closed⟩ := quiet.askFile 0 here ((same _ (by decide)).trans idle) (by decide)
      exact closed
  exact ⟨w, _, _, served.reachable, served.parent, served.manager⟩

/-- **The shell has forked.** -/
theorem boots_to_child :
    ∃ w, Served behindChild (.awake none .done) (.awake none .done) (.awake none .done)
    (shell.val, true) w := by
  obtain ⟨w, kin, served⟩ := served_start
  obtain ⟨w, served⟩ := served.syscall 0 1 0 0 0 0
  obtain ⟨w, served⟩ := served.asks (.fork rfl)
  -- a PCB is taken
  have quiet : Quiet { w with free := behindChild } := ⟨served.quiet.owner, served.quiet.empty⟩
  obtain ⟨w, served⟩ :=
    served.settles (.step (.takePcb served.manager served.free) (quiet.setThread (by
      rw [served.manager]
      exact nofun) (by rw [served.manager]; rfl)))
    (fun q below => World.setThread_other _ below.ne) (show _ = behindChild from rfl)
    (World.setThread_thread ..)
    ((World.setThread_other _ (by decide)).trans served.parent)
    ((World.setThread_other _ (by decide)).trans served.child)
    served.kin
  obtain ⟨w, served⟩ := served.askMemory
    (r := { msg pcbManager MemoryType.createChildSpace.type [shell.val, firstChild.val] with
      dest := pcbManager.val, src := memory.val })
    rfl (.createChildSpace rfl) fun quiet here _ => quiet.stays here
  -- it is set up, and the file server has copied the descriptors
  have other : pcbManager ≠ firstChild := by decide
  have manager := (w.start_other shell.val other).trans served.manager
  have emptied : Quiet (w.start firstChild shell.val) := served.quiet.start
  have start : Quiet ((w.start firstChild shell.val).setPpid firstChild shell.val) :=
    ⟨emptied.owner, emptied.empty⟩
  have parent := (w.start_other shell.val (by decide : shell ≠ firstChild)).trans served.parent
  obtain ⟨w, served⟩ := served.settles
    (.step (.startChild served.manager) (start.setThread (by
      rw [show ((w.start firstChild shell.val).setPpid firstChild shell.val).thread pcbManager =
        _ from manager]
      exact nofun) (by
      rw [show ((w.start firstChild shell.val).setPpid firstChild shell.val).thread pcbManager =
        _ from manager]
      rfl)))
    (fun q below => (World.setThread_other _ below.ne).trans
      (w.start_other _ (lt_trans below (by decide)).ne)) served.free
    (World.setThread_thread ..) ((World.setThread_other _ (by decide)).trans parent)
    (show _ = Thread.created shell.val from
      (World.setThread_other _ (by decide)).trans (Function.update_self firstChild _ w.thread))
    (show _ = ((shell.val : Int), true) from
      Prod.ext (Function.update_self firstChild _ w.ppid)
        (Function.update_self firstChild _ w.isUsed))
  obtain ⟨_, _, comes⟩ := served.quiet.askFile 0 served.manager
    (served.servers file (by decide)) (by decide)
  obtain ⟨w, served⟩ := served.manages comes
  -- the shell has its answer, and wakes its child up
  obtain ⟨w, served⟩ := served.settles
    (served.quiet.answered served.manager served.parent (by decide) rfl)
    (fun q below => w.setThread_both (lt_trans below (by decide)).ne below.ne) served.free
    ((World.setThread_other _ (by decide)).trans (w.setThread_thread _))
    (show _ = Thread.awake none (.wakeup firstChild.val .done) from World.setThread_thread ..)
    ((w.setThread_both (by decide) (by decide)).trans served.child) served.kin
  have woken : Quiet (w.setThread firstChild (.awake none .done)) := served.quiet.setThread (by
    rw [served.child]
    exact nofun) (by rw [served.child]; rfl)
  have parent : (w.setThread firstChild (.awake none .done)).thread shell = _ :=
    (w.setThread_other (by decide)).trans served.parent
  exact served.settles (.step (.wakeup served.parent rfl served.child) (woken.setThread (by
      rw [parent]
      exact nofun) (by rw [parent]; rfl)))
    (fun q below => w.setThread_both (lt_trans below (by decide)).ne
      (lt_trans below (by decide)).ne) served.free
    ((w.setThread_both (by decide) (by decide)).trans served.manager) (World.setThread_thread ..)
    ((World.setThread_other _ (by decide)).trans (w.setThread_thread _)) served.kin

/-- **The shell waits for its child**, and the wait is recorded. -/
theorem boots_to_wait : ∃ w, Reachable w ∧ w.isUsed firstChild = true ∧
    w.parentWait firstChild = true := by
  obtain ⟨w, served⟩ := boots_to_child
  obtain ⟨w, served⟩ := served.syscall 0 5 firstChild.val 0 0 0
  obtain ⟨w, served⟩ := served.asks (.waitPid rfl)
  have kin := Prod.mk.inj served.kin
  obtain ⟨format, programs, box, run⟩ := served.reachable
  have step := Step.recordWait (d := firstChild) served.manager rfl kin.1 kin.2
  refine ⟨_, ⟨format, programs, box, run.tail (.inl ⟨_, step⟩)⟩, kin.2, ?_⟩
  show Function.update w.parentWait firstChild true firstChild = true
  exact Function.update_self ..

end Served

end NjuOs.Process.Services
