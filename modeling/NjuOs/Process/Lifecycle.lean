/-
**The processes that start and end.**

A PCB is taken off the free list, set up with an empty mailbox, woken up once by the one it was set
up for, started again by `exec`, and given up by `exit` or at the end of a kernel thread. Each of
these steps keeps `Inv`, and with the steps of a call this is every step.

* `Inv.step`, `Inv.interrupted`: every step and every interrupt keeps the invariant.
* `Reachable.inv`: it holds in every state that the system comes to.
-/

import NjuOs.Process.Exchange

namespace NjuOs.Process.Services

open NjuOs.Lib NjuOs.Process

/-! ### The processes that start and end -/

section Lifecycle

variable {w w' : World} {queue queue' : Pid → List Msg} {p q s d : Pid} {m c r : Msg}
  {t t' : Thread} {hand : Option Msg} {birth : Birth} {rest : Msg → Script} {b b' : Mailbox}
  {script next : Script} {out : Option Msg}

theorem Thread.of_dead (dead : ¬ t.Live) : t.waits = none ∧ t.hand = none ∧ t.asked = none := by
  cases t with
  | absent => exact ⟨rfl, rfl, rfl⟩
  | created _ => exact ⟨rfl, rfl, rfl⟩
  | awake _ _ => exact absurd trivial dead
  | listening => exact absurd trivial dead
  | waiting _ _ _ _ => exact absurd trivial dead

/-- Nobody asks a process at the top. -/
theorem Inv.held_eq_nil (inv : Inv w queue) (top : rank d = 4) : w.held d = [] := by
  refine List.eq_nil_iff_forall_not_mem.mpr fun c here => ?_
  obtain ⟨q, _, waits, _⟩ := inv.of_held here
  have := inv.down waits
  have := rank_le q
  omega

theorem Inv.queue_of_idle (inv : Inv w queue) (top : rank d = 4)
    (idle : (w.thread d).waits = none) : queue d = [] :=
  inv.queue_eq_nil top (inv.answeredIn_eq_zero idle)

/-- **The client of the manager**: a user that waits for it, and has no message and no request. -/
theorem Inv.client (inv : Inv w queue) (here : w.thread p = .awake (some c) script)
    (manager : p = pcbManager) (place : IsFrom d c) :
    IsUser d ∧ d ≠ p ∧ (w.thread d).waits = some (p, c) ∧ (w.thread d).Live ∧ queue d = [] ∧
    w.held d = [] := by
  have member : c ∈ w.held p := by
    rw [World.held, here]
    exact List.mem_cons_self
  obtain ⟨q, source, waits, none, _⟩ := inv.of_held member
  obtain rfl := (isFrom_inj source).mp place
  have known := (inv.waits waits).2
  subst manager
  have user : IsUser d := by
    cases known with
    | manage _ user _ => exact user
  have top := rank_user user
  refine ⟨user, ?_, waits, ?_, inv.queue_eq_nil top none, inv.held_eq_nil top⟩
  · rintro rfl
    exact absurd user (by decide)
  · obtain ⟨handD, restD, there⟩ := Thread.waits_eq waits
    rw [there]
    trivial

/-- **The manager lets its client go**: it does not wait any more, and is gone or starts again. -/
theorem Inv.drop (inv : Inv w queue) (here : w.thread p = .awake (some c) script)
    (manager : p = pcbManager) (place : IsFrom d c) (dead : ¬ t.Live)
    (thread : w'.thread = Function.update (Function.update w.thread d t) p (.awake none next))
    (kept : w'.kept = w.kept) (ppid : w'.ppid = w.ppid) (owner : ∀ q, (w'.box q).pid = q.val)
    (box : ∀ q, q ≠ d → w'.box q = w.box q) (boxD : t ≠ .absent → Holds (w'.box d) [] none)
    (free_nodup : w'.free.Nodup) (free : ∀ k ∈ w'.free, k ∈ w.free ∨ k = d ∧ t = .absent)
    (used : ∀ k, w'.isUsed k = true ↔ w'.thread k ≠ .absent)
    (sound : Frame w w' → Sound w' p (.awake none next))
    (keptOk : ∀ s, ∀ x ∈ w.kept s, Keeps s x ∨ Waited w' s x)
    (recorded : ∀ k, w'.isUsed k = true → w'.parentWait k = true →
      ∃ x ∈ w.kept pcbManager, x.src = w.ppid k ∧ x.i 0 = k.val) : Inv w' queue := by
  obtain ⟨user, other, waits, live, empty, idle⟩ := inv.client here manager place
  have liveP := live_awake here
  obtain ⟨noWaits, noHand, noAsked⟩ := Thread.of_dead dead
  have atD : w'.thread d = t := by rw [thread, Function.update_of_ne other, Function.update_self]
  have atP : w'.thread p = .awake none next := by rw [thread, Function.update_self]
  have away : ∀ {k}, k ≠ d → k ≠ p → w'.thread k = w.thread k := fun notD notP => by
    rw [thread, Function.update_of_ne notP, Function.update_of_ne notD]
  have still : ∀ {k}, ¬ (w.thread k).Live → w'.thread k = w.thread k := fun {k} gone =>
    away (fun same => gone (same ▸ live)) fun same => gone (same ▸ liveP)
  have frame : Frame w w' := {
    absent := fun k absent => (still (by rw [absent]; exact id)).trans absent
    created := fun {k _} created => (still (by rw [created]; exact id)).trans created
    free := fun k absent notFree member => by
      rcases free k member with old | ⟨rfl, _⟩
      · exact notFree old
      · exact live.ne_absent absent
    ppid := fun k => congrFun ppid k }
  have held : Puts w'.held w.held p c := by
    refine ⟨?_, fun e notP => ?_⟩
    · rw [World.held, World.held, atP, kept, here]
      exact List.Perm.refl _
    · by_cases isD : e = d
      · subst isD
        rw [idle, World.held, atD, noHand, kept]
        exact ((List.append_eq_nil_iff.mp idle).2).symm
      · rw [World.held, World.held, away isD notP, kept]
  have waitsEq : (calls w' queue).waits = Function.update (calls w queue).waits d none := by
    funext q
    show (w'.thread q).waits = Function.update (fun q => (w.thread q).waits) d none q
    by_cases isD : q = d
    · subst isD
      rw [Function.update_self, atD, noWaits]
    · rw [Function.update_of_ne isD]
      by_cases isP : q = p
      · subst isP
        rw [atP, here]
        rfl
      · rw [away isD isP]
  refine ⟨owner, fun q there => ?_, fun q gone => ?_, inv.sources,
    fun s x there => inv.held s x (held.mem there), ?_,
    fun {q a x r} waiting there => ?_, fun q => ?_, fun s x there => keptOk s x (kept ▸ there),
    ?_, free_nodup,
    fun k member => ?_,
    used, fun q server => ?_⟩
  · by_cases isD : q = d
    · subst isD
      rw [empty, atD, noAsked]
      exact boxD (atD ▸ there)
    · rw [box q isD]
      by_cases isP : q = p
      · subst isP
        have holds := inv.boxes q liveP.ne_absent
        rw [here] at holds
        rw [atP]
        exact holds
      · rw [away isD isP] at there ⊢
        exact inv.boxes q there
  · by_cases isD : q = d
    · rw [isD, empty]
    · have isP : q ≠ p := by
        rintro rfl
        rw [atP] at gone
        cases gone
      rw [away isD isP] at gone
      exact inv.empty q gone
  · refine inv.balanced.drop (p := d) (s := p) (m := c) waitsEq (fun q t => ?_) fun _ _ => rfl
    show askedIn queue q t + mail q (w.held t) = askedIn queue q t + mail q (w'.held t) + _
    rw [held.owed place q t, add_assoc]
  · have before : (w.thread q).waits = some (a, x) := by
      have same := congrFun waitsEq q
      by_cases isD : q = d
      · subst isD
        rw [atD, noWaits] at waiting
        cases waiting
      · rw [Function.update_of_ne isD] at same
        exact same.symm.trans waiting
    exact (inv.answers before there).frame frame
  · by_cases isP : q = p
    · rw [isP, atP]
      exact sound frame
    · by_cases isD : q = d
      · rw [isD, atD]
        exact .of_dead dead
      · rw [away isD isP]
        exact (inv.threads q).frame frame
  · rw [kept, ppid]
    exact recorded
  · rcases free k member with old | ⟨rfl, gone⟩
    · obtain ⟨isUser, absent⟩ := inv.free k old
      exact ⟨isUser, frame.absent k absent⟩
    · exact ⟨user, atD.trans gone⟩
  · by_cases isP : q = p
    · rw [isP, atP]
      trivial
    · by_cases isD : q = d
      · exact absurd (isD ▸ user) server
      · rw [away isD isP]
        exact inv.served q server

theorem Inv.leave {pcb : Int} (inv : Inv w queue)
    (here : w.thread p = .awake hand (.leave pcb m next)) (place : (d.val : Int) = pcb)
    (alone : w.parentWait d = false) :
    Inv ((w.retire d).setThread p (.awake none next)) queue := by
  obtain ⟨birth, _, behaves⟩ := inv.awake here
  obtain ⟨c, rfl, rfl, manager, _, after⟩ := behaves.of_leave
  obtain ⟨user, other, _, live, _, _⟩ := inv.client here manager place.symm
  have unused : ∀ {k}, Function.update w.isUsed d false k = true → k ≠ d ∧ w.isUsed k = true :=
      fun {k} used => by
    by_cases same : k = d
    · rw [same, Function.update_self] at used
      exact absurd used nofun
    · rw [Function.update_of_ne same] at used
      exact ⟨same, used⟩
  refine inv.drop (t := .absent) here manager place.symm id rfl rfl rfl inv.owner (fun _ _ => rfl)
    (fun gone => absurd rfl gone)
    ?_ (fun k member => ?_) (fun k => ?_) (fun _ => ⟨.none, trivial, after⟩) (fun s x member => ?_)
      fun k used waiting => ?_
  · refine List.nodup_append.mpr ⟨inv.free_nodup, List.nodup_singleton d,
      fun a member b single => ?_⟩
    rintro rfl
    rw [List.mem_singleton.mp single] at member
    exact live.ne_absent (inv.free d member).2
  · exact (List.mem_append.mp member).imp id fun last => ⟨List.mem_singleton.mp last, rfl⟩
  · show Function.update w.isUsed d false k = true ↔
      Function.update (Function.update w.thread d .absent) p (.awake none next) k ≠ .absent
    by_cases isP : k = p
    · subst isP
      rw [Function.update_self, Function.update_of_ne (Ne.symm other), inv.used, here]
      exact ⟨fun _ => nofun, fun _ => nofun⟩
    · rw [Function.update_of_ne isP]
      by_cases isD : k = d
      · rw [isD, Function.update_self, Function.update_self]
        exact ⟨nofun, fun gone => absurd rfl gone⟩
      · rw [Function.update_of_ne isD, Function.update_of_ne isD, inv.used]
  · refine (inv.kept s x member).imp id fun ⟨server, type, child⟩ =>
      ⟨server, type, fun k same => ?_⟩
    obtain ⟨used, parent, waiting⟩ := child k same
    have isD : k ≠ d := by
      rintro rfl
      rw [alone] at waiting
      exact absurd waiting nofun
    exact ⟨by rw [← used]; exact Function.update_of_ne isD .., parent, waiting⟩
  · exact inv.recorded k (unused used).2 waiting

/-- The flag of a PCB that is not in use does not matter. -/
theorem Inv.setParentWait (parentWait : Pid → Bool) (inv : Inv w queue)
    (same : ∀ k, w.isUsed k = true → parentWait k = w.parentWait k) :
    Inv { w with parentWait } queue where
  owner := inv.owner
  boxes := inv.boxes
  empty := inv.empty
  sources := inv.sources
  held := inv.held
  balanced := inv.balanced
  answers := inv.answers
  threads q := (inv.threads q).frame ⟨fun _ => id, id, fun _ _ => id, fun _ => rfl⟩
  kept s x member :=
    (inv.kept s x member).imp id fun ⟨server, type, child⟩ => ⟨server, type, fun k here => by
    obtain ⟨used, parent, waiting⟩ := child k here
    exact ⟨used, parent, (same k used).trans waiting⟩⟩
  recorded k used waiting := inv.recorded k used ((same k used).symm.trans waiting)
  free_nodup := inv.free_nodup
  free := inv.free
  used := inv.used
  served := inv.served

/-- The wait of the parent of a process for which there is one. -/
theorem Inv.parent_waits {before after : List Msg} (inv : Inv w queue)
    (split : w.kept pcbManager = before ++ c :: after) (source : c.src = w.ppid d)
    (parent : IsFrom p c) (used : w.isUsed d = true) (waiting : w.parentWait d = true) :
    c.type = ManagerType.waitPid.type ∧ c.i 0 = d.val := by
  obtain ⟨x, there, same, child⟩ := inv.recorded d used waiting
  have fromX : IsFrom p x := (same.trans source.symm).trans parent
  rw [split] at there
  have here : x = c := by
    rcases List.mem_append.mp there with first | last
    · exact absurd fromX (inv.kept_alone split parent (List.mem_append_left _ first))
    · exact (List.mem_cons.mp last).resolve_right fun last =>
        inv.kept_alone split parent (List.mem_append_right _ last) fromX
  subst here
  have member : x ∈ w.kept pcbManager := by
    rw [split]
    exact List.mem_append_right _ List.mem_cons_self
  refine ⟨?_, child⟩
  rcases inv.kept pcbManager x member with (⟨no, _⟩ | ⟨no, _⟩ | ⟨no, _⟩) | waited
  · exact absurd no (by decide)
  · exact absurd no (by decide)
  · exact absurd no (by decide)
  · exact waited.2.1

/-- A parent gets the message it waits for, and its wait is no longer recorded. -/
theorem Inv.tellParent {parent : Pid} {before after : List Msg} (inv : Inv w queue)
    (used : w.isUsed d = true) (waiting : w.parentWait d = true)
    (parentPid : (parent.val : Int) = w.ppid d) (source : IsFrom pcbManager m)
    (sent : send m (w.box parent) = some b) (split : w.kept pcbManager = before ++ c :: after)
    (same : c.src = w.ppid d) :
    ∃ queue', Inv { (w.setBox parent b).setKept pcbManager (before ++ after) with
      parentWait := Function.update w.parentWait d false } queue' := by
  have fromParent : IsFrom parent c := same.trans parentPid.symm
  have live : (w.thread pcbManager).Live := inv.served pcbManager (by decide)
  obtain ⟨type, child⟩ := inv.parent_waits split same fromParent used waiting
  have ok : AnswerOk w parent pcbManager c m :=
    ⟨fits_of_ne (by decide), fun fork => absurd (type.symm.trans fork.2) (by decide)⟩
  have other : ∀ {k}, Function.update w.parentWait d false k = true → k ≠ d ∧
      w.parentWait k = true := fun {k} flag => by
    by_cases isD : k = d
    · rw [isD, Function.update_self] at flag
      exact absurd flag nofun
    · rw [Function.update_of_ne isD] at flag
      exact ⟨isD, flag⟩
  refine inv.deliver _ live live (Function.update_eq_self ..).symm rfl rfl rfl rfl sent source rfl
    rfl fromParent
    (puts_held split (Function.update_eq_self ..).symm rfl rfl) ok
    ((inv.threads pcbManager).frame ⟨fun _ => id, id, fun _ _ => id, fun _ => rfl⟩)
    (fun a x (there : x ∈ Function.update w.kept pcbManager (before ++ after) a) => ?_)
    fun k user (flag : Function.update w.parentWait d false k = true) => ?_
  · refine (inv.kept a x (mem_kept split there)).imp id fun ⟨server, kind, children⟩ =>
      ⟨server, kind, fun k named => ?_⟩
    obtain ⟨alive, parent, flag⟩ := children k named
    have isD : k ≠ d := by
      rintro rfl
      subst server
      rw [Function.update_self] at there
      exact inv.kept_alone split fromParent there (parent.symm.trans parentPid.symm)
    refine ⟨alive, parent, ?_⟩
    show Function.update w.parentWait d false k = true
    rwa [Function.update_of_ne isD]
  · obtain ⟨isD, flag⟩ := other flag
    obtain ⟨x, there, parent, named⟩ := inv.recorded k user flag
    refine ⟨x, ?_, parent, named⟩
    show x ∈ Function.update w.kept pcbManager (before ++ after) pcbManager
    rw [Function.update_self]
    rw [split] at there
    rcases List.mem_append.mp there with first | last
    · exact List.mem_append_left _ first
    · rcases List.mem_cons.mp last with rfl | last
      · exact absurd (Fin.ext (by omega)) isD
      · exact List.mem_append_right _ last

/-- **The parent that waits for the process gets its message** while the PCB is freed. -/
theorem Inv.leaveParent {pcb : Int} {parent : Pid} {before after : List Msg} (inv : Inv w queue)
    (here : w.thread p = .awake hand (.leave pcb m next)) (place : (d.val : Int) = pcb)
    (waiting : w.parentWait d = true) (parentPid : (parent.val : Int) = w.ppid d)
    (sent : send m (w.box parent) = some b) (split : w.kept p = before ++ c :: after)
    (source : c.src = w.ppid d) :
    ∃ queue', Inv ((((w.retire d).setBox parent b).setKept p (before ++ after)).setThread p
      (.awake none next)) queue' := by
  obtain ⟨birth, _, behaves⟩ := inv.awake here
  obtain ⟨c₀, rfl, placed, rfl, fromMe, _⟩ := behaves.of_leave
  obtain ⟨_, _, _, live, _, _⟩ := inv.client here rfl (placed.symm.trans place.symm)
  -- first the message, with the flag taken back, and then the PCB, whose flag does not matter any
  -- more
  obtain ⟨queue', told⟩ :=
    inv.tellParent ((inv.used d).mpr live.ne_absent) waiting parentPid fromMe sent split source
  have gone := told.leave here place (Function.update_self ..)
  refine ⟨queue', gone.setParentWait w.parentWait fun k used => ?_⟩
  have isD : k ≠ d := by
    rintro rfl
    rw [show World.isUsed _ k = false from Function.update_self ..] at used
    exact absurd used nofun
  exact (Function.update_of_ne isD ..).symm

/-- A process without a message that is inside a `receive` is on the wait list. -/
theorem Holds.asleep {src : Int} (holds : Holds b [] (some src)) : asleep t b = true := by
  obtain ⟨msgs, free, mirrors⟩ := holds
  have phase := mirrors.phase
  cases t <;> cases state : b.phase with
    | asleep point => simp only [Services.asleep, state]
    | running =>
        rw [state] at phase
        exact absurd phase nofun
    | woken point =>
        rw [state] at phase
        cases point with
        | any1 => exact absurd rfl phase.2
        | pid1 _ => exact absurd rfl phase.2.2
        | any2 _ => exact phase.elim
        | pid2 _ => exact phase.elim

theorem holds_initMsg (b : Mailbox) : Holds (initMsg b) [] none := ⟨_, _, mirrors_initMsg b⟩

/-- **`exec` starts its client again.** -/
theorem Inv.initMsg {pcb : Int} (inv : Inv w queue)
    (here : w.thread p = .awake hand (.initMsg pcb next)) (place : (d.val : Int) = pcb) :
    Inv (((w.setBox d (initMsg (w.box d))).setThread d
      (if asleep (w.thread d) (w.box d) then .created p.val else .awake none .done)).setThread p
      (.awake none next)) queue := by
  obtain ⟨birth, _, behaves⟩ := inv.awake here
  obtain ⟨c, rfl, rfl, manager, after⟩ := behaves.of_initMsg
  obtain ⟨user, other, waits, live, empty, _⟩ := inv.client here manager place.symm
  have inside := inv.boxes d live.ne_absent
  obtain ⟨handD, restD, there⟩ := Thread.waits_eq waits
  rw [empty, there] at inside
  have onList : asleep (w.thread d) (w.box d) = true := inside.asleep
  rw [if_pos onList]
  refine inv.drop (t := .created p.val) here manager place.symm id rfl rfl rfl
    (owner_update inv.owner rfl)
    (fun q isD => Function.update_of_ne isD ..) (fun _ => ?_) inv.free_nodup
    (fun k member => .inl member) (fun k => ?_)
    (fun _ => ⟨.born d p.val, ⟨?_, .inl rfl⟩, after d place.symm⟩)
    (fun s x member => inv.kept s x member)
    fun k used waiting => inv.recorded k used waiting
  · show Holds (Function.update w.box d _ d) [] none
    rw [Function.update_self]
    exact holds_initMsg _
  · show w.isUsed k = true ↔
      Function.update (Function.update w.thread d (.created p.val)) p (.awake none next) k ≠ .absent
    rw [inv.used]
    by_cases isP : k = p
    · rw [isP, Function.update_self, here]
      exact ⟨fun _ => nofun, fun _ => nofun⟩
    · rw [Function.update_of_ne isP]
      by_cases isD : k = d
      · rw [isD, Function.update_self, there]
        exact ⟨fun _ => nofun, fun _ => nofun⟩
      · rw [Function.update_of_ne isD]
  · show Function.update (Function.update w.thread d (.created p.val)) p (.awake none next) d = _
    rw [Function.update_of_ne other, Function.update_self]

/-- **A PCB that was taken is set up.** -/
theorem Inv.begin {k : Pid} {waker : Int} (ppid : Pid → Int) (inv : Inv w queue)
    (here : w.thread p = .awake hand script) (tends : Tends w p hand (.taken k))
    (samePpid : ∀ j, j ≠ k → ppid j = w.ppid j)
    (wakes : waker = p.val ∨ p = pcbManager ∧ ∃ c, hand = some c ∧ waker = c.src)
    (behaves : Behaves p hand (.born k waker) next) :
    Inv ({ w.start k waker with ppid }.setThread p (.awake hand next)) queue := by
  obtain ⟨manager, user, absent, notFree⟩ := tends
  have live := live_awake here
  have other : k ≠ p := fun same => live.ne_absent (same ▸ absent)
  generalize after : ({ w.start k waker with ppid }.setThread p (.awake hand next)) = w'
  have thread : w'.thread = Function.update (Function.update w.thread k (.created waker)) p
      (.awake hand next) := by
    rw [← after]
    rfl
  have atK : w'.thread k = .created waker := by
    rw [thread, Function.update_of_ne other, Function.update_self]
  have atP : w'.thread p = .awake hand next := by rw [thread, Function.update_self]
  have away : ∀ {j}, j ≠ k → j ≠ p → w'.thread j = w.thread j := fun notK notP => by
    rw [thread, Function.update_of_ne notP, Function.update_of_ne notK]
  have box : ∀ j, j ≠ k → w'.box j = w.box j := fun j isK => by
    rw [← after]
    exact Function.update_of_ne isK ..
  have boxK : w'.box k = Process.initMsg (w.box k) := by
    rw [← after]
    exact Function.update_self ..
  have usedK : w'.isUsed k = true := by
    rw [← after]
    exact Function.update_self ..
  have used : ∀ j, j ≠ k → w'.isUsed j = w.isUsed j := fun j isK => by
    rw [← after]
    exact Function.update_of_ne isK ..
  have waitK : w'.parentWait k = false := by
    rw [← after]
    exact Function.update_self ..
  have wait : ∀ j, j ≠ k → w'.parentWait j = w.parentWait j := fun j isK => by
    rw [← after]
    exact Function.update_of_ne isK ..
  have kept : w'.kept = w.kept := by rw [← after]; rfl
  have free : w'.free = w.free := by rw [← after]; rfl
  have ppidEq : w'.ppid = ppid := by rw [← after]; rfl
  have unused : w.isUsed k = false := by
    rw [Bool.eq_false_iff]
    exact fun isUsed => (inv.used k).mp isUsed absent
  -- the calls do not change
  have waits : (calls w' queue).waits = (calls w queue).waits := by
    funext q
    show (w'.thread q).waits = (w.thread q).waits
    by_cases isP : q = p
    · rw [isP, atP, here]
      rfl
    · by_cases isK : q = k
      · rw [isK, atK, absent]
        rfl
      · rw [away isK isP]
  have held : ∀ s, w'.held s = w.held s := fun s => by
    unfold World.held
    rw [kept]
    by_cases isP : s = p
    · rw [isP, atP, here]
      rfl
    · by_cases isK : s = k
      · rw [isK, atK, absent]
        rfl
      · rw [away isK isP]
  -- nobody else has to do with this child
  have others : ∀ {q hand birth}, q ≠ p → (w.thread q).Live → Tends w q hand birth →
      Tends w' q hand birth := by
    intro q hand birth isP liveQ tends
    cases birth with
    | none => trivial
    | thread =>
        refine ⟨tends.1, ?_⟩
        have isK : q ≠ k := fun same => liveQ.ne_absent (same ▸ absent)
        rw [ppidEq, samePpid q isK]
        exact tends.2
    | taken j => exact absurd (tends.1.trans manager.symm) isP
    | born j waker' =>
        have isK : j ≠ k := by
          rintro rfl
          exact nomatch absent.symm.trans tends.1
        have notP : j ≠ p := fun same => live.ne_created (same ▸ tends.1)
        exact ⟨(away isK notP).trans tends.1, tends.2⟩
  refine ⟨fun q => ?_, fun q there => ?_, fun q gone => ?_, inv.sources,
    fun s c there => inv.held s c (held s ▸ there), ?_,
    fun {q a x r} waiting there => ?_, fun q => ?_, fun s x there => ?_, fun j isUsed waiting => ?_,
    ?_, fun j member => ?_,
    fun j => ?_, fun q server => ?_⟩
  · by_cases isK : q = k
    · rw [isK, boxK]
      exact inv.owner k
    · rw [box q isK, inv.owner]
  · by_cases isK : q = k
    · rw [isK, boxK, inv.empty k absent, atK]
      exact holds_initMsg _
    · rw [box q isK]
      by_cases isP : q = p
      · have holds := inv.boxes p live.ne_absent
        rw [here] at holds
        rw [isP, atP]
        exact holds
      · rw [away isK isP] at there ⊢
        exact inv.boxes q there
  · have isK : q ≠ k := by
      rintro rfl
      exact nomatch atK.symm.trans gone
    have isP : q ≠ p := by
      rintro rfl
      exact nomatch atP.symm.trans gone
    rw [away isK isP] at gone
    exact inv.empty q gone
  · refine inv.balanced.pass waits (fun q t => ?_) fun _ _ => rfl
    exact congrArg (askedIn queue q t + mail q ·) (held t)
  · have same : (w'.thread q).waits = (w.thread q).waits := congrFun waits q
    rw [same] at waiting
    obtain ⟨fits, named⟩ := inv.answers waiting there
    refine ⟨fits, fun fork => ?_⟩
    obtain ⟨j, type, created⟩ := named fork
    have isK : j ≠ k := by
      rintro rfl
      exact nomatch absent.symm.trans created
    have isP : j ≠ p := fun same => live.ne_created (same ▸ created)
    exact ⟨j, type, (away isK isP).trans created⟩
  · by_cases isP : q = p
    · rw [isP, atP]
      exact ⟨.born k waker, ⟨atK, wakes⟩, behaves⟩
    · by_cases isK : q = k
      · rw [isK, atK]
        trivial
      · rw [away isK isP]
        by_cases liveQ : (w.thread q).Live
        · exact (inv.threads q).imp fun _ => others isP liveQ
        · exact .of_dead liveQ
  · rw [kept] at there
    refine (inv.kept s x there).imp id fun ⟨server, type, child⟩ => ⟨server, type, fun j same => ?_⟩
    obtain ⟨isUsed, parent, waiting⟩ := child j same
    have isK : j ≠ k := by
      rintro rfl
      rw [unused] at isUsed
      exact nomatch isUsed
    rw [used j isK, ppidEq, samePpid j isK, wait j isK]
    exact ⟨isUsed, parent, waiting⟩
  · have isK : j ≠ k := by
      rintro rfl
      rw [waitK] at waiting
      exact nomatch waiting
    rw [used j isK] at isUsed
    rw [wait j isK] at waiting
    rw [kept, ppidEq, samePpid j isK]
    exact inv.recorded j isUsed waiting
  · rw [free]
    exact inv.free_nodup
  · rw [free] at member
    obtain ⟨isUser, gone⟩ := inv.free j member
    have isK : j ≠ k := fun same => notFree (same ▸ member)
    have isP : j ≠ p := fun same => live.ne_absent (same ▸ gone)
    exact ⟨isUser, (away isK isP).trans gone⟩
  · by_cases isK : j = k
    · rw [isK, usedK, atK]
      exact ⟨fun _ => nofun, fun _ => rfl⟩
    · rw [used j isK, inv.used]
      by_cases isP : j = p
      · rw [isP, atP, here]
        exact ⟨fun _ => nofun, fun _ => nofun⟩
      · rw [away isK isP]
  · by_cases isP : q = p
    · rw [isP, atP]
      trivial
    · have isK : q ≠ k := fun same => server (same ▸ user)
      rw [away isK isP]
      exact inv.served q server

theorem Inv.startChild {k : Pid} {parent : Int} (inv : Inv w queue)
    (here : w.thread p = .awake hand (.startChild k parent next)) :
    Inv (((w.start k parent).setPpid k parent).setThread p (.awake hand next)) queue := by
  obtain ⟨birth, tends, behaves⟩ := inv.awake here
  cases behaves with
  | startChild next =>
      exact inv.begin _ here tends (fun j isK => Function.update_of_ne isK ..)
        (.inr ⟨tends.1, _, rfl, rfl⟩) next

theorem Inv.initPcb {k : Pid} (inv : Inv w queue)
    (here : w.thread p = .awake hand (.initPcb k next)) :
    Inv ((w.start k p.val).setThread p (.awake hand next)) queue := by
  obtain ⟨birth, tends, behaves⟩ := inv.awake here
  cases behaves with
  | initPcb next => exact inv.begin w.ppid here tends (fun _ _ => rfl) (.inl rfl) next

/-- **Who wakes up a process has been given it to wake up.** -/
theorem Inv.wakes {pcb : Int} (inv : Inv w queue)
    (here : w.thread p = .awake hand (.wakeup pcb next)) :
    ∃ k : Pid, pcb = k.val ∧ w.thread k = .created p.val ∧ Behaves p hand .none next := by
  obtain ⟨birth, tends, behaves⟩ := inv.awake here
  cases behaves with
  | wakeup next => exact ⟨_, rfl, tends.1, next⟩

/-- The process that is woken up is nobody else's to wake up. -/
theorem Inv.wakeup {pcb : Int} {hand' : Option Msg} (inv : Inv w queue)
    (here : w.thread p = .awake hand' (.wakeup pcb next))
    (place : (d.val : Int) = pcb) :
    Inv ((w.setThread d (.awake none .done)).setThread p (.awake hand' next)) queue := by
  obtain ⟨k, rfl, created, after⟩ := inv.wakes here
  obtain rfl : k = d := Fin.ext (by omega)
  have live := live_awake here
  have other : k ≠ p := fun same => live.ne_created (same ▸ created)
  have atK : Function.update (Function.update w.thread k (.awake none .done)) p
    (.awake hand' next) k =
    .awake none .done := by
    rw [Function.update_of_ne other, Function.update_self]
  have away : ∀ {j}, j ≠ k → j ≠ p →
      Function.update (Function.update w.thread k (.awake none .done)) p (.awake hand' next) j =
        w.thread j :=
      fun notK notP => by
    rw [Function.update_of_ne notP, Function.update_of_ne notK]
  have parts :
    ∀ q, ((Function.update (Function.update w.thread k (.awake none .done)) p
      (.awake hand' next) q).waits =
      (w.thread q).waits ∧ (Function.update (Function.update w.thread k (.awake none .done)) p
        (.awake hand' next) q).hand =
      (w.thread q).hand) ∧
      (Function.update (Function.update w.thread k (.awake none .done)) p
        (.awake hand' next) q).asked =
        (w.thread q).asked ∧
      ((Function.update (Function.update w.thread k (.awake none .done)) p (.awake hand' next) q) =
        .absent ↔
      w.thread q = .absent) := fun q => by
    by_cases isP : q = p
    · rw [isP, Function.update_self, here]
      exact ⟨⟨rfl, rfl⟩, rfl, iff_of_false Thread.noConfusion Thread.noConfusion⟩
    · by_cases isK : q = k
      · rw [isK, atK, created]
        exact ⟨⟨rfl, rfl⟩, rfl, iff_of_false Thread.noConfusion Thread.noConfusion⟩
      · rw [away isK isP]
        exact ⟨⟨rfl, rfl⟩, rfl, Iff.rfl⟩
  -- a child of another thread is another child
  have others : ∀ {q hand birth}, q ≠ p → (w.thread q).hand = hand → Tends w q hand birth →
      Tends ((w.setThread k (.awake none .done)).setThread p (.awake hand' next)) q hand birth := by
    intro q hand birth isP inHand tends
    cases birth with
    | none => trivial
    | thread => exact tends
    | taken j =>
        have isK : j ≠ k := by
          rintro rfl
          exact Thread.noConfusion (created.symm.trans tends.2.2.1)
        have notP : j ≠ p := fun same => live.ne_absent (same ▸ tends.2.2.1)
        exact ⟨tends.1, tends.2.1, (away isK notP).trans tends.2.2.1, tends.2.2.2⟩
    | born j waker' =>
        obtain ⟨there, wakes⟩ := tends
        have isK : j ≠ k := by
          rintro rfl
          obtain rfl := Thread.created.inj (created.symm.trans there)
          rcases wakes with mine | ⟨_, c, some, source⟩
          · exact isP (Fin.ext (by omega))
          · -- the manager has no request of a thread that runs
            have member : c ∈ w.held q := by
              rw [World.held, inHand, some]
              exact List.mem_cons_self
            obtain ⟨a, fromA, waits, _⟩ := inv.of_held member
            obtain rfl := (isFrom_inj fromA).mp source.symm
            rw [here] at waits
            cases waits
        have notP : j ≠ p := fun same => live.ne_created (same ▸ there)
        exact ⟨(away isK notP).trans there, wakes⟩
  have held : ∀ s, ((w.setThread k (.awake none .done)).setThread p (.awake hand' next)).held s =
    w.held s := fun s =>
    congrArg (·.toList ++ w.kept s) (parts s).1.2
  have waits : (calls ((w.setThread k (.awake none .done)).setThread p (.awake hand' next))
    queue).waits =
      (calls w queue).waits := funext fun q => (parts q).1.1
  refine ⟨inv.owner, fun q there => ?_,
    fun q gone => inv.empty q ((parts q).2.2.mp gone), inv.sources,
    fun s c there => inv.held s c (held s ▸ there), ?_, fun {q a x r} waiting there => ?_,
    fun q => ?_, inv.kept,
    inv.recorded,
    inv.free_nodup, fun j member => ?_, fun j => (inv.used j).trans (not_congr (parts j).2.2).symm,
    fun q server => ?_⟩
  · have holds := inv.boxes q fun gone => there ((parts q).2.2.mpr gone)
    rw [← (parts q).2.1] at holds
    exact holds
  · refine inv.balanced.pass waits (fun q t => ?_) fun _ _ => rfl
    exact congrArg (askedIn queue q t + mail q ·) (held t)
  · have before : (w.thread q).waits = some (a, x) := (parts q).1.1.symm.trans waiting
    obtain ⟨fits, named⟩ := inv.answers before there
    refine ⟨fits, fun fork => ?_⟩
    obtain ⟨j, type, createdJ⟩ := named fork
    have notP : j ≠ p := fun same => live.ne_created (same ▸ createdJ)
    have isK : j ≠ k := by
      rintro rfl
      have same := Thread.created.inj (created.symm.trans createdJ)
      obtain rfl : p = q := Fin.ext (by omega)
      rw [here] at before
      cases before
    exact ⟨j, type, (away isK notP).trans createdJ⟩
  · by_cases isP : q = p
    · subst isP
      show Sound _ q (Function.update (Function.update w.thread k (.awake none .done)) q
        (.awake hand' next) q)
      rw [Function.update_self]
      exact ⟨.none, trivial, after⟩
    · by_cases isK : q = k
      · subst isK
        show Sound _ q (Function.update (Function.update w.thread q (.awake none .done)) p
          (.awake hand' next) q)
        rw [atK]
        exact ⟨.none, trivial, behaves_done⟩
      · show Sound _ q (Function.update (Function.update w.thread k (.awake none .done)) p
          (.awake hand' next) q)
        rw [away isK isP]
        exact (inv.threads q).imp (others isP)
  · obtain ⟨user, gone⟩ := inv.free j member
    exact ⟨user, (parts j).2.2.mpr gone⟩
  · by_cases isP : q = p
    · subst isP
      show (Function.update (Function.update w.thread k (.awake none .done)) q
        (.awake hand' next) q).Live
      rw [Function.update_self]
      trivial
    · by_cases isK : q = k
      · subst isK
        show (Function.update (Function.update w.thread q (.awake none .done)) p
          (.awake hand' next) q).Live
        rw [atK]
        trivial
      · show (Function.update (Function.update w.thread k (.awake none .done)) p
          (.awake hand' next) q).Live
        rw [away isK isP]
        exact inv.served q server

/-- **A kernel thread ends.** Nobody waits for it. -/
theorem Inv.wrap (inv : Inv w queue) (here : w.thread p = .awake hand .wrap) :
    Inv (w.retire p) queue := by
  obtain ⟨birth, tends, behaves⟩ := inv.awake here
  cases behaves with
  | wrap =>
      obtain ⟨user, orphan⟩ := tends
      have live := live_awake here
      have top := rank_user user
      have empty := inv.queue_of_idle top (by rw [here]; rfl)
      have away : ∀ {j}, j ≠ p → Function.update w.thread p .absent j = w.thread j := fun isP =>
        Function.update_of_ne isP ..
      have frame : Frame w (w.retire p) := {
        absent := fun k absent => (away fun same => live.ne_absent (same ▸ absent)).trans absent
        created :=
          fun {k _} created => (away fun same => live.ne_created (same ▸ created)).trans created
        free := fun k absent notFree member => by
          rcases List.mem_append.mp member with old | new
          · exact notFree old
          · exact live.ne_absent (List.mem_singleton.mp new ▸ absent)
        ppid := fun _ => rfl }
      have parts : ∀ q, (Function.update w.thread p .absent q).waits = (w.thread q).waits ∧
          (Function.update w.thread p .absent q).hand = (w.thread q).hand := fun q => by
        by_cases isP : q = p
        · rw [isP, Function.update_self, here]
          exact ⟨rfl, rfl⟩
        · rw [away isP]
          exact ⟨rfl, rfl⟩
      have held : ∀ s, (w.retire p).held s = w.held s :=
        fun s => congrArg (·.toList ++ w.kept s) (parts s).2
      have waits : (calls (w.retire p) queue).waits = (calls w queue).waits :=
        funext fun q => (parts q).1
      refine ⟨inv.owner, fun q there => ?_, fun q gone => ?_, inv.sources,
        fun s c there => inv.held s c (held s ▸ there), ?_,
        fun {q a x r} waiting there => ?_, fun q => ?_, fun s x there => ?_,
        fun k used waiting => ?_, ?_,
        fun k member => ?_,
        fun k => ?_, fun q server => ?_⟩
      · have isP : q ≠ p := by
          rintro rfl
          exact there (Function.update_self ..)
        show Holds _ _ (Function.update w.thread p .absent q).asked
        rw [away isP]
        exact inv.boxes q fun gone => there ((away isP).trans gone)
      · by_cases isP : q = p
        · rw [isP, empty]
        · exact inv.empty q ((away isP).symm.trans gone)
      · refine inv.balanced.pass waits (fun q t => ?_) fun _ _ => rfl
        exact congrArg (askedIn queue q t + mail q ·) (held t)
      · exact (inv.answers ((parts q).1.symm.trans waiting) there).frame frame
      · show Sound _ q (Function.update w.thread p .absent q)
        by_cases isP : q = p
        · rw [isP, Function.update_self]
          trivial
        · rw [away isP]
          exact (inv.threads q).frame frame
      · refine (inv.kept s x there).imp id fun ⟨server, type, child⟩ =>
          ⟨server, type, fun k same => ?_⟩
        obtain ⟨used, parent, waiting⟩ := child k same
        have isP : k ≠ p := by
          rintro rfl
          -- the one that waits is a user, and this is nobody's child
          subst server
          obtain ⟨q, source, waits, _⟩ :=
            inv.of_held (s := pcbManager) (c := x) (List.mem_append_right _ there)
          have known := (inv.waits waits).2
          cases known with
          | manage _ user _ =>
              have zero : (q.val : Int) = 0 := source.symm.trans (parent.symm.trans orphan)
              have : createShell.val ≤ q.val := user
              have : createShell.val = 10 := rfl
              omega
        refine ⟨?_, parent, waiting⟩
        show Function.update w.isUsed p false k = true
        rw [Function.update_of_ne isP]
        exact used
      · refine inv.recorded k ?_ waiting
        by_cases isP : k = p
        · rw [isP] at used
          rw [show (w.retire p).isUsed p = false from Function.update_self ..] at used
          exact nomatch used
        · exact (Function.update_of_ne isP ..).symm.trans used
      · refine List.nodup_append.mpr ⟨inv.free_nodup, List.nodup_singleton p,
          fun a member b single => ?_⟩
        rintro rfl
        rw [List.mem_singleton.mp single] at member
        exact live.ne_absent (inv.free p member).2
      · show IsUser k ∧ Function.update w.thread p .absent k = .absent
        rcases List.mem_append.mp member with old | new
        · exact ⟨(inv.free k old).1, frame.absent k (inv.free k old).2⟩
        · rw [List.mem_singleton.mp new]
          exact ⟨user, Function.update_self ..⟩
      · show Function.update w.isUsed p false k = true ↔
          Function.update w.thread p .absent k ≠ .absent
        by_cases isP : k = p
        · rw [isP, Function.update_self, Function.update_self]
          exact ⟨nofun, fun gone => absurd rfl gone⟩
        · rw [Function.update_of_ne isP, away isP, inv.used]
      · show (Function.update w.thread p .absent q).Live
        have isP : q ≠ p := by
          rintro rfl
          exact server user
        rw [away isP]
        exact inv.served q server

/-! ### Runs -/

/-- **Every step of a thread keeps the invariant.** -/
theorem Inv.step (inv : Inv w queue) (step : Step p w w') : ∃ queue', Inv w' queue' := by
  cases step with
  | listen server here ran => exact ⟨queue, inv.listen server here ran⟩
  | accept loop ran serves => exact inv.accept loop ran serves
  | getty getty here low high =>
      exact ⟨queue, inv.goOn here ⟨.none, trivial, getty_behaves getty low high⟩⟩
  | syscall user here => exact ⟨queue, inv.goOn here ⟨.none, trivial, doSyscall_behaves user ..⟩⟩
  | call here place sent ran => exact inv.call here place sent ran
  | resume here ran => exact inv.resume here ran
  | answer here place sent => exact inv.answer here place sent
  | serveReader here split place sent => exact inv.serveReader here split place sent
  | noReader here => exact ⟨queue, inv.noReader here⟩
  | takePcb here first => exact ⟨queue, inv.takePcb here first⟩
  | startChild here => exact ⟨queue, inv.startChild here⟩
  | initPcb here => exact ⟨queue, inv.initPcb here⟩
  | initMsg here place => exact ⟨queue, inv.initMsg here place⟩
  | leave here place alone => exact ⟨queue, inv.leave here place alone⟩
  | leaveParent here place waiting parent sent split source =>
      exact inv.leaveParent here place waiting parent sent split source
  | recordWait here place child used => exact ⟨queue, inv.recordWait here place child used⟩
  | noChild here _ _ => exact ⟨queue, inv.noChild here⟩
  | outside here _ => exact ⟨queue, inv.noChild here⟩
  | outsideWait here outside => exact ⟨queue, inv.outsideWait here outside⟩
  | wakeup here place _ => exact ⟨queue, inv.wakeup here place⟩
  | spurious here place never =>
      obtain ⟨k, same, created, _⟩ := inv.wakes here
      have here : k = _ := Fin.ext (Int.natCast_inj.mp (same.symm.trans place.symm))
      rw [here] at created
      exact absurd created (never _)
  | wrap here => exact ⟨queue, inv.wrap here⟩

/-- So does every interrupt. -/
theorem Inv.interrupted (inv : Inv w queue) (interrupt : Interrupt w w') :
    ∃ queue', Inv w' queue' := by
  cases interrupt with
  | tick split place source sent => exact inv.tick split place source sent
  | keyboard intr type sent => exact inv.interrupt ⟨intr, .inl ⟨rfl, .inl type⟩⟩ sent
  | update intr type sent => exact inv.interrupt ⟨intr, .inl ⟨rfl, .inr type⟩⟩ sent
  | writeback intr type sent => exact inv.interrupt ⟨intr, .inr ⟨rfl, type⟩⟩ sent

/-- **It holds after boot.** -/
theorem inv_boot (format : List (DevType × DevWords)) (programs : Programs) (box : Pid → Mailbox) :
    Inv (boot format programs box) fun _ => [] := by
  have quiet : ∀ q, ((boot format programs box).thread q).waits = none ∧
    ((boot format programs box).thread q).hand = none ∧
      ((boot format programs box).thread q).asked = none := fun q => by
    unfold boot
    dsimp only
    split_ifs <;> exact ⟨rfl, rfl, rfl⟩
  have absent : ∀ q, (boot format programs box).thread q = .absent ↔ createShell < q := fun q => by
    unfold boot
    dsimp only
    split_ifs with isFile isShell below
    · rw [isFile]
      exact iff_of_false id (by decide)
    · rw [isShell]
      exact iff_of_false id (by decide)
    · exact iff_of_false id (lt_asymm below)
    · exact ⟨fun _ => lt_of_le_of_ne (not_lt.mp below) (Ne.symm isShell), fun _ => rfl⟩
  have nothing : ∀ q t, askedIn (fun _ => []) q t = 0 ∧
      answeredIn (fun _ => []) q t = 0 := fun q t => by
    unfold askedIn answeredIn
    exact ⟨by split_ifs <;> rfl, by split_ifs <;> rfl⟩
  have noneHeld : ∀ s, (boot format programs box).held s = [] := fun s => by
    rw [World.held, (quiet s).2.1]
    rfl
  refine ⟨fun q => ?_, fun q there => ?_, fun _ _ => rfl,
    fun _ _ none => absurd none List.not_mem_nil, fun s c none => ?_,
    ⟨fun {q s m} waiting => ?_, fun {q s} _ => ?_⟩, fun waiting _ => ?_, fun q => ?_,
    fun _ _ none =>
    absurd none List.not_mem_nil,
    fun _ _ waiting => absurd waiting Bool.false_ne_true, ?_, fun k member => ?_, fun k => ?_,
    fun q server => ?_⟩
  · unfold boot
    dsimp only
    split_ifs <;> rfl
  · rw [(quiet q).2.2]
    have low : q ≤ createShell := not_lt.mp fun high => there ((absent q).mpr high)
    unfold boot
    dsimp only
    rw [if_pos low]
    exact holds_initMsg _
  · rw [noneHeld] at none
    exact absurd none List.not_mem_nil
  · have waiting : ((boot format programs box).thread q).waits = some (s, m) := waiting
    rw [(quiet q).1] at waiting
    cases waiting
  · refine ⟨?_, (nothing q s).2⟩
    show askedIn (fun _ => []) q s + mail q ((boot format programs box).held s) = 0
    rw [(nothing q s).1, noneHeld]
    rfl
  · rw [(quiet _).1] at waiting
    cases waiting
  · show Sound _ q ((boot format programs box).thread q)
    unfold boot
    dsimp only
    split_ifs with isFile isShell
    · subst isFile
      exact ⟨.none, trivial, fileBoot_behaves format⟩
    · subst isShell
      exact ⟨.thread, ⟨by decide, rfl⟩, startShell_behaves programs⟩
    · exact ⟨.none, trivial, behaves_done⟩
    · trivial
  · show ((List.finRange 50).filter fun p => createShell < p).Nodup
    exact (List.nodup_finRange 50).filter _
  · have high : createShell < k := of_decide_eq_true (List.mem_filter.mp member).2
    exact ⟨high.le, (absent k).mpr high⟩
  · rw [ne_eq, absent, not_lt]
    exact decide_eq_true_iff
  · have low : q < createShell := not_le.mp server
    unfold boot
    dsimp only
    split_ifs <;> trivial

/-- **In every state that the system comes to** the mailboxes and the threads are as the protocol
has them. -/
theorem Reachable.inv (reachable : Reachable w) : ∃ queue, Inv w queue := by
  obtain ⟨format, programs, box, run⟩ := reachable
  induction run with
  | refl => exact ⟨_, inv_boot format programs box⟩
  | tail _ next ih =>
      obtain ⟨queue, inv⟩ := ih
      rcases next with ⟨p, step⟩ | interrupt
      · exact inv.step step
      · exact inv.interrupted interrupt

end Lifecycle

end NjuOs.Process.Services
