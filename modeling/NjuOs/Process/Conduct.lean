/-
**What the servers and their clients keep to.**

`Known s m` says that the message `m` is a request that the server `s` takes from its sender.
`Behaves me hand birth script` says what a thread keeps to in what is left of its function: it asks
only servers below its own rank, with requests they know; it answers the request in its `hand` and
no other one, or returns from it where it may (`Keeps`); a child that it sets up (`birth`) is named
in the answer to the `FORK` and is woken up once; and no assertion fails.

* `serves_known`, `Serves.behaves`: a server can serve every request it knows, and keeps to this
  whatever it does.
* `getty_behaves`, `startShell_behaves`, `doSyscall_behaves`, `fileBoot_behaves`: so do the clients.
* `Known.rank_lt`: a request goes down the ranks.
-/

import NjuOs.Process.Services

namespace NjuOs.Process.Services

open NjuOs.Process

variable {p s me : Pid} {m c r : Msg} {hand : Option Msg} {script : Script}

/-! ### The requests a server takes -/

/-- Who asks whom: a process sends its requests to those of a smaller rank. -/
def rank (p : Pid) : Nat :=
  if p ∈ [timer, tty, ide, ramdisk] then 0
  else if p = file then 1
  else if p = memory then 2
  else if p = pcbManager then 3
  else 4

/-- **The requests of the system**, by who sends them. -/
inductive Known (p : Pid) : Pid → Msg → Prop where
  | sleep {m : Msg} : IsUser p → m.type = newTimer → Known p timer m
  | terminal {m : Msg} (t : DevType) : p = file ∨ IsGetty p → m.type = t.type →
      Terminal m → Known p tty m
  | ram {m : Msg} (t : DevType) : p = file → m.type = t.type → Known p ramdisk m
  | elf {m : Msg} (t : FileType) : p = memory → t ∈ [.open, .lseek, .read, .close] →
      m.type = t.type → Known p file m
  | fdTable {m : Msg} (t : FileType) : p = pcbManager →
      t ∈ [.exitFile, .copyFdTable, .initFdTable] → m.type = t.type →
      Known p file m
  | user {m : Msg} (t : FileType) : IsUser p → t ∉ [.exitFile, .copyFdTable, .initFdTable] →
      m.type = t.type →
      Known p file m
  | space {m : Msg} (t : MemoryType) : p = pcbManager → m.type = t.type → Known p memory m
  | manage {m : Msg} (t : ManagerType) : IsUser p → m.type = t.type → Known p pcbManager m

theorem rank_user (user : IsUser p) : rank p = 4 := by
  unfold IsUser at user
  unfold rank
  revert p
  decide

theorem rank_getty (getty : IsGetty p) : rank p = 4 := by
  unfold IsGetty at getty
  unfold rank
  revert p
  decide

theorem rank_le (p : Pid) : rank p ≤ 4 := by
  unfold rank
  split_ifs <;> decide

/-- **A request goes down the ranks.** -/
theorem Known.rank_lt (known : Known p s m) : rank s < rank p := by
  cases known with
  | sleep user _ =>
      rw [rank_user user]
      decide
  | terminal _ sender _ _ =>
      rcases sender with rfl | getty
      · decide
      · rw [rank_getty getty]
        decide
  | ram _ sender _ =>
      subst sender
      decide
  | elf _ sender _ _ =>
      subst sender
      decide
  | fdTable _ sender _ _ =>
      subst sender
      decide
  | user _ user _ _ =>
      rw [rank_user user]
      decide
  | space _ sender _ =>
      subst sender
      decide
  | manage _ user _ =>
      rw [rank_user user]
      decide

/-- A request that is answered with the pid of a new process. -/
def IsFork (s : Pid) (m : Msg) : Prop := s = pcbManager ∧ m.type = ManagerType.fork.type

instance (s : Pid) (m : Msg) : Decidable (IsFork s m) := inferInstanceAs (Decidable (_ ∧ _))

/-- The requests a server can return from without an answer. -/
def Keeps (s : Pid) (m : Msg) : Prop :=
  s = timer ∧ m.type = newTimer ∨ s = tty ∧ m.type = DevType.read.type ∨
    s = file ∧ (m.type = FileType.lseek.type ∨ m.type = FileType.dup.type)

/-! ### What a thread keeps to -/

/-- The child a thread has to do with: its PCB is taken, or it is set up for `waker` to wake it up.
A kernel thread that ends has none and is nobody's child. -/
inductive Birth where
  | none
  | thread
  | taken (newPcb : Pid)
  | born (newPcb : Pid) (waker : Int)

/-- **What is left of a function keeps to the protocol.** -/
inductive Behaves (me : Pid) : Option Msg → Birth → Script → Prop where
  | done {hand : Option Msg} : (∀ c, hand = some c → Keeps me c) → Behaves me hand .none .done
  | call {hand : Option Msg} {birth : Birth} {m : Msg} {rest : Msg → Script} (s : Pid) :
      m.src = me.val →
      Known me s m → ¬ IsFork s m → (∀ r, Fits s m r → Behaves me hand birth (rest r)) →
      Behaves me hand birth (.call s.val m rest)
  | fork {hand : Option Msg} {m : Msg} {rest : Msg → Script} : m.src = me.val →
      Known me pcbManager m →
      IsFork pcbManager m →
      (∀ (r : Msg) (newPcb : Pid), r.type = newPcb.val →
        Behaves me hand (.born newPcb me.val) (rest r)) →
      Behaves me hand .none (.call pcbManager.val m rest)
  | answer {c r : Msg} {rest : Script} : r.src = me.val → Fits me c r → ¬ IsFork me c →
      Behaves me none .none rest → Behaves me (some c) .none (.answer c.src r rest)
  | answerFork {c r : Msg} {rest : Script} (newPcb : Pid) : r.src = me.val → IsFork me c →
      r.type = newPcb.val →
      Behaves me none .none rest → Behaves me (some c) (.born newPcb c.src) (.answer c.src r rest)
  | serveReader {rest : Script} : me = tty → Behaves me none .none rest →
      Behaves me none .none (.serveReader rest)
  | takePcb {hand : Option Msg} {rest : Pid → Script} : me = pcbManager →
      (∀ newPcb, Behaves me hand (.taken newPcb) (rest newPcb)) →
      Behaves me hand .none (.takePcb rest)
  | startChild {c : Msg} {newPcb : Pid} {rest : Script} :
      Behaves me (some c) (.born newPcb c.src) rest →
      Behaves me (some c) (.taken newPcb) (.startChild newPcb c.src rest)
  | initPcb {hand : Option Msg} {newPcb : Pid} {rest : Script} :
      Behaves me hand (.born newPcb me.val) rest →
      Behaves me hand (.taken newPcb) (.initPcb newPcb rest)
  | initMsg {c : Msg} {rest : Script} : me = pcbManager →
      (∀ pcb : Pid, c.src = pcb.val → Behaves me none (.born pcb me.val) rest) →
      Behaves me (some c) .none (.initMsg c.src rest)
  | leave {c m : Msg} {rest : Script} : me = pcbManager → m.src = me.val →
      Behaves me none .none rest →
      Behaves me (some c) .none (.leave c.src m rest)
  | recordWait {c : Msg} {recorded other : Script} : me = pcbManager →
      c.type = ManagerType.waitPid.type →
      Behaves me none .none recorded → Behaves me (some c) .none other →
      Behaves me (some c) .none (.recordWait c.src (c.i 0) recorded other)
  | wakeup {hand : Option Msg} {pcb : Pid} {rest : Script} : Behaves me hand .none rest →
      Behaves me hand (.born pcb me.val) (.wakeup pcb.val rest)
  | wrap : Behaves me none .thread .wrap

theorem Known.redirect (known : Known p s m) (dest : Int) : Known p s { m with dest } := by
  cases known with
  | sleep user type => exact .sleep user type
  | terminal t sender type terminal => exact .terminal t sender type terminal
  | ram t sender type => exact .ram t sender type
  | elf t sender member type => exact .elf t sender member type
  | fdTable t sender member type => exact .fdTable t sender member type
  | user t user other type => exact .user t user other type
  | space t sender type => exact .space t sender type
  | manage t user type => exact .manage t user type

/-- A thread that has asked for `m` goes on so with every answer that fits. -/
def Expects (me : Pid) (hand : Option Msg) (birth : Birth) (s : Pid) (m : Msg)
    (rest : Msg → Script) : Prop :=
  if IsFork s m then
    birth = .none ∧ ∀ (r : Msg) (newPcb : Pid), r.type = newPcb.val →
      Behaves me hand (.born newPcb me.val) (rest r)
  else ∀ r, Fits s m r → Behaves me hand birth (rest r)

/-- What a thread keeps to that is about to ask. -/
theorem Behaves.of_call {birth : Birth} {dest : Int} {rest : Msg → Script}
    (behaves : Behaves me hand birth (.call dest m rest)) :
    ∃ s : Pid, dest = s.val ∧ m.src = me.val ∧ Known me s m ∧ Expects me hand birth s m rest := by
  cases behaves with
  | call s source known other next =>
      refine ⟨s, rfl, source, known, ?_⟩
      rw [Expects, if_neg other]
      exact next
  | fork source known fork next =>
      refine ⟨pcbManager, rfl, source, known, ?_⟩
      rw [Expects, if_pos fork]
      exact ⟨rfl, next⟩

/-- What the manager keeps to at the test of `handle_waitpid`. -/
theorem Behaves.of_recordWait {birth : Birth} {ppcb cpcb : Int} {recorded other : Script}
    (behaves : Behaves me hand birth (.recordWait ppcb cpcb recorded other)) :
    ∃ c, hand = some c ∧ ppcb = c.src ∧ cpcb = c.i 0 ∧ me = pcbManager ∧
    c.type = ManagerType.waitPid.type ∧
      Behaves me none .none recorded ∧ Behaves me hand .none other := by
  cases behaves with
  | recordWait manager type next other => exact ⟨_, rfl, rfl, rfl, manager, type, next, other⟩

/-- And at the end of `exit`. -/
theorem Behaves.of_leave {birth : Birth} {pcb : Int} {rest : Script}
    (behaves : Behaves me hand birth (.leave pcb m rest)) :
    ∃ c, hand = some c ∧ pcb = c.src ∧ me = pcbManager ∧ m.src = me.val ∧
    Behaves me none .none rest := by
  cases behaves with
  | leave manager source next => exact ⟨_, rfl, rfl, manager, source, next⟩

/-- And where `exec` sets up the mailbox of its client. -/
theorem Behaves.of_initMsg {birth : Birth} {pcb : Int} {rest : Script}
    (behaves : Behaves me hand birth (.initMsg pcb rest)) :
    ∃ c, hand = some c ∧ pcb = c.src ∧ me = pcbManager ∧
      ∀ k : Pid, c.src = k.val → Behaves me none (.born k me.val) rest := by
  cases behaves with
  | initMsg manager next => exact ⟨_, rfl, rfl, manager, next⟩

theorem behaves_done : Behaves me none .none .done := .done nofun

/-- An answer to the request in hand that is not a `FORK`. -/
theorem reply_behaves {ret : Int} (fits : me = tty → m.type = DevType.write.type → ret = m.i 4)
    (other : ¬ IsFork me m) :
    Behaves me (some m) .none (reply me m ret) :=
  .answer rfl fits other behaves_done

theorem not_fork (other : s ≠ pcbManager) : ¬ IsFork s m := fun fork => other fork.1

theorem fits_of_ne (other : s ≠ tty) : Fits s m r := fun same => absurd same other

theorem replies {ret : Int} (notTty : me ≠ tty) (notManager : me ≠ pcbManager) :
    Behaves me (some m) .none (reply me m ret) :=
  reply_behaves (fun same => absurd same notTty) (not_fork notManager)

/-! ### The types of the requests -/

theorem ManagerType.type_inj {t t' : ManagerType} (same : t.type = t'.type) : t = t' := by
  cases t <;> cases t' <;> first | rfl | exact absurd same (by decide)

/-! ### The servers -/

theorem timerThread_behaves (known : Known p timer m) :
    Behaves timer (some m) .none (timerThread m) := by
  cases known with
  | sleep _ type =>
      unfold timerThread
      rw [if_pos type]
      split
      · exact replies (by decide) (by decide)
      · exact .done fun c same => .inl ⟨rfl, Option.some.inj same ▸ type⟩

theorem ttyd_behaves (known : Known p tty m) (notIntr : m.src ≠ hardIntr) (serves : Ttyd m script) :
    Behaves tty (some m) .none script := by
  cases known with
  | terminal t _ type terminal =>
      cases serves with
      | getKey intr _ => exact absurd intr notIntr
      | enter intr _ => exact absurd intr notIntr
      | update intr _ => exact absurd intr notIntr
      | leak intr _ _ => exact absurd intr notIntr
      | readRequest _ read =>
          exact .done fun c same => .inr (.inl ⟨rfl, Option.some.inj same ▸ read⟩)
      | getCooked nread _ read =>
          exact reply_behaves (fun _ write => absurd (read.symm.trans write) (by decide))
            (not_fork (by decide))
      | write _ write =>
          rw [if_pos (show 0 ≤ m.i 1 ∧ m.i 1 < 4 from terminal)]
          exact reply_behaves (fun _ _ => rfl) (not_fork (by decide))
      | unknown _ notRead notWrite =>
          cases t with
          | read => exact absurd type notRead
          | write => exact absurd type notWrite

/-- The messages of interrupts: keys and the clock at the terminals, the clock at the disk. -/
def IsInterrupt (s : Pid) (m : Msg) : Prop :=
  m.src = hardIntr ∧ (s = tty ∧ (m.type = 1 ∨ m.type = 2) ∨ s = ide ∧ m.type = 2)

theorem ramDriverThread_behaves (known : Known p ramdisk m) :
    Behaves ramdisk (some m) .none (ramDriverThread m) := by
  cases known with
  | ram t _ type =>
      unfold ramDriverThread
      rw [if_pos (by cases t with
        | read => exact .inl type
        | write => exact .inr type)]
      exact replies (by decide) (by decide)

/-- **Whatever the file server does for a request** keeps to the protocol. -/
theorem FileWork.behaves {type : FileType} (here : m.type = type.type)
    (work : FileWork m type script) :
    Behaves file (some m) .none script := by
  induction work with
  | reply ret => exact replies (by decide) (by decide)
  | ram t w rest _ ih =>
      exact .call ramdisk rfl (.ram t rfl rfl) (not_fork (by decide)) fun r _ => ih r
  | terminal t w rest low high _ ih =>
      exact .call tty rfl (.terminal t (.inl rfl) rfl ⟨low, high⟩) (not_fork (by decide))
        fun r _ => ih r
  | silent kind =>
      refine .done fun c same => .inr (.inr ⟨rfl, ?_⟩)
      rw [← Option.some.inj same, here]
      exact kind.imp (congrArg FileType.type) (congrArg FileType.type)

theorem fileThread_behaves (known : Known p file m) (serves : FileThread m script) :
    Behaves file (some m) .none script := by
  cases serves with
  | serve type _ here work => exact work.behaves here
  | unknown none =>
      cases known with
      | elf t _ _ type => exact absurd type (none t)
      | fdTable t _ _ type => exact absurd type (none t)
      | user t _ _ type => exact absurd type (none t)

/-- A request to the file server that the sender may make. -/
theorem fileCall_behaves {birth : Birth} {t : FileType} {i : List Int} {rest : Msg → Script}
    (known : ∀ m : Msg, m.type = t.type → Known me file m)
    (next : ∀ r, Behaves me hand birth (rest r)) :
    Behaves me hand birth (fileCall me t i rest) :=
  .call file rfl (known _ rfl) (not_fork (by decide)) fun r _ => next r

theorem elf_known {t : FileType} (member : t ∈ [FileType.open, .lseek, .read, .close]) (m : Msg)
    (type : m.type = t.type) :
    Known memory file m := .elf t rfl member type

theorem loadProgram_behaves {elfFd : Int} (reads : List ElfRead) {rest : Script}
    (next : Behaves memory hand .none rest) :
    Behaves memory hand .none (loadProgram elfFd reads rest) := by
  induction reads with
  | nil => exact next
  | cons _ _ ih =>
      refine fileCall_behaves (elf_known (by decide)) fun _ => ?_
      exact fileCall_behaves (elf_known (by decide)) fun _ => ih

theorem memoryThread_behaves (known : Known p memory m) (serves : MemoryThread m script) :
    Behaves memory (some m) .none script := by
  have load : ∀ (fd : Int) (reads : List ElfRead) (ret : Int),
      Behaves memory (some m) .none (loadProgram fd reads (closeElfFile fd (reply memory m ret))) :=
    fun fd reads ret =>
      loadProgram_behaves reads (fileCall_behaves (elf_known (by decide)) fun _ =>
        replies (by decide) (by decide))
  cases serves with
  | createSpace reads _ =>
    exact fileCall_behaves (elf_known (by decide)) fun r => load r.type reads m.type
  | createChildSpace _ => exact replies (by decide) (by decide)
  | execMemory reads _ =>
      refine fileCall_behaves (elf_known (by decide)) fun r => ?_
      split
      · exact replies (by decide) (by decide)
      · exact load r.type reads 0
  | exitMemory _ => exact replies (by decide) (by decide)
  | sbrk _ _ => exact replies (by decide) (by decide)
  | unknown none =>
      cases known with
      | space t _ type => exact absurd type (none t)

/-- A request to the memory manager. -/
theorem memoryCall_behaves {birth : Birth} {t : MemoryType} {i : List Int} {rest : Msg → Script}
    (next : ∀ r, Behaves pcbManager hand birth (rest r)) :
    Behaves pcbManager hand birth (memoryCall t i rest) :=
  .call memory rfl (.space t rfl rfl) (not_fork (by decide)) fun r _ => next r

theorem fdTable_known {t : FileType} (member : t ∈ [FileType.exitFile, .copyFdTable, .initFdTable])
    (m : Msg) (type : m.type = t.type) : Known pcbManager file m := .fdTable t rfl member type

/-- The manager's answer to a request that is not a `FORK`. -/
theorem managerReply_behaves {t : ManagerType} {ret : Int} (type : m.type = t.type)
    (other : t ≠ .fork) :
    Behaves pcbManager (some m) .none (reply pcbManager m ret) :=
  reply_behaves (fun same => absurd same (by decide)) fun fork =>
    other (ManagerType.type_inj (type.symm.trans fork.2))

theorem pcbManagerThread_behaves (known : Known p pcbManager m)
    (serves : PcbManagerThread m script) :
    Behaves pcbManager (some m) .none script := by
  cases serves with
  | createProcess type =>
      refine .takePcb rfl fun newPcb => memoryCall_behaves fun _ =>
        fileCall_behaves (fdTable_known (by decide)) fun _ => ?_
      exact .initPcb (.wakeup (managerReply_behaves type (by decide)))
  | fork type =>
      refine .takePcb rfl fun newPcb => memoryCall_behaves fun _ => .startChild ?_
      exact fileCall_behaves (fdTable_known (by decide)) fun _ => .answerFork newPcb rfl
        ⟨rfl, type⟩ rfl behaves_done
  | exec fileName type =>
      refine memoryCall_behaves fun r => ?_
      split
      · exact managerReply_behaves type (by decide)
      · refine .initMsg rfl fun pcb same => ?_
        rw [same]
        exact .wakeup behaves_done
  | exit type =>
      exact memoryCall_behaves fun _ => fileCall_behaves (fdTable_known (by decide)) fun _ =>
        .leave rfl rfl behaves_done
  | waitPid type => exact .recordWait rfl type behaves_done (managerReply_behaves type (by decide))
  | unknown none =>
      cases known with
      | manage t _ type => exact absurd type (none t)

/-- **A server that serves a request it knows** keeps to the protocol. -/
theorem Serves.behaves (known : Known p s m) (notIntr : m.src ≠ hardIntr)
    (serves : Serves m s script) :
    Behaves s (some m) .none script := by
  cases serves with
  | timer => exact timerThread_behaves known
  | tty serves => exact ttyd_behaves known notIntr serves
  | ide => nomatch known
  | ramdisk => exact ramDriverThread_behaves known
  | file serves => exact fileThread_behaves known serves
  | memory serves => exact memoryThread_behaves known serves
  | pcbManager serves => exact pcbManagerThread_behaves known serves

/-- So does one that is woken up by an interrupt. -/
theorem Serves.behaves_interrupt (interrupt : IsInterrupt s m) (serves : Serves m s script) :
    Behaves s none .none script := by
  obtain ⟨intr, ⟨rfl, type⟩ | ⟨rfl, type⟩⟩ := interrupt
  · cases serves with
    | tty serves =>
        cases serves with
        | getKey _ _ => exact behaves_done
        | enter _ _ => exact .serveReader rfl behaves_done
        | update _ _ => exact behaves_done
        | leak _ notKey notUpdate => exact (type.elim notKey notUpdate).elim
        | readRequest notIntr _ => exact absurd intr notIntr
        | getCooked _ notIntr _ => exact absurd intr notIntr
        | write notIntr _ => exact absurd intr notIntr
        | unknown notIntr _ _ => exact absurd intr notIntr
  · cases serves with
    | ide =>
        unfold ideDriverThread
        rw [if_pos ⟨intr, type⟩]
        exact behaves_done

/-- **Every request that is known is served**, and every interrupt. -/
theorem serves_known (valid : Known p s m ∨ IsInterrupt s m) : ∃ script, Serves m s script := by
  rcases valid with known | ⟨intr, ⟨rfl, type⟩ | ⟨rfl, _⟩⟩
  · cases known with
    | sleep _ _ => exact ⟨_, .timer⟩
    | terminal t _ type _ =>
        by_cases intr : m.src = hardIntr
        · by_cases key : m.type = 1
          · exact ⟨_, .tty (.getKey intr key)⟩
          · by_cases update : m.type = 2
            · exact ⟨_, .tty (.update intr update)⟩
            · exact ⟨_, .tty (.leak intr key update)⟩
        · cases t with
          | read => exact ⟨_, .tty (.readRequest intr type)⟩
          | write => exact ⟨_, .tty (.write intr type)⟩
    | ram _ _ _ => exact ⟨_, .ramdisk⟩
    | elf t _ _ type => exact ⟨_, .file (.serve t _ type (.reply 0))⟩
    | fdTable t _ _ type => exact ⟨_, .file (.serve t _ type (.reply 0))⟩
    | user t _ _ type => exact ⟨_, .file (.serve t _ type (.reply 0))⟩
    | space t _ type =>
        cases t with
        | createSpace => exact ⟨_, .memory (.createSpace [] type)⟩
        | createChildSpace => exact ⟨_, .memory (.createChildSpace type)⟩
        | execMemory => exact ⟨_, .memory (.execMemory [] type)⟩
        | exitMemory => exact ⟨_, .memory (.exitMemory type)⟩
        | sbrk => exact ⟨_, .memory (.sbrk 0 type)⟩
    | manage t _ type =>
        cases t with
        | createProcess => exact ⟨_, .pcbManager (.createProcess type)⟩
        | fork => exact ⟨_, .pcbManager (.fork type)⟩
        | exec => exact ⟨_, .pcbManager (.exec 0 type)⟩
        | exit => exact ⟨_, .pcbManager (.exit type)⟩
        | waitPid => exact ⟨_, .pcbManager (.waitPid type)⟩
  · rcases type with key | update
    · exact ⟨_, .tty (.getKey intr key)⟩
    · exact ⟨_, .tty (.update intr update)⟩
  · exact ⟨_, .ide⟩

/-! ### The clients -/

/-- `getty` reads a line and writes it, and what comes back is as long as what it wrote. -/
theorem getty_behaves {devId buf : Int} (getty : IsGetty me) (low : 1 ≤ devId) (high : devId < 4) :
    Behaves me none .none (Services.getty me devId buf) := by
  have terminal : ∀ (t : DevType) (w : DevWords), w.devId = devId → Known me tty
      (msg me t.type [w.reqPid, w.devId, w.buf, w.offset, w.len]) := fun t w same =>
    .terminal t (.inr getty) rfl (show 0 ≤ w.devId ∧ w.devId < 4 by omega)
  refine .call tty rfl (terminal .read _ rfl) (not_fork (by decide)) fun r _ => ?_
  split
  · exact behaves_done
  · refine .call tty rfl (terminal .write _ rfl) (not_fork (by decide)) fun s fits => ?_
    have same : r.type = s.type := (fits rfl rfl).symm
    rw [if_pos same]
    exact behaves_done

theorem user_known {t : FileType} (user : IsUser me)
    (other : t ∉ [FileType.exitFile, .copyFdTable, .initFdTable]) (m : Msg)
    (type : m.type = t.type) : Known me file m := .user t user other type

theorem writeToFile_behaves {birth : Birth} {name buf len : Int} {rest : Script}
    (next : Behaves createShell none birth rest) :
    Behaves createShell none birth (writeToFile name buf len rest) :=
  fileCall_behaves (user_known (by decide) (by decide)) fun _ =>
    fileCall_behaves (user_known (by decide) (by decide)) fun _ =>
    fileCall_behaves (user_known (by decide) (by decide)) fun _ => next

/-- A request to the manager that is not a `FORK`. -/
theorem managerCall_behaves {birth : Birth} {t : ManagerType} {i : List Int} {rest : Msg → Script}
    (user : IsUser me) (other : t ≠ .fork) (next : ∀ r, Behaves me none birth (rest r)) :
    Behaves me none birth (managerCall me t i rest) :=
  .call pcbManager rfl (.manage t user rfl) (fun fork => other (ManagerType.type_inj fork.2))
  fun r _ => next r

theorem startShell_behaves (programs : Programs) :
    Behaves createShell none .thread (startShell programs) :=
  writeToFile_behaves (writeToFile_behaves
    (managerCall_behaves (by decide) (by decide) fun _ => .wrap))

/-- **Every system call** keeps to the protocol, whatever the registers hold. -/
theorem doSyscall_behaves (user : IsUser me) (tf eax ebx ecx edx strlen : Int) :
    Behaves me none .none (doSyscall me tf eax ebx ecx edx strlen) := by
  have fm : ∀ {t : FileType}, t ∉ [FileType.exitFile, .copyFdTable, .initFdTable] → ∀ i : List Int,
      Behaves me none .none (fileCall me t i fun _ => .done) := fun other i =>
    fileCall_behaves (user_known user other) fun _ => behaves_done
  unfold doSyscall
  split
  · refine .fork rfl (.manage .fork user rfl) ⟨rfl, rfl⟩ fun r newPcb same => ?_
    rw [same]
    exact .wakeup behaves_done
  · exact managerCall_behaves user (by decide) fun _ => behaves_done
  · exact managerCall_behaves user (by decide) fun _ => behaves_done
  · exact managerCall_behaves user (by decide) fun _ => behaves_done
  · exact fm (by decide) _
  · exact fm (by decide) _
  · exact .call timer rfl (.sleep user rfl) (not_fork (by decide)) fun _ _ => behaves_done
  · exact fm (by decide) _
  · exact fm (by decide) _
  · exact fm (by decide) _
  · exact fm (by decide) _
  · exact fm (by decide) _
  · exact fm (by decide) _
  · exact fm (by decide) _
  · exact fm (by decide) _
  · exact fm (by decide) _
  · exact fm (by decide) _
  · exact fm (by decide) _
  · exact fm (by decide) _
  · exact fm (by decide) _
  · exact behaves_done

theorem fileBoot_behaves (format : List (DevType × DevWords)) :
    Behaves file none .none (fileBoot format) := by
  induction format with
  | nil => exact behaves_done
  | cons request _ ih =>
      exact .call ramdisk rfl (.ram request.1 rfl rfl) (not_fork (by decide)) fun _ _ => ih

end NjuOs.Process.Services
