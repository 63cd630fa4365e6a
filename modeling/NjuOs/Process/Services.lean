/-
**The servers and their clients.**

The kernel is a set of processes that send each other requests: users ask the file server, the
process manager and the timer, these ask the memory manager, the ramdisk and the terminals. A
request is a `send` and a `receive` from the process that was asked; a server takes its requests
with `receive(ANY)` and answers the sender.

A thread runs a `Script`, what is left of the function it is in: the messages it sends and the parts
of `pcb_manager.c` that change a `PCB`, each a step of its own. What a function does between two
messages is left out; where that decides what it sends next, as in the file server, every choice is
there. The mailboxes are those in memory, `Mailbox`.

Interrupts are off from a `send` to the `receive` behind it, `unlock` does not turn them on again: a
call is one step up to the point where the caller is suspended. Nobody asks the disk driver, so it
has no command pending and is woken by the clock only.

The mailboxes of the terminals and of the disk driver are the only ones that can be full, as nothing
limits the messages of their interrupts. `send` then takes the head of the empty free queue for a
slot and writes over the PCB. Such an interrupt has no step here: the runs are those in which it
does not come.
-/

import NjuOs.Process.Exceptions
import NjuOs.Process.Message

namespace NjuOs.Process.Services

open NjuOs.Process

/-! ### The processes -/

/-- The number of a PCB, which is its `pid`. -/
abbrev Pid := Fin 50

/-- `TIMER`. -/
def timer : Pid := 0

/-- `TTY`. -/
def tty : Pid := 1

/-- `IDE`. -/
def ide : Pid := 5

/-- `RAMDISK`. -/
def ramdisk : Pid := 6

/-- `FILE`. -/
def file : Pid := 7

/-- `MEMORY`. -/
def memory : Pid := 8

/-- `PCB_MANAGER`. -/
def pcbManager : Pid := 9

/-- The thread that asks for the shell at boot. -/
def createShell : Pid := 10

/-- The PCB that the shell gets. -/
def shell : Pid := 11

example : Manager.bootThreads.zipIdx.filter (fun t => t.1 ≠ .getty) =
    [(.timer, 0), (.ttyd, 1), (.ide, 5), (.ram, 6), (.file, 7), (.memory, 8), (.pcbManager, 9),
      (.createShell, 10)] := by
  decide

/-- The threads with a loop around `receive(ANY)`. -/
def IsServer (p : Pid) : Prop := p ∈ [timer, tty, ide, ramdisk, file, memory, pcbManager]

/-- The three threads `getty`. -/
def IsGetty (p : Pid) : Prop := 2 ≤ p ∧ p ≤ 4

/-- The other ones: `create_shell`, and the users. -/
def IsUser (p : Pid) : Prop := createShell ≤ p

instance (p : Pid) : Decidable (IsServer p) := inferInstanceAs (Decidable (p ∈ _))
instance (p : Pid) : Decidable (IsGetty p) := inferInstanceAs (Decidable (_ ∧ _))
instance (p : Pid) : Decidable (IsUser p) := inferInstanceAs (Decidable (_ ≤ _))

/-! ### The requests -/

/-- `NEW_TIMER` -/
def newTimer : Int := -1

/-- The source of an interrupt's message, `MSG_HARD_INTR`. -/
def hardIntr : Int := -2

/-- The requests to a device. -/
inductive DevType where
  | read
  | write
  deriving DecidableEq

/-- Their numbers. -/
def DevType.type : DevType → Int
  | .read => 1
  | .write => 2

/-- The requests to the file manager. -/
inductive FileType where
  | open | read | write | close | create | delete | lseek | dup | dup2 | mkdir | rmdir
      | lsdir | chdir
  | exitFile | copyFdTable | initFdTable
  deriving DecidableEq

/-- Their numbers. -/
def FileType.type : FileType → Int
  | .open => 0
  | .read => 1
  | .write => 2
  | .close => 3
  | .create => 4
  | .delete => 5
  | .lseek => 6
  | .dup => 7
  | .dup2 => 8
  | .mkdir => 9
  | .rmdir => 10
  | .lsdir => 11
  | .chdir => 12
  | .exitFile => 13
  | .copyFdTable => 14
  | .initFdTable => 15

/-- The requests to the memory manager. -/
inductive MemoryType where
  | createSpace | createChildSpace | execMemory | exitMemory | sbrk
  deriving DecidableEq

/-- Their numbers. -/
def MemoryType.type : MemoryType → Int
  | .createSpace => 1
  | .createChildSpace => 2
  | .execMemory => 4
  | .exitMemory => 5
  | .sbrk => 6

/-- The requests to the process manager. -/
inductive ManagerType where
  | createProcess | fork | exec | exit | waitPid
  deriving DecidableEq

/-- Their numbers. -/
def ManagerType.type : ManagerType → Int
  | .createProcess => 1
  | .fork => 2
  | .exec => 3
  | .exit => 4
  | .waitPid => 5

/-- A message with the words `i`; the words that are not given are not read by anybody. -/
def msg (src : Pid) (type : Int) (i : List Int) : Msg := ⟨src.val, 0, type, fun k => i.getD k 0⟩

/-! ### What a thread does -/

/-- What is left of the function a thread is in. -/
inductive Script where
  | done
  /-- An assertion fails. -/
  | panic
  /-- A request: `send`, and `receive` from the same process. -/
  | call (dest : Int) (m : Msg) (rest : Msg → Script)
  /-- The `send` to the process whose request is served. -/
  | answer (dest : Int) (m : Msg) (rest : Script)
  /-- `cook`, when the line is for a process that waits for it. -/
  | serveReader (rest : Script)
  /-- The first free PCB is taken. -/
  | takePcb (rest : Pid → Script)
  /-- The second part of `fork`, which sets up the PCB of the child. -/
  | startChild (newPcb : Pid) (parent : Int) (rest : Script)
  | initPcb (pcb : Pid) (rest : Script)
  /-- `init_msg` in `exec`. -/
  | initMsg (pcb : Int) (rest : Script)
  /-- The end of `exit`: the PCB is free, and a parent that waits gets the message. -/
  | leave (pcb : Int) (m : Msg) (rest : Script)
  /-- The test of `handle_waitpid`. -/
  | recordWait (ppcb cpcb : Int) (recorded other : Script)
  | wakeup (pcb : Int) (rest : Script)
  /-- The end of a kernel thread. -/
  | wrap

/-- The answer to the request `m`. -/
def reply (me : Pid) (m : Msg) (ret : Int) : Script :=
  .answer m.src { m with dest := m.src, src := me.val, type := ret } .done

/-- The words of a request to a device. -/
structure DevWords where
  devId : Int
  reqPid : Int
  buf : Int
  offset : Int
  len : Int

/-- `dev_rw` -/
def devRw (me dev : Pid) (type : DevType) (w : DevWords) (rest : Msg → Script) : Script :=
  .call dev.val (msg me type.type [w.reqPid, w.devId, w.buf, w.offset, w.len]) rest

/-! ### The servers -/

/-- `timer_driver_thread`: who asks for no time is answered, everybody else waits for the
interrupt. -/
def timerThread (m : Msg) : Script :=
  if m.type = newTimer then
    if m.i 0 ≤ 0 then reply timer m m.type else .done
  else .panic

/-- `ttyd`. A key can end a line, and a line can be asked for; both depend on the console. -/
inductive Ttyd (m : Msg) : Script → Prop where
  | getKey : m.src = hardIntr → m.type = 1 → Ttyd m .done
  | enter : m.src = hardIntr → m.type = 1 → Ttyd m (.serveReader .done)
  | update : m.src = hardIntr → m.type = 2 → Ttyd m .done
  | leak : m.src = hardIntr → m.type ≠ 1 → m.type ≠ 2 → Ttyd m .panic
  | readRequest : m.src ≠ hardIntr → m.type = DevType.read.type → Ttyd m .done
  | getCooked (nread : Int) : m.src ≠ hardIntr → m.type = DevType.read.type →
      Ttyd m (reply tty m nread)
  | write : m.src ≠ hardIntr → m.type = DevType.write.type →
      Ttyd m (if 0 ≤ m.i 1 ∧ m.i 1 < 4 then reply tty m (m.i 4) else .panic)
  | unknown : m.src ≠ hardIntr → m.type ≠ DevType.read.type →
      m.type ≠ DevType.write.type → Ttyd m .panic

/-- `ram_driver_thread` -/
def ramDriverThread (m : Msg) : Script :=
  if m.type = DevType.read.type ∨ m.type = DevType.write.type then
    reply ramdisk m (m.i 4) else .panic

/-- `ide_driver_thread`, which has nothing to write back; `IDE_READY` is leaking there. -/
def ideDriverThread (m : Msg) : Script :=
  if m.src = hardIntr ∧ m.type = 2 then .done else .panic

/-- A handler of the file server: it reads and writes the ramdisk or a terminal, and answers. Only
`fm_lseek` and `fm_dup` can return without an answer. -/
inductive FileWork (m : Msg) (type : FileType) : Script → Prop where
  | reply (ret : Int) : FileWork m type (reply file m ret)
  | ram (t : DevType) (w : DevWords) (rest : Msg → Script) :
      (∀ r, FileWork m type (rest r)) → FileWork m type (devRw file ramdisk t w rest)
  | terminal (t : DevType) (w : DevWords) (rest : Msg → Script) : 0 ≤ w.devId → w.devId < 4 →
      (∀ r, FileWork m type (rest r)) → FileWork m type (devRw file tty t w rest)
  | silent : type = .lseek ∨ type = .dup → FileWork m type .done

/-- `file_thread` -/
inductive FileThread (m : Msg) : Script → Prop where
  | serve (type : FileType) (script : Script) : m.type = type.type → FileWork m type script →
      FileThread m script
  | unknown : (∀ type : FileType, m.type ≠ type.type) → FileThread m .panic

/-- A request to the file server. -/
def fileCall (me : Pid) (type : FileType) (i : List Int) (rest : Msg → Script) : Script :=
  .call file.val (msg me type.type i) rest

/-- The arguments of a `read_elf`. -/
structure ElfRead where
  reqPid : Int
  buf : Int
  offset : Int
  size : Int

/-- `read_elf`: a seek and a read. -/
def readElf (elfFd : Int) (r : ElfRead) (rest : Script) : Script :=
  fileCall memory .lseek [elfFd, r.offset, 0] fun _ =>
    fileCall memory .read [r.reqPid, elfFd, r.buf, r.size] fun _ => rest

/-- `load_program`: the header and the segments. -/
def loadProgram (elfFd : Int) (reads : List ElfRead) (rest : Script) : Script :=
  reads.foldr (readElf elfFd) rest

/-- `close_elf_file`. -/
def closeElfFile (fd : Int) (rest : Script) : Script := fileCall memory .close [fd] fun _ => rest

/-- CREATE_SPACE. -/
def handlePcb (m : Msg) (reads : List ElfRead) : Script :=
  fileCall memory .open [m.i 1, 0] fun r =>
    loadProgram r.type reads (closeElfFile r.type (reply memory m m.type))

/-- EXEC_MEMORY. -/
def handleExec (m : Msg) (reads : List ElfRead) : Script :=
  fileCall memory .open [m.i 1, 0] fun r =>
    if r.type = -1 then reply memory m (-1)
    else loadProgram r.type reads (closeElfFile r.type (reply memory m 0))

/-- `memory_thread` -/
inductive MemoryThread (m : Msg) : Script → Prop where
  | createSpace (reads : List ElfRead) : m.type = MemoryType.createSpace.type →
      MemoryThread m (handlePcb m reads)
  | createChildSpace : m.type = MemoryType.createChildSpace.type →
      MemoryThread m (reply memory m m.type)
  | execMemory (reads : List ElfRead) : m.type = MemoryType.execMemory.type →
      MemoryThread m (handleExec m reads)
  | exitMemory : m.type = MemoryType.exitMemory.type → MemoryThread m (reply memory m m.type)
  | sbrk (newHeapTop : Int) : m.type = MemoryType.sbrk.type →
      MemoryThread m (reply memory m newHeapTop)
  | unknown : (∀ type : MemoryType, m.type ≠ type.type) → MemoryThread m .panic

/-! ### The process manager -/

/-- A request of the process manager to the memory manager. -/
def memoryCall (type : MemoryType) (i : List Int) (rest : Msg → Script) : Script :=
  .call memory.val (msg pcbManager type.type i) rest

/-- `create_process`. -/
def createProcess (m : Msg) : Script :=
  .takePcb fun newPcb =>
    memoryCall .createSpace [newPcb.val, m.i 2] fun _ =>
      fileCall pcbManager .initFdTable [newPcb.val] fun _ =>
        .initPcb newPcb (.wakeup newPcb.val (reply pcbManager m newPcb.val))

/-- `fork`. -/
def fork (m : Msg) : Script :=
  .takePcb fun newPcb =>
    memoryCall .createChildSpace [m.src, newPcb.val] fun _ =>
      .startChild newPcb m.src
        (fileCall pcbManager .copyFdTable [newPcb.val, m.src] fun _ =>
          reply pcbManager m newPcb.val)

/-- `exec`. -/
def exec (m : Msg) (fileName : Int) : Script :=
  memoryCall .execMemory [m.src, fileName] fun r =>
    if r.type = -1 then reply pcbManager m (-1) else .initMsg m.src (.wakeup m.src .done)

/-- `exit`. -/
def exit (m : Msg) : Script :=
  memoryCall .exitMemory [m.src] fun _ =>
    fileCall pcbManager .exitFile [m.src] fun _ =>
      .leave m.src { m with src := pcbManager.val, type := m.i 0 } .done

/-- `handle_waitpid`. -/
def handleWaitpid (m : Msg) : Script := .recordWait m.src (m.i 0) .done (reply pcbManager m (-1))

/-- `pcb_manager_thread`; `file_name` is a buffer of `exec`. -/
inductive PcbManagerThread (m : Msg) : Script → Prop where
  | createProcess : m.type = ManagerType.createProcess.type → PcbManagerThread m (createProcess m)
  | fork : m.type = ManagerType.fork.type → PcbManagerThread m (fork m)
  | exec (fileName : Int) : m.type = ManagerType.exec.type → PcbManagerThread m (exec m fileName)
  | exit : m.type = ManagerType.exit.type → PcbManagerThread m (exit m)
  | waitPid : m.type = ManagerType.waitPid.type → PcbManagerThread m (handleWaitpid m)
  | unknown : (∀ type : ManagerType, m.type ≠ type.type) → PcbManagerThread m .panic

/-- What a server can do about a message. -/
inductive Serves (m : Msg) : Pid → Script → Prop where
  | timer : Serves m timer (timerThread m)
  | tty {script : Script} : Ttyd m script → Serves m tty script
  | ide : Serves m ide (ideDriverThread m)
  | ramdisk : Serves m ramdisk (ramDriverThread m)
  | file {script : Script} : FileThread m script → Serves m file script
  | memory {script : Script} : MemoryThread m script → Serves m memory script
  | pcbManager {script : Script} : PcbManagerThread m script → Serves m pcbManager script

/-- The device of a request to a terminal is one of the four. -/
def Terminal (m : Msg) : Prop := 0 ≤ m.i 1 ∧ m.i 1 < 4

/-- What an answer says: a terminal writes what it is given. -/
def Fits (s : Pid) (m r : Msg) : Prop := s = tty → m.type = DevType.write.type → r.type = m.i 4

/-! ### The clients -/

/-- One round of `getty` at the terminal `devId`. -/
def getty (me : Pid) (devId buf : Int) : Script :=
  devRw me tty .read ⟨devId, me.val, buf, 0, 256⟩ fun r =>
    if r.type = 0 then .done
    else devRw me tty .write ⟨devId, me.val, buf, 0, r.type⟩ fun s => if r.type = s.type then
      .done else .panic

/-- `write_shell_program_to_file` and its sibling: a file is made of what lies at `buf`. -/
def writeToFile (name buf len : Int) (rest : Script) : Script :=
  fileCall createShell .open [name, 1] fun r =>
    fileCall createShell .write [createShell.val, r.type, buf, len] fun _ =>
      fileCall createShell .close [r.type] fun _ => rest

/-- What lies in the kernel for `create_shell`: the names of the two programs, their addresses and
their lengths. -/
structure Programs where
  shellName : Int
  shell : Int
  shellLen : Int
  firstName : Int
  first : Int
  firstLen : Int

/-- A request to the process manager. -/
def managerCall (me : Pid) (type : ManagerType) (i : List Int) (rest : Msg → Script) : Script :=
  .call pcbManager.val (msg me type.type i) rest

/-- `create_shell`; the name of the shell is in `buf`, the third word. -/
def startShell (programs : Programs) : Script :=
  writeToFile programs.shellName programs.shell programs.shellLen
    (writeToFile programs.firstName programs.first programs.firstLen
      (managerCall createShell .createProcess [0, 0, programs.shellName] fun _ => .wrap))

/-- `do_syscall`, by the registers of the caller and the address of its trap frame. -/
def doSyscall (me : Pid) (tf eax ebx ecx edx : Int) (strlen : Int) : Script :=
  let fm (type : FileType) (i : List Int) : Script := fileCall me type i fun _ => .done
  match eax with
  | 1 => managerCall me .fork [0, 0, tf] fun r => .wakeup r.type .done
  | 2 => managerCall me .exec [ebx, ecx] fun _ => .done
  | 3 => managerCall me .exit [ebx] fun _ => .done
  | 5 => managerCall me .waitPid [ebx] fun _ => .done
  | 6 => fm .write [me.val, 1, ebx, strlen]
  | 9 => fm .read [me.val, 0, ebx, 256]
  | 10 => .call timer.val (msg me newTimer [ebx]) fun _ => .done
  | 11 => fm .open [ebx, ecx, edx]
  | 12 => fm .read [me.val, ebx, ecx, edx]
  | 13 => fm .write [me.val, ebx, ecx, edx]
  | 14 => fm .create [ebx, ecx]
  | 15 => fm .close [ebx]
  | 16 => fm .delete [ebx]
  | 17 => fm .lseek [ebx, ecx, edx]
  | 18 => fm .dup [ebx]
  | 19 => fm .dup2 [ebx, ecx]
  | 20 => fm .mkdir [ebx]
  | 21 => fm .rmdir [ebx]
  | 22 => fm .lsdir [ebx, ecx]
  | 23 => fm .chdir [ebx]
  -- `SYS_getpid` and `SYS_puts1` send nothing, and neither does an unknown number
  | _ => .done

/-! ### The system -/

/-- Where a thread is. `hand` is the request it serves, and a thread that waits has sent `request`;
these two are not in memory. -/
inductive Thread where
  /-- Its PCB is free, or taken and not yet set up. -/
  | absent
  /-- It is on the wait list and has not run yet; `waker` is who has it to wake up. -/
  | created (waker : Int)
  | awake (hand : Option Msg) (script : Script)
  /-- Inside `receive(ANY)`. -/
  | listening
  /-- Inside the `receive` of a call. -/
  | waiting (hand : Option Msg) (server : Pid) (request : Msg) (rest : Msg → Script)

/-- The state; `kept` are the requests a server has returned from without an answer. -/
structure World where
  box : Pid → Mailbox
  thread : Pid → Thread
  kept : Pid → List Msg
  free : List Pid
  isUsed : Pid → Bool
  ppid : Pid → Int
  parentWait : Pid → Bool

namespace World

variable (w : World) (p : Pid)

/-- Another mailbox. -/
def setBox (b : Mailbox) : World := { w with box := Function.update w.box p b }

/-- A thread somewhere else. -/
def setThread (t : Thread) : World := { w with thread := Function.update w.thread p t }

/-- Other messages that a driver keeps. -/
def setKept (kept : List Msg) : World := { w with kept := Function.update w.kept p kept }

/-- A request that is not answered yet is put aside. -/
def keep (hand : Option Msg) : World := w.setKept p (w.kept p ++ hand.toList)

/-- What `init_pcb` and `fork` set in a PCB. -/
def start (waker : Int) : World :=
  { w with
    box := Function.update w.box p (initMsg (w.box p))
    thread := Function.update w.thread p (.created waker)
    isUsed := Function.update w.isUsed p true
    parentWait := Function.update w.parentWait p false }

/-- Another parent. -/
def setPpid (ppid : Int) : World := { w with ppid := Function.update w.ppid p ppid }

/-- A PCB goes to the end of the free list. -/
def retire : World :=
  { w with
    thread := Function.update w.thread p .absent
    isUsed := Function.update w.isUsed p false
    free := w.free ++ [p] }

end World

/-- What a thread becomes that has called `receive` from `server`. -/
def Thread.heard (hand : Option Msg) (server : Pid) (request : Msg) (rest : Msg → Script) :
    Option Msg → Thread
  | some r => .awake hand (rest r)
  | none => .waiting hand server request rest

/-- `receive`, or its continuation where the process is inside it. -/
def hear (src : Int) (b : Mailbox) : Outcome :=
  if b.phase = .running then receive src b else resume b

/-- It is on the wait list. -/
def asleep (t : Thread) (b : Mailbox) : Bool :=
  match t, b.phase with
  | .created _, _ => true
  | _, .asleep _ => true
  | _, _ => false

/-- **A step of a thread.** -/
inductive Step (p : Pid) (w : World) : World → Prop where
  /-- The loop of a server comes to `receive(ANY)`, which finds no message. -/
  | listen {hand : Option Msg} {b : Mailbox} : IsServer p → w.thread p = .awake hand .done →
      hear (-1) (w.box p) = some (none, b) →
        Step p w (((w.setBox p b).keep p hand).setThread p .listening)
  /-- A server takes a message. -/
  | accept {hand : Option Msg} {b : Mailbox} {m : Msg} {script : Script} :
      (w.thread p = .awake hand .done ∨ w.thread p = .listening ∧ hand = none) →
      hear (-1) (w.box p) = some (some m, b) → Serves m p script →
      Step p w (((w.setBox p b).keep p hand).setThread p
        (.awake (if m.src = hardIntr then none else some m) script))
  | getty {devId buf : Int} : IsGetty p → w.thread p = .awake none .done → 1 ≤ devId → devId < 4 →
      Step p w (w.setThread p (.awake none (getty p devId buf)))
  | syscall {tf eax ebx ecx edx strlen : Int} : IsUser p → w.thread p = .awake none .done →
      Step p w (w.setThread p (.awake none (doSyscall p tf eax ebx ecx edx strlen)))
  | call {hand : Option Msg} {dest : Int} {m : Msg} {rest : Msg → Script} {d : Pid} {b b' : Mailbox}
      {out : Option Msg} :
      w.thread p = .awake hand (.call dest m rest) → (d.val : Int) = dest →
        send m (w.box d) = some b →
      receive dest ((w.setBox d b).box p) = some (out, b') →
      Step p w (((w.setBox d b).setBox p b').setThread p (.heard hand d { m with dest } rest out))
  | resume {hand : Option Msg} {d : Pid} {request : Msg} {rest : Msg → Script} {out : Option Msg}
      {b : Mailbox} :
      w.thread p = .waiting hand d request rest → resume (w.box p) = some (out, b) →
      Step p w ((w.setBox p b).setThread p (.heard hand d request rest out))
  | answer {hand : Option Msg} {dest : Int} {m : Msg} {rest : Script} {d : Pid} {b : Mailbox} :
      w.thread p = .awake hand (.answer dest m rest) → (d.val : Int) = dest →
        send m (w.box d) = some b →
      Step p w ((w.setBox d b).setThread p (.awake none rest))
  | serveReader {hand : Option Msg} {rest : Script} {m : Msg} {before after : List Msg}
      {nread : Int} {d : Pid}
      {b : Mailbox} :
      w.thread p = .awake hand (.serveReader rest) → w.kept p = before ++ m :: after →
        (d.val : Int) = m.src →
      send { m with src := p.val, type := nread } (w.box d) = some b →
      Step p w (((w.setBox d b).setKept p (before ++ after)).setThread p (.awake hand rest))
  /-- Nobody waits for the line. -/
  | noReader {hand : Option Msg} {rest : Script} : w.thread p = .awake hand (.serveReader rest) →
      Step p w (w.setThread p (.awake hand rest))
  | takePcb {hand : Option Msg} {rest : Pid → Script} {newPcb : Pid} {free : List Pid} :
      w.thread p = .awake hand (.takePcb rest) → w.free = newPcb :: free →
      Step p w ({ w with free }.setThread p (.awake hand (rest newPcb)))
  | startChild {hand : Option Msg} {newPcb : Pid} {parent : Int} {rest : Script} :
      w.thread p = .awake hand (.startChild newPcb parent rest) →
      Step p w (((w.start newPcb parent).setPpid newPcb parent).setThread p (.awake hand rest))
  | initPcb {hand : Option Msg} {pcb : Pid} {rest : Script} :
      w.thread p = .awake hand (.initPcb pcb rest) →
      Step p w ((w.start pcb p.val).setThread p (.awake hand rest))
  | initMsg {hand : Option Msg} {pcb : Int} {rest : Script} {d : Pid} :
      w.thread p = .awake hand (.initMsg pcb rest) → (d.val : Int) = pcb →
      Step p w (((w.setBox d (initMsg (w.box d))).setThread d
        (if asleep (w.thread d) (w.box d) then .created p.val else .awake none .done)).setThread p
        (.awake none rest))
  | leave {hand : Option Msg} {pcb : Int} {m : Msg} {rest : Script} {d : Pid} :
      w.thread p = .awake hand (.leave pcb m rest) → (d.val : Int) = pcb → w.parentWait d = false →
      Step p w ((w.retire d).setThread p (.awake none rest))
  | leaveParent {hand : Option Msg} {pcb : Int} {m : Msg} {rest : Script} {d parent : Pid}
      {b : Mailbox} {c : Msg}
      {before after : List Msg} :
      w.thread p = .awake hand (.leave pcb m rest) → (d.val : Int) = pcb → w.parentWait d = true →
      (parent.val : Int) = w.ppid d → send m (w.box parent) = some b →
      w.kept p = before ++ c :: after → c.src = w.ppid d →
      Step p w ((((w.retire d).setBox parent b).setKept p (before ++ after)).setThread p
        (.awake none rest))
  | recordWait {hand : Option Msg} {ppcb cpcb : Int} {recorded other : Script} {d : Pid} :
      w.thread p = .awake hand (.recordWait ppcb cpcb recorded other) → (d.val : Int) = cpcb →
      w.ppid d = ppcb → w.isUsed d = true →
      Step p w (({ w with parentWait := Function.update w.parentWait d true }.keep p hand).setThread
        p
        (.awake none recorded))
  | noChild {hand : Option Msg} {ppcb cpcb : Int} {recorded other : Script} {d : Pid} :
      w.thread p = .awake hand (.recordWait ppcb cpcb recorded other) → (d.val : Int) = cpcb →
      ¬ (w.ppid d = ppcb ∧ w.isUsed d = true) → Step p w (w.setThread p (.awake hand other))
  /-- Outside of the pool there can be anything. -/
  | outside {hand : Option Msg} {ppcb cpcb : Int} {recorded other : Script} :
      w.thread p = .awake hand (.recordWait ppcb cpcb recorded other) → ¬ (0 ≤ cpcb ∧ cpcb < 50) →
      Step p w (w.setThread p (.awake hand other))
  | outsideWait {hand : Option Msg} {ppcb cpcb : Int} {recorded other : Script} :
      w.thread p = .awake hand (.recordWait ppcb cpcb recorded other) → ¬ (0 ≤ cpcb ∧ cpcb < 50) →
      Step p w ((w.keep p hand).setThread p (.awake none recorded))
  | wakeup {hand : Option Msg} {pcb : Int} {rest : Script} {d : Pid} {waker : Int} :
      w.thread p = .awake hand (.wakeup pcb rest) → (d.val : Int) = pcb →
        w.thread d = .created waker →
      Step p w ((w.setThread d (.awake none .done)).setThread p (.awake hand rest))
  /-- A process that is in a `receive` is woken up as if its message were there. -/
  | spurious {hand : Option Msg} {pcb : Int} {rest : Script} {d : Pid} :
      w.thread p = .awake hand (.wakeup pcb rest) → (d.val : Int) = pcb →
        (∀ waker, w.thread d ≠ .created waker) →
      Step p w ((w.setBox d (w.box d).wakeup).setThread p (.awake hand rest))
  | wrap {hand : Option Msg} : w.thread p = .awake hand .wrap → Step p w (w.retire p)

/-- **An interrupt.** -/
inductive Interrupt (w : World) : World → Prop where
  /-- The time of a process that sleeps is over. -/
  | tick {m r : Msg} {before after : List Msg} {d : Pid} {b : Mailbox} :
      w.kept timer = before ++ m :: after → (d.val : Int) = m.src → r.src = timer.val →
        send r (w.box d) = some b →
      Interrupt w ((w.setBox d b).setKept timer (before ++ after))
  | keyboard {m : Msg} {b : Mailbox} : m.src = hardIntr → m.type = 1 → send m (w.box tty) = some b →
      Interrupt w (w.setBox tty b)
  | update {m : Msg} {b : Mailbox} : m.src = hardIntr → m.type = 2 → send m (w.box tty) = some b →
      Interrupt w (w.setBox tty b)
  | writeback {m : Msg} {b : Mailbox} : m.src = hardIntr → m.type = 2 →
      send m (w.box ide) = some b →
      Interrupt w (w.setBox ide b)

/-- A step of the system. -/
def Next (w w' : World) : Prop := (∃ p, Step p w w') ∨ Interrupt w w'

/-- What `file_thread` does before its loop: the bitmaps are read and the root directory is
written. -/
def fileBoot (format : List (DevType × DevWords)) : Script :=
  format.foldr (fun request rest => devRw file ramdisk request.1 request.2 fun _ => rest) .done

/-- The system after `init_proc`; `box` is what lies in memory before. -/
def boot (format : List (DevType × DevWords)) (programs : Programs) (box : Pid → Mailbox) :
    World where
  box p := if p ≤ createShell then initMsg { box p with pid := p.val }
    else { box p with pid := p.val }
  thread p :=
    if p = file then .awake none (fileBoot format)
    else if p = createShell then .awake none (startShell programs)
    else if p < createShell then .awake none .done
    else .absent
  kept _ := []
  free := (List.finRange 50).filter fun p => createShell < p
  isUsed p := p ≤ createShell
  ppid _ := 0
  parentWait _ := false

/-- The states the system can come to. -/
def Reachable (w : World) : Prop :=
  ∃ format programs box, Relation.ReflTransGen Next (boot format programs box) w

/-- A `WAIT_PID` whose child, where there is one in the pool, lives and is to be answered to the
sender. -/
def Waited (w : World) (s : Pid) (c : Msg) : Prop :=
  s = pcbManager ∧ c.type = ManagerType.waitPid.type ∧
    ∀ k : Pid, c.i 0 = k.val → w.isUsed k = true ∧ w.ppid k = c.src ∧ w.parentWait k = true

end NjuOs.Process.Services
