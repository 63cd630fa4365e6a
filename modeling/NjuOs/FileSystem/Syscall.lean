/-
**The request handlers of the file server.**

`file_thread` takes one request after another; every handler runs to its end before the next message
is received, so a run of the server is a sequence of `step`s. A request carries what the handler
takes from the message and from the caller's memory: the 256 bytes at a path pointer, the bytes to
write. A reply is the message sent back, with the bytes put into the caller's memory.

`initFileFormat` is the formatting of the disk the thread does first, and `boot` the state it
starts to serve in.
-/

import NjuOs.FileSystem.Path

namespace NjuOs.FileSystem

open NjuOs.Lib

/-- The requests to the file manager. -/
inductive Request where
  | open (path : List UInt8) (flag : Int)
  | read (fd : Int) (len : Int)
  | write (fd : Int) (buf : List UInt8)
  | close (fd : Int)
  | create (path : List UInt8)
  | delete (path : List UInt8)
  | lseek (fd : Int) (offset : Int) (whence : Int)
  | dup (fd : Int)
  | dup2 (fd : Int) (newFd : Int)
  | mkdir (path : List UInt8)
  | rmdir (path : List UInt8)
  | lsdir (path : List UInt8)
  | chdir (path : List UInt8)
  | exitFile (pid : Nat)
  | copyFdTable (child parent : Nat)
  | initFdTable (pid : Nat)

/-- What it answers: the result, and the bytes that it has stored for the process. -/
structure Reply where
  dest : Nat
  ret : Int
  data : List UInt8 := []
  deriving DecidableEq, Repr

/-- `fetch_pcb`. -/
def fetchPcb (pid : Nat) : Fm Pcb := do
  if pid < 50 then return (← get).pcbs pid else throw .panic

/-- A change of a process's part of the tables. -/
def modifyPcb (pid : Nat) (f : Pcb → Pcb) : Fm Unit :=
  modify fun s => { s with pcbs := Function.update s.pcbs pid (f (s.pcbs pid)) }

/-- `pcb->fd_table[fd]` for any integer. -/
def fdSlot (pcb : Pcb) (fd : Int) : Fm (Option Nat) :=
  if 0 ≤ fd ∧ fd < 100 then pure (pcb.fdTable fd.toNat) else throw .outOfBounds

/-- `fd_table[fd] = entry`. -/
def setFdSlot (pid : Nat) (fd : Int) (entry : Option Nat) : Fm Unit :=
  modifyPcb pid fun pcb => { pcb with fdTable := Function.update pcb.fdTable fd.toNat entry }

/-- A change of an open file. -/
def modifyFile (e : Nat) (f : OpenFile → OpenFile) : Fm Unit :=
  modify fun s => { s with files := Function.update s.files e (f (s.files e)) }

/-- A change of a vnode. -/
def modifyVnode (v : Nat) (f : Vnode → Vnode) : Fm Unit :=
  modify fun s => { s with vnodes := Function.update s.vnodes v (f (s.vnodes v)) }

/-- `ttynames[dev_id-1]` names one of four terminals. -/
def ttyName (devId : Int) : Fm Unit :=
  if 1 ≤ devId ∧ devId ≤ 4 then pure () else throw .outOfBounds

/-! ### Reading and writing -/

/-- READ. -/
def fmRead (junk : Junk) (src : Nat) (fd len : Int) : Fm Reply := do
  let pcb ← fetchPcb src
  match ← fdSlot pcb fd with
  | none => return { dest := src, ret := -1 }
  | some e =>
    let file := (← get).files e
    let inode := ((← get).vnodes file.vnode).inode
    if inode.devId = 0 then
      let bytes ← readData (toInt file.offset) inode len
      modifyFile e fun file => { file with offset := file.offset + UInt32.ofNat bytes.length }
      return { dest := src, ret := bytes.length, data := bytes }
    else
      ttyName inode.devId
      return { dest := src, ret := junk.tty }

/-- A write below the end of a file cuts it first. -/
def cutFile (v : Nat) (fileOffset : Int) : Fm Unit := do
  let inode := ((← get).vnodes v).inode
  if fileOffset < inode.size then
    releaseBlock inode fileOffset
    modifyVnode v fun vnode => { vnode with inode := { vnode.inode with size := fileOffset } }
  else pure ()

/-- The bytes go to the file, or to the terminal driver. -/
def storeFile (junk : Junk) (src e : Nat) (file : OpenFile) (fileOffset : Int) (buf : List UInt8) :
    Fm Reply := do
  let inode := ((← get).vnodes file.vnode).inode
  if inode.devId = 0 then
    let (writedLen, inode) ← writeData fileOffset inode buf
    modifyVnode file.vnode fun v => { v with inode }
    modifyFile e fun file => { file with offset := UInt32.ofInt inode.size }
    return { dest := src, ret := writedLen }
  else
    ttyName inode.devId
    return { dest := src, ret := junk.tty }

/-- The truncation comes before the test whether the file is a terminal. -/
def fmWrite (junk : Junk) (src : Nat) (fd : Int) (buf : List UInt8) : Fm Reply := do
  let pcb ← fetchPcb src
  match ← fdSlot pcb fd with
  | none => return { dest := src, ret := -1 }
  | some e =>
    let file := (← get).files e
    let fileOffset := toInt file.offset
    cutFile file.vnode fileOffset
    storeFile junk src e file fileOffset buf

/-- Without an open descriptor the handler returns and no reply is sent. -/
def fmLseek (src : Nat) (fd offset whence : Int) : Fm (Option Reply) := do
  let pcb ← fetchPcb src
  match ← fdSlot pcb fd with
  | none => return none
  | some e =>
    let file := (← get).files e
    let size := ((← get).vnodes file.vnode).inode.size
    let place :=
      if whence = 0 then UInt32.ofInt offset
      else if whence = 1 then file.offset + UInt32.ofInt offset
      else UInt32.ofInt (size + offset)
    modifyFile e fun file => { file with offset := place }
    return some { dest := src, ret := 0 }

/-! ### Descriptors -/

/-- The search of `fm_open` and `fm_dup` for a free slot, from `min_fd` round the table. -/
def freeFd (fdTable : Nat → Option Nat) (minFd : Nat) : Fm Nat :=
  match firstIdle (fun i => (fdTable i).isSome) 100 100 minFd with
  | none => throw .hang
  | some fd => pure fd

/-- The vnode OPEN goes on with: the one found, or a fresh one for the file it creates. What
`_create` returns is not looked at. -/
def vnodeFor (junk : Junk) (pcb : Pcb) (path : List UInt8) : Option Nat → Fm Nat
  | some v => pure v
  | none => do
    let v ← getFreeVnode
    let _ ← create junk pcb.currentDir path (some v)
    return v

/-- A fresh entry for the vnode, and a free descriptor for the entry. -/
def attach (src v : Nat) : Fm Reply := do
  let e ← getFreeFileEntry
  modifyFile e fun _ => { vnode := v, offset := 0, count := 1 }
  let pcb := (← get).pcbs src
  let fd ← freeFd pcb.fdTable pcb.minFd
  modifyPcb src fun pcb => { pcb with
    fdTable := Function.update pcb.fdTable fd (some e)
    minFd := (fd + 1) % 100 }
  return { dest := src, ret := fd }

/-- OPEN. -/
def fmOpen (junk : Junk) (src : Nat) (path : List UInt8) (flag : Int) : Fm Reply := do
  let pcb ← fetchPcb src
  let (dir, walked) := walkStart pcb.currentDir path
  let found ← readInode dir walked
  if found = none ∧ flag ≠ 1 then
    return { dest := src, ret := -1 }
  else
    let v ← vnodeFor junk pcb path found
    attach src v

/-- CREATE. -/
def fmCreate (junk : Junk) (src : Nat) (path : List UInt8) : Fm Reply := do
  let pcb ← fetchPcb src
  let _ ← create junk pcb.currentDir path none
  return { dest := src, ret := 0 }

/-- MKDIR. -/
def fmMkdir (junk : Junk) (src : Nat) (path : List UInt8) : Fm Reply := do
  let pcb ← fetchPcb src
  let (dir, walked) := walkStart pcb.currentDir path
  let _ ← createDir junk walked.length dir walked
  return { dest := src, ret := 0 }

/-- CLOSE. -/
def fmClose (src : Nat) (fd : Int) : Fm Reply := do
  let pcb ← fetchPcb src
  match ← fdSlot pcb fd with
  | none => throw .nullPointer
  | some e =>
    releaseFileEntry e
    setFdSlot src fd none
    modifyPcb src fun pcb => { pcb with minFd := if pcb.minFd > fd then fd.toNat else pcb.minFd }
    return { dest := src, ret := 0 }

/-- The new descriptor is `min_fd` as it stands; the search for a free slot comes after it was
used. -/
def fmDup (src : Nat) (fd : Int) : Fm (Option Reply) := do
  let pcb ← fetchPcb src
  match ← fdSlot pcb fd with
  | none => return none
  | some e =>
    let newFd := pcb.minFd
    setFdSlot src newFd (some e)
    modifyFile e fun file => { file with count := file.count + 1 }
    let pcb := (← get).pcbs src
    let minFd ← freeFd pcb.fdTable pcb.minFd
    modifyPcb src fun pcb => { pcb with minFd }
    return some { dest := src, ret := newFd }

/-- When the new descriptor is occupied the source releases the old one and empties its slot. -/
def makeRoom (src : Nat) (pcb : Pcb) (fd newFd : Int) : Fm Unit := do
  match ← fdSlot pcb newFd with
  | none => pure ()
  | some _ =>
    match ← fdSlot pcb fd with
    | none => throw .nullPointer
    | some e =>
      releaseFileEntry e
      setFdSlot src fd none

/-- `fd_table[fd]` is read again after it was copied, for the count. -/
def fmDup2 (src : Nat) (fd newFd : Int) : Fm Reply := do
  let pcb ← fetchPcb src
  makeRoom src pcb fd newFd
  let entry ← fdSlot ((← get).pcbs src) fd
  setFdSlot src newFd entry
  match ← fdSlot ((← get).pcbs src) fd with
  | none => throw .nullPointer
  | some e =>
    modifyFile e fun file => { file with count := file.count + 1 }
    return { dest := src, ret := 0 }

/-! ### Deletion and directories -/

/-- DELETE. -/
def fmDeleteFile (junk : Junk) (src : Nat) (path : List UInt8) : Fm Reply := do
  let pcb ← fetchPcb src
  let (dir, walked) := walkStart pcb.currentDir path
  deleteFile junk true walked.length false dir walked
  return { dest := src, ret := 0 }

/-- RMDIR. -/
def fmRmdir (junk : Junk) (src : Nat) (path : List UInt8) : Fm Reply := do
  let pcb ← fetchPcb src
  let (dir, walked) := walkStart pcb.currentDir path
  deleteFile junk false walked.length false dir walked
  return { dest := src, ret := 0 }

/-- LSDIR. -/
def fmLsdir (src : Nat) (path : List UInt8) : Fm Reply := do
  let pcb ← fetchPcb src
  match ← walkTo pcb.currentDir path with
  | none => return { dest := src, ret := -1 }
  | some dir =>
    let text ← lsdir dir
    return { dest := src, ret := 0, data := text }

/-- CHDIR. -/
def fmChdir (src : Nat) (path : List UInt8) : Fm Reply := do
  let pcb ← fetchPcb src
  if path.head? = some 0 then
    return { dest := src, ret := 0 }
  match ← walkTo pcb.currentDir path with
  | none => return { dest := src, ret := -1 }
  | some dir =>
    let inode ← readInodeFromDisk dir
    if inode.type = plainType then
      return { dest := src, ret := -1 }
    modifyPcb src fun pcb => { pcb with currentDir := dir }
    return { dest := src, ret := 0 }

/-! ### Requests of the process manager -/

/-- The entries are released; the slots keep pointing to them. -/
def exitSlots (pid : Nat) : Nat → Fm Unit
  | 0 => pure ()
  | count + 1 => do
    exitSlots pid count
    match ((← get).pcbs pid).fdTable count with
    | none => pure ()
    | some e => releaseFileEntry e

/-- EXIT_FILE. -/
def fmExitFile (src pid : Nat) : Fm Reply := do
  let _ ← fetchPcb pid
  exitSlots pid 100
  return { dest := src, ret := 0 }

/-- INIT_FD_TABLE: the three standard descriptors. -/
def initFdTable (src pid : Nat) : Fm Reply := do
  let _ ← fetchPcb pid
  let e0 ← getFreeFileEntry
  setFdSlot pid 0 (some e0)
  let e1 ← getFreeFileEntry
  setFdSlot pid 1 (some e1)
  let e2 ← getFreeFileEntry
  setFdSlot pid 2 (some e2)
  let s ← get
  modifyFile e0 fun file => { file with vnode := s.stdinVnode }
  modifyVnode s.stdinVnode fun v => { v with count := v.count + 1 }
  modifyFile e1 fun file => { file with vnode := s.stdoutVnode }
  modifyVnode s.stdoutVnode fun v => { v with count := v.count + 1 }
  modifyFile e2 fun file => { file with vnode := s.stderrVnode }
  modifyVnode s.stderrVnode fun v => { v with count := v.count + 1 }
  return { dest := src, ret := 0 }

/-- The loop of `copy_fd_table`. -/
def copySlots (child parent : Nat) : Nat → Fm Unit
  | 0 => pure ()
  | count + 1 => do
    copySlots child parent count
    match ((← get).pcbs parent).fdTable count with
    | none => pure ()
    | some e =>
      modifyFile e fun file => { file with count := file.count + 1 }
      setFdSlot child count (some e)

/-- COPY_FD_TABLE. -/
def copyFdTable (src child parent : Nat) : Fm Reply := do
  let _ ← fetchPcb child
  let _ ← fetchPcb parent
  copySlots child parent 100
  return { dest := src, ret := 0 }

/-! ### The server -/

/-- One turn of `file_thread`: the reply the handler sends, if it sends one. -/
def handle (junk : Junk) (src : Nat) : Request → Fm (Option Reply)
  | .open path flag => some <$> fmOpen junk src path flag
  | .read fd len => some <$> fmRead junk src fd len
  | .write fd buf => some <$> fmWrite junk src fd buf
  | .close fd => some <$> fmClose src fd
  | .create path => some <$> fmCreate junk src path
  | .delete path => some <$> fmDeleteFile junk src path
  | .lseek fd offset whence => fmLseek src fd offset whence
  | .dup fd => fmDup src fd
  | .dup2 fd newFd => some <$> fmDup2 src fd newFd
  | .mkdir path => some <$> fmMkdir junk src path
  | .rmdir path => some <$> fmRmdir junk src path
  | .lsdir path => some <$> fmLsdir src path
  | .chdir path => some <$> fmChdir src path
  | .exitFile pid => some <$> fmExitFile src pid
  | .copyFdTable child parent => some <$> copyFdTable src child parent
  | .initFdTable pid => some <$> initFdTable src pid

/-- `init_file_format`. Of the root's record only size, type and link are set; the terminals' vnodes
get their device number and nothing else. -/
def initFileFormat (junk : Junk) : Fm Unit := do
  let index ← getFreeDiskInode
  writeInodeToDisk index {
    size := 0, type := dirType, link := 1
    devId := junk.devId index, index := junk.index index }
  addInodeIntoDir junk 0 dot 0
  addInodeIntoDir junk 0 dotDot 0
  let stdin ← getFreeVnode
  let stdout ← getFreeVnode
  let stderr ← getFreeVnode
  modify fun s => { s with stdinVnode := stdin, stdoutVnode := stdout, stderrVnode := stderr }
  modifyVnode stdin fun v => { v with count := 1, inode := { v.inode with devId := 1 } }
  modifyVnode stdout fun v => { v with count := 1, inode := { v.inode with devId := 1 } }
  modifyVnode stderr fun v => { v with count := 1, inode := { v.inode with devId := 1 } }

/-- Memory before the thread starts: static data is zero, `init_vnode_array` and `init_file_table`
have pushed every record onto the front of its free list, and `read_bitmap_from_disk` has read the
zeros of the ramdisk. -/
def zeroState : FmState where
  disk := fun _ => 0
  inodeBitmap := fun _ => false
  inodeBitIndex := 0
  blockBitmap := fun _ => false
  blockBitIndex := 0
  vnodes := fun _ => {
    index := 0, inode := { size := 0, type := 0, devId := 0, link := 0, index := fun _ => 0 }
    count := 0 }
  freeVnodeList := (List.range kernelInodeNum).reverse
  activeVnodeList := []
  files := fun _ => { offset := 0, count := 0, vnode := 0 }
  freeOpenFileList := (List.range kernelFileNum).reverse
  indexBlock1 := fun _ => 0
  indexBlock2 := fun _ => 0
  indexBlock3 := fun _ => 0
  blockBufArray := fun _ => 0
  blockBufFlag := fun _ => false
  stdinVnode := 0
  stdoutVnode := 0
  stderrVnode := 0
  pcbs := fun _ => { fdTable := fun _ => none, minFd := 0, currentDir := 0 }

/-- The state `file_thread` enters its loop in. -/
def Boot (s : FmState) : Prop := ∃ junk, initFileFormat junk zeroState = .ok () s

/-- The loop of `file_thread`, over the requests it receives: each with the process it comes
from. -/
def serve (junk : Junk) : List (Nat × Request) → Fm (List (Option Reply))
  | [] => pure []
  | (src, request) :: rest => do
    let reply ← handle junk src request
    let replies ← serve junk rest
    return reply :: replies

/-- A state the server reaches: any requests from any processes, each served to its end. -/
inductive Reachable : FmState → Prop
  | boot {s : FmState} : Boot s → Reachable s
  | step {s s' : FmState} {junk : Junk} {src : Nat} {request : Request} {reply : Option Reply} :
    Reachable s → handle junk src request s = .ok reply s' → Reachable s'

theorem Reachable.serve {s s' : FmState} {junk : Junk} {requests : List (Nat × Request)}
    {replies : List (Option Reply)} (start : Reachable s)
    (run : serve junk requests s = .ok replies s') : Reachable s' := by
  induction requests generalizing s replies with
  | nil =>
      obtain ⟨_, rfl⟩ := pure_eq_ok.mp run
      exact start
  | cons first rest ih =>
      obtain ⟨reply, s₁, head, run⟩ := bind_eq_ok.mp run
      obtain ⟨replies, s₂, tail, run⟩ := bind_eq_ok.mp run
      obtain ⟨_, rfl⟩ := pure_eq_ok.mp run
      exact ih (start.step head) tail

/-- A whole run from power-on. -/
def serveFromBoot (junk : Junk) (requests : List (Nat × Request)) : Fm (List (Option Reply)) := do
  initFileFormat junk
  serve junk requests

theorem reachable_serveFromBoot {s : FmState} {junk : Junk} {requests : List (Nat × Request)}
    {replies : List (Option Reply)} (run : serveFromBoot junk requests zeroState = .ok replies s) :
    Reachable s := by
  obtain ⟨_, s₀, boot, run⟩ := bind_eq_ok.mp run
  exact (Reachable.boot ⟨junk, boot⟩).serve run

/-- Garbage that is zero everywhere. -/
def zeroJunk : Junk where
  devId := fun _ => 0
  index := fun _ _ => 0
  name := fun _ _ _ => 0
  tty := 0

/-- The server's state after a boot with such garbage. -/
def bootState : FmState := lastState (initFileFormat zeroJunk) zeroState

theorem boot_bootState : Boot bootState :=
  ⟨zeroJunk, run_of_outcome (x := initFileFormat zeroJunk) (s := zeroState) (a := ())
    (by decide +kernel)⟩

/-- A path as it lies in the 256-byte buffer of a request. -/
def pathBuffer (text : List UInt8) : List UInt8 := text ++ List.replicate (256 - text.length) 0

end NjuOs.FileSystem
