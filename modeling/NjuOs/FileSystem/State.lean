/-
**The file server's data: disk layout, records, tables.**

`fm.h`, the layout macros of `fm_backstage.c` and the globals of `fm_backstage.c` and
`fm_syscall.c`. The ramdisk is a byte store of `4 MB`; inode records and index blocks live on it as
little-endian words, exactly as the C structures lie in memory. The in-memory tables (`vnode_array`,
`open_file_table`, the scratch index blocks, the pool of block buffers and the part of every `PCB`
the file server reads) are fields of `FmState`.

Values of type `int` are `Int`; where one is stored in a record it is cut to 32 bits. `uint32_t` is
`UInt32`. Local variables of the source that are read before they are written (the unset
fields of an `iNode_entry`, the bytes of a file name after its NUL) take their value from `Junk`,
which every request carries and every theorem quantifies over.
-/

import Mathlib.Data.Fintype.Basic
import NjuOs.Lib.Bytes
import NjuOs.Lib.Cyclic
import NjuOs.Lib.Prog

namespace NjuOs.FileSystem

open NjuOs.Lib

/-! ### Sizes and the disk layout -/

/-- `INODE_NUM`. -/
def inodeNum : Nat := 1024

/-- `BLOCK_NUM`. -/
def blockNum : Nat := 4096

/-- `BLOCK_SIZE`. -/
def blockSize : Nat := 256

/-- `KERNEL_INODE_NUM`: the vnodes. -/
def kernelInodeNum : Nat := 128

/-- `KERNEL_FILE_NUM`: the entries for open files. -/
def kernelFileNum : Nat := 128

/-- The size of the ramdisk. -/
def ramdiskSize : Nat := 4 * 1024 * 1024

/-- `sizeof(iNode_entry)`: four words and fifteen index slots. -/
def inodeSize : Nat := 76
/-- `sizeof(dir_entry)`: a 32-byte name and the inode number. -/
def dirEntrySize : Nat := 36

/-- Where the inodes begin, behind the two bitmaps. -/
def inodeBase : Nat := inodeNum + blockNum

/-- Where the blocks begin. -/
def blockBase : Nat := inodeBase + inodeNum * inodeSize

/-- `level_end0`: the bytes that the direct blocks have. -/
def levelEnd0 : Int := 3072

/-- `level_end1`. -/
def levelEnd1 : Int := 19456

/-- `level_end2`. -/
def levelEnd2 : Int := 1068032

/-- `level_end3`. -/
def levelEnd3 : Int := 68176896

/-- The bytes behind one index block of blocks. -/
def indexOneSize : Int := 16384

/-- The bytes behind one index block of such index blocks. -/
def indexTwoSize : Int := 1048576

/-- `PLAIN`, a value of `iNode_entry.type`. -/
def plainType : Int := 0

/-- `DIR`, the other one. -/
def dirType : Int := 1

/-! ### Records -/

/-- A stored word as the `int` it is read as. -/
def toInt (w : UInt32) : Int := if w.toNat < 2147483648 then w.toNat else w.toNat - 4294967296

instance indexSlots : NeZero 15 := ⟨by decide⟩

/-- `INode`: what the disk has of a file. -/
structure INode where
  size : Int
  type : Int
  devId : Int
  link : Int
  index : Fin 15 → UInt32
  deriving DecidableEq

/-- The words of an inode record, in the order of the structure's fields. -/
def INode.words (inode : INode) : Nat → UInt32
  | 0 => UInt32.ofInt inode.size
  | 1 => UInt32.ofInt inode.type
  | 2 => UInt32.ofInt inode.devId
  | 3 => UInt32.ofInt inode.link
  | i + 4 => inode.index (Fin.ofNat 15 i)

/-- An inode as its words on the disk have it. -/
def INode.ofWords (t : Nat → UInt32) : INode where
  size := toInt (t 0)
  type := toInt (t 1)
  devId := toInt (t 2)
  link := toInt (t 3)
  index i := t (i + 4)

/-- An entry of the table of inodes in memory, with the number of its references. -/
structure Vnode where
  index : Int
  inode : INode
  count : Int
  deriving DecidableEq

/-- `Open_file_entry`; `flag` is never read. The vnode is its position in `vnode_array`. -/
structure OpenFile where
  offset : UInt32
  count : Int
  vnode : Nat
  deriving DecidableEq

/-- The part of a `PCB` the file server uses. Of `current_dir` only the inode number is ever read:
its name is only copied along. -/
structure Pcb where
  fdTable : Nat → Option Nat
  minFd : Nat
  currentDir : Int

/-- The state of the file manager, the ramdisk in it. -/
structure FmState where
  disk : Store
  inodeBitmap : Nat → Bool
  inodeBitIndex : Nat
  blockBitmap : Nat → Bool
  blockBitIndex : Nat
  vnodes : Nat → Vnode
  freeVnodeList : List Nat
  activeVnodeList : List Nat
  files : Nat → OpenFile
  freeOpenFileList : List Nat
  indexBlock1 : Nat → UInt32
  indexBlock2 : Nat → UInt32
  indexBlock3 : Nat → UInt32
  blockBufArray : Store
  blockBufFlag : Nat → Bool
  stdinVnode : Nat
  stdoutVnode : Nat
  stderrVnode : Nat
  pcbs : Nat → Pcb

/-- How a run of the server can end other than by going on: a failed `assert`, a search that never
ends, an access outside an array, through a null pointer, or past the end of a local
variable. -/
inductive Fault where
  | panic
  | hang
  | outOfBounds
  | nullPointer
  | stackSmash
  deriving DecidableEq, Repr

/-- What the source reads without having written it, for one request: the device number and index
slots of an inode record built on the stack (by the inode number it is built for), the bytes a
directory entry's name field held before the name was copied in (by directory and name), and the
answer of the terminal driver. -/
structure Junk where
  devId : Int → Int
  index : Int → Fin 15 → UInt32
  name : Int → List UInt8 → Nat → UInt8
  tty : Int

/-- A computation of the file manager: it may end at a fault. -/
abbrev Fm := EStateM Fault FmState

/-! ### The ramdisk driver -/

/-- `read_ram`: the asserts of the driver, then the bytes. -/
def devRead (offset : UInt32) (len : Int) : Fm (List UInt8) := do
  if offset.toNat + len < ramdiskSize then
    return (← get).disk.read offset.toNat len.toNat
  else
    throw .panic

/-- `write_ram`. -/
def devWrite (offset : UInt32) (bytes : List UInt8) : Fm Unit := do
  if offset.toNat + bytes.length < ramdiskSize then
    modify fun s => { s with disk := s.disk.write offset.toNat bytes }
  else
    throw .panic

/-- `read_ram` of a whole index block into a scratch buffer of 64 words. -/
def devReadBlock (offset : UInt32) : Fm (Nat → UInt32) := do
  if offset.toNat + blockSize < ramdiskSize then
    let disk := (← get).disk
    return fun i => disk.word (offset.toNat + 4 * i)
  else
    throw .panic

/-- `write_ram` of a whole index block. -/
def devWriteBlock (offset : UInt32) (words : Nat → UInt32) : Fm Unit := do
  if offset.toNat + blockSize < ramdiskSize then
    modify fun s => { s with disk := s.disk.writeWords offset.toNat 64 words }
  else
    throw .panic

/-! ### Inode records -/

/-- The address arithmetic of `read_inode_from_disk` is done in `uint32_t`. -/
def inodeAddr (index : Int) : UInt32 := UInt32.ofInt (inodeBase + index * inodeSize)

/-- The inode record a disk holds for an inode number. -/
def diskInode (disk : Store) (index : Int) : INode :=
  INode.ofWords fun i => disk.word ((inodeAddr index).toNat + 4 * i)

/-- `read_inode_from_disk`. -/
def readInodeFromDisk (index : Int) : Fm INode := do
  if (inodeAddr index).toNat + inodeSize < ramdiskSize then
    return diskInode (← get).disk index
  else
    throw .panic

/-- `write_inode_to_disk`. -/
def writeInodeToDisk (index : Int) (inode : INode) : Fm Unit := do
  if (inodeAddr index).toNat + inodeSize < ramdiskSize then
    modify fun s => { s with disk := s.disk.writeWords (inodeAddr index).toNat 19 inode.words }
  else
    throw .panic

/-! ### The allocators -/

/-- `get_free_block`: the first idle block from the cursor on; with none the search has no end. -/
def getFreeBlock : Fm UInt32 := do
  let s ← get
  match firstIdle s.blockBitmap blockNum blockNum s.blockBitIndex with
  | none => throw .hang
  | some b =>
    set { s with blockBitmap := Function.update s.blockBitmap b true, blockBitIndex := b }
    return UInt32.ofNat (blockBase + b * blockSize)

/-- `set_block_idle`. -/
def setBlockIdle (addr : UInt32) : Fm Unit := do
  let index := (addr - UInt32.ofNat blockBase).toNat / blockSize
  if index < blockNum then
    modify fun s => { s with blockBitmap := Function.update s.blockBitmap index false }
  else
    throw .outOfBounds

/-- `get_free_disk_inode`. -/
def getFreeDiskInode : Fm Int := do
  let s ← get
  match firstIdle s.inodeBitmap inodeNum inodeNum s.inodeBitIndex with
  | none => throw .hang
  | some n =>
    set { s with inodeBitmap := Function.update s.inodeBitmap n true, inodeBitIndex := n }
    return n

/-- `release_disk_inode`. -/
def releaseDiskInode (index : Int) : Fm Unit := do
  if 0 ≤ index ∧ index < inodeNum then
    modify fun s => { s with inodeBitmap := Function.update s.inodeBitmap index.toNat false }
  else
    throw .outOfBounds

/-! ### Vnodes and open-file entries -/

/-- `get_free_vnode`. -/
def getFreeVnode : Fm Nat := do
  let s ← get
  match s.freeVnodeList with
  | [] => throw .panic
  | v :: rest =>
    set { s with
      freeVnodeList := rest
      activeVnodeList := s.activeVnodeList ++ [v]
      vnodes := Function.update s.vnodes v { s.vnodes v with count := 1 } }
    return v

/-- `release_kernel_vnode`: with the last reference the inode goes to the disk. -/
def releaseKernelVnode (v : Nat) : Fm Unit := do
  modify fun s => { s with
    vnodes := Function.update s.vnodes v { s.vnodes v with count := (s.vnodes v).count - 1 } }
  let s ← get
  if (s.vnodes v).count = 0 then
    writeInodeToDisk (s.vnodes v).index (s.vnodes v).inode
    modify fun s => { s with
      activeVnodeList := s.activeVnodeList.erase v
      freeVnodeList := v :: s.freeVnodeList }

/-- The first active vnode that carries the inode number. -/
def searchVnodeByIndex (s : FmState) (index : Int) : Option Nat :=
  s.activeVnodeList.find? fun v => (s.vnodes v).index = index

/-- `get_free_file_entry`. -/
def getFreeFileEntry : Fm Nat := do
  let s ← get
  match s.freeOpenFileList with
  | [] => throw .panic
  | e :: rest =>
    set { s with
      freeOpenFileList := rest
      files := Function.update s.files e { s.files e with count := 1 } }
    return e

/-- `release_file_entry`: with the last reference the entry is free. -/
def releaseFileEntry (e : Nat) : Fm Unit := do
  modify fun s => { s with
    files := Function.update s.files e { s.files e with count := (s.files e).count - 1 } }
  let s ← get
  if (s.files e).count = 0 then
    releaseKernelVnode (s.files e).vnode
    modify fun s => { s with freeOpenFileList := e :: s.freeOpenFileList }

/-! ### The pool of block buffers -/

/-- The first free buffer, by its position in the pool; none when all twenty are taken. -/
def getFreeBlockBuffer : Fm (Option Nat) := do
  let s ← get
  match (List.range 20).find? fun i => !s.blockBufFlag i with
  | none => return none
  | some i =>
    set { s with blockBufFlag := Function.update s.blockBufFlag i true }
    return some i

/-- `free_block_buffer`. -/
def freeBlockBuffer (i : Nat) : Fm Unit :=
  modify fun s => { s with blockBufFlag := Function.update s.blockBufFlag i false }

end NjuOs.FileSystem
