/-
**The path walkers.**

`read_inode`, `_create`, `_create_dir`, `_delete_file` and the walks inside `fm_lsdir` and
`fm_chdir`. A path is the rest of the 256-byte buffer the walker still points into; it cuts a
component at the first `/` or NUL and goes on one byte behind it. Reading behind the buffer is
`outOfBounds`.
-/

import NjuOs.FileSystem.Dir

namespace NjuOs.FileSystem

open NjuOs.Lib

/-- A component of a path: its bytes, whether it ended at the NUL, and the buffer behind it. -/
structure Component where
  name : List UInt8
  last : Bool
  rest : List UInt8

/-- The component a path starts with. -/
def component : List UInt8 → Option Component
  | [] => none
  | c :: cs =>
    if c = 0 then some { name := [], last := true, rest := cs }
    else if c = 47 then some { name := [], last := false, rest := cs }
    else (component cs).map fun found => { found with name := c :: found.name }

/-- The next component, which must be inside the path. -/
def cut (path : List UInt8) : Fm Component :=
  match component path with
  | none => throw .outOfBounds
  | some found => pure found

/-! ### `read_inode` -/

/-- The vnode of an inode number: the active one that carries it, or a fresh one filled from
disk. -/
def openVnode (index : Int) : Fm Nat := do
  match searchVnodeByIndex (← get) index with
  | none =>
    let v ← getFreeVnode
    modify fun s => { s with vnodes := Function.update s.vnodes v { s.vnodes v with index } }
    let inode ← readInodeFromDisk index
    modify fun s => { s with vnodes := Function.update s.vnodes v { s.vnodes v with inode } }
    return v
  | some v =>
    modify fun s => { s with
      vnodes := Function.update s.vnodes v { s.vnodes v with count := (s.vnodes v).count + 1 } }
    return v

/-- The loop of `read_inode`. Every turn takes at least one byte off the path. -/
def resolve : Nat → Int → List UInt8 → Fm (Option Int)
  | 0, _, _ => throw .outOfBounds
  | fuel + 1, curDir, path => do
    let found ← cut path
    match ← readDirEntry curDir found.name with
    | none => return none
    | some index =>
      if found.last then return some index
      else resolve fuel index found.rest

/-- `read_inode`: the vnode of a path, or null. -/
def readInode (dir : Int) (path : List UInt8) : Fm (Option Nat) := do
  if path.head? = some 0 then return none
  match ← resolve path.length dir path with
  | none => return none
  | some index => return some (← openVnode index)

/-! ### `_create_dir` and `_create` -/

/-- A new directory: a fresh inode, its record, its entry in the directory above, and its own two
entries. -/
def newDir (junk : Junk) (curDir : Int) (name : List UInt8) : Fm Int := do
  let index ← getFreeDiskInode
  writeInodeToDisk index {
    size := 0, type := dirType, link := 1
    devId := junk.devId index, index := junk.index index }
  addInodeIntoDir junk curDir name index
  addInodeIntoDir junk index dot index
  addInodeIntoDir junk index dotDot curDir
  return index

/-- The entry of a name, or a new directory under it. -/
def enterDir (junk : Junk) (curDir : Int) (name : List UInt8) : Fm Int := do
  match ← readDirEntry curDir name with
  | some index => return index
  | none => newDir junk curDir name

/-- `_create_dir`: the components one after the other, those that are missing as new directories. -/
def createDir (junk : Junk) : Nat → Int → List UInt8 → Fm Int
  | 0, _, _ => throw .outOfBounds
  | fuel + 1, curDir, path => do
    let found ← cut path
    let next ← enterDir junk curDir found.name
    if found.last then return next
    else createDir junk fuel next found.rest

/-- A path up to its NUL. -/
def untilNul (path : List UInt8) : List UInt8 := path.takeWhile (· ≠ 0)

/-- What stands before the last `/`. -/
def dirPart (path : List UInt8) : List UInt8 :=
  ((untilNul path).reverse.dropWhile (· ≠ 47)).tail.reverse

/-- What stands behind the last `/`. -/
def filePart (path : List UInt8) : List UInt8 :=
  ((untilNul path).reverse.takeWhile (· ≠ 47)).reverse

/-- The end of `_create`: a fresh inode, its record, its entry, and the vnode when there is one. -/
def createFile (junk : Junk) (curDir : Int) (name : List UInt8) (vnode : Option Nat) : Fm Unit := do
  let index ← getFreeDiskInode
  let inode : INode := {
    size := 0, type := plainType, link := 1, devId := 0, index := junk.index index }
  writeInodeToDisk index inode
  addInodeIntoDir junk curDir name index
  match vnode with
  | none => pure ()
  | some v =>
    modify fun s => { s with vnodes := Function.update s.vnodes v { index, inode, count := 1 } }

/-- A component in the middle of a path is missing: the cut is undone, the last component split off,
and the directories before it made. A path without NUL runs off the buffer. -/
def createBelow (junk : Junk) (vnode : Option Nat) (curDir : Int) (path : List UInt8) : Fm Unit :=
  if (0 : UInt8) ∈ path then do
    let dir ← createDir junk path.length curDir (dirPart path ++ [0])
    createFile junk dir (filePart path) vnode
  else throw .outOfBounds

/-- The loop of `_create`: `0` for a new file, `-1` for one that exists. -/
def createLoop (junk : Junk) (vnode : Option Nat) : Nat → Int → List UInt8 → Fm Int
  | 0, _, _ => throw .outOfBounds
  | fuel + 1, curDir, path => do
    let found ← cut path
    match ← readDirEntry curDir found.name with
    | some index =>
      if found.last then return -1
      else createLoop junk vnode fuel index found.rest
    | none =>
      if found.last then
        createFile junk curDir found.name vnode
        return 0
      else
        createBelow junk vnode curDir path
        return 0

/-- The directory a walk starts in and the path behind a leading `/`. -/
def walkStart (currentDir : Int) (path : List UInt8) : Int × List UInt8 :=
  if path.head? = some 47 then (0, path.tail) else (currentDir, path)

/-- `_create`: from the root for a path with a slash in front. -/
def create (junk : Junk) (currentDir : Int) (path : List UInt8) (vnode : Option Nat) : Fm Int :=
  let (dir, path) := walkStart currentDir path
  createLoop junk vnode path.length dir path

/-! ### `_delete_file` -/

/-- What `_delete_file` does with an entry once the NUL was reached: false when the inode is not of
the type that is to be deleted, and the source returns. -/
def deleteEntry (junk : Junk) (isFile : Bool) (curDir : Int) (name : List UInt8) (index : Int) :
    Fm Bool := do
  let inode ← readInodeFromDisk index
  if isFile = true ∧ inode.type = dirType then return false
  else if isFile = false ∧ inode.type = plainType then return false
  else
    deleteDirByInode 22 index inode
    removeInodeFromDir junk curDir name
    return true

/-- The loop of `_delete_file`. It does not return after a deletion: the walk goes on, with `flag`
set, in the buffer behind the NUL. -/
def deleteFile (junk : Junk) (isFile : Bool) : Nat → Bool → Int → List UInt8 → Fm Unit
  | 0, _, _, _ => throw .outOfBounds
  | fuel + 1, flag, curDir, path => do
    let found ← cut path
    match ← readDirEntry curDir found.name with
    | none => return ()
    | some index =>
      if flag || found.last then
        if ← deleteEntry junk isFile curDir found.name index then
          deleteFile junk isFile fuel true index found.rest
        else return ()
      else deleteFile junk isFile fuel false index found.rest

/-! ### The walks of `fm_lsdir` and `fm_chdir` -/

/-- Both handlers walk to the directory a path names, component by component as `read_inode` does;
an empty path names the start. -/
def walkTo (currentDir : Int) (path : List UInt8) : Fm (Option Int) :=
  let (dir, path) := walkStart currentDir path
  if path.head? = some 0 then pure (some dir) else resolve path.length dir path

/-- The string at `p` of the buffer pool. -/
def poolString (pool : Store) : Nat → Nat → Fm (List UInt8)
  | 0, _ => throw .stackSmash
  | fuel + 1, p =>
    if p < 20 * blockSize then
      if pool p = 0 then pure [] else do return pool p :: (← poolString pool fuel (p + 1))
    else throw .outOfBounds

/-- The records of one chunk of `_lsdir`: each name with three blanks behind it. The name is copied
into a local array of forty bytes. -/
def listChunk : Nat → Nat → Int → Fm (List UInt8)
  | 0, _, _ => pure []
  | fuel + 1, p, readedLen =>
    if 0 < readedLen then do
      let name ← poolString (← get).blockBufArray 37 p
      let rest ← listChunk fuel (p + dirEntrySize) (readedLen - dirEntrySize)
      return name ++ [32, 32, 32] ++ rest
    else pure []

/-- The loop of `fm_lsdir` over the chunks of a directory. -/
def listChunks (buf : Nat) (inode : INode) : Nat → Int → Fm (List UInt8)
  | 0, _ => pure []
  | fuel + 1, offset => do
    let readedLen ← readIntoBuffer buf offset inode dirChunk
    if 0 < readedLen then
      let here ← listChunk 7 (buf * blockSize) readedLen
      let rest ← listChunks buf inode fuel (offset + readedLen)
      return here ++ rest
    else
      return []

/-- `_lsdir`: the text it puts into the caller's buffer, without the NUL behind it. -/
def lsdir (dir : Int) : Fm (List UInt8) := do
  let inode ← readInodeFromDisk dir
  match ← getFreeBlockBuffer with
  | none => throw .nullPointer
  | some buf =>
    let text ← listChunks buf inode (inode.size.toNat + 1) 0
    freeBlockBuffer buf
    return text

end NjuOs.FileSystem
