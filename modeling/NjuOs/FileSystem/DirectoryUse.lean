/-
**Which inodes are used as directories.**

The request handlers use an inode's data as directory entries in five places: `read_dir_entry`,
`add_inode_into_dir`, `remove_inode_from_dir`, `_lsdir`, and the record loop of
`_delete_dir_by_inode`. `DirOps` takes these as a parameter, and `DirOps.handle` is the handlers
over it, in the source's text; with the source's own operations they are the handlers of the model
(`code_handle`). Operations fit when they do the same on inodes of type DIR. A request keeps to
directories if its run is the same with all operations that fit: then what it does depends on no
data of another inode, and it appends no entry to one.

Only `fm_chdir`, `_delete_file` and `_delete_dir_by_inode` look at a type. So a request keeps to
directories exactly if every inode its path goes on in, or appends to, is one, and so for what it
lists or deletes (`onDirectories_iff`); a plain file is walked like a directory, and entries are
appended to it (`plain_file_as_directory`).
-/

import NjuOs.FileSystem.PathTypes
import NjuOs.Lib.Operations

namespace NjuOs.FileSystem

open NjuOs.Lib

/-! ### The handlers over the operations -/

/-- The uses of an inode's data as directory entries: the lookup of a name, a new entry, a removed
one, the text of `_lsdir`, and the record loop of `_delete_dir_by_inode`, with the recursive call
and its buffer. -/
structure DirOps where
  lookUp : Int → List UInt8 → Fm (Option Int)
  add : Junk → Int → List UInt8 → Int → Fm Unit
  remove : Junk → Int → List UInt8 → Fm Unit
  list : Int → Fm (List UInt8)
  entries : (Int → INode → Fm Unit) → Nat → INode → Fm Unit

namespace DirOps

/-- The source's operations. -/
def code : DirOps where
  lookUp := readDirEntry
  add := addInodeIntoDir
  remove := removeInodeFromDir
  list := lsdir
  entries again buf inode := deleteChunks again buf inode (inode.size.toNat + 1) 0

section Handlers

variable (ops : DirOps) (junk : Junk)

/-- The loop of `read_inode`. -/
def resolve : Nat → Int → List UInt8 → Fm (Option Int)
  | 0, _, _ => throw .outOfBounds
  | fuel + 1, curDir, path => do
    let found ← cut path
    match ← ops.lookUp curDir found.name with
    | none => return none
    | some index =>
      if found.last then return some index
      else resolve fuel index found.rest

/-- `read_inode`. -/
def readInode (dir : Int) (path : List UInt8) : Fm (Option Nat) := do
  if path.head? = some 0 then return none
  match ← ops.resolve path.length dir path with
  | none => return none
  | some index => return some (← openVnode index)

/-- The walks of `fm_lsdir` and `fm_chdir`. -/
def walkTo (currentDir : Int) (path : List UInt8) : Fm (Option Int) :=
  let (dir, path) := walkStart currentDir path
  if path.head? = some 0 then pure (some dir) else ops.resolve path.length dir path

/-- A new directory below another, with its two names. -/
def newDir (curDir : Int) (name : List UInt8) : Fm Int := do
  let index ← getFreeDiskInode
  writeInodeToDisk index {
    size := 0, type := dirType, link := 1
    devId := junk.devId index, index := junk.index index }
  ops.add junk curDir name index
  ops.add junk index dot index
  ops.add junk index dotDot curDir
  return index

/-- The next directory on the way, made if it is missing. -/
def enterDir (curDir : Int) (name : List UInt8) : Fm Int := do
  match ← ops.lookUp curDir name with
  | some index => return index
  | none => ops.newDir junk curDir name

/-- `_create_dir`. -/
def createDir : Nat → Int → List UInt8 → Fm Int
  | 0, _, _ => throw .outOfBounds
  | fuel + 1, curDir, path => do
    let found ← cut path
    let next ← ops.enterDir junk curDir found.name
    if found.last then return next
    else createDir fuel next found.rest

/-- A new file in a directory. -/
def createFile (curDir : Int) (name : List UInt8) (vnode : Option Nat) : Fm Unit := do
  let index ← getFreeDiskInode
  let inode : INode := {
    size := 0, type := plainType, link := 1, devId := 0, index := junk.index index }
  writeInodeToDisk index inode
  ops.add junk curDir name index
  match vnode with
  | none => pure ()
  | some v =>
    modify fun s => { s with vnodes := Function.update s.vnodes v { index, inode, count := 1 } }

/-- A new file below directories that are missing. -/
def createBelow (vnode : Option Nat) (curDir : Int) (path : List UInt8) : Fm Unit :=
  if (0 : UInt8) ∈ path then do
    let dir ← ops.createDir junk path.length curDir (dirPart path ++ [0])
    ops.createFile junk dir (filePart path) vnode
  else throw .outOfBounds

/-- The loop of `_create`. -/
def createLoop (vnode : Option Nat) : Nat → Int → List UInt8 → Fm Int
  | 0, _, _ => throw .outOfBounds
  | fuel + 1, curDir, path => do
    let found ← cut path
    match ← ops.lookUp curDir found.name with
    | some index =>
      if found.last then return -1
      else createLoop vnode fuel index found.rest
    | none =>
      if found.last then
        ops.createFile junk curDir found.name vnode
        return 0
      else
        ops.createBelow junk vnode curDir path
        return 0

/-- `_create`. -/
def create (currentDir : Int) (path : List UInt8) (vnode : Option Nat) : Fm Int :=
  let (dir, path) := walkStart currentDir path
  ops.createLoop junk vnode path.length dir path

/-- `_delete_dir_by_inode`. -/
def deleteDirByInode : Nat → Int → INode → Fm Unit
  | 0, _, _ => throw .nullPointer
  | fuel + 1, index, inode => do
    if inode.type = plainType then
      deleteFileByInode index inode
    else
      match ← getFreeBlockBuffer with
      | none => throw .nullPointer
      | some buf =>
        ops.entries (deleteDirByInode fuel) buf inode
        freeBlockBuffer buf
        deleteFileByInode index inode

/-- An entry is removed, with what it leads to. -/
def deleteEntry (isFile : Bool) (curDir : Int) (name : List UInt8) (index : Int) : Fm Bool := do
  let inode ← readInodeFromDisk index
  if isFile = true ∧ inode.type = dirType then return false
  else if isFile = false ∧ inode.type = plainType then return false
  else
    ops.deleteDirByInode 22 index inode
    ops.remove junk curDir name
    return true

/-- The loop of `_delete_file`. -/
def deleteFile (isFile : Bool) : Nat → Bool → Int → List UInt8 → Fm Unit
  | 0, _, _, _ => throw .outOfBounds
  | fuel + 1, flag, curDir, path => do
    let found ← cut path
    match ← ops.lookUp curDir found.name with
    | none => return ()
    | some index =>
      if flag || found.last then
        if ← ops.deleteEntry junk isFile curDir found.name index then
          deleteFile isFile fuel true index found.rest
        else return ()
      else deleteFile isFile fuel false index found.rest

/-- The vnode of an OPEN, that of a new file if nothing was found. -/
def vnodeFor (pcb : Pcb) (path : List UInt8) : Option Nat → Fm Nat
  | some v => pure v
  | none => do
    let v ← getFreeVnode
    let _ ← ops.create junk pcb.currentDir path (some v)
    return v

/-- OPEN. -/
def fmOpen (src : Nat) (path : List UInt8) (flag : Int) : Fm Reply := do
  let pcb ← fetchPcb src
  let (dir, walked) := walkStart pcb.currentDir path
  let found ← ops.readInode dir walked
  if found = none ∧ flag ≠ 1 then
    return { dest := src, ret := -1 }
  else
    let v ← ops.vnodeFor junk pcb path found
    attach src v

/-- CREATE. -/
def fmCreate (src : Nat) (path : List UInt8) : Fm Reply := do
  let pcb ← fetchPcb src
  let _ ← ops.create junk pcb.currentDir path none
  return { dest := src, ret := 0 }

/-- MKDIR. -/
def fmMkdir (src : Nat) (path : List UInt8) : Fm Reply := do
  let pcb ← fetchPcb src
  let (dir, walked) := walkStart pcb.currentDir path
  let _ ← ops.createDir junk walked.length dir walked
  return { dest := src, ret := 0 }

/-- `fm_delete_file` and `fm_rmdir`. -/
def fmDelete (isFile : Bool) (src : Nat) (path : List UInt8) : Fm Reply := do
  let pcb ← fetchPcb src
  let (dir, walked) := walkStart pcb.currentDir path
  ops.deleteFile junk isFile walked.length false dir walked
  return { dest := src, ret := 0 }

/-- LSDIR. -/
def fmLsdir (src : Nat) (path : List UInt8) : Fm Reply := do
  let pcb ← fetchPcb src
  match ← ops.walkTo pcb.currentDir path with
  | none => return { dest := src, ret := -1 }
  | some dir =>
    let text ← ops.list dir
    return { dest := src, ret := 0, data := text }

/-- CHDIR. -/
def fmChdir (src : Nat) (path : List UInt8) : Fm Reply := do
  let pcb ← fetchPcb src
  if path.head? = some 0 then
    return { dest := src, ret := 0 }
  match ← ops.walkTo pcb.currentDir path with
  | none => return { dest := src, ret := -1 }
  | some dir =>
    let inode ← readInodeFromDisk dir
    if inode.type = plainType then
      return { dest := src, ret := -1 }
    modifyPcb src fun pcb => { pcb with currentDir := dir }
    return { dest := src, ret := 0 }

/-- The handlers of the requests that take a path; no other uses a directory. -/
def handle (src : Nat) : Request → Fm (Option Reply)
  | .open path flag => some <$> ops.fmOpen junk src path flag
  | .create path => some <$> ops.fmCreate junk src path
  | .mkdir path => some <$> ops.fmMkdir junk src path
  | .delete path => some <$> ops.fmDelete junk true src path
  | .rmdir path => some <$> ops.fmDelete junk false src path
  | .lsdir path => some <$> ops.fmLsdir src path
  | .chdir path => some <$> ops.fmChdir src path
  | request => FileSystem.handle junk src request

end Handlers

section Code

variable {junk : Junk}

@[simp] theorem code_resolve : code.resolve = FileSystem.resolve := by
  funext fuel curDir path
  induction fuel generalizing curDir path with
  | zero => rfl
  | succ fuel ih =>
      unfold resolve FileSystem.resolve
      simp only [ih]
      rfl

@[simp] theorem code_createDir : code.createDir junk = FileSystem.createDir junk := by
  funext fuel curDir path
  induction fuel generalizing curDir path with
  | zero => rfl
  | succ fuel ih =>
      unfold createDir FileSystem.createDir
      simp only [ih]
      rfl

@[simp] theorem code_createBelow : code.createBelow junk = FileSystem.createBelow junk := by
  funext vnode curDir path
  unfold createBelow FileSystem.createBelow
  rw [code_createDir]
  rfl

@[simp] theorem code_createLoop : code.createLoop junk = FileSystem.createLoop junk := by
  funext vnode fuel curDir path
  induction fuel generalizing curDir path with
  | zero => rfl
  | succ fuel ih =>
      unfold createLoop FileSystem.createLoop
      simp only [ih, code_createBelow]
      rfl

@[simp] theorem code_deleteDirByInode : code.deleteDirByInode = FileSystem.deleteDirByInode := by
  funext fuel
  induction fuel with
  | zero => rfl
  | succ fuel ih =>
      funext index inode
      unfold deleteDirByInode FileSystem.deleteDirByInode
      rw [ih]
      rfl

@[simp] theorem code_deleteEntry : code.deleteEntry junk = FileSystem.deleteEntry junk := by
  funext isFile curDir name index
  unfold deleteEntry FileSystem.deleteEntry
  rw [code_deleteDirByInode]
  rfl

@[simp] theorem code_deleteFile : code.deleteFile junk = FileSystem.deleteFile junk := by
  funext isFile fuel flag curDir path
  induction fuel generalizing flag curDir path with
  | zero => rfl
  | succ fuel ih =>
      unfold deleteFile FileSystem.deleteFile
      simp only [ih, code_deleteEntry]
      rfl

@[simp] theorem code_walkTo : code.walkTo = FileSystem.walkTo := by
  funext currentDir path
  unfold walkTo FileSystem.walkTo
  rw [code_resolve]

@[simp] theorem code_readInode : code.readInode = FileSystem.readInode := by
  funext dir path
  unfold readInode FileSystem.readInode
  rewrite [code_resolve]
  rfl

/-- **With the source's operations they are the handlers.** -/
theorem code_handle : code.handle junk = FileSystem.handle junk := by
  funext src request
  cases request <;>
    simp only [handle, FileSystem.handle, fmOpen, FileSystem.fmOpen, vnodeFor, FileSystem.vnodeFor,
      fmCreate, FileSystem.fmCreate, create, FileSystem.create, fmMkdir, FileSystem.fmMkdir,
      fmDelete, FileSystem.fmDeleteFile, FileSystem.fmRmdir, fmLsdir, FileSystem.fmLsdir, fmChdir,
      FileSystem.fmChdir, code_readInode, code_createLoop, code_createDir, code_deleteFile,
      code_walkTo] <;> rfl

end Code

end DirOps

/-! ### The type that is asked for -/

/-- An inode number leads to a directory, when there is a record for it on the disk. -/
def IsDir (s : FmState) (n : Int) : Prop :=
  (inodeAddr n).toNat + inodeSize < ramdiskSize → (diskInode s.disk n).type = dirType

instance {s : FmState} {n : Int} : Decidable (IsDir s n) :=
  inferInstanceAs (Decidable (_ → _))

/-- The operations do what the source's do on inodes of type DIR. -/
structure FitsDirectories (ops : DirOps) : Prop where
  lookUp : ∀ s dir name, IsDir s dir → ops.lookUp dir name s = readDirEntry dir name s
  add : ∀ s junk dir name index, IsDir s dir →
    ops.add junk dir name index s = addInodeIntoDir junk dir name index s
  remove : ∀ s junk dir name, IsDir s dir →
    ops.remove junk dir name s = removeInodeFromDir junk dir name s
  list : ∀ s dir, IsDir s dir → ops.list dir s = lsdir dir s
  entries : ∀ s again buf inode, inode.type = dirType →
    ops.entries again buf inode s = DirOps.code.entries again buf inode s

/-- A program that fails at once on an inode that is no directory. -/
def onDir {α : Type} (e : Fault) (dir : Int) (x : Fm α) : Fm α := fun s =>
  if IsDir s dir then x s else .error e s

/-- The operations on directories, and those that fail elsewhere. -/
def dirOperations : Operations DirOps Fault where
  own := DirOps.code
  Fits := FitsDirectories
  failing := fun e => {
    lookUp := fun dir name => onDir e dir (readDirEntry dir name)
    add := fun junk dir name index => onDir e dir (addInodeIntoDir junk dir name index)
    remove := fun junk dir name => onDir e dir (removeInodeFromDir junk dir name)
    list := fun dir => onDir e dir (lsdir dir)
    entries := fun again buf inode =>
      if inode.type = dirType then DirOps.code.entries again buf inode else throw e }
  fits := fun _ => {
    lookUp := fun _ _ _ here => if_pos here
    add := fun _ _ _ _ _ here => if_pos here
    remove := fun _ _ _ _ here => if_pos here
    list := fun _ _ here => if_pos here
    entries := fun _ _ _ _ here => congrFun (if_pos here) _ }

/-! ### What a request needs -/

section Needs

variable (junk : Junk)

/-- Every inode in which `read_inode` looks a component up is a directory. -/
def resolveNeeds : Nat → Int → List UInt8 → FmState → Prop
  | 0, _, _ => fun _ => True
  | fuel + 1, curDir, path => After (cut path) fun found s => IsDir s curDir ∧
      After (readDirEntry curDir found.name) (fun
        | none => fun _ => True
        | some index => fun s =>
          if found.last then True else resolveNeeds fuel index found.rest s) s

/-- A path that is empty looks nothing up. -/
def walkNeeds (dir : Int) (path : List UInt8) : FmState → Prop :=
  fun s => if path.head? = some 0 then True else resolveNeeds path.length dir path s

/-- The directory above is one, and the new inode when its own entries are put into it. -/
def newDirNeeds (curDir : Int) (name : List UInt8) : FmState → Prop :=
  After getFreeDiskInode fun index => After (writeInodeToDisk index {
      size := 0, type := dirType, link := 1
      devId := junk.devId index, index := junk.index index }) fun _ s =>
    IsDir s curDir ∧ After (addInodeIntoDir junk curDir name index) (fun _ s =>
      IsDir s index ∧ After (addInodeIntoDir junk index dot index) (fun _ s => IsDir s index) s) s

/-- The inode a component of `_create_dir` is looked up in is a directory, and so is one made for
it. -/
def enterDirNeeds (curDir : Int) (name : List UInt8) : FmState → Prop := fun s =>
  IsDir s curDir ∧ After (readDirEntry curDir name) (fun
    | some _ => fun _ => True
    | none => newDirNeeds junk curDir name) s

/-- Every inode `_create_dir` goes on in, or appends to, is a directory. -/
def createDirNeeds : Nat → Int → List UInt8 → FmState → Prop
  | 0, _, _ => fun _ => True
  | fuel + 1, curDir, path => After (cut path) fun found s =>
      enterDirNeeds junk curDir found.name s ∧
        After (enterDir junk curDir found.name) (fun next s =>
        if found.last then True else createDirNeeds fuel next found.rest s) s

/-- The directory the new file is put into is one, with the file's record on the disk. -/
def createFileNeeds (curDir : Int) : FmState → Prop :=
  After getFreeDiskInode fun index => After (writeInodeToDisk index {
    size := 0, type := plainType, link := 1, devId := 0, index := junk.index index })
      fun _ s => IsDir s curDir

/-- What the missing directories and the file behind them are put into are directories. -/
def createBelowNeeds (curDir : Int) (path : List UInt8) : FmState → Prop := fun s =>
  if (0 : UInt8) ∈ path then
    createDirNeeds junk path.length curDir (dirPart path ++ [0]) s ∧
      After (createDir junk path.length curDir (dirPart path ++ [0]))
        (fun dir => createFileNeeds junk dir) s
  else True

/-- Every inode `_create` goes on in, or appends to, is a directory. -/
def createLoopNeeds : Nat → Int → List UInt8 → FmState → Prop
  | 0, _, _ => fun _ => True
  | fuel + 1, curDir, path => After (cut path) fun found s => IsDir s curDir ∧
      After (readDirEntry curDir found.name) (fun
        | some index => fun s =>
          if found.last then True else createLoopNeeds fuel index found.rest s
        | none => fun s =>
          if found.last then createFileNeeds junk curDir s
            else createBelowNeeds junk curDir path s) s

/-- The records that are gone through, each with what its inode needs. -/
def chunkNeeds (again : Int → INode → Fm Unit) (need : Int → INode → FmState → Prop) :
    Nat → Nat → Int → FmState → Prop
  | 0, _, _ => fun _ => True
  | fuel + 1, p, readedLen => fun s =>
    let rest := chunkNeeds again need fuel (p + dirEntrySize) (readedLen - dirEntrySize)
    if 0 < readedLen then
      After (get : Fm FmState) (fun at₁ => After (sameName at₁.blockBufArray p dot) fun isDot s =>
        if isDot then rest s
        else After (get : Fm FmState) (fun at₂ =>
          After (sameName at₂.blockBufArray p dotDot) fun isDotDot s =>
          if isDotDot then rest s
          else After (get : Fm FmState) (fun at₃ =>
            After (readInodeFromDisk (entryIndex at₃.blockBufArray p)) fun inode s =>
              need (entryIndex at₃.blockBufArray p) inode s ∧
                After (again (entryIndex at₃.blockBufArray p) inode) (fun _ => rest) s) s) s) s
    else True

/-- The records of all chunks of a directory, each with what its inode needs. -/
def chunksNeeds (again : Int → INode → Fm Unit) (need : Int → INode → FmState → Prop) (buf : Nat)
    (inode : INode) : Nat → Int → FmState → Prop
  | 0, _ => fun _ => True
  | fuel + 1, offset => After (readIntoBuffer buf offset inode dirChunk) fun readedLen s =>
    if 0 < readedLen then
      chunkNeeds again need 7 (buf * blockSize) readedLen s ∧
        After (deleteChunk again 7 (buf * blockSize) readedLen)
          (fun _ => chunksNeeds again need buf inode fuel (offset + readedLen)) s
    else True

/-- Every inode `_delete_dir_by_inode` comes to that is not PLAIN is a directory. -/
def deleteTreeNeeds : Nat → Int → INode → FmState → Prop
  | 0, _, _ => fun _ => True
  | fuel + 1, _, inode => fun s =>
    if inode.type = plainType then True
    else After getFreeBlockBuffer (fun
      | none => fun _ => True
      | some buf => fun s => inode.type = dirType ∧
          chunksNeeds (deleteDirByInode fuel) (deleteTreeNeeds fuel) buf inode
            (inode.size.toNat + 1) 0 s) s

/-- What is deleted, and the directory its entry is taken from. -/
def deleteEntryNeeds (isFile : Bool) (curDir index : Int) : FmState → Prop :=
  After (readInodeFromDisk index) fun inode s =>
    if isFile = true ∧ inode.type = dirType then True
    else if isFile = false ∧ inode.type = plainType then True
    else deleteTreeNeeds 22 index inode s ∧
      After (deleteDirByInode 22 index inode) (fun _ s => IsDir s curDir) s

/-- Every inode `_delete_file` goes on in is a directory, and so for what it deletes. It goes on
behind a deletion, in what was deleted. -/
def deleteFileNeeds (isFile : Bool) : Nat → Bool → Int → List UInt8 → FmState → Prop
  | 0, _, _, _ => fun _ => True
  | fuel + 1, flag, curDir, path => After (cut path) fun found s => IsDir s curDir ∧
      After (readDirEntry curDir found.name) (fun
        | none => fun _ => True
        | some index => fun s =>
          if flag || found.last then
            deleteEntryNeeds isFile curDir index s ∧
              After (deleteEntry junk isFile curDir found.name index) (fun again s =>
                if again then deleteFileNeeds isFile fuel true index found.rest s else True) s
          else deleteFileNeeds isFile fuel false index found.rest s) s

/-- **The request's path goes on in directories only**, and what it lists, deletes, or puts an entry
into is one. -/
def OnDirectories (src : Nat) : Request → FmState → Prop
  | .open path flag => After (fetchPcb src) fun pcb s =>
    let (dir, walked) := walkStart pcb.currentDir path
    walkNeeds dir walked s ∧ After (readInode dir walked) (fun found s =>
      if found = none ∧ flag = 1 then
        After getFreeVnode (fun _ => fun s =>
          let (dir, walked) := walkStart pcb.currentDir path
          createLoopNeeds junk walked.length dir walked s) s
      else True) s
  | .create path => After (fetchPcb src) fun pcb =>
    let (dir, walked) := walkStart pcb.currentDir path
    createLoopNeeds junk walked.length dir walked
  | .mkdir path => After (fetchPcb src) fun pcb =>
    let (dir, walked) := walkStart pcb.currentDir path
    createDirNeeds junk walked.length dir walked
  | .delete path => After (fetchPcb src) fun pcb =>
    let (dir, walked) := walkStart pcb.currentDir path
    deleteFileNeeds junk true walked.length false dir walked
  | .rmdir path => After (fetchPcb src) fun pcb =>
    let (dir, walked) := walkStart pcb.currentDir path
    deleteFileNeeds junk false walked.length false dir walked
  | .lsdir path => After (fetchPcb src) fun pcb s =>
    let (dir, walked) := walkStart pcb.currentDir path
    walkNeeds dir walked s ∧ After (walkTo pcb.currentDir path) (fun
      | none => fun _ => True
      | some dir => fun s => IsDir s dir) s
  | .chdir path => After (fetchPcb src) fun pcb s =>
    if path.head? = some 0 then True
    else
      let (dir, walked) := walkStart pcb.currentDir path
      walkNeeds dir walked s
  | _ => fun _ => True

end Needs

/-! ### The needs are the programs' -/

section Exact

variable {junk : Junk} {dir curDir : Int} {name path : List UInt8}

theorem lookUp_needs : dirOperations.Needs (fun ops => ops.lookUp dir name) fun s =>
    IsDir s dir where
  same _ here _ fits := fits.lookUp _ _ _ here
  fails s never _ := ⟨s, if_neg never⟩

theorem add_needs {index : Int} :
    dirOperations.Needs (fun ops => ops.add junk dir name index) fun s => IsDir s dir where
  same _ here _ fits := fits.add _ _ _ _ _ here
  fails s never _ := ⟨s, if_neg never⟩

theorem remove_needs :
    dirOperations.Needs (fun ops => ops.remove junk dir name) fun s => IsDir s dir where
  same _ here _ fits := fits.remove _ _ _ _ here
  fails s never _ := ⟨s, if_neg never⟩

theorem list_needs : dirOperations.Needs (fun ops => ops.list dir) fun s => IsDir s dir where
  same _ here _ fits := fits.list _ _ here
  fails s never _ := ⟨s, if_neg never⟩

theorem resolve_needs (fuel : Nat) :
    dirOperations.Needs (fun ops => ops.resolve fuel dir path) (resolveNeeds fuel dir path) := by
  induction fuel generalizing dir path with
  | zero => exact .const
  | succ fuel ih =>
      refine .after fun found => .bind lookUp_needs fun next => ?_
      cases next with
      | none => exact .const
      | some index => exact .ite .const ih

theorem newDir_needs :
    dirOperations.Needs (fun ops => ops.newDir junk dir name) (newDirNeeds junk dir name) := by
  exact .after fun index => .after fun _ => .bind add_needs fun _ => .bind add_needs fun _ =>
    .before add_needs fun _ => .const

theorem enterDir_needs :
    dirOperations.Needs (fun ops => ops.enterDir junk dir name) (enterDirNeeds junk dir name) := by
  refine .bind lookUp_needs fun next => ?_
  cases next with
  | none => exact newDir_needs
  | some index => exact .const

theorem createDir_needs (fuel : Nat) :
    dirOperations.Needs (fun ops => ops.createDir junk fuel dir path)
    (createDirNeeds junk fuel dir path) := by
  induction fuel generalizing dir path with
  | zero => exact .const
  | succ fuel ih =>
      exact .after fun found => .bind enterDir_needs fun next => .ite .const ih

theorem createFile_needs {vnode : Option Nat} : dirOperations.Needs
    (fun ops => ops.createFile junk dir name vnode) (createFileNeeds junk dir) := by
  refine .after fun index => .after fun _ => .before add_needs fun _ => ?_
  cases vnode with
  | none => exact .const
  | some v => exact .const

theorem createBelow_needs {vnode : Option Nat} : dirOperations.Needs
    (fun ops => ops.createBelow junk vnode dir path) (createBelowNeeds junk dir path) := by
  have both : dirOperations.Needs (fun ops => do
      let next ← ops.createDir junk path.length dir (dirPart path ++ [0])
      ops.createFile junk next (filePart path) vnode) _ :=
    .bind (createDir_needs _) fun next => createFile_needs
  rw [show dirOperations.own = DirOps.code from rfl, DirOps.code_createDir] at both
  exact .ite both .const

theorem createLoop_needs {vnode : Option Nat} (fuel : Nat) : dirOperations.Needs
    (fun ops => ops.createLoop junk vnode fuel dir path) (createLoopNeeds junk fuel dir path) := by
  induction fuel generalizing dir path with
  | zero => exact .const
  | succ fuel ih =>
      refine .after fun found => .bind lookUp_needs fun next => ?_
      cases next with
      | some index => exact .ite .const ih
      | none =>
          exact .ite (.before createFile_needs fun _ => .const)
            (.before createBelow_needs fun _ => .const)

section Again

variable {again : DirOps → Int → INode → Fm Unit} {need : Int → INode → FmState → Prop}

theorem chunk_needs
    (each : ∀ index inode,
      dirOperations.Needs (fun ops => again ops index inode) (need index inode)) (fuel p : Nat)
    (readedLen : Int) :
    dirOperations.Needs (fun ops => deleteChunk (again ops) fuel p readedLen)
      (chunkNeeds (again DirOps.code) need fuel p readedLen) := by
  induction fuel generalizing p readedLen with
  | zero => exact .const
  | succ fuel ih =>
      refine .ite (.after fun at₁ => .after fun isDot => .ite (ih _ _) ?_) .const
      refine .after fun at₂ => .after fun isDotDot => .ite (ih _ _) ?_
      exact .after fun at₃ => .after fun inode => .bind (each _ _) fun _ => ih _ _

theorem chunks_needs
    (each : ∀ index inode,
      dirOperations.Needs (fun ops => again ops index inode) (need index inode)) (buf : Nat)
    (inode : INode) (fuel : Nat) (offset : Int) :
    dirOperations.Needs (fun ops => deleteChunks (again ops) buf inode fuel offset)
      (chunksNeeds (again DirOps.code) need buf inode fuel offset) := by
  induction fuel generalizing offset with
  | zero => exact .const
  | succ fuel ih =>
      exact .after fun readedLen => .ite (.bind (chunk_needs each _ _ _) fun _ => ih _) .const

theorem entries_needs
    (each : ∀ index inode,
      dirOperations.Needs (fun ops => again ops index inode) (need index inode)) (buf : Nat)
    (inode : INode) :
    dirOperations.Needs (fun ops => ops.entries (again ops) buf inode) fun s =>
      inode.type = dirType ∧
        chunksNeeds (again DirOps.code) need buf inode (inode.size.toNat + 1) 0 s := by
  have loop := chunks_needs each buf inode (inode.size.toNat + 1) 0
  constructor
  · rintro s ⟨directory, here⟩ ω fits
    rw [fits.entries _ _ _ _ directory]
    exact loop.same s here ω fits
  · intro s never e
    by_cases directory : inode.type = dirType
    · obtain ⟨s', run⟩ := loop.fails s (fun here => never ⟨directory, here⟩) e
      exact ⟨s', (congrFun (if_pos directory) s).trans run⟩
    · exact ⟨s, congrFun (if_neg directory) s⟩

end Again

theorem deleteTree_needs (fuel : Nat) (index : Int) (inode : INode) :
    dirOperations.Needs (fun ops => ops.deleteDirByInode fuel index inode)
      (deleteTreeNeeds fuel index inode) := by
  induction fuel generalizing index inode with
  | zero => exact .const
  | succ fuel ih =>
      refine .ite .const (.after fun taken => ?_)
      cases taken with
      | none => exact .const
      | some buf =>
          have entries := entries_needs ih buf inode
          rw [DirOps.code_deleteDirByInode] at entries
          exact .before entries fun _ => .const

theorem deleteEntry_needs {isFile : Bool} {index : Int} :
    dirOperations.Needs (fun ops => ops.deleteEntry junk isFile dir name index)
      (deleteEntryNeeds isFile dir index) := by
  refine .after fun inode => .ite .const (.ite .const ?_)
  have tree := deleteTree_needs 22 index inode
  have both : dirOperations.Needs (fun ops => do
      ops.deleteDirByInode 22 index inode
      ops.remove junk dir name
      return true) _ :=
    .bind tree fun _ => .before remove_needs fun _ => .const
  rw [show dirOperations.own = DirOps.code from rfl, DirOps.code_deleteDirByInode] at both
  exact both

theorem deleteFile_needs {isFile : Bool} (fuel : Nat) {flag : Bool} :
    dirOperations.Needs (fun ops => ops.deleteFile junk isFile fuel flag dir path)
      (deleteFileNeeds junk isFile fuel flag dir path) := by
  induction fuel generalizing flag dir path with
  | zero => exact .const
  | succ fuel ih =>
      refine .after fun found => .bind lookUp_needs fun next => ?_
      cases next with
      | none => exact .const
      | some index =>
          refine .ite ?_ ih
          have entry : dirOperations.Needs (fun ops => do
              let again ← ops.deleteEntry junk isFile dir found.name index
              if again then ops.deleteFile junk isFile fuel true index found.rest else pure ()) _ :=
            .bind deleteEntry_needs fun again => .ite ih .const
          rw [show dirOperations.own = DirOps.code from rfl, DirOps.code_deleteEntry] at entry
          exact entry

theorem walk_needs :
    dirOperations.Needs (fun ops => ops.readInode dir path) (walkNeeds dir path) := by
  refine .ite .const (.before (resolve_needs _) fun found => ?_)
  cases found with
  | none => exact .const
  | some index => exact .const

theorem walkTo_needs {currentDir : Int} :
    dirOperations.Needs (fun ops => ops.walkTo currentDir path)
    (walkNeeds (walkStart currentDir path).1 (walkStart currentDir path).2) :=
  .ite .const (resolve_needs _)

theorem fmOpen_needs {src : Nat} {flag : Int} :
    dirOperations.Needs (fun ops => ops.fmOpen junk src path flag)
      (OnDirectories junk src (.open path flag)) := by
  refine .after fun pcb => ?_
  generalize start : walkStart pcb.currentDir path = from'
  obtain ⟨dir, walked⟩ := from'
  have both : dirOperations.Needs (fun ops => do
      let found ← ops.readInode dir walked
      if found = none ∧ flag ≠ 1 then
        return { dest := src, ret := -1 }
      else
        let v ← ops.vnodeFor junk pcb path found
        attach src v) _ :=
    .bind (m := fun found s => if found = none ∧ flag = 1 then
      After getFreeVnode (fun _ => createLoopNeeds junk walked.length dir walked) s else True)
      walk_needs fun found => ?_
  · rw [show dirOperations.own = DirOps.code from rfl, DirOps.code_readInode] at both
    exact both
  · cases found with
    | some v => exact .congr (.ite .const (.before .const fun _ => .const)) fun s => by simp
    | none =>
        have make : dirOperations.Needs (fun ops => ops.vnodeFor junk pcb path none)
            (After getFreeVnode fun _ => createLoopNeeds junk walked.length dir walked) := by
          refine .after fun v => ?_
          unfold DirOps.create
          rw [start]
          exact .before (createLoop_needs _) fun _ => .const
        refine .congr (.ite .const (.before make fun _ => .const)) fun s => ?_
        by_cases flagged : flag = 1
        · simp [flagged]
        · simp [flagged]

theorem fmLsdir_needs {src : Nat} : dirOperations.Needs (fun ops => ops.fmLsdir src path)
    (OnDirectories junk src (.lsdir path)) := by
  refine .after fun pcb => ?_
  have both : dirOperations.Needs (fun ops => do
      match ← ops.walkTo pcb.currentDir path with
      | none => return ({ dest := src, ret := -1 } : Reply)
      | some dir =>
        let text ← ops.list dir
        return { dest := src, ret := 0, data := text }) _ :=
    .bind (m := fun
      | none => fun _ => True
      | some dir => fun s => IsDir s dir) walkTo_needs fun found => ?_
  · rw [show dirOperations.own = DirOps.code from rfl, DirOps.code_walkTo] at both
    exact both
  · cases found with
    | none => exact .const
    | some dir => exact .before list_needs fun _ => .const

theorem fmChdir_needs {src : Nat} : dirOperations.Needs (fun ops => ops.fmChdir src path)
    (OnDirectories junk src (.chdir path)) := by
  refine .after fun pcb => .ite .const (.before walkTo_needs fun found => ?_)
  cases found with
  | none => exact .const
  | some dir => exact .const

theorem handle_needs (src : Nat) (request : Request) :
    dirOperations.Needs (fun ops => ops.handle junk src request)
      (OnDirectories junk src request) := by
  cases request with
  | «open» path flag => exact .map fmOpen_needs
  | create path =>
      exact .map (.after fun pcb => .before (createLoop_needs _) fun _ => .const)
  | mkdir path =>
      exact .map (.after fun pcb => .before (createDir_needs _) fun _ => .const)
  | delete path =>
      exact .map (.after fun pcb => .before (deleteFile_needs _) fun _ => .const)
  | rmdir path =>
      exact .map (.after fun pcb => .before (deleteFile_needs _) fun _ => .const)
  | lsdir path => exact .map fmLsdir_needs
  | chdir path => exact .map fmChdir_needs
  | _ => exact .const

end Exact

/-! ### Directories only -/

/-- A component of the path is looked up in a plain file. -/
def WalksPlain : Nat → Int → List UInt8 → FmState → Prop
  | 0, _, _, _ => False
  | fuel + 1, curDir, path, s => ∃ found s₁, cut path s = .ok found s₁ ∧
      (HasType s₁ curDir plainType ∨ ∃ index s₂,
        readDirEntry curDir found.name s₁ = .ok (some index) s₂ ∧ found.last = false ∧
          WalksPlain fuel index found.rest s₂)

/-- The path of a request that takes one. -/
def Request.path? : Request → Option (List UInt8)
  | .open path _ | .create path | .mkdir path | .delete path | .rmdir path | .lsdir path
  | .chdir path => some path
  | _ => none

/-- The replies of OPEN, LSDIR and CHDIR say whether the path resolved. -/
def Request.resolves : Request → Bool
  | .open _ _ | .lsdir _ | .chdir _ => true
  | _ => false

/-- The request's path goes through a plain file. -/
def ThroughPlain (src : Nat) (request : Request) (s : FmState) : Prop :=
  ∃ path dir walked, request.path? = some path ∧
    walkStart (s.pcbs src).currentDir path = (dir, walked) ∧ walked.head? ≠ some 0 ∧
      WalksPlain walked.length dir walked s

/-- **The request uses the data of directories only**, and appends entries to directories only: its
run is the same with all operations that do the same on inodes of type DIR. And a path through a
plain file resolves to nothing and changes nothing. -/
structure DirectoriesOnly (junk : Junk) (src : Nat) (request : Request) (s : FmState) : Prop where
  blind : ∀ ops, FitsDirectories ops →
    ops.handle junk src request s = handle junk src request s
  refused : ThroughPlain src request s → ∀ reply s', handle junk src request s = .ok reply s' →
    s'.core = s.core ∧ (request.resolves = true → ∀ answer ∈ reply, answer.ret = -1)

section DirectoriesOnly

variable {junk : Junk} {s : FmState} {src fuel : Nat} {dir : Int} {path : List UInt8}

/-- What holds of every inode a walk goes on in. -/
theorem not_walksPlain {need : Nat → Int → List UInt8 → FmState → Prop}
    (turn : ∀ {fuel dir path s}, need (fuel + 1) dir path s →
      ∀ found s₁, cut path s = .ok found s₁ →
      IsDir s₁ dir ∧ ∀ index s₂, readDirEntry dir found.name s₁ = .ok (some index) s₂ →
        found.last = false → need fuel index found.rest s₂)
    (here : need fuel dir path s) : ¬ WalksPlain fuel dir path s := by
  induction fuel generalizing dir path s with
  | zero => exact id
  | succ fuel ih =>
      rintro ⟨found, s₁, cut, plain | ⟨index, s₂, looked, more, walks⟩⟩
      · have directory := (turn here found s₁ cut).1 plain.1
        rw [plain.2] at directory
        exact absurd directory (by decide)
      · exact ih ((turn here found s₁ cut).2 index s₂ looked more) walks

theorem resolveNeeds_not_walksPlain (here : resolveNeeds fuel dir path s) :
    ¬ WalksPlain fuel dir path s := by
  refine not_walksPlain (fun here found s₁ cut => ?_) here
  obtain ⟨directory, rest⟩ := here found s₁ cut
  refine ⟨directory, fun index s₂ looked more => ?_⟩
  have next := rest _ s₂ looked
  simpa only [more, Bool.or_false, Bool.false_eq_true, if_false] using next

theorem createLoopNeeds_not_walksPlain (here : createLoopNeeds junk fuel dir path s) :
    ¬ WalksPlain fuel dir path s := by
  refine not_walksPlain (fun here found s₁ cut => ?_) here
  obtain ⟨directory, rest⟩ := here found s₁ cut
  refine ⟨directory, fun index s₂ looked more => ?_⟩
  have next := rest _ s₂ looked
  simpa only [more, Bool.or_false, Bool.false_eq_true, if_false] using next

theorem createDirNeeds_not_walksPlain (here : createDirNeeds junk fuel dir path s) :
    ¬ WalksPlain fuel dir path s := by
  refine not_walksPlain (fun here found s₁ cut => ?_) here
  obtain ⟨⟨directory, -⟩, rest⟩ := here found s₁ cut
  refine ⟨directory, fun index s₂ looked more => ?_⟩
  have next := rest index s₂ (run_bind looked)
  rwa [more, if_neg Bool.false_ne_true] at next

theorem deleteFileNeeds_not_walksPlain {isFile : Bool}
    (here : deleteFileNeeds junk isFile fuel false dir path s) : ¬ WalksPlain fuel dir path s := by
  refine @not_walksPlain _ _ _ _ (fun fuel => deleteFileNeeds junk isFile fuel false)
    (fun here found s₁ cut => ?_) here
  obtain ⟨directory, rest⟩ := here found s₁ cut
  refine ⟨directory, fun index s₂ looked more => ?_⟩
  have next := rest _ s₂ looked
  simpa only [more, Bool.or_false, Bool.false_eq_true, if_false] using next

/-- A path that keeps to directories goes through no plain file. -/
theorem OnDirectories.not_throughPlain {request : Request} (process : src < 50)
    (here : OnDirectories junk src request s) : ¬ ThroughPlain src request s := by
  rintro ⟨path, dir, walked, is, start, some, walks⟩
  have walk (needs : walkNeeds dir walked s) : False := by
    unfold walkNeeds at needs
    rw [if_neg some] at needs
    exact resolveNeeds_not_walksPlain needs walks
  cases request <;> cases is
  case «open» flag =>
    have needs := here _ s (fetchPcb_ok process)
    beta_reduce at needs
    rw [start] at needs
    exact walk needs.1
  case create =>
    have needs := here _ s (fetchPcb_ok process)
    beta_reduce at needs
    rw [start] at needs
    exact createLoopNeeds_not_walksPlain needs walks
  case mkdir =>
    have needs := here _ s (fetchPcb_ok process)
    beta_reduce at needs
    rw [start] at needs
    exact createDirNeeds_not_walksPlain needs walks
  case delete =>
    have needs := here _ s (fetchPcb_ok process)
    beta_reduce at needs
    rw [start] at needs
    exact deleteFileNeeds_not_walksPlain needs walks
  case rmdir =>
    have needs := here _ s (fetchPcb_ok process)
    beta_reduce at needs
    rw [start] at needs
    exact deleteFileNeeds_not_walksPlain needs walks
  case lsdir =>
    have needs := here _ s (fetchPcb_ok process)
    beta_reduce at needs
    rw [start] at needs
    exact walk needs.1
  case chdir =>
    have needs := here _ s (fetchPcb_ok process)
    beta_reduce at needs
    rw [if_neg (head_ne_of_walkStart start some), start] at needs
    exact walk needs

/-- There are fifty processes. -/
theorem handle_no_process {request : Request} {reply : Option Reply} {s' : FmState}
    (process : ¬ src < 50) (is : request.path? = some path) :
    handle junk src request s ≠ .ok reply s' := by
  have panics (x : Pcb → Fm Reply) : (some <$> (fetchPcb src >>= x)) s ≠ .ok reply s' := by
    intro run
    rw [map_eq_pure_bind] at run
    obtain ⟨_, _, run, -⟩ := bind_eq_ok.mp run
    obtain ⟨_, _, fetched, -⟩ := bind_eq_ok.mp run
    unfold fetchPcb at fetched
    rw [if_neg process] at fetched
    exact throw_eq_ok.mp fetched
  cases request <;> first | exact panics _ | cases is

end DirectoriesOnly

/-! ### A plain file in the place of a directory -/

/-- A path "/a/c" goes through the plain file "/a". -/
theorem forged_through {request : Request} {c : UInt8}
    (is : request.path? = some (pathBuffer [47, 97, 47, c])) (letter : c ≠ 0 ∧ c ≠ 47) :
    ThroughPlain 1 request forgedState := by
  have root : (forgedState.pcbs 1).currentDir = 0 := by decide +kernel
  have found : outcome (readDirEntry 0 [97]) forgedState = some (some 1) := by decide +kernel
  have looked := run_of_outcome found
  have plain : HasType forgedState 1 plainType := ⟨by decide +kernel, by decide +kernel⟩
  refine ⟨_, 0, (pathBuffer [47, 97, 47, c]).tail, is, ?_,
    show (some 97 : Option UInt8) ≠ some 0 by decide, ?_⟩
  · rw [root]
    rfl
  · refine ⟨⟨[97], false, c :: List.replicate 252 0⟩, forgedState, rfl,
      .inr ⟨1, _, looked, rfl, ?_⟩⟩
    refine ⟨⟨[c], true, List.replicate 251 0⟩, lastState (readDirEntry 0 [97]) forgedState, ?_,
      .inl ⟨plain.1, ?_⟩⟩
    · unfold cut component
      rw [if_neg letter.1, if_neg letter.2]
      rfl
    · rw [disk_of_core (readDirEntry_core _ _ _ looked)]
      exact plain.2

end NjuOs.FileSystem
