/-
**Directories: lookup, insertion, removal and recursive deletion.**

A directory's data is a sequence of 36-byte records, a NUL-terminated name in a 32-byte field
followed by the inode number. The source reads them in chunks of 252 bytes into a buffer of the
pool and compares names where they lie, so a comparison can run past the field, the record and the
buffer; the model keeps the twenty buffers as one byte store and lets `strcmp` walk it.
-/

import NjuOs.FileSystem.Data

namespace NjuOs.FileSystem

open NjuOs.Lib

/-- `(BLOCK_SIZE / sizeof(dir_entry)) * sizeof(dir_entry)`: seven records. -/
def dirChunk : Int := 252

/-- `strcmp(filename, name) == 0` for a name that lies in the buffer pool at `p`. Only the bytes up
to the first difference or NUL are read. -/
def sameName (pool : Store) : Nat → List UInt8 → Fm Bool
  | p, [] =>
    if p < 20 * blockSize then pure (pool p = 0) else throw .outOfBounds
  | p, c :: cs =>
    if p < 20 * blockSize then
      if pool p = c then sameName pool (p + 1) cs else pure false
    else throw .outOfBounds

/-- The inode number of the record at `p` in the buffer pool. -/
def entryIndex (pool : Store) (p : Nat) : Int := toInt (pool.word (p + 32))

/-- `read_data` into buffer `buf` of the pool; the number of bytes read. -/
def readIntoBuffer (buf : Nat) (offset : Int) (inode : INode) (len : Int) : Fm Int := do
  let bytes ← readData offset inode len
  modify fun s => { s with blockBufArray := s.blockBufArray.write (buf * blockSize) bytes }
  return bytes.length

/-! ### `read_dir_entry` -/

/-- The records of one chunk: the inode number of the first one that has the name. -/
def scanChunk (name : List UInt8) : Nat → Nat → Int → Fm (Option Int)
  | 0, _, _ => pure none
  | fuel + 1, p, readedLen =>
    if 0 < readedLen then do
      let pool := (← get).blockBufArray
      if ← sameName pool p name then
        return some (entryIndex pool p)
      else
        scanChunk name fuel (p + dirEntrySize) (readedLen - dirEntrySize)
    else pure none

/-- The loop of `read_dir_entry` over the chunks of a directory. -/
def scanDir (name : List UInt8) (buf : Nat) (inode : INode) : Nat → Int → Fm (Option Int)
  | 0, _ => pure none
  | fuel + 1, offset => do
    let readedLen ← readIntoBuffer buf offset inode dirChunk
    if 0 < readedLen then
      match ← scanChunk name 7 (buf * blockSize) readedLen with
      | some index => return some index
      | none => scanDir name buf inode fuel (offset + readedLen)
    else
      return none

/-- `read_dir_entry`: the inode number found, or none for a return value of `-1`. The name that
matched is copied into a `dir_entry` of 36 bytes on the stack. -/
def readDirEntry (dir : Int) (name : List UInt8) : Fm (Option Int) := do
  let dirInode ← readInodeFromDisk dir
  match ← getFreeBlockBuffer with
  | none => throw .nullPointer
  | some buf =>
    let found ← scanDir name buf dirInode (dirInode.size.toNat + 1) 0
    if found.isSome ∧ dirEntrySize ≤ name.length then
      throw .stackSmash
    freeBlockBuffer buf
    return found

/-! ### `add_inode_into_dir` -/

/-- The 36 bytes of `new_entry`: the inode number is stored first, then `strcpy` puts the name and
its NUL over the record from its start, and over the inode number if the name is longer than its
field. -/
def entryBytes (junk : Nat → UInt8) (name : List UInt8) (index : Int) : List UInt8 :=
  (List.range dirEntrySize).map fun i =>
    if i < name.length then name.getD i 0
    else if i = name.length then 0
    else if i < 32 then junk i
    else Store.wordByte (UInt32.ofInt index) (i - 32)

/-- `add_inode_into_dir`: an entry is appended, with what `name` of a stack variable held behind the
string. -/
def addInodeIntoDir (junk : Junk) (parentIndex : Int) (name : List UInt8) (index : Int) :
    Fm Unit := do
  let parentInode ← readInodeFromDisk parentIndex
  if dirEntrySize ≤ name.length then
    throw .stackSmash
  else
    let bytes := entryBytes (junk.name parentIndex name) name index
    let (_, parentInode) ← writeData parentInode.size parentInode bytes
    writeInodeToDisk parentIndex parentInode

/-! ### `remove_inode_from_dir` -/

/-- One level's address of a byte of the directory, as `_remove_inode_from_dir` computes it; the
last level takes its second-level block from whatever `index_block2` holds. -/
def removeAddr (inode : INode) (offset : Int) : Fm UInt32 := do
  if offset < levelEnd0 then
    inode.slot (offset.tdiv blockSize)
  else if offset < levelEnd1 then
    let block1 ← devReadBlock (inode.index 12)
    modify fun s => { s with indexBlock1 := block1 }
    blockWord block1 ((offset - levelEnd0).tdiv blockSize).toNat
  else if offset < levelEnd2 then
    let block1 ← devReadBlock (inode.index 13)
    modify fun s => { s with indexBlock1 := block1 }
    let indexOffset2 ← blockWord block1 ((offset - levelEnd1).tdiv indexOneSize).toNat
    let block2 ← devReadBlock indexOffset2
    modify fun s => { s with indexBlock2 := block2 }
    blockWord block2 (((offset - levelEnd1).tmod indexOneSize).tdiv blockSize).toNat
  else
    let block1 ← devReadBlock (inode.index 14)
    modify fun s => { s with indexBlock1 := block1 }
    let indexOffset2 ←
      blockWord (← get).indexBlock2 ((offset - levelEnd2).tdiv indexTwoSize).toNat
    let block2 ← devReadBlock indexOffset2
    modify fun s => { s with indexBlock2 := block2 }
    let indexOffset3 ←
      blockWord block2 (((offset - levelEnd2).tmod indexTwoSize).tdiv indexOneSize).toNat
    let block3 ← devReadBlock indexOffset3
    modify fun s => { s with indexBlock3 := block3 }
    blockWord block3
      ((((offset - levelEnd2).tmod indexTwoSize).tmod indexOneSize).tdiv blockSize).toNat

/-- The loop that writes over a part of a file. -/
def overwrite (inode : INode) : Nat → Int → List UInt8 → Fm Unit
  | 0, _, _ => pure ()
  | fuel + 1, offset, bytes =>
    if 0 < bytes.length then do
      let block ← removeAddr inode offset
      let ramdiskOffset := block + UInt32.ofInt (offset.tmod blockSize)
      let curLen := blockSize - offset.tmod blockSize
      let curLen := if curLen < bytes.length then curLen else bytes.length
      devWrite ramdiskOffset (bytes.take curLen.toNat)
      overwrite inode fuel (offset + curLen) (bytes.drop curLen.toNat)
    else pure ()

/-- `_remove_inode_from_dir`: the last record goes where the removed one was. What `read_data` does
not fill of `last_dir` keeps the bytes the stack held. -/
def moveLastEntry (lastDir : Nat → UInt8) (inode : INode) (position : Nat) : Fm Unit := do
  let bytes ← readData (inode.size - dirEntrySize) inode dirEntrySize
  releaseBlock inode (inode.size - dirEntrySize)
  let last := (List.range dirEntrySize).map fun i => if i < bytes.length then bytes.getD i 0
    else lastDir i
  overwrite inode dirEntrySize (position * dirEntrySize) last

/-- The records of one chunk of `remove_inode_from_dir`: how many were passed over before the one
with the name, or none of them with what is left of `readed_len`. -/
def removeChunk (name : List UInt8) : Nat → Nat → Int → Nat → Fm (Nat × Option Int)
  | 0, _, readedLen, position => pure (position, some readedLen)
  | fuel + 1, p, readedLen, position =>
    if 0 < readedLen then do
      if ← sameName (← get).blockBufArray p name then
        return (position, none)
      else
        removeChunk name fuel (p + dirEntrySize) (readedLen - dirEntrySize) (position + 1)
    else pure (position, some readedLen)

/-- The scan of `remove_inode_from_dir`. The offset is advanced by what the record loop has left of
`readed_len`, not by what was read, so a name beyond the first chunk is never reached. -/
def removeScan (name : List UInt8) (buf : Nat) (inode : INode) : Nat → Int → Nat → Fm (Option Nat)
  | 0, _, _ => throw .hang
  | fuel + 1, offset, position => do
    let readedLen ← readIntoBuffer buf offset inode dirChunk
    if 0 < readedLen then
      match ← removeChunk name 7 (buf * blockSize) readedLen position with
      | (position, none) => return some position
      | (position, some left) => removeScan name buf inode fuel (offset + left) position
    else
      return none

/-- `remove_inode_from_dir`: the last entry takes the place of the removed one. -/
def removeInodeFromDir (junk : Junk) (parentIndex : Int) (name : List UInt8) : Fm Unit := do
  let dirInode ← readInodeFromDisk parentIndex
  match ← getFreeBlockBuffer with
  | none => throw .nullPointer
  | some buf =>
    match ← removeScan name buf dirInode blockSize 0 0 with
    | some position =>
      moveLastEntry (junk.name parentIndex name) dirInode position
      writeInodeToDisk parentIndex { dirInode with size := dirInode.size - dirEntrySize }
      freeBlockBuffer buf
    | none => freeBlockBuffer buf

/-! ### Recursive deletion -/

/-- `_delete_file_by_inode`: blocks and inode are free. -/
def deleteFileByInode (index : Int) (inode : INode) : Fm Unit := do
  releaseBlock inode 0
  releaseDiskInode index

/-- The name ".". -/
def dot : List UInt8 := [46]

/-- The name "..". -/
def dotDot : List UInt8 := [46, 46]

/-- The records of one chunk of `_delete_dir_by_inode`; `again` is the recursive call. -/
def deleteChunk (again : Int → INode → Fm Unit) : Nat → Nat → Int → Fm Unit
  | 0, _, _ => pure ()
  | fuel + 1, p, readedLen =>
    if 0 < readedLen then do
      let isDot ← sameName (← get).blockBufArray p dot
      if isDot then
        deleteChunk again fuel (p + dirEntrySize) (readedLen - dirEntrySize)
      else
        let isDotDot ← sameName (← get).blockBufArray p dotDot
        if isDotDot then
          deleteChunk again fuel (p + dirEntrySize) (readedLen - dirEntrySize)
        else
          let curIndex := entryIndex (← get).blockBufArray p
          let curInode ← readInodeFromDisk curIndex
          again curIndex curInode
          deleteChunk again fuel (p + dirEntrySize) (readedLen - dirEntrySize)
    else pure ()

/-- The loop of `_delete_dir_by_inode` over the chunks of a directory. -/
def deleteChunks (again : Int → INode → Fm Unit) (buf : Nat) (inode : INode) : Nat → Int → Fm Unit
  | 0, _ => pure ()
  | fuel + 1, offset => do
    let readedLen ← readIntoBuffer buf offset inode dirChunk
    if 0 < readedLen then
      deleteChunk again 7 (buf * blockSize) readedLen
      deleteChunks again buf inode fuel (offset + readedLen)

/-- `_delete_dir_by_inode`. Every level of the recursion holds one of the twenty buffers, so it is
at most twenty-one directories deep before it works with a null buffer. -/
def deleteDirByInode : Nat → Int → INode → Fm Unit
  | 0, _, _ => throw .nullPointer
  | fuel + 1, index, inode => do
    if inode.type = plainType then
      deleteFileByInode index inode
    else
      match ← getFreeBlockBuffer with
      | none => throw .nullPointer
      | some buf =>
        deleteChunks (deleteDirByInode fuel) buf inode (inode.size.toNat + 1) 0
        freeBlockBuffer buf
        deleteFileByInode index inode

end NjuOs.FileSystem
