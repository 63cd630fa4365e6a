/-
**Reading, writing and truncating the data of a file.**

`read_data`, `write_data` and `release_block` of `fm_syscall.c`: three hand-written walks over the
twelve direct slots and the one-, two- and three-level index trees of an inode. Each level is the
source's own section, with its own bounds; the innermost loops, which the source repeats word
for word, are `readLoop`, `writeLoop` and `releaseLoop` with the table they walk as a parameter.

The loops run on fuel. Every turn of a reading or writing loop moves at least one byte and every
turn of a releasing loop advances the offset, so the fuel each loop is given is never used up.
-/

import NjuOs.FileSystem.State

namespace NjuOs.FileSystem

open NjuOs.Lib

/-- Slot `i` of `inode->index`. -/
def INode.slot (inode : INode) (i : Int) : Fm UInt32 :=
  if 0 ≤ i ∧ i < 15 then pure (inode.index (Fin.ofNat 15 i.toNat)) else throw .outOfBounds

/-- Word `i` of a scratch index block. -/
def blockWord (table : Nat → UInt32) (i : Nat) : Fm UInt32 :=
  if i < 64 then pure (table i) else throw .outOfBounds

/-! ### `read_data` -/

/-- The variables of `read_data`; `readed_len` is the number of bytes delivered. -/
structure Reading where
  fileOffset : Int
  len : Int
  delivered : List UInt8

/-- `cur_read_len`: what one turn reads, up to the end of the block and of the file. -/
def curReadLen (len fileOffset size : Int) : Int :=
  let blockRest := blockSize - fileOffset.tmod blockSize
  let restSize := size - fileOffset
  let curLen := if blockRest < len then blockRest else len
  if curLen < restSize then curLen else restSize

/-- The body of every reading loop: the part of one data block that is asked for. -/
def readTurn (size : Int) (block : UInt32) (r : Reading) : Fm Reading := do
  let ramdiskOffset := block + UInt32.ofInt (r.fileOffset.tmod blockSize)
  let curLen := curReadLen r.len r.fileOffset size
  let bytes ← devRead ramdiskOffset curLen
  return {
    fileOffset := r.fileOffset + curLen
    len := r.len - curLen
    delivered := r.delivered ++ bytes }

/-- The loop of `read_data` over the direct blocks. -/
def readDirect (inode : INode) (minEnd : Int) : Nat → Reading → Fm Reading
  | 0, r => pure r
  | fuel + 1, r =>
    if r.fileOffset < minEnd ∧ 0 < r.len then do
      let block ← inode.slot (r.fileOffset.tdiv blockSize)
      let r ← readTurn inode.size block r
      readDirect inode minEnd fuel r
    else pure r

/-- The loop over the blocks of one index block. -/
def readLoop (table : Nat → UInt32) (size minEnd : Int) : Nat → Nat → Reading → Fm Reading
  | 0, _, r => pure r
  | fuel + 1, i, r =>
    if r.fileOffset < minEnd ∧ 0 < r.len then do
      let block ← blockWord table i
      let r ← readTurn size block r
      readLoop table size minEnd fuel (i + 1) r
    else pure r

/-- The loop over the second-level blocks of `index[13]`. -/
def readTwo (inode : INode) (minEnd1 : Int) : Nat → Nat → Reading → Fm Reading
  | 0, _, r => pure r
  | fuel + 1, i, r =>
    if r.fileOffset < minEnd1 ∧ 0 < r.len then do
      let indexOffset2 ← blockWord (← get).indexBlock1 i
      let block2 ← devReadBlock indexOffset2
      modify fun s => { s with indexBlock2 := block2 }
      let tempEnd := levelEnd1 + (i + 1) * indexOneSize
      let minEnd2 := if inode.size < tempEnd then inode.size else tempEnd
      let j := (r.fileOffset - (tempEnd - indexOneSize)).tdiv blockSize
      let r ← readLoop block2 inode.size minEnd2 r.len.toNat j.toNat r
      readTwo inode minEnd1 fuel (i + 1) r
    else pure r

/-- The loop over the third-level blocks below one second-level block of `index[14]`; the source
takes their addresses from `index_block1`. -/
def readThreeInner (inode : INode) (i : Nat) (minEnd2 : Int) : Nat → Nat → Reading → Fm Reading
  | 0, _, r => pure r
  | fuel + 1, j, r =>
    if r.fileOffset < minEnd2 ∧ 0 < r.len then do
      let indexOffset3 ← blockWord (← get).indexBlock1 j
      let block3 ← devReadBlock indexOffset3
      modify fun s => { s with indexBlock3 := block3 }
      let tempEnd1 := levelEnd2 + i * indexTwoSize + (j + 1) * indexOneSize
      let minEnd3 := if inode.size < tempEnd1 then inode.size else tempEnd1
      let k := (r.fileOffset - (tempEnd1 - indexOneSize)).tdiv blockSize
      let r ← readLoop block3 inode.size minEnd3 r.len.toNat k.toNat r
      readThreeInner inode i minEnd2 fuel (j + 1) r
    else pure r

/-- The outer loop of the third level. -/
def readThree (inode : INode) (minEnd1 : Int) : Nat → Nat → Reading → Fm Reading
  | 0, _, r => pure r
  | fuel + 1, i, r =>
    if r.fileOffset < minEnd1 ∧ 0 < r.len then do
      let indexOffset2 ← blockWord (← get).indexBlock1 i
      let block2 ← devReadBlock indexOffset2
      modify fun s => { s with indexBlock2 := block2 }
      let tempEnd := levelEnd2 + (i + 1) * indexTwoSize
      let minEnd2 := if inode.size < tempEnd then inode.size else tempEnd
      let j := (r.fileOffset - (tempEnd - indexTwoSize)).tdiv indexOneSize
      let r ← readThreeInner inode i minEnd2 r.len.toNat j.toNat r
      readThree inode minEnd1 fuel (i + 1) r
    else pure r

/-- The direct blocks. -/
def readLevel0 (inode : INode) (r : Reading) : Fm Reading :=
  if r.fileOffset < levelEnd0 ∧ 0 < r.len then
    let minEnd := if inode.size < levelEnd0 then inode.size else levelEnd0
    readDirect inode minEnd r.len.toNat r
  else pure r

/-- The index block in slot 12. -/
def readLevel1 (inode : INode) (r : Reading) : Fm Reading :=
  if r.fileOffset < levelEnd1 ∧ 0 < r.len then do
    let block1 ← devReadBlock (inode.index 12)
    modify fun s => { s with indexBlock1 := block1 }
    let minEnd := if inode.size < levelEnd1 then inode.size else levelEnd1
    let i := (r.fileOffset - levelEnd0).tdiv blockSize
    readLoop block1 inode.size minEnd r.len.toNat i.toNat r
  else pure r

/-- The blocks behind slot 13. -/
def readLevel2 (inode : INode) (r : Reading) : Fm Reading :=
  if r.fileOffset < levelEnd2 ∧ 0 < r.len then do
    let block1 ← devReadBlock (inode.index 13)
    modify fun s => { s with indexBlock1 := block1 }
    let minEnd1 := if inode.size < levelEnd2 then inode.size else levelEnd2
    let i := (r.fileOffset - levelEnd1).tdiv indexOneSize
    readTwo inode minEnd1 r.len.toNat i.toNat r
  else pure r

/-- The blocks behind slot 14. -/
def readLevel3 (inode : INode) (r : Reading) : Fm Reading :=
  if 0 < r.len then do
    let block1 ← devReadBlock (inode.index 14)
    modify fun s => { s with indexBlock1 := block1 }
    let minEnd1 := if inode.size < levelEnd3 then inode.size else levelEnd3
    let i := (r.fileOffset - levelEnd2).tdiv indexTwoSize
    readThree inode minEnd1 r.len.toNat i.toNat r
  else pure r

/-- `read_data`: the bytes it delivers, `readed_len` of them. The test before the last level is `>`
where the earlier ones are `>=`. -/
def readData (fileOffset : Int) (inode : INode) (len : Int) : Fm (List UInt8) := do
  let r ← readLevel0 inode { fileOffset, len, delivered := [] }
  if r.fileOffset ≥ inode.size then return r.delivered
  let r ← readLevel1 inode r
  if r.fileOffset ≥ inode.size then return r.delivered
  let r ← readLevel2 inode r
  if r.fileOffset > inode.size then return r.delivered
  let r ← readLevel3 inode r
  return r.delivered

/-! ### `write_data` -/

/-- The variables of `write_data`: the bytes of `buf` not yet written are `rest`, so `len` is their
number. -/
structure Writing where
  fileOffset : Int
  writedLen : Int
  rest : List UInt8
  inode : INode

/-- The number of bytes the next turn of a writing loop stores. -/
def Writing.curLen (w : Writing) : Int :=
  let curLen := blockSize - w.fileOffset.tmod blockSize
  if curLen < w.rest.length then curLen else w.rest.length

/-- The part every writing loop ends its turn with. -/
def writeTurn (ramdiskOffset : UInt32) (w : Writing) : Fm Writing := do
  devWrite ramdiskOffset (w.rest.take w.curLen.toNat)
  return {
    fileOffset := w.fileOffset + w.curLen
    writedLen := w.writedLen + w.curLen
    rest := w.rest.drop w.curLen.toNat
    inode := { w.inode with size := w.inode.size + w.curLen } }

/-- A write to `index[i]`. -/
def INode.setSlot (inode : INode) (i : Int) (block : UInt32) : Fm INode :=
  if 0 ≤ i ∧ i < 15 then
    pure { inode with index := Function.update inode.index (Fin.ofNat 15 i.toNat) block }
  else throw .outOfBounds

/-- At the start of a block a direct slot gets a fresh one. -/
def openDirect (w : Writing) : Fm INode :=
  if w.fileOffset.tmod blockSize = 0 then do
    let block ← getFreeBlock
    w.inode.setSlot (w.fileOffset.tdiv blockSize) block
  else pure w.inode

/-- The loop of `write_data` over the direct blocks. -/
def writeDirect : Nat → Writing → Fm Writing
  | 0, w => pure w
  | fuel + 1, w =>
    if w.fileOffset < levelEnd0 ∧ 0 < w.rest.length then do
      let inode ← openDirect w
      let block ← inode.slot (w.fileOffset.tdiv blockSize)
      let ramdiskOffset := block + UInt32.ofInt (w.fileOffset.tmod blockSize)
      let w ← writeTurn ramdiskOffset { w with inode }
      writeDirect fuel w
    else pure w

/-- A scratch index block with the flag that tells whether it has to be written back. -/
structure Table where
  words : Nat → UInt32
  dirty : Bool

/-- A write to an entry of an index block, which must be stored then. -/
def Table.set (t : Table) (i : Nat) (block : UInt32) : Fm Table :=
  if i < 64 then pure { words := Function.update t.words i block, dirty := true }
  else throw .outOfBounds

/-- The write-back of a scratch index block. -/
def Table.store (t : Table) (offset : UInt32) : Fm Unit :=
  if t.dirty then devWriteBlock offset t.words else pure ()

/-- The loop over the blocks of one index block. -/
def writeLoop (stop : Int) : Nat → Nat → Table → Writing → Fm (Table × Writing)
  | 0, _, t, w => pure (t, w)
  | fuel + 1, i, t, w =>
    if w.fileOffset < stop ∧ 0 < w.rest.length then do
      if w.fileOffset.tmod blockSize = 0 then
        let ramdiskOffset ← getFreeBlock
        let t ← t.set i ramdiskOffset
        let w ← writeTurn ramdiskOffset w
        writeLoop stop fuel (i + 1) t w
      else
        let block ← blockWord t.words i
        let w ← writeTurn (block + UInt32.ofInt (w.fileOffset.tmod blockSize)) w
        writeLoop stop fuel (i + 1) t w
    else pure (t, w)

/-- The index block of slot `slot`: a fresh one at the first byte of its level, whose scratch copy
then still holds what it held before, or the one the disk has. -/
def openTable (first : Int) (slot : Fin 15) (w : Writing) : Fm (Writing × (Nat → UInt32)) :=
  if w.fileOffset = first then do
    let block ← getFreeBlock
    let inode ← w.inode.setSlot slot block
    let words := (← get).indexBlock1
    return ({ w with inode }, words)
  else do
    let words ← devReadBlock (w.inode.index slot)
    return (w, words)

/-- The index block in slot 12. -/
def writeLevel1 (w : Writing) : Fm Writing :=
  if w.fileOffset < levelEnd1 ∧ 0 < w.rest.length then do
    let (w, words) ← openTable levelEnd0 12 w
    let indexOffset1 := w.inode.index 12
    let i := (w.fileOffset - levelEnd0).tdiv blockSize
    let (t, w) ← writeLoop levelEnd1 w.rest.length i.toNat { words, dirty := false } w
    modify fun s => { s with indexBlock1 := t.words }
    t.store indexOffset1
    return w
  else pure w

/-- The block of entry `i` of a table, its address and its words: a fresh one at its first byte,
whose scratch copy keeps what it held, or the one the disk has. -/
def openEntry (scratch : FmState → Nat → UInt32) (first : Int) (i : Nat) (t : Table) (w : Writing) :
    Fm (Table × UInt32 × (Nat → UInt32)) :=
  if w.fileOffset = first then do
    let block ← getFreeBlock
    let t ← t.set i block
    let words := scratch (← get)
    return (t, block, words)
  else do
    let block ← blockWord t.words i
    let words ← devReadBlock block
    return (t, block, words)

/-- The loop over the second-level blocks of `index[13]`. -/
def writeTwo : Nat → Nat → Table → Writing → Fm (Table × Writing)
  | 0, _, t, w => pure (t, w)
  | fuel + 1, i, t, w =>
    if w.fileOffset < levelEnd2 ∧ 0 < w.rest.length then do
      let minEnd := levelEnd1 + (i + 1) * indexOneSize
      let preEnd := minEnd - indexOneSize
      let (t, indexOffset2, words) ← openEntry FmState.indexBlock2 preEnd i t w
      let j := (w.fileOffset - preEnd).tdiv blockSize
      let (t2, w) ← writeLoop minEnd w.rest.length j.toNat { words, dirty := false } w
      modify fun s => { s with indexBlock2 := t2.words }
      t2.store indexOffset2
      writeTwo fuel (i + 1) t w
    else pure (t, w)

/-- The blocks behind slot 13. -/
def writeLevel2 (w : Writing) : Fm Writing :=
  if w.fileOffset < levelEnd2 ∧ 0 < w.rest.length then do
    let (w, words) ← openTable levelEnd1 13 w
    let indexOffset1 := w.inode.index 13
    let i := (w.fileOffset - levelEnd1).tdiv indexOneSize
    let (t, w) ← writeTwo w.rest.length i.toNat { words, dirty := false } w
    modify fun s => { s with indexBlock1 := t.words }
    t.store indexOffset1
    return w
  else pure w

/-- The loop over the third-level blocks below one second-level block of `index[14]`. -/
def writeThreeInner (i : Nat) (minEnd1 : Int) : Nat → Nat → Table → Writing → Fm (Table × Writing)
  | 0, _, t, w => pure (t, w)
  | fuel + 1, j, t, w =>
    if w.fileOffset < minEnd1 ∧ 0 < w.rest.length then do
      let minEnd2 := levelEnd2 + i * indexTwoSize + (j + 1) * indexOneSize
      let preEnd2 := minEnd2 - indexOneSize
      let (t, indexOffset3, words) ← openEntry FmState.indexBlock3 preEnd2 j t w
      let k := (w.fileOffset - preEnd2).tdiv blockSize
      let (t3, w) ← writeLoop minEnd2 w.rest.length k.toNat { words, dirty := false } w
      modify fun s => { s with indexBlock3 := t3.words }
      t3.store indexOffset3
      writeThreeInner i minEnd1 fuel (j + 1) t w
    else pure (t, w)

/-- The outer loop of the third level. -/
def writeThree : Nat → Nat → Table → Writing → Fm (Table × Writing)
  | 0, _, t, w => pure (t, w)
  | fuel + 1, i, t, w =>
    if w.fileOffset < levelEnd3 ∧ 0 < w.rest.length then do
      let minEnd1 := levelEnd2 + (i + 1) * indexTwoSize
      let preEnd1 := minEnd1 - indexTwoSize
      let (t, indexOffset2, words) ← openEntry FmState.indexBlock2 preEnd1 i t w
      let j := (w.fileOffset - preEnd1).tdiv indexOneSize
      let (t2, w) ← writeThreeInner i minEnd1 w.rest.length j.toNat { words, dirty := false } w
      modify fun s => { s with indexBlock2 := t2.words }
      t2.store indexOffset2
      writeThree fuel (i + 1) t w
    else pure (t, w)

/-- The index block of the last level; past its first byte the source takes it from `index[13]`. -/
def openLast (w : Writing) : Fm (Writing × UInt32 × (Nat → UInt32)) :=
  if w.fileOffset = levelEnd2 then do
    let block ← getFreeBlock
    let inode ← w.inode.setSlot 14 block
    let words := (← get).indexBlock1
    return ({ w with inode }, block, words)
  else do
    let words ← devReadBlock (w.inode.index 13)
    return (w, w.inode.index 13, words)

/-- The blocks behind slot 14. -/
def writeLevel3 (w : Writing) : Fm Writing :=
  if w.fileOffset < levelEnd3 ∧ 0 < w.rest.length then do
    let (w, indexOffset1, words) ← openLast w
    let i := (w.fileOffset - levelEnd2).tdiv indexTwoSize
    let (t, w) ← writeThree w.rest.length i.toNat { words, dirty := false } w
    modify fun s => { s with indexBlock1 := t.words }
    t.store indexOffset1
    return w
  else pure w

/-- `write_data`: `writed_len` and the inode as it leaves it. -/
def writeData (fileOffset : Int) (inode : INode) (buf : List UInt8) : Fm (Int × INode) := do
  let w ← writeDirect buf.length { fileOffset, writedLen := 0, rest := buf, inode }
  let w ← writeLevel1 w
  let w ← writeLevel2 w
  let w ← writeLevel3 w
  return (w.writedLen, w.inode)

/-! ### `release_block` -/

/-- An index block is given back when the offset is its first byte. -/
def releaseIndex (fileOffset first : Int) (indexOffset : UInt32) : Fm Unit :=
  if fileOffset = first then setBlockIdle indexOffset else pure ()

/-- The loop of `release_block` over the blocks of one index block. -/
def releaseLoop (table : Nat → UInt32) (minEnd : Int) : Nat → Nat → Int → Fm Int
  | 0, _, fileOffset => pure fileOffset
  | fuel + 1, i, fileOffset =>
    if fileOffset < minEnd then do
      let block ← blockWord table i
      if fileOffset.tmod blockSize = 0 then
        setBlockIdle block
        releaseLoop table minEnd fuel (i + 1) (fileOffset + blockSize)
      else
        releaseLoop table minEnd fuel (i + 1)
          (fileOffset - fileOffset.tmod blockSize + blockSize)
    else pure fileOffset

/-- The direct blocks: the source sets the offset to the end of the level before it looks at it, so
the one slot it touches is `index[12]`. -/
def releaseLevel0 (inode : INode) (fileOffset : Int) : Fm Int :=
  if fileOffset < inode.size ∧ fileOffset < levelEnd0 then do
    let fileOffset := levelEnd0
    let i := fileOffset.tdiv blockSize
    if fileOffset.tmod blockSize = 0 then
      setBlockIdle (← inode.slot i)
    return fileOffset - fileOffset.tmod blockSize + blockSize
  else pure fileOffset

/-- The index block in slot 12. -/
def releaseLevel1 (inode : INode) (fileOffset : Int) : Fm Int :=
  if fileOffset < inode.size ∧ fileOffset < levelEnd1 then do
    let indexOffset1 := inode.index 12
    let block1 ← devReadBlock indexOffset1
    modify fun s => { s with indexBlock1 := block1 }
    let minEnd := if inode.size < levelEnd1 then inode.size else levelEnd1
    let i := (fileOffset - levelEnd0).tdiv blockSize
    releaseIndex fileOffset levelEnd0 indexOffset1
    releaseLoop block1 minEnd inode.size.toNat i.toNat fileOffset
  else pure fileOffset

/-- The loop over the index blocks of the second level. -/
def releaseTwo (inode : INode) (minEnd1 : Int) : Nat → Nat → Int → Fm Int
  | 0, _, fileOffset => pure fileOffset
  | fuel + 1, i, fileOffset =>
    if fileOffset < minEnd1 then do
      let indexOffset2 ← blockWord (← get).indexBlock1 i
      let block2 ← devReadBlock indexOffset2
      modify fun s => { s with indexBlock2 := block2 }
      let tempEnd := levelEnd1 + (i + 1) * indexOneSize
      let minEnd2 := if inode.size < tempEnd then inode.size else tempEnd
      let tempEnd := tempEnd - indexOneSize
      releaseIndex fileOffset tempEnd indexOffset2
      let j := (fileOffset - tempEnd).tdiv blockSize
      let fileOffset ← releaseLoop block2 minEnd2 inode.size.toNat j.toNat fileOffset
      releaseTwo inode minEnd1 fuel (i + 1) fileOffset
    else pure fileOffset

/-- The blocks behind slot 13. -/
def releaseLevel2 (inode : INode) (fileOffset : Int) : Fm Int :=
  if fileOffset < inode.size ∧ fileOffset < levelEnd2 then do
    let indexOffset1 := inode.index 13
    let block1 ← devReadBlock indexOffset1
    modify fun s => { s with indexBlock1 := block1 }
    let minEnd1 := if inode.size < levelEnd2 then inode.size else levelEnd2
    releaseIndex fileOffset levelEnd1 indexOffset1
    let i := (fileOffset - levelEnd1).tdiv indexOneSize
    releaseTwo inode minEnd1 inode.size.toNat i.toNat fileOffset
  else pure fileOffset

/-- The third-level blocks below one second-level block of `index[14]`; the first data slot is
counted from the start of the second-level block. -/
def releaseThreeInner (inode : INode) (i : Nat) (tempEnd1 minEnd1 : Int) :
    Nat → Nat → Int → Fm Int
  | 0, _, fileOffset => pure fileOffset
  | fuel + 1, j, fileOffset =>
    if fileOffset < minEnd1 then do
      let indexOffset3 ← blockWord (← get).indexBlock2 j
      let block3 ← devReadBlock indexOffset3
      modify fun s => { s with indexBlock3 := block3 }
      let tempEnd2 := levelEnd2 + i * indexTwoSize + (j + 1) * indexOneSize
      let minEnd2 := if inode.size < tempEnd2 then inode.size else tempEnd2
      let tempEnd2 := tempEnd2 - indexOneSize
      releaseIndex fileOffset tempEnd2 indexOffset3
      let k := (fileOffset - tempEnd1).tdiv blockSize
      let fileOffset ← releaseLoop block3 minEnd2 inode.size.toNat k.toNat fileOffset
      releaseThreeInner inode i tempEnd1 minEnd1 fuel (j + 1) fileOffset
    else pure fileOffset

/-- The outer loop of the third level. -/
def releaseThree (inode : INode) : Nat → Nat → Int → Fm Int
  | 0, _, fileOffset => pure fileOffset
  | fuel + 1, i, fileOffset =>
    if fileOffset < inode.size then do
      let indexOffset2 ← blockWord (← get).indexBlock1 i
      let block2 ← devReadBlock indexOffset2
      modify fun s => { s with indexBlock2 := block2 }
      let tempEnd1 := levelEnd2 + (i + 1) * indexTwoSize
      let minEnd1 := if inode.size < tempEnd1 then inode.size else tempEnd1
      let tempEnd1 := tempEnd1 - indexTwoSize
      releaseIndex fileOffset tempEnd1 indexOffset2
      let j := (fileOffset - tempEnd1).tdiv indexOneSize
      let fileOffset ←
        releaseThreeInner inode i tempEnd1 minEnd1 inode.size.toNat j.toNat fileOffset
      releaseThree inode fuel (i + 1) fileOffset
    else pure fileOffset

/-- The blocks behind slot 14. -/
def releaseLevel3 (inode : INode) (fileOffset : Int) : Fm Int :=
  if fileOffset < inode.size then do
    let indexOffset1 := inode.index 14
    let block1 ← devReadBlock indexOffset1
    modify fun s => { s with indexBlock1 := block1 }
    releaseIndex fileOffset levelEnd2 indexOffset1
    let i := (fileOffset - levelEnd2).tdiv indexTwoSize
    releaseThree inode inode.size.toNat i.toNat fileOffset
  else pure fileOffset

/-- `release_block`: the blocks of a file from `file_offset` on. -/
def releaseBlock (inode : INode) (fileOffset : Int) : Fm Unit := do
  let fileOffset ← releaseLevel0 inode fileOffset
  let fileOffset ← releaseLevel1 inode fileOffset
  let fileOffset ← releaseLevel2 inode fileOffset
  let _ ← releaseLevel3 inode fileOffset

end NjuOs.FileSystem
