/-
**A console: the screen buffer, the line being edited and the cooked input.**

`console.c`. The screen is a window of 24 rows of 80 cells that slides over a buffer of twice that
height: `scr` is the place of the window and `pos` the one of the cursor, both as indices of `vbuf`.
`w`, `h`, `wh` and `size` are set once, in `init_consl`. `lbuf` is the line that is being edited,
with the cursor at `i`; Enter copies it with its final NUL into the ring `cbuf`, from which the
reads take their bytes. `rstk` holds the reads that wait for a line, the top first.

`vbuf` is a function on all indices, the memory around the buffer included; `inside` remembers
whether every index that was read or written so far lies in the buffer. `served` lists the answered
reads in order. The keys that switch to another console only set `current_consl` and are left out,
as are the video memory and the message of the reply; `consl_sync` is here for the cells it reads.
-/

import Mathlib.Logic.Function.Basic
import Mathlib.Tactic.Common

namespace NjuOs.Drivers

/-- `LBUF_SZ`: the size of the line buffer. -/
def lbufSz : Nat := 256

/-- `CBUF_SZ`: the size of the buffer of cooked lines. -/
def cbufSz : Nat := 1024

/-- `RSTK_SZ`: the read requests that can wait. -/
def rstkSz : Nat := 16

/-- What a read asks for. -/
structure ReadRequest where
  src : Int
  reqPid : Int
  buf : Nat
  len : Int
deriving DecidableEq

/-- An answered read: the bytes it delivered, whose number is the reply, and all it took out of
`cbuf`. -/
structure Served where
  request : ReadRequest
  bytes : List UInt8
  taken : List UInt8
deriving DecidableEq

/-- `Console`: the video buffer with the cursor, the line buffer with its cursor, the ring of cooked
lines, and the reads that wait. -/
structure Console where
  vbuf : Int → UInt16
  scr : Int
  pos : Int
  lbuf : Nat → UInt8
  cbuf : Nat → UInt8
  i : Nat
  f : Nat
  r : Nat
  rstk : List ReadRequest
  served : List Served
  inside : Bool

/-- Why an operation did not end: one of the panics, a failed assertion, or a loop that left its
buffer. -/
inductive Stop where
  | lineBufferFull
  | cookedBufferFull
  | tooManyReadRequest
  | assertion
  | endless
deriving DecidableEq

namespace Console

/-! ### Cells -/

/-- A character in white on black. `char` is signed. -/
def draw (ch : UInt8) : UInt16 :=
  0x0700 ||| (if ch < 128 then ch.toUInt16 else 0xff00 ||| ch.toUInt16)

/-- The cell of a blank. -/
def blank : UInt16 := draw 32

/-- An access to cell `k` of the video buffer, which has 3840 of them. -/
def touch (k : Int) (c : Console) : Console := { c with inside := c.inside && (0 ≤ k && k < 3840) }

/-- A cell is written. -/
def set (k : Int) (cell : UInt16) (c : Console) : Console :=
  { c.touch k with vbuf := Function.update c.vbuf k cell }

/-- `vbuf[k] = vbuf[j]` -/
def copy (k j : Int) (c : Console) : Console := (c.touch j).set k (c.vbuf j)

/-! ### The screen -/

/-- The first `n` cells are overwritten by those a row further on. -/
def shiftLoop (n : Nat) (c : Console) : Console :=
  (List.range n).foldl (fun c (i : Nat) => c.copy i (i + 80)) c

/-- `n` cells from `start` on are blanked. -/
def blankLoop (start : Int) (n : Nat) (c : Console) : Console :=
  (List.range n).foldl (fun c (i : Nat) => c.set (start + i) blank) c

/-- `scrup`: one line up; at the end of the buffer the lines on the screen are moved to its start
first. -/
def scrup (c : Console) : Console :=
  let c := if c.scr + 1920 ≥ 3840 then
      let c := c.shiftLoop 3760
      { c with scr := c.scr - 80, pos := c.pos - 80 }
    else
      c
  let c := c.blankLoop (c.scr + 1920) 80
  { c with scr := c.scr + 80 }

/-- `next`: the cursor goes on, and the screen with it at its last cell. -/
def next (c : Console) : Console :=
  let c := if c.pos = c.scr + 1920 - 1 then c.scrup else c
  { c with pos := c.pos + 1 }

/-- `putc`: a character at the cursor, which stays. -/
def putc (ch : UInt8) (c : Console) : Console := c.set c.pos (draw ch)

/-- `cr`: to the start of the line. -/
def cr (c : Console) : Console := { c with pos := c.pos - c.pos.tmod 80 }

/-- `lf`: one line down, and the screen up behind the last one. -/
def lf (c : Console) : Console :=
  let c := { c with pos := c.pos + 80 }
  if c.pos ≥ c.scr + 1920 then c.scrup else c

/-- `del`: the cell before the cursor is cleared. -/
def del (c : Console) : Console := putc 32 { c with pos := c.pos - 1 }

/-- `movl`: the cursor one character to the left, if there is one. -/
def movl (c : Console) : Bool × Console :=
  if c.i ≠ 0 then (true, { c with i := c.i - 1, pos := c.pos - 1 }) else (false, c)

/-- `movr`: the cursor one character to the right, if there is one. -/
def movr (c : Console) : Bool × Console :=
  if c.lbuf c.i ≠ 0 then (true, { c with i := c.i + 1, pos := c.pos + 1 }) else (false, c)

/-- `while (mov(c));` -/
def whileMoves (mov : Console → Bool × Console) : Nat → Console → Except Stop Console
  | 0, _ => .error .endless
  | fuel + 1, c =>
    match mov c with
    | (true, c) => whileMoves mov fuel c
    | (false, c) => .ok c

/-- The cells it copies to the video memory. -/
def sync (c : Console) : Console := (c.touch c.scr).touch (c.scr + 1920 - 1)

/-- `consl_writec`: a character of a WRITE. -/
def writec (ch : UInt8) (c : Console) : Console :=
  if ch = 13 then c.cr
  else if ch = 10 then c.cr.lf
  else (c.putc ch).next

/-! ### The line -/

/-- The loop of `removec`, with `ptr` an index of `lbuf` and `scr` one of `vbuf`. -/
def removeLoop : Nat → Nat → Int → Console → Except Stop Console
  | 0, _, _, _ => .error .endless
  | fuel + 1, ptr, scr, c =>
    if c.lbuf ptr = 0 then .ok c
    else
      let c := { c with lbuf := Function.update c.lbuf ptr (c.lbuf (ptr + 1)) }
      removeLoop fuel (ptr + 1) (scr + 1) (c.copy scr (scr + 1))

/-- `removec`: the character before the cursor leaves the line, and the ones behind it move up. -/
def removec (c : Console) : Except Stop Console :=
  let c := { c with i := c.i - 1 }
  removeLoop (lbufSz + 1) c.i (c.pos - 1) c

/-- `backsp`: what is removed at the end of the line is cleared on the screen. -/
def backsp (c : Console) : Except Stop Console :=
  if c.i > 0 then do
    let c ← c.removec
    if c.lbuf c.i = 0 then return c.del else return { c with pos := c.pos - 1 }
  else
    return c

/-- The number of characters behind the cursor: the first loop of `consl_accept`. -/
def behind (c : Console) : Nat → Nat → Except Stop Nat
  | 0, _ => .error .endless
  | fuel + 1, cc => if c.lbuf (c.i + cc) = 0 then .ok cc else c.behind fuel (cc + 1)

/-- The second loop of `consl_accept`, which makes room for a character. -/
def insertLoop : Nat → Console → Except Stop Console
  | 0, c => .ok c
  | i + 1, c =>
    if c.i + (i + 1) ≥ lbufSz then .error .lineBufferFull
    else
      let c := { c with lbuf := Function.update c.lbuf (c.i + (i + 1)) (c.lbuf (c.i + i)) }
      let c := if c.pos + (i + 1 : Int) = c.scr + 1920 + 1 then c.scrup else c
      insertLoop i (c.copy (c.pos + (i + 1 : Int)) (c.pos + i))

/-- `consl_accept`: a character is put into the line at the cursor, and shown. -/
def accept (ch : UInt8) (c : Console) : Except Stop Console := do
  let cc ← c.behind (lbufSz + 1) 0
  let c ← insertLoop (cc + 1) c
  let c := (c.putc ch).next
  if c.i ≥ lbufSz then .error .lineBufferFull
  else .ok { c with lbuf := Function.update c.lbuf c.i ch, i := c.i + 1 }.sync

/-! ### Reads -/

/-- The loop of `get_cooked`: what is delivered and what is taken. -/
def cookedLoop : Nat → Int → Console → Except Stop (List UInt8 × List UInt8 × Console)
  | 0, _, _ => .error .endless
  | fuel + 1, count, c =>
    if count = 0 then .ok ([], [], c)
    else if c.cbuf c.f = 0 then .ok ([], [0], { c with f := (c.f + 1) % cbufSz })
    else do
      let (bytes, taken, c') ← cookedLoop fuel (count - 1) { c with f := (c.f + 1) % cbufSz }
      return (c.cbuf c.f :: bytes, c.cbuf c.f :: taken, c')

/-- `get_cooked`: the bytes for a request of `count`, and those that it took from the buffer. -/
def getCooked (count : Int) (c : Console) : Except Stop (List UInt8 × List UInt8 × Console) :=
  if c.f = c.r then .error .assertion else cookedLoop (cbufSz + 1) count c

/-- `read_request`: a READ is served from the cooked lines, or waits on the stack. -/
def readRequest (m : ReadRequest) (c : Console) : Except Stop Console :=
  if c.f = c.r then
    if c.rstk.length = rstkSz then .error .tooManyReadRequest
    else .ok { c with rstk := m :: c.rstk }
  else do
    let (bytes, taken, c) ← getCooked m.len c
    return { c with served := c.served ++ [⟨m, bytes, taken⟩] }

/-- The loop of `cook`, from the character at `p` on. -/
def cookLoop : Nat → Nat → Console → Except Stop Console
  | 0, _, _ => .error .endless
  | fuel + 1, p, c =>
    let c := { c with cbuf := Function.update c.cbuf c.r (c.lbuf p), r := (c.r + 1) % cbufSz }
    if c.r = c.f then .error .cookedBufferFull
    else if c.lbuf p = 0 then .ok c
    else cookLoop fuel (p + 1) c

/-- `consl_cook`: the line is cooked, and the topmost waiting READ served. -/
def cook (c : Console) : Except Stop Console := do
  let c ← cookLoop (lbufSz + 1) 0 c
  let c := { c with i := 0, lbuf := Function.update c.lbuf 0 0 }.cr.lf
  match c.rstk with
  | [] => return c
  | m :: rest => readRequest m { c with rstk := rest }

/-! ### Events -/

/-- The keys that edit the line. -/
inductive Key where
  | enter
  | delete
  | back
  | left
  | right
  | home
  | end
deriving DecidableEq

/-- What a key does, before the `consl_sync`. -/
def Key.does : Key → Console → Except Stop Console
  | .enter, c => c.cook
  | .delete, c => c.movr.2.backsp
  | .back, c => c.backsp
  | .left, c => .ok c.movl.2
  | .right, c => .ok c.movr.2
  | .home, c => whileMoves movl (lbufSz + 1) c
  | .end, c => whileMoves movr (lbufSz + 1) c

/-- `consl_feed`: a key. -/
def feed (key : Key) (c : Console) : Except Stop Console := do
  let c ← key.does c
  return c.sync

/-- The console after `init_consl`, from any content of the buffers. -/
def initConsl (c : Console) : Console :=
  let c := { c with scr := 0, pos := 0, lbuf := Function.update c.lbuf 0 0, inside := true }
  let c := c.blankLoop c.scr 1920
  { c with i := 0, f := 0, r := 0, rstk := [], served := [] }.sync

/-- What can happen to a console. `readkey` passes on only characters that are not NUL. -/
inductive Event where
  | accept (ch : UInt8) (printable : ch ≠ 0)
  | feed (key : Key)
  | read (m : ReadRequest)
  | write (ch : UInt8)
  | sync
deriving DecidableEq

/-- One message to a terminal. -/
def step (c : Console) : Event → Except Stop Console
  | .accept ch _ => c.accept ch
  | .feed key => c.feed key
  | .read m => c.readRequest m
  | .write ch => .ok (c.writec ch)
  | .sync => .ok c.sync

/-- A run, from one event to the next. -/
def run (c : Console) (events : List Event) : Except Stop Console := events.foldlM step c

end Console

end NjuOs.Drivers
