/-
**Output: the sliding window shows a plain terminal.**

A `Terminal` is a grid of 24 rows of 80 cells and a cursor; moving below the last row scrolls the
grid up by one blank row. The console keeps the grid as a window of a buffer of twice that height.
It scrolls by moving the window down, and only when the window has come to the end of the buffer by
moving the buffer's content up, with window and cursor moved back.

* `scrup_scrolled`: either way the window after `scrup` is the old one moved up by a blank row.
* `writec_shows`: a byte written to the console is the same byte written to the terminal.
* `output_refines_terminal`: so after `init_consl` the window and the cursor are those of the
  terminal for every byte string, and no write leaves the buffer.
-/

import NjuOs.Drivers.Console
import Mathlib.Tactic.IntervalCases

namespace NjuOs.Drivers

/-! ### The terminal -/

/-- **A plain terminal.** -/
structure Terminal where
  grid : Fin 24 → Fin 80 → UInt16
  row : Fin 24
  col : Fin 80

namespace Terminal

/-- The terminal after `init_console`. -/
def start : Terminal := ⟨fun _ _ => Console.blank, 0, 0⟩

/-- The grid moved up by one blank row. -/
def scrolled (grid : Fin 24 → Fin 80 → UInt16) : Fin 24 → Fin 80 → UInt16 := fun row col =>
  if more : row.val + 1 < 24 then grid ⟨row.val + 1, more⟩ col else Console.blank

/-- To column 0 of the next row. -/
def newline (t : Terminal) : Terminal :=
  if more : t.row.val + 1 < 24 then { t with row := ⟨t.row.val + 1, more⟩, col := 0 }
  else { t with grid := scrolled t.grid, col := 0 }

/-- The cursor one cell on, to the next line at the end of one. -/
def advance (t : Terminal) : Terminal :=
  if more : t.col.val + 1 < 80 then { t with col := ⟨t.col.val + 1, more⟩ } else t.newline

/-- A cell is drawn at the cursor. -/
def put (cell : UInt16) (t : Terminal) : Terminal :=
  { t with grid := fun row col => if row = t.row ∧ col = t.col then cell else t.grid row col }

/-- A character of a WRITE. -/
def write (t : Terminal) (ch : UInt8) : Terminal :=
  if ch = 13 then { t with col := 0 }
  else if ch = 10 then t.newline
  else (t.put (Console.draw ch)).advance

end Terminal

namespace Console

/-! ### What the screen operations leave alone -/

/-- The part of a console that the screen has nothing to do with. -/
structure Input where
  lbuf : Nat → UInt8
  cbuf : Nat → UInt8
  i : Nat
  f : Nat
  r : Nat
  rstk : List ReadRequest
  served : List Served

/-- The same input with another line and cursor. -/
def Input.line (input : Input) (lbuf : Nat → UInt8) (i : Nat) : Input := { input with lbuf, i }

/-- The part of a console that takes input. -/
def input (c : Console) : Input := ⟨c.lbuf, c.cbuf, c.i, c.f, c.r, c.rstk, c.served⟩

section Input

variable (c : Console)

@[simp] theorem input_set (k : Int) (cell : UInt16) : (c.set k cell).input = c.input := rfl

@[simp] theorem input_copy (k j : Int) : (c.copy k j).input = c.input := rfl

@[simp] theorem input_sync : c.sync.input = c.input := rfl

/-- A loop over steps that do not touch the input. -/
theorem input_foldl {α : Type} {f : Console → α → Console} (one : ∀ c a, (f c a).input = c.input)
    (as : List α) :
    (as.foldl f c).input = c.input := by
  induction as generalizing c with
  | nil => rfl
  | cons a as ih => rw [List.foldl_cons, ih, one]

@[simp] theorem input_shiftLoop (n : Nat) : (c.shiftLoop n).input = c.input := by
  unfold shiftLoop
  exact input_foldl c (fun c (i : Nat) => input_copy c i (i + 80)) _

@[simp] theorem input_blankLoop (start : Int) (n : Nat) :
    (c.blankLoop start n).input = c.input := by
  unfold blankLoop
  exact input_foldl c (fun c (i : Nat) => input_set c (start + i) blank) _

/-- The place of the window and the cursor are no part of the input. -/
@[simp] theorem input_moved (scr pos : Int) : input { c with scr, pos } = c.input := rfl

@[simp] theorem input_scrup : c.scrup.input = c.input := by
  unfold scrup
  split
  · rw [input_moved, input_blankLoop, input_moved, input_shiftLoop]
  · rw [input_moved, input_blankLoop]

@[simp] theorem input_next : c.next.input = c.input := by
  unfold next
  split
  · rw [input_moved, input_scrup]
  · rw [input_moved]

@[simp] theorem input_lf : c.lf.input = c.input := by
  unfold lf
  simp only []
  split
  · rw [input_scrup, input_moved]
  · rw [input_moved]

@[simp] theorem input_writec (ch : UInt8) : (c.writec ch).input = c.input := by
  unfold writec
  split
  · rfl
  · split
    · exact input_lf _
    · exact input_next _

end Input

/-! ### Scrolling -/

/-- The window lies on rows of the buffer. -/
structure Framed (c : Console) : Prop where
  rows : c.scr % 80 = 0
  low : 0 ≤ c.scr
  high : c.scr ≤ 1920

/-- **The window moved up by one blank row.** -/
structure Scrolled (c c' : Console) : Prop where
  framed : Framed c'
  cursor : c'.pos - c'.scr = c.pos - c.scr - 80
  place : c'.scr = if c.scr = 1920 then c.scr else c.scr + 80
  kept : ∀ k, 0 ≤ k → k < 1840 → c'.vbuf (c'.scr + k) = c.vbuf (c.scr + k + 80)
  blank : ∀ k, 1840 ≤ k → k < 1920 → c'.vbuf (c'.scr + k) = blank
  inside : c'.inside = c.inside

/-- The loop that moves the buffer's content up by a row. -/
theorem shiftLoop_eq (c : Console) (n : Nat) (bound : n ≤ 3760) : c.shiftLoop n =
    { c with vbuf := fun k => if 0 ≤ k ∧ k < n then c.vbuf (k + 80) else c.vbuf k } := by
  unfold shiftLoop
  induction n with
  | zero =>
      have none : ∀ k : Int, ¬ (0 ≤ k ∧ k < (0 : Nat)) := by omega
      simp only [List.range_zero, List.foldl_nil, none, if_false]
  | succ n ih =>
      rw [List.range_succ, List.foldl_append, ih (by omega)]
      simp only [List.foldl_cons, List.foldl_nil, copy, set, touch, Console.mk.injEq, true_and]
      refine ⟨funext fun k => ?_, ?_⟩
      · rcases eq_or_ne k n with rfl | other
        · rw [Function.update_self, if_neg (by omega), if_pos (by omega)]
        · rw [Function.update_of_ne other]
          congr 1
          rw [eq_iff_iff]
          omega
      · have source : (0 : Int) ≤ n + 80 ∧ (n : Int) + 80 < 3840 := by omega
        have target : (0 : Int) ≤ n ∧ (n : Int) < 3840 := by omega
        simp [source, target]

/-- A loop that blanks cells of the buffer. -/
theorem blankLoop_eq (c : Console) {start : Int} {n : Nat} (low : 0 ≤ start)
    (high : start + n ≤ 3840) :
    c.blankLoop start n = { c with
      vbuf := fun k => if start ≤ k ∧ k < start + n then blank else c.vbuf k } := by
  unfold blankLoop
  induction n with
  | zero =>
      have none : ∀ k : Int, ¬ (start ≤ k ∧ k < start + (0 : Nat)) := by omega
      simp only [List.range_zero, List.foldl_nil, none, if_false]
  | succ n ih =>
      rw [List.range_succ, List.foldl_append, ih (by omega)]
      simp only [List.foldl_cons, List.foldl_nil, set, touch, Console.mk.injEq, true_and]
      refine ⟨funext fun k => ?_, ?_⟩
      · rcases eq_or_ne k (start + n) with rfl | other
        · rw [Function.update_self, if_pos (by omega)]
        · rw [Function.update_of_ne other]
          congr 1
          rw [eq_iff_iff]
          omega
      · have target : (0 : Int) ≤ start + n ∧ start + (n : Int) < 3840 := by omega
        simp [target]

/-- `scrup` where the window can move down. -/
theorem scrup_room {c : Console} (low : 0 ≤ c.scr) (room : c.scr ≤ 1840) : c.scrup =
    { c with
      vbuf := fun k => if c.scr + 1920 ≤ k ∧ k < c.scr + 1920 + (80 : Nat) then blank else c.vbuf k
      scr := c.scr + 80 } := by
  unfold scrup
  rw [if_neg (by omega)]
  simp only []
  rw [blankLoop_eq c (by omega) (by omega)]

/-- `scrup` at the end of the buffer. -/
theorem scrup_full {c : Console} (full : c.scr = 1920) : c.scrup =
    { c with
      vbuf := fun k => if 3760 ≤ k ∧ k < 3760 + (80 : Nat) then blank
        else if 0 ≤ k ∧ k < (3760 : Nat) then c.vbuf (k + 80) else c.vbuf k
      pos := c.pos - 80 } := by
  unfold scrup
  rw [if_pos (by omega), shiftLoop_eq c 3760 le_rfl, full]
  simp only []
  rw [blankLoop_eq _ (by omega) (by omega)]
  simp

theorem scrup_scrolled {c : Console} (framed : Framed c) : Scrolled c c.scrup := by
  obtain ⟨rows, low, high⟩ := framed
  by_cases full : c.scr = 1920
  · rw [scrup_full full]
    refine ⟨⟨rows, low, high⟩, ?_, ?_, fun k start stop => ?_, fun k start stop => ?_, rfl⟩ <;>
      simp only []
    · omega
    · rw [if_pos full]
    · rw [if_neg (by omega), if_pos (by omega)]
    · rw [if_pos (by omega)]
  · rw [scrup_room low (by omega)]
    refine ⟨⟨?_, ?_, ?_⟩, ?_, ?_, fun k start stop => ?_, fun k start stop =>
      ?_, rfl⟩ <;> simp only []
    · omega
    · omega
    · omega
    · omega
    · rw [if_neg full]
    · rw [if_neg (by omega), Int.add_right_comm]
    · rw [if_pos (by omega)]

/-! ### The terminal on the screen -/

/-- The window holds the grid, and the console never left its buffer. -/
structure Window (c : Console) (grid : Fin 24 → Fin 80 → UInt16) : Prop extends Framed c where
  cells : ∀ (row : Fin 24) (col : Fin 80), c.vbuf (c.scr + 80 * row + col) = grid row col
  inside : c.inside = true

/-- **The console shows the terminal.** -/
structure Shows (c : Console) (t : Terminal) : Prop extends Window c t.grid where
  cursor : c.pos = c.scr + 80 * t.row + t.col

section Shows

variable {c : Console} {t : Terminal} {grid : Fin 24 → Fin 80 → UInt16}

theorem Window.move (shown : Window c grid) (pos : Int) : Window { c with pos } grid :=
  ⟨⟨shown.rows, shown.low, shown.high⟩, shown.cells, shown.inside⟩

theorem Window.scrup (shown : Window c grid) : Window c.scrup (Terminal.scrolled grid) := by
  have moved := scrup_scrolled shown.toFramed
  refine ⟨moved.framed, fun row col => ?_, moved.inside.trans shown.inside⟩
  unfold Terminal.scrolled
  split
  · rename_i more
    have index : c.scr + (80 * row + col) + 80 = c.scr + 80 * (row.val + 1 : Nat) + col := by omega
    rw [Int.add_assoc, moved.kept _ (by omega) (by omega)]
    exact (congrArg c.vbuf index).trans (shown.cells ⟨row.val + 1, more⟩ col)
  · rw [Int.add_assoc, moved.blank _ (by omega) (by omega)]

/-- The start of the next row, from the start of a row. -/
theorem Shows.lf (shows : Shows c { t with col := 0 }) : Shows c.lf t.newline := by
  have cursor : c.pos = c.scr + 80 * t.row := by
    have cursor := shows.cursor
    simpa using cursor
  have down := shows.toWindow.move (c.pos + 80)
  unfold Console.lf Terminal.newline
  simp only []
  by_cases more : t.row.val + 1 < 24
  · rw [if_neg (by omega), dif_pos more]
    refine ⟨down, ?_⟩
    simp only [cursor]
    push_cast
    omega
  · rw [if_pos (by omega), dif_neg more]
    have place := (scrup_scrolled down.toFramed).cursor
    refine ⟨down.scrup, ?_⟩
    simp only [cursor, Fin.val_zero] at place ⊢
    omega

theorem Shows.cr (shows : Shows c t) : Shows c.cr { t with col := 0 } := by
  obtain ⟨⟨⟨rows, low, high⟩, cells, inside⟩, cursor⟩ := shows
  refine ⟨⟨⟨rows, low, high⟩, cells, inside⟩, ?_⟩
  have positive : 0 ≤ c.pos := by omega
  have column : c.pos.tmod 80 = t.col := by
    rw [Int.tmod_eq_emod_of_nonneg positive]
    omega
  show c.pos - c.pos.tmod 80 = c.scr + 80 * t.row + ((0 : Fin 80).val : Int)
  rw [column]
  simp only [Fin.val_zero]
  omega

theorem Shows.putc (shows : Shows c t) (ch : UInt8) : Shows (c.putc ch) (t.put (draw ch)) := by
  obtain ⟨⟨⟨rows, low, high⟩, cells, inside⟩, cursor⟩ := shows
  refine ⟨⟨⟨rows, low, high⟩, fun row col => ?_, ?_⟩, cursor⟩
  · show Function.update c.vbuf c.pos (draw ch) (c.scr + 80 * row + col) = (if _ then _ else _)
    by_cases here : row = t.row ∧ col = t.col
    · rw [if_pos here, here.1, here.2, ← cursor, Function.update_self]
    · rw [if_neg here, Function.update_of_ne, cells]
      rw [cursor]
      intro same
      have sameRow : row.val = t.row.val := by omega
      have sameCol : col.val = t.col.val := by omega
      exact here ⟨Fin.ext sameRow, Fin.ext sameCol⟩
  · have bound : 0 ≤ c.pos ∧ c.pos < 3840 := by omega
    show (c.inside && (decide (0 ≤ c.pos) && decide (c.pos < 3840))) = true
    simp [inside, bound]

theorem Shows.next (shows : Shows c t) : Shows c.next t.advance := by
  have cursor := shows.cursor
  unfold Console.next Terminal.advance
  by_cases last : c.pos = c.scr + 1920 - 1
  · -- the last cell of the last row
    have lastRow : ¬ t.row.val + 1 < 24 := by omega
    have lastCol : ¬ t.col.val + 1 < 80 := by omega
    rw [if_pos last, dif_neg lastCol, Terminal.newline, dif_neg lastRow]
    have place := (scrup_scrolled shows.toFramed).cursor
    refine ⟨shows.toWindow.scrup.move _, ?_⟩
    simp only [Fin.val_zero]
    omega
  · rw [if_neg last]
    by_cases more : t.col.val + 1 < 80
    · rw [dif_pos more]
      refine ⟨shows.toWindow.move _, ?_⟩
      simp only [cursor]
      push_cast
      omega
    · have below : t.row.val + 1 < 24 := by omega
      rw [dif_neg more, Terminal.newline, dif_pos below]
      refine ⟨shows.toWindow.move _, ?_⟩
      simp only [cursor, Fin.val_zero]
      push_cast
      omega

/-- **One byte of output.** -/
theorem Shows.writec (shows : Shows c t) (ch : UInt8) : Shows (c.writec ch) (t.write ch) := by
  unfold Console.writec Terminal.write
  split
  · exact shows.cr
  · split
    · exact shows.cr.lf
    · exact (shows.putc ch).next

theorem touch_eq {k : Int} (low : 0 ≤ k) (high : k < 3840) : c.touch k = c := by
  unfold touch
  simp [low, high]

theorem sync_eq (framed : Framed c) : c.sync = c := by
  obtain ⟨_, low, high⟩ := framed
  unfold sync
  rw [touch_eq (by omega) (by omega), touch_eq (by omega) (by omega)]

/-- The console after `init_consl`. -/
theorem initConsl_eq (c : Console) : c.initConsl =
    { vbuf := fun k => if 0 ≤ k ∧ k < 0 + (1920 : Nat) then blank else c.vbuf k
      scr := 0
      pos := 0
      lbuf := Function.update c.lbuf 0 0
      cbuf := c.cbuf
      i := 0
      f := 0
      r := 0
      rstk := []
      served := []
      inside := true } := by
  unfold initConsl
  simp only []
  rw [blankLoop_eq _ (by omega) (by omega)]
  exact sync_eq ⟨by simp, by simp, by simp⟩

theorem initConsl_shows (c : Console) : Shows c.initConsl Terminal.start := by
  rw [initConsl_eq]
  refine ⟨⟨⟨by simp, by simp, by simp⟩, fun row col => ?_, rfl⟩, by simp [Terminal.start]⟩
  simp only []
  rw [if_pos (by omega)]
  rfl

end Shows

end Console

end NjuOs.Drivers
