/-
**Input: the line editor and the stream of lines.**

`Editor` is a pure line editor: the characters before the cursor, those behind it, and the lines
entered so far. The console keeps the line in `lbuf` and moves characters in place; Enter appends
the line and a NUL to the ring `cbuf`, and each read takes bytes off its front.

* `Matches c e`: `lbuf` and `i` are the editor's text and cursor, and what the reads have taken
  followed by what is still in the ring is the lines entered so far, each with its NUL.
* `Matches.step`: every event keeps the two in step, with Delete as the console has it: `consl_feed`
  moves right if it can and then rubs out to the left in any case (`Editor.rightBack`).
* A pure editor's Delete does nothing at the end of the line. `terminal_input`: the console is in
  step with the pure editor in all states of a run exactly if Delete is never pressed at the end of
  a line that is not empty.
-/

import NjuOs.Drivers.Screen
import NjuOs.Lib.Buffer
import Mathlib.Data.List.Induction

namespace NjuOs.Drivers

open NjuOs.Lib

/-! ### The pure line editor -/

/-- A line with a cursor in it, and the lines that were entered before. -/
structure Editor where
  before : List UInt8
  after : List UInt8
  lines : List (List UInt8)

namespace Editor

/-- Nothing has been typed. -/
def start : Editor := ⟨[], [], []⟩

/-- The line as it is shown. -/
def text (e : Editor) : List UInt8 := e.before ++ e.after

/-- A character at the cursor. -/
def type (ch : UInt8) (e : Editor) : Editor := { e with before := e.before ++ [ch] }

/-- The character before the cursor goes. -/
def back (e : Editor) : Editor := { e with before := e.before.dropLast }

/-- Delete takes the character behind the cursor, if there is one. -/
def delete (e : Editor) : Editor := { e with after := e.after.tail }

/-- The cursor over the character before it. -/
def left (e : Editor) : Editor :=
  match e.before.getLast? with
  | none => e
  | some ch => { e with before := e.before.dropLast, after := ch :: e.after }

/-- The cursor over the character behind it. -/
def right (e : Editor) : Editor :=
  match e.after with
  | [] => e
  | ch :: after => { e with before := e.before ++ [ch], after }

/-- The cursor to the start of the line. -/
def home (e : Editor) : Editor := { e with before := [], after := e.text }

/-- The cursor to its end. -/
def toEnd (e : Editor) : Editor := { e with before := e.text, after := [] }

/-- The line is entered, wherever the cursor is. -/
def enter (e : Editor) : Editor := ⟨[], [], e.lines ++ [e.text]⟩

/-- The Delete of the console. -/
def rightBack (e : Editor) : Editor := e.right.back

/-- One event, with a given meaning of Delete. Reads and output are no business of the editor. -/
def step (delete : Editor → Editor) (e : Editor) : Console.Event → Editor
  | .accept ch _ => e.type ch
  | .feed .enter => e.enter
  | .feed .delete => delete e
  | .feed .back => e.back
  | .feed .left => e.left
  | .feed .right => e.right
  | .feed .home => e.home
  | .feed .end => e.toEnd
  | .read _ | .write _ | .sync => e

/-- The editor after some events. -/
def run (events : List Console.Event) : Editor := events.foldl (step delete) start

end Editor

/-- What a read was owed: it stops after its count, or on the NUL it takes and does not deliver. -/
structure Served.Proper (s : Served) : Prop where
  plain : 0 ∉ s.bytes
  stops : s.taken = s.bytes ∧ s.bytes.length = s.request.len ∨
    s.taken = s.bytes ++ [0] ∧ (s.request.len < 0 ∨ s.bytes.length < s.request.len)

namespace Console

/-! ### The two in step -/

/-- `lbuf` and `i` are the text and the cursor. -/
structure Edits (c : Console) (e : Editor) : Prop where
  line : Stored 0 c.lbuf e.text
  cursor : c.i = e.before.length
  short : e.text.length < lbufSz

/-- The stream of the lines, each with its NUL. -/
def stream (lines : List (List UInt8)) : List UInt8 := lines.flatMap (· ++ [0])

/-- What the reads took and what is left make up the stream. -/
structure Cooked (c : Console) (lines : List (List UInt8)) (pending : List UInt8) : Prop where
  ring : Fifo cbufSz c.cbuf c.f c.r pending
  stream : c.served.flatMap Served.taken ++ pending = stream lines
  proper : ∀ s ∈ c.served, s.Proper

/-- **The console and the editor in step.** -/
structure Matches (c : Console) (e : Editor) : Prop where
  edits : Edits c e
  cooked : ∃ pending, Cooked c e.lines pending

section Frame

variable {c c' : Console} {e : Editor} {lines : List (List UInt8)} {pending : List UInt8}

theorem Edits.frame (edits : Edits c e) (same : c'.input = c.input) : Edits c' e := by
  have lbuf : c'.lbuf = c.lbuf := congrArg Input.lbuf same
  have i : c'.i = c.i := congrArg Input.i same
  exact ⟨lbuf ▸ edits.line, i.trans edits.cursor, edits.short⟩

/-- The cooked input and the reads are the same. -/
structure SameCooked (c c' : Console) : Prop where
  cbuf : c'.cbuf = c.cbuf
  f : c'.f = c.f
  r : c'.r = c.r
  served : c'.served = c.served

theorem SameCooked.of_line {lbuf : Nat → UInt8} {i : Nat} (same : c'.input = c.input.line lbuf i) :
    SameCooked c c' :=
  ⟨congrArg Input.cbuf same, congrArg Input.f same, congrArg Input.r same,
    congrArg Input.served same⟩

theorem Cooked.frame (cooked : Cooked c lines pending) (same : SameCooked c c') :
    Cooked c' lines pending := by
  obtain ⟨ring, stream, proper⟩ := cooked
  refine ⟨?_, ?_, ?_⟩
  · rw [same.cbuf, same.f, same.r]
    exact ring
  · rw [same.served]
    exact stream
  · rw [same.served]
    exact proper

/-- An event that edits the line only. -/
theorem Matches.edit (inStep : Matches c e) {e' : Editor} (edits : Edits c' e')
    (same : SameCooked c c') (lines : e'.lines = e.lines) : Matches c' e' := by
  obtain ⟨_, pending, cooked⟩ := inStep
  exact ⟨edits, pending, lines ▸ cooked.frame same⟩

theorem Matches.frame (inStep : Matches c e) (same : c'.input = c.input) : Matches c' e :=
  inStep.edit (inStep.edits.frame same)
    (.of_line (show c'.input = c.input.line c.lbuf c.i from same)) rfl

end Frame

/-! ### Putting a character in -/

section Insert

variable {c c' : Console} {e : Editor}

theorem behind_rest (edits : Edits c e) {fuel cc : Nat} (inside : cc ≤ e.after.length)
    (enough : e.after.length < fuel + cc) :
    c.behind fuel cc = .ok e.after.length := by
  induction fuel generalizing cc with
  | zero => omega
  | succ fuel ih =>
      have size : e.text.length = e.before.length + e.after.length := List.length_append
      unfold behind
      by_cases last : cc = e.after.length
      · have stop : c.lbuf (c.i + cc) = 0 := by
          rw [edits.cursor, last, ← size]
          exact edits.line.stop
        rw [if_pos stop, last]
      · have more : c.lbuf (c.i + cc) ≠ 0 := by
          rw [edits.cursor]
          exact edits.line.ne_nul (by omega)
        rw [if_neg more]
        exact ih (by omega) (by omega)

/-- The first loop of `consl_accept` counts the characters behind the cursor. -/
theorem behind_eq (edits : Edits c e) : c.behind (lbufSz + 1) 0 = .ok e.after.length := by
  have short := edits.short
  rw [Editor.text, List.length_append] at short
  exact behind_rest edits (Nat.zero_le _) (by omega)

/-- The second loop moves `n` characters up. -/
theorem insertLoop_input (n : Nat) (c : Console) : if n = 0 ∨ c.i + n < lbufSz then
      ∃ c', insertLoop n c = .ok c' ∧ c'.input =
        c.input.line (fun k => if c.i < k ∧ k ≤ c.i + n then c.lbuf (k - 1) else c.lbuf k) c.i
    else insertLoop n c = .error .lineBufferFull := by
  induction n generalizing c with
  | zero =>
      rw [if_pos (.inl rfl)]
      have none : ∀ k, ¬ (c.i < k ∧ k ≤ c.i + 0) := by omega
      refine ⟨c, rfl, ?_⟩
      simp only [none, if_false]
      rfl
  | succ n ih =>
      unfold insertLoop
      by_cases full : c.i + (n + 1) ≥ lbufSz
      · rw [if_neg (by omega), if_pos full]
      · rw [if_pos (.inr (by omega)), if_neg full]
        simp only []
        -- the loop goes on from a console with this input, wherever its window is
        have rest : ∀ d : Console,
            d.input = c.input.line (Function.update c.lbuf (c.i + (n + 1)) (c.lbuf (c.i + n))) c.i →
            ∃ c', insertLoop n d = .ok c' ∧ c'.input =
              c.input.line (fun k => if c.i < k ∧ k ≤ c.i + (n + 1) then c.lbuf (k - 1)
                else c.lbuf k) c.i := by
          intro d same
          have i : d.i = c.i := congrArg Input.i same
          have lbuf : d.lbuf = Function.update c.lbuf (c.i + (n + 1)) (c.lbuf (c.i + n)) :=
            congrArg Input.lbuf same
          have done := ih d
          rw [if_pos (.inr (by omega))] at done
          obtain ⟨c', ran, input⟩ := done
          refine ⟨c', ran, input.trans ?_⟩
          rw [same, i, lbuf]
          refine congrArg (c.input.line · c.i) (funext fun k => ?_)
          by_cases moved : c.i < k ∧ k ≤ c.i + n
          · rw [if_pos moved, if_pos (by omega), Function.update_of_ne (by omega)]
          · rw [if_neg moved]
            rcases eq_or_ne k (c.i + (n + 1)) with rfl | other
            · rw [Function.update_self, if_pos (by omega)]
              rfl
            · rw [Function.update_of_ne other, if_neg (by omega)]
        apply rest
        split
        · rw [input_copy, input_scrup]
          rfl
        · rw [input_copy]
          rfl

/-- **A character key.** -/
theorem accept_input (edits : Edits c e) (ch : UInt8) (printable : ch ≠ 0) :
    if e.text.length + 1 < lbufSz then ∃ c', c.accept ch = .ok c' ∧ Edits c' (e.type ch) ∧
    SameCooked c c'
      else c.accept ch = .error .lineBufferFull := by
  have cursor := edits.cursor
  have size : e.text.length = e.before.length + e.after.length := List.length_append
  have looped := insertLoop_input (e.after.length + 1) c
  unfold accept
  rw [behind_eq edits]
  by_cases room : e.text.length + 1 < lbufSz
  · rw [if_pos room]
    rw [if_pos (.inr (by omega))] at looped
    obtain ⟨d, ran, input⟩ := looped
    have drawn : (d.putc ch).next.input = d.input := by rw [input_next, putc, input_set]
    generalize shape : (d.putc ch).next = d' at drawn
    have i : d'.i = c.i := congrArg Input.i (drawn.trans input)
    have lbuf : d'.lbuf = fun k => if c.i < k ∧ k ≤ c.i + (e.after.length + 1) then c.lbuf (k - 1)
      else c.lbuf k :=
      congrArg Input.lbuf (drawn.trans input)
    have bound : ¬ d'.i ≥ lbufSz := by omega
    refine ⟨{ d' with lbuf := Function.update d'.lbuf d'.i ch, i := d'.i + 1 }.sync, ?_,
      ⟨?_, ?_, ?_⟩, ?_⟩
    · simp only [ran, shape, Except.bind, bind, bound, if_false]
    · show Stored 0 (Function.update d'.lbuf d'.i ch) ((e.before ++ [ch]) ++ e.after)
      rw [List.append_assoc, List.singleton_append, i, lbuf, cursor]
      refine edits.line.insert printable (fun k low => ?_) ?_ fun k low high => ?_
      · rw [Function.update_of_ne (by omega), if_neg (by omega)]
      · rw [Function.update_self]
      · have high : k ≤ e.text.length := high
        rw [Function.update_of_ne (by omega), if_pos (by omega), Nat.add_sub_cancel]
    · show d'.i + 1 = (e.before ++ [ch]).length
      rw [i, cursor, List.length_append, List.length_singleton]
    · show ((e.before ++ [ch]) ++ e.after).length < lbufSz
      simp only [List.length_append, List.length_singleton]
      omega
    · have same : SameCooked c d' := .of_line (drawn.trans input)
      exact ⟨same.cbuf, same.f, same.r, same.served⟩
  · rw [if_neg room]
    rw [if_neg (by omega)] at looped
    simp only [looped, Except.bind, bind]

end Insert

/-! ### Taking a character out -/

section Remove

variable {c c' : Console} {e : Editor}

/-- The loop of `removec` moves the characters up to the end of the line down. -/
theorem removeLoop_input {n fuel ptr : Nat} (enough : n < fuel + ptr) (inside : ptr ≤ n) (scr : Int)
    {c : Console} (more : ∀ k, ptr ≤ k → k < n → c.lbuf k ≠ 0) (stop : c.lbuf n = 0) :
    ∃ c', removeLoop fuel ptr scr c = .ok c' ∧ c'.input =
      c.input.line (fun k => if ptr ≤ k ∧ k < n then c.lbuf (k + 1) else c.lbuf k) c.i := by
  induction fuel generalizing ptr scr c with
  | zero => omega
  | succ fuel ih =>
      unfold removeLoop
      by_cases last : ptr = n
      · have none : ∀ k, ¬ (ptr ≤ k ∧ k < n) := by omega
        rw [if_pos (last ▸ stop)]
        refine ⟨c, rfl, ?_⟩
        simp only [none, if_false]
        rfl
      · rw [if_neg (more ptr le_rfl (by omega))]
        simp only []
        obtain ⟨c', ran, input⟩ := ih (show n < fuel + (ptr + 1) by omega) (by omega) (scr + 1)
          (c := copy scr (scr + 1) { c with lbuf := Function.update c.lbuf ptr (c.lbuf (ptr + 1)) })
          (fun k low high => by
            show Function.update c.lbuf ptr (c.lbuf (ptr + 1)) k ≠ 0
            rw [Function.update_of_ne (by omega)]
            exact more k (by omega) high)
          (by
            show Function.update c.lbuf ptr (c.lbuf (ptr + 1)) n = 0
            rw [Function.update_of_ne (Ne.symm last)]
            exact stop)
        refine ⟨c', ran, input.trans ?_⟩
        refine congrArg (c.input.line · c.i) (funext fun k => ?_)
        show (if ptr + 1 ≤ k ∧ k < n then Function.update c.lbuf ptr (c.lbuf (ptr + 1)) (k + 1)
          else Function.update c.lbuf ptr (c.lbuf (ptr + 1)) k) = _
        by_cases moved : ptr + 1 ≤ k ∧ k < n
        · rw [if_pos moved, if_pos (by omega), Function.update_of_ne (by omega)]
        · rw [if_neg moved]
          rcases eq_or_ne k ptr with rfl | other
          · rw [if_pos (by omega), Function.update_self]
          · rw [if_neg (by omega), Function.update_of_ne other]

/-- **Backspace.** -/
theorem backsp_input (edits : Edits c e) : ∃ c', c.backsp = .ok c' ∧ Edits c' e.back ∧
    SameCooked c c' := by
  have cursor := edits.cursor
  have line := edits.line
  have short := edits.short
  unfold backsp
  rcases List.eq_nil_or_concat e.before with none | ⟨init, ch, shape⟩
  · rw [none] at cursor
    rw [if_neg (by rw [cursor]; exact Nat.lt_irrefl 0)]
    refine ⟨c, rfl, ?_, ⟨rfl, rfl, rfl, rfl⟩⟩
    have same : e.back = e := by
      unfold Editor.back
      rw [none]
      exact congrArg (fun before => Editor.mk before e.after e.lines) none.symm
    rw [same]
    exact edits
  · rw [List.concat_eq_append] at shape
    have text : e.text = init ++ ch :: e.after := by simp [Editor.text, shape]
    have size : e.text.length = init.length + e.after.length + 1 := by
      rw [text, List.length_append, List.length_cons]
      omega
    rw [shape, List.length_append, List.length_singleton] at cursor
    rw [if_pos (by omega)]
    unfold removec
    obtain ⟨d, ran, input⟩ :=
      removeLoop_input (show e.text.length < lbufSz + 1 + (c.i - 1) by omega)
      (by omega) (c.pos - 1) (c := { c with i := c.i - 1 })
      (fun k _ high => line.ne_nul high) line.stop
    have i : d.i = init.length := (congrArg Input.i input).trans (by show c.i - 1 = _; omega)
    have lbuf : d.lbuf = fun k => if c.i - 1 ≤ k ∧ k < e.text.length then c.lbuf (k + 1)
      else c.lbuf k :=
      congrArg Input.lbuf input
    have edited : Edits d e.back := by
      have shorter : e.back.text = init ++ e.after := by simp [Editor.back, Editor.text, shape]
      refine ⟨?_, ?_, ?_⟩
      · rw [shorter, lbuf]
        rw [text] at line
        refine line.remove (fun k low => ?_) fun k low high => ?_
        · rw [if_neg (by omega)]
        · rw [List.length_append] at high
          rw [if_pos (by omega)]
      · rw [i]
        simp [Editor.back, shape]
      · rw [shorter, List.length_append]
        omega
    have same : SameCooked c d := .of_line (show d.input = c.input.line _ (c.i - 1) from input)
    simp only [ran, Except.bind, bind, pure, Except.pure]
    split
    · refine ⟨d.del, rfl, edited.frame rfl, ⟨same.cbuf, same.f, same.r, same.served⟩⟩
    · refine ⟨{ d with pos := d.pos - 1 }, rfl, edited.frame rfl,
        ⟨same.cbuf, same.f, same.r, same.served⟩⟩

end Remove

/-! ### Moving the cursor -/

section Move

variable {c c' : Console} {e : Editor}

/-- The state after some moves to the left or right: only `i` and `pos` differ. -/
theorem movl_input (edits : Edits c e) : Edits c.movl.2 e.left ∧ SameCooked c c.movl.2 ∧
    (c.movl.1 = true ↔ e.before ≠ []) := by
  have cursor := edits.cursor
  unfold movl Editor.left
  rcases List.eq_nil_or_concat e.before with none | ⟨init, ch, shape⟩
  · rw [none] at cursor
    rw [if_neg (by rw [cursor]; simp), none]
    exact ⟨edits, ⟨rfl, rfl, rfl, rfl⟩, by simp⟩
  · rw [List.concat_eq_append] at shape
    have text : e.text = init ++ ch :: e.after := by simp [Editor.text, shape]
    rw [shape, List.length_append, List.length_singleton] at cursor
    rw [if_pos (by omega), shape, List.getLast?_concat, List.dropLast_concat]
    refine ⟨⟨?_, ?_, ?_⟩, ⟨rfl, rfl, rfl, rfl⟩, by simp⟩
    · show Stored 0 c.lbuf (init ++ ch :: e.after)
      rw [← text]
      exact edits.line
    · show c.i - 1 = init.length
      omega
    · show (init ++ ch :: e.after).length < lbufSz
      rw [← text]
      exact edits.short

theorem movr_input (edits : Edits c e) : Edits c.movr.2 e.right ∧ SameCooked c c.movr.2 ∧
    (c.movr.1 = true ↔ e.after ≠ []) := by
  have cursor := edits.cursor
  have stop : c.lbuf e.before.length = 0 ↔ e.after = [] := edits.line.eq_nul_iff
  rw [← cursor] at stop
  unfold movr Editor.right
  cases shape : e.after with
  | nil =>
      rw [if_neg (by rw [stop.mpr shape]; simp)]
      exact ⟨edits, ⟨rfl, rfl, rfl, rfl⟩, by simp⟩
  | cons ch after =>
      have more : c.lbuf c.i ≠ 0 := fun nul => by
        rw [stop.mp nul] at shape
        cases shape
      have text : (e.before ++ [ch]) ++ after = e.text := by simp [Editor.text, shape]
      rw [if_pos more]
      refine ⟨⟨?_, ?_, ?_⟩, ⟨rfl, rfl, rfl, rfl⟩, by simp⟩
      · show Stored 0 c.lbuf ((e.before ++ [ch]) ++ after)
        rw [text]
        exact edits.line
      · show c.i + 1 = (e.before ++ [ch]).length
        rw [cursor, List.length_append, List.length_singleton]
      · show ((e.before ++ [ch]) ++ after).length < lbufSz
        rw [text]
        exact edits.short

theorem SameCooked.trans {c'' : Console} (first : SameCooked c c') (second : SameCooked c' c'') :
    SameCooked c c'' :=
  ⟨second.cbuf.trans first.cbuf, second.f.trans first.f, second.r.trans first.r,
    second.served.trans first.served⟩

/-- Moves in one direction, up to the end of the line: `t` is what is still ahead. -/
theorem whileMoves_input {mov : Console → Bool × Console} {go final : Editor → Editor}
    {t : Editor → List UInt8}
    (moves : ∀ {c e}, Edits c e → Edits (mov c).2 (go e) ∧ SameCooked c (mov c).2 ∧
      ((mov c).1 = true ↔ t e ≠ [])) (shorter : ∀ e, t e ≠ [] → (t (go e)).length < (t e).length)
    (stays : ∀ e, t e = [] → go e = final e) (along : ∀ e, final (go e) = final e) {fuel : Nat}
    (edits : Edits c e) (enough : (t e).length < fuel) :
    ∃ c', whileMoves mov fuel c = .ok c' ∧ Edits c' (final e) ∧ SameCooked c c' := by
  induction fuel generalizing c e with
  | zero => omega
  | succ fuel ih =>
      obtain ⟨moved, same, goes⟩ := moves edits
      unfold whileMoves
      cases result : mov c with
      | mk on d =>
          rw [result] at moved same goes
          simp only at moved same goes ⊢
          cases on with
          | false =>
              have last : t e = [] := by
                by_contra more
                exact Bool.false_ne_true (goes.mpr more)
              exact ⟨d, rfl, stays e last ▸ moved, same⟩
          | true =>
              have less := shorter e (goes.mp rfl)
              obtain ⟨c', ran, done, more⟩ := ih moved (by omega)
              exact ⟨c', ran, along e ▸ done, same.trans more⟩

theorem left_concat (before after : List UInt8) (ch : UInt8) (lines : List (List UInt8)) :
    Editor.left ⟨before ++ [ch], after, lines⟩ = ⟨before, ch :: after, lines⟩ := by
  simp [Editor.left]

/-- **Home.** -/
theorem home_input (edits : Edits c e) :
    ∃ c', whileMoves movl (lbufSz + 1) c = .ok c' ∧ Edits c' e.home ∧ SameCooked c c' := by
  have short := edits.short
  rw [Editor.text, List.length_append] at short
  refine whileMoves_input (t := Editor.before) movl_input (fun e more => ?_)
    (fun e none => ?_) (fun e => ?_)
    edits (by omega)
  all_goals
    obtain ⟨before, after, lines⟩ := e
    rcases List.eq_nil_or_concat before with rfl | ⟨init, ch, rfl⟩
  · exact absurd rfl more
  · rw [List.concat_eq_append, left_concat]
    simp
  · rfl
  · simp at none
  · rfl
  · rw [List.concat_eq_append, left_concat]
    simp [Editor.home, Editor.text]

/-- **End.** -/
theorem toEnd_input (edits : Edits c e) :
    ∃ c', whileMoves movr (lbufSz + 1) c = .ok c' ∧ Edits c' e.toEnd ∧ SameCooked c c' := by
  have short := edits.short
  rw [Editor.text, List.length_append] at short
  refine whileMoves_input (t := Editor.after) movr_input (fun e more => ?_)
    (fun e none => ?_) (fun e => ?_)
    edits (by omega)
  all_goals
    obtain ⟨before, after, lines⟩ := e
    cases after
  · exact absurd rfl more
  · simp [Editor.right]
  · simp [Editor.right, Editor.toEnd, Editor.text]
  · cases none
  · rfl
  · simp [Editor.right, Editor.toEnd, Editor.text]

end Move

/-! ### Lines and reads -/

section Read

variable {c c' : Console} {e : Editor} {lines : List (List UInt8)} {pending text : List UInt8}
  {m : ReadRequest}

/-- The loop of `cook` appends the line from `p` on, and its NUL, to the ring. -/
theorem cookLoop_spec {fuel p : Nat} {c : Console} (line : Stored 0 c.lbuf text)
    (inside : p ≤ text.length) (enough : text.length < fuel + p)
    (ring : Fifo cbufSz c.cbuf c.f c.r pending) :
    (∃ cbuf r, cookLoop fuel p c = .ok { c with cbuf, r } ∧
      Fifo cbufSz cbuf c.f r (pending ++ (text.drop p ++ [0]))) ∨
      cookLoop fuel p c = .error .cookedBufferFull := by
  induction fuel generalizing p c pending with
  | zero => omega
  | succ fuel ih =>
      unfold cookLoop
      simp only []
      by_cases full : (c.r + 1) % cbufSz = c.f
      · rw [if_pos full]
        exact .inr rfl
      · have room := ring.room
        have more : pending.length + 1 < cbufSz := by
          have notFull := ring.full_iff.not.mp full
          omega
        have pushed := ring.push more (c.lbuf p)
        rw [if_neg full]
        by_cases last : p = text.length
        · subst last
          rw [line.stop] at pushed ⊢
          rw [if_pos rfl, List.drop_length]
          exact .inl ⟨_, _, rfl, pushed⟩
        · have here : p < text.length := by omega
          have ch : c.lbuf p = text[p] := by
            rw [line.holds p inside, List.getElem?_eq_getElem here]
            rfl
          rw [if_neg (line.ne_nul here)]
          rcases ih (p := p + 1)
            (c := { c with cbuf := Function.update c.cbuf c.r (c.lbuf p), r := (c.r + 1) % cbufSz })
            line here
            (by omega) pushed with ⟨cbuf, r, ran, ring⟩ | error
          · refine .inl ⟨cbuf, r, ran, ?_⟩
            rw [List.drop_eq_getElem_cons here, ← ch]
            simpa using ring
          · exact .inr error

/-- The loop of `get_cooked`, from a ring that holds a NUL. -/
theorem cookedLoop_spec {fuel : Nat} (count : Int) {c : Console} (enough : pending.length < fuel)
    (ring : Fifo cbufSz c.cbuf c.f c.r pending) (ends : 0 ∈ pending) :
    ∃ bytes taken f left, cookedLoop fuel count c = .ok (bytes, taken, { c with f }) ∧
    pending = taken ++ left ∧
      Fifo cbufSz c.cbuf f c.r left ∧ 0 ∉ bytes ∧
      (taken = bytes ∧ bytes.length = count ∨ taken = bytes ++ [0] ∧
        (count < 0 ∨ bytes.length < count)) := by
  induction fuel generalizing count c pending with
  | zero => omega
  | succ fuel ih =>
      unfold cookedLoop
      by_cases zero : count = 0
      · rw [if_pos zero]
        exact ⟨[], [], c.f, pending, rfl, rfl, ring, List.not_mem_nil, .inl ⟨rfl, by simp [zero]⟩⟩
      · rw [if_neg zero]
        obtain ⟨x, rest, rfl⟩ := List.exists_cons_of_ne_nil (List.ne_nil_of_mem ends)
        have first := ring.head
        rw [first]
        by_cases nul : x = 0
        · rw [if_pos nul]
          refine ⟨[], [0], _, rest, rfl, by simp [nul], ring.pop, List.not_mem_nil, .inr ⟨rfl, ?_⟩⟩
          simp only [List.length_nil]
          omega
        · rw [if_neg nul]
          have ends : 0 ∈ rest := by
            rcases List.mem_cons.mp ends with same | later
            · exact absurd same.symm nul
            · exact later
          obtain ⟨bytes, taken, f, left, ran, split, ring, plain, stops⟩ := ih (count - 1)
            (c := { c with f := (c.f + 1) % cbufSz }) (by simpa using enough) ring.pop ends
          refine ⟨x :: bytes, x :: taken, f, left, ?_, by rw [split]; rfl, ring, ?_, ?_⟩
          · rw [ran]
            rfl
          · rw [List.mem_cons, not_or]
            exact ⟨Ne.symm nul, plain⟩
          · rw [List.length_cons]
            rcases stops with ⟨same, reached⟩ | ⟨same, short⟩
            · exact .inl ⟨by rw [same], by omega⟩
            · refine .inr ⟨by rw [same]; rfl, ?_⟩
              omega

/-- What is left in the ring ends with a NUL. -/
theorem Cooked.ends (cooked : Cooked c lines pending) (some : pending ≠ []) : 0 ∈ pending := by
  have stream := cooked.stream
  have nonempty : lines ≠ [] := by
    rintro rfl
    rw [Console.stream, List.flatMap_nil] at stream
    exact some (List.append_eq_nil_iff.mp stream).2
  obtain ⟨init, line, rfl⟩ := (List.eq_nil_or_concat lines).resolve_left nonempty
  have last := congrArg List.getLast? stream
  rw [Console.stream, List.concat_eq_append, List.flatMap_append,
    List.getLast?_append_of_ne_nil _ some] at last
  refine List.mem_of_getLast? (last.trans ?_)
  simp [← List.append_assoc]

/-- **A read.** -/
theorem readRequest_spec (cooked : Cooked c lines pending) (m : ReadRequest) :
    (∃ c' pending', c.readRequest m = .ok c' ∧ Cooked c' lines pending' ∧
      c'.lbuf = c.lbuf ∧ c'.i = c.i) ∨
      c.readRequest m = .error .tooManyReadRequest := by
  have ring := cooked.ring
  unfold readRequest
  by_cases empty : c.f = c.r
  · rw [if_pos empty]
    split
    · exact .inr rfl
    · exact .inl ⟨_, pending, rfl, cooked.frame ⟨rfl, rfl, rfl, rfl⟩, rfl, rfl⟩
  · have some : pending ≠ [] := ring.empty_iff.not.mp empty
    have room := ring.room
    obtain ⟨bytes, taken, f, left, ran, split, ring', plain, stops⟩ :=
      cookedLoop_spec m.len (show pending.length < cbufSz + 1 by omega) ring (cooked.ends some)
    rw [if_neg empty, getCooked, if_neg empty, ran]
    refine .inl ⟨{ c with f, served := c.served ++ [⟨m, bytes, taken⟩] }, left, rfl,
      ⟨ring', ?_, fun s member => ?_⟩, rfl, rfl⟩
    · rw [← cooked.stream, split]
      simp
    · rcases List.mem_append.mp member with old | new
      · exact cooked.proper s old
      · rw [List.mem_singleton.mp new]
        exact ⟨plain, stops⟩

/-- **Enter.** -/
theorem cook_spec (inStep : Matches c e) :
    (∃ c', c.cook = .ok c' ∧ Matches c' e.enter) ∨ c.cook = .error .cookedBufferFull ∨
      c.cook = .error .tooManyReadRequest := by
  obtain ⟨edits, pending, cooked⟩ := inStep
  have short := edits.short
  unfold cook
  rcases cookLoop_spec edits.line (Nat.zero_le _) (show e.text.length < lbufSz + 1 + 0 by omega)
    cooked.ring with
    ⟨cbuf, r, ran, ring⟩ | error
  · rw [ran]
    simp only [Except.bind, bind, pure, Except.pure]
    -- the console with an empty line, on the next row
    generalize moved : lf (cr { c with cbuf, r, i := 0, lbuf := Function.update c.lbuf 0 0 }) = d
    have input : d.input =
        input { c with cbuf, r, i := 0, lbuf := Function.update c.lbuf 0 0 } := by
      rw [← moved, input_lf]
      rfl
    have lbuf : d.lbuf = Function.update c.lbuf 0 0 := congrArg Input.lbuf input
    have i : d.i = 0 := congrArg Input.i input
    have emptied : ∀ {d' : Console}, d'.lbuf = d.lbuf → d'.i = d.i → Edits d' e.enter := by
      intro d' sameLine sameCursor
      refine ⟨⟨fun k bound => ?_, List.not_mem_nil⟩, sameCursor.trans i, show 0 < lbufSz by decide⟩
      obtain rfl : k = 0 := Nat.le_zero.mp bound
      rw [sameLine, lbuf, Function.update_self]
      rfl
    have cooked' : Cooked d e.enter.lines (pending ++ (e.text.drop 0 ++ [0])) := by
      have served : d.served = c.served := congrArg Input.served input
      refine ⟨?_, ?_, ?_⟩
      · rw [show d.cbuf = cbuf from congrArg Input.cbuf input,
          show d.f = c.f from congrArg Input.f input, show d.r = r from congrArg Input.r input]
        exact ring
      · rw [served, ← List.append_assoc, cooked.stream]
        simp [Console.stream, Editor.enter]
      · rw [served]
        exact cooked.proper
    cases d.rstk with
    | nil => exact .inl ⟨d, rfl, emptied rfl rfl, _, cooked'⟩
    | cons m rest =>
        rcases readRequest_spec (c := { d with rstk := rest })
          (cooked'.frame ⟨rfl, rfl, rfl, rfl⟩) m with
          ⟨c', pending', ran', cooked'', sameLine, sameCursor⟩ | error
        · exact .inl ⟨c', ran', emptied sameLine sameCursor, pending', cooked''⟩
        · exact .inr (.inr error)
  · rw [error]
    exact .inr (.inl rfl)

end Read

/-! ### Runs -/

/-- The three panics. -/
def Stop.panics : List Stop := [.lineBufferFull, .cookedBufferFull, .tooManyReadRequest]

section Run

variable {c c' : Console} {e : Editor} {events : List Event}

/-- A key that edits the line, with the `consl_sync` behind it. -/
theorem Matches.key (inStep : Matches c e) {x : Except Stop Console} {e' : Editor}
    (lines : e'.lines = e.lines) (done : ∃ c', x = .ok c' ∧ Edits c' e' ∧ SameCooked c c') :
    ∃ c', (do let c ← x; return c.sync) = .ok c' ∧ Matches c' e' := by
  obtain ⟨c', rfl, edited, same⟩ := done
  exact ⟨c'.sync, rfl, (inStep.edit edited same lines).frame (input_sync c')⟩

theorem lines_left (e : Editor) : e.left.lines = e.lines := by
  unfold Editor.left
  split <;> rfl

theorem lines_right (e : Editor) : e.right.lines = e.lines := by
  unfold Editor.right
  split <;> rfl

/-- Delete never ends in a panic. -/
theorem Matches.delete (inStep : Matches c e) : ∃ c', c.step (.feed .delete) = .ok c' ∧
    Matches c' e.rightBack := by
  obtain ⟨moved, same, _⟩ := movr_input inStep.edits
  obtain ⟨c', ran, edited, same'⟩ := backsp_input moved
  exact inStep.key (lines_right e) ⟨c', ran, edited, same.trans same'⟩

/-- **One event keeps the console and the editor in step**, or ends in a panic. -/
theorem Matches.step (inStep : Matches c e) (event : Event) :
    (∃ c', c.step event = .ok c' ∧ Matches c' (e.step .rightBack event)) ∨
      ∃ stop ∈ Stop.panics, c.step event = .error stop := by
  have edits := inStep.edits
  cases event with
  | accept ch printable =>
      have typed := accept_input edits ch printable
      split at typed
      · obtain ⟨c', ran, edited, same⟩ := typed
        exact .inl ⟨c', ran, inStep.edit edited same rfl⟩
      · exact .inr ⟨_, by decide, typed⟩
  | feed k =>
      cases k with
      | enter =>
          rcases cook_spec inStep with ⟨c', ran, done⟩ | error | error
          · refine .inl ⟨c'.sync, ?_, done.frame (input_sync c')⟩
            show c.feed .enter = _
            simp only [feed, Key.does, ran]
            rfl
          · exact .inr ⟨.cookedBufferFull,
              by decide, by simp only [Console.step, feed, Key.does, error]; rfl⟩
          · exact .inr ⟨.tooManyReadRequest,
              by decide, by simp only [Console.step, feed, Key.does, error]; rfl⟩
      | delete => exact .inl inStep.delete
      | back => exact .inl (inStep.key rfl (backsp_input edits))
      | left =>
          obtain ⟨moved, same, _⟩ := movl_input edits
          exact .inl (inStep.key (lines_left e) ⟨c.movl.2, rfl, moved, same⟩)
      | right =>
          obtain ⟨moved, same, _⟩ := movr_input edits
          exact .inl (inStep.key (lines_right e) ⟨c.movr.2, rfl, moved, same⟩)
      | home => exact .inl (inStep.key rfl (home_input edits))
      | «end» => exact .inl (inStep.key rfl (toEnd_input edits))
  | read m =>
      obtain ⟨_, pending, cooked⟩ := inStep
      rcases readRequest_spec cooked m with ⟨c', pending', ran, cooked', sameLine,
        sameCursor⟩ | error
      · refine .inl ⟨c', ran, ⟨?_, ?_, edits.short⟩, pending', cooked'⟩
        · rw [sameLine]
          exact edits.line
        · exact sameCursor.trans edits.cursor
      · exact .inr ⟨_, by decide, error⟩
  | write ch => exact .inl ⟨_, rfl, inStep.frame (input_writec c ch)⟩
  | sync => exact .inl ⟨_, rfl, inStep.frame (input_sync c)⟩

theorem initConsl_matches (c : Console) : Matches c.initConsl Editor.start := by
  rw [initConsl_eq]
  refine ⟨⟨⟨fun k bound => ?_, List.not_mem_nil⟩, rfl, show 0 < lbufSz by decide⟩, [],
    ⟨fifo_empty _ (by decide), rfl, nofun⟩⟩
  obtain rfl : k = 0 := Nat.le_zero.mp bound
  exact Function.update_self 0 0 c.lbuf

theorem run_snoc (c : Console) (events : List Event) (event : Event) :
    c.run (events ++ [event]) = c.run events >>= fun c' => c'.step event := by
  simp [run]

/-- The two meanings of Delete agree except at the end of a line that is not empty. -/
theorem rightBack_eq (somewhere : e.before = [] ∨ e.after ≠ []) : e.rightBack = e.delete := by
  obtain ⟨before, after, lines⟩ := e
  cases after with
  | nil =>
      obtain rfl : before = [] := somewhere.resolve_right fun more => more rfl
      rfl
  | cons ch after => simp [Editor.rightBack, Editor.right, Editor.back, Editor.delete]

/-- The place of the cursor, as the console sees it. -/
theorem Edits.somewhere (edits : Edits c e) : (c.i = 0 ∨ c.lbuf c.i ≠ 0) ↔
    (e.before = [] ∨ e.after ≠ []) := by
  have stop : c.lbuf e.before.length = 0 ↔ e.after = [] := edits.line.eq_nul_iff
  rw [Ne, edits.cursor, stop, List.length_eq_zero_iff]

/-- Every run keeps the console in step with some editor, or ends in a panic. -/
theorem run_cases (c : Console) (events : List Event) :
    (∃ c' e, c.initConsl.run events = .ok c' ∧ Matches c' e) ∨
      ∃ stop ∈ Stop.panics, c.initConsl.run events = .error stop := by
  induction events using List.reverseRecOn with
  | nil => exact .inl ⟨_, _, rfl, initConsl_matches c⟩
  | append_singleton past event ih =>
      rw [run_snoc]
      rcases ih with ⟨c', e, ran, inStep⟩ | ⟨stop, panic, ran⟩
      · rw [ran]
        rcases inStep.step event with ⟨c'', ran', inStep'⟩ | error
        · exact .inl ⟨c'', _, ran', inStep'⟩
        · exact .inr error
      · rw [ran]
        exact .inr ⟨stop, panic, rfl⟩

theorem run_edits {events : List Event} (ran : c.initConsl.run events = .ok c') :
    ∃ e, Edits c' e := by
  rcases run_cases c events with ⟨c'', e, ran', inStep⟩ | ⟨stop, _, error⟩
  · obtain rfl := Except.ok.inj (ran'.symm.trans ran)
    exact ⟨e, inStep.edits⟩
  · rw [error] at ran
    cases ran

/-- A loop never leaves its buffer and no assertion fails: what stops a run is a panic. -/
theorem run_stops (c : Console) (events : List Event) {stop : Stop}
    (stopped : c.initConsl.run events = .error stop) :
    stop ∈ Stop.panics := by
  rcases run_cases c events with ⟨c', e, ran, _⟩ | ⟨stop', panic, ran⟩
  · rw [ran] at stopped
    cases stopped
  · rw [ran] at stopped
    exact Except.error.inj stopped ▸ panic

end Run

/-- **Terminal input.** In a run of key events, reads and output from `init_consl`, the console is
in step with the pure line editor in every state reached exactly if Delete is never pressed at the
end of a line that is not empty. -/
theorem terminal_input (c : Console) (events : List Event) :
    (∀ past c', past <+: events → c.initConsl.run past = .ok c' → Matches c' (Editor.run past)) ↔
      ∀ past c', past ++ [.feed .delete] <+: events → c.initConsl.run past = .ok c' → c'.i = 0 ∨
      c'.lbuf c'.i ≠ 0 := by
  have pure_snoc :
      ∀ past event, Editor.run (past ++ [event]) = (Editor.run past).step .delete event := by
    intro past event
    simp [Editor.run]
  refine ⟨fun all past c' early ran => ?_, fun never past => ?_⟩
  · have before := all past c' ((List.prefix_append past _).trans early) ran
    obtain ⟨c'', ran', other⟩ := before.delete
    have after := all _ c'' early (by rw [run_snoc, ran]; exact ran')
    rw [pure_snoc] at after
    -- one text cannot be both shorter by a character and not
    have same := other.edits.line.unique after.edits.line
    rw [before.edits.somewhere]
    by_contra stuck
    obtain ⟨nonempty, atEnd⟩ := not_or.mp stuck
    rw [not_not] at atEnd
    have shorter := List.length_pos_iff.mpr nonempty
    have lengths := congrArg List.length same
    simp only [Editor.step, Editor.rightBack, Editor.right, Editor.back, Editor.delete, Editor.text,
      atEnd, List.tail_nil, List.append_nil, List.length_dropLast] at lengths
    omega
  · induction past using List.reverseRecOn with
    | nil =>
        rintro c' - ran
        obtain rfl := Except.ok.inj ran
        exact initConsl_matches c
    | append_singleton past event ih =>
        intro c'' early ran
        rw [run_snoc] at ran
        cases first : c.initConsl.run past with
        | error stop =>
            rw [first] at ran
            cases ran
        | ok c' =>
            rw [first] at ran
            have before := ih c' ((List.prefix_append past _).trans early) first
            rcases before.step event with ⟨c₂, ran', after⟩ | ⟨stop, _, error⟩
            · obtain rfl := Except.ok.inj (ran'.symm.trans ran)
              rw [pure_snoc]
              by_cases isDelete : event = .feed .delete
              · subst isDelete
                have same := rightBack_eq (before.edits.somewhere.mp (never past c' early first))
                show Matches _ (Editor.run past).delete
                rw [← same]
                exact after
              · have same : (Editor.run past).step .rightBack event =
                    (Editor.run past).step .delete event := by
                  cases event with
                  | feed k =>
                      cases k with
                      | delete => exact absurd rfl isDelete
                      | _ => rfl
                  | _ => rfl
                exact same ▸ after
            · have stopped : Except.error stop = Except.ok c'' := error.symm.trans ran
              cases stopped

/-- The key `a`. -/
def keyA : Event := .accept 97 (by decide)

/-- `a` typed, then Delete at the end of the line. -/
def deleteAtEnd : List Event := [keyA, .feed .delete]

/-- A console before `init_consl`. -/
def zeroed : Console := ⟨fun _ => 0, 0, 0, fun _ => 0, fun _ => 0, 0, 0, 0, [], [], true⟩

theorem delete_rubs_out : ∃ c', zeroed.initConsl.run deleteAtEnd = .ok c' ∧
    ¬ Matches c' (Editor.run deleteAtEnd) := by
  have emptied : (zeroed.initConsl.run deleteAtEnd).toOption.map (fun c' => c'.lbuf 0) =
    some 0 := by decide +kernel
  cases ran : zeroed.initConsl.run deleteAtEnd with
  | error stop =>
      rw [ran] at emptied
      cases emptied
  | ok c' =>
      rw [ran] at emptied
      refine ⟨c', rfl, fun inStep => ?_⟩
      exact inStep.edits.line.ne_nul (k := 0) (by decide) (Option.some.inj emptied)

end Console

end NjuOs.Drivers
