/-
**Editing and the bounds of the screen buffer.**

`InWindow c`: the window lies on rows of the buffer, the cursor lies in the window, and every index
of `vbuf` that was read or written so far lies in the buffer. Output keeps this (`Placed.writec`);
the keys do not. They move `pos` by characters of the line, whose cells the output may have left
behind: Left can take the cursor above the window and Right below it. And a character key copies
the cell behind the end of the line up by one, with a test for scrolling that is one cell late: at
the last cell of the buffer it writes behind the buffer.

`Fits c event` says for each key where the cells of the line have to lie, and `step_inWindow_iff`
that this is exact: from a state in the window, the next one is in the window again if and only if
the event fits. `console_bounds` is the same for runs.
-/

import NjuOs.Drivers.LineInput

namespace NjuOs.Drivers.Console

/-! ### The window -/

/-- The window lies on rows of the buffer and the cursor in the window. -/
structure Placed (c : Console) : Prop extends Framed c where
  above : c.scr ≤ c.pos
  below : c.pos < c.scr + 1920

/-- **The bounds.** -/
structure InWindow (c : Console) : Prop extends Placed c where
  inside : c.inside = true

section Placed

variable {c : Console} {k j : Int}

theorem set_inside {cell : UInt16} : (c.set k cell).inside = true ↔ c.inside = true ∧ 0 ≤ k ∧
    k < 3840 := by
  simp [set, touch]

theorem copy_inside :
    (c.copy k j).inside = true ↔ c.inside = true ∧ (0 ≤ k ∧ k < 3840) ∧ 0 ≤ j ∧ j < 3840 := by
  unfold copy
  rw [set_inside]
  simp only [touch, Bool.and_eq_true, decide_eq_true_eq]
  tauto

theorem Placed.cell (placed : Placed c) : 0 ≤ c.pos ∧ c.pos < 3840 := by
  obtain ⟨⟨_, low, high⟩, above, below⟩ := placed
  omega

/-- A character drawn at the cursor, which moves on. -/
theorem Placed.draw (placed : Placed c) (ch : UInt8) :
    Placed (c.putc ch).next ∧ (c.putc ch).next.inside = c.inside := by
  have cell := placed.cell
  have drawn : (c.putc ch).inside = c.inside := by
    show (c.inside && (decide (0 ≤ c.pos) && decide (c.pos < 3840))) = c.inside
    simp [cell]
  obtain ⟨⟨rows, low, high⟩, above, below⟩ := placed
  have framed : Framed (c.putc ch) := ⟨rows, low, high⟩
  unfold next
  split
  · have scrolled := scrup_scrolled framed
    have cursor := scrolled.cursor
    obtain ⟨rows', low', high'⟩ := scrolled.framed
    have place : (c.putc ch).pos = c.pos := rfl
    have window : (c.putc ch).scr = c.scr := rfl
    refine ⟨⟨⟨rows', low', high'⟩, ?_, ?_⟩, scrolled.inside.trans drawn⟩ <;> simp only []
    · omega
    · omega
  · rename_i notLast
    have notLast : c.pos ≠ c.scr + 1920 - 1 := notLast
    refine ⟨⟨⟨rows, low, high⟩, ?_, ?_⟩, drawn⟩
    · show c.scr ≤ c.pos + 1
      omega
    · show c.pos + 1 < c.scr + 1920
      omega

theorem Placed.cr (placed : Placed c) :
    Placed c.cr ∧ c.cr.pos % 80 = 0 ∧ c.cr.inside = c.inside := by
  have cell := placed.cell
  obtain ⟨⟨rows, low, high⟩, above, below⟩ := placed
  have place : c.cr.pos = c.pos - c.pos % 80 := by
    unfold Console.cr
    rw [Int.tmod_eq_emod_of_nonneg cell.1]
  refine ⟨⟨⟨rows, low, high⟩, ?_, ?_⟩, ?_, rfl⟩
  · show c.scr ≤ c.cr.pos
    omega
  · show c.cr.pos < c.scr + 1920
    omega
  · omega

theorem Placed.lf (placed : Placed c) : Placed c.lf ∧ c.lf.inside = c.inside := by
  obtain ⟨⟨rows, low, high⟩, above, below⟩ := placed
  have framed : Framed { c with pos := c.pos + 80 } := ⟨rows, low, high⟩
  unfold Console.lf
  simp only []
  split
  · have scrolled := scrup_scrolled framed
    have cursor := scrolled.cursor
    simp only [] at cursor
    refine ⟨⟨scrolled.framed, ?_, ?_⟩, scrolled.inside⟩
    · omega
    · omega
  · refine ⟨⟨framed, ?_, ?_⟩, rfl⟩ <;> simp only []
    · omega
    · omega

/-- **Output keeps the bounds.** -/
theorem Placed.writec (placed : Placed c) (ch : UInt8) :
    Placed (c.writec ch) ∧ (c.writec ch).inside = c.inside := by
  unfold Console.writec
  split
  · exact ⟨placed.cr.1, placed.cr.2.2⟩
  · split
    · exact ⟨placed.cr.1.lf.1, placed.cr.1.lf.2.trans placed.cr.2.2⟩
    · exact placed.draw ch

end Placed

/-! ### Reads leave the screen alone -/

/-- The part of a console that the reads have nothing to do with. -/
structure SameScreen (c c' : Console) : Prop where
  scr : c'.scr = c.scr
  pos : c'.pos = c.pos
  inside : c'.inside = c.inside

section Screen

variable {c c' : Console}

theorem InWindow.frame (bounds : InWindow c) (same : SameScreen c c') : InWindow c' := by
  obtain ⟨⟨⟨rows, low, high⟩, above, below⟩, inside⟩ := bounds
  obtain ⟨scr, pos, touched⟩ := same
  rw [← scr] at rows low high above below
  rw [← pos] at above below
  exact ⟨⟨⟨rows, low, high⟩, above, below⟩, touched.trans inside⟩

theorem cookedLoop_screen {fuel : Nat} {count : Int} {c : Console} {bytes taken : List UInt8}
    (ran : cookedLoop fuel count c = .ok (bytes, taken, c')) : SameScreen c c' := by
  induction fuel generalizing count c bytes taken with
  | zero => cases ran
  | succ fuel ih =>
      unfold cookedLoop at ran
      split at ran
      · obtain ⟨-, -, rfl⟩ := ran
        exact ⟨rfl, rfl, rfl⟩
      · split at ran
        · obtain ⟨-, -, rfl⟩ := ran
          exact ⟨rfl, rfl, rfl⟩
        · cases more : cookedLoop fuel (count - 1) { c with f := (c.f + 1) % cbufSz } with
          | error stop =>
              rw [more] at ran
              cases ran
          | ok result =>
              obtain ⟨bytes', taken', d⟩ := result
              rw [more] at ran
              obtain ⟨-, -, rfl⟩ := ran
              obtain ⟨scr, pos, inside⟩ := ih more
              exact ⟨scr, pos, inside⟩

theorem readRequest_screen {m : ReadRequest} (ran : c.readRequest m = .ok c') :
    SameScreen c c' := by
  unfold readRequest at ran
  split at ran
  · split at ran
    · cases ran
    · obtain rfl := Except.ok.inj ran
      exact ⟨rfl, rfl, rfl⟩
  · rename_i more
    rw [getCooked, if_neg more] at ran
    cases looped : cookedLoop (cbufSz + 1) m.len c with
    | error stop =>
        rw [looped] at ran
        cases ran
    | ok result =>
        obtain ⟨bytes, taken, d⟩ := result
        rw [looped] at ran
        obtain rfl := Except.ok.inj ran
        obtain ⟨scr, pos, inside⟩ := cookedLoop_screen looped
        exact ⟨scr, pos, inside⟩

theorem cookLoop_screen {fuel p : Nat} {c : Console} (ran : cookLoop fuel p c = .ok c') :
    SameScreen c c' := by
  induction fuel generalizing p c with
  | zero => cases ran
  | succ fuel ih =>
      unfold cookLoop at ran
      simp only [] at ran
      split at ran
      · cases ran
      · split at ran
        · obtain rfl := Except.ok.inj ran
          exact ⟨rfl, rfl, rfl⟩
        · obtain ⟨scr, pos, inside⟩ := ih ran
          exact ⟨scr, pos, inside⟩

/-- Enter goes to the next row. -/
theorem cook_inWindow (bounds : InWindow c) (ran : c.cook = .ok c') : InWindow c' := by
  unfold cook at ran
  cases looped : cookLoop (lbufSz + 1) 0 c with
  | error stop =>
      rw [looped] at ran
      cases ran
  | ok d =>
      have cooked := bounds.frame (cookLoop_screen looped)
      have emptied : InWindow { d with i := 0, lbuf := Function.update d.lbuf 0 0 } :=
        cooked.frame ⟨rfl, rfl, rfl⟩
      obtain ⟨moved, _, same⟩ := emptied.toPlaced.cr
      obtain ⟨next, same'⟩ := moved.lf
      have down : InWindow { d with i := 0, lbuf := Function.update d.lbuf 0 0 }.cr.lf :=
        ⟨next, same'.trans (same.trans emptied.inside)⟩
      rw [looped] at ran
      simp only [Except.bind, bind, pure, Except.pure] at ran
      generalize lf (cr { d with i := 0, lbuf := Function.update d.lbuf 0 0 }) = d' at ran down
      split at ran
      · obtain rfl := Except.ok.inj ran
        exact down
      · rename_i m rest _
        have popped : InWindow { d' with rstk := rest } := down.frame ⟨rfl, rfl, rfl⟩
        exact popped.frame (readRequest_screen ran)

end Screen

/-! ### The loops of the editing keys -/

section Loops

variable {c c' : Console} {e : Editor}

/-- The cells that `removec` touches: up to the end of the line. -/
theorem removeLoop_cells {n fuel ptr : Nat} {scr : Int} {c : Console} (inside : ptr ≤ n)
    (more : ∀ k, ptr ≤ k → k < n → c.lbuf k ≠ 0) (stop : c.lbuf n = 0)
    (ran : removeLoop fuel ptr scr c = .ok c') :
    c'.scr = c.scr ∧ c'.pos = c.pos ∧
      (c'.inside = true ↔ c.inside = true ∧ (ptr = n ∨ 0 ≤ scr ∧ scr + (n - ptr) < 3840)) := by
  induction fuel generalizing ptr scr c with
  | zero => cases ran
  | succ fuel ih =>
      unfold removeLoop at ran
      by_cases last : ptr = n
      · rw [if_pos (last ▸ stop)] at ran
        obtain rfl := Except.ok.inj ran
        exact ⟨rfl, rfl, by simp [last]⟩
      · rw [if_neg (more ptr le_rfl (by omega))] at ran
        simp only [] at ran
        obtain ⟨window, cursor, touched⟩ := ih (by omega) (fun k low high => by
            show Function.update c.lbuf ptr (c.lbuf (ptr + 1)) k ≠ 0
            rw [Function.update_of_ne (by omega)]
            exact more k (by omega) high)
          (by
            show Function.update c.lbuf ptr (c.lbuf (ptr + 1)) n = 0
            rw [Function.update_of_ne (Ne.symm last)]
            exact stop) ran
        refine ⟨window, cursor, touched.trans ?_⟩
        rw [copy_inside]
        show (c.inside = true ∧ _) ∧ _ ↔ _
        simp only [Nat.cast_add, Nat.cast_one]
        constructor
        · rintro ⟨⟨before, here⟩, rest⟩
          exact ⟨before, .inr (by omega)⟩
        · rintro ⟨before, rest⟩
          exact ⟨⟨before, by omega⟩, by omega⟩

/-- The loop that makes room, where it does not come to the row below the window. -/
theorem insertLoop_quiet {n : Nat} {c : Console} (quiet : c.pos + n < c.scr + 1921)
    (ran : insertLoop n c = .ok c') :
    c'.scr = c.scr ∧ c'.pos = c.pos ∧
      (c'.inside = true ↔ c.inside = true ∧ (n = 0 ∨ 0 ≤ c.pos ∧ c.pos + n < 3840)) := by
  induction n generalizing c with
  | zero =>
      obtain rfl := Except.ok.inj ran
      exact ⟨rfl, rfl, by simp⟩
  | succ n ih =>
      unfold insertLoop at ran
      split at ran
      · cases ran
      · simp only [] at ran
        push_cast at quiet
        rw [if_neg (by omega)] at ran
        obtain ⟨window, cursor, touched⟩ :=
          (fun still => ih still ran) (show c.pos + n < c.scr + 1921 by omega)
        refine ⟨window, cursor, touched.trans ?_⟩
        rw [copy_inside]
        show (c.inside = true ∧ (0 ≤ c.pos + (n + 1 : Int) ∧ c.pos + (n + 1 : Int) < 3840) ∧
          0 ≤ c.pos + n ∧ c.pos + n < 3840) ∧ (n = 0 ∨ 0 ≤ c.pos ∧ c.pos + n < 3840) ↔ _
        simp only [Nat.cast_add, Nat.cast_one]
        constructor
        · rintro ⟨⟨before, here⟩, rest⟩
          exact ⟨before, .inr (by omega)⟩
        · rintro ⟨before, rest⟩
          exact ⟨⟨before, by omega⟩, by omega⟩

/-- The loop that makes room, where it comes to the row below the window: it scrolls there, once. -/
theorem insertLoop_scrolls {n : Nat} {c : Console} (placed : Placed c)
    (far : c.scr + 1921 ≤ c.pos + n) (ran : insertLoop n c = .ok c') :
    Framed c' ∧ c'.pos - c'.scr = c.pos - c.scr - 80 ∧
      (c'.inside = true ↔ c.inside = true ∧ (c.pos + n = c.scr + 1921 ∨ c.pos + n < 3840)) := by
  obtain ⟨framed, above, below⟩ := placed
  induction n generalizing c with
  | zero => omega
  | succ n ih =>
      have low := framed.low
      have high := framed.high
      unfold insertLoop at ran
      split at ran
      · cases ran
      · simp only [] at ran
        push_cast at far
        by_cases here : c.pos + ((n : Int) + 1) = c.scr + 1920 + 1
        · -- the window moves up by a row; the line is short, so the cursor is in the lower part
          -- of the window
          have size : lbufSz = 256 := rfl
          rw [if_pos here] at ran
          generalize shape :
            scrup { c with lbuf := Function.update c.lbuf (c.i + (n + 1)) (c.lbuf (c.i + n)) } =
            d at ran
          have scrolled : Scrolled c d := by
            rw [← shape]
            have moved := scrup_scrolled (c := { c with
              lbuf := Function.update c.lbuf (c.i + (n + 1)) (c.lbuf (c.i + n)) })
                ⟨framed.rows, low, high⟩
            exact ⟨moved.framed, moved.cursor, moved.place, moved.kept, moved.blank, moved.inside⟩
          have cursor := scrolled.cursor
          have low' := scrolled.framed.low
          have high' := scrolled.framed.high
          obtain ⟨window, place, touched⟩ :=
            (fun still => insertLoop_quiet still ran) (show d.pos + n < d.scr + 1921 by omega)
          have window : c'.scr = d.scr := window
          have place : c'.pos = d.pos := place
          refine ⟨⟨window ▸ scrolled.framed.rows, window ▸ low', window ▸ high'⟩,
            by omega, touched.trans ?_⟩
          rw [copy_inside, scrolled.inside]
          show (c.inside = true ∧ (0 ≤ d.pos + (n + 1 : Int) ∧ d.pos + (n + 1 : Int) < 3840) ∧
            0 ≤ d.pos + n ∧ d.pos + n < 3840) ∧ (n = 0 ∨ 0 ≤ d.pos ∧ d.pos + n < 3840) ↔ _
          simp only [Nat.cast_add, Nat.cast_one]
          constructor
          · rintro ⟨⟨before, _⟩, _⟩
            exact ⟨before, .inl (by omega)⟩
          · rintro ⟨before, _⟩
            exact ⟨⟨before, by omega⟩, by omega⟩
        · rw [if_neg here] at ran
          obtain ⟨framed', cursor, touched⟩ :=
            (fun still => ih still ran) (show c.scr + 1921 ≤ c.pos + n by omega)
            ⟨framed.rows, low, high⟩ above below
          refine ⟨framed', cursor, touched.trans ?_⟩
          rw [copy_inside]
          show (c.inside = true ∧ (0 ≤ c.pos + (n + 1 : Int) ∧ c.pos + (n + 1 : Int) < 3840) ∧
            0 ≤ c.pos + n ∧ c.pos + n < 3840) ∧ (c.pos + n = c.scr + 1921 ∨ c.pos + n < 3840) ↔ _
          simp only [Nat.cast_add, Nat.cast_one]
          constructor
          · rintro ⟨⟨before, _⟩, _⟩
            exact ⟨before, .inr (by omega)⟩
          · rintro ⟨before, _⟩
            exact ⟨⟨before, by omega⟩, by omega⟩

theorem movl_stays (first : c.i = 0) : c.movl = (false, c) := if_neg (not_not.mpr first)

theorem movl_moves (more : c.i ≠ 0) :
    c.movl = (true, { c with i := c.i - 1, pos := c.pos - 1 }) := if_pos more

theorem movr_stays (edits : Edits c e) (last : e.after = []) : c.movr = (false, c) := by
  refine if_neg (not_not.mpr ?_)
  rw [edits.cursor]
  exact edits.line.eq_nul_iff.mpr last

theorem movr_moves (edits : Edits c e) (more : e.after ≠ []) :
    c.movr = (true, { c with i := c.i + 1, pos := c.pos + 1 }) := by
  refine if_pos ?_
  rw [edits.cursor]
  exact edits.line.eq_nul_iff.not.mpr more

/-- Where Home ends: at the first character. -/
theorem whileMovl_place {fuel : Nat} {c : Console} (ran : whileMoves movl fuel c = .ok c') :
    c'.scr = c.scr ∧ c'.pos = c.pos - c.i ∧ c'.inside = c.inside := by
  induction fuel generalizing c with
  | zero => cases ran
  | succ fuel ih =>
      unfold whileMoves at ran
      by_cases first : c.i = 0
      · rw [movl_stays first] at ran
        obtain rfl := Except.ok.inj ran
        exact ⟨rfl, by omega, rfl⟩
      · rw [movl_moves first] at ran
        obtain ⟨window, cursor, same⟩ := ih ran
        simp only [] at window cursor same
        exact ⟨window, by omega, same⟩

/-- Where End ends: behind the last character. -/
theorem whileMovr_place {fuel : Nat} (edits : Edits c e) (ran : whileMoves movr fuel c = .ok c') :
    c'.scr = c.scr ∧ c'.pos = c.pos + e.after.length ∧ c'.inside = c.inside := by
  induction fuel generalizing c e with
  | zero => cases ran
  | succ fuel ih =>
      obtain ⟨moved, _, _⟩ := movr_input edits
      unfold whileMoves at ran
      cases shape : e.after with
      | nil =>
          rw [movr_stays edits shape] at ran
          obtain rfl := Except.ok.inj ran
          exact ⟨rfl, by simp, rfl⟩
      | cons ch after =>
          have moves := movr_moves edits (by simp [shape])
          have behind : e.right.after = after := by simp [Editor.right, shape]
          rw [moves] at ran moved
          obtain ⟨window, place, same⟩ := ih moved ran
          rw [behind] at place
          simp only [] at window place same
          refine ⟨window, ?_, same⟩
          rw [List.length_cons]
          push_cast
          omega

end Loops

/-! ### What fits -/

/-- The number of characters behind the cursor. -/
def rest (c : Console) : Nat := (c.behind (lbufSz + 1) 0).toOption.getD 0

/-- **Where the cells of the line have to lie** for a key. The line ends at the cell `pos +
rest`. -/
def Fits (c : Console) : Event → Prop
  | .accept _ _ => c.pos + c.rest + 1 < 3840 ∨ c.pos + c.rest = 3840 ∧ c.scr = 1920
  | .feed .back => c.i = 0 ∨ c.scr < c.pos ∧ c.pos + c.rest < 3840
  | .feed .delete => if c.rest = 0 then c.i = 0 ∨ c.scr < c.pos else c.pos + c.rest < 3840
  | .feed .left => c.i = 0 ∨ c.scr < c.pos
  | .feed .right => c.rest = 0 ∨ c.pos + 1 < c.scr + 1920
  | .feed .home => c.scr + c.i ≤ c.pos
  | .feed .end => c.pos + c.rest < c.scr + 1920
  | .feed .enter | .read _ | .write _ | .sync => True

section Step

variable {c c' : Console} {e : Editor}

theorem Edits.rest_eq (edits : Edits c e) : c.rest = e.after.length := by
  unfold rest
  rw [behind_eq edits]
  rfl

theorem accept_inWindow_iff {ch : UInt8} (edits : Edits c e) (bounds : InWindow c)
    (ran : c.accept ch = .ok c') :
    InWindow c' ↔ c.pos + c.rest + 1 < 3840 ∨ c.pos + c.rest = 3840 ∧ c.scr = 1920 := by
  obtain ⟨placed, clean⟩ := bounds
  obtain ⟨⟨rows, low, high⟩, above, below⟩ := placed
  have cells := edits.rest_eq
  unfold accept at ran
  rw [behind_eq edits, ← cells] at ran
  simp only [Except.bind, bind] at ran
  cases looped : insertLoop (c.rest + 1) c with
  | error stop =>
      rw [looped] at ran
      cases ran
  | ok d =>
      rw [looped] at ran
      simp only [] at ran
      split at ran
      · cases ran
      · -- the loop leaves the cursor in the window; whether it stayed in the buffer is the question
        have moved : Placed d ∧ (d.inside = true ↔ c.pos + c.rest + 1 < 3840 ∨
            c.pos + c.rest = 3840 ∧ c.scr = 1920) := by
          by_cases quiet : c.pos + c.rest < c.scr + 1920
          · obtain ⟨window, cursor, touched⟩ := insertLoop_quiet (by push_cast; omega) looped
            refine ⟨⟨⟨window ▸ rows, window ▸ low, window ▸ high⟩, by omega, by omega⟩,
              touched.trans ?_⟩
            push_cast
            simp only [clean, true_and, false_or]
            omega
          · obtain ⟨framed, cursor, touched⟩ :=
              insertLoop_scrolls ⟨⟨rows, low, high⟩, above, below⟩ (by push_cast; omega) looped
            have short := edits.short
            have size : lbufSz = 256 := rfl
            rw [Editor.text, List.length_append] at short
            refine ⟨⟨framed, by omega, by omega⟩, touched.trans ?_⟩
            push_cast
            simp only [clean, true_and]
            omega
        obtain ⟨placed', touched⟩ := moved
        obtain ⟨drawn, same⟩ := placed'.draw ch
        generalize (d.putc ch).next = d' at ran drawn same
        obtain ⟨⟨rows', low', high'⟩, above', below'⟩ := drawn
        have framed : Framed { d' with lbuf := Function.update d'.lbuf d'.i ch, i := d'.i + 1 } :=
          ⟨rows', low', high'⟩
        have result := Except.ok.inj ran
        rw [sync_eq framed] at result
        rw [← touched, ← same, ← result]
        exact ⟨fun bounds => bounds.inside, fun inside => ⟨⟨framed, above', below'⟩, inside⟩⟩

/-- Backspace on a line with a character before the cursor. -/
theorem backsp_cells (edits : Edits c e) (before : 0 < c.i) (ran : c.backsp = .ok c') :
    c'.scr = c.scr ∧ c'.pos = c.pos - 1 ∧
      (c'.inside = true ↔ c.inside = true ∧ 0 ≤ c.pos - 1 ∧ c.pos + e.after.length < 3840) := by
  have cursor := edits.cursor
  have size : e.text.length = e.before.length + e.after.length := List.length_append
  unfold backsp at ran
  rw [if_pos before, removec] at ran
  cases looped : removeLoop (lbufSz + 1) (c.i - 1) (c.pos - 1) { c with i := c.i - 1 } with
  | error stop =>
      simp only [looped, Except.bind, bind] at ran
      cases ran
  | ok d =>
      simp only [looped, Except.bind, bind, pure, Except.pure] at ran
      obtain ⟨window, place, touched⟩ :=
        removeLoop_cells (c := { c with i := c.i - 1 }) (show c.i - 1 ≤ e.text.length by omega)
        (fun k _ high => edits.line.ne_nul high) edits.line.stop looped
      simp only [] at window place touched
      have cells : (c.i - 1 = e.text.length ∨ 0 ≤ c.pos - 1 ∧
        c.pos - 1 + ((e.text.length : Int) - (c.i - 1 : Nat)) < 3840) ↔
          0 ≤ c.pos - 1 ∧ c.pos + e.after.length < 3840 := by omega
      split at ran
      · obtain rfl := Except.ok.inj ran
        refine ⟨window, by show d.pos - 1 = _; omega, ?_⟩
        show (d.set (d.pos - 1) (draw 32)).inside = true ↔ _
        rw [set_inside, touched, cells]
        constructor
        · exact fun all => all.1
        · exact fun all => ⟨all, by omega⟩
      · obtain rfl := Except.ok.inj ran
        refine ⟨window, by show d.pos - 1 = _; omega, ?_⟩
        show d.inside = true ↔ _
        rw [touched, cells]

/-- A key that leaves the cursor in the window, or not. -/
theorem inWindow_sync_iff (framed : Framed c) :
    InWindow c.sync ↔ (c.scr ≤ c.pos ∧ c.pos < c.scr + 1920) ∧ c.inside = true := by
  rw [sync_eq framed]
  exact ⟨fun bounds => ⟨⟨bounds.above, bounds.below⟩, bounds.inside⟩,
    fun all => ⟨⟨framed, all.1.1, all.1.2⟩, all.2⟩⟩

theorem inWindow_move_iff (framed : Framed c) (clean : c.inside = true) (i : Nat) (pos : Int) :
    InWindow (sync { c with i, pos }) ↔ c.scr ≤ pos ∧ pos < c.scr + 1920 := by
  have moved : Framed { c with i, pos } := ⟨framed.rows, framed.low, framed.high⟩
  rw [inWindow_sync_iff moved]
  simp only [clean, and_true]

theorem backsp_inWindow_iff (edits : Edits c e) (framed : Framed c) (high : c.pos ≤ c.scr + 1920)
    (clean : c.inside = true) (ran : c.backsp = .ok c') :
    InWindow c'.sync ↔ if c.i = 0 then c.scr ≤ c.pos ∧ c.pos < c.scr + 1920
      else c.scr < c.pos ∧ c.pos + e.after.length < 3840 := by
  have low := framed.low
  by_cases first : c.i = 0
  · unfold backsp at ran
    rw [if_neg (by omega)] at ran
    obtain rfl := Except.ok.inj ran
    rw [inWindow_sync_iff framed, if_pos first]
    simp [clean]
  · obtain ⟨window, place, touched⟩ := backsp_cells edits (by omega) ran
    rw [inWindow_sync_iff ⟨window ▸ framed.rows, window ▸ framed.low, window ▸ framed.high⟩,
      if_neg first, touched, window, place]
    simp only [clean, true_and]
    omega

theorem feed_split {key : Key} (ran : c.step (.feed key) = .ok c') :
    ∃ d, key.does c = .ok d ∧ d.sync = c' := by
  have ran : (do let d ← key.does c; return d.sync) = .ok c' := ran
  cases does : key.does c with
  | error stop =>
      rw [does] at ran
      cases ran
  | ok d =>
      rw [does] at ran
      exact ⟨d, rfl, Except.ok.inj ran⟩

/-- **One event.** From a state in the window the next one is in the window exactly if the event
fits. -/
theorem step_inWindow_iff (edits : Edits c e) (bounds : InWindow c) {event : Event}
    (ran : c.step event = .ok c') :
    InWindow c' ↔ Fits c event := by
  obtain ⟨placed, clean⟩ := bounds
  obtain ⟨framed, above, below⟩ := placed
  have cells := edits.rest_eq
  cases event with
  | accept ch _ => exact accept_inWindow_iff edits ⟨⟨framed, above, below⟩, clean⟩ ran
  | feed k =>
      -- what the key does, before its `consl_sync`
      obtain ⟨d, does, rfl⟩ : ∃ d, k.does c = .ok d ∧ d.sync = c' := feed_split ran
      cases k with
      | enter =>
          have down := cook_inWindow ⟨⟨framed, above, below⟩, clean⟩ does
          rw [inWindow_sync_iff down.toFramed]
          exact ⟨fun _ => trivial, fun _ => ⟨⟨down.above, down.below⟩, down.inside⟩⟩
      | delete =>
          obtain ⟨moved, _, _⟩ := movr_input edits
          have does : c.movr.2.backsp = .ok d := does
          show _ ↔ if c.rest = 0 then c.i = 0 ∨ c.scr < c.pos else c.pos + c.rest < 3840
          rw [cells]
          cases shape : e.after with
          | nil =>
              rw [movr_stays edits shape] at does
              rw [backsp_inWindow_iff edits framed (by omega) clean does,
                if_pos List.length_nil, shape]
              have high := framed.high
              simp only [List.length_nil]
              split <;> omega
          | cons ch after =>
              have behind : e.right.after = after := by simp [Editor.right, shape]
              have more : (ch :: after).length ≠ 0 := by simp
              rw [movr_moves edits (by simp [shape])] at does moved
              simp only [] at does moved
              have framed' : Framed { c with i := c.i + 1, pos := c.pos + 1 } :=
                ⟨framed.rows, framed.low, framed.high⟩
              rw [backsp_inWindow_iff moved framed' (show c.pos + 1 ≤ c.scr + 1920 by omega) clean
                does, if_neg more, if_neg (Nat.succ_ne_zero c.i), behind, List.length_cons]
              simp only [Nat.cast_add, Nat.cast_one]
              omega
      | back =>
          rw [backsp_inWindow_iff edits framed (by omega) clean does, ← cells]
          show _ ↔ c.i = 0 ∨ c.scr < c.pos ∧ c.pos + c.rest < 3840
          split <;> omega
      | left =>
          obtain rfl := Except.ok.inj does
          show _ ↔ c.i = 0 ∨ c.scr < c.pos
          by_cases first : c.i = 0
          · rw [movl_stays first, inWindow_sync_iff framed]
            simp [first, above, below, clean]
          · rw [movl_moves first]
            exact (inWindow_move_iff framed clean _ _).trans (by omega)
      | right =>
          obtain rfl := Except.ok.inj does
          show _ ↔ c.rest = 0 ∨ c.pos + 1 < c.scr + 1920
          rw [cells, List.length_eq_zero_iff]
          by_cases last : e.after = []
          · rw [movr_stays edits last, inWindow_sync_iff framed]
            simp [last, above, below, clean]
          · rw [movr_moves edits last]
            refine (inWindow_move_iff framed clean _ _).trans ?_
            simp only [last, false_or]
            omega
      | home =>
          obtain ⟨window, place, same⟩ := whileMovl_place does
          show _ ↔ c.scr + c.i ≤ c.pos
          rw [inWindow_sync_iff ⟨window ▸ framed.rows, window ▸ framed.low, window ▸ framed.high⟩,
            window, place, same]
          simp only [clean, and_true]
          omega
      | «end» =>
          obtain ⟨window, place, same⟩ := whileMovr_place edits does
          show _ ↔ c.pos + c.rest < c.scr + 1920
          rw [inWindow_sync_iff ⟨window ▸ framed.rows, window ▸ framed.low, window ▸ framed.high⟩,
            window, place, same, cells]
          simp only [clean, and_true]
          omega
  | read m =>
      exact ⟨fun _ => trivial, fun _ => InWindow.frame ⟨⟨framed, above, below⟩, clean⟩
        (readRequest_screen ran)⟩
  | write ch =>
      obtain rfl := Except.ok.inj ran
      obtain ⟨placed, same⟩ := Placed.writec ⟨framed, above, below⟩ ch
      exact ⟨fun _ => trivial, fun _ => ⟨placed, same.trans clean⟩⟩
  | sync =>
      obtain rfl := Except.ok.inj ran
      rw [inWindow_sync_iff framed]
      exact ⟨fun _ => trivial, fun _ => ⟨⟨above, below⟩, clean⟩⟩

end Step

/-! ### Runs -/

/-- **Console bounds.** In a run from `init_consl` every state reached is in the window, with no
index of `vbuf` read or written outside the buffer, exactly if every event that did not end in a
panic fitted where it came. -/
theorem console_bounds (c : Console) (events : List Event) :
    (∀ past c', past <+: events → c.initConsl.run past = .ok c' → InWindow c') ↔
      ∀ past event c' c'', past ++ [event] <+: events → c.initConsl.run past = .ok c' →
      c'.step event = .ok c'' →
        Fits c' event := by
  refine ⟨fun all past event c' c'' early ran stepped => ?_, fun fits past => ?_⟩
  · obtain ⟨e, edits⟩ := run_edits ran
    have before := all past c' ((List.prefix_append past _).trans early) ran
    exact (step_inWindow_iff edits before stepped).mp
      (all _ c'' early (by rw [run_snoc, ran]; exact stepped))
  · induction past using List.reverseRecOn with
    | nil =>
        rintro c' - ran
        obtain rfl := Except.ok.inj ran
        have shows := initConsl_shows c
        rw [initConsl_eq] at shows ⊢
        exact ⟨⟨shows.toFramed, by simp, by simp⟩, rfl⟩
    | append_singleton past event ih =>
        intro c'' early ran
        rw [run_snoc] at ran
        cases first : c.initConsl.run past with
        | error stop =>
            rw [first] at ran
            cases ran
        | ok c' =>
            rw [first] at ran
            obtain ⟨e, edits⟩ := run_edits first
            have before := ih c' ((List.prefix_append past _).trans early) first
            exact (step_inWindow_iff edits before ran).mpr (fits past event c' c'' early first ran)

/-- `a` typed, a carriage return written by a process, then Left: the cursor is at -1, and the next
character key writes there. -/
def leftOfScreen : List Event := [keyA, .write 13, .feed .left, keyA]

theorem cursor_leaves_window : ∃ c c' : Console, c.initConsl.run (leftOfScreen.take 3) = .ok c' ∧
    c'.pos = -1 ∧ ¬ InWindow c' ∧
    ∃ c'', c.initConsl.run leftOfScreen = .ok c'' ∧ c''.inside = false := by
  have left : (zeroed.initConsl.run (leftOfScreen.take 3)).toOption.map (fun c' =>
      (c'.scr, c'.pos)) = some (0, -1) := by
    decide +kernel
  have wrote : (zeroed.initConsl.run leftOfScreen).toOption.map (fun c' => c'.inside) =
      some false := by
    decide +kernel
  refine ⟨zeroed, ?_⟩
  cases ran : zeroed.initConsl.run (leftOfScreen.take 3) with
  | error stop =>
      rw [ran] at left
      cases left
  | ok c' =>
      rw [ran] at left
      obtain ⟨scr, pos⟩ := Prod.mk.inj (Option.some.inj left)
      refine ⟨c', rfl, pos, fun bounds => ?_, ?_⟩
      · have above := bounds.above
        omega
      · cases more : zeroed.initConsl.run leftOfScreen with
        | error stop =>
            rw [more] at wrote
            cases wrote
        | ok c'' =>
            rw [more] at wrote
            exact ⟨c'', rfl, Option.some.inj wrote⟩

end NjuOs.Drivers.Console
