/-
**The kernel stack of a forked process.**

`fork` of `pcb_manager.c` copies the parent's kernel stack, clears the child's `eax`, and follows
the saved frame pointers from the trap frame on, to shift each of them by the distance of the two
stacks. If the child's stack lies below the parent's, the distance is negated for the trap frame,
and the loop adds what was negated: it shifts the frame pointers up where it should shift them down.
So the child's stack is right exactly if it lies above the parent's, or if no frame pointer points
into the stack (`forkStack_iff`).

Addresses of stacks are those of the kernel, at `KOFFSET`; a position in a stack is its distance
from the stack's begin.
-/

import NjuOs.Memory.Frames

namespace NjuOs.Memory

open NjuOs.Lib

/-- `KSTACK_SIZE`. -/
def kstackSize : Nat := 4096

/-- The loop over the saved frame pointers. -/
def relink (pstack offset : Nat) : Nat → Nat → Mm PUnit
  | 0, _ => throw .hang
  | fuel + 1, ebpPtr => do
      let ebp ← load32 ebpPtr
      if pstack ≤ ebp.toNat ∧ ebp.toNat < pstack + kstackSize then do
        store32 ebpPtr (ebp + UInt32.ofNat offset)
        let next ← load32 ebpPtr
        relink pstack offset fuel next.toNat
      else pure ⟨⟩

/-- What `fork` does with the stacks; `buf` is the parent's trap frame. The result is the
child's. -/
def forkStack (fuel pstack cstack buf : Nat) : Mm Nat := do
  let offset := if pstack < cstack then cstack - pstack else pstack - cstack
  let tf := if pstack < cstack then buf + offset else buf - offset
  memcpy cstack pstack kstackSize
  store32 (tf + 28) 0
  relink pstack offset fuel (tf + 8)
  pure tf

/-! ### Chains -/

/-- The position that the frame pointer at position `i` points to, if that is in the stack at
`P`. -/
def link (ram : Store) (P i : Nat) : Option Nat :=
  if kOffset + P ≤ (ram.word (P + i)).toNat ∧
    (ram.word (P + i)).toNat < kOffset + P + kstackSize then
    some ((ram.word (P + i)).toNat - (kOffset + P))
  else none

/-- The chain of frame pointers from position `i` on: its words lie one above the other in the
stack, apart from the `eax` of the trap frame at `t`, and the last one leaves the stack. -/
inductive Chain (ram : Store) (P t : Nat) : Nat → List Nat → Prop where
  | last (i : Nat) : link ram P i = none → Chain ram P t i []
  | next (i j : Nat) (js : List Nat) : link ram P i = some j → i + 4 ≤ j → j + 4 ≤ kstackSize →
      (j + 4 ≤ t + 28 ∨ t + 32 ≤ j) → Chain ram P t j js → Chain ram P t i (j :: js)

/-- In the stack at `C` every frame pointer is shifted, and the last one is what it was. -/
def Linked (ram ram' : Store) (P C : Nat) : Nat → List Nat → Prop
  | i, [] => ram'.word (C + i) = ram.word (P + i)
  | i, j :: js => ram'.word (C + i) = UInt32.ofNat (kOffset + C + j) ∧ Linked ram ram' P C j js

/-- Two kernel stacks, and the position of the trap frame. -/
structure Stacks (P C t : Nat) : Prop where
  parent : P + kstackSize ≤ kernelMem
  child : C + kstackSize ≤ kernelMem
  disjoint : P + kstackSize ≤ C ∨ C + kstackSize ≤ P
  frame : t + 76 ≤ kstackSize

/-- The child's stack is the parent's, moved. -/
structure Relocated (P C t : Nat) (js : List Nat) (tf : Nat) (ram ram' : Store) : Prop where
  frame : tf = kOffset + C + t
  eax : ram'.word (C + t + 28) = 0
  linked : Linked ram ram' P C (t + 8) js
  rest : ∀ x, x < kstackSize → (x < t + 28 ∨ t + 32 ≤ x) →
    (∀ i ∈ (t + 8) :: js, x < i ∨ i + 4 ≤ x) → ram' (C + x) = ram (P + x)

section Fork

variable {P C t i j n a fuel tf : Nat} {js : List Nat} {s s' : MemoryState} {r ram : Store}
  {w : UInt32}

theorem kernelPa_alias (inside : a + n ≤ physMem) : kernelPa (kOffset + a) n s = .ok a s := by
  unfold kernelPa physMem kOffset at *
  by_cases zero : 3221225472 + a + n ≤ 128 * 1024 * 1024
  · omega
  · rw [if_neg zero, if_pos (by omega), Nat.add_sub_cancel_left]
    rfl

theorem load32_alias (inside : a + 4 ≤ physMem) :
    load32 (kOffset + a) s = .ok (s.ram.word a) s := by
  unfold load32
  rw [run_bind (kernelPa_alias inside), run_bind run_get]
  rfl

theorem store32_alias (inside : a + 4 ≤ physMem) :
    store32 (kOffset + a) w s = .ok ⟨⟩ { s with ram := s.ram.writeWords a 1 fun _ => w } := by
  unfold store32
  rw [run_bind (kernelPa_alias inside)]
  rfl

theorem word_stored : (r.writeWords a 1 fun _ => w).word a = w :=
  Store.word_writeWords (i := 0) (by omega)

/-- The chain goes up. -/
theorem Chain.above (chain : Chain ram P t i js) : ∀ k ∈ js, i + 4 ≤ k := by
  induction chain with
  | last i _ => exact fun k member => by cases member
  | next i j js _ up _ _ _ ih =>
      intro k member
      rcases List.mem_cons.mp member with rfl | member
      · exact up
      · have above := ih k member
        omega

theorem Chain.apart (chain : Chain ram P t i js) : ∀ k ∈ js, k + 4 ≤ t + 28 ∨ t + 32 ≤ k := by
  induction chain with
  | last i _ => exact fun k member => by cases member
  | next i j js _ _ _ apart _ ih =>
      intro k member
      rcases List.mem_cons.mp member with rfl | member
      · exact apart
      · exact ih k member

theorem link_eq_some : link ram P i = some j ↔ (ram.word (P + i)).toNat = kOffset + P + j ∧
    j < kstackSize := by
  unfold link
  split
  · next inside =>
    constructor
    · intro here
      cases here
      omega
    · rintro ⟨value, small⟩
      congr 1
      omega
  · next outside =>
    constructor
    · intro here
      cases here
    · rintro ⟨value, small⟩
      exact (outside (by omega)).elim

theorem link_eq_none : link ram P i = none ↔
    ¬ (kOffset + P ≤ (ram.word (P + i)).toNat ∧
      (ram.word (P + i)).toNat < kOffset + P + kstackSize) := by
  unfold link
  split
  · next inside => simp [inside]
  · next outside => simp [outside]

/-! ### The loop -/

/-- At the last frame pointer the loop ends. -/
theorem relink_last {offset : Nat} (inside : C + i + 4 ≤ physMem)
    (word : s.ram.word (C + i) = ram.word (P + i)) (last : link ram P i = none) :
    relink (kOffset + P) offset (fuel + 1) (kOffset + (C + i)) s = .ok ⟨⟩ s := by
  unfold relink
  rw [run_bind (load32_alias inside), word, if_neg (link_eq_none.mp last)]
  rfl

/-- At every other one it stores the shifted address, and goes on there. -/
theorem relink_next (fuel offset : Nat) (inside : a + 4 ≤ physMem)
    (value : (s.ram.word a).toNat = kOffset + P + j) (small : j < kstackSize) :
    relink (kOffset + P) offset (fuel + 1) (kOffset + a) s
      = relink (kOffset + P) offset fuel (UInt32.ofNat (kOffset + P + j + offset)).toNat
          (s.withRam (s.ram.writeWords a 1 fun _ => UInt32.ofNat (kOffset + P + j + offset))) := by
  have shifted : s.ram.word a + UInt32.ofNat offset = UInt32.ofNat (kOffset + P + j + offset) := by
    rw [UInt32.ofNat_add, ← value, UInt32.ofNat_toNat]
  show (load32 (kOffset + a) >>= fun ebp => _) s = _
  rw [run_bind (load32_alias inside), if_pos (by omega), run_bind (store32_alias inside),
    run_bind (load32_alias inside), word_stored, shifted]
  rfl

/-- **The loop shifts every frame pointer** when the child's stack is the higher one. -/
theorem relink_up (layout : Stacks P C t) (higher : P < C) (chain : Chain ram P t i js)
    (inside : i + 4 ≤ kstackSize) (apart : i + 4 ≤ t + 28 ∨ t + 32 ≤ i)
    (same : ∀ x, i ≤ x → x < kstackSize → (x < t + 28 ∨ t + 32 ≤ x) → r (C + x) = ram (P + x))
    (enough : js.length < fuel) :
    ∃ r', relink (kOffset + P) (C - P) fuel (kOffset + (C + i)) (s.withRam r) =
      .ok ⟨⟩ (s.withRam r') ∧
      Linked ram r' P C i js ∧ ∀ x, (∀ k ∈ i :: js, x < C + k ∨ C + k + 4 ≤ x) → r' x = r x := by
  have child := layout.child
  have parent := layout.parent
  unfold kstackSize kernelMem at parent child
  have below : ∀ x, x + 4 ≤ kstackSize → C + x + 4 ≤ physMem := by
    intro x small
    unfold kstackSize at small
    unfold physMem
    omega
  -- the copied word
  have copied : ∀ (m : Store) (i : Nat), i + 4 ≤ kstackSize → (i + 4 ≤ t + 28 ∨ t + 32 ≤ i) →
      (∀ x, i ≤ x → x < kstackSize → (x < t + 28 ∨ t + 32 ≤ x) → m (C + x) = ram (P + x)) →
      m.word (C + i) = ram.word (P + i) := by
    intro m i inside apart same
    have bytes : ∀ k, k < 4 → m (C + i + k) = ram (P + i + k) := fun k small => by
      rw [Nat.add_assoc, Nat.add_assoc]
      exact same (i + k) (by omega) (by omega) (by omega)
    refine Store.word_eq_iff.mpr fun k small => ?_
    rw [bytes k small, Store.wordByte_word small]
  induction chain generalizing fuel r with
  | last i last =>
      obtain ⟨fuel, rfl⟩ : ∃ f, fuel = f + 1 := ⟨fuel - 1, by omega⟩
      have word := copied r i inside apart same
      exact ⟨r, relink_last (below i inside) word last, word, fun _ _ => rfl⟩
  | next i j js here up inside' apart' chain ih =>
      obtain ⟨fuel, rfl⟩ : ∃ f, fuel = f + 1 := ⟨fuel - 1, by omega⟩
      have word := copied r i inside apart same
      obtain ⟨value, small⟩ := link_eq_some.mp here
      rw [← word] at value
      have next := relink_next fuel (C - P) (s := s.withRam r) (below i inside) value small
      have target : kOffset + P + j + (C - P) = kOffset + (C + j) := by omega
      have fits : (UInt32.ofNat (kOffset + (C + j))).toNat = kOffset + (C + j) := by
        rw [UInt32.toNat_ofNat']
        unfold kOffset kstackSize at *
        exact Nat.mod_eq_of_lt (by omega)
      rw [target, fits, withRam_ram, withRam_twice] at next
      obtain ⟨r₁, is_r⟩ : ∃ m : Store, m = r.writeWords (C + i) 1 fun _ =>
        UInt32.ofNat (kOffset + (C + j)) := ⟨_, rfl⟩
      have unchanged : ∀ x, (x < C + i ∨ C + i + 4 ≤ x) → r₁ x = r x := by
        intro x away
        rw [is_r]
        exact Store.writeWords_outside (by omega)
      rw [← is_r] at next
      have short : js.length < fuel := by simpa using enough
      obtain ⟨r', run, linked, rest⟩ := ih inside' apart' (r := r₁)
        (fun x low high away => (unchanged _ (by omega)).trans (same x (by omega) high away)) short
      have above := chain.above
      have shifted : r'.word (C + i) = UInt32.ofNat (kOffset + C + j) := by
        have kept : r'.word (C + i) = r₁.word (C + i) :=
            Store.word_congr fun k small => rest _ fun l member => by
          rcases List.mem_cons.mp member with rfl | member
          · omega
          · have high := above l member
            omega
        rw [kept, is_r, word_stored, Nat.add_assoc]
      refine ⟨r', next.trans run, ⟨shifted, linked⟩, fun x away => ?_⟩
      rw [rest x fun k member => away k (List.mem_cons_of_mem i member),
        unchanged x (away i (List.mem_cons_self ..))]

/-! ### The copied stack -/

/-- The distance of the two stacks. -/
def distance (P C : Nat) : Nat := if P < C then C - P else P - C

/-- In front of the loop the child's stack is the parent's with another `eax`. -/
theorem forkStack_start (layout : Stacks P C t) :
    ∃ r, (∀ fuel, forkStack fuel (kOffset + P) (kOffset + C) (kOffset + P + t) s
      = (relink (kOffset + P) (distance P C) fuel (kOffset + (C + (t + 8))) >>= fun _ =>
        pure (kOffset + C + t)) (s.withRam r)) ∧
    (∀ x, x < kstackSize → (x < t + 28 ∨ t + 32 ≤ x) → r (C + x) = s.ram (P + x)) ∧
    r.word (C + t + 28) = 0 := by
  have child := layout.child
  have parent := layout.parent
  have frame := layout.frame
  unfold kstackSize kernelMem at parent child
  unfold kstackSize at frame
  obtain ⟨r₁, is₁⟩ : ∃ m : Store, m = s.ram.write C (s.ram.read P kstackSize) := ⟨_, rfl⟩
  obtain ⟨r₂, is₂⟩ : ∃ m : Store, m = r₁.writeWords (C + t + 28) 1 fun _ => 0 := ⟨_, rfl⟩
  refine ⟨r₂, fun fuel => ?_, fun x small away => ?_, ?_⟩
  · have copied : memcpy (kOffset + C) (kOffset + P) kstackSize s = .ok ⟨⟩ (s.withRam r₁) := by
      rw [memcpy_at (kernelPa_alias (by unfold kstackSize physMem; omega))
        (kernelPa_alias (by unfold kstackSize physMem; omega)), is₁]
      rfl
    have cleared : store32 (kOffset + (C + t + 28)) 0 (s.withRam r₁) = .ok ⟨⟩ (s.withRam r₂) := by
      rw [store32_alias (by unfold physMem; omega), is₂]
      rfl
    have offset :
        (if kOffset + P < kOffset + C then kOffset + C - (kOffset + P)
          else kOffset + P - (kOffset + C)) = distance P C := by
      unfold distance
      by_cases higher : P < C
      · rw [if_pos higher, if_pos (by omega)]
        omega
      · rw [if_neg higher, if_neg (by omega)]
        omega
    have place :
      (if kOffset + P < kOffset + C then kOffset + P + t + distance P C
        else kOffset + P + t - distance P C)
        = kOffset + C + t := by
      unfold distance
      by_cases higher : P < C
      · rw [if_pos higher, if_pos (by omega)]
        omega
      · rw [if_neg higher, if_neg (by omega)]
        omega
    unfold forkStack
    rw [offset, place, run_bind copied, show kOffset + C + t + 28 = kOffset + (C + t + 28) by
      omega, run_bind cleared, show kOffset + C + t + 8 = kOffset + (C + (t + 8)) by omega]
  · have bytes : r₁ (C + x) = s.ram (P + x) := by
      rw [is₁, Store.write_inside (by simpa using small), Store.read_getD small]
    rw [is₂, Store.writeWords_outside (by omega), bytes]
  · rw [is₂, word_stored]

/-- What the loop has to leave behind. -/
theorem relocated_of {r' : Store} (chain : Chain ram P t (t + 8) js)
    (copied : ∀ x, x < kstackSize → (x < t + 28 ∨ t + 32 ≤ x) → r (C + x) = ram (P + x))
    (eax : r.word (C + t + 28) = 0) (linked : Linked ram r' P C (t + 8) js)
    (rest : ∀ x, (∀ k ∈ (t + 8) :: js, x < C + k ∨ C + k + 4 ≤ x) → r' x = r x) :
    Relocated P C t js (kOffset + C + t) ram r' where
  frame := rfl
  eax := by
    rw [← eax]
    refine Store.word_congr fun k small => rest _ fun l member => ?_
    rcases List.mem_cons.mp member with rfl | member
    · omega
    · rcases chain.apart l member with low | high
      · omega
      · omega
  linked := linked
  rest := fun x small away apart => by
    rw [rest (C + x) fun k member => ?_, copied x small away]
    rcases apart k member with low | high
    · omega
    · omega

/-- If the child's stack is the lower one, the loop goes on above the parent's stack. -/
theorem relink_above {offset : Nat} (layout : P + kstackSize ≤ kernelMem)
    (near : offset ≤ kernelMem) (low : P + offset ≤ a) (high : a < P + offset + kstackSize)
    (run : relink (kOffset + P) offset fuel (kOffset + a) s = .ok ⟨⟩ s') :
    ∀ x, x < P + offset → s'.ram x = s.ram x := by
  induction fuel generalizing a s with
  | zero => cases run
  | succ fuel ih =>
      unfold kstackSize kernelMem at layout
      unfold kernelMem at near
      unfold kstackSize at high
      have inside : a + 4 ≤ physMem := by
        unfold physMem
        omega
      by_cases stack : kOffset + P ≤ (s.ram.word a).toNat ∧
        (s.ram.word a).toNat < kOffset + P + kstackSize
      · obtain ⟨j, value⟩ : ∃ j, (s.ram.word a).toNat = kOffset + P + j :=
          ⟨_, (Nat.add_sub_of_le stack.1).symm⟩
        have small : j < kstackSize := by omega
        have fits : (UInt32.ofNat (kOffset + P + j + offset)).toNat =
            kOffset + (P + offset + j) := by
          rw [UInt32.toNat_ofNat',
            show kOffset + P + j + offset = kOffset + (P + offset + j) by omega]
          unfold kOffset kstackSize at *
          exact Nat.mod_eq_of_lt (by omega)
        rw [relink_next fuel offset inside value small, fits] at run
        intro x below
        rw [ih (by omega) (by omega) run x below, withRam_ram]
        exact Store.writeWords_outside (by omega)
      · unfold relink at run
        rw [run_bind (load32_alias inside), if_neg stack] at run
        cases run
        exact fun _ _ => rfl

/-- So the first frame pointer stays shifted up. -/
theorem forkStack_lower (layout : Stacks P C t) (lower : C < P)
    (first : link s.ram P (t + 8) = some j)
    (run : forkStack fuel (kOffset + P) (kOffset + C) (kOffset + P + t) s = .ok tf s') :
    s'.ram.word (C + (t + 8)) ≠ UInt32.ofNat (kOffset + C + j) := by
  have child := layout.child
  have parent := layout.parent
  have disjoint := layout.disjoint
  have frame := layout.frame
  obtain ⟨r, start, copied, _⟩ := forkStack_start (s := s) layout
  rw [start fuel, distance, if_neg (by omega)] at run
  obtain ⟨_, s₁, loop, ends⟩ := bind_eq_ok.mp run
  cases ends
  obtain ⟨value, small⟩ := link_eq_some.mp first
  unfold kstackSize kernelMem at parent child
  unfold kstackSize at disjoint frame small
  have word : r.word (C + (t + 8)) = s.ram.word (P + (t + 8)) := by
    refine Store.word_eq_iff.mpr fun k byte => ?_
    rw [Nat.add_assoc, copied _ (by unfold kstackSize; omega) (by omega), ← Nat.add_assoc,
      Store.wordByte_word byte]
  rw [← word] at value
  cases fuel with
  | zero => cases loop
  | succ fuel =>
      have fits : (UInt32.ofNat (kOffset + P + j + (P - C))).toNat =
          kOffset + (P + (P - C) + j) := by
        rw [UInt32.toNat_ofNat',
          show kOffset + P + j + (P - C) = kOffset + (P + (P - C) + j) by omega]
        unfold kOffset
        exact Nat.mod_eq_of_lt (by omega)
      rw [relink_next fuel (P - C) (s := s.withRam r) (by unfold physMem; omega) value small,
        fits] at loop
      have kept := relink_above layout.parent (by unfold kernelMem; omega) (by omega)
        (by unfold kstackSize; omega) loop
      have same : s'.ram.word (C + (t + 8)) = UInt32.ofNat (kOffset + P + j + (P - C)) := by
        rw [Store.word_congr fun k _ => kept _ (by omega), withRam_ram, withRam_ram, word_stored]
      rw [same]
      intro equal
      have numbers := congrArg UInt32.toNat equal
      rw [fits, UInt32.toNat_ofNat', Nat.mod_eq_of_lt (by unfold kOffset; omega)] at numbers
      omega

/-- **The child's stack is right exactly if it is the higher one, or if there is no frame pointer to
shift.** -/
theorem forkStack_iff (layout : Stacks P C t) (chain : Chain s.ram P t (t + 8) js) :
    (∃ fuel tf ram, forkStack fuel (kOffset + P) (kOffset + C)
      (kOffset + P + t) s = .ok tf (s.withRam ram) ∧
      Relocated P C t js tf s.ram ram) ↔ P < C ∨ js = [] := by
  have disjoint := layout.disjoint
  have frame := layout.frame
  unfold kstackSize at disjoint frame
  constructor
  · rintro ⟨fuel, tf, ram, run, relocated⟩
    by_contra neither
    obtain ⟨lower, some⟩ := not_or.mp neither
    cases chain with
    | last _ _ => exact some rfl
    | next _ j js first _ _ _ _ =>
      exact forkStack_lower layout (by omega) first run relocated.linked.1
  · intro holds
    obtain ⟨r, start, copied, eax⟩ := forkStack_start (s := s) layout
    have loop :
      ∃ fuel r', relink (kOffset + P) (distance P C) fuel (kOffset + (C + (t + 8))) (s.withRam r) =
      .ok ⟨⟩ (s.withRam r') ∧
        Linked s.ram r' P C (t + 8) js ∧ ∀ x, (∀ k ∈ (t + 8) :: js, x < C + k ∨ C + k + 4 ≤ x) →
          r' x = r x := by
      by_cases higher : P < C
      · have up := relink_up (s := s) layout higher chain (by unfold kstackSize; omega) (by omega)
          (fun x _ small away => copied x small away) (Nat.lt_succ_self js.length)
        rw [← show distance P C = C - P from if_pos higher] at up
        exact ⟨js.length + 1, up⟩
      · obtain rfl : js = [] := holds.resolve_left higher
        cases chain with
        | last _ last =>
            have child := layout.child
            unfold kstackSize kernelMem at child
            have word : r.word (C + (t + 8)) = s.ram.word (P + (t + 8)) := by
              refine Store.word_eq_iff.mpr fun k byte => ?_
              rw [Nat.add_assoc, copied _ (by unfold kstackSize; omega) (by omega), ← Nat.add_assoc,
                Store.wordByte_word byte]
            exact ⟨1, r, relink_last (by unfold physMem; omega) word last, word, fun _ _ => rfl⟩
    obtain ⟨fuel, r', run, linked, rest⟩ := loop
    refine ⟨fuel, _, r', ?_, relocated_of chain copied eax linked rest⟩
    rw [start fuel, run_bind run]
    rfl

end Fork

/-! ### A chain of one link -/

/-- Memory with a stack at `P` whose trap frame lies at its begin and names position `100` as the
frame pointer. -/
def stackMemory (P : Nat) : Store :=
  Store.writeWords (fun _ => 0) (P + 8) 1 fun _ => UInt32.ofNat (kOffset + P + 100)

theorem stackMemory_chain {P : Nat} (small : P < 65536) : Chain (stackMemory P) P 0 8 [100] := by
  have value : ((stackMemory P).word (P + 8)).toNat = kOffset + P + 100 := by
    unfold stackMemory
    rw [word_stored, UInt32.toNat_ofNat']
    unfold kOffset
    exact Nat.mod_eq_of_lt (by omega)
  have zero : (stackMemory P).word (P + 100) = 0 := by
    unfold stackMemory
    rw [Store.word_writeWords_outside (by omega)]
    rfl
  refine .next 8 100 [] (link_eq_some.mpr ⟨value, by decide⟩) (by omega) (by decide) (by omega)
    (.last 100 ?_)
  rw [link_eq_none, zero]
  unfold kOffset
  rintro ⟨low, _⟩
  exact absurd (le_trans (Nat.le_add_right _ _) low) (by decide)

/-- A memory with one frame on the kernel stack of the parent. -/
def stackState (P : Nat) : MemoryState where
  ram := stackMemory P
  pageBitmap := fun _ => false
  bitmapIdx := 0
  spaces := fun _ => { cr3 := 0, entry := 0, heapStart := 0, heapTop := 0 }

/-- The child's stack two pages above the parent's. -/
theorem forkStack_higher : ∃ fuel tf ram,
    forkStack fuel (kOffset + 4096) (kOffset + 12288) (kOffset + 4096 + 0) (stackState 4096) =
      .ok tf ((stackState 4096).withRam ram) ∧
      Relocated 4096 12288 0 [100] tf (stackMemory 4096) ram :=
  (forkStack_iff (s := stackState 4096) ⟨by decide, by decide, by decide, by decide⟩
    (stackMemory_chain (by omega))).mpr
    (.inl (by omega))

/-- The child's stack two pages below the parent's. -/
theorem forkStack_below : Chain (stackMemory 12288) 12288 0 8 [100] ∧ ¬ ∃ fuel tf ram,
    forkStack fuel (kOffset + 12288) (kOffset + 4096) (kOffset + 12288 + 0) (stackState 12288)
        = .ok tf ((stackState 12288).withRam ram) ∧
      Relocated 12288 4096 0 [100] tf (stackMemory 12288) ram := by
  have chain := stackMemory_chain (P := 12288) (by omega)
  refine ⟨chain, fun ⟨fuel, tf, ram, run, relocated⟩ => ?_⟩
  cases chain with
  | next _ j js first _ _ _ _ =>
      exact forkStack_lower (s := stackState 12288) ⟨by decide, by decide, by decide, by decide⟩
        (by omega) first run
        relocated.linked.1

end NjuOs.Memory
