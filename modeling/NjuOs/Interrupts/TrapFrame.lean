/-
**From an interrupt to `irq_handle` and back.**

The processor begins an interrupt, `do_irq.S` goes on: the stub of the vector pushes an error code
where the processor has not, and the number of the interrupt; `asm_do_irq` pushes the registers and
calls `irq_handle` with the address of what lies on the stack now, a `TrapFrame`. The way back pops
all of it, from the frame that `current->tf` points to.

* `enter_frame`: for every vector of `init_idt`, with and without an error code, from the kernel and
  from a user program, the frame is that of the registers, and nothing but the part of the stack
  that it takes is written.
* `leave_frame`: the way back from a frame gives the registers it was made of.

Memory is that of the kernel, which lies at the same addresses in every address space. A segment
register takes sixteen bits of a word, and only the selectors that the processor can load: what it
does with any other one is a fault, `none` here.
-/

import Mathlib.Tactic.IntervalCases
import Mathlib.Data.List.Basic
import NjuOs.Lib.Bytes

namespace NjuOs.Interrupts

open NjuOs.Lib

/-! ### The processor -/

/-- The registers, with the segment registers and the flags. -/
@[ext] structure Regs where
  edi : UInt32
  esi : UInt32
  ebp : UInt32
  esp : UInt32
  ebx : UInt32
  edx : UInt32
  ecx : UInt32
  eax : UInt32
  gs : UInt32
  fs : UInt32
  es : UInt32
  ds : UInt32
  eip : UInt32
  cs : UInt32
  eflags : UInt32
  ss : UInt32
  deriving DecidableEq

/-- The selector is one of a user program. -/
def Regs.User (r : Regs) : Prop := r.cs % 4 = 3

instance (r : Regs) : Decidable r.User := inferInstanceAs (Decidable (_ = _))

/-- `SELECTOR_KERNEL(SEG_KERNEL_CODE)` -/
def kernelCode : UInt32 := 8

/-- `SELECTOR_KERNEL(SEG_KERNEL_DATA)` -/
def kernelData : UInt32 := 16

/-- `SELECTOR_USER(SEG_USER_CODE)` -/
def userCode : UInt32 := 0x1b

/-- `SELECTOR_USER(SEG_USER_DATA)` -/
def userData : UInt32 := 0x23

/-- The processor and the memory. -/
@[ext] structure Cpu where
  regs : Regs
  ram : Store

/-- The segment registers that the entry saves. -/
inductive Seg where
  | ds | es | fs | gs
  deriving DecidableEq

/-- What a segment register holds. -/
def Regs.seg (r : Regs) : Seg → UInt32
  | .ds => r.ds
  | .es => r.es
  | .fs => r.fs
  | .gs => r.gs

/-- Another value in a segment register. -/
def Regs.setSeg (r : Regs) (s : Seg) (w : UInt32) : Regs :=
  match s with
  | .ds => { r with ds := w }
  | .es => { r with es := w }
  | .fs => { r with fs := w }
  | .gs => { r with gs := w }

/-- The privilege levels of the segments of `init_segment`, by their index. -/
def privilegeLevel : Nat → Option Nat
  | 1 => some 0
  | 2 => some 0
  | 3 => some 3
  | 4 => some 3
  | _ => none

/-- The processor loads the selector into a data segment register: it is null, or names a segment
that neither the code nor the selector is too low for. -/
def loads (cpl : Nat) (w : UInt32) : Bool :=
  w.toNat < 4 || match privilegeLevel (w.toNat / 8) with
    | some dpl => w.toNat / 4 % 2 = 0 && max cpl (w.toNat % 4) ≤ dpl
    | none => false

/-- What the processor always has in its segment registers. -/
structure Regs.Valid (r : Regs) : Prop where
  code : r.cs = kernelCode ∧ r.ss = kernelData ∨ r.cs = userCode ∧ r.ss = userData
  data : ∀ s, loads (r.cs.toNat % 4) (r.seg s)

/-- A segment register is loaded; a fault if the descriptor cannot be. -/
def Cpu.loadSeg (s : Seg) (w : UInt32) (c : Cpu) : Option Cpu :=
  if loads 0 w then some { c with regs := c.regs.setSeg s w } else none

/-- A word is pushed. -/
def Cpu.push (w : UInt32) (c : Cpu) : Cpu where
  regs := { c.regs with esp := c.regs.esp - 4 }
  ram := c.ram.writeWords (c.regs.esp - 4).toNat 1 fun _ => w

@[simp] theorem Cpu.push_regs (w : UInt32) (c : Cpu) :
    (c.push w).regs = { c.regs with esp := c.regs.esp - 4 } := rfl

/-- The word at the top of the stack, which a `pop` takes. -/
def Cpu.top (c : Cpu) : UInt32 := c.ram.word c.regs.esp.toNat

/-- A word is dropped. -/
def Cpu.drop (c : Cpu) : Cpu := { c with regs.esp := c.regs.esp + 4 }

/-- The interrupt flag, `0x200` of `eflags`. -/
def clearIf (eflags : UInt32) : UInt32 := eflags &&& ~~~0x200

/-- The instructions of `do_irq.S`, but for the jumps and the call. -/
inductive Instr where
  | pushl (w : UInt32)
  | pushSeg (s : Seg)
  | popSeg (s : Seg)
  | pushal
  | popal
  | cli
  | movwToAx (w : UInt32)
  | movwFromAx (s : Seg)
  | addlEsp (n : UInt32)

/-- No result where the processor finds a fault. -/
def Instr.exec (i : Instr) (c : Cpu) : Option Cpu :=
  match i with
  | .pushl w => some (c.push w)
  | .pushSeg s => some (c.push (c.regs.seg s))
  | .popSeg s => c.drop.loadSeg s (c.top &&& 0xFFFF)
  | .pushal =>
      let r := c.regs
      some ((((((((c.push r.eax).push r.ecx).push r.edx).push r.ebx).push r.esp).push r.ebp).push
        r.esi).push r.edi)
  | .popal =>
      -- the word of `esp` is skipped
      let word (k : UInt32) := c.ram.word (c.regs.esp + k).toNat
      some { c with regs :=
        { c.regs with
          edi := word 0
          esi := word 4
          ebp := word 8
          ebx := word 16
          edx := word 20
          ecx := word 24
          eax := word 28
          esp := c.regs.esp + 32 } }
  | .cli => some { c with regs.eflags := clearIf c.regs.eflags }
  | .movwToAx w => some { c with regs.eax := (c.regs.eax &&& 0xFFFF0000) ||| w }
  | .movwFromAx s => c.loadSeg s (c.regs.eax &&& 0xFFFF)
  | .addlEsp n => some { c with regs.esp := c.regs.esp + n }

/-- The instructions one after the other, up to a fault. -/
def run : List Instr → Cpu → Option Cpu
  | [], c => some c
  | i :: code, c => (i.exec c).bind (run code)

theorem run_append (code code' : List Instr) (c : Cpu) :
    run (code ++ code') c = (run code c).bind (run code') := by
  induction code generalizing c with
  | nil => rfl
  | cons i code ih =>
      show (i.exec c).bind (run (code ++ code')) = ((i.exec c).bind (run code)).bind (run code')
      rw [Option.bind_assoc]
      exact congrArg _ (funext ih)

/-! ### The stubs -/

/-- The labels of `do_irq.S`. -/
inductive Label where
  | vec (n : Nat)
  | vecsys
  | irq0
  | irq1
  | irq14
  | irqEmpty
  deriving DecidableEq

/-- What the stubs push; where the processor pushes an error code they push none. -/
def Label.code : Label → List Instr
  | .vec n => if n = 8 ∨ 10 ≤ n then [.pushl (UInt32.ofNat n)]
      else [.pushl 0, .pushl (UInt32.ofNat n)]
  | .vecsys => [.pushl 0, .pushl 0x80]
  | .irq0 => [.pushl 0, .pushl 1000]
  | .irq1 => [.pushl 0, .pushl 1001]
  | .irq14 => [.pushl 0, .pushl 1014]
  | .irqEmpty => [.pushl 0, .pushl (-1)]

/-- `asm_do_irq`, up to the call. -/
def asmDoIrq : List Instr :=
  [.cli, .pushSeg .ds, .pushSeg .es, .pushSeg .fs, .pushSeg .gs, .pushal,
    .movwToAx kernelData, .movwFromAx .ds, .movwFromAx .es]

/-- And behind it, from the new `esp` on, up to `iret`. -/
def asmDoIrqEnd : List Instr :=
  [.popal, .popSeg .gs, .popSeg .fs, .popSeg .es, .popSeg .ds, .addlEsp 8]

/-! ### The IDT -/

/-- The two types of gates. -/
inductive GateType where
  | interrupt
  | trap
  deriving DecidableEq

/-- `GateDescriptor`. -/
structure Gate where
  segment : UInt32
  offset : Label
  type : GateType
  privilegeLevel : Nat
  deriving DecidableEq

/-- `set_intr`. -/
def setIntr (selector : UInt32) (offset : Label) (dpl : Nat) : Gate :=
  ⟨selector, offset, .interrupt, dpl⟩

/-- `set_trap`. -/
def setTrap (selector : UInt32) (offset : Label) (dpl : Nat) : Gate :=
  ⟨selector, offset, .trap, dpl⟩

/-- `init_idt` -/
def initIdt : Nat → Gate :=
  let empty : Nat → Gate := fun _ => setTrap kernelCode .irqEmpty 0
  let vectors := (List.range 15).foldl
    (fun idt i => Function.update idt i (setTrap kernelCode (.vec i) 0)) empty
  let system := Function.update vectors 0x80 (setTrap kernelCode .vecsys 3)
  let timer := Function.update system (32 + 0) (setIntr kernelCode .irq0 0)
  let keyboard := Function.update timer (32 + 1) (setIntr kernelCode .irq1 0)
  Function.update keyboard (32 + 14) (setIntr kernelCode .irq14 0)

/-- The exceptions for which the processor pushes an error code. -/
def pushesError (v : Nat) : Bool := v = 8 ∨ 10 ≤ v ∧ v ≤ 14 ∨ v = 17

/-- **What the processor does**: on the stack of the kernel, which for a user program begins at
`esp0`, it pushes where the program is. -/
def begin (esp0 : UInt32) (v : Nat) (error : UInt32) (c : Cpu) : Cpu :=
  let gate := initIdt v
  let r := c.regs
  let c := if r.User then
    (({ c with regs.esp := esp0, regs.ss := kernelData } : Cpu).push r.ss).push r.esp else c
  let c := ((c.push r.eflags).push r.cs).push r.eip
  let c := if pushesError v then c.push error else c
  let eflags := if gate.type = .interrupt then clearIf c.regs.eflags else c.regs.eflags
  { c with regs := { c.regs with cs := gate.segment, eflags } }

/-- An interrupt, up to the call of `irq_handle`; `esp` is its argument. Gates of type trap leave
interrupts on up to the `cli`: one that comes before it only has its frame below this one, so the
way in is taken as one step. -/
def enter (esp0 : UInt32) (v : Nat) (error : UInt32) (c : Cpu) : Option Cpu :=
  run ((initIdt v).offset.code ++ asmDoIrq) (begin esp0 v error c)

/-- A user program keeps no segment that it could not load itself. -/
def own (w : UInt32) : UInt32 := if loads 3 w then w else 0

/-- Other values in the four segment registers. -/
def Regs.mapSegs (f : UInt32 → UInt32) (r : Regs) : Regs :=
  { r with gs := f r.gs, fs := f r.fs, es := f r.es, ds := f r.ds }

/-- `iret`, back into the kernel or to a user program. -/
def iret (c : Cpu) : Option Cpu :=
  let word (k : UInt32) := c.ram.word (c.regs.esp + k).toNat
  let r :=
    { c.regs with eip := word 0, cs := word 4 &&& 0xFFFF, eflags := word 8, esp := c.regs.esp + 12 }
  if r.cs = kernelCode then
    some { c with regs := r }
  else if r.cs = userCode ∧ word 16 &&& 0xFFFF = userData then
    some { c with regs := { r with esp := word 12, ss := userData }.mapSegs own }
  else
    none

/-- The way back, from the frame at `tf`. -/
def leave (tf : UInt32) (c : Cpu) : Option Cpu :=
  (run asmDoIrqEnd { c with regs.esp := tf }).bind iret

/-! ### The selectors -/

section Selectors

variable {w : UInt32} {cpl : Nat}

/-- The table ends with `SEG_USER_DATA`, but for the TSS. -/
theorem loads_lt (loadable : loads cpl w) : w.toNat < 40 := by
  by_contra high
  have null : ¬ w.toNat < 4 := by omega
  have index : privilegeLevel (w.toNat / 8) = none := by
    have behind : 5 ≤ w.toNat / 8 := by omega
    obtain ⟨k, is_k⟩ := Nat.exists_eq_add_of_le behind
    rw [is_k, Nat.add_comm 5 k]
    rfl
  unfold loads at loadable
  rw [index, decide_eq_false null] at loadable
  exact absurd loadable nofun

theorem selector_eq (loadable : loads cpl w) : w &&& 0xFFFF = w := by
  have small := loads_lt loadable
  refine UInt32.toNat_inj.mp ?_
  rw [UInt32.toNat_and]
  exact (Nat.and_two_pow_sub_one_eq_mod w.toNat 16).trans (Nat.mod_eq_of_lt (by omega))

/-- What a user program can load, the kernel can. -/
theorem loads_kernel (loadable : loads 3 w) : loads 0 w := by
  unfold loads at loadable ⊢
  cases level : privilegeLevel (w.toNat / 8) with
  | none =>
      rw [level] at loadable
      exact loadable
  | some dpl =>
      rw [level] at loadable
      simp only [Bool.or_eq_true, Bool.and_eq_true, decide_eq_true_eq] at loadable ⊢
      omega

theorem loads_own (w : UInt32) : loads 3 (own w) := by
  unfold own
  split
  · assumption
  · decide

/-- What a segment register holds behind the way back, for the word on the stack. -/
def returned (user : Prop) [Decidable user] (w : UInt32) : Option UInt32 :=
  if loads 0 (w &&& 0xFFFF) then some (if user then own (w &&& 0xFFFF) else w &&& 0xFFFF) else none

theorem returned_eq_some {user : Prop} [Decidable user] {s : UInt32} : returned user w = some s ↔
    loads 0 (w &&& 0xFFFF) ∧ (if user then own (w &&& 0xFFFF) else w &&& 0xFFFF) = s := by
  unfold returned
  split
  · next loadable => exact ⟨fun same => ⟨loadable, Option.some.inj same⟩,
      fun same => congrArg some same.2⟩
  · next fault => exact ⟨nofun, fun same => absurd same.1 fault⟩

theorem Regs.Valid.user {r : Regs} (valid : r.Valid) : r.User ↔ r.cs = userCode := by
  unfold Regs.User
  rcases valid.code with ⟨cs, _⟩ | ⟨cs, _⟩ <;> rw [cs] <;> decide

/-- What the processor has in a segment register comes back. -/
theorem Regs.Valid.returned {r : Regs} (valid : r.Valid) (s : Seg) :
    returned r.User (r.seg s) = some (r.seg s) := by
  have loadable := valid.data s
  have low := selector_eq loadable
  rw [returned_eq_some, low]
  rcases valid.code with ⟨cs, _⟩ | ⟨cs, _⟩ <;> rw [cs] at loadable
  · exact ⟨loadable, if_neg fun user => absurd (cs.symm.trans (valid.user.mp user)) (by decide)⟩
  · refine ⟨loads_kernel loadable, (if_pos (valid.user.mpr cs)).trans ?_⟩
    unfold own
    exact if_pos loadable

end Selectors

/-! ### The stack -/

section Stack

variable {c : Cpu} {ram : Store} {r : Regs} {ws : List UInt32} {v a : Nat} {error esp0 tf : UInt32}

theorem toNat_sub_four {x : UInt32} (room : 4 ≤ x.toNat) : (x - 4).toNat = x.toNat - 4 := by
  have le : (4 : UInt32) ≤ x := UInt32.le_iff_toNat_le.mpr room
  rw [UInt32.toNat_sub_of_le x 4 le]
  rfl

theorem toNat_add_small {x k : UInt32} (room : x.toNat + k.toNat < 4294967296) :
    (x + k).toNat = x.toNat + k.toNat := by
  rw [UInt32.toNat_add]
  exact Nat.mod_eq_of_lt room

/-- **What is pushed lies below the old top**, the last word lowest, and nothing else changes in
memory. -/
structure Pushed (c c' : Cpu) (ws : List UInt32) : Prop where
  esp : c'.regs.esp.toNat + 4 * ws.length = c.regs.esp.toNat
  words : ∀ i w, ws[i]? = some w → c'.ram.word (c.regs.esp.toNat - 4 * (i + 1)) = w
  outside : ∀ x, x + 4 * ws.length < c.regs.esp.toNat ∨ c.regs.esp.toNat ≤ x → c'.ram x = c.ram x

theorem Pushed.nil {c' : Cpu} (esp : c'.regs.esp = c.regs.esp) (ram : c'.ram = c.ram) :
    Pushed c c' [] :=
  ⟨congrArg UInt32.toNat esp, fun _ _ none => absurd none nofun, fun _ _ => by rw [ram]⟩

theorem Pushed.push {c' : Cpu} {w : UInt32} (pushed : Pushed c c' ws)
    (room : 4 ≤ c'.regs.esp.toNat) :
    Pushed c (c'.push w) (ws ++ [w]) := by
  have lower : (c'.regs.esp - 4).toNat = c'.regs.esp.toNat - 4 := toNat_sub_four room
  have sum := pushed.esp
  have written : (c'.push w).ram = c'.ram.writeWords (c'.regs.esp - 4).toNat 1 fun _ => w := rfl
  refine ⟨?_, fun i u here => ?_, fun x away => ?_⟩
  · show (c'.regs.esp - 4).toNat + 4 * (ws ++ [w]).length = _
    rw [lower, List.length_append, List.length_singleton]
    omega
  · rw [written]
    rcases lt_or_ge i ws.length with old | new
    · rw [List.getElem?_append_left old] at here
      rw [Store.word_writeWords_outside (by omega)]
      exact pushed.words i u here
    · obtain rfl : i = ws.length := by
        have bound := (List.getElem?_eq_some_iff.mp here).1
        rw [List.length_append, List.length_singleton] at bound
        omega
      rw [List.getElem?_append_right le_rfl, Nat.sub_self] at here
      obtain rfl := Option.some.inj here
      rw [show c.regs.esp.toNat - 4 * (ws.length + 1) = (c'.regs.esp - 4).toNat by omega]
      exact Store.word_writeWords (i := 0) Nat.one_pos
  · rw [List.length_append, List.length_singleton] at away
    rw [written, Store.writeWords_outside (by omega)]
    exact pushed.outside x (by omega)

/-- Only the stack pointer and the memory count. -/
theorem Pushed.congr {c' c'' : Cpu} (pushed : Pushed c c' ws) (esp : c''.regs.esp = c'.regs.esp)
    (ram : c''.ram = c'.ram) :
    Pushed c c'' ws :=
  ⟨by
    rw [esp]; exact pushed.esp, by rw [ram]; exact pushed.words, by rw [ram]; exact pushed.outside⟩

theorem Pushed.trans {c' c'' : Cpu} {ws' : List UInt32} (first : Pushed c c' ws)
    (second : Pushed c' c'' ws') :
    Pushed c c'' (ws ++ ws') := by
  have sum := first.esp
  have sum' := second.esp
  refine ⟨by rw [List.length_append]; omega, fun i w here => ?_, fun x away => ?_⟩
  · rcases lt_or_ge i ws.length with old | new
    · rw [List.getElem?_append_left old] at here
      rw [← first.words i w here]
      exact Store.word_congr fun k small => second.outside _ (.inr (by omega))
    · rw [List.getElem?_append_right new] at here
      rw [← second.words _ w here]
      have bound := (List.getElem?_eq_some_iff.mp here).1
      congr 1
      omega
  · rw [List.length_append] at away
    rw [second.outside x (by omega), first.outside x (by omega)]

theorem Pushed.pushes {c' : Cpu} (pushed : Pushed c c' ws) (ws' : List UInt32)
    (room : 4 * ws'.length ≤ c'.regs.esp.toNat) :
    Pushed c (ws'.foldl (fun c w => c.push w) c') (ws ++ ws') := by
  induction ws' generalizing c' ws with
  | nil =>
      rw [List.append_nil]
      exact pushed
  | cons w ws' ih =>
      rw [List.length_cons] at room
      have lower : (c'.push w).regs.esp.toNat = c'.regs.esp.toNat - 4 := toNat_sub_four (by omega)
      have left : 4 * ws'.length ≤ (c'.push w).regs.esp.toNat := by omega
      rw [List.append_cons]
      exact ih (pushed.push (by omega)) left

/-- The words as they lie in memory. -/
theorem Pushed.image {c' : Cpu} {k : Nat} {w : UInt32} (pushed : Pushed c c' ws)
    (here : ws.reverse[k]? = some w) :
    c'.ram.word (c'.regs.esp.toNat + 4 * k) = w := by
  have sum := pushed.esp
  have bound := (List.getElem?_eq_some_iff.mp here).1
  rw [List.length_reverse] at bound
  rw [List.getElem?_reverse bound] at here
  rw [← pushed.words _ w here]
  congr 1
  omega

/-! ### The way in -/

/-- The vectors that have a stub of their own. -/
def Handled (v : Nat) : Prop := v < 15 ∨ v = 0x80 ∨ v = 32 ∨ v = 33 ∨ v = 46

/-- The number of an interrupt, as `irq_handle` finds it. -/
def irqOf (v : Nat) : UInt32 :=
  if v < 15 ∨ v = 0x80 then UInt32.ofNat v else UInt32.ofNat (1000 + (v - 32))

theorem initIdt_offset (handled : Handled v) : (initIdt v).offset.code =
    if pushesError v then [.pushl (irqOf v)] else [.pushl 0, .pushl (irqOf v)] := by
  rcases handled with low | rfl | rfl | rfl | rfl
  · interval_cases v <;> rfl
  · rfl
  · rfl
  · rfl
  · rfl

/-- The vectors without one end in a panic: their number is `-1`. -/
theorem initIdt_empty (unhandled : ¬ Handled v) : (initIdt v).offset = .irqEmpty := by
  unfold Handled at unhandled
  obtain ⟨high, notSys, notTimer, notKeyboard, notDisk⟩ : ¬ v < 15 ∧ v ≠ 0x80 ∧ v ≠ 32 ∧
      v ≠ 33 ∧ v ≠ 46 := by
    simpa only [not_or] using unhandled
  unfold initIdt
  rw [Function.update_of_ne notDisk, Function.update_of_ne notKeyboard,
    Function.update_of_ne notTimer, Function.update_of_ne notSys]
  have vectors : ∀ n, n ≤ 15 →
    (List.range n).foldl (fun idt i => Function.update idt i (setTrap kernelCode (.vec i) 0))
      (fun _ => setTrap kernelCode .irqEmpty 0) v = setTrap kernelCode .irqEmpty 0 :=
      fun n small => by
    induction n with
    | zero => rfl
    | succ n ih =>
        rw [List.range_succ, List.foldl_append, List.foldl_cons, List.foldl_nil,
          Function.update_of_ne (by omega)]
        exact ih (by omega)
  rw [vectors 15 le_rfl]
  rfl

/-- A frame, as it lies in memory. -/
def image (r : Regs) (xxx irq error : UInt32) : List UInt32 :=
  [r.edi, r.esi, r.ebp, xxx, r.ebx, r.edx, r.ecx, r.eax, r.gs, r.fs, r.es, r.ds, irq, error, r.eip,
    r.cs, r.eflags] ++
    if r.User then [r.esp, r.ss] else []

/-- The stack that an interrupt goes on. -/
def start (esp0 : UInt32) (c : Cpu) : Cpu :=
  if c.regs.User then { c with regs.esp := esp0, regs.ss := kernelData } else c

/-- What the processor pushes, in this order. -/
def first (r : Regs) (v : Nat) (error : UInt32) : List UInt32 :=
  ((if r.User then [r.ss, r.esp] else []) ++ [r.eflags, r.cs, r.eip]) ++ if pushesError v then
  [error] else []

theorem begin_pushed (v : Nat) (error : UInt32) (room : 24 ≤ (start esp0 c).regs.esp.toNat) :
    Pushed (start esp0 c) (begin esp0 v error c) (first c.regs v error) := by
  have own : Pushed (start esp0 c) (start esp0 c) [] := .nil rfl rfl
  have few : 4 * (first c.regs v error).length ≤ (start esp0 c).regs.esp.toNat := by
    unfold first
    split <;> split <;> simp <;> omega
  refine (own.pushes _ few).congr ?_ ?_
  all_goals
    unfold first begin start
    by_cases user : c.regs.User
    · by_cases err : pushesError v
      · simp only [if_pos user, if_pos err]
        rfl
      · simp only [if_pos user, if_neg err]
        rfl
    · by_cases err : pushesError v
      · simp only [if_neg user, if_pos err]
        rfl
      · simp only [if_neg user, if_neg err]
        rfl

/-- What a stub pushes. -/
theorem stub_pushed (handled : Handled v) (room : 8 ≤ c.regs.esp.toNat) :
    ∃ c', run (initIdt v).offset.code c = some c' ∧
      Pushed c c' ((if pushesError v then [] else [0]) ++ [irqOf v]) ∧
      ∃ esp, c'.regs = { c.regs with esp } := by
  have own : Pushed c c [] := .nil rfl rfl
  rw [initIdt_offset handled]
  by_cases err : pushesError v
  · rw [if_pos err, if_pos err]
    exact ⟨c.push (irqOf v), rfl,
      own.pushes [irqOf v] (le_trans (show 4 ≤ 8 by decide) room), _, rfl⟩
  · rw [if_neg err, if_neg err]
    exact ⟨(c.push 0).push (irqOf v), rfl, own.pushes [0, irqOf v] room, _, rfl⟩

/-- The low half of `eax` behind the `movw`. -/
theorem movw_low (x : UInt32) : ((x &&& 0xFFFF0000) ||| kernelData) &&& 0xFFFF = kernelData := by
  refine UInt32.toNat_inj.mp ?_
  simp only [UInt32.toNat_and, UInt32.toNat_or]
  rw [Nat.and_or_distrib_right, Nat.and_assoc]
  exact congrArg (· ||| 16) (Nat.and_zero x.toNat)

theorem loadSeg_kernelData (s : Seg) (c : Cpu) :
    c.loadSeg s kernelData = some { c with regs := c.regs.setSeg s kernelData } :=
  if_pos (by decide)

/-- The words that `asm_do_irq` pushes. -/
def saved (r : Regs) : List UInt32 :=
  [r.ds, r.es, r.fs, r.gs, r.eax, r.ecx, r.edx, r.ebx, r.esp - 4 - 4 - 4 - 4, r.ebp, r.esi, r.edi]

theorem asmDoIrq_run (c : Cpu) :
    ∃ eax, run asmDoIrq c = some { ((saved c.regs).foldl (fun c w => c.push w) { c with
      regs.eflags := clearIf c.regs.eflags }) with
      regs.eax := eax, regs.ds := kernelData, regs.es := kernelData } := by
  refine ⟨(c.regs.eax &&& 0xFFFF0000) ||| kernelData, ?_⟩
  simp only [run, asmDoIrq, saved, Instr.exec, Option.bind_some, Cpu.push_regs, Regs.seg, movw_low,
    loadSeg_kernelData, Regs.setSeg, List.foldl_cons, List.foldl_nil]

theorem pushes_regs (ws : List UInt32) (c : Cpu) :
    ∃ esp, (ws.foldl (fun c w => c.push w) c).regs = { c.regs with esp } := by
  induction ws generalizing c with
  | nil => exact ⟨_, rfl⟩
  | cons w ws ih =>
      obtain ⟨esp, regs⟩ := ih (c.push w)
      exact ⟨esp, regs⟩

/-- What `asm_do_irq` does to the stack and to the registers. -/
theorem asmDoIrq_pushed (room : 48 ≤ c.regs.esp.toNat) :
    ∃ c', run asmDoIrq c = some c' ∧ Pushed c c' (saved c.regs) ∧ ∃ esp eax, c'.regs =
      { c.regs with
        esp, eax, eflags := clearIf c.regs.eflags, ds := kernelData, es := kernelData } := by
  have own : Pushed c { c with regs.eflags := clearIf c.regs.eflags } [] := .nil rfl rfl
  obtain ⟨eax, code⟩ := asmDoIrq_run c
  obtain ⟨esp, regs⟩ := pushes_regs (saved c.regs) { c with regs.eflags := clearIf c.regs.eflags }
  have pushed := own.pushes (saved c.regs) room
  generalize (saved c.regs).foldl (fun c w => c.push w) { c with
    regs.eflags := clearIf c.regs.eflags } = c₁ at *
  refine ⟨_, code, pushed.congr rfl rfl, esp, eax, ?_⟩
  show { c₁.regs with eax := eax, ds := kernelData, es := kernelData } = _
  rw [regs]

/-- **A `TrapFrame`** of these registers at `a`; it ends below `esp` where there was no user
program. -/
structure Frame (ram : Store) (a : Nat) (r : Regs) : Prop where
  edi : ram.word a = r.edi
  esi : ram.word (a + 4) = r.esi
  ebp : ram.word (a + 8) = r.ebp
  ebx : ram.word (a + 16) = r.ebx
  edx : ram.word (a + 20) = r.edx
  ecx : ram.word (a + 24) = r.ecx
  eax : ram.word (a + 28) = r.eax
  gs : returned r.User (ram.word (a + 32)) = some r.gs
  fs : returned r.User (ram.word (a + 36)) = some r.fs
  es : returned r.User (ram.word (a + 40)) = some r.es
  ds : returned r.User (ram.word (a + 44)) = some r.ds
  eip : ram.word (a + 56) = r.eip
  cs : ram.word (a + 60) &&& 0xFFFF = r.cs
  eflags : ram.word (a + 64) = r.eflags
  user : r.User → ram.word (a + 68) = r.esp ∧ ram.word (a + 72) &&& 0xFFFF = userData
  kernel : ¬ r.User → r.esp.toNat = a + 68
  code : r.cs = kernelCode ∧ r.ss = kernelData ∨ r.cs = userCode ∧ r.ss = userData

/-- Its registers are those that a processor can have. -/
theorem Frame.valid (frame : Frame ram a r) : r.Valid := by
  have loaded : ∀ {w s : UInt32}, returned r.User w = some s → loads (r.cs.toNat % 4) s := by
    intro w s back
    obtain ⟨loadable, same⟩ := returned_eq_some.mp back
    rcases frame.code with ⟨cs, _⟩ | ⟨cs, _⟩
    · rw [if_neg (by unfold Regs.User; rw [cs]; decide)] at same
      rw [cs, ← same]
      exact loadable
    · rw [if_pos (by unfold Regs.User; rw [cs]; decide)] at same
      rw [cs, ← same]
      exact loads_own _
  refine ⟨frame.code, fun s => ?_⟩
  cases s with
  | ds => exact loaded frame.ds
  | es => exact loaded frame.es
  | fs => exact loaded frame.fs
  | gs => exact loaded frame.gs

/-- The bytes that it takes. -/
def Regs.size (r : Regs) : Nat := if r.User then 76 else 68

theorem Frame.congr {ram' : Store} (frame : Frame ram a r)
    (same : ∀ x, a ≤ x → x < a + r.size → ram' x = ram x) :
    Frame ram' a r := by
  have word : ∀ k, k + 4 ≤ r.size → ram'.word (a + k) = ram.word (a + k) := fun k inside =>
    Store.word_congr fun i small => same _ (by omega) (by omega)
  have least : 68 ≤ r.size := by
    unfold Regs.size
    split <;> omega
  refine ⟨(word 0 (by omega)).trans frame.edi, (word 4 (by omega)).trans frame.esi,
    (word 8 (by omega)).trans frame.ebp,
    (word 16 (by omega)).trans frame.ebx, (word 20 (by omega)).trans frame.edx,
    (word 24 (by omega)).trans frame.ecx,
    (word 28 (by omega)).trans frame.eax, (word 32 (by omega)) ▸ frame.gs,
    (word 36 (by omega)) ▸ frame.fs,
    (word 40 (by omega)) ▸ frame.es, (word 44 (by omega)) ▸ frame.ds,
    (word 56 (by omega)).trans frame.eip,
    (word 60 (by omega)) ▸ frame.cs, (word 64 (by omega)).trans frame.eflags, fun user => ?_,
    frame.kernel, frame.code⟩
  have size : r.size = 76 := if_pos user
  exact ⟨(word 68 (by omega)).trans (frame.user user).1, (word 72 (by omega)) ▸ (frame.user user).2⟩

theorem initIdt_segment (handled : Handled v) : (initIdt v).segment = kernelCode := by
  rcases handled with low | rfl | rfl | rfl | rfl
  · interval_cases v <;> rfl
  · rfl
  · rfl
  · rfl
  · rfl

theorem begin_regs (esp0 error : UInt32) (handled : Handled v) (c : Cpu) :
    ∃ esp eflags, (begin esp0 v error c).regs =
    { c.regs with esp, eflags, cs := kernelCode, ss := if c.regs.User then kernelData
      else c.regs.ss } := by
  have segment := initIdt_segment handled
  unfold begin
  by_cases user : c.regs.User
  · by_cases err : pushesError v
    · simp only [if_pos user, if_pos err, Cpu.push_regs, segment]
      exact ⟨_, _, rfl⟩
    · simp only [if_pos user, if_neg err, Cpu.push_regs, segment]
      exact ⟨_, _, rfl⟩
  · by_cases err : pushesError v
    · simp only [if_neg user, if_pos err, Cpu.push_regs, segment]
      exact ⟨_, _, rfl⟩
    · simp only [if_neg user, if_neg err, Cpu.push_regs, segment]
      exact ⟨_, _, rfl⟩

theorem size_eq (r : Regs) (xxx irq error : UInt32) :
    r.size = 4 * (image r xxx irq error).length := by
  unfold Regs.size image
  split <;> rfl

/-- An interrupt pushes a frame. -/
theorem enter_pushed (error : UInt32) (handled : Handled v)
    (room : c.regs.size ≤ (start esp0 c).regs.esp.toNat) :
    ∃ xxx c', enter esp0 v error c = some c' ∧
    Pushed (start esp0 c) c'
    (image c.regs xxx (irqOf v) (if pushesError v then error else 0)).reverse ∧
    ∃ esp eax eflags, c'.regs = { c.regs with
      esp, eax, eflags := clearIf eflags, cs := kernelCode, ss :=
      if c.regs.User then kernelData else c.regs.ss,
      ds := kernelData, es := kernelData } := by
  have least : 68 ≤ c.regs.size := by
    unfold Regs.size
    split <;> omega
  have begun := begin_pushed v error (show 24 ≤ (start esp0 c).regs.esp.toNat by omega)
  obtain ⟨esp, eflags, regs⟩ := begin_regs esp0 error handled c
  have sum := begun.esp
  have length : 4 * (first c.regs v error).length + (if pushesError v then 0 else 4) +
      52 = c.regs.size := by
    unfold first Regs.size
    split <;> split <;> rfl
  have low : 52 ≤ (begin esp0 v error c).regs.esp.toNat := by
    split at length <;> omega
  obtain ⟨c₁, ran, stub, esp', regs'⟩ := stub_pushed (c := begin esp0 v error c) handled (by omega)
  have sum' := stub.esp
  have few : (((if pushesError v then [] else [0]) ++ [irqOf v] : List UInt32).length) =
      (if pushesError v then 0 else 1) + 1 := by
    split <;> rfl
  obtain ⟨c', ran', pushed, esp'', eax, regs''⟩ := asmDoIrq_pushed (c := c₁) (by
    rw [few] at sum'
    split at sum' <;> split at length <;> first | omega | contradiction)
  rw [regs', regs] at pushed
  have all := (begun.trans stub).trans pushed
  refine ⟨esp' - 4 - 4 - 4 - 4, c', ?_, ?_, esp'', eax, eflags, ?_⟩
  · unfold enter
    rw [run_append, ran, Option.bind_some, ran']
  · have same : (image c.regs (esp' - 4 - 4 - 4 - 4) (irqOf v) (if pushesError v then error
      else 0)).reverse =
        (first c.regs v error ++
          ((if pushesError v then [] else [0]) ++ [irqOf v])) ++
          saved { c.regs with esp := esp' } := by
      unfold image first saved
      by_cases user : c.regs.User
      · by_cases err : pushesError v
        · simp only [if_pos user, if_pos err]
          rfl
        · simp only [if_pos user, if_neg err]
          rfl
      · by_cases err : pushesError v
        · simp only [if_neg user, if_pos err]
          rfl
        · simp only [if_neg user, if_neg err]
          rfl
    rw [same]
    exact all
  · rw [regs'', regs', regs]

/-- **The way in**: the frame is that of the registers, it lies at the end of the stack, and nothing
else is written. -/
structure Entered (esp0 : UInt32) (v : Nat) (c c' : Cpu) : Prop where
  esp : c'.regs.esp.toNat + c.regs.size = (start esp0 c).regs.esp.toNat
  frame : Frame c'.ram c'.regs.esp.toNat c.regs
  irq : c'.ram.word (c'.regs.esp.toNat + 48) = irqOf v
  outside : ∀ x, x < c'.regs.esp.toNat ∨ (start esp0 c).regs.esp.toNat ≤ x → c'.ram x = c.ram x
  cs : c'.regs.cs = kernelCode
  valid : c'.regs.Valid
  masked : c'.regs.eflags &&& 0x200 = 0

theorem start_ram (esp0 : UInt32) (c : Cpu) : (start esp0 c).ram = c.ram := by
  unfold start
  split <;> rfl

theorem clearIf_masked (eflags : UInt32) : clearIf eflags &&& 0x200 = 0 := by
  unfold clearIf
  rw [UInt32.and_assoc, show (~~~512 &&& 512 : UInt32) = 0 by decide, UInt32.and_zero]

theorem enter_frame (error : UInt32) (handled : Handled v)
    (room : c.regs.size ≤ (start esp0 c).regs.esp.toNat) (valid : c.regs.Valid) :
    ∃ c', enter esp0 v error c = some c' ∧ Entered esp0 v c c' := by
  obtain ⟨xxx, c', ran, pushed, esp, eax, eflags, regs⟩ := enter_pushed error handled room
  have size := size_eq c.regs xxx (irqOf v) (if pushesError v then error else 0)
  have sum := pushed.esp
  rw [List.length_reverse, ← size] at sum
  have word :
    ∀ k w, (image c.regs xxx (irqOf v) (if pushesError v then error else 0))[k]? = some w →
      c'.ram.word (c'.regs.esp.toNat + 4 * k) = w := fun k w here =>
    pushed.image (by rw [List.reverse_reverse]; exact here)
  have seg : ∀ k s, (image c.regs xxx (irqOf v) (if pushesError v then error else 0))[k]? =
    some (c.regs.seg s) →
      returned c.regs.User (c'.ram.word (c'.regs.esp.toNat + 4 * k)) = some (c.regs.seg s) :=
        fun k s here => by
    rw [word k _ here]
    exact valid.returned s
  have cs : c.regs.cs &&& 0xFFFF = c.regs.cs := by
    rcases valid.code with ⟨cs, _⟩ | ⟨cs, _⟩ <;> rw [cs] <;> decide
  have ss : (if c.regs.User then kernelData else c.regs.ss) = kernelData := by
    by_cases user : c.regs.User
    · exact if_pos user
    · rcases valid.code with ⟨_, ss⟩ | ⟨program, _⟩
      · rw [if_neg user, ss]
      · exact absurd (valid.user.mpr program) user
  have kernelSegs : ∀ s, loads 0 (c.regs.seg s) := fun s => by
    have loadable := valid.data s
    rcases valid.code with ⟨cs, _⟩ | ⟨cs, _⟩ <;> rw [cs] at loadable
    · exact loadable
    · exact loads_kernel loadable
  refine ⟨c', ran, sum, ⟨word 0 _ rfl, word 1 _ rfl, word 2 _ rfl, word 4 _ rfl, word 5 _ rfl,
    word 6 _ rfl, word 7 _ rfl,
    seg 8 .gs rfl, seg 9 .fs rfl, seg 10 .es rfl, seg 11 .ds rfl, word 14 _ rfl, ?_, word 16 _ rfl,
    fun user => ?_,
    fun notUser => ?_, valid.code⟩, word 12 _ rfl, fun x away => ?_, ?_, ⟨?_, fun s => ?_⟩, ?_⟩
  · rw [word 15 _ rfl, cs]
  · refine ⟨word 17 _ (by unfold image; rw [if_pos user]; rfl), ?_⟩
    rw [word 18 c.regs.ss (by unfold image; rw [if_pos user]; rfl)]
    rcases valid.code with ⟨kernel, _⟩ | ⟨_, ss⟩
    · exact absurd (kernel.symm.trans (valid.user.mp user)) (by decide)
    · rw [ss]
      decide
  · have same : start esp0 c = c := if_neg notUser
    rw [same, show c.regs.size = 68 from if_neg notUser] at sum
    exact sum.symm
  · rw [← start_ram esp0 c]
    refine pushed.outside x ?_
    rw [List.length_reverse, ← size]
    omega
  · rw [regs]
  · rw [regs]
    exact .inl ⟨rfl, ss⟩
  · have code : c'.regs.cs = kernelCode := by rw [regs]
    have seg : c'.regs.seg s = match s with | .ds | .es => kernelData | s => c.regs.seg s := by
      rw [regs]
      cases s <;> rfl
    rw [code, seg]
    cases s with
    | ds => exact (show loads 0 kernelData by decide)
    | es => exact (show loads 0 kernelData by decide)
    | fs => exact kernelSegs .fs
    | gs => exact kernelSegs .gs
  · rw [regs]
    exact clearIf_masked eflags

/-! ### The way out -/

/-- The pops, where every selector can be loaded. -/
theorem asmDoIrqEnd_run {gs fs es ds : UInt32} (gsWord : c.ram.word (c.regs.esp + 32).toNat = gs)
    (fsWord : c.ram.word (c.regs.esp + 36).toNat = fs)
    (esWord : c.ram.word (c.regs.esp + 40).toNat = es)
    (dsWord : c.ram.word (c.regs.esp + 44).toNat = ds)
    (loadable : ∀ w ∈ [gs, fs, es, ds], loads 0 (w &&& 0xFFFF)) :
    run asmDoIrqEnd c = some { c with regs := { c.regs with
      edi := c.ram.word c.regs.esp.toNat
      esi := c.ram.word (c.regs.esp + 4).toNat
      ebp := c.ram.word (c.regs.esp + 8).toNat
      ebx := c.ram.word (c.regs.esp + 16).toNat
      edx := c.ram.word (c.regs.esp + 20).toNat
      ecx := c.ram.word (c.regs.esp + 24).toNat
      eax := c.ram.word (c.regs.esp + 28).toNat
      gs := gs &&& 0xFFFF
      fs := fs &&& 0xFFFF
      es := es &&& 0xFFFF
      ds := ds &&& 0xFFFF
      esp := c.regs.esp + 56 } } := by
  have load : ∀ s (c : Cpu) w, w ∈ [gs, fs, es, ds] →
      c.loadSeg s (w &&& 0xFFFF) = some { c with regs := c.regs.setSeg s (w &&& 0xFFFF) } :=
    fun s c w member => if_pos (loadable w member)
  simp only [run, asmDoIrqEnd, Instr.exec, Option.bind_some, Cpu.top, Cpu.drop, UInt32.add_assoc,
    UInt32.reduceAdd, UInt32.add_zero, gsWord]
  rw [load .gs _ gs (by simp)]
  simp only [Option.bind_some, Regs.setSeg, UInt32.add_assoc, UInt32.reduceAdd, fsWord]
  rw [load .fs _ fs (by simp)]
  simp only [Option.bind_some, Regs.setSeg, UInt32.add_assoc, UInt32.reduceAdd, esWord]
  rw [load .es _ es (by simp)]
  simp only [Option.bind_some, Regs.setSeg, UInt32.add_assoc, UInt32.reduceAdd, dsWord]
  rw [load .ds _ ds (by simp)]
  simp only [Option.bind_some, Regs.setSeg, UInt32.add_assoc, UInt32.reduceAdd]

/-- **The way back** gives the registers of the frame. -/
theorem leave_frame (frame : Frame c.ram tf.toNat r) (room : tf.toNat + 76 < 4294967296)
    (kernel : c.regs.ss = kernelData) :
    leave tf c = some { c with regs := r } := by
  have word : ∀ k : UInt32, k.toNat ≤ 72 →
      c.ram.word (tf + k).toNat = c.ram.word (tf.toNat + k.toNat) := fun k small => by
    rw [toNat_add_small (by omega)]
  obtain ⟨gsLoads, gs⟩ := returned_eq_some.mp frame.gs
  obtain ⟨fsLoads, fs⟩ := returned_eq_some.mp frame.fs
  obtain ⟨esLoads, es⟩ := returned_eq_some.mp frame.es
  obtain ⟨dsLoads, ds⟩ := returned_eq_some.mp frame.ds
  have pops := asmDoIrqEnd_run (c := { c with regs.esp := tf }) (word 32 (by decide))
    (word 36 (by decide))
    (word 40 (by decide)) (word 44 (by decide)) (by
      simp only [List.forall_mem_cons, List.not_mem_nil, false_imp_iff, implies_true, and_true]
      exact ⟨gsLoads, fsLoads, esLoads, dsLoads⟩)
  have edi := frame.edi
  have esi := (word 4 (by decide)).trans frame.esi
  have ebp := (word 8 (by decide)).trans frame.ebp
  have ebx := (word 16 (by decide)).trans frame.ebx
  have edx := (word 20 (by decide)).trans frame.edx
  have ecx := (word 24 (by decide)).trans frame.ecx
  have eax := (word 28 (by decide)).trans frame.eax
  have eip := (word 56 (by decide)).trans frame.eip
  have cs := (congrArg (· &&& 0xFFFF) (word 60 (by decide))).trans frame.cs
  have eflags := (word 64 (by decide)).trans frame.eflags
  unfold leave
  rw [pops]
  simp only [Option.bind_some, iret, UInt32.add_assoc, UInt32.reduceAdd, UInt32.add_zero, edi, esi,
    ebp, ebx, edx, ecx, eax, eip, cs, eflags]
  rcases frame.code with ⟨code, ss⟩ | ⟨code, ss⟩
  · have notUser : ¬ r.User := by
      unfold Regs.User
      rw [code]
      decide
    rw [if_neg notUser] at gs fs es ds
    have esp : tf + 68 = r.esp := by
      refine UInt32.toNat_inj.mp ?_
      rw [frame.kernel notUser, toNat_add_small (show tf.toNat + 68 < 4294967296 by omega)]
      rfl
    refine (if_pos code).trans (congrArg some (Cpu.ext ?_ rfl))
    exact Regs.ext rfl rfl rfl esp rfl rfl rfl rfl gs fs es ds rfl rfl rfl (kernel.trans ss.symm)
  · have user : r.User := by
      unfold Regs.User
      rw [code]
      decide
    rw [if_pos user] at gs fs es ds
    have esp := (word 68 (by decide)).trans (frame.user user).1
    have stack := (congrArg (· &&& 0xFFFF) (word 72 (by decide))).trans (frame.user user).2
    refine (if_neg (by rw [code]; decide)).trans
      ((if_pos ⟨code, stack⟩).trans (congrArg some (Cpu.ext ?_ rfl)))
    exact Regs.ext rfl rfl rfl esp rfl rfl rfl rfl gs fs es ds rfl rfl rfl ss.symm

end Stack

end NjuOs.Interrupts
