/-
**What `printk` writes to the serial port.**

The digits of a number are put into `num` from the last one on and written from the other end. The
smallest `int` has no positive counterpart: `printf_int` takes the next one and adds 1 to its last
digit.

* `printfInt_eq`, `printfIntX_eq`: every number is written as its numeral, and `num` has room for
  it.
* `printk_writes`: a call of `printk` writes its items, each conversion with its own argument, and
  ends.
* `printk_runs_on`: what follows a `%` is skipped, whatever it is. A `%` at the end of the format
  takes the NUL with it, and `printk` goes on with what lies behind the string.

Every string is the format of some items, or of some items with a `%` behind them (`format_items`).
-/

import Mathlib.Tactic.Common
import Mathlib.Data.List.Induction
import NjuOs.Lib.Buffer
import NjuOs.Lib.Bytes

namespace NjuOs.Drivers

open NjuOs.Lib

/-! ### The model -/

/-- The code of a character. -/
def ascii (c : Char) : UInt8 := UInt8.ofNat c.toNat

/-- The first loop of `printf_int` and `printf_int_x`, with `n` for `top + 1`; there is no result
when it leaves `num`. -/
def fillNum (digit : Int → UInt8) (base : Int) :
    Nat → (Nat → UInt8) → Nat → Int → Option ((Nat → UInt8) × Nat)
  | 0, _, _, _ => none
  | fuel + 1, num, n, val =>
    if val = 0 then
      some (num, n)
    else if n < 15 then
      fillNum digit base fuel (Function.update num n (digit (val.tmod base))) (n + 1)
        (val.tdiv base)
    else
      none

/-- The second loop, `for(; top >= low; top--)`. -/
def printNum (num : Nat → UInt8) (low : Nat) : Nat → List UInt8
  | 0 => []
  | top + 1 => if low ≤ top then num top :: printNum num low top else []

/-- `'0' + d` -/
def decimalDigit (d : Int) : UInt8 := ascii '0' + UInt8.ofNat d.toNat

/-- The character of a hexadecimal digit. -/
def hexDigit (d : Int) : UInt8 :=
  if d < 10 then ascii '0' + UInt8.ofNat d.toNat else ascii 'a' + UInt8.ofNat (d - 10).toNat

/-- `printf_int`: the smallest number is printed as the one above it, with its last digit raised. -/
def printfInt (val : Int) : Option (List UInt8) :=
  let flag : UInt8 := if val = -2147483648 then 1 else 0
  let val := if val = -2147483648 then val + 1 else val
  let sign := if val < 0 then [ascii '-'] else []
  let val := if val < 0 then 0 - val else val
  if val = 0 then
    some (sign ++ [ascii '0'])
  else
    (fillNum decimalDigit 10 16 (fun _ => 0) 0 val).map fun (num, n) => sign ++ printNum num 1 n ++
    [num 0 + flag]

/-- `printf_int_x`. -/
def printfIntX (val : Nat) : Option (List UInt8) :=
  if val = 0 then
    some [ascii '0']
  else
    (fillNum hexDigit 16 16 (fun _ => 0) 0 val).map fun (num, n) => printNum num 0 n

/-- The loop for `%s`. -/
def printStr (ram : Store) : Nat → Nat → Option (List UInt8)
  | 0, _ => none
  | fuel + 1, str => if ram str = 0 then some []
      else (printStr ram fuel (str + 1)).map (ram str :: ·)

/-- The `switch`: what is written, and by how much `cur_address` goes up. -/
def conversion (ram : Store) (fuel cur : Nat) (c : UInt8) : Option (List UInt8 × Nat) :=
  if c = ascii 'd' then
    (printfInt (ram.word cur).toInt32.toInt).map (·, 4)
  else if c = ascii 'x' then
    (printfIntX (ram.word cur).toNat).map (·, 4)
  else if c = ascii 'c' then
    some ([ram cur], 4)
  else if c = ascii 's' then
    (printStr ram fuel (ram.word cur).toNat).map (·, 4)
  else if c = ascii '%' then
    some ([ascii '%'], 0)
  else
    some ([], 0)

/-- The loop of `printk`, at the address of `format[i]`. -/
def printkLoop (ram : Store) : Nat → Nat → Nat → Option (List UInt8)
  | 0, _, _ => none
  | fuel + 1, at_, cur =>
    if ram at_ = 0 then
      some []
    else if ram at_ = ascii '%' then
      (conversion ram fuel cur (ram (at_ + 1))).bind fun (out, size) =>
        (printkLoop ram fuel (at_ + 2) (cur + size)).map (out ++ ·)
    else
      (printkLoop ram fuel (at_ + 1) cur).map (ram at_ :: ·)

/-- `printk`, with the arguments from `frame` on in the stack. -/
def printk (ram : Store) (fuel frame : Nat) : Option (List UInt8) :=
  printkLoop ram fuel (ram.word frame).toNat (frame + 4)

/-! ### Numbers -/

section Numbers

variable {digit : Int → UInt8} {base : Nat} {num num' : Nat → UInt8} {n low : Nat}

/-- The digits of a number but for those of 0, of which `printf_int` takes care. -/
def numeral (base m : Nat) : List UInt8 := if m = 0 then [] else (Nat.toDigits base m).map ascii

theorem numeral_step {m : Nat} (two : 1 < base) (positive : m ≠ 0) :
    numeral base m = numeral base (m / base) ++ [ascii (m % base).digitChar] := by
  unfold numeral
  rw [if_neg positive]
  by_cases small : m < base
  · rw [Nat.toDigits_of_lt_base small, Nat.div_eq_of_lt small, Nat.mod_eq_of_lt small]
    rfl
  · have more : m / base ≠ 0 := (Nat.div_pos (Nat.le_of_not_lt small) (by omega)).ne'
    rw [Nat.toDigits_of_base_le two (Nat.le_of_not_lt small), if_neg more, List.map_append]
    rfl

theorem printNum_congr (same : ∀ i, i < n → num' i = num i) :
    printNum num' low n = printNum num low n := by
  induction n with
  | zero => rfl
  | succ n ih =>
      unfold printNum
      rw [same n (Nat.lt_succ_self n), ih fun i below => same i (by omega)]

/-- The digits that are put in are written before those that are there. -/
theorem fillNum_spec (num : Nat → UInt8) (n : Nat) (two : 1 < base)
    (digits : ∀ d : Nat, d < base → digit d = ascii d.digitChar) {m fuel : Nat}
    (room : n + (numeral base m).length ≤ 15) (enough : (numeral base m).length < fuel) :
    ∃ num', fillNum digit base fuel num n m = some (num', n + (numeral base m).length) ∧
      (∀ i, i < n → num' i = num i) ∧
      printNum num' 0 (n + (numeral base m).length) = numeral base m ++ printNum num 0 n := by
  induction fuel generalizing num n m with
  | zero => exact absurd enough (Nat.not_lt_zero _)
  | succ fuel ih =>
      by_cases zero : m = 0
      · subst zero
        exact ⟨num, by simp [fillNum, numeral], fun _ _ => rfl, by simp [numeral]⟩
      have step := numeral_step two zero
      have length : (numeral base m).length = (numeral base (m / base)).length + 1 := by
        rw [step, List.length_append, List.length_singleton]
      obtain ⟨num', filled, kept, printed⟩ :=
        ih (Function.update num n (digit (m % base : Nat))) (n + 1)
        (show n + 1 + (numeral base (m / base)).length ≤ 15 by omega) (by omega)
      have shift : n + (numeral base m).length = n + 1 + (numeral base (m / base)).length := by
        omega
      rw [shift]
      refine ⟨num', ?_, fun i below => ?_, ?_⟩
      · rw [fillNum, if_neg (by exact_mod_cast zero), if_pos (by omega)]
        exact filled
      · rw [kept i (by omega), Function.update_of_ne (by omega)]
      · rw [printed, step, List.append_assoc]
        congr 1
        rw [printNum, if_pos (Nat.zero_le n), Function.update_self,
          digits _ (Nat.mod_lt m (by omega)), printNum_congr fun i below => Function.update_of_ne
          (by omega) ..]
        rfl

/-- The first digit is written apart from the others. -/
theorem printNum_first : printNum num 0 (n + 1) = printNum num 1 (n + 1) ++ [num 0] := by
  induction n with
  | zero => rfl
  | succ n ih =>
      rw [printNum, if_pos (Nat.zero_le _), ih, printNum.eq_2 num 1 (n + 1),
        if_pos (show 1 ≤ n + 1 by omega)]
      rfl

theorem decimalDigit_eq (d : Nat) (small : d < 10) : decimalDigit d = ascii d.digitChar := by
  interval_cases d <;> rfl

theorem hexDigit_eq (d : Nat) (small : d < 16) : hexDigit d = ascii d.digitChar := by
  interval_cases d <;> rfl

/-- A number of 32 bits has at most ten digits, or eight. -/
theorem numeral_length {m k : Nat} (two : 1 < base) (positive : 0 < k) (small : m < base ^ k) :
    (numeral base m).length ≤ k := by
  unfold numeral
  split
  · exact Nat.zero_le k
  · rw [List.length_map]
    exact (Nat.length_toDigits_le_iff two positive).mpr small

/-- What the loops do with a number: all of its digits but the last one are written, and then this
one. -/
theorem fillNum_printed (two : 1 < base)
    (digits : ∀ d : Nat, d < base → digit d = ascii d.digitChar) {m : Nat} (positive : m ≠ 0)
    (small : m < base ^ 15) :
    ∃ num n, fillNum digit base 16 (fun _ => 0) 0 m = some (num, n) ∧
    printNum num 0 n = numeral base m ∧
      printNum num 1 n ++ [num 0] = numeral base m := by
  have short := numeral_length two (by decide) small
  obtain ⟨num, filled, _, printed⟩ := fillNum_spec (fun _ => 0) 0 two digits
    (show 0 + (numeral base m).length ≤ 15 by omega)
    (show (numeral base m).length < 16 from Nat.lt_succ_of_le short)
  rw [show printNum (fun _ => 0) 0 0 = [] from rfl, List.append_nil] at printed
  refine ⟨num, _, filled, printed, ?_⟩
  obtain ⟨n, length⟩ : ∃ n, 0 + (numeral base m).length = n + 1 := by
    refine ⟨(numeral base (m / base)).length, ?_⟩
    rw [numeral_step two positive, List.length_append, List.length_singleton, Nat.zero_add]
  rw [length] at printed ⊢
  rw [← printNum_first, printed]

theorem fillNum_decimal {m : Nat} (positive : m ≠ 0) (small : m < 10 ^ 15) :
    ∃ num n, fillNum decimalDigit 10 16 (fun _ => 0) 0 m = some (num, n) ∧
      printNum num 1 n ++ [num 0] = numeral 10 m := by
  obtain ⟨num, n, filled, _, printed⟩ := fillNum_printed (by decide) decimalDigit_eq positive small
  exact ⟨num, n, filled, printed⟩

theorem repr_ascii {m : Nat} (positive : m ≠ 0) : m.repr.toList.map ascii = numeral 10 m := by
  rw [numeral, if_neg positive, Nat.toList_repr]

/-- The digits of the largest `int` with 1 added to the last one. -/
theorem smallest_digits {num : Nat → UInt8} {n : Nat}
    (printed : printNum num 1 n ++ [num 0] = numeral 10 2147483647) :
    printNum num 1 n ++ [num 0 + 1] = numeral 10 2147483648 := by
  rw [numeral_step (by decide) (by decide)] at printed
  obtain ⟨front, last⟩ := List.append_inj' printed rfl
  rw [front, List.cons.inj last |>.1, numeral_step (m := 2147483648) (by decide) (by decide)]
  rfl

/-- **`printf_int` writes the decimal numeral** of every `int`. -/
theorem printfInt_eq {val : Int} (low : -2147483648 ≤ val) (high : val < 2147483648) :
    printfInt val = some ((toString val).toList.map ascii) := by
  have minus {m : Nat} (positive : m ≠ 0) :
      (toString (-(m : Int))).toList.map ascii = ascii '-' :: numeral 10 m := by
    rw [Int.toString_eq_repr, Int.repr_eq_if, if_neg (by omega), neg_neg, Int.toNat_natCast,
      String.toList_append, List.map_append, repr_ascii positive]
    rfl
  unfold printfInt
  by_cases smallest : val = -2147483648
  · subst smallest
    obtain ⟨num, n, filled, printed⟩ := fillNum_decimal (m := 2147483647) (by decide) (by decide)
    have filled : fillNum decimalDigit 10 16 (fun _ => 0) 0 2147483647 = some (num, n) := filled
    have digits := smallest_digits printed
    simp only [if_true, show (-2147483648 + 1 : Int) < 0 by decide,
      show (0 - (-2147483648 + 1) : Int) = 2147483647 by decide]
    rw [if_neg (by decide), filled, Option.map_some, List.append_assoc, digits]
    exact congrArg some (minus (m := 2147483648) (by decide)).symm
  simp only [if_neg smallest]
  by_cases negative : val < 0
  · obtain ⟨m, rfl⟩ : ∃ m : Nat, val = -m := ⟨(-val).toNat, by omega⟩
    obtain ⟨num, n, filled, printed⟩ := fillNum_decimal (m := m) (by omega) (by omega)
    simp only [if_pos negative, zero_sub, neg_neg]
    rw [if_neg (by omega), filled]
    simp only [Option.map_some, UInt8.add_zero]
    rw [List.append_assoc, printed, minus (by omega)]
    rfl
  · obtain ⟨m, rfl⟩ := Int.eq_ofNat_of_zero_le (Int.not_lt.mp negative)
    simp only [if_neg negative]
    by_cases zero : m = 0
    · subst zero
      rfl
    obtain ⟨num, n, filled, printed⟩ := fillNum_decimal zero (by omega)
    rw [if_neg (by omega), filled]
    simp only [Option.map_some, List.nil_append, UInt8.add_zero]
    rw [printed, ← repr_ascii zero, Int.toString_eq_repr, Int.repr_eq_if, if_pos (by omega),
      Int.toNat_natCast]

/-- **`printf_int_x` writes the hexadecimal numeral** of every `unsigned`. -/
theorem printfIntX_eq {val : Nat} (high : val < 4294967296) :
    printfIntX val = some ((Nat.toDigits 16 val).map ascii) := by
  unfold printfIntX
  split
  · rename_i zero
    subst zero
    rfl
  · rename_i positive
    obtain ⟨num, n, filled, printed, _⟩ := fillNum_printed (by decide) hexDigit_eq positive
      (high.trans (by decide))
    have filled : fillNum hexDigit 16 16 (fun _ => 0) 0 val = some (num, n) := filled
    rw [filled]
    simp only [Option.map_some]
    rw [printed, numeral, if_neg positive]

end Numbers

/-! ### A call of `printk` -/

/-- **What a format asks for**, with the arguments that are passed for it. -/
inductive Item where
  | text (c : UInt8) (plain : c ≠ 0 ∧ c ≠ ascii '%')
  | decimal (w : UInt32)
  | hexadecimal (w : UInt32)
  | char (b : UInt8)
  | str (address : UInt32) (s : List UInt8)
  | percent
  /-- A character for which the `switch` has no case. -/
  | other (c : UInt8) (unknown : c ∉ [ascii 'd', ascii 'x', ascii 'c', ascii 's', ascii '%'])

/-- The bytes of an item in the format. -/
def Item.format : Item → List UInt8
  | text c _ => [c]
  | decimal _ => [ascii '%', ascii 'd']
  | hexadecimal _ => [ascii '%', ascii 'x']
  | char _ => [ascii '%', ascii 'c']
  | str _ _ => [ascii '%', ascii 's']
  | percent => [ascii '%', ascii '%']
  | other c _ => [ascii '%', c]

/-- What it prints, with the argument that it takes. -/
def Item.prints : Item → List UInt8
  | text c _ => [c]
  | decimal w => (toString w.toInt32.toInt).toList.map ascii
  | hexadecimal w => (Nat.toDigits 16 w.toNat).map ascii
  | char b => [b]
  | str _ s => s
  | percent => [ascii '%']
  | other _ _ => []

/-- The bytes of its argument. -/
def Item.size : Item → Nat
  | decimal _ | hexadecimal _ | char _ | str _ _ => 4
  | text _ _ | percent | other _ _ => 0

/-- The argument lies in the stack, and a string at its address. -/
def Item.Passed (ram : Store) (cur : Nat) : Item → Prop
  | decimal w | hexadecimal w => ram.word cur = w
  | char b => ram cur = b
  | str address s => ram.word cur = address ∧ Stored 0 (fun k => ram (address.toNat + k)) s
  | text _ _ | percent | other _ _ => True

/-- All the arguments, one behind the other. -/
def AllPassed (ram : Store) : Nat → List Item → Prop
  | _, [] => True
  | cur, item :: items => item.Passed ram cur ∧ AllPassed ram (cur + item.size) items

/-- These bytes lie in memory. -/
def Lies (ram : Store) : Nat → List UInt8 → Prop
  | _, [] => True
  | a, b :: bs => ram a = b ∧ Lies ram (a + 1) bs

section Calls

variable {ram : Store} {a cur frame : Nat} {items later : List Item}

theorem lies_append {bs cs : List UInt8} : Lies ram a (bs ++ cs) ↔ Lies ram a bs ∧
    Lies ram (a + bs.length) cs := by
  induction bs generalizing a with
  | nil => exact ⟨fun lies => ⟨trivial, lies⟩, fun lies => lies.2⟩
  | cons b bs ih =>
      rw [List.cons_append, List.length_cons, Lies, Lies, ih, and_assoc, Nat.add_right_comm,
        Nat.add_assoc a]

theorem allPassed_append : AllPassed ram cur (items ++ later) ↔
    AllPassed ram cur items ∧ AllPassed ram (cur + (items.map Item.size).sum) later := by
  induction items generalizing cur with
  | nil => exact ⟨fun passed => ⟨trivial, passed⟩, fun passed => passed.2⟩
  | cons item items ih =>
      rw [List.cons_append, List.map_cons, List.sum_cons, AllPassed, AllPassed, ih, and_assoc,
        Nat.add_assoc]

/-- The loop for `%s` writes the string. -/
theorem printStr_eq {text : List UInt8} {str fuel : Nat}
    (stored : Stored 0 (fun k => ram (str + k)) text) (enough : text.length < fuel) :
    printStr ram fuel str = some text := by
  induction text generalizing str fuel with
  | nil =>
      obtain _ | fuel := fuel
      · exact absurd enough (Nat.not_lt_zero _)
      · have stop : ram str = 0 := stored.stop
        rw [printStr, if_pos stop]
  | cons c text ih =>
      obtain _ | fuel := fuel
      · exact absurd enough (Nat.not_lt_zero _)
      obtain ⟨first, plain, rest⟩ := stored.uncons
      have first : ram str = c := first
      have rest : Stored 0 (fun k => ram (str + 1 + k)) text := by
        simpa only [Nat.add_assoc, Nat.add_comm 1] using rest
      rw [printStr, first, if_neg plain, ih rest (Nat.lt_of_succ_lt_succ enough)]
      rfl

/-- A conversion writes its argument, and `cur_address` goes on to the next one. -/
theorem conversion_eq {item : Item} {c : UInt8} (format : item.format = [ascii '%', c])
    (passed : item.Passed ram cur) :
    ∃ enough, ∀ fuel, enough ≤ fuel →
    conversion ram fuel cur c = some (item.prints, item.size) := by
  cases item with
  | text b _ => exact absurd (List.cons.inj format).2 nofun
  | decimal w =>
      obtain rfl : ascii 'd' = c := (List.cons.inj (List.cons.inj format).2).1
      have value : ram.word cur = w := passed
      refine ⟨0, fun fuel _ => ?_⟩
      rw [conversion, if_pos rfl, value, printfInt_eq (Int32.le_toInt _) (Int32.toInt_lt _)]
      rfl
  | hexadecimal w =>
      obtain rfl : ascii 'x' = c := (List.cons.inj (List.cons.inj format).2).1
      have value : ram.word cur = w := passed
      refine ⟨0, fun fuel _ => ?_⟩
      rw [conversion, if_neg (by decide), if_pos rfl, value, printfIntX_eq w.toNat_lt]
      rfl
  | char b =>
      obtain rfl : ascii 'c' = c := (List.cons.inj (List.cons.inj format).2).1
      have value : ram cur = b := passed
      refine ⟨0, fun fuel _ => ?_⟩
      rw [conversion, if_neg (by decide), if_neg (by decide), if_pos rfl, value]
      rfl
  | str address s =>
      obtain rfl : ascii 's' = c := (List.cons.inj (List.cons.inj format).2).1
      obtain ⟨value, stored⟩ := passed
      refine ⟨s.length + 1, fun fuel enough => ?_⟩
      rw [conversion, if_neg (by decide), if_neg (by decide), if_neg (by decide), if_pos rfl, value,
        printStr_eq stored enough]
      rfl
  | percent =>
      obtain rfl : ascii '%' = c := (List.cons.inj (List.cons.inj format).2).1
      exact ⟨0, fun fuel _ => rfl⟩
  | other b unknown =>
      obtain rfl : b = c := (List.cons.inj (List.cons.inj format).2).1
      simp only [List.mem_cons, List.not_mem_nil, or_false, not_or] at unknown
      obtain ⟨notD, notX, notC, notS, notPercent⟩ := unknown
      refine ⟨0, fun fuel _ => ?_⟩
      rw [conversion, if_neg notD, if_neg notX, if_neg notC, if_neg notS, if_neg notPercent]
      rfl

/-- What is not a character of the text begins with `%`. -/
theorem Item.format_cases (item : Item) :
    (∃ c plain, item = .text c plain) ∨ ∃ c, item.format = [ascii '%', c] := by
  cases item with
  | text c plain => exact .inl ⟨c, plain, rfl⟩
  | decimal | hexadecimal | char | str | percent | other => exact .inr ⟨_, rfl⟩

/-- **The loop writes the items.** -/
theorem printkLoop_items (format : Lies ram a (items.flatMap Item.format ++ [0]))
    (passed : AllPassed ram cur items) :
    ∃ enough, ∀ fuel, enough ≤ fuel →
    printkLoop ram fuel a cur = some (items.flatMap Item.prints) := by
  induction items generalizing a cur with
  | nil =>
      refine ⟨1, fun fuel enough => ?_⟩
      obtain _ | fuel := fuel
      · exact absurd enough (by decide)
      · rw [printkLoop, if_pos format.1]
        rfl
  | cons item items ih =>
      rw [List.flatMap_cons, List.append_assoc, lies_append] at format
      obtain ⟨here, there⟩ := format
      obtain ⟨enough, rest⟩ := ih there passed.2
      rw [List.flatMap_cons]
      rcases item.format_cases with ⟨c, plain, rfl⟩ | ⟨c, form⟩
      · refine ⟨enough + 1, fun fuel more => ?_⟩
        obtain _ | fuel := fuel
        · exact absurd more (Nat.not_succ_le_zero _)
        have first : ram a = c := here.1
        have rest : printkLoop ram fuel (a + 1) cur = _ := rest fuel (Nat.le_of_succ_le_succ more)
        rw [printkLoop, first, if_neg plain.1, if_neg plain.2, rest]
        rfl
      · obtain ⟨enough', converts⟩ := conversion_eq form passed.1
        rw [form] at here there rest
        refine ⟨max enough enough' + 1, fun fuel more => ?_⟩
        obtain _ | fuel := fuel
        · exact absurd more (Nat.not_succ_le_zero _)
        have more := Nat.le_of_succ_le_succ more
        have first : ram a = ascii '%' := here.1
        have second : ram (a + 1) = c := here.2.1
        have rest : printkLoop ram fuel (a + 2) (cur + item.size) = _ :=
          rest fuel (le_of_max_le_left more)
        rw [printkLoop, first, if_neg (by decide), if_pos rfl, second,
          converts fuel (le_of_max_le_right more), Option.bind_some]
        simp only [rest]
        rfl

/-- Any character may follow a `%`. -/
theorem item_after_percent (c : UInt8) : ∃ item : Item, item.format = [ascii '%', c] := by
  by_cases known : c ∈ [ascii 'd', ascii 'x', ascii 'c', ascii 's', ascii '%']
  · simp only [List.mem_cons, List.not_mem_nil, or_false] at known
    rcases known with rfl | rfl | rfl | rfl | rfl
    · exact ⟨.decimal 0, rfl⟩
    · exact ⟨.hexadecimal 0, rfl⟩
    · exact ⟨.char 0, rfl⟩
    · exact ⟨.str 0 [], rfl⟩
    · exact ⟨.percent, rfl⟩
  · exact ⟨.other c known, rfl⟩

/-- **Every string is the format of some items**, or of some items with a `%` behind them. -/
theorem format_items (text : List UInt8) (string : 0 ∉ text) : ∃ items : List Item,
    (∀ item ∈ items, item.format ≠ [ascii '%', 0]) ∧
    (text = items.flatMap Item.format ∨ text = items.flatMap Item.format ++ [ascii '%']) := by
  have plain {c : UInt8} {cs : List UInt8} (string : 0 ∉ c :: cs) (noPercent : c ≠ ascii '%') :
      c ≠ 0 ∧ c ≠ ascii '%' :=
    ⟨fun nul => string (nul ▸ List.mem_cons_self), noPercent⟩
  induction text using List.twoStepInduction with
  | nil => exact ⟨[], nofun, .inl rfl⟩
  | singleton c =>
      by_cases percent : c = ascii '%'
      · exact ⟨[], nofun, .inr (by rw [percent]; rfl)⟩
      · refine ⟨[.text c (plain string percent)], fun item member => ?_, .inl rfl⟩
        obtain rfl := List.mem_singleton.mp member
        exact fun same => absurd (List.cons.inj same).2 nofun
  | cons_cons c d cs afterBoth afterFirst =>
      by_cases percent : c = ascii '%'
      · subst percent
        have rest : 0 ∉ cs :=
          fun nul => string (List.mem_cons_of_mem _ (List.mem_cons_of_mem _ nul))
        have second : d ≠ 0 := fun nul => string (nul ▸ List.mem_cons_of_mem _ List.mem_cons_self)
        obtain ⟨item, form⟩ := item_after_percent d
        obtain ⟨items, plain, text⟩ := afterBoth rest
        refine ⟨item :: items, fun other member => ?_, ?_⟩
        · rcases List.mem_cons.mp member with rfl | later
          · rw [form]
            exact fun same => second (List.cons.inj (List.cons.inj same).2).1
          · exact plain other later
        · rw [List.flatMap_cons, form]
          exact text.imp (congrArg (ascii '%' :: d :: ·)) (congrArg (ascii '%' :: d :: ·))
      · obtain ⟨items, others, text⟩ := afterFirst d fun nul => string (List.mem_cons_of_mem _ nul)
        refine ⟨.text c (plain string percent) :: items, fun other member => ?_, ?_⟩
        · rcases List.mem_cons.mp member with rfl | later
          · exact fun same => absurd (List.cons.inj same).2 nofun
          · exact others other later
        · rw [List.flatMap_cons]
          exact text.imp (congrArg (c :: ·)) (congrArg (c :: ·))

end Calls

/-! ### The results -/

section Results

variable {ram : Store} {frame : Nat} {items : List Item}

/-- **`printk` writes its items** and ends. -/
theorem printk_writes (items : List Item)
    (format : Lies ram (ram.word frame).toNat (items.flatMap Item.format ++ [0]))
    (passed : AllPassed ram (frame + 4) items) :
    ∃ enough, ∀ fuel, enough ≤ fuel → printk ram fuel frame = some (items.flatMap Item.prints) :=
  printkLoop_items format passed

/-- `printk("%d", -2147483648)` and what lies behind its format. -/
def smallestCall : Store := fun x =>
  [8, 0, 0, 0, 0, 0, 0, 0x80, ascii '%', ascii 'd', 0, ascii 'u', ascii 'p', 0].getD x 0

theorem printk_writes_smallest :
    ∃ enough, ∀ fuel, enough ≤ fuel →
    printk smallestCall fuel 0 = some ("-2147483648".toList.map ascii) :=
  printk_writes [.decimal 0x80000000] ⟨rfl, rfl, rfl, trivial⟩
    ⟨show smallestCall.word 4 = 0x80000000 by decide, trivial⟩

/-- **A `%` at the end of the format takes the NUL with it**: `printk` goes on with the bytes behind
the string, and takes further arguments for what they ask for. -/
theorem printk_runs_on (items behind : List Item)
    (format : Lies ram (ram.word frame).toNat
      (items.flatMap Item.format ++ [ascii '%', 0] ++ (behind.flatMap Item.format ++ [0])))
    (passed : AllPassed ram (frame + 4) (items ++ behind)) :
    ∃ enough, ∀ fuel, enough ≤ fuel →
      printk ram fuel frame = some (items.flatMap Item.prints ++ behind.flatMap Item.prints) := by
  have unknown : (0 : UInt8) ∉ [ascii 'd', ascii 'x', ascii 'c', ascii 's', ascii '%'] := by decide
  obtain ⟨here, there⟩ := allPassed_append.mp passed
  have passed : AllPassed ram (frame + 4) (items ++ .other 0 unknown :: behind) :=
    allPassed_append.mpr ⟨here, trivial, there⟩
  have format :
      Lies ram (ram.word frame).toNat
      ((items ++ .other 0 unknown :: behind).flatMap Item.format ++ [0]) := by
    rw [List.flatMap_append, List.flatMap_cons, List.append_assoc, List.append_assoc]
    rw [List.append_assoc] at format
    exact format
  obtain ⟨enough, writes⟩ := printkLoop_items format passed
  rw [List.flatMap_append, List.flatMap_cons] at writes
  exact ⟨enough, writes⟩

/-- `printk("5%")` -/
def percentCall : Store :=
  fun x => [4, 0, 0, 0, ascii '5', ascii '%', 0, ascii 'u', ascii 'p', 0].getD x 0

theorem printk_runs_on_percent :
    ∃ enough, ∀ fuel, enough ≤ fuel → printk percentCall fuel 0 = some ("5up".toList.map ascii) :=
  printk_runs_on [.text (ascii '5') (by decide)] [.text (ascii 'u') (by decide),
    .text (ascii 'p') (by decide)]
    ⟨rfl, rfl, rfl, rfl, rfl, rfl, trivial⟩ ⟨trivial, trivial, trivial, trivial⟩

end Results

end NjuOs.Drivers
