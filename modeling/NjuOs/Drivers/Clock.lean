/-
**The clock.**

Every hundredth `update_jiffy` moves `rt` on by a second: the carries run through the six fields in
one pass, each comparing with the bound of its field. Days and months count from 1, and the day is
compared with `>=` as the others are, so `rt` leaves the last day of a month at the first second it
is there.

* `updates_seconds`: `k * HZ` interrupts are `k` carries and `k` ticks of the timer.
* `carry_eq`: a carry is the next second of the calendar, and a day more if that is on the last day
  of a month.
* `carry_run`: so the clock never falls behind, and once it is ahead it stays there.
* `shows_iff`: so `rt` is the calendar time `k` seconds later exactly when none of these seconds is
  on the last day of a month.
-/

import Mathlib.Logic.Function.Iterate
import Mathlib.Tactic.Common
import Mathlib.Tactic.IntervalCases
import Mathlib.Tactic.Ring

namespace NjuOs.Drivers.Clock

/-! ### The model -/

/-- `Time`, as `get_time` hands it out. -/
structure Time where
  year : Int
  month : Int
  day : Int
  hour : Int
  minute : Int
  second : Int
  deriving DecidableEq, Repr

/-- What an interrupt of the timer changes; `events` counts the calls of `time_event_proc`. -/
structure State where
  jiffy : Int
  rt : Time
  events : Nat
  deriving DecidableEq

/-- The interrupts of the timer in a second. -/
def HZ : Nat := 100

/-- Whether a year is a leap year. -/
def leap (year : Int) : Bool := year % 400 = 0 ∨ year % 4 = 0 ∧ year % 100 ≠ 0

/-- The days of the months, with nothing in front of January. -/
def tab : List Int := [0, 31, 28, 31, 30, 31, 30, 31, 31, 30, 31, 30, 31]

/-- `md`: the days of a month in a year. -/
def md (year month : Int) : Int := tab.getD month.toNat 0 + if leap year ∧ month = 2 then 1 else 0

/-- The carries of `update_jiffy`. -/
def carry (rt : Time) : Time :=
  let rt := { rt with second := rt.second + 1 }
  let rt := if rt.second ≥ 60 then { rt with second := 0, minute := rt.minute + 1 } else rt
  let rt := if rt.minute ≥ 60 then { rt with minute := 0, hour := rt.hour + 1 } else rt
  let rt := if rt.hour ≥ 24 then { rt with hour := 0, day := rt.day + 1 } else rt
  let rt := if rt.day ≥ md rt.year rt.month then { rt with day := 1, month := rt.month + 1 } else rt
  if rt.month ≥ 13 then { rt with month := 1, year := rt.year + 1 } else rt

/-- `update_jiffy`. No result where `jiffy` overflows. -/
def updateJiffy (s : State) : Option State :=
  if s.jiffy < 2147483647 then
    let s := { s with jiffy := s.jiffy + 1 }
    some (if s.jiffy % (HZ : Int) = 0 then
      { s with rt := carry s.rt, events := s.events + 1 } else s)
  else none

/-- That many interrupts. -/
def updates : Nat → State → Option State
  | 0, s => some s
  | n + 1, s => (updateJiffy s).bind (updates n)

/-! ### The calendar -/

/-- A date and time of the calendar. -/
structure Time.Valid (t : Time) : Prop where
  month : 1 ≤ t.month ∧ t.month ≤ 12
  day : 1 ≤ t.day ∧ t.day ≤ md t.year t.month
  hour : 0 ≤ t.hour ∧ t.hour < 24
  minute : 0 ≤ t.minute ∧ t.minute < 60
  second : 0 ≤ t.second ∧ t.second < 60

/-- The day after. -/
def Time.nextDay (t : Time) : Time :=
  if t.day < md t.year t.month then { t with day := t.day + 1 }
  else if t.month < 12 then { t with day := 1, month := t.month + 1 }
  else { t with day := 1, month := 1, year := t.year + 1 }

/-- The second after. -/
def Time.nextSecond (t : Time) : Time :=
  if t.second < 59 then { t with second := t.second + 1 }
  else if t.minute < 59 then { t with second := 0, minute := t.minute + 1 }
  else if t.hour < 23 then { t with second := 0, minute := 0, hour := t.hour + 1 }
  else Time.nextDay { t with second := 0, minute := 0, hour := 0 }

/-- The calendar `k` seconds later. -/
def later (k : Nat) (t : Time) : Time := Time.nextSecond^[k] t

/-- It is the last day of a month. -/
def Time.OnLastDay (t : Time) : Prop := t.day = md t.year t.month

instance (t : Time) : Decidable t.OnLastDay := inferInstanceAs (Decidable (_ = _))

/-- **What the clock should show**, after that many seconds of interrupts. -/
def Shows (s : State) (k : Nat) : Prop := ∃ s', updates (k * HZ) s = some s' ∧ s'.rt = later k s.rt

/-- The days of the years before, from a year 1 on. -/
def yearStart (year : Int) : Int :=
  365 * (year - 1) + (year - 1) / 4 - (year - 1) / 100 + (year - 1) / 400

/-- The days of the months before in a year. -/
def monthStart (year month : Int) : Int :=
  [0, 0, 31, 59, 90, 120, 151, 181, 212, 243, 273, 304, 334].getD month.toNat 0 + if leap year ∧
  2 < month then 1 else 0

/-- The seconds of the day so far. -/
def Time.secondsOfDay (t : Time) : Int := (t.hour * 60 + t.minute) * 60 + t.second

/-- The seconds from a common start. -/
def Time.seconds (t : Time) : Int :=
  (yearStart t.year + monthStart t.year t.month + t.day) * 86400 + t.secondsOfDay

section Calendar

variable {t : Time} {year month : Int}

theorem md_bounds (inside : 1 ≤ month ∧ month ≤ 12) : 28 ≤ md year month ∧ md year month ≤ 31 := by
  obtain ⟨low, high⟩ := inside
  unfold md
  interval_cases month <;> simp [tab]
  split <;> omega

/-- A month begins behind the last day of the month before. -/
theorem monthStart_next (low : 1 ≤ month) (high : month < 12) :
    monthStart year (month + 1) = monthStart year month + md year month := by
  unfold monthStart md
  interval_cases month <;> simp [tab] <;> split <;> omega

/-- A year begins behind the last day of the year before. -/
theorem yearStart_next :
    yearStart (year + 1) + monthStart (year + 1) 1 = yearStart year + monthStart year 12 +
      md year 12 := by
  have long : yearStart (year + 1) = yearStart year + 365 + if leap year then 1 else 0 := by
    unfold yearStart leap
    split <;> simp_all <;> omega
  have december : monthStart year 12 = 334 + if leap year then 1 else 0 := by simp [monthStart]
  rw [long, december,
    show monthStart (year + 1) 1 = 0 by simp [monthStart], show md year 12 = 31 by simp [md, tab]]
  omega

theorem Time.Valid.nextDay (valid : t.Valid) :
    t.nextDay.Valid ∧ t.nextDay.seconds = t.seconds + 86400 := by
  obtain ⟨month, day, hour, minute, second⟩ := valid
  have bounds : ∀ year month : Int, 1 ≤ month ∧ month ≤ 12 → 28 ≤ md year month ∧
    md year month ≤ 31 :=
    fun _ _ inside => md_bounds inside
  unfold Time.nextDay
  by_cases same : t.day < md t.year t.month
  · rw [if_pos same]
    refine ⟨⟨month, ?_, hour, minute, second⟩, ?_⟩
    · dsimp only
      omega
    · simp only [Time.seconds, Time.secondsOfDay]
      omega
  rw [if_neg same]
  have last : t.day = md t.year t.month := by omega
  by_cases early : t.month < 12
  · rw [if_pos early]
    have next : monthStart t.year (t.month + 1) = _ := monthStart_next month.1 early
    have more := bounds t.year (t.month + 1) (by omega)
    refine ⟨⟨?_, ?_, hour, minute, second⟩, ?_⟩
    · dsimp only
      omega
    · dsimp only
      omega
    · simp only [Time.seconds, Time.secondsOfDay, next, last]
      omega
  · rw [if_neg early]
    have december : t.month = 12 := by omega
    have next : yearStart (t.year + 1) + _ = _ := yearStart_next
    have more := bounds (t.year + 1) 1 (by omega)
    refine ⟨⟨by dsimp only; omega, by dsimp only; omega, hour, minute, second⟩, ?_⟩
    rw [december] at last
    simp only [Time.seconds, Time.secondsOfDay, next, last, december]
    omega

theorem Time.Valid.midnight (valid : t.Valid) :
    Time.Valid { t with second := 0, minute := 0, hour := 0 } where
  month := valid.month
  day := valid.day
  hour := by simp
  minute := by simp
  second := by simp

/-- **The calendar runs on by a second.** -/
theorem Time.Valid.nextSecond (valid : t.Valid) :
    t.nextSecond.Valid ∧ t.nextSecond.seconds = t.seconds + 1 := by
  obtain ⟨month, day, hour, minute, second⟩ := id valid
  unfold Time.nextSecond
  have full : (0 : Int) ≤ 0 ∧ (0 : Int) < 60 := by decide
  split_ifs with inMinute inHour inDay
  · exact ⟨⟨month, day, hour, minute, by dsimp only; omega⟩,
      by simp only [Time.seconds, Time.secondsOfDay]; omega⟩
  · exact ⟨⟨month, day, hour, by dsimp only; omega, full⟩,
      by simp only [Time.seconds, Time.secondsOfDay]; omega⟩
  · exact ⟨⟨month, day, by dsimp only; omega, full, full⟩,
      by simp only [Time.seconds, Time.secondsOfDay]; omega⟩
  · obtain ⟨next, exact⟩ := valid.midnight.nextDay
    refine ⟨next, exact.trans ?_⟩
    simp only [Time.seconds, Time.secondsOfDay]
    omega

theorem later_succ (k : Nat) (t : Time) : later (k + 1) t = (later k t).nextSecond :=
  Function.iterate_succ_apply' ..

/-- After `k` seconds `k` seconds have passed. -/
theorem Time.Valid.later (valid : t.Valid) (k : Nat) :
    (later k t).Valid ∧ (later k t).seconds = t.seconds + k := by
  induction k with
  | zero => exact ⟨valid, by simp [Clock.later]⟩
  | succ k ih =>
      rw [later_succ]
      obtain ⟨next, exact⟩ := ih.1.nextSecond
      refine ⟨next, ?_⟩
      rw [exact, ih.2]
      omega

end Calendar

/-! ### The carries -/

section Carry

variable {t : Time}

/-- The carries of day and month. -/
def carryDate (rt : Time) : Time :=
  let rt := if rt.day ≥ md rt.year rt.month then { rt with day := 1, month := rt.month + 1 } else rt
  if rt.month ≥ 13 then { rt with month := 1, year := rt.year + 1 } else rt

theorem carry_inMinute (valid : t.Valid) (more : t.second < 59) :
    carry t = carryDate { t with second := t.second + 1 } := by
  obtain ⟨-, -, hour, minute, -⟩ := valid
  simp only [carry, if_neg (show ¬ t.second + 1 ≥ 60 by omega),
    if_neg (show ¬ t.minute ≥ 60 by omega), if_neg (show ¬ t.hour ≥ 24 by omega), carryDate]

theorem carry_inHour (valid : t.Valid) (last : ¬ t.second < 59) (more : t.minute < 59) :
    carry t = carryDate { t with second := 0, minute := t.minute + 1 } := by
  obtain ⟨-, -, hour, -, -⟩ := valid
  simp only [carry, if_pos (show t.second + 1 ≥ 60 by omega),
    if_neg (show ¬ t.minute + 1 ≥ 60 by omega), if_neg (show ¬ t.hour ≥ 24 by omega), carryDate]

theorem carry_inDay (last : ¬ t.second < 59) (full : ¬ t.minute < 59) (more : t.hour < 23) :
    carry t = carryDate { t with second := 0, minute := 0, hour := t.hour + 1 } := by
  simp only [carry, if_pos (show t.second + 1 ≥ 60 by omega),
    if_pos (show t.minute + 1 ≥ 60 by omega), if_neg (show ¬ t.hour + 1 ≥ 24 by omega), carryDate]

theorem carry_midnight (last : ¬ t.second < 59) (full : ¬ t.minute < 59) (late : ¬ t.hour < 23) :
    carry t = carryDate { t with second := 0, minute := 0, hour := 0, day := t.day + 1 } := by
  simp only [carry, if_pos (show t.second + 1 ≥ 60 by omega),
    if_pos (show t.minute + 1 ≥ 60 by omega), if_pos (show t.hour + 1 ≥ 24 by omega), carryDate]

theorem carryDate_of_lt (valid : t.Valid) (more : t.day < md t.year t.month) : carryDate t = t := by
  have months := valid.month
  simp only [carryDate, if_neg (show ¬ t.day ≥ md t.year t.month by omega),
    if_neg (show ¬ t.month ≥ 13 by omega)]

/-- From the last day on the date moves to the first of the next month. -/
theorem carryDate_of_ge {day : Int} (valid : t.Valid) (last : t.OnLastDay) (past : t.day ≤ day) :
    carryDate { t with day := day } = t.nextDay := by
  have months := valid.month
  unfold Time.OnLastDay at last
  simp only [carryDate, Time.nextDay, if_pos (show day ≥ md t.year t.month by omega),
    if_neg (show ¬ t.day < md t.year t.month by omega)]
  by_cases december : t.month < 12
  · rw [if_pos december, if_neg (show ¬ t.month + 1 ≥ 13 by omega)]
  · rw [if_neg december, if_pos (show t.month + 1 ≥ 13 by omega)]

/-- The first of a month is not its last day. -/
theorem not_onLastDay_first (valid : t.Valid) (first : t.day = 1) : ¬ t.OnLastDay := by
  have bounds : 28 ≤ md t.year t.month ∧ _ := md_bounds valid.month
  unfold Time.OnLastDay
  omega

/-- On the last day of a month the carries go on to the next day. -/
theorem carryDate_eq (valid : t.Valid) : carryDate t = if t.OnLastDay then t.nextDay else t := by
  have inside := valid.day
  split
  · case isTrue last => exact carryDate_of_ge valid last (Int.le_refl _)
  · case isFalse other => exact carryDate_of_lt valid (by unfold Time.OnLastDay at other; omega)

/-- The day counted up before the comparison or the next day of the calendar, the carries end at the
same date. -/
theorem carryDate_nextDay (valid : t.Valid) :
    carryDate { t with day := t.day + 1 } = carryDate t.nextDay := by
  have inside := valid.day
  by_cases more : t.day < md t.year t.month
  · rw [Time.nextDay, if_pos more]
  · have last : t.OnLastDay := by
      unfold Time.OnLastDay
      omega
    have first : t.nextDay.day = 1 := by
      unfold Time.nextDay
      split_ifs <;> rfl
    rw [carryDate_of_ge valid last (by omega), carryDate_eq valid.nextDay.1,
      if_neg (not_onLastDay_first valid.nextDay.1 first)]

/-- **A carry** is the next second of the calendar, and goes on for a day if that is on the last day
of a month. -/
theorem carry_eq (valid : t.Valid) :
    carry t = if t.nextSecond.OnLastDay then t.nextSecond.nextDay else t.nextSecond := by
  rw [← carryDate_eq valid.nextSecond.1]
  unfold Time.nextSecond
  split_ifs with inMinute inHour inDay
  · exact carry_inMinute valid inMinute
  · exact carry_inHour valid inMinute inHour
  · exact carry_inDay inMinute inHour inDay
  · rw [carry_midnight inMinute inHour inDay]
    exact carryDate_nextDay valid.midnight

/-- A carry moves the clock on by a second, or by a day and a second. -/
theorem seconds_carry (valid : t.Valid) :
    (carry t).Valid ∧ (carry t).seconds = t.seconds + if t.nextSecond.OnLastDay then
    86401 else 1 := by
  obtain ⟨next, exact⟩ := valid.nextSecond
  rw [carry_eq valid]
  split
  · have after := next.nextDay
    exact ⟨after.1, by rw [after.2, exact]; omega⟩
  · exact ⟨next, exact⟩

/-- **The clock never falls behind**, and when it is not ahead no second so far was on the last day
of a month. -/
theorem carry_run (valid : t.Valid) (k : Nat) :
    (carry^[k] t).Valid ∧ t.seconds + k ≤ (carry^[k] t).seconds ∧
      ((carry^[k] t).seconds = t.seconds + k → ∀ j, 1 ≤ j → j ≤ k → ¬ (later j t).OnLastDay) ∧
      ((∀ j, 1 ≤ j → j ≤ k → ¬ (later j t).OnLastDay) → carry^[k] t = later k t) := by
  induction k with
  | zero => exact ⟨valid, by simp, fun _ j _ _ => by omega, fun _ => rfl⟩
  | succ k ih =>
      obtain ⟨here, ahead, exactly, same⟩ := ih
      obtain ⟨next, moved⟩ := seconds_carry here
      rw [Function.iterate_succ_apply']
      refine ⟨next, ?_, fun onTime j first last => ?_, fun other => ?_⟩
      · rw [moved]
        split <;> push_cast <;> omega
      · rw [moved] at onTime
        have small : ¬ (carry^[k] t).nextSecond.OnLastDay := by
          intro skipped
          rw [if_pos skipped] at onTime
          push_cast at onTime
          omega
        rw [if_neg small] at onTime
        have before := exactly (by push_cast at onTime; omega)
        rcases Nat.lt_or_ge k j with new | old
        · obtain rfl : j = k + 1 := by omega
          rwa [later_succ, ← same before]
        · exact before j first old
      · rw [same fun j first last => other j first (by omega), carry_eq (valid.later k).1,
          ← later_succ, if_neg (other (k + 1) (by omega) (Nat.le_refl _))]

end Carry

/-! ### Seconds and interrupts -/

section Interrupts

variable {s s' : State}

theorem updates_add (m n : Nat) (s : State) :
    updates (m + n) s = (updates m s).bind (updates n) := by
  induction m generalizing s with
  | zero => simp [updates]
  | succ m ih =>
      rw [Nat.succ_add, updates, updates, Option.bind_assoc]
      congr 1
      funext s
      exact ih s

/-- Each interrupt counts. -/
theorem updates_jiffy {n : Nat} (ran : updates n s = some s') :
    s'.jiffy = s.jiffy + n ∧ (n ≠ 0 → s'.jiffy ≤ 2147483647) := by
  induction n generalizing s with
  | zero =>
      obtain rfl := Option.some.inj ran
      simp
  | succ n ih =>
      obtain ⟨mid, one, rest⟩ := Option.bind_eq_some_iff.mp ran
      obtain ⟨count, bound⟩ := ih rest
      unfold updateJiffy at one
      split at one
      · next room =>
          have step : mid.jiffy = s.jiffy + 1 := by
            rw [← Option.some.inj one]
            dsimp only
            split <;> rfl
          refine ⟨by push_cast; omega, fun _ => ?_⟩
          by_cases last : n = 0
          · subst last
            omega
          · exact bound last
      · cases one

/-- Interrupts within a second only count. -/
theorem updates_quiet {n : Nat} (within : s.jiffy % HZ + n < HZ) (room : s.jiffy + n ≤ 2147483647) :
    updates n s = some { s with jiffy := s.jiffy + n } := by
  unfold HZ at within
  induction n generalizing s with
  | zero => simp [updates]
  | succ n ih =>
      have quiet : ¬ (s.jiffy + 1) % (HZ : Int) = 0 := by
        unfold HZ
        omega
      rw [updates, updateJiffy, if_pos (by omega)]
      dsimp only [Option.bind_some]
      rw [if_neg quiet, ih (by dsimp only; omega) (by dsimp only; omega)]
      simp only [Option.some.injEq, State.mk.injEq, and_true]
      omega

/-- **A second**: the carries, and a call of `time_event_proc`. -/
theorem updates_second (whole : (HZ : Int) ∣ s.jiffy) (room : s.jiffy + HZ ≤ 2147483647) :
    updates HZ s = some ⟨s.jiffy + HZ, carry s.rt, s.events + 1⟩ := by
  have start : s.jiffy % (HZ : Int) = 0 := Int.emod_eq_zero_of_dvd whole
  have turns : (s.jiffy + 99 + 1) % (HZ : Int) = 0 := by
    unfold HZ at start ⊢
    omega
  have quiet : updates 99 s = some { s with jiffy := s.jiffy + 99 } :=
    updates_quiet (by rw [start]; decide) (by unfold HZ at room; omega)
  rw [show HZ = 99 + 1 from rfl, updates_add, quiet, Option.bind_some, updates, updateJiffy,
    if_pos (by unfold HZ at room; dsimp only; omega)]
  dsimp only [Option.bind_some, updates]
  rw [if_pos turns]
  simp only [Option.some.injEq, State.mk.injEq, and_true]
  omega

/-- That many seconds. -/
theorem updates_seconds (whole : (HZ : Int) ∣ s.jiffy) {k : Nat}
    (room : s.jiffy + k * HZ ≤ 2147483647) :
    updates (k * HZ) s = some ⟨s.jiffy + k * HZ, carry^[k] s.rt, s.events + k⟩ := by
  induction k with
  | zero => simp [updates]
  | succ k ih =>
      have sum : s.jiffy + ((k + 1 : Nat) : Int) * HZ = s.jiffy + k * HZ + HZ := by push_cast; ring
      rw [sum] at room ⊢
      rw [Nat.succ_mul, updates_add, ih (by unfold HZ at room ⊢; omega), Option.bind_some,
        updates_second (Int.dvd_add whole ⟨k, Int.mul_comm ..⟩) room, Function.iterate_succ_apply']
      rfl

/-- **When the clock is right**: exactly when none of the seconds so far is on the last day of a
month, as long as the number of interrupts fits `jiffy`. -/
theorem shows_iff (valid : s.rt.Valid) (whole : (HZ : Int) ∣ s.jiffy) (k : Nat) :
    Shows s k ↔ k = 0 ∨
      s.jiffy + k * HZ ≤ 2147483647 ∧ ∀ j, 1 ≤ j → j ≤ k → ¬ (later j s.rt).OnLastDay := by
  obtain ⟨-, -, exactly, same⟩ := carry_run valid k
  constructor
  · rintro ⟨s', ran, shown⟩
    refine or_iff_not_imp_left.mpr fun some => ?_
    obtain ⟨count, bound⟩ := updates_jiffy ran
    have room : s.jiffy + k * HZ ≤ 2147483647 := by
      have := bound (by unfold HZ; omega)
      push_cast at count
      omega
    rw [updates_seconds whole room] at ran
    obtain rfl := Option.some.inj ran
    refine ⟨room, exactly ?_⟩
    rw [show carry^[k] s.rt = later k s.rt from shown, (valid.later k).2]
  · rintro (rfl | ⟨room, other⟩)
    · exact ⟨s, by rw [Nat.zero_mul]; rfl, rfl⟩
    · exact ⟨_, updates_seconds whole room, same other⟩

/-- Five seconds around a midnight in March. -/
theorem shows_march : Shows ⟨0, ⟨14, 3, 10, 23, 59, 58⟩, 0⟩ 5 := by
  refine (shows_iff ⟨by decide, by decide, by decide, by decide, by decide⟩ ⟨0, rfl⟩ 5).mpr
    (.inr ⟨by decide, fun j first last => ?_⟩)
  interval_cases j <;> decide

/-- The second after January 30, 23:59:59 is shown in February. -/
theorem not_shows_january : ¬ ∀ (s : State) (k : Nat), s.rt.Valid → (HZ : Int) ∣ s.jiffy →
    Shows s k := by
  intro all
  obtain ⟨s', ran, shown⟩ := all ⟨0, ⟨14, 1, 30, 23, 59, 59⟩, 0⟩ 1
    ⟨by decide, by decide, by decide, by decide, by decide⟩ ⟨0, rfl⟩
  rw [Nat.one_mul, updates_second ⟨0, rfl⟩ (by decide)] at ran
  obtain rfl := Option.some.inj ran
  revert shown
  decide

end Interrupts

end NjuOs.Drivers.Clock
