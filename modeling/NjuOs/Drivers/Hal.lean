/-
**The registry of devices.**

Sixteen records lie in a list of free ones and a list of devices. A device is looked up by its name,
character by character, so that any pointer to the same text finds it.

* `registry_accepts`: from `init_hal` on what is accepted are up to sixteen devices of different
  names; at any other registration the machine panics.
* `registry_finds`: after any accepted run a name leads to what was registered under it, and a name
  that was not registered to the assertion of `hal_get_id`.
-/

import Mathlib.Tactic.IntervalCases
import NjuOs.Lib.Ring
import NjuOs.Lib.Buffer
import NjuOs.Lib.Bytes

namespace NjuOs.Drivers.Hal

open NjuOs.Lib

/-! ### The model -/

/-- What has a link: the two heads and the records of `dev_pool`. -/
inductive Node where
  | free
  | devices
  | devPool (i : Nat)
deriving DecidableEq

/-- `Dev` without its link; `name` is a pointer. -/
structure Dev where
  name : Nat
  pid : Int
  devId : Int
deriving DecidableEq

/-- The two lists and the pool of records. -/
structure Registry where
  links : Links Node
  devPool : Nat → Dev

/-- `NR_DEV`. -/
def nrDev : Nat := 16

/-- What keeps a function from returning: a `panic`, an `assert`, or a walk that comes to no end (a
link that leads nowhere, a name without a terminator). -/
inductive Stop where
  | panic
  | assertion
  | astray
deriving DecidableEq

/-- `strcmp`; characters are signed. -/
def strcmp (ram : Store) (s1 s2 : Nat) : Nat → Nat → Option Int
  | 0, _ => none
  | fuel + 1, i =>
    if ram (s1 + i) ≠ 0 ∧ ram (s2 + i) ≠ 0 then
      if (ram (s1 + i)).toInt8 > (ram (s2 + i)).toInt8 then
        some 1
      else if (ram (s1 + i)).toInt8 < (ram (s2 + i)).toInt8 then
        some (-1)
      else
        strcmp ram s1 s2 fuel (i + 1)
    else if ram (s1 + i) = 0 ∧ ram (s2 + i) = 0 then
      some 0
    else if ram (s1 + i) = 0 then
      some (-1)
    else
      some 1

/-- The loop of `init_hal`. -/
def freeNodes : Nat → Links Node → Links Node
  | 0, l => l
  | i + 1, l => listAddBefore .free (.devPool i) (freeNodes i l)

/-- `init_hal`: all records are free. -/
def initHal (r : Registry) : Registry :=
  { r with links := listInit .devices (freeNodes nrDev (listInit .free r.links)) }

/-- The loop of `hal_get`, with what bounds the names: the record it returns, or null. -/
def halGetLoop (ram : Store) (r : Registry) (name size : Nat) :
    Nat → Node → Except Stop (Option Nat)
  | 0, _ => .error .astray
  | _ + 1, .devices => .ok none
  | _ + 1, .free => .error .astray
  | fuel + 1, .devPool i =>
    match strcmp ram (r.devPool i).name name size 0 with
    | none => .error .astray
    | some 0 => .ok (some i)
    | some _ =>
      match r.links.next (.devPool i) with
      | none => .error .astray
      | some it => halGetLoop ram r name size fuel it

/-- `hal_get`: the record with this name, or null. -/
def halGet (ram : Store) (r : Registry) (name size : Nat) : Except Stop (Option Nat) :=
  match r.links.next .devices with
  | none => .error .astray
  | some it => halGetLoop ram r name size (nrDev + 1) it

/-- `hal_get_id`: the process and the number of the device. -/
def halGetId (ram : Store) (r : Registry) (name size : Nat) : Except Stop (Int × Int) :=
  match halGet ram r name size with
  | .error stop => .error stop
  | .ok none => .error .assertion
  | .ok (some i) => .ok ((r.devPool i).pid, (r.devPool i).devId)

/-- `hal_register`; it panics if no record is free or the name is already registered. -/
def halRegister (ram : Store) (dev : Dev) (size : Nat) (r : Registry) : Except Stop Registry :=
  if listEmpty .free r.links then
    .error .panic
  else
    match halGet ram r dev.name size with
    | .error stop => .error stop
    | .ok (some _) => .error .panic
    | .ok none =>
      match r.links.next .free with
      | some (.devPool i) =>
        match listDel (.devPool i) r.links with
        | none => .error .astray
        | some links => .ok
            { links := listAddBefore .devices (.devPool i) links
              devPool := Function.update r.devPool i dev }
      | _ => .error .astray

/-- Registrations one after the other. -/
def register (ram : Store) (size : Nat) (devs : List Dev) (r : Registry) : Except Stop Registry :=
  devs.foldlM (fun r dev => halRegister ram dev size r) r

/-! ### Names -/

section Names

variable {ram : Store} {s1 s2 : Nat} {t1 t2 : List UInt8}

/-- **`strcmp` tells whether two texts are the same.** -/
theorem strcmp_zero {fuel i : Nat} (first : Stored 0 (fun k => ram (s1 + (k + i))) t1)
    (second : Stored 0 (fun k => ram (s2 + (k + i))) t2) (enough : t1.length < fuel) :
    ∃ c, strcmp ram s1 s2 fuel i = some c ∧ (c = 0 ↔ t1 = t2) := by
  induction t1 generalizing i t2 fuel with
  | nil =>
      obtain _ | fuel := fuel
      · exact absurd enough (Nat.not_lt_zero _)
      have stop : ram (s1 + i) = 0 := by simpa using first.stop
      rw [strcmp, if_neg fun both => both.1 stop]
      cases t2 with
      | nil =>
          have stop' : ram (s2 + i) = 0 := by simpa using second.stop
          exact ⟨0, if_pos ⟨stop, stop'⟩, fun _ => rfl, fun _ => rfl⟩
      | cons d t2 =>
          obtain ⟨here, plain, _⟩ := second.uncons
          have more : ram (s2 + i) ≠ 0 := by
            rw [Nat.zero_add] at here
            rw [here]
            exact plain
          rw [if_neg fun both => more both.2, if_pos stop]
          exact ⟨-1, rfl, nofun, nofun⟩
  | cons c t1 ih =>
      obtain _ | fuel := fuel
      · exact absurd enough (Nat.not_lt_zero _)
      obtain ⟨here, plain, rest⟩ := first.uncons
      rw [Nat.zero_add] at here
      rw [strcmp, here]
      cases t2 with
      | nil =>
          have stop : ram (s2 + i) = 0 := by simpa using second.stop
          rw [if_neg fun both => both.2 stop, if_neg fun both => plain both.1, if_neg plain]
          exact ⟨1, rfl, nofun, nofun⟩
      | cons d t2 =>
          obtain ⟨here', plain', rest'⟩ := second.uncons
          rw [Nat.zero_add] at here'
          rw [here', if_pos ⟨plain, plain'⟩]
          have irreflexive (e f : UInt8) (less : e.toInt8 < f.toInt8) : e ≠ f := by
            rintro rfl
            exact Int8.lt_irrefl less
          by_cases more : c.toInt8 > d.toInt8
          · rw [if_pos more]
            exact ⟨1, rfl, nofun,
              fun same => absurd (List.cons.inj same).1.symm (irreflexive d c more)⟩
          by_cases less : c.toInt8 < d.toInt8
          · rw [if_neg more, if_pos less]
            exact ⟨-1, rfl, nofun, fun same => absurd (List.cons.inj same).1 (irreflexive c d less)⟩
          · have same : c = d := by
              have := Int8.le_antisymm (Int8.not_lt.mp more) (Int8.not_lt.mp less)
              rw [← UInt8.toUInt8_toInt8 c, this, UInt8.toUInt8_toInt8]
            rw [if_neg more, if_neg less, same, List.cons_inj_right]
            exact ih (by simpa only [Nat.add_assoc, Nat.add_comm 1] using rest)
              (by simpa only [Nat.add_assoc, Nat.add_comm 1] using rest')
              (Nat.lt_of_succ_lt_succ enough)

end Names

/-! ### The lists -/

/-- The two lists. -/
inductive Which where
  | free
  | devices
deriving DecidableEq

/-- The head of a list. -/
def Which.head : Which → Node
  | free => .free
  | devices => .devices

/-- The names of the devices are texts, short enough for the comparison. -/
def Named (ram : Store) (size : Nat) (text : Nat → List UInt8) (devs : List Dev) : Prop :=
  ∀ dev ∈ devs, Stored 0 (fun k => ram (dev.name + k)) (text dev.name) ∧
    (text dev.name).length < size

/-- The records behind the two heads when there are `n` devices. -/
def behind (n : Nat) : Which → List Node
  | .free => (List.range' n (nrDev - n)).map .devPool
  | .devices => (List.range n).map .devPool

/-- **The lists hold these devices**, in the order of their registration. -/
structure Holds (r : Registry) (devs : List Dev) : Prop where
  lists : Lists r.links Which.head (behind devs.length)
  records : ∀ i dev, devs[i]? = some dev → r.devPool i = dev

section Lists

variable {ram : Store} {r r' : Registry} {devs : List Dev} {dev : Dev} {text : Nat → List UInt8}
  {size name : Nat}

/-- What the loop of `hal_get` finds from a record on. -/
theorem halGetLoop_eq (before : List Dev) {rest : List Dev} {fuel : Nat}
    (named : Named ram size text (before ++ rest))
    (stored : Stored 0 (fun k => ram (name + k)) (text name))
    (records : ∀ i dev, (before ++ rest)[i]? = some dev → r.devPool i = dev)
    (joined : ((List.range' before.length rest.length).map Node.devPool ++ [Node.devices]).IsChain
      r.links.Joined)
    (enough : rest.length < fuel) :
    ∃ found, halGetLoop ram r name size fuel
        (((List.range' before.length rest.length).map Node.devPool).headD .devices) = .ok found ∧
      found.map r.devPool = rest.find? fun dev => text dev.name = text name := by
  induction rest generalizing before fuel with
  | nil =>
      obtain _ | fuel := fuel
      · exact absurd enough (Nat.not_lt_zero _)
      exact ⟨none, rfl, rfl⟩
  | cons dev rest ih =>
      obtain _ | fuel := fuel
      · exact absurd enough (Nat.not_lt_zero _)
      rw [List.length_cons, List.range'_succ, List.map_cons] at joined ⊢
      have record : r.devPool before.length = dev := records _ _ (by simp)
      obtain ⟨texts, short⟩ := named dev (by simp)
      obtain ⟨c, compares, zero⟩ := strcmp_zero (i := 0) texts stored short
      rw [List.headD_cons, halGetLoop, record, compares, List.find?_cons]
      by_cases same : text dev.name = text name
      · rw [zero.mpr same, decide_eq_true same]
        exact ⟨some before.length, rfl, congrArg some record⟩
      · rw [decide_eq_false same]
        have other : c ≠ 0 := fun is => same (zero.mp is)
        have next : r.links.next (.devPool before.length) =
            some (((List.range' (before.length + 1) rest.length).map Node.devPool).headD
              .devices) := by
          cases rest with
          | nil => exact (List.isChain_cons_cons.mp joined).1.next
          | cons => exact (List.isChain_cons_cons.mp joined).1.next
        obtain ⟨found, runs, finds⟩ := ih (before ++ [dev])
          (by rwa [List.append_assoc]) (by rwa [List.append_assoc])
          (by rw [List.length_append]; exact joined.tail) (Nat.lt_of_succ_lt_succ enough)
        refine ⟨found, ?_, finds⟩
        rw [List.length_append, List.length_singleton] at runs
        split
        · rename_i none
          cases none
        · rename_i is
          exact absurd (Option.some.inj is) other
        · rw [next]
          exact runs

/-- **`hal_get` finds a device by its name.** -/
theorem Holds.halGet (holds : Holds r devs) (few : devs.length ≤ nrDev)
    (named : Named ram size text devs) (stored : Stored 0 (fun k => ram (name + k)) (text name)) :
    ∃ found, halGet ram r name size = .ok found ∧
      found.map r.devPool = devs.find? fun dev => text dev.name = text name := by
  have ring : Ring r.links .devices ((List.range devs.length).map .devPool) :=
    holds.lists.ring .devices
  rw [List.range_eq_range'] at ring
  obtain ⟨found, runs, finds⟩ := halGetLoop_eq [] named stored holds.records
    ring.joined.tail (Nat.lt_succ_of_le few)
  refine ⟨found, ?_, finds⟩
  unfold Hal.halGet
  have first : r.links.next .devices = _ := ring.next_head
  rw [first]
  exact runs

/-- **A registration is accepted** if a record is free and the name is new; the device goes to the
end. -/
theorem Holds.accepts (holds : Holds r devs) (room : devs.length < nrDev)
    (named : Named ram size text devs)
    (stored : Stored 0 (fun k => ram (dev.name + k)) (text dev.name))
    (new : ∀ other ∈ devs, text other.name ≠ text dev.name) :
    ∃ r', halRegister ram dev size r = .ok r' ∧ Holds r' (devs ++ [dev]) := by
  obtain ⟨found, runs, finds⟩ := holds.halGet room.le named stored
  have nothing : found = none := by
    rw [List.find?_eq_none.mpr fun other member => by simpa using new other member] at finds
    exact Option.map_eq_none_iff.mp finds
  subst nothing
  obtain ⟨more, left⟩ : ∃ more, nrDev - devs.length = more + 1 :=
    ⟨nrDev - devs.length - 1, by omega⟩
  have split : behind devs.length .free =
      [] ++ Node.devPool devs.length :: (List.range' (devs.length + 1) more).map Node.devPool := by
    unfold behind
    rw [left, List.range'_succ]
    rfl
  have free : Ring r.links .free (behind devs.length .free) := holds.lists.ring .free
  rw [split] at free
  have first : r.links.next .free = some (.devPool devs.length) := free.next_head
  have some : listEmpty Node.free r.links = false := by
    rw [Bool.eq_false_iff]
    exact fun empty => absurd (free.listEmpty_iff.mp empty) nofun
  obtain ⟨links, taken, lists, fresh⟩ := holds.lists.del (k := .free) split
  have added := lists.add (k := .devices) fresh
  unfold halRegister
  rw [some, runs, first]
  simp only [Bool.false_eq_true, if_false, taken]
  refine ⟨_, rfl, ⟨?_, ?_⟩⟩
  · rw [List.length_append, List.length_singleton]
    refine (congrArg (Lists _ Which.head) (funext fun which => ?_)).mpr added
    cases which with
    | free =>
        rw [Function.update_of_ne (by decide), Function.update_self, behind,
          show nrDev - (devs.length + 1) = more by omega]
        rfl
    | devices =>
        rw [Function.update_self, Function.update_of_ne (by decide), behind, behind,
          List.range_succ, List.map_append]
        rfl
  · intro i other here
    show Function.update r.devPool devs.length dev i = other
    rcases Nat.lt_or_ge i devs.length with old | late
    · rw [List.getElem?_append_left old] at here
      rw [Function.update_of_ne (Nat.ne_of_lt old)]
      exact holds.records i other here
    · rw [List.getElem?_append_right late] at here
      obtain ⟨last, is⟩ := List.getElem?_eq_some_iff.mp here
      rw [List.length_singleton] at last
      obtain rfl : i = devs.length := by omega
      rw [Function.update_self]
      simpa using is

/-- **Any other registration panics.** -/
theorem Holds.panics (holds : Holds r devs) (few : devs.length ≤ nrDev)
    (named : Named ram size text devs)
    (stored : Stored 0 (fun k => ram (dev.name + k)) (text dev.name))
    (wrong : devs.length = nrDev ∨ ∃ other ∈ devs, text other.name = text dev.name) :
    halRegister ram dev size r = .error .panic := by
  obtain ⟨found, runs, finds⟩ := holds.halGet few named stored
  have free : Ring r.links .free (behind devs.length .free) := holds.lists.ring .free
  unfold halRegister
  split
  · rfl
  · rename_i some
    rw [runs]
    rcases wrong with full | ⟨other, member, same⟩
    · refine absurd (free.listEmpty_iff.mpr ?_) some
      rw [full]
      rfl
    · cases found with
      | some i => rfl
      | none =>
          have none := List.find?_eq_none.mp finds.symm other member
          exact absurd (decide_eq_true same) none

end Lists

/-! ### Runs -/

section Runs

variable {ram : Store} {r r' : Registry} {devs : List Dev} {text : Nat → List UInt8} {size : Nat}

theorem freeNodes_ring {l : Links Node} (free : Ring l .free []) (count : Nat) :
    Ring (freeNodes count l) .free ((List.range count).map .devPool) := by
  induction count with
  | zero => exact free
  | succ count ih =>
      rw [List.range_succ, List.map_append]
      exact (ih.add (d := .devPool count) (by simp)).1

/-- After `init_hal` all records are free. -/
theorem initHal_holds (r : Registry) : Holds (initHal r) [] := by
  have free := freeNodes_ring (ring_init r.links .free) nrDev
  have devices := ring_init (freeNodes nrDev (listInit .free r.links)) Node.devices
  refine ⟨⟨fun which => ?_, fun {j k a} left right => ?_⟩, nofun⟩
  · cases which with
    | free =>
        show Ring _ Node.free ((List.range' 0 nrDev).map .devPool)
        rw [← List.range_eq_range']
        exact free.frame fun a member => listInit_same _ fun same => by simp [same] at member
    | devices => exact devices
  · have member {which : Which} (inside : a ∈ which.head :: behind 0 which) :
        (a = .devices) = (which = .devices) := by
      cases which with
      | free =>
          have other : a ≠ .devices := by
            rintro rfl
            simp [Which.head, behind] at inside
          exact propext ⟨fun is => absurd is other, nofun⟩
      | devices => exact propext ⟨fun _ => rfl, fun _ => List.mem_singleton.mp inside⟩
    have same := (member left).symm.trans (member right)
    cases j <;> cases k <;> simp_all

/-- **A run of registrations** keeps the lists, goes through if there is room and the names are
different, and panics otherwise. -/
theorem Holds.run {before : List Dev} (holds : Holds r before) (few : before.length ≤ nrDev)
    (distinct : (before.map fun dev => text dev.name).Nodup)
    (named : Named ram size text (before ++ devs)) :
    if (before ++ devs).length ≤ nrDev ∧ ((before ++ devs).map fun dev => text dev.name).Nodup then
      ∃ r', register ram size devs r = .ok r' ∧ Holds r' (before ++ devs)
    else
      register ram size devs r = .error .panic := by
  induction devs generalizing r before with
  | nil =>
      rw [List.append_nil, if_pos ⟨few, distinct⟩]
      exact ⟨r, rfl, holds⟩
  | cons dev devs ih =>
      have known : Named ram size text before :=
        fun other member => named other (List.mem_append_left _ member)
      obtain ⟨stored, _⟩ := named dev (by simp)
      by_cases fits : before.length < nrDev ∧ ∀ other ∈ before, text other.name ≠ text dev.name
      · obtain ⟨next, accepted, holds⟩ := holds.accepts fits.1 known stored fits.2
        have step : register ram size (dev :: devs) r = register ram size devs next := by
          rw [register, List.foldlM_cons, accepted]
          rfl
        rw [step, List.append_cons]
        refine ih holds ?_ ?_ (by rwa [← List.append_cons])
        · rw [List.length_append]
          exact fits.1
        · rw [List.map_append, List.nodup_append]
          refine ⟨distinct, List.nodup_singleton _, fun name old other new => ?_⟩
          obtain ⟨known, member, rfl⟩ := List.mem_map.mp old
          rw [List.mem_singleton.mp new]
          exact fits.2 known member
      · have refused : halRegister ram dev size r = .error .panic := by
          refine holds.panics few known stored ?_
          by_contra neither
          refine fits ⟨lt_of_le_of_ne few fun full => neither (.inl full),
            fun other member same => ?_⟩
          exact neither (.inr ⟨other, member, same⟩)
        rw [if_neg, register, List.foldlM_cons, refused]
        · rfl
        · rintro ⟨room, different⟩
          refine fits ⟨?_, fun other member same => ?_⟩
          · rw [List.length_append, List.length_cons] at room
            omega
          · rw [List.map_append, List.nodup_append] at different
            exact different.2.2 _ (List.mem_map_of_mem member)
              _ (List.mem_map_of_mem List.mem_cons_self) same

/-- An accepted run from `init_hal`: the lists hold the devices, and there was room for them. -/
theorem register_holds (r : Registry) (named : Named ram size text devs)
    (accepted : register ram size devs (initHal r) = .ok r') :
    Holds r' devs ∧ devs.length ≤ nrDev := by
  have run := (initHal_holds r).run (Nat.zero_le _) List.nodup_nil named
  rw [List.nil_append, accepted] at run
  split at run
  · rename_i fits
    obtain ⟨_, same, holds⟩ := run
    cases same
    exact ⟨holds, fits.1⟩
  · cases run

end Runs

/-! ### Two devices -/

/-- Before `init_hal`. -/
def noRegistry : Registry := ⟨⟨fun _ => none, fun _ => none⟩, fun _ => ⟨0, 0, 0⟩⟩

/-- The strings "ram" at 8, "tty1" at 16 and "ram" again at 24. -/
def twoNames : Store := fun x =>
  if x = 8 ∨ x = 24 then 114 else if x = 9 ∨ x = 25 then 97 else if x = 10 ∨ x = 26 then 109
  else if x = 16 ∨ x = 17 then 116 else if x = 18 then 121 else if x = 19 then 49 else 0

/-- Their texts. -/
def twoTexts (name : Nat) : List UInt8 := if name = 16 then [116, 116, 121, 49] else [114, 97, 109]

/-- A terminal and the ramdisk. -/
def twoDevs : List Dev := [⟨16, 1, 0⟩, ⟨8, 6, 0⟩]

theorem twoNames_stored {name : Nat} (known : name = 8 ∨ name = 16 ∨ name = 24) :
    Stored 0 (fun k => twoNames (name + k)) (twoTexts name) ∧ (twoTexts name).length < 9 := by
  rcases known with rfl | rfl | rfl
  · exact ⟨⟨fun k inside => by change k ≤ 3 at inside; interval_cases k <;> rfl, by decide⟩,
      by decide⟩
  · exact ⟨⟨fun k inside => by change k ≤ 4 at inside; interval_cases k <;> rfl, by decide⟩,
      by decide⟩
  · exact ⟨⟨fun k inside => by change k ≤ 3 at inside; interval_cases k <;> rfl, by decide⟩,
      by decide⟩

theorem twoDevs_named : Named twoNames 9 twoTexts twoDevs := by
  intro dev member
  rcases List.mem_cons.mp member with rfl | last
  · exact twoNames_stored (.inr (.inl rfl))
  · rw [List.mem_singleton.mp last]
    exact twoNames_stored (.inl rfl)

/-! ### The results -/

section Results

variable {ram : Store} {devs : List Dev} {text : Nat → List UInt8} {size : Nat}

/-- **Up to sixteen devices of different names** can be registered; any other sequence of
registrations panics. -/
theorem registry_accepts (r : Registry) (named : Named ram size text devs) :
    ((∃ r', register ram size devs (initHal r) = .ok r') ↔
      devs.length ≤ nrDev ∧ (devs.map fun dev => text dev.name).Nodup) ∧
    (¬ (devs.length ≤ nrDev ∧ (devs.map fun dev => text dev.name).Nodup) →
      register ram size devs (initHal r) = .error .panic) := by
  have run := (initHal_holds r).run (Nat.zero_le _) List.nodup_nil named
  rw [List.nil_append] at run
  split at run
  · rename_i fits
    obtain ⟨r', accepted, _⟩ := run
    exact ⟨⟨fun _ => fits, fun _ => ⟨r', accepted⟩⟩, fun wrong => absurd fits wrong⟩
  · rename_i wrong
    refine ⟨⟨fun ⟨r', accepted⟩ => ?_, fun fits => absurd fits wrong⟩, fun _ => run⟩
    rw [run] at accepted
    cases accepted

theorem registry_accepts_two : ∃ r', register twoNames 9 twoDevs (initHal noRegistry) = .ok r' :=
  (registry_accepts noRegistry twoDevs_named).1.mpr ⟨by decide, by decide⟩

/-- **A name leads to what was registered under it**, and a name that was not registered to the
failed assertion. -/
theorem registry_finds {r r' : Registry} (named : Named ram size text devs)
    (accepted : register ram size devs (initHal r) = .ok r') {name : Nat}
    (stored : Stored 0 (fun k => ram (name + k)) (text name)) :
    halGetId ram r' name size =
      match devs.find? fun dev => text dev.name = text name with
      | some dev => .ok (dev.pid, dev.devId)
      | none => .error .assertion := by
  obtain ⟨holds, room⟩ := register_holds r named accepted
  obtain ⟨found, runs, finds⟩ := holds.halGet room named stored
  unfold halGetId
  rw [runs, ← finds]
  cases found with
  | none => rfl
  | some i => rfl

theorem registry_finds_ram : ∃ r', register twoNames 9 twoDevs (initHal noRegistry) = .ok r' ∧
    halGetId twoNames r' 24 9 = .ok (6, 0) := by
  have run := (initHal_holds noRegistry).run (Nat.zero_le _) List.nodup_nil twoDevs_named
  rw [if_pos ⟨by decide, by decide⟩] at run
  obtain ⟨r', accepted, _⟩ := run
  exact ⟨r', accepted, registry_finds twoDevs_named accepted (twoNames_stored (.inr (.inr rfl))).1⟩

end Results

end NjuOs.Drivers.Hal
