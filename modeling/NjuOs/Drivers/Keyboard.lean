/-
**The keyboard's modifiers.**

`readkey` counts the make codes of a modifier up and its break codes down, and takes the lowest bit
of a counter for its state. A key that is held repeats its make code, so the counters know neither
how many keys are held nor whether one is. The counters are taken unbounded: an `int` has room for
2^31 make codes.

* `Tracks`: a counter is the number of its keys that are held and of the repeated make codes they
  have sent so far; `caps` is right up to an even number.
* `right_iff`: the characters and the counters are those of the keys held, at every moment of a
  stream, exactly when the repeats so far happen to cancel out: none of a modifier where no modifier
  is held, an even number where a character is struck with one Shift or none, an odd number with
  both.
-/

import Mathlib.Data.List.Induction
import Mathlib.Data.List.Infix
import Mathlib.Logic.Function.Basic
import Mathlib.Tactic.Common

namespace NjuOs.Drivers.Keyboard

/-! ### The model -/

/-- `K_CAPS`. -/
def kCaps : Nat := 58

/-- `K_LSHFT`. -/
def kLshft : Nat := 42

/-- `K_RSHFT`. -/
def kRshft : Nat := 54

/-- `K_CTRL`. -/
def kCtrl : Nat := 29

/-- `K_ALT`. -/
def kAlt : Nat := 56

/-- `K_F12`. -/
def kF12 : Nat := 88

/-- The keys that are passed to `consl_feed`: Enter, Backspace, Left, Right, Home, End, Delete, F1
to F6. -/
def fed : List Nat := [28, 14, 75, 77, 71, 79, 83, 59, 60, 61, 62, 63, 64]

/-- The two rows of `keychar`, without the zeros at their ends. -/
def lowerChars : List Char :=
  ['\x00', '\x00', '1', '2', '3', '4', '5', '6', '7', '8',
   '9', '0', '-', '=', '\x00', '\x00', 'q', 'w', 'e', 'r',
   't', 'y', 'u', 'i', 'o', 'p', '[', ']', '\x00', '\x00',
   'a', 's', 'd', 'f', 'g', 'h', 'j', 'k', 'l', ';',
   '\x27', '\x60', '\x00', '\x5c', 'z', 'x', 'c', 'v', 'b', 'n',
   'm', ',', '.', '/', '\x00', '\x00', '\x00', ' ']

/-- The characters of the keys with a shift key held. -/
def upperChars : List Char :=
  ['\x00', '\x00', '!', '@', '#', '$', '%', '^', '&', '*',
   '(', ')', '_', '+', '\x00', '\x00', 'Q', 'W', 'E', 'R',
   'T', 'Y', 'U', 'I', 'O', 'P', '\x7b', '\x7d', '\x00', '\x00',
   'A', 'S', 'D', 'F', 'G', 'H', 'J', 'K', 'L', ':',
   '\x22', '~', '\x00', '|', 'Z', 'X', 'C', 'V', 'B', 'N',
   'M', '<', '>', '?', '\x00', '\x00', '\x00', ' ']

/-- `keychar`: the character of a key, 0 if it has none. -/
def keychar (upper : Bool) (code : Nat) : Char :=
  (if upper then upperChars else lowerChars).getD code '\x00'

/-- `c >= 'a' && c <= 'z'`. -/
def isLetter (c : Char) : Bool := 'a' ≤ c ∧ c ≤ 'z'

/-- The counters. -/
structure Counters where
  caps : Int
  ctrl : Int
  alt : Int
  shft : Int
  deriving DecidableEq, Repr

/-- What is passed to `consl_accept` and to `consl_feed`. -/
structure Passed where
  accept : Option Char
  feed : Option Nat
  deriving DecidableEq, Repr

/-- The switch of a break code. -/
def keyUp (code : Nat) (k : Counters) : Counters :=
  if code = kLshft then { k with shft := k.shft - 1 }
  else if code = kRshft then { k with shft := k.shft - 1 }
  else if code = kCtrl then { k with ctrl := k.ctrl - 1 }
  else if code = kAlt then { k with alt := k.alt - 1 }
  else if code = kCaps then { k with caps := k.caps % 2 }
  else k

/-- The modifiers in the switch of a make code. -/
def keyDown (code : Nat) (k : Counters) : Counters :=
  if code = kLshft then { k with shft := k.shft + 1 }
  else if code = kRshft then { k with shft := k.shft + 1 }
  else if code = kCtrl then { k with ctrl := k.ctrl + 1 }
  else if code = kAlt then { k with alt := k.alt + 1 }
  else if code = kCaps then { k with caps := k.caps + 1 }
  else k

/-- The character of a make code, if it is not 0. -/
def accepted (code : Nat) (k : Counters) : Option Char :=
  let c := keychar false code
  let c := if isLetter c then keychar (xor (k.shft % 2 = 1) (k.caps % 2 = 1)) code
    else keychar (k.shft % 2 = 1) code
  if c ≠ '\x00' then some c else none

/-- `readkey` on the code it has read. No result for F12, which stops the machine. -/
def readkey (code : Nat) (k : Counters) : Option (Passed × Counters) :=
  if code ≥ 128 then
    let code := code - 128
    some (⟨none, none⟩, keyUp code k)
  else
    let accept := accepted code k
    if code ∈ fed then some (⟨accept, some code⟩, k)
    else if code = kF12 then none
    else some (⟨accept, none⟩, keyDown code k)

/-! ### Streams of scan codes -/

/-- A key goes down, or sends its make code again, or goes up. -/
inductive Scan where
  | make (key : Fin 128)
  | release (key : Fin 128)
  deriving DecidableEq

/-- The byte that the keyboard sends. -/
def Scan.code : Scan → Nat
  | .make key => key
  | .release key => key + 128

/-- The key it is about. -/
def Scan.key : Scan → Fin 128
  | .make key => key
  | .release key => key

/-- The counters of `readkey` before the first key. -/
def start : Counters := ⟨0, 0, 0, 0⟩

/-- The counters after a sequence of scan codes. -/
def run (scans : List Scan) (k : Counters) : Option Counters :=
  scans.foldlM (fun k scan => (readkey scan.code k).map Prod.snd) k

/-- What has happened to the keys: which are held, and how often each was pressed and sent a
repeated make code. -/
structure History where
  held : Fin 128 → Bool
  presses : Fin 128 → Nat
  repeats : Fin 128 → Nat

namespace History

/-- Nothing has been pressed. -/
def empty : History := ⟨fun _ => false, fun _ => 0, fun _ => 0⟩

/-- What a scan code adds: a make code of a key that is held is a repetition. -/
def step (h : History) : Scan → History
  | .make key =>
    if h.held key then { h with repeats := Function.update h.repeats key (h.repeats key + 1) }
    else
      { h with
        held := Function.update h.held key true
        presses := Function.update h.presses key (h.presses key + 1) }
  | .release key => { h with held := Function.update h.held key false }

/-- The history of a sequence of scan codes. -/
def of (scans : List Scan) : History := scans.foldl step empty

end History

/-- The left shift key. -/
def lshft : Fin 128 := 42

/-- The right shift key. -/
def rshft : Fin 128 := 54

/-- The control key. -/
def ctrl : Fin 128 := 29

/-- The alt key. -/
def alt : Fin 128 := 56

/-- The caps lock key. -/
def caps : Fin 128 := 58

/-- Only a key that is held goes up. -/
def Proper (scans : List Scan) : Prop :=
  ∀ before key, before ++ [.release key] <+: scans → (History.of before).held key = true

/-- No Shift, Ctrl or Alt key is held. -/
def History.Idle (h : History) : Prop :=
  h.held lshft = false ∧ h.held rshft = false ∧ h.held ctrl = false ∧ h.held alt = false

/-- **The character a key should give**: of the upper table with a Shift held, for letters the other
way round after an odd number of Caps Lock presses. -/
def History.character (h : History) (key : Fin 128) : Option Char :=
  let shifted := h.held lshft || h.held rshft
  let upper :=
    if isLetter (keychar false key) then xor shifted (h.presses caps % 2 = 1) else shifted
  if keychar upper key ≠ '\x00' then some (keychar upper key) else none

/-- **What `readkey` should do** at every moment of a stream that it comes to. -/
def Right (scans : List Scan) : Prop :=
  ∀ part, part <+: scans → ∀ k, run part start = some k →
    ((History.of part).Idle → k.shft = 0 ∧ k.ctrl = 0 ∧ k.alt = 0) ∧
    ∀ key : Fin 128, part ++ [.make key] <+: scans →
      accepted key k = (History.of part).character key

/-- Whether the repeated make codes that decide on a key's case should be odd in number, and whether
they are. -/
def History.Cancels (h : History) (key : Fin 128) : Prop :=
  (h.repeats lshft + h.repeats rshft + if isLetter (keychar false key) then
    h.repeats caps else 0) % 2
    = if h.held lshft ∧ h.held rshft then 1 else 0

/-- **When it does**, as long as F12 has not been pressed: where no modifier is held none has
repeated its make code, and where a key with two characters is struck the repeats cancel out. -/
def Cancelling (scans : List Scan) : Prop :=
  ∀ part, part <+: scans → .make 88 ∉ part →
    ((History.of part).Idle →
      ∀ key ∈ [lshft, rshft, ctrl, alt], (History.of part).repeats key = 0) ∧
    ∀ key : Fin 128, part ++ [.make key] <+: scans → keychar false key ≠ keychar true key →
      (History.of part).Cancels key

instance (h : History) : Decidable h.Idle := inferInstanceAs (Decidable (_ ∧ _))

instance (h : History) (key : Fin 128) : Decidable (h.Cancels key) :=
  inferInstanceAs (Decidable (_ = _))

-- only the keys of the stream have to be looked at
instance (scans : List Scan) : Decidable (Proper scans) :=
  decidable_of_iff
    (∀ before ∈ scans.inits, ∀ scan ∈ scans, before ++ [.release scan.key] <+: scans →
      (History.of before).held scan.key = true)
    ⟨fun all before key next =>
      all before ((List.mem_inits _ _).mpr ((List.prefix_append _ _).trans next))
        (.release key) (next.subset (List.mem_append_right _ (List.mem_singleton_self _))) next,
      fun proper before _ scan _ => proper before scan.key⟩

instance (scans : List Scan) : Decidable (Cancelling scans) :=
  decidable_of_iff (∀ part ∈ scans.inits, .make 88 ∉ part →
      ((History.of part).Idle →
        ∀ key ∈ [lshft, rshft, ctrl, alt], (History.of part).repeats key = 0) ∧
      ∀ scan ∈ scans, part ++ [.make scan.key] <+: scans →
        keychar false scan.key ≠ keychar true scan.key →
        (History.of part).Cancels scan.key)
    ⟨fun all part initial goesOn => (all part ((List.mem_inits _ _).mpr initial) goesOn).imp id
      fun struck key next =>
        struck (.make key) (next.subset (List.mem_append_right _ (List.mem_singleton_self _))) next,
      fun cancelling part initial goesOn =>
      (cancelling part ((List.mem_inits _ _).mp initial) goesOn).imp id
        fun struck scan _ => struck scan.key⟩

/-! ### What the counters count -/

section Switches

variable {code : Nat} {k : Counters}

/-- A key counts where it is the one asked for. -/
def one (code key : Nat) : Int := if code = key then 1 else 0

theorem keyDown_eq (code : Nat) (k : Counters) :
    keyDown code k = ⟨k.caps + one code kCaps, k.ctrl + one code kCtrl, k.alt + one code kAlt,
      k.shft + one code kLshft + one code kRshft⟩ := by
  unfold keyDown one kLshft kRshft kCtrl kAlt kCaps
  split_ifs <;> simp_all

theorem keyUp_eq (code : Nat) (k : Counters) :
    keyUp code k = ⟨if code = kCaps then k.caps % 2 else k.caps, k.ctrl - one code kCtrl,
      k.alt - one code kAlt,
      k.shft - one code kLshft - one code kRshft⟩ := by
  unfold keyUp one kLshft kRshft kCtrl kAlt kCaps
  split_ifs <;> simp_all

/-- The keys of `consl_feed` and F12 are no modifiers. -/
theorem keyDown_fed (member : code ∈ fed) : keyDown code k = k := by
  unfold fed at member
  simp only [List.mem_cons, List.not_mem_nil, or_false] at member
  rcases member with rfl | rfl | rfl | rfl | rfl | rfl | rfl | rfl | rfl | rfl | rfl | rfl | rfl <;>
    rfl

theorem readkey_make (key : Fin 128) (k : Counters) :
    readkey (Scan.make key).code k
      = if (key : Nat) = kF12 then none
        else some (⟨accepted key k, if (key : Nat) ∈ fed then some key else none⟩,
          keyDown key k) := by
  have small := key.isLt
  show readkey key k = _
  unfold readkey
  rw [if_neg (by omega)]
  dsimp only
  split
  · next member =>
      have other : (key : Nat) ≠ kF12 := by
        intro same
        rw [same] at member
        revert member
        decide
      rw [if_neg other, keyDown_fed member]
  · rfl

theorem readkey_release (key : Fin 128) (k : Counters) :
    readkey (Scan.release key).code k = some (⟨none, none⟩, keyUp key k) := by
  show readkey (key + 128) k = _
  unfold readkey
  rw [if_pos (by omega), Nat.add_sub_cancel]

end Switches

section Tracks

variable {h : History} {k : Counters} {key : Fin 128}

/-- The make codes of a key less its break codes: whether it is held, and its repeats. -/
def History.count (h : History) (key : Fin 128) : Int := h.repeats key + if h.held key then 1 else 0

/-- All make codes of a key. -/
def History.makes (h : History) (key : Fin 128) : Nat := h.presses key + h.repeats key

theorem count_make (h : History) (key other : Fin 128) :
    (h.step (.make key)).count other = h.count other + one key other := by
  unfold History.step History.count one
  by_cases same : other = key
  · subst same
    by_cases held : h.held other <;> simp [held]
  · have apart : (key : Nat) ≠ other := fun equal => same (Fin.ext equal.symm)
    rw [if_neg apart]
    by_cases held : h.held key <;> simp [held, same]

theorem count_release (held : h.held key = true) (other : Fin 128) :
    (h.step (.release key)).count other = h.count other - one key other := by
  unfold History.step History.count one
  by_cases same : other = key
  · subst same
    simp [held]
  · have apart : (key : Nat) ≠ other := fun equal => same (Fin.ext equal.symm)
    rw [if_neg apart]
    simp [same]

theorem makes_make (h : History) (key other : Fin 128) :
    ((h.step (.make key)).makes other : Int) = h.makes other + one key other := by
  unfold History.step History.makes one
  by_cases same : other = key
  · subst same
    by_cases held : h.held other
    · simp [held]
      omega
    · simp [held]
      omega
  · have apart : (key : Nat) ≠ other := fun equal => same (Fin.ext equal.symm)
    rw [if_neg apart]
    by_cases held : h.held key <;> simp [held, same]

/-- **What the counters count.** -/
structure Tracks (h : History) (k : Counters) : Prop where
  shft : k.shft = h.count lshft + h.count rshft
  ctrl : k.ctrl = h.count ctrl
  alt : k.alt = h.count alt
  caps : k.caps % 2 = h.makes caps % 2

theorem Tracks.make (tracks : Tracks h k) (key : Fin 128) :
    Tracks (h.step (.make key)) (keyDown key k) := by
  rw [keyDown_eq]
  refine ⟨?_, ?_, ?_, ?_⟩
  · rw [count_make, count_make, tracks.shft]
    show _ + one key kLshft + one key kRshft = _ + one key kLshft + (_ + one key kRshft)
    omega
  · rw [count_make, tracks.ctrl]
    rfl
  · rw [count_make, tracks.alt]
    rfl
  · rw [makes_make]
    have before := tracks.caps
    show (k.caps + one key kCaps) % 2 = (h.makes Keyboard.caps + one key kCaps) % 2
    omega

theorem Tracks.release (tracks : Tracks h k) (held : h.held key = true) :
    Tracks (h.step (.release key)) (keyUp key k) := by
  rw [keyUp_eq]
  refine ⟨?_, ?_, ?_, ?_⟩
  · rw [count_release held, count_release held, tracks.shft]
    show _ - one key kLshft - one key kRshft = _ - one key kLshft + (_ - one key kRshft)
    omega
  · rw [count_release held, tracks.ctrl]
    rfl
  · rw [count_release held, tracks.alt]
    rfl
  · have before := tracks.caps
    show (if (key : Nat) = kCaps then k.caps % 2 else k.caps) % 2 =
      (h.makes Keyboard.caps : Int) % 2
    split <;> omega

end Tracks

/-! ### Runs -/

section Runs

variable {scans : List Scan} {scan : Scan} {k : Counters}

theorem run_concat :
    run (scans ++ [scan]) k = (run scans k).bind fun k => (readkey scan.code k).map Prod.snd := by
  unfold run
  rw [List.foldlM_append]
  congr 1
  funext k
  exact (List.foldlM_cons ..).trans (Option.bind_fun_some _)

theorem History.of_concat : History.of (scans ++ [scan]) = (History.of scans).step scan := by
  rw [History.of, List.foldl_append]
  rfl

/-- The machine runs on until F12 is pressed. -/
theorem run_isSome : (run scans k).isSome ↔ .make 88 ∉ scans := by
  induction scans using List.reverseRecOn with
  | nil => simp [run]
  | append_singleton scans scan ih =>
      rw [run_concat, List.mem_append, not_or, ← ih, List.mem_singleton]
      cases ran : run scans k with
      | none => simp
      | some k =>
          rw [Option.bind_some, Option.isSome_map]
          cases scan with
          | release key => simp [readkey_release]
          | make key =>
              have stops : ((key : Nat) = kF12) ↔ (88 : Fin 128) = key :=
                ⟨fun same => Fin.ext same.symm, fun same => same ▸ rfl⟩
              rw [readkey_make]
              split
              · next same => simp [stops.mp same]
              · next other => simpa [stops] using other

/-- **Along a stream the counters count what they count.** -/
theorem run_tracks (proper : Proper scans) (ran : run scans start = some k) :
    Tracks (History.of scans) k := by
  induction scans using List.reverseRecOn generalizing k with
  | nil =>
      obtain rfl := Option.some.inj ran
      exact ⟨rfl, rfl, rfl, rfl⟩
  | append_singleton scans scan ih =>
      rw [run_concat, Option.bind_eq_some_iff] at ran
      obtain ⟨mid, before, last⟩ := ran
      have tracks :=
        ih (fun part key initial => proper part key (initial.trans (List.prefix_append _ _))) before
      rw [History.of_concat]
      obtain ⟨⟨_, after⟩, step, rfl⟩ := Option.map_eq_some_iff.mp last
      cases scan with
      | make key =>
          rw [readkey_make] at step
          split at step
          · cases step
          · simp only [Option.some.injEq, Prod.mk.injEq] at step
            rw [← step.2]
            exact tracks.make key
      | release key =>
          rw [readkey_release] at step
          simp only [Option.some.injEq, Prod.mk.injEq] at step
          rw [← step.2]
          exact tracks.release (proper scans key List.prefix_rfl)

end Runs

/-! ### When the keyboard is right -/

section Right

variable {scans : List Scan} {h : History} {k : Counters} {key : Fin 128}

theorem Proper.initial (proper : Proper scans) {part : List Scan} (initial : part <+: scans) :
    Proper part :=
  fun before key first => proper before key (first.trans initial)

/-- Different characters make a difference. -/
theorem pick_inj {c c' : Char} :
    (if c ≠ '\x00' then some c else none) = (if c' ≠ '\x00' then some c' else none) ↔ c = c' := by
  refine ⟨fun same => ?_, fun same => by rw [same]⟩
  split_ifs at same with first second second
  · exact Option.some.inj same
  · rw [not_not.mp first, not_not.mp second]

theorem keychar_eq {code : Nat} {upper upper' : Bool} :
    keychar upper code = keychar upper' code ↔ keychar false code = keychar true code ∨
    upper = upper' := by
  cases upper <;> cases upper' <;> simp [eq_comm]

/-- The lowest bit of `shft` says whether a Shift is held, unless the repeats and a second Shift say
otherwise. -/
theorem shft_iff (tracks : Tracks h k) (more : Nat) :
    xor (k.shft % 2 = 1) (more % 2 = 1) = (h.held lshft || h.held rshft) ↔
      (h.repeats lshft + h.repeats rshft + more) % 2 = if h.held lshft ∧ h.held rshft then
      1 else 0 := by
  have shft := tracks.shft
  unfold History.count at shft
  rcases Int.emod_two_eq k.shft with even | odd <;>
    rcases Nat.mod_two_eq_zero_or_one more with one | one <;>
    cases left : h.held lshft <;> cases right : h.held rshft <;> simp_all <;> omega

/-- The lowest bit of `caps` is that of the presses and the repeats. -/
theorem caps_eq (tracks : Tracks h k) :
    decide (k.caps % 2 = 1) = xor (h.presses caps % 2 = 1) (h.repeats caps % 2 = 1) := by
  have caps := tracks.caps
  unfold History.makes at caps
  rcases Nat.mod_two_eq_zero_or_one (h.presses Keyboard.caps) with one | one <;>
    rcases Nat.mod_two_eq_zero_or_one (h.repeats Keyboard.caps) with two | two <;>
      simp [one, two] <;> omega

/-- **The character of a key**: with the counters at what they count, right exactly if the repeats
cancel out. -/
theorem accepted_iff (tracks : Tracks h k) :
    accepted key k = h.character key ↔ keychar false key = keychar true key ∨ h.Cancels key := by
  unfold History.Cancels
  rw [← shft_iff tracks]
  by_cases letter : isLetter (keychar false key) = true
  · have turned : ∀ a b c d : Bool, xor a (xor b c) = xor d b ↔ xor a c = d := by decide
    simp only [accepted, History.character, letter, if_true]
    rw [pick_inj, keychar_eq, caps_eq tracks, turned]
  · have still : xor (k.shft % 2 = 1) (0 % 2 = 1) = decide (k.shft % 2 = 1) := Bool.xor_false _
    simp only [accepted, History.character, letter, if_false, Bool.false_eq_true]
    rw [pick_inj, keychar_eq, still]

theorem idle_iff (tracks : Tracks h k) (idle : h.Idle) :
    (k.shft = 0 ∧ k.ctrl = 0 ∧ k.alt = 0) ↔
    ∀ key ∈ [lshft, rshft, ctrl, alt], h.repeats key = 0 := by
  obtain ⟨shft, ctrl, alt, -⟩ := tracks
  obtain ⟨left, right, ctrlUp, altUp⟩ := idle
  simp only [History.count, left, right, ctrlUp, altUp, Bool.false_eq_true, if_false,
    Int.add_zero] at shft ctrl alt
  simp only [List.forall_mem_cons, List.not_mem_nil, false_implies, implies_true, and_true]
  omega

/-- **The keyboard is right exactly when the repeated make codes cancel out.** -/
theorem right_iff (proper : Proper scans) : Right scans ↔ Cancelling scans := by
  constructor
  · intro right part initial goesOn
    obtain ⟨k, ran⟩ := Option.isSome_iff_exists.mp (run_isSome.mpr goesOn : (run part start).isSome)
    have tracks := run_tracks (proper.initial initial) ran
    obtain ⟨idle, struck⟩ := right part initial k ran
    refine ⟨fun up => (idle_iff tracks up).mp (idle up), fun key next differ => ?_⟩
    exact ((accepted_iff tracks).mp (struck key next)).resolve_left differ
  · intro cancelling part initial k ran
    have tracks := run_tracks (proper.initial initial) ran
    obtain ⟨idle, struck⟩ := cancelling part initial (run_isSome.mp (by rw [ran]; rfl))
    refine ⟨fun up => (idle_iff tracks up).mpr (idle up),
      fun key next => (accepted_iff tracks).mpr ?_⟩
    exact or_iff_not_imp_left.mpr (struck key next)

/-- A Shift held for one character, then Caps Lock for a letter. -/
theorem right_shift :
    Right [.make 42, .make 2, .release 2, .release 42, .make 58, .release 58, .make 30] :=
  (right_iff (by decide)).mpr (by decide)

/-- A Shift that has sent its make code twice gives the lower character. -/
theorem not_right_repeat : ¬ ∀ scans : List Scan, Proper scans → Right scans := by
  intro all
  have struck := (all [.make 42, .make 42, .make 2] (by decide) [.make 42, .make 42] (by decide)
    ⟨0, 0, 0, 2⟩ rfl).2 2
    List.prefix_rfl
  revert struck
  decide

end Right

end NjuOs.Drivers.Keyboard
