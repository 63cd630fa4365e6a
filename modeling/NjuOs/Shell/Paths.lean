/-
**The shell's paths.**

`convert_to_full_path` goes through its argument byte by byte, collects a component in `temp` and
changes the path in `real_dir` at every `/`: `i` is the end of the path there, or 0 once `..` has
led to the root.

* `Placed`: what the buffer and `i` say about the path, as a list of components.
* `convert_spec`: the conversion takes the components one by one, an empty one like any other if the
  path is not the root, and ends exactly if no path on the way needs more than 255 bytes.
* `converts_iff`: so it gives the path meant, from which empty components are left out, exactly if
  no path on the way is too long and every empty component taken has been undone by a `..` at the
  root.
-/

import NjuOs.Lib.Buffer
import Mathlib.Data.List.GetD
import Mathlib.Data.List.Induction

namespace NjuOs.Shell

open NjuOs.Lib

/-! ### The model -/

/-- The character '/'. -/
def slash : UInt8 := 47

/-- The component `.`. -/
def dot : List UInt8 := [46]

/-- The component `..`. -/
def dotdot : List UInt8 := [46, 46]

/-- An array of 256 bytes. -/
abbrev Buf := Nat → UInt8

/-- A write to an array. No result outside it. -/
def put (b : Buf) (i : Nat) (ch : UInt8) : Option Buf :=
  if i < 256 then some (Function.update b i ch) else none

/-- A text that ends with a NUL. -/
def cstr (text : List UInt8) : Buf := fun k => text.getD k 0

/-- The loop of `strlen`. -/
def strlenLoop (str : Buf) : Nat → Nat → Option Nat
  | 0, _ => none
  | fuel + 1, len => if str len ≠ 0 then strlenLoop str fuel (len + 1) else some len

/-- `strlen`. -/
def strlen (str : Buf) : Option Nat := strlenLoop str 256 0

/-- The loop of `strcpy`. -/
def strcpyLoop (s : Buf) : Nat → Nat → Nat → Buf → Option Buf
  | 0, _, _, _ => none
  | fuel + 1, k, i, d =>
    if s k ≠ 0 then (put d i (s k)).bind (strcpyLoop s fuel (k + 1) (i + 1)) else put d i 0

/-- `strcpy(d + i, s)`. -/
def strcpy (d : Buf) (i : Nat) (s : Buf) : Option Buf := strcpyLoop s 256 0 i d

/-- The loop of `strcmp`. -/
def strcmpLoop (s₁ s₂ : Buf) : Nat → Nat → Option Int
  | 0, _ => none
  | fuel + 1, i =>
    if s₁ i ≠ 0 ∧ s₂ i ≠ 0 then
      if (s₁ i).toInt8 > (s₂ i).toInt8 then some 1
      else if (s₁ i).toInt8 < (s₂ i).toInt8 then some (-1)
      else strcmpLoop s₁ s₂ fuel (i + 1)
    else if s₁ i = 0 ∧ s₂ i = 0 then some 0
    else if s₁ i = 0 then some (-1)
    else some 1

/-- `strcmp`; characters are signed. -/
def strcmp (s₁ s₂ : Buf) : Option Int := strcmpLoop s₁ s₂ 256 0

/-- The loop that goes back to a `/`. -/
def backLoop (realDir : Buf) : Nat → Nat
  | 0 => 0
  | i + 1 => if realDir (i + 1) ≠ slash then backLoop realDir i else i + 1

/-- What the loop does at the end of a component, which is in `temp` and has `k` bytes. -/
def takeComponent (temp : Buf) (k i : Nat) (realDir : Buf) : Option (Nat × Buf) := do
  if (← strcmp temp (cstr dotdot)) = 0 then
    let i := backLoop realDir i
    let realDir ← put realDir i 0
    if i = 0 then
      let realDir ← put realDir 0 slash
      let realDir ← put realDir 1 0
      return (i, realDir)
    return (i, realDir)
  else if (← strcmp temp (cstr dot)) ≠ 0 then
    if i ≠ 1 then
      let realDir ← put realDir i slash
      let realDir ← strcpy realDir (i + 1) temp
      return (i + 1 + k, realDir)
    else
      let realDir ← strcpy realDir i temp
      return (i + k, realDir)
  else return (i, realDir)

/-- The loop over the bytes of `dir_name`. -/
def convertLoop (dirName : Buf) : Nat → Nat → Nat → Nat → Buf → Buf → Option Buf
  | 0, _, _, _, _, _ => none
  | fuel + 1, j, k, i, temp, realDir =>
    if dirName j = slash ∨ dirName j = 0 then do
      let temp ← put temp k 0
      let (i, realDir) ← takeComponent temp k i realDir
      if dirName j = 0 ∨ dirName j = slash ∧ dirName (j + 1) = 0 then return realDir
      -- `k = -1`, then `k ++`
      convertLoop dirName fuel (j + 1) 0 i temp realDir
    else do
      let temp ← put temp k (dirName j)
      convertLoop dirName fuel (j + 1) (k + 1) i temp realDir

/-- `convert_to_full_path`, with what is in `real_dir` and `temp` before. -/
def convertToFullPath (currentDir : Buf) (dirName : Option (List UInt8)) (realDir temp : Buf) :
    Option Buf := do
  let (dirName, realDir) ←
    if dirName.bind List.head? ≠ some slash then do
      pure (dirName, ← strcpy realDir 0 currentDir)
    else do
      let realDir ← put realDir 0 slash
      let realDir ← put realDir 1 0
      pure (dirName.map List.tail, realDir)
  match dirName with
  | none => return realDir
  | some dirName =>
    let i ← strlen realDir
    convertLoop (cstr dirName) (dirName.length + 1) 0 0 i temp realDir

/-! ### Paths -/

/-- The absolute path of a list of components. -/
def render (dirs : List (List UInt8)) : List UInt8 :=
  if dirs = [] then [slash] else dirs.flatMap (slash :: ·)

/-- A component that stands for itself. -/
structure Plain (name : List UInt8) : Prop where
  nonempty : name ≠ []
  notDot : name ≠ dot
  notDotdot : name ≠ dotdot
  noSlash : slash ∉ name
  noNul : 0 ∉ name

/-- **A normalised absolute path.** -/
def Normal (path : List UInt8) : Prop := ∃ dirs, (∀ name ∈ dirs, Plain name) ∧ path = render dirs

/-- One component of an argument. -/
def step (dirs : List (List UInt8)) (name : List UInt8) : List (List UInt8) :=
  if name = [] ∨ name = dot then dirs
  else if name = dotdot then dirs.dropLast
  else dirs ++ [name]

/-- **The path meant by an argument**, from the root or from `dirs`. -/
def target (dirs : List (List UInt8)) : Option (List UInt8) → List (List UInt8)
  | none => dirs
  | some arg => (arg.splitOn slash).foldl step (if arg.head? = some slash then [] else dirs)

/-- **What the conversion should do.** -/
def Converts (currentDir : Buf) (dirs : List (List UInt8)) (arg : Option (List UInt8))
    (realDir temp : Buf) : Prop :=
  ∃ out, convertToFullPath currentDir arg realDir temp = some out ∧
    Stored 0 out (render (target dirs arg)) ∧
    Normal (render (target dirs arg))

/-! ### When it does -/

/-- The components the loop takes of a text whose first component has begun with `part`: all but an
empty one behind a final `/`. -/
def pieces : List UInt8 → List UInt8 → List (List UInt8)
  | part, [] => [part]
  | part, ch :: rest =>
    if ch = slash then if rest = [] then [part] else part :: pieces [] rest
    else pieces (part ++ [ch]) rest

/-- One component as the loop takes it: an empty one counts if the path is not the root. -/
def push (dirs : List (List UInt8)) (name : List UInt8) : List (List UInt8) :=
  if name = dotdot then dirs.dropLast
  else if name = dot then dirs
  else if name = [] ∧ dirs = [] then dirs
  else dirs ++ [name]

/-- Every path on the way fits. -/
def Fits : List (List UInt8) → List (List UInt8) → Prop
  | _, [] => True
  | dirs, name :: names => (render (push dirs name)).length ≤ 255 ∧ Fits (push dirs name) names

instance Fits.decidable : ∀ dirs names : List (List UInt8), Decidable (Fits dirs names)
  | _, [] => inferInstanceAs (Decidable True)
  | dirs, name :: names =>
    have := Fits.decidable (push dirs name) names
    inferInstanceAs (Decidable (_ ∧ _))

/-- The empty components taken outside the root that no `..` at the root has undone, for a path
meant that has `depth` components and with `extra` of them so far. -/
def surplus : Nat → Nat → List (List UInt8) → Nat
  | _, extra, [] => extra
  | depth, extra, name :: names =>
    if name = dotdot then if depth = 0 then surplus 0 (extra - 1) names
      else surplus (depth - 1) extra names
    else if name = dot then surplus depth extra names
    else if name = [] then if depth + extra = 0 then surplus depth extra names
      else surplus depth (extra + 1) names
    else surplus (depth + 1) extra names

/-- Where the loop starts, and the components it takes. -/
def taken (dirs : List (List UInt8)) (arg : List UInt8) : List (List UInt8) × List (List UInt8) :=
  if arg.head? = some slash then ([], pieces [] arg.tail) else (dirs, pieces [] arg)

/-- **When it does**: no path on the way is too long, and nothing is left of the empty
components. -/
def Settles (dirs : List (List UInt8)) : Option (List UInt8) → Prop
  | none => True
  | some arg => Fits (taken dirs arg).1 (taken dirs arg).2 ∧
      surplus (taken dirs arg).1.length 0 (taken dirs arg).2 = 0

/-! ### The path meant and the path taken -/

section Paths

variable {dirs dirs' names : List (List UInt8)} {name : List UInt8}

/-- The bytes of a path before a new component. -/
def base (dirs : List (List UInt8)) : List UInt8 := dirs.flatMap (slash :: ·)

theorem render_concat (dirs : List (List UInt8)) (name : List UInt8) :
    render (dirs ++ [name]) = base dirs ++ slash :: name := by
  simp [render, base]

theorem render_of_ne (some : dirs ≠ []) : render dirs = base dirs := if_neg some

/-- The components of the path meant are plain. -/
theorem plain_step (plain : ∀ name ∈ dirs, Plain name) (noSlash : slash ∉ name) (noNul : 0 ∉ name) :
    ∀ other ∈ step dirs name, Plain other := by
  unfold step
  split_ifs with same up
  · exact plain
  · exact fun other member => plain other (List.dropLast_subset _ member)
  · intro other member
    rcases List.mem_append.mp member with old | new
    · exact plain other old
    · obtain rfl := List.mem_singleton.mp new
      obtain ⟨some, notDot⟩ := not_or.mp same
      exact ⟨some, notDot, up, noSlash, noNul⟩

/-- The path taken is ahead of the path meant by `extra` components, and the same if there are
none. -/
structure Ahead (dirs dirs' : List (List UInt8)) (extra : Nat) : Prop where
  length : dirs'.length = dirs.length + extra
  same : extra = 0 → dirs' = dirs

/-- **The surplus** is what the path taken has more than the path meant. -/
theorem Ahead.foldl {extra : Nat} (ahead : Ahead dirs dirs' extra) (names : List (List UInt8)) :
    Ahead (names.foldl step dirs) (names.foldl push dirs') (surplus dirs.length extra names) := by
  induction names generalizing dirs dirs' extra with
  | nil => exact ahead
  | cons name names ih =>
      obtain ⟨length, same⟩ := ahead
      rw [List.foldl_cons, List.foldl_cons]
      by_cases up : name = dotdot
      · subst up
        have meant : step dirs dotdot = dirs.dropLast := rfl
        have loop : push dirs' dotdot = dirs'.dropLast := rfl
        rw [meant, loop, surplus, if_pos rfl]
        by_cases root : dirs.length = 0
        · rw [if_pos root]
          obtain rfl := List.length_eq_zero_iff.mp root
          refine ih ⟨by simp [length], fun none => ?_⟩
          exact List.length_eq_zero_iff.mp (by simp [length, none])
        · rw [if_neg root, ← List.length_dropLast]
          exact ih ⟨by simp only [List.length_dropLast]; omega, fun none => by rw [same none]⟩
      by_cases here : name = dot
      · subst here
        exact ih ⟨length, same⟩
      by_cases empty : name = []
      · subst empty
        have meant : step dirs [] = dirs := rfl
        rw [meant, surplus, if_neg up, if_neg here, if_pos rfl, push, if_neg up, if_neg here]
        by_cases root : dirs.length + extra = 0
        · have none : dirs' = [] := List.length_eq_zero_iff.mp (by omega)
          rw [if_pos root, if_pos ⟨rfl, none⟩]
          exact ih ⟨length, same⟩
        · have some : dirs' ≠ [] := fun none => root (by rw [← length, none]; rfl)
          rw [if_neg root, if_neg fun both => some both.2]
          exact ih ⟨by rw [List.length_append, length]; rfl, fun none => by omega⟩
      · have meant : step dirs name = dirs ++ [name] := by
          rw [step, if_neg (not_or.mpr ⟨empty, here⟩), if_neg up]
        have loop : push dirs' name = dirs' ++ [name] := by
          rw [push, if_neg up, if_neg here, if_neg fun both => empty both.1]
        rw [meant, loop, surplus, if_neg up, if_neg here, if_neg empty]
        have longer : (dirs ++ [name]).length = dirs.length + 1 := by simp
        rw [← longer]
        exact ih ⟨by simp only [List.length_append, length]; omega, fun none => by rw [same none]⟩

/-- An empty component behind a final `/` changes nothing. -/
theorem foldl_step_pieces (part text : List UInt8) (dirs : List (List UInt8)) :
    (pieces part text).foldl step dirs =
      ((text.splitOn slash).modifyHead (part ++ ·)).foldl step dirs := by
  induction text generalizing part dirs with
  | nil => simp [pieces]
  | cons ch text ih =>
      rw [pieces, List.splitOn_cons_eq_if_modifyHead]
      by_cases sep : ch = slash
      · rw [if_pos sep, if_pos (show (ch == slash) = true by simpa using sep), List.modifyHead_cons,
          List.append_nil, List.foldl_cons]
        split
        · next last =>
            subst last
            rfl
        · rw [List.foldl_cons, ih]
          congr 1
          exact congrFun List.modifyHead_id _
      · rw [if_neg sep, if_neg (show ¬ (ch == slash) = true by simpa using sep), ih,
          List.modifyHead_modifyHead]
        congr 2
        funext rest
        simp

theorem mem_pieces {part text : List UInt8} {ch : UInt8} (inside : name ∈ pieces part text)
    (member : ch ∈ name) :
    ch ∈ part ∨ ch ∈ text ∧ ch ≠ slash := by
  induction text generalizing part with
  | nil =>
      obtain rfl := List.mem_singleton.mp inside
      exact .inl member
  | cons next text ih =>
      rw [pieces] at inside
      by_cases sep : next = slash
      · rw [if_pos sep] at inside
        split at inside
        · obtain rfl := List.mem_singleton.mp inside
          exact .inl member
        · rcases List.mem_cons.mp inside with rfl | later
          · exact .inl member
          · rcases ih later with none | ⟨found, other⟩
            · cases none
            · exact .inr ⟨List.mem_cons_of_mem _ found, other⟩
      · rw [if_neg sep] at inside
        rcases ih inside with old | ⟨found, other⟩
        · rcases List.mem_append.mp old with old | new
          · exact .inl old
          · obtain rfl := List.mem_singleton.mp new
            exact .inr ⟨List.mem_cons_self, sep⟩
        · exact .inr ⟨List.mem_cons_of_mem _ found, other⟩

/-- What can come up on the way: no component holds a `/` or a NUL, and the first is not empty. -/
structure Pushed (dirs : List (List UInt8)) : Prop where
  noSlash : ∀ name ∈ dirs, slash ∉ name
  noNul : ∀ name ∈ dirs, 0 ∉ name
  first : ∀ name ∈ dirs.head?, name ≠ []

theorem Pushed.push (pushed : Pushed dirs) (noSlash : slash ∉ name) (noNul : 0 ∉ name) :
    Pushed (push dirs name) := by
  unfold Shell.push
  split_ifs with up here root
  · refine ⟨fun other member => pushed.noSlash other (List.dropLast_subset _ member),
      fun other member => pushed.noNul other (List.dropLast_subset _ member), fun other first => ?_⟩
    cases dirs with
    | nil => cases first
    | cons head rest =>
        cases rest with
        | nil => cases first
        | cons next rest => exact pushed.first other first
  · exact pushed
  · exact pushed
  · refine ⟨?_, ?_, fun other first => ?_⟩
    · simpa [or_imp, forall_and] using ⟨pushed.noSlash, noSlash⟩
    · simpa [or_imp, forall_and] using ⟨pushed.noNul, noNul⟩
    · cases dirs with
      | nil =>
          obtain rfl : name = other := by simpa using first
          exact fun empty => root ⟨empty, rfl⟩
      | cons head rest => exact pushed.first other first

theorem count_base (noSlash : ∀ name ∈ dirs, slash ∉ name) :
    (base dirs).count slash = dirs.length := by
  induction dirs with
  | nil => rfl
  | cons name dirs ih =>
      have here : name.count slash =
        0 := List.count_eq_zero_of_not_mem (noSlash name List.mem_cons_self)
      rw [base, List.flatMap_cons, List.count_append, List.count_cons_self, here, ← base,
        ih fun other member => noSlash other (List.mem_cons_of_mem _ member)]
      simp
      omega

/-- Paths that read the same have as many components. -/
theorem length_of_render (pushed : Pushed dirs) (pushed' : Pushed dirs')
    (same : render dirs = render dirs') :
    dirs.length = dirs'.length := by
  have one : ∀ {dirs}, Pushed dirs → base dirs ≠ [slash] := by
    intro dirs pushed root
    cases dirs with
    | nil => cases root
    | cons name dirs =>
        refine pushed.first name rfl ?_
        have both := (List.cons.inj root).2
        exact (List.append_eq_nil_iff.mp both).1
  by_cases none : dirs = [] <;> by_cases none' : dirs' = []
  · rw [none, none']
  · rw [none, render_of_ne none'] at same
    exact absurd same.symm (one pushed')
  · rw [none', render_of_ne none] at same
    exact absurd same (one pushed)
  · rw [render_of_ne none, render_of_ne none'] at same
    rw [← count_base pushed.noSlash, same, count_base pushed'.noSlash]

end Paths

/-! ### The string functions -/

section Strings

variable {s d : Buf} {text : List UInt8}

theorem put_eq {b : Buf} {i : Nat} {ch : UInt8} (inside : i < 256) :
    put b i ch = some (Function.update b i ch) :=
  if_pos inside

/-- The array begins with the text. -/
def Begins (b : Buf) (text : List UInt8) : Prop := ∀ k, k < text.length → b k = text.getD k 0

theorem Begins.stored {b : Buf} (begins : Begins b text) (stop : b text.length = 0)
    (plain : 0 ∉ text) :
    Stored 0 b text := by
  refine ⟨fun k bound => ?_, plain⟩
  rcases Nat.lt_or_eq_of_le bound with inside | rfl
  · rw [begins k inside, List.getD_eq_getElem?_getD]
  · rw [stop, List.getElem?_eq_none (Nat.le_refl _), Option.getD_none]

/-- The literals. -/
theorem dotdot_stored : Stored 0 (cstr dotdot) dotdot :=
  ⟨fun _ _ => List.getD_eq_getElem?_getD, by decide⟩

theorem dot_stored : Stored 0 (cstr dot) dot := ⟨fun _ _ => List.getD_eq_getElem?_getD, by decide⟩

theorem cstr_stored (plain : 0 ∉ text) : Stored 0 (cstr text) text :=
  ⟨fun _ _ => List.getD_eq_getElem?_getD, plain⟩

theorem strlen_eq (stored : Stored 0 s text) (short : text.length ≤ 255) :
    strlen s = some text.length := by
  have loop : ∀ fuel len, len ≤ text.length → text.length < len + fuel →
      strlenLoop s fuel len = some text.length := by
    intro fuel
    induction fuel with
    | zero => intro len below enough; omega
    | succ fuel ih =>
        intro len below enough
        rw [strlenLoop]
        rcases Nat.lt_or_eq_of_le below with inside | rfl
        · rw [if_pos (stored.ne_nul inside)]
          exact ih (len + 1) inside (by omega)
        · rw [if_neg (not_not.mpr stored.stop)]
  exact loop 256 0 (Nat.zero_le _) (by omega)

/-- A copy that fits puts the text where it should, and nothing else. -/
theorem strcpy_eq (stored : Stored 0 s text) {i : Nat} (fits : i + text.length < 256) :
    ∃ d', strcpy d i s = some d' ∧ (∀ k, k ≤ text.length → d' (i + k) = s k) ∧ ∀ k, k < i →
    d' k = d k := by
  have loop : ∀ fuel done d, done ≤ text.length → text.length < done + fuel →
    (∀ k, k < done → d (i + k) = s k) →
      ∃ d', strcpyLoop s fuel done (i + done) d = some d' ∧
        (∀ k, k ≤ text.length → d' (i + k) = s k) ∧
        ∀ k, k < i → d' k = d k := by
    intro fuel
    induction fuel with
    | zero => intro done d below enough; omega
    | succ fuel ih =>
        intro done d below enough copied
        rw [strcpyLoop]
        have kept : ∀ ch k, k < i + done → Function.update d (i + done) ch k = d k :=
          fun ch k low =>
          Function.update_of_ne (by omega) ..
        rcases Nat.lt_or_eq_of_le below with inside | rfl
        · rw [if_pos (stored.ne_nul inside), put_eq (by omega), Option.bind_some]
          obtain ⟨d', ran, all, low⟩ :=
            ih (done + 1) (Function.update d (i + done) (s done)) inside (by omega)
            fun k before => by
              rcases Nat.lt_succ_iff_lt_or_eq.mp before with old | rfl
              · rw [kept _ _ (by omega), copied k old]
              · exact Function.update_self ..
          exact ⟨d', ran, all, fun k below => (low k below).trans (kept _ _ (by omega))⟩
        · rw [if_neg (not_not.mpr stored.stop), put_eq (by omega)]
          refine ⟨_, rfl, fun k bound => ?_, fun k below => kept _ _ (by omega)⟩
          rcases Nat.lt_or_eq_of_le bound with before | rfl
          · rw [kept _ _ (by omega), copied k before]
          · rw [Function.update_self, stored.stop]
  exact loop 256 0 d (Nat.zero_le _) (by omega) fun _ none => by omega

/-- A copy to the start of a buffer. -/
theorem strcpy_stored (stored : Stored 0 s text) (short : text.length ≤ 255) :
    ∃ d', strcpy d 0 s = some d' ∧ Stored 0 d' text := by
  obtain ⟨d', copied, all, -⟩ := strcpy_eq (d := d) (i := 0) stored (by omega)
  refine ⟨d', copied, fun k bound => ?_, stored.plain⟩
  have same := all k bound
  rw [Nat.zero_add] at same
  exact same.trans (stored.holds k bound)

/-- A copy that does not fit leaves the array. -/
theorem strcpy_none (stored : Stored 0 s text) {i : Nat} (long : 256 ≤ i + text.length) :
    strcpy d i s = none := by
  have loop : ∀ fuel done d, done ≤ text.length → strcpyLoop s fuel done (i + done) d = none := by
    intro fuel
    induction fuel with
    | zero => exact fun done d below => rfl
    | succ fuel ih =>
        intro done d below
        rw [strcpyLoop]
        rcases Nat.lt_or_eq_of_le below with inside | rfl
        · rw [if_pos (stored.ne_nul inside)]
          unfold put
          split
          · exact ih (done + 1) _ inside
          · rfl
        · rw [if_neg (not_not.mpr stored.stop), put, if_neg (by omega)]
  exact loop 256 0 d (Nat.zero_le _)

/-- `strcmp` is 0 on equal texts only. -/
theorem strcmp_eq {s₁ s₂ : Buf} {text₁ text₂ : List UInt8} (stored₁ : Stored 0 s₁ text₁)
    (stored₂ : Stored 0 s₂ text₂) (short : text₁.length ≤ 255) :
    ∃ r, strcmp s₁ s₂ = some r ∧ (r = 0 ↔ text₁ = text₂) := by
  have loop : ∀ fuel i, i ≤ text₁.length → i ≤ text₂.length → text₁.take i = text₂.take i →
    text₁.length < i + fuel →
      ∃ r, strcmpLoop s₁ s₂ fuel i = some r ∧ (r = 0 ↔ text₁ = text₂) := by
    intro fuel
    induction fuel with
    | zero => intro i below; omega
    | succ fuel ih =>
        intro i below₁ below₂ agree enough
        rw [strcmpLoop]
        rcases Nat.lt_or_eq_of_le below₁ with inside₁ | rfl <;>
          rcases Nat.lt_or_eq_of_le below₂ with inside₂ | end₂
        · rw [if_pos ⟨stored₁.ne_nul inside₁, stored₂.ne_nul inside₂⟩]
          have here₁ : s₁ i = text₁[i] := by
            rw [stored₁.holds i below₁, List.getElem?_eq_getElem inside₁, Option.getD_some]
          have here₂ : s₂ i = text₂[i] := by
            rw [stored₂.holds i below₂, List.getElem?_eq_getElem inside₂, Option.getD_some]
          have differ : (s₁ i).toInt8 ≠ (s₂ i).toInt8 → text₁ ≠ text₂ := by
            rintro apart rfl
            exact apart (by rw [here₁, here₂])
          split
          · next more => exact ⟨1, rfl,
              iff_of_false (by decide) (differ fun same => Int8.lt_irrefl (same ▸ more))⟩
          · next notMore =>
            split
            · next less =>
                exact ⟨-1, rfl, iff_of_false (by decide)
                  (differ fun same => Int8.lt_irrefl (same ▸ less))⟩
            · next notLess =>
                have same : (s₁ i).toInt8 = (s₂ i).toInt8 :=
                  Int8.le_antisymm (Int8.not_lt.mp notMore) (Int8.not_lt.mp notLess)
                refine ih (i + 1) inside₁ inside₂ ?_ (by omega)
                rw [List.take_succ_eq_append_getElem inside₁,
                  List.take_succ_eq_append_getElem inside₂, agree, ← here₁, ← here₂,
                  show s₁ i = s₂ i from congrArg Int8.toUInt8 same]
        · subst end₂
          rw [if_neg fun both => both.2 stored₂.stop,
            if_neg fun both => stored₁.ne_nul inside₁ both.1, if_neg (stored₁.ne_nul inside₁)]
          exact ⟨1, rfl, iff_of_false (by decide) fun same => by rw [same] at inside₁; omega⟩
        · rw [if_neg fun both => both.1 stored₁.stop,
            if_neg fun both => stored₂.ne_nul inside₂ both.2, if_pos stored₁.stop]
          exact ⟨-1, rfl, iff_of_false (by decide) fun same => by rw [same] at inside₂; omega⟩
        · have stop₂ : s₂ text₁.length = 0 := by rw [end₂]; exact stored₂.stop
          rw [if_neg fun both => both.1 stored₁.stop, if_pos ⟨stored₁.stop, stop₂⟩]
          refine ⟨0, rfl, iff_of_true rfl ?_⟩
          rw [← List.take_length (l := text₁), agree, end₂, List.take_length]
  exact loop 256 0 (Nat.zero_le _) (Nat.zero_le _) rfl (by omega)

end Strings

/-! ### One component -/

/-- **The path in `real_dir`**, which ends at `i`; behind `..` `i` may be 0 at the root. -/
structure Placed (realDir : Buf) (i : Nat) (dirs : List (List UInt8)) : Prop where
  stored : Stored 0 realDir (render dirs)
  ends : i = (render dirs).length ∨ i = 0 ∧ dirs = []
  short : (render dirs).length ≤ 255
  pushed : Pushed dirs

section Component

variable {realDir temp : Buf} {i : Nat} {dirs : List (List UInt8)} {name : List UInt8}

theorem backLoop_eq {b : Buf} {p : Nat} (found : p = 0 ∨ b p = slash) (low : p ≤ i)
    (passed : ∀ q, p < q → q ≤ i → b q ≠ slash) : backLoop b i = p := by
  induction i with
  | zero => exact (Nat.le_zero.mp low).symm
  | succ i ih =>
      rw [backLoop]
      rcases Nat.lt_or_eq_of_le low with before | rfl
      · rw [if_pos (passed (i + 1) before (Nat.le_refl _))]
        exact ih (Nat.le_of_lt_succ before) fun q above below => passed q above (by omega)
      · rw [if_neg (not_not.mpr (found.resolve_left (by omega)))]

/-- The root, as `..` leaves it. -/
theorem stored_root (b : Buf) :
    Stored 0 (Function.update (Function.update b 0 slash) 1 0) (render []) := by
  refine ⟨fun k bound => ?_, by decide⟩
  have small : k = 0 ∨ k = 1 := by
    have : (render []).length = 1 := rfl
    omega
  rcases small with rfl | rfl
  · rw [Function.update_of_ne (by decide), Function.update_self]
    rfl
  · rw [Function.update_self]
    rfl

theorem pushed_nil : Pushed [] := ⟨by simp, by simp, by simp⟩

/-- `..` takes the last component. -/
theorem takeComponent_up (placed : Placed realDir i dirs) (stored : Stored 0 temp dotdot)
    (k : Nat) :
    ∃ i' realDir', takeComponent temp k i realDir = some (i', realDir') ∧
    Placed realDir' i' dirs.dropLast := by
  obtain ⟨r, compared, zero⟩ := strcmp_eq stored dotdot_stored (by decide)
  obtain rfl := zero.mpr rfl
  have bound := placed.short
  have inside : i < 256 := by
    rcases placed.ends with rfl | ⟨rfl, -⟩ <;> omega
  -- at the root, and behind a single component, the loop runs down to 0
  have toRoot : backLoop realDir i = 0 → dirs.dropLast = [] →
      ∃ i' realDir', takeComponent temp k i realDir = some (i', realDir') ∧
        Placed realDir' i' dirs.dropLast := by
    intro back none
    refine ⟨0, Function.update (Function.update (Function.update realDir 0 0) 0 slash) 1 0, ?_, ?_⟩
    · simp [takeComponent, compared, back, put]
    · rw [none]
      exact ⟨stored_root _, .inr ⟨rfl, rfl⟩, by decide, pushed_nil⟩
  rcases List.eq_nil_or_concat' dirs with rfl | ⟨init, name, rfl⟩
  · refine toRoot (backLoop_eq (.inl rfl) (Nat.zero_le _) fun q above below => ?_) rfl
    have one : i ≤ 1 := by
      rcases placed.ends with rfl | ⟨rfl, -⟩
      · exact Nat.le_refl _
      · exact Nat.zero_le _
    obtain rfl : q = 1 := by omega
    rw [show realDir 1 = 0 from placed.stored.stop]
    decide
  · have before : Pushed init := by
      have pushed : Pushed (push (init ++ [name]) dotdot) :=
        placed.pushed.push (by decide) (by decide)
      rwa [push, if_pos rfl, List.dropLast_concat] at pushed
    have text := placed.stored
    have ends := placed.ends
    rw [render_concat] at text ends bound
    replace ends : i = (base init ++ slash :: name).length :=
      ends.resolve_right fun none => by simp at none
    have sum : (base init ++ slash :: name).length = (base init).length + (name.length + 1) :=
      List.length_append
    have back : backLoop realDir i = (base init).length := by
      refine backLoop_eq (.inr ?_) (by omega) fun q above below => ?_
      · rw [text.holds _ (by omega), List.getElem?_append_right (Nat.le_refl _)]
        simp
      · rw [ends] at below
        rw [text.holds q below]
        rcases Nat.lt_or_eq_of_le below with inner | rfl
        · obtain ⟨q, rfl⟩ := Nat.exists_eq_add_of_lt above
          have place : (base init).length + q + 1 - (base init).length = q + 1 := by omega
          rw [List.getElem?_append_right (by omega), place, List.getElem?_cons_succ,
            List.getElem?_eq_getElem (by omega), Option.getD_some]
          intro same
          exact placed.pushed.noSlash name (by simp) (same ▸ List.getElem_mem _)
        · rw [List.getElem?_eq_none (Nat.le_refl _)]
          decide
    by_cases root : init = []
    · subst root
      exact toRoot back rfl
    rw [List.dropLast_concat]
    have more : (base init).length ≠ 0 := by
      obtain ⟨head, rest, rfl⟩ := List.exists_cons_of_ne_nil root
      simp [base]
    refine ⟨(base init).length, Function.update realDir (base init).length 0, ?_, ?_,
      ?_, ?_, before⟩
    · simp [takeComponent, compared, back, put_eq (show (base init).length < 256 by omega), more]
    · rw [render_of_ne root]
      exact text.cut (fun k low => Function.update_of_ne (by omega) ..) (Function.update_self ..)
    · rw [render_of_ne root]
      exact .inl rfl
    · rw [render_of_ne root]
      omega

theorem render_push (notUp : name ≠ dotdot) (notDot : name ≠ dot) :
    render (push dirs name) = base dirs ++ slash :: name := by
  rw [push, if_neg notUp, if_neg notDot]
  split
  · next both =>
      obtain ⟨rfl, rfl⟩ := both
      rfl
  · exact render_concat dirs name

theorem not_mem_base (pushed : Pushed dirs) : 0 ∉ base dirs := by
  intro member
  obtain ⟨other, inside, here⟩ := List.mem_flatMap.mp member
  rcases List.mem_cons.mp here with same | deeper
  · cases same
  · exact pushed.noNul other inside deeper

/-- The copy of a component behind its `/`. -/
theorem copy_name {d : Buf} (pushed : Pushed dirs) (stored : Stored 0 temp name)
    (noSlash : slash ∉ name) (notUp : name ≠ dotdot) (notDot : name ≠ dot)
    (low : ∀ k, k < (base dirs).length → d k = ((base dirs)[k]?).getD 0)
    (here : d (base dirs).length = slash) :
    ((render (push dirs name)).length ≤ 255 →
      ∃ d', strcpy d ((base dirs).length + 1) temp = some d' ∧
        Placed d' ((base dirs).length + 1 + name.length) (push dirs name)) ∧
    (¬ (render (push dirs name)).length ≤ 255 → strcpy d ((base dirs).length + 1) temp = none) := by
  have text : render (push dirs name) = (base dirs ++ [slash]) ++ name := by
    rw [render_push notUp notDot, List.append_assoc]
    rfl
  have size : (base dirs ++ [slash]).length = (base dirs).length + 1 := List.length_append
  have total : (render (push dirs name)).length = (base dirs).length + 1 + name.length := by
    rw [text, List.length_append, size]
  refine ⟨fun fits => ?_, fun long => strcpy_none stored (by omega)⟩
  obtain ⟨d', ran, copied, kept⟩ :=
    strcpy_eq (d := d) (i := (base dirs).length + 1) stored (by omega)
  refine ⟨d', ran, ?_, .inl total.symm, fits, pushed.push noSlash stored.plain⟩
  rw [text]
  refine stored.behind (fun k inside => ?_) (by rwa [size]) ?_
  · rw [kept k (by omega)]
    rcases Nat.lt_succ_iff_lt_or_eq.mp (size ▸ inside) with before | rfl
    · rw [low k before, List.getElem?_append_left before]
    · rw [here, List.getElem?_append_right (Nat.le_refl _)]
      simp
  · rw [List.mem_append, not_or]
    exact ⟨not_mem_base pushed, by decide⟩

/-- Another component goes behind the path, if it fits. -/
theorem takeComponent_name (placed : Placed realDir i dirs) (stored : Stored 0 temp name)
    (short : name.length ≤ 255) (noSlash : slash ∉ name) (notUp : name ≠ dotdot)
    (notDot : name ≠ dot) :
    ((render (push dirs name)).length ≤ 255 →
      ∃ i' realDir', takeComponent temp name.length i realDir = some (i', realDir') ∧
        Placed realDir' i' (push dirs name)) ∧
    (¬ (render (push dirs name)).length ≤ 255 →
      takeComponent temp name.length i realDir = none) := by
  obtain ⟨r, compared, zero⟩ := strcmp_eq stored dotdot_stored short
  obtain ⟨r', compared', zero'⟩ := strcmp_eq stored dot_stored short
  have other : r ≠ 0 := fun same => notUp (zero.mp same)
  have other' : r' ≠ 0 := fun same => notDot (zero'.mp same)
  by_cases root : i = 1
  · subst root
    -- only the root ends at 1: a component there is not empty
    have none : dirs = [] := by
      by_contra some
      have size := placed.ends.resolve_right (fun both => by omega)
      obtain ⟨head, rest, rfl⟩ := List.exists_cons_of_ne_nil some
      have first := List.length_pos_iff.mpr (placed.pushed.first head rfl)
      rw [render_of_ne some, base, List.flatMap_cons, List.length_append, List.length_cons] at size
      omega
    subst none
    obtain ⟨copied, left⟩ := copy_name placed.pushed stored noSlash notUp notDot (d := realDir)
      (fun k inside => by cases inside) (placed.stored.holds 0 (Nat.zero_le _))
    refine ⟨fun fits => ?_, fun long => ?_⟩
    · obtain ⟨d', ran, after⟩ := copied fits
      have copy : strcpy realDir 1 temp = some d' := ran
      exact ⟨1 + name.length, d',
        by simp [takeComponent, compared, compared', other, other', copy], after⟩
    · have copy : strcpy realDir 1 temp = none := left long
      simp [takeComponent, compared, compared', other, other', copy]
  · have ends : i = (base dirs).length := by
      by_cases none : dirs = []
      · subst none
        exact (placed.ends.resolve_left fun same => root same).1
      · rw [← render_of_ne none]
        exact placed.ends.resolve_right fun both => none both.2
    have inside : (base dirs).length < 256 := by
      have bound := placed.short
      by_cases none : dirs = []
      · rw [none]
        decide
      · rw [render_of_ne none] at bound
        omega
    have low : ∀ k, k < (base dirs).length →
        Function.update realDir (base dirs).length slash k = ((base dirs)[k]?).getD 0 := by
      intro k below
      by_cases none : dirs = []
      · subst none
        cases below
      · rw [Function.update_of_ne (by omega), ← render_of_ne none]
        rw [← render_of_ne none] at below
        exact placed.stored.holds k (Nat.le_of_lt below)
    obtain ⟨copied, left⟩ :=
      copy_name placed.pushed stored noSlash notUp notDot low (Function.update_self ..)
    rw [← ends] at copied left inside
    refine ⟨fun fits => ?_, fun long => ?_⟩
    · obtain ⟨d', copy, after⟩ := copied fits
      exact ⟨_, d',
        by simp [takeComponent, compared, compared', other, other', root, put_eq inside, copy],
        after⟩
    · simp [takeComponent, compared, compared', other, other', root, put_eq inside, left long]

/-- **A component is taken as it should**, and the step ends exactly if the path fits. -/
theorem takeComponent_spec (placed : Placed realDir i dirs) (stored : Stored 0 temp name)
    (short : name.length ≤ 255) (noSlash : slash ∉ name) :
    ((render (push dirs name)).length ≤ 255 →
      ∃ i' realDir', takeComponent temp name.length i realDir = some (i', realDir') ∧
        Placed realDir' i' (push dirs name)) ∧
    (¬ (render (push dirs name)).length ≤ 255 →
      takeComponent temp name.length i realDir = none) := by
  by_cases up : name = dotdot
  · subst up
    obtain ⟨i', realDir', ran, after⟩ := takeComponent_up placed stored dotdot.length
    exact ⟨fun _ => ⟨i', realDir', ran, after⟩, fun long => absurd after.short long⟩
  by_cases here : name = dot
  · subst here
    obtain ⟨r, compared, zero⟩ := strcmp_eq stored dotdot_stored short
    obtain ⟨r', compared', zero'⟩ := strcmp_eq stored dot_stored short
    have other : r ≠ 0 := fun same => up (zero.mp same)
    obtain rfl := zero'.mpr rfl
    exact ⟨fun _ => ⟨i, realDir, by simp [takeComponent, compared, compared', other], placed⟩,
      fun long => absurd placed.short long⟩
  · exact takeComponent_name placed stored short noSlash up here

/-- A component that `temp` cannot hold makes the path too long. -/
theorem not_fits_long (dirs : List (List UInt8)) (long : 256 ≤ name.length) :
    ¬ (render (push dirs name)).length ≤ 255 := by
  have notUp : name ≠ dotdot := by
    rintro rfl
    exact absurd long (by decide)
  have notDot : name ≠ dot := by
    rintro rfl
    exact absurd long (by decide)
  rw [render_push notUp notDot, List.length_append, List.length_cons]
  omega

/-- The end of a component: its NUL, and the step. -/
theorem endComponent_spec (placed : Placed realDir i dirs) (begins : Begins temp name)
    (noSlash : slash ∉ name) (noNul : 0 ∉ name) :
    ((render (push dirs name)).length ≤ 255 →
      ∃ temp' i' realDir', put temp name.length 0 = some temp' ∧
      takeComponent temp' name.length i realDir = some (i', realDir') ∧
      Placed realDir' i' (push dirs name)) ∧
    (¬ (render (push dirs name)).length ≤ 255 → put temp name.length 0 = none ∨
      ∃ temp', put temp name.length 0 = some temp' ∧
      takeComponent temp' name.length i realDir = none) := by
  by_cases room : name.length < 256
  · have stored : Stored 0 (Function.update temp name.length 0) name := by
      refine Begins.stored (fun k inside => ?_) (Function.update_self ..) noNul
      rw [Function.update_of_ne (Nat.ne_of_lt inside), begins k inside]
    obtain ⟨takes, stops⟩ := takeComponent_spec placed stored (by omega) noSlash
    refine ⟨fun fits => ?_, fun long => .inr ⟨_, put_eq room, stops long⟩⟩
    obtain ⟨i', realDir', ran, after⟩ := takes fits
    exact ⟨_, i', realDir', put_eq room, ran, after⟩
  · exact ⟨fun fits => absurd fits (not_fits_long dirs (by omega)), fun _ => .inl (if_neg room)⟩

end Component

/-! ### The whole argument -/

section Convert

variable {realDir temp : Buf} {dirs : List (List UInt8)} {part rest : List UInt8}

/-- The first component taken is not shorter than what there is of it. -/
theorem pieces_cons (part text : List UInt8) :
    ∃ name names, pieces part text = name :: names ∧ part.length ≤ name.length := by
  induction text generalizing part with
  | nil => exact ⟨part, [], rfl, Nat.le_refl _⟩
  | cons ch text ih =>
      rw [pieces]
      split
      · split
        · exact ⟨part, [], rfl, Nat.le_refl _⟩
        · exact ⟨part, _, rfl, Nat.le_refl _⟩
      · obtain ⟨name, names, split, longer⟩ := ih (part ++ [ch])
        rw [List.length_append] at longer
        exact ⟨name, names, split, by omega⟩

theorem not_fits_pieces (dirs : List (List UInt8)) (text : List UInt8) (long : 256 ≤ part.length) :
    ¬ Fits dirs (pieces part text) := by
  obtain ⟨name, names, split, longer⟩ := pieces_cons part text
  rw [split]
  exact fun fits => not_fits_long dirs (by omega) fits.1

/-- **The loop**: it takes the components that are left, and ends exactly if every path on the way
fits. -/
theorem convertLoop_spec {before : List UInt8} {i fuel : Nat} (placed : Placed realDir i dirs)
    (begins : Begins temp part) (noSlash : slash ∉ part) (noNul : 0 ∉ part) (plain : 0 ∉ rest)
    (enough : rest.length < fuel) :
    (Fits dirs (pieces part rest) →
      ∃ out i', convertLoop (cstr (before ++ rest)) fuel before.length part.length i temp realDir =
        some out ∧
        Placed out i' ((pieces part rest).foldl push dirs)) ∧
    (¬ Fits dirs (pieces part rest) →
      convertLoop (cstr (before ++ rest)) fuel before.length part.length i temp
        realDir = none) := by
  induction rest generalizing before i fuel part dirs realDir temp with
  | nil =>
      obtain ⟨fuel, rfl⟩ : ∃ f, fuel = f + 1 := ⟨fuel - 1, by simp at enough; omega⟩
      obtain ⟨takes, stops⟩ := endComponent_spec placed begins noSlash noNul
      have last : cstr before before.length = 0 := by simp [cstr]
      rw [List.append_nil, convertLoop, if_pos (.inr last)]
      refine ⟨fun fits => ?_, fun long => ?_⟩
      · obtain ⟨temp', i', realDir', ended, ran, after⟩ := takes fits.1
        exact ⟨realDir', i', by simp [ended, ran, last], after⟩
      · rcases stops (fun fits => long ⟨fits, trivial⟩) with ended | ⟨temp', ended, ran⟩
        · simp [ended]
        · simp [ended, ran]
  | cons ch rest ih =>
      obtain ⟨fuel, rfl⟩ : ∃ f, fuel = f + 1 := ⟨fuel - 1, by simp at enough; omega⟩
      obtain ⟨notNul, plain⟩ := not_or.mp (List.mem_cons.not.mp plain)
      have here : cstr (before ++ ch :: rest) before.length = ch := by simp [cstr]
      have next : cstr (before ++ ch :: rest) (before.length + 1) = 0 ↔ rest = [] := by
        cases rest with
        | nil => simp [cstr]
        | cons other rest =>
            have more : other ≠ 0 := fun same => plain (same ▸ List.mem_cons_self)
            simp [cstr, more]
      have split : before ++ ch :: rest = (before ++ [ch]) ++ rest := by simp
      have size : before.length + 1 = (before ++ [ch]).length := by simp
      rw [convertLoop, here, pieces]
      by_cases sep : ch = slash
      · obtain ⟨takes, stops⟩ := endComponent_spec placed begins noSlash noNul
        rw [if_pos (show ch = slash ∨ ch = 0 from .inl sep), if_pos sep]
        by_cases last : rest = []
        · rw [if_pos last]
          have stop : ch = 0 ∨ ch = slash ∧ cstr (before ++ ch :: rest) (before.length + 1) = 0 :=
            .inr ⟨sep, next.mpr last⟩
          refine ⟨fun fits => ?_, fun long => ?_⟩
          · obtain ⟨temp', i', realDir', ended, ran, after⟩ := takes fits.1
            exact ⟨realDir', i', by simp [ended, ran, stop], after⟩
          · rcases stops (fun fits => long ⟨fits, trivial⟩) with ended | ⟨temp', ended, ran⟩
            · simp [ended]
            · simp [ended, ran]
        · rw [if_neg last]
          have goesOn :
            ¬ (ch = 0 ∨ ch = slash ∧ cstr (before ++ ch :: rest) (before.length + 1) = 0) :=
            not_or.mpr ⟨fun same => notNul same.symm, fun both => last (next.mp both.2)⟩
          have rests : ∀ temp' {i' realDir'}, Placed realDir' i' (push dirs part) → _ :=
            fun temp' {i' realDir'} after =>
            @ih realDir' temp' (push dirs part) [] (before ++ [ch]) i' fuel after
              (fun _ inside => by cases inside)
              (List.not_mem_nil) (List.not_mem_nil) plain (Nat.lt_of_succ_lt_succ enough)
          rw [← split, ← size] at rests
          refine ⟨fun fits => ?_, fun long => ?_⟩
          · obtain ⟨temp', i', realDir', ended, ran, after⟩ := takes fits.1
            obtain ⟨out, i'', whole, final⟩ := (rests temp' after).1 fits.2
            exact ⟨out, i'', by simpa [ended, ran, goesOn] using whole, final⟩
          · by_cases first : (render (push dirs part)).length ≤ 255
            · obtain ⟨temp', i', realDir', ended, ran, after⟩ := takes first
              have whole := (rests temp' after).2 fun fits => long ⟨first, fits⟩
              simpa [ended, ran, goesOn] using whole
            · rcases stops first with ended | ⟨temp', ended, ran⟩
              · simp [ended]
              · simp [ended, ran]
      · rw [if_neg sep,
          if_neg (show ¬ (ch = slash ∨ ch = 0) from not_or.mpr ⟨sep, fun same => notNul same.symm⟩)]
        by_cases room : part.length < 256
        · have more : Begins (Function.update temp part.length ch) (part ++ [ch]) := by
            intro k inside
            rw [List.length_append] at inside
            rcases Nat.lt_succ_iff_lt_or_eq.mp inside with old | rfl
            · rw [Function.update_of_ne (Nat.ne_of_lt old), begins k old,
                List.getD_append _ _ _ _ old]
            · rw [Function.update_self]
              simp
          have rests := @ih realDir _ dirs (part ++ [ch]) (before ++ [ch]) i fuel placed more
            (by simpa [sep] using ⟨noSlash, Ne.symm sep⟩) (by simpa using ⟨noNul, notNul⟩) plain
            (Nat.lt_of_succ_lt_succ enough)
          rw [← split, ← size, List.length_append] at rests
          simpa [put_eq room] using rests
        · have long : 256 ≤ (part ++ [ch]).length := by
            rw [List.length_append]
            omega
          exact ⟨fun fits => absurd fits (not_fits_pieces dirs rest long),
            fun _ => by simp [put, room]⟩

theorem render_plain (plain : ∀ name ∈ dirs, Plain name) : Pushed dirs where
  noSlash name member := (plain name member).noSlash
  noNul name member := (plain name member).noNul
  first name first := (plain name (List.mem_of_mem_head? first)).nonempty

/-- **The conversion** takes the components one by one, and ends exactly if every path on the way
fits. -/
theorem convert_spec {currentDir : Buf} (plain : ∀ name ∈ dirs, Plain name)
    (current : Stored 0 currentDir (render dirs)) (short : (render dirs).length ≤ 255)
    {arg : List UInt8} (noNul : 0 ∉ arg) (realDir temp : Buf) :
    (Fits (taken dirs arg).1 (taken dirs arg).2 →
      ∃ out, convertToFullPath currentDir (some arg) realDir temp = some out ∧
      Stored 0 out (render ((taken dirs arg).2.foldl push (taken dirs arg).1))) ∧
    (¬ Fits (taken dirs arg).1 (taken dirs arg).2 →
      convertToFullPath currentDir (some arg) realDir temp = none) := by
  -- from the start the loop goes on
  have goesOn : ∀ {start : List (List UInt8)} {realDir' : Buf} {rest : List UInt8}, 0 ∉ rest →
      Stored 0 realDir' (render start) → (render start).length ≤ 255 → Pushed start → _ :=
    fun {start realDir' rest} noNul stored short pushed =>
      @convertLoop_spec realDir' temp start [] rest [] (render start).length (rest.length + 1)
        ⟨stored, .inl rfl, short, pushed⟩ (fun _ inside => by cases inside) List.not_mem_nil
        List.not_mem_nil noNul
        (Nat.lt_succ_self _)
  unfold taken
  by_cases absolute : arg.head? = some slash
  · obtain ⟨rest, rfl⟩ : ∃ rest, arg = slash :: rest := by
      cases arg with
      | nil => cases absolute
      | cons ch rest =>
          obtain rfl := Option.some.inj absolute
          exact ⟨rest, rfl⟩
    have root := stored_root realDir
    have start : convertToFullPath currentDir (some (slash :: rest)) realDir temp
        = convertLoop (cstr rest) (rest.length + 1) 0 0 1 temp
          (Function.update (Function.update realDir 0 slash) 1 0) := by
      have length := strlen_eq root (by decide)
      rw [show (render []).length = 1 from rfl] at length
      simp [convertToFullPath, put, length]
    rw [if_pos absolute, start]
    obtain ⟨loop, stops⟩ :=
      goesOn (fun member => noNul (List.mem_cons_of_mem _ member)) root (by decide) pushed_nil
    refine ⟨fun fits => ?_, stops⟩
    obtain ⟨out, i', ran, placed⟩ := loop fits
    exact ⟨out, ran, placed.stored⟩
  · obtain ⟨realDir', copied, stored⟩ := strcpy_stored (d := realDir) current short
    have start : convertToFullPath currentDir (some arg) realDir temp
        = convertLoop (cstr arg) (arg.length + 1) 0 0 (render dirs).length temp realDir' := by
      simp [convertToFullPath, absolute, copied, strlen_eq stored short]
    rw [if_neg absolute, start]
    obtain ⟨loop, stops⟩ := goesOn noNul stored short (render_plain plain)
    refine ⟨fun fits => ?_, stops⟩
    obtain ⟨out, i', ran, placed⟩ := loop fits
    exact ⟨out, ran, placed.stored⟩

/-- The path meant, from where the loop starts. -/
theorem target_eq (dirs : List (List UInt8)) (arg : List UInt8) :
    target dirs (some arg) = (taken dirs arg).2.foldl step (taken dirs arg).1 := by
  have whole : ∀ (text : List UInt8) (start : List (List UInt8)),
      (pieces [] text).foldl step start = (text.splitOn slash).foldl step start := by
    intro text start
    rw [foldl_step_pieces]
    congr 1
    exact congrFun List.modifyHead_id _
  show (arg.splitOn slash).foldl step (if arg.head? = some slash then [] else dirs) = _
  unfold taken
  by_cases absolute : arg.head? = some slash
  · rw [if_pos absolute, if_pos absolute, whole]
    cases arg with
    | nil => cases absolute
    | cons ch rest =>
        obtain rfl := Option.some.inj absolute
        rw [List.splitOn_cons_eq_if_modifyHead, if_pos (show (slash == slash) = true from rfl)]
        rfl
  · rw [if_neg absolute, if_neg absolute, whole]

end Convert

/-! ### When the conversion is right -/

section Settles

variable {currentDir : Buf} {dirs : List (List UInt8)}

theorem taken_plain (plain : ∀ name ∈ dirs, Plain name) (arg : List UInt8) :
    ∀ name ∈ (taken dirs arg).1, Plain name := by
  unfold taken
  split
  · exact fun name member => by cases member
  · exact plain

theorem taken_names {arg : List UInt8} (noNul : 0 ∉ arg) :
    ∀ name ∈ (taken dirs arg).2, slash ∉ name ∧ 0 ∉ name := by
  have pieces_names : ∀ {text}, 0 ∉ text → ∀ name ∈ pieces [] text, slash ∉ name ∧ 0 ∉ name := by
    intro text noNul name inside
    refine ⟨fun member => ?_, fun member => ?_⟩
    · rcases mem_pieces inside member with none | ⟨-, other⟩
      · cases none
      · exact other rfl
    · rcases mem_pieces inside member with none | ⟨found, -⟩
      · cases none
      · exact noNul found
  unfold taken
  split
  · exact pieces_names fun member => noNul (List.mem_of_mem_tail member)
  · exact pieces_names noNul

theorem plain_foldl {names : List (List UInt8)} (plain : ∀ name ∈ dirs, Plain name)
    (all : ∀ name ∈ names, slash ∉ name ∧ 0 ∉ name) :
    ∀ name ∈ names.foldl step dirs, Plain name := by
  induction names generalizing dirs with
  | nil => exact plain
  | cons name names ih =>
      have here := all name List.mem_cons_self
      exact ih (plain_step plain here.1 here.2) fun other member =>
        all other (List.mem_cons_of_mem _ member)

theorem pushed_foldl {names : List (List UInt8)} (pushed : Pushed dirs)
    (all : ∀ name ∈ names, slash ∉ name ∧ 0 ∉ name) : Pushed (names.foldl push dirs) := by
  induction names generalizing dirs with
  | nil => exact pushed
  | cons name names ih =>
      have here := all name List.mem_cons_self
      exact ih (pushed.push here.1 here.2) fun other member =>
        all other (List.mem_cons_of_mem _ member)

/-- **When a path is converted as it should be.** -/
theorem converts_iff (plain : ∀ name ∈ dirs, Plain name)
    (current : Stored 0 currentDir (render dirs)) (short : (render dirs).length ≤ 255)
    {arg : Option (List UInt8)} (noNul : ∀ text ∈ arg, 0 ∉ text) (realDir temp : Buf) :
    Converts currentDir dirs arg realDir temp ↔ Settles dirs arg := by
  cases arg with
  | none =>
      refine iff_of_true ?_ trivial
      obtain ⟨out, copied, stored⟩ := strcpy_stored (d := realDir) current short
      exact ⟨out, by simp [convertToFullPath, copied], stored, dirs, plain, rfl⟩
  | some text =>
      have noNul := noNul text rfl
      have names : ∀ name ∈ (taken dirs text).2, _ := taken_names noNul
      have start := taken_plain plain text
      obtain ⟨ends, stops⟩ := convert_spec plain current short noNul realDir temp
      have even : Ahead (taken dirs text).1 (taken dirs text).1 0 := ⟨rfl, fun _ => rfl⟩
      have ahead := even.foldl (taken dirs text).2
      unfold Converts
      rw [target_eq]
      constructor
      · rintro ⟨out, ran, stored, -⟩
        have fits : Fits (taken dirs text).1 (taken dirs text).2 := by
          by_contra long
          rw [stops long] at ran
          cases ran
        obtain ⟨out', ran', stored'⟩ := ends fits
        obtain rfl := Option.some.inj (ran.symm.trans ran')
        have same := length_of_render (pushed_foldl (render_plain start) names)
          (render_plain (plain_foldl start names)) (stored'.unique stored)
        refine ⟨fits, ?_⟩
        have longer := ahead.length
        omega
      · rintro ⟨fits, none⟩
        obtain ⟨out, ran, stored⟩ := ends fits
        rw [ahead.same none] at stored
        exact ⟨out, ran, stored, _, plain_foldl start names, rfl⟩

theorem plain_ab : ∀ name ∈ [[97], [98]], Plain name := by
  intro name member
  simp only [List.mem_cons, List.not_mem_nil, or_false] at member
  rcases member with rfl | rfl <;> exact ⟨by decide, by decide, by decide, by decide, by decide⟩

/-- `../c/` from `/a/b`. -/
theorem converts_up :
    Converts (cstr (render [[97], [98]])) [[97], [98]] (some [46, 46, 47, 99, 47])
      (fun _ => 0) fun _ => 0 :=
  (converts_iff plain_ab (cstr_stored (by decide)) (by decide)
    (fun text same => by obtain rfl := Option.some.inj same; decide) _ _).mpr ⟨by decide, by decide⟩

/-- `c//d` from `/a/b` is taken to `/a/b/c//d`. -/
theorem not_converts_empty :
    ¬ ∀ (currentDir : Buf) (dirs : List (List UInt8)) (arg : Option
      (List UInt8)) (realDir temp : Buf),
      (∀ name ∈ dirs, Plain name) → Stored 0 currentDir (render dirs) → (render dirs).length ≤ 255 →
        (∀ text ∈ arg, 0 ∉ text) → (render (target dirs arg)).length ≤ 255 →
          Converts currentDir dirs arg realDir temp := by
  intro all
  have current : Stored 0 (cstr (render [[97], [98]])) (render [[97], [98]]) :=
    cstr_stored (by decide)
  have noNul : (0 : UInt8) ∉ [99, 47, 47, 100] := by decide
  obtain ⟨out, ran, stored, -⟩ :=
    all _ _ (some [99, 47, 47, 100]) (fun _ => 0) (fun _ => 0) plain_ab current (by decide)
    (fun text same => by obtain rfl := Option.some.inj same; exact noNul) (by decide)
  obtain ⟨out', ran', stored'⟩ :=
    (convert_spec plain_ab current (by decide) noNul (fun _ => 0) fun _ => 0).1 (by decide)
  obtain rfl := Option.some.inj (ran.symm.trans ran')
  exact absurd (stored.unique stored') (by decide)

end Settles

end NjuOs.Shell
