/-
**Creation along a path.**

`_create` walks to the first missing component of a path, has `_create_dir` make the directories
that are missing and puts the file there. On a volume that is the growth of a graph: the path comes
through places, each missing one becomes a directory, and the file is entered at the last.

What `_create` does not do is look for the last component when directories had to be made: "x/.",
"x/../y" and "x/y/../y" get a second entry of a name that is there. So the path leads to the new
file exactly if the place it arrives at is neither an old one nor one it came through itself
(`create_path_iff`).
-/

import NjuOs.FileSystem.PathEnds
import NjuOs.FileSystem.Volume

namespace NjuOs.FileSystem

open NjuOs.Lib

/-! ### Strings and their components -/

/-- The components with a `/` between them. -/
def spell : List (List UInt8) → List UInt8
  | [] => []
  | [c] => c
  | c :: d :: cs => c ++ 47 :: spell (d :: cs)

/-- The components of a string. -/
def names : List UInt8 → List (List UInt8)
  | [] => [[]]
  | c :: cs => if c = 47 then [] :: names cs else (names cs).modifyHead (c :: ·)

/-- Components have neither a NUL nor a `/` in them. -/
def Clean (cs : List (List UInt8)) : Prop := ∀ c ∈ cs, 0 ∉ c ∧ 47 ∉ c

section Text

variable {text : List UInt8} {c f : List UInt8} {cs ds : List (List UInt8)}

theorem names_cons (text : List UInt8) : ∃ c cs, names text = c :: cs := by
  induction text with
  | nil => exact ⟨[], [], rfl⟩
  | cons b text ih =>
      obtain ⟨c, cs, same⟩ := ih
      unfold names
      rw [same]
      split
      · exact ⟨[], c :: cs, rfl⟩
      · exact ⟨b :: c, cs, rfl⟩

theorem spell_names (text : List UInt8) : spell (names text) = text := by
  induction text with
  | nil => rfl
  | cons b text ih =>
      obtain ⟨c, cs, same⟩ := names_cons text
      rw [same] at ih
      unfold names
      rw [same]
      split
      · subst b
        show [] ++ 47 :: spell (c :: cs) = _
        rw [ih, List.nil_append]
      · cases cs with
        | nil => exact congrArg _ ih
        | cons d cs => exact congrArg _ ih

theorem clean_names (clean : 0 ∉ text) : Clean (names text) := by
  induction text with
  | nil => simp [Clean, names]
  | cons b text ih =>
      rw [List.mem_cons, not_or] at clean
      have rest := ih clean.2
      obtain ⟨c, cs, same⟩ := names_cons text
      unfold names
      rw [same] at rest ⊢
      have head := rest c List.mem_cons_self
      split
      · rintro d (- | ⟨-, member⟩)
        · exact ⟨List.not_mem_nil, List.not_mem_nil⟩
        · exact rest d member
      · next other =>
        intro d member
        rcases List.mem_cons.mp member with rfl | member
        · exact ⟨fun nul => (List.mem_cons.mp nul).elim clean.1 head.1,
            fun slash => (List.mem_cons.mp slash).elim (Ne.symm other) head.2⟩
        · exact rest d (List.mem_cons_of_mem _ member)

/-- There is a `/` between two components. -/
theorem spell_length (cs : List (List UInt8)) : cs.length ≤ (spell cs).length + 1 := by
  induction cs with
  | nil => exact Nat.zero_le _
  | cons c cs ih =>
      cases cs with
      | nil => exact Nat.succ_le_succ (Nat.zero_le _)
      | cons d cs =>
          show _ ≤ (c ++ 47 :: spell (d :: cs)).length + 1
          simp only [List.length_append, List.length_cons] at ih ⊢
          omega

theorem Clean.append : Clean (cs ++ ds) ↔ Clean cs ∧ Clean ds := by
  unfold Clean
  simp only [List.mem_append]
  exact ⟨fun clean => ⟨fun c member => clean c (.inl member),
    fun c member => clean c (.inr member)⟩,
    fun clean c member => member.elim (clean.1 c) (clean.2 c)⟩

theorem spell_append (cs : List (List UInt8)) (f : List UInt8) (nonempty : cs ≠ []) :
    spell (cs ++ [f]) = spell cs ++ 47 :: f := by
  induction cs with
  | nil => exact absurd rfl nonempty
  | cons c cs ih =>
      cases cs with
      | nil => rfl
      | cons d cs =>
          show c ++ 47 :: spell (d :: cs ++ [f]) = c ++ 47 :: spell (d :: cs) ++ 47 :: f
          rw [ih (List.cons_ne_nil _ _), List.append_assoc, List.cons_append]

theorem Clean.nul_not_mem (clean : Clean cs) : 0 ∉ spell cs := by
  induction cs with
  | nil => exact List.not_mem_nil
  | cons c cs ih =>
      have first := (clean c List.mem_cons_self).1
      cases cs with
      | nil => exact first
      | cons d cs =>
          have rest := ih fun e member => clean e (List.mem_cons_of_mem _ member)
          show 0 ∉ c ++ 47 :: spell (d :: cs)
          rw [List.mem_append, List.mem_cons, not_or, not_or]
          exact ⟨first, by decide, rest⟩

/-- The first component of a string, and what is behind it. -/
theorem component_spell (clean : Clean (c :: cs)) (rest : List UInt8) :
    component (spell (c :: cs) ++ 0 :: rest) = some
      { name := c, last := cs.isEmpty, rest := if cs.isEmpty then rest
        else spell cs ++ 0 :: rest } := by
  obtain ⟨nul, slash⟩ := clean c List.mem_cons_self
  cases cs with
  | nil => exact component_nul nul slash
  | cons d cs =>
      show component (c ++ 47 :: spell (d :: cs) ++ 0 :: rest) = _
      rw [List.append_assoc, List.cons_append, component_slash nul slash]
      rfl

/-- The string before the last `/`, and the component behind it. -/
theorem parts_spell (clean : Clean (cs ++ [f])) (nonempty : cs ≠ []) (rest : List UInt8) :
    dirPart (spell (cs ++ [f]) ++ 0 :: rest) = spell cs ∧
    filePart (spell (cs ++ [f]) ++ 0 :: rest) = f := by
  have plain : 47 ∉ f := (clean f (List.mem_append_right _ List.mem_cons_self)).2
  have behind : ∀ b ∈ f.reverse, decide (b ≠ 47) = true := fun b member => by
    rw [decide_eq_true_eq]
    rintro rfl
    exact plain (List.mem_reverse.mp member)
  unfold dirPart filePart
  rw [untilNul_text clean.nul_not_mem, spell_append cs f nonempty, List.reverse_append,
    List.reverse_cons, List.append_assoc, List.dropWhile_append_of_pos behind,
    List.takeWhile_append_of_pos behind]
  simp

end Text

/-! ### Walking -/

/-- The walk of `read_inode` along a string ends at the inode. -/
def Leads (s : FmState) (dir : Int) (path : List UInt8) (n : Int) : Prop :=
  ∃ s', resolve path.length dir path s = .ok (some n) s'

/-- Where a path goes on it is in a directory. -/
def Through (dirs : Dirs) (n : Nat) (cs : List (List UInt8)) : Prop :=
  ∀ above below m, cs = above ++ below → below ≠ [] → walk (graph dirs).look n above = some m →
    ∃ records, dirs m = some records

section Walking

variable {dirs : Dirs} {s : FmState} {n m : Nat} {c : List UInt8} {cs : List (List UInt8)}

theorem Through.tail (through : Through dirs n (c :: cs)) (entry : (graph dirs).look n c = some m) :
    Through dirs m cs := by
  rintro above below k rfl more leads
  refine through (c :: above) below k rfl more ?_
  rw [walk, entry]
  exact leads

theorem through_of_walk (leads : walk (graph dirs).look n cs = some m) : Through dirs n cs := by
  rintro above below k rfl more start
  obtain ⟨c, below, rfl⟩ := List.exists_cons_of_ne_nil more
  rw [walk_append, start, Option.bind_some, walk] at leads
  obtain ⟨_, entry, -⟩ := Option.bind_eq_some_iff.mp leads
  exact look_isDir entry

/-- **`read_inode` follows the graph.** -/
theorem Volume.resolve (volume : Volume dirs s)
    (small : ∀ n records, dirs n = some records → 36 * records.length ≤ 19456) (clean : Clean cs)
    (nonempty : cs ≠ []) (through : Through dirs n cs) (rest : List UInt8) {fuel : Nat}
    (enough : cs.length ≤ fuel) :
    ∃ s', resolve fuel n (spell cs ++ 0 :: rest) s =
      .ok ((walk (graph dirs).look n cs).map Nat.cast) s' ∧
      s'.ground = s.ground := by
  induction cs generalizing n s fuel with
  | nil => exact absurd rfl nonempty
  | cons c cs ih =>
      obtain ⟨fuel, rfl⟩ : ∃ k, fuel = k + 1 :=
        ⟨fuel - 1, by rw [List.length_cons] at enough; omega⟩
      obtain ⟨records, here⟩ := through [] (c :: cs) n rfl nonempty rfl
      obtain ⟨s₁, looked, same⟩ :=
        volume.readDirEntry here (small n records here) (clean c List.mem_cons_self).1
      unfold FileSystem.resolve cut
      rw [component_spell clean rest]
      show ∃ s', (FileSystem.readDirEntry n c >>= _) s = _ ∧ _
      rw [run_bind looked, walk]
      cases entry : (graph dirs).look n c with
      | none => exact ⟨s₁, rfl, same⟩
      | some m =>
          cases cs with
          | nil => exact ⟨s₁, rfl, same⟩
          | cons d cs =>
              obtain ⟨s₂, run, later⟩ :=
                ih (volume.congr same) (fun e member => clean e (List.mem_cons_of_mem _ member))
                (List.cons_ne_nil _ _) (through.tail entry) (Nat.le_of_succ_le_succ enough)
              exact ⟨s₂, run, later.trans same⟩

/-- The inode a path of some components comes to, none for the start. -/
def Comes (s : FmState) (dir : Int) (cs : List (List UInt8)) (n : Int) : Prop :=
  if cs = [] then n = dir else Leads s dir (spell cs ++ [0]) n

theorem Volume.leads_iff (volume : Volume dirs s)
    (small : ∀ n records, dirs n = some records → 36 * records.length ≤ 19456) (clean : Clean cs)
    (nonempty : cs ≠ []) (through : Through dirs n cs) (rest : List UInt8) {k : Int} :
    Leads s n (spell cs ++ 0 :: rest) k ↔
    ∃ m : Nat, walk (graph dirs).look n cs = some m ∧ k = m := by
  have enough : cs.length ≤ (spell cs ++ 0 :: rest).length := by
    rw [List.length_append, List.length_cons]
    have := spell_length cs
    omega
  obtain ⟨s', run, -⟩ := volume.resolve small clean nonempty through rest enough
  unfold Leads
  rw [run]
  constructor
  · rintro ⟨s'', same⟩
    obtain ⟨m, leads, rfl⟩ := Option.map_eq_some_iff.mp (EStateM.Result.ok.inj same).1
    exact ⟨m, leads, rfl⟩
  · rintro ⟨m, leads, rfl⟩
    exact ⟨s', by rw [leads]; rfl⟩

theorem Volume.comes_iff (volume : Volume dirs s)
    (small : ∀ n records, dirs n = some records → 36 * records.length ≤ 19456) (clean : Clean cs)
    (through : Through dirs n cs) {k : Int} :
    Comes s n cs k ↔ ∃ m : Nat, walk (graph dirs).look n cs = some m ∧ k = m := by
  unfold Comes
  by_cases start : cs = []
  · subst start
    rw [if_pos rfl]
    exact ⟨fun same => ⟨n, rfl, same⟩,
      fun ⟨m, here, same⟩ => same.trans (congrArg Nat.cast (Option.some.inj here).symm)⟩
  · rw [if_neg start]
    exact volume.leads_iff small clean start through []

end Walking

/-! ### Making directories -/

/-- What a request for a path may use up: inodes, blocks, and entries in the directories it comes
through. -/
structure Supplied (dirs : Dirs) (n : Nat) (cs : List (List UInt8)) (s : FmState) : Prop where
  inodes : ((graph dirs).additions ⟨n, []⟩ cs).length ≤ idleCount s.inodeBitmap 1024
  blocks : 3 * ((graph dirs).additions ⟨n, []⟩ cs).length ≤ idleCount s.blockBitmap 4096
  entries : ∀ m records, dirs m = some records →
    36 * (records.length + ((graph dirs).additions ⟨n, []⟩ cs).count ⟨m, []⟩) ≤ 19456

/-- The inode is in use. -/
def FmState.known (s : FmState) (n : Nat) : Prop := s.inodeBitmap n = true

section Making

variable {dirs₀ : Dirs} {s₀ : FmState}

/-- **On the way**: the volume `dirs₀` of state `s₀` has grown by the places `made`, the path has
come to `p`, and there is supply for the components `cs` that are left. -/
structure Halfway (dirs₀ : Dirs) (s₀ : FmState) (made : List (Place Nat (List UInt8)))
    (node : Place Nat (List UInt8) → Nat) (dirs : Dirs) (s : FmState) (p : Place Nat (List UInt8))
    (cs : List (List UInt8)) : Prop where
  volume : Volume dirs s
  grown : (graph dirs₀).Grown s₀.known made node (graph dirs).look
  there : There s₀.known made p
  here : ∃ records, dirs (node p) = some records
  marked : ∀ q, There s₀.known made q → s.inodeBitmap (node q) = true
  isDir : ∀ q ∈ made, ∃ records, dirs (node q) = some records
  old : ∀ n records, dirs₀ n = some records → ∃ records', dirs n = some records'
  small : ∀ n records, dirs n = some records → 36 * records.length ≤ 19456
  inodes : ((graph dirs₀).additions p cs).length ≤ idleCount s.inodeBitmap 1024
  blocks : 3 * ((graph dirs₀).additions p cs).length ≤ idleCount s.blockBitmap 4096
  entries : ∀ q, There s₀.known made q → ∀ records, dirs (node q) = some records →
    36 * (records.length + ((graph dirs₀).additions p cs).count q) ≤ 19456

variable {made : List (Place Nat (List UInt8))} {node : Place Nat (List UInt8) → Nat} {dirs : Dirs}
  {s : FmState} {p : Place Nat (List UInt8)} {c : List UInt8} {cs : List (List UInt8)} {junk : Junk}

theorem Halfway.congr {s' : FmState} (half : Halfway dirs₀ s₀ made node dirs s p cs)
    (same : s'.ground = s.ground) :
    Halfway dirs₀ s₀ made node dirs s' p cs := by
  have volume := half.volume.congr same
  simp only [FmState.ground, Prod.mk.injEq] at same
  obtain ⟨-, inodes, -, blocks, -⟩ := same
  exact { half with
    volume := volume
    marked := fun q there => inodes ▸ half.marked q there
    inodes := inodes ▸ half.inodes
    blocks := blocks ▸ half.blocks }

/-- What is looked up in the graph before is in use. -/
theorem Volume.inside (volume : Volume dirs s) (n : Nat) (c : List UInt8) (m : Nat)
    (entry : (graph dirs).look n c = some m) : s.inodeBitmap m = true := (volume.linked entry).used

/-- The next component is a directory that is there. -/
theorem Halfway.step (half : Halfway dirs₀ s₀ made node dirs s p (c :: cs))
    (there : There s₀.known made ((graph dirs₀).enter p c))
    (travels : ((graph dirs₀).enter p c).below = [] →
      ∃ records, dirs₀ ((graph dirs₀).enter p c).base = some records) :
    Halfway dirs₀ s₀ made node dirs s ((graph dirs₀).enter p c) cs := by
  have fewer : ((graph dirs₀).additions ((graph dirs₀).enter p c) cs).Sublist
    ((graph dirs₀).additions p (c :: cs)) :=
    NamedGraph.additions_tail
  refine { half with
    there := there
    here := ?_
    inodes := le_trans fewer.length_le half.inodes
    blocks := le_trans (Nat.mul_le_mul_left 3 fewer.length_le) half.blocks
    entries := fun q there records here => ?_ }
  · rcases there with ⟨top, -⟩ | member
    · obtain ⟨records, here⟩ := travels top
      generalize (graph dirs₀).enter p c = q at top here
      obtain ⟨n, below⟩ := q
      obtain rfl : below = [] := top
      rw [half.grown.base]
      exact half.old n records here
    · exact half.isDir _ member
  · have count := fewer.count_le q
    have room := half.entries q there records here
    omega

/-- What was a directory still is one. -/
theorem MadeDir.more {n k m : Nat} {name : List UInt8} {dirs' : Dirs} {s' : FmState}
    {records : List Record} (new : MadeDir dirs s n name k dirs' s')
    (here : dirs m = some records) :
    ∃ records', dirs' m = some records' := by
  by_cases top : m = n
  · subst top
    obtain ⟨records', there, -⟩ := new.above records here
    exact ⟨records', there⟩
  · by_cases self : m = k
    · subst self
      obtain ⟨records', there, -⟩ := new.here
      exact ⟨records', there⟩
    · exact ⟨records, (new.others m top self).trans here⟩

/-- **A directory is made for the next component.** -/
theorem Halfway.make {k : Nat} {dirs' : Dirs} {s' : FmState}
    (half : Halfway dirs₀ s₀ made node dirs s p (c :: cs))
    (inside : ∀ n c m, (graph dirs₀).look n c = some m → s₀.inodeBitmap m = true)
    (away : ¬ There s₀.known made ((graph dirs₀).enter p c))
    (new : MadeDir dirs s (node p) c k dirs' s') (few : 36 * (2 + cs.length) ≤ 19456) :
    Halfway dirs₀ s₀ ((graph dirs₀).enter p c :: made)
      (Function.update node ((graph dirs₀).enter p c) k) dirs' s'
      ((graph dirs₀).enter p c) cs := by
  generalize enters : (graph dirs₀).enter p c = q at away ⊢
  have place : q = ⟨p.base, c :: p.below⟩ :=
    enters ▸ half.grown.enter_new inside half.there (enters ▸ away)
  have added : (graph dirs₀).additions p (c :: cs) = p :: (graph dirs₀).additions q cs := by
    rw [NamedGraph.additions, enters, if_pos (.inr place)]
  have self : Function.update node q k q = k := Function.update_self _ _ _
  have apart : ∀ r, There s₀.known made r → node r ≠ k := by
    rintro r there rfl
    have used := half.marked r there
    rw [new.free] at used
    cases used
  have kept : ∀ r, There s₀.known made r → Function.update node q k r = node r := fun r there =>
    Function.update_of_ne (show r ≠ q from fun same => away (same ▸ there)) _ _
  have unknown : ¬ s₀.inodeBitmap k = true := fun known => by
    have base := half.grown.base k
    exact apart ⟨k, []⟩ (.inl ⟨rfl, known⟩) base
  have grown := half.grown.make inside half.there enters away unknown fun r member =>
    apart r (.inr member)
  have split : ∀ r, There s₀.known (q :: made) r →
      r = q ∨ There s₀.known made r := by
    rintro r (top | member)
    · exact .inr (.inl top)
    · rcases List.mem_cons.mp member with here | old
      · exact .inl here
      · exact .inr (.inr old)
  obtain ⟨own, ownHere, ownLength⟩ := new.here
  obtain ⟨above, aboveHere⟩ := half.here
  obtain ⟨above', aboveHere', aboveLength⟩ := new.above above aboveHere
  have room := half.entries p half.there above aboveHere
  rw [added, List.count_cons_self] at room
  have inodes := half.inodes
  have blocks := half.blocks
  rw [added, List.length_cons] at inodes blocks
  refine {
    volume := new.volume
    grown := new.look ▸ grown
    there := .inr List.mem_cons_self
    here := ⟨own, by rw [self, ownHere]⟩
    marked := fun r there => ?_
    isDir := fun r member => ?_
    old := fun n records here => ?_
    small := fun n records here => ?_
    inodes := ?_
    blocks := ?_
    entries := fun r there records here => ?_ }
  · rw [new.inodes]
    rcases split r there with rfl | old
    · rw [self, Function.update_self]
    · rw [kept r old, Function.update_of_ne (apart r old), half.marked r old]
  · rcases List.mem_cons.mp member with rfl | old
    · exact ⟨own, by rw [self, ownHere]⟩
    · rw [kept r (.inr old)]
      obtain ⟨records, here⟩ := half.isDir r old
      exact new.more here
  · obtain ⟨records', there⟩ := half.old n records here
    exact new.more there
  · by_cases top : n = node p
    · subst top
      rw [aboveHere', Option.some.injEq] at here
      subst here
      omega
    · by_cases itself : n = k
      · subst itself
        rw [ownHere, Option.some.injEq] at here
        subst here
        omega
      · rw [new.others n top itself] at here
        exact half.small n records here
  · have taken : idleCount s'.inodeBitmap 1024 + 1 = idleCount s.inodeBitmap 1024 := by
      rw [new.inodes]
      exact idleCount_set (new.volume.directory k own ownHere).number new.free
    omega
  · have paid := new.blocks
    omega
  · rcases split r there with rfl | old
    · rw [self, ownHere, Option.some.injEq] at here
      subst here
      have count := List.count_le_length (a := r) (l := (graph dirs₀).additions r cs)
      have length : ((graph dirs₀).additions r cs).length ≤ cs.length := NamedGraph.additions_length
      omega
    · rw [kept r old] at here
      by_cases top : node r = node p
      · obtain rfl := half.grown.inj r p old half.there top
        rw [aboveHere', Option.some.injEq] at here
        subst here
        omega
      · rw [new.others _ top (apart r old)] at here
        have room := half.entries r old records here
        rw [added, List.count_cons_of_ne (fun same => top (congrArg node same.symm))] at room
        exact room

/-- Where the path goes on there is a directory. -/
def Travels (dirs₀ : Dirs) (p : Place Nat (List UInt8)) (cs : List (List UInt8)) : Prop :=
  ∀ q ∈ (graph dirs₀).passed p cs, q.below = [] → ∃ records, dirs₀ q.base = some records

/-- **`_create_dir` at one component**: the directory that is there, or a new one. -/
theorem Halfway.enterDir (half : Halfway dirs₀ s₀ made node dirs s p (c :: cs))
    (inside : ∀ n c m, (graph dirs₀).look n c = some m → s₀.inodeBitmap m = true)
    (short : c.length < 32) (clean : 0 ∉ c)
    (travels : ((graph dirs₀).enter p c).below = [] →
      ∃ records, dirs₀ ((graph dirs₀).enter p c).base = some records)
    (few : 36 * (2 + cs.length) ≤ 19456) (junk : Junk) :
    ∃ made' node' dirs' s', enterDir junk (node p) c s =
      .ok (node' ((graph dirs₀).enter p c) : Int) s' ∧
      Halfway dirs₀ s₀ made' node' dirs' s' ((graph dirs₀).enter p c) cs ∧
      ∀ q, There s₀.known made' q ↔
        There s₀.known made q ∨ q = (graph dirs₀).enter p c := by
  obtain ⟨records, here⟩ := half.here
  obtain ⟨s₁, looked, same⟩ := half.volume.readDirEntry here (half.small _ records here) clean
  have half₁ := half.congr same
  unfold FileSystem.enterDir
  rw [run_bind looked]
  by_cases there : There s₀.known made ((graph dirs₀).enter p c)
  · rw [half.grown.found p c half.there there]
    refine ⟨made, node, dirs, s₁, rfl, half₁.step there travels, fun q => ⟨.inl, ?_⟩⟩
    rintro (old | rfl)
    · exact old
    · exact there
  · have missing := half.grown.missing p c half.there there
    rw [missing]
    have added : (graph dirs₀).additions p (c :: cs) =
        p :: (graph dirs₀).additions ((graph dirs₀).enter p c) cs := by
      rw [NamedGraph.additions, if_pos (.inr (half.grown.enter_new inside half.there there))]
    have room := half₁.entries p half.there records here
    have inodes := half₁.inodes
    have blocks := half₁.blocks
    rw [added] at room inodes blocks
    rw [List.count_cons_self] at room
    rw [List.length_cons] at inodes blocks
    obtain ⟨k, dirs', s', run, new⟩ :=
      half₁.volume.newDir here short clean missing (by omega) (by omega) (by omega) junk
    refine ⟨_, Function.update node ((graph dirs₀).enter p c) k, dirs', s', ?_,
      half₁.make inside there new few, fun q => ?_⟩
    · rw [Function.update_self]
      exact run
    · unfold There
      rw [List.mem_cons, or_left_comm, or_comm]

/-- **`_create_dir` along a path.** -/
theorem Halfway.createDir {f : List UInt8} (half : Halfway dirs₀ s₀ made node dirs s p (cs ++ [f]))
    (nonempty : cs ≠ [])
    (inside : ∀ n c m, (graph dirs₀).look n c = some m → s₀.inodeBitmap m = true)
    (short : ∀ c ∈ cs, c.length < 32) (clean : Clean cs) (travels : Travels dirs₀ p cs)
    (few : 36 * (2 + cs.length) ≤ 19456) (junk : Junk) (rest : List UInt8) {fuel : Nat}
    (enough : cs.length ≤ fuel) :
    ∃ made' node' dirs' s', createDir junk fuel (node p) (spell cs ++ 0 :: rest) s
        = .ok (node' ((graph dirs₀).arrive p cs) : Int) s' ∧
      Halfway dirs₀ s₀ made' node' dirs' s' ((graph dirs₀).arrive p cs) [f] ∧
      ∀ q, There s₀.known made' q ↔
        There s₀.known made q ∨ q ∈ (graph dirs₀).passed p cs := by
  induction cs generalizing p s fuel made node dirs with
  | nil => exact absurd rfl nonempty
  | cons c cs ih =>
      rw [List.length_cons] at few enough
      obtain ⟨fuel, rfl⟩ : ∃ k, fuel = k + 1 := ⟨fuel - 1, by omega⟩
      obtain ⟨made₁, node₁, dirs₁, s₁, run, half₁, there₁⟩ :=
        half.enterDir inside (short c List.mem_cons_self)
        (clean c List.mem_cons_self).1 (travels _ List.mem_cons_self)
        (show 36 * (2 + (cs ++ [f]).length) ≤ 19456 by
          rw [List.length_append, List.length_singleton]; omega) junk
      unfold FileSystem.createDir cut
      rw [component_spell clean rest]
      show ∃ made' node' dirs' s', (FileSystem.enterDir junk (node p) c >>= _) s = _ ∧ _
      rw [run_bind run]
      cases cs with
      | nil => exact ⟨made₁, node₁, dirs₁, s₁, rfl, half₁,
          fun q => by rw [there₁ q, NamedGraph.passed, NamedGraph.passed, List.mem_singleton]⟩
      | cons d cs =>
          obtain ⟨made₂, node₂, dirs₂, s₂, run₂, half₂, there₂⟩ := ih half₁ (List.cons_ne_nil _ _)
            (fun e member => short e (List.mem_cons_of_mem _ member))
            (fun e member => clean e (List.mem_cons_of_mem _ member))
            (fun q member => travels q (List.mem_cons_of_mem _ member)) (by omega)
            (Nat.le_of_succ_le_succ enough)
          refine ⟨made₂, node₂, dirs₂, s₂, run₂, half₂, fun q => ?_⟩
          rw [there₂ q, there₁ q, or_assoc]
          exact or_congr_right List.mem_cons.symm

/-- One turn of `_create`. -/
theorem createLoop_spell (clean : Clean (c :: cs)) (junk : Junk) (vnode : Option Nat) (fuel : Nat)
    (dir : Int) (rest : List UInt8) :
    createLoop junk vnode (fuel + 1) dir (spell (c :: cs) ++ 0 :: rest) s
      = (readDirEntry dir c >>= fun entry =>
        match entry with
        | some index => if cs.isEmpty then pure (-1)
        else createLoop junk vnode fuel index (spell cs ++ 0 :: rest)
        | none =>
          if cs.isEmpty then createFile junk dir c vnode >>= fun _ => pure 0
          else createBelow junk vnode dir (spell (c :: cs) ++ 0 :: rest) >>= fun _ =>
          pure 0) s := by
  conv_lhs => unfold createLoop cut
  rw [component_spell clean rest]
  cases cs with
  | nil => rfl
  | cons d cs => rfl

/-- **`_create` on a path that leads nowhere**: the directories up to the last component, which are
made where they are missing, and then the file. -/
theorem Halfway.createLoop {n : Nat} {f : List UInt8}
    (half : Halfway dirs₀ s₀ [] Place.base dirs₀ s ⟨n, []⟩ (cs ++ [f]))
    (inside : ∀ n c m, (graph dirs₀).look n c = some m → s₀.inodeBitmap m = true)
    (short : ∀ c ∈ cs ++ [f], c.length < 32) (clean : Clean (cs ++ [f]))
    (travels : Travels dirs₀ ⟨n, []⟩ cs) (absent : walk (graph dirs₀).look n (cs ++ [f]) = none)
    (few : 36 * (2 + cs.length) ≤ 19456) (junk : Junk) (vnode : Option Nat) (rest : List UInt8)
    {fuel : Nat} (enough : cs.length < fuel) :
    ∃ made node dirs s₁, Halfway dirs₀ s₀ made node dirs s₁ ((graph dirs₀).arrive ⟨n, []⟩ cs) [f] ∧
      (∀ q, There s₀.known made q ↔ There s₀.known [] q ∨ q ∈ (graph dirs₀).passed ⟨n, []⟩ cs) ∧
      createLoop junk vnode fuel n (spell (cs ++ [f]) ++ 0 :: rest) s
        = (createFile junk (node ((graph dirs₀).arrive ⟨n, []⟩ cs)) f vnode >>= fun _ =>
          pure 0) s₁ := by
  induction cs generalizing n s fuel with
  | nil =>
      obtain ⟨fuel, rfl⟩ : ∃ k, fuel = k + 1 := ⟨fuel - 1, by omega⟩
      obtain ⟨records, here⟩ := half.here
      obtain ⟨s₁, looked, same⟩ := half.volume.readDirEntry here (half.small _ records here)
        (clean f List.mem_cons_self).1
      have missing : (graph dirs₀).look n f = none := by
        cases entry : (graph dirs₀).look n f with
        | none => rfl
        | some m =>
            rw [List.nil_append, walk, entry] at absent
            cases absent
      refine ⟨[], Place.base, dirs₀, s₁, half.congr same, fun q => by simp [NamedGraph.passed], ?_⟩
      rw [List.nil_append, createLoop_spell clean, run_bind looked, missing]
      rfl
  | cons c cs ih =>
      rw [List.length_cons] at few enough
      obtain ⟨fuel, rfl⟩ : ∃ k, fuel = k + 1 := ⟨fuel - 1, by omega⟩
      obtain ⟨records, here⟩ := half.here
      obtain ⟨s₁, looked, same⟩ := half.volume.readDirEntry here (half.small _ records here)
        (clean c List.mem_cons_self).1
      have more : (cs ++ [f]).isEmpty = false := by cases cs <;> rfl
      have clean' : Clean (c :: (cs ++ [f])) := clean
      rw [List.cons_append, createLoop_spell clean', run_bind looked, more]
      cases entry : (graph dirs₀).look n c with
      | some m =>
          have enters : (graph dirs₀).enter ⟨n, []⟩ c = ⟨m, []⟩ := by
            simp only [NamedGraph.enter, entry]
          have there : There s₀.known [] ((graph dirs₀).enter ⟨n, []⟩ c) := by
            rw [enters]
            exact .inl ⟨rfl, inside n c m entry⟩
          have half₁ := (half.congr same).step there (travels _ List.mem_cons_self)
          rw [enters] at half₁
          rw [List.cons_append, walk, entry] at absent
          obtain ⟨made, node, dirs, s₂, half₂, there₂, run⟩ :=
            ih half₁ (fun e member => short e (List.mem_cons_of_mem _ member))
            (fun e member => clean e (List.mem_cons_of_mem _ member))
            (fun q member => travels q (List.mem_cons_of_mem _ (by rw [enters]; exact member)))
            absent (by omega)
            (Nat.lt_of_succ_lt_succ enough)
          have arrives : (graph dirs₀).arrive ⟨n, []⟩ (c :: cs) = (graph dirs₀).arrive ⟨m, []⟩ cs :=
            congrArg (fun q => (graph dirs₀).arrive q cs) enters
          refine ⟨made, node, dirs, s₂, arrives ▸ half₂, fun q => ?_, ?_⟩
          · rw [there₂ q, NamedGraph.passed, enters, List.mem_cons]
            constructor
            · rintro (old | later)
              · exact .inl old
              · exact .inr (.inr later)
            · rintro (old | rfl | later)
              · exact .inl old
              · exact .inl (.inl ⟨rfl, inside n c m entry⟩)
              · exact .inr later
          · rw [arrives, ← run]
            rfl
      | none =>
          obtain ⟨made, node, dirs, s₂, run, half₂, there₂⟩ :=
            (half.congr same).createDir (List.cons_ne_nil c cs) inside
            (fun e member => short e (List.mem_append_left _ member)) (Clean.append.mp clean).1
            travels few junk []
            (show (c :: cs).length ≤ (spell (c :: (cs ++ [f])) ++ 0 :: rest).length by
              have := spell_length (c :: (cs ++ [f]))
              simp only [List.length_append, List.length_cons] at this ⊢
              omega)
          refine ⟨made, node, dirs, s₂, half₂, there₂, ?_⟩
          obtain ⟨before, behind⟩ : dirPart (spell (c :: (cs ++ [f])) ++ 0 :: rest) =
            spell (c :: cs) ∧
              filePart (spell (c :: (cs ++ [f])) ++ 0 :: rest) = f :=
                parts_spell clean (List.cons_ne_nil c cs) rest
          show (createBelow junk vnode n _ >>= _) s₁ = _
          unfold createBelow
          rw [if_pos (List.mem_append_right _ List.mem_cons_self), before, behind]
          exact run_bind_congr (run_bind run)

end Making

/-! ### The new file -/

/-- **What creation along a path is for**: the path leads to a new empty file, the directories that
were missing on the way are there with their two entries, and what could be reached in the
directories still can. -/
structure Created (dirs : Dirs) (s s' : FmState) (n : Nat) (walked : List UInt8) : Prop where
  file : ∃ k : Nat, s.inodeBitmap k = false ∧ Leads s' n walked k ∧
    (diskInode s'.disk k).type = plainType ∧
    (diskInode s'.disk k).size = 0
  between : ∀ above c below, names (untilNul walked) = above ++ c :: below → below ≠ [] →
    (∀ k, ¬ Comes s n (above ++ [c]) k) → ∃ m k : Nat, Comes s' n above m ∧
    Comes s' n (above ++ [c]) k ∧
      (diskInode s'.disk k).type = dirType ∧ Comes s' k [dot] k ∧
      (c ≠ dot → c ≠ dotDot → Comes s' k [dotDot] m)
  kept : ∀ d records, dirs d = some records → ∀ cs k, Clean cs → Comes s d cs k →
    (∀ above below m, cs = above ++ below → below ≠ [] → Comes s d above m →
      (diskInode s.disk m).type = dirType) →
    Comes s' d cs k

/-- The place the path arrives at is missing, and the path has not come through it before. -/
def Fresh (dirs : Dirs) (n : Nat) (cs : List (List UInt8)) : Prop :=
  ((graph dirs).arrive ⟨n, []⟩ cs).below ≠ [] ∧
    (graph dirs).arrive ⟨n, []⟩ cs ∉ (graph dirs).passed ⟨n, []⟩ cs.dropLast

section File

variable {dirs₀ dirs dirs' : Dirs} {s₀ s s' : FmState} {made : List (Place Nat (List UInt8))}
  {node : Place Nat (List UInt8) → Nat} {p : Place Nat (List UInt8)} {n k : Nat} {f : List UInt8}
  {cs : List (List UInt8)}

/-- What was found is still found. -/
theorem Halfway.look_mono (half : Halfway dirs₀ s₀ made node dirs s p cs) (volume : Volume dirs₀ s₀)
    (m : Nat) (c : List UInt8) (l : Nat) (entry : (graph dirs₀).look m c = some l) :
    (graph dirs).look m c = some l := by
  obtain ⟨records, here⟩ := look_isDir entry
  have enters : (graph dirs₀).enter ⟨m, []⟩ c = ⟨l, []⟩ := by simp only [NamedGraph.enter, entry]
  have found := half.grown.found ⟨m, []⟩ c (.inl ⟨rfl, volume.used m records here⟩) (by
    rw [enters]
    exact .inl ⟨rfl, (volume.linked entry).used⟩)
  rwa [enters, half.grown.base, half.grown.base] at found

theorem MadeFile.mono (new : MadeFile dirs s n f k dirs' s') (m : Nat) (c : List UInt8) (l : Nat)
    (entry : (graph dirs).look m c = some l) : (graph dirs').look m c = some l := by
  rw [new.look]
  split
  · next here =>
    rw [here.1, here.2] at entry
    rw [entry]
    rfl
  · exact entry

/-- A path that can be followed on the disk before can be followed in the graph. -/
theorem Volume.through (volume : Volume dirs s)
    (small : ∀ n records, dirs n = some records → 36 * records.length ≤ 19456) {d : Nat}
    {records : List Record} (here : dirs d = some records) (clean : Clean cs)
    (typed : ∀ above below m, cs = above ++ below → below ≠ [] → Comes s d above m →
      (diskInode s.disk m).type = dirType) :
    Through dirs d cs := by
  rintro above below m rfl more leads
  have type :=
    typed above below m rfl more
      ((volume.comes_iff small (Clean.append.mp clean).1 (through_of_walk leads)).mpr
    ⟨m, leads, rfl⟩)
  rcases List.eq_nil_or_concat above with rfl | ⟨above, c, rfl⟩
  · obtain rfl := Option.some.inj leads
    exact ⟨records, here⟩
  · rw [List.concat_eq_append, walk_append] at leads
    obtain ⟨l, -, entry⟩ := Option.bind_eq_some_iff.mp leads
    obtain ⟨_, entry, rest⟩ := Option.bind_eq_some_iff.mp entry
    cases rest
    exact (volume.linked entry).isDir type

theorem MadeFile.more {m : Nat} {records : List Record} (new : MadeFile dirs s n f k dirs' s')
    (here : dirs m = some records) :
    ∃ records', dirs' m = some records' := by
  by_cases top : m = n
  · subst top
    obtain ⟨records', there, -⟩ := new.above records here
    exact ⟨records', there⟩
  · exact ⟨records, (new.others m top).trans here⟩

/-- The directories stay short enough to be read. -/
theorem Halfway.small_file (half : Halfway dirs₀ s₀ made node dirs s p [f])
    (new : MadeFile dirs s (node p) f k dirs' s') (m : Nat) (records : List Record)
    (here : dirs' m = some records) :
    36 * records.length ≤ 19456 := by
  by_cases top : m = node p
  · subst top
    obtain ⟨above, aboveHere⟩ := half.here
    obtain ⟨above', aboveHere', length⟩ := new.above above aboveHere
    have room := half.entries p half.there above aboveHere
    rw [NamedGraph.additions, if_pos (.inl rfl), List.count_cons_self] at room
    rw [aboveHere', Option.some.injEq] at here
    subst here
    omega
  · rw [new.others m top] at here
    exact half.small m records here

/-- The end of the path is fresh when it is not there yet. -/
theorem Halfway.fresh_iff
    (half : Halfway dirs₀ s₀ made node dirs s ((graph dirs₀).arrive ⟨n, []⟩ cs) [f])
    (volume : Volume dirs₀ s₀)
    (there : ∀ q, There s₀.known made q ↔ There s₀.known [] q ∨
      q ∈ (graph dirs₀).passed ⟨n, []⟩ cs) :
    Fresh dirs₀ n (cs ++ [f]) ↔
      ¬ There s₀.known made ((graph dirs₀).enter ((graph dirs₀).arrive ⟨n, []⟩ cs) f) := by
  unfold Fresh
  rw [List.dropLast_concat, NamedGraph.arrive_append]
  show ((graph dirs₀).enter ((graph dirs₀).arrive ⟨n, []⟩ cs) f).below ≠ [] ∧ _ ↔ _
  constructor
  · rintro ⟨deep, new⟩ old
    rcases (there _).mp old with (⟨top, -⟩ | none) | passed
    · exact deep top
    · exact absurd none List.not_mem_nil
    · exact new passed
  · intro away
    refine ⟨?_, fun passed => away ((there _).mpr (.inr passed))⟩
    rw [half.grown.enter_new volume.inside half.there away]
    exact List.cons_ne_nil _ _

/-- **The path leads to the new file exactly if its end is fresh**; what was there and what was made
on the way is as it should be then. -/
theorem Halfway.created_iff {records : List Record} {rest walked : List UInt8}
    (half : Halfway dirs₀ s₀ made node dirs s ((graph dirs₀).arrive ⟨n, []⟩ cs) [f])
    (volume : Volume dirs₀ s₀)
    (small : ∀ m records, dirs₀ m = some records → 36 * records.length ≤ 19456)
    (tidy : (graph dirs₀).Tidy fun m => ∃ records, dirs₀ m = some records)
    (here : dirs₀ n = some records)
    (there : ∀ q, There s₀.known made q ↔ There s₀.known [] q ∨ q ∈ (graph dirs₀).passed ⟨n, []⟩ cs)
    (travels : Travels dirs₀ ⟨n, []⟩ cs) (clean : Clean (cs ++ [f]))
    (new : MadeFile dirs s (node ((graph dirs₀).arrive ⟨n, []⟩ cs)) f k dirs' s')
    (components : names (untilNul walked) = cs ++ [f])
    (spelled : walked = spell (cs ++ [f]) ++ 0 :: rest) :
    Created dirs₀ s₀ s' n walked ↔ Fresh dirs₀ n (cs ++ [f]) := by
  have small' := half.small_file new
  have startThere : There s₀.known made ⟨n, []⟩ := .inl ⟨rfl, volume.used n records here⟩
  have old := half.look_mono volume
  have free : s₀.inodeBitmap k = false := by
    cases used : s₀.inodeBitmap k with
    | false => rfl
    | true =>
        have marked := half.marked ⟨k, []⟩ (.inl ⟨rfl, used⟩)
        rw [half.grown.base, new.free] at marked
        cases marked
  -- the part of the path that has been made
  have onWay : ∀ above below, cs = above ++ below →
    There s₀.known made ((graph dirs₀).arrive ⟨n, []⟩ above) ∧
      walk (graph dirs').look n above = some (node ((graph dirs₀).arrive ⟨n, []⟩ above)) := by
    rintro above below rfl
    have all : ∀ q ∈ (graph dirs₀).passed ⟨n, []⟩ above, There s₀.known made q := fun q member =>
      (there q).mpr (.inr (by rw [NamedGraph.passed_append]; exact List.mem_append_left _ member))
    have leads := half.grown.walk startThere all
    rw [half.grown.base] at leads
    refine ⟨?_, walk_mono new.mono leads⟩
    by_cases empty : above = []
    · subst empty
      exact startThere
    · exact all _ (NamedGraph.arrive_mem_passed empty)
  have isDir : ∀ q ∈ (graph dirs₀).passed ⟨n, []⟩ cs, ∃ records, dirs' (node q) = some records := by
    intro q member
    have known : ∃ records, dirs (node q) = some records := by
      rcases (there q).mpr (.inr member) with ⟨top, -⟩ | made
      · obtain ⟨records, here⟩ := travels q member top
        obtain ⟨m, below⟩ := q
        obtain rfl : below = [] := top
        rw [half.grown.base]
        exact half.old m records here
      · exact half.isDir q made
    obtain ⟨records, here⟩ := known
    exact new.more here
  have last : walk (graph dirs').look n (cs ++ [f])
      = ((graph dirs).look (node ((graph dirs₀).arrive ⟨n, []⟩ cs)) f).or (some k) := by
    rw [walk_append, (onWay cs [] (List.append_nil _).symm).2, Option.bind_some, walk, new.look,
      if_pos ⟨rfl, rfl⟩]
    exact Option.bind_fun_some _
  have nonempty : cs ++ [f] ≠ [] := List.append_ne_nil_of_right_ne_nil _ (List.cons_ne_nil _ _)
  rw [half.fresh_iff volume there]
  constructor
  · -- else the path leads to an inode that was in use, or to a directory it made itself
    intro created arrives
    obtain ⟨k', unused, leads, plain, -⟩ := created.file
    rw [half.grown.found _ f half.there arrives, Option.some_or] at last
    rw [spelled, new.volume.leads_iff small' clean nonempty (through_of_walk last)] at leads
    obtain ⟨m, there', same⟩ := leads
    rw [last, Option.some.injEq] at there'
    obtain rfl : k' = m := Int.ofNat_inj.mp same
    rcases arrives with ⟨top, known⟩ | member
    · generalize (graph dirs₀).enter ((graph dirs₀).arrive ⟨n, []⟩ cs) f = q at top known there'
      obtain ⟨m, below⟩ := q
      obtain rfl : below = [] := top
      rw [half.grown.base] at there'
      rw [← there', known] at unused
      cases unused
    · obtain ⟨records, here⟩ := half.isDir _ member
      obtain ⟨records', here'⟩ := new.more here
      have type := new.volume.type _ _ here'
      rw [there', plain] at type
      exact absurd type (by decide)
  · intro away
    rw [half.grown.missing _ f half.there away, Option.none_or] at last
    refine {
      file := ⟨k, free, ?_, new.type, new.size⟩
      between := fun above c below split more _ => ?_
      kept := fun d records here cs' k' clean' comes typed => ?_ }
    · rw [spelled, new.volume.leads_iff small' clean nonempty (through_of_walk last)]
      exact ⟨k, last, rfl⟩
    · obtain ⟨below, g, rfl⟩ := (List.eq_nil_or_concat below).resolve_left more
      have place : cs = above ++ c :: below := by
        rw [components,
          show above ++ c :: below.concat g = (above ++ c :: below) ++ [g] by simp] at split
        simpa only [List.dropLast_concat] using congrArg List.dropLast split
      have place' : cs = (above ++ [c]) ++ below := by simp [place]
      obtain ⟨thereAbove, leadsAbove⟩ := onWay above _ place
      obtain ⟨thereHere, leadsHere⟩ := onWay (above ++ [c]) below place'
      rw [NamedGraph.arrive_append] at thereHere leadsHere
      change There s₀.known made
        ((graph dirs₀).enter ((graph dirs₀).arrive ⟨n, []⟩ above) c) at thereHere
      change walk _ n _ =
        some (node ((graph dirs₀).enter ((graph dirs₀).arrive ⟨n, []⟩ above) c)) at leadsHere
      have member : (graph dirs₀).enter ((graph dirs₀).arrive ⟨n, []⟩ above) c ∈
          (graph dirs₀).passed ⟨n, []⟩ cs := by
        rw [place, NamedGraph.passed_append]
        exact List.mem_append_right _ List.mem_cons_self
      obtain ⟨self, up⟩ := half.grown.dots tidy old (show dot ≠ dotDot by decide) thereAbove
        thereHere (travels _ member)
      have cleanCs : Clean cs := (Clean.append.mp clean).1
      have step : ∀ {m l : Nat} {d : List UInt8}, Clean [d] → (graph dirs').look m d = some l →
          Comes s' m [d] l := by
        intro m l d clean entry
        have leads : walk (graph dirs').look m [d] = some l := by rw [walk, entry]; rfl
        exact (new.volume.comes_iff small' clean (through_of_walk leads)).mpr ⟨l, leads, rfl⟩
      refine ⟨_, _, (new.volume.comes_iff small' ?_ (through_of_walk leadsAbove)).mpr
        ⟨_, leadsAbove, rfl⟩,
        (new.volume.comes_iff small' ?_ (through_of_walk leadsHere)).mpr ⟨_, leadsHere, rfl⟩, ?_,
        step (by simp [Clean, dot]) (new.mono _ _ _ self),
        fun notSelf notUp => step (by simp [Clean, dotDot]) (new.mono _ _ _ (up notSelf notUp))⟩
      · exact (Clean.append.mp (place ▸ cleanCs)).1
      · exact (Clean.append.mp (place' ▸ cleanCs)).1
      · obtain ⟨records, here⟩ := isDir _ member
        exact new.volume.type _ _ here
    · have before := volume.through small here clean' typed
      obtain ⟨m, leads, rfl⟩ := (volume.comes_iff small clean' before).mp comes
      have after := walk_mono new.mono (walk_mono old leads)
      exact (new.volume.comes_iff small' clean' (through_of_walk after)).mpr ⟨m, after, rfl⟩

end File

/-! ### The requests -/

/-- **A well-formed directory tree.** -/
structure WellFormed (dirs : Dirs) (s : FmState) : Prop where
  volume : Volume dirs s
  small : ∀ n records, dirs n = some records → 36 * records.length ≤ 19456
  tidy : (graph dirs).Tidy fun n => ∃ records, dirs n = some records

/-- CREATE, or OPEN with the flag to create and with a vnode, an open-file entry and a descriptor
left for it. -/
def Asks (s : FmState) (src : Nat) (path : List UInt8) (request : Request) : Prop :=
  request = .create path ∨ request = .open path 1 ∧ (∃ v rest, s.freeVnodeList = v :: rest) ∧
    (∃ e rest, s.freeOpenFileList = e :: rest) ∧
    ∃ fd, firstIdle (fun i => ((s.pcbs src).fdTable i).isSome) 100 100 (s.pcbs src).minFd = some fd

section Requests

variable {dirs : Dirs} {s s' : FmState} {n src : Nat} {records : List Record}
  {path walked : List UInt8} {cs : List (List UInt8)}

/-- The start of the way. -/
theorem WellFormed.halfway (tree : WellFormed dirs s) (here : dirs n = some records)
    (supplied : Supplied dirs n cs s) (same : s'.ground = s.ground) :
    Halfway dirs s [] Place.base dirs s' ⟨n, []⟩ cs := by
  have start : Halfway dirs s [] Place.base dirs s ⟨n, []⟩ cs := {
    volume := tree.volume
    grown := NamedGraph.Grown.start tree.volume.inside
    there := .inl ⟨rfl, tree.volume.used n records here⟩
    here := ⟨records, here⟩
    marked := fun q there => there.elim (fun top => top.2) fun none => absurd none List.not_mem_nil
    isDir := fun q none => absurd none List.not_mem_nil
    old := fun m records here => ⟨records, here⟩
    small := tree.small
    inodes := supplied.inodes
    blocks := supplied.blocks
    entries := fun q there records here => by
      rcases there with ⟨top, -⟩ | none
      · obtain ⟨m, below⟩ := q
        obtain rfl : below = [] := top
        exact supplied.entries m records here
      · exact absurd none List.not_mem_nil }
  exact start.congr same

theorem walkStart_length (currentDir : Int) (path : List UInt8) :
    (walkStart currentDir path).2.length ≤ path.length := by
  unfold walkStart
  split
  · rw [List.length_tail]
    exact Nat.sub_le _ _
  · exact le_rfl

/-- The string of a path, and its components. -/
theorem walked_spelled (size : path.length ≤ 256) (nul : 0 ∈ path) {currentDir dir : Int}
    (start : walkStart currentDir path = (dir, walked)) :
    ∃ cs f rest, names (untilNul walked) = cs ++ [f] ∧ walked = spell (cs ++ [f]) ++ 0 :: rest ∧
    Clean (cs ++ [f]) ∧
      cs.length < 256 := by
  obtain ⟨text, rest, rfl, cleanText⟩ := List.eq_append_cons_of_mem nul
  obtain ⟨dir', text', clean', starts⟩ := walkStart_text cleanText currentDir
  obtain ⟨-, rfl⟩ : dir' = dir ∧ text' ++ 0 :: rest = walked :=
    Prod.mk.inj ((starts rest).symm.trans start)
  rw [untilNul_text clean']
  have clean := clean_names clean'
  have spelled := spell_names text'
  have length := walkStart_length currentDir (text ++ 0 :: rest)
  rw [starts rest] at length
  obtain ⟨c, cs, cons⟩ := names_cons text'
  obtain ⟨cs, f, components⟩ :=
    (List.eq_nil_or_concat (names text')).resolve_left (by rw [cons]; exact List.cons_ne_nil _ _)
  rw [List.concat_eq_append] at components
  have count := spell_length (cs ++ [f])
  rw [components] at clean spelled
  rw [spelled] at count
  simp only [List.length_append, List.length_cons, List.length_nil] at length count size
  exact ⟨cs, f, rest, components, by rw [spelled], clean, by omega⟩

/-- A path that leaves no directory does not end in one that is not there. -/
theorem through_of_travels {f : List UInt8} (here : dirs n = some records)
    (travels : Travels dirs ⟨n, []⟩ cs) :
    Through dirs n (cs ++ [f]) := by
  rintro above below m split more leads
  by_cases start : above = []
  · subst start
    obtain rfl := Option.some.inj leads
    exact ⟨records, here⟩
  · obtain ⟨below, g, rfl⟩ := (List.eq_nil_or_concat below).resolve_left more
    have place : cs = above ++ below := by
      rw [show above ++ below.concat g = (above ++ below) ++ [g] by simp] at split
      simpa only [List.dropLast_concat] using congrArg List.dropLast split
    have member := NamedGraph.arrive_mem_passed (g := graph dirs) (p := ⟨n, []⟩) start
    have arrives := NamedGraph.arrive_of_walk leads
    refine (congrArg (fun q : Place Nat (List UInt8) =>
      ∃ records, dirs q.base = some records) arrives).mp
      (travels _ ?_ (by rw [arrives]))
    rw [place, NamedGraph.passed_append]
    exact List.mem_append_left _ member

/-- What does not resolve cannot be followed in the graph. -/
theorem WellFormed.missing {f : List UInt8} {rest : List UInt8} (tree : WellFormed dirs s)
    (here : dirs n = some records) (clean : Clean (cs ++ [f]))
    (spelled : walked = spell (cs ++ [f]) ++ 0 :: rest) (absent : ∀ k, ¬ Leads s n walked k)
    (travels : Travels dirs ⟨n, []⟩ cs) : walk (graph dirs).look n (cs ++ [f]) = none ∧
      ∃ s₁, resolve walked.length n walked s = .ok none s₁ ∧ s₁.ground = s.ground := by
  have nonempty : cs ++ [f] ≠ [] := List.append_ne_nil_of_right_ne_nil _ (List.cons_ne_nil _ _)
  have through := through_of_travels (f := f) here travels
  have none : walk (graph dirs).look n (cs ++ [f]) = none := by
    cases leads : walk (graph dirs).look n (cs ++ [f]) with
    | none => rfl
    | some m =>
        have comes := (tree.volume.leads_iff tree.small clean nonempty through rest).mpr
          ⟨m, leads, rfl⟩
        exact absurd (spelled ▸ comes) (absent m)
  refine ⟨none, ?_⟩
  have length := spell_length (cs ++ [f])
  have enough : (cs ++ [f]).length ≤ walked.length := by
    simp only [spelled, List.length_append, List.length_cons] at length ⊢
    omega
  obtain ⟨s₁, run, same⟩ := tree.volume.resolve tree.small clean nonempty through rest enough
  rw [none, ← spelled] at run
  exact ⟨s₁, run, same⟩

/-- **`_create` on a path that does not resolve.** -/
theorem WellFormed.create {f : List UInt8} {rest : List UInt8} (tree : WellFormed dirs s)
    (here : dirs n = some records) {currentDir : Int}
    (start : walkStart currentDir path = ((n : Int), walked))
    (components : names (untilNul walked) = cs ++ [f])
    (spelled : walked = spell (cs ++ [f]) ++ 0 :: rest) (clean : Clean (cs ++ [f]))
    (few : cs.length < 256) (short : ∀ c ∈ cs ++ [f], c.length ≤ 31)
    (absent : walk (graph dirs).look n (cs ++ [f]) = none) (travels : Travels dirs ⟨n, []⟩ cs)
    (supplied : Supplied dirs n (cs ++ [f]) s) (same : s'.ground = s.ground) (junk : Junk)
    (vnode : Option Nat) :
    ∃ s₂, create junk currentDir path vnode s' = .ok 0 s₂ ∧
      ∀ s₃, s₃.ground = s₂.ground → (Created dirs s s₃ n walked ↔ Fresh dirs n (cs ++ [f])) := by
  have count := spell_length (cs ++ [f])
  rw [List.length_append, List.length_singleton] at count
  obtain ⟨made, node, dirs₁, s₁, half, there, run⟩ :=
    (tree.halfway here supplied same).createLoop tree.volume.inside
    (fun c member => Nat.lt_succ_of_le (short c member)) clean travels absent
    (by omega) junk vnode rest
    (show cs.length < walked.length by rw [spelled, List.length_append, List.length_cons]; omega)
  obtain ⟨above, aboveHere⟩ := half.here
  have room := half.entries _ half.there above aboveHere
  have inodes := half.inodes
  have blocks := half.blocks
  rw [NamedGraph.additions, if_pos (.inl rfl)] at room inodes blocks
  rw [List.count_cons_self] at room
  rw [List.length_cons] at inodes blocks
  have last : f ∈ cs ++ [f] := List.mem_append_right _ List.mem_cons_self
  obtain ⟨k, dirs₂, s₂, file, new⟩ :=
    half.volume.createFile aboveHere (Nat.lt_succ_of_le (short f last)) (clean f last).1
    (by omega) (by omega) (by omega) junk vnode
  refine ⟨s₂, ?_, fun s₃ ground => ?_⟩
  · unfold FileSystem.create
    rw [start]
    show FileSystem.createLoop junk vnode walked.length n walked s' = _
    rw [← spelled] at run
    rw [run, run_bind file]
    rfl
  · exact half.created_iff tree.volume tree.small tree.tidy here there travels clean
      (new.congr ground) components spelled

theorem handle_create {junk : Junk} {ret : Int} (process : src < 50)
    (run : create junk (s.pcbs src).currentDir path none s = .ok ret s') :
    handle junk src (.create path) s = .ok (some { dest := src, ret := 0 }) s' := by
  have created : fmCreate junk src path s = .ok { dest := src, ret := 0 } s' := by
    unfold fmCreate
    rw [run_bind (fetchPcb_ok process), run_bind run]
    rfl
  show EStateM.map some (fmCreate junk src path) s = _
  unfold EStateM.map
  rw [created]

/-- OPEN on a path that leads nowhere. -/
theorem handle_open {junk : Junk} {s₁ s₂ : FmState} {dir ret : Int} {v e fd : Nat}
    {vnodes entries : List Nat} (process : src < 50)
    (start : walkStart (s.pcbs src).currentDir path = (dir, walked))
    (some : walked.head? ≠ Option.some 0)
    (missing : resolve walked.length dir walked s = .ok none s₁)
    (free : s.freeVnodeList = v :: vnodes) (entry : s.freeOpenFileList = e :: entries)
    (idle : firstIdle (fun i => ((s.pcbs src).fdTable i).isSome) 100 100 (s.pcbs src).minFd =
      Option.some fd)
    (run : create junk (s.pcbs src).currentDir path (Option.some v) (s₁.takeVnode v vnodes) =
      .ok ret s₂) :
    ∃ reply s₃, handle junk src (.open path 1) s = .ok (Option.some reply) s₃ ∧
    s₃.ground = s₂.ground := by
  have core := resolve_core _ _ _ missing
  have same : s₁.freeVnodeList = s.freeVnodeList ∧ s₁.freeOpenFileList = s.freeOpenFileList ∧
      s₁.pcbs = s.pcbs := by
    refine ⟨?_, ?_, ?_⟩
    · show s₁.core.freeVnodeList = s.core.freeVnodeList
      rw [core]
    · show s₁.core.freeOpenFileList = s.core.freeOpenFileList
      rw [core]
    · show s₁.core.pcbs = s.core.pcbs
      rw [core]
  obtain ⟨vnodesSame, filesSame, pcbsSame⟩ := same
  obtain ⟨files, pcbs⟩ := create_tables run
  have files : s₂.freeOpenFileList = e :: entries := files.trans (filesSame.trans entry)
  have pcbs : s₂.pcbs = s.pcbs := pcbs.trans pcbsSame
  obtain ⟨s₃, attached, ground⟩ : ∃ s₃, attach src v s₂ = .ok { dest := src, ret := fd } s₃ ∧
      s₃.ground = s₂.ground := ⟨_, attach_ok v files (pcbs ▸ idle), rfl⟩
  have look : readInode dir walked s = .ok none s₁ := by
    unfold readInode
    rw [if_neg some, run_bind missing]
    rfl
  have vnode : vnodeFor junk (s.pcbs src) path none s₁ = .ok v s₂ := by
    unfold vnodeFor
    show (getFreeVnode >>= _) s₁ = _
    rw [run_bind (getFreeVnode_ok (vnodesSame.trans free)), run_bind run]
    rfl
  refine ⟨{ dest := src, ret := fd }, s₃, ?_, ground⟩
  have opened : fmOpen junk src path 1 s = .ok { dest := src, ret := fd } s₃ := by
    unfold fmOpen
    rw [run_bind (fetchPcb_ok process), start]
    show (readInode dir walked >>= _) s = _
    rw [run_bind look, if_neg (by simp), run_bind vnode, attached]
  show EStateM.map Option.some (fmOpen junk src path 1) s = _
  unfold EStateM.map
  rw [opened]

/-- **A request to create a file**, by a path that does not resolve: its components are names, it
goes on in directories where it comes to what is there, and there is supply for it. -/
structure CreateRequest (dirs : Dirs) (s : FmState) (src n : Nat) (path walked : List UInt8)
    (request : Request) : Prop where
  tree : WellFormed dirs s
  process : src < 50
  size : path.length = 256
  nul : 0 ∈ path
  start : walkStart (s.pcbs src).currentDir path = ((n : Int), walked)
  here : ∃ records, dirs n = some records
  some : walked.head? ≠ Option.some 0
  short : ∀ c ∈ names (untilNul walked), c.length ≤ 31
  absent : ∀ k, ¬ Resolves s src path k
  travels : Travels dirs ⟨n, []⟩ (names (untilNul walked)).dropLast
  supplied : Supplied dirs n (names (untilNul walked)) s
  asks : Asks s src path request

/-- The request is served, and what `_create` leaves on the disk depends on the end of the path. -/
theorem CreateRequest.ends {request : Request}
    (wanted : CreateRequest dirs s src n path walked request) (junk : Junk) :
    ∃ reply s', handle junk src request s = .ok reply s' ∧
      (Created dirs s s' n walked ↔ Fresh dirs n (names (untilNul walked))) := by
  obtain ⟨tree, process, size, nul, start, ⟨records, here⟩, some, short, absent, travels, supplied,
    asks⟩ := wanted
  obtain ⟨cs, f, rest, components, spelled, clean, few⟩ := walked_spelled size.le nul start
  rw [components] at short travels supplied ⊢
  rw [List.dropLast_concat] at travels
  obtain ⟨missing, s₁, walk, ground₁⟩ := tree.missing here clean spelled
    (fun k ⟨s₁, leads⟩ => absent k ⟨n, walked, s₁, start, some, leads⟩) travels
  rcases asks with rfl | ⟨rfl, ⟨v, vnodes, free⟩, ⟨e, entries, entry⟩, fd, idle⟩
  · obtain ⟨s₂, run, created⟩ :=
      tree.create here start components spelled clean few short missing travels supplied rfl
      junk none
    exact ⟨_, s₂, handle_create process run, created s₂ rfl⟩
  · obtain ⟨s₂, run, created⟩ :=
      tree.create here start components spelled clean few short missing travels supplied
      (show (s₁.takeVnode v vnodes).ground = s.ground from ground₁) junk (Option.some v)
    obtain ⟨reply, s₃, run, ground⟩ := handle_open process start some walk free entry idle run
    exact ⟨_, s₃, run, created s₃ ground⟩

end Requests

/-! ### The tree after boot -/

/-- The root alone. -/
def rootGraph : NamedGraph Nat (List UInt8) where
  look n name := if n = 0 ∧ (name = dot ∨ name = dotDot) then some 0 else none
  self := dot
  up := dotDot

section Boot

variable {s : FmState} {junk : Junk}

/-- A disk without directories. -/
theorem zero_volume : Volume (fun _ => none) zeroState where
  directory _ _ here := by cases here
  type _ _ here := by cases here
  used _ _ here := by cases here
  entry _ _ here := by cases here
  apart _ _ _ _ here := by cases here
  cursor := by decide
  buffer := empty_free

theorem zero_claim : getFreeDiskInode zeroState = .ok 0 (zeroState.claim 0) := rfl

/-- The root is made and gets its two entries. -/
theorem boot_volume (start : Boot s) : ∃ self up : Record, self.name = dot ∧
    self.index = (0 : Nat) ∧ up.name = dotDot ∧
    up.index = (0 : Nat) ∧ Volume (Function.update (fun _ => none) 0 (some [self, up])) s ∧
    s.inodeBitmap = Function.update (fun _ => false) 0 true ∧
    4095 ≤ idleCount s.blockBitmap 4096 := by
  obtain ⟨junk, run⟩ := start
  have costs : blockCost 36 = 1 ∧ blockCost 72 = 1 ∧ blockCost 0 = 0 := by decide
  have blocks : idleCount zeroState.blockBitmap 4096 = 4096 := idleCount_clear
  obtain ⟨_, _, taken, run⟩ := bind_eq_ok.mp run
  rw [zero_claim] at taken
  cases taken
  obtain ⟨_, _, wrote, run⟩ := bind_eq_ok.mp run
  change writeInodeToDisk (0 : Nat) _ _ = _ at wrote
  rw [writeInodeToDisk_ok (by omega)] at wrote
  cases wrote
  have volume₁ := (zero_volume.claim (show 0 < 1024 by omega)).put (by decide) (by omega)
    (Function.update_self _ _ _)
    { size := 0, type := dirType, link := 1, devId := junk.devId 0, index := junk.index 0 } rfl rfl
  obtain ⟨self, s₂, run₂, selfName, selfIndex, volume₂, spared₂, paid₂⟩ :=
    volume₁.add (Function.update_self _ _ _)
    (show dot.length < 32 by decide) (by decide) (volume₁.linked_dir (Function.update_self _ _ _))
    (show blockCost 36 ≤ idleCount zeroState.blockBitmap 4096 + _ by omega) junk
  change idleCount s₂.blockBitmap 4096 + blockCost 36 = idleCount zeroState.blockBitmap 4096 +
    blockCost 0 at paid₂
  obtain ⟨_, _, entered, run⟩ := bind_eq_ok.mp run
  cases run₂.symm.trans entered
  obtain ⟨up, s₃, run₃, upName, upIndex, volume₃, spared₃, paid₃⟩ :=
    volume₂.add (Function.update_self _ _ _)
    (show dotDot.length < 32 by decide) (by decide)
    (volume₂.linked_dir (Function.update_self _ _ _))
    (show blockCost 72 ≤ idleCount s₂.blockBitmap 4096 + blockCost 36 by omega) junk
  change idleCount s₃.blockBitmap 4096 + blockCost 72 = idleCount s₂.blockBitmap 4096 +
    blockCost 36 at paid₃
  obtain ⟨_, _, entered, run⟩ := bind_eq_ok.mp run
  cases run₃.symm.trans entered
  -- the terminals take vnodes
  have ground : s.ground = s₃.ground := by
    obtain ⟨_, _, taken, run⟩ := bind_eq_ok.mp run
    obtain ⟨_, -, rfl⟩ := getFreeVnode_cases taken
    obtain ⟨_, _, taken, run⟩ := bind_eq_ok.mp run
    obtain ⟨_, -, rfl⟩ := getFreeVnode_cases taken
    obtain ⟨_, _, taken, run⟩ := bind_eq_ok.mp run
    obtain ⟨_, -, rfl⟩ := getFreeVnode_cases taken
    obtain ⟨_, _, step, run⟩ := bind_eq_ok.mp run
    obtain rfl := modify_eq_ok.mp step
    obtain ⟨_, _, step, run⟩ := bind_eq_ok.mp run
    obtain rfl := modify_eq_ok.mp step
    obtain ⟨_, _, step, run⟩ := bind_eq_ok.mp run
    obtain rfl := modify_eq_ok.mp step
    obtain rfl := modify_eq_ok.mp run
    rfl
  rw [Function.update_idem, Function.update_idem] at volume₃
  refine ⟨self, up, selfName, selfIndex, upName, upIndex, volume₃.congr ground, ?_, ?_⟩
  · show s.ground.2.1 = _
    rw [ground]
    show s₃.inodeBitmap = _
    rw [spared₃.inodes, spared₂.inodes]
    rfl
  · have same : s.blockBitmap = s₃.blockBitmap := congrArg (fun g => g.2.2.2.1) ground
    rw [same]
    omega

/-- **The tree after boot**: the root, and nothing in it. -/
theorem boot_tree (start : Boot s) : ∃ dirs, WellFormed dirs s ∧ graph dirs = rootGraph ∧
    (∃ records, dirs 0 = some records) ∧
    (∀ m records, dirs m = some records → m = 0 ∧ records.length = 2) ∧
    s.inodeBitmap = Function.update (fun _ => false) 0 true ∧
    4095 ≤ idleCount s.blockBitmap 4096 := by
  obtain ⟨self, up, selfName, selfIndex, upName, upIndex, volume, inodes, blocks⟩ :=
    boot_volume start
  generalize same : Function.update (fun _ => none : Dirs) 0 (some [self, up]) = dirs at volume
  have root : ∀ m records, dirs m = some records → m = 0 ∧ records = [self, up] := by
    intro m records here
    subst same
    by_cases top : m = 0
    · subst top
      rw [Function.update_self, Option.some.injEq] at here
      exact ⟨rfl, here.symm⟩
    · rw [Function.update_of_ne top] at here
      cases here
  have top : dirs 0 = some [self, up] := same ▸ Function.update_self _ _ _
  have look : graph dirs = rootGraph := by
    unfold graph rootGraph
    congr
    funext n name
    by_cases here : n = 0
    · subst here
      rw [top]
      show (lookup [self, up] name).map Int.toNat = _
      rw [lookup_cons, lookup_cons, lookup_nil, selfName, selfIndex, upName, upIndex]
      by_cases self : dot = name
      · rw [if_pos self, if_pos ⟨rfl, .inl self.symm⟩]
        rfl
      · by_cases up : dotDot = name
        · rw [if_neg self, if_pos up, if_pos ⟨rfl, .inr up.symm⟩]
          rfl
        · rw [if_neg self, if_neg up,
            if_neg fun both => both.2.elim (fun is => self is.symm) fun is => up is.symm]
          rfl
    · rw [if_neg fun both => here both.1]
      show (dirs n).bind _ = none
      cases is : dirs n with
      | none => rfl
      | some records => exact absurd (root n records is).1 here
  refine ⟨dirs, ⟨volume, fun m records here => ?_, ?_⟩, look, ⟨_, top⟩, fun m records here => ?_,
    inodes, blocks⟩
  · obtain ⟨-, rfl⟩ := root m records here
    exact (show 36 * 2 ≤ 19456 by decide)
  · rw [look]
    refine ⟨fun n ⟨records, here⟩ => ?_, fun n c m found notSelf notUp _ => ?_⟩
    · obtain ⟨rfl, -⟩ := root n records here
      rfl
    · have entry : n = 0 ∧ (c = dot ∨ c = dotDot) := by
        by_contra none
        change (if _ then _ else _) = _ at found
        rw [if_neg none] at found
        cases found
      exact (entry.2.elim notSelf notUp).elim
  · obtain ⟨rfl, rfl⟩ := root m records here
    exact ⟨rfl, rfl⟩

/-- From the root of such a tree a path never leaves it. -/
theorem rootGraph_base {p : Place Nat (List UInt8)} (cs : List (List UInt8)) (top : p.base = 0) :
    ∀ q ∈ rootGraph.passed p cs, q.base = 0 := by
  induction cs generalizing p with
  | nil => exact fun q none => absurd none List.not_mem_nil
  | cons c cs ih =>
      have enters : (rootGraph.enter p c).base = 0 := by
        obtain ⟨n, below⟩ := p
        obtain rfl : n = 0 := top
        cases below with
        | nil =>
            cases entry : rootGraph.look 0 c with
            | none => simp only [NamedGraph.enter, entry]
            | some m =>
                simp only [NamedGraph.enter, entry]
                change (if 0 = 0 ∧ (c = dot ∨ c = dotDot) then some 0 else none) = _ at entry
                split at entry
                · exact (Option.some.inj entry).symm
                · cases entry
        | cons d above =>
            show Place.base (if _ then _ else if _ then _ else _) = 0
            split_ifs <;> rfl
      intro q member
      rcases List.mem_cons.mp member with rfl | later
      · exact enters
      · exact ih enters q later

/-- Any path to a missing file may be asked for after boot. -/
theorem boot_request (start : Boot s) : ∃ dirs, graph dirs = rootGraph ∧ ∀ src path, src < 50 →
    path.length = 256 → 0 ∈ path →
    path.head? = some 47 → path.tail.head? ≠ some 0 →
    (∀ c ∈ names (untilNul path.tail), c.length ≤ 31) →
    walk rootGraph.look 0 (names (untilNul path.tail)) = none →
    CreateRequest dirs s src 0 path path.tail (.create path) := by
  obtain ⟨dirs, tree, look, ⟨records, here⟩, only, inodes, blocks⟩ := boot_tree start
  refine ⟨dirs, look, fun src path process size nul head some short missing => ?_⟩
  have starts : walkStart (s.pcbs src).currentDir path = (0, path.tail) := if_pos head
  obtain ⟨cs, f, rest, components, spelled, clean, few⟩ := walked_spelled size.le nul starts
  have travels : Travels dirs ⟨0, []⟩ cs := by
    intro q member _
    rw [look] at member
    exact ⟨records, (rootGraph_base cs rfl q member).symm ▸ here⟩
  rw [components] at missing
  have nonempty : cs ++ [f] ≠ [] := List.append_ne_nil_of_right_ne_nil _ (List.cons_ne_nil _ _)
  have absent : ∀ k, ¬ Leads s (0 : Nat) path.tail k := by
    intro k leads
    rw [spelled, tree.volume.leads_iff tree.small clean nonempty (through_of_travels here travels),
      look] at leads
    obtain ⟨m, found, -⟩ := leads
    rw [missing] at found
    cases found
  have length : ((graph dirs).additions ⟨0, []⟩ (cs ++ [f])).length ≤ (cs ++ [f]).length :=
    NamedGraph.additions_length
  rw [List.length_append, List.length_singleton] at length
  have idle : idleCount s.inodeBitmap 1024 = 1023 := by
    have taken : idleCount (Function.update (fun _ => false) 0 true) 1024 + 1 =
      idleCount (fun _ => false) 1024 :=
      idleCount_set (by omega) rfl
    rw [idleCount_clear] at taken
    rw [inodes]
    omega
  refine ⟨tree, process, size, nul, starts, ⟨records, here⟩, some, short, ?_, ?_, ?_, .inl rfl⟩
  · rintro k ⟨dir, walked, s₁, starts', -, leads⟩
    obtain ⟨rfl, rfl⟩ := Prod.mk.inj (starts.symm.trans starts')
    exact absent k ⟨s₁, leads⟩
  · rw [components, List.dropLast_concat]
    exact travels
  · rw [components]
    refine ⟨by omega, by omega, fun m records here => ?_⟩
    have count := List.count_le_length (a := ⟨m, []⟩)
      (l := (graph dirs).additions ⟨0, []⟩ (cs ++ [f]))
    obtain ⟨-, two⟩ := only m records here
    omega

end Boot

section Path

variable {dirs : Dirs} {s : FmState} {n src : Nat} {path walked : List UInt8}

/-- **Creation along a path.** After CREATE or OPEN the path leads to a new empty file exactly if
its end is fresh. -/
theorem create_path_iff {request : Request}
    (wanted : CreateRequest dirs s src n path walked request) (junk : Junk) :
    (∃ reply s', handle junk src request s = .ok reply s' ∧ Created dirs s s' n walked) ↔
      Fresh dirs n (names (untilNul walked)) := by
  obtain ⟨reply, s', run, created⟩ := wanted.ends junk
  rw [← created]
  constructor
  · rintro ⟨reply', s'', run', here⟩
    rw [run] at run'
    cases run'
    exact here
  · exact fun here => ⟨reply, s', run, here⟩

/-- "/x/f" after boot. -/
theorem create_path_boot :
    ∃ dirs reply s', handle zeroJunk 1 (.create (pathBuffer [47, 120, 47, 102])) bootState =
      .ok reply s' ∧
    Created dirs bootState s' 0 (pathBuffer [47, 120, 47, 102]).tail := by
  obtain ⟨dirs, look, wanted⟩ := boot_request boot_bootState
  have request :=
    wanted 1 (pathBuffer [47, 120, 47, 102]) (by omega) (by decide +kernel) (by decide +kernel)
      (by decide +kernel)
    (by decide +kernel) (by decide +kernel) (by decide +kernel)
  have fresh : Fresh dirs 0 (names (untilNul (pathBuffer [47, 120, 47, 102]).tail)) := by
    unfold Fresh
    rw [look]
    decide +kernel
  obtain ⟨reply, s', run, created⟩ := (create_path_iff request zeroJunk).mpr fresh
  exact ⟨dirs, reply, s', run, created⟩

/-- "/x/.": `_create_dir` makes the directory x, and a second entry "." is put into it. -/
theorem create_behind_missing :
    ¬ ∀ (s : FmState) (dirs : Dirs) (junk : Junk) (src n : Nat) (path walked : List UInt8)
    (request : Request), Reachable s → CreateRequest dirs s src n path walked request →
    ∃ reply s', handle junk src request s = .ok reply s' ∧ Created dirs s s' n walked := by
  intro all
  obtain ⟨dirs, look, wanted⟩ := boot_request boot_bootState
  have request :=
    wanted 1 (pathBuffer [47, 120, 47, 46]) (by omega) (by decide +kernel) (by decide +kernel)
      (by decide +kernel)
    (by decide +kernel) (by decide +kernel) (by decide +kernel)
  have stale : ¬ Fresh dirs 0 (names (untilNul (pathBuffer [47, 120, 47, 46]).tail)) := by
    unfold Fresh
    rw [look]
    decide +kernel
  obtain ⟨reply, s', run, created⟩ := request.ends zeroJunk
  obtain ⟨reply', s'', run', created'⟩ :=
    all bootState dirs zeroJunk 1 0 _ _ _ (.boot boot_bootState) request
  rw [run] at run'
  cases run'
  exact stale (created.mp created')

end Path

end NjuOs.FileSystem
