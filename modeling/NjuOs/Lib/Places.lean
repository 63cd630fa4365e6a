/-
**Paths of which a part is missing.**

A `NamedGraph` answers a name at a node with another node, or with nothing; two of its names stand
for the node itself and for the one above. A path that comes to a missing name still leads somewhere
when every missing name counts as a new node with these two names: to a `Place`, a node that is
there and the names of the missing ones below it.

`g.Grown known made node look` says that `look` is the graph `g` after the places `made` have been
made, `node` being the nodes they were given. Making one more place keeps it
(`NamedGraph.Grown.make`), and a path whose places are all there leads to the node of the place it
arrives at (`NamedGraph.Grown.walk`).
-/

import Mathlib.Data.List.Basic
import Mathlib.Logic.Function.Basic
import Mathlib.Order.Basic

namespace NjuOs.Lib

variable {Node Name : Type}

/-- Where a path leads. -/
def walk (look : Node → Name → Option Node) : Node → List Name → Option Node
  | n, [] => some n
  | n, c :: cs => (look n c).bind fun m => walk look m cs

section Walk

variable {look look' : Node → Name → Option Node} {n m : Node} {cs ds : List Name}

theorem walk_append : walk look n (cs ++ ds) = (walk look n cs).bind fun m => walk look m ds := by
  induction cs generalizing n with
  | nil => rfl
  | cons c cs ih =>
      rw [List.cons_append, walk, walk, Option.bind_assoc]
      exact congrArg _ (funext fun m => ih)

/-- A graph that answers more leads on from where the path led before. -/
theorem walk_mono (more : ∀ n c m, look n c = some m → look' n c = some m)
    (leads : walk look n cs = some m) :
    walk look' n cs = some m := by
  induction cs generalizing n with
  | nil => exact leads
  | cons c cs ih =>
      obtain ⟨k, entry, rest⟩ := Option.bind_eq_some_iff.mp leads
      exact Option.bind_eq_some_iff.mpr ⟨k, more _ _ _ entry, ih rest⟩

end Walk

/-- Nodes with named edges, a name for the node itself and one for the node above. -/
structure NamedGraph (Node Name : Type) where
  look : Node → Name → Option Node
  self : Name
  up : Name

/-- A node, and the names of missing nodes one below the other, the innermost first. -/
structure Place (Node Name : Type) where
  base : Node
  below : List Name
  deriving DecidableEq

namespace NamedGraph

variable [DecidableEq Name] (g : NamedGraph Node Name)

/-- The place a name leads to. -/
def enter (p : Place Node Name) (c : Name) : Place Node Name :=
  match p.below with
  | [] =>
    match g.look p.base c with
    | some m => ⟨m, []⟩
    | none => ⟨p.base, [c]⟩
  | _ :: above => if c = g.self then p else if c = g.up then ⟨p.base, above⟩
      else ⟨p.base, c :: p.below⟩

/-- The place a path leads to. -/
def arrive (p : Place Node Name) (cs : List Name) : Place Node Name := cs.foldl g.enter p

/-- The places a path comes through, the last one among them. -/
def passed : Place Node Name → List Name → List (Place Node Name)
  | _, [] => []
  | p, c :: cs => g.enter p c :: passed (g.enter p c) cs

/-- The places that get an entry when the missing names of a path are made: where a name is missing,
and where the last one is put. -/
def additions [DecidableEq Node] : Place Node Name → List Name → List (Place Node Name)
  | _, [] => []
  | p, c :: cs =>
    if cs = [] ∨ g.enter p c = ⟨p.base, c :: p.below⟩ then p :: additions (g.enter p c) cs
    else additions (g.enter p c) cs

variable {g} {p : Place Node Name} {c : Name} {cs ds : List Name}

theorem passed_append : g.passed p (cs ++ ds) = g.passed p cs ++ g.passed (g.arrive p cs) ds := by
  induction cs generalizing p with
  | nil => rfl
  | cons c cs ih =>
      rw [List.cons_append, passed, passed, ih]
      rfl

theorem arrive_append : g.arrive p (cs ++ ds) = g.arrive (g.arrive p cs) ds := List.foldl_append

theorem arrive_mem_passed (nonempty : cs ≠ []) : g.arrive p cs ∈ g.passed p cs := by
  induction cs generalizing p with
  | nil => exact absurd rfl nonempty
  | cons c cs ih =>
      by_cases last : cs = []
      · subst last
        exact List.mem_cons_self
      · exact List.mem_cons_of_mem _ (ih last)

theorem additions_tail [DecidableEq Node] :
    (g.additions (g.enter p c) cs).Sublist (g.additions p (c :: cs)) := by
  rw [additions]
  split
  · exact List.sublist_cons_self _ _
  · exact List.Sublist.refl _

theorem additions_length [DecidableEq Node] : (g.additions p cs).length ≤ cs.length := by
  induction cs generalizing p with
  | nil => exact Nat.le_refl _
  | cons c cs ih =>
      rw [additions]
      split
      · exact Nat.succ_le_succ ih
      · exact Nat.le_succ_of_le ih

/-- A path through the graph itself. -/
theorem arrive_of_walk {n m : Node} (leads : walk g.look n cs = some m) :
    g.arrive ⟨n, []⟩ cs = ⟨m, []⟩ := by
  induction cs generalizing n with
  | nil => rw [Option.some.inj leads]; rfl
  | cons c cs ih =>
      obtain ⟨k, entry, rest⟩ := Option.bind_eq_some_iff.mp leads
      have here : g.enter ⟨n, []⟩ c = ⟨k, []⟩ := by simp only [enter, entry]
      show g.arrive (g.enter ⟨n, []⟩ c) cs = _
      rw [here]
      exact ih rest

end NamedGraph

/-- A place that is there: a node that was known, or one of those that were made. -/
def There (known : Node → Prop) (made : List (Place Node Name)) (p : Place Node Name) : Prop :=
  p.below = [] ∧ known p.base ∨ p ∈ made

/-- **`look` is the graph with the places `made`**, which were given nodes that are not known. -/
structure NamedGraph.Grown [DecidableEq Name] (g : NamedGraph Node Name) (known : Node → Prop)
    (made : List (Place Node Name)) (node : Place Node Name → Node)
    (look : Node → Name → Option Node) : Prop where
  base : ∀ n, node ⟨n, []⟩ = n
  deep : ∀ p ∈ made, p.below ≠ []
  closed : ∀ n c above, ⟨n, c :: above⟩ ∈ made → There known made ⟨n, above⟩
  inj : ∀ p q, There known made p → There known made q → node p = node q → p = q
  found : ∀ p c, There known made p → There known made (g.enter p c) →
    look (node p) c = some (node (g.enter p c))
  missing : ∀ p c, There known made p → ¬ There known made (g.enter p c) → look (node p) c = none

/-- The graph with a node `k` more, entered under `c` in node `n`. -/
def NamedGraph.attach [DecidableEq Node] [DecidableEq Name] (g : NamedGraph Node Name)
    (look : Node → Name → Option Node) (n : Node) (c : Name) (k : Node) :
    Node → Name → Option Node := fun m d =>
  if m = k then if d = g.self then some k else if d = g.up then some n else none
  else if m = n ∧ d = c then some k else look m d

section Grown

variable {g : NamedGraph Node Name} {known : Node → Prop} {made : List (Place Node Name)}
  {node : Place Node Name → Node} {look : Node → Name → Option Node} {p q : Place Node Name}
  {c : Name} {cs : List Name} {k : Node}

theorem There.mono {made' : List (Place Node Name)} (there : There known made p)
    (more : made ⊆ made') :
    There known made' p := there.imp_right fun member => more member

variable [DecidableEq Name]

/-- Before anything is made. -/
theorem NamedGraph.Grown.start (inside : ∀ n c m, g.look n c = some m → known m) :
    g.Grown known [] Place.base g.look where
  base _ := rfl
  deep _ member := absurd member List.not_mem_nil
  closed _ _ _ member := absurd member List.not_mem_nil
  inj := by
    rintro ⟨n, below⟩ ⟨m, below'⟩ (⟨rfl, -⟩ | none) (⟨rfl, -⟩ | none') same
    · obtain rfl : n = m := same
      rfl
    · exact absurd none' List.not_mem_nil
    · exact absurd none List.not_mem_nil
    · exact absurd none List.not_mem_nil
  found := by
    rintro ⟨n, below⟩ c (⟨rfl, -⟩ | none) there
    · cases entry : g.look n c with
      | some m => simp only [NamedGraph.enter, entry]
      | none =>
          simp only [NamedGraph.enter, entry] at there
          rcases there with ⟨absurd, -⟩ | absurd <;> cases absurd
    · exact absurd none List.not_mem_nil
  missing := by
    rintro ⟨n, below⟩ c (⟨rfl, -⟩ | none) away
    · cases entry : g.look n c with
      | some m =>
          simp only [NamedGraph.enter, entry] at away
          exact absurd (.inl ⟨rfl, inside n c m entry⟩) away
      | none => rfl
    · exact absurd none List.not_mem_nil

/-- A name that leads to a place that is not there is missing, and the place lies below. -/
theorem NamedGraph.Grown.enter_new (grown : g.Grown known made node look)
    (inside : ∀ n c m, g.look n c = some m → known m) (there : There known made p)
    (away : ¬ There known made (g.enter p c)) :
    g.enter p c = ⟨p.base, c :: p.below⟩ := by
  obtain ⟨n, below⟩ := p
  cases below with
  | nil =>
      cases entry : g.look n c with
      | some m =>
          simp only [NamedGraph.enter, entry] at away
          exact absurd (.inl ⟨rfl, inside n c m entry⟩) away
      | none => simp only [NamedGraph.enter, entry]
  | cons d above =>
      have member : ⟨n, d :: above⟩ ∈ made := by
        rcases there with ⟨absurd, -⟩ | member
        · cases absurd
        · exact member
      by_cases here : c = g.self
      · simp only [NamedGraph.enter, here, if_true] at away
        exact absurd there away
      · by_cases up : c = g.up
        · simp only [NamedGraph.enter, if_neg here, if_pos up] at away
          exact absurd (grown.closed n d above member) away
        · simp only [NamedGraph.enter, if_neg here, if_neg up]

/-- **One more node is made**, under a name that was missing. -/
theorem NamedGraph.Grown.make [DecidableEq Node] (grown : g.Grown known made node look)
    (inside : ∀ n c m, g.look n c = some m → known m) (there : There known made p)
    (enters : g.enter p c = q) (away : ¬ There known made q) (new : ¬ known k)
    (unused : ∀ r ∈ made, node r ≠ k) :
    g.Grown known (q :: made) (Function.update node q k) (g.attach look (node p) c k) := by
  have place : q = ⟨p.base, c :: p.below⟩ := enters ▸ grown.enter_new inside there (enters ▸ away)
  have same : Function.update node q k q = k := Function.update_self _ _ _
  -- what was there is another place, with another node
  have other : ∀ r, There known made r → r ≠ q := fun r here same => away (same ▸ here)
  have kept : ∀ r, There known made r → Function.update node q k r = node r := fun r here =>
    Function.update_of_ne (other r here) _ _
  have fresh : ∀ r, There known made r → node r ≠ k := by
    rintro ⟨n, below⟩ (⟨rfl, known⟩ | member)
    · rw [grown.base]
      exact fun same => new (same ▸ known)
    · exact unused _ member
  have split : ∀ r, There known (q :: made) r → r = q ∨ There known made r := by
    rintro r (old | member)
    · exact .inr (.inl old)
    · rcases List.mem_cons.mp member with here | old
      · exact .inl here
      · exact .inr (.inr old)
  have wide : ∀ r, There known made r → There known (q :: made) r :=
    fun r here => here.mono (List.subset_cons_self _ _)
  -- nothing lies below the new place
  have turn : ∀ d, g.enter q d = if d = g.self then q else if d = g.up then p
      else ⟨p.base, d :: c :: p.below⟩ := by
    intro d
    rw [place]
    rfl
  have bottom : ∀ d, ¬ There known (q :: made) ⟨p.base, d :: c :: p.below⟩ := by
    intro d below
    rcases split _ below with here | ⟨none, -⟩ | member
    · rw [place, Place.mk.injEq] at here
      exact absurd (congrArg List.length here.2) (by simp)
    · cases none
    · exact away (place ▸ grown.closed _ _ _ member)
  -- only the name that was missing leads to it
  have only : ∀ r d, There known made r → g.enter r d = q → r = p ∧ d = c := by
    intro r d here leads
    have shape := grown.enter_new inside here (leads ▸ away)
    rw [leads, place, Place.mk.injEq, List.cons.injEq] at shape
    obtain ⟨base, name, below⟩ := shape
    exact ⟨by cases r; cases p; simp_all, name.symm⟩
  refine {
    base := fun n => ?_
    deep := fun r member => ?_
    closed := fun n d above member => ?_
    inj := fun r r' here there same' => ?_
    found := fun r d here leads => ?_
    missing := fun r d here leads => ?_ }
  · rw [Function.update_of_ne (by rw [place]; exact fun same => by cases same), grown.base]
  · rcases List.mem_cons.mp member with rfl | old
    · rw [place]
      exact List.cons_ne_nil _ _
    · exact grown.deep r old
  · rcases List.mem_cons.mp member with here | old
    · rw [place] at here
      cases here
      exact wide p there
    · exact wide _ (grown.closed n d above old)
  · rcases split r here with rfl | old <;> rcases split r' there with rfl | old'
    · rfl
    · rw [same, kept r' old'] at same'
      exact absurd same'.symm (fresh r' old')
    · rw [same, kept r old] at same'
      exact absurd same' (fresh r old)
    · rw [kept r old, kept r' old'] at same'
      exact grown.inj r r' old old' same'
  · rcases split r here with rfl | old
    · rw [same, NamedGraph.attach, if_pos rfl]
      rw [turn] at leads ⊢
      by_cases self : d = g.self
      · rw [if_pos self, if_pos self, same]
      · rw [if_neg self] at leads ⊢
        rw [if_neg self]
        by_cases up : d = g.up
        · rw [if_pos up, if_pos up, kept p there]
        · rw [if_neg up] at leads
          exact absurd leads (bottom d)
    · rw [kept r old, NamedGraph.attach, if_neg (fresh r old)]
      by_cases entry : node r = node p ∧ d = c
      · obtain rfl := grown.inj r p old there entry.1
        rw [if_pos entry, entry.2, enters, same]
      · rw [if_neg entry]
        have leads : There known made (g.enter r d) := (split _ leads).resolve_left fun here => by
          obtain ⟨rfl, rfl⟩ := only r d old here
          exact entry ⟨rfl, rfl⟩
        rw [grown.found r d old leads, kept _ leads]
  · rcases split r here with rfl | old
    · rw [same, NamedGraph.attach, if_pos rfl]
      rw [turn] at leads
      by_cases self : d = g.self
      · rw [if_pos self] at leads
        exact absurd here leads
      · rw [if_neg self] at leads ⊢
        by_cases up : d = g.up
        · rw [if_pos up] at leads
          exact absurd (wide p there) leads
        · rw [if_neg up]
    · rw [kept r old, NamedGraph.attach, if_neg (fresh r old)]
      by_cases entry : node r = node p ∧ d = c
      · obtain rfl := grown.inj r p old there entry.1
        rw [entry.2, enters] at leads
        exact absurd (.inr List.mem_cons_self) leads
      · rw [if_neg entry]
        exact grown.missing r d old fun here => leads (wide _ here)

/-- **A path whose places are all there leads to the node of its last place.** -/
theorem NamedGraph.Grown.walk (grown : g.Grown known made node look) (there : There known made p)
    (all : ∀ q ∈ g.passed p cs, There known made q) :
    walk look (node p) cs = some (node (g.arrive p cs)) := by
  induction cs generalizing p with
  | nil => rfl
  | cons c cs ih =>
      have first := all _ List.mem_cons_self
      rw [Lib.walk, grown.found p c there first]
      exact ih first fun q member => all q (List.mem_cons_of_mem _ member)

/-- A tree: every directory answers its own name with itself, and what is entered in a node answers
the name above with that node. -/
structure NamedGraph.Tidy (g : NamedGraph Node Name) (dir : Node → Prop) : Prop where
  self : ∀ n, dir n → g.look n g.self = some n
  up : ∀ n c m, g.look n c = some m → c ≠ g.self → c ≠ g.up → dir m → g.look m g.up = some n

/-- In a place that is there the two names stand for itself and for the place above. -/
theorem NamedGraph.Grown.dots (grown : g.Grown known made node look) {dir : Node → Prop}
    (tidy : g.Tidy dir) (old : ∀ n c m, g.look n c = some m → look n c = some m)
    (dots : g.self ≠ g.up) (here : There known made p) (there : There known made (g.enter p c))
    (isDir : (g.enter p c).below = [] → dir (g.enter p c).base) :
    look (node (g.enter p c)) g.self = some (node (g.enter p c)) ∧
      (c ≠ g.self → c ≠ g.up → look (node (g.enter p c)) g.up = some (node p)) := by
  generalize enters : g.enter p c = q at there isDir ⊢
  obtain ⟨n, below⟩ := q
  cases below with
  | nil =>
      rw [grown.base]
      refine ⟨old _ _ _ (tidy.self n (isDir rfl)), fun notSelf notUp => ?_⟩
      obtain ⟨m, above⟩ := p
      cases above with
      | nil =>
          rw [grown.base]
          cases entry : g.look m c with
          | some n' =>
              simp only [NamedGraph.enter, entry, Place.mk.injEq, and_true] at enters
              subst enters
              exact old _ _ _ (tidy.up m c n' entry notSelf notUp (isDir rfl))
          | none =>
              simp only [NamedGraph.enter, entry] at enters
              cases enters
      | cons d above =>
          simp only [NamedGraph.enter, if_neg notSelf, if_neg notUp] at enters
          cases enters
  | cons d below =>
      have inSelf : g.enter ⟨n, d :: below⟩ g.self = ⟨n, d :: below⟩ := by
        simp only [NamedGraph.enter, if_true]
      have inUp : g.enter ⟨n, d :: below⟩ g.up = ⟨n, below⟩ := by
        simp only [NamedGraph.enter, if_neg dots.symm, if_true]
      have self := grown.found _ g.self there (by rw [inSelf]; exact there)
      rw [inSelf] at self
      refine ⟨self, fun notSelf notUp => ?_⟩
      have above : p = ⟨n, below⟩ := by
        obtain ⟨m, above⟩ := p
        cases above with
        | nil =>
            cases entry : g.look m c with
            | some n' =>
                simp only [NamedGraph.enter, entry] at enters
                cases enters
            | none =>
                simp only [NamedGraph.enter, entry] at enters
                cases enters
                rfl
        | cons e above =>
            simp only [NamedGraph.enter, if_neg notSelf, if_neg notUp] at enters
            cases enters
            rfl
      rw [above] at here ⊢
      have up := grown.found _ g.up there (by rw [inUp]; exact here)
      rw [inUp] at up
      exact up

end Grown

/-! ### A tree that grows by one node -/

section Tidy

variable {g g' : NamedGraph Node Name} {dir dir' : Node → Prop} {n k : Node} {c : Name}

/-- A tree with edges more: each of them leads to no directory, or to one that knows where it is
entered. -/
theorem NamedGraph.Tidy.grow (tidy : g.Tidy dir) (self : g'.self = g.self) (up : g'.up = g.up)
    (more : ∀ m d l, g.look m d = some l → g'.look m d = some l)
    (dirs : ∀ m, dir' m → dir m ∨ g'.look m g.self = some m)
    (edges : ∀ m d l, g'.look m d = some l → d ≠ g.self → d ≠ g.up → dir' l →
      g.look m d = some l ∧ dir l ∨ g'.look l g.up = some m) : g'.Tidy dir' where
  self m here := by
    rw [self]
    rcases dirs m here with old | new
    · exact more m _ m (tidy.self m old)
    · exact new
  up m d l entry notSelf notUp here := by
    rw [self] at notSelf
    rw [up] at notUp ⊢
    rcases edges m d l entry notSelf notUp here with ⟨old, there⟩ | new
    · exact more l _ m (tidy.up m d l old notSelf notUp there)
    · exact new

/-- A node with the two names is attached to a directory, under a name that was missing. -/
theorem NamedGraph.Tidy.attach [DecidableEq Node] [DecidableEq Name] (tidy : g.Tidy dir)
    (self : g'.self = g.self) (up : g'.up = g.up) (look : g'.look = g.attach g.look n c k)
    (dots : g.self ≠ g.up) (missing : g.look n c = none) (bare : ∀ d, g.look k d = none)
    (unknown : ∀ m d, g.look m d ≠ some k) (only : ∀ m, dir' m → m = k ∨ dir m) : g'.Tidy dir' := by
  have more : ∀ m d l, g.look m d = some l → g'.look m d = some l := by
    intro m d l entry
    rw [look, NamedGraph.attach, if_neg, if_neg]
    · exact entry
    · rintro ⟨rfl, rfl⟩
      rw [missing] at entry
      cases entry
    · rintro rfl
      rw [bare] at entry
      cases entry
  have itself : g'.look k g.self = some k := by rw [look, NamedGraph.attach, if_pos rfl, if_pos rfl]
  have above : g'.look k g.up = some n := by
    rw [look, NamedGraph.attach, if_pos rfl, if_neg dots.symm, if_pos rfl]
  refine tidy.grow self up more (fun m here => ?_) fun m d l entry notSelf notUp here => ?_
  · rcases only m here with rfl | old
    · exact .inr itself
    · exact .inl old
  · rw [look, NamedGraph.attach] at entry
    split_ifs at entry with new first
    · cases entry
      rw [first.1]
      exact .inr above
    · rcases only l here with rfl | old
      · exact absurd entry (unknown m d)
      · exact .inl ⟨entry, old⟩

/-- A node that is no directory is entered under a name that was missing. -/
theorem NamedGraph.Tidy.enter [DecidableEq Node] [DecidableEq Name] (tidy : g.Tidy dir) (k : Node)
    (self : g'.self = g.self) (up : g'.up = g.up)
    (look : ∀ m d, g'.look m d = if m = n ∧ d = c then some k else g.look m d)
    (missing : g.look n c = none) (only : ∀ m, dir' m → m ≠ k ∧ dir m) : g'.Tidy dir' := by
  refine tidy.grow self up (fun m d l entry => ?_) (fun m here => .inl (only m here).2)
    fun m d l entry _ _ here => ?_
  · rw [look, if_neg]
    · exact entry
    · rintro ⟨rfl, rfl⟩
      rw [missing] at entry
      cases entry
  · rw [look] at entry
    split_ifs at entry with new
    · cases entry
      exact absurd rfl (only _ here).1
    · exact .inl ⟨entry, (only l here).2⟩

end Tidy

end NjuOs.Lib
