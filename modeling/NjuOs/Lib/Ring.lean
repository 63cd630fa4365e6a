/-
**Circular doubly linked lists with their links inside the nodes.**

A list is a head node and the nodes behind it, each with a pointer to the one before and the one
after, the last one's successor being the head again. The links of all nodes are one record
`Links`, so that several lists can share the nodes; `Ring l h xs` says that in `l` the list of
head `h` runs through `xs`.

`listAddBefore` puts a node at the end of a list (`Ring.add`), `listDel` takes one out
(`Ring.del`), with the assertions of the operation; both leave the links of all other nodes alone.
`Links.search` is the loop over a list that stops at the first node it looks for, `Links.nodes` the
list that is read off the links. `Lists` is several lists at once that share no node, with a node
taken out of one (`Lists.del`) and put into one (`Lists.insert`).
-/

import Mathlib.Data.List.Chain
import Mathlib.Data.List.Nodup
import Mathlib.Logic.Function.Basic
import Mathlib.Tactic.Common

namespace NjuOs.Lib

variable {ι : Type}

/-- The links of all nodes. A pointer may be null. -/
structure Links (ι : Type) where
  prev : ι → Option ι
  next : ι → Option ι

/-! ### The operations -/

section Operations

variable [DecidableEq ι]

/-- The link of `a` to the one before it. -/
def Links.setPrev (l : Links ι) (a : ι) (p : Option ι) : Links ι :=
  { l with prev := Function.update l.prev a p }

/-- The link of `a` to the one behind it. -/
def Links.setNext (l : Links ι) (a : ι) (p : Option ι) : Links ι :=
  { l with next := Function.update l.next a p }

/-- `list_init`. -/
def listInit (list : ι) (l : Links ι) : Links ι :=
  (l.setPrev list (some list)).setNext list (some list)

/-- `list_add`. -/
def listAdd (prev next : Option ι) (data : ι) (l : Links ι) : Links ι :=
  let l := (l.setPrev data prev).setNext data next
  let l := match prev with
    | none => l
    | some p => l.setNext p (some data)
  match next with
  | none => l
  | some n => l.setPrev n (some data)

/-- `list_add_before`. -/
def listAddBefore (list data : ι) (l : Links ι) : Links ι :=
  listAdd (l.prev list) (some list) data l

/-- No result where an assertion fails. -/
def listDel (data : ι) (l : Links ι) : Option (Links ι) :=
  match l.prev data, l.next data with
  | some prev, some next =>
    if l.next prev = some data ∧ l.prev next = some data then
      some ((l.setNext prev (some next)).setPrev next (some prev))
    else
      none
  | _, _ => none

/-- `list_empty`. -/
def listEmpty (list : ι) (l : Links ι) : Bool := l.next list = some list

/-- `list_foreach` from `ptr` on, left at the first node that `found` accepts: the last node it
looked at. No result where it runs out of fuel or into a null pointer. -/
def Links.search (l : Links ι) (head : ι) (found : ι → Bool) :
    Nat → ι → Option ι → Option (Option ι)
  | 0, _, _ => none
  | fuel + 1, ptr, last =>
    if ptr = head then some last
    else if found ptr then some (some ptr)
    else match l.next ptr with
      | none => none
      | some next => l.search head found fuel next (some ptr)

/-- The nodes from `ptr` on, up to the head. -/
def Links.nodes (l : Links ι) (head : ι) : Nat → Option ι → List ι
  | 0, _ => []
  | _ + 1, none => []
  | fuel + 1, some ptr => if ptr = head then [] else ptr :: l.nodes head fuel (l.next ptr)

end Operations

/-! ### Rings -/

/-- `b` is the node behind `a`. -/
structure Links.Joined (l : Links ι) (a b : ι) : Prop where
  next : l.next a = some b
  prev : l.prev b = some a

/-- **The list of head `h` runs through `xs`.** -/
structure Ring (l : Links ι) (h : ι) (xs : List ι) : Prop where
  nodup : (h :: xs).Nodup
  joined : ((h :: xs) ++ [h]).IsChain l.Joined

/-- Two records have the same links at a node. -/
structure SameAt (l l' : Links ι) (a : ι) : Prop where
  prev : l'.prev a = l.prev a
  next : l'.next a = l.next a

theorem SameAt.trans {l l' l'' : Links ι} {a : ι} (first : SameAt l l' a)
    (second : SameAt l' l'' a) :
    SameAt l l'' a :=
  ⟨second.prev.trans first.prev, second.next.trans first.next⟩

section Ring

variable {l l' : Links ι} {h d : ι} {xs ys : List ι}

/-- A ring depends on the links of its own nodes only. -/
theorem Ring.frame (ring : Ring l h xs) (same : ∀ a ∈ h :: xs, SameAt l l' a) : Ring l' h xs := by
  refine ⟨ring.nodup, ring.joined.imp_of_mem_imp fun a b here there joined => ?_⟩
  have inside : ∀ c ∈ (h :: xs) ++ [h], c ∈ h :: xs := by
    intro c member
    rcases List.mem_append.mp member with old | last
    · exact old
    · rw [List.mem_singleton.mp last]
      exact List.mem_cons_self
  exact ⟨(same a (inside a here)).next.trans joined.next,
    (same b (inside b there)).prev.trans joined.prev⟩

/-- The first node. -/
theorem Ring.next_head (ring : Ring l h xs) : l.next h = some (xs.headD h) := by
  have joined := ring.joined
  cases xs with
  | nil => exact (List.isChain_cons_cons.mp joined).1.next
  | cons x xs => exact (List.isChain_cons_cons.mp joined).1.next

/-- Any node of a ring can be taken for its head. -/
theorem Ring.rotate {y : ι} (ring : Ring l h (xs ++ y :: ys)) : Ring l y (ys ++ h :: xs) := by
  have turned : (h :: (xs ++ y :: ys)).Perm (y :: (ys ++ h :: xs)) := by
    rw [← List.cons_append, ← List.cons_append]
    exact List.perm_append_comm
  refine ⟨turned.nodup_iff.mp ring.nodup, ?_⟩
  have split : ∀ (a b : ι) (as bs : List ι), ((a :: (as ++ b :: bs)) ++ [a]).IsChain l.Joined ↔
      ((a :: as) ++ [b]).IsChain l.Joined ∧ ((b :: bs) ++ [a]).IsChain l.Joined := by
    intro a b as bs
    have text : (a :: (as ++ b :: bs)) ++ [a] = (a :: as) ++ b :: (bs ++ [a]) := by simp
    rw [text, List.isChain_split]
    rfl
  rw [split]
  exact ((split h y xs ys).mp ring.joined).symm

/-- The node behind a node. -/
theorem Ring.next_of {y : ι} (ring : Ring l h (xs ++ y :: ys)) : l.next y = some (ys.headD h) := by
  have next := ring.rotate.next_head
  cases ys with
  | nil => exact next
  | cons z zs => exact next

/-- The node before a node. -/
theorem Ring.prev_of {y : ι} (ring : Ring l h (xs ++ y :: ys)) :
    l.prev y = some (xs.getLastD h) := by
  have joined := ring.joined
  rcases List.eq_nil_or_concat xs with rfl | ⟨init, x, rfl⟩
  · exact (List.isChain_cons_cons.mp joined).1.prev
  · have text : h :: (init ++ [x] ++ y :: ys) ++ [h] = (h :: init) ++ x :: y :: (ys ++ [h]) := by
      simp
    rw [List.concat_eq_append] at joined ⊢
    rw [text, List.isChain_append_cons_cons] at joined
    rw [joined.2.1.prev]
    simp

theorem Ring.head_not_mem (ring : Ring l h xs) : h ∉ xs := (List.nodup_cons.mp ring.nodup).1

/-- The last node of a nonempty list, with what is before it. -/
theorem exists_concat (h : ι) (xs : List ι) : ∃ init last, h :: xs = init ++ [last] :=
  ⟨(h :: xs).dropLast, (h :: xs).getLast (by simp), (List.dropLast_concat_getLast _).symm⟩

variable [DecidableEq ι]

theorem ring_init (l : Links ι) (h : ι) : Ring (listInit h l) h [] := by
  refine ⟨List.nodup_singleton h, ?_⟩
  have joined : (listInit h l).Joined h h :=
    ⟨by simp [listInit, Links.setNext], by simp [listInit, Links.setPrev, Links.setNext]⟩
  simpa using joined

theorem listInit_same (l : Links ι) {a : ι} (other : a ≠ h) : SameAt l (listInit h l) a :=
  ⟨by
    simp [listInit, Links.setNext, Links.setPrev, other],
    by simp [listInit, Links.setNext, Links.setPrev, other]⟩

theorem Ring.listEmpty_iff (ring : Ring l h xs) : listEmpty h l = true ↔ xs = [] := by
  rw [listEmpty, decide_eq_true_iff, ring.next_head, Option.some.injEq]
  cases xs with
  | nil => simp
  | cons x xs =>
      have other : x ≠ h := fun same => ring.head_not_mem (by rw [← same]; exact List.mem_cons_self)
      simp [other]

/-! ### A node at the end -/

/-- The links after `list_add_before`. -/
theorem listAddBefore_eq {p : ι} (last : l.prev h = some p) :
    listAddBefore h d l = (((l.setPrev d (some p)).setNext d (some h)).setNext p (some d)).setPrev h
      (some d) := by
  unfold listAddBefore
  rw [last]
  rfl

theorem Ring.add (ring : Ring l h xs) (fresh : d ∉ h :: xs) :
    Ring (listAddBefore h d l) h (xs ++ [d]) ∧
      ∀ a, a ∉ h :: xs → a ≠ d → SameAt l (listAddBefore h d l) a := by
  obtain ⟨init, p, split⟩ := exists_concat h xs
  have joined := ring.joined
  rw [split, List.append_assoc, List.singleton_append, List.isChain_append_cons_cons] at joined
  obtain ⟨before, ⟨next, prev⟩, _⟩ := joined
  have eq := listAddBefore_eq (d := d) prev
  have otherHead : d ≠ h := fun same => fresh (same ▸ List.mem_cons_self)
  have pInside : p ∈ h :: xs := split ▸ List.mem_append_right _ (List.mem_singleton_self p)
  have otherLast : p ≠ d := fun same => fresh (same ▸ pInside)
  have nextOf : ∀ a, a ≠ p → a ≠ d → (listAddBefore h d l).next a = l.next a := by
    intro a notLast notNew
    simp [eq, Links.setPrev, Links.setNext, notLast, notNew]
  have prevOf : ∀ a, a ≠ h → a ≠ d → (listAddBefore h d l).prev a = l.prev a := by
    intro a notHead notNew
    simp [eq, Links.setPrev, Links.setNext, notHead, notNew]
  refine ⟨⟨?_, ?_⟩, fun a outside notNew => ⟨?_, ?_⟩⟩
  · rw [← List.cons_append]
    exact List.nodup_append.mpr ⟨ring.nodup, List.nodup_singleton d,
      fun a old b new same => fresh (by
      rw [← List.mem_singleton.mp new, ← same]
      exact old)⟩
  · show (h :: (xs ++ [d]) ++ [h]).IsChain _
    rw [← List.cons_append, split, List.append_assoc, List.append_assoc, List.singleton_append,
      List.singleton_append, List.isChain_append_cons_cons, List.isChain_cons_cons]
    refine ⟨?_, ⟨?_, ?_⟩, ⟨?_, ?_⟩, List.isChain_singleton h⟩
    · -- a node inside is joined to one that is not the head, so it is not the last one
      rw [← split] at before ⊢
      refine before.imp_of_mem_tail_imp fun a b here there old => ?_
      have notHead : b ≠ h := fun same => ring.head_not_mem (same ▸ there)
      have notLast : a ≠ p := by
        rintro rfl
        exact notHead (Option.some.inj (old.next.symm.trans next))
      have aOld : a ≠ d := fun same => fresh (same ▸ here)
      have bOld : b ≠ d := fun same => fresh (same ▸ List.mem_cons_of_mem h there)
      exact ⟨(nextOf a notLast aOld).trans old.next, (prevOf b notHead bOld).trans old.prev⟩
    · simp [eq, Links.setPrev, Links.setNext]
    · simp [eq, Links.setPrev, Links.setNext, otherHead]
    · simp [eq, Links.setPrev, Links.setNext, otherLast.symm]
    · simp [eq, Links.setPrev, Links.setNext]
  · exact prevOf a (fun same => outside (same ▸ List.mem_cons_self)) notNew
  · exact nextOf a (fun same => outside (same ▸ pInside)) notNew

/-- **A node put before any place of the ring.** -/
theorem Ring.insert (xs ys : List ι) (ring : Ring l h (xs ++ ys)) (fresh : d ∉ h :: (xs ++ ys)) :
    Ring (listAddBefore (ys.headD h) d l) h (xs ++ d :: ys) ∧
      ∀ a, a ∉ h :: (xs ++ ys) → a ≠ d → SameAt l (listAddBefore (ys.headD h) d l) a := by
  cases ys with
  | nil =>
      rw [List.append_nil] at ring fresh ⊢
      exact ring.add fresh
  | cons y ys =>
      have turned : ∀ a, a ∈ y :: (ys ++ h :: xs) ↔ a ∈ h :: (xs ++ y :: ys) := by
        intro a
        simp only [List.mem_cons, List.mem_append]
        tauto
      obtain ⟨added, same⟩ := ring.rotate.add fun here => fresh ((turned d).mp here)
      refine ⟨?_, fun a outside => same a fun here => outside ((turned a).mp here)⟩
      have text : ys ++ h :: xs ++ [d] = ys ++ h :: (xs ++ [d]) := by simp
      rw [text] at added
      simpa using added.rotate

/-! ### A node taken out -/

theorem Ring.del (ring : Ring l h (xs ++ d :: ys)) :
    ∃ l', listDel d l = some l' ∧ Ring l' h (xs ++ ys) ∧ ∀ a, a ∉ h :: (xs ++ ys) →
    SameAt l l' a := by
  obtain ⟨init, p, front⟩ := exists_concat h xs
  have nonempty : ys ++ [h] ≠ [] := by simp
  obtain ⟨n, rest, back⟩ := List.exists_cons_of_ne_nil nonempty
  have joined := ring.joined
  have text : (h :: (xs ++ d :: ys)) ++ [h] = init ++ p :: d :: (n :: rest) := by
    rw [← back, List.cons_append, List.append_assoc, ← List.cons_append, front]
    simp
  rw [text, List.isChain_append_cons_cons, List.isChain_cons_cons] at joined
  obtain ⟨before, toNode, fromNode, after⟩ := joined
  have nodup := ring.nodup
  rw [← List.cons_append, List.nodup_append] at nodup
  obtain ⟨nodupFront, nodupBack, apart⟩ := nodup
  have dFront : d ∉ init ++ [p] := front ▸ fun here => apart d here d List.mem_cons_self rfl
  have dBack : d ∉ n :: rest := by
    rw [← back, List.mem_append, List.mem_singleton, not_or]
    exact ⟨(List.nodup_cons.mp nodupBack).1, fun same =>
      apart h List.mem_cons_self d List.mem_cons_self same.symm⟩
  -- two nodes that are still joined are joined in the old ring, and neither is `d`
  have still : ∀ {a b : ι}, l.Joined a b → a ≠ d → b ≠ d →
      ((l.setNext p (some n)).setPrev n (some p)).Joined a b := by
    intro a b old aKept bKept
    have notLast : a ≠ p := by
      rintro rfl
      exact bKept (Option.some.inj (old.next.symm.trans toNode.next))
    have notNext : b ≠ n := by
      rintro rfl
      exact aKept (Option.some.inj (old.prev.symm.trans fromNode.prev))
    exact ⟨by simp [Links.setPrev, Links.setNext, notLast, old.next],
      by simp [Links.setPrev, Links.setNext, notNext, old.prev]⟩
  refine ⟨(l.setNext p (some n)).setPrev n (some p), ?_, ⟨?_, ?_⟩, fun a outside => ?_⟩
  · unfold listDel
    rw [toNode.prev, fromNode.next]
    exact if_pos ⟨toNode.next, fromNode.prev⟩
  · rw [← List.cons_append, List.nodup_append]
    exact ⟨nodupFront, (List.nodup_cons.mp nodupBack).2, fun a here b there =>
      apart a here b (List.mem_cons_of_mem d there)⟩
  · have short : (h :: (xs ++ ys)) ++ [h] = init ++ p :: n :: rest := by
      rw [← back, List.cons_append, List.append_assoc, ← List.cons_append, front]
      simp
    rw [short, List.isChain_append_cons_cons]
    refine ⟨before.imp_of_mem_imp fun a b here there old => ?_, ⟨?_, ?_⟩,
      after.imp_of_mem_imp fun a b here there old => ?_⟩
    · exact still old (fun same => dFront (same ▸ here)) fun same => dFront (same ▸ there)
    · simp [Links.setPrev, Links.setNext]
    · simp [Links.setPrev, Links.setNext]
    · exact still old (fun same => dBack (same ▸ here)) fun same => dBack (same ▸ there)
  · have pInside : p ∈ h :: (xs ++ ys) := by
      rw [← List.cons_append, front]
      simp
    have nInside : n ∈ h :: (xs ++ ys) := by
      have member : n ∈ ys ++ [h] := back ▸ List.mem_cons_self
      rcases List.mem_append.mp member with old | last
      · simp [old]
      · simp [List.mem_singleton.mp last]
    have notLast : a ≠ p := fun same => outside (same ▸ pInside)
    have notNext : a ≠ n := fun same => outside (same ▸ nInside)
    exact ⟨by
      simp [Links.setPrev, Links.setNext, notNext], by simp [Links.setPrev, Links.setNext, notLast]⟩

/-- The first node taken out. -/
theorem Ring.del_first (ring : Ring l h (d :: ys)) :
    ∃ l', listDel d l = some l' ∧ Ring l' h ys ∧ ∀ a, a ∉ h :: ys → SameAt l l' a :=
  (show Ring l h ([] ++ d :: ys) from ring).del

/-! ### The loop over a ring -/

/-- What the loop finds from a node on: the rest of the ring is `ys`. -/
theorem search_rest {found : ι → Bool} {fuel : Nat} (enough : ys.length < fuel) {last : Option ι}
    (outside : h ∉ ys) (joined : (ys ++ [h]).IsChain l.Joined) :
    l.search h found fuel (ys.headD h) last = some ((ys.find? found).or (ys.getLast?.or last)) := by
  induction ys generalizing fuel last with
  | nil =>
      obtain ⟨fuel, rfl⟩ : ∃ k, fuel = k + 1 := ⟨fuel - 1, by simp at enough; omega⟩
      simp [Links.search]
  | cons y ys ih =>
      obtain ⟨fuel, rfl⟩ : ∃ k, fuel = k + 1 := ⟨fuel - 1, by simp at enough; omega⟩
      obtain ⟨notHead, outside⟩ := not_or.mp (List.mem_cons.not.mp outside)
      have next : l.next y = some (ys.headD h) := by
        cases ys with
        | nil => exact (List.isChain_cons_cons.mp joined).1.next
        | cons z zs => exact (List.isChain_cons_cons.mp joined).1.next
      have more : l.search h found fuel (ys.headD h) (some y) = _ :=
        ih (by simpa using enough) outside joined.tail
      unfold Links.search
      simp only [List.headD_cons, Ne.symm notHead, if_false]
      by_cases hit : found y = true
      · simp [hit]
      · simp only [hit, next, List.find?_cons]
        rw [more]
        cases ys with
        | nil => simp
        | cons z zs =>
            obtain ⟨x, lastOf⟩ : ∃ x, (z :: zs).getLast? = some x :=
              ⟨_, List.getLast?_eq_some_getLast (by simp)⟩
            rw [List.getLast?_cons_cons, lastOf]
            rfl

/-- **The loop finds the first node it looks for**, or else ends at the last one. -/
theorem Ring.search_eq (ring : Ring l h xs) {found : ι → Bool} {fuel : Nat}
    (enough : xs.length < fuel) {ptr : ι} (first : l.next h = some ptr) :
    l.search h found fuel ptr none = some ((xs.find? found).or xs.getLast?) := by
  obtain rfl : ptr = xs.headD h := Option.some.inj (first.symm.trans ring.next_head)
  rw [search_rest enough ring.head_not_mem ring.joined.tail]
  simp

/-- The nodes read off from a node on: the rest of the ring is `ys`. -/
theorem nodes_rest {fuel : Nat} (enough : ys.length < fuel) (outside : h ∉ ys)
    (joined : (ys ++ [h]).IsChain l.Joined) :
    l.nodes h fuel (some (ys.headD h)) = ys := by
  induction ys generalizing fuel with
  | nil =>
      cases fuel with
      | zero => exact absurd enough (Nat.not_lt_zero _)
      | succ fuel => simp [Links.nodes]
  | cons y ys ih =>
      cases fuel with
      | zero => exact absurd enough (Nat.not_lt_zero _)
      | succ fuel =>
          obtain ⟨notHead, outside⟩ := not_or.mp (List.mem_cons.not.mp outside)
          have next : l.next y = some (ys.headD h) := by
            cases ys with
            | nil => exact (List.isChain_cons_cons.mp joined).1.next
            | cons z zs => exact (List.isChain_cons_cons.mp joined).1.next
          rw [List.headD_cons, Links.nodes, if_neg (Ne.symm notHead), next,
            ih (Nat.lt_of_succ_lt_succ enough) outside joined.tail]

/-- **The list read off a ring.** -/
theorem Ring.nodes_eq (ring : Ring l h xs) {fuel : Nat} (enough : xs.length < fuel) :
    l.nodes h fuel (l.next h) = xs := by
  rw [ring.next_head]
  exact nodes_rest enough ring.head_not_mem ring.joined.tail

/-- The links say which nodes a list runs through. -/
theorem Ring.unique (ring : Ring l h xs) (ring' : Ring l h ys) : xs = ys := by
  have long : xs.length < xs.length + ys.length + 1 := by omega
  rw [← ring.nodes_eq long, ring'.nodes_eq (by omega)]

end Ring

/-! ### Several lists -/

/-- **Several lists that share no node.** -/
structure Lists {κ : Type} (l : Links ι) (head : κ → ι) (lists : κ → List ι) : Prop where
  ring : ∀ k, Ring l (head k) (lists k)
  apart : ∀ {j k : κ} {a : ι}, a ∈ head j :: lists j → a ∈ head k :: lists k → j = k

section Lists

variable {κ : Type} [DecidableEq κ] {l : Links ι} {head : κ → ι} {lists : κ → List ι} {k : κ}
  {d : ι} {xs ys : List ι}

/-- One list changed, with the links of its own nodes and no others. -/
theorem Lists.change (rest : Lists l head lists) {l' : Links ι} (ring : Ring l' (head k) xs)
    (fresh : ∀ a ∈ xs, a ∈ lists k ∨ ∀ j, a ∉ head j :: lists j)
    (same : ∀ j ≠ k, ∀ a ∈ head j :: lists j, SameAt l l' a) :
    Lists l' head (Function.update lists k xs) := by
  have inside : ∀ j a, a ∈ head j :: Function.update lists k xs j →
      a ∈ head j :: lists j ∨ j = k ∧ ∀ i, a ∉ head i :: lists i := by
    intro j a member
    rcases eq_or_ne j k with rfl | other
    · rw [Function.update_self, List.mem_cons] at member
      rcases member with rfl | member
      · exact .inl List.mem_cons_self
      · rcases fresh a member with old | new
        · exact .inl (List.mem_cons_of_mem _ old)
        · exact .inr ⟨rfl, new⟩
    · rw [Function.update_of_ne other] at member
      exact .inl member
  refine ⟨fun j => ?_, fun {i j a} left right => ?_⟩
  · rcases eq_or_ne j k with rfl | other
    · rw [Function.update_self]
      exact ring
    · rw [Function.update_of_ne other]
      exact (rest.ring j).frame (same j other)
  · rcases inside i a left with old | ⟨isK, new⟩
    · rcases inside j a right with old' | ⟨_, new'⟩
      · exact rest.apart old old'
      · exact absurd old (new' i)
    · rcases inside j a right with old' | ⟨isK', _⟩
      · exact absurd old' (new j)
      · exact isK.trans isK'.symm

variable [DecidableEq ι]

/-- **A node taken out of one of the lists**, and then on none. -/
theorem Lists.del (rest : Lists l head lists) (split : lists k = xs ++ d :: ys) :
    ∃ l', listDel d l = some l' ∧ Lists l' head (Function.update lists k (xs ++ ys)) ∧
      ∀ j, d ∉ head j :: Function.update lists k (xs ++ ys) j := by
  have ring := rest.ring k
  rw [split] at ring
  obtain ⟨l', ran, short, same⟩ := ring.del
  have member : d ∈ head k :: lists k := by simp [split]
  have kept : ∀ a ∈ xs ++ ys, a ∈ lists k := by
    intro a here
    rw [split]
    rcases List.mem_append.mp here with left | right
    · exact List.mem_append_left _ left
    · exact List.mem_append_right _ (List.mem_cons_of_mem d right)
  refine ⟨l', ran, rest.change short (fun a here => .inl (kept a here)) fun j other a here =>
    same a fun there => ?_,
    fun j => ?_⟩
  · refine other (rest.apart here ?_)
    rcases List.mem_cons.mp there with rfl | there
    · exact List.mem_cons_self
    · exact List.mem_cons_of_mem _ (kept a there)
  · rcases eq_or_ne j k with rfl | other
    · rw [Function.update_self]
      have moved : (head j :: (xs ++ d :: ys)).Perm (d :: head j :: (xs ++ ys)) :=
        (List.Perm.cons (head j) List.perm_middle).trans (List.Perm.swap d (head j) _)
      exact (List.nodup_cons.mp (moved.nodup_iff.mp ring.nodup)).1
    · rw [Function.update_of_ne other]
      exact fun here => other (rest.apart here member)

/-- **A node put into one of the lists**, before any place of it. -/
theorem Lists.insert (rest : Lists l head lists) (split : lists k = xs ++ ys)
    (fresh : ∀ j, d ∉ head j :: lists j) :
    Lists (listAddBefore (ys.headD (head k)) d l) head
      (Function.update lists k (xs ++ d :: ys)) := by
  have ring := rest.ring k
  have notHere := fresh k
  rw [split] at ring notHere
  obtain ⟨longer, same⟩ := ring.insert xs ys notHere
  refine rest.change longer (fun a here => ?_) fun j other a here => same a (fun there => ?_) ?_
  · rcases List.mem_append.mp here with left | right
    · exact .inl (split ▸ List.mem_append_left _ left)
    · rcases List.mem_cons.mp right with rfl | right
      · exact .inr fresh
      · exact .inl (split ▸ List.mem_append_right _ right)
  · rw [← split] at there
    exact other (rest.apart here there)
  · rintro rfl
    exact fresh j here

/-- A node put at the end of one of the lists. -/
theorem Lists.add (rest : Lists l head lists) (fresh : ∀ j, d ∉ head j :: lists j) :
    Lists (listAddBefore (head k) d l) head (Function.update lists k (lists k ++ [d])) :=
  rest.insert (List.append_nil (lists k)).symm fresh

end Lists

end NjuOs.Lib
