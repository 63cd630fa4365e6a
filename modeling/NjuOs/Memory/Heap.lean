/-
**The heap of a process.**

`sbrk` moves the top of the heap. `HeapLaid` says how the address space of a process lies: the pages
of the heap are mapped up to its top, the ten pages of the stack below `0xC0000000`, and nothing
between them. A request is served if it ends with the new top, the address space lies so for the new
top, pages below both tops and above both are the ones they were, new pages are zero and the frames
of removed ones are free (`HeapMoved`).

A higher top is served as long as there are free frames, and unless the growth comes from below into
the table of the stack, which is then replaced by an empty one. A lower top is only served within
the page of the old one: the loop that is to remove pages never gets further down
(`shrinkPages_never`). Together that is `HeapFits`, and it is exact (`sbrk_iff`).
-/

import NjuOs.Memory.Pages

namespace NjuOs.Memory

open NjuOs.Lib

/-- The address space of a process with its heap. -/
structure HeapLaid (pool : PcbPool) (pid : Pid) (held : Set Nat) (s : MemoryState) : Prop
    extends UserSpace (pool.pdir pid) held s where
  stack : StackMapped (tables s.ram) (pool.pdir pid)
  start : kernelMem ≤ (s.spaces pid).heapStart.toNat
  ordered : (s.spaces pid).heapStart.toNat ≤ (s.spaces pid).heapTop.toNat
  below : (s.spaces pid).heapTop.toNat ≤ 3221184512
  heap : ∀ q, (s.spaces pid).heapStart.toNat / 4096 ≤ q →
    q < pageCeil (s.spaces pid).heapTop.toNat →
    (reach (tables s.ram) (pool.pdir pid) (.pageAt q)).isSome
  free : ∀ q, pageCeil (s.spaces pid).heapTop.toNat ≤ q → q < 786422 →
    reach (tables s.ram) (pool.pdir pid) (.pageAt q) = none

/-- **What a request is to do**: from `s` to `s'` the top of the heap has become `newTop`. -/
structure HeapMoved (pool : PcbPool) (pid : Pid) (held : Set Nat) (s : MemoryState)
    (newTop : UInt32) (s' : MemoryState) :
    Prop where
  laid : ∃ held', held ⊆ held' ∧ HeapLaid pool pid held' s'
  spaces : s'.spaces = Function.update s.spaces pid { s.spaces pid with heapTop := newTop }
  kept : ∀ q, 4096 ≤ q → q < 786432 →
    (q < pageCeil (s.spaces pid).heapTop.toNat ↔ q < pageCeil newTop.toNat) →
    reach (tables s'.ram) (pool.pdir pid) (.pageAt q) =
      reach (tables s.ram) (pool.pdir pid) (.pageAt q)
  grown : ∀ q, pageCeil (s.spaces pid).heapTop.toNat ≤ q → q < pageCeil newTop.toNat →
    ∃ f, reach (tables s'.ram) (pool.pdir pid) (.pageAt q) = some f ∧ f ∉ usedFrames s ∧
      Zeroed f s'.ram
  idle : ∀ q f, pageCeil newTop.toNat ≤ q → q < pageCeil (s.spaces pid).heapTop.toNat →
    reach (tables s.ram) (pool.pdir pid) (.pageAt q) = some f → f ∉ usedFrames s'
  bytes : ∀ x, ¬ InTables (tables s.ram) (pool.pdir pid) x →
    (frameOf x ∈ usedFrames s' → frameOf x ∈ usedFrames s) →
    s'.ram x = s.ram x

/-- The request is served. -/
def Served (pool : PcbPool) (pid : Pid) (held : Set Nat) (inc : Int) (s : MemoryState) : Prop :=
  ∃ s', sbrk pool pid inc s = .ok ((s.spaces pid).heapTop + UInt32.ofInt inc) s' ∧
    HeapMoved pool pid held s ((s.spaces pid).heapTop + UInt32.ofInt inc) s'

/-- The frames that a higher top takes: a table and a page for the old top, if there are none, and
those behind it. -/
def growthFrames (T : Nat → Nat → Option Nat) (d top newTop : Nat) : Nat :=
  vacant T d (.table (top / 4194304)) + vacant T d (.pageAt (top / 4096))
    + newFrames (top / 4096 + 1) (pageCeil newTop - (top / 4096 + 1))

/-- When a request is served. -/
structure HeapFits (d top newTop : Nat) (s : MemoryState) : Prop where
  frames : top < newTop → Room (growthFrames (tables s.ram) d top newTop) s
  stack : top < newTop → 0xBFC00000 ≤ top ∨ newTop ≤ 0xBFC00000
  shrink : newTop < top → top / 4096 * 4096 < newTop

section Heap

variable {pool : PcbPool} {pid : Pid} {held : Set Nat} {s s' : MemoryState} {inc : Int}
  {d top newTop p t : Nat}

/-! ### A higher top -/

/-- The part of `sbrk` that gives pages. -/
def grow (d top newTop : Nat) : Mm PUnit := do
  let ptable ← ensureFirst (d * pageSize) (top / 4194304) (top / 4096 % 1024)
  growPages (d * pageSize) newTop 1048577 (advance (top - top % 4096) pageSize) ptable
    (top / 4194304) (top / 4096 % 1024 + 1)

/-- On the way from `s` to `s'` the pages up to the new top were given. -/
structure GrownTo (d top newTop : Nat) (held : Set Nat) (s s' : MemoryState) : Prop where
  space : ∃ held', held ⊆ held' ∧ UserSpace d held' s'
  used : usedFrames s ⊆ usedFrames s'
  old : ∀ q, (q < top / 4096 ∨ pageCeil newTop ≤ q) →
    reach (tables s'.ram) d (.pageAt q)
      = if Between (top / 4096 + 1) (pageCeil newTop) (q / 1024) then none
        else reach (tables s.ram) d (.pageAt q)
  first : ∀ f, reach (tables s.ram) d (.pageAt (top / 4096)) = some f →
    reach (tables s'.ram) d (.pageAt (top / 4096)) = some f
  new : ∀ q, top / 4096 ≤ q → q < pageCeil newTop → reach (tables s.ram) d (.pageAt q) = none →
    ∃ f, reach (tables s'.ram) d (.pageAt q) = some f ∧ f ∉ usedFrames s ∧ Zeroed f s'.ram
  bytes : ∀ x, ¬ InTables (tables s.ram) d x →
    (frameOf x ∈ usedFrames s' → frameOf x ∈ usedFrames s) → s'.ram x = s.ram x
  spaces : s'.spaces = s.spaces

/-- **The pages are given if there are frames for them**, and otherwise the search for one never
ends. -/
theorem grow_run (space : UserSpace d held s) (low : kernelMem ≤ top) (more : top < newTop)
    (high : newTop ≤ 3221184512)
    (empty : ∀ q, top / 4096 + 1 ≤ q → q < pageCeil newTop →
      reach (tables s.ram) d (.pageAt q) = none) :
    (Room (growthFrames (tables s.ram) d top newTop) s → ∃ s', grow d top newTop s = .ok ⟨⟩ s' ∧
      GrownTo d top newTop held s s') ∧
      (¬ Room (growthFrames (tables s.ram) d top newTop) s →
        ∃ s', grow d top newTop s = .error .hang s') := by
  have place : At (d * pageSize) d := .direct (by have := space.low; omega)
  have user : 4 ≤ top / 4194304 ∧ top / 4194304 < 768 := by
    unfold kernelMem at low
    omega
  have page : Place.pageAt (top / 4096) = .page (top / 4194304) (top / 4096 % 1024) := by
    unfold Place.pageAt
    rw [Nat.div_div_eq_div_mul]
  obtain ⟨n, count⟩ : ∃ n, pageCeil newTop = top / 4096 + 1 + n := by
    unfold pageCeil
    exact ⟨(newTop + 4095) / 4096 - (top / 4096 + 1), by omega⟩
  have number : top / 4096 + 1 = 1024 * (top / 4194304) + (top / 4096 % 1024 + 1) := by omega
  have below : top / 4096 + 1 + n ≤ 768 * 1024 := by
    unfold pageCeil at count
    omega
  have start : advance (top - top % 4096) pageSize = (top / 4096 + 1) * 4096 := by
    unfold advance pageSize
    omega
  unfold growthFrames grow
  rw [count, Nat.add_sub_cancel_left, start, page]
  rw [count] at empty
  have loop : ∀ ptable, growPages (d * pageSize) newTop 1048577 ((top / 4096 + 1) * 4096) ptable
    (top / 4194304)
      (top / 4096 % 1024 + 1) = mapPages (d * pageSize) n (ptable, top / 4194304,
        top / 4096 % 1024 + 1) :=
    fun ptable => growPages_eq (by omega) (by omega) (by omega) (by omega)
  simp only [loop]
  by_cases room₁ : Room (vacant (tables s.ram) d (.table (top / 4194304))
      + vacant (tables s.ram) d (.page (top / 4194304) (top / 4096 % 1024))) s
  · obtain ⟨t, s₁, run₁, first, entry, zero₁⟩ :=
      ensureFirst_grows place space.toOwns user (Nat.mod_lt _ (by omega)) room₁
    have other : ∀ q, q ≠ top / 4096 →
        reach (tables s₁.ram) d (.pageAt q) = reach (tables s.ram) d (.pageAt q) := by
      refine fun q differs => first.reach_other ?_
      rw [← page, Set.mem_insert_iff, Set.mem_singleton_iff, Place.pageAt_inj]
      rintro (table | same)
      · cases table
      · exact differs same
    obtain ⟨ends, fails⟩ :=
      mapPages_spread (n := n) place (first.userSpace space) ⟨number, by omega, user, entry⟩ below
      fun q early late => (other q (by omega)).trans (empty q early late)
    rw [Nat.add_comm _ (newFrames _ n), ← first.room]
    refine ⟨fun room => ?_, fun full => ?_⟩
    · obtain ⟨s', run, spread⟩ := ends room
      have stays : ¬ Between (top / 4096 + 1) (top / 4096 + 1 + n) (top / 4096 / 1024) := by
        rintro ⟨early, _⟩
        unfold tableFrom at early
        omega
      have same : reach (tables s'.ram) d (.pageAt (top / 4096)) =
          reach (tables s₁.ram) d (.pageAt (top / 4096)) := by
        rw [spread.old _ (by omega), if_neg stays]
      refine ⟨s', (run_bind run₁).trans run, spread.space, first.used.trans spread.used,
        fun q outside => ?_, fun f here => ?_,
        fun q low high none => ?_, fun x apart free => ?_, spread.spaces.trans first.spaces⟩
      · rw [count] at outside ⊢
        rw [spread.old q (by omega), other q (by omega)]
      · rw [same]
        exact first.kept _ f here
      · rw [count] at high
        by_cases here : q = top / 4096
        · subst here
          rw [page] at none
          obtain ⟨f, reached, zero⟩ := zero₁ none
          refine ⟨f, same.trans (page ▸ reached), first.fresh _ f none reached, fun x inside => ?_⟩
          have apart : ¬ InTables (tables s₁.ram) d x := by
            rintro (directory | ⟨k, table⟩)
            · exact first.ne_directory reached (inside ▸ directory)
            · cases first.owned.unique _ _ _ (inside ▸ table) reached
          exact (spread.bytes x apart fun _ => inside ▸ first.owned.used_of_holds reached).trans
            (zero x inside)
        · obtain ⟨f, reached, fresh, zero⟩ := spread.new q (by omega) high
          exact ⟨f, reached, fun old => fresh (first.used old), zero⟩
      · obtain ⟨early, apart₁⟩ := first.other_bytes apart fun used => free (spread.used used)
        exact (spread.bytes x apart₁ fun used => first.used (free used)).trans early
    · obtain ⟨s', run⟩ := fails full
      exact ⟨s', (run_bind run₁).trans run⟩
  · obtain ⟨s', run⟩ := ensureFirst_full place space.toOwns user (Nat.mod_lt _ (by omega)) room₁
    exact ⟨fun room => absurd (le_trans (Nat.le_add_right _ _) room) room₁,
      fun _ => ⟨s', run_bind_error run⟩⟩

/-! ### The request -/

/-- The new top is noted. -/
def MemoryState.withTop (s : MemoryState) (pid : Pid) (newTop : UInt32) : MemoryState :=
  { s with spaces := Function.update s.spaces pid { s.spaces pid with heapTop := newTop } }

theorem newTop_toNat (top : UInt32) (n : Int) (low : 0 ≤ (top.toNat : Int) + n)
    (high : (top.toNat : Int) + n < 4294967296) :
    ((top + UInt32.ofInt n).toNat : Int) = top.toNat + n := by
  have value : (UInt32.ofInt n).toNat = (n % 4294967296).toNat := by
    unfold UInt32.ofInt
    rw [UInt32.toNat_ofNat']
    omega
  rw [UInt32.toNat_add, value]
  omega

theorem sbrk_up {top : UInt32} (here : (s.spaces pid).heapTop = top) (more : 0 < inc)
    {s' : MemoryState}
    (run : grow (pool.pdir pid) top.toNat (top + UInt32.ofInt inc).toNat s = .ok ⟨⟩ s') :
    sbrk pool pid inc s =
      .ok (top + UInt32.ofInt inc) (s'.withTop pid (top + UInt32.ofInt inc)) := by
  unfold sbrk
  rw [run_bind run_get]
  simp only [here, if_pos more]
  unfold grow at run
  rw [← bind_assoc]
  refine (run_bind run).trans ?_
  rfl

theorem sbrk_stuck {top : UInt32} (here : (s.spaces pid).heapTop = top) (more : 0 < inc)
    {s' : MemoryState} {e : Fault}
    (run : grow (pool.pdir pid) top.toNat (top + UInt32.ofInt inc).toNat s = .error e s') :
    sbrk pool pid inc s = .error e s' := by
  unfold sbrk
  rw [run_bind run_get]
  simp only [here, if_pos more]
  unfold grow at run
  rw [← bind_assoc]
  exact run_bind_error run

theorem sbrk_down {top : UInt32} (here : (s.spaces pid).heapTop = top) (less : inc < 0)
    (inside : top.toNat / 4096 * 4096 < (top + UInt32.ofInt inc).toNat) :
    sbrk pool pid inc s =
      .ok (top + UInt32.ofInt inc) (s.withTop pid (top + UInt32.ofInt inc)) := by
  unfold sbrk
  rw [run_bind run_get]
  simp only [here, if_pos less, if_neg (show ¬ 0 < inc by omega)]
  have run : shrinkPages (top + UInt32.ofInt inc).toNat (top.toNat / 4096 * 4096) 1048577
    (top.toNat / 4096 % 1024) s
      = .ok ⟨⟩ s := by
    unfold shrinkPages
    rw [if_neg (by omega)]
    rfl
  refine (run_bind run).trans ?_
  rfl

/-- **The loop that is to remove pages never ends well.** -/
theorem shrinkPages_never {newTop removed fuel idx : Nat} (reached : newTop ≤ removed)
    {s s' : MemoryState} :
    shrinkPages newTop removed fuel idx s ≠ .ok ⟨⟩ s' := by
  induction fuel generalizing idx s with
  | zero => exact fun run => (throw_eq_ok.mp run).elim
  | succ fuel ih =>
      intro run
      unfold shrinkPages at run
      rw [if_pos reached] at run
      obtain ⟨pte, s₁, _, run⟩ := bind_eq_ok.mp run
      obtain ⟨_, s₂, _, run⟩ := bind_eq_ok.mp run
      obtain ⟨_, s₃, _, run⟩ := bind_eq_ok.mp run
      exact ih run

theorem sbrk_never {top : UInt32} (here : (s.spaces pid).heapTop = top) (less : inc < 0)
    (outside : (top + UInt32.ofInt inc).toNat ≤ top.toNat / 4096 * 4096) {s' : MemoryState}
    {r : UInt32} :
    sbrk pool pid inc s ≠ .ok r s' := by
  intro run
  unfold sbrk at run
  rw [run_bind run_get] at run
  simp only [here, if_pos less, if_neg (show ¬ 0 < inc by omega)] at run
  obtain ⟨_, s₁, loop, _⟩ := bind_eq_ok.mp run
  exact shrinkPages_never outside loop

/-! ### The pages behind it -/

theorem UserSpace.withTop {newTop : UInt32} (space : UserSpace d held s) :
    UserSpace d held (s.withTop pid newTop) :=
  ⟨⟨space.owned, space.low, space.cursor⟩, space.kernel⟩

@[simp] theorem withTop_spaces {newTop : UInt32} :
    (s.withTop pid newTop).spaces pid = { s.spaces pid with heapTop := newTop } :=
  Function.update_self ..

/-- What is to be shown of the address space for the new top. -/
theorem laid_withTop {held' : Set Nat} {newTop : UInt32}
    (start : kernelMem ≤ (s.spaces pid).heapStart.toNat)
    (low : (s.spaces pid).heapStart.toNat ≤ newTop.toNat) (high : newTop.toNat ≤ 3221184512)
    (spaces : s'.spaces = s.spaces) (space : UserSpace (pool.pdir pid) held' s')
    (stack : StackMapped (tables s'.ram) (pool.pdir pid))
    (heap : ∀ q, (s.spaces pid).heapStart.toNat / 4096 ≤ q → q < pageCeil newTop.toNat →
      (reach (tables s'.ram) (pool.pdir pid) (.pageAt q)).isSome)
    (free : ∀ q, pageCeil newTop.toNat ≤ q → q < 786422 →
      reach (tables s'.ram) (pool.pdir pid) (.pageAt q) = none) :
    HeapLaid pool pid held' (s'.withTop pid newTop) where
  toUserSpace := space.withTop
  stack := stack
  start := by rw [withTop_spaces, spaces]; exact start
  ordered := by rw [withTop_spaces, spaces]; exact low
  below := by rw [withTop_spaces]; exact high
  heap := by rw [withTop_spaces, spaces]; exact heap
  free := by rw [withTop_spaces]; exact free

/-- Within one page nothing is to be done. -/
theorem heapMoved_same {newTop : UInt32} (laid : HeapLaid pool pid held s)
    (low : (s.spaces pid).heapStart.toNat ≤ newTop.toNat) (high : newTop.toNat ≤ 3221184512)
    (same : pageCeil newTop.toNat = pageCeil (s.spaces pid).heapTop.toNat) :
    HeapMoved pool pid held s newTop (s.withTop pid newTop) where
  laid := ⟨held, Set.Subset.refl held,
    laid_withTop laid.start low high rfl laid.toUserSpace laid.stack
    (by rw [same]; exact laid.heap) (by rw [same]; exact laid.free)⟩
  spaces := rfl
  kept := fun q _ _ _ => rfl
  grown := fun q late early => absurd early (by omega)
  idle := fun q f late early => absurd early (by omega)
  bytes := fun x _ _ => rfl

/-- **A higher top**, once the pages are there: the stack must not have been in the way. -/
theorem heapMoved_up {newTop : UInt32} (laid : HeapLaid pool pid held s)
    (more : (s.spaces pid).heapTop.toNat < newTop.toNat) (high : newTop.toNat ≤ 3221184512)
    (grown : GrownTo (pool.pdir pid) (s.spaces pid).heapTop.toNat newTop.toNat held s s') :
    HeapMoved pool pid held s newTop (s'.withTop pid newTop) ↔
      0xBFC00000 ≤ (s.spaces pid).heapTop.toNat ∨ newTop.toNat ≤ 0xBFC00000 := by
  have start := laid.start
  have ordered := laid.ordered
  obtain ⟨top, is_top⟩ : ∃ n, n = (s.spaces pid).heapTop.toNat := ⟨_, rfl⟩
  rw [← is_top] at grown more ordered ⊢
  have stack : ∀ j, Place.page 767 j = .pageAt (785408 + j) ∨ 1024 ≤ j := by
    intro j
    by_cases inside : j < 1024
    · refine .inl ?_
      unfold Place.pageAt
      congr 1 <;> omega
    · exact .inr (by omega)
  constructor
  · intro moved
    by_contra between
    -- the last page of the stack is gone
    have gone : Between (top / 4096 + 1) (pageCeil newTop.toNat) 767 := by
      unfold Between tableFrom pageCeil
      omega
    have lost := grown.old 786431 (.inr (by unfold pageCeil; omega))
    rw [show 786431 / 1024 = 767 by omega, if_pos gone] at lost
    have kept := moved.kept 786431 (by omega) (by omega) (by rw [← is_top]; unfold pageCeil; omega)
    have mapped := laid.stack 1023 (by omega) (by omega)
    rw [(stack 1023).resolve_right (by omega)] at mapped
    rw [← kept] at mapped
    change (reach (tables s'.ram) (pool.pdir pid) (.pageAt 786431)).isSome at mapped
    rw [lost] at mapped
    cases mapped
  · intro apart
    have kept : ∀ q, 4096 ≤ q → q < 786432 → (q < pageCeil top ↔ q < pageCeil newTop.toNat) →
        reach (tables s'.ram) (pool.pdir pid) (.pageAt q) =
          reach (tables s.ram) (pool.pdir pid) (.pageAt q) := by
      intro q user last sides
      by_cases page : q = top / 4096 ∧ q < pageCeil top
      · obtain ⟨f, here⟩ := Option.isSome_iff_exists.mp (laid.heap q (by omega) (is_top ▸ page.2))
        rw [here]
        rw [page.1] at here ⊢
        exact grown.first f here
      · rw [grown.old q (by unfold pageCeil at *; omega)]
        by_cases gone : Between (top / 4096 + 1) (pageCeil newTop.toNat) (q / 1024)
        · obtain ⟨early, late⟩ := gone
          unfold tableFrom at early late
          unfold pageCeil at *
          rw [laid.free q (by rw [← is_top]; unfold pageCeil; omega) (by omega)]
          exact ite_self none
        · rw [if_neg gone]
    have new : ∀ q, pageCeil top ≤ q → q < pageCeil newTop.toNat → ∃ f,
        reach (tables s'.ram) (pool.pdir pid) (.pageAt q) = some f ∧ f ∉ usedFrames s ∧
        Zeroed f s'.ram := by
      intro q late early
      unfold pageCeil at *
      exact grown.new q (by omega) early (laid.free q (by rw [← is_top]; exact late) (by omega))
    obtain ⟨held', wider, space⟩ := grown.space
    subst is_top
    refine ⟨⟨held', wider,
      laid_withTop start (by omega) high grown.spaces space (fun j first last => ?_)
      (fun q late early => ?_) fun q late early => ?_⟩, ?_, kept, new,
      fun q f late early => ?_, grown.bytes⟩
    · have here := stack j
      have same := kept (785408 + j) (by omega) (by omega) (by unfold pageCeil; omega)
      rw [← (stack j).resolve_right (by omega)] at same
      rw [same]
      exact laid.stack j first last
    · by_cases old : q < pageCeil (s.spaces pid).heapTop.toNat
      · rw [kept q (by unfold kernelMem at start; omega)
          (by unfold pageCeil at early; omega) (by omega)]
        exact laid.heap q late old
      · obtain ⟨f, here, _⟩ := new q (by omega) early
        rw [here]
        rfl
    · have order : pageCeil (s.spaces pid).heapTop.toNat ≤ pageCeil newTop.toNat := by
        unfold pageCeil
        omega
      rw [kept q (by unfold pageCeil at late; unfold kernelMem at start; omega)
        (by omega) (by omega)]
      exact laid.free q (by omega) early
    · unfold MemoryState.withTop
      rw [grown.spaces]
    · unfold pageCeil at late early
      omega

/-! ### Both directions -/

/-- What lies between the tops was given and taken away again. -/
theorem heapMoved_back {newTop : UInt32} {s₁ s₂ : MemoryState} (laid : HeapLaid pool pid held s)
    (high : newTop.toNat ≤ 3221184512) (more : (s.spaces pid).heapTop.toNat ≤ newTop.toNat)
    (up : HeapMoved pool pid held s newTop s₁)
    (down : HeapMoved pool pid held s₁ (s.spaces pid).heapTop s₂) (q : Nat) (user : 4096 ≤ q)
    (last : q < 786432) :
    reach (tables s₂.ram) (pool.pdir pid) (.pageAt q) =
      reach (tables s.ram) (pool.pdir pid) (.pageAt q) := by
  have top₁ : (s₁.spaces pid).heapTop = newTop := by rw [up.spaces, Function.update_self]
  have top₂ : (s₂.spaces pid).heapTop = (s.spaces pid).heapTop := by
    rw [down.spaces, Function.update_self]
  have sides := down.kept q user last
  rw [top₁] at sides
  by_cases between : pageCeil (s.spaces pid).heapTop.toNat ≤ q ∧ q < pageCeil newTop.toNat
  · obtain ⟨_, _, laid₂⟩ := down.laid
    have below : q < 786422 := by
      have right := between.2
      unfold pageCeil at right
      omega
    rw [laid.free q between.1 below, laid₂.free q (by rw [top₂]; exact between.1) below]
  · have order : pageCeil (s.spaces pid).heapTop.toNat ≤ pageCeil newTop.toNat := by
      unfold pageCeil
      omega
    rw [sides (by omega), up.kept q user last (by omega)]

/-- A higher top is served if there are frames for it and the stack is not in the way. -/
theorem served_up {newTop : UInt32} (laid : HeapLaid pool pid held s) (more : 0 < inc)
    (is_newTop : newTop = (s.spaces pid).heapTop + UInt32.ofInt inc)
    (value : (newTop.toNat : Int) = (s.spaces pid).heapTop.toNat + inc)
    (high : newTop.toNat ≤ 3221184512) :
    Served pool pid held inc s ↔
    HeapFits (pool.pdir pid) (s.spaces pid).heapTop.toNat newTop.toNat s := by
  have empty : ∀ q, (s.spaces pid).heapTop.toNat / 4096 + 1 ≤ q → q < pageCeil newTop.toNat →
      reach (tables s.ram) (pool.pdir pid) (.pageAt q) = none := fun q late early =>
    laid.free q (by unfold pageCeil; omega) (by unfold pageCeil at early; omega)
  obtain ⟨runs, stuck⟩ :=
    grow_run laid.toUserSpace (le_trans laid.start laid.ordered) (by omega) high empty
  unfold Served
  rw [← is_newTop]
  by_cases room :
    Room (growthFrames (tables s.ram) (pool.pdir pid) (s.spaces pid).heapTop.toNat newTop.toNat) s
  · obtain ⟨s', run, grown⟩ := runs room
    have moved := heapMoved_up laid (by omega) high grown
    rw [is_newTop] at run
    have ends := sbrk_up rfl more run
    rw [← is_newTop] at ends
    constructor
    · rintro ⟨s'', run', here⟩
      rw [ends] at run'
      cases run'
      exact ⟨fun _ => room, fun _ => moved.mp here, fun less => absurd less (by omega)⟩
    · exact fun fits => ⟨_, ends, moved.mpr (fits.stack (by omega))⟩
  · obtain ⟨s', run⟩ := stuck room
    rw [is_newTop] at run
    have ends := sbrk_stuck rfl more run
    constructor
    · rintro ⟨s'', run', _⟩
      rw [ends] at run'
      cases run'
    · exact fun fits => absurd (fits.frames (by omega)) room

/-- A lower top is served within the page of the old one. -/
theorem served_down {newTop : UInt32} (laid : HeapLaid pool pid held s) (less : inc < 0)
    (is_newTop : newTop = (s.spaces pid).heapTop + UInt32.ofInt inc)
    (value : (newTop.toNat : Int) = (s.spaces pid).heapTop.toNat + inc)
    (low : (s.spaces pid).heapStart.toNat ≤ newTop.toNat) :
    Served pool pid held inc s ↔
    HeapFits (pool.pdir pid) (s.spaces pid).heapTop.toNat newTop.toNat s := by
  have below := laid.below
  unfold Served
  rw [← is_newTop]
  by_cases inside : (s.spaces pid).heapTop.toNat / 4096 * 4096 < newTop.toNat
  · have ends : sbrk pool pid inc s = .ok _ _ := sbrk_down rfl less (is_newTop ▸ inside)
    rw [← is_newTop] at ends
    refine ⟨fun _ => ⟨fun more => absurd more (by omega), fun more => absurd more (by omega),
      fun _ => inside⟩, fun _ =>
      ⟨_, ends, heapMoved_same laid low (by omega) ?_⟩⟩
    unfold pageCeil
    omega
  · refine ⟨fun ⟨s', run, _⟩ => ?_, fun fits => absurd (fits.shrink (by omega)) inside⟩
    exact (sbrk_never rfl less (is_newTop ▸ Nat.le_of_not_lt inside) run).elim

/-- The top stays. -/
theorem served_zero (laid : HeapLaid pool pid held s) : Served pool pid held 0 s := by
  have same : (s.spaces pid).heapTop + UInt32.ofInt 0 = (s.spaces pid).heapTop := UInt32.add_zero _
  have ends : sbrk pool pid 0 s = .ok ((s.spaces pid).heapTop + UInt32.ofInt 0)
      (s.withTop pid ((s.spaces pid).heapTop + UInt32.ofInt 0)) := rfl
  refine ⟨_, ends, heapMoved_same laid ?_ ?_ ?_⟩
  · rw [same]
    exact laid.ordered
  · rw [same]
    exact laid.below
  · rw [same]

/-- **`sbrk` serves exactly the requests that fit**, and where one and its opposite are served the
mapping is restored. -/
theorem sbrk_iff (laid : HeapLaid pool pid held s)
    (low : ((s.spaces pid).heapStart.toNat : Int) ≤ (s.spaces pid).heapTop.toNat + inc)
    (high : ((s.spaces pid).heapTop.toNat : Int) + inc ≤ 3221184512) :
    (Served pool pid held inc s ↔
      HeapFits (pool.pdir pid) (s.spaces pid).heapTop.toNat
        ((s.spaces pid).heapTop.toNat + inc).toNat s) ∧
    (0 ≤ inc → Served pool pid held inc s → ∀ r₁ s₁, sbrk pool pid inc s = .ok r₁ s₁ →
      Served pool pid held (-inc) s₁ →
      ∀ r₂ s₂, sbrk pool pid (-inc) s₁ = .ok r₂ s₂ → ∀ q, 4096 ≤ q → q < 786432 →
        reach (tables s₂.ram) (pool.pdir pid) (.pageAt q) = reach (tables s.ram) (pool.pdir pid)
          (.pageAt q)) := by
  have value := newTop_toNat (s.spaces pid).heapTop inc (by omega) (by omega)
  obtain ⟨newTop, is_newTop⟩ : ∃ r, r = (s.spaces pid).heapTop + UInt32.ofInt inc := ⟨_, rfl⟩
  rw [← is_newTop] at value
  constructor
  · rw [← value, Int.toNat_natCast]
    rcases lt_trichotomy 0 inc with more | zero | less
    · exact served_up laid more is_newTop value (by omega)
    · subst zero
      exact ⟨fun _ => ⟨fun more => absurd more (by omega), fun more => absurd more (by omega),
        fun less => absurd less (by omega)⟩, fun _ => served_zero laid⟩
    · exact served_down laid less is_newTop value (by omega)
  · rintro up ⟨s', run, moved⟩ r₁ s₁ run₁ ⟨s'', run', back⟩ r₂ s₂ run₂
    obtain ⟨_, rfl⟩ : r₁ = _ ∧ s₁ = s' := by
      rw [run] at run₁
      cases run₁
      exact ⟨rfl, rfl⟩
    obtain ⟨_, rfl⟩ : r₂ = _ ∧ s₂ = s'' := by
      rw [run'] at run₂
      cases run₂
      exact ⟨rfl, rfl⟩
    rw [← is_newTop] at moved
    have top₁ : (s₁.spaces pid).heapTop = newTop := by rw [moved.spaces, Function.update_self]
    have again : newTop + UInt32.ofInt (-inc) = (s.spaces pid).heapTop := by
      have there := newTop_toNat newTop (-inc) (by omega) (by omega)
      exact UInt32.toNat_inj.mp (by omega)
    rw [top₁, again] at back
    exact heapMoved_back laid (by omega) (by omega) moved back

end Heap

/-! ### A run -/

/-- A process with a stack and an empty heap at 16 MB. -/
theorem boot_heap : ∃ s, HeapLaid bootPool 0 ∅ s ∧ Room 100 s ∧ (s.spaces 0).heapTop = 16777216 ∧
    (s.spaces 0).heapStart = 16777216 := by
  have place : At (16 * pageSize) 16 := .direct (by omega)
  obtain ⟨s₁, s₂, _, _, dir, grows⟩ :=
    createStackPage_kernelDir (s := bootMemory) place (by omega) (by decide) (room_boot (by omega))
  have space := dir.userSpace
  rw [usedFrames_boot] at space grows
  have spaces : s₂.spaces = bootMemory.spaces := grows.spaces.trans dir.grows.spaces
  refine ⟨s₂, ⟨grows.userSpace space, fun j low high => ?_, ?_, ?_, ?_, ?_, ?_⟩,
    (grows.room 100).mpr ((dir.grows.room _).mpr (room_boot (by omega))),
    by rw [spaces]; rfl, by rw [spaces]; rfl⟩
  · rw [Option.isSome_iff_ne_none, ne_eq]
    show ¬ reach (tables s₂.ram) 16 (.page 767 j) = none
    rw [grows.places _ (dir.nothing fun k _ same => by cases same), not_not]
    exact .inr ⟨j, low, high, rfl⟩
  · rw [spaces]
    decide
  · rw [spaces]
    decide
  · rw [spaces]
    decide
  · rw [spaces]
    intro q late early
    change 16777216 / 4096 ≤ q at late
    change q < (16777216 + 4095) / 4096 at early
    omega
  · intro q _ below
    show reach (tables s₂.ram) 16 (.pageAt q) = none
    rw [grows.places _ (dir.nothing fun k _ same => by cases same)]
    rintro (table | ⟨j, low, high, same⟩)
    · cases table
    · unfold Place.pageAt at same
      injection same with tables entries
      omega

/-- Two pages and their table for an empty heap. -/
theorem sbrk_grows : ∃ s, HeapLaid bootPool 0 ∅ s ∧ Served bootPool 0 ∅ 5000 s := by
  obtain ⟨s, laid, room, top, start⟩ := boot_heap
  refine ⟨s, laid,
    (sbrk_iff laid ?_ ?_).1.mpr ⟨fun _ => ?_, fun _ => ?_, fun less => absurd less ?_⟩⟩
  · rw [top, start]
    decide
  · rw [top]
    decide
  · rw [top]
    refine le_trans ?_ room
    unfold growthFrames vacant
    rw [show newFrames (UInt32.toNat 16777216 / 4096 + 1)
      (pageCeil ((UInt32.toNat 16777216 : Int) + 5000).toNat
      - (UInt32.toNat 16777216 / 4096 + 1)) = 1 by decide]
    split <;> split <;> omega
  · rw [top]
    decide
  · rw [top]
    decide

/-- A page that was given is not taken back: the request never ends. -/
theorem sbrk_back : ∃ held s, HeapLaid bootPool 0 held s ∧
    ((s.spaces 0).heapStart.toNat : Int) ≤ (s.spaces 0).heapTop.toNat + -4096 ∧
    ¬ Served bootPool 0 held (-4096) s := by
  obtain ⟨s, laid, room, top, start⟩ := boot_heap
  have value : ((16777216 + UInt32.ofInt 4096 : UInt32).toNat) = 16781312 := by decide
  have fits : HeapFits 16 (s.spaces 0).heapTop.toNat 16781312 s := by
    rw [top]
    refine ⟨fun _ => le_trans ?_ room, fun _ => by decide, fun less => absurd less (by decide)⟩
    unfold growthFrames vacant
    rw [show newFrames (UInt32.toNat 16777216 / 4096 + 1) (pageCeil 16781312 -
      (UInt32.toNat 16777216 / 4096 + 1)) = 0 by
      decide]
    split <;> split <;> omega
  have served : Served bootPool 0 ∅ 4096 s ↔
    HeapFits 16 _ (16777216 + UInt32.ofInt 4096 : UInt32).toNat s :=
    served_up laid (by omega) (by rw [top]) (by rw [top, value]; decide) (by decide)
  obtain ⟨s₁, _, moved⟩ := served.mpr (by rw [value]; exact fits)
  obtain ⟨held, _, laid₁⟩ := moved.laid
  have top₁ : (s₁.spaces 0).heapTop = 16777216 + UInt32.ofInt 4096 := by
    rw [moved.spaces, Function.update_self, top]
  have start₁ : (s₁.spaces 0).heapStart = 16777216 := by
    rw [moved.spaces, Function.update_self, start]
  refine ⟨held, s₁, laid₁, ?_, fun ⟨s₂, run, _⟩ => ?_⟩
  · rw [top₁, start₁]
    decide
  · exact sbrk_never top₁ (by omega) (by decide) run

end NjuOs.Memory
