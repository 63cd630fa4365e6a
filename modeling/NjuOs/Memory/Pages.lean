/-
**Runs of pages.**

`load_segment` and `sbrk` map one page after the other; `mapPages` is that loop with the number of
its turns. Where the pages that it is to map, and the tables that begin among them, are not there
yet, the address space grows (`mapPages_grows`), or the last free frame is gone (`mapPages_full`).

At the border of a table the loop never looks at the directory, and what stood there is lost. It
reads no other memory either. So it does the same from any state as from the one in which these
entries were cleared before (`mapPages_forgets`).
-/

import NjuOs.Memory.Growth

namespace NjuOs.Memory

open NjuOs.Lib

/-- The first table that begins at page `p` or behind it. -/
def tableFrom (p : Nat) : Nat := (p + 1023) / 1024

/-- The loop over `nextPage`: `n` pages. -/
def mapPages (pdir : Nat) : Nat → Nat × Nat × Nat → Mm PUnit
  | 0, _ => pure ⟨⟩
  | n + 1, (ptable, pdirIdx, ptableIdx) => do
      let next ← nextPage pdir ptable pdirIdx ptableIdx
      mapPages pdir n next

/-- The first page that is not below an address. -/
def pageCeil (a : Nat) : Nat := (a + 4095) / 4096

/-- The loop of `sbrk`. -/
theorem growPages_eq {pdir top : Nat} {n fuel addr ptable i j : Nat} (aligned : addr % 4096 = 0)
    (count : pageCeil top = addr / 4096 + n) (enough : n < fuel)
    (below : addr + n * 4096 < 4294967296) :
    growPages pdir top fuel addr ptable i j = mapPages pdir n (ptable, i, j) := by
  unfold pageCeil at count
  induction n generalizing fuel addr ptable i j with
  | zero =>
      obtain ⟨fuel, rfl⟩ : ∃ m, fuel = m + 1 := ⟨fuel - 1, by omega⟩
      unfold growPages mapPages
      rw [if_neg (by omega)]
  | succ n ih =>
      obtain ⟨fuel, rfl⟩ : ∃ m, fuel = m + 1 := ⟨fuel - 1, by omega⟩
      unfold growPages mapPages
      rw [if_pos (by omega)]
      congr 1
      funext next
      obtain ⟨ptable', i', j'⟩ := next
      have step : advance addr pageSize = addr + 4096 := by
        unfold advance pageSize
        omega
      rw [step]
      exact ih (by omega) (by omega) (by omega) (by omega)

/-- The loop of `load_segment`. -/
theorem loadPages_eq {pdir : Nat} {n fuel ptable i j : Nat} {rest : Int}
    (count : pageCeil rest.toNat = n) (enough : n ≤ fuel) :
    loadPages pdir fuel rest ptable i j = mapPages pdir n (ptable, i, j) := by
  unfold pageCeil at count
  induction n generalizing fuel rest ptable i j with
  | zero =>
      cases fuel with
      | zero => rfl
      | succ fuel =>
          unfold loadPages mapPages
          rw [if_neg (by omega)]
  | succ n ih =>
      obtain ⟨fuel, rfl⟩ : ∃ m, fuel = m + 1 := ⟨fuel - 1, by omega⟩
      unfold loadPages mapPages
      rw [if_pos (by omega)]
      congr 1
      funext next
      obtain ⟨ptable', i', j'⟩ := next
      exact ih (by omega) (by omega)

section Runs

variable {A d t i j p q n : Nat} {held : Set Nat} {s s₀ : MemoryState}

theorem newFrames_succ : newFrames p (n + 1) = newFrames p 1 + newFrames (p + 1) n := by
  unfold newFrames
  omega

theorem newPlaces_succ {a : Place} : a ∈ newPlaces p 1 ∪ newPlaces (p + 1) n ↔
    a ∈ newPlaces p (n + 1) := by
  rw [Set.mem_union, newPlaces_one]
  constructor
  · rintro (here | ⟨q, low, high, here⟩)
    · exact ⟨p, by omega, by omega, here⟩
    · exact ⟨q, by omega, by omega, here⟩
  · rintro ⟨q, low, high, here⟩
    by_cases first : q = p
    · exact .inl (first ▸ here)
    · exact .inr ⟨q, by omega, by omega, here⟩

theorem page_newPlaces : Place.pageAt q ∈ newPlaces p n ↔ p ≤ q ∧ q < p + n := by
  constructor
  · rintro ⟨r, low, high, here | ⟨_, other⟩⟩
    · rw [Place.pageAt_inj.mp here]
      exact ⟨low, high⟩
    · cases other
  · exact fun inside => ⟨q, inside.1, inside.2, .inl rfl⟩

theorem table_newPlaces : Place.table i ∈ newPlaces p n ↔ p ≤ 1024 * i ∧ 1024 * i < p + n := by
  constructor
  · rintro ⟨r, low, high, other | ⟨border, here⟩⟩
    · cases other
    · injection here with index
      omega
  · exact fun inside => ⟨1024 * i, inside.1, inside.2, .inr ⟨by omega, by congr 1; omega⟩⟩

/-- What is still to be mapped behind the first turn is not there yet. -/
theorem Grows.run_rest {m : Nat} (first : Grows d 768 held (newPlaces p 1) m s₀ s)
    (below : p + (n + 1) ≤ 768 * 1024)
    (empty : ∀ q, p ≤ q → q < p + (n + 1) → reach (tables s₀.ram) d (.pageAt q) = none)
    (border : ∀ k, tableFrom p ≤ k → k < tableFrom (p + (n + 1)) → tables s₀.ram d k = none) :
    (∀ q, p + 1 ≤ q → q < p + 1 + n → reach (tables s.ram) d (.pageAt q) = none) ∧
      ∀ k, tableFrom (p + 1) ≤ k → k < tableFrom (p + 1 + n) → tables s.ram d k = none := by
  unfold tableFrom at *
  refine ⟨fun q low high => ?_, fun k low high => ?_⟩
  · rw [first.reach_other (by rw [page_newPlaces]; omega)]
    exact empty q (by omega) (by omega)
  · have small : k < 768 := by omega
    have same := first.reach_other (a := .table k) (by rw [table_newPlaces]; omega)
    rw [reach_table small, reach_table small] at same
    exact same.trans (border k (by omega) (by omega))

/-- **A run of pages**: the pages are new and zero, and so are their tables. -/
theorem mapPages_grows (place : At A d) (owns : Owns d held s) (cursor : Cursor d p t i j s)
    (below : p + n ≤ 768 * 1024)
    (empty : ∀ q, p ≤ q → q < p + n → reach (tables s.ram) d (.pageAt q) = none)
    (border : ∀ k, tableFrom p ≤ k → k < tableFrom (p + n) → tables s.ram d k = none)
    (room : Room (newFrames p n) s) :
    ∃ s', mapPages A n (t * pageSize, i, j) s = .ok ⟨⟩ s' ∧
    Grows d 768 held (newPlaces p n) (newFrames p n) s s' ∧
      ∀ q, p ≤ q → q < p + n → ∃ f, reach (tables s'.ram) d (.pageAt q) = some f ∧
      Zeroed f s'.ram := by
  induction n generalizing p t i j s with
  | zero =>
      refine ⟨s, rfl, ?_, fun q low high => absurd high (by omega)⟩
      have nothing : newFrames p 0 = 0 := by
        unfold newFrames
        omega
      rw [nothing]
      refine (Grows.refl owns).places_eq fun a => ⟨fun member => member.elim, ?_⟩
      rintro ⟨q, low, high, _⟩
      exact absurd high (by omega)
  | succ n ih =>
      rw [newFrames_succ] at room
      obtain ⟨t', i', j', s₁, turn, cursor', first, f, page, zero⟩ :=
        nextPage_grows place owns cursor (by omega)
        (empty p (Nat.le_refl p) (by omega))
        (fun start => border _ (by unfold tableFrom; omega) (by unfold tableFrom; omega))
        (le_trans (Nat.le_add_right _ _) room)
      obtain ⟨empty', border'⟩ := first.run_rest below empty border
      obtain ⟨s', rest, second, zeroed⟩ := ih first.toOwns cursor' (by omega) empty' border'
        ((first.room _).mpr (by rwa [Nat.add_comm] at room))
      refine ⟨s', ?_, newFrames_succ ▸ (first.trans second).places_eq fun a => newPlaces_succ,
        fun q low high => ?_⟩
      · unfold mapPages
        rw [run_bind turn]
        exact rest
      · by_cases here : q = p
        · subst here
          refine ⟨f, second.kept _ _ page, fun x inside => ?_⟩
          rw [second.page_bytes first.toOwns (inside ▸ page), zero x inside]
        · exact zeroed q (by omega) (by omega)

/-! ### Without a free frame -/

theorem nextPage_full (cursor : s.bitmapIdx < pageNum) (number : p = 1024 * i + j)
    (behind : 0 < j ∧ j ≤ 1024) (full : ¬ Room (newFrames p 1) s) :
    ∃ s', nextPage A t i j s = .error .hang s' := by
  unfold newFrames at full
  unfold nextPage
  by_cases room : Room 1 s
  · obtain ⟨f, s₁, taken, takes, cursor₁⟩ := take_frame cursor room
    have last : j = 1024 := by
      by_contra other
      rw [show 1 + ((p + 1 + 1023) / 1024 - (p + 1023) / 1024) = 1 by omega] at full
      exact full room
    rw [show 1 + ((p + 1 + 1023) / 1024 - (p + 1023) / 1024) = 1 + 1 by omega] at full
    refine ⟨s₁.withRam (s₁.ram.clear (f * pageSize) pageSize), ?_⟩
    rw [run_bind taken, run_bind (memset_at (.direct takes.range.2)), if_pos last]
    exact run_bind_error (newTable_full cursor₁ fun more => full ((takes.room 1).mp more))
  · exact ⟨s, run_bind_error (getIdlePage_full cursor room)⟩

/-- **Without as many frames the run never ends.** -/
theorem mapPages_full (place : At A d) (owns : Owns d held s) (cursor : Cursor d p t i j s)
    (below : p + n ≤ 768 * 1024)
    (empty : ∀ q, p ≤ q → q < p + n → reach (tables s.ram) d (.pageAt q) = none)
    (border : ∀ k, tableFrom p ≤ k → k < tableFrom (p + n) → tables s.ram d k = none)
    (full : ¬ Room (newFrames p n) s) :
    ∃ s', mapPages A n (t * pageSize, i, j) s = .error .hang s' := by
  induction n generalizing p t i j s with
  | zero =>
      refine absurd (Nat.zero_le _) (show ¬ 0 ≤ idleCount s.pageBitmap pageNum from ?_)
      have nothing : newFrames p 0 = 0 := by
        unfold newFrames
        omega
      rwa [nothing] at full
  | succ n ih =>
      rw [newFrames_succ] at full
      unfold mapPages
      by_cases room : Room (newFrames p 1) s
      · obtain ⟨t', i', j', s₁, turn, cursor', first, _⟩ :=
          nextPage_grows place owns cursor (by omega)
          (empty p (Nat.le_refl p) (by omega))
          (fun start => border _ (by unfold tableFrom; omega) (by unfold tableFrom; omega)) room
        obtain ⟨empty', border'⟩ := first.run_rest below empty border
        rw [run_bind turn]
        refine ih first.toOwns cursor' (by omega) empty' border' fun more => ?_
        rw [first.room, Nat.add_comm] at more
        exact full more
      · obtain ⟨s', turn⟩ :=
          nextPage_full (A := A) (t := t * pageSize) owns.cursor cursor.page cursor.behind room
        exact ⟨s', run_bind_error turn⟩

/-! ### The entries at the borders -/

/-- `t` is `s` with other bytes in `E`. -/
structure SameBut (E : Set Nat) (s t : MemoryState) : Prop where
  state : t = s.withRam t.ram
  bytes : ∀ x, x ∉ E → t.ram x = s.ram x

variable {E : Set Nat}

theorem SameBut.mono {E' : Set Nat} {t : MemoryState} (same : SameBut E s t) (wider : E ⊆ E') :
    SameBut E' s t :=
  ⟨same.state, fun x outside => same.bytes x fun inside => outside (wider inside)⟩

theorem SameBut.eq {t : MemoryState} (same : SameBut E s t) (nothing : ∀ x, x ∉ E) : t = s := by
  have ram : t.ram = s.ram := funext fun x => same.bytes x (nothing x)
  rw [same.state, ram]
  rfl

theorem getIdlePage_alike : Alike (SameBut E) getIdlePage fun _ => SameBut E := by
  intro s t same
  obtain ⟨r, is_r⟩ : ∃ r, r = t.ram := ⟨_, rfl⟩
  have state := same.state
  have bytes := same.bytes
  rw [← is_r] at state bytes
  subst state
  cases search : firstIdle s.pageBitmap pageNum pageNum s.bitmapIdx with
  | none =>
      have stuck : ∀ r, getIdlePage (s.withRam r) = .error .hang (s.withRam r) := by
        intro r
        unfold getIdlePage
        rw [run_bind run_get,
          show firstIdle (s.withRam r).pageBitmap pageNum pageNum (s.withRam r).bitmapIdx =
          none from search]
        rfl
      refine .intro (fun a s' run => ?_) fun e s' run => ⟨s.withRam r, ?_⟩
      · cases (stuck s.ram).symm.trans run
      · cases (stuck s.ram).symm.trans run
        exact stuck r
  | some b =>
      have found :
          ∀ r, getIdlePage (s.withRam r) = .ok (kernelMem + b * 4096) ((s.marked b).withRam r) := by
        intro r
        unfold getIdlePage
        rw [run_bind run_get,
          show firstIdle (s.withRam r).pageBitmap pageNum pageNum (s.withRam r).bitmapIdx =
          some b from search]
        rfl
      exact .ok (found s.ram) ⟨(s.marked b).withRam r, found r, rfl, bytes⟩

/-- A store, at an address that does not depend on the state. -/
theorem store_alike {va n : Nat} {E' : Set Nat} (F : Nat → Store → Store)
    (kept : ∀ pa, (∀ s, kernelPa va n s = .ok pa s) → ∀ r r' : Store, (∀ x, x ∉ E → r' x = r x) →
      ∀ x, x ∉ E' → F pa r' x = F pa r x) :
    Alike (SameBut E) (do
      let pa ← kernelPa va n
      modify fun s => s.withRam (F pa s.ram)) fun _ => SameBut E' := by
  intro s t same
  have stored : ∀ pa, (∀ s, kernelPa va n s = .ok pa s) →
      SameBut E' (s.withRam (F pa s.ram)) (t.withRam (F pa t.ram)) := by
    intro pa found
    refine ⟨?_, fun x outside => kept pa found s.ram t.ram same.bytes x outside⟩
    rw [same.state]
    rfl
  by_cases low : va + n ≤ physMem
  · have found : ∀ s, kernelPa va n s = .ok va s := fun s => kernelPa_direct low
    refine .bind_ok (found s) (.modify ⟨_, ?_, stored va found⟩)
    rw [run_bind (found t)]
    rfl
  · by_cases high : kOffset ≤ va ∧ va + n ≤ kOffset + physMem
    · have found : ∀ s, kernelPa va n s = .ok (va - kOffset) s := fun s => by
        unfold kernelPa
        rw [if_neg low, if_pos high]
        rfl
      refine .bind_ok (found s) (.modify ⟨_, ?_, stored _ found⟩)
      rw [run_bind (found t)]
      rfl
    · have fails : ∀ s, kernelPa va n s = .error .pageFault s := fun s => by
        unfold kernelPa
        rw [if_neg low, if_neg high]
        rfl
      refine .intro (fun a s' run => ?_) fun e s' run => ⟨t, ?_⟩
      · rw [run_bind_error (fails s)] at run
        cases run
      · rw [run_bind_error (fails s)] at run
        rw [run_bind_error (fails t)]
        cases run
        rfl

theorem memset_alike {va n : Nat} : Alike (SameBut E) (memset va n) fun _ => SameBut E := by
  refine store_alike (fun pa r => r.clear pa n) fun pa _ r r' bytes x outside => ?_
  unfold Store.clear
  rw [bytes x outside]

/-- An entry that is stored is the same from then on. -/
theorem store32_alike {w : UInt32} (place : At A d) (small : i < 1024) :
    Alike (SameBut E) (store32 (A + 4 * i) w)
    fun _ => SameBut (E \ {x | d * pageSize + 4 * i ≤ x ∧ x < d * pageSize + 4 * i + 4}) := by
  refine store_alike (fun pa r => r.writeWords pa 1 fun _ => w)
    fun pa found r r' bytes x outside => ?_
  have address : pa = d * pageSize + 4 * i := by
    have here := (found bootMemory).symm.trans (kernelPa_at place (by omega))
    cases here
    rfl
  subst address
  unfold Store.writeWords
  by_cases inside : d * pageSize + 4 * i ≤ x ∧ x < d * pageSize + 4 * i + 4 * 1
  · rw [if_pos inside, if_pos inside]
  · rw [if_neg inside, if_neg inside]
    exact bytes x fun member => outside ⟨member, inside⟩

theorem store32_alike' {va : Nat} {w : UInt32} :
    Alike (SameBut E) (store32 va w) fun _ => SameBut E := by
  refine store_alike (fun pa r => r.writeWords pa 1 fun _ => w) fun pa _ r r' bytes x outside => ?_
  unfold Store.writeWords
  rw [bytes x outside]

/-- The bytes of the directory's entries for the tables that begin between two pages. -/
def borderBytes (d p q : Nat) : Set Nat :=
  {x | d * pageSize + 4 * tableFrom p ≤ x ∧ x < d * pageSize + 4 * tableFrom q}

/-- One turn stores the entry of a table that begins with its page. -/
theorem nextPage_alike (place : At A d) (number : p = 1024 * i + j) (behind : 0 < j ∧ j ≤ 1024)
    (small : i + 1 < 1024) :
    Alike (SameBut (borderBytes d p q)) (nextPage A t i j) fun next s s' =>
      SameBut (borderBytes d (p + 1) q) s s' ∧ p + 1 = 1024 * next.2.1 + next.2.2 ∧ 0 < next.2.2 ∧
      next.2.2 ≤ 1024 := by
  refine .bind getIdlePage_alike fun f => .bind memset_alike fun _ =>
    .ite (fun last => ?_) fun more => ?_
  · refine .bind (S := fun _ => SameBut (borderBytes d (p + 1) q)) ?_ fun t' =>
      .bind store32_alike' fun _ =>
      .pure fun s s' same =>
      ⟨same, by show p + 1 = 1024 * (i + 1) + 1; omega, Nat.one_pos, by show 1 ≤ 1024; omega⟩
    refine .bind getIdlePage_alike fun t' => .bind memset_alike fun _ =>
      .bind (store32_alike place small) fun _ =>
      .pure fun s s' same => same.mono fun x member => ?_
    obtain ⟨⟨low, high⟩, outside⟩ := member
    rw [Set.mem_ofPred_eq] at outside
    unfold tableFrom at low
    refine ⟨?_, high⟩
    unfold tableFrom
    omega
  · refine .bind store32_alike' fun _ => .pure fun s s' same =>
      ⟨?_, by show p + 1 = 1024 * i + (j + 1); omega, Nat.succ_pos j, by show j + 1 ≤ 1024; omega⟩
    have again : tableFrom (p + 1) = tableFrom p := by
      unfold tableFrom
      omega
    unfold borderBytes at *
    rwa [again]

theorem mapPages_alike (place : At A d) (number : p = 1024 * i + j) (behind : 0 < j ∧ j ≤ 1024)
    (below : p + n ≤ 1023 * 1024) :
    Alike (SameBut (borderBytes d p (p + n))) (mapPages A n (t, i, j)) fun _ s s' => s' = s := by
  induction n generalizing p t i j with
  | zero =>
      refine .pure fun s s' same => same.eq fun x inside => ?_
      obtain ⟨low, high⟩ := inside
      rw [Nat.add_zero] at high
      omega
  | succ n ih =>
      refine .bind (nextPage_alike place number behind (by omega)) fun next s s' here => ?_
      obtain ⟨same, number', low, high⟩ := here
      have rest := ih (t := next.1) (i := next.2.1) (j := next.2.2) number' ⟨low, high⟩ (by omega)
      exact rest s s' (by rwa [show p + 1 + n = p + (n + 1) by omega])

/-- The state in which the directory has no entry for the tables that begin between two pages. -/
def MemoryState.forget (s : MemoryState) (d p q : Nat) : MemoryState :=
  s.withRam (s.ram.writeWords (d * pageSize + 4 * tableFrom p)
    (tableFrom q - tableFrom p) fun _ => 0)

theorem forget_same (ordered : p ≤ q) : SameBut (borderBytes d p q) (s.forget d p q) s := by
  refine ⟨rfl, fun x outside => ?_⟩
  rw [MemoryState.forget, withRam_ram, Store.writeWords_outside]
  have order : tableFrom p ≤ tableFrom q := by
    unfold tableFrom
    omega
  by_contra inside
  exact outside ⟨by omega, by omega⟩

/-- **A run does what it does without the entries that it overwrites.** -/
theorem mapPages_forget (place : At A d) (number : p = 1024 * i + j) (behind : 0 < j ∧ j ≤ 1024)
    (below : p + n ≤ 1023 * 1024) : Ends (mapPages A n (t, i, j)) (s.forget d p (p + n))
      (fun _ s' => mapPages A n (t, i, j) s = .ok ⟨⟩ s') fun e _ => ∃ s', mapPages A n (t, i, j) s =
        .error e s' := by
  refine (mapPages_alike place number behind below _ _ (forget_same (by omega))).mono
    (fun _ s' here => ?_) fun e s' here => here
  obtain ⟨s'', run, same⟩ := here
  rwa [← same]

/-! ### What is lost with them -/

theorem reach_rows {T : Nat → Nat → Option Nat} {gone : Nat → Prop} [DecidablePred gone]
    (tables : ∀ k u, k < 768 → T d k = some u → u ≠ d) (a : Place) :
    reach (Function.update T d fun k => if gone k then none else T d k) d a = if gone a.index then
    none else reach T d a := by
  cases a with
  | table k =>
      rw [reach_table_def, reach_table_def, Function.update_self]
      by_cases leaves : gone k
      · rw [if_pos leaves, if_pos (show gone (Place.table k).index from leaves)]
        exact ite_self none
      · rw [if_neg leaves, if_neg (show ¬ gone (Place.table k).index from leaves)]
  | page k l =>
      rw [reach_page_def, reach_page_def, Function.update_self]
      by_cases leaves : gone k
      · rw [if_pos leaves, if_pos (show gone (Place.page k l).index from leaves)]
        exact ite_self none
      · rw [if_neg leaves, if_neg (show ¬ gone (Place.page k l).index from leaves)]
        split
        · next inside =>
          cases entry : T d k with
          | none => rfl
          | some u => rw [Option.bind_some, Option.bind_some,
              Function.update_of_ne (tables k u inside.2 entry)]
        · rfl

/-- A table begins between the two pages. -/
def Between (p q k : Nat) : Prop := tableFrom p ≤ k ∧ k < tableFrom q

instance : DecidablePred (Between p q) := fun _ => inferInstanceAs (Decidable (_ ∧ _))

theorem tables_forget (ordered : p ≤ q) (below : q ≤ 768 * 1024) : tables (s.forget d p q).ram
    = Function.update (tables s.ram) d fun k => if Between p q k then none
    else tables s.ram d k := by
  have order : tableFrom p + (tableFrom q - tableFrom p) = tableFrom q := by
    unfold tableFrom
    omega
  rw [MemoryState.forget, withRam_ram, tables_range (by rw [order]; unfold tableFrom; omega), order]
  rfl

theorem forget_bytes {x : Nat} (ordered : p ≤ q) (below : q ≤ 768 * 1024)
    (outside : frameOf x ≠ d) :
    (s.forget d p q).ram x = s.ram x := by
  refine ((forget_same ordered).bytes x fun inside => outside ?_).symm
  obtain ⟨low, high⟩ := inside
  unfold tableFrom at high
  unfold frameOf
  unfold pageSize at low high
  omega

namespace UserSpace

theorem reach_forget (space : UserSpace d held s) (ordered : p ≤ q) (below : q ≤ 768 * 1024)
    (a : Place) :
    reach (tables (s.forget d p q).ram) d a = if Between p q a.index then none
    else reach (tables s.ram) d a := by
  rw [tables_forget ordered below]
  exact reach_rows
    (fun k u inside entry => space.ne_directory (reach_table_eq_some.mpr ⟨inside, entry⟩)) a

/-- The frames of the tables and their pages are no longer reached, and stay marked. -/
theorem forget (space : UserSpace d held s) (user : 4096 ≤ p) (ordered : p ≤ q)
    (below : q ≤ 768 * 1024) :
    UserSpace d (held ∪ {f | ∃ a : Place, Between p q a.index ∧ reach (tables s.ram) d a = some f})
      (s.forget d p q) where
  owned := by
    refine space.owned.forget fun a f => ?_
    rw [space.reach_forget ordered below]
    split
    · next gone => simp [gone]
    · next stays => simp [stays]
  low := space.low
  cursor := space.cursor
  kernel := by
    have apart : ∀ k, k < 4 ∨ 768 ≤ k → ¬ Between p q k := by
      intro k kernel inside
      obtain ⟨low, high⟩ := inside
      unfold tableFrom at low high
      omega
    have own : ∀ k, k < 4 ∨ 768 ≤ k → tables (s.forget d p q).ram d k = tables s.ram d k := by
      intro k kernel
      rw [tables_forget ordered below, Function.update_self, if_neg (apart k kernel)]
    refine ⟨fun i small => ?_,
      fun i high => (own i (.inr (by omega))).trans (space.kernel.rest i high)⟩
    obtain ⟨t, first, second, row⟩ := space.kernel.tables i small
    refine ⟨t, (own i (.inl small)).trans first, (own _ (.inr (by omega))).trans second,
      fun j inside => ?_⟩
    rw [tables_forget ordered below, Function.update_of_ne]
    · exact row j inside
    · exact space.ne_directory (reach_table_eq_some.mpr ⟨by omega, first⟩)

end UserSpace

/-- **What a run does to the pages of the process**: `n` new ones from `p` on, and none of the old
ones any more in the tables that begin among them. -/
structure Spread (d p n : Nat) (held : Set Nat) (s s' : MemoryState) : Prop where
  space : ∃ held', held ⊆ held' ∧ UserSpace d held' s'
  used : usedFrames s ⊆ usedFrames s'
  old : ∀ q, ¬ (p ≤ q ∧ q < p + n) → reach (tables s'.ram) d (.pageAt q)
    = if Between p (p + n) (q / 1024) then none else reach (tables s.ram) d (.pageAt q)
  new : ∀ q, p ≤ q → q < p + n → ∃ f, reach (tables s'.ram) d (.pageAt q) = some f ∧
    f ∉ usedFrames s ∧ Zeroed f s'.ram
  bytes : ∀ x, ¬ InTables (tables s.ram) d x →
    (frameOf x ∈ usedFrames s' → frameOf x ∈ usedFrames s) → s'.ram x = s.ram x
  spaces : s'.spaces = s.spaces

/-- **A run of pages, whatever the directory holds behind its table**: it spreads if there are
frames for it, and otherwise the search for one never ends. -/
theorem mapPages_spread (place : At A d) (space : UserSpace d held s) (cursor : Cursor d p t i j s)
    (below : p + n ≤ 768 * 1024)
    (empty : ∀ q, p ≤ q → q < p + n → reach (tables s.ram) d (.pageAt q) = none) :
    (Room (newFrames p n) s → ∃ s', mapPages A n (t * pageSize, i, j) s = .ok ⟨⟩ s' ∧
      Spread d p n held s s') ∧
      (¬ Room (newFrames p n) s → ∃ s', mapPages A n (t * pageSize, i, j) s = .error .hang s') := by
  obtain ⟨number, behind, user, entry⟩ := cursor
  have ordered : p ≤ p + n := by omega
  have rows := tables_forget (s := s) (d := d) ordered below
  have reached := space.reach_forget ordered below
  have runs := mapPages_forget (s := s) (t := t * pageSize) place number behind (n := n) (by omega)
  have space₁ := space.forget (by omega) ordered below
  have cursor₁ : Cursor d p t i j (s.forget d p (p + n)) := by
    refine ⟨number, behind, user, ?_⟩
    rw [rows, Function.update_self, if_neg, entry]
    rintro ⟨early, _⟩
    unfold tableFrom at early
    omega
  have empty₁ : ∀ q, p ≤ q → q < p + n →
      reach (tables (s.forget d p (p + n)).ram) d (.pageAt q) = none := by
    intro q low high
    rw [reached, empty q low high]
    exact ite_self none
  have border : ∀ k, tableFrom p ≤ k → k < tableFrom (p + n) →
      tables (s.forget d p (p + n)).ram d k = none := by
    intro k low high
    rw [rows, Function.update_self]
    exact if_pos ⟨low, high⟩
  constructor
  · intro room
    obtain ⟨s', run, grows, zeroed⟩ :=
      mapPages_grows place space₁.toOwns cursor₁ below empty₁ border room
    refine ⟨s', runs.of_ok run, ⟨_, Set.subset_union_left, grows.userSpace space₁⟩, grows.used,
      fun q outside => ?_,
      fun q low high => ?_, fun x apart free => ?_, grows.spaces⟩
    · rw [grows.reach_other (by rwa [page_newPlaces]), reached]
      rfl
    · obtain ⟨f, here, zero⟩ := zeroed q low high
      exact ⟨f, here, grows.fresh _ f (empty₁ q low high) here, zero⟩
    · have apart₁ : ¬ InTables (tables (s.forget d p (p + n)).ram) d x := by
        rintro (directory | ⟨k, table⟩)
        · exact apart (.inl directory)
        · rw [reached] at table
          split at table
          · cases table
          · exact apart (.inr ⟨k, table⟩)
      exact (grows.other_bytes apart₁ free).1.trans
        (forget_bytes ordered below fun directory => apart (.inl directory))
  · intro full
    obtain ⟨s', run⟩ := mapPages_full place space₁.toOwns cursor₁ below empty₁ border full
    exact runs.of_error run

end Runs

end NjuOs.Memory
