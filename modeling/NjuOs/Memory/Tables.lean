/-
**Page tables as they stand in memory.**

`tables ram g i` is the frame that entry `i` of the table in frame `g` names, and `translate` the
physical address that a directory gives an address of its process. Everything the manager stores
lies inside one frame, so every store changes the entries of one table: some of them
(`tables_range`), one of them (`tables_store`), all of them (`tables_clear`, `tables_words`), or in
a way that does not matter because the frame holds data (`tables_within`).

The rules of the accesses of a kernel thread follow, in these terms.
-/

import NjuOs.Memory.Manager

namespace NjuOs.Memory

open NjuOs.Lib

/-- The frame an entry names, if it is present. -/
def named (entry : UInt32) : Option Nat := if present entry then some (pageFrame entry) else none

/-- The frame that entry `i` of the table in frame `g` names. -/
def tables (ram : Store) (g i : Nat) : Option Nat :=
  if i < 1024 then named (ram.word (g * pageSize + 4 * i)) else none

/-- The frame of an address. -/
def frameOf (a : Nat) : Nat := a / 4096

/-- The physical address of an address of the process with the directory in frame `d`. -/
def translate (T : Nat → Nat → Option Nat) (d va : Nat) : Option Nat :=
  (T d (va / 4194304)).bind fun t => (T t (va / 4096 % 1024)).map fun f => f * pageSize + va % 4096

@[simp] theorem named_zero : named 0 = none := rfl

theorem named_eq_some {w : UInt32} {f : Nat} : named w = some f ↔ present w = true ∧
    pageFrame w = f := by
  unfold named
  split
  · next here => simp [here]
  · next here => simp [here]

theorem named_eq_none {w : UInt32} : named w = none ↔ present w = false := by
  unfold named
  split
  · next here => simp [here]
  · next here => simp [here]

theorem named_makeEntry {flags f : Nat} (odd : flags % 2 = 1) (low : flags < 4096)
    (frame : f < 1048576) :
    named (makeEntry flags (f * pageSize)) = some f := by
  have value : (makeEntry flags (f * pageSize)).toNat = f * 4096 + flags := by
    unfold makeEntry pageSize
    rw [UInt32.toNat_ofNat', Nat.mul_div_cancel f (by omega), Nat.mod_eq_of_lt frame]
    omega
  unfold named present pageFrame
  rw [value, if_pos (by simp; omega)]
  congr 1
  omega

theorem named_makePde {f : Nat} (frame : f < 1048576) : named (makePde (f * pageSize)) = some f :=
  named_makeEntry rfl (by omega) frame

theorem named_makePte {f : Nat} (frame : f < 1048576) : named (makePte (f * pageSize)) = some f :=
  named_makeEntry rfl (by omega) frame

theorem named_makeSupervisorPde {f : Nat} (frame : f < 1048576) :
    named (makeSupervisorPde (f * pageSize)) = some f :=
  named_makeEntry rfl (by omega) frame

/-! ### Stores inside one frame -/

section Effects

variable {ram ram' : Store} {g i : Nat}

/-- Nothing outside frame `g` is changed. -/
def Within (g : Nat) (ram ram' : Store) : Prop := ∀ a, frameOf a ≠ g → ram' a = ram a

theorem tables_congr (h : Nat) (same : ∀ a, frameOf a = h → ram' a = ram a) :
    tables ram' h = tables ram h := by
  funext j
  unfold tables
  by_cases small : j < 1024
  · rw [if_pos small, if_pos small, Store.word_congr fun k byte => same _ ?_]
    unfold frameOf pageSize
    omega
  · rw [if_neg small, if_neg small]

theorem tables_small {f : Nat} (here : tables ram g i = some f) : i < 1024 := by
  unfold tables at here
  split at here
  · assumption
  · cases here

/-- What is stored in one frame changes one table. -/
theorem tables_within (within : Within g ram ram') :
    tables ram' = Function.update (tables ram) g (tables ram' g) := by
  funext h
  by_cases same : h = g
  · rw [same, Function.update_self]
  · rw [Function.update_of_ne same]
    exact tables_congr h fun a inside => within a (by rw [inside]; exact same)

theorem within_clear : Within g ram (ram.clear (g * pageSize) pageSize) := by
  intro a outside
  refine Store.clear_outside ?_
  unfold frameOf at outside
  unfold pageSize
  omega

theorem within_write {d : Nat} {bs : List UInt8} (fits : d + bs.length ≤ 4096) :
    Within g ram (ram.write (g * pageSize + d) bs) := by
  intro a outside
  refine Store.write_outside ?_
  unfold frameOf at outside
  unfold pageSize
  omega

theorem within_words {n : Nat} {t : Nat → UInt32} (fits : i + n ≤ 1024) :
    Within g ram (ram.writeWords (g * pageSize + 4 * i) n t) := by
  intro a outside
  refine Store.writeWords_outside ?_
  unfold frameOf at outside
  unfold pageSize
  omega

/-- All the words of a frame. -/
theorem within_all {t : Nat → UInt32} : Within g ram (ram.writeWords (g * pageSize) 1024 t) := by
  have within : Within g ram (ram.writeWords (g * pageSize + 4 * 0) 1024 t) :=
    within_words (by omega)
  rwa [Nat.mul_zero, Nat.add_zero] at within

theorem within_store {w : UInt32} (small : i < 1024) :
    Within g ram (ram.writeWords (g * pageSize + 4 * i) 1 fun _ => w) :=
  within_words (by omega)

theorem tables_clear :
    tables (ram.clear (g * pageSize) pageSize) = Function.update (tables ram) g fun _ => none := by
  rw [tables_within within_clear]
  congr 1
  funext j
  unfold tables
  split
  · rw [Store.word_clear (by omega) (by unfold pageSize; omega), named_zero]
  · rfl

/-- Some entries are stored. -/
theorem tables_range {n : Nat} {t : Nat → UInt32} (fits : i + n ≤ 1024) :
    tables (ram.writeWords (g * pageSize + 4 * i) n t)
      = Function.update (tables ram) g fun j => if i ≤ j ∧ j < i + n then named (t (j - i))
      else tables ram g j := by
  rw [tables_within (within_words fits)]
  congr 1
  funext j
  by_cases inside : i ≤ j ∧ j < i + n
  · have word : (ram.writeWords (g * pageSize + 4 * i) n t).word
      (g * pageSize + 4 * i + 4 * (j - i)) = t (j - i) :=
      Store.word_writeWords (by omega)
    rw [show g * pageSize + 4 * i + 4 * (j - i) = g * pageSize + 4 * j by omega] at word
    unfold tables
    rw [if_pos inside, if_pos (by omega), word]
  · rw [if_neg inside]
    unfold tables
    split
    · rw [Store.word_writeWords_outside (by omega)]
    · rfl

theorem tables_store {w : UInt32} (small : i < 1024) :
    tables (ram.writeWords (g * pageSize + 4 * i) 1 fun _ => w)
      = Function.update (tables ram) g (Function.update (tables ram g) i (named w)) := by
  rw [tables_range (by omega)]
  congr 1
  funext j
  by_cases same : j = i
  · rw [same, Function.update_self, if_pos ⟨by omega, by omega⟩]
  · rw [Function.update_of_ne same, if_neg (by omega)]

/-- An entry that names a frame is stored. -/
theorem tables_entry {w : UInt32} {f : Nat} (small : i < 1024) (word : named w = some f) :
    tables (ram.writeWords (g * pageSize + 4 * i) 1 fun _ => w)
      = Function.update (tables ram) g (Function.update (tables ram g) i (some f)) := by
  rw [tables_store small, word]

theorem tables_words {t : Nat → UInt32} :
    tables (ram.writeWords (g * pageSize) 1024 t)
      = Function.update (tables ram) g fun j => if j < 1024 then named (t j) else none := by
  have all : tables (ram.writeWords (g * pageSize + 4 * 0) 1024 t) = _ := tables_range (by omega)
  rw [Nat.mul_zero, Nat.add_zero] at all
  rw [all]
  congr 1
  funext j
  by_cases small : j < 1024
  · rw [if_pos small, if_pos ⟨Nat.zero_le j, by omega⟩, Nat.sub_zero]
  · rw [if_neg small, if_neg (by omega)]
    exact if_neg small

end Effects

/-! ### Translations -/

section Translate

variable {T : Nat → Nat → Option Nat} {d va pa : Nat}

theorem translate_eq_some : translate T d va = some pa ↔
    ∃ t f, T d (va / 4194304) = some t ∧ T t (va / 4096 % 1024) = some f ∧
    pa = f * pageSize + va % 4096 := by
  unfold translate
  constructor
  · intro found
    obtain ⟨t, table, rest⟩ := Option.bind_eq_some_iff.mp found
    obtain ⟨f, page, rfl⟩ := Option.map_eq_some_iff.mp rest
    exact ⟨t, f, table, page, rfl⟩
  · rintro ⟨t, f, table, page, rfl⟩
    rw [table, Option.bind_some, page, Option.map_some]

/-- The bytes of a page lie side by side. -/
theorem translate_add {k : Nat} (found : translate T d va = some pa)
    (inside : va % 4096 + k < 4096) :
    translate T d (va + k) = some (pa + k) := by
  obtain ⟨t, f, table, page, rfl⟩ := translate_eq_some.mp found
  refine translate_eq_some.mpr ⟨t, f, ?_, ?_, ?_⟩
  · rw [← table]
    congr 1
    omega
  · rw [← page]
    congr 1
    omega
  · unfold pageSize
    omega

end Translate

/-! ### The accesses of a kernel thread -/

section Accesses

variable {A g d n i : Nat} {s : MemoryState}

/-- `A` is the address of frame `g`, in one of the two places where a kernel thread has it. -/
def At (A g : Nat) : Prop := g < 32768 ∧ (A = g * pageSize ∨ A = kOffset + g * pageSize)

theorem At.direct (below : g < 32768) : At (g * pageSize) g := ⟨below, .inl rfl⟩

theorem At.alias (below : g < 32768) : At (kOffset + g * pageSize) g := ⟨below, .inr rfl⟩

theorem kernelPa_direct {va : Nat} (inside : va + n ≤ physMem) : kernelPa va n s = .ok va s := by
  unfold kernelPa
  rw [if_pos inside]
  rfl

theorem kernelPa_at (place : At A g) (fits : d + n ≤ 4096) :
    kernelPa (A + d) n s = .ok (g * pageSize + d) s := by
  obtain ⟨below, rfl | rfl⟩ := place
  · exact kernelPa_direct (by unfold physMem pageSize; omega)
  · unfold kernelPa physMem pageSize kOffset
    rw [if_neg (by omega), if_pos (by omega),
      show 3221225472 + g * 4096 + d - 3221225472 = g * 4096 + d by omega]
    rfl

theorem load32_at (place : At A g) (small : i < 1024) :
    load32 (A + 4 * i) s = .ok (s.ram.word (g * pageSize + 4 * i)) s := by
  unfold load32
  rw [run_bind (kernelPa_at place (by omega)), run_bind run_get]
  rfl

/-- An entry of a table is read. -/
theorem load_entry (place : At A g) (small : i < 1024) :
    ∃ w, load32 (A + 4 * i) s = .ok w s ∧ named w = tables s.ram g i :=
  ⟨_, load32_at place small, (if_pos small).symm⟩

theorem store32_at {w : UInt32} (place : At A g) (small : i < 1024) :
    store32 (A + 4 * i) w s =
      .ok ⟨⟩ { s with ram := s.ram.writeWords (g * pageSize + 4 * i) 1 fun _ => w } := by
  unfold store32
  rw [run_bind (kernelPa_at place (by omega))]
  rfl

theorem memset_at (place : At A g) :
    memset A pageSize s = .ok ⟨⟩ { s with ram := s.ram.clear (g * pageSize) pageSize } := by
  unfold memset
  have pa : kernelPa (A + 0) pageSize s = .ok (g * pageSize + 0) s :=
    kernelPa_at place (by unfold pageSize; omega)
  rw [Nat.add_zero, Nat.add_zero] at pa
  rw [run_bind pa]
  rfl

theorem load8_direct {va : Nat} (inside : va < physMem) : load8 va s = .ok (s.ram va) s := by
  unfold load8
  rw [run_bind (kernelPa_direct inside), run_bind run_get]
  rfl

theorem load32_direct {va : Nat} (inside : va + 4 ≤ physMem) :
    load32 va s = .ok (s.ram.word va) s := by
  unfold load32
  rw [run_bind (kernelPa_direct inside), run_bind run_get]
  rfl

/-- A copy, once it is known where the two ranges lie. -/
theorem memcpy_at {dest src paDest paSrc : Nat} (from_pa : kernelPa src n s = .ok paSrc s)
    (to_pa : kernelPa dest n s = .ok paDest s) :
    memcpy dest src n s = .ok ⟨⟩ { s with ram := s.ram.write paDest (s.ram.read paSrc n) } := by
  have bytes : loadBytes src n s = .ok (s.ram.read paSrc n) s := by
    unfold loadBytes
    rw [run_bind from_pa, run_bind run_get]
    rfl
  unfold memcpy
  rw [run_bind bytes]
  unfold storeBytes
  rw [Store.read_length, run_bind to_pa]
  rfl

/-- A loop that stores one word after the other. -/
theorem storeLoop_at {t : Nat → UInt32} (place : At A g) :
    loop (fun j => store32 (A + 4 * j) (t j)) 1024 0 s
      = .ok ⟨⟩ { s with ram := s.ram.writeWords (g * pageSize) 1024 t } := by
  have ends : Ends (loop (fun j => store32 (A + 4 * j) (t j)) 1024 0) s
      (fun _ s' => s' = { s with ram := s.ram.writeWords (g * pageSize) (0 + 1024) t })
      fun _ _ => False := by
    refine Ends.loop (fun j s' => s' = { s with ram := s.ram.writeWords (g * pageSize) j t })
      (by rw [Store.writeWords_zero]) fun j s' _ small here => ?_
    refine .ok (store32_at place (by omega)) ?_
    rw [here, Store.writeWords_succ (n := j)]
  obtain ⟨_, s', run, equal⟩ := ends.run_ok
  rw [run, equal]

/-- **`physical_addr` translates**, or fails its assertion. -/
theorem physicalAddr_at {va : Nat} (place : At A d) (address : va < 4294967296)
    (reach : ∀ t, tables s.ram d (va / 4194304) = some t → t < 32768) :
    physicalAddr A va s = match translate (tables s.ram) d va with
      | some pa => .ok pa s
      | none => .error .panic s := by
  have small : va / 4194304 < 1024 := by omega
  unfold physicalAddr
  rw [run_bind (load32_at place small)]
  have directory : tables s.ram d (va / 4194304) =
    named (s.ram.word (d * pageSize + 4 * (va / 4194304))) := if_pos small
  unfold translate
  rw [directory] at reach ⊢
  unfold named at reach ⊢
  by_cases mapped : present (s.ram.word (d * pageSize + 4 * (va / 4194304)))
  · rw [if_pos mapped] at reach
    have below := reach _ rfl
    rw [if_pos mapped, if_pos mapped,
      run_bind (load32_at (At.direct below) (Nat.mod_lt _ (by omega))), Option.bind_some]
    have entry : tables s.ram (pageFrame (s.ram.word (d * pageSize + 4 * (va / 4194304))))
      (va / 4096 % 1024) = named _ :=
      if_pos (Nat.mod_lt _ (by omega))
    rw [entry]
    unfold named
    by_cases page :
      present (s.ram.word (pageFrame (s.ram.word (d * pageSize + 4 * (va / 4194304))) * pageSize
        + 4 * (va / 4096 % 1024)))
    · rw [if_pos page, if_pos page]
      rfl
    · rw [if_neg page, if_neg page]
      rfl
  · rw [if_neg mapped, if_neg mapped]
    rfl

end Accesses

end NjuOs.Memory
