/-
**The sector cache of the IDE driver refines a flat disk.**

The cache is direct-mapped: sector `n` can only lie in slot `n % 128`, and is written back when
another sector takes the slot, or by the periodic `cache_writeback`. `Shows ide content` says that
cache and disk together stand for `content`; a fetch and a write-back keep it, and a byte written
changes `content` at one offset. So the cache and a flat array of bytes answer every sequence of
calls alike (`cache_refines_disk`).

A transfer of the disk moves one whole sector.
-/

import Mathlib.Logic.Function.Basic
import Mathlib.Tactic.Common

namespace NjuOs.Drivers

/-! ### The model -/

/-- The content of a sector. -/
abbrev Sector := Fin 512 → UInt8

/-- `SectorCache`: a slot of the cache, with the sector it holds if it is used. -/
structure SectorCache where
  sector : UInt32
  used : Bool
  dirty : Bool
  content : Sector

/-- The cache of the driver, and the disk. -/
structure Ide where
  cache : Nat → SectorCache
  disk : UInt32 → Sector

/-- The cache with another slot `i`. -/
def Ide.setSlot (ide : Ide) (i : Nat) (slot : SectorCache) : Ide :=
  { ide with cache := Function.update ide.cache i slot }

/-- `disk_do_read`: a sector of the disk. -/
def diskDoRead (sector : UInt32) (ide : Ide) : Sector := ide.disk sector

/-- `disk_do_write`: a sector is written to the disk. -/
def diskDoWrite (content : Sector) (sector : UInt32) (ide : Ide) : Ide :=
  { ide with disk := Function.update ide.disk sector content }

/-- `NR_SEC_CACHE`. -/
def nrSecCache : Nat := 128

/-- One turn of the loop of `cache_init`. -/
def initSlot (i : Nat) (ide : Ide) : Ide := ide.setSlot i { ide.cache i with used := false }

/-- The loop of `cache_init`. -/
def initLoop : Nat → Ide → Ide
  | 0, ide => ide
  | i + 1, ide => initSlot i (initLoop i ide)

/-- `cache_init`: no slot is used. -/
def cacheInit (ide : Ide) : Ide := initLoop nrSecCache ide

/-- One turn of the loop of `cache_writeback`. -/
def writebackSlot (i : Nat) (ide : Ide) : Ide :=
  if (ide.cache i).dirty then
    (diskDoWrite (ide.cache i).content (ide.cache i).sector ide).setSlot i
    { ide.cache i with dirty := false }
  else
    ide

/-- The loop of `cache_writeback`. -/
def writebackLoop : Nat → Ide → Ide
  | 0, ide => ide
  | i + 1, ide => writebackSlot i (writebackLoop i ide)

/-- `cache_writeback`: every dirty slot goes to the disk. -/
def cacheWriteback (ide : Ide) : Ide := writebackLoop nrSecCache ide

/-- The slot of a sector. -/
def slotOf (sector : UInt32) : Nat := sector.toNat % nrSecCache

/-- What `cache_fetch` does to a slot that holds another sector, or none. -/
def evict (i : Nat) (ide : Ide) : Ide :=
  if (ide.cache i).used ∧ (ide.cache i).dirty then
    diskDoWrite (ide.cache i).content (ide.cache i).sector ide
  else
    ide

/-- The read command of `cache_fetch`. -/
def load (sector : UInt32) (ide : Ide) : Ide :=
  ide.setSlot (slotOf sector)
    { sector, used := true, dirty := false, content := diskDoRead sector ide }

/-- `cache_fetch`: behind it the sector is in its slot. -/
def cacheFetch (sector : UInt32) (ide : Ide) : Ide :=
  if (ide.cache (slotOf sector)).used ∧ (ide.cache (slotOf sector)).sector = sector then
    ide
  else
    load sector (evict (slotOf sector) ide)

/-- `offset & 511`. -/
def place (offset : UInt32) : Fin 512 :=
  ⟨(offset &&& 511).toNat, by
    have bound : (offset &&& 511).toNat ≤ 511 := by
      rw [UInt32.toNat_and]
      exact Nat.and_le_right
    omega⟩

/-- `read_byte`, for a disk offset. -/
def readByte (offset : UInt32) (ide : Ide) : UInt8 × Ide :=
  let ide := cacheFetch (offset >>> 9) ide
  ((ide.cache (slotOf (offset >>> 9))).content (place offset), ide)

/-- The end of `write_byte`, on the slot that `cache_fetch` returned. -/
def store (i : Nat) (p : Fin 512) (data : UInt8) (ide : Ide) : Ide :=
  ide.setSlot i { ide.cache i with
    content := Function.update (ide.cache i).content p data
    dirty := true }

/-- `write_byte`: the byte stays in the cache. -/
def writeByte (offset : UInt32) (data : UInt8) (ide : Ide) : Ide :=
  store (slotOf (offset >>> 9)) (place offset) data (cacheFetch (offset >>> 9) ide)

/-- A call of the driver. -/
inductive Call where
  | readByte (offset : UInt32)
  | writeByte (offset : UInt32) (data : UInt8)
  | cacheWriteback

/-- A call on the cache: what it returns, and the new state. -/
def Call.run (ide : Ide) : Call → Option UInt8 × Ide
  | .readByte offset => (some (Drivers.readByte offset ide).1, (Drivers.readByte offset ide).2)
  | .writeByte offset data => (none, Drivers.writeByte offset data ide)
  | .cacheWriteback => (none, Drivers.cacheWriteback ide)

/-- The same call on a flat array of bytes. -/
def Call.flat (bytes : UInt32 → UInt8) : Call → Option UInt8 × (UInt32 → UInt8)
  | .readByte offset => (some (bytes offset), bytes)
  | .writeByte offset data => (none, Function.update bytes offset data)
  | .cacheWriteback => (none, bytes)

/-- A sequence of calls: what each returns, and the last state. -/
def runCalls {σ : Type} (call : σ → Call → Option UInt8 × σ) :
    List Call → σ → List (Option UInt8) × σ
  | [], s => ([], s)
  | first :: rest, s =>
    let later := runCalls call rest (call s first).2
    ((call s first).1 :: later.1, later.2)

/-! ### The invariant -/

/-- **Cache and disk stand for `content`**: a slot in use has its sector's content, and a sector
that no dirty slot holds is on the disk. -/
structure Shows (ide : Ide) (content : UInt32 → Sector) : Prop where
  tag : ∀ i, i < nrSecCache → (ide.cache i).used = true → slotOf (ide.cache i).sector = i
  used : ∀ i, i < nrSecCache → (ide.cache i).dirty = true → (ide.cache i).used = true
  cached : ∀ i, i < nrSecCache → (ide.cache i).used = true →
    (ide.cache i).content = content (ide.cache i).sector
  stored : ∀ s, ¬ ((ide.cache (slotOf s)).dirty = true ∧ (ide.cache (slotOf s)).sector = s) →
    ide.disk s = content s

/-- A disk by offsets. -/
def flatten (sectors : UInt32 → Sector) (offset : UInt32) : UInt8 :=
  sectors (offset >>> 9) (place offset)

theorem slotOf_lt (sector : UInt32) : slotOf sector < nrSecCache := Nat.mod_lt _ (by decide)

/-- An offset is its sector and its place there. -/
theorem eq_of_sector {x y : UInt32} (sector : x >>> 9 = y >>> 9) (within : place x = place y) :
    x = y := by
  have high : x.toNat / 512 = y.toNat / 512 := by
    have same := congrArg UInt32.toNat sector
    simpa [UInt32.toNat_shiftRight, Nat.shiftRight_eq_div_pow] using same
  have mask : ∀ z : UInt32, (place z).val = z.toNat % 512 := by
    intro z
    show (z &&& 511).toNat = _
    rw [UInt32.toNat_and]
    exact Nat.and_two_pow_sub_one_eq_mod z.toNat 9
  have low : x.toNat % 512 = y.toNat % 512 := by rw [← mask, ← mask, within]
  apply UInt32.toNat_inj.mp
  omega

@[simp] theorem setSlot_self (ide : Ide) (i : Nat) (slot : SectorCache) :
    (ide.setSlot i slot).cache i = slot :=
  Function.update_self ..

theorem setSlot_other (ide : Ide) {i j : Nat} (slot : SectorCache) (other : j ≠ i) :
    (ide.setSlot i slot).cache j = ide.cache j :=
  Function.update_of_ne other ..

/-- What `Shows` says of one slot. -/
structure SlotShows (content : UInt32 → Sector) (i : Nat) (slot : SectorCache) : Prop where
  tag : slot.used = true → slotOf slot.sector = i
  used : slot.dirty = true → slot.used = true
  cached : slot.used = true → slot.content = content slot.sector

section Operations

variable {ide : Ide} {content : UInt32 → Sector} {sector : UInt32} {i : Nat}

theorem Shows.slot (shows : Shows ide content) (inside : i < nrSecCache) :
    SlotShows content i (ide.cache i) :=
  ⟨shows.tag i inside, shows.used i inside, shows.cached i inside⟩

/-- A slot is set: it is enough to look at the new one, and at the sectors on the disk. -/
theorem shows_setSlot {slot : SectorCache}
    (others : ∀ j, j < nrSecCache → j ≠ i → SlotShows content j (ide.cache j))
    (new : SlotShows content i slot)
    (stored : ∀ s, ¬ (((ide.setSlot i slot).cache (slotOf s)).dirty = true ∧
      ((ide.setSlot i slot).cache (slotOf s)).sector = s) → ide.disk s = content s) :
    Shows (ide.setSlot i slot) content := by
  have slots : ∀ j, j < nrSecCache → SlotShows content j ((ide.setSlot i slot).cache j) := by
    intro j small
    by_cases same : j = i
    · rw [same, setSlot_self]
      exact new
    · rw [setSlot_other _ _ same]
      exact others j small same
  exact ⟨fun j small => (slots j small).tag, fun j small => (slots j small).used,
    fun j small => (slots j small).cached, stored⟩

/-! ### Write-back -/

/-- A slot in use may be written to the disk at any time. -/
theorem Shows.diskDoWrite (shows : Shows ide content) (inside : i < nrSecCache)
    (used : (ide.cache i).used = true) :
    Shows (diskDoWrite (ide.cache i).content (ide.cache i).sector ide) content where
  tag := shows.tag
  used := shows.used
  cached := shows.cached
  stored s clean := by
    show Function.update ide.disk (ide.cache i).sector (ide.cache i).content s = content s
    by_cases same : s = (ide.cache i).sector
    · rw [same, Function.update_self, shows.cached i inside used]
    · rw [Function.update_of_ne same]
      exact shows.stored s clean

theorem Shows.writebackSlot (shows : Shows ide content) (inside : i < nrSecCache) :
    Shows (writebackSlot i ide) content := by
  unfold Drivers.writebackSlot
  by_cases dirty : (ide.cache i).dirty = true
  swap
  · rw [if_neg dirty]
    exact shows
  rw [if_pos dirty]
  have used := shows.used i inside dirty
  have written := shows.diskDoWrite inside used
  refine shows_setSlot (fun j small _ => shows.slot small) ?_ fun s clean => ?_
  · exact ⟨shows.tag i inside, fun absurd => Bool.noConfusion absurd, shows.cached i inside⟩
  · show Function.update ide.disk (ide.cache i).sector (ide.cache i).content s = content s
    by_cases tag : s = (ide.cache i).sector
    · rw [tag, Function.update_self, shows.cached i inside used]
    · refine written.stored s fun held => clean ?_
      have other : slotOf s ≠ i := fun same => tag (by
        rw [← same]
        exact held.2.symm)
      rw [setSlot_other _ _ other]
      exact held

theorem writebackSlot_dirty (j : Nat) :
    ((Drivers.writebackSlot i ide).cache j).dirty = true ↔ (ide.cache j).dirty = true ∧ j ≠ i := by
  unfold Drivers.writebackSlot
  by_cases dirty : (ide.cache i).dirty = true
  · rw [if_pos dirty]
    by_cases same : j = i
    · subst same
      simp
    · rw [setSlot_other _ _ same]
      exact (and_iff_left same).symm
  · rw [if_neg dirty]
    refine ⟨fun held => ⟨held, ?_⟩, And.left⟩
    rintro rfl
    exact dirty held

theorem Shows.writebackLoop (shows : Shows ide content) {count : Nat}
    (inside : count ≤ nrSecCache) :
    Shows (writebackLoop count ide) content ∧
      ∀ j, ((writebackLoop count ide).cache j).dirty = true → count ≤ j := by
  induction count with
  | zero => exact ⟨shows, fun j _ => Nat.zero_le j⟩
  | succ count ih =>
      obtain ⟨before, dirty⟩ := ih (by omega)
      refine ⟨before.writebackSlot (by omega), fun j held => ?_⟩
      obtain ⟨old, other⟩ := (writebackSlot_dirty j).mp held
      have := dirty j old
      omega

/-- **After a write-back the disk is the content.** -/
theorem Shows.cacheWriteback (shows : Shows ide content) :
    Shows (cacheWriteback ide) content ∧ (cacheWriteback ide).disk = content := by
  obtain ⟨after, dirty⟩ := shows.writebackLoop (Nat.le_refl nrSecCache)
  refine ⟨after, ?_⟩
  unfold Drivers.cacheWriteback
  funext s
  refine after.stored s fun held => ?_
  exact absurd (dirty _ held.1) (Nat.not_le_of_gt (slotOf_lt s))

/-! ### Fetching a sector -/

theorem Shows.evict (shows : Shows ide content) (inside : i < nrSecCache) :
    Shows (evict i ide) content ∧ (evict i ide).cache = ide.cache ∧
      ((ide.cache i).dirty = true →
        (evict i ide).disk (ide.cache i).sector = content (ide.cache i).sector) := by
  unfold Drivers.evict
  by_cases dirty : (ide.cache i).used = true ∧ (ide.cache i).dirty = true
  · rw [if_pos dirty]
    refine ⟨shows.diskDoWrite inside dirty.1, rfl, fun _ => ?_⟩
    exact (Function.update_self ..).trans (shows.cached i inside dirty.1)
  · rw [if_neg dirty]
    exact ⟨shows, rfl, fun held => absurd ⟨shows.used i inside held, held⟩ dirty⟩

/-- A slot whose content is on the disk may be taken by another sector. -/
theorem Shows.load (shows : Shows ide content)
    (saved : (ide.cache (slotOf sector)).dirty = true →
      ide.disk (ide.cache (slotOf sector)).sector = content (ide.cache (slotOf sector)).sector)
    (absent :
      ¬ ((ide.cache (slotOf sector)).dirty = true ∧ (ide.cache (slotOf sector)).sector = sector)) :
    Shows (load sector ide) content := by
  refine shows_setSlot (fun j small _ => shows.slot small) ?_ fun s clean => ?_
  · exact ⟨fun _ => rfl, fun _ => rfl, fun _ => shows.stored sector absent⟩
  · show ide.disk s = content s
    by_cases same : slotOf s = slotOf sector
    · by_cases held : (ide.cache (slotOf s)).dirty = true ∧ (ide.cache (slotOf s)).sector = s
      · rw [same] at held
        rw [← held.2]
        exact saved held.1
      · exact shows.stored s held
    · refine shows.stored s fun held => clean ?_
      rw [setSlot_other _ _ same]
      exact held

theorem Shows.cacheFetch (shows : Shows ide content) (sector : UInt32) :
    Shows (cacheFetch sector ide) content ∧
      ((cacheFetch sector ide).cache (slotOf sector)).used = true ∧
      ((cacheFetch sector ide).cache (slotOf sector)).sector = sector := by
  unfold Drivers.cacheFetch
  by_cases hit : (ide.cache (slotOf sector)).used = true ∧ (ide.cache (slotOf sector)).sector =
    sector
  · rw [if_pos hit]
    exact ⟨shows, hit⟩
  · rw [if_neg hit]
    obtain ⟨after, cache, saved⟩ := shows.evict (slotOf_lt sector)
    refine ⟨after.load ?_ ?_, by simp [Drivers.load], by simp [Drivers.load]⟩
    · rw [cache]
      exact saved
    · rw [cache]
      exact fun held => hit ⟨shows.used _ (slotOf_lt sector) held.1, held.2⟩

/-! ### Reading and writing a byte -/

theorem Shows.readByte (shows : Shows ide content) (offset : UInt32) :
    (readByte offset ide).1 = flatten content offset ∧ Shows (readByte offset ide).2 content := by
  obtain ⟨after, used, tag⟩ := shows.cacheFetch (offset >>> 9)
  refine ⟨?_, after⟩
  show ((Drivers.cacheFetch (offset >>> 9) ide).cache
    (slotOf (offset >>> 9))).content (place offset) = _
  rw [after.cached _ (slotOf_lt _) used, tag]
  rfl

theorem Shows.store (shows : Shows ide content) (used : (ide.cache (slotOf sector)).used = true)
    (tag : (ide.cache (slotOf sector)).sector = sector) (p : Fin 512) (data : UInt8) :
    Shows (store (slotOf sector) p data ide)
      (Function.update content sector (Function.update (content sector) p data)) := by
  have others : ∀ j, j < nrSecCache → j ≠ slotOf sector → (ide.cache j).used = true →
      (ide.cache j).sector ≠ sector := by
    intro j small other inUse same
    exact other (by rw [← same, shows.tag j small inUse])
  refine shows_setSlot
    (fun j small different => ⟨shows.tag j small, shows.used j small, fun inUse => ?_⟩) ?_
    fun s clean => ?_
  · rw [Function.update_of_ne (others j small different inUse)]
    exact shows.cached j small inUse
  · refine ⟨shows.tag _ (slotOf_lt sector), fun _ => used, fun _ => ?_⟩
    show Function.update (ide.cache (slotOf sector)).content p data
      = Function.update content sector _ (ide.cache (slotOf sector)).sector
    rw [shows.cached _ (slotOf_lt sector) used, tag, Function.update_self]
  · have other : s ≠ sector := by
      rintro rfl
      exact clean (by simp [tag])
    rw [Function.update_of_ne other]
    refine shows.stored s fun held => clean ?_
    by_cases same : slotOf s = slotOf sector
    · exact absurd (held.2.symm.trans (by rw [same, tag])) other
    · rw [setSlot_other _ _ same]
      exact held

theorem flatten_update (offset : UInt32) (data : UInt8) :
    flatten (Function.update content (offset >>> 9)
        (Function.update (content (offset >>> 9)) (place offset) data))
      = Function.update (flatten content) offset data := by
  funext x
  by_cases same : x = offset
  · subst same
    simp [flatten]
  · rw [Function.update_of_ne same]
    unfold flatten
    by_cases sector : x >>> 9 = offset >>> 9
    · have within : place x ≠ place offset := fun within => same (eq_of_sector sector within)
      rw [sector, Function.update_self, Function.update_of_ne within]
    · rw [Function.update_of_ne sector]

theorem Shows.writeByte (shows : Shows ide content) (offset : UInt32) (data : UInt8) :
    Shows (writeByte offset data ide) (Function.update content (offset >>> 9)
      (Function.update (content (offset >>> 9)) (place offset) data)) := by
  obtain ⟨after, used, tag⟩ := shows.cacheFetch (offset >>> 9)
  exact after.store used tag _ _

/-! ### Runs -/

theorem Shows.call (shows : Shows ide content) (call : Call) :
    ∃ content', Shows (call.run ide).2 content' ∧
      (call.run ide).1 = (call.flat (flatten content)).1 ∧
      flatten content' = (call.flat (flatten content)).2 := by
  cases call with
  | readByte offset =>
      obtain ⟨value, after⟩ := shows.readByte offset
      exact ⟨content, after, congrArg some value, rfl⟩
  | writeByte offset data => exact ⟨_, shows.writeByte offset data, rfl, flatten_update offset data⟩
  | cacheWriteback =>
      obtain ⟨after, _⟩ := shows.cacheWriteback
      exact ⟨content, by simpa only [Call.run] using after, rfl, rfl⟩

theorem Shows.runCalls (shows : Shows ide content) (calls : List Call) :
    ∃ content', Shows (runCalls Call.run calls ide).2 content' ∧
      (runCalls Call.run calls ide).1 = (Drivers.runCalls Call.flat calls (flatten content)).1 ∧
      flatten content' = (Drivers.runCalls Call.flat calls (flatten content)).2 := by
  induction calls generalizing ide content with
  | nil => exact ⟨content, shows, rfl, rfl⟩
  | cons first rest ih =>
      obtain ⟨middle, after, value, same⟩ := shows.call first
      obtain ⟨last, final, values, bytes⟩ := ih after
      rw [same] at values bytes
      exact ⟨last, final, congrArg₂ List.cons value values, bytes⟩

theorem initLoop_cache {count : Nat} (j : Nat) :
    (initLoop count ide).cache j =
      { ide.cache j with used := (ide.cache j).used && count ≤ j } := by
  induction count with
  | zero => simp [initLoop]
  | succ count ih =>
      show (initSlot count (initLoop count ide)).cache j = _
      by_cases same : j = count
      · subst same
        rw [initSlot, setSlot_self, ih]
        simp
      · rw [initSlot, setSlot_other _ _ same, ih]
        have bound : count ≤ j ↔ count + 1 ≤ j := by omega
        simp only [bound]

theorem initLoop_disk {count : Nat} : (initLoop count ide).disk = ide.disk := by
  induction count with
  | zero => rfl
  | succ count ih => exact ih

/-- An empty cache stands for what is on the disk. -/
theorem shows_cacheInit (clean : ∀ i, i < nrSecCache → (ide.cache i).dirty = false) :
    Shows (cacheInit ide) ide.disk := by
  have unused : ∀ j, j < nrSecCache → ((cacheInit ide).cache j).used = false := by
    intro j small
    rw [cacheInit, initLoop_cache]
    simp [small]
  have undirty : ∀ j, j < nrSecCache → ((cacheInit ide).cache j).dirty = false := by
    intro j small
    rw [cacheInit, initLoop_cache]
    exact clean j small
  refine ⟨fun j small inUse => ?_, fun j small dirty => ?_, fun j small inUse => ?_, fun s _ => ?_⟩
  · exact absurd inUse (by simp [unused j small])
  · exact absurd dirty (by simp [undirty j small])
  · exact absurd inUse (by simp [unused j small])
  · rw [cacheInit, initLoop_disk]

end Operations

/-- **The cache refines a flat disk**: after `cache_init` on a cache without dirty slots, every
sequence of calls returns what an array of bytes returns that starts with the disk's content, and a
write-back then leaves the disk with the content of that array. -/
theorem cache_refines_disk (ide : Ide) (clean : ∀ i, i < nrSecCache → (ide.cache i).dirty = false)
    (calls : List Call) :
    (runCalls Call.run calls (cacheInit ide)).1 = (runCalls Call.flat calls (flatten ide.disk)).1 ∧
      flatten (cacheWriteback (runCalls Call.run calls (cacheInit ide)).2).disk
        = (runCalls Call.flat calls (flatten ide.disk)).2 := by
  obtain ⟨content, after, values, bytes⟩ := (shows_cacheInit clean).runCalls calls
  refine ⟨values, ?_⟩
  rw [after.cacheWriteback.2]
  exact bytes

/-- Two sectors of the same slot: the first is written back when the second is read. -/
def collidingCalls : List Call := [.writeByte 5 7, .readByte 65541, .readByte 5, .cacheWriteback]

/-- A disk of zeros with an empty cache. -/
def blankIde : Ide where
  cache _ := { sector := 0, used := false, dirty := false, content := fun _ => 0 }
  disk _ _ := 0

theorem cache_refines_disk_colliding :
    (runCalls Call.run collidingCalls (cacheInit blankIde)).1 = [none, some 0, some 7, none] :=
  (cache_refines_disk blankIde (fun _ _ => rfl) collidingCalls).1.trans (by decide)

end NjuOs.Drivers
