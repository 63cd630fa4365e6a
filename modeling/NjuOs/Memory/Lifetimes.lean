/-
**The frames of all processes, over their lifetimes.**

The manager gives a process an address space (CREATE_SPACE, CREATE_CHILD_SPACE), exchanges it
(EXEC_MEMORY) and takes it back (EXIT_MEMORY). `Lives pool memory live used ram`: the address spaces
of the processes in `live` share no frame, and `used` is what they have together. One of them can be
parted from the others (`Lives.part`), and a new one joins them (`Lives.join`); what is done to it
in between is foreign to the others (`Lives.foreign`).

So every request keeps `Managed`, where `used` is what `page_bitmap` marks (`Managed.step`), and
along every run the marked frames are those that a live process has, each in one place
(`frames_owned`). Between requests others run, who write no directory and no table of a live
process.
-/

import NjuOs.Memory.Child
import NjuOs.Memory.Loader
import NjuOs.Memory.Takeback
import Mathlib.Logic.Relation

namespace NjuOs.Memory

open NjuOs.Lib

/-- The address spaces of the processes in `live`. -/
structure Lives (pool : PcbPool) (memory : Pid) (live : Set Pid) (used : Set Nat)
    (ram : Store) : Prop where
  owned : Owned (Among live fun q a f => reach (tables ram) (pool.pdir q) a = some f) ∅ used
  kernel : ∀ q, q ∈ live → KernelMapped (tables ram) (pool.pdir q)
  manager : ram (flagAt pool memory) ≠ 0

/-- They have the frames that are marked. -/
structure Managed (pool : PcbPool) (memory : Pid) (live : Set Pid) (s : MemoryState) : Prop where
  lives : Lives pool memory live (usedFrames s) s.ram
  cursor : s.bitmapIdx < pageNum

/-- No frame is in use. -/
structure Booted (pool : PcbPool) (memory : Pid) (s : MemoryState) : Prop where
  bitmap : ∀ b, b < pageNum → s.pageBitmap b = false
  cursor : s.bitmapIdx = 0
  manager : s.ram (flagAt pool memory) ≠ 0

/-- The program headers that a load from `s` goes through are ordered. -/
def HeadersOrdered (pool : PcbPool) (memory pid : Pid) (readElf : ReadElf)
    (s : MemoryState) : Prop :=
  ∀ headers, outcome (passProgram pool memory pid readElf) s = some headers → Ordered headers

/-- A request to the manager that is answered, or what others do in between, with the processes that
are live. A process for which a program is loaded is no kernel thread. -/
inductive Request (pool : PcbPool) (memory : Pid) (own : Set Nat) :
    Set Pid × MemoryState → Set Pid × MemoryState → Prop
  | create {live : Set Pid} {s s' : MemoryState} (pid : Pid) (readElf : ReadElf) (new : pid ∉ live)
      (user : s.ram (flagAt pool pid) = 0) (serves : Serves pool memory pid own readElf)
      (ordered : HeadersOrdered pool memory pid readElf s)
      (run : handlePcb pool memory pid readElf s = .ok ⟨⟩ s') :
      Request pool memory own (live, s) (insert pid live, s')
  | child {live : Set Pid} {s s' : MemoryState} (ppid cpid : Pid) (parent : ppid ∈ live)
      (new : cpid ∉ live)
      (run : handleChild pool ppid cpid s = .ok ⟨⟩ s') :
      Request pool memory own (live, s) (insert cpid live, s')
  | exec {live : Set Pid} {s s' : MemoryState} (pid : Pid) (file : Option ReadElf) (answer : Int)
      (alive : pid ∈ live)
      (user : s.ram (flagAt pool pid) = 0)
      (serves : ∀ readElf, file = some readElf → Serves pool memory pid own readElf)
      (ordered : ∀ readElf s₁, file = some readElf →
        takebackPage (pool.pdir pid * pageSize) s = .ok ⟨⟩ s₁ →
        HeadersOrdered pool memory pid readElf s₁)
      (run : handleExec pool memory pid file s = .ok answer s') :
      Request pool memory own (live, s) (live, s')
  | exit {live : Set Pid} {s s' : MemoryState} (pid : Pid) (alive : pid ∈ live)
      (run : handleExit pool pid s = .ok ⟨⟩ s') :
      Request pool memory own (live, s) (live \ {pid}, s')
  | others {live : Set Pid} {s s' : MemoryState}
      (spared : ∀ q x, q ∈ live → InTables (tables s.ram) (pool.pdir q) x → s'.ram x = s.ram x)
      (manager : s'.ram (flagAt pool memory) = s.ram (flagAt pool memory))
      (bitmap : s'.pageBitmap = s.pageBitmap) (cursor : s'.bitmapIdx = s.bitmapIdx) :
      Request pool memory own (live, s) (live, s')

section Lifetimes

variable {pool : PcbPool} {memory pid : Pid} {live : Set Pid} {used others : Set Nat}
  {own : Set Nat} {ram r : Store} {s s' s₀ : MemoryState} {readElf : ReadElf}

/-! ### One address space and the others -/

/-- Where the directories and tables of the processes are as they were, so are the address
spaces. -/
theorem Lives.spared (lives : Lives pool memory live used ram)
    (spared : ∀ q x, q ∈ live → InTables (tables ram) (pool.pdir q) x → r x = ram x)
    (manager : r (flagAt pool memory) = ram (flagAt pool memory)) :
    Lives pool memory live used r where
  owned := by
    refine lives.owned.congr fun slot f => and_congr_right fun member => ?_
    show reach (tables r) (pool.pdir slot.1) slot.2 = some f ↔
      reach (tables ram) (pool.pdir slot.1) slot.2 = some f
    rw [kernel_reach (lives.kernel slot.1 member) fun x => spared slot.1 x member]
  kernel := fun q member => kernel_spared (lives.kernel q member) fun x => spared q x member
  manager := by
    rw [manager]
    exact lives.manager

/-- What is foreign to another process holds their address spaces. -/
theorem Lives.foreign (lives : Lives pool memory live others ram) (new : pid ∉ live)
    (foreign : ∀ x, Foreign pool pid others x → r x = ram x) : Lives pool memory live others r := by
  refine lives.spared (fun q x member inside => foreign x ?_)
    (foreign _ (.inr (.inr ⟨memory, rfl⟩)))
  rcases inside with directory | ⟨i, table⟩
  · refine .inr (.inl ⟨q, ?_, directory⟩)
    rintro rfl
    exact new member
  · exact .inl (lives.owned.used_of_holds (a := (q, .table i)) ⟨member, table⟩)

/-- An address space joins them. -/
theorem Lives.join (lives : Lives pool memory live others s.ram)
    (space : UserSpace (pool.pdir pid) others s) :
    Lives pool memory (insert pid live) (usedFrames s) s.ram where
  owned := lives.owned.join space.owned
  kernel := by
    rintro q (rfl | member)
    · exact space.kernel
    · exact lives.kernel q member
  manager := lives.manager

/-- An address space is parted from the others. -/
theorem Managed.part (managed : Managed pool memory live s) (alive : pid ∈ live) :
    ∃ others, Lives pool memory (live \ {pid}) others s.ram ∧
    UserSpace (pool.pdir pid) others s := by
  have lives := managed.lives
  have split : insert pid (live \ {pid}) = live := Set.insert_sdiff_self_of_mem alive
  obtain ⟨others, theirs, mine⟩ :=
    Owned.part (q := pid) (split ▸ lives.owned) fun inside => inside.2 rfl
  have range := pool.pdir_range pid
  exact ⟨others, ⟨theirs, fun q inside => lives.kernel q inside.1, lives.manager⟩,
    ⟨⟨mine, by omega, managed.cursor⟩, lives.kernel pid alive⟩⟩

/-- A process is given an address space, and nothing foreign to it is touched. -/
theorem Managed.enter (managed : Managed pool memory live s) (new : pid ∉ live)
    (space : UserSpace (pool.pdir pid) (usedFrames s) s')
    (foreign : ∀ x, Foreign pool pid (usedFrames s) x → s'.ram x = s.ram x) :
    Managed pool memory (insert pid live) s' where
  lives := (managed.lives.foreign new foreign).join space
  cursor := space.cursor

/-! ### The requests -/

theorem managed_booted (booted : Booted pool memory s) : Managed pool memory ∅ s where
  lives := by
    have none : usedFrames s = ∅ := by
      refine Set.eq_empty_of_forall_notMem fun f member => ?_
      obtain ⟨b, inside, set, _⟩ := member
      rw [booted.bitmap b inside] at set
      cases set
    refine ⟨?_, fun q member => member.elim, booted.manager⟩
    rw [none]
    exact ⟨fun a _ _ first => first.1.elim, fun _ _ first => first.1.elim, fun f =>
      ⟨fun member => member.elim, fun here => here.elim id fun ⟨_, first⟩ => first.1⟩⟩
  cursor := by
    rw [booted.cursor]
    decide

/-- CREATE_SPACE, and EXEC_MEMORY behind `takeback_page`. -/
theorem Managed.load (managed : Managed pool memory live s) (new : pid ∉ live)
    (user : s.ram (flagAt pool pid) = 0) (serves : Serves pool memory pid own readElf)
    (ordered : HeadersOrdered pool memory pid readElf s)
    (run : loadProgram pool memory pid readElf s = .ok ⟨⟩ s') :
    Managed pool memory (insert pid live) s' := by
  rw [loadProgram_eq] at run
  obtain ⟨headers, s₁, pass, rest⟩ := bind_eq_ok.mp run
  obtain ⟨_, rfl⟩ := pure_eq_ok.mp rest
  obtain ⟨space, foreign⟩ := passProgram_space serves managed.cursor managed.lives.manager user pass
    (ordered headers (outcome_of_run pass))
  exact managed.enter new space foreign

/-- CREATE_CHILD_SPACE. -/
theorem Managed.child {ppid cpid : Pid} (managed : Managed pool memory live s)
    (parent : ppid ∈ live) (new : cpid ∉ live) (run : handleChild pool ppid cpid s = .ok ⟨⟩ s') :
    Managed pool memory (insert cpid live) s' := by
  have differ : ppid ≠ cpid := fun same => new (same ▸ parent)
  have source : Source (tables s.ram) (pool.pdir ppid) (usedFrames s) :=
    ⟨fun a f _ here => managed.lives.owned.used_of_holds (a := (ppid, a)) ⟨parent, here⟩⟩
  obtain ⟨_, space, same⟩ := (handleChild_ends differ managed.cursor source).of_ok run
  refine managed.enter new space fun x here => ?_
  rcases here.cases with member | ⟨_, kernel, directory⟩
  · have range := used_range member
    have low := pool.pdir_range cpid
    exact same x (by omega) (.inr member)
  · exact same x directory (.inl kernel)

/-- `takeback_page`, in EXIT_MEMORY and EXEC_MEMORY. -/
theorem Managed.takeback (managed : Managed pool memory live s) (alive : pid ∈ live)
    (run : takebackPage (pool.pdir pid * pageSize) s = .ok ⟨⟩ s') :
    Managed pool memory (live \ {pid}) s' ∧ s'.ram (flagAt pool pid) = s.ram (flagAt pool pid) := by
  obtain ⟨others, theirs, space⟩ := managed.part alive
  obtain ⟨s₁, run₁, used, clears⟩ := takebackPage_ok space
  obtain rfl : s₁ = s' := by
    rw [run] at run₁
    cases run₁
    rfl
  have foreign : ∀ x, Foreign pool pid others x → s₁.ram x = s.ram x := by
    intro x here
    have low := space.low
    rcases here.cases with member | ⟨_, kernel, directory⟩
    · have range := used_range (space.owned.used_of_held member)
      exact clears.bytes x (by omega) fun k _ below table => space.held_ne member k
        (reach_table_eq_some.mpr ⟨below, table⟩)
    · refine clears.bytes x directory fun k _ below table => ?_
      have range := space.range (a := .table k) (reach_table_eq_some.mpr ⟨below, table⟩)
      omega
  exact ⟨⟨used ▸ theirs.foreign (fun inside => inside.2 rfl) foreign,
    by rw [clears.cursor]; exact managed.cursor⟩,
    foreign _ (.inr (.inr ⟨pid, rfl⟩))⟩

/-- **Every request keeps the address spaces apart.** -/
theorem Managed.step {live' : Set Pid} (managed : Managed pool memory live s)
    (step : Request pool memory own (live, s) (live', s')) : Managed pool memory live' s' := by
  cases step with
  | create pid readElf new user serves ordered run => exact managed.load new user serves ordered run
  | child ppid cpid parent new run => exact managed.child parent new run
  | exec pid file answer alive user serves ordered run =>
      cases file with
      | none =>
          obtain ⟨_, rfl⟩ := pure_eq_ok.mp run
          exact managed
      | some readElf =>
          obtain ⟨_, s₁, back, run⟩ := bind_eq_ok.mp run
          obtain ⟨_, s₂, load, run⟩ := bind_eq_ok.mp run
          obtain ⟨_, rfl⟩ := pure_eq_ok.mp run
          obtain ⟨rest, flag⟩ := managed.takeback alive back
          have loaded := rest.load (fun inside => inside.2 rfl) (flag.trans user)
            (serves readElf rfl) (ordered readElf s₁ rfl back) load
          rwa [Set.insert_sdiff_self_of_mem alive] at loaded
  | exit pid alive run => exact (managed.takeback alive run).1
  | others spared manager bitmap cursor =>
      refine ⟨?_, by rw [cursor]; exact managed.cursor⟩
      rw [show usedFrames s' = usedFrames s by unfold usedFrames; rw [bitmap]]
      exact managed.lives.spared spared manager

theorem Managed.run (booted : Booted pool memory s₀)
    (run : Relation.ReflTransGen (Request pool memory own) (∅, s₀) (live, s)) :
    Managed pool memory live s := by
  generalize final : (live, s) = last at run
  induction run generalizing live s with
  | refl =>
      cases final
      exact managed_booted booted
  | @tail middle _ _ step ih =>
      subst final
      obtain ⟨live₁, s₁⟩ := middle
      exact (ih rfl).step step

/-! ### What the bitmap says -/

/-- **A frame is marked if and only if it is a table or a page of a live process, in one place of
one process.** The entries from `0xC0000000` on are those of the kernel's tables once more. -/
structure FramesOwned (pool : PcbPool) (live : Set Pid) (s : MemoryState) : Prop where
  marked : ∀ f, f ∈ usedFrames s ↔ ∃ q a, q ∈ live ∧ reach (tables s.ram) (pool.pdir q) a = some f
  once : ∀ q q' a a' f, q ∈ live → q' ∈ live → reach (tables s.ram) (pool.pdir q) a = some f →
    reach (tables s.ram) (pool.pdir q') a' = some f → q = q' ∧ a = a'
  upper : ∀ q i, q ∈ live → 768 ≤ i → ∀ t, tables s.ram (pool.pdir q) i = some t →
    i < 772 ∧ tables s.ram (pool.pdir q) (i - 768) = some t

theorem Managed.framesOwned (managed : Managed pool memory live s) : FramesOwned pool live s where
  marked := by
    intro f
    rw [managed.lives.owned.marked f]
    constructor
    · rintro (nothing | ⟨⟨q, a⟩, member, here⟩)
      · exact (Set.notMem_empty f nothing).elim
      · exact ⟨q, a, member, here⟩
    · rintro ⟨q, a, member, here⟩
      exact .inr ⟨(q, a), member, here⟩
  once := by
    intro q q' a a' f member member' here here'
    have same := managed.lives.owned.unique (q, a) (q', a') f ⟨member, here⟩ ⟨member', here'⟩
    exact ⟨congrArg Prod.fst same, congrArg Prod.snd same⟩
  upper := by
    intro q i member high t entry
    have kernel := managed.lives.kernel q member
    by_cases upper : i < 772
    · obtain ⟨u, first, second, _⟩ := kernel.tables (i - 768) (by omega)
      rw [show i - 768 + 768 = i by omega, entry] at second
      cases second
      exact ⟨upper, first⟩
    · rw [kernel.rest i (by omega)] at entry
      cases entry

/-- **Page-frame ownership**, in every state that any run of requests reaches; an EXEC_MEMORY whose
file cannot be opened changes nothing. -/
theorem frames_owned (booted : Booted pool memory s₀)
    (run : Relation.ReflTransGen (Request pool memory own) (∅, s₀) (live, s)) :
    FramesOwned pool live s ∧ ∀ pid, handleExec pool memory pid none s = .ok (-1) s :=
  ⟨(Managed.run booted run).framesOwned, fun _ => rfl⟩

end Lifetimes

/-! ### A run -/

/-- A child of it takes at most the frames of three tables and pages, and of the stack. -/
theorem bootFile_spaceFrames {s : MemoryState} (loaded : ProgramLoaded bootPool 1 bootFile s) :
    spaceFrames (tables s.ram) (bootPool.pdir 1) 764 ≤ 3 + 1025 := by
  have below : spaceFrames (tables s.ram) (bootPool.pdir 1) 763 ≤ 3 :=
    spaceFrames_few (by omega) fun a low high here => bootFile_places loaded low high here
  have stack : tableFrames (tables s.ram) (bootPool.pdir 1) 767 ≤ 1025 := by
    have pages := Nat.count_le
      (p := fun j => (reach (tables s.ram) (bootPool.pdir 1) (.page 767 j)).isSome) (n := 1024)
    unfold tableFrames
    split <;> omega
  have last : spaceFrames (tables s.ram) (bootPool.pdir 1) 764 =
      spaceFrames (tables s.ram) (bootPool.pdir 1) 763 +
        tableFrames (tables s.ram) (bootPool.pdir 1) 767 :=
    Finset.sum_range_succ _ _
  omega

/-- Its frames are those of its tables, of the stack and of two pages. -/
theorem bootFile_used {s : MemoryState} (loaded : ProgramLoaded bootPool 1 bootFile s)
    (space : UserSpace (bootPool.pdir 1) ∅ s) : Room (pageNum - (768 + 1024 + 2)) s := by
  obtain ⟨P, is_P⟩ : ∃ P : Finset Place, P = (Finset.range 768).image .table ∪
    (Finset.range 1024).image (.page 767) ∪
    {.page 4 0, .page 4 1} := ⟨_, rfl⟩
  have size : P.card ≤ 768 + 1024 + 2 := by
    have tables := Finset.card_image_le (s := Finset.range 768) (f := Place.table)
    have pages := Finset.card_image_le (s := Finset.range 1024) (f := Place.page 767)
    rw [Finset.card_range] at tables pages
    rw [is_P]
    exact le_trans (Finset.card_union_le _ _)
      (Nat.add_le_add (le_trans (Finset.card_union_le _ _) (Nat.add_le_add tables pages))
        Finset.card_le_two)
  have room : Room (pageNum - P.card) s := by
    refine room_of_used (T := tables s.ram) (d := bootPool.pdir 1) fun f member => ?_
    rcases (space.owned.marked f).mp member with nothing | ⟨a, here⟩
    · exact nothing.elim
    refine ⟨a, ?_, here⟩
    rw [is_P]
    cases a with
    | table i =>
        have small := (reach_table_eq_some.mp here).1
        simp [small]
    | page i j =>
        obtain ⟨low, high, t, _, entry⟩ := reach_page_eq_some.mp here
        have small := tables_small entry
        rcases Nat.lt_or_ge i 767 with below | top
        · have some : reach (tables s.ram) (bootPool.pdir 1) (.page i j) ≠ none := by
            rw [here]
            exact Option.some_ne_none f
          rcases bootFile_places loaded (a := .page i j) low below some with same | same | same
          · cases same
          · simp [same]
          · simp [same]
        · obtain rfl : i = 767 := by omega
          simp [small]
  exact le_trans (by omega) room

/-- There is room for a child of it. -/
theorem bootFile_child {s : MemoryState} (loaded : ProgramLoaded bootPool 1 bootFile s)
    (space : UserSpace (bootPool.pdir 1) ∅ s) :
    Room (4 + spaceFrames (tables s.ram) (bootPool.pdir 1) 764) s := by
  have few := bootFile_spaceFrames loaded
  have room := bootFile_used loaded space
  unfold pageNum at room
  exact le_trans (by omega) room

/-- A load of the file for process 1 that the manager is asked for where no other process is
live. -/
theorem bootFile_load {s : MemoryState} (managed : Managed bootPool 0 ∅ s)
    (user : s.ram (flagAt bootPool 1) = 0) :
    ∃ s', loadProgram bootPool 0 1 (strictReadElf bootFile 400) s = .ok ⟨⟩ s' ∧
      HeadersOrdered bootPool 0 1 (strictReadElf bootFile 400) s ∧
      ProgramLoaded bootPool 1 bootFile s' ∧ UserSpace (bootPool.pdir 1) ∅ s' ∧
      s'.ram (flagAt bootPool 1) = 0 := by
  have none : usedFrames s = ∅ := by
    refine Set.eq_empty_of_forall_notMem fun f member => ?_
    rcases (managed.lives.owned.marked f).mp member with nothing | ⟨_, member, _⟩
    · exact nothing
    · exact member
  obtain ⟨s', pass, loaded⟩ := bootFile_pass none managed.cursor
  obtain ⟨space, foreign⟩ :=
    passProgram_space (strictReadElf_serves bootFile 400) managed.cursor managed.lives.manager user
    pass bootFile_executable.ordered
  rw [none] at space
  refine ⟨s', ?_, fun headers same => ?_, loaded, space, ?_⟩
  · rw [loadProgram_eq, run_bind pass]
    rfl
  · rw [outcome_of_run pass] at same
    cases same
    exact bootFile_executable.ordered
  · rw [foreign _ (.inr (.inr ⟨1, rfl⟩))]
    exact user

/-- A program is loaded for process 1 and once more by EXEC_MEMORY; process 2 becomes its child, and
process 1 ends. -/
theorem frames_owned_once : ∃ s₁ s₂ s₃ s₄,
    handlePcb bootPool 0 1 (strictReadElf bootFile 400) startMemory = .ok ⟨⟩ s₁ ∧
    handleExec bootPool 0 1 (some (strictReadElf bootFile 400)) s₁ = .ok 0 s₂ ∧
    handleChild bootPool 1 2 s₂ = .ok ⟨⟩ s₃ ∧
    handleExit bootPool 1 s₃ = .ok ⟨⟩ s₄ ∧
    FramesOwned bootPool {1} s₂ ∧ FramesOwned bootPool {2, 1} s₃ ∧ FramesOwned bootPool {2} s₄ ∧
    ∃ f, f ∈ usedFrames s₄ := by
  have booted : Booted bootPool 0 startMemory := ⟨fun _ _ => rfl, rfl, startMemory_manager⟩
  have serves := strictReadElf_serves bootFile 400
  -- CREATE_SPACE
  obtain ⟨s₁, created, ordered, _, _, user₁⟩ :=
    bootFile_load (managed_booted booted) startMemory_user
  have first : Relation.ReflTransGen (Request bootPool 0 ∅) (∅, startMemory) ({1}, s₁) := by
    have step : Request bootPool 0 ∅ (∅, startMemory) (insert 1 ∅, s₁) :=
      .create 1 (strictReadElf bootFile 400) (Set.notMem_empty 1) startMemory_user serves
      ordered created
    rw [insert_empty_eq] at step
    exact .single step
  -- EXEC_MEMORY
  have one : (1 : Pid) ∈ ({1} : Set Pid) := rfl
  obtain ⟨_, _, space₁⟩ := (Managed.run booted first).part one
  obtain ⟨s, back, _⟩ := takebackPage_ok space₁
  obtain ⟨managed, flag⟩ := (Managed.run booted first).takeback one back
  rw [Set.sdiff_self] at managed
  obtain ⟨s₂, load, ordered₂, loaded, space, user₂⟩ := bootFile_load managed (flag.trans user₁)
  have exec : handleExec bootPool 0 1 (some (strictReadElf bootFile 400)) s₁ = .ok 0 s₂ :=
    (run_bind back).trans (run_bind load)
  have second := first.tail (.exec 1 _ 0 one user₁ (fun readElf is => by cases is; exact serves)
      (fun readElf s' is back' => by
    cases is
    rw [back] at back'
    cases back'
    exact ordered₂) exec)
  -- CREATE_CHILD_SPACE
  have source : Source (tables s₂.ram) (bootPool.pdir 1) (usedFrames s₂) :=
    ⟨fun a f _ here => space.owned.used_of_holds here⟩
  have differ : (1 : Pid) ≠ 2 := by decide
  obtain ⟨s₃, child, _⟩ := handleChild_copies differ space.cursor source
    (bootFile_child loaded space)
  have third := second.tail (.child 1 2 one (by decide) child)
  -- EXIT_MEMORY
  obtain ⟨_, _, space₃⟩ := (Managed.run booted third).part (Set.mem_insert_of_mem 2 one)
  obtain ⟨s₄, exit, _⟩ := takebackPage_ok space₃
  have last := third.tail (.exit 1 (Set.mem_insert_of_mem 2 one) exit)
  have two : (insert 2 {1} : Set Pid) \ {1} = {2} := by
    ext q
    simp only [Set.mem_sdiff, Set.mem_insert_iff, Set.mem_singleton_iff]
    exact ⟨fun ⟨here, other⟩ => here.resolve_right other, fun is => ⟨.inl is, by rw [is]; decide⟩⟩
  rw [two] at last
  have alive : (2 : Pid) ∈ ({2} : Set Pid) := rfl
  obtain ⟨_, _, space₄⟩ := (Managed.run booted last).part alive
  obtain ⟨t, entry, _⟩ := space₄.kernel.tables 0 (by omega)
  exact ⟨s₁, s₂, s₃, s₄, created, exec, child, exit, (frames_owned booted second).1,
    (frames_owned booted third).1,
    (frames_owned booted last).1,
    t, space₄.owned.used_of_holds (a := .table 0) (reach_table_eq_some.mpr ⟨by omega, entry⟩)⟩

end NjuOs.Memory
