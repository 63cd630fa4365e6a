/-
**Every process goes on where it was interrupted.**

`irq_handle` ends with `current->tf = tf` and `schedule`, and `asm_do_irq` leaves from the frame of
the process that is the current one then. So the frames of a process lie on its kernel stack, one
below the other: the one of a system call, that of the `int $0x80` in `sleep` below it, and below a
clock interrupt that came in between. Next to the state stands what no machine has, the registers
that each process was interrupted with.

* `contexts_kept`: in every run, whoever is scheduled goes on with these registers, but for what its
  own system call wrote into the frame; whatever the other processes did, and however often it was
  interrupted in an interrupt.
* `stacks_kept`: a user program always enters the kernel at the end of its own kernel stack.

What the code of the kernel and of the programs does between two interrupts is free, but for an
assumption that nothing in the source enforces (`Step.work`): it writes into no frame and keeps to
its stack. A stack that runs over is outside of this, and so is a program that writes into the
kernel, which it could: the tables map the kernel for it too. The way in is one step; an interrupt
between a trap gate and the `cli` behind it would only put one more frame on the same stack.
-/

import NjuOs.Interrupts.TrapFrame

namespace NjuOs.Interrupts

open NjuOs.Lib

/-! ### The machine -/

/-- The kernel stacks: those of the PCBs, and that of the boot loader, on which `idle` runs. -/
structure Stacks (P : Type) where
  idle : P
  lo : P → Nat
  hi : P → Nat
  /-- `current->kstack + KSTACK_SIZE-1`, which `schedule` puts into the TSS. -/
  esp0 : P → UInt32
  room : ∀ p, p ≠ idle → lo p + 77 ≤ hi p
  top : ∀ p, p ≠ idle → (esp0 p).toNat + 1 = hi p
  bound : ∀ p, hi p + 8 < 4294967296
  apart : ∀ p q, p ≠ q → hi p ≤ lo q ∨ hi q ≤ lo p

/-- The state; `frames` are the arguments of `irq_handle` whose frames are still on the stack, the
newest first. -/
structure Machine (P : Type) where
  cpu : Cpu
  esp0 : UInt32
  current : P
  tf : P → UInt32
  frames : P → List UInt32

variable {P : Type}

/-- The stack of `p` is free below this. -/
def Stacks.limit (S : Stacks P) (p : P) : List UInt32 → Nat
  | [] => S.hi p
  | a :: _ => a.toNat

/-- What lies in the frames of a process is left alone. -/
def Spared (ram ram' : Store) (as : List UInt32) (rs : List Regs) : Prop :=
  ∀ f ∈ as.zip rs, ∀ x, f.1.toNat ≤ x → x < f.1.toNat + f.2.size → ram' x = ram x

/-! ### The frames of a process -/

section Frames

variable {S : Stacks P} {p q : P} {a : UInt32} {as : List UInt32} {r : Regs} {rs : List Regs}
  {ram ram' : Store}

/-- The frames of a process lie one below the other on its stack, and are those of its registers.
That of a user program has nothing above it. -/
inductive Nested (S : Stacks P) (ram : Store) (p : P) : List UInt32 → List Regs → Prop where
  | nil : Nested S ram p [] []
  | cons (a : UInt32) (as : List UInt32) (r : Regs) (rs : List Regs) : Frame ram a.toNat r →
      S.lo p ≤ a.toNat →
      a.toNat + r.size ≤ S.limit p as → (r.User → p ≠ S.idle ∧ as = []) → Nested S ram p as rs →
      Nested S ram p (a :: as) (r :: rs)

theorem size_pos (r : Regs) : 68 ≤ r.size ∧ r.size ≤ 76 := by
  unfold Regs.size
  split <;> omega

theorem Nested.limit_le (nested : Nested S ram p as rs) : S.limit p as ≤ S.hi p := by
  induction nested with
  | nil => exact le_rfl
  | cons a as r rs _ _ below _ _ ih =>
      show a.toNat ≤ _
      omega

/-- Every frame lies between the newest one and the end of the stack. -/
theorem Nested.inside (nested : Nested S ram p as rs) {f : UInt32 × Regs} (member : f ∈ as.zip rs) :
    S.lo p ≤ f.1.toNat ∧ S.limit p as ≤ f.1.toNat ∧ f.1.toNat + f.2.size ≤ S.hi p := by
  induction nested with
  | nil => exact absurd member List.not_mem_nil
  | cons a as r rs _ low below _ rest ih =>
      have high := rest.limit_le
      rw [List.zip_cons_cons] at member
      rcases List.mem_cons.mp member with rfl | older
      · exact ⟨low, le_rfl, below.trans high⟩
      · obtain ⟨low', above, inside⟩ := ih older
        refine ⟨low', ?_, inside⟩
        show a.toNat ≤ _
        omega

theorem Nested.spared (nested : Nested S ram p as rs) (spared : Spared ram ram' as rs) :
    Nested S ram' p as rs := by
  induction nested with
  | nil => exact .nil
  | cons a as r rs frame low below bottom rest ih =>
      refine .cons a as r rs (frame.congr (spared (a, r) List.mem_cons_self)) low below bottom
        (ih fun f member => ?_)
      exact spared f (List.mem_cons_of_mem _ member)

/-- What is written below the newest frame, or outside of the stack, spares the frames. -/
theorem Nested.unwritten (nested : Nested S ram p as rs)
    (same : ∀ x, S.lo p ≤ x → S.limit p as ≤ x → x < S.hi p → ram' x = ram x) :
    Nested S ram' p as rs := by
  refine nested.spared fun f member x from_ to_ => ?_
  obtain ⟨low, above, inside⟩ := nested.inside member
  exact same x (by omega) (by omega) (by omega)

/-- What happens in one stack leaves the others alone. -/
theorem Nested.apart (nested : Nested S ram p as rs) (other : p ≠ q)
    (same : ∀ x, x < S.lo q ∨ S.hi q ≤ x → ram' x = ram x) : Nested S ram' p as rs := by
  refine nested.unwritten fun x low _ high => same x ?_
  rcases S.apart p q other with below | above
  · exact .inl (by omega)
  · exact .inr (by omega)

theorem Nested.nil_iff (nested : Nested S ram p as rs) : as = [] ↔ rs = [] := by
  cases nested with
  | nil => exact ⟨fun _ => rfl, fun _ => rfl⟩
  | cons => exact ⟨nofun, nofun⟩

end Frames

/-! ### The invariant -/

section Invariant

variable {S : Stacks P} {s : Machine P} {ctx : P → List Regs}

/-- At the end of the boot, `idle` is the only process there is. -/
structure Boot (S : Stacks P) (s : Machine P) : Prop where
  current : s.current = S.idle
  valid : s.cpu.regs.Valid
  kernel : ¬ s.cpu.regs.User
  low : S.lo S.idle ≤ s.cpu.regs.esp.toNat
  high : s.cpu.regs.esp.toNat ≤ S.hi S.idle
  frames : ∀ p, s.frames p = []

/-- **The invariant**: the frames of every process are nested on its stack, and the stack pointers
are those that belong to them. -/
structure Inv (S : Stacks P) (s : Machine P) (ctx : P → List Regs) : Prop where
  nested : ∀ p, Nested S s.cpu.ram p (s.frames p) (ctx p)
  saved : ∀ p, p ≠ s.current → ∀ a as, s.frames p = a :: as → s.tf p = a
  valid : s.cpu.regs.Valid
  user : s.cpu.regs.User → s.frames s.current = [] ∧ s.current ≠ S.idle
  kernel : ¬ s.cpu.regs.User → S.lo s.current ≤ s.cpu.regs.esp.toNat ∧
    s.cpu.regs.esp.toNat ≤ S.limit s.current (s.frames s.current)
  esp0 : s.current ≠ S.idle → s.esp0 = S.esp0 s.current

theorem Boot.inv (boot : Boot S s) : Inv S s fun _ => [] where
  nested p := by
    rw [boot.frames]
    exact .nil
  saved p _ a as here := by
    rw [boot.frames] at here
    exact absurd here nofun
  valid := boot.valid
  user user := absurd user boot.kernel
  kernel _ := by
    rw [boot.frames, boot.current]
    exact ⟨boot.low, boot.high⟩
  esp0 other := absurd boot.current other

/-- The stack that an interrupt goes on has room. -/
theorem Inv.start_room (inv : Inv S s ctx)
    (room : ¬ s.cpu.regs.User → S.lo s.current + 68 ≤ s.cpu.regs.esp.toNat) :
    S.lo s.current + s.cpu.regs.size ≤ (start s.esp0 s.cpu).regs.esp.toNat ∧
    (start s.esp0 s.cpu).regs.esp.toNat ≤ S.limit s.current (s.frames s.current) := by
  by_cases user : s.cpu.regs.User
  · obtain ⟨empty, pool⟩ := inv.user user
    have top := S.top _ pool
    have size := S.room _ pool
    have frame : s.cpu.regs.size = 76 := if_pos user
    have begins : (start s.esp0 s.cpu).regs.esp = S.esp0 s.current := by
      unfold start
      rw [if_pos user]
      exact inv.esp0 pool
    rw [begins, empty]
    constructor
    · omega
    · show _ ≤ S.hi s.current
      omega
  · have begins : start s.esp0 s.cpu = s.cpu := if_neg user
    have frame : s.cpu.regs.size = 68 := if_neg user
    rw [begins]
    exact ⟨by have := room user; omega, (inv.kernel user).2⟩

theorem Inv.work {cpu : Cpu} (inv : Inv S s ctx) (valid : cpu.regs.Valid)
    (ring : cpu.regs.User ↔ s.cpu.regs.User)
    (kernel : ¬ cpu.regs.User → S.lo s.current ≤ cpu.regs.esp.toNat ∧
      cpu.regs.esp.toNat ≤ S.limit s.current (s.frames s.current))
    (spared : ∀ p, Spared s.cpu.ram cpu.ram (s.frames p) (ctx p)) : Inv S { s with cpu } ctx where
  nested p := (inv.nested p).spared (spared p)
  saved := inv.saved
  valid := valid
  user user := inv.user (ring.mp user)
  kernel := kernel
  esp0 := inv.esp0

end Invariant

/-! ### The steps -/

variable [DecidableEq P] {S : Stacks P} {s s' : Machine P} {ctx ctx' : P → List Regs}

/-- An interrupt, up to the call of `irq_handle`. -/
def Machine.interrupt (s : Machine P) (cpu : Cpu) : Machine P :=
  { s with cpu, frames := Function.update s.frames s.current (cpu.regs.esp :: s.frames s.current) }

/-- A PCB gets a frame. -/
def Machine.setUp (s : Machine P) (p : P) (ram : Store) (a : UInt32) : Machine P :=
  { s with
    cpu.ram := ram
    tf := Function.update s.tf p a
    frames := Function.update s.frames p [a] }

/-- The end of `irq_handle`, whose argument was `a`, and the way back to `next`. -/
def Machine.switch (S : Stacks P) (s : Machine P) (next : P) (a : UInt32) (cpu : Cpu) :
    Machine P where
  cpu
  esp0 := S.esp0 next
  current := next
  tf := Function.update s.tf s.current a
  frames := Function.update s.frames next (s.frames next).tail

/-- **A step**, with the registers that the processes were interrupted with. -/
inductive Step (S : Stacks P) (s : Machine P) (ctx : P → List Regs) :
    Machine P → (P → List Regs) → Prop where
  /-- The code that runs does anything but write into a frame or leave its stack. This is an
  assumption about all code. -/
  | work (cpu : Cpu) : cpu.regs.Valid → (cpu.regs.User ↔ s.cpu.regs.User) →
      (¬ cpu.regs.User → S.lo s.current ≤ cpu.regs.esp.toNat ∧
        cpu.regs.esp.toNat ≤ S.limit s.current (s.frames s.current)) →
      (∀ p, Spared s.cpu.ram cpu.ram (s.frames p) (ctx p)) →
      Step S s ctx { s with cpu } ctx
  | trap (v : Nat) (error : UInt32) (cpu : Cpu) : Handled v →
      (¬ s.cpu.regs.User → S.lo s.current + 68 ≤ s.cpu.regs.esp.toNat) →
      enter s.esp0 v error s.cpu = some cpu →
      Step S s ctx (s.interrupt cpu) (Function.update ctx s.current (s.cpu.regs :: ctx s.current))
  /-- A system call writes into its own frame. -/
  | result (ram : Store) (a : UInt32) (as : List UInt32) (r r' : Regs) (rs : List Regs) :
      ¬ s.cpu.regs.User →
      s.frames s.current = a :: as → ctx s.current = r :: rs → (r'.User ↔ r.User) →
        Frame ram a.toNat r' →
      (∀ x, x < a.toNat ∨ a.toNat + r.size ≤ x → ram x = s.cpu.ram x) →
      Step S s ctx { s with cpu.ram := ram } (Function.update ctx s.current (r' :: rs))
  /-- A PCB is set up, with a frame at the end of its stack. -/
  | create (p : P) (ram : Store) (a : UInt32) (r : Regs) : ¬ s.cpu.regs.User → p ≠ s.current →
      s.frames p = [] →
      p ≠ S.idle → S.lo p ≤ a.toNat → a.toNat + r.size ≤ S.hi p → Frame ram a.toNat r →
      (∀ x, x < S.lo p ∨ S.hi p ≤ x → ram x = s.cpu.ram x) →
      Step S s ctx (s.setUp p ram a) (Function.update ctx p [r])
  /-- A process has come to its end, or is given a new program. -/
  | discard (p : P) : ¬ s.cpu.regs.User → p ≠ s.current →
      Step S s ctx { s with frames := Function.update s.frames p [] } (Function.update ctx p [])
  /-- The end of `irq_handle`: `schedule` has chosen `next`. -/
  | schedule (next : P) (a : UInt32) (as : List UInt32) (cpu : Cpu) : ¬ s.cpu.regs.User →
      s.frames s.current = a :: as →
      s.frames next ≠ [] → leave (Function.update s.tf s.current a next) s.cpu = some cpu →
      Step S s ctx (s.switch S next a cpu) (Function.update ctx next (ctx next).tail)

/-- The states the machine comes to. -/
inductive Reachable (S : Stacks P) : Machine P → (P → List Regs) → Prop where
  | boot (s : Machine P) : Boot S s → Reachable S s fun _ => []
  | step (s s' : Machine P) (ctx ctx' : P → List Regs) : Reachable S s ctx → Step S s ctx s' ctx' →
      Reachable S s' ctx'

/-! ### Every step keeps the invariant -/

section Preserved

variable {p : P} {a : UInt32} {as : List UInt32} {r r' : Regs} {rs : List Regs} {ram : Store}

theorem Regs.Valid.kernel_ss {r : Regs} (valid : r.Valid) (kernel : ¬ r.User) :
    r.ss = kernelData := by
  rcases valid.code with ⟨_, ss⟩ | ⟨cs, _⟩
  · exact ss
  · exact absurd (valid.user.mpr cs) kernel

theorem kernelCode_not_user {c : Cpu} (cs : c.regs.cs = kernelCode) : ¬ c.regs.User := by
  unfold Regs.User
  rw [cs]
  decide

omit [DecidableEq P] in
/-- The way in is open, and it keeps the frames. -/
theorem Inv.entered {v : Nat} (error : UInt32) (inv : Inv S s ctx) (handled : Handled v)
    (room : ¬ s.cpu.regs.User → S.lo s.current + 68 ≤ s.cpu.regs.esp.toNat) :
    ∃ cpu, enter s.esp0 v error s.cpu = some cpu ∧ Entered s.esp0 v s.cpu cpu := by
  obtain ⟨low, high⟩ := inv.start_room room
  exact enter_frame error handled (by omega) inv.valid

theorem Inv.trap {v : Nat} {error : UInt32} {cpu : Cpu} (inv : Inv S s ctx) (handled : Handled v)
    (room : ¬ s.cpu.regs.User → S.lo s.current + 68 ≤ s.cpu.regs.esp.toNat)
    (ran : enter s.esp0 v error s.cpu = some cpu) :
    Inv S (s.interrupt cpu) (Function.update ctx s.current (s.cpu.regs :: ctx s.current)) := by
  obtain ⟨low, high⟩ := inv.start_room room
  obtain ⟨cpu', ran', entered⟩ := inv.entered error handled room
  obtain rfl := Option.some.inj (ran'.symm.trans ran)
  have own := inv.nested s.current
  have limit := own.limit_le
  have sum := entered.esp
  have kernel := kernelCode_not_user entered.cs
  refine ⟨fun p => ?_, fun p other a as here => ?_, entered.valid, fun user => absurd user kernel,
    fun _ => ⟨?_, ?_⟩, inv.esp0⟩
  · show Nested S cpu'.ram p (Function.update s.frames s.current _ p) (Function.update ctx
      s.current _ p)
    by_cases here : p = s.current
    · subst here
      rw [Function.update_self, Function.update_self]
      refine .cons _ _ _ _ entered.frame (by omega) (by omega) (fun user => (inv.user user).symm)
        (own.unwritten fun x _ above _ => entered.outside x (.inr (by omega)))
    · rw [Function.update_of_ne here, Function.update_of_ne here]
      exact (inv.nested p).apart here fun x away => entered.outside x (by omega)
  · have here : Function.update s.frames s.current _ p = a :: as := here
    have other : p ≠ s.current := other
    rw [Function.update_of_ne other] at here
    exact inv.saved p other a as here
  · show S.lo s.current ≤ cpu'.regs.esp.toNat
    omega
  · show cpu'.regs.esp.toNat ≤ S.limit s.current (Function.update s.frames s.current _ s.current)
    rw [Function.update_self]
    exact le_rfl

theorem size_congr (ring : r'.User ↔ r.User) : r'.size = r.size := by
  unfold Regs.size
  simp only [ring]

theorem Inv.result (inv : Inv S s ctx) (kernel : ¬ s.cpu.regs.User)
    (newest : s.frames s.current = a :: as) (context : ctx s.current = r :: rs)
    (ring : r'.User ↔ r.User) (frame : Frame ram a.toNat r')
    (outside : ∀ x, x < a.toNat ∨ a.toNat + r.size ≤ x → ram x = s.cpu.ram x) :
    Inv S { s with cpu.ram := ram } (Function.update ctx s.current (r' :: rs)) := by
  have own := inv.nested s.current
  rw [newest, context] at own
  obtain _ | ⟨_, _, _, _, _, low, below, bottom, rest⟩ := own
  have limit := rest.limit_le
  refine ⟨fun p => ?_, inv.saved, inv.valid, fun user => absurd user kernel, inv.kernel, inv.esp0⟩
  show Nested S ram p (s.frames p) (Function.update ctx s.current _ p)
  by_cases here : p = s.current
  · subst here
    rw [Function.update_self, newest]
    exact .cons a as r' rs frame low (by rw [size_congr ring]; exact below)
      (fun user => bottom (ring.mp user))
      (rest.unwritten fun x _ above _ => outside x (.inr (by omega)))
  · rw [Function.update_of_ne here]
    exact (inv.nested p).apart here fun x away => outside x (by omega)

theorem Inv.create (inv : Inv S s ctx) (kernel : ¬ s.cpu.regs.User) (other : p ≠ s.current)
    (pool : p ≠ S.idle) (low : S.lo p ≤ a.toNat) (high : a.toNat + r.size ≤ S.hi p)
    (frame : Frame ram a.toNat r) (outside : ∀ x, x < S.lo p ∨ S.hi p ≤ x → ram x = s.cpu.ram x) :
    Inv S (s.setUp p ram a) (Function.update ctx p [r]) := by
  have away : Function.update s.frames p [a] s.current = s.frames s.current :=
    Function.update_of_ne other.symm ..
  refine ⟨fun q => ?_, fun q notCurrent b bs here => ?_, inv.valid,
    fun user => absurd user kernel, ?_, inv.esp0⟩
  · show Nested S ram q (Function.update s.frames p [a] q) (Function.update ctx p [r] q)
    by_cases here : q = p
    · subst here
      rw [Function.update_self, Function.update_self]
      exact .cons a [] r [] frame low high (fun _ => ⟨pool, rfl⟩) .nil
    · rw [Function.update_of_ne here, Function.update_of_ne here]
      exact (inv.nested q).apart here outside
  · have here : Function.update s.frames p [a] q = b :: bs := here
    show Function.update s.tf p a q = b
    by_cases same : q = p
    · subst same
      rw [Function.update_self] at here ⊢
      exact (List.cons.inj here).1
    · rw [Function.update_of_ne same] at here ⊢
      exact inv.saved q notCurrent b bs here
  · show ¬ s.cpu.regs.User → S.lo s.current ≤ s.cpu.regs.esp.toNat ∧
      s.cpu.regs.esp.toNat ≤ S.limit s.current (Function.update s.frames p [a] s.current)
    rw [away]
    exact inv.kernel

theorem Inv.discard (inv : Inv S s ctx) (other : p ≠ s.current) :
    Inv S { s with frames := Function.update s.frames p [] } (Function.update ctx p []) := by
  have away : Function.update s.frames p [] s.current = s.frames s.current :=
    Function.update_of_ne other.symm ..
  refine ⟨fun q => ?_, fun q notCurrent b bs here => ?_, inv.valid, fun user => ?_, ?_, inv.esp0⟩
  · show Nested S s.cpu.ram q (Function.update s.frames p [] q) (Function.update ctx p [] q)
    by_cases here : q = p
    · subst here
      rw [Function.update_self, Function.update_self]
      exact .nil
    · rw [Function.update_of_ne here, Function.update_of_ne here]
      exact inv.nested q
  · have here : Function.update s.frames p [] q = b :: bs := here
    by_cases same : q = p
    · rw [same, Function.update_self] at here
      exact absurd here nofun
    · rw [Function.update_of_ne same] at here
      exact inv.saved q notCurrent b bs here
  · show Function.update s.frames p [] s.current = [] ∧ s.current ≠ S.idle
    rw [away]
    exact inv.user user
  · show ¬ s.cpu.regs.User → S.lo s.current ≤ s.cpu.regs.esp.toNat ∧
      s.cpu.regs.esp.toNat ≤ S.limit s.current (Function.update s.frames p [] s.current)
    rw [away]
    exact inv.kernel

/-- **Who is scheduled goes on with the registers it was interrupted with.** -/
theorem Inv.resumes (inv : Inv S s ctx) (kernel : ¬ s.cpu.regs.User)
    (newest : s.frames s.current = a :: as) (there : s.frames p ≠ []) :
    ∃ b bs r rs, s.frames p = b :: bs ∧ ctx p = r :: rs ∧
      Nested S s.cpu.ram p (b :: bs) (r :: rs) ∧
      leave (Function.update s.tf s.current a p) s.cpu = some { s.cpu with regs := r } := by
  obtain ⟨b, bs, frames⟩ := List.exists_cons_of_ne_nil there
  have nested := inv.nested p
  have some : ctx p ≠ [] := fun none => there (nested.nil_iff.mpr none)
  obtain ⟨r, rs, context⟩ := List.exists_cons_of_ne_nil some
  rw [frames, context] at nested
  refine ⟨b, bs, r, rs, frames, context, nested, ?_⟩
  have tf : Function.update s.tf s.current a p = b := by
    by_cases same : p = s.current
    · rw [same, Function.update_self]
      rw [same, newest] at frames
      exact (List.cons.inj frames).1
    · rw [Function.update_of_ne same]
      exact inv.saved p same b bs frames
  rw [tf]
  obtain _ | ⟨_, _, _, _, frame, _, below, _, rest⟩ := nested
  have limit := rest.limit_le
  have bound := S.bound p
  have size := size_pos r
  exact leave_frame frame (by omega) (inv.valid.kernel_ss kernel)

theorem Inv.schedule {cpu : Cpu} (inv : Inv S s ctx) (kernel : ¬ s.cpu.regs.User)
    (newest : s.frames s.current = a :: as) (there : s.frames p ≠ [])
    (left : leave (Function.update s.tf s.current a p) s.cpu = some cpu) :
    Inv S (s.switch S p a cpu) (Function.update ctx p (ctx p).tail) := by
  obtain ⟨b, bs, r, rs, frames, context, nested, left'⟩ := inv.resumes kernel newest there
  obtain rfl := Option.some.inj (left'.symm.trans left)
  unfold Machine.switch
  rw [frames, context]
  obtain _ | ⟨_, _, _, _, frame, low, below, bottom, rest⟩ := nested
  refine ⟨fun q => ?_, fun q notNext c cs here => ?_, frame.valid, fun user => ?_,
    fun user => ?_, fun _ => rfl⟩
  · show Nested S s.cpu.ram q (Function.update s.frames p bs q) (Function.update ctx p rs q)
    by_cases same : q = p
    · subst same
      rw [Function.update_self, Function.update_self]
      exact rest
    · rw [Function.update_of_ne same, Function.update_of_ne same]
      exact inv.nested q
  · have here : Function.update s.frames p bs q = c :: cs := here
    have notNext : q ≠ p := notNext
    rw [Function.update_of_ne notNext] at here
    show Function.update s.tf s.current a q = c
    by_cases same : q = s.current
    · rw [same, Function.update_self]
      rw [same, newest] at here
      exact (List.cons.inj here).1
    · rw [Function.update_of_ne same]
      exact inv.saved q same c cs here
  · show Function.update s.frames p bs p = [] ∧ p ≠ S.idle
    rw [Function.update_self]
    exact (bottom user).symm
  · have user : ¬ r.User := user
    have esp := frame.kernel user
    have size : r.size = 68 := if_neg user
    show S.lo p ≤ r.esp.toNat ∧ r.esp.toNat ≤ S.limit p (Function.update s.frames p bs p)
    rw [Function.update_self]
    exact ⟨by omega, by omega⟩

/-- **Every step keeps the invariant.** -/
theorem Inv.step (inv : Inv S s ctx) (step : Step S s ctx s' ctx') : Inv S s' ctx' := by
  cases step with
  | work cpu valid ring kernel spared => exact inv.work valid ring kernel spared
  | trap v error cpu handled room ran => exact inv.trap handled room ran
  | result ram a as r r' rs kernel newest context ring frame outside =>
      exact inv.result kernel newest context ring frame outside
  | create p ram a r kernel other _ pool low high frame outside =>
      exact inv.create kernel other pool low high frame outside
  | discard p _ other => exact inv.discard other
  | schedule next a as cpu kernel newest there left => exact inv.schedule kernel newest there left

theorem Reachable.inv (reachable : Reachable S s ctx) : Inv S s ctx := by
  induction reachable with
  | boot s boot => exact boot.inv
  | step s s' ctx ctx' _ step ih => exact ih.step step

end Preserved

/-! ### New processes -/

section New

variable {kstack x : Nat} {w wrap func argc argv entry : UInt32} {ram : Store}

/-- A word is stored. -/
def put (ram : Store) (a : Nat) (w : UInt32) : Store := ram.writeWords a 1 fun _ => w

theorem word_put : (put ram x w).word x = w := Store.word_writeWords (i := 0) Nat.one_pos

theorem word_put_other {a : Nat} (away : x + 4 ≤ a ∨ a + 4 ≤ x) :
    (put ram a w).word x = ram.word x :=
  Store.word_writeWords_outside away

theorem put_outside {a : Nat} (away : x < a ∨ a + 4 ≤ x) : put ram a w x = ram x :=
  Store.writeWords_outside away

/-- What `create_kthread_1` writes into the kernel stack; the frame is at its end but for the
arguments of `wrap`. -/
def createKthread1 (kstack : Nat) (wrap func argc argv : UInt32) (ram : Store) : Store :=
  let tf := kstack + 4096 - 76 - 16 + 8
  let ram := put ram (tf + 8) 0
  let ram := put ram (tf + 68) (UInt32.ofNat tf)
  let ram := put ram (tf + 64) 0x206
  let ram := put ram (tf + 60) 8
  let ram := put ram (tf + 56) wrap
  let ram := put ram (kstack + 4096 - 4) argv
  let ram := put ram (kstack + 4096 - 8) argc
  put ram (kstack + 4096 - 12) func

/-- What `init_pcb` and, but for `esp`, `exec` write into it. -/
def initPcb (kstack : Nat) (entry esp : UInt32) (ram : Store) : Store :=
  let tf := kstack + 4096 - 76
  let ram := put ram (tf + 8) 0
  let ram := put ram (tf + 72) 0x23
  let ram := put ram (tf + 68) esp
  let ram := put ram (tf + 64) 0x206
  let ram := put ram (tf + 60) 0x1b
  put ram (tf + 56) entry

/-- The registers that lay in the stack at `tf`. -/
def stale (ram : Store) (tf : Nat) : Regs where
  edi := ram.word tf
  esi := ram.word (tf + 4)
  ebp := ram.word (tf + 8)
  esp := ram.word (tf + 68)
  ebx := ram.word (tf + 16)
  edx := ram.word (tf + 20)
  ecx := ram.word (tf + 24)
  eax := ram.word (tf + 28)
  gs := ram.word (tf + 32)
  fs := ram.word (tf + 36)
  es := ram.word (tf + 40)
  ds := ram.word (tf + 44)
  eip := ram.word (tf + 56)
  cs := ram.word (tf + 60)
  eflags := ram.word (tf + 64)
  ss := ram.word (tf + 72)

/-- The processor can load what lies where the segment registers will be taken from. -/
def StaleLoadable (ram : Store) (tf : Nat) : Prop := ∀ s, loads 0 ((stale ram tf).seg s &&& 0xFFFF)

instance (ram : Store) (tf : Nat) : Decidable (StaleLoadable ram tf) :=
  decidable_of_iff (∀ s ∈ [Seg.ds, .es, .fs, .gs], loads 0 ((stale ram tf).seg s &&& 0xFFFF))
    ⟨fun all s => all s (by cases s <;> simp), fun all s _ => all s⟩

/-- How a kernel thread begins. -/
def kthreadRegs (kstack : Nat) (wrap : UInt32) (ram : Store) : Regs :=
  { (stale ram (kstack + 4012)).mapSegs (· &&& 0xFFFF) with
    ebp := 0
    esp := UInt32.ofNat (kstack + 4080)
    eip := wrap
    cs := kernelCode
    eflags := 0x206
    ss := kernelData }

/-- How a program begins. -/
def programRegs (kstack : Nat) (entry esp : UInt32) (ram : Store) : Regs :=
  { (stale ram (kstack + 4020)).mapSegs (fun w => own (w &&& 0xFFFF)) with
    ebp := 0
    esp
    eip := entry
    cs := userCode
    eflags := 0x206
    ss := userData }

theorem returned_kernel {user : Prop} [Decidable user] {w w' : UInt32} (kernel : ¬ user)
    (same : w = w') (loadable : loads 0 (w' &&& 0xFFFF)) :
    returned user w = some (w' &&& 0xFFFF) := by
  rw [same]
  exact returned_eq_some.mpr ⟨loadable, if_neg kernel⟩

theorem returned_user {user : Prop} [Decidable user] {w w' : UInt32} (program : user)
    (same : w = w') (loadable : loads 0 (w' &&& 0xFFFF)) :
    returned user w = some (own (w' &&& 0xFFFF)) := by
  rw [same]
  exact returned_eq_some.mpr ⟨loadable, if_pos program⟩

theorem kthread_frame (wrap func argc argv : UInt32) (ram : Store)
    (room : kstack + 4096 < 4294967296) (loadable : StaleLoadable ram (kstack + 4012)) :
    Frame (createKthread1 kstack wrap func argc argv ram) (kstack + 4012)
      (kthreadRegs kstack wrap ram) := by
  have tf : kstack + 4096 - 76 - 16 + 8 = kstack + 4012 := by omega
  have kernel : ¬ (kthreadRegs kstack wrap ram).User := show ¬ kernelCode % 4 = 3 by decide
  unfold createKthread1
  simp only [tf]
  refine ⟨?_, ?_, ?_, ?_, ?_, ?_, ?_, returned_kernel kernel ?_ (loadable .gs),
    returned_kernel kernel ?_ (loadable .fs),
    returned_kernel kernel ?_ (loadable .es), returned_kernel kernel ?_ (loadable .ds), ?_, ?_, ?_,
    fun user => absurd user kernel, fun _ => ?_, .inl ⟨rfl, rfl⟩⟩
  all_goals try dsimp only [kthreadRegs, stale, Regs.mapSegs, Regs.seg]
  · simp (disch := omega) only [word_put_other]
  · simp (disch := omega) only [word_put_other]
  · simp (disch := omega) only [word_put_other, word_put]
  · simp (disch := omega) only [word_put_other]
  · simp (disch := omega) only [word_put_other]
  · simp (disch := omega) only [word_put_other]
  · simp (disch := omega) only [word_put_other]
  · simp (disch := omega) only [word_put_other]
  · simp (disch := omega) only [word_put_other]
  · simp (disch := omega) only [word_put_other]
  · simp (disch := omega) only [word_put_other]
  · simp (disch := omega) only [word_put_other, word_put]
  · simp (disch := omega) only [word_put_other, word_put]
    decide
  · simp (disch := omega) only [word_put_other, word_put]
  · show (UInt32.ofNat (kstack + 4080)).toNat = _
    rw [UInt32.toNat_ofNat_of_lt' (by
      show kstack + 4080 < 4294967296
      omega)]

theorem program_frame (kstack : Nat) (entry w : UInt32) (ram : Store)
    (loadable : StaleLoadable ram (kstack + 4020)) :
    Frame (initPcb kstack entry w ram) (kstack + 4020) (programRegs kstack entry w ram) := by
  have tf : kstack + 4096 - 76 = kstack + 4020 := by omega
  have user : (programRegs kstack entry w ram).User := show userCode % 4 = 3 by decide
  unfold initPcb
  simp only [tf]
  refine ⟨?_, ?_, ?_, ?_, ?_, ?_, ?_, returned_user user ?_ (loadable .gs),
    returned_user user ?_ (loadable .fs),
    returned_user user ?_ (loadable .es), returned_user user ?_ (loadable .ds), ?_, ?_, ?_,
    fun _ => ⟨?_, ?_⟩,
    fun kernel => absurd user kernel, .inr ⟨rfl, rfl⟩⟩
  all_goals try dsimp only [programRegs, stale, Regs.mapSegs, Regs.seg]
  · simp (disch := omega) only [word_put_other]
  · simp (disch := omega) only [word_put_other]
  · simp (disch := omega) only [word_put_other, word_put]
  · simp (disch := omega) only [word_put_other]
  · simp (disch := omega) only [word_put_other]
  · simp (disch := omega) only [word_put_other]
  · simp (disch := omega) only [word_put_other]
  · simp (disch := omega) only [word_put_other]
  · simp (disch := omega) only [word_put_other]
  · simp (disch := omega) only [word_put_other]
  · simp (disch := omega) only [word_put_other]
  · exact word_put
  · simp (disch := omega) only [word_put_other, word_put]
    decide
  · simp (disch := omega) only [word_put_other, word_put]
  · simp (disch := omega) only [word_put_other, word_put]
  · simp (disch := omega) only [word_put_other, word_put]
    decide

theorem createKthread1_outside (away : x < kstack ∨ kstack + 4096 ≤ x) :
    createKthread1 kstack wrap func argc argv ram x = ram x := by
  unfold createKthread1
  simp (disch := omega) only [put_outside]

theorem initPcb_outside (away : x < kstack ∨ kstack + 4096 ≤ x) :
    initPcb kstack entry w ram x = ram x := by
  unfold initPcb
  simp (disch := omega) only [put_outside]

/-- **A kernel thread starts in `wrap`**, with interrupts on, at the end of its stack, where the
three arguments of `wrap` lie as the caller of a function leaves them. The other registers, the
segments among them, are what lay in the stack, where the processor can load it. -/
theorem kthread_starts {c : Cpu} (room : kstack + 4096 < 4294967296)
    (kernel : c.regs.ss = kernelData) (loadable : StaleLoadable ram (kstack + 4012))
    (written : c.ram = createKthread1 kstack wrap func argc argv ram) :
    leave (UInt32.ofNat (kstack + 4012)) c = some { c with regs := kthreadRegs kstack wrap ram } ∧
    (kthreadRegs kstack wrap ram).esp.toNat + 16 = kstack + 4096 ∧
    c.ram.word (kstack + 4080 + 4) = func ∧ c.ram.word (kstack + 4080 + 8) = argc ∧
    c.ram.word (kstack + 4080 + 12) = argv := by
  have tf : (UInt32.ofNat (kstack + 4012)).toNat = kstack + 4012 := UInt32.toNat_ofNat_of_lt' (by
    show kstack + 4012 < 4294967296
    omega)
  have frame := kthread_frame wrap func argc argv ram room loadable
  have esp := frame.kernel (show ¬ kernelCode % 4 = 3 by decide)
  rw [← written, ← tf] at frame
  refine ⟨leave_frame frame (by omega) kernel, by omega, ?_, ?_, ?_⟩
  · rw [written]
    unfold createKthread1
    simp only [show kstack + 4080 + 4 = kstack + 4096 - 12 by omega, word_put]
  · rw [written]
    unfold createKthread1
    simp (disch := omega) only [word_put_other,
      show kstack + 4080 + 8 = kstack + 4096 - 8 by omega, word_put]
  · rw [written]
    unfold createKthread1
    simp (disch := omega) only [word_put_other,
      show kstack + 4080 + 12 = kstack + 4096 - 4 by omega, word_put]

theorem kthread_starts_idle :
    leave 0xC0200FAC ⟨⟨0, 0, 0, 0xC0007FB0, 0, 0, 0, 0, 0, 0, 16, 16, 0xC0100000, 8, 0x206, 16⟩,
        createKthread1 0xC0200000 0xC0101000 0xC0102000 0 0 fun _ => 0⟩ =
          some ⟨kthreadRegs 0xC0200000 0xC0101000 fun _ => 0,
        createKthread1 0xC0200000 0xC0101000 0xC0102000 0 0 fun _ => 0⟩ :=
  (kthread_starts (show 0xC0200000 + 4096 < 4294967296 by decide) rfl (by decide) rfl).1

end New

section Created

variable {S : Stacks P} {s : Machine P} {ctx : P → List Regs} {p : P}

/-- `create_kthread_1` is a step of the machine. -/
theorem create_kthread_step (wrap func argc argv : UInt32) (kernel : ¬ s.cpu.regs.User)
    (other : p ≠ s.current) (fresh : s.frames p = []) (pool : p ≠ S.idle)
    (size : S.hi p = S.lo p + 4096) (loadable : StaleLoadable s.cpu.ram (S.lo p + 4012)) :
    Step S s ctx (s.setUp p (createKthread1 (S.lo p) wrap func argc argv s.cpu.ram)
        (UInt32.ofNat (S.lo p + 4012)))
      (Function.update ctx p [kthreadRegs (S.lo p) wrap s.cpu.ram]) := by
  have bound := S.bound p
  have tf : (UInt32.ofNat (S.lo p + 4012)).toNat = S.lo p + 4012 := UInt32.toNat_ofNat_of_lt' (by
    show S.lo p + 4012 < 4294967296
    omega)
  have frame := kthread_frame wrap func argc argv s.cpu.ram
    (show S.lo p + 4096 < 4294967296 by omega) loadable
  rw [← tf] at frame
  refine .create p _ _ _ kernel other fresh pool (by omega) ?_ frame fun x away =>
    createKthread1_outside (by omega)
  have := size_pos (kthreadRegs (S.lo p) wrap s.cpu.ram)
  omega

/-- And so is `init_pcb`. -/
theorem init_pcb_step (entry : UInt32) (kernel : ¬ s.cpu.regs.User) (other : p ≠ s.current)
    (fresh : s.frames p = []) (pool : p ≠ S.idle) (size : S.hi p = S.lo p + 4096)
    (loadable : StaleLoadable s.cpu.ram (S.lo p + 4020)) :
    Step S s ctx (s.setUp p (initPcb (S.lo p) entry 0xbfffffff s.cpu.ram)
      (UInt32.ofNat (S.lo p + 4020)))
      (Function.update ctx p [programRegs (S.lo p) entry 0xbfffffff s.cpu.ram]) := by
  have bound := S.bound p
  have tf : (UInt32.ofNat (S.lo p + 4020)).toNat = S.lo p + 4020 := UInt32.toNat_ofNat_of_lt' (by
    show S.lo p + 4020 < 4294967296
    omega)
  have frame := program_frame (S.lo p) entry 0xbfffffff s.cpu.ram loadable
  rw [← tf] at frame
  refine .create p _ _ _ kernel other fresh pool (by omega) ?_ frame fun x away =>
    initPcb_outside (by omega)
  have := size_pos (programRegs (S.lo p) entry 0xbfffffff s.cpu.ram)
  omega

end Created

/-! ### A machine with one PCB -/

/-- The stack of the boot loader for `idle`, and that of one PCB. -/
def oneStack : Stacks Bool where
  idle := false
  lo p := if p then 0xC0200000 else 0xC0007000
  hi p := if p then 0xC0201000 else 0xC0008000
  esp0 p := if p then 0xC0200FFF else 0
  room p := by cases p <;> decide
  top p := by cases p <;> decide
  bound p := by cases p <;> decide
  apart p q := by cases p <;> cases q <;> decide

/-- A machine with the kernel's first thread in ring 0, and nothing interrupted. -/
def oneBoot : Machine Bool where
  cpu := ⟨⟨0, 0, 0, 0xC0008000, 0, 0, 0, 0, 0, 0, 16, 16, 0xC0100000, 8, 0x206, 16⟩, fun _ => 0⟩
  esp0 := 0
  current := false
  tf _ := 0
  frames _ := []

theorem oneBoot_boot : Boot oneStack oneBoot :=
  ⟨rfl, ⟨.inl ⟨rfl, rfl⟩, fun s => by cases s <;> decide⟩,
    by decide, by decide, by decide, fun _ => rfl⟩

/-- The timer interrupts `idle` when the PCB has been set up. -/
theorem oneTimer {ram : Store} {a : UInt32} {r : Regs}
    (created : Step oneStack oneBoot (fun _ => []) (oneBoot.setUp true ram a)
      (Function.update (fun _ => []) true [r])) :
    ∃ (s : Machine Bool) (ctx : Bool → List Regs) (b : UInt32), Reachable oneStack s ctx ∧
    ¬ s.cpu.regs.User ∧
      s.current = false ∧ s.frames false = [b] ∧ s.frames true = [a] ∧ ctx true = [r] := by
  have ready := Reachable.step _ _ _ _ (.boot oneBoot oneBoot_boot) created
  have room : ¬ (oneBoot.setUp true ram a).cpu.regs.User → 0xC0007000 + 68 ≤ 0xC0008000 :=
    fun _ => by decide
  have handled : Handled 32 := .inr (.inr (.inl rfl))
  obtain ⟨cpu, ran, entered⟩ := ready.inv.entered 0 handled room
  have interrupted := Reachable.step _ _ _ _ ready (.trap 32 0 cpu handled room ran)
  exact ⟨_, _, cpu.regs.esp, interrupted, kernelCode_not_user entered.cs, rfl, rfl, rfl, rfl⟩

/-! ### The results -/

/-- **Every process goes on where it was interrupted**: the way back that `schedule` has chosen is
open, behind it the registers are those of the newest context, and memory is as it was. -/
theorem contexts_kept {next : P} {a : UInt32} {as : List UInt32} (reachable : Reachable S s ctx)
    (kernel : ¬ s.cpu.regs.User) (newest : s.frames s.current = a :: as)
    (there : s.frames next ≠ []) :
    ∃ r rs, ctx next = r :: rs ∧
      leave (Function.update s.tf s.current a next) s.cpu = some { s.cpu with regs := r } := by
  obtain ⟨_, _, r, rs, _, context, _, left⟩ := reachable.inv.resumes kernel newest there
  exact ⟨r, rs, context, left⟩

/-- The kernel thread of a PCB. -/
theorem contexts_kept_thread :
    ∃ (s : Machine Bool) (ctx : Bool → List Regs) (b : UInt32), Reachable oneStack s ctx ∧
    ctx true = [kthreadRegs 0xC0200000 0xC0101000 fun _ => 0] ∧
    ∃ r rs, ctx true = r :: rs ∧
      leave (Function.update s.tf s.current b true) s.cpu = some { s.cpu with regs := r } := by
  have created := @create_kthread_step Bool _ oneStack oneBoot (fun _ => []) true
    0xC0101000 0xC0102000 0 0 (by decide) (by decide) rfl (by decide) rfl (by decide)
  obtain ⟨s, ctx, b, reachable, kernel, current, own, other, context⟩ := oneTimer created
  refine ⟨s, ctx, b, reachable, context,
    contexts_kept reachable kernel (by rw [current]; exact own) ?_⟩
  rw [other]
  exact nofun

/-- **A user program enters the kernel on its own stack**, which is empty: the frame is the last one
of the stack but for the byte that `esp0` leaves free, and an interrupt in the kernel pushes its
frame below the newest one. -/
theorem stacks_kept (v : Nat) (error : UInt32) (reachable : Reachable S s ctx) (handled : Handled v)
    (room : ¬ s.cpu.regs.User → S.lo s.current + 68 ≤ s.cpu.regs.esp.toNat) :
    ∃ cpu, enter s.esp0 v error s.cpu = some cpu ∧ S.lo s.current ≤ cpu.regs.esp.toNat ∧
    cpu.regs.esp.toNat + s.cpu.regs.size ≤ S.limit s.current (s.frames s.current) ∧
    (s.cpu.regs.User → s.frames s.current = [] ∧ cpu.regs.esp.toNat + 77 = S.hi s.current) ∧
    ∀ p, ∀ f ∈ (s.frames p).zip (ctx p), ∀ x, f.1.toNat ≤ x → x < f.1.toNat + f.2.size →
    cpu.ram x = s.cpu.ram x := by
  have inv := reachable.inv
  obtain ⟨low, high⟩ := inv.start_room room
  obtain ⟨cpu, ran, entered⟩ := inv.entered error handled room
  have sum := entered.esp
  refine ⟨cpu, ran, by omega, by omega, fun user => ?_, fun p f member x from_ to_ => ?_⟩
  · obtain ⟨empty, pool⟩ := inv.user user
    have top := S.top _ pool
    have size : s.cpu.regs.size = 76 := if_pos user
    have begins : (start s.esp0 s.cpu).regs.esp = S.esp0 s.current := by
      unfold start
      rw [if_pos user]
      exact inv.esp0 pool
    rw [begins, size] at sum
    exact ⟨empty, by omega⟩
  · obtain ⟨lowP, above, inside⟩ := (inv.nested p).inside member
    have own := (inv.nested s.current).limit_le
    refine entered.outside x ?_
    by_cases same : p = s.current
    · subst same
      exact .inr (by omega)
    · rcases S.apart p s.current same with below | above
      · exact .inl (by omega)
      · exact .inr (by omega)

/-- The system call of a program that was scheduled when the timer interrupted `idle`. -/
theorem stacks_kept_program :
    ∃ (s : Machine Bool) (ctx : Bool → List Regs) (b : UInt32), Reachable oneStack s ctx ∧
    s.current = true ∧ s.cpu.regs.User ∧ s.frames false = [b] ∧
    ∃ cpu, enter s.esp0 0x80 0 s.cpu = some cpu ∧ oneStack.lo s.current ≤ cpu.regs.esp.toNat ∧
    cpu.regs.esp.toNat + s.cpu.regs.size ≤ oneStack.limit s.current (s.frames s.current) ∧
    (s.cpu.regs.User → s.frames s.current = [] ∧ cpu.regs.esp.toNat + 77 = oneStack.hi s.current) ∧
    ∀ p, ∀ f ∈ (s.frames p).zip (ctx p), ∀ x, f.1.toNat ≤ x → x < f.1.toNat + f.2.size →
    cpu.ram x = s.cpu.ram x := by
  have created := @init_pcb_step Bool _ oneStack oneBoot (fun _ => []) true 0x08048000 (by decide)
    (by decide) rfl
    (by decide) rfl (by decide)
  obtain ⟨s, ctx, b, reachable, kernel, current, own, other, context⟩ := oneTimer created
  have newest : s.frames s.current = [b] := by rw [current, own]
  have there : s.frames true ≠ [] := by
    rw [other]
    exact nofun
  obtain ⟨_, _, r, rs, _, here, _, left⟩ := reachable.inv.resumes kernel newest there
  obtain rfl : programRegs 0xC0200000 0x08048000 0xbfffffff oneBoot.cpu.ram = r :=
    (List.cons.inj (context.symm.trans here)).1
  have user : (programRegs 0xC0200000 0x08048000 0xbfffffff oneBoot.cpu.ram).User :=
    show userCode % 4 = 3 by decide
  have scheduled := Reachable.step _ _ _ _ reachable
    (.schedule true b [] _ kernel newest there left)
  have idle : Function.update s.frames true (s.frames true).tail false = [b] := by
    rw [Function.update_of_ne (by decide)]
    exact own
  exact ⟨_, _, b, scheduled, rfl, user, idle,
    stacks_kept 0x80 0 scheduled (.inr (.inl rfl)) fun kernel => absurd user kernel⟩

end NjuOs.Interrupts
