/-
**The handlers of the hardware interrupts.**

`add_irq_handle` takes the next entry of a pool of 32 and puts it in front of the list of its
interrupt; `irq_handle` runs through that list. The lists are linked through the pool, where the
`next` of an entry was taken before the entry, so that every run through a list ends (`Lists`).

* `handlers_called`: after any registrations that fit in the pool, a hardware interrupt calls each
  handler registered for it once, the newest first, and no other.
* `registrations_overrun`: the check for a full pool comes one entry too late. The thirty-third
  registration writes behind the pool and is counted like any other one; the thirty-fourth comes to
  the panic.
-/

import NjuOs.Interrupts.Contexts
import NjuOs.Process.Exceptions

namespace NjuOs.Interrupts

/-! ### The model -/

/-- `struct IRQ_t`; `next` is an entry of the pool. -/
structure IrqT (R : Type) where
  routine : R
  next : Option Nat

/-- The pool has 32 entries; the next one is the memory behind it. What the linker puts there is
left out. -/
structure Handlers (R : Type) where
  handlePool : Nat → IrqT R
  handles : Nat → Option Nat
  handleCount : Nat

/-- What a registration stops at. -/
inductive Refusal where
  /-- `assert(irq < NR_HARD_INTR)` -/
  | assertion
  /-- `panic("Too many irq registrations!")` -/
  | panic
  /-- A list before `handles`: the assertion lets negative numbers through. -/
  | outside
deriving DecidableEq

/-- `NR_IRQ_HANDLE`. -/
def nrIrqHandle : Nat := 32

/-- `NR_HARD_INTR`. -/
def nrHardIntr : Nat := 16

variable {R σ : Type}

/-- `add_irq_handle`: an entry of the pool goes to the front of the line's list; the count is tested
for being above 32. -/
def addIrqHandle (irq : Int) (func : R) (h : Handlers R) : Except Refusal (Handlers R) :=
  if ¬ irq < nrHardIntr then
    .error .assertion
  else if h.handleCount > nrIrqHandle then
    .error .panic
  else if irq < 0 then
    .error .outside
  else
    .ok
      { handlePool := Function.update h.handlePool h.handleCount ⟨func, h.handles irq.toNat⟩
        handles := Function.update h.handles irq.toNat (some h.handleCount)
        handleCount := h.handleCount + 1 }

/-- The loop of `irq_handle`; `call` is what a routine does. -/
def callHandlers (call : R → σ → σ) (h : Handlers R) : Nat → Option Nat → σ → Option σ
  | _, none, k => some k
  | 0, some _, _ => none
  | fuel + 1, some f,
      k => callHandlers call h fuel (h.handlePool f).next (call (h.handlePool f).routine k)

/-- Nothing is registered when the kernel is loaded. -/
def noHandlers (routine : R) : Handlers R where
  handlePool _ := ⟨routine, none⟩
  handles _ := none
  handleCount := 0

/-- Registrations one after the other. -/
def register (requests : List (Int × R)) (h : Handlers R) : Except Refusal (Handlers R) :=
  requests.foldlM (fun h request => addIrqHandle request.1 request.2 h) h

/-! ### The lists -/

section Lists

variable {h h' : Handlers R} {f : Nat} {irq : Int} {func : R} {routines : List R}
  {start : Option Nat}

/-- The list that begins at `start` holds these routines, and lies in the first `n` entries of the
pool. -/
inductive Linked (h : Handlers R) : Nat → Option Nat → List R → Prop where
  | nil (n : Nat) : Linked h n none []
  | cons (n f : Nat) (routines : List R) : f < n → Linked h f (h.handlePool f).next routines →
      Linked h n (some f) ((h.handlePool f).routine :: routines)

/-- A list has at most as many entries as the part of the pool it lies in. -/
theorem Linked.length_le {n : Nat} (linked : Linked h n start routines) : routines.length ≤ n := by
  induction linked with
  | nil n => exact Nat.zero_le n
  | cons n f routines inside _ ih =>
      rw [List.length_cons]
      omega

theorem Linked.mono {n m : Nat} (linked : Linked h n start routines) (more : n ≤ m) :
    Linked h m start routines := by
  cases linked with
  | nil => exact .nil m
  | cons _ f routines inside rest => exact .cons m f routines (by omega) rest

/-- A list depends only on the entries it lies in. -/
theorem Linked.congr {n : Nat} (linked : Linked h n start routines)
    (same : ∀ f, f < n → h'.handlePool f = h.handlePool f) : Linked h' n start routines := by
  induction linked with
  | nil n => exact .nil n
  | cons n f routines inside rest ih =>
      rw [← same f inside]
      refine .cons n f routines inside ?_
      rw [same f inside]
      exact ih fun g below => same g (below.trans inside)

/-- **A list is run through to its end**, in its order. -/
theorem Linked.calls {n : Nat} (linked : Linked h n start routines) (call : R → σ → σ) {fuel : Nat}
    (enough : routines.length ≤ fuel) (k : σ) :
    callHandlers call h fuel start k =
      some (routines.foldl (fun k routine => call routine k) k) := by
  induction linked generalizing fuel k with
  | nil => cases fuel <;> rfl
  | cons n f routines _ _ ih =>
      obtain _ | fuel := fuel
      · exact absurd enough (by simp)
      · exact ih (Nat.le_of_succ_le_succ enough) _

/-- The routines registered for an interrupt, the newest first. -/
def registered (requests : List (Int × R)) (irq : Nat) : List R :=
  ((requests.filter fun request => decide (request.1 = (irq : Int))).map Prod.snd).reverse

theorem registered_append (requests : List (Int × R)) (request : Int × R) (irq : Nat) :
    registered (requests ++ [request]) irq =
      if request.1 = (irq : Int) then request.2 :: registered requests irq
      else registered requests irq := by
  unfold registered
  rw [List.filter_append, List.map_append, List.reverse_append]
  split
  · rename_i here
    rw [List.filter_cons_of_pos (by simpa using here)]
    rfl
  · rename_i other
    rw [List.filter_cons_of_neg (by simpa using other)]
    rfl

/-- The lists of all interrupts hold what was registered. -/
structure Lists (h : Handlers R) (requests : List (Int × R)) : Prop where
  count : h.handleCount = requests.length
  linked : ∀ irq, Linked h h.handleCount (h.handles irq) (registered requests irq)

theorem lists_noHandlers (routine : R) : Lists (noHandlers routine) [] where
  count := rfl
  linked _ := .nil 0

/-- **A registration puts the handler in front of its list**, and leaves the others as they are. -/
theorem Lists.add {requests : List (Int × R)} (lists : Lists h requests)
    (accepted : addIrqHandle irq func h = .ok h') :
    Lists h' (requests ++ [(irq, func)]) := by
  unfold addIrqHandle at accepted
  split at accepted
  · cases accepted
  split at accepted
  · cases accepted
  split at accepted
  · cases accepted
  rename_i _ _ inside
  obtain rfl := Except.ok.inj accepted
  have kept (n : Nat) (start : Option Nat) (routines : List R) (linked : Linked h n start routines)
      (old : n ≤ h.handleCount) : Linked
        { handlePool := Function.update h.handlePool h.handleCount ⟨func, h.handles irq.toNat⟩
          handles := Function.update h.handles irq.toNat (some h.handleCount)
          handleCount := h.handleCount + 1 } n start routines :=
    linked.congr fun f below => Function.update_of_ne (show f ≠ h.handleCount by omega) ..
  refine ⟨?_, fun line => ?_⟩
  · rw [List.length_append, ← lists.count]
    rfl
  · rw [registered_append]
    show Linked _ (h.handleCount + 1) (Function.update h.handles irq.toNat
      (some h.handleCount) line) _
    by_cases here : irq = line
    · subst here
      have rest := kept _ _ _ (lists.linked line) le_rfl
      rw [if_pos rfl, Int.toNat_natCast, Function.update_self]
      have entry := Linked.cons
        (h := {
          handlePool := Function.update h.handlePool h.handleCount ⟨func, h.handles line⟩
          handles := Function.update h.handles line (some h.handleCount)
          handleCount := h.handleCount + 1 })
        (h.handleCount + 1) h.handleCount (registered requests line) (Nat.lt_succ_self _)
      simp only [Function.update_self] at entry
      exact entry rest
    · rw [if_neg here, Function.update_of_ne (show line ≠ irq.toNat by omega)]
      exact (kept _ _ _ (lists.linked line) le_rfl).mono (Nat.le_succ _)

/-- A registration is accepted as long as the count is not above 32. -/
theorem addIrqHandle_ok (func : R) (low : 0 ≤ irq) (high : irq < nrHardIntr)
    (room : h.handleCount ≤ nrIrqHandle) :
    ∃ h', addIrqHandle irq func h = .ok h' ∧ h'.handles irq.toNat = some h.handleCount := by
  unfold addIrqHandle
  rw [if_neg (not_not.mpr high), if_neg (by omega), if_neg (by omega)]
  exact ⟨_, rfl, Function.update_self ..⟩

theorem addIrqHandle_panic (func : R) (high : irq < nrHardIntr)
    (full : nrIrqHandle < h.handleCount) :
    addIrqHandle irq func h = .error .panic := by
  unfold addIrqHandle
  rw [if_neg (not_not.mpr high), if_pos full]

end Lists

/-! ### Runs -/

section Runs

variable {h : Handlers R}

/-- **A run of registrations keeps the lists.** -/
theorem Lists.run {before requests : List (Int × R)} {h' : Handlers R} (lists : Lists h before)
    (accepted : register requests h = .ok h') : Lists h' (before ++ requests) := by
  induction requests generalizing h before with
  | nil =>
      obtain rfl := Except.ok.inj accepted
      rw [List.append_nil]
      exact lists
  | cons request requests ih =>
      unfold register at accepted
      rw [List.foldlM_cons] at accepted
      cases first : addIrqHandle request.1 request.2 h with
      | error refusal =>
          rw [first] at accepted
          cases accepted
      | ok next =>
          rw [first] at accepted
          rw [List.append_cons]
          exact ih (lists.add first) accepted

/-- A run is accepted up to the thirty-third registration. -/
theorem Lists.run_ok {before requests : List (Int × R)} (lists : Lists h before)
    (lines : ∀ request ∈ requests, 0 ≤ request.1 ∧ request.1 < nrHardIntr)
    (room : before.length + requests.length ≤ nrIrqHandle + 1) :
    ∃ h', register requests h = .ok h' := by
  induction requests generalizing h before with
  | nil => exact ⟨h, rfl⟩
  | cons request requests ih =>
      rw [List.length_cons] at room
      obtain ⟨low, high⟩ := lines request List.mem_cons_self
      obtain ⟨next, first, _⟩ := addIrqHandle_ok request.2 low high
        (show h.handleCount ≤ nrIrqHandle by rw [lists.count]; omega)
      obtain ⟨h', rest⟩ :=
        ih (lists.add first) (fun other member => lines other (List.mem_cons_of_mem _ member))
        (by rw [List.length_append, List.length_singleton]; omega)
      refine ⟨h', ?_⟩
      unfold register at rest ⊢
      rw [List.foldlM_cons, first]
      exact rest

theorem register_append (first second : List (Int × R)) (h : Handlers R) :
    register (first ++ second) h = (register first h).bind (register second) := by
  unfold register
  rw [List.foldlM_append]
  rfl

/-- The last one of a run is the head of its list. -/
theorem Lists.run_last {before requests : List (Int × R)} (lists : Lists h before) {irq : Int}
    {func : R}
    (lines : ∀ request ∈ requests ++ [(irq, func)], 0 ≤ request.1 ∧ request.1 < nrHardIntr)
    (room : before.length + requests.length ≤ nrIrqHandle) :
    ∃ h', register (requests ++ [(irq, func)]) h = .ok h' ∧
      h'.handles irq.toNat = some (before.length + requests.length) := by
  obtain ⟨low, high⟩ := lines _ (List.mem_append_right _ List.mem_cons_self)
  obtain ⟨next, first⟩ :=
    lists.run_ok (fun request member => lines request (List.mem_append_left _ member)) (by omega)
  have count := (lists.run first).count
  rw [List.length_append] at count
  obtain ⟨h', last, head⟩ := addIrqHandle_ok (h := next) func low high (by omega)
  refine ⟨h', ?_, head.trans (congrArg some count)⟩
  rw [register_append, first]
  unfold register
  rw [Except.bind, List.foldlM_cons, last]
  rfl

/-- Behind it comes the panic. -/
theorem Lists.run_panic {before requests : List (Int × R)} (lists : Lists h before)
    (lines : ∀ request ∈ requests, 0 ≤ request.1 ∧ request.1 < nrHardIntr)
    (full : nrIrqHandle + 1 < before.length + requests.length)
    (some : before.length ≤ nrIrqHandle + 1) :
    register requests h = .error .panic := by
  induction requests generalizing h before with
  | nil =>
      rw [List.length_nil] at full
      omega
  | cons request requests ih =>
      rw [List.length_cons] at full
      obtain ⟨low, high⟩ := lines request List.mem_cons_self
      have count := lists.count
      unfold register
      rw [List.foldlM_cons]
      by_cases room : h.handleCount ≤ nrIrqHandle
      · obtain ⟨next, first, _⟩ := addIrqHandle_ok request.2 low high room
        rw [first]
        exact ih (lists.add first) (fun other member => lines other (List.mem_cons_of_mem _ member))
          (by rw [List.length_append, List.length_singleton]; omega)
          (by rw [List.length_append, List.length_singleton]; omega)
      · rw [addIrqHandle_panic request.2 high (by omega)]
        rfl

end Runs

/-! ### The results -/

/-- **A hardware interrupt calls its handlers**, each once and the newest first. -/
theorem handlers_called (requests : List (Int × R)) (routine : R)
    (lines : ∀ request ∈ requests, 0 ≤ request.1 ∧ request.1 < nrHardIntr)
    (room : requests.length ≤ nrIrqHandle) {v : Nat} (hardware : v = 32 ∨ v = 33 ∨ v = 46)
    (pid eax ebx : Int) (call : R → σ → σ) (k : σ) :
    Process.Manager.irqHandle pid ⟨(irqOf v).toNat, eax, ebx⟩ = .hardware (v - 32 : Nat) ∧
    ∃ h, register requests (noHandlers routine) = .ok h ∧
      callHandlers call h nrIrqHandle (h.handles (v - 32)) k =
        some ((registered requests (v - 32)).foldl (fun k routine => call routine k) k) := by
  constructor
  · have irq : ((irqOf v).toNat : Int) = 1000 + (v - 32 : Nat) := by
      rcases hardware with rfl | rfl | rfl <;> decide
    have low : v - 32 < 16 := by omega
    unfold Process.Manager.irqHandle
    simp only [irq]
    rw [if_neg (by omega), if_neg (by omega), if_neg (by omega), if_pos (by omega),
      add_sub_cancel_left]
  · obtain ⟨h, accepted⟩ := (lists_noHandlers routine).run_ok lines (by rw [List.length_nil]; omega)
    have lists := (lists_noHandlers routine).run accepted
    have linked := lists.linked (v - 32)
    have short := linked.length_le
    rw [lists.count, List.nil_append] at short
    exact ⟨h, accepted, linked.calls call (short.trans room) k⟩

/-- The routines that the drivers register. -/
inductive Routine where
  | updateJiffy
  | sendKeymsg
  | sendUpdatemsg
  | ideIntr
  | timeIntr
deriving DecidableEq

/-- What `init_driver` registers, in its order. -/
def initDriver : List (Int × Routine) :=
  [(0, .updateJiffy), (1, .sendKeymsg), (0, .sendUpdatemsg), (14, .ideIntr), (0, .timeIntr)]

theorem handlers_called_clock :
    ∃ h, register initDriver (noHandlers .updateJiffy) = .ok h ∧
      callHandlers (fun routine (log : List Routine) => log ++ [routine]) h nrIrqHandle
        (h.handles 0) [] =
        some [.timeIntr, .sendUpdatemsg, .updateJiffy] :=
  (handlers_called initDriver .updateJiffy (by decide) (by decide) (.inl rfl) 11 0 0
    (fun routine log => log ++ [routine]) []).2

/-- **The pool overruns before it is full**: up to 32 registrations every list lies in the pool, the
thirty-third returns and has put the entry behind the pool in front of its list, and from the
thirty-fourth on there is the panic. -/
theorem registrations_overrun (routine : R) (requests : List (Int × R))
    (lines : ∀ request ∈ requests, 0 ≤ request.1 ∧ request.1 < nrHardIntr) :
    (requests.length ≤ nrIrqHandle → ∃ h, register requests (noHandlers routine) = .ok h ∧
      ∀ irq, Linked h nrIrqHandle (h.handles irq) (registered requests irq)) ∧
    (requests.length = nrIrqHandle + 1 → ∃ h, register requests (noHandlers routine) = .ok h ∧
      ∃ irq, h.handles irq = some nrIrqHandle) ∧
    (nrIrqHandle + 1 < requests.length →
      register requests (noHandlers routine) = .error .panic) := by
  have boot := lists_noHandlers routine
  refine ⟨fun room => ?_, fun one => ?_, fun full => ?_⟩
  · obtain ⟨h, accepted⟩ := boot.run_ok lines (by rw [List.length_nil]; omega)
    have lists := boot.run accepted
    have count := lists.count
    rw [List.nil_append] at count
    exact ⟨h, accepted, fun irq => (lists.linked irq).mono (by omega)⟩
  · obtain ⟨first, ⟨irq, func⟩, rfl⟩ := List.eq_nil_or_concat requests |>.resolve_left (by
      rintro rfl
      cases one)
    rw [List.concat_eq_append] at lines one ⊢
    rw [List.length_append, List.length_singleton] at one
    obtain ⟨h, accepted, head⟩ := boot.run_last lines (by rw [List.length_nil]; omega)
    refine ⟨h, accepted, irq.toNat, head.trans (congrArg some ?_)⟩
    rw [List.length_nil]
    omega
  · exact boot.run_panic lines (by rw [List.length_nil]; omega) (Nat.zero_le _)

/-- The clock, 33 times. -/
theorem registrations_overrun_clock : ∃ h : Handlers Routine,
    register (List.replicate (nrIrqHandle + 1) (0, .updateJiffy)) (noHandlers .updateJiffy) =
      .ok h ∧
    ∃ irq, h.handles irq = some nrIrqHandle := by
  have lines : ∀ request ∈ List.replicate (nrIrqHandle + 1) ((0 : Int), Routine.updateJiffy),
      0 ≤ request.1 ∧ request.1 < nrHardIntr := fun request member => by
    rw [List.eq_of_mem_replicate member]
    decide
  obtain ⟨_, behind, _⟩ := registrations_overrun .updateJiffy _ lines
  exact behind List.length_replicate

end NjuOs.Interrupts
