import Fscc.Calls
import Fscc.Lib.Machine
import Fscc.RxFrames
import Fscc.TxRing

/-!
# The semaphores of a port

Any number of reads, writes and polls run at once, while tasklets, purges, `ioctl` calls and
the hardware change the port under them at will. Each call takes and releases the semaphore
of its kind; the result says that none returns with it.
-/

namespace Fscc

/-- The calls that take a semaphore, each kind its own. -/
inductive CallKind where
  | read
  | write
  | poll
deriving DecidableEq, Repr

/-- What other parties may change at any time. -/
structure PortState where
  rx : RxPort
  tx : TxPort
  cfg : PortConfig
  settings : Settings
  streaming : Bool
  usingAsync : Bool
deriving Repr

/-- A call and its user buffer, and whether it has its semaphore. -/
structure Call where
  kind : CallKind
  buf : List UInt8
  nonblock : Bool
  phase : Phase
  holds : Bool
deriving DecidableEq, Repr

/-- What the environment decides in a step of a call: whether a signal is pending, what an
allocation and a copy to or from the user come to, and the device. -/
structure Chance (δ : Type) where
  interrupted : Bool
  alloc : Bool
  unmovedBytes : Nat
  device : δ

variable {δ : Type} (dev : Device δ) (mem : Memory)

namespace Call

/-- The condition that a call waits for. -/
def ready (c : Call) (port : PortState) : Bool :=
  match c.kind with
  | .write => decide (c.buf.length ≤ userGetTxSpace mem port.tx)
  | _ => ioUserReadReady mem port.streaming port.rx

/-- The work that a call does under its semaphore, its result and the port. -/
def work (c : Call) (port : PortState) (chance : Chance δ) : Except Errno Nat × PortState :=
  match c.kind with
  | .read =>
    if port.streaming then
      let read := userReadStream mem c.buf.length chance.alloc chance.unmovedBytes port.rx
      (.ok read.1.length, { port with rx := read.2 })
    else
      let read := userReadFrame dev mem port.settings c.buf.length chance.alloc chance.unmovedBytes
        port.rx chance.device
      (read.1.map List.length, { port with rx := read.2.1 })
  | .write =>
    let written := userWriteFrame dev port.cfg mem chance.alloc chance.unmovedBytes c.buf port.tx
      chance.device
    (written.1.map fun _ => c.buf.length, { port with tx := written.2.1 })
  | .poll =>
    (.ok (pollMask (ioUserReadReady mem port.streaming port.rx) (userGetTxSpace mem port.tx)), port)

/-- What a call finds out in its next step. -/
def observe (c : Call) (port : PortState) (chance : Chance δ) : Observation :=
  match c.phase with
  | .entry => .condition port.usingAsync
  | .check | .wait => .condition (c.ready mem port)
  | .down => if chance.interrupted && c.kind != .poll then .interrupted else .go
  | .sleep => if chance.interrupted then .interrupted else .go
  | .clock => .condition (!port.cfg.ignoreTimeout && (portTimedOut dev chance.device).1)
  | .act => .result (c.work dev mem port chance).1
  | _ => .go

/-- The step that follows an observation. -/
def next (c : Call) (seen : Observation) : Option (Phase × SemaphoreOp) :=
  match c.kind with
  | .read => readNext c.buf.length c.nonblock c.phase seen
  | .write => writeNext mem c.buf.length c.nonblock c.phase seen
  | .poll => pollNext c.phase seen

/-- The call after a step. -/
def moved (c : Call) (step : Phase × SemaphoreOp) : Call :=
  { c with phase := step.1, holds := step.2.holds c.holds }

end Call

/-- A port with its semaphores and the calls made so far. -/
structure CallSystem where
  port : PortState
  semaphore : CallKind → Nat
  calls : List Call

/-- A call begins, one of the calls takes a step, or the port changes under them. -/
inductive CallEvent (δ : Type) where
  | begin (kind : CallKind) (buf : List UInt8) (nonblock : Bool)
  | run (i : Nat) (chance : Chance δ)
  | environment (port : PortState)

/-- The step of the call `c`, the `i`th. -/
def CallSystem.run (s : CallSystem) (i : Nat) (c : Call) (chance : Chance δ) : Option CallSystem :=
  (c.next mem (c.observe dev mem s.port chance)).bind fun step =>
    (step.2.count (s.semaphore c.kind)).map fun n =>
      { port := if c.phase = .act then (c.work dev mem s.port chance).2 else s.port
        semaphore := fun kind => if kind = c.kind then n else s.semaphore kind
        calls := s.calls.set i (c.moved step) }

def callMachine : Machine CallSystem (CallEvent δ) where
  init s := (∀ kind, s.semaphore kind = 1) ∧ s.calls = []
  step s
    | .begin kind buf nonblock =>
      some { s with calls := s.calls ++ [⟨kind, buf, nonblock, .entry, false⟩] }
    | .run i chance => s.calls[i]?.bind fun c => s.run dev mem i c chance
    | .environment port => some { s with port := port }

/-- Whenever a write checks the clock, the check is switched off or STAR shows the clock in one
of its readings. -/
def ClockSeen (s : CallSystem) : CallEvent δ → Prop
  | .run i chance => ∀ c ∈ s.calls[i]?, c.kind = .write → c.phase = .clock →
      s.port.cfg.ignoreTimeout = true ∨ (portTimedOut dev chance.device).1 = false
  | _ => True

/-- What a step does to a semaphore agrees with where it leaves the call. -/
def SemaphoreOp.Agrees (op : SemaphoreOp) (before after : Bool) : Prop :=
  match op with
  | .keep => after = before
  | .down => before = false ∧ after = true
  | .up => before = true ∧ after = false

private theorem waitLoop_agrees {nonblock : Bool} {found phase phase' : Phase} {seen : Observation}
    {op : SemaphoreOp} (into : found.critical = true)
    (next : waitLoop nonblock found phase seen = some (phase', op)) :
    op.Agrees phase.critical phase'.critical := by
  unfold waitLoop at next
  split at next
  next => cases next; rfl
  next => cases next; exact ⟨rfl, rfl⟩
  next holds =>
    cases holds with
    | true => cases next; exact into
    | false => cases next; exact ⟨rfl, rfl⟩
  next => cases nonblock <;> cases next <;> rfl
  next holds => cases holds <;> cases next <;> rfl
  next => cases next; rfl
  next => cases next; rfl
  next => cases next

private theorem readNext_agrees {count : Nat} {nonblock : Bool} {phase phase' : Phase}
    {seen : Observation}
    {op : SemaphoreOp} (next : readNext count nonblock phase seen = some (phase', op)) :
    op.Agrees phase.critical phase'.critical := by
  unfold readNext at next
  split at next
  next =>
    cases next
    unfold readEntry
    split
    next => rfl
    next => split <;> rfl
  next => cases next; rfl
  next => cases next; exact ⟨rfl, rfl⟩
  next => exact waitLoop_agrees rfl next

private theorem pollNext_agrees {phase phase' : Phase} {seen : Observation} {op : SemaphoreOp}
    (next : pollNext phase seen = some (phase', op)) :
    op.Agrees phase.critical phase'.critical := by
  unfold pollNext at next
  split at next
  next => cases next; rfl
  next => cases next; exact ⟨rfl, rfl⟩
  next => cases next; rfl
  next => cases next; exact ⟨rfl, rfl⟩
  next => cases next

/-- The one return that leaves the semaphore down is the one at the clock check. -/
private theorem writeNext_agrees {count : Nat} {nonblock : Bool} {phase phase' : Phase}
    {seen : Observation} {op : SemaphoreOp}
    (clock : phase = .clock → seen ≠ .condition true)
    (next : writeNext mem count nonblock phase seen = some (phase', op)) :
    op.Agrees phase.critical phase'.critical := by
  unfold writeNext at next
  split at next
  next =>
    cases next
    unfold writeEntry
    split
    next => rfl
    next =>
      split
      next => rfl
      next => split <;> rfl
  next stalled =>
    cases stalled with
    -- The stalled clock is the one exit that leaves the semaphore down.
    | true => exact absurd rfl (clock rfl)
    | false => cases next; rfl
  next => cases next; rfl
  next => cases next; exact ⟨rfl, rfl⟩
  next => cases next; rfl
  next => exact waitLoop_agrees rfl next

/-! ### Balance -/

private theorem countP_set_add {α : Type} (p : α → Bool) {l : List α} {i : Nat} {a : α}
    (present : l[i]? = some a) (b : α) :
    (l.set i b).countP p + (p a).toNat = l.countP p + (p b).toNat := by
  obtain ⟨inside, get⟩ := List.getElem?_eq_some_iff.mp present
  have own : p a = true → 0 < l.countP p := fun yes =>
    List.countP_pos_iff.mpr ⟨a, List.mem_of_getElem? present, yes⟩
  rw [List.countP_set inside, get]
  cases ha : p a with
  | true =>
    have := own ha
    cases p b <;> simp <;> omega
  | false => cases p b <;> simp

/-- Each semaphore is up, or one call has it; and the calls that have theirs are those between
their `down` and their `up`. -/
structure CallSystem.Balanced (s : CallSystem) : Prop where
  one : ∀ kind, s.semaphore kind + s.calls.countP (fun c => c.kind == kind && c.holds) = 1
  between : ∀ c ∈ s.calls, c.holds = c.phase.critical

namespace CallSystem.Balanced

variable {dev mem} {s t : CallSystem}

/-- A step that agrees with its semaphore keeps the balance. -/
private theorem moved {i : Nat} {c : Call} {step : Phase × SemaphoreOp} {n : Nat} {port : PortState}
    (h : s.Balanced) (present : s.calls[i]? = some c)
    (agrees : step.2.Agrees c.phase.critical step.1.critical)
    (counted : step.2.count (s.semaphore c.kind) = some n) :
    CallSystem.Balanced
      { port := port
        semaphore := fun kind => if kind = c.kind then n else s.semaphore kind
        calls := s.calls.set i (c.moved step) } := by
  have own := h.between c (List.mem_of_getElem? present)
  obtain ⟨phase, op⟩ := step
  constructor
  · intro kind
    have sum := h.one kind
    -- The calls that hold this semaphore change by the one that moves.
    have set := countP_set_add (fun c => c.kind == kind && c.holds) present (c.moved (phase, op))
    by_cases same : kind = c.kind
    · subst same
      simp only [if_true, beq_self_eq_true, Bool.true_and, Call.moved] at set ⊢
      cases op with
      | keep =>
        cases counted
        simp only [SemaphoreOp.holds] at set ⊢
        omega
      | down =>
        -- A `down` gets the semaphore only while nobody has it.
        simp only [SemaphoreOp.holds, own, agrees.1, Bool.toNat_false, Bool.toNat_true] at set ⊢
        cases sem : s.semaphore c.kind with
        | zero => simp [sem, SemaphoreOp.count] at counted
        | succ m =>
          simp only [sem, SemaphoreOp.count, Option.some.injEq] at counted
          omega
      | up =>
        simp only [SemaphoreOp.holds, own, agrees.1, Bool.toNat_false, Bool.toNat_true] at set ⊢
        cases counted
        omega
    -- The other semaphore and its calls are as they were.
    · have other : (c.kind == kind) = false := by simpa using Ne.symm same
      simp only [Call.moved, other, Bool.false_and, Bool.toNat_false, Nat.add_zero] at set
      simp only [same, if_false, Call.moved]
      rw [set]
      exact sum
  · intro x member
    rcases List.mem_or_eq_of_mem_set member with old | rfl
    · exact h.between x old
    · cases op with
      | keep => exact own.trans agrees.symm
      | down => exact agrees.2.symm
      | up => exact agrees.2.symm

private theorem initial (init : (callMachine dev mem).init s) : s.Balanced := by
  obtain ⟨up, none_⟩ := init
  exact ⟨fun kind => by simp [none_, up kind], by simp [none_]⟩

private theorem begin (h : s.Balanced) (kind : CallKind) (buf : List UInt8) (nonblock : Bool) :
    CallSystem.Balanced { s with calls := s.calls ++ [⟨kind, buf, nonblock, .entry, false⟩] } := by
  constructor
  · intro kind'
    simpa using h.one kind'
  · intro c member
    rcases List.mem_append.mp member with old | new
    · exact h.between c old
    · rw [List.mem_singleton.mp new]
      rfl

/-- A step of a call that finds its clock agrees with its semaphore. -/
private theorem next_agrees {i : Nat} {c : Call} {chance : Chance δ} {step : Phase × SemaphoreOp}
    (seen : ClockSeen dev s (.run i chance)) (present : s.calls[i]? = some c)
    (next : c.next mem (c.observe dev mem s.port chance) = some step) :
    step.2.Agrees c.phase.critical step.1.critical := by
  cases kind : c.kind with
  | read =>
    simp only [Call.next, kind] at next
    exact readNext_agrees next
  | poll =>
    simp only [Call.next, kind] at next
    exact pollNext_agrees next
  | write =>
    simp only [Call.next, kind] at next
    refine writeNext_agrees mem (fun clock stalled => ?_) next
    rcases seen c present kind clock with off | running
    · simp [Call.observe, clock, off] at stalled
    · simp [Call.observe, clock, running] at stalled

private theorem step {e : CallEvent δ} (seen : ClockSeen dev s e) (h : s.Balanced)
    (stepped : (callMachine dev mem).step s e = some t) : t.Balanced := by
  cases e with
  | begin kind buf nonblock =>
    obtain rfl := Option.some.inj stepped
    exact h.begin kind buf nonblock
  | run i chance =>
    obtain ⟨c, present, run⟩ := Option.bind_eq_some_iff.mp stepped
    obtain ⟨step, next, counted⟩ := Option.bind_eq_some_iff.mp run
    obtain ⟨n, taken, rfl⟩ := Option.map_eq_some_iff.mp counted
    exact h.moved present (next_agrees seen present next) taken
  | environment port =>
    obtain rfl := Option.some.inj stepped
    exact ⟨h.one, h.between⟩

end CallSystem.Balanced

variable {dev mem}

/-- In every run in which no write finds its clock missing, a call that has returned holds no
semaphore, and a semaphore is up whenever no call of its kind is between its `down` and `up`. -/
theorem semaphores_balanced {s : CallSystem}
    (reached : (callMachine dev mem).ReachedUnder (ClockSeen dev) s) :
    (∀ c ∈ s.calls, ∀ result, c.phase = .done result → c.holds = false) ∧
    ∀ kind, (∀ c ∈ s.calls, c.kind = kind → c.phase.critical = false) → s.semaphore kind = 1 := by
  have balanced := reached.invariant (P := CallSystem.Balanced) (fun _ => .initial)
    fun _ _ _ h seen stepped => h.step seen stepped
  constructor
  · intro c member result returned
    rw [balanced.between c member, returned]
    rfl
  · intro kind outside
    have none_ : s.calls.countP (fun c => c.kind == kind && c.holds) = 0 := by
      rw [List.countP_eq_zero]
      intro c member held
      rw [Bool.and_eq_true, balanced.between c member, beq_iff_eq] at held
      rw [outside c member held.1] at held
      exact absurd held.2 (by decide)
    have one := balanced.one kind
    omega

/-- A fresh port in FIFO mode that checks for a clock. -/
def freshPort : PortState where
  rx := freshRx .small [4096, 8192]
  tx := freshTx .small [12288, 16384]
  cfg := ⟨false, 0, 0, false⟩
  settings := ⟨true, false, false⟩
  streaming := false
  usingAsync := false

/-- A port that no call has been made to. -/
def beforeCalls : CallSystem := ⟨freshPort, fun _ => 1, []⟩

/-- A write of four bytes and its first `steps` steps, all registers reading `d`. -/
def writeFour (steps : Nat) (d : BitVec 32) : List (CallEvent (BitVec 32)) :=
  .begin .write [1, 2, 3, 4] false :: List.replicate steps (.run 0 ⟨false, true, 0, d⟩)

/-- With a clock, the write returns and the semaphores are up. -/
theorem semaphores_balanced_write :
    ∃ s, (callMachine constant .small).replay beforeCalls (writeFour 7 0#32) = some s ∧
      s.calls = [⟨.write, [1, 2, 3, 4], false, .done (.ok 4), false⟩] ∧
      (∀ c ∈ s.calls, ∀ result, c.phase = .done result → c.holds = false) ∧
      ∀ kind, (∀ c ∈ s.calls, c.kind = kind → c.phase.critical = false) →
        s.semaphore kind = 1 := by
  have met : (callMachine constant .small).Met (ClockSeen constant) beforeCalls
      (writeFour 7 0#32) := by
    refine Machine.met_of_mem (fun e member s => ?_) _
    rcases List.mem_cons.mp member with rfl | member
    · trivial
    · rw [List.eq_of_mem_replicate member]
      exact fun _ _ _ _ => .inr (by decide)
  exact ⟨_, rfl, rfl, semaphores_balanced (.replay (.init ⟨fun _ => rfl, rfl⟩) _ met rfl)⟩

/-- STAR reads without a clock: the write returns `-ETIMEDOUT` and the semaphore stays down. -/
theorem write_keeps_semaphore :
    ∃ s, (callMachine constant .small).Reached s ∧
      s.calls = [⟨.write, [1, 2, 3, 4], false, .done (.error .etimedout), true⟩] ∧
      s.semaphore .write = 0 := by
  have run : ∃ s, (callMachine constant .small).replay beforeCalls (writeFour 4 ceBit) = some s ∧
      s.calls = [⟨.write, [1, 2, 3, 4], false, .done (.error .etimedout), true⟩] ∧
      s.semaphore .write = 0 := ⟨_, rfl, rfl, rfl⟩
  obtain ⟨s, replayed, left⟩ := run
  exact ⟨s, .replay (.init ⟨fun _ => rfl, rfl⟩) _ replayed, left⟩

end Fscc
