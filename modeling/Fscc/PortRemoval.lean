import Fscc.Isr
import Fscc.Lib.Machine

/-!
# Removing a port that may still be interrupted

`fscc_card_delete` takes a port off the list and gives it to `fscc_port_delete`, while the interrupt
handler, the tasklets and the timer may run at any time. The handler asks `port_exists` first; the
tasklets and the timer do not. No call of a user is under way by then.
-/

namespace Fscc

/-- How far the removal of a port is: after `list_del` and `del_timer`; when the frames of the receive
ring are freed, and when `RxNum` is 0; the same of the transmit ring; after `free_irq` and `kfree`. -/
inductive RemovalStage where
  | listed
  | unlisted
  | timerDeleted
  | rxFreed
  | rxDestroyed
  | txFreed
  | txDestroyed
  | irqFreed
  | freed
deriving DecidableEq, Repr

/-- A port in the course of its removal: how many handlers are past `port_exists`, whether the timer is
pending, how many times `timer_handler` has been started and not run yet, which tasklets are scheduled,
and whether freed memory has been touched. -/
structure RemovalPort where
  isDma : Bool
  stage : RemovalStage
  handling : Nat
  timer : Bool
  expired : Nat
  pending : Schedules
  touched : Bool
deriving DecidableEq, Repr

namespace RemovalPort

/-- An access to memory that is gone in the given stages. -/
def touch (s : RemovalPort) (gone : List RemovalStage) : RemovalPort :=
  { s with touched := s.touched || decide (s.stage ∈ gone) }

/-- An access to `struct fscc_port`. -/
def touchPort (s : RemovalPort) : RemovalPort :=
  s.touch [.freed]

/-- A walk over the receive ring. It looks at no frame when `RxNum` is 0. -/
def touchRx (s : RemovalPort) : RemovalPort :=
  s.touch [.rxFreed, .freed]

/-- A walk over the transmit ring. -/
def touchTx (s : RemovalPort) : RemovalPort :=
  s.touch [.txFreed, .freed]

/-- `tasklet_schedule` of those that an interrupt asks for. -/
def schedule (s : RemovalPort) (schedules : Schedules) : RemovalPort :=
  { s with pending := ⟨s.pending.timestamp || schedules.timestamp, s.pending.iframe || schedules.iframe,
      s.pending.oframe || schedules.oframe⟩ }

/-- The next step of `fscc_card_delete`. -/
def remove (s : RemovalPort) : Option RemovalPort :=
  match s.stage with
  | .listed => some { s with stage := .unlisted }
  | .unlisted => some { s with stage := .timerDeleted, timer := false }
  | .timerDeleted => some { s with stage := .rxFreed }
  | .rxFreed => some { s with stage := .rxDestroyed }
  | .rxDestroyed => some { s with stage := .txFreed }
  | .txFreed => some { s with stage := .txDestroyed }
  -- `free_irq` waits for the handlers.
  | .txDestroyed => if s.handling = 0 then some { s with stage := .irqFreed } else none
  | .irqFreed => some { s with stage := .freed }
  | .freed => none

end RemovalPort

/-- What can happen: the two parts of `fscc_isr`, up to `port_exists` and from there on with the value of
ISR; the expiry of the timer and `timer_handler`; a tasklet, where the registers decide whether
`oframe_worker` comes to look at the ring; the next step of the removal. -/
inductive RemovalEvent where
  | interrupt
  | handle (isrValue : BitVec 32)
  | expire
  | timerHandler
  | timestampTasklet
  | iframeTasklet
  | oframeTasklet (looks : Bool)
  | remove
deriving DecidableEq, Repr

def RemovalPort.step (s : RemovalPort) : RemovalEvent → Option RemovalPort
  | .interrupt =>
    if s.stage = .irqFreed ∨ s.stage = .freed then none
    -- `port_exists` compares addresses, and does not look at the port.
    else if s.stage = .listed then some { s with handling := s.handling + 1 }
    else some s
  | .handle isrValue =>
    if s.handling = 0 then none
    else
      let s := { s.touchPort with handling := s.handling - 1 }
      match isr s.isDma isrValue with
      | none => some s
      | some schedules => some { s.schedule schedules with timer := true }
  | .expire => if s.timer then some { s with timer := false, expired := s.expired + 1 } else none
  | .timerHandler =>
    if s.expired = 0 then none
    else
      let s := { s with expired := s.expired - 1 }
      some (if s.isDma then s.touchRx else s.touchPort.schedule ⟨false, true, false⟩)
  | .timestampTasklet =>
    if s.pending.timestamp then
      some { s.touchRx with pending := { s.pending with timestamp := false } }
    else none
  | .iframeTasklet =>
    if s.pending.iframe then
      let s := { s with pending := { s.pending with iframe := false } }
      some (if s.isDma then s.touchPort else s.touchRx)
    else none
  | .oframeTasklet looks =>
    if s.pending.oframe then
      let s := { s with pending := { s.pending with oframe := false } }
      some (if !s.isDma && looks then s.touchTx else s.touchPort)
    else none
  | .remove => s.remove

/-- A port from the end of `fscc_port_new` on. -/
def removalMachine : Machine RemovalPort RemovalEvent where
  init s := ∃ isDma, s = ⟨isDma, .listed, 0, false, 0, ⟨false, false, false⟩, false⟩
  step := RemovalPort.step

/-- A port at rest: no handler is past its check, the timer is neither pending nor about to be handled,
and no tasklet is scheduled. -/
structure Quiet (s : RemovalPort) : Prop where
  handling : s.handling = 0
  timer : s.timer = false
  expired : s.expired = 0
  pending : s.pending = ⟨false, false, false⟩

/-- A step of the removal goes on to a later stage, and leaves the rest but for the timer. -/
private theorem remove_cases {s t : RemovalPort} (step : s.remove = some t) :
    ∃ stage timer, stage ≠ .listed ∧ (timer = true → s.timer = true) ∧
      t = { s with stage := stage, timer := timer } := by
  obtain ⟨isDma, stage, handling, timer, expired, pending, touched⟩ := s
  cases stage with
  | txDestroyed =>
    simp only [RemovalPort.remove] at step
    split at step
    · cases step
      exact ⟨.irqFreed, timer, by simp, id, rfl⟩
    · cases step
  | freed => cases step
  | _ =>
    cases step
    refine ⟨_, _, ?_, ?_, rfl⟩
    · simp
    · simp

@[simp] theorem touch_of_listed {s : RemovalPort} {gone : List RemovalStage} (listed : s.stage = .listed)
    (there : .listed ∉ gone) : (s.touch gone).touched = s.touched := by
  simp [RemovalPort.touch, listed, there]

/-! ### While the port is listed -/

/-- Nothing is touched that has been freed while all is there, and each mode has its own tasklets. -/
structure Untouched (s : RemovalPort) : Prop where
  touched : s.stage = .listed → s.touched = false
  dma : s.isDma = true → s.pending.iframe = false ∧ s.pending.oframe = false
  fifo : s.isDma = false → s.pending.timestamp = false

namespace Untouched

private theorem touch {s : RemovalPort} (h : Untouched s) {gone : List RemovalStage}
    (there : .listed ∉ gone) :
    Untouched (s.touch gone) where
  touched listed := by
    have listed : s.stage = .listed := listed
    rw [touch_of_listed listed there, h.touched listed]
  dma := h.dma
  fifo := h.fifo

private theorem touchPort {s : RemovalPort} (h : Untouched s) : Untouched s.touchPort :=
  h.touch (by simp)

private theorem touchRx {s : RemovalPort} (h : Untouched s) : Untouched s.touchRx :=
  h.touch (by simp)

private theorem touchTx {s : RemovalPort} (h : Untouched s) : Untouched s.touchTx :=
  h.touch (by simp)

private theorem schedule {s : RemovalPort} (h : Untouched s) {schedules : Schedules}
    (dma : s.isDma = true → schedules.iframe = false ∧ schedules.oframe = false)
    (fifo : s.isDma = false → schedules.timestamp = false) : Untouched (s.schedule schedules) where
  touched := h.touched
  dma mode := by simp [RemovalPort.schedule, h.dma mode, dma mode]
  fifo mode := by simp [RemovalPort.schedule, h.fifo mode, fifo mode]

end Untouched

private theorem isr_schedules {isDma : Bool} {isrValue : BitVec 32} {schedules : Schedules}
    (handled : isr isDma isrValue = some schedules) :
    (isDma = true → schedules.iframe = false ∧ schedules.oframe = false) ∧
      (isDma = false → schedules.timestamp = false) := by
  unfold isr at handled
  split at handled
  · cases handled
  · split at handled
    next dma =>
      cases handled
      exact ⟨fun _ => ⟨rfl, rfl⟩, fun fifo => by rw [dma] at fifo; cases fifo⟩
    next fifo =>
      cases handled
      exact ⟨fun dma => absurd dma fifo, fun _ => rfl⟩

private theorem untouched_step {s t : RemovalPort} {event : RemovalEvent} (h : Untouched s)
    (stepped : removalMachine.step s event = some t) : Untouched t := by
  have step : s.step event = some t := stepped
  cases event with
  -- The handler looks at the list of ports, and not at the port.
  | interrupt =>
    simp only [RemovalPort.step] at step
    split at step
    · cases step
    · split at step <;> cases step <;> exact ⟨h.touched, h.dma, h.fifo⟩
  | handle isrValue =>
    simp only [RemovalPort.step] at step
    split at step
    · cases step
    · have handled : Untouched { s.touchPort with handling := s.handling - 1 } :=
        ⟨h.touchPort.touched, h.dma, h.fifo⟩
      split at step
      · cases step
        exact handled
      -- What the interrupts ask for is scheduled, and the mode decides which tasklets these are.
      next schedules asked =>
        cases step
        obtain ⟨dma, fifo⟩ := isr_schedules asked
        have scheduled := handled.schedule dma fifo
        exact ⟨scheduled.touched, scheduled.dma, scheduled.fifo⟩
  | expire =>
    simp only [RemovalPort.step] at step
    split at step
    · cases step
      exact ⟨h.touched, h.dma, h.fifo⟩
    · cases step
  | timerHandler =>
    simp only [RemovalPort.step] at step
    split at step
    · cases step
    · have started : Untouched { s with expired := s.expired - 1 } := ⟨h.touched, h.dma, h.fifo⟩
      cases step
      -- In DMA mode the timer looks at the receive ring, else it schedules a tasklet.
      split
      · exact started.touchRx
      next fifo => exact started.touchPort.schedule (fun dma => absurd dma fifo) fun _ => rfl
  | timestampTasklet =>
    simp only [RemovalPort.step] at step
    split at step
    · cases step
      exact ⟨h.touchRx.touched, h.dma, fun _ => rfl⟩
    · cases step
  | iframeTasklet =>
    simp only [RemovalPort.step] at step
    split at step
    · have started : Untouched { s with pending := { s.pending with iframe := false } } :=
        ⟨h.touched, fun mode => ⟨rfl, (h.dma mode).2⟩, h.fifo⟩
      cases step
      split
      · exact started.touchPort
      · exact started.touchRx
    · cases step
  | oframeTasklet looks =>
    simp only [RemovalPort.step] at step
    split at step
    · have started : Untouched { s with pending := { s.pending with oframe := false } } :=
        ⟨h.touched, fun mode => ⟨(h.dma mode).1, rfl⟩, h.fifo⟩
      cases step
      split
      · exact started.touchTx
      · exact started.touchPort
    · cases step
  -- Once the port is off the list there is nothing left to keep.
  | remove =>
    obtain ⟨stage, timer, later, -, rfl⟩ := remove_cases step
    exact ⟨fun listed => absurd listed later, h.dma, h.fifo⟩

private theorem untouched_reached {s : RemovalPort} (reached : removalMachine.Reached s) :
    Untouched s := by
  refine reached.invariant (fun s init => ?_) fun s t event h stepped => untouched_step h stepped
  obtain ⟨isDma, rfl⟩ := init
  exact ⟨fun _ => rfl, fun _ => ⟨rfl, rfl⟩, fun _ => rfl⟩

/-! ### Once it is off the list -/

/-- A port that was at rest when it was taken off the list. -/
structure Gone (s : RemovalPort) : Prop where
  unlisted : s.stage ≠ .listed
  untouched : s.touched = false
  quiet : Quiet s

private theorem gone_step {s t : RemovalPort} {event : RemovalEvent} (h : Gone s)
    (stepped : removalMachine.step s event = some t) : Gone t := by
  have step : s.step event = some t := stepped
  obtain ⟨unlisted, untouched, quiet⟩ := h
  cases event with
  | interrupt =>
    -- `port_exists` does not find the port.
    simp only [RemovalPort.step, if_neg unlisted] at step
    split at step
    · cases step
    · cases step
      exact ⟨unlisted, untouched, quiet⟩
  | handle isrValue => simp [RemovalPort.step, quiet.handling] at step
  | expire => simp [RemovalPort.step, quiet.timer] at step
  | timerHandler => simp [RemovalPort.step, quiet.expired] at step
  | timestampTasklet => simp [RemovalPort.step, quiet.pending] at step
  | iframeTasklet => simp [RemovalPort.step, quiet.pending] at step
  | oframeTasklet looks => simp [RemovalPort.step, quiet.pending] at step
  | remove =>
    obtain ⟨stage, timer, later, armed, rfl⟩ := remove_cases step
    refine ⟨later, untouched, quiet.handling, ?_, quiet.expired, quiet.pending⟩
    cases timer with
    | false => rfl
    | true => exact absurd (armed rfl) (by simp [quiet.timer])

private theorem gone_replay {s t : RemovalPort} {events : List RemovalEvent} (h : Gone s)
    (replayed : removalMachine.replay s events = some t) : Gone t := by
  induction events generalizing s with
  | nil =>
    cases replayed
    exact h
  | cons event events ih =>
    obtain ⟨s', stepped, rest⟩ := Option.bind_eq_some_iff.mp replayed
    exact ih (gone_step h stepped) rest

private theorem asked_rfs (isDma : Bool) : isr isDma rfs = some ⟨isDma, !isDma, false⟩ := by
  cases isDma with
  | true => rfl
  | false => rfl

/-- Touching what is gone shows at the end of the run. -/
def Harmed (s : RemovalPort) (events : List RemovalEvent) : Prop :=
  (removalMachine.replay s events).any (·.touched) = true

section

attribute [local simp] Harmed Machine.replay removalMachine RemovalPort.step RemovalPort.remove
  RemovalPort.touchRx RemovalPort.touchTx RemovalPort.touchPort RemovalPort.touch
  RemovalPort.schedule asked_rfs

/-- A handler that is past its check schedules a tasklet, which finds the frames freed. -/
private theorem harmed_handling {s : RemovalPort} (listed : s.stage = .listed)
    (handling : s.handling ≠ 0) :
    ∃ events, Harmed s (.remove :: events) := by
  obtain ⟨isDma, stage, handling, timer, expired, pending, touched⟩ := s
  cases listed
  cases isDma with
  | true =>
    refine ⟨[.remove, .handle rfs, .remove, .timestampTasklet], ?_⟩
    simp_all
  | false =>
    refine ⟨[.remove, .handle rfs, .remove, .iframeTasklet], ?_⟩
    simp_all

/-- So does `timer_handler`, which looks at the ring itself in DMA mode. -/
private theorem harmed_expired {s : RemovalPort} (listed : s.stage = .listed)
    (expired : s.expired ≠ 0) :
    ∃ events, Harmed s (.remove :: events) := by
  obtain ⟨isDma, stage, handling, timer, expired, pending, touched⟩ := s
  cases listed
  cases isDma with
  | true =>
    refine ⟨[.remove, .remove, .timerHandler], ?_⟩
    simp_all
  | false =>
    refine ⟨[.remove, .remove, .timerHandler, .iframeTasklet], ?_⟩
    simp_all

/-- `del_timer` does not wait for a timer that has expired before. -/
private theorem harmed_timer {s : RemovalPort} (listed : s.stage = .listed) (timer : s.timer = true) :
    ∃ events, Harmed s (.remove :: events) := by
  obtain ⟨isDma, stage, handling, timer, expired, pending, touched⟩ := s
  cases listed
  cases isDma with
  | true =>
    refine ⟨[.expire, .remove, .remove, .timerHandler], ?_⟩
    simp_all
  | false =>
    refine ⟨[.expire, .remove, .remove, .timerHandler, .iframeTasklet], ?_⟩
    simp_all

/-- No tasklet is killed. -/
private theorem harmed_pending {s : RemovalPort} (h : Untouched s) (listed : s.stage = .listed)
    (pending : s.pending ≠ ⟨false, false, false⟩) : ∃ events, Harmed s (.remove :: events) := by
  obtain ⟨isDma, stage, handling, timer, expired, ⟨timestamp, iframe, oframe⟩, touched⟩ := s
  obtain ⟨-, dma, fifo⟩ := h
  cases listed
  cases isDma with
  | true =>
    obtain ⟨rfl, rfl⟩ := dma rfl
    refine ⟨[.remove, .remove, .timestampTasklet], ?_⟩
    simp_all
  | false =>
    obtain rfl := fifo rfl
    cases iframe with
    | true =>
      refine ⟨[.remove, .remove, .iframeTasklet], ?_⟩
      simp_all
    | false =>
      refine ⟨[.remove, .remove, .remove, .remove, .oframeTasklet true], ?_⟩
      simp_all

end

private theorem quiet_of_harmless {s : RemovalPort} (h : Untouched s) (listed : s.stage = .listed)
    (harmless : ∀ events, ¬Harmed s (.remove :: events)) : Quiet s := by
  refine ⟨?_, ?_, ?_, ?_⟩
  · by_contra handling
    obtain ⟨events, harmed⟩ := harmed_handling listed handling
    exact harmless events harmed
  · by_contra timer
    obtain ⟨events, harmed⟩ := harmed_timer listed (by simpa using timer)
    exact harmless events harmed
  · by_contra expired
    obtain ⟨events, harmed⟩ := harmed_expired listed expired
    exact harmless events harmed
  · by_contra pending
    obtain ⟨events, harmed⟩ := harmed_pending h listed pending
    exact harmless events harmed

/-- The removal of a port touches nothing that it has freed, in any order of what happens, if and only
if the port is at rest when it is taken off the list. -/
theorem removal_safe_iff {s : RemovalPort} (reached : removalMachine.Reached s)
    (listed : s.stage = .listed) : (∀ events, ¬Harmed s (.remove :: events)) ↔ Quiet s := by
  have h := untouched_reached reached
  constructor
  · exact quiet_of_harmless h listed
  · intro quiet events harmed
    obtain ⟨t, replayed, touched⟩ := (Option.any_eq_true _ _).mp harmed
    obtain ⟨s', stepped, rest⟩ := Option.bind_eq_some_iff.mp replayed
    have step : s.remove = some s' := stepped
    have gone : Gone s' := by
      obtain ⟨stage, timer, later, armed, rfl⟩ := remove_cases step
      refine ⟨later, h.touched listed, quiet.handling, ?_, quiet.expired, quiet.pending⟩
      cases timer with
      | false => rfl
      | true => exact absurd (armed rfl) (by simp [quiet.timer])
    have untouched := (gone_replay gone rest).untouched
    simp [untouched] at touched

/-- A port in FIFO mode, before its first interrupt. -/
def freshRemoval : RemovalPort :=
  ⟨false, .listed, 0, false, 0, ⟨false, false, false⟩, false⟩

theorem removal_safe_iff_fresh :
    (∀ events, ¬Harmed freshRemoval (.remove :: events)) ∧
      ¬∀ events, ¬Harmed { freshRemoval with handling := 1 } (.remove :: events) := by
  have initial : removalMachine.Reached freshRemoval := .init ⟨false, rfl⟩
  constructor
  · exact (removal_safe_iff initial rfl).mpr ⟨rfl, rfl, rfl, rfl⟩
  · -- A handler has just asked `port_exists`.
    have stepped : removalMachine.step freshRemoval .interrupt =
        some { freshRemoval with handling := 1 } := rfl
    intro harmless
    have quiet := (removal_safe_iff (.step initial trivial stepped) rfl).mp harmless
    exact absurd quiet.handling (by decide)

end Fscc
