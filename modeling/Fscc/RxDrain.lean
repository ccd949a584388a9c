import Fscc.Isr
import Fscc.RxRace

/-!
# What sets off a drain

The receive path with its interrupt, `iframe_tasklet` and the 250 ms timer. The timer is set by
an interrupt and fires once. `iframe_worker` gives up where the ring is full, and a read that
makes room there starts nothing.
-/

namespace Fscc

/-- The receive path, whether a receive interrupt has not been served, and whether
`iframe_tasklet` is scheduled and the timer pending. -/
structure DrainSystem where
  race : RaceState
  irq : Bool
  scheduled : Bool
  timer : Bool

/-- The receive path takes a step, an interrupt is served, the tasklet begins to run, or the
timer expires. -/
inductive DrainEvent where
  | race (e : RaceEvent)
  | interrupt (other : BitVec 32)
  | tasklet
  | expire

namespace DrainSystem

variable (s : DrainSystem)

/-- A call of `fscc_fifo_read_data` is not over. -/
def running : Bool :=
  match s.race.pc with
  | .idle => false
  | _ => true

/-- The interrupt status register. -/
def isrValue (other : BitVec 32) : BitVec 32 := other ||| if s.irq then rfe else 0#32

/-- Something is pending that has the tasklet run. -/
def Due : Prop := s.irq = true ∨ s.scheduled = true ∨ s.timer = true

/-- A drain is under way or about to be. -/
def OnItsWay : Prop := s.running = true ∨ s.Due

/-- If a complete frame waits and the ring has room, a drain is on its way. -/
def Drains : Prop := s.race.pending ≠ [] → s.race.port.fifoFrame.cstop = false → s.OnItsWay

end DrainSystem

/-- The events of the receive path that happen by themselves or in a call already begun; it is
`iframe_tasklet` that begins a call, and there are no purges. -/
def RaceEvent.unprompted : RaceEvent → Bool
  | .call => false
  | .purge _ => false
  | _ => true

variable (mem : Memory)

/-- The driver in a framed FIFO mode. Each frame that becomes complete raises an interrupt. -/
def drainMachine (frames : List WireFrame) : Machine DrainSystem DrainEvent where
  init s := (raceMachine mem frames).init s.race ∧ s.irq = false ∧ s.scheduled = false ∧
    s.timer = false
  step s
    | .race e =>
      if e.unprompted then
        ((raceMachine mem frames).step s.race e).map fun t =>
          { s with
            race := t
            -- A frame that becomes complete raises its interrupt.
            irq := s.irq || decide (s.race.hardware.received.length < t.hardware.received.length) }
      else none
    | .interrupt other =>
      (isr false (s.isrValue other)).map fun schedules =>
        { s with irq := false, scheduled := s.scheduled || schedules.iframe, timer := true }
    | .tasklet =>
      if s.scheduled then
        ((raceMachine mem frames).step s.race .call).map fun t =>
          { s with race := t, scheduled := false }
      else none
    | .expire =>
      if s.timer then
        some { s with
          timer := false
          scheduled := s.scheduled || (timerHandler mem false false s.race.port).2 }
      else none

/-- `iframe_worker` has used up its passes, or the next descriptor is not free. -/
def RaceState.GivesUp (s : RaceState) : Prop :=
  s.pc = .top 0 ∨ (∃ n, s.pc = .top n) ∧ s.port.fifoFrame.cstop = true

/-- Whenever `iframe_worker` gives up while a complete frame waits, something is pending that
has it run again. -/
def TriesAgain (s : DrainSystem) : DrainEvent → Prop
  | .race (.fetch _) => s.race.GivesUp → s.race.pending ≠ [] → s.Due
  | _ => True

variable {mem}

/-! ### A worker that runs by itself -/

private theorem replay_race (frames : List WireFrame) {es : List RaceEvent} {s : DrainSystem}
    {t : RaceState} (drains : ∀ e ∈ es, e.drains = true)
    (replayed : (raceMachine mem frames).replay s.race es = some t) :
    ∃ u, (drainMachine mem frames).replay s (es.map .race) = some u ∧ u.race = t := by
  induction es generalizing s with
  | nil =>
    cases replayed
    exact ⟨s, rfl, rfl⟩
  | cons e es ih =>
    obtain ⟨next, stepped, rest⟩ := Option.bind_eq_some_iff.mp replayed
    have free : e.unprompted = true := by
      have := drains e (.head _)
      cases e <;> first | rfl | cases this
    obtain ⟨u, lifted, same⟩ := ih (s := { s with
        race := next
        irq := s.irq || decide (s.race.hardware.received.length < next.hardware.received.length) })
      (fun e member => drains e (.tail _ member)) rest
    refine ⟨u, ?_, same⟩
    rw [List.map_cons, Machine.replay]
    simp only [drainMachine, free, if_true, stepped, Option.map_some, Option.bind_some]
    exact lifted

/-- A run of `iframe_worker` is a run of the machine. -/
theorem replay_iframeWorker (frames : List WireFrame) {s : DrainSystem} (streaming : Bool)
    (schedule : List (List Arrival)) (scheduled : s.scheduled = true) (pc : s.race.pc = .idle) :
    ∃ es t, (drainMachine mem frames).replay s es = some t ∧ t.running = false ∧
      t.race.port =
        (iframeWorker raced mem false streaming s.race.port ⟨s.race.hardware, schedule⟩).1 ∧
      t.race.hardware =
        (iframeWorker raced mem false streaming s.race.port
          ⟨s.race.hardware, schedule⟩).2.2.hardware := by
  obtain ⟨es, t, drains, replayed, idle, port, hardware⟩ := replay_fifoReadLoop mem frames
    mem.rxNum s.race.port ⟨s.race.hardware, schedule⟩ s.race.finalised
  obtain ⟨u, lifted, rfl⟩ := replay_race frames
    (s := { s with race := { s.race with pc := .top mem.rxNum }, scheduled := false }) drains replayed
  refine ⟨.tasklet :: es.map .race, u, ?_, by simp [DrainSystem.running, idle], port, hardware⟩
  rw [Machine.replay]
  simp only [drainMachine, raceMachine, scheduled, if_true, pc, Option.map_some, Option.bind_some]
  exact lifted

/-! ### The invariant -/

/-- Where no drain is under way, and in a pass that knows no length, something is pending for
the frames that wait. -/
structure DrainSystem.Served (mem : Memory) (frames : List WireFrame) (s : DrainSystem) : Prop where
  inv : s.race.Inv mem False
  frames : s.race.hardware.received ++ s.race.hardware.line = frames
  idle : s.race.pc = .idle → s.race.pending ≠ [] → s.Due
  unknown : ∀ n d, s.race.pc = .fetched n d → d.rxFrameSize = 0 → s.race.pending ≠ [] → s.Due

namespace RaceState

variable {s t : RaceState} {frames : List WireFrame} {e : RaceEvent}

/-- Without purges no step loses a frame or makes one up. -/
private theorem frames_step (stepped : RaceStep mem s e t) (kind : e.unprompted = true ∨ e = .call) :
    t.hardware.received ++ t.hardware.line = s.hardware.received ++ s.hardware.line := by
  have keeps := Receiver.keeps_frames (s.hardware.received ++ s.hardware.line)
  cases stepped with
  | hardware a =>
    obtain ⟨done, data, arrived⟩ := s.hardware.arrived_arrival a
    exact arrived.frames
  | call _ => rfl
  | stop _ _ _ _ => rfl
  | fetch schedule passes _ _ =>
    exact keeps.fetch mem s.port.load (d := ⟨s.hardware, schedule⟩) rfl
  | finish schedule passes d _ => exact keeps.finish mem d (d := ⟨s.hardware, schedule⟩) rfl
  | read _ _ _ _ _ => rfl
  | purge accepted _ => simp [RaceEvent.unprompted] at kind

/-- A pass that leaves its descriptor unfinished knew no length, and finalises nothing. -/
private theorem Joint.finish_open {exact_ : Prop} {groups : List (FrameGroup mem)}
    {part free : List IoFrame} (h : s.Joint mem exact_ groups part free) {passes : Nat} {d : Drain}
    (pc : s.pc = .fetched passes d) (schedule : List (List Arrival))
    (unfinished : hasCstop (fifoReadFinish raced mem d ⟨s.hardware, schedule⟩).1.newControl = false) :
    d.rxFrameSize = 0 ∧
      hasFe (fifoReadFinish raced mem d ⟨s.hardware, schedule⟩).1.newControl = false := by
  obtain ⟨some_, r, rfl⟩ := h.fetched passes d pc
  obtain ⟨f, rest, rfl⟩ : ∃ f rest, free = f :: rest := List.exists_cons_of_ne_nil some_
  have size := (h.framed.fetch_counters raced r).2
  have pass := h.framed.pass_halves raced r ⟨s.hardware, schedule⟩
  have lengths := h.counted.lengths
  simp only [rxFrameSize, pc, size] at lengths
  generalize s.port.store mem _ = p' at pass
  generalize hasCstop _ = cstop, hasFe _ = fe at pass unfinished ⊢
  cases pass with
  -- With the descriptor finished the loop would have gone on.
  | last => cases unfinished
  | full => cases unfinished
  | more f' _ _ none_ _ =>
    refine ⟨?_, rfl⟩
    rcases lengths with ⟨zero, -⟩ | ⟨w, ws, -, known, -⟩
    · rw [size, zero]
    · have := w.status
      rw [WireFrame.length] at known
      omega

/-- A pass that knows no length began with no frame complete. -/
private theorem Joint.fetch_waits {groups : List (FrameGroup mem)} {part free : List IoFrame}
    (h : s.Joint mem False groups part free) {n : Nat} (pc : s.pc = .top n)
    (room : s.port.fifoFrame.cstop = false) (schedule : List (List Arrival))
    (short : ∀ w ∈ s.hardware.received ++ s.hardware.line, w.length < 2147483648)
    (unknown : (fifoReadFetch raced mem s.port.load ⟨s.hardware, schedule⟩).1.rxFrameSize = 0) :
    s.pending = [] := by
  obtain ⟨done, fetched, -, size⟩ :=
    h.counted_fetch pc room schedule (.inr short) False.elim
  exact (fetched.unknown (size ▸ unknown)).1

/-- A step in which no frame becomes complete leaves the frames received as they are. -/
private theorem received_step (stepped : RaceStep mem s e t)
    (quiet : ¬s.hardware.received.length < t.hardware.received.length) :
    t.hardware.received = s.hardware.received := by
  have kept : s.hardware.received <+: t.hardware.received := by
    have keeps := Receiver.keeps_received s.hardware.received
    have refl := List.prefix_refl s.hardware.received
    cases stepped with
    | hardware a =>
      obtain ⟨done, data, arrived⟩ := s.hardware.arrived_arrival a
      exact ⟨done, arrived.received.symm⟩
    | call _ => exact refl
    | stop _ _ _ _ => exact refl
    | fetch schedule passes _ _ =>
      exact keeps.fetch mem s.port.load (d := ⟨s.hardware, schedule⟩) refl
    | finish schedule passes d _ => exact keeps.finish mem d (d := ⟨s.hardware, schedule⟩) refl
    | read _ _ _ _ _ => exact refl
    | purge accepted _ => cases accepted <;> exact refl
  exact (kept.eq_of_length_le (by omega)).symm

/-- If no frame becomes complete in a step, one that waits after it waited before it. The drain
leaves it only where it gives up, or with its length not known. -/
private theorem Inv.waits (h : s.Inv mem False)
    (short : ∀ w ∈ s.hardware.received ++ s.hardware.line, w.length < 2147483648)
    (stepped : RaceStep mem s e t) (kind : e.unprompted = true)
    (quiet : ¬s.hardware.received.length < t.hardware.received.length) :
    (t.pc = .idle → t.pending ≠ [] → s.pending ≠ [] ∧ (s.pc = .idle ∨
      (∃ schedule, e = .fetch schedule ∧ s.GivesUp) ∨
        ∃ n d, s.pc = .fetched n d ∧ d.rxFrameSize = 0)) ∧
    ∀ n d, t.pc = .fetched n d → d.rxFrameSize = 0 → t.pending ≠ [] →
      s.pc = .fetched n d ∧ s.pending ≠ [] := by
  -- What is pending changes with a frame that is completed or finalised, and none is completed here.
  obtain ⟨groups, part, free, joint⟩ := h
  have same := received_step stepped quiet
  cases stepped with
  | hardware a =>
    have pending : RaceState.pending { s with hardware := s.hardware.arrival a } = s.pending :=
      congrArg (List.drop s.finalised) same
    rw [pending]
    exact ⟨fun idle waits => ⟨waits, .inl idle⟩, fun n d pc _ waits => ⟨pc, waits⟩⟩
  | call _ => cases kind
  | stop schedule n pc reason =>
    -- The call stops for lack of passes or of a free descriptor.
    refine ⟨fun _ waits => ⟨waits, .inr (.inl ⟨schedule, rfl, ?_⟩)⟩, nofun⟩
    rcases reason with rfl | full
    · exact .inl pc
    · exact .inr ⟨⟨n, pc⟩, full⟩
  | fetch schedule passes pc room =>
    -- A fetch that finds no length has looked when no frame was complete.
    refine ⟨nofun, fun n d eq unknown waits => ?_⟩
    obtain ⟨-, rfl⟩ := DrainPc.fetched.inj eq
    have none_ := joint.fetch_waits pc room schedule short unknown
    refine absurd ?_ waits
    exact (congrArg (List.drop s.finalised) same).trans none_
  | finish schedule passes d pc =>
    by_cases finished :
        hasCstop (fifoReadFinish raced mem d ⟨s.hardware, schedule⟩).1.newControl = true
    · rw [if_pos finished]
      exact ⟨nofun, nofun⟩
    -- The call ends with the descriptor open, which it does only without a length.
    · obtain ⟨unknown, fe⟩ := joint.finish_open pc schedule (by simpa using finished)
      rw [if_neg finished]
      refine ⟨fun _ waits => ⟨?_, .inr (.inr ⟨passes, d, pc, unknown⟩)⟩, nofun⟩
      intro none_
      apply waits
      simp only [pending, fe, Bool.false_eq_true, if_false]
      exact (congrArg (List.drop s.finalised) same).trans none_
  | read settings bufLength alloc unmovedBytes pc =>
    exact ⟨fun _ waits => ⟨waits, .inl pc⟩, fun n d eq _ waits => ⟨eq, waits⟩⟩
  | purge accepted _ => cases kind

end RaceState

namespace DrainSystem.Served

variable {frames : List WireFrame} {s t : DrainSystem} {e : DrainEvent}

private theorem initial (init : (drainMachine mem frames).init s) : s.Served mem frames := by
  obtain ⟨race, -, -, -⟩ := init
  refine ⟨.initial race, ?_, fun _ waits => absurd ?_ waits, fun n d pc => ?_⟩
  · rw [race.2.1]
    rfl
  · rw [RaceState.pending, race.2.1]
    exact List.drop_nil
  · rw [race.2.2.2] at pc
    cases pc

/-- A step of the receive path. -/
private theorem race {u : RaceState} {e : RaceEvent} (h : s.Served mem frames)
    (short : ∀ w ∈ frames, w.length < 2147483648) (kind : e.unprompted = true)
    (met : TriesAgain s (.race e)) (stepped : RaceStep mem s.race e u) :
    DrainSystem.Served mem frames { s with
      race := u
      irq := s.irq ||
        decide (s.race.hardware.received.length < u.hardware.received.length) } := by
  have shorter : ∀ w ∈ s.race.hardware.received ++ s.race.hardware.line, w.length < 2147483648 := by
    rw [h.frames]
    exact short
  have inv : u.Inv mem False := h.inv.step (.inr shorter) (fun _ _ => False.elim)
    (fun accepted eq => by subst eq; cases kind) stepped
  have all := (RaceState.frames_step stepped (.inl kind)).trans h.frames
  by_cases quiet : s.race.hardware.received.length < u.hardware.received.length
  · -- A frame that becomes complete raises its interrupt.
    have due : DrainSystem.Due { s with
        race := u
        irq := s.irq ||
          decide (s.race.hardware.received.length < u.hardware.received.length) } :=
      .inl (by simp [quiet])
    exact ⟨inv, all, fun _ _ => due, fun _ _ _ _ _ => due⟩
  -- No frame became complete, so what waits now has waited before.
  · obtain ⟨ended, unknown⟩ := h.inv.waits shorter stepped kind quiet
    simp only [quiet, decide_false, Bool.or_false]
    refine ⟨inv, all, fun idle waits => ?_, fun n d pc size waits => ?_⟩
    · obtain ⟨before, idle | ⟨schedule, rfl, gaveUp⟩ | ⟨n, d, pc, size⟩⟩ := ended idle waits
      · exact h.idle idle before
      · exact met gaveUp before
      · exact h.unknown n d pc size before
    · obtain ⟨pc, before⟩ := unknown n d pc size waits
      exact h.unknown n d pc size before

private theorem step (h : s.Served mem frames) (short : ∀ w ∈ frames, w.length < 2147483648)
    (met : TriesAgain s e) (stepped : (drainMachine mem frames).step s e = some t) :
    t.Served mem frames := by
  cases e with
  | race e =>
    simp only [drainMachine] at stepped
    split at stepped
    next kind =>
      obtain ⟨u, moved, rfl⟩ := Option.map_eq_some_iff.mp stepped
      exact h.race short kind met (raceStep_of_step moved)
    next => cases stepped
  -- An interrupt starts the timer, which has the drain tried again.
  | interrupt other =>
    obtain ⟨schedules, -, rfl⟩ := Option.map_eq_some_iff.mp stepped
    have due : DrainSystem.Due { s with
        irq := false, scheduled := s.scheduled || schedules.iframe, timer := true } :=
      .inr (.inr rfl)
    exact ⟨h.inv, h.frames, fun _ _ => due, fun _ _ _ _ _ => due⟩
  | tasklet =>
    simp only [drainMachine] at stepped
    split at stepped
    next =>
      obtain ⟨u, moved, rfl⟩ := Option.map_eq_some_iff.mp stepped
      have inv : u.Inv mem False := h.inv.step
        (.inr (by rw [h.frames]; exact short)) (fun _ _ => False.elim)
        (fun _ eq => by cases eq) (raceStep_of_step moved)
      have all := (RaceState.frames_step (raceStep_of_step moved) (.inr rfl)).trans h.frames
      -- The drain has begun, and owes nothing before it ends.
      cases raceStep_of_step moved with
      | call pc => exact ⟨inv, all, nofun, nofun⟩
    next => cases stepped
  | expire =>
    simp only [drainMachine] at stepped
    split at stepped
    next =>
      obtain rfl := Option.some.inj stepped
      have due : DrainSystem.Due { s with
          timer := false
          scheduled := s.scheduled || (timerHandler mem false false s.race.port).2 } :=
        .inr (.inl (by simp [timerHandler]))
      exact ⟨h.inv, h.frames, fun _ _ => due, fun _ _ _ _ _ => due⟩
    next => cases stepped

end DrainSystem.Served

/-- In every run that meets the condition, over frames whose lengths are positive ints, a drain
is on its way whenever a complete frame waits and the ring has room for it. -/
theorem drain_on_its_way (mem : Memory) (frames : List WireFrame)
    (short : ∀ w ∈ frames, w.length < 2147483648) {s : DrainSystem}
    (reached : (drainMachine mem frames).ReachedUnder TriesAgain s) : s.Drains := by
  have served : s.Served mem frames :=
    reached.invariant (fun _ init => .initial init) fun _ _ _ h met stepped =>
      h.step short met stepped
  intro waits _
  cases running : s.running with
  | true => exact .inl running
  | false =>
    refine .inr (served.idle ?_ waits)
    unfold DrainSystem.running at running
    split at running
    next idle => exact idle
    next => cases running

/-! ### The worker against a full ring -/

private theorem timer_interrupt {mem : Memory} {frames : List WireFrame} {other : BitVec 32}
    {s t : DrainSystem} (stepped : (drainMachine mem frames).step s (.interrupt other) = some t) :
    t.timer = true := by
  obtain ⟨schedules, -, rfl⟩ := Option.map_eq_some_iff.mp stepped
  rfl

/-- Until the timer expires the worker may give up. -/
private theorem met_of_timer {mem : Memory} {frames : List WireFrame} {es : List DrainEvent}
    (none_ : DrainEvent.expire ∉ es) {s : DrainSystem} (timer : s.timer = true) :
    (drainMachine mem frames).Met TriesAgain s es := by
  induction es generalizing s with
  | nil => trivial
  | cons e es ih =>
    refine ⟨?_, fun t stepped => ih (fun member => none_ (.tail _ member)) ?_⟩
    · unfold TriesAgain
      split
      next => exact fun _ _ => .inr (.inr timer)
      next => trivial
    · cases e with
      | race e =>
        simp only [drainMachine] at stepped
        split at stepped
        next =>
          obtain ⟨u, -, rfl⟩ := Option.map_eq_some_iff.mp stepped
          exact timer
        next => cases stepped
      | interrupt other => exact timer_interrupt stepped
      | tasklet =>
        simp only [drainMachine] at stepped
        split at stepped
        next =>
          obtain ⟨u, -, rfl⟩ := Option.map_eq_some_iff.mp stepped
          exact timer
        next => cases stepped
      | expire => exact absurd (.head _) none_

/-- Three frames, each as long as a descriptor, are about to reach a fresh port. -/
def beforeThree : DrainSystem where
  race := ⟨freshRx .small [4096, 8192],
    .idle [wordsFrame 0, wordsFrame 0, wordsFrame 0] .clear, 0, .idle⟩
  irq := false
  scheduled := false
  timer := false

private theorem beforeThree_init :
    (drainMachine .small [wordsFrame 0, wordsFrame 0, wordsFrame 0]).init beforeThree :=
  ⟨⟨fresh_freshRx .small rfl, rfl, rfl, rfl⟩, rfl, rfl, rfl⟩

/-- All three arrive, and one interrupt has the first two drained. -/
def drainedTwo : List DrainEvent :=
  [.race (.hardware .complete), .race (.hardware .complete), .race (.hardware .complete),
    .interrupt 0#32, .tasklet, .race (.fetch []), .race (.finish []), .race (.fetch []),
    .race (.finish []), .race (.fetch [])]

/-- A read that takes one frame. -/
def readOne : DrainEvent := .race (.read ⟨true, false, false⟩ 8 true 0)

/-- The timer fires while the ring is full. A read then makes room, and nothing is pending. -/
theorem drain_stranded :
    ∃ s, (drainMachine .small [wordsFrame 0, wordsFrame 0, wordsFrame 0]).Reached s ∧
      s.race.hardware.fifo = (wordsFrame 0).padded ∧ s.race.hardware.lengths = [8] ∧
      ¬s.Drains := by
  have run : ∃ s, (drainMachine .small [wordsFrame 0, wordsFrame 0, wordsFrame 0]).replay
      beforeThree (drainedTwo ++ [.expire, .tasklet, .race (.fetch []), readOne]) = some s ∧
      s.race.hardware.fifo = (wordsFrame 0).padded ∧ s.race.hardware.lengths = [8] ∧
      s.race.pending ≠ [] ∧ s.race.port.fifoFrame.cstop = false ∧ s.running = false ∧
      s.irq = false ∧ s.scheduled = false ∧ s.timer = false :=
    ⟨_, rfl, by decide, by decide, by decide, by decide, by decide, by decide, by decide, by decide⟩
  obtain ⟨s, replayed, fifo, lengths, waits, room, ended, irq, scheduled, timer⟩ := run
  refine ⟨s, .replay (.init beforeThree_init) _ replayed, fifo, lengths, fun drains => ?_⟩
  have := drains waits room
  simp [DrainSystem.OnItsWay, DrainSystem.Due, ended, irq, scheduled, timer] at this

/-- A read that makes room while the timer is still pending. -/
theorem drain_on_its_way_timer :
    ∃ s, (drainMachine .small [wordsFrame 0, wordsFrame 0, wordsFrame 0]).replay beforeThree
        (drainedTwo ++ [readOne]) = some s ∧ s.race.pending ≠ [] ∧
      s.race.port.fifoFrame.cstop = false ∧ s.Drains := by
  have met : (drainMachine .small [wordsFrame 0, wordsFrame 0, wordsFrame 0]).Met TriesAgain
      beforeThree (drainedTwo ++ [readOne]) := by
    refine ⟨trivial, fun t h => ?_⟩
    obtain rfl := Option.some.inj h
    refine ⟨trivial, fun t h => ?_⟩
    obtain rfl := Option.some.inj h
    refine ⟨trivial, fun t h => ?_⟩
    obtain rfl := Option.some.inj h
    exact ⟨trivial, fun t h => met_of_timer (by simp [readOne]) (timer_interrupt h)⟩
  exact ⟨_, rfl, by decide, by decide,
    drain_on_its_way .small [wordsFrame 0, wordsFrame 0, wordsFrame 0] (by decide)
      (.replay (.init beforeThree_init) _ met rfl)⟩

end Fscc
