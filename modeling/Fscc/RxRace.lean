import Fscc.Lib.Machine
import Fscc.RxCount
import Fscc.RxRead

/-!
# The drain against a moving receiver

`fscc_fifo_read_data` in steps, over a receiver that moves between any two of its accesses,
with reads and purges between its calls. Two results about runs: when the drain keeps to
the frame it is receiving, and when a full ring always has a frame to read.
-/

namespace Fscc

open Receiver (roundUp)

/-- Where a call of `fscc_fifo_read_data` is: not running, before a pass with so many passes
left, or between the two halves of a pass. -/
inductive DrainPc where
  | idle
  | top (passes : Nat)
  | fetched (passes : Nat) (s : Drain)

/-- The receive path. `finalised` counts the received frames that the driver is done with. -/
structure RaceState where
  port : RxPort
  hardware : Receiver
  finalised : Nat
  pc : DrainPc

namespace RaceState

variable (s : RaceState)

/-- `rx_bytes_in_frame`. -/
def rxBytesInFrame : Int :=
  match s.pc with
  | .fetched _ d => d.rxBytesInFrame
  | _ => s.port.rxBytesInFrame

/-- `rx_frame_size`. -/
def rxFrameSize : Int :=
  match s.pc with
  | .fetched _ d => d.rxFrameSize
  | _ => s.port.rxFrameSize

/-- The frames that are complete but not finalised. -/
def pending : List WireFrame := s.hardware.received.drop s.finalised

/-- The frame that is being received. -/
def current : Option WireFrame := (s.pending ++ s.hardware.line).head?

/-- The bytes that have arrived of later frames. -/
def laterBytes : Nat :=
  match s.pending with
  | [] => 0
  | _ :: later => (later.flatMap WireFrame.padded).length + s.hardware.front.length

end RaceState

/-- What can happen: `schedule` is what arrives before each access of a step, and `accepted`
is whether a purge gets its `RRES` past the clock check of `fscc_port_set_register`. -/
inductive RaceEvent where
  | hardware (a : Arrival)
  | call
  | fetch (schedule : List (List Arrival))
  | finish (schedule : List (List Arrival))
  | read (settings : Settings) (bufLength : Nat) (alloc : Bool) (unmovedBytes : Nat)
  | purge (accepted : Bool)

variable (mem : Memory)

/-- The receive path in a framed FIFO mode. The spinlock keeps reads and purges out of a
call of `fscc_fifo_read_data`, but not the receiver. -/
def raceMachine (frames : List WireFrame) : Machine RaceState RaceEvent where
  init s := Fresh mem s.port ∧ s.hardware = .idle frames s.hardware.clock ∧ s.finalised = 0 ∧
    s.pc = .idle
  step s
    | .hardware a => some { s with hardware := s.hardware.arrival a }
    | .call =>
      match s.pc with
      | .idle => some { s with pc := .top mem.rxNum }
      | _ => none
    -- A pass of the loop reads the counters and the data in its first half.
    | .fetch schedule =>
      match s.pc with
      | .top 0 => some { s with pc := .idle }
      | .top (passes + 1) =>
        if s.port.fifoFrame.cstop then some { s with pc := .idle }
        else
          let fetched := fifoReadFetch raced mem s.port.load ⟨s.hardware, schedule⟩
          some { s with hardware := fetched.2.hardware, pc := .fetched passes fetched.1 }
      | _ => none
    -- Its second half ends the descriptor or not, by what the first half has seen.
    | .finish schedule =>
      match s.pc with
      | .fetched passes d =>
        let done := fifoReadFinish raced mem d ⟨s.hardware, schedule⟩
        some {
          port := s.port.store mem done.1
          hardware := done.2.hardware
          finalised := if hasFe done.1.newControl then s.finalised + 1 else s.finalised
          pc := if hasCstop done.1.newControl then .top passes else .idle }
      | _ => none
    | .read settings bufLength alloc unmovedBytes =>
      match s.pc with
      | .idle =>
        let read := userReadFrame receiver mem settings bufLength alloc unmovedBytes s.port s.hardware
        some { s with port := read.2.1 }
      | _ => none
    -- A refused RRES leaves the frames in the FIFO, while the ring is reset all the same.
    | .purge accepted =>
      match s.pc with
      | .idle =>
        some { s with
          port := resetRx mem s.port
          hardware := if accepted then s.hardware.reset else s.hardware
          finalised := if accepted then s.hardware.received.length else s.finalised }
      | _ => none

/-- What a step does, case by case. -/
inductive RaceStep (s : RaceState) : RaceEvent → RaceState → Prop
  | hardware (a : Arrival) :
      RaceStep s (.hardware a) { s with hardware := s.hardware.arrival a }
  | call : s.pc = .idle → RaceStep s .call { s with pc := .top mem.rxNum }
  | stop (schedule : List (List Arrival)) (n : Nat) :
      s.pc = .top n → n = 0 ∨ s.port.fifoFrame.cstop = true →
      RaceStep s (.fetch schedule) { s with pc := .idle }
  | fetch (schedule : List (List Arrival)) (passes : Nat) :
      s.pc = .top (passes + 1) → s.port.fifoFrame.cstop = false →
      RaceStep s (.fetch schedule) { s with
        hardware := (fifoReadFetch raced mem s.port.load ⟨s.hardware, schedule⟩).2.hardware
        pc := .fetched passes (fifoReadFetch raced mem s.port.load ⟨s.hardware, schedule⟩).1 }
  | finish (schedule : List (List Arrival)) (passes : Nat) (d : Drain) :
      s.pc = .fetched passes d →
      RaceStep s (.finish schedule) {
        port := s.port.store mem (fifoReadFinish raced mem d ⟨s.hardware, schedule⟩).1
        hardware := (fifoReadFinish raced mem d ⟨s.hardware, schedule⟩).2.hardware
        finalised := if hasFe (fifoReadFinish raced mem d ⟨s.hardware, schedule⟩).1.newControl
          then s.finalised + 1 else s.finalised
        pc := if hasCstop (fifoReadFinish raced mem d ⟨s.hardware, schedule⟩).1.newControl
          then .top passes else .idle }
  | read (settings : Settings) (bufLength : Nat) (alloc : Bool) (unmovedBytes : Nat) :
      s.pc = .idle →
      RaceStep s (.read settings bufLength alloc unmovedBytes) { s with
        port := (userReadFrame receiver mem settings bufLength alloc unmovedBytes s.port
          s.hardware).2.1 }
  | purge (accepted : Bool) :
      s.pc = .idle →
      RaceStep s (.purge accepted) { s with
        port := resetRx mem s.port
        hardware := if accepted then s.hardware.reset else s.hardware
        finalised := if accepted then s.hardware.received.length else s.finalised }

variable {mem}

theorem raceStep_of_step {frames : List WireFrame} {s t : RaceState} {e : RaceEvent}
    (stepped : (raceMachine mem frames).step s e = some t) : RaceStep mem s e t := by
  obtain ⟨port, hardware, finalised, pc⟩ := s
  cases e with
  | hardware a =>
    obtain rfl := Option.some.inj stepped
    exact .hardware a
  | call =>
    cases pc with
    | idle =>
      obtain rfl := Option.some.inj stepped
      exact .call rfl
    | top n => cases stepped
    | fetched n d => cases stepped
  | fetch schedule =>
    cases pc with
    | idle => cases stepped
    | top n =>
      cases n with
      | zero =>
        obtain rfl := Option.some.inj stepped
        exact .stop schedule 0 rfl (.inl rfl)
      | succ passes =>
        simp only [raceMachine] at stepped
        split at stepped
        next full =>
          obtain rfl := Option.some.inj stepped
          exact .stop schedule _ rfl (.inr full)
        next room =>
          obtain rfl := Option.some.inj stepped
          exact .fetch schedule passes rfl (by simpa using room)
    | fetched n d => cases stepped
  | finish schedule =>
    cases pc with
    | idle => cases stepped
    | top n => cases stepped
    | fetched passes d =>
      obtain rfl := Option.some.inj stepped
      exact .finish schedule passes d rfl
  | read settings bufLength alloc unmovedBytes =>
    cases pc with
    | idle =>
      obtain rfl := Option.some.inj stepped
      exact .read settings bufLength alloc unmovedBytes rfl
    | top n => cases stepped
    | fetched n d => cases stepped
  | purge accepted =>
    cases pc with
    | idle =>
      obtain rfl := Option.some.inj stepped
      exact .purge accepted rfl
    | top n => cases stepped
    | fetched n d => cases stepped

/-- Steps of a call of `fscc_fifo_read_data`. -/
def RaceEvent.drains : RaceEvent → Bool
  | .fetch _ => true
  | .finish _ => true
  | _ => false

variable (mem) in
/-- A call of `fscc_fifo_read_data` is a run of the machine, whatever arrives while it runs. -/
theorem replay_fifoReadLoop (frames : List WireFrame) (n : Nat) (p : RxPort) (r : Raced)
    (finalised : Nat) :
    ∃ es t, (∀ e ∈ es, e.drains = true) ∧
      (raceMachine mem frames).replay ⟨p, r.hardware, finalised, .top n⟩ es = some t ∧
      t.pc = .idle ∧ t.port = (fifoReadLoop raced mem n p r).1 ∧
      t.hardware = (fifoReadLoop raced mem n p r).2.hardware := by
  -- Induction on the passes: each is one fetch and one finish, with the arrivals of its schedule.
  induction n generalizing p r finalised with
  | zero => exact ⟨[.fetch []], _, by simp [RaceEvent.drains], rfl, rfl, rfl, rfl⟩
  | succ n ih =>
    rw [fifoReadLoop]
    by_cases full : p.fifoFrame.cstop = true
    -- The descriptor is full already, so the fetch ends the call.
    · refine ⟨[.fetch []], ⟨p, r.hardware, finalised, .idle⟩, by simp [RaceEvent.drains], ?_, rfl,
        by simp [full], by simp [full]⟩
      simp [Machine.replay, raceMachine, full]
    · generalize fetched : fifoReadFetch raced mem p.load r = fetch
      generalize finished : fifoReadFinish raced mem fetch.1 fetch.2 = done
      have step (rest : List RaceEvent) : (raceMachine mem frames).replay
          ⟨p, r.hardware, finalised, .top (n + 1)⟩
            (.fetch r.schedule :: .finish fetch.2.schedule :: rest) =
          (raceMachine mem frames).replay ⟨p.store mem done.1, done.2.hardware,
            if hasFe done.1.newControl then finalised + 1 else finalised,
            if hasCstop done.1.newControl then .top n else .idle⟩ rest := by
        simp [Machine.replay, raceMachine, full, fetched, finished]
      simp only [full, Bool.false_eq_true, if_false, finished]
      by_cases more : hasCstop done.1.newControl = true
      · obtain ⟨es, t, drains, replayed, end_⟩ := ih (p.store mem done.1) done.2
          (if hasFe done.1.newControl then finalised + 1 else finalised)
        rw [if_pos more]
        refine ⟨.fetch r.schedule :: .finish fetch.2.schedule :: es, t, ?_, ?_, end_⟩
        · simpa [RaceEvent.drains] using drains
        · rw [step, if_pos more]
          exact replayed
      · rw [if_neg more]
        exact ⟨[.fetch r.schedule, .finish fetch.2.schedule], _, by simp [RaceEvent.drains],
          step [], by simp [more], rfl, rfl⟩

/-! ### The invariant -/

/-- The ring is framed and the bytes add up, in every step of the drain. -/
structure RaceState.Joint (mem : Memory) (exact_ : Prop) (s : RaceState)
    (groups : List (FrameGroup mem)) (part free : List IoFrame) : Prop where
  framed : Framed mem s.port groups part free
  counted : Counted exact_ s.rxBytesInFrame.toNat s.rxFrameSize s.hardware s.pending
  count : s.finalised ≤ s.hardware.received.length
  fetched : ∀ n d, s.pc = .fetched n d → free ≠ [] ∧
    ∃ r, d = (fifoReadFetch raced mem s.port.load r).1

/-- The invariant of the machine. -/
def RaceState.Inv (mem : Memory) (exact_ : Prop) (s : RaceState) : Prop :=
  ∃ groups part free, s.Joint mem exact_ groups part free

/-- The words that the drain would take for an unknown length are part of the frame that is
being received. -/
def RaceState.Clear (mem : Memory) (s : RaceState) (schedule : List (List Arrival)) : Prop :=
  s.port.fifoFrame.cstop = false → Slipped s.port ⟨s.hardware, schedule⟩ → ∀ w ∈ s.current,
    s.port.rxBytesInFrame + waitingWords mem s.port ⟨s.hardware, schedule⟩ ≤ roundUp w.length

namespace RaceState

variable {exact_ : Prop} {s t : RaceState} {groups : List (FrameGroup mem)}
  {part free : List IoFrame} {frames : List WireFrame}

private theorem pending_moved {received done : List WireFrame} {n : Nat} (le : n ≤ received.length) :
    (received ++ done).drop n = received.drop n ++ done := List.drop_append_of_le_length le

theorem Inv.initial (init : (raceMachine mem frames).init s) :
    s.Inv mem exact_ := by
  obtain ⟨fresh, hardware, count, pc⟩ := init
  obtain ⟨free, framed, bytes, size⟩ := fresh.framed
  refine ⟨[], [], free, framed, ?_, by rw [count]; exact Nat.zero_le _, by simp [pc]⟩
  rw [pending, count, rxBytesInFrame, rxFrameSize, pc, bytes, size, hardware]
  exact .idle _ _

/-- The receiver moves by itself. -/
private theorem Joint.hardware (h : s.Joint mem exact_ groups part free) (a : Arrival) :
    RaceState.Joint mem exact_ { s with hardware := s.hardware.arrival a } groups part free := by
  obtain ⟨done, data, arrived⟩ := s.hardware.arrived_arrival a
  have moved := arrived.moved
  refine ⟨h.framed, ?_, ?_, h.fetched⟩
  · have counted := h.counted.moved moved
    change Counted exact_ s.rxBytesInFrame.toNat s.rxFrameSize _ (List.drop _ _)
    rw [moved.received, pending_moved h.count]
    exact counted
  · change s.finalised ≤ (s.hardware.arrival a).received.length
    rw [moved.received, List.length_append]
    exact Nat.le_add_right_of_le h.count

/-- The bytes drained when no pass is half done. -/
private theorem Joint.bytes (h : s.Joint mem exact_ groups part free)
    (whole : s.rxBytesInFrame = s.port.rxBytesInFrame) :
    s.rxBytesInFrame.toNat = (drained part free).length := by
  rw [whole, h.framed.bytes_eq, Int.toNat_natCast]

/-- What the first half of a pass does to the count. -/
theorem Joint.counted_fetch (h : s.Joint mem exact_ groups part free) {n : Nat}
    (pc : s.pc = .top n) (room : s.port.fifoFrame.cstop = false)
    (schedule : List (List Arrival))
    (short : exact_ ∨ ∀ w ∈ s.hardware.received ++ s.hardware.line, w.length < 2147483648)
    (clear : exact_ → s.Clear mem schedule) :
    ∃ done, Fetched mem exact_ (drained part free).length s.port ⟨s.hardware, schedule⟩
        s.pending (drainSize raced s.port ⟨s.hardware, schedule⟩).1
        (drainLength raced mem s.port ⟨s.hardware, schedule⟩).1
        (drainData raced mem s.port ⟨s.hardware, schedule⟩).2.hardware done ∧
      (fifoReadFetch raced mem s.port.load ⟨s.hardware, schedule⟩).1.rxBytesInFrame =
        (((drained part free).length +
          (drainLength raced mem s.port ⟨s.hardware, schedule⟩).1 : Nat) : Int) ∧
      (fifoReadFetch raced mem s.port.load ⟨s.hardware, schedule⟩).1.rxFrameSize =
        (drainSize raced s.port ⟨s.hardware, schedule⟩).1 := by
  have bytes : s.rxBytesInFrame = s.port.rxBytesInFrame := by rw [rxBytesInFrame, pc]
  have size : s.rxFrameSize = s.port.rxFrameSize := by rw [rxFrameSize, pc]
  have counted := h.counted
  rw [h.bytes bytes, size] at counted
  obtain ⟨f, rest, rfl⟩ : ∃ f rest, free = f :: rest := by
    cases free with
    | nil => simp [h.framed.ring.fifoFrame_full] at room
    | cons f rest => exact ⟨f, rest, rfl⟩
  -- What is pending has been received before, so that the bound covers it.
  have near : exact_ ∨ ∀ w ∈ s.pending ++ s.hardware.line, w.length < 2147483648 := by
    refine short.imp_right fun short w member => short w ?_
    rcases List.mem_append.mp member with old | new
    · exact List.mem_append_left _ (List.mem_of_mem_drop old)
    · exact List.mem_append_right _ new
  -- Where bytes may slip in between the two counters, the condition on the run bounds them.
  have own : exact_ → Slipped s.port ⟨s.hardware, schedule⟩ →
      ∀ w ∈ (s.pending ++ s.hardware.line).head?, (drained part (f :: rest)).length +
        waitingWords mem s.port ⟨s.hardware, schedule⟩ ≤ w.padded.length := by
    intro on slipped w member
    have bound := clear on room slipped w member
    rw [h.framed.bytes_eq] at bound
    rw [w.length_padded_eq]
    exact_mod_cast bound
  obtain ⟨done, fetched⟩ := Counted.fetch (s := ⟨s.hardware, schedule⟩) h.framed near own counted
  exact ⟨done, fetched, h.framed.fetch_counters raced ⟨s.hardware, schedule⟩⟩

/-- The first half of a pass. -/
private theorem Joint.fetch (h : s.Joint mem exact_ groups part free) {n passes : Nat}
    (pc : s.pc = .top n) (room : s.port.fifoFrame.cstop = false)
    (schedule : List (List Arrival))
    (short : exact_ ∨ ∀ w ∈ s.hardware.received ++ s.hardware.line, w.length < 2147483648)
    (clear : exact_ → s.Clear mem schedule) :
    RaceState.Joint mem exact_ { s with
        hardware := (fifoReadFetch raced mem s.port.load ⟨s.hardware, schedule⟩).2.hardware
        pc := .fetched passes (fifoReadFetch raced mem s.port.load ⟨s.hardware, schedule⟩).1 }
        groups part free := by
  obtain ⟨done, fetched, bytes, size⟩ := h.counted_fetch pc room schedule short clear
  refine ⟨h.framed, ?_, ?_, ?_⟩
  -- The fetch completes some frames and takes its bytes, and the counters say which.
  · simp only [rxBytesInFrame, rxFrameSize, pending, bytes, size, Int.toNat_natCast, fetch_device]
    rw [fetched.received, pending_moved h.count]
    exact fetched.counted
  · simp only [fetch_device]
    rw [fetched.received, List.length_append]
    exact Nat.le_add_right_of_le h.count
  -- A pass begins only where a descriptor is free.
  · intro n d eq
    obtain ⟨rfl, rfl⟩ := DrainPc.fetched.inj eq
    refine ⟨?_, _, rfl⟩
    rintro rfl
    simp [h.framed.ring.fifoFrame_full] at room

/-- The second half of a pass. -/
private theorem Joint.finish (h : s.Joint mem exact_ groups part free) {passes : Nat} {d : Drain}
    (pc : s.pc = .fetched passes d) (schedule : List (List Arrival)) :
    RaceState.Inv mem exact_ {
      port := s.port.store mem (fifoReadFinish raced mem d ⟨s.hardware, schedule⟩).1
      hardware := (fifoReadFinish raced mem d ⟨s.hardware, schedule⟩).2.hardware
      finalised := if hasFe (fifoReadFinish raced mem d ⟨s.hardware, schedule⟩).1.newControl
        then s.finalised + 1 else s.finalised
      pc := if hasCstop (fifoReadFinish raced mem d ⟨s.hardware, schedule⟩).1.newControl
        then .top passes else .idle } := by
  obtain ⟨some_, r, rfl⟩ := h.fetched passes d pc
  obtain ⟨f, rest, rfl⟩ : ∃ f rest, free = f :: rest := List.exists_cons_of_ne_nil some_
  obtain ⟨bytes, size⟩ := h.framed.fetch_counters raced r
  obtain ⟨done, x, moved⟩ := Receiver.moved_finish mem
    (fifoReadFetch raced mem s.port.load r).1 ⟨s.hardware, schedule⟩
  have pass := h.framed.pass_halves raced r ⟨s.hardware, schedule⟩
  have counted := h.counted
  have count := h.count
  have length := length_drainData raced mem s.port r
  simp only [rxBytesInFrame, rxFrameSize, pc, bytes, size, Int.toNat_natCast] at counted
  generalize (fifoReadFinish raced mem (fifoReadFetch raced mem s.port.load r).1
    ⟨s.hardware, schedule⟩).2.hardware = hardware at moved ⊢
  generalize s.port.store mem _ = p' at pass ⊢
  -- The pass ends the frame, ends only its descriptor, or leaves the descriptor open.
  generalize hasCstop _ = cstop, hasFe _ = fe at pass ⊢
  cases pass with
  | last g full size' content enough fits pos none_ framed' =>
    obtain ⟨w, ws, eq, known⟩ : ∃ w ws, s.pending = w :: ws ∧
        (drainSize raced s.port r).1 = w.length := by
      rcases counted.lengths with ⟨zero, -⟩ | ⟨w, ws, eq, known, -⟩
      · omega
      · exact ⟨w, ws, eq, known⟩
    -- The frame that ends is the oldest that is pending, and one more is finalised.
    rw [eq] at counted
    have after := (counted.finish known (by omega)).moved moved
    have empty := framed'.bytes_eq
    rw [h.framed.drained_rest, List.flatMap_nil, List.length_nil] at empty
    have one : s.finalised < s.hardware.received.length := by
      have := congrArg List.length eq
      simp only [pending, List.length_drop, List.length_cons] at this
      omega
    refine ⟨_, _, _, framed', ?_, ?_, by simp⟩
    · simp only [rxBytesInFrame, rxFrameSize, pending, if_true, empty, none_, Int.toNat_natCast]
      rw [moved.received, pending_moved one]
      rw [pending, List.drop_eq_getElem_cons one] at eq
      rw [(List.cons.inj eq).2]
      exact after
    · simp only [if_true, moved.received, List.length_append]
      omega
  | full f' more same framed' =>
    refine ⟨_, _, _, framed', ?_, ?_, by simp⟩
    · simp only [rxBytesInFrame, rxFrameSize, pending, if_true, Bool.false_eq_true, if_false,
        framed'.bytes_eq, same, more, List.length_append, length, Int.toNat_natCast]
      rw [moved.received, pending_moved count]
      exact counted.moved moved
    · simp only [Bool.false_eq_true, if_false, moved.received, List.length_append]
      omega
  | more f' more same _ framed' =>
    refine ⟨_, _, _, framed', ?_, ?_, by simp⟩
    · simp only [rxBytesInFrame, rxFrameSize, pending, Bool.false_eq_true, if_false,
        framed'.bytes_eq, same, more, List.length_append, length, Int.toNat_natCast]
      rw [moved.received, pending_moved count]
      exact counted.moved moved
    · simp only [Bool.false_eq_true, if_false, moved.received, List.length_append]
      omega

/-- A read between two calls of the drain. -/
private theorem Joint.read (h : s.Joint mem exact_ groups part free) (pc : s.pc = .idle)
    (settings : Settings) (bufLength : Nat) (alloc : Bool) (unmovedBytes : Nat) (r : Receiver) :
    RaceState.Inv mem exact_ { s with
      port := (userReadFrame receiver mem settings bufLength alloc unmovedBytes s.port r).2.1 } := by
  obtain ⟨groups', fs, framed, same⟩ :=
    h.framed.read_any receiver settings bufLength alloc unmovedBytes r
  have counted := h.counted
  simp only [rxBytesInFrame, rxFrameSize, pc] at counted
  refine ⟨groups', part, _, framed, ?_, h.count, by simp [pc]⟩
  simp only [rxBytesInFrame, rxFrameSize, pc, same.1, same.2.1]
  exact counted

/-- A purge that gets through, or one that comes before any byte of a frame has been drained. -/
def Purges (s : RaceState) (accepted : Bool) : Prop :=
  accepted = true ∨ s.port.rxBytesInFrame = 0 ∧ s.port.rxFrameSize = 0

private theorem Joint.purge (h : s.Joint mem exact_ groups part free) (pc : s.pc = .idle)
    (accepted : Bool)
    (purges : s.Purges accepted) :
    RaceState.Inv mem exact_ { s with
      port := resetRx mem s.port
      hardware := if accepted then s.hardware.reset else s.hardware
      finalised := if accepted then s.hardware.received.length else s.finalised } := by
  have framed := Framed.reset h.framed.ring.size h.framed.ring.buffers_mem
  have counted := h.counted
  simp only [rxBytesInFrame, rxFrameSize, pc] at counted
  cases accepted with
  | true =>
    refine ⟨[], [], _, framed, ?_, ?_, by simp [pc]⟩
    · simp only [rxBytesInFrame, rxFrameSize, pending, pc, if_true]
      change Counted exact_ 0 0 s.hardware.reset (s.hardware.received.drop _)
      rw [List.drop_length]
      exact .reset s.hardware
    · exact Nat.le_refl _
  | false =>
    obtain ⟨bytes, size⟩ := purges.resolve_left (by simp)
    rw [bytes, size] at counted
    refine ⟨[], [], _, framed, ?_, h.count, by simp [pc]⟩
    simp only [rxBytesInFrame, rxFrameSize, pending, pc]
    exact counted

/-- Every step keeps the invariant, if the words taken for an unknown length are part of the
frame that is being received (or if that is not to be kept), and purges get through. -/
theorem Inv.step {e : RaceEvent} (h : s.Inv mem exact_)
    (short : exact_ ∨ ∀ w ∈ s.hardware.received ++ s.hardware.line, w.length < 2147483648)
    (clear : ∀ schedule, e = .fetch schedule → exact_ → s.Clear mem schedule)
    (purges : ∀ accepted, e = .purge accepted → s.Purges accepted)
    (stepped : RaceStep mem s e t) : t.Inv mem exact_ := by
  obtain ⟨groups, part, free, joint⟩ := h
  have counted := joint.counted
  cases stepped with
  | hardware a => exact ⟨_, _, _, joint.hardware a⟩
  | call pc =>
    simp only [rxBytesInFrame, rxFrameSize, pc] at counted
    exact ⟨groups, part, free, joint.framed, counted, joint.count, by simp⟩
  | stop schedule n pc _ =>
    simp only [rxBytesInFrame, rxFrameSize, pc] at counted
    exact ⟨groups, part, free, joint.framed, counted, joint.count, by simp⟩
  | fetch schedule passes pc room =>
    exact ⟨_, _, _, joint.fetch pc room schedule short (clear schedule rfl)⟩
  | finish schedule passes d pc => exact joint.finish pc schedule
  | read settings bufLength alloc unmovedBytes pc =>
    exact joint.read pc settings bufLength alloc unmovedBytes s.hardware
  | purge accepted pc => exact joint.purge pc accepted (purges accepted rfl)

/-- With every byte accounted for, none of a later frame has left the FIFO. -/
private theorem Inv.within (h : s.Inv mem True) :
    s.rxBytesInFrame ≤ ((s.current.map fun w => roundUp w.length).getD 0 : Nat) ∧
      s.laterBytes ≤ s.hardware.fifo.length := by
  obtain ⟨groups, part, free, joint⟩ := h
  have counted := joint.counted
  have within := counted.within trivial
  have atMost := counted.atMost
  have atLeast := counted.atLeast trivial
  constructor
  -- What the driver has counted lies within the current frame.
  · cases shape : s.current with
    | none =>
      have none_ : s.pending ++ s.hardware.line = [] := List.head?_eq_none_iff.mp shape
      obtain ⟨noPending, noLine⟩ := List.append_eq_nil_iff.mp none_
      have front : s.hardware.front = [] := by rw [Receiver.front, noLine]
      rw [noPending, front] at atMost
      simp only [List.flatMap_nil, List.length_nil] at atMost
      unfold roundUp at atMost
      simp only [Option.map_none, Option.getD_none]
      omega
    | some w =>
      have bound := within w shape
      rw [w.length_padded_eq] at bound
      simp only [Option.map_some, Option.getD_some, roundUp]
      omega
  -- The frames behind the current one are still in the FIFO.
  · unfold laterBytes
    cases shape : s.pending with
    | nil => exact Nat.zero_le _
    | cons w later =>
      have bound := within w (by simp [shape])
      have padded := w.length_padded_eq
      rw [shape, List.flatMap_cons, List.length_append] at atLeast
      unfold roundUp at atLeast
      dsimp only
      omega

end RaceState

/-! ### Keeping to a frame -/

/-- Whenever RFCNT is read as zero and the frame being received becomes complete before
RXCNT is read, the words then taken are part of that frame; and purges get through. -/
def NoOvertaking (mem : Memory) (s : RaceState) : RaceEvent → Prop
  | .fetch schedule => s.Clear mem schedule
  | .purge accepted => s.Purges accepted
  | _ => True

/-- In every run that meets the condition, the bytes drained for the unfinished frame never
exceed it, and no byte of a later frame has left the FIFO. -/
theorem drained_within_frame (mem : Memory) (frames : List WireFrame) {s : RaceState}
    (reached : (raceMachine mem frames).ReachedUnder (NoOvertaking mem) s) :
    s.rxBytesInFrame ≤ ((s.current.map fun w => roundUp w.length).getD 0 : Nat) ∧
      s.laterBytes ≤ s.hardware.fifo.length := by
  have inv : s.Inv mem True :=
    reached.invariant (fun _ init => .initial init) fun s t e h met stepped =>
      h.step (.inl trivial) (fun schedule eq _ => by subst eq; exact met)
        (fun accepted eq => by subst eq; exact met) (raceStep_of_step stepped)
  exact inv.within

/-- A frame of two bytes, its status. -/
def statusFrame : WireFrame := ⟨[7, 7], [0, 0], by decide, by decide, by decide⟩

/-- Two frames are about to reach a fresh port. -/
def beforeTwo : RaceState :=
  ⟨freshRx .small [4096, 8192], .idle [statusFrame, statusFrame] .clear, 0, .idle⟩

/-- Both frames become complete between the read of RFCNT and the read of RXCNT. -/
def overtaking : List RaceEvent := [.call, .fetch [[], [.complete, .complete]]]

private theorem beforeTwo_init : (raceMachine .small [statusFrame, statusFrame]).init beforeTwo :=
  ⟨fresh_freshRx .small rfl, rfl, rfl, rfl⟩

/-- Eight bytes are then drained for a frame of two. -/
theorem drained_past_frame :
    ∃ s, (raceMachine .small [statusFrame, statusFrame]).Reached s ∧
      ∃ w ∈ s.current, (roundUp w.length : Int) < s.rxBytesInFrame := by
  have run : ∃ s, (raceMachine .small [statusFrame, statusFrame]).replay beforeTwo overtaking =
      some s ∧ ∃ w ∈ s.current, (roundUp w.length : Int) < s.rxBytesInFrame :=
    ⟨_, rfl, statusFrame, by decide, by decide⟩
  obtain ⟨s, replayed, past⟩ := run
  exact ⟨s, .replay (.init beforeTwo_init) overtaking replayed, past⟩

/-- A frame of eleven bytes, for two descriptors. -/
def wideFrame : WireFrame :=
  ⟨[2, 3, 4, 5, 6, 7, 8, 9, 10, 11, 12], [13], by decide, by decide, by decide⟩

/-- Two such frames are about to reach a fresh port. -/
def beforeWide : RaceState :=
  ⟨freshRx .small [4096, 8192], .idle [wideFrame, wideFrame] .clear, 0, .idle⟩

/-- The first frame becomes complete between the read of RFCNT and the read of RXCNT, and some of the
second arrives; the drain fills a descriptor, and then takes the length of the first frame. -/
def slipping : List RaceEvent :=
  [.hardware (.bytes 4), .call, .fetch [[.bytes 2], [.complete, .bytes 3]], .finish [], .fetch []]

/-- What is taken without a length are bytes of the first frame, and what is left are those of the
second. -/
theorem drained_within_first :
    ∃ s, (raceMachine .small [wideFrame, wideFrame]).replay beforeWide slipping = some s ∧
      s.rxBytesInFrame = 11 ∧ s.laterBytes = 3 ∧
      s.rxBytesInFrame ≤ ((s.current.map fun w => roundUp w.length).getD 0 : Nat) ∧
      s.laterBytes ≤ s.hardware.fifo.length := by
  have init : (raceMachine .small [wideFrame, wideFrame]).init beforeWide :=
    ⟨fresh_freshRx .small rfl, rfl, rfl, rfl⟩
  have met : (raceMachine .small [wideFrame, wideFrame]).Met (NoOvertaking .small) beforeWide
      slipping := by
    refine ⟨trivial, fun t h => ?_⟩
    obtain rfl := Option.some.inj h
    refine ⟨trivial, fun t h => ?_⟩
    obtain rfl := Option.some.inj h
    refine ⟨fun _ _ w member => ?_, fun t h => ?_⟩
    · obtain rfl : wideFrame = w := Option.some.inj member
      decide
    obtain rfl := Option.some.inj h
    refine ⟨trivial, fun t h => ?_⟩
    obtain rfl := Option.some.inj h
    -- The length is there when RFCNT is read again.
    exact ⟨fun _ slipped => absurd slipped.2.1 (by decide), fun _ _ => trivial⟩
  exact ⟨_, rfl, by decide, by decide,
    drained_within_frame .small [wideFrame, wideFrame] (.replay (.init init) _ met rfl)⟩

/-! ### A full ring is readable -/

/-- Whenever RFCNT is read as zero and the frame being received becomes complete before
RXCNT is read, the words then taken leave the unfinished frame short of the whole ring; and
purges get through. -/
def NotFilling (mem : Memory) (s : RaceState) : RaceEvent → Prop
  | .fetch schedule => s.port.fifoFrame.cstop = false → Slipped s.port ⟨s.hardware, schedule⟩ →
      s.port.rxBytesInFrame + waitingWords mem s.port ⟨s.hardware, schedule⟩ <
        (mem.rxNum * mem.rxSize : Nat)
  | .purge accepted => s.Purges accepted
  | _ => True

/-- A frame whose length is not known never takes up the ring. -/
structure RaceState.Roomy (mem : Memory) (s : RaceState) : Prop where
  inv : s.Inv mem False
  fits : ∀ w ∈ s.hardware.received ++ s.hardware.line, w.length ≤ mem.rxNum * mem.rxSize
  unknown : s.rxFrameSize = 0 → s.rxBytesInFrame < (mem.rxNum * mem.rxSize : Nat)

namespace RaceState.Roomy

variable {s t : RaceState} {frames : List WireFrame} {e : RaceEvent}

private theorem cap_pos (mem : Memory) : (0 : Int) < (mem.rxNum * mem.rxSize : Nat) := by
  exact_mod_cast Nat.mul_pos mem.rxNum_pos mem.rxSize_pos

private theorem short (h : s.Roomy mem) :
    ∀ w ∈ s.hardware.received ++ s.hardware.line, w.length < 2147483648 := by
  intro w member
  have := h.fits w member
  have := mem.rx_fits
  omega

/-- The words that a pass takes without a length leave the frame short of the ring. -/
private theorem unknown_fetch (h : s.Roomy mem) {n : Nat} (pc : s.pc = .top n)
    (room : s.port.fifoFrame.cstop = false) (schedule : List (List Arrival))
    (met : NotFilling mem s (.fetch schedule))
    (unknown : (fifoReadFetch raced mem s.port.load ⟨s.hardware, schedule⟩).1.rxFrameSize = 0) :
    (fifoReadFetch raced mem s.port.load ⟨s.hardware, schedule⟩).1.rxBytesInFrame <
      (mem.rxNum * mem.rxSize : Nat) := by
  obtain ⟨groups, part, free, joint⟩ := h.inv
  obtain ⟨done, fetched, bytes, size⟩ :=
    joint.counted_fetch pc room schedule (.inr h.short) False.elim
  rw [size] at unknown
  obtain ⟨-, words, slipped | ⟨idle, inside⟩⟩ := fetched.unknown unknown
  · have left := met room slipped
    rw [joint.framed.bytes_eq] at left
    rw [bytes, words]
    exact_mod_cast left
  · rw [bytes]
    cases shape : (s.pending ++ s.hardware.line).head? with
    | none =>
      rw [idle (List.head?_eq_none_iff.mp shape)]
      exact cap_pos mem
    | some w =>
      have below := inside w shape
      have fits : w.length ≤ mem.rxNum * mem.rxSize := by
        refine h.fits w ?_
        rcases List.mem_append.mp (List.mem_of_head? shape) with old | new
        · exact List.mem_append_left _ (List.mem_of_mem_drop old)
        · exact List.mem_append_right _ new
      omega

private theorem unknown_step (h : s.Roomy mem) (met : NotFilling mem s e) (stepped : RaceStep mem s e t)
    (unknown : t.rxFrameSize = 0) : t.rxBytesInFrame < (mem.rxNum * mem.rxSize : Nat) := by
  have before := h.unknown
  cases stepped with
  | hardware a => exact before unknown
  | call pc =>
    simp only [rxBytesInFrame, rxFrameSize, pc] at before unknown ⊢
    exact before unknown
  | stop schedule n pc _ =>
    simp only [rxBytesInFrame, rxFrameSize, pc] at before unknown ⊢
    exact before unknown
  | fetch schedule passes pc room => exact h.unknown_fetch pc room schedule met unknown
  | finish schedule passes d pc =>
    simp only [rxBytesInFrame, rxFrameSize, pc] at before
    generalize hasCstop _ = cstop at unknown ⊢
    rcases finish_counters mem raced d ⟨s.hardware, schedule⟩ with ⟨bytes, size⟩ | bytes
    · cases cstop <;>
      · simp only [rxBytesInFrame, rxFrameSize, if_true, Bool.false_eq_true, if_false,
          rxBytesInFrame_store, rxFrameSize_store, bytes, size] at unknown ⊢
        exact before unknown
    · cases cstop <;>
      · simp only [rxBytesInFrame, if_true, Bool.false_eq_true, if_false, rxBytesInFrame_store,
          bytes]
        exact cap_pos mem
  | read settings bufLength alloc unmovedBytes pc =>
    obtain ⟨groups, part, free, joint⟩ := h.inv
    obtain ⟨-, -, -, same⟩ :=
      joint.framed.read_any receiver settings bufLength alloc unmovedBytes s.hardware
    simp only [rxBytesInFrame, rxFrameSize, pc, same.1, same.2.1] at before unknown ⊢
    exact before unknown
  | purge accepted pc =>
    simp only [rxBytesInFrame, pc, resetRx]
    exact cap_pos mem

private theorem fits_step (h : s.Roomy mem) (stepped : RaceStep mem s e t) :
    ∀ w ∈ t.hardware.received ++ t.hardware.line, w.length ≤ mem.rxNum * mem.rxSize := by
  have fits := h.fits
  have keeps := Receiver.keeps_frames (s.hardware.received ++ s.hardware.line)
  cases stepped with
  | hardware a =>
    obtain ⟨done, data, arrived⟩ := s.hardware.arrived_arrival a
    rw [arrived.frames]
    exact fits
  | call _ => exact fits
  | stop _ _ _ _ => exact fits
  | fetch schedule passes _ _ =>
    rw [keeps.fetch mem s.port.load (d := ⟨s.hardware, schedule⟩) rfl]
    exact fits
  | finish schedule passes d _ =>
    rw [keeps.finish mem d (d := ⟨s.hardware, schedule⟩) rfl]
    exact fits
  | read _ _ _ _ _ => exact fits
  | purge accepted _ =>
    cases accepted with
    | false => exact fits
    | true =>
      intro w member
      refine fits w ?_
      simp only [if_true, Receiver.reset] at member
      rcases List.mem_append.mp member with old | new
      · exact List.mem_append_left _ old
      · split at new
        · exact List.mem_append_right _ new
        · exact List.mem_append_right _ (List.mem_of_mem_tail new)

private theorem step (h : s.Roomy mem) (met : NotFilling mem s e) (stepped : RaceStep mem s e t) :
    t.Roomy mem where
  inv := h.inv.step (.inr h.short) (fun _ _ => False.elim) (fun accepted eq => by subst eq; exact met)
    stepped
  fits := h.fits_step stepped
  unknown := h.unknown_step met stepped

/-- A full ring has the end of a frame in it: an unfinished frame never takes it all. -/
private theorem ready (h : s.Roomy mem) (full : s.port.fifoFrame.cstop = true) :
    ioUserReadReady mem false s.port = true := by
  obtain ⟨groups, part, free, joint⟩ := h.inv
  have empty := joint.framed.ring.fifoFrame_cstop.mp full
  subst empty
  have pc : ∀ n d, s.pc ≠ .fetched n d := fun n d pc => (joint.fetched n d pc).1 rfl
  cases groups with
  | cons g gs => simp [ioUserReadReady, joint.framed.ring.nextReadSize_cons]
  | nil =>
    exfalso
    have sum := joint.framed.ring.length_add
    have bytes := joint.framed.bytes
    have unfinished := joint.framed.unfinished
    have unknown := h.unknown
    have counted := joint.counted
    simp only [List.flatMap_nil, List.nil_append, List.length_nil, Nat.add_zero] at sum
    rw [sum, headCount, Nat.add_zero] at bytes
    have counters : s.rxBytesInFrame = s.port.rxBytesInFrame ∧
        s.rxFrameSize = s.port.rxFrameSize := by
      cases shape : s.pc with
      | fetched n d => exact absurd shape (pc n d)
      | idle => simp [rxBytesInFrame, rxFrameSize, shape]
      | top n => simp [rxBytesInFrame, rxFrameSize, shape]
    rw [counters.1, counters.2] at unknown
    rw [counters.2] at counted
    rcases counted.lengths with ⟨zero, -⟩ | ⟨w, ws, eq, known, -⟩
    · have := unknown zero
      omega
    · have fits : w.length ≤ mem.rxNum * mem.rxSize := by
        refine h.fits w (List.mem_append_left _ (List.mem_of_mem_drop (i := s.finalised) ?_))
        change w ∈ s.pending
        simp [eq]
      have := w.status
      rw [WireFrame.length] at fits known
      omega

end RaceState.Roomy

/-- In every run that meets the condition, over frames no longer than the ring, a ring that
the drain finds full has a frame for a reader. -/
theorem ready_when_full (mem : Memory) (frames : List WireFrame)
    (fits : ∀ w ∈ frames, w.length ≤ mem.rxNum * mem.rxSize) {s : RaceState}
    (reached : (raceMachine mem frames).ReachedUnder (NotFilling mem) s)
    (full : s.port.fifoFrame.cstop = true) : ioUserReadReady mem false s.port = true := by
  have roomy : s.Roomy mem := by
    refine reached.invariant (fun t init => ?_) fun s t e h met stepped =>
      h.step met (raceStep_of_step stepped)
    refine ⟨.initial init, ?_, fun _ => ?_⟩
    · rw [init.2.1]
      exact fits
    · obtain ⟨-, -, bytes, -⟩ := init.1.framed
      rw [RaceState.rxBytesInFrame, init.2.2.2, bytes]
      exact RaceState.Roomy.cap_pos mem
  exact roomy.ready full

/-- A frame of `n + 2` words. -/
def wordsFrame (n : Nat) : WireFrame where
  data := List.replicate (4 * n + 8) 5
  pad := []
  status := by
    rw [List.length_replicate]
    omega
  words := by
    rw [List.length_replicate, List.length_nil]
    omega
  short := by decide

/-- One frame is about to reach a fresh port. -/
def beforeOne (w : WireFrame) : RaceState :=
  ⟨freshRx .small [4096, 8192], .idle [w] .clear, 0, .idle⟩

private theorem beforeOne_init (w : WireFrame) : (raceMachine .small [w]).init (beforeOne w) :=
  ⟨fresh_freshRx .small rfl, rfl, rfl, rfl⟩

/-- A frame one word longer than the ring fills it before its length is known. -/
theorem full_without_frame :
    ∃ s, (raceMachine .small [wordsFrame 3]).Reached s ∧ s.port.fifoFrame.cstop = true ∧
      ioUserReadReady .small false s.port = false := by
  have run : ∃ s, (raceMachine .small [wordsFrame 3]).replay (beforeOne (wordsFrame 3))
      [.hardware (.bytes 16), .call, .fetch [], .finish [], .fetch [], .finish []] = some s ∧
      s.port.fifoFrame.cstop = true ∧ ioUserReadReady .small false s.port = false :=
    ⟨_, rfl, by decide, by decide⟩
  obtain ⟨s, replayed, full, unready⟩ := run
  exact ⟨s, .replay (.init (beforeOne_init _)) _ replayed, full, unready⟩

/-- A frame as long as the ring, complete before the drain looks. -/
theorem ready_when_full_words :
    ∃ s, (raceMachine .small [wordsFrame 2]).replay (beforeOne (wordsFrame 2))
        [.hardware .complete, .call, .fetch [], .finish [], .fetch [], .finish []] = some s ∧
      s.port.fifoFrame.cstop = true ∧ ioUserReadReady .small false s.port = true := by
  have met : (raceMachine .small [wordsFrame 2]).Met (NotFilling .small)
      (beforeOne (wordsFrame 2))
      [.hardware .complete, .call, .fetch [], .finish [], .fetch [], .finish []] := by
    refine ⟨trivial, fun t h => ?_⟩
    obtain rfl := Option.some.inj h
    refine ⟨trivial, fun t h => ?_⟩
    obtain rfl := Option.some.inj h
    refine ⟨fun _ slipped => absurd slipped.2.1 (by decide), fun t h => ?_⟩
    obtain rfl := Option.some.inj h
    refine ⟨trivial, fun t h => ?_⟩
    obtain rfl := Option.some.inj h
    exact ⟨fun _ slipped => absurd slipped.1 (by decide), fun _ _ => ⟨trivial, fun _ _ => trivial⟩⟩
  exact ⟨_, rfl, by decide, ready_when_full .small [wordsFrame 2] (by decide)
    (.replay (.init (beforeOne_init _)) _ met rfl) (by decide)⟩

end Fscc
