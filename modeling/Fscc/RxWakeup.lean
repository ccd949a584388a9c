import Fscc.Isr
import Fscc.ReadCall
import Fscc.StreamReady

/-!
# Readers waiting for data

Calls of `fscc_read` wait on `input_queue` for data, which `iframe_worker` takes out of the FIFO.
The worker drains under the spinlock and looks whether there is something to read after that, so
reads and purges can come between the two.
-/

namespace Fscc

variable {δ : Type} (dev : Device δ) (mem : Memory)

/-- A call of `fscc_read`, and whether it has been woken since it fell asleep. -/
structure Reader where
  call : Call
  woken : Bool
deriving DecidableEq, Repr

/-- Asleep on `input_queue`, with no wake-up issued since. -/
def Reader.asleep (r : Reader) : Bool := r.call.phase == .sleep && !r.woken

/-- A port, its `read_semaphore`, whether `iframe_tasklet` is scheduled, whether its worker has
drained the FIFO and not looked at the ring since, whether the timer runs, and the readers. -/
structure ReaderSystem where
  port : PortState
  semaphore : Nat
  scheduled : Bool
  checking : Bool
  timer : Bool
  readers : List Reader

/-- A read begins or takes a step; an interrupt is served; the worker drains, and then looks
whether there is something to read; the timer expires; the receive side is purged; or something
else happens to the port. -/
inductive ReaderEvent (δ : Type) where
  | read (buf : List UInt8) (nonblock : Bool)
  | run (i : Nat) (chance : Chance δ)
  | interrupt (isrValue : BitVec 32)
  | drain (d : δ)
  | wake
  | expire
  | purge (d : δ)
  | other (tx : TxPort) (settings : Settings) (usingAsync : Bool)

/-- The step of the reader `r`, the `i`th. One that sleeps goes on when woken or interrupted. -/
def ReaderSystem.run (s : ReaderSystem) (i : Nat) (r : Reader) (chance : Chance δ) :
    Option ReaderSystem :=
  if r.asleep ∧ chance.interrupted = false then none
  else
    (r.call.next mem (r.call.observe dev mem s.port chance)).bind fun step =>
      (step.2.count s.semaphore).map fun n =>
        { s with
          port := if r.call.phase = .act then (r.call.work dev mem s.port chance).2 else s.port
          semaphore := n
          readers := s.readers.set i ⟨r.call.moved step, false⟩ }

/-- What `wake_up_interruptible` does to the readers on `input_queue`. -/
def Reader.wakeUp (r : Reader) : Reader := { r with woken := true }

/-- A port in a FIFO mode and its readers. -/
def readerMachine (streaming : Bool) : Machine ReaderSystem (ReaderEvent δ) where
  init s := Fresh mem s.port.rx ∧ s.port.cfg.isDma = false ∧ s.port.streaming = streaming ∧
    s.semaphore = 1 ∧ s.checking = false ∧ s.readers = []
  step s
    | .read buf nonblock =>
      if buf.length < 18446744073709551616 then
        some { s with readers := s.readers ++ [⟨⟨.read, buf, nonblock, .entry, false⟩, false⟩] }
      else none
    | .run i chance => s.readers[i]?.bind fun r => s.run dev mem i r chance
    | .interrupt isrValue =>
      (isr s.port.cfg.isDma isrValue).map fun schedules =>
        { s with
          scheduled := s.scheduled || schedules.iframe
          timer := true }
    | .drain d =>
      -- A tasklet does not run while it is running, but it can be scheduled again.
      if s.scheduled ∧ s.checking = false then
        some { s with
          port := { s.port with rx := (fifoReadData dev mem s.port.rx d).1 }
          scheduled := false
          checking := true }
      else none
    | .wake =>
      if s.checking then
        some { s with
          checking := false
          readers := if ioUserReadReady mem s.port.streaming s.port.rx
            then s.readers.map Reader.wakeUp else s.readers }
      else none
    | .expire =>
      if s.timer then
        let expired := timerHandler mem s.port.cfg.isDma s.port.streaming s.port.rx
        some { s with
          timer := false
          scheduled := s.scheduled || expired.2
          readers := if expired.1 then s.readers.map Reader.wakeUp else s.readers }
      else none
    | .purge d =>
      some { s with port := { s.port with rx := (ioPurgeRx dev mem s.port.cfg s.port.rx d).1 } }
    | .other tx settings usingAsync =>
      some { s with
        port := { s.port with tx := tx, settings := settings, usingAsync := usingAsync } }

variable {mem}

/-- With nothing between its two halves the worker is `iframe_worker`. -/
theorem replay_iframe {streaming : Bool} {s : ReaderSystem} (fifo : s.port.cfg.isDma = false)
    (scheduled : s.scheduled = true) (idle : s.checking = false) (d : δ) :
    (readerMachine dev mem streaming).replay s [.drain d, .wake] =
      let worker := iframeWorker dev mem s.port.cfg.isDma s.port.streaming s.port.rx d
      some { s with
        port := { s.port with rx := worker.1 }
        scheduled := false
        readers := if worker.2.1 then s.readers.map Reader.wakeUp else s.readers } := by
  simp [Machine.replay, readerMachine, iframeWorker, fifo, scheduled, idle]

/-! ### The ring of a stream -/

namespace Unframed

variable {p : RxPort} {finished free : List IoFrame}

/-- A drain to which RFCNT shows no frame. -/
private theorem drain_any (none_ : ∀ d, (ioGetRFCNT dev d).1 = 0) (h : Unframed mem p finished free)
    (d : δ) :
    ∃ finished' free', Unframed mem (fifoReadData dev mem p d).1 finished' free' := by
  refine fifoReadData_kept dev mem (P := fun p => ∃ finished free, Unframed mem p finished free) ?_ d
    ⟨finished, free, h⟩
  rintro p d ⟨finished, free, h⟩ opened
  cases free with
  | nil =>
    rw [h.streamed.ring.fifoFrame_full] at opened
    cases opened
  | cons f rest =>
    refine h.pass dev d ?_
    simp [drainSize, takeFrameSize, h.streamed.unframed, none_]

/-- A stream that is not ready has no finished descriptor, and a read leaves it as it is. -/
private theorem read_unready (h : Unframed mem p finished free)
    (unready : ioUserReadReady mem true p = false) (bufLength : Nat) (alloc : Bool)
    (unmovedBytes : Nat) : (userReadStream mem bufLength alloc unmovedBytes p).2 = p := by
  have none_ : finished = [] := by
    cases finished with
    | nil => rfl
    | cons f fs =>
      have some_ := List.length_pos_iff.mpr (h.some_ f.data (by simp))
      have ready := h.ready_iff.mpr (by
        rw [List.map_cons, List.flatten_cons, List.length_append]
        omega)
      rw [unready] at ready
      cases ready
  subst none_
  cases alloc with
  | false => rfl
  | true => simp [userReadStream, h.streamed.pieces.readLoop_nil]

end Unframed

/-- A ring just purged has nothing to read. -/
private theorem ioUserReadReady_resetRx (streaming : Bool) (p : RxPort) :
    ioUserReadReady mem streaming (resetRx mem p) = false := by
  have none_ : userNextReadSize mem (resetRx mem p) = (false, 0) := by
    obtain ⟨n, size⟩ : ∃ n, mem.rxNum = n + 1 := ⟨mem.rxNum - 1, by have := mem.rxNum_pos; omega⟩
    have first : ((p.rxDescriptors.map (purgedRxFrame mem)).getD 0 default).fe = false ∧
        ((p.rxDescriptors.map (purgedRxFrame mem)).getD 0 default).cstop = false := by
      cases p.rxDescriptors with
      | nil => exact ⟨by rw [List.map_nil]; decide, by rw [List.map_nil]; decide⟩
      | cons f fs => simp [purgedRxFrame]
    rw [userNextReadSize, size, Ring.walk, resetRx]
    simp only [nextReadStep, first.1, first.2]
    rfl
  cases streaming <;> simp [ioUserReadReady, none_]

/-! ### Readers -/

/-- A read falls asleep only when it has just seen that there is nothing to read. -/
private theorem readNext_asleep {count : Nat} {nonblock : Bool} {phase : Phase} {seen : Observation}
    {op : SemaphoreOp} (next : readNext count nonblock phase seen = some (.sleep, op)) :
    phase = .wait ∧ seen = .condition false := by
  unfold readNext at next
  split at next
  next usingAsync =>
    have entry := congrArg Prod.fst (Option.some.inj next)
    unfold readEntry at entry
    split at entry
    next => cases entry
    next => cases usingAsync <;> cases entry
  next => cases next
  next => cases next
  next => exact waitLoop_sleep next (by simp)

/-- The port is in a FIFO mode, its ring is one, the readers are calls of `fscc_read`, and one that
sleeps while there is something to read has the worker still to look. -/
structure ReaderSystem.Inv (mem : Memory) (streaming : Bool) (s : ReaderSystem) : Prop where
  fifo : s.port.cfg.isDma = false
  mode : s.port.streaming = streaming
  ring : streaming = true → ∃ finished free, Unframed mem s.port.rx finished free
  readers : ∀ r ∈ s.readers, r.call.kind = .read ∧ r.call.buf.length < 18446744073709551616
  waiting : ∀ r ∈ s.readers, r.asleep = true →
    ioUserReadReady mem streaming s.port.rx = true → s.checking = true

private theorem asleep_wakeUp {r : Reader} {rs : List Reader} (member : r ∈ rs.map Reader.wakeUp) :
    r.asleep = false := by
  obtain ⟨x, -, rfl⟩ := List.mem_map.mp member
  simp [Reader.asleep, Reader.wakeUp]

namespace ReaderSystem.Inv

variable {dev} {streaming : Bool} {s t : ReaderSystem}

private theorem initial (init : (readerMachine dev mem streaming).init s) : s.Inv mem streaming := by
  obtain ⟨⟨p, fresh, size, buffers⟩, fifo, mode, -, -, none_⟩ := init
  refine ⟨fifo, mode, fun _ => ?_, by simp [none_], by simp [none_]⟩
  rw [fresh]
  exact ⟨_, _, .reset size buffers⟩

/-- The work of a reader leaves a stream's ring one, and a ring with nothing to read as it is. -/
private theorem work (h : s.Inv mem streaming) {c : Call} (kind : c.kind = .read)
    (size : c.buf.length < 18446744073709551616) (chance : Chance δ) :
    let port := (c.work dev mem s.port chance).2
    (port.cfg = s.port.cfg ∧ port.streaming = streaming) ∧
      (streaming = true → ∃ finished free, Unframed mem port.rx finished free) ∧
      (ioUserReadReady mem streaming s.port.rx = false → port.rx = s.port.rx) := by
  have mode := h.mode
  simp only [Call.work, kind]
  cases streaming with
  | true =>
    obtain ⟨finished, free, ring⟩ := h.ring rfl
    simp only [mode, if_true]
    refine ⟨⟨trivial, trivial⟩, fun _ => ?_, fun unready => ring.read_unready unready _ _ _⟩
    -- What a copy to the user leaves behind does not change the ring.
    have same : (userReadStream mem c.buf.length chance.alloc chance.unmovedBytes s.port.rx).2 =
        (userReadStream mem c.buf.length chance.alloc 0 s.port.rx).2 := by
      cases alloc : chance.alloc <;> rfl
    rw [same]
    exact (ring.read size chance.alloc).1
  | false =>
    simp only [mode, Bool.false_eq_true, if_false]
    refine ⟨⟨trivial, trivial⟩, fun stream => (by cases stream), fun unready => ?_⟩
    have none_ : (userNextReadSize mem s.port.rx).1 = false := unready
    unfold userReadFrame
    dsimp only
    rw [none_]
    cases chance.alloc <;> rfl

private theorem run (h : s.Inv mem streaming) {i : Nat} {r : Reader} (present : s.readers[i]? = some r)
    {chance : Chance δ} (stepped : s.run dev mem i r chance = some t) : t.Inv mem streaming := by
  obtain ⟨kind, size⟩ := h.readers r (List.mem_of_getElem? present)
  unfold ReaderSystem.run at stepped
  split at stepped
  next => cases stepped
  next =>
    obtain ⟨step, next, counted⟩ := Option.bind_eq_some_iff.mp stepped
    obtain ⟨n, -, rfl⟩ := Option.map_eq_some_iff.mp counted
    generalize made : (if r.call.phase = .act then (r.call.work dev mem s.port chance).2 else s.port)
      = port
    -- Only the call's work touches the ring, and only when there is something to read.
    have kept : (port.cfg = s.port.cfg ∧ port.streaming = streaming) ∧
        (streaming = true → ∃ finished free, Unframed mem port.rx finished free) ∧
        (ioUserReadReady mem streaming s.port.rx = false → port.rx = s.port.rx) := by
      rw [← made]
      split
      next => exact h.work kind size chance
      next => exact ⟨⟨rfl, h.mode⟩, h.ring, fun _ => rfl⟩
    obtain ⟨⟨cfg, mode⟩, ring, unready⟩ := kept
    refine ⟨by rw [cfg]; exact h.fifo, mode, ring, fun x member => ?_, fun x member asleep ready => ?_⟩
    · rcases List.mem_or_eq_of_mem_set member with old | rfl
      · exact h.readers x old
      · exact ⟨kind, size⟩
    · -- There was something to read before, since a read of nothing changes nothing.
      have before : ioUserReadReady mem streaming s.port.rx = true := by
        by_contra not_
        rw [Bool.not_eq_true] at not_
        rw [unready not_, not_] at ready
        cases ready
      rcases List.mem_or_eq_of_mem_set member with old | rfl
      · exact h.waiting x old asleep before
      · -- The reader itself falls asleep only when there is nothing to read.
        obtain ⟨phase, op⟩ := step
        have sleeps : phase = .sleep := by simpa [Reader.asleep, Call.moved] using asleep
        rw [sleeps] at next
        simp only [Call.next, kind] at next
        obtain ⟨wait, seen⟩ := readNext_asleep next
        have not_ : r.call.ready mem s.port = false := by
          simpa [Call.observe, wait] using seen
        simp only [Call.ready, kind, h.mode] at not_
        rw [not_] at before
        cases before

private theorem step (none_ : streaming = true → ∀ d, (ioGetRFCNT dev d).1 = 0) {e : ReaderEvent δ}
    (h : s.Inv mem streaming) (stepped : (readerMachine dev mem streaming).step s e = some t) :
    t.Inv mem streaming := by
  cases e with
  | read buf nonblock =>
    obtain ⟨size, eq⟩ := Option.ite_none_right_eq_some.mp stepped
    obtain rfl := Option.some.inj eq
    refine ⟨h.fifo, h.mode, h.ring, fun r member => ?_, fun r member asleep ready => ?_⟩
    · rcases List.mem_append.mp member with old | new
      · exact h.readers r old
      · rw [List.mem_singleton.mp new]
        exact ⟨rfl, size⟩
    · rcases List.mem_append.mp member with old | new
      · exact h.waiting r old asleep ready
      · rw [List.mem_singleton.mp new] at asleep
        cases asleep
  | run i chance =>
    obtain ⟨r, present, run⟩ := Option.bind_eq_some_iff.mp stepped
    exact h.run present run
  | interrupt isrValue =>
    obtain ⟨schedules, -, rfl⟩ := Option.map_eq_some_iff.mp stepped
    exact ⟨h.fifo, h.mode, h.ring, h.readers, h.waiting⟩
  | drain d =>
    obtain ⟨-, eq⟩ := Option.ite_none_right_eq_some.mp stepped
    obtain rfl := Option.some.inj eq
    -- The drain leaves the wake-up to be done, which is all that is asked for.
    refine ⟨h.fifo, h.mode, fun stream => ?_, h.readers, fun _ _ _ _ => rfl⟩
    obtain ⟨finished, free, ring⟩ := h.ring stream
    exact ring.drain_any dev (none_ stream) d
  | wake =>
    obtain ⟨-, eq⟩ := Option.ite_none_right_eq_some.mp stepped
    obtain rfl := Option.some.inj eq
    rw [h.mode]
    -- The wake-up wakes every reader, unless there is nothing to read.
    split
    next =>
      refine ⟨h.fifo, h.mode, h.ring, fun r member => ?_, fun r member asleep => ?_⟩
      · obtain ⟨x, old, rfl⟩ := List.mem_map.mp member
        exact h.readers x old
      · rw [asleep_wakeUp member] at asleep
        cases asleep
    -- Nothing to read: no reader that sleeps is owed anything.
    next unready => exact ⟨h.fifo, h.mode, h.ring, h.readers, fun _ _ _ ready => absurd ready unready⟩
  | expire =>
    obtain ⟨-, eq⟩ := Option.ite_none_right_eq_some.mp stepped
    obtain rfl := Option.some.inj eq
    -- In FIFO mode the timer only schedules the worker.
    simp only [timerHandler, h.fifo, Bool.false_eq_true, if_false]
    exact ⟨h.fifo, h.mode, h.ring, h.readers, h.waiting⟩
  | purge d =>
    obtain rfl := Option.some.inj stepped
    have empty := @ioUserReadReady_resetRx mem streaming s.port.rx
    -- After a purge there is nothing to read.
    refine ⟨h.fifo, h.mode, fun stream => ?_, h.readers, fun _ _ _ ready => ?_⟩
    · obtain ⟨finished, free, ring⟩ := h.ring stream
      exact ⟨_, _, .reset ring.streamed.ring.size ring.streamed.ring.buffers_mem⟩
    · rw [show (ioPurgeRx dev mem s.port.cfg s.port.rx d).1 = resetRx mem s.port.rx from rfl,
        empty] at ready
      cases ready
  | other tx settings usingAsync =>
    obtain rfl := Option.some.inj stepped
    exact ⟨h.fifo, h.mode, h.ring, h.readers, h.waiting⟩

end ReaderSystem.Inv

variable {dev}

/-- No reader sleeps through data. In every reachable state, when a reader sleeps while there is
something to read, the worker has drained and not looked yet; and when it looks, all wake. -/
theorem readers_woken {streaming : Bool}
    (none_ : streaming = true → ∀ d, (ioGetRFCNT dev d).1 = 0) {s : ReaderSystem}
    (reached : (readerMachine dev mem streaming).Reached s) :
    ∀ r ∈ s.readers, r.asleep = true → ioUserReadReady mem streaming s.port.rx = true →
      s.checking = true ∧ ∃ t, (readerMachine dev mem streaming).step s .wake = some t ∧
        ∀ x ∈ t.readers, x.asleep = false := by
  intro r member asleep ready
  have inv := reached.invariant (P := ReaderSystem.Inv mem streaming) (fun _ => .initial)
    fun _ _ _ h stepped => h.step none_ stepped
  have checking := inv.waiting r member asleep ready
  refine ⟨checking, _, if_pos checking, fun x new => ?_⟩
  rw [inv.mode, if_pos ready] at new
  exact asleep_wakeUp new

/-- A stream with four bytes in the FIFO and four on the way. -/
def beforeReaders : ReaderSystem where
  port := { freshPort with cfg := fifoConfig, streaming := true }
  semaphore := 1
  scheduled := false
  checking := false
  timer := false
  readers := []

/-- A read falls asleep, and then a descriptor is filled. -/
def readerAsleep : List (ReaderEvent StreamFifo) :=
  .read [0, 0, 0] false ::
    List.replicate 5 (.run 0 ⟨false, true, 0, ⟨[], [], [], .clear⟩⟩) ++
    [.interrupt rft,
      .drain ⟨[1, 2, 3, 4, 5, 6, 7, 8], [], [⟨[], 0#32⟩, ⟨[], 8#32⟩], .clear⟩]

theorem readers_woken_one :
    ∃ s, (readerMachine streamFifo .small true).replay beforeReaders readerAsleep = some s ∧
      s.readers.map Reader.asleep = [true] ∧ ioUserReadReady .small true s.port.rx = true ∧
      ∀ r ∈ s.readers, r.asleep = true → ioUserReadReady .small true s.port.rx = true →
        s.checking = true ∧ ∃ t, (readerMachine streamFifo .small true).step s .wake = some t ∧
          ∀ x ∈ t.readers, x.asleep = false := by
  have init : (readerMachine streamFifo .small true).init beforeReaders :=
    ⟨fresh_freshRx .small rfl, rfl, rfl, rfl, rfl, rfl⟩
  exact ⟨_, rfl, by decide, by decide,
    readers_woken (fun _ d => d.rfcnt_eq) (.replay (.init init) readerAsleep rfl)⟩

end Fscc
