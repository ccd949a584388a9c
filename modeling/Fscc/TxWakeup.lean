import Fscc.Isr
import Fscc.Semaphores
import Fscc.TxDelivery

/-!
# Writers waiting for room

Calls of `fscc_write` wait on `output_queue` for room in the transmit ring, which the transmit
tasklet makes and `fscc_io_purge_tx` makes. Only the purge wakes them.
-/

namespace Fscc

/-- A call of `fscc_write`, and whether it has been woken since it fell asleep. -/
structure Writer where
  call : Call
  woken : Bool
deriving DecidableEq, Repr

/-- Asleep on `output_queue`, with no wake-up issued since. -/
def Writer.asleep (w : Writer) : Bool := w.call.phase == .sleep && !w.woken

/-- A port, its `write_semaphore`, whether `send_oframe_tasklet` is scheduled, and the writers. -/
structure WakeSystem where
  port : PortState
  semaphore : Nat
  scheduled : Bool
  writers : List Writer

/-- A write begins or takes a step, an interrupt is served, the transmit tasklet runs, or the
transmit side is purged. -/
inductive WakeEvent (δ : Type) where
  | write (buf : List UInt8) (nonblock : Bool)
  | run (i : Nat) (chance : Chance δ)
  | interrupt (isrValue : BitVec 32)
  | tasklet (d : δ)
  | purge (d : δ)

variable {δ : Type} (dev : Device δ) (mem : Memory)

/-- The step of the writer `w`, the `i`th. One that sleeps goes on when woken or interrupted. -/
def WakeSystem.run (s : WakeSystem) (i : Nat) (w : Writer) (chance : Chance δ) :
    Option WakeSystem :=
  if w.asleep ∧ chance.interrupted = false then none
  else
    (w.call.next mem (w.call.observe dev mem s.port chance)).bind fun step =>
      (step.2.count s.semaphore).map fun n =>
        { port := if w.call.phase = .act then (w.call.work dev mem s.port chance).2 else s.port
          semaphore := n
          -- A write that succeeded schedules the tasklet when it has released its semaphore.
          scheduled := s.scheduled ||
            (!s.port.cfg.isDma && w.call.phase == .finish (.ok w.call.buf.length))
          writers := s.writers.set i ⟨w.call.moved step, false⟩ }

def wakeMachine : Machine WakeSystem (WakeEvent δ) where
  init s := FreshTx mem s.port.tx ∧ s.semaphore = 1 ∧ s.scheduled = false ∧ s.writers = []
  step s
    | .write buf nonblock =>
      some { s with writers := s.writers ++ [⟨⟨.write, buf, nonblock, .entry, false⟩, false⟩] }
    | .run i chance => s.writers[i]?.bind fun w => s.run dev mem i w chance
    | .interrupt isrValue =>
      (isr s.port.cfg.isDma isrValue).map fun schedules =>
        { s with scheduled := s.scheduled || schedules.oframe }
    | .tasklet d =>
      if s.scheduled then
        some { s with
          port := { s.port with tx := (oframeWorker dev s.port.cfg mem s.port.tx d).1 }
          scheduled := false }
      else none
    | .purge d =>
      some { s with
        port := { s.port with tx := (ioPurgeTx dev s.port.cfg s.port.tx d).1 }
        writers := s.writers.map fun w => { w with woken := true } }

/-- The FIFO has room for the descriptors `fs`: the transmitter can take another frame, their
words leave a byte of the FIFO unused, and only one of them starts a frame. -/
structure FifoRoom (tfcnt txcnt : Nat) (fs : List IoFrame) : Prop where
  frames : tfcnt ≤ 254
  bytes : txcnt + (fs.map fun f => sizeInFifo f.desc.dataCount).sum < txFifoSize
  one : fs.countP IoFrame.fe ≤ 1

/-- Whenever the transmit tasklet runs, the queued descriptors for which the FIFO has room are
too few to give a writer that sleeps the room it waits for. -/
def NoneServed (s : WakeSystem) : WakeEvent δ → Prop
  | .tasklet d => ∀ w ∈ s.writers, w.asleep = true → ∀ fs, fs <+: s.port.tx.queue →
      FifoRoom (ioGetTFCNT dev d).1 (ioGetTXCNT dev (ioGetTFCNT dev d).2).1 fs →
      userGetTxSpace mem s.port.tx + fs.length * mem.txSize < w.call.buf.length
  | _ => True

/-! ### The tasklet -/

variable {mem}

private theorem Accepts.one {tfcnt : Nat} {fs : List IoFrame} {ps : List Piece} {fifoSpace : Nat}
    (carried : List.Forall₂ (Carries mem) fs ps) (accepts : Accepts tfcnt fs ⟨fifoSpace, 0, false⟩) :
    fs.countP IoFrame.fe ≤ 1 := by
  have lengths := (fill_lengths carried accepts (Nat.zero_lt_succ _)).1
  have same : fs.countP IoFrame.fe = (ps.filterMap Piece.total).length := by
    clear accepts lengths
    induction carried with
    | nil => rfl
    | @cons f piece fs ps first _ ih =>
      rw [List.countP_cons, ih, first.fe]
      cases total : piece.total <;> simp [total]
  rw [same]
  have short : ∀ n, (lengthsOf n).length ≤ 1 := by
    intro n
    unfold lengthsOf
    split <;> simp
  have := congrArg List.length lengths
  rw [List.length_append] at this
  have := short (fs.foldl (fun s f => fillStep f s) ⟨fifoSpace, 0, false⟩).frameSize
  omega

/-- The transmit tasklet empties descriptors for which the FIFO has room, if any. -/
theorem TxRing.oframeWorker {p : TxPort} {free queued : List IoFrame} {ps : List Piece}
    (h : TxRing mem p free queued) (carried : List.Forall₂ (Carries mem) queued ps)
    (cfg : PortConfig) (d : δ) :
    ∃ (done rest : List IoFrame) (ps' : List Piece), queued = done ++ rest ∧
      (done = [] ∨ FifoRoom (ioGetTFCNT dev d).1 (ioGetTXCNT dev (ioGetTFCNT dev d).2).1 done) ∧
      TxRing mem (oframeWorker dev cfg mem p d).1 (free ++ done.map sentFrame) rest ∧
      List.Forall₂ (Carries mem) rest ps' := by
  -- Nothing is taken in DMA mode, or when a counter says that there is no room.
  have none_ : ∃ (done rest : List IoFrame) (ps' : List Piece), queued = done ++ rest ∧
      (done = [] ∨ FifoRoom (ioGetTFCNT dev d).1 (ioGetTXCNT dev (ioGetTFCNT dev d).2).1 done) ∧
      TxRing mem p (free ++ done.map sentFrame) rest ∧ List.Forall₂ (Carries mem) rest ps' :=
    ⟨[], queued, ps, rfl, .inl rfl, by simpa using h, carried⟩
  have same : (Fscc.oframeWorker dev cfg mem p d).1 =
      if cfg.isDma then p else (fifoWriteData dev mem p d).2.1 := by
    unfold Fscc.oframeWorker ioTransmitFrame
    dsimp only
    split
    next => rfl
    next => split <;> rfl
  rw [same]
  split
  next => exact none_
  next =>
    unfold fifoWriteData
    dsimp only
    split
    next => exact none_
    next taken =>
      split
      next => exact none_
      next space =>
        -- The loop takes from the front of the queue what fits the space it starts with.
        have bound := ioGetTXCNT_le dev (ioGetTFCNT dev d).2
        generalize (ioGetTXCNT dev (ioGetTFCNT dev d).2).1 = txcnt at bound space ⊢
        obtain ⟨p', done, rest, eq, rfl, accepts, ring, -⟩ :=
          h.fifoWriteLoop (ioGetTFCNT dev d).1 mem.txNum ⟨fifoSpaceFor txcnt, 0, false⟩
        obtain ⟨qs, rs, rfl, own, other⟩ := carried_append carried
        refine ⟨done, rest, rs, rfl, .inr ⟨by omega, ?_, accepts.one own⟩, by rw [eq]; exact ring,
          other⟩
        have bytes := accepts.fifoSpace (fifoSpaceFor_lt txcnt)
        simp only [fifoSpaceFor, CInt.sub32, txFifoSize] at bytes space ⊢
        omega

/-! ### Writers -/

variable (mem) in
private theorem writeNext_sleep {count : Nat} {nonblock : Bool} {phase : Phase} {seen : Observation}
    {op : SemaphoreOp} (next : writeNext mem count nonblock phase seen = some (.sleep, op)) :
    phase = .wait ∧ seen = .condition false := by
  unfold writeNext at next
  split at next
  next =>
    have entry := congrArg Prod.fst (Option.some.inj next)
    unfold writeEntry at entry
    split at entry
    next => cases entry
    next =>
      split at entry
      next => cases entry
      next => split at entry <;> cases entry
  next stalled => cases stalled <;> cases next
  next => cases next
  next => cases next
  next => cases next
  next => exact waitLoop_sleep next (by simp)

/-- The count of a write under way is that of a frame the ring can hold. -/
def Call.Admitted (mem : Memory) (c : Call) : Prop :=
  c.phase = .entry ∨ (∃ result, c.phase = .done result) ∨
    0 < c.buf.length ∧ c.buf.length ≤ mem.txNum * mem.txSize

private theorem Call.Admitted.moved {c : Call} {seen : Observation} {step : Phase × SemaphoreOp}
    (h : c.Admitted mem) (kind : c.kind = .write) (next : c.next mem seen = some step) :
    (c.moved step).Admitted mem := by
  simp only [Call.next, kind] at next
  rcases h with entry | ⟨result, done⟩ | sized
  -- At its entry a call is checked, and goes on only with a buffer that the ring can hold.
  · rw [entry] at next
    cases seen with
    | condition usingAsync =>
      cases next
      unfold Call.Admitted Call.moved writeEntry
      dsimp only
      split
      next => exact .inr (.inl ⟨_, rfl⟩)
      next pos =>
        split
        next => exact .inr (.inl ⟨_, rfl⟩)
        next =>
          split
          next => exact .inr (.inl ⟨_, rfl⟩)
          next fits =>
            rw [Nat.mul_comm] at fits
            exact .inr (.inr ⟨by omega, by omega⟩)
    | go => cases next
    | interrupted => cases next
    | result => cases next
  · rw [done] at next
    cases seen <;> cases next
  · exact .inr (.inr sized)

/-- The ring is one, the writers are calls of `fscc_write`, and a writer that sleeps waits for
more room than there is. -/
structure WakeSystem.Inv (mem : Memory) (s : WakeSystem) : Prop where
  ring : ∃ (free queued : List IoFrame) (ps : List Piece),
    TxRing mem s.port.tx free queued ∧ List.Forall₂ (Carries mem) queued ps
  writers : ∀ w ∈ s.writers, w.call.kind = .write ∧ w.call.Admitted mem
  waiting : ∀ w ∈ s.writers, w.asleep = true →
    userGetTxSpace mem s.port.tx < w.call.buf.length

namespace WakeSystem.Inv

variable {dev} {s t : WakeSystem}

private theorem initial (init : (wakeMachine dev mem).init s) : s.Inv mem := by
  obtain ⟨fresh, -, -, none_⟩ := init
  obtain ⟨free, ring⟩ := fresh.txRing
  exact ⟨⟨free, [], [], ring, .nil⟩, by simp [none_], by simp [none_]⟩

private theorem write (h : s.Inv mem) (buf : List UInt8) (nonblock : Bool) :
    WakeSystem.Inv mem
      { s with writers := s.writers ++ [⟨⟨.write, buf, nonblock, .entry, false⟩, false⟩] } := by
  refine ⟨h.ring, fun w member => ?_, fun w member asleep => ?_⟩
  · rcases List.mem_append.mp member with old | new
    · exact h.writers w old
    · rw [List.mem_singleton.mp new]
      exact ⟨rfl, .inl rfl⟩
  · rcases List.mem_append.mp member with old | new
    · exact h.waiting w old asleep
    · rw [List.mem_singleton.mp new] at asleep
      cases asleep

/-- The work of a writer makes no room. -/
private theorem work (h : s.Inv mem) {c : Call} (kind : c.kind = .write) (admitted : c.Admitted mem)
    (chance : Chance δ) (port : PortState)
    (eq : port = if c.phase = .act then (c.work dev mem s.port chance).2 else s.port) :
    userGetTxSpace mem port.tx ≤ userGetTxSpace mem s.port.tx ∧
      ∃ (free queued : List IoFrame) (ps : List Piece),
        TxRing mem port.tx free queued ∧ List.Forall₂ (Carries mem) queued ps := by
  subst eq
  split
  next act =>
    obtain ⟨free, queued, ps, ring, carried⟩ := h.ring
    have sized : 0 < c.buf.length ∧ c.buf.length ≤ mem.txNum * mem.txSize := by
      rcases admitted with entry | ⟨result, done⟩ | sized
      · rw [entry] at act
        cases act
      · rw [done] at act
        cases act
      · exact sized
    obtain ⟨free', queued', ps', le, ring', carried'⟩ := ring.userWriteFrame dev s.port.cfg carried
      chance.alloc chance.unmovedBytes sized.1 sized.2 chance.device
    simp only [Call.work, kind]
    refine ⟨?_, free', queued', ps', ring', carried'⟩
    rw [ring'.userGetTxSpace, ring.userGetTxSpace]
    exact Nat.mul_le_mul_right _ le
  next => exact ⟨Nat.le_refl _, h.ring⟩

private theorem run (h : s.Inv mem) {i : Nat} {w : Writer} (present : s.writers[i]? = some w)
    {chance : Chance δ} (stepped : s.run dev mem i w chance = some t) : t.Inv mem := by
  have own := h.writers w (List.mem_of_getElem? present)
  unfold WakeSystem.run at stepped
  split at stepped
  next => cases stepped
  next =>
    obtain ⟨step, next, counted⟩ := Option.bind_eq_some_iff.mp stepped
    obtain ⟨n, -, rfl⟩ := Option.map_eq_some_iff.mp counted
    obtain ⟨le, ring⟩ := h.work own.1 own.2 chance _ rfl
    -- The work of another call makes no room, so that those who sleep go on waiting.
    refine ⟨ring, fun x member => ?_, fun x member asleep => ?_⟩
    · rcases List.mem_or_eq_of_mem_set member with old | rfl
      · exact h.writers x old
      · exact ⟨own.1, own.2.moved own.1 next⟩
    · rcases List.mem_or_eq_of_mem_set member with old | rfl
      · exact Nat.lt_of_le_of_lt le (h.waiting x old asleep)
      -- The writer that falls asleep has just seen that its room is not there.
      · obtain ⟨phase, op⟩ := step
        have sleeps : phase = .sleep := by simpa [Writer.asleep, Call.moved] using asleep
        rw [sleeps] at next
        simp only [Call.next, own.1] at next
        obtain ⟨wait, seen⟩ := writeNext_sleep mem next
        have short : w.call.ready mem s.port = false := by
          simpa [Call.observe, wait] using seen
        simp only [Call.ready, own.1, decide_eq_false_iff_not, Nat.not_le] at short
        exact Nat.lt_of_le_of_lt le short

private theorem tasklet (h : s.Inv mem) {d : δ} (none_ : NoneServed dev mem s (.tasklet d)) :
    WakeSystem.Inv mem { s with
      port := { s.port with tx := (oframeWorker dev s.port.cfg mem s.port.tx d).1 }
      scheduled := false } := by
  obtain ⟨free, queued, ps, ring, carried⟩ := h.ring
  obtain ⟨done, rest, ps', split, room, ring', carried'⟩ :=
    ring.oframeWorker dev carried s.port.cfg d
  refine ⟨⟨_, rest, ps', ring', carried'⟩, h.writers, fun w member asleep => ?_⟩
  have before := h.waiting w member asleep
  rw [ring'.userGetTxSpace, List.length_append, List.length_map, Nat.add_mul,
    ← ring.userGetTxSpace]
  rcases room with rfl | room
  · simpa using before
  · exact none_ w member asleep done (by rw [ring.queue_eq, split]; exact List.prefix_append _ _)
      room

private theorem purge (h : s.Inv mem) (d : δ) :
    WakeSystem.Inv mem { s with
      port := { s.port with tx := (ioPurgeTx dev s.port.cfg s.port.tx d).1 }
      writers := s.writers.map fun w => { w with woken := true } } := by
  obtain ⟨free, queued, ps, ring, -⟩ := h.ring
  have reset := txRing_reset mem ring.size ring.buffers_mem
  refine ⟨⟨_, [], [], reset, .nil⟩, fun w member => ?_, fun w member asleep => ?_⟩
  · obtain ⟨x, old, rfl⟩ := List.mem_map.mp member
    exact h.writers x old
  · obtain ⟨x, old, rfl⟩ := List.mem_map.mp member
    simp [Writer.asleep] at asleep

private theorem step {e : WakeEvent δ} (none_ : NoneServed dev mem s e) (h : s.Inv mem)
    (stepped : (wakeMachine dev mem).step s e = some t) : t.Inv mem := by
  cases e with
  | write buf nonblock =>
    obtain rfl := Option.some.inj stepped
    exact h.write buf nonblock
  | run i chance =>
    obtain ⟨w, present, run⟩ := Option.bind_eq_some_iff.mp stepped
    exact h.run present run
  | interrupt isrValue =>
    obtain ⟨schedules, -, rfl⟩ := Option.map_eq_some_iff.mp stepped
    exact ⟨h.ring, h.writers, h.waiting⟩
  | tasklet d =>
    obtain ⟨-, eq⟩ := Option.ite_none_right_eq_some.mp stepped
    obtain rfl := Option.some.inj eq
    exact h.tasklet none_
  | purge d =>
    obtain rfl := Option.some.inj stepped
    exact h.purge d

end WakeSystem.Inv

variable {dev}

/-- In every run in which no tasklet makes the room that a sleeping writer waits for, a writer
that sleeps waits for more room than there is, unless it has been woken. -/
theorem sleeps_without_room {s : WakeSystem}
    (reached : (wakeMachine dev mem).ReachedUnder (NoneServed dev mem) s) :
    ∀ w ∈ s.writers, w.asleep = true → userGetTxSpace mem s.port.tx < w.call.buf.length :=
  (reached.invariant (P := WakeSystem.Inv mem) (fun _ => .initial) fun _ _ _ h none_ stepped =>
    h.step none_ stepped).waiting

/-- A fresh port with no writers, the clock check switched off. -/
def beforeWriters : WakeSystem :=
  ⟨{ freshPort with cfg := fifoConfig }, 1, false, []⟩

/-- One write fills the ring, a second one falls asleep. -/
def ringFilled : List (WakeEvent (BitVec 32)) :=
  .write [1, 2, 3, 4, 5, 6, 7, 8] false :: List.replicate 7 (.run 0 ⟨false, true, 0, 0#32⟩) ++
    .write [9] false :: List.replicate 5 (.run 1 ⟨false, true, 0, 0#32⟩)

/-- While the transmitter takes nothing, the second write waits for good reason. -/
theorem sleeps_without_room_full :
    ∃ s, (wakeMachine constant .small).replay beforeWriters (ringFilled ++ [.tasklet 0x00ff0000#32]) =
        some s ∧
      (s.writers.map Writer.asleep) = [false, true] ∧
      ∀ w ∈ s.writers, w.asleep = true → userGetTxSpace .small s.port.tx < w.call.buf.length := by
  have met : (wakeMachine constant .small).Met (NoneServed constant .small) beforeWriters
      (ringFilled ++ [.tasklet 0x00ff0000#32]) := by
    refine Machine.met_of_mem (fun e member s => ?_) _
    simp only [ringFilled, List.mem_append, List.mem_cons, List.mem_replicate, List.not_mem_nil,
      or_false] at member
    rcases member with ((rfl | ⟨-, rfl⟩) | rfl | ⟨-, rfl⟩) | rfl
    · trivial
    · trivial
    · trivial
    · trivial
    · intro w _ _ fs _ room
      exact absurd room.frames (by decide)
  exact ⟨_, rfl, rfl, sleeps_without_room
    (.replay (.init ⟨fresh_freshTx .small rfl, rfl, rfl, rfl⟩) _ met rfl)⟩

/-- The tasklet empties the ring and the second write sleeps on. -/
theorem sleeps_beside_room :
    ∃ s, (wakeMachine constant .small).Reached s ∧
      (∃ w ∈ s.writers, w.asleep = true ∧ w.call.buf.length = 1) ∧
      userGetTxSpace .small s.port.tx = 8 := by
  have run : ∃ s, (wakeMachine constant .small).replay beforeWriters
      (ringFilled ++ [.tasklet 0#32]) = some s ∧
      (∃ w ∈ s.writers, w.asleep = true ∧ w.call.buf.length = 1) ∧
      userGetTxSpace .small s.port.tx = 8 := ⟨_, rfl, by decide⟩
  obtain ⟨s, replayed, left⟩ := run
  exact ⟨s, .replay (.init ⟨fresh_freshTx .small rfl, rfl, rfl, rfl⟩) _ replayed, left⟩

end Fscc
