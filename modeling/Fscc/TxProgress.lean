import Fscc.Isr
import Fscc.TxRefinement
import Mathlib.Data.Prod.Lex

/-!
# What sets off a transmission

The transmit path in FIFO mode with its interrupts and `send_oframe_tasklet`. A write schedules the
tasklet when it has queued its frame; what the FIFO has no room for then waits for the interrupt that
comes when the transmitter has sent what the FIFO held. The worker reads two counters before it takes
the lock and gives its command after it has left it, so writes, purges and the transmitter come between.
-/

namespace Fscc

/-! ### The transmitter -/

/-- The words and the frames in the transmit FIFO, whether the transmitter has been told to send them,
whether ALLS has been raised and not read since, and whether there is a clock. -/
structure TransmitFifo where
  words : Nat
  frames : Nat
  sending : Bool
  irq : Bool
  clock : Bool
deriving DecidableEq, Repr

namespace TransmitFifo

def getRegister (offset : Nat) (f : TransmitFifo) : BitVec 32 × TransmitFifo :=
  if offset = fifoBcOffset then (BitVec.ofNat 32 (4 * f.words) <<< 16, f)
  else if offset = fifoFcOffset then (BitVec.ofNat 32 f.frames <<< 16, f)
  else if offset = starOffset then (if f.clock then 0#32 else ceBit, f)
  else (0#32, f)

/-- What a store does: a word of data, the length of a frame, a reset, or a command to transmit. -/
def store (f : TransmitFifo) : BusWrite → TransmitFifo
  | .word 0 offset _ => if offset = fifoOffset then { f with words := f.words + 1 } else f
  | .register 0 offset value =>
    if offset = bcFifoLOffset then { f with frames := f.frames + 1 }
    else if offset = cmdrOffset then
      if value.getLsbD 27 then { f with words := 0, frames := 0, sending := false }
      else if value.getLsbD 24 then { f with sending := decide (0 < f.words) }
      else f
    else f
  | _ => f

end TransmitFifo

/-- The registers of the transmitter. Reading them changes nothing. -/
def transmitFifo : Device TransmitFifo where
  getRegister := TransmitFifo.getRegister
  readFifo f := (⟨0, 0, 0, 0⟩, f)
  ktime f := (.clear, f)

/-! ### The system -/

/-- Where `oframe_worker` stands: not running, with TFCNT read, with TXCNT read as well, or with data
written and the command still to give. -/
inductive OframePc where
  | idle
  | counted (frames : Nat)
  | measured (frames words : Nat)
  | commanding
deriving DecidableEq, Repr

/-- The ring, the transmitter, the worker, whether its tasklet is scheduled, and how many writes have
queued their frame and not scheduled it yet. -/
structure TransmitSystem where
  port : TxPort
  fifo : TransmitFifo
  worker : OframePc
  scheduled : Bool
  leaving : Nat

/-- A write queues its frame, and leaves; an interrupt is served; the worker begins, reads TXCNT, fills
the FIFO, and gives its command; the transmitter sends; the clock comes or goes; or the port is purged. -/
inductive TransmitEvent where
  | write (buf : List UInt8) (alloc : Bool) (unmovedBytes : Nat)
  | leave
  | interrupt (other : BitVec 32)
  | tasklet
  | measure
  | fill
  | command
  | send (words frames : Nat)
  | clock (present : Bool)
  | purge

variable (cfg : PortConfig) (mem : Memory)

/-- The FIFO as the worker read it, `frames` and `words` at different times. -/
def TransmitFifo.seen (f : TransmitFifo) (frames words : Nat) : TransmitFifo :=
  { f with frames := frames, words := words }

/-- The driver and the transmitter, in any order. -/
def transmitMachine : Machine TransmitSystem TransmitEvent where
  init s := FreshTx mem s.port ∧ s.fifo.words = 0 ∧ s.fifo.frames = 0 ∧ s.worker = .idle ∧
    s.scheduled = false ∧ s.leaving = 0
  step s
    | .write buf alloc unmovedBytes =>
      if 0 < buf.length ∧ buf.length ≤ userGetTxSpace mem s.port then
        some { s with
          port := (userWriteFrame transmitFifo cfg mem alloc unmovedBytes buf s.port s.fifo).2.1
          leaving := s.leaving + 1 }
      else none
    | .leave =>
      if 0 < s.leaving then some { s with leaving := s.leaving - 1, scheduled := true } else none
    | .interrupt other =>
      (isr cfg.isDma (other ||| if s.fifo.irq then alls else 0#32)).map fun schedules =>
        { s with
          fifo := { s.fifo with irq := false }
          scheduled := s.scheduled || schedules.oframe }
    | .tasklet =>
      if s.scheduled ∧ s.worker = .idle then
        some { s with scheduled := false, worker := .counted s.fifo.frames }
      else none
    | .measure =>
      match s.worker with
      | .counted frames =>
        -- More than 254 frames, and TXCNT is not looked at.
        if 254 < (ioGetTFCNT transmitFifo (s.fifo.seen frames 0)).1 then
          some { s with worker := .idle }
        else some { s with worker := .measured frames s.fifo.words }
      | _ => none
    | .fill =>
      match s.worker with
      | .measured frames words =>
        let filled := fifoWriteData transmitFifo mem s.port (s.fifo.seen frames words)
        some { s with
          port := filled.2.1
          fifo := filled.2.2.1.foldl .store s.fifo
          worker := if filled.1 then .commanding else .idle }
      | _ => none
    | .command =>
      if s.worker = .commanding then
        some { s with
          fifo := (issued (ioExecuteTransmit transmitFifo cfg false s.fifo).1).foldl .store s.fifo
          worker := .idle }
      else none
    | .send words frames =>
      -- No frame is left where no word is.
      if s.fifo.sending ∧ words ≤ s.fifo.words ∧ frames ≤ s.fifo.frames ∧
          (words = s.fifo.words → frames = s.fifo.frames) then
        some { s with
          fifo := { s.fifo with
            words := s.fifo.words - words
            frames := s.fifo.frames - frames
            sending := decide (words < s.fifo.words)
            irq := s.fifo.irq || decide (words = s.fifo.words) } }
      else none
    | .clock present => some { s with fifo := { s.fifo with clock := present } }
    | .purge =>
      let purged := ioPurgeTx transmitFifo cfg s.port s.fifo
      some { s with port := purged.1, fifo := purged.2.1.foldl .store s.fifo }

/-- A command to transmit is not refused while the FIFO holds data that the transmitter has not been
told to send. -/
def Commanded (s : TransmitSystem) : TransmitEvent → Prop
  | .command => cfg.ignoreTimeout = true ∨ s.fifo.clock = true ∨ s.fifo.sending = true ∨
      s.fifo.words = 0
  | _ => True

namespace TransmitSystem

variable (s : TransmitSystem)

/-- Something is pending that has the worker run, at once or when the FIFO has been sent. -/
def Pending : Prop :=
  0 < s.leaving ∨ s.scheduled = true ∨ s.fifo.irq = true ∨
    s.fifo.sending = true ∧ 0 < s.fifo.words

/-- A transmission is under way or about to be. -/
def OnItsWay : Prop := s.worker ≠ .idle ∨ s.Pending

/-- What the worker has seen lets it leave the queue as it is. -/
def Leaves : Prop :=
  match s.worker with
  | .idle => True
  | .counted frames => 0 < frames
  | .measured frames words => 0 < frames ∨ 0 < words
  | .commanding => s.fifo.words = 0

end TransmitSystem

/-! ### What the stores do -/

/-- A store of data, or of the length of a frame. -/
def BusWrite.isData : BusWrite → Bool
  | .word 0 offset _ => offset == fifoOffset
  | .register 0 offset _ => offset == bcFifoLOffset
  | _ => false

private theorem isData_iowrite32Rep (chunks : Nat) (data : List UInt8) :
    ∀ w ∈ iowrite32Rep 0 fifoOffset chunks data, w.isData = true := by
  induction chunks generalizing data with
  | zero => exact List.forall_mem_nil _
  | succ chunks ih =>
    rw [iowrite32Rep, List.forall_mem_cons]
    exact ⟨rfl, ih _⟩

private theorem isData_cardSetRegisterRep (data : List UInt8) (byteCount : Nat) :
    ∀ w ∈ cardSetRegisterRep 0 fifoOffset data byteCount, w.isData = true := by
  unfold cardSetRegisterRep
  dsimp only
  split
  next => exact List.forall_mem_nil _
  next =>
    rw [List.forall_mem_append]
    refine ⟨isData_iowrite32Rep _ _, ?_⟩
    split
    next => exact List.forall_mem_nil _
    next => exact List.forall_mem_singleton.mpr rfl

private theorem isData_fifoWriteLoop (tfcnt passes : Nat) (p : TxPort) (s : Filling) :
    ∀ w ∈ (fifoWriteLoop mem tfcnt passes p s).2.2, w.isData = true := by
  induction passes generalizing p s with
  | zero => exact List.forall_mem_nil _
  | succ passes ih =>
    rw [fifoWriteLoop]
    dsimp only
    split
    next => exact List.forall_mem_nil _
    next => exact List.forall_mem_append.mpr ⟨isData_cardSetRegisterRep _ _, ih _ _⟩

/-- `fscc_fifo_write_data` gives no command. -/
private theorem isData_fifoWriteData {δ : Type} (dev : Device δ) (p : TxPort) (d : δ) :
    ∀ w ∈ (fifoWriteData dev mem p d).2.2.1, w.isData = true := by
  unfold fifoWriteData
  dsimp only
  split
  next => exact List.forall_mem_nil _
  next =>
    split
    next => exact List.forall_mem_nil _
    next =>
      refine List.forall_mem_append.mpr ⟨isData_fifoWriteLoop mem _ _ _ _, ?_⟩
      split
      next => exact List.forall_mem_nil _
      next => exact List.forall_mem_singleton.mpr rfl

namespace TransmitFifo

variable {cfg}

/-- Data adds to what the FIFO holds, and does nothing else. -/
private theorem store_data {ws : List BusWrite} (data : ∀ w ∈ ws, w.isData = true) (f : TransmitFifo) :
    ∃ words, 4 * words = (fifoBytes ws).length ∧ ws.foldl store f =
      { f with words := f.words + words, frames := f.frames + (frameLengths ws).length } := by
  induction ws generalizing f with
  | nil => exact ⟨0, rfl, rfl⟩
  | cons w ws ih =>
    obtain ⟨first, rest⟩ := List.forall_mem_cons.mp data
    obtain ⟨words, bytes, stored⟩ := ih rest (f.store w)
    rw [List.foldl_cons, stored]
    rw [← List.singleton_append, fifoBytes_append, frameLengths_append, List.length_append,
      List.length_append]
    unfold BusWrite.isData at first
    split at first
    next offset word =>
      obtain rfl := beq_iff_eq.mp first
      refine ⟨words + 1, ?_, ?_⟩
      · rw [← bytes]
        simp [fifoBytes]
        omega
      · simp [store, frameLengths, Nat.add_assoc, Nat.add_comm 1]
    next offset value =>
      obtain rfl := beq_iff_eq.mp first
      refine ⟨words, by simpa using bytes, ?_⟩
      simp [store, Nat.add_assoc]
    next => cases first

/-- The clock check finds out whether there is a clock. -/
private theorem portTimedOut_eq (f : TransmitFifo) : portTimedOut transmitFifo f = (!f.clock, f) := by
  have star : transmitFifo.getRegister starOffset f = (if f.clock then 0#32 else ceBit, f) := by
    simp [transmitFifo, getRegister, starOffset, fifoBcOffset, fifoFcOffset]
  have tries (n : Nat) : timedOutLoop transmitFifo (n + 1) f = (!f.clock, f) := by
    induction n with
    | zero => cases clock : f.clock <;> simp [timedOutLoop, star, clock, ceBit]
    | succ n ih =>
      rw [timedOutLoop, star, ih]
      cases f.clock <;> simp [ceBit]
  exact tries 49

private theorem ioExecuteTransmit_congr {f g : TransmitFifo} (clock : f.clock = g.clock) :
    (ioExecuteTransmit transmitFifo cfg false f).1 = (ioExecuteTransmit transmitFifo cfg false g).1 := by
  simp only [ioExecuteTransmit, Bool.false_eq_true, if_false, portSetRegister, portTimedOut_eq, clock]
  split
  · split <;> rfl
  · rfl

/-- A transmit command that is not refused tells the transmitter to send what there is. -/
private theorem store_command (f : TransmitFifo) :
    (issued (ioExecuteTransmit transmitFifo cfg false f).1).foldl store f =
        { f with sending := decide (0 < f.words) } ∨
      (issued (ioExecuteTransmit transmitFifo cfg false f).1).foldl store f = f ∧
        cfg.ignoreTimeout = false ∧ f.clock = false := by
  rw [ioExecuteTransmit]
  simp only [Bool.false_eq_true, if_false]
  generalize command : (0x01000000#32 ||| modifierBit cfg 1 _ ||| modifierBit cfg 2 _ |||
    modifierBit cfg 4 _) = value
  -- The command starts the transmitter and does not reset it.
  have bits : value.getLsbD 27 = false ∧ value.getLsbD 24 = true := by
    rw [← command]
    unfold modifierBit
    split <;> split <;> split <;> decide
  have given : f.store (.register 0 cmdrOffset value) =
      { f with sending := decide (0 < f.words) } := by
    rw [store, if_neg (by decide), if_pos rfl, bits.1, bits.2]
    rfl
  unfold portSetRegister
  dsimp only
  split
  -- The status register is polled first, and the command is given up only if the clock is gone.
  next check =>
    split
    next late =>
      refine .inr ⟨rfl, check.2, ?_⟩
      cases clock : f.clock with
      | false => rfl
      | true =>
        rw [portTimedOut_eq, clock] at late
        cases late
    next => exact .inl given
  next => exact .inl given

/-- A reset empties the FIFO, or is refused. -/
private theorem store_purge (fifo : cfg.isDma = false) (p : TxPort) (f : TransmitFifo) :
    (ioPurgeTx transmitFifo cfg p f).2.1.foldl store f =
        { f with words := 0, frames := 0, sending := false } ∨
      (ioPurgeTx transmitFifo cfg p f).2.1.foldl store f = f := by
  have given : f.store (.register 0 cmdrOffset 0x08000000#32) =
      { f with words := 0, frames := 0, sending := false } := by
    simp [store, cmdrOffset, bcFifoLOffset]
  simp only [ioPurgeTx, dmaExecuteSTOPT, dmaExecuteRSTT, dmaExecute, fifo, Bool.false_eq_true, if_false,
    List.nil_append, List.append_nil, ioExecuteTRES]
  unfold portSetRegister
  dsimp only
  split
  next =>
    split
    next => exact .inr rfl
    next => exact .inl given
  next => exact .inl given

/-- What is read of an empty FIFO. -/
private theorem ioGetTXCNT_seen (f : TransmitFifo) (frames : Nat) :
    (ioGetTXCNT transmitFifo (f.seen frames 0)).1 = 0 := by
  simp [ioGetTXCNT, transmitFifo, getRegister, seen]

private theorem ioGetTFCNT_seen (f : TransmitFifo) (words : Nat) :
    (ioGetTFCNT transmitFifo (f.seen 0 words)).1 = 0 := by
  simp [ioGetTFCNT, transmitFifo, getRegister, seen, fifoFcOffset, fifoBcOffset]

/-- TFCNT does not depend on the words. -/
private theorem ioGetTFCNT_words (f : TransmitFifo) (words : Nat) :
    (ioGetTFCNT transmitFifo (f.seen f.frames words)).1 = (ioGetTFCNT transmitFifo f).1 := by
  simp [ioGetTFCNT, transmitFifo, getRegister, seen, fifoFcOffset, fifoBcOffset]

private theorem ioGetTFCNT_same (f : TransmitFifo) : (ioGetTFCNT transmitFifo f).2 = f := by
  simp [ioGetTFCNT, transmitFifo, getRegister, fifoFcOffset, fifoBcOffset]

private theorem ioGetTXCNT_same (f : TransmitFifo) : (ioGetTXCNT transmitFifo f).2 = f := by
  simp [ioGetTXCNT, transmitFifo, getRegister]

end TransmitFifo

/-- Reading the counters leaves the transmitter as it is. -/
private theorem fifoWriteData_same (p : TxPort) (f : TransmitFifo) :
    (fifoWriteData transmitFifo mem p f).2.2.2 = f := by
  unfold fifoWriteData
  dsimp only
  rw [TransmitFifo.ioGetTFCNT_same]
  split
  · rfl
  · split <;> exact TransmitFifo.ioGetTXCNT_same f

/-- The worker with nothing between its steps is `oframe_worker`. -/
theorem replay_oframe (fifo : cfg.isDma = false) {s : TransmitSystem} (scheduled : s.scheduled = true)
    (idle : s.worker = .idle) :
    let worker := oframeWorker transmitFifo cfg mem s.port s.fifo
    ∃ es, (transmitMachine cfg mem).replay s es = some { s with
      port := worker.1
      fifo := worker.2.1.foldl .store s.fifo
      worker := .idle
      scheduled := false } := by
  have begun : (transmitMachine cfg mem).step s .tasklet =
      some { s with scheduled := false, worker := .counted s.fifo.frames } := if_pos ⟨scheduled, idle⟩
  have counts := TransmitFifo.ioGetTFCNT_words s.fifo 0
  simp only [oframeWorker, fifo, Bool.false_eq_true, if_false, ioTransmitFrame]
  -- More than 254 frames are waiting: the worker leaves after the first counter.
  by_cases many : 254 < (ioGetTFCNT transmitFifo s.fifo).1
  · have ends : fifoWriteData transmitFifo mem s.port s.fifo =
        (false, s.port, [], (ioGetTFCNT transmitFifo s.fifo).2) := if_pos many
    have measured : (transmitMachine cfg mem).step
        { s with scheduled := false, worker := .counted s.fifo.frames } .measure =
        some { s with scheduled := false, worker := .idle } := by
      simp [transmitMachine, counts, many]
    refine ⟨[.tasklet, .measure], ?_⟩
    rw [ends]
    simp [Machine.replay, begun, measured]
  · have measured : (transmitMachine cfg mem).step
        { s with scheduled := false, worker := .counted s.fifo.frames } .measure =
        some { s with scheduled := false, worker := .measured s.fifo.frames s.fifo.words } := by
      simp [transmitMachine, counts, many]
    have filled : (transmitMachine cfg mem).step
        { s with scheduled := false, worker := .measured s.fifo.frames s.fifo.words } .fill =
        some { s with
          port := (fifoWriteData transmitFifo mem s.port s.fifo).2.1
          fifo := (fifoWriteData transmitFifo mem s.port s.fifo).2.2.1.foldl .store s.fifo
          worker := if (fifoWriteData transmitFifo mem s.port s.fifo).1 then .commanding else .idle
          scheduled := false } := rfl
    -- Whether the command gets through depends on the clock alone, which the words leave as it is.
    have given : (ioExecuteTransmit transmitFifo cfg false
        ((fifoWriteData transmitFifo mem s.port s.fifo).2.2.1.foldl .store s.fifo)).1 =
        (ioExecuteTransmit transmitFifo cfg false
          (fifoWriteData transmitFifo mem s.port s.fifo).2.2.2).1 := by
      refine TransmitFifo.ioExecuteTransmit_congr ?_
      obtain ⟨words, -, stored⟩ :=
        TransmitFifo.store_data (isData_fifoWriteData mem transmitFifo s.port s.fifo) s.fifo
      rw [stored, fifoWriteData_same]
    generalize fifoWriteData transmitFifo mem s.port s.fifo = result at filled given
    cases worked : result.1 with
    | false =>
      rw [worked] at filled
      exact ⟨[.tasklet, .measure, .fill], by simp [Machine.replay, begun, measured, filled]⟩
    | true =>
      rw [worked] at filled
      refine ⟨[.tasklet, .measure, .fill, .command], ?_⟩
      have commanded : (transmitMachine cfg mem).step { s with
          port := result.2.1
          fifo := result.2.2.1.foldl .store s.fifo
          worker := .commanding
          scheduled := false } .command = some { s with
          port := result.2.1
          fifo := (result.2.2.1 ++ issued (ioExecuteTransmit transmitFifo cfg false result.2.2.2).1).foldl
            .store s.fifo
          worker := .idle
          scheduled := false } := by
        rw [List.foldl_append, ← given]
        rfl
      simp [Machine.replay, begun, measured, filled, commanded]

/-! ### The invariant -/

/-- In FIFO mode each of the three transmit interrupts has the worker scheduled. -/
private theorem isr_transmit {isrValue : BitVec 32}
    (transmit : isrValue &&& (tft ||| tdu ||| alls) ≠ 0#32)
    {schedules : Schedules} (served : isr false isrValue = some schedules) :
    schedules.oframe = true := by
  unfold isr at served
  split at served
  next => cases served
  next =>
    obtain rfl := Option.some.inj served
    simpa using transmit

private theorem alls_transmit (other : BitVec 32) : (other ||| alls) &&&
    (tft ||| tdu ||| alls) ≠ 0#32 := by
  intro none_
  -- ALLS is bit 17, and no other interrupt can clear it.
  have bit := congrArg (fun value : BitVec 32 => value.getLsbD 17) none_
  have ones : alls.getLsbD 17 = true ∧ (tft ||| tdu ||| alls).getLsbD 17 = true := by decide
  rw [BitVec.getLsbD_and, BitVec.getLsbD_or, ones.1, ones.2] at bit
  simp at bit

/-- The ring holds a queue. The FIFO holds data only that the transmitter has been told to send or is
about to be told, and when the worker leaves the queue as it is, something is pending for it. -/
structure TransmitSystem.Inv (mem : Memory) (s : TransmitSystem) : Prop where
  held : ∃ ps, HoldsQueue mem s.port ps
  empty : s.fifo.words = 0 → s.fifo.frames = 0
  told : 0 < s.fifo.words → s.fifo.sending = true ∨ s.worker = .commanding
  due : s.Leaves → s.port.queue = [] ∨ s.Pending

private theorem HoldsQueue.length_queue {mem : Memory} {p : TxPort} {ps : List Piece}
    (h : HoldsQueue mem p ps) : p.queue.length = ps.length := by
  obtain ⟨free, queued, ring, carried⟩ := h
  rw [ring.queue_eq, carried.length_eq]

private theorem HoldsQueue.queue_eq_nil {mem : Memory} {p : TxPort} {ps : List Piece}
    (h : HoldsQueue mem p ps) : p.queue = [] ↔ ps = [] := by
  rw [← List.length_eq_zero_iff, h.length_queue, List.length_eq_zero_iff]

private theorem HoldsQueue.pos {mem : Memory} {p : TxPort} {ps : List Piece} (h : HoldsQueue mem p ps) :
    ∀ piece ∈ ps, 0 < piece.data.length := by
  obtain ⟨free, queued, -, carried⟩ := h
  clear free
  induction carried with
  | nil => exact List.forall_mem_nil _
  | cons first _ ih => exact List.forall_mem_cons.mpr ⟨first.pos, ih⟩

private theorem Stored.length_pos {ps : List Piece} {bytes : List UInt8} (h : Stored ps bytes)
    (some_ : ps ≠ [])
    (pos : ∀ piece ∈ ps, 0 < piece.data.length) : 0 < bytes.length := by
  cases h with
  | nil => exact absurd rfl some_
  | cons _ _ _ =>
    have first := pos _ (.head _)
    simp only [List.length_append]
    omega

/-- A call of `fscc_fifo_write_data` leaves the queue and the FIFO as they are, or takes something of the
one to the other. -/
private theorem HoldsQueue.fill {mem : Memory} {p : TxPort} {ps : List Piece} (h : HoldsQueue mem p ps)
    (f seen : TransmitFifo) :
    let filled := fifoWriteData transmitFifo mem p seen
    let sent := takenFor (ioGetTFCNT transmitFifo seen).1 (ioGetTXCNT transmitFifo seen).1 ps
    filled.1 = false ∧ sent = [] ∧ filled.2.2.1.foldl .store f = f ∧ HoldsQueue mem filled.2.1 ps ∨
      filled.1 = true ∧ ∃ words frames, filled.2.2.1.foldl .store f =
        { f with words := f.words + (words + 1), frames := f.frames + frames } ∧
        0 < sent.length ∧ HoldsQueue mem filled.2.1 (ps.drop sent.length) := by
  have long := h.pos
  obtain ⟨free, queued, ring, carried⟩ := h
  obtain ⟨worked, bytes, lengths, free', queued', ring', carried'⟩ :=
    fifoWriteData_taken transmitFifo ring carried seen
  obtain ⟨more, count, stored⟩ :=
    TransmitFifo.store_data (isData_fifoWriteData mem transmitFifo p seen) f
  have first := takenFor_first (ioGetTFCNT transmitFifo seen).1 (ioGetTXCNT transmitFifo seen).1 ps
  rw [TransmitFifo.ioGetTFCNT_same] at worked bytes lengths carried'
  dsimp only
  -- Either nothing is taken and nothing is written, or the data of at least one descriptor is.
  generalize fifoWriteData transmitFifo mem p seen = filled at *
  generalize takenFor _ _ ps = sent at *
  cases sent with
  | nil =>
    have none_ : fifoBytes filled.2.2.1 = [] := by
      generalize fifoBytes filled.2.2.1 = written at bytes
      cases bytes
      rfl
    rw [none_, List.length_nil] at count
    obtain rfl : more = 0 := by omega
    rw [lengths] at stored
    exact .inl ⟨worked, rfl, stored, free', queued', ring', carried'⟩
  | cons piece sent =>
    -- A piece has at least one byte, so that at least one word goes to the FIFO.
    have written := bytes.length_pos (List.cons_ne_nil _ _) fun x member => long x (first.mem member)
    obtain ⟨words, rfl⟩ : ∃ words, more = words + 1 := ⟨more - 1, by omega⟩
    exact .inr ⟨worked, words, _, stored, Nat.succ_pos _, free', queued', ring', carried'⟩

namespace TransmitSystem

variable {cfg mem} {s t : TransmitSystem}

namespace Inv

private theorem initial (init : (transmitMachine cfg mem).init s) : s.Inv mem := by
  obtain ⟨fresh, words, frames, -, -, -⟩ := init
  obtain ⟨free, ring⟩ := fresh.txRing
  refine ⟨⟨[], free, [], ring, .nil⟩, fun _ => frames, fun some_ => ?_, fun _ => .inl ring.queue_eq⟩
  rw [words] at some_
  cases some_

/-- Data in the FIFO is being sent, unless the worker is about to give the command. -/
private theorem sending (h : s.Inv mem) (pc : s.worker ≠ .commanding) (some_ : 0 < s.fifo.words) :
    s.fifo.sending = true := (h.told some_).resolve_right pc

private theorem write (h : s.Inv mem) {buf : List UInt8}
    (fits : 0 < buf.length ∧ buf.length ≤ userGetTxSpace mem s.port) (alloc : Bool)
    (unmovedBytes : Nat) :
    Inv mem { s with
      port := (userWriteFrame transmitFifo cfg mem alloc unmovedBytes buf s.port s.fifo).2.1
      leaving := s.leaving + 1 } := by
  obtain ⟨ps, held⟩ := h.held
  have called : HoldsQueue mem (txCall transmitFifo cfg mem (.write buf alloc unmovedBytes s.fifo)
      s.port).2 _ := (held.call cfg _).2
  rw [txCall, if_pos fits] at called
  exact ⟨⟨_, called⟩, h.empty, h.told, fun _ => .inr (.inl (Nat.succ_pos _))⟩

private theorem interrupt (h : s.Inv mem) {other : BitVec 32} {schedules : Schedules}
    (served : isr false (other ||| if s.fifo.irq then alls else 0#32) = some schedules) :
    Inv mem { s with
      fifo := { s.fifo with irq := false }
      scheduled := s.scheduled || schedules.oframe } := by
  refine ⟨h.held, h.empty, h.told, fun leaves => (h.due leaves).imp_right ?_⟩
  rintro (leaving | scheduled | irq | sending)
  · exact .inl leaving
  · exact .inr (.inl (by simp [scheduled]))
  · -- The interrupt that has been raised is served.
    rw [irq, if_pos rfl] at served
    exact .inr (.inl (by simp [isr_transmit (alls_transmit other) served]))
  · exact .inr (.inr (.inr sending))

private theorem tasklet (h : s.Inv mem) (pc : s.worker = .idle) :
    Inv mem { s with scheduled := false, worker := .counted s.fifo.frames } := by
  have sending := h.sending (by rw [pc]; nofun)
  refine ⟨h.held, h.empty, fun some_ => .inl (sending some_), fun frames => .inr ?_⟩
  have some_ : 0 < s.fifo.words := by
    by_contra none_
    have := h.empty (Nat.eq_zero_of_not_pos none_)
    rw [Leaves] at frames
    dsimp only at frames
    omega
  exact .inr (.inr (.inr ⟨sending some_, some_⟩))

private theorem measure (h : s.Inv mem) {frames : Nat} (pc : s.worker = .counted frames) :
    (254 < (ioGetTFCNT transmitFifo (s.fifo.seen frames 0)).1 → Inv mem { s with worker := .idle }) ∧
      Inv mem { s with worker := .measured frames s.fifo.words } := by
  have sending := h.sending (by rw [pc]; nofun)
  have due : 0 < frames → s.port.queue = [] ∨ s.Pending :=
    fun seen => h.due (by rw [Leaves, pc]; exact seen)
  constructor
  · intro many
    refine ⟨h.held, h.empty, fun some_ => .inl (sending some_), fun _ => due ?_⟩
    by_contra none_
    rw [Nat.eq_zero_of_not_pos none_, TransmitFifo.ioGetTFCNT_seen] at many
    cases many
  · refine ⟨h.held, h.empty, fun some_ => .inl (sending some_), ?_⟩
    rintro (some_ | some_)
    · exact due some_
    · exact .inr (.inr (.inr (.inr ⟨sending some_, some_⟩)))

/-- Nothing is written to the FIFO only when there is nothing to write, or it was seen to hold data. -/
private theorem fill (h : s.Inv mem) (size : mem.txSize ≤ 4088) {frames words : Nat}
    (pc : s.worker = .measured frames words) :
    let filled := fifoWriteData transmitFifo mem s.port (s.fifo.seen frames words)
    Inv mem { s with
      port := filled.2.1
      fifo := filled.2.2.1.foldl .store s.fifo
      worker := if filled.1 then .commanding else .idle } := by
  have due : 0 < frames ∨ 0 < words → s.port.queue = [] ∨ s.Pending :=
    fun seen => h.due (by rw [Leaves, pc]; exact seen)
  have sending := h.sending (by rw [pc]; nofun)
  obtain ⟨ps, held⟩ := h.held
  rcases held.fill s.fifo (s.fifo.seen frames words) with
    ⟨result, none_, same, kept⟩ | ⟨result, more, lengths, stored, -, kept⟩
  · dsimp only
    rw [result, same]
    refine ⟨⟨_, kept⟩, h.empty, fun some_ => .inl (sending some_), fun _ => ?_⟩
    cases ps with
    | nil => exact .inl (kept.queue_eq_nil.mpr rfl)
    | cons piece ps =>
      -- What is refused was refused because the FIFO was seen to hold something.
      have seen : 0 < frames ∨ 0 < words := by
        by_contra nothing
        obtain ⟨rfl, rfl⟩ : frames = 0 ∧ words = 0 := by omega
        rw [TransmitFifo.ioGetTXCNT_seen, TransmitFifo.ioGetTFCNT_seen] at none_
        have some_ := @takenFor_emptied mem ps 0 (Nat.zero_le _) piece (held.short piece (.head _)) size
        rw [none_] at some_
        exact Nat.lt_irrefl 0 some_
      refine .inr ((due seen).resolve_left fun none_ => ?_)
      cases held.queue_eq_nil.mp none_
  · dsimp only
    rw [result, stored]
    refine ⟨⟨_, kept⟩, fun none_ => ?_, fun _ => .inr rfl, fun none_ => ?_⟩
    · exact absurd none_ (Nat.succ_ne_zero _)
    · exact absurd (show s.fifo.words + (more + 1) = 0 from none_) (Nat.succ_ne_zero _)

private theorem command (h : s.Inv mem) (pc : s.worker = .commanding)
    (met : cfg.ignoreTimeout = true ∨ s.fifo.clock = true ∨ s.fifo.sending = true ∨ s.fifo.words = 0) :
    Inv mem { s with
      fifo := (issued (ioExecuteTransmit transmitFifo cfg false s.fifo).1).foldl .store s.fifo
      worker := .idle } := by
  -- With nothing in the FIFO the command does nothing, so that something else is due.
  have due : s.fifo.words = 0 → s.port.queue = [] ∨ s.Pending :=
    fun seen => h.due (by rw [Leaves, pc]; exact seen)
  rcases @TransmitFifo.store_command cfg s.fifo with given | ⟨refused, check, clock⟩
  · rw [given]
    refine ⟨h.held, h.empty, fun some_ => .inl (decide_eq_true some_), fun _ => ?_⟩
    -- The transmitter has words to send, and its interrupt will come.
    by_cases some_ : 0 < s.fifo.words
    · exact .inr (.inr (.inr (.inr ⟨decide_eq_true some_, some_⟩)))
    · refine (due (Nat.eq_zero_of_not_pos some_)).imp_right ?_
      rintro (leaving | scheduled | irq | ⟨-, words⟩)
      · exact .inl leaving
      · exact .inr (.inl scheduled)
      · exact .inr (.inr (.inl irq))
      · exact absurd words some_
  · -- A command that is refused finds the transmitter sending, or nothing to send.
    rw [refused]
    have sending : 0 < s.fifo.words → s.fifo.sending = true := by
      intro some_
      rcases met with ignore | present | sending | none_
      · rw [ignore] at check
        cases check
      · rw [present] at clock
        cases clock
      · exact sending
      · omega
    refine ⟨h.held, h.empty, fun some_ => .inl (sending some_), fun _ => ?_⟩
    by_cases some_ : 0 < s.fifo.words
    · exact .inr (.inr (.inr (.inr ⟨sending some_, some_⟩)))
    · exact due (Nat.eq_zero_of_not_pos some_)

/-- While words are left the transmitter goes on, and with the last of them it raises its interrupt. -/
private theorem send (h : s.Inv mem) {words frames : Nat} (enough : words ≤ s.fifo.words)
    (last : words = s.fifo.words → frames = s.fifo.frames) :
    Inv mem { s with
      fifo := { s.fifo with
        words := s.fifo.words - words
        frames := s.fifo.frames - frames
        sending := decide (words < s.fifo.words)
        irq := s.fifo.irq || decide (words = s.fifo.words) } } := by
  refine ⟨h.held, fun none_ => ?_, fun some_ => ?_, fun _ => .inr ?_⟩
  · dsimp only at none_ ⊢
    rw [last (by omega), Nat.sub_self]
  · dsimp only at some_
    exact .inl (decide_eq_true (by omega))
  -- With the last word the interrupt is raised, else the transmitter goes on.
  · by_cases all : words = s.fifo.words
    · exact .inr (.inr (.inl (by simp [all])))
    · refine .inr (.inr (.inr ⟨decide_eq_true (by omega), ?_⟩))
      dsimp only
      omega

private theorem purge (h : s.Inv mem) (fifo : cfg.isDma = false) :
    Inv mem { s with
      port := (ioPurgeTx transmitFifo cfg s.port s.fifo).1
      fifo := (ioPurgeTx transmitFifo cfg s.port s.fifo).2.1.foldl .store s.fifo } := by
  obtain ⟨ps, held⟩ := h.held
  -- The queue is emptied, whatever becomes of the command.
  have reset : HoldsQueue mem (txCall transmitFifo cfg mem (.purge s.fifo) s.port).2 [] :=
    (held.call cfg (.purge s.fifo)).2
  rw [txCall] at reset
  have none_ := reset.queue_eq_nil.mpr rfl
  rcases TransmitFifo.store_purge fifo s.port s.fifo with emptied | refused
  · rw [emptied]
    exact ⟨⟨[], reset⟩, fun _ => rfl, fun some_ => absurd some_ (Nat.lt_irrefl 0),
      fun _ => .inl none_⟩
  · rw [refused]
    exact ⟨⟨[], reset⟩, h.empty, h.told, fun _ => .inl none_⟩

private theorem step (h : s.Inv mem) (fifo : cfg.isDma = false) (size : mem.txSize ≤ 4088)
    {e : TransmitEvent} (met : Commanded cfg s e) (stepped : (transmitMachine cfg mem).step s e = some t) :
    t.Inv mem := by
  cases e with
  | write buf alloc unmovedBytes =>
    obtain ⟨fits, eq⟩ := Option.ite_none_right_eq_some.mp stepped
    obtain rfl := Option.some.inj eq
    exact h.write fits alloc unmovedBytes
  -- The write schedules the worker on its way out.
  | leave =>
    obtain ⟨-, eq⟩ := Option.ite_none_right_eq_some.mp stepped
    obtain rfl := Option.some.inj eq
    exact ⟨h.held, h.empty, h.told, fun _ => .inr (.inr (.inl rfl))⟩
  | interrupt other =>
    obtain ⟨schedules, served, rfl⟩ := Option.map_eq_some_iff.mp stepped
    rw [fifo] at served
    exact h.interrupt served
  | tasklet =>
    obtain ⟨guard, eq⟩ := Option.ite_none_right_eq_some.mp stepped
    obtain rfl := Option.some.inj eq
    exact h.tasklet guard.2
  | measure =>
    simp only [transmitMachine] at stepped
    split at stepped
    next frames pc =>
      obtain ⟨stops, goes⟩ := h.measure pc
      split at stepped
      next many =>
        obtain rfl := Option.some.inj stepped
        exact stops many
      next =>
        obtain rfl := Option.some.inj stepped
        exact goes
    next => cases stepped
  | fill =>
    simp only [transmitMachine] at stepped
    split at stepped
    next frames words pc =>
      obtain rfl := Option.some.inj stepped
      exact h.fill size pc
    next => cases stepped
  | command =>
    obtain ⟨pc, eq⟩ := Option.ite_none_right_eq_some.mp stepped
    obtain rfl := Option.some.inj eq
    exact h.command pc met
  | send words frames =>
    obtain ⟨⟨-, enough, -, last⟩, eq⟩ := Option.ite_none_right_eq_some.mp stepped
    obtain rfl := Option.some.inj eq
    exact h.send enough last
  -- The clock decides about commands only.
  | clock present =>
    obtain rfl := Option.some.inj stepped
    exact ⟨h.held, h.empty, h.told, h.due⟩
  | purge =>
    obtain rfl := Option.some.inj stepped
    exact h.purge fifo

end Inv

end TransmitSystem

variable {cfg mem} {s : TransmitSystem}

private theorem inv_of_reached (fifo : cfg.isDma = false) (size : mem.txSize ≤ 4088)
    (reached : (transmitMachine cfg mem).ReachedUnder (Commanded cfg) s) : s.Inv mem :=
  reached.invariant (fun _ => .initial) fun _ _ _ h met stepped => h.step fifo size met stepped

/-- A ring with nothing queued has all its space. -/
private theorem HoldsQueue.space_of_empty {p : TxPort} {ps : List Piece} (h : HoldsQueue mem p ps)
    (empty : p.queue = []) : userGetTxSpace mem p = mem.txNum * mem.txSize := by
  rw [h.space, h.queue_eq_nil.mp empty]
  rfl

/-- In every run in which no command to transmit is refused while the FIFO holds data that the transmitter
has not been told to send, a transmission is on its way whenever anything is queued. -/
theorem transmission_on_its_way (fifo : cfg.isDma = false) (size : mem.txSize ≤ 4088)
    (reached : (transmitMachine cfg mem).ReachedUnder (Commanded cfg) s)
    (queued : userGetTxSpace mem s.port < mem.txNum * mem.txSize) : s.OnItsWay := by
  have inv := inv_of_reached fifo size reached
  by_contra stuck
  obtain ⟨running, pending⟩ := not_or.mp stuck
  have idle := not_not.mp running
  have empty := (inv.due (by rw [TransmitSystem.Leaves, idle]; trivial)).resolve_right pending
  obtain ⟨ps, held⟩ := inv.held
  rw [held.space_of_empty empty] at queued
  exact Nat.lt_irrefl _ queued

/-! ### Completion -/

/-- What happens by itself once the last write has queued its frame: nothing is written or purged, the
clock stays as it is, the only interrupts are the transmitter's, and it sends something when it sends. -/
def TransmitEvent.own : TransmitEvent → Prop
  | .leave | .tasklet | .measure | .fill | .command => True
  | .interrupt other => other = 0#32
  | .send words _ => 0 < words
  | .write _ _ _ | .clock _ | .purge => False

/-- How far the worker has to go. -/
def OframePc.toGo : OframePc → Nat
  | .idle => 0
  | .counted _ => 3
  | .measured _ _ => 2
  | .commanding => 1

namespace TransmitSystem

/-- What is still to be done of what is pending. -/
def toDo (s : TransmitSystem) : Nat :=
  5 * s.leaving + 5 * s.fifo.irq.toNat + 4 * s.scheduled.toNat + s.worker.toGo

/-- What is still to be sent comes first. -/
def toSend (s : TransmitSystem) : Nat ×ₗ Nat ×ₗ Nat :=
  toLex (s.port.queue.length, toLex (s.fifo.words, s.toDo))

variable {t : TransmitSystem}

private theorem toSend_lt_of_toDo (queue : t.port.queue.length = s.port.queue.length)
    (words : t.fifo.words = s.fifo.words)
    (less : t.toDo < s.toDo) : t.toSend < s.toSend := by
  rw [toSend, toSend, queue, words]
  exact Prod.Lex.toLex_lt_toLex.mpr (.inr ⟨rfl, Prod.Lex.toLex_lt_toLex.mpr (.inr ⟨rfl, less⟩)⟩)

private theorem toSend_lt_of_words (queue : t.port.queue = s.port.queue)
    (less : t.fifo.words < s.fifo.words) :
    t.toSend < s.toSend := by
  rw [toSend, toSend, queue]
  exact Prod.Lex.toLex_lt_toLex.mpr (.inr ⟨rfl, Prod.Lex.toLex_lt_toLex.mpr (.inl less)⟩)

private theorem toSend_lt_of_queue (less : t.port.queue.length < s.port.queue.length) :
    t.toSend < s.toSend :=
  Prod.Lex.toLex_lt_toLex.mpr (.inl less)

/-- The fill takes frames from the queue, or finishes the worker's turn. -/
private theorem toSend_fill (held : ∃ ps, HoldsQueue mem s.port ps) {frames words : Nat}
    (pc : s.worker = .measured frames words) :
    let filled := fifoWriteData transmitFifo mem s.port (s.fifo.seen frames words)
    let t : TransmitSystem := { s with
      port := filled.2.1
      fifo := filled.2.2.1.foldl .store s.fifo
      worker := if filled.1 then .commanding else .idle }
    (∃ ps, HoldsQueue mem t.port ps) ∧ t.toSend < s.toSend := by
  obtain ⟨ps, held⟩ := held
  rcases held.fill s.fifo (s.fifo.seen frames words) with
    ⟨result, -, same, kept⟩ | ⟨-, -, -, -, some_, kept⟩
  · refine ⟨⟨ps, kept⟩, toSend_lt_of_toDo ?_ (by rw [same]) ?_⟩
    · exact (HoldsQueue.length_queue kept).trans held.length_queue.symm
    · rw [toDo, toDo, same, result, pc]
      simp [OframePc.toGo]
  · refine ⟨⟨_, kept⟩, toSend_lt_of_queue ?_⟩
    -- Something was taken, and the queue was not empty.
    have taken := (takenFor_first (ioGetTFCNT transmitFifo (s.fifo.seen frames words)).1
      (ioGetTXCNT transmitFifo (s.fifo.seen frames words)).1 ps).length_le
    have left := HoldsQueue.length_queue kept
    rw [List.length_drop] at left
    have before := held.length_queue
    dsimp only at left ⊢
    omega

/-- Given or refused, the command is the worker's last step. -/
private theorem toSend_command (pc : s.worker = .commanding) :
    toSend { s with
      fifo := (issued (ioExecuteTransmit transmitFifo cfg false s.fifo).1).foldl .store s.fifo
      worker := .idle } < s.toSend := by
  rcases @TransmitFifo.store_command cfg s.fifo with given | ⟨refused, -⟩
  · refine toSend_lt_of_toDo rfl (by rw [given]) ?_
    rw [toDo, toDo, given, pc]
    simp [OframePc.toGo]
  · refine toSend_lt_of_toDo rfl (by rw [refused]) ?_
    rw [toDo, toDo, refused, pc]
    simp [OframePc.toGo]

/-- Each of these events brings the end nearer. -/
private theorem toSend_lt (held : ∃ ps, HoldsQueue mem s.port ps) {e : TransmitEvent} (own : e.own)
    (stepped : (transmitMachine cfg mem).step s e = some t) :
    (∃ ps, HoldsQueue mem t.port ps) ∧ t.toSend < s.toSend := by
  cases e with
  | write => cases own
  | leave =>
    obtain ⟨some_, eq⟩ := Option.ite_none_right_eq_some.mp stepped
    obtain rfl := Option.some.inj eq
    refine ⟨held, toSend_lt_of_toDo rfl rfl ?_⟩
    simp only [toDo, Bool.toNat_true]
    omega
  | interrupt other =>
    obtain rfl : other = 0#32 := own
    obtain ⟨schedules, served, rfl⟩ := Option.map_eq_some_iff.mp stepped
    -- Without an interrupt of the transmitter there is none.
    have irq : s.fifo.irq = true := by
      by_contra none_
      rw [if_neg none_, isr, if_pos (by decide)] at served
      cases served
    refine ⟨held, toSend_lt_of_toDo rfl rfl ?_⟩
    have most := Bool.toNat_le (s.scheduled || schedules.oframe)
    simp only [toDo, irq, Bool.toNat_true, Bool.toNat_false]
    omega
  | tasklet =>
    obtain ⟨⟨scheduled, idle⟩, eq⟩ := Option.ite_none_right_eq_some.mp stepped
    obtain rfl := Option.some.inj eq
    refine ⟨held, toSend_lt_of_toDo rfl rfl ?_⟩
    simp only [toDo, scheduled, idle, OframePc.toGo, Bool.toNat_true, Bool.toNat_false]
    omega
  | measure =>
    simp only [transmitMachine] at stepped
    split at stepped
    next frames pc =>
      split at stepped
      all_goals
        obtain rfl := Option.some.inj stepped
        refine ⟨held, toSend_lt_of_toDo rfl rfl ?_⟩
        simp only [toDo, pc, OframePc.toGo]
        omega
    next => cases stepped
  | fill =>
    simp only [transmitMachine] at stepped
    split at stepped
    next frames words pc =>
      obtain rfl := Option.some.inj stepped
      exact toSend_fill held pc
    next => cases stepped
  | command =>
    obtain ⟨pc, eq⟩ := Option.ite_none_right_eq_some.mp stepped
    obtain rfl := Option.some.inj eq
    exact ⟨held, toSend_command pc⟩
  | send words frames =>
    obtain ⟨⟨-, enough, -, -⟩, eq⟩ := Option.ite_none_right_eq_some.mp stepped
    obtain rfl := Option.some.inj eq
    have some_ : 0 < words := own
    refine ⟨held, toSend_lt_of_words rfl ?_⟩
    dsimp only
    omega
  | clock => cases own
  | purge => cases own

/-- When none of them can happen, the worker is idle and nothing is pending. -/
private theorem idle_of_ended
    (ended : ∀ e : TransmitEvent, e.own → (transmitMachine cfg mem).step s e = none)
    (fifo : cfg.isDma = false) : s.worker = .idle ∧ ¬s.Pending := by
  -- The worker can always take its next step.
  have idle : s.worker = .idle := by
    cases pc : s.worker with
    | idle => rfl
    | counted frames =>
      have none_ := ended .measure trivial
      simp only [transmitMachine, pc] at none_
      split at none_ <;> cases none_
    | measured frames words =>
      have none_ := ended .fill trivial
      simp only [transmitMachine, pc] at none_
      cases none_
    | commanding =>
      have none_ := ended .command trivial
      simp [transmitMachine, pc] at none_
  refine ⟨idle, ?_⟩
  -- Each of the four things that may be pending is a step of its own.
  rintro (leaving | scheduled | irq | ⟨sending, some_⟩)
  · have none_ := ended .leave trivial
    simp [transmitMachine, leaving] at none_
  · have none_ := ended .tasklet trivial
    simp [transmitMachine, scheduled, idle] at none_
  · have none_ := ended (.interrupt 0#32) rfl
    simp only [transmitMachine, irq, if_true, fifo, Option.map_eq_none_iff] at none_
    revert none_
    decide
  · have none_ := ended (.send s.fifo.words s.fifo.frames) some_
    simp [transmitMachine, sending] at none_

end TransmitSystem

/-- Without further writes and purges every run comes to an end, in whatever order its steps are taken;
and when it cannot go on, everything queued has been sent. -/
theorem transmission_completes (fifo : cfg.isDma = false) (size : mem.txSize ≤ 4088)
    (reached : (transmitMachine cfg mem).ReachedUnder (Commanded cfg) s) :
    ¬(transmitMachine cfg mem).Endless TransmitEvent.own s ∧
      ∀ (es : List TransmitEvent) (t : TransmitSystem), (∀ e ∈ es, e.own) →
        (transmitMachine cfg mem).Met (Commanded cfg) s es →
        (transmitMachine cfg mem).replay s es = some t →
        (∀ e : TransmitEvent, e.own → (transmitMachine cfg mem).step t e = none) →
        userGetTxSpace mem t.port = mem.txNum * mem.txSize ∧ t.fifo.words = 0 := by
  have inv := inv_of_reached fifo size reached
  constructor
  · exact Machine.not_endless TransmitSystem.toSend
      (P := fun s => ∃ ps, HoldsQueue mem s.port ps)
      (fun _ _ _ h own stepped => TransmitSystem.toSend_lt h own stepped) inv.held
  · intro es t _ met replayed ended
    have last := inv_of_reached fifo size (reached.replay es met replayed)
    obtain ⟨idle, pending⟩ := TransmitSystem.idle_of_ended ended fifo
    obtain ⟨ps, held⟩ := last.held
    -- The invariant says that an idle worker leaves something queued only if something is pending.
    have empty := (last.due (by rw [TransmitSystem.Leaves, idle]; trivial)).resolve_right pending
    refine ⟨held.space_of_empty empty, ?_⟩
    -- Words in the FIFO would have the transmitter sending, which is pending as well.
    by_contra some_
    have words := Nat.pos_of_ne_zero some_
    exact pending (.inr (.inr (.inr ⟨last.sending (by rw [idle]; nofun) words, words⟩)))

/-! ### Two frames -/

private theorem commanded_ignore (ignore : cfg.ignoreTimeout = true) (e : TransmitEvent)
    (s : TransmitSystem) :
    Commanded cfg s e := by
  cases e with
  | command => exact .inl ignore
  | _ => trivial

/-- A fresh port with a clock and an empty FIFO. -/
def beforeTransmission : TransmitSystem where
  port := freshTx .small [4096, 8192]
  fifo := ⟨0, 0, false, false, true⟩
  worker := .idle
  scheduled := false
  leaving := 0

/-- Two frames are written, and the first goes into the FIFO. -/
def firstOfTwo : List TransmitEvent :=
  [.write [1] true 0, .write [2] true 0, .leave, .leave, .tasklet, .measure, .fill]

private theorem beforeTransmission_init (cfg : PortConfig) :
    (transmitMachine cfg .small).init beforeTransmission :=
  ⟨fresh_freshTx .small rfl, rfl, rfl, rfl, rfl, rfl⟩

private theorem reached_firstOfTwo {s : TransmitSystem}
    (replayed : (transmitMachine fifoConfig .small).replay beforeTransmission
      (firstOfTwo ++ [.command]) = some s) :
    (transmitMachine fifoConfig .small).ReachedUnder (Commanded fifoConfig) s :=
  .replay (.init (beforeTransmission_init _)) _
    (Machine.met_of_mem (fun e _ s => commanded_ignore rfl e s) _) replayed

/-- While the first frame is sent, nothing is scheduled for the second. -/
theorem transmission_on_its_way_two :
    ∃ s, (transmitMachine fifoConfig .small).replay beforeTransmission (firstOfTwo ++ [.command]) =
        some s ∧
      userGetTxSpace .small s.port = 4 ∧ s.scheduled = false ∧ s.OnItsWay := by
  obtain ⟨s, replayed, space, scheduled⟩ : ∃ s, (transmitMachine fifoConfig .small).replay
      beforeTransmission (firstOfTwo ++ [.command]) = some s ∧
      userGetTxSpace .small s.port = 4 ∧ s.scheduled = false := ⟨_, rfl, by decide, rfl⟩
  exact ⟨s, replayed, space, scheduled, transmission_on_its_way rfl (by decide)
    (reached_firstOfTwo replayed) (by rw [space]; decide)⟩

theorem transmission_completes_two :
    ∃ s, (transmitMachine fifoConfig .small).replay beforeTransmission (firstOfTwo ++ [.command]) =
        some s ∧
      ¬(transmitMachine fifoConfig .small).Endless TransmitEvent.own s ∧
      ∀ (es : List TransmitEvent) (t : TransmitSystem), (∀ e ∈ es, e.own) →
        (transmitMachine fifoConfig .small).Met (Commanded fifoConfig) s es →
        (transmitMachine fifoConfig .small).replay s es = some t →
        (∀ e : TransmitEvent, e.own → (transmitMachine fifoConfig .small).step t e = none) →
        userGetTxSpace .small t.port = 8 ∧ t.fifo.words = 0 := by
  obtain ⟨s, replayed⟩ : ∃ s, (transmitMachine fifoConfig .small).replay beforeTransmission
      (firstOfTwo ++ [.command]) = some s := ⟨_, rfl⟩
  exact ⟨s, replayed, transmission_completes rfl (by decide) (reached_firstOfTwo replayed)⟩

/-- The clock goes before the command is given: the second frame waits for nothing. -/
theorem transmission_stuck :
    ∃ s, (transmitMachine ⟨false, 0, 0, false⟩ .small).Reached s ∧
      userGetTxSpace .small s.port = 4 ∧ s.fifo.words = 1 ∧ ¬s.OnItsWay := by
  have run : ∃ s, (transmitMachine ⟨false, 0, 0, false⟩ .small).replay beforeTransmission
      (firstOfTwo ++ [.clock false, .command]) = some s ∧
      userGetTxSpace .small s.port = 4 ∧ s.fifo.words = 1 ∧ s.worker = .idle ∧ s.leaving = 0 ∧
      s.scheduled = false ∧ s.fifo.irq = false ∧ s.fifo.sending = false :=
    ⟨_, rfl, by decide, by decide, by decide, by decide, by decide, by decide, by decide⟩
  obtain ⟨s, replayed, space, words, idle, leaving, scheduled, irq, sending⟩ := run
  refine ⟨s, .replay (.init (beforeTransmission_init _)) _ replayed, space, words, ?_⟩
  simp [TransmitSystem.OnItsWay, TransmitSystem.Pending, idle, leaving, scheduled, irq, sending]

end Fscc
