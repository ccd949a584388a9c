import Fscc.RxDelivery
import Fscc.TxDelivery

/-!
# Two ports and the line between them

What is written to one port, in FIFO mode, and what is read from another that it is connected to. The
transmitter puts a frame on the line some time after it is whole in its FIFO; the receiver adds the two
bytes of its status. The line itself loses and corrupts nothing.
-/

namespace Fscc

variable {δ : Type} (dev : Device δ) (cfg : PortConfig) {txMem rxMem : Memory}

/-! ### The transmitter -/

/-- The frames that are whole in a transmit FIFO, by the bytes and the lengths it was given. -/
def wholeFrames : List UInt8 → List Nat → List (List UInt8)
  | _, [] => []
  | bytes, n :: ns =>
    if Receiver.roundUp n ≤ bytes.length then
      bytes.take n :: wholeFrames (bytes.drop (Receiver.roundUp n)) ns
    else []

private theorem SentFrame.length_padded (w : SentFrame) :
    w.padded.length = Receiver.roundUp w.data.length := by
  have short := w.short
  have words := w.words
  rw [SentFrame.padded, List.length_append, Receiver.roundUp]
  omega

private theorem wholeFrames_padded (w : SentFrame) (bytes : List UInt8) (lengths : List Nat) :
    wholeFrames (w.padded ++ bytes) (w.data.length :: lengths) =
      w.data :: wholeFrames bytes lengths := by
  have room : Receiver.roundUp w.data.length ≤ (w.padded ++ bytes).length := by
    rw [List.length_append, w.length_padded]
    omega
  rw [wholeFrames, if_pos room, ← w.length_padded, List.drop_left]
  congr 1
  rw [SentFrame.padded, List.append_assoc, List.take_left]

/-- Of a frame that is begun, nothing is sent yet. -/
private theorem wholeFrames_begun {queued rest : List (List UInt8)} {bytes started : List UInt8}
    {lengths : List Nat} {sent : List SentFrame}
    (h : Transmitted queued bytes lengths sent started rest) :
    wholeFrames bytes lengths = sent.map SentFrame.data := by
  obtain ⟨rfl, rfl, begun, rfl⟩ := h
  induction sent with
  | nil =>
    rcases begun with rfl | ⟨next, more, rfl, -, short, -⟩
    · simp [wholeFrames]
    · by_cases none_ : started = []
      · simp [none_, wholeFrames]
      · have room : ¬Receiver.roundUp next.length ≤ started.length := by
          rw [Receiver.roundUp]
          omega
        simp [none_, wholeFrames, room]
  | cons w sent ih =>
    rw [List.map_cons, List.cons_append, List.length_cons, Nat.add_right_comm, List.take_succ_cons,
      List.map_cons, List.flatMap_cons, List.append_assoc, wholeFrames_padded, ih]

/-- What is whole in the FIFO are the first frames written. -/
private theorem TxSystem.Inv.wholeFrames {s : TxSystem} (h : s.Inv txMem) :
    Fscc.wholeFrames (fifoBytes s.log) (frameLengths s.log) <+: s.queued := by
  obtain ⟨free, queued, pushed, left, -, -, shape, bytes, lengths⟩ := h.flight
  obtain ⟨sent, started, rest, sending⟩ := transmitted_of_stored h.pos shape bytes
  rw [lengths, wholeFrames_begun sending]
  exact ⟨rest, sending.frames.symm⟩

private theorem wholeFrames_stored {frames : List (List UInt8)} (pos : ∀ f ∈ frames, 0 < f.length)
    {bytes : List UInt8} (stored : Stored (frames.flatMap (pieces txMem)) bytes) :
    wholeFrames bytes ((frames.flatMap (pieces txMem)).filterMap Piece.total) = frames := by
  induction frames generalizing bytes with
  | nil => simp [wholeFrames]
  | cons frame frames ih =>
    have long := pos frame (.head _)
    obtain ⟨p, ps, head, total, none_⟩ : ∃ p ps, pieces txMem frame = p :: ps ∧ _ :=
      total_pieces long
    rw [List.flatMap_cons] at stored ⊢
    obtain ⟨first, second, rfl, own, other⟩ := stored.split
    obtain ⟨w, rfl, rfl⟩ := own.frame long
    rw [List.filterMap_append, head, List.filterMap_cons_some total, none_, List.cons_append,
      List.nil_append, wholeFrames_padded, ih (fun f member => pos f (.tail _ member)) other]

/-- When the ring is empty, every frame written is whole in the FIFO. -/
private theorem TxSystem.Inv.wholeFrames_all {s : TxSystem} (h : s.Inv txMem)
    (empty : userGetTxSpace txMem s.port = txMem.txNum * txMem.txSize) :
    Fscc.wholeFrames (fifoBytes s.log) (frameLengths s.log) = s.queued := by
  obtain ⟨free, queued, pushed, left, ring, carried, shape, bytes, lengths⟩ := h.flight
  have sum := ring.length_add
  rw [ring.userGetTxSpace] at empty
  have all : free.length = txMem.txNum := Nat.eq_of_mul_eq_mul_right txMem.txSize_pos empty
  obtain rfl : queued = [] := List.length_eq_zero_iff.mp (by omega)
  cases carried
  rw [List.append_nil] at shape
  rw [lengths, ← shape]
  rw [← shape] at bytes
  exact wholeFrames_stored h.pos bytes

/-! ### The receiver -/

/-- What is received of a frame but for its status. -/
def WireFrame.payload (w : WireFrame) : List UInt8 := w.data.take (w.length - 2)

private theorem WireFrame.length_payload (w : WireFrame) : w.payload.length + 2 = w.length := by
  have status := w.status
  rw [WireFrame.payload, List.length_take, WireFrame.length]
  omega

/-- A frame is put on the line, behind those that are on it. -/
def Receiver.wire (r : Receiver) (w : WireFrame) : Receiver := { r with line := r.line ++ [w] }

/-- Between frames, nothing of the next has arrived. -/
def Receiver.Between (r : Receiver) : Prop := r.line = [] → r.arrived = 0

namespace Receiver

variable {r : Receiver}

private theorem Between.arrival (h : r.Between) (a : Arrival) : (r.arrival a).Between := by
  cases a with
  | bytes n =>
    cases line : r.line with
    | nil => simpa [Receiver.arrival, arriveBytes, line] using h
    | cons w rest =>
      intro none_
      simp [Receiver.arrival, arriveBytes, line] at none_
  | complete =>
    cases line : r.line with
    | nil => simpa [Receiver.arrival, arriveEnd, line] using h
    | cons w rest =>
      simp only [Receiver.arrival, arriveEnd, line]
      split
      · exact fun _ => rfl
      · exact h
  | tick now => exact h

private theorem keeps_between : receiver.Keeps Between := by
  refine ⟨fun offset x h => ?_, fun x h => h, fun x h => h⟩
  simp only [receiver, getRegister]
  split
  · exact h
  · split
    · exact h
    · split <;> exact h

private theorem Between.drain (h : r.Between) (p : RxPort) :
    (fifoReadData receiver rxMem p r).2.Between := by
  have pass (p : RxPort) (r : Receiver) (h : r.Between) : (fifoReadPass receiver rxMem p r).2.Between :=
    keeps_between.finish rxMem _ (keeps_between.fetch rxMem p.load h)
  exact fifoReadLoop_rule receiver rxMem (P := fun _ _ r => r.Between) (Q := fun _ r => r.Between)
    (fun _ _ h => h) (fun _ _ _ h _ => h) (fun _ p r h _ _ => pass p r h) (fun _ p r h _ _ => pass p r h) h

private theorem front_wire (between : r.Between) (w : WireFrame) : (r.wire w).front = r.front := by
  cases line : r.line with
  | nil => simp [Receiver.wire, front, line, between line]
  | cons x rest => simp [Receiver.wire, front, line]

end Receiver

/-- What is on its way to the ring stays as it is when a further frame is put on the line. -/
private theorem Incoming.wire {old : List UInt8} {size : Int} {r : Receiver} {pending : List WireFrame}
    (h : Incoming old size r pending) (between : r.Between) (w : WireFrame) :
    Incoming old size (r.wire w) pending where
  bytes := by
    rw [Receiver.front_wire between]
    exact h.bytes
  lengths := h.lengths
  behind := by
    intro x member
    -- The first frame on the line stays the first, or it is this one and nothing has arrived of it.
    have first : (pending ++ r.line ++ [w]).head? = some x := by simpa [Receiver.wire] using member
    cases waiting : pending ++ r.line with
    | cons y rest =>
      rw [waiting] at first
      exact h.behind x (by simpa [waiting] using first)
    | nil =>
      obtain ⟨rfl, line⟩ := List.append_eq_nil_iff.mp waiting
      have bytes := congrArg List.length h.bytes
      have status := x.status
      simp only [Receiver.front, line, List.flatMap_nil, List.append_nil, List.length_append,
        List.length_nil] at bytes
      rw [WireFrame.length]
      omega
  ok := by
    -- The new frame goes behind those on the line.
    refine ⟨h.ok.fifo, h.ok.lengths, fun x rest line => ?_⟩
    cases before : r.line with
    | nil =>
      obtain ⟨rfl, -⟩ : w = x ∧ [] = rest := by simpa [Receiver.wire, before] using line
      have status := w.status
      change r.arrived + 2 ≤ w.data.length
      rw [between before]
      omega
    | cons y more =>
      obtain ⟨rfl, -⟩ : y = x ∧ more ++ [w] = rest := by simpa [Receiver.wire, before] using line
      exact h.ok.opened y more before

private theorem InFlight.wire {ws : List WireFrame} {p : RxPort} {r : Receiver}
    (h : InFlight rxMem ws p r)
    (between : r.Between) (w : WireFrame) : InFlight rxMem ws p (r.wire w) := by
  obtain ⟨groups, part, free, held, pending, split, carried⟩ := h
  exact ⟨groups, part, free, held, pending, split, carried.framed, carried.whole, carried.content,
    carried.incoming.wire between w⟩

/-- When the FIFO is empty and no frame is ready, nothing is in flight. -/
private theorem InFlight.none_left {ws : List WireFrame} {p : RxPort} {r : Receiver}
    (h : InFlight rxMem ws p r) (fifo : r.fifo = [])
    (read : ioUserReadReady rxMem false p = false) : ws = [] := by
  obtain ⟨groups, part, free, held, pending, rfl, framed, whole, content, incoming⟩ := h
  have none_ : groups = [] := by
    cases groups with
    | nil => rfl
    | cons g gs =>
      have ready := framed.ring.nextReadSize_cons
      simp [ioUserReadReady, ready] at read
  have handed : held = [] := by simpa [none_] using content.symm
  cases pending with
  | nil => simp [handed]
  | cons w more =>
    have bytes := congrArg List.length incoming.bytes
    have behind := incoming.behind w (by simp)
    have padded := w.length_padded
    simp only [fifo, List.append_nil, List.flatMap_cons, List.length_append] at bytes
    omega


/-! ### Both ends -/

/-- A read that returned whole frames as they were written, each with its status if that is asked for. -/
def Returned (call : ReadCall) (frames : List (List UInt8)) : Prop :=
  match call.result with
  | .error e => e = .enobufs ∧ frames = []
  | .ok out => frames ≠ [] ∧ (call.settings.rxMultiple = false → frames.length = 1) ∧
      ∃ statuses : List (List UInt8), statuses.length = frames.length ∧
        (∀ status ∈ statuses, status.length = if call.settings.appendStatus then 2 else 0) ∧
        out = (List.zipWith (· ++ ·) frames statuses).flatten

private theorem returned_of_delivered {call : ReadCall} {ws : List WireFrame} (h : Delivered call ws) :
    Returned call (ws.map WireFrame.payload) := by
  obtain ⟨settings, bufLength, result⟩ := call
  cases result with
  | error e =>
    obtain ⟨rfl, rfl⟩ := h
    exact ⟨rfl, rfl⟩
  | ok out =>
    obtain ⟨some_, one, eq⟩ := h
    dsimp only at eq
    refine ⟨by simpa using some_, by simpa using one, ?_⟩
    refine ⟨ws.map fun w => (w.data.drop (w.length - 2)).take (2 - settings.statusLength),
      by simp, ?_, ?_⟩
    · intro status member
      obtain ⟨w, -, rfl⟩ := List.mem_map.mp member
      have long := w.status
      rw [List.length_take, List.length_drop, Settings.statusLength, WireFrame.length]
      split <;> omega
    · rw [eq, List.flatMap_def, List.zipWith_map, List.zipWith_self]
      congr 2
      funext w
      have long := w.length_payload
      have whole : w.length - settings.statusLength = w.length - 2 + (2 - settings.statusLength) := by
        rw [Settings.statusLength]
        split <;> omega
      rw [whole, List.take_add]
      rfl

/-- The writing end, the reading end, and how many frames have been put on the line. -/
structure Loopback where
  tx : TxSystem
  rx : RxSystem
  wired : Nat

/-- What happens at either end, or a frame that is put on the line, with its status and padding. -/
inductive LoopbackEvent (δ : Type) where
  | tx (e : TxEvent δ)
  | wire (w : WireFrame)
  | rx (e : RxEvent)

variable (txMem rxMem)

/-- Writes, transmit tasklets, frames put on the line, arrivals, drains and reads, in any order. -/
def loopback : Machine Loopback (LoopbackEvent δ) where
  init s := (txSystem dev cfg txMem).init s.tx ∧ (rxSystem rxMem []).init s.rx ∧ s.wired = 0
  step s
    | .tx e => ((txSystem dev cfg txMem).step s.tx e).map fun tx => { s with tx := tx }
    | .wire w =>
      if (wholeFrames (fifoBytes s.tx.log) (frameLengths s.tx.log))[s.wired]? = some w.payload then
        some { s with rx := { s.rx with receiver := s.rx.receiver.wire w }, wired := s.wired + 1 }
      else none
    | .rx e => ((rxSystem rxMem []).step s.rx e).map fun rx => { s with rx := rx }

/-- Nothing is left on the way: in the transmit ring, in its FIFO, on the line, in the receive FIFO, and
in the receive ring. -/
structure Loopback.Settled (s : Loopback) : Prop where
  ring : userGetTxSpace txMem s.tx.port = txMem.txNum * txMem.txSize
  sent : (wholeFrames (fifoBytes s.tx.log) (frameLengths s.tx.log)).length ≤ s.wired
  line : s.rx.receiver.line = []
  fifo : s.rx.receiver.fifo = []
  read : ioUserReadReady rxMem false s.rx.port = false

/-- The frames put on the line are the first that were written. -/
structure Loopback.Inv (s : Loopback) : Prop where
  tx : s.tx.Inv txMem
  rx : ∃ frames, s.rx.Inv rxMem frames ∧ frames.map WireFrame.payload = s.tx.queued.take s.wired
  wired : s.wired ≤ s.tx.queued.length
  between : s.rx.receiver.Between

/-- Every frame written has room in the receive ring, with its status. -/
def Loopback.Fits (s : Loopback) : Prop :=
  ∀ f ∈ s.tx.queued, f.length + 2 ≤ rxMem.rxNum * rxMem.rxSize

variable {txMem rxMem} {dev cfg}

private theorem queued_step {s t : TxSystem} {e : TxEvent δ}
    (stepped : (txSystem dev cfg txMem).step s e = some t) :
    s.queued <+: t.queued := by
  cases e with
  | write buf alloc unmovedBytes d =>
    obtain ⟨-, eq⟩ := Option.ite_none_right_eq_some.mp stepped
    obtain rfl := Option.some.inj eq
    cases alloc with
    | true => exact List.prefix_append _ _
    | false => exact List.prefix_rfl
  | transmit d =>
    obtain rfl := Option.some.inj stepped
    exact List.prefix_rfl

private theorem between_step {s t : RxSystem} {e : RxEvent} {frames : List WireFrame}
    (h : s.Inv rxMem frames)
    (between : s.receiver.Between)
    (stepped : (rxSystem rxMem []).step s e = some t) : t.receiver.Between := by
  cases e with
  | hardware a =>
    obtain rfl := Option.some.inj stepped
    exact between.arrival a
  | drain =>
    obtain rfl := Option.some.inj stepped
    exact between.drain s.port
  | read settings bufLength =>
    obtain ⟨guard, eq⟩ := Option.ite_none_right_eq_some.mp stepped
    obtain rfl := Option.some.inj eq
    obtain ⟨handed, ws, -, -, flight⟩ := h.flight
    obtain ⟨-, -, p, -, -, after, -⟩ := flight.read settings guard.1 guard.2.2
    rw [after]
    exact between

namespace Loopback

variable {s t : Loopback}

private theorem Inv.initial (init : (loopback dev cfg txMem rxMem).init s) : s.Inv txMem rxMem := by
  obtain ⟨tx, rx, none_⟩ := init
  refine ⟨.initial dev cfg tx, ⟨[], .initial rx, by simp [none_]⟩, by simp [none_], ?_⟩
  obtain ⟨-, idle, -⟩ := rx
  rw [idle]
  exact fun _ => rfl

private theorem Inv.wire (h : s.Inv txMem rxMem) {w : WireFrame}
    (next : (wholeFrames (fifoBytes s.tx.log) (frameLengths s.tx.log))[s.wired]? = some w.payload) :
    Loopback.Inv txMem rxMem
      { s with rx := { s.rx with receiver := s.rx.receiver.wire w }, wired := s.wired + 1 } := by
  obtain ⟨frames, rx, payloads⟩ := h.rx
  obtain ⟨rest, first⟩ := h.tx.wholeFrames
  obtain ⟨more, eq⟩ := List.getElem?_eq_some_iff.mp next
  have count : s.wired < s.tx.queued.length := by
    rw [← first, List.length_append]
    omega
  -- The next frame to leave is the next of those that the writes have queued.
  have following : s.tx.queued[s.wired]? = some w.payload := by
    rw [← first, List.getElem?_append_left more]
    exact next
  refine ⟨h.tx, ⟨frames ++ [w], ?_, ?_⟩, count, ?_⟩
  · obtain ⟨line, handed, ws, delivered, received, flight⟩ := rx
    refine ⟨?_, handed, ws, delivered, received, flight.wire h.between w⟩
    simp only [Receiver.wire]
    rw [← List.append_assoc, line]
  · rw [List.map_append, payloads, List.take_add_one, following]
    rfl
  · intro none_
    simp [Receiver.wire] at none_

private theorem Inv.step {e : LoopbackEvent δ} (h : s.Inv txMem rxMem) (fits : s.Fits rxMem)
    (stepped : (loopback dev cfg txMem rxMem).step s e = some t) (fifo : cfg.isDma = false) :
    t.Inv txMem rxMem := by
  cases e with
  -- The transmitting end only adds to what has been queued.
  | tx e =>
    obtain ⟨tx, own, rfl⟩ := Option.map_eq_some_iff.mp stepped
    obtain ⟨more, eq⟩ := queued_step own
    obtain ⟨frames, rx, payloads⟩ := h.rx
    refine ⟨h.tx.step dev cfg fifo own, ⟨frames, rx, ?_⟩, ?_, h.between⟩
    · rw [payloads, ← eq, List.take_append_of_le_length h.wired]
    · rw [← eq, List.length_append]
      have := h.wired
      dsimp only
      omega
  | wire w =>
    obtain ⟨next, eq⟩ := Option.ite_none_right_eq_some.mp stepped
    obtain rfl := Option.some.inj eq
    exact h.wire next
  | rx e =>
    obtain ⟨rx, own, rfl⟩ := Option.map_eq_some_iff.mp stepped
    obtain ⟨frames, before, payloads⟩ := h.rx
    -- A frame on the line was queued, and so fits the ring at the other end.
    have room : ∀ w ∈ frames, w.length ≤ rxMem.rxNum * rxMem.rxSize := by
      intro w member
      have written : w.payload ∈ s.tx.queued := by
        have := List.mem_map_of_mem (f := WireFrame.payload) member
        rw [payloads] at this
        exact List.mem_of_mem_take this
      have := fits w.payload written
      have := w.length_payload
      omega
    exact ⟨h.tx, ⟨frames, before.step room own, payloads⟩, h.wired,
      between_step before h.between own⟩

private theorem fits_before {e : LoopbackEvent δ}
    (stepped : (loopback dev cfg txMem rxMem).step s e = some t)
    (fits : t.Fits rxMem) : s.Fits rxMem := by
  -- What has been queued only grows, so that what fits now has always fitted.
  have queued : s.tx.queued <+: t.tx.queued := by
    cases e with
    | tx e =>
      obtain ⟨tx, own, rfl⟩ := Option.map_eq_some_iff.mp stepped
      exact queued_step own
    | wire w =>
      obtain ⟨-, eq⟩ := Option.ite_none_right_eq_some.mp stepped
      obtain rfl := Option.some.inj eq
      exact List.prefix_rfl
    | rx e =>
      obtain ⟨rx, -, rfl⟩ := Option.map_eq_some_iff.mp stepped
      exact List.prefix_rfl
  exact fun f member => fits f (queued.mem member)

end Loopback

/-- Over every order of what happens at the two ends and between, the reads return the frames written,
in their order, each once and whole; when nothing is left on the way, they have returned all. -/
theorem frames_cross (fifo : cfg.isDma = false) {s : Loopback}
    (reached : (loopback dev cfg txMem rxMem).Reached s) (fits : s.Fits rxMem) :
    ∃ handed : List (List (List UInt8)), List.Forall₂ Returned s.rx.returned handed ∧
      handed.flatten <+: s.tx.queued ∧ (s.Settled txMem rxMem → handed.flatten = s.tx.queued) := by
  have inv := Machine.Reached.invariant (P := fun s => s.Fits rxMem → s.Inv txMem rxMem)
    (fun _ init _ => Loopback.Inv.initial init)
    (fun _ _ _ h stepped fits =>
      (h (Loopback.fits_before stepped fits)).step (Loopback.fits_before stepped fits) stepped fifo)
    reached fits
  obtain ⟨frames, ⟨line, handed, ws, delivered, received, flight⟩, payloads⟩ := inv.rx
  refine ⟨handed.map (List.map WireFrame.payload), ?_, ?_, fun settled => ?_⟩
  · rw [List.forall₂_map_right_iff]
    exact delivered.imp fun _ _ => returned_of_delivered
  -- The frames handed out are the first of those that left, which are the first of those queued.
  · rw [← List.map_flatten]
    have first : handed.flatten <+: frames := by
      rw [← line, received, List.append_assoc]
      exact List.prefix_append _ _
    exact (first.map WireFrame.payload).trans (by rw [payloads]; exact List.take_prefix _ _)
  -- Nothing is left on the way: no frame on the line, in the FIFO, or in either ring.
  · have none_ := flight.none_left settled.fifo settled.read
    rw [none_, List.append_nil] at received
    rw [settled.line, received, List.append_nil] at line
    have all := inv.tx.wholeFrames_all settled.ring
    have sent := settled.sent
    rw [all] at sent
    rw [← List.map_flatten, line, payloads, List.take_of_length_le sent]


/-- A frame of three bytes as it is received, and one of seven. -/
def crossingFrame : WireFrame := ⟨[1, 2, 3, 0, 0], [0, 0, 0], by decide, by decide, by decide⟩

def longCrossingFrame : WireFrame :=
  ⟨[4, 5, 6, 7, 8, 9, 10, 0, 1], [0, 0, 0], by decide, by decide, by decide⟩

/-- Both are written, sent and received; the first is read without its status and the second with it. -/
def crossing : List (LoopbackEvent (BitVec 32)) :=
  [.tx (.write [1, 2, 3] true 0 0#32), .tx (.transmit 0#32),
    .tx (.write [4, 5, 6, 7, 8, 9, 10] true 0 0#32), .wire crossingFrame, .rx (.hardware .complete),
    .tx (.transmit 0#32), .rx .drain, .wire longCrossingFrame, .rx (.hardware (.bytes 6)), .rx .drain,
    .rx (.read ⟨false, false, false⟩ 8), .rx (.hardware .complete), .rx .drain,
    .rx (.read ⟨true, false, false⟩ 9)]

def beforeCrossing : Loopback :=
  ⟨⟨freshTx .small [4096, 8192], [], []⟩, ⟨freshRx .small [4096, 8192], .idle [] .clear, []⟩, 0⟩

/-- Nothing is left on the way, and both have been read. -/
theorem frames_cross_two :
    ∃ s, (loopback constant fifoConfig .small .small).replay beforeCrossing crossing = some s ∧
      s.rx.returned.map ReadCall.result = [.ok [1, 2, 3], .ok [4, 5, 6, 7, 8, 9, 10, 0, 1]] ∧
      s.Settled .small .small ∧
      ∃ handed : List (List (List UInt8)), List.Forall₂ Returned s.rx.returned handed ∧
        handed.flatten = [[1, 2, 3], [4, 5, 6, 7, 8, 9, 10]] := by
  have start : (loopback constant fifoConfig .small .small).init beforeCrossing :=
    ⟨⟨fresh_freshTx .small rfl, rfl, rfl⟩, ⟨fresh_freshRx .small rfl, rfl, rfl⟩, rfl⟩
  obtain ⟨s, replayed, results, settled, fits, queued⟩ :
      ∃ s, (loopback constant fifoConfig .small .small).replay beforeCrossing crossing = some s ∧
        s.rx.returned.map ReadCall.result = [.ok [1, 2, 3], .ok [4, 5, 6, 7, 8, 9, 10, 0, 1]] ∧
        s.Settled .small .small ∧ s.Fits .small ∧ s.tx.queued = [[1, 2, 3], [4, 5, 6, 7, 8, 9, 10]] :=
    ⟨_, rfl, by decide, ⟨by decide, by decide, rfl, by decide, by decide⟩,
      by unfold Loopback.Fits; decide, by decide⟩
  obtain ⟨handed, returned, -, all⟩ := frames_cross rfl (.replay (.init start) crossing replayed) fits
  exact ⟨s, replayed, results, settled, handed, returned, (all settled).trans queued⟩

end Fscc
