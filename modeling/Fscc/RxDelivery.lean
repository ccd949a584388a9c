import Fscc.Lib.Machine
import Fscc.Receiver
import Fscc.RxRead

/-!
# Received frames reach the reader

The receive path end to end: a receiver that moves between calls of the driver, the drain,
and reads of whole frames. `Carried` is what relates the three: the frames complete and not
yet handed out are in the ring, or split between the ring and the FIFO.
-/

namespace Fscc

open CInt

variable {mem : Memory}

/-! ### The drain over the receiver -/

/-- The frames `pending` are complete but not finalised. `old` has been drained of the first
of them, or of the frame on the line; the rest waits in the FIFO. -/
structure Incoming (old : List UInt8) (size : Int) (r : Receiver) (pending : List WireFrame) :
    Prop where
  bytes : old ++ r.fifo = pending.flatMap WireFrame.padded ++ r.front
  lengths : size = 0 ∧ r.lengths = pending.map WireFrame.length ∨
    ∃ w ws, pending = w :: ws ∧ size = w.length ∧ r.lengths = ws.map WireFrame.length
  behind : ∀ w ∈ (pending ++ r.line).head?, old.length < w.length
  ok : r.Ok

namespace Incoming

variable {old : List UInt8} {size : Int} {r r' : Receiver} {pending done : List WireFrame}
  {data : List UInt8}

private theorem arrived (h : Incoming old size r pending) (moved : Receiver.Arrived r r' done data) :
    Incoming old size r' (pending ++ done) where
  bytes := by
    rw [moved.fifo, ← List.append_assoc, h.bytes, List.flatMap_append, List.append_assoc,
      List.append_assoc, moved.front]
  lengths := by
    rcases h.lengths with ⟨none_, lengths⟩ | ⟨w, ws, rfl, known, lengths⟩
    · exact .inl ⟨none_, by rw [moved.lengths, lengths, List.map_append]⟩
    · exact .inr ⟨w, ws ++ done, rfl, known, by rw [moved.lengths, lengths, List.map_append]⟩
  behind := by
    rw [List.append_assoc, ← moved.line]
    exact h.behind
  ok := moved.ok h.ok

private theorem idle (line : List WireFrame) (clock : Timestamp) :
    Incoming [] 0 (.idle line clock) [] where
  bytes := by
    unfold Receiver.front Receiver.idle
    cases line <;> simp
  lengths := .inl ⟨rfl, rfl⟩
  behind := by
    intro w _
    have := w.status
    rw [WireFrame.length, List.length_nil]
    omega
  ok := ⟨by simp [Receiver.idle], by simp [Receiver.idle], by
    intro w rest _
    simpa [Receiver.idle, WireFrame.length] using w.status⟩

end Incoming

theorem fifoReadFinish_receiver (s : Drain) (r : Receiver) :
    (fifoReadFinish receiver mem s r).2 = r := by
  rcases finish_device receiver mem s r with same | clock
  · exact same
  · exact clock

/-- What RFCNT counts: the frames `pending`, but for the first if its length `size` is taken. -/
def Announced (size : Int) (r : Receiver) (pending : List WireFrame) : Prop :=
  size = 0 ∧ r.lengths = pending.map WireFrame.length ∨
    ∃ w ws, pending = w :: ws ∧ size = w.length ∧ r.lengths = ws.map WireFrame.length

namespace Announced

variable {size : Int} {r : Receiver} {w : WireFrame} {ws : List WireFrame}

theorem takeFrameSize_none (h : Announced size r []) (ok : r.Ok) :
    takeFrameSize receiver size r = (0, r) := by
  rcases h with ⟨rfl, lengths⟩ | ⟨w, ws, eq, -⟩
  · simp [takeFrameSize, Receiver.ioGetRFCNT_receiver r ok, lengths]
  · cases eq

theorem takeFrameSize_some (h : Announced size r (w :: ws)) (ok : r.Ok)
    (short : w.length < 2147483648) :
    takeFrameSize receiver size r =
      ((w.length : Int), { r with lengths := ws.map WireFrame.length }) := by
  rcases h with ⟨rfl, lengths⟩ | ⟨x, xs, eq, rfl, lengths⟩
  · have value : (BitVec.ofNat 32 w.length).toInt = w.length :=
      (BitVec.toInt_ofNat' w.length).trans (toInt32_ofNat short)
    simp [takeFrameSize, Receiver.ioGetRFCNT_receiver r ok, lengths,
      Receiver.getRegister_bcFifoL, value]
  · obtain ⟨rfl, rfl⟩ := List.cons.inj eq
    have long := w.status
    have known : (w.length : Int) ≠ 0 := by
      rw [WireFrame.length]
      omega
    rw [takeFrameSize, if_neg known, ← lengths]

end Announced

namespace Incoming

section Access

variable {old : List UInt8} {size : Int} {r : Receiver} {w : WireFrame} {ws : List WireFrame}

/-- Without a complete frame there is no length to take. -/
private theorem takeFrameSize_none (h : Incoming old size r []) :
    takeFrameSize receiver size r = (0, r) :=
  Announced.takeFrameSize_none h.lengths h.ok

/-- With a complete frame the drain has its length, or takes it. -/
private theorem takeFrameSize_some (h : Incoming old size r (w :: ws)) (short : w.length < 2147483648) :
    takeFrameSize receiver size r =
      ((w.length : Int), { r with lengths := ws.map WireFrame.length }) :=
  Announced.takeFrameSize_some h.lengths h.ok short

private theorem length_lengths (h : Incoming old size r (w :: ws)) :
    (ws.map WireFrame.length).length ≤ r.lengths.length := by
  rcases h.lengths with ⟨-, lengths⟩ | ⟨x, xs, eq, -, lengths⟩
  · simp [lengths]
  · obtain ⟨rfl, rfl⟩ := List.cons.inj eq
    simp [lengths]

/-- The frame whose length is known waits in the FIFO, but for what has been drained. -/
private theorem fifo_eq (h : Incoming old size r (w :: ws)) :
    old = w.padded.take old.length ∧
      r.fifo = w.padded.drop old.length ++ (ws.flatMap WireFrame.padded ++ r.front) := by
  have bytes := h.bytes
  have behind := h.behind w (by simp)
  have room := w.length_padded
  rw [List.flatMap_cons, List.append_assoc] at bytes
  constructor
  · have start := congrArg (List.take old.length) bytes
    rwa [List.take_left', List.take_append_of_le_length (by omega)] at start
    rfl
  · have rest := congrArg (List.drop old.length) bytes
    rwa [List.drop_left', List.drop_append_of_le_length (by omega)] at rest
    rfl

end Access

section Pass

variable {p : RxPort} {groups : List (FrameGroup mem)} {part rest : List IoFrame} {f : IoFrame}
  {r : Receiver} {pending : List WireFrame}

/-- How a pass leaves the frames that are coming in: it finalises the first, or none. -/
inductive Passed (groups : List (FrameGroup mem)) (rest : List IoFrame)
    (pending : List WireFrame) (p' : RxPort) (r' : Receiver) : Prop
  | last (g : FrameGroup mem) (w : WireFrame) (ws : List WireFrame) :
      pending = w :: ws → g.bytes = w.data → g.Whole → Framed mem p' (groups ++ [g]) [] rest →
      Incoming (drained [] rest) p'.rxFrameSize r' ws → Passed groups rest pending p' r'
  | more (part' free' : List IoFrame) :
      Framed mem p' groups part' free' →
      Incoming (drained part' free') p'.rxFrameSize r' pending → Passed groups rest pending p' r'

private theorem drainData_receiver {n : Nat} {r' : Receiver}
    (eq : drainLength receiver mem p r = (n, r'))
    (enough : Receiver.roundUp n ≤ r'.fifo.length) :
    drainData receiver mem p r = (r'.fifo.take n, r'.pop (Receiver.roundUp n)) := by
  unfold drainData
  rw [eq]
  split
  next zero =>
    change n = 0 at zero
    simp [zero, Receiver.roundUp, Receiver.pop]
  next => exact Receiver.cardGetRegisterRep_receiver r' n enough

/-- Without a complete frame a pass takes bytes of the frame on the line. -/
private theorem pass_none (framed : Framed mem p groups part (f :: rest))
    (h : Incoming (drained part (f :: rest)) p.rxFrameSize r []) :
    Passed groups rest [] (p.store mem (fifoReadPass receiver mem p r).1)
        (drainData receiver mem p r).2 ∧
      (drainData receiver mem p r).2.received = r.received ∧
      (drainData receiver mem p r).2.line = r.line := by
  have size : drainSize receiver p r = (0, r) := h.takeFrameSize_none
  -- Without a length the pass takes whole words of what has arrived, at most a descriptor's room.
  have length := drainLength_unknown receiver mem framed.ring r (by rw [size])
  rw [size, Receiver.ioGetRXCNT_receiver r h.ok] at length
  have device := drainLength_device_unknown receiver mem (p := p) (d := r) (by rw [size])
  rw [size, Receiver.ioGetRXCNT_receiver r h.ok] at device
  obtain ⟨n, eq⟩ : ∃ n, drainLength receiver mem p r = (n, r) := ⟨_, Prod.ext rfl device⟩
  rw [eq] at length
  have room := mem.rxSize_words
  have words := framed.words f (.head _)
  have whole : Receiver.roundUp n = n := by
    unfold Receiver.roundUp
    omega
  have data := drainData_receiver eq (by omega)
  have pass := framed.pass receiver r
  have bytes := h.bytes
  have total := congrArg List.length bytes
  rw [whole] at data
  rw [size, data] at pass
  rw [data]
  refine ⟨?_, rfl, rfl⟩
  -- Both outcomes that are left only move these bytes from the FIFO to the ring.
  have kept {part' free' : List IoFrame} {p' : RxPort}
      (more : drained part' free' = drained part (f :: rest) ++ r.fifo.take n)
      (same : p'.rxFrameSize = 0) :
      Incoming (drained part' free') p'.rxFrameSize (r.pop n) [] := {
    bytes := by
      rw [more, List.append_assoc, Receiver.pop, List.take_append_drop]
      exact bytes
    lengths := by
      rcases h.lengths with ⟨-, lengths⟩ | ⟨w, ws, eq, -⟩
      · exact .inl ⟨same, lengths⟩
      · cases eq
    behind := by
      intro w member
      have front := h.ok.length_front w member
      simp only [List.flatMap_nil, List.nil_append, List.length_append] at total
      rw [more, List.length_append, List.length_take]
      omega
    ok := h.ok.pop n }
  generalize hasCstop _ = cstop, hasFe _ = fe at pass
  cases pass with
  -- A frame of unknown length is never ended by a pass.
  | last g _ _ _ _ _ pos => omega
  | full f' more same framed' => exact .more _ _ framed' (kept more same)
  | more f' more same _ framed' => exact .more _ _ framed' (kept more same)

section Known

variable {old : List UInt8} {size : Int} {w : WireFrame} {ws : List WireFrame} {n : Nat}
  (h : Incoming old size r (w :: ws))
include h

private theorem ok_taken : Receiver.Ok { r with lengths := ws.map WireFrame.length } :=
  ⟨h.ok.fifo, Nat.le_trans h.length_lengths h.ok.lengths, h.ok.opened⟩

/-- A frame taken to its last word leaves the FIFO to those behind it. -/
private theorem ended (all : Receiver.roundUp n = (w.padded.drop old.length).length) :
    Incoming [] 0 ({ r with lengths := ws.map WireFrame.length }.pop (Receiver.roundUp n)) ws where
  bytes := by
    simp only [Receiver.pop, List.nil_append]
    rw [h.fifo_eq.2, all, List.drop_left]
    rfl
  lengths := .inl ⟨rfl, rfl⟩
  behind := by
    intro x _
    have := x.status
    rw [WireFrame.length, List.length_nil]
    omega
  ok := h.ok_taken.pop _

/-- A frame taken in part is still the first, with its length taken. -/
private theorem going_on (behind : (old ++ r.fifo.take n).length < w.length) :
    Incoming (old ++ r.fifo.take n) w.length ({ r with lengths := ws.map WireFrame.length }.pop n)
      (w :: ws) where
  bytes := by
    simp only [Receiver.pop]
    rw [List.append_assoc, List.take_append_drop]
    exact h.bytes
  lengths := .inr ⟨w, ws, rfl, rfl, rfl⟩
  behind := by
    intro x member
    obtain rfl : w = x := by simpa using member
    exact behind
  ok := h.ok_taken.pop n

end Known

/-- With a complete frame a pass takes bytes of that frame, and may end it. -/
private theorem pass_some {w : WireFrame} {ws : List WireFrame}
    (framed : Framed mem p groups part (f :: rest))
    (h : Incoming (drained part (f :: rest)) p.rxFrameSize r (w :: ws))
    (short : w.length < 2147483648) :
    Passed groups rest (w :: ws) (p.store mem (fifoReadPass receiver mem p r).1)
        (drainData receiver mem p r).2 ∧
      (drainData receiver mem p r).2.received = r.received ∧
      (drainData receiver mem p r).2.line = r.line := by
  obtain ⟨start, fifo⟩ := h.fifo_eq
  -- The length comes off the receiver's list, and bounds what is taken to the rest of the frame.
  have size := h.takeFrameSize_some short
  change drainSize receiver p r = _ at size
  have long := w.status
  change 2 ≤ w.length at long
  have length := drainLength_known receiver mem framed r (by rw [size]; dsimp only; omega)
    (by rw [size]; dsimp only; omega)
  have device := drainLength_device_known receiver mem (p := p) (d := r)
    (by rw [size]; dsimp only; omega)
  rw [size] at device
  obtain ⟨n, eq⟩ : ∃ n, drainLength receiver mem p r =
      (n, { r with lengths := ws.map WireFrame.length }) := ⟨_, Prod.ext rfl device⟩
  rw [eq, size, framed.bytes_eq] at length
  dsimp only at length
  have words := framed.drained_words
  have behind := h.behind w (by simp)
  have padded := w.length_padded_eq
  have total := congrArg List.length fifo
  rw [List.length_append, List.length_drop] at total
  -- The frame lies in the FIFO to its last byte, so that the words asked for are there.
  have need : Receiver.roundUp n ≤ w.padded.length - (drained part (f :: rest)).length := by
    unfold Receiver.roundUp
    omega
  have data := drainData_receiver eq (by dsimp only; omega)
  have pass := framed.pass receiver r
  rw [size, data] at pass
  rw [data]
  refine ⟨?_, rfl, rfl⟩
  generalize hasCstop _ = cstop, hasFe _ = fe at pass
  cases pass with
  | last g full size content enough fits _ none_ framed' =>
    -- The pass that ends the frame has taken as many bytes as the receiver announced.
    have long : g.length = w.length := by omega
    have before := framed.length_drained
    rw [List.length_take] at enough
    dsimp only at enough
    refine .last g w ws rfl ?_ ⟨by omega, ?_, fits⟩ framed' ?_
    · rw [content, long, take_append_take (by omega), h.bytes, List.flatMap_cons, List.append_assoc,
        List.take_append_of_le_length (by omega), w.take_padded]
    · rw [FrameGroup.Closed, full]
      omega
    · rw [framed.drained_rest, none_, List.flatMap_nil]
      refine h.ended ?_
      rw [List.length_drop]
      unfold Receiver.roundUp
      omega
  | full f' more same framed' =>
    have unfinished := framed'.unfinished
    rw [framed'.bytes_eq, same, more, List.length_append, List.length_take] at unfinished
    dsimp only at unfinished
    have whole : Receiver.roundUp n = n := by
      have := framed.words f (.head _)
      have := mem.rxSize_words
      unfold Receiver.roundUp
      omega
    refine .more _ _ framed' ?_
    rw [more, same, whole]
    refine h.going_on ?_
    rw [List.length_append, List.length_take]
    omega
  | more f' _ _ none_ _ => omega

/-- One pass of the drain over the receiver. -/
private theorem pass (framed : Framed mem p groups part (f :: rest))
    (h : Incoming (drained part (f :: rest)) p.rxFrameSize r pending)
    (short : ∀ w ∈ pending, w.length < 2147483648) :
    Passed groups rest pending (p.store mem (fifoReadPass receiver mem p r).1)
        (fifoReadPass receiver mem p r).2 ∧
      (fifoReadPass receiver mem p r).2.received = r.received ∧
      (fifoReadPass receiver mem p r).2.line = r.line := by
  have device : (fifoReadPass receiver mem p r).2 = (drainData receiver mem p r).2 := by
    rw [fifoReadPass, fifoReadFinish_receiver, fetch_eq]
  rw [device]
  cases pending with
  | nil => exact pass_none framed h
  | cons w ws => exact pass_some framed h (short w (.head _))

end Pass

end Incoming

/-! ### Calls of the driver -/

variable (mem)

/-- The frames `held` are in the ring and the frames `pending` on their way to it. -/
structure Carried (p : RxPort) (r : Receiver) (groups : List (FrameGroup mem))
    (part free : List IoFrame) (held pending : List WireFrame) : Prop where
  framed : Framed mem p groups part free
  whole : ∀ g ∈ groups, g.Whole
  content : groups.map FrameGroup.bytes = held.map WireFrame.data
  incoming : Incoming (drained part free) p.rxFrameSize r pending

/-- The frames `ws` are complete and none of them has been handed out. -/
def InFlight (ws : List WireFrame) (p : RxPort) (r : Receiver) : Prop :=
  ∃ groups part free held pending,
    ws = held ++ pending ∧ Carried mem p r groups part free held pending

variable {mem}

namespace InFlight

variable {ws : List WireFrame} {p : RxPort} {r : Receiver}

/-- A port just purged has no frame, and nothing of one. -/
theorem purged (size : p.rxDescriptors.length = mem.rxNum)
    (buffers : ∀ f ∈ p.rxDescriptors, f.buffer.length = mem.rxSize) (line : List WireFrame)
    (clock : Timestamp) : InFlight mem [] (resetRx mem p) (.idle line clock) := by
  refine ⟨[], [], _, [], [], rfl, .reset size buffers, List.forall_mem_nil _, rfl, ?_⟩
  rw [drained_purged]
  exact .idle line clock

/-- A pass of the drain may move a frame to the ring. -/
private theorem pass (h : InFlight mem ws p r) (short : ∀ w ∈ ws, w.length < 2147483648)
    (room : p.fifoFrame.cstop = false) :
    InFlight mem ws (p.store mem (fifoReadPass receiver mem p r).1)
        (fifoReadPass receiver mem p r).2 ∧
      (fifoReadPass receiver mem p r).2.received = r.received ∧
      (fifoReadPass receiver mem p r).2.line = r.line := by
  obtain ⟨groups, part, free, held, pending, rfl, carried⟩ := h
  obtain ⟨f, rest, rfl⟩ : ∃ f rest, free = f :: rest := by
    cases free with
    | nil => simp [carried.framed.ring.fifoFrame_full] at room
    | cons f rest => exact ⟨f, rest, rfl⟩
  obtain ⟨passed, kept⟩ := carried.incoming.pass carried.framed
    fun w hw => short w (List.mem_append_right _ hw)
  refine ⟨?_, kept⟩
  cases passed with
  | last g w ws eq bytes whole framed incoming =>
    subst eq
    refine ⟨_, _, _, held ++ [w], ws, by simp, framed, ?_, ?_, incoming⟩
    · intro x member
      rcases List.mem_append.mp member with old | new
      · exact carried.whole x old
      · rw [List.mem_singleton.mp new]
        exact whole
    · rw [List.map_append, List.map_append, carried.content]
      simp [bytes]
  | more part' free' framed incoming =>
    exact ⟨_, _, _, held, pending, rfl, framed, carried.whole, carried.content, incoming⟩

/-- The drain moves frames to the ring and loses none. -/
theorem drain (h : InFlight mem ws p r) (short : ∀ w ∈ ws, w.length < 2147483648) :
    InFlight mem ws (fifoReadData receiver mem p r).1 (fifoReadData receiver mem p r).2 ∧
      (fifoReadData receiver mem p r).2.received = r.received ∧
      (fifoReadData receiver mem p r).2.line = r.line := by
  have kept (p' : RxPort) (r' : Receiver)
      (before : InFlight mem ws p' r' ∧ r'.received = r.received ∧ r'.line = r.line)
      (room : p'.fifoFrame.cstop = false) :
      InFlight mem ws (p'.store mem (fifoReadPass receiver mem p' r').1)
          (fifoReadPass receiver mem p' r').2 ∧
        (fifoReadPass receiver mem p' r').2.received = r.received ∧
        (fifoReadPass receiver mem p' r').2.line = r.line := by
    obtain ⟨flight, received, line⟩ := before
    rw [← received, ← line]
    exact flight.pass short room
  exact fifoReadLoop_rule receiver mem
    (P := fun _ p' r' => InFlight mem ws p' r' ∧ r'.received = r.received ∧ r'.line = r.line)
    (fun _ _ h => h) (fun _ _ _ h _ => h) (fun _ p' r' h room _ => kept p' r' h room)
    (fun _ p' r' h room _ => kept p' r' h room) ⟨h, rfl, rfl⟩

/-- Arrivals complete further frames. -/
theorem arrival (h : InFlight mem ws p r) (a : Arrival) :
    ∃ done, InFlight mem (ws ++ done) p (r.arrival a) ∧
      (r.arrival a).received = r.received ++ done ∧ r.line = done ++ (r.arrival a).line := by
  obtain ⟨groups, part, free, held, pending, rfl, carried⟩ := h
  obtain ⟨done, data, moved⟩ := r.arrived_arrival a
  exact ⟨done, ⟨groups, part, free, held, pending ++ done, by simp, carried.framed, carried.whole,
    carried.content, carried.incoming.arrived moved⟩, moved.received, moved.line⟩

end InFlight

/-- A read with its outcome. -/
structure ReadCall where
  settings : Settings
  bufLength : Nat
  result : Except Errno (List UInt8)

/-- A read that handed out the frames `ws`, whole, with their status if that is asked for. -/
def Delivered (call : ReadCall) (ws : List WireFrame) : Prop :=
  match call.result with
  | .error e => e = .enobufs ∧ ws = []
  | .ok out => ws ≠ [] ∧ (call.settings.rxMultiple = false → ws.length = 1) ∧
      out = ws.flatMap fun w => w.data.take (w.length - call.settings.statusLength)

private theorem outputs_content (settings : Settings) (plain : settings.appendTimestamp = false)
    {groups : List (FrameGroup mem)} {ws : List WireFrame}
    (whole : ∀ g ∈ groups, g.Whole)
    (content : groups.map FrameGroup.bytes = ws.map WireFrame.data) (r : Receiver) :
    outputs receiver settings groups r =
      (ws.flatMap fun w => w.data.take (w.length - settings.statusLength), r) := by
  induction groups generalizing ws with
  | nil =>
    obtain rfl : ws = [] := by simpa using content.symm
    rfl
  | cons g gs ih =>
    obtain ⟨w, ws, rfl⟩ : ∃ w ws', ws = w :: ws' := by
      cases ws with
      | nil => simp at content
      | cons w ws => exact ⟨w, ws, rfl⟩
    obtain ⟨bytes, content⟩ := List.cons.inj content
    have length : g.length = w.length := by
      rw [← (whole g (.head _)).fits.length_bytes, bytes, WireFrame.length]
    have more := ih (fun x hx => whole x (.tail _ hx)) content
    simp [outputs, appended, plain, more, FrameGroup.payload, bytes, length]

private theorem length_taken_le (settings : Settings) (one : settings.rxMultiple = false)
    (bufLength : Nat) (groups : List (FrameGroup mem)) :
    (taken settings bufLength groups).length ≤ 1 := by
  rw [taken, one]
  refine (fitting_first settings bufLength _).length_le.trans ?_
  simp

/-- A read moves nothing in the receiver. -/
private theorem outputs_receiver (settings : Settings) (groups : List (FrameGroup mem)) (r : Receiver) :
    (outputs receiver settings groups r).2 = r := by
  have stamp (f : IoFrame) : (appended receiver settings f r).2 = r := by
    unfold appended
    split
    · dsimp only
      split
      · rfl
      · rfl
    · rfl
  induction groups with
  | nil => rfl
  | cons g gs ih =>
    unfold outputs
    dsimp only
    rw [stamp, ih]

/-- A read takes the frames that fit off the front of what the ring holds. -/
theorem Carried.read {p : RxPort} {r : Receiver} {groups : List (FrameGroup mem)}
    {part free : List IoFrame} {held pending : List WireFrame}
    (h : Carried mem p r groups part free held pending) (settings : Settings) {bufLength : Nat}
    (size : bufLength < 18446744073709551616) (unmovedBytes : Nat) :
    let read := userReadFrame receiver mem settings bufLength true unmovedBytes p r
    let handed := taken settings bufLength groups
    (∃ rest free', groups = handed ++ rest ∧
        Carried mem read.2.1 r rest part free' (held.drop handed.length) pending) ∧
      read.1 = (if handed = [] then .error .enobufs
        else .ok (copiedOut (outputs receiver settings handed r).1 unmovedBytes)) ∧
      read.2.2 = r := by
  obtain ⟨rest, p', split, framed, same, eq⟩ :=
    h.framed.read receiver h.whole settings size unmovedBytes r
  rw [outputs_receiver] at eq
  dsimp only
  rw [eq]
  refine ⟨⟨rest, _, split, framed, ?_, ?_, ?_⟩, rfl, rfl⟩
  · intro g member
    exact h.whole g (by rw [split]; exact List.mem_append_right _ member)
  · have content := h.content
    rw [split, List.map_append] at content
    rw [List.map_drop, ← content]
    exact (List.drop_left' (List.length_map _)).symm
  · rw [same.2.1, drained_append_freed]
    exact h.incoming

/-- A read hands out the oldest frames of the ring. -/
theorem InFlight.read {ws : List WireFrame} {p : RxPort} {r : Receiver} (h : InFlight mem ws p r)
    (settings : Settings) (plain : settings.appendTimestamp = false) {bufLength : Nat}
    (size : bufLength < 18446744073709551616) :
    ∃ handed ws' p', ws = handed ++ ws' ∧ InFlight mem ws' p' r ∧
      (userReadFrame receiver mem settings bufLength true 0 p r).2 = (p', r) ∧
      Delivered ⟨settings, bufLength,
        (userReadFrame receiver mem settings bufLength true 0 p r).1⟩ handed := by
  obtain ⟨groups, part, free, held, pending, rfl, carried⟩ := h
  obtain ⟨⟨rest, free', split, left⟩, result, device⟩ := carried.read settings size 0
  have content := carried.content
  rw [split, List.map_append] at content
  obtain ⟨handed, held', rfl, first, second⟩ := List.map_eq_append_iff.mp content.symm
  have count := congrArg List.length first
  simp only [List.length_map] at count
  rw [← count, List.drop_left] at left
  have out := outputs_content settings plain
    (fun g hg => carried.whole g (by rw [split]; exact List.mem_append_left _ hg)) first.symm r
  rw [out, copiedOut_zero] at result
  refine ⟨handed, held' ++ pending, _, by simp, ⟨rest, part, free', held', pending, rfl, left⟩,
    Prod.ext rfl device, ?_⟩
  rw [result]
  by_cases none_ : taken settings bufLength groups = []
  · rw [none_] at count
    simp [Delivered, none_, List.length_eq_zero_iff.mp count]
  · have some_ : (taken settings bufLength groups).length ≠ 0 := by simpa using none_
    simp only [Delivered, if_neg none_, and_true]
    refine ⟨fun none' => ?_, fun one => ?_⟩
    · simp [none'] at count
      exact some_ count.symm
    · have := length_taken_le settings one bufLength groups
      omega

/-! ### Runs -/

/-- The driver's receive path over the receiver, with the reads so far. -/
structure RxSystem where
  port : RxPort
  receiver : Receiver
  returned : List ReadCall

inductive RxEvent where
  | hardware (a : Arrival)
  | drain
  | read (settings : Settings) (bufLength : Nat)

variable (mem)

/-- Arrivals, drains and reads in any order. Reads are made with a buffer and without
timestamps. -/
def rxSystem (frames : List WireFrame) : Machine RxSystem RxEvent where
  init s := Fresh mem s.port ∧ s.receiver = .idle frames s.receiver.clock ∧ s.returned = []
  step s
    | .hardware a => some { s with receiver := s.receiver.arrival a }
    | .drain =>
      let drained := fifoReadData receiver mem s.port s.receiver
      some { s with port := drained.1, receiver := drained.2 }
    | .read settings bufLength =>
      if settings.appendTimestamp = false ∧ 0 < bufLength ∧ bufLength < 18446744073709551616 then
        let read := userReadFrame receiver mem settings bufLength true 0 s.port s.receiver
        some { port := read.2.1, receiver := read.2.2,
               returned := s.returned ++ [⟨settings, bufLength, read.1⟩] }
      else none

variable {mem}

/-- The frames handed out so far, call by call, and the frames still in flight are the
frames received. -/
structure RxSystem.Inv (mem : Memory) (frames : List WireFrame) (s : RxSystem) : Prop where
  line : s.receiver.received ++ s.receiver.line = frames
  flight : ∃ handed ws, List.Forall₂ Delivered s.returned handed ∧
    s.receiver.received = handed.flatten ++ ws ∧ InFlight mem ws s.port s.receiver

namespace RxSystem.Inv

variable {frames : List WireFrame} {s t : RxSystem}

theorem initial (init : (rxSystem mem frames).init s) : s.Inv mem frames := by
  obtain ⟨fresh, idle, none_⟩ := init
  obtain ⟨q, made, size, buffers⟩ := fresh
  refine ⟨by rw [idle]; rfl, [], [], by rw [none_]; exact .nil, by rw [idle]; rfl, ?_⟩
  rw [made, idle]
  exact .purged size buffers frames _

/-- Frames received and not handed out are short enough for the counters of the driver. -/
private theorem short (h : s.Inv mem frames) (fits : ∀ w ∈ frames, w.length ≤ mem.rxNum * mem.rxSize)
    {handed : List (List WireFrame)} {ws : List WireFrame}
    (received : s.receiver.received = handed.flatten ++ ws) :
    ∀ w ∈ ws, w.length < 2147483648 := by
  intro w member
  have bound := fits w (by rw [← h.line, received]; simp [member])
  have := mem.rx_fits
  omega

theorem step (fits : ∀ w ∈ frames, w.length ≤ mem.rxNum * mem.rxSize) {e : RxEvent}
    (h : s.Inv mem frames) (stepped : (rxSystem mem frames).step s e = some t) :
    t.Inv mem frames := by
  obtain ⟨handed, ws, delivered, received, flight⟩ := h.flight
  cases e with
  | hardware a =>
    obtain rfl := Option.some.inj stepped
    obtain ⟨done, flight', received', line'⟩ := flight.arrival a
    refine ⟨?_, handed, ws ++ done, delivered, ?_, flight'⟩
    · rw [← h.line, received', line', List.append_assoc]
    · rw [received', received, List.append_assoc]
  | drain =>
    obtain rfl := Option.some.inj stepped
    obtain ⟨flight', received', line'⟩ := flight.drain (h.short fits received)
    refine ⟨?_, handed, ws, delivered, ?_, flight'⟩
    · rw [← h.line, received', line']
    · rw [received', received]
  | read settings bufLength =>
    obtain ⟨guard, eq⟩ := Option.ite_none_right_eq_some.mp stepped
    obtain rfl := Option.some.inj eq
    obtain ⟨more, ws', p', rfl, flight', after, call⟩ := flight.read settings guard.1 guard.2.2
    refine ⟨?_, handed ++ [more], ws', ?_, ?_, ?_⟩
    · rw [after]
      exact h.line
    · exact List.rel_append delivered (.cons call .nil)
    · rw [after]
      simpa using received
    · rw [after]
      exact flight'

end RxSystem.Inv

/-- Over every sequence of received frames, every chunking of their arrival and every order
of drains and reads, the frames handed out are the frames received, in order and whole. -/
theorem frames_delivered (frames : List WireFrame)
    (fits : ∀ w ∈ frames, w.length ≤ mem.rxNum * mem.rxSize) {s : RxSystem}
    (reached : (rxSystem mem frames).Reached s) :
    ∃ handed : List (List WireFrame), List.Forall₂ Delivered s.returned handed ∧
      handed.flatten <+: s.receiver.received ∧ s.receiver.received <+: frames := by
  have inv := Machine.Reached.invariant (P := RxSystem.Inv mem frames) (fun _ => .initial)
    (fun _ _ _ h stepped => h.step fits stepped) reached
  obtain ⟨handed, ws, delivered, received, -⟩ := inv.flight
  exact ⟨handed, delivered, ⟨ws, received.symm⟩, ⟨_, inv.line⟩⟩

/-- A frame of three bytes. -/
def shortFrame : WireFrame := ⟨[1, 2, 3], [0], by decide, by decide, by decide⟩

/-- A frame of eleven bytes, for two descriptors. -/
def longFrame : WireFrame :=
  ⟨[1, 2, 3, 4, 5, 6, 7, 8, 9, 10, 11], [0], by decide, by decide, by decide⟩

/-- A port that both frames are about to reach. -/
def beforeFrames : RxSystem :=
  ⟨freshRx .small [4096, 8192], .idle [longFrame, shortFrame] .clear, []⟩

/-- The long frame comes in and is drained in two pieces, with some of the next; it is refused to a read
of four bytes and given to one of sixteen, without its status. Then the short one is read with it. -/
def twoFramesRead : List RxEvent :=
  [.hardware (.bytes 5), .drain, .hardware .complete, .hardware (.bytes 2), .drain,
    .read ⟨false, false, false⟩ 4, .read ⟨false, false, false⟩ 16, .hardware .complete, .drain,
    .read ⟨true, false, false⟩ 8]

theorem frames_delivered_two :
    ∃ s, (rxSystem .small [longFrame, shortFrame]).replay beforeFrames twoFramesRead = some s ∧
      s.returned.map ReadCall.result =
        [.error .enobufs, .ok [1, 2, 3, 4, 5, 6, 7, 8, 9], .ok [1, 2, 3]] ∧
      ∃ handed : List (List WireFrame), List.Forall₂ Delivered s.returned handed ∧
        handed.flatten <+: s.receiver.received ∧ s.receiver.received <+: [longFrame, shortFrame] := by
  have start : (rxSystem .small [longFrame, shortFrame]).init beforeFrames :=
    ⟨fresh_freshRx .small rfl, rfl, rfl⟩
  refine ⟨_, rfl, by decide, ?_⟩
  exact frames_delivered [longFrame, shortFrame] (by decide) (.replay (.init start) twoFramesRead rfl)

end Fscc
