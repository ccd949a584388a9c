import Fscc.StreamDelivery

/-!
# Readiness of a stream

When `fscc_io_user_read_ready` lets a reader of a stream through. A descriptor that the drain is
still filling stops the scan, as it stops `fscc_user_read_stream`: its bytes are in the ring and not
there to be read.
-/

namespace Fscc

open CInt

variable {δ : Type} (dev : Device δ) {mem : Memory} {p : RxPort}
  {finished free rest : List IoFrame} {f : IoFrame}

/-- The bytes in the descriptor that the drain is filling. -/
def RxPort.filling (p : RxPort) : Nat := if p.fifoFrame.cstop then 0 else p.fifoFrame.count

/-! ### The ring -/

/-- A ring of pieces of a stream, each with something left to read, and no frame among them. -/
structure Unframed (mem : Memory) (p : RxPort) (finished free : List IoFrame) : Prop where
  streamed : Streamed mem p finished free
  some_ : ∀ c ∈ finished.map IoFrame.data, c ≠ []
  fe : ∀ f ∈ p.rxDescriptors, f.fe = false

/-- The ring `q` holds what the ring `p` holds, and after it what has been taken since `d`. -/
structure Grown (mem : Memory) (p : RxPort) (d : StreamFifo) (q : RxPort) (e : StreamFifo) :
    Prop where
  unframed : ∃ finished free, Unframed mem q finished free
  bytes : ∃ moved, e.taken = d.taken ++ moved ∧ q.ringBytes = p.ringBytes ++ moved

namespace Unframed

/-- The scan adds up what is left of the finished descriptors. -/
private theorem scan (fe : ∀ f ∈ finished, f.fe = false) (cstop : ∀ f ∈ finished, f.cstop = true)
    (opened : ∀ f ∈ free, f.fe = false ∧ f.cstop = false) (bytes : Nat)
    (small : bytes + (finished.map IoFrame.data).flatten.length < 18446744073709551616) :
    Ring.scan nextReadStep (fun bytes => (false, bytes)) (finished ++ free) bytes =
      (false, bytes + (finished.map IoFrame.data).flatten.length) := by
  -- Induction on the finished descriptors, whose counts the scan adds up.
  induction finished generalizing bytes with
  | nil =>
    cases free with
    | nil => rfl
    | cons f free =>
      have first := opened f (.head _)
      simp [Ring.scan, nextReadStep, first.1, first.2]
  | cons f fs ih =>
    rw [List.map_cons, List.flatten_cons, List.length_append, IoFrame.data, length_bytesAt]
      at small ⊢
    have step : nextReadStep bytes f = .ok (bytes + f.desc.dataCount) := by
      simp [nextReadStep, fe f (.head _), cstop f (.head _), addSize_eq (by omega :
        bytes + f.desc.dataCount < 18446744073709551616)]
    rw [List.cons_append, Ring.scan, step]
    dsimp only
    rw [ih (fun g member => fe g (.tail _ member)) (fun g member => cstop g (.tail _ member)) _
      (by omega), Nat.add_assoc]

/-- A stream is ready just when a descriptor is finished. -/
theorem ready_iff (h : Unframed mem p finished free) :
    ioUserReadReady mem true p = true ↔ 0 < (finished.map IoFrame.data).flatten.length := by
  have held := h.streamed.pieces.length_data_lt
  have fe : ∀ f ∈ finished, f.fe = false := by
    intro f member
    apply h.fe
    apply (Ring.mem_view (i := p.userRxDesc)).mp
    rw [h.streamed.ring.view]
    exact List.mem_append_left _ member
  rw [ioUserReadReady, h.streamed.ring.userNextReadSize_eq,
    scan fe h.streamed.ring.finished_cstop h.streamed.ring.free_open 0 (by omega)]
  simp only [if_true, Nat.zero_add, bne_iff_ne]
  exact Nat.pos_iff_ne_zero.symm

/-- The rest of the bytes in the ring are those that the drain is filling its descriptor with. -/
private theorem length_ringBytes (h : Unframed mem p finished free) :
    p.ringBytes.length = (finished.map IoFrame.data).flatten.length + p.filling := by
  have ring := h.streamed.ring
  rw [h.streamed.pieces.ringBytes_eq, List.length_append]
  congr 1
  rw [RxPort.filling]
  cases free with
  | nil =>
    rw [ring.fifoFrame_full]
    rfl
  | cons f rest =>
    have room := ring.free_room f (.head _)
    have buffer : f.buffer.length = mem.rxSize := ring.buffers f (by simp)
    rw [ring.fifoFrame_eq, (ring.free_open f (.head _)).2, drained, List.flatMap_nil,
      List.nil_append, List.length_take]
    exact Nat.min_eq_left (by omega)

/-- A pass of the drain finishes no frame. -/
private theorem fe_pass (h : Streamed mem p finished (f :: rest)) (d : δ)
    (unframed : (drainSize dev p d).1 = 0) : (fifoReadPass dev mem p d).1.frame.fe = false := by
  have filled := Framed.filled dev h.ring d
  have going : ¬(0 < (fifoReadFetch dev mem p.load d).1.rxFrameSize ∧
      (fifoReadFetch dev mem p.load d).1.rxFrameSize ≤
        (fifoReadFetch dev mem p.load d).1.rxBytesInFrame) := by
    rw [fetch_eq]
    dsimp only
    omega
  rw [fifoReadPass]
  by_cases full : mem.rxSize ≤ cnt (fifoReadFetch dev mem p.load d).1.newControl
  · rw [finish_full dev mem _ _ going full]
    simp [filled.fe]
  · rw [finish_more dev mem _ _ going (Nat.lt_of_not_le full) filled.cstop]
    exact filled.fe

private theorem fe_set {descs : List IoFrame} (fe : ∀ f ∈ descs, f.fe = false) (i : Nat) {g : IoFrame}
    (new : g.fe = false) : ∀ f ∈ descs.set i g, f.fe = false := by
  intro f member
  rcases List.mem_or_eq_of_mem_set member with old | rfl
  · exact fe f old
  · exact new

private theorem fe_streamDescriptor (mem : Memory) (fe : f.fe = false) (i space : Nat) :
    (streamDescriptor mem i space f).1.fe = false := by
  rw [streamDescriptor_eq]
  split
  next => exact (streamedFrame_empty i f).1.1
  next => exact fe

/-- A read finishes none either. -/
private theorem fe_readLoop (fe : ∀ f ∈ p.rxDescriptors, f.fe = false)
    (bufLength passes outLength : Nat)
    (tempData : List UInt8) :
    ∀ f ∈ (userReadStreamLoop mem bufLength passes p outLength tempData).1.rxDescriptors,
      f.fe = false := by
  -- Induction on the passes. A stream has no `FE`, and a read sets none.
  induction passes generalizing p outLength tempData with
  | zero => exact fe
  | succ passes ih =>
    have user : p.userFrame.fe = false := by
      rw [RxPort.userFrame, List.getD_eq_getElem?_getD]
      cases here : p.rxDescriptors[p.userRxDesc]? with
      | none => rfl
      | some f => exact fe f (List.mem_of_getElem? here)
    have left := fe_set fe p.userRxDesc (fe_streamDescriptor mem user
      (mem.rxNum - (passes + 1)) (subSize bufLength outLength))
    rw [userReadStreamLoop]
    generalize streamDescriptor mem (mem.rxNum - (passes + 1)) (subSize bufLength outLength)
      p.userFrame = read at left ⊢
    by_cases stop : (!p.userFrame.fe && !p.userFrame.cstop) = true
    · rw [if_pos stop]
      exact fe
    · rw [if_neg stop]
      cases emptied : read.2.2 with
      | true =>
        simp only [emptied, if_true]
        exact ih (p := p.putUser mem read.1) left _ _
      | false =>
        simp only [emptied, Bool.false_eq_true, if_false]
        exact left

/-- Between two passes of a drain that find no frame complete. -/
theorem pass {δ : Type} (dev : Device δ) (h : Unframed mem p finished (f :: rest)) (d : δ)
    (none_ : (drainSize dev p d).1 = 0) :
    ∃ finished' free', Unframed mem (p.store mem (fifoReadPass dev mem p d).1) finished' free' := by
  have fe := fe_set h.fe p.fifoRxDesc (fe_pass dev h.streamed d none_)
  obtain ⟨passed, ends⟩ := h.streamed.pass dev d none_
  generalize hasCstop (fifoReadPass dev mem p d).1.newControl = cstop at passed ends
  cases passed with
  | full g data kept =>
    refine ⟨_, _, kept, ?_, fe⟩
    intro c member
    rw [List.map_append, List.mem_append] at member
    rcases member with old | new
    · exact h.some_ c old
    -- A descriptor that is full holds bytes.
    · have pos := mem.rxSize_pos
      have room := h.streamed.ring.free_room f (.head _)
      have buffer : f.buffer.length = mem.rxSize := h.streamed.ring.buffers f (by simp)
      have full := of_decide_eq_true ends.symm
      rw [List.map_singleton, List.mem_singleton] at new
      apply List.ne_nil_of_length_pos
      rw [new, data, List.length_append, List.length_take]
      omega
  | more g data kept => exact ⟨_, _, kept, h.some_, fe⟩

section Drain

variable {d : StreamFifo}

/-- What a pass takes goes to the end of the ring. -/
private theorem grown_pass {start : RxPort} {first d : StreamFifo}
    (h : Grown mem start first p d) (opened : p.fifoFrame.cstop = false) :
    Grown mem start first (p.store mem (fifoReadPass streamFifo mem p d).1)
      (fifoReadPass streamFifo mem p d).2 := by
  obtain ⟨finished, free, kept⟩ := h.unframed
  obtain ⟨moved, taken, held⟩ := h.bytes
  cases free with
  | nil => rw [kept.streamed.ring.fifoFrame_full] at opened; cases opened
  | cons f rest =>
    have none_ := (drainSize_streamFifo kept.streamed.unframed d).1
    refine ⟨kept.pass streamFifo d none_, moved ++ (drainData streamFifo mem p d).1, ?_, ?_⟩
    · rw [kept.streamed.taken_pass, taken, List.append_assoc]
    · rw [kept.streamed.ringBytes_pass, held, List.append_assoc]

/-- A drain puts what it takes at the end of the ring. -/
private theorem drain (h : Unframed mem p finished free) (d : StreamFifo) :
    Grown mem p d (fifoReadData streamFifo mem p d).1 (fifoReadData streamFifo mem p d).2 := by
  apply fifoReadLoop_rule streamFifo mem (P := fun _ => Grown mem p d) (Q := Grown mem p d)
  · intro q e kept
    exact kept
  · intro n q e kept _
    exact kept
  · intro n q e kept opened _
    exact grown_pass kept opened
  · intro n q e kept opened _
    exact grown_pass kept opened
  · exact ⟨⟨finished, free, h⟩, [], by simp, by simp⟩

end Drain

/-- A read takes what it returns from the front of the ring. -/
theorem read (h : Unframed mem p finished free) {bufLength : Nat}
    (size : bufLength < 18446744073709551616) (alloc : Bool) :
    (∃ finished' free', Unframed mem (userReadStream mem bufLength alloc 0 p).2 finished' free') ∧
      p.ringBytes = (userReadStream mem bufLength alloc 0 p).1 ++
        (userReadStream mem bufLength alloc 0 p).2.ringBytes := by
  cases alloc with
  | false => exact ⟨⟨finished, free, h⟩, rfl⟩
  | true =>
    obtain ⟨⟨finished', free', left⟩, -, result⟩ := h.streamed.read size 0
    refine ⟨⟨finished', free', left.streamed, ?_, fe_readLoop h.fe _ _ _ _⟩, ?_⟩
    · rw [left.data]
      exact Chunks.ne_nil_of_mem_read _ _ h.some_
    · rw [h.streamed.pieces.ringBytes_eq, left.streamed.pieces.ringBytes_eq, left.data,
        left.drained, result, Nat.sub_zero, List.take_length, ← List.append_assoc,
        Chunks.read_append]

/-- A read with room for a byte returns one if a descriptor is finished. -/
private theorem read_some (h : Unframed mem p finished free) (bufLength : BitVec 64)
    (room : bufLength ≠ 0#64) (ready : 0 < (finished.map IoFrame.data).flatten.length) :
    0 < (userReadStream mem bufLength.toNat true 0 p).1.length := by
  obtain ⟨-, -, result⟩ := h.streamed.read bufLength.isLt 0
  have pos : 0 < bufLength.toNat := by
    apply Nat.pos_of_ne_zero
    intro zero
    exact room (BitVec.eq_of_toNat_eq zero)
  rw [result, Nat.sub_zero, List.take_length, Chunks.fst_read, List.length_take]
  omega

/-- A purge leaves a ring without frames. -/
theorem reset (size : p.rxDescriptors.length = mem.rxNum)
    (buffers : ∀ f ∈ p.rxDescriptors, f.buffer.length = mem.rxSize) :
    Unframed mem (resetRx mem p) [] (p.rxDescriptors.map (purgedRxFrame mem)) where
  streamed := Streamed.reset size buffers
  some_ := by simp
  fe := by simp [resetRx, purgedRxFrame]

end Unframed

/-! ### Every reachable state -/

/-- A port in streaming mode, its receiver, and the bytes that have come into the ring and that no
reader has been given. -/
structure ReadySystem where
  port : RxPort
  fifo : StreamFifo
  unread : List UInt8

/-- Bytes arrive; the driver drains the FIFO; the stream is read; or the ring is purged, whose clock
check reads `moments` and whose RRES, if it is issued, empties the FIFO. -/
inductive ReadyEvent where
  | arrive (bytes : List UInt8)
  | drain (moments : List Moment) (now : Timestamp)
  | read (bufLength : BitVec 64) (alloc : Bool)
  | purge (cfg : PortConfig) (moments : List Moment)

/-- The port in FIFO mode, streaming. All of a copy to the user succeeds. -/
def readyMachine (mem : Memory) : Machine ReadySystem ReadyEvent where
  init s := Fresh mem s.port ∧ s.unread = []
  step s
    | .arrive bytes => some { s with fifo := { s.fifo with waiting := s.fifo.waiting ++ bytes } }
    | .drain moments now =>
      let drained := fifoReadData streamFifo mem s.port
        { s.fifo with moments := moments, clock := now }
      some ⟨drained.1, drained.2, s.unread ++ drained.2.taken.drop s.fifo.taken.length⟩
    | .read bufLength alloc =>
      let read := userReadStream mem bufLength.toNat alloc 0 s.port
      some ⟨read.2, s.fifo, s.unread.drop read.1.length⟩
    | .purge cfg moments =>
      if cfg.isDma then none
      else
        let purged := ioPurgeRx streamFifo mem cfg s.port { s.fifo with moments := moments }
        some ⟨purged.1,
          if purged.2.1 = [] then purged.2.2 else { purged.2.2 with waiting := [] }, []⟩

/-- The ring holds the bytes that are still to be read. -/
structure Waiting (mem : Memory) (s : ReadySystem) : Prop where
  unframed : ∃ finished free, Unframed mem s.port finished free
  bytes : s.port.ringBytes = s.unread

namespace Waiting

variable {s t : ReadySystem}

private theorem init (start : (readyMachine mem).init s) : Waiting mem s := by
  obtain ⟨⟨q, made, size, buffers⟩, unread⟩ := start
  have reset := Unframed.reset size buffers
  rw [← made] at reset
  refine ⟨⟨_, _, reset⟩, ?_⟩
  rw [unread, made]
  exact ringBytes_resetRx size buffers

/-- What one step keeps. -/
private theorem step (h : Waiting mem s) {e : ReadyEvent}
    (stepped : (readyMachine mem).step s e = some t) :
    Waiting mem t := by
  obtain ⟨finished, free, unframed⟩ := h.unframed
  cases e with
  | arrive bytes =>
    obtain rfl := Option.some.inj stepped
    exact ⟨h.unframed, h.bytes⟩
  -- The drain moves bytes from the FIFO to the ring, in their order.
  | drain moments now =>
    obtain rfl := Option.some.inj stepped
    have grown := unframed.drain { s.fifo with moments := moments, clock := now }
    obtain ⟨moved, taken, held⟩ := grown.bytes
    refine ⟨grown.unframed, ?_⟩
    dsimp only
    rw [held, taken, List.drop_left, h.bytes]
  | read bufLength alloc =>
    obtain rfl := Option.some.inj stepped
    obtain ⟨left, held⟩ := unframed.read bufLength.isLt alloc
    refine ⟨left, ?_⟩
    dsimp only
    rw [← h.bytes, held, List.drop_left]
  | purge cfg moments =>
    change (if cfg.isDma then none else _) = _ at stepped
    split at stepped
    next => cases stepped
    next =>
      obtain rfl := Option.some.inj stepped
      have ring := unframed.streamed.ring
      exact ⟨⟨_, _, Unframed.reset ring.size ring.buffers_mem⟩,
        ringBytes_resetRx ring.size ring.buffers_mem⟩

end Waiting

/-- In every run a reader of the stream is let through just when a byte that is still to be read is
in a finished descriptor; and a read with room for a byte then returns one. -/
theorem ready_when_finished {s : ReadySystem} (reached : (readyMachine mem).Reached s) :
    (ioUserReadReady mem true s.port = true ↔ s.port.filling < s.unread.length) ∧
      (ioUserReadReady mem true s.port = true → ∀ bufLength : BitVec 64, bufLength ≠ 0#64 →
        0 < (userReadStream mem bufLength.toNat true 0 s.port).1.length) := by
  have waiting : Waiting mem s :=
    reached.invariant (fun _ => Waiting.init) fun _ _ _ kept stepped => kept.step stepped
  obtain ⟨finished, free, unframed⟩ := waiting.unframed
  have length := unframed.length_ringBytes
  rw [waiting.bytes] at length
  rw [unframed.ready_iff]
  refine ⟨by omega, ?_⟩
  intro ready bufLength room
  exact unframed.read_some bufLength room ready

/-- A fresh port with two descriptors, and four bytes waiting. -/
def beforeFour : ReadySystem where
  port := freshRx .small [1, 2]
  fifo := ⟨[1, 2, 3, 4], [], [], .clear⟩
  unread := []

/-- RFCNT, and RXCNT with four bytes there. -/
def fourMoments : List Moment := [⟨[], 0#32⟩, ⟨[], 4#32⟩]

/-- Four of the eight bytes of a descriptor have been moved into the ring, and no reader is let
through. With all eight one is, and gets none of them if there is no memory for its buffer. -/
theorem stream_waits_in_descriptor :
    (¬∀ s, (readyMachine .small).Reached s →
      (ioUserReadReady .small true s.port = true ↔ s.unread ≠ [])) ∧
    ¬∀ s alloc, (readyMachine .small).Reached s → ioUserReadReady .small true s.port = true →
      0 < (userReadStream .small 8 alloc 0 s.port).1.length := by
  have fresh : (readyMachine .small).init beforeFour := ⟨fresh_freshRx .small rfl, rfl⟩
  constructor
  · intro documented
    have reached := Machine.Reached.replay (.init fresh) [.drain fourMoments .clear] rfl
    have waits := documented _ reached
    revert waits
    decide
  · intro documented
    have reached := Machine.Reached.replay (.init fresh)
      [.arrive [5, 6, 7, 8], .drain [⟨[], 0#32⟩, ⟨[], 8#32⟩] .clear] rfl
    have returns := documented _ false reached (by decide)
    revert returns
    decide

/-- With eight bytes the descriptor is finished; a read of five leaves three to be read. -/
theorem ready_when_finished_eight :
    ∃ s, (readyMachine .small).replay beforeFour
        [.arrive [5, 6, 7, 8], .drain [⟨[], 0#32⟩, ⟨[], 8#32⟩] .clear, .read 5#64 true] = some s ∧
      s.unread = [6, 7, 8] ∧
      (ioUserReadReady .small true s.port = true ↔ s.port.filling < s.unread.length) ∧
      (ioUserReadReady .small true s.port = true → ∀ bufLength : BitVec 64, bufLength ≠ 0#64 →
        0 < (userReadStream .small bufLength.toNat true 0 s.port).1.length) := by
  have fresh : (readyMachine .small).init beforeFour := ⟨fresh_freshRx .small rfl, rfl⟩
  exact ⟨_, rfl, by decide, ready_when_finished (.replay (.init fresh)
    [.arrive [5, 6, 7, 8], .drain [⟨[], 0#32⟩, ⟨[], 8#32⟩] .clear, .read 5#64 true] rfl)⟩

end Fscc
