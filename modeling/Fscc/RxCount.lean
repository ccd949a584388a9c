import Fscc.Receiver
import Fscc.RxFrames

/-!
# Counting what waits

The drain over a receiver that moves between any two accesses. No byte is followed here,
only how many there are: what has been drained of the unfinished frame and what waits in
the FIFO never exceed the frames that are not finalised. `Counted` says so, and exactly so
as long as no word of a later frame has been taken for the unfinished one.
-/

namespace Fscc

variable {mem : Memory}

/-! ### Accesses to a moving receiver -/

namespace Receiver

/-- From `r` to `r'` the frames `done` have become complete, `x` bytes have arrived, and
words of `k` bytes have been read. Reading an empty FIFO takes nothing. -/
structure Moved (r r' : Receiver) (done : List WireFrame) (x k : Nat) : Prop where
  received : r'.received = r.received ++ done
  line : r.line = done ++ r'.line
  lengths : r'.lengths = r.lengths ++ done.map WireFrame.length
  front : (done.flatMap WireFrame.padded).length + r'.front.length = r.front.length + x
  atMost : r'.fifo.length + min k r.fifo.length ≤ r.fifo.length + x
  exactly : k ≤ r.fifo.length → r'.fifo.length + k = r.fifo.length + x
  ok : r.Ok → r'.Ok

theorem Arrived.moved {r r' : Receiver} {done : List WireFrame} {data : List UInt8}
    (h : Arrived r r' done data) : Moved r r' done data.length 0 where
  received := h.received
  line := h.line
  lengths := h.lengths
  front := by simpa using congrArg List.length h.front
  atMost := by simp [h.fifo]
  exactly := by simp [h.fifo]
  ok := h.ok

theorem moved_pop (r : Receiver) (k : Nat) : Moved r (r.pop k) [] 0 k where
  received := by simp [pop]
  line := rfl
  lengths := by simp [pop]
  front := by simp [pop, Receiver.front]
  atMost := by
    simp only [pop, List.length_drop]
    omega
  exactly := by
    simp only [pop, List.length_drop]
    omega
  ok := fun ok => ok.pop k

private theorem Moved.trans {r₁ r₂ r₃ : Receiver} {done₁ done₂ : List WireFrame} {x₁ x₂ k₁ k₂ : Nat}
    (first : Moved r₁ r₂ done₁ x₁ k₁) (second : Moved r₂ r₃ done₂ x₂ k₂) :
    Moved r₁ r₃ (done₁ ++ done₂) (x₁ + x₂) (k₁ + k₂) := by
  have front₁ := first.front
  have front₂ := second.front
  have atMost₁ := first.atMost
  have atMost₂ := second.atMost
  have exactly₁ := first.exactly
  have exactly₂ := second.exactly
  exact {
    received := by rw [second.received, first.received, List.append_assoc]
    line := by rw [first.line, second.line, List.append_assoc]
    lengths := by rw [second.lengths, first.lengths, List.map_append, List.append_assoc]
    front := by
      rw [List.flatMap_append, List.length_append]
      omega
    atMost := by omega
    exactly := by omega
    ok := fun ok => second.ok (first.ok ok) }

private theorem moved_now (s : Raced) : ∃ done x, Moved s.hardware s.now done x 0 := by
  obtain ⟨done, data, h⟩ := arrived_arrivals s.hardware (s.schedule.headD [])
  exact ⟨done, data.length, h.moved⟩

private theorem moved_readFifo (s : Raced) :
    ∃ done x, Moved s.hardware (raced.readFifo s).2.hardware done x 4 := by
  obtain ⟨done, x, now⟩ := moved_now s
  have read := now.trans (moved_pop s.now 4)
  rw [List.append_nil, Nat.add_zero, Nat.zero_add] at read
  exact ⟨done, x, read⟩

theorem Arrived.frames {r r' : Receiver} {done : List WireFrame} {data : List UInt8}
    (h : Arrived r r' done data) : r'.received ++ r'.line = r.received ++ r.line := by
  rw [h.received, h.line, List.append_assoc]

private theorem getRegister_received (offset : Nat) (r : Receiver) :
    (receiver.getRegister offset r).2.received = r.received ∧
      (receiver.getRegister offset r).2.line = r.line := by
  simp only [receiver, getRegister]
  split
  · exact ⟨rfl, rfl⟩
  · split
    · exact ⟨rfl, rfl⟩
    · split <;> exact ⟨rfl, rfl⟩

/-- No access makes up a frame or loses one. -/
theorem keeps_frames (frames : List WireFrame) :
    raced.Keeps fun s => s.hardware.received ++ s.hardware.line = frames := by
  have now (s : Raced) (h : s.hardware.received ++ s.hardware.line = frames) :
      s.now.received ++ s.now.line = frames := by
    obtain ⟨done, data, arrived⟩ := arrived_arrivals s.hardware (s.schedule.headD [])
    exact arrived.frames.trans h
  refine ⟨fun offset s h => ?_, fun s h => now s h, fun s h => now s h⟩
  obtain ⟨received, line⟩ := getRegister_received offset s.now
  change (receiver.getRegister offset s.now).2.received ++
    (receiver.getRegister offset s.now).2.line = frames
  rw [received, line]
  exact now s h

/-- No access takes back a frame received. -/
theorem keeps_received (old : List WireFrame) :
    raced.Keeps fun s => old <+: s.hardware.received := by
  have now (s : Raced) (h : old <+: s.hardware.received) : old <+: s.now.received := by
    obtain ⟨done, data, arrived⟩ := arrived_arrivals s.hardware (s.schedule.headD [])
    exact h.trans ⟨done, arrived.received.symm⟩
  refine ⟨fun offset s h => ?_, fun s h => now s h, fun s h => now s h⟩
  change old <+: (receiver.getRegister offset s.now).2.received
  rw [(getRegister_received offset s.now).1]
  exact now s h

variable (mem) in
/-- The end of a pass reads the clock at most. -/
theorem moved_finish (d : Drain) (s : Raced) :
    ∃ done x, Moved s.hardware (fifoReadFinish raced mem d s).2.hardware done x 0 := by
  rcases finish_device raced mem d s with same | clock
  · rw [same]
    exact ⟨[], 0, moved_pop s.hardware 0⟩
  · rw [clock]
    exact moved_now s

private theorem moved_ioread32Rep (n : Nat) (s : Raced) :
    ∃ done x, Moved s.hardware (ioread32Rep raced n s).2.hardware done x (4 * n) := by
  induction n generalizing s with
  | zero => exact ⟨[], 0, by simpa [ioread32Rep, pop] using moved_pop s.hardware 0⟩
  | succ n ih =>
    obtain ⟨done₁, x₁, first⟩ := moved_readFifo s
    obtain ⟨done₂, x₂, second⟩ := ih (raced.readFifo s).2
    have both := first.trans second
    rw [show 4 + 4 * n = 4 * (n + 1) by omega] at both
    exact ⟨_, _, both⟩

/-- A repeated read of `n` bytes takes the words that hold them. -/
private theorem moved_cardGetRegisterRep (n : Nat) (s : Raced) :
    ∃ done x, Moved s.hardware (cardGetRegisterRep raced n s).2.hardware done x (roundUp n) := by
  obtain ⟨done, x, whole⟩ := moved_ioread32Rep ((n - n % 4) / 4) s
  unfold cardGetRegisterRep roundUp
  dsimp only
  split
  next none_ =>
    rw [show 4 * ((n - n % 4) / 4) = (n + 3) / 4 * 4 by omega] at whole
    exact ⟨done, x, whole⟩
  next rest =>
    obtain ⟨done', x', last⟩ := moved_readFifo (ioread32Rep raced ((n - n % 4) / 4) s).2
    have both := whole.trans last
    rw [show 4 * ((n - n % 4) / 4) + 4 = (n + 3) / 4 * 4 by omega] at both
    exact ⟨_, _, both⟩

end Receiver

open Receiver (roundUp Moved)

/-! ### The count -/

/-- `bytes` have been drained of the unfinished frame. With what waits in the FIFO they are
at most the frames `pending`, which are complete but not finalised, and what has arrived of
the frame on the line. When `exact_` holds they are all of that, and none of `bytes` belongs
to a later frame. -/
structure Counted (exact_ : Prop) (bytes : Nat) (size : Int) (r : Receiver)
    (pending : List WireFrame) : Prop where
  lengths : size = 0 ∧ r.lengths = pending.map WireFrame.length ∨
    ∃ w ws, pending = w :: ws ∧ size = w.length ∧ r.lengths = ws.map WireFrame.length
  atMost : roundUp bytes + r.fifo.length ≤
    (pending.flatMap WireFrame.padded).length + r.front.length
  atLeast : exact_ → (pending.flatMap WireFrame.padded).length + r.front.length ≤
    roundUp bytes + r.fifo.length
  within : exact_ → ∀ w ∈ (pending ++ r.line).head?, bytes ≤ w.padded.length
  ok : r.Ok

namespace Counted

variable {exact_ : Prop} {bytes : Nat} {size : Int} {r r' : Receiver}
  {pending done : List WireFrame} {x : Nat}

theorem idle (line : List WireFrame) (clock : Timestamp) :
    Counted exact_ 0 0 (.idle line clock) [] where
  lengths := .inl ⟨rfl, rfl⟩
  atMost := by simp [roundUp, Receiver.idle]
  atLeast := by
    intro _
    unfold Receiver.front Receiver.idle
    cases line <;> simp
  within := fun _ _ _ => Nat.zero_le _
  ok := ⟨by simp [Receiver.idle], by simp [Receiver.idle], by
    intro w rest _
    simpa [Receiver.idle, WireFrame.length] using w.status⟩

private theorem lengths_moved {k : Nat} (h : Counted exact_ bytes size r pending)
    (moved : Moved r r' done x k) :
    size = 0 ∧ r'.lengths = (pending ++ done).map WireFrame.length ∨
      ∃ w ws, pending ++ done = w :: ws ∧ size = w.length ∧
        r'.lengths = ws.map WireFrame.length := by
  rcases h.lengths with ⟨none_, lengths⟩ | ⟨w, ws, rfl, known, lengths⟩
  · exact .inl ⟨none_, by rw [moved.lengths, lengths, List.map_append]⟩
  · exact .inr ⟨w, ws ++ done, rfl, known, by rw [moved.lengths, lengths, List.map_append]⟩

/-- `n` more bytes are drained. They are there in whole words, or the drain knows from the
length of the frame that they belong to it. -/
theorem read {n : Nat} (h : Counted exact_ bytes size r pending)
    (moved : Moved r r' done x (roundUp n)) (words : bytes % 4 = 0)
    (owned : n ≤ r.fifo.length ∧ n % 4 = 0 ∨
      ∃ w ws, pending = w :: ws ∧ (n = 0 ∨ bytes + n ≤ w.length))
    (inside : exact_ → ∀ w ∈ (pending ++ r.line).head?, bytes + n ≤ w.padded.length) :
    Counted exact_ (bytes + n) size r' (pending ++ done) := by
  have atMost := h.atMost
  have front := moved.front
  have few := moved.atMost
  have all := moved.exactly
  -- The bytes taken so far are whole words, so that the new ones are rounded up alone.
  have sum : roundUp (bytes + n) = bytes + roundUp n := by
    unfold roundUp
    omega
  have old : roundUp bytes = bytes := by
    unfold roundUp
    omega
  rw [old] at atMost
  exact {
    lengths := h.lengths_moved moved
    atMost := by
      rw [sum, List.flatMap_append, List.length_append]
      -- They are words that have arrived, or bytes of the oldest complete frame.
      rcases owned with ⟨here, whole⟩ | ⟨w, ws, rfl, none_ | bound⟩
      · have : roundUp n = n := by
          unfold roundUp
          omega
        omega
      · subst none_
        have : roundUp 0 = 0 := rfl
        omega
      · have padded := w.length_padded_eq
        have : bytes + roundUp n ≤ w.padded.length := by
          unfold roundUp
          omega
        rw [List.flatMap_cons, List.length_append] at atMost ⊢
        omega
    atLeast := by
      intro on
      have atLeast := h.atLeast on
      rw [old] at atLeast
      rw [sum, List.flatMap_append, List.length_append]
      -- All of them are in the FIFO, so that exactly these are taken.
      have here : roundUp n ≤ r.fifo.length := by
        rcases owned with ⟨here, whole⟩ | ⟨w, ws, rfl, none_ | bound⟩
        · unfold roundUp
          omega
        · subst none_
          exact Nat.zero_le _
        · have padded := w.length_padded_eq
          have : bytes + roundUp n ≤ w.padded.length := by
            unfold roundUp
            omega
          rw [List.flatMap_cons, List.length_append] at atLeast
          omega
      have := all here
      omega
    within := by
      rw [List.append_assoc, ← moved.line]
      exact inside
    ok := moved.ok h.ok }

/-- Arrivals alone. -/
theorem moved (h : Counted exact_ bytes size r pending) (moved : Moved r r' done x 0) :
    Counted exact_ bytes size r' (pending ++ done) where
  lengths := h.lengths_moved moved
  atMost := by
    have := h.atMost
    have := moved.front
    have := moved.exactly (Nat.zero_le _)
    rw [List.flatMap_append, List.length_append]
    omega
  atLeast := by
    intro on
    have := h.atLeast on
    have := moved.front
    have := moved.exactly (Nat.zero_le _)
    rw [List.flatMap_append, List.length_append]
    omega
  within := by
    rw [List.append_assoc, ← moved.line]
    exact h.within
  ok := moved.ok h.ok

/-- A purge with `RRES`. -/
theorem reset (r : Receiver) : Counted exact_ 0 0 r.reset [] where
  lengths := .inl ⟨rfl, rfl⟩
  atMost := by simp [roundUp, Receiver.reset]
  atLeast := by
    intro _
    unfold Receiver.front
    split <;> simp [Receiver.reset]
  within := fun _ _ _ => Nat.zero_le _
  ok := ⟨by simp [Receiver.reset], by simp [Receiver.reset], by
    intro w rest _
    simpa [Receiver.reset, WireFrame.length] using w.status⟩

/-- The length of the oldest complete frame is taken. -/
theorem take {w : WireFrame} {ws : List WireFrame} (h : Counted exact_ bytes 0 r (w :: ws)) :
    Counted exact_ bytes w.length { r with lengths := ws.map WireFrame.length } (w :: ws) where
  lengths := .inr ⟨w, ws, rfl, rfl, rfl⟩
  atMost := h.atMost
  atLeast := h.atLeast
  within := h.within
  ok := by
    have lengths := h.ok.lengths
    rcases h.lengths with ⟨-, eq⟩ | ⟨x, xs, eq, known, -⟩
    · rw [eq, List.length_map, List.length_cons] at lengths
      exact ⟨h.ok.fifo, by rw [List.length_map]; omega, h.ok.opened⟩
    · obtain ⟨rfl, rfl⟩ := List.cons.inj eq
      have := w.status
      rw [WireFrame.length] at known
      omega

/-- The oldest complete frame is finalised. -/
theorem finish {w : WireFrame} {ws : List WireFrame} (h : Counted exact_ bytes size r (w :: ws))
    (known : size = w.length) (ended : w.length ≤ bytes) : Counted exact_ 0 0 r ws where
  lengths := by
    -- A length is known here, so that the frame's own is off the receiver's list.
    rcases h.lengths with ⟨none_, -⟩ | ⟨x, xs, eq, -, lengths⟩
    · have := w.status
      rw [known, WireFrame.length] at none_
      omega
    · obtain ⟨rfl, rfl⟩ := List.cons.inj eq
      exact .inl ⟨rfl, lengths⟩
  atMost := by
    have atMost := h.atMost
    have padded := w.length_padded_eq
    rw [List.flatMap_cons, List.length_append] at atMost
    unfold roundUp at *
    omega
  -- The frame has been taken to the last byte of its padding.
  atLeast := by
    intro on
    have atLeast := h.atLeast on
    have within := h.within on w (by simp)
    have padded := w.length_padded_eq
    rw [List.flatMap_cons, List.length_append] at atLeast
    unfold roundUp at *
    omega
  within := fun _ _ _ => Nat.zero_le _
  ok := h.ok

/-- While no length is known or waits to be taken no frame is complete. -/
private theorem eq_nil (h : Counted exact_ bytes 0 r pending) (none_ : r.lengths = []) : pending = [] := by
  rcases h.lengths with ⟨-, lengths⟩ | ⟨w, ws, -, known, -⟩
  · rw [none_] at lengths
    exact List.map_eq_nil_iff.mp lengths.symm
  · have := w.status
    rw [WireFrame.length] at known
    omega

end Counted

/-! ### The first half of a pass -/

/-- The receiver when a pass that knows no length reads RFCNT. -/
def Raced.atRfcnt (s : Raced) : Receiver := s.now

/-- The receiver when the pass reads RXCNT, with RFCNT read as zero. -/
def Raced.atRxcnt (s : Raced) : Receiver := s.now.arrivals (s.schedule.tail.headD [])

/-- RFCNT is read as zero, and a frame becomes complete before RXCNT is read. -/
def Slipped (p : RxPort) (s : Raced) : Prop :=
  p.rxFrameSize = 0 ∧ s.atRfcnt.lengths = [] ∧ s.atRxcnt.lengths ≠ []

variable (mem) in
/-- The whole words that wait when RXCNT is read, as far as the descriptor has room. -/
def waitingWords (p : RxPort) (s : Raced) : Nat :=
  min (s.atRxcnt.fifo.length - s.atRxcnt.fifo.length % 4) (mem.rxSize - p.fifoFrame.count)

private theorem ioGetRFCNT_raced {s : Raced} (ok : s.now.Ok) :
    ioGetRFCNT raced s = (s.atRfcnt.lengths.length, ⟨s.now, s.schedule.tail⟩) := by
  have read := Receiver.ioGetRFCNT_receiver s.now ok
  change ((ioGetRFCNT receiver s.now).1, Raced.mk (ioGetRFCNT receiver s.now).2 s.schedule.tail) = _
  rw [read]
  rfl

private theorem ioGetRXCNT_raced {s : Raced} (ok : s.now.Ok) :
    ioGetRXCNT raced s = (s.now.fifo.length, ⟨s.now, s.schedule.tail⟩) := by
  have read := Receiver.ioGetRXCNT_receiver s.now ok
  change ((ioGetRXCNT receiver s.now).1, Raced.mk (ioGetRXCNT receiver s.now).2 s.schedule.tail) = _
  rw [read]

private theorem getRegister_bcFifoL_raced (s : Raced) :
    raced.getRegister bcFifoLOffset s = (BitVec.ofNat 32 (s.now.lengths.headD 0),
      ⟨{ s.now with lengths := s.now.lengths.tail }, s.schedule.tail⟩) := by
  have read := Receiver.getRegister_bcFifoL s.now
  change ((receiver.getRegister bcFifoLOffset s.now).1,
    Raced.mk (receiver.getRegister bcFifoLOffset s.now).2 s.schedule.tail) = _
  rw [read]

variable (mem) in
private theorem moved_drainData {p : RxPort} {s : Raced} :
    ∃ done x, Moved (drainLength raced mem p s).2.hardware (drainData raced mem p s).2.hardware
      done x (roundUp (drainLength raced mem p s).1) := by
  unfold drainData
  split
  next none_ =>
    exact ⟨[], 0, by
      rw [none_]
      exact Receiver.moved_pop _ 0⟩
  next => exact Receiver.moved_cardGetRegisterRep _ _

variable (mem) in
/-- What the first half of a pass does to the receiver and the count. -/
structure Fetched (exact_ : Prop) (bytes : Nat) (p : RxPort) (s : Raced)
    (pending : List WireFrame) (size : Int) (n : Nat) (r' : Receiver)
    (done : List WireFrame) : Prop where
  received : r'.received = s.hardware.received ++ done
  line : s.hardware.line = done ++ r'.line
  counted : Counted exact_ (bytes + n) size r' (pending ++ done)
  unknown : size = 0 → pending = [] ∧ n = waitingWords mem p s ∧ (Slipped p s ∨
    (pending ++ s.hardware.line = [] → bytes + n = 0) ∧
      ∀ w ∈ (pending ++ s.hardware.line).head?, bytes + n + 2 ≤ w.length)

namespace Counted

variable {exact_ : Prop} {p : RxPort} {groups : List (FrameGroup mem)} {part rest : List IoFrame}
  {f : IoFrame} {s t : Raced} {pending : List WireFrame} {w : WireFrame} {ws : List WireFrame}

/-- With a length the drain takes bytes of the frame it belongs to. -/
private theorem fetch_known (framed : Framed mem p groups part (f :: rest))
    (size : drainSize raced p s = ((w.length : Int), t)) (short : w.length < 2147483648)
    (h : Counted exact_ (drained part (f :: rest)).length w.length t.hardware (w :: ws)) :
    ∃ done x, Moved t.hardware (drainData raced mem p s).2.hardware done x
        (roundUp (drainLength raced mem p s).1) ∧
      Counted exact_ ((drained part (f :: rest)).length + (drainLength raced mem p s).1) w.length
        (drainData raced mem p s).2.hardware (w :: ws ++ done) := by
  have words := framed.drained_words
  have long : 2 ≤ w.length := w.status
  have length := drainLength_known raced mem framed s (by rw [size]; dsimp only; omega)
    (by rw [size]; dsimp only; omega)
  have device := drainLength_device_known raced mem (p := p) (d := s)
    (by rw [size]; dsimp only; omega)
  obtain ⟨done, x, moved⟩ := moved_drainData mem (p := p) (s := s)
  have padded := w.length_padded
  rw [device, size] at moved
  rw [size, framed.bytes_eq] at length
  dsimp only at length moved
  refine ⟨done, x, moved, h.read moved words (.inr ⟨w, ws, rfl, by omega⟩) ?_⟩
  intro on y member
  obtain rfl : w = y := by simpa using member
  have := h.within on w (by simp)
  omega

/-- With no complete frame the words that wait are of the frame on the line, before its status. -/
private theorem waiting {bytes : Nat} (h : Counted exact_ bytes 0 s.atRxcnt []) (whole : bytes % 4 = 0) :
    (s.atRxcnt.line = [] → bytes + waitingWords mem p s = 0) ∧
      ∀ w ∈ s.atRxcnt.line.head?, bytes + waitingWords mem p s + 2 ≤ w.length := by
  have atMost := h.atMost
  have old : roundUp bytes = bytes := by
    unfold roundUp
    omega
  rw [List.flatMap_nil, List.length_nil, old] at atMost
  rw [waitingWords]
  constructor
  · intro idle
    have front : s.atRxcnt.front = [] := by rw [Receiver.front, idle]
    rw [front, List.length_nil] at atMost
    omega
  · intro w member
    have front := h.ok.length_front w member
    omega

/-- Without a length and without a complete frame the drain takes the words that wait. -/
private theorem fetch_unknown (framed : Framed mem p groups part (f :: rest))
    (none_ : p.rxFrameSize = 0) (zero : s.atRfcnt.lengths = [])
    (clear : exact_ → Slipped p s → ∀ w ∈ (pending ++ s.hardware.line).head?,
      (drained part (f :: rest)).length + waitingWords mem p s ≤ w.padded.length)
    (h : Counted exact_ (drained part (f :: rest)).length 0 s.hardware pending) :
    ∃ done, Fetched mem exact_ (drained part (f :: rest)).length p s pending
      (drainSize raced p s).1 (drainLength raced mem p s).1 (drainData raced mem p s).2.hardware
      done := by
  obtain ⟨done₁, x₁, moved₁⟩ := Receiver.moved_now s
  have counted₁ := h.moved moved₁
  obtain ⟨rfl, rfl⟩ := List.append_eq_nil_iff.mp (counted₁.eq_nil zero)
  have rfcnt := ioGetRFCNT_raced (moved₁.ok h.ok)
  have size : drainSize raced p s = (0, ⟨s.now, s.schedule.tail⟩) := by
    simp [drainSize, takeFrameSize, none_, rfcnt, zero]
  obtain ⟨done₂, x₂, moved₂⟩ := Receiver.moved_now ⟨s.now, s.schedule.tail⟩
  have counted₂ := counted₁.moved moved₂
  have rxcnt := ioGetRXCNT_raced (s := ⟨s.now, s.schedule.tail⟩) counted₂.ok
  have length := drainLength_unknown raced mem framed.ring s (by rw [size])
  have device := drainLength_device_unknown raced mem (p := p) (d := s) (by rw [size])
  rw [size, rxcnt] at length device
  change Moved s.now s.atRxcnt done₂ x₂ 0 at moved₂
  change Counted exact_ _ 0 s.atRxcnt _ at counted₂
  have waiting : (drainLength raced mem p s).1 = waitingWords mem p s := by
    rw [length, waitingWords, framed.ring.fifoFrame_eq]
    rfl
  obtain ⟨done₃, x₃, moved₃⟩ := moved_drainData mem (p := p) (s := s)
  rw [device] at moved₃
  change Moved s.atRxcnt _ done₃ x₃ _ at moved₃
  have words := framed.drained_words
  have room := framed.words f (.head _)
  have size_words := mem.rxSize_words
  have all : s.hardware.line = done₂ ++ s.atRxcnt.line := by rw [moved₁.line, moved₂.line]; rfl
  have slipped : Slipped p s ↔ done₂ ≠ [] := by
    simp [Slipped, none_, zero, moved₂.lengths, show s.now.lengths = [] from zero]
  simp only [List.nil_append, List.append_nil] at counted₂ clear
  -- Unless a frame has slipped in, what waits belongs to the frame on the line.
  have own (still : done₂ = []) : (s.hardware.line = [] →
      (drained part (f :: rest)).length + waitingWords mem p s = 0) ∧
      ∀ w ∈ s.hardware.line.head?,
        (drained part (f :: rest)).length + waitingWords mem p s + 2 ≤ w.length := by
    rw [still] at counted₂
    rw [all, still, List.nil_append]
    exact counted₂.waiting (by omega)
  refine ⟨done₂ ++ done₃, ?_, ?_, ?_, fun _ => ⟨rfl, waiting, ?_⟩⟩
  · rw [moved₃.received, moved₂.received, moved₁.received, List.append_nil, List.append_assoc]
  · rw [all, moved₃.line, List.append_assoc]
  · rw [size, List.nil_append]
    refine counted₂.read moved₃ words (.inl ?_) fun on w member => ?_
    · rw [waiting, waitingWords, framed.ring.fifoFrame_eq]
      omega
    · rw [← all] at member
      rw [waiting]
      by_cases still : done₂ = []
      · have := (own still).2 w member
        have := w.length_padded
        omega
      · exact clear on (slipped.mpr still) w member
  · by_cases still : done₂ = []
    · rw [waiting]
      exact .inr (own still)
    · exact .inl (slipped.mpr still)

/-- A frame waits whole in the FIFO, but for what has been drained of it. -/
private theorem length_lt (framed : Framed mem p groups part (f :: rest))
    {r : Receiver} (on : exact_)
    (h : Counted exact_ (drained part (f :: rest)).length 0 r (w :: ws)) :
    w.length < 2147483648 := by
  have atLeast := h.atLeast on
  have fifo := h.ok.fifo
  have bound := framed.bytes_lt
  rw [← framed.length_drained] at bound
  have padded := w.length_padded
  rw [List.flatMap_cons, List.length_append] at atLeast
  unfold rxFifoSize at fifo
  unfold roundUp at atLeast
  omega

/-- Without a length but with a complete frame the drain takes its length first. -/
private theorem fetch_take (framed : Framed mem p groups part (f :: rest))
    (none_ : p.rxFrameSize = 0) (some_ : s.atRfcnt.lengths ≠ [])
    (short : exact_ ∨ ∀ w ∈ pending ++ s.hardware.line, w.length < 2147483648)
    (h : Counted exact_ (drained part (f :: rest)).length 0 s.hardware pending) :
    ∃ done, Fetched mem exact_ (drained part (f :: rest)).length p s pending
      (drainSize raced p s).1 (drainLength raced mem p s).1 (drainData raced mem p s).2.hardware
      done := by
  -- What completes while RFCNT and RXCNT are read belongs to the pending frames.
  obtain ⟨done₁, x₁, moved₁⟩ := Receiver.moved_now s
  obtain ⟨done₂, x₂, moved₂⟩ := Receiver.moved_now ⟨s.now, s.schedule.tail⟩
  change Moved s.now s.atRxcnt done₂ x₂ 0 at moved₂
  have counted := (h.moved moved₁).moved moved₂
  have all : s.hardware.line = done₁ ++ done₂ ++ s.atRxcnt.line := by
    rw [moved₁.line, moved₂.line, List.append_assoc]
  have lengths : s.atRxcnt.lengths = (pending ++ done₁ ++ done₂).map WireFrame.length := by
    rcases counted.lengths with ⟨-, lengths⟩ | ⟨w, ws, -, known, -⟩
    · exact lengths
    · have := w.status
      rw [WireFrame.length] at known
      omega
  -- RFCNT has said that there is a frame, so one is pending.
  obtain ⟨w, ws, eq⟩ : ∃ w ws, pending ++ done₁ ++ done₂ = w :: ws := by
    cases shape : pending ++ done₁ ++ done₂ with
    | nil =>
      rw [shape, moved₂.lengths] at lengths
      exact absurd (List.append_eq_nil_iff.mp lengths).1 some_
    | cons w ws => exact ⟨w, ws, rfl⟩
  rw [eq] at counted lengths
  have bound : w.length < 2147483648 := by
    rcases short with on | short
    · exact length_lt framed on counted
    · refine short w ?_
      rw [all, ← List.append_assoc, ← List.append_assoc, eq]
      simp
  -- Its length is read without loss, since it fits a signed 32-bit value.
  have value : (BitVec.ofNat 32 w.length).toInt = w.length :=
    (BitVec.toInt_ofNat' w.length).trans (CInt.toInt32_ofNat bound)
  have size : drainSize raced p s = ((w.length : Int),
      ⟨{ s.atRxcnt with lengths := ws.map WireFrame.length }, s.schedule.tail.tail⟩) := by
    have count : s.atRfcnt.lengths.length ≠ 0 := by simpa using some_
    rw [drainSize, takeFrameSize, if_pos none_, ioGetRFCNT_raced (moved₁.ok h.ok)]
    simp only [if_pos count, getRegister_bcFifoL_raced]
    change ((BitVec.ofNat 32 (s.atRxcnt.lengths.headD 0)).toInt,
      Raced.mk { s.atRxcnt with lengths := s.atRxcnt.lengths.tail } s.schedule.tail.tail) = _
    rw [lengths, List.map_cons, List.headD_cons, value, List.tail_cons]
  obtain ⟨done₃, x₃, moved₃, counted₃⟩ := fetch_known framed size bound counted.take
  refine ⟨done₁ ++ done₂ ++ done₃, ?_, ?_, ?_, ?_⟩
  · rw [moved₃.received, moved₂.received, moved₁.received]
    simp only [List.append_assoc]
  · rw [all, moved₃.line]
    simp only [List.append_assoc]
  · rw [size, ← List.append_assoc, ← List.append_assoc, eq]
    exact counted₃
  · have := w.status
    rw [size, WireFrame.length]
    omega

/-- The first half of a pass over a receiver that moves. -/
theorem fetch (framed : Framed mem p groups part (f :: rest))
    (short : exact_ ∨ ∀ w ∈ pending ++ s.hardware.line, w.length < 2147483648)
    (clear : exact_ → Slipped p s → ∀ w ∈ (pending ++ s.hardware.line).head?,
      (drained part (f :: rest)).length + waitingWords mem p s ≤ w.padded.length)
    (h : Counted exact_ (drained part (f :: rest)).length p.rxFrameSize s.hardware pending) :
    ∃ done, Fetched mem exact_ (drained part (f :: rest)).length p s pending
      (drainSize raced p s).1 (drainLength raced mem p s).1 (drainData raced mem p s).2.hardware
      done := by
  -- The length is known from a pass before, or is taken from the FIFO, or there is none yet.
  by_cases none_ : p.rxFrameSize = 0
  · by_cases zero : s.atRfcnt.lengths = []
    · rw [none_] at h
      exact fetch_unknown framed none_ zero clear h
    · rw [none_] at h
      exact fetch_take framed none_ zero short h
  · obtain ⟨w, ws, rfl, known, lengths⟩ : ∃ w ws, pending = w :: ws ∧ p.rxFrameSize = w.length ∧
        s.hardware.lengths = ws.map WireFrame.length := by
      rcases h.lengths with ⟨zero, -⟩ | some_
      · exact absurd zero none_
      · exact some_
    have range := framed.size_range
    have size : drainSize raced p s = ((w.length : Int), s) := by
      rw [drainSize, takeFrameSize, if_neg none_, known]
    rw [known] at h
    obtain ⟨done, x, moved, counted⟩ := fetch_known framed size (by omega) h
    refine ⟨done, moved.received, moved.line, by rw [size]; exact counted, ?_⟩
    rw [size]
    omega

end Counted

end Fscc
