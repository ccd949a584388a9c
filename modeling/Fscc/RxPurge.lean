import Fscc.RxOutline
import Fscc.RxProper
import Fscc.RxTimestamps
import Fscc.StreamDelivery

/-!
# A purge forgets what came before

A purge clears no buffer. Two ports with different histories have one outline once they are purged,
and keep it for as long as the same calls are made on them; and what their readers are given are
bytes that have come in since.
-/

namespace Fscc

variable {δ : Type} (dev : Device δ) {mem : Memory}

/-! ### Histories -/

/-- Every call keeps the order of the ring, whatever the device reads. -/
private theorem Pieces.step {p q : RxPort} {e : RingCall δ} (cfg : PortConfig)
    (h : ∃ finished free, Pieces mem p finished free)
    (stepped : (ringCalls dev mem cfg).step p e = some q) :
    ∃ finished free, Pieces mem q finished free := by
  obtain ⟨finished, free, kept⟩ := h
  cases e with
  | drain d =>
    obtain rfl := Option.some.inj stepped
    refine fifoReadData_kept dev mem (P := fun p => ∃ finished free, Pieces mem p finished free) ?_
      d ⟨finished, free, kept⟩
    rintro p d ⟨finished, free, kept⟩ opened
    -- A pass works on a free descriptor, and there is one.
    cases free with
    | nil =>
      rw [kept.ring.fifoFrame_full] at opened
      cases opened
    | cons f rest =>
      rcases kept.pass dev d with ⟨g, left, -⟩ | ⟨g, left, -⟩
      · exact ⟨_, _, left⟩
      · exact ⟨_, _, left⟩
  | readFrame settings bufLength alloc unmovedBytes d =>
    obtain rfl := Option.some.inj stepped
    obtain ⟨gone, rest, rfl, ring, -⟩ :=
      kept.ring.userReadFrame_any dev settings bufLength alloc unmovedBytes d
    exact ⟨rest, _, ring, fun f member => kept.inside f (List.mem_append_right _ member)⟩
  | readStream bufLength alloc unmovedBytes =>
    obtain rfl := Option.some.inj stepped
    cases alloc with
    | false => exact ⟨finished, free, kept⟩
    | true =>
      obtain ⟨⟨finished', free', left⟩, -⟩ := kept.read bufLength.isLt unmovedBytes
      exact ⟨finished', free', left.pieces⟩
  | purge d =>
    obtain rfl := Option.some.inj stepped
    exact ⟨[], _, rxRing_reset mem kept.ring.size kept.ring.buffers_mem, List.forall_mem_nil _⟩

/-- A history changes neither the number of the descriptors nor the size of their buffers. -/
private theorem reached_size {cfg : PortConfig} {p : RxPort}
    (reached : (ringCalls dev mem cfg).Reached p) :
    p.rxDescriptors.length = mem.rxNum ∧ ∀ f ∈ p.rxDescriptors, f.buffer.length = mem.rxSize := by
  obtain ⟨finished, free, kept⟩ : ∃ finished free, Pieces mem p finished free := by
    apply reached.invariant (P := fun p => ∃ finished free, Pieces mem p finished free)
    · rintro p ⟨q, rfl, size, buffers⟩
      exact ⟨[], _, rxRing_reset mem size buffers, List.forall_mem_nil _⟩
    · intro p q e h stepped
      exact Pieces.step dev cfg h stepped
  exact ⟨kept.ring.size, kept.ring.buffers_mem⟩

/-! ### Calls after a purge -/

/-- What a call gives back to its caller. -/
inductive Outcome where
  | quiet
  | ready (now : Bool)
  | read (result : Except Errno (List UInt8))
deriving DecidableEq

/-- RRES of a purge is let through by its clock check. -/
def RresAccepted (mem : Memory) (cfg : PortConfig) (p : RxPort) (d : δ) : Prop :=
  rresCommand ∈ (ioPurgeRx dev mem cfg p d).2.1

/-- The receiver moves between calls of the driver, which drains it, asks for a frame, or reads. -/
inductive FrameCall where
  | hardware (a : Arrival)
  | drain
  | ready
  | read (settings : Settings) (bufLength : BitVec 64) (alloc : Bool) (unmovedBytes : Nat)

def frameCall (mem : Memory) : FrameCall → RxPort × Receiver → Outcome × RxPort × Receiver
  | .hardware a, s => (.quiet, s.1, s.2.arrival a)
  | .drain, s => (.quiet, fifoReadData receiver mem s.1 s.2)
  | .ready, s => (.ready (ioUserReadReady mem false s.1), s)
  | .read settings bufLength alloc unmovedBytes, s =>
    let read :=
      userReadFrame receiver mem settings bufLength.toNat alloc unmovedBytes s.1 s.2
    (.read read.1, read.2)

/-- A purge over the receiver `r` while STAR reads `star`: RRES, if it is issued, empties the
receiver. Then the frames `line` are on their way. -/
def purgeFrames (mem : Memory) (cfg : PortConfig) (p : RxPort) (r : Receiver)
    (star : List (BitVec 32)) (line : List WireFrame) (clock : Timestamp) : RxPort × Receiver :=
  let purged := ioPurgeRx starred mem cfg p (r, star)
  let left := if rresCommand ∈ purged.2.1 then purged.2.2.1.reset else purged.2.2.1
  (purged.1, { left with received := [], line := line, clock := clock })

/-- Bytes of a stream arrive; the driver drains them, asks for a byte, or reads. -/
inductive StreamCall where
  | arrive (bytes : List UInt8)
  | drain (moments : List Moment) (now : Timestamp)
  | ready
  | read (bufLength : BitVec 64) (alloc : Bool) (unmovedBytes : Nat)

def streamCall (mem : Memory) : StreamCall → RxPort × StreamFifo → Outcome × RxPort × StreamFifo
  | .arrive bytes, s => (.quiet, s.1, { s.2 with waiting := s.2.waiting ++ bytes })
  | .drain moments now, s =>
    (.quiet, fifoReadData streamFifo mem s.1 { s.2 with moments := moments, clock := now })
  | .ready, s => (.ready (ioUserReadReady mem true s.1), s)
  | .read bufLength alloc unmovedBytes, s =>
    let read := userReadStream mem bufLength.toNat alloc unmovedBytes s.1
    (.read (.ok read.1), read.2, s.2)

/-- A purge of a port that receives a stream. -/
def purgeStream (mem : Memory) (cfg : PortConfig) (p : RxPort) (d : StreamFifo)
    (clock : Timestamp) : RxPort × StreamFifo :=
  let purged := ioPurgeRx streamFifo mem cfg p d
  let left := if rresCommand ∈ purged.2.1 then { purged.2.2 with waiting := [] } else purged.2.2
  (purged.1, { left with taken := [], moments := [], clock := clock })

private theorem purgeFrames_accepted {cfg : PortConfig} {p : RxPort} {r : Receiver}
    {star : List (BitVec 32)} (accepted : RresAccepted starred mem cfg p (r, star))
    (line : List WireFrame) (clock : Timestamp) :
    purgeFrames mem cfg p r star line clock = (resetRx mem p, .idle line clock) := by
  unfold RresAccepted at accepted
  unfold purgeFrames
  dsimp only
  rw [if_pos accepted]
  rfl

private theorem purgeStream_accepted {cfg : PortConfig} {p : RxPort} {d : StreamFifo}
    (accepted : RresAccepted streamFifo mem cfg p d) (clock : Timestamp) :
    purgeStream mem cfg p d clock = (resetRx mem p, ⟨[], [], [], clock⟩) := by
  unfold RresAccepted at accepted
  unfold purgeStream
  dsimp only
  rw [if_pos accepted]
  rfl

/-! ### Streams -/

/-- A read of a stream is given the first bytes of the ring. -/
private theorem Streamed.read_eq {p : RxPort} {finished free : List IoFrame}
    (h : Streamed mem p finished free) {bufLength : Nat} (size : bufLength < 18446744073709551616)
    (unmovedBytes : Nat) :
    (userReadStream mem bufLength true unmovedBytes p).1 =
      (p.ringBytes.take (streamOutLength mem bufLength p)).take
        (streamOutLength mem bufLength p - unmovedBytes) := by
  obtain ⟨-, out, result⟩ := h.read size unmovedBytes
  have first : p.ringBytes.take (streamOutLength mem bufLength p) =
      (Chunks.read bufLength (finished.map IoFrame.data)).1 := by
    rw [out, h.pieces.ringBytes_eq, ← Chunks.read_append bufLength, List.append_assoc,
      List.take_left]
  rw [result, first, out]

/-- Two ports that hold the same stream over one FIFO. -/
structure StreamTwins (mem : Memory) (s t : RxPort × StreamFifo) : Prop where
  outline : s.1.outline = t.1.outline
  fifo : s.2 = t.2
  stream : ∃ before, Conserved mem before s.1 s.2 ∧ Conserved mem before t.1 t.2

namespace StreamTwins

variable {s t : RxPort × StreamFifo}

private theorem ringBytes_eq (h : StreamTwins mem s t) : s.1.ringBytes = t.1.ringBytes := by
  obtain ⟨before, first, second⟩ := h.stream
  have bytes := first.bytes
  rw [h.fifo, ← second.bytes] at bytes
  exact List.append_cancel_left bytes

private theorem read_eq (h : StreamTwins mem s t) (bufLength : BitVec 64) (alloc : Bool)
    (unmovedBytes : Nat) :
    (userReadStream mem bufLength.toNat alloc unmovedBytes s.1).1 =
      (userReadStream mem bufLength.toNat alloc unmovedBytes t.1).1 := by
  cases alloc with
  | false => rfl
  | true =>
    obtain ⟨before, ⟨⟨_, _, first⟩, -⟩, ⟨⟨_, _, second⟩, -⟩⟩ := h.stream
    have length := (userReadStream_congr mem bufLength.toNat true unmovedBytes h.outline).2
    rw [first.read_eq bufLength.isLt, second.read_eq bufLength.isLt, length, h.ringBytes_eq]

/-- A call has one result in both ports, and leaves them with the same stream. -/
private theorem call (h : StreamTwins mem s t) (c : StreamCall) :
    (streamCall mem c s).1 = (streamCall mem c t).1 ∧
      StreamTwins mem (streamCall mem c s).2 (streamCall mem c t).2 := by
  obtain ⟨before, first, second⟩ := h.stream
  cases c with
  | arrive bytes =>
    refine ⟨rfl, h.outline, congrArg (fun d : StreamFifo => { d with waiting := d.waiting ++ bytes })
      h.fifo, before, ⟨first.pieces, first.bytes⟩, ⟨second.pieces, second.bytes⟩⟩
  -- The drain sees the same counters and flags in both ports, and so takes the same bytes.
  | drain moments now =>
    have device : ({ s.2 with moments := moments, clock := now } : StreamFifo) =
        { t.2 with moments := moments, clock := now } := by rw [h.fifo]
    have drained := fifoReadData_congr streamFifo mem h.outline
      { t.2 with moments := moments, clock := now }
    refine ⟨rfl, ?_, ?_, before, ?_, ?_⟩
    · exact (congrArg (fun d => (fifoReadData streamFifo mem s.1 d).1.outline) device).trans
        drained.1
    · exact (congrArg (fun d => (fifoReadData streamFifo mem s.1 d).2) device).trans drained.2
    · exact Conserved.drain ⟨first.pieces, first.bytes⟩
    · exact Conserved.drain ⟨second.pieces, second.bytes⟩
  | ready =>
    exact ⟨congrArg Outcome.ready (ioUserReadReady_congr mem h.outline true), h⟩
  -- A read is of as many bytes in both, and of the same, since both rings carry one stream.
  | read bufLength alloc unmovedBytes =>
    refine ⟨congrArg (fun out => Outcome.read (.ok out)) (h.read_eq bufLength alloc unmovedBytes), ?_,
      h.fifo, before ++ (userReadStream mem bufLength.toNat alloc 0 s.1).1, ?_, ?_⟩
    · exact (userReadStream_congr mem bufLength.toNat alloc unmovedBytes h.outline).1
    · have left := first.read bufLength.isLt alloc
      cases alloc <;> exact left
    · rw [h.read_eq bufLength alloc 0]
      have left := second.read bufLength.isLt alloc
      cases alloc <;> exact left

end StreamTwins

/-- A port just purged has nothing of a stream. -/
private theorem Conserved.purged {p : RxPort} (size : p.rxDescriptors.length = mem.rxNum)
    (buffers : ∀ f ∈ p.rxDescriptors, f.buffer.length = mem.rxSize) (clock : Timestamp) :
    Conserved mem [] (resetRx mem p) ⟨[], [], [], clock⟩ :=
  ⟨⟨_, _, Streamed.reset size buffers⟩, ringBytes_resetRx size buffers⟩

/-! ### Frames -/

/-- The timestamps of the frames in the ring, from the oldest. -/
private theorem Framed.timestamps {p : RxPort} {groups : List (FrameGroup mem)}
    {part free : List IoFrame}
    (h : Framed mem p groups part free) :
    groups.map (fun g => g.last.timestamp) =
      ((Ring.view p.rxDescriptors p.userRxDesc).filter IoFrame.fe).map IoFrame.timestamp := by
  have none_ (fs : List IoFrame) (fe : ∀ f ∈ fs, f.fe = false) : fs.filter IoFrame.fe = [] :=
    List.filter_eq_nil_iff.mpr fun f member => by rw [fe f member]; exact Bool.false_ne_true
  have last (g : FrameGroup mem) : g.descs.filter IoFrame.fe = [g.last] := by
    rw [FrameGroup.descs, List.filter_append, none_ g.full fun f member => (g.full_ok f member).fe,
      List.filter_singleton, g.last_fe]
    rfl
  have all : (groups.flatMap FrameGroup.descs).filter IoFrame.fe =
      groups.map FrameGroup.last := by
    rw [List.filter_flatMap, List.map_eq_flatMap, funext last]
  rw [h.ring.view, List.filter_append, List.filter_append, all,
    none_ part fun f member => (h.part_ok f member).fe,
    none_ free fun f member => (h.ring.free_open f member).1, List.append_nil, List.append_nil,
    List.map_map]
  rfl

/-- What is in flight has come in: its frames fit the ring and the FIFO together. -/
private theorem InFlight.short {ws : List WireFrame} {p : RxPort} {r : Receiver}
    (h : InFlight mem ws p r) :
    ∀ w ∈ ws, w.length < 2147483648 := by
  obtain ⟨groups, part, free, stored, pending, rfl, carried⟩ := h
  intro w member
  -- A frame in the ring is no longer than its count can say, one in the FIFO than the FIFO.
  rcases List.mem_append.mp member with old | new
  · have data : w.data ∈ groups.map FrameGroup.bytes := by
      rw [carried.content]
      exact List.mem_map_of_mem old
    obtain ⟨g, inside, bytes⟩ := List.mem_map.mp data
    have length := (carried.whole g inside).fits.length_bytes
    have small := g.length_lt
    rw [bytes] at length
    rw [WireFrame.length]
    omega
  · have total := congrArg List.length carried.incoming.bytes
    have drained_ := carried.framed.length_drained
    have ring := carried.framed.bytes_lt
    have fifo := carried.incoming.ok.fifo
    have inside : w.padded.length ≤ (pending.flatMap WireFrame.padded).length := by
      rw [List.flatMap_def]
      exact (List.sublist_flatten_of_mem (List.mem_map_of_mem new)).length_le
    rw [List.length_append, List.length_append] at total
    rw [w.length_padded] at inside
    unfold rxFifoSize at fifo
    omega

/-- The frames with their timestamps that the ring holds. -/
private theorem held_eq_zipWith (groups : List (FrameGroup mem)) :
    held groups = List.zipWith Stamped.mk (groups.map FrameGroup.bytes)
      (groups.map fun g => g.last.timestamp) := by
  rw [List.zipWith_map, List.zipWith_self]
  rfl

/-- Two ports with one outline have the same frames in the ring, if they have the same frames
between the line and the reader. -/
private theorem Carried.same {p q : RxPort} {r : Receiver} {groups groups' : List (FrameGroup mem)}
    {part part' free free' : List IoFrame} {stored stored' pending pending' : List WireFrame}
    (first : Carried mem p r groups part free stored pending)
    (second : Carried mem q r groups' part' free' stored' pending')
    (frames : stored ++ pending = stored' ++ pending') (outline : p.outline = q.outline) :
    (stored = stored' ∧ pending = pending') ∧ held groups = held groups' := by
  have view := congrArg (fun p : RxPort => ((Ring.view p.rxDescriptors p.userRxDesc).filter
    IoFrame.fe).map IoFrame.timestamp) outline
  have seen (p : RxPort) : ((Ring.view p.outline.rxDescriptors p.outline.userRxDesc).filter
      IoFrame.fe).map IoFrame.timestamp =
      ((Ring.view p.rxDescriptors p.userRxDesc).filter IoFrame.fe).map IoFrame.timestamp := by
    unfold RxPort.outline
    dsimp only
    rw [Ring.view_map, List.filter_map, List.map_map]
    rfl
  -- The outline keeps the flags and the timestamps, so both rings end the same number of frames.
  have stamps : (groups.map fun g => g.last.timestamp) = groups'.map fun g => g.last.timestamp := by
    rw [first.framed.timestamps, second.framed.timestamps, ← seen p, ← seen q]
    exact view
  have count := congrArg List.length stamps
  have left := congrArg List.length first.content
  have right := congrArg List.length second.content
  simp only [List.length_map] at count left right
  obtain ⟨rfl, rfl⟩ := List.append_inj frames (by omega)
  refine ⟨⟨rfl, rfl⟩, ?_⟩
  rw [held_eq_zipWith, held_eq_zipWith, stamps, first.content, second.content]

/-! A read decides by the lengths of frames, and hands out bytes and timestamps. -/

section Same

variable (settings : Settings) {groups groups' : List (FrameGroup mem)}

private theorem exists_of_held_cons {g : FrameGroup mem} {gs : List (FrameGroup mem)}
    (same : held (g :: gs) = held groups') (whole : g.Whole) (whole' : ∀ g ∈ groups', g.Whole) :
    ∃ g' gs', groups' = g' :: gs' ∧ held gs = held gs' ∧ g.bytes = g'.bytes ∧
      g.length = g'.length ∧ g.last.timestamp = g'.last.timestamp := by
  obtain ⟨g', gs', rfl, first, rest⟩ := List.map_eq_cons_iff.mp same.symm
  have bytes : g'.bytes = g.bytes := congrArg Stamped.bytes first
  have length := whole.fits.length_bytes
  have length' := (whole' g' (.head _)).fits.length_bytes
  rw [bytes, length] at length'
  exact ⟨g', gs', rfl, rest.symm, bytes.symm, length', (congrArg Stamped.clock first).symm⟩

private theorem fitting_congr (space : Nat) (same : held groups = held groups')
    (whole : ∀ g ∈ groups, g.Whole) (whole' : ∀ g ∈ groups', g.Whole) :
    held (fitting settings space groups) = held (fitting settings space groups') := by
  induction groups generalizing groups' space with
  | nil =>
    obtain rfl : groups' = [] := List.map_eq_nil_iff.mp same.symm
    rfl
  | cons g gs ih =>
    obtain ⟨g', gs', rfl, rest, bytes, length, clock⟩ :=
      exists_of_held_cons same (whole g (.head _)) whole'
    have more := ih (space - g.required settings) rest (fun x member => whole x (.tail _ member))
      fun x member => whole' x (.tail _ member)
    have required : g.required settings = g'.required settings := by
      rw [FrameGroup.required, FrameGroup.required, length]
    unfold fitting
    rw [← required]
    split
    · unfold held at more ⊢
      rw [List.map_cons, List.map_cons, more, bytes, clock]
    · rfl

private theorem taken_congr (bufLength : Nat) (same : held groups = held groups')
    (whole : ∀ g ∈ groups, g.Whole) (whole' : ∀ g ∈ groups', g.Whole) :
    held (taken settings bufLength groups) = held (taken settings bufLength groups') := by
  unfold taken
  cases settings.rxMultiple with
  | true => exact fitting_congr settings bufLength same whole whole'
  | false =>
    refine fitting_congr settings bufLength ?_ (fun g member => whole g (List.mem_of_mem_take member))
      fun g member => whole' g (List.mem_of_mem_take member)
    unfold held at same ⊢
    simp only [Bool.false_eq_true, if_false]
    rw [List.map_take, List.map_take, same]

private theorem outputs_congr (same : held groups = held groups') (whole : ∀ g ∈ groups, g.Whole)
    (whole' : ∀ g ∈ groups', g.Whole) (d : δ) :
    outputs dev settings groups d = outputs dev settings groups' d := by
  induction groups generalizing groups' d with
  | nil =>
    obtain rfl : groups' = [] := List.map_eq_nil_iff.mp same.symm
    rfl
  | cons g gs ih =>
    obtain ⟨g', gs', rfl, rest, bytes, length, clock⟩ :=
      exists_of_held_cons same (whole g (.head _)) whole'
    have payload : g.payload settings = g'.payload settings := by
      rw [FrameGroup.payload, FrameGroup.payload, bytes, length]
    have stamp : appended dev settings g.last d = appended dev settings g'.last d := by
      rw [appended, appended, clock]
    have more := ih rest (fun x member => whole x (.tail _ member))
      fun x member => whole' x (.tail _ member)
    unfold outputs
    dsimp only
    rw [payload, stamp, more]

end Same

/-- A read gives both readers the same, and leaves the same in flight. -/
private theorem InFlight.read_congr {ws : List WireFrame} {p q : RxPort} {r : Receiver}
    (outline : p.outline = q.outline) (first : InFlight mem ws p r) (second : InFlight mem ws q r)
    (settings : Settings) {bufLength : Nat} (size : bufLength < 18446744073709551616)
    (unmovedBytes : Nat) :
    let read := userReadFrame receiver mem settings bufLength true unmovedBytes
    (read p r).1 = (read q r).1 ∧ (read p r).2.2 = r ∧ (read q r).2.2 = r ∧
      ∃ ws', InFlight mem ws' (read p r).2.1 r ∧ InFlight mem ws' (read q r).2.1 r := by
  obtain ⟨groups, part, free, stored, pending, rfl, carried⟩ := first
  obtain ⟨groups', part', free', stored', pending', frames, carried'⟩ := second
  -- Both rings hold the same frames with the same timestamps.
  obtain ⟨⟨rfl, rfl⟩, same⟩ := carried.same carried' frames outline
  have handed := taken_congr settings bufLength same carried.whole carried'.whole
  have count := congrArg List.length handed
  simp only [held, List.length_map] at count
  obtain ⟨⟨rest, after, split, left⟩, result, device⟩ := carried.read settings size unmovedBytes
  obtain ⟨⟨rest', after', split', left'⟩, result', device'⟩ :=
    carried'.read settings size unmovedBytes
  rw [← count] at left'
  refine ⟨?_, device, device', stored.drop (taken settings bufLength groups).length ++ pending,
    ⟨rest, part, after, _, pending, rfl, left⟩, ⟨rest', part', after', _, pending, rfl, left'⟩⟩
  have out := outputs_congr receiver settings handed
    (fun g member => carried.whole g (by rw [split]; exact List.mem_append_left _ member))
    (fun g member => carried'.whole g (by rw [split']; exact List.mem_append_left _ member)) r
  have empty : taken settings bufLength groups = [] ↔ taken settings bufLength groups' = [] := by
    rw [← List.length_eq_zero_iff, count, List.length_eq_zero_iff]
  rw [result, result', out]
  simp only [empty]

/-- Two ports over one receiver with the same frames between the line and the reader. -/
structure FrameTwins (mem : Memory) (s t : RxPort × Receiver) : Prop where
  outline : s.1.outline = t.1.outline
  hardware : s.2 = t.2
  flight : ∃ ws, InFlight mem ws s.1 s.2 ∧ InFlight mem ws t.1 t.2

namespace FrameTwins

variable {s t : RxPort × Receiver}

/-- A call has one result in both ports, and leaves them with the same frames. -/
private theorem call (h : FrameTwins mem s t) (c : FrameCall) :
    (frameCall mem c s).1 = (frameCall mem c t).1 ∧
      FrameTwins mem (frameCall mem c s).2 (frameCall mem c t).2 := by
  obtain ⟨p, r⟩ := s
  obtain ⟨q, r'⟩ := t
  obtain ⟨outline, rfl, ws, first, second⟩ := h
  cases c with
  -- Each arrival completes the same frames at both.
  | hardware a =>
    obtain ⟨done, first', received, -⟩ := first.arrival a
    obtain ⟨done', second', received', -⟩ := second.arrival a
    obtain rfl : done = done' := List.append_cancel_left (received.symm.trans received')
    exact ⟨rfl, outline, rfl, ws ++ done, first', second'⟩
  | drain =>
    have drained := fifoReadData_congr receiver mem outline r
    exact ⟨rfl, drained.1, drained.2, ws, (first.drain first.short).1, (second.drain second.short).1⟩
  | ready =>
    exact ⟨congrArg Outcome.ready (ioUserReadReady_congr mem outline false), outline, rfl, ws, first,
      second⟩
  | read settings bufLength alloc unmovedBytes =>
    cases alloc with
    | false =>
      have unread (p : RxPort) : frameCall mem (.read settings bufLength false unmovedBytes) (p, r) =
          (.read (.ok []), p, r) := rfl
      rw [unread, unread]
      exact ⟨rfl, outline, rfl, ws, first, second⟩
    | true =>
      have freed :=
        userReadFrame_congr receiver mem settings bufLength.toNat true unmovedBytes outline r
      obtain ⟨same, device, device', ws', left, left'⟩ :=
        first.read_congr outline second settings bufLength.isLt unmovedBytes
      have given (p : RxPort) : frameCall mem (.read settings bufLength true unmovedBytes) (p, r) =
          (.read (userReadFrame receiver mem settings bufLength.toNat true unmovedBytes p r).1,
            (userReadFrame receiver mem settings bufLength.toNat true unmovedBytes p r).2) := rfl
      rw [given, given, same]
      refine ⟨rfl, freed.1, freed.2, ws', ?_, ?_⟩
      · rw [device]
        exact left
      · rw [device']
        exact left'

end FrameTwins

/-! ### The property -/

/-- After any two histories of a port, each ended by a purge whose RRES is accepted, the same calls
over the same arrivals have the same results, whether frames or a stream come in. -/
theorem purge_erases {δ δ' : Type} {dev : Device δ} {dev' : Device δ'} {cfg cfg' : PortConfig}
    {p q : RxPort} (first : (ringCalls dev mem cfg).Reached p)
    (second : (ringCalls dev' mem cfg').Reached q) :
    (∀ (r r' : Receiver) (star star' : List (BitVec 32)),
      RresAccepted starred mem cfg p (r, star) → RresAccepted starred mem cfg' q (r', star') →
      ∀ (line : List WireFrame) (clock : Timestamp) (calls : List FrameCall),
        Machine.results (frameCall mem) (purgeFrames mem cfg p r star line clock) calls =
          Machine.results (frameCall mem) (purgeFrames mem cfg' q r' star' line clock) calls) ∧
      ∀ d d' : StreamFifo,
        RresAccepted streamFifo mem cfg p d → RresAccepted streamFifo mem cfg' q d' →
        ∀ (clock : Timestamp) (calls : List StreamCall),
          Machine.results (streamCall mem) (purgeStream mem cfg p d clock) calls =
            Machine.results (streamCall mem) (purgeStream mem cfg' q d' clock) calls := by
  obtain ⟨size, buffers⟩ := reached_size dev first
  obtain ⟨size', buffers'⟩ := reached_size dev' second
  -- Both histories leave rings of one size, and a reset ring has no more to show than that.
  have outline := resetRx_congr mem (size.trans size'.symm)
  constructor
  · intro r r' star star' accepted accepted' line clock calls
    rw [purgeFrames_accepted accepted, purgeFrames_accepted accepted']
    apply Machine.results_eq (R := FrameTwins mem) fun c _ _ twins => twins.call c
    exact ⟨outline, rfl, [], .purged size buffers line clock, .purged size' buffers' line clock⟩
  · intro d d' accepted accepted' clock calls
    rw [purgeStream_accepted accepted, purgeStream_accepted accepted']
    apply Machine.results_eq (R := StreamTwins mem) fun c _ _ twins => twins.call c
    exact ⟨outline, rfl, [], .purged size buffers clock, .purged size' buffers' clock⟩

/-- A frame is drained and the ring is full of it. -/
def drainedFrame : RxPort :=
  (fifoReadData receiver .small (freshRx .small [4096, 8192])
    (Receiver.idle [ringFrame] (seconds 1)).arriveEnd).1

/-- Frames, and a stream, that come in after a purge. -/
def laterFrame : List FrameCall :=
  [.hardware .complete, .drain, .ready, .read ⟨true, true, false⟩ 64#64 true 0]

def laterStream : List StreamCall :=
  [.arrive [1, 2, 3, 4, 5, 6, 7, 8], .drain [⟨[], 0#32⟩, ⟨[], 8#32⟩] .clear, .ready,
    .read 5#64 true 0]

/-- A purge leaves the bytes of the old frame in the buffers; a reader of what comes in next is
given what it would be given without them. -/
theorem purge_erases_drained :
    let frames (p : RxPort) := Machine.results (frameCall .small)
      (purgeFrames .small fifoConfig p (.idle [] (seconds 1)) [] [shortFrame] (seconds 2)) laterFrame
    let stream (p : RxPort) := Machine.results (streamCall .small)
      (purgeStream .small fifoConfig p ⟨[9], [], [], .clear⟩ .clear) laterStream
    resetRx .small drainedFrame ≠ freshRx .small [4096, 8192] ∧
      frames drainedFrame =
        [.quiet, .quiet, .ready true, .read (.ok ([1, 2, 3] ++ (seconds 2).bytes))] ∧
      stream drainedFrame = [.quiet, .quiet, .ready true, .read (.ok [1, 2, 3, 4, 5])] ∧
      frames drainedFrame = frames (freshRx .small [4096, 8192]) ∧
      stream drainedFrame = stream (freshRx .small [4096, 8192]) := by
  have start : (ringCalls receiver .small fifoConfig).Reached (freshRx .small [4096, 8192]) :=
    .init (fresh_freshRx .small rfl)
  have filled : (ringCalls receiver .small fifoConfig).Reached drainedFrame :=
    start.replay [.drain (Receiver.idle [ringFrame] (seconds 1)).arriveEnd] rfl
  obtain ⟨frames, stream⟩ := purge_erases filled start
  refine ⟨by decide, by decide, by decide, ?_, ?_⟩
  · exact frames _ _ _ _ (by unfold RresAccepted; decide) (by unfold RresAccepted; decide) _ _ _
  · exact stream _ _ (by unfold RresAccepted; decide) (by unfold RresAccepted; decide) _ _

end Fscc
