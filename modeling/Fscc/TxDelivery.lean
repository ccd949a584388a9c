import Fscc.RegisterRep
import Fscc.TxFrames

/-!
# Transmission, end to end

Frames are queued while transmit tasklets fill the hardware FIFO. The FIFO is given the
frames in order, each padded to whole words, and BC_FIFO_L the length of each frame begun.
-/

namespace Fscc

variable {δ : Type} (dev : Device δ) (cfg : PortConfig) {mem : Memory}

/-! ### What the FIFO is given of a list of pieces -/

/-- `bytes` are the pieces, each padded to whole words. -/
inductive Stored : List Piece → List UInt8 → Prop
  | nil : Stored [] []
  | cons {piece : Piece} {pad bytes : List UInt8} {ps : List Piece} :
      pad.length < 4 → (piece.data.length + pad.length) % 4 = 0 → Stored ps bytes →
      Stored (piece :: ps) (piece.data ++ pad ++ bytes)

namespace Stored

variable {xs ys ps : List Piece} {bytes first second : List UInt8}

private theorem append (stored : Stored xs first) (more : Stored ys second) :
    Stored (xs ++ ys) (first ++ second) := by
  induction stored with
  | nil => exact more
  | cons short words _ ih =>
    rw [List.append_assoc]
    exact .cons short words ih

theorem split (stored : Stored (xs ++ ys) bytes) :
    ∃ first second, bytes = first ++ second ∧ Stored xs first ∧ Stored ys second := by
  induction xs generalizing bytes with
  | nil => exact ⟨[], bytes, rfl, .nil, stored⟩
  | cons x xs ih =>
    cases stored with
    | cons short words rest =>
      obtain ⟨first, second, rfl, left, right⟩ := ih rest
      exact ⟨_, second, (List.append_assoc ..).symm, .cons short words left, right⟩

/-- Pieces of whole words need no padding. -/
private theorem whole (stored : Stored ps bytes) (words : ∀ p ∈ ps, p.data.length % 4 = 0) :
    bytes = ps.flatMap Piece.data ∧ bytes.length % 4 = 0 := by
  induction stored with
  | nil => exact ⟨rfl, rfl⟩
  | @cons piece pad bytes ps short padded _ ih =>
    have own := words piece (.head _)
    obtain ⟨rfl, aligned⟩ := ih fun p member => words p (.tail _ member)
    obtain rfl := List.length_eq_zero_iff.mp (by omega : pad.length = 0)
    refine ⟨by simp, ?_⟩
    simp only [List.append_nil, List.length_append]
    omega

end Stored

/-- A descriptor's piece is stored with what follows it in the buffer as padding. -/
private theorem Carries.stored {f : IoFrame} {piece : Piece} (h : Carries mem f piece) :
    Stored [piece] (fifoBytes (stored f)) ∧ frameLengths (stored f) = [] := by
  have words := mem.txSize_words
  have le := h.le
  obtain ⟨bytes, lengths⟩ := cardSetRegisterRep_fifo f.buffer f.desc.dataCount
    (by rw [h.buffer, h.dataCount]; omega)
  refine ⟨?_, lengths⟩
  rw [Fscc.stored, bytes, h.dataCount,
    show (piece.data.length + 3) / 4 * 4 =
      piece.data.length + ((piece.data.length + 3) / 4 * 4 - piece.data.length) by omega,
    List.take_add, h.data, ← List.append_nil (piece.data ++ _)]
  have size : ((f.buffer.drop piece.data.length).take
      ((piece.data.length + 3) / 4 * 4 - piece.data.length)).length =
        (piece.data.length + 3) / 4 * 4 - piece.data.length := by
    rw [List.length_take, List.length_drop, h.buffer]
    omega
  exact .cons (by omega) (by omega) .nil

theorem carried_append {fs gs : List IoFrame} {ps : List Piece}
    (carried : List.Forall₂ (Carries mem) (fs ++ gs) ps) :
    ∃ qs rs, ps = qs ++ rs ∧ List.Forall₂ (Carries mem) fs qs ∧ List.Forall₂ (Carries mem) gs rs := by
  have flipped : List.Forall₂ (flip (Carries mem)) ps (fs ++ gs) := carried.flip
  exact ⟨ps.take fs.length, ps.drop fs.length, (List.take_append_drop _ _).symm,
    (List.forall₂_take_append ps fs gs flipped).flip,
    (List.forall₂_drop_append ps fs gs flipped).flip⟩

private theorem stored_pieces {fs : List IoFrame} {ps : List Piece}
    (carried : List.Forall₂ (Carries mem) fs ps) :
    Stored ps (fifoBytes (fs.flatMap stored)) ∧ frameLengths (fs.flatMap stored) = [] := by
  induction carried with
  | nil => exact ⟨.nil, rfl⟩
  | cons first _ ih =>
    rw [List.flatMap_cons, fifoBytes_append, frameLengths_append, first.stored.2, ih.2]
    exact ⟨first.stored.1.append ih.1, rfl⟩

/-! ### One call of `fscc_fifo_write_data` -/

/-- The value that a call is to store to BC_FIFO_L, if any. -/
def lengthsOf (frameSize : Nat) : List Nat := if frameSize = 0 then [] else [frameSize]

/-- A call starts at most one frame, and remembers its length. -/
theorem fill_lengths {tfcnt : Nat} {fs : List IoFrame} {ps : List Piece} {s : Filling}
    (carried : List.Forall₂ (Carries mem) fs ps) (accepts : Accepts tfcnt fs s)
    (bound : s.frameSize < 536870912) :
    lengthsOf s.frameSize ++ ps.filterMap Piece.total =
        lengthsOf (fs.foldl (fun s f => fillStep f s) s).frameSize ∧
      (fs.foldl (fun s f => fillStep f s) s).frameSize < 536870912 := by
  -- Induction on the descriptors sent. A length is kept from the first of a frame on.
  induction carried generalizing s with
  | nil => exact ⟨List.append_nil _, bound⟩
  | @cons f piece fs ps first _ ih =>
    obtain ⟨stops, rest⟩ := accepts
    have fe := first.fe
    have count := first.count
    cases total : piece.total with
    | none =>
      have same : (fillStep f s).frameSize = s.frameSize := by simp [fillStep, fe, total]
      have := ih rest (by rw [same]; exact bound)
      rw [same] at this
      simpa [total] using this
    | some n =>
      obtain ⟨eq, pos⟩ := count n total
      -- The loop would have stopped at a second length.
      have fresh : s.frameSize = 0 := by
        simp only [fillStops, fe, total, Option.isSome_some, Bool.true_and, Bool.or_eq_false_iff,
          bne_eq_false_iff_eq] at stops
        exact stops.2.2
      have same : (fillStep f s).frameSize = n := by simp [fillStep, fe, total, eq]
      have := ih rest (by rw [same, ← eq]; exact cnt_lt _)
      rw [same] at this
      rw [fresh, List.filterMap_cons_some total]
      refine ⟨Eq.trans ?_ this.1, this.2⟩
      simp [lengthsOf, Nat.ne_of_gt pos]

/-- A call of `fscc_fifo_write_data` stores a first part of the queue, and the length of the
frame that begins there if one does. -/
theorem fifoWriteData_pieces {p : TxPort} {free queued : List IoFrame} {ps : List Piece}
    (h : TxRing mem p free queued) (carried : List.Forall₂ (Carries mem) queued ps) (d : δ) :
    ∃ (free' queued' : List IoFrame) (sent rest : List Piece), ps = sent ++ rest ∧
      TxRing mem (fifoWriteData dev mem p d).2.1 free' queued' ∧
      List.Forall₂ (Carries mem) queued' rest ∧
      Stored sent (fifoBytes (fifoWriteData dev mem p d).2.2.1) ∧
      frameLengths (fifoWriteData dev mem p d).2.2.1 = sent.filterMap Piece.total := by
  unfold fifoWriteData
  dsimp only
  split
  next => exact ⟨free, queued, [], ps, rfl, h, carried, .nil, rfl⟩
  next =>
    split
    next => exact ⟨free, queued, [], ps, rfl, h, carried, .nil, rfl⟩
    next =>
      -- A first part of the queue is stored, with the length that its first frame begins with.
      obtain ⟨p', done, rest, eq, rfl, accepts, ring, -⟩ := h.fifoWriteLoop (ioGetTFCNT dev d).1
        mem.txNum ⟨fifoSpaceFor (ioGetTXCNT dev (ioGetTFCNT dev d).2).1, 0, false⟩
      obtain ⟨sent, left, rfl, carriedSent, carriedLeft⟩ := carried_append carried
      obtain ⟨bytes, none_⟩ := stored_pieces carriedSent
      obtain ⟨lengths, bound⟩ := fill_lengths carriedSent accepts (Nat.zero_lt_succ _)
      rw [eq]
      refine ⟨_, rest, sent, left, rfl, ring, carriedLeft, ?_, ?_⟩
      · dsimp only
        split <;> simpa using bytes
      · rw [frameLengths_append, none_, List.nil_append, ← List.nil_append (sent.filterMap _)]
        refine Eq.trans ?_ lengths.symm
        dsimp only
        unfold lengthsOf
        split
        next zero => rfl
        next some_ =>
          rw [frameLengths_bcFifoL, BitVec.toNat_ofNat, Nat.mod_eq_of_lt (by omega)]

/-- `fscc_io_transmit_frame` adds a command, which is neither data nor a length. -/
private theorem ioTransmitFrame_pieces {p : TxPort} {free queued : List IoFrame} {ps : List Piece}
    (h : TxRing mem p free queued) (carried : List.Forall₂ (Carries mem) queued ps) (d : δ) :
    ∃ (free' queued' : List IoFrame) (sent rest : List Piece), ps = sent ++ rest ∧
      TxRing mem (ioTransmitFrame dev cfg mem p d).2.1 free' queued' ∧
      List.Forall₂ (Carries mem) queued' rest ∧
      Stored sent (fifoBytes (ioTransmitFrame dev cfg mem p d).2.2.1) ∧
      frameLengths (ioTransmitFrame dev cfg mem p d).2.2.1 = sent.filterMap Piece.total := by
  have filled := fifoWriteData_pieces dev h carried d
  unfold ioTransmitFrame
  dsimp only
  split
  next =>
    rw [fifoBytes_append, frameLengths_append, ioExecuteTransmit]
    simp only [Bool.false_eq_true, if_false]
    rw [(fifoBytes_issued_command dev cfg _ _).1, (fifoBytes_issued_command dev cfg _ _).2,
      List.append_nil, List.append_nil]
    exact filled
  next => exact filled

/-! ### Frames out of pieces -/

/-- A frame in the hardware FIFO, padded to whole words. -/
structure SentFrame where
  data : List UInt8
  pad : List UInt8
  short : pad.length < 4
  words : (data.length + pad.length) % 4 = 0

def SentFrame.padded (w : SentFrame) : List UInt8 := w.data ++ w.pad

section Pieces

variable {data bytes : List UInt8} {xs ys : List Piece}

private theorem pos_of_mem_pieces : ∀ p ∈ pieces mem data, 0 < p.data.length := by
  intro p member
  have chunk : p.data ∈ (pieces mem data).map Piece.data := List.mem_map_of_mem member
  rw [pieces, data_piecesOf] at chunk
  exact (Chunks.length_mem_split data _ chunk).1

/-- Every piece that another of its frame follows is whole words. -/
private theorem words_of_pieces_append (shape : pieces mem data = xs ++ ys) (more : ys ≠ []) :
    ∀ p ∈ xs, p.data.length % 4 = 0 := by
  have cut := congrArg (List.map Piece.data) shape
  rw [pieces, data_piecesOf, List.map_append] at cut
  intro p member
  rw [Chunks.length_of_split_append cut (by simpa using more) _ (List.mem_map_of_mem member)]
  exact mem.txSize_words

/-- The first piece of a frame tells its length, the others do not. -/
theorem total_pieces (pos : 0 < data.length) :
    ∃ p ps, pieces mem data = p :: ps ∧ p.total = some data.length ∧
      ps.filterMap Piece.total = [] := by
  have some_ : data ≠ [] := List.length_pos_iff.mp pos
  rw [pieces, Chunks.split_cons mem.txSize_pos some_, piecesOf]
  exact ⟨_, _, rfl, rfl, total_piecesOf _⟩

/-- A frame whose pieces are all stored is in the FIFO, padded. -/
theorem Stored.frame (pos : 0 < data.length) (stored : Stored (pieces mem data) bytes) :
    ∃ w : SentFrame, w.data = data ∧ bytes = w.padded := by
  obtain ⟨p, ps, shape, -⟩ : ∃ p ps, pieces mem data = p :: ps ∧ _ := total_pieces pos
  have some_ : pieces mem data ≠ [] := by simp [shape]
  have last := (List.dropLast_append_getLast some_).symm
  have flat := flatMap_data_pieces mem data
  rw [last] at stored flat
  obtain ⟨first, second, rfl, whole, ended⟩ := stored.split
  obtain ⟨rfl, aligned⟩ := whole.whole (words_of_pieces_append last (by simp))
  cases ended with
  | @cons _ pad _ _ short words rest =>
    cases rest
    rw [List.flatMap_append, List.flatMap_singleton] at flat
    refine ⟨⟨data, pad, short, ?_⟩, rfl, ?_⟩
    · rw [← flat, List.length_append]
      omega
    · rw [List.append_nil, ← List.append_assoc]
      exact congrArg (· ++ pad) flat

/-- A frame of which a first part of the pieces is stored is in the FIFO up to a word that is
not its last. -/
private theorem Stored.begun (pos : 0 < data.length) (shape : pieces mem data = xs ++ ys)
    (more : ys ≠ []) (some_ : xs ≠ []) (stored : Stored xs bytes) :
    bytes ≠ [] ∧ bytes <+: data ∧ bytes.length < data.length ∧ bytes.length % 4 = 0 ∧
      xs.filterMap Piece.total = [data.length] := by
  -- The descriptors before the last hold whole words, so that no padding is among the bytes.
  obtain ⟨rfl, aligned⟩ := stored.whole (words_of_pieces_append shape more)
  have long : ∀ p ∈ pieces mem data, 0 < p.data.length := pos_of_mem_pieces
  have flat := flatMap_data_pieces mem data
  obtain ⟨p, ps, head, total, none_⟩ : ∃ p ps, pieces mem data = p :: ps ∧ _ := total_pieces pos
  rw [shape] at long flat head
  rw [List.flatMap_append] at flat
  obtain ⟨x, xs, rfl⟩ := List.exists_cons_of_ne_nil some_
  obtain ⟨y, ys, rfl⟩ := List.exists_cons_of_ne_nil more
  have first := long x (by simp)
  have left := long y (by simp)
  obtain ⟨rfl, rfl⟩ := List.cons.inj head
  have none_' : (xs ++ y :: ys).filterMap Piece.total = [] := none_
  rw [List.filterMap_append, List.append_eq_nil_iff] at none_'
  refine ⟨?_, ⟨_, flat⟩, ?_, aligned, by rw [List.filterMap_cons_some total, none_'.1]⟩
  · rw [List.flatMap_cons, ← List.length_pos_iff, List.length_append]
    omega
  · simp only [← flat, List.length_append, List.flatMap_cons]
    omega

end Pieces

/-- `started` is what the FIFO holds of the first of `rest`, short of its last descriptor. -/
def Begun (started : List UInt8) (rest : List (List UInt8)) : Prop :=
  started = [] ∨ ∃ next more, rest = next :: more ∧ started <+: next ∧
    started.length < next.length ∧ started.length % 4 = 0

/-- The FIFO was given the frames `sent`, then `started`. -/
structure Transmitted (queued : List (List UInt8)) (bytes : List UInt8) (lengths : List Nat)
    (sent : List SentFrame) (started : List UInt8) (rest : List (List UInt8)) : Prop where
  frames : queued = sent.map SentFrame.data ++ rest
  bytes : bytes = sent.flatMap SentFrame.padded ++ started
  begun : Begun started rest
  lengths : lengths =
    (queued.take (sent.length + if started = [] then 0 else 1)).map List.length

/-- Pieces stored in order are frames sent in order. -/
theorem transmitted_of_stored {frames : List (List UInt8)} (pos : ∀ f ∈ frames, 0 < f.length)
    {xs ys : List Piece} (shape : frames.flatMap (pieces mem) = xs ++ ys) {bytes : List UInt8}
    (stored : Stored xs bytes) :
    ∃ sent started rest,
      Transmitted frames bytes (xs.filterMap Piece.total) sent started rest := by
  induction frames generalizing xs bytes with
  | nil =>
    obtain ⟨rfl, -⟩ := List.append_eq_nil_iff.mp shape.symm
    cases stored
    exact ⟨[], [], [], rfl, rfl, .inl rfl, rfl⟩
  | cons frame frames ih =>
    have long := pos frame (.head _)
    obtain ⟨p, ps, head, total, none_⟩ : ∃ p ps, pieces mem frame = p :: ps ∧ _ :=
      total_pieces long
    rw [List.flatMap_cons] at shape
    -- The frame is stored whole, and the rest is stored by induction.
    have whole (more : List Piece) (eq : xs = pieces mem frame ++ more)
        (later : frames.flatMap (pieces mem) = more ++ ys) :
        ∃ sent started rest,
          Transmitted (frame :: frames) bytes (xs.filterMap Piece.total) sent started rest := by
      rw [eq] at stored ⊢
      obtain ⟨first, second, rfl, own, other⟩ := stored.split
      obtain ⟨w, rfl, rfl⟩ := own.frame long
      obtain ⟨sent, started, rest, h⟩ := ih (fun f member => pos f (.tail _ member)) later other
      refine ⟨w :: sent, started, rest, by rw [h.frames]; rfl, by rw [h.bytes]; simp, h.begun, ?_⟩
      rw [List.filterMap_append, head, List.filterMap_cons_some total, none_, h.lengths,
        List.length_cons, Nat.add_right_comm, List.take_succ_cons]
      rfl
    -- What was stored reaches past the frame, to its end, or not so far.
    rcases List.append_eq_append_iff.mp shape with ⟨more, eq, rest⟩ | ⟨more, eq, rest⟩
    · exact whole more eq rest
    · cases more with
      | nil => exact whole [] (by simpa using eq.symm) rest.symm
      | cons q more =>
        cases xs with
        | nil =>
          cases stored
          exact ⟨[], [], frame :: frames, rfl, rfl, .inl rfl, rfl⟩
        | cons x xs =>
          obtain ⟨some_, first, short, aligned, lengths⟩ :=
            stored.begun long eq (by simp) (by simp)
          refine ⟨[], bytes, frame :: frames, rfl, rfl,
            .inr ⟨frame, frames, rfl, first, short, aligned⟩, ?_⟩
          rw [if_neg some_, lengths]
          rfl

/-! ### Runs -/

/-- The transmit ring, the frames queued so far, and all that was stored to the card. -/
structure TxSystem where
  port : TxPort
  queued : List (List UInt8)
  log : List BusWrite
deriving Repr

/-- A frame is written, or the transmit tasklet runs against a device in any state. -/
inductive TxEvent (δ : Type) where
  | write (buf : List UInt8) (alloc : Bool) (unmovedBytes : Nat) (d : δ)
  | transmit (d : δ)

variable (mem)

/-- Frames that fit are queued and sent in any order of calls. What is queued of a frame is
what could be copied from the caller; without memory for that, nothing is. -/
def txSystem : Machine TxSystem (TxEvent δ) where
  init s := FreshTx mem s.port ∧ s.queued = [] ∧ s.log = []
  step s
    | .write buf alloc unmovedBytes d =>
      if 0 < buf.length ∧ buf.length ≤ userGetTxSpace mem s.port then
        let written := userWriteFrame dev cfg mem alloc unmovedBytes buf s.port d
        some { port := written.2.1
               queued := if alloc then s.queued ++ [copyFromUser buf unmovedBytes] else s.queued
               log := s.log ++ written.2.2.1 }
      else none
    | .transmit d =>
      let sent := ioTransmitFrame dev cfg mem s.port d
      some { s with port := sent.2.1, log := s.log ++ sent.2.2.1 }

variable {mem}

/-- The pieces of the frames queued are those stored, then those in the ring. -/
structure TxSystem.Inv (mem : Memory) (s : TxSystem) : Prop where
  pos : ∀ f ∈ s.queued, 0 < f.length
  flight : ∃ (free queued : List IoFrame) (sent rest : List Piece), TxRing mem s.port free queued ∧
    List.Forall₂ (Carries mem) queued rest ∧ s.queued.flatMap (pieces mem) = sent ++ rest ∧
    Stored sent (fifoBytes s.log) ∧ frameLengths s.log = sent.filterMap Piece.total

namespace TxSystem.Inv

variable {s t : TxSystem}

theorem initial (init : (txSystem dev cfg mem).init s) : s.Inv mem := by
  obtain ⟨fresh, none_, log⟩ := init
  obtain ⟨free, ring⟩ := fresh.txRing
  refine ⟨by simp [none_], free, [], [], [], ring, .nil, by simp [none_], ?_, ?_⟩
  · rw [log]
    exact .nil
  · rw [log]
    rfl

private theorem write (h : s.Inv mem) (fifo : cfg.isDma = false) {buf : List UInt8}
    (pos : 0 < buf.length) (room : buf.length ≤ userGetTxSpace mem s.port) (unmovedBytes : Nat)
    (d : δ) :
    TxSystem.Inv mem
      { port := (userWriteFrame dev cfg mem true unmovedBytes buf s.port d).2.1
        queued := s.queued ++ [copyFromUser buf unmovedBytes]
        log := s.log ++ (userWriteFrame dev cfg mem true unmovedBytes buf s.port d).2.2.1 } := by
  obtain ⟨free, queued, sent, rest, ring, carried, shape, bytes, lengths⟩ := h.flight
  obtain ⟨-, queues⟩ := userWriteFrame_queues dev cfg ring.size ring.user_lt ring.buffers_mem pos
    room unmovedBytes d
  obtain ⟨free', written, -, more, ring'⟩ := ring.queue queues
  -- In FIFO mode a write stores nothing to the card.
  have silent : (userWriteFrame dev cfg mem true unmovedBytes buf s.port d).2.2.1 = [] := by
    simp [userWriteFrame, startTransmit, fifo]
  rw [silent]
  refine ⟨?_, free', queued ++ written, sent, rest ++ pieces mem (copyFromUser buf unmovedBytes),
    ring', List.rel_append carried more, ?_, by simpa using bytes, by simpa using lengths⟩
  · intro f member
    rcases List.mem_append.mp member with old | new
    · exact h.pos f old
    · rw [List.mem_singleton.mp new, length_copyFromUser]
      exact pos
  · rw [List.flatMap_append, shape, List.flatMap_singleton, List.append_assoc]

private theorem transmit (h : s.Inv mem) (d : δ) :
    TxSystem.Inv mem { s with
      port := (ioTransmitFrame dev cfg mem s.port d).2.1
      log := s.log ++ (ioTransmitFrame dev cfg mem s.port d).2.2.1 } := by
  obtain ⟨free, queued, sent, rest, ring, carried, shape, bytes, lengths⟩ := h.flight
  obtain ⟨free', queued', now, later, rfl, ring', carried', stored, begun⟩ :=
    ioTransmitFrame_pieces dev cfg ring carried d
  refine ⟨h.pos, free', queued', sent ++ now, later, ring', carried', ?_, ?_, ?_⟩
  · rw [shape, List.append_assoc]
  · rw [fifoBytes_append]
    exact bytes.append stored
  · rw [frameLengths_append, lengths, begun, List.filterMap_append]

theorem step (fifo : cfg.isDma = false) {e : TxEvent δ} (h : s.Inv mem)
    (stepped : (txSystem dev cfg mem).step s e = some t) : t.Inv mem := by
  cases e with
  | write buf alloc unmovedBytes d =>
    obtain ⟨guard, eq⟩ := Option.ite_none_right_eq_some.mp stepped
    obtain rfl := Option.some.inj eq
    cases alloc with
    | true => exact h.write dev cfg fifo guard.1 guard.2 unmovedBytes d
    | false => simpa [userWriteFrame] using h
  | transmit d =>
    obtain rfl := Option.some.inj stepped
    exact h.transmit dev cfg d

end TxSystem.Inv

/-- Over every sequence of frames and every order of writes and transmit tasklets, whatever
TFCNT and TXCNT read: the FIFO was given whole frames in order, each padded at its end only,
and then whole words of the next. BC_FIFO_L was given the length of each frame begun. -/
theorem frames_transmitted (fifo : cfg.isDma = false) {s : TxSystem}
    (reached : (txSystem dev cfg mem).Reached s) :
    ∃ sent started rest,
      Transmitted s.queued (fifoBytes s.log) (frameLengths s.log) sent started rest ∧
      sent.flatMap SentFrame.data ++ started <+: s.queued.flatten := by
  have inv := Machine.Reached.invariant (P := TxSystem.Inv mem) (fun _ => .initial dev cfg)
    (fun _ _ _ h stepped => h.step dev cfg fifo stepped) reached
  obtain ⟨free, queued, pushed, left, -, -, shape, bytes, lengths⟩ := inv.flight
  rw [lengths]
  obtain ⟨sent, started, rest, sending⟩ := transmitted_of_stored inv.pos shape bytes
  refine ⟨sent, started, rest, sending, ?_⟩
  rw [sending.frames, List.flatten_append, List.flatMap_def]
  refine (List.prefix_append_right_inj _).mpr ?_
  rcases sending.begun with rfl | ⟨next, more, rfl, first, -⟩
  · exact List.nil_prefix
  · exact first.trans (List.prefix_append _ _)

/-- A device on which TXCNT alone is not zero. -/
def byteCount : Device (BitVec 32) where
  getRegister offset d := (if offset = fifoBcOffset then d else 0#32, d)
  readFifo d := (⟨0, 0, 0, 0⟩, d)
  ktime d := (.clear, d)

/-- A frame of three bytes is written and sent; one of seven is written, and the FIFO has room for its
first descriptor only. -/
def twoWrites : List (TxEvent (BitVec 32)) :=
  [.write [1, 2, 3] true 0 0#32, .transmit 0#32, .write [4, 5, 6, 7, 8, 9, 10] true 0 0#32,
    .transmit 0x0ff40000#32]

theorem frames_transmitted_two :
    ∃ s, (txSystem byteCount fifoConfig .small).replay ⟨freshTx .small [4096, 8192], [], []⟩
        twoWrites = some s ∧
      s.queued = [[1, 2, 3], [4, 5, 6, 7, 8, 9, 10]] ∧ fifoBytes s.log = [1, 2, 3, 0, 4, 5, 6, 7] ∧
      frameLengths s.log = [3, 7] ∧
      ∃ sent started rest,
        Transmitted s.queued (fifoBytes s.log) (frameLengths s.log) sent started rest ∧
        sent.flatMap SentFrame.data ++ started <+: s.queued.flatten := by
  obtain ⟨s, replayed, queued, bytes, lengths⟩ : ∃ s, (txSystem byteCount fifoConfig .small).replay
      ⟨freshTx .small [4096, 8192], [], []⟩ twoWrites = some s ∧
      s.queued = [[1, 2, 3], [4, 5, 6, 7, 8, 9, 10]] ∧ fifoBytes s.log = [1, 2, 3, 0, 4, 5, 6, 7] ∧
      frameLengths s.log = [3, 7] := ⟨_, rfl, rfl, by decide, by decide⟩
  exact ⟨s, replayed, queued, bytes, lengths, frames_transmitted byteCount fifoConfig rfl
    (.replay (.init ⟨fresh_freshTx .small rfl, rfl, rfl⟩) twoWrites replayed)⟩

end Fscc
