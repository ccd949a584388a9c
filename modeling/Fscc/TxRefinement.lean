import Fscc.TxFill
import Fscc.TxQueue

/-!
# The transmit path as a queue

What the transmit side of a port in FIFO mode is for: a queue of pieces of frames, of bounded length,
from whose front the hardware FIFO takes what it has room for, of at most one new frame at a time. The
ring of `io.c`, with its two indices, control words and counts, refines that queue.
-/

namespace Fscc

variable {δ : Type} (dev : Device δ) (cfg : PortConfig) (mem : Memory)

/-! ### The queue -/

/-- The room of a piece in the FIFO: whole words, and a word more when the piece is whole words itself. -/
def Piece.charge (piece : Piece) : Nat := piece.data.length + (4 - piece.data.length % 4)

/-- What is taken of a queue with `room` left; `begun` when a frame has been begun already. -/
def takenWithin (room : Nat) (begun : Bool) : List Piece → List Piece
  | [] => []
  | piece :: ps =>
    if piece.charge ≤ room ∧ (begun && piece.total.isSome) = false then
      piece :: takenWithin (room - piece.charge) (begun || piece.total.isSome) ps
    else []

/-- The room of a FIFO that holds `txcnt` bytes. A byte of it stays unused. -/
def fifoRoom (txcnt : Nat) : Nat := (4095 - txcnt) / 4 * 4

/-- What is taken when the FIFO holds `tfcnt` frames and `txcnt` bytes. -/
def takenFor (tfcnt txcnt : Nat) (ps : List Piece) : List Piece :=
  if tfcnt ≤ 254 then takenWithin (fifoRoom txcnt) false ps else []

private theorem takenWithin_first (room : Nat) (begun : Bool) (ps : List Piece) :
    takenWithin room begun ps <+: ps := by
  induction ps generalizing room begun with
  | nil => exact List.prefix_rfl
  | cons piece ps ih =>
    rw [takenWithin]
    split
    · exact (List.prefix_cons_inj piece).mpr (ih _ _)
    · exact List.nil_prefix

theorem takenFor_first (tfcnt txcnt : Nat) (ps : List Piece) : takenFor tfcnt txcnt ps <+: ps := by
  unfold takenFor
  split
  · exact takenWithin_first _ _ ps
  · exact List.nil_prefix

/-- Without room nothing is taken. -/
private theorem takenWithin_zero (begun : Bool) (ps : List Piece) : takenWithin 0 begun ps = [] := by
  cases ps with
  | nil => rfl
  | cons piece ps =>
    have charged : ¬piece.charge ≤ 0 := by
      rw [Piece.charge]
      omega
    rw [takenWithin, if_neg (fun fits => charged fits.1)]

/-! ### The loop of `fscc_fifo_write_data` -/

variable {mem} {p : TxPort} {free queued : List IoFrame} {ps : List Piece}

namespace Carries

variable {f : IoFrame} {piece : Piece}

private theorem charge_eq (h : Carries mem f piece) : sizeInFifo f.desc.dataCount = piece.charge := by
  have le : f.desc.dataCount ≤ mem.txSize := h.dataCount ▸ h.le
  rw [sizeInFifo_eq le, Fscc.charge, Piece.charge, h.dataCount]

/-- The loop stops at a descriptor just when its piece is not taken. -/
private theorem stops_iff (h : Carries mem f piece) {tfcnt : Nat} (few : tfcnt ≤ 254) (s : Filling) :
    fillStops tfcnt f s = false ↔
      piece.charge ≤ s.fifoSpace ∧ ((s.frameSize != 0) && piece.total.isSome) = false := by
  have frames : ¬255 < tfcnt := by omega
  rw [fillStops, h.cstop, h.charge_eq, h.fe]
  cases piece.total.isSome <;> simp [frames]

private theorem step_eq (h : Carries mem f piece) {s : Filling} (fits : piece.charge ≤ s.fifoSpace)
    (bound : s.fifoSpace < 4294967296) :
    (fillStep f s).fifoSpace = s.fifoSpace - piece.charge ∧
      ((fillStep f s).frameSize != 0) = ((s.frameSize != 0) || piece.total.isSome) := by
  refine ⟨?_, ?_⟩
  · rw [fillStep, h.charge_eq, CInt.sub32_eq fits bound]
  · have fe := h.fe
    cases total : piece.total with
    | none => simp [fillStep, fe, total]
    | some n =>
      obtain ⟨count, pos⟩ := h.count n total
      have some_ : n ≠ 0 := by omega
      simp [fillStep, fe, total, count, some_]

end Carries

/-- The loop empties the descriptors of what is taken. -/
private theorem fifoWriteLoop_taken (h : TxRing mem p free queued)
    (carried : List.Forall₂ (Carries mem) queued ps) {tfcnt : Nat} (few : tfcnt ≤ 254) {passes : Nat}
    (enough : queued.length ≤ passes) {s : Filling} (bound : s.fifoSpace < 4294967296) :
    let count := (takenWithin s.fifoSpace (s.frameSize != 0) ps).length
    ∃ free', TxRing mem (fifoWriteLoop mem tfcnt passes p s).1 free' (queued.drop count) ∧
      (fifoWriteLoop mem tfcnt passes p s).2.1.dataWritten = (s.dataWritten || decide (0 < count)) := by
  -- Induction on the queue, which the loop takes from the front.
  induction carried generalizing p free passes s with
  | nil =>
    have stopped : fifoWriteLoop mem tfcnt passes p s = (p, s, []) := by
      cases passes with
      | zero => rfl
      | succ passes => simp [fifoWriteLoop, fillStops, h.fifoFrame_empty]
    rw [stopped]
    exact ⟨free, h, by simp [takenWithin]⟩
  | @cons f piece queued ps first _ ih =>
    cases passes with
    | zero => cases enough
    | succ passes =>
      rw [fifoWriteLoop, h.fifoFrame_eq]
      -- The loop stops where the specification does: no room left, or the start of a second frame.
      by_cases goes : fillStops tfcnt f s = false
      · obtain ⟨fits, one⟩ := (first.stops_iff few s).mp goes
        obtain ⟨space, begun⟩ := first.step_eq fits bound
        obtain ⟨free', ring, written⟩ := ih h.retire (Nat.le_of_succ_le_succ enough)
          (s := fillStep f s) (by omega)
        rw [space, begun] at ring written
        rw [takenWithin, if_pos ⟨fits, one⟩]
        simp only [goes, Bool.false_eq_true, if_false, List.length_cons, List.drop_succ_cons]
        refine ⟨free', ring, ?_⟩
        rw [written]
        simp [fillStep]
      · have refused := mt (first.stops_iff few s).mpr goes
        rw [Bool.not_eq_false] at goes
        rw [takenWithin, if_neg refused]
        simp only [goes, if_true, List.length_nil, List.drop_zero]
        exact ⟨free, h, by simp⟩

/-- `fscc_fifo_write_data` takes from the queue what it should, and gives it to the FIFO. -/
theorem fifoWriteData_taken (h : TxRing mem p free queued)
    (carried : List.Forall₂ (Carries mem) queued ps) (d : δ) :
    let sent := takenFor (ioGetTFCNT dev d).1 (ioGetTXCNT dev (ioGetTFCNT dev d).2).1 ps
    (fifoWriteData dev mem p d).1 = decide (0 < sent.length) ∧
      Stored sent (fifoBytes (fifoWriteData dev mem p d).2.2.1) ∧
      frameLengths (fifoWriteData dev mem p d).2.2.1 = sent.filterMap Piece.total ∧
      ∃ free' queued', TxRing mem (fifoWriteData dev mem p d).2.1 free' queued' ∧
        List.Forall₂ (Carries mem) queued' (ps.drop sent.length) := by
  -- How many descriptors are emptied: the two indices of the ring tell.
  have count : let sent := takenFor (ioGetTFCNT dev d).1 (ioGetTXCNT dev (ioGetTFCNT dev d).2).1 ps
      (fifoWriteData dev mem p d).1 = decide (0 < sent.length) ∧
        ∃ free', TxRing mem (fifoWriteData dev mem p d).2.1 free' (queued.drop sent.length) := by
    have bound := ioGetTXCNT_le dev (ioGetTFCNT dev d).2
    unfold fifoWriteData takenFor
    dsimp only
    generalize (ioGetTXCNT dev (ioGetTFCNT dev d).2).1 = txcnt at bound ⊢
    by_cases many : 254 < (ioGetTFCNT dev d).1
    · rw [if_pos many, if_neg (not_le.mpr many)]
      exact ⟨rfl, free, h⟩
    · rw [if_neg many, if_pos (not_lt.mp many)]
      by_cases full : txFifoSize ≤ txcnt
      · have none_ : fifoRoom txcnt = 0 := by
          unfold txFifoSize at full
          rw [fifoRoom]
          omega
        rw [if_pos (fifoSpaceFor_wrapped full bound), none_, takenWithin_zero]
        exact ⟨rfl, free, h⟩
      · have room := fifoSpaceFor_le (not_le.mp full)
        have space : fifoSpaceFor txcnt = fifoRoom txcnt := by
          unfold fifoSpaceFor fifoRoom CInt.sub32 txFifoSize at *
          dsimp only
          omega
        have sum := h.length_add
        obtain ⟨free', ring, written⟩ := fifoWriteLoop_taken h carried (not_lt.mp many)
          (show queued.length ≤ mem.txNum by omega) (s := ⟨fifoSpaceFor txcnt, 0, false⟩)
          (fifoSpaceFor_lt txcnt)
        rw [if_neg (by omega)]
        rw [space] at ring written ⊢
        exact ⟨by simpa using written, free', ring⟩
  obtain ⟨worked, free', ring⟩ := count
  obtain ⟨free'', queued', sent, rest, split, ring', carried', bytes, lengths⟩ :=
    fifoWriteData_pieces dev h carried d
  have first := takenFor_first (ioGetTFCNT dev d).1 (ioGetTXCNT dev (ioGetTFCNT dev d).2).1 ps
  dsimp only at worked ring ⊢
  generalize takenFor (ioGetTFCNT dev d).1 (ioGetTXCNT dev (ioGetTFCNT dev d).2).1 ps = due at *
  have same : due = sent := by
    have left := congrArg List.length ((ring'.queue_eq).symm.trans ring.queue_eq)
    have total := congrArg List.length split
    have own := carried.length_eq
    have other := carried'.length_eq
    have short := first.length_le
    rw [List.length_drop] at left
    rw [List.length_append] at total
    obtain ⟨more, eq⟩ := first
    rw [split] at eq
    exact (List.append_inj eq (by omega)).1
  subst same
  refine ⟨worked, bytes, lengths, free'', queued', ring', ?_⟩
  rw [split, List.drop_left]
  exact carried'

/-! ### Calls -/

/-- A call to the transmit side: a look at the space, a write that is made if there is room for it, the
transmit tasklet, or a purge. -/
inductive TxCall (δ : Type) where
  | space
  | write (buf : List UInt8) (alloc : Bool) (unmovedBytes : Nat) (d : δ)
  | transmit (d : δ)
  | purge (d : δ)

/-- What a call gives: of a transmission whether anything was written, and the stores. -/
inductive TxOutcome where
  | space (n : Nat)
  | refused
  | written (result : Except Errno Unit)
  | sent (worked : Bool) (stores : List BusWrite)
  | purged
deriving DecidableEq

/-- The same of the queue: of a transmission the pieces taken. -/
inductive PieceOutcome where
  | space (n : Nat)
  | refused
  | written
  | sent (ps : List Piece)
  | purged

variable (mem)

def txCall : TxCall δ → TxPort → TxOutcome × TxPort
  | .space, p => (.space (userGetTxSpace mem p), p)
  | .write buf alloc unmovedBytes d, p =>
    if 0 < buf.length ∧ buf.length ≤ userGetTxSpace mem p then
      let written := userWriteFrame dev cfg mem alloc unmovedBytes buf p d
      (.written written.1, written.2.1)
    else (.refused, p)
  | .transmit d, p =>
    let sent := ioTransmitFrame dev cfg mem p d
    (.sent sent.1 sent.2.2.1, sent.2.1)
  | .purge d, p => (.purged, (ioPurgeTx dev cfg p d).1)

/-- The room of the queue, in bytes of whole descriptors. -/
def queueSpace (ps : List Piece) : Nat := (mem.txNum - ps.length) * mem.txSize

/-- What the calls are for. Without memory for a copy of it, a write is lost and reported as made. -/
def pieceCall : TxCall δ → List Piece → PieceOutcome × List Piece
  | .space, ps => (.space (queueSpace mem ps), ps)
  | .write buf alloc unmovedBytes _, ps =>
    if 0 < buf.length ∧ buf.length ≤ queueSpace mem ps then
      (.written, if alloc then ps ++ pieces mem (copyFromUser buf unmovedBytes) else ps)
    else (.refused, ps)
  | .transmit d, ps =>
    let sent := takenFor (ioGetTFCNT dev d).1 (ioGetTXCNT dev (ioGetTFCNT dev d).2).1 ps
    (.sent sent, ps.drop sent.length)
  | .purge _, _ => (.purged, [])

/-- The FIFO is given the pieces, each padded to whole words, and BC_FIFO_L the length of the frame that
begins with one of them. -/
def TxOutcome.Agrees : TxOutcome → PieceOutcome → Prop
  | .space n, .space m => n = m
  | .refused, .refused => True
  | .written result, .written => result = .ok ()
  | .sent worked stores, .sent ps => worked = decide (0 < ps.length) ∧ Stored ps (fifoBytes stores) ∧
      frameLengths stores = ps.filterMap Piece.total
  | .purged, .purged => True
  | _, _ => False

/-- The ring holds the pieces. -/
def HoldsQueue (p : TxPort) (ps : List Piece) : Prop :=
  ∃ free queued, TxRing mem p free queued ∧ List.Forall₂ (Carries mem) queued ps

variable {mem}

theorem HoldsQueue.space (h : HoldsQueue mem p ps) : userGetTxSpace mem p = queueSpace mem ps := by
  obtain ⟨free, queued, ring, carried⟩ := h
  have sum := ring.length_add
  rw [ring.userGetTxSpace, queueSpace, ← carried.length_eq, ← sum, Nat.add_sub_cancel]

variable {dev} in
/-- Every call does to the ring what it should do to the queue. -/
theorem HoldsQueue.call (h : HoldsQueue mem p ps) (call : TxCall δ) :
    (txCall dev cfg mem call p).1.Agrees (pieceCall dev mem call ps).1 ∧
      HoldsQueue mem (txCall dev cfg mem call p).2 (pieceCall dev mem call ps).2 := by
  have room := h.space
  obtain ⟨free, queued, ring, carried⟩ := h
  cases call with
  | space => exact ⟨room, free, queued, ring, carried⟩
  | write buf alloc unmovedBytes d =>
    rw [txCall, pieceCall, room]
    by_cases fits : 0 < buf.length ∧ buf.length ≤ queueSpace mem ps
    · rw [if_pos fits, if_pos fits]
      cases alloc with
      | false => exact ⟨rfl, free, queued, ring, carried⟩
      | true =>
        obtain ⟨result, queues⟩ := userWriteFrame_queues dev cfg ring.size ring.user_lt
          ring.buffers_mem fits.1 (by rw [room]; exact fits.2) unmovedBytes d
        obtain ⟨free', written, -, more, ring'⟩ := ring.queue queues
        exact ⟨result, free', queued ++ written, ring', List.rel_append carried more⟩
    · rw [if_neg fits, if_neg fits]
      exact ⟨trivial, free, queued, ring, carried⟩
  | transmit d =>
    obtain ⟨worked, bytes, lengths, free', queued', ring', carried'⟩ :=
      fifoWriteData_taken dev ring carried d
    refine ⟨?_, free', queued', ?_, carried'⟩
    · rw [txCall, pieceCall, ioTransmitFrame]
      dsimp only
      split
      next some_ =>
        -- The command is neither data nor a length.
        refine ⟨some_.symm.trans worked, ?_, ?_⟩
        · rw [fifoBytes_append, ioExecuteTransmit, if_neg (by decide),
            (fifoBytes_issued_command dev cfg _ _).1, List.append_nil]
          exact bytes
        · rw [frameLengths_append, ioExecuteTransmit, if_neg (by decide),
            (fifoBytes_issued_command dev cfg _ _).2, List.append_nil]
          exact lengths
      next => exact ⟨worked, bytes, lengths⟩
    · rw [txCall, ioTransmitFrame]
      dsimp only
      split
      next => exact ring'
      next => exact ring'
  | purge d => exact ⟨trivial, _, [], txRing_reset mem ring.size ring.buffers_mem, .nil⟩

/-- Over every sequence of calls to a port just purged, whatever the registers read, each call gives what
it gives of the queue, from the empty queue on. -/
theorem transmit_refines {p : TxPort} (fresh : FreshTx mem p) (calls : List (TxCall δ)) :
    List.Forall₂ TxOutcome.Agrees (Machine.results (txCall dev cfg mem) p calls)
      (Machine.results (pieceCall dev mem) [] calls) := by
  obtain ⟨free, ring⟩ := fresh.txRing
  exact Machine.results_refine (R := HoldsQueue mem) (fun call _ _ h => h.call cfg call)
    ⟨free, [], ring, .nil⟩ calls

/-- A frame of five bytes is queued, sent in two pieces, and the ring is empty again. -/
def fiveSent : List (TxCall (BitVec 32)) :=
  [.write [1, 2, 3, 4, 5] true 0 0#32, .space, .transmit 0#32, .space]

theorem transmit_refines_five :
    Machine.results (txCall constant fifoConfig .small) (freshTx .small [4096, 8192]) fiveSent =
        [.written (.ok ()), .space 0,
          .sent true [.word 0 fifoOffset ⟨1, 2, 3, 4⟩, .word 0 fifoOffset ⟨5, 0, 0, 0⟩,
            .register 0 bcFifoLOffset 5#32, .register 0 cmdrOffset 0x01000000#32],
          .space 8] ∧
      List.Forall₂ TxOutcome.Agrees
        (Machine.results (txCall constant fifoConfig .small) (freshTx .small [4096, 8192]) fiveSent)
        (Machine.results (pieceCall constant .small) [] fiveSent) :=
  ⟨by decide, transmit_refines constant fifoConfig (fresh_freshTx .small rfl) fiveSent⟩

/-! ### Whether the queue empties -/

/-- The FIFO has been sent, and can take a frame. -/
def Emptied (d : δ) : Prop :=
  (ioGetTFCNT dev d).1 ≤ 254 ∧ (ioGetTXCNT dev (ioGetTFCNT dev d).2).1 = 0

/-- The port after a transmission for each of the states `ds` of the device. -/
def afterTransmissions (mem : Memory) (p : TxPort) (ds : List δ) : TxPort :=
  ds.foldl (fun p d => (ioTransmitFrame dev cfg mem p d).2.1) p

/-- An empty FIFO takes the first piece, if it has room for a descriptor's at all. -/
theorem takenFor_emptied {tfcnt : Nat} (few : tfcnt ≤ 254) {piece : Piece}
    (short : piece.data.length ≤ mem.txSize) (size : mem.txSize ≤ 4088) :
    0 < (takenFor tfcnt 0 (piece :: ps)).length := by
  have words := mem.txSize_words
  have fits : piece.charge ≤ fifoRoom 0 := by
    rw [Piece.charge, fifoRoom]
    omega
  rw [takenFor, if_pos few, takenWithin, if_pos ⟨fits, rfl⟩, List.length_cons]
  omega

/-- A piece that an empty FIFO has no room for is never taken. -/
private theorem takenFor_blocked (tfcnt txcnt : Nat) {piece : Piece} (long : 4092 ≤ piece.data.length) :
    takenFor tfcnt txcnt (piece :: ps) = [] := by
  have blocked : ¬piece.charge ≤ fifoRoom txcnt := by
    rw [Piece.charge, fifoRoom]
    omega
  unfold takenFor
  split
  · rw [takenWithin, if_neg (fun fits => blocked fits.1)]
  · rfl

variable {dev cfg}

private theorem HoldsQueue.transmission (h : HoldsQueue mem p ps) (d : δ) :
    HoldsQueue mem (ioTransmitFrame dev cfg mem p d).2.1
      (ps.drop (takenFor (ioGetTFCNT dev d).1 (ioGetTXCNT dev (ioGetTFCNT dev d).2).1 ps).length) :=
  (h.call cfg (.transmit d)).2

private theorem HoldsQueue.write (h : HoldsQueue mem p ps) {buf : List UInt8}
    (fits : 0 < buf.length ∧ buf.length ≤ userGetTxSpace mem p) (d : δ) :
    HoldsQueue mem (userWriteFrame dev cfg mem true 0 buf p d).2.1 (ps ++ pieces mem buf) := by
  have room : 0 < buf.length ∧ buf.length ≤ queueSpace mem ps := by rwa [← h.space]
  have called : HoldsQueue mem (txCall dev cfg mem (.write buf true 0 d) p).2
      (pieceCall dev mem (.write buf true 0 d) ps).2 := (h.call cfg _).2
  rwa [txCall, if_pos fits, pieceCall, if_pos room, copyFromUser_zero] at called

theorem HoldsQueue.short (h : HoldsQueue mem p ps) : ∀ piece ∈ ps, piece.data.length ≤ mem.txSize := by
  obtain ⟨free, queued, -, carried⟩ := h
  clear free
  induction carried with
  | nil => exact List.forall_mem_nil _
  | cons first _ ih =>
    intro piece member
    cases member with
    | head => exact first.le
    | tail _ member => exact ih piece member

/-- Each transmission to an empty FIFO shortens the queue. -/
private theorem HoldsQueue.drains (h : HoldsQueue mem p ps) (size : mem.txSize ≤ 4088) {ds : List δ}
    (emptied : ∀ d ∈ ds, Emptied dev d) (enough : ps.length ≤ ds.length) :
    HoldsQueue mem (afterTransmissions dev cfg mem p ds) [] := by
  induction ds generalizing p ps with
  | nil =>
    obtain rfl := List.length_eq_zero_iff.mp (Nat.le_zero.mp enough)
    exact h
  | cons d ds ih =>
    obtain ⟨few, none_⟩ := emptied d (.head _)
    refine ih (h.transmission d) (fun x member => emptied x (.tail _ member)) ?_
    rw [List.length_drop]
    cases ps with
    | nil => simp
    | cons piece ps =>
      have some_ := @takenFor_emptied mem ps _ few piece (h.short piece (.head _)) size
      rw [none_]
      simp only [List.length_cons] at enough ⊢
      omega

private theorem HoldsQueue.blocked {piece : Piece} (h : HoldsQueue mem p (piece :: ps))
    (long : 4092 ≤ piece.data.length) (ds : List δ) :
    HoldsQueue mem (afterTransmissions dev cfg mem p ds) (piece :: ps) := by
  induction ds generalizing p with
  | nil => exact h
  | cons d ds ih =>
    have kept := @HoldsQueue.transmission _ dev cfg mem p _ h d
    rw [takenFor_blocked _ _ long] at kept
    exact ih kept

/-- From every state of the ring, transmissions to a FIFO that has been sent each time empty it, one for
each descriptor at most, if and only if a descriptor holds no more than 4088 bytes. `config.h` asks for
less than the FIFO, whose bytes are 4096. -/
theorem ring_drains_iff (possible : ∃ d, Emptied dev d) :
    (∀ p, (queueMachine dev cfg mem).Reached p → ∀ ds : List δ, (∀ d ∈ ds, Emptied dev d) →
      mem.txNum ≤ ds.length →
      userGetTxSpace mem (afterTransmissions dev cfg mem p ds) = mem.txNum * mem.txSize) ↔
      mem.txSize ≤ 4088 := by
  have empty : queueSpace mem [] = mem.txNum * mem.txSize := rfl
  constructor
  · intro drains
    by_contra large
    have words := mem.txSize_words
    have pos := mem.txSize_pos
    have some_ := mem.txNum_pos
    -- One descriptor is filled, and nothing is ever taken.
    have fresh : FreshTx mem (freshTx mem (List.replicate mem.txNum 0)) :=
      fresh_freshTx mem List.length_replicate
    obtain ⟨free, ring⟩ := fresh.txRing
    have held : HoldsQueue mem (freshTx mem (List.replicate mem.txNum 0)) [] := ⟨free, [], ring, .nil⟩
    obtain ⟨d, emptied⟩ := possible
    have fits : 0 < (List.replicate mem.txSize (0 : UInt8)).length ∧
        (List.replicate mem.txSize (0 : UInt8)).length ≤
          userGetTxSpace mem (freshTx mem (List.replicate mem.txNum 0)) := by
      rw [held.space, empty, List.length_replicate]
      exact ⟨pos, Nat.le_mul_of_pos_left _ some_⟩
    have written := @HoldsQueue.write _ dev cfg _ _ _ held _ fits d
    have some_frame : List.replicate mem.txSize (0 : UInt8) ≠ [] := List.length_pos_iff.mp fits.1
    rw [List.nil_append, pieces, Chunks.split_cons pos some_frame, piecesOf] at written
    have still := @HoldsQueue.blocked _ dev cfg _ _ _ _ written
      (by rw [List.length_take, List.length_replicate]; omega) (List.replicate mem.txNum d)
    have stepped : (queueMachine dev cfg mem).step _ (.write _ true 0 d) = some _ :=
      Option.ite_none_right_eq_some.mpr ⟨fits, rfl⟩
    have all := drains _ (.step (.init fresh) trivial stepped)
      (List.replicate mem.txNum d) (fun x member => List.eq_of_mem_replicate member ▸ emptied)
      (by rw [List.length_replicate])
    rw [still.space, queueSpace, List.length_cons] at all
    have fewer := Nat.eq_of_mul_eq_mul_right pos all
    omega
  · intro size p reached ds emptied enough
    obtain ⟨free, queued, ps, ring, carried, -⟩ := (Machine.Reached.invariant (P := TxProper.Inv mem)
      (fun _ => .initial) (fun _ _ _ h stepped => h.step dev cfg stepped) reached).held
    have held : HoldsQueue mem p ps := ⟨free, queued, ring, carried⟩
    have sum := ring.length_add
    have same := carried.length_eq
    have drained := @HoldsQueue.drains _ dev cfg _ _ _ held size _ emptied (by omega)
    rw [drained.space, empty]

/-- With the sizes of `config.h` the ring empties. -/
theorem ring_drains_iff_default :
    Memory.default.txSize ≤ 4088 ∧
      ∀ p, (queueMachine constant fifoConfig .default).Reached p → ∀ ds : List (BitVec 32),
        (∀ d ∈ ds, Emptied constant d) → 200 ≤ ds.length →
        userGetTxSpace .default (afterTransmissions constant fifoConfig .default p ds) = 51200 :=
  ⟨by decide, (ring_drains_iff ⟨0#32, by unfold Emptied; decide⟩).mpr (by decide)⟩

end Fscc
