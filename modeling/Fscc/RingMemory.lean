import Fscc.Receiver
import Fscc.RxProper
import Fscc.TxWakeup

/-!
# The memory of the rings

Which elements of the descriptor arrays, and which bytes of the buffers, the loops of `io.c` touch.
A port in FIFO mode, with every call in any order and the device in any state: none of them touches
what is not there. The copies of `fscc_user_read_frame` into its own buffer are a matter of the
frames it finds, and not followed here.
-/

namespace Fscc

open CInt
open Receiver (roundUp)

/-- `length` elements from `offset` on, of something that has `size` of them. -/
structure Access where
  offset : Nat
  length : Nat
  size : Nat
deriving DecidableEq, Repr

def Access.Inside (a : Access) : Prop := a.offset + a.length ≤ a.size

/-- The element `i` of a descriptor array. -/
def element (descs : List IoFrame) (i : Nat) : Access := ⟨i, 1, descs.length⟩

/-! ### What the loops touch -/

/-- A scan from the index `i` to the first descriptor that stops it: `fscc_user_next_read_size` and
`fscc_user_get_tx_space`. -/
def scanAccesses (stops : IoFrame → Bool) (num : Nat) (descs : List IoFrame) : Nat → Nat → List Access
  | 0, _ => []
  | passes + 1, i =>
    element descs i ::
      if stops (descs.getD i default) then []
      else scanAccesses stops num descs passes (Ring.next num i)

variable {δ : Type} (dev : Device δ) (mem : Memory)

/-- `fscc_fifo_read_data`: in each pass a descriptor and the end of its buffer. -/
def drainAccesses : Nat → RxPort → δ → List Access
  | 0, _, _ => []
  | passes + 1, p, d =>
    element p.rxDescriptors p.fifoRxDesc ::
      if p.fifoFrame.cstop then []
      else
        let done := fifoReadPass dev mem p d
        ⟨cnt p.fifoFrame.desc.control, (drainLength dev mem p d).1, p.fifoFrame.buffer.length⟩ ::
          if hasCstop done.1.newControl then drainAccesses passes (p.store mem done.1) done.2 else []

/-- `fscc_user_read_stream`: in each pass a descriptor, the start of its buffer, the end of
`temp_data`, and, when the descriptor is not emptied, what moves to the front of the buffer; last
what is copied to the user. -/
def streamAccesses (bufLength : Nat) : Nat → RxPort → Nat → List Access
  | 0, _, outLength => [⟨0, outLength, bufLength⟩]
  | passes + 1, p, outLength =>
    let f := p.userFrame
    element p.rxDescriptors p.userRxDesc ::
      if !f.fe && !f.cstop then [⟨0, outLength, bufLength⟩]
      else
        let read := streamDescriptor mem (mem.rxNum - (passes + 1)) (subSize bufLength outLength) f
        let receiveLength := read.2.1.length
        ⟨0, receiveLength, f.buffer.length⟩ :: ⟨outLength, receiveLength, bufLength⟩ ::
          if read.2.2 then
            streamAccesses bufLength passes (p.putUser mem read.1) (add32 outLength receiveLength)
          else
            [⟨receiveLength, f.desc.dataCount - receiveLength, f.buffer.length⟩,
              ⟨0, add32 outLength receiveLength, bufLength⟩]

/-- `fscc_user_write_frame`: in each pass a descriptor, the start of its buffer, and what goes there
from `temp_data`. -/
def writeAccesses (dataLength : Nat) (tempData : List UInt8) :
    Nat → Bool → TxPort → Nat → List Access
  | 0, _, _, _ => []
  | passes + 1, first, p, outLength =>
    let f := p.userFrame
    element p.txDescriptors p.userTxDesc ::
      if !f.cstop then []
      else
        let length := transmitLength mem dataLength outLength
        ⟨0, length, f.buffer.length⟩ :: ⟨outLength, length, tempData.length⟩ ::
          if outLength + length = dataLength then []
          else
            writeAccesses dataLength tempData passes false
              (p.putUser mem (writeDescriptor mem tempData first outLength f)) (outLength + length)

/-- `fscc_fifo_write_data`: in each pass a descriptor and the whole words that its data take up. -/
def transmitAccesses (tfcnt : Nat) : Nat → TxPort → Filling → List Access
  | 0, _, _ => []
  | passes + 1, p, s =>
    let f := p.fifoFrame
    element p.txDescriptors p.fifoTxDesc ::
      if fillStops tfcnt f s then []
      else
        ⟨0, roundUp f.desc.dataCount, f.buffer.length⟩ ::
          transmitAccesses tfcnt passes (p.retire mem) (fillStep f s)

/-- `fscc_io_purge_rx` and `fscc_io_purge_tx`: every descriptor. -/
def purgeAccesses (num : Nat) (descs : List IoFrame) : List Access :=
  (List.range num).map (element descs)

/-! ### Each loop stays inside -/

variable {mem}

private theorem inside_element {descs : List IoFrame} {i : Nat} (lt : i < descs.length) :
    (element descs i).Inside := lt

private theorem inside_scan (stops : IoFrame → Bool) {num : Nat} {descs : List IoFrame}
    (size : descs.length = num) (passes : Nat) {i : Nat} (lt : i < num) :
    ∀ a ∈ scanAccesses stops num descs passes i, a.Inside := by
  induction passes generalizing i with
  | zero => simp [scanAccesses]
  | succ passes ih =>
    intro a member
    rcases List.mem_cons.mp member with rfl | later
    · exact inside_element (by omega)
    · split at later
      next => cases later
      next => exact ih (Ring.next_lt lt) a later

private theorem inside_purge {num : Nat} {descs : List IoFrame} (size : descs.length = num) :
    ∀ a ∈ purgeAccesses num descs, a.Inside := by
  intro a member
  obtain ⟨i, lt, rfl⟩ := List.mem_map.mp member
  exact inside_element (by rw [size]; exact List.mem_range.mp lt)

/-- The drain has room for what it takes. -/
private theorem Pieces.inside_drain (passes : Nat) {p : RxPort} {finished free : List IoFrame}
    (h : Pieces mem p finished free) (d : δ) :
    ∀ a ∈ drainAccesses dev mem passes p d, a.Inside := by
  -- Induction on the passes, over a ring of pieces.
  induction passes generalizing p finished free d with
  | zero => simp [drainAccesses]
  | succ passes ih =>
    intro a member
    rcases List.mem_cons.mp member with rfl | later
    · exact inside_element (by rw [h.ring.size]; exact h.ring.fifo_lt)
    · split at later
      next => cases later
      next opened =>
        cases free with
        | nil => exact absurd h.ring.fifoFrame_full opened
        | cons f rest =>
          rcases List.mem_cons.mp later with rfl | later
          -- The bytes taken are bounded by the room of the descriptor.
          · have le := drainLength_le dev mem h.ring d
            have room := h.ring.free_room f (.head _)
            have buffer := h.ring.buffers f (by simp)
            rw [h.ring.fifoFrame_eq]
            change f.count + (drainLength dev mem p d).1 ≤ f.buffer.length
            omega
          · split at later
            next =>
              rcases h.pass dev d with ⟨g, kept, -⟩ | ⟨g, kept, -⟩
              · exact ih kept _ a later
              · exact ih kept _ a later
            next => cases later

/-- A reader of the stream takes what the descriptors and its buffer have room for. -/
private theorem Pieces.inside_stream {bufLength : Nat} (size : bufLength < 18446744073709551616)
    (passes : Nat)
    {p : RxPort} {finished free : List IoFrame} {outLength : Nat} (h : Pieces mem p finished free)
    (le : outLength ≤ bufLength)
    (small : outLength + (finished.map IoFrame.data).flatten.length < 4294967296) :
    ∀ a ∈ streamAccesses mem bufLength passes p outLength, a.Inside := by
  have copied : ∀ a ∈ ([⟨0, outLength, bufLength⟩] : List Access), a.Inside := by
    intro a member
    rw [List.mem_singleton.mp member]
    simpa [Access.Inside] using le
  induction passes generalizing p finished free outLength with
  | zero => exact copied
  | succ passes ih =>
    intro a member
    rcases List.mem_cons.mp member with rfl | later
    · exact inside_element (by rw [h.ring.size]; exact h.ring.user_lt)
    · split at later
      next => exact copied a later
      next going =>
        cases finished with
        | nil =>
          -- A reader that goes on stands at a finished descriptor.
          obtain ⟨f, rest, rfl⟩ : ∃ f rest, free = f :: rest := by
            have sum := h.ring.length_add
            have pos := mem.rxNum_pos
            cases free with
            | nil => simp only [List.length_nil] at sum; omega
            | cons f rest => exact ⟨f, rest, rfl⟩
          have opened := h.ring.free_open f (.head _)
          simp [h.ring.userFrame_free, opened.1, opened.2] at going
        | cons f fs =>
          have inside := h.inside f (.head _)
          have buffer := h.ring.buffers f (.head _)
          rw [List.map_cons, List.flatten_cons, List.length_append, IoFrame.data, length_bytesAt]
            at small
          simp only [h.ring.userFrame_eq, streamDescriptor_eq, subSize_eq le size] at later
          by_cases fits : f.desc.dataCount ≤ bufLength - outLength
          · simp only [if_pos fits, length_bytesAt, if_true] at later
            rcases List.mem_cons.mp later with rfl | later
            · change 0 + f.desc.dataCount ≤ f.buffer.length
              omega
            · rcases List.mem_cons.mp later with rfl | later
              · change outLength + f.desc.dataCount ≤ bufLength
                omega
              · rw [add32_eq (by omega)] at later
                exact ih (h.putUser (mem.rxNum - (passes + 1))) (by omega) (by omega)
                  (by
                    intro a member
                    rw [List.mem_singleton.mp member]
                    change 0 + (outLength + f.desc.dataCount) ≤ bufLength
                    omega) a later
          · -- The rest of the descriptor moves to its front.
            simp only [if_neg fits, length_bytesAt, Bool.false_eq_true, if_false] at later
            rw [add32_eq (by omega)] at later
            simp only [List.mem_cons, List.not_mem_nil, or_false] at later
            rcases later with rfl | rfl | rfl | rfl
            · change 0 + (bufLength - outLength) ≤ f.buffer.length
              omega
            · change outLength + (bufLength - outLength) ≤ bufLength
              omega
            · change bufLength - outLength + (f.desc.dataCount - (bufLength - outLength)) ≤
                f.buffer.length
              omega
            · change 0 + (outLength + (bufLength - outLength)) ≤ bufLength
              omega

/-- A writer's copies end inside the buffers and inside its frame. -/
private theorem inside_write {tempData : List UInt8} (fits : tempData.length ≤ mem.txNum * mem.txSize)
    (passes : Nat) (first : Bool) {p : TxPort} (size : p.txDescriptors.length = mem.txNum)
    (user : p.userTxDesc < mem.txNum) (buffers : ∀ f ∈ p.txDescriptors, f.buffer.length = mem.txSize)
    {outLength : Nat} (le : outLength ≤ tempData.length) :
    ∀ a ∈ writeAccesses mem tempData.length tempData passes first p outLength, a.Inside := by
  induction passes generalizing p first outLength with
  | zero => simp [writeAccesses]
  | succ passes ih =>
    have present : p.userFrame ∈ p.txDescriptors := by
      have lt : p.userTxDesc < p.txDescriptors.length := by omega
      rw [TxPort.userFrame, List.getD_eq_getElem?_getD, List.getElem?_eq_getElem lt]
      exact List.getElem_mem lt
    have buffer := buffers _ present
    have length := transmitLength_eq fits le
    rw [List.length_take, List.length_drop] at length
    intro a member
    rcases List.mem_cons.mp member with rfl | later
    · exact inside_element (by omega)
    · split at later
      next => cases later
      next =>
        -- A chunk goes from the caller's copy to the buffer, and is as long as both allow.
        rcases List.mem_cons.mp later with rfl | later
        · change 0 + transmitLength mem tempData.length outLength ≤ p.userFrame.buffer.length
          omega
        · rcases List.mem_cons.mp later with rfl | later
          · change outLength + transmitLength mem tempData.length outLength ≤ tempData.length
            omega
          · split at later
            next => cases later
            next =>
              refine ih false ?_ (Ring.next_lt user) ?_ (by omega) a later
              · simpa [TxPort.putUser] using size
              · intro f member
                rcases List.mem_or_eq_of_mem_set member with old | rfl
                · exact buffers f old
                -- The buffer keeps its size, whatever is copied into it.
                · rw [← buffer]
                  refine length_memcpyAt ?_
                  rw [length_bytesAt]
                  omega

/-- The transmitter is given whole words of the buffers. -/
private theorem TxRing.inside_transmit (tfcnt passes : Nat) {p : TxPort} {free queued : List IoFrame}
    {ps : List Piece} (h : TxRing mem p free queued) (carried : List.Forall₂ (Carries mem) queued ps)
    (s : Filling) : ∀ a ∈ transmitAccesses mem tfcnt passes p s, a.Inside := by
  induction passes generalizing p free queued ps s with
  | zero => simp [transmitAccesses]
  | succ passes ih =>
    intro a member
    rcases List.mem_cons.mp member with rfl | later
    · refine inside_element ?_
      rw [h.size, h.fifo]
      exact Ring.slot_lt mem.txNum_pos
    · split at later
      next => cases later
      next going =>
        cases carried with
        | nil => simp [fillStops, h.fifoFrame_empty] at going
        | cons first rest =>
          rcases List.mem_cons.mp later with rfl | later
          · -- Data that fits a buffer of whole words does so when it is rounded up.
            have buffer := first.buffer
            have count := first.dataCount
            have le := first.le
            have words := mem.txSize_words
            rw [h.fifoFrame_eq]
            simp only [Access.Inside, roundUp]
            omega
          · exact ih h.retire rest _ a later

/-! ### Every call -/

/-- The two rings of a port. -/
structure Rings where
  rx : RxPort
  tx : TxPort
deriving DecidableEq, Repr

/-- What is done to the rings, the device in any state: a call to the receive ring, the scans of
`fscc_poll`, a write, the transmit tasklet, or a purge of the transmit side. -/
inductive RingsCall (δ : Type) where
  | receive (e : RingCall δ)
  | poll
  | write (alloc : Bool) (unmovedBytes : Nat) (buf : List UInt8) (d : δ)
  | transmit (d : δ)
  | purgeTx (d : δ)

variable (mem) (cfg : PortConfig)

/-- A port in FIFO mode. A write has the length that `fscc_write` lets through. -/
def ringsMachine : Machine Rings (RingsCall δ) where
  init s := cfg.isDma = false ∧ Fresh mem s.rx ∧ FreshTx mem s.tx
  step s
    | .receive e => ((ringCalls dev mem cfg).step s.rx e).map fun rx => { s with rx := rx }
    | .poll => some s
    | .write alloc unmovedBytes buf d =>
      if 0 < buf.length ∧ buf.length ≤ mem.txNum * mem.txSize then
        some { s with tx := (userWriteFrame dev cfg mem alloc unmovedBytes buf s.tx d).2.1 }
      else none
    | .transmit d => some { s with tx := (oframeWorker dev cfg mem s.tx d).1 }
    | .purgeTx d => some { s with tx := (ioPurgeTx dev cfg s.tx d).1 }

/-- Whether a descriptor ends the scan of `fscc_user_next_read_size`. -/
def IoFrame.endsScan (f : IoFrame) : Bool := f.isOpen || f.isFinal

/-- What a call touches. -/
def Rings.accesses (s : Rings) : RingsCall δ → List Access
  | .receive (.drain d) => drainAccesses dev mem mem.rxNum s.rx d
  | .receive (.readFrame _ _ alloc _ _) =>
    if alloc then
      scanAccesses IoFrame.endsScan mem.rxNum s.rx.rxDescriptors mem.rxNum s.rx.userRxDesc
    else []
  | .receive (.readStream bufLength alloc _) =>
    if alloc then streamAccesses mem bufLength.toNat mem.rxNum s.rx 0 else []
  | .receive (.purge _) => purgeAccesses mem.rxNum s.rx.rxDescriptors
  | .poll =>
    scanAccesses IoFrame.endsScan mem.rxNum s.rx.rxDescriptors mem.rxNum s.rx.userRxDesc ++
      scanAccesses (fun f => !f.cstop) mem.txNum s.tx.txDescriptors mem.txNum s.tx.userTxDesc
  | .write alloc unmovedBytes buf _ =>
    if alloc then
      writeAccesses mem buf.length (copyFromUser buf unmovedBytes) mem.txNum true s.tx 0
    else []
  | .transmit d =>
    let tfcnt := ioGetTFCNT dev d
    let fifoSpace := fifoSpaceFor (ioGetTXCNT dev tfcnt.2).1
    if 254 < tfcnt.1 ∨ txFifoSize < fifoSpace then []
    else transmitAccesses mem tfcnt.1 mem.txNum s.tx ⟨fifoSpace, 0, false⟩
  | .purgeTx _ => purgeAccesses mem.txNum s.tx.txDescriptors

/-- The receive ring holds pieces, the transmit ring pieces of frames. -/
structure Rings.Inv (s : Rings) : Prop where
  rx : ∃ finished free, Pieces mem s.rx finished free
  tx : ∃ (free queued : List IoFrame) (ps : List Piece),
    TxRing mem s.tx free queued ∧ List.Forall₂ (Carries mem) queued ps

variable {mem}

/-- Any call to the receive ring leaves a ring of pieces. -/
private theorem Pieces.ringCall {p q : RxPort} {finished free : List IoFrame}
    (h : Pieces mem p finished free)
    {e : RingCall δ} (stepped : (ringCalls dev mem cfg).step p e = some q) :
    ∃ finished' free', Pieces mem q finished' free' := by
  cases e with
  | drain d =>
    obtain rfl := Option.some.inj stepped
    refine fifoReadData_kept dev mem (P := fun p => ∃ finished free, Pieces mem p finished free) ?_ d
      ⟨finished, free, h⟩
    rintro p d ⟨finished, free, h⟩ opened
    -- A drain works on a free descriptor.
    cases free with
    | nil =>
      rw [h.ring.fifoFrame_full] at opened
      cases opened
    | cons f rest =>
      rcases h.pass dev d with ⟨g, kept, -⟩ | ⟨g, kept, -⟩
      · exact ⟨_, _, kept⟩
      · exact ⟨_, _, kept⟩
  | readFrame settings bufLength alloc unmovedBytes d =>
    obtain rfl := Option.some.inj stepped
    obtain ⟨gone, kept, rfl, ring, -⟩ :=
      h.ring.userReadFrame_any dev settings bufLength alloc unmovedBytes d
    exact ⟨kept, _, ring, fun f member => h.inside f (List.mem_append_right _ member)⟩
  | readStream bufLength alloc unmovedBytes =>
    obtain rfl := Option.some.inj stepped
    cases alloc with
    | false => exact ⟨finished, free, h⟩
    | true =>
      obtain ⟨⟨finished', free', left⟩, -⟩ := h.read bufLength.isLt unmovedBytes
      exact ⟨finished', free', left.pieces⟩
  -- A purge leaves a fresh ring.
  | purge d =>
    obtain rfl := Option.some.inj stepped
    exact ⟨[], _, rxRing_reset mem h.ring.size h.ring.buffers_mem, List.forall_mem_nil _⟩

namespace Rings.Inv

variable {s t : Rings}

private theorem initial (init : (ringsMachine dev mem cfg).init s) : s.Inv mem := by
  obtain ⟨-, ⟨p, fresh, size, buffers⟩, freshTx⟩ := init
  obtain ⟨free, ring⟩ := freshTx.txRing
  refine ⟨?_, free, [], [], ring, .nil⟩
  rw [fresh]
  exact ⟨[], _, rxRing_reset mem size buffers, List.forall_mem_nil _⟩

private theorem step (h : s.Inv mem) {e : RingsCall δ}
    (stepped : (ringsMachine dev mem cfg).step s e = some t) : t.Inv mem := by
  obtain ⟨⟨finished, unfilled, pieces⟩, free, queued, ps, ring, carried⟩ := h
  cases e with
  | receive e =>
    obtain ⟨rx, received, rfl⟩ := Option.map_eq_some_iff.mp stepped
    exact ⟨pieces.ringCall dev cfg received, free, queued, ps, ring, carried⟩
  | poll =>
    obtain rfl := Option.some.inj stepped
    exact ⟨⟨finished, unfilled, pieces⟩, free, queued, ps, ring, carried⟩
  | write alloc unmovedBytes buf d =>
    obtain ⟨⟨pos, fits⟩, eq⟩ := Option.ite_none_right_eq_some.mp stepped
    obtain rfl := Option.some.inj eq
    obtain ⟨free', queued', ps', -, ring', carried'⟩ :=
      ring.userWriteFrame dev cfg carried alloc unmovedBytes pos fits d
    exact ⟨⟨finished, unfilled, pieces⟩, free', queued', ps', ring', carried'⟩
  | transmit d =>
    obtain rfl := Option.some.inj stepped
    obtain ⟨done, rest, ps', -, -, ring', carried'⟩ := ring.oframeWorker dev carried cfg d
    exact ⟨⟨finished, unfilled, pieces⟩, _, rest, ps', ring', carried'⟩
  | purgeTx d =>
    obtain rfl := Option.some.inj stepped
    exact ⟨⟨finished, unfilled, pieces⟩, _, [], [], txRing_reset mem ring.size ring.buffers_mem, .nil⟩

/-- A call to a ring that is one stays inside. -/
private theorem inside (h : s.Inv mem) {e : RingsCall δ}
    (stepped : (ringsMachine dev mem cfg).step s e = some t) :
    ∀ a ∈ s.accesses dev mem e, a.Inside := by
  obtain ⟨⟨finished, unfilled, pieces⟩, free, queued, ps, ring, carried⟩ := h
  have scan (stops : IoFrame → Bool) := inside_scan stops pieces.ring.size mem.rxNum pieces.ring.user_lt
  have nothing : ∀ a ∈ ([] : List Access), a.Inside := List.forall_mem_nil _
  cases e with
  | receive e =>
    cases e with
    | drain d => exact pieces.inside_drain dev mem.rxNum d
    | readFrame settings bufLength alloc unmovedBytes d =>
      cases alloc with
      | false => exact nothing
      | true => exact scan IoFrame.endsScan
    | readStream bufLength alloc unmovedBytes =>
      have held := pieces.length_data_lt
      cases alloc with
      | false => exact nothing
      | true => exact pieces.inside_stream bufLength.isLt mem.rxNum (Nat.zero_le _) (by omega)
    | purge d => exact inside_purge pieces.ring.size
  | poll =>
    intro a member
    rcases List.mem_append.mp member with read | space
    · exact scan IoFrame.endsScan a read
    · exact inside_scan _ ring.size mem.txNum ring.user_lt a space
  | write alloc unmovedBytes buf d =>
    obtain ⟨⟨-, fits⟩, -⟩ := Option.ite_none_right_eq_some.mp stepped
    cases alloc with
    | false => exact nothing
    | true =>
      have same := length_copyFromUser buf unmovedBytes
      rw [← same] at fits
      simp only [Rings.accesses, if_true]
      rw [← same]
      exact inside_write fits mem.txNum true ring.size ring.user_lt ring.buffers_mem (Nat.zero_le _)
  | transmit d =>
    simp only [Rings.accesses]
    split
    next => exact nothing
    next => exact ring.inside_transmit _ mem.txNum carried _
  | purgeTx d => exact inside_purge ring.size

end Rings.Inv

/-- In every reachable state every call stays inside the descriptor arrays, the buffers and the
caller's memory, whatever the device says: drains, reads of the stream, scans, writes of any length
that `fscc_write` lets through, transmissions and purges, with reads of frames among them. -/
theorem accesses_inside {s t : Rings} (reached : (ringsMachine dev mem cfg).Reached s)
    {e : RingsCall δ} (possible : (ringsMachine dev mem cfg).step s e = some t) :
    ∀ a ∈ s.accesses dev mem e, a.Inside :=
  (reached.invariant (P := Rings.Inv mem) (fun _ => .initial dev cfg)
    fun _ _ _ h stepped => h.step dev cfg stepped).inside dev cfg possible

/-- A port just made. -/
def newRings : Rings := ⟨freshRx .small [4096, 8192], freshTx .small [12288, 16384]⟩

/-- A frame of five bytes is queued, and eight bytes are received. -/
def ringsFilled : List (RingsCall (BitVec 32)) :=
  [.write true 0 [1, 2, 3, 4, 5] 0#32, .receive (.drain 8#32)]

/-- The rest of the frame, a byte, is given to the FIFO as a word of its buffer. -/
theorem accesses_inside_filled :
    ∃ s t, (ringsMachine constant .small fifoConfig).replay newRings ringsFilled = some s ∧
      (ringsMachine constant .small fifoConfig).step s (.transmit 0#32) = some t ∧
      s.accesses constant .small (.transmit 0#32) =
        [⟨0, 1, 2⟩, ⟨0, 4, 4⟩, ⟨1, 1, 2⟩, ⟨0, 4, 4⟩] ∧
      ∀ a ∈ s.accesses constant .small (.transmit 0#32), a.Inside := by
  have init : (ringsMachine constant .small fifoConfig).init newRings :=
    ⟨rfl, fresh_freshRx .small rfl, fresh_freshTx .small rfl⟩
  exact ⟨_, _, rfl, rfl, by decide, accesses_inside constant fifoConfig
    (.replay (.init init) ringsFilled rfl) (e := .transmit 0#32) rfl⟩

end Fscc
