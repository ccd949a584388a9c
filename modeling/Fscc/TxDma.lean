import Fscc.Dma
import Fscc.Lib.Machine
import Fscc.TxFrames

/-!
# Transmission by DMA

The transmit DMA engine beside `fscc_user_write_frame`, which hands over the descriptors of a
frame one by one while the engine may run, and looks only afterwards whether it does.
-/

namespace Fscc

/-! ### The engine -/

/-- The transmit DMA engine: DTDB, whether it runs, and the address of its descriptor. -/
structure TxEngine where
  dtdb : BitVec 32
  running : Bool
  current : BitVec 32
deriving DecidableEq, Repr

/-- What a store to the card does to the engine. RST_T and STOP_T stop it; GO_T has it start at
DTDB. -/
def TxEngine.store (e : TxEngine) : BusWrite → TxEngine
  | .register 2 offset value =>
    if offset = dtdbOffset then { e with dtdb := value }
    else if offset ≠ dmaccrOffset then e
    else if value &&& 0x220#32 ≠ 0#32 then { e with running := false }
    else if value &&& 0x2#32 ≠ 0#32 then { e with running := true, current := e.dtdb }
    else e
  | _ => e

/-- The engine as `DSTAR` shows it: the stop bits of the transmit channels. -/
def txStatus : Device TxEngine where
  getRegister offset e :=
    (if offset = bar2 + dstarOffset ∧ e.running = false then 0xa#32 else 0#32, e)
  readFifo e := (⟨0, 0, 0, 0⟩, e)
  ktime e := (.clear, e)

/-- A descriptor that the engine has sent. -/
def sentByDma (f : IoFrame) : IoFrame := f.setControl (f.desc.control ||| descCstopBit)

/-- What the engine sends of a descriptor. -/
def dmaData (f : IoFrame) : List UInt8 := bytesAt f.buffer f.desc.dataCount

/-! ### `fscc_user_write_frame` in steps -/

variable (mem : Memory) (cfg : PortConfig)

/-- A descriptor with its buffer and `data_count` written. -/
def filledFrame (tempData : List UInt8) (outLength : Nat) (f : IoFrame) : IoFrame :=
  let length := transmitLength mem tempData.length outLength
  (f.setBuffer (memcpyAt f.buffer 0 (bytesAt (tempData.drop outLength) length))).setDataCount length

@[simp] theorem cstop_filledFrame (tempData : List UInt8) (outLength : Nat) (f : IoFrame) :
    (filledFrame mem tempData outLength f).cstop = f.cstop :=
  IoFrame.cstop_filled f _ _

@[simp] theorem place_filledFrame (tempData : List UInt8) (outLength : Nat) (f : IoFrame) :
    (filledFrame mem tempData outLength f).place = f.place :=
  IoFrame.place_filled f _ _

/-- The control word that hands a descriptor over, `first` when `i == 0`. -/
def handedControl (tempData : List UInt8) (first : Bool) (outLength : Nat) : BitVec 32 :=
  if first then descHiBit ||| descFeBit ||| BitVec.ofNat 32 tempData.length
  else descHiBit ||| BitVec.ofNat 32 (transmitLength mem tempData.length outLength)

private theorem writeDescriptor_eq (tempData : List UInt8) (first : Bool) (outLength : Nat)
    (f : IoFrame) :
    writeDescriptor mem tempData first outLength f =
      (filledFrame mem tempData outLength f).setControl
        (handedControl mem tempData first outLength) :=
  rfl

/-- Where a write is: before it fills the `i`th descriptor of its frame, before it writes that
descriptor's control word, or before it looks at `DSTAR`. -/
inductive FrameWrite where
  | idle
  | fill (tempData : List UInt8) (i outLength : Nat) (startDesc : BitVec 32)
  | hand (tempData : List UInt8) (i outLength : Nat) (startDesc : BitVec 32)
  | check (startDesc : BitVec 32)
deriving DecidableEq, Repr

/-- A port and its engine, the bytes the engine has sent, and the frames written. -/
structure DmaTx where
  port : TxPort
  call : FrameWrite
  engine : TxEngine
  sent : List UInt8
  written : List (List UInt8)

/-- A write begins after its space check, `frame` being its `temp_data`; the write takes a step;
or the engine does. -/
inductive DmaTxEvent where
  | write (frame : List UInt8)
  | call
  | engine

/-- A port as `fscc_port_new` leaves it, at the end of `fscc_io_purge_tx`. -/
def DmaTx.New {δ : Type} (dev : Device δ) (s : DmaTx) : Prop :=
  ∃ (q : TxPort) (d : δ) (e : TxEngine), Linked q.txDescriptors ∧
    q.txDescriptors.length = mem.txNum ∧ (∀ f ∈ q.txDescriptors, f.buffer.length = mem.txSize) ∧
    s.port = (ioPurgeTx dev cfg q d).1 ∧
    s.engine = (ioPurgeTx dev cfg q d).2.1.foldl TxEngine.store e

/-- The step of the write. -/
def DmaTx.write (s : DmaTx) : Option DmaTx :=
  match s.call with
  | .idle => none
  | .fill tempData i outLength startDesc =>
    -- The loop ends with the ring, or at a descriptor that is not free.
    if i = mem.txNum ∨ s.port.userFrame.cstop = false then
      some { s with call := .check startDesc }
    else
      some { s with
        port := { s.port with
          txDescriptors := s.port.txDescriptors.set s.port.userTxDesc
            (filledFrame mem tempData outLength s.port.userFrame) }
        call := .hand tempData i outLength
          (if startDesc = 0#32 then s.port.userFrame.descPhysicalAddress else startDesc) }
  | .hand tempData i outLength startDesc =>
    let next := outLength + transmitLength mem tempData.length outLength
    some { s with
      port := s.port.putUser mem
        (s.port.userFrame.setControl (handedControl mem tempData (i == 0) outLength))
      call := if next = tempData.length then .check startDesc
        else .fill tempData (i + 1) next startDesc }
  | .check startDesc =>
    some { s with
      call := .idle
      engine := (startTransmit txStatus cfg startDesc s.engine).1.foldl TxEngine.store s.engine }

/-- The transmit side of a port that does DMA. -/
def dmaTxMachine {δ : Type} (dev : Device δ) : Machine DmaTx DmaTxEvent where
  init s := cfg.isDma = true ∧ s.New mem cfg dev ∧ s.call = .idle ∧ s.sent = [] ∧ s.written = []
  step s
    | .write frame =>
      if s.call = .idle ∧ 0 < frame.length ∧ frame.length ≤ userGetTxSpace mem s.port then
        some { s with call := .fill frame 0 0 0#32, written := s.written ++ [frame] }
      else none
    | .call => s.write mem cfg
    | .engine =>
      if s.engine.running then
        (descAt s.port.txDescriptors s.engine.current).map fun f =>
          if f.cstop then { s with engine := { s.engine with running := false } }
          else { s with
            port := { s.port with
              txDescriptors := s.port.txDescriptors.set
                (indexAt s.port.txDescriptors s.engine.current) (sentByDma f) }
            engine := { s.engine with current := f.desc.nextDescriptor }
            sent := s.sent ++ dmaData f }
      else none

namespace DmaTx

variable (s : DmaTx)

/-- Every descriptor is free. -/
def AllSent : Prop := ∀ f ∈ s.port.txDescriptors, f.cstop = true

/-- The engine stands at a descriptor that is free. -/
def AtFree : Prop :=
  ∀ f ∈ descAt s.port.txDescriptors s.engine.current, f.cstop = true

/-- The frames go out in order, and none is left when the engine stands still. -/
def Whole : Prop :=
  s.sent <+: s.written.flatten ∧
    (s.engine.running = false → s.call = .idle → s.AllSent ∧ s.sent = s.written.flatten)

end DmaTx

/-- The engine keeps clear of the write. It does not come to a stop when some of a frame, but
not all of it, has been handed over, unless the first descriptor of that frame is still to be
sent; a write that finds it running finds it at a descriptor still to be sent, if there is one;
and no write hands over the descriptor at which it stands while another is to be sent. -/
def KeepsClear (s : DmaTx) : DmaTxEvent → Prop
  | .engine =>
    match s.call with
    | .fill _ i _ startDesc | .hand _ i _ startDesc =>
      0 < i → s.AtFree → ∀ f ∈ descAt s.port.txDescriptors startDesc, f.cstop = false
    | _ => True
  | .call =>
    match s.call with
    | .hand _ _ _ _ => s.engine.running = true →
        s.engine.current = s.port.userFrame.descPhysicalAddress → s.AllSent
    | .check _ => s.engine.running = true → s.AtFree → s.AllSent
    | _ => True
  | .write _ => True

/-! ### The ring -/

/-- The transmit ring of a port that does DMA: from `user_tx_desc` on, the descriptors that are
free and those still to be sent. -/
structure DmaRing (p : TxPort) (free queued : List IoFrame) : Prop where
  size : p.txDescriptors.length = mem.txNum
  user_lt : p.userTxDesc < mem.txNum
  view : Ring.view p.txDescriptors p.userTxDesc = free ++ queued
  buffers : ∀ f ∈ free ++ queued, f.buffer.length = mem.txSize
  free_cstop : ∀ f ∈ free, f.cstop = true
  queued_open : ∀ f ∈ queued, f.cstop = false
  linked : Linked p.txDescriptors

variable {mem cfg}

namespace DmaRing

variable {p : TxPort} {free queued rest : List IoFrame} {f g : IoFrame}

private theorem length_add (h : DmaRing mem p free queued) :
    free.length + queued.length = mem.txNum := by
  rw [← h.size, ← Ring.length_view p.txDescriptors p.userTxDesc, h.view, List.length_append]

private theorem mem_iff (h : DmaRing mem p free queued) :
    f ∈ p.txDescriptors ↔ f ∈ free ∨ f ∈ queued := by
  rw [← Ring.mem_view (i := p.userTxDesc), h.view, List.mem_append]

/-- The engine finds each descriptor at its address. -/
private theorem descAt (h : DmaRing mem p free queued) (member : f ∈ free ∨ f ∈ queued) :
    descAt p.txDescriptors f.descPhysicalAddress = some f :=
  h.linked.descAt_of_mem (h.mem_iff.mpr member)

private theorem userFrame_eq (h : DmaRing mem p (f :: free) queued) : p.userFrame = f :=
  Ring.getD_head f default (by rw [h.size]; exact h.user_lt) h.view

private theorem user_found (h : DmaRing mem p (f :: free) queued) :
    p.txDescriptors[p.userTxDesc]? = some f := by
  have inside : p.userTxDesc < p.txDescriptors.length := by rw [h.size]; exact h.user_lt
  have read := Ring.getElem?_view (l := p.txDescriptors) (i := p.userTxDesc) (k := 0) (by omega)
  rw [Ring.slot_zero inside, h.view] at read
  exact read.symm

/-- The space that a writer finds is that of the free descriptors. -/
private theorem userGetTxSpace (h : DmaRing mem p free queued) :
    userGetTxSpace mem p = free.length * mem.txSize :=
  userGetTxSpace_free mem h.size h.user_lt h.view h.free_cstop h.queued_open

/-- All is sent when nothing is queued. -/
private theorem allSent_iff (h : DmaRing mem p free queued) :
    (∀ f ∈ p.txDescriptors, f.cstop = true) ↔ queued = [] := by
  constructor
  · intro all
    cases queued with
    | nil => rfl
    | cons q qs =>
      have := all q (h.mem_iff.mpr (.inr (.head _)))
      rw [h.queued_open q (.head _)] at this
      cases this
  · rintro rfl f member
    exact h.free_cstop f ((h.mem_iff.mp member).resolve_right List.not_mem_nil)

/-- A writer fills the first free descriptor and leaves it free. -/
private theorem fill (h : DmaRing mem p (f :: free) queued) (place : g.place = f.place)
    (cstop : g.cstop = true) (buffer : g.buffer.length = mem.txSize) :
    DmaRing mem { p with txDescriptors := p.txDescriptors.set p.userTxDesc g } (g :: free)
      queued := by
  have inside : p.userTxDesc < p.txDescriptors.length := by rw [h.size]; exact h.user_lt
  have shape : Ring.view p.txDescriptors p.userTxDesc = [] ++ f :: (free ++ queued) := h.view
  have set := Ring.view_set_append g f shape
  rw [List.length_nil, Ring.slot_zero inside] at set
  exact {
    size := by rw [List.length_set, h.size]
    user_lt := h.user_lt
    view := set
    buffers := by
      intro x member
      rcases List.mem_cons.mp member with rfl | member
      · exact buffer
      · exact h.buffers x (.tail _ member)
    free_cstop := by
      intro x member
      rcases List.mem_cons.mp member with rfl | member
      · exact cstop
      · exact h.free_cstop x (.tail _ member)
    queued_open := h.queued_open
    linked := h.linked.set h.user_found place }

/-- A writer hands over the first free descriptor. -/
private theorem hand (h : DmaRing mem p (f :: free) queued) (place : g.place = f.place)
    (opened : g.cstop = false) (buffer : g.buffer.length = mem.txSize) :
    DmaRing mem (p.putUser mem g) free (queued ++ [g]) where
  size := by rw [TxPort.putUser, List.length_set, h.size]
  user_lt := Ring.next_lt h.user_lt
  view := by
    rw [← List.append_assoc]
    exact view_putUser h.size h.user_lt g h.view
  buffers := by
    intro x member
    simp only [List.mem_append, List.mem_singleton] at member
    rcases member with member | member | rfl
    · exact h.buffers x (by simp [member])
    · exact h.buffers x (by simp [member])
    · exact buffer
  free_cstop := fun x member => h.free_cstop x (.tail _ member)
  queued_open := by
    intro x member
    rcases List.mem_append.mp member with old | new
    · exact h.queued_open x old
    · rw [List.mem_singleton.mp new, opened]
  linked := h.linked.set h.user_found place

/-- The engine sends the first queued descriptor and follows its link. -/
private theorem send (h : DmaRing mem p free (f :: rest)) :
    DmaRing mem
      { p with
        txDescriptors := p.txDescriptors.set
          (indexAt p.txDescriptors f.descPhysicalAddress) (sentByDma f) }
      (free ++ [sentByDma f]) rest ∧
    ((rest ++ (free ++ [sentByDma f])).head?.map IoFrame.descPhysicalAddress) =
      some f.desc.nextDescriptor := by
  have size : free.length < p.txDescriptors.length := by
    rw [← Ring.length_view p.txDescriptors p.userTxDesc, h.view]
    simp
  have found : p.txDescriptors[Ring.slot p.txDescriptors.length p.userTxDesc free.length]? =
      some f := by
    rw [← Ring.getElem?_view size, h.view]
    simp
  have index := h.linked.indexAt_of_getElem? found
  have set := Ring.view_set_append (sentByDma f) f h.view
  constructor
  · exact {
      size := by rw [List.length_set, h.size]
      user_lt := h.user_lt
      view := by
        rw [index, List.append_assoc]
        exact set
      buffers := by
        intro x member
        simp only [List.mem_append, List.mem_singleton] at member
        rcases member with (member | rfl) | member
        · exact h.buffers x (by simp [member])
        · exact h.buffers f (by simp)
        · exact h.buffers x (by simp [member])
      free_cstop := by
        intro x member
        rcases List.mem_append.mp member with old | new
        · exact h.free_cstop x old
        · simp [List.mem_singleton.mp new, sentByDma]
      queued_open := fun x member => h.queued_open x (.tail _ member)
      linked := by
        rw [index]
        exact h.linked.set found rfl }
  · have next := h.linked.next_view h.view
    rw [← List.append_assoc]
    cases hr : rest ++ free with
    | nil => simpa [hr, sentByDma, IoFrame.setControl] using next
    | cons x xs => simpa [hr] using next

end DmaRing

/-! ### The invariant -/

/-- What a write has still to hand over of its frame. -/
def FrameWrite.remaining : FrameWrite → List UInt8
  | .fill tempData _ outLength _ | .hand tempData _ outLength _ => tempData.drop outLength
  | _ => []

variable (mem) in
/-- A write in its loop has handed over `i` whole descriptors, `start_desc` the first of them, and
there is room for the rest of its frame. -/
structure Handing (tempData : List UInt8) (i outLength : Nat) (startDesc : BitVec 32)
    (free queued : List IoFrame) : Prop where
  out : outLength = i * mem.txSize
  more : outLength < tempData.length
  fits : tempData.length ≤ mem.txNum * mem.txSize
  room : tempData.length - outLength ≤ free.length * mem.txSize
  start : 0 < i →
    ((free ++ queued).map IoFrame.descPhysicalAddress)[mem.txNum - i]? = some startDesc

variable (mem) in
/-- What a write goes by. -/
def FrameWrite.Sound (free queued : List IoFrame) : FrameWrite → Prop
  | .idle => True
  | .fill tempData i outLength startDesc =>
    Handing mem tempData i outLength startDesc free queued ∧ (i = 0 → startDesc = 0#32)
  | .hand tempData i outLength startDesc =>
    Handing mem tempData i outLength startDesc free queued ∧
      ∃ f rest, free = filledFrame mem tempData outLength f :: rest ∧
        f.buffer.length = mem.txSize ∧ (i = 0 → startDesc = f.descPhysicalAddress)
  | .check startDesc => startDesc ∈ (free ++ queued).map IoFrame.descPhysicalAddress

/-- Nothing is left of earlier frames, and nothing of the write's own has been sent, or all. -/
def FrameWrite.Unsent (queued : List IoFrame) : FrameWrite → Prop
  | .idle => queued = []
  | .fill _ i _ _ | .hand _ i _ _ => queued.length = i
  | .check startDesc =>
    queued = [] ∨ (queued.head?.map IoFrame.descPhysicalAddress) = some startDesc

variable (mem) in
/-- The engine runs at the first descriptor to be sent, or, if there is none, at the next one to
be handed over; or it is stopped, or about to stop, and the write under way will have it start
at the right place. -/
structure DmaTx.Inv (s : DmaTx) (free queued : List IoFrame) : Prop where
  ring : DmaRing mem s.port free queued
  bytes : s.sent ++ queued.flatMap dmaData ++ s.call.remaining = s.written.flatten
  sound : s.call.Sound mem free queued
  position : s.engine.running = true ∧
      ((queued ++ free).head?.map IoFrame.descPhysicalAddress) = some s.engine.current ∨
    (s.engine.running = true → ∃ f ∈ free, f.descPhysicalAddress = s.engine.current) ∧
      s.call.Unsent queued

/-! ### Starting the engine -/

/-- A value with GO_T and no bit that stops. -/
private theorem store_go_t (e : TxEngine) {value : BitVec 32} (clear : value &&& 0x220#32 = 0#32)
    (go : value &&& 0x2#32 ≠ 0#32) :
    e.store (.register 2 dmaccrOffset value) = { e with running := true, current := e.dtdb } := by
  simp only [TxEngine.store]
  rw [if_neg (by decide), if_neg (by simp), if_neg (by simp [clear]), if_pos go]

private theorem dmaIsTxRunning_txStatus {e : TxEngine} :
    dmaIsTxRunning txStatus cfg e = (e.running, e) := by
  cases running : e.running with
  | false =>
    by_cases first : cfg.channel = 0 <;> simp [dmaIsTxRunning, dmaIsRunning, txStatus, running, first]
  | true => simp [dmaIsTxRunning, dmaIsRunning, txStatus, running]

/-- A transmit command that GO_T is part of starts the engine at DTDB. -/
private theorem store_transmit (e : TxEngine) {δ : Type} (dev : Device δ) (d : δ) :
    (issued (ioExecuteTransmit dev cfg true d).1).foldl TxEngine.store e =
      { e with running := true, current := e.dtdb } := by
  have cases_ : ∀ a b c : Bool, ∀ value, value = 0x00000002#32 |||
      (if a then 0x40000000#32 else 0#32) ||| (if b then 0x10000000#32 else 0#32) |||
        (if c then 0x20000000#32 else 0#32) →
      value &&& 0x220#32 = 0#32 ∧ value &&& 0x2#32 ≠ 0#32 := by
    rintro a b c value rfl
    cases a <;> cases b <;> cases c <;> decide
  have value := cases_ (decide (cfg.txModifiers &&& 1 ≠ 0)) (decide (cfg.txModifiers &&& 2 ≠ 0))
    (decide (cfg.txModifiers &&& 4 ≠ 0)) _ rfl
  simp only [decide_eq_true_eq] at value
  simp only [ioExecuteTransmit, if_true, modifierBit, portSetRegister, dmaccrOffset, cmdrOffset,
    Nat.reduceEqDiff, false_and, if_false, issued, List.foldl_cons, List.foldl_nil]
  exact store_go_t e value.1 value.2

section

variable {e : TxEngine} {startDesc : BitVec 32} (dma : cfg.isDma = true)
include dma

/-- An engine that runs is left alone. -/
private theorem startTransmit_running (running : e.running = true) :
    (startTransmit txStatus cfg startDesc e).1.foldl TxEngine.store e = e := by
  simp [startTransmit, dma, dmaIsTxRunning_txStatus, running]

/-- An engine that stands still is started. -/
private theorem startTransmit_stopped (halted : e.running = false) :
    (startTransmit txStatus cfg startDesc e).1.foldl TxEngine.store e =
      ⟨startDesc, true, startDesc⟩ := by
  simp only [startTransmit, dma, if_true, dmaIsTxRunning_txStatus, halted, Bool.false_eq_true,
    if_false, List.foldl_cons, store_transmit]
  simp [TxEngine.store, dtdbOffset]

end

private theorem take_append_drop_length_take {α : Type} (l : List α) (n : Nat) :
    l.take n ++ l.drop (l.take n).length = l := by
  rw [List.length_take]
  rcases Nat.le_total n l.length with le | le
  · rw [Nat.min_eq_left le, List.take_append_drop]
  · rw [Nat.min_eq_right le, List.take_of_length_le le, List.drop_length, List.append_nil]

/-- What a write goes by is not changed by the engine. -/
private theorem FrameWrite.Sound.sent {call : FrameWrite} {free rest : List IoFrame} {f : IoFrame}
    (h : call.Sound mem free (f :: rest)) : call.Sound mem (free ++ [sentByDma f]) rest := by
  -- A descriptor that was sent keeps its address.
  have addresses : ((free ++ [sentByDma f]) ++ rest).map IoFrame.descPhysicalAddress =
      (free ++ f :: rest).map IoFrame.descPhysicalAddress := by
    simp [sentByDma, IoFrame.setControl]
  -- It joins the free ones, so that the write has no less room than before.
  have filling {tempData : List UInt8} {i outLength : Nat} {startDesc : BitVec 32}
      (h : Handing mem tempData i outLength startDesc free (f :: rest)) :
      Handing mem tempData i outLength startDesc (free ++ [sentByDma f]) rest := by
    refine ⟨h.out, h.more, h.fits, ?_, by rw [addresses]; exact h.start⟩
    have := h.room
    rw [List.length_append, List.length_singleton, Nat.succ_mul]
    omega
  cases call with
  | idle => trivial
  | fill tempData i outLength startDesc => exact ⟨filling h.1, h.2⟩
  | hand tempData i outLength startDesc =>
    obtain ⟨h, g, gs, rfl, buffer, start⟩ := h
    exact ⟨filling h, g, _, rfl, buffer, start⟩
  | check startDesc =>
    change startDesc ∈ _
    rw [addresses]
    exact h

namespace Handing

variable {tempData : List UInt8} {i outLength : Nat} {startDesc : BitVec 32} {g w : IoFrame}
  {rest queued : List IoFrame} (h : Handing mem tempData i outLength startDesc (g :: rest) queued)
include h

/-- Each turn has handed over a whole descriptor and data is left, so that a turn is left too. -/
private theorem turns : i < mem.txNum := by
  have more := h.more
  rw [h.out] at more
  exact Nat.lt_of_mul_lt_mul_right (more.trans_le h.fits)

/-- The addresses from `user_tx_desc` on are those from before, moved on by one. -/
private theorem moved (sum : (g :: rest).length + queued.length = mem.txNum)
    (first : i = 0 → startDesc = w.descPhysicalAddress) :
    ((rest ++ (queued ++ [w])).map IoFrame.descPhysicalAddress)[mem.txNum - (i + 1)]? =
      some startDesc := by
  have inside := h.turns
  rw [List.length_cons] at sum
  rcases Nat.eq_zero_or_pos i with rfl | later
  · have last : mem.txNum - (0 + 1) = (rest ++ queued).length := by
      rw [List.length_append]
      omega
    rw [← List.append_assoc, last, List.map_append, List.getElem?_append_right (by simp)]
    simp [first rfl]
  · have old := h.start later
    rw [show mem.txNum - i = mem.txNum - (i + 1) + 1 by omega, List.cons_append, List.map_cons,
      List.getElem?_cons_succ] at old
    rw [← List.append_assoc, List.map_append, List.getElem?_append_left, old]
    rw [List.length_map, List.length_append]
    omega

/-- As data is left, the descriptor handed over was filled to its end. -/
private theorem next
    (unfinished : outLength + transmitLength mem tempData.length outLength ≠ tempData.length)
    (moved : ((rest ++ (queued ++ [w])).map IoFrame.descPhysicalAddress)[mem.txNum - (i + 1)]? =
      some startDesc) :
    Handing mem tempData (i + 1) (outLength + transmitLength mem tempData.length outLength) startDesc
      rest (queued ++ [w]) := by
  have more := h.more
  have length := transmitLength_eq h.fits more.le
  have room := h.room
  have whole : transmitLength mem tempData.length outLength = mem.txSize := by
    rw [length, List.length_take, List.length_drop] at unfinished ⊢
    omega
  rw [whole] at unfinished ⊢
  rw [List.length_cons, Nat.succ_mul] at room
  refine ⟨?_, ?_, h.fits, ?_, fun _ => moved⟩
  · rw [h.out, Nat.succ_mul]
  · rw [length, List.length_take, List.length_drop] at whole
    omega
  · omega

end Handing

/-- Where the engine stands, once the descriptor before it has been handed over: at the first to be
sent, or else, if it runs, at one that is free. -/
private theorem DmaRing.position_hand {s : DmaTx} {g w : IoFrame} {rest queued : List IoFrame} {i : Nat}
    (ring : DmaRing mem s.port (g :: rest) queued) (seated : w.descPhysicalAddress = g.descPhysicalAddress)
    (clear : s.engine.running = true → s.engine.current = g.descPhysicalAddress → s.AllSent)
    (position : s.engine.running = true ∧
        ((queued ++ g :: rest).head?.map IoFrame.descPhysicalAddress) = some s.engine.current ∨
      (s.engine.running = true → ∃ f ∈ g :: rest, f.descPhysicalAddress = s.engine.current) ∧
        queued.length = i) :
    s.engine.running = true ∧
        (((queued ++ [w]) ++ rest).head?.map IoFrame.descPhysicalAddress) = some s.engine.current ∨
      (s.engine.running = true → ∃ f ∈ rest, f.descPhysicalAddress = s.engine.current) ∧
        (queued ++ [w]).length = i + 1 := by
  rcases position with ⟨running, sync⟩ | ⟨at_, unsent⟩
  · refine .inl ⟨running, ?_⟩
    rw [← sync]
    cases queued <;> simp [seated]
  · have count : (queued ++ [w]).length = i + 1 := by
      rw [List.length_append, List.length_singleton, unsent]
    cases running : s.engine.running with
    | false => exact .inr ⟨nofun, count⟩
    | true =>
      obtain ⟨x, member, here⟩ := at_ running
      rcases List.mem_cons.mp member with rfl | member
      · -- The engine stands at the descriptor handed over, and it is the only one.
        have none_ := ring.allSent_iff.mp (clear running here.symm)
        subst none_
        exact .inl ⟨rfl, by simpa [seated] using here⟩
      · exact .inr ⟨fun _ => ⟨x, member, here⟩, count⟩

namespace DmaTx.Inv

variable {s : DmaTx} {free queued : List IoFrame}

/-- A write begins. -/
private theorem begin (h : s.Inv mem free queued) {frame : List UInt8} (idle : s.call = .idle)
    (pos : 0 < frame.length) (space : frame.length ≤ userGetTxSpace mem s.port) :
    DmaTx.Inv mem { s with call := .fill frame 0 0 0#32, written := s.written ++ [frame] }
      free queued := by
  rw [h.ring.userGetTxSpace] at space
  have bytes := h.bytes
  have position := h.position
  have sum := h.ring.length_add
  rw [idle] at bytes position
  refine ⟨h.ring, ?_, ⟨⟨by simp, pos, ?_, by simpa using space, nofun⟩, fun _ => rfl⟩, ?_⟩
  · simp only [FrameWrite.remaining, List.append_nil, List.drop_zero] at bytes ⊢
    rw [bytes]
    simp
  -- The frame fits the whole ring, so that the turns of the loop suffice.
  · exact space.trans (Nat.mul_le_mul_right _ (by omega))
  · rcases position with sync | ⟨at_, none_⟩
    · exact .inl sync
    · exact .inr ⟨at_, congrArg List.length (show queued = [] from none_)⟩

/-- A write fills a descriptor. -/
private theorem fill (h : s.Inv mem free queued) {tempData : List UInt8} {i outLength : Nat}
    {startDesc : BitVec 32} (call : s.call = .fill tempData i outLength startDesc) {t : DmaTx}
    (stepped : s.write mem cfg = some t) : ∃ free', t.Inv mem free' queued := by
  have sound := h.sound
  have bytes := h.bytes
  have position := h.position
  rw [call] at sound bytes position
  obtain ⟨handing, first⟩ := sound
  obtain ⟨f, rest, rfl⟩ : ∃ f rest, free = f :: rest := by
    have more := handing.more
    have room := handing.room
    cases free with
    | nil => simp only [List.length_nil, Nat.zero_mul] at room; omega
    | cons f rest => exact ⟨f, rest, rfl⟩
  have turns := handing.turns
  obtain ⟨out, more, fits, room, start⟩ := handing
  have buffer := h.ring.buffers f (by simp)
  have carries := (writeDescriptor_carries fits more (i == 0) buffer).buffer
  rw [writeDescriptor_eq, IoFrame.buffer_setControl] at carries
  have go : ¬(i = mem.txNum ∨ f.cstop = false) := by
    rw [h.ring.free_cstop f (.head _)]
    simp only [Bool.true_eq_false, or_false]
    omega
  simp only [DmaTx.write, call, h.ring.userFrame_eq, if_neg go] at stepped
  obtain rfl := Option.some.inj stepped
  have place := place_filledFrame mem tempData outLength f
  have cstop := (cstop_filledFrame mem tempData outLength f).trans (h.ring.free_cstop f (.head _))
  generalize written : filledFrame mem tempData outLength f = g at carries place cstop ⊢
  have ring := h.ring.fill place cstop carries
  have address := IoFrame.address_of_place place
  -- The start of the frame is its first descriptor, and no address is zero.
  have same (later : 0 < i) : (if startDesc = 0#32 then f.descPhysicalAddress else startDesc) =
      startDesc := by
    obtain ⟨x, old, rfl⟩ := List.mem_map.mp (List.mem_of_getElem? (start later))
    exact if_neg (h.ring.linked.nonzero x (h.ring.mem_iff.mpr (List.mem_append.mp old)))
  refine ⟨g :: rest, ring, bytes, ⟨⟨out, more, fits, by simpa using room, fun later => ?_⟩, f, rest,
    by rw [written], buffer, fun none_ => ?_⟩, ?_⟩
  · rw [List.cons_append, List.map_cons, address, same later]
    exact start later
  · rw [first none_, if_pos rfl]
  -- The engine stands where it stood, since the descriptor keeps its place.
  · rcases position with ⟨running, sync⟩ | ⟨at_, unsent⟩
    · refine .inl ⟨running, ?_⟩
      rw [← sync]
      cases queued <;> simp [address]
    · refine .inr ⟨fun running => ?_, unsent⟩
      obtain ⟨x, member, here⟩ := at_ running
      rcases List.mem_cons.mp member with rfl | member
      · exact ⟨g, .head _, address.trans here⟩
      · exact ⟨x, .tail _ member, here⟩

/-- A write hands over a descriptor. -/
private theorem hand (h : s.Inv mem free queued) {tempData : List UInt8} {i outLength : Nat}
    {startDesc : BitVec 32} (call : s.call = .hand tempData i outLength startDesc)
    (clear : s.engine.running = true → s.engine.current = s.port.userFrame.descPhysicalAddress →
      s.AllSent) {t : DmaTx}
    (stepped : s.write mem cfg = some t) : ∃ free' queued', t.Inv mem free' queued' := by
  have sound := h.sound
  have bytes := h.bytes
  have position := h.position
  rw [call] at sound bytes position
  obtain ⟨handing, f, rest, rfl, buffer, first⟩ := sound
  have carries := writeDescriptor_carries handing.fits handing.more (i == 0) buffer
  have length := transmitLength_eq handing.fits handing.more.le
  rw [writeDescriptor_eq] at carries
  generalize written : (filledFrame mem tempData outLength f).setControl
    (handedControl mem tempData (i == 0) outLength) = w at carries
  have place : w.place = (filledFrame mem tempData outLength f).place := by
    rw [← written, IoFrame.place_setControl]
  have seated := IoFrame.address_of_place place
  have address := seated.trans
    (IoFrame.address_of_place (place_filledFrame mem tempData outLength f))
  have ring := h.ring.hand place carries.cstop carries.buffer
  have data : dmaData w = (tempData.drop outLength).take mem.txSize := by
    rw [dmaData, carries.dataCount, bytesAt_eq (by rw [carries.buffer]; exact carries.le),
      carries.data]
  simp only [DmaTx.write, call, h.ring.userFrame_eq, written] at stepped
  obtain rfl := Option.some.inj stepped
  rw [h.ring.userFrame_eq] at clear
  have moved := handing.moved h.ring.length_add fun start => (first start).trans address.symm
  have position := h.ring.position_hand seated clear position
  -- What is sent, queued and left is what was written, a descriptor's worth having changed sides.
  have nextBytes : s.sent ++ (queued ++ [w]).flatMap dmaData ++
      tempData.drop (outLength + transmitLength mem tempData.length outLength) =
        s.written.flatten := by
    rw [← bytes, List.flatMap_append, List.flatMap_singleton, data, length, ← List.drop_drop]
    simp only [FrameWrite.remaining, List.append_assoc, take_append_drop_length_take]
  have sum := h.ring.length_add
  refine ⟨rest, queued ++ [w], ring, ?_, ?_, ?_⟩
  · split
    next ended =>
      rw [ended, List.drop_length, List.append_nil] at nextBytes
      simpa [FrameWrite.remaining] using nextBytes
    next => exact nextBytes
  · split
    next => exact List.mem_of_getElem? moved
    next unfinished => exact ⟨handing.next unfinished moved, nofun⟩
  · split
    next =>
      rcases position with sync | ⟨at_, count⟩
      · exact .inl sync
      · refine .inr ⟨at_, .inr ?_⟩
        have here : mem.txNum - (i + 1) = (rest.map IoFrame.descPhysicalAddress).length := by
          rw [List.length_append, List.length_singleton] at count
          rw [List.length_cons] at sum
          rw [List.length_map]
          omega
        rw [here, List.map_append, List.getElem?_append_right (Nat.le_refl _), Nat.sub_self] at moved
        rw [← List.head?_map, List.head?_eq_getElem?]
        exact moved
    next => exact position

/-- A write looks at `DSTAR`, and starts an engine that stands still. -/
private theorem check (h : s.Inv mem free queued) (dma : cfg.isDma = true) {startDesc : BitVec 32}
    (call : s.call = .check startDesc)
    (clear : s.engine.running = true → s.AtFree → s.AllSent) {t : DmaTx}
    (stepped : s.write mem cfg = some t) : t.Inv mem free queued := by
  have sound := h.sound
  have bytes := h.bytes
  have position := h.position
  rw [call] at sound bytes position
  simp only [DmaTx.write, call] at stepped
  obtain rfl := Option.some.inj stepped
  refine ⟨h.ring, bytes, trivial, ?_⟩
  cases running : s.engine.running with
  | true =>
    -- The engine runs, and stands at a free descriptor only if all has been sent.
    rw [startTransmit_running dma running]
    rcases position with sync | ⟨at_, -⟩
    · exact .inl sync
    · refine .inr ⟨at_, h.ring.allSent_iff.mp (clear running fun f found => ?_)⟩
      obtain ⟨g, member, here⟩ := at_ running
      rw [← here, h.ring.descAt (.inl member)] at found
      obtain rfl := Option.some.inj found
      exact h.ring.free_cstop _ member
  -- The engine stands still and is started at the first descriptor of the frame.
  | false =>
    rw [startTransmit_stopped dma running]
    obtain ⟨-, none_ | head⟩ := position.resolve_left (by simp [running])
    · subst none_
      obtain ⟨g, member, here⟩ := List.mem_map.mp sound
      rw [List.append_nil] at member
      exact .inr ⟨fun _ => ⟨g, member, here⟩, rfl⟩
    · refine .inl ⟨rfl, ?_⟩
      rw [← head]
      cases queued with
      | nil => cases head
      | cons q qs => rfl

/-- The engine takes a step. -/
private theorem engine (h : s.Inv mem free queued) (running : s.engine.running = true)
    (clear : KeepsClear s .engine) {f : IoFrame}
    (found : descAt s.port.txDescriptors s.engine.current = some f) :
    ∃ free' queued', DmaTx.Inv mem
      (if f.cstop then { s with engine := { s.engine with running := false } }
      else { s with
        port := { s.port with
          txDescriptors := s.port.txDescriptors.set
            (indexAt s.port.txDescriptors s.engine.current) (sentByDma f) }
        engine := { s.engine with current := f.desc.nextDescriptor }
        sent := s.sent ++ dmaData f }) free' queued' := by
  have bytes := h.bytes
  have sound := h.sound
  rcases h.position with ⟨-, sync⟩ | ⟨at_, unsent⟩
  · cases queued with
    | nil =>
      obtain ⟨g, free', rfl⟩ : ∃ g free', free = g :: free' := by
        cases free with
        | nil => cases sync
        | cons g free' => exact ⟨g, free', rfl⟩
      have here : g.descPhysicalAddress = s.engine.current := by simpa using sync
      have cstop := h.ring.free_cstop g (.head _)
      have atFree : s.AtFree := by
        intro x found
        rw [← here, h.ring.descAt (.inl (.head _))] at found
        obtain rfl := Option.some.inj found
        exact cstop
      rw [← here, h.ring.descAt (.inl (.head _))] at found
      obtain rfl := Option.some.inj found
      rw [if_pos cstop]
      refine ⟨_, [], h.ring, bytes, sound, .inr ⟨nofun, ?_⟩⟩
      -- The engine comes to a stop: nothing of the frame may have been handed over.
      have first {i : Nat} {startDesc : BitVec 32}
          (start : 0 < i → (((g :: free') ++ ([] : List IoFrame)).map
            IoFrame.descPhysicalAddress)[mem.txNum - i]? = some startDesc)
          (clear : 0 < i → s.AtFree → ∀ f ∈ Fscc.descAt s.port.txDescriptors startDesc,
            f.cstop = false) : ([] : List IoFrame).length = i := by
        rcases Nat.eq_zero_or_pos i with none_ | later
        · exact none_.symm
        · obtain ⟨x, member, rfl⟩ := List.mem_map.mp (List.mem_of_getElem? (start later))
          rw [List.append_nil] at member
          have := clear later atFree x (h.ring.descAt (.inl member))
          rw [h.ring.free_cstop x member] at this
          cases this
      cases call : s.call with
      | idle => rfl
      | fill tempData i outLength startDesc =>
        simp only [KeepsClear, call] at clear
        rw [call] at sound
        exact first sound.1.start clear
      | hand tempData i outLength startDesc =>
        simp only [KeepsClear, call] at clear
        rw [call] at sound
        exact first sound.1.start clear
      | check startDesc => exact .inl rfl
    | cons q rest =>
      have here : q.descPhysicalAddress = s.engine.current := by simpa using sync
      rw [← here, h.ring.descAt (.inr (.head _))] at found
      obtain rfl := Option.some.inj found
      obtain ⟨ring, next⟩ := h.ring.send
      rw [h.ring.queued_open q (.head _), ← here]
      refine ⟨free ++ [sentByDma q], rest, ring, ?_, sound.sent, .inl ⟨running, next⟩⟩
      simpa using bytes
  · obtain ⟨g, member, here⟩ := at_ running
    rw [← here, h.ring.descAt (.inl member)] at found
    obtain rfl := Option.some.inj found
    rw [if_pos (h.ring.free_cstop g member)]
    exact ⟨free, queued, h.ring, bytes, sound, .inr ⟨nofun, unsent⟩⟩

/-- What the invariant says of the bytes sent. -/
private theorem whole (h : s.Inv mem free queued) : s.Whole := by
  have bytes := h.bytes
  refine ⟨⟨queued.flatMap dmaData ++ s.call.remaining, by rw [← List.append_assoc]; exact bytes⟩,
    fun halted idle => ?_⟩
  obtain ⟨-, none_⟩ := h.position.resolve_left (by simp [halted])
  rw [idle] at none_ bytes
  obtain rfl : queued = [] := none_
  exact ⟨h.ring.allSent_iff.mpr rfl, by simpa [FrameWrite.remaining] using bytes⟩

end DmaTx.Inv

/-! ### Runs -/

/-- The engine that `fscc_io_purge_tx` has stopped. -/
private theorem halted_purge {δ : Type} (dev : Device δ) (dma : cfg.isDma = true) (p : TxPort) (d : δ)
    (e : TxEngine) : ((ioPurgeTx dev cfg p d).2.1.foldl TxEngine.store e).running = false := by
  have tres (e : TxEngine) : (issued (ioExecuteTRES dev cfg d).1).foldl TxEngine.store e = e := by
    unfold ioExecuteTRES portSetRegister
    dsimp only
    split
    next => split <;> rfl
    next => rfl
  simp only [ioPurgeTx, dmaExecuteSTOPT, dmaExecuteRSTT, dmaExecute, dma, if_true,
    List.foldl_append, List.foldl_cons, List.foldl_nil, tres]
  rfl

/-- A port just made has every descriptor free. -/
private theorem DmaTx.inv_init {δ : Type} (dev : Device δ) {s : DmaTx}
    (init : (dmaTxMachine mem cfg dev).init s) : ∃ free, s.Inv mem free [] := by
  obtain ⟨dma, ⟨q, d, e, linked, size, buffers, port, engine⟩, call, sent, written⟩ := init
  have halted : s.engine.running = false := by
    rw [engine]
    exact halted_purge dev dma q d e
  refine ⟨q.txDescriptors.map purgedTxFrame, ?_, ?_, ?_, .inr ⟨by simp [halted], ?_⟩⟩
  · rw [port]
    exact {
      size := by simp [ioPurgeTx, resetTx, size]
      user_lt := mem.txNum_pos
      view := by simp [ioPurgeTx, resetTx, Ring.view]
      buffers := by simpa [purgedTxFrame] using buffers
      free_cstop := by simp [purgedTxFrame]
      queued_open := by simp
      linked := linked.congr (by simp [ioPurgeTx, resetTx, Function.comp_def, purgedTxFrame,
        IoFrame.place, IoFrame.setControl, IoFrame.setDataCount, IoFrame.setTimestamp]) }
  · simp [call, sent, written, FrameWrite.remaining]
  · rw [call]
    trivial
  · rw [call]
    rfl

/-- The invariant is kept by a step that meets the condition. -/
private theorem DmaTx.Inv.step {δ : Type} (dev : Device δ) (dma : cfg.isDma = true) {s t : DmaTx}
    {free queued : List IoFrame} (h : s.Inv mem free queued) {e : DmaTxEvent}
    (clear : KeepsClear s e) (stepped : (dmaTxMachine mem cfg dev).step s e = some t) :
    ∃ free' queued', t.Inv mem free' queued' := by
  cases e with
  | write frame =>
    simp only [dmaTxMachine] at stepped
    split at stepped
    next ready =>
      obtain rfl := Option.some.inj stepped
      exact ⟨free, queued, h.begin ready.1 ready.2.1 ready.2.2⟩
    next => cases stepped
  | call =>
    change s.write mem cfg = some t at stepped
    cases call : s.call with
    | idle => simp [DmaTx.write, call] at stepped
    | fill tempData i outLength startDesc =>
      obtain ⟨free', inv⟩ := h.fill call stepped
      exact ⟨free', queued, inv⟩
    -- The condition on the run is about this step and the next.
    | hand tempData i outLength startDesc =>
      simp only [KeepsClear, call] at clear
      exact h.hand call clear stepped
    | check startDesc =>
      simp only [KeepsClear, call] at clear
      exact ⟨free, queued, h.check dma call clear stepped⟩
  | engine =>
    simp only [dmaTxMachine] at stepped
    split at stepped
    next running =>
      obtain ⟨f, found, rfl⟩ := Option.map_eq_some_iff.mp stepped
      exact h.engine running clear found
    next => cases stepped

/-- In every run that meets the condition the frames are sent whole and in order, and none is
left behind. -/
theorem frames_sent_whole {δ : Type} (dev : Device δ) {s : DmaTx}
    (reached : (dmaTxMachine mem cfg dev).ReachedUnder KeepsClear s) : s.Whole := by
  obtain ⟨-, free, queued, inv⟩ : cfg.isDma = true ∧ ∃ free queued, s.Inv mem free queued := by
    refine reached.invariant
      (P := fun s => cfg.isDma = true ∧ ∃ free queued, s.Inv mem free queued)
      (fun t init => ?_) fun t u e h clear stepped => ?_
    · obtain ⟨free, inv⟩ := DmaTx.inv_init dev init
      exact ⟨init.1, free, [], inv⟩
    · obtain ⟨dma, free, queued, inv⟩ := h
      exact ⟨dma, inv.step dev dma clear stepped⟩
  exact inv.whole

/-! ### An engine that catches up -/

instance (s : DmaTx) : Decidable s.AllSent := by
  unfold DmaTx.AllSent
  infer_instance

instance (s : DmaTx) : Decidable s.AtFree := by
  unfold DmaTx.AtFree
  infer_instance

instance (s : DmaTx) : (e : DmaTxEvent) → Decidable (KeepsClear s e)
  | .engine => by unfold KeepsClear; dsimp only; split <;> infer_instance
  | .call => by unfold KeepsClear; dsimp only; split <;> infer_instance
  | .write _ => .isTrue trivial

/-- Two linked descriptors. -/
def linkedTx : TxPort :=
  { freshTx .small [4096, 8192] with
    txDescriptors := ioLinkDescriptors (freshTx .small [4096, 8192]).txDescriptors }

/-- A port just made. -/
def newDmaTx : DmaTx where
  port := (ioPurgeTx constant dmaConfig linkedTx 0#32).1
  call := .idle
  engine := (ioPurgeTx constant dmaConfig linkedTx 0#32).2.1.foldl TxEngine.store
    ⟨0#32, false, 0#32⟩
  sent := []
  written := []

private theorem newDmaTx_init : (dmaTxMachine .small dmaConfig constant).init newDmaTx :=
  ⟨rfl, ⟨linkedTx, 0#32, ⟨0#32, false, 0#32⟩, linked_ioLinkDescriptors (by decide) (by decide), rfl,
    by decide, rfl, rfl⟩, rfl, rfl, rfl⟩

/-- A frame of one descriptor is written and sent, and the engine moves on. -/
def oneSent : List DmaTxEvent := [.write [1, 2, 3, 4], .call, .call, .call, .engine]

/-- The engine sends the first descriptor of a frame and stops at the second before that is
handed over. It is started at the first again, and stops there. -/
theorem frame_left_behind :
    ∃ s, (dmaTxMachine .small dmaConfig constant).Reached s ∧ ¬s.Whole := by
  have run : ∃ s, (dmaTxMachine .small dmaConfig constant).replay newDmaTx
      (oneSent ++ [.write [1, 2, 3, 4, 5, 6, 7, 8], .call, .call, .engine, .engine, .call, .call,
        .call, .engine]) = some s ∧
      s.engine.running = false ∧ s.call = .idle ∧ ¬s.AllSent :=
    ⟨_, rfl, by decide, by decide, by decide⟩
  obtain ⟨s, replayed, halted, idle, left⟩ := run
  exact ⟨s, .replay (.init newDmaTx_init) _ replayed, fun whole => left (whole.2 halted idle).1⟩

/-- The engine sends the frame after it has been handed over. -/
theorem frames_sent_whole_later :
    ∃ s, (dmaTxMachine .small dmaConfig constant).replay newDmaTx
        (oneSent ++ [.write [1, 2, 3, 4, 5, 6, 7, 8], .call, .call, .call, .call, .call, .engine,
          .engine, .engine]) = some s ∧
      s.engine.running = false ∧ s.sent = [1, 2, 3, 4, 1, 2, 3, 4, 5, 6, 7, 8] ∧ s.Whole :=
  ⟨_, rfl, by decide, by decide, frames_sent_whole constant (.replay (.init newDmaTx_init)
    (oneSent ++ [.write [1, 2, 3, 4, 5, 6, 7, 8], .call, .call, .call, .call, .call, .engine,
      .engine, .engine]) (by decide) rfl)⟩

end Fscc
