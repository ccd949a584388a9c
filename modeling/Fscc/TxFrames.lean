import Fscc.TxRing
import Fscc.Lib.Chunks
import Mathlib.Data.List.Forall2
import Mathlib.Data.List.TakeWhile

/-!
# Frames in the transmit ring

`fscc_user_write_frame` cuts a frame to descriptors. A `Piece` is what one descriptor holds
of it; the first piece of a frame, and no other, tells the length of the whole.
-/

namespace Fscc

open CInt

variable {δ : Type} (dev : Device δ) (cfg : PortConfig) (mem : Memory)

/-- The part of a frame in one descriptor; `total` is set on a frame's first piece. -/
structure Piece where
  data : List UInt8
  total : Option Nat
deriving DecidableEq, Repr

/-- The pieces with the given data, `total` on the first. -/
def piecesOf (total : Option Nat) : List (List UInt8) → List Piece
  | [] => []
  | c :: cs => ⟨c, total⟩ :: piecesOf none cs

/-- The pieces of a frame. -/
def pieces (frame : List UInt8) : List Piece :=
  piecesOf (some frame.length) (Chunks.split mem.txSize frame)

@[simp] theorem length_piecesOf (total : Option Nat) (cs : List (List UInt8)) :
    (piecesOf total cs).length = cs.length := by
  induction cs generalizing total with
  | nil => rfl
  | cons c cs ih => simp [piecesOf, ih]

@[simp] theorem data_piecesOf (total : Option Nat) (cs : List (List UInt8)) :
    (piecesOf total cs).map Piece.data = cs := by
  induction cs generalizing total with
  | nil => rfl
  | cons c cs ih => simp [piecesOf, ih]

@[simp] theorem total_piecesOf (cs : List (List UInt8)) :
    (piecesOf none cs).filterMap Piece.total = [] := by
  induction cs with
  | nil => rfl
  | cons c cs ih => simp [piecesOf, ih]

theorem flatMap_data_pieces (data : List UInt8) : (pieces mem data).flatMap Piece.data = data := by
  rw [List.flatMap_def, pieces, data_piecesOf, Chunks.flatten_split mem.txSize_pos]

/-- A descriptor holds a piece, ready to be sent. -/
structure Carries (f : IoFrame) (piece : Piece) : Prop where
  cstop : f.cstop = false
  buffer : f.buffer.length = mem.txSize
  dataCount : f.desc.dataCount = piece.data.length
  pos : 0 < piece.data.length
  le : piece.data.length ≤ mem.txSize
  data : f.buffer.take piece.data.length = piece.data
  fe : f.fe = piece.total.isSome
  count : ∀ n ∈ piece.total, f.count = n ∧ 0 < n

theorem Carries.of_mem {fs : List IoFrame} {ps : List Piece}
    (carried : List.Forall₂ (Carries mem) fs ps) :
    ∀ f ∈ fs, f.cstop = false ∧ f.buffer.length = mem.txSize :=
  ((List.forall₂_and_left fs ps).mp (carried.imp fun _ _ c => ⟨⟨c.cstop, c.buffer⟩, c⟩)).1

/-- The data of the pieces is determined by the descriptors. -/
theorem Carries.data_of_mem {fs : List IoFrame} {ps : List Piece}
    (carried : List.Forall₂ (Carries mem) fs ps) :
    ps.map Piece.data = fs.map fun f => f.buffer.take f.desc.dataCount := by
  induction carried with
  | nil => rfl
  | cons first _ ih => rw [List.map_cons, List.map_cons, ih, first.dataCount, first.data]

/-! ### `fscc_user_write_frame` -/

@[simp] theorem length_copyFromUser (buf : List UInt8) (unmovedBytes : Nat) :
    (copyFromUser buf unmovedBytes).length = buf.length := by
  simp only [copyFromUser, List.length_append, List.length_take, List.length_replicate]
  omega

@[simp] theorem copyFromUser_zero (buf : List UInt8) : copyFromUser buf 0 = buf := by
  simp [copyFromUser]

section Write

variable {mem} {tempData : List UInt8} (fits : tempData.length ≤ mem.txNum * mem.txSize)
include fits

theorem transmitLength_eq {outLength : Nat} (le : outLength ≤ tempData.length) :
    transmitLength mem tempData.length outLength =
      ((tempData.drop outLength).take mem.txSize).length := by
  have bound := mem.tx_fits
  rw [transmitLength, subSize_eq le (by omega), List.length_take, List.length_drop]
  split <;> omega

/-- The write loop puts the next piece of the frame into a descriptor. -/
theorem writeDescriptor_carries {outLength : Nat} (more : outLength < tempData.length)
    (first : Bool) {f : IoFrame} (buffer : f.buffer.length = mem.txSize) :
    Carries mem (writeDescriptor mem tempData first outLength f)
      ⟨(tempData.drop outLength).take mem.txSize, if first then some tempData.length else none⟩ := by
  have bound := mem.tx_fits
  have size := mem.txSize_pos
  have length := transmitLength_eq fits more.le
  have short : ((tempData.drop outLength).take mem.txSize).length ≤ mem.txSize := by
    rw [List.length_take]
    omega
  have pos : 0 < ((tempData.drop outLength).take mem.txSize).length := by
    rw [List.length_take, List.length_drop]
    omega
  have data : bytesAt (tempData.drop outLength) (transmitLength mem tempData.length outLength) =
      (tempData.drop outLength).take mem.txSize := by
    rw [length, bytesAt_eq (by rw [List.length_take]; omega), List.length_take]
    exact List.take_eq_take_min.symm
  refine {
    cstop := ?_
    buffer := ?_
    dataCount := length
    pos := pos
    le := short
    data := ?_
    fe := ?_
    count := ?_ }
  · have small := hasCstop_ofNat (n := tempData.length) (by omega)
    have small' := hasCstop_ofNat (n := transmitLength mem tempData.length outLength)
      (by have := mem.txSize_le; omega)
    cases first <;> simp [writeDescriptor, small, small']
  · simp only [writeDescriptor, IoFrame.buffer_setControl, IoFrame.buffer_setDataCount,
      IoFrame.buffer_setBuffer, data]
    rw [length_memcpyAt (by omega), buffer]
  · simp only [writeDescriptor, IoFrame.buffer_setControl, IoFrame.buffer_setDataCount,
      IoFrame.buffer_setBuffer, data]
    have copied := take_memcpyAt (Nat.zero_le f.buffer.length)
      ((tempData.drop outLength).take mem.txSize)
    simpa using copied
  · have small := hasFe_ofNat (n := tempData.length) (by omega)
    have small' := hasFe_ofNat (n := transmitLength mem tempData.length outLength)
      (by have := mem.txSize_le; omega)
    cases first <;> simp [writeDescriptor, small, small']
  · intro n member
    cases first with
    | false => simp at member
    | true =>
      simp only [if_true, Option.mem_def, Option.some.injEq] at member
      subst member
      refine ⟨?_, by omega⟩
      simp only [writeDescriptor, if_true, IoFrame.count_setControl, BitVec.or_assoc, cnt_hi_or]
      rw [BitVec.or_comm, cnt_or_fe, cnt_ofNat, Nat.mod_eq_of_lt (by omega)]

/-- With enough free descriptors ahead, the loop queues the rest of the frame in them. -/
private theorem userWriteLoop_queues (passes : Nat) (first : Bool) (p : TxPort) (outLength : Nat)
    (startDesc : BitVec 32) (free others : List IoFrame)
    (size : p.txDescriptors.length = mem.txNum) (user_lt : p.userTxDesc < mem.txNum)
    (more : outLength < tempData.length)
    (view : Ring.view p.txDescriptors p.userTxDesc = free ++ others)
    (cstop : ∀ f ∈ free, f.cstop = true) (buffers : ∀ f ∈ free, f.buffer.length = mem.txSize)
    (room : (Chunks.split mem.txSize (tempData.drop outLength)).length ≤ free.length)
    (turns : (Chunks.split mem.txSize (tempData.drop outLength)).length ≤ passes) :
    ∃ (p' : TxPort) (used rest written : List IoFrame) (startDesc' : BitVec 32),
      userWriteLoop mem tempData passes first p outLength startDesc = (.ok (), p', startDesc') ∧
      free = used ++ rest ∧ used.length = written.length ∧
      List.Forall₂ (Carries mem) written (piecesOf (if first then some tempData.length else none)
        (Chunks.split mem.txSize (tempData.drop outLength))) ∧
      p'.txDescriptors.length = mem.txNum ∧ p'.fifoTxDesc = p.fifoTxDesc ∧
      p'.userTxDesc = Ring.slot mem.txNum p.userTxDesc used.length ∧
      Ring.view p'.txDescriptors p'.userTxDesc = rest ++ others ++ written := by
  -- Induction on the passes, over the free descriptors in front of `user_tx_desc`.
  induction passes generalizing first p outLength startDesc free others with
  | zero =>
    have some_ : tempData.drop outLength ≠ [] := by simpa using more
    rw [Chunks.split_cons mem.txSize_pos some_, List.length_cons] at turns
    omega
  | succ passes ih =>
    have some_ : tempData.drop outLength ≠ [] := by simpa using more
    have cut := Chunks.split_cons mem.txSize_pos some_
    rw [cut, List.length_cons] at turns room
    obtain ⟨f, free', rfl⟩ : ∃ f free', free = f :: free' := by
      cases free with
      | nil => simp at room
      | cons f free' => exact ⟨f, free', rfl⟩
    have frame : p.userFrame = f := Ring.getD_head f default (by omega) view
    -- The first free descriptor takes one buffer of the data, which is how the pieces are cut.
    have carries := writeDescriptor_carries fits more first (buffers f (.head _))
    have length := transmitLength_eq fits more.le
    have moved := view_putUser size user_lt (writeDescriptor mem tempData first outLength f)
      (show Ring.view p.txDescriptors p.userTxDesc = f :: (free' ++ others) from view)
    rw [userWriteLoop, frame, cstop f (.head _), cut, piecesOf]
    simp only [Bool.not_true, Bool.false_eq_true, if_false]
    split
    -- The data ends with this descriptor.
    next ended =>
      have none_ : (tempData.drop outLength).drop mem.txSize = [] := by
        rw [List.drop_eq_nil_iff, List.length_drop]
        rw [length, List.length_take, List.length_drop] at ended
        omega
      refine ⟨_, [f], free', [writeDescriptor mem tempData first outLength f], _, rfl, rfl, rfl,
        ?_, by simp [TxPort.putUser, size], rfl, Ring.next_eq_slot user_lt, ?_⟩
      · rw [none_, Chunks.split_nil]
        exact .cons carries .nil
      · exact moved
    -- More is to come, and it starts a whole buffer further on.
    next unfinished =>
      have step : outLength + transmitLength mem tempData.length outLength =
          outLength + mem.txSize := by
        rw [length, List.length_take, List.length_drop] at unfinished ⊢
        omega
      rw [step] at unfinished ⊢
      have rest := List.drop_drop (l := tempData) (i := mem.txSize) (j := outLength)
      rw [rest] at turns room ⊢
      obtain ⟨p', used, left, written, startDesc', eq, split, same, pieces, size', fifo, user,
        after⟩ := ih false (p.putUser mem (writeDescriptor mem tempData first outLength f))
          (outLength + mem.txSize)
          (if startDesc = 0#32 then f.descPhysicalAddress else startDesc) free'
          (others ++ [writeDescriptor mem tempData first outLength f])
          (by simp [TxPort.putUser, size]) (Ring.next_lt user_lt)
          (by rw [length, List.length_take, List.length_drop] at step; omega)
          (by rw [moved, List.append_assoc]) (fun g member => cstop g (.tail _ member))
          (fun g member => buffers g (.tail _ member)) (by simpa using room) (by simpa using turns)
      refine ⟨p', f :: used, left, writeDescriptor mem tempData first outLength f :: written,
        startDesc', eq, by rw [split, List.cons_append], by simp [same], .cons carries pieces,
        size', fifo, ?_, by rw [after]; simp⟩
      rw [user, List.length_cons]
      exact Ring.slot_next user_lt

/-- Whatever room there is, the loop hands over free descriptors only, each with a piece. -/
private theorem userWriteLoop_keeps (passes : Nat) (first : Bool) (p : TxPort) (outLength : Nat)
    (startDesc : BitVec 32) {free queued : List IoFrame} {ps : List Piece}
    (more : outLength < tempData.length) (h : TxRing mem p free queued)
    (carried : List.Forall₂ (Carries mem) queued ps) :
    ∃ (free' queued' : List IoFrame) (ps' : List Piece), free'.length ≤ free.length ∧
      TxRing mem (userWriteLoop mem tempData passes first p outLength startDesc).2.1 free' queued' ∧
      List.Forall₂ (Carries mem) queued' ps' := by
  induction passes generalizing first p outLength startDesc free queued ps with
  | zero => exact ⟨free, queued, ps, Nat.le_refl _, h, carried⟩
  | succ passes ih =>
    rw [userWriteLoop]
    cases free with
    | nil => exact ⟨[], queued, ps, Nat.le_refl _, by simpa [h.userFrame_full] using h, carried⟩
    | cons f free =>
      have carries := writeDescriptor_carries fits more first (h.buffers f (by simp))
      have ring := h.putUser _ carries.cstop carries.buffer
      have carried' := List.rel_append carried (.cons carries .nil)
      have length := transmitLength_eq fits more.le
      simp only [h.userFrame_eq, h.free_cstop f (.head _), Bool.not_true, Bool.false_eq_true,
        if_false]
      split
      next => exact ⟨free, _, _, Nat.le_succ _, ring, carried'⟩
      next unfinished =>
        rw [length, List.length_take, List.length_drop] at unfinished ⊢
        obtain ⟨free', queued', ps', le, ring', carried''⟩ := ih false _
          (outLength + min mem.txSize (tempData.length - outLength))
          (if startDesc = 0#32 then f.descPhysicalAddress else startDesc) (by omega) ring carried'
        exact ⟨free', queued', ps', le.trans (Nat.le_succ _), ring', carried''⟩

end Write

/-- `p'` is `p` with `frame` queued: the free descriptors `used` at the front of the ring now
hold its pieces, and nothing else has changed. -/
def Queues (p p' : TxPort) (frame : List UInt8) : Prop :=
  ∃ used others written : List IoFrame,
    Ring.view p.txDescriptors p.userTxDesc = used ++ others ∧ (∀ f ∈ used, f.cstop = true) ∧
    List.Forall₂ (Carries mem) written (pieces mem frame) ∧ used.length = written.length ∧
    p'.txDescriptors.length = mem.txNum ∧ p'.fifoTxDesc = p.fifoTxDesc ∧
    p'.userTxDesc = Ring.slot mem.txNum p.userTxDesc used.length ∧
    Ring.view p'.txDescriptors p'.userTxDesc = others ++ written

variable {mem}

/-- With room for it, `fscc_user_write_frame` queues what it copied from the caller. -/
theorem userWriteFrame_queues {p : TxPort} (size : p.txDescriptors.length = mem.txNum)
    (user_lt : p.userTxDesc < mem.txNum)
    (buffers : ∀ f ∈ p.txDescriptors, f.buffer.length = mem.txSize) {buf : List UInt8}
    (pos : 0 < buf.length) (room : buf.length ≤ userGetTxSpace mem p) (unmovedBytes : Nat)
    (d : δ) :
    (userWriteFrame dev cfg mem true unmovedBytes buf p d).1 = .ok () ∧
      Queues mem p (userWriteFrame dev cfg mem true unmovedBytes buf p d).2.1
        (copyFromUser buf unmovedBytes) := by
  have view := (List.takeWhile_append_dropWhile (p := IoFrame.cstop)
    (l := Ring.view p.txDescriptors p.userTxDesc)).symm
  have count := (List.takeWhile_sublist (p := IoFrame.cstop)
    (l := Ring.view p.txDescriptors p.userTxDesc)).length_le
  have cstop : ∀ f ∈ (Ring.view p.txDescriptors p.userTxDesc).takeWhile IoFrame.cstop,
      f.cstop = true := fun f member => List.mem_takeWhile_imp member
  rw [userGetTxSpace_eq mem size user_lt] at room
  rw [Ring.length_view, size] at count
  generalize (Ring.view p.txDescriptors p.userTxDesc).takeWhile IoFrame.cstop = free at *
  have few := Chunks.length_split_le mem.txSize_pos (copyFromUser buf unmovedBytes)
    (by simpa using room)
  have fits : (copyFromUser buf unmovedBytes).length ≤ mem.txNum * mem.txSize := by
    rw [length_copyFromUser]
    exact room.trans (Nat.mul_le_mul_right _ count)
  obtain ⟨p', used, rest, written, startDesc, eq, split, same, carried, size', fifo, user, after⟩ :=
    userWriteLoop_queues fits mem.txNum true p 0 0#32 free _ size user_lt (by simpa using pos) view
      cstop (fun f member => buffers f (Ring.mem_view.mp (by
        rw [view]
        exact List.mem_append_left _ member))) (by simpa using few) (by simpa using few.trans count)
  have run : (userWriteFrame dev cfg mem true unmovedBytes buf p d).1 = .ok () ∧
      (userWriteFrame dev cfg mem true unmovedBytes buf p d).2.1 = p' := by
    simp [userWriteFrame, eq]
  refine ⟨run.1, ?_⟩
  rw [run.2]
  refine ⟨used, rest ++ (Ring.view p.txDescriptors p.userTxDesc).dropWhile IoFrame.cstop, written,
    ?_, ?_, ?_, same, size', fifo, user, after⟩
  · rw [← List.append_assoc, ← split]
    exact view
  · exact fun f member => cstop f (by rw [split]; exact List.mem_append_left _ member)
  · simpa [pieces] using carried

/-- `fscc_user_write_frame` keeps the ring and makes no room, whatever its outcome. -/
theorem TxRing.userWriteFrame {p : TxPort} {free queued : List IoFrame} {ps : List Piece}
    (h : TxRing mem p free queued) (carried : List.Forall₂ (Carries mem) queued ps)
    (alloc : Bool) (unmovedBytes : Nat) {buf : List UInt8} (pos : 0 < buf.length)
    (fits : buf.length ≤ mem.txNum * mem.txSize) (d : δ) :
    ∃ (free' queued' : List IoFrame) (ps' : List Piece), free'.length ≤ free.length ∧
      TxRing mem (userWriteFrame dev cfg mem alloc unmovedBytes buf p d).2.1 free' queued' ∧
      List.Forall₂ (Carries mem) queued' ps' := by
  cases alloc with
  | false => exact ⟨free, queued, ps, Nat.le_refl _, h, carried⟩
  | true =>
    exact userWriteLoop_keeps (by simpa using fits) mem.txNum true p 0 0#32 (by simpa using pos) h
      carried

/-- Queueing a frame adds its pieces to the end of the queue. -/
theorem TxRing.queue {p p' : TxPort} {free queued : List IoFrame} {frame : List UInt8}
    (h : TxRing mem p free queued) (queues : Queues mem p p' frame) :
    ∃ free' written : List IoFrame, free.length = written.length + free'.length ∧
      List.Forall₂ (Carries mem) written (pieces mem frame) ∧
      TxRing mem p' free' (queued ++ written) := by
  obtain ⟨used, others, written, before, cstop, carried, same, size, fifo, user, after⟩ := queues
  obtain ⟨free', split, rest⟩ : ∃ free', free = used ++ free' ∧ others = free' ++ queued := by
    rw [h.view] at before
    rcases List.append_eq_append_iff.mp before with ⟨more, eq, eq'⟩ | ⟨more, eq, eq'⟩
    · cases more with
      | nil => exact ⟨[], by simpa using eq.symm, by simpa using eq'.symm⟩
      | cons f more =>
        have stopped := cstop f (by simp [eq])
        rw [h.queued_open f (by simp [eq'])] at stopped
        cases stopped
    · exact ⟨more, eq, eq'⟩
  have old := h.buffers
  refine ⟨free', written, by rw [split, List.length_append, same], carried, size, ?_, ?_, ?_, ?_,
    ?_, ?_⟩
  · rw [user]
    exact Ring.slot_lt mem.txNum_pos
  · rw [after, rest, List.append_assoc]
  · rw [fifo, h.fifo, user, Ring.slot_slot, split, List.length_append]
  · intro f member
    simp only [List.mem_append] at member
    rcases member with free_ | queued_ | new
    · exact old f (by simp [split, free_])
    · exact old f (by simp [queued_])
    · exact (Carries.of_mem mem carried f new).2
  · exact fun f member => h.free_cstop f (by simp [split, member])
  · intro f member
    rcases List.mem_append.mp member with queued_ | new
    · exact h.queued_open f queued_
    · exact (Carries.of_mem mem carried f new).1

end Fscc
