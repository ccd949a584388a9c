import Fscc.Lib.Chunks
import Fscc.Lib.Machine
import Fscc.RxFrames

/-!
# The stream in the receive ring

Without frames a finished descriptor is a piece of a stream of bytes, and `data_count` is how
much of the piece has still to be read. The ring is a queue of such pieces: the drain puts bytes
in at one end, and `fscc_user_read_stream` takes them out at the other.
-/

namespace Fscc

open CInt

variable {δ : Type} (dev : Device δ) (mem : Memory)

/-- What a finished descriptor has still to give to a reader of the stream. -/
def IoFrame.data (f : IoFrame) : List UInt8 := bytesAt f.buffer f.desc.dataCount

/-- The bytes of the stream that are in the ring: those of the finished descriptors from
`user_rx_desc` on, then those of the descriptor that the drain is filling. -/
def RxPort.ringBytes (p : RxPort) : List UInt8 :=
  let ring := Ring.view p.rxDescriptors p.userRxDesc
  (ring.takeWhile IoFrame.cstop).flatMap IoFrame.data ++
    drained [] (ring.dropWhile IoFrame.cstop)

/-- The receive ring without frames. -/
structure Streamed (p : RxPort) (finished free : List IoFrame) : Prop where
  ring : RxRing mem p finished free
  inside : ∀ f ∈ finished, f.desc.dataCount ≤ mem.rxSize
  words : ∀ f ∈ free, f.count % 4 = 0
  unframed : p.rxFrameSize = 0

variable {mem} {p : RxPort} {finished free rest : List IoFrame} {f : IoFrame}

/-! ### The reader's end of the ring -/

/-- What a read of the stream leaves in a descriptor that it empties. -/
theorem streamedFrame_empty (i : Nat) (f : IoFrame) :
    ((streamedFrame mem i f).fe = false ∧ (streamedFrame mem i f).cstop = false) ∧
      (streamedFrame mem i f).count = 0 := by
  unfold streamedFrame
  split
  · simp
  · simp

/-- What it leaves in one that it does not empty. -/
private theorem data_shiftedFrame {space : Nat} (inside : f.desc.dataCount ≤ f.buffer.length)
    (short : space < f.desc.dataCount) : (shiftedFrame space f).data = f.data.drop space := by
  have remaining : ((f.buffer.drop space).take (f.desc.dataCount - space)).length =
      f.desc.dataCount - space := by
    rw [List.length_take, List.length_drop]
    omega
  have moved : (memcpyAt f.buffer 0 ((f.buffer.drop space).take (f.desc.dataCount - space))).take
      (f.desc.dataCount - space) = (f.buffer.drop space).take (f.desc.dataCount - space) := by
    have copied := take_memcpyAt (Nat.zero_le f.buffer.length)
      ((f.buffer.drop space).take (f.desc.dataCount - space))
    rwa [remaining, Nat.zero_add, List.take_zero, List.nil_append] at copied
  have size : (shiftedFrame space f).buffer.length = f.buffer.length :=
    length_memcpyAt (by omega)
  rw [IoFrame.data, IoFrame.data, bytesAt_eq inside, List.drop_take]
  rw [bytesAt_eq (by rw [size]; exact (Nat.sub_le _ _).trans inside)]
  exact moved

/-- The receive ring as a queue of pieces, whatever the drain makes of frames. -/
structure Pieces (mem : Memory) (p : RxPort) (finished free : List IoFrame) : Prop where
  ring : RxRing mem p finished free
  inside : ∀ f ∈ finished, f.desc.dataCount ≤ mem.rxSize

theorem Streamed.pieces (h : Streamed mem p finished free) : Pieces mem p finished free :=
  ⟨h.ring, h.inside⟩

/-- The finished descriptors are the first with `CSTOP`. -/
theorem RxRing.cut (h : RxRing mem p finished free) :
    (Ring.view p.rxDescriptors p.userRxDesc).takeWhile IoFrame.cstop = finished ∧
      (Ring.view p.rxDescriptors p.userRxDesc).dropWhile IoFrame.cstop = free := by
  have done : ∀ f ∈ finished, f.cstop = true := h.finished_cstop
  rw [h.view, List.takeWhile_append_of_pos done, List.dropWhile_append_of_pos done]
  cases free with
  | nil => simp
  | cons f free => simp [(h.free_open f (.head _)).2]

namespace Pieces

/-- The bytes in the ring are those of its pieces in order. -/
theorem ringBytes_eq (h : Pieces mem p finished free) :
    p.ringBytes = (finished.map IoFrame.data).flatten ++ drained [] free := by
  rw [RxPort.ringBytes, h.ring.cut.1, h.ring.cut.2, List.flatMap_def]

/-- A reader empties the oldest finished descriptor. -/
theorem putUser (h : Pieces mem p (f :: finished) free) (i : Nat) :
    Pieces mem (p.putUser mem (streamedFrame mem i f)) finished
      (free ++ [streamedFrame mem i f]) where
  ring := h.ring.putUser _ (streamedFrame_empty i f).1 (streamedFrame_empty i f).2
    (h.ring.buffers f (.head _))
  inside := fun g member => h.inside g (.tail _ member)

/-- A reader stops inside the oldest finished descriptor. -/
private theorem setUser (h : Pieces mem p (f :: finished) free) {space : Nat}
    (short : space < f.desc.dataCount) :
    Pieces mem { p with rxDescriptors := p.rxDescriptors.set p.userRxDesc (shiftedFrame space f) }
      (shiftedFrame space f :: finished) free where
  ring := by
    have inside := h.inside f (.head _)
    have buffer := h.ring.buffers f (.head _)
    have moved : (shiftedFrame space f).buffer.length = f.buffer.length := by
      apply length_memcpyAt
      rw [List.length_take, List.length_drop]
      omega
    apply h.ring.setUser
    · rw [cstop_shiftedFrame]
      exact h.ring.finished_cstop f (.head _)
    · rw [moved, buffer]
  inside := by
    intro g member
    rcases List.mem_cons.mp member with rfl | old
    · exact (Nat.sub_le _ _).trans (h.inside f (.head _))
    · exact h.inside g (.tail _ old)

/-- The ring holds less than a C `int` counts. -/
theorem length_data_lt (h : Pieces mem p finished free) :
    (finished.map IoFrame.data).flatten.length < 536870912 := by
  have each : ∀ fs : List IoFrame, (∀ f ∈ fs, f.desc.dataCount ≤ mem.rxSize) →
      (fs.map IoFrame.data).flatten.length ≤ fs.length * mem.rxSize := by
    intro fs inside
    induction fs with
    | nil => simp
    | cons f fs ih =>
      have first := inside f (.head _)
      have others := ih fun g member => inside g (.tail _ member)
      rw [List.map_cons, List.flatten_cons, List.length_append, List.length_cons, Nat.succ_mul,
        IoFrame.data, length_bytesAt]
      omega
  have sum := h.ring.length_add
  have fits := mem.rx_fits
  have held := each finished h.inside
  have slots := Nat.mul_le_mul_right mem.rxSize (by omega : finished.length ≤ mem.rxNum)
  omega

end Pieces

/-! ### `fscc_user_read_stream` -/

/-- What a reader with room for `space` makes of the pieces in the ring: `finished'` and `free'`
are left of `finished` and `free`. -/
structure PiecesLeft (mem : Memory) (p : RxPort) (finished free : List IoFrame) (space : Nat)
    (p' : RxPort) (finished' free' : List IoFrame) : Prop where
  pieces : Pieces mem p' finished' free'
  data : finished'.map IoFrame.data = (Chunks.read space (finished.map IoFrame.data)).2
  emptied : ∃ fs, free' = free ++ fs ∧ ∀ f ∈ fs, f.count = 0
  frameSize : p'.rxFrameSize = p.rxFrameSize
  bytesInFrame : p'.rxBytesInFrame = p.rxBytesInFrame

/-- The loop ends where nothing is finished. -/
theorem Pieces.readLoop_nil (h : Pieces mem p [] free) (bufLength passes outLength : Nat)
    (tempData : List UInt8) :
    userReadStreamLoop mem bufLength passes p outLength tempData = (p, outLength, tempData) := by
  obtain ⟨f, rest, rfl⟩ : ∃ f rest, free = f :: rest := by
    have sum := h.ring.length_add
    have pos := mem.rxNum_pos
    cases free with
    | nil => simp only [List.length_nil] at sum; omega
    | cons f rest => exact ⟨f, rest, rfl⟩
  have opened := h.ring.free_open f (.head _)
  cases passes with
  | zero => rfl
  | succ passes =>
    rw [userReadStreamLoop, h.ring.userFrame_free, opened.1, opened.2]
    rfl

/-- A copy of `n` bytes to the end of what has been written appends them. -/
private theorem append_bytesAt {temp : List UInt8} (out n : Nat) (room : out + n ≤ temp.length)
    (src : List UInt8) :
    (memcpyAt temp out (bytesAt src n)).length = temp.length ∧
      (memcpyAt temp out (bytesAt src n)).take (out + n) = temp.take out ++ bytesAt src n := by
  have written := take_memcpyAt (by omega : out ≤ temp.length) (bytesAt src n)
  rw [length_bytesAt] at written
  exact ⟨length_memcpyAt (by rwa [length_bytesAt]), written⟩

namespace PiecesLeft

/-- A descriptor that fits is emptied and joins the free ones, and the rest is read after it. -/
private theorem cons {f : IoFrame} {fs finished' free' : List IoFrame} {p' : RxPort} {space i : Nat}
    (fits : f.desc.dataCount ≤ space)
    (left : PiecesLeft mem (p.putUser mem (streamedFrame mem i f)) fs
      (free ++ [streamedFrame mem i f]) (space - f.desc.dataCount) p' finished' free') :
    PiecesLeft mem p (f :: fs) free space p' finished' free' where
  pieces := left.pieces
  data := by
    rw [left.data, List.map_cons, Chunks.read, IoFrame.data, length_bytesAt, if_pos fits]
  emptied := by
    obtain ⟨more, shape, empty⟩ := left.emptied
    refine ⟨_ :: more, by rw [shape, List.append_assoc, List.singleton_append], ?_⟩
    intro g member
    rcases List.mem_cons.mp member with rfl | later
    · exact (streamedFrame_empty _ f).2
    · exact empty g later
  frameSize := left.frameSize
  bytesInFrame := left.bytesInFrame

/-- A descriptor that does not fit stays with what is left of it. -/
private theorem short {f : IoFrame} {fs : List IoFrame} {space : Nat}
    (h : Pieces mem p (f :: fs) free) (short : space < f.desc.dataCount) :
    PiecesLeft mem p (f :: fs) free space
      { p with rxDescriptors := p.rxDescriptors.set p.userRxDesc (shiftedFrame space f) }
      (shiftedFrame space f :: fs) free where
  pieces := h.setUser short
  data := by
    have inside := h.inside f (.head _)
    have buffer := h.ring.buffers f (.head _)
    rw [List.map_cons, List.map_cons, Chunks.read, if_neg
      (by rw [IoFrame.data, length_bytesAt]; omega), data_shiftedFrame (by omega) short]
  emptied := ⟨[], by simp, by simp⟩
  frameSize := rfl
  bytesInFrame := rfl

end PiecesLeft

/-- The loop takes from the queue of finished descriptors what a reader of the queue takes. -/
private theorem Pieces.readLoop (h : Pieces mem p finished free) {bufLength : Nat}
    (passes outLength : Nat) (tempData : List UInt8) (size : bufLength < 18446744073709551616)
    (enough : finished.length ≤ passes) (temp : tempData.length = bufLength)
    (le : outLength ≤ bufLength)
    (small : outLength + (finished.map IoFrame.data).flatten.length < 4294967296) :
    let loop := userReadStreamLoop mem bufLength passes p outLength tempData
    let read := Chunks.read (bufLength - outLength) (finished.map IoFrame.data)
    (∃ finished' free',
        PiecesLeft mem p finished free (bufLength - outLength) loop.1 finished' free') ∧
      loop.2.1 = outLength + read.1.length ∧ loop.2.2.length = bufLength ∧
      loop.2.2.take loop.2.1 = tempData.take outLength ++ read.1 := by
  -- Induction on the finished descriptors. The loop goes on as long as they fit whole.
  induction finished generalizing p free passes outLength tempData with
  | nil =>
    rw [h.readLoop_nil]
    exact ⟨⟨[], free, h, rfl, ⟨[], by simp, by simp⟩, rfl, rfl⟩, rfl, temp,
      (List.append_nil _).symm⟩
  | cons f fs ih =>
    obtain ⟨passes, rfl⟩ : ∃ n, passes = n + 1 := by
      cases passes with
      | zero => simp at enough
      | succ n => exact ⟨n, rfl⟩
    have cstop := h.ring.finished_cstop f (.head _)
    have inside := h.inside f (.head _)
    have buffer := h.ring.buffers f (.head _)
    rw [List.map_cons, List.flatten_cons, List.length_append, IoFrame.data, length_bytesAt] at small
    dsimp only
    rw [userReadStreamLoop, h.ring.userFrame_eq]
    simp only [cstop, Bool.not_true, Bool.and_false, Bool.false_eq_true, if_false,
      streamDescriptor_eq, subSize_eq le size]
    rw [List.map_cons, Chunks.read, IoFrame.data, length_bytesAt]
    by_cases fits : f.desc.dataCount ≤ bufLength - outLength
    · -- the descriptor is emptied, and the loop goes on with the next one
      obtain ⟨length, written⟩ := append_bytesAt outLength f.desc.dataCount
        (by omega : _ ≤ tempData.length) f.buffer
      have cut : bufLength - (outLength + f.desc.dataCount) =
          bufLength - outLength - f.desc.dataCount := by omega
      simp only [if_pos fits, if_true, length_bytesAt]
      rw [add32_eq (by omega)]
      obtain ⟨⟨finished', free', left⟩, out, temp', taken⟩ :=
        ih (h.putUser (mem.rxNum - (passes + 1))) passes _ _ (by simpa using enough)
          (length.trans temp) (by omega : outLength + f.desc.dataCount ≤ bufLength) (by omega)
      rw [cut] at left out taken
      refine ⟨⟨finished', free', ?_⟩, ?_, temp', ?_⟩
      · exact left.cons fits
      · rw [out, List.length_append, length_bytesAt]
        omega
      · rw [taken, written, List.append_assoc]
    · -- there is room for the first of its bytes only
      have short : bufLength - outLength < f.desc.dataCount := by omega
      obtain ⟨length, written⟩ := append_bytesAt outLength (bufLength - outLength)
        (by omega : _ ≤ tempData.length) f.buffer
      have first : (bytesAt f.buffer f.desc.dataCount).take (bufLength - outLength) =
          bytesAt f.buffer (bufLength - outLength) := by
        rw [bytesAt_eq (by omega), bytesAt_eq (by omega), List.take_take,
          Nat.min_eq_left (by omega)]
      simp only [if_neg fits, Bool.false_eq_true, if_false, length_bytesAt]
      rw [add32_eq (by omega), first]
      refine ⟨⟨_, free, .short h short⟩, ?_, length.trans temp, written⟩
      · rw [length_bytesAt]

/-- `out_length` when the loop of `fscc_user_read_stream` ends. -/
def streamOutLength (mem : Memory) (bufLength : Nat) (p : RxPort) : Nat :=
  (userReadStreamLoop mem bufLength mem.rxNum p 0 (List.replicate bufLength 0)).2.1

/-- A read takes the first bytes of the ring, as many as there is room for. -/
theorem Pieces.read (h : Pieces mem p finished free) {bufLength : Nat}
    (size : bufLength < 18446744073709551616) (unmovedBytes : Nat) :
    let taken := Chunks.read bufLength (finished.map IoFrame.data)
    (∃ finished' free', PiecesLeft mem p finished free bufLength
        (userReadStream mem bufLength true unmovedBytes p).2 finished' free') ∧
      streamOutLength mem bufLength p = taken.1.length ∧
      (userReadStream mem bufLength true unmovedBytes p).1 =
        taken.1.take (taken.1.length - unmovedBytes) := by
  have slots := h.ring.length_add
  have held := h.length_data_lt
  obtain ⟨left, out, -, copied⟩ := h.readLoop mem.rxNum 0 (List.replicate bufLength 0) size
    (by omega) List.length_replicate (Nat.zero_le _) (by omega)
  rw [Nat.zero_add] at out
  rw [List.take_zero, List.nil_append] at copied
  refine ⟨left, out, ?_⟩
  rw [Nat.sub_zero] at out copied
  rw [← copied, List.take_take, copied, ← out, Nat.min_eq_left (Nat.sub_le _ _)]
  rfl

/-- Descriptors that a read empties hold nothing for the drain either. -/
theorem drained_append_empty {fs : List IoFrame} (empty : ∀ f ∈ fs, f.count = 0)
    (free : List IoFrame) : drained [] (free ++ fs) = drained [] free := by
  cases free with
  | nil =>
    cases fs with
    | nil => rfl
    | cons f fs => simp [drained, empty f (.head _)]
  | cons f free => rfl

/-- A ring just purged has nothing of a stream in it. -/
theorem Streamed.reset (size : p.rxDescriptors.length = mem.rxNum)
    (buffers : ∀ f ∈ p.rxDescriptors, f.buffer.length = mem.rxSize) :
    Streamed mem (resetRx mem p) [] (p.rxDescriptors.map (purgedRxFrame mem)) where
  ring := rxRing_reset mem size buffers
  inside := by simp
  words := by simp [purgedRxFrame]
  unframed := rfl

theorem ringBytes_resetRx (size : p.rxDescriptors.length = mem.rxNum)
    (buffers : ∀ f ∈ p.rxDescriptors, f.buffer.length = mem.rxSize) :
    (resetRx mem p).ringBytes = [] := by
  rw [(Streamed.reset size buffers).pieces.ringBytes_eq, drained_purged]
  rfl

/-- What a reader with room for `space` makes of the ring: `finished'` and `free'` are left of
`finished` and `free`. -/
structure StreamLeft (mem : Memory) (finished free : List IoFrame) (space : Nat) (p' : RxPort)
    (finished' free' : List IoFrame) : Prop where
  streamed : Streamed mem p' finished' free'
  data : finished'.map IoFrame.data = (Chunks.read space (finished.map IoFrame.data)).2
  drained : drained [] free' = drained [] free

/-- A read of a ring without frames leaves one. -/
theorem Streamed.read (h : Streamed mem p finished free) {bufLength : Nat}
    (size : bufLength < 18446744073709551616) (unmovedBytes : Nat) :
    let taken := Chunks.read bufLength (finished.map IoFrame.data)
    (∃ finished' free', StreamLeft mem finished free bufLength
        (userReadStream mem bufLength true unmovedBytes p).2 finished' free') ∧
      streamOutLength mem bufLength p = taken.1.length ∧
      (userReadStream mem bufLength true unmovedBytes p).1 =
        taken.1.take (taken.1.length - unmovedBytes) := by
  obtain ⟨⟨finished', free', left⟩, out, result⟩ := h.pieces.read size unmovedBytes
  obtain ⟨fs, rfl, empty⟩ := left.emptied
  refine ⟨⟨finished', free ++ fs, ?_⟩, out, result⟩
  exact {
    streamed := {
      ring := left.pieces.ring
      inside := left.pieces.inside
      words := by
        intro f member
        rcases List.mem_append.mp member with old | new
        · exact h.words f old
        · rw [empty f new]
      unframed := left.frameSize.trans h.unframed }
    data := left.data
    drained := drained_append_empty empty free }

/-! ### The drain's end of the ring -/

/-- What a pass of the drain that puts `data` in the descriptor `f` can do without frames. The flag
is the `CSTOP` of what it leaves there. -/
inductive StreamPass (mem : Memory) (finished : List IoFrame) (f : IoFrame) (rest : List IoFrame)
    (data : List UInt8) (p' : RxPort) : Bool → Prop
  | full (g : IoFrame) :
      g.data = f.buffer.take f.count ++ data → Streamed mem p' (finished ++ [g]) rest →
      StreamPass mem finished f rest data p' true
  | more (g : IoFrame) :
      g.buffer.take g.count = f.buffer.take f.count ++ data →
      Streamed mem p' finished (g :: rest) → StreamPass mem finished f rest data p' false

namespace Streamed

variable (h : Streamed mem p finished (f :: rest)) (d : δ)
  (unframed : (drainSize dev p d).1 = 0)
include h unframed

/-- The drain takes whole words. -/
theorem drainData_words : (f.count + (drainData dev mem p d).1.length) % 4 = 0 := by
  have length := drainLength_unknown dev mem h.ring d unframed
  have count := h.words f (.head _)
  have room := h.ring.free_room f (.head _)
  have words := mem.rxSize_words
  rw [length_drainData]
  omega

/-- A pass of the drain goes on filling its descriptor, and finishes it when it is full. -/
theorem pass :
    StreamPass mem finished f rest (drainData dev mem p d).1
        (p.store mem (fifoReadPass dev mem p d).1)
        (hasCstop (fifoReadPass dev mem p d).1.newControl) ∧
      hasCstop (fifoReadPass dev mem p d).1.newControl =
        decide (f.count + (drainData dev mem p d).1.length = mem.rxSize) := by
  have filled := Framed.filled dev h.ring d
  have room := filled.room
  have words := h.drainData_words dev d unframed
  -- Streaming: a pass knows of no frame, and ends a descriptor only when it is full.
  have going : ¬(0 < (fifoReadFetch dev mem p.load d).1.rxFrameSize ∧
      (fifoReadFetch dev mem p.load d).1.rxFrameSize ≤
        (fifoReadFetch dev mem p.load d).1.rxBytesInFrame) := by
    rw [fetch_eq]
    dsimp only
    omega
  have size : (fifoReadFetch dev mem p.load d).1.rxFrameSize = 0 := unframed
  unfold fifoReadPass
  generalize fifoReadFetch dev mem p.load d = fetched at *
  obtain ⟨s, d'⟩ := fetched
  by_cases full : f.count + (drainData dev mem p d).1.length = mem.rxSize
  · have finish := finish_full dev mem s d' going (by rw [filled.count, full])
    have flag : hasCstop (fifoReadFinish dev mem s d').1.newControl = true := by rw [finish]; simp
    have buffer : (fifoReadFinish dev mem s d').1.frame.buffer = s.frame.buffer := by
      rw [finish]; simp
    have dataCount : (fifoReadFinish dev mem s d').1.frame.desc.dataCount = mem.rxSize := by
      rw [finish]; rfl
    rw [flag, decide_eq_true full]
    refine ⟨.full (fifoReadFinish dev mem s d').1.frame ?_ ?_, rfl⟩
    · rw [IoFrame.data, dataCount, buffer, bytesAt_eq (by rw [filled.buffer]), ← full]
      exact filled.content
    · exact {
        ring := h.ring.store_finished _ flag (by rw [finish]; rfl) (by rw [buffer, filled.buffer])
        inside := by
          intro g member
          rcases List.mem_append.mp member with old | new
          · exact h.inside g old
          · rw [List.mem_singleton.mp new, dataCount]
        words := fun g member => h.words g (.tail _ member)
        unframed := by rw [rxFrameSize_store, finish]; exact size }
  -- There is room left: the descriptor stays the one that is filled.
  · have finish := finish_more dev mem s d' going (by rw [filled.count]; omega) filled.cstop
    have count : (fifoReadFinish dev mem s d').1.frame.count =
        f.count + (drainData dev mem p d).1.length := by
      rw [finish]; exact filled.count
    have flag : hasCstop (fifoReadFinish dev mem s d').1.newControl = false := by
      rw [finish]; exact filled.cstop
    have buffer : (fifoReadFinish dev mem s d').1.frame.buffer = s.frame.buffer := by
      rw [finish]; rfl
    rw [flag, decide_eq_false full]
    refine ⟨.more (fifoReadFinish dev mem s d').1.frame ?_ ?_, rfl⟩
    · rw [count, buffer]
      exact filled.content
    · exact {
        ring := h.ring.store_open _ flag (by rw [finish]; rfl) (by rw [buffer, filled.buffer])
          (by rw [finish]; exact filled.fe) (by rw [count]; omega)
        inside := h.inside
        words := by
          intro g member
          rcases List.mem_cons.mp member with rfl | old
          · rw [count]
            exact words
          · exact h.words g (.tail _ old)
        unframed := by rw [rxFrameSize_store, finish]; exact size }

end Streamed

end Fscc
