import Fscc.RxBounds
import Fscc.RxStream

/-!
# The receive ring under any calls

Drains, reads of frames, reads of the stream and purges in any order, over any device. What stays
of the ring is less than what holds in one mode: finished descriptors from `user_rx_desc` up to
`fifo_rx_desc`, of whatever frames, and whole words in the descriptor that is being filled.
-/

namespace Fscc

open CInt

variable {δ : Type} (dev : Device δ) (mem : Memory)

/-! ### What the calls keep -/

/-- The receive ring between calls. -/
structure RxKept (p : RxPort) (finished free : List IoFrame) : Prop where
  pieces : Pieces mem p finished free
  words : headCount free % 4 = 0
  bytes_range : -2147483648 ≤ p.rxBytesInFrame ∧ p.rxBytesInFrame < 2147483648
  size_range : -2147483648 ≤ p.rxFrameSize ∧ p.rxFrameSize < 2147483648

/-- A pass takes a length that is negative as an `int`, and yet above the bytes counted: what it
asks for of the frame is less than the room, and not whole words. -/
def SplitsWord (p : RxPort) (d : δ) : Prop :=
  (drainSize dev p d).1 < 0 ∧ p.rxBytesInFrame < (drainSize dev p d).1 ∧
    (drainSize dev p d).1 - p.rxBytesInFrame < (mem.rxSize : Int) - p.fifoFrame.count ∧
    ((drainSize dev p d).1 - p.rxBytesInFrame) % 4 ≠ 0

variable {mem}

private theorem toInt32_range (x : Int) : -2147483648 ≤ toInt32 x ∧ toInt32 x < 2147483648 := by
  unfold toInt32
  rw [Int.bmod_def]
  omega

/-! ### One pass of the drain -/

variable (mem) in
/-- The counters after the first half of a pass. -/
theorem fetched_counters (p : RxPort) (d : δ) :
    (fifoReadFetch dev mem p.load d).1.rxBytesInFrame =
        toInt32 (p.rxBytesInFrame + (drainLength dev mem p d).1) ∧
      (fifoReadFetch dev mem p.load d).1.rxFrameSize = (drainSize dev p d).1 := by
  rw [fetch_eq]
  exact ⟨rfl, rfl⟩

variable (mem) in
/-- The counters after a pass. -/
private theorem pass_range {p : RxPort}
    (range : -2147483648 ≤ p.rxFrameSize ∧ p.rxFrameSize < 2147483648) (d : δ) :
    (-2147483648 ≤ (fifoReadPass dev mem p d).1.rxBytesInFrame ∧
        (fifoReadPass dev mem p d).1.rxBytesInFrame < 2147483648) ∧
      -2147483648 ≤ (fifoReadPass dev mem p d).1.rxFrameSize ∧
        (fifoReadPass dev mem p d).1.rxFrameSize < 2147483648 := by
  have size := drainSize_range dev range d
  have bytes := toInt32_range (p.rxBytesInFrame + (drainLength dev mem p d).1)
  rw [fifoReadPass, fetch_eq]
  simp only [fifoReadFinish]
  constructor
  · split
    next => omega
    next => exact bytes
  · split
    next => omega
    next => exact size

/-- One pass of the drain, over any device: it finishes the descriptor, or leaves it with what it has
put there. -/
theorem Pieces.pass {p : RxPort} {finished rest : List IoFrame} {f : IoFrame}
    (h : Pieces mem p finished (f :: rest)) (d : δ) :
    (∃ g, Pieces mem (p.store mem (fifoReadPass dev mem p d).1) (finished ++ [g]) rest ∧
        g.desc.dataCount = mem.rxSize) ∨
      ∃ g, Pieces mem (p.store mem (fifoReadPass dev mem p d).1) finished (g :: rest) ∧
        g.count = f.count + (drainLength dev mem p d).1 ∧
        ¬(0 < (drainSize dev p d).1 ∧ (drainSize dev p d).1 ≤
          toInt32 (p.rxBytesInFrame + (drainLength dev mem p d).1)) := by
  have ring := h.ring
  have filled := Framed.filled dev ring d
  have length := length_drainData dev mem p d
  have counters := fetched_counters dev mem p d
  unfold fifoReadPass
  generalize (fifoReadFetch dev mem p.load d).1 = s at *
  generalize (fifoReadFetch dev mem p.load d).2 = d'
  -- In both cases of an end the descriptor is full by its count.
  have finishes (done : hasCstop (fifoReadFinish dev mem s d').1.newControl = true)
      (same : (fifoReadFinish dev mem s d').1.frame.desc.control =
        (fifoReadFinish dev mem s d').1.newControl)
      (buffer : (fifoReadFinish dev mem s d').1.frame.buffer = s.frame.buffer)
      (count : (fifoReadFinish dev mem s d').1.frame.desc.dataCount = mem.rxSize) :
      ∃ g, Pieces mem (p.store mem (fifoReadFinish dev mem s d').1) (finished ++ [g]) rest ∧
        g.desc.dataCount = mem.rxSize := by
    refine ⟨_, ⟨ring.store_finished _ done same (by rw [buffer, filled.buffer]), ?_⟩, count⟩
    intro g member
    rcases List.mem_append.mp member with old | new
    · exact h.inside g old
    · rw [List.mem_singleton.mp new, count]
  -- The source asks first whether the frame ends, and then whether the descriptor is full.
  by_cases ended : 0 < s.rxFrameSize ∧ s.rxFrameSize ≤ s.rxBytesInFrame
  · have finish := finish_last dev mem s d' ended
    exact .inl (finishes (by rw [finish]; simp) (by rw [finish]; rfl) (by rw [finish]; simp)
      (by rw [finish]; rfl))
  · by_cases full : mem.rxSize ≤ cnt s.newControl
    · have finish := finish_full dev mem s d' ended full
      exact .inl (finishes (by rw [finish]; simp) (by rw [finish]; rfl) (by rw [finish]; simp)
        (by rw [finish]; rfl))
    · have room : cnt s.newControl < mem.rxSize := Nat.not_le.mp full
      have finish := finish_more dev mem s d' ended room filled.cstop
      have count : (fifoReadFinish dev mem s d').1.frame.count = cnt s.newControl := by
        rw [finish]; rfl
      rw [counters.1, counters.2] at ended
      refine .inr ⟨(fifoReadFinish dev mem s d').1.frame, ⟨?_, h.inside⟩, ?_, ended⟩
      · exact ring.store_open _ (by rw [finish]; exact filled.cstop) (by rw [finish]; rfl)
          (by rw [finish]; exact filled.buffer) (by rw [finish]; exact filled.fe)
          (by rw [count]; exact room)
      · rw [count, filled.count, length]

namespace RxKept

variable {p : RxPort} {finished free rest : List IoFrame} {f : IoFrame}

/-- With a length, the drain takes what is missing of the frame, if that is less than the room. -/
theorem length_known (h : RxKept mem p finished (f :: rest)) (d : δ)
    (known : (drainSize dev p d).1 ≠ 0) :
    (drainLength dev mem p d).1 =
      min ((drainSize dev p d).1 - p.rxBytesInFrame).toNat (mem.rxSize - f.count) := by
  have size := drainSize_range dev h.size_range d
  have bytes := h.bytes_range
  have wanted : (if p.rxBytesInFrame < (drainSize dev p d).1
      then ofInt32 ((drainSize dev p d).1 - p.rxBytesInFrame) else 0) =
      ((drainSize dev p d).1 - p.rxBytesInFrame).toNat := by
    unfold ofInt32
    split <;> omega
  simp only [drainLength, receiveLength, if_pos known, room_eq mem h.pieces.ring, wanted]

/-- A pass that neither ends a frame nor fills its descriptor takes whole words. -/
private theorem length_words (h : RxKept mem p finished (f :: rest)) (d : δ)
    (going : ¬(0 < (drainSize dev p d).1 ∧ (drainSize dev p d).1 ≤
      toInt32 (p.rxBytesInFrame + (drainLength dev mem p d).1)))
    (room : f.count + (drainLength dev mem p d).1 < mem.rxSize)
    (whole : ¬SplitsWord dev mem p d) : (drainLength dev mem p d).1 % 4 = 0 := by
  have words := mem.rxSize_words
  have size := drainSize_range dev h.size_range d
  have bytes := h.bytes_range
  have count := h.words
  rw [headCount] at count
  by_cases unknown : (drainSize dev p d).1 = 0
  · rw [drainLength_unknown dev mem h.pieces.ring d unknown] at room ⊢
    omega
  · have taken := h.length_known dev d unknown
    -- With a length that is positive all that is missing of the frame would end it.
    have negative : (drainSize dev p d).1 < 0 := by
      by_contra positive
      by_cases behind : p.rxBytesInFrame < (drainSize dev p d).1
      · have missing : p.rxBytesInFrame + ((drainLength dev mem p d).1 : Int) =
            (drainSize dev p d).1 := by omega
        have same : toInt32 (drainSize dev p d).1 = (drainSize dev p d).1 := by
          unfold toInt32
          rw [Int.bmod_def]
          omega
        rw [missing, same] at going
        omega
      · have none_ : (drainLength dev mem p d).1 = 0 := by omega
        have same : toInt32 p.rxBytesInFrame = p.rxBytesInFrame := by
          unfold toInt32
          rw [Int.bmod_def]
          omega
        rw [none_, Int.natCast_zero, Int.add_zero, same] at going
        omega
    unfold SplitsWord at whole
    rw [h.pieces.ring.fifoFrame_eq] at whole
    have roomy := h.pieces.ring.free_room f (.head _)
    omega

/-- One pass of the drain keeps the ring. -/
theorem pass (h : RxKept mem p finished (f :: rest)) (d : δ) (whole : ¬SplitsWord dev mem p d) :
    ∃ finished' free',
      RxKept mem (p.store mem (fifoReadPass dev mem p d).1) finished' free' := by
  have ring := h.pieces.ring
  obtain ⟨bytes, size⟩ := pass_range dev mem h.size_range d
  rcases h.pieces.pass dev d with ⟨g, kept, -⟩ | ⟨g, kept, count, going⟩
  · have later : headCount rest = 0 := by
      cases rest with
      | nil => rfl
      | cons g rest => exact ring.later_empty g (.head _)
    exact ⟨_, rest, kept, by rw [later], bytes, size⟩
  · have room := kept.ring.free_room g (.head _)
    have old := h.words
    have new := h.length_words dev d going (by omega) whole
    rw [headCount] at old
    exact ⟨finished, g :: rest, kept, by rw [headCount]; omega, bytes, size⟩

end RxKept

/-! ### Reads of frames -/

section Read

variable (settings : Settings) {bufLength : Nat} {p : RxPort} {finished free : List IoFrame}

theorem RxRing.window (h : RxRing mem p finished free) : Window mem p finished free where
  size := h.size
  user_lt := h.user_lt
  view := h.view
  pending_done := by
    intro f member
    rw [IoFrame.isOpen, h.finished_cstop f member, Bool.not_true, Bool.and_false]
  rest_open := by
    intro f member
    have opened := h.free_open f (List.mem_of_mem_head? member)
    rw [IoFrame.isOpen, opened.1, opened.2]
    rfl

/-- The locals of the read loop count no more than the frame at the front has left. -/
def Within (finished : List IoFrame) (r : Reading) : Prop :=
  ∃ g, finished.find? IoFrame.isFinal = some g ∧ r.bytesInDescs + r.filledFrameSize ≤ g.count

namespace Within

variable {r : Reading} {f : IoFrame} {fs : List IoFrame}

/-- At the final descriptor all the rest of the frame is planned. -/
theorem final (left : Within (f :: fs) r) (last : f.isFinal = true) :
    r.bytesInDescs + r.filledFrameSize ≤ f.count ∧
      plannedMoveSize f r = f.count - r.filledFrameSize := by
  obtain ⟨g, first, le⟩ := left
  rw [List.find?_cons, last] at first
  obtain rfl := Option.some.inj first
  have small := count_lt f
  have both : (f.fe && f.cstop) = true := last
  exact ⟨le, by rw [plannedMoveSize, if_pos both, subSize_eq (by omega) (by omega)]⟩

/-- In the middle of a frame. -/
private theorem going (left : Within (f :: fs) r) (more : r.bytesInDescs - plannedMoveSize f r ≠ 0)
    (d : δ) :
    Within fs (readDescriptor dev settings f r d).2.1 := by
  have later : f.isFinal = false := by
    cases last : f.isFinal with
    | false => rfl
    | true =>
      obtain ⟨le, planned⟩ := left.final last
      omega
  obtain ⟨g, first, le⟩ := left
  have small := count_lt g
  rw [List.find?_cons, later] at first
  refine ⟨g, first, ?_⟩
  rw [readDescriptor_eq dev settings f r d (plannedMoveSize f r) rfl]
  dsimp only
  rw [addSize_eq (by omega)]
  omega

/-- At the start of the next frame. -/
private theorem next {r' : Reading} (ring : RxRing mem p finished free)
    (next_ : nextFrame settings bufLength (userNextReadSize mem p) r = some r') :
    Within finished r' := by
  obtain ⟨ready, bytes, filled⟩ := nextFrame_some next_
  cases first : finished.find? IoFrame.isFinal with
  | none =>
    rw [ring.window.next_none first] at ready
    cases ready
  | some g =>
    rw [ring.window.next_final first] at bytes
    exact ⟨g, first, by rw [bytes, filled]; exact Nat.le_refl _⟩

end Within

variable (bufLength) in
/-- One pass of the loop of `fscc_user_read_frame`: it stops at the end of a frame, or goes on in the
frame or with the next. -/
theorem RxRing.readLoop_succ {fs : List IoFrame} {f : IoFrame}
    (ring : RxRing mem p (f :: fs) free) {r : Reading} (left : Within (f :: fs) r) (passes : Nat)
    (d : δ) :
    let read := readDescriptor dev settings f r d
    let p' := p.putUser mem (freed f)
    RxRing mem p' fs (free ++ [freed f]) ∧
      (userReadLoop dev mem settings bufLength (passes + 1) p r d = (p', read.2) ∨
        ∃ r', Within fs r' ∧
          (r' = read.2.1 ∨ ∃ bytes valid, r' = { read.2.1 with
            bytesInDescs := bytes, totalValidData := valid, filledFrameSize := 0 }) ∧
          userReadLoop dev mem settings bufLength (passes + 1) p r d =
            userReadLoop dev mem settings bufLength passes p' r' read.2.2) := by
  have after := ring.putUser (freed f) (freed_empty f).1 (freed_empty f).2
    (ring.buffers f (.head _))
  have going := left.going dev settings (d := d)
  have eq := readDescriptor_eq dev settings f r d (plannedMoveSize f r) rfl
  have freed_ : (readDescriptor dev settings f r d).1 = freed f := by rw [eq]
  have ended_ : (readDescriptor dev settings f r d).2.1.bytesInDescs =
      r.bytesInDescs - plannedMoveSize f r := by rw [eq]
  refine ⟨after, ?_⟩
  rw [userReadLoop, ring.userFrame_eq]
  dsimp only
  rw [freed_]
  split
  -- The frame is over: the loop stops, or goes on with the counters of the next frame.
  next ended =>
    split
    next => exact .inl rfl
    next r' next_ =>
      refine .inr ⟨r', Within.next settings after next_, .inr ?_, rfl⟩
      obtain ⟨-, -, -, same⟩ := nextFrame_eq_some.mp next_
      exact ⟨_, _, same⟩
  -- The frame goes on in the next descriptor.
  next more =>
    rw [ended_] at more
    exact .inr ⟨_, going more, .inl rfl, rfl⟩

/-- The loop of `fscc_user_read_frame` frees finished descriptors from the oldest on, and what each
of its passes keeps it keeps. It stops at the latest where the frame ends whose length it was
told. -/
theorem RxRing.readLoop_rule {P : List IoFrame → Reading → Prop}
    (pass : ∀ f fs r (d : δ), Within (f :: fs) r → P (f :: fs) r →
      P fs (readDescriptor dev settings f r d).2.1)
    (next : ∀ fs r bytes valid, P fs r →
      P fs { r with bytesInDescs := bytes, totalValidData := valid, filledFrameSize := 0 })
    (ring : RxRing mem p finished free) {r : Reading} (left : Within finished r)
    (holds : P finished r) (passes : Nat) (d : δ) :
    ∃ gone kept, finished = gone ++ kept ∧
      RxRing mem (userReadLoop dev mem settings bufLength passes p r d).1 kept
        (free ++ gone.map freed) ∧
      p.SameDrain (userReadLoop dev mem settings bufLength passes p r d).1 ∧
      P kept (userReadLoop dev mem settings bufLength passes p r d).2.1 := by
  -- Induction on the passes. The descriptor that ends the frame keeps the loop inside the ring.
  induction passes generalizing p finished free r d with
  | zero => exact ⟨[], finished, rfl, by simpa [userReadLoop] using ring, ⟨rfl, rfl, rfl⟩, holds⟩
  | succ passes ih =>
    obtain ⟨f, fs, rfl⟩ : ∃ f fs, finished = f :: fs := by
      obtain ⟨g, final, -⟩ := left
      cases finished with
      | nil => cases final
      | cons f fs => exact ⟨f, fs, rfl⟩
    have kept := pass f fs r d left holds
    obtain ⟨after, stop | ⟨r', left', which, loop⟩⟩ := ring.readLoop_succ dev settings
      bufLength left passes d
    · rw [stop]
      exact ⟨[f], fs, rfl, after, ⟨rfl, rfl, rfl⟩, kept⟩
    · have holds' : P fs r' := by
        rcases which with rfl | ⟨bytes, valid, rfl⟩
        · exact kept
        · exact next fs _ bytes valid kept
      obtain ⟨gone, rest, split, ring', same, holds''⟩ := ih after left' holds' _
      rw [loop]
      refine ⟨f :: gone, rest, by rw [split, List.cons_append], ?_, same, holds''⟩
      rw [List.append_assoc] at ring'
      exact ring'

/-- Of the ring, the loop keeps the rest of the finished descriptors. -/
private theorem RxRing.readLoop (ring : RxRing mem p finished free) {r : Reading}
    (left : Within finished r) (passes : Nat) (d : δ) :
    ∃ gone kept, finished = gone ++ kept ∧
      RxRing mem (userReadLoop dev mem settings bufLength passes p r d).1 kept
        (free ++ gone.map freed) ∧
      p.SameDrain (userReadLoop dev mem settings bufLength passes p r d).1 := by
  obtain ⟨gone, kept, split, ring', same, -⟩ := ring.readLoop_rule dev settings
    (P := fun _ _ => True) (fun _ _ _ _ _ _ => trivial) (fun _ _ _ _ _ => trivial) left trivial
    passes d
  exact ⟨gone, kept, split, ring', same⟩

/-- A read of frames frees finished descriptors from the oldest on, whatever frames they are of. -/
theorem RxRing.userReadFrame_any (ring : RxRing mem p finished free) (bufLength : Nat)
    (alloc : Bool) (unmovedBytes : Nat) (d : δ) :
    ∃ gone kept, finished = gone ++ kept ∧
      RxRing mem (Fscc.userReadFrame dev mem settings bufLength alloc unmovedBytes p d).2.1 kept
        (free ++ gone.map freed) ∧
      p.SameDrain (Fscc.userReadFrame dev mem settings bufLength alloc unmovedBytes p d).2.1 := by
  have same : ∃ gone kept, finished = gone ++ kept ∧ RxRing mem p kept (free ++ gone.map freed) ∧
      p.SameDrain p := ⟨[], finished, rfl, by simpa using ring, rfl, rfl, rfl⟩
  unfold Fscc.userReadFrame
  split
  next => exact same
  next =>
    dsimp only
    split
    next => exact same
    next ready =>
      split
      next => exact same
      next =>
        cases first : finished.find? IoFrame.isFinal with
        | none =>
          rw [ring.window.next_none first] at ready
          exact absurd rfl ready
        | some g =>
          refine ring.readLoop dev settings ⟨g, first, ?_⟩ mem.rxNum d
          rw [ring.window.next_final first]
          exact Nat.le_refl _

end Read

namespace RxKept

variable {p : RxPort} {finished free : List IoFrame}

private theorem readFrame (h : RxKept mem p finished free) (settings : Settings) (bufLength : Nat)
    (alloc : Bool) (unmovedBytes : Nat) (d : δ) :
    ∃ finished' free', RxKept mem
      (userReadFrame dev mem settings bufLength alloc unmovedBytes p d).2.1 finished' free' := by
  obtain ⟨gone, kept, rfl, ring, bytes, size, -⟩ :=
    h.pieces.ring.userReadFrame_any dev settings bufLength alloc unmovedBytes d
  refine ⟨kept, free ++ gone.map freed, ⟨ring, ?_⟩, ?_, ?_, ?_⟩
  · exact fun f member => h.pieces.inside f (List.mem_append_right _ member)
  · rw [headCount_append_freed]
    exact h.words
  · rw [bytes]
    exact h.bytes_range
  · rw [size]
    exact h.size_range

theorem readStream (h : RxKept mem p finished free) (bufLength : BitVec 64) (alloc : Bool)
    (unmovedBytes : Nat) :
    ∃ finished' free', RxKept mem (userReadStream mem bufLength.toNat alloc unmovedBytes p).2
      finished' free' := by
  cases alloc with
  | false => exact ⟨finished, free, h⟩
  | true =>
    obtain ⟨⟨finished', free', left⟩, -⟩ := h.pieces.read bufLength.isLt unmovedBytes
    obtain ⟨more, rfl, empty⟩ := left.emptied
    refine ⟨finished', free ++ more, left.pieces, ?_, ?_, ?_⟩
    · cases free with
      | cons f free => exact h.words
      | nil =>
        cases more with
        | nil => rfl
        | cons f more =>
          change f.count % 4 = 0
          rw [empty f (.head _)]
    · rw [left.bytesInFrame]
      exact h.bytes_range
    · rw [left.frameSize]
      exact h.size_range

theorem purge (size : p.rxDescriptors.length = mem.rxNum)
    (buffers : ∀ f ∈ p.rxDescriptors, f.buffer.length = mem.rxSize) :
    RxKept mem (resetRx mem p) [] (p.rxDescriptors.map (purgedRxFrame mem)) where
  pieces := ⟨rxRing_reset mem size buffers, List.forall_mem_nil _⟩
  words := by rw [headCount_purged]
  bytes_range := by simp [resetRx]
  size_range := by simp [resetRx]

end RxKept

/-! ### The ring -/

/-- The receive ring as every call finds it: its finished descriptors are those from `user_rx_desc`
up to `fifo_rx_desc`, and of the others only the one there holds anything, in whole words. -/
structure RxProper (mem : Memory) (p : RxPort) : Prop where
  size : p.rxDescriptors.length = mem.rxNum
  user_lt : p.userRxDesc < mem.rxNum
  fifo_lt : p.fifoRxDesc < mem.rxNum
  interval : ∃ n ≤ mem.rxNum, p.fifoRxDesc = Ring.slot mem.rxNum p.userRxDesc n ∧
    ∀ k < mem.rxNum,
      (p.rxDescriptors.getD (Ring.slot mem.rxNum p.userRxDesc k) default).cstop = true ↔ k < n
  empty : ∀ i < mem.rxNum, i ≠ p.fifoRxDesc →
    (p.rxDescriptors.getD i default).cstop = false → (p.rxDescriptors.getD i default).count = 0
  filling : p.fifoFrame.cstop = false →
    p.fifoFrame.count < mem.rxSize ∧ p.fifoFrame.count % 4 = 0

namespace RxRing

variable {p : RxPort} {finished free : List IoFrame}

theorem fifo_lt (h : RxRing mem p finished free) : p.fifoRxDesc < mem.rxNum := by
  rw [h.fifo]
  exact Ring.slot_lt mem.rxNum_pos

/-- The descriptor `k` places after `user_rx_desc`. -/
private theorem getD_slot (h : RxRing mem p finished free) {k : Nat} (lt : k < mem.rxNum) :
    p.rxDescriptors.getD (Ring.slot mem.rxNum p.userRxDesc k) default =
      (finished ++ free).getD k default := by
  rw [← h.size, Ring.getD_slot default (by rw [h.size]; exact lt), h.view]

private theorem finished_iff (h : RxRing mem p finished free) {k : Nat} (lt : k < mem.rxNum) :
    (p.rxDescriptors.getD (Ring.slot mem.rxNum p.userRxDesc k) default).cstop = true ↔
      k < finished.length := by
  have sum := h.length_add
  rw [h.getD_slot lt, List.getD_eq_getElem?_getD]
  by_cases inside : k < finished.length
  · rw [List.getElem?_append_left inside, List.getElem?_eq_getElem inside, Option.getD_some]
    exact ⟨fun _ => inside, fun _ => h.finished_cstop _ (List.getElem_mem inside)⟩
  · have lt' : k - finished.length < free.length := by omega
    rw [List.getElem?_append_right (by omega), List.getElem?_eq_getElem lt', Option.getD_some,
      (h.free_open _ (List.getElem_mem lt')).2]
    exact ⟨fun closed => absurd closed Bool.false_ne_true, fun inside' => absurd inside' inside⟩

/-- Free descriptors other than the first hold nothing. -/
private theorem count_later (h : RxRing mem p finished free) {k : Nat} (lt : k < mem.rxNum)
    (later : finished.length < k) :
    (p.rxDescriptors.getD (Ring.slot mem.rxNum p.userRxDesc k) default).count = 0 := by
  have sum := h.length_add
  have lt' : k - finished.length < free.length := by omega
  rw [h.getD_slot lt, List.getD_eq_getElem?_getD, List.getElem?_append_right (by omega),
    List.getElem?_eq_getElem lt', Option.getD_some]
  apply h.later_empty
  cases free with
  | nil => exact absurd lt' (Nat.not_lt_zero _)
  | cons f rest =>
    obtain ⟨m, eq⟩ : ∃ m, k - finished.length = m + 1 := ⟨k - finished.length - 1, by omega⟩
    simp only [eq, List.getElem_cons_succ, List.tail_cons]
    exact List.getElem_mem _

end RxRing

private theorem RxKept.proper {p : RxPort} {finished free : List IoFrame}
    (h : RxKept mem p finished free) : RxProper mem p := by
  have ring := h.pieces.ring
  have sum := ring.length_add
  exact {
    size := ring.size
    user_lt := ring.user_lt
    fifo_lt := ring.fifo_lt
    interval := ⟨finished.length, by omega, ring.fifo, fun k lt => ring.finished_iff lt⟩
    empty := by
      intro i lt other opened
      obtain ⟨k, near, rfl⟩ := Ring.exists_slot ring.user_lt lt
      have unfinished : ¬k < finished.length := by
        intro inside
        rw [(ring.finished_iff near).mpr inside] at opened
        cases opened
      have elsewhere : k ≠ finished.length := by
        rintro rfl
        exact other ring.fifo.symm
      exact ring.count_later near (by omega)
    filling := by
      intro opened
      cases free with
      | nil =>
        rw [ring.fifoFrame_full] at opened
        cases opened
      | cons f rest =>
        rw [ring.fifoFrame_eq]
        exact ⟨ring.free_room f (.head _), h.words⟩ }

/-! ### Runs -/

/-- Every pass that a drain makes meets `ok`, a condition on the port before it and on the device. -/
def EveryPass (mem : Memory) (ok : RxPort → δ → Prop) : Nat → RxPort → δ → Prop
  | 0, _, _ => True
  | passes + 1, p, d => p.fifoFrame.cstop = false →
    ok p d ∧ (hasCstop (fifoReadPass dev mem p d).1.newControl = true →
      EveryPass mem ok passes (p.store mem (fifoReadPass dev mem p d).1)
        (fifoReadPass dev mem p d).2)

/-- What each pass that meets `ok` keeps, the drain keeps. -/
theorem EveryPass.drain {ok : RxPort → δ → Prop} {P : RxPort → Prop}
    (kept : ∀ p d, P p → p.fifoFrame.cstop = false → ok p d →
      P (p.store mem (fifoReadPass dev mem p d).1))
    {n : Nat} {p : RxPort} {d : δ} (holds : P p) (every : EveryPass dev mem ok n p d) :
    P (fifoReadLoop dev mem n p d).1 := by
  refine fifoReadLoop_rule dev mem (P := fun n p d => P p ∧ EveryPass dev mem ok n p d)
    (Q := fun p _ => P p) (fun _ _ h => h.1) (fun _ _ _ h _ => h.1) ?_ ?_ ⟨holds, every⟩
  · intro n p d h opened done
    obtain ⟨met, later⟩ := h.2 opened
    exact ⟨kept p d h.1 opened met, later done⟩
  · intro n p d h opened _
    exact kept p d h.1 opened (h.2 opened).1

/-- A drain, a read of frames or of the stream, or a purge, the device in any state. -/
inductive RingCall (δ : Type) where
  | drain (d : δ)
  | readFrame (settings : Settings) (bufLength : Nat) (alloc : Bool) (unmovedBytes : Nat) (d : δ)
  | readStream (bufLength : BitVec 64) (alloc : Bool) (unmovedBytes : Nat)
  | purge (d : δ)

variable (mem) (cfg : PortConfig)

/-- From a purge on, any calls in any order. -/
def ringCalls : Machine RxPort (RingCall δ) where
  init p := Fresh mem p
  step p
    | .drain d => some (fifoReadData dev mem p d).1
    | .readFrame settings bufLength alloc unmovedBytes d =>
      some (userReadFrame dev mem settings bufLength alloc unmovedBytes p d).2.1
    | .readStream bufLength alloc unmovedBytes =>
      some (userReadStream mem bufLength.toNat alloc unmovedBytes p).2
    | .purge d => some (ioPurgeRx dev mem cfg p d).1

/-- A port reads the stream, or it reads frames. -/
def RingCall.inMode (streaming : Bool) : RingCall δ → Bool
  | .drain _ => true
  | .readFrame _ _ _ _ _ => !streaming
  | .readStream _ _ _ => streaming
  | .purge _ => true

/-- The calls of a port whose mode stays as it is. -/
def modeCalls (streaming : Bool) : Machine RxPort (RingCall δ) where
  init p := Fresh mem p
  step p e := if e.inMode streaming then (ringCalls dev mem cfg).step p e else none

private theorem reached_of_mode {streaming : Bool} {p : RxPort}
    (reached : (modeCalls dev mem cfg streaming).Reached p) : (ringCalls dev mem cfg).Reached p := by
  induction reached with
  | init fresh => exact .init fresh
  | step _ _ stepped ih =>
    exact .step ih trivial (Option.ite_none_right_eq_some.mp stepped).2

/-- No pass of a drain takes part of a word. -/
def WholeWords (p : RxPort) : RingCall δ → Prop
  | .drain d => EveryPass dev mem (fun p d => ¬SplitsWord dev mem p d) mem.rxNum p d
  | _ => True

instance SplitsWord.decidable (p : RxPort) (d : δ) : Decidable (SplitsWord dev mem p d) :=
  inferInstanceAs (Decidable (_ ∧ _ ∧ _ ∧ _))

instance EveryPass.decidable (ok : RxPort → δ → Prop) [∀ p d, Decidable (ok p d)] :
    (n : Nat) → (p : RxPort) → (d : δ) → Decidable (EveryPass dev mem ok n p d)
  | 0, _, _ => .isTrue trivial
  | passes + 1, p, d =>
    have := EveryPass.decidable ok passes (p.store mem (fifoReadPass dev mem p d).1)
      (fifoReadPass dev mem p d).2
    inferInstanceAs (Decidable (_ → _ ∧ (_ → _)))

instance WholeWords.decidable (p : RxPort) : (e : RingCall δ) → Decidable (WholeWords dev mem p e)
  | .drain d => EveryPass.decidable dev mem _ mem.rxNum p d
  | .readFrame _ _ _ _ _ => .isTrue trivial
  | .readStream _ _ _ => .isTrue trivial
  | .purge _ => .isTrue trivial

variable {mem}

private theorem RxKept.step {p q : RxPort} {e : RingCall δ}
    (h : ∃ finished free, RxKept mem p finished free)
    (met : WholeWords dev mem p e) (stepped : (ringCalls dev mem cfg).step p e = some q) :
    ∃ finished free, RxKept mem q finished free := by
  obtain ⟨finished, free, kept⟩ := h
  cases e with
  | drain d =>
    obtain rfl := Option.some.inj stepped
    refine EveryPass.drain dev (P := fun p => ∃ finished free, RxKept mem p finished free) ?_
      ⟨finished, free, kept⟩ met
    rintro p d ⟨finished, free, kept⟩ opened whole
    cases free with
    | nil =>
      rw [kept.pieces.ring.fifoFrame_full] at opened
      cases opened
    | cons f rest => exact kept.pass dev d whole
  | readFrame settings bufLength alloc unmovedBytes d =>
    obtain rfl := Option.some.inj stepped
    exact kept.readFrame dev settings bufLength alloc unmovedBytes d
  | readStream bufLength alloc unmovedBytes =>
    obtain rfl := Option.some.inj stepped
    exact kept.readStream bufLength alloc unmovedBytes
  | purge d =>
    obtain rfl := Option.some.inj stepped
    exact ⟨_, _, .purge kept.pieces.ring.size kept.pieces.ring.buffers_mem⟩

private theorem RxKept.fresh {p : RxPort} (fresh : Fresh mem p) :
    ∃ finished free, RxKept mem p finished free := by
  obtain ⟨q, rfl, size, buffers⟩ := fresh
  exact ⟨_, _, .purge size buffers⟩

/-- Over every sequence of drains, reads of either kind and purges, whatever the counters read: as
long as no pass takes a length that is negative as an `int` for one that is still to come, the ring
is in order. -/
theorem rx_ring_proper {p : RxPort}
    (reached : (ringCalls dev mem cfg).ReachedUnder (WholeWords dev mem) p) : RxProper mem p := by
  obtain ⟨finished, free, kept⟩ := Machine.ReachedUnder.invariant (m := ringCalls dev mem cfg)
    (P := fun p => ∃ finished free, RxKept mem p finished free) (fun _ => RxKept.fresh)
    (fun _ _ _ h met stepped => RxKept.step dev cfg h met stepped) reached
  exact kept.proper

/-! ### A stream of 2^31 bytes -/

/-- The port with `b` in `rx_bytes_in_frame`. -/
def RxPort.setBytes (p : RxPort) (b : Int) : RxPort := { p with rxBytesInFrame := b }

@[simp] theorem fifoFrame_setBytes (p : RxPort) (b : Int) :
    (p.setBytes b).fifoFrame = p.fifoFrame := rfl

@[simp] theorem userFrame_setBytes (p : RxPort) (b : Int) :
    (p.setBytes b).userFrame = p.userFrame := rfl

@[simp] theorem putUser_setBytes (p : RxPort) (b : Int) (f : IoFrame) :
    (p.setBytes b).putUser mem f = (p.putUser mem f).setBytes b := rfl

variable (mem) in
/-- Without a length, a pass looks at `rx_bytes_in_frame` only to add to it. -/
private theorem fifoReadPass_setBytes {p : RxPort} {d : δ} (unknown : (drainSize dev p d).1 = 0)
    (b : Int) :
    fifoReadPass dev mem (p.setBytes b) d =
      ({ (fifoReadPass dev mem p d).1 with
          rxBytesInFrame := toInt32 (b + (drainLength dev mem p d).1) },
        (fifoReadPass dev mem p d).2) := by
  have size : drainSize dev (p.setBytes b) d = drainSize dev p d := rfl
  have length : drainLength dev mem (p.setBytes b) d = drainLength dev mem p d := by
    simp only [drainLength, size, receiveLength, unknown, ne_eq, not_true_eq_false, if_false,
      fifoFrame_setBytes]
  have data : drainData dev mem (p.setBytes b) d = drainData dev mem p d := by
    simp only [drainData, length]
  rw [fifoReadPass, fifoReadPass, fetch_eq, fetch_eq, size, length, data, fifoFrame_setBytes]
  simp only [fifoReadFinish, unknown, lt_self_iff_false, false_and, decide_false,
    Bool.false_eq_true, if_false]
  rfl

/-- A read of the stream leaves it alone. -/
private theorem userReadStreamLoop_setBytes (bufLength passes outLength : Nat) (tempData : List UInt8)
    (p : RxPort) (b : Int) :
    userReadStreamLoop mem bufLength passes (p.setBytes b) outLength tempData =
      ((userReadStreamLoop mem bufLength passes p outLength tempData).1.setBytes b,
        (userReadStreamLoop mem bufLength passes p outLength tempData).2) := by
  induction passes generalizing p outLength tempData with
  | zero => rfl
  | succ passes ih =>
    rw [userReadStreamLoop, userReadStreamLoop, userFrame_setBytes]
    dsimp only
    split
    next => rfl
    next =>
      split
      next => rw [putUser_setBytes, ih]
      next => rfl

/-- A port whose ring has been read dry, with `b` in `rx_bytes_in_frame`. -/
def readDry (b : Int) : RxPort where
  rxDescriptors := [⟨⟨0#32, 8, 0#32⟩, 4096#32, List.replicate 8 0, .clear⟩]
  userRxDesc := 0
  fifoRxDesc := 0
  rxBytesInFrame := b
  rxFrameSize := 0

/-- The stream fills the descriptor and is read out of it. -/
private theorem readDry_round (b : Int) :
    (userReadStream .single 8 true 0 (fifoReadData constant .single (readDry b) 0x2000#32).1).2 =
      readDry (toInt32 (b + 8)) := by
  have pass := fifoReadPass_setBytes constant .single (p := readDry 0) (d := 0x2000#32)
    (by decide) b
  have opened : (readDry 0).fifoFrame.cstop = false := by decide
  have done : hasCstop (fifoReadPass constant .single (readDry 0) 0x2000#32).1.newControl = true := by
    decide
  have taken : (drainLength constant .single (readDry 0) 0x2000#32).1 = 8 := by decide
  have emptied : (userReadStreamLoop .single 8 1
      ((readDry 0).store .single (fifoReadPass constant .single (readDry 0) 0x2000#32).1) 0
        (List.replicate 8 0)).1 = (readDry 0).setBytes
          (fifoReadPass constant .single (readDry 0) 0x2000#32).1.rxBytesInFrame := by
    decide
  have drained : (fifoReadData constant .single (readDry b) 0x2000#32).1 =
      ((readDry 0).store .single (fifoReadPass constant .single (readDry 0) 0x2000#32).1).setBytes
        (toInt32 (b + 8)) := by
    rw [fifoReadData, show Memory.single.rxNum = 0 + 1 from rfl, fifoReadLoop_succ,
      show readDry b = (readDry 0).setBytes b from rfl, fifoFrame_setBytes, opened, pass, taken,
      if_neg Bool.false_ne_true, if_pos done, fifoReadLoop, Nat.cast_ofNat]
    generalize fifoReadPass constant .single (readDry 0) 0x2000#32 = s
    rfl
  rw [drained, userReadStream, show Memory.single.rxNum = 1 from rfl]
  simp only [Bool.not_true, Bool.false_eq_true, if_false]
  rw [userReadStreamLoop_setBytes, emptied]
  rfl

/-- As many rounds as it takes. -/
private theorem readDry_reached (n : Nat) :
    (modeCalls constant .single fifoConfig true).Reached (readDry (toInt32 (8 * (n + 1) : Nat))) := by
  induction n with
  | zero =>
    have fresh : (modeCalls constant .single fifoConfig true).Reached (freshRx .single [4096]) :=
      .init (fresh_freshRx .single rfl)
    refine fresh.replay [.drain 0x2000#32, .readStream 8#64 true 0] ?_
    decide
  | succ n ih =>
    refine ih.replay [.drain 0x2000#32, .readStream 8#64 true 0] ?_
    have round := readDry_round (toInt32 (8 * (n + 1) : Nat))
    have sum : toInt32 (toInt32 (8 * (n + 1) : Nat) + 8) = toInt32 (8 * (n + 1 + 1) : Nat) := by
      unfold toInt32
      rw [Int.bmod_add_bmod]
      congr 1
    rw [sum] at round
    exact congrArg some round

/-- After 2^31 bytes of a stream, `rx_bytes_in_frame` is negative. -/
theorem readDry_wrapped :
    (modeCalls constant .single fifoConfig true).Reached (readDry (-2147483648)) :=
  readDry_reached 268435455

/-- Then a length with its top bit set is taken for one byte still to come, and half a word is left
in the FIFO. -/
theorem word_split :
    ∃ p, (ringCalls constant .single fifoConfig).Reached p ∧ ¬RxProper .single p := by
  have wrapped := reached_of_mode constant .single fifoConfig readDry_wrapped
  refine ⟨_, wrapped.replay [.drain 0x80000001#32] rfl, fun proper => ?_⟩
  have words := (proper.filling (by decide)).2
  revert words
  decide

/-- Two descriptors are filled, and one is read. -/
def oneRead : List (RingCall (BitVec 32)) := [.drain 0x2000#32, .readStream 8#64 true 0]

theorem rx_ring_proper_read :
    ∃ p, (ringCalls constant .small fifoConfig).replay (freshRx .small [4096, 8192]) oneRead =
        some p ∧
      p.userRxDesc = 1 ∧ p.fifoRxDesc = 0 ∧ RxProper .small p := by
  obtain ⟨p, replayed, user, fifo⟩ : ∃ p, (ringCalls constant .small fifoConfig).replay
      (freshRx .small [4096, 8192]) oneRead = some p ∧ p.userRxDesc = 1 ∧ p.fifoRxDesc = 0 :=
    ⟨_, rfl, by decide, by decide⟩
  refine ⟨p, replayed, user, fifo, rx_ring_proper constant fifoConfig ?_⟩
  exact Machine.ReachedUnder.replay (.init (fresh_freshRx .small rfl)) oneRead (by decide) replayed

end Fscc
