import Fscc.RxRing

/-!
# Frames in the receive ring

In a framed mode the finished descriptors are whole frames, each a run of full
descriptors closed by one with `FE`, followed by the full descriptors of the frame that
is still being drained. `Framed` is this invariant; `Framed.pass` says what one pass of
the drain can do to it, over any device.
-/

namespace Fscc

open CInt

variable {δ : Type} (dev : Device δ) (mem : Memory)

/-- A descriptor filled by the drain without the end of a frame. -/
structure IoFrame.Full (f : IoFrame) : Prop where
  fe : f.fe = false
  cstop : f.cstop = true
  dataCount : f.desc.dataCount = mem.rxSize
  buffer : f.buffer.length = mem.rxSize

/-- The descriptors of one finalised frame, as far as they are in the ring. -/
structure FrameGroup where
  full : List IoFrame
  last : IoFrame
  full_ok : ∀ f ∈ full, f.Full mem
  last_fe : last.fe = true
  last_cstop : last.cstop = true
  last_buffer : last.buffer.length = mem.rxSize

variable {mem}

namespace FrameGroup

variable (g : FrameGroup mem)

def descs : List IoFrame := g.full ++ [g.last]

/-- The length of the frame, as its last descriptor has it. -/
def length : Nat := g.last.count

/-- The bytes of the frame. -/
def bytes : List UInt8 := (g.full.flatMap IoFrame.buffer ++ g.last.buffer).take g.length

/-- The descriptors have room for the frame. -/
def Fits : Prop := g.length ≤ (g.full.length + 1) * mem.rxSize

/-- The last descriptor holds at least one byte of the frame. -/
def Closed : Prop := g.full.length * mem.rxSize < g.length

end FrameGroup

/-- The bytes in the descriptor that the drain is filling. -/
def headCount : List IoFrame → Nat
  | [] => 0
  | f :: _ => f.count

/-- The bytes drained for the frame that is not finalised yet. -/
def drained (part : List IoFrame) : List IoFrame → List UInt8
  | [] => part.flatMap IoFrame.buffer
  | f :: _ => part.flatMap IoFrame.buffer ++ f.buffer.take f.count

theorem length_flatMap_buffer {fs : List IoFrame} (full : ∀ f ∈ fs, f.buffer.length = mem.rxSize) :
    (fs.flatMap IoFrame.buffer).length = fs.length * mem.rxSize := by
  induction fs with
  | nil => simp
  | cons f fs ih =>
    simp only [List.flatMap_cons, List.length_append, List.length_cons, Nat.succ_mul,
      ih fun g hg => full g (.tail _ hg), full f (.head _)]
    omega

variable (mem)

/-- The receive ring in a framed mode: the frames finalised, the full descriptors of the
frame that is being drained, and the free descriptors, the first of which may be begun. -/
structure Framed (p : RxPort) (groups : List (FrameGroup mem)) (part free : List IoFrame) :
    Prop where
  ring : RxRing mem p (groups.flatMap FrameGroup.descs ++ part) free
  part_ok : ∀ f ∈ part, f.Full mem
  words : ∀ f ∈ free, f.count % 4 = 0
  bytes : p.rxBytesInFrame = ((part.length * mem.rxSize + headCount free : Nat) : Int)
  unfinished : p.rxFrameSize ≤ 0 ∨ p.rxBytesInFrame < p.rxFrameSize
  size_range : -2147483648 ≤ p.rxFrameSize ∧ p.rxFrameSize < 2147483648

variable {mem}

namespace Framed

variable {p : RxPort} {groups : List (FrameGroup mem)} {part free rest : List IoFrame} {f : IoFrame}

theorem part_bound (h : Framed mem p groups part (f :: rest)) :
    (part.length + 1) * mem.rxSize ≤ mem.rxNum * mem.rxSize := by
  have sum := h.ring.length_add
  simp only [List.length_append, List.length_cons] at sum
  exact Nat.mul_le_mul_right _ (by omega)

theorem length_drained (h : Framed mem p groups part free) :
    (drained part free).length = part.length * mem.rxSize + headCount free := by
  have plain := length_flatMap_buffer fun f hf => (h.part_ok f hf).buffer
  cases free with
  | nil => simpa [drained, headCount] using plain
  | cons f rest =>
    have room := h.ring.free_room f (.head _)
    have buffer := h.ring.buffers f (by simp)
    simp only [drained, List.length_append, plain, List.length_take, headCount]
    omega

/-- In a framed mode `rx_bytes_in_frame` counts the bytes the ring holds for the frame
that is not finalised. -/
theorem bytes_eq (h : Framed mem p groups part free) :
    p.rxBytesInFrame = ((drained part free).length : Int) := by
  rw [h.bytes, h.length_drained]

/-- Whole words are drained until the length of a frame is known. -/
theorem drained_words (h : Framed mem p groups part free) :
    (drained part free).length % 4 = 0 := by
  have words := Nat.mul_mod part.length mem.rxSize 4
  rw [mem.rxSize_words, Nat.mul_zero, Nat.zero_mod] at words
  rw [h.length_drained]
  cases free with
  | nil =>
    simp only [headCount]
    omega
  | cons f rest =>
    have count := h.words f (.head _)
    simp only [headCount]
    omega

theorem bytes_lt (h : Framed mem p groups part free) :
    part.length * mem.rxSize + headCount free < 536870912 := by
  have fits := mem.rx_fits
  cases free with
  | nil =>
    have sum := h.ring.length_add
    simp only [List.length_append, List.length_nil] at sum
    have := Nat.mul_le_mul_right mem.rxSize (by omega : part.length ≤ mem.rxNum)
    simp only [headCount]
    omega
  | cons f rest =>
    have bound := h.part_bound
    have room := h.ring.free_room f (.head _)
    rw [Nat.succ_mul] at bound
    simp only [headCount]
    omega

end Framed

/-! ### One pass of the drain -/

/-- `rx_frame_size` in a pass of the drain. -/
def drainSize (p : RxPort) (d : δ) : Int × δ := takeFrameSize dev p.rxFrameSize d

variable (mem)

/-- How much a pass of the drain takes. -/
def drainLength (p : RxPort) (d : δ) : Nat × δ :=
  receiveLength dev mem (drainSize dev p d).1 p.rxBytesInFrame p.fifoFrame.desc.control
    (drainSize dev p d).2

/-- The bytes that a pass of the drain takes. -/
def drainData (p : RxPort) (d : δ) : List UInt8 × δ :=
  if (drainLength dev mem p d).1 = 0 then ([], (drainLength dev mem p d).2)
  else cardGetRegisterRep dev (drainLength dev mem p d).1 (drainLength dev mem p d).2

/-- A pass of the drain. -/
def fifoReadPass (p : RxPort) (d : δ) : Drain × δ :=
  fifoReadFinish dev mem (fifoReadFetch dev mem p.load d).1 (fifoReadFetch dev mem p.load d).2

theorem fifoReadLoop_succ (n : Nat) (p : RxPort) (d : δ) :
    fifoReadLoop dev mem (n + 1) p d =
      if p.fifoFrame.cstop then (p, d)
      else if hasCstop (fifoReadPass dev mem p d).1.newControl then
        fifoReadLoop dev mem n (p.store mem (fifoReadPass dev mem p d).1)
          (fifoReadPass dev mem p d).2
      else (p.store mem (fifoReadPass dev mem p d).1, (fifoReadPass dev mem p d).2) := rfl

/-- What every access to a device keeps. -/
structure Device.Keeps (P : δ → Prop) : Prop where
  getRegister : ∀ offset d, P d → P (dev.getRegister offset d).2
  readFifo : ∀ d, P d → P (dev.readFifo d).2
  ktime : ∀ d, P d → P (dev.ktime d).2

namespace Device.Keeps

variable {dev} {P : δ → Prop} (keeps : dev.Keeps P) {d : δ}
include keeps

private theorem ioread32Rep (n : Nat) (h : P d) : P (Fscc.ioread32Rep dev n d).2 := by
  induction n generalizing d with
  | zero => exact h
  | succ n ih => exact ih (keeps.readFifo d h)

private theorem cardGetRegisterRep (n : Nat) (h : P d) : P (Fscc.cardGetRegisterRep dev n d).2 := by
  unfold Fscc.cardGetRegisterRep
  dsimp only
  split
  · exact keeps.ioread32Rep _ h
  · exact keeps.readFifo _ (keeps.ioread32Rep _ h)

private theorem takeFrameSize (size : Int) (h : P d) : P (Fscc.takeFrameSize dev size d).2 := by
  unfold Fscc.takeFrameSize
  have rfcnt : P (ioGetRFCNT dev d).2 := keeps.getRegister _ d h
  split
  · dsimp only
    split
    · exact keeps.getRegister _ _ rfcnt
    · exact rfcnt
  · exact h

/-- The first half of a pass. -/
theorem fetch (s : Drain) (h : P d) : P (fifoReadFetch dev mem s d).2 := by
  have size := keeps.takeFrameSize s.rxFrameSize h
  have length : P (receiveLength dev mem (Fscc.takeFrameSize dev s.rxFrameSize d).1
      s.rxBytesInFrame s.newControl (Fscc.takeFrameSize dev s.rxFrameSize d).2).2 := by
    unfold receiveLength
    dsimp only
    split
    · exact size
    · exact keeps.getRegister _ _ size
  unfold fifoReadFetch
  dsimp only
  split
  · exact length
  · exact keeps.cardGetRegisterRep _ length

end Device.Keeps

/-- What holds before each pass of the drain, with the passes left, gives what holds when it
ends: full, out of data, or out of passes. -/
theorem fifoReadLoop_rule {P : Nat → RxPort → δ → Prop} {Q : RxPort → δ → Prop}
    (out : ∀ p d, P 0 p d → Q p d)
    (full : ∀ n p d, P (n + 1) p d → p.fifoFrame.cstop = true → Q p d)
    (finished : ∀ n p d, P (n + 1) p d → p.fifoFrame.cstop = false →
      hasCstop (fifoReadPass dev mem p d).1.newControl = true →
      P n (p.store mem (fifoReadPass dev mem p d).1) (fifoReadPass dev mem p d).2)
    (opened : ∀ n p d, P (n + 1) p d → p.fifoFrame.cstop = false →
      hasCstop (fifoReadPass dev mem p d).1.newControl = false →
      Q (p.store mem (fifoReadPass dev mem p d).1) (fifoReadPass dev mem p d).2)
    {n : Nat} {p : RxPort} {d : δ} (start : P n p d) :
    Q (fifoReadLoop dev mem n p d).1 (fifoReadLoop dev mem n p d).2 := by
  -- Induction on the passes. The loop ends at a full descriptor, or with one that a pass leaves open.
  induction n generalizing p d with
  | zero => exact out p d start
  | succ n ih =>
    unfold fifoReadLoop
    by_cases cstop : p.fifoFrame.cstop = true
    · rw [if_pos cstop]
      exact full n p d start cstop
    · rw [Bool.not_eq_true] at cstop
      simp only [cstop, Bool.false_eq_true, if_false]
      split
      next done => exact ih (finished n p d start cstop done)
      next going => exact opened n p d start cstop (Bool.not_eq_true _ ▸ going)

/-- What every pass keeps, the drain keeps. -/
theorem fifoReadData_kept {P : RxPort → Prop}
    (pass : ∀ p d, P p → p.fifoFrame.cstop = false → P (p.store mem (fifoReadPass dev mem p d).1))
    {p : RxPort} (d : δ) (holds : P p) : P (fifoReadData dev mem p d).1 :=
  fifoReadLoop_rule dev mem (P := fun _ p _ => P p) (Q := fun p _ => P p) (fun _ _ h => h)
    (fun _ _ _ h _ => h) (fun _ p d h opened _ => pass p d h opened)
    (fun _ p d h opened _ => pass p d h opened) holds

theorem length_drainData (p : RxPort) (d : δ) :
    (drainData dev mem p d).1.length = (drainLength dev mem p d).1 := by
  unfold drainData
  split
  next none_ => simp [none_]
  next => exact length_cardGetRegisterRep dev _ _

theorem fetch_eq (p : RxPort) (d : δ) :
    fifoReadFetch dev mem p.load d =
      ({ frame := p.fifoFrame.setBuffer
           (memcpyAt p.fifoFrame.buffer p.fifoFrame.count (drainData dev mem p d).1)
         newControl := p.fifoFrame.desc.control + BitVec.ofNat 32 (drainLength dev mem p d).1
         rxBytesInFrame := toInt32 (p.rxBytesInFrame + (drainLength dev mem p d).1)
         rxFrameSize := (drainSize dev p d).1 }, (drainData dev mem p d).2) := rfl

theorem fetch_device (p : RxPort) (d : δ) :
    (fifoReadFetch dev mem p.load d).2 = (drainData dev mem p d).2 := rfl

/-- Whatever BC_FIFO_L reads, it is an `int`. -/
theorem drainSize_range {p : RxPort}
    (range : -2147483648 ≤ p.rxFrameSize ∧ p.rxFrameSize < 2147483648) (d : δ) :
    -2147483648 ≤ (drainSize dev p d).1 ∧ (drainSize dev p d).1 < 2147483648 := by
  unfold drainSize takeFrameSize
  dsimp only
  split
  next =>
    split
    next => exact ⟨BitVec.le_toInt _, BitVec.toInt_lt⟩
    next => exact range
  next => exact range

/-- With a length no register is read for the amount. -/
theorem drainLength_device_known {p : RxPort} {d : δ} (known : (drainSize dev p d).1 ≠ 0) :
    (drainLength dev mem p d).2 = (drainSize dev p d).2 := by
  simp only [drainLength, receiveLength, if_pos known]

theorem drainLength_device_unknown {p : RxPort} {d : δ} (unknown : (drainSize dev p d).1 = 0) :
    (drainLength dev mem p d).2 = (ioGetRXCNT dev (drainSize dev p d).2).2 := by
  simp only [drainLength, receiveLength, unknown, ne_eq, not_true_eq_false, if_false]

section Room

variable {p : RxPort} {finished rest : List IoFrame} {f : IoFrame}
  (ring : RxRing mem p finished (f :: rest)) (d : δ)
include ring

theorem room_eq : sub32 mem.rxSize (cnt p.fifoFrame.desc.control) = mem.rxSize - f.count := by
  have room := ring.free_room f (.head _)
  have fits := mem.rx_fits
  have size := mem.rxSize_le
  rw [ring.fifoFrame_eq]
  exact sub32_eq (Nat.le_of_lt room) (by omega)

theorem drainLength_le : (drainLength dev mem p d).1 ≤ mem.rxSize - f.count := by
  rw [← room_eq mem ring]
  unfold drainLength receiveLength
  dsimp only
  split
  · exact Nat.min_le_right _ _
  · exact Nat.min_le_right _ _

/-- Without a length the drain takes whole words, as many as RXCNT says. -/
theorem drainLength_unknown (unknown : (drainSize dev p d).1 = 0) :
    (drainLength dev mem p d).1 =
      min ((ioGetRXCNT dev (drainSize dev p d).2).1 - (ioGetRXCNT dev (drainSize dev p d).2).1 % 4)
        (mem.rxSize - f.count) := by
  simp only [drainLength, receiveLength, unknown, ne_eq, not_true_eq_false, if_false,
    room_eq mem ring]

end Room

section Length

variable {p : RxPort} {groups : List (FrameGroup mem)} {part rest : List IoFrame} {f : IoFrame}
  (h : Framed mem p groups part (f :: rest)) (d : δ)
include h

/-- With a length the drain takes what is missing of the frame. -/
theorem drainLength_known (known : 0 < (drainSize dev p d).1)
    (small : (drainSize dev p d).1 < 2147483648) :
    (drainLength dev mem p d).1 =
      min ((drainSize dev p d).1 - p.rxBytesInFrame).toNat (mem.rxSize - f.count) := by
  have bytes := h.bytes
  have bound := h.bytes_lt
  have wanted : (if p.rxBytesInFrame < (drainSize dev p d).1
      then ofInt32 ((drainSize dev p d).1 - p.rxBytesInFrame) else 0) =
      ((drainSize dev p d).1 - p.rxBytesInFrame).toNat := by
    unfold ofInt32
    split <;> omega
  have nonzero : (drainSize dev p d).1 ≠ 0 := by omega
  simp only [drainLength, receiveLength, if_pos nonzero, room_eq mem h.ring, wanted]

/-- A length that does not fit an `int` stops the drain. -/
private theorem drainLength_negative (negative : (drainSize dev p d).1 < 0) :
    (drainLength dev mem p d).1 = 0 := by
  have bytes := h.bytes
  have nonzero : (drainSize dev p d).1 ≠ 0 := by omega
  have passed : ¬p.rxBytesInFrame < (drainSize dev p d).1 := by omega
  simp only [drainLength, receiveLength, if_pos nonzero, if_neg passed, Nat.zero_min]

end Length

section Finish

variable (s : Drain) (d : δ)

/-- The end of a pass reads the clock at most. -/
theorem finish_device : (fifoReadFinish dev mem s d).2 = d ∨
    (fifoReadFinish dev mem s d).2 = (dev.ktime d).2 := by
  have stamp : (stampFrame dev s.frame d).2 = d ∨
      (stampFrame dev s.frame d).2 = (dev.ktime d).2 := by
    unfold stampFrame
    split
    · exact .inr rfl
    · exact .inl rfl
  have either (finalised : Bool) (f : IoFrame) :
      (if finalised then (f, (stampFrame dev s.frame d).2) else (s.frame, d)).2 = d ∨
      (if finalised then (f, (stampFrame dev s.frame d).2) else (s.frame, d)).2 =
        (dev.ktime d).2 := by
    cases finalised with
    | false => exact .inl rfl
    | true => exact stamp
  exact either _ _

variable {dev} in
/-- The second half of a pass. -/
theorem Device.Keeps.finish {P : δ → Prop} (keeps : dev.Keeps P) {d : δ} (s : Drain) (h : P d) :
    P (fifoReadFinish dev mem s d).2 := by
  rcases finish_device dev mem s d with same | clock
  · rwa [same]
  · rw [clock]
    exact keeps.ktime d h

theorem finish_last (ended : 0 < s.rxFrameSize ∧ s.rxFrameSize ≤ s.rxBytesInFrame) :
    (fifoReadFinish dev mem s d).1 =
      { frame := ((stampFrame dev s.frame d).1.setDataCount mem.rxSize).setControl
          (BitVec.ofInt 32 s.rxFrameSize ||| descCstopBit ||| descFeBit)
        newControl := BitVec.ofInt 32 s.rxFrameSize ||| descCstopBit ||| descFeBit
        rxBytesInFrame := 0
        rxFrameSize := 0 } := by
  simp [fifoReadFinish, ended]

theorem finish_full (going : ¬(0 < s.rxFrameSize ∧ s.rxFrameSize ≤ s.rxBytesInFrame))
    (full : mem.rxSize ≤ cnt s.newControl) :
    (fifoReadFinish dev mem s d).1 =
      { frame := ((stampFrame dev s.frame d).1.setDataCount mem.rxSize).setControl
          (s.newControl &&& ~~~dmaMaxLength ||| descCstopBit)
        newControl := s.newControl &&& ~~~dmaMaxLength ||| descCstopBit
        rxBytesInFrame := s.rxBytesInFrame
        rxFrameSize := s.rxFrameSize } := by
  simp [fifoReadFinish, going, full]

theorem finish_more (going : ¬(0 < s.rxFrameSize ∧ s.rxFrameSize ≤ s.rxBytesInFrame))
    (room : cnt s.newControl < mem.rxSize) (still : hasCstop s.newControl = false) :
    (fifoReadFinish dev mem s d).1 = { s with frame := s.frame.setControl s.newControl } := by
  simp [fifoReadFinish, going, Nat.not_le.mpr room, still]

end Finish

/-- A frame that is not ended keeps its counters, and one that is ended loses them. -/
theorem finish_counters (mem : Memory) {δ : Type} (dev : Device δ) (d : Drain) (x : δ) :
    (fifoReadFinish dev mem d x).1.rxBytesInFrame = d.rxBytesInFrame ∧
        (fifoReadFinish dev mem d x).1.rxFrameSize = d.rxFrameSize ∨
      (fifoReadFinish dev mem d x).1.rxBytesInFrame = 0 := by
  by_cases ended : 0 < d.rxFrameSize ∧ d.rxFrameSize ≤ d.rxBytesInFrame
  · exact .inr (by simp [fifoReadFinish, ended])
  · exact .inl (by simp [fifoReadFinish, ended])

variable {mem}

/-- What a pass on the descriptor `f` can do. The flags are `CSTOP` and `FE` of what it leaves
there. -/
inductive Pass (groups : List (FrameGroup mem)) (part : List IoFrame) (f : IoFrame)
    (rest : List IoFrame) (size : Int) (data : List UInt8) (p' : RxPort) : Bool → Bool → Prop
  | last (g : FrameGroup mem) :
      g.full = part → (g.length : Int) = size →
      g.bytes = (drained part (f :: rest) ++ data).take g.length →
      g.length ≤ (drained part (f :: rest)).length + data.length → g.Fits →
      0 < size → p'.rxFrameSize = 0 → Framed mem p' (groups ++ [g]) [] rest →
      Pass groups part f rest size data p' true true
  | full (f' : IoFrame) :
      drained (part ++ [f']) rest = drained part (f :: rest) ++ data →
      p'.rxFrameSize = size → Framed mem p' groups (part ++ [f']) rest →
      Pass groups part f rest size data p' true false
  | more (f' : IoFrame) :
      drained part (f' :: rest) = drained part (f :: rest) ++ data →
      p'.rxFrameSize = size → size ≤ 0 → Framed mem p' groups part (f' :: rest) →
      Pass groups part f rest size data p' false false

theorem take_append_take {α : Type} {xs ys : List α} {k m : Nat} (le : m ≤ xs.length + k) :
    (xs ++ ys.take k).take m = (xs ++ ys).take m := by
  rw [List.take_append, List.take_append, List.take_take, Nat.min_eq_left (by omega)]

namespace Framed

variable {p : RxPort} {groups : List (FrameGroup mem)} {part rest : List IoFrame} {f : IoFrame}

private theorem headCount_rest (h : Framed mem p groups part (f :: rest)) : headCount rest = 0 := by
  cases rest with
  | nil => rfl
  | cons g rest => exact h.ring.later_empty g (.head _)

theorem drained_rest (h : Framed mem p groups part (f :: rest)) (fs : List IoFrame) :
    drained fs rest = fs.flatMap IoFrame.buffer := by
  cases rest with
  | nil => rfl
  | cons g rest => simp [drained, h.ring.later_empty g (.head _)]

variable (mem) in
/-- The descriptor `f` after the first half of a pass has put `data` in it. -/
structure Filled (f : IoFrame) (data : List UInt8) (s : Drain) : Prop where
  buffer : s.frame.buffer.length = mem.rxSize
  content : s.frame.buffer.take (f.count + data.length) = f.buffer.take f.count ++ data
  count : cnt s.newControl = f.count + data.length
  room : f.count + data.length ≤ mem.rxSize
  fe : hasFe s.newControl = false
  cstop : hasCstop s.newControl = false
  timestamp : s.frame.timestamp = f.timestamp

/-- The first half of a pass puts what it takes after what is there. -/
theorem filled {finished rest : List IoFrame} {f : IoFrame}
    (ring : RxRing mem p finished (f :: rest)) (d : δ) :
    Filled mem f (drainData dev mem p d).1 (fifoReadFetch dev mem p.load d).1 := by
  have opened := ring.free_open f (.head _)
  have room := ring.free_room f (.head _)
  have buffer : f.buffer.length = mem.rxSize := ring.buffers f (by simp)
  have fits := mem.rx_fits
  have one := mem.rxSize_le
  have taken := drainLength_le dev mem ring d
  have size := length_drainData dev mem p d
  -- The counts stay below the flag bits, so that adding to one leaves the flags alone.
  have small : cnt f.desc.control + (drainLength dev mem p d).1 < 536870912 := by
    change f.count + _ < _
    omega
  rw [fetch_eq, ring.fifoFrame_eq, ← size]
  rw [← size] at small
  exact {
    buffer := by rw [IoFrame.buffer_setBuffer, length_memcpyAt (by omega), buffer]
    content := take_memcpyAt (by omega) _
    count := cnt_add f.desc.control _ small
    room := by omega
    fe := by rw [hasFe_add _ _ small]; exact opened.1
    cstop := by rw [hasCstop_add _ _ small]; exact opened.2
    timestamp := rfl }

variable (mem) in
/-- The drain after the first half of a pass. -/
private structure Fetched (part : List IoFrame) (f : IoFrame) (size : Int) (data : List UInt8)
    (s : Drain) : Prop where
  buffer : s.frame.buffer.length = mem.rxSize
  content : s.frame.buffer.take (f.count + data.length) = f.buffer.take f.count ++ data
  count : cnt s.newControl = f.count + data.length
  room : f.count + data.length ≤ mem.rxSize
  fe : hasFe s.newControl = false
  cstop : hasCstop s.newControl = false
  bytes : s.rxBytesInFrame = ((part.length * mem.rxSize + f.count + data.length : Nat) : Int)
  frameSize : s.rxFrameSize = size

private theorem fetched (h : Framed mem p groups part (f :: rest)) (d : δ) :
    Fetched mem part f (drainSize dev p d).1 (drainData dev mem p d).1
      (fifoReadFetch dev mem p.load d).1 := by
  have filled := filled dev h.ring d
  have bound := h.part_bound
  have fits := mem.rx_fits
  have room := filled.room
  rw [Nat.succ_mul] at bound
  exact {
    buffer := filled.buffer
    content := filled.content
    count := filled.count
    room := filled.room
    fe := filled.fe
    cstop := filled.cstop
    bytes := by
      rw [fetch_eq, h.bytes, headCount, ← length_drainData, ← Int.natCast_add,
        toInt32_ofNat (by omega)]
    frameSize := rfl }

/-- The counters after the first half of a pass. -/
theorem fetch_counters (h : Framed mem p groups part (f :: rest)) (d : δ) :
    (fifoReadFetch dev mem p.load d).1.rxBytesInFrame =
        (((drained part (f :: rest)).length + (drainLength dev mem p d).1 : Nat) : Int) ∧
      (fifoReadFetch dev mem p.load d).1.rxFrameSize = (drainSize dev p d).1 := by
  have fetched := h.fetched dev d
  have length := h.length_drained
  simp only [headCount] at length
  rw [fetched.bytes, fetched.frameSize, length_drainData, length]
  exact ⟨rfl, rfl⟩

section Outcomes

variable {size : Int} {data : List UInt8} {s : Drain}
  (h : Framed mem p groups part (f :: rest)) (fetched : Fetched mem part f size data s)
  (d : δ)
include h fetched

private theorem pass_last (ended : 0 < s.rxFrameSize ∧ s.rxFrameSize ≤ s.rxBytesInFrame) :
    Pass groups part f rest size data (p.store mem (fifoReadFinish dev mem s d).1)
      (hasCstop (fifoReadFinish dev mem s d).1.newControl)
      (hasFe (fifoReadFinish dev mem s d).1.newControl) := by
  obtain ⟨pos, enough⟩ := ended
  -- The length is positive, so it is that of a frame.
  obtain ⟨m, eq⟩ := Int.eq_ofNat_of_zero_le (Int.le_of_lt pos)
  have bytes := fetched.bytes
  have bound := h.part_bound
  have fits := mem.rx_fits
  have roomy := fetched.room
  rw [eq, bytes] at enough
  rw [Nat.succ_mul] at bound
  have short : m < 536870912 := by omega
  have finish := finish_last dev mem s d ⟨pos, by rw [eq, bytes]; exact enough⟩
  rw [eq, BitVec.ofInt_natCast] at finish
  have flag : hasCstop (fifoReadFinish dev mem s d).1.newControl = true := by rw [finish]; simp
  have feFlag : hasFe (fifoReadFinish dev mem s d).1.newControl = true := by rw [finish]; simp
  have last_buffer : (fifoReadFinish dev mem s d).1.frame.buffer = s.frame.buffer := by
    rw [finish]; simp
  have last_count : (fifoReadFinish dev mem s d).1.frame.count = m := by
    rw [finish]; simp [Nat.mod_eq_of_lt short]
  -- The descriptors filled before, and the one just ended, are the frame.
  let g : FrameGroup mem :=
    { full := part
      last := (fifoReadFinish dev mem s d).1.frame
      full_ok := h.part_ok
      last_fe := by rw [finish]; simp
      last_cstop := by rw [finish]; simp
      last_buffer := by rw [last_buffer, fetched.buffer] }
  have before := h.length_drained
  simp only [headCount] at before
  rw [flag, feFlag]
  refine .last g rfl ?_ ?_ ?_ ?_ (by rw [← fetched.frameSize]; exact pos) (by rw [finish]; rfl) ?_
  · rw [← fetched.frameSize, eq]
    exact congrArg _ last_count
  -- Its bytes are what the ring had of the frame, and then the data of this pass.
  · have plain := length_flatMap_buffer fun x hx => (h.part_ok x hx).buffer
    change (part.flatMap IoFrame.buffer ++ (fifoReadFinish dev mem s d).1.frame.buffer).take
      (fifoReadFinish dev mem s d).1.frame.count =
      (drained part (f :: rest) ++ data).take (fifoReadFinish dev mem s d).1.frame.count
    rw [last_buffer, last_count, ← take_append_take (k := f.count + data.length) (by omega),
      fetched.content, ← List.append_assoc]
    rfl
  · change (fifoReadFinish dev mem s d).1.frame.count ≤ _
    omega
  · change (fifoReadFinish dev mem s d).1.frame.count ≤ (part.length + 1) * mem.rxSize
    rw [last_count, Nat.succ_mul]
    omega
  · have stored := h.ring.store_finished (fifoReadFinish dev mem s d).1 flag
      (by rw [finish]; rfl) (by rw [last_buffer, fetched.buffer])
    -- The drain starts afresh behind it, with no length known.
    exact {
      ring := by simpa [FrameGroup.descs, g] using stored
      part_ok := by simp
      words := fun x hx => h.words x (.tail _ hx)
      bytes := by rw [rxBytesInFrame_store, finish, h.headCount_rest]; simp
      unfinished := by rw [rxFrameSize_store, finish]; exact .inl (Int.le_refl 0)
      size_range := by rw [rxFrameSize_store, finish]; simp }

private theorem pass_full (going : ¬(0 < s.rxFrameSize ∧ s.rxFrameSize ≤ s.rxBytesInFrame))
    (range : -2147483648 ≤ size ∧ size < 2147483648)
    (full : f.count + data.length = mem.rxSize) :
    Pass groups part f rest size data (p.store mem (fifoReadFinish dev mem s d).1)
      (hasCstop (fifoReadFinish dev mem s d).1.newControl)
      (hasFe (fifoReadFinish dev mem s d).1.newControl) := by
  have finish := finish_full dev mem s d going (by rw [fetched.count, full])
  have flag : hasCstop (fifoReadFinish dev mem s d).1.newControl = true := by rw [finish]; simp
  have feFlag : hasFe (fifoReadFinish dev mem s d).1.newControl = false := by
    rw [finish]; simp [fetched.fe]
  have buffer : (fifoReadFinish dev mem s d).1.frame.buffer = s.frame.buffer := by
    rw [finish]; simp
  -- The descriptor has `CSTOP` and no `FE`: the frame goes on in the next one.
  have plain : (fifoReadFinish dev mem s d).1.frame.Full mem :=
    { fe := by rw [finish]; simp [fetched.fe]
      cstop := by rw [finish]; simp
      dataCount := by rw [finish]; rfl
      buffer := by rw [buffer, fetched.buffer] }
  rw [flag, feFlag]
  refine .full (fifoReadFinish dev mem s d).1.frame ?_ (by rw [finish]; exact fetched.frameSize) ?_
  -- A full descriptor gives all its bytes to the frame.
  · have content := fetched.content
    rw [full, ← fetched.buffer, List.take_length] at content
    rw [h.drained_rest, List.flatMap_append, drained]
    simp [buffer, content]
  · have stored := h.ring.store_finished (fifoReadFinish dev mem s d).1 flag
      (by rw [finish]; rfl) plain.buffer
    exact {
      ring := by rw [← List.append_assoc]; exact stored
      part_ok := by
        intro x hx
        rcases List.mem_append.mp hx with old | new
        · exact h.part_ok x old
        · rw [List.mem_singleton.mp new]
          exact plain
      words := fun x hx => h.words x (.tail _ hx)
      bytes := by
        rw [rxBytesInFrame_store, finish, h.headCount_rest, List.length_append,
          List.length_singleton, Nat.succ_mul, fetched.bytes]
        omega
      unfinished := by
        rw [rxFrameSize_store, rxBytesInFrame_store, finish]
        dsimp only
        omega
      size_range := by rw [rxFrameSize_store, finish]; simpa [fetched.frameSize] using range }

private theorem pass_more (going : ¬(0 < s.rxFrameSize ∧ s.rxFrameSize ≤ s.rxBytesInFrame))
    (range : -2147483648 ≤ size ∧ size < 2147483648) (none_ : size ≤ 0)
    (room : f.count + data.length < mem.rxSize) (words : data.length % 4 = 0) :
    Pass groups part f rest size data (p.store mem (fifoReadFinish dev mem s d).1)
      (hasCstop (fifoReadFinish dev mem s d).1.newControl)
      (hasFe (fifoReadFinish dev mem s d).1.newControl) := by
  have finish := finish_more dev mem s d going (by rw [fetched.count]; exact room) fetched.cstop
  have flag : hasCstop (fifoReadFinish dev mem s d).1.newControl = false := by
    rw [finish]; exact fetched.cstop
  have feFlag : hasFe (fifoReadFinish dev mem s d).1.newControl = false := by
    rw [finish]; exact fetched.fe
  have buffer : (fifoReadFinish dev mem s d).1.frame.buffer = s.frame.buffer := by
    rw [finish]; rfl
  have count : (fifoReadFinish dev mem s d).1.frame.count = f.count + data.length := by
    rw [finish]; exact fetched.count
  rw [flag, feFlag]
  refine .more (fifoReadFinish dev mem s d).1.frame ?_ (by rw [finish]; exact fetched.frameSize)
    none_ ?_
  -- The bytes join those that the descriptor has.
  · rw [drained, count, buffer, fetched.content, drained, List.append_assoc]
  · have stored := h.ring.store_open (fifoReadFinish dev mem s d).1
      flag (by rw [finish]; rfl) (by rw [buffer, fetched.buffer])
      (by rw [finish]; exact fetched.fe) (by rw [count]; exact room)
    -- The drain stays at it, and its count stays a number of whole words.
    exact {
      ring := stored
      part_ok := h.part_ok
      words := by
        rintro x (_ | ⟨_, hx⟩)
        · have := h.words f (.head _)
          omega
        · exact h.words x (.tail _ hx)
      bytes := by
        rw [headCount, count, rxBytesInFrame_store, finish, fetched.bytes, Nat.add_assoc]
      unfinished := by
        rw [rxFrameSize_store, finish]
        exact .inl (by simpa [fetched.frameSize] using none_)
      size_range := by rw [rxFrameSize_store, finish]; simpa [fetched.frameSize] using range }

end Outcomes

/-- One pass of the drain on a framed ring; the device may move between its two halves. -/
theorem pass_halves (h : Framed mem p groups part (f :: rest)) (d d' : δ) :
    Pass groups part f rest (drainSize dev p d).1 (drainData dev mem p d).1
      (p.store mem (fifoReadFinish dev mem (fifoReadFetch dev mem p.load d).1 d').1)
      (hasCstop (fifoReadFinish dev mem (fifoReadFetch dev mem p.load d).1 d').1.newControl)
      (hasFe (fifoReadFinish dev mem (fifoReadFetch dev mem p.load d).1 d').1.newControl) := by
  have fetched := h.fetched dev d
  have range := drainSize_range dev h.size_range d
  have length := length_drainData dev mem p d
  have roomy := fetched.room
  have bytes := h.bytes
  by_cases ended : 0 < (drainSize dev p d).1 ∧
      (drainSize dev p d).1 ≤ (fifoReadFetch dev mem p.load d).1.rxBytesInFrame
  · exact pass_last dev h fetched d' ended
  · by_cases full : f.count + (drainData dev mem p d).1.length = mem.rxSize
    · exact pass_full dev h fetched d' ended range full
    · have count := h.words f (.head _)
      have words := mem.rxSize_words
      -- With a length known, the drain ends the frame or fills the descriptor.
      have unknown : (drainSize dev p d).1 ≤ 0 := by
        by_contra known
        have taken := drainLength_known dev mem h d (by omega) range.2
        rw [fetched.bytes] at ended
        simp only [headCount] at bytes
        omega
      refine pass_more dev h fetched d' ended range unknown (by omega) ?_
      rcases Int.lt_or_eq_of_le unknown with negative | zero
      · rw [length, drainLength_negative dev mem h d negative]
      · rw [length, drainLength_unknown dev mem h.ring d zero]
        omega

/-- One pass of the drain on a framed ring. -/
theorem pass (h : Framed mem p groups part (f :: rest)) (d : δ) :
    Pass groups part f rest (drainSize dev p d).1 (drainData dev mem p d).1
      (p.store mem (fifoReadPass dev mem p d).1)
      (hasCstop (fifoReadPass dev mem p d).1.newControl)
      (hasFe (fifoReadPass dev mem p d).1.newControl) :=
  h.pass_halves dev d _

end Framed

variable (mem)

/-- A port as `fscc_port_new` leaves it, after a purge of rings of the asked sizes. -/
def Fresh (p : RxPort) : Prop :=
  ∃ q : RxPort, p = resetRx mem q ∧ q.rxDescriptors.length = mem.rxNum ∧
    ∀ f ∈ q.rxDescriptors, f.buffer.length = mem.rxSize

/-- A fresh port, its descriptors at the physical addresses `addresses`. -/
def freshRx (addresses : List Nat) : RxPort :=
  resetRx mem
    { rxDescriptors := addresses.map fun a =>
        ⟨⟨0#32, 0, 0#32⟩, BitVec.ofNat 32 a, List.replicate mem.rxSize 0, .clear⟩
      userRxDesc := 0
      fifoRxDesc := 0
      rxBytesInFrame := 0
      rxFrameSize := 0 }

theorem fresh_freshRx {addresses : List Nat} (size : addresses.length = mem.rxNum) :
    Fresh mem (freshRx mem addresses) :=
  ⟨_, rfl, by simpa using size, by simp⟩

variable {mem}

/-- A purged descriptor holds nothing. -/
theorem drained_purged (fs : List IoFrame) : drained [] (fs.map (purgedRxFrame mem)) = [] := by
  cases fs with
  | nil => rfl
  | cons f fs => simp [drained, purgedRxFrame]

theorem headCount_purged (fs : List IoFrame) : headCount (fs.map (purgedRxFrame mem)) = 0 := by
  cases fs with
  | nil => rfl
  | cons f fs => simp [headCount, purgedRxFrame]

/-- A purge leaves a ring without frames. -/
theorem Framed.reset {p : RxPort} (size : p.rxDescriptors.length = mem.rxNum)
    (buffers : ∀ f ∈ p.rxDescriptors, f.buffer.length = mem.rxSize) :
    Framed mem (resetRx mem p) [] [] (p.rxDescriptors.map (purgedRxFrame mem)) where
  ring := rxRing_reset mem size buffers
  part_ok := by simp
  words := by simp [purgedRxFrame]
  bytes := by simp [headCount_purged, resetRx]
  unfinished := .inl (Int.le_refl 0)
  size_range := by simp [resetRx]

theorem Fresh.framed {p : RxPort} (fresh : Fresh mem p) :
    ∃ free, Framed mem p [] [] free ∧ p.rxBytesInFrame = 0 ∧ p.rxFrameSize = 0 := by
  obtain ⟨q, rfl, size, buffers⟩ := fresh
  exact ⟨_, .reset size buffers, rfl, rfl⟩

end Fscc
