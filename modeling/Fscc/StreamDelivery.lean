import Fscc.RxStream

/-!
# From the line to the reader of a stream

The receiver without frames: bytes that wait, and register readings that say how many at most.
Drains and reads in any order hand on every byte that has been taken from the FIFO, in order.
-/

namespace Fscc

/-! ### The receiver -/

/-- A read of a register: the bytes that arrive before it, and its value. -/
structure Moment where
  arrived : List UInt8
  value : BitVec 32
deriving DecidableEq, Repr

/-- A receiver that finds no frames: the bytes that wait in its FIFO, the bytes that have been
taken out of it, the next reads of its registers, and the clock. -/
structure StreamFifo where
  waiting : List UInt8
  taken : List UInt8
  moments : List Moment
  clock : Timestamp
deriving DecidableEq, Repr

namespace StreamFifo

/-- A read of a register. RFCNT is 0, and RXCNT counts no byte that is not there. -/
def getRegister (offset : Nat) (d : StreamFifo) : BitVec 32 × StreamFifo :=
  match d.moments with
  | [] => (0#32, d)
  | m :: moments =>
    let waiting := d.waiting ++ m.arrived
    (if offset = fifoFcOffset then m.value &&& ~~~0x000003ff#32
      else if offset = fifoBcOffset ∧ waiting.length < (m.value &&& 0x00003fff#32).toNat then 0#32
      else m.value,
      { d with waiting := waiting, moments := moments })

/-- A word is taken out of the FIFO. -/
def readFifo (d : StreamFifo) : Word × StreamFifo :=
  (charsToU32 d.waiting,
    { d with waiting := d.waiting.drop 4, taken := d.taken ++ d.waiting.take 4 })

end StreamFifo

/-- The driver's view of a receiver without frames. -/
def streamFifo : Device StreamFifo where
  getRegister := StreamFifo.getRegister
  readFifo := StreamFifo.readFifo
  ktime d := (d.clock, d)

namespace StreamFifo

variable (d : StreamFifo)

/-- RFCNT is always 0. -/
theorem rfcnt_eq : (ioGetRFCNT streamFifo d).1 = 0 := by
  unfold ioGetRFCNT streamFifo getRegister
  dsimp only
  split
  next => simp
  next =>
    rw [if_pos rfl, BitVec.and_assoc, BitVec.and_comm (~~~_), BitVec.and_not_self]
    simp

private theorem taken_getRegister (offset : Nat) : (getRegister offset d).2.taken = d.taken := by
  unfold getRegister
  split <;> rfl

/-- RXCNT counts bytes that wait. -/
private theorem rxcnt_le :
    (ioGetRXCNT streamFifo d).1 ≤ (ioGetRXCNT streamFifo d).2.waiting.length := by
  have counted : ((getRegister fifoBcOffset d).1 &&& 0x00003fff#32).toNat ≤
      (getRegister fifoBcOffset d).2.waiting.length := by
    unfold getRegister
    split
    next => simp
    next =>
      have apart : fifoBcOffset ≠ fifoFcOffset := by decide
      simp only [if_neg apart, true_and]
      split
      next => simp
      next fits => exact Nat.le_of_not_lt fits
  unfold ioGetRXCNT
  dsimp only
  split
  next => exact Nat.zero_le _
  next => exact counted

/-- Whole words come out of the FIFO in order. -/
private theorem ioread32Rep_eq (n : Nat) (enough : 4 * n ≤ d.waiting.length) :
    ioread32Rep streamFifo n d =
      (d.waiting.take (4 * n),
        { d with
          waiting := d.waiting.drop (4 * n)
          taken := d.taken ++ d.waiting.take (4 * n) }) := by
  induction n generalizing d with
  | zero => simp [ioread32Rep]
  | succ n ih =>
    have first : 4 ≤ d.waiting.length := by omega
    rw [ioread32Rep, ih _ (by simp only [streamFifo, readFifo, List.length_drop]; omega)]
    simp only [streamFifo, readFifo, bytes_charsToU32 first, List.drop_drop, List.append_assoc]
    have cut : 4 * (n + 1) = 4 + 4 * n := by omega
    rw [cut, List.take_add]

private theorem cardGetRegisterRep_eq {n : Nat} (words : n % 4 = 0) (enough : n ≤ d.waiting.length) :
    cardGetRegisterRep streamFifo n d =
      (d.waiting.take n,
        { d with waiting := d.waiting.drop n, taken := d.taken ++ d.waiting.take n }) := by
  have whole : 4 * ((n - n % 4) / 4) = n := by omega
  unfold cardGetRegisterRep
  dsimp only
  rw [if_pos words, ioread32Rep_eq d _ (by omega), whole]

end StreamFifo

variable {mem : Memory} {p : RxPort} {finished free rest : List IoFrame} {f : IoFrame}

/-- Without frames the drain never finds a length. -/
theorem drainSize_streamFifo (unframed : p.rxFrameSize = 0) (d : StreamFifo) :
    (drainSize streamFifo p d).1 = 0 ∧ (drainSize streamFifo p d).2.taken = d.taken := by
  unfold drainSize takeFrameSize
  rw [if_pos unframed]
  simp only [StreamFifo.rfcnt_eq, ne_eq, not_true_eq_false, if_false]
  exact ⟨unframed, d.taken_getRegister fifoFcOffset⟩

/-- What a pass of the drain takes is what comes out of the FIFO. -/
theorem Streamed.taken_pass (h : Streamed mem p finished (f :: rest)) (d : StreamFifo) :
    (fifoReadPass streamFifo mem p d).2.taken = d.taken ++ (drainData streamFifo mem p d).1 := by
  obtain ⟨unframed, taken⟩ := drainSize_streamFifo h.unframed d
  have words := h.drainData_words streamFifo d unframed
  have count := h.words f (.head _)
  have length := drainLength_unknown streamFifo mem h.ring d unframed
  have waits := (drainSize streamFifo p d).2.rxcnt_le
  have device := drainLength_device_unknown streamFifo mem unframed
  have same : (drainLength streamFifo mem p d).2.taken = d.taken := by
    rw [device, ← taken]
    exact StreamFifo.taken_getRegister _ fifoBcOffset
  -- Whatever the pass reads is taken from the stream, word by word.
  have data : (drainData streamFifo mem p d).2.taken =
      d.taken ++ (drainData streamFifo mem p d).1 := by
    rw [length_drainData] at words
    rw [← device] at waits
    unfold drainData
    split
    next => rw [List.append_nil, same]
    next => rw [StreamFifo.cardGetRegisterRep_eq _ (by omega) (by omega), same]
  unfold fifoReadPass
  rcases finish_device streamFifo mem (fifoReadFetch streamFifo mem p.load d).1
    (fifoReadFetch streamFifo mem p.load d).2 with clock | clock
  · rw [clock, fetch_device, data]
  · rw [clock, fetch_device]
    exact data

/-- They go to the end of what is in the ring. -/
theorem Streamed.ringBytes_pass (h : Streamed mem p finished (f :: rest)) (d : StreamFifo) :
    (p.store mem (fifoReadPass streamFifo mem p d).1).ringBytes =
      p.ringBytes ++ (drainData streamFifo mem p d).1 := by
  have empty : drained [] rest = [] := by
    cases rest with
    | nil => rfl
    | cons g rest => simp [drained, h.ring.later_empty g (.head _)]
  obtain ⟨passed, -⟩ := h.pass streamFifo d (drainSize_streamFifo h.unframed d).1
  rw [h.pieces.ringBytes_eq]
  generalize hasCstop _ = flag at passed
  cases passed with
  | full g data kept =>
    rw [kept.pieces.ringBytes_eq, empty, List.map_append, List.flatten_append]
    simp [data, drained]
  | more g data kept =>
    rw [kept.pieces.ringBytes_eq]
    simp [data, drained]

/-! ### Drains and reads -/

/-- A port that receives a stream, and all that its readers have been given. -/
structure StreamSystem where
  port : RxPort
  fifo : StreamFifo
  returned : List UInt8
deriving DecidableEq, Repr

/-- Bytes arrive; the driver drains the FIFO, reading `moments` from its registers; or
`fscc_user_read_stream` is called for `bufLength` bytes. -/
inductive StreamEvent where
  | arrive (bytes : List UInt8)
  | drain (moments : List Moment) (now : Timestamp)
  | read (bufLength : BitVec 64) (alloc : Bool)
deriving DecidableEq, Repr

/-- The port in FIFO mode, without frames. All of a copy to the user succeeds. -/
def streamMachine (mem : Memory) : Machine StreamSystem StreamEvent where
  init s := Fresh mem s.port ∧ s.fifo.taken = [] ∧ s.returned = []
  step s
    | .arrive bytes => some { s with fifo := { s.fifo with waiting := s.fifo.waiting ++ bytes } }
    | .drain moments now =>
      let drained := fifoReadData streamFifo mem s.port
        { s.fifo with moments := moments, clock := now }
      some { s with port := drained.1, fifo := drained.2 }
    | .read bufLength alloc =>
      let read := userReadStream mem bufLength.toNat alloc 0 s.port
      some { s with port := read.2, returned := s.returned ++ read.1 }

/-- The ring holds a stream, and `before` with what is in it is all that has been drained. -/
structure Conserved (mem : Memory) (before : List UInt8) (p : RxPort) (d : StreamFifo) : Prop where
  pieces : ∃ finished free, Streamed mem p finished free
  bytes : before ++ p.ringBytes = d.taken

namespace Conserved

variable {before : List UInt8} {d : StreamFifo}

/-- A pass of the drain moves bytes from the FIFO to the end of what is in the ring. -/
private theorem pass (h : Conserved mem before p d) (opened : p.fifoFrame.cstop = false) :
    Conserved mem before (p.store mem (fifoReadPass streamFifo mem p d).1)
      (fifoReadPass streamFifo mem p d).2 := by
  obtain ⟨finished, free, streamed⟩ := h.pieces
  obtain ⟨f, rest, rfl⟩ : ∃ f rest, free = f :: rest := by
    cases free with
    | nil => rw [streamed.ring.fifoFrame_full] at opened; cases opened
    | cons f rest => exact ⟨f, rest, rfl⟩
  refine ⟨?_, ?_⟩
  · obtain ⟨passed, -⟩ := streamed.pass streamFifo d (drainSize_streamFifo streamed.unframed d).1
    generalize hasCstop _ = flag at passed
    cases passed with
    | full g data kept => exact ⟨_, _, kept⟩
    | more g data kept => exact ⟨_, _, kept⟩
  · rw [streamed.ringBytes_pass, ← List.append_assoc, h.bytes, streamed.taken_pass]

/-- So does a drain. -/
theorem drain (h : Conserved mem before p d) :
    Conserved mem before (fifoReadData streamFifo mem p d).1 (fifoReadData streamFifo mem p d).2 := by
  apply fifoReadLoop_rule streamFifo mem (P := fun _ => Conserved mem before)
    (Q := Conserved mem before)
  · intro p d kept
    exact kept
  · intro n p d kept _
    exact kept
  · intro n p d kept opened _
    exact kept.pass opened
  · intro n p d kept opened _
    exact kept.pass opened
  · exact h

/-- A read moves bytes from the front of the ring to the reader. -/
theorem read (h : Conserved mem before p d) {bufLength : Nat}
    (size : bufLength < 18446744073709551616) (alloc : Bool) :
    Conserved mem (before ++ (userReadStream mem bufLength alloc 0 p).1)
      (userReadStream mem bufLength alloc 0 p).2 d := by
  cases alloc with
  | false =>
    have same : userReadStream mem bufLength false 0 p = ([], p) := rfl
    rw [same, List.append_nil]
    exact h
  | true =>
    obtain ⟨finished, free, streamed⟩ := h.pieces
    have held := h.bytes
    obtain ⟨⟨finished', free', left⟩, -, result⟩ := streamed.read size 0
    refine ⟨⟨finished', free', left.streamed⟩, ?_⟩
    rw [streamed.pieces.ringBytes_eq] at held
    rw [left.streamed.pieces.ringBytes_eq, left.data, left.drained, result, Nat.sub_zero,
      List.take_length, ← held, List.append_assoc, ← List.append_assoc (Chunks.read _ _).1, Chunks.read_append]

end Conserved

/-- In every run the bytes returned and the bytes in the ring are the bytes taken from the FIFO, in
order, and no read returns more than there is room for. -/
theorem stream_preserved {s : StreamSystem} (reached : (streamMachine mem).Reached s) :
    s.returned ++ s.port.ringBytes = s.fifo.taken ∧
      ∀ (bufLength : BitVec 64) (alloc : Bool),
        (userReadStream mem bufLength.toNat alloc 0 s.port).1.length ≤ bufLength.toNat ∧
          streamOutLength mem bufLength.toNat s.port ≤ bufLength.toNat := by
  -- What was returned and what the ring holds is what has left the FIFO.
  have conserved : Conserved mem s.returned s.port s.fifo := by
    apply reached.invariant (P := fun s => Conserved mem s.returned s.port s.fifo)
    · rintro s ⟨⟨q, made, size, buffers⟩, taken, returned⟩
      have streamed := Streamed.reset size buffers
      rw [← made] at streamed
      refine ⟨⟨_, _, streamed⟩, ?_⟩
      rw [returned, taken, made, ringBytes_resetRx size buffers]
      rfl
    · intro s t e kept stepped
      cases e with
      | arrive bytes =>
        obtain rfl := Option.some.inj stepped
        exact ⟨kept.pieces, kept.bytes⟩
      | drain moments now =>
        obtain rfl := Option.some.inj stepped
        exact Conserved.drain ⟨kept.pieces, kept.bytes⟩
      | read bufLength alloc =>
        obtain rfl := Option.some.inj stepped
        exact kept.read bufLength.isLt alloc
  refine ⟨conserved.bytes, fun bufLength alloc => ?_⟩
  obtain ⟨finished, free, streamed⟩ := conserved.pieces
  obtain ⟨-, out, result⟩ := streamed.read bufLength.isLt 0
  have fits := Chunks.length_read_le bufLength.toNat (finished.map IoFrame.data)
  refine ⟨?_, out ▸ fits⟩
  cases alloc with
  | false => exact Nat.zero_le _
  | true =>
    rw [result, List.length_take]
    exact (Nat.min_le_right _ _).trans fits

/-- A fresh port with two descriptors, before a stream of twelve bytes. -/
def beforeTwelve : StreamSystem where
  port := freshRx .small [1, 2]
  fifo := ⟨[1, 2, 3, 4, 5, 6, 7, 8, 9, 10, 11, 12], [], [], .clear⟩
  returned := []

/-- RFCNT, and RXCNT with all twelve bytes there; once more, when four bytes are left. -/
def twelveMoments : List Moment := [⟨[], 0#32⟩, ⟨[], 12#32⟩, ⟨[], 0#32⟩, ⟨[], 4#32⟩]

/-- A read of five bytes stops inside a descriptor, and the next one starts there. -/
theorem stream_preserved_twelve :
    ∃ s, (streamMachine .small).replay beforeTwelve
        [.drain twelveMoments .clear, .read 5#64 true, .read 2#64 true] = some s ∧
      s.port.ringBytes = [8, 9, 10, 11, 12] ∧
      s.returned ++ s.port.ringBytes = s.fifo.taken ∧
      ∀ (bufLength : BitVec 64) (alloc : Bool),
        (userReadStream .small bufLength.toNat alloc 0 s.port).1.length ≤ bufLength.toNat ∧
          streamOutLength .small bufLength.toNat s.port ≤ bufLength.toNat := by
  have fresh : (streamMachine .small).init beforeTwelve := ⟨fresh_freshRx .small rfl, rfl, rfl⟩
  exact ⟨_, rfl, by decide, stream_preserved (.replay (.init fresh)
    [.drain twelveMoments .clear, .read 5#64 true, .read 2#64 true] rfl)⟩

end Fscc
