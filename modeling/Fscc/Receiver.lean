import Fscc.Device

/-!
# The receiver

The hardware behind the receive registers: a queue of frames, each padded to whole words.
RFCNT counts the complete frames whose length has not been taken, RXCNT the bytes that
wait, and a read of BC_FIFO_L takes the length of the oldest complete frame. The last
bytes of a frame, its two status bytes among them, arrive together with its count. The
receiver does not overflow: what would not fit does not arrive.
-/

namespace Fscc

/-- A received frame: its bytes, of which the last two are its status, and its padding. -/
structure WireFrame where
  data : List UInt8
  pad : List UInt8
  status : 2 ≤ data.length
  words : (data.length + pad.length) % 4 = 0
  short : pad.length < 4
deriving DecidableEq, Repr

namespace WireFrame

variable (w : WireFrame)

def length : Nat := w.data.length

def padded : List UInt8 := w.data ++ w.pad

@[simp] theorem length_padded : w.padded.length = w.length + w.pad.length := by
  simp [padded, length]

/-- The room of a frame in the FIFO is its length rounded up to a word. -/
theorem length_padded_eq : w.padded.length = (w.length + 3) / 4 * 4 := by
  have words := w.words
  have short := w.short
  rw [length_padded, length] at *
  omega

theorem take_padded : w.padded.take w.length = w.data := by simp [padded, length]

end WireFrame

/-- What the receiver can do by itself. -/
inductive Arrival where
  | bytes (n : Nat)
  | complete
  | tick (now : Timestamp)
deriving DecidableEq, Repr

/-- The receiver: the bytes that wait, the lengths not taken, the frames that are complete,
how much has arrived of the frame at the front of `line`, and the clock. -/
structure Receiver where
  fifo : List UInt8
  lengths : List Nat
  received : List WireFrame
  arrived : Nat
  line : List WireFrame
  clock : Timestamp
deriving DecidableEq, Repr

/-- The bytes of the receive FIFO, the bound that `fscc_io_get_RXCNT` counts on. -/
def rxFifoSize : Nat := 8192

/-- The complete frames that the ten bits of RFCNT can count. -/
def rfcntMax : Nat := 1023

namespace Receiver

/-- A receiver that `line` is about to reach. -/
def idle (line : List WireFrame) (clock : Timestamp) : Receiver := ⟨[], [], [], 0, line, clock⟩

/-- At most `n` further bytes of the frame on the line, short of its status. -/
def arriveBytes (r : Receiver) (n : Nat) : Receiver :=
  match r.line with
  | [] => r
  | w :: _ =>
    let m := min n (min (w.length - 2 - r.arrived) (rxFifoSize - r.fifo.length))
    { r with
      fifo := r.fifo ++ (w.padded.drop r.arrived).take m
      arrived := r.arrived + m }

/-- The rest of the frame on the line, with its count. -/
def arriveEnd (r : Receiver) : Receiver :=
  match r.line with
  | [] => r
  | w :: rest =>
    if r.fifo.length + (w.padded.length - r.arrived) ≤ rxFifoSize ∧ r.lengths.length < rfcntMax then
      { r with
        fifo := r.fifo ++ w.padded.drop r.arrived
        lengths := r.lengths ++ [w.length]
        received := r.received ++ [w]
        arrived := 0
        line := rest }
    else r

def arrival (r : Receiver) : Arrival → Receiver
  | .bytes n => r.arriveBytes n
  | .complete => r.arriveEnd
  | .tick now => { r with clock := now }

def arrivals (r : Receiver) (as : List Arrival) : Receiver := as.foldl arrival r

/-- The receiver's side of a read of a register. -/
def getRegister (offset : Nat) (r : Receiver) : BitVec 32 × Receiver :=
  if offset = fifoBcOffset then (BitVec.ofNat 32 r.fifo.length, r)
  else if offset = fifoFcOffset then (BitVec.ofNat 32 r.lengths.length, r)
  else if offset = bcFifoLOffset then
    (BitVec.ofNat 32 (r.lengths.headD 0), { r with lengths := r.lengths.tail })
  else (0#32, r)

/-- The receiver after `n` of the bytes that wait have been read. -/
def pop (r : Receiver) (n : Nat) : Receiver := { r with fifo := r.fifo.drop n }

/-- `RRES`: what waits is dropped, and the frame on the line if some of it has arrived. -/
def reset (r : Receiver) : Receiver :=
  { r with
    fifo := []
    lengths := []
    arrived := 0
    line := if r.arrived = 0 then r.line else r.line.tail }

end Receiver

/-- The receiver as a device that moves only between calls of the driver. -/
def receiver : Device Receiver where
  getRegister := Receiver.getRegister
  readFifo r := (charsToU32 r.fifo, r.pop 4)
  ktime r := (r.clock, r)

/-- The receiver while the driver works, with what arrives before each access to come. -/
structure Raced where
  hardware : Receiver
  schedule : List (List Arrival)
deriving DecidableEq, Repr

/-- The receiver at the next access. -/
def Raced.now (s : Raced) : Receiver := s.hardware.arrivals (s.schedule.headD [])

/-- An access of the driver to a receiver that moves on its own. -/
def Raced.access {α : Type} (read : Receiver → α × Receiver) (s : Raced) : α × Raced :=
  ((read s.now).1, ⟨(read s.now).2, s.schedule.tail⟩)

/-- The receiver as a device that moves between any two accesses. -/
def raced : Device Raced where
  getRegister offset := Raced.access (receiver.getRegister offset)
  readFifo := Raced.access receiver.readFifo
  ktime := Raced.access receiver.ktime

namespace Receiver

/-! ### Arrivals -/

/-- The part of the frame on the line that has arrived. -/
def front (r : Receiver) : List UInt8 :=
  match r.line with
  | [] => []
  | w :: _ => w.padded.take r.arrived

/-- What a receiver keeps: nothing overflows, and the status of a frame has not arrived
before the frame is complete. -/
structure Ok (r : Receiver) : Prop where
  fifo : r.fifo.length ≤ rxFifoSize
  lengths : r.lengths.length ≤ rfcntMax
  opened : ∀ w rest, r.line = w :: rest → r.arrived + 2 ≤ w.length

/-- From `r` to `r'` the frames `done` have become complete and `data` has arrived. -/
structure Arrived (r r' : Receiver) (done : List WireFrame) (data : List UInt8) : Prop where
  fifo : r'.fifo = r.fifo ++ data
  front : done.flatMap WireFrame.padded ++ r'.front = r.front ++ data
  lengths : r'.lengths = r.lengths ++ done.map WireFrame.length
  received : r'.received = r.received ++ done
  line : r.line = done ++ r'.line
  ok : r.Ok → r'.Ok

private theorem Arrived.refl (r : Receiver) : Arrived r r [] [] := by
  constructor <;> simp

private theorem Arrived.trans {r₁ r₂ r₃ : Receiver} {done₁ done₂ : List WireFrame}
    {data₁ data₂ : List UInt8}
    (first : Arrived r₁ r₂ done₁ data₁) (second : Arrived r₂ r₃ done₂ data₂) :
    Arrived r₁ r₃ (done₁ ++ done₂) (data₁ ++ data₂) where
  fifo := by rw [second.fifo, first.fifo, List.append_assoc]
  front := by
    rw [List.flatMap_append, List.append_assoc, second.front, ← List.append_assoc, first.front,
      List.append_assoc]
  lengths := by rw [second.lengths, first.lengths, List.map_append, List.append_assoc]
  received := by rw [second.received, first.received, List.append_assoc]
  line := by rw [first.line, second.line, List.append_assoc]
  ok := fun h => second.ok (first.ok h)

private theorem arrived_bytes (r : Receiver) (n : Nat) :
    ∃ data, Arrived r (r.arriveBytes n) [] data := by
  unfold arriveBytes
  cases shape : r.line with
  | nil =>
    exact ⟨[], by simpa [shape] using Arrived.refl r⟩
  | cons w rest =>
    refine ⟨_, rfl, ?_, by simp, by simp, by simp [shape], fun ok => ?_⟩
    · simp only [front, shape, List.flatMap_nil, List.nil_append]
      rw [← List.take_add]
    · have opened := ok.opened w rest shape
      have room := ok.fifo
      refine ⟨?_, ok.lengths, ?_⟩
      · simp only [List.length_append, List.length_take]
        omega
      · intro x xs eq
        obtain ⟨rfl, rfl⟩ : w = x ∧ rest = xs := by simpa using eq
        dsimp only
        omega

private theorem arrived_end (r : Receiver) : ∃ done data, Arrived r r.arriveEnd done data := by
  unfold arriveEnd
  cases shape : r.line with
  | nil => exact ⟨[], [], by simpa [shape] using Arrived.refl r⟩
  | cons w rest =>
    by_cases fits : r.fifo.length + (w.padded.length - r.arrived) ≤ rxFifoSize ∧
        r.lengths.length < rfcntMax
    -- There is room for the last bytes and for one length more.
    · simp only [fits, and_self, if_true]
      refine ⟨[w], _, rfl, ?_, by simp, rfl, by simp [shape], fun ok => ?_⟩
      · have last : front { r with
            fifo := r.fifo ++ w.padded.drop r.arrived
            lengths := r.lengths ++ [w.length]
            received := r.received ++ [w]
            arrived := 0
            line := rest } = [] := by
          unfold front
          dsimp only
          split <;> simp
        rw [last, front, shape]
        simp
      · refine ⟨?_, ?_, ?_⟩
        · simpa using fits.1
        · simpa using Nat.succ_le_of_lt fits.2
        · intro x xs _
          simpa [WireFrame.length] using x.status
    -- Without it the frame stays on the line.
    · simp only [fits, if_false]
      exact ⟨[], [], by simpa using Arrived.refl r⟩

theorem arrived_arrival (r : Receiver) (a : Arrival) :
    ∃ done data, Arrived r (r.arrival a) done data := by
  cases a with
  | bytes n =>
    obtain ⟨data, h⟩ := arrived_bytes r n
    exact ⟨[], data, h⟩
  | complete => exact arrived_end r
  | tick now => exact ⟨[], [], by simp [arrival], by simp [arrival, front], by simp [arrival],
      by simp [arrival], by simp [arrival], fun ok => ⟨ok.fifo, ok.lengths, ok.opened⟩⟩

theorem arrived_arrivals (r : Receiver) (as : List Arrival) :
    ∃ done data, Arrived r (r.arrivals as) done data := by
  induction as generalizing r with
  | nil => exact ⟨[], [], .refl r⟩
  | cons a as ih =>
    obtain ⟨done₁, data₁, first⟩ := arrived_arrival r a
    obtain ⟨done₂, data₂, second⟩ := ih (r.arrival a)
    exact ⟨_, _, first.trans second⟩

theorem Ok.pop {r : Receiver} (ok : r.Ok) (n : Nat) : (r.pop n).Ok where
  fifo := by
    have := ok.fifo
    simp only [Receiver.pop, List.length_drop]
    omega
  lengths := ok.lengths
  opened := ok.opened

/-- The status of the frame on the line has not arrived. -/
theorem Ok.length_front {r : Receiver} (ok : r.Ok) (w : WireFrame) (member : w ∈ r.line.head?) :
    r.front.length = r.arrived ∧ r.arrived + 2 ≤ w.length := by
  obtain ⟨rest, shape⟩ : ∃ rest, r.line = w :: rest := by
    cases line : r.line with
    | nil => simp [line] at member
    | cons x rest => exact ⟨rest, by simpa [line] using member⟩
  have opened := ok.opened w rest shape
  have padded := w.length_padded
  refine ⟨?_, opened⟩
  rw [front, shape, List.length_take]
  omega

/-! ### Accesses -/

@[simp] theorem ioGetRXCNT_receiver (r : Receiver) (ok : r.Ok) :
    ioGetRXCNT receiver r = (r.fifo.length, r) := by
  have room := ok.fifo
  unfold rxFifoSize at room
  have value : (BitVec.ofNat 32 r.fifo.length &&& 0x00003fff#32).toNat = r.fifo.length := by
    rw [BitVec.toNat_and, BitVec.toNat_ofNat, show (0x00003fff#32).toNat = 2 ^ 14 - 1 from rfl,
      Nat.and_two_pow_sub_one_eq_mod]
    omega
  have small : ¬r.fifo.length > 8192 := by omega
  simp [ioGetRXCNT, receiver, getRegister, value, small]

@[simp] theorem ioGetRFCNT_receiver (r : Receiver) (ok : r.Ok) :
    ioGetRFCNT receiver r = (r.lengths.length, r) := by
  have room := ok.lengths
  unfold rfcntMax at room
  have value : (BitVec.ofNat 32 r.lengths.length &&& 0x000003ff#32).toNat = r.lengths.length := by
    rw [BitVec.toNat_and, BitVec.toNat_ofNat, show (0x000003ff#32).toNat = 2 ^ 10 - 1 from rfl,
      Nat.and_two_pow_sub_one_eq_mod]
    omega
  simp [ioGetRFCNT, receiver, getRegister, value, fifoFcOffset, fifoBcOffset]

theorem getRegister_bcFifoL (r : Receiver) :
    receiver.getRegister bcFifoLOffset r =
      (BitVec.ofNat 32 (r.lengths.headD 0), { r with lengths := r.lengths.tail }) := by
  simp [receiver, getRegister, bcFifoLOffset, fifoFcOffset, fifoBcOffset]

theorem pop_pop (r : Receiver) (m n : Nat) : (r.pop m).pop n = r.pop (m + n) := by
  simp [pop, List.drop_drop]

private theorem ioread32Rep_receiver (r : Receiver) (n : Nat) (enough : 4 * n ≤ r.fifo.length) :
    ioread32Rep receiver n r = (r.fifo.take (4 * n), r.pop (4 * n)) := by
  induction n generalizing r with
  | zero => simp [ioread32Rep, pop]
  | succ n ih =>
    have left : 4 * n ≤ (r.pop 4).fifo.length := by
      simp only [pop, List.length_drop]
      omega
    have word : (charsToU32 r.fifo).bytes = r.fifo.take 4 := bytes_charsToU32 (by omega)
    rw [ioread32Rep]
    change ((charsToU32 r.fifo).bytes ++ (ioread32Rep receiver n (r.pop 4)).1,
      (ioread32Rep receiver n (r.pop 4)).2) = _
    rw [ih _ left, word, pop_pop, Nat.mul_succ, Nat.add_comm (4 * n), List.take_add]
    rfl

/-- `n` rounded up to whole words. -/
def roundUp (n : Nat) : Nat := (n + 3) / 4 * 4

/-- A repeated read takes the oldest bytes, and the rest of the last word with them. -/
theorem cardGetRegisterRep_receiver (r : Receiver) (n : Nat)
    (enough : roundUp n ≤ r.fifo.length) :
    cardGetRegisterRep receiver n r = (r.fifo.take n, r.pop (roundUp n)) := by
  unfold roundUp at enough ⊢
  unfold cardGetRegisterRep
  have chunks : 4 * ((n - n % 4) / 4) = n - n % 4 := by omega
  dsimp only
  rw [ioread32Rep_receiver r _ (by omega), chunks]
  split
  next whole =>
    rw [show n - n % 4 = n by omega, show (n + 3) / 4 * 4 = n by omega]
  -- A last word is read whole, and the bytes past `n` are lost with it.
  next rest =>
    have word : (charsToU32 (r.pop (n - n % 4)).fifo).bytes = (r.pop (n - n % 4)).fifo.take 4 := by
      apply bytes_charsToU32
      simp only [pop, List.length_drop]
      omega
    change (r.fifo.take (n - n % 4) ++ (charsToU32 (r.pop (n - n % 4)).fifo).bytes.take (n % 4),
      (r.pop (n - n % 4)).pop 4) = _
    rw [word, pop_pop, List.take_take, show min (n % 4) 4 = n % 4 by omega,
      show n - n % 4 + 4 = (n + 3) / 4 * 4 by omega]
    congr 1
    rw [show r.fifo.take n = r.fifo.take (n - n % 4 + n % 4) by congr 1; omega, List.take_add]
    rfl

end Receiver

end Fscc
