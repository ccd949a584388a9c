import Fscc.Descriptor

/-!
# The device as the receive path sees it

Registers are read through `fscc_port_get_register`, the receive FIFO one 32-bit word
at a time, and the clock through `set_timestamp`. The driver is modelled over any
device: what a reading is, and how the device moves on, belongs to the instance.
-/

namespace Fscc

/-! ### Registers -/

def fifoOffset : Nat := 0x00
def bcFifoLOffset : Nat := 0x04
def fifoBcOffset : Nat := 0x0c
def fifoFcOffset : Nat := 0x10
def cmdrOffset : Nat := 0x14
def starOffset : Nat := 0x18

/-! ### Words -/

/-- A 32-bit bus word, its bytes in memory order. -/
structure Word where
  b0 : UInt8
  b1 : UInt8
  b2 : UInt8
  b3 : UInt8
deriving DecidableEq, Repr

def Word.bytes (w : Word) : List UInt8 := [w.b0, w.b1, w.b2, w.b3]

@[simp] theorem Word.length_bytes (w : Word) : w.bytes.length = 4 := rfl

/-- `chars_to_u32`: the four bytes at the front of `data`. -/
def charsToU32 (data : List UInt8) : Word :=
  ⟨data.getD 0 0, data.getD 1 0, data.getD 2 0, data.getD 3 0⟩

theorem bytes_charsToU32 {data : List UInt8} (enough : 4 ≤ data.length) :
    (charsToU32 data).bytes = data.take 4 := by
  match data, enough with
  | a :: b :: c :: d :: _, _ => rfl

/-- Readings of a device with state `δ`. -/
structure Device (δ : Type) where
  getRegister : Nat → δ → BitVec 32 × δ
  readFifo : δ → Word × δ
  ktime : δ → Timestamp × δ

/-- A device all of whose registers read as its state, and whose clock stands. -/
def constant : Device (BitVec 32) where
  getRegister _ d := (d, d)
  readFifo d := (⟨0, 0, 0, 0⟩, d)
  ktime d := (⟨1#64, 0#64⟩, d)

variable {δ : Type} (dev : Device δ)

/-! ### Repeated reads -/

/-- `ioread32_rep` on the receive FIFO. -/
def ioread32Rep : Nat → δ → List UInt8 × δ
  | 0, d => ([], d)
  | chunks + 1, d =>
    let word := dev.readFifo d
    let rest := ioread32Rep chunks word.2
    (word.1.bytes ++ rest.1, rest.2)

/-- `fscc_card_get_register_rep` at `FIFO_OFFSET` in a little-endian build: the bytes it
stores, whole words first and then what is left of one more. -/
def cardGetRegisterRep (byteCount : Nat) (d : δ) : List UInt8 × δ :=
  let leftoverCount := byteCount % 4
  let chunks := (byteCount - leftoverCount) / 4
  let whole := ioread32Rep dev chunks d
  if leftoverCount = 0 then whole
  else
    let incomingData := dev.readFifo whole.2
    (whole.1 ++ incomingData.1.bytes.take leftoverCount, incomingData.2)

@[simp] theorem length_ioread32Rep (n : Nat) (d : δ) : (ioread32Rep dev n d).1.length = 4 * n := by
  induction n generalizing d with
  | zero => rfl
  | succ n ih =>
    simp only [ioread32Rep, List.length_append, Word.length_bytes, ih]
    omega

/-- A repeated read stores exactly as many bytes as it is asked for. -/
@[simp] theorem length_cardGetRegisterRep (n : Nat) (d : δ) :
    (cardGetRegisterRep dev n d).1.length = n := by
  unfold cardGetRegisterRep
  dsimp only
  split
  next whole =>
    rw [length_ioread32Rep]
    omega
  next partial_ =>
    rw [List.length_append, length_ioread32Rep, List.length_take, Word.length_bytes]
    omega

/-! ### Counters -/

/-- `fscc_io_get_RXCNT`. -/
def ioGetRXCNT (d : δ) : Nat × δ :=
  let fifoBc := dev.getRegister fifoBcOffset d
  let value := (fifoBc.1 &&& 0x00003fff#32).toNat
  (if value > 8192 then 0 else value, fifoBc.2)

/-- `fscc_io_get_RFCNT`. -/
def ioGetRFCNT (d : δ) : Nat × δ :=
  let fifoFc := dev.getRegister fifoFcOffset d
  ((fifoFc.1 &&& 0x000003ff#32).toNat, fifoFc.2)

end Fscc
