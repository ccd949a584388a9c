import Fscc.Device

/-!
# Register writes

`fscc_port_set_register` with its clock check, `fscc_card_set_register_rep` in a
little-endian build, and the commands of `io.c`. A call gives the stores that reach the
card, in order.
-/

namespace Fscc

/-- Error codes, returned negated by the driver. -/
inductive Errno where
  | enobufs
  | eagain
  | erestartsys
  | eopnotsupp
  | etimedout
  | enomem
  | einval
  | enotty
deriving DecidableEq, Repr

/-! ### Registers of BAR 2 -/

def dmaccrOffset : Nat := 0x04
def drdbOffset : Nat := 0x0c
def dtdbOffset : Nat := 0x10
def dstarOffset : Nat := 0x30

/-- A register of BAR 2 is read at its offset from here, clear of those of BAR 0. -/
def bar2 : Nat := 0x1000

/-- A 32-bit store to the card: a register's value, or a word of a repeated write. -/
inductive BusWrite where
  | register (bar offset : Nat) (value : BitVec 32)
  | word (bar offset : Nat) (data : Word)
deriving DecidableEq, Repr

/-- The fields of `struct fscc_port` that commands look at; `isDma` is `fscc_port_is_dma`. -/
structure PortConfig where
  isDma : Bool
  channel : Nat
  txModifiers : Nat
  ignoreTimeout : Bool
deriving DecidableEq, Repr

/-- A port in FIFO mode that does without a clock. -/
def fifoConfig : PortConfig := ⟨false, 0, 0, true⟩

/-- A port that does DMA, without a clock. -/
def dmaConfig : PortConfig := ⟨true, 0, 0, true⟩

variable {δ : Type} (dev : Device δ) (cfg : PortConfig)

/-! ### The clock check -/

/-- `CE_BIT`. -/
def ceBit : BitVec 32 := 0x00040000#32

/-- `DEFAULT_TIMEOUT_VALUE`. -/
def defaultTimeoutValue : Nat := 50

def timedOutLoop : Nat → δ → Bool × δ
  | 0, d => (true, d)
  | tries + 1, d =>
    let star := dev.getRegister starOffset d
    if star.1 &&& ceBit = 0#32 then (false, star.2) else timedOutLoop tries star.2

/-- `fscc_port_timed_out`. -/
def portTimedOut (d : δ) : Bool × δ := timedOutLoop dev defaultTimeoutValue d

/-- `fscc_port_set_register`: the store, unless it is a command and the clock is missing. -/
def portSetRegister (bar offset : Nat) (value : BitVec 32) (d : δ) : Except Errno BusWrite × δ :=
  if offset = cmdrOffset ∧ cfg.ignoreTimeout = false then
    let timedOut := portTimedOut dev d
    if timedOut.1 then (.error .etimedout, timedOut.2)
    else (.ok (.register bar offset value), timedOut.2)
  else (.ok (.register bar offset value), d)

/-- What reaches the card of a store whose result the caller ignores. -/
def issued : Except Errno BusWrite → List BusWrite
  | .ok w => [w]
  | .error _ => []

/-! ### Repeated writes -/

/-- `iowrite32_rep`. -/
def iowrite32Rep (bar offset : Nat) : Nat → List UInt8 → List BusWrite
  | 0, _ => []
  | chunks + 1, data =>
    .word bar offset (charsToU32 data) :: iowrite32Rep bar offset chunks (data.drop 4)

/-- `fscc_card_set_register_rep` in a little-endian build: whole words first, then one more
for what is left, filled up with the bytes that follow in memory. -/
def cardSetRegisterRep (bar offset : Nat) (data : List UInt8) (byteCount : Nat) : List BusWrite :=
  if byteCount = 0 then []
  else
    let leftoverCount := byteCount % 4
    let chunks := (byteCount - leftoverCount) / 4
    iowrite32Rep bar offset chunks data ++
      if leftoverCount = 0 then []
      else [.word bar offset (charsToU32 (data.drop (byteCount - leftoverCount)))]

/-! ### Commands -/

/-- `fscc_io_execute_RRES`. -/
def ioExecuteRRES (d : δ) : Except Errno BusWrite × δ :=
  portSetRegister dev cfg 0 cmdrOffset 0x00020000#32 d

/-- `fscc_io_execute_TRES`. -/
def ioExecuteTRES (d : δ) : Except Errno BusWrite × δ :=
  portSetRegister dev cfg 0 cmdrOffset 0x08000000#32 d

/-- The commands `fscc_dma_execute_*`, written to `DMACCR` of a port that does DMA. -/
def dmaExecute (value : BitVec 32) : List BusWrite :=
  if cfg.isDma then [.register 2 dmaccrOffset value] else []

def dmaExecuteRSTR : List BusWrite := dmaExecute cfg 0x00000010#32
def dmaExecuteRSTT : List BusWrite := dmaExecute cfg 0x00000020#32
def dmaExecuteGOR : List BusWrite := dmaExecute cfg 0x00000001#32
def dmaExecuteSTOPR : List BusWrite := dmaExecute cfg 0x00000100#32
def dmaExecuteSTOPT : List BusWrite := dmaExecute cfg 0x00000200#32

/-- A channel's stop bit in `DSTAR` is clear. -/
def dmaIsRunning (first second : BitVec 32) (d : δ) : Bool × δ :=
  let dstar := dev.getRegister (bar2 + dstarOffset) d
  (dstar.1 &&& (if cfg.channel = 0 then first else second) == 0#32, dstar.2)

/-- `fscc_dma_is_tx_running`. -/
def dmaIsTxRunning (d : δ) : Bool × δ := dmaIsRunning dev cfg 0x2#32 0x8#32 d

/-- A bit of `tx_modifiers`, `enum transmit_modifiers`, and the command bit it stands for. -/
def modifierBit (flag : Nat) (bit : BitVec 32) : BitVec 32 :=
  if cfg.txModifiers &&& flag ≠ 0 then bit else 0#32

/-- `fscc_io_execute_transmit`. -/
def ioExecuteTransmit (dma : Bool) (d : δ) : Except Errno BusWrite × δ :=
  let txt := modifierBit cfg 2 0x10000000#32
  let txext := modifierBit cfg 4 0x20000000#32
  if dma then
    portSetRegister dev cfg 2 dmaccrOffset
      (0x00000002#32 ||| modifierBit cfg 1 0x40000000#32 ||| txt ||| txext) d
  else
    portSetRegister dev cfg 0 cmdrOffset
      (0x01000000#32 ||| modifierBit cfg 1 0x02000000#32 ||| txt ||| txext) d

/-- `fscc_io_get_TXCNT`. -/
def ioGetTXCNT (d : δ) : Nat × δ :=
  let fifoBc := dev.getRegister fifoBcOffset d
  (((fifoBc.1 &&& 0x1fff0000#32) >>> 16).toNat, fifoBc.2)

/-- `fscc_io_get_TFCNT`. -/
def ioGetTFCNT (d : δ) : Nat × δ :=
  let fifoFc := dev.getRegister fifoFcOffset d
  (((fifoFc.1 &&& 0x01ff0000#32) >>> 16).toNat, fifoFc.2)

theorem ioGetTXCNT_le (d : δ) : (ioGetTXCNT dev d).1 ≤ 8191 := by
  have masked : (dev.getRegister fifoBcOffset d).1.toNat &&& 0x1fff0000 ≤ 0x1fff0000 :=
    Nat.and_le_right
  simp only [ioGetTXCNT, BitVec.toNat_ushiftRight, BitVec.toNat_and, Nat.shiftRight_eq_div_pow]
  exact Nat.div_le_of_le_mul (by simpa using masked)

/-! ### What repeated writes store -/

/-- The bytes among `ws` stored to the FIFO, in order. -/
def fifoBytes (ws : List BusWrite) : List UInt8 :=
  ws.flatMap fun
    | .word 0 offset data => if offset = fifoOffset then data.bytes else []
    | _ => []

/-- The values among `ws` stored to BC_FIFO_L, in order. -/
def frameLengths (ws : List BusWrite) : List Nat :=
  ws.filterMap fun
    | .register 0 offset value => if offset = bcFifoLOffset then some value.toNat else none
    | _ => none

@[simp] theorem fifoBytes_append (xs ys : List BusWrite) :
    fifoBytes (xs ++ ys) = fifoBytes xs ++ fifoBytes ys := List.flatMap_append

@[simp] theorem frameLengths_append (xs ys : List BusWrite) :
    frameLengths (xs ++ ys) = frameLengths xs ++ frameLengths ys := List.filterMap_append

@[simp] theorem fifoBytes_nil : fifoBytes [] = [] := rfl

@[simp] theorem frameLengths_nil : frameLengths [] = [] := rfl

@[simp] theorem fifoBytes_register (bar offset : Nat) (value : BitVec 32) :
    fifoBytes [.register bar offset value] = [] := rfl

@[simp] theorem frameLengths_bcFifoL (value : BitVec 32) :
    frameLengths [.register 0 bcFifoLOffset value] = [value.toNat] := rfl

/-- A command is neither data nor a length. -/
theorem fifoBytes_issued_command (value : BitVec 32) (d : δ) :
    fifoBytes (issued (portSetRegister dev cfg 0 cmdrOffset value d).1) = [] ∧
      frameLengths (issued (portSetRegister dev cfg 0 cmdrOffset value d).1) = [] := by
  unfold portSetRegister
  dsimp only
  split
  next =>
    split
    next => exact ⟨rfl, rfl⟩
    next => exact ⟨rfl, rfl⟩
  next => exact ⟨rfl, rfl⟩

end Fscc
