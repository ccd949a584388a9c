import Fscc.Registers
import Fscc.Lib.Ring

/-!
# The transmit path

`fscc_user_get_tx_space`, `fscc_user_write_frame`, `fscc_fifo_write_data`,
`fscc_io_transmit_frame` and `fscc_io_purge_tx`, as `io.c` computes them, and `oframe_worker`
of `isr.c`. As on the receive side, a loop body is a function of the descriptor it works on.
-/

namespace Fscc

open CInt

/-- The transmit fields of `struct fscc_port`. -/
structure TxPort where
  txDescriptors : List IoFrame
  userTxDesc : Nat
  fifoTxDesc : Nat
deriving DecidableEq, Repr

variable {δ : Type} (dev : Device δ) (cfg : PortConfig) (mem : Memory)

/-! ### `fscc_user_get_tx_space` -/

/-- One descriptor of the scan; the scan's result is `space`. -/
def txSpaceStep (space : Nat) (f : IoFrame) : Except Nat Nat :=
  if !f.cstop then .error space else .ok (addSize space mem.txSize)

/-- `fscc_user_get_tx_space`. -/
def userGetTxSpace (p : TxPort) : Nat :=
  Ring.walk p.txDescriptors default (txSpaceStep mem) id mem.txNum p.userTxDesc 0

/-! ### `fscc_user_write_frame` -/

/-- What `copy_from_user` leaves in a zeroed buffer when it does not copy the last
`unmovedBytes` of `buf`. -/
def copyFromUser (buf : List UInt8) (unmovedBytes : Nat) : List UInt8 :=
  buf.take (buf.length - unmovedBytes) ++
    List.replicate (buf.length - (buf.length - unmovedBytes)) 0

/-- `transmit_length`. -/
def transmitLength (dataLength outLength : Nat) : Nat :=
  if mem.txSize < subSize dataLength outLength then mem.txSize else subSize dataLength outLength

/-- One descriptor of the write loop, `first` when `i == 0`. -/
def writeDescriptor (tempData : List UInt8) (first : Bool) (outLength : Nat) (f : IoFrame) :
    IoFrame :=
  let length := transmitLength mem tempData.length outLength
  let data := bytesAt (tempData.drop outLength) length
  let control := if first then descHiBit ||| descFeBit ||| BitVec.ofNat 32 tempData.length
    else descHiBit ||| BitVec.ofNat 32 length
  ((f.setBuffer (memcpyAt f.buffer 0 data)).setDataCount length).setControl control

/-- The descriptor at `user_tx_desc`. -/
def TxPort.userFrame (p : TxPort) : IoFrame := p.txDescriptors.getD p.userTxDesc default

/-- The port with `user_tx_desc` moved past the descriptor that was there, now `f`. -/
def TxPort.putUser (p : TxPort) (f : IoFrame) : TxPort :=
  { p with
    txDescriptors := p.txDescriptors.set p.userTxDesc f
    userTxDesc := Ring.next mem.txNum p.userTxDesc }

/-- The loop of `fscc_user_write_frame`: its status, the port, and `start_desc`. -/
def userWriteLoop (tempData : List UInt8) :
    Nat → Bool → TxPort → Nat → BitVec 32 → Except Errno Unit × TxPort × BitVec 32
  | 0, _, p, _, startDesc => (.ok (), p, startDesc)
  | passes + 1, first, p, outLength, startDesc =>
    if !p.userFrame.cstop then (.error .enobufs, p, startDesc)
    else
      let startDesc := if startDesc = 0#32 then p.userFrame.descPhysicalAddress else startDesc
      let p' := p.putUser mem (writeDescriptor mem tempData first outLength p.userFrame)
      let outLength := outLength + transmitLength mem tempData.length outLength
      if outLength = tempData.length then (.ok (), p', startDesc)
      else userWriteLoop tempData passes false p' outLength startDesc

/-- The end of `fscc_user_write_frame`: a DMA engine that stands still is started at
`start_desc`. -/
def startTransmit (startDesc : BitVec 32) (d : δ) : List BusWrite × δ :=
  if cfg.isDma then
    let running := dmaIsTxRunning dev cfg d
    if running.1 then ([], running.2)
    else
      let transmit := ioExecuteTransmit dev cfg true running.2
      (.register 2 dtdbOffset startDesc :: issued transmit.1, transmit.2)
  else ([], d)

/-- `fscc_user_write_frame`. `alloc` is whether `kzalloc` succeeds, `unmovedBytes` what
`copy_from_user` leaves. -/
def userWriteFrame (alloc : Bool) (unmovedBytes : Nat) (buf : List UInt8) (p : TxPort) (d : δ) :
    Except Errno Unit × TxPort × List BusWrite × δ :=
  if !alloc then (.ok (), p, [], d)
  else
    let written := userWriteLoop mem (copyFromUser buf unmovedBytes) mem.txNum true p 0 0#32
    let started := startTransmit dev cfg written.2.2 d
    (written.1, written.2.1, started.1, started.2)

/-! ### `fscc_fifo_write_data` and `fscc_io_transmit_frame` -/

/-- `TX_FIFO_SIZE`. -/
def txFifoSize : Nat := 4096

/-- `fifo_space` for a reading of TXCNT; a wrapped one is above `TX_FIFO_SIZE`. -/
def fifoSpaceFor (txcnt : Nat) : Nat :=
  let fifoSpace := sub32 (sub32 txFifoSize txcnt) 1
  fifoSpace - fifoSpace % 4

/-- `size_in_fifo`. -/
def sizeInFifo (writeLength : Nat) : Nat := add32 writeLength (4 - writeLength % 4)

/-- The local variables of the loop that fills the FIFO. -/
structure Filling where
  fifoSpace : Nat
  frameSize : Nat
  dataWritten : Bool
deriving DecidableEq, Repr

/-- Whether the loop stops at a descriptor. -/
def fillStops (tfcnt : Nat) (f : IoFrame) (s : Filling) : Bool :=
  f.cstop || decide (s.fifoSpace < sizeInFifo f.desc.dataCount) ||
    (f.fe && (decide (255 < tfcnt) || s.frameSize != 0))

/-- The local variables after a descriptor. -/
def fillStep (f : IoFrame) (s : Filling) : Filling where
  fifoSpace := sub32 s.fifoSpace (sizeInFifo f.desc.dataCount)
  frameSize := if f.fe then f.count else s.frameSize
  dataWritten := true

/-- A transmit descriptor that is empty. -/
def sentFrame (f : IoFrame) : IoFrame := (f.setDataCount 0).setControl descCstopBit

/-- The descriptor at `fifo_tx_desc`. -/
def TxPort.fifoFrame (p : TxPort) : IoFrame := p.txDescriptors.getD p.fifoTxDesc default

/-- The port with the descriptor at `fifo_tx_desc` emptied and the index past it. -/
def TxPort.retire (p : TxPort) : TxPort :=
  { p with
    txDescriptors := p.txDescriptors.set p.fifoTxDesc (sentFrame p.fifoFrame)
    fifoTxDesc := Ring.next mem.txNum p.fifoTxDesc }

def fifoWriteLoop (tfcnt : Nat) : Nat → TxPort → Filling → TxPort × Filling × List BusWrite
  | 0, p, s => (p, s, [])
  | passes + 1, p, s =>
    let f := p.fifoFrame
    if fillStops tfcnt f s then (p, s, [])
    else
      let stored := cardSetRegisterRep 0 fifoOffset f.buffer f.desc.dataCount
      let rest := fifoWriteLoop tfcnt passes (p.retire mem) (fillStep f s)
      (rest.1, rest.2.1, stored ++ rest.2.2)

/-- `fscc_fifo_write_data`: its result, the port, and what it stores. -/
def fifoWriteData (p : TxPort) (d : δ) : Bool × TxPort × List BusWrite × δ :=
  let tfcnt := ioGetTFCNT dev d
  if 254 < tfcnt.1 then (false, p, [], tfcnt.2)
  else
    let txcnt := ioGetTXCNT dev tfcnt.2
    let fifoSpace := fifoSpaceFor txcnt.1
    if txFifoSize < fifoSpace then (false, p, [], txcnt.2)
    else
      let filled := fifoWriteLoop mem tfcnt.1 mem.txNum p ⟨fifoSpace, 0, false⟩
      let lengths := if filled.2.1.frameSize = 0 then []
        else [.register 0 bcFifoLOffset (BitVec.ofNat 32 filled.2.1.frameSize)]
      (filled.2.1.dataWritten, filled.1, filled.2.2 ++ lengths, txcnt.2)

/-- `fscc_io_transmit_frame`. -/
def ioTransmitFrame (p : TxPort) (d : δ) : Bool × TxPort × List BusWrite × δ :=
  let result := fifoWriteData dev mem p d
  if result.1 then
    let transmit := ioExecuteTransmit dev cfg false result.2.2.2
    (true, result.2.1, result.2.2.1 ++ issued transmit.1, transmit.2)
  else result

/-- `oframe_worker`. -/
def oframeWorker (p : TxPort) (d : δ) : TxPort × List BusWrite × δ :=
  if cfg.isDma then (p, [], d) else (ioTransmitFrame dev cfg mem p d).2

/-! ### `fscc_io_purge_tx` -/

/-- A transmit descriptor as a purge leaves it. -/
def purgedTxFrame (f : IoFrame) : IoFrame :=
  ((f.setControl descCstopBit).setDataCount 0).setTimestamp .clear

/-- What `fscc_io_purge_tx` does to the ring. -/
def resetTx (p : TxPort) : TxPort where
  txDescriptors := p.txDescriptors.map purgedTxFrame
  userTxDesc := 0
  fifoTxDesc := 0

/-- `fscc_io_purge_tx`, without its wake-up of `output_queue`. -/
def ioPurgeTx (p : TxPort) (d : δ) : TxPort × List BusWrite × δ :=
  let tres := ioExecuteTRES dev cfg d
  let p := resetTx p
  let first := (p.txDescriptors.getD 0 default).descPhysicalAddress
  (p, dmaExecuteSTOPT cfg ++ dmaExecuteRSTT cfg ++ issued tres.1 ++
    if cfg.isDma then [.register 2 dtdbOffset first] else [], tres.2)

end Fscc
