import Fscc.Registers
import Fscc.Lib.Ring

/-!
# The receive path

`fscc_fifo_read_data`, `fscc_user_next_read_size`, `fscc_user_read_frame`,
`fscc_user_read_stream`, `fscc_io_apply_timestamps` and `fscc_io_purge_rx`, as `io.c` computes
them. A loop body that works on one descriptor is a function of that descriptor; the loop puts the
result back and moves the index.
-/

namespace Fscc

open CInt

/-- The receive fields of `struct fscc_port`. -/
structure RxPort where
  rxDescriptors : List IoFrame
  userRxDesc : Nat
  fifoRxDesc : Nat
  rxBytesInFrame : Int
  rxFrameSize : Int
deriving DecidableEq, Repr

/-- The settings of a port that a read looks at. -/
structure Settings where
  appendStatus : Bool
  appendTimestamp : Bool
  rxMultiple : Bool
deriving DecidableEq, Repr

variable {δ : Type} (dev : Device δ) (mem : Memory)

/-! ### `fscc_fifo_read_data` -/

/-- What one pass of the drain works on: its descriptor, `new_control`, and the two
counters of the port. -/
structure Drain where
  frame : IoFrame
  newControl : BitVec 32
  rxBytesInFrame : Int
  rxFrameSize : Int
deriving DecidableEq, Repr

/-- `rx_frame_size` once RFCNT has been looked at. -/
def takeFrameSize (rxFrameSize : Int) (d : δ) : Int × δ :=
  if rxFrameSize = 0 then
    let rfcnt := ioGetRFCNT dev d
    if rfcnt.1 ≠ 0 then
      let size := dev.getRegister bcFifoLOffset rfcnt.2
      (size.1.toInt, size.2)
    else (rxFrameSize, rfcnt.2)
  else (rxFrameSize, d)

/-- `receive_length`, cut to the room left in the descriptor. -/
def receiveLength (rxFrameSize rxBytesInFrame : Int) (newControl : BitVec 32) (d : δ) : Nat × δ :=
  let room := sub32 mem.rxSize (cnt newControl)
  if rxFrameSize ≠ 0 then
    let wanted := if rxBytesInFrame < rxFrameSize then ofInt32 (rxFrameSize - rxBytesInFrame) else 0
    (min wanted room, d)
  else
    let rxcnt := ioGetRXCNT dev d
    (min (rxcnt.1 - rxcnt.1 % 4) room, rxcnt.2)

/-- The first half of a pass: find out how much to take and take it. -/
def fifoReadFetch (s : Drain) (d : δ) : Drain × δ :=
  let size := takeFrameSize dev s.rxFrameSize d
  let length := receiveLength dev mem size.1 s.rxBytesInFrame s.newControl size.2
  let data := if length.1 = 0 then ([], length.2) else cardGetRegisterRep dev length.1 length.2
  ({ frame := s.frame.setBuffer (memcpyAt s.frame.buffer (cnt s.newControl) data.1)
     newControl := s.newControl + BitVec.ofNat 32 length.1
     rxBytesInFrame := toInt32 (s.rxBytesInFrame + length.1)
     rxFrameSize := size.1 }, data.2)

/-- `set_timestamp` unless the descriptor has a timestamp already. -/
def stampFrame (f : IoFrame) (d : δ) : IoFrame × δ :=
  if f.timestamp.isEmpty then
    let now := dev.ktime d
    (f.setTimestamp now.1, now.2)
  else (f, d)

/-- The second half of a pass: finalise the descriptor and the frame if they are done. -/
def fifoReadFinish (s : Drain) (d : δ) : Drain × δ :=
  let full := if mem.rxSize ≤ cnt s.newControl
    then s.newControl &&& ~~~dmaMaxLength ||| descCstopBit else s.newControl
  let ended := decide (0 < s.rxFrameSize ∧ s.rxFrameSize ≤ s.rxBytesInFrame)
  let newControl := if ended
    then BitVec.ofInt 32 s.rxFrameSize ||| descCstopBit ||| descFeBit else full
  let finalised := if hasCstop newControl
    then let stamped := stampFrame dev s.frame d; (stamped.1.setDataCount mem.rxSize, stamped.2)
    else (s.frame, d)
  ({ frame := finalised.1.setControl newControl
     newControl := newControl
     rxBytesInFrame := if ended then 0 else s.rxBytesInFrame
     rxFrameSize := if ended then 0 else s.rxFrameSize }, finalised.2)

/-- The descriptor at `fifo_rx_desc`. -/
def RxPort.fifoFrame (p : RxPort) : IoFrame := p.rxDescriptors.getD p.fifoRxDesc default

/-- What the drain starts a pass with. -/
def RxPort.load (p : RxPort) : Drain :=
  ⟨p.fifoFrame, p.fifoFrame.desc.control, p.rxBytesInFrame, p.rxFrameSize⟩

/-- The port after a pass, with the index moved past a finished descriptor. -/
def RxPort.store (p : RxPort) (s : Drain) : RxPort :=
  { p with
    rxDescriptors := p.rxDescriptors.set p.fifoRxDesc s.frame
    fifoRxDesc := if hasCstop s.newControl then Ring.next mem.rxNum p.fifoRxDesc else p.fifoRxDesc
    rxBytesInFrame := s.rxBytesInFrame
    rxFrameSize := s.rxFrameSize }

def fifoReadLoop : Nat → RxPort → δ → RxPort × δ
  | 0, p, d => (p, d)
  | passes + 1, p, d =>
    if p.fifoFrame.cstop then (p, d)
    else
      let fetched := fifoReadFetch dev mem p.load d
      let done := fifoReadFinish dev mem fetched.1 fetched.2
      -- An unfinished descriptor means the FIFO is out of data.
      if hasCstop done.1.newControl then fifoReadLoop passes (p.store mem done.1) done.2
      else (p.store mem done.1, done.2)

/-- `fscc_fifo_read_data`. -/
def fifoReadData (p : RxPort) (d : δ) : RxPort × δ := fifoReadLoop dev mem mem.rxNum p d

/-! ### `fscc_user_next_read_size` and `fscc_io_user_read_ready` -/

/-- One descriptor of the scan; the scan's result is the return value and `*bytes`. -/
def nextReadStep (bytes : Nat) (f : IoFrame) : Except (Bool × Nat) Nat :=
  if !f.fe && !f.cstop then .error (false, bytes)
  else if f.fe && f.cstop then .error (true, f.count)
  else .ok (addSize bytes f.desc.dataCount)

/-- `fscc_user_next_read_size`. -/
def userNextReadSize (p : RxPort) : Bool × Nat :=
  Ring.walk p.rxDescriptors default nextReadStep (fun bytes => (false, bytes))
    mem.rxNum p.userRxDesc 0

/-- `fscc_io_user_read_ready`. -/
def ioUserReadReady (streaming : Bool) (p : RxPort) : Bool :=
  let next := userNextReadSize mem p
  if streaming then next.2 != 0 else next.1

/-! ### `fscc_user_read_frame` -/

/-- The bytes of a frame that a read without status leaves out. -/
def Settings.statusLength (s : Settings) : Nat := if s.appendStatus then 0 else 2

/-- The bytes that a read with timestamps adds to a frame. -/
def Settings.timestampLength (s : Settings) : Nat := if s.appendTimestamp then sizeofTimestamp else 0

/-- `buffer_requirement`. -/
def Settings.bufferRequirement (s : Settings) (bytesInDescs : Nat) : Nat :=
  addSize (subSize bytesInDescs s.statusLength) s.timestampLength

/-- The local variables of the read loop. -/
structure Reading where
  bytesInDescs : Nat
  totalValidData : Nat
  filledFrameSize : Nat
  outLength : Nat
  tempData : List UInt8
deriving DecidableEq, Repr

/-- One descriptor of the read loop: copy out of it, append the timestamp after the last
byte of the frame, and free it. -/
def readDescriptor (settings : Settings) (f : IoFrame) (r : Reading) (d : δ) :
    IoFrame × Reading × δ :=
  let plannedMoveSize := if f.fe && f.cstop then subSize f.count r.filledFrameSize
    else f.desc.dataCount
  let realMoveSize := min plannedMoveSize r.totalValidData
  let copied := if realMoveSize = 0 then r.tempData
    else memcpyAt r.tempData r.outLength (bytesAt f.buffer realMoveSize)
  let bytesInDescs := r.bytesInDescs - plannedMoveSize
  let outLength := add32 r.outLength realMoveSize
  let append := bytesInDescs == 0 && settings.appendTimestamp
  let stamp := if append && f.timestamp.isEmpty then dev.ktime d else (f.timestamp, d)
  ((f.setTimestamp .clear).setControl descHiBit,
    { bytesInDescs := bytesInDescs
      totalValidData := r.totalValidData - realMoveSize
      filledFrameSize := addSize r.filledFrameSize realMoveSize
      outLength := if append then add32 outLength sizeofTimestamp else outLength
      tempData := if append then memcpyAt copied outLength stamp.1.bytes else copied },
    stamp.2)

/-- What the loop does at the end of a frame: `none` when it stops there. `next` is what
`fscc_user_next_read_size` says about the frame that follows. -/
def nextFrame (settings : Settings) (bufLength : Nat) (next : Bool × Nat) (r : Reading) :
    Option Reading :=
  if !settings.rxMultiple then none
  else if !next.1 then none
  else if settings.bufferRequirement next.2 > subSize bufLength r.outLength then none
  else some { r with
    bytesInDescs := next.2
    totalValidData := subSize next.2 settings.statusLength
    filledFrameSize := 0 }

/-- The descriptor at `user_rx_desc`. -/
def RxPort.userFrame (p : RxPort) : IoFrame := p.rxDescriptors.getD p.userRxDesc default

/-- The port with `user_rx_desc` moved past the descriptor that was there, now `f`. -/
def RxPort.putUser (p : RxPort) (f : IoFrame) : RxPort :=
  { p with
    rxDescriptors := p.rxDescriptors.set p.userRxDesc f
    userRxDesc := Ring.next mem.rxNum p.userRxDesc }

def userReadLoop (settings : Settings) (bufLength : Nat) :
    Nat → RxPort → Reading → δ → RxPort × Reading × δ
  | 0, p, r, d => (p, r, d)
  | passes + 1, p, r, d =>
    let read := readDescriptor dev settings p.userFrame r d
    let p := p.putUser mem read.1
    if read.2.1.bytesInDescs = 0 then
      match nextFrame settings bufLength (userNextReadSize mem p) read.2.1 with
      | none => (p, read.2.1, read.2.2)
      | some r => userReadLoop settings bufLength passes p r read.2.2
    else userReadLoop settings bufLength passes p read.2.1 read.2.2

/-- `fscc_user_read_frame`, its result and what it copied to the caller. `alloc` is
whether `kzalloc` succeeds, `unmovedBytes` what `copy_to_user` leaves. -/
def userReadFrame (settings : Settings) (bufLength : Nat) (alloc : Bool) (unmovedBytes : Nat)
    (p : RxPort) (d : δ) : Except Errno (List UInt8) × RxPort × δ :=
  if !alloc then (.ok [], p, d)
  else
    let next := userNextReadSize mem p
    if !next.1 then (.error .enobufs, p, d)
    else if settings.bufferRequirement next.2 > bufLength then (.error .enobufs, p, d)
    else
      let start : Reading :=
        { bytesInDescs := next.2
          totalValidData := subSize next.2 settings.statusLength
          filledFrameSize := 0
          outLength := 0
          tempData := List.replicate bufLength 0 }
      let read := userReadLoop dev mem settings bufLength mem.rxNum p start d
      let outLength := read.2.1.outLength
      (.ok (read.2.1.tempData.take (outLength - unmovedBytes)), read.1, read.2.2)

/-! ### `fscc_user_read_stream` -/

/-- One descriptor of the stream loop, the `i`th: the descriptor, the bytes copied out of
it, and whether it was emptied. `space` is `buf_length - out_length`. -/
def streamDescriptor (i space : Nat) (f : IoFrame) : IoFrame × List UInt8 × Bool :=
  let receiveLength := if f.desc.dataCount < space then f.desc.dataCount else space
  let data := bytesAt f.buffer receiveLength
  if receiveLength = f.desc.dataCount then
    (((f.setDataCount mem.rxSize).setTimestamp .clear).setControl
      (if i % 2 = 1 then descHiBit else 0#32), data, true)
  else
    let remaining := f.desc.dataCount - receiveLength
    ((f.setBuffer (memcpyAt f.buffer 0 ((f.buffer.drop receiveLength).take remaining))).setDataCount
      remaining, data, false)

def userReadStreamLoop (bufLength : Nat) :
    Nat → RxPort → Nat → List UInt8 → RxPort × Nat × List UInt8
  | 0, p, outLength, tempData => (p, outLength, tempData)
  | passes + 1, p, outLength, tempData =>
    let f := p.userFrame
    if !f.fe && !f.cstop then (p, outLength, tempData)
    else
      let read := streamDescriptor mem (mem.rxNum - (passes + 1)) (subSize bufLength outLength) f
      let tempData := memcpyAt tempData outLength read.2.1
      let outLength := add32 outLength read.2.1.length
      if read.2.2 then userReadStreamLoop bufLength passes (p.putUser mem read.1) outLength tempData
      else
        ({ p with rxDescriptors := p.rxDescriptors.set p.userRxDesc read.1 }, outLength, tempData)

/-- `fscc_user_read_stream`. -/
def userReadStream (bufLength : Nat) (alloc : Bool) (unmovedBytes : Nat) (p : RxPort) :
    List UInt8 × RxPort :=
  if !alloc then ([], p)
  else
    let read := userReadStreamLoop mem bufLength mem.rxNum p 0 (List.replicate bufLength 0)
    (read.2.2.take (read.2.1 - unmovedBytes), read.1)

/-! ### `fscc_io_apply_timestamps` and `fscc_io_purge_rx` -/

/-- The loop of `fscc_io_apply_timestamps`, from the descriptor `curDesc`. -/
def applyTimestampsLoop : Nat → Nat → RxPort → δ → RxPort × δ
  | 0, _, p, d => (p, d)
  | passes + 1, curDesc, p, d =>
    let f := p.rxDescriptors.getD curDesc default
    if !f.fe && !f.cstop then (p, d)
    else
      let stamped := stampFrame dev f d
      applyTimestampsLoop passes (Ring.next mem.rxNum curDesc)
        { p with rxDescriptors := p.rxDescriptors.set curDesc stamped.1 } stamped.2

/-- `fscc_io_apply_timestamps`. -/
def ioApplyTimestamps (p : RxPort) (d : δ) : RxPort × δ :=
  applyTimestampsLoop dev mem mem.rxNum p.userRxDesc p d

/-- A receive descriptor as a purge leaves it. -/
def purgedRxFrame (f : IoFrame) : IoFrame :=
  ((f.setControl descHiBit).setDataCount mem.rxSize).setTimestamp .clear

/-- What `fscc_io_purge_rx` does to the ring. -/
def resetRx (p : RxPort) : RxPort :=
  { rxDescriptors := p.rxDescriptors.map (purgedRxFrame mem)
    userRxDesc := 0
    fifoRxDesc := 0
    rxBytesInFrame := 0
    rxFrameSize := 0 }

/-- `fscc_io_purge_rx`. Its DMA part is empty in FIFO mode. -/
def ioPurgeRx (cfg : PortConfig) (p : RxPort) (d : δ) : RxPort × List BusWrite × δ :=
  let rres := ioExecuteRRES dev cfg d
  let p := resetRx mem p
  let first := (p.rxDescriptors.getD 0 default).descPhysicalAddress
  (p, dmaExecuteSTOPR cfg ++ dmaExecuteRSTR cfg ++ issued rres.1 ++
    (if cfg.isDma then [.register 2 drdbOffset first] else []) ++ dmaExecuteGOR cfg, rres.2)

end Fscc
