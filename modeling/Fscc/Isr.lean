import Fscc.Rx

/-!
# The interrupt handler and what it starts

What `fscc_isr` of `isr.c` makes of the interrupt status register, the receive tasklets and the
timer. A handled interrupt also sets the 250 ms timer anew, whether it was pending or not.
-/

namespace Fscc

/-! ### Interrupt status bits -/

def rfs : BitVec 32 := 0x00000001#32
def rft : BitVec 32 := 0x00000002#32
def rfe : BitVec 32 := 0x00000004#32
def rfo : BitVec 32 := 0x00000008#32
def rdo : BitVec 32 := 0x00000010#32
def drHi : BitVec 32 := 0x00000400#32
def drFe : BitVec 32 := 0x00001000#32
def drStop : BitVec 32 := 0x00004000#32
def tft : BitVec 32 := 0x00010000#32
def alls : BitVec 32 := 0x00020000#32
def tdu : BitVec 32 := 0x00040000#32

/-- The tasklets that an interrupt schedules. -/
structure Schedules where
  timestamp : Bool
  iframe : Bool
  oframe : Bool
deriving DecidableEq, Repr

/-- `fscc_isr`; `none` when the interrupt is another device's. -/
def isr (isDma : Bool) (isrValue : BitVec 32) : Option Schedules :=
  if isrValue = 0#32 then none
  else if isDma then
    some ⟨isrValue &&& (drHi ||| drFe ||| rft ||| rfs ||| drStop ||| rfe) != 0#32, false, false⟩
  else
    some ⟨false, isrValue &&& (rfe ||| rft ||| rfs ||| rfo ||| rdo) != 0#32,
      isrValue &&& (tft ||| tdu ||| alls) != 0#32⟩

/-! ### Tasklets and the timer -/

section

variable {δ : Type} (dev : Device δ) (mem : Memory) (isDma streaming : Bool)

/-- `iframe_worker`, and whether it wakes `input_queue`. -/
def iframeWorker (p : RxPort) (d : δ) : RxPort × Bool × δ :=
  if isDma then (p, false, d)
  else
    let read := fifoReadData dev mem p d
    (read.1, ioUserReadReady mem streaming read.1, read.2)

/-- What `timer_handler` does: whether it wakes `input_queue`, and whether it schedules
`iframe_tasklet`. -/
def timerHandler (p : RxPort) : Bool × Bool :=
  if isDma then (ioUserReadReady mem streaming p, false) else (false, true)

end

end Fscc
