import Fscc.Dma
import Fscc.Isr
import Fscc.Lib.Machine
import Fscc.RxFrames

/-!
# Reception by DMA

The receive DMA engine beside the driver. The engine does not take the driver's spinlock: it
moves between any two descriptors that a call of the driver works on. Of the driver, only
`fscc_io_purge_rx` writes GO_R.
-/

namespace Fscc

open CInt

/-! ### The engine -/

/-- The receive DMA engine: DRDB, whether it runs, and the address of its descriptor. -/
structure RxEngine where
  drdb : BitVec 32
  running : Bool
  current : BitVec 32
deriving DecidableEq, Repr

/-- What a store to the card does to the engine. RST_R and STOP_R stop it; GO_R has it start at
DRDB. -/
def RxEngine.store (e : RxEngine) : BusWrite → RxEngine
  | .register 2 offset value =>
    if offset = drdbOffset then { e with drdb := value }
    else if offset ≠ dmaccrOffset then e
    else if value &&& 0x110#32 ≠ 0#32 then { e with running := false }
    else if value &&& 0x1#32 ≠ 0#32 then { e with running := true, current := e.drdb }
    else e
  | _ => e

/-- A descriptor as the engine leaves it, the last one of a frame if `last`. -/
def receivedFrame (data : List UInt8) (last : Bool) (f : IoFrame) : IoFrame :=
  (f.setBuffer (memcpyAt f.buffer 0 data)).setControl
    (descCstopBit ||| if last then descFeBit ||| BitVec.ofNat 32 data.length else 0#32)

/-! ### Calls of the driver -/

/-- What the call that has `board_rx_spinlock` is about to do: look at one more descriptor for
`fscc_user_next_read_size`, when a read begins or after a frame of it; read one more descriptor
of a frame or of the stream; or stamp or reset the descriptor with an index. -/
inductive RxCall where
  | none
  | scan (settings : Settings) (bufLength passes curDesc bytes : Nat)
      (reading : Option (Nat × Reading))
  | read (settings : Settings) (bufLength passes : Nat) (r : Reading)
  | stream (bufLength passes outLength : Nat) (tempData : List UInt8)
  | stamp (passes curDesc : Nat)
  | purge (i : Nat)
deriving DecidableEq, Repr

/-- A port, the call that has its spinlock, the purges past it that have not written GO_R, the
engine, the interrupt status register, and what is pending. -/
structure DmaRx where
  port : RxPort
  call : RxCall
  starting : Nat
  engine : RxEngine
  isr : BitVec 32
  timestamp : Bool
  iframe : Bool
  timer : Bool

/-- The engine takes a step; an interrupt is served; a tasklet runs; the timer expires; a call
begins or goes on; a purge writes GO_R. -/
inductive DmaRxEvent (δ : Type) where
  | engine (data : List UInt8) (last : Bool)
  | interrupt (other : BitVec 32)
  | timestamp
  | iframe (d : δ)
  | expire
  | readFrame (settings : Settings) (bufLength : Nat) (alloc : Bool)
  | readStream (bufLength : Nat) (alloc : Bool)
  | purge (d : δ)
  | call (d : δ)
  | go

variable {δ : Type} (dev : Device δ) (mem : Memory) (cfg : PortConfig)

/-- The call after `fscc_user_next_read_size`. -/
def scanned (settings : Settings) (bufLength : Nat) (next : Bool × Nat) :
    Option (Nat × Reading) → RxCall
  | none =>
    if !next.1 then .none
    else if settings.bufferRequirement next.2 > bufLength then .none
    else .read settings bufLength mem.rxNum
      { bytesInDescs := next.2
        totalValidData := subSize next.2 settings.statusLength
        filledFrameSize := 0
        outLength := 0
        tempData := List.replicate bufLength 0 }
  | some (passes, r) =>
    match nextFrame settings bufLength next r with
    | none => .none
    | some r => .read settings bufLength passes r

/-- The step of the call that has the spinlock. -/
def RxCall.step (p : RxPort) (d : δ) : RxCall → RxPort × RxCall
  | .none => (p, .none)
  | .scan settings bufLength 0 _ bytes reading =>
    (p, scanned mem settings bufLength (false, bytes) reading)
  | .scan settings bufLength (passes + 1) curDesc bytes reading =>
    match nextReadStep bytes (p.rxDescriptors.getD curDesc default) with
    | .error next => (p, scanned mem settings bufLength next reading)
    | .ok bytes => (p, .scan settings bufLength passes (Ring.next mem.rxNum curDesc) bytes reading)
  | .read _ _ 0 _ => (p, .none)
  | .read settings bufLength (passes + 1) r =>
    let read := readDescriptor dev settings p.userFrame r d
    let p := p.putUser mem read.1
    if read.2.1.bytesInDescs = 0 then
      if settings.rxMultiple then
        (p, .scan settings bufLength mem.rxNum p.userRxDesc 0 (some (passes, read.2.1)))
      else (p, .none)
    else (p, .read settings bufLength passes read.2.1)
  | .stream _ 0 _ _ => (p, .none)
  | .stream bufLength (passes + 1) outLength tempData =>
    let f := p.userFrame
    if !f.fe && !f.cstop then (p, .none)
    else
      let read := streamDescriptor mem (mem.rxNum - (passes + 1)) (subSize bufLength outLength) f
      let tempData := memcpyAt tempData outLength read.2.1
      let outLength := add32 outLength read.2.1.length
      if read.2.2 then (p.putUser mem read.1, .stream bufLength passes outLength tempData)
      else ({ p with rxDescriptors := p.rxDescriptors.set p.userRxDesc read.1 }, .none)
  | .stamp 0 _ => (p, .none)
  | .stamp (passes + 1) curDesc =>
    let f := p.rxDescriptors.getD curDesc default
    if !f.fe && !f.cstop then (p, .none)
    else
      ({ p with rxDescriptors := p.rxDescriptors.set curDesc (stampFrame dev f d).1 },
        .stamp passes (Ring.next mem.rxNum curDesc))
  | .purge i =>
    ({ p with rxDescriptors := p.rxDescriptors.modify i (purgedRxFrame mem) }, .purge (i + 1))

/-- The port with its indices as a purge leaves them. -/
def RxPort.rewind (p : RxPort) : RxPort :=
  { p with userRxDesc := 0, fifoRxDesc := 0, rxBytesInFrame := 0, rxFrameSize := 0 }

/-- A port as `fscc_port_new` leaves it, at the end of `fscc_io_purge_rx`. -/
def DmaRx.New (s : DmaRx) : Prop :=
  ∃ (q : RxPort) (d : δ) (e : RxEngine), Linked q.rxDescriptors ∧
    q.rxDescriptors.length = mem.rxNum ∧ s.port = (ioPurgeRx dev mem cfg q d).1 ∧
    s.engine = (ioPurgeRx dev mem cfg q d).2.1.foldl RxEngine.store e

/-- The port with its receive DMA engine. -/
def dmaRxMachine : Machine DmaRx (DmaRxEvent δ) where
  init s := cfg.isDma = true ∧ s.New dev mem cfg ∧ s.call = .none ∧ s.starting = 0 ∧
    s.isr = 0#32 ∧ s.timestamp = false ∧ s.iframe = false ∧ s.timer = false
  step s
    | .engine data last =>
      if s.engine.running then
        (descAt s.port.rxDescriptors s.engine.current).map fun f =>
          if f.cstop then
            { s with engine := { s.engine with running := false }, isr := s.isr ||| drStop }
          else
            let i := indexAt s.port.rxDescriptors s.engine.current
            { s with
              port := { s.port with
                rxDescriptors := s.port.rxDescriptors.set i (receivedFrame data last f) }
              engine := { s.engine with current := f.desc.nextDescriptor }
              isr := s.isr ||| (if last then drFe else 0#32) |||
                if f.desc.control &&& descHiBit = 0#32 then 0#32 else drHi }
      else none
    | .interrupt other =>
      (isr cfg.isDma (s.isr ||| other)).map fun schedules =>
        { s with
          isr := 0#32
          timestamp := s.timestamp || schedules.timestamp
          iframe := s.iframe || schedules.iframe
          timer := true }
    | .timestamp =>
      if s.timestamp ∧ s.call = .none then
        some { s with call := .stamp mem.rxNum s.port.userRxDesc, timestamp := false }
      else none
    | .iframe d =>
      if s.iframe then
        some { s with port := (iframeWorker dev mem cfg.isDma false s.port d).1, iframe := false }
      else none
    | .expire =>
      if s.timer then
        some { s with
          timer := false
          iframe := s.iframe || (timerHandler mem cfg.isDma false s.port).2 }
      else none
    | .readFrame settings bufLength alloc =>
      if s.call ≠ .none then none
      else if !alloc then some s
      else some { s with
        call := .scan settings bufLength mem.rxNum s.port.userRxDesc 0 none }
    | .readStream bufLength alloc =>
      if s.call ≠ .none then none
      else if !alloc then some s
      else some { s with
        call := .stream bufLength mem.rxNum 0 (List.replicate bufLength 0) }
    | .purge d =>
      if s.call ≠ .none then none
      else some { s with
        call := .purge 0
        engine := (dmaExecuteSTOPR cfg ++ dmaExecuteRSTR cfg ++
          issued (ioExecuteRRES dev cfg d).1).foldl RxEngine.store s.engine }
    | .call d =>
      if s.call = .none then none
      else if s.call = .purge mem.rxNum then
        some { s with
          port := s.port.rewind
          call := .none
          starting := s.starting + 1
          engine := s.engine.store
            (.register 2 drdbOffset (s.port.rxDescriptors.getD 0 default).descPhysicalAddress) }
      else
        let next := s.call.step dev mem s.port d
        some { s with port := next.1, call := next.2 }
    | .go =>
      if 0 < s.starting then
        some { s with
          starting := s.starting - 1
          engine := (dmaExecuteGOR cfg).foldl RxEngine.store s.engine }
      else none

/-- No call of the driver is under way, and nothing is pending that has it work. -/
def DmaRx.Quiet (s : DmaRx) : Prop :=
  s.call = .none ∧ s.starting = 0 ∧ s.isr = 0#32 ∧ s.timestamp = false ∧ s.iframe = false ∧
    s.timer = false

/-- The engine is stopped only at a descriptor that has not been read. -/
def DmaRx.Restarts (s : DmaRx) : Prop :=
  s.Quiet → s.engine.running = false →
    ∃ f, descAt s.port.rxDescriptors s.engine.current = some f ∧ f.cstop = true

/-- The call frees the descriptor at `user_rx_desc` in its next step. -/
def RxCall.frees (p : RxPort) : RxCall → Bool
  | .read _ _ passes _ => passes != 0
  | .stream bufLength passes outLength _ => passes != 0 &&
      (p.userFrame.fe || p.userFrame.cstop) &&
        decide (p.userFrame.desc.dataCount ≤ subSize bufLength outLength)
  | _ => false

/-- A read never frees the descriptor at which the engine stands stopped. -/
def LeavesStop (s : DmaRx) : DmaRxEvent δ → Prop
  | .call _ => s.call.frees s.port = true → s.engine.running = false →
      s.port.userFrame.descPhysicalAddress ≠ s.engine.current
  | _ => True

variable {dev mem cfg}

/-! ### What the driver does to a descriptor -/

/-- A step of a call leaves a finished descriptor finished, unless it is the one that a read
frees. -/
private theorem RxCall.step_descAt {call : RxCall} {p : RxPort} {d : δ} {address : BitVec 32}
    {f : IoFrame}
    (spared : call.frees p = true → p.userFrame.descPhysicalAddress ≠ address)
    (purging : ∀ i, call ≠ .purge i)
    (found : descAt p.rxDescriptors address = some f) (cstop : f.cstop = true) :
    ∃ f', descAt (call.step dev mem p d).1.rxDescriptors address = some f' ∧ f'.cstop = true := by
  cases call with
  -- Nothing is running, or the scan runs, which looks at descriptors and changes none.
  | none => exact ⟨f, found, cstop⟩
  | scan settings bufLength passes curDesc bytes reading =>
    cases passes with
    | zero => exact ⟨f, found, cstop⟩
    | succ passes =>
      simp only [RxCall.step]
      split <;> exact ⟨f, found, cstop⟩
  -- The reader empties its own descriptor only, and that is not the one that was found.
  | read settings bufLength passes r =>
    cases passes with
    | zero => exact ⟨f, found, cstop⟩
    | succ passes =>
      have kept := descAt_set p.userRxDesc
        (g := (readDescriptor dev settings p.userFrame r d).1) rfl
        (fun here => absurd here (spared (by simp [RxCall.frees]))) found cstop
      simp only [RxCall.step]
      split
      · split <;> exact kept
      · exact kept
  | stream bufLength passes outLength tempData =>
    cases passes with
    | zero => exact ⟨f, found, cstop⟩
    | succ passes =>
      simp only [RxCall.step, RxCall.frees] at spared ⊢
      generalize subSize bufLength outLength = space at spared ⊢
      split
      -- The stream may stop before the descriptor, or keep what does not fit of it.
      next => exact ⟨f, found, cstop⟩
      next ready =>
        rw [streamDescriptor_eq]
        by_cases fits : p.userFrame.desc.dataCount ≤ space
        · rw [if_pos fits]
          refine descAt_set p.userRxDesc rfl
            (fun here => absurd here (spared ?_)) found cstop
          cases fe : p.userFrame.fe <;> simp_all
        · rw [if_neg fits]
          exact descAt_set p.userRxDesc
            (address_shiftedFrame space p.userFrame)
            (fun _ done => (cstop_shiftedFrame space p.userFrame).trans done) found cstop
  -- A timestamp leaves the control field as it is.
  | stamp passes curDesc =>
    cases passes with
    | zero => exact ⟨f, found, cstop⟩
    | succ passes =>
      simp only [RxCall.step]
      split
      next => exact ⟨f, found, cstop⟩
      next =>
        have stamped := cstop_stampFrame dev (p.rxDescriptors.getD curDesc default) d
        exact descAt_set _ stamped.2 (fun _ done => stamped.1.trans done) found cstop
  | purge i => exact absurd rfl (purging i)

/-! ### Starting and stopping -/

/-- The engine that a purge has stopped. -/
theorem store_stop (dma : cfg.isDma = true) (e : RxEngine) (d : δ) :
    (dmaExecuteSTOPR cfg ++ dmaExecuteRSTR cfg ++ issued (ioExecuteRRES dev cfg d).1).foldl
      RxEngine.store e = { e with running := false } := by
  have rres : (issued (ioExecuteRRES dev cfg d).1).foldl RxEngine.store
      { e with running := false } = { e with running := false } := by
    unfold ioExecuteRRES portSetRegister
    dsimp only
    split
    next => split <;> rfl
    next => rfl
  rw [List.foldl_append, List.foldl_append]
  simpa [dmaExecuteSTOPR, dmaExecuteRSTR, dmaExecute, dma, RxEngine.store, dmaccrOffset,
    drdbOffset] using rres

/-- GO_R. -/
theorem store_go (dma : cfg.isDma = true) (e : RxEngine) :
    (dmaExecuteGOR cfg).foldl RxEngine.store e = { e with running := true, current := e.drdb } := by
  simp [dmaExecuteGOR, dmaExecute, dma, RxEngine.store, dmaccrOffset, drdbOffset]

/-- Reception starts at the first descriptor. -/
private theorem DmaRx.New.running {s : DmaRx} (dma : cfg.isDma = true) (new : s.New dev mem cfg) :
    s.engine.running = true := by
  obtain ⟨q, d, e, -, -, -, engine⟩ := new
  rw [engine]
  simp only [ioPurgeRx]
  rw [List.foldl_append, store_go dma]

/-- Between calls, and in every call but a purge, a stopped engine is at a finished descriptor. -/
structure DmaRx.AtFull (cfg : PortConfig) (s : DmaRx) : Prop where
  dma : cfg.isDma = true
  stopped : s.starting = 0 → (∀ i, s.call ≠ .purge i) → s.engine.running = false →
    ∃ f, descAt s.port.rxDescriptors s.engine.current = some f ∧ f.cstop = true

namespace DmaRx.AtFull

variable {s t : DmaRx} {e : DmaRxEvent δ}

/-- A reader starts where nothing was running, so what held before holds now. -/
private theorem begun (h : s.AtFull cfg) (idle : s.call = .none) {call : RxCall} :
    s.starting = 0 → (∀ i, call ≠ .purge i) → s.engine.running = false →
      ∃ f, descAt s.port.rxDescriptors s.engine.current = some f ∧ f.cstop = true :=
  fun starting _ => h.stopped starting (by simp [idle])

/-- A step of a call keeps the flag of the descriptor at which the engine halted. -/
private theorem call {d : δ} (h : s.AtFull cfg) (met : LeavesStop s (.call d)) :
    s.starting = 0 → (∀ i, (s.call.step dev mem s.port d).2 ≠ .purge i) → s.engine.running = false →
      ∃ f, descAt (s.call.step dev mem s.port d).1.rxDescriptors s.engine.current = some f ∧
        f.cstop = true := by
  intro starting other halted
  have purging : ∀ i, s.call ≠ .purge i := by
    intro i purge
    rw [purge] at other
    exact other (i + 1) rfl
  obtain ⟨f, found, cstop⟩ := h.stopped starting purging halted
  exact RxCall.step_descAt (fun frees => met frees halted) purging found cstop

private theorem step (h : s.AtFull cfg) (met : LeavesStop s e)
    (stepped : (dmaRxMachine dev mem cfg).step s e = some t) : t.AtFull cfg := by
  have stopped := h.stopped
  refine ⟨h.dma, ?_⟩
  cases e with
  -- The engine halts only at a descriptor that is full already.
  | engine data last =>
    simp only [dmaRxMachine] at stepped
    split at stepped
    next running =>
      obtain ⟨f, found, rfl⟩ := Option.map_eq_some_iff.mp stepped
      split
      next full => exact fun _ _ _ => ⟨f, found, full⟩
      next => exact fun _ _ halted => by simp [running] at halted
    next => cases stepped
  | interrupt other =>
    obtain ⟨schedules, -, rfl⟩ := Option.map_eq_some_iff.mp stepped
    exact stopped
  | timestamp =>
    simp only [dmaRxMachine] at stepped
    split at stepped
    next ready =>
      obtain rfl := Option.some.inj stepped
      exact fun starting _ => stopped starting (by simp [ready.2])
    next => cases stepped
  | iframe d =>
    simp only [dmaRxMachine] at stepped
    split at stepped
    next =>
      obtain rfl := Option.some.inj stepped
      simpa [iframeWorker, h.dma] using stopped
    next => cases stepped
  | expire =>
    simp only [dmaRxMachine] at stepped
    split at stepped
    next =>
      obtain rfl := Option.some.inj stepped
      exact stopped
    next => cases stepped
  | readFrame settings bufLength alloc =>
    simp only [dmaRxMachine] at stepped
    split at stepped
    next => cases stepped
    next idle =>
      split at stepped <;>
      · obtain rfl := Option.some.inj stepped
        exact h.begun (not_not.mp idle)
  | readStream bufLength alloc =>
    simp only [dmaRxMachine] at stepped
    split at stepped
    next => cases stepped
    next idle =>
      split at stepped <;>
      · obtain rfl := Option.some.inj stepped
        exact h.begun (not_not.mp idle)
  -- While a purge runs nothing is promised: it restarts the engine at its end.
  | purge d =>
    simp only [dmaRxMachine] at stepped
    split at stepped
    next => cases stepped
    next =>
      obtain rfl := Option.some.inj stepped
      exact fun _ other => absurd rfl (other 0)
  | call d =>
    simp only [dmaRxMachine] at stepped
    split at stepped
    next => cases stepped
    next =>
      split at stepped
      -- The purge is over, and its restart is still to come.
      next =>
        obtain rfl := Option.some.inj stepped
        exact fun starting => absurd starting (Nat.succ_ne_zero _)
      next =>
        obtain rfl := Option.some.inj stepped
        exact h.call met
  -- The restart lets the engine run again.
  | go =>
    simp only [dmaRxMachine] at stepped
    split at stepped
    next =>
      obtain rfl := Option.some.inj stepped
      intro _ _ halted
      rw [store_go h.dma] at halted
      cases halted
    next => cases stepped

end DmaRx.AtFull

/-- In every run that meets the condition, the engine is never left standing at a descriptor
that has been read. -/
theorem reception_restarts {s : DmaRx}
    (reached : (dmaRxMachine dev mem cfg).ReachedUnder LeavesStop s) : s.Restarts := by
  have full : s.AtFull cfg := by
    refine reached.invariant (fun t init => ⟨init.1, fun _ _ halted => ?_⟩)
      fun _ _ _ h met stepped => h.step met stepped
    rw [init.2.1.running init.1] at halted
    cases halted
  rintro ⟨idle, starting, -⟩ halted
  exact full.stopped starting (by simp [idle]) halted

/-- An engine that has stopped stays stopped until a purge writes GO_R. -/
theorem stays_stopped {s t : DmaRx} {e : DmaRxEvent δ} (dma : cfg.isDma = true)
    (halted : s.engine.running = false) (notGo : e ≠ .go)
    (stepped : (dmaRxMachine dev mem cfg).step s e = some t) : t.engine.running = false := by
  cases e with
  | engine data last => simp [dmaRxMachine, halted] at stepped
  | interrupt other =>
    obtain ⟨schedules, -, rfl⟩ := Option.map_eq_some_iff.mp stepped
    exact halted
  | timestamp =>
    obtain ⟨-, rfl⟩ : _ ∧ _ = t := by simpa [dmaRxMachine] using stepped
    exact halted
  | iframe d =>
    obtain ⟨-, rfl⟩ : _ ∧ _ = t := by simpa [dmaRxMachine] using stepped
    exact halted
  | expire =>
    obtain ⟨-, rfl⟩ : _ ∧ _ = t := by simpa [dmaRxMachine] using stepped
    exact halted
  | readFrame settings bufLength alloc =>
    simp only [dmaRxMachine] at stepped
    split at stepped
    next => cases stepped
    next =>
      split at stepped <;>
      · obtain rfl := Option.some.inj stepped
        exact halted
  | readStream bufLength alloc =>
    simp only [dmaRxMachine] at stepped
    split at stepped
    next => cases stepped
    next =>
      split at stepped <;>
      · obtain rfl := Option.some.inj stepped
        exact halted
  | purge d =>
    simp only [dmaRxMachine] at stepped
    split at stepped
    next => cases stepped
    next =>
      obtain rfl := Option.some.inj stepped
      rw [store_stop dma]
  | call d =>
    simp only [dmaRxMachine] at stepped
    split at stepped
    next => cases stepped
    next =>
      split at stepped <;>
      · obtain rfl := Option.some.inj stepped
        exact halted
  | go => exact absurd rfl notGo

/-! ### A full ring -/

instance (s : DmaRx) : (e : DmaRxEvent δ) → Decidable (LeavesStop s e)
  | .call _ => inferInstanceAs (Decidable (_ → _ → _ ≠ _))
  | .engine _ _ | .interrupt _ | .timestamp | .iframe _ | .expire | .readFrame _ _ _
  | .readStream _ _ | .purge _ | .go => .isTrue trivial

/-- Two linked descriptors. -/
def linkedRx : RxPort :=
  { freshRx .small [4096, 8192] with
    rxDescriptors := ioLinkDescriptors (freshRx .small [4096, 8192]).rxDescriptors }

/-- A port just made. -/
def newDmaRx : DmaRx where
  port := (ioPurgeRx constant .small dmaConfig linkedRx 0#32).1
  call := .none
  starting := 0
  engine := (ioPurgeRx constant .small dmaConfig linkedRx 0#32).2.1.foldl RxEngine.store
    ⟨0#32, false, 0#32⟩
  isr := 0#32
  timestamp := false
  iframe := false
  timer := false

private theorem newDmaRx_init : (dmaRxMachine constant .small dmaConfig).init newDmaRx :=
  ⟨rfl, ⟨linkedRx, 0#32, ⟨0#32, false, 0#32⟩, linked_ioLinkDescriptors (by decide) (by decide), rfl,
    rfl, rfl⟩, rfl, rfl, rfl, rfl, rfl, rfl⟩

/-- One interrupt is served, and the timer expires. -/
def served : List (DmaRxEvent (BitVec 32)) :=
  [.interrupt 0#32, .timestamp, .call 0#32, .call 0#32, .call 0#32, .expire]

/-- A frame as long as a descriptor. -/
def received (byte : UInt8) : DmaRxEvent (BitVec 32) := .engine (List.replicate 8 byte) true

/-- One frame is read. -/
def readFirst : List (DmaRxEvent (BitVec 32)) :=
  [.readFrame ⟨true, false, false⟩ 8 true, .call 0#32, .call 0#32]

/-- Two frames fill the ring, and the engine stops. The first is read, and nothing happens. -/
theorem reception_stopped :
    ∃ s, (dmaRxMachine constant .small dmaConfig).Reached s ∧ ¬s.Restarts := by
  have run : ∃ s, (dmaRxMachine constant .small dmaConfig).replay newDmaRx
      ([received 1, received 2, received 3] ++ served ++ readFirst) = some s ∧
      s.call = .none ∧ s.starting = 0 ∧ s.isr = 0#32 ∧ s.timestamp = false ∧ s.iframe = false ∧
      s.timer = false ∧ s.engine.running = false ∧
      (descAt s.port.rxDescriptors s.engine.current).any IoFrame.cstop = false :=
    ⟨_, rfl, by decide, by decide, by decide, by decide, by decide, by decide, by decide, by decide⟩
  obtain ⟨s, replayed, call, starting, isr, timestamp, iframe, timer, halted, freed⟩ := run
  refine ⟨s, .replay (.init newDmaRx_init) _ replayed, fun restarts => ?_⟩
  obtain ⟨f, found, cstop⟩ :=
    restarts ⟨call, starting, isr, timestamp, iframe, timer⟩ halted
  simp [found, cstop] at freed

/-- A frame is read before the ring is full. -/
theorem reception_restarts_full :
    ∃ s, (dmaRxMachine constant .small dmaConfig).replay newDmaRx
        ([received 1] ++ readFirst ++ [received 2, received 3, received 4] ++ served) = some s ∧
      s.engine.running = false ∧ s.Restarts :=
  ⟨_, rfl, by decide, reception_restarts (.replay (.init newDmaRx_init)
    ([received 1] ++ readFirst ++ [received 2, received 3, received 4] ++ served)
    (by decide) rfl)⟩

end Fscc
