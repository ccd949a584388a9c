import Fscc.CardHistory
import Fscc.RxFrames
import Fscc.TxRing

/-!
# `fscc_ioctl`

Every command of `fscc_ioctl`, with the result of each `fscc_port_set_register` that it makes. The
clock check of that function drops a command that finds `CE` set; what the caller of the ioctl is
told about it is another matter.
-/

namespace Fscc

variable {δ : Type} (dev : Device δ) (mem : Memory)

/-! ### The commands -/

/-- The fields of `struct fscc_port` that an ioctl works on. -/
structure IoctlPort where
  cfg : PortConfig
  settings : Settings
  storage : FsccRegisters
  rx : RxPort
  tx : TxPort

/-- A command of `fscc_ioctl` with what its argument holds. -/
inductive IoctlCommand where
  | getRegisters (regs : FsccRegisters)
  | setRegisters (regs : FsccRegisters)
  | purgeTx
  | purgeRx
  | enableAppendStatus
  | disableAppendStatus
  | getAppendStatus
  | enableAppendTimestamp
  | disableAppendTimestamp
  | getAppendTimestamp
  | setClockBits (alloc : Bool) (clockBits : List UInt8)
  | enableIgnoreTimeout
  | disableIgnoreTimeout
  | getIgnoreTimeout
  | setTxModifiers (value : Nat)
  | getTxModifiers
  | enableRxMultiple
  | disableRxMultiple
  | getRxMultiple
  | unknown (cmd : Nat)

/-- What an ioctl copies to the user. -/
inductive IoctlReply where
  | registers (regs : FsccRegisters)
  | value (tmp : Nat)

/-- What has come of an ioctl: its result and its reply, the results of its calls of
`fscc_port_set_register` in order, the port, and the device. -/
structure Served (δ : Type) where
  result : Except Errno Unit
  reply : Option IoctlReply
  attempts : List (Except Errno BusWrite)
  port : IoctlPort
  device : δ

/-- `fscc_port_is_streaming`. -/
def portIsStreaming (storage : FsccRegisters) : Bool :=
  let ccr0 := BitVec.ofInt 64 (storage RegisterField.ccr0.index)
  let ccr2 := BitVec.ofInt 64 (storage RegisterField.ccr2.index)
  let transparentMode := ccr0 &&& 0x3#64 == 0x2#64
  let xsyncMode := ccr0 &&& 0x3#64 == 0x1#64
  let rlcMode := ccr2 &&& 0xffff0000#64 != 0#64
  let fscMode := ccr0 &&& 0x700#64 != 0#64
  let ntb := ccr0 &&& 0x70000#64 != 0#64
  (transparentMode || xsyncMode) && !(rlcMode || fscMode || ntb)

/-- `fscc_port_set_append_status` with the value 1. -/
def portEnableAppendStatus (port : IoctlPort) : Except Errno IoctlPort :=
  if portIsStreaming port.storage then .error .eopnotsupp
  else .ok { port with settings := { port.settings with appendStatus := true } }

/-- `fscc_port_set_append_timestamp` with the value 1. -/
def portEnableAppendTimestamp (port : IoctlPort) : Except Errno IoctlPort :=
  if portIsStreaming port.storage then .error .eopnotsupp
  else .ok { port with settings := { port.settings with appendTimestamp := true } }

/-- `fscc_port_set_tx_modifiers`: `XF` alone, with `TXT` or with `TXEXT`, `XREP` alone or with
`TXT`. -/
def portSetTxModifiers (value : Nat) (port : IoctlPort) : Except Errno IoctlPort :=
  if value ∈ [0, 2, 4, 1, 3] then .ok { port with cfg := { port.cfg with txModifiers := value } }
  else .error .einval

/-- The results of the calls of `fscc_port_set_register` in the loop of
`fscc_port_set_registers`. -/
def setRegistersAttempts (cfg : PortConfig) (regs : FsccRegisters) :
    List (Fin 30) → δ → List (Except Errno BusWrite) × δ
  | [], d => ([], d)
  | i :: is, d =>
    if isReadOnlyRegister (i.val * 4) ∨ regs i < 0 then setRegistersAttempts cfg regs is d
    else
      let set := portSetRegister dev cfg (fieldRegister i).1 (fieldRegister i).2
        (BitVec.ofInt 32 (regs i)) d
      let rest := setRegistersAttempts cfg regs is set.2
      (set.1 :: rest.1, rest.2)

/-- An ioctl that writes no register. -/
def quietly (port : IoctlPort) (d : δ) (set : Except Errno IoctlPort) : Served δ :=
  match set with
  | .ok port => ⟨.ok (), none, [], port, d⟩
  | .error errorCode => ⟨.error errorCode, none, [], port, d⟩

/-- An ioctl that asks for a value. -/
def answer (port : IoctlPort) (d : δ) (reply : IoctlReply) : Served δ :=
  ⟨.ok (), some reply, [], port, d⟩

/-- `fscc_ioctl`, for the registers `card`. -/
def fsccIoctl (card : CardRegisters) (port : IoctlPort) (d : δ) : IoctlCommand → Served δ
  | .getRegisters regs =>
    answer port d (.registers (portGetRegisters port.cfg.channel card regs))
  | .setRegisters regs =>
    let attempts := setRegistersAttempts dev port.cfg regs (List.finRange 30) d
    let set := portSetRegisters dev port.cfg (some regs) port.storage d
    -- The result of `fscc_port_set_registers` is not looked at.
    ⟨.ok (), none, attempts.1, { port with storage := set.2.2.1 }, attempts.2⟩
  | .purgeTx =>
    let purged := ioPurgeTx dev port.cfg port.tx d
    let tres := ioExecuteTRES dev port.cfg d
    let first := (purged.1.txDescriptors.getD 0 default).descPhysicalAddress
    -- `fscc_io_purge_tx` returns 1, whatever `fscc_io_execute_TRES` returns.
    ⟨.ok (), none,
      (dmaExecuteSTOPT port.cfg ++ dmaExecuteRSTT port.cfg).map .ok ++ [tres.1] ++
        (if port.cfg.isDma then [.ok (.register 2 dtdbOffset first)] else []),
      { port with tx := purged.1, storage := purged.2.1.foldl FsccRegisters.cache port.storage },
      tres.2⟩
  | .purgeRx =>
    let purged := ioPurgeRx dev mem port.cfg port.rx d
    let rres := ioExecuteRRES dev port.cfg d
    let first := (purged.1.rxDescriptors.getD 0 default).descPhysicalAddress
    -- `fscc_io_purge_rx` returns 1, whatever `fscc_io_execute_RRES` returns.
    ⟨.ok (), none,
      (dmaExecuteSTOPR port.cfg ++ dmaExecuteRSTR port.cfg).map .ok ++ [rres.1] ++
        (if port.cfg.isDma then [.ok (.register 2 drdbOffset first)] else []) ++
        (dmaExecuteGOR port.cfg).map .ok,
      { port with rx := purged.1, storage := purged.2.1.foldl FsccRegisters.cache port.storage },
      rres.2⟩
  | .enableAppendStatus => quietly port d (portEnableAppendStatus port)
  | .disableAppendStatus =>
    quietly port d (.ok { port with settings := { port.settings with appendStatus := false } })
  | .getAppendStatus =>
    answer port d (.value (!portIsStreaming port.storage && port.settings.appendStatus).toNat)
  | .enableAppendTimestamp => quietly port d (portEnableAppendTimestamp port)
  | .disableAppendTimestamp =>
    quietly port d (.ok { port with settings := { port.settings with appendTimestamp := false } })
  | .getAppendTimestamp =>
    answer port d (.value (!portIsStreaming port.storage && port.settings.appendTimestamp).toNat)
  | .setClockBits alloc clockBits =>
    ⟨.ok (), none,
      (portSetClockBits alloc port.cfg.channel (card 0 (portOffset port.cfg.channel 0 vstrOffset))
        (card 2 fcrOffset) clockBits).map .ok,
      port, d⟩
  | .enableIgnoreTimeout =>
    quietly port d (.ok { port with cfg := { port.cfg with ignoreTimeout := true } })
  | .disableIgnoreTimeout =>
    quietly port d (.ok { port with cfg := { port.cfg with ignoreTimeout := false } })
  | .getIgnoreTimeout => answer port d (.value port.cfg.ignoreTimeout.toNat)
  | .setTxModifiers value => quietly port d (portSetTxModifiers value port)
  | .getTxModifiers => answer port d (.value port.cfg.txModifiers)
  | .enableRxMultiple =>
    quietly port d (.ok { port with settings := { port.settings with rxMultiple := true } })
  | .disableRxMultiple =>
    quietly port d (.ok { port with settings := { port.settings with rxMultiple := false } })
  | .getRxMultiple => answer port d (.value port.settings.rxMultiple.toNat)
  | .unknown _ => ⟨.error .enotty, none, [], port, d⟩

/-! ### Dropped commands -/

/-- A write that the ioctl attempted has been dropped. -/
def Served.dropped (served : Served δ) : Bool := served.attempts.any timesOut

/-- A timeout is reported just when a command has been dropped. -/
def Served.Truthful (served : Served δ) : Prop :=
  served.dropped = true ↔ served.result = .error .etimedout

/-- Whether serving a command takes a write to CMDR. -/
def IoctlCommand.commands : IoctlCommand → Bool
  | .purgeTx | .purgeRx => true
  | .setRegisters regs => decide (0 ≤ regs RegisterField.cmdr.index)
  | _ => false

variable {mem} {cfg : PortConfig} {port : IoctlPort}

/-- Only a write to CMDR is ever dropped. -/
private theorem timesOut_portSetRegister (cfg : PortConfig) (bar offset : Nat) (value : BitVec 32)
    (d : δ) :
    timesOut (portSetRegister dev cfg bar offset value d).1 =
        (decide (offset = cmdrOffset) && !cfg.ignoreTimeout && (portTimedOut dev d).1) ∧
      (offset ≠ cmdrOffset → (portSetRegister dev cfg bar offset value d).2 = d) := by
  unfold portSetRegister
  by_cases command : offset = cmdrOffset
  · cases ignored : cfg.ignoreTimeout with
    | true => simp [command, timesOut]
    | false =>
      cases late : (portTimedOut dev d).1 with
      | true => simp [command, late, timesOut]
      | false => simp [command, late, timesOut]
  · simp [command, timesOut]

/-- Of the fields of `struct fscc_registers` that are written, one is the command register. -/
private theorem fieldRegister_cmdr {i : Fin 30} (low : i.val * 4 ≤ maxOffset) :
    (fieldRegister i).2 = cmdrOffset ↔ i = RegisterField.cmdr.index := by
  rw [fieldRegister, if_pos low]
  change i.val * 4 = 0x14 ↔ i = 5
  omega

private theorem fieldRegister_high {i : Fin 30} (high : ¬i.val * 4 ≤ maxOffset) :
    fieldRegister i = (2, fcrOffset) ∧ i ≠ RegisterField.cmdr.index := by
  rw [fieldRegister, if_neg high]
  refine ⟨rfl, fun here => high ?_⟩
  rw [here]
  decide

private theorem fieldRegister_eq_cmdr (i : Fin 30) :
    (fieldRegister i).2 = cmdrOffset ↔ i = RegisterField.cmdr.index := by
  by_cases low : i.val * 4 ≤ maxOffset
  · exact fieldRegister_cmdr low
  · obtain ⟨fcr, apart⟩ := fieldRegister_high low
    rw [fcr]
    exact ⟨fun same => absurd same (by decide), fun here => absurd here apart⟩

/-- What the attempts come to is what `fscc_port_set_registers` returns and stores. -/
private theorem setRegistersAttempts_loop (regs : FsccRegisters) (is : List (Fin 30))
    (storage : FsccRegisters) (d : δ) :
    let attempts := setRegistersAttempts dev cfg regs is d
    let loop := setRegistersLoop dev cfg (some regs) is storage d
    loop.1 = attempts.1.flatMap issued ∧ loop.2.2.1 = attempts.1.any timesOut ∧
      loop.2.2.2 = attempts.2 := by
  induction is generalizing storage d with
  | nil => exact ⟨rfl, rfl, rfl⟩
  | cons i is ih =>
    rw [setRegistersLoop, setRegistersAttempts, Option.getD_some, setField]
    -- A read-only field, or one that is not given, is skipped.
    by_cases skipped : isReadOnlyRegister (i.val * 4) ∨ regs i < 0
    · simp only [if_pos skipped]
      exact ih storage d
    -- The field has a register of its own in BAR 0.
    · by_cases low : i.val * 4 ≤ maxOffset
      · simp only [if_neg skipped, if_pos low, fieldRegister]
        obtain ⟨stores, stalled, device⟩ := ih
          ((issued (portSetRegister dev cfg 0 (i.val * 4) (BitVec.ofInt 32 (regs i)) d).1).foldl
            FsccRegisters.cache storage)
          (portSetRegister dev cfg 0 (i.val * 4) (BitVec.ofInt 32 (regs i)) d).2
        exact ⟨by rw [List.flatMap_cons, stores], by rw [List.any_cons, stalled], device⟩
      · -- a field past the last register of BAR 0 goes to FCR, which the clock check lets pass
        have fcr := (timesOut_portSetRegister dev cfg 2 fcrOffset
          (BitVec.ofInt 32 (regs i)) d).1
        simp only [if_neg skipped, if_neg low, fieldRegister]
        obtain ⟨stores, stalled, device⟩ := ih
          ((issued (portSetRegister dev cfg 2 fcrOffset (BitVec.ofInt 32 (regs i)) d).1).foldl
            FsccRegisters.cache storage)
          (portSetRegister dev cfg 2 fcrOffset (BitVec.ofInt 32 (regs i)) d).2
        refine ⟨by rw [List.flatMap_cons, stores], ?_, device⟩
        rw [List.any_cons, stalled, fcr]
        rfl

/-- Of `fscc_port_set_registers` the field CMDR alone can be dropped. -/
private theorem setRegistersAttempts_quiet (regs : FsccRegisters) {is : List (Fin 30)}
    (absent : RegisterField.cmdr.index ∉ is) (d : δ) :
    (setRegistersAttempts dev cfg regs is d).1.any timesOut = false := by
  induction is generalizing d with
  | nil => rfl
  | cons i is ih =>
    obtain ⟨apart, later⟩ := not_or.mp fun member => absent (List.mem_cons.mpr member)
    have other : (fieldRegister i).2 ≠ cmdrOffset :=
      fun same => apart ((fieldRegister_eq_cmdr i).mp same).symm
    rw [setRegistersAttempts]
    split
    next => exact ih later d
    next =>
      rw [List.any_cons, (timesOut_portSetRegister dev cfg _ _ _ d).1, decide_eq_false other,
        ih later]
      rfl

/-- It is if it is set and the clock is missing. -/
private theorem setRegistersAttempts_any (clocked : cfg.ignoreTimeout = false) (regs : FsccRegisters)
    {is : List (Fin 30)} (once : is.Nodup) (member : RegisterField.cmdr.index ∈ is) (d : δ) :
    (setRegistersAttempts dev cfg regs is d).1.any timesOut =
      (decide (0 ≤ regs RegisterField.cmdr.index) && (portTimedOut dev d).1) := by
  induction is generalizing d with
  | nil => cases member
  | cons i is ih =>
    obtain ⟨new, once⟩ := List.nodup_cons.mp once
    obtain ⟨late, device⟩ := timesOut_portSetRegister dev cfg (fieldRegister i).1
      (fieldRegister i).2 (BitVec.ofInt 32 (regs i)) d
    rw [setRegistersAttempts]
    by_cases here : i = RegisterField.cmdr.index
    -- Here the command is written, and no other field can time out.
    · have absent : RegisterField.cmdr.index ∉ is := here ▸ new
      have writable : isReadOnlyRegister (i.val * 4) = false := by
        rw [here]
        rfl
      by_cases unset : regs i < 0
      · rw [if_pos (.inr unset), setRegistersAttempts_quiet dev regs absent, ← here,
          decide_eq_false (Int.not_le.mpr unset)]
        rfl
      · have go : ¬(isReadOnlyRegister (i.val * 4) = true ∨ regs i < 0) := by
          rw [writable]
          exact not_or.mpr ⟨Bool.false_ne_true, unset⟩
        rw [if_neg go, List.any_cons, setRegistersAttempts_quiet dev regs absent, late,
          decide_eq_true ((fieldRegister_eq_cmdr i).mpr here), clocked, ← here,
          decide_eq_true (Int.not_lt.mp unset), Bool.or_false]
        rfl
    -- Another field is never polled for.
    · have other : (fieldRegister i).2 ≠ cmdrOffset :=
        fun same => here ((fieldRegister_eq_cmdr i).mp same)
      have later := (List.mem_cons.mp member).resolve_left (Ne.symm here)
      split
      next => exact ih once later d
      next =>
        rw [List.any_cons, late, decide_eq_false other, device other, ih once later]
        rfl

/-- The stores of an ioctl are those of the calls that it makes. -/
theorem attempts_issued (card : CardRegisters) (port : IoctlPort) (d : δ) :
    (∀ regs, (fsccIoctl dev mem card port d (.setRegisters regs)).attempts.flatMap issued =
      (portSetRegisters dev port.cfg (some regs) port.storage d).2.1) ∧
    (fsccIoctl dev mem card port d .purgeTx).attempts.flatMap issued =
      (ioPurgeTx dev port.cfg port.tx d).2.1 ∧
    (fsccIoctl dev mem card port d .purgeRx).attempts.flatMap issued =
      (ioPurgeRx dev mem port.cfg port.rx d).2.1 := by
  have all (ws : List BusWrite) : (ws.map Except.ok).flatMap issued = ws := by
    induction ws with
    | nil => rfl
    | cons w ws ih => rw [List.map_cons, List.flatMap_cons, ih]; rfl
  have first (w : BusWrite) :
      (if port.cfg.isDma then [Except.ok w] else []).flatMap issued =
        if port.cfg.isDma then [w] else [] := by
    split
    · rfl
    · rfl
  refine ⟨fun regs => ?_, ?_, ?_⟩
  · exact (setRegistersAttempts_loop dev regs (List.finRange 30) port.storage d).1.symm
  · simp only [fsccIoctl, ioPurgeTx, List.flatMap_append, List.flatMap_singleton, all, first]
  · simp only [fsccIoctl, ioPurgeRx, List.flatMap_append, List.flatMap_singleton, all, first]

/-- No ioctl returns `-ETIMEDOUT`. -/
private theorem result_ne_etimedout (mem : Memory) (card : CardRegisters) (port : IoctlPort) (d : δ)
    (cmd : IoctlCommand) : (fsccIoctl dev mem card port d cmd).result ≠ .error .etimedout := by
  -- The setters fail for their own reasons only.
  have quiet (set : Except Errno IoctlPort) (other : set ≠ .error .etimedout) :
      (quietly port d set).result ≠ .error .etimedout := by
    cases set with
    | ok port => exact nofun
    | error errorCode =>
      intro same
      exact other (congrArg _ (Except.error.inj same))
  cases cmd with
  | enableAppendStatus =>
    apply quiet
    unfold portEnableAppendStatus
    split <;> exact nofun
  | enableAppendTimestamp =>
    apply quiet
    unfold portEnableAppendTimestamp
    split <;> exact nofun
  | setTxModifiers value =>
    apply quiet
    unfold portSetTxModifiers
    split <;> exact nofun
  | _ => exact nofun

/-- A command is dropped just when one is written and the clock is missing. -/
private theorem dropped_eq (card : CardRegisters) (port : IoctlPort) (d : δ)
    (checked : port.cfg.ignoreTimeout = false) (cmd : IoctlCommand) :
    (fsccIoctl dev mem card port d cmd).dropped =
      (cmd.commands && (portTimedOut dev d).1) := by
  have passed (ws : List BusWrite) : (ws.map Except.ok).any timesOut = false := by
    simp [timesOut]
  -- In DMA mode other stores come before the command, which are not polled for.
  have first (w : BusWrite) :
      (if port.cfg.isDma then [Except.ok w] else []).any timesOut = false := by
    split
    · rfl
    · rfl
  have quiet (set : Except Errno IoctlPort) : (quietly port d set).attempts = [] := by
    cases set <;> rfl
  have command (value : BitVec 32) :
      timesOut (portSetRegister dev port.cfg 0 cmdrOffset value d).1 = (portTimedOut dev d).1 := by
    rw [(timesOut_portSetRegister dev _ 0 cmdrOffset value d).1, checked]
    rfl
  cases cmd with
  | setRegisters regs =>
    exact setRegistersAttempts_any dev checked regs (List.nodup_finRange 30)
      (List.mem_finRange _) d
  -- Of a purge the command is the one store that may be dropped.
  | purgeTx =>
    simp only [Served.dropped, fsccIoctl, List.any_append, List.any_cons, List.any_nil, passed,
      first, ioExecuteTRES, command, Bool.or_false, Bool.false_or]
    rfl
  | purgeRx =>
    simp only [Served.dropped, fsccIoctl, List.any_append, List.any_cons, List.any_nil, passed,
      first, ioExecuteRRES, command, Bool.or_false, Bool.false_or]
    rfl
  | setClockBits alloc clockBits => exact passed _
  | enableAppendStatus => rw [Served.dropped, fsccIoctl, quiet]; rfl
  | enableAppendTimestamp => rw [Served.dropped, fsccIoctl, quiet]; rfl
  | setTxModifiers value => rw [Served.dropped, fsccIoctl, quiet]; rfl
  | _ => rfl

/-- With the clock check on, an ioctl is truthful about timeouts just when it writes no command or
the clock is there. -/
theorem timeout_reported (card : CardRegisters) (port : IoctlPort) (d : δ)
    (checked : port.cfg.ignoreTimeout = false) (cmd : IoctlCommand) :
    (fsccIoctl dev mem card port d cmd).Truthful ↔
      cmd.commands = false ∨ (portTimedOut dev d).1 = false := by
  have never := result_ne_etimedout dev mem card port d cmd
  rw [Served.Truthful, dropped_eq dev card port d checked cmd, iff_false_right never,
    Bool.and_eq_true, not_and_or, Bool.not_eq_true, Bool.not_eq_true]

/-- A port with its clock check on. -/
def checkedPort : IoctlPort where
  cfg := ⟨false, 0, 0, false⟩
  settings := ⟨false, false, false⟩
  storage := defaultRegisters
  rx := freshRx .small [1, 2]
  tx := freshTx .small [1, 2]

theorem timeout_reported_clocked :
    (fsccIoctl constant .small (fun _ _ => 0#32) checkedPort 0#32 .purgeRx).Truthful ↔
      IoctlCommand.purgeRx.commands = false ∨ (portTimedOut constant 0#32).1 = false :=
  timeout_reported constant _ checkedPort 0#32 rfl .purgeRx

/-- With `CE` set at every reading of STAR, `FSCC_PURGE_RX` drops its command and returns 0, and so
does `FSCC_SET_REGISTERS` with the field CMDR. -/
theorem timeout_swallowed :
    (∀ cmd ∈ [IoctlCommand.purgeRx, .purgeTx, .setRegisters (oneField .cmdr 1)],
      (fsccIoctl constant .small (fun _ _ => 0#32) checkedPort ceBit cmd).dropped = true ∧
        (fsccIoctl constant .small (fun _ _ => 0#32) checkedPort ceBit cmd).result = .ok ()) ∧
      ¬(fsccIoctl constant .small (fun _ _ => 0#32) checkedPort ceBit .purgeRx).Truthful := by
  refine ⟨fun cmd member => ?_, fun truthful => ?_⟩
  · rw [dropped_eq constant _ checkedPort ceBit rfl]
    simp only [List.mem_cons, List.not_mem_nil, or_false] at member
    rcases member with rfl | rfl | rfl <;> exact ⟨by decide, rfl⟩
  · rw [Served.Truthful, dropped_eq constant _ checkedPort ceBit rfl] at truthful
    exact absurd (truthful.mp (by decide)) (result_ne_etimedout constant _ _ _ _ _)

/-! ### Purges -/

/-- The command RRES, and the command TRES. -/
def rresCommand : BusWrite := .register 0 cmdrOffset 0x00020000#32

def tresCommand : BusWrite := .register 0 cmdrOffset 0x08000000#32

/-- A port as a receive purge leaves it: each descriptor is open again for `RxSize` bytes and has no
timestamp, both indices are at the first, and no byte of a frame and no length has been taken. -/
structure RxPort.Purged (mem : Memory) (p : RxPort) : Prop where
  control : ∀ f ∈ p.rxDescriptors, f.desc.control = descHiBit
  dataCount : ∀ f ∈ p.rxDescriptors, f.desc.dataCount = mem.rxSize
  timestamp : ∀ f ∈ p.rxDescriptors, f.timestamp = .clear
  userRxDesc : p.userRxDesc = 0
  fifoRxDesc : p.fifoRxDesc = 0
  rxBytesInFrame : p.rxBytesInFrame = 0
  rxFrameSize : p.rxFrameSize = 0

/-- A port as a transmit purge leaves it: each descriptor is free and holds no byte, and both indices
are at the first. -/
structure TxPort.Purged (p : TxPort) : Prop where
  control : ∀ f ∈ p.txDescriptors, f.desc.control = descCstopBit
  dataCount : ∀ f ∈ p.txDescriptors, f.desc.dataCount = 0
  timestamp : ∀ f ∈ p.txDescriptors, f.timestamp = .clear
  userTxDesc : p.userTxDesc = 0
  fifoTxDesc : p.fifoTxDesc = 0

/-- A purge either issues its command and resets the ring, or leaves the port as it was. -/
def RxPurgeAtomic (mem : Memory) (cfg : PortConfig) (p : RxPort) (d : δ) : Prop :=
  let purged := ioPurgeRx dev mem cfg p d
  (rresCommand ∈ purged.2.1 ∧ purged.1 = resetRx mem p) ∨
    (rresCommand ∉ purged.2.1 ∧ purged.1 = p)

def TxPurgeAtomic (cfg : PortConfig) (p : TxPort) (d : δ) : Prop :=
  let purged := ioPurgeTx dev cfg p d
  (tresCommand ∈ purged.2.1 ∧ purged.1 = resetTx p) ∨
    (tresCommand ∉ purged.2.1 ∧ purged.1 = p)

/-- A command reaches the card just when the clock check lets it pass. -/
private theorem mem_issued_command (value : BitVec 32) (d : δ) :
    .register 0 cmdrOffset value ∈ issued (portSetRegister dev cfg 0 cmdrOffset value d).1 ↔
      Clocked dev cfg d := by
  unfold portSetRegister Clocked
  cases ignored : cfg.ignoreTimeout with
  | true => simp [issued]
  | false =>
    cases late : (portTimedOut dev d).1 with
    | true => simp [issued, late]
    | false => simp [issued, late]

section Stores

variable {cfg : PortConfig} (fifo : cfg.isDma = false)
include fifo

private theorem dmaExecute_fifo (value : BitVec 32) : dmaExecute cfg value = [] := by
  rw [dmaExecute, fifo]
  rfl

/-- In FIFO mode a purge stores its command and nothing else, and only past the clock check. -/
theorem mem_ioPurgeRx (p : RxPort) (d : δ) :
    rresCommand ∈ (ioPurgeRx dev mem cfg p d).2.1 ↔ Clocked dev cfg d := by
  have stores : (ioPurgeRx dev mem cfg p d).2.1 = issued (ioExecuteRRES dev cfg d).1 := by
    simp [ioPurgeRx, dmaExecuteSTOPR, dmaExecuteRSTR, dmaExecuteGOR, dmaExecute_fifo fifo, fifo]
  rw [stores, rresCommand, ioExecuteRRES, mem_issued_command]

private theorem mem_ioPurgeTx (p : TxPort) (d : δ) :
    tresCommand ∈ (ioPurgeTx dev cfg p d).2.1 ↔ Clocked dev cfg d := by
  have stores : (ioPurgeTx dev cfg p d).2.1 = issued (ioExecuteTRES dev cfg d).1 := by
    simp [ioPurgeTx, dmaExecuteSTOPT, dmaExecuteRSTT, dmaExecute_fifo fifo, fifo]
  rw [stores, tresCommand, ioExecuteTRES, mem_issued_command]

end Stores

/-- What resets whether or not its command is issued is atomic when it is, or when there is nothing
to reset. -/
private theorem atomic_iff {α : Type} {issued : Prop} (reset p : α) :
    ((issued ∧ reset = reset) ∨ (¬issued ∧ reset = p)) ↔ (issued ∨ reset = p) := by
  by_cases passed : issued
  · simp [passed]
  · simp [passed]

private theorem map_eq_self {α : Type} (f : α → α) (l : List α) : l.map f = l ↔ ∀ a ∈ l, f a = a := by
  have same : l.map f = l ↔ l.map f = l.map id := by rw [List.map_id]
  rw [same, List.map_inj_left]
  rfl

/-- A reset of the ring changes nothing just when the port is already as a purge leaves it. -/
private theorem resetRx_eq_self (p : RxPort) : resetRx mem p = p ↔ p.Purged mem := by
  have frame : ∀ f : IoFrame, purgedRxFrame mem f = f ↔
      f.desc.control = descHiBit ∧ f.desc.dataCount = mem.rxSize ∧ f.timestamp = .clear := by
    rintro ⟨⟨control, dataCount, next⟩, address, buffer, timestamp⟩
    simp [purgedRxFrame, IoFrame.setControl, IoFrame.setDataCount, IoFrame.setTimestamp, eq_comm,
      and_assoc]
  obtain ⟨ring, user, fifo, bytes, size⟩ := p
  constructor
  · intro same
    obtain ⟨frames, rfl, rfl, rfl, rfl⟩ := RxPort.mk.inj same
    have each := fun f member => (frame f).mp ((map_eq_self _ _).mp frames f member)
    exact ⟨fun f member => (each f member).1, fun f member => (each f member).2.1,
      fun f member => (each f member).2.2, rfl, rfl, rfl, rfl⟩
  · rintro ⟨control, dataCount, timestamp, rfl, rfl, rfl, rfl⟩
    have frames : ring.map (purgedRxFrame mem) = ring := (map_eq_self _ _).mpr fun f member =>
      (frame f).mpr ⟨control f member, dataCount f member, timestamp f member⟩
    rw [resetRx, frames]

private theorem resetTx_eq_self (p : TxPort) : resetTx p = p ↔ p.Purged := by
  have frame : ∀ f : IoFrame, purgedTxFrame f = f ↔
      f.desc.control = descCstopBit ∧ f.desc.dataCount = 0 ∧ f.timestamp = .clear := by
    rintro ⟨⟨control, dataCount, next⟩, address, buffer, timestamp⟩
    simp [purgedTxFrame, IoFrame.setControl, IoFrame.setDataCount, IoFrame.setTimestamp, eq_comm,
      and_assoc]
  obtain ⟨ring, user, fifo⟩ := p
  constructor
  · intro same
    obtain ⟨frames, rfl, rfl⟩ := TxPort.mk.inj same
    have each := fun f member => (frame f).mp ((map_eq_self _ _).mp frames f member)
    exact ⟨fun f member => (each f member).1, fun f member => (each f member).2.1,
      fun f member => (each f member).2.2, rfl, rfl⟩
  · rintro ⟨control, dataCount, timestamp, rfl, rfl⟩
    have frames : ring.map purgedTxFrame = ring := (map_eq_self _ _).mpr fun f member =>
      (frame f).mpr ⟨control f member, dataCount f member, timestamp f member⟩
    rw [resetTx, frames]

/-- In FIFO mode a purge is atomic, in any state of the port, just when the clock check lets its
command pass or the port is already as a purge leaves it. -/
theorem purge_atomic (cfg : PortConfig) (fifo : cfg.isDma = false) (rx : RxPort) (tx : TxPort)
    (d : δ) :
    (RxPurgeAtomic dev mem cfg rx d ↔ Clocked dev cfg d ∨ rx.Purged mem) ∧
      (TxPurgeAtomic dev cfg tx d ↔ Clocked dev cfg d ∨ tx.Purged) := by
  constructor
  · rw [RxPurgeAtomic, mem_ioPurgeRx dev fifo, ← resetRx_eq_self]
    exact atomic_iff (resetRx mem rx) rx
  · rw [TxPurgeAtomic, mem_ioPurgeTx dev fifo, ← resetTx_eq_self]
    exact atomic_iff (resetTx tx) tx

/-- A port that has drained sixteen bytes of a frame whose length is not known yet. -/
def midFrame : RxPort := (fifoReadData constant .small (freshRx .small [1, 2]) 0x400#32).1

/-- With no clock, a transmit purge of a new port is atomic, as there is nothing to reset; the receive
purge of a port in the middle of a frame is not, until there is a clock. -/
theorem purge_atomic_refused :
    TxPurgeAtomic constant ⟨false, 0, 0, false⟩ (freshTx .small [1, 2]) ceBit ∧
      ¬RxPurgeAtomic constant .small ⟨false, 0, 0, false⟩ midFrame ceBit ∧
      RxPurgeAtomic constant .small ⟨false, 0, 0, false⟩ midFrame 0#32 := by
  obtain ⟨refusedRx, refusedTx⟩ :=
    @purge_atomic _ constant .small ⟨false, 0, 0, false⟩ rfl midFrame (freshTx .small [1, 2]) ceBit
  obtain ⟨clockedRx, -⟩ :=
    @purge_atomic _ constant .small ⟨false, 0, 0, false⟩ rfl midFrame (freshTx .small [1, 2]) 0#32
  refine ⟨refusedTx.mpr (.inr ?_), fun atomic => ?_, clockedRx.mpr (.inl (.inr (by decide)))⟩
  · exact ⟨by decide, by decide, by decide, rfl, rfl⟩
  · rcases refusedRx.mp atomic with (ignored | clocked) | purged
    · cases ignored
    · exact absurd clocked (by decide)
    · exact absurd purged.rxBytesInFrame (by decide)

/-- RRES is refused in the middle of a frame, and the driver forgets that it is there. -/
theorem refused_purge_resets :
    (ioPurgeRx constant .small ⟨false, 0, 0, false⟩ midFrame ceBit).2.1 = [] ∧
      midFrame.rxBytesInFrame = 16 ∧
      (ioPurgeRx constant .small ⟨false, 0, 0, false⟩ midFrame ceBit).1.rxBytesInFrame = 0 ∧
      ¬RxPurgeAtomic constant .small ⟨false, 0, 0, false⟩ midFrame ceBit := by
  have refused : (ioPurgeRx constant .small ⟨false, 0, 0, false⟩ midFrame ceBit).2.1 = [] := by
    decide
  refine ⟨refused, by decide, by decide, ?_⟩
  rintro (⟨command, -⟩ | ⟨-, same⟩)
  · rw [refused] at command
    cases command
  · exact absurd (congrArg RxPort.rxBytesInFrame same) (by decide)

end Fscc
