import Fscc.Clock
import Fscc.Rx
import Fscc.Tx

/-!
# What the calls of the driver write

The two ports of a card, and every call of the driver that writes registers through one of them.
A call's stores are steps of their own: any number of calls may be under way. Of each port the
history keeps what it last wrote to the registers that have a name.
-/

namespace Fscc

variable {δ : Type} (dev : Device δ) (mem : Memory)

/-! ### Calls -/

/-- A call that writes registers through a port. -/
inductive RegisterCall (δ : Type) where
  | setRegisters (regs : FsccRegisters) (d : δ)
  | registerStore (attr : RegisterAttribute) (value : BitVec 32) (d : δ)
  | oframeWorker (p : TxPort) (d : δ)
  | userWriteFrame (alloc : Bool) (unmovedBytes : Nat) (buf : List UInt8) (p : TxPort) (d : δ)
  | purgeRx (p : RxPort) (d : δ)
  | purgeTx (p : TxPort) (d : δ)
  | setClockBits (alloc : Bool) (vstr : BitVec 32) (clockData : List UInt8)
  | dmaEnable

/-- What a call stores, for a port's storage and a reading of FCR. -/
def RegisterCall.stores (cfg : PortConfig) (storage : FsccRegisters) (fcr : BitVec 32) :
    RegisterCall δ → List BusWrite
  | .setRegisters regs d => (portSetRegisters dev cfg (some regs) storage d).2.1
  | .registerStore attr value d => issued (Fscc.registerStore dev cfg attr value d).1
  | .oframeWorker p d => (Fscc.oframeWorker dev cfg mem p d).2.1
  | .userWriteFrame alloc unmovedBytes buf p d =>
    (Fscc.userWriteFrame dev cfg mem alloc unmovedBytes buf p d).2.2.1
  | .purgeRx p d => (ioPurgeRx dev mem cfg p d).2.1
  | .purgeTx p d => (ioPurgeTx dev cfg p d).2.1
  | .setClockBits alloc vstr clockData => portSetClockBits alloc cfg.channel vstr fcr clockData
  | .dmaEnable => [.register 2 dmaccrOffset 0x03000000#32]

/-! ### The two ports of a card -/

/-- The registers of a card, what each port keeps of its own, the calls under way with the stores
they have still to make, and what was last written through each port to a named register. -/
structure CardSystem where
  card : CardRegisters
  storage : Fin 2 → FsccRegisters
  calls : List (Fin 2 × List BusWrite)
  written : Fin 2 → RegisterField → Int

/-- A call begins; the `k`th call makes its next store; `fscc_port_using_async` refreshes FCR; or
a register changes that the driver has no hold on, or serialfc writes FCR. -/
inductive CardEvent (δ : Type) where
  | call (c : Fin 2) (cfg : PortConfig) (call : RegisterCall δ)
  | store (k : Nat)
  | usingAsync (c : Fin 2)
  | drift (bar offset : Nat) (value : BitVec 32)

/-- A store through a port. -/
def CardSystem.store (s : CardSystem) (c : Fin 2) (w : BusWrite) : CardSystem :=
  { s with
    card := s.card.store c.val w
    storage := Function.update s.storage c ((s.storage c).cache w)
    written := Function.update s.written c fun f =>
      if w.bar = f.bar ∧ w.offset = f.offset then w.value.toNat else s.written c f }

/-- The fields that configure a port. -/
def configurationFields : List RegisterField :=
  [.fifot, .ccr0, .ccr1, .ccr2, .bgr, .ssr, .smr, .tsr, .tmr, .rar, .ramr, .ppr, .tcr, .imr,
    .dpllr]

/-- A register of the card that configures one of its ports. -/
def configures (bar offset : Nat) : Bool :=
  bar == 0 && configurationFields.any fun f => offset == f.cardOffset 0 || offset == f.cardOffset 1

/-- The registers that `fscc_port_new` starts from. -/
def defaultRegisters : FsccRegisters := fun i =>
  if i = RegisterField.fifot.index then 0x08001000
  else if i = RegisterField.ccr0.index then 0x0011201c
  else if i = RegisterField.ccr1.index then 0x00000018
  else if i = RegisterField.ccr2.index then 0x00000000
  else if i = RegisterField.bgr.index then 0x00000000
  else if i = RegisterField.ssr.index then 0x0000007e
  else if i = RegisterField.smr.index then 0x00000000
  else if i = RegisterField.tsr.index then 0x0000007e
  else if i = RegisterField.tmr.index then 0x00000000
  else if i = RegisterField.rar.index then 0x00000000
  else if i = RegisterField.ramr.index then 0x00000000
  else if i = RegisterField.ppr.index then 0x00000000
  else if i = RegisterField.tcr.index then 0x00000000
  else if i = RegisterField.imr.index then 0x0f000000
  else if i = RegisterField.dpllr.index then 0x00000004
  else if i = RegisterField.fcr.index then 0x00000000
  else -1

/-- The registers of the card and the storage after the `fscc_port_set_registers` of
`fscc_port_new`. -/
def portNew (cfg : PortConfig) (card : CardRegisters) (d : δ) : CardRegisters × FsccRegisters :=
  let set := portSetRegisters dev cfg none defaultRegisters d
  (set.2.1.foldl (CardRegisters.store cfg.channel) card, set.2.2.1)

/-- The `fscc_port_set_registers` of `fscc_port_new` is done for both ports. What `fscc_port_new` stores
after it belongs to the runs from here: its clock words, which leave the card as it is
(`CardSystem.New.clocked`), its purges, and in DMA mode the store that enables DMA. -/
structure CardSystem.New (s : CardSystem) : Prop where
  made : ∃ (cfg : Fin 2 → PortConfig) (card : CardRegisters) (d : Fin 2 → δ),
    (∀ c, (cfg c).channel = c.val) ∧
    s.card = (portNew dev (cfg 1) (portNew dev (cfg 0) card (d 0)).1 (d 1)).1 ∧
    ∀ c, s.storage c = (portNew dev (cfg c) card (d c)).2
  calls : s.calls = []
  written : ∀ c f, s.written c f = s.storage c f.index

/-- A card with its two ports. -/
def cardMachine : Machine CardSystem (CardEvent δ) where
  init s := s.New dev
  step s
    | .call c cfg call =>
      if cfg.channel = c.val then
        some { s with
          calls := s.calls ++ [(c, call.stores dev mem cfg (s.storage c) (s.card 2 fcrOffset))] }
      else none
    | .store k =>
      match s.calls[k]? with
      | some (c, w :: rest) => some { s.store c w with calls := s.calls.set k (c, rest) }
      | _ => none
    | .usingAsync c =>
      some { s with
        storage := Function.update s.storage c (Function.update (s.storage c)
          RegisterField.fcr.index (s.card 2 fcrOffset).toNat)
        written := Function.update s.written c (Function.update (s.written c)
          .fcr (s.card 2 fcrOffset).toNat) }
    | .drift bar offset value =>
      if configures bar offset then none
      else some { s with card := fun b o => if b = bar ∧ o = offset then value else s.card b o }

/-! ### Where the stores of a call go -/

/-- A store of the driver: to a register of BAR 0 or of BAR 2 but DSTAR, or a word to the FIFO or
to FCR. -/
def BusWrite.Regular : BusWrite → Prop
  | .register 0 offset _ => offset % 4 = 0 ∧ offset ≤ 0x60
  | .register bar offset _ => bar = 2 ∧ offset ≠ dstarOffset
  | .word bar offset _ => (bar = 0 ∨ bar = 2) ∧ offset = 0

theorem mem_issued {bar offset : Nat} {value : BitVec 32} {cfg : PortConfig} {d : δ} {w : BusWrite}
    (member : w ∈ issued (portSetRegister dev cfg bar offset value d).1) :
    w = .register bar offset value := by
  unfold portSetRegister at member
  dsimp only at member
  split at member
  next =>
    split at member
    next => cases member
    next => exact List.mem_singleton.mp member
  next => exact List.mem_singleton.mp member

theorem mem_setField {i : Fin 30} {value : Int} {cfg : PortConfig} {d : δ} {w : BusWrite}
    (member : w ∈ (setField dev cfg i value d).1) :
    w = .register (fieldRegister i).1 (fieldRegister i).2 (BitVec.ofInt 32 value) := by
  unfold setField at member
  dsimp only at member
  split at member
  next => cases member
  next =>
    unfold fieldRegister
    split at member
    next low =>
      rw [if_pos low]
      exact mem_issued dev member
    next high =>
      rw [if_neg high]
      dsimp only at member
      exact mem_issued dev member

private theorem regular_fieldRegister (i : Fin 30) (value : BitVec 32) :
    BusWrite.Regular (.register (fieldRegister i).1 (fieldRegister i).2 value) := by
  unfold fieldRegister maxOffset
  split
  next low => exact ⟨by omega, by omega⟩
  next => exact ⟨rfl, by decide⟩

private theorem regular_setRegistersLoop {cfg : PortConfig} (regs : Option FsccRegisters)
    (is : List (Fin 30)) (storage : FsccRegisters) (d : δ) :
    ∀ w ∈ (setRegistersLoop dev cfg regs is storage d).1, w.Regular := by
  induction is generalizing storage d with
  | nil => intro w member; cases member
  | cons i is ih =>
    intro w member
    rcases List.mem_append.mp member with here | later
    · rw [mem_setField dev here]
      exact regular_fieldRegister i _
    · exact ih _ _ w later

private theorem mem_iowrite32Rep {bar offset chunks : Nat} {data : List UInt8} {w : BusWrite}
    (member : w ∈ iowrite32Rep bar offset chunks data) : ∃ x, w = .word bar offset x := by
  induction chunks generalizing data with
  | zero => cases member
  | succ chunks ih =>
    rcases List.mem_cons.mp member with rfl | later
    · exact ⟨_, rfl⟩
    · exact ih later

theorem mem_cardSetRegisterRep {bar offset count : Nat} {data : List UInt8} {w : BusWrite}
    (member : w ∈ cardSetRegisterRep bar offset data count) : ∃ x, w = .word bar offset x := by
  unfold cardSetRegisterRep at member
  split at member
  next => cases member
  next =>
    dsimp only at member
    rcases List.mem_append.mp member with whole | left
    · exact mem_iowrite32Rep whole
    · split at left
      next => cases left
      next => exact ⟨_, List.mem_singleton.mp left⟩

private theorem regular_fifoWriteLoop (tfcnt passes : Nat) (p : TxPort) (s : Filling) :
    ∀ w ∈ (fifoWriteLoop mem tfcnt passes p s).2.2, w.Regular := by
  induction passes generalizing p s with
  | zero => intro w member; cases member
  | succ passes ih =>
    intro w member
    rw [fifoWriteLoop] at member
    dsimp only at member
    split at member
    next => cases member
    next =>
      rcases List.mem_append.mp member with here | later
      · obtain ⟨x, rfl⟩ := mem_cardSetRegisterRep here
        exact ⟨.inl rfl, rfl⟩
      · exact ih _ _ w later

private theorem regular_ioTransmitFrame (cfg : PortConfig) (p : TxPort) (d : δ) :
    ∀ w ∈ (ioTransmitFrame dev cfg mem p d).2.2.1, w.Regular := by
  -- The data goes to the FIFO in words, and its length to BC_FIFO_L.
  have filled : ∀ w ∈ (fifoWriteData dev mem p d).2.2.1, w.Regular := by
    intro w member
    unfold fifoWriteData at member
    dsimp only at member
    split at member
    next => cases member
    next =>
      split at member
      next => cases member
      next =>
        rcases List.mem_append.mp member with data | length
        · exact regular_fifoWriteLoop mem _ _ _ _ w data
        · split at length
          next => cases length
          next =>
            rw [List.mem_singleton.mp length]
            exact ⟨rfl, by decide⟩
  intro w member
  unfold ioTransmitFrame at member
  dsimp only at member
  split at member
  next =>
    rcases List.mem_append.mp member with data | command
    · exact filled w data
    · rw [ioExecuteTransmit, if_neg (by decide)] at command
      rw [mem_issued dev command]
      exact ⟨rfl, by decide⟩
  next => exact filled w member

theorem mem_dmaExecute {cfg : PortConfig} {value : BitVec 32} {w : BusWrite}
    (member : w ∈ dmaExecute cfg value) : w = .register 2 dmaccrOffset value := by
  unfold dmaExecute at member
  split at member
  next => exact List.mem_singleton.mp member
  next => cases member

/-- A command goes to CMDR. -/
private theorem regular_command (cfg : PortConfig) (value : BitVec 32) (d : δ) :
    ∀ w ∈ issued (portSetRegister dev cfg 0 cmdrOffset value d).1, w.Regular := by
  intro w member
  rw [mem_issued dev member]
  exact ⟨rfl, by decide⟩

/-- A command of the DMA engines goes to DMACCR. -/
private theorem regular_dmaExecute {cfg : PortConfig} {value : BitVec 32} :
    ∀ w ∈ dmaExecute cfg value, w.Regular := by
  intro w member
  rw [mem_dmaExecute member]
  exact ⟨rfl, by decide⟩

/-- In DMA mode the write itself starts the transmitter. -/
private theorem regular_startTransmit (cfg : PortConfig) (startDesc : BitVec 32) (d : δ) :
    ∀ w ∈ (startTransmit dev cfg startDesc d).1, w.Regular := by
  intro w member
  simp only [startTransmit] at member
  split at member
  next =>
    split at member
    next => cases member
    next =>
      rcases List.mem_cons.mp member with rfl | go
      · exact ⟨rfl, by decide⟩
      · rw [ioExecuteTransmit, if_pos rfl] at go
        rw [mem_issued dev go]
        exact ⟨rfl, by decide⟩
  next => cases member

/-- Stop, reset, the command, the descriptor base and the restart in turn. -/
private theorem regular_ioPurgeRx (cfg : PortConfig) (p : RxPort) (d : δ) :
    ∀ w ∈ (ioPurgeRx dev mem cfg p d).2.1, w.Regular := by
  intro w member
  simp only [ioPurgeRx, List.mem_append] at member
  obtain (((stop | reset) | rres) | drdb) | go := member
  · exact regular_dmaExecute w stop
  · exact regular_dmaExecute w reset
  · exact regular_command dev cfg _ d w rres
  · split at drdb
    next =>
      rw [List.mem_singleton.mp drdb]
      exact ⟨rfl, by decide⟩
    next => cases drdb
  · exact regular_dmaExecute w go

private theorem regular_ioPurgeTx (cfg : PortConfig) (p : TxPort) (d : δ) :
    ∀ w ∈ (ioPurgeTx dev cfg p d).2.1, w.Regular := by
  intro w member
  simp only [ioPurgeTx, List.mem_append] at member
  obtain ((stop | reset) | tres) | dtdb := member
  · exact regular_dmaExecute w stop
  · exact regular_dmaExecute w reset
  · exact regular_command dev cfg _ d w tres
  · split at dtdb
    next =>
      rw [List.mem_singleton.mp dtdb]
      exact ⟨rfl, by decide⟩
    next => cases dtdb

/-- Every store of every call is one of those. -/
theorem regular_stores (cfg : PortConfig) (storage : FsccRegisters) (fcr : BitVec 32)
    (call : RegisterCall δ) : ∀ w ∈ call.stores dev mem cfg storage fcr, w.Regular := by
  cases call with
  | setRegisters regs d => exact regular_setRegistersLoop dev _ _ _ _
  | registerStore attr value d =>
    intro w member
    rw [mem_issued dev member]
    cases attr <;> exact ⟨by decide, by decide⟩
  | oframeWorker p d =>
    intro w member
    simp only [RegisterCall.stores, Fscc.oframeWorker] at member
    split at member
    next => cases member
    next => exact regular_ioTransmitFrame dev mem cfg p d w member
  | userWriteFrame alloc unmovedBytes buf p d =>
    intro w member
    simp only [RegisterCall.stores, Fscc.userWriteFrame] at member
    split at member
    next => cases member
    next => exact regular_startTransmit dev cfg _ d w member
  | purgeRx p d => exact regular_ioPurgeRx dev mem cfg p d
  | purgeTx p d => exact regular_ioPurgeTx dev cfg p d
  | setClockBits alloc vstr clockData =>
    intro w member
    simp only [RegisterCall.stores, portSetClockBits] at member
    split at member
    next => cases member
    next =>
      -- The clock is set through words to FCR.
      obtain ⟨x, rfl⟩ := mem_cardSetRegisterRep member
      exact ⟨.inr rfl, rfl⟩
  | dmaEnable =>
    intro w member
    rw [List.mem_singleton.mp member]
    exact ⟨rfl, by decide⟩

/-! ### Storage written back to itself -/

/-- What is stored for a field of the storage is cached where it came from, if no field after FCR
is set. -/
private theorem cache_setField {cfg : PortConfig} {storage : FsccRegisters} {i : Fin 30} {d : δ}
    (fits : storage i < 4294967296) (tail : 24 ≤ i.val → storage i < 0) :
    (setField dev cfg i (storage i) d).1.foldl FsccRegisters.cache storage = storage := by
  have same : 0 ≤ storage i → ((BitVec.ofInt 32 (storage i)).toNat : Int) = storage i := by
    intro set
    rw [BitVec.toNat_ofInt]
    omega
  have one : ∀ w ∈ (setField dev cfg i (storage i) d).1, storage.cache w = storage := by
    intro w member
    have set : 0 ≤ storage i := by
      by_contra low
      rw [setField, if_pos (.inr (by omega))] at member
      cases member
    rw [mem_setField dev member]
    funext j
    unfold fieldRegister
    split
    next low =>
      change (if j.val = i.val * 4 / 4 then _ else _) = _
      split
      next here =>
        obtain rfl : j = i := Fin.ext (by omega)
        exact same set
      next => rfl
    next high =>
      obtain rfl : i = RegisterField.fcr.index := by
        apply Fin.ext
        change i.val = 23
        have := mt tail (by omega)
        unfold maxOffset at high
        omega
      change Function.update storage RegisterField.fcr.index _ j = _
      rw [same set, Function.update_eq_self]
  generalize (setField dev cfg i (storage i) d).1 = ws at one
  induction ws with
  | nil => rfl
  | cons w ws ih =>
    rw [List.foldl_cons, one w (.head _)]
    exact ih fun x member => one x (.tail _ member)

/-- A port just made keeps the defaults. -/
theorem portNew_storage (cfg : PortConfig) (card : CardRegisters) (d : δ) :
    (portNew dev cfg card d).2 = defaultRegisters := by
  have settled : ∀ i, defaultRegisters i < 4294967296 ∧ (24 ≤ i.val → defaultRegisters i < 0) := by
    decide
  unfold portNew portSetRegisters
  dsimp only
  generalize List.finRange 30 = is
  induction is generalizing d with
  | nil => rfl
  | cons i is ih =>
    rw [setRegistersLoop]
    dsimp only [Option.getD_none]
    rw [cache_setField dev (settled i).1 (settled i).2]
    exact ih _

end Fscc
