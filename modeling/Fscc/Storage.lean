import Fscc.Registers
import Mathlib.Data.List.Nodup

/-!
# Register storage

The registers of a card, where a port finds its own among them, and the copy that each port
keeps: `port_offset` of `utils.c`, `fscc_port_set_registers`, `fscc_port_get_registers`,
`fscc_port_suspend` and `fscc_port_resume` of `port.c`, and the register attributes of
`sysfs.c`.
-/

namespace Fscc

/-! ### Offsets -/

def fifotOffset : Nat := 0x08
def ccr0Offset : Nat := 0x1c
def ccr1Offset : Nat := 0x20
def ccr2Offset : Nat := 0x24
def bgrOffset : Nat := 0x28
def ssrOffset : Nat := 0x2c
def smrOffset : Nat := 0x30
def tsrOffset : Nat := 0x34
def tmrOffset : Nat := 0x38
def rarOffset : Nat := 0x3c
def ramrOffset : Nat := 0x40
def pprOffset : Nat := 0x44
def tcrOffset : Nat := 0x48
def vstrOffset : Nat := 0x4c
def imrOffset : Nat := 0x54
def dpllrOffset : Nat := 0x58
def maxOffset : Nat := 0x58
def fcrOffset : Nat := 0x00
def dcrdbOffset : Nat := 0x20
def dctdbOffset : Nat := 0x24

/-- `port_offset`, for the port with the channel `channel`. -/
def portOffset (channel bar offset : Nat) : Nat :=
  match bar with
  | 0 => if channel = 0 then offset else offset + 0x80
  | 2 =>
    if offset = dmaccrOffset then
      if channel = 0 then offset else offset + 0x04
    else if offset = drdbOffset ∨ offset = dtdbOffset ∨ offset = dcrdbOffset ∨
        offset = dctdbOffset then
      if channel = 0 then offset else offset + 0x08
    else offset
  | _ => offset

/-- `is_read_only_register`. -/
def isReadOnlyRegister (offset : Nat) : Bool := offset == starOffset || offset == vstrOffset

/-! ### The registers of a card -/

/-- What the registers of a card hold, by BAR and by offset at the card level. -/
abbrev CardRegisters := Nat → Nat → BitVec 32

/-- The value of a word on a little-endian bus. -/
def Word.value (w : Word) : BitVec 32 :=
  BitVec.ofNat 32 (w.b0.toNat + 0x100 * w.b1.toNat + 0x10000 * w.b2.toNat + 0x1000000 * w.b3.toNat)

def BusWrite.bar : BusWrite → Nat
  | .register bar _ _ | .word bar _ _ => bar

def BusWrite.offset : BusWrite → Nat
  | .register _ offset _ | .word _ offset _ => offset

def BusWrite.value : BusWrite → BitVec 32
  | .register _ _ value => value
  | .word _ _ data => data.value

/-- Whether a store through a port reaches a register of the card. -/
def BusWrite.reaches (channel : Nat) (w : BusWrite) (bar offset : Nat) : Prop :=
  w.bar = bar ∧ portOffset channel w.bar w.offset = offset

instance (channel : Nat) (w : BusWrite) (bar offset : Nat) :
    Decidable (w.reaches channel bar offset) :=
  inferInstanceAs (Decidable (_ ∧ _))

/-- What a store through a port does to the registers of the card. -/
def CardRegisters.store (channel : Nat) (card : CardRegisters) (w : BusWrite) : CardRegisters :=
  fun bar offset => if w.reaches channel bar offset then w.value else card bar offset

/-- The values that the stores `ws` through a port give to a register of the card, in order. -/
def storedAt (channel : Nat) (ws : List BusWrite) (bar offset : Nat) : List (BitVec 32) :=
  ws.filterMap fun w => if w.reaches channel bar offset then some w.value else none

@[simp] theorem storedAt_nil (channel bar offset : Nat) : storedAt channel [] bar offset = [] := rfl

@[simp] theorem storedAt_append (channel : Nat) (xs ys : List BusWrite) (bar offset : Nat) :
    storedAt channel (xs ++ ys) bar offset =
      storedAt channel xs bar offset ++ storedAt channel ys bar offset :=
  List.filterMap_append

/-- A register holds the last value stored, or what it held before. -/
theorem foldl_store (channel : Nat) (ws : List BusWrite) (card : CardRegisters)
    (bar offset : Nat) :
    ws.foldl (CardRegisters.store channel) card bar offset =
      (storedAt channel ws bar offset).getLastD (card bar offset) := by
  induction ws generalizing card with
  | nil => rfl
  | cons w ws ih =>
    rw [List.foldl_cons, ih]
    by_cases here : w.reaches channel bar offset
    · have cut : storedAt channel (w :: ws) bar offset =
          w.value :: storedAt channel ws bar offset := List.filterMap_cons_some (if_pos here)
      rw [cut, List.getLastD_cons, CardRegisters.store, if_pos here]
    · have cut : storedAt channel (w :: ws) bar offset = storedAt channel ws bar offset :=
        List.filterMap_cons_none (if_neg here)
      rw [cut, CardRegisters.store, if_neg here]

/-! ### `struct fscc_registers` -/

/-- The fields of `struct fscc_registers`, as the driver indexes them. -/
abbrev FsccRegisters := Fin 30 → Int

/-- `FSCC_UPDATE_VALUE`. -/
def fsccUpdateValue : Int := -2

/-- The fields that have a name. -/
inductive RegisterField where
  | fifot
  | cmdr
  | star
  | ccr0
  | ccr1
  | ccr2
  | bgr
  | ssr
  | smr
  | tsr
  | tmr
  | rar
  | ramr
  | ppr
  | tcr
  | vstr
  | imr
  | dpllr
  | fcr
  | dmaccr
  | dstar
deriving DecidableEq, Repr

namespace RegisterField

/-- The index of a field. `reserved1` and `reserved2` are 0 and 1, and 3 and 4, `reserved3` is 20,
and `reserved4` is 25 to 28. -/
def index : RegisterField → Fin 30
  | fifot => 2
  | cmdr => 5
  | star => 6
  | ccr0 => 7
  | ccr1 => 8
  | ccr2 => 9
  | bgr => 10
  | ssr => 11
  | smr => 12
  | tsr => 13
  | tmr => 14
  | rar => 15
  | ramr => 16
  | ppr => 17
  | tcr => 18
  | vstr => 19
  | imr => 21
  | dpllr => 22
  | fcr => 23
  | dmaccr => 24
  | dstar => 29

/-- The BAR that the comments of the structure put a field in. -/
def bar : RegisterField → Nat
  | fcr | dmaccr | dstar => 2
  | _ => 0

/-- The `_OFFSET` of a field. -/
def offset : RegisterField → Nat
  | fifot => fifotOffset
  | cmdr => cmdrOffset
  | star => starOffset
  | ccr0 => ccr0Offset
  | ccr1 => ccr1Offset
  | ccr2 => ccr2Offset
  | bgr => bgrOffset
  | ssr => ssrOffset
  | smr => smrOffset
  | tsr => tsrOffset
  | tmr => tmrOffset
  | rar => rarOffset
  | ramr => ramrOffset
  | ppr => pprOffset
  | tcr => tcrOffset
  | vstr => vstrOffset
  | imr => imrOffset
  | dpllr => dpllrOffset
  | fcr => fcrOffset
  | dmaccr => dmaccrOffset
  | dstar => dstarOffset

/-- The fields marked read-only. -/
def readOnly : RegisterField → Bool
  | star | vstr => true
  | _ => false

/-- The register of a port that a field names, at the card level. -/
def cardOffset (channel : Nat) (f : RegisterField) : Nat := portOffset channel f.bar f.offset

end RegisterField

/-- What an accepted store through a port does to its `register_storage`. -/
def FsccRegisters.cache (storage : FsccRegisters) : BusWrite → FsccRegisters
  | .register 0 offset value => fun i => if i.val = offset / 4 then value.toNat else storage i
  | .register _ offset value =>
    if offset = fcrOffset then Function.update storage RegisterField.fcr.index value.toNat
    else storage
  | .word _ _ _ => storage

variable {δ : Type} (dev : Device δ) (cfg : PortConfig)

/-! ### `fscc_port_set_registers` -/

/-- `== -ETIMEDOUT`. -/
def timesOut : Except Errno BusWrite → Bool
  | .error .etimedout => true
  | _ => false

/-- A pass of the loop of `fscc_port_set_registers`, at a field with the value `value`: what it
stores, and whether it has stalled. -/
def setField (i : Fin 30) (value : Int) (d : δ) : List BusWrite × Bool × δ :=
  let registerOffset := i.val * 4
  if isReadOnlyRegister registerOffset ∨ value < 0 then ([], false, d)
  else if registerOffset ≤ maxOffset then
    let set := portSetRegister dev cfg 0 registerOffset (BitVec.ofInt 32 value) d
    (issued set.1, timesOut set.1, set.2)
  else
    let set := portSetRegister dev cfg 2 fcrOffset (BitVec.ofInt 32 value) d
    (issued set.1, false, set.2)

/-- The loop of `fscc_port_set_registers`: what it stores, the storage, and whether it has
stalled. `regs` is `none` when the caller passes `&port->register_storage`. -/
def setRegistersLoop (regs : Option FsccRegisters) :
    List (Fin 30) → FsccRegisters → δ → List BusWrite × FsccRegisters × Bool × δ
  | [], storage, d => ([], storage, false, d)
  | i :: is, storage, d =>
    let set := setField dev cfg i (regs.getD storage i) d
    let rest := setRegistersLoop regs is (set.1.foldl FsccRegisters.cache storage) set.2.2
    (set.1 ++ rest.1, rest.2.1, set.2.1 || rest.2.2.1, rest.2.2.2)

/-- `fscc_port_set_registers`: its status, what it stores, and the storage. -/
def portSetRegisters (regs : Option FsccRegisters) (storage : FsccRegisters) (d : δ) :
    Except Errno Unit × List BusWrite × FsccRegisters × δ :=
  let set := setRegistersLoop dev cfg regs (List.finRange 30) storage d
  (if set.2.2.1 then .error .etimedout else .ok (), set.1, set.2.1, set.2.2.2)

/-! ### `fscc_port_get_registers` -/

/-- The register, at the port level, that the loops over the fields take for a field's. -/
def fieldRegister (i : Fin 30) : Nat × Nat :=
  if i.val * 4 ≤ maxOffset then (0, i.val * 4) else (2, fcrOffset)

/-- `fscc_port_get_registers`, of the port with the channel `channel`. -/
def portGetRegisters (channel : Nat) (card : CardRegisters) (regs : FsccRegisters) :
    FsccRegisters := fun i =>
  if regs i ≠ fsccUpdateValue then regs i
  else (card (fieldRegister i).1 (portOffset channel (fieldRegister i).1 (fieldRegister i).2)).toNat

/-- The registers of the card that `fscc_port_get_registers` reads, in order. -/
def portGetRegistersReads (channel : Nat) (regs : FsccRegisters) : List (Nat × Nat) :=
  ((List.finRange 30).filter fun i => regs i == fsccUpdateValue).map fun i =>
    ((fieldRegister i).1, portOffset channel (fieldRegister i).1 (fieldRegister i).2)

/-! ### Register attributes -/

/-- The attributes that have a `store`. -/
inductive RegisterAttribute where
  | fifot
  | cmdr
  | ccr0
  | ccr1
  | ccr2
  | bgr
  | ssr
  | smr
  | tsr
  | tmr
  | rar
  | ramr
  | ppr
  | tcr
  | imr
  | dpllr
  | fstel
  | fstew
  | fcr
deriving DecidableEq, Repr

/-- `str_to_register_offset` of an attribute's name. -/
def strToRegisterOffset : RegisterAttribute → Nat
  | .fifot => fifotOffset
  | .cmdr => cmdrOffset
  | .ccr0 => ccr0Offset
  | .ccr1 => ccr1Offset
  | .ccr2 => ccr2Offset
  | .bgr => bgrOffset
  | .ssr => ssrOffset
  | .smr => smrOffset
  | .tsr => tsrOffset
  | .tmr => tmrOffset
  | .rar => rarOffset
  | .ramr => ramrOffset
  | .ppr => pprOffset
  | .tcr => tcrOffset
  | .imr => imrOffset
  | .dpllr => dpllrOffset
  | .fstel => 0x5c
  | .fstew => 0x60
  | .fcr => fcrOffset

/-- The BAR that an attribute is declared with. -/
def RegisterAttribute.bar : RegisterAttribute → Nat
  | .fcr => 2
  | _ => 0

/-- `register_store`. -/
def registerStore (attr : RegisterAttribute) (value : BitVec 32) (d : δ) :
    Except Errno BusWrite × δ :=
  portSetRegister dev cfg attr.bar (strToRegisterOffset attr) value d

end Fscc
