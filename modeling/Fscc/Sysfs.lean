import Fscc.Ioctl
import Fscc.Lib.Numerals

/-!
# The attributes in sysfs

Registers and settings as text: `register_show` and `register_store`, and the `show` and `store` of
each setting. Registers are shown in hexadecimal and settings in decimal; both are read in hexadecimal.
-/

namespace Fscc

open Numerals

variable {δ : Type} (dev : Device δ) (mem : Memory)

/-! ### Registers -/

/-- `simple_strtoul` in base 16, as an `unsigned`. -/
def hexValue (text : List Char) : BitVec 32 := BitVec.ofNat 32 (strtoul 64 16 text)

/-- `register_show`, with the format `"%08x\n"`. -/
def registerShow (channel : Nat) (card : CardRegisters) (attr : RegisterAttribute) : List Char :=
  padded 16 8 (card attr.bar (portOffset channel attr.bar (strToRegisterOffset attr))).toNat ++ ['\n']

/-- `register_store` of one text after the other, on the registers of the card. -/
def registerStores (cfg : PortConfig) :
    List (RegisterAttribute × List Char) → CardRegisters → δ → CardRegisters
  | [], card, _ => card
  | (attr, text) :: stores, card, d =>
    let set := registerStore dev cfg attr (hexValue text) d
    registerStores cfg stores ((issued set.1).foldl (CardRegisters.store cfg.channel) card) set.2

/-- A line feed ends a number in any base. -/
private theorem ends_newline (base : Nat) : Ends base ['\n'] := by
  intro c here
  obtain rfl : '\n' = c := by simpa using here
  exact ⟨rfl, by decide, by decide⟩

/-- A register's text is read as the register's value. -/
private theorem hexValue_registerShow (channel : Nat) (card : CardRegisters)
    (attr : RegisterAttribute) :
    hexValue (registerShow channel card attr) =
      card attr.bar (portOffset channel attr.bar (strToRegisterOffset attr)) := by
  have fits : (card attr.bar (portOffset channel attr.bar (strToRegisterOffset attr))).toNat < 2 ^ 64 :=
    Nat.lt_trans (BitVec.isLt _) (by decide)
  rw [hexValue, registerShow, strtoul_padded (by decide) (Nat.le_refl 16) (ends_newline 16) fits,
    BitVec.ofNat_toNat, BitVec.setWidth_eq]

/-- A store to a register that is no command goes through. -/
private theorem registerStore_ok {cfg : PortConfig} {attr : RegisterAttribute} (plain : attr ≠ .cmdr)
    (value : BitVec 32) (d : δ) :
    registerStore dev cfg attr value d =
      (.ok (.register attr.bar (strToRegisterOffset attr) value), d) := by
  have offset : strToRegisterOffset attr ≠ cmdrOffset := by
    cases attr <;> first | exact absurd rfl plain | decide
  rw [registerStore, portSetRegister, if_neg fun command => offset command.1]

/-- Texts of registers that have been saved bring these registers back, and no others: whatever has
been written in between, in whichever order and however often the texts are stored. -/
theorem registers_restored (cfg : PortConfig) (saved now : CardRegisters) (attrs : List RegisterAttribute)
    (plain : .cmdr ∉ attrs) (d : δ) (bar offset : Nat) :
    registerStores dev cfg (attrs.map fun attr => (attr, registerShow cfg.channel saved attr)) now d
        bar offset =
      if ∃ attr ∈ attrs, attr.bar = bar ∧
          portOffset cfg.channel attr.bar (strToRegisterOffset attr) = offset then saved bar offset
      else now bar offset := by
  induction attrs generalizing now d with
  | nil => simp [registerStores]
  | cons attr attrs ih =>
    rw [List.mem_cons, not_or] at plain
    rw [List.map_cons, registerStores, registerStore_ok dev (Ne.symm plain.1), hexValue_registerShow]
    simp only [issued, List.foldl_cons, List.foldl_nil]
    rw [ih _ plain.2]
    -- The register is written again by a later attribute, or here for the last time.
    by_cases later : ∃ other ∈ attrs, other.bar = bar ∧
        portOffset cfg.channel other.bar (strToRegisterOffset other) = offset
    · have any : ∃ other ∈ attr :: attrs, other.bar = bar ∧
          portOffset cfg.channel other.bar (strToRegisterOffset other) = offset := by
        obtain ⟨other, member, here⟩ := later
        exact ⟨other, .tail _ member, here⟩
      rw [if_pos later, if_pos any]
    · rw [if_neg later, CardRegisters.store]
      -- The attribute puts back what it showed.
      by_cases here : attr.bar = bar ∧ portOffset cfg.channel attr.bar (strToRegisterOffset attr) = offset
      · have any : ∃ other ∈ attr :: attrs, other.bar = bar ∧
            portOffset cfg.channel other.bar (strToRegisterOffset other) = offset := ⟨attr, .head _, here⟩
        rw [if_pos any]
        obtain ⟨rfl, rfl⟩ := here
        exact if_pos ⟨rfl, rfl⟩
      · have none_ : ¬∃ other ∈ attr :: attrs, other.bar = bar ∧
            portOffset cfg.channel other.bar (strToRegisterOffset other) = offset := by
          rintro ⟨other, member, found⟩
          rcases List.mem_cons.mp member with rfl | member
          · exact here found
          · exact later ⟨other, member, found⟩
        rw [if_neg none_]
        exact if_neg here

/-- CCR0 and FCR come back, CCR1 does not. -/
theorem registers_restored_two :
    let saved : CardRegisters := fun _ _ => 0x0011201c#32
    let texts := [RegisterAttribute.ccr0, .fcr].map fun attr =>
      (attr, registerShow fifoConfig.channel saved attr)
    registerStores constant fifoConfig texts (fun _ _ => 0#32) 0#32 0 ccr0Offset = 0x0011201c#32 ∧
      registerStores constant fifoConfig texts (fun _ _ => 0#32) 0#32 0 ccr1Offset = 0#32 := by
  have restored := registers_restored constant fifoConfig (fun _ _ => 0x0011201c#32) (fun _ _ => 0#32)
    [.ccr0, .fcr] (by decide) 0#32
  exact ⟨(restored 0 ccr0Offset).trans (by decide), (restored 0 ccr1Offset).trans (by decide)⟩

/-! ### Settings -/

/-- The attributes of the settings. -/
inductive SettingAttribute where
  | appendStatus
  | appendTimestamp
  | ignoreTimeout
  | rxMultiple
  | txModifiers
deriving DecidableEq, Repr

/-- The `fscc_port_get_` function of a setting. -/
def portGetSetting (port : IoctlPort) : SettingAttribute → Nat
  | .appendStatus => (!portIsStreaming port.storage && port.settings.appendStatus).toNat
  | .appendTimestamp => (!portIsStreaming port.storage && port.settings.appendTimestamp).toNat
  | .ignoreTimeout => port.cfg.ignoreTimeout.toNat
  | .rxMultiple => port.settings.rxMultiple.toNat
  | .txModifiers => port.cfg.txModifiers

/-- The `fscc_port_set_` function of a setting; `store` does not look at its result. -/
def portSetSetting (port : IoctlPort) (value : Nat) : SettingAttribute → Except Errno IoctlPort
  | .appendStatus =>
    if value = 0 then .ok { port with settings := { port.settings with appendStatus := false } }
    else portEnableAppendStatus port
  | .appendTimestamp =>
    if value = 0 then .ok { port with settings := { port.settings with appendTimestamp := false } }
    else portEnableAppendTimestamp port
  | .ignoreTimeout => .ok { port with cfg := { port.cfg with ignoreTimeout := value != 0 } }
  | .rxMultiple => .ok { port with settings := { port.settings with rxMultiple := value != 0 } }
  | .txModifiers => portSetTxModifiers value port

/-- The text of an `unsigned` in the format `"%i\n"`. -/
def intText (value : Nat) : List Char :=
  (if value < 2 ^ 31 then padded 10 1 value else '-' :: padded 10 1 (2 ^ 32 - value)) ++ ['\n']

/-- The `show` of a setting. -/
def settingShow (port : IoctlPort) (attr : SettingAttribute) : List Char :=
  intText (portGetSetting port attr)

/-- The `store` of a setting. -/
def settingStore (port : IoctlPort) (attr : SettingAttribute) (text : List Char) : IoctlPort :=
  match portSetSetting port (hexValue text).toNat attr with
  | .ok port => port
  | .error _ => port

/-- The ioctl that asks for a setting. -/
def SettingAttribute.query : SettingAttribute → IoctlCommand
  | .appendStatus => .getAppendStatus
  | .appendTimestamp => .getAppendTimestamp
  | .ignoreTimeout => .getIgnoreTimeout
  | .rxMultiple => .getRxMultiple
  | .txModifiers => .getTxModifiers

/-- What can change a setting, or what is shown of it. -/
inductive SettingsEvent (δ : Type) where
  | ioctl (card : CardRegisters) (d : δ) (command : IoctlCommand)
  | setting (attr : SettingAttribute) (text : List Char)
  | register (attr : RegisterAttribute) (text : List Char) (d : δ)
  | usingAsync (fcr : BitVec 32)

/-- A port whose settings are changed through its ioctls and its attributes. -/
def settingsMachine : Machine IoctlPort (SettingsEvent δ) where
  init port := port.settings = ⟨false, false, false⟩ ∧ port.cfg.ignoreTimeout = false ∧
    port.cfg.txModifiers = 0
  step port event := some (
    match event with
    | .ioctl card d command => (fsccIoctl dev mem card port d command).port
    | .setting attr text => settingStore port attr text
    | .register attr text d => { port with
        storage := (issued (registerStore dev port.cfg attr (hexValue text) d).1).foldl
          FsccRegisters.cache port.storage }
    | .usingAsync fcr => { port with
        storage := Function.update port.storage RegisterField.fcr.index fcr.toNat })

/-- A raised flag that is shown as 0, the port being in a streaming mode. -/
def Hidden (port : IoctlPort) : SettingAttribute → Prop
  | .appendStatus => portIsStreaming port.storage = true ∧ port.settings.appendStatus = true
  | .appendTimestamp => portIsStreaming port.storage = true ∧ port.settings.appendTimestamp = true
  | _ => False

/-- The port with a flag lowered, and all else as it is. -/
def IoctlPort.lowered (port : IoctlPort) : SettingAttribute → IoctlPort
  | .appendStatus => { port with settings := { port.settings with appendStatus := false } }
  | .appendTimestamp => { port with settings := { port.settings with appendTimestamp := false } }
  | _ => port

/-- A number of one digit is the same in both bases. -/
private theorem hexValue_intText {value : Nat} (small : value < 10) :
    (hexValue (intText value)).toNat = value := by
  have digit : padded 10 1 value = padded 16 1 value := by
    rw [padded, padded, Nat.toDigits_of_lt_base small, Nat.toDigits_of_lt_base (by omega)]
  have fits : value < 2 ^ 64 := Nat.lt_trans small (by decide)
  rw [hexValue, intText, if_pos (by omega), digit, strtoul_padded (by decide) (Nat.le_refl 16)
    (ends_newline 16) fits, BitVec.toNat_ofNat, Nat.mod_eq_of_lt (by omega)]

/-- The modifiers are always ones that `fscc_port_set_tx_modifiers` accepts. -/
def ModifiersValid (port : IoctlPort) : Prop := port.cfg.txModifiers ∈ [0, 2, 4, 1, 3]

private theorem modifiersValid_set {port port' : IoctlPort} {value : Nat} {attr : SettingAttribute}
    (valid : ModifiersValid port) (set : portSetSetting port value attr = .ok port') :
    ModifiersValid port' := by
  cases attr with
  | txModifiers =>
    rw [portSetSetting, portSetTxModifiers] at set
    split at set
    next accepted =>
      cases set
      exact accepted
    next => cases set
  | appendStatus =>
    rw [portSetSetting, portEnableAppendStatus] at set
    split at set
    · cases set
      exact valid
    · split at set
      · cases set
      · cases set
        exact valid
  | appendTimestamp =>
    rw [portSetSetting, portEnableAppendTimestamp] at set
    split at set
    · cases set
      exact valid
    · split at set
      · cases set
      · cases set
        exact valid
  | ignoreTimeout =>
    cases set
    exact valid
  | rxMultiple =>
    cases set
    exact valid

private theorem quietly_port (port : IoctlPort) (d : δ) (set : Except Errno IoctlPort) :
    (quietly port d set).port = match set with
      | .ok port => port
      | .error _ => port := by
  cases set <;> rfl

/-- An ioctl sets a setting or leaves the modifiers. -/
private theorem modifiersValid_ioctl {card : CardRegisters} {port : IoctlPort} {d : δ}
    (command : IoctlCommand)
    (valid : ModifiersValid port) : ModifiersValid (fsccIoctl dev mem card port d command).port := by
  have set : ∀ (value : Nat) (attr : SettingAttribute),
      ModifiersValid (quietly port d (portSetSetting port value attr)).port := by
    intro value attr
    rw [quietly_port]
    cases result : portSetSetting port value attr with
    | ok port' => exact modifiersValid_set valid result
    | error e => exact valid
  cases command with
  | enableAppendStatus => exact set 1 .appendStatus
  | enableAppendTimestamp => exact set 1 .appendTimestamp
  | setTxModifiers value => exact set value .txModifiers
  | _ => exact valid

private theorem modifiersValid_reached {port : IoctlPort}
    (reached : (settingsMachine dev mem).Reached port) :
    ModifiersValid port := by
  refine Machine.Reached.invariant (fun port init => ?_) (fun port port' event valid stepped => ?_) reached
  · obtain ⟨-, -, modifiers⟩ := init
    simp [ModifiersValid, modifiers]
  · obtain rfl := Option.some.inj stepped
    cases event with
    | ioctl card d command => exact modifiersValid_ioctl dev mem command valid
    | setting attr text =>
      dsimp only
      rw [settingStore]
      cases result : portSetSetting port (hexValue text).toNat attr with
      | ok port' => exact modifiersValid_set valid result
      | error e => exact valid
    | register attr text d => exact valid
    | usingAsync fcr => exact valid

private theorem portGetSetting_small {port : IoctlPort} (valid : ModifiersValid port)
    (attr : SettingAttribute) :
    portGetSetting port attr < 10 := by
  have flag : ∀ b : Bool, b.toNat < 10 := by decide
  cases attr with
  | appendStatus => exact flag _
  | appendTimestamp => exact flag _
  | ignoreTimeout => exact flag _
  | rxMultiple => exact flag _
  | txModifiers =>
    simp only [ModifiersValid, List.mem_cons, List.not_mem_nil, or_false] at valid
    simp only [portGetSetting]
    omega

/-- Storing the number that is shown changes nothing, but for a raised flag that is hidden. -/
private theorem setting_kept {port : IoctlPort} (valid : ModifiersValid port)
    (attr : SettingAttribute) :
    settingStore port attr (settingShow port attr) = port ↔ ¬Hidden port attr := by
  rw [settingStore, settingShow, hexValue_intText (portGetSetting_small valid attr)]
  cases attr with
  | appendStatus =>
    obtain ⟨cfg, ⟨status, timestamp, multiple⟩, storage, rx, tx⟩ := port
    cases streaming : portIsStreaming storage <;> cases status <;>
      simp [portGetSetting, portSetSetting, portEnableAppendStatus, Hidden, streaming]
  | appendTimestamp =>
    obtain ⟨cfg, ⟨status, timestamp, multiple⟩, storage, rx, tx⟩ := port
    cases streaming : portIsStreaming storage <;> cases timestamp <;>
      simp [portGetSetting, portSetSetting, portEnableAppendTimestamp, Hidden, streaming]
  | ignoreTimeout =>
    obtain ⟨⟨isDma, channel, modifiers, ignore⟩, settings, storage, rx, tx⟩ := port
    cases ignore <;> simp [portGetSetting, portSetSetting, Hidden]
  | rxMultiple =>
    obtain ⟨cfg, ⟨status, timestamp, multiple⟩, storage, rx, tx⟩ := port
    cases multiple <;> simp [portGetSetting, portSetSetting, Hidden]
  | txModifiers =>
    have set : portSetSetting port (portGetSetting port .txModifiers) .txModifiers = .ok port :=
      if_pos valid
    rw [set]
    simp [Hidden]

/-- A hidden flag is shown as 0, and storing this lowers it. -/
private theorem hidden_lowered {port : IoctlPort} {attr : SettingAttribute}
    (hidden : Hidden port attr) :
    settingShow port attr = ['0', '\n'] ∧
      settingStore port attr (settingShow port attr) = port.lowered attr := by
  have zero : portGetSetting port attr = 0 := by
    cases attr with
    | appendStatus => simp [portGetSetting, hidden.1]
    | appendTimestamp => simp [portGetSetting, hidden.1]
    | _ => exact hidden.elim
  have shown : settingShow port attr = intText 0 := by rw [settingShow, zero]
  refine ⟨shown.trans (by decide), ?_⟩
  rw [shown, settingStore, hexValue_intText (by omega)]
  cases attr with
  | appendStatus => rfl
  | appendTimestamp => rfl
  | _ => exact hidden.elim

/-- However ioctls and attributes have been used, the text of a setting is read as the value that its
ioctl gives, and storing it again changes nothing unless the port is in a streaming mode and the flag
is raised: then it is shown as 0, and storing this lowers the flag and changes nothing else. -/
theorem settings_shown {port : IoctlPort} (reached : (settingsMachine dev mem).Reached port)
    (attr : SettingAttribute) (card : CardRegisters) (d : δ) :
    (fsccIoctl dev mem card port d attr.query).reply =
        some (.value (hexValue (settingShow port attr)).toNat) ∧
      (settingStore port attr (settingShow port attr) = port ↔ ¬Hidden port attr) ∧
      (Hidden port attr → settingShow port attr = ['0', '\n'] ∧
        settingStore port attr (settingShow port attr) = port.lowered attr) := by
  have valid := modifiersValid_reached dev mem reached
  refine ⟨?_, setting_kept valid attr, hidden_lowered⟩
  rw [settingShow, hexValue_intText (portGetSetting_small valid attr)]
  cases attr <;> rfl

/-- The modifiers have been set to `XREP | TXT` and the status is to be appended, but then CCR0 has been
set to transparent mode: the modifiers are shown and kept, and the status is lowered. -/
theorem settings_shown_modifiers :
    ∃ port : IoctlPort, (settingsMachine constant .small).Reached port ∧
      (fsccIoctl constant .small (fun _ _ => 0#32) port 0#32
        SettingAttribute.txModifiers.query).reply =
          some (.value (hexValue (settingShow port .txModifiers)).toNat) ∧
      settingShow port .txModifiers = ['3', '\n'] ∧
      settingStore port .txModifiers (settingShow port .txModifiers) = port ∧
      port.settings.appendStatus = true ∧
      settingStore port .appendStatus (settingShow port .appendStatus) = port.lowered .appendStatus := by
  have init : (settingsMachine constant .small).init checkedPort := ⟨rfl, rfl, rfl⟩
  have run : ∃ port, (settingsMachine constant .small).replay checkedPort
      [.setting .txModifiers ['0', 'x', '3'], .setting .appendStatus ['1', '\n'],
        .register .ccr0 ['2', '\n'] 0#32] = some port ∧
      settingShow port .txModifiers = ['3', '\n'] ∧ Hidden port .appendStatus :=
    ⟨_, rfl, by decide, by decide, rfl⟩
  obtain ⟨port, replayed, text, hidden⟩ := run
  have reached := Machine.Reached.replay (.init init) _ replayed
  obtain ⟨reply, kept, -⟩ :=
    settings_shown constant .small reached .txModifiers (fun _ _ => 0#32) 0#32
  obtain ⟨-, -, lost⟩ :=
    settings_shown constant .small reached .appendStatus (fun _ _ => 0#32) 0#32
  exact ⟨port, reached, reply, text, kept.mpr id, hidden.2, (lost hidden).2⟩

end Fscc
