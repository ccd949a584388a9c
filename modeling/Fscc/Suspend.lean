import Fscc.RegisterCache
import Fscc.TxRing

/-!
# Suspend and resume

`fscc_card_suspend` refreshes the fields of each port's storage that ask for it, and
`fscc_card_resume` writes the storage of one port after the other back to a card that has lost
its registers: the configuration, but whatever else has been stored as well.
-/

namespace Fscc

variable {δ : Type} (dev : Device δ) (mem : Memory)

/-! ### Suspending and resuming a card -/

/-- `fscc_card_suspend`: `fscc_port_suspend` of each port. -/
def cardSuspend (s : CardSystem) : CardSystem :=
  { s with storage := fun c => portGetRegisters c.val s.card (s.storage c) }

/-- What `fscc_port_resume` stores. -/
def portResume (cfg : PortConfig) (storage : FsccRegisters) (d : δ) : List BusWrite :=
  (portSetRegisters dev cfg none storage d).2.1

/-- The registers after `fscc_card_resume`: `fscc_port_resume` of the first port, then of the
second. -/
def cardResume (cfg : Fin 2 → PortConfig) (storage : Fin 2 → FsccRegisters) (card : CardRegisters)
    (d : Fin 2 → δ) : CardRegisters :=
  (portResume dev (cfg 1) (storage 1) (d 1)).foldl (CardRegisters.store 1)
    ((portResume dev (cfg 0) (storage 0) (d 0)).foldl (CardRegisters.store 0) card)

/-- The registers `after` a resume have the configuration `before` the suspend, and what each port
has stored meanwhile is neither data nor a length nor a command. -/
structure Restored (before after : CardRegisters) (stores : Fin 2 → List BusWrite) : Prop where
  configuration : ∀ (c : Fin 2), ∀ f ∈ configurationFields,
    after f.bar (f.cardOffset c.val) = before f.bar (f.cardOffset c.val)
  fcr : after 2 fcrOffset = before 2 fcrOffset
  silent : ∀ c, ∀ w ∈ stores c, w.bar = 0 →
    w.offset ≠ fifoOffset ∧ w.offset ≠ bcFifoLOffset ∧ w.offset ≠ cmdrOffset

/-- The last value that `fscc_port_resume` gives FCR. -/
def lastFcr (storage : FsccRegisters) : Int :=
  if 0 ≤ storage RegisterField.dmaccr.index then storage RegisterField.dmaccr.index
  else storage RegisterField.fcr.index

/-- Neither port has stored anything at the place of the FIFO, of BC_FIFO_L or of CMDR, and the
second one resumes FCR to what it is. -/
structure CardSystem.Resumable (s : CardSystem) : Prop where
  fifo : ∀ c, s.storage c 0 < 0
  bcFifoL : ∀ c, s.storage c 1 < 0
  cmdr : ∀ c, s.storage c RegisterField.cmdr.index < 0
  fcr : BitVec.ofInt 32 (lastFcr (s.storage 1)) = s.card 2 fcrOffset

/-! ### What the storage holds -/

/-- The offsets of the two ports in BAR 0 are apart. -/
private theorem portOffset_eq_iff {c c' : Fin 2} {a b : Nat} (ha : a < 0x80) (hb : b < 0x80) :
    portOffset c.val 0 a = portOffset c'.val 0 b ↔ c = c' ∧ a = b := by
  rcases channel_cases c with rfl | rfl <;> rcases channel_cases c' with rfl | rfl <;>
    simp [portOffset] <;> omega

/-- What is known of a field that configures a port. -/
structure Configures (f : RegisterField) : Prop where
  bar : f.bar = 0
  offset_pos : 0 < f.offset
  offset_lt : f.offset < 0x80
  writable : f.readOnly = false
  notFcr : f.index ≠ RegisterField.fcr.index

private theorem configures_of_mem {f : RegisterField} (member : f ∈ configurationFields) :
    Configures f := by
  have all : ∀ f ∈ configurationFields, f.bar = 0 ∧ 0 < f.offset ∧ f.offset < 0x80 ∧
      f.readOnly = false ∧ f.index ≠ RegisterField.fcr.index := by decide
  obtain ⟨bar, pos, lt, writable, notFcr⟩ := all f member
  exact ⟨bar, pos, lt, writable, notFcr⟩

/-- The storage of each port has the port's configuration as the card has it; what it holds
besides are registers that have been stored. -/
structure CardSystem.Stored (s : CardSystem) : Prop where
  configuration : ∀ (c : Fin 2), ∀ f ∈ configurationFields,
    s.storage c f.index = (s.card 0 (f.cardOffset c.val)).toNat
  fcr : ∀ c, 0 ≤ s.storage c RegisterField.fcr.index
  tail : ∀ c (i : Fin 30), 25 ≤ i.val → s.storage c i = -1
  range : ∀ c i, s.storage c i = -1 ∨ 0 ≤ s.storage c i
  pending : s.Pending

variable {dev mem} {s t : CardSystem}

/-- A store changes a field's place in the storage and its register together. -/
private theorem cache_configuration (storage : FsccRegisters) {card : CardRegisters} {c c' : Fin 2}
    {w : BusWrite} (regular : w.Regular) {f : RegisterField} (configures : Configures f)
    (same : storage f.index = (card 0 (f.cardOffset c'.val)).toNat) :
    (if c' = c then storage.cache w f.index else storage f.index) =
      (card.store c.val w 0 (f.cardOffset c'.val)).toNat := by
  have place : f.cardOffset c'.val = portOffset c'.val 0 f.offset := by
    rw [RegisterField.cardOffset, configures.bar]
  rw [CardRegisters.store, place]
  rcases w with ⟨_ | bar, offset, value⟩ | ⟨bar, offset, data⟩
  · obtain ⟨aligned, le⟩ := regular
    have reaches : BusWrite.reaches c.val (.register 0 offset value) 0
        (portOffset c'.val 0 f.offset) ↔ c = c' ∧ offset = f.offset := by
      simp only [BusWrite.reaches, BusWrite.bar, BusWrite.offset, true_and]
      exact portOffset_eq_iff (by omega) configures.offset_lt
    simp only [reaches]
    by_cases here : c' = c
    · subst here
      rw [if_pos rfl]
      change (if f.index.val = offset / 4 then (value.toNat : Int) else storage f.index) = _
      simp only [cache_low aligned f configures.bar, true_and]
      split
      next => rfl
      next => rw [same, place]
    · rw [if_neg here, if_neg (fun both => here both.1.symm), same, place]
  · obtain ⟨two, -⟩ := regular
    obtain rfl : bar = 1 := by omega
    have missed : ¬BusWrite.reaches c.val (.register 2 offset value) 0
        (portOffset c'.val 0 f.offset) := fun reaches => by cases reaches.1
    have kept : storage.cache (.register 2 offset value) f.index = storage f.index := by
      rw [cache_high, if_neg (fun both => configures.notFcr both.2)]
    rw [if_neg missed, kept, ite_self, same, place]
  · obtain ⟨-, rfl⟩ := regular
    have missed : ¬BusWrite.reaches c.val (.word bar 0 data) 0 (portOffset c'.val 0 f.offset) := by
      rintro ⟨rfl, there⟩
      have first : 0 = f.offset :=
        ((portOffset_eq_iff (Nat.zero_lt_succ _) configures.offset_lt).mp there).2
      have := configures.offset_pos
      omega
    rw [if_neg missed]
    change (if c' = c then storage f.index else storage f.index) = _
    rw [ite_self, same, place]

/-- What else a store may put in the storage. -/
private theorem cache_range {storage : FsccRegisters} {w : BusWrite} (regular : w.Regular)
    (i : Fin 30) :
    storage.cache w i = storage i ∨ (0 ≤ storage.cache w i ∧ i.val < 25) := by
  rcases w with ⟨_ | bar, offset, value⟩ | ⟨bar, offset, data⟩
  · obtain ⟨-, le⟩ := regular
    change (if i.val = offset / 4 then (value.toNat : Int) else storage i) = _ ∨
      (0 ≤ (if i.val = offset / 4 then (value.toNat : Int) else storage i) ∧ _)
    split
    next here => exact .inr ⟨Int.natCast_nonneg _, by omega⟩
    next => exact .inl rfl
  · obtain ⟨two, -⟩ := regular
    obtain rfl : bar = 1 := by omega
    change storage.cache (.register 2 offset value) i = _ ∨
      (0 ≤ storage.cache (.register 2 offset value) i ∧ _)
    rw [cache_high]
    split
    next here => exact .inr ⟨Int.natCast_nonneg _, by rw [here.2]; decide⟩
    next => exact .inl rfl
  · exact .inl rfl

/-! ### What the ports have stored -/

private theorem foldl_cache {ws : List BusWrite} {i : Fin 30} (storage : FsccRegisters)
    (spared : ∀ (st : FsccRegisters), ∀ w ∈ ws, st.cache w i = st i) :
    ws.foldl FsccRegisters.cache storage i = storage i := by
  induction ws generalizing storage with
  | nil => rfl
  | cons w ws ih =>
    rw [List.foldl_cons, ih _ fun st x member => spared st x (.tail _ member)]
    exact spared storage w (.head _)

/-- Fields in order are read from the storage as it was at first: one that has been written back
changes none of those after it. -/
private theorem setRegistersLoop_alias {cfg : PortConfig} {regs : FsccRegisters} {is : List (Fin 30)}
    (ordered : is.Pairwise (· < ·)) {storage : FsccRegisters} (d : δ)
    (agree : ∀ i ∈ is, storage i = regs i) :
    (setRegistersLoop dev cfg none is storage d).1 =
      (setRegistersLoop dev cfg (some regs) is storage d).1 := by
  induction is generalizing storage d with
  | nil => rfl
  | cons i is ih =>
    obtain ⟨later, ordered⟩ := List.pairwise_cons.mp ordered
    rw [setRegistersLoop, setRegistersLoop]
    dsimp only [Option.getD_none, Option.getD_some]
    rw [agree i (.head _)]
    refine congrArg (_ ++ ·) (ih ordered _ fun j member => ?_)
    rw [← agree j (.tail _ member)]
    apply foldl_cache
    intro st w stored
    have after := Fin.lt_def.mp (later j member)
    rw [mem_setField dev stored]
    unfold fieldRegister maxOffset
    split
    next low => exact if_neg (by omega)
    next high =>
      rw [cache_high, if_neg]
      rintro ⟨-, rfl⟩
      change i.val < 23 at after
      omega

/-- With a clock, a resume stores what a call with the storage for its argument does. -/
private theorem portResume_clocked {cfg : PortConfig} (storage : FsccRegisters) (d : δ)
    (clock : 0 ≤ storage RegisterField.cmdr.index → Clocked dev cfg d) :
    portResume dev cfg storage d = (List.finRange 30).filterMap (fieldStore storage) := by
  rw [← portSetRegisters_clocked dev cfg storage storage clock]
  unfold portResume portSetRegisters
  dsimp only
  exact setRegistersLoop_alias (List.pairwise_lt_finRange 30) d fun _ _ => rfl

/-- The stores of a port reach no register that configures the other. -/
private theorem gathered_apart {β : Type} {c c' : Fin 2} (apart : c ≠ c') {f : RegisterField}
    (configures : Configures f) (g : Fin 30 → Option β) :
    gathered c.val f.bar (f.cardOffset c'.val) g = [] := by
  apply List.filterMap_eq_nil_iff.mpr
  intro i _
  apply if_neg
  rw [RegisterField.cardOffset, configures.bar]
  unfold fieldRegister maxOffset
  split
  next low =>
    rintro ⟨-, same⟩
    exact apart ((portOffset_eq_iff (by omega) configures.offset_lt).mp same).1
  next =>
    rintro ⟨bar, -⟩
    cases bar

/-- What a field that configures a port is given. -/
private theorem ownStores_configuration {storage : FsccRegisters} {f : RegisterField}
    {value : BitVec 32}
    (configures : Configures f) (same : storage f.index = value.toNat) :
    ownStores storage f = [value] := by
  rw [ownStores, same, configures.writable, if_neg (by simp)]
  simp

/-- A resume gives each register that configures a port the value in the port's storage. -/
private theorem cardResume_configuration (dev : Device δ) (cfg : Fin 2 → PortConfig)
    {storage : Fin 2 → FsccRegisters} (card : CardRegisters) (d : Fin 2 → δ)
    (clock : ∀ c, 0 ≤ storage c RegisterField.cmdr.index → Clocked dev (cfg c) (d c))
    {c : Fin 2} {f : RegisterField} (configures : Configures f) {value : BitVec 32}
    (same : storage c f.index = value.toNat) :
    cardResume dev cfg storage card d f.bar (f.cardOffset c.val) = value := by
  have given (c' : Fin 2) : storedAt c'.val (portResume dev (cfg c') (storage c') (d c')) f.bar
      (f.cardOffset c.val) = if c' = c then [value] else [] := by
    rw [portResume_clocked _ _ (clock c'), storedAt_fieldStores]
    split
    next here =>
      subst here
      rw [gathered_low _ f configures.bar, toList_fieldStore,
        ownStores_configuration configures same]
    next apart => exact gathered_apart apart configures _
  have first := given 0
  have second := given 1
  unfold cardResume
  rw [foldl_store, foldl_store]
  change List.getLastD (storedAt (1 : Fin 2).val _ _ _)
    (List.getLastD (storedAt (0 : Fin 2).val _ _ _) _) = _
  rw [first, second]
  rcases channel_cases c with rfl | rfl <;> rfl

/-- The last value that a resume gives FCR. -/
private theorem cardResume_fcr (dev : Device δ) (cfg : Fin 2 → PortConfig)
    {storage : Fin 2 → FsccRegisters} (card : CardRegisters) (d : Fin 2 → δ)
    (clock : ∀ c, 0 ≤ storage c RegisterField.cmdr.index → Clocked dev (cfg c) (d c))
    (fcr : 0 ≤ storage 1 RegisterField.fcr.index)
    (tail : ∀ i : Fin 30, 25 ≤ i.val → storage 1 i = -1) :
    cardResume dev cfg storage card d 2 fcrOffset = BitVec.ofInt 32 (lastFcr (storage 1)) := by
  have here (i : Fin 30) (high : 23 ≤ i.val) :
      (fieldStore (storage 1) i).map BusWrite.value =
        if 0 ≤ storage 1 i then some (BitVec.ofInt 32 (storage 1 i)) else none := by
    have writable : isReadOnlyRegister (i.val * 4) = false := by
      simp [isReadOnlyRegister, starOffset, vstrOffset]
      omega
    unfold fieldStore
    rw [writable]
    by_cases set : 0 ≤ storage 1 i
    · rw [if_neg (by simp [set]), if_pos set]
      rfl
    · rw [if_pos (.inr (by omega)), if_neg set]
      rfl
  have given : storedAt 1 (portResume dev (cfg 1) (storage 1) (d 1)) 2 fcrOffset =
      BitVec.ofInt 32 (storage 1 RegisterField.fcr.index) ::
        if 0 ≤ storage 1 RegisterField.dmaccr.index then
          [BitVec.ofInt 32 (storage 1 RegisterField.dmaccr.index)]
        else [] := by
    rw [portResume_clocked _ _ (clock 1), storedAt_fieldStores]
    change gathered 1 2 (RegisterField.fcr.cardOffset 1) _ = _
    rw [gathered_fcr]
    have unset (i : Fin 30) (high : 25 ≤ i.val) :
        (fieldStore (storage 1) i).map BusWrite.value = none := by
      rw [here i (by omega), tail i high]
      rfl
    -- of the seven fields past MAX_OFFSET only FCR and DMACCR are ever in the storage
    have first := (here 23 (by decide)).trans (if_pos fcr)
    have second := here 24 (by decide)
    simp only [List.filterMap_cons, List.filterMap_nil, first, second, unset 25 (by decide),
      unset 26 (by decide), unset 27 (by decide), unset 28 (by decide), unset 29 (by decide)]
    change _ = BitVec.ofInt 32 (storage 1 23) :: if 0 ≤ storage 1 24 then _ else _
    by_cases set : 0 ≤ storage 1 24
    · rw [if_pos set, if_pos set]
      rfl
    · rw [if_neg set, if_neg set]
  unfold cardResume lastFcr
  rw [foldl_store, given]
  split <;> rfl

/-- A resume is silent when the storage has nothing at the place of the FIFO, of BC_FIFO_L and of
CMDR. -/
private theorem silent_iff (storage : FsccRegisters) :
    (∀ w ∈ (List.finRange 30).filterMap (fieldStore storage), w.bar = 0 →
      w.offset ≠ fifoOffset ∧ w.offset ≠ bcFifoLOffset ∧ w.offset ≠ cmdrOffset) ↔
      storage 0 < 0 ∧ storage 1 < 0 ∧ storage RegisterField.cmdr.index < 0 := by
  constructor
  · intro silent
    have stored (i : Fin 30) (low : i.val * 4 ≤ maxOffset)
        (writable : isReadOnlyRegister (i.val * 4) = false) :
        storage i < 0 ∨ (i.val * 4 ≠ fifoOffset ∧ i.val * 4 ≠ bcFifoLOffset ∧
          i.val * 4 ≠ cmdrOffset) := by
      by_cases set : storage i < 0
      · exact .inl set
      · have store : fieldStore storage i =
            some (.register 0 (i.val * 4) (BitVec.ofInt 32 (storage i))) := by
          rw [fieldStore, writable, if_neg (by simp [set]), fieldRegister, if_pos low]
        exact .inr (silent _ (List.mem_filterMap.mpr ⟨i, List.mem_finRange i, store⟩) rfl)
    refine ⟨(stored 0 (by decide) rfl).resolve_right (by decide),
      (stored 1 (by decide) rfl).resolve_right (by decide),
      (stored 5 (by decide) rfl).resolve_right (by decide)⟩
  · rintro ⟨fifo, bcFifoL, cmdr⟩ w member bar
    obtain ⟨i, -, store⟩ := List.mem_filterMap.mp member
    unfold fieldStore at store
    split at store
    next => cases store
    next set =>
      obtain rfl := Option.some.inj store
      unfold fieldRegister at bar ⊢
      split at bar
      next low =>
        rw [if_pos low]
        refine ⟨fun here => ?_, fun here => ?_, fun here => ?_⟩
        · obtain rfl : i = 0 := Fin.ext (by simpa [fifoOffset, BusWrite.offset] using here)
          exact set (.inr fifo)
        · obtain rfl : i = 1 := by
            change i.val * 4 = 4 at here
            apply Fin.ext
            change i.val = 1
            omega
          exact set (.inr bcFifoL)
        · obtain rfl : i = RegisterField.cmdr.index := by
            change i.val * 4 = 20 at here
            apply Fin.ext
            change i.val = 5
            omega
          exact set (.inr cmdr)
      next => cases bar

/-! ### The clock of a new port -/

/-- A card whose ports have just been made is one that has been resumed with the default registers. -/
private theorem CardSystem.New.resumed (new : s.New dev) :
    ∃ (cfg : Fin 2 → PortConfig) (card : CardRegisters) (d : Fin 2 → δ),
      s.card = cardResume dev cfg (fun _ => defaultRegisters) card d ∧
        ∀ c, s.storage c = defaultRegisters := by
  obtain ⟨cfg, card, d, channels, registers, storage⟩ := new.made
  refine ⟨cfg, card, d, ?_, fun c => by rw [storage c, portNew_storage]⟩
  rw [registers]
  unfold portNew cardResume portResume
  dsimp only
  rw [channels 0, channels 1]
  rfl

/-- FCR given a value through a port. -/
def CardSystem.giveFcr (s : CardSystem) (c : Fin 2) (value : BitVec 32) : CardSystem :=
  { s with
    card := fun bar offset => if bar = 2 ∧ offset = fcrOffset then value else s.card bar offset
    written := Function.update s.written c (Function.update (s.written c) .fcr value.toNat) }

/-- A clock word reaches FCR and is cached nowhere. -/
private theorem store_word (s : CardSystem) (c : Fin 2) (value : BitVec 32) :
    s.store c (.word 2 fcrOffset (Word.ofValue value)) = s.giveFcr c value := by
  have reaches (bar offset : Nat) : BusWrite.reaches c.val (.word 2 fcrOffset (Word.ofValue value)) bar
      offset ↔ bar = 2 ∧ offset = fcrOffset := by
    change 2 = bar ∧ fcrOffset = offset ↔ _
    rw [eq_comm, eq_comm (a := fcrOffset)]
  have named (f : RegisterField) : 2 = f.bar ∧ fcrOffset = f.offset ↔ f = .fcr := by
    cases f <;> decide
  have card : s.card.store c.val (.word 2 fcrOffset (Word.ofValue value)) =
      fun bar offset => if bar = 2 ∧ offset = fcrOffset then value else s.card bar offset := by
    funext bar offset
    rw [CardRegisters.store, BusWrite.value, Word.value_ofValue]
    exact if_congr (reaches bar offset) rfl rfl
  have storage : Function.update s.storage c
      ((s.storage c).cache (.word 2 fcrOffset (Word.ofValue value))) = s.storage :=
    Function.update_eq_self c s.storage
  have written : (fun f : RegisterField =>
      if BusWrite.bar (.word 2 fcrOffset (Word.ofValue value)) = f.bar ∧
          BusWrite.offset (.word 2 fcrOffset (Word.ofValue value)) = f.offset then
        ((BusWrite.value (.word 2 fcrOffset (Word.ofValue value))).toNat : Int) else s.written c f) =
      Function.update (s.written c) .fcr value.toNat := by
    funext f
    rw [BusWrite.value, Word.value_ofValue, Function.update_apply]
    exact if_congr (named f) rfl rfl
  rw [CardSystem.store, card, storage, written, CardSystem.giveFcr]

private theorem giveFcr_foldl (s : CardSystem) (c : Fin 2) (values : List (BitVec 32))
    (value : BitVec 32) :
    (values.foldl (fun s value => s.giveFcr c value) s).giveFcr c value = s.giveFcr c value := by
  induction values generalizing s with
  | nil => rfl
  | cons first values ih =>
    have card : ((s.giveFcr c first).giveFcr c value).card = (s.giveFcr c value).card := by
      funext bar offset
      simp only [CardSystem.giveFcr]
      split <;> rfl
    rw [List.foldl_cons, ih]
    simp only [CardSystem.giveFcr, Function.update_self, Function.update_idem] at card ⊢
    rw [card]

/-- The call that has begun last gives FCR its words one by one. -/
private theorem words_replay (s : CardSystem) (c : Fin 2) (values : List (BitVec 32)) :
    (cardMachine dev mem).replay
        { s with calls := s.calls ++
          [(c, values.map fun value => .word 2 fcrOffset (Word.ofValue value))] }
        (List.replicate values.length (.store s.calls.length)) =
      some { values.foldl (fun s value => s.giveFcr c value) s with calls := s.calls ++ [(c, [])] } := by
  induction values generalizing s with
  | nil => rfl
  | cons value values ih =>
    have stepped : (cardMachine dev mem).step
        { s with calls := s.calls ++
          [(c, (value :: values).map fun value => .word 2 fcrOffset (Word.ofValue value))] }
        (.store s.calls.length) =
        some { s.giveFcr c value with calls := s.calls ++
          [(c, values.map fun value => .word 2 fcrOffset (Word.ofValue value))] } := by
      simp only [cardMachine, List.map_cons, List.getElem?_concat_length]
      rw [← store_word]
      simp [CardSystem.store]
    rw [List.length_cons, List.replicate_succ, Machine.replay, stepped]
    exact ih (s.giveFcr c value)

/-- Where a port has last written to FCR what is there, programming its clock leaves all as it was: the
last of its words is the first value that it has read. -/
private theorem clock_replay {s : CardSystem} {c : Fin 2} {cfg : PortConfig} (own : cfg.channel = c.val)
    (same : s.written c .fcr = (s.card 2 fcrOffset).toNat) (alloc : Bool) (vstr : BitVec 32)
    (clockData : List UInt8) :
    ∃ words, (cardMachine dev mem).replay s (.call c cfg (.setClockBits alloc vstr clockData) ::
        List.replicate words (.store s.calls.length)) =
      some { s with calls := s.calls ++ [(c, [])] } := by
  have began : (cardMachine dev mem).step s (.call c cfg (.setClockBits alloc vstr clockData)) =
      some { s with calls := s.calls ++
        [(c, portSetClockBits alloc cfg.channel vstr (s.card 2 fcrOffset) clockData)] } := if_pos own
  cases alloc with
  | false =>
    refine ⟨0, ?_⟩
    rw [Machine.replay, began]
    rfl
  | true =>
    -- The word before the last one strobes, and the last one is the value that has been read.
    obtain ⟨first, words⟩ : ∃ first, clockWords cfg.channel (adjustXtal vstr clockData)
        (s.card 2 fcrOffset) = first ++ [s.card 2 fcrOffset] :=
      ⟨_, by rw [clockWords]; exact List.append_cons _ _ _⟩
    rw [portSetClockBits_eq, words] at began
    have restored : s.giveFcr c (s.card 2 fcrOffset) = s := by
      have card : (fun bar offset => if bar = 2 ∧ offset = fcrOffset then s.card 2 fcrOffset
          else s.card bar offset) = s.card := by
        funext bar offset
        split
        next here => rw [here.1, here.2]
        next => rfl
      rw [CardSystem.giveFcr, card, ← same, Function.update_eq_self, Function.update_eq_self]
    refine ⟨(first ++ [s.card 2 fcrOffset]).length, ?_⟩
    rw [Machine.replay, began, Option.bind_some, words_replay, List.foldl_append, List.foldl_cons,
      List.foldl_nil, giveFcr_foldl, restored]

/-- A card whose ports have just had their registers set is left as it is when their clocks are
programmed. -/
theorem CardSystem.New.clocked (new : s.New dev) {cfg : Fin 2 → PortConfig}
    (own : ∀ c, (cfg c).channel = c.val) (alloc : Fin 2 → Bool) (vstr : Fin 2 → BitVec 32)
    (clockData : Fin 2 → List UInt8) :
    ∃ words words', (cardMachine dev mem).replay s
        (.call 0 (cfg 0) (.setClockBits (alloc 0) (vstr 0) (clockData 0)) ::
          List.replicate words (.store 0) ++
        .call 1 (cfg 1) (.setClockBits (alloc 1) (vstr 1) (clockData 1)) ::
          List.replicate words' (.store 1)) =
      some { s with calls := [(0, []), (1, [])] } := by
  have same (c : Fin 2) : s.written c .fcr = (s.card 2 fcrOffset).toNat := by
    obtain ⟨cfg', card, d, resumed, defaults⟩ := new.resumed
    have fcr := @cardResume_fcr _ dev cfg' (fun _ => defaultRegisters) card d
      (fun _ set => absurd set (by decide)) (by decide) (by decide)
    rw [new.written, defaults, resumed, fcr]
    decide
  obtain ⟨words, first⟩ := @clock_replay _ dev mem s 0 (cfg 0) (own 0) (same 0) (alloc 0) (vstr 0)
    (clockData 0)
  obtain ⟨words', second⟩ := @clock_replay _ dev mem { s with calls := s.calls ++ [(0, [])] } 1 (cfg 1)
    (own 1) (same 1) (alloc 1) (vstr 1) (clockData 1)
  simp only [new.calls, List.nil_append, List.length_nil, List.length_singleton] at first second
  refine ⟨words, words', ?_⟩
  rw [Machine.replay_append, first, Option.bind_some, second]
  rfl

/-! ### Runs -/

namespace CardSystem.Stored

variable {e : CardEvent δ}

private theorem initial (new : s.New dev) : s.Stored := by
  obtain ⟨cfg, card, d, resumed, defaults⟩ := new.resumed
  refine {
    configuration := fun c f member => ?_
    fcr := fun c => by rw [defaults c]; decide
    tail := fun c i high => ?_
    range := fun c i => ?_
    pending := fun call member => by rw [new.calls] at member; cases member }
  · have same : ∀ f ∈ configurationFields, defaultRegisters f.index =
        (BitVec.ofInt 32 (defaultRegisters f.index)).toNat := by decide
    have cleared : ∀ c' : Fin 2, 0 ≤ defaultRegisters RegisterField.cmdr.index →
        Clocked dev (cfg c') (d c') := fun _ set => absurd set (by decide)
    have restored := cardResume_configuration dev cfg card d cleared (c := c)
      (configures_of_mem member) (same f member)
    rw [(configures_of_mem member).bar] at restored
    rw [resumed, restored, defaults c]
    exact same f member
  · rw [defaults c]
    revert high
    revert i
    decide
  · rw [defaults c]
    revert i
    decide

/-- A store updates the card and the cache of its own channel together. -/
private theorem store (h : s.Stored) {c : Fin 2} {w : BusWrite} (regular : w.Regular)
    {calls : List (Fin 2 × List BusWrite)}
    (pending : CardSystem.Pending { s.store c w with calls := calls }) :
    CardSystem.Stored { s.store c w with calls := calls } := by
  -- The cached value of a field is the old one or the stored one, and that one is not negative.
  have range (c' : Fin 2) (i : Fin 30) :
      Function.update s.storage c ((s.storage c).cache w) c' i = s.storage c' i ∨
        (0 ≤ Function.update s.storage c ((s.storage c).cache w) c' i ∧ i.val < 25) := by
    by_cases here : c' = c
    · subst here
      rw [Function.update_self]
      exact cache_range regular i
    · rw [Function.update_of_ne here]
      exact .inl rfl
  refine ⟨fun c' f member => ?_, fun c' => ?_, fun c' i high => ?_, fun c' i => ?_, pending⟩
  · have configures := configures_of_mem member
    have same := h.configuration c' f member
    by_cases here : c' = c
    · subst here
      have kept := cache_configuration (s.storage c') (c := c') regular configures same
      rw [if_pos rfl] at kept
      simp only [CardSystem.store, Function.update_self]
      exact kept
    · have kept := cache_configuration (s.storage c') (c := c) regular configures same
      rw [if_neg here] at kept
      simp only [CardSystem.store, Function.update_of_ne here]
      exact kept
  · rcases range c' RegisterField.fcr.index with same | set
    · simp only [CardSystem.store, same]
      exact h.fcr c'
    · exact set.1
  · rcases range c' i with same | set
    · simp only [CardSystem.store, same]
      exact h.tail c' i high
    · omega
  · rcases range c' i with same | set
    · simp only [CardSystem.store, same]
      exact h.range c' i
    · exact .inr set.1

/-- The probe for asynchronous mode reads FCR from the card into the cache, and nothing else. -/
private theorem usingAsync (h : s.Stored) (c : Fin 2) {written : Fin 2 → RegisterField → Int} :
    CardSystem.Stored { s with
      storage := Function.update s.storage c (Function.update (s.storage c)
        RegisterField.fcr.index ((s.card 2 fcrOffset).toNat : Int))
      written := written } := by
  have other (c' : Fin 2) (i : Fin 30) (notFcr : i ≠ RegisterField.fcr.index) :
      Function.update s.storage c (Function.update (s.storage c) RegisterField.fcr.index
        ((s.card 2 fcrOffset).toNat : Int)) c' i = s.storage c' i := by
    by_cases here : c' = c
    · subst here
      rw [Function.update_self, Function.update_of_ne notFcr]
    · rw [Function.update_of_ne here]
  have fcr (c' : Fin 2) : 0 ≤ Function.update s.storage c (Function.update (s.storage c)
      RegisterField.fcr.index ((s.card 2 fcrOffset).toNat : Int)) c' RegisterField.fcr.index := by
    by_cases here : c' = c
    · subst here
      rw [Function.update_self, Function.update_self]
      exact Int.natCast_nonneg _
    · rw [Function.update_of_ne here]
      exact h.fcr c'
  refine ⟨fun c' f member => ?_, fcr, fun c' i high => ?_, fun c' i => ?_, h.pending⟩
  · dsimp only
    rw [other c' f.index (configures_of_mem member).notFcr]
    exact h.configuration c' f member
  · dsimp only
    rw [other c' i (by rintro rfl; exact absurd high (by decide))]
    exact h.tail c' i high
  · by_cases here : i = RegisterField.fcr.index
    · rw [here]
      exact .inr (fcr c')
    · dsimp only
      rw [other c' i here]
      exact h.range c' i

/-- The card's own changes spare the registers that configure it. -/
private theorem drift (h : s.Stored) {bar offset : Nat} {value : BitVec 32}
    (free : configures bar offset ≠ true) :
    CardSystem.Stored { s with
      card := fun b o => if b = bar ∧ o = offset then value else s.card b o } := by
  refine ⟨fun c f member => ?_, h.fcr, h.tail, h.range, h.pending⟩
  have apart : ¬(0 = bar ∧ f.cardOffset c.val = offset) := by
    rintro ⟨rfl, rfl⟩
    apply free
    simp only [configures, beq_self_eq_true, Bool.true_and, List.any_eq_true]
    refine ⟨f, member, ?_⟩
    rcases channel_cases c with rfl | rfl <;> simp
  dsimp only
  rw [if_neg apart]
  exact h.configuration c f member

private theorem step (h : s.Stored) (stepped : (cardMachine dev mem).step s e = some t) : t.Stored := by
  have pending := h.pending.step stepped
  cases e with
  -- The entry points change neither the storage nor the card: they only leave stores to be made.
  | call c cfg call =>
    simp only [cardMachine] at stepped
    split at stepped
    next =>
      obtain rfl := Option.some.inj stepped
      exact ⟨h.configuration, h.fcr, h.tail, h.range, pending⟩
    next => cases stepped
  | store k =>
    simp only [cardMachine] at stepped
    split at stepped
    next c w rest found =>
      obtain rfl := Option.some.inj stepped
      exact h.store (h.pending.next found).1 pending
    next => cases stepped
  | usingAsync c =>
    obtain rfl := Option.some.inj stepped
    exact h.usingAsync c
  | drift bar offset value =>
    simp only [cardMachine] at stepped
    split at stepped
    next => cases stepped
    next free =>
      obtain rfl := Option.some.inj stepped
      exact h.drift free

end CardSystem.Stored

/-- A suspend refreshes nothing: no field of the storage ever asks for it. -/
private theorem cardSuspend_eq (h : s.Stored) : cardSuspend s = s := by
  have same : (fun c : Fin 2 => portGetRegisters c.val s.card (s.storage c)) = s.storage := by
    funext c i
    apply if_pos
    rcases h.range c i with unset | set
    · rw [unset]
      decide
    · unfold fsccUpdateValue
      omega
  rw [cardSuspend, same]

/-- After any run, a card that is suspended, loses its registers and is resumed with a clock comes
back to its configuration, and to nothing else, just when what the ports have stored allows it. -/
theorem resume_restores (reached : (cardMachine dev mem).Reached s) (cfg : Fin 2 → PortConfig)
    (lost : CardRegisters) (d : Fin 2 → δ) (clock : ∀ c, Clocked dev (cfg c) (d c)) :
    Restored s.card (cardResume dev cfg (cardSuspend s).storage lost d)
        (fun c => portResume dev (cfg c) ((cardSuspend s).storage c) (d c)) ↔
      s.Resumable := by
  have stored : s.Stored := reached.invariant (fun _ => CardSystem.Stored.initial)
    fun _ _ _ h stepped => h.step stepped
  rw [cardSuspend_eq stored]
  have fcr := cardResume_fcr dev cfg lost d (fun c _ => clock c) (stored.fcr 1) (stored.tail 1)
  have silent (c : Fin 2) : (∀ w ∈ portResume dev (cfg c) (s.storage c) (d c), w.bar = 0 →
      w.offset ≠ fifoOffset ∧ w.offset ≠ bcFifoLOffset ∧ w.offset ≠ cmdrOffset) ↔
      s.storage c 0 < 0 ∧ s.storage c 1 < 0 ∧ s.storage c RegisterField.cmdr.index < 0 := by
    rw [portResume_clocked (s.storage c) (d c) fun _ => clock c]
    exact silent_iff (s.storage c)
  constructor
  · intro restored
    refine ⟨fun c => ?_, fun c => ?_, fun c => ?_, fcr.symm.trans restored.fcr⟩
    · exact ((silent c).mp (restored.silent c)).1
    · exact ((silent c).mp (restored.silent c)).2.1
    · exact ((silent c).mp (restored.silent c)).2.2
  · intro resumable
    refine ⟨fun c f member => ?_, fcr.trans resumable.fcr, fun c => (silent c).mpr
      ⟨resumable.fifo c, resumable.bcFifoL c, resumable.cmdr c⟩⟩
    have configures := configures_of_mem member
    rw [configures.bar]
    have same := cardResume_configuration dev cfg lost d (fun c _ => clock c) configures
      (stored.configuration c f member)
    rw [configures.bar] at same
    exact same

/-- A card whose second port has only set CCR0, and that loses its registers, comes back to them. -/
theorem resume_restores_ccr0 :
    ∃ s, (cardMachine constant .small).replay newCard
        [.call 1 (fifoPort 1) (.setRegisters (oneField .ccr0 0x0011201c) 0#32), .store 0] = some s ∧
      Restored s.card (cardResume constant fifoPort (cardSuspend s).storage (fun _ _ => 0#32)
          fun _ => 0#32)
        fun c => portResume constant (fifoPort c) ((cardSuspend s).storage c) 0#32 := by
  refine ⟨_, rfl, (resume_restores (.replay (.init newCard_init)
    [.call 1 (fifoPort 1) (.setRegisters (oneField .ccr0 0x0011201c) 0#32), .store 0] rfl) fifoPort
    (fun _ _ => 0#32) (fun _ => 0#32) fun _ => .inl rfl).mpr ?_⟩
  constructor
  · decide
  · decide
  · decide
  · decide

/-- A transmit queue that is purged has its CMDR command repeated by the next resume. -/
theorem command_resumed :
    ∃ s, (cardMachine constant .small).Reached s ∧
      ¬Restored s.card (cardResume constant fifoPort (cardSuspend s).storage (fun _ _ => 0#32)
          fun _ => 0#32)
        fun c => portResume constant (fifoPort c) ((cardSuspend s).storage c) 0#32 := by
  have run : ∃ s, (cardMachine constant .small).replay newCard
      [.call 0 (fifoPort 0) (.purgeTx (freshTx .small [1, 2]) 0#32), .store 0] = some s ∧
      BusWrite.register 0 cmdrOffset 0x08000000#32 ∈
        portResume constant (fifoPort 0) ((cardSuspend s).storage 0) 0#32 :=
    ⟨_, rfl, by decide⟩
  obtain ⟨s, replayed, repeated⟩ := run
  refine ⟨s, .replay (.init newCard_init) _ replayed, fun restored => ?_⟩
  exact (restored.silent 0 _ repeated rfl).2.2 rfl

end Fscc
