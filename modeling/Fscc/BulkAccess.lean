import Fscc.Storage

/-!
# Setting and getting registers in bulk

The loops of `fscc_port_set_registers` and `fscc_port_get_registers` find the register of a field
by its index. Up to DPLLR the index is right; every field after it is taken for FCR.
-/

namespace Fscc

variable {δ : Type} (dev : Device δ) (cfg : PortConfig)

/-! ### What a call stores -/

/-- The clock check of a command passes. -/
def Clocked (d : δ) : Prop :=
  cfg.ignoreTimeout = true ∨ (portTimedOut dev d).1 = false

/-- The store for a field that is set. -/
def fieldStore (regs : FsccRegisters) (i : Fin 30) : Option BusWrite :=
  if isReadOnlyRegister (i.val * 4) ∨ regs i < 0 then none
  else some (.register (fieldRegister i).1 (fieldRegister i).2 (BitVec.ofInt 32 (regs i)))

/-- With a clock, a pass stores what its field asks for, and only the one for CMDR looks at the
device. -/
private theorem setField_clocked (regs : FsccRegisters) (i : Fin 30) {d : δ}
    (clock : i = RegisterField.cmdr.index → 0 ≤ regs i → Clocked dev cfg d) :
    (setField dev cfg i (regs i) d).1 = (fieldStore regs i).toList ∧
      (setField dev cfg i (regs i) d).2.1 = false ∧
      (i ≠ RegisterField.cmdr.index → (setField dev cfg i (regs i) d).2.2 = d) := by
  unfold setField fieldStore
  dsimp only
  split
  next => exact ⟨rfl, rfl, fun _ => rfl⟩
  next set =>
    split
    next low =>
      have here : fieldRegister i = (0, i.val * 4) := if_pos low
      rw [here]
      by_cases command : i = RegisterField.cmdr.index
      · subst command
        have passed := clock rfl (not_lt.mp fun negative => set (.inr negative))
        unfold portSetRegister
        dsimp only
        split
        next checked =>
          rw [if_neg (by simp [passed.resolve_left (by simp [checked.2])])]
          exact ⟨rfl, rfl, fun other => absurd rfl other⟩
        next => exact ⟨rfl, rfl, fun other => absurd rfl other⟩
      · have other : i.val * 4 ≠ cmdrOffset := by
          intro same
          apply command
          apply Fin.ext
          change i.val = 5
          unfold cmdrOffset at same
          omega
        rw [portSetRegister, if_neg (fun checked => other checked.1)]
        exact ⟨rfl, rfl, fun _ => rfl⟩
    next high =>
      have here : fieldRegister i = (2, fcrOffset) := if_neg high
      rw [here, portSetRegister, if_neg (by simp [fcrOffset, cmdrOffset])]
      exact ⟨rfl, rfl, fun _ => rfl⟩

/-- With a clock, the loop stores what the fields ask for, one after the other. -/
private theorem setRegistersLoop_clocked (regs : FsccRegisters) {is : List (Fin 30)} (once : is.Nodup)
    (storage : FsccRegisters) {d : δ}
    (clock : RegisterField.cmdr.index ∈ is → 0 ≤ regs RegisterField.cmdr.index →
      Clocked dev cfg d) :
    (setRegistersLoop dev cfg (some regs) is storage d).1 = is.filterMap (fieldStore regs) ∧
      (setRegistersLoop dev cfg (some regs) is storage d).2.2.1 = false := by
  induction is generalizing storage d with
  | nil => exact ⟨rfl, rfl⟩
  | cons i is ih =>
    obtain ⟨new, once⟩ := List.nodup_cons.mp once
    obtain ⟨stores, passed, same⟩ := setField_clocked dev cfg regs i (d := d)
      (fun here set => clock (here ▸ .head _) (here ▸ set))
    -- The device has moved only if CMDR has had its turn, and then it has no other.
    have later := ih once ((setField dev cfg i (regs i) d).1.foldl FsccRegisters.cache storage)
      (d := (setField dev cfg i (regs i) d).2.2) (fun member => by
        rw [same (fun here => new (here ▸ member))]
        exact clock (.tail _ member))
    rw [setRegistersLoop]
    dsimp only [Option.getD_some]
    rw [later.1, later.2, stores, passed]
    refine ⟨?_, rfl⟩
    cases found : fieldStore regs i with
    | none => rw [List.filterMap_cons_none found]; rfl
    | some w => rw [List.filterMap_cons_some found]; rfl

/-- What `fscc_port_set_registers` stores. -/
theorem portSetRegisters_clocked (regs storage : FsccRegisters) {d : δ}
    (clock : 0 ≤ regs RegisterField.cmdr.index → Clocked dev cfg d) :
    (portSetRegisters dev cfg (some regs) storage d).2.1 =
      (List.finRange 30).filterMap (fieldStore regs) :=
  (setRegistersLoop_clocked dev cfg regs (List.nodup_finRange 30) storage fun _ => clock).1

/-! ### Whose register is whose -/

/-- In BAR 0 every register of a port has an offset of its own. -/
private theorem portOffset_inj {channel a b : Nat} :
    portOffset channel 0 a = portOffset channel 0 b ↔ a = b := by
  by_cases first : channel = 0 <;> simp [portOffset, first]

/-- Up to DPLLR a field stands where its offset says. -/
theorem offset_eq_index (f : RegisterField) (low : f.bar = 0) :
    f.offset = f.index.val * 4 ∧ f.offset ≤ maxOffset := by
  cases f <;> first | decide | cases low

/-- A field up to DPLLR shares its register with no other. -/
private theorem fieldRegister_eq_iff {channel : Nat} (f : RegisterField) (low : f.bar = 0)
    (i : Fin 30) :
    (fieldRegister i).1 = f.bar ∧
        portOffset channel (fieldRegister i).1 (fieldRegister i).2 = f.cardOffset channel ↔
      i = f.index := by
  obtain ⟨offset, le⟩ := offset_eq_index f low
  unfold RegisterField.cardOffset fieldRegister
  rw [low]
  constructor
  · rintro ⟨bar, same⟩
    split at bar
    next here =>
      rw [if_pos here, portOffset_inj, offset] at same
      exact Fin.ext (by simpa using same)
    next => cases bar
  · rintro rfl
    rw [← offset, if_pos le]
    exact ⟨rfl, rfl⟩

private theorem filterMap_one {α β : Type} [DecidableEq α] {l : List α} (once : l.Nodup) {a : α}
    (member : a ∈ l) (g : α → Option β) :
    l.filterMap (fun x => if x = a then g x else none) = (g a).toList := by
  induction l with
  | nil => cases member
  | cons x l ih =>
    obtain ⟨new, once⟩ := List.nodup_cons.mp once
    by_cases here : x = a
    · subst here
      have rest : l.filterMap (fun y => if y = x then g y else none) = [] := by
        apply List.filterMap_eq_nil_iff.mpr
        intro y found
        apply if_neg
        rintro rfl
        exact new found
      rw [List.filterMap_cons, if_pos rfl, rest]
      cases g x <;> rfl
    · rw [List.filterMap_cons, if_neg here]
      exact ih once ((List.mem_cons.mp member).resolve_left (Ne.symm here))

/-- What the fields give, one after the other, whose register is the one at `bar` and `offset`. -/
def gathered {β : Type} (channel bar offset : Nat) (g : Fin 30 → Option β) : List β :=
  (List.finRange 30).filterMap fun i =>
    if (fieldRegister i).1 = bar ∧
        portOffset channel (fieldRegister i).1 (fieldRegister i).2 = offset then g i
    else none

section Gathered

variable {β : Type} {channel : Nat} (g : Fin 30 → Option β)

theorem gathered_low (f : RegisterField) (low : f.bar = 0) :
    gathered channel f.bar (f.cardOffset channel) g = (g f.index).toList := by
  rw [← filterMap_one (List.nodup_finRange 30) (List.mem_finRange f.index) g]
  apply List.filterMap_congr
  intro i _
  simp only [fieldRegister_eq_iff f low i]

/-- Every field after DPLLR is taken for FCR. -/
theorem gathered_fcr : gathered channel 2 (RegisterField.fcr.cardOffset channel) g =
    [23, 24, 25, 26, 27, 28, 29].filterMap g := by
  have high : ∀ i : Fin 30, ((fieldRegister i).1 = 2 ∧
      portOffset channel (fieldRegister i).1 (fieldRegister i).2 =
        RegisterField.fcr.cardOffset channel) ↔ 23 ≤ i.val := by
    intro i
    unfold fieldRegister maxOffset
    split
    next low => simp; omega
    next high => exact ⟨fun _ => by omega, fun _ => ⟨rfl, rfl⟩⟩
  simp only [gathered, high]
  rfl

/-- The registers that the fields after FCR name are never found. -/
private theorem gathered_none (f : RegisterField) (tail : f = .dmaccr ∨ f = .dstar) :
    gathered channel f.bar (f.cardOffset channel) g = [] := by
  apply List.filterMap_eq_nil_iff.mpr
  intro i _
  apply if_neg
  rintro ⟨bar, offset⟩
  have bar2 : f.bar = 2 := by rcases tail with rfl | rfl <;> rfl
  have here : fieldRegister i = (2, fcrOffset) := by
    unfold fieldRegister at bar ⊢
    split
    next low => simp [low, bar2] at bar
    next => rfl
  rw [here] at offset
  rcases tail with rfl | rfl
  · by_cases first : channel = 0 <;>
      simp [RegisterField.cardOffset, RegisterField.offset, RegisterField.bar, portOffset, first,
        fcrOffset, dmaccrOffset, drdbOffset, dtdbOffset, dcrdbOffset, dctdbOffset] at offset
  · simp [RegisterField.cardOffset, RegisterField.offset, RegisterField.bar, portOffset,
      fcrOffset, dmaccrOffset, drdbOffset, dtdbOffset, dcrdbOffset, dctdbOffset, dstarOffset]
      at offset

/-- A register without a field's name is at the place of a reserved entry. -/
private theorem gathered_other {bar offset : Nat}
    (unnamed : ∀ f : RegisterField, (f.bar, f.cardOffset channel) ≠ (bar, offset))
    (found : gathered channel bar offset g ≠ []) :
    ∃ i : Fin 30, (g i).isSome ∧ bar = 0 ∧ offset = portOffset channel 0 (i.val * 4) := by
  obtain ⟨x, member⟩ := List.exists_mem_of_ne_nil _ found
  obtain ⟨i, -, given⟩ := List.mem_filterMap.mp member
  split at given
  next here =>
    obtain ⟨rfl, rfl⟩ := here
    refine ⟨i, by simp [given], ?_⟩
    unfold fieldRegister at unnamed ⊢
    split
    next => exact ⟨rfl, rfl⟩
    next high =>
      rw [if_neg high] at unnamed
      exact absurd rfl (unnamed .fcr)
  next => cases given

end Gathered

/-- The stores of a call that reach a register come from the fields whose register it is. -/
theorem storedAt_fieldStores (channel : Nat) (regs : FsccRegisters) (bar offset : Nat) :
    storedAt channel ((List.finRange 30).filterMap (fieldStore regs)) bar offset =
      gathered channel bar offset fun i => (fieldStore regs i).map BusWrite.value := by
  rw [storedAt, List.filterMap_filterMap]
  apply List.filterMap_congr
  intro i _
  dsimp only [fieldStore]
  by_cases skipped : isReadOnlyRegister (i.val * 4) = true ∨ regs i < 0
  · rw [if_pos skipped]
    split <;> rfl
  · rw [if_neg skipped]
    rfl

/-- So do its reads. -/
private theorem count_reads (channel : Nat) (regs : FsccRegisters) (bar offset : Nat) :
    (portGetRegistersReads channel regs).count (bar, offset) =
      (gathered channel bar offset fun i =>
        if regs i = fsccUpdateValue then some () else none).length := by
  rw [portGetRegistersReads, gathered]
  induction List.finRange 30 with
  | nil => rfl
  | cons i is ih =>
    rw [List.filter_cons, List.filterMap_cons]
    by_cases update : regs i = fsccUpdateValue
    · rw [if_pos (by simpa using update), List.map_cons, List.count_cons, ih, if_pos update]
      by_cases here : (fieldRegister i).1 = bar ∧
          portOffset channel (fieldRegister i).1 (fieldRegister i).2 = offset
      · rw [if_pos here, if_pos (by simpa using here)]
        rfl
      · rw [if_neg here, if_neg (by simpa using here)]
        rfl
    · rw [if_neg (by simpa using update), ih, if_neg update, ite_self]

/-! ### The property -/

/-- What the register that a field names is to be given. -/
def ownStores (regs : FsccRegisters) (f : RegisterField) : List (BitVec 32) :=
  if f.readOnly ∨ regs f.index < 0 then [] else [BitVec.ofInt 32 (regs f.index)]

/-- The stores `ws` through a port give each register that a field names what the field asks for,
once; the others of the card are left alone, but for those at the place of a reserved entry. -/
structure SetsNamed (channel : Nat) (regs : FsccRegisters) (ws : List BusWrite) : Prop where
  named : ∀ f : RegisterField, storedAt channel ws f.bar (f.cardOffset channel) = ownStores regs f
  changed : ∀ (card : CardRegisters) (f : RegisterField),
    ws.foldl (CardRegisters.store channel) card f.bar (f.cardOffset channel) =
      (ownStores regs f).getLastD (card f.bar (f.cardOffset channel))
  others : ∀ bar offset, (∀ f : RegisterField, (f.bar, f.cardOffset channel) ≠ (bar, offset)) →
    storedAt channel ws bar offset ≠ [] →
    ∃ i : Fin 30, 0 ≤ regs i ∧ bar = 0 ∧ offset = portOffset channel 0 (i.val * 4)

/-- The fields to be updated, and no others, are replaced, each by what its own register holds;
that register is read once, and no other is. -/
structure GetsNamed (channel : Nat) (card : CardRegisters) (regs : FsccRegisters) : Prop where
  named : ∀ f : RegisterField, portGetRegisters channel card regs f.index =
    if regs f.index = fsccUpdateValue then ((card f.bar (f.cardOffset channel)).toNat : Int)
    else regs f.index
  kept : ∀ i, regs i ≠ fsccUpdateValue → portGetRegisters channel card regs i = regs i
  reads : ∀ f : RegisterField,
    (portGetRegistersReads channel regs).count (f.bar, f.cardOffset channel) =
      if regs f.index = fsccUpdateValue then 1 else 0
  others : ∀ bar offset, (∀ f : RegisterField, (f.bar, f.cardOffset channel) ≠ (bar, offset)) →
    (bar, offset) ∈ portGetRegistersReads channel regs →
    ∃ i : Fin 30, regs i = fsccUpdateValue ∧ bar = 0 ∧ offset = portOffset channel 0 (i.val * 4)

/-- A field is skipped as read-only just when it is marked so. -/
private theorem isReadOnlyRegister_index (f : RegisterField) :
    isReadOnlyRegister (f.index.val * 4) = f.readOnly := by
  cases f <;> decide

theorem toList_fieldStore (regs : FsccRegisters) (f : RegisterField) :
    ((fieldStore regs f.index).map BusWrite.value).toList = ownStores regs f := by
  unfold fieldStore ownStores
  rw [isReadOnlyRegister_index]
  split <;> rfl

/-- A field after FCR has something stored for it just when it is not negative. -/
private theorem fieldStore_tail (regs : FsccRegisters) {i : Fin 30} (tail : 24 ≤ i.val) :
    fieldStore regs i = none ↔ regs i < 0 := by
  have writable : isReadOnlyRegister (i.val * 4) = false := by
    simp [isReadOnlyRegister, starOffset, vstrOffset]
    omega
  simp [fieldStore, writable]

/-- The fields before DMACCR are set as they should be, and the others are not. -/
private theorem setsNamed_iff (channel : Nat) (regs : FsccRegisters) :
    SetsNamed channel regs ((List.finRange 30).filterMap (fieldStore regs)) ↔
      ∀ i : Fin 30, 24 ≤ i.val → regs i < 0 := by
  have cut : ∀ is : List (Fin 30),
      is.filterMap (fun i => (fieldStore regs i).map BusWrite.value) = [] ↔
        ∀ i ∈ is, fieldStore regs i = none := by
    intro is
    simp [List.filterMap_eq_nil_iff]
  -- The fields after FCR go to no register of their own: in the source they all reach FCR.
  have fcr : storedAt channel ((List.finRange 30).filterMap (fieldStore regs)) 2
      (RegisterField.fcr.cardOffset channel) = ownStores regs .fcr ++
        [24, 25, 26, 27, 28, 29].filterMap fun i => (fieldStore regs i).map BusWrite.value := by
    rw [storedAt_fieldStores, gathered_fcr, ← toList_fieldStore]
    change List.filterMap _ (RegisterField.fcr.index :: [24, 25, 26, 27, 28, 29]) = _
    rw [List.filterMap_cons]
    cases fieldStore regs RegisterField.fcr.index <;> rfl
  constructor
  -- If FCR gets its own value only, none of those fields is stored.
  · intro sets
    have tail := sets.named .fcr
    change storedAt channel _ 2 _ = _ at tail
    rw [fcr, List.append_right_eq_self, cut] at tail
    intro i later
    apply (fieldStore_tail regs later).mp
    apply tail
    revert later
    revert i
    decide
  -- If none of them is given, each register gets its own field.
  · intro negative
    have none_ : ∀ i : Fin 30, 24 ≤ i.val → fieldStore regs i = none :=
      fun i later => (fieldStore_tail regs later).mpr (negative i later)
    have named : ∀ f : RegisterField, storedAt channel
        ((List.finRange 30).filterMap (fieldStore regs)) f.bar (f.cardOffset channel) =
          ownStores regs f := by
      intro f
      by_cases low : f.bar = 0
      · rw [storedAt_fieldStores, gathered_low _ f low, toList_fieldStore]
      · obtain rfl | tail : f = .fcr ∨ (f = .dmaccr ∨ f = .dstar) := by
          cases f <;> simp_all [RegisterField.bar]
        · change storedAt channel _ 2 _ = _
          rw [fcr, List.append_right_eq_self, cut]
          intro i member
          apply none_
          revert member
          revert i
          decide
        · rw [storedAt_fieldStores, gathered_none _ f tail, ownStores, if_pos]
          right
          apply negative
          rcases tail with rfl | rfl <;> decide
    -- Of the registers without a field none is reached either.
    refine ⟨named, fun card f => by rw [foldl_store, named], fun bar offset unnamed reached => ?_⟩
    rw [storedAt_fieldStores] at reached
    obtain ⟨i, given, bar, offset⟩ := gathered_other _ unnamed reached
    refine ⟨i, ?_, bar, offset⟩
    by_contra low
    simp [fieldStore, not_le.mp low] at given

/-- Where a field before DMACCR is read from. -/
private theorem fieldRegister_index (channel : Nat) (f : RegisterField) (head : f.bar = 0 ∨ f = .fcr) :
    (fieldRegister f.index).1 = f.bar ∧
      portOffset channel (fieldRegister f.index).1 (fieldRegister f.index).2 =
        f.cardOffset channel := by
  rcases head with low | rfl
  · exact (fieldRegister_eq_iff f low f.index).mpr rfl
  · exact ⟨rfl, rfl⟩

/-- The fields before DMACCR are got as they should be, and the others are not. -/
private theorem getsNamed_iff (channel : Nat) (card : CardRegisters) (regs : FsccRegisters) :
    GetsNamed channel card regs ↔ ∀ i : Fin 30, 24 ≤ i.val → regs i ≠ fsccUpdateValue := by
  have cut : ∀ is : List (Fin 30),
      (is.filterMap fun i => if regs i = fsccUpdateValue then some () else none).length = 0 ↔
        ∀ i ∈ is, regs i ≠ fsccUpdateValue := by
    intro is
    rw [List.length_eq_zero_iff, List.filterMap_eq_nil_iff]
    simp
  -- FCR is read once for its own field and once for each field after it.
  have fcr : (portGetRegistersReads channel regs).count
      (2, RegisterField.fcr.cardOffset channel) =
        (if regs RegisterField.fcr.index = fsccUpdateValue then 1 else 0) +
          (([24, 25, 26, 27, 28, 29] : List (Fin 30)).filterMap fun i =>
            if regs i = fsccUpdateValue then some () else none).length := by
    rw [count_reads, gathered_fcr]
    change (List.filterMap _ (RegisterField.fcr.index :: [24, 25, 26, 27, 28, 29])).length = _
    rw [List.filterMap_cons]
    split
    next skipped =>
      rw [if_neg (by simpa using skipped), Nat.zero_add]
    next found =>
      rw [if_pos (by by_contra other; simp [other] at found), List.length_cons, Nat.add_comm]
  constructor
  · intro gets
    have tail := gets.reads .fcr
    change List.count (2, _) _ = _ at tail
    rw [fcr, Nat.add_eq_left, cut] at tail
    intro i later
    apply tail
    revert later
    revert i
    decide
  -- Nothing after FCR is asked for: each field is then read where it should be.
  · intro kept
    refine ⟨fun f => ?_, fun i other => if_pos other, fun f => ?_,
      fun bar offset unnamed read => ?_⟩
    · by_cases update : regs f.index = fsccUpdateValue
      · have head : f.bar = 0 ∨ f = .fcr := by
          cases f <;>
            first
            | exact .inl rfl
            | exact .inr rfl
            | exact absurd update (kept _ (by decide))
        obtain ⟨bar, offset⟩ := fieldRegister_index channel f head
        rw [portGetRegisters, if_neg (not_not.mpr update), if_pos update, offset, bar]
      · rw [portGetRegisters, if_pos update, if_neg update]
    · by_cases low : f.bar = 0
      · rw [count_reads, gathered_low _ f low]
        split <;> rfl
      · obtain rfl | tail : f = .fcr ∨ (f = .dmaccr ∨ f = .dstar) := by
          cases f <;> simp_all [RegisterField.bar]
        · change List.count (2, _) _ = _
          rw [fcr, Nat.add_eq_left, cut]
          intro i member
          apply kept
          revert member
          revert i
          decide
        · rw [count_reads, gathered_none _ f tail, if_neg]
          · rfl
          · apply kept
            rcases tail with rfl | rfl <;> decide
    · rw [← List.count_pos_iff, count_reads, List.length_pos_iff] at read
      obtain ⟨i, given, place⟩ := gathered_other _ unnamed read
      refine ⟨i, ?_, place⟩
      by_contra other
      simp [other] at given

/-- Setting and getting hit the named registers as long as no field after FCR is asked for. -/
theorem bulk_access (regs storage gets : FsccRegisters) (card : CardRegisters) (d : δ)
    (clock : Clocked dev cfg d) :
    (SetsNamed cfg.channel regs (portSetRegisters dev cfg (some regs) storage d).2.1 ↔
      ∀ i : Fin 30, 24 ≤ i.val → regs i < 0) ∧
    (GetsNamed cfg.channel card gets ↔
      ∀ i : Fin 30, 24 ≤ i.val → gets i ≠ fsccUpdateValue) := by
  constructor
  · rw [portSetRegisters_clocked dev cfg regs storage fun _ => clock]
    exact setsNamed_iff cfg.channel regs
  · exact getsNamed_iff cfg.channel card gets

/-- The registers `FSCC_REGISTERS_INIT` leaves, with one field set. -/
def oneField (f : RegisterField) (value : Int) : FsccRegisters :=
  fun i => if i = f.index then value else -1

/-- A port in FIFO mode without a clock sets CCR0, and gets CCR1. -/
theorem bulk_access_ccr0 :
    SetsNamed 0 (oneField .ccr0 0x0011201c)
        (portSetRegisters constant fifoConfig (some (oneField .ccr0 0x0011201c))
          (fun _ => -1) 0#32).2.1 ∧
      GetsNamed 0 (fun _ _ => 7#32) (oneField .ccr1 fsccUpdateValue) := by
  obtain ⟨sets, gets⟩ := bulk_access constant fifoConfig (oneField .ccr0 0x0011201c) (fun _ => -1)
    (oneField .ccr1 fsccUpdateValue) (fun _ _ => 7#32) 0#32 (.inl rfl)
  exact ⟨sets.mpr (by decide), gets.mpr (by decide)⟩

/-- Setting DMACCR stores its value to FCR instead. -/
theorem dmaccr_set_in_fcr :
    Clocked constant fifoConfig 0#32 ∧
      ¬SetsNamed 0 (oneField .dmaccr 0x03000000)
        (portSetRegisters constant fifoConfig (some (oneField .dmaccr 0x03000000))
          (fun _ => -1) 0#32).2.1 := by
  refine ⟨.inl rfl, fun sets => ?_⟩
  have fcr := sets.named .fcr
  revert fcr
  decide

end Fscc
