import Fscc.CardHistory
import Fscc.Lib.Noninterference

/-!
# One port of a card does not notice the other

The registers of a card are shared by its two ports: most belong to one of them by `port_offset`, and
FCR to both. Calls of both ports run at once, store by store. A port whose stores spare FCR leaves the
other port's registers, storage and calls as they are without it.
-/

namespace Fscc

variable {δ : Type} (dev : Device δ) (mem : Memory)

/-! ### The registers of a port -/

/-- Where the driver stores: the registers of BAR 0, and of BAR 2 FCR, DMACCR, DRDB and DTDB. -/
def placed (bar offset : Nat) : Bool :=
  bar == 0 && decide (offset < 0x80) ||
    bar == 2 && [fcrOffset, dmaccrOffset, drdbOffset, dtdbOffset].contains offset

def BusWrite.Placed (w : BusWrite) : Prop := placed w.bar w.offset = true

private theorem placed_cases {bar offset : Nat} (h : placed bar offset = true) :
    bar = 0 ∧ offset < 0x80 ∨
      bar = 2 ∧ (offset = fcrOffset ∨ offset = dmaccrOffset ∨ offset = drdbOffset ∨ offset = dtdbOffset) := by
  simpa [placed] using h

/-- A store to FCR, which both ports share. -/
def BusWrite.ToFcr (w : BusWrite) : Prop := w.bar = 2 ∧ w.offset = fcrOffset

instance decidableToFcr (w : BusWrite) : Decidable w.ToFcr := inferInstanceAs (Decidable (_ ∧ _))

/-- The registers of the card that belong to one port: half of BAR 0, and its DMACCR, DRDB and DTDB. -/
def ownedBy (c : Fin 2) (bar offset : Nat) : Prop :=
  bar = 0 ∧ (offset < 0x80 ↔ c = 0) ∨
    bar = 2 ∧ offset ∈ [portOffset c 2 dmaccrOffset, portOffset c 2 drdbOffset, portOffset c 2 dtdbOffset]

/-- Every store of a port but those to FCR is to a register of its own. -/
private theorem owned_of_placed {c : Fin 2} {bar offset : Nat} (h : placed bar offset = true)
    (spared : ¬(bar = 2 ∧ offset = fcrOffset)) : ownedBy c bar (portOffset c.val bar offset) := by
  rcases placed_cases h with ⟨rfl, small⟩ | ⟨rfl, fcr | place⟩
  · refine .inl ⟨rfl, ?_⟩
    rcases (by omega : c = 0 ∨ c = 1) with rfl | rfl
    · simpa [portOffset] using small
    · simp [portOffset]
  · exact absurd ⟨rfl, fcr⟩ spared
  · refine .inr ⟨rfl, ?_⟩
    rcases place with rfl | rfl | rfl <;> simp

/-- What one port can address is not the other's. -/
private theorem not_owned {c c' : Fin 2} (other : c' ≠ c) {bar offset : Nat}
    (h : placed bar offset = true) :
    ¬ownedBy c bar (portOffset c'.val bar offset) := by
  have cases : c = 0 ∧ c' = 1 ∨ c = 1 ∧ c' = 0 := by omega
  rcases placed_cases h with ⟨rfl, small⟩ | ⟨rfl, place⟩
  · rintro (⟨-, half⟩ | ⟨two, -⟩)
    · rcases cases with ⟨rfl, rfl⟩ | ⟨rfl, rfl⟩
      · simp [portOffset] at half
      · simp [portOffset, small] at half
    · cases two
  · rintro (⟨zero, -⟩ | ⟨-, own⟩)
    · cases zero
    · rcases cases with ⟨rfl, rfl⟩ | ⟨rfl, rfl⟩
      · rcases place with rfl | rfl | rfl | rfl <;> revert own <;> decide
      · rcases place with rfl | rfl | rfl | rfl <;> revert own <;> decide

private theorem not_owned_fcr (c : Fin 2) : ¬ownedBy c 2 fcrOffset := by
  match c with
  | 0 => unfold ownedBy; decide
  | 1 => unfold ownedBy; decide

/-! ### Where the stores of a call go -/

section

variable {cfg : PortConfig}

private theorem placed_command (value : BitVec 32) (d : δ) :
    ∀ w ∈ issued (portSetRegister dev cfg 0 cmdrOffset value d).1, w.Placed := by
  intro w member
  rw [mem_issued dev member]
  exact rfl

private theorem placed_dmaExecute (value : BitVec 32) : ∀ w ∈ dmaExecute cfg value, w.Placed := by
  intro w member
  rw [mem_dmaExecute member]
  exact rfl

private theorem placed_setRegistersLoop (regs : Option FsccRegisters) (is : List (Fin 30))
    (storage : FsccRegisters) (d : δ) :
    ∀ w ∈ (setRegistersLoop dev cfg regs is storage d).1, w.Placed := by
  induction is generalizing storage d with
  | nil => intro w member; cases member
  | cons i is ih =>
    intro w member
    rcases List.mem_append.mp member with here | later
    · rw [mem_setField dev here]
      unfold fieldRegister maxOffset
      split
      next low =>
        have small : i.val * 4 < 0x80 := by omega
        simp [BusWrite.Placed, placed, BusWrite.bar, BusWrite.offset, small]
      next => exact rfl
    · exact ih _ _ w later

private theorem placed_ioTransmitFrame (p : TxPort) (d : δ) :
    ∀ w ∈ (ioTransmitFrame dev cfg mem p d).2.2.1, w.Placed := by
  -- Every word of data goes to the port's own FIFO.
  have loop (tfcnt passes : Nat) (p : TxPort) (s : Filling) :
      ∀ w ∈ (fifoWriteLoop mem tfcnt passes p s).2.2, w.Placed := by
    induction passes generalizing p s with
    | zero => intro w member; cases member
    | succ passes ih =>
      intro w member
      rw [fifoWriteLoop] at member
      dsimp only at member
      split at member
      next => cases member
      next =>
        rcases List.mem_append.mp member with here | later
        · obtain ⟨x, rfl⟩ := mem_cardSetRegisterRep here
          exact rfl
        · exact ih _ _ w later
  have filled : ∀ w ∈ (fifoWriteData dev mem p d).2.2.1, w.Placed := by
    intro w member
    unfold fifoWriteData at member
    dsimp only at member
    split at member
    next => cases member
    next =>
      split at member
      next => cases member
      next =>
        -- Behind the data comes the length, if a frame was begun.
        rcases List.mem_append.mp member with data | length
        · exact loop _ _ _ _ w data
        · split at length
          next => cases length
          next =>
            rw [List.mem_singleton.mp length]
            exact rfl
  intro w member
  unfold ioTransmitFrame at member
  dsimp only at member
  split at member
  next =>
    rcases List.mem_append.mp member with data | command
    · exact filled w data
    · exact placed_command dev _ _ w command
  next => exact filled w member

private theorem placed_stores (storage : FsccRegisters) (fcr : BitVec 32) (call : RegisterCall δ) :
    ∀ w ∈ call.stores dev mem cfg storage fcr, w.Placed := by
  intro w member
  cases call with
  | setRegisters regs d => exact placed_setRegistersLoop dev _ _ _ _ w member
  | registerStore attr value d =>
    rw [mem_issued dev member]
    cases attr <;> rfl
  | oframeWorker p d =>
    simp only [RegisterCall.stores, Fscc.oframeWorker] at member
    split at member
    next => cases member
    next => exact placed_ioTransmitFrame dev mem p d w member
  | userWriteFrame alloc unmovedBytes buf p d =>
    simp only [RegisterCall.stores, Fscc.userWriteFrame, startTransmit] at member
    split at member
    next => cases member
    next =>
      split at member
      next =>
        split at member
        next => cases member
        next =>
          rcases List.mem_cons.mp member with rfl | go
          · exact rfl
          · rw [ioExecuteTransmit, if_pos rfl] at go
            rw [mem_issued dev go]
            exact rfl
      next => cases member
  | purgeRx p d =>
    simp only [RegisterCall.stores, ioPurgeRx, List.mem_append] at member
    obtain (((stop | reset) | rres) | drdb) | go := member
    · exact placed_dmaExecute _ w stop
    · exact placed_dmaExecute _ w reset
    · exact placed_command dev _ d w rres
    · split at drdb
      next =>
        rw [List.mem_singleton.mp drdb]
        exact rfl
      next => cases drdb
    · exact placed_dmaExecute _ w go
  | purgeTx p d =>
    simp only [RegisterCall.stores, ioPurgeTx, List.mem_append] at member
    obtain ((stop | reset) | tres) | dtdb := member
    · exact placed_dmaExecute _ w stop
    · exact placed_dmaExecute _ w reset
    · exact placed_command dev _ d w tres
    · split at dtdb
      next =>
        rw [List.mem_singleton.mp dtdb]
        exact rfl
      next => cases dtdb
  | setClockBits alloc vstr clockData =>
    simp only [RegisterCall.stores, portSetClockBits] at member
    split at member
    next => cases member
    next =>
      obtain ⟨x, rfl⟩ := mem_cardSetRegisterRep member
      exact rfl
  | dmaEnable =>
    rw [List.mem_singleton.mp member]
    exact rfl

end

/-! ### The two ports -/

/-- What a port has of its own: its storage, and the calls under way with the stores they have still to
make. -/
structure PortSide where
  storage : FsccRegisters
  calls : List (List BusWrite)

/-- The registers of a card and its ports. -/
structure SharedCard where
  card : CardRegisters
  side : Fin 2 → PortSide

/-- What happens through a port: a call begins, its `k`th call makes the next store, or FCR is looked
at by `fscc_port_using_async`. -/
inductive SideEvent (δ : Type) where
  | call (cfg : PortConfig) (call : RegisterCall δ)
  | store (k : Nat)
  | usingAsync

/-- One port's part of a step: the registers of the card, and what the port has of its own. -/
def PortSide.step (c : Fin 2) (card : CardRegisters) (side : PortSide) :
    SideEvent δ → Option (CardRegisters × PortSide)
  | .call cfg call =>
    if cfg.channel = c.val then
      some (card, { side with
        calls := side.calls ++ [call.stores dev mem cfg side.storage (card 2 fcrOffset)] })
    else none
  | .store k =>
    match side.calls[k]? with
    | some (w :: rest) =>
      some (card.store c.val w, ⟨side.storage.cache w, side.calls.set k rest⟩)
    | _ => none
  | .usingAsync =>
    some (card, { side with
      storage := Function.update side.storage RegisterField.fcr.index (card 2 fcrOffset).toNat })

/-- Both ports of a card, in any order. -/
def sharedCard : Machine SharedCard (Fin 2 × SideEvent δ) where
  init s := ∀ c, (s.side c).calls = []
  step s e := ((s.side e.1).step dev mem e.1 s.card e.2).map fun after =>
    ⟨after.1, Function.update s.side e.1 after.2⟩

/-- A step of the port `c` makes no store to FCR. -/
def SparesFcr (c : Fin 2) (s : SharedCard) : Fin 2 × SideEvent δ → Prop
  | (d, .store k) =>
    match (s.side d).calls[k]? with
    | some (w :: _) => d = c → ¬w.ToFcr
    | _ => True
  | _ => True

/-- The stores that calls have still to make are those of the driver. -/
def SharedCard.AllPlaced (s : SharedCard) : Prop :=
  ∀ c, ∀ ws ∈ (s.side c).calls, ∀ w ∈ ws, w.Placed

/-- The same but for the registers of the port `c`, and what it has of its own. -/
structure SharedCard.SameBut (c : Fin 2) (s s' : SharedCard) : Prop where
  card : ∀ bar offset, ¬ownedBy c bar offset → s.card bar offset = s'.card bar offset
  side : ∀ c', c' ≠ c → s.side c' = s'.side c'

variable {dev mem}

namespace SharedCard

variable {s t : SharedCard} {c : Fin 2}

private theorem AllPlaced.step {e : Fin 2 × SideEvent δ} (h : s.AllPlaced)
    (stepped : (sharedCard dev mem).step s e = some t) : t.AllPlaced := by
  obtain ⟨c, e⟩ := e
  obtain ⟨⟨card, side⟩, own, rfl⟩ := Option.map_eq_some_iff.mp stepped
  -- The calls under way on the port that moves: a new one, or one with a store less.
  have kept : ∀ ws ∈ side.calls, ∀ w ∈ ws, w.Placed := by
    cases e with
    | call cfg call =>
      obtain ⟨-, eq⟩ := Option.ite_none_right_eq_some.mp own
      cases eq
      intro ws member
      rcases List.mem_append.mp member with old | new
      · exact h c ws old
      · rw [List.mem_singleton.mp new]
        exact placed_stores dev mem _ _ call
    | store k =>
      simp only [PortSide.step] at own
      split at own
      next w rest next =>
        cases own
        intro ws member
        have making := h c (w :: rest) (List.mem_of_getElem? next)
        rcases List.mem_or_eq_of_mem_set member with old | rfl
        · exact h c ws old
        · exact fun x later => making x (.tail _ later)
      next => cases own
    | usingAsync =>
      cases own
      exact h c
  -- Those of the other port are as they were.
  intro c' ws member
  by_cases here : c' = c
  · subst here
    simp only [Function.update_self] at member
    exact kept ws member
  · simp only [Function.update_of_ne here] at member
    exact h c' ws member

private theorem SameBut.refl (s : SharedCard) (c : Fin 2) :
    s.SameBut c s := ⟨fun _ _ _ => rfl, fun _ _ => rfl⟩

/-- A step of the port itself changes nothing else. -/
private theorem SameBut.unseen {s' : SharedCard} {e : Fin 2 × SideEvent δ} (placed : s.AllPlaced)
    (h : s.SameBut c s') (own : e.1 = c) (spares : SparesFcr c s e)
    (stepped : (sharedCard dev mem).step s e = some t) : t.SameBut c s' := by
  obtain ⟨d, e⟩ := e
  obtain rfl : d = c := own
  obtain ⟨⟨card, side⟩, own, rfl⟩ := Option.map_eq_some_iff.mp stepped
  refine ⟨fun bar offset outside => ?_, fun c' other => ?_⟩
  · rw [← h.card bar offset outside]
    cases e with
    | call cfg call =>
      obtain ⟨-, eq⟩ := Option.ite_none_right_eq_some.mp own
      cases eq
      exact rfl
    | store k =>
      simp only [PortSide.step] at own
      split at own
      next w rest next =>
        cases own
        -- The store is for the port's own registers, or for FCR, which the run spares.
        have spared : ¬w.ToFcr := by simpa [SparesFcr, next] using spares
        refine if_neg ?_
        rintro ⟨rfl, rfl⟩
        have put : w.Placed := placed d (w :: rest) (List.mem_of_getElem? next) w (.head _)
        exact outside (owned_of_placed put spared)
      next => cases own
    | usingAsync =>
      cases own
      exact rfl
  · dsimp only
    rw [Function.update_of_ne other]
    exact h.side c' other

/-- A step of the other port is the same on both cards. -/
private theorem SameBut.follows {s' : SharedCard} {e : Fin 2 × SideEvent δ} (h : s.SameBut c s')
    (other : e.1 ≠ c) (stepped : (sharedCard dev mem).step s e = some t) :
    ∃ t', (sharedCard dev mem).step s' e = some t' ∧ t.SameBut c t' := by
  obtain ⟨d, e⟩ := e
  have other : d ≠ c := other
  obtain ⟨⟨card, side⟩, own, rfl⟩ := Option.map_eq_some_iff.mp stepped
  -- FCR is the one register that both ports read.
  have fcr := h.card 2 fcrOffset (not_owned_fcr c)
  have same := h.side d other
  -- The step may be taken on the other card with the same outcome for the port.
  suffices ∃ card', (s'.side d).step dev mem d s'.card e = some (card', side) ∧
      ∀ bar offset, ¬ownedBy c bar offset → card bar offset = card' bar offset by
    obtain ⟨card', own', agree⟩ := this
    refine ⟨_, Option.map_eq_some_iff.mpr ⟨_, own', rfl⟩, agree, fun c' others => ?_⟩
    by_cases here : c' = d
    · subst here
      simp only [Function.update_self]
    · simp only [Function.update_of_ne here]
      exact h.side c' others
  rw [← same]
  cases e with
  | call cfg call =>
    obtain ⟨channel, eq⟩ := Option.ite_none_right_eq_some.mp own
    cases eq
    refine ⟨s'.card, ?_, h.card⟩
    rw [PortSide.step, if_pos channel, fcr]
  | store k =>
    simp only [PortSide.step] at own ⊢
    split at own
    next w rest next =>
      cases own
      refine ⟨s'.card.store d.val w, rfl, fun bar offset outside => ?_⟩
      rw [CardRegisters.store, CardRegisters.store, h.card bar offset outside]
    next => cases own
  | usingAsync =>
    cases own
    refine ⟨s'.card, ?_, h.card⟩
    rw [PortSide.step, fcr]

end SharedCard

/-- In every run from any reachable state, however the calls of the two ports interleave: if the port `c`
makes no store to FCR, then the other port's events alone are a run too, and it leaves everything but the
registers of `c` and what `c` has of its own just as the whole run does. -/
theorem port_unnoticed {c : Fin 2} {s t : SharedCard} (reached : (sharedCard dev mem).Reached s)
    {es : List (Fin 2 × SideEvent δ)} (spares : (sharedCard dev mem).Met (SparesFcr c) s es)
    (replayed : (sharedCard dev mem).replay s es = some t) :
    ∃ t', (sharedCard dev mem).replay s (es.filter fun e => e.1 != c) = some t' ∧
      (∀ c', c' ≠ c → t.side c' = t'.side c' ∧ ∀ bar offset, placed bar offset = true →
        t.card bar (portOffset c'.val bar offset) = t'.card bar (portOffset c'.val bar offset)) := by
  have start : s.AllPlaced := reached.invariant (P := SharedCard.AllPlaced)
    (fun s none_ c ws member => by simp [none_ c] at member) fun _ _ _ h stepped => h.step stepped
  have unwinding : (sharedCard dev mem).Unwinding (fun e => e.1 != c) (SparesFcr c)
      fun s s' => s.AllPlaced ∧ s.SameBut c s' := by
    refine ⟨fun h others spares stepped => ?_, fun h own _ stepped => ?_⟩
    · exact ⟨h.1.step stepped, h.2.unseen h.1 (by simpa using others) spares stepped⟩
    · obtain ⟨t', stepped', same⟩ := h.2.follows (by simpa using own) stepped
      exact ⟨t', stepped', h.1.step stepped, same⟩
  obtain ⟨t', replayed', -, same⟩ := unwinding.replay ⟨start, .refl s c⟩ spares replayed
  exact ⟨t', replayed', fun c' other => ⟨same.side c' other, fun bar offset put =>
    same.card bar _ (not_owned other put)⟩⟩

instance decidableSparesFcr (c : Fin 2) (s : SharedCard) :
    (e : Fin 2 × SideEvent δ) → Decidable (SparesFcr c s e)
  | (d, .store k) => by unfold SparesFcr; dsimp only; split <;> infer_instance
  | (_, .call _ _) | (_, .usingAsync) => .isTrue trivial

/-- A card whose registers read 0, its ports idle. -/
def idleCard : SharedCard := ⟨fun _ _ => 0#32, fun _ => ⟨defaultRegisters, []⟩⟩

/-- CCR1 of the second port is stored while CCR0 of the first is. -/
def twoStores : List (Fin 2 × SideEvent (BitVec 32)) :=
  [(0, .call fifoConfig (.registerStore .ccr0 5#32 0#32)),
    (1, .call { fifoConfig with channel := 1 } (.registerStore .ccr1 7#32 0#32)),
    (0, .store 0), (1, .store 0)]

theorem port_unnoticed_two :
    ∃ t, (sharedCard constant .small).replay idleCard twoStores = some t ∧
      t.card 0 (portOffset 0 0 ccr0Offset) = 5#32 ∧
      ∃ t', (sharedCard constant .small).replay idleCard (twoStores.filter fun e => e.1 != 0) = some t' ∧
        (∀ c', c' ≠ 0 → t.side c' = t'.side c' ∧ ∀ bar offset, placed bar offset = true →
          t.card bar (portOffset c'.val bar offset) = t'.card bar (portOffset c'.val bar offset)) := by
  refine ⟨_, rfl, by decide, ?_⟩
  exact port_unnoticed (.init fun _ => rfl) (by decide) rfl

end Fscc
