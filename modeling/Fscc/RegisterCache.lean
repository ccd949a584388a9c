import Fscc.CardHistory

/-!
# `register_storage` as a cache

Whether each named field of a port's `register_storage` is what the port last wrote to the
register of that name. `fscc_port_set_register` finds the field by the offset in BAR 0, whatever
is there, and knows FCR alone of the registers in BAR 2.
-/

namespace Fscc

variable {δ : Type} (dev : Device δ) (mem : Memory)

/-- Each named field is what was last written through the port to its register. -/
def CardSystem.Cached (s : CardSystem) : Prop := ∀ c (f : RegisterField),
  s.storage c f.index = s.written c f

/-- The store leaves no field behind: one to the offsets in BAR 0 that come after DPLLR, or to
DMACCR, or of a clock word to FCR, is of the value that FCR, or DMACCR, is cached with. -/
def BusWrite.CachedRight (storage : FsccRegisters) : BusWrite → Prop
  | .register 0 offset value =>
    (offset = 0x5c → value.toNat = storage RegisterField.fcr.index) ∧
      (offset = 0x60 → value.toNat = storage RegisterField.dmaccr.index)
  | .register _ offset value =>
    offset = dmaccrOffset → value.toNat = storage RegisterField.dmaccr.index
  | .word bar _ data => bar = 2 → data.value.toNat = storage RegisterField.fcr.index

/-- The next store of a call is cached as it should be. -/
def CachesRight (s : CardSystem) : CardEvent δ → Prop
  | .store k =>
    match s.calls[k]? with
    | some (c, w :: _) => w.CachedRight (s.storage c)
    | _ => True
  | _ => True

/-! ### One store -/

private theorem bar_cases (f : RegisterField) : f.bar = 0 ∨ f = .fcr ∨ f = .dmaccr ∨ f = .dstar := by
  cases f <;> decide

/-- A store to BAR 0 is cached in the field of its register, if it is a named one. -/
theorem cache_low {offset : Nat} (aligned : offset % 4 = 0) (f : RegisterField) (low : f.bar = 0) :
    f.index.val = offset / 4 ↔ offset = f.offset := by
  obtain ⟨eq, -⟩ := offset_eq_index f low
  omega

/-- A store to BAR 2 is cached in FCR, if that is its register. -/
theorem cache_high (storage : FsccRegisters) (offset : Nat) (value : BitVec 32) (i : Fin 30) :
    storage.cache (.register 2 offset value) i =
      if offset = fcrOffset ∧ i = RegisterField.fcr.index then (value.toNat : Int)
      else storage i := by
  change (if offset = fcrOffset then Function.update storage RegisterField.fcr.index
    (value.toNat : Int) else storage) i = _
  by_cases fcr : offset = fcrOffset
  · rw [if_pos fcr]
    by_cases here : i = RegisterField.fcr.index
    · rw [if_pos ⟨fcr, here⟩, here, Function.update_self]
    · rw [if_neg (fun same => here same.2), Function.update_of_ne here]
  · rw [if_neg fcr, if_neg (fun same => fcr same.1)]

section Kept

variable {storage : FsccRegisters} {written : RegisterField → Int}
  (cached : ∀ f : RegisterField, storage f.index = written f)
include cached

/-- A store to BAR 0 is cached by its offset alone. What it leaves in a field of BAR 2, which it does
not write, must be what the field held. -/
private theorem cache_low_iff {offset : Nat} {value : BitVec 32} (aligned : offset % 4 = 0)
    (le : offset ≤ 0x60) :
    (∀ f : RegisterField, storage.cache (.register 0 offset value) f.index =
      if 0 = f.bar ∧ offset = f.offset then (value.toNat : Int) else written f) ↔
      (BusWrite.register 0 offset value).CachedRight storage := by
  change (∀ f : RegisterField,
    (if f.index.val = offset / 4 then (value.toNat : Int) else storage f.index) =
      if 0 = f.bar ∧ offset = f.offset then (value.toNat : Int) else written f) ↔ _
  have other (f : RegisterField) (high : f.bar = 2) :
      ((if f.index.val = offset / 4 then (value.toNat : Int) else storage f.index) =
        if 0 = f.bar ∧ offset = f.offset then (value.toNat : Int) else written f) ↔
      (f.index.val = offset / 4 → (value.toNat : Int) = storage f.index) := by
    rw [if_neg (show ¬(0 = f.bar ∧ offset = f.offset) by simp [high]), ← cached]
    split
    next here => exact ⟨fun eq _ => eq, fun eq => eq here⟩
    next here => exact ⟨fun _ same => absurd same here, fun _ => rfl⟩
  constructor
  · intro right
    refine ⟨fun here => (other .fcr rfl).mp (right .fcr) ?_,
      fun here => (other .dmaccr rfl).mp (right .dmaccr) ?_⟩
    · rw [here]
      rfl
    · rw [here]
      rfl
  · rintro ⟨fcr, dmaccr⟩ f
    rcases bar_cases f with low | rfl | rfl | rfl
    · simp only [cache_low aligned f low, low, true_and, cached]
    · apply (other .fcr rfl).mpr
      intro here
      change 23 = offset / 4 at here
      exact fcr (by omega)
    · apply (other .dmaccr rfl).mpr
      intro here
      change 24 = offset / 4 at here
      exact dmaccr (by omega)
    · apply (other .dstar rfl).mpr
      intro here
      change 29 = offset / 4 at here
      omega

/-- Of the stores to BAR 2 those to FCR are cached, and those to DMACCR are not. -/
private theorem cache_high_iff {offset : Nat} {value : BitVec 32}
    (notDstar : offset ≠ dstarOffset) :
    (∀ f : RegisterField, storage.cache (.register 2 offset value) f.index =
      if 2 = f.bar ∧ offset = f.offset then (value.toNat : Int) else written f) ↔
      (BusWrite.register 2 offset value).CachedRight storage := by
  simp only [cache_high]
  constructor
  · rintro right rfl
    have dmaccr := right .dmaccr
    rw [if_neg (by decide), if_pos ⟨rfl, rfl⟩] at dmaccr
    exact dmaccr.symm
  · intro dmaccr f
    rcases bar_cases f with low | rfl | rfl | rfl
    · have notFcr : f.index ≠ RegisterField.fcr.index := by
        cases f <;> first | decide | cases low
      rw [if_neg (fun same => notFcr same.2), if_neg (by simp [low]), cached]
    · by_cases fcr : offset = fcrOffset
      · rw [if_pos ⟨fcr, rfl⟩, if_pos ⟨rfl, fcr⟩]
      · rw [if_neg (fun same => fcr same.1), if_neg (fun same => fcr same.2), cached]
    · rw [if_neg (fun same => absurd same.2 (by decide))]
      by_cases here : offset = dmaccrOffset
      · rw [if_pos ⟨rfl, here⟩, dmaccr here]
      · rw [if_neg (fun same => here same.2), cached]
    · rw [if_neg (fun same => absurd same.2 (by decide)), if_neg (fun same => notDstar same.2),
        cached]

/-- A word is not cached at all, and one to BAR 2 is written to FCR. -/
private theorem cache_word_iff {bar : Nat} {data : Word} :
    (∀ f : RegisterField, storage.cache (.word bar 0 data) f.index =
      if bar = f.bar ∧ 0 = f.offset then (data.value.toNat : Int) else written f) ↔
      (BusWrite.word bar 0 data).CachedRight storage := by
  change (∀ f : RegisterField, storage f.index =
    if bar = f.bar ∧ 0 = f.offset then (data.value.toNat : Int) else written f) ↔ _
  constructor
  · rintro right rfl
    have fcr := right .fcr
    rw [if_pos ⟨rfl, rfl⟩] at fcr
    exact fcr.symm
  · intro fcr f
    by_cases here : bar = f.bar ∧ 0 = f.offset
    · have last : f = .fcr := by
        have start := here.2
        revert start
        cases f <;> decide
      subst last
      rw [if_pos here, fcr here.1]
    · rw [if_neg here, cached]

/-- A store keeps the cache right just when it is cached as it should be. -/
private theorem cache_iff {w : BusWrite} (regular : w.Regular) :
    (∀ f : RegisterField, storage.cache w f.index =
      if w.bar = f.bar ∧ w.offset = f.offset then (w.value.toNat : Int) else written f) ↔
      w.CachedRight storage := by
  match w, regular with
  | .register 0 offset value, ⟨aligned, le⟩ => exact cache_low_iff cached aligned le
  | .register (bar + 1) offset value, ⟨two, notDstar⟩ =>
    obtain rfl : bar = 1 := by omega
    exact cache_high_iff cached notDstar
  | .word bar offset data, ⟨bars, first⟩ =>
    subst first
    exact cache_word_iff cached

end Kept

/-! ### Runs -/

/-- Every store still to be made is one of the driver's. -/
def CardSystem.Pending (s : CardSystem) : Prop := ∀ call ∈ s.calls, ∀ w ∈ call.2, w.Regular

/-- The next store of a call is one of the driver's, and so are those after it. -/
theorem CardSystem.Pending.next {s : CardSystem} (pending : s.Pending) {k : Nat} {c : Fin 2}
    {w : BusWrite} {rest : List BusWrite} (found : s.calls[k]? = some (c, w :: rest)) :
    w.Regular ∧ ∀ call ∈ s.calls.set k (c, rest), ∀ w ∈ call.2, w.Regular := by
  have regular := pending _ (List.mem_of_getElem? found)
  refine ⟨regular w (.head _), fun call member => ?_⟩
  rcases List.mem_or_eq_of_mem_set member with old | rfl
  · exact pending call old
  · exact fun x later => regular x (.tail _ later)

variable {dev mem} {s t : CardSystem} {e : CardEvent δ}

theorem CardSystem.Pending.step (pending : s.Pending)
    (stepped : (cardMachine dev mem).step s e = some t) : t.Pending := by
  cases e with
  | call c cfg call =>
    simp only [cardMachine] at stepped
    split at stepped
    next =>
      obtain rfl := Option.some.inj stepped
      intro call' member
      rcases List.mem_append.mp member with old | new
      · exact pending call' old
      · rw [List.mem_singleton.mp new]
        -- A new call has its stores to make, all of them for registers of the card.
        exact regular_stores dev mem cfg _ _ call
    next => cases stepped
  | store k =>
    simp only [cardMachine] at stepped
    split at stepped
    next found =>
      obtain rfl := Option.some.inj stepped
      exact (pending.next found).2
    next => cases stepped
  | usingAsync c =>
    obtain rfl := Option.some.inj stepped
    exact pending
  | drift bar offset value =>
    simp only [cardMachine] at stepped
    split at stepped
    next => cases stepped
    next =>
      obtain rfl := Option.some.inj stepped
      exact pending

/-- A step that caches right keeps the cache right. -/
private theorem CardSystem.Cached.step (cached : s.Cached) (pending : s.Pending)
    (right : CachesRight s e)
    (stepped : (cardMachine dev mem).step s e = some t) : t.Cached := by
  cases e with
  | call c cfg call =>
    simp only [cardMachine] at stepped
    split at stepped
    next =>
      obtain rfl := Option.some.inj stepped
      exact cached
    next => cases stepped
  | store k =>
    simp only [cardMachine] at stepped
    split at stepped
    next c w rest found =>
      obtain rfl := Option.some.inj stepped
      simp only [CachesRight, found] at right
      -- The condition says that this store is cached in the field of its register.
      have kept := (cache_iff (cached c) (pending.next found).1).mpr right
      intro c' f
      by_cases here : c' = c
      · subst here
        simp only [CardSystem.store, Function.update_self]
        exact kept f
      · simp only [CardSystem.store, Function.update_of_ne here]
        exact cached c' f
    next => cases stepped
  | usingAsync c =>
    obtain rfl := Option.some.inj stepped
    intro c' f
    by_cases here : c' = c
    · subst here
      simp only [Function.update_self]
      -- FCR has just been read.
      by_cases fcr : f = .fcr
      · subst fcr
        rw [Function.update_self, Function.update_self]
      · rw [Function.update_of_ne fcr, Function.update_of_ne, cached c' f]
        cases f <;> first | decide | exact absurd rfl fcr
    · simp only [Function.update_of_ne here]
      exact cached c' f
  | drift bar offset value =>
    simp only [cardMachine] at stepped
    split at stepped
    next => cases stepped
    next =>
      obtain rfl := Option.some.inj stepped
      exact cached

/-- In every run whose stores are cached right, every named field is what was last written. -/
theorem register_cache (reached : (cardMachine dev mem).ReachedUnder CachesRight s) :
    s.Cached := by
  have both : s.Cached ∧ s.Pending := by
    refine reached.invariant (P := fun s => s.Cached ∧ s.Pending)
      (fun t new => ⟨fun c f => (new.written c f).symm, ?_⟩)
      fun t u e h right stepped => ⟨h.1.step h.2 right stepped, h.2.step stepped⟩
    intro call member
    rw [new.calls] at member
    cases member
  exact both.1

/-! ### `fstel` -/

/-- The ports of a card in FIFO mode, without a clock. -/
def fifoPort (c : Fin 2) : PortConfig := ⟨false, c.val, 0, true⟩

/-- A card whose ports have just been made. -/
def newCard : CardSystem where
  card := (portNew constant (fifoPort 1)
    (portNew constant (fifoPort 0) (fun _ _ => 0#32) 0#32).1 0#32).1
  storage _ := defaultRegisters
  calls := []
  written _ f := defaultRegisters f.index

theorem newCard_init : (cardMachine constant .small).init newCard where
  made := ⟨fifoPort, fun _ _ => 0#32, fun _ => 0#32, fun _ => rfl, rfl,
    fun _ => (portNew_storage _ _ _ _).symm⟩
  calls := rfl
  written _ _ := rfl

/-- Writing the attribute `fstel` changes the cached FCR. -/
theorem fstel_cached_in_fcr :
    ∃ s, (cardMachine constant .small).Reached s ∧ ¬s.Cached := by
  have run : ∃ s, (cardMachine constant .small).replay newCard
      [.call 0 fifoConfig (.registerStore .fstel 5#32 0#32), .store 0] = some s ∧
      s.storage 0 RegisterField.fcr.index = 5 ∧ s.written 0 .fcr = 0 :=
    ⟨_, rfl, by decide, by decide⟩
  obtain ⟨s, replayed, storage, written⟩ := run
  refine ⟨s, .replay (.init newCard_init) _ replayed, fun cached => ?_⟩
  have fcr := cached 0 .fcr
  rw [storage, written] at fcr
  cases fcr

/-- A card whose first port has CCR0 set, and is found not to be in async mode. -/
theorem register_cache_ccr0 :
    ∃ s, (cardMachine constant .small).replay newCard
        [.call 0 fifoConfig (.setRegisters (oneField .ccr0 0x0011201c) 0#32), .store 0,
          .usingAsync 0] = some s ∧ s.Cached := by
  refine ⟨_, rfl, register_cache (.replay (.init newCard_init)
    [.call 0 fifoConfig (.setRegisters (oneField .ccr0 0x0011201c) 0#32), .store 0,
      .usingAsync 0] ⟨trivial, ?_⟩ rfl)⟩
  rintro _ ⟨⟩
  exact ⟨⟨by decide, by decide⟩, fun _ _ => ⟨trivial, fun _ _ => trivial⟩⟩

end Fscc
