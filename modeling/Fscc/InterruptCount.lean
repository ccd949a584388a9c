import Fscc.Isr
import Fscc.Sysfs

/-!
# Counting interrupts

What a build with `DEBUG` adds: `debug.c`, its part in `fscc_isr`, and the attributes that show the
counts. The counts lie in memory one after the other, in the order of the bits of ISR.
-/

namespace Fscc

open Numerals

/-! ### The tracker -/

/-- The words of `struct debug_interrupt_tracker`. -/
abbrev InterruptTracker := Nat → BitVec 32

/-- The number of its words. -/
def trackerWords : Nat := 32

/-- The loop of `debug_interrupt_tracker_increment_all`, with `left` words to come from `i` on. -/
def incrementAllLoop : Nat → Nat → BitVec 32 → InterruptTracker → InterruptTracker
  | 0, _, _, tracker => tracker
  | left + 1, i, isrValue, tracker =>
    incrementAllLoop left (i + 1) (isrValue >>> 1)
      (if isrValue &&& 0x00000001#32 ≠ 0#32 then Function.update tracker i (tracker i + 1#32) else tracker)

/-- `debug_interrupt_tracker_increment_all`. -/
def incrementAll (tracker : InterruptTracker) (isrValue : BitVec 32) : InterruptTracker :=
  if isrValue = 0#32 then tracker else incrementAllLoop trackerWords 0 isrValue tracker

/-- The loop of `debug_interrupt_tracker_get_count`, which shifts a bit out; 32 passes are enough. -/
def getCountLoop : Nat → BitVec 32 → Nat → Nat
  | 0, _, i => i
  | fuel + 1, isrBit, i => if isrBit = 0#32 then i else getCountLoop fuel (isrBit >>> 1) (i + 1)

/-- `debug_interrupt_tracker_get_count`. -/
def getCount (tracker : InterruptTracker) (isrBit : BitVec 32) : BitVec 32 :=
  if isrBit = 0#32 then 0#32 else tracker (getCountLoop 32 (isrBit >>> 1) 0)

/-- `debug_interrupt_tracker_new`. -/
def trackerNew : InterruptTracker := fun _ => 0#32

/-! ### Attributes -/

/-- The attributes of the group `debug`. -/
inductive InterruptAttribute where
  | rfs
  | rft
  | rfe
  | rfo
  | rdo
  | rfl
  | tin
  | dr_hi
  | dt_hi
  | dr_fe
  | dt_fe
  | dr_stop
  | dt_stop
  | tft
  | alls
  | tdu
  | ctss
  | dsrc
  | cdc
  | ctsa
deriving DecidableEq, Repr

/-- `str_to_interrupt_offset` of an attribute's name. -/
def strToInterruptOffset : InterruptAttribute → BitVec 32
  | .rfs => 0x00000001#32
  | .rft => 0x00000002#32
  | .rfe => 0x00000004#32
  | .rfo => 0x00000008#32
  | .rdo => 0x00000010#32
  | .rfl => 0x00000020#32
  | .tin => 0x00000100#32
  | .dr_hi => 0x00000400#32
  | .dt_hi => 0x00000800#32
  | .dr_fe => 0x00001000#32
  | .dt_fe => 0x00002000#32
  | .dr_stop => 0x00004000#32
  | .dt_stop => 0x00008000#32
  | .tft => 0x00010000#32
  | .alls => 0x00020000#32
  | .tdu => 0x00040000#32
  | .ctss => 0x01000000#32
  | .dsrc => 0x02000000#32
  | .cdc => 0x04000000#32
  | .ctsa => 0x08000000#32

/-- The place of the field of that name in `struct debug_interrupt_tracker`. -/
def InterruptAttribute.field : InterruptAttribute → Nat
  | .rfs => 0
  | .rft => 1
  | .rfe => 2
  | .rfo => 3
  | .rdo => 4
  | .rfl => 5
  -- `reserved1` has two words, and `reserved2` one.
  | .tin => 8
  | .dr_hi => 10
  | .dt_hi => 11
  | .dr_fe => 12
  | .dt_fe => 13
  | .dr_stop => 14
  | .dt_stop => 15
  | .tft => 16
  | .alls => 17
  | .tdu => 18
  -- `reserved3` has five.
  | .ctss => 24
  | .dsrc => 25
  | .cdc => 26
  | .ctsa => 27

/-- `interrupt_count`. -/
def interruptCount (tracker : InterruptTracker) (attr : InterruptAttribute) : List Char :=
  intText (getCount tracker (strToInterruptOffset attr)).toNat

/-! ### The handler and the display -/

/-- What a port keeps of its interrupts. `displaying` is what `debug_interrupt_display` has loaded of
`last_isr_value` and is about to clear, and `displayed` what it has shown. -/
structure InterruptLog where
  tracker : InterruptTracker
  lastIsrValue : BitVec 32
  displaying : Option (BitVec 32)
  displayed : BitVec 32

/-- `fscc_isr`, of a port that exists or does not, or one of the two halves of
`debug_interrupt_display`. -/
inductive InterruptEvent where
  | isr (portExists : Bool) (isrValue : BitVec 32)
  | load
  | clear
deriving DecidableEq, Repr

def InterruptLog.step (s : InterruptLog) : InterruptEvent → Option InterruptLog
  | .isr portExists isrValue =>
    if !portExists ∨ isrValue = 0#32 then some s
    else some { s with
      tracker := incrementAll s.tracker isrValue
      lastIsrValue := s.lastIsrValue ||| isrValue }
  | .load =>
    if s.displaying = none then some { s with displaying := some s.lastIsrValue } else none
  | .clear =>
    match s.displaying with
    | none => none
    | some isrValue =>
      some { s with
        lastIsrValue := 0#32
        displaying := none
        displayed := s.displayed ||| isrValue }

/-- The interrupts of a port from `fscc_port_new` on. -/
def interruptMachine : Machine InterruptLog InterruptEvent where
  init s := s = ⟨trackerNew, 0#32, none, 0#32⟩
  step := InterruptLog.step

/-- An interrupt that a bit of ISR is counted for. -/
def InterruptEvent.raises (k : Nat) : InterruptEvent → Bool
  | .isr portExists isrValue => portExists && isrValue.getLsbD k
  | _ => false

/-! ### One interrupt -/

private theorem and_one_ne_zero (x : BitVec 32) : x &&& 0x00000001#32 ≠ 0#32 ↔ x.getLsbD 0 = true := by
  have one : x &&& 0x00000001#32 = BitVec.ofNat 32 (x.toNat % 2) := by
    apply BitVec.eq_of_toNat_eq
    rw [BitVec.toNat_and, BitVec.toNat_ofNat]
    change x.toNat &&& 1 = x.toNat % 2 % 2 ^ 32
    rw [Nat.and_one_is_mod]
    omega
  rw [one, BitVec.getLsbD, Nat.testBit_zero, decide_eq_true_iff]
  constructor
  · intro nonzero
    by_contra even
    have zero : x.toNat % 2 = 0 := by omega
    exact nonzero (by rw [zero])
  · intro odd same
    have value := congrArg BitVec.toNat same
    rw [odd] at value
    exact absurd value (by decide)

/-- The loop adds one to the words whose bits are set, and leaves those before it. -/
private theorem incrementAllLoop_apply (left i : Nat) (isrValue : BitVec 32)
    (tracker : InterruptTracker) (k : Nat) :
    incrementAllLoop left i isrValue tracker k =
      if i ≤ k ∧ k < i + left ∧ isrValue.getLsbD (k - i) = true then tracker k + 1#32 else tracker k := by
  -- Induction on the words left. The value is shifted along, so its lowest bit is that of word `i`.
  induction left generalizing i isrValue tracker with
  | zero => rw [incrementAllLoop, if_neg (by omega)]
  | succ left ih =>
    rw [incrementAllLoop, ih]
    have shifted : ∀ j, (isrValue >>> 1).getLsbD j = isrValue.getLsbD (1 + j) := fun j =>
      BitVec.getLsbD_ushiftRight isrValue 1 j
    by_cases first : k = i
    · subst first
      rw [if_neg (by omega)]
      simp [and_one_ne_zero]
      split <;> simp
    · have same : (if isrValue &&& 0x00000001#32 ≠ 0#32 then Function.update tracker i (tracker i + 1#32)
          else tracker) k = tracker k := by
        split
        · exact Function.update_of_ne first _ _
        · rfl
      rw [same, shifted]
      by_cases later : i + 1 ≤ k
      · have place : 1 + (k - (i + 1)) = k - i := by omega
        rw [place]
        refine if_congr ?_ rfl rfl
        refine and_congr (by omega) (and_congr (by omega) Iff.rfl)
      · rw [if_neg (fun h => later h.1), if_neg (fun h => by omega)]

private theorem incrementAll_apply {k : Nat} (inside : k < trackerWords) (isrValue : BitVec 32)
    (tracker : InterruptTracker) :
    incrementAll tracker isrValue k =
      if isrValue.getLsbD k = true then tracker k + 1#32 else tracker k := by
  rw [incrementAll]
  split
  next zero =>
    rw [zero, if_neg (by simp)]
  next =>
    rw [incrementAllLoop_apply]
    refine if_congr ?_ rfl rfl
    simp [inside]

/-! ### Any number of interrupts -/

/-- Each word counts the interrupts with its bit, modulo 2^32. -/
private theorem tracker_replay {events : List InterruptEvent} {s t : InterruptLog} {k : Nat}
    (inside : k < trackerWords) (replayed : interruptMachine.replay s events = some t) :
    t.tracker k = s.tracker k + BitVec.ofNat 32 (events.countP (InterruptEvent.raises k)) := by
  induction events generalizing s with
  | nil =>
    cases replayed
    simp
  | cons event events ih =>
    obtain ⟨s', stepped, rest⟩ := Option.bind_eq_some_iff.mp replayed
    rw [ih rest, List.countP_cons]
    -- An event adds one to the word if it is an interrupt of the port with that bit.
    have one : s'.tracker k = s.tracker k + BitVec.ofNat 32 (if event.raises k = true then 1 else 0) := by
      have step : s.step event = some s' := stepped
      cases event with
      | isr portExists isrValue =>
        simp only [InterruptLog.step] at step
        split at step
        next nothing =>
          -- The handler leaves if the port is gone or nothing was raised.
          cases step
          rcases nothing with absent | zero
          · have gone : portExists = false := by simpa using absent
            simp [InterruptEvent.raises, gone]
          · simp [InterruptEvent.raises, zero]
        -- Every bit of the value is counted.
        next counted =>
          cases step
          simp only [not_or, Bool.not_eq_true, Bool.not_eq_false'] at counted
          change incrementAll s.tracker isrValue k = _
          rw [incrementAll_apply inside]
          by_cases bit : isrValue.getLsbD k = true
          · simp [InterruptEvent.raises, counted.1, bit]
          · simp [InterruptEvent.raises, counted.1, bit]
      | load =>
        simp only [InterruptLog.step] at step
        split at step
        · cases step
          simp [InterruptEvent.raises]
        · cases step
      | clear =>
        simp only [InterruptLog.step] at step
        split at step
        · cases step
        · cases step
          simp [InterruptEvent.raises]
    rw [one, BitVec.add_assoc]
    congr 1
    rw [BitVec.ofNat_add, BitVec.add_comm]

/-- The count of an attribute is kept in the field of its name. -/
private theorem getCount_field (tracker : InterruptTracker) (attr : InterruptAttribute) :
    getCount tracker (strToInterruptOffset attr) = tracker attr.field := by
  have place : getCountLoop 32 (strToInterruptOffset attr >>> 1) 0 = attr.field ∧
      strToInterruptOffset attr ≠ 0#32 := by
    cases attr <;> decide
  rw [getCount, if_neg place.2, place.1]

/-- An interrupt that an attribute is about. -/
def InterruptAttribute.concerns (attr : InterruptAttribute) : InterruptEvent → Bool
  | .isr portExists isrValue => portExists && isrValue &&& strToInterruptOffset attr != 0#32
  | _ => false

/-- The field of an attribute lies where its bit lies in ISR. -/
private theorem concerns_eq (attr : InterruptAttribute) (event : InterruptEvent) :
    attr.concerns event = event.raises attr.field := by
  have bit : strToInterruptOffset attr = BitVec.twoPow 32 attr.field ∧
      BitVec.twoPow 32 attr.field ≠ 0#32 := by cases attr <;> decide
  cases event with
  | isr portExists isrValue =>
    rw [InterruptAttribute.concerns, InterruptEvent.raises, bit.1, BitVec.and_twoPow]
    cases isrValue.getLsbD attr.field
    · simp
    · simp [bit.2]
  | load => rfl
  | clear => rfl

/-- Whatever interrupts come, and however they meet with the display, each attribute shows how many
there have been with its bit in ISR while the port existed, modulo 2^32. -/
theorem interrupts_counted {events : List InterruptEvent} {s t : InterruptLog}
    (new : interruptMachine.init s) (replayed : interruptMachine.replay s events = some t)
    (attr : InterruptAttribute) :
    interruptCount t.tracker attr = intText (events.countP attr.concerns % 2 ^ 32) := by
  have same : events.countP attr.concerns = events.countP (InterruptEvent.raises attr.field) :=
    List.countP_congr fun event _ => by rw [concerns_eq]
  have inside : attr.field < trackerWords := by cases attr <;> decide
  obtain rfl := new
  rw [interruptCount, getCount_field, tracker_replay inside replayed, same]
  simp [trackerNew]

/-- Two frames have ended; the display ran in between. -/
theorem interrupts_counted_frames :
    ∃ t, interruptMachine.replay ⟨trackerNew, 0#32, none, 0#32⟩
        [.isr true 5#32, .load, .clear, .isr true 4#32, .isr false 4#32] = some t ∧
      interruptCount t.tracker .rfe = intText 2 := by
  obtain ⟨t, replayed⟩ : ∃ t, interruptMachine.replay ⟨trackerNew, 0#32, none, 0#32⟩
      [.isr true 5#32, .load, .clear, .isr true 4#32, .isr false 4#32] = some t := ⟨_, rfl⟩
  exact ⟨t, replayed, (interrupts_counted rfl replayed .rfe).trans (by decide)⟩

/-! ### The display -/

/-- The causes of the interrupts that have been handled. -/
def handledCauses : List InterruptEvent → BitVec 32
  | [] => 0#32
  | .isr true isrValue :: events => isrValue ||| handledCauses events
  | _ :: events => handledCauses events

/-- What becomes of a handled interrupt: its causes are displayed, they are still in `last_isr_value`,
or they have been cleared there without having been loaded. -/
inductive Fate where
  | displayed
  | waiting
  | lost
deriving DecidableEq, Repr

/-- The fate of an interrupt, by what comes after it. It is cleared by the next half that clears; if the
display is at work already, this half does not show what has been added since its load. -/
def fate (atWork : Bool) (later : List InterruptEvent) : Fate :=
  if .clear ∈ later then if atWork then .lost else .displayed else .waiting

/-- The causes of the interrupts with a fate. The display may be at work before the first event. -/
def causes (f : Fate) : Bool → List InterruptEvent → BitVec 32
  | _, [] => 0#32
  | atWork, .isr portExists isrValue :: later =>
    (if portExists = true ∧ fate atWork later = f then isrValue else 0#32) ||| causes f atWork later
  | _, .load :: later => causes f true later
  | _, .clear :: later => causes f false later

/-- Each handled interrupt has one of the three fates. -/
private theorem fates_cover (atWork : Bool) (events : List InterruptEvent) :
    causes .displayed atWork events ||| causes .waiting atWork events ||| causes .lost atWork events =
      handledCauses events := by
  induction events generalizing atWork with
  | nil => simp [causes, handledCauses]
  | cons event later ih =>
    cases event with
    | isr portExists isrValue =>
      cases portExists with
      | false => simpa [causes, handledCauses] using ih atWork
      | true =>
        rw [handledCauses, ← ih atWork]
        -- The causes are added to one of the three values, the same for all three.
        cases here : fate atWork later with
        | displayed =>
          simp [causes, here]
          ac_rfl
        | waiting =>
          simp [causes, here]
          ac_rfl
        | lost =>
          simp [causes, here]
          ac_rfl
    | load => exact ih true
    | clear => exact ih false

/-- An interrupt adds its causes to `last_isr_value`, unless the port is gone. -/
private theorem step_isr {s s' : InterruptLog} {portExists : Bool} {isrValue : BitVec 32}
    (step : s.step (.isr portExists isrValue) = some s') :
    s'.lastIsrValue = s.lastIsrValue ||| (if portExists = true then isrValue else 0#32) ∧
      s'.displaying = s.displaying ∧ s'.displayed = s.displayed := by
  simp only [InterruptLog.step] at step
  split at step
  next nothing =>
    cases step
    refine ⟨?_, rfl, rfl⟩
    rcases nothing with absent | zero
    · have gone : portExists = false := by simpa using absent
      simp [gone]
    · simp [zero]
  next counted =>
    cases step
    simp only [not_or, Bool.not_eq_true, Bool.not_eq_false'] at counted
    simp [counted.1]

private theorem step_load {s s' : InterruptLog} (step : s.step .load = some s') :
    s.displaying = none ∧ s' = { s with displaying := some s.lastIsrValue } := by
  simp only [InterruptLog.step] at step
  split at step
  next idle => exact ⟨idle, (Option.some.inj step).symm⟩
  next => cases step

private theorem step_clear {s s' : InterruptLog} (step : s.step .clear = some s') :
    ∃ isrValue, s.displaying = some isrValue ∧
      s' = { s with
        lastIsrValue := 0#32
        displaying := none
        displayed := s.displayed ||| isrValue } := by
  simp only [InterruptLog.step] at step
  split at step
  next => cases step
  next isrValue loaded => exact ⟨isrValue, loaded, (Option.some.inj step).symm⟩

/-- What is in `last_isr_value` after the events: what was there, if nothing has cleared it, and the
causes that wait. -/
private theorem waiting_replay {events : List InterruptEvent} {s t : InterruptLog}
    (replayed : interruptMachine.replay s events = some t) :
    t.lastIsrValue = (if .clear ∈ events then 0#32 else s.lastIsrValue) |||
      causes .waiting s.displaying.isSome events := by
  induction events generalizing s with
  | nil =>
    cases replayed
    simp [causes]
  | cons event later ih =>
    obtain ⟨s', stepped, rest⟩ := Option.bind_eq_some_iff.mp replayed
    have before := ih rest
    cases event with
    | isr portExists isrValue =>
      obtain ⟨last, displaying, -⟩ := step_isr stepped
      rw [before, last, displaying]
      by_cases cleared : InterruptEvent.clear ∈ later
      -- Something clears the value later, and with it these causes.
      · have gone : fate s.displaying.isSome later ≠ .waiting := by
          rw [fate, if_pos cleared]
          split <;> simp
        simp [causes, cleared, gone]
      · have kept : fate s.displaying.isSome later = .waiting := by rw [fate, if_neg cleared]
        simp [causes, cleared, kept, BitVec.or_assoc]
    | load =>
      obtain ⟨idle, rfl⟩ := step_load stepped
      simpa [causes] using before
    | clear =>
      obtain ⟨shown, loaded, rfl⟩ := step_clear stepped
      simpa [causes] using before

/-- What has been displayed after the events. The first half that clears shows what the display had
loaded before them, or else what `last_isr_value` was. -/
private theorem displayed_replay {events : List InterruptEvent} {s t : InterruptLog}
    (replayed : interruptMachine.replay s events = some t) :
    t.displayed = s.displayed |||
      (if .clear ∈ events then s.displaying.getD s.lastIsrValue else 0#32) |||
        causes .displayed s.displaying.isSome events := by
  induction events generalizing s with
  | nil =>
    cases replayed
    simp [causes]
  | cons event later ih =>
    obtain ⟨s', stepped, rest⟩ := Option.bind_eq_some_iff.mp replayed
    have before := ih rest
    cases event with
    | isr portExists isrValue =>
      obtain ⟨last, displaying, displayed⟩ := step_isr stepped
      rw [before, last, displaying, displayed]
      by_cases cleared : InterruptEvent.clear ∈ later
      · cases loaded : s.displaying with
        -- The display is not at work: it will load these causes with the others.
        | none => simp [causes, fate, cleared, BitVec.or_assoc]
        -- It is, and has loaded without them.
        | some shown => simp [causes, fate, cleared]
      · simp [causes, fate, cleared]
    | load =>
      obtain ⟨idle, rfl⟩ := step_load stepped
      simpa [causes, idle] using before
    | clear =>
      obtain ⟨shown, loaded, rfl⟩ := step_clear stepped
      simpa [causes, loaded] using before

/-- However interrupts meet with the display: what has been displayed and what is in `last_isr_value`
are the causes of the interrupts with these fates, and the causes that are missing are those of the
interrupts that were handled between the two halves of a display. -/
theorem causes_displayed {events : List InterruptEvent} {s t : InterruptLog}
    (new : interruptMachine.init s) (replayed : interruptMachine.replay s events = some t) :
    t.displayed = causes .displayed false events ∧ t.lastIsrValue = causes .waiting false events ∧
      t.displayed ||| t.lastIsrValue ||| causes .lost false events = handledCauses events := by
  obtain rfl := new
  have displayed : t.displayed = causes .displayed false events := by
    simpa using displayed_replay replayed
  have waiting : t.lastIsrValue = causes .waiting false events := by
    simpa using waiting_replay replayed
  refine ⟨displayed, waiting, ?_⟩
  rw [displayed, waiting]
  exact fates_cover false events

/-- RFS and RFE have been displayed, RFE is to be displayed again, and RFO is cleared unseen. -/
theorem causes_displayed_frames :
    ∃ t, interruptMachine.replay ⟨trackerNew, 0#32, none, 0#32⟩
        [.isr true 5#32, .load, .isr true 8#32, .isr false 16#32, .clear, .isr true 4#32] = some t ∧
      t.displayed = 5#32 ∧ t.lastIsrValue = 4#32 ∧ t.displayed ||| t.lastIsrValue ||| 8#32 = 13#32 := by
  obtain ⟨t, replayed⟩ : ∃ t, interruptMachine.replay ⟨trackerNew, 0#32, none, 0#32⟩
      [.isr true 5#32, .load, .isr true 8#32, .isr false 16#32, .clear, .isr true 4#32] = some t :=
    ⟨_, rfl⟩
  obtain ⟨displayed, waiting, all⟩ := causes_displayed rfl replayed
  exact ⟨t, replayed, displayed.trans (by decide), waiting.trans (by decide), all⟩

end Fscc
