import Fscc.BulkAccess
import Fscc.Lib.Machine

/-!
# Clock programming

`fscc_port_set_clock_bits` shifts 160 bits into the clock chip of its port over three lines of
FCR, a register that the two ports of a card share. It works on a snapshot of FCR, under a lock
that its own port holds.
-/

namespace Fscc

/-! ### `fscc_port_set_clock_bits` -/

/-- `STRB_BASE`. -/
def strbBase : BitVec 32 := 0x00000008#32

/-- `DTA_BASE`. -/
def dtaBase : BitVec 32 := 0x00000001#32

/-- `CLK_BASE`. -/
def clkBase : BitVec 32 := 0x00000002#32

/-- A line of FCR as the port with the channel `channel` finds it. -/
def lineValue (base : BitVec 32) (channel : Nat) : BitVec 32 :=
  if channel = 1 then base <<< 8 else base

/-- `clock_data` with its XTAL bit as the card needs it, for a reading of VSTR. -/
def adjustXtal (vstr : BitVec 32) (clockData : List UInt8) : List UInt8 :=
  if (vstr &&& 0xffff0000#32) >>> 16 = 0x0f#32 ∧ ((vstr &&& 0x0000ff00#32) >>> 8).toNat ≤ 6 then
    clockData.modify 15 (· &&& 0xfb)
  else clockData.modify 15 (· ||| 0x04)

/-- The bits of the twenty bytes, in the order in which they are shifted out. -/
def clockBits (clockData : List UInt8) : List Bool :=
  (List.range 20).reverse.flatMap fun i =>
    (List.range 8).reverse.map fun j => (clockData.getD i 0 >>> UInt8.ofNat j) &&& 1 != 0

/-- `orig_fcr_value & 0xfffff0f0`. -/
def lowered (fcr : BitVec 32) : BitVec 32 := fcr &&& 0xfffff0f0#32

/-- The value that shows a bit, its clock low so far. -/
def shownBit (channel : Nat) (base : BitVec 32) (bit : Bool) : BitVec 32 :=
  if bit then base ||| lineValue dtaBase channel else base &&& ~~~lineValue dtaBase channel

/-- The two values that shift out a bit. -/
def bitWords (channel : Nat) (base : BitVec 32) (bit : Bool) : List (BitVec 32) :=
  let set := shownBit channel base bit ||| lineValue clkBase channel
  [set, set &&& ~~~lineValue clkBase channel]

/-- The value that strobes. -/
def strobeWord (channel : Nat) (base : BitVec 32) : BitVec 32 :=
  (base ||| lineValue strbBase channel) &&& ~~~lineValue clkBase channel

/-- `data`: the values given to FCR, for a snapshot `fcr` of it. -/
def clockWords (channel : Nat) (clockData : List UInt8) (fcr : BitVec 32) : List (BitVec 32) :=
  lowered fcr :: (clockBits clockData).flatMap (bitWords channel (lowered fcr)) ++
    [strobeWord channel (lowered fcr), fcr]

/-- The four bytes of a value in memory. -/
def Word.ofValue (value : BitVec 32) : Word where
  b0 := UInt8.ofNat value.toNat
  b1 := UInt8.ofNat (value.toNat / 0x100)
  b2 := UInt8.ofNat (value.toNat / 0x10000)
  b3 := UInt8.ofNat (value.toNat / 0x1000000)

/-- `fscc_port_set_clock_bits`, `alloc` being whether `kmalloc` succeeds, for readings of VSTR and
of FCR. -/
def portSetClockBits (alloc : Bool) (channel : Nat) (vstr fcr : BitVec 32)
    (clockData : List UInt8) : List BusWrite :=
  if !alloc then []
  else
    let data := clockWords channel (adjustXtal vstr clockData) fcr
    cardSetRegisterRep 2 fcrOffset (data.flatMap fun value => (Word.ofValue value).bytes)
      (data.length * 4)

@[simp] theorem Word.value_ofValue (value : BitVec 32) : (Word.ofValue value).value = value := by
  have lt := value.isLt
  apply BitVec.eq_of_toNat_eq
  simp only [Word.value, Word.ofValue, UInt8.toNat_ofNat', BitVec.toNat_ofNat]
  omega

private theorem iowrite32Rep_words (bar offset : Nat) (data : List (BitVec 32)) :
    iowrite32Rep bar offset data.length (data.flatMap fun value => (Word.ofValue value).bytes) =
      data.map fun value => .word bar offset (Word.ofValue value) := by
  induction data with
  | nil => rfl
  | cons value data ih =>
    rw [List.length_cons, iowrite32Rep, List.flatMap_cons]
    exact congrArg (_ :: ·) ih

/-- The values reach FCR one by one, in order. -/
theorem portSetClockBits_eq (channel : Nat) (vstr fcr : BitVec 32) (clockData : List UInt8) :
    portSetClockBits true channel vstr fcr clockData =
      (clockWords channel (adjustXtal vstr clockData) fcr).map fun value =>
        .word 2 fcrOffset (Word.ofValue value) := by
  have some_ : (clockWords channel (adjustXtal vstr clockData) fcr).length ≠ 0 := by
    simp [clockWords]
  simp only [portSetClockBits, Bool.not_true, Bool.false_eq_true, if_false]
  rw [cardSetRegisterRep, if_neg (by omega), Nat.mul_mod_left]
  dsimp only
  rw [if_pos rfl, List.append_nil, Nat.sub_zero, Nat.mul_div_cancel _ (by decide)]
  exact iowrite32Rep_words 2 fcrOffset _

/-- All 160 bits are shifted out. -/
theorem length_clockBits (clockData : List UInt8) : (clockBits clockData).length = 160 := by
  simp [clockBits]

/-! ### The clock chips -/

/-- A card has two ports. -/
instance twoPorts : NeZero 2 := ⟨by decide⟩

/-- The line CLK of a channel in FCR. -/
def clkBit (c : Fin 2) : Nat := 1 + 8 * c.val

/-- The line DTA of a channel in FCR. -/
def dtaBit (c : Fin 2) : Nat := 8 * c.val

/-- The line STRB of a channel in FCR. -/
def strbBit (c : Fin 2) : Nat := 3 + 8 * c.val

/-- The clock chip of a channel: the bits it has sampled, and whether it has been strobed. -/
structure ClockChip where
  samples : List Bool
  strobed : Bool
deriving DecidableEq, Repr

/-- A line goes up. -/
def rises (line : Nat) (old new : BitVec 32) : Bool := !old.getLsbD line && new.getLsbD line

/-- What a store to FCR does to a chip: it samples DTA when CLK goes up, until STRB does. -/
def ClockChip.store (c : Fin 2) (old new : BitVec 32) (chip : ClockChip) : ClockChip :=
  if chip.strobed then chip
  else if rises (strbBit c) old new then { chip with strobed := true }
  else if rises (clkBit c) old new then
    { chip with samples := chip.samples ++ [new.getLsbD (dtaBit c)] }
  else chip

/-! ### Two channels and an update -/

/-- A call of `fscc_port_set_clock_bits`: before it takes its lock, with the lock and with values
still to be given to FCR, or at its end. -/
inductive ClockCall where
  | waiting
  | writing (fcr : BitVec 32) (rest : List (BitVec 32))
  | finished
deriving DecidableEq, Repr

/-- FCR, the calls of the two channels, their chips, and whether FCR has been updated. -/
structure ClockSystem where
  fcr : BitVec 32
  call : Fin 2 → ClockCall
  chip : Fin 2 → ClockChip
  updated : Bool

/-- A call takes its lock and reads FCR; it gives FCR its next value; or FCR is updated. -/
inductive ClockEvent where
  | begin (c : Fin 2)
  | word (c : Fin 2)
  | update
deriving DecidableEq, Repr

/-- FCR is given a value. -/
def ClockSystem.store (s : ClockSystem) (value : BitVec 32) : ClockSystem :=
  { s with fcr := value, chip := fun c => (s.chip c).store c s.fcr value }

/-- Each channel programs its clock with `clockData`, and an `fscc_port_set_registers` of the port
`updater` sets FCR, at first `initial`, to `value`. -/
structure Programming where
  initial : BitVec 32
  clockData : Fin 2 → List UInt8
  vstr : Fin 2 → BitVec 32
  updater : Fin 2
  value : BitVec 32

namespace Programming

variable (p : Programming)

/-- The bits meant for a channel's chip. -/
def bits (c : Fin 2) : List Bool := clockBits (adjustXtal (p.vstr c) (p.clockData c))

/-- The two ports of a card. The lock of a port keeps its own update out while it programs. -/
def machine : Machine ClockSystem ClockEvent where
  init s := s = ⟨p.initial, fun _ => .waiting, fun _ => ⟨[], false⟩, false⟩
  step s
    | .begin c =>
      if s.call c = .waiting then
        some { s with
          call := Function.update s.call c (.writing s.fcr
            (clockWords c.val (adjustXtal (p.vstr c) (p.clockData c)) s.fcr)) }
      else none
    | .word c =>
      match s.call c with
      | .writing fcr (value :: rest) =>
        some { s.store value with
          call := Function.update s.call c
            (if rest = [] then .finished else .writing fcr rest) }
      | _ => none
    | .update =>
      match s.updated, s.call p.updater with
      | false, .waiting | false, .finished => some { s.store p.value with updated := true }
      | _, _ => none

/-- What FCR is to hold in the end. -/
def expected (s : ClockSystem) : BitVec 32 := if s.updated then p.value else p.initial

/-- Each chip samples the bits meant for it before it is strobed, and FCR is left as it should
be. -/
structure Undisturbed (s : ClockSystem) : Prop where
  sampled : ∀ c, (s.chip c).samples <+: p.bits c
  strobed : ∀ c, (s.chip c).strobed = true → (s.chip c).samples = p.bits c
  finished : ∀ c, s.call c = .finished → (s.chip c).strobed = true
  restored : (∀ c, s.call c = .finished) → s.fcr = p.expected s

/-- The lines of FCR that clock or strobe a chip are low. -/
def LinesLow (fcr : BitVec 32) : Prop :=
  ∀ c : Fin 2, fcr.getLsbD (clkBit c) = false ∧ fcr.getLsbD (strbBit c) = false

/-- A snapshot taken while the other channel programs is the one that this had taken; and an
update made while a channel programs is to the value of that channel's snapshot, and leaves the
lines low. -/
def Apart (s : ClockSystem) : ClockEvent → Prop
  | .begin c => ∀ c' fcr rest, c' ≠ c → s.call c' = .writing fcr rest → s.fcr = fcr
  | .word _ => True
  | .update => LinesLow p.value ∧ ∀ c fcr rest, s.call c = .writing fcr rest → p.value = fcr

end Programming

/-! ### What the values given to FCR show the chips -/

/-- The lines of a channel that clock or strobe its chip are low. -/
def Low (c : Fin 2) (fcr : BitVec 32) : Prop :=
  fcr.getLsbD (clkBit c) = false ∧ fcr.getLsbD (strbBit c) = false

theorem channel_cases (c : Fin 2) : c = 0 ∨ c = 1 := by omega

theorem low_lowered (c : Fin 2) (fcr : BitVec 32) : Low c (lowered fcr) := by
  rcases channel_cases c with rfl | rfl <;> simp [Low, lowered, clkBit, strbBit]

section Words

variable {c c' : Fin 2} {base : BitVec 32}

/-- A bit is shown with the clock high. -/
theorem set_own (low : Low c base) (bit : Bool) :
    let value := shownBit c.val base bit ||| lineValue clkBase c.val
    value.getLsbD (clkBit c) = true ∧ value.getLsbD (strbBit c) = false ∧
      value.getLsbD (dtaBit c) = bit := by
  unfold Low at low
  rcases channel_cases c with rfl | rfl <;> cases bit <;>
    simp_all [shownBit, lineValue, clkBase, dtaBase, clkBit, strbBit, dtaBit]

/-- The clock goes down again. -/
theorem fall_own (low : Low c base) (bit : Bool) :
    Low c ((shownBit c.val base bit ||| lineValue clkBase c.val) &&&
      ~~~lineValue clkBase c.val) := by
  unfold Low at low ⊢
  rcases channel_cases c with rfl | rfl <;> cases bit <;>
    simp_all [shownBit, lineValue, clkBase, dtaBase, clkBit, strbBit]

/-- The strobe. -/
theorem strobe_own (low : Low c base) :
    (strobeWord c.val base).getLsbD (strbBit c) = true := by
  rcases channel_cases c with rfl | rfl <;>
    simp [strobeWord, lineValue, strbBase, clkBase, strbBit]

/-- Nothing that a channel shows its chip is seen by the other. -/
private theorem words_other (other : c' ≠ c) (low : Low c' base) (bit : Bool) :
    Low c' (shownBit c.val base bit ||| lineValue clkBase c.val) ∧
      Low c' ((shownBit c.val base bit ||| lineValue clkBase c.val) &&&
        ~~~lineValue clkBase c.val) ∧ Low c' (strobeWord c.val base) := by
  unfold Low at low ⊢
  rcases channel_cases c with rfl | rfl <;> rcases channel_cases c' with rfl | rfl <;>
    cases bit <;>
    simp_all [shownBit, strobeWord, lineValue, clkBase, dtaBase, strbBase, clkBit, strbBit]

end Words

/-- A chip does not notice a value with its lines low. -/
theorem ClockChip.store_low {c : Fin 2} {old new : BitVec 32} (chip : ClockChip)
    (low : Low c new) : chip.store c old new = chip := by
  unfold ClockChip.store rises
  rw [low.1, low.2]
  simp

/-! ### How far a channel is -/

/-- A channel that programs its chip with `bits`, and restores `fcr` in the end: its call and its
chip, and what its lines are while FCR holds `now`. -/
inductive Stage (c : Fin 2) (fcr : BitVec 32) (bits : List Bool) :
    ClockCall → ClockChip → BitVec 32 → Prop
  | waiting {now : BitVec 32} : Low c now → Stage c fcr bits .waiting ⟨[], false⟩ now
  | begun {now : BitVec 32} : Low c now →
      Stage c fcr bits (.writing fcr (lowered fcr ::
        bits.flatMap (bitWords c.val (lowered fcr)) ++ [strobeWord c.val (lowered fcr), fcr]))
        ⟨[], false⟩ now
  | next {now : BitVec 32} (done todo : List Bool) : done ++ todo = bits → Low c now →
      Stage c fcr bits (.writing fcr
        (todo.flatMap (bitWords c.val (lowered fcr)) ++ [strobeWord c.val (lowered fcr), fcr]))
        ⟨done, false⟩ now
  | fall {now : BitVec 32} (done todo : List Bool) (bit : Bool) : done ++ bit :: todo = bits →
      now.getLsbD (strbBit c) = false →
      Stage c fcr bits (.writing fcr
        (((shownBit c.val (lowered fcr) bit ||| lineValue clkBase c.val) &&&
            ~~~lineValue clkBase c.val) ::
          todo.flatMap (bitWords c.val (lowered fcr)) ++ [strobeWord c.val (lowered fcr), fcr]))
        ⟨done ++ [bit], false⟩ now
  | last {now : BitVec 32} : Stage c fcr bits (.writing fcr [fcr]) ⟨bits, true⟩ now
  | finished {now : BitVec 32} : Stage c fcr bits .finished ⟨bits, true⟩ now

namespace Stage

variable {c : Fin 2} {fcr now value : BitVec 32} {bits : List Bool} {call : ClockCall}
  {chip : ClockChip}

/-- A value with the channel's lines low, given to FCR by another, changes nothing. -/
private theorem spared (h : Stage c fcr bits call chip now) (low : Low c value) :
    Stage c fcr bits call (chip.store c now value) value := by
  rw [ClockChip.store_low chip low]
  cases h with
  | waiting => exact .waiting low
  | begun => exact .begun low
  | next done todo split => exact .next done todo split low
  | fall done todo bit split => exact .fall done todo bit split low.2
  | last => exact .last
  | finished => exact .finished

/-- A channel under way restores the value it works with. -/
private theorem restores (h : Stage c fcr bits call chip now) {fcr' : BitVec 32}
    {rest : List (BitVec 32)} (under : call = .writing fcr' rest) : fcr' = fcr := by
  cases h <;> cases under <;> rfl

/-- A channel gives FCR its next value: its chip is a step further, the other does not notice,
and the last value is the one to restore. -/
private theorem own {rest : List (BitVec 32)} (lines : ∀ c, Low c fcr)
    (h : Stage c fcr bits (.writing fcr (value :: rest)) chip now) :
    Stage c fcr bits (if rest = [] then .finished else .writing fcr rest)
        (chip.store c now value) value ∧
      (∀ c', c' ≠ c → Low c' value) ∧ (rest = [] → value = fcr) := by
  generalize call : ClockCall.writing fcr (value :: rest) = words at h
  cases h with
  | waiting => cases call
  | finished => cases call
  | begun low =>
    obtain ⟨rfl, rfl⟩ : value = lowered fcr ∧ rest = bits.flatMap (bitWords c.val (lowered fcr)) ++
        [strobeWord c.val (lowered fcr), fcr] := by simpa using call
    have down := low_lowered c fcr
    rw [ClockChip.store_low _ down, if_neg (by simp)]
    exact ⟨.next [] bits rfl down, fun c' _ => low_lowered c' fcr, by simp⟩
  | next done todo split low =>
    cases todo with
    | nil =>
      obtain ⟨rfl, rfl⟩ : value = strobeWord c.val (lowered fcr) ∧ rest = [fcr] := by
        simpa using call
      rw [List.append_nil] at split
      subst split
      have up := strobe_own (low_lowered c fcr)
      refine ⟨?_, fun c' other => (words_other other (low_lowered c' fcr) false).2.2, by simp⟩
      have strobed : ClockChip.store c now (strobeWord c.val (lowered fcr)) ⟨done, false⟩ =
          ⟨done, true⟩ := by
        simp [ClockChip.store, rises, low.2, up]
      rw [strobed, if_neg (by simp)]
      exact .last
    | cons bit todo =>
      obtain ⟨rfl, rfl⟩ : value = (shownBit c.val (lowered fcr) bit ||| lineValue clkBase c.val) ∧
          rest = ((shownBit c.val (lowered fcr) bit ||| lineValue clkBase c.val) &&&
            ~~~lineValue clkBase c.val) :: todo.flatMap (bitWords c.val (lowered fcr)) ++
              [strobeWord c.val (lowered fcr), fcr] := by simpa [bitWords] using call
      obtain ⟨clock, strobe, data⟩ := set_own (low_lowered c fcr) bit
      refine ⟨?_, fun c' other => (words_other other (low_lowered c' fcr) bit).1, by simp⟩
      -- The clock was low, so it rises, and the chip samples the bit.
      have sampled : ClockChip.store c now
          (shownBit c.val (lowered fcr) bit ||| lineValue clkBase c.val) ⟨done, false⟩ =
            ⟨done ++ [bit], false⟩ := by
        simp [ClockChip.store, rises, low.1, clock, strobe, data]
      rw [sampled, if_neg (by simp)]
      exact .fall done todo bit split strobe
  | fall done todo bit split strobe =>
    obtain ⟨rfl, rfl⟩ : value = ((shownBit c.val (lowered fcr) bit ||| lineValue clkBase c.val) &&&
        ~~~lineValue clkBase c.val) ∧ rest = todo.flatMap (bitWords c.val (lowered fcr)) ++
          [strobeWord c.val (lowered fcr), fcr] := by simpa using call
    have down := fall_own (low_lowered c fcr) bit
    rw [ClockChip.store_low _ down, if_neg (by simp)]
    exact ⟨.next (done ++ [bit]) todo (by simpa using split) down,
      fun c' other => (words_other other (low_lowered c' fcr) bit).2.1, by simp⟩
  | last =>
    obtain ⟨rfl, rfl⟩ : value = fcr ∧ rest = [] := by simpa using call
    rw [if_pos rfl, ClockChip.store_low _ (lines c)]
    exact ⟨.finished, fun c' _ => lines c', fun _ => rfl⟩

end Stage

/-! ### Runs -/

namespace Programming

variable {p : Programming} {s t : ClockSystem}

/-- Each channel is at some stage, with the value that FCR is to hold in the end. -/
structure Inv (p : Programming) (s : ClockSystem) : Prop where
  lines : ∀ c, Low c (p.expected s)
  stage : ∀ c, Stage c (p.expected s) (p.bits c) (s.call c) (s.chip c) s.fcr
  quiet : (∀ c fcr rest, s.call c ≠ .writing fcr rest) → s.fcr = p.expected s

private theorem Inv.initial (low : LinesLow p.initial) (init : p.machine.init s) : p.Inv s := by
  subst init
  exact ⟨low, fun c => .waiting (low c), fun _ => rfl⟩

/-- A call takes its snapshot. -/
private theorem Inv.begin (h : p.Inv s) {c : Fin 2} (apart : p.Apart s (.begin c))
    (waiting : s.call c = .waiting) : p.Inv { s with
      call := Function.update s.call c (.writing s.fcr
        (clockWords c.val (adjustXtal (p.vstr c) (p.clockData c)) s.fcr)) } := by
  -- What the call takes a copy of is the value that FCR should have.
  have snapshot : s.fcr = p.expected s := by
    -- If the other call is under way, the condition says so; else FCR has been given back.
    by_cases under : ∃ c' fcr rest, s.call c' = .writing fcr rest
    · obtain ⟨c', fcr, rest, under⟩ := under
      have other : c' ≠ c := by
        rintro rfl
        rw [waiting] at under
        cases under
      rw [apart c' fcr rest other under]
      exact (h.stage c').restores under
    · apply h.quiet
      intro c' fcr rest same
      exact under ⟨c', fcr, rest, same⟩
  refine ⟨h.lines, fun c' => ?_, fun none_ => ?_⟩
  -- The call begins at its first word, and the chip has seen nothing yet.
  · change Stage c' (p.expected s) (p.bits c') (Function.update s.call c _ c') (s.chip c') s.fcr
    by_cases here : c' = c
    · subst here
      have stage := h.stage c'
      rw [waiting] at stage
      rw [Function.update_self, snapshot]
      generalize s.chip c' = chip at stage ⊢
      cases stage with
      | waiting low => exact .begun (snapshot ▸ low)
    · rw [Function.update_of_ne here]
      exact h.stage c'
  -- Now there is a call under way, so that nothing is promised of FCR itself.
  · exact absurd (Function.update_self c _ s.call) (none_ c _ _)

/-- A call gives FCR its next value. -/
private theorem Inv.word (h : p.Inv s) {c : Fin 2} {fcr value : BitVec 32} {rest : List (BitVec 32)}
    (call : s.call c = .writing fcr (value :: rest)) : p.Inv { s.store value with
      call := Function.update s.call c (if rest = [] then .finished else .writing fcr rest) } := by
  have stage := h.stage c
  obtain rfl := stage.restores call
  rw [call] at stage
  -- A word shows the call's own chip its next edge, and the other chip none.
  obtain ⟨mine, others, last⟩ := stage.own h.lines
  refine ⟨h.lines, fun c' => ?_, fun none_ => ?_⟩
  · change Stage c' (p.expected s) (p.bits c') (Function.update s.call c _ c')
      ((s.chip c').store c' s.fcr value) value
    by_cases here : c' = c
    · subst here
      rw [Function.update_self]
      exact mine
    · rw [Function.update_of_ne here]
      exact (h.stage c').spared (others c' here)
  -- With the last word FCR has its old value again.
  · apply last
    by_contra more
    apply none_ c (p.expected s) rest
    exact (Function.update_self c _ s.call).trans (if_neg more)

/-- FCR is updated. -/
private theorem Inv.update (h : p.Inv s) (apart : p.Apart s .update) :
    p.Inv { s.store p.value with updated := true } := by
  obtain ⟨low, same⟩ := apart
  refine ⟨low, fun c => ?_, fun _ => rfl⟩
  have spared := (h.stage c).spared (low c)
  have expected : p.expected { s.store p.value with updated := true } = p.value := rfl
  rw [expected]
  change Stage c p.value (p.bits c) (s.call c) ((s.chip c).store c s.fcr p.value) p.value
  cases call : s.call c with
  -- While a call is under way the update writes what the call will give back.
  | writing fcr rest =>
    have eq : p.value = p.expected s := (same c fcr rest call).trans ((h.stage c).restores call)
    rw [eq] at spared ⊢
    rw [← call]
    exact spared
  | waiting =>
    rw [call] at spared
    generalize (s.chip c).store c s.fcr p.value = chip at spared ⊢
    cases spared with
    | waiting => exact .waiting (low c)
  | finished =>
    rw [call] at spared
    generalize (s.chip c).store c s.fcr p.value = chip at spared ⊢
    cases spared with
    | finished => exact .finished

private theorem Inv.step (h : p.Inv s) {e : ClockEvent} (apart : p.Apart s e)
    (stepped : p.machine.step s e = some t) : p.Inv t := by
  cases e with
  | begin c =>
    simp only [machine] at stepped
    split at stepped
    next waiting =>
      obtain rfl := Option.some.inj stepped
      exact h.begin apart waiting
    next => cases stepped
  | word c =>
    simp only [machine] at stepped
    split at stepped
    next fcr value rest call =>
      obtain rfl := Option.some.inj stepped
      exact h.word call
    next => cases stepped
  | update =>
    simp only [machine] at stepped
    split at stepped
    next =>
      obtain rfl := Option.some.inj stepped
      exact h.update apart
    next =>
      obtain rfl := Option.some.inj stepped
      exact h.update apart
    next => cases stepped

/-- In every run that meets the condition each chip gets its own bits, and FCR its value back. -/
theorem undisturbed (p : Programming) (low : LinesLow p.initial)
    (reached : p.machine.ReachedUnder p.Apart s) : p.Undisturbed s := by
  have inv : p.Inv s :=
    reached.invariant (fun _ => Inv.initial low) fun _ _ _ h apart stepped => h.step apart stepped
  refine ⟨fun c => ?_, fun c strobed => ?_, fun c finished => ?_, fun all => inv.quiet ?_⟩
  · have stage := inv.stage c
    generalize p.bits c = bits, s.call c = call, s.chip c = chip at stage
    cases stage with
    -- Before the first bit has been shown nothing was sampled.
    | waiting | begun => exact List.nil_prefix
    | next done todo split => exact ⟨todo, split⟩
    | fall done todo bit split => exact ⟨todo, by simpa using split⟩
    -- At the end all of them were.
    | last | finished => exact List.prefix_rfl
  · have stage := inv.stage c
    generalize p.bits c = bits, s.call c = call, s.chip c = chip at stage strobed
    cases stage <;> first | rfl | cases strobed
  · have stage := inv.stage c
    rw [finished] at stage
    generalize s.chip c = chip at stage
    cases stage
    rfl
  · intro c fcr rest under
    rw [all c] at under
    cases under

/-! ### Runs without interleaving -/

section Through

variable {ok : ClockSystem → ClockEvent → Prop} (words : ∀ s c, ok s (.word c))
include words

/-- A call left to itself comes to its end. -/
private theorem finishes {s : ClockSystem} (reached : p.machine.ReachedUnder ok s) (c : Fin 2)
    (fcr last : BitVec 32) (rest : List (BitVec 32))
    (call : s.call c = .writing fcr (rest ++ [last])) :
    ∃ t, p.machine.ReachedUnder ok t ∧ t.call = Function.update s.call c .finished ∧
      t.fcr = last ∧ t.updated = s.updated := by
  induction rest generalizing s with
  | nil =>
    refine ⟨{ s.store last with call := Function.update s.call c .finished }, ?_, rfl, rfl, rfl⟩
    apply reached.step (words s c)
    simp [machine, call]
  | cons value rest ih =>
    have more : rest ++ [last] ≠ [] := by simp
    have stepped : p.machine.step s (.word c) = some { s.store value with
        call := Function.update s.call c (.writing fcr (rest ++ [last])) } := by
      simp only [machine, call, List.cons_append, if_neg more]
    obtain ⟨t, later, calls, same⟩ :=
      ih (reached.step (words s c) stepped) (Function.update_self c _ s.call)
    refine ⟨t, later, ?_, same⟩
    rw [calls]
    exact Function.update_idem _ _ _

/-- So does one that has still to begin. -/
private theorem runs_through {s : ClockSystem} (reached : p.machine.ReachedUnder ok s) {c : Fin 2}
    (begins : ok s (.begin c)) (waiting : s.call c = .waiting) :
    ∃ t, p.machine.ReachedUnder ok t ∧ t.call = Function.update s.call c .finished ∧
      t.fcr = s.fcr ∧ t.updated = s.updated := by
  have stepped : p.machine.step s (.begin c) = some { s with
      call := Function.update s.call c (.writing s.fcr
        (clockWords c.val (adjustXtal (p.vstr c) (p.clockData c)) s.fcr)) } := by
    simp only [machine, if_pos waiting]
  obtain ⟨t, later, calls, same⟩ := finishes words (reached.step begins stepped) c s.fcr s.fcr
    (lowered s.fcr :: (clockBits (adjustXtal (p.vstr c) (p.clockData c))).flatMap
      (bitWords c.val (lowered s.fcr)) ++ [strobeWord c.val (lowered s.fcr)])
    (by simp [clockWords])
  refine ⟨t, later, ?_, same⟩
  rw [calls]
  exact Function.update_idem _ _ _

end Through

/-- The second port takes itself to async mode while the first one programs its clock. -/
def toAsync : Programming where
  initial := 0#32
  clockData _ := List.replicate 20 0
  vstr _ := 0#32
  updater := 1
  value := 0x02000000#32

/-- FCR is updated while a channel programs, and that channel restores the old value. -/
theorem update_lost : ∃ s, toAsync.machine.Reached s ∧ ¬toAsync.Undisturbed s := by
  have words : ∀ (s : ClockSystem) (c : Fin 2),
      (fun _ _ => True : ClockSystem → ClockEvent → Prop) s (.word c) := fun _ _ => trivial
  obtain ⟨s₁, reached₁, call₁, fcr₁, updated₁⟩ : ∃ s, toAsync.machine.Reached s ∧
      s.call = Function.update (fun _ => .waiting) 0 (.writing 0#32
        (clockWords 0 (adjustXtal 0#32 (List.replicate 20 0)) 0#32)) ∧ s.fcr = 0x02000000#32 ∧
      s.updated = true :=
    ⟨_, .step (.step (.init rfl) (e := .begin 0) trivial rfl) (e := .update) trivial rfl, rfl, rfl,
      rfl⟩
  obtain ⟨s₂, reached₂, call₂, fcr₂, updated₂⟩ := finishes words reached₁ 0 0#32 0#32
    (lowered 0#32 :: (clockBits (adjustXtal 0#32 (List.replicate 20 0))).flatMap
      (bitWords 0 (lowered 0#32)) ++ [strobeWord 0 (lowered 0#32)])
    (by rw [call₁]; simp [clockWords])
  obtain ⟨s₃, reached₃, call₃, fcr₃, updated₃⟩ := runs_through words reached₂ (c := 1) trivial
    (by rw [call₂, call₁]; rfl)
  refine ⟨s₃, reached₃, fun whole => ?_⟩
  have restored := whole.restored (fun c => by
    rw [call₃, call₂, call₁]
    rcases channel_cases c with rfl | rfl <;> rfl)
  rw [fcr₃, fcr₂, expected, updated₃, updated₂, updated₁] at restored
  exact absurd restored (by decide)

/-- The channels program one after the other, and FCR is updated then. -/
theorem undisturbed_in_turn :
    LinesLow toAsync.initial ∧ ∃ s, toAsync.machine.ReachedUnder toAsync.Apart s ∧
      (∀ c, s.call c = .finished) ∧ s.updated = true ∧ toAsync.Undisturbed s := by
  have words : ∀ (s : ClockSystem) (c : Fin 2), toAsync.Apart s (.word c) := fun _ _ => trivial
  obtain ⟨s₁, reached₁, call₁, fcr₁, updated₁⟩ := runs_through words (c := 0)
    (.init rfl : toAsync.machine.ReachedUnder toAsync.Apart _) (by rintro _ _ _ _ ⟨⟩) rfl
  obtain ⟨s₂, reached₂, call₂, fcr₂, updated₂⟩ := runs_through words reached₁ (c := 1)
    (by
      intro c fcr rest other under
      rw [call₁] at under
      rcases channel_cases c with rfl | rfl
      · cases under
      · exact absurd rfl other)
    (by rw [call₁]; rfl)
  have low : LinesLow toAsync.value := by
    intro c
    rcases channel_cases c with rfl | rfl <;> decide
  have done : ∀ c, s₂.call c = .finished := by
    intro c
    rw [call₂, call₁]
    rcases channel_cases c with rfl | rfl <;> rfl
  have apart : toAsync.Apart s₂ .update :=
    ⟨low, fun c fcr rest under => by rw [done c] at under; cases under⟩
  have reached₃ := reached₂.step apart
    (t := { s₂.store toAsync.value with updated := true })
    (by simp only [machine, updated₂, updated₁, done])
  have start : LinesLow toAsync.initial := by
    intro c
    rcases channel_cases c with rfl | rfl <;> decide
  exact ⟨start, _, reached₃, done, rfl, undisturbed toAsync start reached₃⟩

end Programming

end Fscc
