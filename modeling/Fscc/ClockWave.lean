import Fscc.Clock

/-!
# The waveform of a clock word

The two loops of `fscc_port_set_clock_bits` fill a buffer with the values that FCR is to show. A
chip that samples its data line whenever its clock line goes up gets the 160 bits of the word, and
nothing else on the card notices.
-/

namespace Fscc

/-! ### The loops -/

/-- `data` and `data_index`, and whether a value has been stored past the end of `data`. -/
structure ClockBuffer where
  data : List (BitVec 32)
  dataIndex : Nat
  pastEnd : Bool
deriving DecidableEq, Repr

/-- `data[data_index++] = value`. -/
def ClockBuffer.put (b : ClockBuffer) (value : BitVec 32) : ClockBuffer where
  data := b.data.set b.dataIndex value
  dataIndex := b.dataIndex + 1
  pastEnd := b.pastEnd || decide (b.data.length ≤ b.dataIndex)

section Fill

variable (channel : Nat) (origFcrValue : BitVec 32)

/-- The body of the inner loop, on `new_fcr_value` and the buffer. -/
def shiftBit (bit : Bool) (s : BitVec 32 × ClockBuffer) : BitVec 32 × ClockBuffer :=
  let shown := if bit then s.1 ||| lineValue dtaBase channel
    else s.1 &&& ~~~lineValue dtaBase channel
  let high := shown ||| lineValue clkBase channel
  let low := high &&& ~~~lineValue clkBase channel
  (origFcrValue &&& 0xfffff0f0#32, (s.2.put high).put low)

/-- The inner loop, from `j - 1` down. -/
def shiftByte (byte : UInt8) : Nat → BitVec 32 × ClockBuffer → BitVec 32 × ClockBuffer
  | 0, s => s
  | j + 1, s =>
    shiftByte byte j (shiftBit channel origFcrValue ((byte >>> UInt8.ofNat j) &&& 1 != 0) s)

/-- The outer loop, from `i - 1` down. -/
def shiftBytes (clockData : List UInt8) : Nat → BitVec 32 × ClockBuffer → BitVec 32 × ClockBuffer
  | 0, s => s
  | i + 1, s => shiftBytes clockData i (shiftByte channel origFcrValue (clockData.getD i 0) 8 s)

/-- What `fscc_port_set_clock_bits` makes of the buffer `data`. -/
def fillClockData (clockData : List UInt8) (data : List (BitVec 32)) : ClockBuffer :=
  let newFcrValue := origFcrValue &&& 0xfffff0f0#32
  let shifted := shiftBytes channel origFcrValue clockData 20
    (newFcrValue, (ClockBuffer.mk data 0 false).put newFcrValue)
  let strobed := ((origFcrValue &&& 0xfffff0f0#32) ||| lineValue strbBase channel) &&&
    ~~~lineValue clkBase channel
  (shifted.2.put strobed).put origFcrValue

end Fill

/-- Values stored with room for them follow what has been stored. -/
private theorem foldl_put (values : List (BitVec 32)) (b : ClockBuffer)
    (room : b.dataIndex + values.length ≤ b.data.length) :
    values.foldl ClockBuffer.put b =
      ⟨b.data.take b.dataIndex ++ values ++ b.data.drop (b.dataIndex + values.length),
        b.dataIndex + values.length, b.pastEnd⟩ := by
  induction values generalizing b with
  | nil => simp
  | cons value values ih =>
    rw [List.length_cons] at room
    have here : b.dataIndex < b.data.length := by omega
    rw [List.foldl_cons, ih _ (by simp only [ClockBuffer.put, List.length_set]; omega)]
    have inside : decide (b.data.length ≤ b.dataIndex) = false := decide_eq_false (by omega)
    simp only [ClockBuffer.put, inside, Bool.or_false, List.length_cons]
    congr 1
    · rw [List.take_add_one, List.take_set_of_le (le_refl _), List.getElem?_set_self here,
        List.drop_set_of_lt (by omega)]
      simp [Nat.add_assoc, Nat.add_comm 1]
    · omega

section Fill

variable {channel : Nat} {fcr : BitVec 32}

/-- The loops store the values of `clockWords`, two for each bit. -/
private theorem shiftByte_eq (byte : UInt8) (j : Nat) (b : ClockBuffer) :
    shiftByte channel fcr byte j (lowered fcr, b) =
      (lowered fcr, (((List.range j).reverse.map fun j =>
        (byte >>> UInt8.ofNat j) &&& 1 != 0).flatMap
          (bitWords channel (lowered fcr))).foldl ClockBuffer.put b) := by
  induction j generalizing b with
  | zero => rfl
  | succ j ih =>
    rw [List.range_succ, List.reverse_append, List.reverse_singleton, List.singleton_append,
      List.map_cons, List.flatMap_cons, List.foldl_append, ← ih]
    rfl

private theorem shiftBytes_eq (clockData : List UInt8) (i : Nat) (b : ClockBuffer) :
    shiftBytes channel fcr clockData i (lowered fcr, b) =
      (lowered fcr, (((List.range i).reverse.flatMap fun i => (List.range 8).reverse.map fun j =>
        (clockData.getD i 0 >>> UInt8.ofNat j) &&& 1 != 0).flatMap
          (bitWords channel (lowered fcr))).foldl ClockBuffer.put b) := by
  induction i generalizing b with
  | zero => rfl
  | succ i ih =>
    rw [List.range_succ (n := i), List.reverse_append, List.reverse_singleton, List.singleton_append,
      List.flatMap_cons, List.flatMap_append, List.foldl_append, shiftBytes, shiftByte_eq, ih]

private theorem length_clockWords (clockData : List UInt8) :
    (clockWords channel clockData fcr).length = 323 := by
  have two : ∀ bits : List Bool,
      (bits.flatMap (bitWords channel (lowered fcr))).length = 2 * bits.length := by
    intro bits
    induction bits with
    | nil => rfl
    | cons bit bits ih =>
      rw [List.flatMap_cons, List.length_append, ih, List.length_cons]
      simp only [bitWords, List.length_cons, List.length_nil]
      omega
  simp [clockWords, two, length_clockBits]

/-- The buffer is filled to its end, and not past it. -/
private theorem fillClockData_eq (clockData : List UInt8) {data : List (BitVec 32)}
    (room : data.length = 323) :
    fillClockData channel fcr clockData data = ⟨clockWords channel clockData fcr, 323, false⟩ := by
  have stored : fillClockData channel fcr clockData data =
      (clockWords channel clockData fcr).foldl ClockBuffer.put ⟨data, 0, false⟩ := by
    change ((shiftBytes channel fcr clockData 20 (lowered fcr,
      (ClockBuffer.mk data 0 false).put (lowered fcr))).2.put
        (strobeWord channel (lowered fcr))).put fcr = _
    rw [shiftBytes_eq, clockWords, List.cons_append, List.foldl_cons, List.foldl_append,
      List.foldl_cons, List.foldl_cons, List.foldl_nil, clockBits]
  rw [stored, foldl_put _ _ (by rw [length_clockWords, room])]
  simp [length_clockWords, room]

end Fill

/-! ### What the values show -/

/-- The cards on which the XTAL bit is cleared. -/
def withoutXtal (vstr : BitVec 32) : Bool :=
  decide ((vstr &&& 0xffff0000#32) >>> 16 = 0x0f#32 ∧
    ((vstr &&& 0x0000ff00#32) >>> 8).toNat ≤ 6)

/-- Bit `j` of byte `i` of a clock word, as it is to reach the chip. -/
def wireBit (vstr : BitVec 32) (clockData : List UInt8) (i j : Nat) : Bool :=
  if i = 15 ∧ j = 2 then !withoutXtal vstr else (clockData.getD i 0).toNat.testBit j

/-- A clock word as it is to reach the chip: the last byte first, and of each byte the most
significant bit first. -/
def wireBits (vstr : BitVec 32) (clockData : List UInt8) : List Bool :=
  (List.range 160).map fun k => wireBit vstr clockData (19 - k / 8) (7 - k % 8)

/-- A chip of the channel `c` while FCR is given a value. -/
def ClockChip.sees (c : Fin 2) (s : BitVec 32 × ClockChip) (value : BitVec 32) :
    BitVec 32 × ClockChip :=
  (value, s.2.store c s.1 value)

/-- The values given to FCR: `pulses`, which shift out `bits`; `strobe`; and the value `fcr` that
FCR had. -/
structure Waveform (c : Fin 2) (fcr : BitVec 32) (bits : List Bool) (pulses : List (BitVec 32))
    (strobe : BitVec 32) : Prop where
  sampled : (pulses.foldl (ClockChip.sees c) (fcr, ⟨[], false⟩)).2 = ⟨bits, false⟩
  strobed : ((pulses ++ [strobe, fcr]).foldl (ClockChip.sees c) (fcr, ⟨[], false⟩)).2 =
    ⟨bits, true⟩
  strobe_low : ∀ value ∈ pulses, value.getLsbD (strbBit c) = false
  strobe_high : strobe.getLsbD (strbBit c) = true
  others_low : ∀ value ∈ pulses ++ [strobe], ∀ c', c' ≠ c →
    value.getLsbD (dtaBit c') = false ∧ value.getLsbD (clkBit c') = false ∧
      value.getLsbD (strbBit c') = false
  rest_kept : ∀ value ∈ pulses ++ [strobe],
    value &&& ~~~0x00000f0f#32 = fcr &&& ~~~0x00000f0f#32

section Waveform

variable {c : Fin 2} {fcr : BitVec 32}

/-- The lines of the other channel, with its data line. -/
def Off (c : Fin 2) (value : BitVec 32) : Prop := value.getLsbD (dtaBit c) = false ∧ Low c value

private theorem off_lowered (c : Fin 2) (fcr : BitVec 32) : Off c (lowered fcr) := by
  refine ⟨?_, low_lowered c fcr⟩
  rcases channel_cases c with rfl | rfl <;> simp [lowered, dtaBit]

/-- A value that only the lines of the channel `c` have been changed in. -/
structure Beside (c : Fin 2) (fcr value : BitVec 32) : Prop where
  off : ∀ c', c' ≠ c → Off c' value
  kept : value &&& ~~~0x00000f0f#32 = fcr &&& ~~~0x00000f0f#32

namespace Beside

variable {value : BitVec 32} {base : BitVec 32}

/-- The lines of a channel are its own. -/
private theorem line_apart (line : base = strbBase ∨ base = dtaBase ∨ base = clkBase) :
    lineValue base c.val &&& ~~~0x00000f0f#32 = 0#32 ∧
      ∀ c', c' ≠ c → Off c' (lineValue base c.val) := by
  rcases line with rfl | rfl | rfl <;> rcases channel_cases c with rfl | rfl <;>
    refine ⟨by decide, ?_⟩ <;> intro c' other <;>
    rcases channel_cases c' with rfl | rfl <;>
      first | exact absurd rfl other | (unfold Off Low; decide)

private theorem low (c : Fin 2) (fcr : BitVec 32) : Beside c fcr (lowered fcr) := by
  refine ⟨fun c' _ => off_lowered c' fcr, ?_⟩
  rw [lowered, BitVec.and_assoc]
  rfl

/-- A line goes up. -/
private theorem set (h : Beside c fcr value)
    (line : base = strbBase ∨ base = dtaBase ∨ base = clkBase) :
    Beside c fcr (value ||| lineValue base c.val) := by
  obtain ⟨outside, apart⟩ := line_apart (c := c) line
  refine ⟨fun c' other => ?_, ?_⟩
  · have off := h.off c' other
    have line := apart c' other
    unfold Off Low at off line ⊢
    simp only [BitVec.getLsbD_or, off, line, Bool.or_false, and_self]
  · rw [BitVec.and_comm, BitVec.and_or_distrib_left, BitVec.and_comm, h.kept,
      BitVec.and_comm _ (lineValue _ _), outside,
      BitVec.or_zero]

/-- A line goes down. -/
private theorem clear (h : Beside c fcr value)
    (line : base = strbBase ∨ base = dtaBase ∨ base = clkBase) :
    Beside c fcr (value &&& ~~~lineValue base c.val) := by
  obtain ⟨outside, -⟩ := line_apart (c := c) line
  refine ⟨fun c' other => ?_, ?_⟩
  · have off := h.off c' other
    unfold Off Low at off ⊢
    simp only [BitVec.getLsbD_and, off, Bool.false_and, and_self]
  · have high : ~~~lineValue base c.val &&& ~~~0x00000f0f#32 = ~~~0x00000f0f#32 := by
      rcases line with rfl | rfl | rfl <;> rcases channel_cases c with rfl | rfl <;> decide
    rw [BitVec.and_assoc, high, h.kept]

/-- The two values that shift out a bit, and the value that strobes. -/
private theorem bitWords (bit : Bool) : ∀ value ∈ bitWords c.val
    (lowered fcr) bit, Beside c fcr value := by
  have shown : Beside c fcr (shownBit c.val (lowered fcr) bit) := by
    cases bit with
    | false => exact (low c fcr).clear (.inr (.inl rfl))
    | true => exact (low c fcr).set (.inr (.inl rfl))
  have up := shown.set (.inr (.inr rfl))
  simp only [Fscc.bitWords, List.mem_cons, List.not_mem_nil, or_false, forall_eq_or_imp, forall_eq]
  exact ⟨up, up.clear (.inr (.inr rfl))⟩

private theorem strobeWord : Beside c fcr (strobeWord c.val (lowered fcr)) :=
  ((low c fcr).set (.inl rfl)).clear (.inr (.inr rfl))

end Beside

/-- A chip that has sampled `done` samples the bits shown to it after that. -/
private theorem sees_bits (fcr : BitVec 32) (bits done : List Bool) {now : BitVec 32}
    (low : Low c now) :
    ∃ now', Low c now' ∧
      (bits.flatMap (bitWords c.val (lowered fcr))).foldl (ClockChip.sees c) (now, ⟨done, false⟩) =
        (now', ⟨done ++ bits, false⟩) := by
  induction bits generalizing done now with
  | nil => exact ⟨now, low, by simp⟩
  | cons bit bits ih =>
    have base := low_lowered c fcr
    obtain ⟨clock, strobe, data⟩ := set_own base bit
    have down := fall_own base bit
    -- the clock goes up and the bit is sampled; the clock goes down and nothing is
    have sampled : (bitWords c.val (lowered fcr) bit).foldl (ClockChip.sees c)
        (now, ⟨done, false⟩) = ((shownBit c.val (lowered fcr) bit ||| lineValue clkBase c.val) &&&
          ~~~lineValue clkBase c.val, ⟨done ++ [bit], false⟩) := by
      simp only [bitWords, List.foldl_cons, List.foldl_nil, ClockChip.sees,
        ClockChip.store_low _ down]
      simp [ClockChip.store, rises, low.1, clock, strobe, data]
    obtain ⟨now', low', sees⟩ := ih (done ++ [bit]) down
    refine ⟨now', low', ?_⟩
    rw [List.flatMap_cons, List.foldl_append, sampled, sees, List.append_assoc,
      List.singleton_append]

private theorem strobe_pulses (bits : List Bool) :
    ∀ value ∈ lowered fcr :: bits.flatMap (bitWords c.val (lowered fcr)),
      value.getLsbD (strbBit c) = false := by
  have base := low_lowered c fcr
  intro value member
  rcases List.mem_cons.mp member with rfl | later
  · exact base.2
  · obtain ⟨bit, -, shown⟩ := List.mem_flatMap.mp later
    simp only [bitWords, List.mem_cons, List.not_mem_nil, or_false] at shown
    rcases shown with rfl | rfl
    · exact (set_own base bit).2.1
    · exact (fall_own base bit).2

/-- What `clockWords` lists is the waveform of its bits. -/
private theorem waveform_clockWords (bits : List Bool) :
    Waveform c fcr bits (lowered fcr :: bits.flatMap (bitWords c.val (lowered fcr)))
      (strobeWord c.val (lowered fcr)) := by
  -- The chip sees each bit by the rising clock edge of its word.
  have base := low_lowered c fcr
  obtain ⟨now, low, sees⟩ := sees_bits fcr bits [] base
  have pulses : (lowered fcr :: bits.flatMap (bitWords c.val (lowered fcr))).foldl
      (ClockChip.sees c) (fcr, ⟨[], false⟩) = (now, ⟨bits, false⟩) := by
    rw [List.foldl_cons, ClockChip.sees, ClockChip.store_low _ base, sees, List.nil_append]
  -- No word raises a line of the other chip or changes the bits beside the lines.
  have beside : ∀ value ∈ (lowered fcr :: bits.flatMap (bitWords c.val (lowered fcr))) ++
      [strobeWord c.val (lowered fcr)], Beside c fcr value := by
    intro value member
    rcases List.mem_append.mp member with pulse | strobe
    · rcases List.mem_cons.mp pulse with rfl | later
      · exact .low c fcr
      · obtain ⟨bit, -, shown⟩ := List.mem_flatMap.mp later
        exact Beside.bitWords bit value shown
    · rw [List.mem_singleton.mp strobe]
      exact .strobeWord
  have strobe := strobe_own base
  exact {
    sampled := by rw [pulses]
    strobed := by
      rw [List.foldl_append, pulses]
      simp [ClockChip.sees, ClockChip.store, rises, low.2, strobe]
    strobe_low := strobe_pulses bits
    strobe_high := strobe
    others_low := fun value member c' other => (beside value member).off c' other
    rest_kept := fun value member => (beside value member).kept }

end Waveform

/-! ### The bits of the word -/

/-- The bit that a shift and a mask give. -/
private theorem shift_and_one (byte : UInt8) {j : Nat} (lt : j < 8) :
    ((byte >>> UInt8.ofNat j) &&& 1 != 0) = byte.toNat.testBit j := by
  have value : ((byte >>> UInt8.ofNat j) &&& 1).toNat = 1 &&& (byte.toNat >>> j) := by
    rw [UInt8.toNat_and, UInt8.toNat_shiftRight, UInt8.toNat_ofNat',
      Nat.mod_eq_of_lt (by omega : j < 2 ^ 8), Nat.mod_eq_of_lt lt, Nat.and_comm]
    rfl
  rw [Nat.testBit, ← value, Bool.eq_iff_iff, bne_iff_ne, bne_iff_ne, not_iff_not,
    ← UInt8.toNat_inj]
  rfl

private theorem clockBits_eq (clockData : List UInt8) :
    clockBits clockData =
      (List.range 160).map fun k => (clockData.getD (19 - k / 8) 0).toNat.testBit (7 - k % 8) := by
  -- The two loops of the source go from the last byte down, and from the high bit down.
  have places : ((List.range 20).reverse.flatMap fun i => (List.range 8).reverse.map fun j =>
      (i, j)) = (List.range 160).map fun k => (19 - k / 8, 7 - k % 8) := by decide +kernel
  have bits := congrArg (List.map fun place : Nat × Nat =>
    (clockData.getD place.1 0).toNat.testBit place.2) places
  rw [List.map_flatMap, List.map_map] at bits
  refine Eq.trans ?_ bits
  rw [clockBits]
  apply List.flatMap_congr
  intro i _
  rw [List.map_map]
  apply List.map_congr_left
  intro j member
  exact shift_and_one _ (by simpa using member)

/-- `adjustXtal` sets bit 2 of byte 15 and leaves the others. -/
private theorem testBit_adjustXtal (vstr : BitVec 32) {clockData : List UInt8}
    (size : clockData.length = 20) (i : Nat) {j : Nat} (lt : j < 8) :
    ((adjustXtal vstr clockData).getD i 0).toNat.testBit j = wireBit vstr clockData i j := by
  -- The mask of `adjustXtal` clears one bit, or sets it, and spares the others.
  have cleared : ∀ byte : UInt8,
      (byte &&& 0xfb).toNat.testBit j = if j = 2 then false else byte.toNat.testBit j := by
    intro byte
    have masks : ∀ j < 8, (0xfb : UInt8).toNat.testBit j = !decide (j = 2) := by decide
    rw [UInt8.toNat_and, Nat.testBit_and, masks j lt]
    split <;> simp [*]
  have raised : ∀ byte : UInt8,
      (byte ||| 0x04).toNat.testBit j = if j = 2 then true else byte.toNat.testBit j := by
    intro byte
    have masks : ∀ j < 8, (0x04 : UInt8).toNat.testBit j = decide (j = 2) := by decide
    rw [UInt8.toNat_or, Nat.testBit_or, masks j lt]
    split <;> simp [*]
  rw [adjustXtal, wireBit, withoutXtal, List.getD_eq_getElem?_getD, List.getD_eq_getElem?_getD]
  -- Byte 15 has the XTAL bit, which depends on the kind of card.
  by_cases here : i = 15
  · subst here
    obtain ⟨byte, found⟩ : ∃ byte, clockData[15]? = some byte :=
      ⟨_, List.getElem?_eq_getElem (by omega)⟩
    have changed : ∀ f : UInt8 → UInt8, (clockData.modify 15 f)[15]? = some (f byte) := by
      intro f
      rw [List.getElem?_modify, found]
      rfl
    split
    next clear => simp only [changed, found, Option.getD_some, cleared, clear, true_and,
      decide_true, Bool.not_true]
    next set => simp only [changed, found, Option.getD_some, raised, set, true_and,
      decide_false, Bool.not_false]
  · have other : ∀ f : UInt8 → UInt8, (clockData.modify 15 f)[i]? = clockData[i]? := by
      intro f
      rw [List.getElem?_modify]
      simp only [if_neg (Ne.symm here), id_map']
    split <;> simp [other, here]

/-- The bits that reach the chip are those of the word, with the XTAL bit as the card needs it. -/
private theorem clockBits_adjustXtal (vstr : BitVec 32) {clockData : List UInt8}
    (size : clockData.length = 20) :
    clockBits (adjustXtal vstr clockData) = wireBits vstr clockData := by
  rw [clockBits_eq, wireBits]
  apply List.map_congr_left
  intro k _
  exact testBit_adjustXtal vstr size _ (by omega)

/-- What an undisturbed `fscc_port_set_clock_bits` gives FCR: the buffer of 323 values is filled
exactly, and its values, in their order, are the waveform of the word. -/
theorem clock_word_serialised (c : Fin 2) (vstr fcr : BitVec 32) {clockData : List UInt8}
    (size : clockData.length = 20) {data : List (BitVec 32)} (room : data.length = 323) :
    ∃ pulses strobe,
      fillClockData c.val fcr (adjustXtal vstr clockData) data =
        ⟨pulses ++ [strobe, fcr], 323, false⟩ ∧
      portSetClockBits true c.val vstr fcr clockData =
        (pulses ++ [strobe, fcr]).map (fun value => .word 2 fcrOffset (Word.ofValue value)) ∧
      Waveform c fcr (wireBits vstr clockData) pulses strobe := by
  refine ⟨_, _, fillClockData_eq _ room, portSetClockBits_eq _ _ _ _, ?_⟩
  rw [clockBits_adjustXtal vstr size]
  exact waveform_clockWords _

/-- A word of zeros, on a card whose FCR is all ones. -/
theorem clock_word_serialised_zeros :
    ∃ pulses strobe,
      fillClockData (1 : Fin 2).val 0xffffffff#32 (adjustXtal 0#32 (List.replicate 20 0))
          (List.replicate 323 0#32) = ⟨pulses ++ [strobe, 0xffffffff#32], 323, false⟩ ∧
      portSetClockBits true (1 : Fin 2).val 0#32 0xffffffff#32 (List.replicate 20 0) =
        (pulses ++ [strobe, 0xffffffff#32]).map
          (fun value => .word 2 fcrOffset (Word.ofValue value)) ∧
      Waveform 1 0xffffffff#32 (wireBits 0#32 (List.replicate 20 0)) pulses strobe :=
  clock_word_serialised 1 0#32 0xffffffff#32 List.length_replicate List.length_replicate

end Fscc
