import Fscc.ClockWave
import Mathlib.Logic.Function.Basic

/-!
# The programming word of the clock chip

The five tables of `GetICS30703Data` in `calculate-clock-bits.c`, which turn a solution of its
search into the twenty bytes that `fscc_port_set_clock_bits` shifts out. Each table has bits of its
own, and from them a reader of the word gets the solution back.
-/

namespace Fscc

/-! ### The search -/

/-- A solution: the dividers, the resistor, and the current in hundredths of a microampere. -/
structure Solution where
  refDiv : Nat
  vcoDiv : Nat
  outDiv : Nat
  rs : Nat
  icpnum : Nat
deriving DecidableEq, Repr

/-- The output divider after `od`. -/
def stepOd (od : Nat) : Nat :=
  if od ≤ 1030 then od - 1
  else if od ≤ 2060 then od - 2
  else if od ≤ 4120 then od - 4
  else od - 8

/-- The output dividers that the loop visits. -/
inductive Visited : Nat → Prop
  | start : Visited 8232
  | step {od : Nat} : Visited od → 1 < stepOd od → Visited (stepOd od)

/-- The loop filter resistors that are tried. -/
def resistors : List Nat := [64000, 52000, 16000, 4000]

/-- The charge pump currents that are tried. -/
def chargePumps : List Nat :=
  [125, 250, 375, 500, 625, 750, 875, 1000, 1125, 1250, 1500, 1750, 1875, 2000, 2250, 2500, 2625,
    3000, 3500, 4000]

/-- What the search may come to. -/
structure Searched (s : Solution) : Prop where
  refDiv : 1 ≤ s.refDiv ∧ s.refDiv ≤ 1200
  vcoDiv : 12 ≤ s.vcoDiv ∧ s.vcoDiv ≤ 2055
  outDiv : Visited s.outDiv
  rs : s.rs ∈ resistors
  icpnum : s.icpnum ∈ chargePumps

/-! ### The tables -/

/-- `progdata`. -/
abbrev ProgData := Fin 20 → UInt8

namespace ProgData

variable (p : ProgData) (i : Fin 20) (value : UInt8)

/-- `progdata[i] = value`. -/
def set : ProgData := Function.update p i value

/-- `progdata[i] |= value`. -/
def or : ProgData := Function.update p i (p i ||| value)

/-- `progdata[i] &= value`. -/
def and : ProgData := Function.update p i (p i &&& value)

end ProgData

/-- `temp = ~x` on an `unsigned long`. -/
def not64 (x : Nat) : Nat := 18446744073709551615 - x

/-- `temp << k` on an `unsigned long`. -/
def shl64 (temp k : Nat) : Nat := temp * 2 ^ k % 18446744073709551616

/-- The bytes that every word starts with. -/
def fixedData : ProgData :=
  let progdata : ProgData := fun i => if 17 ≤ i.val then 0xff else if i = 15 then 0x04 else 0
  (progdata.or 14 0x01).or 13 0x40

/-- Table 1. -/
def inputDivider (refDiv : Nat) (p : ProgData) : Except Nat ProgData :=
  if refDiv = 1 then .ok ((p.and 0 0xfc).and 1 0xf0)
  else if refDiv = 2 then .ok (((p.and 0 0xfc).or 0 0x01).and 1 0xf0)
  else if 3 ≤ refDiv ∧ refDiv ≤ 17 then
    let temp := shl64 (not64 (refDiv - 2)) 2
    .ok (((p.set 0 (UInt8.ofNat temp)).and 0 0x3e).or 0 0x02)
  else if 18 ≤ refDiv ∧ refDiv ≤ 2055 then
    let temp := shl64 (refDiv - 8) 2
    .ok (((p.set 0 (UInt8.ofNat temp)).set 1 (UInt8.ofNat (temp / 256))).or 0 0x03)
  else .error 3

/-- Table 2. -/
def vcoDivider (vcoDiv : Nat) (p : ProgData) : Except Nat ProgData :=
  if 12 ≤ vcoDiv ∧ vcoDiv ≤ 2055 then
    let temp := shl64 (vcoDiv - 8) 5
    .ok ((p.or 1 (UInt8.ofNat temp)).or 2 (UInt8.ofNat (temp / 256)))
  else .error 4

/-- Table 4. -/
def loopFilter (rs : Nat) (p : ProgData) : Except Nat ProgData :=
  if rs = 64000 then .ok (p.and 11 0xf9)
  else if rs = 52000 then .ok ((p.and 11 0xf9).or 11 0x04)
  else if rs = 16000 then .ok ((p.and 11 0xf9).or 11 0x02)
  else if rs = 4000 then .ok (p.or 11 0x06)
  else .error 5

/-- A case of Table 3: what byte 11 is or-ed with and then and-ed with, whether bit 7 of byte 15
is set, and whether bit 0 of byte 16 is. -/
structure PumpCase where
  set : UInt8
  keep : UInt8
  high : Bool
  low : Bool
deriving DecidableEq, Repr

/-- The cases of Table 3. -/
def pumpCase (icpnum : Nat) : Option PumpCase :=
  match icpnum with
  | 125 => some ⟨0x38, 0xff, false, false⟩
  | 250 => some ⟨0x38, 0xff, true, false⟩
  | 375 => some ⟨0x38, 0xff, false, true⟩
  | 500 => some ⟨0x38, 0xff, true, true⟩
  | 625 => some ⟨0x18, 0xdf, false, false⟩
  | 750 => some ⟨0x10, 0xd7, false, false⟩
  | 875 => some ⟨0x08, 0xcf, false, false⟩
  | 1000 => some ⟨0x00, 0xc7, false, false⟩
  | 1125 => some ⟨0x28, 0xef, false, true⟩
  | 1250 => some ⟨0x18, 0xdf, true, false⟩
  | 1500 => some ⟨0x28, 0xef, true, true⟩
  | 1750 => some ⟨0x08, 0xcf, true, false⟩
  | 1875 => some ⟨0x18, 0xdf, false, true⟩
  | 2000 => some ⟨0x00, 0xc7, true, false⟩
  | 2250 => some ⟨0x10, 0xff, false, true⟩
  | 2500 => some ⟨0x18, 0xdf, true, true⟩
  | 2625 => some ⟨0x08, 0xcf, false, true⟩
  | 3000 => some ⟨0x00, 0xc7, false, true⟩
  | 3500 => some ⟨0x08, 0xcf, true, true⟩
  | 4000 => some ⟨0x00, 0xc7, true, true⟩
  | _ => none

/-- Table 3. -/
def chargePump (icpnum : Nat) (p : ProgData) : Except Nat ProgData :=
  match pumpCase icpnum with
  | none => .error 6
  | some c =>
    let p := (p.or 11 c.set).and 11 c.keep
    let p := if c.high then p.or 15 0x80 else p.and 15 0x7f
    .ok (if c.low then p.or 16 0x01 else p.and 16 0xfe)

/-- A case of the switch of Table 5: whether bit 7 of byte 11 is set, and what byte 12 is and-ed
with and then or-ed with. -/
structure OutputCase where
  high : Bool
  keep : UInt8
  set : UInt8
deriving DecidableEq, Repr

/-- The cases of the switch of Table 5 with a word of their own. -/
def outputCase (outDiv : Nat) : Option OutputCase :=
  match outDiv with
  | 2 => some ⟨false, 0x00, 0x00⟩
  | 3 => some ⟨true, 0x00, 0x00⟩
  | 4 => some ⟨false, 0xff, 0x04⟩
  | 5 => some ⟨false, 0xff, 0x01⟩
  | 6 => some ⟨true, 0xff, 0x04⟩
  | 7 => some ⟨true, 0xff, 0x01⟩
  | 11 => some ⟨true, 0xff, 0x09⟩
  | 9 => some ⟨true, 0xff, 0x05⟩
  | 13 => some ⟨true, 0xff, 0x0d⟩
  | _ => none

/-- A branch of the loop of Table 5, for the dividers `((i + 3) * 2 + odd) * times`: what byte 12 is
and-ed with and then or-ed with. -/
structure OutputForm where
  odd : Nat
  times : Nat
  keep : UInt8
  set : UInt8
deriving DecidableEq, Repr

/-- The branches of the loop of Table 5. -/
def outputForms : List OutputForm :=
  [⟨0, 1, 0xe7, 0x04⟩, ⟨0, 2, 0xef, 0x0c⟩, ⟨0, 4, 0xf7, 0x14⟩, ⟨0, 8, 0xff, 0x1c⟩,
    ⟨1, 1, 0xe3, 0x00⟩, ⟨1, 2, 0xeb, 0x08⟩, ⟨1, 4, 0xf7, 0x10⟩, ⟨1, 8, 0xfb, 0x18⟩]

/-- Where the loop of Table 5 breaks. -/
def findOutput (outDiv : Nat) : Option (Nat × OutputForm) :=
  (List.range 512).findSome? fun i =>
    (outputForms.find? fun f => outDiv == ((i + 3) * 2 + f.odd) * f.times).map fun f => (i, f)

/-- Table 5. -/
def outputDivider (outDiv : Nat) (p : ProgData) : Except Nat ProgData :=
  if 2 ≤ outDiv ∧ outDiv ≤ 8232 then
    match outputCase outDiv with
    | some c =>
      let p := if c.high then p.or 11 0x80 else p.and 11 0x7f
      .ok (((p.and 12 c.keep).or 12 c.set).and 13 0xc0)
    | none =>
      if outDiv = 8 ∨ outDiv = 10 ∨ outDiv = 12 ∨ 14 ≤ outDiv ∧ outDiv ≤ 37 then
        let temp := shl64 (not64 (outDiv - 6)) 2
        let p := (p.set 12 (UInt8.ofNat temp &&& 0x7f)).and 11 0x7f
        .ok (((p.and 12 0xfe).or 12 0x02).and 13 0xc0)
      else
        let p :=
          match findOutput outDiv with
          | none => p
          | some (i, f) =>
            let temp := shl64 i 5
            ((((p.or 12 (UInt8.ofNat temp)).or 13 (UInt8.ofNat (temp / 256))).and 12 f.keep).or
              12 f.set)
        .ok (((p.or 11 0x80).and 12 0xfe).or 12 0x02)
  else .error 7

/-- `GetICS30703Data` once it has found a solution: the word, or an error's number. -/
def getICS30703Data (s : Solution) : Except Nat ProgData := do
  let p ← inputDivider s.refDiv fixedData
  let p ← vcoDivider s.vcoDiv p
  let p ← loopFilter s.rs p
  let p ← chargePump s.icpnum p
  outputDivider s.outDiv p

/-! ### Reading a word -/

/-- The bits of Table 3 for a current. -/
def pumpBits (icpnum : Nat) : Option (UInt8 × UInt8 × UInt8) :=
  (pumpCase icpnum).map fun c =>
    (c.set &&& c.keep, if c.high then 0x80 else 0, if c.low then 0x01 else 0)

/-- The input divider in bytes 0 and 1. -/
def decodeInput (b0 b1 : Nat) : Nat :=
  if b0 % 4 = 0 then 1
  else if b0 % 4 = 1 then 2
  else if b0 % 4 = 2 then 17 - b0 / 4
  else b0 / 4 + 64 * b1 + 8

/-- The resistor in byte 11. -/
def decodeFilter (b11 : UInt8) : Nat :=
  if b11 = 0 then 64000 else if b11 = 0x04 then 52000 else if b11 = 0x02 then 16000 else 4000

/-- The current in bytes 11, 15 and 16. -/
def decodePump (bits : UInt8 × UInt8 × UInt8) : Nat :=
  (chargePumps.find? fun icpnum => pumpBits icpnum == some bits).getD 0

/-- The output divider in bytes 11, 12 and 13. -/
def decodeOutput (high : Bool) (b12 b13 : Nat) : Nat :=
  if b12 % 4 < 2 then
    ((List.range 14).find? fun od =>
      (outputCase od).any fun c => c.high == high && c.set.toNat == b12).getD 0
  else if high then ((b12 / 32 + 8 * b13 + 3) * 2 + (1 - b12 / 4 % 2)) * 2 ^ (b12 / 8 % 4)
  else 37 - b12 / 4 % 32

/-- The bits of Table 1. -/
def inputBits : ProgData := fun i => if i = 0 then 0xff else if i = 1 then 0x1f else 0

/-- The bits of Table 2. -/
def vcoBits : ProgData := fun i => if i = 1 then 0xe0 else if i = 2 then 0xff else 0

/-- The bits of Table 4. -/
def filterBits : ProgData := fun i => if i = 11 then 0x06 else 0

/-- The bits of Table 3. -/
def chargeBits : ProgData := fun i =>
  if i = 11 then 0x38 else if i = 15 then 0x80 else if i = 16 then 0x01 else 0

/-- The bits of Table 5. -/
def outputBits : ProgData := fun i =>
  if i = 11 then 0x80 else if i = 12 then 0xff else if i = 13 then 0x3f else 0

/-- The solution in a word, each part read from the bits of its table. -/
def decodeWord (p : ProgData) : Solution where
  refDiv := decodeInput (p 0 &&& inputBits 0).toNat (p 1 &&& inputBits 1).toNat
  vcoDiv := (p 1 &&& vcoBits 1).toNat / 32 + 8 * (p 2 &&& vcoBits 2).toNat + 8
  outDiv := decodeOutput (p 11 &&& outputBits 11 != 0) (p 12 &&& outputBits 12).toNat
    (p 13 &&& outputBits 13).toNat
  rs := decodeFilter (p 11 &&& filterBits 11)
  icpnum := decodePump
    (p 11 &&& chargeBits 11, p 15 &&& chargeBits 15, p 16 &&& chargeBits 16)

/-! ### Bits that a table leaves alone -/

/-- Two words with the same bits in a mask. -/
def Agree (mask p q : ProgData) : Prop := ∀ i, p i &&& mask i = q i &&& mask i

/-- Two words that differ at most in the bits of a mask. -/
def Confined (mask p q : ProgData) : Prop := ∀ i, p i &&& ~~~mask i = q i &&& ~~~mask i

/-- Masks with no bit in common. -/
def Apart (mask mask' : ProgData) : Prop := ∀ i, mask i &&& mask' i = 0

/-- A word with no bit of a mask set. -/
def Clear (mask p : ProgData) : Prop := ∀ i, p i &&& mask i = 0

section Bits

variable {x y m n s k : UInt8}

private theorem testBit_ext (h : ∀ i, i < 8 → x.toBitVec.getLsbD i = y.toBitVec.getLsbD i) : x = y :=
  UInt8.eq_of_toBitVec_eq (BitVec.eq_of_getLsbD_eq h)

private theorem testBit_congr (h : x = y) (i : Nat) : x.toBitVec.getLsbD i = y.toBitVec.getLsbD i := by
  rw [h]

private theorem and_eq_of_apart (apart : m &&& n = 0) (same : x &&& ~~~m = y &&& ~~~m) :
    x &&& n = y &&& n := by
  apply testBit_ext
  intro i hi
  have apart_bit := testBit_congr apart i
  have same_bit := testBit_congr same i
  simp only [UInt8.toBitVec_and, UInt8.toBitVec_not, BitVec.getLsbD_and, BitVec.getLsbD_not,
    UInt8.toBitVec_ofNat, BitVec.getLsbD_zero, hi, decide_true, Bool.true_and] at *
  cases hn : n.toBitVec.getLsbD i <;> cases hm : m.toBitVec.getLsbD i <;> simp_all

private theorem or_and_of_within (within : s &&& ~~~m = 0) : (x ||| s) &&& ~~~m = x &&& ~~~m := by
  apply testBit_ext
  intro i hi
  have within_bit := testBit_congr within i
  simp only [UInt8.toBitVec_and, UInt8.toBitVec_not, UInt8.toBitVec_or, BitVec.getLsbD_and,
    BitVec.getLsbD_or, BitVec.getLsbD_not, UInt8.toBitVec_ofNat, BitVec.getLsbD_zero, hi,
    decide_true, Bool.true_and] at *
  cases hm : m.toBitVec.getLsbD i <;> simp_all

private theorem and_and_of_within (within : ~~~k &&& ~~~m = 0) : (x &&& k) &&& ~~~m = x &&& ~~~m := by
  apply testBit_ext
  intro i hi
  have within_bit := testBit_congr within i
  simp only [UInt8.toBitVec_and, UInt8.toBitVec_not, BitVec.getLsbD_and, BitVec.getLsbD_not,
    UInt8.toBitVec_ofNat, BitVec.getLsbD_zero, hi, decide_true, Bool.true_and] at *
  cases hm : m.toBitVec.getLsbD i <;> simp_all

private theorem or_and_of_clear (clear : x &&& m = 0) : (x ||| s) &&& m = s &&& m := by
  apply testBit_ext
  intro i _
  have clear_bit := testBit_congr clear i
  simp only [UInt8.toBitVec_and, UInt8.toBitVec_or, BitVec.getLsbD_and, BitVec.getLsbD_or,
    UInt8.toBitVec_ofNat, BitVec.getLsbD_zero] at *
  cases hm : m.toBitVec.getLsbD i <;> simp_all

private theorem and_and_swap : (x &&& k) &&& m = (x &&& m) &&& k := by
  rw [UInt8.and_assoc, UInt8.and_comm k, UInt8.and_assoc]

end Bits

section Masks

variable {mask mask' p q r : ProgData} {i : Fin 20} {value : UInt8}

instance Apart.decidable : Decidable (Apart mask mask') :=
  inferInstanceAs (Decidable (∀ i, mask i &&& mask' i = 0))

instance Clear.decidable : Decidable (Clear mask p) :=
  inferInstanceAs (Decidable (∀ i, p i &&& mask i = 0))

private theorem Agree.trans (h : Agree mask p q) (h' : Agree mask q r) : Agree mask p r :=
  fun i => (h i).trans (h' i)

private theorem Confined.refl (mask p : ProgData) : Confined mask p p := fun _ => rfl

private theorem Confined.update (h : Confined mask p q)
    (same : value &&& ~~~mask i = q i &&& ~~~mask i) :
    Confined mask p (Function.update q i value) := by
  intro j
  by_cases hj : j = i
  · subst hj
    rw [Function.update_self, same]
    exact h j
  · rw [Function.update_of_ne hj]
    exact h j

private theorem Confined.or (h : Confined mask p q) (within : value &&& ~~~mask i = 0) :
    Confined mask p (q.or i value) :=
  h.update (or_and_of_within within)

private theorem Confined.and (h : Confined mask p q) (within : ~~~value &&& ~~~mask i = 0) :
    Confined mask p (q.and i value) :=
  h.update (and_and_of_within within)

private theorem within_whole (whole : ~~~mask i = 0) : value &&& ~~~mask i = 0 := by
  rw [whole, UInt8.and_zero]

/-- A byte that is all the table's may be assigned. -/
private theorem Confined.set (h : Confined mask p q) (whole : ~~~mask i = 0) :
    Confined mask p (q.set i value) := by
  apply h.update
  rw [within_whole whole, within_whole whole]

private theorem Confined.agree (h : Confined mask p q) (apart : Apart mask mask') : Agree mask' p q :=
  fun i => and_eq_of_apart (apart i) (h i)

private theorem Clear.of_agree (clear : Clear mask p) (h : Agree mask p q) : Clear mask q :=
  fun i => (h i).symm.trans (clear i)

@[simp] theorem or_self_apply : p.or i value i = p i ||| value := Function.update_self ..

@[simp] theorem and_self_apply : p.and i value i = p i &&& value := Function.update_self ..

@[simp] theorem set_self_apply : p.set i value i = value := Function.update_self ..

@[simp] theorem or_apply_of_ne {j : Fin 20} (h : j ≠ i) : p.or i value j = p j :=
  Function.update_of_ne h ..

@[simp] theorem and_apply_of_ne {j : Fin 20} (h : j ≠ i) : p.and i value j = p j :=
  Function.update_of_ne h ..

@[simp] theorem set_apply_of_ne {j : Fin 20} (h : j ≠ i) : p.set i value j = p j :=
  Function.update_of_ne h ..

section Flag

variable {on : Bool} {bit keep : UInt8}

private theorem Confined.flag (h : Confined mask p q) (bit_within : bit &&& ~~~mask i = 0)
    (keep_within : ~~~keep &&& ~~~mask i = 0) :
    Confined mask p (if on then q.or i bit else q.and i keep) := by
  cases on
  · exact h.and keep_within
  · exact h.or bit_within

private theorem flag_apply_of_ne {j : Fin 20} (h : j ≠ i) :
    (if on then p.or i bit else p.and i keep) j = p j := by
  cases on
  · exact and_apply_of_ne h
  · exact or_apply_of_ne h

private theorem flag_bits {m : UInt8} (clear : p i &&& m = 0) :
    (if on then p.or i bit else p.and i keep) i &&& m = if on then bit &&& m else 0 := by
  cases on
  · have same : (p.and i keep) i = p i &&& keep := and_self_apply
    exact (congrArg (· &&& m) same).trans
      (and_and_swap.trans ((congrArg (· &&& keep) clear).trans UInt8.zero_and))
  · have same : (p.or i bit) i = p i ||| bit := or_self_apply
    exact (congrArg (· &&& m) same).trans (or_and_of_clear clear)

end Flag

end Masks

/-! ### Table by table -/

private theorem inputCode_low : ∀ d < 18, 3 ≤ d →
    decodeInput (((UInt8.ofNat (shl64 (not64 (d - 2)) 2) &&& 0x3e) ||| 0x02) &&& 0xff).toNat 0 =
      d := by
  decide

private theorem low_bits_eq : ∀ code < 64, (UInt8.ofNat (code * 4) ||| 0x03).toNat = code * 4 + 3 := by
  decide

/-- What Table 1 writes for a divider from 18 on. -/
private theorem inputCode_high (d : Nat) (range : 18 ≤ d ∧ d ≤ 1200) :
    decodeInput ((UInt8.ofNat (shl64 (d - 8) 2) ||| 0x03) &&& 0xff).toNat
      (UInt8.ofNat (shl64 (d - 8) 2 / 256) &&& 0x1f).toNat = d := by
  have whole : shl64 (d - 8) 2 = (d - 8) * 4 := Nat.mod_eq_of_lt (by omega)
  have low : UInt8.ofNat ((d - 8) * 4) = UInt8.ofNat ((d - 8) % 64 * 4) := by
    apply UInt8.toNat_inj.mp
    rw [UInt8.toNat_ofNat', UInt8.toNat_ofNat']
    omega
  have byte0 : ((UInt8.ofNat ((d - 8) * 4) ||| 0x03) &&& 0xff).toNat = (d - 8) % 64 * 4 + 3 := by
    rw [low, ← low_bits_eq _ (Nat.mod_lt _ (by decide)), UInt8.toNat_and]
    exact Nat.and_two_pow_sub_one_of_lt_two_pow (n := 8) (UInt8.toNat_lt _)
  have byte1 : (UInt8.ofNat ((d - 8) * 4 / 256) &&& 0x1f).toNat = (d - 8) / 64 := by
    rw [UInt8.toNat_and, UInt8.toNat_ofNat']
    have small : (d - 8) * 4 / 256 % 2 ^ 8 = (d - 8) / 64 := by omega
    rw [small]
    exact Nat.and_two_pow_sub_one_of_lt_two_pow (n := 5) (by omega)
  rw [whole, byte0, byte1, decodeInput, if_neg (by omega), if_neg (by omega), if_neg (by omega)]
  omega

private theorem inputCode_fits (d : Nat) (range : 18 ≤ d ∧ d ≤ 1200) :
    UInt8.ofNat (shl64 (d - 8) 2 / 256) &&& ~~~0x1f = 0 := by
  have whole : shl64 (d - 8) 2 = (d - 8) * 4 := Nat.mod_eq_of_lt (by omega)
  have fits : ∀ n < 32, UInt8.ofNat n &&& ~~~0x1f = 0 := by decide
  rw [whole]
  exact fits _ (by omega)

private theorem inputDivider_ok (refDiv : Nat) (range : 1 ≤ refDiv ∧ refDiv ≤ 1200) :
    ∃ p, inputDivider refDiv fixedData = .ok p ∧ Confined inputBits fixedData p ∧
      decodeInput (p 0 &&& inputBits 0).toNat (p 1 &&& inputBits 1).toNat = refDiv := by
  have start := Confined.refl inputBits fixedData
  -- The source has four ranges, each with a code of its own.
  by_cases one : refDiv = 1
  · refine ⟨_, if_pos one, (start.and (by decide)).and (by decide), ?_⟩
    subst one
    decide
  by_cases two : refDiv = 2
  · refine ⟨_, (if_neg one).trans (if_pos two),
      ((start.and (by decide)).or (by decide)).and (by decide), ?_⟩
    subst two
    decide
  by_cases low : 3 ≤ refDiv ∧ refDiv ≤ 17
  · refine ⟨_, (if_neg one).trans ((if_neg two).trans (if_pos low)),
      ((start.set (by decide)).and (by decide)).or (by decide), ?_⟩
    have byte1 : fixedData 1 &&& inputBits 1 = 0 := by decide
    rw [or_self_apply, and_self_apply, set_self_apply, or_apply_of_ne (by decide),
      and_apply_of_ne (by decide), set_apply_of_ne (by decide), byte1]
    exact inputCode_low refDiv (by omega) low.1
  -- The largest divisors take both bytes, the high one beside bits that it does not own.
  · have bound : 18 ≤ refDiv ∧ refDiv ≤ 2055 := by omega
    have fits : UInt8.ofNat (shl64 (refDiv - 8) 2 / 256) &&& ~~~inputBits 1 =
        (fixedData.set 0 (UInt8.ofNat (shl64 (refDiv - 8) 2))) 1 &&& ~~~inputBits 1 := by
      rw [set_apply_of_ne (by decide)]
      exact inputCode_fits refDiv (by omega)
    refine ⟨_, (if_neg one).trans ((if_neg two).trans ((if_neg low).trans (if_pos bound))),
      (((start.set (by decide)).update fits).or (by decide)), ?_⟩
    rw [or_self_apply, set_apply_of_ne (by decide), set_self_apply, or_apply_of_ne (by decide),
      set_self_apply]
    exact inputCode_high refDiv (by omega)

private theorem ofNat_mod (n : Nat) : UInt8.ofNat (n % 256) = UInt8.ofNat n := by
  apply UInt8.toNat_inj.mp
  rw [UInt8.toNat_ofNat', UInt8.toNat_ofNat']
  exact Nat.mod_mod n _

private theorem and_whole (x : UInt8) : x &&& 0xff = x := by
  apply UInt8.toNat_inj.mp
  rw [UInt8.toNat_and]
  exact Nat.and_two_pow_sub_one_of_lt_two_pow (n := 8) (UInt8.toNat_lt x)

/-- The three bits that a number shifted by five leaves in its low byte. -/
private theorem high_bits_eq : ∀ n < 8,
    (UInt8.ofNat (n * 32) &&& 0xe0).toNat = n * 32 ∧ UInt8.ofNat (n * 32) &&& ~~~0xe0 = 0 := by
  decide

private theorem shl64_five {n : Nat} (small : n < 2048) :
    UInt8.ofNat (shl64 n 5) = UInt8.ofNat (n % 8 * 32) ∧
      (UInt8.ofNat (shl64 n 5 / 256)).toNat = n / 8 := by
  have whole : shl64 n 5 = n * 32 := Nat.mod_eq_of_lt (by omega)
  constructor
  · have byte : n * 32 % 256 = n % 8 * 32 := by omega
    rw [whole, ← ofNat_mod, byte]
  · rw [whole, UInt8.toNat_ofNat']
    omega

private theorem vcoDivider_eq {vcoDiv : Nat} (range : 12 ≤ vcoDiv ∧ vcoDiv ≤ 2055) (p : ProgData) :
    vcoDivider vcoDiv p = .ok ((p.or 1 (UInt8.ofNat (shl64 (vcoDiv - 8) 5))).or 2
      (UInt8.ofNat (shl64 (vcoDiv - 8) 5 / 256))) :=
  if_pos range

private theorem vcoDivider_ok {p : ProgData} (clear : Clear vcoBits p) (vcoDiv : Nat)
    (range : 12 ≤ vcoDiv ∧ vcoDiv ≤ 2055) :
    ∃ q, vcoDivider vcoDiv p = .ok q ∧ Confined vcoBits p q ∧
      (q 1 &&& vcoBits 1).toNat / 32 + 8 * (q 2 &&& vcoBits 2).toNat + 8 = vcoDiv := by
  obtain ⟨low, high⟩ := shl64_five (show vcoDiv - 8 < 2048 by omega)
  obtain ⟨bits, within⟩ := high_bits_eq ((vcoDiv - 8) % 8) (Nat.mod_lt _ (by decide))
  rw [vcoDivider_eq range]
  rw [← low] at bits within
  generalize UInt8.ofNat (shl64 (vcoDiv - 8) 5) = byte1 at *
  generalize UInt8.ofNat (shl64 (vcoDiv - 8) 5 / 256) = byte2 at *
  have first : Confined vcoBits p (p.or 1 byte1) := (Confined.refl vcoBits p).or within
  refine ⟨_, rfl, first.or (within_whole (by decide)), ?_⟩
  rw [or_apply_of_ne (by decide), or_self_apply, or_and_of_clear (clear 1), or_self_apply,
    or_apply_of_ne (by decide), or_and_of_clear (clear 2)]
  have bits1 : (byte1 &&& vcoBits 1).toNat = (vcoDiv - 8) % 8 * 32 := bits
  have bits2 : (byte2 &&& vcoBits 2).toNat = (vcoDiv - 8) / 8 :=
    (congrArg UInt8.toNat (and_whole byte2)).trans high
  rw [bits1, bits2]
  omega

private theorem loopFilter_ok {p : ProgData} (clear : Clear filterBits p) (rs : Nat)
    (range : rs ∈ resistors) :
    ∃ q, loopFilter rs p = .ok q ∧ Confined filterBits p q ∧
      decodeFilter (q 11 &&& filterBits 11) = rs := by
  have start := Confined.refl filterBits p
  have clear11 : p 11 &&& filterBits 11 = 0 := clear 11
  simp only [resistors, List.mem_cons, List.not_mem_nil, or_false] at range
  rcases range with rfl | rfl | rfl | rfl
  · refine ⟨_, rfl, start.and (by decide), ?_⟩
    rw [and_self_apply, and_and_swap, clear11]
    decide
  · refine ⟨_, rfl, (start.and (by decide)).or (by decide), ?_⟩
    rw [or_self_apply, and_self_apply, or_and_of_clear (by rw [and_and_swap, clear11]; decide)]
    decide
  · refine ⟨_, rfl, (start.and (by decide)).or (by decide), ?_⟩
    rw [or_self_apply, and_self_apply, or_and_of_clear (by rw [and_and_swap, clear11]; decide)]
    decide
  · refine ⟨_, rfl, start.or (by decide), ?_⟩
    rw [or_self_apply, or_and_of_clear clear11]
    decide

private theorem pumpCase_of_mem : ∀ icpnum ∈ chargePumps, ∃ c ∈ pumpCase icpnum,
    c.set &&& ~~~0x38 = 0 ∧ ~~~c.keep &&& ~~~0x38 = 0 ∧ c.set &&& 0x38 = c.set ∧
      decodePump (c.set &&& c.keep, if c.high then 0x80 else 0, if c.low then 0x01 else 0) =
        icpnum := by
  decide +kernel

private theorem chargePump_eq {icpnum : Nat} {c : PumpCase} (found : pumpCase icpnum = some c)
    (p : ProgData) :
    chargePump icpnum p =
      .ok (if c.low then
          (if c.high then ((p.or 11 c.set).and 11 c.keep).or 15 0x80
            else ((p.or 11 c.set).and 11 c.keep).and 15 0x7f).or 16 0x01
        else (if c.high then ((p.or 11 c.set).and 11 c.keep).or 15 0x80
            else ((p.or 11 c.set).and 11 c.keep).and 15 0x7f).and 16 0xfe) := by
  rw [chargePump, found]

private theorem chargePump_ok {p : ProgData} (clear : Clear chargeBits p) (icpnum : Nat)
    (range : icpnum ∈ chargePumps) :
    ∃ q, chargePump icpnum p = .ok q ∧ Confined chargeBits p q ∧
      decodePump (q 11 &&& chargeBits 11, q 15 &&& chargeBits 15, q 16 &&& chargeBits 16) =
        icpnum := by
  obtain ⟨c, found, set_within, keep_within, set_whole, decoded⟩ := pumpCase_of_mem icpnum range
  -- Byte 11 gets the code of the pump, and the bits of others in it stay.
  have ored : Confined chargeBits p (p.or 11 c.set) := (Confined.refl chargeBits p).or set_within
  have anded : Confined chargeBits p ((p.or 11 c.set).and 11 c.keep) := ored.and keep_within
  -- Bytes 15 and 16 get a flag each.
  have clear15 : ((p.or 11 c.set).and 11 c.keep) 15 &&& chargeBits 15 = 0 := by
    rw [and_apply_of_ne (by decide), or_apply_of_ne (by decide)]
    exact clear 15
  have clear16 : ((p.or 11 c.set).and 11 c.keep) 16 &&& chargeBits 16 = 0 := by
    rw [and_apply_of_ne (by decide), or_apply_of_ne (by decide)]
    exact clear 16
  have bits11 : ((p.or 11 c.set).and 11 c.keep) 11 &&& chargeBits 11 = c.set &&& c.keep := by
    rw [and_self_apply, or_self_apply, and_and_swap, or_and_of_clear (clear 11)]
    exact congrArg (· &&& c.keep) set_whole
  rw [chargePump_eq (Option.mem_def.mp found)]
  generalize (p.or 11 c.set).and 11 c.keep = p₁ at *
  have high : Confined chargeBits p (if c.high then p₁.or 15 0x80 else p₁.and 15 0x7f) :=
    anded.flag (by decide) (by decide)
  refine ⟨_, rfl, high.flag (by decide) (by decide), ?_⟩
  rw [flag_apply_of_ne (by decide), flag_apply_of_ne (by decide), bits11,
    flag_apply_of_ne (by decide), flag_bits clear15, flag_bits
      ((congrArg (· &&& chargeBits 16) (flag_apply_of_ne (by decide))).trans clear16)]
  exact decoded

private theorem outputCase_decoded {outDiv : Nat} {c : OutputCase}
    (found : outputCase outDiv = some c) :
    decodeOutput c.high c.set.toNat 0 = outDiv := by
  unfold outputCase at found
  split at found <;> cases found <;> decide

private theorem outputCase_eq {outDiv : Nat} {c : OutputCase} (range : 2 ≤ outDiv ∧ outDiv ≤ 8232)
    (found : outputCase outDiv = some c) (p : ProgData) :
    outputDivider outDiv p =
      .ok ((((if c.high then p.or 11 0x80 else p.and 11 0x7f).and 12 c.keep).or 12 c.set).and 13
        0xc0) := by
  rw [outputDivider, if_pos range, found]

/-- An output divider with a word of its own. -/
private theorem outputCase_ok {p : ProgData} (clear : Clear outputBits p) {outDiv : Nat}
    {c : OutputCase}
    (range : 2 ≤ outDiv ∧ outDiv ≤ 8232) (found : outputCase outDiv = some c) :
    ∃ q, outputDivider outDiv p = .ok q ∧ Confined outputBits p q ∧
      decodeOutput (q 11 &&& outputBits 11 != 0) (q 12 &&& outputBits 12).toNat
        (q 13 &&& outputBits 13).toNat = outDiv := by
  rw [outputCase_eq range found]
  -- Byte 11 has the flag, byte 12 the code, and the bits in byte 13 are cleared.
  have flagged : Confined outputBits p (if c.high then p.or 11 0x80 else p.and 11 0x7f) :=
    (Confined.refl outputBits p).flag (by decide) (by decide)
  have bits11 : ((if c.high then p.or 11 0x80 else p.and 11 0x7f) 11 &&& outputBits 11 != 0) =
      c.high := by
    rw [flag_bits (clear 11)]
    cases c.high <;> decide
  have same12 : (if c.high then p.or 11 0x80 else p.and 11 0x7f) 12 = p 12 :=
    flag_apply_of_ne (by decide)
  have same13 : (if c.high then p.or 11 0x80 else p.and 11 0x7f) 13 = p 13 :=
    flag_apply_of_ne (by decide)
  generalize (if c.high then p.or 11 0x80 else p.and 11 0x7f) = p₁ at *
  have first : Confined outputBits p (p₁.and 12 c.keep) :=
    flagged.and (within_whole (by decide))
  have second : Confined outputBits p ((p₁.and 12 c.keep).or 12 c.set) :=
    first.or (within_whole (by decide))
  refine ⟨_, rfl, second.and (by decide), ?_⟩
  have bits12 : (((p₁.and 12 c.keep).or 12 c.set).and 13 0xc0) 12 &&& outputBits 12 = c.set := by
    rw [and_apply_of_ne (by decide), or_self_apply, and_self_apply, same12,
      or_and_of_clear (by rw [and_and_swap, clear 12, UInt8.zero_and])]
    exact and_whole c.set
  have bits13 : (((p₁.and 12 c.keep).or 12 c.set).and 13 0xc0) 13 &&& outputBits 13 = 0 := by
    rw [and_self_apply, or_apply_of_ne (by decide), and_apply_of_ne (by decide), same13,
      and_and_swap, clear 13, UInt8.zero_and]
  rw [bits12, bits13, and_apply_of_ne (by decide), or_apply_of_ne (by decide),
    and_apply_of_ne (by decide), bits11]
  exact outputCase_decoded found

private theorem outputCode_low : ∀ d < 38, d = 8 ∨ d = 10 ∨ d = 12 ∨ 14 ≤ d ∧ d ≤ 37 →
    decodeOutput false (((UInt8.ofNat (shl64 (not64 (d - 6)) 2) &&& 0x7f) &&& 0xfe) ||| 0x02).toNat
      0 = d := by
  decide

private theorem shortOutput_eq {outDiv : Nat} (range : 2 ≤ outDiv ∧ outDiv ≤ 8232)
    (missing : outputCase outDiv = none)
    (short : outDiv = 8 ∨ outDiv = 10 ∨ outDiv = 12 ∨ 14 ≤ outDiv ∧ outDiv ≤ 37) (p : ProgData) :
    outputDivider outDiv p =
      .ok (((((p.set 12 (UInt8.ofNat (shl64 (not64 (outDiv - 6)) 2) &&& 0x7f)).and 11 0x7f).and 12
        0xfe).or 12 0x02).and 13 0xc0) := by
  rw [outputDivider, if_pos range, missing]
  exact if_pos short

/-- An output divider below 38 without a word of its own. -/
private theorem shortOutput_ok {p : ProgData} (clear : Clear outputBits p) {outDiv : Nat}
    (range : 2 ≤ outDiv ∧ outDiv ≤ 8232) (missing : outputCase outDiv = none)
    (short : outDiv = 8 ∨ outDiv = 10 ∨ outDiv = 12 ∨ 14 ≤ outDiv ∧ outDiv ≤ 37) :
    ∃ q, outputDivider outDiv p = .ok q ∧ Confined outputBits p q ∧
      decodeOutput (q 11 &&& outputBits 11 != 0) (q 12 &&& outputBits 12).toNat
        (q 13 &&& outputBits 13).toNat = outDiv := by
  have decoded := outputCode_low outDiv (by omega) short
  rw [shortOutput_eq range missing short]
  generalize UInt8.ofNat (shl64 (not64 (outDiv - 6)) 2) &&& 0x7f = byte at *
  have first : Confined outputBits p ((p.set 12 byte).and 11 0x7f) :=
    ((Confined.refl outputBits p).set (by decide)).and (by decide)
  have second : Confined outputBits p ((((p.set 12 byte).and 11 0x7f).and 12 0xfe).or 12 0x02) :=
    (first.and (by decide)).or (by decide)
  refine ⟨_, rfl, second.and (by decide), ?_⟩
  rw [and_apply_of_ne (by decide), or_apply_of_ne (by decide), and_apply_of_ne (by decide),
    and_self_apply, set_apply_of_ne (by decide), and_and_swap, clear 11, UInt8.zero_and,
    and_apply_of_ne (by decide), or_self_apply, and_self_apply, and_apply_of_ne (by decide),
    set_self_apply, and_self_apply, or_apply_of_ne (by decide), and_apply_of_ne (by decide),
    and_apply_of_ne (by decide), set_apply_of_ne (by decide), and_and_swap, clear 13,
    UInt8.zero_and]
  rw [← and_whole (byte &&& 0xfe ||| 0x02)] at decoded
  exact decoded

/-- The byte of a branch of the loop: its low index bits, and the factors of its divider. -/
private theorem outputForm_byte : ∀ n < 8, ∀ f ∈ outputForms,
    let byte := ((((UInt8.ofNat (n * 32) &&& f.keep) ||| f.set) &&& 0xfe) ||| 0x02).toNat
    byte / 32 = n ∧ byte % 4 = 2 ∧ 1 - byte / 4 % 2 = f.odd ∧ 2 ^ (byte / 8 % 4) = f.times := by
  decide +kernel

private theorem findOutput_spec {outDiv i : Nat} {f : OutputForm}
    (found : findOutput outDiv = some (i, f)) :
    i < 512 ∧ f ∈ outputForms ∧ outDiv = ((i + 3) * 2 + f.odd) * f.times := by
  obtain ⟨i', member, eq⟩ := List.exists_of_findSome?_eq_some found
  obtain ⟨f', matched, pair⟩ := Option.map_eq_some_iff.mp eq
  cases pair
  refine ⟨List.mem_range.mp member, List.mem_of_find?_eq_some matched, ?_⟩
  have same := List.find?_some matched
  exact beq_iff_eq.mp same

private theorem findOutput_isSome {outDiv i : Nat} {f : OutputForm} (small : i < 512)
    (member : f ∈ outputForms) (eq : outDiv = ((i + 3) * 2 + f.odd) * f.times) :
    (findOutput outDiv).isSome := by
  apply List.findSome?_isSome_iff.mpr
  refine ⟨i, List.mem_range.mpr small, ?_⟩
  rw [Option.isSome_map]
  exact List.find?_isSome.mpr ⟨f, member, beq_iff_eq.mpr eq⟩

private theorem Visited.range {od : Nat} (h : Visited od) :
    (4120 ≤ od ∧ od ≤ 8232 ∧ 8 ∣ od) ∨ (2060 ≤ od ∧ od ≤ 4120 ∧ 4 ∣ od) ∨
      (1030 ≤ od ∧ od ≤ 2060 ∧ 2 ∣ od) ∨ (2 ≤ od ∧ od ≤ 1030) := by
  induction h with
  | start => left; decide
  | @step od _ more ih =>
    unfold stepOd at more ⊢
    split_ifs at more ⊢ <;> omega

/-- The loop of Table 5 has a branch for every `m` times a power of two up to eight. -/
private theorem findOutput_factor (m times : Nat) (range : 6 ≤ m ∧ m < 1030)
    (power : times = 1 ∨ times = 2 ∨ times = 4 ∨ times = 8) :
    (findOutput (m * times)).isSome := by
  have form : ∀ odd < 2, ∃ f ∈ outputForms, f.odd = odd ∧ f.times = times := by
    rcases power with rfl | rfl | rfl | rfl <;> decide
  obtain ⟨f, member, odd, same⟩ := form (m % 2) (Nat.mod_lt _ (by decide))
  have split : m = (m / 2 - 3 + 3) * 2 + f.odd := by omega
  apply findOutput_isSome (i := m / 2 - 3) (by omega) member
  rw [← split, same]

/-- The loop of Table 5 breaks at every longer divider of the search. -/
private theorem Visited.findOutput_isSome {od : Nat} (h : Visited od) (long : 38 ≤ od) :
    (findOutput od).isSome := by
  have range := h.range
  -- the largest power that leaves at least 515
  by_cases eight : 4120 ≤ od
  · have factor := findOutput_factor (od / 8) 8 (by omega) (by omega)
    rwa [Nat.div_mul_cancel (by omega)] at factor
  by_cases four : 2060 ≤ od
  · have factor := findOutput_factor (od / 4) 4 (by omega) (by omega)
    rwa [Nat.div_mul_cancel (by omega)] at factor
  by_cases two : 1030 ≤ od
  · have factor := findOutput_factor (od / 2) 2 (by omega) (by omega)
    rwa [Nat.div_mul_cancel (by omega)] at factor
  · have factor := findOutput_factor od 1 (by omega) (by omega)
    rwa [Nat.mul_one] at factor

private theorem longOutput_eq {outDiv i : Nat} {f : OutputForm} (range : 2 ≤ outDiv ∧ outDiv ≤ 8232)
    (long : 38 ≤ outDiv) (missing : outputCase outDiv = none)
    (found : findOutput outDiv = some (i, f)) (p : ProgData) :
    outputDivider outDiv p =
      .ok (((((((p.or 12 (UInt8.ofNat (shl64 i 5))).or 13 (UInt8.ofNat (shl64 i 5 / 256))).and 12
        f.keep).or 12 f.set).or 11 0x80).and 12 0xfe).or 12 0x02) := by
  rw [outputDivider, if_pos range, missing]
  refine (if_neg (by omega)).trans ?_
  rw [found]

private theorem outputCase_none {outDiv : Nat} (long : 38 ≤ outDiv) : outputCase outDiv = none := by
  unfold outputCase
  split <;> first | omega | rfl

/-- An output divider that the loop of Table 5 finds. -/
private theorem longOutput_ok {p : ProgData} (clear : Clear outputBits p) {outDiv i : Nat}
    {f : OutputForm}
    (range : 2 ≤ outDiv ∧ outDiv ≤ 8232) (long : 38 ≤ outDiv)
    (found : findOutput outDiv = some (i, f)) :
    ∃ q, outputDivider outDiv p = .ok q ∧ Confined outputBits p q ∧
      decodeOutput (q 11 &&& outputBits 11 != 0) (q 12 &&& outputBits 12).toNat
        (q 13 &&& outputBits 13).toNat = outDiv := by
  -- The divisor is a product, of which the code has the index and the form.
  obtain ⟨small, member, factors⟩ := findOutput_spec found
  obtain ⟨low, high⟩ := shl64_five (show i < 2048 by omega)
  obtain ⟨index, tag, odd, times⟩ :=
    outputForm_byte (i % 8) (Nat.mod_lt _ (by decide)) f member
  have fits : ∀ n < 64, UInt8.ofNat n &&& ~~~0x3f = 0 ∧ UInt8.ofNat n &&& 0x3f = UInt8.ofNat n := by
    decide
  -- The index is shifted over the two bytes, and the form's bits are put in between.
  rw [longOutput_eq range long (outputCase_none long) found]
  rw [← low] at index tag odd times
  obtain ⟨within, whole⟩ := fits (i / 8) (by omega)
  rw [← high, UInt8.ofNat_toNat] at within whole
  generalize UInt8.ofNat (shl64 i 5) = byte at *
  generalize UInt8.ofNat (shl64 i 5 / 256) = carry at *
  -- Each of the writes stays within the bits of the divider.
  have first : Confined outputBits p (p.or 12 byte) :=
    (Confined.refl outputBits p).or (within_whole (by decide))
  have second : Confined outputBits p ((p.or 12 byte).or 13 carry) := first.or within
  have third : Confined outputBits p (((p.or 12 byte).or 13 carry).and 12 f.keep) :=
    second.and (within_whole (by decide))
  have fourth : Confined outputBits p ((((p.or 12 byte).or 13 carry).and 12 f.keep).or 12 f.set) :=
    third.or (within_whole (by decide))
  have bits12 : ((((p.or 12 byte).or 13 carry).and 12 f.keep).or 12 f.set) 12 =
      (byte &&& f.keep) ||| f.set := by
    have clear12 : p 12 = 0 := (and_whole (p 12)).symm.trans (clear 12)
    rw [or_self_apply, and_self_apply, or_apply_of_ne (by decide), or_self_apply, clear12,
      UInt8.zero_or]
  have bits13 : ((((p.or 12 byte).or 13 carry).and 12 f.keep).or 12 f.set) 13 &&& outputBits 13 =
      carry := by
    rw [or_apply_of_ne (by decide), and_apply_of_ne (by decide), or_self_apply,
      or_apply_of_ne (by decide), or_and_of_clear (clear 13)]
    exact whole
  have clear11 : ((((p.or 12 byte).or 13 carry).and 12 f.keep).or 12 f.set) 11 &&&
      outputBits 11 = 0 := by
    rw [or_apply_of_ne (by decide), and_apply_of_ne (by decide), or_apply_of_ne (by decide),
      or_apply_of_ne (by decide)]
    exact clear 11
  generalize (((p.or 12 byte).or 13 carry).and 12 f.keep).or 12 f.set = p₁ at *
  refine ⟨_, rfl, ((fourth.or (by decide)).and (by decide)).or (by decide), ?_⟩
  have high11 : (((p₁.or 11 0x80).and 12 0xfe).or 12 0x02) 11 &&& outputBits 11 = 0x80 := by
    rw [or_apply_of_ne (by decide), and_apply_of_ne (by decide), or_self_apply,
      or_and_of_clear clear11]
    decide
  have whole12 : (((p₁.or 11 0x80).and 12 0xfe).or 12 0x02) 12 &&& outputBits 12 =
      (((byte &&& f.keep) ||| f.set) &&& 0xfe) ||| 0x02 := by
    rw [or_self_apply, and_self_apply, or_apply_of_ne (by decide), bits12]
    exact and_whole _
  have low13 : (((p₁.or 11 0x80).and 12 0xfe).or 12 0x02) 13 &&& outputBits 13 = carry := by
    rw [or_apply_of_ne (by decide), and_apply_of_ne (by decide), or_apply_of_ne (by decide), bits13]
  -- What the chip decodes is the index and the factors, and so the divisor.
  rw [high11, whole12, low13, decodeOutput, if_neg (by omega), if_pos (by decide), index, high,
    odd, times, Nat.mod_add_div, ← factors]

private theorem long_of_default {outDiv : Nat} (range : 2 ≤ outDiv) (own : outputCase outDiv = none)
    (long : ¬(outDiv = 8 ∨ outDiv = 10 ∨ outDiv = 12 ∨ 14 ≤ outDiv ∧ outDiv ≤ 37)) :
    38 ≤ outDiv := by
  have rest : ∀ d < 14, 2 ≤ d → outputCase d = none → d = 8 ∨ d = 10 ∨ d = 12 := by decide
  by_cases low : outDiv < 14
  · rcases rest outDiv low range own with h | h | h <;> omega
  · omega

private theorem outputDivider_ok {p : ProgData} (clear : Clear outputBits p) (outDiv : Nat)
    (visited : Visited outDiv) :
    ∃ q, outputDivider outDiv p = .ok q ∧ Confined outputBits p q ∧
      decodeOutput (q 11 &&& outputBits 11 != 0) (q 12 &&& outputBits 12).toNat
        (q 13 &&& outputBits 13).toNat = outDiv := by
  have range : 2 ≤ outDiv ∧ outDiv ≤ 8232 := by
    have cases := visited.range
    omega
  cases own : outputCase outDiv with
  | some c => exact outputCase_ok clear range own
  | none =>
    by_cases long : 38 ≤ outDiv
    · obtain ⟨⟨i, f⟩, found⟩ := Option.isSome_iff_exists.mp (visited.findOutput_isSome long)
      exact longOutput_ok clear range long found
    · apply shortOutput_ok clear range own
      by_contra default
      exact long (long_of_default range.1 own default)

/-! ### The word of a solution -/

/-- The words after each table, and what each table may have touched. -/
structure Encoding (s : Solution) (p₁ p₂ p₃ p₄ p₅ : ProgData) : Prop where
  input : inputDivider s.refDiv fixedData = .ok p₁
  vco : vcoDivider s.vcoDiv p₁ = .ok p₂
  filter : loopFilter s.rs p₂ = .ok p₃
  charge : chargePump s.icpnum p₃ = .ok p₄
  output : outputDivider s.outDiv p₄ = .ok p₅
  input_confined : Confined inputBits fixedData p₁
  vco_confined : Confined vcoBits p₁ p₂
  filter_confined : Confined filterBits p₂ p₃
  charge_confined : Confined chargeBits p₃ p₄
  output_confined : Confined outputBits p₄ p₅

/-- The bits of the tables, in the order of the code. -/
def tables : List ProgData := [inputBits, vcoBits, filterBits, chargeBits, outputBits]

private theorem Encoding.word {s : Solution} {p₁ p₂ p₃ p₄ p₅ : ProgData}
    (e : Encoding s p₁ p₂ p₃ p₄ p₅) :
    getICS30703Data s = .ok p₅ := by
  rw [getICS30703Data, e.input]
  change (vcoDivider s.vcoDiv p₁ >>= _) = _
  rw [e.vco]
  change (loopFilter s.rs p₂ >>= _) = _
  rw [e.filter]
  change (chargePump s.icpnum p₃ >>= _) = _
  rw [e.charge]
  exact e.output

/-- Every solution of the search passes the tables, and the word gives it back. -/
private theorem Searched.encoding {s : Solution} (searched : Searched s) :
    ∃ p₁ p₂ p₃ p₄ p₅, Encoding s p₁ p₂ p₃ p₄ p₅ ∧ decodeWord p₅ = s := by
  obtain ⟨p₁, input, confined₁, refDiv⟩ := inputDivider_ok s.refDiv searched.refDiv
  have clear₁ : ∀ mask, Apart inputBits mask → Clear mask fixedData → Clear mask p₁ :=
    fun mask apart clear => clear.of_agree (confined₁.agree apart)
  obtain ⟨p₂, vco, confined₂, vcoDiv⟩ :=
    vcoDivider_ok (clear₁ vcoBits (by decide) (by decide)) s.vcoDiv searched.vcoDiv
  have clear₂ : ∀ mask, Apart inputBits mask → Apart vcoBits mask → Clear mask fixedData →
      Clear mask p₂ :=
    fun mask apart apart' clear => (clear₁ mask apart clear).of_agree (confined₂.agree apart')
  obtain ⟨p₃, filter, confined₃, rs⟩ :=
    loopFilter_ok (clear₂ filterBits (by decide) (by decide) (by decide)) s.rs searched.rs
  have clear₃ : Clear chargeBits p₃ :=
    (clear₂ chargeBits (by decide) (by decide) (by decide)).of_agree (confined₃.agree (by decide))
  obtain ⟨p₄, charge, confined₄, icpnum⟩ := chargePump_ok clear₃ s.icpnum searched.icpnum
  have clear₄ : Clear outputBits p₄ :=
    ((clear₂ outputBits (by decide) (by decide) (by decide)).of_agree
      (confined₃.agree (by decide))).of_agree (confined₄.agree (by decide))
  obtain ⟨p₅, output, confined₅, outDiv⟩ := outputDivider_ok clear₄ s.outDiv searched.outDiv
  refine ⟨p₁, p₂, p₃, p₄, p₅,
    ⟨input, vco, filter, charge, output, confined₁, confined₂, confined₃, confined₄, confined₅⟩, ?_⟩
  -- what a table wrote is what the last word still holds
  have kept₄ : Agree chargeBits p₄ p₅ := confined₅.agree (by decide)
  have kept₃ : Agree filterBits p₃ p₅ :=
    (confined₄.agree (by decide)).trans (confined₅.agree (by decide))
  have kept₂ : Agree vcoBits p₂ p₅ :=
    ((confined₃.agree (by decide)).trans (confined₄.agree (by decide))).trans
      (confined₅.agree (by decide))
  have kept₁ : Agree inputBits p₁ p₅ :=
    (((confined₂.agree (by decide)).trans (confined₃.agree (by decide))).trans
      (confined₄.agree (by decide))).trans (confined₅.agree (by decide))
  rw [decodeWord, ← kept₁ 0, ← kept₁ 1, ← kept₂ 1, ← kept₂ 2, ← kept₃ 11, ← kept₄ 11, ← kept₄ 15,
    ← kept₄ 16, refDiv, vcoDiv, rs, icpnum, outDiv]

/-- The word can be decoded: for every solution of the search the tables accept it and the loop of
Table 5, where it runs, finds the divider; no table touches the bits of another; and no other
solution has the same word. -/
theorem clock_word_decodable {s : Solution} (searched : Searched s) :
    (∃ p₁ p₂ p₃ p₄ p₅, Encoding s p₁ p₂ p₃ p₄ p₅ ∧ getICS30703Data s = .ok p₅ ∧
      decodeWord p₅ = s) ∧
    (outputCase s.outDiv = none →
      ¬(s.outDiv = 8 ∨ s.outDiv = 10 ∨ s.outDiv = 12 ∨ 14 ≤ s.outDiv ∧ s.outDiv ≤ 37) →
      (findOutput s.outDiv).isSome) ∧
    tables.Pairwise Apart ∧
    ∀ t, Searched t → getICS30703Data t = getICS30703Data s → t = s := by
  obtain ⟨p₁, p₂, p₃, p₄, p₅, encoding, decoded⟩ := searched.encoding
  refine ⟨⟨p₁, p₂, p₃, p₄, p₅, encoding, encoding.word, decoded⟩, ?_, by decide, ?_⟩
  · intro own long
    have range := searched.outDiv.range
    exact searched.outDiv.findOutput_isSome (long_of_default (by omega) own long)
  · intro t other same
    obtain ⟨q₁, q₂, q₃, q₄, q₅, encoding', decoded'⟩ := other.encoding
    rw [encoding.word, encoding'.word] at same
    cases same
    exact decoded'.symm.trans decoded

/-- At the first divider of the search. -/
theorem clock_word_decodable_slowest :
    ∃ p, getICS30703Data ⟨5, 400, 8232, 16000, 875⟩ = .ok p ∧
      decodeWord p = ⟨5, 400, 8232, 16000, 875⟩ := by
  have searched : Searched ⟨5, 400, 8232, 16000, 875⟩ :=
    ⟨by decide, by decide, .start, by decide, by decide⟩
  obtain ⟨⟨_, _, _, _, p, _, word, decoded⟩, _⟩ := clock_word_decodable searched
  exact ⟨p, word, decoded⟩

/-- The bit of the driver, which says where the chip's reference comes from. -/
def xtalBit : ProgData := fun i => if i = 15 then 0x04 else 0

/-- The word in twenty bytes. -/
def wordOf (clockData : List UInt8) : ProgData := fun i => clockData.getD i 0

private theorem wordOf_modify (p : ProgData) (f : UInt8 → UInt8) (i : Fin 20) :
    wordOf ((List.ofFn p).modify 15 f) i = if i = 15 then f (p i) else p i := by
  rw [wordOf, List.getD_eq_getElem?_getD, List.getElem?_modify, List.getElem?_ofFn, dif_pos i.isLt]
  change (if 15 = i.val then f (p i) else p i) = _
  by_cases place : i = 15
  · subst place
    rfl
  · have apart : ¬(15 = i.val) := fun h => place (Fin.ext h.symm)
    rw [if_neg apart, if_neg place]

private theorem confined_modify (p : ProgData) {f : UInt8 → UInt8}
    (within : f (p 15) &&& ~~~0x04 = p 15 &&& ~~~0x04) :
    Confined xtalBit p (wordOf ((List.ofFn p).modify 15 f)) := by
  intro i
  rw [wordOf_modify]
  by_cases place : i = 15
  · subst place
    exact within.symm
  · rw [if_neg place]

/-- What the driver changes in the word before it sends it is no table's. -/
theorem decodeWord_adjustXtal (vstr : BitVec 32) (p : ProgData) :
    decodeWord (wordOf (adjustXtal vstr (List.ofFn p))) = decodeWord p := by
  have confined : Confined xtalBit p (wordOf (adjustXtal vstr (List.ofFn p))) := by
    unfold adjustXtal
    split
    · exact confined_modify p (and_and_of_within (by decide))
    · exact confined_modify p (or_and_of_within (by decide))
  have input : Agree inputBits p _ := confined.agree (by decide)
  have vco : Agree vcoBits p _ := confined.agree (by decide)
  have filter : Agree filterBits p _ := confined.agree (by decide)
  have charge : Agree chargeBits p _ := confined.agree (by decide)
  have output : Agree outputBits p _ := confined.agree (by decide)
  rw [decodeWord, ← input 0, ← input 1, ← vco 1, ← vco 2, ← filter 11, ← charge 11, ← charge 15,
    ← charge 16, ← output 11, ← output 12, ← output 13]
  rfl

end Fscc
