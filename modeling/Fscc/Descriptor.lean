import Fscc.Lib.CInt
import Mathlib.Data.List.Basic

/-!
# Descriptors

The control word of a descriptor, the `io_frame` around it, and the sizes of the two
rings, as in `io.h` and `fscc.h`.
-/

namespace Fscc

/-! ### Control words -/

/-- `DESC_FE_BIT`. -/
def descFeBit : BitVec 32 := 0x80000000#32

/-- `DESC_CSTOP_BIT`. -/
def descCstopBit : BitVec 32 := 0x40000000#32

/-- `DESC_HI_BIT`. -/
def descHiBit : BitVec 32 := 0x20000000#32

/-- `DMA_MAX_LENGTH`. -/
def dmaMaxLength : BitVec 32 := 0x1fffffff#32

/-- `control & DESC_FE_BIT`. -/
def hasFe (control : BitVec 32) : Bool := control &&& descFeBit != 0#32

/-- `control & DESC_CSTOP_BIT`. -/
def hasCstop (control : BitVec 32) : Bool := control &&& descCstopBit != 0#32

/-- `control & DMA_MAX_LENGTH`. -/
def cnt (control : BitVec 32) : Nat := (control &&& dmaMaxLength).toNat

private theorem hasFe_eq (c : BitVec 32) : hasFe c = c.getLsbD 31 := by
  rw [hasFe, show descFeBit = BitVec.twoPow 32 31 from rfl, BitVec.and_twoPow]
  cases c.getLsbD 31 <;> decide

private theorem hasCstop_eq (c : BitVec 32) : hasCstop c = c.getLsbD 30 := by
  rw [hasCstop, show descCstopBit = BitVec.twoPow 32 30 from rfl, BitVec.and_twoPow]
  cases c.getLsbD 30 <;> decide

private theorem cnt_eq (c : BitVec 32) : cnt c = c.toNat % 536870912 := by
  rw [cnt, BitVec.toNat_and, show dmaMaxLength.toNat = 2 ^ 29 - 1 from rfl,
    Nat.and_two_pow_sub_one_eq_mod]

theorem cnt_lt (c : BitVec 32) : cnt c < 536870912 := by
  rw [cnt_eq]
  exact Nat.mod_lt _ (by decide)

private theorem bit_toNat (c : BitVec 32) (i : Nat) :
    c.getLsbD i = decide (c.toNat / 2 ^ i % 2 = 1) := by
  rw [← BitVec.testBit_toNat, Nat.testBit_eq_decide_div_mod_eq]

@[simp] theorem hasFe_or (a b : BitVec 32) : hasFe (a ||| b) = (hasFe a || hasFe b) := by
  simp [hasFe_eq]

@[simp] theorem hasCstop_or (a b : BitVec 32) :
    hasCstop (a ||| b) = (hasCstop a || hasCstop b) := by
  simp [hasCstop_eq]

@[simp] theorem hasFe_zero : hasFe 0#32 = false := by decide
@[simp] theorem hasFe_fe : hasFe descFeBit = true := by decide
@[simp] theorem hasFe_cstop : hasFe descCstopBit = false := by decide
@[simp] theorem hasFe_hi : hasFe descHiBit = false := by decide
@[simp] theorem hasCstop_zero : hasCstop 0#32 = false := by decide
@[simp] theorem hasCstop_fe : hasCstop descFeBit = false := by decide
@[simp] theorem hasCstop_cstop : hasCstop descCstopBit = true := by decide
@[simp] theorem hasCstop_hi : hasCstop descHiBit = false := by decide
@[simp] theorem cnt_zero : cnt 0#32 = 0 := by decide
@[simp] theorem cnt_cstop : cnt descCstopBit = 0 := by decide
@[simp] theorem cnt_hi : cnt descHiBit = 0 := by decide

private theorem cnt_or_flag (c flag : BitVec 32) (clear : flag &&& dmaMaxLength = 0#32) :
    cnt (c ||| flag) = cnt c := by
  rw [cnt, BitVec.and_or_distrib_right, clear, BitVec.or_zero, cnt]

@[simp] theorem cnt_or_fe (c : BitVec 32) : cnt (c ||| descFeBit) = cnt c :=
  cnt_or_flag c _ (by decide)

@[simp] theorem cnt_or_cstop (c : BitVec 32) : cnt (c ||| descCstopBit) = cnt c :=
  cnt_or_flag c _ (by decide)

@[simp] theorem cnt_hi_or (c : BitVec 32) : cnt (descHiBit ||| c) = cnt c := by
  rw [BitVec.or_comm]
  exact cnt_or_flag c _ (by decide)

@[simp] theorem hasFe_mask (c : BitVec 32) : hasFe (c &&& ~~~dmaMaxLength) = hasFe c := by
  simp [hasFe_eq, show dmaMaxLength[31] = false from rfl]

@[simp] theorem hasCstop_mask (c : BitVec 32) :
    hasCstop (c &&& ~~~dmaMaxLength) = hasCstop c := by
  simp [hasCstop_eq, show dmaMaxLength[30] = false from rfl]

@[simp] theorem cnt_mask (c : BitVec 32) : cnt (c &&& ~~~dmaMaxLength) = 0 := by
  rw [cnt, BitVec.and_assoc, BitVec.and_comm (~~~dmaMaxLength), BitVec.and_not_self]
  simp

@[simp] theorem cnt_ofNat (n : Nat) : cnt (BitVec.ofNat 32 n) = n % 536870912 := by
  rw [cnt_eq, BitVec.toNat_ofNat]
  omega

theorem hasFe_ofNat {n : Nat} (short : n < 536870912) :
    hasFe (BitVec.ofNat 32 n) = false := by
  rw [hasFe_eq, bit_toNat, BitVec.toNat_ofNat, decide_eq_false_iff_not]
  omega

theorem hasCstop_ofNat {n : Nat} (short : n < 536870912) :
    hasCstop (BitVec.ofNat 32 n) = false := by
  rw [hasCstop_eq, bit_toNat, BitVec.toNat_ofNat, decide_eq_false_iff_not]
  omega

/-! Adding to the count of a control word leaves its flags alone. -/

section Add

variable (c : BitVec 32) (n : Nat) (room : cnt c + n < 536870912)
include room

theorem hasFe_add : hasFe (c + BitVec.ofNat 32 n) = hasFe c := by
  have := c.isLt
  rw [cnt_eq] at room
  rw [hasFe_eq, hasFe_eq, bit_toNat, bit_toNat, BitVec.toNat_add, BitVec.toNat_ofNat,
    decide_eq_decide]
  omega

theorem hasCstop_add : hasCstop (c + BitVec.ofNat 32 n) = hasCstop c := by
  have := c.isLt
  rw [cnt_eq] at room
  rw [hasCstop_eq, hasCstop_eq, bit_toNat, bit_toNat, BitVec.toNat_add, BitVec.toNat_ofNat,
    decide_eq_decide]
  omega

theorem cnt_add : cnt (c + BitVec.ofNat 32 n) = cnt c + n := by
  have := c.isLt
  rw [cnt_eq] at room ⊢
  rw [cnt_eq, BitVec.toNat_add, BitVec.toNat_ofNat]
  omega

end Add

/-! ### Frames of the rings -/

/-- `fscc_timestamp`, a `struct timespec64`. -/
structure Timestamp where
  tvSec : BitVec 64
  tvNsec : BitVec 64
deriving DecidableEq, Repr

/-- `timestamp_is_empty`. -/
def Timestamp.isEmpty (t : Timestamp) : Bool := t.tvSec == 0#64 && t.tvNsec == 0#64

/-- `clear_timestamp`. -/
def Timestamp.clear : Timestamp := ⟨0#64, 0#64⟩

/-- The eight bytes of a 64-bit field in memory. -/
def bytesOf64 (x : BitVec 64) : List UInt8 :=
  (List.range 8).map fun i => UInt8.ofNat (x.toNat / 256 ^ i)

/-- The bytes that `memcpy` takes from a timestamp. -/
def Timestamp.bytes (t : Timestamp) : List UInt8 := bytesOf64 t.tvSec ++ bytesOf64 t.tvNsec

/-- `sizeof(fscc_timestamp)`. -/
def sizeofTimestamp : Nat := 16

@[simp] theorem Timestamp.length_bytes (t : Timestamp) : t.bytes.length = sizeofTimestamp := by
  simp [Timestamp.bytes, bytesOf64, sizeofTimestamp]

/-- `struct fscc_descriptor`. -/
structure FsccDescriptor where
  control : BitVec 32
  dataCount : Nat
  nextDescriptor : BitVec 32
deriving DecidableEq, Repr, Inhabited

/-- `struct io_frame`. -/
structure IoFrame where
  desc : FsccDescriptor
  descPhysicalAddress : BitVec 32
  buffer : List UInt8
  timestamp : Timestamp
deriving DecidableEq, Repr

instance : Inhabited IoFrame := ⟨⟨⟨0#32, 0, 0#32⟩, 0#32, [], .clear⟩⟩

namespace IoFrame

variable (f : IoFrame)

def fe : Bool := hasFe f.desc.control
def cstop : Bool := hasCstop f.desc.control
def count : Nat := cnt f.desc.control

def setControl (c : BitVec 32) : IoFrame := { f with desc := { f.desc with control := c } }
def setDataCount (n : Nat) : IoFrame := { f with desc := { f.desc with dataCount := n } }
def setBuffer (b : List UInt8) : IoFrame := { f with buffer := b }
def setTimestamp (t : Timestamp) : IoFrame := { f with timestamp := t }

variable (c : BitVec 32) (n : Nat) (b : List UInt8) (t : Timestamp)

@[simp] theorem fe_setControl : (f.setControl c).fe = hasFe c := rfl
@[simp] theorem cstop_setControl : (f.setControl c).cstop = hasCstop c := rfl
@[simp] theorem count_setControl : (f.setControl c).count = cnt c := rfl
@[simp] theorem control_setControl : (f.setControl c).desc.control = c := rfl
@[simp] theorem dataCount_setControl : (f.setControl c).desc.dataCount = f.desc.dataCount := rfl
@[simp] theorem buffer_setControl : (f.setControl c).buffer = f.buffer := rfl
@[simp] theorem timestamp_setControl : (f.setControl c).timestamp = f.timestamp := rfl
@[simp] theorem fe_setDataCount : (f.setDataCount n).fe = f.fe := rfl
@[simp] theorem cstop_setDataCount : (f.setDataCount n).cstop = f.cstop := rfl
@[simp] theorem count_setDataCount : (f.setDataCount n).count = f.count := rfl
@[simp] theorem dataCount_setDataCount : (f.setDataCount n).desc.dataCount = n := rfl
@[simp] theorem buffer_setDataCount : (f.setDataCount n).buffer = f.buffer := rfl
@[simp] theorem timestamp_setDataCount : (f.setDataCount n).timestamp = f.timestamp := rfl
@[simp] theorem fe_setBuffer : (f.setBuffer b).fe = f.fe := rfl
@[simp] theorem cstop_setBuffer : (f.setBuffer b).cstop = f.cstop := rfl
@[simp] theorem count_setBuffer : (f.setBuffer b).count = f.count := rfl
@[simp] theorem dataCount_setBuffer : (f.setBuffer b).desc.dataCount = f.desc.dataCount := rfl
@[simp] theorem buffer_setBuffer : (f.setBuffer b).buffer = b := rfl
@[simp] theorem timestamp_setBuffer : (f.setBuffer b).timestamp = f.timestamp := rfl
@[simp] theorem fe_setTimestamp : (f.setTimestamp t).fe = f.fe := rfl
@[simp] theorem cstop_setTimestamp : (f.setTimestamp t).cstop = f.cstop := rfl
@[simp] theorem count_setTimestamp : (f.setTimestamp t).count = f.count := rfl
@[simp] theorem dataCount_setTimestamp : (f.setTimestamp t).desc.dataCount = f.desc.dataCount := rfl
@[simp] theorem buffer_setTimestamp : (f.setTimestamp t).buffer = f.buffer := rfl
@[simp] theorem timestamp_setTimestamp : (f.setTimestamp t).timestamp = t := rfl

end IoFrame

/-- `memcpy(dst + off, src, ...)` for an offset inside `dst`. Writing past the end of
`dst` shows as a longer list. -/
def memcpyAt (dst : List UInt8) (off : Nat) (src : List UInt8) : List UInt8 :=
  dst.take off ++ src ++ dst.drop (off + src.length)

/-- The `n` bytes that a copy takes from `src`. What lies past the end of `src` is not
determined by the source; here it is zero. -/
def bytesAt (src : List UInt8) (n : Nat) : List UInt8 :=
  src.take n ++ List.replicate (n - src.length) 0

@[simp] theorem length_bytesAt (src : List UInt8) (n : Nat) : (bytesAt src n).length = n := by
  simp [bytesAt]
  omega

theorem bytesAt_eq {src : List UInt8} {n : Nat} (le : n ≤ src.length) :
    bytesAt src n = src.take n := by
  simp [bytesAt, Nat.sub_eq_zero_of_le le]

theorem length_memcpyAt {dst src : List UInt8} {off : Nat} (fits : off + src.length ≤ dst.length) :
    (memcpyAt dst off src).length = dst.length := by
  simp [memcpyAt]
  omega

/-- A copy to the end of what has been written so far appends to it. -/
theorem take_memcpyAt {dst : List UInt8} {off : Nat} (inside : off ≤ dst.length)
    (src : List UInt8) :
    (memcpyAt dst off src).take (off + src.length) = dst.take off ++ src := by
  have size : (dst.take off ++ src).length = off + src.length := by
    simp [Nat.min_eq_left inside]
  rw [memcpyAt, List.take_append_of_le_length (by omega), ← size, List.take_length]

/-- `struct fscc_memory`, with what `fscc_io_initialize` is asked for: buffers are whole
words and a ring's contents fit the 29-bit count of a control word. -/
structure Memory where
  rxNum : Nat
  rxSize : Nat
  txNum : Nat
  txSize : Nat
  rxNum_pos : 0 < rxNum
  rxSize_pos : 0 < rxSize
  rxSize_words : rxSize % 4 = 0
  rx_fits : rxNum * rxSize < 536870912
  txNum_pos : 0 < txNum
  txSize_pos : 0 < txSize
  txSize_words : txSize % 4 = 0
  tx_fits : txNum * txSize < 536870912

/-- The sizes of `config.h`. -/
def Memory.default : Memory where
  rxNum := 200
  rxSize := 256
  txNum := 200
  txSize := 256
  rxNum_pos := by decide
  rxSize_pos := by decide
  rxSize_words := by decide
  rx_fits := by decide
  txNum_pos := by decide
  txSize_pos := by decide
  txSize_words := by decide
  tx_fits := by decide

/-- Two descriptors each way, of two words and of one. -/
def Memory.small : Memory where
  rxNum := 2
  rxSize := 8
  txNum := 2
  txSize := 4
  rxNum_pos := by decide
  rxSize_pos := by decide
  rxSize_words := by decide
  rx_fits := by decide
  txNum_pos := by decide
  txSize_pos := by decide
  txSize_words := by decide
  tx_fits := by decide

/-- A ring of one descriptor of two words. -/
def Memory.single : Memory where
  rxNum := 1
  rxSize := 8
  txNum := 1
  txSize := 4
  rxNum_pos := by decide
  rxSize_pos := by decide
  rxSize_words := by decide
  rx_fits := by decide
  txNum_pos := by decide
  txSize_pos := by decide
  txSize_words := by decide
  tx_fits := by decide

theorem Memory.rxSize_le (mem : Memory) : mem.rxSize ≤ mem.rxNum * mem.rxSize :=
  Nat.le_mul_of_pos_left _ mem.rxNum_pos

theorem Memory.txSize_le (mem : Memory) : mem.txSize ≤ mem.txNum * mem.txSize :=
  Nat.le_mul_of_pos_left _ mem.txNum_pos

end Fscc
