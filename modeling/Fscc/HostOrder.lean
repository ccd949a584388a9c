import Fscc.Clock

/-!
# Bulk transfers and the byte order of the host

`fscc_card_set_register_rep` and `fscc_card_get_register_rep` in the little-endian build and in the
`__BIG_ENDIAN` one, which turns the whole buffer round. A turned buffer is the same bytes in order
only for a single word whose bytes the kernel turns round again.
-/

namespace Fscc

/-! ### Hosts -/

/-- The byte order of the host. On a big-endian one `ioread32_rep` and `iowrite32_rep` keep the
bytes of a word in memory order, or swap them. -/
inductive Host where
  | little
  | big (swaps : Bool)
deriving DecidableEq, Repr

/-- A word, the other way round. -/
def Word.swap (w : Word) : Word := ⟨w.b3, w.b2, w.b1, w.b0⟩

namespace Host

/-- Whether the bytes of a word are swapped by `ioread32_rep` and `iowrite32_rep`. -/
def swaps : Host → Bool
  | .little => false
  | .big swaps => swaps

/-- A word as they move it. -/
def repWord (host : Host) (w : Word) : Word := if host.swaps then w.swap else w

/-- The `__u32` whose bytes in memory are those of a word. -/
def load : Host → Word → BitVec 32
  | .little, w => w.value
  | .big _, w => w.swap.value

/-- The bytes in memory of a `__u32`. -/
def store : Host → BitVec 32 → Word
  | .little, value => Word.ofValue value
  | .big _, value => (Word.ofValue value).swap

end Host

/-! ### `fscc_card_set_register_rep` -/

/-- The loop that fills `reversed_data`, where memory held `heap`. -/
def reversedData (data heap : List UInt8) (byteCount : Nat) : List UInt8 :=
  (List.range byteCount).foldl
    (fun reversed i => reversed.set i (data.getD (byteCount - i - 1) 0)) heap

/-- `outgoing_data`. -/
def outgoingData (host : Host) (data heap : List UInt8) (byteCount : Nat) : List UInt8 :=
  match host with
  | .little => data
  | .big _ => reversedData data heap byteCount

/-- `iowrite32_rep`. -/
def iowrite32RepOn (host : Host) (bar offset : Nat) : Nat → List UInt8 → List BusWrite
  | 0, _ => []
  | chunks + 1, data =>
    .word bar offset (host.repWord (charsToU32 data)) ::
      iowrite32RepOn host bar offset chunks (data.drop 4)

/-- `fscc_card_set_register_rep`, its `kmalloc` finding memory that holds `heap`. `iowrite32`
gives the device a value with its lowest byte first. -/
def cardSetRegisterRepOn (host : Host) (bar offset : Nat) (data heap : List UInt8)
    (byteCount : Nat) : List BusWrite :=
  if byteCount = 0 then []
  else
    let leftoverCount := byteCount % 4
    let chunks := (byteCount - leftoverCount) / 4
    let outgoing := outgoingData host data heap byteCount
    iowrite32RepOn host bar offset chunks outgoing ++
      if leftoverCount = 0 then []
      else [.word bar offset (Word.ofValue
        (host.load (charsToU32 (outgoing.drop (byteCount - leftoverCount)))))]

/-- The bytes that stores give the device. -/
def deviceBytes (ws : List BusWrite) : List UInt8 :=
  ws.flatMap fun w =>
    match w with
    | .register _ _ value => (Word.ofValue value).bytes
    | .word _ _ data => data.bytes

/-! ### `fscc_card_get_register_rep` -/

variable {δ : Type} (dev : Device δ)

/-- `ioread32_rep`. -/
def ioread32RepOn (host : Host) : Nat → δ → List UInt8 × δ
  | 0, d => ([], d)
  | chunks + 1, d =>
    let word := dev.readFifo d
    let rest := ioread32RepOn host chunks word.2
    ((host.repWord word.1).bytes ++ rest.1, rest.2)

/-- The loop that turns the buffer round. -/
def swapEnds (byteCount : Nat) (buf : List UInt8) : List UInt8 :=
  (List.range (byteCount / 2)).foldl
    (fun buf i => (buf.set i (buf.getD (byteCount - i - 1) 0)).set (byteCount - i - 1)
      (buf.getD i 0)) buf

/-- `fscc_card_get_register_rep`: the bytes it stores. `ioread32` takes the first byte of a word
for the lowest. -/
def cardGetRegisterRepOn (host : Host) (byteCount : Nat) (d : δ) : List UInt8 × δ :=
  let leftoverCount := byteCount % 4
  let chunks := (byteCount - leftoverCount) / 4
  let whole := ioread32RepOn dev host chunks d
  let read :=
    if leftoverCount = 0 then whole
    else
      let incomingData := dev.readFifo whole.2
      (whole.1 ++ (host.store incomingData.1.value).bytes.take leftoverCount, incomingData.2)
  match host with
  | .little => read
  | .big _ => (swapEnds byteCount read.1, read.2)

/-! ### Little-endian -/

@[simp] theorem Word.ofValue_value (w : Word) : Word.ofValue w.value = w := by
  have lt0 := w.b0.toNat_lt
  have lt1 := w.b1.toNat_lt
  have lt2 := w.b2.toNat_lt
  have lt3 := w.b3.toNat_lt
  cases w
  simp only [Word.value, Word.ofValue, BitVec.toNat_ofNat, Word.mk.injEq, ← UInt8.toNat_inj,
    UInt8.toNat_ofNat']
  dsimp only at lt0 lt1 lt2 lt3
  omega

theorem cardSetRegisterRepOn_little (bar offset : Nat) (data heap : List UInt8) (byteCount : Nat) :
    cardSetRegisterRepOn .little bar offset data heap byteCount =
      cardSetRegisterRep bar offset data byteCount := by
  have rep : ∀ (chunks : Nat) (data : List UInt8),
      iowrite32RepOn .little bar offset chunks data = iowrite32Rep bar offset chunks data := by
    intro chunks
    induction chunks with
    | zero => intro data; rfl
    | succ chunks ih => intro data; rw [iowrite32RepOn, iowrite32Rep, ih]; rfl
  simp only [cardSetRegisterRepOn, cardSetRegisterRep, outgoingData, rep, Host.load,
    Word.ofValue_value]

private theorem cardGetRegisterRepOn_little (byteCount : Nat) (d : δ) :
    cardGetRegisterRepOn dev .little byteCount d = cardGetRegisterRep dev byteCount d := by
  have rep : ∀ (chunks : Nat) (d : δ),
      ioread32RepOn dev .little chunks d = ioread32Rep dev chunks d := by
    intro chunks
    induction chunks with
    | zero => intro d; rfl
    | succ chunks ih => intro d; rw [ioread32RepOn, ioread32Rep, ih]; rfl
  simp only [cardGetRegisterRepOn, cardGetRegisterRep, rep, Host.store, Word.ofValue_value]

@[simp] theorem charsToU32_bytes (w : Word) : charsToU32 w.bytes = w := rfl

/-! ### The loops -/

/-- A loop that sets the first places of a list one after the other. -/
private theorem foldl_set {α : Type} (g : Nat → α) (l : List α) (n : Nat) (le : n ≤ l.length) :
    (List.range n).foldl (fun l i => l.set i (g i)) l = (List.range n).map g ++ l.drop n := by
  induction n with
  | zero => rfl
  | succ n ih =>
    rw [List.range_succ, List.foldl_append, ih (by omega), List.foldl_cons, List.foldl_nil,
      List.map_append, List.set_append_right _ _ (by simp),
      List.drop_eq_getElem_cons (by omega : n < l.length), List.length_map, List.length_range,
      Nat.sub_self, List.set_cons_zero, List.append_assoc]
    rfl

/-- `reversed_data` holds the buffer turned round, and memory goes on behind it. -/
private theorem reversedData_eq {data heap : List UInt8} {n : Nat} (inside : n ≤ data.length)
    (block : n ≤ heap.length) :
    reversedData data heap n = (data.take n).reverse ++ heap.drop n := by
  rw [reversedData, foldl_set _ _ _ block]
  congr 1
  apply List.ext_getElem
  · simp [inside]
  · intro i lt _
    have small : i < n := by simpa using lt
    rw [List.getElem_map, List.getElem_range, List.getElem_reverse, List.getElem_take,
      List.getD_eq_getElem?_getD, List.getElem?_eq_getElem (by omega), Option.getD_some]
    congr 1
    rw [List.length_take]
    omega

/-- After `k` turns the first and the last `k` bytes have changed places. -/
private theorem getElem?_swapEnds (buf : List UInt8) (k : Nat) (le : k ≤ buf.length / 2) :
    let turned := (List.range k).foldl (fun buf' i => (buf'.set i
      (buf'.getD (buf.length - i - 1) 0)).set (buf.length - i - 1) (buf'.getD i 0)) buf
    turned.length = buf.length ∧ ∀ j < buf.length, turned[j]? =
      if j < k ∨ buf.length - k ≤ j then buf[buf.length - 1 - j]? else buf[j]? := by
  -- Induction on the exchanges made: what both ends have exchanged is turned, the middle is not.
  induction k with
  | zero =>
    refine ⟨rfl, fun j lt => ?_⟩
    rw [if_neg (by omega)]
    rfl
  | succ k ih =>
    obtain ⟨length, places⟩ := ih (by omega)
    rw [List.range_succ, List.foldl_append, List.foldl_cons, List.foldl_nil]
    generalize (List.range k).foldl _ buf = turned at length places
    have low : turned[k]? = buf[k]? := by
      rw [places k (by omega), if_neg (by omega)]
    have high : turned[buf.length - k - 1]? = buf[buf.length - k - 1]? := by
      rw [places _ (by omega), if_neg (by omega)]
    refine ⟨by simp [length], fun j lt => ?_⟩
    rw [List.getElem?_set, List.getElem?_set, List.length_set, length,
      List.getD_eq_getElem?_getD, List.getD_eq_getElem?_getD, low, high,
      List.getElem?_eq_getElem (by omega : k < buf.length),
      List.getElem?_eq_getElem (by omega : buf.length - k - 1 < buf.length), places j lt]
    -- The exchange that is made now moves two bytes and spares the others.
    by_cases first : j = k
    · subst first
      rw [if_neg (by omega), if_pos rfl, if_pos (by omega), if_pos (by omega),
        List.getElem?_eq_getElem (by omega)]
      simp [Nat.sub_right_comm]
    · by_cases last : buf.length - k - 1 = j
      · subst last
        rw [if_pos rfl, if_pos (by omega), if_pos (by omega)]
        rw [show buf.length - 1 - (buf.length - k - 1) = k by omega,
          List.getElem?_eq_getElem (by omega)]
        rfl
      · rw [if_neg last, if_neg (Ne.symm first)]
        split <;> split <;> first | rfl | omega

private theorem swapEnds_eq (buf : List UInt8) : swapEnds buf.length buf = buf.reverse := by
  obtain ⟨length, places⟩ := getElem?_swapEnds buf (buf.length / 2) (le_refl _)
  apply List.ext_getElem?
  intro j
  by_cases inside : j < buf.length
  · rw [List.getElem?_reverse inside]
    refine (places j inside).trans ?_
    split
    next => rfl
    next middle =>
      have same : buf.length - 1 - j = j := by omega
      rw [same]
  · have turned : (swapEnds buf.length buf).length = buf.length := length
    rw [List.getElem?_eq_none (by omega), List.getElem?_eq_none (by rw [List.length_reverse]; omega)]

/-! ### What is where -/

/-- The place in memory, or in the device's words, of the byte at place `i` of a transfer. The last
word is turned round if it is not whole. -/
def place (swaps : Bool) (byteCount i : Nat) : Nat :=
  if swaps ∨ byteCount - byteCount % 4 ≤ i then 4 * (i / 4) + (3 - i % 4) else i

/-- Of `bytes` the first `byteCount`, moved word by word, read the same backwards. -/
def Mirrored (swaps : Bool) (byteCount : Nat) (bytes : List UInt8) : Prop :=
  ∀ i < byteCount, bytes.getD (place swaps byteCount i) 0 = bytes.getD (byteCount - 1 - i) 0

instance decidableMirrored (swaps : Bool) (byteCount : Nat) (bytes : List UInt8) :
    Decidable (Mirrored swaps byteCount bytes) :=
  inferInstanceAs (Decidable (∀ i < byteCount, _))

private theorem take_eq_take_iff {a b : List UInt8} {n : Nat} (ha : n ≤ a.length) (hb : n ≤ b.length) :
    a.take n = b.take n ↔ ∀ i < n, a.getD i 0 = b.getD i 0 := by
  constructor
  · intro same i lt
    have here := congrArg (fun l : List UInt8 => l[i]?) same
    simp only [List.getElem?_take_of_lt lt] at here
    rw [List.getD_eq_getElem?_getD, List.getD_eq_getElem?_getD, here]
  · intro same
    apply List.ext_getElem (by simp [ha, hb])
    intro i lt _
    have small : i < n := by
      rw [List.length_take] at lt
      omega
    have here := same i small
    rw [List.getD_eq_getElem?_getD, List.getD_eq_getElem?_getD,
      List.getElem?_eq_getElem (by omega), List.getElem?_eq_getElem (by omega)] at here
    rw [List.getElem_take, List.getElem_take]
    exact here

private theorem getD_drop (l : List UInt8) (n i : Nat) : (l.drop n).getD i 0 = l.getD (n + i) 0 := by
  rw [List.getD_eq_getElem?_getD, List.getD_eq_getElem?_getD, List.getElem?_drop]

private theorem getD_append (a b : List UInt8) (i : Nat) :
    (a ++ b).getD i 0 = if i < a.length then a.getD i 0 else b.getD (i - a.length) 0 := by
  rw [List.getD_eq_getElem?_getD, List.getElem?_append, List.getD_eq_getElem?_getD,
    List.getD_eq_getElem?_getD]
  split <;> rfl

/-- A word of memory as a repeated transfer moves it. -/
private theorem getD_repWord (host : Host) (bytes : List UInt8) {i : Nat} (lt : i < 4) :
    (host.repWord (charsToU32 bytes)).bytes.getD i 0 =
      bytes.getD (if host.swaps then 3 - i else i) 0 := by
  rw [Host.repWord]
  obtain rfl | rfl | rfl | rfl : i = 0 ∨ i = 1 ∨ i = 2 ∨ i = 3 := by omega
  all_goals cases host.swaps <;> rfl

/-- A word of memory as a value moves it. -/
private theorem getD_swap (bytes : List UInt8) {i : Nat} (lt : i < 4) :
    (charsToU32 bytes).swap.bytes.getD i 0 = bytes.getD (3 - i) 0 := by
  obtain rfl | rfl | rfl | rfl : i = 0 ∨ i = 1 ∨ i = 2 ∨ i = 3 := by omega
  all_goals rfl

private theorem place_whole {swaps : Bool} {n i : Nat} (whole : i < n - n % 4) :
    place swaps n i = if swaps then 4 * (i / 4) + (3 - i % 4) else i := by
  rw [place]
  cases swaps with
  | false => rw [if_neg (by simp only [Bool.false_eq_true, false_or]; omega)]; rfl
  | true => simp

private theorem place_left {swaps : Bool} {n i : Nat} (left : n - n % 4 ≤ i) (lt : i < n) :
    place swaps n i = n - n % 4 + (3 - (i - (n - n % 4))) := by
  rw [place, if_pos (.inr left)]
  omega

/-! ### Whole words -/

section Set

variable (bar offset : Nat)

private theorem deviceBytes_append (a b : List BusWrite) :
    deviceBytes (a ++ b) = deviceBytes a ++ deviceBytes b := List.flatMap_append

/-- Whole words reach the device in their order. -/
private theorem getD_iowrite32RepOn (host : Host) (chunks : Nat) (bytes : List UInt8) :
    (deviceBytes (iowrite32RepOn host bar offset chunks bytes)).length = 4 * chunks ∧
      ∀ i < 4 * chunks, (deviceBytes (iowrite32RepOn host bar offset chunks bytes)).getD i 0 =
        bytes.getD (if host.swaps then 4 * (i / 4) + (3 - i % 4) else i) 0 := by
  -- Induction on the words: the first is in place, and the rest begins four bytes later.
  induction chunks generalizing bytes with
  | zero => exact ⟨rfl, fun i lt => by omega⟩
  | succ chunks ih =>
    obtain ⟨length, places⟩ := ih (bytes.drop 4)
    have first : deviceBytes (iowrite32RepOn host bar offset (chunks + 1) bytes) =
        (host.repWord (charsToU32 bytes)).bytes ++
          deviceBytes (iowrite32RepOn host bar offset chunks (bytes.drop 4)) := rfl
    rw [first]
    refine ⟨by rw [List.length_append, length, Word.length_bytes]; omega, fun i lt => ?_⟩
    rw [getD_append, Word.length_bytes]
    split
    next small =>
      rw [getD_repWord host bytes small]
      congr 1
      split <;> omega
    next later =>
      rw [places _ (by omega), getD_drop]
      congr 1
      split <;> omega

/-- What the device gets is the turned buffer, word by word. -/
private theorem cardSetRegisterRepOn_big (swaps : Bool) (data heap : List UInt8) (n : Nat) :
    let bytes := deviceBytes (cardSetRegisterRepOn (.big swaps) bar offset data heap n)
    n ≤ bytes.length ∧
      ∀ i < n, bytes.getD i 0 = (reversedData data heap n).getD (place swaps n i) 0 := by
  -- The whole words go out together, and what is left of the buffer as a word of its own.
  have whole : 4 * ((n - n % 4) / 4) = n - n % 4 := by omega
  obtain ⟨length, places⟩ := getD_iowrite32RepOn bar offset (.big swaps) ((n - n % 4) / 4)
    (reversedData data heap n)
  rw [whole] at length places
  change ∀ i < n - n % 4, _ =
    List.getD _ (if swaps then 4 * (i / 4) + (3 - i % 4) else i) 0 at places
  by_cases none_ : n = 0
  · subst none_
    exact ⟨Nat.zero_le _, fun i lt => by omega⟩
  · simp only [cardSetRegisterRepOn, if_neg none_, outgoingData, deviceBytes_append]
    by_cases left : n % 4 = 0
    · rw [if_pos left, List.length_append, length]
      refine ⟨by omega, fun i lt => ?_⟩
      rw [getD_append, if_pos (by omega), places i (by omega), place_whole (by omega)]
    -- The value of the last word is swapped on its way, and its bytes stand in reverse.
    · rw [if_neg left]
      have last : deviceBytes [.word bar offset (Word.ofValue ((Host.big swaps).load
          (charsToU32 ((reversedData data heap n).drop (n - n % 4)))))] =
          (charsToU32 ((reversedData data heap n).drop (n - n % 4))).swap.bytes := by
        rw [Host.load, Word.ofValue_value]
        rfl
      rw [last, List.length_append, length, Word.length_bytes]
      refine ⟨by omega, fun i lt => ?_⟩
      rw [getD_append, length]
      split
      next small => rw [places i small, place_whole small]
      next later =>
        rw [getD_swap _ (by omega), getD_drop, place_left (by omega) lt]

/-- In the little-endian build it gets the buffer's bytes in order. -/
private theorem cardSetRegisterRepOn_little_take (data heap : List UInt8) {n : Nat}
    (inside : n ≤ data.length) :
    (deviceBytes (cardSetRegisterRepOn .little bar offset data heap n)).take n = data.take n := by
  have whole : 4 * ((n - n % 4) / 4) = n - n % 4 := by omega
  obtain ⟨length, places⟩ := getD_iowrite32RepOn bar offset .little ((n - n % 4) / 4) data
  rw [whole] at length places
  by_cases none_ : n = 0
  · rw [none_, List.take_zero, List.take_zero]
  · simp only [cardSetRegisterRepOn, if_neg none_, outgoingData, deviceBytes_append]
    by_cases left : n % 4 = 0
    · rw [if_pos left, take_eq_take_iff (by rw [List.length_append, length]; omega) inside]
      intro i lt
      rw [getD_append, if_pos (by omega), places i (by omega)]
      rfl
    -- Of the last word only the first bytes are the buffer's.
    · rw [if_neg left]
      have last : deviceBytes [.word bar offset (Word.ofValue (Host.little.load
          (charsToU32 (data.drop (n - n % 4)))))] =
          (charsToU32 (data.drop (n - n % 4))).bytes := by
        rw [Host.load, Word.ofValue_value]
        rfl
      rw [last, take_eq_take_iff
        (by rw [List.length_append, length, Word.length_bytes]; omega) inside]
      intro i lt
      rw [getD_append, length]
      split
      next small => exact places i small
      next later =>
        have word := getD_repWord .little (data.drop (n - n % 4)) (i := i - (n - n % 4)) (by omega)
        refine word.trans ?_
        rw [getD_drop]
        congr 1
        simp only [Host.swaps, Bool.false_eq_true, if_false]
        omega

end Set

section Get

/-- A repeated read of more words. -/
private theorem ioread32Rep_add (a b : Nat) (d : δ) :
    (ioread32Rep dev (a + b) d).1 =
      (ioread32Rep dev a d).1 ++ (ioread32Rep dev b (ioread32Rep dev a d).2).1 := by
  induction a generalizing d with
  | zero => rw [Nat.zero_add]; rfl
  | succ a ih =>
    rw [Nat.succ_add, ioread32Rep, ioread32Rep]
    dsimp only
    rw [ih, List.append_assoc]

/-- Whole words are stored in their order. -/
private theorem getD_ioread32RepOn (host : Host) (chunks : Nat) (d : δ) :
    (ioread32RepOn dev host chunks d).2 = (ioread32Rep dev chunks d).2 ∧
      (ioread32RepOn dev host chunks d).1.length = 4 * chunks ∧
      ∀ i < 4 * chunks, (ioread32RepOn dev host chunks d).1.getD i 0 =
        (ioread32Rep dev chunks d).1.getD
          (if host.swaps then 4 * (i / 4) + (3 - i % 4) else i) 0 := by
  -- Induction on the words read. The device is the same in every build.
  induction chunks generalizing d with
  | zero => exact ⟨rfl, rfl, fun i lt => by omega⟩
  | succ chunks ih =>
    obtain ⟨device, length, places⟩ := ih (dev.readFifo d).2
    rw [ioread32RepOn, ioread32Rep]
    dsimp only
    refine ⟨device, by rw [List.length_append, length, Word.length_bytes]; omega, fun i lt => ?_⟩
    rw [getD_append, getD_append, Word.length_bytes, Word.length_bytes]
    have word := getD_repWord host (dev.readFifo d).1.bytes (i := i)
    rw [charsToU32_bytes] at word
    split
    next small =>
      rw [word small]
      split
      next => rw [if_pos (by omega)]; congr 1; omega
      next => rfl
    next later =>
      rw [places _ (by omega)]
      split
      next => rw [if_neg (by omega)]; congr 1; omega
      next => rfl

/-- What is stored before the buffer is turned round, word by word. -/
private theorem getD_read (swaps : Bool) (n : Nat) (d : δ) :
    let whole := ioread32RepOn dev (.big swaps) ((n - n % 4) / 4) d
    let read := if n % 4 = 0 then whole
      else (whole.1 ++ ((Host.big swaps).store (dev.readFifo whole.2).1.value).bytes.take (n % 4),
        (dev.readFifo whole.2).2)
    read.1.length = n ∧ ∀ i < n,
      read.1.getD i 0 = (ioread32Rep dev ((n + 3) / 4) d).1.getD (place swaps n i) 0 := by
  have whole : 4 * ((n - n % 4) / 4) = n - n % 4 := by omega
  obtain ⟨device, length, places⟩ := getD_ioread32RepOn dev (.big swaps) ((n - n % 4) / 4) d
  rw [whole] at length places
  change ∀ i < n - n % 4, _ =
    List.getD _ (if swaps then 4 * (i / 4) + (3 - i % 4) else i) 0 at places
  dsimp only
  by_cases left : n % 4 = 0
  · rw [if_pos left]
    have words : (n + 3) / 4 = (n - n % 4) / 4 := by omega
    refine ⟨by rw [length]; omega, fun i lt => ?_⟩
    rw [places i (by omega), words, place_whole (by omega)]
  -- A last word is read for the bytes that are left, whatever the build.
  · rw [if_neg left, device]
    have words : (n + 3) / 4 = (n - n % 4) / 4 + 1 := by omega
    have more : (ioread32Rep dev 1 (ioread32Rep dev ((n - n % 4) / 4) d).2).1 =
        (dev.readFifo (ioread32Rep dev ((n - n % 4) / 4) d).2).1.bytes := rfl
    have before := length_ioread32Rep dev ((n - n % 4) / 4) d
    rw [words, ioread32Rep_add, more]
    generalize (dev.readFifo (ioread32Rep dev ((n - n % 4) / 4) d).2).1 = word
    have last : (Host.big swaps).store word.value = word.swap := by
      rw [Host.store, Word.ofValue_value]
    rw [last]
    constructor
    · rw [List.length_append, length, List.length_take, Word.length_bytes]
      omega
    · intro i lt
      rw [getD_append, length, getD_append, before, whole]
      split
      next small =>
        have inside : place swaps n i < n - n % 4 := by
          rw [place_whole small]
          split <;> omega
        rw [places i small, if_pos inside, place_whole small]
      next later =>
        have swapped := getD_swap word.bytes (i := i - (n - n % 4)) (by omega)
        rw [charsToU32_bytes] at swapped
        rw [place_left (by omega) lt, if_neg (by omega), List.getD_eq_getElem?_getD,
          List.getElem?_take_of_lt (by omega), ← List.getD_eq_getElem?_getD, swapped]
        congr 1
        omega

/-- In the little-endian build the device's bytes are stored in order. -/
private theorem cardGetRegisterRep_take (n : Nat) (d : δ) :
    (cardGetRegisterRep dev n d).1 = (ioread32Rep dev ((n + 3) / 4) d).1.take n := by
  rw [cardGetRegisterRep]
  dsimp only
  by_cases left : n % 4 = 0
  · have words : (n - n % 4) / 4 = (n + 3) / 4 := by omega
    rw [if_pos left, words, List.take_of_length_le]
    rw [length_ioread32Rep]
    omega
  · have words : (n + 3) / 4 = (n - n % 4) / 4 + 1 := by omega
    have more : (ioread32Rep dev 1 (ioread32Rep dev ((n - n % 4) / 4) d).2).1 =
        (dev.readFifo (ioread32Rep dev ((n - n % 4) / 4) d).2).1.bytes := rfl
    have before := length_ioread32Rep dev ((n - n % 4) / 4) d
    have rest : n - 4 * ((n - n % 4) / 4) = n % 4 := by omega
    rw [if_neg left, words, ioread32Rep_add, more, List.take_append, before, rest,
      List.take_of_length_le (l := (ioread32Rep dev ((n - n % 4) / 4) d).1) (by omega)]

end Get

/-! ### The two builds -/

/-- What the two builds give the device is the same just when the turned buffer reads the same
backwards. -/
private theorem set_mirrored (swaps : Bool) (bar offset n : Nat) {data heap : List UInt8}
    (inside : n ≤ data.length) (block : n ≤ heap.length) :
    (deviceBytes (cardSetRegisterRepOn (.big swaps) bar offset data heap n)).take n =
        (deviceBytes (cardSetRegisterRepOn .little bar offset data heap n)).take n ↔
      Mirrored swaps n ((data.take n).reverse ++ heap.drop n) := by
  obtain ⟨enough, places⟩ := cardSetRegisterRepOn_big bar offset swaps data heap n
  rw [cardSetRegisterRepOn_little_take bar offset data heap inside, take_eq_take_iff enough inside]
  rw [reversedData_eq inside block] at places
  apply forall₂_congr
  intro i lt
  have mirror : ((data.take n).reverse ++ heap.drop n).getD (n - 1 - i) 0 = data.getD i 0 := by
    have size : (data.take n).length = n := List.length_take_of_le inside
    rw [getD_append, List.length_reverse, size, if_pos (by omega), List.getD_eq_getElem?_getD,
      List.getElem?_reverse (by omega), size, List.getElem?_take_of_lt (by omega),
      ← List.getD_eq_getElem?_getD]
    congr 1
    omega
  rw [places i lt, mirror]

/-- What they store is the same just when the device's words read the same backwards. -/
private theorem get_mirrored (swaps : Bool) (n : Nat) (d : δ) :
    (cardGetRegisterRepOn dev (.big swaps) n d).1 = (cardGetRegisterRepOn dev .little n d).1 ↔
      Mirrored swaps n (ioread32Rep dev ((n + 3) / 4) d).1 := by
  obtain ⟨length, places⟩ := getD_read dev swaps n d
  have words := length_ioread32Rep dev ((n + 3) / 4) d
  rw [cardGetRegisterRepOn_little, cardGetRegisterRep_take, cardGetRegisterRepOn]
  dsimp only at length places ⊢
  generalize (if n % 4 = 0 then _ else _ : List UInt8 × δ) = read at length places ⊢
  generalize (ioread32Rep dev ((n + 3) / 4) d).1 = bytes at words places ⊢
  obtain ⟨read, d'⟩ := read
  dsimp only at length places ⊢
  subst length
  rw [swapEnds_eq]
  -- The buffer is turned round at the end, so that byte i is read from the other end.
  have turned : read.reverse = bytes.take read.length ↔
      ∀ i < read.length, read.getD (read.length - 1 - i) 0 = bytes.getD i 0 := by
    rw [← List.take_of_length_le (l := read.reverse) (i := read.length) (by simp),
      take_eq_take_iff (by simp) (by omega)]
    apply forall₂_congr
    intro i lt
    rw [List.getD_eq_getElem?_getD, List.getElem?_reverse lt, ← List.getD_eq_getElem?_getD]
  rw [turned]
  constructor
  · intro same i lt
    have here := same (read.length - 1 - i) (by omega)
    rw [show read.length - 1 - (read.length - 1 - i) = i by omega] at here
    rw [← places i lt, here]
  · intro mirrored i lt
    have here := mirrored (read.length - 1 - i) (by omega)
    rw [show read.length - 1 - (read.length - 1 - i) = i by omega] at here
    rw [places _ (by omega), here]

/-- Only a single word keeps its order whatever its bytes are, and only if the kernel swaps them
back. -/
theorem order_kept_iff_word (swaps : Bool) (bar offset : Nat) {n : Nat} (some_ : 0 < n) :
    (∀ data heap : List UInt8, n ≤ data.length → n ≤ heap.length →
      (deviceBytes (cardSetRegisterRepOn (.big swaps) bar offset data heap n)).take n =
        (deviceBytes (cardSetRegisterRepOn .little bar offset data heap n)).take n) ↔
      swaps = true ∧ n = 4 := by
  constructor
  · intro kept
    -- a buffer whose first byte is like no other
    have same := (set_mirrored swaps bar offset n (by simp; omega) (by simp)).mp
      (kept (1 :: List.replicate (n - 1) 0) (List.replicate n 0) (by simp; omega) (by simp)) 0 some_
    have turned : ((1 :: List.replicate (n - 1) (0 : UInt8)).take n).reverse ++
        (List.replicate n (0 : UInt8)).drop n = List.replicate (n - 1) 0 ++ [1] := by
      rw [List.take_of_length_le (by simp; omega)]
      simp
    have first : ∀ i, (List.replicate (n - 1) (0 : UInt8) ++ [1]).getD i 0 =
        if i = n - 1 then 1 else 0 := by
      intro i
      rw [getD_append, List.length_replicate, List.getD_eq_getElem?_getD,
        List.getD_eq_getElem?_getD, List.getElem?_replicate]
      by_cases low : i < n - 1
      · rw [if_pos low, if_pos low, if_neg (by omega)]
        rfl
      · rw [if_neg low]
        by_cases here : i = n - 1
        · rw [if_pos here, here, Nat.sub_self]
          rfl
        · rw [if_neg here, List.getElem?_eq_none (by simp; omega)]
          rfl
    rw [turned, first (place swaps n 0), first (n - 1 - 0), Nat.sub_zero, if_pos rfl] at same
    by_cases here : place swaps n 0 = n - 1
    · rw [place] at here
      cases swaps with
      | true =>
        rw [if_pos (.inl rfl)] at here
        exact ⟨rfl, by omega⟩
      | false =>
        split at here
        next last => simp only [Bool.false_eq_true, false_or] at last; omega
        next whole => exact absurd (.inr (by omega)) whole
    · rw [if_neg here] at same
      cases same
  · rintro ⟨rfl, rfl⟩ data heap inside block
    apply (set_mirrored true bar offset 4 inside block).mpr
    intro i lt
    rw [place, if_pos (.inl rfl)]
    congr 1
    omega

/-- In the `__BIG_ENDIAN` build a transfer keeps the order that it has in the little-endian one just
when its bytes read the same backwards. -/
theorem host_order_kept (swaps : Bool) (bar offset n : Nat) {data heap : List UInt8}
    (inside : n ≤ data.length) (block : n ≤ heap.length) (d : δ) :
    (deviceBytes (cardSetRegisterRepOn .little bar offset data heap n)).take n = data.take n ∧
      ((deviceBytes (cardSetRegisterRepOn (.big swaps) bar offset data heap n)).take n =
          (deviceBytes (cardSetRegisterRepOn .little bar offset data heap n)).take n ↔
        Mirrored swaps n ((data.take n).reverse ++ heap.drop n)) ∧
      ((cardGetRegisterRepOn dev (.big swaps) n d).1 = (cardGetRegisterRepOn dev .little n d).1 ↔
        Mirrored swaps n (ioread32Rep dev ((n + 3) / 4) d).1) :=
  ⟨cardSetRegisterRepOn_little_take bar offset data heap inside,
    set_mirrored swaps bar offset n inside block, get_mirrored dev swaps n d⟩

/-- A device with words waiting. -/
def wordQueue : Device (List Word) where
  getRegister _ d := (0#32, d)
  readFifo d := (d.headD ⟨0, 0, 0, 0⟩, d.tail)
  ktime d := (.clear, d)

/-- Six bytes written, and six read. -/
theorem host_order_kept_six :
    (deviceBytes (cardSetRegisterRepOn .little 0 fifoOffset [1, 2, 3, 3, 2, 1] (List.replicate 8 2)
        6)).take 6 = [1, 2, 3, 3, 2, 1] ∧
      ((deviceBytes (cardSetRegisterRepOn (.big false) 0 fifoOffset [1, 2, 3, 3, 2, 1]
          (List.replicate 8 2) 6)).take 6 =
          (deviceBytes (cardSetRegisterRepOn .little 0 fifoOffset [1, 2, 3, 3, 2, 1]
            (List.replicate 8 2) 6)).take 6 ↔
        Mirrored false 6 ([1, 2, 3, 3, 2, 1] ++ [2, 2])) ∧
      ((cardGetRegisterRepOn wordQueue (.big false) 6 [⟨1, 2, 3, 4⟩, ⟨5, 6, 7, 8⟩]).1 =
          (cardGetRegisterRepOn wordQueue .little 6 [⟨1, 2, 3, 4⟩, ⟨5, 6, 7, 8⟩]).1 ↔
        Mirrored false 6 [1, 2, 3, 4, 5, 6, 7, 8]) :=
  host_order_kept wordQueue false 0 fifoOffset 6 (by decide) (by decide)
    [⟨1, 2, 3, 4⟩, ⟨5, 6, 7, 8⟩]

/-- Eight bytes are turned round, or their two words are, and neither kernel keeps the order. -/
theorem eight_bytes_turned :
    ¬∃ swaps : Bool,
      (deviceBytes (cardSetRegisterRepOn (.big swaps) 0 fifoOffset [1, 2, 3, 4, 5, 6, 7, 8]
          (List.replicate 8 0) 8)).take 8 =
        (deviceBytes (cardSetRegisterRepOn .little 0 fifoOffset [1, 2, 3, 4, 5, 6, 7, 8]
          (List.replicate 8 0) 8)).take 8 ∨
      (cardGetRegisterRepOn wordQueue (.big swaps) 8 [⟨1, 2, 3, 4⟩, ⟨5, 6, 7, 8⟩]).1 =
        (cardGetRegisterRepOn wordQueue .little 8 [⟨1, 2, 3, 4⟩, ⟨5, 6, 7, 8⟩]).1 := by
  decide

end Fscc
