import Fscc.Registers
import Fscc.Lib.Machine
import Mathlib.Data.List.Forall2

/-!
# Repeated register access

`fscc_card_set_register_rep` and `fscc_card_get_register_rep` in a little-endian build, with the
caller's buffer, and the two of them at the ends of a FIFO of words.
-/

namespace Fscc

variable {δ : Type} (dev : Device δ) (bar offset : Nat)

/-! ### `fscc_card_set_register_rep` -/

/-- The first `count` words at `data`. -/
def wordsOf (data : List UInt8) (count : Nat) : List Word :=
  (List.range count).map fun i => charsToU32 (data.drop (4 * i))

private theorem wordsOf_succ (data : List UInt8) (count : Nat) :
    wordsOf data (count + 1) = charsToU32 data :: wordsOf (data.drop 4) count := by
  rw [wordsOf, List.range_succ_eq_map, List.map_cons, List.map_map, Nat.mul_zero, List.drop_zero,
    wordsOf]
  congr 1
  apply List.map_congr_left
  intro i _
  rw [Function.comp_apply, List.drop_drop, Nat.succ_eq_add_one, Nat.mul_add, Nat.add_comm]

private theorem wordsOf_last (data : List UInt8) (count : Nat) :
    wordsOf data (count + 1) = wordsOf data count ++ [charsToU32 (data.drop (4 * count))] := by
  rw [wordsOf, List.range_succ, List.map_append, wordsOf]
  rfl

@[simp] theorem length_wordsOf (data : List UInt8) (count : Nat) :
    (wordsOf data count).length = count := by
  rw [wordsOf, List.length_map, List.length_range]

@[simp] theorem length_flatMap_bytes (ws : List Word) :
    (ws.flatMap Word.bytes).length = 4 * ws.length := by
  induction ws with
  | nil => rfl
  | cons w ws ih =>
    rw [List.flatMap_cons, List.length_append, ih, Word.length_bytes, List.length_cons]
    omega

/-- Of a word that begins inside the data, the bytes that are there. -/
private theorem take_charsToU32 {data : List UInt8} {n : Nat} (short : n ≤ 4)
    (inside : n ≤ data.length) :
    (charsToU32 data).bytes.take n = data.take n := by
  apply List.ext_getElem?
  intro i
  rw [List.getElem?_take, List.getElem?_take]
  split
  next lt =>
    have some_ : i < data.length := by omega
    have bytes : (charsToU32 data).bytes[i]? = some (data.getD i 0) := by
      obtain rfl | rfl | rfl | rfl : i = 0 ∨ i = 1 ∨ i = 2 ∨ i = 3 := by omega
      all_goals rfl
    rw [bytes, List.getD_eq_getElem?_getD, List.getElem?_eq_getElem some_, Option.getD_some]
  next => rfl

/-- The words hold the data in order. -/
private theorem take_wordsOf {data : List UInt8} {count n : Nat} (covers : n ≤ 4 * count)
    (inside : n ≤ data.length) :
    ((wordsOf data count).flatMap Word.bytes).take n = data.take n := by
  induction count generalizing data n with
  | zero =>
    obtain rfl : n = 0 := by omega
    rfl
  | succ count ih =>
    rw [wordsOf_succ, List.flatMap_cons]
    by_cases short : n ≤ 4
    · rw [List.take_append_of_le_length (by rw [Word.length_bytes]; exact short),
        take_charsToU32 short inside]
    · -- The first word is whole, and the others hold what follows it.
      have first : (charsToU32 data).bytes = data.take 4 := bytes_charsToU32 (by omega)
      have rest := @ih (data.drop 4) (n - 4) (by omega)
        (by rw [List.length_drop]; omega)
      have split : n = 4 + (n - 4) := by omega
      rw [List.take_append, Word.length_bytes, rest,
        List.take_of_length_le (by rw [Word.length_bytes]; omega), first, split, List.take_add,
        ← split]

private theorem iowrite32Rep_eq (chunks : Nat) (data : List UInt8) :
    iowrite32Rep bar offset chunks data = (wordsOf data chunks).map (.word bar offset) := by
  induction chunks generalizing data with
  | zero => rfl
  | succ chunks ih => rw [iowrite32Rep, ih, wordsOf_succ, List.map_cons]

/-- A repeated write pushes as many words as it takes to hold the bytes. -/
theorem cardSetRegisterRep_eq (data : List UInt8) (byteCount : Nat) :
    cardSetRegisterRep bar offset data byteCount =
      (wordsOf data ((byteCount + 3) / 4)).map (.word bar offset) := by
  unfold cardSetRegisterRep
  split
  next none_ =>
    rw [none_]
    rfl
  next =>
    dsimp only
    rw [iowrite32Rep_eq]
    split
    next whole =>
      rw [List.append_nil]
      congr 2
      omega
    next part =>
      -- The word that is left starts where the whole ones end.
      have count : (byteCount + 3) / 4 = (byteCount - byteCount % 4) / 4 + 1 := by omega
      have start : byteCount - byteCount % 4 = 4 * ((byteCount - byteCount % 4) / 4) := by omega
      rw [count, wordsOf_last, List.map_append, ← start]
      rfl

private theorem fifoBytes_words (ws : List Word) :
    fifoBytes (ws.map (.word 0 fifoOffset)) = ws.flatMap Word.bytes ∧
      frameLengths (ws.map (.word 0 fifoOffset)) = [] := by
  induction ws with
  | nil => exact ⟨rfl, rfl⟩
  | cons w ws ih =>
    rw [List.map_cons, ← List.singleton_append, fifoBytes_append, frameLengths_append, ih.1, ih.2]
    exact ⟨rfl, rfl⟩

/-- A repeated write to the FIFO stores the bytes of its words. -/
theorem cardSetRegisterRep_fifo (data : List UInt8) (byteCount : Nat)
    (inside : (byteCount + 3) / 4 * 4 ≤ data.length) :
    fifoBytes (cardSetRegisterRep 0 fifoOffset data byteCount) =
        data.take ((byteCount + 3) / 4 * 4) ∧
      frameLengths (cardSetRegisterRep 0 fifoOffset data byteCount) = [] := by
  obtain ⟨bytes, lengths⟩ := fifoBytes_words (wordsOf data ((byteCount + 3) / 4))
  have all : ((wordsOf data ((byteCount + 3) / 4)).flatMap Word.bytes).length =
      (byteCount + 3) / 4 * 4 := by
    rw [length_flatMap_bytes, length_wordsOf, Nat.mul_comm]
  rw [cardSetRegisterRep_eq]
  refine ⟨?_, lengths⟩
  rw [bytes, ← take_wordsOf (Nat.le_of_eq (Nat.mul_comm _ 4)) inside, ← all,
    List.take_length]

/-! ### `fscc_card_get_register_rep` -/

/-- The next `count` words of the FIFO. -/
def readWords : Nat → δ → List Word × δ
  | 0, d => ([], d)
  | count + 1, d =>
    let word := dev.readFifo d
    let rest := readWords count word.2
    (word.1 :: rest.1, rest.2)

/-- `ioread32_rep` to the place `i` of the memory at `buf`. -/
def ioread32RepInto : Nat → Nat → List UInt8 → δ → List UInt8 × δ
  | 0, _, buf, d => (buf, d)
  | chunks + 1, i, buf, d =>
    let word := dev.readFifo d
    ioread32RepInto chunks (i + 4) (memcpyAt buf i word.1.bytes) word.2

/-- `fscc_card_get_register_rep`: the memory at `buf` after it. -/
def cardGetRegisterRepInto (buf : List UInt8) (byteCount : Nat) (d : δ) : List UInt8 × δ :=
  if byteCount = 0 then (buf, d)
  else
    let leftoverCount := byteCount % 4
    let chunks := (byteCount - leftoverCount) / 4
    let whole := ioread32RepInto dev chunks 0 buf d
    if leftoverCount = 0 then whole
    else
      let incomingData := dev.readFifo whole.2
      (memcpyAt whole.1 (byteCount - leftoverCount) (incomingData.1.bytes.take leftoverCount),
        incomingData.2)

@[simp] theorem length_readWords (count : Nat) (d : δ) :
    (readWords dev count d).1.length = count := by
  induction count generalizing d with
  | zero => rfl
  | succ count ih => rw [readWords, List.length_cons, ih]

private theorem readWords_last (count : Nat) (d : δ) :
    readWords dev (count + 1) d =
      ((readWords dev count d).1 ++ [(dev.readFifo (readWords dev count d).2).1],
        (dev.readFifo (readWords dev count d).2).2) := by
  induction count generalizing d with
  | zero => rfl
  | succ count ih =>
    rw [readWords, ih]
    rfl

/-- A copy to where the last one ended goes on from it. -/
private theorem memcpyAt_next (done buf more : List UInt8) :
    memcpyAt (done ++ buf.drop done.length) done.length more =
      (done ++ more) ++ buf.drop (done ++ more).length := by
  rw [memcpyAt, List.take_left, List.drop_append, List.drop_of_length_le (by omega),
    List.nil_append, List.drop_drop, List.length_append, Nat.add_sub_cancel_left]

/-- `fscc_card_get_register_rep` takes as many words as it takes to hold the bytes. -/
private theorem cardGetRegisterRep_eq (byteCount : Nat) (d : δ) :
    cardGetRegisterRep dev byteCount d =
      (((readWords dev ((byteCount + 3) / 4) d).1.flatMap Word.bytes).take byteCount,
        (readWords dev ((byteCount + 3) / 4) d).2) := by
  have rep (chunks : Nat) (d : δ) : ioread32Rep dev chunks d =
      ((readWords dev chunks d).1.flatMap Word.bytes, (readWords dev chunks d).2) := by
    induction chunks generalizing d with
    | zero => rfl
    | succ chunks ih => rw [ioread32Rep, ih, readWords, List.flatMap_cons]
  have size := length_flatMap_bytes (readWords dev ((byteCount - byteCount % 4) / 4) d).1
  rw [length_readWords] at size
  unfold cardGetRegisterRep
  dsimp only
  rw [rep]
  split
  next aligned =>
    rw [show (byteCount + 3) / 4 = (byteCount - byteCount % 4) / 4 by omega,
      List.take_of_length_le (by omega)]
  next part =>
    -- What is left comes from one more word.
    rw [show (byteCount + 3) / 4 = (byteCount - byteCount % 4) / 4 + 1 by omega, readWords_last,
      List.flatMap_append, List.flatMap_singleton, List.take_append, size,
      List.take_of_length_le (l := (readWords dev _ d).1.flatMap Word.bytes) (by omega),
      show byteCount - 4 * ((byteCount - byteCount % 4) / 4) = byteCount % 4 by omega]

/-- It stores its bytes at the front of the buffer, and nothing else. -/
private theorem cardGetRegisterRepInto_eq (buf : List UInt8) (byteCount : Nat) (d : δ) :
    cardGetRegisterRepInto dev buf byteCount d =
      ((cardGetRegisterRep dev byteCount d).1 ++ buf.drop byteCount,
        (cardGetRegisterRep dev byteCount d).2) := by
  obtain rfl | pos := Nat.eq_zero_or_pos byteCount
  · rfl
  -- The whole words go behind those that are in the buffer already.
  have whole (chunks : Nat) (done : List UInt8) (d : δ) :
      ioread32RepInto dev chunks done.length (done ++ buf.drop done.length) d =
        (done ++ (ioread32Rep dev chunks d).1 ++ buf.drop (done.length + 4 * chunks),
          (ioread32Rep dev chunks d).2) := by
    induction chunks generalizing done d with
    | zero => simp [ioread32RepInto, ioread32Rep]
    | succ chunks ih =>
      have next := ih (done ++ (dev.readFifo d).1.bytes) (dev.readFifo d).2
      rw [List.length_append, Word.length_bytes] at next
      rw [ioread32RepInto, memcpyAt_next, List.length_append, Word.length_bytes, next, ioread32Rep,
        ← List.append_assoc, show done.length + 4 * (chunks + 1) =
          done.length + 4 + 4 * chunks by omega]
  have start := whole ((byteCount - byteCount % 4) / 4) [] d
  have size := length_ioread32Rep dev ((byteCount - byteCount % 4) / 4) d
  rw [List.length_nil, List.drop_zero, List.nil_append, List.nil_append, Nat.zero_add, ← size]
    at start
  unfold cardGetRegisterRepInto cardGetRegisterRep
  dsimp only
  rw [start]
  generalize ioread32Rep dev ((byteCount - byteCount % 4) / 4) d = read at *
  have offset : byteCount - byteCount % 4 = read.1.length := by omega
  rw [if_neg (by omega)]
  -- Of a last word the buffer gets the bytes that are left to read.
  split
  next aligned => rw [← offset, aligned, Nat.sub_zero]
  next part =>
    rw [offset, memcpyAt_next, List.length_append, List.length_take, Word.length_bytes, ← offset,
      show byteCount - byteCount % 4 + min (byteCount % 4) 4 = byteCount by omega]

/-! ### Both ends of a FIFO -/

/-- A FIFO of words; an empty one reads as zero. -/
def wordFifo : Device (List Word) where
  getRegister _ d := (0#32, d)
  readFifo
    | [] => (⟨0, 0, 0, 0⟩, [])
    | w :: ws => (w, ws)
  ktime d := (.clear, d)

/-- The words among `ws` that are stored at an offset. -/
def wordsAt (ws : List BusWrite) : List Word :=
  ws.filterMap fun
    | .word b o data => if b = bar ∧ o = offset then some data else none
    | .register _ _ _ => none

theorem wordsAt_append (xs ys : List BusWrite) :
    wordsAt bar offset (xs ++ ys) = wordsAt bar offset xs ++ wordsAt bar offset ys :=
  List.filterMap_append

@[simp] theorem wordsAt_words (ws : List Word) :
    wordsAt bar offset (ws.map (.word bar offset)) = ws := by
  induction ws with
  | nil => rfl
  | cons w ws ih =>
    rw [wordsAt] at ih
    simp [wordsAt, ih]

private theorem readFifo_wordFifo (w : Word) (ws : List Word) : wordFifo.readFifo (w :: ws) =
    (w, ws) := rfl

private theorem readWords_wordFifo (ws rest : List Word) :
    readWords wordFifo ws.length (ws ++ rest) = (ws, rest) := by
  induction ws with
  | nil => rfl
  | cons w ws ih =>
    rw [List.length_cons, List.cons_append, readWords, readFifo_wordFifo]
    dsimp only
    rw [ih]

/-- Transfers into the FIFO so far, those out of it, and what it holds. -/
structure Transfers where
  sent : List (List UInt8)
  received : List (List UInt8)
  fifo : List Word
deriving Repr

/-- Bytes are written to the FIFO, or a transfer is read from it to a buffer. -/
inductive TransferEvent where
  | send (data : List UInt8) (byteCount : Nat)
  | receive (buf : List UInt8)

/-- Transfers are read with the byte counts they were written with. The memory at `data` may go on
after the bytes that are asked for. -/
def transferMachine : Machine Transfers TransferEvent where
  init s := s = ⟨[], [], []⟩
  step s
    | .send data byteCount =>
      if 0 < byteCount ∧ byteCount ≤ data.length then
        some { s with
          sent := s.sent ++ [data.take byteCount]
          fifo := s.fifo ++ wordsAt bar offset (cardSetRegisterRep bar offset data byteCount) }
      else none
    | .receive buf =>
      s.sent[s.received.length]?.bind fun transfer =>
        if transfer.length ≤ buf.length then
          let read := cardGetRegisterRepInto wordFifo buf transfer.length s.fifo
          some { s with
            received := s.received ++ [read.1.take transfer.length]
            fifo := read.2 }
        else none

/-- The words `ws` are those of one transfer, and the last is filled up. -/
structure Holds (ws : List Word) (transfer : List UInt8) : Prop where
  count : ws.length = (transfer.length + 3) / 4
  bytes : (ws.flatMap Word.bytes).take transfer.length = transfer

/-- The transfers received are the first ones sent; the FIFO holds the whole words of the others. -/
structure Transfers.Inv (s : Transfers) : Prop where
  flight : ∃ (rest : List (List UInt8)) (words : List (List Word)),
    s.sent = s.received ++ rest ∧ s.fifo = words.flatten ∧ List.Forall₂ Holds words rest

namespace Transfers.Inv

variable {s t : Transfers}

private theorem send (h : s.Inv) {data : List UInt8} {byteCount : Nat}
    (inside : byteCount ≤ data.length) :
    Transfers.Inv { s with
      sent := s.sent ++ [data.take byteCount]
      fifo := s.fifo ++ wordsAt bar offset (cardSetRegisterRep bar offset data byteCount) } := by
  obtain ⟨rest, words, sent, fifo, held⟩ := h.flight
  have length : (data.take byteCount).length = byteCount := by
    rw [List.length_take, Nat.min_eq_left inside]
  have new : Holds (wordsOf data ((byteCount + 3) / 4)) (data.take byteCount) := by
    constructor
    · rw [length_wordsOf, length]
    · rw [length]
      exact take_wordsOf (by omega) inside
  refine ⟨rest ++ [data.take byteCount], words ++ [wordsOf data ((byteCount + 3) / 4)], ?_, ?_,
    List.rel_append held (.cons new .nil)⟩
  · rw [sent, List.append_assoc]
  · rw [cardSetRegisterRep_eq, wordsAt_words, fifo, List.flatten_append, List.flatten_singleton]

private theorem receive (h : s.Inv) {buf transfer : List UInt8}
    (next : s.sent[s.received.length]? = some transfer) :
    Transfers.Inv { s with
      received := s.received ++
        [(cardGetRegisterRepInto wordFifo buf transfer.length s.fifo).1.take transfer.length]
      fifo := (cardGetRegisterRepInto wordFifo buf transfer.length s.fifo).2 } := by
  obtain ⟨rest, words, sent, fifo, held⟩ := h.flight
  rw [sent, List.getElem?_append_right (le_refl _), Nat.sub_self] at next
  cases held with
  | nil => cases next
  | @cons ws first words rest holds held =>
    obtain rfl : first = transfer := by simpa using next
    -- The words of the transfer are at the front of the FIFO, and no other is taken.
    have read := readWords_wordFifo ws words.flatten
    rw [holds.count] at read
    rw [fifo, List.flatten_cons, cardGetRegisterRepInto_eq, cardGetRegisterRep_eq, read]
    dsimp only
    rw [holds.bytes, List.take_left]
    refine ⟨rest, words, ?_, rfl, held⟩
    rw [sent, List.append_assoc]
    rfl

private theorem step {e : TransferEvent} (h : s.Inv)
    (stepped : (transferMachine bar offset).step s e = some t) : t.Inv := by
  cases e with
  | send data byteCount =>
    obtain ⟨asked, eq⟩ := Option.ite_none_right_eq_some.mp stepped
    obtain rfl := Option.some.inj eq
    exact h.send bar offset asked.2
  | receive buf =>
    obtain ⟨transfer, next, taken⟩ := Option.bind_eq_some_iff.mp stepped
    obtain ⟨-, eq⟩ := Option.ite_none_right_eq_some.mp taken
    obtain rfl := Option.some.inj eq
    exact h.receive next

end Transfers.Inv

/-- A write pushes just the words it takes to hold the bytes. -/
def PushesExactly (data : List UInt8) (byteCount : Nat) : Prop :=
  ∃ ws : List Word, cardSetRegisterRep bar offset data byteCount = ws.map (.word bar offset) ∧
    ws.length = (byteCount + 3) / 4 ∧ (ws.flatMap Word.bytes).take byteCount = data.take byteCount

/-- A read takes just that many words, and stores the bytes at the front of the buffer. -/
structure TakesExactly (buf : List UInt8) (byteCount : Nat) (d : δ) : Prop where
  words : (cardGetRegisterRepInto dev buf byteCount d).2 = (readWords dev ((byteCount + 3) / 4) d).2
  stored : (cardGetRegisterRepInto dev buf byteCount d).1.take byteCount =
    ((readWords dev ((byteCount + 3) / 4) d).1.flatMap Word.bytes).take byteCount
  size : (cardGetRegisterRepInto dev buf byteCount d).1.length = buf.length
  kept : (cardGetRegisterRepInto dev buf byteCount d).1.drop byteCount = buf.drop byteCount

/-- `fscc_card_set_register_rep` pushes, and `fscc_card_get_register_rep` takes, the words of the
bytes asked for and no others. So whatever the byte counts, and however the two take turns, the
transfers come out as they went in, and the FIFO holds whole transfers. -/
theorem transfers_returned {s : Transfers} (reached : (transferMachine bar offset).Reached s) :
    (∀ data byteCount, 1 ≤ byteCount → byteCount ≤ data.length →
      PushesExactly bar offset data byteCount) ∧
    (∀ buf byteCount d, 1 ≤ byteCount → byteCount ≤ buf.length →
      TakesExactly dev buf byteCount d) ∧
    s.received <+: s.sent ∧
    ∃ words : List (List Word), s.fifo = words.flatten ∧
      List.Forall₂ Holds words (s.sent.drop s.received.length) := by
  have initial : ∀ s, (transferMachine bar offset).init s → s.Inv := by
    rintro s rfl
    exact ⟨[], [], rfl, rfl, .nil⟩
  have inv := Machine.Reached.invariant initial (fun _ _ _ h stepped => h.step bar offset stepped)
    reached
  obtain ⟨rest, words, sent, fifo, held⟩ := inv.flight
  -- Each transfer on its own is of exactly its bytes, rounded up to words at the port.
  refine ⟨?_, ?_, ⟨rest, sent.symm⟩, words, fifo, ?_⟩
  · intro data byteCount _ inside
    exact ⟨_, cardSetRegisterRep_eq bar offset data byteCount, length_wordsOf _ _,
      take_wordsOf (by omega) inside⟩
  · intro buf byteCount d _ inside
    have length := length_cardGetRegisterRep dev byteCount d
    have stored := cardGetRegisterRepInto_eq dev buf byteCount d
    constructor
    · rw [stored, cardGetRegisterRep_eq]
    · rw [stored, List.take_left' length, cardGetRegisterRep_eq]
    · rw [stored, List.length_append, length, List.length_drop]
      omega
    · rw [stored, List.drop_left' length]
  · rw [sent, List.drop_left]
    exact held

/-- Five bytes are sent, then one, and the five are received in a buffer of eight. -/
def twoTransfers : List TransferEvent :=
  [.send [1, 2, 3, 4, 5, 6] 5, .send [7] 1, .receive (List.replicate 8 9)]

theorem transfers_returned_two :
    ∃ s, (transferMachine 0 fifoOffset).replay ⟨[], [], []⟩ twoTransfers = some s ∧
      s.received = [[1, 2, 3, 4, 5]] ∧ s.received <+: s.sent ∧
      ∃ words : List (List Word), s.fifo = words.flatten ∧
        List.Forall₂ Holds words (s.sent.drop s.received.length) := by
  obtain ⟨s, replayed, first⟩ : ∃ s, (transferMachine 0 fifoOffset).replay ⟨[], [], []⟩
      twoTransfers = some s ∧ s.received = [[1, 2, 3, 4, 5]] := ⟨_, rfl, rfl⟩
  have reached : (transferMachine 0 fifoOffset).Reached s :=
    .replay (.init rfl) twoTransfers replayed
  exact ⟨s, replayed, first, (transfers_returned constant 0 fifoOffset reached).2.2⟩

end Fscc
