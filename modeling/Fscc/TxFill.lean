import Fscc.RegisterRep
import Fscc.TxRing

/-!
# The space of the transmit FIFO

`fscc_fifo_write_data` charges each descriptor more than its words take. What it has left is what
the FIFO had room for, less what was charged, so it never gives the FIFO more than fits.
-/

namespace Fscc

open CInt

variable {δ : Type} (dev : Device δ) {mem : Memory} {p : TxPort}

/-! ### The loop -/

/-- The bytes of the FIFO that are charged for a descriptor. -/
def charge (f : IoFrame) : Nat := f.desc.dataCount + (4 - f.desc.dataCount % 4)

/-- The local variables of the loop for a reading of TXCNT. -/
def fillingFor (txcnt : Nat) : Filling := ⟨fifoSpaceFor txcnt, 0, false⟩

/-- A loop cut short and taken up again is the loop. -/
private theorem fifoWriteLoop_add (tfcnt n m : Nat) (p : TxPort) (s : Filling) :
    fifoWriteLoop mem tfcnt (n + m) p s =
      let first := fifoWriteLoop mem tfcnt n p s
      let second := fifoWriteLoop mem tfcnt m first.1 first.2.1
      (second.1, second.2.1, first.2.2 ++ second.2.2) := by
  induction n generalizing p s with
  | zero =>
    rw [Nat.zero_add, fifoWriteLoop]
    simp only [List.nil_append]
  | succ n ih =>
    rw [Nat.succ_add, fifoWriteLoop, fifoWriteLoop]
    dsimp only
    cases stops : fillStops tfcnt p.fifoFrame s with
    | true =>
      -- A loop that has stopped stops again.
      cases m with
      | zero => rfl
      | succ m =>
        simp only [if_true, List.nil_append]
        rw [fifoWriteLoop]
        simp only [stops, if_true]
    | false =>
      simp only [Bool.false_eq_true, if_false]
      rw [ih]
      simp only [List.append_assoc]

/-- The loop empties the first descriptors of the ring, and leaves the others alone. -/
private theorem fifoWriteLoop_fills (size : p.txDescriptors.length = mem.txNum)
    (inside : p.fifoTxDesc < mem.txNum) (tfcnt : Nat) (s : Filling) (todo old : List IoFrame)
    (view : Ring.view p.txDescriptors p.fifoTxDesc = todo ++ old) (passes : Nat)
    (turn : passes ≤ todo.length) :
    ∃ (p' : TxPort) (sent kept : List IoFrame),
      fifoWriteLoop mem tfcnt passes p s =
        (p', sent.foldl (fun s f => fillStep f s) s, sent.flatMap stored) ∧
      todo = sent ++ kept ∧ Accepts tfcnt sent s ∧ p'.userTxDesc = p.userTxDesc ∧
      p'.txDescriptors.length = mem.txNum ∧ p'.fifoTxDesc < mem.txNum ∧
      Ring.view p'.txDescriptors p'.fifoTxDesc = kept ++ (old ++ sent.map sentFrame) := by
  -- Induction on the passes: what is still to do stands at the front of the view of the ring.
  induction passes generalizing p s todo old with
  | zero => exact ⟨p, [], todo, rfl, rfl, trivial, rfl, size, inside, by simpa using view⟩
  | succ passes ih =>
    rw [fifoWriteLoop]
    cases stops : fillStops tfcnt p.fifoFrame s with
    | true =>
      exact ⟨p, [], todo, by simp, rfl, trivial, rfl, size, inside, by simpa using view⟩
    | false =>
      cases todo with
      | nil => exact absurd turn (Nat.not_succ_le_zero passes)
      | cons f todo =>
        rw [List.cons_append] at view
        -- The descriptor that `fifo_tx_desc` points to is the first that is to do.
        have frame : p.fifoFrame = f := Ring.getD_head f default (by omega) view
        have slot : Ring.slot p.txDescriptors.length p.fifoTxDesc 0 = p.fifoTxDesc :=
          Ring.slot_zero (by omega)
        -- Sent, it is emptied and goes to the end of the view.
        have emptied := @Ring.view_set_append _ _ [] _ _ (sentFrame f) f view
        rw [List.length_nil, slot] at emptied
        have moved := Ring.view_next (by rw [List.length_set]; omega) emptied
        rw [List.length_set, size] at moved
        rw [frame] at stops ⊢
        obtain ⟨p', sent, kept, run, split, accepts, user, size', inside', after⟩ :=
          ih (p := p.retire mem) (by rw [TxPort.retire, List.length_set, size])
            (Ring.next_lt inside) (fillStep f s) todo (old ++ [sentFrame f])
            (by rw [TxPort.retire, frame, moved, List.append_assoc])
            (Nat.le_of_succ_le_succ turn)
        refine ⟨p', f :: sent, kept, ?_, by rw [split, List.cons_append], ⟨stops, accepts⟩, user,
          size', inside', ?_⟩
        · simp [run, stored]
        · rw [after, List.append_assoc, List.map_cons]
          rfl

/-! ### What is given of a descriptor -/

private theorem stored_eq (f : IoFrame) : stored f =
    (wordsOf f.buffer ((f.desc.dataCount + 3) / 4)).map (.word 0 fifoOffset) :=
  cardSetRegisterRep_eq 0 fifoOffset f.buffer f.desc.dataCount

private theorem stored_words (fs : List IoFrame) :
    ∃ ws : List Word, fs.flatMap stored = ws.map (.word 0 fifoOffset) ∧
      4 * ws.length ≤ (fs.map charge).sum := by
  induction fs with
  | nil => exact ⟨[], rfl, Nat.le_refl 0⟩
  | cons f fs ih =>
    obtain ⟨ws, words, le⟩ := ih
    refine ⟨wordsOf f.buffer ((f.desc.dataCount + 3) / 4) ++ ws, ?_, ?_⟩
    · rw [List.flatMap_cons, words, stored_eq, List.map_append]
    · rw [List.length_append, length_wordsOf, List.map_cons, List.sum_cons, charge]
      omega

/-- Descriptors of this size are charged what they should be. -/
theorem sizeInFifo_eq {f : IoFrame} (le : f.desc.dataCount ≤ mem.txSize) :
    sizeInFifo f.desc.dataCount = charge f := by
  have bound := mem.tx_fits
  have size := mem.txSize_le
  exact add32_eq (by omega)

private theorem Accepts.opened {tfcnt : Nat} {fs : List IoFrame} {s : Filling}
    (accepts : Accepts tfcnt fs s) : ∀ f ∈ fs, f.cstop = false := by
  induction fs generalizing s with
  | nil => exact List.forall_mem_nil _
  | cons f fs ih =>
    obtain ⟨stops, rest⟩ := accepts
    intro g member
    cases member with
    | head =>
      simp only [fillStops, Bool.or_eq_false_iff] at stops
      exact stops.1.1
    | tail _ member => exact ih rest g member

/-! ### The property -/

/-- Some passes of the loop emptied the descriptors `sent`, left the others alone, and took from
the space what is charged for those. -/
structure Fills (p : TxPort) (start : Filling) (p' : TxPort) (s : Filling)
    (sent kept : List IoFrame) : Prop where
  before : Ring.view p.txDescriptors p.fifoTxDesc = sent ++ kept
  after : Ring.view p'.txDescriptors p'.fifoTxDesc = kept ++ sent.map sentFrame
  inside : p'.fifoTxDesc < p'.txDescriptors.length
  user : p'.userTxDesc = p.userTxDesc
  queued : ∀ f ∈ sent, f.cstop = false
  space : s.fifoSpace + (sent.map charge).sum = start.fifoSpace

/-- A call leaves the ring as `p'` and stores `ws`, where the FIFO held `tfcnt` frames and `txcnt`
bytes. -/
structure FillsWithin (mem : Memory) (p : TxPort) (tfcnt txcnt : Nat) (p' : TxPort)
    (ws : List BusWrite) : Prop where
  refused : 254 < tfcnt ∨ txFifoSize ≤ txcnt → p' = p ∧ ws = []
  words : ∀ w ∈ ws, (∃ data, w = .word 0 fifoOffset data) ∨
    ∃ value, w = .register 0 bcFifoLOffset value
  room : tfcnt ≤ 254 → txcnt < txFifoSize →
    4 * (wordsAt 0 fifoOffset ws).length + txcnt < txFifoSize
  lengths : (frameLengths ws).length ≤ 1
  passes : tfcnt ≤ 254 → txcnt < txFifoSize → ∀ n ≤ mem.txNum,
    let part := fifoWriteLoop mem tfcnt n p (fillingFor txcnt)
    ∃ sent kept, Fills p (fillingFor txcnt) part.1 part.2.1 sent kept
  intact : tfcnt ≤ 254 → txcnt < txFifoSize → ∀ n ≤ mem.txNum,
    let part := fifoWriteLoop mem tfcnt n p (fillingFor txcnt)
    part.1.fifoFrame.cstop = false → part.2.1.fifoSpace < charge part.1.fifoFrame → p' = part.1

/-- Every number of passes fills so, and stores the words of the descriptors it empties. -/
private theorem Fills.of_passes (size : p.txDescriptors.length = mem.txNum)
    (inside : p.fifoTxDesc < mem.txNum)
    (counts : ∀ f ∈ p.txDescriptors, f.cstop = false → f.desc.dataCount ≤ mem.txSize)
    (tfcnt txcnt : Nat) {n : Nat} (turn : n ≤ mem.txNum) :
    let part := fifoWriteLoop mem tfcnt n p (fillingFor txcnt)
    ∃ sent kept, Fills p (fillingFor txcnt) part.1 part.2.1 sent kept ∧
      part.2.2 = sent.flatMap stored := by
  obtain ⟨p', sent, kept, run, split, accepts, user, size', inside', after⟩ :=
    fifoWriteLoop_fills size inside tfcnt (fillingFor txcnt)
      (Ring.view p.txDescriptors p.fifoTxDesc) [] (List.append_nil _).symm n
      (by rw [Ring.length_view, size]; exact turn)
  -- Every descriptor sent was open to the FIFO, so its count is below the size of a buffer.
  have charged : (sent.map fun f => sizeInFifo f.desc.dataCount) = sent.map charge := by
    apply List.map_congr_left
    intro f member
    apply sizeInFifo_eq
    exact counts f (Ring.mem_view.mp (by rw [split]; exact List.mem_append_left _ member))
      (accepts.opened f member)
  have space := accepts.fifoSpace (fifoSpaceFor_lt txcnt)
  rw [charged] at space
  rw [run]
  exact ⟨sent, kept, ⟨split, by rw [after, List.nil_append], by rw [size']; exact inside', user,
    accepts.opened, space⟩, rfl⟩

/-- The descriptor that is next is one of those left alone, or the loop has been all round. -/
private theorem Fills.mem_of_opened {start s : Filling} {p' : TxPort} {sent kept : List IoFrame}
    (h : Fills p start p' s sent kept) (opened : p'.fifoFrame.cstop = false) :
    p'.fifoFrame ∈ p.txDescriptors := by
  have view := h.after
  cases kept with
  | cons f kept =>
    have frame : p'.fifoFrame = f := Ring.getD_head f default h.inside view
    rw [frame, ← Ring.mem_view (i := p.fifoTxDesc), h.before]
    simp
  | nil =>
    cases sent with
    | nil =>
      have none_ := congrArg List.length view
      rw [Ring.length_view] at none_
      exact absurd h.inside (by rw [none_]; exact Nat.not_lt_zero _)
    | cons f sent =>
      have frame : p'.fifoFrame = sentFrame f := Ring.getD_head _ default h.inside view
      rw [frame, sentFrame, IoFrame.cstop_setControl, hasCstop_cstop] at opened
      cases opened

theorem fifoSpaceFor_le {txcnt : Nat} (room : txcnt < txFifoSize) :
    fifoSpaceFor txcnt + txcnt < txFifoSize := by
  unfold fifoSpaceFor sub32 txFifoSize at *
  dsimp only
  omega

theorem fifoSpaceFor_wrapped {txcnt : Nat} (full : txFifoSize ≤ txcnt) (le : txcnt ≤ 8191) :
    txFifoSize < fifoSpaceFor txcnt := by
  unfold fifoSpaceFor sub32 txFifoSize at *
  dsimp only
  omega

variable (mem) in
/-- A call goes as its readings have it. -/
private theorem fifoWriteData_cases (p : TxPort) (d : δ) :
    let tfcnt := (ioGetTFCNT dev d).1
    let txcnt := (ioGetTXCNT dev (ioGetTFCNT dev d).2).1
    let filled := fifoWriteLoop mem tfcnt mem.txNum p (fillingFor txcnt)
    (¬ (tfcnt ≤ 254 ∧ txcnt < txFifoSize) ∧ (fifoWriteData dev mem p d).2.1 = p ∧
      (fifoWriteData dev mem p d).2.2.1 = []) ∨
    (tfcnt ≤ 254 ∧ txcnt < txFifoSize ∧ (fifoWriteData dev mem p d).2.1 = filled.1 ∧
      (fifoWriteData dev mem p d).2.2.1 = filled.2.2 ++
        if filled.2.1.frameSize = 0 then []
        else [.register 0 bcFifoLOffset (BitVec.ofNat 32 filled.2.1.frameSize)]) := by
  have bound := ioGetTXCNT_le dev (ioGetTFCNT dev d).2
  unfold fifoWriteData fillingFor
  dsimp only
  by_cases many : 254 < (ioGetTFCNT dev d).1
  · rw [if_pos many]
    exact .inl ⟨by omega, rfl, rfl⟩
  · rw [if_neg many]
    by_cases full : txFifoSize ≤ (ioGetTXCNT dev (ioGetTFCNT dev d).2).1
    · rw [if_pos (fifoSpaceFor_wrapped full bound)]
      exact .inl ⟨by omega, rfl, rfl⟩
    · have room := fifoSpaceFor_le (not_le.mp full)
      rw [if_neg (by omega)]
      exact .inr ⟨by omega, by omega, rfl, rfl⟩

/-- Of what a call stores the words are those of the data. -/
private theorem wordsAt_stored (words : List Word) (p : Prop) [Decidable p] (value : BitVec 32) :
    wordsAt 0 fifoOffset (words.map (.word 0 fifoOffset) ++
      if p then [] else [.register 0 bcFifoLOffset value]) = words := by
  rw [wordsAt_append, wordsAt_words]
  split <;> exact List.append_nil words

/-- At most one frame length is stored, after all the data. -/
private theorem frameLengths_stored (words : List Word) (p : Prop) [Decidable p] (value : BitVec 32) :
    (frameLengths (words.map (.word 0 fifoOffset) ++
      if p then [] else [.register 0 bcFifoLOffset value])).length ≤ 1 := by
  have none_ : frameLengths (words.map (.word 0 fifoOffset)) = [] := by
    apply List.filterMap_eq_nil_iff.mpr
    intro w member
    obtain ⟨data, -, rfl⟩ := List.mem_map.mp member
    rfl
  rw [frameLengths_append, none_, List.nil_append]
  split
  next => exact Nat.zero_le 1
  next => exact Nat.le_refl 1

/-- The rest of the loop leaves a descriptor that does not fit. -/
private theorem fifoWriteLoop_unfit {tfcnt n : Nat} {start : Filling} (turn : n ≤ mem.txNum)
    (le : (fifoWriteLoop mem tfcnt n p start).1.fifoFrame.desc.dataCount ≤ mem.txSize)
    (short : (fifoWriteLoop mem tfcnt n p start).2.1.fifoSpace <
      charge (fifoWriteLoop mem tfcnt n p start).1.fifoFrame) :
    (fifoWriteLoop mem tfcnt mem.txNum p start).1 = (fifoWriteLoop mem tfcnt n p start).1 := by
  obtain ⟨m, rest⟩ := Nat.exists_eq_add_of_le turn
  have stops : fillStops tfcnt (fifoWriteLoop mem tfcnt n p start).1.fifoFrame
      (fifoWriteLoop mem tfcnt n p start).2.1 = true := by
    rw [fillStops, sizeInFifo_eq le, decide_eq_true short, Bool.or_true, Bool.true_or]
  rw [rest, fifoWriteLoop_add]
  dsimp only
  cases m with
  | zero => rw [fifoWriteLoop]
  | succ m =>
    rw [fifoWriteLoop]
    simp only [stops, if_true]

/-- Whatever TFCNT and TXCNT read and whatever the ring holds: the FIFO is given nothing when it has
no room, and else whole words that leave a byte of it unused. What is left of the space is never less
than what is charged, and a descriptor that does not fit stays as it is. -/
theorem fifo_never_overfilled (size : p.txDescriptors.length = mem.txNum)
    (inside : p.fifoTxDesc < mem.txNum)
    (counts : ∀ f ∈ p.txDescriptors, f.cstop = false →
      1 ≤ f.desc.dataCount ∧ f.desc.dataCount ≤ mem.txSize) (d : δ) :
    FillsWithin mem p (ioGetTFCNT dev d).1 (ioGetTXCNT dev (ioGetTFCNT dev d).2).1
      (fifoWriteData dev mem p d).2.1 (fifoWriteData dev mem p d).2.2.1 := by
  -- Either the FIFO takes nothing more, or the loop of the source has run.
  have cases_ := fifoWriteData_cases dev mem p d
  generalize (fifoWriteData dev mem p d).2.1 = p' at *
  generalize (fifoWriteData dev mem p d).2.2.1 = ws at *
  generalize (ioGetTXCNT dev (ioGetTFCNT dev d).2).1 = txcnt at *
  generalize (ioGetTFCNT dev d).1 = tfcnt at *
  have part := fun n => Fills.of_passes size inside (fun f member opened =>
    (counts f member opened).2) tfcnt txcnt (n := n)
  obtain ⟨sent, kept, filled, stores⟩ := part mem.txNum (Nat.le_refl _)
  obtain ⟨words, eq, few⟩ := stored_words sent
  rw [eq] at stores
  refine ⟨?_, ?_, ?_, ?_, fun _ _ n turn => ?_, fun taken room n turn opened short => ?_⟩
  · intro full
    rcases cases_ with ⟨-, same, none_⟩ | ⟨taken, room, -⟩
    · exact ⟨same, none_⟩
    · omega
  -- Every store is a word of data or, at the end, the length of the frame.
  · intro w member
    rcases cases_ with ⟨-, -, rfl⟩ | ⟨-, -, -, rfl⟩
    · cases member
    · rw [stores] at member
      rcases List.mem_append.mp member with word | length
      · obtain ⟨data, -, rfl⟩ := List.mem_map.mp word
        exact .inl ⟨data, rfl⟩
      · split at length
        next => cases length
        next => exact .inr ⟨_, List.mem_singleton.mp length⟩
  -- What is pushed is bounded by the space that the loop starts with.
  · intro taken room
    have space := fifoSpaceFor_le room
    have charged := filled.space
    rcases cases_ with ⟨refused, -⟩ | ⟨-, -, -, rfl⟩
    · omega
    · rw [stores, wordsAt_stored]
      simp only [fillingFor] at charged
      omega
  · rcases cases_ with ⟨-, -, rfl⟩ | ⟨-, -, -, rfl⟩
    · exact Nat.zero_le 1
    · rw [stores]
      exact frameLengths_stored words _ _
  · obtain ⟨sent, kept, fills, -⟩ := part n turn
    exact ⟨sent, kept, fills⟩
  · rcases cases_ with ⟨refused, -⟩ | ⟨-, -, last, -⟩
    · exact absurd ⟨taken, room⟩ refused
    · obtain ⟨sent, kept, fills, -⟩ := part n turn
      have le := (counts _ (fills.mem_of_opened opened) opened).2
      rw [last]
      exact fifoWriteLoop_unfit turn le short

/-- A port with a frame of three bytes in its ring. -/
def threeQueued : TxPort :=
  (userWriteFrame constant fifoConfig .small true 0 [1, 2, 3] (freshTx .small [4096, 8192]) 0#32).2.1

theorem fifo_never_overfilled_three :
    (fifoWriteData constant .small threeQueued 0#32).2.2.1 =
      [.word 0 fifoOffset ⟨1, 2, 3, 0⟩, .register 0 bcFifoLOffset 3#32] ∧
    FillsWithin .small threeQueued 0 0 (fifoWriteData constant .small threeQueued 0#32).2.1
      (fifoWriteData constant .small threeQueued 0#32).2.2.1 := by
  refine ⟨by decide, ?_⟩
  exact fifo_never_overfilled constant (p := threeQueued) rfl (by decide) (by decide) 0#32

end Fscc
