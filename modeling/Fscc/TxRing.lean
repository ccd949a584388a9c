import Fscc.Tx

/-!
# The transmit ring as two lists

Seen from `user_tx_desc`, the ring is the free descriptors followed by the queued ones, and
`fifo_tx_desc` is where the second list starts. `TxRing` says so; the lemmas give what each
access of the driver is on the two lists.
-/

namespace Fscc

open CInt

variable {δ : Type} (dev : Device δ) (mem : Memory)

/-- The transmit ring holds the `free` descriptors, then the `queued` ones. -/
structure TxRing (p : TxPort) (free queued : List IoFrame) : Prop where
  size : p.txDescriptors.length = mem.txNum
  user_lt : p.userTxDesc < mem.txNum
  view : Ring.view p.txDescriptors p.userTxDesc = free ++ queued
  fifo : p.fifoTxDesc = Ring.slot mem.txNum p.userTxDesc free.length
  buffers : ∀ f ∈ free ++ queued, f.buffer.length = mem.txSize
  free_cstop : ∀ f ∈ free, f.cstop = true
  queued_open : ∀ f ∈ queued, f.cstop = false

/-- The descriptors queued, oldest first. -/
def TxPort.queue (p : TxPort) : List IoFrame :=
  (Ring.view p.txDescriptors p.fifoTxDesc).takeWhile fun f => !f.cstop

/-! ### The scan for room -/

private theorem scan_txSpace (l : List IoFrame) (space : Nat)
    (bound : space + l.length * mem.txSize < 18446744073709551616) :
    Ring.scan (txSpaceStep mem) id l space =
      space + (l.takeWhile IoFrame.cstop).length * mem.txSize := by
  induction l generalizing space with
  | nil => simp [Ring.scan]
  | cons f l ih =>
    rw [List.length_cons, Nat.succ_mul] at bound
    cases cstop : f.cstop with
    | false => simp [Ring.scan, txSpaceStep, cstop]
    | true =>
      simp only [Ring.scan, txSpaceStep, cstop, Bool.not_true, Bool.false_eq_true, if_false,
        List.takeWhile_cons, if_true, List.length_cons, Nat.succ_mul]
      rw [addSize_eq (by omega), ih _ (by omega)]
      omega

/-- The space reported is that of the free descriptors from `user_tx_desc` up to the first
one that is not. -/
theorem userGetTxSpace_eq {p : TxPort} (size : p.txDescriptors.length = mem.txNum)
    (user_lt : p.userTxDesc < mem.txNum) :
    userGetTxSpace mem p =
      ((Ring.view p.txDescriptors p.userTxDesc).takeWhile IoFrame.cstop).length * mem.txSize := by
  have fits := mem.tx_fits
  rw [userGetTxSpace, ← size, Ring.walk_eq_scan _ _ _ _ _ _ (by rw [size]; exact user_lt),
    scan_txSpace mem _ _ (by rw [Ring.length_view, size]; omega), Nat.zero_add]

/-- Of a ring that is free up to the first queued descriptor it is that of the free ones. -/
theorem userGetTxSpace_free {p : TxPort} {free queued : List IoFrame}
    (size : p.txDescriptors.length = mem.txNum) (user_lt : p.userTxDesc < mem.txNum)
    (view : Ring.view p.txDescriptors p.userTxDesc = free ++ queued)
    (free_cstop : ∀ f ∈ free, f.cstop = true) (queued_open : ∀ f ∈ queued, f.cstop = false) :
    userGetTxSpace mem p = free.length * mem.txSize := by
  have none_ : queued.takeWhile IoFrame.cstop = [] := by
    cases queued with
    | nil => rfl
    | cons q qs => simp [queued_open q (.head _)]
  rw [userGetTxSpace_eq mem size user_lt, view, List.takeWhile_append_of_pos free_cstop, none_,
    List.append_nil]

/-- A writer replaces the descriptor at its index and moves on. -/
theorem view_putUser {mem : Memory} {p : TxPort} {f : IoFrame} {rest : List IoFrame}
    (size : p.txDescriptors.length = mem.txNum) (user_lt : p.userTxDesc < mem.txNum) (g : IoFrame)
    (shape : Ring.view p.txDescriptors p.userTxDesc = f :: rest) :
    Ring.view (p.putUser mem g).txDescriptors (p.putUser mem g).userTxDesc = rest ++ [g] := by
  have inside : p.userTxDesc < p.txDescriptors.length := by rw [size]; exact user_lt
  have old : Ring.view p.txDescriptors p.userTxDesc = [] ++ f :: rest := shape
  have set := Ring.view_set_append g f old
  rw [List.length_nil, Ring.slot_zero inside] at set
  have moved := Ring.view_next (by simpa using inside) set
  rwa [List.length_set, size] at moved

namespace TxRing

variable {mem} {p : TxPort} {free queued rest : List IoFrame} {f : IoFrame}

theorem length_add (h : TxRing mem p free queued) :
    free.length + queued.length = mem.txNum := by
  rw [← h.size, ← Ring.length_view p.txDescriptors p.userTxDesc, h.view, List.length_append]

/-- The oldest queued descriptor is where the next fill starts. -/
theorem fifoFrame_eq (h : TxRing mem p free (f :: rest)) : p.fifoFrame = f := by
  have sum := h.length_add
  rw [List.length_cons] at sum
  rw [TxPort.fifoFrame, h.fifo, ← h.size, Ring.getD_slot _ (by rw [h.size]; omega), h.view]
  simp

/-- With nothing queued, the fill meets a free descriptor. -/
theorem fifoFrame_empty (h : TxRing mem p free []) : p.fifoFrame.cstop = true := by
  have sum := h.length_add
  have pos := mem.txNum_pos
  obtain ⟨g, gs, rfl⟩ : ∃ g gs, free = g :: gs := by
    cases free with
    | nil => simp only [List.length_nil] at sum; omega
    | cons g gs => exact ⟨g, gs, rfl⟩
  have size : (g :: gs).length = mem.txNum := by simpa using sum
  rw [TxPort.fifoFrame, h.fifo, size, Ring.slot_size h.user_lt,
    Ring.getD_head g default (by rw [h.size]; exact h.user_lt) h.view]
  exact h.free_cstop g (by simp)

/-- The descriptor a writer works on is the first free one. -/
theorem userFrame_eq (h : TxRing mem p (f :: free) queued) : p.userFrame = f :=
  Ring.getD_head f default (by rw [h.size]; exact h.user_lt) h.view

/-- With none free, the writer meets the oldest queued descriptor. -/
theorem userFrame_full (h : TxRing mem p [] queued) : p.userFrame.cstop = false := by
  have sum := h.length_add
  have pos := mem.txNum_pos
  obtain ⟨g, gs, rfl⟩ : ∃ g gs, queued = g :: gs := by
    cases queued with
    | nil => simp only [List.length_nil] at sum; omega
    | cons g gs => exact ⟨g, gs, rfl⟩
  have frame : p.userFrame = g :=
    Ring.getD_head g default (by rw [h.size]; exact h.user_lt) h.view
  rw [frame]
  exact h.queued_open g (.head _)

/-- The space reported is that of the free descriptors. -/
theorem userGetTxSpace (h : TxRing mem p free queued) :
    userGetTxSpace mem p = free.length * mem.txSize :=
  userGetTxSpace_free mem h.size h.user_lt h.view h.free_cstop h.queued_open

/-- Seen from `fifo_tx_desc`, the queued descriptors come first. -/
theorem view_fifo (h : TxRing mem p free queued) :
    Ring.view p.txDescriptors p.fifoTxDesc = queued ++ free := by
  rw [h.fifo, ← h.size]
  exact Ring.view_slot h.view

theorem queue_eq (h : TxRing mem p free queued) : p.queue = queued := by
  have none_ : free.takeWhile (fun f => !f.cstop) = [] := by
    cases free with
    | nil => rfl
    | cons f fs => simp [h.free_cstop f (.head _)]
  rw [TxPort.queue, h.view_fifo, List.takeWhile_append_of_pos fun f member => by
    simp [h.queued_open f member], none_, List.append_nil]

/-- The fill empties the oldest queued descriptor. -/
theorem retire (h : TxRing mem p free (f :: rest)) :
    TxRing mem (p.retire mem) (free ++ [sentFrame f]) rest := by
  have view := Ring.view_set_append (sentFrame f) f h.view
  rw [h.size, ← h.fifo] at view
  exact {
    size := by rw [TxPort.retire, List.length_set, h.size]
    user_lt := h.user_lt
    view := by
      rw [List.append_assoc, TxPort.retire, h.fifoFrame_eq]
      exact view
    fifo := by
      simp only [TxPort.retire, h.fifo, List.length_append, List.length_singleton]
      exact Ring.next_slot mem.txNum_pos
    buffers := by
      have old := h.buffers
      simp only [List.mem_append, List.mem_cons, List.not_mem_nil, or_false] at old ⊢
      rintro g ((member | rfl) | member)
      · exact old g (.inl member)
      · exact old f (.inr (.inl rfl))
      · exact old g (.inr (.inr member))
    -- What was sent is free for the writers.
    free_cstop := by
      intro g member
      rcases List.mem_append.mp member with old | new
      · exact h.free_cstop g old
      · simp [List.mem_singleton.mp new, sentFrame]
    queued_open := fun g member => h.queued_open g (.tail _ member) }

/-- A writer queues the first free descriptor. -/
theorem putUser (h : TxRing mem p (f :: free) queued) (g : IoFrame) (opened : g.cstop = false)
    (buffer : g.buffer.length = mem.txSize) :
    TxRing mem (p.putUser mem g) free (queued ++ [g]) := by
  have moved := view_putUser h.size h.user_lt g h.view
  exact {
    size := by rw [TxPort.putUser, List.length_set, h.size]
    user_lt := Ring.next_lt h.user_lt
    view := by rw [← List.append_assoc]; exact moved
    fifo := by
      simp only [TxPort.putUser, h.fifo, List.length_cons]
      exact (Ring.slot_next h.user_lt).symm
    buffers := by
      have old := h.buffers
      simp only [List.mem_append, List.mem_cons, List.not_mem_nil, or_false] at old ⊢
      rintro x (member | member | rfl)
      · exact old x (.inl (.inr member))
      · exact old x (.inr member)
      · exact buffer
    free_cstop := fun x member => h.free_cstop x (.tail _ member)
    queued_open := by
      intro x member
      rcases List.mem_append.mp member with old | new
      · exact h.queued_open x old
      · rw [List.mem_singleton.mp new, opened] }

theorem buffers_mem (h : TxRing mem p free queued) :
    ∀ f ∈ p.txDescriptors, f.buffer.length = mem.txSize := by
  intro f member
  apply h.buffers
  rw [← h.view]
  exact Ring.mem_view.mpr member

end TxRing

/-- A ring just purged is free. -/
theorem txRing_reset {p : TxPort} (size : p.txDescriptors.length = mem.txNum)
    (buffers : ∀ f ∈ p.txDescriptors, f.buffer.length = mem.txSize) :
    TxRing mem (resetTx p) (p.txDescriptors.map purgedTxFrame) [] where
  size := by simp [resetTx, size]
  user_lt := mem.txNum_pos
  view := by simp [resetTx, Ring.view]
  fifo := by
    rw [List.length_map, size, Ring.slot_size (show (resetTx p).userTxDesc < mem.txNum from
      mem.txNum_pos)]
    rfl
  buffers := by simpa [purgedTxFrame] using buffers
  free_cstop := by simp [purgedTxFrame]
  queued_open := by simp

/-- A transmit ring just purged. -/
def FreshTx (p : TxPort) : Prop :=
  ∃ q : TxPort, p = resetTx q ∧ q.txDescriptors.length = mem.txNum ∧
    ∀ f ∈ q.txDescriptors, f.buffer.length = mem.txSize

/-- A fresh port, its descriptors at the physical addresses `addresses`. -/
def freshTx (addresses : List Nat) : TxPort :=
  resetTx
    { txDescriptors := addresses.map fun a =>
        ⟨⟨0#32, 0, 0#32⟩, BitVec.ofNat 32 a, List.replicate mem.txSize 0, .clear⟩
      userTxDesc := 0
      fifoTxDesc := 0 }

theorem fresh_freshTx {addresses : List Nat} (size : addresses.length = mem.txNum) :
    FreshTx mem (freshTx mem addresses) :=
  ⟨_, rfl, by simpa using size, by simp⟩

theorem FreshTx.txRing {mem : Memory} {p : TxPort} (fresh : FreshTx mem p) :
    ∃ free, TxRing mem p free [] := by
  obtain ⟨q, rfl, size, buffers⟩ := fresh
  exact ⟨_, txRing_reset mem size buffers⟩

/-! ### One call of `fscc_fifo_write_data` -/

/-- The loop accepts the descriptors one after the other. -/
def Accepts (tfcnt : Nat) : List IoFrame → Filling → Prop
  | [], _ => True
  | f :: fs, s => fillStops tfcnt f s = false ∧ Accepts tfcnt fs (fillStep f s)

/-- The loop takes from the space what it charges for the descriptors, which is never more than is
left. -/
theorem Accepts.fifoSpace {tfcnt : Nat} {fs : List IoFrame} {s : Filling}
    (accepts : Accepts tfcnt fs s) (bound : s.fifoSpace < 4294967296) :
    (fs.foldl (fun s f => fillStep f s) s).fifoSpace +
      (fs.map fun f => sizeInFifo f.desc.dataCount).sum = s.fifoSpace := by
  induction fs generalizing s with
  | nil => rfl
  | cons f fs ih =>
    obtain ⟨stops, rest⟩ := accepts
    have first : sizeInFifo f.desc.dataCount ≤ s.fifoSpace := by
      simp only [fillStops, Bool.or_eq_false_iff, decide_eq_false_iff_not, Nat.not_lt] at stops
      exact stops.1.2
    have left : (fillStep f s).fifoSpace = s.fifoSpace - sizeInFifo f.desc.dataCount :=
      sub32_eq first bound
    have later := ih rest (by omega)
    rw [List.foldl_cons, List.map_cons, List.sum_cons]
    omega

theorem fifoSpaceFor_lt (txcnt : Nat) : fifoSpaceFor txcnt < 4294967296 := by
  unfold fifoSpaceFor sub32
  dsimp only
  omega

/-- What the FIFO is given of a descriptor. -/
def stored (f : IoFrame) : List BusWrite :=
  cardSetRegisterRep 0 fifoOffset f.buffer f.desc.dataCount

/-- The loop empties a first part of the queue. -/
theorem TxRing.fifoWriteLoop {mem : Memory} {p : TxPort} {free queued : List IoFrame}
    (h : TxRing mem p free queued) (tfcnt passes : Nat) (s : Filling) :
    ∃ (p' : TxPort) (done rest : List IoFrame),
      fifoWriteLoop mem tfcnt passes p s =
        (p', done.foldl (fun s f => fillStep f s) s, done.flatMap stored) ∧
      queued = done ++ rest ∧ Accepts tfcnt done s ∧
      TxRing mem p' (free ++ done.map sentFrame) rest ∧ p'.userTxDesc = p.userTxDesc := by
  -- Induction on the passes. Each takes the oldest queued descriptor, or ends the loop.
  induction passes generalizing p free queued s with
  | zero => exact ⟨p, [], queued, rfl, rfl, trivial, by simpa using h, rfl⟩
  | succ passes ih =>
    rw [Fscc.fifoWriteLoop]
    cases stops : fillStops tfcnt p.fifoFrame s with
    | true => exact ⟨p, [], queued, by simp, rfl, trivial, by simpa using h, rfl⟩
    | false =>
      obtain ⟨f, fs, rfl⟩ : ∃ f fs, queued = f :: fs := by
        cases queued with
        | nil => simp [fillStops, h.fifoFrame_empty] at stops
        | cons f fs => exact ⟨f, fs, rfl⟩
      obtain ⟨p', done, rest, eq, split, accepts, ring, user⟩ := ih h.retire (fillStep f s)
      rw [h.fifoFrame_eq] at stops ⊢
      refine ⟨p', f :: done, rest, ?_, by rw [split, List.cons_append], ⟨stops, accepts⟩, ?_, user⟩
      · simp [eq, stored]
      · rw [List.append_assoc, List.singleton_append] at ring
        exact ring

end Fscc
