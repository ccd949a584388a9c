import Fscc.TxDelivery

/-!
# The queue of the transmit ring

What writes, drains and purges keep of the transmit ring: its queued descriptors are what is left of
one frame and then whole frames, from `fifo_tx_desc` up to `user_tx_desc`.
-/

namespace Fscc

variable {δ : Type} (dev : Device δ) (cfg : PortConfig) (mem : Memory)

/-! ### Pieces that are left -/

/-- Only the last of these descriptors may have room left. -/
def FullButLast (counts : List Nat) : Prop := ∀ n ∈ counts.dropLast, n = mem.txSize

/-- The last pieces of a frame that is begun, or none. -/
structure Part (ps : List Piece) : Prop where
  begun : ∀ p ∈ ps, p.total = none
  full : FullButLast mem (ps.map fun p => p.data.length)

/-- A frame that is begun, and then whole frames. -/
def Trailing (ps : List Piece) : Prop :=
  ∃ (begun : List Piece) (frames : List (List UInt8)), ps = begun ++ frames.flatMap (pieces mem) ∧
    Part mem begun ∧ ∀ frame ∈ frames, 0 < frame.length

variable {mem} {ps begun : List Piece} {piece : Piece} {frame : List UInt8}

private theorem FullButLast.tail {n : Nat} {counts : List Nat} (full : FullButLast mem (n :: counts)) :
    FullButLast mem counts := by
  cases counts with
  | nil => exact List.forall_mem_nil _
  | cons m counts => exact fun k member => full k (.tail _ member)

private theorem Part.tail (h : Part mem (piece :: begun)) : Part mem begun :=
  ⟨fun p member => h.begun p (.tail _ member), h.full.tail⟩

variable (mem) in
/-- The pieces of a frame are full but for the last, and the first tells the length of all. -/
private theorem pieces_whole (pos : 0 < frame.length) :
    ∃ first rest, pieces mem frame = first :: rest ∧ first.total = some frame.length ∧
      (∀ p ∈ rest, p.total = none) ∧
      FullButLast mem ((pieces mem frame).map fun p => p.data.length) ∧
      ((pieces mem frame).map fun p => p.data.length).sum = frame.length := by
  have some_ : frame ≠ [] := List.length_pos_iff.mp pos
  have cut := Chunks.split_cons mem.txSize_pos some_
  have lengths : ((pieces mem frame).map fun p => p.data.length) =
      (Chunks.split mem.txSize frame).map List.length := by
    rw [← data_piecesOf (some frame.length) (Chunks.split mem.txSize frame), List.map_map]
    rfl
  have later (cs : List (List UInt8)) : ∀ p ∈ piecesOf none cs, p.total = none := by
    induction cs with
    | nil => exact List.forall_mem_nil _
    | cons c cs ih =>
      intro p member
      cases member with
      | head => rfl
      | tail _ member => exact ih p member
  refine ⟨⟨frame.take mem.txSize, some frame.length⟩,
    piecesOf none (Chunks.split mem.txSize (frame.drop mem.txSize)),
    by rw [pieces, cut, piecesOf], rfl, later _, ?_, ?_⟩
  · rw [lengths]
    intro n member
    rw [← List.map_dropLast] at member
    obtain ⟨c, chunk, rfl⟩ := List.mem_map.mp member
    have whole : Chunks.split mem.txSize frame ≠ [] := by rw [cut]; exact List.cons_ne_nil _ _
    exact Chunks.length_of_split_append (List.dropLast_append_getLast whole).symm
      (List.cons_ne_nil _ _) c chunk
  · rw [lengths, ← List.length_flatten, Chunks.flatten_split mem.txSize_pos]

namespace Trailing

private theorem nil : Trailing mem [] :=
  ⟨[], [], rfl, ⟨List.forall_mem_nil _, List.forall_mem_nil _⟩, List.forall_mem_nil _⟩

/-- One more descriptor is sent. -/
private theorem tail (h : Trailing mem (piece :: ps)) : Trailing mem ps := by
  obtain ⟨begun, frames, eq, part, pos⟩ := h
  cases begun with
  | cons first begun =>
    obtain ⟨-, rfl⟩ := List.cons.inj eq
    exact ⟨begun, frames, rfl, part.tail, pos⟩
  | nil =>
    cases frames with
    | nil => cases eq
    | cons frame frames =>
      -- The frame at the front is begun now.
      obtain ⟨first, rest, shape, -, none_, full, -⟩ := pieces_whole mem (pos frame (.head _))
      rw [List.nil_append, List.flatMap_cons, shape, List.cons_append] at eq
      obtain ⟨-, rfl⟩ := List.cons.inj eq
      rw [shape] at full
      exact ⟨rest, frames, rfl, ⟨none_, full.tail⟩, fun f member => pos f (.tail _ member)⟩

private theorem drop {sent rest : List Piece} (h : Trailing mem (sent ++ rest)) :
    Trailing mem rest := by
  induction sent with
  | nil => exact h
  | cons piece sent ih => exact ih h.tail

/-- One more frame is queued. -/
private theorem append (h : Trailing mem ps) (pos : 0 < frame.length) :
    Trailing mem (ps ++ pieces mem frame) := by
  obtain ⟨begun, frames, rfl, part, others⟩ := h
  refine ⟨begun, frames ++ [frame], ?_, part, ?_⟩
  · rw [List.flatMap_append, List.flatMap_singleton, List.append_assoc]
  · intro f member
    rcases List.mem_append.mp member with old | new
    · exact others f old
    · rw [List.mem_singleton.mp new]
      exact pos

end Trailing

/-! ### Descriptors that hold them -/

/-- The descriptors of a whole frame: the first tells its length, which is what they hold. -/
structure WholeFrame (mem : Memory) (frame : List IoFrame) : Prop where
  first : ∃ f rest, frame = f :: rest ∧ f.fe = true ∧ (∀ g ∈ rest, g.fe = false) ∧
    f.count = (frame.map fun f => f.desc.dataCount).sum
  full : FullButLast mem (frame.map fun f => f.desc.dataCount)

/-- What is left of one frame, and then whole frames. -/
def InFrames (mem : Memory) (queued : List IoFrame) : Prop :=
  ∃ (begun : List IoFrame) (frames : List (List IoFrame)), queued = begun ++ frames.flatten ∧
    (∀ f ∈ begun, f.fe = false) ∧ FullButLast mem (begun.map fun f => f.desc.dataCount) ∧
    ∀ frame ∈ frames, WholeFrame mem frame

private theorem carried_split {fs : List IoFrame} {xs ys : List Piece}
    (carried : List.Forall₂ (Carries mem) fs (xs ++ ys)) :
    ∃ gs hs, fs = gs ++ hs ∧ List.Forall₂ (Carries mem) gs xs ∧ List.Forall₂ (Carries mem) hs ys :=
  ⟨fs.take xs.length, fs.drop xs.length, (List.take_append_drop _ _).symm,
    List.forall₂_take_append fs xs ys carried, List.forall₂_drop_append fs xs ys carried⟩

private theorem carried_counts {fs : List IoFrame} (carried : List.Forall₂ (Carries mem) fs ps) :
    (fs.map fun f => f.desc.dataCount) = ps.map fun p => p.data.length := by
  induction carried with
  | nil => rfl
  | cons first _ ih => rw [List.map_cons, List.map_cons, ih, first.dataCount]

private theorem carried_later {fs : List IoFrame} (carried : List.Forall₂ (Carries mem) fs ps)
    (none_ : ∀ p ∈ ps, p.total = none) : ∀ f ∈ fs, f.fe = false := by
  induction carried with
  | nil => exact List.forall_mem_nil _
  | cons first _ ih =>
    intro f member
    cases member with
    | head => rw [first.fe, none_ _ (.head _), Option.isSome_none]
    | tail _ member => exact ih (fun p later => none_ p (.tail _ later)) f member

private theorem Carries.counts {fs : List IoFrame} (carried : List.Forall₂ (Carries mem) fs ps) :
    ∀ f ∈ fs, 1 ≤ f.desc.dataCount ∧ f.desc.dataCount ≤ mem.txSize := by
  induction carried with
  | nil => exact List.forall_mem_nil _
  | cons first _ ih =>
    intro f member
    cases member with
    | head =>
      rw [first.dataCount]
      exact ⟨first.pos, first.le⟩
    | tail _ member => exact ih f member

private theorem WholeFrame.of_carried {fs : List IoFrame} (pos : 0 < frame.length)
    (carried : List.Forall₂ (Carries mem) fs (pieces mem frame)) : WholeFrame mem fs := by
  obtain ⟨first, rest, shape, total, none_, full, sum⟩ := pieces_whole mem pos
  have counts := carried_counts carried
  rw [← counts] at full sum
  rw [shape] at carried
  cases carried with
  | @cons f _ fs _ holds later =>
    refine ⟨⟨f, fs, rfl, ?_, carried_later later none_, ?_⟩, full⟩
    · rw [holds.fe, total, Option.isSome_some]
    · rw [sum]
      exact (holds.count _ total).1

private theorem Trailing.inFrames {fs : List IoFrame} (h : Trailing mem ps)
    (carried : List.Forall₂ (Carries mem) fs ps) : InFrames mem fs := by
  obtain ⟨begun, frames, rfl, part, pos⟩ := h
  obtain ⟨gs, hs, rfl, own, others⟩ := carried_split carried
  have whole : ∃ groups : List (List IoFrame), hs = groups.flatten ∧
      ∀ group ∈ groups, WholeFrame mem group := by
    clear carried own part
    induction frames generalizing hs with
    | nil =>
      cases others
      exact ⟨[], rfl, List.forall_mem_nil _⟩
    | cons frame frames ih =>
      obtain ⟨is, js, rfl, first, later⟩ := carried_split others
      obtain ⟨groups, rfl, rest⟩ := ih (fun f member => pos f (.tail _ member)) js later
      refine ⟨is :: groups, rfl, ?_⟩
      intro group member
      cases member with
      | head => exact .of_carried (pos frame (.head _)) first
      | tail _ member => exact rest group member
  obtain ⟨groups, rfl, frames⟩ := whole
  refine ⟨gs, groups, rfl, carried_later own part.begun, ?_, frames⟩
  rw [carried_counts own]
  exact part.full

/-! ### The ring -/

/-- The transmit ring as every call finds it: its queued descriptors are those from `fifo_tx_desc` up
to `user_tx_desc`, each with some of a frame in it, and the space is that of the others. -/
structure TxProper (mem : Memory) (p : TxPort) : Prop where
  size : p.txDescriptors.length = mem.txNum
  user_lt : p.userTxDesc < mem.txNum
  fifo_lt : p.fifoTxDesc < mem.txNum
  interval : ∃ n ≤ mem.txNum, p.userTxDesc = Ring.slot mem.txNum p.fifoTxDesc n ∧
    ∀ k < mem.txNum,
      (p.txDescriptors.getD (Ring.slot mem.txNum p.fifoTxDesc k) default).cstop = false ↔ k < n
  counts : ∀ f ∈ p.txDescriptors, f.cstop = false →
    1 ≤ f.desc.dataCount ∧ f.desc.dataCount ≤ mem.txSize
  frames : InFrames mem p.queue
  space : userGetTxSpace mem p = mem.txSize * p.txDescriptors.countP IoFrame.cstop

/-- The ring holds pieces as they are queued and sent. -/
structure TxProper.Inv (mem : Memory) (p : TxPort) : Prop where
  held : ∃ (free queued : List IoFrame) (ps : List Piece), TxRing mem p free queued ∧
    List.Forall₂ (Carries mem) queued ps ∧ Trailing mem ps

namespace TxRing

variable {p : TxPort} {free queued : List IoFrame}

private theorem fifo_lt (h : TxRing mem p free queued) : p.fifoTxDesc < mem.txNum := by
  rw [h.fifo]
  exact Ring.slot_lt mem.txNum_pos

/-- All round from `fifo_tx_desc`, the queued descriptors end where the next is written. -/
private theorem user_eq (h : TxRing mem p free queued) :
    p.userTxDesc = Ring.slot mem.txNum p.fifoTxDesc queued.length := by
  rw [h.fifo, Ring.slot_slot, h.length_add, Ring.slot_size h.user_lt]

private theorem queued_iff (h : TxRing mem p free queued) {k : Nat} (lt : k < mem.txNum) :
    (p.txDescriptors.getD (Ring.slot mem.txNum p.fifoTxDesc k) default).cstop = false ↔
      k < queued.length := by
  have sum := h.length_add
  rw [← h.size, Ring.getD_slot default (by rw [h.size]; exact lt), h.view_fifo,
    List.getD_eq_getElem?_getD]
  by_cases inside : k < queued.length
  · rw [List.getElem?_append_left inside, List.getElem?_eq_getElem inside, Option.getD_some]
    exact ⟨fun _ => inside, fun _ => h.queued_open _ (List.getElem_mem inside)⟩
  · have lt' : k - queued.length < free.length := by omega
    rw [List.getElem?_append_right (by omega), List.getElem?_eq_getElem lt', Option.getD_some,
      h.free_cstop _ (List.getElem_mem lt')]
    exact ⟨fun closed => absurd closed Bool.false_ne_true.symm, fun inside' => absurd inside' inside⟩

private theorem countP_cstop (h : TxRing mem p free queued) :
    p.txDescriptors.countP IoFrame.cstop = free.length := by
  have turned := (List.rotate_perm p.txDescriptors p.userTxDesc).countP_eq IoFrame.cstop
  have view : p.txDescriptors.rotate p.userTxDesc = free ++ queued := h.view
  have all : free.countP IoFrame.cstop = free.length :=
    List.countP_eq_length.mpr fun f member => h.free_cstop f member
  have none_ : queued.countP IoFrame.cstop = 0 := by
    apply List.countP_eq_zero.mpr
    intro f member
    rw [h.queued_open f member]
    exact Bool.false_ne_true
  rw [← turned, view, List.countP_append, all, none_, Nat.add_zero]

end TxRing

namespace TxProper.Inv

variable {p : TxPort}

private theorem proper (h : TxProper.Inv mem p) : TxProper mem p := by
  obtain ⟨free, queued, ps, ring, carried, trailing⟩ := h.held
  have sum := ring.length_add
  exact {
    size := ring.size
    user_lt := ring.user_lt
    fifo_lt := ring.fifo_lt
    interval := ⟨queued.length, by omega, ring.user_eq, fun k lt => ring.queued_iff lt⟩
    counts := by
      intro f member opened
      have found : f ∈ free ++ queued := by
        rw [← ring.view]
        exact Ring.mem_view.mpr member
      rcases List.mem_append.mp found with free_ | queued_
      · rw [ring.free_cstop f free_] at opened
        cases opened
      · exact Carries.counts carried f queued_
    frames := by
      rw [ring.queue_eq]
      exact trailing.inFrames carried
    space := by rw [ring.userGetTxSpace, ring.countP_cstop, Nat.mul_comm] }

theorem initial (fresh : FreshTx mem p) : TxProper.Inv mem p := by
  obtain ⟨free, ring⟩ := fresh.txRing
  exact ⟨free, [], [], ring, .nil, .nil⟩

private theorem write (h : TxProper.Inv mem p) (alloc : Bool) (unmovedBytes : Nat) {buf : List UInt8}
    (pos : 0 < buf.length) (room : buf.length ≤ userGetTxSpace mem p) (d : δ) :
    TxProper.Inv mem (userWriteFrame dev cfg mem alloc unmovedBytes buf p d).2.1 := by
  obtain ⟨free, queued, ps, ring, carried, trailing⟩ := h.held
  cases alloc with
  | false => exact h
  | true =>
    obtain ⟨-, queues⟩ := userWriteFrame_queues dev cfg ring.size ring.user_lt ring.buffers_mem pos
      room unmovedBytes d
    obtain ⟨free', written, -, more, ring'⟩ := ring.queue queues
    exact ⟨free', queued ++ written, ps ++ pieces mem (copyFromUser buf unmovedBytes), ring',
      List.rel_append carried more, trailing.append (by rw [length_copyFromUser]; exact pos)⟩

private theorem drain (h : TxProper.Inv mem p) (d : δ) :
    TxProper.Inv mem (fifoWriteData dev mem p d).2.1 := by
  obtain ⟨free, queued, ps, ring, carried, trailing⟩ := h.held
  obtain ⟨free', queued', sent, rest, rfl, ring', carried', -⟩ :=
    fifoWriteData_pieces dev ring carried d
  exact ⟨free', queued', rest, ring', carried', trailing.drop⟩

private theorem purge (h : TxProper.Inv mem p) (d : δ) :
    TxProper.Inv mem (ioPurgeTx dev cfg p d).1 := by
  obtain ⟨free, queued, ps, ring, carried, trailing⟩ := h.held
  exact ⟨_, [], [], txRing_reset mem ring.size ring.buffers_mem, .nil, .nil⟩

end TxProper.Inv

/-! ### Runs -/

/-- A frame is written, the FIFO is filled, or the ring is purged, the device in any state. -/
inductive QueueEvent (δ : Type) where
  | write (buf : List UInt8) (alloc : Bool) (unmovedBytes : Nat) (d : δ)
  | drain (d : δ)
  | purge (d : δ)

variable (mem)

/-- From a purge on, writes that `fscc_write` admits, drains and purges. -/
def queueMachine : Machine TxPort (QueueEvent δ) where
  init p := FreshTx mem p
  step p
    | .write buf alloc unmovedBytes d =>
      if 0 < buf.length ∧ buf.length ≤ userGetTxSpace mem p then
        some (userWriteFrame dev cfg mem alloc unmovedBytes buf p d).2.1
      else none
    | .drain d => some (fifoWriteData dev mem p d).2.1
    | .purge d => some (ioPurgeTx dev cfg p d).1

variable {mem}

theorem TxProper.Inv.step {p q : TxPort} {e : QueueEvent δ} (h : TxProper.Inv mem p)
    (stepped : (queueMachine dev cfg mem).step p e = some q) : TxProper.Inv mem q := by
  cases e with
  | write buf alloc unmovedBytes d =>
    obtain ⟨admitted, eq⟩ := Option.ite_none_right_eq_some.mp stepped
    obtain rfl := Option.some.inj eq
    exact h.write dev cfg alloc unmovedBytes admitted.1 admitted.2 d
  | drain d =>
    obtain rfl := Option.some.inj stepped
    exact h.drain dev d
  | purge d =>
    obtain rfl := Option.some.inj stepped
    exact h.purge dev cfg d

/-- Over every sequence of writes, drains and purges, whatever TXCNT and TFCNT read, the ring is in
order. -/
theorem tx_ring_proper {p : TxPort} (reached : (queueMachine dev cfg mem).Reached p) :
    TxProper mem p :=
  (Machine.Reached.invariant (P := TxProper.Inv mem) (fun _ => .initial)
    (fun _ _ _ h stepped => h.step dev cfg stepped) reached).proper

/-- Two frames fill the ring, the first is sent, and a third takes its place. -/
def thirdQueued : List (QueueEvent (BitVec 32)) :=
  [.write [1, 2, 3] true 0 0#32, .write [4] true 0 0#32, .drain 0#32, .write [5, 6] true 0 0#32]

theorem tx_ring_proper_third :
    ∃ p, (queueMachine constant fifoConfig .small).replay (freshTx .small [4096, 8192]) thirdQueued =
        some p ∧ p.userTxDesc = 1 ∧ p.fifoTxDesc = 1 ∧ TxProper .small p := by
  obtain ⟨p, replayed, user, fifo⟩ : ∃ p, (queueMachine constant fifoConfig .small).replay
      (freshTx .small [4096, 8192]) thirdQueued = some p ∧ p.userTxDesc = 1 ∧ p.fifoTxDesc = 1 :=
    ⟨_, rfl, rfl, rfl⟩
  exact ⟨p, replayed, user, fifo, tx_ring_proper constant fifoConfig
    (.replay (.init (fresh_freshTx .small rfl)) thirdQueued replayed)⟩

end Fscc
