import Fscc.RxDmaRead

/-!
# Frames received by DMA reach the reader

The receive path end to end in DMA mode: the engine and what reaches it, reads, stamps and purges,
in any order of their steps.
-/

namespace Fscc

open CInt

variable {δ : Type} (dev : Device δ) (mem : Memory) (cfg : PortConfig)

/-! ### The system -/

/-- A port that does DMA, the call that has its spinlock, the purges past it that have not written
GO_R, the engine and what reaches it, and the reads since the last purge. -/
structure DmaSystem where
  port : RxPort
  call : RxCall
  starting : Nat
  engine : RxEngine
  line : DmaLine
  returned : List ReadCall

/-- The engine takes a step; `timestamp_worker` runs; a read or a purge begins; the call with the
spinlock goes on; a purge writes GO_R. -/
inductive DmaEvent (δ : Type) where
  | engine
  | timestamp
  | read (settings : Settings) (bufLength : Nat)
  | purge (d : δ)
  | call (d : δ)
  | go

/-- A port as `fscc_port_new` leaves it, the `frames` on their way. Allocations and copies to user
space succeed. -/
def dmaSystem (frames : List WireFrame) : Machine DmaSystem (DmaEvent δ) where
  init s := cfg.isDma = true ∧ (∃ (q : RxPort) (d : δ) (e : RxEngine), Linked q.rxDescriptors ∧
      q.rxDescriptors.length = mem.rxNum ∧ (∀ f ∈ q.rxDescriptors, f.buffer.length = mem.rxSize) ∧
      s.port = (ioPurgeRx dev mem cfg q d).1 ∧
      s.engine = (ioPurgeRx dev mem cfg q d).2.1.foldl RxEngine.store e) ∧
    s.call = .none ∧ s.starting = 0 ∧ s.line = ⟨0, frames, []⟩ ∧ s.returned = []
  step s
    | .engine =>
      if s.engine.running then
        (descAt s.port.rxDescriptors s.engine.current).bind fun f =>
          -- The engine looks at `CSTOP` before it writes, and halts at a descriptor that is not read yet.
          if f.cstop then some { s with engine := { s.engine with running := false } }
          else
            (s.line.place mem f).map fun placed =>
              let i := indexAt s.port.rxDescriptors s.engine.current
              { s with
                port := { s.port with rxDescriptors := s.port.rxDescriptors.set i placed.1 }
                engine := { s.engine with current := f.desc.nextDescriptor }
                line := placed.2 }
      else none
    | .timestamp =>
      if s.call = .none then some { s with call := .stamp mem.rxNum s.port.userRxDesc } else none
    | .read settings bufLength =>
      if s.call = .none ∧ bufLength < 18446744073709551616 then
        some { s with call := .scan settings bufLength mem.rxNum s.port.userRxDesc 0 none }
      else none
    -- The commands are given at the start, and the descriptors are swept one by one after them.
    | .purge d =>
      if s.call = .none then
        some { s with
          call := .purge 0
          engine := (dmaExecuteSTOPR cfg ++ dmaExecuteRSTR cfg ++
            issued (ioExecuteRRES dev cfg d).1).foldl RxEngine.store s.engine
          line := s.line.purge
          returned := [] }
      else none
    | .call d =>
      if s.call = .none then none
      -- The last step of a purge gives the engine its first descriptor, and `go` is still to come.
      else if s.call = .purge mem.rxNum then
        some { s with
          port := s.port.rewind
          call := .none
          starting := s.starting + 1
          engine := s.engine.store
            (.register 2 drdbOffset (s.port.rxDescriptors.getD 0 default).descPhysicalAddress) }
      else
        let next := s.call.step dev mem s.port d
        some { s with
          port := next.1
          call := next.2
          returned := s.returned ++
            if next.2 = .none then (s.call.returns dev s.port d).toList else [] }
    | .go =>
      if 0 < s.starting then
        some { s with
          starting := s.starting - 1
          engine := (dmaExecuteGOR cfg).foldl RxEngine.store s.engine }
      else none

/-- Purges do not overlap, and reads of several frames have passes enough. -/
def Orderly (s : DmaSystem) : DmaEvent δ → Prop
  | .purge _ => s.starting = 0
  | .call _ => s.call.Enough mem s.port
  | _ => True

variable {dev mem}

/-! ### Runs -/

/-- The port between purges: what is in the ring, where the call stands, and the reads so far. -/
structure Flying (mem : Memory) (s : DmaSystem) (head : List IoFrame)
    (groups : List (FrameGroup mem)) (part free : List IoFrame) (held : List WireFrame)
    (handed : List (List WireFrame)) (taking current : List WireFrame) : Prop where
  carried : DmaCarried mem s.port s.engine s.line head groups part free held
  call : CallAt mem s.port.userRxDesc (groups.flatMap FrameGroup.descs ++ part) s.call head taking
    current
  returned : List.Forall₂ DmaDelivered s.returned handed
  received : s.line.received = handed.flatten ++ (taking ++ (current ++ held))
  starting : s.starting ≤ 1
  waiting : s.starting = 1 → s.engine.running = false ∧
    head ++ (groups.flatMap FrameGroup.descs ++ part) = [] ∧
    free.head?.map IoFrame.descPhysicalAddress = some s.engine.drdb

/-- A purge that has come to the descriptor `i`. -/
structure Purging (mem : Memory) (s : DmaSystem) (i : Nat) : Prop where
  call : s.call = .purge i
  inside : i ≤ mem.rxNum
  ring : ∃ q : List IoFrame, s.port.rxDescriptors =
      (q.take i).map (purgedRxFrame mem) ++ q.drop i ∧ Linked q ∧ q.length = mem.rxNum ∧
    ∀ f ∈ q, f.buffer.length = mem.rxSize
  stopped : s.engine.running = false
  starting : s.starting = 0
  line : s.line.placed = 0 ∧ s.line.received = []
  returned : s.returned = []

/-- The frames come from the line in its order; what a read handed out is frames received. -/
structure DmaSystem.Inv (mem : Memory) (cfg : PortConfig) (frames : List WireFrame)
    (s : DmaSystem) : Prop where
  dma : cfg.isDma = true
  order : ∃ past, past ++ (s.line.received ++ s.line.line) = frames
  phase : (∃ head groups part free held handed taking current,
      Flying mem s head groups part free held handed taking current) ∨ ∃ i, Purging mem s i

private theorem DmaLine.place_order {l l' : DmaLine} {f g : IoFrame}
    (placed : l.place mem f = some (g, l')) :
    l'.received ++ l'.line = l.received ++ l.line := by
  unfold DmaLine.place at placed
  cases line : l.line with
  | nil => simp [line] at placed
  | cons w rest =>
    simp only [line] at placed
    split at placed
    · obtain ⟨-, rfl⟩ := Prod.mk.inj (Option.some.inj placed)
      simp
    · obtain ⟨-, rfl⟩ := Prod.mk.inj (Option.some.inj placed)
      rfl

/-- What a purge leaves of the engine: it runs, from the first descriptor. -/
private theorem ioPurgeRx_engine (dma : cfg.isDma = true) (q : RxPort) (d : δ) (e : RxEngine) :
    (ioPurgeRx dev mem cfg q d).2.1.foldl RxEngine.store e =
      ⟨((resetRx mem q).rxDescriptors.getD 0 default).descPhysicalAddress, true,
        ((resetRx mem q).rxDescriptors.getD 0 default).descPhysicalAddress⟩ := by
  simp only [ioPurgeRx, dma, if_true]
  rw [List.foldl_append, store_go dma, List.foldl_append, store_stop dma]
  rfl

/-- A sweep that changes one element after the other. -/
theorem modify_swept {α : Type} (f : α → α) {q : List α} {i : Nat} (inside : i < q.length) :
    ((q.take i).map f ++ q.drop i).modify i f = (q.take (i + 1)).map f ++ q.drop (i + 1) := by
  induction q generalizing i with
  | nil => simp at inside
  | cons x q ih =>
    cases i with
    | zero => simp
    | succ i =>
      have rest := ih (Nat.lt_of_succ_lt_succ inside)
      simpa using rest

/-- The engine at the first descriptor of a ring just purged. -/
private theorem engineAt_first {q : List IoFrame} (size : q.length = mem.rxNum) {e : RxEngine}
    (current : e.current =
      ((q.map (purgedRxFrame mem)).getD 0 default).descPhysicalAddress) :
    EngineAt e (q.map (purgedRxFrame mem)) := by
  have pos := mem.rxNum_pos
  cases q with
  | nil => simp only [List.length_nil] at size; omega
  | cons f q => simp [EngineAt, current]

namespace DmaSystem.Inv

variable {cfg} {frames : List WireFrame} {s t : DmaSystem}

private theorem initial (init : (dmaSystem dev mem cfg frames).init s) : s.Inv mem cfg frames := by
  obtain ⟨dma, ⟨q, d, e, linked, size, buffers, port, engine⟩, call, starting, line, returned⟩ := init
  refine ⟨dma, ⟨[], by simp [line]⟩, .inl ?_⟩
  rw [ioPurgeRx_engine cfg dma] at engine
  refine ⟨[], [], [], q.rxDescriptors.map (purgedRxFrame mem), [], [], [], [], ?_⟩
  exact {
    carried := by
      rw [port]
      exact .reset linked size buffers (fun _ => engineAt_first size (by rw [engine]; rfl))
        (by rw [line])
    call := by rw [call]; exact .idle
    returned := by rw [returned]; exact .nil
    received := by rw [line]; rfl
    starting := by rw [starting]; exact Nat.zero_le 1
    waiting := fun one => by simp [starting] at one }

section Flying

variable {head part free : List IoFrame} {groups : List (FrameGroup mem)}
  {held taking current : List WireFrame} {handed : List (List WireFrame)}
  (h : Flying mem s head groups part free held handed taking current)
include h

/-- A step of the engine. -/
private theorem engine (stepped : (dmaSystem dev mem cfg frames).step s .engine = some t) :
    (∃ groups' part' free' held',
        Flying mem t head groups' part' free' held' handed taking current) ∧
      t.line.received ++ t.line.line = s.line.received ++ s.line.line := by
  simp only [dmaSystem] at stepped
  split at stepped
  next running =>
    obtain ⟨f₀, found, turn⟩ := Option.bind_eq_some_iff.mp stepped
    split at turn
    -- The engine halts, and nothing else changes.
    next =>
      obtain rfl := Option.some.inj turn
      refine ⟨⟨groups, part, free, held, ?_⟩, rfl⟩
      exact { h with
        carried := { h.carried with stands := fun running => by cases running }
        waiting := fun one => ⟨rfl, (h.waiting one).2⟩ }
    -- A free descriptor is filled, since a finished one would have had `CSTOP`.
    next opened =>
      obtain ⟨⟨g, l'⟩, placed, rfl⟩ := Option.map_eq_some_iff.mp turn
      cases free with
      | nil => exact absurd (h.carried.full running found) opened
      | cons f rest =>
        obtain ⟨groups', part', done, carried, shape, received⟩ :=
          h.carried.engine running found placed
        refine ⟨⟨groups', part', rest, held ++ done, ?_⟩, DmaLine.place_order placed⟩
        exact {
          carried := carried
          call := by rw [shape]; exact h.call.append _
          returned := h.returned
          received := by rw [received, h.received]; simp
          starting := h.starting
          waiting := fun one => by simp [(h.waiting one).1] at running }
  next => cases stepped

/-- A step of the call that has the spinlock. -/
private theorem call (enough : s.call.Enough mem s.port) {d : δ}
    (stepped : (dmaSystem dev mem cfg frames).step s (.call d) = some t) :
    (∃ head' groups' free' held' handed' taking' current',
        Flying mem t head' groups' part free' held' handed' taking' current') ∧
      t.line = s.line := by
  simp only [dmaSystem] at stepped
  split at stepped
  next => cases stepped
  next busy =>
    split at stepped
    next purging =>
      have at_ := h.call
      rw [purging] at at_
      cases at_
    next =>
      obtain rfl := Option.some.inj stepped
      obtain ⟨head', groups', free', held', taking', current', handed', carried, at_, more, split_,
        empty⟩ := (h.carried.step dev h.call busy enough d).left
      refine ⟨⟨head', groups', free', held', handed ++ handed', taking', current', ?_⟩, rfl⟩
      exact {
        carried := carried
        call := at_
        returned := List.rel_append h.returned more
        received := by
          rw [h.received, split_]
          simp
        starting := h.starting
        waiting := by
          intro one
          obtain ⟨halted, nothing, first⟩ := h.waiting one
          obtain ⟨nothing', same⟩ := empty nothing
          exact ⟨halted, nothing', by rw [same]; exact first⟩ }

/-- A purge stops the engine and begins to sweep. -/
private theorem purge (dma : cfg.isDma = true) (alone : s.starting = 0) {d : δ}
    (stepped : (dmaSystem dev mem cfg frames).step s (.purge d) = some t) :
    Purging mem t 0 ∧ ∃ dropped, s.line.received ++ s.line.line =
      s.line.received ++ (dropped ++ t.line.line) := by
  simp only [dmaSystem] at stepped
  split at stepped
  next =>
    obtain rfl := Option.some.inj stepped
    refine ⟨⟨rfl, Nat.zero_le _, ⟨s.port.rxDescriptors, by simp, h.carried.ring.linked,
      h.carried.ring.size, ?_⟩, ?_, alone, ⟨rfl, rfl⟩, rfl⟩, ?_⟩
    · intro f member
      have bare := h.carried.ring.ring.buffers_mem f.bare (by
        simp only [RxPort.bare]
        exact List.mem_map_of_mem member)
      exact bare
    · rw [store_stop dma]
    · simp only [DmaLine.purge]
      split
      · exact ⟨[], rfl⟩
      · exact ⟨s.line.line.take 1, by rw [← List.drop_one, List.take_append_drop]⟩
  next => cases stepped

/-- GO_R sets off the engine at the first descriptor. -/
private theorem go (dma : cfg.isDma = true)
    (stepped : (dmaSystem dev mem cfg frames).step s .go = some t) :
    Flying mem t head groups part free held handed taking current ∧ t.line = s.line := by
  simp only [dmaSystem] at stepped
  split at stepped
  next waits =>
    obtain rfl := Option.some.inj stepped
    have one : s.starting = 1 := Nat.le_antisymm h.starting waits
    obtain ⟨-, empty, first⟩ := h.waiting one
    refine ⟨?_, rfl⟩
    exact { h with
      carried := { h.carried with
        stands := by
          intro _
          rw [store_go dma, empty, List.append_nil]
          exact first }
      starting := by simp [one]
      waiting := fun again => by simp [one] at again }
  next => cases stepped

end Flying

/-- A step of a purge: one more descriptor, or the indices and DRDB. -/
private theorem sweep {i : Nat} (h : Purging mem s i) {d : δ}
    (stepped : (dmaSystem dev mem cfg frames).step s (.call d) = some t) :
    (Purging mem t (i + 1) ∨ ∃ free, Flying mem t [] [] [] free [] [] [] []) ∧ t.line = s.line := by
  obtain ⟨q, shape, linked, size, buffers⟩ := h.ring
  simp only [dmaSystem, h.call] at stepped
  split at stepped
  next idle => cases idle
  next =>
    split at stepped
    -- The purge ends, and the ring is a fresh one.
    next last =>
      obtain rfl := Option.some.inj stepped
      obtain rfl : i = mem.rxNum := RxCall.purge.inj last
      rw [List.take_of_length_le size.le, List.drop_of_length_le size.le, List.append_nil] at shape
      have port : s.port.rewind = resetRx mem { s.port with rxDescriptors := q } := by
        rw [RxPort.rewind, resetRx, shape]
      refine ⟨.inr ⟨q.map (purgedRxFrame mem), ?_⟩, rfl⟩
      exact {
        carried := by
          rw [port]
          exact .reset linked size buffers
            (fun running => by simp [RxEngine.store, h.stopped] at running) h.line.1
        call := .idle
        returned := by rw [h.returned]; exact .nil
        received := h.line.2
        starting := by simp [h.starting]
        waiting := by
          intro _
          refine ⟨by simpa [RxEngine.store] using h.stopped, rfl, ?_⟩
          have pos := mem.rxNum_pos
          cases q with
          | nil => simp only [List.length_nil] at size; omega
          | cons f q => simp [shape, RxEngine.store] }
    next more =>
      obtain rfl := Option.some.inj stepped
      have inside : i < q.length := by
        rw [size]
        exact Nat.lt_of_le_of_ne h.inside fun eq => more (by rw [eq])
      refine ⟨.inl ?_, rfl⟩
      refine ⟨rfl, by omega, ⟨q, ?_, linked, size, buffers⟩, h.stopped, h.starting, h.line, ?_⟩
      · simp only [RxCall.step, shape]
        exact modify_swept _ inside
      · simpa [RxCall.step] using h.returned

private theorem step {e : DmaEvent δ} (h : s.Inv mem cfg frames) (orderly : Orderly mem s e)
    (stepped : (dmaSystem dev mem cfg frames).step s e = some t) : t.Inv mem cfg frames := by
  obtain ⟨past, order⟩ := h.order
  -- Either frames are in flight, or a purge is under way, which excludes all other steps.
  rcases h.phase with ⟨head, groups, part, free, held, handed, taking, current, fly⟩ | ⟨i, purging⟩
  · cases e with
    | engine =>
      obtain ⟨⟨groups', part', free', held', fly'⟩, same⟩ := engine fly stepped
      exact ⟨h.dma, ⟨past, by rw [same]; exact order⟩, .inl ⟨_, _, _, _, _, _, _, _, fly'⟩⟩
    | timestamp =>
      obtain ⟨idle, eq⟩ := Option.ite_none_right_eq_some.mp stepped
      obtain rfl := Option.some.inj eq
      have at_ := fly.call
      rw [idle] at at_
      cases at_ with
      | idle =>
        exact ⟨h.dma, ⟨past, order⟩,
          .inl ⟨_, _, _, _, _, _, _, _, { fly with call := .stamping _ _ }⟩⟩
    | read settings bufLength =>
      obtain ⟨⟨idle, size⟩, eq⟩ := Option.ite_none_right_eq_some.mp stepped
      obtain rfl := Option.some.inj eq
      have at_ := fly.call
      rw [idle] at at_
      cases at_ with
      | idle =>
        exact ⟨h.dma, ⟨past, order⟩, .inl ⟨_, _, _, _, _, _, _, _,
          { fly with call := .scanning size fly.carried.scan_start }⟩⟩
    | purge d =>
      obtain ⟨sweeping, dropped, same⟩ := purge fly h.dma orderly stepped
      -- What was received and not read is lost to the purge.
      refine ⟨h.dma, ⟨past ++ (s.line.received ++ dropped), ?_⟩, .inr ⟨0, sweeping⟩⟩
      rw [sweeping.line.2, ← order, same]
      simp
    | call d =>
      obtain ⟨⟨head', groups', free', held', handed', taking', current', fly'⟩, same⟩ :=
        call fly orderly stepped
      exact ⟨h.dma, ⟨past, by rw [same]; exact order⟩, .inl ⟨_, _, _, _, _, _, _, _, fly'⟩⟩
    | go =>
      obtain ⟨fly', same⟩ := go fly h.dma stepped
      exact ⟨h.dma, ⟨past, by rw [same]; exact order⟩, .inl ⟨_, _, _, _, _, _, _, _, fly'⟩⟩
  · cases e with
    | engine => simp [dmaSystem, purging.stopped] at stepped
    | timestamp => simp [dmaSystem, purging.call] at stepped
    | read settings bufLength => simp [dmaSystem, purging.call] at stepped
    | purge d => simp [dmaSystem, purging.call] at stepped
    | go => simp [dmaSystem, purging.starting] at stepped
    | call d =>
      obtain ⟨next, same⟩ := sweep purging stepped
      have order' : ∃ past, past ++ (t.line.received ++ t.line.line) = frames :=
        ⟨past, by rw [same]; exact order⟩
      rcases next with purging' | ⟨free, fly⟩
      · exact ⟨h.dma, order', .inr ⟨_, purging'⟩⟩
      · exact ⟨h.dma, order', .inl ⟨_, _, _, _, _, _, _, _, fly⟩⟩

end DmaSystem.Inv

variable {cfg}

/-- Over every interleaving of the engine with the steps of reads, stamps and purges, in which
purges do not overlap and no read of several frames runs out of passes, the reads since the last
purge have handed out the frames received since then, in order and whole. -/
theorem dma_frames_delivered {frames : List WireFrame} {s : DmaSystem}
    (reached : (dmaSystem dev mem cfg frames).ReachedUnder (Orderly mem) s) :
    ∃ (handed : List (List WireFrame)) (past : List WireFrame),
      List.Forall₂ DmaDelivered s.returned handed ∧ handed.flatten <+: s.line.received ∧
        past ++ s.line.received ++ s.line.line = frames := by
  have inv := reached.invariant (P := DmaSystem.Inv mem cfg frames) (fun _ => .initial)
    fun _ _ _ h orderly stepped => h.step orderly stepped
  obtain ⟨past, order⟩ := inv.order
  rw [← List.append_assoc] at order
  rcases inv.phase with ⟨head, groups, part, free, held, handed, taking, current, fly⟩ | ⟨i, purging⟩
  · exact ⟨handed, past, fly.returned, ⟨_, fly.received.symm⟩, order⟩
  · exact ⟨[], past, by rw [purging.returned]; exact .nil, by simp, order⟩

instance decidableEnough (p : RxPort) : (call : RxCall) → Decidable (call.Enough mem p)
  | .scan _ _ (n + 1) _ _ (some (passes, _)) =>
    inferInstanceAs (Decidable (_ = true → _ = true → mem.rxNum - n ≤ passes))
  | .none | .scan _ _ 0 _ _ _ | .scan _ _ (_ + 1) _ _ none | .read _ _ _ _ | .stream _ _ _ _
  | .stamp _ _ | .purge _ => .isTrue trivial

instance decidableOrderly (s : DmaSystem) : (e : DmaEvent δ) → Decidable (Orderly mem s e)
  | .purge _ => inferInstanceAs (Decidable (s.starting = 0))
  | .call _ => inferInstanceAs (Decidable (s.call.Enough mem s.port))
  | .engine | .timestamp | .read _ _ | .go => .isTrue trivial

/-- Frames of one descriptor and of two, each descriptor of two words. -/
def oneThenTwo : List WireFrame :=
  [shortFrame, ⟨[1, 2, 3, 4, 5, 6, 7, 8, 9, 10], .replicate 2 0, by decide, by decide, by decide⟩]

/-- A port just made. -/
def newDmaSystem : DmaSystem where
  port := newDmaRx.port
  call := .none
  starting := 0
  engine := newDmaRx.engine
  line := ⟨0, oneThenTwo, []⟩
  returned := []

theorem newDmaSystem_init :
    (dmaSystem constant .small dmaConfig oneThenTwo).init newDmaSystem :=
  ⟨rfl, ⟨linkedRx, 0#32, ⟨0#32, false, 0#32⟩,
    linked_ioLinkDescriptors (by decide) (by decide), rfl, by decide, rfl, rfl⟩,
    rfl, rfl, rfl, rfl⟩

/-- The first frame is read, and the second comes in behind it. -/
def readBetween : List (DmaEvent (BitVec 32)) :=
  [.engine, .read ⟨true, false, true⟩ 32, .call 0#32, .call 0#32, .call 0#32, .engine, .engine,
    .read ⟨true, false, true⟩ 32] ++ List.replicate 5 (.call 0#32)

theorem dma_frames_delivered_between :
    ∃ s, (dmaSystem constant .small dmaConfig oneThenTwo).replay newDmaSystem readBetween = some s ∧
      s.returned.map ReadCall.result = [.ok [1, 2, 3], .ok [1, 2, 3, 4, 5, 6, 7, 8, 9, 10]] ∧
      ∃ (handed : List (List WireFrame)) (past : List WireFrame),
        List.Forall₂ DmaDelivered s.returned handed ∧ handed.flatten <+: s.line.received ∧
          past ++ s.line.received ++ s.line.line = oneThenTwo :=
  ⟨_, rfl, by decide, dma_frames_delivered
    (.replay (.init newDmaSystem_init) readBetween (by decide) rfl)⟩

/-- The engine fills behind the first frame while it is being read. -/
def readRacing : List (DmaEvent (BitVec 32)) :=
  [.engine, .read ⟨true, false, true⟩ 32, .call 0#32, .call 0#32, .engine, .engine] ++
    List.replicate 4 (.call 0#32)

/-- A read of several frames that runs out of passes hands out part of a frame. -/
theorem dma_frame_torn :
    ∃ s, (dmaSystem constant .small dmaConfig oneThenTwo).Reached s ∧
      s.line.received = oneThenTwo ∧
      s.returned.map ReadCall.result = [.ok ([1, 2, 3] ++ [1, 2, 3, 4, 5, 6, 7, 8])] := by
  have run : ∃ s, (dmaSystem constant .small dmaConfig oneThenTwo).replay newDmaSystem readRacing =
      some s ∧ s.line.received = oneThenTwo ∧
      s.returned.map ReadCall.result = [.ok ([1, 2, 3] ++ [1, 2, 3, 4, 5, 6, 7, 8])] :=
    ⟨_, rfl, by decide, by decide⟩
  obtain ⟨s, replayed, left⟩ := run
  exact ⟨s, Machine.Reached.replay (.init newDmaSystem_init) readRacing replayed, left⟩

end Fscc
