import Fscc.Receiver
import Fscc.RxDma
import Fscc.RxRead

/-!
# The receive ring between the engine and the readers

In DMA mode the engine finishes descriptors in the order of their links, and reads free them from
`user_rx_desc` on. `fifo_rx_desc` plays no part, and nothing but the output depends on a
timestamp: without them the ring is an `RxRing`, with the engine where the drain would be.
-/

namespace Fscc

open CInt

/-! ### Timestamps aside -/

/-- A descriptor without its timestamp. -/
def IoFrame.bare (f : IoFrame) : IoFrame := f.setTimestamp .clear

@[simp] theorem IoFrame.desc_bare (f : IoFrame) : f.bare.desc = f.desc := rfl

@[simp] theorem IoFrame.buffer_bare (f : IoFrame) : f.bare.buffer = f.buffer := rfl

@[simp] theorem IoFrame.place_bare (f : IoFrame) : f.bare.place = f.place := rfl

@[simp] theorem IoFrame.flags_bare (f : IoFrame) :
    f.bare.fe = f.fe ∧ f.bare.cstop = f.cstop ∧ f.bare.count = f.count := by
  simp [bare]

@[simp] theorem freed_bare (f : IoFrame) : freed f.bare = freed f ∧ (freed f).bare = freed f := by
  constructor
  · rfl
  · rfl

private theorem getD_bare (fs : List IoFrame) (i : Nat) :
    (fs.map IoFrame.bare).getD i default = (fs.getD i default).bare := by
  rw [List.getD_eq_getElem?_getD, List.getD_eq_getElem?_getD, List.getElem?_map]
  cases fs[i]? with
  | none => rfl
  | some f => rfl

variable {δ : Type} (dev : Device δ) (mem : Memory)

/-- The port without timestamps, as if the drain stood behind the `finished` descriptors. -/
def RxPort.bare (p : RxPort) (finished : Nat) : RxPort :=
  { p with
    rxDescriptors := p.rxDescriptors.map IoFrame.bare
    fifoRxDesc := Ring.slot mem.rxNum p.userRxDesc finished }

/-- The receive ring in DMA mode: the finished descriptors, then those free for the engine. -/
structure RxDmaRing (p : RxPort) (finished free : List IoFrame) : Prop where
  ring : RxRing mem (p.bare mem finished.length) finished free
  linked : Linked p.rxDescriptors
  counts : ∀ f ∈ finished ++ free, f.desc.dataCount = mem.rxSize

variable {dev mem}

private theorem Linked.bare {fs : List IoFrame} (linked : Linked fs) : Linked
    (fs.map IoFrame.bare) := by
  refine linked.congr ?_
  simp [Function.comp_def]

namespace RxDmaRing

variable {p : RxPort} {finished free rest : List IoFrame} {f g : IoFrame}

theorem size (h : RxDmaRing mem p finished free) : p.rxDescriptors.length = mem.rxNum := by
  simpa [RxPort.bare] using h.ring.size

private theorem user_lt (h : RxDmaRing mem p finished free) :
    p.userRxDesc < p.rxDescriptors.length := by
  rw [h.size]
  exact h.ring.user_lt

/-- The descriptor `k` places after `user_rx_desc`. -/
theorem getD_slot (h : RxDmaRing mem p finished free) {k : Nat} (inside : k < mem.rxNum) :
    ((finished ++ free).getD k default) =
      (p.rxDescriptors.getD (Ring.slot mem.rxNum p.userRxDesc k) default).bare := by
  have view : Ring.view (p.rxDescriptors.map IoFrame.bare) p.userRxDesc = finished ++ free :=
    h.ring.view
  have read := Ring.getD_slot (l := p.rxDescriptors.map IoFrame.bare) (i := p.userRxDesc)
    (default : IoFrame) (by simpa [h.size] using inside)
  rw [view, List.length_map, h.size, getD_bare] at read
  exact read.symm

/-- What a read works on is the oldest finished descriptor. -/
theorem userFrame (h : RxDmaRing mem p (f :: finished) free) : p.userFrame.bare = f := by
  have user_lt : p.userRxDesc < mem.rxNum := h.ring.user_lt
  have same := h.getD_slot (k := 0) mem.rxNum_pos
  rw [Ring.slot_zero user_lt] at same
  exact same.symm

/-- The descriptors of the ring are found by their addresses. -/
private theorem found (h : RxDmaRing mem p finished free) {k : Nat}
    (here : (finished ++ free)[k]? = some f) :
    ∃ f₀, f₀.bare = f ∧
      p.rxDescriptors[Ring.slot mem.rxNum p.userRxDesc k]? = some f₀ ∧
      descAt p.rxDescriptors f.descPhysicalAddress = some f₀ ∧
      indexAt p.rxDescriptors f.descPhysicalAddress = Ring.slot mem.rxNum p.userRxDesc k := by
  have inside : k < p.rxDescriptors.length := by
    have view : Ring.view (p.rxDescriptors.map IoFrame.bare) p.userRxDesc = finished ++ free :=
      h.ring.view
    have size := congrArg List.length view
    rw [Ring.length_view, List.length_map] at size
    rw [size]
    exact (List.getElem?_eq_some_iff.mp here).1
  have view : Ring.view (p.rxDescriptors.map IoFrame.bare) p.userRxDesc = finished ++ free :=
    h.ring.view
  rw [← view, Ring.getElem?_view (by simpa using inside), List.length_map, h.size,
    List.getElem?_map] at here
  obtain ⟨f₀, present, rfl⟩ := Option.map_eq_some_iff.mp here
  have index : indexAt p.rxDescriptors f₀.descPhysicalAddress = _ :=
    h.linked.indexAt_of_getElem? present
  exact ⟨f₀, rfl, present, h.linked.descAt_of_mem (List.mem_of_getElem? present), index⟩

/-- A read frees the oldest finished descriptor. -/
private theorem putUser (h : RxDmaRing mem p (f :: finished) free) :
    RxDmaRing mem (p.putUser mem (freed p.userFrame)) finished (free ++ [freed f]) := by
  have user := h.userFrame
  have buffer := h.ring.buffers f (by simp)
  have after := h.ring.putUser (freed f) (freed_empty f).1 (freed_empty f).2 buffer
  have same : (p.bare mem (f :: finished).length).putUser mem (freed f) =
      (p.putUser mem (freed p.userFrame)).bare mem finished.length := by
    have user_lt : p.userRxDesc < mem.rxNum := h.ring.user_lt
    simp only [RxPort.putUser, RxPort.bare, List.map_set, freed_bare, List.length_cons, ← user,
      Ring.slot_next user_lt]
  rw [same] at after
  refine ⟨after, ?_, ?_⟩
  · have here : p.rxDescriptors[p.userRxDesc]? = some p.userFrame := by
      rw [RxPort.userFrame, List.getD_eq_getElem?_getD, List.getElem?_eq_getElem h.user_lt]
      rfl
    exact h.linked.set here rfl
  · intro x member
    simp only [List.mem_append, List.mem_singleton] at member
    rcases member with old | old | rfl
    · exact h.counts x (by simp [old])
    · exact h.counts x (by simp [old])
    · exact h.counts f (by simp)

/-- The engine finishes the first free descriptor. -/
private theorem fill (h : RxDmaRing mem p finished (f :: rest)) (place : g.place = f.place)
    (cstop : g.cstop = true) (buffer : g.buffer.length = mem.rxSize)
    (count : g.desc.dataCount = mem.rxSize) :
    RxDmaRing mem { p with
      rxDescriptors := p.rxDescriptors.set (indexAt p.rxDescriptors f.descPhysicalAddress) g }
      (finished ++ [g.bare]) rest := by
  obtain ⟨f₀, bare, present, -, index⟩ := h.found (f := f) (k := finished.length) (by simp)
  have after := h.ring.store_finished
    ⟨g.bare, g.desc.control, p.rxBytesInFrame, p.rxFrameSize⟩ cstop rfl (by simpa using buffer)
  have same : (p.bare mem finished.length).store mem
      ⟨g.bare, g.desc.control, p.rxBytesInFrame, p.rxFrameSize⟩ =
      ({ p with
        rxDescriptors := p.rxDescriptors.set (indexAt p.rxDescriptors f.descPhysicalAddress) g }
        : RxPort).bare mem (finished ++ [g.bare]).length := by
    have moved : hasCstop g.desc.control = true := cstop
    simp only [RxPort.store, RxPort.bare, moved, if_true, index, List.map_set,
      List.length_append, List.length_singleton, Ring.next_slot mem.rxNum_pos]
  rw [same] at after
  refine ⟨after, ?_, ?_⟩
  · rw [index]
    refine h.linked.set present ?_
    rw [place, ← bare, IoFrame.place_bare]
  · intro x member
    simp only [List.mem_append, List.mem_singleton] at member
    rcases member with (old | rfl) | old
    · exact h.counts x (by simp [old])
    · exact count
    · exact h.counts x (by simp [old])

/-- The first free descriptor names the one the engine turns to next. -/
private theorem next (h : RxDmaRing mem p finished (f :: rest)) :
    (rest ++ finished ++ [f]).head?.map IoFrame.descPhysicalAddress =
      some f.desc.nextDescriptor :=
  h.linked.bare.next_view h.ring.view

end RxDmaRing

/-! ### What reaches the engine -/

/-- The frames on the line, how much of the first is in descriptors, and the frames finished since
the last purge. -/
structure DmaLine where
  placed : Nat
  line : List WireFrame
  received : List WireFrame

/-- A descriptor as the engine leaves it. -/
def engineFrame (data : List UInt8) (control : BitVec 32) (f : IoFrame) : IoFrame :=
  (f.setBuffer (memcpyAt f.buffer 0 data)).setControl control

variable (mem) in
/-- The engine finishes the descriptor `f`: with the rest of a frame, of which the control word
then has the length, or with as much of it as `f` has room for. -/
def DmaLine.place (l : DmaLine) (f : IoFrame) : Option (IoFrame × DmaLine) :=
  match l.line with
  | [] => none
  | w :: rest =>
    let left := w.data.drop l.placed
    if left.length ≤ mem.rxSize then
      some (engineFrame left (BitVec.ofNat 32 w.length ||| descCstopBit ||| descFeBit) f,
        { placed := 0, line := rest, received := l.received ++ [w] })
    else
      some (engineFrame (left.take mem.rxSize) descCstopBit f,
        { l with placed := l.placed + mem.rxSize })

/-- A purge drops the frame of which some is in descriptors, and what is finished. -/
def DmaLine.purge (l : DmaLine) : DmaLine :=
  { placed := 0
    line := if l.placed = 0 then l.line else l.line.tail
    received := [] }

/-- The descriptors of the engine, in the order in which it comes to them. -/
def EngineAt (e : RxEngine) (ring : List IoFrame) : Prop :=
  ring.head?.map IoFrame.descPhysicalAddress = some e.current

variable (mem) in
/-- The ring with its frames: what is left of the frame that is being read, the frames `held`, and
the full descriptors of the frame that the engine is placing. -/
structure DmaCarried (p : RxPort) (e : RxEngine) (l : DmaLine) (head : List IoFrame)
    (groups : List (FrameGroup mem)) (part free : List IoFrame) (held : List WireFrame) :
    Prop where
  ring : RxDmaRing mem p (head ++ (groups.flatMap FrameGroup.descs ++ part)) free
  stands : e.running = true →
    EngineAt e (free ++ (head ++ (groups.flatMap FrameGroup.descs ++ part)))
  whole : ∀ g ∈ groups, g.Whole
  content : groups.map FrameGroup.bytes = held.map WireFrame.data
  part_ok : ∀ f ∈ part, f.Full mem
  placed : l.placed = part.length * mem.rxSize
  begun : ∀ w rest, l.line = w :: rest →
    l.placed < w.length ∧ part.flatMap IoFrame.buffer = w.data.take l.placed
  idle : l.line = [] → part = []

namespace DmaCarried

variable {p : RxPort} {e : RxEngine} {l l' : DmaLine} {head part free rest : List IoFrame}
  {groups : List (FrameGroup mem)} {held : List WireFrame} {f f₀ g : IoFrame}

/-- The engine is past the last free descriptor: it meets one that is finished. -/
theorem full (h : DmaCarried mem p e l head groups part [] held) (running : e.running = true)
    (found : descAt p.rxDescriptors e.current = some f₀) : f₀.cstop = true := by
  have stands := h.stands running
  rw [List.nil_append] at stands
  obtain ⟨f, first, address⟩ := Option.map_eq_some_iff.mp stands
  have member : f ∈ head ++ (groups.flatMap FrameGroup.descs ++ part) := List.mem_of_head? first
  have done := h.ring.ring.finished_cstop f member
  obtain ⟨f₁, bare, -, descAt, -⟩ := h.ring.found (f := f) (k := 0)
    (by rw [List.append_nil, ← List.head?_eq_getElem?, first])
  rw [← address, descAt] at found
  obtain rfl := Option.some.inj found
  rw [← bare] at done
  simpa using done

/-- Otherwise it is at the first free descriptor. -/
private theorem front (h : DmaCarried mem p e l head groups part (f :: rest) held)
    (running : e.running = true) (found : descAt p.rxDescriptors e.current = some f₀) :
    f₀.bare = f ∧ e.current = f.descPhysicalAddress := by
  have address : f.descPhysicalAddress = e.current := Option.some.inj (h.stands running)
  obtain ⟨f₁, bare, -, descAt, -⟩ := h.ring.found (f := f)
    (k := (head ++ (groups.flatMap FrameGroup.descs ++ part)).length) (by simp)
  rw [address] at descAt
  rw [descAt] at found
  obtain rfl := Option.some.inj found
  exact ⟨bare, address.symm⟩

/-- Whatever the engine leaves in its descriptor, it turns to the next one. -/
private theorem advance (h : DmaCarried mem p e l head groups part (f :: rest) held)
    (running : e.running = true) (found : descAt p.rxDescriptors e.current = some f₀)
    (place : g.place = f₀.place) (cstop : g.cstop = true) (buffer : g.buffer.length = mem.rxSize)
    (count : g.desc.dataCount = f₀.desc.dataCount) :
    RxDmaRing mem
        { p with rxDescriptors := p.rxDescriptors.set (indexAt p.rxDescriptors e.current) g }
        (head ++ (groups.flatMap FrameGroup.descs ++ part) ++ [g.bare]) rest ∧
      EngineAt { e with current := f₀.desc.nextDescriptor }
        (rest ++ (head ++ (groups.flatMap FrameGroup.descs ++ part) ++ [g.bare])) := by
  -- The engine stands at the first free descriptor, which is the one that it fills.
  obtain ⟨bare, current⟩ := h.front running found
  have size := h.ring.counts f (by simp)
  have same : g.place = f.place := by rw [place, ← bare, IoFrame.place_bare]
  have next := h.ring.next
  constructor
  · rw [current]
    refine h.ring.fill same cstop buffer ?_
    rw [count]
    simpa [← bare] using size
  -- It goes on to the next in the ring: a free one, or the oldest finished one when none is free.
  · have address : g.descPhysicalAddress = f.descPhysicalAddress := IoFrame.address_of_place same
    unfold EngineAt
    rw [← bare] at next address
    cases rest with
    | cons x rest => simpa using next
    | nil =>
      generalize head ++ (groups.flatMap FrameGroup.descs ++ part) = finished at next ⊢
      cases finished with
      | cons x finished => simpa using next
      | nil => simpa [IoFrame.bare, IoFrame.setTimestamp, address] using next

variable (f₀) in
/-- The engine's data at the start of a buffer. -/
private theorem engineFrame_buffer {data : List UInt8} (control : BitVec 32)
    (fits : data.length ≤ f₀.buffer.length) :
    (engineFrame data control f₀).buffer = data ++ f₀.buffer.drop data.length ∧
      (engineFrame data control f₀).buffer.length = f₀.buffer.length := by
  constructor
  · simp [engineFrame, memcpyAt]
  · exact length_memcpyAt (by omega)

section Engine

variable (h : DmaCarried mem p e l head groups part (f :: rest) held)
include h

private theorem front_sizes (running : e.running = true)
    (found : descAt p.rxDescriptors e.current = some f₀) :
    f₀.buffer.length = mem.rxSize ∧ f₀.desc.dataCount = mem.rxSize := by
  obtain ⟨rfl, -⟩ := h.front running found
  exact ⟨h.ring.ring.buffers f₀.bare (by simp), h.ring.counts f₀.bare (by simp)⟩

/-- What is in the ring of a frame that the engine is placing leaves it a descriptor. -/
private theorem part_room : (part.length + 1) * mem.rxSize < 536870912 := by
  have sum := h.ring.ring.length_add
  have fits := mem.rx_fits
  simp only [List.length_append, List.length_cons] at sum
  have := Nat.mul_le_mul_right mem.rxSize (by omega : part.length + 1 ≤ mem.rxNum)
  omega

variable {w : WireFrame} {waiting : List WireFrame}

/-- The engine ends a frame: its descriptors become a group of their own. -/
private theorem engine_last (running : e.running = true)
    (found : descAt p.rxDescriptors e.current = some f₀) (line : l.line = w :: waiting)
    (ends : (w.data.drop l.placed).length ≤ mem.rxSize)
    (made : g = engineFrame (w.data.drop l.placed)
      (BitVec.ofNat 32 w.length ||| descCstopBit ||| descFeBit) f₀) :
    ∃ last : FrameGroup mem, last.descs = part ++ [g.bare] ∧ DmaCarried mem
      { p with rxDescriptors := p.rxDescriptors.set (indexAt p.rxDescriptors e.current) g }
      { e with current := f₀.desc.nextDescriptor }
      { placed := 0, line := waiting, received := l.received ++ [w] }
      head (groups ++ [last]) [] rest (held ++ [w]) := by
  obtain ⟨buffer, -⟩ := h.front_sizes running found
  obtain ⟨short, content⟩ := h.begun w waiting line
  have room := h.part_room
  have at_ := h.placed
  -- What is left of the frame fits the descriptor, so that the engine writes all of it.
  have fitted : (w.data.drop l.placed).length ≤ f₀.buffer.length := by rw [buffer]; exact ends
  obtain ⟨data, size⟩ := engineFrame_buffer _
    (BitVec.ofNat 32 w.length ||| descCstopBit ||| descFeBit) fitted
  rw [← made] at data size
  have cstop : g.cstop = true := by simp [made, engineFrame]
  obtain ⟨ring, stands⟩ := h.advance running found (by rw [made]; rfl) cstop (by rw [size, buffer])
    (by rw [made]; rfl)
  rw [List.length_drop] at ends
  rw [Nat.succ_mul] at room
  have enough : w.length ≤ part.length * mem.rxSize + mem.rxSize := by
    rw [WireFrame.length] at short ⊢
    omega
  -- The descriptors filled before and this one make a frame of their own.
  let last : FrameGroup mem :=
    { full := part
      last := g.bare
      full_ok := h.part_ok
      last_fe := by simp [made, engineFrame]
      last_cstop := by simp [cstop]
      last_buffer := by rw [IoFrame.buffer_bare, size, buffer] }
  have length : last.length = w.length := by
    simp [last, FrameGroup.length, made, engineFrame,
      Nat.mod_eq_of_lt (show w.length < 536870912 by omega)]
  have bytes : last.bytes = w.data := by
    rw [FrameGroup.bytes, length]
    simp only [last, IoFrame.buffer_bare, data, content]
    rw [← List.append_assoc, List.take_append_drop, WireFrame.length, List.take_left' rfl]
  have whole : last.Whole := by
    refine ⟨?_, ?_, ?_⟩
    · rw [length]
      exact w.status
    · rw [FrameGroup.Closed, length]
      exact at_ ▸ short
    · rw [FrameGroup.Fits, length, Nat.succ_mul]
      exact enough
  -- The ring is as it was, with one descriptor more among the finished.
  have shape : head ++ ((groups ++ [last]).flatMap FrameGroup.descs ++ []) =
      head ++ (groups.flatMap FrameGroup.descs ++ part) ++ [g.bare] := by
    simp [FrameGroup.descs, last]
  refine ⟨last, rfl, ?_⟩
  exact {
    ring := by rw [shape]; exact ring
    stands := fun _ => by rw [shape]; exact stands
    whole := by
      intro x member
      rcases List.mem_append.mp member with old | new
      · exact h.whole x old
      · rw [List.mem_singleton.mp new]
        exact whole
    content := by rw [List.map_append, List.map_append, h.content]; simp [bytes]
    part_ok := List.forall_mem_nil _
    placed := by simp
    begun := fun x _ _ => ⟨Nat.lt_of_lt_of_le Nat.two_pos x.status, by simp⟩
    idle := fun _ => rfl }

/-- The engine goes on with a frame: the descriptor is full. -/
private theorem engine_more (running : e.running = true)
    (found : descAt p.rxDescriptors e.current = some f₀) (line : l.line = w :: waiting)
    (more : ¬(w.data.drop l.placed).length ≤ mem.rxSize)
    (made : g = engineFrame ((w.data.drop l.placed).take mem.rxSize) descCstopBit f₀) :
    DmaCarried mem
      { p with rxDescriptors := p.rxDescriptors.set (indexAt p.rxDescriptors e.current) g }
      { e with current := f₀.desc.nextDescriptor } { l with placed := l.placed + mem.rxSize }
      head groups (part ++ [g.bare]) rest held := by
  obtain ⟨buffer, count⟩ := h.front_sizes running found
  obtain ⟨-, content⟩ := h.begun w waiting line
  -- Exactly a buffer of the frame goes into the descriptor.
  have taken : ((w.data.drop l.placed).take mem.rxSize).length = mem.rxSize := by
    rw [List.length_take]
    omega
  obtain ⟨data, size⟩ := engineFrame_buffer f₀ descCstopBit (taken.le.trans buffer.ge)
  rw [← made] at data size
  have cstop : g.cstop = true := by simp [made, engineFrame]
  obtain ⟨ring, stands⟩ := h.advance running found (by rw [made]; rfl) cstop (by rw [size, buffer])
    (by rw [made]; rfl)
  rw [taken, ← buffer, List.drop_length, List.append_nil, buffer] at data
  rw [List.length_drop] at more
  -- It carries no end of frame: it is full, and counts to the part of a frame.
  have full : g.bare.Full mem := by
    refine ⟨?_, ?_, ?_, ?_⟩
    · simp [made, engineFrame]
    · simp [cstop]
    · simpa [made, engineFrame] using count
    · rw [IoFrame.buffer_bare, size, buffer]
  have shape : head ++ (groups.flatMap FrameGroup.descs ++ (part ++ [g.bare])) =
      head ++ (groups.flatMap FrameGroup.descs ++ part) ++ [g.bare] := by simp
  exact {
    ring := by rw [shape]; exact ring
    stands := fun _ => by rw [shape]; exact stands
    whole := h.whole
    content := h.content
    part_ok := by
      intro x member
      rcases List.mem_append.mp member with old | new
      · exact h.part_ok x old
      · rw [List.mem_singleton.mp new]
        exact full
    placed := by rw [List.length_append, List.length_singleton, Nat.succ_mul, h.placed]
    begun := by
      intro x xs eq
      obtain ⟨rfl, rfl⟩ := List.cons.inj (line.symm.trans eq)
      refine ⟨?_, ?_⟩
      · rw [WireFrame.length]
        change l.placed + mem.rxSize < w.data.length
        omega
      · rw [List.flatMap_append, content, List.take_add]
        simp [data]
    idle := fun none_ => by simp [line] at none_ }

/-- The engine finishes a descriptor. It ends a frame with it or goes on. -/
theorem engine (running : e.running = true) (found : descAt p.rxDescriptors e.current = some f₀)
    (placed : l.place mem f₀ = some (g, l')) :
    ∃ groups' part' done, DmaCarried mem
        { p with rxDescriptors := p.rxDescriptors.set (indexAt p.rxDescriptors e.current) g }
        { e with current := f₀.desc.nextDescriptor } l' head groups' part' rest (held ++ done) ∧
      groups'.flatMap FrameGroup.descs ++ part' =
        (groups.flatMap FrameGroup.descs ++ part) ++ [g.bare] ∧
      l'.received = l.received ++ done := by
  unfold DmaLine.place at placed
  cases line : l.line with
  | nil => simp [line] at placed
  | cons w waiting =>
    simp only [line] at placed
    split at placed
    next ends =>
      obtain ⟨rfl, rfl⟩ := Prod.mk.inj (Option.some.inj placed)
      obtain ⟨last, descs, carried⟩ := h.engine_last running found line ends rfl
      exact ⟨_, _, [w], carried, by simp [descs], rfl⟩
    next more =>
      obtain ⟨rfl, rfl⟩ := Prod.mk.inj (Option.some.inj placed)
      have carried := h.engine_more running found line more rfl
      exact ⟨_, _, [], by simpa [line] using carried, by simp, by simp⟩

end Engine

/-- A read frees the descriptor it has copied. -/
theorem read (h : DmaCarried mem p e l (f :: head) groups part free held) :
    DmaCarried mem (p.putUser mem (freed p.userFrame)) e l head groups part (free ++ [freed f])
      held where
  ring := h.ring.putUser
  stands := by
    intro running
    have stands := h.stands running
    unfold EngineAt at stands ⊢
    cases free with
    | cons x free => simpa using stands
    | nil => simpa [freed, IoFrame.setTimestamp, IoFrame.setControl] using stands
  whole := h.whole
  content := h.content
  part_ok := h.part_ok
  placed := h.placed
  begun := h.begun
  idle := h.idle

end DmaCarried

/-! ### Purges and stamps -/

/-- A ring just purged is free for the engine. -/
private theorem RxDmaRing.reset {q : RxPort} (linked : Linked q.rxDescriptors)
    (size : q.rxDescriptors.length = mem.rxNum)
    (buffers : ∀ f ∈ q.rxDescriptors, f.buffer.length = mem.rxSize) :
    RxDmaRing mem (resetRx mem q) [] (q.rxDescriptors.map (purgedRxFrame mem)) := by
  have bare : (resetRx mem q).bare mem 0 = resetRx mem q := by
    have same : IoFrame.bare ∘ purgedRxFrame mem = purgedRxFrame mem := rfl
    simp [RxPort.bare, resetRx, same, Ring.slot_zero mem.rxNum_pos]
  refine ⟨?_, linked.congr ?_, ?_⟩
  · rw [List.length_nil, bare]
    exact rxRing_reset mem size buffers
  · rw [resetRx, List.map_map]
    rfl
  · intro f member
    obtain ⟨g, -, rfl⟩ := List.mem_map.mp member
    simp [purgedRxFrame]

/-- The frames of a ring just purged: none. -/
theorem DmaCarried.reset {q : RxPort} (linked : Linked q.rxDescriptors)
    (size : q.rxDescriptors.length = mem.rxNum)
    (buffers : ∀ f ∈ q.rxDescriptors, f.buffer.length = mem.rxSize) {e : RxEngine} {l : DmaLine}
    (stands : e.running = true → EngineAt e (q.rxDescriptors.map (purgedRxFrame mem)))
    (placed : l.placed = 0) :
    DmaCarried mem (resetRx mem q) e l [] [] [] (q.rxDescriptors.map (purgedRxFrame mem)) [] where
  ring := .reset linked size buffers
  stands := by simpa using stands
  whole := List.forall_mem_nil _
  content := rfl
  part_ok := List.forall_mem_nil _
  placed := by simpa using placed
  begun := fun w _ _ => ⟨by rw [placed]; exact Nat.lt_of_lt_of_le Nat.two_pos w.status, by simp [placed]⟩
  idle := fun _ => rfl

/-- A stamp is nothing to the ring. -/
theorem DmaCarried.stamp {p : RxPort} {e : RxEngine} {l : DmaLine} {head part free : List IoFrame}
    {groups : List (FrameGroup mem)} {held : List WireFrame}
    (h : DmaCarried mem p e l head groups part free held) (i : Nat) (d : δ) :
    DmaCarried mem
      { p with
        rxDescriptors :=
          p.rxDescriptors.set i (stampFrame dev (p.rxDescriptors.getD i default) d).1 }
      e l head groups part free held := by
  have place : (stampFrame dev (p.rxDescriptors.getD i default) d).1.place =
      (p.rxDescriptors.getD i default).place := by
    unfold stampFrame
    split
    · rfl
    · rfl
  have bare : (stampFrame dev (p.rxDescriptors.getD i default) d).1.bare =
      (p.rxDescriptors.getD i default).bare := by
    unfold stampFrame
    split
    · rfl
    · rfl
  have linked : Linked (p.rxDescriptors.set i
      (stampFrame dev (p.rxDescriptors.getD i default) d).1) := by
    by_cases inside : i < p.rxDescriptors.length
    · refine h.ring.linked.set (f := p.rxDescriptors.getD i default) ?_ place
      rw [List.getD_eq_getElem?_getD, List.getElem?_eq_getElem inside]
      rfl
    · rw [List.set_eq_of_length_le (Nat.le_of_not_lt inside)]
      exact h.ring.linked
  have same : (p.rxDescriptors.set i (stampFrame dev (p.rxDescriptors.getD i default) d).1).map
      IoFrame.bare = p.rxDescriptors.map IoFrame.bare := by
    rw [List.map_set, bare, ← getD_bare]
    by_cases inside : i < (p.rxDescriptors.map IoFrame.bare).length
    · rw [List.getD_eq_getElem?_getD, List.getElem?_eq_getElem inside]
      exact List.set_getElem_self inside
    · exact List.set_eq_of_length_le (Nat.le_of_not_lt inside)
  refine { h with ring := ⟨?_, linked, h.ring.counts⟩ }
  have ring := h.ring.ring
  rw [RxPort.bare, ← same] at ring
  exact ring

end Fscc
