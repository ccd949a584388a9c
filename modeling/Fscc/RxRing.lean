import Fscc.Rx

/-!
# The receive ring as two lists

Seen from `user_rx_desc`, the ring is the finished descriptors followed by the free ones,
and `fifo_rx_desc` is where the second list starts. `RxRing` says so; the lemmas give
what each access of the driver is on the two lists.
-/

namespace Fscc

open CInt

variable {δ : Type} (dev : Device δ) (mem : Memory)

/-- The receive ring holds the `finished` descriptors, then the `free` ones. -/
structure RxRing (p : RxPort) (finished free : List IoFrame) : Prop where
  size : p.rxDescriptors.length = mem.rxNum
  user_lt : p.userRxDesc < mem.rxNum
  view : Ring.view p.rxDescriptors p.userRxDesc = finished ++ free
  fifo : p.fifoRxDesc = Ring.slot mem.rxNum p.userRxDesc finished.length
  buffers : ∀ f ∈ finished ++ free, f.buffer.length = mem.rxSize
  finished_cstop : ∀ f ∈ finished, f.cstop = true
  free_open : ∀ f ∈ free, f.fe = false ∧ f.cstop = false
  free_room : ∀ f ∈ free, f.count < mem.rxSize
  later_empty : ∀ f ∈ free.tail, f.count = 0

@[simp] theorem rxBytesInFrame_store (p : RxPort) (s : Drain) :
    (p.store mem s).rxBytesInFrame = s.rxBytesInFrame := rfl

@[simp] theorem rxFrameSize_store (p : RxPort) (s : Drain) :
    (p.store mem s).rxFrameSize = s.rxFrameSize := rfl

namespace RxRing

variable {mem} {p : RxPort} {finished free rest : List IoFrame} {f : IoFrame}

theorem length_add (h : RxRing mem p finished free) :
    finished.length + free.length = mem.rxNum := by
  rw [← h.size, ← Ring.length_view p.rxDescriptors p.userRxDesc, h.view, List.length_append]

/-- With a free descriptor left, that is where the drain works. -/
theorem fifoFrame_eq (h : RxRing mem p finished (f :: rest)) : p.fifoFrame = f := by
  have sum := h.length_add
  rw [List.length_cons] at sum
  rw [RxPort.fifoFrame, h.fifo, ← h.size, Ring.getD_slot _ (by rw [h.size]; omega), h.view]
  simp

/-- With none left, the drain meets the oldest finished descriptor. -/
theorem fifoFrame_full (h : RxRing mem p finished []) : p.fifoFrame.cstop = true := by
  have sum := h.length_add
  have pos := mem.rxNum_pos
  obtain ⟨g, gs, rfl⟩ : ∃ g gs, finished = g :: gs := by
    cases finished with
    | nil => simp only [List.length_nil] at sum; omega
    | cons g gs => exact ⟨g, gs, rfl⟩
  have size : (g :: gs).length = mem.rxNum := by simpa using sum
  rw [RxPort.fifoFrame, h.fifo, size, Ring.slot_size h.user_lt,
    Ring.getD_head g default (by rw [h.size]; exact h.user_lt) h.view]
  exact h.finished_cstop g (by simp)

theorem fifoFrame_cstop (h : RxRing mem p finished free) :
    p.fifoFrame.cstop = true ↔ free = [] := by
  cases free with
  | nil => simp [h.fifoFrame_full]
  | cons f rest => simp [h.fifoFrame_eq, (h.free_open f (by simp)).2]

/-- The descriptor a reader works on is the oldest finished one. -/
theorem userFrame_eq (h : RxRing mem p (f :: finished) free) : p.userFrame = f :=
  Ring.getD_head f default (by rw [h.size]; exact h.user_lt) h.view

/-- With none finished, it is the first free one. -/
theorem userFrame_free (h : RxRing mem p [] (f :: rest)) : p.userFrame = f :=
  Ring.getD_head f default (by rw [h.size]; exact h.user_lt) h.view

/-- A scan of the ring by a reader is a scan of the two lists. -/
theorem userNextReadSize_eq (h : RxRing mem p finished free) :
    userNextReadSize mem p =
      Ring.scan nextReadStep (fun bytes => (false, bytes)) (finished ++ free) 0 := by
  rw [userNextReadSize, ← h.size,
    Ring.walk_eq_scan _ _ _ _ _ _ (by rw [h.size]; exact h.user_lt), h.view]

/-- A pass of the drain changes the first free descriptor, and no other. -/
theorem view_store (h : RxRing mem p finished (f :: rest)) (s : Drain) :
    Ring.view (p.store mem s).rxDescriptors (p.store mem s).userRxDesc =
      finished ++ s.frame :: rest := by
  have view := Ring.view_set_append s.frame f h.view
  rw [h.size, ← h.fifo] at view
  exact view

/-- The drain leaves its descriptor unfinished. -/
theorem store_open (h : RxRing mem p finished (f :: rest)) (s : Drain)
    (still : hasCstop s.newControl = false) (same : s.frame.desc.control = s.newControl)
    (buffer : s.frame.buffer.length = mem.rxSize) (fe : s.frame.fe = false)
    (room : s.frame.count < mem.rxSize) :
    RxRing mem (p.store mem s) finished (s.frame :: rest) := by
  have cstop : s.frame.cstop = false := by rw [IoFrame.cstop, same, still]
  exact {
    size := by rw [RxPort.store, List.length_set, h.size]
    user_lt := h.user_lt
    view := h.view_store s
    fifo := by simp only [RxPort.store, still, Bool.false_eq_true, if_false, h.fifo]
    buffers := by
      -- Only the descriptor at `fifo_rx_desc` changes.
      have old := h.buffers
      simp only [List.mem_append, List.mem_cons] at old ⊢
      rintro g (member | rfl | member)
      · exact old g (.inl member)
      · exact buffer
      · exact old g (.inr (.inr member))
    finished_cstop := h.finished_cstop
    free_open := by
      rintro g (_ | ⟨_, member⟩)
      · exact ⟨fe, cstop⟩
      · exact h.free_open g (.tail _ member)
    free_room := by
      rintro g (_ | ⟨_, member⟩)
      · exact room
      · exact h.free_room g (.tail _ member)
    later_empty := h.later_empty }

/-- The drain finishes its descriptor and moves on. -/
theorem store_finished (h : RxRing mem p finished (f :: rest)) (s : Drain)
    (done : hasCstop s.newControl = true) (same : s.frame.desc.control = s.newControl)
    (buffer : s.frame.buffer.length = mem.rxSize) :
    RxRing mem (p.store mem s) (finished ++ [s.frame]) rest := by
  have cstop : s.frame.cstop = true := by rw [IoFrame.cstop, same, done]
  exact {
    size := by rw [RxPort.store, List.length_set, h.size]
    user_lt := h.user_lt
    view := by rw [List.append_assoc]; exact h.view_store s
    fifo := by
      simp only [RxPort.store, done, if_true, h.fifo, List.length_append, List.length_singleton]
      exact Ring.next_slot mem.rxNum_pos
    buffers := by
      have old := h.buffers
      simp only [List.mem_append, List.mem_cons, List.not_mem_nil, or_false] at old ⊢
      rintro g ((member | rfl) | member)
      · exact old g (.inl member)
      · exact buffer
      · exact old g (.inr (.inr member))
    -- It is finished now, like those before it.
    finished_cstop := by
      intro g member
      rcases List.mem_append.mp member with old | new
      · exact h.finished_cstop g old
      · rw [List.mem_singleton.mp new, cstop]
    free_open := fun g member => h.free_open g (.tail _ member)
    free_room := fun g member => h.free_room g (.tail _ member)
    later_empty := fun g member => h.later_empty g (List.mem_of_mem_tail member) }

/-- The ring once the descriptor at `user_rx_desc` is `g`. -/
private theorem view_setUser (h : RxRing mem p (f :: finished) free) (g : IoFrame) :
    Ring.view (p.rxDescriptors.set p.userRxDesc g) p.userRxDesc = g :: (finished ++ free) := by
  have inside : p.userRxDesc < p.rxDescriptors.length := by rw [h.size]; exact h.user_lt
  have old : Ring.view p.rxDescriptors p.userRxDesc = [] ++ f :: (finished ++ free) := h.view
  have set := Ring.view_set_append g f old
  simpa [Ring.slot_zero inside] using set

/-- A reader leaves the oldest finished descriptor finished. -/
theorem setUser (h : RxRing mem p (f :: finished) free) (g : IoFrame) (cstop : g.cstop = true)
    (buffer : g.buffer.length = mem.rxSize) :
    RxRing mem { p with rxDescriptors := p.rxDescriptors.set p.userRxDesc g } (g :: finished)
      free where
  size := by rw [List.length_set, h.size]
  user_lt := h.user_lt
  view := h.view_setUser g
  fifo := h.fifo
  buffers := by
    intro x member
    rcases List.mem_cons.mp member with rfl | old
    · exact buffer
    · exact h.buffers x (.tail _ old)
  finished_cstop := by
    intro x member
    rcases List.mem_cons.mp member with rfl | old
    · exact cstop
    · exact h.finished_cstop x (.tail _ old)
  free_open := h.free_open
  free_room := h.free_room
  later_empty := h.later_empty

/-- A reader frees the oldest finished descriptor. -/
theorem putUser (h : RxRing mem p (f :: finished) free) (g : IoFrame)
    (opened : g.fe = false ∧ g.cstop = false) (empty : g.count = 0)
    (buffer : g.buffer.length = mem.rxSize) :
    RxRing mem (p.putUser mem g) finished (free ++ [g]) := by
  have inside : p.userRxDesc < p.rxDescriptors.length := by rw [h.size]; exact h.user_lt
  have shape := h.view_setUser g
  have moved := Ring.view_next (by simpa using inside) shape
  rw [List.length_set, h.size] at moved
  exact {
    size := by rw [RxPort.putUser, List.length_set, h.size]
    user_lt := Ring.next_lt h.user_lt
    view := by rw [← List.append_assoc]; exact moved
    fifo := by
      simp only [RxPort.putUser, h.fifo, List.length_cons]
      exact (Ring.slot_next h.user_lt).symm
    buffers := by
      have old := h.buffers
      simp only [List.mem_append, List.mem_cons, List.not_mem_nil, or_false] at old ⊢
      rintro x (member | member | rfl)
      · exact old x (.inl (.inr member))
      · exact old x (.inr member)
      · exact buffer
    finished_cstop := fun x member => h.finished_cstop x (.tail _ member)
    free_open := by
      intro x member
      rcases List.mem_append.mp member with old | new
      · exact h.free_open x old
      · rw [List.mem_singleton.mp new]
        exact opened
    free_room := by
      intro x member
      rcases List.mem_append.mp member with old | new
      · exact h.free_room x old
      · rw [List.mem_singleton.mp new, empty]
        exact mem.rxSize_pos
    -- Of the free descriptors at most the first holds bytes, and the new one comes last.
    later_empty := by
      intro x member
      cases free with
      | nil => simp at member
      | cons y ys =>
        rcases List.mem_append.mp member with old | new
        · exact h.later_empty x old
        · rw [List.mem_singleton.mp new, empty] }

theorem buffers_mem (h : RxRing mem p finished free) :
    ∀ f ∈ p.rxDescriptors, f.buffer.length = mem.rxSize := by
  intro f member
  apply h.buffers
  rw [← h.view]
  exact Ring.mem_view.mpr member

end RxRing

/-- A ring just purged holds nothing. -/
theorem rxRing_reset {p : RxPort} (size : p.rxDescriptors.length = mem.rxNum)
    (buffers : ∀ f ∈ p.rxDescriptors, f.buffer.length = mem.rxSize) :
    RxRing mem (resetRx mem p) [] (p.rxDescriptors.map (purgedRxFrame mem)) where
  size := by simp [resetRx, size]
  user_lt := mem.rxNum_pos
  view := by simp [resetRx, Ring.view]
  fifo := by simp [resetRx, Ring.slot_zero mem.rxNum_pos]
  buffers := by simpa [purgedRxFrame] using buffers
  finished_cstop := by simp
  free_open := by simp [purgedRxFrame]
  free_room := by simp [purgedRxFrame, mem.rxSize_pos]
  later_empty := by
    intro f member
    obtain ⟨g, -, rfl⟩ := List.mem_map.mp (List.mem_of_mem_tail member)
    simp [purgedRxFrame]

/-! ### One pass of the drain -/

@[simp] theorem buffer_stampFrame (f : IoFrame) (d : δ) :
    (stampFrame dev f d).1.buffer = f.buffer := by
  unfold stampFrame
  split <;> rfl

theorem cstop_stampFrame (f : IoFrame) (d : δ) :
    (stampFrame dev f d).1.cstop = f.cstop ∧
      (stampFrame dev f d).1.descPhysicalAddress = f.descPhysicalAddress := by
  unfold stampFrame
  split <;> exact ⟨rfl, rfl⟩

/-! ### One descriptor of the stream -/

/-- A descriptor whose data a read of the stream takes whole. -/
def streamedFrame (i : Nat) (f : IoFrame) : IoFrame :=
  ((f.setDataCount mem.rxSize).setTimestamp .clear).setControl
    (if i % 2 = 1 then descHiBit else 0#32)

/-- A descriptor whose data a read of the stream takes but for its end. -/
def shiftedFrame (space : Nat) (f : IoFrame) : IoFrame :=
  (f.setBuffer (memcpyAt f.buffer 0 ((f.buffer.drop space).take
    (f.desc.dataCount - space)))).setDataCount (f.desc.dataCount - space)

@[simp] theorem cstop_shiftedFrame (space : Nat) (f : IoFrame) :
    (shiftedFrame space f).cstop = f.cstop := by
  simp [shiftedFrame]

@[simp] theorem address_shiftedFrame (space : Nat) (f : IoFrame) :
    (shiftedFrame space f).descPhysicalAddress = f.descPhysicalAddress := rfl

/-- A read of the stream takes a descriptor whole if there is space for its data. -/
theorem streamDescriptor_eq (i space : Nat) (f : IoFrame) :
    streamDescriptor mem i space f =
      if f.desc.dataCount ≤ space
      then (streamedFrame mem i f, bytesAt f.buffer f.desc.dataCount, true)
      else (shiftedFrame space f, bytesAt f.buffer space, false) := by
  unfold streamDescriptor
  by_cases fits : f.desc.dataCount ≤ space
  · have length : (if f.desc.dataCount < space then f.desc.dataCount else space) =
        f.desc.dataCount := by
      split <;> omega
    simp [length, fits, streamedFrame]
  · have length : (if f.desc.dataCount < space then f.desc.dataCount else space) = space :=
      if_neg (by omega)
    have short : space ≠ f.desc.dataCount := by omega
    simp [length, fits, short, shiftedFrame]

end Fscc
