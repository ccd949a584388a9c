import Fscc.Lib.Machine
import Fscc.RxRead

/-!
# Descriptors of a frame are released together

The drain over any device, whatever RFCNT, RXCNT and BC_FIFO_L read as, with reads and
purges between its calls. A read ends a frame by counting its bytes, the drain by `FE` and
`CSTOP`; the two agree when the descriptor with `FE` holds at least one byte of the frame.
-/

namespace Fscc

variable {δ : Type}

/-- A port over a device; `passes` is what is left of a call of `fscc_fifo_read_data`. -/
structure ReleaseState (δ : Type) where
  port : RxPort
  device : δ
  passes : Option Nat

/-- What can happen; a purge leaves the device in any state. -/
inductive ReleaseEvent (δ : Type) where
  | call
  | pass
  | read (settings : Settings) (bufLength : Nat) (alloc : Bool) (unmovedBytes : Nat)
  | purge (device : δ)

variable (dev : Device δ) (mem : Memory)

/-- The drain, a pass at a time, and the calls that its spinlock keeps apart from it. -/
def releaseMachine : Machine (ReleaseState δ) (ReleaseEvent δ) where
  init s := Fresh mem s.port ∧ s.passes = none
  step s
    | .call =>
      match s.passes with
      | none => some { s with passes := some mem.rxNum }
      | some _ => none
    | .pass =>
      match s.passes with
      | none => none
      | some 0 => some { s with passes := none }
      | some (n + 1) =>
        if s.port.fifoFrame.cstop then some { s with passes := none }
        else
          let done := fifoReadPass dev mem s.port s.device
          some {
            port := s.port.store mem done.1
            device := done.2
            passes := if hasCstop done.1.newControl then some n else none }
    | .read settings bufLength alloc unmovedBytes =>
      match s.passes with
      | none =>
        if bufLength < 18446744073709551616 then
          let read := userReadFrame dev mem settings bufLength alloc unmovedBytes s.port s.device
          some { s with port := read.2.1, device := read.2.2 }
        else none
      | some _ => none
    | .purge device =>
      match s.passes with
      | none => some { s with port := resetRx mem s.port, device := device }
      | some _ => none

/-- A length is taken from BC_FIFO_L before the descriptors that are finished for the frame
hold all of it. -/
def LengthPast (s : ReleaseState δ) : ReleaseEvent δ → Prop
  | .pass => s.port.fifoFrame.cstop = false → s.port.rxFrameSize = 0 →
      0 < (drainSize dev s.port s.device).1 →
      s.port.rxBytesInFrame / mem.rxSize * mem.rxSize < (drainSize dev s.port s.device).1
  | _ => True

variable {dev mem}

/-- The ring holds whole frames, and a length in hand is that of one. -/
structure ReleaseState.Inv (mem : Memory) (s : ReleaseState δ) (groups : List (FrameGroup mem))
    (part free : List IoFrame) : Prop where
  framed : Framed mem s.port groups part free
  whole : ∀ g ∈ groups, g.Whole
  size : s.port.rxFrameSize ≤ 0 ∨ 2 ≤ s.port.rxFrameSize

namespace ReleaseState

variable {s t : ReleaseState δ} {groups : List (FrameGroup mem)} {part free : List IoFrame}

/-- Lengths read from BC_FIFO_L are those of frames with a status. -/
def Lengths (dev : Device δ) : Prop := ∀ d, 2 ≤ (dev.getRegister bcFifoLOffset d).1.toNat

private theorem size_taken (lengths : Lengths dev) {p : RxPort} (d : δ)
    (size : p.rxFrameSize ≤ 0 ∨ 2 ≤ p.rxFrameSize) :
    (drainSize dev p d).1 ≤ 0 ∨ 2 ≤ (drainSize dev p d).1 := by
  unfold drainSize takeFrameSize
  dsimp only
  split
  · split
    · have long := lengths (ioGetRFCNT dev d).2
      have short := (dev.getRegister bcFifoLOffset (ioGetRFCNT dev d).2).1.isLt
      rw [BitVec.toInt_eq_toNat_cond]
      split <;> omega
    · exact size
  · exact size

/-- The part of a frame that is in finished descriptors. -/
private theorem bytes_finished {p : RxPort} {f : IoFrame} {rest : List IoFrame}
    (framed : Framed mem p groups part (f :: rest)) :
    p.rxBytesInFrame / mem.rxSize * mem.rxSize = ((part.length * mem.rxSize : Nat) : Int) := by
  have room := framed.ring.free_room f (.head _)
  rw [framed.bytes, headCount]
  have div : (part.length * mem.rxSize + f.count) / mem.rxSize = part.length := by
    rw [Nat.mul_comm, Nat.mul_add_div mem.rxSize_pos, Nat.div_eq_of_lt room, Nat.add_zero]
  exact_mod_cast congrArg (· * mem.rxSize) div

private theorem Inv.pass (h : s.Inv mem groups part free) (lengths : Lengths dev)
    (room : s.port.fifoFrame.cstop = false) (past : LengthPast dev mem s .pass) (n : Nat) :
    ∃ groups' part' free', ReleaseState.Inv mem {
      port := s.port.store mem (fifoReadPass dev mem s.port s.device).1
      device := (fifoReadPass dev mem s.port s.device).2
      passes := if hasCstop (fifoReadPass dev mem s.port s.device).1.newControl then some n
        else none } groups' part' free' := by
  obtain ⟨f, rest, rfl⟩ : ∃ f rest, free = f :: rest := by
    cases free with
    | nil => simp [h.framed.ring.fifoFrame_full] at room
    | cons f rest => exact ⟨f, rest, rfl⟩
  have pass := h.framed.pass dev s.device
  have taken := size_taken lengths s.device h.size
  generalize hasCstop _ = cstop, hasFe _ = fe at pass ⊢
  cases pass with
  -- The frame ends: its length was told before, or is told in this pass.
  | last g full size content enough fits pos none_ framed' =>
    refine ⟨_, _, _, framed', ?_, .inl (by rw [none_])⟩
    intro x member
    rcases List.mem_append.mp member with old | new
    · exact h.whole x old
    · rw [List.mem_singleton.mp new]
      refine ⟨by omega, ?_, fits⟩
      rw [FrameGroup.Closed, full]
      by_cases none' : s.port.rxFrameSize = 0
      · have before := past room none' pos
        rw [bytes_finished h.framed] at before
        omega
      · have known : (drainSize dev s.port s.device).1 = s.port.rxFrameSize := by
          rw [drainSize, takeFrameSize, if_neg none']
        have unfinished := h.framed.unfinished
        rw [h.framed.bytes] at unfinished
        omega
  | full f' more same framed' =>
    exact ⟨_, _, _, framed', h.whole, by rw [same]; exact taken⟩
  | more f' more same _ framed' =>
    exact ⟨_, _, _, framed', h.whole, by rw [same]; exact taken⟩

/-- A read of whole frames leaves whole frames. -/
private theorem Inv.read (dev : Device δ) (h : s.Inv mem groups part free) (settings : Settings)
    {bufLength : Nat} (size : bufLength < 18446744073709551616) (alloc : Bool) (unmovedBytes : Nat) :
    ∃ groups' free', ReleaseState.Inv mem { s with
      port := (userReadFrame dev mem settings bufLength alloc unmovedBytes s.port s.device).2.1
      device := (userReadFrame dev mem settings bufLength alloc unmovedBytes s.port s.device).2.2 }
      groups' part free' := by
  cases alloc with
  | false => exact ⟨groups, free, h⟩
  | true =>
    obtain ⟨rest, p', split, framed, same, eq⟩ :=
      h.framed.read dev h.whole settings size unmovedBytes s.device
    rw [eq]
    refine ⟨rest, _, framed, fun g member => h.whole g ?_, by rw [same.2.1]; exact h.size⟩
    -- The frames that are left are among those that there were.
    rw [split]
    exact List.mem_append_right _ member

private theorem Inv.step {e : ReleaseEvent δ} (lengths : Lengths dev) (past : LengthPast dev mem s e)
    (h : s.Inv mem groups part free) (stepped : (releaseMachine dev mem).step s e = some t) :
    ∃ groups' part' free', t.Inv mem groups' part' free' := by
  obtain ⟨port, device, passes⟩ := s
  cases e with
  | call =>
    cases passes with
    | none =>
      obtain rfl := Option.some.inj stepped
      exact ⟨groups, part, free, h.framed, h.whole, h.size⟩
    | some n => cases stepped
  | pass =>
    match passes with
    | none => cases stepped
    | some 0 =>
      obtain rfl := Option.some.inj stepped
      exact ⟨groups, part, free, h.framed, h.whole, h.size⟩
    | some (n + 1) =>
      simp only [releaseMachine] at stepped
      -- The drain stops at a descriptor that is full.
      split at stepped
      next full =>
        obtain rfl := Option.some.inj stepped
        exact ⟨groups, part, free, h.framed, h.whole, h.size⟩
      next room =>
        obtain rfl := Option.some.inj stepped
        exact h.pass lengths (by simpa using room) past n
  | read settings bufLength alloc unmovedBytes =>
    cases passes with
    | none =>
      obtain ⟨size, eq⟩ := Option.ite_none_right_eq_some.mp stepped
      obtain rfl := Option.some.inj eq
      obtain ⟨groups', free', after⟩ := h.read dev settings size alloc unmovedBytes
      exact ⟨groups', part, free', after⟩
    | some n => cases stepped
  -- After a purge the ring is framed with nothing in it.
  | purge device' =>
    cases passes with
    | none =>
      obtain rfl := Option.some.inj stepped
      have framed := Framed.reset h.framed.ring.size h.framed.ring.buffers_mem
      exact ⟨[], [], _, framed, by simp, .inl (Int.le_refl 0)⟩
    | some n => cases stepped

end ReleaseState

/-- The frames `returned` were the oldest of the ring, each a run of descriptors with `CSTOP`
of which the last and no other has `FE`. Now `user_rx_desc` is just past the last of them and
all of them are free; the `others` are as they were. -/
structure Released (p p' : RxPort) (returned : List (FrameGroup mem)) (others : List IoFrame) :
    Prop where
  before : Ring.view p.rxDescriptors p.userRxDesc =
    returned.flatMap FrameGroup.descs ++ others
  past_last : p'.userRxDesc =
    Ring.slot mem.rxNum p.userRxDesc (returned.flatMap FrameGroup.descs).length
  after : Ring.view p'.rxDescriptors p'.userRxDesc =
    others ++ (returned.flatMap FrameGroup.descs).map freed

/-- A reader's index is fixed by that of the drain. -/
private theorem RxRing.userRxDesc_eq {p p' : RxPort} {xs finished free free' : List IoFrame}
    (h : RxRing mem p (xs ++ finished) free) (h' : RxRing mem p' finished free')
    (same : p'.fifoRxDesc = p.fifoRxDesc) :
    p'.userRxDesc = Ring.slot mem.rxNum p.userRxDesc xs.length := by
  have fifo := h'.fifo
  rw [same, h.fifo, List.length_append, ← Ring.slot_slot] at fifo
  exact (Ring.slot_cancel (Ring.slot_lt mem.rxNum_pos) h'.user_lt fifo).symm

/-- In every run that meets the condition, a successful read releases the descriptors of the
frames it returns, all of them and no others. -/
theorem released_together (lengths : ReleaseState.Lengths dev) {s : ReleaseState δ}
    (reached : (releaseMachine dev mem).ReachedUnder (LengthPast dev mem) s)
    (settings : Settings) {bufLength : Nat} (size : bufLength < 18446744073709551616)
    (unmovedBytes : Nat) {out : List UInt8}
    (success : (userReadFrame dev mem settings bufLength true unmovedBytes s.port s.device).1 =
      .ok out) :
    ∃ (returned : List (FrameGroup mem)) (others : List IoFrame), returned ≠ [] ∧
      out = copiedOut (outputs dev settings returned s.device).1 unmovedBytes ∧
      Released s.port
        (userReadFrame dev mem settings bufLength true unmovedBytes s.port s.device).2.1
        returned others := by
  have inv : ∃ groups part free, s.Inv mem groups part free := by
    refine reached.invariant
      (P := fun s => ∃ groups part free, ReleaseState.Inv mem s groups part free)
      (fun t init => ?_) fun s t e h past stepped => ?_
    · obtain ⟨free, framed, -, none_⟩ := init.1.framed
      exact ⟨[], [], free, framed, by simp, .inl (by rw [none_])⟩
    · obtain ⟨groups, part, free, h⟩ := h
      exact h.step lengths past stepped
  obtain ⟨groups, part, free, h⟩ := inv
  obtain ⟨rest, p', split, framed, same, eq⟩ :=
    h.framed.read dev h.whole settings size unmovedBytes s.device
  rw [eq] at success ⊢
  -- A read that succeeds has taken at least one frame.
  by_cases none_ : taken settings bufLength groups = []
  · simp [none_] at success
  · rw [if_neg none_] at success
    have shape : groups.flatMap FrameGroup.descs ++ part =
        (taken settings bufLength groups).flatMap FrameGroup.descs ++
          (rest.flatMap FrameGroup.descs ++ part) := by
      rw [← List.append_assoc, ← List.flatMap_append, ← split]
    have ring := h.framed.ring
    rw [shape] at ring
    refine ⟨taken settings bufLength groups, rest.flatMap FrameGroup.descs ++ part ++ free, none_,
      (Except.ok.inj success).symm, ?_, ?_, ?_⟩
    · rw [ring.view]
      simp only [List.append_assoc]
    · exact ring.userRxDesc_eq framed.ring same.2.2
    · rw [framed.ring.view]
      simp only [List.append_assoc]

/-- A device that gives the readings of a list, with no length below two, and empty words. -/
def scripted : Device (List Nat) where
  getRegister offset readings :=
    (BitVec.ofNat 32
        (if offset = bcFifoLOffset then 2 + readings.headD 0 % 1024 else readings.headD 0),
      readings.tail)
  readFifo readings := (⟨0, 0, 0, 0⟩, readings)
  ktime readings := (⟨1#64, 0#64⟩, readings)

private theorem scripted_lengths : ReleaseState.Lengths scripted := by
  intro readings
  simp only [scripted, if_true, BitVec.toNat_ofNat]
  omega

/-- A fresh port about to read `readings`. -/
def beforeReadings (readings : List Nat) : ReleaseState (List Nat) :=
  ⟨freshRx .small [4096, 8192], readings, none⟩

private theorem beforeReadings_init (readings : List Nat) :
    (releaseMachine scripted .small).init (beforeReadings readings) :=
  ⟨fresh_freshRx .small rfl, rfl⟩

/-- Eight bytes fill a descriptor before RFCNT counts the frame, whose length is eight. A read
returns the frame and leaves its last descriptor, with `FE` and `CSTOP`, at `user_rx_desc`. -/
theorem left_behind :
    ∃ s, (releaseMachine scripted .small).Reached s ∧
      let read := userReadFrame scripted .small ⟨true, false, false⟩ 8 true 0 s.port s.device
      read.1 = .ok (List.replicate 8 0) ∧
        read.2.1.userFrame.fe = true ∧ read.2.1.userFrame.cstop = true := by
  have run : ∃ s, (releaseMachine scripted .small).replay (beforeReadings [0, 8, 1, 6])
      [.call, .pass, .pass, .pass] = some s ∧
      let read := userReadFrame scripted .small ⟨true, false, false⟩ 8 true 0 s.port s.device
      read.1 = .ok (List.replicate 8 0) ∧
        read.2.1.userFrame.fe = true ∧ read.2.1.userFrame.cstop = true :=
    ⟨_, rfl, by decide⟩
  obtain ⟨s, replayed, left⟩ := run
  exact ⟨s, .replay (.init (beforeReadings_init _)) _ replayed, left⟩

/-- The same frame, its length known from the start. -/
theorem released_together_known :
    ∃ s, (releaseMachine scripted .small).replay (beforeReadings [1, 6]) [.call, .pass, .pass] =
        some s ∧
      ∃ (returned : List (FrameGroup .small)) (others : List IoFrame), returned ≠ [] ∧
        List.replicate 8 0 =
          copiedOut (outputs scripted ⟨true, false, false⟩ returned s.device).1 0 ∧
        Released s.port (userReadFrame scripted .small ⟨true, false, false⟩ 8 true 0 s.port
          s.device).2.1 returned others := by
  have met : (releaseMachine scripted .small).Met (LengthPast scripted .small)
      (beforeReadings [1, 6]) [.call, .pass, .pass] := by
    refine ⟨trivial, fun t h => ?_⟩
    obtain rfl := Option.some.inj h
    refine ⟨fun _ _ _ => by decide, fun t h => ?_⟩
    obtain rfl := Option.some.inj h
    exact ⟨fun _ _ positive => absurd positive (by decide), fun _ _ => trivial⟩
  exact ⟨_, rfl, released_together scripted_lengths
    (.replay (.init (beforeReadings_init _)) _ met rfl) _ (by decide) 0 rfl⟩

end Fscc
