import Fscc.RxRead
import Mathlib.Data.List.TakeWhile

/-!
# Inside the caller's buffer

`fscc_user_read_frame` subtracts on `size_t` and copies into `temp_data` by running totals. What it
may not do is written down along its loop, and holds for whatever counts the final descriptors
carry, as long as none is shorter than the status bytes that the read leaves out.
-/

namespace Fscc

open CInt

variable {δ : Type} (dev : Device δ) (mem : Memory)

/-! ### What a read may not do -/

/-- `planned_move_size`. -/
def plannedMoveSize (f : IoFrame) (r : Reading) : Nat :=
  if f.fe && f.cstop then subSize f.count r.filledFrameSize else f.desc.dataCount

/-- One pass of the loop: the count of the final descriptor is not less than what has been gathered,
and both copies end inside the buffer. -/
structure PassSafe (settings : Settings) (bufLength : Nat) (f : IoFrame) (r : Reading) : Prop where
  gathered : (f.fe && f.cstop) = true → r.filledFrameSize ≤ f.count
  data : r.outLength + min (plannedMoveSize f r) r.totalValidData ≤ bufLength
  timestamp : r.bytesInDescs - plannedMoveSize f r = 0 → settings.appendTimestamp = true →
    add32 r.outLength (min (plannedMoveSize f r) r.totalValidData) + sizeofTimestamp ≤ bufLength

/-- Every pass of the loop of `fscc_user_read_frame` is safe, `out_length` stays within `buf_length`,
and no frame that is looked at is shorter than its status. -/
def LoopSafe (settings : Settings) (bufLength : Nat) : Nat → RxPort → Reading → δ → Prop
  | 0, _, _, _ => True
  | passes + 1, p, r, d =>
    let read := readDescriptor dev settings p.userFrame r d
    let p' := p.putUser mem read.1
    let next := userNextReadSize mem p'
    PassSafe settings bufLength p.userFrame r ∧ read.2.1.outLength ≤ bufLength ∧
      if read.2.1.bytesInDescs = 0 then
        (settings.rxMultiple = true → next.1 = true → settings.statusLength ≤ next.2) ∧
          ∀ r', nextFrame settings bufLength next read.2.1 = some r' →
            LoopSafe settings bufLength passes p' r' read.2.2
      else LoopSafe settings bufLength passes p' read.2.1 read.2.2

/-- `fscc_user_read_frame` with its memory: no subtraction on `size_t` goes below zero and every
copy ends at or before `buf_length`. -/
def ReadSafe (settings : Settings) (bufLength : Nat) (p : RxPort) (d : δ) : Prop :=
  let next := userNextReadSize mem p
  next.1 = true → settings.statusLength ≤ next.2 ∧
    (settings.bufferRequirement next.2 ≤ bufLength →
      LoopSafe dev mem settings bufLength mem.rxNum p
        { bytesInDescs := next.2
          totalValidData := subSize next.2 settings.statusLength
          filledFrameSize := 0
          outLength := 0
          tempData := List.replicate bufLength 0 } d)

/-! ### The frame that a read finds -/

/-- A descriptor that a scan stops at. -/
def IoFrame.isOpen (f : IoFrame) : Bool := !f.fe && !f.cstop

/-- A descriptor that ends a frame. -/
def IoFrame.isFinal (f : IoFrame) : Bool := f.fe && f.cstop

/-- The descriptors, from `user_rx_desc` on, that a scan goes through. -/
def RxPort.pending (p : RxPort) : List IoFrame :=
  (Ring.view p.rxDescriptors p.userRxDesc).takeWhile fun f => !f.isOpen

/-- Whatever its descriptors hold, a ring is the pending ones and then, if there are others, an
open one. -/
structure Window (p : RxPort) (pending rest : List IoFrame) : Prop where
  size : p.rxDescriptors.length = mem.rxNum
  user_lt : p.userRxDesc < mem.rxNum
  view : Ring.view p.rxDescriptors p.userRxDesc = pending ++ rest
  pending_done : ∀ f ∈ pending, f.isOpen = false
  rest_open : ∀ f ∈ rest.head?, f.isOpen = true

variable {dev mem} {p : RxPort} {pending rest fs : List IoFrame} {f g : IoFrame}
  {settings : Settings} {bufLength : Nat} {r : Reading}

private theorem Window.start (size : p.rxDescriptors.length = mem.rxNum)
    (user_lt : p.userRxDesc < mem.rxNum) :
    ∃ rest, Window mem p p.pending rest := by
  refine ⟨(Ring.view p.rxDescriptors p.userRxDesc).dropWhile fun f => !f.isOpen, size, user_lt,
    List.takeWhile_append_dropWhile.symm, ?_, ?_⟩
  · intro f member
    simpa using List.mem_takeWhile_imp member
  · intro f member
    have first := List.head?_dropWhile_not (fun f : IoFrame => !f.isOpen)
      (Ring.view p.rxDescriptors p.userRxDesc)
    rw [Option.mem_def.mp member] at first
    simpa using first

private theorem Window.userFrame_eq (h : Window mem p (f :: pending) rest) : p.userFrame = f :=
  Ring.getD_head f default (by rw [h.size]; exact h.user_lt) h.view

/-- A read that frees a descriptor puts an open one at the end. -/
private theorem Window.putUser (h : Window mem p (f :: pending) rest) :
    Window mem (p.putUser mem (freed f)) pending (rest ++ [freed f]) := by
  have inside : p.userRxDesc < p.rxDescriptors.length := by rw [h.size]; exact h.user_lt
  have old : Ring.view p.rxDescriptors p.userRxDesc = [] ++ f :: (pending ++ rest) := h.view
  have shape := Ring.view_set_append (freed f) f old
  rw [List.length_nil, Ring.slot_zero inside] at shape
  have moved := Ring.view_next (by simpa using inside) shape
  rw [List.length_set, h.size] at moved
  exact {
    size := by rw [RxPort.putUser, List.length_set, h.size]
    user_lt := Ring.next_lt h.user_lt
    view := by rw [← List.append_assoc]; exact moved
    pending_done := fun g member => h.pending_done g (.tail _ member)
    rest_open := by
      have opened := freed_empty f
      cases rest with
      | nil => simp [IoFrame.isOpen, opened.1]
      | cons g rest => exact h.rest_open }

private theorem scan_final (done : ∀ f ∈ pending, f.isOpen = false)
    (opened : ∀ f ∈ rest.head?, f.isOpen = true) (bytes : Nat) :
    (∀ g, pending.find? IoFrame.isFinal = some g →
      Ring.scan nextReadStep (fun bytes => (false, bytes)) (pending ++ rest) bytes =
        (true, g.count)) ∧
    (pending.find? IoFrame.isFinal = none →
      (Ring.scan nextReadStep (fun bytes => (false, bytes)) (pending ++ rest) bytes).1 = false) := by
  induction pending generalizing bytes with
  | nil =>
    refine ⟨nofun, fun _ => ?_⟩
    cases rest with
    | nil => rfl
    | cons f rest =>
      have first : (!f.fe && !f.cstop) = true := opened f rfl
      simp [Ring.scan, nextReadStep, first]
  | cons f fs ih =>
    have first : (!f.fe && !f.cstop) = false := done f (.head _)
    have later := ih fun g member => done g (.tail _ member)
    cases final : f.isFinal with
    | true =>
      have both : (f.fe && f.cstop) = true := final
      simp [Ring.scan, nextReadStep, first, both, final]
    | false =>
      have both : (f.fe && f.cstop) = false := final
      simp only [List.find?_cons, final, List.cons_append, Ring.scan, nextReadStep, first, both,
        Bool.false_eq_true, if_false]
      exact later _

private theorem Window.scan (h : Window mem p pending rest) :
    userNextReadSize mem p =
      Ring.scan nextReadStep (fun bytes => (false, bytes)) (pending ++ rest) 0 := by
  rw [userNextReadSize, ← h.size,
    Ring.walk_eq_scan _ _ _ _ _ _ (by rw [h.size]; exact h.user_lt), h.view]

/-- The size that the scan finds is the count of the first final descriptor. -/
theorem Window.next_final (h : Window mem p pending rest)
    (final : pending.find? IoFrame.isFinal = some g) : userNextReadSize mem p = (true, g.count) := by
  rw [h.scan]
  exact (scan_final h.pending_done h.rest_open 0).1 g final

theorem Window.next_none (h : Window mem p pending rest)
    (none_ : pending.find? IoFrame.isFinal = none) : (userNextReadSize mem p).1 = false := by
  rw [h.scan]
  exact (scan_final h.pending_done h.rest_open 0).2 none_

theorem count_lt (f : IoFrame) : f.count < 536870912 := cnt_lt _

/-- With as many bytes as its status, what a frame needs is what it gives. -/
theorem bufferRequirement_count (enough : settings.statusLength ≤ f.count) :
    subSize f.count settings.statusLength = f.count - settings.statusLength ∧
      settings.bufferRequirement f.count =
        f.count - settings.statusLength + settings.timestampLength := by
  have small := count_lt f
  have stamp := timestampLength_le settings
  have cut : subSize f.count settings.statusLength = f.count - settings.statusLength :=
    subSize_eq enough (by omega)
  rw [Settings.bufferRequirement, cut]
  refine ⟨rfl, addSize_eq ?_⟩
  simp only [sizeofTimestamp] at stamp
  omega

/-! ### The loop -/

/-- The locals of the loop fit the frame that ends at the first final descriptor, and its rest
fits the buffer. -/
structure Fitting (settings : Settings) (bufLength : Nat) (pending : List IoFrame) (r : Reading) :
    Prop where
  final : ∃ g, pending.find? IoFrame.isFinal = some g ∧ settings.statusLength ≤ g.count ∧
    r.filledFrameSize + r.totalValidData = g.count - settings.statusLength ∧
    r.bytesInDescs + r.filledFrameSize ≤ g.count
  room : r.outLength + r.totalValidData + settings.timestampLength ≤ bufLength

/-- The locals at the start of a frame. -/
private theorem Fitting.start (final : pending.find? IoFrame.isFinal = some g)
    (enough : settings.statusLength ≤ g.count)
    (room : r.outLength + settings.bufferRequirement g.count ≤ bufLength) :
    Fitting settings bufLength pending
      { r with
        bytesInDescs := g.count
        totalValidData := subSize g.count settings.statusLength
        filledFrameSize := 0 } := by
  obtain ⟨cut, requirement⟩ := bufferRequirement_count enough
  rw [requirement] at room
  rw [cut]
  exact ⟨⟨g, final, enough, Nat.zero_add _, Nat.le_refl _⟩, by dsimp only; omega⟩

private theorem add32_le (a b : Nat) : add32 a b ≤ a + b := Nat.mod_le _ _

/-- What is planned at the final descriptor is all the rest of the frame. -/
private theorem Fitting.planned (fits : Fitting settings bufLength (f :: fs) r)
    (final : f.isFinal = true) :
    settings.statusLength ≤ f.count ∧ r.filledFrameSize ≤ f.count ∧
      r.bytesInDescs - plannedMoveSize f r = 0 := by
  obtain ⟨g, first, enough, gathered, left⟩ := fits.final
  rw [List.find?_cons, final] at first
  obtain rfl := Option.some.inj first
  have small := count_lt f
  have both : (f.fe && f.cstop) = true := final
  have planned : plannedMoveSize f r = f.count - r.filledFrameSize := by
    rw [plannedMoveSize, if_pos both, subSize_eq (by omega) (by omega)]
  rw [planned]
  omega

/-- A pass is safe. It frees its descriptor, and ends the frame at the final one if not before. -/
private theorem Fitting.pass (dev : Device δ) (fits : Fitting settings bufLength (f :: fs) r) (d : δ) :
    PassSafe settings bufLength f r ∧ (readDescriptor dev settings f r d).1 = freed f ∧
      (readDescriptor dev settings f r d).2.1.outLength ≤ bufLength ∧
      ((readDescriptor dev settings f r d).2.1.bytesInDescs ≠ 0 →
        f.isFinal = false ∧
          Fitting settings bufLength fs (readDescriptor dev settings f r d).2.1) := by
  -- The descriptor that ends the frame is still to come, or it is this one.
  obtain ⟨g, final, enough, gathered, left⟩ := fits.final
  have room := fits.room
  have small := count_lt g
  have eq := readDescriptor_eq dev settings f r d (plannedMoveSize f r) rfl
  have copied := add32_le r.outLength (min (plannedMoveSize f r) r.totalValidData)
  have gathers := addSize_eq (a := r.filledFrameSize)
    (b := min (plannedMoveSize f r) r.totalValidData) (by omega)
  have stamp : (if r.bytesInDescs - plannedMoveSize f r = 0 then appended dev settings f d
      else ([], d)).1.length ≤ settings.timestampLength := by
    split
    next => rw [length_appended]
    next => exact Nat.zero_le _
  dsimp only at eq
  rw [gathers] at eq
  -- A pass moves no more than is left of the frame, and no more than the buffer has room for.
  refine ⟨⟨fun both => ?_, by omega, fun _ append => ?_⟩, by rw [eq], ?_, fun more => ?_⟩
  · exact (fits.planned both).2.1
  · rw [Settings.timestampLength, if_pos append] at room
    omega
  · rw [eq]
    exact (add32_le _ _).trans (by omega)
  -- If the frame goes on, this was not the descriptor that ends it.
  · rw [eq] at more ⊢
    have going : f.isFinal = false := by
      cases last : f.isFinal with
      | false => rfl
      | true => exact absurd (fits.planned last).2.2 more
    rw [List.find?_cons, going] at final
    dsimp only at more ⊢
    refine ⟨going, ⟨g, final, enough, ?_, ?_⟩, ?_⟩
    · dsimp only
      omega
    · dsimp only
      omega
    · rw [if_neg more] at *
      have idle := add32_le (add32 r.outLength (min (plannedMoveSize f r) r.totalValidData)) 0
      dsimp only [List.length_nil]
      omega

/-- A read of a ring whose frames have at least their status is safe all the way. -/
private theorem Fitting.loop (size : bufLength < 18446744073709551616) (passes : Nat) (d : δ)
    (ring : Window mem p pending rest) (fits : Fitting settings bufLength pending r)
    (whole : ∀ f ∈ pending, f.isFinal = true → settings.statusLength ≤ f.count) :
    LoopSafe dev mem settings bufLength passes p r d := by
  -- Induction on the passes, each of which takes the oldest descriptor.
  induction passes generalizing p pending rest r d with
  | zero => trivial
  | succ passes ih =>
    obtain ⟨f, fs, rfl⟩ : ∃ f fs, pending = f :: fs := by
      obtain ⟨g, final, -⟩ := fits.final
      cases pending with
      | nil => cases final
      | cons f fs => exact ⟨f, fs, rfl⟩
    obtain ⟨safe, freed_eq, inside, more⟩ := fits.pass dev d
    have after := ring.putUser
    have later : ∀ g ∈ fs, g.isFinal = true → settings.statusLength ≤ g.count :=
      fun g member => whole g (.tail _ member)
    rw [LoopSafe, ring.userFrame_eq, freed_eq]
    refine ⟨safe, inside, ?_⟩
    split
    next ended =>
      -- the next frame, if it is looked at, is the one that the first final descriptor ends
      cases final : fs.find? IoFrame.isFinal with
      | none =>
        have none_ := after.next_none final
        refine ⟨fun _ ready => absurd ready (by rw [none_]; decide), fun r' next => ?_⟩
        have ready := (nextFrame_eq_some.mp next).2.1
        rw [none_] at ready
        cases ready
      | some g =>
        have enough := later g (List.mem_of_find?_eq_some final) (List.find?_some final)
        rw [after.next_final final]
        dsimp only
        refine ⟨fun _ _ => enough, fun r' next => ?_⟩
        obtain ⟨-, -, room, rfl⟩ := nextFrame_eq_some.mp next
        rw [subSize_eq inside size] at room
        dsimp only at room
        exact ih _ after (.start final enough (by omega)) later
    next going => exact ih _ after (more going).2 later

/-- With room for everything, a safe read of several frames has looked at them all. -/
private theorem Fitting.all (multiple : settings.rxMultiple = true)
    (size : bufLength = 18446744073709551615) {passes : Nat} (d : δ)
    (ring : Window mem p pending rest) (fits : Fitting settings bufLength pending r)
    (enough : pending.length ≤ passes) (safe : LoopSafe dev mem settings bufLength passes p r d) :
    ∀ f ∈ pending, f.isFinal = true → settings.statusLength ≤ f.count := by
  -- Induction on the finished descriptors: the room never ends the loop, so that it takes all.
  induction pending generalizing p rest r d passes with
  | nil => nofun
  | cons f fs ih =>
    obtain ⟨passes, rfl⟩ : ∃ n, passes = n + 1 := by
      cases passes with
      | zero => simp at enough
      | succ n => exact ⟨n, rfl⟩
    obtain ⟨-, freed_eq, inside, more⟩ := fits.pass dev d
    have after := ring.putUser
    have few : fs.length ≤ passes := by simpa using enough
    rw [LoopSafe, ring.userFrame_eq, freed_eq] at safe
    have others : ∀ g ∈ fs, g.isFinal = true → settings.statusLength ≤ g.count := by
      obtain ⟨-, -, looked⟩ := safe
      split at looked
      next ended =>
        cases final : fs.find? IoFrame.isFinal with
        | none =>
          intro g member last
          exact absurd last (List.find?_eq_none.mp final g member)
        | some h =>
          -- The loop looks at the next frame here, and so it has its status bytes.
          rw [after.next_final final] at looked
          have whole := looked.1 multiple rfl
          have requirement := (bufferRequirement_count whole).2
          have small := count_lt h
          have stamp := timestampLength_le settings
          have out : (readDescriptor dev settings f r d).2.1.outLength < 4294967296 := by
            rw [readDescriptor_eq dev settings f r d _ rfl]
            exact Nat.mod_lt _ (by decide)
          simp only [sizeofTimestamp] at stamp
          have room : settings.bufferRequirement h.count ≤
              subSize bufLength (readDescriptor dev settings f r d).2.1.outLength := by
            rw [subSize_eq inside (by omega)]
            omega
          have next := looked.2 _ (nextFrame_eq_some.mpr ⟨multiple, rfl, room, rfl⟩)
          rw [subSize_eq inside (by omega)] at room
          exact ih _ after (.start final whole (by omega)) few next
      next going => exact ih _ after (more going).2 few looked
    intro g member
    rcases List.mem_cons.mp member with rfl | later
    · intro final
      exact (fits.planned final).1
    · exact others g later

/-- Any ring can be read into any buffer with any settings without an underflow or a copy past the
end of the buffer just when the status is left on or no final descriptor of those pending carries
less than it. -/
theorem read_in_bounds (p : RxPort) (size : p.rxDescriptors.length = mem.rxNum)
    (user_lt : p.userRxDesc < mem.rxNum) (appendStatus : Bool) (d : δ) :
    (∀ (appendTimestamp rxMultiple : Bool) (bufLength : BitVec 64),
        ReadSafe dev mem ⟨appendStatus, appendTimestamp, rxMultiple⟩ bufLength.toNat p d) ↔
      (appendStatus = true ∨ ∀ f ∈ p.pending, f.fe = true → f.cstop = true → 2 ≤ f.count) := by
  obtain ⟨rest, ring⟩ := Window.start size user_lt
  have length : p.pending.length ≤ mem.rxNum := by
    rw [← size, ← Ring.length_view p.rxDescriptors p.userRxDesc, ring.view, List.length_append]
    exact Nat.le_add_right _ _
  constructor
  · intro safe
    cases appendStatus with
    | true => exact .inl rfl
    | false =>
      right
      intro f member fe cstop
      -- the largest buffer, without timestamps, is one into which every frame fits
      have all := safe false true (BitVec.allOnes 64)
      have top : (BitVec.allOnes 64).toNat = 18446744073709551615 := by decide
      rw [top] at all
      cases final : p.pending.find? IoFrame.isFinal with
      | none =>
        have none_ := List.find?_eq_none.mp final f member
        simp [IoFrame.isFinal, fe, cstop] at none_
      | some g =>
        rw [ReadSafe, ring.next_final final] at all
        obtain ⟨whole, looped⟩ := all rfl
        have small := count_lt g
        have requirement := (bufferRequirement_count whole).2
        have room : Settings.bufferRequirement ⟨false, false, true⟩ g.count ≤
            18446744073709551615 := by
          rw [requirement]
          simp only [Settings.timestampLength, Bool.false_eq_true, if_false]
          omega
        have fits : Fitting ⟨false, false, true⟩ 18446744073709551615 p.pending _ :=
          .start (r := ⟨0, 0, 0, 0, List.replicate 18446744073709551615 0⟩) final whole
            (by dsimp only at room ⊢; omega)
        apply fits.all rfl rfl d ring length (looped room) f member
        rw [IoFrame.isFinal, fe, cstop, Bool.and_self]
  · intro enough appendTimestamp rxMultiple bufLength
    have whole : ∀ f ∈ p.pending, f.isFinal = true →
        Settings.statusLength ⟨appendStatus, appendTimestamp, rxMultiple⟩ ≤ f.count := by
      intro f member final
      obtain ⟨fe, cstop⟩ := Bool.and_eq_true_iff.mp final
      rcases enough with rfl | enough
      · exact Nat.zero_le _
      · exact (statusLength_le _).trans (enough f member fe cstop)
    intro ready
    cases final : p.pending.find? IoFrame.isFinal with
    | none =>
      rw [ring.next_none final] at ready
      cases ready
    | some g =>
      have first := whole g (List.mem_of_find?_eq_some final) (List.find?_some final)
      rw [ring.next_final final]
      refine ⟨first, fun room => ?_⟩
      have fits : Fitting _ bufLength.toNat p.pending _ :=
        .start (r := ⟨0, 0, 0, 0, List.replicate bufLength.toNat 0⟩) final first
          (by dsimp only at room ⊢; omega)
      exact fits.loop bufLength.isLt _ d ring whole

/-- A port that has just drained a frame of one byte. -/
def oneByteFrame : RxPort := (fifoReadData constant .small (freshRx .small [1, 2]) 1#32).1

/-- A frame of one byte is read with its status, and not without it. -/
theorem read_in_bounds_one_byte :
    (∀ (appendTimestamp rxMultiple : Bool) (bufLength : BitVec 64),
      ReadSafe constant .small ⟨true, appendTimestamp, rxMultiple⟩ bufLength.toNat oneByteFrame
        1#32) ∧
    ¬∀ (appendTimestamp rxMultiple : Bool) (bufLength : BitVec 64),
      ReadSafe constant .small ⟨false, appendTimestamp, rxMultiple⟩ bufLength.toNat oneByteFrame
        1#32 :=
  ⟨(read_in_bounds oneByteFrame (by decide) (by decide) true 1#32).mpr (.inl rfl), fun safe =>
    absurd ((read_in_bounds oneByteFrame (by decide) (by decide) false 1#32).mp safe) (by decide)⟩

/-- Into 15 bytes, a read with timestamps of a frame of one byte puts 17. -/
theorem one_byte_overruns :
    (∃ f ∈ oneByteFrame.pending, f.fe = true ∧ f.cstop = true ∧ f.count = 1) ∧
      ¬ReadSafe constant .small ⟨false, true, false⟩ 15 oneByteFrame 1#32 ∧
      (userReadLoop constant .small ⟨false, true, false⟩ 15 2 oneByteFrame
        { bytesInDescs := 1
          totalValidData := subSize 1 2
          filledFrameSize := 0
          outLength := 0
          tempData := List.replicate 15 0 } 1#32).2.1.tempData.length = 17 := by
  refine ⟨by decide, fun safe => ?_, by decide⟩
  obtain ⟨status, -⟩ := safe (by decide)
  exact absurd status (by decide)

end Fscc
