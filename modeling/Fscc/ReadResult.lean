import Fscc.RxCounters

/-!
# What a read returns

`fscc_user_read_frame` and `fscc_user_read_stream` return 0, or `-ENOBUFS`, for several unrelated
reasons. This is when what they return is true: a byte was handed out, or the oldest frame does not
fit.
-/

namespace Fscc

open CInt

variable {δ : Type} (dev : Device δ) {mem : Memory} {p : RxPort}
  {finished free fs gone kept : List IoFrame} {f g : IoFrame} {n : Nat}

/-! ### What the result should be -/

/-- The final descriptor of the oldest complete frame. -/
def RxPort.pendingFrame (p : RxPort) : Option IoFrame := p.pending.find? IoFrame.isFinal

/-- A descriptor that ends a frame which is not just two status bytes. -/
def IoFrame.isPayload (f : IoFrame) : Bool := f.isFinal && f.count != 2

def RxPort.payloadFrame (p : RxPort) : Option IoFrame := p.pending.find? IoFrame.isPayload

/-- A complete frame is pending and needs more than `count` bytes. -/
def Exceeds (settings : Settings) (count : Nat) (p : RxPort) : Prop :=
  ∃ g ∈ p.pendingFrame,
    (count : Int) < g.count - settings.statusLength + settings.timestampLength

/-- A result that is not the end of the file, and that refuses for want of room only. -/
def Truthful (result : Except Errno Nat) (exceeds : Prop) : Prop :=
  result ≠ .ok 0 ∧ (result = .error .enobufs → exceeds)

/-- A read of the pending frames has a byte to hand out: of the status, of a timestamp, or one before
the status bytes of the oldest frame; with `rx_multiple` also of a frame that fits and comes after
frames of two bytes. -/
def Gives (settings : Settings) (count : Nat) (p : RxPort) : Prop :=
  settings.appendStatus = true ∨ settings.appendTimestamp = true ∨
    (∃ g ∈ p.pendingFrame, 2 < g.count) ∨
    settings.rxMultiple = true ∧ (∃ g ∈ p.pendingFrame, g.count = 2) ∧
      ∃ g ∈ p.payloadFrame, 2 < g.count ∧ g.count - 2 ≤ count

instance Gives.decidable (settings : Settings) (count : Nat) (p : RxPort) :
    Decidable (Gives settings count p) :=
  inferInstanceAs (Decidable (_ ∨ _ ∨ _ ∨ _ ∧ _ ∧ _))

theorem RxRing.pending_eq (h : RxRing mem p finished free) : p.pending = finished := by
  have window := h.window
  rw [RxPort.pending, h.view, List.takeWhile_append_of_pos]
  · cases free with
    | nil => exact List.append_nil finished
    | cons f rest =>
      rw [List.takeWhile_cons_of_neg, List.append_nil]
      rw [window.rest_open f rfl]
      exact Bool.false_ne_true
  · intro f member
    rw [window.pending_done f member]
    rfl

private theorem find?_payload_none (none_ : fs.find? IoFrame.isFinal = none) :
    fs.find? IoFrame.isPayload = none := by
  rw [List.find?_eq_none] at none_ ⊢
  intro f member
  rw [IoFrame.isPayload, Bool.eq_false_iff.mpr (none_ f member)]
  exact Bool.false_ne_true

private theorem find?_payload_some (first : fs.find? IoFrame.isFinal = some g) (other : g.count ≠ 2) :
    fs.find? IoFrame.isPayload = some g := by
  obtain ⟨last, before, after, rfl, earlier⟩ := List.find?_eq_some_iff_append.mp first
  refine List.find?_eq_some_iff_append.mpr ⟨?_, before, after, rfl, ?_⟩
  · rw [IoFrame.isPayload, last, Bool.true_and]
    exact bne_iff_ne.mpr other
  · intro f member
    have none_ := earlier f member
    rw [Bool.not_eq_true'] at none_ ⊢
    rw [IoFrame.isPayload, none_, Bool.false_and]

private theorem find?_payload_cons (two : f.isFinal = true → f.count = 2) :
    (f :: fs).find? IoFrame.isPayload = fs.find? IoFrame.isPayload := by
  apply List.find?_cons_of_neg
  cases last : f.isFinal with
  | true => simp [IoFrame.isPayload, two last]
  | false => simp [IoFrame.isPayload, last]

/-! ### The frames of a ring -/

/-- Finished descriptors of frames: one that does not end its frame is full, and one that does counts
at least a byte, and no more than the frame's descriptors hold. `n` of the first frame's are gone. -/
def Fitted (mem : Memory) : Nat → List IoFrame → Prop
  | _, [] => True
  | n, f :: fs =>
    if f.isFinal then (0 < f.count ∧ f.count ≤ (n + 1) * mem.rxSize) ∧ Fitted mem 0 fs
    else f.desc.dataCount = mem.rxSize ∧ Fitted mem (n + 1) fs

/-- The most that a read hands out for a descriptor. -/
def IoFrame.most (f : IoFrame) : Nat :=
  (if f.isFinal then f.count else f.desc.dataCount) + sizeofTimestamp

def mostOf (fs : List IoFrame) : Nat := (fs.map IoFrame.most).sum

private theorem mostOf_cons (f : IoFrame) (fs : List IoFrame) : mostOf
    (f :: fs) = f.most + mostOf fs := rfl

namespace Fitted

private theorem final (last : f.isFinal = true) :
    Fitted mem n (f :: fs) ↔ (0 < f.count ∧ f.count ≤ (n + 1) * mem.rxSize) ∧ Fitted mem 0 fs := by
  rw [Fitted, if_pos last]

private theorem full (more : f.isFinal = false) :
    Fitted mem n (f :: fs) ↔ f.desc.dataCount = mem.rxSize ∧ Fitted mem (n + 1) fs := by
  rw [Fitted, if_neg (by rw [more]; exact Bool.false_ne_true)]

private theorem pos (h : Fitted mem n fs) (first : fs.find? IoFrame.isFinal = some g) :
    0 < g.count := by
  induction fs generalizing n with
  | nil => cases first
  | cons f fs ih =>
    rw [List.find?_cons] at first
    cases last : f.isFinal with
    | true =>
      rw [last] at first
      obtain rfl := Option.some.inj first
      exact ((final last).mp h).1.1
    | false =>
      rw [last] at first
      exact ih ((full last).mp h).2 first

/-- What a read leaves of it. -/
theorem rest (gone : List IoFrame) (h : Fitted mem n (gone ++ kept)) : ∃ m, Fitted mem m kept := by
  induction gone generalizing n with
  | nil => exact ⟨n, h⟩
  | cons f gone ih =>
    rw [List.cons_append] at h
    cases last : f.isFinal with
    | true => exact ih ((final last).mp h).2
    | false => exact ih ((full last).mp h).2

/-- One more full descriptor. -/
theorem append_full (h : Fitted mem n fs) (more : g.isFinal = false)
    (size : g.desc.dataCount = mem.rxSize) : Fitted mem n (fs ++ [g]) := by
  induction fs generalizing n with
  | nil => exact (full more).mpr ⟨size, trivial⟩
  | cons f fs ih =>
    rw [List.cons_append]
    cases last : f.isFinal with
    | true => exact (final last).mpr ⟨((final last).mp h).1, ih ((final last).mp h).2⟩
    | false => exact (full last).mpr ⟨((full last).mp h).1, ih ((full last).mp h).2⟩

/-- The end of the frame that the last `part` descriptors are of. -/
theorem append_final {part : List IoFrame} (h : Fitted mem n (fs ++ part))
    (more : ∀ f ∈ part, f.isFinal = false) (last : g.isFinal = true) (pos : 0 < g.count)
    (fits : g.count ≤ (part.length + 1) * mem.rxSize) : Fitted mem n (fs ++ part ++ [g]) := by
  induction fs generalizing n with
  | nil =>
    rw [List.nil_append] at h ⊢
    -- The descriptors that are gone give no less room.
    have room : g.count ≤ (n + part.length + 1) * mem.rxSize :=
      fits.trans (Nat.mul_le_mul_right _ (by omega))
    clear fits
    induction part generalizing n with
    | nil => exact (final last).mpr ⟨⟨pos, room⟩, trivial⟩
    | cons f part ih =>
      have first := more f (.head _)
      have rest := (full first).mp h
      refine (full first).mpr ⟨rest.1, ih (fun x member => more x (.tail _ member)) rest.2 ?_⟩
      rw [List.length_cons] at room
      rwa [Nat.add_assoc n, Nat.add_comm 1]
  | cons f fs ih =>
    rw [List.cons_append] at h
    rw [List.cons_append, List.cons_append]
    cases first : f.isFinal with
    | true => exact (final first).mpr ⟨((final first).mp h).1, ih ((final first).mp h).2⟩
    | false => exact (full first).mpr ⟨((full first).mp h).1, ih ((full first).mp h).2⟩

private theorem mostOf_le (h : Fitted mem n fs) :
    mostOf fs ≤ n * mem.rxSize + fs.length * (2 * mem.rxSize + sizeofTimestamp) := by
  induction fs generalizing n with
  | nil => exact Nat.zero_le _
  | cons f fs ih =>
    rw [mostOf_cons, List.length_cons, Nat.succ_mul]
    cases last : f.isFinal with
    | true =>
      obtain ⟨⟨-, fits⟩, rest⟩ := (final last).mp h
      have more := ih rest
      rw [Nat.succ_mul] at fits
      rw [IoFrame.most, if_pos last]
      omega
    | false =>
      obtain ⟨size, rest⟩ := (full last).mp h
      have more := ih rest
      rw [Nat.succ_mul] at more
      rw [IoFrame.most, if_neg (by rw [last]; exact Bool.false_ne_true), size]
      omega

/-- However much of the first frame is gone, what is left of a ring is not too much for
`out_length`. -/
private theorem mostOf_lt (h : Fitted mem n fs) (size : fs.length ≤ mem.rxNum) :
    mostOf fs < 4294967296 := by
  have bound : mostOf fs < 536870912 + fs.length * (2 * mem.rxSize + sizeofTimestamp) := by
    clear size
    induction fs generalizing n with
    | nil => simp [mostOf]
    | cons f fs ih =>
      rw [mostOf_cons, List.length_cons, Nat.succ_mul]
      cases last : f.isFinal with
      | true =>
        have small := count_lt f
        have rest := mostOf_le ((final last).mp h).2
        rw [IoFrame.most, if_pos last]
        omega
      | false =>
        obtain ⟨size, rest⟩ := (full last).mp h
        have more := ih rest
        rw [IoFrame.most, if_neg (by rw [last]; exact Bool.false_ne_true), size]
        omega
  have fits := mem.rx_fits
  have pos := mem.rxSize_pos
  have words := mem.rxSize_words
  have all := Nat.mul_le_mul_right (2 * mem.rxSize + sizeofTimestamp) size
  -- A timestamp is as long as four words.
  have stamp := Nat.mul_le_mul_left mem.rxNum (by omega : 4 ≤ mem.rxSize)
  rw [Nat.mul_add mem.rxNum, Nat.mul_left_comm] at all
  simp only [sizeofTimestamp] at *
  omega

end Fitted

/-! ### The loop of `fscc_user_read_frame` -/

/-- `out_length` is at least `least`, what is left of the ring does not make it wrap, and `temp_data`
is no shorter than `room`. -/
structure Grows (least room : Nat) (fs : List IoFrame) (r : Reading) : Prop where
  low : least ≤ r.outLength
  high : r.outLength + mostOf fs < 4294967296
  temp : room ≤ r.tempData.length

private theorem length_le_memcpyAt (dst : List UInt8) (off : Nat) (src : List UInt8) :
    dst.length ≤ (memcpyAt dst off src).length := by
  simp only [memcpyAt, List.length_append, List.length_take, List.length_drop]
  omega

private theorem Within.planned_le {r : Reading} (left : Within (f :: fs) r) :
    plannedMoveSize f r + sizeofTimestamp ≤ f.most := by
  rw [IoFrame.most]
  cases last : f.isFinal with
  | true =>
    have planned := (left.final last).2
    simp only [if_true]
    omega
  | false =>
    have both : ¬(f.fe && f.cstop) = true := by
      change ¬f.isFinal = true
      rw [last]
      exact Bool.false_ne_true
    rw [plannedMoveSize, if_neg both, if_neg Bool.false_ne_true]

/-- A frame that does not fit ends the read. -/
private theorem nextFrame_eq_none {settings : Settings} {bufLength : Nat} {next : Bool × Nat}
    {r : Reading}
    (tight : subSize bufLength r.outLength < settings.bufferRequirement next.2) :
    nextFrame settings bufLength next r = none := by
  cases more : nextFrame settings bufLength next r with
  | none => rfl
  | some r' =>
    obtain ⟨-, -, fits, -⟩ := nextFrame_eq_some.mp more
    exact absurd fits (Nat.not_le.mpr tight)

section Loop

variable (settings : Settings) {bufLength least room : Nat} {r : Reading}

/-- What a descriptor adds to `out_length`. -/
def added (f : IoFrame) (r : Reading) : Nat :=
  min (plannedMoveSize f r) r.totalValidData +
    if r.bytesInDescs - plannedMoveSize f r = 0 then settings.timestampLength else 0

namespace Grows

private theorem weaken (h : Grows least room fs r) {less : Nat} (le : less ≤ least) :
    Grows less room fs r :=
  ⟨le.trans h.low, h.high, h.temp⟩

private theorem pass (h : Grows least room (f :: fs) r) (left : Within (f :: fs) r) (d : δ) :
    Grows (r.outLength + added settings f r) room fs (readDescriptor dev settings f r d).2.1 := by
  have planned := left.planned_le
  have high := h.high
  have stamp : (if r.bytesInDescs - plannedMoveSize f r = 0 then appended dev settings f d
      else ([], d)).1.length =
        if r.bytesInDescs - plannedMoveSize f r = 0 then settings.timestampLength else 0 := by
    split
    next => exact length_appended dev settings f d
    next => rfl
  have short : (if r.bytesInDescs - plannedMoveSize f r = 0 then settings.timestampLength else 0) ≤
      sizeofTimestamp := by
    split
    next => exact timestampLength_le settings
    next => exact Nat.zero_le _
  rw [mostOf_cons] at high
  rw [readDescriptor_eq dev settings f r d (plannedMoveSize f r) rfl]
  dsimp only
  rw [stamp, add32_eq (a := r.outLength) (by omega), add32_eq (by omega), Nat.add_assoc]
  refine ⟨Nat.le_refl _, ?_, ?_⟩
  · dsimp only
    omega
  · exact h.temp.trans ((length_le_memcpyAt _ _ _).trans (length_le_memcpyAt _ _ _))

end Grows

namespace RxRing

private theorem readLoop_grows (ring : RxRing mem p finished free) (left : Within finished r)
    (h : Grows least room finished r) (passes : Nat) (d : δ) :
    ∃ kept, Grows least room kept (userReadLoop dev mem settings bufLength passes p r d).2.1 := by
  have pass (f : IoFrame) (fs : List IoFrame) (r : Reading) (d : δ) (left : Within (f :: fs) r)
      (h : Grows least room (f :: fs) r) :
      Grows least room fs (readDescriptor dev settings f r d).2.1 :=
    (h.pass dev settings left d).weaken (h.low.trans (Nat.le_add_right _ _))
  obtain ⟨-, kept, -, -, -, grown⟩ := ring.readLoop_rule dev settings (P := Grows least room) pass
    (fun _ _ _ _ h => ⟨h.low, h.high, h.temp⟩) left h passes d
  exact ⟨kept, grown⟩

/-- What the first pass hands out stays. -/
private theorem readLoop_after (ring : RxRing mem p (f :: fs) free) (left : Within (f :: fs) r)
    (h : Grows least room (f :: fs) r) (passes : Nat) (d : δ) :
    ∃ kept, Grows (r.outLength + added settings f r) room kept
      (userReadLoop dev mem settings bufLength (passes + 1) p r d).2.1 := by
  have grown := h.pass dev settings left d
  obtain ⟨after, stop | ⟨r', left', which, loop⟩⟩ := ring.readLoop_succ dev settings
    bufLength left passes d
  · rw [stop]
    exact ⟨fs, grown⟩
  · rw [loop]
    refine after.readLoop_grows dev settings left' ?_ passes _
    rcases which with rfl | ⟨bytes, valid, rfl⟩
    · exact grown
    · exact ⟨grown.low, grown.high, grown.temp⟩

end RxRing

/-- At the start of a frame, its first descriptor is a full one or the final one. -/
private theorem Fitted.planned (fitted : Fitted mem n (f :: fs)) (left : Within (f :: fs) r)
    (first : (f :: fs).find? IoFrame.isFinal = some g) (start : r.filledFrameSize = 0) :
    0 < plannedMoveSize f r ∧ (g.count = 2 → 2 ≤ plannedMoveSize f r) := by
  have pos := mem.rxSize_pos
  have words := mem.rxSize_words
  cases last : f.isFinal with
  | true =>
    have counted := ((final last).mp fitted).1.1
    rw [List.find?_cons, last] at first
    obtain rfl := Option.some.inj first
    rw [(left.final last).2, start]
    omega
  | false =>
    have size := ((full last).mp fitted).1
    have both : ¬(f.fe && f.cstop) = true := by
      change ¬f.isFinal = true
      rw [last]
      exact Bool.false_ne_true
    rw [plannedMoveSize, if_neg both, size]
    omega

/-- Out of a frame of two bytes, its status, nothing is copied. -/
private theorem Fitted.readDescriptor_two (unstamped : settings.appendTimestamp = false)
    (fitted : Fitted mem n (f :: fs)) (first : (f :: fs).find? IoFrame.isFinal = some g)
    (two : g.count = 2) (temp : List UInt8) (d : δ) :
    readDescriptor dev settings f ⟨2, 0, 0, 0, temp⟩ d = (freed f, ⟨0, 0, 0, 0, temp⟩, d) := by
  have left : Within (f :: fs) ⟨2, 0, 0, 0, temp⟩ := ⟨g, first, two.ge⟩
  have planned := (fitted.planned left first rfl).2 two
  have ended : 2 - plannedMoveSize f ⟨2, 0, 0, 0, temp⟩ = 0 := by omega
  rw [readDescriptor_eq dev settings f _ d (plannedMoveSize f ⟨2, 0, 0, 0, temp⟩) rfl]
  simp [ended, appended, unstamped, add32, addSize, bytesAt]

section Next

variable {settings : Settings} (bare : settings.appendStatus = false)
  (unstamped : settings.appendTimestamp = false) (multiple : settings.rxMultiple = true)
include bare unstamped multiple

/-- A read of several frames goes on with a frame of two bytes, whatever room it has. -/
private theorem nextFrame_two (two : g.count = 2) (temp : List UInt8) :
    nextFrame settings bufLength (true, g.count) ⟨0, 0, 0, 0, temp⟩ = some ⟨2, 0, 0, 0, temp⟩ := by
  have status : settings.statusLength = 2 := by simp [Settings.statusLength, bare]
  have stamp : settings.timestampLength = 0 := by simp [Settings.timestampLength, unstamped]
  obtain ⟨cut, requirement⟩ := @bufferRequirement_count g settings (by omega)
  refine nextFrame_eq_some.mpr ⟨multiple, rfl, ?_, ?_⟩
  · rw [requirement, two, status, stamp]
    exact Nat.zero_le _
  · rw [cut, two, status]

/-- It goes on with another frame just when that is longer and fits. -/
private theorem nextFrame_other (size : bufLength < 18446744073709551616) (other : g.count ≠ 2)
    (pos : 0 < g.count) (safe : bufLength + 1 < 18446744073709551616 ∨ 2 < g.count)
    (temp : List UInt8) :
    nextFrame settings bufLength (true, g.count) ⟨0, 0, 0, 0, temp⟩ =
      if 2 < g.count ∧ g.count - 2 ≤ bufLength then some ⟨g.count, g.count - 2, 0, 0, temp⟩
      else none := by
  have status : settings.statusLength = 2 := by simp [Settings.statusLength, bare]
  have stamp : settings.timestampLength = 0 := by simp [Settings.timestampLength, unstamped]
  by_cases long : 2 < g.count
  · obtain ⟨cut, requirement⟩ := @bufferRequirement_count g settings (by omega)
    rw [status, stamp, Nat.add_zero] at requirement
    by_cases fits : g.count - 2 ≤ bufLength
    · rw [if_pos ⟨long, fits⟩]
      refine nextFrame_eq_some.mpr ⟨multiple, rfl, ?_, ?_⟩
      · rw [requirement, subSize_zero size]
        exact fits
      · rw [cut, status]
    · rw [if_neg fun both => fits both.2]
      refine nextFrame_eq_none ?_
      rw [requirement, subSize_zero size]
      exact Nat.lt_of_not_le fits
  -- The size of a frame of one byte, less its status bytes, is huge.
  · have short := safe.resolve_right long
    have one : g.count = 1 := by omega
    rw [if_neg fun both => long both.1]
    refine nextFrame_eq_none ?_
    rw [Settings.bufferRequirement, one, status, stamp, subSize_zero size]
    unfold addSize subSize
    dsimp only
    omega

end Next

namespace RxRing

/-- Of a frame with a byte to hand out, the first pass hands one out, and so does a timestamp after
a frame of two. -/
private theorem readLoop_gives (ring : RxRing mem p finished free) (fitted : Fitted mem n finished)
    (first : finished.find? IoFrame.isFinal = some g) {valid : Nat} (temp : List UInt8)
    (gives : 0 < valid ∨ settings.appendTimestamp = true ∧ g.count = 2) (passes : Nat) (d : δ) :
    0 < (userReadLoop dev mem settings bufLength (passes + 1) p ⟨g.count, valid, 0, 0, temp⟩
      d).2.1.outLength := by
  obtain ⟨f, fs, rfl⟩ : ∃ f fs, finished = f :: fs := by
    cases finished with
    | nil => cases first
    | cons f fs => exact ⟨f, fs, rfl⟩
  have size := ring.length_add
  have most := fitted.mostOf_lt (by omega)
  have left : Within (f :: fs) ⟨g.count, valid, 0, 0, temp⟩ := ⟨g, first, Nat.le_refl _⟩
  have planned := fitted.planned left first rfl
  have start : Grows 0 temp.length (f :: fs) ⟨g.count, valid, 0, 0, temp⟩ :=
    ⟨Nat.le_refl _, by simpa using most, Nat.le_refl _⟩
  obtain ⟨kept, grown⟩ := ring.readLoop_after dev settings left start passes d
  refine Nat.lt_of_lt_of_le ?_ grown.low
  rw [added]
  rcases gives with some_ | ⟨stamped, two⟩
  · dsimp only
    omega
  · have ended : g.count - plannedMoveSize f ⟨g.count, valid, 0, 0, temp⟩ = 0 := by
      have enough := planned.2 two
      omega
    rw [if_pos ended, Settings.timestampLength, if_pos stamped]
    simp only [sizeofTimestamp]
    omega

/-- Frames of two bytes hand out nothing, without status and without timestamps. A read of several
comes to a byte just when the next other frame is longer and fits. -/
private theorem readLoop_empty (bare : settings.appendStatus = false)
    (unstamped : settings.appendTimestamp = false) (multiple : settings.rxMultiple = true)
    (size : bufLength < 18446744073709551616) (ring : RxRing mem p finished free)
    (fitted : Fitted mem n finished) (first : finished.find? IoFrame.isFinal = some g)
    (two : g.count = 2) (temp : List UInt8)
    (safe : bufLength + 1 < 18446744073709551616 ∨
      ∃ g, finished.find? IoFrame.isPayload = some g ∧ 2 < g.count)
    {passes : Nat} (enough : finished.length ≤ passes) (d : δ) :
    0 < (userReadLoop dev mem settings bufLength passes p ⟨2, 0, 0, 0, temp⟩ d).2.1.outLength ↔
      ∃ g, finished.find? IoFrame.isPayload = some g ∧ 2 < g.count ∧ g.count - 2 ≤ bufLength := by
  -- Induction on what is finished, with the loop about to read a frame of two status bytes.
  induction finished generalizing p free n g temp passes d with
  | nil => cases first
  | cons f fs ih =>
    obtain ⟨passes, rfl⟩ : ∃ k, passes = k + 1 :=
      ⟨passes - 1, by rw [List.length_cons] at enough; omega⟩
    -- The status bytes are all of it: the pass hands the descriptor back and copies nothing.
    have after := ring.putUser (freed f) (freed_empty f).1 (freed_empty f).2
      (ring.buffers f (.head _))
    have here : f.isFinal = true → f.count = 2 := by
      intro last
      rw [List.find?_cons, last] at first
      rw [Option.some.inj first, two]
    have pass := fitted.readDescriptor_two dev settings unstamped first two temp d
    obtain ⟨m, fitted'⟩ := fitted.rest [f]
    rw [find?_payload_cons here] at safe ⊢
    rw [userReadLoop, ring.userFrame_eq, pass]
    simp only [if_true]
    -- No further frame is finished, so the loop stops with nothing copied.
    cases second : fs.find? IoFrame.isFinal with
    | none =>
      rw [find?_payload_none second]
      cases next : nextFrame settings bufLength (userNextReadSize mem (p.putUser mem (freed f)))
        ⟨0, 0, 0, 0, temp⟩ with
      | none => simp
      | some r' =>
        have ready := (nextFrame_some next).1
        rw [after.window.next_none second] at ready
        cases ready
    | some g' =>
      have some_ : 0 < fs.length := by
        cases fs with
        | nil => cases second
        | cons f fs => exact Nat.succ_pos _
      obtain ⟨passes, rfl⟩ : ∃ k, passes = k + 1 :=
        ⟨passes - 1, by rw [List.length_cons] at enough; omega⟩
      rw [after.window.next_final second]
      -- Another frame without payload: the loop is where it began, one frame further.
      by_cases two' : g'.count = 2
      · rw [nextFrame_two bare unstamped multiple two']
        exact ih after fitted' second two' temp safe (by simpa using enough) d
      -- This is the first frame with payload. Whether it is read is decided by its length alone.
      · rw [find?_payload_some second two'] at safe ⊢
        have safe' : bufLength + 1 < 18446744073709551616 ∨ 2 < g'.count := by
          refine safe.imp_right ?_
          rintro ⟨x, same, more⟩
          rwa [Option.some.inj same]
        rw [nextFrame_other bare unstamped multiple size two' (fitted'.pos second) safe']
        by_cases read : 2 < g'.count ∧ g'.count - 2 ≤ bufLength
        · rw [if_pos read]
          exact iff_of_true (after.readLoop_gives dev settings fitted' second temp
            (.inl (by omega)) passes d) ⟨g', rfl, read⟩
        · rw [if_neg read]
          refine iff_of_false (Nat.lt_irrefl 0) ?_
          rintro ⟨x, same, given⟩
          rw [← Option.some.inj same] at given
          exact read given

/-- A read of one frame hands out nothing of a frame of two bytes. -/
private theorem readLoop_two (unstamped : settings.appendTimestamp = false)
    (single : settings.rxMultiple = false) (ring : RxRing mem p finished free)
    (fitted : Fitted mem n finished) (first : finished.find? IoFrame.isFinal = some g)
    (two : g.count = 2) (temp : List UInt8) (passes : Nat) (d : δ) :
    (userReadLoop dev mem settings bufLength (passes + 1) p ⟨2, 0, 0, 0, temp⟩ d).2.1.outLength =
      0 := by
  cases finished with
  | nil => cases first
  | cons f fs =>
    rw [userReadLoop, ring.userFrame_eq, fitted.readDescriptor_two dev settings unstamped first two]
    simp [nextFrame, single]

end RxRing

end Loop

/-! ### `fscc_user_read_frame` -/

theorem truthful_ok {k : Nat} {exceeds : Prop} : Truthful (.ok k) exceeds ↔ 0 < k := by
  simp [Truthful, Nat.pos_iff_ne_zero]

private theorem truthful_enobufs {exceeds : Prop} : Truthful (.error .enobufs) exceeds ↔ exceeds := by
  simp [Truthful]

private theorem statusLength_bare {settings : Settings} (bare : settings.appendStatus = false) :
    settings.statusLength = 2 := by
  simp [Settings.statusLength, bare]

private theorem timestampLength_unstamped {settings : Settings}
    (unstamped : settings.appendTimestamp = false) : settings.timestampLength = 0 := by
  simp [Settings.timestampLength, unstamped]

/-- The frame needs more than the buffer has just when that is so on `size_t`, but for a frame of one
byte and no timestamp. -/
private theorem exceeds_iff (settings : Settings) {count : Nat} (pos : 0 < g.count)
    (whole : settings.statusLength ≤ g.count ∨ settings.appendTimestamp = true) :
    count < settings.bufferRequirement g.count ↔
      (count : Int) < g.count - settings.statusLength + settings.timestampLength := by
  by_cases enough : settings.statusLength ≤ g.count
  · rw [(bufferRequirement_count enough).2]
    omega
  · have short := statusLength_le settings
    have one : g.count = 1 := by omega
    have two : settings.statusLength = 2 := by omega
    have stamp := whole.resolve_left enough
    rw [Settings.bufferRequirement, one, two, Settings.timestampLength, if_pos stamp]
    unfold addSize subSize sizeofTimestamp
    omega

section Frames

variable (settings : Settings) {count : Nat}

private theorem RxRing.gives_iff (ring : RxRing mem p finished free)
    (first : finished.find? IoFrame.isFinal = some g) :
    Gives settings count p ↔ settings.appendStatus = true ∨ settings.appendTimestamp = true ∨
      2 < g.count ∨ settings.rxMultiple = true ∧ g.count = 2 ∧
        ∃ x, finished.find? IoFrame.isPayload = some x ∧ 2 < x.count ∧ x.count - 2 ≤ count := by
  rw [Gives, RxPort.pendingFrame, RxPort.payloadFrame, ring.pending_eq, first]
  simp

variable (mem) in
/-- The loop of `fscc_user_read_frame` on a ring whose oldest complete frame ends with `g`. -/
def frameLoop (count : Nat) (g : IoFrame) (p : RxPort) (d : δ) : RxPort × Reading × δ :=
  userReadLoop dev mem settings count mem.rxNum p
    ⟨g.count, subSize g.count settings.statusLength, 0, 0, List.replicate count 0⟩ d

namespace Fitted

/-- A read of a frame that fits is truthful just when a byte comes out of the loop. -/
private theorem readFrame_fits (fitted : Fitted mem n finished) (ring : RxRing mem p finished free)
    (first : finished.find? IoFrame.isFinal = some g) (pos : 0 < count)
    (fits : settings.bufferRequirement g.count ≤ count) (d : δ) {exceeds : Prop} :
    Truthful ((userReadFrame dev mem settings count true 0 p d).1.map List.length) exceeds ↔
      0 < (frameLoop dev mem settings count g p d).2.1.outLength := by
  have size := ring.length_add
  have most := fitted.mostOf_lt (by omega)
  have start : Grows 0 count finished ⟨g.count, subSize g.count settings.statusLength, 0, 0,
      List.replicate count 0⟩ :=
    ⟨Nat.le_refl _, by simpa using most, by simp⟩
  have grows : ∃ kept, Grows 0 count kept (frameLoop dev mem settings count g p d).2.1 :=
    ring.readLoop_grows dev settings ⟨g, first, Nat.le_refl _⟩ start mem.rxNum d
  obtain ⟨kept, grown⟩ := grows
  have room := grown.temp
  have result : (userReadFrame dev mem settings count true 0 p d).1.map List.length =
      .ok (min (frameLoop dev mem settings count g p d).2.1.outLength
        (frameLoop dev mem settings count g p d).2.1.tempData.length) := by
    simp [userReadFrame, ring.window.next_final first, Nat.not_lt.mpr fits, Except.map, frameLoop]
  rw [result, truthful_ok]
  omega

/-- A read that does not refuse comes to a byte just when the frames have one for it. -/
private theorem frameLoop_gives (fitted : Fitted mem n finished) (ring : RxRing mem p finished free)
    (first : finished.find? IoFrame.isFinal = some g) (size : count < 18446744073709551616)
    (fits : settings.bufferRequirement g.count ≤ count)
    (safe : count + 1 < 18446744073709551616 ∨ Gives settings count p) (d : δ) :
    0 < (frameLoop dev mem settings count g p d).2.1.outLength ↔ Gives settings count p := by
  obtain ⟨passes, all⟩ : ∃ k, mem.rxNum = k + 1 := ⟨mem.rxNum - 1, by have := mem.rxNum_pos; omega⟩
  have counted := fitted.pos first
  have gives (valid : 0 < subSize g.count settings.statusLength ∨
      settings.appendTimestamp = true ∧ g.count = 2) :
      0 < (frameLoop dev mem settings count g p d).2.1.outLength := by
    rw [frameLoop, all]
    exact ring.readLoop_gives dev settings fitted first _ valid passes d
  rw [ring.gives_iff settings first] at safe ⊢
  cases bare : settings.appendStatus with
  | true =>
    have valid : subSize g.count settings.statusLength = g.count := by
      have small := count_lt g
      rw [Settings.statusLength, if_pos bare, subSize_zero (by omega)]
    exact iff_of_true (gives (.inl (by rw [valid]; exact counted))) (.inl rfl)
  | false =>
    have status := statusLength_bare bare
    have valid (other : g.count ≠ 2) : 0 < subSize g.count settings.statusLength := by
      have small := count_lt g
      rw [status]
      unfold subSize
      omega
    cases unstamped : settings.appendTimestamp with
    | true =>
      refine iff_of_true (gives ?_) (.inr (.inl rfl))
      by_cases two : g.count = 2
      · exact .inr ⟨unstamped, two⟩
      · exact .inl (valid two)
    | false =>
      have stamp := timestampLength_unstamped unstamped
      by_cases long : 2 < g.count
      · exact iff_of_true (gives (.inl (valid (by omega)))) (.inr (.inr (.inl long)))
      · by_cases two : g.count = 2
        · have zero : subSize 2 2 = 0 := by decide
          rw [frameLoop, two, status, zero]
          cases multiple : settings.rxMultiple with
          | true =>
            have enough := ring.length_add
            rw [ring.readLoop_empty dev settings bare unstamped multiple size fitted first two _ ?_
              (by omega) d]
            · simp
            · refine safe.imp_right ?_
              rintro (h | h | h | ⟨-, -, x, payload, more, -⟩)
              · rw [bare] at h; cases h
              · rw [unstamped] at h; cases h
              · exact absurd h long
              · exact ⟨x, payload, more⟩
          | false =>
            rw [all, ring.readLoop_two dev settings unstamped multiple fitted first two]
            refine iff_of_false (Nat.lt_irrefl 0) ?_
            simp
        · -- A frame of one byte is refused, if the buffer is not as large as can be.
          have one : g.count = 1 := by omega
          rw [Settings.bufferRequirement, one, status, stamp] at fits
          unfold addSize subSize at fits
          refine absurd (safe.resolve_left (by omega)) ?_
          simp [bare, unstamped, one]

/-- `fscc_user_read_frame` is truthful just when its buffer is allocated, a complete frame is pending
and the pending frames have something to hand out. -/
theorem readFrame_truthful (fitted : Fitted mem n finished) (ring : RxRing mem p finished free)
    (pos : 0 < count) (size : count < 18446744073709551616) (alloc : Bool)
    (safe : count + 1 < 18446744073709551616 ∨ Gives settings count p) (d : δ) :
    Truthful ((userReadFrame dev mem settings count alloc 0 p d).1.map List.length)
        (Exceeds settings count p) ↔
      alloc = true ∧ (userNextReadSize mem p).1 = true ∧ Gives settings count p := by
  have nothing : ¬Truthful (.ok 0) (Exceeds settings count p) := fun h => h.1 rfl
  cases alloc with
  | false => exact iff_of_false nothing (fun h => Bool.false_ne_true h.1)
  | true =>
    cases first : finished.find? IoFrame.isFinal with
    | none =>
      have ready := ring.window.next_none first
      have refused : (userReadFrame dev mem settings count true 0 p d).1.map List.length =
          .error .enobufs := by
        simp [userReadFrame, ready, Except.map]
      rw [refused, truthful_enobufs, ready]
      refine iff_of_false ?_ (fun h => Bool.false_ne_true h.2.1)
      rintro ⟨g, pending, -⟩
      rw [RxPort.pendingFrame, ring.pending_eq, first] at pending
      cases pending
    | some g =>
      have pending : p.pendingFrame = some g := by
        rw [RxPort.pendingFrame, ring.pending_eq, first]
      have counted := fitted.pos first
      have next := ring.window.next_final first
      have ready : (userNextReadSize mem p).1 = true := by rw [next]
      simp only [ready, true_and]
      by_cases tight : count < settings.bufferRequirement g.count
      · have refused : (userReadFrame dev mem settings count true 0 p d).1.map List.length =
            .error .enobufs := by
          simp [userReadFrame, next, tight, Except.map]
        have exceeds : Exceeds settings count p ↔
            (count : Int) < g.count - settings.statusLength + settings.timestampLength := by
          rw [Exceeds, pending]
          simp
        rw [refused, truthful_enobufs, exceeds, ring.gives_iff settings first]
        by_cases whole : settings.statusLength ≤ g.count ∨ settings.appendTimestamp = true
        · rw [← exceeds_iff settings counted whole]
          refine iff_of_true tight ?_
          cases bare : settings.appendStatus with
          | true => exact .inl rfl
          | false =>
            cases unstamped : settings.appendTimestamp with
            | true => exact .inr (.inl rfl)
            | false =>
              have long := (exceeds_iff settings counted whole).mp tight
              rw [statusLength_bare bare, timestampLength_unstamped unstamped] at long
              exact .inr (.inr (.inl (by omega)))
        · obtain ⟨short, unstamped⟩ := not_or.mp whole
          rw [Bool.not_eq_true] at unstamped
          have two := statusLength_le settings
          have bare : settings.appendStatus = false := by
            cases status : settings.appendStatus with
            | false => rfl
            | true => rw [Settings.statusLength, if_pos status] at short; omega
          rw [timestampLength_unstamped unstamped]
          refine iff_of_false (by omega) ?_
          have one : g.count = 1 := by omega
          simp [bare, unstamped, one]
      · have fits := Nat.not_lt.mp tight
        rw [fitted.readFrame_fits dev settings ring first pos fits d]
        exact fitted.frameLoop_gives dev settings ring first size fits safe d

end Fitted

end Frames

/-! ### `fscc_user_read_stream` -/

/-- `fscc_user_read_stream` returns a byte just when its buffer is allocated and the descriptor that
it starts with is finished. -/
theorem Pieces.readStream_some (pieces : Pieces mem p finished free)
    (some_ : ∀ c ∈ finished.map IoFrame.data, c ≠ []) {count : Nat} (pos : 0 < count)
    (size : count < 18446744073709551616) (alloc : Bool) :
    0 < (userReadStream mem count alloc 0 p).1.length ↔
      alloc = true ∧ p.userFrame.isOpen = false := by
  cases alloc with
  | false => exact iff_of_false (Nat.lt_irrefl 0) (fun h => Bool.false_ne_true h.1)
  | true =>
    obtain ⟨-, -, result⟩ := pieces.read size 0
    rw [result, Nat.sub_zero, List.take_length, Chunks.fst_read, List.length_take]
    have ring := pieces.ring
    cases finished with
    | nil =>
      have pos := mem.rxNum_pos
      have sum := ring.length_add
      obtain ⟨f, rest, rfl⟩ : ∃ f rest, free = f :: rest := by
        cases free with
        | nil => simp only [List.length_nil] at sum; omega
        | cons f rest => exact ⟨f, rest, rfl⟩
      have opened := ring.free_open f (.head _)
      rw [ring.userFrame_free, IoFrame.isOpen, opened.1, opened.2]
      simp
    | cons f fs =>
      have first := List.length_pos_iff.mpr (some_ f.data (.head _))
      rw [ring.userFrame_eq, ring.window.pending_done f (.head _)]
      refine iff_of_true ?_ ⟨rfl, rfl⟩
      rw [List.map_cons, List.flatten_cons, List.length_append]
      omega

end Fscc
