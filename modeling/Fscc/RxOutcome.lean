import Fscc.RxRead
import Fscc.RxStream

/-!
# What a read takes and what it reports

Which of the frames in the ring `fscc_user_read_frame` takes, and whether what a read reports to
its caller is what it has taken out of the ring.
-/

namespace Fscc

open CInt

variable {δ : Type} (dev : Device δ) {mem : Memory} {p : RxPort}
  {groups : List (FrameGroup mem)} {part finished free : List IoFrame}

/-! ### The frames that fit -/

/-- The room that a read needs for `groups`, one after the other. -/
def requiredSum (settings : Settings) (groups : List (FrameGroup mem)) : Nat :=
  (groups.map fun g => g.required settings).sum

/-- A read into `bufLength` takes `k` of the frames: one, or with `rx_multiple` as many as fit. -/
structure Selected (settings : Settings) (bufLength : Nat) (groups : List (FrameGroup mem))
    (k : Nat) : Prop where
  some_ : 0 < k ∧ k ≤ groups.length
  fits : requiredSum settings (groups.take k) ≤ bufLength
  single : settings.rxMultiple = false → k = 1
  largest : settings.rxMultiple = true → ∀ j ≤ groups.length,
    requiredSum settings (groups.take j) ≤ bufLength → j ≤ k

private theorem requiredSum_fitting (settings : Settings) (space : Nat)
    (groups : List (FrameGroup mem)) :
    requiredSum settings (fitting settings space groups) ≤ space := by
  induction groups generalizing space with
  | nil => exact Nat.zero_le _
  | cons g gs ih =>
    unfold fitting
    split
    next fits =>
      have rest := ih (space - g.required settings)
      rw [requiredSum, List.map_cons, List.sum_cons]
      rw [requiredSum] at rest
      omega
    next => exact Nat.zero_le _

/-- No more of the frames fit than a read takes. -/
private theorem fitting_largest (settings : Settings) {space j : Nat} {groups : List (FrameGroup mem)}
    (le : j ≤ groups.length) (fits : requiredSum settings (groups.take j) ≤ space) :
    j ≤ (fitting settings space groups).length := by
  induction groups generalizing space j with
  | nil => exact le.trans (Nat.zero_le _)
  | cons g gs ih =>
    cases j with
    | zero => exact Nat.zero_le _
    | succ j =>
      rw [requiredSum, List.take_succ_cons, List.map_cons, List.sum_cons] at fits
      have first : g.required settings ≤ space := by omega
      rw [fitting, if_pos first, List.length_cons]
      apply Nat.succ_le_succ
      apply ih (by simpa using le)
      rw [requiredSum]
      omega

/-- What a read hands out for frames is as long as the room it needs for them. -/
private theorem length_outputs (settings : Settings) {groups : List (FrameGroup mem)}
    (fits : ∀ g ∈ groups, g.Fits) (d : δ) :
    (outputs dev settings groups d).1.length = requiredSum settings groups := by
  induction groups generalizing d with
  | nil => rfl
  | cons g gs ih =>
    rw [outputs_cons, List.length_append, length_outputs_one dev settings (fits g (.head _)),
      ih fun x member => fits x (.tail _ member)]
    rfl

/-- The frames taken are the selected ones. -/
private theorem taken_selected (settings : Settings) {bufLength : Nat} {g : FrameGroup mem}
    (gs : List (FrameGroup mem)) (room : g.required settings ≤ bufLength) :
    ∃ k, taken settings bufLength (g :: gs) = (g :: gs).take k ∧
      Selected settings bufLength (g :: gs) k := by
  have first := List.prefix_iff_eq_take.mp (taken_first settings bufLength (g :: gs))
  have some_ : 0 < (taken settings bufLength (g :: gs)).length := by
    rw [taken_cons, if_pos room]
    exact Nat.succ_pos _
  refine ⟨_, first, ⟨some_, (taken_first settings bufLength (g :: gs)).length_le⟩, ?_, ?_, ?_⟩
  · rw [← first]
    exact requiredSum_fitting settings bufLength _
  · intro single
    rw [taken_cons, if_pos room, following, single]
    rfl
  · intro multiple j le fits
    rw [taken, if_pos multiple]
    exact fitting_largest settings le fits

/-- `fscc_user_read_frame` without a fault: it refuses when there is no frame or the first does not
fit, and else returns the frames that it selects, one after the other, and leaves the others. -/
theorem frames_selected (ring : RxRing mem p (groups.flatMap FrameGroup.descs ++ part) free)
    (part_ok : ∀ f ∈ part, f.Full mem) (whole : ∀ g ∈ groups, g.Whole) (settings : Settings)
    (bufLength : BitVec 64) (d : δ) :
    ((∀ g ∈ groups.head?, bufLength.toNat < g.required settings) →
      userReadFrame dev mem settings bufLength.toNat true 0 p d = (.error .enobufs, p, d)) ∧
    (∀ g ∈ groups.head?, g.required settings ≤ bufLength.toNat →
      ∃ k p', Selected settings bufLength.toNat groups k ∧
        userReadFrame dev mem settings bufLength.toNat true 0 p d =
          (.ok (outputs dev settings (groups.take k) d).1, p',
            (outputs dev settings (groups.take k) d).2) ∧
        (outputs dev settings (groups.take k) d).1.length =
          requiredSum settings (groups.take k) ∧
        RxRing mem p' ((groups.drop k).flatMap FrameGroup.descs ++ part)
          (free ++ ((groups.take k).flatMap FrameGroup.descs).map freed)) := by
  constructor
  -- The oldest frame does not fit, so that nothing is selected.
  · intro tight
    apply ring.userReadFrame_refused dev settings d part_ok whole
    cases groups with
    | nil => simp [taken, fitting]
    | cons g gs => rw [taken_cons, if_neg (Nat.not_le.mpr (tight g rfl))]
  -- The frames selected are a first part of those in the ring.
  · intro g head room
    obtain ⟨gs, rfl⟩ : ∃ gs, groups = g :: gs := by
      cases groups with
      | nil => cases head
      | cons x gs => exact ⟨gs, by rw [Option.some.inj head]⟩
    obtain ⟨rest, p', split, after, -, eq⟩ := ring.userReadFrame dev settings d part_ok whole room
      bufLength.isLt 0
    obtain ⟨k, first, selected⟩ := taken_selected settings gs room
    rw [first] at split after eq
    have left : rest = (g :: gs).drop k :=
      List.append_cancel_left (split.symm.trans (List.take_append_drop k _).symm)
    rw [copiedOut_zero] at eq
    refine ⟨k, p', selected, eq, ?_, left ▸ after⟩
    exact length_outputs dev settings (fun x member => (whole x (List.mem_of_mem_take member)).fits) d

/-- A frame of three bytes in its descriptor, and one of four. -/
def threeBytes : IoFrame :=
  ⟨⟨0xc0000003#32, 8, 0#32⟩, 1#32, [1, 2, 3, 0, 0, 0, 0, 0], ⟨5#64, 0#64⟩⟩

def fourBytes : IoFrame :=
  ⟨⟨0xc0000004#32, 8, 0#32⟩, 2#32, [4, 5, 6, 7, 0, 0, 0, 0], ⟨6#64, 0#64⟩⟩

/-- A frame that is all in one descriptor. -/
def oneDescriptor (f : IoFrame) (fe : f.fe = true) (cstop : f.cstop = true)
    (buffer : f.buffer.length = 8) : FrameGroup .small :=
  ⟨[], f, by simp, fe, cstop, buffer⟩

instance (g : FrameGroup mem) : Decidable g.Closed := inferInstanceAs (Decidable (_ < _))

instance (g : FrameGroup mem) : Decidable g.Fits := inferInstanceAs (Decidable (_ ≤ _))

/-- A port with the two frames. -/
def twoFrames : RxPort := ⟨[threeBytes, fourBytes], 0, 0, 0, 0⟩

def twoGroups : List (FrameGroup .small) :=
  [oneDescriptor threeBytes (by decide) (by decide) rfl,
    oneDescriptor fourBytes (by decide) (by decide) rfl]

private theorem rxRing_twoFrames : RxRing .small twoFrames
    (twoGroups.flatMap FrameGroup.descs ++ []) [] where
  size := rfl
  user_lt := by decide
  view := rfl
  fifo := rfl
  buffers := by decide
  finished_cstop := by decide
  free_open := by decide
  free_room := by decide
  later_empty := by decide

private theorem whole_twoGroups : ∀ g ∈ twoGroups, g.Whole := by
  intro g member
  rcases List.mem_cons.mp member with rfl | member
  · exact ⟨by decide, by decide, by decide⟩
  · obtain rfl := List.mem_singleton.mp member
    exact ⟨by decide, by decide, by decide⟩

/-- Without status and with timestamps a read needs 17 bytes for the first and 18 for the second. -/
theorem frames_selected_two :
    ∃ k p', Selected ⟨false, true, true⟩ 35 twoGroups k ∧
      userReadFrame constant .small ⟨false, true, true⟩ 35 true 0 twoFrames 0#32 =
        (.ok (outputs constant ⟨false, true, true⟩ (twoGroups.take k) 0#32).1, p',
          (outputs constant ⟨false, true, true⟩ (twoGroups.take k) 0#32).2) ∧
      (outputs constant ⟨false, true, true⟩ (twoGroups.take k) 0#32).1.length =
        requiredSum ⟨false, true, true⟩ (twoGroups.take k) ∧
      RxRing .small p' ((twoGroups.drop k).flatMap FrameGroup.descs ++ [])
        ([] ++ ((twoGroups.take k).flatMap FrameGroup.descs).map freed) :=
  (frames_selected constant rxRing_twoFrames (by simp) whole_twoGroups ⟨false, true, true⟩ 35#64
    0#32).2 _ rfl (by decide)

/-! ### What a read reports -/

/-- A read of frames reports what it takes: a length that covers the frames it has taken out of the
ring, or an error, and then it has taken none. -/
def FramesReported (settings : Settings) (groups : List (FrameGroup mem)) (part : List IoFrame)
    (p : RxPort) (read : Except Errno (List UInt8) × RxPort × δ) : Prop :=
  match read.1 with
  | .ok bytes => ∃ gone rest free', groups = gone ++ rest ∧
      RxRing mem read.2.1 (rest.flatMap FrameGroup.descs ++ part) free' ∧
      bytes.length = requiredSum settings gone
  | .error _ => read.2.1 = p

/-- A read of a stream reports what it takes: its bytes are those that are no longer in the ring. -/
def StreamReported (p : RxPort) (read : List UInt8 × RxPort) : Prop :=
  read.1 ++ read.2.ringBytes = p.ringBytes

/-- How much a read of frames asks `copy_to_user` to copy. -/
def framesOffered (mem : Memory) (settings : Settings) (bufLength : Nat) (alloc : Bool) (p : RxPort)
    (d : δ) : Nat :=
  match (userReadFrame dev mem settings bufLength alloc 0 p d).1 with
  | .ok bytes => bytes.length
  | .error _ => 0

/-- How much a read of the stream asks `copy_to_user` to copy. -/
def streamOffered (mem : Memory) (bufLength : Nat) (alloc : Bool) (p : RxPort) : Nat :=
  (userReadStream mem bufLength alloc 0 p).1.length

/-- The frames that are left tell which are gone. -/
private theorem gone_unique {gone gone' rest rest' : List (FrameGroup mem)}
    (split : gone ++ rest = gone' ++ rest')
    (left : rest.flatMap FrameGroup.descs = rest'.flatMap FrameGroup.descs) : gone = gone' := by
  have none_ : ∀ gs : List (FrameGroup mem), ∀ ys : List IoFrame,
      gs.flatMap FrameGroup.descs ++ ys = ys → gs = [] := by
    intro gs ys same
    have empty := List.append_left_eq_self.mp same
    cases gs with
    | nil => rfl
    | cons g gs => simp [FrameGroup.descs] at empty
  rcases List.append_eq_append_iff.mp split with ⟨more, rfl, rfl⟩ | ⟨more, rfl, rfl⟩
  · rw [List.flatMap_append] at left
    rw [none_ more _ left, List.append_nil]
  · rw [List.flatMap_append] at left
    rw [none_ more _ left.symm, List.append_nil]

/-- A read of frames reports what it takes just when all of it reaches the caller. -/
private theorem framesReported_iff (ring : RxRing mem p (groups.flatMap FrameGroup.descs ++ part) free)
    (part_ok : ∀ f ∈ part, f.Full mem) (whole : ∀ g ∈ groups, g.Whole) (settings : Settings)
    (bufLength : BitVec 64) (alloc : Bool) (unmovedBytes : Nat) (d : δ)
    (unmoved : unmovedBytes ≤ framesOffered dev mem settings bufLength.toNat alloc p d) :
    FramesReported settings groups part p
        (userReadFrame dev mem settings bufLength.toNat alloc unmovedBytes p d) ↔
      unmovedBytes = 0 := by
  cases alloc with
  | false =>
    refine ⟨fun _ => Nat.le_zero.mp unmoved, fun _ => ?_⟩
    exact ⟨[], groups, free, rfl, ring, rfl⟩
  | true =>
    by_cases refused : taken settings bufLength.toNat groups = []
    · have eq := ring.userReadFrame_refused dev settings d part_ok whole refused
      rw [framesOffered, eq] at unmoved
      rw [eq]
      exact ⟨fun _ => Nat.le_zero.mp unmoved, fun _ => rfl⟩
    · obtain ⟨g, gs, rfl⟩ : ∃ g gs, groups = g :: gs := by
        cases groups with
        | nil => simp [taken, fitting] at refused
        | cons g gs => exact ⟨g, gs, rfl⟩
      have room : g.required settings ≤ bufLength.toNat := by
        by_contra tight
        rw [taken_cons, if_neg tight] at refused
        exact refused rfl
      have long : ∀ d, (outputs dev settings (taken settings bufLength.toNat (g :: gs)) d).1.length =
          requiredSum settings (taken settings bufLength.toNat (g :: gs)) := by
        apply length_outputs
        intro x member
        exact (whole x ((taken_first settings bufLength.toNat (g :: gs)).mem member)).fits
      have offered : framesOffered dev mem settings bufLength.toNat true p d =
          requiredSum settings (taken settings bufLength.toNat (g :: gs)) := by
        obtain ⟨rest, p', split, after, same, eq⟩ := ring.userReadFrame dev settings d part_ok whole
          room bufLength.isLt 0
        rw [framesOffered, eq, copiedOut_zero]
        exact long d
      obtain ⟨rest, p', split, after, -, eq⟩ := ring.userReadFrame dev settings d part_ok whole room
        bufLength.isLt unmovedBytes
      have length : (copiedOut (outputs dev settings (taken settings bufLength.toNat (g :: gs)) d).1
          unmovedBytes).length =
            requiredSum settings (taken settings bufLength.toNat (g :: gs)) - unmovedBytes := by
        rw [copiedOut, List.length_take, long d]
        exact Nat.min_eq_left (Nat.sub_le _ _)
      rw [offered] at unmoved
      rw [eq]
      constructor
      · rintro ⟨gone, left, free', split', after', reported⟩
        -- what is left in the ring is what the read has left, so what is gone is what it has taken
        have same := List.append_cancel_right (after'.cut.1.symm.trans after.cut.1)
        rw [length, ← gone_unique (split.symm.trans split') same.symm] at reported
        omega
      · rintro rfl
        exact ⟨_, rest, _, split, after, length⟩

/-- A read of the stream reports what it takes just when all of it reaches the caller. -/
private theorem streamReported_iff (pieces : Pieces mem p finished free) (bufLength : BitVec 64)
    (alloc : Bool) (unmovedBytes : Nat)
    (unmoved : unmovedBytes ≤ streamOffered mem bufLength.toNat alloc p) :
    StreamReported p (userReadStream mem bufLength.toNat alloc unmovedBytes p) ↔
      unmovedBytes = 0 := by
  cases alloc with
  | false => exact ⟨fun _ => Nat.le_zero.mp unmoved, fun _ => rfl⟩
  | true =>
    obtain ⟨-, -, all⟩ := pieces.read bufLength.isLt 0
    obtain ⟨⟨finished', free', left⟩, -, result⟩ := pieces.read bufLength.isLt unmovedBytes
    obtain ⟨fs, rfl, empty⟩ := left.emptied
    rw [streamOffered, all, Nat.sub_zero, List.take_length] at unmoved
    have queue := Chunks.read_append bufLength.toNat (finished.map IoFrame.data)
    rw [StreamReported, left.pieces.ringBytes_eq, pieces.ringBytes_eq, left.data, result,
      drained_append_empty empty, ← queue]
    -- What could not be copied is gone from the ring all the same.
    constructor
    · intro reported
      have length := congrArg List.length reported
      simp only [List.length_append, List.length_take] at length
      omega
    · rintro rfl
      rw [Nat.sub_zero, List.take_length, List.append_assoc]

/-- For every ring, settings and size of the buffer, a read in either mode reports what it takes out
of the ring just when `copy_to_user` leaves none of it uncopied. -/
theorem read_reported (groups : List (FrameGroup mem)) (part finished free : List IoFrame)
    (settings : Settings) (bufLength : BitVec 64) (alloc : Bool) (unmovedBytes : Nat) (d : δ) :
    (RxRing mem p (groups.flatMap FrameGroup.descs ++ part) free → (∀ f ∈ part, f.Full mem) →
      (∀ g ∈ groups, g.Whole) →
      unmovedBytes ≤ framesOffered dev mem settings bufLength.toNat alloc p d →
      (FramesReported settings groups part p
          (userReadFrame dev mem settings bufLength.toNat alloc unmovedBytes p d) ↔
        unmovedBytes = 0)) ∧
    (Pieces mem p finished free →
      unmovedBytes ≤ streamOffered mem bufLength.toNat alloc p →
      (StreamReported p (userReadStream mem bufLength.toNat alloc unmovedBytes p) ↔
        unmovedBytes = 0)) := by
  constructor
  · intro ring part_ok whole unmoved
    exact framesReported_iff dev ring part_ok whole settings bufLength alloc unmovedBytes d unmoved
  · intro pieces unmoved
    exact streamReported_iff pieces bufLength alloc unmovedBytes unmoved

private theorem pieces_twoFrames : Pieces .small twoFrames [threeBytes, fourBytes] [] :=
  ⟨rxRing_twoFrames, by decide⟩

/-- Of the 35 bytes of both frames, or of the 16 of both descriptors, one is not copied. -/
theorem read_reported_two :
    (FramesReported ⟨false, true, true⟩ twoGroups [] twoFrames
        (userReadFrame constant .small ⟨false, true, true⟩ 35 true 1 twoFrames 0#32) ↔ 1 = 0) ∧
      (StreamReported twoFrames (userReadStream .small 35 true 1 twoFrames) ↔ 1 = 0) :=
  have both := read_reported constant (p := twoFrames) twoGroups [] [threeBytes, fourBytes] []
    ⟨false, true, true⟩ 35#64 true 1 0#32
  ⟨both.1 rxRing_twoFrames (by simp) whole_twoGroups (by decide),
    both.2 pieces_twoFrames (by decide)⟩

/-- With a fault at the last byte of a read of 35 bytes, both frames are gone. -/
theorem fault_loses_bytes :
    framesOffered constant .small ⟨false, true, true⟩ 35 true twoFrames 0#32 = 35 ∧
      (userNextReadSize .small (userReadFrame constant .small ⟨false, true, true⟩ 35 true 1 twoFrames
        0#32).2.1).1 = false ∧
      ¬FramesReported ⟨false, true, true⟩ twoGroups [] twoFrames
        (userReadFrame constant .small ⟨false, true, true⟩ 35 true 1 twoFrames 0#32) ∧
      ¬StreamReported twoFrames (userReadStream .small 35 true 1 twoFrames) := by
  refine ⟨by decide, by decide, fun reported => ?_, fun reported => ?_⟩
  · exact absurd ((framesReported_iff constant rxRing_twoFrames (by simp) whole_twoGroups
      ⟨false, true, true⟩ 35#64 true 1 0#32 (by decide)).mp reported) (by decide)
  · exact absurd ((streamReported_iff pieces_twoFrames 35#64 true 1 (by decide)).mp reported)
      (by decide)

end Fscc
