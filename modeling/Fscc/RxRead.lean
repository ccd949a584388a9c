import Fscc.RxFrames

/-!
# Reading frames

`fscc_user_read_frame` on a ring that holds whole frames: which frames it takes, what it
copies out, and the ring it leaves.
-/

namespace Fscc

open CInt

variable {δ : Type} (dev : Device δ) {mem : Memory}

namespace FrameGroup

variable (g : FrameGroup mem)

/-- A frame with its two status bytes, the last of its bytes in its last descriptor. -/
structure Whole : Prop where
  status : 2 ≤ g.length
  closed : g.Closed
  fits : g.Fits

/-- What a read hands out of a frame. -/
def payload (settings : Settings) : List UInt8 := g.bytes.take (g.length - settings.statusLength)

/-- The room a read needs for a frame. -/
def required (settings : Settings) : Nat :=
  g.length - settings.statusLength + settings.timestampLength

theorem length_lt : g.length < 536870912 := cnt_lt _

theorem length_descs : g.descs.length = g.full.length + 1 := by simp [descs]

end FrameGroup

/-- The timestamp a read appends to a frame whose last descriptor is `f`. -/
def appended (settings : Settings) (f : IoFrame) (d : δ) : List UInt8 × δ :=
  if settings.appendTimestamp then
    let stamp := if f.timestamp.isEmpty then dev.ktime d else (f.timestamp, d)
    (stamp.1.bytes, stamp.2)
  else ([], d)

/-- What a read hands out for the frames it takes. -/
def outputs (settings : Settings) : List (FrameGroup mem) → δ → List UInt8 × δ
  | [], d => ([], d)
  | g :: gs, d =>
    let stamp := appended dev settings g.last d
    let more := outputs settings gs stamp.2
    (g.payload settings ++ stamp.1 ++ more.1, more.2)

/-- The frames, from the front, that fit one after the other into `space` bytes. -/
def fitting (settings : Settings) : Nat → List (FrameGroup mem) → List (FrameGroup mem)
  | _, [] => []
  | space, g :: gs =>
    if g.required settings ≤ space then g :: fitting settings (space - g.required settings) gs
    else []

/-- The frames that a read takes out of the ring. -/
def taken (settings : Settings) (bufLength : Nat) (groups : List (FrameGroup mem)) :
    List (FrameGroup mem) :=
  fitting settings bufLength (if settings.rxMultiple then groups else groups.take 1)

theorem fitting_first (settings : Settings) (space : Nat) (groups : List (FrameGroup mem)) :
    fitting settings space groups <+: groups := by
  induction groups generalizing space with
  | nil => exact List.prefix_refl []
  | cons g gs ih =>
    unfold fitting
    split
    · exact List.cons_prefix_cons.mpr ⟨rfl, ih _⟩
    · exact List.nil_prefix

theorem taken_first (settings : Settings) (bufLength : Nat) (groups : List (FrameGroup mem)) :
    taken settings bufLength groups <+: groups := by
  unfold taken
  split
  · exact fitting_first settings bufLength groups
  · exact (fitting_first settings bufLength _).trans (List.take_prefix 1 groups)

/-- A descriptor as a read leaves it. -/
def freed (f : IoFrame) : IoFrame := (f.setTimestamp .clear).setControl descHiBit

/-! ### Scanning for the next frame -/

private theorem scan_full {fs tail : List IoFrame} (full : ∀ f ∈ fs, f.Full mem) (bytes : Nat) :
    ∃ bytes', Ring.scan nextReadStep (fun bytes => (false, bytes)) (fs ++ tail) bytes =
      Ring.scan nextReadStep (fun bytes => (false, bytes)) tail bytes' := by
  induction fs generalizing bytes with
  | nil => exact ⟨bytes, rfl⟩
  | cons f fs ih =>
    have plain := full f (.head _)
    obtain ⟨bytes', eq⟩ := ih (fun g hg => full g (.tail _ hg)) (addSize bytes f.desc.dataCount)
    exact ⟨bytes', by simpa [Ring.scan, nextReadStep, plain.fe, plain.cstop] using eq⟩

namespace RxRing

variable {p : RxPort} {free part : List IoFrame} {gs : List (FrameGroup mem)}

/-- With a frame in the ring, a reader is told the length of the oldest. -/
theorem nextReadSize_cons {g : FrameGroup mem}
    (h : RxRing mem p ((g :: gs).flatMap FrameGroup.descs ++ part) free) :
    userNextReadSize mem p = (true, g.length) := by
  rw [h.userNextReadSize_eq]
  simp only [List.flatMap_cons, FrameGroup.descs, List.append_assoc, List.cons_append,
    List.nil_append]
  obtain ⟨bytes, eq⟩ := scan_full g.full_ok 0
  rw [eq]
  simp [Ring.scan, nextReadStep, g.last_fe, g.last_cstop, FrameGroup.length]

/-- Without a frame, whatever has been drained of one is not ready. -/
theorem nextReadSize_nil (h : RxRing mem p part free) (full : ∀ f ∈ part, f.Full mem) :
    (userNextReadSize mem p).1 = false := by
  rw [h.userNextReadSize_eq]
  obtain ⟨bytes, eq⟩ := scan_full full 0
  rw [eq]
  cases free with
  | nil => rfl
  | cons f rest =>
    have opened := h.free_open f (.head _)
    simp [Ring.scan, nextReadStep, opened.1, opened.2]

end RxRing

/-! ### One frame -/

/-- The locals of the read loop after the bytes `pre` of a frame of `length` bytes, of which
`valid` are handed out, behind what is in `out` already. -/
structure Midway (bufLength length valid : Nat) (out pre : List UInt8) (r : Reading) : Prop where
  bytesInDescs : r.bytesInDescs = length - pre.length
  totalValidData : r.totalValidData = valid - pre.length
  filledFrameSize : r.filledFrameSize = min pre.length valid
  outLength : r.outLength = (out ++ pre.take valid).length
  tempData : r.tempData.take r.outLength = out ++ pre.take valid
  size : r.tempData.length = bufLength

theorem length_appended (settings : Settings) (f : IoFrame) (d : δ) :
    (appended dev settings f d).1.length = settings.timestampLength := by
  unfold appended Settings.timestampLength
  split <;> simp

@[simp] theorem memcpyAt_nil (dst : List UInt8) (off : Nat) : memcpyAt dst off [] = dst := by
  simp [memcpyAt]

/-- A step of the loop that means to move `planned` bytes. -/
theorem readDescriptor_eq (settings : Settings) (f : IoFrame) (r : Reading) (d : δ) (planned : Nat)
    (plan : (if f.fe && f.cstop then subSize f.count r.filledFrameSize else f.desc.dataCount) =
      planned) :
    readDescriptor dev settings f r d =
      let real := min planned r.totalValidData
      let stamp := if r.bytesInDescs - planned = 0 then appended dev settings f d else ([], d)
      (freed f,
        { bytesInDescs := r.bytesInDescs - planned
          totalValidData := r.totalValidData - real
          filledFrameSize := addSize r.filledFrameSize real
          outLength := add32 (add32 r.outLength real) stamp.1.length
          tempData := memcpyAt (memcpyAt r.tempData r.outLength (bytesAt f.buffer real))
            (add32 r.outLength real) stamp.1 },
        stamp.2) := by
  have copied (n : Nat) : (if n = 0 then r.tempData
      else memcpyAt r.tempData r.outLength (bytesAt f.buffer n)) =
      memcpyAt r.tempData r.outLength (bytesAt f.buffer n) := by
    split
    next zero => simp [zero, bytesAt]
    next => rfl
  have idle (n : Nat) : add32 (add32 r.outLength n) 0 = add32 r.outLength n := by simp [add32]
  unfold readDescriptor
  rw [plan]
  simp only [copied]
  by_cases ended : r.bytesInDescs - planned = 0
  · by_cases append : settings.appendTimestamp = true
    · simp [ended, append, appended, freed]
    · simp [ended, append, appended, freed, idle]
  · simp [ended, freed, idle]

/-- The read loop has put exactly `out` into its buffer. -/
structure Copied (bufLength : Nat) (out : List UInt8) (r : Reading) : Prop where
  outLength : r.outLength = out.length
  tempData : r.tempData.take r.outLength = out
  size : r.tempData.length = bufLength

namespace Midway

variable {bufLength length valid : Nat} {out pre : List UInt8} {r : Reading}
  {f : IoFrame}

/-- The locals at the start of a frame. -/
theorem start (copied : Copied bufLength out r) :
    Midway bufLength length valid out []
      { r with bytesInDescs := length, totalValidData := valid, filledFrameSize := 0 } where
  bytesInDescs := rfl
  totalValidData := rfl
  filledFrameSize := by simp
  outLength := by simpa using copied.outLength
  tempData := by simpa using copied.tempData
  size := copied.size

section Steps

variable (m : Midway bufLength length valid out pre r) (room : out.length + valid ≤ bufLength)
include m room

/-- The copy of one step continues what has been copied. -/
private theorem copy (n : Nat) (bound : min n (valid - pre.length) ≤ f.buffer.length) :
    (memcpyAt r.tempData r.outLength (bytesAt f.buffer (min n (valid - pre.length)))).take
      (r.outLength + min n (valid - pre.length)) =
      out ++ (pre ++ f.buffer.take n).take valid ∧
    (memcpyAt r.tempData r.outLength (bytesAt f.buffer (min n (valid - pre.length)))).length =
      bufLength := by
  have size := m.size
  have outLength := m.outLength
  simp only [List.length_append, List.length_take] at outLength
  constructor
  · have inside : r.outLength ≤ r.tempData.length := by omega
    have copied := take_memcpyAt inside (bytesAt f.buffer (min n (valid - pre.length)))
    rw [length_bytesAt] at copied
    have cut : (pre ++ f.buffer.take n).take valid =
        pre.take valid ++ (f.buffer.take n).take (valid - pre.length) := List.take_append
    rw [copied, m.tempData, bytesAt_eq bound, List.append_assoc, cut, List.take_take, Nat.min_comm]
  · rw [length_memcpyAt, size]
    rw [length_bytesAt]
    omega

variable (settings : Settings) (le : valid ≤ length) (short : length < 536870912)
  (small : out.length + length + sizeofTimestamp < 4294967296) (d : δ)
include le short small

/-- A step of the loop on a full descriptor. -/
theorem step_full (full : f.Full mem) (more : pre.length + mem.rxSize < length) :
    ∃ r', readDescriptor dev settings f r d = (freed f, r', d) ∧ r'.bytesInDescs ≠ 0 ∧
      Midway bufLength length valid out (pre ++ f.buffer) r' := by
  have outLength := m.outLength
  have copy := m.copy (f := f) room mem.rxSize (by rw [full.buffer]; exact Nat.min_le_left _ _)
  have eq := readDescriptor_eq dev settings f r d mem.rxSize
    (by simp [full.fe, full.dataCount])
  have left : r.bytesInDescs - mem.rxSize ≠ 0 := by
    rw [m.bytesInDescs]
    omega
  simp only [List.length_append, List.length_take] at outLength
  rw [← full.buffer, List.take_length, full.buffer] at copy
  simp only [if_neg left, m.totalValidData, m.filledFrameSize, memcpyAt_nil, List.length_nil] at eq
  have advance : add32 r.outLength (min mem.rxSize (valid - pre.length)) =
      r.outLength + min mem.rxSize (valid - pre.length) := add32_eq (by omega)
  rw [advance, add32_eq (by omega), addSize_eq (by omega)] at eq
  refine ⟨_, eq, left, ?_⟩
  exact {
    bytesInDescs := by simp only [m.bytesInDescs, List.length_append, full.buffer]; omega
    totalValidData := by simp only [List.length_append, full.buffer]; omega
    filledFrameSize := by simp only [List.length_append, full.buffer]; omega
    outLength := by
      simp only [List.length_append, List.length_take, full.buffer]
      omega
    tempData := copy.1
    size := copy.2 }

/-- The last step of the loop on a frame. -/
theorem step_last (fe : f.fe = true) (cstop : f.cstop = true) (count : f.count = length)
    (buffer : f.buffer.length = mem.rxSize) (closed : pre.length < length)
    (fits : length ≤ pre.length + mem.rxSize)
    (append : out.length + valid + (appended dev settings f d).1.length ≤ bufLength) :
    ∃ r', readDescriptor dev settings f r d = (freed f, r', (appended dev settings f d).2) ∧
      r'.bytesInDescs = 0 ∧ Copied bufLength
        (out ++ (pre ++ f.buffer).take valid ++ (appended dev settings f d).1) r' := by
  have outLength := m.outLength
  have stamped := length_appended dev settings f d
  have stamp : settings.timestampLength ≤ sizeofTimestamp := by
    unfold Settings.timestampLength
    split
    · exact Nat.le_refl _
    · exact Nat.zero_le _
  simp only [List.length_append, List.length_take] at outLength
  -- The count of the frame, less what has been gathered, reaches past its last byte.
  have plan : subSize length (min pre.length valid) = length - min pre.length valid :=
    subSize_eq (by omega) (by omega)
  have real : min (length - min pre.length valid) (valid - pre.length) =
      min mem.rxSize (valid - pre.length) := by omega
  have copy := m.copy (f := f) room mem.rxSize (by rw [buffer]; exact Nat.min_le_left _ _)
  rw [← buffer, List.take_length, buffer] at copy
  have eq := readDescriptor_eq dev settings f r d (length - min pre.length valid)
    (by simp [fe, cstop, count, m.filledFrameSize, plan])
  have left : r.bytesInDescs - (length - min pre.length valid) = 0 := by
    rw [m.bytesInDescs]
    omega
  have advance : add32 r.outLength (min mem.rxSize (valid - pre.length)) =
      r.outLength + min mem.rxSize (valid - pre.length) := add32_eq (by omega)
  simp only [if_pos left, m.totalValidData, m.filledFrameSize, real, advance] at eq
  rw [add32_eq (by omega)] at eq
  have size : r.outLength + min mem.rxSize (valid - pre.length) =
      (out ++ (pre ++ f.buffer).take valid).length := by
    simp only [List.length_append, List.length_take, buffer]
    omega
  refine ⟨_, eq, left, ?_⟩
  exact {
    outLength := by rw [size, ← List.length_append]
    tempData := by rw [take_memcpyAt (by rw [copy.2]; omega) _, copy.1]
    size := by rw [length_memcpyAt (by rw [copy.2]; omega), copy.2] }

end Steps

end Midway

@[simp] theorem rxBytesInFrame_putUser (p : RxPort) (f : IoFrame) :
    (p.putUser mem f).rxBytesInFrame = p.rxBytesInFrame := rfl

@[simp] theorem rxFrameSize_putUser (p : RxPort) (f : IoFrame) :
    (p.putUser mem f).rxFrameSize = p.rxFrameSize := rfl

theorem freed_empty (f : IoFrame) :
    ((freed f).fe = false ∧ (freed f).cstop = false) ∧ (freed f).count = 0 := by
  simp [freed]

/-- What belongs to the drain, which a read leaves alone. -/
def RxPort.SameDrain (p p' : RxPort) : Prop :=
  p'.rxBytesInFrame = p.rxBytesInFrame ∧ p'.rxFrameSize = p.rxFrameSize ∧
    p'.fifoRxDesc = p.fifoRxDesc

section Frame

variable (settings : Settings) {bufLength length valid n : Nat} {out : List UInt8}
  {last : IoFrame} {finished : List IoFrame} (d : δ)
  (room : out.length + valid + settings.timestampLength ≤ bufLength) (le : valid ≤ length)
  (short : length < 536870912) (small : out.length + length + sizeofTimestamp < 4294967296)
include room le short small

/-- The read loop takes a frame out of the ring, then looks for the next one. The
induction is on the full descriptors of the frame that are left. -/
private theorem userReadLoop_frame {fs free : List IoFrame} {pre : List UInt8} {p : RxPort}
    {r : Reading}
    (ring : RxRing mem p (fs ++ last :: finished) free) (full : ∀ f ∈ fs, f.Full mem)
    (fe : last.fe = true) (count : last.count = length)
    (mid : Midway bufLength length valid out pre r)
    (closed : pre.length + fs.length * mem.rxSize < length)
    (fits : length ≤ pre.length + (fs.length + 1) * mem.rxSize) (enough : fs.length < n) :
    ∃ p' r', RxRing mem p' finished (free ++ (fs ++ [last]).map freed) ∧ p.SameDrain p' ∧
      Copied bufLength (out ++ (pre ++ fs.flatMap IoFrame.buffer ++ last.buffer).take valid ++
        (appended dev settings last d).1) r' ∧
      userReadLoop dev mem settings bufLength n p r d =
        match nextFrame settings bufLength (userNextReadSize mem p') r' with
        | none => (p', r', (appended dev settings last d).2)
        | some r'' => userReadLoop dev mem settings bufLength (n - (fs.length + 1)) p' r''
            (appended dev settings last d).2 := by
  induction fs generalizing pre p r free n with
  | nil =>
    obtain ⟨m, rfl⟩ : ∃ m, n = m + 1 := ⟨n - 1, by omega⟩
    have buffer := ring.buffers last (by simp)
    simp only [List.length_nil, Nat.zero_mul, Nat.zero_add, Nat.one_mul] at closed fits
    obtain ⟨r', read, ended, copied⟩ := mid.step_last dev (by omega) settings le short
      small d fe (ring.finished_cstop last (by simp)) count buffer (by omega) (by omega)
      (by rw [length_appended]; exact room)
    refine ⟨p.putUser mem (freed last), r', ?_, ⟨rfl, rfl, rfl⟩, by simpa using copied, ?_⟩
    · exact ring.putUser (freed last) (freed_empty last).1 (freed_empty last).2 buffer
    · rw [userReadLoop, ring.userFrame_eq, read]
      simp only [ended, if_true]
      rfl
  | cons f fs ih =>
    obtain ⟨m, rfl⟩ : ∃ m, n = m + 1 := ⟨n - 1, by omega⟩
    have plain := full f (.head _)
    rw [List.length_cons, Nat.succ_mul] at closed
    obtain ⟨r', read, more, mid'⟩ := mid.step_full dev (by omega) settings le short small d plain
      (by omega)
    have ring' := ring.putUser (freed f) (freed_empty f).1 (freed_empty f).2 plain.buffer
    obtain ⟨p', r'', after, same, copied, eq⟩ := ih (n := m) ring'
      (fun g hg => full g (.tail _ hg)) mid'
      (by rw [List.length_append, plain.buffer]; omega)
      (by
        rw [List.length_append, plain.buffer]
        rw [List.length_cons, Nat.succ_mul] at fits
        omega)
      (by simpa using enough)
    refine ⟨p', r'', by simpa using after, same, by simpa using copied, ?_⟩
    rw [userReadLoop, ring.userFrame_eq, read]
    simp only [more, if_false, eq, List.length_cons, Nat.add_sub_add_right]

end Frame

/-! ### The frames a read takes -/

private theorem FrameGroup.bytes_take (g : FrameGroup mem) {n : Nat} (le : n ≤ g.length) :
    g.bytes.take n = (g.full.flatMap IoFrame.buffer ++ g.last.buffer).take n := by
  rw [FrameGroup.bytes, List.take_take, Nat.min_eq_left le]

theorem statusLength_le (settings : Settings) : settings.statusLength ≤ 2 := by
  unfold Settings.statusLength
  split <;> omega

theorem timestampLength_le (settings : Settings) : settings.timestampLength ≤ sizeofTimestamp := by
  unfold Settings.timestampLength
  split
  · exact Nat.le_refl _
  · exact Nat.zero_le _

/-- The size check of the driver computes the room a frame needs. -/
theorem bufferRequirement_eq (settings : Settings) {g : FrameGroup mem} (whole : g.Whole) :
    settings.bufferRequirement g.length = g.required settings := by
  have status := statusLength_le settings
  have stamp := timestampLength_le settings
  have := whole.status
  have := g.length_lt
  unfold sizeofTimestamp at stamp
  rw [Settings.bufferRequirement, subSize_eq (by omega) (by omega), addSize_eq (by omega),
    FrameGroup.required]

theorem FrameGroup.Fits.length_bytes {g : FrameGroup mem} (fits : g.Fits) :
    g.bytes.length = g.length := by
  have plain := length_flatMap_buffer fun f hf => (g.full_ok f hf).buffer
  rw [FrameGroup.Fits, Nat.succ_mul] at fits
  rw [FrameGroup.bytes, List.length_take, List.length_append, plain, g.last_buffer]
  omega

private theorem length_payload (settings : Settings) {g : FrameGroup mem} (fits : g.Fits) :
    (g.payload settings).length = g.length - settings.statusLength := by
  rw [FrameGroup.payload, List.length_take, fits.length_bytes]
  omega

/-- The frames that a read goes on to after `g`, with `out` bytes written before it. -/
def following (settings : Settings) (bufLength out : Nat) (g : FrameGroup mem)
    (gs : List (FrameGroup mem)) : List (FrameGroup mem) :=
  if settings.rxMultiple then fitting settings (bufLength - (out + g.required settings)) gs else []

private theorem following_nil (settings : Settings) (bufLength out : Nat) (g : FrameGroup mem) :
    following settings bufLength out g [] = [] := by
  simp [following, fitting]

private theorem following_cons (settings : Settings) (bufLength out : Nat) (g g' : FrameGroup mem)
    (gs : List (FrameGroup mem)) (room : out + g.required settings ≤ bufLength) :
    following settings bufLength out g (g' :: gs) =
      if settings.rxMultiple ∧ out + g.required settings + g'.required settings ≤ bufLength then
        g' :: following settings bufLength (out + g.required settings) g' gs
      else [] := by
  have fits : g'.required settings ≤ bufLength - (out + g.required settings) ↔
      out + g.required settings + g'.required settings ≤ bufLength := by omega
  by_cases multiple : settings.rxMultiple = true
  · simp only [following, multiple, if_true, fitting, fits, true_and, Nat.sub_sub]
  · simp [following, multiple]

theorem taken_cons (settings : Settings) (bufLength : Nat) (g : FrameGroup mem)
    (gs : List (FrameGroup mem)) :
    taken settings bufLength (g :: gs) =
      if g.required settings ≤ bufLength then g :: following settings bufLength 0 g gs else [] := by
  by_cases multiple : settings.rxMultiple = true
  · simp [taken, fitting, following, multiple]
  · simp [taken, fitting, following, multiple]

theorem length_le {g : FrameGroup mem} (fits : g.Fits) :
    g.length + sizeofTimestamp ≤ g.descs.length * (mem.rxSize + sizeofTimestamp) := by
  have room : sizeofTimestamp ≤ (g.full.length + 1) * sizeofTimestamp :=
    Nat.le_mul_of_pos_left _ (Nat.succ_pos _)
  rw [g.length_descs, Nat.mul_add]
  exact Nat.add_le_add fits room

private theorem required_le (settings : Settings) {g : FrameGroup mem} (fits : g.Fits) :
    g.required settings ≤ g.descs.length * (mem.rxSize + sizeofTimestamp) := by
  have stamp := timestampLength_le settings
  have cap := length_le fits
  rw [FrameGroup.required]
  omega

/-- What the loop does at the end of a frame, on a ring of frames. -/
private theorem nextFrame_eq (settings : Settings) {bufLength : Nat} {out : List UInt8}
    {gs : List (FrameGroup mem)} {part free : List IoFrame} {p : RxPort} {r : Reading}
    (ring : RxRing mem p (gs.flatMap FrameGroup.descs ++ part) free)
    (part_ok : ∀ f ∈ part, f.Full mem) (whole : ∀ x ∈ gs, x.Whole)
    (copied : Copied bufLength out r) (room : out.length ≤ bufLength)
    (size : bufLength < 18446744073709551616) :
    nextFrame settings bufLength (userNextReadSize mem p) r =
      match gs.head? with
      | none => none
      | some g =>
        if settings.rxMultiple ∧ out.length + g.required settings ≤ bufLength then
          some { r with
            bytesInDescs := g.length
            totalValidData := g.length - settings.statusLength
            filledFrameSize := 0 }
        else none := by
  unfold nextFrame
  by_cases multiple : settings.rxMultiple = true
  · cases gs with
    | nil =>
      have none_ := RxRing.nextReadSize_nil (by simpa using ring) part_ok
      simp [none_]
    | cons g gs =>
      have ready := whole g (.head _)
      have status := statusLength_le settings
      have long := ready.status
      have short := g.length_lt
      rw [ring.nextReadSize_cons, bufferRequirement_eq settings ready, copied.outLength,
        subSize_eq room size, subSize_eq (by omega) (by omega)]
      by_cases fits : out.length + g.required settings ≤ bufLength
      · have free : ¬g.required settings > bufLength - out.length := by omega
        simp [multiple, fits, free]
      · have tight : g.required settings > bufLength - out.length := by omega
        simp [multiple, fits, tight]
  · cases gs <;> simp [multiple]

section Groups

variable (settings : Settings) {bufLength n : Nat} {out : List UInt8} {g : FrameGroup mem}
  {gs : List (FrameGroup mem)} {part free : List IoFrame} {p : RxPort} {r : Reading} {d : δ}

theorem outputs_cons (g : FrameGroup mem) (gs : List (FrameGroup mem)) (d : δ) :
    outputs dev settings (g :: gs) d =
      ((outputs dev settings [g] d).1 ++ (outputs dev settings gs (outputs dev settings [g] d).2).1,
        (outputs dev settings gs (outputs dev settings [g] d).2).2) := by
  simp [outputs]

theorem length_outputs_one (fits : g.Fits) (d : δ) :
    (outputs dev settings [g] d).1.length = g.required settings := by
  simp [outputs, length_payload settings fits, length_appended, FrameGroup.required]

/-- The read loop takes the oldest frame of the ring and looks at the next. -/
private theorem userReadLoop_first
    (ring : RxRing mem p ((g :: gs).flatMap FrameGroup.descs ++ part) free)
    (part_ok : ∀ f ∈ part, f.Full mem) (whole : ∀ x ∈ g :: gs, x.Whole)
    (mid : Midway bufLength g.length (g.length - settings.statusLength) out [] r)
    (room : out.length + g.required settings ≤ bufLength) (size : bufLength < 18446744073709551616)
    (small : out.length + g.length + sizeofTimestamp < 4294967296)
    (enough : g.descs.length ≤ n) :
    ∃ p' r', RxRing mem p' (gs.flatMap FrameGroup.descs ++ part) (free ++ g.descs.map freed) ∧
      p.SameDrain p' ∧ Copied bufLength (out ++ (outputs dev settings [g] d).1) r' ∧
      userReadLoop dev mem settings bufLength n p r d =
        match gs.head? with
        | none => (p', r', (outputs dev settings [g] d).2)
        | some g' =>
          if settings.rxMultiple ∧
              out.length + g.required settings + g'.required settings ≤ bufLength then
            userReadLoop dev mem settings bufLength (n - g.descs.length) p'
              { r' with
                bytesInDescs := g'.length
                totalValidData := g'.length - settings.statusLength
                filledFrameSize := 0 } (outputs dev settings [g] d).2
          else (p', r', (outputs dev settings [g] d).2) := by
  have fits := (whole g (.head _)).fits
  have shape : (g :: gs).flatMap FrameGroup.descs ++ part =
      g.full ++ g.last :: (gs.flatMap FrameGroup.descs ++ part) := by
    simp [FrameGroup.descs]
  have closed : ([] : List UInt8).length + g.full.length * mem.rxSize < g.length := by
    simpa [FrameGroup.Closed] using (whole g (.head _)).closed
  have length : (out ++ (outputs dev settings [g] d).1).length =
      out.length + g.required settings := by
    rw [List.length_append, length_outputs_one dev settings fits]
  have valid := room
  rw [FrameGroup.required] at valid
  rw [shape] at ring
  rw [g.length_descs] at enough ⊢
  -- The loop first empties the descriptors of the frame at the front.
  obtain ⟨p', r', after, same, copied, eq⟩ := userReadLoop_frame dev settings d
    (n := n) (by omega) (Nat.sub_le _ _) g.length_lt small ring g.full_ok g.last_fe rfl
    mid closed (by simpa [FrameGroup.Fits] using fits) enough
  rw [List.nil_append, ← FrameGroup.bytes_take g (Nat.sub_le _ _)] at copied
  have copied : Copied bufLength (out ++ (outputs dev settings [g] d).1) r' := by
    simpa [outputs, FrameGroup.payload] using copied
  have next := nextFrame_eq settings after part_ok (fun x hx => whole x (.tail _ hx)) copied
    (by omega) size
  rw [length] at next
  refine ⟨p', r', by simpa [FrameGroup.descs] using after, same, copied, ?_⟩
  rw [eq, next]
  -- Whether it goes on is decided by the frame behind it.
  cases gs with
  | nil => simp [outputs]
  | cons g' gs =>
    by_cases more : settings.rxMultiple = true ∧
        out.length + g.required settings + g'.required settings ≤ bufLength
    · simp [more, outputs]
    · simp only [List.head?_cons, if_neg more, outputs]

/-- The read loop from the start of a frame: it takes the frame and those that follow while
they fit. The induction is on the frames in the ring. -/
private theorem userReadLoop_groups
    (ring : RxRing mem p ((g :: gs).flatMap FrameGroup.descs ++ part) free)
    (part_ok : ∀ f ∈ part, f.Full mem) (whole : ∀ x ∈ g :: gs, x.Whole)
    (mid : Midway bufLength g.length (g.length - settings.statusLength) out [] r)
    (room : out.length + g.required settings ≤ bufLength) (size : bufLength < 18446744073709551616)
    (small : out.length + ((g :: gs).flatMap FrameGroup.descs).length *
      (mem.rxSize + sizeofTimestamp) < 4294967296)
    (enough : ((g :: gs).flatMap FrameGroup.descs).length ≤ n) :
    ∃ rest p' r', gs = following settings bufLength out.length g gs ++ rest ∧
      RxRing mem p' (rest.flatMap FrameGroup.descs ++ part) (free ++
        ((g :: following settings bufLength out.length g gs).flatMap FrameGroup.descs).map freed) ∧
      p.SameDrain p' ∧
      Copied bufLength
        (out ++ (outputs dev settings (g :: following settings bufLength out.length g gs) d).1) r' ∧
      userReadLoop dev mem settings bufLength n p r d =
        (p', r', (outputs dev settings (g :: following settings bufLength out.length g gs) d).2) := by
  induction gs generalizing g out p r d n free with
  | nil =>
    have cap := length_le (whole g (.head _)).fits
    rw [List.flatMap_singleton] at small enough
    obtain ⟨p', r', after, same, copied, eq⟩ := userReadLoop_first dev settings (d := d)
      (n := n) ring part_ok whole mid room size (by omega) enough
    rw [following_nil]
    exact ⟨[], p', r', rfl, by simpa using after, same, copied, eq⟩
  | cons g' gs ih =>
    -- The buffer holds this frame, and the induction is used on what is left of it.
    have cap := length_le (whole g (.head _)).fits
    rw [List.flatMap_cons, List.length_append] at enough
    rw [List.flatMap_cons, List.length_append, Nat.add_mul] at small
    obtain ⟨p₁, r₁, ring₁, same₁, copied₁, eq₁⟩ := userReadLoop_first dev settings (d := d)
      (n := n) ring part_ok whole mid room size (by omega) (by omega)
    rw [following_cons _ _ _ _ _ _ room]
    by_cases more : settings.rxMultiple ∧
        out.length + g.required settings + g'.required settings ≤ bufLength
    · have length : (out ++ (outputs dev settings [g] d).1).length =
          out.length + g.required settings := by
        rw [List.length_append, length_outputs_one dev settings (whole g (.head _)).fits]
      have used := required_le settings (whole g (.head _)).fits
      obtain ⟨rest, p', r', split, after, same, copied, eq⟩ := ih ring₁
        (fun x hx => whole x (.tail _ hx)) (.start copied₁) (by rw [length]; exact more.2)
        (by rw [length]; omega)
        (n := n - g.descs.length) (by omega)
      rw [length] at split after copied eq
      simp only [List.head?_cons, if_pos more] at eq₁ ⊢
      refine ⟨rest, p', r', ?_, ?_, ⟨?_, ?_, ?_⟩, ?_, ?_⟩
      · rw [List.cons_append, ← split]
      · simpa using after
      · rw [same.1, same₁.1]
      · rw [same.2.1, same₁.2.1]
      · rw [same.2.2, same₁.2.2]
      · rw [outputs_cons, ← List.append_assoc]
        exact copied
      · rw [outputs_cons, eq₁]
        exact eq
    -- The frame behind it does not fit, or one frame was asked for: the loop ends.
    · simp only [List.head?_cons, if_neg more] at eq₁ ⊢
      exact ⟨g' :: gs, p₁, r₁, rfl, by simpa using ring₁, same₁, copied₁, eq₁⟩

end Groups

/-! ### `fscc_user_read_frame` -/

/-- The frames of a ring fit the counters of a read. -/
private theorem RxRing.outputs_lt {p : RxPort} {groups : List (FrameGroup mem)}
    {part free : List IoFrame}
    (h : RxRing mem p (groups.flatMap FrameGroup.descs ++ part) free) :
    (groups.flatMap FrameGroup.descs).length * (mem.rxSize + sizeofTimestamp) < 4294967296 := by
  have sum := h.length_add
  have fits := mem.rx_fits
  have words : 4 ≤ mem.rxSize := by
    have := mem.rxSize_words
    have := mem.rxSize_pos
    omega
  have four := Nat.mul_le_mul_left mem.rxNum words
  rw [List.length_append] at sum
  have le := Nat.mul_le_mul_right (mem.rxSize + sizeofTimestamp)
    (by omega : (groups.flatMap FrameGroup.descs).length ≤ mem.rxNum)
  rw [Nat.mul_add mem.rxNum] at le
  unfold sizeofTimestamp at le ⊢
  omega

/-- What `copy_to_user` moves of `out` when it leaves `unmovedBytes`. -/
def copiedOut (out : List UInt8) (unmovedBytes : Nat) : List UInt8 :=
  out.take (out.length - unmovedBytes)

@[simp] theorem copiedOut_zero (out : List UInt8) : copiedOut out 0 = out := List.take_length

/-- A read that has a frame which fits takes the frames that fit, hands them out whole, and
frees their descriptors. -/
theorem RxRing.userReadFrame {p : RxPort} {g : FrameGroup mem} {gs : List (FrameGroup mem)}
    {part free : List IoFrame} (settings : Settings) {bufLength : Nat} (d : δ)
    (ring : RxRing mem p ((g :: gs).flatMap FrameGroup.descs ++ part) free)
    (part_ok : ∀ f ∈ part, f.Full mem) (whole : ∀ x ∈ g :: gs, x.Whole)
    (room : g.required settings ≤ bufLength) (size : bufLength < 18446744073709551616)
    (unmovedBytes : Nat) :
    ∃ rest p', g :: gs = taken settings bufLength (g :: gs) ++ rest ∧
      RxRing mem p' (rest.flatMap FrameGroup.descs ++ part) (free ++
        ((taken settings bufLength (g :: gs)).flatMap FrameGroup.descs).map freed) ∧
      p.SameDrain p' ∧
      Fscc.userReadFrame dev mem settings bufLength true unmovedBytes p d =
        (.ok (copiedOut (outputs dev settings (taken settings bufLength (g :: gs)) d).1 unmovedBytes),
          p', (outputs dev settings (taken settings bufLength (g :: gs)) d).2) := by
  have ready := whole g (.head _)
  have status := statusLength_le settings
  have long := ready.status
  have short := g.length_lt
  have sum := ring.length_add
  rw [List.length_append] at sum
  have begin_ : Copied bufLength [] ⟨g.length, g.length - settings.statusLength, 0, 0,
      List.replicate bufLength 0⟩ := ⟨rfl, by simp, by simp⟩
  obtain ⟨rest, p', r', split, after, same, copied, eq⟩ := userReadLoop_groups dev settings
    (d := d) (n := mem.rxNum) ring part_ok whole (.start begin_) (by simpa using room) size
    (by simpa using ring.outputs_lt) (by omega)
  rw [List.length_nil] at split after copied eq
  rw [List.nil_append] at copied
  rw [taken_cons, if_pos room]
  refine ⟨rest, p', by rw [List.cons_append, ← split], after, same, ?_⟩
  have fits : ¬g.required settings > bufLength := by omega
  unfold Fscc.userReadFrame
  rw [ring.nextReadSize_cons]
  simp only [Bool.not_true, Bool.false_eq_true, if_false, bufferRequirement_eq settings ready,
    if_neg fits, subSize_eq (show settings.statusLength ≤ g.length by omega)
      (show g.length < 18446744073709551616 by omega), eq, copiedOut]
  rw [← copied.outLength, ← copied.tempData, List.take_take,
    Nat.min_eq_left (Nat.sub_le _ _)]

/-- A read that has no frame, or one too long for its buffer, changes nothing. -/
theorem RxRing.userReadFrame_refused {p : RxPort} {groups : List (FrameGroup mem)}
    {part free : List IoFrame} (settings : Settings) {bufLength : Nat} (d : δ)
    (ring : RxRing mem p (groups.flatMap FrameGroup.descs ++ part) free)
    (part_ok : ∀ f ∈ part, f.Full mem) (whole : ∀ x ∈ groups, x.Whole)
    (refused : taken settings bufLength groups = []) (unmovedBytes : Nat) :
    Fscc.userReadFrame dev mem settings bufLength true unmovedBytes p d =
      (.error .enobufs, p, d) := by
  unfold Fscc.userReadFrame
  cases groups with
  | nil => simp [RxRing.nextReadSize_nil (by simpa using ring) part_ok]
  | cons g gs =>
    have tight : ¬g.required settings ≤ bufLength := by
      intro fits
      simp [taken_cons, fits] at refused
    simp [ring.nextReadSize_cons, bufferRequirement_eq settings (whole g (.head _)),
      Nat.lt_of_not_le tight]

theorem headCount_append_freed {free fs : List IoFrame} :
    headCount (free ++ fs.map freed) = headCount free := by
  cases free with
  | nil =>
    cases fs with
    | nil => rfl
    | cons f fs => exact (freed_empty f).2
  | cons f free => rfl

/-- What has been drained of an unfinished frame is not where a read frees descriptors. -/
theorem drained_append_freed {part free fs : List IoFrame} :
    drained part (free ++ fs.map freed) = drained part free := by
  cases free with
  | nil =>
    cases fs with
    | nil => rfl
    | cons f fs => simp [drained, (freed_empty f).2]
  | cons f free => rfl

/-- A read frees descriptors, and nothing else changes for the drain. -/
private theorem Framed.freeing {p p' : RxPort} {groups groups' : List (FrameGroup mem)}
    {part free fs : List IoFrame} (h : Framed mem p groups part free)
    (ring : RxRing mem p' (groups'.flatMap FrameGroup.descs ++ part) (free ++ fs.map freed))
    (same : p.SameDrain p') : Framed mem p' groups' part (free ++ fs.map freed) where
  ring := ring
  part_ok := h.part_ok
  words := by
    intro f member
    rcases List.mem_append.mp member with old | new
    · exact h.words f old
    · obtain ⟨x, -, rfl⟩ := List.mem_map.mp new
      simp [(freed_empty x).2]
  bytes := by rw [same.1, h.bytes, headCount_append_freed]
  unfinished := by rw [same.1, same.2.1]; exact h.unfinished
  size_range := by rw [same.2.1]; exact h.size_range

/-- A read of a framed ring whose frames are whole. -/
theorem Framed.read {p : RxPort} {groups : List (FrameGroup mem)} {part free : List IoFrame}
    (h : Framed mem p groups part free) (whole : ∀ g ∈ groups, g.Whole) (settings : Settings)
    {bufLength : Nat} (size : bufLength < 18446744073709551616) (unmovedBytes : Nat) (d : δ) :
    ∃ rest p', groups = taken settings bufLength groups ++ rest ∧
      Framed mem p' rest part
        (free ++ ((taken settings bufLength groups).flatMap FrameGroup.descs).map freed) ∧
      p.SameDrain p' ∧
      userReadFrame dev mem settings bufLength true unmovedBytes p d =
        (if taken settings bufLength groups = [] then .error .enobufs
          else .ok (copiedOut (outputs dev settings (taken settings bufLength groups) d).1
            unmovedBytes),
          p',
          (outputs dev settings (taken settings bufLength groups) d).2) := by
  by_cases refused : taken settings bufLength groups = []
  · have eq := h.ring.userReadFrame_refused dev settings d h.part_ok whole refused unmovedBytes
    exact ⟨groups, p, by simp [refused], by simpa [refused] using h, ⟨rfl, rfl, rfl⟩,
      by simpa [refused, outputs] using eq⟩
  · obtain ⟨g, gs, rfl⟩ : ∃ g gs, groups = g :: gs := by
      cases groups with
      | nil => simp [taken, fitting] at refused
      | cons g gs => exact ⟨g, gs, rfl⟩
    have room : g.required settings ≤ bufLength := by
      by_contra tight
      simp [taken_cons, tight] at refused
    obtain ⟨rest, p', split, ring, same, eq⟩ :=
      h.ring.userReadFrame dev settings d h.part_ok whole room size unmovedBytes
    refine ⟨rest, p', split, ?_, same, by rw [if_neg refused]; exact eq⟩
    exact h.freeing ring same

/-! ### Reads of any frames

A frame that is not whole may be freed in part, but a read never goes past the end of a
frame into what the drain is working on. -/

/-- The loop goes on with another frame just when it is asked to, there is one, and it fits. -/
theorem nextFrame_eq_some {settings : Settings} {bufLength : Nat} {next : Bool × Nat}
    {r r' : Reading} :
    nextFrame settings bufLength next r = some r' ↔
      settings.rxMultiple = true ∧ next.1 = true ∧
        settings.bufferRequirement next.2 ≤ subSize bufLength r.outLength ∧
        r' = { r with
          bytesInDescs := next.2
          totalValidData := subSize next.2 settings.statusLength
          filledFrameSize := 0 } := by
  unfold nextFrame
  cases settings.rxMultiple with
  | false => simp
  | true =>
    cases next.1 with
    | false => simp
    | true =>
      by_cases tight : settings.bufferRequirement next.2 > subSize bufLength r.outLength
      · simp [tight]
      · simp [tight, Nat.le_of_not_lt tight, eq_comm]

theorem nextFrame_some {settings : Settings} {bufLength : Nat} {next : Bool × Nat} {r r' : Reading}
    (more : nextFrame settings bufLength next r = some r') :
    next.1 = true ∧ r'.bytesInDescs = next.2 ∧ r'.filledFrameSize = 0 := by
  obtain ⟨-, ready, -, rfl⟩ := nextFrame_eq_some.mp more
  exact ⟨ready, rfl, rfl⟩

section Any

variable (settings : Settings) (bufLength n : Nat) {p : RxPort} {r : Reading} (d : δ)
  {g : FrameGroup mem} {gs groups : List (FrameGroup mem)} {part free : List IoFrame}

variable (mem) in
/-- What a read leaves of a ring of frames. -/
def Shrunk (p : RxPort) (part free : List IoFrame) (p' : RxPort) : Prop :=
  ∃ (groups' : List (FrameGroup mem)) (fs : List IoFrame),
    RxRing mem p' (groups'.flatMap FrameGroup.descs ++ part) (free ++ fs.map freed) ∧
      p.SameDrain p'

private theorem Shrunk.after_put {f : IoFrame} {p' : RxPort}
    (rest : Shrunk mem (p.putUser mem (freed f)) part (free ++ [freed f]) p') :
    Shrunk mem p part free p' := by
  obtain ⟨groups', fs, ring, same⟩ := rest
  exact ⟨groups', f :: fs, by simpa using ring, same⟩

/-- What the loop does once it is at the end of a frame. -/
private theorem shrunk_next
    (ring : RxRing mem p (groups.flatMap FrameGroup.descs ++ part) free)
    (part_ok : ∀ f ∈ part, f.Full mem)
    (loop : ∀ (g : FrameGroup mem) (gs : List (FrameGroup mem)) (r' : Reading),
      groups = g :: gs → r'.bytesInDescs + r'.filledFrameSize ≤ g.length →
      Shrunk mem p part free (userReadLoop dev mem settings bufLength n p r' d).1) :
    Shrunk mem p part free
      (match nextFrame settings bufLength (userNextReadSize mem p) r with
        | none => (p, r, d)
        | some r' => userReadLoop dev mem settings bufLength n p r' d).1 := by
  cases next : nextFrame settings bufLength (userNextReadSize mem p) r with
  | none => exact ⟨groups, [], by simpa using ring, rfl, rfl, rfl⟩
  | some r' =>
    obtain ⟨ready, bytes, filled⟩ := nextFrame_some next
    cases groups with
    | nil => simp [RxRing.nextReadSize_nil (by simpa using ring) part_ok] at ready
    | cons g gs =>
      rw [ring.nextReadSize_cons] at bytes
      exact loop g gs r' rfl (by omega)

/-- The read loop in the middle of the frame `g`: it still counts no more bytes than the
last descriptor of `g` will take off. -/
private theorem userReadLoop_shrunk
    (ring : RxRing mem p ((g :: gs).flatMap FrameGroup.descs ++ part) free)
    (part_ok : ∀ f ∈ part, f.Full mem) (left : r.bytesInDescs + r.filledFrameSize ≤ g.length) :
    Shrunk mem p part free (userReadLoop dev mem settings bufLength n p r d).1 := by
  induction n generalizing p r d g gs free with
  | zero => exact ⟨g :: gs, [], by simpa [userReadLoop] using ring, rfl, rfl, rfl⟩
  | succ n ih =>
    obtain ⟨full, last, full_ok, last_fe, last_cstop, last_buffer⟩ := g
    have short : last.count < 536870912 := cnt_lt _
    change r.bytesInDescs + r.filledFrameSize ≤ last.count at left
    cases full with
    | nil =>
      simp only [List.flatMap_cons, FrameGroup.descs, List.nil_append, List.cons_append] at ring
      have after := ring.putUser (freed last) (freed_empty last).1 (freed_empty last).2 last_buffer
      have planned : subSize last.count r.filledFrameSize = last.count - r.filledFrameSize :=
        subSize_eq (by omega) (by omega)
      rw [userReadLoop, ring.userFrame_eq]
      have ended : (readDescriptor dev settings last r d).2.1.bytesInDescs = 0 := by
        simp only [readDescriptor, last_fe, last_cstop, Bool.and_self, if_true, planned]
        omega
      simp only [ended, if_true]
      exact .after_put (shrunk_next dev settings bufLength n _ after part_ok
        (fun g gs r' eq left' => by subst eq; exact ih _ after left'))
    | cons f full =>
      have plain := full_ok f (.head _)
      let rest : FrameGroup mem :=
        ⟨full, last, fun x hx => full_ok x (.tail _ hx), last_fe, last_cstop, last_buffer⟩
      have shape : ((⟨f :: full, last, full_ok, last_fe, last_cstop, last_buffer⟩ :: gs :
          List (FrameGroup mem)).flatMap FrameGroup.descs ++ part) =
          f :: ((rest :: gs).flatMap FrameGroup.descs ++ part) := by
        simp [FrameGroup.descs, rest]
      rw [shape] at ring
      have after := ring.putUser (freed f) (freed_empty f).1 (freed_empty f).2 plain.buffer
      rw [userReadLoop, ring.userFrame_eq]
      split
      next ended =>
        exact .after_put (shrunk_next dev settings bufLength n _ after part_ok
          (fun g gs r' eq left' => by
            obtain ⟨rfl, rfl⟩ := List.cons.inj eq
            exact ih _ after left'))
      next going =>
        refine .after_put (ih _ after ?_)
        change _ ≤ last.count
        simp only [readDescriptor, plain.fe, Bool.false_and, Bool.false_eq_true, if_false,
          plain.dataCount] at going ⊢
        rw [addSize_eq (by omega)]
        omega

end Any

/-- A read of any framed ring frees descriptors of finalised frames only. -/
theorem Framed.read_any {p : RxPort} {groups : List (FrameGroup mem)} {part free : List IoFrame}
    (h : Framed mem p groups part free) (settings : Settings) (bufLength : Nat) (alloc : Bool)
    (unmovedBytes : Nat) (d : δ) :
    ∃ (groups' : List (FrameGroup mem)) (fs : List IoFrame),
      Framed mem (userReadFrame dev mem settings bufLength alloc unmovedBytes p d).2.1
        groups' part (free ++ fs.map freed) ∧
      p.SameDrain (userReadFrame dev mem settings bufLength alloc unmovedBytes p d).2.1 := by
  have same : ∃ (groups' : List (FrameGroup mem)) (fs : List IoFrame),
      Framed mem p groups' part (free ++ fs.map freed) ∧ p.SameDrain p :=
    ⟨groups, [], by simpa using h, rfl, rfl, rfl⟩
  unfold userReadFrame
  split
  · exact same
  · dsimp only
    split
    · exact same
    · split
      · exact same
      · next ready _ =>
        cases groups with
        | nil => simp [RxRing.nextReadSize_nil (by simpa using h.ring) h.part_ok] at ready
        | cons g gs =>
          obtain ⟨groups', fs, ring, kept⟩ := userReadLoop_shrunk dev settings bufLength mem.rxNum d
            (r := ⟨(userNextReadSize mem p).2,
              subSize (userNextReadSize mem p).2 settings.statusLength, 0, 0,
              List.replicate bufLength 0⟩) h.ring h.part_ok
            (by rw [h.ring.nextReadSize_cons]; exact Nat.le_refl _)
          exact ⟨groups', fs, h.freeing ring kept, kept⟩

end Fscc
