import Fscc.RxDmaRing
import Fscc.RxDelivery

/-!
# Reads against the receive engine

A read in DMA mode, a descriptor at a time. It has the spinlock, but the engine does not wait for
it: between any two descriptors the engine may fill what the read has just freed. `CallAt` says
where a call stands; a step of a call leads from one such place to another.
-/

namespace Fscc

open CInt

variable {δ : Type} (dev : Device δ) (mem : Memory)

/-! ### What a read hands out -/

/-- What a read hands out if its next step is its last one. -/
def RxCall.returns (p : RxPort) (d : δ) : RxCall → Option ReadCall
  | .scan settings bufLength _ _ _ Option.none => some ⟨settings, bufLength, .error .enobufs⟩
  | .scan settings bufLength _ _ _ (some (_, r)) =>
    some ⟨settings, bufLength, .ok (r.tempData.take r.outLength)⟩
  | .read settings bufLength 0 r => some ⟨settings, bufLength, .ok (r.tempData.take r.outLength)⟩
  | .read settings bufLength (_ + 1) r =>
    let read := (readDescriptor dev settings p.userFrame r d).2.1
    some ⟨settings, bufLength, .ok (read.tempData.take read.outLength)⟩
  | _ => Option.none

/-- A read that has found another frame has a pass left for each descriptor of it. -/
def RxCall.Enough (p : RxPort) : RxCall → Prop
  | .scan _ _ (n + 1) curDesc _ (some (passes, _)) =>
    (p.rxDescriptors.getD curDesc default).fe = true →
      (p.rxDescriptors.getD curDesc default).cstop = true → mem.rxNum - n ≤ passes
  | _ => True

/-- What a read hands out of the frame `w`. -/
def FramePiece (settings : Settings) (w : WireFrame) (out : List UInt8) : Prop :=
  ∃ stamp : Timestamp, out = w.data.take (w.length - settings.statusLength) ++
    if settings.appendTimestamp then stamp.bytes else []

/-- The frames `ws` one after the other. -/
def FramesOut (settings : Settings) (ws : List WireFrame) (out : List UInt8) : Prop :=
  ∃ pieces, List.Forall₂ (FramePiece settings) ws pieces ∧ out = pieces.flatten

/-- A read that handed out the frames `ws`, whole. -/
def DmaDelivered (call : ReadCall) (ws : List WireFrame) : Prop :=
  match call.result with
  | .error e => e = .enobufs ∧ ws = []
  | .ok out => ws ≠ [] ∧ (call.settings.rxMultiple = false → ws.length = 1) ∧
      FramesOut call.settings ws out

private theorem FramesOut.snoc {settings : Settings} {ws : List WireFrame} {out : List UInt8}
    (h : FramesOut settings ws out) {w : WireFrame} {piece : List UInt8}
    (more : FramePiece settings w piece) : FramesOut settings (ws ++ [w]) (out ++ piece) := by
  obtain ⟨pieces, each, rfl⟩ := h
  exact ⟨pieces ++ [piece], List.rel_append each (.cons more .nil), by simp⟩

private theorem framesOut_nil (settings : Settings) : FramesOut settings [] [] := ⟨[], .nil, rfl⟩

variable {dev mem}

/-! ### Where a call stands -/

/-- A scan has passed `k` descriptors, none of which ends a frame. -/
structure Scanned (mem : Memory) (user : Nat) (finished : List IoFrame) (passes curDesc k : Nat) :
    Prop where
  passes : passes + k = mem.rxNum
  curDesc : curDesc = Ring.slot mem.rxNum user k
  inside : k ≤ finished.length
  full : ∀ f ∈ finished.take k, f.Full mem

/-- A read is in the middle of the frame `w`: the descriptors `head` of it are left, and a pass for
each. -/
structure ReadingFrame (mem : Memory) (settings : Settings) (bufLength passes : Nat)
    (out : List UInt8) (w : WireFrame) (head full : List IoFrame) (last : IoFrame)
    (pre : List UInt8) (r : Reading) : Prop where
  head : head = full ++ [last]
  full_ok : ∀ f ∈ full, f.Full mem
  fe : last.fe = true
  count : last.count = w.length
  mid : Midway bufLength w.length (w.length - settings.statusLength) out pre r
  content : (pre ++ full.flatMap IoFrame.buffer ++ last.buffer).take w.length = w.data
  closed : pre.length + full.length * mem.rxSize < w.length
  fits : w.length ≤ pre.length + (full.length + 1) * mem.rxSize
  short : w.length < 536870912
  room : out.length + (w.length - settings.statusLength) + settings.timestampLength ≤ bufLength
  enough : full.length + 1 ≤ passes
  passes_le : passes ≤ mem.rxNum
  budget : out.length + w.length + sizeofTimestamp ≤
    (mem.rxNum - passes + (full.length + 1)) * (mem.rxSize + sizeofTimestamp)

/-- Where the call with the spinlock stands: the frames it has taken, and the one it is reading. -/
inductive CallAt (mem : Memory) (user : Nat) (finished : List IoFrame) :
    RxCall → List IoFrame → List WireFrame → List WireFrame → Prop where
  | idle : CallAt mem user finished .none [] [] []
  | stamping (passes curDesc : Nat) : CallAt mem user finished (.stamp passes curDesc) [] [] []
  | scanning {settings : Settings} {bufLength passes curDesc bytes k : Nat} :
      bufLength < 18446744073709551616 → Scanned mem user finished passes curDesc k →
      CallAt mem user finished (.scan settings bufLength passes curDesc bytes none) [] [] []
  | between {settings : Settings} {bufLength passes curDesc bytes k left : Nat} {r : Reading}
      {out : List UInt8} {taking : List WireFrame} :
      bufLength < 18446744073709551616 → Scanned mem user finished passes curDesc k →
      settings.rxMultiple = true → taking ≠ [] → FramesOut settings taking out →
      Copied bufLength out r → out.length ≤ bufLength → left ≤ mem.rxNum →
      out.length ≤ (mem.rxNum - left) * (mem.rxSize + sizeofTimestamp) →
      CallAt mem user finished
        (.scan settings bufLength passes curDesc bytes (some (left, r))) [] taking []
  | reading {settings : Settings} {bufLength passes : Nat} {r : Reading} {out pre : List UInt8}
      {taking : List WireFrame} {w : WireFrame} {head full : List IoFrame} {last : IoFrame} :
      bufLength < 18446744073709551616 → (taking ≠ [] → settings.rxMultiple = true) →
      FramesOut settings taking out →
      ReadingFrame mem settings bufLength passes out w head full last pre r →
      CallAt mem user finished (.read settings bufLength passes r) head taking [w]

/-- What the engine finishes while a call goes on does not disturb it. -/
theorem CallAt.append {user : Nat} {finished head : List IoFrame} {call : RxCall}
    {taking current : List WireFrame} (h : CallAt mem user finished call head taking current)
    (more : List IoFrame) : CallAt mem user (finished ++ more) call head taking current := by
  have scanned {passes curDesc k : Nat} (before : Scanned mem user finished passes curDesc k) :
      Scanned mem user (finished ++ more) passes curDesc k := by
    refine ⟨before.passes, before.curDesc, ?_, ?_⟩
    · rw [List.length_append]
      exact Nat.le_add_right_of_le before.inside
    · rw [List.take_append_of_le_length before.inside]
      exact before.full
  cases h with
  | idle => exact .idle
  | stamping passes curDesc => exact .stamping passes curDesc
  | scanning size scan => exact .scanning size (scanned scan)
  | between size scan multiple some_ out copied room left spent =>
    exact .between size (scanned scan) multiple some_ out copied room left spent
  | reading size multiple out frame => exact .reading size multiple out frame

/-! ### The scan -/

/-- A scan that has passed a full descriptor has all those before it behind it. -/
private theorem Scanned.next {user n curDesc k : Nat} {finished : List IoFrame} {f : IoFrame}
    (scan : Scanned mem user finished (n + 1) curDesc k) (full : f.Full mem)
    (last : k < finished.length) (more : finished[k]? = some f) :
    Scanned mem user finished n (Ring.next mem.rxNum curDesc) (k + 1) := by
  have turns := scan.passes
  refine ⟨by omega, ?_, last, ?_⟩
  · rw [scan.curDesc, Ring.next_slot mem.rxNum_pos]
  · rw [List.take_add_one, more]
    intro x member
    rcases List.mem_append.mp member with old | new
    · exact scan.full x old
    · obtain rfl : x = f := by simpa using new
      exact full

/-- A scan does not get past the end of a frame. -/
private theorem Scanned.le_end {user n curDesc k : Nat} {g : FrameGroup mem} {more : List IoFrame}
    (scan : Scanned mem user (g.full ++ g.last :: more) n curDesc k) : k ≤ g.full.length := by
  by_contra past
  have member : g.last ∈ (g.full ++ g.last :: more).take k := by
    rw [List.take_append]
    refine List.mem_append_right _ ?_
    obtain ⟨m, eq⟩ : ∃ m, k - g.full.length = m + 1 := ⟨k - g.full.length - 1, by omega⟩
    simp [eq]
  have open_ := (scan.full _ member).fe
  simp [g.last_fe] at open_

namespace RxDmaRing

variable {p : RxPort} {groups : List (FrameGroup mem)} {part free : List IoFrame}

/-- One more descriptor of a scan: it goes on, or it has found the end of the oldest frame, or
there is no frame. -/
private theorem scan_step (h : RxDmaRing mem p (groups.flatMap FrameGroup.descs ++ part) free)
    (part_ok : ∀ f ∈ part, f.Full mem) {n curDesc k : Nat}
    (scan : Scanned mem p.userRxDesc (groups.flatMap FrameGroup.descs ++ part) (n + 1) curDesc k)
    (bytes : Nat) :
    (∃ bytes', nextReadStep bytes (p.rxDescriptors.getD curDesc default) = .ok bytes' ∧
        Scanned mem p.userRxDesc (groups.flatMap FrameGroup.descs ++ part) n
          (Ring.next mem.rxNum curDesc) (k + 1)) ∨
      (∃ g gs, groups = g :: gs ∧ k + 1 = g.descs.length ∧
        (p.rxDescriptors.getD curDesc default).fe = true ∧
        (p.rxDescriptors.getD curDesc default).cstop = true ∧
        nextReadStep bytes (p.rxDescriptors.getD curDesc default) = .error (true, g.length)) ∨
      nextReadStep bytes (p.rxDescriptors.getD curDesc default) = .error (false, bytes) := by
  have turns := scan.passes
  have inside : k < mem.rxNum := by omega
  have here := h.getD_slot inside
  rw [← scan.curDesc] at here
  generalize p.rxDescriptors.getD curDesc default = f at here ⊢
  obtain ⟨fe, cstop, count⟩ := f.flags_bare
  have size := h.ring.length_add
  have goes_on (full : f.bare.Full mem) (last : k < (groups.flatMap FrameGroup.descs ++ part).length)
      (more : (groups.flatMap FrameGroup.descs ++ part)[k]? = some f.bare) :
      ∃ bytes', nextReadStep bytes f = .ok bytes' ∧
        Scanned mem p.userRxDesc (groups.flatMap FrameGroup.descs ++ part) n
          (Ring.next mem.rxNum curDesc) (k + 1) :=
    ⟨_, by simp [nextReadStep, ← fe, ← cstop, full.fe, full.cstop]; rfl,
      scan.next full last more⟩
  by_cases last : k < (groups.flatMap FrameGroup.descs ++ part).length
  · have more : (groups.flatMap FrameGroup.descs ++ part)[k]? = some f.bare := by
      rw [List.getD_eq_getElem?_getD, List.getElem?_append_left last,
        List.getElem?_eq_getElem last] at here
      rw [List.getElem?_eq_getElem last]
      exact congrArg some here
    cases groups with
    | nil =>
      refine .inl (goes_on (part_ok _ ?_) last more)
      exact List.mem_of_getElem? (by simpa using more)
    | cons g gs =>
      have shape : (g :: gs).flatMap FrameGroup.descs ++ part =
          g.full ++ g.last :: (gs.flatMap FrameGroup.descs ++ part) := by
        simp [FrameGroup.descs]
      rw [shape] at more scan
      have before := scan.le_end
      by_cases ends : k = g.full.length
      · have eq : g.last = f.bare := by simpa [ends] using more
        refine .inr (.inl ⟨g, gs, rfl, by rw [g.length_descs, ends], ?_, ?_, ?_⟩)
        · rw [← fe, ← eq, g.last_fe]
        · rw [← cstop, ← eq, g.last_cstop]
        · rw [FrameGroup.length, eq, count]
          simp [nextReadStep, ← fe, ← cstop, ← eq, g.last_fe, g.last_cstop]
      · rw [List.getElem?_append_left (by omega)] at more
        refine .inl (goes_on (g.full_ok _ (List.mem_of_getElem? more)) last ?_)
        rw [shape, List.getElem?_append_left (by omega)]
        exact more
  · -- The scan has come to the first free descriptor.
    have at_ : k = (groups.flatMap FrameGroup.descs ++ part).length :=
      Nat.le_antisymm scan.inside (Nat.le_of_not_lt last)
    obtain ⟨x, rest, rfl⟩ : ∃ x rest, free = x :: rest := by
      cases free with
      | nil => simp only [List.length_nil] at size; omega
      | cons x rest => exact ⟨x, rest, rfl⟩
    have eq : x = f.bare := by
      rw [← here, at_]
      simp
    have opened := h.ring.free_open x (.head _)
    rw [eq] at opened
    exact .inr (.inr (by simp [nextReadStep, ← fe, ← cstop, opened.1, opened.2]))

end RxDmaRing

/-! ### The frame that is being read -/

/-- A read takes a descriptor in each pass, so what it hands out fits its counters. -/
private theorem Memory.passes_fit (mem : Memory) :
    mem.rxNum * (mem.rxSize + sizeofTimestamp) < 4294967296 := by
  have fits := mem.rx_fits
  have words : 4 ≤ mem.rxSize := by
    have := mem.rxSize_words
    have := mem.rxSize_pos
    omega
  have four := Nat.mul_le_mul_left mem.rxNum words
  rw [Nat.mul_add]
  unfold sizeofTimestamp
  omega

namespace ReadingFrame

variable {settings : Settings} {bufLength passes : Nat} {out pre : List UInt8} {w : WireFrame}
  {head full : List IoFrame} {last f f₀ : IoFrame} {r : Reading} {g : FrameGroup mem}

private theorem small (h : ReadingFrame mem settings bufLength passes out w head full last pre r) :
    out.length + w.length + sizeofTimestamp < 4294967296 := by
  have fits := mem.passes_fit
  have enough := h.enough
  have passes_le := h.passes_le
  have le := Nat.mul_le_mul_right (mem.rxSize + sizeofTimestamp)
    (by omega : mem.rxNum - passes + (full.length + 1) ≤ mem.rxNum)
  exact Nat.lt_of_le_of_lt (h.budget.trans le) fits

variable (settings passes) in
/-- A read begins with a frame that it has found. -/
private theorem start (whole : g.Whole) (bytes : g.bytes = w.data) (copied : Copied bufLength out r)
    (room : out.length + g.required settings ≤ bufLength) (enough : g.descs.length ≤ passes)
    (passes_le : passes ≤ mem.rxNum)
    (spent : out.length ≤ (mem.rxNum - passes) * (mem.rxSize + sizeofTimestamp)) :
    ReadingFrame mem settings bufLength passes out w g.descs g.full g.last []
      { r with
        bytesInDescs := g.length
        totalValidData := g.length - settings.statusLength
        filledFrameSize := 0 } := by
  have length : g.length = w.length := by
    rw [← whole.fits.length_bytes, bytes, WireFrame.length]
  have cap := length_le whole.fits
  rw [g.length_descs] at enough cap
  rw [FrameGroup.required] at room
  exact {
    head := rfl
    full_ok := g.full_ok
    fe := g.last_fe
    count := length
    mid := by rw [← length]; exact .start copied
    content := by rw [← bytes, FrameGroup.bytes, length]; simp
    closed := by rw [← length, List.length_nil, Nat.zero_add]; exact whole.closed
    fits := by rw [← length, List.length_nil, Nat.zero_add]; exact whole.fits
    short := by rw [← length]; exact g.length_lt
    room := by rw [← length]; omega
    enough := enough
    passes_le := passes_le
    budget := by rw [← length, Nat.add_mul]; omega }

variable (dev) in
/-- A pass over a descriptor that does not end the frame. -/
private theorem step_full (h : ReadingFrame mem settings bufLength (passes + 1) out w (f :: head)
      (f :: full) last pre r) (bare : f₀.bare = f) (d : δ) :
    ∃ r', readDescriptor dev settings f₀ r d = (freed f₀, r', d) ∧ r'.bytesInDescs ≠ 0 ∧
      ReadingFrame mem settings bufLength passes out w head full last (pre ++ f.buffer) r' := by
  -- What the engine left there is a full descriptor, timestamp aside.
  have plain := h.full_ok f (.head _)
  have real : f₀.Full mem := by
    rw [← bare] at plain
    exact ⟨plain.fe, plain.cstop, plain.dataCount, plain.buffer⟩
  have closed := h.closed
  have fits := h.fits
  have enough := h.enough
  have budget := h.budget
  have passes_le := h.passes_le
  rw [List.length_cons, Nat.succ_mul] at closed
  rw [List.length_cons] at fits enough budget
  rw [Nat.succ_mul] at fits
  obtain ⟨r', read, more, mid⟩ := h.mid.step_full dev (by have := h.room; omega) settings
    (Nat.sub_le _ _) h.short h.small d real (by omega)
  have same : f₀.buffer = f.buffer := by rw [← bare, IoFrame.buffer_bare]
  refine ⟨r', read, more, ?_⟩
  -- The pass moved one descriptor from what is to read to what was read.
  exact {
    head := (List.cons.inj h.head).2
    full_ok := fun x hx => h.full_ok x (.tail _ hx)
    fe := h.fe
    count := h.count
    mid := by rw [← same]; exact mid
    content := by simpa using h.content
    closed := by rw [List.length_append, plain.buffer]; omega
    fits := by rw [List.length_append, plain.buffer]; omega
    short := h.short
    room := h.room
    enough := by omega
    passes_le := by omega
    budget := by
      rw [show mem.rxNum - passes + (full.length + 1) =
        mem.rxNum - (passes + 1) + (full.length + 1 + 1) by omega]
      exact budget }

variable (dev) in
/-- The pass over the last descriptor of the frame. -/
private theorem step_last (h : ReadingFrame mem settings bufLength (passes + 1) out w (f :: head) []
      last pre r) (bare : f₀.bare = f) (cstop : f.cstop = true)
    (buffer : f.buffer.length = mem.rxSize) (d : δ) :
    head = [] ∧ ∃ r' piece d', readDescriptor dev settings f₀ r d = (freed f₀, r', d') ∧
      r'.bytesInDescs = 0 ∧ Copied bufLength (out ++ piece) r' ∧
      FramePiece settings w piece ∧ (out ++ piece).length ≤ bufLength ∧
      (out ++ piece).length ≤ (mem.rxNum - passes) * (mem.rxSize + sizeofTimestamp) := by
  obtain ⟨rfl, rfl⟩ : f = last ∧ head = [] := by simpa using h.head
  have closed := h.closed
  have fits := h.fits
  have room := h.room
  have enough := h.enough
  have budget := h.budget
  have passes_le := h.passes_le
  have content := h.content
  obtain ⟨sameFe, sameCstop, sameCount⟩ := f₀.flags_bare
  have sameBuffer := f₀.buffer_bare
  rw [bare] at sameFe sameCstop sameCount sameBuffer
  simp only [List.length_nil, Nat.zero_mul, Nat.zero_add, Nat.one_mul] at closed fits budget
  obtain ⟨r', read, ended, copied⟩ := h.mid.step_last dev (by omega) settings (Nat.sub_le _ _)
    (f := f₀) h.short h.small d (sameFe ▸ h.fe) (sameCstop ▸ cstop) (sameCount ▸ h.count)
    (sameBuffer ▸ buffer) (by omega) (by omega) (by rw [length_appended]; exact room)
  rw [sameBuffer] at content
  -- The data without its status bytes is what the passes have put together.
  have data : (pre ++ f₀.buffer).take (w.length - settings.statusLength) =
      w.data.take (w.length - settings.statusLength) := by
    rw [← content, List.take_take, Nat.min_eq_left (Nat.sub_le _ _)]
    simp
  rw [data, List.append_assoc] at copied
  have length : (out ++ (w.data.take (w.length - settings.statusLength) ++
      (appended dev settings f₀ d).1)).length =
      out.length + (w.length - settings.statusLength) + settings.timestampLength := by
    rw [List.length_append, List.length_append, length_appended, List.length_take,
      WireFrame.length]
    omega
  have stamp := timestampLength_le settings
  -- The timestamp behind it is whatever the descriptor holds, clear if it holds none.
  refine ⟨rfl, r', _, _, read, ended, copied, ?_, by rw [length]; exact room, ?_⟩
  · unfold FramePiece appended
    cases settings.appendTimestamp with
    | false => exact ⟨.clear, rfl⟩
    | true => exact ⟨_, rfl⟩
  · rw [show mem.rxNum - (passes + 1) + 1 = mem.rxNum - passes by omega] at budget
    omega

end ReadingFrame

/-! ### One step of a call -/

/-- What a step of a call leaves: the frames that the call took are handed out when it ends. -/
structure Stepped (mem : Memory) (e : RxEngine) (l : DmaLine) (part free : List IoFrame)
    (empty : Prop) (frames : List WireFrame) (next : RxPort × RxCall)
    (returned : List ReadCall) : Prop where
  left : ∃ head groups free' held taking current handed,
    DmaCarried mem next.1 e l head groups part free' held ∧
      CallAt mem next.1.userRxDesc (groups.flatMap FrameGroup.descs ++ part) next.2 head taking
        current ∧
      List.Forall₂ DmaDelivered (if next.2 = .none then returned else []) handed ∧
      frames = handed.flatten ++ (taking ++ (current ++ held)) ∧
      (empty → head ++ (groups.flatMap FrameGroup.descs ++ part) = [] ∧ free' = free)

namespace DmaCarried

variable {p : RxPort} {e : RxEngine} {l : DmaLine} {head part free : List IoFrame}
  {groups : List (FrameGroup mem)} {held taking : List WireFrame} {settings : Settings}
  {bufLength passes curDesc bytes k : Nat}

/-- The call ends, and has handed out the frames `ws`. -/
private theorem ends (h : DmaCarried mem p e l [] groups part free held) {returned : List ReadCall}
    (handed : List (List WireFrame)) (delivered : List.Forall₂ DmaDelivered returned handed) :
    Stepped mem e l part free ([] ++ (groups.flatMap FrameGroup.descs ++ part) = [])
      (handed.flatten ++ held) (p, .none) returned :=
  ⟨[], groups, free, held, [], [], handed, h, .idle, by simpa using delivered, by simp,
    fun empty => ⟨empty, rfl⟩⟩

variable (taking) in
/-- The call goes on without a change to the ring. -/
private theorem goes_on (h : DmaCarried mem p e l [] groups part free held) {call : RxCall}
    (at_ : CallAt mem p.userRxDesc (groups.flatMap FrameGroup.descs ++ part) call [] taking [])
    (busy : call ≠ .none) (returned : List ReadCall) :
    Stepped mem e l part free ([] ++ (groups.flatMap FrameGroup.descs ++ part) = [])
      (taking ++ held) (p, call) returned :=
  ⟨[], groups, free, held, taking, [], [], h, at_, by simp [busy], by simp,
    fun empty => ⟨empty, rfl⟩⟩

/-- The frame that a scan has found is the oldest one held. -/
private theorem oldest {g : FrameGroup mem} {gs : List (FrameGroup mem)}
    (h : DmaCarried mem p e l [] (g :: gs) part free held) :
    ∃ w rest, held = w :: rest ∧ g.bytes = w.data ∧
      DmaCarried mem p e l g.descs gs part free rest := by
  have content := h.content
  obtain ⟨w, rest, rfl⟩ : ∃ w rest, held = w :: rest := by
    cases held with
    | nil => simp at content
    | cons w rest => exact ⟨w, rest, rfl⟩
  obtain ⟨bytes, content⟩ := List.cons.inj content
  have shape : [] ++ ((g :: gs).flatMap FrameGroup.descs ++ part) =
      g.descs ++ (gs.flatMap FrameGroup.descs ++ part) := by simp
  refine ⟨w, rest, rfl, bytes, ?_⟩
  exact {
    ring := shape ▸ h.ring
    stands := shape ▸ h.stands
    whole := fun x hx => h.whole x (.tail _ hx)
    content := content
    part_ok := h.part_ok
    placed := h.placed
    begun := h.begun
    idle := h.idle }

/-- A scan begins at the descriptor that is read next. -/
theorem scan_start (h : DmaCarried mem p e l head groups part free held) :
    Scanned mem p.userRxDesc (groups.flatMap FrameGroup.descs ++ part) mem.rxNum p.userRxDesc 0 := by
  have user_lt : p.userRxDesc < mem.rxNum := h.ring.ring.user_lt
  exact ⟨rfl, (Ring.slot_zero user_lt).symm, Nat.zero_le _, by simp⟩

/-- A step of the scan with which a read begins. -/
private theorem step_scanning (h : DmaCarried mem p e l [] groups part free held)
    (size : bufLength < 18446744073709551616)
    (scan : Scanned mem p.userRxDesc (groups.flatMap FrameGroup.descs ++ part) passes curDesc k)
    (d : δ) :
    Stepped mem e l part free ([] ++ (groups.flatMap FrameGroup.descs ++ part) = []) held
      (RxCall.step dev mem p d (.scan settings bufLength passes curDesc bytes none))
      [⟨settings, bufLength, .error .enobufs⟩] := by
  -- Without a frame the call ends with ENOBUFS and leaves the ring alone.
  have refused : Stepped mem e l part free
      ([] ++ (groups.flatMap FrameGroup.descs ++ part) = []) held (p, .none)
      [⟨settings, bufLength, .error .enobufs⟩] :=
    h.ends [[]] (.cons ⟨rfl, rfl⟩ .nil)
  cases passes with
  | zero => exact refused
  | succ n =>
    simp only [RxCall.step]
    rcases h.ring.scan_step h.part_ok scan bytes with
      ⟨bytes', more, scan'⟩ | ⟨g, gs, rfl, -, -, -, found⟩ | none_
    · rw [more]
      exact h.goes_on [] (.scanning size scan') (by simp) _
    -- A whole frame was found: it is read if the buffer holds it.
    · rw [found]
      have whole := h.whole g (.head _)
      have status := statusLength_le settings
      have long := whole.status
      have short := g.length_lt
      have length := h.ring.ring.length_add
      simp only [scanned, Bool.not_true, Bool.false_eq_true, if_false,
        bufferRequirement_eq settings whole]
      split
      next => exact refused
      next fits =>
        obtain ⟨w, rest, rfl, bytes, carried⟩ := h.oldest
        rw [subSize_eq (show settings.statusLength ≤ g.length by omega)
          (show g.length < 18446744073709551616 by omega)]
        have copied : Copied bufLength [] ⟨0, 0, 0, 0, List.replicate bufLength 0⟩ :=
          ⟨rfl, by simp, by simp⟩
        have frame := ReadingFrame.start settings mem.rxNum whole bytes copied
          (by simpa using Nat.le_of_not_lt fits)
          (by simp only [List.nil_append, List.flatMap_cons, List.length_append] at length; omega)
          (Nat.le_refl _) (by simp)
        refine ⟨g.descs, gs, free, rest, [], [w], [], carried, ?_, ?_, by simp, fun empty => ?_⟩
        · exact .reading size (by simp) (framesOut_nil settings) frame
        · simp
        · simp [FrameGroup.descs] at empty
    · rw [none_]
      exact refused

/-- A step of the scan for another frame. -/
private theorem step_between (h : DmaCarried mem p e l [] groups part free held)
    (size : bufLength < 18446744073709551616)
    (scan : Scanned mem p.userRxDesc (groups.flatMap FrameGroup.descs ++ part) passes curDesc k)
    (multiple : settings.rxMultiple = true) (some_ : taking ≠ []) {out : List UInt8} {r : Reading}
    {left : Nat} (handed : FramesOut settings taking out) (copied : Copied bufLength out r)
    (room : out.length ≤ bufLength) (left_le : left ≤ mem.rxNum)
    (spent : out.length ≤ (mem.rxNum - left) * (mem.rxSize + sizeofTimestamp))
    (enough : RxCall.Enough mem p
      (.scan settings bufLength passes curDesc bytes (some (left, r)))) (d : δ) :
    Stepped mem e l part free ([] ++ (groups.flatMap FrameGroup.descs ++ part) = [])
      (taking ++ held)
      (RxCall.step dev mem p d (.scan settings bufLength passes curDesc bytes (some (left, r))))
      [⟨settings, bufLength, .ok (r.tempData.take r.outLength)⟩] := by
  have done : Stepped mem e l part free
      ([] ++ (groups.flatMap FrameGroup.descs ++ part) = []) (taking ++ held) (p, .none)
      [⟨settings, bufLength, .ok (r.tempData.take r.outLength)⟩] := by
    have delivered : DmaDelivered ⟨settings, bufLength, .ok (r.tempData.take r.outLength)⟩
        taking := by
      rw [copied.tempData]
      exact ⟨some_, fun one => by simp [multiple] at one, handed⟩
    have ended := h.ends _ (.cons delivered .nil)
    rwa [List.flatten_singleton] at ended
  have none_ (count : Nat) : Stepped mem e l part free
      ([] ++ (groups.flatMap FrameGroup.descs ++ part) = []) (taking ++ held)
      (p, scanned mem settings bufLength (false, count) (some (left, r)))
      [⟨settings, bufLength, .ok (r.tempData.take r.outLength)⟩] := by
    have stop : nextFrame settings bufLength (false, count) r = none := by simp [nextFrame]
    simp only [scanned, stop]
    exact done
  cases passes with
  | zero => exact none_ bytes
  | succ n =>
    simp only [RxCall.step]
    rcases h.ring.scan_step h.part_ok scan bytes with
      ⟨bytes', more, scan'⟩ | ⟨g, gs, rfl, at_, fe, cstop, found⟩ | stop
    · rw [more]
      exact h.goes_on _ (.between size scan' multiple some_ handed copied room left_le spent)
        (by simp) _
    · rw [found]
      have whole := h.whole g (.head _)
      have status := statusLength_le settings
      have long := whole.status
      have short := g.length_lt
      have passes := scan.passes
      have needed := enough fe cstop
      cases next : nextFrame settings bufLength (true, g.length) r with
      | none =>
        simp only [scanned, next]
        exact done
      | some r' =>
        obtain ⟨-, -, fits, rfl⟩ := nextFrame_eq_some.mp next
        obtain ⟨w, rest, rfl, bytes, carried⟩ := h.oldest
        rw [bufferRequirement_eq settings whole, copied.outLength, subSize_eq room size] at fits
        have frame := ReadingFrame.start settings left whole bytes copied
          (by omega) (by omega) left_le spent
        simp only [scanned, next]
        rw [subSize_eq (show settings.statusLength ≤ g.length by omega)
          (show g.length < 18446744073709551616 by omega)]
        refine ⟨g.descs, gs, free, rest, taking, [w], [], carried, ?_, ?_, by simp, fun empty => ?_⟩
        · exact .reading size (fun _ => multiple) handed frame
        · simp
        · simp [FrameGroup.descs] at empty
    · rw [stop]
      exact none_ bytes

/-- A step of the read of a frame. -/
private theorem step_reading (h : DmaCarried mem p e l head groups part free held)
    (size : bufLength < 18446744073709551616) (multiple : taking ≠ [] → settings.rxMultiple = true)
    {out pre : List UInt8} {r : Reading} {w : WireFrame} {full : List IoFrame} {last : IoFrame}
    (handed : FramesOut settings taking out)
    (frame : ReadingFrame mem settings bufLength passes out w head full last pre r) (d : δ) :
    Stepped mem e l part free (head ++ (groups.flatMap FrameGroup.descs ++ part) = [])
      (taking ++ ([w] ++ held))
      (RxCall.step dev mem p d (.read settings bufLength passes r))
      (RxCall.returns dev p d (.read settings bufLength passes r)).toList := by
  have nonempty : ¬head ++ (groups.flatMap FrameGroup.descs ++ part) = [] := by simp [frame.head]
  obtain ⟨n, rfl⟩ : ∃ n, passes = n + 1 := ⟨passes - 1, by have := frame.enough; omega⟩
  obtain ⟨f, head, rfl⟩ : ∃ f head', head = f :: head' := by
    cases head with
    | nil => have := frame.head; simp at this
    | cons f head => exact ⟨f, head, rfl⟩
  have user := h.ring.userFrame
  have after := h.read
  cases full with
  | cons x full =>
    obtain rfl : f = x := (List.cons.inj frame.head).1
    obtain ⟨r', read, more, frame'⟩ := frame.step_full dev user d
    simp only [RxCall.step, RxCall.returns, read, if_neg more]
    refine ⟨head, groups, _, held, taking, [w], [], after, ?_, ?_, by simp,
      fun empty => absurd empty nonempty⟩
    · exact .reading size multiple handed frame'
    · simp
  | nil =>
    have cstop := h.ring.ring.finished_cstop f (by simp)
    have buffer := h.ring.ring.buffers f (by simp)
    obtain ⟨rfl, r', piece, d', read, ended, copied, own, room, spent⟩ :=
      frame.step_last dev user cstop buffer d
    have handed' := handed.snoc own
    have passes_le := frame.passes_le
    simp only [RxCall.step, RxCall.returns, read, ended, if_true]
    split
    next goes =>
      refine ⟨[], groups, _, held, taking ++ [w], [], [], after, ?_, ?_, by simp,
        fun empty => absurd empty nonempty⟩
      · exact .between size after.scan_start goes (by simp) handed' copied room (by omega) spent
      · simp
    next one =>
      -- A read of one frame ends with it.
      obtain rfl : taking = [] := by
        by_contra some_
        exact one (multiple some_)
      refine ⟨[], groups, _, held, [], [], [[w]], after, .idle, ?_, by simp,
        fun empty => absurd empty nonempty⟩
      simp only [if_true, Option.toList_some]
      refine .cons ⟨by simp, fun _ => rfl, ?_⟩ .nil
      rw [copied.tempData]
      exact handed'

variable (dev) in
/-- A step of whatever call has the spinlock, a purge apart. -/
theorem step {call : RxCall} {current : List WireFrame}
    (h : DmaCarried mem p e l head groups part free held)
    (at_ : CallAt mem p.userRxDesc (groups.flatMap FrameGroup.descs ++ part) call head taking
      current)
    (busy : call ≠ .none) (enough : call.Enough mem p) (d : δ) :
    Stepped mem e l part free (head ++ (groups.flatMap FrameGroup.descs ++ part) = [])
      (taking ++ (current ++ held)) (call.step dev mem p d) (call.returns dev p d).toList := by
  cases at_ with
  | idle => exact absurd rfl busy
  | stamping passes curDesc =>
    cases passes with
    | zero => exact h.ends [] .nil
    | succ n =>
      simp only [RxCall.step]
      split
      next => exact h.ends [] .nil
      next =>
        exact (h.stamp curDesc d).goes_on [] (.stamping n _) (by simp) _
  | scanning size scan => exact h.step_scanning size scan d
  | between size scan multiple some_ out copied room left spent =>
    exact h.step_between size scan multiple some_ out copied room left spent enough d
  | reading size multiple out frame => exact h.step_reading size multiple out frame d

end DmaCarried

end Fscc
