import Fscc.ReadResult
import Fscc.Semaphores

/-!
# A call of `fscc_read`

One call of `fscc_read` among drains, purges and the calls of other readers. It tests readiness in
one critical region and acts in another, and a purge can come in between.
-/

namespace Fscc

variable {δ : Type} (dev : Device δ) {mem : Memory}

/-! ### The ring -/

/-- A ring of pieces of a stream, each with something left to read. -/
def StreamKept (mem : Memory) (p : RxPort) : Prop :=
  ∃ finished free, Pieces mem p finished free ∧ ∀ c ∈ finished.map IoFrame.data, c ≠ []

/-- A ring of frames, each with something left to read. -/
def FramesKept (mem : Memory) (p : RxPort) : Prop :=
  ∃ (groups : List (FrameGroup mem)) (part free : List IoFrame) (n : Nat),
    Framed mem p groups part free ∧ Fitted mem n (groups.flatMap FrameGroup.descs ++ part)

namespace StreamKept

variable {p : RxPort}

private theorem purged (size : p.rxDescriptors.length = mem.rxNum)
    (buffers : ∀ f ∈ p.rxDescriptors, f.buffer.length = mem.rxSize) :
    StreamKept mem (resetRx mem p) :=
  ⟨[], _, ⟨rxRing_reset mem size buffers, List.forall_mem_nil _⟩, List.forall_mem_nil _⟩

private theorem pass (h : StreamKept mem p) (opened : p.fifoFrame.cstop = false) (d : δ) :
    StreamKept mem (p.store mem (fifoReadPass dev mem p d).1) := by
  obtain ⟨finished, free, pieces, some_⟩ := h
  cases free with
  | nil =>
    rw [pieces.ring.fifoFrame_full] at opened
    cases opened
  | cons f rest =>
    rcases pieces.pass dev d with ⟨g, kept, size⟩ | ⟨g, kept, -⟩
    · refine ⟨_, _, kept, ?_⟩
      intro c member
      rw [List.map_append, List.mem_append] at member
      rcases member with old | new
      · exact some_ c old
      · rw [List.map_singleton, List.mem_singleton] at new
        apply List.ne_nil_of_length_pos
        rw [new, IoFrame.data, length_bytesAt, size]
        exact mem.rxSize_pos
    · exact ⟨_, _, kept, some_⟩

private theorem read (h : StreamKept mem p) {bufLength : Nat} (size : bufLength < 18446744073709551616)
    (alloc : Bool) (unmovedBytes : Nat) :
    StreamKept mem (userReadStream mem bufLength alloc unmovedBytes p).2 := by
  obtain ⟨finished, free, pieces, some_⟩ := h
  cases alloc with
  | false => exact ⟨finished, free, pieces, some_⟩
  | true =>
    obtain ⟨⟨finished', free', left⟩, -⟩ := pieces.read size unmovedBytes
    refine ⟨finished', free', left.pieces, ?_⟩
    rw [left.data]
    exact Chunks.ne_nil_of_mem_read _ _ some_

end StreamKept

namespace FramesKept

variable {p : RxPort}

private theorem purged (size : p.rxDescriptors.length = mem.rxNum)
    (buffers : ∀ f ∈ p.rxDescriptors, f.buffer.length = mem.rxSize) :
    FramesKept mem (resetRx mem p) :=
  ⟨[], [], _, 0, .reset size buffers, trivial⟩

private theorem isFinal_full {f : IoFrame} (full : f.Full mem) : f.isFinal = false := by
  rw [IoFrame.isFinal, full.fe, Bool.false_and]

private theorem pass (h : FramesKept mem p) (opened : p.fifoFrame.cstop = false) (d : δ) :
    FramesKept mem (p.store mem (fifoReadPass dev mem p d).1) := by
  obtain ⟨groups, part, free, n, framed, fitted⟩ := h
  cases free with
  | nil =>
    rw [framed.ring.fifoFrame_full] at opened
    cases opened
  | cons f rest =>
    have pass := framed.pass dev d
    generalize hasCstop (fifoReadPass dev mem p d).1.newControl = cstop at pass
    generalize hasFe (fifoReadPass dev mem p d).1.newControl = fe at pass
    cases pass with
    -- The pass completes a frame: its last descriptor is final, and the frame fits its descriptors.
    | last g same length _ _ fits pos _ framed' =>
      refine ⟨_, _, _, n, framed', ?_⟩
      rw [FrameGroup.Fits, same] at fits
      have last : g.last.isFinal = true := by
        rw [IoFrame.isFinal, g.last_fe, g.last_cstop]
        rfl
      have appended := fitted.append_final (fun f member => isFinal_full (framed.part_ok f member))
        last (by change 0 < g.length; omega) fits
      simpa [FrameGroup.descs, same] using appended
    -- The descriptor is full and ends no frame.
    | full f' _ _ framed' =>
      have plain := framed'.part_ok f' (by simp)
      refine ⟨_, _, _, n, framed', ?_⟩
      rw [← List.append_assoc]
      exact fitted.append_full (isFinal_full plain) plain.dataCount
    | more f' _ _ _ framed' => exact ⟨_, _, _, n, framed', fitted⟩

private theorem read (h : FramesKept mem p) (settings : Settings) (bufLength : Nat) (alloc : Bool)
    (unmovedBytes : Nat) (d : δ) :
    FramesKept mem (userReadFrame dev mem settings bufLength alloc unmovedBytes p d).2.1 := by
  obtain ⟨groups, part, free, n, framed, fitted⟩ := h
  obtain ⟨groups', fs, framed', -⟩ := framed.read_any dev settings bufLength alloc unmovedBytes d
  obtain ⟨gone, kept, split, ring, -⟩ :=
    framed.ring.userReadFrame_any dev settings bufLength alloc unmovedBytes d
  -- What is left of the frames is what is left of the finished descriptors.
  have same : kept = groups'.flatMap FrameGroup.descs ++ part := by
    rw [← ring.pending_eq, framed'.ring.pending_eq]
  rw [split] at fitted
  obtain ⟨m, fitted'⟩ := fitted.rest gone
  exact ⟨groups', part, _, m, framed', same ▸ fitted'⟩

end FramesKept

/-- What every call keeps of the ring, in either mode. -/
def ReadKept (mem : Memory) (streaming : Bool) (p : RxPort) : Prop :=
  if streaming then StreamKept mem p else FramesKept mem p

namespace ReadKept

variable {streaming : Bool} {p q : RxPort} {e : RingCall δ}

private theorem fresh (start : Fresh mem p) : ReadKept mem streaming p := by
  obtain ⟨q, rfl, size, buffers⟩ := start
  cases streaming with
  | true => exact StreamKept.purged size buffers
  | false => exact FramesKept.purged size buffers

private theorem stream_step (cfg : PortConfig) (h : StreamKept mem p) (mode : e.inMode true = true)
    (stepped : (ringCalls dev mem cfg).step p e = some q) : StreamKept mem q := by
  cases e with
  | drain d =>
    obtain rfl := Option.some.inj stepped
    exact fifoReadData_kept dev mem (fun p d h opened => h.pass dev opened d) d h
  | readFrame settings bufLength alloc unmovedBytes d => cases mode
  | readStream bufLength alloc unmovedBytes =>
    obtain rfl := Option.some.inj stepped
    exact h.read bufLength.isLt alloc unmovedBytes
  | purge d =>
    obtain ⟨finished, free, pieces, -⟩ := h
    obtain rfl := Option.some.inj stepped
    exact .purged pieces.ring.size pieces.ring.buffers_mem

private theorem frames_step (cfg : PortConfig) (h : FramesKept mem p) (mode : e.inMode false = true)
    (stepped : (ringCalls dev mem cfg).step p e = some q) : FramesKept mem q := by
  cases e with
  | drain d =>
    obtain rfl := Option.some.inj stepped
    exact fifoReadData_kept dev mem (fun p d h opened => h.pass dev opened d) d h
  | readFrame settings bufLength alloc unmovedBytes d =>
    obtain rfl := Option.some.inj stepped
    exact h.read dev settings bufLength alloc unmovedBytes d
  | readStream bufLength alloc unmovedBytes => cases mode
  | purge d =>
    obtain ⟨groups, part, free, n, framed, -⟩ := h
    obtain rfl := Option.some.inj stepped
    exact .purged framed.ring.size framed.ring.buffers_mem

private theorem step (cfg : PortConfig) (h : ReadKept mem streaming p)
    (mode : e.inMode streaming = true)
    (stepped : (ringCalls dev mem cfg).step p e = some q) : ReadKept mem streaming q := by
  cases streaming with
  | true => exact stream_step dev cfg h mode stepped
  | false => exact frames_step dev cfg h mode stepped

end ReadKept

/-! ### The call -/

/-- A port, a call, and the ring that the call has found under the spinlock. -/
structure ReadSystem where
  port : PortState
  call : Call
  found : Option RxPort

/-- The call takes a step, in which a signal may be pending and its buffer may not be allocated; or
something else is done to the ring. -/
inductive ReadEvent (δ : Type) where
  | call (interrupted alloc : Bool) (d : δ)
  | ring (e : RingCall δ)

/-- The calls that hold the semaphore of the readers. -/
def RingCall.reads : RingCall δ → Bool
  | .readFrame _ _ _ _ _ => true
  | .readStream _ _ _ => true
  | _ => false

/-- What the environment decides in a step of the call: all of its copy to the user succeeds. -/
def readChance (interrupted alloc : Bool) (d : δ) : Chance δ := ⟨interrupted, alloc, 0, d⟩

variable (mem) in
/-- A port in one mode, and a call of `fscc_read` with room for a byte. -/
def readMachine : Machine ReadSystem (ReadEvent δ) where
  init s := Fresh mem s.port.rx ∧ s.call.kind = .read ∧ s.call.phase = .entry ∧
    0 < s.call.buf.length ∧ s.call.buf.length < 18446744073709551616
  step s
    | .call interrupted alloc d =>
      let chance := readChance interrupted alloc d
      (s.call.next mem (s.call.observe dev mem s.port chance)).map fun step =>
        if s.call.phase = .act then
          ⟨(s.call.work dev mem s.port chance).2, s.call.moved step, some s.port.rx⟩
        else ⟨s.port, s.call.moved step, s.found⟩
    | .ring e =>
      if e.inMode s.port.streaming && !(e.reads && s.call.phase.critical) then
        ((ringCalls dev mem s.port.cfg).step s.port.rx e).map fun rx =>
          { s with port := { s.port with rx := rx } }
      else none

/-- A call has returned neither the end of the file, nor `-ENOBUFS` but for a complete frame that
needed more than its buffer when it held the spinlock. -/
def ReturnsTruth (s : ReadSystem) : Prop :=
  ∀ result, s.call.phase = .done result → Truthful result
    (∃ p, s.found = some p ∧ s.port.streaming = false ∧
      Exceeds s.port.settings s.call.buf.length p)

/-- The ring has what the call was let through for: a finished descriptor to start with, or a complete
frame. -/
def StillReady (mem : Memory) (s : ReadSystem) : Prop :=
  if s.port.streaming then s.port.rx.userFrame.isOpen = false
  else (userNextReadSize mem s.port.rx).1 = true

/-- When the call acts its buffer is allocated, the ring still has what the call was let through for,
and the frames of a ring of frames have something to hand out. -/
def Granted (mem : Memory) (s : ReadSystem) : ReadEvent δ → Prop
  | .call _ alloc _ => s.call.phase = .act → alloc = true ∧ StillReady mem s ∧
      (s.port.streaming = false → Gives s.port.settings s.call.buf.length s.port.rx)
  | .ring _ => True

instance StillReady.decidable (mem : Memory) (s : ReadSystem) : Decidable (StillReady mem s) :=
  inferInstanceAs (Decidable (if s.port.streaming = true then s.port.rx.userFrame.isOpen = false
    else _ = true))

instance Granted.decidable (mem : Memory) (s : ReadSystem) :
    (e : ReadEvent δ) → Decidable (Granted mem s e)
  | .call _ _ _ => inferInstanceAs (Decidable (_ → _ ∧ _ ∧ (_ → _)))
  | .ring _ => .isTrue trivial

/-- The result that a call is about to return. -/
def Phase.result? : Phase → Option (Except Errno Nat)
  | .leave result | .finish result | .done result => some result
  | _ => none

/-- The loop around the wait ends a call with a signal, or because the call may not block. -/
private theorem waitLoop_result {nonblock : Bool} {phase phase' : Phase} {seen : Observation}
    {op : SemaphoreOp} (next : waitLoop nonblock .act phase seen = some (phase', op))
    {result : Except Errno Nat} (carried : phase'.result? = some result) :
    ∃ e, result = .error e ∧ e ≠ .enobufs := by
  have other {e : Errno} (ne : e ≠ .enobufs) (carried : some (.error e) = some result) :
      ∃ e, result = .error e ∧ e ≠ .enobufs :=
    ⟨e, (Option.some.inj carried).symm, ne⟩
  unfold waitLoop at next
  split at next
  next => cases next; exact other (by decide) carried
  next => cases next; cases carried
  next holds => cases holds <;> cases next <;> cases carried
  next =>
    cases nonblock with
    | true => cases next; exact other (by decide) carried
    | false => cases next; cases carried
  next holds => cases holds <;> cases next <;> cases carried
  next => cases next; exact other (by decide) carried
  next => cases next; cases carried
  next => cases next

/-- Where the result of a call comes from: it had one, its work gave one, or it is an error other
than `-ENOBUFS`. -/
private theorem readNext_result {count : Nat} {nonblock : Bool} {phase phase' : Phase}
    {seen : Observation}
    {op : SemaphoreOp} (pos : 0 < count)
    (next : readNext count nonblock phase seen = some (phase', op)) {result : Except Errno Nat}
    (carried : phase'.result? = some result) :
    phase.result? = some result ∨ phase = .act ∧ seen = .result result ∨
      ∃ e, result = .error e ∧ e ≠ .enobufs := by
  unfold readNext at next
  split at next
  next usingAsync =>
    cases next
    rw [readEntry, if_neg (Nat.ne_of_gt pos)] at carried
    cases usingAsync with
    | true => exact .inr (.inr ⟨_, (Option.some.inj carried).symm, by decide⟩)
    | false => cases carried
  next =>
    cases next
    exact .inr (.inl ⟨rfl, congrArg _ (Option.some.inj carried)⟩)
  next =>
    cases next
    exact .inl carried
  next => exact .inr (.inr (waitLoop_result next carried))

variable {s t : ReadSystem}

/-- A call whose act is granted finds a truthful result. -/
private theorem work_truthful (kind : s.call.kind = .read)
    (kept : ReadKept mem s.port.streaming s.port.rx) (pos : 0 < s.call.buf.length)
    (size : s.call.buf.length < 18446744073709551616) {interrupted alloc : Bool} {d : δ}
    (granted : Granted mem s (.call interrupted alloc d)) (acts : s.call.phase = .act) :
    Truthful (s.call.work dev mem s.port (readChance interrupted alloc d)).1
      (∃ p, some s.port.rx = some p ∧ s.port.streaming = false ∧
        Exceeds s.port.settings s.call.buf.length p) := by
  obtain ⟨allocated, ready, gives⟩ := granted acts
  rw [StillReady] at ready
  rw [Call.work, kind]
  dsimp only
  -- Each mode has its own condition for a truthful result.
  cases streaming : s.port.streaming with
  | true =>
    rw [streaming] at kept ready
    obtain ⟨finished, free, pieces, some_⟩ := kept
    simp only [if_true] at ready ⊢
    exact truthful_ok.mpr ((pieces.readStream_some some_ pos size alloc).mpr ⟨allocated, ready⟩)
  | false =>
    rw [streaming] at kept ready
    obtain ⟨groups, part, free, n, framed, fitted⟩ := kept
    simp only [Bool.false_eq_true, if_false] at ready ⊢
    have truthful := (fitted.readFrame_truthful dev s.port.settings framed.ring pos size alloc
      (.inr (gives streaming)) d).mpr ⟨allocated, ready, gives streaming⟩
    exact ⟨truthful.1, fun refused => ⟨_, rfl, trivial, truthful.2 refused⟩⟩

/-- An act leaves the ring as a read of its mode does, and the port otherwise as it is. -/
private theorem work_kept (kind : s.call.kind = .read) (kept : ReadKept mem s.port.streaming s.port.rx)
    (size : s.call.buf.length < 18446744073709551616) (chance : Chance δ) :
    ReadKept mem s.port.streaming (s.call.work dev mem s.port chance).2.rx ∧
      (s.call.work dev mem s.port chance).2.streaming = s.port.streaming ∧
      (s.call.work dev mem s.port chance).2.settings = s.port.settings := by
  rw [Call.work, kind]
  dsimp only
  cases streaming : s.port.streaming with
  | true =>
    rw [streaming] at kept
    exact ⟨StreamKept.read kept size _ _, rfl, rfl⟩
  | false =>
    rw [streaming] at kept
    exact ⟨FramesKept.read dev kept _ _ _ _ _, rfl, rfl⟩

private theorem truthful_error {e : Errno} (other : e ≠ .enobufs) {exceeds : Prop} :
    Truthful (.error e) exceeds := by
  constructor
  · intro zero
    cases zero
  · intro refused
    exact absurd (Except.error.inj refused) other

/-- What holds along every run. -/
structure ReadInv (mem : Memory) (s : ReadSystem) : Prop where
  kept : ReadKept mem s.port.streaming s.port.rx
  kind : s.call.kind = .read
  pos : 0 < s.call.buf.length
  size : s.call.buf.length < 18446744073709551616

namespace ReadInv

private theorem init (start : (readMachine dev mem).init s) : ReadInv mem s :=
  ⟨.fresh start.1, start.2.1, start.2.2.2.1, start.2.2.2.2⟩

/-- A step of the call. -/
private theorem call_step (h : ReadInv mem s) {interrupted alloc : Bool} {d : δ}
    (stepped : (readMachine dev mem).step s (.call interrupted alloc d) = some t) :
    ∃ phase op,
      readNext s.call.buf.length s.call.nonblock s.call.phase
          (s.call.observe dev mem s.port (readChance interrupted alloc d)) = some (phase, op) ∧
      t = if s.call.phase = .act then
          ⟨(s.call.work dev mem s.port (readChance interrupted alloc d)).2,
            s.call.moved (phase, op), some s.port.rx⟩
        else ⟨s.port, s.call.moved (phase, op), s.found⟩ := by
  obtain ⟨⟨phase, op⟩, next, rfl⟩ := Option.map_eq_some_iff.mp stepped
  rw [Call.next, h.kind] at next
  exact ⟨phase, op, next, rfl⟩

/-- A step of anything else. -/
private theorem ring_step {e : RingCall δ} (stepped : (readMachine dev mem).step s (.ring e) = some t) :
    e.inMode s.port.streaming = true ∧ (e.reads = true → s.call.phase.critical = false) ∧
      ∃ rx, (ringCalls dev mem s.port.cfg).step s.port.rx e = some rx ∧
        t = { s with port := { s.port with rx := rx } } := by
  obtain ⟨enabled, stepped⟩ := Option.ite_none_right_eq_some.mp stepped
  obtain ⟨rx, moved, rfl⟩ := Option.map_eq_some_iff.mp stepped
  rw [Bool.and_eq_true] at enabled
  refine ⟨enabled.1, ?_, rx, moved, rfl⟩
  intro reads
  have free := enabled.2
  rwa [reads, Bool.true_and, Bool.not_eq_true'] at free

private theorem step {e : ReadEvent δ} (h : ReadInv mem s)
    (stepped : (readMachine dev mem).step s e = some t) : ReadInv mem t := by
  cases e with
  | call interrupted alloc d =>
    obtain ⟨phase, op, -, rfl⟩ := h.call_step dev stepped
    split
    next =>
      obtain ⟨kept, mode, -⟩ := work_kept dev h.kind h.kept h.size (readChance interrupted alloc d)
      refine ⟨?_, h.kind, h.pos, h.size⟩
      dsimp only
      rw [mode]
      exact kept
    next => exact ⟨h.kept, h.kind, h.pos, h.size⟩
  | ring e =>
    obtain ⟨mode, -, rx, moved, rfl⟩ := ring_step dev stepped
    exact ⟨h.kept.step dev s.port.cfg mode moved, h.kind, h.pos, h.size⟩

end ReadInv

/-- The result that the call is about to return is truthful. -/
def CarriesTruth (s : ReadSystem) : Prop :=
  ∀ result, s.call.phase.result? = some result → Truthful result
    (∃ p, s.found = some p ∧ s.port.streaming = false ∧
      Exceeds s.port.settings s.call.buf.length p)

private theorem CarriesTruth.step {e : ReadEvent δ} (h : CarriesTruth s) (inv : ReadInv mem s)
    (granted : Granted mem s e) (stepped : (readMachine dev mem).step s e = some t) :
    CarriesTruth t := by
  cases e with
  | call interrupted alloc d =>
    obtain ⟨phase, op, next, rfl⟩ := inv.call_step dev stepped
    intro result carried
    -- An act returns what the read gave. Every other result is an error.
    by_cases acts : s.call.phase = .act
    · have work := work_truthful dev inv.kind inv.kept inv.pos inv.size granted acts
      obtain ⟨-, mode, settings⟩ :=
        work_kept dev inv.kind inv.kept inv.size (readChance interrupted alloc d)
      rw [if_pos acts] at carried ⊢
      dsimp only
      rw [mode, settings]
      rw [Call.observe, acts] at next
      rcases readNext_result inv.pos next carried with old | ⟨-, seen⟩ | ⟨e, rfl, other⟩
      · cases old
      · rw [← Observation.result.inj seen]
        exact work
      · exact truthful_error other
    · rw [if_neg acts] at carried ⊢
      rcases readNext_result inv.pos next carried with old | ⟨act, -⟩ | ⟨e, rfl, other⟩
      · exact h result old
      · exact absurd act acts
      · exact truthful_error other
  | ring e =>
    obtain ⟨-, -, rx, -, rfl⟩ := ReadInv.ring_step dev stepped
    exact h

/-- In every run in which the call acts with its buffer allocated, and on a ring that still has what
it was let through for, it returns neither the end of the file, nor `-ENOBUFS` but for a frame that
needs more than its buffer. -/
theorem read_returns_truth (reached : (readMachine dev mem).ReachedUnder (Granted mem) s) :
    ReturnsTruth s := by
  have truth : ReadInv mem s ∧ CarriesTruth s := by
    refine reached.invariant (P := fun s => ReadInv mem s ∧ CarriesTruth s) ?_ ?_
    · intro s start
      refine ⟨.init dev start, fun result carried => ?_⟩
      rw [start.2.2.1] at carried
      cases carried
    · intro s t e h granted stepped
      exact ⟨h.1.step dev stepped, h.2.step dev h.1 granted stepped⟩
  intro result returned
  apply truth.2
  rw [returned]
  rfl

/-- A read with room for two bytes of frames, without their status. -/
def beforeRead : ReadSystem where
  port := { freshPort with settings := ⟨false, false, false⟩ }
  call := ⟨.read, [0, 0], false, .entry, false⟩
  found := none

/-- A frame of `d` bytes comes in. The call is let through, `between` happens, and it acts. -/
def readRun (d : BitVec 32) (between : List (RingCall (BitVec 32))) (alloc : Bool) :
    List (ReadEvent (BitVec 32)) :=
  .ring (.drain d) :: List.replicate 3 (.call false true d) ++ between.map .ring ++
    List.replicate 2 (.call false alloc d)

private theorem fresh_beforeRead : (readMachine constant .small).init beforeRead :=
  ⟨fresh_freshRx .small rfl, rfl, rfl, by decide, by decide⟩

/-- Of a frame of three bytes the read returns the one that is not status. -/
theorem read_returns_truth_three :
    ∃ s, (readMachine constant .small).replay beforeRead (readRun 3#32 [] true) = some s ∧
      s.call.phase = .done (.ok 1) ∧ ReturnsTruth s := by
  have met :
      (readMachine constant .small).Met (Granted .small) beforeRead (readRun 3#32 [] true) := by
    decide
  exact ⟨_, rfl, rfl, read_returns_truth constant (.replay (.init fresh_beforeRead) _ met rfl)⟩

private theorem ReturnsTruth.not_zero (returned : s.call.phase = .done (.ok 0)) : ¬ReturnsTruth s :=
  fun truth => (truth _ returned).1 rfl

private theorem ReturnsTruth.not_refused (returned : s.call.phase = .done (.error .enobufs))
    (none_ : s.found.bind RxPort.pendingFrame = none) : ¬ReturnsTruth s := by
  intro truth
  obtain ⟨p, found, -, g, pending, -⟩ := (truth _ returned).2 rfl
  rw [found, Option.bind_some] at none_
  rw [none_] at pending
  cases pending

/-- A purge between the check and the act makes the call refuse with nothing pending; without memory
for its buffer it returns 0, and so it does for a frame that is all status. -/
theorem read_untrue :
    (∃ s, (readMachine constant .small).replay beforeRead
        (readRun 3#32 [.purge 3#32] true) = some s ∧
      s.call.phase = .done (.error .enobufs) ∧ ¬ReturnsTruth s) ∧
    (∃ s, (readMachine constant .small).replay beforeRead (readRun 3#32 [] false) = some s ∧
      s.call.phase = .done (.ok 0) ∧ ¬ReturnsTruth s) ∧
    (∃ s, (readMachine constant .small).replay beforeRead (readRun 2#32 [] true) = some s ∧
      s.call.phase = .done (.ok 0) ∧ ¬ReturnsTruth s) ∧
    ¬∀ s, (readMachine constant .small).Reached s → ReturnsTruth s := by
  refine ⟨⟨_, rfl, rfl, ReturnsTruth.not_refused rfl rfl⟩,
    ⟨_, rfl, rfl, ReturnsTruth.not_zero rfl⟩, ⟨_, rfl, rfl, ReturnsTruth.not_zero rfl⟩, ?_⟩
  intro always
  exact ReturnsTruth.not_zero rfl (always _ (.replay (.init fresh_beforeRead)
    (readRun 3#32 [] false) rfl))

/-! ### What only a purge takes away -/

/-- No purge comes while the call is between its `down` and its `up`. -/
def Unpurged (s : ReadSystem) : ReadEvent δ → Prop
  | .ring (.purge _) => s.call.phase.critical = false
  | _ => True

/-- A stream that is ready has a finished descriptor to start with. -/
private theorem StreamKept.first_finished {p : RxPort} (h : StreamKept mem p)
    (ready : ioUserReadReady mem true p = true) : p.userFrame.isOpen = false := by
  obtain ⟨finished, free, pieces, -⟩ := h
  have ring := pieces.ring
  cases finished with
  | nil =>
    have scanned := ring.userNextReadSize_eq
    cases free with
    | nil => simp [ioUserReadReady, scanned, Ring.scan] at ready
    | cons f rest =>
      have opened := ring.free_open f (.head _)
      simp [ioUserReadReady, scanned, Ring.scan, nextReadStep, opened.1, opened.2] at ready
  | cons f fs =>
    rw [ring.userFrame_eq]
    exact ring.window.pending_done f (.head _)

/-- A drain goes on behind the descriptor that a reader starts with. -/
private theorem StreamKept.drain_first {p : RxPort} (h : StreamKept mem p)
    (first : p.userFrame.isOpen = false) (d : δ) :
    (fifoReadData dev mem p d).1.userFrame.isOpen = false := by
  refine (fifoReadData_kept dev mem
    (P := fun p => StreamKept mem p ∧ p.userFrame.isOpen = false) ?_ d ⟨h, first⟩).2
  rintro p d ⟨h, first⟩ opened
  refine ⟨h.pass dev opened d, ?_⟩
  obtain ⟨finished, free, pieces, -⟩ := h
  have ring := pieces.ring
  cases free with
  | nil =>
    rw [ring.fifoFrame_full] at opened
    cases opened
  | cons f rest =>
    cases finished with
    -- Nothing was finished, but then the first descriptor would be open.
    | nil =>
      have free_ := ring.free_open f (.head _)
      rw [ring.userFrame_free, IoFrame.isOpen, free_.1, free_.2] at first
      cases first
    | cons x xs =>
      -- A finished descriptor stays in front, whatever the drain adds behind it.
      have front {q : RxPort} {ys free' : List IoFrame} (after : Pieces mem q (x :: ys) free') :
          q.userFrame.isOpen = false := by
        rw [after.ring.userFrame_eq]
        exact after.ring.window.pending_done x (.head _)
      rcases pieces.pass dev d with ⟨g, after, -⟩ | ⟨g, after, -⟩
      · exact front after
      · exact front after

/-- A drain leaves the frames that are complete. -/
private theorem FramesKept.drain_ready {p : RxPort} (h : FramesKept mem p)
    (ready : (userNextReadSize mem p).1 = true) (d : δ) :
    (userNextReadSize mem (fifoReadData dev mem p d).1).1 = true := by
  refine (fifoReadData_kept dev mem
    (P := fun p => FramesKept mem p ∧ (userNextReadSize mem p).1 = true) ?_ d ⟨h, ready⟩).2
  rintro p d ⟨h, ready⟩ opened
  refine ⟨h.pass dev opened d, ?_⟩
  obtain ⟨groups, part, free, n, framed, -⟩ := h
  cases free with
  | nil =>
    rw [framed.ring.fifoFrame_full] at opened
    cases opened
  | cons f rest =>
    cases groups with
    -- No frame was complete, but then nothing could be read.
    | nil =>
      rw [RxRing.nextReadSize_nil framed.ring framed.part_ok] at ready
      cases ready
    | cons x xs =>
      have pass := framed.pass dev d
      generalize hasCstop (fifoReadPass dev mem p d).1.newControl = cstop at pass
      generalize hasFe (fifoReadPass dev mem p d).1.newControl = fe at pass
      cases pass with
      | last g _ _ _ _ _ _ _ framed' => rw [framed'.ring.nextReadSize_cons]
      | full f' _ _ framed' => rw [framed'.ring.nextReadSize_cons]
      | more f' _ _ _ framed' => rw [framed'.ring.nextReadSize_cons]

private theorem StillReady.of_ready (kept : ReadKept mem s.port.streaming s.port.rx)
    (ready : ioUserReadReady mem s.port.streaming s.port.rx = true) : StillReady mem s := by
  rw [StillReady]
  cases streaming : s.port.streaming with
  | true =>
    rw [streaming] at kept ready
    exact StreamKept.first_finished kept ready
  | false =>
    rw [streaming] at ready
    exact ready

private theorem StillReady.drain (kept : ReadKept mem s.port.streaming s.port.rx)
    (ready : StillReady mem s)
    (d : δ) :
    StillReady mem { s with port := { s.port with rx := (fifoReadData dev mem s.port.rx d).1 } } := by
  rw [StillReady] at ready ⊢
  dsimp only
  cases streaming : s.port.streaming with
  | true =>
    rw [streaming] at kept ready
    exact StreamKept.drain_first dev kept ready d
  | false =>
    rw [streaming] at kept ready
    exact FramesKept.drain_ready dev kept ready d

/-- A call goes on to act only when it sees its condition hold. -/
private theorem waitLoop_act {nonblock : Bool} {phase : Phase} {seen : Observation} {op : SemaphoreOp}
    (next : waitLoop nonblock .act phase seen = some (.act, op)) :
    phase = .check ∧ seen = .condition true := by
  unfold waitLoop at next
  split at next
  next => cases next
  next => cases next
  next holds =>
    cases holds with
    | true => exact ⟨rfl, rfl⟩
    | false => cases next
  next => cases nonblock <;> cases next
  next holds => cases holds <;> cases next
  next => cases next
  next => cases next
  next => cases next

private theorem readNext_act {count : Nat} {nonblock : Bool} {phase : Phase} {seen : Observation}
    {op : SemaphoreOp} (next : readNext count nonblock phase seen = some (.act, op)) :
    phase = .check ∧ seen = .condition true := by
  unfold readNext at next
  split at next
  next usingAsync =>
    rw [readEntry] at next
    split at next
    next => cases next
    next => cases usingAsync <;> cases next
  next => cases next
  next => cases next
  next => exact waitLoop_act next

/-- In every run in which no purge comes while the call holds its semaphore, the call still finds
what it was let through for. -/
theorem ready_until_purge (reached : (readMachine dev mem).ReachedUnder Unpurged s)
    (acts : s.call.phase = .act) : StillReady mem s := by
  have kept : ReadInv mem s ∧ (s.call.phase = .act → StillReady mem s) := by
    refine reached.invariant
      (P := fun s => ReadInv mem s ∧ (s.call.phase = .act → StillReady mem s)) ?_ ?_
    · intro s start
      refine ⟨.init dev start, fun acts => ?_⟩
      rw [start.2.2.1] at acts
      cases acts
    · rintro s t e ⟨inv, ready⟩ unpurged stepped
      refine ⟨inv.step dev stepped, fun acts => ?_⟩
      cases e with
      -- The call acts only after it has seen that it can.
      | call interrupted alloc d =>
        obtain ⟨phase, op, next, rfl⟩ := inv.call_step dev stepped
        have going : phase = .act := by
          split at acts
          next => exact acts
          next => exact acts
        rw [going] at next
        obtain ⟨check, seen⟩ := readNext_act next
        have elsewhere : s.call.phase ≠ .act := by
          rw [check]
          decide
        rw [Call.observe, check] at seen
        have holds : s.call.ready mem s.port = true := Observation.condition.inj seen
        rw [Call.ready, inv.kind] at holds
        rw [if_neg elsewhere]
        exact StillReady.of_ready inv.kept holds
      | ring e =>
        obtain ⟨mode, reads, rx, moved, rfl⟩ := ReadInv.ring_step dev stepped
        -- Between its check and its act the call holds the semaphore, which keeps the other readers out.
        have critical : s.call.phase.critical = true := by
          change s.call.phase = .act at acts
          rw [acts]
          rfl
        cases e with
        | drain d =>
          obtain rfl := Option.some.inj moved
          exact StillReady.drain dev inv.kept (ready acts) d
        | readFrame settings bufLength alloc unmovedBytes d =>
          rw [reads rfl] at critical
          cases critical
        | readStream bufLength alloc unmovedBytes =>
          rw [reads rfl] at critical
          cases critical
        -- A purge takes no semaphore, which is why the condition excludes it.
        | purge d =>
          have outside : s.call.phase.critical = false := unpurged
          rw [outside] at critical
          cases critical
  exact kept.2 acts

end Fscc
