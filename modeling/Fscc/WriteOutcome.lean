import Fscc.Calls
import Fscc.Lib.Machine
import Fscc.TxFrames

/-!
# One write, all or nothing

One call of `fscc_write` from any ring, with transmit tasklets and purges between any two of
its steps. The scan for room takes no lock: it loads one descriptor a step.
-/

namespace Fscc

variable {δ : Type} (dev : Device δ) (mem : Memory)

/-- The local variables of `fscc_user_get_tx_space`. -/
structure TxScan where
  i : Nat
  curDesc : Nat
  space : Nat
deriving DecidableEq, Repr

/-- What is fixed of a call: its buffer and flags, and what its allocation and its copy from
the user are to come to. -/
structure WriteCall where
  buf : List UInt8
  nonblock : Bool
  alloc : Bool
  unmovedBytes : Nat
deriving DecidableEq, Repr

/-- A write under way. `alone` is the ring that the other parties alone would have left, and
`queuing` the ring before and after `fscc_user_write_frame`, once it has run. -/
structure WriteRun where
  port : TxPort
  alone : TxPort
  phase : Phase
  scan : Option TxScan
  queuing : Option (TxPort × TxPort)
deriving Repr

/-- A step of the call whose outcome the environment decides, a load of its scan, its
`fscc_user_write_frame`, a run of the tasklet, a purge. -/
inductive WriteEvent (δ : Type) where
  | advance (seen : Observation)
  | load
  | queue (d : δ)
  | tasklet (d : δ)
  | purge (d : δ)

namespace WriteRun

/-- Whether the call is in `fscc_user_get_tx_space`. -/
def scanning (s : WriteRun) : Bool := s.phase == .check || s.phase == .wait

/-- One step of the scan: a load of `user_tx_desc` or of a descriptor's control word, or the
return, with which the condition of the call is known. -/
def load (call : WriteCall) (s : WriteRun) : Option WriteRun :=
  match s.scan with
  | none => some { s with scan := some ⟨0, s.port.userTxDesc, 0⟩ }
  | some scan =>
    if scan.i < mem.txNum ∧ (s.port.txDescriptors.getD scan.curDesc default).cstop then
      let next : TxScan :=
        ⟨scan.i + 1, Ring.next mem.txNum scan.curDesc, CInt.addSize scan.space mem.txSize⟩
      some { s with scan := some next }
    else
      (writeNext mem call.buf.length call.nonblock s.phase
          (.condition (decide (call.buf.length ≤ scan.space)))).map fun step =>
        { s with phase := step.1, scan := none }

/-- `fscc_user_write_frame` in the call. -/
def queue (cfg : PortConfig) (call : WriteCall) (s : WriteRun) (d : δ) : Option WriteRun :=
  let written := userWriteFrame dev cfg mem call.alloc call.unmovedBytes call.buf s.port d
  (writeNext mem call.buf.length call.nonblock s.phase
      (.result (written.1.map fun _ => call.buf.length))).map fun step =>
    { s with phase := step.1, port := written.2.1, queuing := some (s.port, written.2.1) }

end WriteRun

/-- A ring of the right size, its index in range. -/
structure TxPort.Sized (mem : Memory) (p : TxPort) : Prop where
  size : p.txDescriptors.length = mem.txNum
  user_lt : p.userTxDesc < mem.txNum
  buffers : ∀ f ∈ p.txDescriptors, f.buffer.length = mem.txSize

def writeMachine (cfg : PortConfig) (call : WriteCall) : Machine WriteRun (WriteEvent δ) where
  init s := s.port.Sized mem ∧ s.alone = s.port ∧ s.phase = .entry ∧ s.scan = none ∧
    s.queuing = none
  step s
    | .advance seen =>
      if s.scanning ∨ s.phase = .act then none
      else
        (writeNext mem call.buf.length call.nonblock s.phase seen).map fun step =>
          { s with phase := step.1 }
    | .load => if s.scanning then s.load mem call else none
    | .queue d => if s.phase = .act then s.queue dev mem cfg call d else none
    | .tasklet d =>
      some { s with
        port := (oframeWorker dev cfg mem s.port d).1
        alone := (oframeWorker dev cfg mem s.alone d).1 }
    | .purge d =>
      some { s with
        port := (ioPurgeTx dev cfg s.port d).1
        alone := (ioPurgeTx dev cfg s.alone d).1 }

/-- A success has queued the caller's bytes as one frame; an error has left the ring as the
others alone would have left it. -/
def AllOrNothing (call : WriteCall) (s : WriteRun) : Except Errno Nat → Prop
  | .ok n => n = call.buf.length ∧
      ∃ before after, s.queuing = some (before, after) ∧ Queues mem before after call.buf
  | .error _ => s.port = s.alone

/-- The memory was there, and all of the buffer that was not copied is zero. -/
def WriteCall.Moved (call : WriteCall) : Prop :=
  call.alloc = true ∧
    ∀ b ∈ call.buf.drop (call.buf.length - call.unmovedBytes), b = 0

/-! ### What the others leave -/

/-- `q` is `p` with some descriptors freed. -/
structure Frees (p q : TxPort) : Prop where
  user : q.userTxDesc = p.userTxDesc
  size : q.txDescriptors.length = p.txDescriptors.length
  cstop : ∀ i, (p.txDescriptors.getD i default).cstop = true →
    (q.txDescriptors.getD i default).cstop = true
  buffers : ∀ f ∈ q.txDescriptors, ∃ g ∈ p.txDescriptors, f.buffer.length = g.buffer.length

theorem Frees.refl (p : TxPort) : Frees p p :=
  ⟨rfl, rfl, fun _ h => h, fun f member => ⟨f, member, rfl⟩⟩

private theorem Frees.trans {p q r : TxPort} (h : Frees p q) (h' : Frees q r) : Frees p r where
  user := h'.user.trans h.user
  size := h'.size.trans h.size
  cstop i free := h'.cstop i (h.cstop i free)
  buffers f member := by
    obtain ⟨g, member, same⟩ := h'.buffers f member
    obtain ⟨k, member, same'⟩ := h.buffers g member
    exact ⟨k, member, same.trans same'⟩

/-- A descriptor is freed, and `fifo_tx_desc` may move. -/
theorem frees_set (p : TxPort) (i fifo : Nat) {f : IoFrame} (cstop : f.cstop = true)
    (buffer : f.buffer = (p.txDescriptors.getD i default).buffer) :
    Frees p { p with txDescriptors := p.txDescriptors.set i f, fifoTxDesc := fifo } where
  user := rfl
  size := List.length_set
  cstop j free := by
    simp only [List.getD_eq_getElem?_getD, List.getElem?_set] at free ⊢
    split
    next same =>
      split
      next => exact cstop
      next out =>
        rw [← same, List.getElem?_eq_none (Nat.le_of_not_lt out)] at free
        exact free
    next => exact free
  buffers g member := by
    by_cases inside : i < p.txDescriptors.length
    · rcases List.mem_or_eq_of_mem_set member with old | rfl
      · exact ⟨g, old, rfl⟩
      · refine ⟨p.txDescriptors.getD i default, ?_, by rw [buffer]⟩
        rw [List.getD_eq_getElem?_getD, List.getElem?_eq_getElem inside]
        exact List.getElem_mem inside
    · rw [List.set_eq_of_length_le (Nat.le_of_not_lt inside)] at member
      exact ⟨g, member, rfl⟩

theorem frees_retire (p : TxPort) : Frees p (p.retire mem) :=
  frees_set p _ _ (by simp [sentFrame]) rfl

private theorem frees_fifoWriteLoop (tfcnt passes : Nat) (p : TxPort) (s : Filling) :
    Frees p (fifoWriteLoop mem tfcnt passes p s).1 := by
  induction passes generalizing p s with
  | zero => exact .refl p
  | succ passes ih =>
    rw [fifoWriteLoop]
    dsimp only
    split
    next => exact .refl p
    next => exact (frees_retire mem p).trans (ih _ _)

private theorem frees_oframeWorker (cfg : PortConfig) (p : TxPort) (d : δ) :
    Frees p (oframeWorker dev cfg mem p d).1 := by
  have filled : Frees p (fifoWriteData dev mem p d).2.1 := by
    unfold fifoWriteData
    dsimp only
    split
    next => exact .refl p
    next =>
      split
      next => exact .refl p
      next => exact frees_fifoWriteLoop mem _ _ _ _
  unfold oframeWorker ioTransmitFrame
  dsimp only
  split
  next => exact .refl p
  next =>
    split
    next => exact filled
    next => exact filled

/-- The `k` descriptors from `user_tx_desc` on are free. -/
def FreeRun (p : TxPort) (k : Nat) : Prop :=
  ∀ j < k, (p.txDescriptors.getD (Ring.slot mem.txNum p.userTxDesc j) default).cstop = true

variable {mem}

theorem FreeRun.of_frees {p q : TxPort} {k : Nat} (run : FreeRun mem p k) (frees : Frees p q) :
    FreeRun mem q k := by
  intro j inside
  rw [frees.user]
  exact frees.cstop _ (run j inside)

theorem TxPort.Sized.of_frees {p q : TxPort} (sized : p.Sized mem) (frees : Frees p q) :
    q.Sized mem where
  size := frees.size.trans sized.size
  user_lt := by rw [frees.user]; exact sized.user_lt
  buffers f member := by
    obtain ⟨g, member, same⟩ := frees.buffers f member
    exact same.trans (sized.buffers g member)

private theorem TxPort.Sized.reset {p : TxPort} (sized : p.Sized mem) :
    (resetTx p).Sized mem ∧ FreeRun mem (resetTx p) mem.txNum := by
  refine ⟨⟨by simp [resetTx, sized.size], mem.txNum_pos, ?_⟩, fun j _ => ?_⟩
  · simpa [resetTx, purgedTxFrame] using sized.buffers
  · have inside : Ring.slot mem.txNum 0 j < p.txDescriptors.length := by
      rw [sized.size]
      exact Ring.slot_lt mem.txNum_pos
    simp [resetTx, List.getD_eq_getElem?_getD, List.getElem?_eq_getElem inside, purgedTxFrame]

private theorem le_length_takeWhile (l : List IoFrame) {k : Nat} (le : k ≤ l.length)
    (cstop : ∀ j < k, (l.getD j default).cstop = true) :
    k ≤ (l.takeWhile IoFrame.cstop).length := by
  induction l generalizing k with
  | nil => exact le
  | cons f l ih =>
    cases k with
    | zero => exact Nat.zero_le _
    | succ k =>
      have first : f.cstop = true := cstop 0 (Nat.zero_lt_succ k)
      rw [List.takeWhile_cons, if_pos first]
      exact Nat.succ_le_succ (ih (Nat.le_of_succ_le_succ le) fun j inside =>
        cstop (j + 1) (Nat.succ_lt_succ inside))

/-- A run of free descriptors is room. -/
theorem FreeRun.space {p : TxPort} {k : Nat} (run : FreeRun mem p k) (sized : p.Sized mem)
    (le : k ≤ mem.txNum) : k * mem.txSize ≤ userGetTxSpace mem p := by
  rw [userGetTxSpace_eq mem sized.size sized.user_lt]
  refine Nat.mul_le_mul_right _ (le_length_takeWhile _ (by simpa [sized.size] using le) ?_)
  intro j inside
  rw [← Ring.getD_slot default (by rw [sized.size]; omega), sized.size]
  exact run j inside

/-! ### The call -/

/-- The result of a call that has one. -/
def Phase.result : Phase → Option (Except Errno Nat)
  | .leave r | .finish r | .done r => some r
  | _ => none

/-- How a write can move on. -/
inductive WriteMove : Phase → Observation → Phase → Prop
  | found : WriteMove .check (.condition true) .clock
  | clock (seen : Observation) : WriteMove .clock seen .act
  | act (r : Except Errno Nat) : WriteMove .act (.result r) (.leave r)
  | ending {phase phase' : Phase} {seen : Observation} {r : Except Errno Nat} :
      phase.result = some r → phase'.result = some r → WriteMove phase seen phase'
  | fail {phase : Phase} {seen : Observation} (e : Errno) :
      phase.result = none → phase ≠ .act → WriteMove phase seen (.done (.error e))
  | loop {phase phase' : Phase} {seen : Observation} :
      phase.result = none → phase ≠ .act → phase'.result = none → phase' ≠ .clock →
        phase' ≠ .act → WriteMove phase seen phase'

private theorem waitLoop_move {nonblock : Bool} {phase phase' : Phase} {seen : Observation}
    {op : SemaphoreOp} (next : waitLoop nonblock .clock phase seen = some (phase', op)) :
    WriteMove phase seen phase' := by
  unfold waitLoop at next
  split at next
  next => cases next; exact .fail _ rfl nofun
  next => cases next; exact .loop rfl nofun rfl nofun nofun
  next holds =>
    cases holds with
    | true => cases next; exact .found
    | false => cases next; exact .loop rfl nofun rfl nofun nofun
  next =>
    cases nonblock with
    | true => cases next; exact .fail _ rfl nofun
    | false => cases next; exact .loop rfl nofun rfl nofun nofun
  next holds => cases holds <;> cases next <;> exact .loop rfl nofun rfl nofun nofun
  next => cases next; exact .fail _ rfl nofun
  next => cases next; exact .loop rfl nofun rfl nofun nofun
  next => cases next

private theorem writeNext_move {count : Nat} (pos : 0 < count) {nonblock : Bool} {phase phase' : Phase}
    {seen : Observation} {op : SemaphoreOp}
    (next : writeNext mem count nonblock phase seen = some (phase', op)) :
    WriteMove phase seen phase' := by
  unfold writeNext at next
  split at next
  next =>
    cases next
    unfold writeEntry
    rw [if_neg (Nat.ne_of_gt pos)]
    split
    next => exact .fail _ rfl nofun
    next =>
      split
      next => exact .fail _ rfl nofun
      next => exact .loop rfl nofun rfl nofun nofun
  next stalled =>
    cases stalled with
    | true => cases next; exact .fail _ rfl nofun
    | false => cases next; exact .clock _
  next => cases next; exact .act _
  next => cases next; exact .ending rfl rfl
  next => cases next; exact .ending rfl rfl
  next => exact waitLoop_move next

/-- A scan has counted free descriptors. A purge in its midst leaves all of them free. -/
structure TxScan.Ok (mem : Memory) (p : TxPort) (scan : TxScan) : Prop where
  le : scan.i ≤ mem.txNum
  space : scan.space = scan.i * mem.txSize
  run : FreeRun mem p scan.i
  cur : scan.curDesc = Ring.slot mem.txNum p.userTxDesc scan.i ∨ FreeRun mem p mem.txNum

/-- A step of the scan keeps to what is free. -/
theorem TxScan.Ok.next {p : TxPort} {scan : TxScan} (ok : scan.Ok mem p) (inside : scan.i < mem.txNum)
    (cstop : (p.txDescriptors.getD scan.curDesc default).cstop = true) :
    TxScan.Ok mem p
      ⟨scan.i + 1, Ring.next mem.txNum scan.curDesc, CInt.addSize scan.space mem.txSize⟩ := by
  have bound := mem.tx_fits
  have le : scan.i * mem.txSize ≤ mem.txNum * mem.txSize := Nat.mul_le_mul_right _ ok.le
  have size := mem.txSize_le
  refine ⟨inside, ?_, fun j bound => ?_, ?_⟩
  · dsimp only
    rw [ok.space, CInt.addSize_eq (by omega), Nat.succ_mul]
  · rcases Nat.lt_succ_iff_lt_or_eq.mp bound with earlier | rfl
    · exact ok.run j earlier
    · rcases ok.cur with cur | all
      · rw [← cur]
        exact cstop
      · exact all _ inside
  · rcases ok.cur with cur | all
    · refine .inl ?_
      dsimp only
      rw [cur]
      exact Ring.next_slot mem.txNum_pos
    · exact .inr all

/-- What `fscc_user_write_frame` has done to the ring. -/
def Handed (mem : Memory) (call : WriteCall) (before after : TxPort) : Prop :=
  if call.alloc then Queues mem before after (copyFromUser call.buf call.unmovedBytes)
  else after = before

theorem Handed.sized {call : WriteCall} {before after : TxPort}
    (handed : Handed mem call before after)
    (sized : before.Sized mem) : after.Sized mem := by
  unfold Handed at handed
  split at handed
  next =>
    obtain ⟨used, others, written, view, -, carried, -, size, -, user, view'⟩ := handed
    refine ⟨size, by rw [user]; exact Ring.slot_lt mem.txNum_pos, fun f member => ?_⟩
    rw [← Ring.mem_view (i := after.userTxDesc), view'] at member
    rcases List.mem_append.mp member with old | new
    · refine sized.buffers f (Ring.mem_view (i := before.userTxDesc).mp ?_)
      rw [view]
      exact List.mem_append_right _ old
    · exact (Carries.of_mem mem carried f new).2
  next =>
    rw [handed]
    exact sized

structure WriteRun.Inv (mem : Memory) (call : WriteCall) (s : WriteRun) : Prop where
  sized : s.port.Sized mem
  untouched : s.queuing = none → s.port = s.alone
  idle : s.scanning = false → s.scan = none
  scan : ∀ scan ∈ s.scan, scan.Ok mem s.port
  room : s.phase = .clock ∨ s.phase = .act →
    ∃ k ≤ mem.txNum, FreeRun mem s.port k ∧ call.buf.length ≤ k * mem.txSize
  pending : s.phase.result = none → s.queuing = none
  outcome : ∀ r, s.phase.result = some r →
    (s.queuing = none ∧ ∃ e, r = .error e) ∨
    ∃ before after, s.queuing = some (before, after) ∧ r = .ok call.buf.length ∧
      before.Sized mem ∧ Handed mem call before after

namespace WriteRun.Inv

variable {cfg : PortConfig} {call : WriteCall} {s t : WriteRun}

private theorem initial (init : (writeMachine dev mem cfg call).init s) : s.Inv mem call := by
  obtain ⟨sized, alone, entry, scan, queuing⟩ := init
  refine ⟨sized, fun _ => alone.symm, fun _ => scan, by simp [scan], ?_, fun _ => queuing, ?_⟩
  · rw [entry]
    rintro (clock | act)
    · cases clock
    · cases act
  · rw [entry]
    intro r result
    cases result

/-- A move of the call that leaves the ring alone. -/
private theorem move (h : s.Inv mem call) {seen : Observation} {phase : Phase}
    (move : WriteMove s.phase seen phase) (idle : s.phase ≠ .act)
    (found : phase = .clock →
      ∃ k ≤ mem.txNum, FreeRun mem s.port k ∧ call.buf.length ≤ k * mem.txSize) :
    WriteRun.Inv mem call { s with phase := phase, scan := none } := by
  refine ⟨h.sized, h.untouched, fun _ => rfl, nofun, ?_, ?_, ?_⟩
  -- The phases at which the call has found its room.
  · rintro (clock | act)
    · exact found clock
    · dsimp only at act
      generalize eq : s.phase = before at move idle
      cases move with
      | found => cases act
      | clock => exact h.room (.inl eq)
      | act => cases act
      | ending _ result =>
        rw [act] at result
        cases result
      | fail => cases act
      | loop _ _ _ _ other => exact absurd act other
  -- As long as there is no result, nothing has been queued.
  · intro none_
    dsimp only at none_
    generalize eq : s.phase = before at move idle
    cases move with
    | found => exact h.pending (by rw [eq]; rfl)
    | clock => exact h.pending (by rw [eq]; rfl)
    | act => exact absurd rfl idle
    | ending _ result =>
      rw [none_] at result
      cases result
    | fail => cases none_
    | loop before => exact h.pending (by rw [eq]; exact before)
  -- A result is that of the work, or an error before it.
  · intro r result
    dsimp only at result
    generalize eq : s.phase = before at move idle
    cases move with
    | found => cases result
    | clock => cases result
    | act => exact absurd rfl idle
    | ending before after =>
      rw [after] at result
      cases result
      exact h.outcome _ (by rw [eq]; exact before)
    | fail e before =>
      cases result
      exact .inl ⟨h.pending (by rw [eq]; exact before), e, rfl⟩
    | loop _ _ after =>
      rw [after] at result
      cases result

private theorem advance (h : s.Inv mem call) (pos : 0 < call.buf.length) {seen : Observation}
    {step : Phase × SemaphoreOp} (idle : s.scanning = false) (act : s.phase ≠ .act)
    (next : writeNext mem call.buf.length call.nonblock s.phase seen = some step) :
    WriteRun.Inv mem call { s with phase := step.1 } := by
  have moved := writeNext_move pos next
  have after := h.move moved act fun clock => by
    rw [clock] at moved
    generalize eq : s.phase = before at moved
    cases moved with
    | found => simp [WriteRun.scanning, eq] at idle
    | ending _ result => cases result
    | loop _ _ _ other => exact absurd rfl other
  rw [← h.idle idle] at after
  exact after

private theorem load (h : s.Inv mem call) (pos : 0 < call.buf.length) (scanning : s.scanning = true)
    (loaded : s.load mem call = some t) : t.Inv mem call := by
  -- The scan runs in the two phases that check for room.
  have working : s.phase = .check ∨ s.phase = .wait := by
    simpa [WriteRun.scanning] using scanning
  have before : s.phase.result = none := by rcases working with eq | eq <;> rw [eq] <;> rfl
  have still (scan : TxScan) (ok : scan.Ok mem s.port) :
      WriteRun.Inv mem call { s with scan := some scan } := by
    refine ⟨h.sized, h.untouched, fun idle => ?_, fun x member => ?_, h.room, h.pending, h.outcome⟩
    · rw [show WriteRun.scanning { s with scan := some scan } = s.scanning from rfl, scanning] at idle
      cases idle
    · cases member
      exact ok
  unfold WriteRun.load at loaded
  split at loaded
  -- The scan begins at the descriptor the user writes to.
  next =>
    cases loaded
    refine still _ ⟨Nat.zero_le _, (Nat.zero_mul _).symm, nofun, .inl ?_⟩
    exact (Ring.slot_zero h.sized.user_lt).symm
  next scan eq =>
    have ok := h.scan scan eq
    split at loaded
    -- A free descriptor more is added to the space.
    next more =>
      obtain ⟨inside, cstop⟩ := more
      cases loaded
      exact still _ (ok.next inside cstop)
    -- The scan ends, and the phase moves by what it has counted.
    next =>
      obtain ⟨step, next, rfl⟩ := Option.map_eq_some_iff.mp loaded
      have moved := writeNext_move pos next
      refine h.move moved (by rcases working with eq | eq <;> rw [eq] <;> nofun) fun clock => ?_
      rw [clock] at moved
      generalize s.phase = phase at moved before
      generalize seen : Observation.condition _ = cond at moved
      cases moved with
      | found =>
        simp only [Observation.condition.injEq, decide_eq_true_eq] at seen
        exact ⟨scan.i, ok.le, ok.run, by rw [← ok.space]; exact seen⟩
      | ending result =>
        rw [before] at result
        cases result
      | loop _ _ _ other => exact absurd rfl other

private theorem queue (h : s.Inv mem call) (pos : 0 < call.buf.length) (act : s.phase = .act) {d : δ}
    (queued : s.queue dev mem cfg call d = some t) : t.Inv mem call := by
  obtain ⟨k, le, run, enough⟩ := h.room (.inr act)
  have room := enough.trans (run.space h.sized le)
  -- The room that was found is still there, so that the work queues the frame.
  have done : (userWriteFrame dev cfg mem call.alloc call.unmovedBytes call.buf s.port d).1 =
        .ok () ∧
      Handed mem call s.port
        (userWriteFrame dev cfg mem call.alloc call.unmovedBytes call.buf s.port d).2.1 := by
    unfold Handed
    cases alloc : call.alloc with
    | false => exact ⟨rfl, rfl⟩
    | true =>
      exact userWriteFrame_queues dev cfg h.sized.size h.sized.user_lt h.sized.buffers pos room _ d
  unfold WriteRun.queue at queued
  obtain ⟨step, next, rfl⟩ := Option.map_eq_some_iff.mp queued
  have idle := h.idle (by simp [WriteRun.scanning, act])
  rw [act, done.1] at next
  cases next
  refine ⟨done.2.sized h.sized, nofun, fun _ => idle, by simp [idle], ?_, nofun,
    fun r result => ?_⟩
  · rintro (clock | act')
    · cases clock
    · cases act'
  · cases result
    exact .inr ⟨_, _, rfl, rfl, h.sized, done.2⟩

/-- Other parties that keep what the call has found out. -/
private theorem others (h : s.Inv mem call) {f : TxPort → TxPort}
    (sized : ∀ p : TxPort, p.Sized mem → (f p).Sized mem)
    (run : ∀ p k, p.Sized mem → k ≤ mem.txNum → FreeRun mem p k → FreeRun mem (f p) k)
    (cur : ∀ p : TxPort, p.Sized mem →
      (f p).userTxDesc = p.userTxDesc ∨ FreeRun mem (f p) mem.txNum) :
    WriteRun.Inv mem call { s with port := f s.port, alone := f s.alone } := by
  refine ⟨sized _ h.sized, fun none_ => congrArg f (h.untouched none_), h.idle,
    fun scan member => ?_, fun place => ?_, h.pending, h.outcome⟩
  · have ok := h.scan scan member
    refine ⟨ok.le, ok.space, run _ _ h.sized ok.le ok.run, ?_⟩
    rcases cur s.port h.sized with same | all
    · rw [same]
      exact ok.cur.imp id fun all => run _ _ h.sized (Nat.le_refl _) all
    · exact .inr all
  · obtain ⟨k, le, free, enough⟩ := h.room place
    exact ⟨k, le, run _ _ h.sized le free, enough⟩

private theorem step {e : WriteEvent δ} (pos : 0 < call.buf.length) (h : s.Inv mem call)
    (stepped : (writeMachine dev mem cfg call).step s e = some t) : t.Inv mem call := by
  cases e with
  | advance seen =>
    obtain ⟨place, eq⟩ := Option.ite_none_left_eq_some.mp stepped
    obtain ⟨step, next, rfl⟩ := Option.map_eq_some_iff.mp eq
    rw [not_or] at place
    exact h.advance pos (by simpa using place.1) place.2 next
  | load =>
    obtain ⟨scanning, eq⟩ := Option.ite_none_right_eq_some.mp stepped
    exact h.load pos scanning eq
  | queue d =>
    obtain ⟨act, eq⟩ := Option.ite_none_right_eq_some.mp stepped
    exact h.queue dev pos act eq
  | tasklet d =>
    obtain rfl := Option.some.inj stepped
    exact h.others (fun p sized => sized.of_frees (frees_oframeWorker dev mem cfg p d))
      (fun p k _ _ run => run.of_frees (frees_oframeWorker dev mem cfg p d))
      fun p _ => .inl (frees_oframeWorker dev mem cfg p d).user
  | purge d =>
    obtain rfl := Option.some.inj stepped
    exact h.others (f := resetTx) (fun p sized => sized.reset.1)
      (fun p k sized le _ j inside => sized.reset.2 j (Nat.lt_of_lt_of_le inside le))
      fun p sized => .inr sized.reset.2

end WriteRun.Inv

/-! ### The outcome -/

private theorem copyFromUser_eq_iff (buf : List UInt8) (unmovedBytes : Nat) :
    copyFromUser buf unmovedBytes = buf ↔ ∀ b ∈ buf.drop (buf.length - unmovedBytes), b = 0 := by
  have whole := List.take_append_drop (buf.length - unmovedBytes) buf
  constructor
  · intro same b member
    rw [copyFromUser] at same
    have tail := List.append_cancel_left (same.trans whole.symm)
    rw [← tail] at member
    exact List.eq_of_mem_replicate member
  · intro zero
    have tail := List.eq_replicate_iff.mpr ⟨List.length_drop, zero⟩
    rw [copyFromUser, ← tail]
    exact whole

private theorem length_pieces (frame : List UInt8) :
    (pieces mem frame).length = (frame.length + mem.txSize - 1) / mem.txSize := by
  rw [pieces, length_piecesOf, Chunks.length_split mem.txSize_pos]

/-- What is queued between two rings is determined by them, given its length. -/
private theorem queues_unique {p q : TxPort} {frame frame' : List UInt8}
    (queues : Queues mem p q frame) (queues' : Queues mem p q frame')
    (length : frame.length = frame'.length) : frame = frame' := by
  obtain ⟨used, others, written, -, -, carried, -, -, -, -, view⟩ := queues
  obtain ⟨used', others', written', -, -, carried', -, -, -, -, view'⟩ := queues'
  have same : written.length = written'.length := by
    rw [carried.length_eq, carried'.length_eq, length_pieces, length_pieces, length]
  rw [view] at view'
  have eq := (List.append_inj' view' same).2
  have data := Carries.data_of_mem mem carried
  rw [eq, ← Carries.data_of_mem mem carried'] at data
  rw [← flatMap_data_pieces mem frame, ← flatMap_data_pieces mem frame',
    List.flatMap_def, data, ← List.flatMap_def]

/-- A ring left as it was has nothing queued in it. -/
private theorem not_queues_self {p : TxPort} (sized : p.Sized mem) {frame : List UInt8}
    (pos : 0 < frame.length) : ¬ Queues mem p p frame := by
  rintro ⟨used, others, written, view, cstop, carried, same, -, -, user, view'⟩
  have some_ : 0 < written.length := by
    rw [carried.length_eq, length_pieces]
    exact Nat.div_pos (by omega) mem.txSize_pos
  have total := congrArg List.length view
  rw [Ring.length_view, sized.size, List.length_append] at total
  rcases Nat.lt_or_ge used.length mem.txNum with less | all
  · have start := user
    rw [← Ring.slot_zero sized.user_lt] at start
    rw [Ring.slot_slot, Nat.zero_add] at start
    have none_ := (Ring.slot_inj mem.txNum_pos less).mp start
    omega
  · obtain rfl := List.length_eq_zero_iff.mp (by omega : others.length = 0)
    rw [view, List.append_nil, List.nil_append] at view'
    obtain ⟨f, member⟩ := List.exists_mem_of_length_pos some_
    have closed := cstop f (by rw [view']; exact member)
    rw [(Carries.of_mem mem carried f member).1] at closed
    cases closed

/-- A write of `count > 0` bytes that has returned was all or nothing exactly if its
`fscc_user_write_frame`, when it came to that, had its memory and lost no byte in the copy. -/
theorem write_all_or_nothing (cfg : PortConfig) (call : WriteCall) (pos : 0 < call.buf.length)
    {s : WriteRun} (reached : (writeMachine dev mem cfg call).Reached s)
    {result : Except Errno Nat} (returned : s.phase = .done result) :
    AllOrNothing mem call s result ↔ (s.queuing ≠ none → call.Moved) := by
  have inv := reached.invariant (P := WriteRun.Inv mem call) (fun _ => .initial dev)
    fun _ _ _ h stepped => h.step dev pos stepped
  rcases inv.outcome result (by rw [returned]; rfl) with
    ⟨none_, e, rfl⟩ | ⟨before, after, queuing, rfl, sized, handed⟩
  · exact ⟨fun _ some_ => absurd none_ some_, fun _ => inv.untouched none_⟩
  · have whole : AllOrNothing mem call s (.ok call.buf.length) ↔
        Queues mem before after call.buf := by
      simp [AllOrNothing, queuing]
    have came : (s.queuing ≠ none → call.Moved) ↔ call.Moved := by simp [queuing]
    rw [whole, came, WriteCall.Moved, ← copyFromUser_eq_iff]
    unfold Handed at handed
    split at handed
    next alloc =>
      constructor
      · exact fun queues => ⟨alloc, queues_unique handed queues (length_copyFromUser _ _)⟩
      · rintro ⟨-, same⟩
        rwa [same] at handed
    next alloc =>
      rw [handed]
      exact ⟨fun queues => absurd queues (not_queues_self sized pos),
        fun moved => absurd moved.1 alloc⟩

/-- A write before its first step, to a fresh ring. -/
def beforeWrite : WriteRun :=
  ⟨freshTx .small [4096, 8192], freshTx .small [4096, 8192], .entry, none, none⟩

/-- A write runs from its entry to its return, unhindered. -/
def straight : List (WriteEvent (BitVec 32)) :=
  [.advance (.condition false), .advance .go, .load, .load, .load, .load,
    .advance (.condition false), .queue 0#32, .advance .go, .advance .go]

private theorem beforeWrite_init (call : WriteCall) :
    (writeMachine constant .small fifoConfig call).init beforeWrite := by
  refine ⟨⟨rfl, by decide, by decide⟩, rfl, rfl, rfl, rfl⟩

/-- Five bytes are queued in two descriptors. -/
theorem write_all_or_nothing_five :
    ∃ s, (writeMachine constant .small fifoConfig ⟨[1, 2, 3, 4, 5], false, true, 0⟩).replay
        beforeWrite straight = some s ∧
      (AllOrNothing .small ⟨[1, 2, 3, 4, 5], false, true, 0⟩ s (.ok 5) ↔
        (s.queuing ≠ none → (⟨[1, 2, 3, 4, 5], false, true, 0⟩ : WriteCall).Moved)) := by
  obtain ⟨s, replayed, returned⟩ : ∃ s, (writeMachine constant .small fifoConfig
      ⟨[1, 2, 3, 4, 5], false, true, 0⟩).replay beforeWrite straight = some s ∧
      s.phase = .done (.ok 5) := ⟨_, rfl, rfl⟩
  exact ⟨s, replayed, write_all_or_nothing constant fifoConfig _ (by decide)
    (.replay (.init (beforeWrite_init _)) straight replayed) returned⟩

/-- Without memory for the copy the write returns its count and has queued nothing. -/
theorem write_count_for_nothing :
    ∃ s, (writeMachine constant .small fifoConfig ⟨[1, 2, 3, 4, 5], false, false, 0⟩).Reached s ∧
      s.phase = .done (.ok 5) ∧ s.port = beforeWrite.port ∧
      ¬ AllOrNothing .small ⟨[1, 2, 3, 4, 5], false, false, 0⟩ s (.ok 5) := by
  have run : ∃ s, (writeMachine constant .small fifoConfig
      ⟨[1, 2, 3, 4, 5], false, false, 0⟩).replay beforeWrite straight = some s ∧
      s.phase = .done (.ok 5) ∧ s.port = beforeWrite.port ∧
      s.queuing = some (beforeWrite.port, beforeWrite.port) := ⟨_, rfl, rfl, rfl, rfl⟩
  obtain ⟨s, replayed, returned, same, queuing⟩ := run
  refine ⟨s, .replay (.init (beforeWrite_init _)) straight replayed, returned, same, ?_⟩
  rintro ⟨-, before, after, eq, queues⟩
  rw [queuing] at eq
  cases eq
  exact not_queues_self (beforeWrite_init ⟨[1, 2, 3, 4, 5], false, false, 0⟩).1 (by decide) queues

end Fscc
