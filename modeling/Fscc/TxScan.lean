import Fscc.WriteOutcome

/-!
# The scan for room and the ring's spinlock

Writers come one after the other, as `write_semaphore` has it. `fscc_user_get_tx_space` takes no
spinlock: between two of its loads the tasklet or a purge may hold it and be anywhere in its own
pass over the ring. What a scan has counted is free all the same when its writer comes to queue.
-/

namespace Fscc

variable {δ : Type} (dev : Device δ) (cfg : PortConfig) (mem : Memory)

/-! ### The parties -/

/-- Who holds `board_tx_spinlock`, and how far it has come: `fscc_fifo_write_data` with the passes
it has left, or `fscc_io_purge_tx` with the descriptors it has reset. -/
inductive TxHolder where
  | fill (tfcnt passes : Nat) (s : Filling)
  | purge (i : Nat)
deriving DecidableEq, Repr

/-- Who holds `write_semaphore`: nobody, a `fscc_write` in its scan, or one whose scan has found
room for its buffer. -/
inductive ScanWriter where
  | idle
  | scanning (buf : List UInt8) (scan : Option TxScan)
  | ready (buf : List UInt8)
deriving DecidableEq, Repr

/-- The transmit ring, the holder of its spinlock and the writer. -/
structure ScanSystem where
  port : TxPort
  holder : Option TxHolder
  writer : ScanWriter
deriving DecidableEq, Repr

/-- A writer enters, makes a load of its scan, gives up, or calls `fscc_user_write_frame`; the
tasklet or a purge begins; or the one that holds the spinlock goes on. -/
inductive ScanEvent (δ : Type) where
  | enter (buf : List UInt8)
  | load
  | giveUp
  | write (alloc : Bool) (unmovedBytes : Nat) (d : δ)
  | tasklet (d : δ)
  | purge
  | hold

/-- `fscc_fifo_write_data` up to its spinlock: TFCNT and `fifo_space`, if it goes on. -/
def fillStart (d : δ) : Option (Nat × Nat) :=
  let tfcnt := ioGetTFCNT dev d
  if 254 < tfcnt.1 then none
  else
    let fifoSpace := fifoSpaceFor (ioGetTXCNT dev tfcnt.2).1
    if txFifoSize < fifoSpace then none else some (tfcnt.1, fifoSpace)

/-- The holder's work on one descriptor, or the last of it and the unlock. -/
def TxHolder.next (p : TxPort) : TxHolder → TxPort × Option TxHolder
  | .fill _ 0 _ => (p, none)
  | .fill tfcnt (passes + 1) s =>
    if fillStops tfcnt p.fifoFrame s then (p, none)
    else (p.retire mem, some (.fill tfcnt passes (fillStep p.fifoFrame s)))
  | .purge i =>
    if i < mem.txNum then
      ({ p with
          txDescriptors := p.txDescriptors.set i (purgedTxFrame (p.txDescriptors.getD i default)) },
        some (.purge (i + 1)))
    else ({ p with userTxDesc := 0, fifoTxDesc := 0 }, none)

/-- A load of `user_tx_desc`, a load of a descriptor's control word, or the end of the scan and the
condition of `fscc_write`. -/
def scanLoad (p : TxPort) (buf : List UInt8) : Option TxScan → ScanWriter
  | none => .scanning buf (some ⟨0, p.userTxDesc, 0⟩)
  | some scan =>
    if scan.i < mem.txNum ∧ (p.txDescriptors.getD scan.curDesc default).cstop then
      .scanning buf
        (some ⟨scan.i + 1, Ring.next mem.txNum scan.curDesc, CInt.addSize scan.space mem.txSize⟩)
    else if buf.length ≤ scan.space then .ready buf
    else .idle

/-- A port in FIFO mode. A writer that finds too little room leaves, and may enter again. -/
def scanMachine : Machine ScanSystem (ScanEvent δ) where
  init s := s.port.Sized mem ∧ s.holder = none ∧ s.writer = .idle
  step s
    | .enter buf =>
      if s.writer = .idle ∧ writeEntry mem buf.length false = .down
      then some { s with writer := .scanning buf none } else none
    | .load =>
      match s.writer with
      | .scanning buf scan => some { s with writer := scanLoad mem s.port buf scan }
      | _ => none
    | .giveUp => some { s with writer := .idle }
    | .write alloc unmovedBytes d =>
      match s.writer, s.holder with
      -- The spinlock is free, so that the write is one step.
      | .ready buf, none =>
        some { s with
          port := (userWriteFrame dev cfg mem alloc unmovedBytes buf s.port d).2.1
          writer := .idle }
      | _, _ => none
    | .tasklet d =>
      if s.holder = none then
        some { s with
          holder := (fillStart dev d).map fun start => .fill start.1 mem.txNum ⟨start.2, 0, false⟩ }
      else none
    | .purge => if s.holder = none then some { s with holder := some (.purge 0) } else none
    | .hold =>
      match s.holder with
      | some holder =>
        some { s with port := (holder.next mem s.port).1, holder := (holder.next mem s.port).2 }
      | none => none

/-! ### The passes are those of `fscc_fifo_write_data` and `fscc_io_purge_tx` -/

variable {s t : ScanSystem}

private theorem step_hold {holder : TxHolder} (held : s.holder = some holder) :
    (scanMachine dev cfg mem).step s .hold =
      some { s with port := (holder.next mem s.port).1, holder := (holder.next mem s.port).2 } := by
  simp only [scanMachine, held]

/-- Left alone, the tasklet does to the ring what its loop does. -/
private theorem fill_run (tfcnt passes : Nat) (f : Filling)
    (held : s.holder = some (.fill tfcnt passes f)) :
    ∃ k, (scanMachine dev cfg mem).replay s (List.replicate k .hold) =
      some { s with port := (fifoWriteLoop mem tfcnt passes s.port f).1, holder := none } := by
  -- Induction on the passes of the loop, each of which is one step of the holder.
  induction passes generalizing s f with
  | zero =>
    refine ⟨1, ?_⟩
    rw [List.replicate_one, Machine.replay, step_hold dev cfg mem held]
    rfl
  | succ passes ih =>
    by_cases stops : fillStops tfcnt s.port.fifoFrame f = true
    · refine ⟨1, ?_⟩
      rw [List.replicate_one, Machine.replay, step_hold dev cfg mem held, TxHolder.next,
        if_pos stops, fifoWriteLoop]
      dsimp only
      rw [if_pos stops]
      rfl
    · obtain ⟨k, replayed⟩ := ih (s := { s with
        port := s.port.retire mem
        holder := some (.fill tfcnt passes (fillStep s.port.fifoFrame f)) }) _ rfl
      refine ⟨k + 1, ?_⟩
      rw [List.replicate_succ, Machine.replay, step_hold dev cfg mem held, TxHolder.next,
        if_neg stops, fifoWriteLoop]
      dsimp only
      rw [if_neg stops]
      exact replayed

/-- Left alone, a tasklet does to the ring what `oframe_worker` does in FIFO mode. -/
theorem tasklet_run (fifo : cfg.isDma = false) (unlocked : s.holder = none) (d : δ) :
    ∃ k, (scanMachine dev cfg mem).replay s (.tasklet d :: List.replicate k .hold) =
      some { s with port := (oframeWorker dev cfg mem s.port d).1 } := by
  have worked : (oframeWorker dev cfg mem s.port d).1 = (fifoWriteData dev mem s.port d).2.1 := by
    unfold oframeWorker ioTransmitFrame
    rw [fifo, if_neg Bool.false_ne_true]
    dsimp only
    split
    next => rfl
    next => rfl
  have filled : (fifoWriteData dev mem s.port d).2.1 =
      match fillStart dev d with
      | none => s.port
      | some start => (fifoWriteLoop mem start.1 mem.txNum s.port ⟨start.2, 0, false⟩).1 := by
    -- Both counters are read first, and either may end the call before its loop.
    unfold fifoWriteData fillStart
    dsimp only
    by_cases many : 254 < (ioGetTFCNT dev d).1
    · rw [if_pos many, if_pos many]
    · rw [if_neg many, if_neg many]
      by_cases wrapped : txFifoSize < fifoSpaceFor (ioGetTXCNT dev (ioGetTFCNT dev d).2).1
      · rw [if_pos wrapped, if_pos wrapped]
      · rw [if_neg wrapped, if_neg wrapped]
  cases start : fillStart dev d with
  | none =>
    refine ⟨0, ?_⟩
    rw [worked, filled, start]
    simp [Machine.replay, scanMachine, unlocked, start]
  | some start' =>
    obtain ⟨k, replayed⟩ := fill_run dev cfg mem
      (s := { s with holder := some (.fill start'.1 mem.txNum ⟨start'.2, 0, false⟩) }) _ _ _ rfl
    refine ⟨k, ?_⟩
    rw [worked, filled, start, Machine.replay]
    simp only [scanMachine, unlocked, start, if_true, Option.map_some, Option.bind_some]
      at replayed ⊢
    exact replayed

/-- Left alone, a purge does to the ring what `fscc_io_purge_tx` does. -/
theorem purge_run (size : s.port.txDescriptors.length = mem.txNum) (unlocked : s.holder = none) :
    (scanMachine dev cfg mem).replay s (.purge :: List.replicate (mem.txNum + 1) .hold) =
      some { s with port := resetTx s.port } := by
  -- the descriptors behind `i` are reset, those from `i` on are as they were
  have resets (k i : Nat) (sum : i + k = mem.txNum) (s' : ScanSystem)
      (held : s'.holder = some (.purge i)) (writer : s'.writer = s.writer)
      (ring : s'.port.txDescriptors =
        (s.port.txDescriptors.take i).map purgedTxFrame ++ s.port.txDescriptors.drop i) :
      (scanMachine dev cfg mem).replay s' (List.replicate (k + 1) .hold) =
        some { s with port := resetTx s.port } := by
    induction k generalizing i s' with
    | zero =>
      have last : ¬i < mem.txNum := by omega
      have all : s.port.txDescriptors.length ≤ i := by omega
      rw [List.take_of_length_le all, List.drop_of_length_le all, List.append_nil] at ring
      rw [List.replicate_one, Machine.replay, step_hold dev cfg mem held, TxHolder.next,
        if_neg last]
      simp only [Option.bind_some, Machine.replay, ring, writer, unlocked, resetTx]
    | succ k ih =>
      have more : i < mem.txNum := by omega
      have inside : i < s.port.txDescriptors.length := by omega
      rw [List.replicate_succ, Machine.replay, step_hold dev cfg mem held, TxHolder.next,
        if_pos more]
      refine ih (i + 1) (by omega)
        ⟨{ s'.port with
            txDescriptors := s'.port.txDescriptors.set i
              (purgedTxFrame (s'.port.txDescriptors.getD i default)) },
          some (.purge (i + 1)), s'.writer⟩ rfl writer ?_
      have split : s'.port.txDescriptors = (s.port.txDescriptors.take i).map purgedTxFrame ++
          s.port.txDescriptors[i] :: s.port.txDescriptors.drop (i + 1) := by
        rw [ring, List.drop_eq_getElem_cons inside]
      have length : ((s.port.txDescriptors.take i).map purgedTxFrame).length = i := by
        simp [Nat.le_of_lt inside]
      dsimp only
      rw [split, List.getD_eq_getElem?_getD, List.getElem?_append_right (by omega), length,
        Nat.sub_self, List.set_append_right _ _ (by omega), length, Nat.sub_self]
      rw [List.take_succ_eq_append_getElem inside, List.map_append, List.append_assoc]
      rfl
  have begins : (scanMachine dev cfg mem).step s .purge =
      some { s with holder := some (.purge 0) } := if_pos unlocked
  rw [Machine.replay, begins]
  exact resets mem.txNum 0 (by omega) { s with holder := some (.purge 0) } rfl rfl (by simp)

/-! ### What a scan has counted stays free -/

/-- What is known at any point of a run. -/
structure ScanSystem.Inv (mem : Memory) (s : ScanSystem) : Prop where
  sized : s.port.Sized mem
  purged : ∀ i, s.holder = some (.purge i) →
    i ≤ mem.txNum ∧ ∀ j < i, (s.port.txDescriptors.getD j default).cstop = true
  pos : ∀ buf, (∃ scan, s.writer = .scanning buf scan) ∨ s.writer = .ready buf → 0 < buf.length
  scan : ∀ buf scan, s.writer = .scanning buf (some scan) → scan.Ok mem s.port
  room : ∀ buf, s.writer = .ready buf →
    ∃ k ≤ mem.txNum, FreeRun mem s.port k ∧ buf.length ≤ k * mem.txSize

variable {dev cfg mem}

namespace ScanSystem.Inv

variable (h : s.Inv mem)
include h

/-- Another ring, of which at least as much is free. -/
private theorem ring {p : TxPort} {holder : Option TxHolder} (sized : p.Sized mem)
    (run : ∀ k ≤ mem.txNum, FreeRun mem s.port k → FreeRun mem p k)
    (cur : p.userTxDesc = s.port.userTxDesc ∨ FreeRun mem p mem.txNum)
    (purged : ∀ i, holder = some (.purge i) →
      i ≤ mem.txNum ∧ ∀ j < i, (p.txDescriptors.getD j default).cstop = true) :
    ScanSystem.Inv mem ⟨p, holder, s.writer⟩ where
  sized := sized
  purged := purged
  pos := h.pos
  scan := by
    intro buf scan scanning
    have ok := h.scan buf scan scanning
    refine ⟨ok.le, ok.space, run _ ok.le ok.run, ?_⟩
    rcases cur with same | all
    · rw [same]
      exact ok.cur.imp id (run _ (Nat.le_refl _))
    · exact .inr all
  room := by
    intro buf ready
    obtain ⟨k, le, free, enough⟩ := h.room buf ready
    exact ⟨k, le, run k le free, enough⟩

/-- The holder frees a descriptor, and may go on. -/
private theorem frees {p : TxPort} {holder : Option TxHolder} (freed : Frees s.port p)
    (purged : ∀ i, holder = some (.purge i) →
      i ≤ mem.txNum ∧ ∀ j < i, (p.txDescriptors.getD j default).cstop = true) :
    ScanSystem.Inv mem ⟨p, holder, s.writer⟩ := by
  apply h.ring
  · exact h.sized.of_frees freed
  · intro k _ run
    exact run.of_frees freed
  · exact .inl freed.user
  · exact purged

/-- What the holder does next. -/
private theorem hold {holder : TxHolder} (held : s.holder = some holder) :
    ScanSystem.Inv mem ⟨(holder.next mem s.port).1, (holder.next mem s.port).2, s.writer⟩ := by
  cases holder with
  | fill tfcnt passes f =>
    cases passes with
    | zero => exact h.frees (.refl _) fun _ gone => by cases gone
    | succ passes =>
      rw [TxHolder.next]
      split
      next => exact h.frees (.refl _) fun _ gone => by cases gone
      next => exact h.frees (frees_retire mem s.port) fun _ gone => by cases gone
  | purge i =>
    obtain ⟨le, free⟩ := h.purged i held
    rw [TxHolder.next]
    split
    next more =>
      apply h.frees
      · exact frees_set s.port i _ (by simp [purgedTxFrame]) rfl
      · intro j given
        obtain rfl := TxHolder.purge.inj (Option.some.inj given)
        refine ⟨more, fun j before => ?_⟩
        rw [List.getD_eq_getElem?_getD, List.getElem?_set]
        split
        next here =>
          rw [if_pos (by rw [h.sized.size]; exact more)]
          simp [purgedTxFrame]
        next other =>
          rw [← List.getD_eq_getElem?_getD]
          exact free j (by omega)
    next last =>
      -- every descriptor has been reset, so the index may be anywhere
      have all : FreeRun mem { s.port with userTxDesc := 0, fifoTxDesc := 0 } mem.txNum := by
        intro j _
        apply free
        exact Nat.lt_of_lt_of_le (Ring.slot_lt mem.txNum_pos) (Nat.le_of_not_lt last)
      apply h.ring
      · exact ⟨h.sized.size, mem.txNum_pos, h.sized.buffers⟩
      · intro k le _ j inside
        exact all j (Nat.lt_of_lt_of_le inside le)
      · exact .inr all
      · intro _ gone
        cases gone

/-- A load of the scan, or its end. -/
private theorem load {buf : List UInt8} {scan : Option TxScan}
    (scanning : s.writer = .scanning buf scan) :
    ScanSystem.Inv mem { s with writer := scanLoad mem s.port buf scan } := by
  have pos := h.pos buf (.inl ⟨scan, scanning⟩)
  cases scan with
  | none =>
    -- The scan begins at `user_tx_desc` with nothing counted.
    refine ⟨h.sized, h.purged, ?_, ?_, nofun⟩
    · rintro _ (⟨_, ⟨⟩⟩ | ⟨⟨⟩⟩)
      exact pos
    · rintro _ _ ⟨⟩
      exact ⟨Nat.zero_le _, (Nat.zero_mul _).symm, nofun, .inl (Ring.slot_zero h.sized.user_lt).symm⟩
  | some scan =>
    have ok := h.scan buf scan scanning
    rw [scanLoad]
    split
    next more =>
      refine ⟨h.sized, h.purged, ?_, ?_, nofun⟩
      · rintro _ (⟨_, ⟨⟩⟩ | ⟨⟨⟩⟩)
        exact pos
      · rintro _ _ ⟨⟩
        exact ok.next more.1 more.2
    -- The scan ends here, with enough room or without.
    next =>
      split
      next enough =>
        refine ⟨h.sized, h.purged, ?_, nofun, ?_⟩
        · rintro _ (⟨_, ⟨⟩⟩ | ⟨⟨⟩⟩)
          exact pos
        · rintro _ ⟨⟩
          exact ⟨scan.i, ok.le, ok.run, by rw [← ok.space]; exact enough⟩
      next =>
        refine ⟨h.sized, h.purged, ?_, nofun, nofun⟩
        rintro _ (⟨_, ⟨⟩⟩ | ⟨⟨⟩⟩)

/-- With the spinlock free, a writer whose scan has found room queues its buffer. -/
private theorem write {buf : List UInt8} (ready : s.writer = .ready buf) (alloc : Bool)
    (unmovedBytes : Nat)
    (d : δ) :
    (userWriteFrame dev cfg mem alloc unmovedBytes buf s.port d).1 = .ok () ∧
      Handed mem ⟨buf, false, alloc, unmovedBytes⟩ s.port
        (userWriteFrame dev cfg mem alloc unmovedBytes buf s.port d).2.1 := by
  obtain ⟨k, le, run, enough⟩ := h.room buf ready
  have room := enough.trans (run.space h.sized le)
  have pos := h.pos buf (.inr ready)
  unfold Handed
  cases alloc with
  | false => exact ⟨rfl, rfl⟩
  | true =>
    exact userWriteFrame_queues dev cfg h.sized.size h.sized.user_lt h.sized.buffers pos room _ d

private theorem step {e : ScanEvent δ} (stepped : (scanMachine dev cfg mem).step s e = some t) :
    t.Inv mem := by
  -- a writer that has left the semaphore has nothing to answer for
  have idle {p : TxPort} {holder : Option TxHolder} (sized : p.Sized mem)
      (purged : ∀ i, holder = some (.purge i) →
        i ≤ mem.txNum ∧ ∀ j < i, (p.txDescriptors.getD j default).cstop = true) :
      ScanSystem.Inv mem ⟨p, holder, .idle⟩ := by
    refine ⟨sized, purged, ?_, nofun, nofun⟩
    rintro _ (⟨_, ⟨⟩⟩ | ⟨⟨⟩⟩)
  cases e with
  | enter buf =>
    obtain ⟨⟨-, admitted⟩, eq⟩ := Option.ite_none_right_eq_some.mp stepped
    obtain rfl := Option.some.inj eq
    refine ⟨h.sized, h.purged, ?_, nofun, nofun⟩
    rintro _ (⟨_, ⟨⟩⟩ | ⟨⟨⟩⟩)
    apply Nat.pos_of_ne_zero
    intro zero
    rw [writeEntry, if_pos zero] at admitted
    cases admitted
  | load =>
    simp only [scanMachine] at stepped
    split at stepped
    next scanning =>
      obtain rfl := Option.some.inj stepped
      exact h.load scanning
    next => cases stepped
  | giveUp =>
    obtain rfl := Option.some.inj stepped
    exact idle h.sized h.purged
  | write alloc unmovedBytes d =>
    simp only [scanMachine] at stepped
    split at stepped
    next ready unlocked =>
      obtain rfl := Option.some.inj stepped
      apply idle
      · exact (h.write ready alloc unmovedBytes d).2.sized h.sized
      · rw [unlocked]
        nofun
    next => cases stepped
  | tasklet d =>
    obtain ⟨unlocked, eq⟩ := Option.ite_none_right_eq_some.mp stepped
    obtain rfl := Option.some.inj eq
    refine ⟨h.sized, ?_, h.pos, h.scan, h.room⟩
    intro i purging
    dsimp only at purging
    cases start : fillStart dev d with
    | none => rw [start] at purging; cases purging
    | some _ => rw [start] at purging; cases purging
  | purge =>
    obtain ⟨unlocked, eq⟩ := Option.ite_none_right_eq_some.mp stepped
    obtain rfl := Option.some.inj eq
    refine ⟨h.sized, ?_, h.pos, h.scan, h.room⟩
    rintro _ ⟨⟩
    exact ⟨Nat.zero_le _, nofun⟩
  | hold =>
    simp only [scanMachine] at stepped
    split at stepped
    next held =>
      obtain rfl := Option.some.inj stepped
      exact h.hold held
    next => cases stepped

end ScanSystem.Inv

/-- In every state reached, a writer whose scan has found room finds every descriptor free that it
needs: it never fails for want of room, and it queues all of its buffer, or without memory nothing
of it. -/
theorem write_never_torn {s : ScanSystem} (reached : (scanMachine dev cfg mem).Reached s)
    {buf : List UInt8} (ready : s.writer = .ready buf) (alloc : Bool) (unmovedBytes : Nat) (d : δ) :
    (userWriteFrame dev cfg mem alloc unmovedBytes buf s.port d).1 = .ok () ∧
      if alloc then
        Queues mem s.port (userWriteFrame dev cfg mem alloc unmovedBytes buf s.port d).2.1
          (copyFromUser buf unmovedBytes)
      else (userWriteFrame dev cfg mem alloc unmovedBytes buf s.port d).2.1 = s.port := by
  have inv : s.Inv mem := by
    apply reached.invariant (P := ScanSystem.Inv mem)
    · rintro s ⟨sized, unlocked, idle⟩
      refine ⟨sized, by rw [unlocked]; nofun, ?_, by rw [idle]; nofun, by rw [idle]; nofun⟩
      rw [idle]
      rintro _ (⟨_, ⟨⟩⟩ | ⟨⟨⟩⟩)
    · intro s t e h stepped
      exact h.step stepped
  exact inv.write ready alloc unmovedBytes d

/-- A fresh ring, with nobody at it. -/
def beforeScan : ScanSystem := ⟨freshTx .small [4096, 8192], none, .idle⟩

/-- A scan for eight bytes in the midst of which the ring is purged. -/
def purgedScan : List (ScanEvent (BitVec 32)) :=
  [.enter [1, 2, 3, 4, 5, 6, 7, 8], .load, .load, .purge, .hold, .load, .hold, .hold, .load]

/-- The eight bytes are queued in both descriptors. -/
theorem write_never_torn_purged :
    ∃ s, (scanMachine constant fifoConfig .small).replay beforeScan purgedScan = some s ∧
      (userWriteFrame constant fifoConfig .small true 0 [1, 2, 3, 4, 5, 6, 7, 8] s.port 0#32).1 =
        .ok () ∧
      Queues .small s.port
        (userWriteFrame constant fifoConfig .small true 0 [1, 2, 3, 4, 5, 6, 7, 8] s.port 0#32).2.1
        (copyFromUser [1, 2, 3, 4, 5, 6, 7, 8] 0) := by
  have init : (scanMachine constant fifoConfig .small).init beforeScan :=
    ⟨⟨rfl, by decide, by decide⟩, rfl, rfl⟩
  obtain ⟨s, replayed, ready⟩ : ∃ s, (scanMachine constant fifoConfig .small).replay beforeScan
      purgedScan = some s ∧ s.writer = .ready [1, 2, 3, 4, 5, 6, 7, 8] := ⟨_, rfl, rfl⟩
  exact ⟨s, replayed, write_never_torn (.replay (.init init) purgedScan replayed) ready true 0 0#32⟩

end Fscc
