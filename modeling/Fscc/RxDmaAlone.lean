import Fscc.RxDmaDelivery

/-!
# Calls by themselves

In steps, with nothing in between, a read, a stamping and a purge do what the functions of `io.c`
do in one go.
-/

namespace Fscc

open CInt

variable {δ : Type} (dev : Device δ) (mem : Memory)

/-! ### A call to its end -/

/-- From the port `p` the steps of `call`, one after the other, end with the port `q`, and hand out
`returned`. -/
inductive RxCall.Ends : RxPort → RxCall → RxPort → Option ReadCall → Prop
  | last {p q : RxPort} {call : RxCall} (d : δ) :
      call.step dev mem p d = (q, .none) → RxCall.Ends p call q (call.returns dev p d)
  | more {p q q' : RxPort} {call next : RxCall} {returned : Option ReadCall} (d : δ) :
      call.step dev mem p d = (q, next) → next ≠ .none → RxCall.Ends q next q' returned →
      RxCall.Ends p call q' returned

namespace RxCall

variable {dev mem} {p : RxPort} {settings : Settings} {bufLength : Nat}

/-- What a read that ends with a scan hands out. -/
def scanReturns (settings : Settings) (bufLength : Nat) : Option (Nat × Reading) → ReadCall
  | Option.none => ⟨settings, bufLength, .error .enobufs⟩
  | some (_, r) => ⟨settings, bufLength, .ok (r.tempData.take r.outLength)⟩

/-- A scan to its end is `fscc_user_next_read_size`. -/
private theorem ends_scan (size : p.rxDescriptors.length = mem.rxNum) (reading : Option (Nat × Reading))
    (d : δ) (passes curDesc bytes : Nat) {next : RxCall}
    (found : scanned mem settings bufLength (Ring.walk p.rxDescriptors default nextReadStep
      (fun bytes => (false, bytes)) passes curDesc bytes) reading = next) :
    (next = .none → Ends dev mem p (.scan settings bufLength passes curDesc bytes reading) p
        (some (scanReturns settings bufLength reading))) ∧
      (next ≠ .none → ∀ q returned, Ends dev mem p next q returned →
        Ends dev mem p (.scan settings bufLength passes curDesc bytes reading) q returned) := by
  have result : ∀ passes curDesc bytes,
      (RxCall.scan settings bufLength passes curDesc bytes reading).returns dev p d =
        some (scanReturns settings bufLength reading) := by
    intro passes curDesc bytes
    cases reading <;> rfl
  -- Induction on the passes: the scan steps as the walk of the function does.
  induction passes generalizing curDesc bytes with
  | zero =>
    rw [Ring.walk] at found
    have step : (RxCall.scan settings bufLength 0 curDesc bytes reading).step dev mem p d =
        (p, next) := by rw [RxCall.step, found]
    refine ⟨fun stops => ?_, fun more q returned ends => .more d step more ends⟩
    rw [stops] at step
    rw [← result 0 curDesc bytes]
    exact .last d step
  | succ passes ih =>
    rw [Ring.walk] at found
    cases seen : nextReadStep bytes (p.rxDescriptors.getD curDesc default) with
    | error last =>
      have step : (RxCall.scan settings bufLength (passes + 1) curDesc bytes reading).step dev mem p d =
          (p, scanned mem settings bufLength last reading) := by
        simp only [RxCall.step, seen]
      simp only [seen] at found
      rw [found] at step
      refine ⟨fun stops => ?_, fun more q returned ends => .more d step more ends⟩
      rw [stops] at step
      rw [← result (passes + 1) curDesc bytes]
      exact .last d step
    | ok bytes' =>
      have step : (RxCall.scan settings bufLength (passes + 1) curDesc bytes reading).step dev mem p d =
          (p, .scan settings bufLength passes (Ring.next mem.rxNum curDesc) bytes' reading) := by
        simp only [RxCall.step, seen]
      simp only [seen, size] at found
      obtain ⟨stops, goes⟩ := ih (Ring.next mem.rxNum curDesc) bytes' found
      refine ⟨fun none_ => ?_, fun some_ q returned ends => ?_⟩
      · exact .more d step (by simp) (stops none_)
      · exact .more d step (by simp) (goes some_ q returned ends)

/-- The rest of a read is the loop of `fscc_user_read_frame`. -/
private theorem ends_read (size : p.rxDescriptors.length = mem.rxNum) (passes : Nat) (r : Reading)
    (d : δ) :
    let done := userReadLoop dev mem settings bufLength passes p r d
    Ends dev mem p (.read settings bufLength passes r) done.1
      (some ⟨settings, bufLength, .ok (done.2.1.tempData.take done.2.1.outLength)⟩) := by
  induction passes generalizing p r d with
  | zero => exact .last d rfl
  | succ passes ih =>
    dsimp only
    rw [userReadLoop]
    have size' : (p.putUser mem (readDescriptor dev settings p.userFrame r d).1).rxDescriptors.length =
        mem.rxNum := by simpa [RxPort.putUser] using size
    have returns : (RxCall.read settings bufLength (passes + 1) r).returns dev p d =
        some ⟨settings, bufLength,
          .ok ((readDescriptor dev settings p.userFrame r d).2.1.tempData.take
            (readDescriptor dev settings p.userFrame r d).2.1.outLength)⟩ := rfl
    have step : (RxCall.read settings bufLength (passes + 1) r).step dev mem p d =
        let read := readDescriptor dev settings p.userFrame r d
        let p := p.putUser mem read.1
        if read.2.1.bytesInDescs = 0 then
          if settings.rxMultiple then
            (p, .scan settings bufLength mem.rxNum p.userRxDesc 0 (some (passes, read.2.1)))
          else (p, .none)
        else (p, .read settings bufLength passes read.2.1) := rfl
    generalize readDescriptor dev settings p.userFrame r d = read at *
    dsimp only at step ⊢
    by_cases whole : read.2.1.bytesInDescs = 0
    · rw [if_pos whole] at step ⊢
      cases multiple : settings.rxMultiple with
      | false =>
        -- A read of one frame ends with it.
        simp only [multiple, Bool.false_eq_true, if_false] at step
        simp only [nextFrame, multiple, Bool.not_false, if_true]
        rw [← returns]
        exact .last d step
      | true =>
        simp only [multiple, if_true] at step
        refine .more d step (by simp) ?_
        cases another : nextFrame settings bufLength (userNextReadSize mem (p.putUser mem read.1))
            read.2.1 with
        | none =>
          have found : scanned mem settings bufLength (userNextReadSize mem (p.putUser mem read.1))
              (some (passes, read.2.1)) = .none := by rw [scanned, another]
          exact (ends_scan size' _ d mem.rxNum _ 0 found).1 rfl
        | some r' =>
          have found : scanned mem settings bufLength (userNextReadSize mem (p.putUser mem read.1))
              (some (passes, read.2.1)) = .read settings bufLength passes r' := by rw [scanned, another]
          exact (ends_scan size' _ d mem.rxNum _ 0 found).2 (by simp) _ _ (ih size' r' read.2.2)
    · rw [if_neg whole] at step ⊢
      exact .more d step (by simp) (ih size' _ _)

/-- A read is `fscc_user_read_frame`. -/
private theorem ends_userReadFrame (size : p.rxDescriptors.length = mem.rxNum) (settings : Settings)
    (bufLength : Nat) (d : δ) :
    let read := userReadFrame dev mem settings bufLength true 0 p d
    Ends dev mem p (.scan settings bufLength mem.rxNum p.userRxDesc 0 Option.none) read.2.1
      (some ⟨settings, bufLength, read.1⟩) := by
  have found : scanned mem settings bufLength (userNextReadSize mem p) Option.none = _ := rfl
  have scan := @ends_scan δ dev mem p settings bufLength size Option.none d mem.rxNum _ 0 _ found
  simp only [scanned] at scan
  unfold userReadFrame
  simp only [Bool.not_true, Bool.false_eq_true, if_false]
  by_cases ready : (!(userNextReadSize mem p).1) = true
  · simp only [if_pos ready] at scan ⊢
    exact scan.1 trivial
  · simp only [if_neg ready] at scan ⊢
    by_cases short : settings.bufferRequirement (userNextReadSize mem p).2 > bufLength
    · simp only [if_pos short] at scan ⊢
      exact scan.1 trivial
    · simp only [if_neg short] at scan ⊢
      exact scan.2 (by simp) _ _ (ends_read size mem.rxNum _ d)

/-- A stamping is `fscc_io_apply_timestamps`. -/
private theorem ends_stamp (passes curDesc : Nat) (d : δ) :
    Ends dev mem p (.stamp passes curDesc) (applyTimestampsLoop dev mem passes curDesc p d).1
      Option.none := by
  induction passes generalizing curDesc p d with
  | zero => exact .last d rfl
  | succ passes ih =>
    rw [applyTimestampsLoop]
    by_cases stops : (!(p.rxDescriptors.getD curDesc default).fe &&
        !(p.rxDescriptors.getD curDesc default).cstop) = true
    · simp only [if_pos stops]
      exact .last d (by simp only [RxCall.step, if_pos stops])
    · simp only [if_neg stops]
      exact .more d (by simp only [RxCall.step, if_neg stops]) (by simp) (ih _ _)

end RxCall

/-! ### In the system -/

/-- A call that is not a purge does not become one. -/
private theorem RxCall.step_purge {call : RxCall} (other : ∀ i, call ≠ .purge i) (p : RxPort)
    (d : δ) (i : Nat) :
    (call.step dev mem p d).2 ≠ .purge i := by
  have scan (settings : Settings) (bufLength : Nat) (next : Bool × Nat)
      (reading : Option (Nat × Reading)) :
      scanned mem settings bufLength next reading ≠ .purge i := by
    unfold scanned
    split
    next =>
      split
      next => simp
      next => split <;> simp
    next => split <;> simp
  cases call with
  | none => simp [RxCall.step]
  | scan settings bufLength passes curDesc bytes reading =>
    cases passes with
    | zero => exact scan _ _ _ _
    | succ n =>
      simp only [RxCall.step]
      cases nextReadStep bytes (p.rxDescriptors.getD curDesc default) with
      | error next => exact scan _ _ _ _
      | ok bytes => simp
  | read settings bufLength passes r =>
    cases passes with
    | zero => simp [RxCall.step]
    | succ n =>
      simp only [RxCall.step]
      split
      next => split <;> simp
      next => simp
  | stream bufLength passes outLength tempData =>
    cases passes with
    | zero => simp [RxCall.step]
    | succ n =>
      simp only [RxCall.step]
      split
      next => simp
      next => split <;> simp
  | stamp passes curDesc =>
    cases passes with
    | zero => simp [RxCall.step]
    | succ n =>
      simp only [RxCall.step]
      split <;> simp
  | purge j => exact absurd rfl (other j)

/-- No step of a call changes the number of descriptors. -/
private theorem RxCall.step_size (call : RxCall) (p : RxPort) (d : δ) :
    (call.step dev mem p d).1.rxDescriptors.length = p.rxDescriptors.length := by
  unfold RxCall.step
  split
  next => rfl
  next => rfl
  next => split <;> rfl
  next => rfl
  next =>
    dsimp only
    split
    next => split <;> simp [RxPort.putUser]
    next => simp [RxPort.putUser]
  next => rfl
  next =>
    dsimp only
    split
    next => rfl
    next => split <;> simp [RxPort.putUser]
  next => rfl
  next =>
    dsimp only
    split
    next => rfl
    next => simp
  next => simp

variable {dev mem} {cfg : PortConfig} {frames : List WireFrame} {s t : DmaSystem}

/-- The step of a call in the system. -/
private theorem step_call (s : DmaSystem) (some_ : s.call ≠ .none)
    (other : s.call ≠ .purge mem.rxNum) (d : δ) :
    (dmaSystem dev mem cfg frames).step s (.call d) =
      let next := s.call.step dev mem s.port d
      some { s with
        port := next.1
        call := next.2
        returned := s.returned ++
          if next.2 = .none then (s.call.returns dev s.port d).toList else [] } :=
  (if_neg some_).trans (if_neg other)

/-- A call that ends does so in the system, where the steps are the same. -/
private theorem RxCall.Ends.replay {p q : RxPort} {call : RxCall} {returned : Option ReadCall}
    (h : RxCall.Ends dev mem p call q returned) (some_ : call ≠ .none) (other : ∀ i, call ≠ .purge i)
    (s : DmaSystem) :
    ∃ ds : List δ, (dmaSystem dev mem cfg frames).replay { s with port := p, call := call }
      (ds.map .call) = some { s with
        port := q
        call := .none
        returned := s.returned ++ returned.toList } := by
  induction h generalizing s with
  | @last p q call d eq =>
    refine ⟨[d], ?_⟩
    rw [List.map_singleton, Machine.replay, step_call _ some_ (other _)]
    simp [Machine.replay, eq]
  | @more p q q' call next returned d eq more _ ih =>
    have later : ∀ i, next ≠ .purge i := fun i => by
      have kept := RxCall.step_purge dev mem other p d i
      rwa [eq] at kept
    obtain ⟨ds, replayed⟩ := ih more later s
    refine ⟨d :: ds, ?_⟩
    rw [← replayed, List.map_cons, Machine.replay, step_call _ some_ (other _)]
    simp [eq, more]

/-- The sweep of a purge over the next descriptors. -/
private theorem replay_sweep (d : δ) {descs : List IoFrame} (size : descs.length = mem.rxNum)
    (s : DmaSystem)
    (i n : Nat) (inside : i + n ≤ mem.rxNum) :
    (dmaSystem dev mem cfg frames).replay { s with
        port := { s.port with
          rxDescriptors := (descs.take i).map (purgedRxFrame mem) ++ descs.drop i }
        call := .purge i } (List.replicate n (.call d)) =
      some { s with
        port := { s.port with
          rxDescriptors := (descs.take (i + n)).map (purgedRxFrame mem) ++ descs.drop (i + n) }
        call := .purge (i + n) } := by
  induction n generalizing i with
  | zero => rfl
  | succ n ih =>
    have lt : i < descs.length := by omega
    have ne : i ≠ mem.rxNum := by omega
    have next := ih (i + 1) (by omega)
    rw [show i + (n + 1) = i + 1 + n by omega, ← next, List.replicate_succ, Machine.replay,
      step_call _ (by simp) (by simpa using ne)]
    simp only [RxCall.step, modify_swept (purgedRxFrame mem) lt, reduceCtorEq, if_false,
      List.append_nil, Option.bind_some]

/-- The ring keeps its size, and the port does DMA. -/
private theorem size_of_reached (reached : (dmaSystem dev mem cfg frames).Reached s) :
    cfg.isDma = true ∧ s.port.rxDescriptors.length = mem.rxNum := by
  refine reached.invariant (P := fun s => cfg.isDma = true ∧
    s.port.rxDescriptors.length = mem.rxNum) ?_ ?_
  · rintro s ⟨dma, ⟨q, d, e, -, size, -, port, -⟩, -⟩
    refine ⟨dma, ?_⟩
    rw [port]
    simpa [ioPurgeRx, resetRx] using size
  -- No step changes the number of descriptors.
  · rintro s t e ⟨dma, size⟩ stepped
    refine ⟨dma, ?_⟩
    cases e with
    | engine =>
      obtain ⟨-, eq⟩ := Option.ite_none_right_eq_some.mp stepped
      obtain ⟨f, -, eq⟩ := Option.bind_eq_some_iff.mp eq
      split at eq
      next =>
        obtain rfl := Option.some.inj eq
        exact size
      next =>
        obtain ⟨placed, -, rfl⟩ := Option.map_eq_some_iff.mp eq
        simpa using size
    | timestamp =>
      obtain ⟨-, eq⟩ := Option.ite_none_right_eq_some.mp stepped
      obtain rfl := Option.some.inj eq
      exact size
    | read settings bufLength =>
      obtain ⟨-, eq⟩ := Option.ite_none_right_eq_some.mp stepped
      obtain rfl := Option.some.inj eq
      exact size
    | purge d =>
      obtain ⟨-, eq⟩ := Option.ite_none_right_eq_some.mp stepped
      obtain rfl := Option.some.inj eq
      exact size
    | call d =>
      obtain ⟨-, eq⟩ := Option.ite_none_left_eq_some.mp stepped
      split at eq
      next =>
        obtain rfl := Option.some.inj eq
        exact size
      next =>
        obtain rfl := Option.some.inj eq
        exact (RxCall.step_size dev mem s.call s.port d).trans size
    | go =>
      obtain ⟨-, eq⟩ := Option.ite_none_right_eq_some.mp stepped
      obtain rfl := Option.some.inj eq
      exact size

/-- With nothing in between, the steps of a read, of a stamping and of a purge end with the port, the
result and the engine that `fscc_user_read_frame`, `fscc_io_apply_timestamps` and `fscc_io_purge_rx`
leave. -/
theorem calls_alone (reached : (dmaSystem dev mem cfg frames).Reached s) (idle : s.call = .none)
    (d : δ) :
    (∀ settings bufLength, bufLength < 18446744073709551616 →
      let read := userReadFrame dev mem settings bufLength true 0 s.port d
      ∃ ds : List δ, (dmaSystem dev mem cfg frames).replay s
          (.read settings bufLength :: ds.map .call) = some { s with
        port := read.2.1
        returned := s.returned ++ [⟨settings, bufLength, read.1⟩] }) ∧
    (∃ ds : List δ, (dmaSystem dev mem cfg frames).replay s (.timestamp :: ds.map .call) = some { s with
        port := (ioApplyTimestamps dev mem s.port d).1 }) ∧
    (dmaSystem dev mem cfg frames).replay s
        (.purge d :: (List.replicate mem.rxNum (.call d) ++ [.call d, .go])) = some { s with
      port := (ioPurgeRx dev mem cfg s.port d).1
      engine := (ioPurgeRx dev mem cfg s.port d).2.1.foldl RxEngine.store s.engine
      line := s.line.purge
      returned := [] } := by
  obtain ⟨dma, size⟩ := size_of_reached reached
  refine ⟨fun settings bufLength small => ?_, ?_, ?_⟩
  · have ends := @RxCall.ends_userReadFrame δ dev mem s.port size settings bufLength d
    obtain ⟨ds, replayed⟩ := @RxCall.Ends.replay δ dev mem cfg frames _ _ _ _ ends (by simp) (by simp) s
    refine ⟨ds, ?_⟩
    have begun : (dmaSystem dev mem cfg frames).step s (.read settings bufLength) =
        some { s with call := .scan settings bufLength mem.rxNum s.port.userRxDesc 0 Option.none } :=
      if_pos ⟨idle, small⟩
    rw [Machine.replay, begun, idle]
    exact replayed
  · obtain ⟨ds, replayed⟩ := @RxCall.Ends.replay δ dev mem cfg frames _ _ _ _
      (RxCall.ends_stamp mem.rxNum s.port.userRxDesc d) (by simp) (by simp) s
    refine ⟨ds, ?_⟩
    have begun : (dmaSystem dev mem cfg frames).step s .timestamp =
        some { s with call := .stamp mem.rxNum s.port.userRxDesc } := if_pos idle
    rw [Machine.replay, begun, idle]
    simpa [ioApplyTimestamps] using replayed
  · have begun : (dmaSystem dev mem cfg frames).step s (.purge d) = some { s with
        call := .purge 0
        engine := (dmaExecuteSTOPR cfg ++ dmaExecuteRSTR cfg ++
          issued (ioExecuteRRES dev cfg d).1).foldl RxEngine.store s.engine
        line := s.line.purge
        returned := [] } := if_pos idle
    have swept := @replay_sweep δ dev mem cfg frames d s.port.rxDescriptors size { s with
        engine := (dmaExecuteSTOPR cfg ++ dmaExecuteRSTR cfg ++
          issued (ioExecuteRRES dev cfg d).1).foldl RxEngine.store s.engine
        line := s.line.purge
        returned := [] } 0 mem.rxNum (by omega)
    rw [Nat.zero_add, List.take_of_length_le size.le, List.drop_of_length_le size.le,
      List.append_nil, List.take_zero, List.drop_zero, List.map_nil, List.nil_append] at swept
    rw [Machine.replay, begun, Option.bind_some, Machine.replay_append, swept, Option.bind_some]
    -- The last step of the sweep rewinds the port; then GO_R is written.
    have rewound : ∀ u : DmaSystem, u.call = .purge mem.rxNum →
        (dmaSystem dev mem cfg frames).replay u [.call d, .go] = some { u with
          port := u.port.rewind
          call := .none
          engine := (dmaExecuteGOR cfg).foldl RxEngine.store (u.engine.store
            (.register 2 drdbOffset (u.port.rxDescriptors.getD 0 default).descPhysicalAddress)) } := by
      intro u at_
      simp [Machine.replay, dmaSystem, at_]
    rw [rewound _ rfl]
    simp only [ioPurgeRx, dma, if_true, List.foldl_append, List.foldl_cons, List.foldl_nil, idle]
    rfl

/-- The first frame has come in, and is read. -/
theorem calls_alone_frame :
    ∃ s t, (dmaSystem constant .small dmaConfig oneThenTwo).replay newDmaSystem [.engine] = some s ∧
      (∃ ds : List (BitVec 32), (dmaSystem constant .small dmaConfig oneThenTwo).replay s
        (.read ⟨true, false, false⟩ 32 :: ds.map .call) = some t) ∧
      t.returned.map ReadCall.result = [.ok [1, 2, 3]] := by
  have reached := Machine.Reached.replay (.init newDmaSystem_init) [.engine] rfl
  obtain ⟨ds, replayed⟩ := (calls_alone reached rfl 0#32).1 ⟨true, false, false⟩ 32 (by decide)
  exact ⟨_, _, rfl, ⟨ds, replayed⟩, by decide⟩

end Fscc
