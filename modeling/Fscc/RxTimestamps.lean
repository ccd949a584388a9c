import Fscc.Ioctl
import Fscc.RxCount
import Fscc.RxDelivery
import Mathlib.Data.List.Sublists

/-!
# The timestamp of a frame

The drain stamps a descriptor when it finishes it, unless it has a stamp. So a frame has the time
at which `FE` was set on its last descriptor, as long as every descriptor without data is without a
stamp, and a read appends the stamp of that descriptor and not of another. The second may fail once
the FIFO holds bytes that belong to no frame the driver will hear of.
-/

namespace Fscc

open CInt

variable {δ : Type} (dev : Device δ) (mem : Memory)

/-! ### What the drain finalises -/

/-- A frame when `FE` is set on its last descriptor: its bytes, and what the clock reads. -/
structure Stamped where
  bytes : List UInt8
  clock : Timestamp
deriving DecidableEq, Repr

/-- The frames that the loop of the drain finalises, and the bytes of the frame that it leaves
unfinished. `old` are the bytes of the frame that it goes on with. -/
def fifoReadStamps : Nat → List UInt8 → RxPort → δ → List Stamped × List UInt8
  | 0, old, _, _ => ([], old)
  | passes + 1, old, p, d =>
    if p.fifoFrame.cstop then ([], old)
    else
      let bytes := old ++ (drainData dev mem p d).1
      let done := fifoReadPass dev mem p d
      if hasFe done.1.newControl then
        let rest := fifoReadStamps passes [] (p.store mem done.1) done.2
        (⟨bytes.take (drainSize dev p d).1.toNat, (dev.ktime (drainData dev mem p d).2).1⟩ ::
          rest.1, rest.2)
      else if hasCstop done.1.newControl then
        fifoReadStamps passes bytes (p.store mem done.1) done.2
      else ([], bytes)

private theorem fifoReadStamps_succ (n : Nat) (old : List UInt8) (p : RxPort) (d : δ) :
    fifoReadStamps dev mem (n + 1) old p d =
      if p.fifoFrame.cstop then ([], old)
      else if hasFe (fifoReadPass dev mem p d).1.newControl then
        (⟨(old ++ (drainData dev mem p d).1).take (drainSize dev p d).1.toNat,
            (dev.ktime (drainData dev mem p d).2).1⟩ ::
          (fifoReadStamps dev mem n [] (p.store mem (fifoReadPass dev mem p d).1)
            (fifoReadPass dev mem p d).2).1,
          (fifoReadStamps dev mem n [] (p.store mem (fifoReadPass dev mem p d).1)
            (fifoReadPass dev mem p d).2).2)
      else if hasCstop (fifoReadPass dev mem p d).1.newControl then
        fifoReadStamps dev mem n (old ++ (drainData dev mem p d).1)
          (p.store mem (fifoReadPass dev mem p d).1) (fifoReadPass dev mem p d).2
      else ([], old ++ (drainData dev mem p d).1) := rfl

/-- The frames in the ring with the stamps they have there. -/
def held {mem : Memory} (groups : List (FrameGroup mem)) : List Stamped :=
  groups.map fun g => ⟨g.bytes, g.last.timestamp⟩

private theorem timestamp_stampFrame (f : IoFrame) (d : δ) :
    (stampFrame dev f d).1.timestamp =
      if f.timestamp.isEmpty then (dev.ktime d).1 else f.timestamp := by
  unfold stampFrame
  split <;> rfl

/-- A pass stamps the descriptor that it finishes. -/
private theorem timestamp_pass (p : RxPort) (d : δ) :
    (fifoReadPass dev mem p d).1.frame.timestamp =
      if hasCstop (fifoReadPass dev mem p d).1.newControl ∧ p.fifoFrame.timestamp.isEmpty then
        (dev.ktime (drainData dev mem p d).2).1
      else p.fifoFrame.timestamp := by
  have fetched : (fifoReadFetch dev mem p.load d).1.frame.timestamp = p.fifoFrame.timestamp := rfl
  unfold fifoReadPass
  rw [fetch_device]
  generalize (fifoReadFetch dev mem p.load d).1 = s at *
  generalize (drainData dev mem p d).2 = d'
  have finish : (fifoReadFinish dev mem s d').1.frame.timestamp =
      if hasCstop (fifoReadFinish dev mem s d').1.newControl then
        (stampFrame dev s.frame d').1.timestamp
      else s.frame.timestamp := by
    have either (finalised : Bool) (control : BitVec 32) (stamped : IoFrame × δ) :
        ((if finalised then (stamped.1.setDataCount mem.rxSize, stamped.2)
          else (s.frame, d')).1.setControl control).timestamp =
        if finalised then stamped.1.timestamp else s.frame.timestamp := by
      cases finalised <;> rfl
    exact either _ _ _
  rw [finish, timestamp_stampFrame, fetched]
  cases hasCstop (fifoReadFinish dev mem s d').1.newControl with
  | false => simp
  | true => simp

/-! ### The frames that come in, counted -/

/-- At most what is complete or has arrived waits in the FIFO, and less has been drained of the
frame that comes next than it is long. -/
structure Level (bytes : Nat) (size : Int) (r : Receiver) (pending : List WireFrame) : Prop where
  counted : Counted False bytes size r pending
  behind : ∀ w ∈ (pending ++ r.line).head?, bytes < w.length

namespace Level

variable {bytes : Nat} {size : Int} {r r' : Receiver} {pending done : List WireFrame}
  {data : List UInt8}

private theorem arrived (h : Level bytes size r pending) (moved : Receiver.Arrived r r' done data) :
    Level bytes size r' (pending ++ done) where
  counted := h.counted.moved moved.moved
  behind := by
    rw [List.append_assoc, ← moved.line]
    exact h.behind

private theorem positive (w : WireFrame) : 0 < w.length :=
  Nat.lt_of_lt_of_le (by decide) w.status

private theorem idle (line : List WireFrame) (clock : Timestamp) : Level 0 0 (.idle line clock) [] where
  counted := .idle line clock
  behind := fun w _ => positive w

/-- A purge whose RRES empties the FIFO. -/
private theorem reset (r : Receiver) : Level 0 0 r.reset [] where
  counted := .reset r
  behind := fun w _ => positive w

/-- A purge whose RRES is refused while no length is taken. -/
private theorem forget (h : Level bytes 0 r pending) : Level 0 0 r pending where
  counted := {
    lengths := h.counted.lengths
    atMost := by
      have atMost := h.counted.atMost
      unfold Receiver.roundUp at *
      omega
    atLeast := fun off => off.elim
    within := fun off => off.elim
    ok := h.counted.ok }
  behind := fun w _ => positive w

/-- How the first half of a pass leaves the count, the line and the clock. -/
structure Fetched (bytes : Nat) (size : Int) (r r' : Receiver) (pending : List WireFrame) :
    Prop where
  counted : Counted False bytes size r' pending
  line : r'.line = r.line
  clock : r'.clock = r.clock
  first : ∀ w ws, pending = w :: ws → size = w.length
  none_ : pending = [] → size = 0 ∧ ∀ w ∈ r.line.head?, bytes < w.length

private theorem ioread32Rep_pop (n : Nat) (r : Receiver) :
    (ioread32Rep receiver n r).2 = r.pop (4 * n) := by
  induction n generalizing r with
  | zero => rfl
  | succ n ih =>
    change (ioread32Rep receiver n (r.pop 4)).2 = _
    rw [ih, Receiver.pop_pop, Nat.mul_succ, Nat.add_comm]

/-- A repeated read takes words, whether or not they are there. -/
private theorem cardGetRegisterRep_pop (n : Nat) (r : Receiver) :
    (cardGetRegisterRep receiver n r).2 = r.pop (Receiver.roundUp n) := by
  unfold cardGetRegisterRep Receiver.roundUp
  dsimp only
  split
  next whole =>
    rw [ioread32Rep_pop]
    congr 1
    omega
  next rest =>
    change (ioread32Rep receiver _ r).2.pop 4 = _
    rw [ioread32Rep_pop, Receiver.pop_pop]
    congr 1
    omega

private theorem drainData_pop (p : RxPort) (r : Receiver) :
    (drainData receiver mem p r).2 =
      (drainLength receiver mem p r).2.pop (Receiver.roundUp (drainLength receiver mem p r).1) := by
  unfold drainData
  split
  next none_ =>
    rw [none_]
    rfl
  next => exact cardGetRegisterRep_pop _ _

section Pass

variable {mem : Memory} {p : RxPort} {groups : List (FrameGroup mem)} {part rest : List IoFrame}
  {f : IoFrame} {w : WireFrame} {ws : List WireFrame}

private theorem fetch_none (framed : Framed mem p groups part (f :: rest))
    (h : Level (drained part (f :: rest)).length p.rxFrameSize r []) :
    Fetched ((drained part (f :: rest)).length + (drainLength receiver mem p r).1)
      (drainSize receiver p r).1 r (drainData receiver mem p r).2 [] := by
  have ok := h.counted.ok
  have size : drainSize receiver p r = (0, r) :=
    Announced.takeFrameSize_none h.counted.lengths ok
  have length := drainLength_unknown receiver mem framed.ring r (by rw [size])
  have device := drainLength_device_unknown receiver mem (p := p) (d := r) (by rw [size])
  rw [size, Receiver.ioGetRXCNT_receiver r ok] at length device
  dsimp only at length device
  have words := framed.words f (.head _)
  have room := mem.rxSize_words
  rw [drainData_pop, device, size]
  have none_ : p.rxFrameSize = 0 := by
    rcases h.counted.lengths with ⟨none_, -⟩ | ⟨w, ws, eq, -⟩
    · exact none_
    · cases eq
  have counted := h.counted
  rw [none_] at counted
  have read := counted.read
    (Receiver.moved_pop r (Receiver.roundUp (drainLength receiver mem p r).1)) framed.drained_words
    (.inl ⟨by omega, by omega⟩) (fun off => off.elim)
  refine ⟨read, rfl, rfl, by simp, fun _ => ⟨rfl, ?_⟩⟩
  intro w member
  -- what has arrived of the frame on the line stops short of its status
  have front := ok.length_front w member
  have atMost := counted.atMost
  unfold Receiver.roundUp at atMost
  rw [List.flatMap_nil, List.length_nil] at atMost
  omega

private theorem fetch_some (framed : Framed mem p groups part (f :: rest))
    (h : Level (drained part (f :: rest)).length p.rxFrameSize r (w :: ws))
    (short : w.length < 2147483648) :
    Fetched ((drained part (f :: rest)).length + (drainLength receiver mem p r).1)
      (drainSize receiver p r).1 r (drainData receiver mem p r).2 (w :: ws) := by
  have ok := h.counted.ok
  have size : drainSize receiver p r =
      ((w.length : Int), { r with lengths := ws.map WireFrame.length }) :=
    Announced.takeFrameSize_some h.counted.lengths ok short
  have long := positive w
  have length := drainLength_known receiver mem framed r (by rw [size]; dsimp only; omega)
    (by rw [size]; dsimp only; omega)
  have device := drainLength_device_known receiver mem (p := p) (d := r)
    (by rw [size]; dsimp only; omega)
  rw [size, framed.bytes_eq] at length
  rw [size] at device
  dsimp only at length device
  have behind := h.behind w (by simp)
  have counted : Counted False (drained part (f :: rest)).length w.length
      { r with lengths := ws.map WireFrame.length } (w :: ws) := by
    rcases h.counted.lengths with ⟨none_, -⟩ | ⟨x, xs, eq, known, lengths⟩
    · have counted := h.counted
      rw [none_] at counted
      exact counted.take
    · obtain ⟨rfl, rfl⟩ := List.cons.inj eq
      rw [← lengths, ← known]
      exact h.counted
  rw [drainData_pop, device, size]
  have read := counted.read
    (Receiver.moved_pop _ (Receiver.roundUp (drainLength receiver mem p r).1)) framed.drained_words
    (.inr ⟨w, ws, rfl, .inr (by omega)⟩) (fun off => off.elim)
  rw [List.append_nil] at read
  refine ⟨read, rfl, rfl, ?_, by simp⟩
  intro x xs eq
  obtain ⟨rfl, rfl⟩ := List.cons.inj eq
  rfl

private theorem fetch (framed : Framed mem p groups part (f :: rest))
    (h : Level (drained part (f :: rest)).length p.rxFrameSize r pending)
    (short : ∀ w ∈ pending, w.length < 2147483648) :
    Fetched ((drained part (f :: rest)).length + (drainLength receiver mem p r).1)
      (drainSize receiver p r).1 r (drainData receiver mem p r).2 pending := by
  cases pending with
  | nil => exact h.fetch_none framed
  | cons w ws => exact h.fetch_some framed (short w (.head _))

end Pass

end Level

/-! ### One pass of the drain -/

variable {mem}

/-- A ring of whole frames in which every finished descriptor has a stamp and no other has. -/
structure Dated (p : RxPort) (r : Receiver) (groups : List (FrameGroup mem))
    (part free : List IoFrame) (pending : List WireFrame) : Prop where
  framed : Framed mem p groups part free
  whole : ∀ g ∈ groups, g.Whole
  level : Level (drained part free).length p.rxFrameSize r pending
  short : ∀ w ∈ pending ++ r.line, w.length < 2147483648
  clear : ∀ f ∈ free, f.timestamp.isEmpty = true
  stamped : ∀ f ∈ groups.flatMap FrameGroup.descs ++ part, f.timestamp.isEmpty = false

/-- What a pass of the drain can do, by the `CSTOP` and the `FE` that it leaves: it finalises a
frame with the time `now`, or takes `data` of one. -/
inductive DatedPass (groups : List (FrameGroup mem)) (part : List IoFrame) (f : IoFrame)
    (rest : List IoFrame) (pending : List WireFrame) (size : Int) (data : List UInt8)
    (now : Timestamp) (p' : RxPort) (r' : Receiver) : Bool → Bool → Prop
  | last (g : FrameGroup mem) (ws : List WireFrame) :
      g.bytes = (drained part (f :: rest) ++ data).take size.toNat → g.last.timestamp = now →
      Dated p' r' (groups ++ [g]) [] rest ws →
      DatedPass groups part f rest pending size data now p' r' true true
  | full (f' : IoFrame) :
      drained (part ++ [f']) rest = drained part (f :: rest) ++ data →
      Dated p' r' groups (part ++ [f']) rest pending →
      DatedPass groups part f rest pending size data now p' r' true false
  | more (f' : IoFrame) :
      drained part (f' :: rest) = drained part (f :: rest) ++ data →
      Dated p' r' groups part (f' :: rest) pending →
      DatedPass groups part f rest pending size data now p' r' false false

namespace Dated

variable {p : RxPort} {r : Receiver} {groups : List (FrameGroup mem)}
  {part free rest : List IoFrame} {f : IoFrame} {pending : List WireFrame}

private theorem pass_device (p : RxPort) (r : Receiver) :
    (fifoReadPass receiver mem p r).2 = (drainData receiver mem p r).2 := by
  rw [fifoReadPass, fifoReadFinish_receiver, fetch_device]

section Pass

variable {p' : RxPort} {r' : Receiver} {size : Int} {data : List UInt8}
  (h : Dated p r groups part (f :: rest) pending)
  (fetched : Level.Fetched ((drained part (f :: rest)).length + data.length) size r r' pending)
include h fetched

private theorem short_pass : ∀ w ∈ pending ++ r'.line, w.length < 2147483648 := by
  rw [fetched.line]
  exact h.short

/-- The pass finalises a frame: it is the one that has been complete for longest. -/
private theorem last_pass {g : FrameGroup mem} (full : g.full = part) (length : (g.length : Int) = size)
    (enough : g.length ≤ (drained part (f :: rest)).length + data.length) (fits : g.Fits)
    (pos : 0 < size) (none_ : p'.rxFrameSize = 0) (framed : Framed mem p' (groups ++ [g]) [] rest)
    (stamped : g.last.timestamp.isEmpty = false) : ∃ ws, Dated p' r' (groups ++ [g]) [] rest ws := by
  obtain ⟨w, ws, rfl⟩ : ∃ w ws, pending = w :: ws := by
    cases pending with
    | nil => exact absurd (fetched.none_ rfl).1 (by omega)
    | cons w ws => exact ⟨w, ws, rfl⟩
  have known := fetched.first w ws rfl
  have long : g.length = w.length := by omega
  have behind := h.level.behind w (by simp)
  have before := h.framed.length_drained
  refine ⟨ws, {
    framed := framed
    whole := ?_
    level := ?_
    short := fun x member => h.short_pass fetched x (.tail _ member)
    clear := fun x member => h.clear x (.tail _ member)
    stamped := ?_ }⟩
  · intro x member
    rcases List.mem_append.mp member with old | new
    · exact h.whole x old
    · rw [List.mem_singleton.mp new]
      exact ⟨by rw [long]; exact w.status, by rw [FrameGroup.Closed, full]; omega, fits⟩
  · have counted := fetched.counted.finish known (by omega)
    rw [h.framed.drained_rest, none_]
    exact ⟨counted, fun x _ => Level.positive x⟩
  · intro x member
    have old := h.stamped x
    simp only [List.flatMap_append, List.flatMap_singleton, FrameGroup.descs, full, List.append_nil,
      List.mem_append, List.mem_singleton] at member old
    rcases member with group | part | rfl
    · exact old (.inl group)
    · exact old (.inr part)
    · exact stamped

/-- The pass fills a descriptor in the middle of a frame. -/
private theorem full_pass {f' : IoFrame}
    (more : drained (part ++ [f']) rest = drained part (f :: rest) ++ data)
    (same : p'.rxFrameSize = size) (framed : Framed mem p' groups (part ++ [f']) rest)
    (stamped : f'.timestamp.isEmpty = false) : Dated p' r' groups (part ++ [f']) rest pending where
  framed := framed
  whole := h.whole
  level := by
    rw [more, same, List.length_append]
    refine ⟨fetched.counted, fun x member => ?_⟩
    cases pending with
    | nil =>
      rw [fetched.line] at member
      exact (fetched.none_ rfl).2 x member
    | cons w ws =>
      -- the frame is not at its end, or the descriptor would have ended it
      obtain rfl : w = x := by simpa using member
      have unfinished := framed.unfinished
      have known := fetched.first w ws rfl
      have long := Level.positive w
      rw [framed.bytes_eq, same, more, List.length_append] at unfinished
      omega
  short := h.short_pass fetched
  clear := fun x member => h.clear x (.tail _ member)
  stamped := by
    intro x member
    have old := h.stamped x
    simp only [List.mem_append, List.mem_singleton] at member old
    rcases member with group | part | rfl
    · exact old (.inl group)
    · exact old (.inr part)
    · exact stamped

/-- The pass takes all there is, and no frame is complete. -/
private theorem more_pass {f' : IoFrame}
    (more : drained part (f' :: rest) = drained part (f :: rest) ++ data)
    (same : p'.rxFrameSize = size) (unknown : size ≤ 0) (framed : Framed mem p' groups part (f' :: rest))
    (clear : f'.timestamp.isEmpty = true) : Dated p' r' groups part (f' :: rest) pending := by
  obtain rfl : pending = [] := by
    cases pending with
    | nil => rfl
    | cons w ws =>
      have known := fetched.first w ws rfl
      have long := Level.positive w
      omega
  exact {
    framed := framed
    whole := h.whole
    level := by
      rw [more, same, List.length_append]
      refine ⟨fetched.counted, fun x member => ?_⟩
      rw [fetched.line] at member
      exact (fetched.none_ rfl).2 x member
    short := h.short_pass fetched
    clear := by
      rintro x (_ | ⟨_, member⟩)
      · exact clear
      · exact h.clear x (.tail _ member)
    stamped := h.stamped }

end Pass

private theorem pass (h : Dated p r groups part (f :: rest) pending)
    (running : r.clock.isEmpty = false) :
    DatedPass groups part f rest pending (drainSize receiver p r).1 (drainData receiver mem p r).1
      r.clock (p.store mem (fifoReadPass receiver mem p r).1) (fifoReadPass receiver mem p r).2
      (hasCstop (fifoReadPass receiver mem p r).1.newControl)
      (hasFe (fifoReadPass receiver mem p r).1.newControl) := by
  have framed := h.framed
  have pass := framed.pass receiver r
  have view := framed.ring.view_store (fifoReadPass receiver mem p r).1
  have stamp := timestamp_pass receiver mem p r
  have fetched := h.level.fetch framed fun w member => h.short w (List.mem_append_left _ member)
  have clear := h.clear f (.head _)
  rw [framed.ring.fifoFrame_eq, clear] at stamp
  rw [pass_device]
  change _ = if _ then (drainData receiver mem p r).2.clock else _ at stamp
  rw [fetched.clock] at stamp
  rw [← length_drainData receiver mem p r] at fetched
  generalize p.store mem (fifoReadPass receiver mem p r).1 = p' at *
  generalize (fifoReadPass receiver mem p r).1.frame = frame at *
  generalize hasCstop _ = cstop, hasFe _ = fe at pass stamp ⊢
  -- The descriptor that the pass leaves is the one that it has stamped, or not.
  cases pass with
  | last g full size content enough fits pos none_ framed' =>
    have moved := framed'.ring.view.symm.trans view
    have last : g.last = frame := by simpa [FrameGroup.descs, full] using moved
    have now : g.last.timestamp = r.clock := by rw [last, stamp]; rfl
    obtain ⟨ws, dated⟩ := h.last_pass fetched full size enough fits pos none_ framed'
      (by rw [now]; exact running)
    exact .last g ws (by rw [content, ← size, Int.toNat_natCast]) now dated
  | full f' more same framed' =>
    have moved := framed'.ring.view.symm.trans view
    have last : f' = frame := by simpa using moved
    have now : f'.timestamp = r.clock := by rw [last, stamp]; rfl
    exact .full f' more (h.full_pass fetched more same framed' (by rw [now]; exact running))
  | more f' more same unknown framed' =>
    have moved := framed'.ring.view.symm.trans view
    have last : f' = frame := by simpa using moved
    exact .more f' more (h.more_pass fetched more same unknown framed' (by rw [last, stamp]; exact clear))

/-- What the drain leaves: further frames in the ring, each with the time `now` of the call. -/
structure Finalised (groups : List (FrameGroup mem)) (now : Timestamp) (stamps : List Stamped)
    (bytes : List UInt8) (p' : RxPort) (r' : Receiver) (groups' : List (FrameGroup mem))
    (part' free' : List IoFrame) (pending' : List WireFrame) : Prop where
  dated : Dated p' r' groups' part' free' pending'
  ring : held groups' = held groups ++ stamps
  unfinished : drained part' free' = bytes
  times : ∀ e ∈ stamps, e.clock = now
  clock : r'.clock = now

private theorem clock_pass (mem : Memory) (p : RxPort) (r : Receiver) :
    (fifoReadPass receiver mem p r).2.clock = r.clock := by
  have keeps : receiver.Keeps fun x => x.clock = r.clock := by
    refine ⟨fun offset x h => ?_, fun x h => h, fun x h => h⟩
    simp only [receiver, Receiver.getRegister]
    split
    · exact h
    · split
      · exact h
      · split <;> exact h
  exact keeps.finish mem _ (keeps.fetch mem p.load rfl)

private theorem drain (h : Dated p r groups part free pending) (running : r.clock.isEmpty = false)
    (n : Nat) :
    ∃ (groups' : List (FrameGroup mem)) (part' free' : List IoFrame) (pending' : List WireFrame),
      Finalised groups r.clock (fifoReadStamps receiver mem n (drained part free) p r).1
        (fifoReadStamps receiver mem n (drained part free) p r).2
        (fifoReadLoop receiver mem n p r).1 (fifoReadLoop receiver mem n p r).2
        groups' part' free' pending' := by
  -- A call that takes nothing leaves all as it was.
  have still (p : RxPort) (r : Receiver) (groups : List (FrameGroup mem)) (part free : List IoFrame)
      {pending : List WireFrame} (h : Dated p r groups part free pending) :
      Finalised groups r.clock [] (drained part free) p r groups part free pending :=
    ⟨h, by simp, rfl, by simp, rfl⟩
  -- Induction on the passes. Every frame that ends on the way gets the time of the call.
  induction n generalizing p r groups part free pending with
  | zero => exact ⟨_, _, _, _, still p r groups part free h⟩
  | succ n ih =>
    rw [fifoReadLoop_succ, fifoReadStamps_succ]
    by_cases full : p.fifoFrame.cstop = true
    · rw [if_pos full, if_pos full]
      exact ⟨_, _, _, _, still p r groups part free h⟩
    · obtain ⟨f, rest, rfl⟩ : ∃ f rest, free = f :: rest := by
        cases free with
        | nil => exact absurd h.framed.ring.fifoFrame_full full
        | cons f rest => exact ⟨f, rest, rfl⟩
      rw [if_neg full, if_neg full]
      have pass := h.pass running
      have clock := clock_pass mem p r
      have data : (drainData receiver mem p r).2.clock = r.clock := by rw [← clock, pass_device]
      change (receiver.ktime (drainData receiver mem p r).2).1 = _ at data
      rw [data]
      generalize p.store mem (fifoReadPass receiver mem p r).1 = p' at *
      generalize (fifoReadPass receiver mem p r).2 = r' at *
      generalize hasCstop _ = cstop, hasFe _ = fe at pass ⊢
      cases pass with
      -- The frame that ends here is stamped, and heads what the other passes finalise.
      | last g ws bytes now dated =>
        obtain ⟨groups', part', free', pending', after⟩ := ih dated (by rw [clock]; exact running)
        have none_ : drained [] rest = [] := h.framed.drained_rest []
        rw [clock, none_] at after
        simp only [if_true]
        refine ⟨groups', part', free', pending', after.dated, ?_, after.unfinished, ?_, after.clock⟩
        · rw [after.ring, ← bytes]
          simp [held, now]
        · rintro e (_ | ⟨_, member⟩)
          · rfl
          · exact after.times e member
      | full f' more dated =>
        obtain ⟨groups', part', free', pending', after⟩ := ih dated (by rw [clock]; exact running)
        rw [clock, more] at after
        simp only [if_true, Bool.false_eq_true, if_false]
        exact ⟨groups', part', free', pending', after⟩
      | more f' more dated =>
        have same := still p' r' groups part (f' :: rest) dated
        rw [clock, more] at same
        simp only [Bool.false_eq_true, if_false]
        exact ⟨groups, part, f' :: rest, _, same⟩

/-- A complete frame may come in. -/
private theorem arrival (h : Dated p r groups part free pending) (a : Arrival) :
    ∃ done, Dated p (r.arrival a) groups part free (pending ++ done) := by
  obtain ⟨done, data, moved⟩ := r.arrived_arrival a
  refine ⟨done, h.framed, h.whole, h.level.arrived moved, ?_, h.clear, h.stamped⟩
  rw [List.append_assoc, ← moved.line]
  exact h.short

end Dated

/-! ### `fscc_io_apply_timestamps` -/

section Apply

variable {dev : Device δ} {p : RxPort}

private theorem stampFrame_stamped {f : IoFrame} (stamped : f.timestamp.isEmpty = false) (d : δ) :
    stampFrame dev f d = (f, d) := by
  rw [stampFrame, stamped]
  rfl

private theorem applyTimestampsLoop_stamped (size : p.rxDescriptors.length = mem.rxNum)
    (stamped : ∀ f ∈ p.rxDescriptors, f.fe = true ∨ f.cstop = true → f.timestamp.isEmpty = false)
    (n : Nat) {curDesc : Nat} (inside : curDesc < mem.rxNum) (d : δ) :
    applyTimestampsLoop dev mem n curDesc p d = (p, d) := by
  induction n generalizing curDesc with
  | zero => rfl
  | succ n ih =>
    have bound : curDesc < p.rxDescriptors.length := by rw [size]; exact inside
    have member : p.rxDescriptors.getD curDesc default ∈ p.rxDescriptors := by
      rw [List.getD_eq_getElem?_getD, List.getElem?_eq_getElem bound]
      exact List.getElem_mem bound
    have same : p.rxDescriptors.set curDesc (p.rxDescriptors.getD curDesc default) =
        p.rxDescriptors := by
      rw [List.getD_eq_getElem?_getD, List.getElem?_eq_getElem bound]
      exact List.set_getElem_self bound
    unfold applyTimestampsLoop
    dsimp only
    split
    next => rfl
    next finished =>
      have set : (p.rxDescriptors.getD curDesc default).timestamp.isEmpty = false := by
        apply stamped _ member
        simp only [Bool.and_eq_true, Bool.not_eq_true', not_and, Bool.not_eq_false] at finished
        by_cases fe : (p.rxDescriptors.getD curDesc default).fe = true
        · exact .inl fe
        · exact .inr (finished (Bool.not_eq_true _ ▸ fe))
      rw [stampFrame_stamped set, same]
      exact ih (Ring.next_lt inside)

/-- With a stamp on every finished descriptor there is nothing to apply. -/
private theorem Dated.applyTimestamps {r : Receiver} {groups : List (FrameGroup mem)}
    {part free : List IoFrame} {pending : List WireFrame}
    (h : Dated p r groups part free pending) (d : δ) : ioApplyTimestamps dev mem p d = (p, d) := by
  have ring := h.framed.ring
  refine applyTimestampsLoop_stamped ring.size ?_ mem.rxNum ring.user_lt d
  intro f member finished
  rw [← Ring.mem_view (i := p.userRxDesc), ring.view] at member
  rcases List.mem_append.mp member with done | left
  · exact h.stamped f done
  · have opened := ring.free_open f left
    rcases finished with fe | cstop
    · simp [opened.1] at fe
    · simp [opened.2] at cstop

end Apply

/-! ### Reads -/

/-- A read with its outcome. -/
structure StampedRead where
  settings : Settings
  unmovedBytes : Nat
  result : Except Errno (List UInt8)
deriving DecidableEq

/-- What a read hands out for a frame: its bytes, and the time at which it ended. -/
def Stamped.output (settings : Settings) (e : Stamped) : List UInt8 :=
  e.bytes.take (e.bytes.length - settings.statusLength) ++
    if settings.appendTimestamp then e.clock.bytes else []

/-- A read that handed out the frames `es`, up to the bytes that `copy_to_user` left. -/
def HandedOut (call : StampedRead) (es : List Stamped) : Prop :=
  match call.result with
  | .error e => e = .enobufs ∧ es = []
  | .ok out => out = copiedOut (es.flatMap (Stamped.output call.settings)) call.unmovedBytes

private theorem outputs_held (settings : Settings) {groups : List (FrameGroup mem)}
    (whole : ∀ g ∈ groups, g.Whole) (stamped : ∀ g ∈ groups, g.last.timestamp.isEmpty = false)
    (d : δ) :
    outputs dev settings groups d =
      ((held groups).flatMap (Stamped.output settings), d) := by
  induction groups with
  | nil => rfl
  | cons g gs ih =>
    have more := ih (fun x hx => whole x (.tail _ hx)) (fun x hx => stamped x (.tail _ hx))
    have length := (whole g (.head _)).fits.length_bytes
    have stamp : appended dev settings g.last d =
        (if settings.appendTimestamp then g.last.timestamp.bytes else [], d) := by
      unfold appended
      rw [stamped g (.head _)]
      cases settings.appendTimestamp <;> rfl
    rw [outputs, stamp]
    dsimp only
    rw [more]
    simp [held, Stamped.output, FrameGroup.payload, length]

private theorem Dated.read {p : RxPort} {r : Receiver} {groups : List (FrameGroup mem)}
    {part free : List IoFrame} {pending : List WireFrame}
    (h : Dated p r groups part free pending) (settings : Settings) {bufLength : Nat}
    (size : bufLength < 18446744073709551616) (alloc : Bool) (unmovedBytes : Nat) :
    ∃ (groups' : List (FrameGroup mem)) (free' : List IoFrame) (es : List Stamped),
      held groups = es ++ held groups' ∧ drained part free' = drained part free ∧
      Dated (userReadFrame receiver mem settings bufLength alloc unmovedBytes p r).2.1 r
        groups' part free' pending ∧
      (userReadFrame receiver mem settings bufLength alloc unmovedBytes p r).2.2 = r ∧
      HandedOut ⟨settings, unmovedBytes,
        (userReadFrame receiver mem settings bufLength alloc unmovedBytes p r).1⟩ es := by
  cases alloc with
  | false =>
    -- Without a buffer nothing is read.
    exact ⟨groups, free, [], rfl, rfl, h, rfl, by simp [HandedOut, userReadFrame, copiedOut]⟩
  | true =>
    obtain ⟨rest, p', split, framed, same, eq⟩ :=
      h.framed.read receiver h.whole settings size unmovedBytes r
    have mem_taken : ∀ g ∈ taken settings bufLength groups, g ∈ groups := by
      intro g member
      rw [split]
      exact List.mem_append_left _ member
    have mem_rest : ∀ g ∈ rest, g ∈ groups := by
      intro g member
      rw [split]
      exact List.mem_append_right _ member
    -- The frames read are stamped already, so that a read stamps nothing.
    have last : ∀ g ∈ taken settings bufLength groups, g.last.timestamp.isEmpty = false := by
      intro g member
      apply h.stamped g.last
      exact List.mem_append_left _
        (List.mem_flatMap.mpr ⟨g, mem_taken g member, by simp [FrameGroup.descs]⟩)
    have whole : ∀ g ∈ taken settings bufLength groups, g.Whole :=
      fun g member => h.whole g (mem_taken g member)
    rw [outputs_held receiver settings whole last r] at eq
    rw [eq]
    refine ⟨rest, _, held (taken settings bufLength groups), ?_, drained_append_freed,
      ⟨framed, ?_, ?_, h.short, ?_, ?_⟩, rfl, ?_⟩
    · unfold held
      rw [← List.map_append, ← split]
    · exact fun g member => h.whole g (mem_rest g member)
    · rw [drained_append_freed, same.2.1]
      exact h.level
    -- A descriptor that goes back to the free ones loses its timestamp.
    · intro f member
      rcases List.mem_append.mp member with old | new
      · exact h.clear f old
      · obtain ⟨x, -, rfl⟩ := List.mem_map.mp new
        rfl
    · intro f member
      apply h.stamped f
      rcases List.mem_append.mp member with group | new
      · obtain ⟨g, at_, inside⟩ := List.mem_flatMap.mp group
        exact List.mem_append_left _ (List.mem_flatMap.mpr ⟨g, mem_rest g at_, inside⟩)
      · exact List.mem_append_right _ new
    · by_cases none_ : taken settings bufLength groups = []
      · simp [HandedOut, none_, held]
      · simp [HandedOut, none_]

/-! ### Purges -/

/-- The receiver, with what STAR will read. -/
def starred : Device (Receiver × List (BitVec 32)) where
  getRegister offset d :=
    if offset = starOffset then (d.2.headD 0#32, (d.1, d.2.tail))
    else ((receiver.getRegister offset d.1).1, ((receiver.getRegister offset d.1).2, d.2))
  readFifo d := ((receiver.readFifo d.1).1, ((receiver.readFifo d.1).2, d.2))
  ktime d := ((receiver.ktime d.1).1, ((receiver.ktime d.1).2, d.2))

private theorem timedOutLoop_starred (n : Nat) (r : Receiver) (star : List (BitVec 32)) :
    (timedOutLoop starred n (r, star)).2.1 = r := by
  induction n generalizing star with
  | zero => rfl
  | succ n ih =>
    unfold timedOutLoop
    dsimp only
    split
    · rfl
    · exact ih star.tail

/-- The clock check of a purge reads STAR, and nothing else. -/
private theorem ioPurgeRx_starred (cfg : PortConfig) (p : RxPort) (r : Receiver)
    (star : List (BitVec 32)) :
    (ioPurgeRx starred mem cfg p (r, star)).2.2.1 = r := by
  change (ioExecuteRRES starred cfg (r, star)).2.1 = r
  unfold ioExecuteRRES portSetRegister
  dsimp only
  split
  · split
    · exact timedOutLoop_starred _ r star
    · exact timedOutLoop_starred _ r star
  · rfl

section Purge

variable {p : RxPort} {r : Receiver} {groups : List (FrameGroup mem)} {part free : List IoFrame}
  {pending : List WireFrame}

/-- A purge leaves nothing in the ring, and no time of what was there. -/
private theorem Dated.reset (size : p.rxDescriptors.length = mem.rxNum)
    (buffers : ∀ f ∈ p.rxDescriptors, f.buffer.length = mem.rxSize) (level : Level 0 0 r pending)
    (short : ∀ w ∈ pending ++ r.line, w.length < 2147483648) :
    Dated (resetRx mem p) r ([] : List (FrameGroup mem)) []
      (p.rxDescriptors.map (purgedRxFrame mem)) pending := by
  refine ⟨.reset size buffers, by simp, by rw [drained_purged]; exact level, short, ?_, by simp⟩
  intro f member
  obtain ⟨g, -, rfl⟩ := List.mem_map.mp member
  rfl

private theorem Dated.purged (h : Dated p r groups part free pending) {r' : Receiver}
    {pending' : List WireFrame} (level : Level 0 0 r' pending')
    (short : ∀ w ∈ pending' ++ r'.line, w.length < 2147483648) :
    ∃ free' : List IoFrame,
      Dated (resetRx mem p) r' ([] : List (FrameGroup mem)) [] free' pending' ∧
        drained [] free' = [] :=
  ⟨_, .reset h.framed.ring.size h.framed.ring.buffers_mem level short, drained_purged _⟩

end Purge

/-! ### Runs -/

/-- The time order of timestamps. -/
def Timestamp.le (a b : Timestamp) : Prop :=
  a.tvSec.toInt < b.tvSec.toInt ∨ a.tvSec.toInt = b.tvSec.toInt ∧ a.tvNsec.toInt ≤ b.tvNsec.toInt

instance Timestamp.decidableLe (a b : Timestamp) : Decidable (a.le b) := by
  unfold Timestamp.le
  infer_instance

private theorem Timestamp.le_refl (a : Timestamp) : a.le a := .inr ⟨rfl, Int.le_refl _⟩

private theorem Timestamp.le_trans {a b c : Timestamp} (first : a.le b) (second : b.le c) : a.le c := by
  unfold Timestamp.le at *
  omega

/-- The driver's receive path over the receiver: every frame that was finalised, with its time, the
bytes drained of the frame that is not, and the reads so far. -/
structure StampSystem where
  port : RxPort
  hardware : Receiver
  ended : List Stamped
  unfinished : List UInt8
  returned : List StampedRead

inductive StampEvent where
  | hardware (a : Arrival)
  | drain
  | applyTimestamps
  | purge (star : List (BitVec 32))
  | read (settings : Settings) (bufLength : Nat) (alloc : Bool) (unmovedBytes : Nat)

/-- The clock is not zero, and does not go back. -/
def Receiver.Admits (r : Receiver) : Arrival → Prop
  | .tick now => now.isEmpty = false ∧ r.clock.le now
  | _ => True

instance Receiver.decidableAdmits (r : Receiver) (a : Arrival) : Decidable (r.Admits a) := by
  cases a <;> (unfold Receiver.Admits; infer_instance)

variable (mem) in
/-- Arrivals, drains, reads, purges and calls of `fscc_io_apply_timestamps` in any order, in FIFO
mode. A purge comes with what STAR reads, and empties the FIFO just when its RRES is issued. -/
def stampSystem (cfg : PortConfig) (frames : List WireFrame) : Machine StampSystem StampEvent where
  init s := Fresh mem s.port ∧ s.hardware = .idle frames s.hardware.clock ∧
    s.hardware.clock.isEmpty = false ∧ s.ended = [] ∧ s.unfinished = [] ∧ s.returned = []
  step s
    | .hardware a =>
      if s.hardware.Admits a then some { s with hardware := s.hardware.arrival a } else none
    | .drain =>
      let drained := fifoReadData receiver mem s.port s.hardware
      let stamps := fifoReadStamps receiver mem mem.rxNum s.unfinished s.port s.hardware
      some { s with
        port := drained.1
        hardware := drained.2
        ended := s.ended ++ stamps.1
        unfinished := stamps.2 }
    | .applyTimestamps =>
      let applied := ioApplyTimestamps receiver mem s.port s.hardware
      some { s with port := applied.1, hardware := applied.2 }
    | .purge star =>
      let purged := ioPurgeRx starred mem cfg s.port (s.hardware, star)
      some { s with
        port := purged.1
        hardware := if rresCommand ∈ purged.2.1 then purged.2.2.1.reset else purged.2.2.1
        unfinished := [] }
    | .read settings bufLength alloc unmovedBytes =>
      if bufLength < 18446744073709551616 then
        let read :=
          userReadFrame receiver mem settings bufLength alloc unmovedBytes s.port s.hardware
        some { s with
          port := read.2.1
          hardware := read.2.2
          returned := s.returned ++ [⟨settings, unmovedBytes, read.1⟩] }
      else none

/-- The frames handed out, call by call, are frames that were finalised, in order, each with the
time at which it was; and these times do not go back. -/
def StampSystem.Timely (s : StampSystem) : Prop :=
  ∃ handed : List (List Stamped), List.Forall₂ HandedOut s.returned handed ∧
    List.Sublist handed.flatten s.ended ∧ handed.flatten.Pairwise fun a b => a.clock.le b.clock

/-- A purge is let through by its clock check, or finds no length of a frame taken. -/
def PurgeInStep (cfg : PortConfig) (s : StampSystem) : StampEvent → Prop
  | .purge star => Clocked starred cfg (s.hardware, star) ∨ s.port.rxFrameSize = 0
  | _ => True

/-- What has been handed out and what the ring holds are frames finalised, in order. -/
structure StampSystem.Inv (mem : Memory) (s : StampSystem) : Prop where
  running : s.hardware.clock.isEmpty = false
  sorted : s.ended.Pairwise fun a b => a.clock.le b.clock
  past : ∀ e ∈ s.ended, e.clock.le s.hardware.clock
  ring : ∃ (groups : List (FrameGroup mem)) (part free : List IoFrame) (pending : List WireFrame)
    (handed : List (List Stamped)), Dated s.port s.hardware groups part free pending ∧
      drained part free = s.unfinished ∧ List.Forall₂ HandedOut s.returned handed ∧
      List.Sublist (handed.flatten ++ held groups) s.ended

/-- The clock after an arrival that the receiver admits. -/
private theorem Receiver.Admits.clock {r : Receiver} {a : Arrival} (admits : r.Admits a)
    (running : r.clock.isEmpty = false) :
    (r.arrival a).clock.isEmpty = false ∧ r.clock.le (r.arrival a).clock := by
  cases a with
  | bytes n =>
    have same : (r.arriveBytes n).clock = r.clock := by
      unfold Receiver.arriveBytes
      split <;> rfl
    rw [Receiver.arrival, same]
    exact ⟨running, Timestamp.le_refl _⟩
  | complete =>
    have same : r.arriveEnd.clock = r.clock := by
      unfold Receiver.arriveEnd
      split
      · rfl
      · split <;> rfl
    rw [Receiver.arrival, same]
    exact ⟨running, Timestamp.le_refl _⟩
  | tick now => exact admits

namespace StampSystem.Inv

variable {cfg : PortConfig} {frames : List WireFrame} {s t : StampSystem}

private theorem initial (fits : ∀ w ∈ frames, w.length ≤ mem.rxNum * mem.rxSize)
    (init : (stampSystem mem cfg frames).init s) : s.Inv mem := by
  obtain ⟨fresh, idle, running, ended, unfinished, returned⟩ := init
  obtain ⟨q, eq, size, buffers⟩ := fresh
  have small := mem.rx_fits
  refine ⟨running, by rw [ended]; exact .nil, by simp [ended], [], [],
    q.rxDescriptors.map (purgedRxFrame mem), [], [], ?_, by rw [drained_purged, unfinished],
    by rw [returned]; exact .nil, by simp [held]⟩
  rw [eq]
  apply Dated.reset size buffers
  · rw [idle]
    exact .idle frames _
  · rw [idle]
    intro w member
    have bound := fits w (by simpa [Receiver.idle] using member)
    omega

private theorem hardware (h : s.Inv mem) {a : Arrival} (admits : s.hardware.Admits a) :
    StampSystem.Inv mem { s with hardware := s.hardware.arrival a } := by
  obtain ⟨groups, part, free, pending, handed, dated, bytes, calls, order⟩ := h.ring
  obtain ⟨done, dated'⟩ := dated.arrival a
  obtain ⟨running, later⟩ := admits.clock h.running
  exact ⟨running, h.sorted, fun e member => Timestamp.le_trans (h.past e member) later,
    groups, part, free, pending ++ done, handed, dated', bytes, calls, order⟩

private theorem drain (h : s.Inv mem) :
    StampSystem.Inv mem { s with
      port := (fifoReadData receiver mem s.port s.hardware).1
      hardware := (fifoReadData receiver mem s.port s.hardware).2
      ended := s.ended ++ (fifoReadStamps receiver mem mem.rxNum s.unfinished s.port s.hardware).1
      unfinished := (fifoReadStamps receiver mem mem.rxNum s.unfinished s.port s.hardware).2 } := by
  obtain ⟨groups, part, free, pending, handed, dated, bytes, calls, order⟩ := h.ring
  obtain ⟨groups', part', free', pending', after⟩ := dated.drain h.running mem.rxNum
  rw [bytes] at after
  refine ⟨?_, ?_, ?_, groups', part', free', pending', handed, after.dated, after.unfinished, calls,
    ?_⟩
  · exact (congrArg Timestamp.isEmpty after.clock).trans h.running
  · refine List.pairwise_append.mpr ⟨h.sorted, ?_, ?_⟩
    · -- one call finalises all its frames at one time
      apply List.pairwise_of_forall_mem_list
      intro a first b second
      rw [after.times a first, after.times b second]
      exact Timestamp.le_refl _
    · intro a old b new
      rw [after.times b new]
      exact h.past a old
  · intro e member
    change e.clock.le (fifoReadLoop receiver mem mem.rxNum s.port s.hardware).2.clock
    rw [after.clock]
    rcases List.mem_append.mp member with old | new
    · exact h.past e old
    · rw [after.times e new]
      exact Timestamp.le_refl _
  · rw [after.ring, ← List.append_assoc]
    exact order.append (.refl _)

private theorem purge (h : s.Inv mem) (fifo : cfg.isDma = false) (star : List (BitVec 32))
    (ok : PurgeInStep cfg s (.purge star)) :
    StampSystem.Inv mem { s with
      port := (ioPurgeRx starred mem cfg s.port (s.hardware, star)).1
      hardware :=
        if rresCommand ∈ (ioPurgeRx starred mem cfg s.port (s.hardware, star)).2.1 then
          (ioPurgeRx starred mem cfg s.port (s.hardware, star)).2.2.1.reset
        else (ioPurgeRx starred mem cfg s.port (s.hardware, star)).2.2.1
      unfinished := [] } := by
  obtain ⟨groups, part, free, pending, handed, dated, -, calls, order⟩ := h.ring
  have earlier : List.Sublist (handed.flatten ++ held ([] : List (FrameGroup mem))) s.ended := by
    rw [held, List.map_nil, List.append_nil]
    exact (List.sublist_append_left _ _).trans order
  rw [ioPurgeRx_starred]
  by_cases issued : rresCommand ∈ (ioPurgeRx starred mem cfg s.port (s.hardware, star)).2.1
  · rw [if_pos issued]
    have short : ∀ w ∈ [] ++ s.hardware.reset.line, w.length < 2147483648 := by
      intro w member
      apply dated.short w
      refine List.mem_append_right _ ?_
      change w ∈ (if s.hardware.arrived = 0 then _ else s.hardware.line.tail) at member
      split at member
      · exact member
      · exact List.mem_of_mem_tail member
    obtain ⟨free', dated', empty⟩ := dated.purged (.reset s.hardware) short
    exact ⟨h.running, h.sorted, h.past, [], [], free', [], handed, dated', empty, calls, earlier⟩
  · rw [if_neg issued]
    have none_ : s.port.rxFrameSize = 0 := by
      rcases ok with clocked | none_
      · exact absurd ((mem_ioPurgeRx starred fifo s.port _).mpr clocked) issued
      · exact none_
    have level := dated.level
    rw [none_] at level
    obtain ⟨free', dated', empty⟩ := dated.purged level.forget dated.short
    exact ⟨h.running, h.sorted, h.past, [], [], free', pending, handed, dated', empty, calls,
      earlier⟩

private theorem read (h : s.Inv mem) (settings : Settings) {bufLength : Nat}
    (size : bufLength < 18446744073709551616) (alloc : Bool) (unmovedBytes : Nat) :
    StampSystem.Inv mem { s with
      port :=
        (userReadFrame receiver mem settings bufLength alloc unmovedBytes s.port s.hardware).2.1
      hardware :=
        (userReadFrame receiver mem settings bufLength alloc unmovedBytes s.port s.hardware).2.2
      returned := s.returned ++ [⟨settings, unmovedBytes,
        (userReadFrame receiver mem settings bufLength alloc unmovedBytes s.port
          s.hardware).1⟩] } := by
  obtain ⟨groups, part, free, pending, handed, dated, bytes, calls, order⟩ := h.ring
  obtain ⟨groups', free', es, split, same, dated', device, call⟩ :=
    dated.read settings size alloc unmovedBytes
  rw [device]
  refine ⟨h.running, h.sorted, h.past, groups', part, free', pending, handed ++ [es], dated',
    by rw [same, bytes], List.rel_append calls (.cons call .nil), ?_⟩
  rw [List.flatten_append, List.flatten_singleton, List.append_assoc, ← split]
  exact order

private theorem step (fifo : cfg.isDma = false) {e : StampEvent} (h : s.Inv mem)
    (ok : PurgeInStep cfg s e) (stepped : (stampSystem mem cfg frames).step s e = some t) :
    t.Inv mem := by
  cases e with
  | hardware a =>
    obtain ⟨admits, eq⟩ := Option.ite_none_right_eq_some.mp stepped
    obtain rfl := Option.some.inj eq
    exact h.hardware admits
  | drain =>
    obtain rfl := Option.some.inj stepped
    exact h.drain
  | applyTimestamps =>
    obtain rfl := Option.some.inj stepped
    obtain ⟨groups, part, free, pending, handed, dated, rest⟩ := h.ring
    rw [dated.applyTimestamps]
    exact h
  | purge star =>
    obtain rfl := Option.some.inj stepped
    exact h.purge fifo star ok
  | read settings bufLength alloc unmovedBytes =>
    obtain ⟨size, eq⟩ := Option.ite_none_right_eq_some.mp stepped
    obtain rfl := Option.some.inj eq
    exact h.read settings size alloc unmovedBytes

end StampSystem.Inv

/-- In every run of frames up to the size of the ring in which no purge forgets a length that it
cannot reset, every timestamp handed out is the time at which its frame was finalised. -/
theorem timestamps_of_frames {cfg : PortConfig} (fifo : cfg.isDma = false) (frames : List WireFrame)
    (fits : ∀ w ∈ frames, w.length ≤ mem.rxNum * mem.rxSize) {s : StampSystem}
    (reached : (stampSystem mem cfg frames).ReachedUnder (PurgeInStep cfg) s) : s.Timely := by
  have inv := Machine.ReachedUnder.invariant (P := StampSystem.Inv mem)
    (fun _ => StampSystem.Inv.initial fits)
    (fun _ _ _ h ok stepped => h.step fifo ok stepped) reached
  obtain ⟨groups, part, free, pending, handed, -, -, calls, order⟩ := inv.ring
  have first := (List.sublist_append_left _ _).trans order
  exact ⟨handed, calls, first, inv.sorted.sublist first⟩

private theorem unpadded_short : ([] : List UInt8).length < 4 := by decide

private theorem padded_short : ([0, 0] : List UInt8).length < 4 := by decide

/-- A frame that fills a ring of two descriptors of eight bytes. -/
def ringFrame : WireFrame :=
  ⟨(List.range 16).map UInt8.ofNat, [], by decide, by decide, unpadded_short⟩

/-- A frame that is all status. -/
def bareFrame : WireFrame := ⟨[4, 5], [0, 0], by decide, by decide, padded_short⟩

/-- The clock at `n` seconds. -/
def seconds (n : Nat) : Timestamp := ⟨BitVec.ofNat 64 n, 0#64⟩

/-- A port that the frames `frames` are about to reach at the first second. -/
def beforeStamps (frames : List WireFrame) : StampSystem :=
  ⟨freshRx .small [4096, 8192], .idle frames (seconds 1), [], [], []⟩

/-- One frame is purged, the next comes in later, and is read later still. -/
def stampedLater : List StampEvent :=
  [.hardware .complete, .drain, .purge [], .hardware (.tick (seconds 2)), .hardware .complete,
    .drain, .hardware (.tick (seconds 3)), .applyTimestamps, .read ⟨true, true, false⟩ 64 true 0]

theorem timestamps_of_frames_later :
    ∃ s, (stampSystem .small fifoConfig [shortFrame, bareFrame]).replay
        (beforeStamps [shortFrame, bareFrame]) stampedLater = some s ∧
      s.returned.map StampedRead.result = [.ok ([4, 5] ++ (seconds 2).bytes)] ∧ s.Timely := by
  have start : (stampSystem .small fifoConfig [shortFrame, bareFrame]).init
      (beforeStamps [shortFrame, bareFrame]) :=
    ⟨fresh_freshRx .small rfl, rfl, rfl, rfl, rfl, rfl⟩
  have always : ∀ e ∈ stampedLater, ∀ s, PurgeInStep fifoConfig s e := by
    intro e _ s
    cases e with
    | purge star => exact .inl (.inl rfl)
    | hardware a => trivial
    | drain => trivial
    | applyTimestamps => trivial
    | read settings bufLength alloc unmovedBytes => trivial
  refine ⟨_, rfl, by decide, ?_⟩
  exact timestamps_of_frames rfl [shortFrame, bareFrame] (by decide)
    (.replay (.init start) stampedLater (Machine.met_of_mem always _) rfl)

/-- A purge whose RRES is refused leaves half a frame in the FIFO; the next frame ends at once. -/
def stampedWrong : List StampEvent :=
  [.hardware .complete, .hardware .complete, .drain, .purge (List.replicate 50 ceBit),
    .hardware (.tick (seconds 2)), .drain, .hardware .complete, .hardware (.tick (seconds 3)),
    .drain, .read ⟨true, true, false⟩ 64 true 0]

/-- The time that is handed out with the second of two frames is neither's. -/
private theorem not_timely {s : StampSystem}
    (ended : s.ended = [⟨[1, 2, 3], seconds 1⟩, ⟨[8, 9], seconds 3⟩])
    (returned : s.returned = [⟨⟨true, true, false⟩, 0, .ok ([8, 9] ++ (seconds 2).bytes)⟩]) :
    ¬s.Timely := by
  rintro ⟨handed, calls, order, -⟩
  rw [returned] at calls
  rw [ended] at order
  obtain ⟨es, rest, call, none_, rfl⟩ := List.forall₂_cons_left_iff.mp calls
  obtain rfl := List.forall₂_nil_left_iff.mp none_
  rw [List.flatten_singleton, ← List.mem_sublists'] at order
  have wrong : ∀ es ∈ List.sublists' [(⟨[1, 2, 3], seconds 1⟩ : Stamped), ⟨[8, 9], seconds 3⟩],
      [8, 9] ++ (seconds 2).bytes ≠
        copiedOut (es.flatMap (Stamped.output ⟨true, true, false⟩)) 0 := by
    decide
  exact wrong es order call

theorem timestamp_of_another :
    ∃ s, (stampSystem .small ⟨false, 0, 0, false⟩ [shortFrame, ringFrame, bareFrame]).Reached s ∧
      s.ended = [⟨[1, 2, 3], seconds 1⟩, ⟨[8, 9], seconds 3⟩] ∧
      s.returned = [⟨⟨true, true, false⟩, 0, .ok ([8, 9] ++ (seconds 2).bytes)⟩] ∧ ¬s.Timely := by
  have start : (stampSystem .small ⟨false, 0, 0, false⟩ [shortFrame, ringFrame, bareFrame]).init
      (beforeStamps [shortFrame, ringFrame, bareFrame]) :=
    ⟨fresh_freshRx .small rfl, rfl, rfl, rfl, rfl, rfl⟩
  exact ⟨_, .replay (.init start) stampedWrong rfl, by decide, by decide,
    not_timely (by decide) (by decide)⟩

end Fscc
