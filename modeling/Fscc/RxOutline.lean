import Fscc.RxStream

/-!
# The outline of a port

No branch of the receive path looks into a buffer. What a drain takes from the device, what a
reader is told, how many bytes it gets and which descriptors it frees all follow from the control
words, the counts, the timestamps and the fields of the port: from its outline.
-/

namespace Fscc

open CInt

variable {δ : Type} (dev : Device δ) (mem : Memory)

/-- A descriptor without its addresses and without what its buffer holds. -/
def IoFrame.outline (f : IoFrame) : IoFrame :=
  ⟨⟨f.desc.control, f.desc.dataCount, 0#32⟩, 0#32, [], f.timestamp⟩

/-- A port without what its buffers hold. -/
def RxPort.outline (p : RxPort) : RxPort :=
  { p with rxDescriptors := p.rxDescriptors.map IoFrame.outline }

def Drain.outline (s : Drain) : Drain := { s with frame := s.frame.outline }

def Reading.outline (r : Reading) : Reading := { r with tempData := [] }

private theorem getD_outline (descs : List IoFrame) (i : Nat) :
    (descs.map IoFrame.outline).getD i default = (descs.getD i default).outline := by
  rw [List.getD_eq_getElem?_getD, List.getD_eq_getElem?_getD, List.getElem?_map]
  cases descs[i]? with
  | none => rfl
  | some f => rfl

namespace RxPort

variable (p : RxPort)

private theorem fifoFrame_outline : p.outline.fifoFrame = p.fifoFrame.outline :=
  getD_outline p.rxDescriptors p.fifoRxDesc

private theorem userFrame_outline : p.outline.userFrame = p.userFrame.outline :=
  getD_outline p.rxDescriptors p.userRxDesc

private theorem load_outline : p.outline.load = p.load.outline := by
  rw [load, fifoFrame_outline]
  rfl

private theorem store_outline (s : Drain) : p.outline.store mem s.outline =
    (p.store mem s).outline := by
  unfold store outline
  rw [List.map_set]
  rfl

private theorem putUser_outline (f : IoFrame) :
    p.outline.putUser mem f.outline = (p.putUser mem f).outline := by
  unfold putUser outline
  rw [List.map_set]

private theorem setUser_outline (f : IoFrame) :
    { p.outline with
      rxDescriptors := p.outline.rxDescriptors.set p.outline.userRxDesc f.outline } =
      ({ p with rxDescriptors := p.rxDescriptors.set p.userRxDesc f } : RxPort).outline := by
  unfold outline
  rw [List.map_set]

end RxPort

section Same

variable {p q : RxPort} (same : p.outline = q.outline)
include same

private theorem fifoFrame_congr : p.fifoFrame.outline = q.fifoFrame.outline := by
  rw [← p.fifoFrame_outline, same, q.fifoFrame_outline]

private theorem userFrame_congr : p.userFrame.outline = q.userFrame.outline := by
  rw [← p.userFrame_outline, same, q.userFrame_outline]

private theorem store_congr {s t : Drain} (done : s.outline = t.outline) :
    (p.store mem s).outline = (q.store mem t).outline := by
  rw [← p.store_outline, ← q.store_outline, same, done]

private theorem putUser_congr {f g : IoFrame} (put : f.outline = g.outline) :
    (p.putUser mem f).outline = (q.putUser mem g).outline := by
  rw [← p.putUser_outline, ← q.putUser_outline, same, put]

private theorem setUser_congr {f g : IoFrame} (put : f.outline = g.outline) :
    ({ p with rxDescriptors := p.rxDescriptors.set p.userRxDesc f } : RxPort).outline =
      ({ q with rxDescriptors := q.rxDescriptors.set q.userRxDesc g } : RxPort).outline := by
  rw [← p.setUser_outline, ← q.setUser_outline, same, put]

end Same

/-! ### The drain -/

private theorem stampFrame_outline (f : IoFrame) (d : δ) :
    (stampFrame dev f.outline d).1 = (stampFrame dev f d).1.outline ∧
      (stampFrame dev f.outline d).2 = (stampFrame dev f d).2 := by
  unfold stampFrame
  rw [show f.outline.timestamp = f.timestamp from rfl]
  split
  · exact ⟨rfl, rfl⟩
  · exact ⟨rfl, rfl⟩

/-- The first half of a pass: what is taken goes into the buffer and nowhere else. -/
private theorem fifoReadFetch_outline (s : Drain) (d : δ) :
    (fifoReadFetch dev mem s.outline d).1.outline = (fifoReadFetch dev mem s d).1.outline ∧
      (fifoReadFetch dev mem s.outline d).2 = (fifoReadFetch dev mem s d).2 := ⟨rfl, rfl⟩

private theorem fifoReadFinish_outline (s : Drain) (d : δ) :
    (fifoReadFinish dev mem s.outline d).1 = (fifoReadFinish dev mem s d).1.outline ∧
      (fifoReadFinish dev mem s.outline d).2 = (fifoReadFinish dev mem s d).2 := by
  obtain ⟨stamped, clock⟩ := stampFrame_outline dev s.frame d
  -- what the second half makes of a descriptor that is finished, or is not
  let finalised (f : IoFrame) (done : Bool) : IoFrame × δ :=
    if done then ((stampFrame dev f d).1.setDataCount mem.rxSize, (stampFrame dev f d).2)
    else (f, d)
  have outlined (done : Bool) : finalised s.frame.outline done =
      ((finalised s.frame done).1.outline, (finalised s.frame done).2) := by
    cases done with
    | true =>
      simp only [finalised, if_true]
      rw [stamped, clock]
      rfl
    | false => rfl
  have half (t : Drain) : fifoReadFinish dev mem t d =
      let newControl := (fifoReadFinish dev mem t d).1.newControl
      ({ (fifoReadFinish dev mem t d).1 with
          frame := (finalised t.frame (hasCstop newControl)).1.setControl newControl },
        (finalised t.frame (hasCstop newControl)).2) := rfl
  rw [half s.outline, half s]
  dsimp only
  rw [show s.outline.frame = s.frame.outline from rfl, outlined]
  exact ⟨rfl, rfl⟩

private theorem fifoReadPass_outline (p : RxPort) (d : δ) :
    (fifoReadPass dev mem p.outline d).1.outline = (fifoReadPass dev mem p d).1.outline ∧
      (fifoReadPass dev mem p.outline d).2 = (fifoReadPass dev mem p d).2 := by
  obtain ⟨fetched, after⟩ := fifoReadFetch_outline dev mem p.load d
  have first := fifoReadFinish_outline dev mem
    (fifoReadFetch dev mem p.load.outline d).1 (fifoReadFetch dev mem p.load d).2
  have second := fifoReadFinish_outline dev mem
    (fifoReadFetch dev mem p.load d).1 (fifoReadFetch dev mem p.load d).2
  unfold fifoReadPass
  rw [p.load_outline, after, ← first.1, ← second.1, ← first.2, ← second.2, fetched]
  exact ⟨rfl, rfl⟩

/-- Two ports with one outline take the same from the device in a pass, and keep one outline. -/
private theorem fifoReadPass_congr {p q : RxPort} (same : p.outline = q.outline) (d : δ) :
    (fifoReadPass dev mem p d).1.outline = (fifoReadPass dev mem q d).1.outline ∧
      (fifoReadPass dev mem p d).2 = (fifoReadPass dev mem q d).2 := by
  have first := fifoReadPass_outline dev mem p d
  have second := fifoReadPass_outline dev mem q d
  rw [← first.1, ← second.1, ← first.2, ← second.2, same]
  exact ⟨rfl, rfl⟩

private theorem fifoReadLoop_congr (n : Nat) {p q : RxPort} (same : p.outline = q.outline) (d : δ) :
    (fifoReadLoop dev mem n p d).1.outline = (fifoReadLoop dev mem n q d).1.outline ∧
      (fifoReadLoop dev mem n p d).2 = (fifoReadLoop dev mem n q d).2 := by
  induction n generalizing p q d with
  | zero => exact ⟨same, rfl⟩
  | succ n ih =>
    obtain ⟨done, device⟩ := fifoReadPass_congr dev mem same d
    have stored := store_congr mem same done
    -- both loops leave off at the same descriptor
    have full : p.fifoFrame.cstop = q.fifoFrame.cstop :=
      (congrArg IoFrame.cstop (fifoFrame_congr same) :)
    have control : (fifoReadPass dev mem p d).1.newControl =
        (fifoReadPass dev mem q d).1.newControl := (congrArg Drain.newControl done :)
    rw [fifoReadLoop_succ, fifoReadLoop_succ, full, control, device]
    split
    · exact ⟨same, rfl⟩
    · split
      · exact ih stored _
      · exact ⟨stored, rfl⟩

/-- Two ports with one outline are drained in step. -/
theorem fifoReadData_congr {p q : RxPort} (same : p.outline = q.outline) (d : δ) :
    (fifoReadData dev mem p d).1.outline = (fifoReadData dev mem q d).1.outline ∧
      (fifoReadData dev mem p d).2 = (fifoReadData dev mem q d).2 :=
  fifoReadLoop_congr dev mem mem.rxNum same d

/-! ### Readiness -/

private theorem userNextReadSize_outline (p : RxPort) :
    userNextReadSize mem p.outline = userNextReadSize mem p :=
  Ring.walk_map IoFrame.outline p.rxDescriptors default nextReadStep _ mem.rxNum p.userRxDesc 0

private theorem userNextReadSize_congr {p q : RxPort} (same : p.outline = q.outline) :
    userNextReadSize mem p = userNextReadSize mem q := by
  rw [← userNextReadSize_outline mem p, same, userNextReadSize_outline]

theorem ioUserReadReady_congr {p q : RxPort} (same : p.outline = q.outline) (streaming : Bool) :
    ioUserReadReady mem streaming p = ioUserReadReady mem streaming q := by
  rw [ioUserReadReady, ioUserReadReady, userNextReadSize_congr mem same]

/-! ### `fscc_user_read_frame` -/

private theorem readDescriptor_outline (settings : Settings) (f : IoFrame) (r : Reading) (d : δ) :
    (readDescriptor dev settings f.outline r.outline d).1.outline =
        (readDescriptor dev settings f r d).1.outline ∧
      (readDescriptor dev settings f.outline r.outline d).2.1.outline =
        (readDescriptor dev settings f r d).2.1.outline ∧
      (readDescriptor dev settings f.outline r.outline d).2.2 =
        (readDescriptor dev settings f r d).2.2 := ⟨rfl, rfl, rfl⟩

private theorem nextFrame_outline (settings : Settings) (bufLength : Nat) (next : Bool × Nat)
    (r : Reading) :
    nextFrame settings bufLength next r.outline =
      (nextFrame settings bufLength next r).map Reading.outline := by
  unfold nextFrame
  split
  · rfl
  · split
    · rfl
    · rw [show r.outline.outLength = r.outLength from rfl]
      split
      · rfl
      · rfl

/-- What a step of the read loop is decided by in two ports with one outline. -/
private theorem readDescriptor_congr (settings : Settings) {f g : IoFrame}
    (frames : f.outline = g.outline)
    {r s : Reading} (locals : r.outline = s.outline) (d : δ) :
    (readDescriptor dev settings f r d).1.outline = (readDescriptor dev settings g s d).1.outline ∧
      (readDescriptor dev settings f r d).2.1.outline =
        (readDescriptor dev settings g s d).2.1.outline ∧
      (readDescriptor dev settings f r d).2.2 = (readDescriptor dev settings g s d).2.2 := by
  have first := readDescriptor_outline dev settings f r d
  have second := readDescriptor_outline dev settings g s d
  rw [← first.1, ← first.2.1, ← first.2.2, ← second.1, ← second.2.1, ← second.2.2, frames, locals]
  exact ⟨rfl, rfl, rfl⟩

private theorem nextFrame_congr (settings : Settings) (bufLength : Nat) (next : Bool × Nat)
    {r s : Reading} (locals : r.outline = s.outline) :
    (nextFrame settings bufLength next r).map Reading.outline =
      (nextFrame settings bufLength next s).map Reading.outline := by
  rw [← nextFrame_outline, locals, nextFrame_outline]

private theorem userReadLoop_congr (settings : Settings) (bufLength n : Nat) {p q : RxPort}
    (same : p.outline = q.outline) {r s : Reading} (locals : r.outline = s.outline) (d : δ) :
    (userReadLoop dev mem settings bufLength n p r d).1.outline =
        (userReadLoop dev mem settings bufLength n q s d).1.outline ∧
      (userReadLoop dev mem settings bufLength n p r d).2.2 =
        (userReadLoop dev mem settings bufLength n q s d).2.2 := by
  -- Induction on the passes. Both loops see the same flags and counts, and so go the same way.
  induction n generalizing p q r s d with
  | zero => exact ⟨same, rfl⟩
  | succ n ih =>
    obtain ⟨freed, left, device⟩ :=
      readDescriptor_congr dev settings (userFrame_congr same) locals d
    have put := putUser_congr mem same freed
    unfold userReadLoop
    dsimp only
    generalize readDescriptor dev settings p.userFrame r d = first at put left device ⊢
    generalize readDescriptor dev settings q.userFrame s d = second at put left device ⊢
    have ended : first.2.1.bytesInDescs = second.2.1.bytesInDescs :=
      (congrArg Reading.bytesInDescs left :)
    rw [ended, device, userNextReadSize_congr mem put]
    split
    · have next := nextFrame_congr settings bufLength
        (userNextReadSize mem (q.putUser mem second.1)) left
      generalize nextFrame settings bufLength _ first.2.1 = more at next ⊢
      generalize nextFrame settings bufLength _ second.2.1 = more' at next ⊢
      cases more with
      | none =>
        cases more' with
        | none => exact ⟨put, rfl⟩
        | some s' => cases next
      | some r' =>
        cases more' with
        | none => cases next
        | some s' => exact ih put (Option.some.inj next) second.2.2
    · exact ih put left second.2.2

/-- A read of frames frees the same descriptors of two ports with one outline. -/
theorem userReadFrame_congr (settings : Settings) (bufLength : Nat) (alloc : Bool)
    (unmovedBytes : Nat) {p q : RxPort} (same : p.outline = q.outline) (d : δ) :
    (userReadFrame dev mem settings bufLength alloc unmovedBytes p d).2.1.outline =
        (userReadFrame dev mem settings bufLength alloc unmovedBytes q d).2.1.outline ∧
      (userReadFrame dev mem settings bufLength alloc unmovedBytes p d).2.2 =
        (userReadFrame dev mem settings bufLength alloc unmovedBytes q d).2.2 := by
  unfold userReadFrame
  rw [userNextReadSize_congr mem same]
  split
  · exact ⟨same, rfl⟩
  · dsimp only
    split
    · exact ⟨same, rfl⟩
    · split
      · exact ⟨same, rfl⟩
      · exact userReadLoop_congr dev mem settings bufLength mem.rxNum same rfl d

/-! ### `fscc_user_read_stream` -/

private theorem streamDescriptor_outline (i space : Nat) (f : IoFrame) :
    (streamDescriptor mem i space f.outline).1.outline =
        (streamDescriptor mem i space f).1.outline ∧
      (streamDescriptor mem i space f.outline).2.1.length =
        (streamDescriptor mem i space f).2.1.length ∧
      (streamDescriptor mem i space f.outline).2.2 = (streamDescriptor mem i space f).2.2 := by
  rw [streamDescriptor_eq, streamDescriptor_eq,
    show f.outline.desc.dataCount = f.desc.dataCount from rfl]
  split
  · rw [length_bytesAt, length_bytesAt]
    exact ⟨rfl, rfl, rfl⟩
  · rw [length_bytesAt, length_bytesAt]
    exact ⟨rfl, rfl, rfl⟩

private theorem userReadStreamLoop_congr (bufLength n outLength : Nat) {p q : RxPort}
    (same : p.outline = q.outline) (tempData tempData' : List UInt8) :
    (userReadStreamLoop mem bufLength n p outLength tempData).1.outline =
        (userReadStreamLoop mem bufLength n q outLength tempData').1.outline ∧
      (userReadStreamLoop mem bufLength n p outLength tempData).2.1 =
        (userReadStreamLoop mem bufLength n q outLength tempData').2.1 := by
  -- Induction on the passes. The data may differ, the lengths do not.
  induction n generalizing p q outLength tempData tempData' with
  | zero => exact ⟨same, rfl⟩
  | succ n ih =>
    have user := userFrame_congr same
    have fe : p.userFrame.fe = q.userFrame.fe := (congrArg IoFrame.fe user :)
    have cstop : p.userFrame.cstop = q.userFrame.cstop := (congrArg IoFrame.cstop user :)
    have first := streamDescriptor_outline mem (mem.rxNum - (n + 1)) (subSize bufLength outLength)
      p.userFrame
    have second := streamDescriptor_outline mem (mem.rxNum - (n + 1)) (subSize bufLength outLength)
      q.userFrame
    rw [user] at first
    have left := first.1.symm.trans second.1
    have length := first.2.1.symm.trans second.2.1
    have emptied := first.2.2.symm.trans second.2.2
    unfold userReadStreamLoop
    dsimp only
    rw [fe, cstop]
    split
    · exact ⟨same, rfl⟩
    · rw [length, emptied]
      split
      · exact ih _ (putUser_congr mem same left) _ _
      · exact ⟨setUser_congr same left, rfl⟩

/-- A read of a stream leaves one outline, and says that it has as many bytes. -/
theorem userReadStream_congr (bufLength : Nat) (alloc : Bool) (unmovedBytes : Nat) {p q : RxPort}
    (same : p.outline = q.outline) :
    (userReadStream mem bufLength alloc unmovedBytes p).2.outline =
        (userReadStream mem bufLength alloc unmovedBytes q).2.outline ∧
      streamOutLength mem bufLength p = streamOutLength mem bufLength q := by
  have loop := userReadStreamLoop_congr mem bufLength mem.rxNum 0 same
    (List.replicate bufLength 0) (List.replicate bufLength 0)
  refine ⟨?_, loop.2⟩
  cases alloc with
  | false => exact same
  | true => exact loop.1

/-! ### A purge -/

/-- A purged port has the outline of every other with as many descriptors. -/
theorem resetRx_congr {p q : RxPort} (size : p.rxDescriptors.length = q.rxDescriptors.length) :
    (resetRx mem p).outline = (resetRx mem q).outline := by
  have purged (fs : List IoFrame) : (fs.map (purgedRxFrame mem)).map IoFrame.outline =
      List.replicate fs.length
        ⟨⟨descHiBit, mem.rxSize, 0#32⟩, 0#32, [], .clear⟩ := by
    rw [List.map_map]
    exact List.map_eq_replicate_iff.mpr fun f _ => rfl
  unfold resetRx RxPort.outline
  dsimp only
  rw [purged, purged, size]

end Fscc
