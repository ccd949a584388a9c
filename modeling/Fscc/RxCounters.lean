import Fscc.RxProper
import Fscc.StreamReady

/-!
# The receive counters

`rx_bytes_in_frame` is reset at the end of a frame and by a purge only. In a framed mode the ring
bounds it; a stream has no frames, and adds to it for as long as nothing is purged.
-/

namespace Fscc

open CInt

variable {δ : Type} (dev : Device δ) {mem : Memory} {p : RxPort}

/-! ### What the ring holds of a frame -/

/-- The finished descriptors after the last that ends a frame. -/
def RxPort.unended (p : RxPort) : List IoFrame :=
  ((((Ring.view p.rxDescriptors p.userRxDesc).takeWhile IoFrame.cstop).reverse).takeWhile
    fun f => !f.fe).reverse

/-- The bytes in the ring of the frame that is not finalised. -/
def RxPort.unendedBytes (p : RxPort) : Nat :=
  (p.unended.map fun f => f.desc.dataCount).sum + p.filling

namespace Framed

variable {groups : List (FrameGroup mem)} {part free : List IoFrame}

private theorem unended_eq (h : Framed mem p groups part free) : p.unended = part := by
  have plain : ∀ f ∈ part.reverse, (!f.fe) = true := by
    intro f member
    rw [(h.part_ok f (List.mem_reverse.mp member)).fe, Bool.not_false]
  have ended : ((groups.flatMap FrameGroup.descs).reverse).takeWhile (fun f => !f.fe) = [] := by
    rcases List.eq_nil_or_concat groups with rfl | ⟨gs, g, rfl⟩
    · rfl
    · rw [List.concat_eq_append, List.flatMap_append, List.flatMap_singleton, FrameGroup.descs,
        ← List.append_assoc, List.reverse_append, List.reverse_singleton, List.singleton_append,
        List.takeWhile_cons, g.last_fe]
      rfl
  rw [RxPort.unended, h.ring.cut.1, List.reverse_append, List.takeWhile_append_of_pos plain, ended,
    List.append_nil, List.reverse_reverse]

/-- In a framed mode `rx_bytes_in_frame` is what the ring holds of the frame not finalised. -/
private theorem unendedBytes_eq (h : Framed mem p groups part free) :
    p.rxBytesInFrame = (p.unendedBytes : Int) := by
  have counts : ∀ fs : List IoFrame, (∀ f ∈ fs, f.Full mem) →
      (fs.map fun f => f.desc.dataCount).sum = fs.length * mem.rxSize := by
    intro fs full
    induction fs with
    | nil => rw [List.length_nil, Nat.zero_mul]; rfl
    | cons f fs ih =>
      rw [List.map_cons, List.sum_cons, ih fun g member => full g (.tail _ member),
        (full f (.head _)).dataCount, List.length_cons, Nat.succ_mul, Nat.add_comm]
  have filling : p.filling = headCount free := by
    unfold RxPort.filling
    cases free with
    | nil => rw [h.ring.fifoFrame_full, if_pos rfl]; rfl
    | cons f rest =>
      rw [h.ring.fifoFrame_eq, (h.ring.free_open f (.head _)).2, if_neg Bool.false_ne_true]
      rfl
  rw [h.bytes, RxPort.unendedBytes, h.unended_eq, counts part h.part_ok, filling]

/-- What a pass adds keeps within the ring. -/
private theorem adds (h : Framed mem p groups part free) (opened : p.fifoFrame.cstop = false) (d : δ) :
    p.rxBytesInFrame + (drainLength dev mem p d).1 < 2147483648 := by
  cases free with
  | nil =>
    rw [h.ring.fifoFrame_full] at opened
    cases opened
  | cons f rest =>
    have bytes := h.bytes
    have bound := h.part_bound
    have fits := mem.rx_fits
    have room := h.ring.free_room f (.head _)
    have taken := drainLength_le dev mem h.ring d
    rw [headCount] at bytes
    rw [Nat.succ_mul] at bound
    omega

/-- A pass leaves a framed ring, whatever is read. -/
private theorem after_pass (h : Framed mem p groups part free) (opened : p.fifoFrame.cstop = false)
    (d : δ) :
    ∃ groups' part' free',
      Framed mem (p.store mem (fifoReadPass dev mem p d).1) groups' part' free' := by
  cases free with
  | nil =>
    rw [h.ring.fifoFrame_full] at opened
    cases opened
  | cons f rest =>
    have pass := h.pass dev d
    generalize hasCstop (fifoReadPass dev mem p d).1.newControl = cstop at pass
    generalize hasFe (fifoReadPass dev mem p d).1.newControl = fe at pass
    cases pass with
    | last g _ _ _ _ _ _ _ framed => exact ⟨_, _, _, framed⟩
    | full f' _ _ framed => exact ⟨_, _, _, framed⟩
    | more f' _ _ _ framed => exact ⟨_, _, _, framed⟩

end Framed

/-- What each pass keeps, and what follows from it, holds of every pass of a drain. -/
private theorem EveryPass.of_kept {ok : RxPort → δ → Prop} {P : RxPort → Prop}
    (met : ∀ p d, P p → p.fifoFrame.cstop = false → ok p d)
    (kept : ∀ p d, P p → p.fifoFrame.cstop = false → P (p.store mem (fifoReadPass dev mem p d).1))
    (n : Nat) (d : δ) (holds : P p) : EveryPass dev mem ok n p d := by
  induction n generalizing p d with
  | zero => trivial
  | succ n ih =>
    intro opened
    exact ⟨met p d holds opened, fun _ => ih _ (kept p d holds opened)⟩

/-! ### What is counted of a stream -/

/-- A pass that has no length adds the words it takes, and stays below 2^31. -/
def AddsWithin (mem : Memory) (p : RxPort) (d : δ) : Prop :=
  (drainSize dev p d).1 = 0 →
    let rxcnt := (ioGetRXCNT dev (drainSize dev p d).2).1
    p.rxBytesInFrame + (min (rxcnt - rxcnt % 4) (mem.rxSize - p.fifoFrame.count) : Nat) < 2147483648

/-- In streaming mode, no pass of a drain counts as far as 2^31. -/
def StreamWithin (mem : Memory) (streaming : Bool) (p : RxPort) : RingCall δ → Prop
  | .drain d => streaming = true → EveryPass dev mem (AddsWithin dev mem) mem.rxNum p d
  | _ => True

instance AddsWithin.decidable (mem : Memory) (p : RxPort) (d : δ) :
    Decidable (AddsWithin dev mem p d) :=
  inferInstanceAs (Decidable (_ → _ < _))

instance StreamWithin.decidable (mem : Memory) (streaming : Bool) (p : RxPort) :
    (e : RingCall δ) → Decidable (StreamWithin dev mem streaming p e)
  | .drain _ => inferInstanceAs (Decidable (_ → _))
  | .readFrame _ _ _ _ _ => .isTrue trivial
  | .readStream _ _ _ => .isTrue trivial
  | .purge _ => .isTrue trivial

/-- The ring, with a count that is not negative. -/
def RxCounted (mem : Memory) (p : RxPort) : Prop :=
  (∃ finished free, RxKept mem p finished free) ∧ 0 ≤ p.rxBytesInFrame

namespace RxCounted

/-- A pass that has a length never counts beyond it. -/
private theorem pass (h : RxCounted mem p) (opened : p.fifoFrame.cstop = false) {d : δ}
    (within : AddsWithin dev mem p d) :
    RxCounted mem (p.store mem (fifoReadPass dev mem p d).1) := by
  obtain ⟨⟨finished, free, kept⟩, pos⟩ := h
  cases free with
  | nil =>
    rw [kept.pieces.ring.fifoFrame_full] at opened
    cases opened
  | cons f rest =>
    have whole : ¬SplitsWord dev mem p d := by
      rintro ⟨negative, behind, -⟩
      omega
    refine ⟨kept.pass dev d whole, ?_⟩
    have counters := fetched_counters dev mem p d
    have size := drainSize_range dev kept.size_range d
    have bytes := kept.bytes_range
    have sum : p.rxBytesInFrame + ((drainLength dev mem p d).1 : Int) < 2147483648 := by
      by_cases unknown : (drainSize dev p d).1 = 0
      · rw [drainLength_unknown dev mem kept.pieces.ring d unknown]
        have added := within unknown
        rw [kept.pieces.ring.fifoFrame_eq] at added
        exact added
      · have taken := kept.length_known dev d unknown
        omega
    have same : toInt32 (p.rxBytesInFrame + (drainLength dev mem p d).1) =
        p.rxBytesInFrame + (drainLength dev mem p d).1 := by
      unfold toInt32
      rw [Int.bmod_def]
      omega
    rw [rxBytesInFrame_store]
    rcases finish_counters mem dev (fifoReadFetch dev mem p.load d).1
      (fifoReadFetch dev mem p.load d).2 with ⟨going, -⟩ | ended
    · rw [fifoReadPass, going, counters.1, same]
      omega
    · rw [fifoReadPass, ended]

private theorem step {q : RxPort} {e : RingCall δ} (cfg : PortConfig) (h : RxCounted mem p)
    (mode : e.inMode true = true) (met : StreamWithin dev mem true p e)
    (stepped : (ringCalls dev mem cfg).step p e = some q) : RxCounted mem q := by
  cases e with
  | drain d =>
    obtain rfl := Option.some.inj stepped
    exact EveryPass.drain dev (fun p d holds opened within => pass dev holds opened within) h
      (met rfl)
  | readFrame settings bufLength alloc unmovedBytes d => cases mode
  | readStream bufLength alloc unmovedBytes =>
    obtain ⟨⟨finished, free, kept⟩, pos⟩ := h
    obtain rfl := Option.some.inj stepped
    refine ⟨kept.readStream bufLength alloc unmovedBytes, ?_⟩
    cases alloc with
    | false => exact pos
    | true =>
      obtain ⟨⟨finished', free', left⟩, -⟩ := kept.pieces.read bufLength.isLt unmovedBytes
      rw [left.bytesInFrame]
      exact pos
  | purge d =>
    obtain ⟨⟨finished, free, kept⟩, -⟩ := h
    obtain rfl := Option.some.inj stepped
    exact ⟨⟨_, _, .purge kept.pieces.ring.size kept.pieces.ring.buffers_mem⟩, Int.le_refl 0⟩

end RxCounted

/-! ### Frames -/

/-- A ring of frames, whatever their lengths. -/
def RxFramed (mem : Memory) (p : RxPort) : Prop :=
  ∃ (groups : List (FrameGroup mem)) (part free : List IoFrame), Framed mem p groups part free

namespace RxFramed

private theorem step {q : RxPort} {e : RingCall δ} (cfg : PortConfig) (h : RxFramed mem p)
    (mode : e.inMode false = true) (stepped : (ringCalls dev mem cfg).step p e = some q) :
    RxFramed mem q := by
  cases e with
  | drain d =>
    obtain rfl := Option.some.inj stepped
    refine fifoReadData_kept dev mem (P := RxFramed mem) ?_ d h
    rintro p d ⟨groups, part, free, framed⟩ opened
    exact framed.after_pass dev opened d
  | readFrame settings bufLength alloc unmovedBytes d =>
    obtain ⟨groups, part, free, framed⟩ := h
    obtain rfl := Option.some.inj stepped
    obtain ⟨groups', fs, framed', -⟩ := framed.read_any dev settings bufLength alloc unmovedBytes d
    exact ⟨_, _, _, framed'⟩
  | readStream bufLength alloc unmovedBytes => cases mode
  | purge d =>
    obtain ⟨groups, part, free, framed⟩ := h
    obtain rfl := Option.some.inj stepped
    exact ⟨_, _, _, .reset framed.ring.size framed.ring.buffers_mem⟩

private theorem adds (h : RxFramed mem p) (d : δ) :
    EveryPass dev mem (fun p d => p.rxBytesInFrame + (drainLength dev mem p d).1 < 2147483648)
      mem.rxNum p d := by
  refine EveryPass.of_kept dev (P := RxFramed mem) ?_ ?_ mem.rxNum d h
  · rintro p d ⟨groups, part, free, framed⟩ opened
    exact framed.adds dev opened d
  · rintro p d ⟨groups, part, free, framed⟩ opened
    exact framed.after_pass dev opened d

end RxFramed

/-! ### The property -/

/-- `rx_bytes_in_frame` is in the range of its additions; in a framed mode it is what the ring holds
of the frame that is not finalised, and no drain from here adds beyond the range. -/
structure CountersTrue (dev : Device δ) (mem : Memory) (streaming : Bool) (p : RxPort) : Prop where
  range : 0 ≤ p.rxBytesInFrame ∧ p.rxBytesInFrame < 2147483648
  held : streaming = false → p.rxBytesInFrame = (p.unendedBytes : Int)
  adds : streaming = false → ∀ d : δ, EveryPass dev mem
    (fun p d => p.rxBytesInFrame + (drainLength dev mem p d).1 < 2147483648) mem.rxNum p d

/-- Over every run in one mode, whatever is read: `rx_bytes_in_frame` is true as long as a stream is
purged before it comes to 2^31 bytes. Frames need no such condition. -/
theorem counters_in_range (cfg : PortConfig) (streaming : Bool)
    (reached : (modeCalls dev mem cfg streaming).ReachedUnder (StreamWithin dev mem streaming) p) :
    CountersTrue dev mem streaming p := by
  cases streaming with
  | true =>
    have counted := Machine.ReachedUnder.invariant (m := modeCalls dev mem cfg true)
      (P := RxCounted mem) ?_ ?_ reached
    · obtain ⟨⟨finished, free, kept⟩, pos⟩ := counted
      exact ⟨⟨pos, kept.bytes_range.2⟩, Bool.noConfusion, Bool.noConfusion⟩
    · rintro p ⟨q, rfl, size, buffers⟩
      exact ⟨⟨_, _, .purge size buffers⟩, Int.le_refl 0⟩
    · intro p q e h met stepped
      obtain ⟨mode, stepped⟩ := Option.ite_none_right_eq_some.mp stepped
      exact h.step dev cfg mode met stepped
  | false =>
    have framed := Machine.ReachedUnder.invariant (m := modeCalls dev mem cfg false)
      (P := RxFramed mem) ?_ ?_ reached
    · have every := framed.adds dev
      obtain ⟨groups, part, free, ring⟩ := framed
      have bytes := ring.bytes
      have bound := ring.bytes_lt
      exact ⟨by omega, fun _ => ring.unendedBytes_eq, fun _ => every⟩
    · intro p fresh
      obtain ⟨free, ring, -⟩ := fresh.framed
      exact ⟨_, _, _, ring⟩
    · intro p q e h _ stepped
      obtain ⟨mode, stepped⟩ := Option.ite_none_right_eq_some.mp stepped
      exact h.step dev cfg mode stepped

/-- After 2^31 bytes of a stream the counter is not true any more. -/
theorem counter_wrapped : ∃ p, (modeCalls constant .single fifoConfig true).Reached p ∧
    ¬CountersTrue constant .single true p := by
  refine ⟨_, readDry_wrapped, fun true_ => ?_⟩
  have pos := true_.range.1
  revert pos
  decide

theorem counters_in_range_read : ∃ p, (modeCalls constant .small fifoConfig true).replay
    (freshRx .small [4096, 8192]) oneRead = some p ∧ p.rxBytesInFrame = 16 ∧
      CountersTrue constant .small true p := by
  obtain ⟨p, replayed, bytes⟩ : ∃ p, (modeCalls constant .small fifoConfig true).replay
      (freshRx .small [4096, 8192]) oneRead = some p ∧ p.rxBytesInFrame = 16 :=
    ⟨_, rfl, by decide⟩
  refine ⟨p, replayed, bytes, counters_in_range constant fifoConfig true ?_⟩
  exact Machine.ReachedUnder.replay (.init (fresh_freshRx .small rfl)) oneRead (by decide) replayed

end Fscc
