import Fscc.Dma
import Fscc.Registers
import Mathlib.Data.Fintype.Card
import Mathlib.Logic.Function.Iterate

/-!
# Setting up the rings

`fscc_io_initialize` allocates pools, arrays, and for each slot of a ring a frame, a descriptor and
a buffer, any of which may fail. A ring that comes out short is taken as it is, and what has been
allocated before a failure stays.
-/

namespace Fscc

/-! ### Allocations -/

/-- The two rings of a port. -/
inductive RingSide where
  | rx
  | tx
deriving DecidableEq, Repr

/-- What the driver allocates. -/
inductive Block where
  | descPool
  | bufferPool (side : RingSide)
  | array (side : RingSide)
  | frame (side : RingSide) (i : Nat)
  | descriptor (side : RingSide) (i : Nat)
  | buffer (side : RingSide) (i : Nat)
deriving DecidableEq, Repr

/-- What the allocations for one slot come to; a descriptor comes with its bus address. -/
structure FrameOutcome where
  frame : Bool
  descriptor : Option (BitVec 32)
  buffer : Bool
deriving DecidableEq, Repr

/-- All three succeed. -/
def FrameOutcome.granted (o : FrameOutcome) : Bool := o.frame && o.descriptor.isSome && o.buffer

/-- Which of the allocations succeed. The blocks of the descriptor pool are aligned to four bytes,
and two of them that are in use are apart. -/
structure Allocations where
  descPool : Bool
  bufferPool : RingSide → Bool
  array : RingSide → Bool
  frame : RingSide → Nat → FrameOutcome
  aligned : ∀ side i a, (frame side i).descriptor = some a → a.toNat % 4 = 0
  apart : ∀ side i j a, (frame side i).descriptor = some a →
    (frame side j).descriptor = some a → i = j

/-- A number of frames whose array has a size. -/
structure FrameRequest where
  number : Nat
  fits : number * 8 < 18446744073709551616

/-- What `fscc_io_initialize` sets up in `struct fscc_port`, and what is allocated. The slots of an
array after the frames listed are null. -/
structure IoMemory where
  size : RingSide → Nat
  num : RingSide → Nat
  descriptors : RingSide → Option (List IoFrame)
  live : List Block

/-! ### The functions of `io.c` -/

/-- `fscc_io_create_frame`, for slot `i`. -/
def ioCreateFrame (side : RingSide) (i size : Nat) (o : FrameOutcome) (live : List Block) :
    Option IoFrame × List Block :=
  if !o.frame then (none, live)
  else
    let live := .frame side i :: live
    match o.descriptor with
    | none => (none, live.erase (.frame side i))
    | some address =>
      let live := .descriptor side i :: live
      if !o.buffer then (none, (live.erase (.descriptor side i)).erase (.frame side i))
      else (some ⟨⟨0#32, 0, 0#32⟩, address, List.replicate size 0, .clear⟩,
        .buffer side i :: live)

/-- The loop of `fscc_io_create_rx_frames` and `fscc_io_create_tx_frames`, with `left` slots to
come after `frames`. -/
def ioCreateFramesLoop (side : RingSide) (size dataCount : Nat) (outcome : Nat → FrameOutcome) :
    Nat → List IoFrame → List Block → List IoFrame × List Block
  | 0, frames, live => (frames, live)
  | left + 1, frames, live =>
    let i := frames.length
    let created := ioCreateFrame side i size (outcome i) live
    match created.1 with
    | none => (frames, created.2)
    | some f =>
      let f := (f.setControl (if i % 2 = 1 then descHiBit else 0#32)).setDataCount dataCount
      ioCreateFramesLoop side size dataCount outcome left (frames ++ [f]) created.2

/-- What `fscc_io_create_rx_frames` and `fscc_io_create_tx_frames` share. -/
def ioCreateFrames (side : RingSide) (dataCount : Nat) (alloc : Allocations)
    (numberOfFrames : FrameRequest) (m : IoMemory) : Except Errno Unit × IoMemory :=
  if !alloc.array side then
    (.error .enomem, { m with descriptors := Function.update m.descriptors side none })
  else
    let made := ioCreateFramesLoop side (m.size side) dataCount (alloc.frame side)
      numberOfFrames.number [] (.array side :: m.live)
    -- the field of `struct fscc_memory` has 32 bits
    let num := made.1.length % 4294967296
    (.ok (), { m with
      num := Function.update m.num side num
      descriptors := Function.update m.descriptors side
        (some (ioLinkDescriptors (made.1.take num) ++ made.1.drop num))
      live := made.2 })

/-- `fscc_io_create_rx_frames`. -/
def ioCreateRxFrames (alloc : Allocations) (numberOfFrames : FrameRequest) (m : IoMemory) :
    Except Errno Unit × IoMemory :=
  ioCreateFrames .rx (m.size .rx) alloc numberOfFrames m

/-- `fscc_io_create_tx_frames`. -/
def ioCreateTxFrames (alloc : Allocations) (numberOfFrames : FrameRequest) (m : IoMemory) :
    Except Errno Unit × IoMemory :=
  ioCreateFrames .tx 0 alloc numberOfFrames m

/-- `fscc_io_initialize`, for the numbers of frames that stand in `config.h`. -/
def ioInitialize (alloc : Allocations) (frames : RingSide → FrameRequest)
    (rxBufferSize txBufferSize : Nat) (m : IoMemory) : Except Errno Unit × IoMemory :=
  if !alloc.descPool then (.error .enomem, m)
  else
    let m := { m with live := .descPool :: m.live }
    if !alloc.bufferPool .rx then
      (.error .enomem, { m with size := Function.update m.size .rx 0 })
    else
      let m := { m with
        size := Function.update m.size .rx rxBufferSize
        live := .bufferPool .rx :: m.live }
      if !alloc.bufferPool .tx then
        (.error .enomem, { m with size := Function.update m.size .tx 0 })
      else
        let m := { m with
          size := Function.update m.size .tx txBufferSize
          live := .bufferPool .tx :: m.live }
        let rx := ioCreateRxFrames alloc (frames .rx) m
        match rx.1 with
        | .error _ => (.error .enomem, rx.2)
        | .ok _ =>
          let tx := ioCreateTxFrames alloc (frames .tx) rx.2
          match tx.1 with
          | .error _ => (.error .enomem, tx.2)
          | .ok _ => tx

/-! ### The property -/

/-- The slot that `next_descriptor` of the one in slot `i` names. -/
def follow (frames : List IoFrame) (i : Nat) : Nat :=
  indexAt frames (frames.getD i default).desc.nextDescriptor

/-- A ring of at least two slots, each with all that it needs, that `next_descriptor` goes round. -/
structure RingWhole (m : IoMemory) (side : RingSide) (frames : List IoFrame) : Prop where
  here : m.descriptors side = some frames
  enough : 2 ≤ m.num side
  allocated : ∀ i < m.num side, i < frames.length ∧ .frame side i ∈ m.live ∧
    .descriptor side i ∈ m.live ∧ .buffer side i ∈ m.live
  visited : ∀ i < m.num side, ∃! k, k < m.num side ∧ (follow frames)^[k] 0 = i
  closed : (follow frames)^[m.num side] 0 = 0

/-- Both rings are whole, or nothing is allocated that was not before. -/
def WholeOrNothing (before : IoMemory) (result : Except Errno Unit × IoMemory) : Prop :=
  match result.1 with
  | .ok _ => ∀ side, ∃ frames, RingWhole result.2 side frames
  | .error _ => result.2.live = before.live

/-- The first allocation fails; or none does before each ring has two slots. -/
def Allocations.Enough (alloc : Allocations) (frames : RingSide → FrameRequest) : Prop :=
  alloc.descPool = false ∨ ∀ side, alloc.bufferPool side = true ∧ alloc.array side = true ∧
    2 ≤ (frames side).number ∧ (alloc.frame side 0).granted = true ∧
    (alloc.frame side 1).granted = true

/-! ### Creating frames -/

section Create

variable {side : RingSide} {size dataCount : Nat} {outcome : Nat → FrameOutcome}

/-- A frame comes with all of its parts or leaves none behind. -/
theorem ioCreateFrame_cases (side : RingSide) (i size : Nat) (o : FrameOutcome) (live : List Block) :
    (o.granted = false ∧ ioCreateFrame side i size o live = (none, live)) ∨
      ∃ f, o.granted = true ∧ o.descriptor = some f.descPhysicalAddress ∧
        ioCreateFrame side i size o live =
          (some f, .buffer side i :: .descriptor side i :: .frame side i :: live) := by
  obtain ⟨frame, descriptor, buffer⟩ := o
  cases frame with
  | false => exact .inl ⟨rfl, rfl⟩
  | true =>
    cases descriptor with
    | none => exact .inl ⟨rfl, by simp [ioCreateFrame]⟩
    | some address =>
      cases buffer with
      | false => exact .inl ⟨rfl, by simp [ioCreateFrame]⟩
      | true => exact .inr ⟨_, rfl, rfl, rfl⟩

/-- What the loop makes of `left` slots after `start`. -/
structure Made (side : RingSide) (outcome : Nat → FrameOutcome) (start : List IoFrame)
    (live : List Block) (left : Nat) (made : List IoFrame × List Block) : Prop where
  before : start <+: made.1
  most : made.1.length ≤ start.length + left
  granted : ∀ i, start.length ≤ i → i < made.1.length → (outcome i).granted = true
  stopped : made.1.length < start.length + left → (outcome made.1.length).granted = false
  addresses : ∀ i f, start.length ≤ i → made.1[i]? = some f →
    (outcome i).descriptor = some f.descPhysicalAddress
  blocks : ∀ i, start.length ≤ i → i < made.1.length →
    .frame side i ∈ made.2 ∧ .descriptor side i ∈ made.2 ∧ .buffer side i ∈ made.2
  kept : live <:+ made.2

/-- The slots before `start` are not asked about, so a loop that makes none says nothing of them. -/
private theorem Made.nothing {start : List IoFrame} {live : List Block} {left : Nat}
    (stopped : 0 < left → (outcome start.length).granted = false) :
    Made side outcome start live left (start, live) where
  before := List.prefix_rfl
  most := Nat.le_add_right _ _
  granted := fun _ low high => absurd high (Nat.not_lt_of_le low)
  stopped := fun more => stopped (Nat.lt_add_right_iff_pos.mp more)
  addresses := fun _ _ low found =>
    absurd (List.getElem?_eq_some_iff.mp found).1 (Nat.not_lt_of_le low)
  blocks := fun _ low high => absurd high (Nat.not_lt_of_le low)
  kept := List.suffix_rfl

/-- One frame more is made before the rest. -/
private theorem Made.cons {start : List IoFrame} {live : List Block} {left : Nat} {g : IoFrame}
    {made : List IoFrame × List Block} (granted : (outcome start.length).granted = true)
    (address : (outcome start.length).descriptor = some g.descPhysicalAddress)
    (rest : Made side outcome (start ++ [g]) (.buffer side start.length ::
      .descriptor side start.length :: .frame side start.length :: live) left made) :
    Made side outcome start live (left + 1) made := by
  have size : (start ++ [g]).length = start.length + 1 := by simp
  have here : made.1[start.length]? = some g := by
    obtain ⟨more, shape⟩ := rest.before
    rw [← shape, List.append_assoc, List.getElem?_append_right (le_refl _), Nat.sub_self]
    rfl
  exact {
    before := (List.prefix_append start [g]).trans rest.before
    most := by
      have most := rest.most
      omega
    granted := by
      intro i low high
      by_cases first : i = start.length
      · rw [first]
        exact granted
      · exact rest.granted i (by omega) high
    stopped := by
      intro more
      exact rest.stopped (by omega)
    addresses := by
      intro i h low found
      by_cases first : i = start.length
      · rw [first, here] at found
        rw [first, address, ← Option.some.inj found]
      · exact rest.addresses i h (by omega) found
    blocks := by
      intro i low high
      by_cases first : i = start.length
      · rw [first]
        exact ⟨rest.kept.mem (by simp), rest.kept.mem (by simp), rest.kept.mem (by simp)⟩
      · exact rest.blocks i (by omega) high
    kept := List.IsSuffix.trans
      ((List.suffix_cons _ _).trans ((List.suffix_cons _ _).trans (List.suffix_cons _ _)))
      rest.kept }

theorem made_loop (left : Nat) (start : List IoFrame) (live : List Block) :
    Made side outcome start live left
      (ioCreateFramesLoop side size dataCount outcome left start live) := by
  -- Induction on the frames that are left to make.
  induction left generalizing start live with
  | zero => exact .nothing fun some_ => absurd some_ (Nat.lt_irrefl 0)
  | succ left ih =>
    rw [ioCreateFramesLoop]
    dsimp only
    rcases ioCreateFrame_cases side start.length size
      (outcome start.length) live with ⟨refused, created⟩ | ⟨f, granted, address, created⟩
    · -- the ring ends here
      rw [created]
      exact .nothing fun _ => refused
    · -- the descriptor joins those made before, and the rest is made after it
      rw [created]
      dsimp only
      refine .cons granted ?_ (ih _ _)
      exact address

end Create

/-! ### A ring -/

section Whole

variable {side : RingSide} {alloc : Allocations} {live : List Block} {number : Nat}
  {made : List IoFrame × List Block}

/-- The descriptors of a ring have addresses of their own. -/
private theorem Made.distinct (h : Made side (alloc.frame side) [] live number made) :
    (made.1.map IoFrame.descPhysicalAddress).Nodup := by
  rw [List.nodup_iff_injective_get]
  intro i j same
  have at_ : ∀ k : Fin (made.1.map IoFrame.descPhysicalAddress).length,
      (alloc.frame side k.val).descriptor =
        some ((made.1.map IoFrame.descPhysicalAddress).get k) := by
    intro k
    have inside : k.val < made.1.length := by simpa using k.isLt
    rw [h.addresses k.val made.1[k.val] (Nat.zero_le _) (List.getElem?_eq_getElem inside)]
    simp
  apply Fin.ext
  exact alloc.apart side i.val j.val _ (at_ i) (by rw [same]; exact at_ j)

/-- There are fewer than 32 bits count. -/
theorem Made.length_lt (h : Made side (alloc.frame side) [] live number made) :
    made.1.length < 4294967296 := by
  have word : ∀ i : Fin made.1.length, (made.1[i]).descPhysicalAddress.toNat % 4 = 0 := by
    intro i
    exact alloc.aligned side i.val _ (h.addresses i.val made.1[i] (Nat.zero_le _)
      (List.getElem?_eq_getElem i.isLt))
  have injective : Function.Injective fun i : Fin made.1.length =>
      (⟨(made.1[i]).descPhysicalAddress.toNat / 4, by
        have lt := (made.1[i]).descPhysicalAddress.isLt
        omega⟩ : Fin 1073741824) := by
    intro i j same
    have quotient := congrArg Fin.val same
    dsimp only at quotient
    have addresses : (made.1[i]).descPhysicalAddress = (made.1[j]).descPhysicalAddress := by
      apply BitVec.eq_of_toNat_eq
      have first := word i
      have second := word j
      omega
    apply Fin.ext
    exact alloc.apart side i.val j.val _
      (h.addresses i.val made.1[i] (Nat.zero_le _) (List.getElem?_eq_getElem i.isLt))
      (by
        rw [addresses]
        exact h.addresses j.val made.1[j] (Nat.zero_le _) (List.getElem?_eq_getElem j.isLt))
  have most := Fintype.card_le_of_injective _ injective
  rw [Fintype.card_fin, Fintype.card_fin] at most
  omega

/-- `next_descriptor` leads from each slot to the next. -/
private theorem follow_ioLinkDescriptors {frames : List IoFrame}
    (distinct : (frames.map IoFrame.descPhysicalAddress).Nodup) {i : Nat}
    (inside : i < frames.length) :
    follow (ioLinkDescriptors frames) i = Ring.next frames.length i := by
  obtain ⟨f, found⟩ : ∃ f, (ioLinkDescriptors frames)[i]? = some f :=
    ⟨_, List.getElem?_eq_getElem (by rwa [length_ioLinkDescriptors])⟩
  have linked := next_ioLinkDescriptors found
  obtain ⟨next, there, address⟩ := Option.map_eq_some_iff.mp linked.symm
  rw [follow, List.getD_eq_getElem?_getD, found, Option.getD_some, ← address]
  exact indexAt_eq (by rwa [addresses_ioLinkDescriptors]) there

/-- From slot 0 it reaches each slot in turn, and comes back. -/
private theorem iterate_follow {frames : List IoFrame}
    (distinct : (frames.map IoFrame.descPhysicalAddress).Nodup) (some_ : 0 < frames.length) :
    (∀ k < frames.length, (follow (ioLinkDescriptors frames))^[k] 0 = k) ∧
      (follow (ioLinkDescriptors frames))^[frames.length] 0 = 0 := by
  have inner : ∀ k < frames.length, (follow (ioLinkDescriptors frames))^[k] 0 = k := by
    intro k
    induction k with
    | zero => intro _; rfl
    | succ k ih =>
      intro lt
      rw [Function.iterate_succ_apply', ih (by omega),
        follow_ioLinkDescriptors distinct (by omega), Ring.next, if_neg (by omega)]
  refine ⟨inner, ?_⟩
  obtain ⟨n, size⟩ : ∃ n, frames.length = n + 1 := ⟨frames.length - 1, by omega⟩
  rw [size, Function.iterate_succ_apply', inner n (by omega),
    follow_ioLinkDescriptors distinct (by omega), Ring.next, if_pos size.symm]

end Whole

/-! ### Both rings -/

section Both

variable {side : RingSide} {alloc : Allocations} {request : FrameRequest} {m : IoMemory}

/-- A ring's first two slots are granted. -/
def Allocations.TwoSlots (alloc : Allocations) (side : RingSide) (request : FrameRequest) : Prop :=
  2 ≤ request.number ∧ (alloc.frame side 0).granted = true ∧ (alloc.frame side 1).granted = true

/-- That is when a ring gets two slots. -/
private theorem Made.two_le_iff {live : List Block}
    {made : List IoFrame × List Block}
    (h : Made side (alloc.frame side) [] live request.number made) :
    2 ≤ made.1.length ↔ alloc.TwoSlots side request := by
  have most := h.most
  rw [List.length_nil, Nat.zero_add] at most
  constructor
  · intro two
    exact ⟨by omega, h.granted 0 (le_refl _) (by omega), h.granted 1 (Nat.zero_le _) (by omega)⟩
  · rintro ⟨two, first, second⟩
    by_contra short
    have refused := h.stopped (by rw [List.length_nil]; omega)
    obtain none_ | one : made.1.length = 0 ∨ made.1.length = 1 := by omega
    · rw [none_, first] at refused
      cases refused
    · rw [one, second] at refused
      cases refused

/-- What the creation of a ring leaves of the rest. -/
structure OtherKept (side : RingSide) (m m' : IoMemory) : Prop where
  num : ∀ other, other ≠ side → m'.num other = m.num other
  descriptors : ∀ other, other ≠ side → m'.descriptors other = m.descriptors other
  live : m.live <:+ m'.live

private theorem RingWhole.otherKept {frames : List IoFrame} {other : RingSide} {m' : IoMemory}
    (h : RingWhole m other frames) (kept : OtherKept side m m') (apart : other ≠ side) :
    RingWhole m' other frames := by
  have num := kept.num other apart
  exact {
    here := by rw [kept.descriptors other apart, h.here]
    enough := by rw [num]; exact h.enough
    allocated := by
      intro i lt
      rw [num] at lt
      obtain ⟨slot, frame, descriptor, buffer⟩ := h.allocated i lt
      exact ⟨slot, kept.live.mem frame, kept.live.mem descriptor, kept.live.mem buffer⟩
    visited := by rw [num]; exact h.visited
    closed := by rw [num]; exact h.closed }

/-- A linked ring with all its blocks is whole. -/
private theorem RingWhole.linked {frames : List IoFrame}
    (distinct : (frames.map IoFrame.descPhysicalAddress).Nodup) (two : 2 ≤ frames.length)
    (here : m.descriptors side = some (ioLinkDescriptors frames))
    (num : m.num side = frames.length)
    (blocks : ∀ i < frames.length, .frame side i ∈ m.live ∧ .descriptor side i ∈ m.live ∧
      .buffer side i ∈ m.live) :
    RingWhole m side (ioLinkDescriptors frames) := by
  obtain ⟨inner, closed⟩ := iterate_follow distinct (by omega)
  exact {
    here := here
    enough := by rwa [num]
    allocated := by
      rw [num]
      intro i lt
      exact ⟨by rwa [length_ioLinkDescriptors], blocks i lt⟩
    visited := by
      rw [num]
      intro i lt
      refine ⟨i, ⟨lt, inner i lt⟩, ?_⟩
      rintro k ⟨turn, here⟩
      rw [← here, inner k turn]
    closed := by rw [num]; exact closed }

/-- With its array, a ring that gets two slots is whole. -/
theorem ioCreateFrames_ok (dataCount : Nat) (request : FrameRequest)
    (array : alloc.array side = true) :
    (ioCreateFrames side dataCount alloc request m).1 = .ok () ∧
      OtherKept side m (ioCreateFrames side dataCount alloc request m).2 ∧
      (2 ≤ (ioCreateFrames side dataCount alloc request m).2.num side →
        alloc.TwoSlots side request) ∧
      (alloc.TwoSlots side request →
        ∃ frames, RingWhole (ioCreateFrames side dataCount alloc request m).2 side frames) := by
  have h : Made side (alloc.frame side) [] (.array side :: m.live) request.number
      (ioCreateFramesLoop side (m.size side) dataCount (alloc.frame side) request.number []
        (.array side :: m.live)) := made_loop _ _ _
  rw [ioCreateFrames, if_neg (by simp [array])]
  dsimp only
  generalize ioCreateFramesLoop side (m.size side) dataCount (alloc.frame side) request.number []
    (.array side :: m.live) = made at h ⊢
  have whole : made.1.length % 4294967296 = made.1.length := Nat.mod_eq_of_lt h.length_lt
  rw [whole, List.take_length, List.drop_length, List.append_nil, ← h.two_le_iff]
  refine ⟨rfl, ?_, ?_, ?_⟩
  · exact {
      num := fun other apart => Function.update_of_ne apart _ _
      descriptors := fun other apart => Function.update_of_ne apart _ _
      live := (List.suffix_cons _ _).trans h.kept }
  · intro enough
    rwa [Function.update_self] at enough
  · intro two
    exact ⟨ioLinkDescriptors made.1, .linked h.distinct two (Function.update_self _ _ _)
      (Function.update_self _ _ _) fun i lt => h.blocks i (Nat.zero_le _) lt⟩

/-- Without it, an error is returned. -/
theorem ioCreateFrames_error (dataCount : Nat) (request : FrameRequest)
    (array : alloc.array side = false) :
    ∃ e, (ioCreateFrames side dataCount alloc request m).1 = .error e ∧
      (ioCreateFrames side dataCount alloc request m).2.live = m.live := by
  rw [ioCreateFrames, if_pos (by simp [array])]
  exact ⟨.enomem, rfl, rfl⟩

end Both

private theorem RingSide.forall_iff {P : RingSide → Prop} : (∀ side, P side) ↔ P .rx ∧ P .tx := by
  constructor
  · intro all
    exact ⟨all .rx, all .tx⟩
  · rintro ⟨rx, tx⟩ side
    cases side with
    | rx => exact rx
    | tx => exact tx

/-- What an error leaves is more than there was before. -/
private theorem live_ne_of_more (b : Block) (bs : List Block) {before live : List Block}
    (suffix : (b :: bs) ++ before <:+ live) : live ≠ before := by
  intro same
  have length := suffix.length_le
  rw [same, List.length_append, List.length_cons] at length
  omega

/-- `fscc_io_initialize` is all or nothing just when its first allocation fails, or no allocation
does before each ring has two slots. -/
theorem initialize_whole_or_nothing (alloc : Allocations) (frames : RingSide → FrameRequest)
    (rxBufferSize txBufferSize : Nat) (m : IoMemory) :
    WholeOrNothing m (ioInitialize alloc frames rxBufferSize txBufferSize m) ↔
      alloc.Enough frames := by
  rw [Allocations.Enough, ioInitialize, RingSide.forall_iff]
  cases pool : alloc.descPool with
  | false => simp [WholeOrNothing]
  | true =>
    cases rxPool : alloc.bufferPool .rx with
    | false => simp [WholeOrNothing]
    | true =>
      cases txPool : alloc.bufferPool .tx with
      | false =>
        simpa [WholeOrNothing] using live_ne_of_more (.bufferPool .rx) [.descPool] List.suffix_rfl
      | true =>
        simp only [Bool.not_true, Bool.false_eq_true, Bool.true_eq_false, if_false, true_and,
          false_or]
        generalize start : IoMemory.mk _ _ _ (.bufferPool .tx :: _) = m₁
        have pools : [.bufferPool .tx, .bufferPool .rx, .descPool] ++ m.live <:+ m₁.live := by
          rw [← start]
          exact List.suffix_rfl
        cases rxArray : alloc.array .rx with
        | false =>
          obtain ⟨e, failed, live⟩ := ioCreateFrames_error (m := m₁) (m₁.size .rx)
            (frames .rx) rxArray
          rw [ioCreateRxFrames, failed]
          simp only [WholeOrNothing, live, Bool.false_eq_true, false_and, iff_false]
          exact live_ne_of_more _ _ pools
        | true =>
          obtain ⟨made, kept, short, whole⟩ := ioCreateFrames_ok (m := m₁) (m₁.size .rx)
            (frames .rx) rxArray
          rw [ioCreateRxFrames, made]
          generalize (ioCreateFrames .rx (m₁.size .rx) alloc (frames .rx) m₁).2 = m₂
            at kept short whole
          cases txArray : alloc.array .tx with
          | false =>
            obtain ⟨e, failed, live⟩ := ioCreateFrames_error (m := m₂) 0 (frames .tx)
              txArray
            simp only [ioCreateTxFrames, failed, WholeOrNothing, live, Bool.false_eq_true,
              false_and, and_false, iff_false]
            exact live_ne_of_more _ _ (pools.trans kept.live)
          | true =>
            obtain ⟨made', kept', short', whole'⟩ := ioCreateFrames_ok (m := m₂) 0 (frames .tx)
              txArray
            simp only [ioCreateTxFrames, made', WholeOrNothing, true_and]
            have apart : RingSide.rx ≠ .tx := by decide
            rw [RingSide.forall_iff]
            constructor
            · rintro ⟨⟨_, rx⟩, _, tx⟩
              have enough := rx.enough
              rw [kept'.num .rx apart] at enough
              exact ⟨short enough, short' tx.enough⟩
            · rintro ⟨rx, tx⟩
              obtain ⟨rxFrames, rxRing⟩ := whole rx
              exact ⟨⟨rxFrames, rxRing.otherKept kept' apart⟩, whole' tx⟩

/-- Every allocation succeeds but, in a ring, those for the slots from `slots` on. -/
def shortOf (slots : Nat) (bufferPool : Bool) : Allocations where
  descPool := true
  bufferPool _ := bufferPool
  array _ := true
  frame _ i := {
    frame := decide (i < slots)
    descriptor := if i < slots ∧ i < 1000 then some (BitVec.ofNat 32 (64 * i + 64)) else none
    buffer := true }
  aligned := by
    intro side i a found
    split at found
    next here =>
      obtain rfl := Option.some.inj found
      rw [BitVec.toNat_ofNat]
      omega
    next => cases found
  apart := by
    intro side i j a first second
    split at first
    next here =>
      split at second
      next there =>
        have same := congrArg BitVec.toNat
          ((Option.some.inj first).trans (Option.some.inj second).symm)
        rw [BitVec.toNat_ofNat, BitVec.toNat_ofNat] at same
        omega
      next => cases second
    next => cases first

/-- The numbers of `config.h`. -/
def defaultDescNum (_ : RingSide) : FrameRequest := ⟨200, by decide⟩

/-- A port before anything is allocated for it. -/
def nothingYet : IoMemory := ⟨fun _ => 0, fun _ => 0, fun _ => none, []⟩

/-- No pool for the receive buffers: an error, and the descriptor pool stays. One frame in each
ring: success. -/
theorem initialize_leaves_rest :
    ¬WholeOrNothing nothingYet (ioInitialize (shortOf 0 false) defaultDescNum 256 256 nothingYet) ∧
      ¬WholeOrNothing nothingYet
        (ioInitialize (shortOf 1 true) defaultDescNum 256 256 nothingYet) := by
  constructor
  · intro nothing
    exact absurd nothing (by simp [WholeOrNothing, ioInitialize, shortOf, nothingYet])
  · intro whole
    obtain ⟨frames, ring⟩ := (show ∀ side, ∃ frames, RingWhole _ side frames from whole) .rx
    have enough := ring.enough
    revert enough
    decide

end Fscc
