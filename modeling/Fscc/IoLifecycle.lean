import Fscc.Initialize
import Fscc.Lib.Ledger

/-!
# What the rings are made of, and its end

`fscc_io_initialize` and `fscc_io_destroy` as operations on a ledger: pools, arrays, and the parts of
each slot. A buffer and a descriptor rest on the pools that they come from and on the frame that
points to them, a frame on the array.
-/

namespace Fscc

open Ledger

/-- What a block needs to be there. -/
def Block.parents : Block → List Block
  | .descPool => []
  | .bufferPool _ => []
  | .array _ => []
  | .frame side _ => [.array side]
  | .descriptor side i => [.descPool, .frame side i]
  | .buffer side i => [.bufferPool side, .frame side i, .descriptor side i]

@[simp] theorem Block.parents_frame (side : RingSide) (i : Nat) :
    (Block.frame side i).parents = [.array side] := rfl

@[simp] theorem Block.parents_descriptor (side : RingSide) (i : Nat) :
    (Block.descriptor side i).parents = [.descPool, .frame side i] := rfl

@[simp] theorem Block.parents_buffer (side : RingSide) (i : Nat) :
    (Block.buffer side i).parents = [.bufferPool side, .frame side i, .descriptor side i] := rfl

/-! ### The functions of `io.c` -/

/-- `fscc_io_create_frame`. -/
def ioCreateFrameOps (side : RingSide) (i : Nat) (o : FrameOutcome) : List (Op Block) :=
  if !o.frame then []
  else if o.descriptor = none then
    [.acquire (.frame side i), .use (.frame side i), .release (.frame side i)]
  else
    [.acquire (.frame side i), .acquire (.descriptor side i), .use (.frame side i)] ++
      if !o.buffer then
        [.use (.descriptor side i), .release (.descriptor side i), .release (.frame side i)]
      else [.acquire (.buffer side i), .use (.descriptor side i)]

/-- The loop of `fscc_io_create_rx_frames` and `fscc_io_create_tx_frames`, from slot `i` on with
`left` slots to come. -/
def ioCreateFramesLoopOps (side : RingSide) (outcome : Nat → FrameOutcome) :
    Nat → Nat → List (Op Block)
  | 0, _ => []
  | left + 1, i =>
    ioCreateFrameOps side i (outcome i) ++ .use (.array side) ::
      if (outcome i).granted then
        [.use (.frame side i), .use (.descriptor side i)] ++
          ioCreateFramesLoopOps side outcome left (i + 1)
      else []

/-- Where that loop ends. -/
def ioCreateFramesEnd (outcome : Nat → FrameOutcome) : Nat → Nat → Nat
  | 0, i => i
  | left + 1, i => if (outcome i).granted then ioCreateFramesEnd outcome left (i + 1) else i

/-- `fscc_io_link_descriptors`. -/
def ioLinkDescriptorsOps (side : RingSide) (amount : Nat) : List (Op Block) :=
  (List.range amount).flatMap fun i =>
    [.use (.array side), .use (.frame side (if i < amount - 1 then i + 1 else 0)),
      .use (.frame side i), .use (.descriptor side i)]

/-- What `fscc_io_create_rx_frames` and `fscc_io_create_tx_frames` share. -/
def ioCreateFramesOps (side : RingSide) (alloc : Allocations) (numberOfFrames : FrameRequest) :
    List (Op Block) :=
  if !alloc.array side then []
  else .acquire (.array side) ::
    (ioCreateFramesLoopOps side (alloc.frame side) numberOfFrames.number 0 ++
      -- the field of `struct fscc_memory` has 32 bits
      ioLinkDescriptorsOps side
        (ioCreateFramesEnd (alloc.frame side) numberOfFrames.number 0 % 4294967296))

/-- `fscc_io_initialize`. -/
def ioInitializeOps (alloc : Allocations) (frames : RingSide → FrameRequest) : List (Op Block) :=
  if !alloc.descPool then []
  else .acquire .descPool ::
    if !alloc.bufferPool .rx then []
    else .acquire (.bufferPool .rx) ::
      if !alloc.bufferPool .tx then []
      else .acquire (.bufferPool .tx) ::
        (ioCreateFramesOps .rx alloc (frames .rx) ++
          if !alloc.array .rx then [] else ioCreateFramesOps .tx alloc (frames .tx))

/-- `fscc_io_destroy_frame`. -/
def ioDestroyFrame (side : RingSide) (i : Nat) : List (Op Block) :=
  [.use (.frame side i), .use (.descriptor side i), .release (.buffer side i),
    .use (.descriptor side i), .release (.descriptor side i), .release (.frame side i)]

/-- The loop of `fscc_io_destroy_rx_frames` and `fscc_io_destroy_tx_frames`. -/
def ioDestroyFramesLoop (side : RingSide) : Nat → Nat → List (Op Block)
  | 0, _ => []
  | left + 1, i => .use (.array side) :: (ioDestroyFrame side i ++ ioDestroyFramesLoop side left (i + 1))

/-- `fscc_io_destroy_rx_frames` and `fscc_io_destroy_tx_frames`. -/
def ioDestroyFrames (m : IoMemory) (side : RingSide) : List (Op Block) :=
  if m.descriptors side = none then []
  else ioDestroyFramesLoop side (m.num side) 0 ++ [.release (.array side)]

/-- `fscc_io_destroy_pools`, of pools that have been created. -/
def ioDestroyPools : List (Op Block) :=
  [.release (.bufferPool .rx), .release (.bufferPool .tx), .release .descPool]

/-- `fscc_io_destroy`. -/
def ioDestroy (m : IoMemory) : List (Op Block) :=
  ioDestroyFrames m .rx ++ ioDestroyFrames m .tx ++ ioDestroyPools

/-! ### Slots -/

/-- The slot that a block is a part of. -/
def Block.slot : Block → Option (RingSide × Nat)
  | .frame side i => some (side, i)
  | .descriptor side i => some (side, i)
  | .buffer side i => some (side, i)
  | _ => none

/-- What rests on a part of a slot is a part of it too. -/
private theorem Block.slot_of_parent {b c : Block} {slot : RingSide × Nat} (parent : b ∈ c.parents)
    (own : b.slot = some slot) : c.slot = some slot := by
  cases c with
  | descPool => simp [parents] at parent
  | bufferPool side => simp [parents] at parent
  | array side => simp [parents] at parent
  | frame side i =>
    rw [parents, List.mem_singleton] at parent
    rw [parent] at own
    cases own
  | descriptor side i =>
    simp only [parents, List.mem_cons, List.not_mem_nil, or_false] at parent
    rcases parent with rfl | rfl
    · cases own
    · exact own
  | buffer side i =>
    simp only [parents, List.mem_cons, List.not_mem_nil, or_false] at parent
    rcases parent with rfl | rfl | rfl
    · cases own
    · exact own
    · exact own

/-- The parts of a slot. -/
def slotBlocks (side : RingSide) (i : Nat) : Set Block :=
  {.frame side i, .descriptor side i, .buffer side i}

private theorem mem_slotBlocks {side : RingSide} {i : Nat} {b : Block} :
    b ∈ slotBlocks side i ↔ b.slot = some (side, i) := by
  cases b <;> simp [slotBlocks, Block.slot]

variable {side : RingSide} {held : Set Block}

/-! ### Creating -/

/-- What the frames of a ring need is held, and of the slots from `i` on nothing. -/
structure Ready (side : RingSide) (held : Set Block) (i : Nat) : Prop where
  descPool : .descPool ∈ held
  bufferPool : .bufferPool side ∈ held
  array : .array side ∈ held
  fresh : ∀ j, i ≤ j → ∀ b : Block, b.slot = some (side, j) → b ∉ held

/-- A frame comes with all of its parts or leaves none behind. -/
private theorem ledger_ioCreateFrame {i : Nat} (ready : Ready side held i) (o : FrameOutcome) :
    Safe Block.parents held (ioCreateFrameOps side i o) ∧
      after held (ioCreateFrameOps side i o) =
        if o.granted then held ∪ slotBlocks side i else held := by
  obtain ⟨descPool, bufferPool, array, fresh⟩ := ready
  have frame : .frame side i ∉ held := fresh i (Nat.le_refl i) _ rfl
  have descriptor : .descriptor side i ∉ held := fresh i (Nat.le_refl i) _ rfl
  have buffer : .buffer side i ∉ held := fresh i (Nat.le_refl i) _ rfl
  -- Nothing that is held rests on a part of the slot.
  have none_ : ∀ b : Block, b.slot = some (side, i) → ∀ c ∈ held, b ∉ c.parents :=
    fun b own c member parent =>
      fresh i (Nat.le_refl i) c (Block.slot_of_parent parent own) member
  have noFrame := none_ (.frame side i) rfl
  have noDescriptor := none_ (.descriptor side i) rfl
  obtain ⟨f, d, b⟩ := o
  cases f with
  | false => simp [ioCreateFrameOps, FrameOutcome.granted]
  | true =>
    cases d with
    | none =>
      refine ⟨?_, by simp [ioCreateFrameOps, FrameOutcome.granted, Op.effect, frame]⟩
      simpa [ioCreateFrameOps, Op.Ok, Op.effect, frame, array] using noFrame
    | some address =>
      cases b with
      | false =>
        refine ⟨?_, by simp [ioCreateFrameOps, FrameOutcome.granted, Op.effect, frame, descriptor]⟩
        simpa [ioCreateFrameOps, Op.Ok, Op.effect, frame, descriptor, array, descPool] using
          ⟨noDescriptor, noFrame⟩
      | true =>
        refine ⟨by simp [ioCreateFrameOps, Op.Ok, Op.effect, *], ?_⟩
        ext x
        simp only [ioCreateFrameOps, FrameOutcome.granted, Op.effect, slotBlocks, Bool.not_true,
          Bool.false_eq_true, reduceCtorEq, if_false, List.cons_append, List.nil_append, after_cons,
          after_nil, Option.isSome_some, Bool.and_self, if_true, Set.mem_insert_iff, Set.mem_union,
          Set.mem_singleton_iff]
        tauto

/-- The parts of the slots from `i` up to `n`. -/
def slotsBlocks (side : RingSide) (i n : Nat) : Set Block :=
  {b | ∃ j, i ≤ j ∧ j < n ∧ b.slot = some (side, j)}

private theorem slotsBlocks_self (side : RingSide) (i : Nat) : slotsBlocks side i i = ∅ := by
  ext b
  simp only [slotsBlocks, Set.mem_ofPred_eq, Set.mem_empty_iff_false, iff_false, not_exists]
  omega

private theorem slotsBlocks_cons (side : RingSide) {i n : Nat} (lt : i < n) :
    slotsBlocks side i n = slotBlocks side i ∪ slotsBlocks side (i + 1) n := by
  ext b
  rw [Set.mem_union, mem_slotBlocks]
  constructor
  · rintro ⟨j, low, high, own⟩
    by_cases first : j = i
    · rw [first] at own
      exact .inl own
    · exact .inr ⟨j, by omega, high, own⟩
  · rintro (own | ⟨j, low, high, own⟩)
    · exact ⟨i, Nat.le_refl i, lt, own⟩
    · exact ⟨j, by omega, high, own⟩

private theorem Ready.next {i : Nat} (ready : Ready side held i) :
    Ready side (held ∪ slotBlocks side i) (i + 1) where
  descPool := .inl ready.descPool
  bufferPool := .inl ready.bufferPool
  array := .inl ready.array
  fresh := by
    rintro j low b own (old | new)
    · exact ready.fresh j (by omega) b own old
    · rw [mem_slotBlocks, own] at new
      have := (Prod.mk.inj (Option.some.inj new)).2
      omega

/-- The loop leaves the parts of the slots that it lists, as the blocks that are allocated say. -/
private theorem ledger_ioCreateFramesLoop {outcome : Nat → FrameOutcome} {size dataCount : Nat}
    (left : Nat)
    (frames : List IoFrame) (live : List Block) (ready : Ready side {b | b ∈ live} frames.length) :
    let made := ioCreateFramesLoop side size dataCount outcome left frames live
    let ops := ioCreateFramesLoopOps side outcome left frames.length
    Safe Block.parents {b | b ∈ live} ops ∧ after {b | b ∈ live} ops = {b | b ∈ made.2} ∧
      ioCreateFramesEnd outcome left frames.length = made.1.length ∧
      {b | b ∈ made.2} = {b | b ∈ live} ∪ slotsBlocks side frames.length made.1.length := by
  induction left generalizing frames live with
  | zero => exact ⟨trivial, rfl, rfl, by simp [ioCreateFramesLoop, slotsBlocks_self]⟩
  | succ left ih =>
    dsimp only
    rw [ioCreateFramesLoop, ioCreateFramesLoopOps, ioCreateFramesEnd]
    obtain ⟨safe, left_⟩ := ledger_ioCreateFrame ready (outcome frames.length)
    rcases ioCreateFrame_cases side frames.length size (outcome frames.length) live with
      ⟨refused, created⟩ | ⟨f, granted, -, created⟩
    · -- The ring ends here.
      rw [refused] at left_
      simp only [created, refused, Bool.false_eq_true, if_false]
      refine ⟨safe.append left_ ⟨ready.array, trivial⟩, ?_, trivial, by simp [slotsBlocks_self]⟩
      rw [after_append, left_]
      rfl
    · simp only [granted, if_true] at left_
      simp only [created, granted, if_true]
      generalize made : (f.setControl _).setDataCount dataCount = g
      generalize now : Block.buffer side frames.length :: .descriptor side frames.length ::
        .frame side frames.length :: live = live'
      have blocks : {b | b ∈ live'} = {b | b ∈ live} ∪ slotBlocks side frames.length := by
        ext b
        simp only [← now, Set.mem_ofPred_eq, List.mem_cons, Set.mem_union, slotBlocks,
          Set.mem_insert_iff, Set.mem_singleton_iff]
        tauto
      have next := ready.next
      rw [← blocks] at left_ next
      have length : (frames ++ [g]).length = frames.length + 1 := by simp
      rw [← length] at next
      have grown := (@made_loop side size dataCount outcome left (frames ++ [g]) live').before.length_le
      obtain ⟨safe', after', ended, all⟩ := ih (frames ++ [g]) _ next
      rw [length] at safe' after' ended all grown
      have own : ∀ b : Block, b ∈ slotBlocks side frames.length → b ∈ {b | b ∈ live'} :=
        fun b member => blocks ▸ .inr member
      have array : .array side ∈ {b | b ∈ live'} := blocks ▸ .inl ready.array
      refine ⟨safe.append left_ ⟨array, own _ (.inl rfl), own _ (.inr (.inl rfl)), safe'⟩, ?_, ended, ?_⟩
      · rw [after_append, left_]
        exact after'
      · rw [all, blocks, Set.union_assoc, ← slotsBlocks_cons side (Nat.lt_of_succ_le grown)]

/-- Operations that only use what is held are safe, and leave all as it is. -/
private theorem ledger_uses {ops : List (Op Block)} (uses : ∀ op ∈ ops, ∃ b ∈ held, op = .use b) :
    Safe Block.parents held ops ∧ after held ops = held := by
  induction ops with
  | nil => exact ⟨trivial, rfl⟩
  | cons op ops ih =>
    obtain ⟨b, here, rfl⟩ := uses op (.head _)
    obtain ⟨safe, kept⟩ := ih fun o member => uses o (.tail _ member)
    exact ⟨⟨here, safe⟩, kept⟩

private theorem ledger_ioLinkDescriptors {amount : Nat} (array : .array side ∈ held)
    (slots : slotsBlocks side 0 amount ⊆ held) :
    Safe Block.parents held (ioLinkDescriptorsOps side amount) ∧
      after held (ioLinkDescriptorsOps side amount) = held := by
  apply ledger_uses
  intro op member
  obtain ⟨i, lt, own⟩ := List.mem_flatMap.mp member
  rw [List.mem_range] at lt
  have next : (if i < amount - 1 then i + 1 else 0) < amount := by split <;> omega
  simp only [List.mem_cons, List.not_mem_nil, or_false] at own
  rcases own with rfl | rfl | rfl | rfl
  · exact ⟨_, array, rfl⟩
  · exact ⟨_, slots ⟨_, Nat.zero_le _, next, rfl⟩, rfl⟩
  · exact ⟨_, slots ⟨i, Nat.zero_le _, lt, rfl⟩, rfl⟩
  · exact ⟨_, slots ⟨i, Nat.zero_le _, lt, rfl⟩, rfl⟩

variable {alloc : Allocations} {frames : RingSide → FrameRequest} {m : IoMemory}

/-- What is there for a ring to be made from. -/
structure Unmade (side : RingSide) (live : List Block) : Prop where
  descPool : .descPool ∈ live
  bufferPool : .bufferPool side ∈ live
  array : .array side ∉ live
  slots : ∀ b : Block, ∀ j, b.slot = some (side, j) → b ∉ live

/-- The array of a ring is followed by its frames. -/
private theorem ledger_ioCreateFrames (unmade : Unmade side m.live) (dataCount : Nat)
    (request : FrameRequest) :
    let result := ioCreateFrames side dataCount alloc request m
    let ops := ioCreateFramesOps side alloc request
    Safe Block.parents {b | b ∈ m.live} ops ∧ after {b | b ∈ m.live} ops = {b | b ∈ result.2.live} ∧
      (alloc.array side = true → result.2.descriptors side ≠ none ∧
        {b | b ∈ result.2.live} =
          {b | b ∈ Block.array side :: m.live} ∪ slotsBlocks side 0 (result.2.num side)) := by
  dsimp only
  cases array : alloc.array side with
  | false =>
    rw [ioCreateFrames, ioCreateFramesOps, array]
    exact ⟨trivial, rfl, fun granted => by cases granted⟩
  | true =>
    have ready : Ready side {b | b ∈ Block.array side :: m.live} ([] : List IoFrame).length := by
      refine ⟨.tail _ unmade.descPool, .tail _ unmade.bufferPool, .head _, fun j _ b own member => ?_⟩
      rcases List.mem_cons.mp member with rfl | old
      · cases own
      · exact unmade.slots b j own old
    obtain ⟨safe, left, ended, all⟩ := @ledger_ioCreateFramesLoop side (alloc.frame side)
      (m.size side) dataCount request.number [] _ ready
    have fits := (@made_loop side (m.size side) dataCount (alloc.frame side) request.number []
      (.array side :: m.live)).length_lt
    rw [ioCreateFrames, ioCreateFramesOps, array]
    simp only [Bool.not_true, Bool.false_eq_true, if_false, Function.update_self]
    generalize ioCreateFramesLoop side (m.size side) dataCount (alloc.frame side) request.number []
      (.array side :: m.live) = made at left ended all fits ⊢
    rw [List.length_nil] at safe left ended all
    have insert : (Op.acquire (Block.array side)).effect {b | b ∈ m.live} =
        {b | b ∈ Block.array side :: m.live} := by
      ext x
      simp [Op.effect]
    rw [ended, Nat.mod_eq_of_lt fits]
    -- Linking only uses what is there by then.
    have link : Safe Block.parents {b | b ∈ made.2} (ioLinkDescriptorsOps side made.1.length) ∧
        after {b | b ∈ made.2} (ioLinkDescriptorsOps side made.1.length) = {b | b ∈ made.2} := by
      rw [all]
      exact ledger_ioLinkDescriptors (.inl (.head _)) Set.subset_union_right
    refine ⟨⟨⟨unmade.array, by simp [Block.parents]⟩, ?_⟩, ?_, fun _ => ⟨by simp, all⟩⟩
    · rw [insert]
      exact safe.append left link.1
    · rw [after_cons, insert, after_append, left, link.2]

/-! ### Destroying -/

/-- Nothing rests on a block but parts of the ring's slots from `i` up to `n`. -/
structure Standing (side : RingSide) (held : Set Block) (i n : Nat) : Prop where
  array : .array side ∈ held
  closed : Closed Block.parents held
  slots : ∀ b : Block, ∀ j, b.slot = some (side, j) → (b ∈ held ↔ i ≤ j ∧ j < n)

/-- A frame is destroyed with its parts, and what it rests on after it. -/
private theorem ledger_ioDestroyFrame {i n : Nat} (standing : Standing side held i n) (lt : i < n) :
    Safe Block.parents held (ioDestroyFrame side i) ∧
      after held (ioDestroyFrame side i) = held \ slotBlocks side i := by
  have own : ∀ b : Block, b.slot = some (side, i) → b ∈ held := fun b same =>
    (standing.slots b i same).mpr ⟨Nat.le_refl i, lt⟩
  have frame := own (.frame side i) rfl
  have descriptor := own (.descriptor side i) rfl
  have buffer := own (.buffer side i) rfl
  -- The parts of a slot rest on each other only.
  have only : ∀ c : Block, c.slot = some (side, i) → c = .frame side i ∨ c = .descriptor side i ∨
      c = .buffer side i := fun c same => mem_slotBlocks.mpr same
  have noBuffer : ∀ c ∈ held, Block.buffer side i ∉ c.parents := by
    intro c _ parent
    rcases only c (Block.slot_of_parent parent rfl) with rfl | rfl | rfl <;> simp at parent
  have noDescriptor : ∀ c ∈ held, c ≠ .buffer side i → Block.descriptor side i ∉ c.parents := by
    intro c _ apart parent
    rcases only c (Block.slot_of_parent parent rfl) with rfl | rfl | rfl
    · simp at parent
    · simp at parent
    · exact apart rfl
  have noFrame : ∀ c ∈ held, c ≠ .buffer side i → c ≠ .descriptor side i →
      Block.frame side i ∉ c.parents := by
    intro c _ apart apart' parent
    rcases only c (Block.slot_of_parent parent rfl) with rfl | rfl | rfl
    · simp at parent
    · exact apart' rfl
    · exact apart rfl
  constructor
  · refine ⟨frame, descriptor, ⟨buffer, noBuffer⟩, ⟨descriptor, by simp⟩,
      ⟨⟨descriptor, by simp⟩, fun c member => noDescriptor c member.1 member.2⟩,
      ⟨⟨⟨frame, by simp⟩, by simp⟩, fun c member => noFrame c member.1.1 member.1.2 member.2⟩, trivial⟩
  · ext x
    simp only [ioDestroyFrame, after_cons, after_nil, Op.effect, slotBlocks, Set.mem_sdiff,
      Set.mem_insert_iff, Set.mem_singleton_iff]
    tauto

private theorem Standing.next {i n : Nat} (standing : Standing side held i n) (lt : i < n) :
    Standing side (held \ slotBlocks side i) (i + 1) n where
  array := ⟨standing.array, by simp [mem_slotBlocks, Block.slot]⟩
  closed := by
    have frame := ledger_ioDestroyFrame standing lt
    rw [← frame.2]
    exact standing.closed.after frame.1
  slots := by
    intro b j own
    rw [Set.mem_sdiff, standing.slots b j own, mem_slotBlocks, own]
    simp only [Option.some.injEq, Prod.mk.injEq, true_and]
    omega

/-- The loop destroys the frames of a ring. -/
private theorem ledger_ioDestroyFramesLoop {i n : Nat} (left : Nat) (all : i + left = n)
    (standing : Standing side held i n) :
    Safe Block.parents held (ioDestroyFramesLoop side left i) ∧
      after held (ioDestroyFramesLoop side left i) = held \ slotsBlocks side i n := by
  induction left generalizing held i with
  | zero =>
    obtain rfl : i = n := by omega
    exact ⟨trivial, by simp [ioDestroyFramesLoop, slotsBlocks_self]⟩
  | succ left ih =>
    have lt : i < n := by omega
    obtain ⟨safe, destroyed⟩ := ledger_ioDestroyFrame standing lt
    obtain ⟨safe', after'⟩ := ih (by omega) (standing.next lt)
    refine ⟨⟨standing.array, safe.append destroyed safe'⟩, ?_⟩
    rw [ioDestroyFramesLoop, after_cons, Op.effect, after_append, destroyed, after',
      slotsBlocks_cons side lt, Set.sdiff_sdiff]

/-- A ring is destroyed with its array. -/
private theorem ledger_ioDestroyFrames {m : IoMemory} (made : m.descriptors side ≠ none)
    (standing : Standing side held 0 (m.num side)) :
    Safe Block.parents held (ioDestroyFrames m side) ∧
      after held (ioDestroyFrames m side) =
        (held \ slotsBlocks side 0 (m.num side)) \ {.array side} := by
  obtain ⟨safe, destroyed⟩ := ledger_ioDestroyFramesLoop (m.num side) (Nat.zero_add _) standing
  rw [ioDestroyFrames, if_neg made]
  refine ⟨safe.append destroyed ⟨⟨⟨standing.array, ?_⟩, ?_⟩, trivial⟩, ?_⟩
  · rintro ⟨j, -, -, own⟩
    cases own
  · -- Only frames rest on an array, and they are gone.
    rintro c ⟨member, gone⟩ parent
    cases c with
    | frame s j =>
      rw [Block.parents_frame, List.mem_singleton] at parent
      cases parent
      exact gone ⟨j, Nat.zero_le j, ((standing.slots _ j rfl).mp member).2, rfl⟩
    | descPool => cases parent
    | bufferPool s => cases parent
    | array s => cases parent
    | descriptor s j => simp at parent
    | buffer s j => simp at parent
  · rw [after_append, destroyed]
    rfl

/-! ### From beginning to end -/

/-- Both rings are there, with their pools, and nothing else. -/
structure RingsHeld (m : IoMemory) (held : Set Block) : Prop where
  made : ∀ side, m.descriptors side ≠ none
  all : held = {.descPool, .bufferPool .rx, .bufferPool .tx, .array .rx, .array .tx} ∪
    slotsBlocks .rx 0 (m.num .rx) ∪ slotsBlocks .tx 0 (m.num .tx)

/-- An acquired block is the first of those that are live. -/
private theorem after_acquire (b : Block) (live : List Block) (ops : List (Op Block)) :
    after {x | x ∈ live} (.acquire b :: ops) = after {x | x ∈ b :: live} ops := by
  rw [after_cons]
  congr 1
  ext x
  simp [Op.effect]

private theorem safe_acquire {b : Block} {live : List Block} {ops : List (Op Block)} (new : b ∉ live)
    (root : b.parents = []) :
    Safe Block.parents {x | x ∈ live} (.acquire b :: ops) ↔
      Safe Block.parents {x | x ∈ b :: live} ops := by
  have same : (Op.acquire b).effect {x | x ∈ live} = {x | x ∈ b :: live} := by
    ext x
    simp [Op.effect]
  rw [safe_cons, same, and_iff_right ⟨new, by simp [root]⟩]

/-- A ring is still to be made when the other one has been. -/
private theorem Unmade.other {live live' : List Block} {other : RingSide} {n : Nat}
    (unmade : Unmade side live)
    (all : {b | b ∈ live'} = {b | b ∈ Block.array other :: live} ∪ slotsBlocks other 0 n)
    (apart : side ≠ other) : Unmade side live' := by
  have kept : ∀ b : Block, b ∈ live' ↔ (b = .array other ∨ b ∈ live) ∨ b ∈ slotsBlocks other 0 n := by
    intro b
    rw [← List.mem_cons]
    exact Set.ext_iff.mp all b
  constructor
  · exact (kept _).mpr (.inl (.inr unmade.descPool))
  · exact (kept _).mpr (.inl (.inr unmade.bufferPool))
  · intro member
    rcases (kept _).mp member with (same | old) | ⟨i, -, -, part⟩
    · exact apart (Block.array.inj same)
    · exact unmade.array old
    · cases part
  · intro b j own member
    rcases (kept b).mp member with (same | old) | ⟨i, -, -, part⟩
    · rw [same] at own
      cases own
    · exact unmade.slots b j own old
    · rw [own] at part
      exact apart (Prod.mk.inj (Option.some.inj part)).1

/-- With the pools alone no ring has been made. -/
private theorem unmade_pools {live : List Block}
    (pools : live = [.bufferPool .tx, .bufferPool .rx, .descPool]) (side : RingSide) :
    Unmade side live := by
  rw [pools]
  refine ⟨by simp, by cases side <;> simp, by simp, fun b j own member => ?_⟩
  simp only [List.mem_cons, List.not_mem_nil, or_false] at member
  rcases member with rfl | rfl | rfl <;> cases own

/-- What is held at the end is the pools and the blocks of both rings. -/
private theorem ringsHeld_of_made {m₁ m₂ m₃ : IoMemory}
    (live : m₁.live = [.bufferPool .tx, .bufferPool .rx, .descPool])
    (kept : OtherKept .tx m₂ m₃)
    (rxMade : m₂.descriptors .rx ≠ none) (txMade : m₃.descriptors .tx ≠ none)
    (rxAll : {b | b ∈ m₂.live} = {b | b ∈ .array .rx :: m₁.live} ∪ slotsBlocks .rx 0 (m₂.num .rx))
    (txAll : {b | b ∈ m₃.live} = {b | b ∈ .array .tx :: m₂.live} ∪ slotsBlocks .tx 0 (m₃.num .tx)) :
    RingsHeld m₃ {b | b ∈ m₃.live} := by
  have apart : RingSide.rx ≠ .tx := by simp
  constructor
  · intro side
    cases side with
    | rx =>
      rw [kept.descriptors .rx apart]
      exact rxMade
    | tx => exact txMade
  · rw [kept.num .rx apart]
    ext b
    have rx' := Set.ext_iff.mp rxAll b
    have tx' := Set.ext_iff.mp txAll b
    simp only [live, Set.mem_ofPred_eq, Set.mem_union, List.mem_cons, List.not_mem_nil,
      or_false, Set.mem_insert_iff, Set.mem_singleton_iff] at rx' tx' ⊢
    rw [tx', rx']
    exact iff_of_eq (by ac_rfl)

/-- The operations of `fscc_io_initialize` are safe, and leave what the blocks say. -/
theorem ledger_ioInitialize (empty : m.live = []) (rxBufferSize txBufferSize : Nat) :
    let result := ioInitialize alloc frames rxBufferSize txBufferSize m
    let ops := ioInitializeOps alloc frames
    Safe Block.parents {b | b ∈ ([] : List Block)} ops ∧
      after {b | b ∈ ([] : List Block)} ops = {b | b ∈ result.2.live} ∧
      (result.1 = .ok () → RingsHeld result.2 {b | b ∈ result.2.live}) := by
  dsimp only
  rw [ioInitialize, ioInitializeOps, empty]
  -- Each pool is created on its own, and a failure leaves those before it to fscc_io_destroy.
  cases alloc.descPool with
  | false => exact ⟨trivial, by simp [empty], fun made => by cases made⟩
  | true =>
    simp only [Bool.not_true, Bool.false_eq_true, if_false]
    rw [safe_acquire (by simp) rfl, after_acquire]
    cases alloc.bufferPool .rx with
    | false => exact ⟨trivial, rfl, fun made => by cases made⟩
    | true =>
      simp only [Bool.not_true, Bool.false_eq_true, if_false]
      rw [safe_acquire (by simp) rfl, after_acquire]
      cases alloc.bufferPool .tx with
      | false => exact ⟨trivial, rfl, fun made => by cases made⟩
      | true =>
        simp only [Bool.not_true, Bool.false_eq_true, if_false]
        rw [safe_acquire (by simp) rfl, after_acquire]
        generalize pools : IoMemory.mk _ _ _ [.bufferPool .tx, .bufferPool .rx, .descPool] = m₁
        have live : m₁.live = [.bufferPool .tx, .bufferPool .rx, .descPool] := by rw [← pools]
        have unmade := unmade_pools live
        -- The receive ring first. It fails as a whole only where its array is refused.
        obtain ⟨safe, left, rx⟩ := @ledger_ioCreateFrames .rx alloc m₁ (unmade .rx) (m₁.size .rx)
          (frames .rx)
        rw [← live, ioCreateRxFrames]
        cases array : alloc.array .rx with
        | false =>
          obtain ⟨e, failed, -⟩ := @ioCreateFrames_error .rx alloc m₁ (m₁.size .rx) (frames .rx) array
          simp only [Bool.not_false, if_true, List.append_nil]
          rw [failed]
          exact ⟨safe, left, fun made => by cases made⟩
        | true =>
          obtain ⟨rxMade, rxAll⟩ := rx array
          have ok := (@ioCreateFrames_ok .rx alloc m₁ (m₁.size .rx) (frames .rx) array).1
          simp only [Bool.not_true, Bool.false_eq_true, if_false]
          rw [ok]
          generalize (ioCreateFrames .rx (m₁.size .rx) alloc (frames .rx) m₁).2 = m₂
            at left rxMade rxAll ⊢
          -- The transmit ring is made beside the receive ring and leaves it alone.
          have unmade' := (unmade .tx).other rxAll (by simp)
          obtain ⟨safe', left', tx⟩ := @ledger_ioCreateFrames .tx alloc m₂ unmade' 0 (frames .tx)
          rw [ioCreateTxFrames]
          rw [after_append, left]
          cases array' : alloc.array .tx with
          | false =>
            obtain ⟨e, failed, -⟩ := @ioCreateFrames_error .tx alloc m₂ 0 (frames .tx) array'
            rw [failed]
            exact ⟨safe.append left safe', left', fun made => by cases made⟩
          | true =>
            obtain ⟨txMade, txAll⟩ := tx array'
            obtain ⟨ok', kept, -⟩ := @ioCreateFrames_ok .tx alloc m₂ 0 (frames .tx) array'
            rw [ok']
            refine ⟨safe.append left safe', left', fun _ => ?_⟩
            generalize (ioCreateFrames .tx 0 alloc (frames .tx) m₂).2 = m₃ at left' txMade txAll kept ⊢
            exact ringsHeld_of_made live kept rxMade txMade rxAll txAll

private theorem RingsHeld.mem_slot {held : Set Block} (rings : RingsHeld m held) {b : Block} {j : Nat}
    (own : b.slot = some (side, j)) : b ∈ held ↔ j < m.num side := by
  rw [rings.all]
  cases b <;> cases own <;> cases side <;> simp [slotsBlocks, Block.slot]

/-- What a block of both rings rests on is there. -/
private theorem RingsHeld.closed {held : Set Block} (rings : RingsHeld m held) :
    Closed Block.parents held := by
  have root : ∀ b : Block, b.slot = none → b ∈ held := by
    intro b none_
    rw [rings.all]
    cases b with
    | descPool => simp
    | bufferPool side => cases side <;> simp
    | array side => cases side <;> simp
    | frame side j => cases none_
    | descriptor side j => cases none_
    | buffer side j => cases none_
  intro c member b parent
  cases own : b.slot with
  | none => exact root b own
  | some slot =>
    have same := Block.slot_of_parent parent own
    exact (rings.mem_slot own).mpr ((rings.mem_slot same).mp member)

/-- `fscc_io_destroy` returns all that there is, each block before what it rests on. -/
theorem ledger_ioDestroy {held : Set Block} (rings : RingsHeld m held) :
    Safe Block.parents held (ioDestroy m) ∧ after held (ioDestroy m) = ∅ := by
  have standing : Standing .rx held 0 (m.num .rx) := by
    refine ⟨by rw [rings.all]; simp, rings.closed, fun b j own => ?_⟩
    rw [rings.mem_slot own]
    omega
  obtain ⟨safe, left⟩ := ledger_ioDestroyFrames (rings.made .rx) standing
  -- The other ring stands as before.
  have standing' : Standing .tx ((held \ slotsBlocks .rx 0 (m.num .rx)) \ {.array .rx}) 0
      (m.num .tx) := by
    refine ⟨?_, ?_, fun b j own => ?_⟩
    · rw [rings.all]
      simp [slotsBlocks, Block.slot]
    · rw [← left]
      exact rings.closed.after safe
    · have other : b ∉ slotsBlocks .rx 0 (m.num .rx) := by
        rintro ⟨i, -, -, part⟩
        rw [own] at part
        cases part
      have array : b ≠ .array .rx := by
        rintro rfl
        cases own
      simp [rings.mem_slot own, other, array]
  obtain ⟨safe', left'⟩ := ledger_ioDestroyFrames (rings.made .tx) standing'
  -- The pools are what is left.
  have pools : after held (ioDestroyFrames m .rx ++ ioDestroyFrames m .tx) =
      {.descPool, .bufferPool .rx, .bufferPool .tx} := by
    rw [after_append, left, left', rings.all]
    ext b
    cases b with
    | descPool => simp [slotsBlocks, Block.slot]
    | bufferPool side => cases side <;> simp [slotsBlocks, Block.slot]
    | array side => cases side <;> simp [slotsBlocks, Block.slot]
    | frame side j => cases side <;> simp [slotsBlocks, Block.slot]
    | descriptor side j => cases side <;> simp [slotsBlocks, Block.slot]
    | buffer side j => cases side <;> simp [slotsBlocks, Block.slot]
  rw [ioDestroy, after_append, pools]
  refine ⟨(safe.append left safe').append pools ?_, ?_⟩
  · simp [ioDestroyPools, Op.Ok, Op.effect, Block.parents]
  · ext b
    simp only [ioDestroyPools, after_cons, after_nil, Op.effect, Set.mem_sdiff, Set.mem_insert_iff,
      Set.mem_singleton_iff, Set.mem_empty_iff_false, iff_false]
    tauto

/-- Setting the rings up, and taking down what came of it when that was all. -/
def ioLife (alloc : Allocations) (frames : RingSide → FrameRequest) (rxBufferSize txBufferSize : Nat) :
    List (Op Block) :=
  let result := ioInitialize alloc frames rxBufferSize txBufferSize nothingYet
  ioInitializeOps alloc frames ++
    match result.1 with
    | .ok _ => ioDestroy result.2
    | .error _ => []

/-- Whatever allocations fail, no block is used, freed or acquired out of its time, and blocks stay
only when `fscc_io_initialize` failed: those that it had by then. -/
theorem rings_returned (alloc : Allocations) (frames : RingSide → FrameRequest)
    (rxBufferSize txBufferSize : Nat) :
    let result := ioInitialize alloc frames rxBufferSize txBufferSize nothingYet
    let ops := ioLife alloc frames rxBufferSize txBufferSize
    Safe Block.parents ∅ ops ∧
      ∀ b, b ∈ after ∅ ops ↔ result.1 ≠ .ok () ∧ b ∈ result.2.live := by
  have nothing : (∅ : Set Block) = {b | b ∈ ([] : List Block)} := by simp
  obtain ⟨safe, left, rings⟩ := @ledger_ioInitialize alloc frames nothingYet rfl rxBufferSize txBufferSize
  dsimp only
  rw [ioLife, nothing]
  generalize ioInitialize alloc frames rxBufferSize txBufferSize nothingYet = result at left rings ⊢
  obtain ⟨status, m⟩ := result
  cases status with
  | error e =>
    refine ⟨safe.append left trivial, fun b => ?_⟩
    rw [after_append, left]
    simp
  | ok =>
    obtain ⟨safe', left'⟩ := ledger_ioDestroy (rings rfl)
    refine ⟨safe.append left safe', fun b => ?_⟩
    rw [after_append, left, left']
    simp

/-- With two slots in each ring: 17 blocks are acquired, and all of them are returned. -/
example : (ioLife (shortOf 2 true) defaultDescNum 256 256).countP (fun op => op matches .acquire _) = 17 ∧
    (ioLife (shortOf 2 true) defaultDescNum 256 256).countP (fun op => op matches .release _) = 17 := by
  decide

end Fscc
