import Fscc.IoLifecycle

/-!
# A port and a card, from beginning to end

`fscc_port_new`, `fscc_port_delete`, `fscc_card_new` and `fscc_card_delete` as operations on ledgers,
one inside the other: the blocks of the rings are parts of a port, and the parts of two ports are
parts of a card. Any step of a creation may fail, and what has been acquired by then is not always
returned.
-/

namespace Fscc

open Ledger

/-! ### A port -/

/-- What a port has. -/
inductive PortPart where
  | struct
  | name
  | device
  | cdev
  | irq
  | block (b : Block)
deriving DecidableEq, Repr

/-- What a part of a port needs to be there. The interrupt handler is registered under the name. -/
def PortPart.parents : PortPart → List PortPart
  | .struct => []
  | .name => [.struct]
  | .device => [.struct]
  | .cdev => [.struct]
  | .irq => [.struct, .name]
  | .block b => .struct :: b.parents.map .block

/-- What `device_create` returns. -/
inductive DeviceOutcome where
  | created
  | null
  | errorPointer
deriving DecidableEq, Repr

/-- What the steps of `fscc_port_new` come to; `vstr` is the value of the VSTR register. -/
structure PortOutcome where
  port : Bool
  name : Bool
  device : DeviceOutcome
  vstr : BitVec 32
  cdev : Bool
  irq : Bool
  registers : Bool
  commands : Bool
  settings : Bool
  io : Allocations

/-- `fscc_port_get_PREV`, of the value of VSTR. -/
def portGetPREV (vstr : BitVec 32) : BitVec 8 := ((vstr &&& 0x0000FF00#32) >>> 8).setWidth 8

/-- The calls of `sysfs_create_group`, up to the first that fails. -/
def sysfsCreateGroups : List Bool → List (Op PortPart)
  | [] => []
  | created :: groups =>
    .use .device :: if created then sysfsCreateGroups groups else [.use .device]

/-- How `fscc_port_new` gives up on a port whose device it has made. -/
def abandonPort : List (Op PortPart) :=
  [.use .device, .release .device, .release .name, .release .struct]

/-- `fscc_io_initialize` as `fscc_port_new` calls it. -/
def portIo (alloc : Allocations) : Except Errno Unit × IoMemory :=
  ioInitialize alloc defaultDescNum 256 256 nothingYet

/-- `fscc_port_new`: what it does, and the rings of the port that it returns. -/
def fsccPortNew (o : PortOutcome) : List (Op PortPart) × Option IoMemory :=
  if !o.port then ([], none)
  else
    let ops := [.acquire .struct]
    if !o.name then (ops ++ [.release .struct], none)
    else
      let ops := ops ++ [.acquire .name]
      if o.device = .null then
        -- The message prints the name of the port that has just been freed.
        (ops ++ [.release .name, .release .struct, .use .struct], none)
      else
        -- An error pointer is taken for a device.
        let ops := ops ++ if o.device = .created then [.acquire .device] else []
        if portGetPREV o.vstr = 0xff#8 then (ops ++ abandonPort, none)
        else if !o.cdev then (ops ++ abandonPort, none)
        else
          let ops := ops ++ [.acquire .cdev]
          if !o.irq then (ops ++ [.use .device], none)
          else
            let groups := [o.registers, o.commands, o.settings]
            let ops := ops ++ [.acquire .irq] ++ sysfsCreateGroups groups
            if !groups.all id then (ops, none)
            else
              let ops := ops ++ .use .device :: (ioInitializeOps o.io defaultDescNum).map (Op.map .block)
              match portIo o.io with
              | (.error _, _) => (ops ++ [.use .device], none)
              | (.ok _, m) => (ops, some m)

/-- `fscc_port_delete`. -/
def fsccPortDelete (m : IoMemory) : List (Op PortPart) :=
  .use .struct :: ((ioDestroy m).map (Op.map .block) ++
    [.release .irq, .release .device, .release .cdev, .release .name, .release .struct])

/-- `device_create` made the device, if it was called. -/
def PortOutcome.Created (o : PortOutcome) : Prop :=
  o.port = true → o.name = true → o.device = .created

/-- A port was returned, or the creation failed before `cdev_add` had succeeded. -/
def PortOutcome.Settled (o : PortOutcome) : Prop :=
  o.port = true → o.name = true → o.device = .created ∧
    (portGetPREV o.vstr ≠ 0xff#8 → o.cdev = true →
      o.irq = true ∧ o.registers = true ∧ o.commands = true ∧ o.settings = true ∧
        (portIo o.io).1 = .ok ())

theorem PortOutcome.Settled.created {o : PortOutcome} (settled : o.Settled) : o.Created :=
  fun port name => (settled port name).1

/-- The blocks of the rings among the parts of a port. -/
private theorem embeds_block : Embeds Block.parents PortPart.parents .block {.struct} where
  injective := fun b c same => PortPart.block.inj same
  up := by
    intro b s parent
    rcases List.mem_cons.mp parent with rfl | own
    · exact .inl rfl
    · obtain ⟨q, member, rfl⟩ := List.mem_map.mp own
      exact .inr ⟨q, member, rfl⟩
  within := fun b q own => List.mem_cons_of_mem _ (List.mem_map_of_mem own)
  down := by
    intro b c parent
    cases c with
    | block c =>
      rcases List.mem_cons.mp parent with same | own
      · cases same
      · obtain ⟨q, member, same⟩ := List.mem_map.mp own
        cases same
        exact ⟨c, rfl, member⟩
    | _ => simp [PortPart.parents] at parent
  apart := fun b member => by cases member

/-! ### A port comes about -/

/-- What the parts of a port are, outside of its blocks. -/
def portBase : Set PortPart := {.struct, .name, .device, .cdev, .irq}

/-- The parts of a port with the blocks that are live. -/
def portParts (live : List Block) : Set PortPart := portBase ∪ Set.image .block {b | b ∈ live}

private theorem preimage_portParts (live : List Block) :
    Set.preimage PortPart.block (portParts live) = {b | b ∈ live} := by
  ext b
  simp [portParts, portBase]

/-- Operations on blocks lead from one set of parts to another. -/
private theorem after_blocks {live live' : List Block} {ops : List (Op Block)}
    (left : after {b | b ∈ live} ops = {b | b ∈ live'}) :
    after (portParts live) (ops.map (Op.map .block)) = portParts live' := by
  obtain ⟨blocks, others⟩ := embeds_block.after_map ops (portParts live)
  rw [preimage_portParts, left] at blocks
  ext part
  cases part with
  | block b =>
    have same := Set.ext_iff.mp blocks b
    rw [Set.mem_preimage] at same
    rw [same]
    simp [portParts, portBase]
  | _ =>
    rw [others _ (by simp)]
    simp [portParts, portBase]

private theorem safe_blocks {live : List Block} {ops : List (Op Block)}
    (safe : Safe Block.parents {b | b ∈ live} ops) :
    Safe PortPart.parents (portParts live) (ops.map (Op.map .block)) := by
  rw [embeds_block.safe_iff ops (by simp [portParts, portBase]), preimage_portParts]
  exact safe

/-- The calls of `sysfs_create_group` use a device that is there. -/
private theorem ledger_sysfsCreateGroups {held : Set PortPart} (device : .device ∈ held)
    (groups : List Bool) :
    Safe PortPart.parents held (sysfsCreateGroups groups) ∧
      after held (sysfsCreateGroups groups) = held := by
  induction groups with
  | nil => exact ⟨trivial, rfl⟩
  | cons created groups ih =>
    cases created with
    | false => exact ⟨⟨device, device, trivial⟩, rfl⟩
    | true => exact ⟨⟨device, ih.1⟩, ih.2⟩

/-- What can have become of a port: it is there with all of its parts, nothing is left of it, or parts
that nobody will release. -/
inductive PortLeft (o : PortOutcome) : Option IoMemory → Set PortPart → Prop
  | returned {m : IoMemory} (settled : o.Settled) (rings : RingsHeld m {b | b ∈ m.live}) :
      PortLeft o (some m) (portParts m.live)
  | gone (settled : o.Settled) : PortLeft o none ∅
  | lost {held : Set PortPart} (unsettled : ¬o.Settled) (struct : .struct ∈ held) : PortLeft o none held

/-- A port given up without anything left. -/
private theorem PortLeft.abandoned {o : PortOutcome} {held : Set PortPart} (settled : o.Settled)
    (empty : held = ∅) : PortLeft o none held := by
  rw [empty]
  exact .gone settled

/-- The steps of `fscc_port_new` up to `request_irq`. -/
def portSteps : List (Op PortPart) :=
  [.acquire .struct, .acquire .name, .acquire .device, .acquire .cdev, .acquire .irq]

private theorem ledger_portSteps :
    Safe PortPart.parents ∅ portSteps ∧ after ∅ portSteps = portParts [] := by
  constructor
  · simp [portSteps, Op.Ok, Op.effect, PortPart.parents]
  · ext part
    simp only [portSteps, after_cons, after_nil, Op.effect, portParts, portBase, Set.mem_insert_iff,
      Set.mem_union, Set.mem_singleton_iff, Set.mem_empty_iff_false, Set.mem_image, Set.mem_ofPred_eq,
      List.not_mem_nil, false_and, exists_false, or_false]
    exact iff_of_eq (by ac_rfl)

private theorem struct_mem_portParts (live : List Block) : .struct ∈ portParts live := by
  simp [portParts, portBase]

private theorem device_mem_portParts (live : List Block) : .device ∈ portParts live := by
  simp [portParts, portBase]

/-- What `fscc_port_new` does up to its groups of attributes. -/
def portUp (groups : List Bool) : List (Op PortPart) := portSteps ++ sysfsCreateGroups groups

private theorem ledger_portUp (groups : List Bool) :
    Safe PortPart.parents ∅ (portUp groups) ∧ after ∅ (portUp groups) = portParts [] := by
  obtain ⟨steps, stepped⟩ := ledger_portSteps
  obtain ⟨safe, left⟩ := ledger_sysfsCreateGroups (device_mem_portParts []) groups
  exact ⟨steps.append stepped safe, by rw [portUp, after_append, stepped, left]⟩

/-- What it does up to the end of `fscc_io_initialize`. -/
def portRings (groups : List Bool) (alloc : Allocations) : List (Op PortPart) :=
  portUp groups ++ .use .device :: (ioInitializeOps alloc defaultDescNum).map (Op.map .block)

private theorem ledger_portRings (groups : List Bool) (alloc : Allocations) :
    Safe PortPart.parents ∅ (portRings groups alloc) ∧
      after ∅ (portRings groups alloc) = portParts (portIo alloc).2.live := by
  obtain ⟨up, held⟩ := ledger_portUp groups
  obtain ⟨safe, left, -⟩ := @ledger_ioInitialize alloc defaultDescNum nothingYet rfl 256 256
  constructor
  · exact up.append held ⟨device_mem_portParts [], safe_blocks safe⟩
  · rw [portRings, after_append, held]
    exact after_blocks left

/-- What `fscc_port_new` leaves when it has the interrupt. -/
private theorem ledger_fsccPortNew_irq {o : PortOutcome} (port : o.port = true) (name : o.name = true)
    (device : o.device = .created) (fine : portGetPREV o.vstr ≠ 0xff#8) (cdev : o.cdev = true)
    (irq : o.irq = true) :
    Safe PortPart.parents ∅ (fsccPortNew o).1 ∧
      PortLeft o (fsccPortNew o).2 (after ∅ (fsccPortNew o).1) := by
  -- The three groups of attributes are among what a settled port needs.
  have groups_of : o.Settled → [o.registers, o.commands, o.settings].all id = true := by
    intro settled
    obtain ⟨-, first, second, third, -⟩ := (settled port name).2 fine cdev
    simp [first, second, third]
  by_cases all : [o.registers, o.commands, o.settings].all id = true
  · obtain ⟨safe, held⟩ := ledger_portRings [o.registers, o.commands, o.settings] o.io
    have rings := (@ledger_ioInitialize o.io defaultDescNum nothingYet rfl 256 256).2.2
    cases status : (portIo o.io).1 with
    -- Without rings the port is lost: nothing of it is given back.
    | error e =>
      have run : fsccPortNew o =
          (portRings [o.registers, o.commands, o.settings] o.io ++ [.use .device], none) := by
        rcases io : portIo o.io with ⟨result, m⟩
        rw [io] at status
        simp [fsccPortNew, port, name, device, fine, cdev, irq, all, portSteps, portUp, portRings, io,
          show result = .error e from status]
      rw [run]
      refine ⟨safe.append held ⟨device_mem_portParts _, trivial⟩, .lost ?_ ?_⟩
      · intro settled
        have ok := ((settled port name).2 fine cdev).2.2.2.2
        rw [status] at ok
        cases ok
      · rw [after_append, held]
        exact struct_mem_portParts _
    | ok =>
      -- All has been made.
      have run : fsccPortNew o =
          (portRings [o.registers, o.commands, o.settings] o.io, some (portIo o.io).2) := by
        rcases io : portIo o.io with ⟨result, m⟩
        rw [io] at status
        simp [fsccPortNew, port, name, device, fine, cdev, irq, all, portSteps, portUp, portRings, io,
          show result = .ok () from status]
      rw [run]
      simp only [held]
      refine ⟨safe, .returned ?_ (rings status)⟩
      simp only [List.all_cons, List.all_nil, id_eq, Bool.and_true, Bool.and_eq_true] at all
      exact fun _ _ => ⟨device, fun _ _ => ⟨irq, all.1, all.2.1, all.2.2, status⟩⟩
  -- After an attribute group that fails the function only leaves, with all that the port holds.
  · obtain ⟨safe, held⟩ := ledger_portUp [o.registers, o.commands, o.settings]
    have run : fsccPortNew o = (portUp [o.registers, o.commands, o.settings], none) := by
      simp [fsccPortNew, port, name, device, fine, cdev, irq, all, portSteps, portUp]
    rw [run]
    refine ⟨safe, .lost (fun settled => all (groups_of settled)) ?_⟩
    rw [held]
    exact struct_mem_portParts []

/-- What `fscc_port_new` leaves when `device_create` has made the device. -/
private theorem ledger_fsccPortNew {o : PortOutcome} (created : o.Created) :
    Safe PortPart.parents ∅ (fsccPortNew o).1 ∧
      PortLeft o (fsccPortNew o).2 (after ∅ (fsccPortNew o).1) := by
  -- After two of the failures what there was is given back: a bad PREV, and `cdev_add`.
  have given_up :
      Safe PortPart.parents ∅ ([.acquire .struct, .acquire .name, .acquire .device] ++ abandonPort) ∧
      after ∅ ([.acquire .struct, .acquire .name, .acquire .device] ++ abandonPort) = ∅ :=
    ⟨by simp [abandonPort, Op.Ok, Op.effect, PortPart.parents], by simp [abandonPort, Op.effect]⟩
  cases port : o.port with
  | false =>
    have run : fsccPortNew o = ([], none) := by simp [fsccPortNew, port]
    rw [run]
    refine ⟨trivial, .gone fun own => ?_⟩
    rw [port] at own
    cases own
  | true =>
    cases name : o.name with
    | false =>
      have run : fsccPortNew o = ([.acquire .struct, .release .struct], none) := by
        simp [fsccPortNew, port, name]
      rw [run]
      refine ⟨by simp [Op.Ok, Op.effect, PortPart.parents], .abandoned ?_ (by simp [Op.effect])⟩
      intro _ own
      rw [name] at own
      cases own
    | true =>
      have device := created port name
      by_cases messed : portGetPREV o.vstr = 0xff#8
      -- A PREV of all ones has the port given up.
      · have run : fsccPortNew o =
            ([.acquire .struct, .acquire .name, .acquire .device] ++ abandonPort, none) := by
          simp [fsccPortNew, port, name, device, messed]
        rw [run]
        exact ⟨given_up.1, .abandoned (fun _ _ => ⟨device, fun fine => absurd messed fine⟩) given_up.2⟩
      · cases cdev : o.cdev with
        | false =>
          have run : fsccPortNew o =
              ([.acquire .struct, .acquire .name, .acquire .device] ++ abandonPort, none) := by
            simp [fsccPortNew, port, name, device, messed, cdev]
          rw [run]
          refine ⟨given_up.1, .abandoned (fun _ _ => ⟨device, fun _ own => ?_⟩) given_up.2⟩
          rw [cdev] at own
          cases own
        | true =>
          cases irq : o.irq with
          | true => exact ledger_fsccPortNew_irq port name device messed cdev irq
          -- A failed `request_irq` only leaves: the port and its device stay.
          | false =>
            have run : fsccPortNew o = ([.acquire .struct, .acquire .name, .acquire .device,
                .acquire .cdev, .use .device], none) := by
              simp [fsccPortNew, port, name, device, messed, cdev, irq]
            rw [run]
            refine ⟨by simp [Op.Ok, Op.effect, PortPart.parents], .lost ?_ (by simp [Op.effect])⟩
            intro settled
            have own := ((settled port name).2 messed cdev).1
            rw [irq] at own
            cases own

/-- Without the device, something is used that is not there. -/
private theorem unsafe_fsccPortNew {o : PortOutcome} (missing : ¬o.Created) :
    ¬Safe PortPart.parents ∅ (fsccPortNew o).1 := by
  obtain ⟨port, name, device, vstr, cdev, irq, registers, commands, settings, io⟩ := o
  simp only [PortOutcome.Created, not_forall] at missing
  obtain ⟨rfl, rfl, missing⟩ := missing
  by_cases null : device = .null
  · -- The port has been freed when its name is printed.
    simp [fsccPortNew, null, Op.Ok, Op.effect]
  · by_cases messed : portGetPREV vstr = 0xff#8
    · simp [fsccPortNew, null, missing, messed, abandonPort, Op.Ok, Op.effect]
    · cases cdev with
      | false => simp [fsccPortNew, null, missing, messed, abandonPort, Op.Ok, Op.effect]
      | true =>
        cases irq with
        | false => simp [fsccPortNew, null, missing, messed, Op.Ok, Op.effect]
        | true =>
          -- The error pointer is followed for the first group of attributes.
          have first : ∃ rest, (fsccPortNew ⟨true, true, device, vstr, true, true, registers, commands,
              settings, io⟩).1 = [.acquire .struct, .acquire .name, .acquire .cdev, .acquire .irq] ++
                .use .device :: rest := by
            by_cases all : [registers, commands, settings].all id = true
            · rcases status : portIo io with ⟨e | ok, m⟩
              · exact ⟨_, by simp [fsccPortNew, null, missing, messed, all, status, sysfsCreateGroups]; rfl⟩
              · exact ⟨_, by simp [fsccPortNew, null, missing, messed, all, status, sysfsCreateGroups]; rfl⟩
            · exact ⟨_, by simp [fsccPortNew, null, missing, messed, all, sysfsCreateGroups]; rfl⟩
          obtain ⟨rest, run⟩ := first
          rw [run]
          simp [Op.Ok, Op.effect]

/-- `fscc_port_delete` returns a port with all of its parts. -/
private theorem ledger_fsccPortDelete {m : IoMemory} (rings : RingsHeld m {b | b ∈ m.live}) :
    Safe PortPart.parents (portParts m.live) (fsccPortDelete m) ∧
      after (portParts m.live) (fsccPortDelete m) = ∅ := by
  obtain ⟨safe, left⟩ := ledger_ioDestroy rings
  have nothing : after {b | b ∈ m.live} (ioDestroy m) = {b | b ∈ ([] : List Block)} := by
    rw [left]
    simp
  have struct : PortPart.struct ∈ portParts m.live := by simp [portParts, portBase]
  refine ⟨⟨struct, (safe_blocks safe).append (after_blocks nothing) ?_⟩, ?_⟩
  · simp [portParts, portBase, Op.Ok, Op.effect, PortPart.parents]
  · rw [fsccPortDelete, after_cons, Op.effect, after_append, after_blocks nothing]
    ext part
    simp [portParts, portBase, Op.effect]
    tauto

/-! ### A card -/

/-- What a card has; `enabled` is what `pci_enable_device` gives. -/
inductive CardPart where
  | enabled
  | card
  | region (bar : Nat)
  | mapping (bar : Nat)
  | port (channel : Nat) (part : PortPart)
deriving DecidableEq, Repr

/-- What a part of a card needs to be there. A port points to its card. -/
def CardPart.parents : CardPart → List CardPart
  | .enabled => []
  | .card => [.enabled]
  | .region _ => [.card]
  | .mapping _ => []
  | .port channel part => part.parents.map (.port channel) ++ if part = .struct then [.card] else []

/-- What the steps of `fscc_card_new` come to. -/
structure CardOutcome where
  card : Bool
  region : Nat → Bool
  dmaMask : Bool
  mapping : Nat → Bool
  port : Nat → PortOutcome

/-- The two channels of a card. -/
def channels : List Nat := [0, 1]

/-- The loop around `pci_iomap`, with `left` bars to come from `i` on. -/
def pciIomaps (mapping : Nat → Bool) : Nat → Nat → List (Op CardPart) × Bool
  | 0, _ => ([], true)
  | left + 1, i =>
    if !mapping i then ([], false)
    else (.acquire (.mapping i) :: (pciIomaps mapping left (i + 1)).1, (pciIomaps mapping left (i + 1)).2)

/-- `fscc_card_new`: what it does, and the ports of the card that it returns. -/
def fsccCardNew (o : CardOutcome) : List (Op CardPart) × Option (List (Nat × IoMemory)) :=
  if !o.card then ([], none)
  else
    let ops := [.acquire .card]
    if !o.region 0 then (ops, none)
    else
      let ops := ops ++ [.acquire (.region 0)]
      if !o.region 2 then (ops, none)
      else
        let ops := ops ++ [.acquire (.region 2)]
        if !o.dmaMask then (ops, none)
        else
          let ops := ops ++ (pciIomaps o.mapping 3 0).1
          if !(pciIomaps o.mapping 3 0).2 then (ops, none)
          else
            (ops ++ channels.flatMap fun c => (fsccPortNew (o.port c)).1.map (Op.map (.port c)),
              some (channels.filterMap fun c => (fsccPortNew (o.port c)).2.map fun m => (c, m)))

/-- `fscc_card_delete`. The mappings stay. -/
def fsccCardDelete (ports : List (Nat × IoMemory)) : List (Op CardPart) :=
  (ports.flatMap fun p => (fsccPortDelete p.2).map (Op.map (.port p.1))) ++
    [.release (.region 0), .release (.region 2), .release .card]

/-- The parts of a port among those of a card. -/
private theorem embeds_port (channel : Nat) :
    Embeds PortPart.parents CardPart.parents (.port channel) {.card} where
  injective := fun p q same => (CardPart.port.inj same).2
  up := by
    intro p s parent
    rcases List.mem_append.mp parent with own | base
    · obtain ⟨q, member, rfl⟩ := List.mem_map.mp own
      exact .inr ⟨q, member, rfl⟩
    · split at base
      · exact .inl (List.mem_singleton.mp base)
      · cases base
  within := fun p q own => List.mem_append_left _ (List.mem_map_of_mem own)
  down := by
    intro p c parent
    cases c with
    | port d q =>
      rcases List.mem_append.mp parent with own | base
      · obtain ⟨r, member, same⟩ := List.mem_map.mp own
        cases same
        exact ⟨q, rfl, member⟩
      · split at base <;> simp at base
    | _ => simp [CardPart.parents] at parent
  apart := fun p member => by cases member

private theorem family_port : Family PortPart.parents CardPart.parents .port {.card} :=
  ⟨embeds_port, fun _ _ _ _ same => (CardPart.port.inj same).1⟩

/-- A card whose ports stand as `zones` says. -/
structure CardHeld (zones : Nat → Set PortPart) (held : Set CardPart) : Prop where
  own : ∀ part, (∀ c p, CardPart.port c p ≠ part) → (part ∈ held ↔
    part ∈ [CardPart.enabled, .card, .region 0, .region 2, .mapping 0, .mapping 1, .mapping 2])
  zones : ∀ c, Set.preimage (.port c) held = zones c

/-- What the ports of a new card have. -/
def newZones (o : CardOutcome) (c : Nat) : Set PortPart :=
  if c ∈ channels then after ∅ (fsccPortNew (o.port c)).1 else ∅

/-- What `fscc_card_new` had acquired when it gave up. -/
def acquired (ops : List (Op CardPart)) : Set CardPart := {part | .acquire part ∈ ops}

/-- The steps of `fscc_card_new` up to its ports. -/
def cardSteps : List (Op CardPart) :=
  [.acquire .card, .acquire (.region 0), .acquire (.region 2), .acquire (.mapping 0),
    .acquire (.mapping 1), .acquire (.mapping 2)]

/-- `fscc_card_new` gives up in the course of these, or goes on to its ports. -/
theorem fsccCardNew_cases (o : CardOutcome) :
    ((fsccCardNew o).2 = none ∧ (fsccCardNew o).1 <+: cardSteps) ∨
      fsccCardNew o =
        (cardSteps ++ channels.flatMap fun c => (fsccPortNew (o.port c)).1.map (Op.map (.port c)),
        some (channels.filterMap fun c => (fsccPortNew (o.port c)).2.map fun m => (c, m))) := by
  obtain ⟨card, region, dmaMask, mapping, port⟩ := o
  cases card with
  | false => exact .inl ⟨rfl, by simp [fsccCardNew]⟩
  | true =>
    cases first : region 0 with
    | false => exact .inl (by simp [fsccCardNew, first, cardSteps])
    | true =>
      cases second : region 2 with
      | false => exact .inl (by simp [fsccCardNew, first, second, cardSteps])
      | true =>
        cases dmaMask with
        | false => exact .inl (by simp [fsccCardNew, first, second, cardSteps])
        | true =>
          -- The loop over the bars ends at the first that cannot be mapped.
          cases zero : mapping 0 with
          | false => exact .inl (by simp [fsccCardNew, first, second, pciIomaps, zero, cardSteps])
          | true =>
            cases one : mapping 1 with
            | false => exact .inl (by simp [fsccCardNew, first, second, pciIomaps, zero, one, cardSteps])
            | true =>
              cases two : mapping 2 with
              | false =>
                exact .inl (by simp [fsccCardNew, first, second, pciIomaps, zero, one, two, cardSteps])
              | true =>
                exact .inr (by simp [fsccCardNew, first, second, pciIomaps, zero, one, two, cardSteps])

private theorem safe_cardSteps : Safe CardPart.parents {.enabled} cardSteps := by
  simp [cardSteps, Op.Ok, Op.effect, CardPart.parents]

/-- Operations that only acquire add what they acquire. -/
private theorem after_acquires {R : Type} {held : Set R} {ops : List (Op R)}
    (only : ∀ op ∈ ops, ∃ r, op = .acquire r) : after held ops = held ∪ {r | .acquire r ∈ ops} := by
  induction ops generalizing held with
  | nil => simp
  | cons op ops ih =>
    obtain ⟨r, rfl⟩ := only _ (.head _)
    rw [after_cons, ih fun op member => only op (.tail _ member)]
    ext s
    simp only [Op.effect, Set.mem_union, Set.mem_insert_iff, Set.mem_ofPred_eq, List.mem_cons,
      Op.acquire.injEq]
    tauto

private theorem acquire_of_cardSteps {op : Op CardPart} (member : op ∈ cardSteps) :
    ∃ r, op = .acquire r := by
  simp only [cardSteps, List.mem_cons, List.not_mem_nil, or_false] at member
  rcases member with rfl | rfl | rfl | rfl | rfl | rfl <;> exact ⟨_, rfl⟩

private theorem cardHeld_cardSteps : CardHeld (fun _ => ∅) (after {.enabled} cardSteps) := by
  rw [after_acquires fun op => acquire_of_cardSteps]
  constructor
  · intro part other
    cases part with
    | port c p => exact absurd rfl (other c p)
    | _ => simp [cardSteps]
  · intro c
    ext p
    simp [cardSteps]

/-- What is left of a card that could not be made. -/
theorem ledger_fsccCardNew_none {o : CardOutcome} (failed : (fsccCardNew o).2 = none) :
    Safe CardPart.parents {.enabled} (fsccCardNew o).1 ∧
      after {.enabled} (fsccCardNew o).1 = {.enabled} ∪ acquired (fsccCardNew o).1 ∧
      ∀ op ∈ (fsccCardNew o).1, op ∈ cardSteps := by
  rcases fsccCardNew_cases o with ⟨-, start⟩ | made
  · obtain ⟨rest, whole⟩ := start
    have inside : ∀ op ∈ (fsccCardNew o).1, op ∈ cardSteps := by
      intro op member
      rw [← whole]
      exact List.mem_append_left _ member
    refine ⟨?_, after_acquires fun op member => acquire_of_cardSteps (inside op member), inside⟩
    have safe := safe_cardSteps
    rw [← whole, safe_append] at safe
    exact safe.1
  · rw [made] at failed
    cases failed

private theorem card_mem_of_held {zones : Nat → Set PortPart} {held : Set CardPart}
    (h : CardHeld zones held) : ({.card} : Set CardPart) ⊆ held := by
  rintro part rfl
  exact (h.own _ (by simp)).mpr (by simp)

/-- A card that has been made stands as its ports have come about. -/
theorem ledger_fsccCardNew_some {o : CardOutcome} {ports : List (Nat × IoMemory)}
    (made : (fsccCardNew o).2 = some ports) :
    (Safe CardPart.parents {.enabled} (fsccCardNew o).1 ↔ ∀ c ∈ channels, (o.port c).Created) ∧
      CardHeld (newZones o) (after {.enabled} (fsccCardNew o).1) ∧
      ports = channels.filterMap fun c => (fsccPortNew (o.port c)).2.map fun m => (c, m) := by
  rcases fsccCardNew_cases o with ⟨failed, -⟩ | whole
  · rw [failed] at made
    cases made
  · have nodup : channels.Nodup := by simp [channels]
    have steps := cardHeld_cardSteps
    have under := card_mem_of_held steps
    have safe := family_port.safe_flatMap nodup (fun c => (fsccPortNew (o.port c)).1) under
    obtain ⟨zones, kept⟩ := @Family.after_flatMap _ _ _ _ _ _ _ (after {.enabled} cardSteps) _
      family_port _ nodup fun c => (fsccPortNew (o.port c)).1
    rw [whole] at made ⊢
    dsimp only
    rw [safe_append, after_append, and_iff_right safe_cardSteps, safe]
    refine ⟨?_, ⟨fun part other => ?_, fun c => ?_⟩, (Option.some.inj made).symm⟩
    · refine forall₂_congr fun c _ => ?_
      rw [steps.zones c]
      constructor
      · intro safe_
        by_contra missing
        exact unsafe_fsccPortNew missing safe_
      · intro created
        exact (ledger_fsccPortNew created).1
    · rw [kept part other, steps.own part other]
    · rw [zones c, steps.zones c, newZones]

/-- What `fscc_card_delete` does to a channel. -/
def portEnd (o : CardOutcome) (c : Nat) : List (Op PortPart) :=
  match (fsccPortNew (o.port c)).2 with
  | some m => fsccPortDelete m
  | none => []

private theorem fsccCardDelete_eq (o : CardOutcome) :
    fsccCardDelete (channels.filterMap fun c => (fsccPortNew (o.port c)).2.map fun m => (c, m)) =
      (channels.flatMap fun c => (portEnd o c).map (Op.map (.port c))) ++
        [.release (.region 0), .release (.region 2), .release .card] := by
  cases zero : (fsccPortNew (o.port 0)).2 <;> cases one : (fsccPortNew (o.port 1)).2 <;>
    simp [fsccCardDelete, channels, portEnd, zero, one]

/-- A channel is empty in the end, or parts of its port are left for good. -/
private theorem ledger_portEnd {o : CardOutcome} {c : Nat} (created : (o.port c).Created) :
    Safe PortPart.parents (after ∅ (fsccPortNew (o.port c)).1) (portEnd o c) ∧
      ((o.port c).Settled → after (after ∅ (fsccPortNew (o.port c)).1) (portEnd o c) = ∅) ∧
      (¬(o.port c).Settled → .struct ∈ after (after ∅ (fsccPortNew (o.port c)).1) (portEnd o c)) := by
  obtain ⟨-, left⟩ := ledger_fsccPortNew created
  rw [portEnd]
  generalize (fsccPortNew (o.port c)).2 = result at left
  generalize after ∅ (fsccPortNew (o.port c)).1 = held at left
  cases left with
  | returned settled rings =>
    obtain ⟨safe, gone⟩ := ledger_fsccPortDelete rings
    exact ⟨safe, fun _ => gone, fun unsettled => absurd settled unsettled⟩
  | gone settled => exact ⟨trivial, fun _ => rfl, fun unsettled => absurd settled unsettled⟩
  | lost unsettled struct => exact ⟨trivial, fun settled => absurd settled unsettled, fun _ => struct⟩

/-- What stays of a card that is deleted. -/
def cardRemains : Set CardPart := {.enabled, .mapping 0, .mapping 1, .mapping 2}

/-- What rests on the regions and on the card. -/
private theorem CardPart.region_notMem_parents (bar : Nat) (part : CardPart) :
    .region bar ∉ part.parents := by
  cases part with
  | port c p =>
    intro parent
    rcases List.mem_append.mp parent with own | base
    · obtain ⟨q, -, same⟩ := List.mem_map.mp own
      cases same
    · split at base <;> simp at base
  | _ => simp [parents]

private theorem CardPart.card_mem_parents {part : CardPart} :
    .card ∈ part.parents ↔ (∃ bar, part = .region bar) ∨ ∃ c, part = .port c .struct := by
  cases part with
  | port c p =>
    have own : CardPart.card ∉ p.parents.map (CardPart.port c) := by simp
    by_cases struct : p = .struct
    · simp [parents, struct]
    · simp [parents, struct]
  | _ => simp [parents]

/-- A card can be deleted when no port of it has been lost. -/
theorem ledger_fsccCardDelete {o : CardOutcome} {ports : List (Nat × IoMemory)}
    (made : (fsccCardNew o).2 = some ports) (created : ∀ c ∈ channels, (o.port c).Created)
    {held : Set CardPart} (h : CardHeld (newZones o) held) :
    (Safe CardPart.parents held (fsccCardDelete ports) ↔ ∀ c ∈ channels, (o.port c).Settled) ∧
      ((∀ c ∈ channels, (o.port c).Settled) → after held (fsccCardDelete ports) = cardRemains) := by
  obtain ⟨-, -, rfl⟩ := ledger_fsccCardNew_some made
  have nodup : channels.Nodup := by simp [channels]
  have zone : ∀ c ∈ channels, Set.preimage (CardPart.port c) held = after ∅ (fsccPortNew (o.port c)).1 := by
    intro c member
    rw [h.zones c, newZones, if_pos member]
  have safe : Safe CardPart.parents held
      (channels.flatMap fun c => (portEnd o c).map (Op.map (.port c))) := by
    rw [family_port.safe_flatMap nodup _ (card_mem_of_held h)]
    intro c member
    rw [zone c member]
    exact (ledger_portEnd (created c member)).1
  obtain ⟨zones, kept⟩ := @Family.after_flatMap _ _ _ _ _ _ _ held _ family_port _ nodup (portEnd o)
  rw [fsccCardDelete_eq, safe_append, after_append, and_iff_right safe]
  generalize after held (channels.flatMap fun c => (portEnd o c).map (Op.map (.port c))) = left
    at zones kept
  have own : ∀ part, (∀ c p, CardPart.port c p ≠ part) → (part ∈ left ↔
      part ∈ [CardPart.enabled, .card, .region 0, .region 2, .mapping 0, .mapping 1, .mapping 2]) :=
    fun part other => (kept part other).trans (h.own part other)
  have emptied : (∀ c ∈ channels, (o.port c).Settled) → ∀ c p, CardPart.port c p ∉ left := by
    intro settled c p member
    have here : p ∈ Set.preimage (CardPart.port c) left := member
    rw [zones c] at here
    split at here
    next channel =>
      rw [zone c channel, (ledger_portEnd (created c channel)).2.1 (settled c channel)] at here
      exact here
    next other =>
      rw [h.zones c, newZones, if_neg other] at here
      exact here
  -- A lost port keeps its card from being freed, and nothing else does.
  have held_iff : (∀ c ∈ channels, (o.port c).Settled) ↔ ∀ c, CardPart.port c .struct ∉ left := by
    refine ⟨fun settled c => emptied settled c .struct, fun none_ c channel => ?_⟩
    by_contra unsettled
    have struct := (ledger_portEnd (created c channel)).2.2 unsettled
    have same := zones c
    rw [if_pos channel, zone c channel] at same
    rw [← same] at struct
    exact none_ c struct
  constructor
  · rw [held_iff]
    constructor
    · rintro ⟨-, -, ⟨-, free⟩, -⟩ c member
      exact free (.port c .struct) ⟨⟨member, by simp⟩, by simp⟩
        (CardPart.card_mem_parents.mpr (.inr ⟨c, rfl⟩))
    · intro none_
      refine ⟨⟨(own _ (by simp)).mpr (by simp), fun part _ => part.region_notMem_parents 0⟩,
        ⟨⟨(own _ (by simp)).mpr (by simp), by simp⟩, fun part _ => part.region_notMem_parents 2⟩,
        ⟨⟨⟨(own _ (by simp)).mpr (by simp), by simp⟩, by simp⟩, ?_⟩, trivial⟩
      rintro part ⟨⟨member, first⟩, second⟩ parent
      rcases CardPart.card_mem_parents.mp parent with ⟨bar, rfl⟩ | ⟨c, rfl⟩
      · have bars := (own _ (by simp)).mp member
        simp only [List.mem_cons, CardPart.region.injEq, reduceCtorEq, List.not_mem_nil, or_false,
          false_or] at bars
        rcases bars with rfl | rfl
        · exact first rfl
        · exact second rfl
      · exact none_ c member
  · intro settled
    ext part
    cases part with
    | port c p => simp [Op.effect, cardRemains, emptied settled c p]
    | region bar =>
      simp only [after_cons, after_nil, Op.effect, Set.mem_sdiff,
        own _ (by simp : ∀ c p, CardPart.port c p ≠ .region bar)]
      simp [cardRemains]
      omega
    | _ => simp [Op.effect, cardRemains, own]

end Fscc
