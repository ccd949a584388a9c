import Fscc.PortLifecycle

/-!
# The driver, from beginning to end

`fscc_init`, `fscc_remove` and `fscc_exit` as operations on a ledger. The code of the module is there
while it is loaded: a character device or an interrupt handler must not outlive it.
-/

namespace Fscc

open Ledger

/-- What the driver has, `text` being the code of the module. -/
inductive Resource where
  | text
  | deviceClass
  | major
  | driver
  | device (d : Nat) (part : CardPart)
deriving DecidableEq, Repr

/-- What a part of a card needs of the driver. -/
def CardPart.support : CardPart → List Resource
  | .port _ .device => [.deviceClass]
  | .port _ .cdev => [.text]
  | .port _ .irq => [.text]
  | _ => []

def Resource.parents : Resource → List Resource
  | .text => []
  | .deviceClass => [.text]
  | .major => [.text]
  | .driver => [.text]
  | .device d part => part.parents.map (.device d) ++ part.support

/-- A device of the vendor, with what comes of it. -/
structure FoundDevice where
  device : BitVec 16
  enable : Bool
  card : CardOutcome

/-- `is_fscc_device`. -/
def isFsccDevice (device : BitVec 16) : Bool :=
  device ∈ [0x000f#16, 0x0014#16, 0x0015#16, 0x0016#16, 0x0017#16, 0x0018#16, 0x0019#16, 0x001a#16,
    0x001b#16, 0x001c#16, 0x001d#16, 0x001e#16, 0x0023#16, 0x0025#16, 0x0026#16, 0x0027#16, 0x0022#16]

/-- What the registrations of `fscc_init` come to. -/
structure StartOutcome where
  deviceClass : Bool
  major : Bool
  driver : Bool
deriving DecidableEq, Repr

/-- The cards of `fscc_cards`, each with its place on the bus and its ports. -/
abbrev Cards := List (Nat × List (Nat × IoMemory))

/-- What `fscc_init` does for a device that it could enable. -/
def deviceNew (found : FoundDevice) : List (Op CardPart) :=
  if !isFsccDevice found.device then [] else .acquire .enabled :: (fsccCardNew found.card).1

/-- The loop of `fscc_init`, with `left` devices to come from `d` on. -/
def initLoop (found : Nat → FoundDevice) : Nat → Nat → List (Op Resource) × Option Cards
  | 0, _ => ([], some [])
  | left + 1, d =>
    let rest := initLoop found left (d + 1)
    if !isFsccDevice (found d).device then rest
    -- The error is returned with everything in place.
    else if !(found d).enable then ([], none)
    else
      ((deviceNew (found d)).map (Op.map (.device d)) ++ rest.1,
        rest.2.map fun cards => ((fsccCardNew (found d).card).2.map fun ports => (d, ports)).toList ++ cards)

/-- `fscc_init`, on a bus with `number` devices of the vendor. -/
def fsccInit (start : StartOutcome) (found : Nat → FoundDevice) (number : Nat) :
    List (Op Resource) × Option Cards :=
  if !start.deviceClass then ([], none)
  else
    let ops := [.acquire .deviceClass]
    if !start.major then (ops ++ [.release .deviceClass], none)
    else
      let ops := ops ++ [.acquire .major]
      if !start.driver then (ops ++ [.release .major, .release .deviceClass], none)
      else
        let ops := ops ++ [.acquire .driver]
        let loop := initLoop found number 0
        match loop.2 with
        | none => (ops ++ loop.1, none)
        | some cards =>
          if ∀ d < number, isFsccDevice (found d).device = false then
            (ops ++ loop.1 ++ [.release .driver, .release .major, .release .deviceClass], none)
          else (ops ++ loop.1, some cards)

/-- `fscc_remove`, of the device at `pdev`. -/
def fsccRemove (pdev : Nat) (cards : Cards) : List (Op Resource) × Cards :=
  match cards.find? fun card => card.1 == pdev with
  | none => ([], cards)
  | some card =>
    ((fsccCardDelete card.2 ++ [Op.release CardPart.enabled]).map (Op.map (.device pdev)),
      cards.eraseP fun card => card.1 == pdev)

/-- `fscc_remove` of one device after the other. -/
def fsccRemoves : List Nat → Cards → List (Op Resource) × Cards
  | [], cards => ([], cards)
  | pdev :: removed, cards =>
    let first := fsccRemove pdev cards
    (first.1 ++ (fsccRemoves removed first.2).1, (fsccRemoves removed first.2).2)

/-- `fscc_exit`. -/
def fsccExit (cards : Cards) : List (Op Resource) :=
  (cards.flatMap fun card => (fsccCardDelete card.2).map (Op.map (.device card.1))) ++
    [.release .driver, .release .major, .release .deviceClass]

/-- The life of the module: it is loaded, devices are removed, and it is unloaded; at once when
`fscc_init` failed. -/
def moduleLife (start : StartOutcome) (found : Nat → FoundDevice) (number : Nat) (removed : List Nat) :
    List (Op Resource) :=
  let init := fsccInit start found number
  .acquire .text :: (init.1 ++
    match init.2 with
    | none => [.release .text]
    | some cards =>
      (fsccRemoves removed cards).1 ++ fsccExit (fsccRemoves removed cards).2 ++ [.release .text])

/-! ### The cards among what the driver has -/

private theorem Resource.device_mem_parents {d : Nat} {part : CardPart} {r : Resource} :
    .device d part ∈ r.parents ↔ ∃ other, r = .device d other ∧ part ∈ other.parents := by
  have support : ∀ other : CardPart, Resource.device d part ∉ other.support := by
    intro other
    unfold CardPart.support
    split <;> simp
  cases r with
  | device e other =>
    simp only [parents, List.mem_append, support, or_false, List.mem_map, device.injEq]
    constructor
    · rintro ⟨q, member, rfl, rfl⟩
      exact ⟨other, ⟨rfl, rfl⟩, member⟩
    · rintro ⟨_, ⟨rfl, rfl⟩, member⟩
      exact ⟨part, member, rfl, rfl⟩
  | _ => simp [parents]

private theorem family_device :
    Family CardPart.parents Resource.parents .device {.text, .deviceClass} where
  embeds d := {
    injective := fun p q same => (Resource.device.inj same).2
    up := by
      intro part s parent
      rcases List.mem_append.mp parent with own | base
      · obtain ⟨q, member, rfl⟩ := List.mem_map.mp own
        exact .inr ⟨q, member, rfl⟩
      · unfold CardPart.support at base
        split at base <;> simp at base <;> simp [base]
    within := fun p q own => List.mem_append_left _ (List.mem_map_of_mem own)
    down := by
      intro p c parent
      obtain ⟨other, rfl, member⟩ := Resource.device_mem_parents.mp parent
      exact ⟨other, rfl, member⟩
    apart := by
      intro p member
      simp at member }
  distinct := fun _ _ _ _ same => (Resource.device.inj same).1

/-! ### Starting -/

variable {found : Nat → FoundDevice} {number : Nat}

/-- Each device that is for the driver can be enabled. -/
def Enabled (found : Nat → FoundDevice) (number : Nat) : Prop :=
  ∀ d < number, isFsccDevice (found d).device = true → (found d).enable = true

/-- The card that is listed for a device. -/
def cardAt (found : Nat → FoundDevice) (d : Nat) : Option (Nat × List (Nat × IoMemory)) :=
  if isFsccDevice (found d).device = true then
    (fsccCardNew (found d).card).2.map fun ports => (d, ports)
  else none

/-- The loop takes the devices one by one. -/
private theorem initLoop_eq (left d : Nat)
    (enabled : ∀ e, d ≤ e → e < d + left → isFsccDevice (found e).device = true → (found e).enable = true) :
    initLoop found left d =
      ((List.range' d left).flatMap fun e => (deviceNew (found e)).map (Op.map (.device e)),
        some ((List.range' d left).filterMap (cardAt found))) := by
  induction left generalizing d with
  | zero => rfl
  | succ left ih =>
    have rest := ih (d + 1) fun e low high => enabled e (by omega) (by omega)
    rw [initLoop, rest]
    dsimp only
    rw [List.range'_succ, List.flatMap_cons, List.filterMap_cons]
    cases mine : isFsccDevice (found d).device with
    | false => simp [deviceNew, cardAt, mine]
    | true =>
      have here := enabled d (Nat.le_refl d) (by omega) mine
      cases made : (fsccCardNew (found d).card).2 <;> simp [deviceNew, cardAt, mine, here, made]

/-- It ends at a device that cannot be enabled. -/
private theorem initLoop_none {left d : Nat} {e : Nat} (low : d ≤ e) (high : e < d + left)
    (mine : isFsccDevice (found e).device = true) (refused : (found e).enable = false) :
    (initLoop found left d).2 = none := by
  induction left generalizing d with
  | zero => omega
  | succ left ih =>
    rw [initLoop]
    by_cases first : d = e
    · subst first
      simp [mine, refused]
    · have rest := ih (show d + 1 ≤ e by omega) (by omega)
      simp only [rest, Option.map_none]
      split
      · exact rest
      · split <;> rfl

/-- What the driver has registered. -/
def registered : Set Resource := {.text, .deviceClass, .major, .driver}

/-- What the devices of a list of operations have, with what the driver has registered. -/
def driverHeld (zones : Nat → Set CardPart) : Set Resource :=
  registered ∪ {r | ∃ d, ∃ part ∈ zones d, r = .device d part}

private theorem preimage_driverHeld (zones : Nat → Set CardPart) (d : Nat) :
    Set.preimage (Resource.device d) (driverHeld zones) = zones d := by
  ext part
  simp [driverHeld, registered]

private theorem eq_driverHeld {held : Set Resource} {zones : Nat → Set CardPart}
    (own : Family.Kept Resource.device registered held)
    (parts : ∀ d, Set.preimage (Resource.device d) held = zones d) : held = driverHeld zones := by
  ext r
  cases r with
  | device d part =>
    have same := Set.ext_iff.mp (parts d) part
    rw [Set.mem_preimage] at same
    rw [same]
    simp [driverHeld, registered]
  | _ =>
    rw [own _ (by simp)]
    simp [driverHeld, registered]

private theorem registered_subset (zones : Nat → Set CardPart) :
    ({.text, .deviceClass} : Set Resource) ⊆ driverHeld zones := by
  rintro r (rfl | rfl) <;> simp [driverHeld, registered]

/-- Operations on devices that are apart lead from zones to zones. -/
private theorem ledger_devices {zones : Nat → Set CardPart} {ds : List Nat} (nodup : ds.Nodup)
    (ops : Nat → List (Op CardPart)) :
    (Safe Resource.parents (driverHeld zones) (ds.flatMap fun d => (ops d).map (Op.map (.device d))) ↔
      ∀ d ∈ ds, Safe CardPart.parents (zones d) (ops d)) ∧
    after (driverHeld zones) (ds.flatMap fun d => (ops d).map (Op.map (.device d))) =
      driverHeld fun d => if d ∈ ds then after (zones d) (ops d) else zones d := by
  obtain ⟨parts, kept⟩ := @Family.after_flatMap _ _ _ _ _ _ _ (driverHeld zones) _ family_device _ nodup ops
  constructor
  · rw [family_device.safe_flatMap nodup ops (registered_subset zones)]
    simp only [preimage_driverHeld]
  · refine eq_driverHeld (fun s other => (kept s other).trans ?_) fun d => ?_
    · cases s with
      | device d part => exact absurd rfl (other d part)
      | _ => simp [driverHeld, registered]
    · rw [parts d, preimage_driverHeld]

/-! ### Stopping -/

/-- No port of the card at `d` has been lost. -/
def CardSettled (found : Nat → FoundDevice) (d : Nat) : Prop :=
  ∀ c ∈ channels, ((found d).card.port c).Settled

/-- The listed cards stand as they have come about; the other devices have no ports. -/
structure Running (found : Nat → FoundDevice) (cards : Cards) (zones : Nat → Set CardPart) : Prop where
  nodup : (cards.map Prod.fst).Nodup
  made : ∀ card ∈ cards, (fsccCardNew (found card.1).card).2 = some card.2 ∧
    (∀ c ∈ channels, ((found card.1).card.port c).Created) ∧
    CardHeld (newZones (found card.1).card) (zones card.1)
  rest : ∀ d, d ∉ cards.map Prod.fst → ∀ c p, .port c p ∉ zones d

/-- What `fscc_card_delete` does to a device. -/
def cardEnd (found : Nat → FoundDevice) (d : Nat) : List (Op CardPart) :=
  match (fsccCardNew (found d).card).2 with
  | some ports => fsccCardDelete ports
  | none => []

variable {cards : Cards} {zones : Nat → Set CardPart}

private theorem Running.cardEnd (h : Running found cards zones) {d : Nat}
    (listed : d ∈ cards.map Prod.fst) :
    (Safe CardPart.parents (zones d) (cardEnd found d) ↔ CardSettled found d) ∧
      (CardSettled found d → after (zones d) (Fscc.cardEnd found d) = cardRemains) := by
  obtain ⟨card, member, rfl⟩ := List.mem_map.mp listed
  obtain ⟨made, created, held⟩ := h.made card member
  rw [Fscc.cardEnd, made]
  exact ledger_fsccCardDelete made created held

private theorem Running.flatMap_delete (h : Running found cards zones) :
    (cards.flatMap fun card => (fsccCardDelete card.2).map (Op.map (.device card.1))) =
      (cards.map Prod.fst).flatMap fun d => (Fscc.cardEnd found d).map (Op.map (Resource.device d)) := by
  rw [List.flatMap_map]
  refine List.flatMap_congr fun card member => ?_
  rw [Fscc.cardEnd, (h.made card member).1]

private theorem Resource.deviceClass_mem_parents {r : Resource} (parent : .deviceClass ∈ r.parents) :
    ∃ d c p, r = .device d (.port c p) := by
  cases r with
  | device d part =>
    rcases List.mem_append.mp parent with own | base
    · simp at own
    · unfold CardPart.support at base
      split at base
      · exact ⟨d, _, _, rfl⟩
      · simp at base
      · simp at base
      · cases base
  | _ => simp [parents] at parent

private theorem Resource.text_mem_parents {r : Resource} (parent : .text ∈ r.parents) :
    r = .deviceClass ∨ r = .major ∨ r = .driver ∨ ∃ d c p, r = .device d (.port c p) := by
  cases r with
  | device d part =>
    rcases List.mem_append.mp parent with own | base
    · simp at own
    · unfold CardPart.support at base
      split at base
      · simp at base
      · exact .inr (.inr (.inr ⟨d, _, _, rfl⟩))
      · exact .inr (.inr (.inr ⟨d, _, _, rfl⟩))
      · cases base
  | text => simp [parents] at parent
  | deviceClass => exact .inl rfl
  | major => exact .inr (.inl rfl)
  | driver => exact .inr (.inr (.inl rfl))

private theorem Resource.major_notMem_parents (r : Resource) :
    .major ∉ r.parents ∧ .driver ∉ r.parents := by
  cases r with
  | device d part =>
    have support : Resource.major ∉ part.support ∧ .driver ∉ part.support := by
      unfold CardPart.support
      split <;> simp
    simp [parents, support]
  | _ => simp [parents]

/-- Without ports, the driver can give back what it has registered. -/
private theorem ledger_unregister (none_ : ∀ d c p, .port c p ∉ zones d) :
    Safe Resource.parents (driverHeld zones)
      ([.release .driver, .release .major, .release .deviceClass] ++ [.release .text]) ∧
    after (driverHeld zones)
        ([.release .driver, .release .major, .release .deviceClass] ++ [.release .text]) =
      {r | ∃ d, ∃ part ∈ zones d, r = .device d part} := by
  have reg : registered ⊆ driverHeld zones := Set.subset_union_left
  -- No port is left that would still use the class and the code of the module.
  have port : ∀ d c p, .device d (.port c p) ∉ driverHeld zones := by
    intro d c p member
    refine none_ d c p ?_
    rw [← preimage_driverHeld zones d]
    exact member
  constructor
  · refine ⟨⟨reg (by simp [registered]), fun r _ => (Resource.major_notMem_parents r).2⟩,
      ⟨⟨reg (by simp [registered]), by simp⟩, fun r _ => (Resource.major_notMem_parents r).1⟩,
      ⟨⟨⟨reg (by simp [registered]), by simp⟩, by simp⟩, ?_⟩,
      ⟨⟨⟨⟨reg (by simp [registered]), by simp⟩, by simp⟩, by simp⟩, ?_⟩, trivial⟩
    -- The device class goes after the ports made from it.
    · rintro r ⟨⟨member, -⟩, -⟩ parent
      obtain ⟨d, c, p, rfl⟩ := Resource.deviceClass_mem_parents parent
      exact port d c p member
    -- The code of the module goes last, after all that calls into it.
    · rintro r ⟨⟨⟨member, first⟩, second⟩, third⟩ parent
      rcases Resource.text_mem_parents parent with rfl | rfl | rfl | ⟨d, c, p, rfl⟩
      · exact third rfl
      · exact second rfl
      · exact first rfl
      · exact port d c p member
  · ext r
    cases r with
    | device d part => simp [Op.effect, driverHeld, registered]
    | _ => simp [Op.effect, driverHeld, registered]

/-- What is left of a device in the end. -/
def devicesLeft (zones : Nat → Set CardPart) (listed removed : List Nat) (d : Nat) : Set CardPart :=
  if d ∈ listed then
    if d ∈ removed then cardRemains \ {.enabled} else cardRemains
  else zones d

/-- `fscc_exit`, and the end of the module. -/
private theorem ledger_fsccExit (h : Running found cards zones) :
    (Safe Resource.parents (driverHeld zones) (fsccExit cards ++ [.release .text]) ↔
      ∀ d ∈ cards.map Prod.fst, CardSettled found d) ∧
    ((∀ d ∈ cards.map Prod.fst, CardSettled found d) →
      after (driverHeld zones) (fsccExit cards ++ [.release .text]) =
        {r | ∃ d, ∃ part ∈ devicesLeft zones (cards.map Prod.fst) [] d, r = .device d part}) := by
  -- The cards are deleted one after another, each on its own.
  obtain ⟨safe, left⟩ := @ledger_devices zones _ h.nodup (Fscc.cardEnd found)
  have ends : (∀ d ∈ cards.map Prod.fst, Safe CardPart.parents (zones d) (Fscc.cardEnd found d)) ↔
      ∀ d ∈ cards.map Prod.fst, CardSettled found d :=
    forall₂_congr fun d listed => (h.cardEnd listed).1
  rw [fsccExit, h.flatMap_delete, List.append_assoc, safe_append, after_append, left, safe, ends]
  have settled : (∀ d ∈ cards.map Prod.fst, CardSettled found d) →
      (fun d => if d ∈ cards.map Prod.fst then after (zones d) (Fscc.cardEnd found d) else zones d) =
        devicesLeft zones (cards.map Prod.fst) [] := by
    intro settled
    funext d
    rw [devicesLeft]
    split
    next listed => simp [(h.cardEnd listed).2 (settled d listed)]
    next other => rfl
  -- After that no port of any card is held.
  have none_ : ∀ d c p, .port c p ∉ devicesLeft zones (cards.map Prod.fst) [] d := by
    intro d c p
    rw [devicesLeft]
    split
    · simp [cardRemains]
    · next other => exact h.rest d other c p
  constructor
  · refine and_iff_left_of_imp fun all => ?_
    rw [settled all]
    exact (ledger_unregister none_).1
  · intro all
    rw [settled all]
    exact (ledger_unregister none_).2

/-- Removing a listed device. -/
private theorem ledger_fsccRemove {ports : List (Nat × IoMemory)} {pdev : Nat}
    (h : Running found ((pdev, ports) :: cards) zones) :
    let ops := (fsccCardDelete ports ++ [Op.release CardPart.enabled]).map (Op.map (Resource.device pdev))
    (Safe Resource.parents (driverHeld zones) ops ↔ CardSettled found pdev) ∧
      (CardSettled found pdev → after (driverHeld zones) ops =
        driverHeld (Function.update zones pdev (cardRemains \ {.enabled}))) := by
  have made := (h.made (pdev, ports) (.head _)).1
  have ends : Fscc.cardEnd found pdev = fsccCardDelete ports := by rw [Fscc.cardEnd, made]
  obtain ⟨safe, left⟩ := h.cardEnd (show pdev ∈ _ from .head _)
  obtain ⟨one, then_⟩ := @ledger_devices zones [pdev] (List.nodup_singleton _) fun _ =>
    fsccCardDelete ports ++ [Op.release CardPart.enabled]
  rw [ends] at safe left
  simp only [List.flatMap_cons, List.flatMap_nil, List.append_nil, List.forall_mem_singleton] at one then_
  refine ⟨?_, fun settled => ?_⟩
  · rw [one, safe_append, safe]
    refine and_iff_left_of_imp fun settled => ?_
    -- Only the mappings are left beside it.
    rw [left settled]
    exact ⟨⟨by simp [cardRemains], by simp [cardRemains, CardPart.parents]⟩, trivial⟩
  · rw [then_]
    congr 1
    funext d
    by_cases same : d = pdev
    · subst same
      rw [if_pos (List.mem_singleton_self _), after_append, left settled, Function.update_self]
      rfl
    · rw [if_neg fun member => same (List.mem_singleton.mp member), Function.update_of_ne same]

/-- A device that has been removed is not listed any more. -/
private theorem Running.removed {ports : List (Nat × IoMemory)} {pdev : Nat} {more : Cards}
    (h : Running found cards zones) (perm : cards.Perm ((pdev, ports) :: more)) :
    Running found ((pdev, ports) :: more) zones ∧
      Running found more (Function.update zones pdev (cardRemains \ {.enabled})) := by
  have whole : Running found ((pdev, ports) :: more) zones := {
    nodup := (perm.map Prod.fst).nodup_iff.mp h.nodup
    made := fun card member => h.made card (perm.mem_iff.mpr member)
    rest := fun d other => h.rest d fun listed => other ((perm.map Prod.fst).mem_iff.mp listed) }
  obtain ⟨new, nodup⟩ := List.nodup_cons.mp whole.nodup
  refine ⟨whole, nodup, fun card member => ?_, fun d other c p => ?_⟩
  · have apart : card.1 ≠ pdev := by
      intro same
      exact new (List.mem_map.mpr ⟨card, member, same⟩)
    rw [Function.update_of_ne apart]
    exact whole.made card (.tail _ member)
  · by_cases same : d = pdev
    · subst same
      simp [cardRemains]
    · rw [Function.update_of_ne same]
      refine whole.rest d (fun listed => ?_) c p
      rcases List.mem_cons.mp listed with first | later
      · exact same first
      · exact other later

/-- What is found first is what is taken out. -/
private theorem perm_eraseP {α : Type} {p : α → Bool} {l : List α} {a : α}
    (first : l.find? p = some a) :
    l.Perm (a :: l.eraseP p) := by
  induction l with
  | nil => cases first
  | cons x l ih =>
    cases here : p x with
    | true =>
      rw [List.find?_cons_of_pos here] at first
      cases first
      rw [List.eraseP_cons_of_pos here]
    | false =>
      have not_ : ¬p x = true := by simp [here]
      rw [List.find?_cons_of_neg not_] at first
      rw [List.eraseP_cons_of_neg not_]
      exact ((ih first).cons x).trans (List.Perm.swap a x _)

private theorem fsccRemove_cases (pdev : Nat) (cards : Cards) :
    (pdev ∉ cards.map Prod.fst ∧ fsccRemove pdev cards = ([], cards)) ∨
      ∃ ports, cards.Perm ((pdev, ports) :: (fsccRemove pdev cards).2) ∧ (fsccRemove pdev cards).1 =
        (fsccCardDelete ports ++ [Op.release CardPart.enabled]).map (Op.map (Resource.device pdev)) := by
  rw [fsccRemove]
  cases here : cards.find? fun card => card.1 == pdev with
  | none =>
    refine .inl ⟨fun listed => ?_, rfl⟩
    obtain ⟨card, member, same⟩ := List.mem_map.mp listed
    have other := List.find?_eq_none.mp here card member
    simp [same] at other
  | some card =>
    obtain ⟨d, ports⟩ := card
    obtain rfl : d = pdev := by simpa using List.find?_some here
    exact .inr ⟨ports, perm_eraseP here, rfl⟩

/-- Removals, `fscc_exit`, and the end of the module. -/
private theorem ledger_stop (removed : List Nat) (h : Running found cards zones) :
    let ops := (fsccRemoves removed cards).1 ++ fsccExit (fsccRemoves removed cards).2 ++ [.release .text]
    (Safe Resource.parents (driverHeld zones) ops ↔ ∀ d ∈ cards.map Prod.fst, CardSettled found d) ∧
    ((∀ d ∈ cards.map Prod.fst, CardSettled found d) → after (driverHeld zones) ops =
      {r | ∃ d, ∃ part ∈ devicesLeft zones (cards.map Prod.fst) removed d, r = .device d part}) := by
  induction removed generalizing cards zones with
  | nil => exact ledger_fsccExit h
  | cons pdev removed ih =>
    dsimp only
    rw [fsccRemoves]
    -- A device that is not listed is removed without effect.
    rcases fsccRemove_cases pdev cards with ⟨other, skipped⟩ | ⟨ports, perm, run⟩
    · rw [skipped]
      obtain ⟨safe, left⟩ := ih h
      refine ⟨safe, fun settled => (left settled).trans ?_⟩
      have same : devicesLeft zones (cards.map Prod.fst) removed =
          devicesLeft zones (cards.map Prod.fst) (pdev :: removed) := by
        funext d
        rw [devicesLeft, devicesLeft]
        by_cases listed : d ∈ cards.map Prod.fst
        · have apart : d ≠ pdev := fun same => other (same ▸ listed)
          simp [apart]
        · rw [if_neg listed, if_neg listed]
      rw [same]
    -- The card is deleted, and the rest of the run starts from what that leaves.
    · obtain ⟨whole, next⟩ := h.removed perm
      have keys : ∀ d, d ∈ cards.map Prod.fst ↔ d = pdev ∨ d ∈ (fsccRemove pdev cards).2.map Prod.fst := by
        intro d
        rw [(perm.map Prod.fst).mem_iff]
        exact List.mem_cons
      obtain ⟨new, -⟩ := List.nodup_cons.mp whole.nodup
      obtain ⟨safe, left⟩ := ledger_fsccRemove whole
      obtain ⟨safe', left'⟩ := ih next
      rw [run, List.append_assoc, List.append_assoc, safe_append, safe]
      have all : (∀ d ∈ cards.map Prod.fst, CardSettled found d) ↔ CardSettled found pdev ∧
          ∀ d ∈ (fsccRemove pdev cards).2.map Prod.fst, CardSettled found d := by
        simp only [keys, forall_eq_or_imp]
      rw [all, ← List.append_assoc, after_append]
      refine ⟨and_congr_right fun settled => ?_, fun settled => ?_⟩
      · rw [left settled]
        exact safe'
      · rw [left settled.1]
        refine (left' settled.2).trans ?_
        have same : devicesLeft (Function.update zones pdev (cardRemains \ {.enabled}))
            ((fsccRemove pdev cards).2.map Prod.fst) removed =
            devicesLeft zones (cards.map Prod.fst) (pdev :: removed) := by
          funext d
          rw [devicesLeft, devicesLeft]
          by_cases first : d = pdev
          · subst first
            rw [if_neg new, Function.update_self, if_pos ((keys d).mpr (.inl rfl)), if_pos (.head _)]
          · simp only [keys d, first, false_or, List.mem_cons, Function.update_of_ne first]
        rw [same]

/-! ### The whole life -/

/-- What the devices have when `fscc_init` has found them. -/
def startZones (found : Nat → FoundDevice) (number d : Nat) : Set CardPart :=
  if d ∈ List.range' 0 number then after ∅ (deviceNew (found d)) else ∅

private theorem mem_cards {card : Nat × List (Nat × IoMemory)} :
    card ∈ (List.range' 0 number).filterMap (cardAt found) ↔ card.1 < number ∧
      isFsccDevice (found card.1).device = true ∧ (fsccCardNew (found card.1).card).2 = some card.2 := by
  obtain ⟨d, ports⟩ := card
  simp only [List.mem_filterMap, List.mem_range'_1, cardAt]
  constructor
  · rintro ⟨e, ⟨-, lt⟩, at_⟩
    split at at_
    next mine =>
      obtain ⟨own, made, same⟩ := Option.map_eq_some_iff.mp at_
      cases same
      exact ⟨by omega, mine, made⟩
    next => cases at_
  · rintro ⟨lt, mine, made⟩
    exact ⟨d, ⟨Nat.zero_le d, by omega⟩, by rw [if_pos mine, made]; rfl⟩

/-- The list has a card once. -/
private theorem nodup_cards :
    (((List.range' 0 number).filterMap (cardAt found)).map Prod.fst).Nodup := by
  have sub : ∀ ds : List Nat, ((ds.filterMap (cardAt found)).map Prod.fst).Sublist ds := by
    intro ds
    induction ds with
    | nil => exact List.Sublist.refl _
    | cons d ds ih =>
      cases at_ : cardAt found d with
      | none =>
        rw [List.filterMap_cons_none at_]
        exact ih.cons d
      | some card =>
        have key : card.1 = d := by
          rw [cardAt] at at_
          split at at_
          · obtain ⟨own, -, rfl⟩ := Option.map_eq_some_iff.mp at_
            rfl
          · cases at_
        rw [List.filterMap_cons_some at_, List.map_cons, key]
        exact ih.cons_cons d
  exact (sub _).nodup List.nodup_range'

private theorem after_deviceNew {d : FoundDevice} (mine : isFsccDevice d.device = true) :
    (Safe CardPart.parents ∅ (deviceNew d) ↔ Safe CardPart.parents {.enabled} (fsccCardNew d.card).1) ∧
      after ∅ (deviceNew d) = after {.enabled} (fsccCardNew d.card).1 := by
  have one : (Op.acquire CardPart.enabled).effect ∅ = {.enabled} := by
    ext part
    simp [Op.effect]
  rw [deviceNew, if_neg (by simp [mine]), safe_cons, after_cons, one]
  exact ⟨and_iff_right ⟨id, by simp [CardPart.parents]⟩, rfl⟩

/-- No port is made without its device. -/
def AllCreated (found : Nat → FoundDevice) (number : Nat) : Prop :=
  ∀ d < number, isFsccDevice (found d).device = true → (fsccCardNew (found d).card).2 ≠ none →
    ∀ c ∈ channels, ((found d).card.port c).Created

private theorem safe_start :
    (∀ d ∈ List.range' 0 number, Safe CardPart.parents ∅ (deviceNew (found d))) ↔
      AllCreated found number := by
  refine forall_congr' fun d => ?_
  rw [List.mem_range'_1, Nat.zero_add, and_iff_right (Nat.zero_le d)]
  refine imp_congr_right fun _ => ?_
  cases mine : isFsccDevice (found d).device with
  | false => simp [deviceNew, mine]
  | true =>
    rw [(after_deviceNew mine).1]
    cases made : (fsccCardNew (found d).card).2 with
    | none => simp [ledger_fsccCardNew_none made]
    | some ports => simp [ledger_fsccCardNew_some made]

private theorem running_start (created : AllCreated found number) :
    Running found ((List.range' 0 number).filterMap (cardAt found)) (startZones found number) where
  nodup := nodup_cards
  made := by
    -- Each listed card has been made by `fscc_card_new`, and holds what that acquires.
    intro card member
    obtain ⟨lt, mine, made⟩ := mem_cards.mp member
    refine ⟨made, created card.1 lt mine (by simp [made]), ?_⟩
    rw [startZones, if_pos (by simpa using lt), (after_deviceNew mine).2]
    exact (ledger_fsccCardNew_some made).2.1
  -- A device that is not listed holds no port: its card failed before the ports.
  rest := by
    intro d other c p
    rw [startZones]
    split
    next inside =>
      cases mine : isFsccDevice (found d).device with
      | false => simp [deviceNew, mine]
      | true =>
        rw [(after_deviceNew mine).2]
        cases made : (fsccCardNew (found d).card).2 with
        | some ports =>
          have lt : d < number := by simpa using inside
          exact absurd (List.mem_map.mpr ⟨(d, ports), mem_cards.mpr ⟨lt, mine, made⟩, rfl⟩) other
        | none =>
          obtain ⟨-, left, steps⟩ := ledger_fsccCardNew_none made
          rw [left]
          rintro (enabled | got)
          · cases enabled
          · have step := steps _ got
            simp [cardSteps] at step
    next => exact id

/-- Each device can be enabled, and each port of a card comes about or fails before `cdev_add`. -/
def Sound (found : Nat → FoundDevice) (number : Nat) : Prop :=
  ∀ d < number, isFsccDevice (found d).device = true → (found d).enable = true ∧
    ((fsccCardNew (found d).card).2 ≠ none → CardSettled found d)

private theorem Sound.created (sound : Sound found number) : AllCreated found number :=
  fun d lt mine made c channel => ((sound d lt mine).2 made c channel).created

private theorem Sound.enabled (sound : Sound found number) : Enabled found number :=
  fun d lt mine => (sound d lt mine).1

private theorem sound_iff (enabled : Enabled found number) :
    Sound found number ↔ AllCreated found number ∧
      ∀ d ∈ ((List.range' 0 number).filterMap (cardAt found)).map Prod.fst, CardSettled found d := by
  constructor
  · intro sound
    refine ⟨sound.created, fun d listed => ?_⟩
    obtain ⟨card, member, rfl⟩ := List.mem_map.mp listed
    obtain ⟨lt, mine, made⟩ := mem_cards.mp member
    exact (sound card.1 lt mine).2 (by simp [made])
  · rintro ⟨-, settled⟩ d lt mine
    refine ⟨enabled d lt mine, fun made => ?_⟩
    obtain ⟨ports, made⟩ := Option.ne_none_iff_exists'.mp made
    exact settled d (List.mem_map.mpr ⟨(d, ports), mem_cards.mpr ⟨lt, mine, made⟩, rfl⟩)

/-- The registrations of `fscc_init`, after the module has been loaded. -/
def registrations : List (Op Resource) :=
  [.acquire .text, .acquire .deviceClass, .acquire .major, .acquire .driver]

private theorem ledger_registrations :
    Safe Resource.parents ∅ registrations ∧ after ∅ registrations = driverHeld fun _ => ∅ := by
  constructor
  · simp [registrations, Op.Ok, Op.effect, Resource.parents]
  · ext r
    cases r <;> simp [registrations, Op.effect, driverHeld, registered]

private theorem initLoop_kept (left d : Nat) (held : Set Resource) :
    Family.Kept Resource.device held (after held (initLoop found left d).1) := by
  induction left generalizing d held with
  | zero => exact fun s _ => Iff.rfl
  | succ left ih =>
    rw [initLoop]
    split
    · exact ih (d + 1) held
    · split
      · exact fun s _ => Iff.rfl
      · rw [after_append]
        have first := (@Family.after_one _ _ _ _ _ _ _ held _ family_device d (deviceNew (found d))).2
        exact fun s other => (ih (d + 1) _ s other).trans (first s other)

/-- A module whose registrations succeed. -/
private theorem moduleLife_started {start : StartOutcome} (removed : List Nat)
    (started : start = ⟨true, true, true⟩) :
    moduleLife start found number removed = registrations ++ ((initLoop found number 0).1 ++
      match (initLoop found number 0).2 with
      | none => [.release .text]
      | some cards =>
        if ∀ d < number, isFsccDevice (found d).device = false then
          [.release .driver, .release .major, .release .deviceClass] ++ [.release .text]
        else
          (fsccRemoves removed cards).1 ++ fsccExit (fsccRemoves removed cards).2 ++ [.release .text]) := by
  rw [moduleLife, fsccInit, started]
  cases ended : (initLoop found number 0).2 with
  | none => simp [registrations, ended]
  | some cards =>
    by_cases nothing : ∀ d < number, isFsccDevice (found d).device = false
    · simp only [registrations, ended, Bool.not_true, Bool.false_eq_true, if_false, if_pos nothing]
      simp
    · simp [registrations, ended, nothing]

/-- What is left of a device when the module is gone. -/
def deviceRemains (found : Nat → FoundDevice) (removed : List Nat) (d : Nat) : Set CardPart :=
  match (fsccCardNew (found d).card).2 with
  | some _ => if d ∈ removed then cardRemains \ {.enabled} else cardRemains
  | none => {.enabled} ∪ acquired (fsccCardNew (found d).card).1

private theorem devicesLeft_start (removed : List Nat) (d : Nat) :
    devicesLeft (startZones found number)
        (((List.range' 0 number).filterMap (cardAt found)).map Prod.fst) removed d =
      if d < number ∧ isFsccDevice (found d).device = true then deviceRemains found removed d else ∅ := by
  -- The list holds the cards that were made, out of the devices that are ours.
  have listed_iff : d ∈ ((List.range' 0 number).filterMap (cardAt found)).map Prod.fst ↔
      d < number ∧ isFsccDevice (found d).device = true ∧
        ∃ ports, (fsccCardNew (found d).card).2 = some ports := by
    constructor
    · intro listed
      obtain ⟨card, member, rfl⟩ := List.mem_map.mp listed
      obtain ⟨lt, mine, made⟩ := mem_cards.mp member
      exact ⟨lt, mine, card.2, made⟩
    · rintro ⟨lt, mine, ports, made⟩
      exact List.mem_map.mpr ⟨(d, ports), mem_cards.mpr ⟨lt, mine, made⟩, rfl⟩
  rw [devicesLeft]
  by_cases inside : d < number ∧ isFsccDevice (found d).device = true
  · obtain ⟨lt, mine⟩ := id inside
    rw [if_pos inside, deviceRemains]
    cases made : (fsccCardNew (found d).card).2 with
    | some ports => rw [if_pos (listed_iff.mpr ⟨lt, mine, ports, made⟩)]
    | none =>
      have unlisted : ¬d ∈ ((List.range' 0 number).filterMap (cardAt found)).map Prod.fst := by
        rw [listed_iff, made]
        simp
      rw [if_neg unlisted, startZones, if_pos (by simpa using lt), (after_deviceNew mine).2]
      exact (ledger_fsccCardNew_none made).2.1
  -- A device of another make is not touched at all.
  · have unlisted : ¬d ∈ ((List.range' 0 number).filterMap (cardAt found)).map Prod.fst :=
      fun listed => inside ⟨(listed_iff.mp listed).1, (listed_iff.mp listed).2.1⟩
    rw [if_neg unlisted, if_neg inside, startZones]
    split
    next here =>
      have other : isFsccDevice (found d).device = false := by
        rw [← Bool.not_eq_true]
        exact fun mine => inside ⟨by simpa using here, mine⟩
      simp [deviceNew, other]
    next => rfl

private theorem ledger_moduleLife (enabled : Enabled found number) (removed : List Nat) :
    (Safe Resource.parents ∅ (moduleLife ⟨true, true, true⟩ found number removed) ↔ Sound found number) ∧
    (Sound found number → after ∅ (moduleLife ⟨true, true, true⟩ found number removed) =
      {r | ∃ d < number, isFsccDevice (found d).device = true ∧
        ∃ part ∈ deviceRemains found removed d, r = .device d part}) := by
  -- Registering comes first, then one pass over the devices.
  have loop := initLoop_eq number 0 fun d _ lt => enabled d (by omega)
  obtain ⟨safe, left⟩ := ledger_registrations
  obtain ⟨safe', left'⟩ := @ledger_devices (fun _ => ∅) (List.range' 0 number) List.nodup_range' fun d =>
    deviceNew (found d)
  rw [safe_start] at safe'
  rw [moduleLife_started removed rfl, loop, safe_append, after_append, left, safe_append, after_append,
    left', and_iff_right safe, safe', sound_iff enabled]
  have zones : (fun d => if d ∈ List.range' 0 number then after ∅ (deviceNew (found d)) else ∅) =
      startZones found number := rfl
  rw [zones]
  dsimp only
  by_cases nothing : ∀ d < number, isFsccDevice (found d).device = false
  · -- Without a device, all is given back at once.
    rw [if_pos nothing]
    have none_ : ∀ d, startZones found number d = ∅ := by
      intro d
      rw [startZones]
      split
      next inside =>
        have lt : d < number := by simpa using inside
        simp [deviceNew, nothing d lt]
      next => rfl
    obtain ⟨given, left⟩ := @ledger_unregister (startZones found number) (by simp [none_])
    have none_listed : ∀ d, d ∉ ((List.range' 0 number).filterMap (cardAt found)).map Prod.fst := by
      intro d listed
      obtain ⟨card, member, -⟩ := List.mem_map.mp listed
      obtain ⟨lt, mine, -⟩ := mem_cards.mp member
      rw [nothing card.1 lt] at mine
      cases mine
    refine ⟨and_congr_right fun _ => iff_of_true given fun d listed => absurd listed (none_listed d),
      fun _ => ?_⟩
    rw [left]
    ext r
    simp only [none_, Set.mem_empty_iff_false, false_and, exists_false, Set.mem_ofPred_eq, false_iff]
    rintro ⟨d, lt, mine, -⟩
    rw [nothing d lt] at mine
    cases mine
  -- The devices stay until the module is removed.
  · rw [if_neg nothing]
    constructor
    · exact and_congr_right fun created => (ledger_stop removed (running_start created)).1
    · rintro ⟨created, settled⟩
      refine ((ledger_stop removed (running_start created)).2 settled).trans ?_
      ext r
      simp only [Set.mem_ofPred_eq, devicesLeft_start]
      constructor
      · rintro ⟨d, part, member, rfl⟩
        split at member
        next inside => exact ⟨d, inside.1, inside.2, part, member, rfl⟩
        next => cases member
      · rintro ⟨d, lt, mine, part, member, rfl⟩
        exact ⟨d, part, by rwa [if_pos ⟨lt, mine⟩], rfl⟩

private theorem unsafe_moduleLife (refused : ¬Enabled found number) (removed : List Nat) :
    ¬Safe Resource.parents ∅ (moduleLife ⟨true, true, true⟩ found number removed) := by
  simp only [Enabled, not_forall] at refused
  obtain ⟨d, lt, mine, refused⟩ := refused
  have ended := @initLoop_none found number 0 d (Nat.zero_le d) (by omega) mine (by simpa using refused)
  rw [moduleLife_started removed rfl, ended, safe_append, safe_append, ledger_registrations.2]
  rintro ⟨-, -, ⟨-, free⟩, -⟩
  -- The class is still there when the code goes.
  refine free .deviceClass ?_ (by simp [Resource.parents])
  rw [initLoop_kept number 0 _ _ (by simp)]
  simp [driverHeld, registered]

/-- Over the whole life of the module, whatever fails in it, nothing is used, released or acquired out
of its time, just when no device fails to be enabled and no port fails later than in `cdev_add`, or
with an error from `device_create`. -/
theorem module_life_safe (start : StartOutcome) (found : Nat → FoundDevice) (number : Nat)
    (removed : List Nat) :
    Safe Resource.parents ∅ (moduleLife start found number removed) ↔
      (start = ⟨true, true, true⟩ → Sound found number) := by
  obtain ⟨deviceClass, major, driver⟩ := start
  cases deviceClass with
  | false => simp [moduleLife, fsccInit, Op.Ok, Op.effect, Resource.parents]
  | true =>
    cases major with
    | false => simp [moduleLife, fsccInit, Op.Ok, Op.effect, Resource.parents]
    | true =>
      cases driver with
      | false => simp [moduleLife, fsccInit, Op.Ok, Op.effect, Resource.parents]
      | true =>
        rw [imp_iff_right rfl]
        by_cases enabled : Enabled found number
        · exact (ledger_moduleLife enabled removed).1
        · exact iff_of_false (unsafe_moduleLife enabled removed) fun sound => enabled sound.enabled

/-- What is left behind then: nothing of the driver itself, of each card its mappings, with the device
still enabled unless it was removed, and what a card had that could not be made. -/
theorem module_leaves {start : StartOutcome} {found : Nat → FoundDevice} {number : Nat}
    (removed : List Nat) (sound : start = ⟨true, true, true⟩ → Sound found number) (r : Resource) :
    r ∈ after ∅ (moduleLife start found number removed) ↔ start = ⟨true, true, true⟩ ∧
      ∃ d < number, isFsccDevice (found d).device = true ∧
        ∃ part ∈ deviceRemains found removed d, r = .device d part := by
  obtain ⟨deviceClass, major, driver⟩ := start
  cases deviceClass with
  | false => simp [moduleLife, fsccInit, Op.effect]
  | true =>
    cases major with
    | false => cases r <;> simp [moduleLife, fsccInit, Op.effect]
    | true =>
      cases driver with
      | false => cases r <;> simp [moduleLife, fsccInit, Op.effect]
      | true =>
        rw [and_iff_right rfl, (ledger_moduleLife (sound rfl).enabled removed).2 (sound rfl)]
        rfl

/-- A card for which all goes well, with two slots in each ring. -/
def soundCard : FoundDevice where
  device := 0x000f#16
  enable := true
  card := {
    card := true
    region := fun _ => true
    dmaMask := true
    mapping := fun _ => true
    port := fun _ => ⟨true, true, .created, 0#32, true, true, true, true, true, shortOf 2 true⟩ }

private theorem sound_soundCard : Sound (fun _ => soundCard) 1 := by
  intro d _ _
  refine ⟨rfl, fun _ c _ _ _ => ⟨rfl, fun _ _ => ⟨rfl, rfl, rfl, rfl, ?_⟩⟩⟩
  have ok : (portIo (shortOf 2 true)).1 matches .ok _ := by decide
  change (portIo (shortOf 2 true)).1 = .ok ()
  cases status : (portIo (shortOf 2 true)).1 with
  | ok => rfl
  | error e => simp [status] at ok

/-- The card is removed before the module: the second bar stays mapped. -/
theorem module_leaves_mapping :
    .device 0 (.mapping 2) ∈ after ∅ (moduleLife ⟨true, true, true⟩ (fun _ => soundCard) 1 [0]) := by
  refine (module_leaves [0] (fun _ => sound_soundCard) _).mpr
    ⟨rfl, 0, by decide, by decide, .mapping 2, ?_, rfl⟩
  rcases fsccCardNew_cases soundCard.card with ⟨failed, -⟩ | made
  · simp [fsccCardNew, soundCard, pciIomaps] at failed
  · simp [deviceRemains, made, cardRemains]

end Fscc
