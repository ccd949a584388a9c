import Fscc.Descriptor
import Fscc.Lib.Ring

/-!
# Descriptors as a DMA engine finds them

By physical address, each with the address of the next one. `fscc_io_link_descriptors` closes
them to a ring.
-/

namespace Fscc

/-- `frame->desc->next_descriptor = address`. -/
def IoFrame.setNextDescriptor (f : IoFrame) (address : BitVec 32) : IoFrame :=
  { f with desc := { f.desc with nextDescriptor := address } }

/-- `fscc_io_link_descriptors`. -/
def ioLinkDescriptors (frames : List IoFrame) : List IoFrame :=
  frames.mapIdx fun i f =>
    f.setNextDescriptor
      (frames.getD (if i < frames.length - 1 then i + 1 else 0) default).descPhysicalAddress

/-- The descriptor at an address. -/
def descAt (fs : List IoFrame) (address : BitVec 32) : Option IoFrame :=
  fs.find? fun f => f.descPhysicalAddress == address

/-- The index of the descriptor at an address. -/
def indexAt (fs : List IoFrame) (address : BitVec 32) : Nat :=
  fs.findIdx fun f => f.descPhysicalAddress == address

/-- The descriptors have addresses of their own, none of them zero, and each one names the next. -/
structure Linked (fs : List IoFrame) : Prop where
  distinct : (fs.map IoFrame.descPhysicalAddress).Nodup
  nonzero : ∀ f ∈ fs, f.descPhysicalAddress ≠ 0#32
  next : ∀ i f, fs[i]? = some f → some f.desc.nextDescriptor =
    (fs[Ring.next fs.length i]?).map IoFrame.descPhysicalAddress

/-- Linking leaves the addresses. -/
theorem addresses_ioLinkDescriptors (fs : List IoFrame) :
    (ioLinkDescriptors fs).map IoFrame.descPhysicalAddress =
      fs.map IoFrame.descPhysicalAddress := by
  apply List.ext_getElem?
  intro i
  simp [ioLinkDescriptors, IoFrame.setNextDescriptor, Function.comp_def]

theorem length_ioLinkDescriptors (fs : List IoFrame) :
    (ioLinkDescriptors fs).length = fs.length := List.length_mapIdx

/-- Each descriptor is linked to the one in the next slot. -/
theorem next_ioLinkDescriptors {fs : List IoFrame} {i : Nat} {f : IoFrame}
    (found : (ioLinkDescriptors fs)[i]? = some f) :
    some f.desc.nextDescriptor = ((ioLinkDescriptors fs)[Ring.next fs.length i]?).map
      IoFrame.descPhysicalAddress := by
  have inside : i < fs.length := by
    rw [← length_ioLinkDescriptors]
    exact (List.getElem?_eq_some_iff.mp found).1
  rw [← List.getElem?_map, addresses_ioLinkDescriptors]
  simp only [ioLinkDescriptors, List.getElem?_mapIdx] at found
  obtain ⟨g, -, rfl⟩ := Option.map_eq_some_iff.mp found
  have same : (if i < fs.length - 1 then i + 1 else 0) = Ring.next fs.length i := by
    unfold Ring.next
    split <;> split <;> omega
  have next := Ring.next_lt inside
  simp [IoFrame.setNextDescriptor, same, next]

theorem linked_ioLinkDescriptors {fs : List IoFrame}
    (distinct : (fs.map IoFrame.descPhysicalAddress).Nodup)
    (nonzero : ∀ f ∈ fs, f.descPhysicalAddress ≠ 0#32) : Linked (ioLinkDescriptors fs) := by
  have addresses := addresses_ioLinkDescriptors fs
  refine ⟨by rw [addresses]; exact distinct, fun f member => ?_, fun i f found => ?_⟩
  · have : f.descPhysicalAddress ∈ fs.map IoFrame.descPhysicalAddress := by
      rw [← addresses]
      exact List.mem_map_of_mem member
    obtain ⟨g, old, same⟩ := List.mem_map.mp this
    rw [← same]
    exact nonzero g old
  · rw [length_ioLinkDescriptors]
    exact next_ioLinkDescriptors found

/-- Descriptors with addresses of their own are found by them. -/
theorem indexAt_eq {fs : List IoFrame} (distinct : (fs.map IoFrame.descPhysicalAddress).Nodup)
    {i : Nat} {f : IoFrame} (found : fs[i]? = some f) :
    indexAt fs f.descPhysicalAddress = i := by
  induction fs generalizing i with
  | nil => cases found
  | cons x fs ih =>
    obtain ⟨new, distinct⟩ := List.nodup_cons.mp distinct
    rw [indexAt, List.findIdx_cons]
    cases i with
    | zero =>
      obtain rfl := Option.some.inj found
      simp
    | succ i =>
      have other : x.descPhysicalAddress ≠ f.descPhysicalAddress := by
        intro same
        exact new (same ▸ List.mem_map_of_mem (List.mem_of_getElem? found))
      rw [beq_eq_false_iff_ne.mpr other, cond_false]
      exact congrArg (· + 1) (ih distinct found)

/-- What an engine knows of a descriptor's place in the ring. -/
def IoFrame.place (f : IoFrame) : BitVec 32 × BitVec 32 :=
  (f.descPhysicalAddress, f.desc.nextDescriptor)

namespace IoFrame

variable (f : IoFrame) (c : BitVec 32) (n : Nat) (b : List UInt8)

@[simp] theorem place_setControl : (f.setControl c).place = f.place := rfl
@[simp] theorem place_setDataCount : (f.setDataCount n).place = f.place := rfl
@[simp] theorem place_setBuffer : (f.setBuffer b).place = f.place := rfl

theorem cstop_filled : ((f.setBuffer b).setDataCount n).cstop = f.cstop := rfl

theorem place_filled : ((f.setBuffer b).setDataCount n).place = f.place := rfl

theorem address_of_place {f g : IoFrame} (same : g.place = f.place) :
    g.descPhysicalAddress = f.descPhysicalAddress := congrArg Prod.fst same

end IoFrame

namespace Linked

variable {fs gs : List IoFrame} {f g : IoFrame} {i : Nat}

/-- Links are a matter of addresses only. -/
theorem congr (linked : Linked fs) (places : gs.map IoFrame.place = fs.map IoFrame.place) :
    Linked gs := by
  have addresses : gs.map IoFrame.descPhysicalAddress = fs.map IoFrame.descPhysicalAddress := by
    simpa [IoFrame.place, Function.comp_def] using congrArg (List.map Prod.fst) places
  have length : gs.length = fs.length := by simpa using congrArg List.length places
  refine ⟨by rw [addresses]; exact linked.distinct, fun g member => ?_, fun i g found => ?_⟩
  · obtain ⟨f, old, same⟩ := List.mem_map.mp
      (addresses ▸ List.mem_map_of_mem (f := IoFrame.descPhysicalAddress) member)
    rw [← same]
    exact linked.nonzero f old
  · have here := congrArg (fun l => l[i]?) places
    simp only [List.getElem?_map, found, Option.map_some] at here
    obtain ⟨f, old, same⟩ := Option.map_eq_some_iff.mp here.symm
    rw [← List.getElem?_map, addresses, length, List.getElem?_map, ← linked.next i f old,
      show f.desc.nextDescriptor = g.desc.nextDescriptor from congrArg Prod.snd same]

/-- Writing a descriptor in its place keeps the links. -/
theorem set (linked : Linked fs) (found : fs[i]? = some f) (place : g.place = f.place) :
    Linked (fs.set i g) := by
  refine linked.congr ?_
  rw [List.map_set, place]
  refine List.ext_getElem? fun j => ?_
  rw [List.getElem?_set]
  split
  next here =>
    subst here
    obtain ⟨inside, rfl⟩ := List.getElem?_eq_some_iff.mp found
    simp [inside]
  next => rfl

theorem descAt_of_mem (linked : Linked fs) (member : f ∈ fs) :
    descAt fs f.descPhysicalAddress = some f := by
  have distinct := linked.distinct
  clear linked
  induction fs with
  | nil => cases member
  | cons x fs ih =>
    obtain ⟨new, distinct⟩ := List.nodup_cons.mp distinct
    rw [descAt, List.find?_cons]
    rcases List.mem_cons.mp member with rfl | member
    · simp
    · have other : x.descPhysicalAddress ≠ f.descPhysicalAddress := by
        intro same
        exact new (same ▸ List.mem_map_of_mem member)
      simp only [other, beq_eq_false_iff_ne.mpr, ne_eq, not_false_eq_true]
      exact ih member distinct

theorem indexAt_of_getElem? (linked : Linked fs) (found : fs[i]? = some f) :
    indexAt fs f.descPhysicalAddress = i := indexAt_eq linked.distinct found

/-- In the ring a descriptor names the one after it. -/
theorem next_view (linked : Linked fs) {xs ys : List IoFrame}
    (shape : Ring.view fs i = xs ++ f :: ys) :
    ((ys ++ xs ++ [f]).head?.map IoFrame.descPhysicalAddress) = some f.desc.nextDescriptor := by
  have size : xs.length < fs.length := by
    rw [← Ring.length_view fs i, shape]
    simp
  have found : fs[Ring.slot fs.length i xs.length]? = some f := by
    rw [← Ring.getElem?_view size, shape]
    simp
  have whole : Ring.view fs i = (xs ++ [f]) ++ ys := by simp [shape]
  have after := Ring.view_slot whole
  have next := linked.next _ f found
  rw [Ring.next_slot (by omega)] at next
  rw [next, ← List.head?_map, List.append_assoc, ← after]
  rw [List.length_append, List.length_singleton, List.head?_eq_getElem?, List.getElem?_map,
    Ring.getElem?_view (by omega), Ring.slot_zero (Ring.slot_lt (by omega))]

end Linked

/-- A finished descriptor stays finished if another one is written, or itself without being
freed. -/
theorem descAt_set {fs : List IoFrame} (i : Nat) {g f : IoFrame} {address : BitVec 32}
    (place : g.descPhysicalAddress = (fs.getD i default).descPhysicalAddress)
    (kept : (fs.getD i default).descPhysicalAddress = address →
      (fs.getD i default).cstop = true → g.cstop = true)
    (found : descAt fs address = some f) (cstop : f.cstop = true) :
    ∃ f', descAt (fs.set i g) address = some f' ∧ f'.cstop = true := by
  induction fs generalizing i with
  | nil => cases found
  | cons x fs ih =>
    simp only [descAt, List.find?_cons] at found ih
    cases i with
    | zero =>
      simp only [List.getD_cons_zero] at place kept
      simp only [List.set_cons_zero, descAt, List.find?_cons, place]
      split at found
      next here =>
        obtain rfl := Option.some.inj found
        exact ⟨g, by simp, kept (by simpa using here) cstop⟩
      next other => exact ⟨f, by simpa [other] using found, cstop⟩
    | succ i =>
      simp only [List.getD_cons_succ] at place kept
      simp only [List.set_cons_succ, descAt, List.find?_cons]
      split at found
      next here =>
        obtain rfl := Option.some.inj found
        exact ⟨x, by simp, cstop⟩
      next other =>
        obtain ⟨f', later, done⟩ := ih i place kept found
        exact ⟨f', by simpa [other] using later, done⟩

end Fscc
