import Mathlib.Data.List.Rotate
import Mathlib.Data.Nat.ModEq

/-!
# Rings of slots

A list used as a ring: two indices move over it cyclically. `view l i` lists the
slots in the order in which an index that starts at `i` meets them, so that a
producer and a consumer on the ring become operations on two adjacent lists.
-/

namespace Ring

variable {α ρ σ : Type}

/-- The slot after `i` in a ring of `n` slots. -/
def next (n i : Nat) : Nat := if i + 1 = n then 0 else i + 1

/-- The slot `k` places after `i`. -/
def slot (n i k : Nat) : Nat := (i + k) % n

/-- The slots in cyclic order from `i`. -/
def view (l : List α) (i : Nat) : List α := l.rotate i

theorem next_lt {n i : Nat} (h : i < n) : next n i < n := by
  unfold next
  split <;> omega

theorem slot_lt {n i k : Nat} (h : 0 < n) : slot n i k < n := Nat.mod_lt _ h

@[simp] theorem slot_zero {n i : Nat} (h : i < n) : slot n i 0 = i := Nat.mod_eq_of_lt h

theorem slot_of_add_lt {n i k : Nat} (h : i + k < n) : slot n i k = i + k :=
  Nat.mod_eq_of_lt h

theorem next_eq_slot {n i : Nat} (h : i < n) : next n i = slot n i 1 := by
  unfold next slot
  split
  next last => rw [last, Nat.mod_self]
  next inner => exact (Nat.mod_eq_of_lt (by omega)).symm

theorem slot_slot (n i j k : Nat) : slot n (slot n i j) k = slot n i (j + k) := by
  simp [slot, Nat.add_assoc]

theorem next_slot {n i k : Nat} (h : 0 < n) : next n (slot n i k) = slot n i (k + 1) := by
  rw [next_eq_slot (slot_lt h), slot_slot]

theorem slot_next {n i k : Nat} (h : i < n) : slot n (next n i) k = slot n i (k + 1) := by
  rw [next_eq_slot h, slot_slot, Nat.add_comm]

@[simp] theorem slot_size {n i : Nat} (h : i < n) : slot n i n = i := by
  simp [slot, Nat.mod_eq_of_lt h]

@[simp] theorem length_view (l : List α) (i : Nat) : (view l i).length = l.length :=
  List.length_rotate l i

theorem mem_view {l : List α} {i : Nat} {x : α} : x ∈ view l i ↔ x ∈ l := List.mem_rotate

theorem view_map {β : Type} (f : α → β) (l : List α) (i : Nat) :
    view (l.map f) i = (view l i).map f := List.map_rotate f l i |>.symm

theorem getElem?_view {l : List α} {i k : Nat} (h : k < l.length) :
    (view l i)[k]? = l[slot l.length i k]? := by
  rw [view, List.getElem?_rotate h, slot, Nat.add_comm]

/-- Reading the slot `k` places after `i`. -/
theorem getD_slot {l : List α} {i k : Nat} (x : α) (h : k < l.length) :
    l.getD (slot l.length i k) x = (view l i).getD k x := by
  rw [List.getD_eq_getElem?_getD, List.getD_eq_getElem?_getD, getElem?_view h]

theorem getD_head {l xs : List α} {i : Nat} (x y : α) (h : i < l.length)
    (shape : view l i = x :: xs) : l.getD i y = x := by
  have read := getD_slot (i := i) (k := 0) y (by omega : 0 < l.length)
  rw [slot_zero h, shape] at read
  simpa using read

/-- Two places within one turn are the same slot only if they are the same place. -/
theorem slot_inj {n i j k : Nat} (hj : j < n) (hk : k < n) :
    slot n i j = slot n i k ↔ j = k := by
  refine ⟨fun h => ?_, fun h => by rw [h]⟩
  have := Nat.ModEq.add_left_cancel' i (h : Nat.ModEq n (i + j) (i + k))
  rwa [Nat.ModEq, Nat.mod_eq_of_lt hj, Nat.mod_eq_of_lt hk] at this

/-- The slot `k` places on determines the slot. -/
theorem slot_cancel {n i j k : Nat} (hi : i < n) (hj : j < n) (h : slot n i k = slot n j k) :
    i = j := by
  have := Nat.ModEq.add_right_cancel' k (h : Nat.ModEq n (i + k) (j + k))
  rwa [Nat.ModEq, Nat.mod_eq_of_lt hi, Nat.mod_eq_of_lt hj] at this

/-- Every slot is some places on from every other. -/
theorem exists_slot {n i j : Nat} (hi : i < n) (hj : j < n) : ∃ k < n, slot n i k = j := by
  by_cases le : i ≤ j
  · refine ⟨j - i, by omega, ?_⟩
    rw [slot_of_add_lt (by omega)]
    omega
  · refine ⟨j + n - i, by omega, ?_⟩
    rw [slot, show i + (j + n - i) = j + n by omega, Nat.add_mod_right, Nat.mod_eq_of_lt hj]

/-- Writing the slot `k` places after `i`. -/
theorem view_set {l : List α} {i k : Nat} (x : α) (h : k < l.length) :
    view (l.set (slot l.length i k) x) i = (view l i).set k x := by
  apply List.ext_getElem?
  intro j
  by_cases hj : j < l.length
  · rw [getElem?_view (by simpa using hj), List.length_set, List.getElem?_set, List.getElem?_set,
      length_view, getElem?_view hj]
    simp only [slot_inj h hj, slot_lt (show 0 < l.length by omega), h]
  · rw [List.getElem?_eq_none (by simpa using hj), List.getElem?_eq_none (by simpa using hj)]

/-- Writing the slot at a place of the view that is split there. -/
theorem view_set_append {l xs ys : List α} {i : Nat} (x y : α)
    (shape : view l i = xs ++ y :: ys) :
    view (l.set (slot l.length i xs.length) x) i = xs ++ x :: ys := by
  have size : xs.length < l.length := by
    rw [← length_view l i, shape]
    simp
  rw [view_set x size, shape, List.set_append_right _ _ (le_refl _)]
  simp

/-- Moving the index on sends the first slot of the view to its end. -/
theorem view_next {l xs : List α} {i : Nat} {x : α} (h : i < l.length)
    (shape : view l i = x :: xs) : view l (next l.length i) = xs ++ [x] := by
  have moved : l.rotate (next l.length i) = (l.rotate i).rotate 1 := by
    rw [next_eq_slot h, slot, List.rotate_mod, List.rotate_rotate]
  rw [view, moved]
  change (view l i).rotate 1 = _
  rw [shape, List.rotate_cons_succ, List.rotate_zero]

/-- The view from an index further on. -/
theorem view_slot {l xs ys : List α} {i : Nat} (shape : view l i = xs ++ ys) :
    view l (slot l.length i xs.length) = ys ++ xs := by
  rw [view, slot, List.rotate_mod, ← List.rotate_rotate]
  change (view l i).rotate _ = _
  rw [shape, List.rotate_append_length_eq]

/-! ### Passes over a ring -/

/-- A pass that reads at most `fuel` slots from `i` on. `step` either goes on with
a new state or ends the pass; `last` is the result when the fuel runs out. -/
def walk (l : List α) (x : α) (step : σ → α → Except ρ σ) (last : σ → ρ) :
    Nat → Nat → σ → ρ
  | 0, _, s => last s
  | fuel + 1, i, s =>
    match step s (l.getD i x) with
    | .error r => r
    | .ok s => walk l x step last fuel (next l.length i) s

/-- The same pass over a plain list. -/
def scan (step : σ → α → Except ρ σ) (last : σ → ρ) : List α → σ → ρ
  | [], s => last s
  | x :: xs, s =>
    match step s x with
    | .error r => r
    | .ok s => scan step last xs s

/-- A pass that sees of each slot only what `f` makes of it. -/
theorem walk_map {β : Type} (f : α → β) (l : List α) (x : α) (step : σ → β → Except ρ σ)
    (last : σ → ρ) (fuel i : Nat) (s : σ) :
    walk (l.map f) (f x) step last fuel i s =
      walk l x (fun s y => step s (f y)) last fuel i s := by
  induction fuel generalizing i s with
  | zero => rfl
  | succ fuel ih =>
    have read : (l.map f).getD i (f x) = f (l.getD i x) := by
      rw [List.getD_eq_getElem?_getD, List.getD_eq_getElem?_getD, List.getElem?_map,
        Option.getD_map]
    rw [walk, walk, read, List.length_map]
    cases step s (f (l.getD i x)) with
    | error r => rfl
    | ok t => exact ih (next l.length i) t

theorem walk_eq_scan_take (l : List α) (x : α) (step : σ → α → Except ρ σ) (last : σ → ρ)
    (fuel i : Nat) (s : σ) (hi : i < l.length) (enough : fuel ≤ l.length) :
    walk l x step last fuel i s = scan step last ((view l i).take fuel) s := by
  induction fuel generalizing i s with
  | zero => rfl
  | succ fuel ih =>
    obtain ⟨y, ys, shape⟩ : ∃ y ys, view l i = y :: ys := by
      cases h : view l i with
      | nil =>
        have := length_view l i
        simp only [h, List.length_nil] at this
        omega
      | cons y ys => exact ⟨y, ys, rfl⟩
    have size : ys.length + 1 = l.length := by
      rw [← length_view l i, shape, List.length_cons]
    simp only [walk, shape, List.take_succ_cons, scan, getD_head y x hi shape]
    cases step s y with
    | error r => rfl
    | ok t =>
      simp only
      rw [ih (next l.length i) t (next_lt hi) (by omega), view_next hi shape,
        List.take_append_of_le_length (by omega)]

/-- A pass once round the ring is the pass over its view. -/
theorem walk_eq_scan (l : List α) (x : α) (step : σ → α → Except ρ σ) (last : σ → ρ)
    (i : Nat) (s : σ) (hi : i < l.length) :
    walk l x step last l.length i s = scan step last (view l i) s := by
  rw [walk_eq_scan_take l x step last l.length i s hi (le_refl _),
    List.take_of_length_le (by simp)]

end Ring
