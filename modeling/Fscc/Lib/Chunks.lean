import Mathlib.Data.List.Basic

/-!
# Cutting a list to a size

`split n l` cuts `l` from the front into chunks of `n`; the last one takes what is left.
-/

namespace Chunks

variable {α : Type} {n : Nat} {l : List α}

def split (n : Nat) (l : List α) : List (List α) :=
  if l = [] ∨ n = 0 then [] else l.take n :: split n (l.drop n)
termination_by l.length
decreasing_by
  next more =>
    have pos := List.length_pos_iff.mpr (not_or.mp more).1
    have size := Nat.pos_of_ne_zero (not_or.mp more).2
    rw [List.length_drop]
    omega

@[simp] theorem split_nil (n : Nat) : split n ([] : List α) = [] := by
  unfold split
  simp

theorem split_cons (size : 0 < n) (more : l ≠ []) :
    split n l = l.take n :: split n (l.drop n) := by
  rw [split, if_neg (by simp [more, Nat.ne_of_gt size])]

theorem flatten_split (size : 0 < n) (l : List α) : (split n l).flatten = l := by
  fun_induction split n l with
  | case1 l stop => simp [stop.resolve_right (Nat.ne_of_gt size)]
  | case2 l more ih => rw [List.flatten_cons, ih, List.take_append_drop]

/-- No chunk is empty, and none is longer than `n`. -/
theorem length_mem_split (l : List α) : ∀ c ∈ split n l, 0 < c.length ∧ c.length ≤ n := by
  fun_induction split n l with
  | case1 l stop => simp
  | case2 l more ih =>
    intro c member
    rcases List.mem_cons.mp member with rfl | later
    · have pos := List.length_pos_iff.mpr (not_or.mp more).1
      have size := Nat.pos_of_ne_zero (not_or.mp more).2
      rw [List.length_take]
      omega
    · exact ih c later

/-- Every chunk that another follows is full. -/
theorem length_of_split_append {xs ys : List (List α)} (shape : split n l = xs ++ ys)
    (more : ys ≠ []) : ∀ c ∈ xs, c.length = n := by
  induction xs generalizing l with
  | nil => simp
  | cons x xs ih =>
    rw [split] at shape
    split at shape
    next stop => cases shape
    next =>
      obtain ⟨first, rest⟩ := List.cons.inj shape
      have left : l.drop n ≠ [] := by
        intro done
        rw [done, split_nil] at rest
        exact more (List.append_eq_nil_iff.mp rest.symm).2
      intro c member
      rcases List.mem_cons.mp member with rfl | later
      · have pos := List.length_pos_iff.mpr left
        rw [List.length_drop] at pos
        rw [← first, List.length_take]
        omega
      · exact ih rest c later

/-- As many chunks as it takes. -/
theorem length_split (size : 0 < n) (l : List α) : (split n l).length = (l.length + n - 1) / n := by
  fun_induction split n l with
  | case1 l stop =>
    rw [stop.resolve_right (Nat.ne_of_gt size), List.length_nil, List.length_nil,
      Nat.div_eq_of_lt (by omega)]
  | case2 l more ih =>
    have pos := List.length_pos_iff.mpr (not_or.mp more).1
    rw [List.length_cons, ih, List.length_drop]
    by_cases last : l.length ≤ n
    · rw [Nat.sub_eq_zero_of_le last, Nat.div_eq_of_lt (by omega),
        show l.length + n - 1 = l.length - 1 + n by omega, Nat.add_div_right _ size,
        Nat.div_eq_of_lt (by omega)]
    · rw [show l.length + n - 1 = l.length - n + n - 1 + n by omega, Nat.add_div_right _ size]

theorem length_split_le (size : 0 < n) (l : List α) {k : Nat} (enough : l.length ≤ k * n) :
    (split n l).length ≤ k := by
  rw [length_split size, ← Nat.lt_succ_iff, Nat.div_lt_iff_lt_mul size, Nat.succ_mul]
  omega

/-! ### A queue of chunks -/

/-- What a reader with room for `space` takes from the front of a queue of chunks, and what it
leaves: it may stop inside a chunk. -/
def read (space : Nat) : List (List α) → List α × List (List α)
  | [] => ([], [])
  | c :: cs =>
    if c.length ≤ space then (c ++ (read (space - c.length) cs).1, (read (space - c.length) cs).2)
    else (c.take space, c.drop space :: cs)

variable (space : Nat) (cs : List (List α))

/-- A reader takes the first of what is in the queue. -/
theorem fst_read : (read space cs).1 = cs.flatten.take space := by
  induction cs generalizing space with
  | nil => simp [read]
  | cons c cs ih =>
    rw [read, List.flatten_cons, List.take_append]
    split
    next fits => rw [ih, List.take_of_length_le fits]
    next short => rw [Nat.sub_eq_zero_of_le (by omega), List.take_zero, List.append_nil]

/-- A reader leaves the others. -/
theorem snd_read : (read space cs).2.flatten = cs.flatten.drop space := by
  induction cs generalizing space with
  | nil => simp [read]
  | cons c cs ih =>
    rw [read, List.flatten_cons, List.drop_append]
    split
    next fits => rw [ih, List.drop_of_length_le fits, List.nil_append]
    next short => rw [Nat.sub_eq_zero_of_le (by omega), List.drop_zero, List.flatten_cons]

theorem read_append : (read space cs).1 ++ (read space cs).2.flatten = cs.flatten := by
  rw [fst_read, snd_read, List.take_append_drop]

/-- A reader leaves no empty chunk where there was none. -/
theorem ne_nil_of_mem_read (full : ∀ c ∈ cs, c ≠ []) : ∀ c ∈ (read space cs).2, c ≠ [] := by
  induction cs generalizing space with
  | nil => simp [read]
  | cons c cs ih =>
    rw [read]
    split
    next => exact ih _ fun d member => full d (.tail _ member)
    next short =>
      intro d member
      rcases List.mem_cons.mp member with rfl | later
      · apply List.ne_nil_of_length_pos
        rw [List.length_drop]
        omega
      · exact full d (.tail _ later)

theorem length_read_le : (read space cs).1.length ≤ space := by
  rw [fst_read, List.length_take]
  exact Nat.min_le_left _ _

end Chunks
