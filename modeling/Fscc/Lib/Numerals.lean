import Mathlib.Data.Nat.ModEq

/-!
# Numbers as text

The digits of a number, most significant first and filled up with zeros, and the number that the
digits at the start of a text stand for, in a word of some width.
-/

namespace Numerals

/-- The value of a digit of bases up to 16. -/
def digitVal (c : Char) : Option Nat :=
  if '0'.toNat ≤ c.toNat ∧ c.toNat ≤ '9'.toNat then some (c.toNat - '0'.toNat)
  else if 'a'.toNat ≤ c.toNat ∧ c.toNat ≤ 'f'.toNat then some (c.toNat - 'a'.toNat + 10)
  else if 'A'.toNat ≤ c.toNat ∧ c.toNat ≤ 'F'.toNat then some (c.toNat - 'A'.toNat + 10)
  else none

/-- Whether a text goes on with a digit. -/
def isDigit (base : Nat) (c : Char) : Bool := (digitVal c).any (· < base)

/-- What the digits at the start of a text make of `acc`, in `width` bits. -/
def parseDigits (width base : Nat) : List Char → Nat → Nat
  | [], acc => acc
  | c :: text, acc =>
    if isDigit base c then parseDigits width base text ((acc * base + (digitVal c).getD 0) % 2 ^ width)
    else acc

/-- The text after a prefix `0x`. -/
def dropPrefix : List Char → List Char
  | '0' :: c :: text => if c = 'x' ∨ c = 'X' then text else '0' :: c :: text
  | text => text

/-- The number at the start of a text, which in base 16 may have the prefix `0x`. -/
def strtoul (width base : Nat) (text : List Char) : Nat :=
  parseDigits width base (if base = 16 then dropPrefix text else text) 0

/-- A number with at least `least` digits. -/
def padded (base least n : Nat) : List Char :=
  List.replicate (least - (Nat.toDigits base n).length) '0' ++ Nat.toDigits base n

variable {width base : Nat}

theorem digitVal_digitChar {d : Nat} (lt : d < 16) : digitVal d.digitChar = some d := by
  have all : ∀ d : Fin 16, digitVal d.val.digitChar = some d.val := by decide
  exact all ⟨d, lt⟩

theorem digitChar_ne_x {d : Nat} (lt : d < 16) : d.digitChar ≠ 'x' ∧ d.digitChar ≠ 'X' := by
  have all : ∀ d : Fin 16, d.val.digitChar ≠ 'x' ∧ d.val.digitChar ≠ 'X' := by decide
  exact all ⟨d, lt⟩

/-- Reading on after a digit. -/
theorem parseDigits_digitChar {d : Nat} (lt : d < base) (most : base ≤ 16) (text : List Char) (acc : Nat) :
    parseDigits width base (d.digitChar :: text) acc =
      parseDigits width base text ((acc * base + d) % 2 ^ width) := by
  have value := digitVal_digitChar (Nat.lt_of_lt_of_le lt most)
  rw [parseDigits, if_pos (by simp [isDigit, value, lt]), value, Option.getD_some]

/-- Reading on after the digits of a number. -/
theorem parseDigits_toDigits (two : 1 < base) (most : base ≤ 16) (n : Nat) (text : List Char) (acc : Nat) :
    parseDigits width base (Nat.toDigits base n ++ text) acc =
      parseDigits width base text ((acc * base ^ (Nat.toDigits base n).length + n) % 2 ^ width) := by
  induction n using Nat.strongRecOn generalizing text with
  | ind n ih =>
    by_cases lt : n < base
    · rw [Nat.toDigits_of_lt_base lt, List.singleton_append, parseDigits_digitChar lt most,
        List.length_singleton, Nat.pow_one]
    · have large : base ≤ n := Nat.le_of_not_lt lt
      have digit : n % base < base := Nat.mod_lt n (by omega)
      have less : n / base < n := Nat.div_lt_self (by omega) two
      rw [Nat.toDigits_of_base_le two large, List.append_assoc, ih _ less, List.singleton_append,
        parseDigits_digitChar digit most, List.length_append, List.length_singleton, Nat.pow_succ]
      congr 1
      -- Modulo the width, the last digit comes after the others.
      have split : n = n / base * base + n % base := (Nat.div_add_mod' n base).symm
      generalize (Nat.toDigits base (n / base)).length = k
      calc ((acc * base ^ k + n / base) % 2 ^ width * base + n % base) % 2 ^ width
          = ((acc * base ^ k + n / base) * base + n % base) % 2 ^ width :=
            Nat.ModEq.add_right _ ((Nat.mod_modEq _ _).mul_right _)
        _ = (acc * (base ^ k * base) + n) % 2 ^ width := by
            rw [Nat.add_mul, Nat.mul_assoc, Nat.add_assoc, ← split]

theorem parseDigits_zeros (two : 1 < base) (most : base ≤ 16) (k : Nat) (text : List Char) :
    parseDigits width base (List.replicate k '0' ++ text) 0 = parseDigits width base text 0 := by
  induction k with
  | zero => rfl
  | succ k ih =>
    have zero : '0' = Nat.digitChar 0 := rfl
    rw [List.replicate_succ, List.cons_append, zero, parseDigits_digitChar (by omega) most, ← zero]
    simpa using ih

/-- The text ends a number. -/
def Ends (base : Nat) (text : List Char) : Prop :=
  ∀ c ∈ text.head?, isDigit base c = false ∧ c ≠ 'x' ∧ c ≠ 'X'

theorem parseDigits_ends {text : List Char} (ends : Ends base text) (acc : Nat) :
    parseDigits width base text acc = acc := by
  cases text with
  | nil => rfl
  | cons c text =>
    have stop := (ends c rfl).1
    rw [parseDigits, if_neg (by simp [stop])]

theorem mem_padded {least n : Nat} {c : Char} (two : 1 < base) (member : c ∈ padded base least n) :
    ∃ d < base, c = Nat.digitChar d := by
  rcases List.mem_append.mp member with zero | digit
  · exact ⟨0, by omega, (List.mem_replicate.mp zero).2⟩
  · clear member
    induction n using Nat.strongRecOn with
    | ind n ih =>
      by_cases lt : n < base
      · rw [Nat.toDigits_of_lt_base lt, List.mem_singleton] at digit
        exact ⟨n, lt, digit⟩
      · rw [Nat.toDigits_of_base_le two (Nat.le_of_not_lt lt)] at digit
        rcases List.mem_append.mp digit with before | last
        · exact ih _ (Nat.div_lt_self (by omega) two) before
        · exact ⟨n % base, Nat.mod_lt n (by omega), List.mem_singleton.mp last⟩

/-- A number is not taken for a prefix. -/
theorem dropPrefix_padded {least n : Nat} {text : List Char} (two : 1 < base) (most : base ≤ 16)
    (ends : Ends base text) :
    dropPrefix (padded base least n ++ text) = padded base least n ++ text := by
  have digits : padded base least n ≠ [] := by simp [padded]
  have second : ∀ c ∈ (padded base least n ++ text).tail.head?, c ≠ 'x' ∧ c ≠ 'X' := by
    intro c here
    obtain ⟨a, more, shape⟩ := List.exists_cons_of_ne_nil digits
    rw [shape, List.cons_append, List.tail_cons] at here
    cases more with
    | nil => exact (ends c (by simpa using here)).2
    | cons b more =>
      obtain rfl : b = c := by simpa using here
      obtain ⟨d, lt, rfl⟩ := mem_padded two (show b ∈ padded base least n by simp [shape])
      exact digitChar_ne_x (by omega)
  generalize padded base least n ++ text = whole at second ⊢
  unfold dropPrefix
  split
  next c rest =>
    have other := second c (by simp)
    rw [if_neg (by simp [other])]
  next => rfl

/-- What has been written is read. -/
theorem strtoul_padded {least n : Nat} {text : List Char} (two : 1 < base) (most : base ≤ 16)
    (ends : Ends base text) (fits : n < 2 ^ width) :
    strtoul width base (padded base least n ++ text) = n := by
  rw [strtoul, dropPrefix_padded two most ends, ite_self, padded, List.append_assoc,
    parseDigits_zeros two most, parseDigits_toDigits two most, parseDigits_ends ends, Nat.zero_mul,
    Nat.zero_add, Nat.mod_eq_of_lt fits]

end Numerals
