import Mathlib.Data.Set.Image

/-!
# Ledgers

Programs that acquire, use and release resources. A resource may rest on others, its parents: it is
acquired while they are held, and they are not released before it. A list of operations is safe
from what is held if none is used or released that is not held, none is acquired twice, and parents
outlive what rests on them.
-/

namespace Ledger

inductive Op (R : Type) where
  | acquire (r : R)
  | use (r : R)
  | release (r : R)
deriving DecidableEq, Repr

variable {R S : Type} (parents : R → List R)

/-- What is held after an operation. -/
def Op.effect (held : Set R) : Op R → Set R
  | .acquire r => insert r held
  | .use _ => held
  | .release r => held \ {r}

/-- An operation that is right while `held` is held. -/
def Op.Ok (held : Set R) : Op R → Prop
  | .acquire r => r ∉ held ∧ ∀ s ∈ parents r, s ∈ held
  | .use r => r ∈ held
  | .release r => r ∈ held ∧ ∀ c ∈ held, r ∉ parents c

/-- What is held after the operations. -/
def after (held : Set R) : List (Op R) → Set R
  | [] => held
  | op :: ops => after (op.effect held) ops

/-- Each operation is right when its turn comes. -/
def Safe (held : Set R) : List (Op R) → Prop
  | [] => True
  | op :: ops => op.Ok parents held ∧ Safe (op.effect held) ops

/-- What is held has its parents held. -/
def Closed (held : Set R) : Prop := ∀ c ∈ held, ∀ r ∈ parents c, r ∈ held

variable {parents} {held : Set R} {ops more : List (Op R)}

@[simp] theorem after_nil : after held [] = held := rfl

@[simp] theorem after_cons (op : Op R) : after held (op :: ops) = after (op.effect held) ops := rfl

@[simp] theorem safe_nil : Safe parents held [] := trivial

@[simp] theorem safe_cons (op : Op R) :
    Safe parents held (op :: ops) ↔ op.Ok parents held ∧ Safe parents (op.effect held) ops := Iff.rfl

theorem after_append : after held (ops ++ more) = after (after held ops) more := by
  induction ops generalizing held with
  | nil => rfl
  | cons op ops ih => exact ih

theorem safe_append :
    Safe parents held (ops ++ more) ↔ Safe parents held ops ∧ Safe parents (after held ops) more := by
  induction ops generalizing held with
  | nil => simp
  | cons op ops ih => simp [ih, and_assoc]

/-- Safe operations one list after the other, for an induction over the lists. -/
theorem Safe.append (first : Safe parents held ops) {middle : Set R} (left : after held ops = middle)
    (then_ : Safe parents middle more) : Safe parents held (ops ++ more) :=
  safe_append.mpr ⟨first, by rwa [left]⟩

/-- Right operations keep what is held closed. -/
theorem Closed.after (closed : Closed parents held) (safe : Safe parents held ops) :
    Closed parents (after held ops) := by
  induction ops generalizing held with
  | nil => exact closed
  | cons op ops ih =>
    refine ih ?_ safe.2
    have ok := safe.1
    cases op with
    | acquire r =>
      intro c member s parent
      rcases member with rfl | old
      · exact .inr (ok.2 s parent)
      · exact .inr (closed c old s parent)
    | use r => exact closed
    | release r =>
      rintro c ⟨old, -⟩ s parent
      refine ⟨closed c old s parent, ?_⟩
      rintro rfl
      exact ok.2 c old parent

/-! ### A ledger inside another -/

/-- The operations of one ledger under the names of another. -/
def Op.map (f : R → S) : Op R → Op S
  | .acquire r => .acquire (f r)
  | .use r => .use (f r)
  | .release r => .release (f r)

/-- The ledger of `R` lies in that of `S`: its resources have there the parents that they had, and
some of `base`, and nothing else rests on them. -/
structure Embeds (parents : R → List R) (parents' : S → List S) (f : R → S) (base : Set S) : Prop where
  injective : Function.Injective f
  up : ∀ r, ∀ s ∈ parents' (f r), s ∈ base ∨ ∃ q ∈ parents r, f q = s
  within : ∀ r, ∀ q ∈ parents r, f q ∈ parents' (f r)
  down : ∀ r c, f r ∈ parents' c → ∃ q, f q = c ∧ r ∈ parents q
  apart : ∀ r, f r ∉ base

namespace Embeds

variable {parents' : S → List S} {f : R → S} {base whole : Set S}

/-- An operation on the inner ledger changes only what it stands for. -/
theorem effect (h : Embeds parents parents' f base) (op : Op R) (whole : Set S) :
    Set.preimage f ((op.map f).effect whole) = op.effect (Set.preimage f whole) ∧
      ∀ s, (∀ r, f r ≠ s) → (s ∈ (op.map f).effect whole ↔ s ∈ whole) := by
  cases op with
  | acquire r =>
    refine ⟨?_, fun s other => ?_⟩
    · ext q
      simp [Op.map, Op.effect, h.injective.eq_iff]
    · simp [Op.map, Op.effect, Ne.symm (other r)]
  | use r => exact ⟨rfl, fun s _ => Iff.rfl⟩
  | release r =>
    refine ⟨?_, fun s other => ?_⟩
    · ext q
      simp [Op.map, Op.effect, h.injective.eq_iff]
    · simp [Op.map, Op.effect, Ne.symm (other r)]

/-- It is right there when it is right by itself. -/
theorem ok_iff (h : Embeds parents parents' f base) (op : Op R) (under : base ⊆ whole) :
    (op.map f).Ok parents' whole ↔ op.Ok parents (Set.preimage f whole) := by
  cases op with
  | acquire r =>
    refine and_congr Iff.rfl ⟨fun all q own => all (f q) (h.within r q own), fun all s parent => ?_⟩
    rcases h.up r s parent with low | ⟨q, own, rfl⟩
    · exact under low
    · exact all q own
  | use r => exact Iff.rfl
  | release r =>
    refine and_congr Iff.rfl ⟨fun all q present own => all (f q) present (h.within q r own),
      fun all c present parent => ?_⟩
    obtain ⟨q, rfl, own⟩ := h.down r c parent
    exact all q present own

/-- What operations on the inner ledger leave. -/
theorem after_map (h : Embeds parents parents' f base) (ops : List (Op R)) (whole : Set S) :
    Set.preimage f (after whole (ops.map (Op.map f))) = after (Set.preimage f whole) ops ∧
      ∀ s, (∀ r, f r ≠ s) → (s ∈ after whole (ops.map (Op.map f)) ↔ s ∈ whole) := by
  induction ops generalizing whole with
  | nil => exact ⟨rfl, fun _ _ => Iff.rfl⟩
  | cons op ops ih =>
    obtain ⟨same, others⟩ := h.effect op whole
    obtain ⟨left, kept⟩ := ih ((op.map f).effect whole)
    rw [same] at left
    exact ⟨left, fun s other => (kept s other).trans (others s other)⟩

/-- Operations are safe within when they are safe by themselves. -/
theorem safe_iff (h : Embeds parents parents' f base) (ops : List (Op R)) (under : base ⊆ whole) :
    Safe parents' whole (ops.map (Op.map f)) ↔ Safe parents (Set.preimage f whole) ops := by
  induction ops generalizing whole with
  | nil => exact Iff.rfl
  | cons op ops ih =>
    obtain ⟨same, others⟩ := h.effect op whole
    have under' : base ⊆ (op.map f).effect whole := by
      intro s low
      exact (others s fun r eq => h.apart r (eq ▸ low)).mpr (under low)
    rw [List.map_cons, safe_cons, safe_cons, h.ok_iff op under, ih under', same]

end Embeds

/-! ### Ledgers side by side -/

/-- Ledgers of `R` that lie in that of `S` apart from each other. -/
structure Family {I : Type} (parents : R → List R) (parents' : S → List S) (f : I → R → S)
    (base : Set S) : Prop where
  embeds : ∀ i, Embeds parents parents' (f i) base
  distinct : ∀ i j r q, f i r = f j q → i = j

namespace Family

variable {I : Type} {parents' : S → List S} {f : I → R → S} {base whole : Set S}

/-- What stands in none of the ledgers is as before. -/
def Kept (f : I → R → S) (whole whole' : Set S) : Prop :=
  ∀ s, (∀ i r, f i r ≠ s) → (s ∈ whole' ↔ s ∈ whole)

theorem Kept.subset (h : Family parents parents' f base) {whole' : Set S} (kept : Kept f whole whole')
    (under : base ⊆ whole) : base ⊆ whole' := by
  intro s low
  exact (kept s fun i r eq => (h.embeds i).apart r (eq ▸ low)).mpr (under low)

/-- Operations on one of the ledgers leave the others. -/
theorem after_one [DecidableEq I] (h : Family parents parents' f base) (i : I) (ops : List (Op R)) :
    (∀ j, Set.preimage (f j) (after whole (ops.map (Op.map (f i)))) =
        if j = i then after (Set.preimage (f i) whole) ops else Set.preimage (f j) whole) ∧
      Kept f whole (after whole (ops.map (Op.map (f i)))) := by
  obtain ⟨own, others⟩ := (h.embeds i).after_map ops whole
  refine ⟨fun j => ?_, fun s other => others s fun r => other i r⟩
  split
  next same => rw [same, own]
  next apart =>
    ext q
    exact others (f j q) fun r eq => apart (h.distinct i j r q eq).symm

/-- Operations on one after the other are safe when they are safe in each. -/
theorem safe_flatMap [DecidableEq I] (h : Family parents parents' f base) {is : List I}
    (nodup : is.Nodup) (ops : I → List (Op R)) (under : base ⊆ whole) :
    Safe parents' whole (is.flatMap fun i => (ops i).map (Op.map (f i))) ↔
      ∀ i ∈ is, Safe parents (Set.preimage (f i) whole) (ops i) := by
  induction is generalizing whole with
  | nil => simp
  | cons i is ih =>
    obtain ⟨zones, kept⟩ := @after_one R S parents I parents' f base whole _ h i (ops i)
    obtain ⟨new, rest⟩ := List.nodup_cons.mp nodup
    rw [List.flatMap_cons, safe_append, (h.embeds i).safe_iff _ under,
      ih rest (Kept.subset h kept under), List.forall_mem_cons]
    refine and_congr Iff.rfl (forall₂_congr fun j member => ?_)
    rw [zones j, if_neg fun same : j = i => new (same ▸ member)]

theorem after_flatMap [DecidableEq I] (h : Family parents parents' f base) {is : List I}
    (nodup : is.Nodup) (ops : I → List (Op R)) :
    (∀ j, Set.preimage (f j) (after whole (is.flatMap fun i => (ops i).map (Op.map (f i)))) =
        if j ∈ is then after (Set.preimage (f j) whole) (ops j) else Set.preimage (f j) whole) ∧
      Kept f whole (after whole (is.flatMap fun i => (ops i).map (Op.map (f i)))) := by
  induction is generalizing whole with
  | nil => exact ⟨fun j => by simp, fun s _ => Iff.rfl⟩
  | cons i is ih =>
    obtain ⟨zones, kept⟩ := @after_one R S parents I parents' f base whole _ h i (ops i)
    obtain ⟨new, rest⟩ := List.nodup_cons.mp nodup
    obtain ⟨zones', kept'⟩ := @ih (after whole ((ops i).map (Op.map (f i)))) rest
    rw [List.flatMap_cons, after_append]
    refine ⟨fun j => ?_, fun s other => (kept' s other).trans (kept s other)⟩
    rw [zones' j, zones j]
    by_cases same : j = i
    · subst same
      simp [new]
    · simp [same]

end Family

end Ledger
