import Fscc.Lib.Machine

/-!
Machines whose events belong to parties: when the runs of one party do not show whether another was
there. A relation between the run with all events and the run with the party's own is kept step by step.
-/

namespace Machine

variable {S E : Type}

/-- `R s s'`: what has happened in `s` and not in `s'` does not show. An event of others, if it meets
`ok`, goes unseen; an event of one's own can happen in `s'` as it does in `s`. -/
structure Unwinding (m : Machine S E) (own : E → Bool) (ok : S → E → Prop) (R : S → S → Prop) :
    Prop where
  unseen : ∀ {s s' t e}, R s s' → own e = false → ok s e → m.step s e = some t → R t s'
  follows : ∀ {s s' t e}, R s s' → own e = true → ok s e → m.step s e = some t →
    ∃ t', m.step s' e = some t' ∧ R t t'

namespace Unwinding

variable {m : Machine S E} {own : E → Bool} {ok : S → E → Prop} {R : S → S → Prop}

/-- A run is followed by its own events alone. -/
theorem replay (h : m.Unwinding own ok R) {s s' t : S} {es : List E} (related : R s s')
    (met : m.Met ok s es) (replayed : m.replay s es = some t) :
    ∃ t', m.replay s' (es.filter own) = some t' ∧ R t t' := by
  induction es generalizing s s' with
  | nil =>
    cases replayed
    exact ⟨s', rfl, related⟩
  | cons e es ih =>
    obtain ⟨u, stepped, rest⟩ := Option.bind_eq_some_iff.mp replayed
    obtain ⟨here, later⟩ := met
    cases mine : own e with
    | false =>
      rw [List.filter_cons_of_neg (by simp [mine])]
      exact ih (h.unseen related mine here stepped) (later u stepped) rest
    | true =>
      obtain ⟨u', stepped', related'⟩ := h.follows related mine here stepped
      obtain ⟨t', replayed', final⟩ := ih related' (later u stepped) rest
      rw [List.filter_cons_of_pos mine]
      exact ⟨t', Option.bind_eq_some_iff.mpr ⟨u', stepped', replayed'⟩, final⟩

end Unwinding

end Machine
