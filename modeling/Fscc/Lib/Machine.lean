import Mathlib.Data.List.Forall2
import Mathlib.Order.WellFounded

/-! Machines with a guarded step function, and induction over their runs; the results of calls. -/

/-- A machine. `step s e` is `none` when the event `e` cannot happen in `s`. -/
structure Machine (S E : Type) where
  init : S → Prop
  step : S → E → Option S

namespace Machine

variable {S E : Type} (m : Machine S E)

/-- States reached by runs each of whose steps meets `ok`, a condition on the
state before the step and on the event. -/
inductive ReachedUnder (ok : S → E → Prop) : S → Prop
  | init {s : S} : m.init s → ReachedUnder ok s
  | step {s t : S} {e : E} :
      ReachedUnder ok s → ok s e → m.step s e = some t → ReachedUnder ok t

/-- States reached by any run. -/
def Reached : S → Prop := m.ReachedUnder fun _ _ => True

/-- The state after the events `es`, when each of them can happen in turn. -/
def replay (s : S) : List E → Option S
  | [] => some s
  | e :: es => (m.step s e).bind fun t => replay t es

/-- Each of the events `es` meets `ok` when its turn comes. -/
def Met (ok : S → E → Prop) (s : S) : List E → Prop
  | [] => True
  | e :: es => ok s e ∧ ∀ t, m.step s e = some t → Met ok t es

variable {m}

/-- What holds initially and is kept by every step that meets `ok` holds along
every run made of such steps. -/
theorem ReachedUnder.invariant {ok : S → E → Prop} {P : S → Prop}
    (initial : ∀ s, m.init s → P s)
    (kept : ∀ s t e, P s → ok s e → m.step s e = some t → P t)
    {s : S} (reached : m.ReachedUnder ok s) : P s := by
  induction reached with
  | init h => exact initial _ h
  | step _ met stepped ih => exact kept _ _ _ ih met stepped

theorem Reached.invariant {P : S → Prop} (initial : ∀ s, m.init s → P s)
    (kept : ∀ s t e, P s → m.step s e = some t → P t)
    {s : S} (reached : m.Reached s) : P s :=
  ReachedUnder.invariant initial (fun s t e h _ stepped => kept s t e h stepped) reached

/-- Replaying events that meet `ok` never leaves the states reached under it. -/
theorem ReachedUnder.replay {ok : S → E → Prop} {s t : S} (reached : m.ReachedUnder ok s)
    (es : List E) (met : m.Met ok s es) (replayed : m.replay s es = some t) :
    m.ReachedUnder ok t := by
  induction es generalizing s with
  | nil =>
    cases replayed
    exact reached
  | cons e es ih =>
    obtain ⟨u, stepped, rest⟩ := Option.bind_eq_some_iff.mp replayed
    exact ih (.step reached met.1 stepped) (met.2 u stepped) rest

theorem replay_append (s : S) (es es' : List E) :
    m.replay s (es ++ es') = (m.replay s es).bind fun t => m.replay t es' := by
  induction es generalizing s with
  | nil => rfl
  | cons e es ih => simp [replay, ih, Option.bind_assoc]

/-- A condition that can be decided can be decided along a run. -/
instance decidableMet (ok : S → E → Prop) [∀ s e, Decidable (ok s e)] (s : S) :
    (es : List E) → Decidable (m.Met ok s es)
  | [] => .isTrue trivial
  | e :: es =>
    match stepped : m.step s e with
    | none => decidable_of_iff (ok s e) (by simp [Met, stepped])
    | some t =>
      have := decidableMet ok t es
      decidable_of_iff (ok s e ∧ m.Met ok t es) (by simp [Met, stepped])

theorem met_of_mem {ok : S → E → Prop} {es : List E} (always : ∀ e ∈ es, ∀ s, ok s e) (s : S) :
    m.Met ok s es := by
  induction es generalizing s with
  | nil => trivial
  | cons e es ih =>
    exact ⟨always e (.head _) s, fun t _ => ih (fun e member => always e (.tail _ member)) t⟩

theorem Reached.replay {s t : S} (reached : m.Reached s) (es : List E)
    (replayed : m.replay s es = some t) : m.Reached t :=
  ReachedUnder.replay reached es (met_of_mem (fun _ _ _ => trivial) s) replayed

/-! ### Runs without end -/

variable (m) in
/-- From `s` there is a run without end of events that meet `own`. -/
def Endless (own : E → Prop) (s : S) : Prop :=
  ∃ run : Nat → S, run 0 = s ∧ ∀ n, ∃ e, own e ∧ m.step (run n) e = some (run (n + 1))

/-- A measure that all these events lower rules it out. -/
theorem not_endless {α : Type} [LT α] [WellFoundedLT α] (measure : S → α) {own : E → Prop}
    {P : S → Prop}
    (lowered : ∀ s t e, P s → own e → m.step s e = some t → P t ∧ measure t < measure s)
    {s : S} (h : P s) : ¬m.Endless own s := by
  rintro ⟨run, start, steps⟩
  have kept (n : Nat) : P (run n) := by
    induction n with
    | zero => rwa [start]
    | succ n ih =>
      obtain ⟨e, own, stepped⟩ := steps n
      exact (lowered _ _ e ih own stepped).1
  obtain ⟨n, rises⟩ := WellFounded.not_rel_apply_succ (r := (· < ·)) fun n => measure (run n)
  obtain ⟨e, own, stepped⟩ := steps n
  exact rises (lowered _ _ e (kept n) own stepped).2

/-! ### Calls and their results -/

/-- The results of the calls `es`, made one after the other from the state `s`. -/
def results {O : Type} (call : E → S → O × S) : S → List E → List O
  | _, [] => []
  | s, e :: es => (call e s).1 :: results call (call e s).2 es

/-- States that are related, if every call has one result in both and leaves them related, cannot
be told apart by any calls. -/
theorem results_eq {T O : Type} {call : E → S → O × S} {call' : E → T → O × T} {R : S → T → Prop}
    (kept : ∀ e s t, R s t → (call e s).1 = (call' e t).1 ∧ R (call e s).2 (call' e t).2)
    {s : S} {t : T} (related : R s t) (es : List E) :
    results call s es = results call' t es := by
  induction es generalizing s t with
  | nil => rfl
  | cons e es ih =>
    obtain ⟨same, next⟩ := kept e s t related
    rw [results, results, same, ih next]

/-- Where every call has related results and leaves the states related, so do all calls: the machine
of `call` refines that of `call'`. -/
theorem results_refine {T O O' : Type} {call : E → S → O × S} {call' : E → T → O' × T}
    {R : S → T → Prop} {A : O → O' → Prop}
    (kept : ∀ e s t, R s t → A (call e s).1 (call' e t).1 ∧ R (call e s).2 (call' e t).2)
    {s : S} {t : T} (related : R s t) (es : List E) :
    List.Forall₂ A (results call s es) (results call' t es) := by
  induction es generalizing s t with
  | nil => exact .nil
  | cons e es ih =>
    obtain ⟨agree, next⟩ := kept e s t related
    exact .cons agree (ih next)

end Machine
