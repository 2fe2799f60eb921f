import Mathlib

/-! # Transition systems and their finite runs

    A small library for programs modelled as labelled steps on a state. -/

namespace CallLesson

universe u v

/-- Initial states and a labelled step relation. -/
structure System (State : Type u) (Label : Type v) where
  /-- The states a run may start in. -/
  init : State → Prop
  /-- `step s l s'`: the label `l` takes `s` to `s'`. -/
  step : State → Label → State → Prop

namespace System

variable {State : Type u} {Label : Type v}

/-! ## Runs -/

/-- The finite runs between two states, one label per step. -/
inductive Steps (sys : System State Label) : State → List Label → State → Prop where
  | nil (s : State) : Steps sys s [] s
  | cons {s s' s'' : State} (l : Label) (ls : List Label) :
      sys.step s l s' → Steps sys s' ls s'' → Steps sys s (l :: ls) s''

/-- The states some run from an initial state ends in. -/
def Reachable (sys : System State Label) (s : State) : Prop :=
  ∃ s0 ls, sys.init s0 ∧ sys.Steps s0 ls s

variable {sys : System State Label} {ls : List Label} {s' s : State}

theorem Steps.append {s'' : State} {ls' : List Label} (h : sys.Steps s ls s')
    (h' : sys.Steps s' ls' s'') : sys.Steps s (ls ++ ls') s'' := by
  induction h with
  | nil s => exact h'
  | cons l ls hstep _ ih => exact Steps.cons l _ hstep (ih h')

theorem Reachable.step {l : Label} (h : sys.Reachable s) (hstep : sys.step s l s') :
    sys.Reachable s' := by
  obtain ⟨s0, ls, hinit, hrun⟩ := h
  exact ⟨s0, ls ++ [l], hinit, hrun.append (Steps.cons l [] hstep (Steps.nil s'))⟩

/-! ## Invariants -/

theorem Steps.preserves (inv : State → Prop) (hstep : ∀ s l s', inv s → sys.step s l s' → inv s')
    (hrun : sys.Steps s ls s') (h : inv s) : inv s' := by
  induction hrun with
  | nil s => exact h
  | cons l ls hs _ ih => exact ih (hstep _ l _ h hs)

theorem Steps.preserves_history (inv : List Label → State → Prop)
    (hstep : ∀ ls s l s', inv ls s → sys.step s l s' → inv (ls ++ [l]) s')
    (hrun : sys.Steps s ls s') : ∀ before, inv before s → inv (before ++ ls) s' := by
  induction hrun with
  | nil s =>
    intro before h
    rwa [List.append_nil]
  | cons l ls hs _ ih =>
    intro before h
    have := ih (before ++ [l]) (hstep before _ l _ h hs)
    rwa [List.append_assoc, List.singleton_append] at this

theorem invariant (inv : State → Prop) (hinit : ∀ s, sys.init s → inv s)
    (hstep : ∀ s l s', inv s → sys.step s l s' → inv s') : ∀ s, sys.Reachable s → inv s := by
  intro s ⟨s0, ls, h0, hrun⟩
  exact hrun.preserves inv hstep (hinit s0 h0)

/-! ## Gated runs -/

/-- The runs "whose steps all meet the condition" on the state before them. -/
def restrict (sys : System State Label) (cond : State → Label → Prop) : System State Label where
  init := sys.init
  step := fun s l s' => cond s l ∧ sys.step s l s'

variable {cond : State → Label → Prop}

theorem Steps.of_restrict (h : (sys.restrict cond).Steps s ls s') : sys.Steps s ls s' := by
  induction h with
  | nil s => exact Steps.nil s
  | cons l ls hs _ ih => exact Steps.cons l ls hs.2 ih

/-! ## Executable systems -/

/-- A system with one initial state whose labels are partial functions. -/
def ofNext (start : State) (next : State → Label → Option State) : System State Label where
  init := fun s => s = start
  step := fun s l s' => next s l = some s'

def run (next : State → Label → Option State) : State → List Label → Option State
  | s, [] => some s
  | s, l :: ls => (next s l).bind fun s' => run next s' ls

variable {next : State → Label → Option State}

theorem steps_of_run {start : State} : ∀ {ls : List Label} {s s' : State}, run next s ls = some s' →
      (ofNext start next).Steps s ls s' := by
  intro ls
  induction ls with
  | nil =>
    intro s s' h
    cases h
    exact Steps.nil s
  | cons l ls ih =>
    intro s s' h
    obtain ⟨s1, hstep, hrest⟩ := Option.bind_eq_some_iff.mp h
    exact Steps.cons l ls hstep (ih hrest)

def gate (cond : State → Label → Prop) [∀ s l, Decidable (cond s l)]
    (next : State → Label → Option State) (s : State) (l : Label) : Option State :=
  if cond s l then next s l else none

theorem restrict_steps_of_run {start : State} [∀ s l, Decidable (cond s l)] :
    ∀ {ls : List Label} {s s' : State}, run (gate cond next) s ls = some s' →
      ((ofNext start next).restrict cond).Steps s ls s' := by
  intro ls
  induction ls with
  | nil =>
    intro s s' h
    cases h
    exact Steps.nil s
  | cons l ls ih =>
    intro s s' h
    obtain ⟨s1, hstep, hrest⟩ := Option.bind_eq_some_iff.mp h
    unfold gate at hstep
    split at hstep
    · next hcond => exact Steps.cons l ls ⟨hcond, hstep⟩ (ih hrest)
    · cases hstep

end System

end CallLesson
