import Mathlib

/-! # Programs over a state that can fault

    Imperative code is modelled in `EStateM Fault σ`: it updates a state and
    may stop in a fault, which keeps the state it stopped in. This module
    has the weakest preconditions of such programs, one rule per construct,
    and the guarantees that code calling unknown code is specified with. -/

namespace CallLesson

/-- The ways in which a modelled program can stop without returning. -/
inductive Fault where
  /-- A failed `assert`. -/
  | assertFailed
  /-- An access outside of the object it is made on. -/
  | badAccess
  /-- A call through a null pointer. -/
  | nullPointer
  /-- A call of a function object that holds no function. -/
  | emptyFunction
  /-- Calls nested deeper than the stack. -/
  | stackOverflow
  deriving DecidableEq

namespace Exec

variable {ε σ α β ι : Type}

theorem except_bind_ok {x : Except ε α} {f : α → Except ε β} {b : β} (h : (x >>= f) = .ok b) :
    ∃ a, x = .ok a ∧ f a = .ok b := by
  cases x with
  | error e => cases h
  | ok a => exact ⟨a, rfl, h⟩

def whenever (c : Prop) [Decidable c] (x : EStateM ε σ Unit) : EStateM ε σ Unit :=
  if c then x else pure ()

/-! ## Weakest preconditions -/

/-- From `s`, the program returns into `Q` or faults into `E`. -/
@[irreducible] def wp (x : EStateM ε σ α) (Q : α → σ → Prop) (E : σ → Prop) (s : σ) : Prop :=
  match x s with
  | .ok a s' => Q a s'
  | .error _ s' => E s'

@[simp] theorem wp_pure (a : α) (Q : α → σ → Prop) (E : σ → Prop) (s : σ) :
    wp (pure a : EStateM ε σ α) Q E s ↔ Q a s := by
  unfold wp
  rfl

@[simp] theorem wp_bind (x : EStateM ε σ α) (f : α → EStateM ε σ β) (Q : β → σ → Prop)
    (E : σ → Prop) (s : σ) :
    wp (x >>= f) Q E s ↔ wp x (fun a s' => wp (f a) Q E s') E s := by
  have hbind : (x >>= f) s = match x s with
      | .ok a s' => f a s'
      | .error e s' => .error e s' := rfl
  unfold wp
  rw [hbind]
  cases x s <;> rfl

@[simp] theorem wp_get (Q : σ → σ → Prop) (E : σ → Prop) (s : σ) :
    wp (get : EStateM ε σ σ) Q E s ↔ Q s s := by
  unfold wp
  rfl

@[simp] theorem wp_modify (f : σ → σ) (Q : PUnit → σ → Prop) (E : σ → Prop) (s : σ) :
    wp (modify f : EStateM ε σ PUnit) Q E s ↔ Q ⟨⟩ (f s) := by
  unfold wp
  rfl

@[simp] theorem wp_modifyGet (f : σ → α × σ) (Q : α → σ → Prop) (E : σ → Prop) (s : σ) :
    wp (modifyGet f : EStateM ε σ α) Q E s ↔ Q (f s).1 (f s).2 := by
  unfold wp
  rfl

@[simp] theorem wp_set (s' : σ) (Q : PUnit → σ → Prop) (E : σ → Prop) (s : σ) :
    wp (set s' : EStateM ε σ PUnit) Q E s ↔ Q ⟨⟩ s' := by
  unfold wp
  rfl

@[simp] theorem wp_throw (e : ε) (Q : α → σ → Prop) (E : σ → Prop) (s : σ) :
    wp (throw e : EStateM ε σ α) Q E s ↔ E s := by
  unfold wp
  rfl

theorem wp_ite (c : Prop) [Decidable c] (x y : EStateM ε σ α) (Q : α → σ → Prop)
    (E : σ → Prop) (s : σ) :
    wp (if c then x else y) Q E s ↔ (c → wp x Q E s) ∧ (¬ c → wp y Q E s) := by
  by_cases hc : c <;> simp [hc]

theorem wp_whenever (c : Prop) [Decidable c] (x : EStateM ε σ Unit) (Q : Unit → σ → Prop)
    (E : σ → Prop) (s : σ) :
    wp (whenever c x) Q E s ↔ (c → wp x Q E s) ∧ (¬ c → Q () s) := by
  rw [whenever, wp_ite, wp_pure]

theorem wp_trivial (x : EStateM ε σ α) (s : σ) : wp x (fun _ _ => True) (fun _ => True) s := by
  unfold wp
  split <;> trivial

variable {x : EStateM ε σ α} {E : σ → Prop} {Q : α → σ → Prop} {s : σ} {step : ι → EStateM ε σ Unit}

theorem wp_mono {Q' : α → σ → Prop} {E' : σ → Prop} (h : wp x Q E s) (hQ : ∀ a s', Q a s' → Q' a s')
    (hE : ∀ s', E s' → E' s') : wp x Q' E' s := by
  unfold wp at h ⊢
  cases hx : x s with
  | ok a s' => rw [hx] at h; exact hQ a s' h
  | error e s' => rw [hx] at h; exact hE s' h

theorem wp_imp {Q' : α → σ → Prop} (h : wp x Q E s) (hQ : ∀ a s', Q a s' → Q' a s') : wp x Q' E s :=
  wp_mono h hQ fun _ hE => hE

theorem wp_and {Q' : α → σ → Prop} {E' : σ → Prop} (h : wp x Q E s) (h' : wp x Q' E' s) :
    wp x (fun a s' => Q a s' ∧ Q' a s') (fun s' => E s' ∧ E' s') s := by
  unfold wp at h h' ⊢
  cases hx : x s with
  | ok a s' => rw [hx] at h h'; exact ⟨h, h'⟩
  | error e s' => rw [hx] at h h'; exact ⟨h, h'⟩

theorem wp_ok {s' : σ} {a : α} (h : wp x Q E s) (hx : x s = .ok a s') : Q a s' := by
  unfold wp at h
  rw [hx] at h
  exact h

theorem exists_of_wp (h : wp x Q (fun _ => False) s) : ∃ a s', x s = .ok a s' ∧ Q a s' := by
  unfold wp at h
  cases hx : x s with
  | ok a s' => rw [hx] at h; exact ⟨a, s', rfl, h⟩
  | error e s' => rw [hx] at h; exact h.elim

theorem eq_ok_of_wp {s' : σ} {a : α} (h : wp x (fun a' s'' => a' = a ∧ s'' = s') (fun _ => False) s) :
    x s = .ok a s' := by
  obtain ⟨_, _, hx, rfl, rfl⟩ := exists_of_wp h
  exact hx

/-! ## Guarantees -/

/-- What holds between the states a program starts and stops in. -/
structure Guarantee (σ : Type) where
  ret : σ → σ → Prop
  fault : σ → σ → Prop
  refl : ∀ s, ret s s
  trans : ∀ {s s' s''}, ret s s' → ret s' s'' → ret s s''
  fault_refl : ∀ s, fault s s
  fault_trans : ∀ {s s' s''}, ret s s' → fault s' s'' → fault s s''

def Guarantee.ofPreorder (R : σ → σ → Prop) (refl : ∀ s, R s s)
    (trans : ∀ {s s' s''}, R s s' → R s' s'' → R s s'') : Guarantee σ where
  ret := R
  fault := R
  refl := refl
  trans := trans
  fault_refl := refl
  fault_trans := trans

/-- The program keeps the guarantee from every state. -/
def Respects (G : Guarantee σ) (x : EStateM ε σ α) : Prop :=
  ∀ s, wp x (fun _ s' => G.ret s s') (fun s' => G.fault s s') s

section respects

variable {G : Guarantee σ}

theorem respects_pure (a : α) : Respects G (pure a : EStateM ε σ α) :=
  fun s => (wp_pure a _ _ s).mpr (G.refl s)

theorem respects_get : Respects G (get : EStateM ε σ σ) :=
  fun s => (wp_get _ _ s).mpr (G.refl s)

theorem respects_throw (e : ε) : Respects G (throw e : EStateM ε σ α) :=
  fun s => (wp_throw e _ _ s).mpr (G.fault_refl s)

theorem respects_modify {f : σ → σ} (h : ∀ s, G.ret s (f s)) :
    Respects G (modify f : EStateM ε σ PUnit) :=
  fun s => (wp_modify f _ _ s).mpr (h s)

theorem Respects.weaken {G' : Guarantee σ} (hx : Respects G x)
    (hret : ∀ s s', G.ret s s' → G'.ret s s') (hfault : ∀ s s', G.fault s s' → G'.fault s s') :
    Respects G' x :=
  fun s => wp_mono (hx s) (fun _ s' h => hret s s' h) (fun s' h => hfault s s' h)

theorem Respects.after (hx : Respects G x) {s' : σ} (h : G.ret s s') :
    wp x (fun _ s'' => G.ret s s'') (fun s'' => G.fault s s'') s' :=
  wp_mono (hx s') (fun _ _ h' => G.trans h h') (fun _ h' => G.fault_trans h h')

theorem respects_bind {f : α → EStateM ε σ β} (hx : Respects G x) (hf : ∀ a, Respects G (f a)) :
    Respects G (x >>= f) := by
  intro s
  rw [wp_bind]
  exact wp_imp (hx s) (fun a _ h => (hf a).after h)

theorem respects_get_bind {f : σ → EStateM ε σ α}
    (hf : ∀ s, wp (f s) (fun _ s' => G.ret s s') (fun s' => G.fault s s') s) :
    Respects G (get >>= f) := by
  intro s
  rw [wp_bind, wp_get]
  exact hf s

theorem respects_ite (c : Prop) [Decidable c] {y : EStateM ε σ α} (hx : Respects G x)
    (hy : Respects G y) : Respects G (if c then x else y) := by
  by_cases hc : c
  · simpa [hc] using hx
  · simpa [hc] using hy

theorem respects_whenever (c : Prop) [Decidable c] {x : EStateM ε σ Unit}
    (hx : Respects G x) : Respects G (whenever c x) :=
  respects_ite c hx (respects_pure ())

end respects

/-! ## Runs of steps -/

/-- One step per input; a fault ends the run. -/
def runAll (step : ι → EStateM ε σ Unit) : List ι → EStateM ε σ Unit
  | [] => pure ()
  | i :: is => do step i; runAll step is

theorem respects_runAll {G : Guarantee σ} :
    ∀ (is : List ι), (∀ i ∈ is, Respects G (step i)) → Respects G (runAll step is) := by
  intro is
  induction is with
  | nil => intro _; exact respects_pure ()
  | cons i is ih =>
    intro h
    rw [runAll]
    exact respects_bind (h i List.mem_cons_self)
      fun _ => ih fun j hj => h j (List.mem_cons_of_mem i hj)

variable {I P : σ → Prop}

theorem wp_runAll (hstep : ∀ i s, I s → wp (step i) (fun _ s' => I s') E s) :
    ∀ (is : List ι) (s : σ), I s → wp (runAll step is) (fun _ s' => I s') E s := by
  intro is
  induction is with
  | nil =>
    intro s hs
    rw [runAll, wp_pure]
    exact hs
  | cons i is ih =>
    intro s hs
    rw [runAll, wp_bind]
    exact wp_imp (hstep i s hs) (fun _ s' hs' => ih s' hs')

theorem wp_mapM {step : ι → EStateM ε σ β} {I : List ι → List β → σ → Prop} {is : List ι}
    (hinit : I [] [] s) (hstep : ∀ done i rest bs s, is = done ++ i :: rest → I done bs s →
      wp (step i) (fun b s' => I (done ++ [i]) (bs ++ [b]) s') E s) :
    wp (is.mapM step) (fun bs s' => I is bs s') E s := by
  have hrest : ∀ rest done bs s, is = done ++ rest → I done bs s →
      wp (rest.mapM step) (fun bs' s' => I is (bs ++ bs') s') E s := by
    intro rest
    induction rest with
    | nil =>
      intro done bs s his hs
      simpa [his] using hs
    | cons i rest ih =>
      intro done bs s his hs
      rw [List.mapM_cons, wp_bind]
      refine wp_imp (hstep done i rest bs s his hs) (fun b s' hs' => ?_)
      rw [wp_bind]
      refine wp_imp (ih (done ++ [i]) (bs ++ [b]) s' (by simp [his]) hs') (fun bs' s'' h => ?_)
      simpa using h
  simpa using hrest is [] [] s rfl hinit

/-- The state a program stops in, returned or faulted. -/
def stateAfter (x : EStateM ε σ α) (s : σ) : σ :=
  match x s with
  | .ok _ s' => s'
  | .error _ s' => s'

theorem stateAfter_of_wp (h : wp x (fun _ s' => P s') P s) : P (stateAfter x s) := by
  unfold wp at h
  unfold stateAfter
  cases hx : x s with
  | ok a s' => rw [hx] at h; exact h
  | error e s' => rw [hx] at h; exact h

def returns (x : EStateM ε σ α) (s : σ) : Bool :=
  match x s with
  | .ok _ _ => true
  | .error _ _ => false

theorem stateAfter_of_returns (h : wp x (fun _ s' => P s') E s)
    (hx : returns x s = true) : P (stateAfter x s) := by
  unfold wp at h
  unfold returns at hx
  unfold stateAfter
  cases hs : x s with
  | ok a s' => rw [hs] at h; exact h
  | error e s' => rw [hs] at hx; cases hx

theorem wp_stateAfter (h : wp x Q E s) : wp x (fun a s' => Q a s' ∧ s' = stateAfter x s) E s := by
  unfold wp at h ⊢
  unfold stateAfter
  cases hx : x s with
  | ok a s' => rw [hx] at h; exact ⟨h, rfl⟩
  | error e s' => rw [hx] at h; exact h

/-- Every step of a run meets a condition on the state before it. -/
def Along (step : ι → EStateM ε σ Unit) (P : σ → ι → Prop) : List ι → σ → Prop
  | [], _ => True
  | i :: is, s => P s i ∧ Along step P is (stateAfter (step i) s)

instance Along.decidable (step : ι → EStateM ε σ Unit) (P : σ → ι → Prop)
    [∀ s i, Decidable (P s i)] : ∀ (is : List ι) (s : σ), Decidable (Along step P is s)
  | [], _ => isTrue trivial
  | _ :: is, _ =>
      have := Along.decidable step P is
      inferInstanceAs (Decidable (_ ∧ _))

theorem wp_runAll_along {P : σ → ι → Prop}
    (hstep : ∀ i s, P s i → I s → wp (step i) (fun _ s' => I s') E s) :
    ∀ (is : List ι) (s : σ), Along step P is s → I s →
      wp (runAll step is) (fun _ s' => I s') E s := by
  intro is
  induction is with
  | nil =>
    intro s _ hs
    rw [runAll, wp_pure]
    exact hs
  | cons i is ih =>
    intro s halong hs
    rw [runAll, wp_bind]
    apply wp_mono (wp_stateAfter (hstep i s halong.1 hs))
    · rintro _ s' ⟨hs', rfl⟩
      exact ih _ halong.2 hs'
    · exact fun _ hE => hE

end Exec

end CallLesson
