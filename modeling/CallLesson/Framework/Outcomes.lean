import CallLesson.Framework.Exec

/-! # Programs whose errors matter

    The weakest preconditions of `Exec` do not say which error a program has stopped with.
    `wpe` does: a program returns into `Q`, or stops with an error into `X`. It has one rule
    per construct, as `wp` has. -/

namespace CallLesson.Exec

variable {ε σ α β ι : Type}

@[irreducible] def wpe (x : EStateM ε σ α) (Q : α → σ → Prop) (X : ε → σ → Prop) (s : σ) : Prop :=
  match x s with
  | .ok a s' => Q a s'
  | .error e s' => X e s'

@[simp] theorem wpe_pure (a : α) (Q : α → σ → Prop) (X : ε → σ → Prop) (s : σ) :
    wpe (pure a : EStateM ε σ α) Q X s ↔ Q a s := by
  unfold wpe
  rfl

@[simp] theorem wpe_bind (x : EStateM ε σ α) (f : α → EStateM ε σ β) (Q : β → σ → Prop)
    (X : ε → σ → Prop) (s : σ) :
    wpe (x >>= f) Q X s ↔ wpe x (fun a s' => wpe (f a) Q X s') X s := by
  have hbind : (x >>= f) s = match x s with
      | .ok a s' => f a s'
      | .error e s' => .error e s' := rfl
  unfold wpe
  rw [hbind]
  cases x s <;> rfl

@[simp] theorem wpe_get (Q : σ → σ → Prop) (X : ε → σ → Prop) (s : σ) :
    wpe (get : EStateM ε σ σ) Q X s ↔ Q s s := by
  unfold wpe
  rfl

@[simp] theorem wpe_modify (f : σ → σ) (Q : PUnit → σ → Prop) (X : ε → σ → Prop) (s : σ) :
    wpe (modify f : EStateM ε σ PUnit) Q X s ↔ Q ⟨⟩ (f s) := by
  unfold wpe
  rfl

@[simp] theorem wpe_modifyGet (f : σ → α × σ) (Q : α → σ → Prop) (X : ε → σ → Prop) (s : σ) :
    wpe (modifyGet f : EStateM ε σ α) Q X s ↔ Q (f s).1 (f s).2 := by
  unfold wpe
  rfl

@[simp] theorem wpe_throw (e : ε) (Q : α → σ → Prop) (X : ε → σ → Prop) (s : σ) :
    wpe (throw e : EStateM ε σ α) Q X s ↔ X e s := by
  unfold wpe
  rfl

theorem wpe_ite (c : Prop) [Decidable c] (x y : EStateM ε σ α) (Q : α → σ → Prop)
    (X : ε → σ → Prop) (s : σ) :
    wpe (if c then x else y) Q X s ↔ (c → wpe x Q X s) ∧ (¬ c → wpe y Q X s) := by
  by_cases hc : c <;> simp [hc]

theorem wpe_whenever (c : Prop) [Decidable c] (x : EStateM ε σ Unit) (Q : Unit → σ → Prop)
    (X : ε → σ → Prop) (s : σ) :
    wpe (whenever c x) Q X s ↔ (c → wpe x Q X s) ∧ (¬ c → Q () s) := by
  rw [whenever, wpe_ite, wpe_pure]

variable {x : EStateM ε σ α} {Q : α → σ → Prop} {X : ε → σ → Prop} {s : σ}

theorem wpe_mono {Q' : α → σ → Prop} {X' : ε → σ → Prop} (h : wpe x Q X s)
    (hQ : ∀ a s', Q a s' → Q' a s') (hX : ∀ e s', X e s' → X' e s') : wpe x Q' X' s := by
  unfold wpe at h ⊢
  cases hx : x s with
  | ok a s' => rw [hx] at h; exact hQ a s' h
  | error e s' => rw [hx] at h; exact hX e s' h

theorem wpe_of_forall (hQ : ∀ a s', Q a s') (hX : ∀ e s', X e s') : wpe x Q X s := by
  unfold wpe
  split
  · exact hQ _ _
  · exact hX _ _

theorem wpe_cases (h : wpe x Q X s) :
    (∃ a s', x s = .ok a s' ∧ Q a s') ∨ ∃ e s', x s = .error e s' ∧ X e s' := by
  unfold wpe at h
  cases hx : x s with
  | ok a s' => rw [hx] at h; exact Or.inl ⟨a, s', rfl, h⟩
  | error e s' => rw [hx] at h; exact Or.inr ⟨e, s', rfl, h⟩

theorem wpe_ok {s' : σ} {a : α} (h : wpe x Q X s) (hx : x s = .ok a s') : Q a s' := by
  unfold wpe at h
  rwa [hx] at h

theorem wpe_error {s' : σ} {e : ε} (h : wpe x Q X s) (hx : x s = .error e s') : X e s' := by
  unfold wpe at h
  rwa [hx] at h

theorem exists_of_wpe (h : wpe x Q (fun _ _ => False) s) : ∃ a s', x s = .ok a s' ∧ Q a s' := by
  rcases wpe_cases h with hok | ⟨_, _, _, hX⟩
  · exact hok
  · exact hX.elim

theorem eq_ok_of_wpe {s' : σ} {a : α}
    (h : wpe x (fun a' s'' => a' = a ∧ s'' = s') (fun _ _ => False) s) : x s = .ok a s' := by
  obtain ⟨_, _, hx, rfl, rfl⟩ := exists_of_wpe h
  exact hx

end CallLesson.Exec
