import CallLesson.Reactor.Frames

/-! # Releases under a condition

    Several properties of the reactor fail for one reason: a connection is
    released at a moment when it must not be. They hold in runs in which every
    operation that may release a connection begins under a condition; only a
    `ShutdownInLoop` that finds output pending needs none, because it does not
    release. This module turns such a condition into a guarantee of all code. -/

namespace CallLesson.Reactor

open Exec List

/-! ## Conditions -/

/-- Every operation that may release a connection began under `Ok`, or is a
    `ShutdownInLoop` that found output pending. -/
def Admitted (Ok : ConnId → Before → Prop) (trace : List Event) : Prop :=
  ∀ op d b, Event.began op d b ∈ trace → Ok d b ∨ (op = .shutdownInLoop ∧ b.outPending = true)

open World

theorem Admitted.mono {Ok : ConnId → Before → Prop} {trace trace' : List Event}
    (h : trace <+: trace') (ha : Admitted Ok trace') : Admitted Ok trace :=
  fun op d b hmem => ha op d b (h.subset hmem)

def Event.admitted (ok : ConnId → Before → Bool) : Event → Bool
  | .began op d b => ok d b || (op = .shutdownInLoop && b.outPending)
  | _ => true

theorem admitted_iff (ok : ConnId → Before → Bool) (trace : List Event) :
    trace.all (Event.admitted ok) = true ↔ Admitted (fun d b => ok d b = true) trace := by
  rw [all_eq_true]
  refine ⟨fun h op d b hmem => ?_, fun h e hmem => ?_⟩
  · simpa [Event.admitted] using h _ hmem
  · cases e with
    | began op d b => simpa [Event.admitted] using h op d b hmem
    | _ => rfl

instance (ok : ConnId → Before → Bool) (trace : List Event) :
    Decidable (Admitted (fun d b => ok d b = true) trace) :=
  decidable_of_iff _ (admitted_iff ok trace)

/-! ## Output buffers -/

/-- The output buffers are well formed. -/
def Outs (s : World) : Prop := ∀ d, Buffer.WellFormed (s.conns d).outBuffer

def outsStep : Guarantee World :=
  Guarantee.ofPreorder (fun s s' => grows.ret s s' ∧ (Outs s → Outs s'))
    (fun s => ⟨grows.refl s, id⟩)
    (fun h h' => ⟨grows.trans h.1 h'.1, fun hs => h'.2 (h.2 hs)⟩)

/-- What user code does to them: it takes nothing off. -/
def outs : Guarantee World where
  ret := fun s s' => grows.ret s s' ∧ (Outs s → Outs s' ∧
    ∀ d, s.outPending d = true → s'.outPending d = true)
  fault := fun s s' => grows.ret s s' ∧ (Outs s → Outs s')
  refl := fun s => ⟨grows.refl s, fun hs => ⟨hs, fun _ h => h⟩⟩
  trans := by
    intro s s' s'' h h'
    refine ⟨grows.trans h.1 h'.1, fun hs => ?_⟩
    obtain ⟨hs', hp⟩ := h.2 hs
    obtain ⟨hs'', hp'⟩ := h'.2 hs'
    exact ⟨hs'', fun d hd => hp' d (hp d hd)⟩
  fault_refl := fun s => ⟨grows.refl s, id⟩
  fault_trans := fun h h' => ⟨grows.trans h.1 h'.1, fun hs => h'.2 (h.2 hs).1⟩

section outs

variable {c d : ConnId} {s s' : World} {user : UserCode → Code} {self : LoopId}

theorem outs_of_eq (htrace : s.trace <+: s'.trace)
    (hout : ∀ c, (s'.conns c).outBuffer = (s.conns c).outBuffer) : outs.ret s s' := by
  refine ⟨htrace, fun hs => ⟨fun c => ?_, fun c hc => ?_⟩⟩
  · rw [hout c]
    exact hs c
  · rw [outPending, hout c]
    exact hc

theorem outs_fault_of_ret (h : outs.ret s s') : outs.fault s s' := ⟨h.1, fun hs => (h.2 hs).1⟩

theorem outs_setConn {k : Conn} (hk : k.outBuffer = (s.conns c).outBuffer) :
    outs.ret s (s.setConn c k) := by
  refine outs_of_eq prefix_rfl ?_
  intro d
  by_cases hd : d = c
  · subst hd
    rw [setConn_conns_self, hk]
  · rw [setConn_conns_ne s k hd]

theorem outs_of_quiet (h : Quiet d s s') : outs.ret s s' :=
  outs_of_eq (grows_of_eq h.trace) fun c => (h.conns c).out

theorem outs_allowsQuiet (d : ConnId) : AllowsQuiet outs d where
  ret := fun _ _ h => outs_of_quiet h
  fault := fun _ _ h => outs_fault_of_ret (outs_of_quiet h)

theorem outs_logEvent (e : Event) : Respects outs (logEvent e) :=
  respects_modify fun _ => outs_of_eq (prefix_append _ _) fun _ => rfl

theorem outs_allowsOn (d : ConnId) : AllowsOn outs d where
  log := fun e _ _ => outs_logEvent e
  statu := fun _ => respects_modify fun _ => outs_setConn rfl
  enter := fun _ => respects_modify fun _ => outs_of_eq (prefix_append _ _) fun _ => rfl
  leave := respects_modify fun _ => outs_of_eq prefix_rfl fun _ => rfl
  close := respects_modify fun _ => outs_setConn rfl

theorem outs_removeConnection (self : LoopId) (d : ConnId) :
    Respects outs (removeConnection self d) := by
  apply respects_ite
  · exact respects_modify fun _ => outs_of_eq prefix_rfl fun _ => rfl
  · exact respects_modify fun _ => outs_of_eq prefix_rfl fun _ => rfl

theorem outs_push {data : Bytes} {out : Buffer}
    (hpush : (s.conns c).outBuffer.writeStringAndPop data = .ok out) :
    outs.ret s (s.setConn c { s.conns c with outBuffer := out }) := by
  refine ⟨prefix_rfl, fun hs => ?_⟩
  obtain ⟨hwf, hun⟩ := Buffer.writeStringAndPop_ok (hs c) hpush
  refine ⟨fun d => ?_, fun d hd => ?_⟩
  · by_cases hdc : d = c
    · subst hdc
      rw [setConn_conns_self]
      exact hwf
    · rw [setConn_conns_ne s _ hdc]
      exact hs d
  · by_cases hdc : d = c
    · subst hdc
      simp only [outPending, setConn_conns_self, decide_eq_true_eq] at hd ⊢
      exact Buffer.readAbleSize_pos_of_append (hs d) hwf hun hd
    · rw [outPending, setConn_conns_ne s _ hdc]
      exact hd

theorem outs_sendInLoop (c : ConnId) (buf : Buffer) (hbuf : Buffer.WellFormed buf) :
    Respects outs (sendInLoop c buf) := by
  intro s
  have hlog : outs.ret s (s.log (.given c buf.unread)) :=
    outs_of_eq (prefix_append _ _) fun _ => rfl
  refine wp_mono (sendInLoop_spec c hbuf s) ?_ ?_
  · rintro _ s' (⟨_, rfl⟩ | ⟨out, _, hpush, hquiet, _⟩)
    · exact hlog
    · have hpush' : outs.ret (s.log (.given c buf.unread)) _ := outs_push hpush
      exact outs.trans (outs.trans hlog hpush') (outs_of_quiet hquiet)
  · rintro s' rfl
    exact outs_fault_of_ret hlog

section user

variable (huser : ∀ uc, Respects outs (user uc))

include huser

theorem outs_releaseInLoop : Respects outs (releaseInLoop user self d) :=
  releaseInLoop_respects (outs_allowsQuiet d).small (outs_allowsOn d) (outs_logEvent _)
    (outs_removeConnection self d) huser

theorem outs_shutdownInLoop : Respects outs (shutdownInLoop user self d) :=
  shutdownInLoop_respects (outs_allowsQuiet d).small (outs_allowsOn d) huser
    (outs_releaseInLoop huser)

end user

theorem outsStep_of_ret (h : outs.ret s s') : outsStep.ret s s' := ⟨h.1, fun hs => (h.2 hs).1⟩

theorem outsStep_of_outs {α : Type} {x : EStateM Fault World α} (hx : Respects outs x) :
    Respects outsStep x :=
  hx.weaken (fun _ _ h => outsStep_of_ret h) (fun _ _ h => h)

theorem outsStep_allowsQuiet (d : ConnId) : AllowsQuiet outsStep d where
  ret := fun _ _ h => outsStep_of_ret (outs_of_quiet h)
  fault := fun _ _ h => outsStep_of_ret (outs_of_quiet h)

theorem outsStep_moveSent (d : ConnId) (len : Nat) : Respects outsStep (moveSent d len) := by
  apply respects_get_bind
  intro s
  dsimp only
  cases hmove : (s.conns d).outBuffer.moveReadOffset len with
  | error fault => exact (wp_throw _ _ _ _).mpr (outsStep.fault_refl s)
  | ok out =>
    show wp (set _) _ _ _
    rw [wp_set]
    refine ⟨prefix_rfl, fun hs c => ?_⟩
    by_cases hc : c = d
    · subst hc
      rw [setConn_conns_self]
      exact (Buffer.moveReadOffset_ok (hs c) hmove).2.1
    · rw [setConn_conns_ne s _ hc]
      exact hs c

theorem outs_newConn {fd : Nat} {l : LoopId} {k : Callbacks}
    {s1 : World} (hs : Outs s) (hconns : s1.conns = (s.setConn c (Conn.new l fd k)).conns) :
    Outs s1 := by
  intro d
  rw [hconns]
  by_cases hd : d = c
  · subst hd
    rw [setConn_conns_self]
    exact Buffer.fresh_wellFormed
  · rw [setConn_conns_ne s _ hd]
    exact hs d

end outs

/-! ## Guarantees under a condition -/

/-- What makes `G`, under the condition and where `Q` holds, compose. -/
structure AdmitPremises (O G : Guarantee World) (Q : World → Prop) : Prop where
  grows : ∀ s s', O.ret s s' → grows.ret s s'
  grows_fault : ∀ s s', O.fault s s' → Reactor.grows.ret s s'
  outs : ∀ s s', O.ret s s' → Outs s → Outs s'
  keep : ∀ s s', O.ret s s' → Outs s → G.ret s s' → Q s → Q s'

/-- `O` always, and `G` as long as the operations begin under `Ok`. -/
def assuming {O G : Guarantee World} {Q : World → Prop} (Ok : ConnId → Before → Prop)
    (h : AdmitPremises O G Q) : Guarantee World where
  ret := fun s s' => O.ret s s' ∧ (Outs s → (Admitted Ok s.trace → Q s) →
    Admitted Ok s'.trace → G.ret s s')
  fault := fun s s' => O.fault s s' ∧ (Outs s → (Admitted Ok s.trace → Q s) →
    Admitted Ok s'.trace → G.fault s s')
  refl := fun s => ⟨O.refl s, fun _ _ _ => G.refl s⟩
  trans := by
    intro s s' s'' h1 h2
    refine ⟨O.trans h1.1 h2.1, fun hs hq ha => ?_⟩
    have ha' := ha.mono (h.grows _ _ h2.1)
    have hg := h1.2 hs hq ha'
    have hq' := h.keep _ _ h1.1 hs hg (hq (ha'.mono (h.grows _ _ h1.1)))
    exact G.trans hg (h2.2 (h.outs _ _ h1.1 hs) (fun _ => hq') ha)
  fault_refl := fun s => ⟨O.fault_refl s, fun _ _ _ => G.fault_refl s⟩
  fault_trans := by
    intro s s' s'' h1 h2
    refine ⟨O.fault_trans h1.1 h2.1, fun hs hq ha => ?_⟩
    have ha' := ha.mono (h.grows_fault _ _ h2.1)
    have hg := h1.2 hs hq ha'
    have hq' := h.keep _ _ h1.1 hs hg (hq (ha'.mono (h.grows _ _ h1.1)))
    exact G.fault_trans hg (h2.2 (h.outs _ _ h1.1 hs) (fun _ => hq') ha)

section assuming

variable {O O' G : Guarantee World} {Q Q' : World → Prop} {Ok : ConnId → Before → Prop}
  {h : AdmitPremises O G Q} {h' : AdmitPremises O' G Q'} {α : Type} {x : EStateM Fault World α}

theorem respects_assuming (hO : Respects O x) (hG : Respects G x) : Respects (assuming Ok h) x :=
  fun s => wp_mono (wp_and (hO s) (hG s)) (fun _ _ hr => ⟨hr.1, fun _ _ _ => hr.2⟩)
    (fun _ hr => ⟨hr.1, fun _ _ _ => hr.2⟩)

include h in
theorem base_of_assuming (hx : Respects (assuming Ok h) x) : Respects O x :=
  hx.weaken (fun _ _ hr => hr.1) (fun _ _ hr => hr.1)

theorem wp_assuming {s : World} (hO : Respects O x) (hG : Outs s → Q s → Admitted Ok s.trace →
      wp x (fun _ s' => Admitted Ok s'.trace → G.ret s s')
        (fun s' => Admitted Ok s'.trace → G.fault s s') s) :
    wp x (fun _ s' => (assuming Ok h).ret s s') (fun s' => (assuming Ok h).fault s s') s := by
  by_cases hcond : Outs s ∧ Admitted Ok s.trace ∧ Q s
  · obtain ⟨hs, ha, hq⟩ := hcond
    exact wp_mono (wp_and (hO s) (hG hs hq ha)) (fun _ _ hr => ⟨hr.1, fun _ _ => hr.2⟩)
      (fun _ hr => ⟨hr.1, fun _ _ => hr.2⟩)
  · -- the condition is already broken, and stays so
    refine wp_mono (hO s) ?_ ?_
    · intro _ s' hr
      refine ⟨hr, fun hs hq ha => ?_⟩
      have ha' := ha.mono (h.grows _ _ hr)
      exact absurd ⟨hs, ha', hq ha'⟩ hcond
    · intro s' hr
      refine ⟨hr, fun hs hq ha => ?_⟩
      have ha' := ha.mono (h.grows_fault _ _ hr)
      exact absurd ⟨hs, ha', hq ha'⟩ hcond

theorem assuming_weaken (hret : ∀ s s', O.ret s s' → O'.ret s s')
    (hfault : ∀ s s', O.fault s s' → O'.fault s s') (hQ : ∀ s, Q' s → Q s)
    (hx : Respects (assuming Ok h) x) : Respects (assuming Ok h') x :=
  hx.weaken (fun _ _ hr => ⟨hret _ _ hr.1, fun hs hq => hr.2 hs fun ha => hQ _ (hq ha)⟩)
    (fun _ _ hr => ⟨hfault _ _ hr.1, fun hs hq => hr.2 hs fun ha => hQ _ (hq ha)⟩)

theorem assuming_allowsQuiet {d : ConnId} (hO : AllowsQuiet O d) (hG : AllowsQuiet G d) :
    AllowsQuiet (assuming Ok h) d where
  ret := fun s s' hq => ⟨hO.ret s s' hq, fun _ _ _ => hG.ret s s' hq⟩
  fault := fun s s' hq => ⟨hO.fault s s' hq, fun _ _ _ => hG.fault s s' hq⟩

theorem assuming_allowsOn {d : ConnId} (hO : AllowsOn O d) (hG : AllowsOn G d) :
    AllowsOn (assuming Ok h) d where
  log := fun e he hne => respects_assuming (hO.log e he hne) (hG.log e he hne)
  statu := fun st => respects_assuming (hO.statu st) (hG.statu st)
  enter := fun op => respects_assuming (hO.enter op) (hG.enter op)
  leave := respects_assuming hO.leave hG.leave
  close := respects_assuming hO.close hG.close

end assuming

/-! ## The rule -/

theorem premises_user (G : Guarantee World) : AdmitPremises outs G fun _ => True where
  grows := fun _ _ h => h.1
  grows_fault := fun _ _ h => h.1
  outs := fun _ _ h hs => (h.2 hs).1
  keep := fun _ _ _ _ _ h => h

theorem premises_step (G : Guarantee World) : AdmitPremises outsStep G fun _ => True where
  grows := fun _ _ h => h.1
  grows_fault := fun _ _ h => h.1
  outs := fun _ _ h => h.2
  keep := fun _ _ _ _ _ h => h

/-- `G` under the condition, of user code. -/
def guarded (Ok : ConnId → Before → Prop) (G : Guarantee World) : Guarantee World :=
  assuming Ok (premises_user G)

/-- `G` under the condition, of a step of a loop thread. -/
def guardedStep (Ok : ConnId → Before → Prop) (G : Guarantee World) : Guarantee World :=
  assuming Ok (premises_step G)

variable {Q : World → Prop}

theorem step_of_guarded {Ok : ConnId → Before → Prop} {G : Guarantee World}
    {h : AdmitPremises outsStep G Q} {α : Type} {x : EStateM Fault World α}
    (hx : Respects (guarded Ok G) x) : Respects (assuming Ok h) x :=
  assuming_weaken (fun _ _ => outsStep_of_ret) (fun _ _ h => h) (fun _ _ => trivial) hx

/-- `G` allows everything that the code of a connection does, but the release. -/
structure AllowsCode (G : Guarantee World) : Prop where
  quiet : ∀ d s s', Quiet d s s' → G.ret s s'
  log : ∀ d e s, Event.conn? e = some d → e ≠ .release d → G.ret s (s.log e)
  began : ∀ op d b s, G.ret s (s.log (.began op d b))
  conn : ∀ d k s, k.callbacks = (s.conns d).callbacks → G.ret s (s.setConn d k)
  busy : ∀ s b, G.ret s { s with busy := b }

namespace AllowsCode

variable {Ok : ConnId → Before → Prop} {G : Guarantee World} (A : AllowsCode G)

include A

theorem allowsQuiet (d : ConnId) : AllowsQuiet G d where
  ret := A.quiet d
  fault := fun s s' h => G.fault_trans (A.quiet d s s' h) (G.fault_refl s')

theorem ret_enter (op : ReleaseOp) (d : ConnId) (s : World) : G.ret s (s.enter op d) :=
  G.trans (A.began op d (s.before d) s) (A.busy _ _)

theorem allowsOn (d : ConnId) : AllowsOn G d where
  log := fun e he hne => respects_modify fun s => A.log d e s he hne
  statu := fun _ => respects_modify fun s => A.conn d _ s rfl
  enter := fun op => respects_modify fun s => A.ret_enter op d s
  leave := respects_modify fun s => A.busy s _
  close := respects_modify fun s => A.conn d _ s rfl

theorem respects_sendInLoop (d : ConnId) (buf : Buffer) (hbuf : Buffer.WellFormed buf) :
    Respects G (sendInLoop d buf) := by
  intro s
  have hlog : G.ret s (s.log (.given d buf.unread)) := A.log d _ s rfl nofun
  refine wp_mono (sendInLoop_spec d hbuf s) ?_ ?_
  · rintro _ s' (⟨_, rfl⟩ | ⟨out, _, _, hquiet, _⟩)
    · exact hlog
    · have hpush : G.ret (s.log (.given d buf.unread))
          ((s.log (.given d buf.unread)).setConn d { s.conns d with outBuffer := out }) :=
        A.conn d _ _ rfl
      exact G.trans (G.trans hlog hpush) (A.quiet d _ _ hquiet)
  · rintro s' rfl
    exact G.fault_trans hlog (G.fault_refl _)

theorem guarded_allowsQuiet (d : ConnId) : AllowsQuiet (guarded Ok G) d :=
  assuming_allowsQuiet (outs_allowsQuiet d) (A.allowsQuiet d)

theorem guarded_allowsOn (d : ConnId) : AllowsOn (guarded Ok G) d :=
  assuming_allowsOn (outs_allowsOn d) (A.allowsOn d)

theorem release_of_log {l : LoopId} {user : UserCode → Code} {d : ConnId} {s : World}
    (hlog : G.ret s (s.log (.release d))) (hremove : Respects G (removeConnection l d))
    (huser : ∀ uc, Respects (guarded Ok G) (user uc)) (hs : Outs s) :
    wp (releaseInLoop user l d) (fun _ s' => Admitted Ok s'.trace → G.ret s s')
      (fun s' => Admitted Ok s'.trace → G.fault s s') s := by
  have hbody : Respects (guarded Ok G) (releaseBody user l d) :=
    releaseBody_respects (A.guarded_allowsQuiet d).small (A.guarded_allowsOn d)
      (respects_assuming (outs_removeConnection l d) hremove) huser
  rw [releaseInLoop, wp_bind, logEvent, wp_modify]
  refine wp_mono (hbody (s.log (.release d))) ?_ ?_
  · intro _ s' hr ha
    exact G.trans hlog (hr.2 hs (fun _ => trivial) ha)
  · intro s' hr ha
    exact G.fault_trans hlog (hr.2 hs (fun _ => trivial) ha)

end AllowsCode

/-- What has to be shown of a property: `Ok` makes the connection `Safe`, and a
    safe connection may be released by the thread `l`. -/
structure ReleaseRule (Ok : ConnId → Before → Prop) (G : Guarantee World)
    (Safe : ConnId → World → Prop) (l : LoopId) : Prop where
  code : AllowsCode G
  safe_of_ok : ∀ d s, Ok d (s.before d) → Safe d s
  safe_ret : ∀ d s s', G.ret s s' → Safe d s → Safe d s'
  release : ∀ (user : UserCode → Code) d s, (∀ uc, Respects (guarded Ok G) (user uc)) →
    Outs s → Safe d s → Admitted Ok s.trace →
    wp (releaseInLoop user l d) (fun _ s' => Admitted Ok s'.trace → G.ret s s')
      (fun s' => Admitted Ok s'.trace → G.fault s s') s

namespace ReleaseRule

variable {Ok : ConnId → Before → Prop} {G : Guarantee World} {Safe : ConnId → World → Prop}
  {self : LoopId} {user : UserCode → Code} {d : ConnId} (R : ReleaseRule Ok G Safe self)

include R

theorem premises_shutdown (d : ConnId) :
    AdmitPremises outs G fun s => Safe d s ∨ s.outPending d = true where
  grows := fun _ _ h => h.1
  grows_fault := fun _ _ h => h.1
  outs := fun _ _ h hs => (h.2 hs).1
  keep := fun s s' h hs hg hq => hq.imp (R.safe_ret d s s' hg) ((h.2 hs).2 d)

theorem premises_during (d : ConnId) : AdmitPremises outsStep G (Safe d) where
  grows := fun _ _ h => h.1
  grows_fault := fun _ _ h => h.1
  outs := fun _ _ h => h.2
  keep := fun s s' _ _ hg hq => R.safe_ret d s s' hg hq

/-! ### User code -/

theorem safe_enter {op : ReleaseOp} {s : World} (ha : Admitted Ok (s.enter op d).trace) :
    Safe d (s.enter op d) ∨ (op = .shutdownInLoop ∧ (s.enter op d).outPending d = true) := by
  rcases ha op d (s.before d) (mem_append_right _ mem_cons_self) with hok | hpend
  · exact Or.inl (R.safe_ret d _ _ (R.code.ret_enter op d s) (R.safe_of_ok d s hok))
  · exact Or.inr hpend

theorem shutdownBody_shutdown (huser : ∀ uc, Respects (guarded Ok G) (user uc)) :
    Respects (assuming Ok (R.premises_shutdown d)) (shutdownBody user self d) := by
  apply shutdownBody_respects
  · exact (assuming_allowsQuiet (outs_allowsQuiet d) (R.code.allowsQuiet d)).small
  · exact assuming_allowsOn (outs_allowsOn d) (R.code.allowsOn d)
  · intro uc
    exact assuming_weaken (fun _ _ h => h) (fun _ _ h => h) (fun _ _ => trivial) (huser uc)
  · intro s hempty
    apply wp_assuming (outs_releaseInLoop fun uc => base_of_assuming (huser uc))
    intro hs hq ha
    -- nothing is pending, so it is the other case
    have hsafe : Safe d s := by
      apply hq.resolve_right
      rw [hempty]
      nofun
    exact R.release user d s huser hs hsafe ha

theorem shutdownInLoop_guarded (huser : ∀ uc, Respects (guarded Ok G) (user uc)) (d : ConnId) :
    Respects (guarded Ok G) (shutdownInLoop user self d) := by
  intro s
  apply wp_assuming (outs_shutdownInLoop fun uc => base_of_assuming (huser uc))
  intro hs _ _
  have henter := R.code.ret_enter .shutdownInLoop d s
  rw [shutdownInLoop, during, wp_bind, wp_modify, wp_bind]
  refine wp_mono (R.shutdownBody_shutdown huser (s.enter .shutdownInLoop d)) ?_ ?_
  · intro _ s' hr
    rw [wp_modify]
    intro ha
    have hg := hr.2 hs (fun ha' => (R.safe_enter ha').imp_right And.right) ha
    exact G.trans (G.trans henter hg) (R.code.busy s' _)
  · intro s' hr ha
    have hg := hr.2 hs (fun ha' => (R.safe_enter ha').imp_right And.right) ha
    exact G.fault_trans henter hg

theorem callback_guarded (env : Env) (depth : Nat) (uc : UserCode) :
    Respects (guarded Ok G) (callback env self depth uc) := by
  apply callback_respects env
  · intro d
    exact (R.code.guarded_allowsQuiet d).small
  · intro d buf hbuf
    exact respects_assuming (outs_sendInLoop d buf hbuf) (R.code.respects_sendInLoop d buf hbuf)
  · intro user d huser
    exact R.shutdownInLoop_guarded huser d

/-! ### Steps of a loop thread -/

variable {h : AdmitPremises outsStep G Q}

theorem step_allowsQuiet (d : ConnId) : AllowsQuiet (assuming Ok h) d :=
  assuming_allowsQuiet (outsStep_allowsQuiet d) (R.code.allowsQuiet d)

theorem step_allowsOn (d : ConnId) : AllowsOn (assuming Ok h) d := by
  have hO := outs_allowsOn d
  apply assuming_allowsOn _ (R.code.allowsOn d)
  exact ⟨fun e he hne => outsStep_of_outs (hO.log e he hne),
    fun st => outsStep_of_outs (hO.statu st), fun op => outsStep_of_outs (hO.enter op),
    outsStep_of_outs hO.leave, outsStep_of_outs hO.close⟩

theorem during_step {op : ReleaseOp} (hop : op ≠ .shutdownInLoop) {body : Code}
    (hbody : Respects (assuming Ok (R.premises_during d)) body) :
    Respects (guardedStep Ok G) (during op d body) := by
  intro s
  have hO : Respects outsStep (during op d body) :=
    respects_bind (outsStep_of_outs ((outs_allowsOn d).enter op)) fun _ =>
      respects_bind (base_of_assuming hbody) fun _ => outsStep_of_outs (outs_allowsOn d).leave
  apply wp_assuming hO
  intro hs _ _
  have henter := R.code.ret_enter op d s
  have hsafe : Admitted Ok (s.enter op d).trace → Safe d (s.enter op d) := by
    intro ha
    exact (R.safe_enter ha).resolve_right fun h => hop h.1
  rw [during, wp_bind, wp_modify, wp_bind]
  refine wp_mono (hbody (s.enter op d)) ?_ ?_
  · intro _ s' hr
    rw [wp_modify]
    intro ha
    exact G.trans (G.trans henter (hr.2 hs hsafe ha)) (R.code.busy s' _)
  · intro s' hr ha
    exact G.fault_trans henter (hr.2 hs hsafe ha)

theorem moveSent_step (len : Nat) : Respects (assuming Ok h) (moveSent d len) := by
  apply respects_assuming (outsStep_moveSent d len)
  apply respects_get_bind
  intro s
  dsimp only
  cases hmove : (s.conns d).outBuffer.moveReadOffset len with
  | error fault => exact (wp_throw _ _ _ _).mpr (G.fault_refl s)
  | ok out =>
    show wp (set _) _ _ _
    rw [wp_set]
    exact R.code.conn d _ s rfl

theorem disableWrite_step : Respects (assuming Ok h) (disableWrite d) := by
  apply respects_bind
  · apply respects_assuming
    · exact outsStep_of_outs (respects_modify fun _ => outs_setConn rfl)
    · exact respects_modify fun s => R.code.conn d _ s rfl
  · intro _
    exact (R.step_allowsQuiet d).small.updateEvent

section step

variable (huser : ∀ uc, Respects (guarded Ok G) (user uc))

include huser

theorem releaseInLoop_during :
    Respects (assuming Ok (R.premises_during d)) (releaseInLoop user self d) := by
  intro s
  have houts : Respects outs (releaseInLoop user self d) :=
    outs_releaseInLoop fun uc => base_of_assuming (huser uc)
  apply wp_assuming (outsStep_of_outs houts)
  intro hs hsafe ha
  exact R.release user d s huser hs hsafe ha

theorem handleClose_step : Respects (guardedStep Ok G) (handleClose user self d) := by
  apply R.during_step (by decide)
  exact handleCloseBody_respects (fun uc => step_of_guarded (huser uc))
    (R.releaseInLoop_during huser)

theorem handleWrite_step (env : Env) :
    Respects (guardedStep Ok G) (handleWrite user self env d) := by
  apply R.during_step (by decide)
  exact handleWriteBody_respects (R.step_allowsQuiet d).small (R.step_allowsOn d)
    (fun uc => step_of_guarded (huser uc)) (R.releaseInLoop_during huser)
    R.moveSent_step R.disableWrite_step env

theorem handleRevents_step (env : Env) (revents : Events) :
    Respects (guardedStep Ok G) (handleRevents user self env d revents) := by
  have huser' := fun uc => step_of_guarded (h := premises_step G) (huser uc)
  apply handleRevents_respects (R.step_allowsQuiet d).small huser'
  · exact handleRead_respects (R.step_allowsQuiet d).small huser'
      (step_of_guarded (R.shutdownInLoop_guarded huser d))
  · exact R.handleWrite_step huser
  · exact R.handleClose_step huser

theorem timerCallback_step (h : Handle) (task : TimerTask TimerCb) :
    Respects (guardedStep Ok G) (timerCallback user self h task) := by
  unfold timerCallback
  split
  · exact R.during_step (by decide) (R.releaseInLoop_during huser)
  · exact step_of_guarded (huser _)

theorem onTime_step : Respects (guardedStep Ok G) (onTime user self) :=
  onTime_respects (R.step_allowsQuiet 0) fun h task s _ => R.timerCallback_step huser h task s

theorem runFunctor_step {f : Functor} (hf : f.removed = none) :
    Respects (guardedStep Ok G) (runFunctor user self f) := by
  have hq := fun d => R.step_allowsQuiet (h := premises_step G) d
  cases f with
  | established d =>
    exact establishedInLoop_respects (hq d).small (R.step_allowsOn d)
      fun uc => step_of_guarded (huser uc)
  | send d data =>
    apply sendFunctor_respects
    intro buf hbuf
    exact respects_assuming (outsStep_of_outs (outs_sendInLoop d buf hbuf))
      (R.code.respects_sendInLoop d buf hbuf)
  | shutdown d => exact step_of_guarded (R.shutdownInLoop_guarded huser d)
  | enableInactiveRelease d sec => exact (hq d).small.enable sec
  | cancelInactiveRelease d => exact (hq d).small.cancelInLoop
  | removeConnection d => cases hf

end step

end ReleaseRule

end CallLesson.Reactor
