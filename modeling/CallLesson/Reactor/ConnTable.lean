import CallLesson.Reactor.KnownIds
import CallLesson.Reactor.Admitted

/-! # The connection table of the server

    `NewConnection` inserts a connection into `_conns` after it has started
    it, and the closed callback of the server removes it: at once on the base
    loop, through the queue of the base loop elsewhere. With sub-loops the
    removal comes after the insert in any case. Without them the connection is
    started inside of `NewConnection`, and a connected callback that releases
    it makes the insert come last. -/

namespace CallLesson.Reactor

open Exec Event

/-! ## Statements -/

def TableExact (s : World) : Prop :=
  ∀ id x, s.table id = some x ↔ x = id ∧ created id ∈ s.trace ∧ release id ∉ s.trace

def notCreating (_ : ConnId) (b : Before) : Bool := !b.creating

/-! ## The invariant -/

structure TableInv (s : World) : Prop where
  own : ∀ id x, s.table id = some x → x = id ∧ created id ∈ s.trace
  listed : ∀ id, created id ∈ s.trace → release id ∉ s.trace → s.table id = some id
  removed : ∀ id ∈ s.removals baseLoop, release id ∈ s.trace
  onlyBase : ∀ l, l ≠ baseLoop → s.removals l = []
  fresh : ∀ id, created id ∈ s.trace ∨ release id ∈ s.trace → id ≤ s.connId
  small : s.connId < 2 ^ 31
  serverClosed : ∀ id, (s.conns id).callbacks.serverClosed = true

def Unqueued (s : World) (id : ConnId) : Prop :=
  release id ∈ s.trace ∧ id ∉ s.removals baseLoop

def Owed (s : World) (id : ConnId) : Prop := Unqueued s id ∧ s.table id ≠ none

structure Keeping (l : LoopId) (d : Option ConnId) (s s' : World) : Prop where
  connId : s'.connId = s.connId
  creating : s'.creating = s.creating
  created : ∀ id, created id ∈ s'.trace ↔ created id ∈ s.trace
  /-- What is being created on its own loop is not released. -/
  frozen : ∀ id, s.creating = some id → release id ∈ s'.trace → release id ∈ s.trace
  inv : TableInv s → TableInv s'
  owed : TableInv s → ∀ id, some id ≠ d → Owed s' id → Owed s id
  queued : TableInv s → l ≠ baseLoop → ∀ id, some id ≠ d → Unqueued s' id → Unqueued s id

open List World

variable {trace : List Event}

section keeping

variable {l : LoopId} {d : Option ConnId} {c : ConnId} {s s' s'' : World}

theorem Keeping.refl (l : LoopId) (s : World) : Keeping l none s s :=
  ⟨rfl, rfl, fun _ => Iff.rfl, fun _ _ h => h, id, fun _ _ _ h => h, fun _ _ _ _ h => h⟩

theorem Keeping.trans (h : Keeping l d s s') (h' : Keeping l none s' s'') : Keeping l d s s'' where
  connId := h'.connId.trans h.connId
  creating := h'.creating.trans h.creating
  created := fun id => (h'.created id).trans (h.created id)
  frozen := fun id hc hr => h.frozen id hc (h'.frozen id (h.creating.trans hc) hr)
  inv := fun hs => h'.inv (h.inv hs)
  owed := fun hs id hid ho => h.owed hs id hid (h'.owed (h.inv hs) id nofun ho)
  queued := fun hs hl id hid hq => h.queued hs hl id hid (h'.queued (h.inv hs) hl id nofun hq)

def keeping (l : LoopId) : Guarantee World where
  ret := Keeping l none
  fault := fun _ _ => True
  refl := Keeping.refl l
  trans := Keeping.trans
  fault_refl := fun _ => trivial
  fault_trans := fun _ _ => trivial

theorem Keeping.of_eq (hconnId : s'.connId = s.connId) (hcreating : s'.creating = s.creating)
    (htable : s'.table = s.table) (hremovals : ∀ l, s'.removals l = s.removals l)
    (hserver : ∀ id, (s'.conns id).callbacks.serverClosed = (s.conns id).callbacks.serverClosed)
    (hcreated : ∀ id, Event.created id ∈ s'.trace ↔ Event.created id ∈ s.trace)
    (hreleased : ∀ id, release id ∈ s'.trace ↔ release id ∈ s.trace) :
    Keeping l none s s' where
  connId := hconnId
  creating := hcreating
  created := hcreated
  frozen := fun id _ hr => (hreleased id).mp hr
  inv := by
    intro hs
    refine ⟨?_, ?_, ?_, ?_, ?_, ?_, ?_⟩
    · intro id x hx
      rw [htable] at hx
      rw [hcreated]
      exact hs.own id x hx
    · intro id
      rw [hcreated, hreleased, htable]
      exact hs.listed id
    · intro id
      rw [hremovals, hreleased]
      exact hs.removed id
    · intro l' hl'
      rw [hremovals]
      exact hs.onlyBase l' hl'
    · intro id
      rw [hcreated, hreleased, hconnId]
      exact hs.fresh id
    · rw [hconnId]
      exact hs.small
    · intro id
      rw [hserver]
      exact hs.serverClosed id
  owed := by
    intro _ id _ ho
    rw [Owed, Unqueued, hreleased, hremovals, htable] at ho
    exact ho
  queued := by
    intro _ _ id _ hq
    rw [Unqueued, hreleased, hremovals] at hq
    exact hq

theorem mem_concat_of_ne {e e' : Event} (hne : e' ≠ e) : e' ∈ trace ++ [e] ↔ e' ∈ trace := by
  rw [mem_append, mem_singleton, or_iff_left hne]

theorem Keeping.log {e : Event} (hcreated : ∀ id, Event.created id ≠ e)
    (hreleased : ∀ id, Event.release id ≠ e) : Keeping l none s (s.log e) :=
  Keeping.of_eq rfl rfl rfl (fun _ => rfl) (fun _ => rfl)
    (fun id => mem_concat_of_ne (hcreated id)) (fun id => mem_concat_of_ne (hreleased id))

theorem keeping_code (l : LoopId) : AllowsCode (keeping l) where
  quiet := fun _ _ _ h => Keeping.of_eq h.connId h.creating h.table h.removals
    (fun id => (h.conns id).serverClosed) (fun _ => by rw [h.trace]) (fun _ => by rw [h.trace])
  log := by
    intro d e s he hne
    apply Keeping.log
    · rintro id rfl
      cases he
    · rintro id rfl
      cases he
      exact hne rfl
  began := fun _ _ _ _ => Keeping.log (fun _ => nofun) (fun _ => nofun)
  conn := by
    intro d k s hk
    refine Keeping.of_eq rfl rfl rfl (fun _ => rfl) ?_ (fun _ => Iff.rfl) (fun _ => Iff.rfl)
    intro id
    by_cases hid : id = d
    · subst hid
      rw [setConn_conns_self, hk]
    · rw [setConn_conns_ne s k hid]
  busy := fun _ _ => Keeping.of_eq rfl rfl rfl (fun _ => rfl) (fun _ => rfl) (fun _ => Iff.rfl)
    (fun _ => Iff.rfl)

/-! ## The release -/

def Releasable (c : ConnId) (s : World) : Prop := c ≤ s.connId ∧ s.creating ≠ some c

theorem mem_release_concat {id : ConnId} (hne : id ≠ c) :
    release id ∈ trace ++ [.release c] ↔ release id ∈ trace := by
  apply mem_concat_of_ne
  intro heq
  cases heq
  exact hne rfl

theorem mem_created_concat {id : ConnId} :
    created id ∈ trace ++ [.release c] ↔ created id ∈ trace :=
  mem_concat_of_ne nofun

theorem Keeping.logRelease (hc : Releasable c s) : Keeping l (some c) s (s.log (.release c)) where
  connId := rfl
  creating := rfl
  created := fun _ => mem_created_concat
  frozen := by
    intro id hcreating hr
    rw [← mem_release_concat]
    · exact hr
    · rintro rfl
      exact hc.2 hcreating
  inv := by
    intro hs
    refine ⟨?_, ?_, ?_, hs.onlyBase, ?_, hs.small, hs.serverClosed⟩
    · intro id x hx
      obtain ⟨hxid, hmem⟩ := hs.own id x hx
      exact ⟨hxid, mem_append_left _ hmem⟩
    · intro id hcreated hr
      apply hs.listed id (mem_created_concat.mp hcreated)
      intro hmem
      exact hr (mem_append_left _ hmem)
    · intro id hid
      exact mem_append_left _ (hs.removed id hid)
    · intro id hid
      by_cases hidc : id = c
      · rw [hidc]
        exact hc.1
      · apply hs.fresh id
        exact hid.imp mem_created_concat.mp (mem_release_concat hidc).mp
  owed := by
    intro _ id hid ho
    have hidc : id ≠ c := fun heq => hid (congrArg some heq)
    exact ⟨⟨(mem_release_concat hidc).mp ho.1.1, ho.1.2⟩, ho.2⟩
  queued := by
    intro _ _ id hid hq
    have hidc : id ≠ c := fun heq => hid (congrArg some heq)
    exact ⟨(mem_release_concat hidc).mp hq.1, hq.2⟩

theorem Keeping.settle (h : Keeping l (some c) s s') (hkeep : TableInv s' → Keeping l (some c) s' s'')
    (hconnId : s''.connId = s'.connId) (hcreating : s''.creating = s'.creating)
    (htrace : s''.trace = s'.trace)
    (hsettled : TableInv s' → ¬ Owed s'' c ∧ (l ≠ baseLoop → ¬ Unqueued s'' c)) :
    Keeping l none s s'' where
  connId := hconnId.trans h.connId
  creating := hcreating.trans h.creating
  created := fun id => by rw [htrace]; exact h.created id
  frozen := fun id hc hr => h.frozen id hc (htrace ▸ hr)
  inv := fun hs => (hkeep (h.inv hs)).inv (h.inv hs)
  owed := by
    intro hs id _ ho
    have hs' := h.inv hs
    have hne : some id ≠ some c := by
      intro heq
      cases heq
      exact (hsettled hs').1 ho
    exact h.owed hs id hne ((hkeep hs').owed hs' id hne ho)
  queued := by
    intro hs hl id _ hq
    have hs' := h.inv hs
    have hne : some id ≠ some c := by
      intro heq
      cases heq
      exact (hsettled hs').2 hl hq
    exact h.queued hs hl id hne ((hkeep hs').queued hs' hl id hne hq)

theorem tableKey_eq_iff {id : Nat} (hid : id < 2 ^ 64) :
    tableKey id = id ↔ id < 2 ^ 31 ∨ 2 ^ 64 - 2 ^ 31 ≤ id := by
  unfold tableKey toInt32
  split <;> omega

theorem Keeping.removeNow (hs : TableInv s) (hc : release c ∈ s.trace) :
    Keeping l (some c) s (s.eraseConn c) ∧ (s.eraseConn c).table c = none := by
  have hsmall : c < 2 ^ 31 := Nat.lt_of_le_of_lt (hs.fresh c (Or.inr hc)) hs.small
  have hkey : tableKey c = c :=
    (tableKey_eq_iff (Nat.lt_trans hsmall (by decide))).mpr (Or.inl hsmall)
  have hnone : (s.eraseConn c).table c = none := by
    rw [eraseConn, hkey]
    exact if_pos rfl
  have hother : ∀ id, id ≠ c → (s.eraseConn c).table id = s.table id := by
    intro id hid
    rw [eraseConn, hkey]
    exact if_neg hid
  refine ⟨⟨rfl, rfl, fun _ => Iff.rfl, fun _ _ hr => hr, ?_, ?_, fun _ _ _ _ hq => hq⟩, hnone⟩
  · intro _
    refine ⟨?_, ?_, hs.removed, hs.onlyBase, hs.fresh, hs.small, hs.serverClosed⟩
    · intro id x hx
      by_cases hid : id = c
      · rw [hid, hnone] at hx
        cases hx
      · rw [hother id hid] at hx
        exact hs.own id x hx
    · intro id hcreated hr
      have hid : id ≠ c := by
        rintro rfl
        exact hr hc
      rw [hother id hid]
      exact hs.listed id hcreated hr
  · intro _ id hid ho
    have hidc : id ≠ c := fun heq => hid (congrArg some heq)
    exact ⟨ho.1, hother id hidc ▸ ho.2⟩

theorem Keeping.removeLater (hc : release c ∈ s.trace) :
    Keeping l (some c) s (s.pushTask baseLoop (.removeConnection c)) ∧
      c ∈ (s.pushTask baseLoop (.removeConnection c)).removals baseLoop := by
  have hbase : (s.pushTask baseLoop (.removeConnection c)).removals baseLoop =
      s.removals baseLoop ++ [c] := by
    simp [removals, pushTask, setLoop, Functor.removed]
  have hother : ∀ l, l ≠ baseLoop →
      (s.pushTask baseLoop (.removeConnection c)).removals l = s.removals l := by
    intro l hl
    simp [removals, pushTask, setLoop, hl]
  have hmem : ∀ id, id ∉ s.removals baseLoop ++ [c] → id ∉ s.removals baseLoop :=
    fun id h hid => h (mem_append_left _ hid)
  refine ⟨⟨rfl, rfl, fun _ => Iff.rfl, fun _ _ hr => hr, ?_, ?_, ?_⟩, ?_⟩
  · intro hs
    refine ⟨hs.own, hs.listed, ?_, ?_, hs.fresh, hs.small, hs.serverClosed⟩
    · intro id hid
      rw [hbase] at hid
      rcases mem_append.mp hid with hid | hid
      · exact hs.removed id hid
      · rw [mem_singleton.mp hid]
        exact hc
    · intro l' hl'
      rw [hother l' hl']
      exact hs.onlyBase l' hl'
  · intro _ id _ ho
    rw [Owed, Unqueued, hbase] at ho
    exact ⟨⟨ho.1.1, hmem id ho.1.2⟩, ho.2⟩
  · intro _ _ id _ hq
    rw [Unqueued, hbase] at hq
    exact ⟨hq.1, hmem id hq.2⟩
  · rw [hbase]
    exact mem_append_right _ mem_cons_self

theorem serverClosedCallback_keeping (h : Keeping l (some c) s s')
    (hc : Event.release c ∈ s'.trace) :
    wp (serverClosedCallback l c) (fun _ s'' => Keeping l none s s'') (fun _ => True) s' := by
  rw [serverClosedCallback, wp_bind, wp_get, wp_whenever]
  constructor
  · intro _
    have hlog : Keeping l none s' (s'.log (.serverClosed c)) :=
      Keeping.log (fun _ => nofun) (fun _ => nofun)
    have h1 := h.trans hlog
    have hc1 : Event.release c ∈ (s'.log (.serverClosed c)).trace := mem_append_left _ hc
    rw [wp_bind, logEvent, wp_modify, removeConnection, wp_ite, removeConnectionInLoop, wp_modify,
      wp_modify]
    constructor
    · intro hl
      refine h1.settle ?_ rfl rfl rfl ?_
      · intro hs
        exact (Keeping.removeNow hs hc1).1
      · intro hs
        exact ⟨fun ho => ho.2 (Keeping.removeNow (l := l) hs hc1).2, fun hne => absurd hl hne⟩
    · intro _
      have hremove := Keeping.removeLater (l := l) hc1
      refine h1.settle (fun _ => hremove.1) rfl rfl rfl ?_
      intro _
      exact ⟨fun ho => ho.1.2 hremove.2, fun _ hq => hq.2 hremove.2⟩
  · intro hflag
    -- the callback is set as long as the invariant holds
    have hinv : ¬ TableInv s := fun hs => hflag ((h.inv hs).serverClosed c)
    exact ⟨h.connId, h.creating, h.created, h.frozen, fun hs => absurd hs hinv,
      fun hs => absurd hs hinv, fun hs => absurd hs hinv⟩

def releasable (d : ConnId) (b : Before) : Bool := b.known && notCreating d b

theorem keeping_rule (l : LoopId) :
    ReleaseRule (fun d b => releasable d b = true) (keeping l) Releasable l where
  code := keeping_code l
  safe_of_ok := by
    intro d s hok
    simpa [releasable, notCreating, before, Releasable] using hok
  safe_ret := by
    intro d s s' h hsafe
    rw [Releasable, h.connId, h.creating]
    exact hsafe
  release := by
    intro user d s huser hs hsafe ha
    have hclose : Respects (guarded (fun d b => releasable d b = true) (keeping l))
        (closeConnection user l d) :=
      closeConnection_respects ((keeping_code l).guarded_allowsQuiet d).small
        ((keeping_code l).guarded_allowsOn d) huser
    have hlog : Keeping l (some d) s (s.log (.release d)) := Keeping.logRelease hsafe
    rw [releaseInLoop, wp_bind, logEvent, wp_modify, releaseBody, wp_bind]
    refine wp_mono (hclose (s.log (.release d))) ?_ (fun _ _ _ => trivial)
    intro _ s' hr
    by_cases ha' : Admitted (fun d b => releasable d b = true) s'.trace
    · have hkeep := hlog.trans (hr.2 hs (fun _ => trivial) ha')
      have hmem : release d ∈ s'.trace :=
        hr.1.1.subset (mem_append_right _ mem_cons_self)
      exact wp_mono (serverClosedCallback_keeping hkeep hmem) (fun _ _ h _ => h)
        (fun _ _ _ => trivial)
    · -- the condition is broken, and stays so
      exact wp_mono (grows_serverClosedCallback l d s')
        (fun _ _ hg ha'' => absurd (ha''.mono hg) ha') (fun _ _ _ => trivial)

end keeping

/-! ## Steps of a thread -/

abbrev Orderly (trace : List Event) : Prop := Admitted (fun d b => releasable d b = true) trace

abbrev tableStep (l : LoopId) : Guarantee World :=
  guardedStep (fun d b => releasable d b = true) (keeping l)

variable {rest : List Functor}

section steps

variable {env : Env} {depth : Nat} {self : LoopId} {s s' : World} {c : ConnId}

theorem keeping_pop {f : Functor} (hf : f.removed = none)
    (htasks : (s.loops self).tasks = f :: rest) :
    Keeping self none s (s.setLoop self { s.loops self with tasks := rest }) := by
  refine Keeping.of_eq rfl rfl rfl ?_ (fun _ => rfl) (fun _ => Iff.rfl) (fun _ => Iff.rfl)
  intro l
  by_cases hl : l = self
  · subst hl
    simp [removals, setLoop, htasks, hf]
  · simp [removals, setLoop, hl]

theorem thread_tableStep (step : ThreadStep)
    (hfront : ∀ f rest, step = .task → (s.loops self).tasks = f :: rest → f.removed = none) :
    wp (step.exec env depth self) (fun _ s' => (tableStep self).ret s s')
      (fun s' => (tableStep self).fault s s') s := by
  have R := keeping_rule self
  have huser := R.callback_guarded env depth
  cases step with
  | event c revents =>
    rw [ThreadStep.exec, wp_bind, wp_get, wp_whenever]
    refine ⟨fun _ => ?_, fun _ => (tableStep self).refl s⟩
    have hlog : Respects (tableStep self) (logEvent (.dispatch (.conn c))) :=
      respects_assuming (outsStep_of_outs (outs_logEvent _))
        (respects_modify fun _ => Keeping.log (fun _ => nofun) (fun _ => nofun))
    have hrun : Respects (tableStep self)
        (channelHandleEvent (callback env self depth) self env c revents) :=
      respects_bind hlog fun _ => R.handleRevents_step huser env revents
    exact hrun s
  | task =>
    rw [ThreadStep.exec, wp_bind, wp_get]
    split
    · exact (wp_pure _ _ _ _).mpr ((tableStep self).refl s)
    · next f rest htasks =>
      have hf := hfront f rest rfl htasks
      rw [wp_bind, wp_set]
      apply (R.runFunctor_step huser hf).after
      exact ⟨⟨prefix_rfl, id⟩, fun _ _ _ => keeping_pop hf htasks⟩
  | tick => exact R.onTime_step huser s

theorem TableInv.pop (hs : TableInv s) (htasks : (s.loops self).tasks = .removeConnection c :: rest) :
    self = baseLoop ∧ release c ∈ s.trace ∧
      TableInv (s.setLoop self { s.loops self with tasks := rest }) ∧
      s.removals baseLoop =
        c :: (s.setLoop self { s.loops self with tasks := rest }).removals baseLoop := by
  have hself : s.removals self = c :: rest.filterMap Functor.removed := by
    simp [removals, htasks, Functor.removed]
  have hbase : self = baseLoop := by
    by_contra hne
    rw [hs.onlyBase self hne] at hself
    cases hself
  subst hbase
  have hrest : (s.setLoop baseLoop { s.loops baseLoop with tasks := rest }).removals baseLoop =
      rest.filterMap Functor.removed := by
    simp [removals, setLoop]
  refine ⟨rfl, hs.removed c (hself ▸ mem_cons_self), ?_, by rw [hrest, hself]⟩
  refine ⟨hs.own, hs.listed, ?_, ?_, hs.fresh, hs.small, hs.serverClosed⟩
  · intro id hid
    rw [hrest] at hid
    exact hs.removed id (hself ▸ mem_cons_of_mem c hid)
  · intro l hl
    have hsame : (s.setLoop baseLoop { s.loops baseLoop with tasks := rest }).removals l =
        s.removals l := by
      simp [removals, setLoop, hl]
    rw [hsame]
    exact hs.onlyBase l hl

structure Settled (s : World) : Prop where
  outs : Outs s
  table : Orderly s.trace → s.connId < 2 ^ 31 → TableInv s ∧ s.creating = none ∧ ∀ id, ¬ Owed s id

theorem Settled.step {l : LoopId} (h : Settled s) (hr : (tableStep l).ret s s') : Settled s' := by
  refine ⟨hr.1.2 h.outs, fun ha hsmall => ?_⟩
  have hk : Keeping l none s s' := hr.2 h.outs (fun _ => trivial) ha
  obtain ⟨hs, hcreating, howed⟩ := h.table (ha.mono hr.1.1) (hk.connId ▸ hsmall)
  exact ⟨hk.inv hs, hk.creating.trans hcreating, fun id ho => howed id (hk.owed hs id nofun ho)⟩

theorem Settled.removal (h : Settled s)
    (htasks : (s.loops self).tasks = .removeConnection c :: rest) :
    Settled ((s.setLoop self { s.loops self with tasks := rest }).eraseConn c) := by
  refine ⟨h.outs, fun ha hsmall => ?_⟩
  obtain ⟨hs, hcreating, howed⟩ := h.table ha hsmall
  obtain ⟨_, hc, hs1, hremovals⟩ := hs.pop htasks
  obtain ⟨hk, hnone⟩ := Keeping.removeNow (l := baseLoop) hs1 hc
  refine ⟨hk.inv hs1, hcreating, fun id ho => ?_⟩
  by_cases hid : id = c
  · subst hid
    exact ho.2 hnone
  · have hne : some id ≠ some c := fun heq => hid (Option.some.inj heq)
    obtain ⟨⟨hreleased, hqueued⟩, htable⟩ := hk.owed hs1 id hne ho
    refine howed id ⟨⟨hreleased, ?_⟩, htable⟩
    rw [hremovals, mem_cons, not_or]
    exact ⟨hid, hqueued⟩

theorem wp_thread (step : ThreadStep) {Q : World → Prop}
    (hstep : ∀ s', (tableStep self).ret s s' → Q s')
    (hremoval : ∀ c rest, (s.loops self).tasks = .removeConnection c :: rest →
      Q ((s.setLoop self { s.loops self with tasks := rest }).eraseConn c)) :
    wp (step.exec env depth self) (fun _ s' => Q s') (fun _ => True) s := by
  by_cases hfront : ∀ f rest, step = .task → (s.loops self).tasks = f :: rest → f.removed = none
  · exact wp_mono (thread_tableStep step hfront) (fun _ s' hr => hstep s' hr) (fun _ _ => trivial)
  · push Not at hfront
    obtain ⟨f, rest, rfl, htasks, hf⟩ := hfront
    cases f with
    | removeConnection c =>
      rw [ThreadStep.exec, wp_bind, wp_get]
      simp only [htasks]
      rw [wp_bind, wp_set, runFunctor, removeConnectionInLoop, wp_modify]
      exact hremoval c rest htasks
    | _ => exact absurd rfl hf

theorem thread_settled (step : ThreadStep) (h : Settled s) :
    wp (step.exec env depth self) (fun _ s' => Settled s') (fun _ => True) s :=
  wp_thread step (fun _ hr => h.step hr) fun _ _ htasks => h.removal htasks

end steps

/-! ## `NewConnection` -/

structure Window (c : ConnId) (s : World) : Prop where
  outs : Outs s
  table : Orderly s.trace → s.connId < 2 ^ 31 →
    TableInv s ∧ (∀ id, ¬ Owed s id) ∧ s.connId = c ∧ created c ∉ s.trace ∧
      ((s.creating = some c ∧ release c ∉ s.trace) ∨ (s.creating = none ∧ ¬ Unqueued s c))

section window

variable {cfg : Config} {env : Env} {depth : Nat} {self l : LoopId} {s s' : World} {c : ConnId}
  {user : UserCode → Code}

theorem Settled.construct {fd idx : Nat} (h : Settled s) (hc : c = s.connId + 1)
    (hs' : s' = { s.setConn c (Conn.new l fd { cfg.callbacks with serverClosed := true }) with
      connId := c, nextLoopIdx := idx, creating := if l = baseLoop then some c else none }) :
    Window c s' := by
  have htrace : s'.trace = s.trace := by rw [hs']; rfl
  have hconnId : s'.connId = c := by rw [hs']
  have hconns : s'.conns = (s.setConn c
      (Conn.new l fd { cfg.callbacks with serverClosed := true })).conns := by rw [hs']
  have hremovals : ∀ l, s'.removals l = s.removals l := by
    intro l'
    rw [hs']
    rfl
  have htable : s'.table = s.table := by rw [hs']; rfl
  refine ⟨outs_newConn h.outs hconns, ?_⟩
  rw [htrace, hconnId]
  intro ha hsmall
  have hlt : s.connId < c := hc ▸ Nat.lt_succ_self _
  obtain ⟨hs, _, howed⟩ := h.table ha (Nat.lt_trans hlt hsmall)
  -- the id is new, so nothing has happened to it
  have hnew : ¬ c ≤ s.connId := Nat.not_le_of_lt hlt
  have hcreated : created c ∉ s.trace := fun hmem => hnew (hs.fresh c (Or.inl hmem))
  have hreleased : release c ∉ s.trace := fun hmem => hnew (hs.fresh c (Or.inr hmem))
  refine ⟨?_, ?_, rfl, hcreated, ?_⟩
  · refine ⟨?_, ?_, ?_, ?_, ?_, by rw [hconnId]; exact hsmall, ?_⟩
    · rw [htable, htrace]
      exact hs.own
    · rw [htable, htrace]
      exact hs.listed
    · rw [hremovals, htrace]
      exact hs.removed
    · intro l' hl'
      rw [hremovals]
      exact hs.onlyBase l' hl'
    · intro id hid
      rw [htrace] at hid
      rw [hconnId]
      exact Nat.le_of_lt (Nat.lt_of_le_of_lt (hs.fresh id hid) hlt)
    · intro id
      rw [hconns]
      by_cases hid : id = c
      · subst hid
        rw [setConn_conns_self]
        rfl
      · rw [setConn_conns_ne s _ hid]
        exact hs.serverClosed id
  · intro id ho
    rw [Owed, Unqueued, htrace, hremovals, htable] at ho
    exact howed id ho
  · by_cases hl : l = baseLoop
    · refine Or.inl ⟨?_, hreleased⟩
      rw [hs', if_pos hl]
    · refine Or.inr ⟨?_, fun hq => hreleased (htrace ▸ hq.1)⟩
      rw [hs', if_neg hl]

theorem Window.step (h : Window c s) (hr : (tableStep l).ret s s')
    (hl : l ≠ baseLoop ∨ s.creating ≠ none) : Window c s' := by
  refine ⟨hr.1.2 h.outs, fun ha hsmall => ?_⟩
  have hk : Keeping l none s s' := hr.2 h.outs (fun _ => trivial) ha
  obtain ⟨hs, howed, hconnId, hcreated, hstate⟩ := h.table (ha.mono hr.1.1) (hk.connId ▸ hsmall)
  refine ⟨hk.inv hs, fun id ho => howed id (hk.owed hs id nofun ho), hk.connId.trans hconnId,
    fun hmem => hcreated ((hk.created c).mp hmem), ?_⟩
  rcases hstate with ⟨hcreating, hreleased⟩ | ⟨hcreating, hqueued⟩
  · exact Or.inl ⟨hk.creating.trans hcreating, fun hr => hreleased (hk.frozen c hcreating hr)⟩
  · have hne : l ≠ baseLoop := hl.resolve_right fun h => h hcreating
    exact Or.inr ⟨hk.creating.trans hcreating, fun hq => hqueued (hk.queued hs hne c nofun hq)⟩

theorem runInLoopOf_quiet {f : Functor} (hf : f.conn = c) (hremoved : f.removed = none)
    (hloop : (s.conns c).loop ≠ self) :
    wp (runInLoopOf user self c f) (fun _ s' => Quiet c s s') (fun s' => Quiet c s s') s := by
  rw [runInLoopOf, wp_bind, wp_get, runInLoop, wp_ite]
  refine ⟨fun heq => absurd heq.symm hloop, fun _ => ?_⟩
  subst hf
  exact quiet_pushTask (s.conns f.conn).loop hremoved s

theorem startConnection_quiet (hloop : (s.conns c).loop ≠ self) :
    wp (startConnection cfg user self c) (fun _ s' => Quiet c s s') (fun s' => Quiet c s s') s := by
  have htimeout : wp (enableTimeout cfg user self c) (fun _ s' => Quiet c s s')
      (fun s' => Quiet c s s') s := by
    unfold enableTimeout
    split
    · exact runInLoopOf_quiet rfl rfl hloop
    · exact (wp_pure _ _ _ _).mpr (Quiet.refl c s)
  rw [startConnection, wp_bind]
  apply wp_imp htimeout _
  intro _ s1 h1
  have hloop1 : (s1.conns c).loop ≠ self := by
    rw [(h1.conns c).loop]
    exact hloop
  exact wp_mono (runInLoopOf_quiet rfl rfl hloop1) (fun _ _ h => h1.trans h) (fun _ h => h1.trans h)

theorem startConnection_tableStep (huser : ∀ uc, Respects (guarded
      (fun d b => releasable d b = true) (keeping self)) (user uc)) :
    Respects (tableStep self) (startConnection cfg user self c) := by
  have R := keeping_rule self
  have hrun : ∀ f : Functor, f.removed = none →
      Respects (tableStep self) (runInLoopOf user self c f) :=
    fun f hf =>
      runInLoopOf_respects (R.step_allowsQuiet f.conn).small hf (R.runFunctor_step huser hf) c
  apply respects_bind
  · unfold enableTimeout
    split
    · exact hrun _ rfl
    · exact respects_pure ()
  · intro _
    exact hrun _ rfl

theorem startConnection_window (h : Window c s)
    (hloop : s.creating ≠ none ∨ (s.conns c).loop ≠ baseLoop) :
    wp (startConnection cfg (callback env baseLoop depth) baseLoop c) (fun _ s' => Window c s')
      (fun _ => True) s := by
  rcases hloop with hcreating | hloop
  · have huser := (keeping_rule baseLoop).callback_guarded env depth
    exact wp_mono (startConnection_tableStep huser s)
      (fun _ _ hr => h.step hr (Or.inr hcreating)) (fun _ _ => trivial)
  · refine wp_mono (startConnection_quiet hloop) ?_ (fun _ _ => trivial)
    intro _ s' hquiet
    have hr : (tableStep 1).ret s s' :=
      ((keeping_rule 1).step_allowsQuiet c).ret s s' hquiet
    exact h.step hr (Or.inl (by decide))

theorem thread_window (i : Nat) (step : ThreadStep) (h : Window c s) :
    wp (step.exec env depth (i + 1)) (fun _ s' => Window c s') (fun _ => True) s := by
  have hsub : i + 1 ≠ baseLoop := Nat.succ_ne_zero i
  apply wp_thread
  · intro s' hr
    exact h.step hr (Or.inl hsub)
  · intro d rest htasks
    refine ⟨h.outs, fun ha hsmall => ?_⟩
    -- only the base loop has removals in its queue
    exact absurd ((h.table ha hsmall).1.pop htasks).1 hsub

theorem insertConnection_settled (h : Window c s) :
    wp (insertConnection c) (fun _ s' => Settled s') (fun _ => True) s := by
  rw [insertConnection, wp_bind, wp_modify, logEvent, wp_modify]
  refine ⟨h.outs, fun ha hsmall => ?_⟩
  obtain ⟨hs, howed, hconnId, hcreated, hstate⟩ :=
    h.table (ha.mono (prefix_append _ _)) hsmall
  have hnone : s.table c = none := by
    cases hx : s.table c with
    | none => rfl
    | some x => exact absurd (hs.own c x hx).2 hcreated
  -- the id has not been released, or a sub-loop has released it and the removal
  -- waits in the queue of the base loop, behind this insert
  have hunqueued : ¬ Unqueued s c := by
    rcases hstate with ⟨_, hreleased⟩ | ⟨_, hqueued⟩
    · exact fun hq => hreleased hq.1
    · exact hqueued
  have hrelease : ∀ id, release id ∈ s.trace ++ [.created c] ↔ release id ∈ s.trace :=
    fun id => mem_concat_of_ne (by intro h; cases h)
  have htable : ∀ id, (if id = s.connId then some ((s.table id).getD c) else s.table id) =
      if id = c then some c else s.table id := by
    intro id
    rw [hconnId]
    by_cases hid : id = c
    · rw [if_pos hid, if_pos hid, hid, hnone]
      rfl
    · rw [if_neg hid, if_neg hid]
  refine ⟨⟨?_, ?_, ?_, hs.onlyBase, ?_, hs.small, hs.serverClosed⟩, rfl, ?_⟩
  · intro id x hx
    replace hx := (htable id).symm.trans hx
    split at hx
    · next hid =>
      cases hx
      exact ⟨hid.symm, hid ▸ mem_append_right _ mem_cons_self⟩
    · obtain ⟨hxid, hmem⟩ := hs.own id x hx
      exact ⟨hxid, mem_append_left _ hmem⟩
  · intro id hmem hr
    refine (htable id).trans ?_
    by_cases hid : id = c
    · rw [if_pos hid, hid]
    · rw [if_neg hid]
      apply hs.listed id
      · rcases mem_append.mp hmem with hmem | hmem
        · exact hmem
        · cases mem_singleton.mp hmem
          exact absurd rfl hid
      · exact fun h => hr ((hrelease id).mpr h)
  · intro id hid
    exact (hrelease id).mpr (hs.removed id hid)
  · intro id hid
    rcases hid with hmem | hr
    · rcases mem_append.mp hmem with hmem | hmem
      · exact hs.fresh id (Or.inl hmem)
      · cases mem_singleton.mp hmem
        exact Nat.le_of_eq hconnId.symm
    · exact hs.fresh id (Or.inr ((hrelease id).mp hr))
  · rintro id ⟨⟨hr, hqueued⟩, htab⟩
    have hq : Unqueued s id := ⟨(hrelease id).mp hr, hqueued⟩
    by_cases hid : id = c
    · exact hunqueued (hid ▸ hq)
    · refine howed id ⟨hq, fun hn => htab ?_⟩
      refine (htable id).trans ?_
      rw [if_neg hid, hn]

theorem accept_settled (fd : Nat) (meanwhile : List (Nat × ThreadStep)) (h : Settled s) :
    wp ((ServerStep.accept fd meanwhile).exec cfg env depth) (fun _ s' => Settled s')
      (fun _ => True) s := by
  rw [ServerStep.exec, wp_bind]
  apply wp_mono (constructConnection_spec cfg fd s) _ (fun _ h => h.elim)
  rintro c s1 ⟨hc, l, idx, hs1⟩
  have hloop : s1.creating ≠ none ∨ (s1.conns c).loop ≠ baseLoop := by
    by_cases hl : l = baseLoop
    · left
      rw [hs1, if_pos hl]
      exact Option.some_ne_none _
    · right
      rw [hs1]
      show ((s.setConn c _).conns c).loop ≠ baseLoop
      rw [setConn_conns_self]
      exact hl
  rw [wp_bind]
  apply wp_imp (startConnection_window (h.construct hc hs1) hloop) _
  intro _ s2 h2
  have hmeanwhile : wp (runAll (fun sub : Nat × ThreadStep =>
      sub.2.exec env depth (sub.1 + 1)) meanwhile) (fun _ s' => Window c s') (fun _ => True) s2 :=
    wp_runAll (fun sub _ h => thread_window sub.1 sub.2 h) meanwhile s2 h2
  rw [wp_bind]
  apply wp_imp hmeanwhile _
  intro _ s3 h3
  exact insertConnection_settled h3

end window

/-! ## Runs -/

theorem server_settled {cfg : Config} {env : Env} {depth : Nat} (step : ServerStep) {s : World}
    (h : Settled s) : wp (step.exec cfg env depth) (fun _ s' => Settled s') (fun _ => True) s := by
  cases step with
  | thread self step => exact thread_settled step h
  | accept fd meanwhile => exact accept_settled fd meanwhile h

theorem initial_removals (cfg : Config) (l : LoopId) : (World.initial cfg).removals l = [] := by
  unfold removals initial
  dsimp only
  split <;> rfl

theorem initial_settled (cfg : Config) : Settled (World.initial cfg.atStart) where
  outs := fun _ => Buffer.fresh_wellFormed
  table := by
    intro _ _
    have htrace : ∀ e, e ∉ (initial cfg.atStart).trace := fun _ => not_mem_nil
    refine ⟨⟨nofun, fun id h => absurd h (htrace _), ?_, ?_, ?_, ?_, ?_⟩, rfl,
      fun id ho => htrace _ ho.1.1⟩
    · intro id hid
      rw [initial_removals] at hid
      cases hid
    · intro l _
      exact initial_removals _ l
    · intro id hid
      exact absurd hid (not_or.mpr ⟨htrace _, htrace _⟩)
    · exact Nat.two_pow_pos 31
    · exact fun _ => rfl

theorem initial_known (cfg : Config) : Known 0 (World.initial cfg.atStart) where
  connId := rfl
  loops := by
    intro l
    unfold initial
    dsimp only
    split
    · exact ⟨nofun, nofun⟩
    · exact ⟨nofun, nofun⟩
  began := fun _ _ _ hmem => by cases hmem

theorem tableExact_of_inv {s : World} (hs : TableInv s) (howed : ∀ id, ¬ Owed s id)
    (hidle : (s.loops baseLoop).tasks = []) : TableExact s := by
  have hremovals : s.removals baseLoop = [] := by
    rw [removals, hidle]
    rfl
  intro id x
  constructor
  · intro hx
    obtain ⟨hxid, hcreated⟩ := hs.own id x hx
    refine ⟨hxid, hcreated, fun hr => howed id ⟨⟨hr, ?_⟩, ?_⟩⟩
    · rw [hremovals]
      exact not_mem_nil
    · rw [hx]
      exact Option.some_ne_none _
  · rintro ⟨rfl, hcreated, hr⟩
    exact hs.listed x hcreated hr

/-- **The table is exact.** In every run of a server with any number of
    sub-loops, for every peer and every user program: if no operation that may
    release a connection begins inside of its own `NewConnection`, other than a
    `ShutdownInLoop` that finds output pending, and fewer than `2^31` ids have
    been given out, then the table is exact whenever the base loop has no
    queued task. -/
theorem table_exact_of_admitted (cfg : Config) (env : Env) (depth : Nat) (steps : List ServerStep)
    (hrun : serverReturns cfg env depth steps = true)
    (ha : Admitted (fun d b => notCreating d b = true) (afterServer cfg env depth steps).trace)
    (hsmall : (afterServer cfg env depth steps).connId < 2 ^ 31)
    (hidle : ((afterServer cfg env depth steps).loops baseLoop).tasks = []) :
    TableExact (afterServer cfg env depth steps) := by
  have hwp : wp (runServer cfg env depth steps) (fun _ s' => Settled s' ∧ ∃ n, Known n s')
      (fun _ => True ∧ True) (World.initial cfg.atStart) :=
    wp_and (wp_runAll (fun step _ h => server_settled step h) steps _ (initial_settled cfg))
      (wp_runAll (fun step _ h => server_known env depth step h) steps _ ⟨0, initial_known cfg⟩)
  obtain ⟨hsettled, n, hknown⟩ := stateAfter_of_returns hwp hrun
  -- all operations were on known connections, so the condition of the rule is met
  have horderly : Orderly (afterServer cfg env depth steps).trace := by
    intro op d b hmem
    refine (ha op d b hmem).imp_left fun hb => ?_
    show (b.known && notCreating d b) = true
    rw [hknown.began op d b hmem]
    exact hb
  obtain ⟨hs, _, howed⟩ := hsettled.table horderly hsmall
  exact tableExact_of_inv hs howed hidle

def Env.hangUp : Env where
  recv := fun _ => none
  send := fun _ => none
  accept := fun _ => none
  user := fun _ uc => match uc with
    | .connected c => [.shutdown c]
    | _ => []

def Config.pooled : Config := { Config.single with threadCount := 1 }

/-- With a sub-loop: the connection is released before it is inserted, and its
    removal waits in the queue of the base loop. -/
theorem table_exact_sub_loop : release 1 ∈ (afterServer .pooled .hangUp 2
      [.accept 7 [(0, .task)], .thread baseLoop .task]).trace ∧
    TableExact (afterServer .pooled .hangUp 2
      [.accept 7 [(0, .task)], .thread baseLoop .task]) := by
  refine ⟨by decide +kernel, ?_⟩
  exact table_exact_of_admitted .pooled .hangUp 2 _ (by decide +kernel) (by decide +kernel)
    (by decide +kernel) (by decide +kernel)

/-- Without sub-loops: the connected callback releases the connection inside of
    `NewConnection`, which then inserts it. -/
theorem stale_entry : serverReturns .single .hangUp 2 [.accept 7 []] = true ∧
    ((afterServer .single .hangUp 2 [.accept 7 []]).loops baseLoop).tasks = [] ∧
    ¬ TableExact (afterServer .single .hangUp 2 [.accept 7 []]) := by
  refine ⟨by decide +kernel, by decide +kernel, fun h => ?_⟩
  have hentry : (afterServer .single .hangUp 2 [.accept 7 []]).table 1 = some 1 := by
    decide +kernel
  have hreleased : release 1 ∈ (afterServer .single .hangUp 2 [.accept 7 []]).trace := by
    decide +kernel
  exact ((h 1 1).mp hentry).2.2 hreleased

/-! ## The id range -/

theorem eraseConn_table (s : World) (c id : ConnId) :
    (s.eraseConn c).table id = if id = tableKey c then none else s.table id := rfl

/-- **The entry of a connection is removed exactly if its id survives an `int`.** For
    every `uint64_t` id and every table with the connection in it,
    `RemoveConnectionInLoop` erases the entry of the connection and no other exactly
    if the id is less than `2^31`, or one of the last `2^31` ids. -/
theorem remove_connection_exact_iff (s : World) (c : ConnId) (hc : c < 2 ^ 64)
    (hin : s.table c = some c) :
    (∃ s', removeConnectionInLoop c s = .ok () s' ∧
      ∀ id, s'.table id = if id = c then none else s.table id) ↔
    c < 2 ^ 31 ∨ 2 ^ 64 - 2 ^ 31 ≤ c := by
  rw [← tableKey_eq_iff hc]
  constructor
  · intro h
    obtain ⟨s', hrun, htable⟩ := h
    cases hrun
    have hself := htable c
    rw [if_pos rfl] at hself
    -- the entry of the connection is gone only if it was looked up under its id
    by_contra hne
    have hkept : (s.eraseConn c).table c = s.table c :=
      (eraseConn_table s c c).trans (if_neg (Ne.symm hne))
    have hentry := hkept.symm.trans hself
    rw [hin] at hentry
    cases hentry
  · intro hkey
    refine ⟨s.eraseConn c, rfl, fun id => ?_⟩
    rw [eraseConn_table, hkey]

def longRunning (n : Nat) : World :=
  { World.initial { Config.single with connId := n } with
    table := fun i => if i = 5 then some 5 else none }

def nextInserted (n : Nat) : World :=
  stateAfter (newConnection Config.single (callback Env.reset baseLoop 2) baseLoop 7)
    (longRunning n)

theorem remove_connection_exact_last_int :
    (nextInserted (2 ^ 31 - 2)).table (2 ^ 31 - 1) = some (2 ^ 31 - 1) ∧
    ∃ s', removeConnectionInLoop (2 ^ 31 - 1) (nextInserted (2 ^ 31 - 2)) = .ok () s' ∧
      ∀ id, s'.table id =
        if id = 2 ^ 31 - 1 then none else (nextInserted (2 ^ 31 - 2)).table id :=
  have hin : (nextInserted (2 ^ 31 - 2)).table (2 ^ 31 - 1) = some (2 ^ 31 - 1) := by
    decide +kernel
  ⟨hin, (remove_connection_exact_iff _ _ (by decide) hin).mpr (Or.inl (by decide))⟩

/-- The id `2^31` is not found, and the id `2^32 + 5` is taken for 5: the removal
    erases the entry of another connection and leaves its own. -/
theorem remove_connection_wrong_entry :
    ((nextInserted (2 ^ 31 - 1)).table (2 ^ 31) = some (2 ^ 31) ∧
      (stateAfter (removeConnectionInLoop (2 ^ 31)) (nextInserted (2 ^ 31 - 1))).table (2 ^ 31) =
        some (2 ^ 31)) ∧
    (nextInserted (2 ^ 32 + 4)).table (2 ^ 32 + 5) = some (2 ^ 32 + 5) ∧
    (nextInserted (2 ^ 32 + 4)).table 5 = some 5 ∧
    (stateAfter (removeConnectionInLoop (2 ^ 32 + 5)) (nextInserted (2 ^ 32 + 4))).table
      (2 ^ 32 + 5) = some (2 ^ 32 + 5) ∧
    (stateAfter (removeConnectionInLoop (2 ^ 32 + 5)) (nextInserted (2 ^ 32 + 4))).table 5 =
      none := by
  decide +kernel

end CallLesson.Reactor
