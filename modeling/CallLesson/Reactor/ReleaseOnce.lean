import CallLesson.Reactor.Frames

/-! # A connection is released once, if it is released by one operation at a time

    `ReleaseInLoop` is reached from `HandleWrite`, `HandleClose`,
    `HandleError`, `ShutdownInLoop` and the idle timer, and none of them looks
    at `_statu` first, as `SendInLoop` does. So a second release follows as
    soon as one of them begins on a released connection, or begins inside of
    another one and releases first.

    The comment in `Channel::HandleEvent` asks for the operations that may
    release a connection to be handled one at a time. The code does not
    enforce it. -/

namespace CallLesson.Reactor

open Exec Event

/-! ## Statements -/

def Alone (op : ReleaseOp) (b : Before) : Prop :=
  b.statu ≠ .disconnected ∧ (b.busy = 0 ∨ (op = .shutdownInLoop ∧ b.outPending = true))

def Disciplined (c : ConnId) (trace : List Event) : Prop :=
  ∀ op b, began op c b ∈ trace → Alone op b

instance (op : ReleaseOp) (b : Before) : Decidable (Alone op b) :=
  inferInstanceAs (Decidable (_ ∧ _))

def beganAlone (c : ConnId) : Event → Bool
  | .began op d b => d ≠ c || Alone op b
  | _ => true

open List World

theorem disciplined_iff (c : ConnId) (trace : List Event) :
    trace.all (beganAlone c) = true ↔ Disciplined c trace := by
  rw [all_eq_true]
  refine ⟨fun h op b hmem => ?_, fun h e hmem => ?_⟩
  · simpa [beganAlone] using h _ hmem
  · cases e with
    | began op d b =>
      by_cases hd : d = c
      · subst hd
        simpa [beganAlone] using h op b hmem
      · simp [beganAlone, hd]
    | _ => rfl

instance (c : ConnId) (trace : List Event) : Decidable (Disciplined c trace) :=
  decidable_of_iff _ (disciplined_iff c trace)

def Final (c : ConnId) (trace : List Event) : Prop :=
  ∀ pre post, trace = pre ++ statu c .disconnected :: post → ∀ st, statu c st ∉ post

variable {trace : List Event} {d c : ConnId} {e : Event}

theorem Disciplined.mono {trace' : List Event} (h : trace <+: trace') (hd : Disciplined c trace') :
    Disciplined c trace :=
  fun op b hmem => hd op b (h.subset hmem)

theorem final_of_not_mem (h : statu c .disconnected ∉ trace) : Final c trace := by
  intro pre post heq
  exact absurd (heq ▸ mem_append_right pre mem_cons_self) h

theorem final_concat (h : statu c .disconnected ∉ trace) :
    Final c (trace ++ [.statu c .disconnected]) := by
  intro pre post heq st hmem
  rcases eq_nil_or_concat post with rfl | ⟨post', e, rfl⟩
  · cases hmem
  · rw [concat_eq_append, ← cons_append, ← append_assoc] at heq
    have htrace := append_inj_left' heq rfl
    exact h (htrace ▸ mem_append_right pre mem_cons_self)

theorem Final.append {es : List Event} (h : Final c trace) (hes : ∀ st, statu c st ∉ es) :
    Final c (trace ++ es) := by
  intro pre post heq st hmem
  rcases append_eq_append_iff.mp heq with ⟨mid, hpre, hes'⟩ | ⟨mid, htrace, hrest⟩
  · -- the assignment lies in the new events
    exact hes .disconnected (hes' ▸ mem_append_right mid mem_cons_self)
  · cases mid with
    | nil =>
      rw [nil_append] at hrest
      exact hes .disconnected (hrest ▸ mem_cons_self)
    | cons e mid =>
      obtain ⟨rfl, rfl⟩ : statu c .disconnected = e ∧ post = mid ++ es := by
        simpa using hrest
      rcases mem_append.mp hmem with hmem | hmem
      · exact h pre mid htrace st hmem
      · exact hes st hmem

/-! ## The invariant -/

structure Once (c : ConnId) (s : World) : Prop where
  out : Buffer.WellFormed (s.conns c).outBuffer
  final : Final c s.trace
  closed : s.trace.count (.closed c) ≤ 1
  serverClosed : s.trace.count (.serverClosed c) ≤ 1
  early : (s.conns c).statu ≠ .disconnected →
    s.trace.count (.closed c) = 0 ∧ s.trace.count (.serverClosed c) = 0 ∧
      statu c .disconnected ∉ s.trace

def Event.marks (c : ConnId) : Event → Bool
  | .began _ d _ => d = c
  | .statu d _ => d = c
  | .closed d => d = c
  | .serverClosed d => d = c
  | _ => false

structure Aside (c : ConnId) (s s' : World) : Prop where
  statu : (s'.conns c).statu = (s.conns c).statu
  out : Buffer.WellFormed (s.conns c).outBuffer →
    Buffer.WellFormed (s'.conns c).outBuffer ∧ (s.outPending c = true → s'.outPending c = true)
  busy : s'.busy c = s.busy c
  trace : ∃ es, s'.trace = s.trace ++ es ∧ ∀ e ∈ es, e.marks c = false

section aside

variable {c : ConnId} {s s' : World}

theorem count_append_unmarked {es : List Event} (he : e.marks c = true)
    (hes : ∀ e' ∈ es, e'.marks c = false) : (trace ++ es).count e = trace.count e := by
  have hnot : e ∉ es := by
    intro hmem
    rw [hes e hmem] at he
    cases he
  rw [count_append, count_eq_zero.mpr hnot, Nat.add_zero]

theorem marks_statu (c : ConnId) (st : ConnStatu) : (statu c st).marks c = true :=
  decide_eq_true rfl

theorem marks_closed (c : ConnId) : (closed c).marks c = true := decide_eq_true rfl

theorem marks_serverClosed (c : ConnId) : (serverClosed c).marks c = true :=
  decide_eq_true rfl

theorem Aside.count (h : Aside c s s') (he : e.marks c = true) :
    s'.trace.count e = s.trace.count e := by
  obtain ⟨es, htrace, hes⟩ := h.trace
  rw [htrace]
  exact count_append_unmarked he hes

theorem Aside.mem (h : Aside c s s') (he : e.marks c = true) : e ∈ s'.trace ↔ e ∈ s.trace := by
  rw [← count_pos_iff, ← count_pos_iff, h.count he]

theorem Once.aside (hs : Once c s) (h : Aside c s s') : Once c s' := by
  obtain ⟨es, htrace, hes⟩ := h.trace
  refine ⟨(h.out hs.out).1, ?_, ?_, ?_, ?_⟩
  · rw [htrace]
    apply hs.final.append
    intro st hmem
    exact Bool.false_ne_true ((hes _ hmem).symm.trans (marks_statu c st))
  · rw [h.count (marks_closed c)]
    exact hs.closed
  · rw [h.count (marks_serverClosed c)]
    exact hs.serverClosed
  · intro hstatu
    rw [h.statu] at hstatu
    obtain ⟨h1, h2, h3⟩ := hs.early hstatu
    rw [h.count (marks_closed c), h.count (marks_serverClosed c), h.mem (marks_statu c _)]
    exact ⟨h1, h2, h3⟩

theorem Aside.of_quiet (h : Quiet d s s') : Aside c s s' where
  statu := (h.conns c).statu
  out := by
    intro hwf
    rw [outPending, outPending, (h.conns c).out]
    exact ⟨hwf, id⟩
  busy := congrFun h.busy c
  trace := ⟨[], by rw [h.trace, append_nil], by intro e he; cases he⟩

theorem Aside.log (he : e.marks c = false) : Aside c s (s.log e) where
  statu := rfl
  out := fun hwf => ⟨hwf, id⟩
  busy := rfl
  trace := ⟨[e], rfl, by intro e' he'; rw [mem_singleton.mp he']; exact he⟩

theorem Aside.trans {s'' : World} (h : Aside c s s') (h' : Aside c s' s'') : Aside c s s'' where
  statu := h'.statu.trans h.statu
  out := by
    intro hwf
    obtain ⟨hwf', hp⟩ := h.out hwf
    obtain ⟨hwf'', hp'⟩ := h'.out hwf'
    exact ⟨hwf'', fun hpend => hp' (hp hpend)⟩
  busy := h'.busy.trans h.busy
  trace := by
    obtain ⟨es, htrace, hes⟩ := h.trace
    obtain ⟨es', htrace', hes'⟩ := h'.trace
    refine ⟨es ++ es', by rw [htrace', htrace, append_assoc], ?_⟩
    intro e he
    rcases mem_append.mp he with he | he
    · exact hes e he
    · exact hes' e he

theorem Aside.setConn_ne (hne : c ≠ d) (k : Conn) : Aside c s (s.setConn d k) where
  statu := by rw [setConn_conns_ne s k hne]
  out := by
    intro hwf
    rw [outPending, outPending, setConn_conns_ne s k hne]
    exact ⟨hwf, id⟩
  busy := rfl
  trace := ⟨[], (append_nil _).symm, by intro e he; cases he⟩

theorem Aside.setConn {k : Conn} (hstatu : k.statu = (s.conns d).statu)
    (hout : k.outBuffer = (s.conns d).outBuffer) : Aside c s (s.setConn d k) := by
  by_cases hd : c = d
  · subst hd
    refine ⟨by rw [setConn_conns_self, hstatu], ?_, rfl, [], (append_nil _).symm,
      by intro e he; cases he⟩
    intro hwf
    rw [outPending, outPending, setConn_conns_self, hout]
    exact ⟨hwf, id⟩
  · exact Aside.setConn_ne hd k

theorem Aside.push {data : Bytes} {out : Buffer}
    (hpush : (s.conns d).outBuffer.writeStringAndPop data = .ok out) :
    Aside c s (s.setConn d { s.conns d with outBuffer := out }) := by
  by_cases hd : c = d
  · subst hd
    refine ⟨by rw [setConn_conns_self], ?_, rfl, [], (append_nil _).symm, by intro e he; cases he⟩
    intro hwf
    obtain ⟨hwf', hun⟩ := Buffer.writeStringAndPop_ok hwf hpush
    simp only [outPending, setConn_conns_self, decide_eq_true_eq]
    exact ⟨hwf', Buffer.readAbleSize_pos_of_append hwf hwf' hun⟩
  · exact Aside.setConn_ne hd _

end aside

/-! ## The guarantee of user code -/

structure OnceRet (c : ConnId) (s s' : World) : Prop where
  once : Once c s'
  busy : s'.busy c = s.busy c
  pending : s.outPending c = true → s'.outPending c = true
  /-- Released connections stay as they are. -/
  gone : (s.conns c).statu = .disconnected → (s'.conns c).statu = .disconnected ∧
    s'.trace.count (.closed c) = s.trace.count (.closed c) ∧
    s'.trace.count (.serverClosed c) = s.trace.count (.serverClosed c)
  /-- Inside of an operation nothing is released. -/
  inside : 0 < s.busy c → (s.conns c).statu ≠ .disconnected → (s'.conns c).statu ≠ .disconnected

def once (c : ConnId) : Guarantee World where
  ret := fun s s' => grows.ret s s' ∧ (Disciplined c s'.trace → Once c s → OnceRet c s s')
  fault := fun s s' => grows.ret s s' ∧ (Disciplined c s'.trace → Once c s → Once c s')
  refl := fun s => ⟨grows.refl s, fun _ hs =>
    ⟨hs, rfl, id, fun h => ⟨h, rfl, rfl⟩, fun _ h => h⟩⟩
  trans := by
    intro s s' s'' ⟨hg, h⟩ ⟨hg', h'⟩
    refine ⟨grows.trans hg hg', fun hd hs => ?_⟩
    have h₁ := h (hd.mono hg') hs
    have h₂ := h' hd h₁.once
    refine ⟨h₂.once, h₂.busy.trans h₁.busy, fun hp => h₂.pending (h₁.pending hp), ?_, ?_⟩
    · intro hstatu
      obtain ⟨hstatu', hc, hsc⟩ := h₁.gone hstatu
      obtain ⟨hstatu'', hc', hsc'⟩ := h₂.gone hstatu'
      exact ⟨hstatu'', hc'.trans hc, hsc'.trans hsc⟩
    · intro hbusy hstatu
      exact h₂.inside (h₁.busy ▸ hbusy) (h₁.inside hbusy hstatu)
  fault_refl := fun s => ⟨grows.refl s, fun _ hs => hs⟩
  fault_trans := by
    intro s s' s'' ⟨hg, h⟩ ⟨hg', h'⟩
    exact ⟨grows.trans hg hg', fun hd hs => h' hd (h (hd.mono hg') hs).once⟩

section guarantee

variable {c : ConnId} {s s' : World}

theorem Aside.grows (h : Aside c s s') : grows.ret s s' := by
  obtain ⟨es, htrace, _⟩ := h.trace
  exact ⟨es, htrace.symm⟩

theorem Aside.ret (h : Aside c s s') : (once c).ret s s' := by
  refine ⟨h.grows, fun _ hs => ⟨hs.aside h, h.busy, (h.out hs.out).2, ?_, ?_⟩⟩
  · intro hstatu
    rw [h.statu]
    exact ⟨hstatu, h.count (marks_closed c), h.count (marks_serverClosed c)⟩
  · intro _ hstatu
    rw [h.statu]
    exact hstatu

theorem Aside.fault (h : Aside c s s') : (once c).fault s s' :=
  ⟨h.grows, fun _ hs => hs.aside h⟩

theorem once_allowsQuiet (c d : ConnId) : AllowsQuiet (once c) d where
  ret := fun _ _ h => (Aside.of_quiet h).ret
  fault := fun _ _ h => (Aside.of_quiet h).fault

theorem once_sendInLoop (c d : ConnId) (buf : Buffer) (hbuf : Buffer.WellFormed buf) :
    Respects (once c) (sendInLoop d buf) := by
  intro s
  have hlog : Aside c s (s.log (.given d buf.unread)) := Aside.log rfl
  refine wp_mono (sendInLoop_spec d hbuf s) ?_ ?_
  · intro _ s' hs'
    rcases hs' with ⟨_, rfl⟩ | ⟨out, _, hpush, hquiet, _⟩
    · exact hlog.ret
    · have hpush' : Aside c (s.log (.given d buf.unread)) _ := Aside.push hpush
      exact ((hlog.trans hpush').trans (Aside.of_quiet hquiet)).ret
  · intro s' hs'
    rw [hs']
    exact hlog.fault

theorem once_removeConnection (c : ConnId) (self : LoopId) (d : ConnId) :
    Respects (once c) (removeConnection self d) := by
  have haside : ∀ s s' : World, s'.conns = s.conns → s'.busy = s.busy → s'.trace = s.trace →
      Aside c s s' := by
    intro s s' hconns hbusy htrace
    refine ⟨by rw [hconns], ?_, by rw [hbusy], [], by rw [htrace, append_nil],
      by intro e he; cases he⟩
    intro hwf
    rw [outPending, outPending, hconns]
    exact ⟨hwf, id⟩
  apply respects_ite
  · exact respects_modify fun s => Aside.ret (haside s _ rfl rfl rfl)
  · exact respects_modify fun s => Aside.ret (haside s _ rfl rfl rfl)

theorem once_socketClose (c d : ConnId) : Respects (once c) (socketClose d) :=
  respects_modify fun _ => Aside.ret (Aside.setConn rfl rfl)

theorem once_allowsOn (hne : c ≠ d) : AllowsOn (once c) d where
  log := by
    intro e he _
    apply respects_modify
    intro s
    refine (Aside.log ?_).ret
    cases e <;> simp_all [conn?, marks, Ne.symm hne]
  statu := fun st => respects_modify fun s => (Aside.setConn_ne hne _).ret
  enter := by
    intro op
    apply respects_modify
    intro s
    refine Aside.ret ⟨rfl, fun hwf => ⟨hwf, id⟩, if_neg hne, [.began op d (s.before d)], rfl, ?_⟩
    intro e he
    rw [mem_singleton.mp he]
    exact decide_eq_false (Ne.symm hne)
  leave := by
    apply respects_modify
    intro s
    exact Aside.ret ⟨rfl, fun hwf => ⟨hwf, id⟩, if_neg hne, [], (append_nil _).symm,
      by intro e he; cases he⟩
  close := once_socketClose c d

theorem once_logRelease (c d : ConnId) : Respects (once c) (logEvent (.release d)) :=
  respects_modify fun _ => (Aside.log rfl).ret

section other

variable {d : ConnId} {user : UserCode → Code} {self : LoopId} (hne : c ≠ d)
  (huser : ∀ uc, Respects (once c) (user uc))

include hne huser

theorem releaseInLoop_once_ne : Respects (once c) (releaseInLoop user self d) :=
  releaseInLoop_respects (once_allowsQuiet c d).small (once_allowsOn hne) (once_logRelease c d)
    (once_removeConnection c self d) huser

theorem shutdownInLoop_once_ne : Respects (once c) (shutdownInLoop user self d) :=
  shutdownInLoop_respects (once_allowsQuiet c d).small (once_allowsOn hne) huser
    (releaseInLoop_once_ne hne huser)

end other

end guarantee

/-! ## The operations on the connection itself -/

structure Within (c : ConnId) (n : Nat) (pending known : Prop) (s : World) : Prop where
  once : Once c s
  statu : (s.conns c).statu ≠ .disconnected
  busy : s.busy c = n
  outPending : pending → s.outPending c = true
  known : known

structure Gone (c : ConnId) (n : Nat) (pending known : Prop) (closed serverClosed : Nat)
    (s : World) : Prop where
  once : Once c s
  statu : (s.conns c).statu = .disconnected
  busy : s.busy c = n
  outPending : pending → s.outPending c = true
  known : known
  closed_eq : s.trace.count (.closed c) = closed
  serverClosed_eq : s.trace.count (.serverClosed c) = serverClosed

section operations

variable {c : ConnId} {n : Nat} {pending known : Prop} {s : World} {user : UserCode → Code}
  {self : LoopId} {x : Code}

theorem within_step {α : Type} {x : EStateM Fault World α} (hx : Respects (once c) x) (hn : 0 < n)
    (h : Disciplined c s.trace → Within c n pending known s) :
    wp x (fun _ s' => Disciplined c s'.trace → Within c n pending known s')
      (fun s' => Disciplined c s'.trace → Once c s') s := by
  refine wp_mono (hx s) ?_ ?_
  · intro _ s' ⟨hg, hret⟩ hd
    have hw := h (hd.mono hg)
    have hr := hret hd hw.once
    exact ⟨hr.once, hr.inside (hw.busy.symm ▸ hn) hw.statu, hr.busy.trans hw.busy,
      fun hp => hr.pending (hw.outPending hp), hw.known⟩
  · intro s' ⟨hg, hfault⟩ hd
    exact hfault hd (h (hd.mono hg)).once

theorem gone_step {a b : Nat} (hx : Respects (once c) x)
    (h : Disciplined c s.trace → Gone c n pending known a b s) :
    wp x (fun _ s' => Disciplined c s'.trace → Gone c n pending known a b s')
      (fun s' => Disciplined c s'.trace → Once c s') s := by
  refine wp_mono (hx s) ?_ ?_
  · intro _ s' ⟨hg, hret⟩ hd
    have hw := h (hd.mono hg)
    have hr := hret hd hw.once
    obtain ⟨hstatu, hc, hsc⟩ := hr.gone hw.statu
    exact ⟨hr.once, hstatu, hr.busy.trans hw.busy, fun hp => hr.pending (hw.outPending hp),
      hw.known, hc.trans hw.closed_eq, hsc.trans hw.serverClosed_eq⟩
  · intro s' ⟨hg, hfault⟩ hd
    exact hfault hd (h (hd.mono hg)).once

theorem Within.setStatu (h : Within c n pending known s) {st : ConnStatu}
    (hst : st ≠ .disconnected) :
    Within c n pending known ((s.setConn c { s.conns c with statu := st }).log (.statu c st)) := by
  obtain ⟨h1, h2, h3⟩ := h.once.early h.statu
  have hne : Event.statu c .disconnected ≠ Event.statu c st := by
    intro heq
    cases heq
    exact hst rfl
  have hnot : Event.statu c .disconnected ∉ s.trace ++ [.statu c st] := by
    simp [h3, hne]
  refine ⟨⟨?_, final_of_not_mem hnot, ?_, ?_, ?_⟩, ?_, h.busy, ?_, h.known⟩
  · simpa [World.log] using h.once.out
  · simpa [World.log, World.setConn, List.count_append] using h.once.closed
  · simpa [World.log, World.setConn, List.count_append] using h.once.serverClosed
  · intro _
    refine ⟨?_, ?_, hnot⟩
    · simpa [World.log, World.setConn, List.count_append] using h1
    · simpa [World.log, World.setConn, List.count_append] using h2
  · simpa [World.log] using hst
  · intro hp
    simpa [World.log, World.outPending] using h.outPending hp

theorem Within.release (h : Within c n pending known s) : Gone c n pending known 0 0
      ((s.setConn c { s.conns c with statu := .disconnected }).log (.statu c .disconnected)) := by
  obtain ⟨h1, h2, h3⟩ := h.once.early h.statu
  refine ⟨⟨?_, ?_, ?_, ?_, ?_⟩, ?_, h.busy, ?_, h.known, ?_, ?_⟩
  · simpa [World.log] using h.once.out
  · exact final_concat h3
  · simpa [World.log, World.setConn, List.count_append] using h.once.closed
  · simpa [World.log, World.setConn, List.count_append] using h.once.serverClosed
  · intro hstatu
    simp [World.log] at hstatu
  · simp [World.log]
  · intro hp
    simpa [World.log, World.outPending] using h.outPending hp
  · simpa [World.log, World.setConn, List.count_append] using h1
  · simpa [World.log, World.setConn, List.count_append] using h2

theorem Gone.logClosed {b : Nat} (h : Gone c n pending known 0 b s) :
    Gone c n pending known 1 b (s.log (.closed c)) := by
  have hclosed : (s.log (.closed c)).trace.count (.closed c) = 1 := by
    simp [log, count_append, h.closed_eq]
  have hserver : (s.log (.closed c)).trace.count (.serverClosed c) = b := by
    simp [log, count_append, h.serverClosed_eq]
  refine ⟨⟨h.once.out, ?_, Nat.le_of_eq hclosed, ?_, ?_⟩, h.statu, h.busy, h.outPending, h.known,
    hclosed, hserver⟩
  · apply h.once.final.append
    simp
  · rw [hserver, ← h.serverClosed_eq]
    exact h.once.serverClosed
  · intro hstatu
    exact absurd h.statu hstatu

theorem Gone.logServerClosed {a : Nat} (h : Gone c n pending known a 0 s) :
    Gone c n pending known a 1 (s.log (.serverClosed c)) := by
  have hclosed : (s.log (.serverClosed c)).trace.count (.closed c) = a := by
    simp [log, count_append, h.closed_eq]
  have hserver : (s.log (.serverClosed c)).trace.count (.serverClosed c) = 1 := by
    simp [log, count_append, h.serverClosed_eq]
  refine ⟨⟨h.once.out, ?_, ?_, Nat.le_of_eq hserver, ?_⟩, h.statu, h.busy, h.outPending, h.known,
    hclosed, hserver⟩
  · apply h.once.final.append
    simp
  · rw [hclosed, ← h.closed_eq]
    exact h.once.closed
  · intro hstatu
    exact absurd h.statu hstatu

def Released (c : ConnId) (n : Nat) (pending known : Prop) (s : World) : Prop :=
  ∃ a b, Gone c n pending known a b s

theorem released_step (hx : Respects (once c) x)
    (h : Disciplined c s.trace → Released c n pending known s) :
    wp x (fun _ s' => Disciplined c s'.trace → Released c n pending known s')
      (fun s' => Disciplined c s'.trace → Once c s') s := by
  by_cases hd : Disciplined c s.trace
  · obtain ⟨a, b, hgone⟩ := h hd
    refine wp_imp (gone_step hx fun _ => hgone) ?_
    intro _ s' hs' hd'
    exact ⟨a, b, hs' hd'⟩
  · -- a trace that is not disciplined never becomes so
    refine wp_mono (hx s) ?_ ?_
    · intro _ s' hs' hd'
      exact absurd (hd'.mono hs'.1) hd
    · intro s' hs' hd'
      exact absurd (hd'.mono hs'.1) hd

theorem releaseInLoop_within (huser : ∀ uc, Respects (once c) (user uc)) (hn : 0 < n)
    (h : Disciplined c s.trace → Within c n pending known s) :
    wp (releaseInLoop user self c)
      (fun _ s' => Disciplined c s'.trace → Released c n pending known s')
      (fun s' => Disciplined c s'.trace → Once c s') s := by
  have hquiet := once_allowsQuiet c c
  rw [releaseInLoop, wp_bind]
  refine wp_imp (within_step (once_logRelease c c) hn h) ?_
  intro _ s1 h₁
  -- the status is assigned, and from here on the connection is released
  rw [releaseBody, wp_bind, closeConnection, wp_bind, setStatu, wp_bind, modifyConn, wp_modify,
    logEvent, wp_modify, wp_bind]
  have h₂ : Disciplined c ((s1.setConn c { s1.conns c with statu := .disconnected }).log
      (.statu c .disconnected)).trace → Gone c n pending known 0 0 _ :=
    fun hd => (h₁ (hd.mono (prefix_append _ _))).release
  refine wp_imp (gone_step (hquiet.small.removeEvent) h₂) ?_
  intro _ s3 h₃
  rw [wp_bind]
  refine wp_imp (gone_step (once_socketClose c c) h₃) ?_
  intro _ s4 h4
  rw [wp_bind, wp_get, wp_bind]
  have hcancel := hquiet.small.cancel self
  refine wp_imp (gone_step (respects_whenever _ hcancel) h4) ?_
  intro _ s5 h5
  rw [wp_bind, wp_get]
  -- the closed callback of the user
  have hclosed : wp (whenever (s5.conns c).callbacks.closed do
        logEvent (.closed c)
        user (.closed c))
      (fun _ s' => Disciplined c s'.trace → ∃ a, Gone c n pending known a 0 s')
      (fun s' => Disciplined c s'.trace → Once c s') s5 := by
    rw [wp_whenever, wp_bind, logEvent, wp_modify]
    refine ⟨fun _ => ?_, fun _ hd => ⟨0, h5 hd⟩⟩
    refine wp_imp (gone_step (huser _) fun hd =>
      (h5 (hd.mono (prefix_append _ _))).logClosed) ?_
    intro _ s' hs' hd
    exact ⟨1, hs' hd⟩
  refine wp_imp hclosed ?_
  intro _ s6 h6
  rw [serverClosedCallback, wp_bind, wp_get, wp_whenever, wp_bind, logEvent, wp_modify]
  -- the closed callback of the server
  refine ⟨fun _ => ?_, fun _ hd => ?_⟩
  · apply released_step (once_removeConnection c self c)
    intro hd
    obtain ⟨a, hgone⟩ := h6 (hd.mono (prefix_append _ _))
    exact ⟨a, 1, hgone.logServerClosed⟩
  · obtain ⟨a, hgone⟩ := h6 hd
    exact ⟨a, 0, hgone⟩

theorem enter_within {op : ReleaseOp} (hs : Once c s) (hd : Disciplined c (s.enter op c).trace) :
    Within c (s.busy c + 1) (s.outPending c = true) (Alone op (s.before c)) (s.enter op c) := by
  have halone : Alone op (s.before c) :=
    hd op (s.before c) (mem_append_right _ mem_cons_self)
  obtain ⟨h1, h2, h3⟩ := hs.early halone.1
  have hcount : ∀ e, e ≠ began op c (s.before c) →
      (s.enter op c).trace.count e = s.trace.count e := by
    intro e he
    simp [enter, log, count_append, Ne.symm he]
  have hclosed := hcount (.closed c) (by simp)
  have hserver := hcount (.serverClosed c) (by simp)
  refine ⟨⟨hs.out, ?_, ?_, ?_, ?_⟩, halone.1, if_pos rfl, id, halone⟩
  · apply hs.final.append
    simp
  · rw [hclosed]
    exact hs.closed
  · rw [hserver]
    exact hs.serverClosed
  · intro _
    rw [hclosed, hserver]
    refine ⟨h1, h2, ?_⟩
    simpa [enter, log] using h3

def AfterShutdown (c : ConnId) (n : Nat) (pending known : Prop) (s : World) : Prop :=
  Within c n pending known s ∨ (¬ pending ∧ Released c n pending known s)

theorem shutdownBody_within (huser : ∀ uc, Respects (once c) (user uc)) (hn : 0 < n)
    (h : Disciplined c s.trace → Within c n pending known s) :
    wp (shutdownBody user self c)
      (fun _ s' => Disciplined c s'.trace → AfterShutdown c n pending known s')
      (fun s' => Disciplined c s'.trace → Once c s') s := by
  rw [shutdownBody, wp_bind, setStatu, wp_bind, modifyConn, wp_modify, logEvent, wp_modify,
    wp_bind, wp_get, wp_bind]
  have hst : ConnStatu.disconnecting ≠ .disconnected := by decide
  have h₁ : Disciplined c ((s.setConn c { s.conns c with statu := .disconnecting }).log
      (.statu c .disconnecting)).trace → Within c n pending known _ :=
    fun hd => (h (hd.mono (prefix_append _ _))).setStatu hst
  refine wp_imp (within_step (respects_whenever _ (huser _)) hn h₁) ?_
  intro _ s2 h₂
  rw [wp_bind, wp_get, wp_bind]
  have hwrite := (once_allowsQuiet c c).small.enableWrite
  refine wp_imp (within_step (respects_whenever _ hwrite) hn h₂) ?_
  intro _ s3 h₃
  rw [wp_bind, wp_get, wp_whenever]
  refine ⟨fun hempty => ?_, fun _ hd => Or.inl (h₃ hd)⟩
  -- it releases only with an empty output buffer, so none was pending before
  have h4 : Disciplined c s3.trace → Within c n pending (known ∧ ¬ pending) s3 := by
    intro hd
    have hw := h₃ hd
    refine ⟨hw.once, hw.statu, hw.busy, hw.outPending, hw.known, fun hp => ?_⟩
    rw [hw.outPending hp] at hempty
    cases hempty
  refine wp_imp (releaseInLoop_within huser hn h4) ?_
  intro _ s' hs' hd
  obtain ⟨a, b, hg⟩ := hs' hd
  exact Or.inr ⟨hg.known.2, a, b, hg.once, hg.statu, hg.busy, hg.outPending, hg.known.1,
    hg.closed_eq, hg.serverClosed_eq⟩

theorem leave_busy (h : s.busy c = n + 1) : (s.leave c).busy c = n := by
  show (if c = c then s.busy c - 1 else s.busy c) = n
  rw [if_pos rfl, h, Nat.add_sub_cancel]

theorem grows_of_once {y : Code} (hy : Respects (once c) y) : Respects grows y :=
  hy.weaken (fun _ _ h => h.1) (fun _ _ h => h.1)

theorem shutdownInLoop_once (huser : ∀ uc, Respects (once c) (user uc)) :
    Respects (once c) (shutdownInLoop user self c) := by
  intro s
  have hgrows : Respects grows (shutdownInLoop user self c) :=
    grows_shutdownInLoop fun uc => grows_of_once (huser uc)
  have hbody : Once c s → wp (shutdownInLoop user self c)
      (fun _ s' => Disciplined c s'.trace → OnceRet c s s')
      (fun s' => Disciplined c s'.trace → Once c s') s := by
    intro hs
    rw [shutdownInLoop, during, wp_bind, wp_modify, wp_bind]
    refine wp_imp (shutdownBody_within huser (Nat.succ_pos _) (enter_within hs)) ?_
    intro _ s' hs'
    rw [wp_modify]
    intro hd
    rcases hs' hd with hw | ⟨hempty, a, b, hg⟩
    · refine ⟨⟨hw.once.out, hw.once.final, hw.once.closed, hw.once.serverClosed, hw.once.early⟩,
        ?_, hw.outPending, fun hgone => absurd hgone hw.known.1, fun _ _ => hw.statu⟩
      exact leave_busy hw.busy
    · refine ⟨⟨hg.once.out, hg.once.final, hg.once.closed, hg.once.serverClosed, hg.once.early⟩,
        ?_, hg.outPending, fun hgone => absurd hgone hg.known.1, fun hbusy => ?_⟩
      · exact leave_busy hg.busy
      · -- it began inside of another operation, so output was pending
        rcases hg.known.2 with hzero | ⟨_, hp⟩
        · exact absurd hzero (Nat.ne_of_gt hbusy)
        · exact absurd hp hempty
  by_cases hs : Once c s
  · refine wp_mono (wp_and (hgrows s) (hbody hs)) ?_ ?_
    · intro _ s' hs'
      exact ⟨hs'.1, fun hd _ => hs'.2 hd⟩
    · intro s' hs'
      exact ⟨hs'.1, fun hd _ => hs'.2 hd⟩
  · refine wp_mono (hgrows s) ?_ ?_
    · intro _ s' hg
      exact ⟨hg, fun _ hs' => absurd hs' hs⟩
    · intro s' hg
      exact ⟨hg, fun _ hs' => absurd hs' hs⟩

theorem callback_once (c : ConnId) (env : Env) (self : LoopId) (depth : Nat) (uc : UserCode) :
    Respects (once c) (callback env self depth uc) := by
  apply callback_respects env (fun d => (once_allowsQuiet c d).small) (once_sendInLoop c)
  intro user d huser
  by_cases hd : c = d
  · subst hd
    exact shutdownInLoop_once huser
  · exact shutdownInLoop_once_ne hd huser

end operations

/-! ## Whole runs -/

def onceStep (c : ConnId) : Guarantee World :=
  Guarantee.ofPreorder
    (fun s s' => grows.ret s s' ∧ (Disciplined c s'.trace → Once c s → Once c s'))
    (fun s => ⟨grows.refl s, fun _ hs => hs⟩)
    (by
      intro s s' s'' ⟨hg, h⟩ ⟨hg', h'⟩
      exact ⟨grows.trans hg hg', fun hd hs => h' hd (h (hd.mono hg') hs)⟩)

section steps

variable {c d : ConnId} {user : UserCode → Code} {self : LoopId} {x : Code}

theorem onceStep_of_once (hx : Respects (once c) x) : Respects (onceStep c) x :=
  hx.weaken (fun _ _ h => ⟨h.1, fun hd hs => (h.2 hd hs).once⟩) (fun _ _ h => h)

theorem onceStep_of_wp (hg : Respects grows x)
    (h : ∀ s, Once c s → wp x (fun _ s' => Disciplined c s'.trace → Once c s')
      (fun s' => Disciplined c s'.trace → Once c s') s) : Respects (onceStep c) x := by
  intro s
  by_cases hs : Once c s
  · refine wp_mono (wp_and (hg s) (h s hs)) ?_ ?_
    · intro _ s' hs'
      exact ⟨hs'.1, fun hd _ => hs'.2 hd⟩
    · intro s' hs'
      exact ⟨hs'.1, fun hd _ => hs'.2 hd⟩
  · refine wp_mono (hg s) ?_ ?_
    · intro _ s' hgrow
      exact ⟨hgrow, fun _ hs' => absurd hs' hs⟩
    · intro s' hgrow
      exact ⟨hgrow, fun _ hs' => absurd hs' hs⟩

theorem during_onceStep {op : ReleaseOp} {body : Code} (hg : Respects grows (during op c body))
    (hbody : ∀ s n known, 0 < n → (Disciplined c s.trace → Within c n False known s) →
      wp body (fun _ s' => Disciplined c s'.trace → Once c s')
        (fun s' => Disciplined c s'.trace → Once c s') s) :
    Respects (onceStep c) (during op c body) := by
  apply onceStep_of_wp hg
  intro s hs
  rw [during, wp_bind, wp_modify, wp_bind]
  have hw : Disciplined c (s.enter op c).trace →
      Within c (s.busy c + 1) False (Alone op (s.before c)) (s.enter op c) := by
    intro hd
    have hw := enter_within hs hd
    exact ⟨hw.once, hw.statu, hw.busy, False.elim, hw.known⟩
  refine wp_imp (hbody _ _ _ (Nat.succ_pos _) hw) ?_
  intro _ s' hs'
  rw [wp_modify]
  intro hd
  have ho := hs' hd
  exact ⟨ho.out, ho.final, ho.closed, ho.serverClosed, ho.early⟩

theorem release_once_of_within {s : World} {n : Nat} {known : Prop}
    (huser : ∀ uc, Respects (once c) (user uc)) (hn : 0 < n)
    (h : Disciplined c s.trace → Within c n False known s) :
    wp (releaseInLoop user self c) (fun _ s' => Disciplined c s'.trace → Once c s')
      (fun s' => Disciplined c s'.trace → Once c s') s := by
  refine wp_imp (releaseInLoop_within huser hn h) ?_
  intro _ s' hs' hd
  obtain ⟨a, b, hg⟩ := hs' hd
  exact hg.once

theorem handleClose_once (huser : ∀ uc, Respects (once c) (user uc)) :
    Respects (onceStep c) (handleClose user self c) := by
  apply during_onceStep
  · have hgrows := fun uc => grows_of_once (huser uc)
    exact during_respects (grows_allowsOn c) _
      (handleCloseBody_respects hgrows (grows_releaseInLoop hgrows))
  · intro s n known hn hw
    rw [handleCloseBody, wp_bind, wp_get, wp_bind]
    have hmessage := respects_whenever (s.inPending c = true)
      (messageCallback_respects (d := c) huser)
    refine wp_imp (within_step hmessage hn hw) ?_
    intro _ s' hw'
    exact release_once_of_within huser hn hw'

theorem idleTimer_once (huser : ∀ uc, Respects (once c) (user uc)) :
    Respects (onceStep c) (during .idleTimer c (releaseInLoop user self c)) := by
  apply during_onceStep
  · exact during_respects (grows_allowsOn c) _
      (grows_releaseInLoop fun uc => grows_of_once (huser uc))
  · intro s n known hn hw
    exact release_once_of_within huser hn hw

theorem within_moveReadOffset {s : World} {n len : Nat} {known : Prop}
    (h : Disciplined c s.trace → Within c n False known s) :
    wp (moveSent c len) (fun _ s' => Disciplined c s'.trace → Within c n False known s')
      (fun s' => Disciplined c s'.trace → Once c s') s := by
  rw [moveSent, tryConn, wp_bind, wp_get]
  cases hmove : (s.conns c).outBuffer.moveReadOffset len with
  | error fault => exact (wp_throw _ _ _ _).mpr fun hd => (h hd).once
  | ok out =>
    show wp (set _) _ _ _
    rw [wp_set]
    intro hd
    have hw := h hd
    have hwf := (Buffer.moveReadOffset_ok hw.once.out hmove).2.1
    refine ⟨⟨?_, hw.once.final, hw.once.closed, hw.once.serverClosed, ?_⟩, ?_, hw.busy,
      False.elim, hw.known⟩
    · rw [setConn_conns_self]
      exact hwf
    · intro _
      exact hw.once.early hw.statu
    · rw [setConn_conns_self]
      exact hw.statu

theorem disableWrite_once (c : ConnId) : Respects (once c) (disableWrite c) := by
  apply respects_bind
  · exact respects_modify fun _ => Aside.ret (Aside.setConn rfl rfl)
  · intro _
    exact (once_allowsQuiet c c).small.updateEvent

theorem handleWrite_once (huser : ∀ uc, Respects (once c) (user uc)) (env : Env) :
    Respects (onceStep c) (handleWrite user self env c) := by
  apply during_onceStep
  · exact during_respects (grows_allowsOn c) _
      (grows_handleWriteBody (fun uc => grows_of_once (huser uc)) env)
  · intro s n known hn hw
    have hsent : ∀ data, Respects (once c) (logEvent (.sent c data)) :=
      fun data => respects_modify fun s => (Aside.log rfl).ret
    rw [handleWriteBody, wp_bind]
    refine wp_imp (within_step
      (nonBlockSend_respects (once_allowsQuiet c c).small hsent env) hn hw) ?_
    intro ret s1 h₁
    cases ret with
    | none =>
      -- `send` failed: the input is delivered and the connection released
      dsimp only
      rw [wp_bind, wp_get, wp_bind]
      have hmessage := respects_whenever (s1.inPending c = true)
        (messageCallback_respects (d := c) huser)
      refine wp_imp (within_step hmessage hn h₁) ?_
      intro _ s2 h₂
      exact release_once_of_within huser hn h₂
    | some len =>
      dsimp only
      rw [wp_bind]
      refine wp_imp (within_moveReadOffset h₁) ?_
      intro _ s2 h₂
      rw [wp_bind, wp_get, wp_whenever]
      refine ⟨fun _ => ?_, fun _ hd => (h₂ hd).once⟩
      rw [wp_bind]
      refine wp_imp (within_step (disableWrite_once c) hn h₂) ?_
      intro _ s3 h₃
      -- everything is sent; a connection that is shutting down is released now
      rw [wp_bind, wp_get, wp_whenever]
      exact ⟨fun _ => release_once_of_within huser hn h₃, fun _ hd => (h₃ hd).once⟩

theorem establishedInLoop_once (huser : ∀ uc, Respects (once c) (user uc)) :
    Respects (onceStep c) (establishedInLoop user c) := by
  apply onceStep_of_wp
  · exact establishedInLoop_respects (grows_allowsQuiet c).small (grows_allowsOn c)
      fun uc => grows_of_once (huser uc)
  · intro s hs
    rw [establishedInLoop, wp_bind, wp_get, wp_bind, wp_whenever, wp_throw]
    refine ⟨fun _ _ => hs, fun hstatu => ?_⟩
    -- the assertion has passed, so the connection is not released
    have hconnecting : (s.conns c).statu ≠ .disconnected := by
      rw [not_not.mp hstatu]
      decide
    have hst : ConnStatu.connected ≠ .disconnected := by decide
    have hw : Within c (s.busy c) False True s := ⟨hs, hconnecting, rfl, False.elim, trivial⟩
    have hset : Respects (once c) (do
        enableRead c
        let s ← get
        whenever (s.conns c).callbacks.connected (user (.connected c)) : Code) := by
      apply respects_bind ((once_allowsQuiet c c).small.enableRead)
      intro _
      apply respects_bind respects_get
      intro s
      exact respects_whenever _ (huser _)
    rw [wp_bind, setStatu, wp_bind, modifyConn, wp_modify, logEvent, wp_modify]
    refine wp_mono (hset _) ?_ ?_
    · intro _ s' hs' hd
      exact (hs'.2 hd (hw.setStatu hst).once).once
    · intro s' hs' hd
      exact hs'.2 hd (hw.setStatu hst).once

theorem onceStep_allowsQuiet (c d : ConnId) : AllowsQuiet (onceStep c) d where
  ret := fun _ _ h => ⟨grows_of_eq h.trace, fun _ hs => hs.aside (Aside.of_quiet h)⟩
  fault := fun _ _ h => ⟨grows_of_eq h.trace, fun _ hs => hs.aside (Aside.of_quiet h)⟩

theorem onceStep_logEvent (he : e.marks c = false) : Respects (onceStep c) (logEvent e) :=
  onceStep_of_once (respects_modify fun _ => (Aside.log he).ret)

theorem once_tryConn_ne (hne : c ≠ d) (f : Conn → Except Fault Conn) :
    Respects (once c) (tryConn d f) := by
  apply respects_get_bind
  intro s
  split
  · exact (wp_set _ _ _ _).mpr (Aside.setConn_ne hne _).ret
  · exact (wp_throw _ _ _ _).mpr ((once c).fault_refl s)

theorem handleWrite_once_ne (hne : c ≠ d) (huser : ∀ uc, Respects (once c) (user uc)) (env : Env) :
    Respects (once c) (handleWrite user self env d) := by
  have hdisable : Respects (once c) (disableWrite d) :=
    respects_bind (respects_modify fun s => (Aside.setConn_ne hne _).ret)
      fun _ => (once_allowsQuiet c d).small.updateEvent
  apply during_respects (once_allowsOn hne)
  exact handleWriteBody_respects (once_allowsQuiet c d).small (once_allowsOn hne) huser
    (releaseInLoop_once_ne hne huser) (fun _ => once_tryConn_ne hne _) hdisable env

section

variable (huser : ∀ uc, Respects (once c) (user uc))

include huser

theorem shutdownInLoop_onceStep (d : ConnId) :
    Respects (onceStep c) (shutdownInLoop user self d) := by
  apply onceStep_of_once
  by_cases hd : c = d
  · subst hd
    exact shutdownInLoop_once huser
  · exact shutdownInLoop_once_ne hd huser

theorem channelHandleEvent_once (env : Env) (d : ConnId) (revents : Events) :
    Respects (onceStep c) (channelHandleEvent user self env d revents) := by
  have hq := onceStep_allowsQuiet c d
  have huser' := fun uc => onceStep_of_once (huser uc)
  apply respects_bind (onceStep_logEvent rfl)
  intro _
  apply handleRevents_respects hq.small huser'
  · exact handleRead_respects hq.small huser' (shutdownInLoop_onceStep huser d)
  · intro env
    by_cases hd : c = d
    · subst hd
      exact handleWrite_once huser env
    · exact onceStep_of_once (handleWrite_once_ne hd huser env)
  · by_cases hd : c = d
    · subst hd
      exact handleClose_once huser
    · exact onceStep_of_once (during_respects (once_allowsOn hd) _
        (handleCloseBody_respects huser (releaseInLoop_once_ne hd huser)))

theorem timerCallback_once (h : Handle) (task : TimerTask TimerCb) :
    Respects (onceStep c) (timerCallback user self h task) := by
  unfold timerCallback
  split
  · next d _ =>
    by_cases hd : c = d
    · subst hd
      exact idleTimer_once huser
    · exact onceStep_of_once (during_respects (once_allowsOn hd) _ (releaseInLoop_once_ne hd huser))
  · exact onceStep_of_once (huser _)

theorem runFunctor_once (f : Functor) : Respects (onceStep c) (runFunctor user self f) := by
  cases f with
  | established d =>
    by_cases hd : c = d
    · subst hd
      exact establishedInLoop_once huser
    · exact onceStep_of_once
        (establishedInLoop_respects (once_allowsQuiet c d).small (once_allowsOn hd) huser)
  | send d data => exact onceStep_of_once (sendFunctor_respects (once_sendInLoop c d) data)
  | shutdown d => exact shutdownInLoop_onceStep huser d
  | enableInactiveRelease d sec =>
    exact (onceStep_allowsQuiet c d).small.enable sec
  | cancelInactiveRelease d =>
    exact (onceStep_allowsQuiet c d).small.cancelInLoop
  | removeConnection d =>
    exact onceStep_of_once (once_removeConnection c baseLoop d)

end

theorem exec_once (c : ConnId) (env : Env) (depth : Nat) (step : LoopStep) :
    Respects (onceStep c) (step.exec env depth) := by
  cases step with
  | event self d revents =>
    exact channelHandleEvent_once (callback_once c env self depth) env d revents
  | functor self f => exact runFunctor_once (callback_once c env self depth) f
  | tick self =>
    exact onTime_respects (onceStep_allowsQuiet c c)
      fun h task s _ => timerCallback_once (callback_once c env self depth) h task s

end steps

theorem initial_once (cfg : Config) (c : ConnId) : Once c (World.initial cfg) where
  out := Buffer.fresh_wellFormed
  final := final_of_not_mem (by simp [initial])
  closed := Nat.zero_le _
  serverClosed := Nat.zero_le _
  early := fun _ => ⟨rfl, rfl, by simp [initial]⟩

/-- **Released once.** In every run of loop threads, for every peer, kernel
    and user program: if every operation that may release a connection begins
    on a connection that is not released and, unless it is a `ShutdownInLoop`
    that finds output pending, while no other one is in progress on it, then
    the closed callbacks of the user and of the server are each called at most
    once, and `_statu` is not assigned again after `DISCONNECTED`. -/
theorem released_once_of_disciplined (cfg : Config) (env : Env) (depth : Nat)
    (steps : List LoopStep) (c : ConnId)
    (hd : Disciplined c (afterSteps cfg env depth steps).trace) :
    (afterSteps cfg env depth steps).trace.count (.closed c) ≤ 1 ∧
    (afterSteps cfg env depth steps).trace.count (.serverClosed c) ≤ 1 ∧
    Final c (afterSteps cfg env depth steps).trace := by
  have hrun : Respects (onceStep c) (runAll (LoopStep.exec env depth) steps) :=
    respects_runAll steps fun step _ => exec_once c env depth step
  have honce := stateAfter_of_wp (P := fun s' =>
    (onceStep c).ret (World.initial cfg) s') (hrun (World.initial cfg))
  have h := honce.2 hd (initial_once cfg c)
  exact ⟨h.closed, h.serverClosed, h.final⟩

/-- A peer resets the connection: `recv` fails, which alone releases it. -/
theorem released_once_after_reset : Disciplined 1 (afterSteps .single .reset 1
      [.functor 0 (.established 1), .event 0 1 EPOLLIN]).trace ∧
    (afterSteps .single .reset 1
      [.functor 0 (.established 1), .event 0 1 EPOLLIN]).trace.count (.closed 1) ≤ 1 := by
  have hd : Disciplined 1 (afterSteps .single .reset 1
      [.functor 0 (.established 1), .event 0 1 EPOLLIN]).trace := by decide +kernel
  exact ⟨hd, (released_once_of_disciplined _ _ _ _ 1 hd).1⟩

/-- With `EPOLLIN` and `EPOLLHUP` in one mask the connection is released twice:
    by the `ShutdownInLoop` of `HandleRead`, and by `HandleClose` after it. -/
theorem released_twice : (afterSteps .single .reset 1
      [.functor 0 (.established 1), .event 0 1 (EPOLLIN ||| EPOLLHUP)]).trace.count (.closed 1) = 2 ∧
    (afterSteps .single .reset 1
      [.functor 0 (.established 1),
        .event 0 1 (EPOLLIN ||| EPOLLHUP)]).trace.count (.serverClosed 1) = 2 := by
  decide +kernel

end CallLesson.Reactor
