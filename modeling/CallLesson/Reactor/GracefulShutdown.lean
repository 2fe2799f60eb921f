import CallLesson.Reactor.Frames

/-! # A graceful shutdown loses no output

    `Send` only queues data in the output buffer and has `EPOLLOUT` monitored;
    `HandleWrite` sends what the kernel takes, and `ShutdownInLoop` waits for
    the rest. Up to the first release, what has been given to `SendInLoop` is
    what `send` has accepted followed by what is still in the output buffer,
    and that is kept by every piece of the code on its own, user code
    included. -/

namespace CallLesson.Reactor

open Exec Event Buffer

/-! ## Statements -/

def givenTo (c : ConnId) : List Event → Bytes
  | [] => []
  | .given d data :: rest => (if d = c then data else []) ++ givenTo c rest
  | _ :: rest => givenTo c rest

def sentBy (c : ConnId) : List Event → Bytes
  | [] => []
  | .sent d data :: rest => (if d = c then data else []) ++ sentBy c rest
  | _ :: rest => sentBy c rest

def NothingLost (c : ConnId) (trace : List Event) : Prop :=
  ∀ pre post, trace = pre ++ post → release c ∉ pre →
    sentBy c pre <+: givenTo c pre ∧ (post.head? = some (.release c) → sentBy c pre = givenTo c pre)

inductive IoStep where
  | established
  | send (data : Bytes)
  | shutdown
  | handleRead
  | handleWrite
  deriving DecidableEq

def IoStep.exec (env : Env) (depth : Nat) (self : LoopId) (c : ConnId) : IoStep → Code
  | .established => establishedInLoop (callback env self depth) c
  | .send data => runFunctor (callback env self depth) self (.send c data)
  | .shutdown => shutdownInLoop (callback env self depth) self c
  | .handleRead => Reactor.handleRead (callback env self depth) self env c
  | .handleWrite => Reactor.handleWrite (callback env self depth) self env c

def afterIo (cfg : Config) (env : Env) (depth : Nat) (c : ConnId) (steps : List IoStep) : World :=
  stateAfter (runAll (IoStep.exec env depth (cfg.loopOf c) c) steps) (World.initial cfg)

/-! ## Traces -/

open List World

variable {e : Event} {env : Env}

section traces

variable {c : ConnId} {trace es : List Event}

theorem givenTo_append (c : ConnId) (trace es : List Event) :
    givenTo c (trace ++ es) = givenTo c trace ++ givenTo c es := by
  induction trace with
  | nil => rfl
  | cons e trace ih =>
    cases e with
    | given d data => simp [givenTo, ih]
    | _ => exact ih

theorem sentBy_append (c : ConnId) (trace es : List Event) :
    sentBy c (trace ++ es) = sentBy c trace ++ sentBy c es := by
  induction trace with
  | nil => rfl
  | cons e trace ih =>
    cases e with
    | sent d data => simp [sentBy, ih]
    | _ => exact ih

theorem NothingLost.append_of_released (h : NothingLost c trace)
    (hrelease : release c ∈ trace) (es : List Event) : NothingLost c (trace ++ es) := by
  intro pre post heq hpre
  -- a moment without the release lies in the old trace
  rcases append_eq_append_iff.mp heq with ⟨mid, hmid, _⟩ | ⟨mid, htrace, hpost⟩
  · exact absurd (hmid ▸ mem_append_left mid hrelease) hpre
  · cases mid with
    | nil =>
      rw [append_nil] at htrace
      exact absurd (htrace ▸ hrelease) hpre
    | cons e mid =>
      obtain ⟨hle, hhead⟩ := h pre (e :: mid) htrace hpre
      refine ⟨hle, fun hfirst => hhead ?_⟩
      rw [hpost] at hfirst
      exact hfirst

theorem NothingLost.concat (h : NothingLost c trace)
    (hsent : sentBy c (trace ++ [e]) <+: givenTo c (trace ++ [e]))
    (hrelease : e = .release c → sentBy c trace = givenTo c trace) :
    NothingLost c (trace ++ [e]) := by
  intro pre post heq hpre
  rcases append_eq_append_iff.mp heq with ⟨mid, hmid, hpost⟩ | ⟨mid, htrace, hpost⟩
  · -- the moment is after the last event, or right before it
    cases mid with
    | nil =>
      rw [append_nil] at hmid
      rw [nil_append] at hpost
      obtain ⟨hle, _⟩ := h trace [] (append_nil _).symm (hmid ▸ hpre)
      rw [hmid]
      refine ⟨hle, fun hhead => hrelease ?_⟩
      rw [← hpost] at hhead
      exact Option.some.inj hhead
    | cons e' mid =>
      obtain ⟨rfl, hnil⟩ : e = e' ∧ [] = mid ++ post := by simpa using hpost
      obtain ⟨rfl, rfl⟩ := append_eq_nil_iff.mp hnil.symm
      rw [hmid]
      exact ⟨hsent, fun hhead => by cases hhead⟩
  · -- the moment lies in the old trace; its next event may be the new one
    obtain ⟨hle, hhead⟩ := h pre mid htrace hpre
    refine ⟨hle, fun hfirst => ?_⟩
    cases mid with
    | nil =>
      rw [append_nil] at htrace
      rw [nil_append] at hpost
      rw [hpost] at hfirst
      rw [← htrace]
      exact hrelease (Option.some.inj hfirst)
    | cons e' mid =>
      rw [hpost] at hfirst
      exact hhead hfirst

end traces

/-! ## The invariant -/

structure Live (c : ConnId) (s : World) : Prop where
  given : givenTo c s.trace = sentBy c s.trace ++ (s.conns c).outBuffer.unread
  socket : (s.conns c).socketOpen = true
  statu : (s.conns c).statu ≠ .disconnected
  writeAble : s.outPending c = true → writeAble (s.conns c) = true

structure Sound (c : ConnId) (s : World) : Prop where
  out : Buffer.WellFormed (s.conns c).outBuffer
  nothingLost : NothingLost c s.trace
  live : release c ∉ s.trace → Live c s

structure Halted (c : ConnId) (s : World) : Prop where
  nothingLost : NothingLost c s.trace
  writeAble : release c ∉ s.trace → s.outPending c = true → writeAble (s.conns c) = true

theorem Sound.halted {c : ConnId} {s : World} (hs : Sound c s) : Halted c s :=
  ⟨hs.nothingLost, fun hrelease => (hs.live hrelease).writeAble⟩

def sound (c : ConnId) : Guarantee World where
  ret := fun s s' => grows.ret s s' ∧ (Sound c s → Sound c s')
  fault := fun s s' => grows.ret s s' ∧ (Sound c s → Halted c s')
  refl := fun s => ⟨grows.refl s, id⟩
  trans := fun h h' => ⟨grows.trans h.1 h'.1, fun hs => h'.2 (h.2 hs)⟩
  fault_refl := fun s => ⟨grows.refl s, Sound.halted⟩
  fault_trans := fun h h' => ⟨grows.trans h.1 h'.1, fun hs => h'.2 (h.2 hs)⟩

section invariant

variable {c d : ConnId} {s s' : World}

def Event.counts (c : ConnId) : Event → Bool
  | .given d _ => d = c
  | .sent d _ => d = c
  | .release d => d = c
  | _ => false

theorem givenTo_single (he : e.counts c = false) : givenTo c [e] = [] := by
  cases e with
  | given d data =>
    have hd : ¬ d = c := of_decide_eq_false he
    simp [givenTo, hd]
  | _ => rfl

theorem sentBy_single (he : e.counts c = false) : sentBy c [e] = [] := by
  cases e with
  | sent d data =>
    have hd : ¬ d = c := of_decide_eq_false he
    simp [sentBy, hd]
  | _ => rfl

theorem Live.sent_le (h : Live c s) : sentBy c s.trace <+: givenTo c s.trace := by
  rw [h.given]
  exact prefix_append _ _

theorem Sound.of_conn (hs : Sound c s) (htrace : s'.trace = s.trace)
    (hout : (s'.conns c).outBuffer = (s.conns c).outBuffer)
    (hsocket : release c ∉ s.trace → (s'.conns c).socketOpen = (s.conns c).socketOpen)
    (hstatu : release c ∉ s.trace → (s.conns c).statu ≠ .disconnected →
      (s'.conns c).statu ≠ .disconnected)
    (hwrite : s.outPending c = true → writeAble (s.conns c) = true →
      writeAble (s'.conns c) = true) : Sound c s' := by
  refine ⟨hout ▸ hs.out, htrace ▸ hs.nothingLost, ?_⟩
  intro hrelease
  rw [htrace] at hrelease
  have hl := hs.live hrelease
  refine ⟨by rw [htrace, hout]; exact hl.given, (hsocket hrelease).trans hl.socket,
    hstatu hrelease hl.statu, ?_⟩
  intro hpend
  have hpend' : s.outPending c = true := by
    rw [outPending, ← hout]
    exact hpend
  exact hwrite hpend' (hl.writeAble hpend')

theorem Sound.of_quiet (hs : Sound c s) (h : Quiet d s s') : Sound c s' :=
  hs.of_conn h.trace (h.conns c).out (fun _ => (h.conns c).socket)
    (fun _ hne => by rw [(h.conns c).statu]; exact hne) (fun _ => (h.conns c).writeAble)

theorem Sound.log (hs : Sound c s) (he : e.counts c = false) : Sound c (s.log e) := by
  have hgiven : givenTo c (s.trace ++ [e]) = givenTo c s.trace := by
    rw [givenTo_append, givenTo_single he, append_nil]
  have hsent : sentBy c (s.trace ++ [e]) = sentBy c s.trace := by
    rw [sentBy_append, sentBy_single he, append_nil]
  have hne : e ≠ .release c := by
    intro heq
    rw [heq] at he
    simp [counts] at he
  refine ⟨hs.out, ?_, ?_⟩
  · by_cases hrelease : release c ∈ s.trace
    · exact hs.nothingLost.append_of_released hrelease [e]
    · apply hs.nothingLost.concat
      · rw [hgiven, hsent]
        exact (hs.live hrelease).sent_le
      · intro heq
        exact absurd heq hne
  · intro hrelease
    have hl := hs.live fun hmem => hrelease (mem_append_left _ hmem)
    exact ⟨by show givenTo c (s.trace ++ [e]) = sentBy c (s.trace ++ [e]) ++ _
              rw [hgiven, hsent]; exact hl.given, hl.socket, hl.statu, hl.writeAble⟩

theorem sound_allowsQuiet (c d : ConnId) : AllowsQuiet (sound c) d where
  ret := fun _ _ h => ⟨grows_of_eq h.trace, fun hs => hs.of_quiet h⟩
  fault := fun _ _ h => ⟨grows_of_eq h.trace, fun hs => (hs.of_quiet h).halted⟩

theorem sound_logEvent (he : e.counts c = false) : Respects (sound c) (logEvent e) :=
  respects_modify fun _ => ⟨prefix_append _ _, fun hs => hs.log he⟩

theorem Sound.setConn_ne (hs : Sound c s) (hne : c ≠ d) (k : Conn) : Sound c (s.setConn d k) := by
  have hconn := setConn_conns_ne s k hne
  exact hs.of_conn rfl (by rw [hconn]) (fun _ => by rw [hconn]) (fun _ h => by rw [hconn]; exact h)
    (fun _ h => by rw [hconn]; exact h)

theorem sound_modifyConn_ne (hne : c ≠ d) (f : Conn → Conn) : Respects (sound c) (modifyConn d f) :=
  respects_modify fun _ => ⟨grows_of_eq rfl, fun hs => hs.setConn_ne hne _⟩

theorem sound_removeConnection (c : ConnId) (self : LoopId) (d : ConnId) :
    Respects (sound c) (removeConnection self d) := by
  have hkeep : ∀ s s' : World, s'.trace = s.trace → s'.conns = s.conns → (sound c).ret s s' := by
    intro s s' htrace hconns
    refine ⟨grows_of_eq htrace, fun hs => hs.of_conn htrace (by rw [hconns])
      (fun _ => by rw [hconns]) (fun _ h => by rw [hconns]; exact h)
      (fun _ h => by rw [hconns]; exact h)⟩
  apply respects_ite
  · exact respects_modify fun s => hkeep _ _ rfl rfl
  · exact respects_modify fun s => hkeep _ _ rfl rfl

theorem sound_enter (c : ConnId) (op : ReleaseOp) (d : ConnId) :
    Respects (sound c) (modify (·.enter op d) : Code) := by
  apply respects_modify
  intro s
  refine ⟨prefix_append _ _, fun hs => ?_⟩
  have hlog : Sound c (s.log (.began op d (s.before d))) := hs.log rfl
  exact ⟨hlog.out, hlog.nothingLost, fun h => ⟨(hlog.live h).given, (hlog.live h).socket,
    (hlog.live h).statu, (hlog.live h).writeAble⟩⟩

theorem sound_leave (c d : ConnId) : Respects (sound c) (modify (·.leave d) : Code) := by
  apply respects_modify
  intro s
  refine ⟨grows_of_eq rfl, fun hs => ⟨hs.out, hs.nothingLost, fun h => ?_⟩⟩
  exact ⟨(hs.live h).given, (hs.live h).socket, (hs.live h).statu, (hs.live h).writeAble⟩

theorem sound_allowsOn (hne : c ≠ d) : AllowsOn (sound c) d where
  log := by
    intro e he _
    apply sound_logEvent
    cases e <;> simp_all [conn?, counts, Ne.symm hne]
  statu := fun _ => sound_modifyConn_ne hne _
  enter := fun op => sound_enter c op d
  leave := sound_leave c d
  close := sound_modifyConn_ne hne _

end invariant

/-! ## The connection itself -/

section operations

variable {c : ConnId} {s : World} {user : UserCode → Code} {self : LoopId}

theorem Sound.given (hs : Sound c s) (data : Bytes) (hrelease : release c ∈ s.trace) :
    Sound c (s.log (.given c data)) :=
  ⟨hs.out, hs.nothingLost.append_of_released hrelease _,
    fun h => absurd (mem_append_left _ hrelease) h⟩

theorem Sound.halted_given (hs : Sound c s) (data : Bytes) : Halted c (s.log (.given c data)) := by
  by_cases hrelease : release c ∈ s.trace
  · exact (hs.given data hrelease).halted
  · have hl := hs.live hrelease
    refine ⟨?_, fun _ => hl.writeAble⟩
    apply hs.nothingLost.concat
    · rw [sentBy_append, givenTo_append]
      have hsent : sentBy c [.given c data] = [] := rfl
      rw [hsent, append_nil]
      exact hl.sent_le.trans (prefix_append _ _)
    · intro heq
      cases heq

theorem given_counts {d : ConnId} (hne : c ≠ d) (data : Bytes) : (given d data).counts c = false :=
  decide_eq_false (Ne.symm hne)

theorem unread_nil (hwf : Buffer.WellFormed (s.conns c).outBuffer)
    (hempty : s.outPending c = false) : (s.conns c).outBuffer.unread = [] := by
  rw [outPending, decide_eq_false_iff_not] at hempty
  rw [← length_eq_zero_iff, unread_length hwf]
  exact Nat.eq_zero_of_not_pos hempty

theorem Sound.push (hs : Sound c s) {data : Bytes} {out : Buffer}
    (hpush : (s.conns c).outBuffer.writeStringAndPop data = .ok out) {s' : World}
    (hquiet : Quiet c ((s.log (.given c data)).setConn c { s.conns c with outBuffer := out }) s')
    (hwrite : writeAble (s'.conns c) = true) : Sound c s' := by
  obtain ⟨hwf, hun⟩ := writeStringAndPop_ok hs.out hpush
  have htrace : s'.trace = s.trace ++ [.given c data] := hquiet.trace
  have hk := hquiet.conns c
  rw [setConn_conns_self] at hk
  -- the data is given, and nothing is sent yet
  have hgiven : givenTo c s'.trace = givenTo c s.trace ++ data := by
    rw [htrace, givenTo_append]
    simp [givenTo]
  have hsent : sentBy c s'.trace = sentBy c s.trace := by
    rw [htrace, sentBy_append]
    simp [sentBy]
  refine ⟨by rw [hk.out]; exact hwf, ?_, ?_⟩
  · by_cases hrelease : release c ∈ s.trace
    · rw [htrace]
      exact hs.nothingLost.append_of_released hrelease _
    · rw [htrace]
      apply hs.nothingLost.concat
      · rw [← htrace, hgiven, hsent]
        exact (hs.live hrelease).sent_le.trans (prefix_append _ _)
      · intro heq
        cases heq
  · intro hrelease
    have hl := hs.live fun hmem => hrelease (by rw [htrace]; exact mem_append_left _ hmem)
    refine ⟨?_, hk.socket.trans hl.socket, by rw [hk.statu]; exact hl.statu, fun _ => hwrite⟩
    rw [hgiven, hsent, hl.given, hk.out, hun, append_assoc]

theorem sound_sendInLoop (c d : ConnId) (buf : Buffer) (hbuf : Buffer.WellFormed buf) :
    Respects (sound c) (sendInLoop d buf) := by
  intro s
  by_cases hd : c = d
  · subst hd
    refine wp_mono (wp_and (grows_sendInLoop c buf hbuf s) (sendInLoop_spec c hbuf s)) ?_ ?_
    · intro _ s' ⟨hg, hs'⟩
      refine ⟨hg, fun hs => ?_⟩
      rcases hs' with ⟨hstatu, rfl⟩ | ⟨out, _, hpush, hquiet, hwrite⟩
      · -- only a released connection is disconnected
        apply hs.given
        by_contra hrelease
        exact (hs.live hrelease).statu hstatu
      · exact hs.push hpush hquiet hwrite
    · intro s' ⟨hg, hs'⟩
      refine ⟨hg, fun hs => ?_⟩
      rw [hs']
      exact hs.halted_given _
  · refine wp_mono (wp_and (grows_sendInLoop d buf hbuf s) (sendInLoop_spec d hbuf s)) ?_ ?_
    · intro _ s' ⟨hg, hs'⟩
      refine ⟨hg, fun hs => ?_⟩
      have hlog := hs.log (given_counts hd buf.unread)
      rcases hs' with ⟨_, rfl⟩ | ⟨out, _, _, hquiet, _⟩
      · exact hlog
      · exact (hlog.setConn_ne hd _).of_quiet hquiet
    · intro s' ⟨hg, hs'⟩
      refine ⟨hg, fun hs => ?_⟩
      rw [hs']
      exact (hs.log (given_counts hd buf.unread)).halted

theorem Sound.release (hs : Sound c s) (hempty : s.outPending c = false) :
    Sound c (s.log (.release c)) ∧ Event.release c ∈ (s.log (.release c)).trace := by
  have hmem : Event.release c ∈ s.trace ++ [.release c] :=
    mem_append_right _ mem_cons_self
  refine ⟨⟨hs.out, ?_, fun h => absurd hmem h⟩, hmem⟩
  by_cases hrelease : Event.release c ∈ s.trace
  · exact hs.nothingLost.append_of_released hrelease _
  · have hl := hs.live hrelease
    -- the buffer is empty, so all that was given has been sent
    have hall : sentBy c s.trace = givenTo c s.trace := by
      rw [hl.given, unread_nil hs.out hempty, append_nil]
    apply hs.nothingLost.concat
    · rw [sentBy_append, givenTo_append]
      simp [sentBy, givenTo, hall]
    · intro _
      exact hall

theorem Sound.of_released {s' : World} (hs : Sound c s) (hrelease : Event.release c ∈ s.trace)
    (hout : Buffer.WellFormed (s'.conns c).outBuffer) (hgrows : s.trace <+: s'.trace) :
    Sound c s' := by
  obtain ⟨es, hes⟩ := hgrows
  refine ⟨hout, hes ▸ hs.nothingLost.append_of_released hrelease es, fun h => ?_⟩
  exact absurd (hes ▸ mem_append_left es hrelease) h

def closing (c : ConnId) : Guarantee World where
  ret := fun s s' => grows.ret s s' ∧ (release c ∈ s.trace → Sound c s → Sound c s')
  fault := fun s s' => grows.ret s s' ∧ (release c ∈ s.trace → Sound c s → Halted c s')
  refl := fun s => ⟨grows.refl s, fun _ => id⟩
  trans := fun h h' => ⟨grows.trans h.1 h'.1, fun hr hs => h'.2 (h.1.subset hr) (h.2 hr hs)⟩
  fault_refl := fun s => ⟨grows.refl s, fun _ => Sound.halted⟩
  fault_trans := fun h h' => ⟨grows.trans h.1 h'.1, fun hr hs => h'.2 (h.1.subset hr) (h.2 hr hs)⟩

theorem closing_of_sound {x : Code} (hx : Respects (sound c) x) : Respects (closing c) x :=
  hx.weaken (fun _ _ h => ⟨h.1, fun _ => h.2⟩) (fun _ _ h => ⟨h.1, fun _ => h.2⟩)

theorem closing_modify {f : World → World} (hgrows : ∀ s, s.trace <+: (f s).trace)
    (hout : ∀ s, ((f s).conns c).outBuffer = (s.conns c).outBuffer) :
    Respects (closing c) (modify f : Code) :=
  respects_modify fun s => ⟨hgrows s, fun hr hs =>
    hs.of_released hr (by rw [hout]; exact hs.out) (hgrows s)⟩

theorem closing_allowsQuiet (c d : ConnId) : AllowsQuiet (closing c) d where
  ret := fun _ _ h => ⟨grows_of_eq h.trace, fun _ hs => hs.of_quiet h⟩
  fault := fun _ _ h => ⟨grows_of_eq h.trace, fun _ hs => (hs.of_quiet h).halted⟩

theorem closing_allowsOn (c : ConnId) : AllowsOn (closing c) c where
  log := fun _ _ _ => closing_modify (fun _ => prefix_append _ _) (fun _ => rfl)
  statu := fun _ => closing_modify (fun _ => prefix_rfl) (fun s => by rw [setConn_conns_self])
  enter := fun op => closing_of_sound (sound_enter c op c)
  leave := closing_of_sound (sound_leave c c)
  close := closing_modify (fun _ => prefix_rfl) (fun s => by rw [setConn_conns_self])

theorem releaseBody_closing (huser : ∀ uc, Respects (sound c) (user uc)) :
    Respects (closing c) (releaseBody user self c) :=
  releaseBody_respects (closing_allowsQuiet c c).small (closing_allowsOn c)
    (closing_of_sound (sound_removeConnection c self c)) fun uc => closing_of_sound (huser uc)

theorem releaseInLoop_sound (huser : ∀ uc, Respects (sound c) (user uc))
    (hempty : s.outPending c = false) :
    wp (releaseInLoop user self c) (fun _ s' => (sound c).ret s s')
      (fun s' => (sound c).fault s s') s := by
  have hbody : Respects (closing c) (releaseBody user self c) := releaseBody_closing huser
  rw [releaseInLoop, wp_bind, logEvent, wp_modify]
  have hlog : grows.ret s (s.log (.release c)) := prefix_append _ _
  refine wp_mono (hbody _) ?_ ?_
  · intro _ s' hs'
    refine ⟨grows.trans hlog hs'.1, fun hs => ?_⟩
    obtain ⟨hsound, hmem⟩ := hs.release hempty
    exact hs'.2 hmem hsound
  · intro s' hs'
    refine ⟨grows.trans hlog hs'.1, fun hs => ?_⟩
    obtain ⟨hsound, hmem⟩ := hs.release hempty
    exact hs'.2 hmem hsound

theorem sound_setStatu {st : ConnStatu} (hst : st ≠ .disconnected) :
    Respects (sound c) (setStatu c st) := by
  apply respects_bind
  · apply respects_modify
    intro s
    refine ⟨grows_of_eq rfl, fun hs => hs.of_conn rfl ?_ ?_ ?_ ?_⟩ <;>
      simp only [setConn_conns_self]
    · exact fun _ => trivial
    · exact fun _ _ => hst
    · exact fun _ h => h
  · intro _
    exact sound_logEvent rfl

theorem shutdownInLoop_sound (huser : ∀ uc, Respects (sound c) (user uc)) :
    Respects (sound c) (shutdownInLoop user self c) := by
  apply respects_bind (sound_enter c _ c)
  intro _
  refine respects_bind ?_ fun _ => sound_leave c c
  apply respects_bind (sound_setStatu (by decide))
  intro _
  apply respects_bind respects_get
  intro s
  apply respects_bind (respects_whenever _ (huser _))
  intro _
  apply respects_bind respects_get
  intro s
  apply respects_bind
  · exact respects_whenever _ ((sound_allowsQuiet c c).small.enableWrite)
  · intro _
    apply respects_get_bind
    intro s
    rw [wp_whenever]
    -- the buffer is looked at after the callback, which may have sent more
    exact ⟨fun hempty => releaseInLoop_sound huser hempty, fun _ => (sound c).refl s⟩

theorem callback_sound (c : ConnId) (env : Env) (self : LoopId) (depth : Nat) (uc : UserCode) :
    Respects (sound c) (callback env self depth uc) := by
  apply callback_respects env (fun d => (sound_allowsQuiet c d).small) (sound_sendInLoop c)
  intro user d huser
  by_cases hd : c = d
  · subst hd
    -- the connection itself: the release needs an empty buffer
    exact shutdownInLoop_sound huser
  · have hrelease : Respects (sound c) (releaseInLoop user self d) :=
      releaseInLoop_respects (sound_allowsQuiet c d).small (sound_allowsOn hd)
        (sound_logEvent (decide_eq_false (Ne.symm hd))) (sound_removeConnection c self d) huser
    exact shutdownInLoop_respects (sound_allowsQuiet c d).small (sound_allowsOn hd) huser hrelease

/-! ### Writing -/

def Env.Accepting (env : Env) : Prop := ∀ n, env.send n ≠ none

theorem nonBlockSend_open (henv : env.Accepting) (hsocket : (s.conns c).socketOpen = true) :
    wp (nonBlockSend env c)
      (fun ret s' => ∃ len, ret = some len ∧ len ≤ (s.conns c).outBuffer.readAbleSize ∧
        s' = ({ s with calls := s.calls + 1 } : World).log
          (.sent c ((s.conns c).outBuffer.unread.take len)))
      (fun _ => False) s := by
  obtain ⟨k, hk⟩ := Option.ne_none_iff_exists'.mp (henv s.calls)
  rw [nonBlockSend, wp_bind, wp_nextCall, wp_bind, wp_get]
  simp only [hsocket, if_true, hk]
  rw [wp_bind, logEvent, wp_modify, wp_pure]
  exact ⟨_, rfl, Nat.min_le_right _ _, rfl⟩

theorem Sound.sent (hs : Sound c s) (hrelease : Event.release c ∉ s.trace) {len : Nat}
    {out : Buffer} (hmove : (s.conns c).outBuffer.moveReadOffset len = .ok out) {s1 : World}
    (hconn : s1.conns c = s.conns c)
    (htrace : s1.trace = s.trace ++ [.sent c ((s.conns c).outBuffer.unread.take len)]) :
    Sound c (s1.setConn c { s1.conns c with outBuffer := out }) := by
  have hl := hs.live hrelease
  obtain ⟨hlen, hwf, hun⟩ := moveReadOffset_ok hs.out hmove
  have hgiven : givenTo c s1.trace = givenTo c s.trace := by
    rw [htrace, givenTo_append]
    simp [givenTo]
  have hsent : sentBy c s1.trace = sentBy c s.trace ++ (s.conns c).outBuffer.unread.take len := by
    rw [htrace, sentBy_append]
    simp [sentBy]
  have hsplit : givenTo c s1.trace = sentBy c s1.trace ++ out.unread := by
    rw [hgiven, hsent, hl.given, hun, append_assoc, take_append_drop]
  refine ⟨by rw [setConn_conns_self]; exact hwf, ?_, fun _ => ?_⟩
  · show NothingLost c s1.trace
    rw [htrace]
    apply hs.nothingLost.concat
    · rw [← htrace, hsplit]
      exact prefix_append _ _
    · intro heq
      cases heq
  · refine ⟨?_, ?_, ?_, ?_⟩
    · rw [setConn_conns_self]
      exact hsplit
    · rw [setConn_conns_self, hconn]
      exact hl.socket
    · rw [setConn_conns_self, hconn]
      exact hl.statu
    · -- what is pending now was pending before, so EPOLLOUT has been asked for
      intro hpend
      rw [setConn_conns_self, hconn]
      apply hl.writeAble
      simp only [outPending, setConn_conns_self, decide_eq_true_eq] at hpend ⊢
      rw [← unread_length hwf, hun, length_drop, unread_length hs.out] at hpend
      omega

theorem moveSent_spec (hwf : Buffer.WellFormed (s.conns c).outBuffer) {len : Nat}
    (hlen : len ≤ (s.conns c).outBuffer.readAbleSize) :
    wp (moveSent c len)
      (fun _ s' => ∃ out, (s.conns c).outBuffer.moveReadOffset len = .ok out ∧
        s' = s.setConn c { s.conns c with outBuffer := out })
      (fun _ => False) s := by
  obtain ⟨out, hmove, _, _⟩ := moveReadOffset_spec hwf hlen
  rw [moveSent, tryConn, wp_bind, wp_get]
  simp only [hmove]
  show wp (set _) _ _ _
  rw [wp_set]
  exact ⟨out, rfl, rfl⟩

theorem disableWrite_sound (hs : Sound c s) (hempty : s.outPending c = false) :
    wp (disableWrite c) (fun _ s' => Sound c s' ∧ s'.outPending c = false)
      (fun s' => Halted c s') s := by
  rw [disableWrite, wp_bind, modifyConn, wp_modify]
  have hs1 : Sound c
      (s.setConn c { s.conns c with events := (s.conns c).events &&& ~~~EPOLLOUT }) := by
    refine hs.of_conn rfl ?_ ?_ ?_ ?_ <;> simp only [setConn_conns_self]
    · exact fun _ => trivial
    · exact fun _ hne => hne
    · intro hpend
      rw [hempty] at hpend
      cases hpend
  refine wp_mono (quiet_updateEvent (d := c) c _) ?_ (fun _ hquiet => (hs1.of_quiet hquiet).halted)
  intro _ s' hquiet
  refine ⟨hs1.of_quiet hquiet, ?_⟩
  rw [outPending, (hquiet.conns c).out, setConn_conns_self]
  exact hempty

theorem sound_of_wp {x : Code} (hgrows : Respects grows x)
    (h : ∀ s, Sound c s → wp x (fun _ s' => Sound c s') (fun s' => Halted c s') s) :
    Respects (sound c) x := by
  intro s
  by_cases hs : Sound c s
  · exact wp_mono (wp_and (hgrows s) (h s hs)) (fun _ _ h => ⟨h.1, fun _ => h.2⟩)
      (fun _ h => ⟨h.1, fun _ => h.2⟩)
  · exact wp_mono (hgrows s) (fun _ _ h => ⟨h, fun hs' => absurd hs' hs⟩)
      (fun _ h => ⟨h, fun hs' => absurd hs' hs⟩)

theorem closing_moveSent (c : ConnId) (len : Nat) : Respects (closing c) (moveSent c len) := by
  apply respects_get_bind
  intro s
  dsimp only
  cases hmove : (s.conns c).outBuffer.moveReadOffset len with
  | error fault => exact (wp_throw _ _ _ _).mpr ((closing c).fault_refl s)
  | ok out =>
    show wp (set _) _ _ _
    rw [wp_set]
    refine ⟨grows_of_eq rfl, fun hrelease hs => hs.of_released hrelease ?_ prefix_rfl⟩
    rw [setConn_conns_self]
    exact (moveReadOffset_ok hs.out hmove).2.1

theorem closing_disableWrite (c : ConnId) : Respects (closing c) (disableWrite c) := by
  apply respects_bind
  · exact closing_modify (fun _ => prefix_rfl) (fun s => by rw [setConn_conns_self])
  · intro _
    exact (closing_allowsQuiet c c).small.updateEvent

variable (huser : ∀ uc, Respects (sound c) (user uc))

include huser

theorem allSent_sound (hs : Sound c s) (hempty : s.outPending c = false) :
    wp (do disableWrite c
           let s ← get
           whenever ((s.conns c).statu = .disconnecting) (releaseInLoop user self c))
      (fun _ s' => Sound c s') (fun s' => Halted c s') s := by
  rw [wp_bind]
  apply wp_imp (disableWrite_sound hs hempty) _
  rintro _ s1 ⟨hs1, hempty1⟩
  rw [wp_bind, wp_get, wp_whenever]
  refine ⟨fun _ => ?_, fun _ => hs1⟩
  exact wp_mono (releaseInLoop_sound huser hempty1) (fun _ _ h => h.2 hs1) (fun _ h => h.2 hs1)

theorem handleWriteBody_sound (henv : env.Accepting) :
    Respects (sound c) (handleWriteBody user self env c) := by
  apply sound_of_wp
  · exact grows_handleWriteBody
      (fun uc => (huser uc).weaken (fun _ _ h => h.1) (fun _ _ h => h.1)) env
  · intro s hs
    by_cases hrelease : Event.release c ∈ s.trace
    · -- after the first release nothing is claimed of what is sent
      have hrelease' : Respects (closing c) (releaseInLoop user self c) :=
        respects_bind (closing_modify (fun _ => prefix_append _ _) (fun _ => rfl))
          fun _ => releaseBody_closing huser
      have hclosing : Respects (closing c) (handleWriteBody user self env c) :=
        handleWriteBody_respects (closing_allowsQuiet c c).small (closing_allowsOn c)
          (fun uc => closing_of_sound (huser uc)) hrelease' (closing_moveSent c)
          (closing_disableWrite c) env
      exact wp_mono (hclosing s) (fun _ _ h => h.2 hrelease hs) (fun _ h => h.2 hrelease hs)
    · -- the socket is open, so `send` takes some bytes and they come off the buffer
      rw [handleWriteBody, wp_bind]
      apply wp_mono (nonBlockSend_open henv (hs.live hrelease).socket) _ (fun _ h => h.elim)
      rintro _ s1 ⟨len, rfl, hlen, hs1⟩
      have hconn : s1.conns c = s.conns c := by rw [hs1]; rfl
      have htrace : s1.trace = s.trace ++ [.sent c ((s.conns c).outBuffer.unread.take len)] := by
        rw [hs1]
        rfl
      dsimp only
      rw [wp_bind]
      rw [← hconn] at hlen
      have hwf : Buffer.WellFormed (s1.conns c).outBuffer := by
        rw [hconn]
        exact hs.out
      apply wp_mono (moveSent_spec hwf hlen) _ (fun _ h => h.elim)
      rintro _ s2 ⟨out, hmove, rfl⟩
      rw [hconn] at hmove
      have hs2 := hs.sent hrelease hmove hconn htrace
      rw [wp_bind, wp_get, wp_whenever]
      exact ⟨fun hempty => allSent_sound huser hs2 hempty, fun _ => hs2⟩

theorem handleWrite_sound (henv : env.Accepting) :
    Respects (sound c) (handleWrite user self env c) := by
  apply respects_bind (sound_enter c _ c)
  intro _
  apply respects_bind (handleWriteBody_sound huser henv)
  intro _
  exact sound_leave c c

theorem establishedInLoop_sound : Respects (sound c) (establishedInLoop user c) := by
  apply respects_bind respects_get
  intro s
  apply respects_bind (respects_whenever _ (respects_throw _))
  intro _
  apply respects_bind (sound_setStatu (by decide))
  intro _
  apply respects_bind ((sound_allowsQuiet c c).small.enableRead)
  intro _
  apply respects_bind respects_get
  intro s
  exact respects_whenever _ (huser _)

end operations

/-! ## Runs -/

theorem exec_sound (henv : env.Accepting) (depth : Nat) (self : LoopId) (c : ConnId) (step : IoStep) :
    Respects (sound c) (step.exec env depth self c) := by
  have huser : ∀ uc, Respects (sound c) (callback env self depth uc) :=
    callback_sound c env self depth
  cases step with
  | established => exact establishedInLoop_sound huser
  | send data =>
    have hsend : Respects (sound c) (runFunctor (callback env self depth) self (.send c data)) :=
      sendFunctor_respects (sound_sendInLoop c c) data
    exact hsend
  | shutdown => exact shutdownInLoop_sound huser
  | handleRead =>
    exact handleRead_respects (sound_allowsQuiet c c).small huser (shutdownInLoop_sound huser) env
  | handleWrite => exact handleWrite_sound huser henv

theorem sound_initial (cfg : Config) (c : ConnId) : Sound c (World.initial cfg) where
  out := fresh_wellFormed
  nothingLost := by
    intro pre post heq _
    obtain ⟨rfl, rfl⟩ := append_eq_nil_iff.mp (Eq.symm heq)
    exact ⟨prefix_rfl, fun hhead => by cases hhead⟩
  live := fun _ => {
    given := by
      show [] = [] ++ fresh.unread
      rw [fresh_unread, append_nil]
    socket := rfl
    statu := fun h => by cases h
    writeAble := by
      intro hpend
      cases hpend }

theorem afterIo_halted (cfg : Config) (henv : env.Accepting) (depth : Nat) (c : ConnId)
    (steps : List IoStep) : Halted c (afterIo cfg env depth c steps) := by
  have hrun : Respects (sound c) (runAll (IoStep.exec env depth (cfg.loopOf c) c) steps) :=
    respects_runAll steps fun step _ => exec_sound henv depth (cfg.loopOf c) c step
  -- the run may end in a fault; what is left of the invariant there is enough
  apply stateAfter_of_wp
  have hinit := sound_initial cfg c
  exact wp_mono (hrun (initial cfg)) (fun _ _ h => (h.2 hinit).halted) (fun _ h => h.2 hinit)

/-- **A graceful shutdown loses no output, and output never stalls.** In every
    run of `Send`, `Shutdown`, `HandleRead` and `HandleWrite` on a connection,
    for every user program and every `send` that takes what it likes: up to
    the first release the bytes sent are a prefix of the bytes given to
    `SendInLoop`, at the release they are all of them, and until then
    `EPOLLOUT` is monitored as long as there is output. -/
theorem graceful_shutdown (cfg : Config) (env : Env) (henv : env.Accepting) (depth : Nat)
    (c : ConnId) (steps : List IoStep) :
    NothingLost c (afterIo cfg env depth c steps).trace ∧
      (release c ∉ (afterIo cfg env depth c steps).trace →
        (afterIo cfg env depth c steps).outPending c = true →
        writeAble ((afterIo cfg env depth c steps).conns c) = true) := by
  have h := afterIo_halted cfg henv depth c steps
  exact ⟨h.nothingLost, h.writeAble⟩

def Env.answering : Env where
  recv := fun _ => some [7]
  send := fun _ => some 2
  accept := fun _ => none
  user := fun _ uc => match uc with
    | .message c => [.pop c 1, .send c [1, 2, 3], .shutdown c]
    | _ => []

/-- The answer takes two calls of `send`, and the release comes after them. -/
theorem graceful_shutdown_answering :
    (sentBy 1 (afterIo .single .answering 1 1 [.established, .handleRead, .handleWrite,
        .handleWrite]).trace = [1, 2, 3] ∧
      release 1 ∈ (afterIo .single .answering 1 1 [.established, .handleRead, .handleWrite,
        .handleWrite]).trace) ∧
    NothingLost 1 (afterIo .single .answering 1 1 [.established, .handleRead, .handleWrite,
      .handleWrite]).trace := by
  have hrun : sentBy 1 (afterIo .single .answering 1 1 [.established, .handleRead, .handleWrite,
        .handleWrite]).trace = [1, 2, 3] ∧
      release 1 ∈ (afterIo .single .answering 1 1 [.established, .handleRead, .handleWrite,
        .handleWrite]).trace := by decide +kernel
  exact ⟨hrun, (graceful_shutdown .single .answering (fun _ h => by cases h) 1 1 _).1⟩

end CallLesson.Reactor
