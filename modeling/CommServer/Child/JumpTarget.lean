import CommServer.Child.Moves

/-!
# JumpTarget — where the alarm finds a connection child

`func_timeout_handler` jumps to `T_TmOutEnv`.  The jump has a target from the first return of
`setjmp` to the return of `process_main`.  Both are read off the actions and the places of a run
(`SetjmpCalled`, `MainReturned`), and `JumpsLive` says that every alarm of the run falls between them.

`alarm` is called before `setjmp` and never taken back.  So there is a window on either side
(`Pc.unguarded`), and an alarm that strikes there has no target.  `jumpsLive_iff` says that these are
all, and that only a configuration without a timeout has no such run.

`Moves` lists the steps of a child by the part of its life they start and end in
(`moves_of_childStep`).
-/

namespace CommServer

open CLib Transition

/-! ## The target of the jump -/

/-- `setjmp` has returned for the first time. -/
def SetjmpCalled (as : List ChildAct) : Prop :=
  ∃ errno rcvbuf stream, ChildAct.enter errno rcvbuf stream ∈ as

/-- `process_main` has returned. -/
def MainReturned (cfg : CommSvrSocket) (as : List ChildAct) : Prop :=
  ∃ bs s ret, bs <+: as ∧ exec (childStep cfg) Child.init bs = some s ∧ s.pc = .mainReturned ret

/-- Whenever the alarm strikes, `T_TmOutEnv` is filled and its frame is still there. -/
def JumpsLive (cfg : CommSvrSocket) (as : List ChildAct) : Prop :=
  ∀ bs, bs ++ [.sigalrm] <+: as → SetjmpCalled bs ∧ ¬ MainReturned cfg bs

/-- Between `alarm` and `setjmp`, and between the return of `process_main` and the exit. -/
def Pc.unguarded : Pc → Bool
  | .alarmSet | .mainReturned _ | .closed => true
  | _ => false

/-! ## The parts of a child's life -/

inductive Phase
  | before
  | inside
  | after
  | ended
  deriving DecidableEq, Repr

def Pc.phase : Pc → Phase
  | .start | .portKnown | .alarmSet => .before
  | .mainReturned _ | .closed => .after
  | .exited | .faulted | .wild => .ended
  | _ => .inside

/-- One step of a child, by the phases it joins. -/
inductive Moves (cfg : CommSvrSocket) : Child → ChildAct → Child → Prop
  | port {s : Child} (h : s.pc = .start) :
      Moves cfg s (.localPort true) { s with pc := .portKnown }
  | alarm {s : Child} (h : s.pc = .portKnown) :
      Moves cfg s .go { s with pc := .alarmSet, armed := cfg.waterTimeout ≠ 0 }
  | setjmp {s s' : Child} {errno : Errno} {rcvbuf : SockoptResult} {stream : List Byte}
      (h : s.pc = .alarmSet) (h' : s'.pc.phase = .inside) (harmed : s'.armed = s.armed) :
      Moves cfg s (.enter errno rcvbuf stream) s'
  | inside {s s' : Child} {a : ChildAct} (h : s.pc.phase = .inside) (h' : s'.pc.phase = .inside)
      (harmed : s'.armed = true → s.armed = true) : Moves cfg s a s'
  | returns {s s' : Child} {a : ChildAct} {ret : Int} (h' : s'.pc = .mainReturned ret)
      (harmed : s'.armed = s.armed) : Moves cfg s a s'
  | closes {s s' : Child} {a : ChildAct} (h : s.pc.phase = .after) (h' : s'.pc.phase = .after)
      (harmed : s'.armed = s.armed) : Moves cfg s a s'
  | ends {s s' : Child} {a : ChildAct} (h' : s'.pc.phase = .ended)
      (harmed : s'.armed = true → s.armed = true) : Moves cfg s a s'

section Steps

variable {cfg : CommSvrSocket} {s s' : Child}

theorem phase_of_inMain {pc : Pc} (h : pc.inMain = true) : pc.phase = .inside := by
  cases pc <;> simp [Pc.inMain] at h <;> rfl

theorem moves_of_childStep {a : ChildAct} (h : childStep cfg s a = some s') :
    Moves cfg s a s' := by
  cases move_of_childStep h with
  | portFound hpc => exact .port hpc
  | portMissing => exact .returns rfl rfl
  | setAlarm hpc => exact .alarm hpc
  | enter errno rcvbuf stream hpc => exact .setjmp hpc rfl rfl
  -- The phase of each place inside is read off its name.
  | recvAgain r rBufLen st st' hpc => exact .inside (congrArg Pc.phase hpc) rfl id
  | recvReturns r rBufLen st st' v hpc => exact .inside (congrArg Pc.phase hpc) rfl id
  | recvFaults => exact .ends rfl id
  | recvFull rBufLen st hpc => exact .inside (congrArg Pc.phase hpc) rfl id
  | parses recvMsg req hpc => exact .inside (congrArg Pc.phase hpc) rfl id
  | parseFaults => exact .ends rfl id
  | calls o req t hpc => exact .inside (congrArg Pc.phase hpc) rfl id
  | callFaults => exact .ends rfl id
  | formats req t resp hpc => exact .inside (congrArg Pc.phase hpc) rfl id
  | formatFaults => exact .ends rfl id
  | sends r resp st st' hpc => exact .inside (congrArg Pc.phase hpc) rfl id
  | sendFails r resp st st' v hpc => exact .inside (congrArg Pc.phase hpc) rfl id
  | sendEnds resp st hpc => exact .inside (congrArg Pc.phase hpc) rfl id
  | parseReturns => exact .returns rfl rfl
  | formatsTimeout resp hpc => exact .inside (congrArg Pc.phase hpc) rfl id
  | formatTimeoutFaults => exact .ends rfl id
  | sendsTimeout r resp st st' hpc => exact .inside (congrArg Pc.phase hpc) rfl id
  | timeoutFails => exact .returns rfl rfl
  | timeoutEnds => exact .returns rfl rfl
  | closes ret hpc => exact .closes (congrArg Pc.phase hpc) rfl rfl
  | exits => exact .ends rfl id
  | jumps harmed hmain => exact .inside (phase_of_inMain hmain) rfl fun _ => harmed
  | strays harmed hmain => exact .ends rfl fun _ => harmed

end Steps

/-! ## The history of a run -/

section History

variable {cfg : CommSvrSocket} {as bs : List ChildAct} {s s' : Child} {a : ChildAct}

theorem SetjmpCalled.concat (h : SetjmpCalled as) (a : ChildAct) : SetjmpCalled (as ++ [a]) := by
  rcases h with ⟨errno, rcvbuf, stream, hmem⟩
  exact ⟨errno, rcvbuf, stream, List.mem_append_left _ hmem⟩

theorem not_setjmpCalled_concat (h : ¬ SetjmpCalled as)
    (ha : ∀ errno rcvbuf stream, a ≠ .enter errno rcvbuf stream) : ¬ SetjmpCalled (as ++ [a]) := by
  rintro ⟨errno, rcvbuf, stream, hmem⟩
  rcases List.mem_append.1 hmem with hmem | hmem
  · exact h ⟨errno, rcvbuf, stream, hmem⟩
  · exact ha _ _ _ (List.mem_singleton.1 hmem).symm

theorem MainReturned.concat (h : MainReturned cfg as) (a : ChildAct) :
    MainReturned cfg (as ++ [a]) := by
  rcases h with ⟨bs, s, ret, hpre, hrun, hpc⟩
  exact ⟨bs, s, ret, hpre.trans (List.prefix_append as [a]), hrun, hpc⟩

theorem not_mainReturned_concat (h : ¬ MainReturned cfg as) (hphase : s.pc.phase ≠ .after)
    (hrun : exec (childStep cfg) Child.init (as ++ [a]) = some s) :
    ¬ MainReturned cfg (as ++ [a]) := by
  rintro ⟨bs, t, ret, hpre, ht, hpc⟩
  rcases List.prefix_concat_iff.1 hpre with rfl | hpre
  · have heq : t = s := Option.some.inj (ht.symm.trans hrun)
    exact hphase (congrArg Pc.phase (heq ▸ hpc))
  · exact h ⟨bs, t, ret, hpre, ht, hpc⟩

/-- What the place of a child says about the run that led there. -/
structure Past (cfg : CommSvrSocket) (as : List ChildAct) (s : Child) : Prop where
  before : s.pc.phase = .before → ¬ SetjmpCalled as ∧ ¬ MainReturned cfg as
  inside : s.pc.phase = .inside → SetjmpCalled as ∧ ¬ MainReturned cfg as
  after : s.pc.phase = .after → MainReturned cfg as
  /-- The alarm is set on the way to `setjmp`. -/
  unarmed : s.pc = .start ∨ s.pc = .portKnown → s.armed = false

theorem past_init : Past cfg [] Child.init := by
  have hnone : ¬ MainReturned cfg [] := by
    rintro ⟨bs, s, ret, hpre, hrun, hpc⟩
    rw [List.prefix_nil.1 hpre] at hrun
    rw [← Option.some.inj hrun] at hpc
    cases hpc
  constructor
  · intro _
    exact ⟨by simp [SetjmpCalled], hnone⟩
  · intro h
    cases h
  · intro h
    cases h
  · intro _
    rfl

/-- A history of a place inside `process_main`. -/
theorem Past.of_inside (h : SetjmpCalled as ∧ ¬ MainReturned cfg as) (hs : s.pc.phase = .inside) :
    Past cfg as s := by
  constructor
  · intro h'
    rw [hs] at h'
    cases h'
  · intro _
    exact h
  · intro h'
    rw [hs] at h'
    cases h'
  · rintro (h' | h')
    · rw [h'] at hs
      cases hs
    · rw [h'] at hs
      cases hs

/-- The step lemma: one action moves the child on and lengthens the run. -/
theorem past_step (hpast : Past cfg as s) (hmove : Moves cfg s a s')
    (hrun : exec (childStep cfg) Child.init (as ++ [a]) = some s') :
    Past cfg (as ++ [a]) s' := by
  cases hmove with
  | port h =>
      rcases hpast.before (congrArg Pc.phase h) with ⟨hset, hret⟩
      refine ⟨fun _ => ⟨?_, ?_⟩, nofun, nofun, fun _ => hpast.unarmed (.inl h)⟩
      · exact not_setjmpCalled_concat hset (by simp)
      · exact not_mainReturned_concat hret (by simp [Pc.phase]) hrun
  | alarm h =>
      rcases hpast.before (congrArg Pc.phase h) with ⟨hset, hret⟩
      refine ⟨fun _ => ⟨?_, ?_⟩, nofun, nofun, nofun⟩
      · exact not_setjmpCalled_concat hset (by simp)
      · exact not_mainReturned_concat hret (by simp [Pc.phase]) hrun
  | setjmp h h' harmed =>
      rcases hpast.before (congrArg Pc.phase h) with ⟨-, hret⟩
      refine .of_inside ⟨⟨_, _, _, List.mem_append_right _ List.mem_cons_self⟩, ?_⟩ h'
      exact not_mainReturned_concat hret (by simp [h']) hrun
  | inside h h' harmed =>
      rcases hpast.inside h with ⟨hset, hret⟩
      exact .of_inside ⟨hset.concat a, not_mainReturned_concat hret (by simp [h']) hrun⟩ h'
  | returns h' harmed =>
      -- This step is the return.
      have hmain : MainReturned cfg (as ++ [a]) := ⟨_, s', _, List.prefix_refl _, hrun, h'⟩
      refine ⟨?_, ?_, fun _ => hmain, ?_⟩ <;> simp [h', Pc.phase]
  | closes h h' harmed =>
      refine ⟨?_, ?_, fun _ => (hpast.after h).concat a, ?_⟩
      · simp [h']
      · simp [h']
      · rintro (hpc | hpc) <;> simp [hpc, Pc.phase] at h'
  | ends h' harmed =>
      refine ⟨?_, ?_, ?_, ?_⟩
      · simp [h']
      · simp [h']
      · simp [h']
      · rintro (hpc | hpc) <;> simp [hpc, Pc.phase] at h'

theorem past_of_exec (h : exec (childStep cfg) Child.init as = some s) : Past cfg as s := by
  -- The run grows at its end, and so does its history.
  induction as using List.reverseRecOn generalizing s with
  | nil =>
      have heq : Child.init = s := Option.some.inj h
      exact heq ▸ past_init
  | append_singleton as a ih =>
      rcases exec_concat_eq_some h with ⟨t, ht, hstep⟩
      exact past_step (ih ht) (moves_of_childStep hstep) h

end History

/-! ## Runs whose jumps have a target -/

section Runs

variable {cfg : CommSvrSocket} {as : List ChildAct} {s s' : Child}

theorem sigalrm_of_some (h : childStep cfg s .sigalrm = some s') :
    s.armed = true ∧ s.pc.running = true := by
  simp only [childStep] at h
  split at h
  · rename_i hcond
    simpa using hcond
  · cases h

/-- The alarm has a target exactly outside the two windows. -/
theorem target_iff_guarded (hpast : Past cfg as s) (h : childStep cfg s .sigalrm = some s') :
    (SetjmpCalled as ∧ ¬ MainReturned cfg as) ↔ s.pc.unguarded = false := by
  rcases sigalrm_of_some h with ⟨harmed, hrun⟩
  cases hphase : s.pc.phase with
  | before =>
      rcases hpast.before hphase with ⟨hset, -⟩
      have hunarmed : ¬ (s.pc = .start ∨ s.pc = .portKnown) := by
        intro hpc
        simp [hpast.unarmed hpc] at harmed
      have hpc : s.pc = .alarmSet := by
        cases hpc : s.pc <;> simp [hpc, Pc.phase] at hphase hunarmed ⊢
      simp [hset, hpc, Pc.unguarded]
  | inside =>
      have hguarded : s.pc.unguarded = false := by
        cases hpc : s.pc <;> simp [hpc, Pc.phase] at hphase <;> rfl
      simp [hpast.inside hphase, hguarded]
  | after =>
      have hwindow : s.pc.unguarded = true := by
        cases hpc : s.pc <;> simp [hpc, Pc.phase] at hphase <;> rfl
      simp [hpast.after hphase, hwindow]
  | ended =>
      cases hpc : s.pc <;> simp [hpc, Pc.phase, Pc.running] at hphase hrun

/-- A run's jumps have a target exactly when no alarm strikes in a window. -/
theorem jumpsLive_iff_along (h : exec (childStep cfg) Child.init as = some s) :
    JumpsLive cfg as ↔
      Along (childStep cfg) (fun t a => a = .sigalrm → t.pc.unguarded = false) Child.init as := by
  rw [along_iff_prefixes]
  constructor
  · intro hlive bs a t hpre ht halarm
    subst halarm
    rcases exec_of_prefix hpre h with ⟨u, hu⟩
    rcases exec_concat_eq_some hu with ⟨t', ht', hstep⟩
    have heq : t' = t := Option.some.inj (ht'.symm.trans ht)
    subst heq
    exact (target_iff_guarded (past_of_exec ht') hstep).1 (hlive bs hpre)
  · intro hall bs hpre
    rcases exec_of_prefix hpre h with ⟨u, hu⟩
    rcases exec_concat_eq_some hu with ⟨t, ht, hstep⟩
    exact (target_iff_guarded (past_of_exec ht) hstep).2 (hall bs _ t hpre ht rfl)

/-- Without a timeout no alarm is ever pending. -/
theorem not_armed (h0 : cfg.waterTimeout = 0)
    (h : exec (childStep cfg) Child.init as = some s) : s.armed = false := by
  refine exec_induct (I := fun s => s.armed = false) ?_ rfl h
  intro s a s' hs hstep
  rw [Bool.eq_false_iff] at hs ⊢
  cases moves_of_childStep hstep with
  | port _ => exact hs
  | alarm _ => simp [h0]
  | setjmp _ _ harmed => rwa [harmed]
  | inside _ _ harmed => exact fun ht => hs (harmed ht)
  | returns _ harmed => rwa [harmed]
  | closes _ _ harmed => rwa [harmed]
  | ends _ harmed => exact fun ht => hs (harmed ht)

/-- With a timeout the alarm can strike right after it is set. -/
theorem early_jump (h0 : cfg.waterTimeout ≠ 0) :
    exec (childStep cfg) Child.init [.localPort true, .go, .sigalrm] =
        some { pc := .wild, armed := false, wire := [], normal := none } ∧
      ¬ JumpsLive cfg [.localPort true, .go, .sigalrm] := by
  refine ⟨?_, fun hlive => ?_⟩
  · simp [exec, childStep, Child.init, Pc.running, Pc.inMain, h0]
  · rcases hlive [.localPort true, .go] (by simp) with ⟨hset, -⟩
    simp [SetjmpCalled] at hset

/-- Whatever `process_parse` returns, the alarm is still set when `process_main` has returned. -/
theorem late_jump (h0 : cfg.waterTimeout ≠ 0) {rx : Reception} {o : TuxOutcome}
    {tx : List SendResult} {ret : Int} (h : (processParse cfg rx o tx).ret = some ret) :
    ∃ as s, exec (childStep cfg) Child.init (as ++ [.sigalrm]) = some s ∧ s.pc = .wild ∧
      ¬ JumpsLive cfg (as ++ [.sigalrm]) := by
  have hreturned : Reaches (childStep cfg) Quiet Child.init
      { pc := .mainReturned (if ret ≠ eOk then eFail else eOk)
        armed := true
        wire := (processParse cfg rx o tx).sent
        normal := (processParse cfg rx o tx).response } := by
    have hstart : Reaches (childStep cfg) Quiet Child.init
        { pc := .alarmSet, armed := true, wire := [], normal := none } :=
      ⟨[.localPort true, .go], by simp [Quiet], by simp [exec, childStep, Child.init, h0]⟩
    exact (hstart.trans (child_follows_processParse h true)).trans
      (.single (a := .go) (by simp [Quiet]) rfl)
  rcases hreturned with ⟨as, -, hrun⟩
  refine ⟨as, _, (exec_append hrun).trans (exec_cons rfl), rfl, fun hlive => ?_⟩
  rcases hlive as (List.prefix_refl _) with ⟨-, hret⟩
  exact hret ⟨as, _, _, List.prefix_refl _, hrun, rfl⟩

/-- Every jump of every run has a target exactly when there is no timeout; with one, the runs whose
jumps all have a target are those without an alarm in a window. -/
theorem jumpsLive_iff (cfg : CommSvrSocket) :
    ((∀ as s, exec (childStep cfg) Child.init as = some s → JumpsLive cfg as) ↔
        cfg.waterTimeout = 0) ∧
      ∀ as s, exec (childStep cfg) Child.init as = some s →
        (JumpsLive cfg as ↔
          Along (childStep cfg) (fun t a => a = .sigalrm → t.pc.unguarded = false) Child.init as) := by
  refine ⟨⟨fun hall => ?_, fun h0 as s hrun => ?_⟩, fun as s hrun => jumpsLive_iff_along hrun⟩
  · by_contra h0
    rcases early_jump h0 with ⟨hrun, hdead⟩
    exact hdead (hall _ _ hrun)
  · -- No alarm ever strikes.
    intro bs hpre
    rcases exec_of_prefix hpre hrun with ⟨u, hu⟩
    rcases exec_concat_eq_some hu with ⟨t, ht, hstep⟩
    rcases sigalrm_of_some hstep with ⟨harmed, -⟩
    rw [not_armed h0 ht] at harmed
    cases harmed

/-- With the shipped timeout of 60 seconds the alarm can strike before `setjmp`. -/
theorem shipped_jump_without_target :
    ¬ ∀ (cfg : CommSvrSocket) (as : List ChildAct) (s : Child),
      exec (childStep cfg) Child.init as = some s → JumpsLive cfg as := by
  intro hall
  have h0 : CommSvrSocket.shipped.waterTimeout ≠ 0 := by decide
  rcases early_jump h0 with ⟨hrun, hdead⟩
  exact hdead (hall _ _ _ hrun)

end Runs

end CommServer
