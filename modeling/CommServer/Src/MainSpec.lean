import CommServer.Src.Main
import CommServer.Transition.System

/-!
# MainSpec — what a step of the service can do

* `Move`, `move_of_codeStep` : the steps of the code, each with what makes it possible;
* `sysStep_cases`            : a step of the service is a move of one of its processes;
* `childStep_of_codeStep`    : the steps of a connection child are its own;
* `Sys.all_apply`            : what holds of every process still does, if it does of those that moved;
* `Effect.events`            : what a step adds to the history.
-/

namespace CommServer

open Unix Transition

/-! ## Moves -/

/-- What a process can do, and what comes of it. -/
inductive Move (s : Sys) (p : Pid) (pr : Process) : Act → Effect → Prop
  | die : Move s p pr .die (.exit [.died p pr.inHand])
  | forkFails (h : pr.loc = .started ∨ pr.loc = .reaped) : Move s p pr (.fork false) (.exit [])
  | forkServer (h : pr.loc = .started ∨ pr.loc = .reaped) :
      Move s p pr (.fork true) (.fork none .polling .doProcess)
  | nobodyDead (h : pr.loc = .polling) :
      Move s p pr (.waitpid none) (.goOn (pr.goto .sleeping) [])
  | reap (q : Pid) (h : pr.loc = .polling) (hq : (q, p) ∈ s.procs.zombies) :
      Move s p pr (.waitpid (some q)) (.reap q)
  | wake (h : pr.loc = .sleeping) : Move s p pr .wake (.goOn (pr.goto .polling) [])
  | configFails (h : pr.loc = .doProcess) : Move s p pr (.config none) (.exit [])
  | config (svr : CommSvrSocket) (h : pr.loc = .doProcess) :
      Move s p pr (.config (some svr))
        (.goOn { pr with ignoresChild := true, state := { loc := .configured, svr := svr } } [])
  | socketFails (h : pr.loc = .configured) : Move s p pr (.socket none) (.exit [])
  | socket (fd : Fd) (h : pr.loc = .configured) (hfree : fd ∉ pr.table.fds) :
      Move s p pr (.socket (some fd))
        (.goOn ((pr.withTable (pr.table.insert fd .stream hfree)).goto (.socketMade fd)) [])
  | bindRefused (fd : Fd) (h : pr.loc = .socketMade fd) (hport : s.listeningOn pr.port = true) :
      Move s p pr .bind (.exit [.refused p pr.port])
  | bind (fd : Fd) (h : pr.loc = .socketMade fd) :
      Move s p pr .bind
        (.goOn ((pr.withTable (pr.table.set fd (.bound pr.port))).goto (.bound fd)) [])
  | listenRefused (fd : Fd) (h : pr.loc = .bound fd) (hport : s.listeningOn pr.port = true) :
      Move s p pr .listen (.exit [.refused p pr.port])
  | listen (fd : Fd) (h : pr.loc = .bound fd) :
      Move s p pr .listen
        (.goOn ((pr.withTable (pr.table.set fd (.listening pr.port))).goto (.loopHead fd)) [])
  | idle (rets : Int) (l : Fd) (h : pr.loc = .loopHead l) :
      Move s p pr (.select rets) (.goOn (pr.goto (.loopHead l)) [])
  | select (rets : Int) (l : Fd) (h : pr.loc = .loopHead l) :
      Move s p pr (.select rets) (.goOn (pr.goto (.selected l)) [])
  | acceptFails (l : Fd) (h : pr.loc = .selected l) :
      Move s p pr (.accept none) (.goOn (pr.goto (.loopHead l)) [])
  | accept (l fd : Fd) (h : pr.loc = .selected l) (hfree : fd ∉ pr.table.fds) :
      Move s p pr (.accept (some fd))
        (.goOn
          ((pr.withTable (pr.table.insert fd (.conn s.log.length) hfree)).goto (.accepted l fd))
          [.accepted p s.log.length])
  | forkProcFails (l fd : Fd) (h : pr.loc = .accepted l fd) :
      Move s p pr (.fork false)
        (.goOn (pr.goto (.forked l fd)) [.forked p (pr.table.get fd) none])
  | forkProc (l fd : Fd) (h : pr.loc = .accepted l fd) :
      Move s p pr (.fork true)
        (.fork (pr.table.get fd) (.forked l fd) (.processMain fd Child.init))
  | close (l fd : Fd) (h : pr.loc = .forked l fd) :
      Move s p pr .close
        (.goOn ((pr.withTable (pr.table.close fd)).goto (.loopHead l))
          [.closed p (pr.table.get fd)])
  | child (fd : Fd) (c c' : Child) (a : ChildAct) (h : pr.loc = .processMain fd c) :
      Move s p pr (.child a) (.goOn (pr.goto (.processMain fd c')) [])
  | childCloses (fd : Fd) (c c' : Child) (a : ChildAct) (h : pr.loc = .processMain fd c) :
      Move s p pr (.child a)
        (.goOn ((pr.withTable (pr.table.close fd)).goto (.processMain fd c'))
          [.released p (pr.table.get fd)])
  | childExits (fd : Fd) (c : Child) (a : ChildAct) (h : pr.loc = .processMain fd c) :
      Move s p pr (.child a) (.exit [])

theorem move_of_codeStep {s : Sys} {p : Pid} {pr : Process} {a : Act} {eff : Effect}
    (h : codeStep s p pr a = some eff) : Move s p pr a eff := by
  unfold codeStep at h
  split at h
  case h_1 => exact Option.some.inj h ▸ .die
  case h_2 ok hloc =>
    cases ok with
    | true => exact Option.some.inj h ▸ .forkServer (Or.inl hloc)
    | false => exact Option.some.inj h ▸ .forkFails (Or.inl hloc)
  case h_3 ok hloc =>
    cases ok with
    | true => exact Option.some.inj h ▸ .forkServer (Or.inr hloc)
    | false => exact Option.some.inj h ▸ .forkFails (Or.inr hloc)
  case h_4 hloc =>
    split at h
    · cases h
    · exact Option.some.inj h ▸ .nobodyDead hloc
  case h_5 q hloc =>
    split at h
    case isTrue hq => exact Option.some.inj h ▸ .reap q hloc hq
    case isFalse => cases h
  case h_6 hloc => exact Option.some.inj h ▸ .wake hloc
  case h_7 hloc => exact Option.some.inj h ▸ .configFails hloc
  case h_8 svr hloc => exact Option.some.inj h ▸ .config svr hloc
  case h_9 hloc => exact Option.some.inj h ▸ .socketFails hloc
  case h_10 fd hloc =>
    split at h
    case isTrue hfree => exact Option.some.inj h ▸ .socket fd hloc hfree
    case isFalse => cases h
  case h_11 fd hloc =>
    rw [← Option.some.inj h]
    split
    case isTrue hport => exact .bindRefused fd hloc hport
    case isFalse => exact .bind fd hloc
  case h_12 fd hloc =>
    rw [← Option.some.inj h]
    split
    case isTrue hport => exact .listenRefused fd hloc hport
    case isFalse => exact .listen fd hloc
  case h_13 l rets hloc =>
    rw [← Option.some.inj h]
    split
    case isTrue => exact .idle rets l hloc
    case isFalse => exact .select rets l hloc
  case h_14 l hloc => exact Option.some.inj h ▸ .acceptFails l hloc
  case h_15 l fd hloc =>
    split at h
    case isTrue hfree => exact Option.some.inj h ▸ .accept l fd hloc hfree
    case isFalse => cases h
  case h_16 l fd ok hloc =>
    cases ok with
    | true => exact Option.some.inj h ▸ .forkProc l fd hloc
    | false => exact Option.some.inj h ▸ .forkProcFails l fd hloc
  case h_17 l fd hloc => exact Option.some.inj h ▸ .close l fd hloc
  case h_18 fd c a hloc =>
    rcases Option.map_eq_some_iff.1 h with ⟨c', -, heff⟩
    rw [← heff]
    split
    case h_1 => exact .childCloses fd c c' a hloc
    case h_2 => exact .childExits fd c a hloc
    case h_3 => exact .child fd c c' a hloc
  case h_19 => cases h

/-- What becomes of a connection child that a step of its own takes to `c'`. -/
inductive ChildEffect (p : Pid) (pr : Process) (fd : Fd) (c' : Child) : Effect → Prop
  | closes (h : c'.pc = .closed) :
      ChildEffect p pr fd c'
        (.goOn ((pr.withTable (pr.table.close fd)).goto (.processMain fd c'))
          [.released p (pr.table.get fd)])
  | exits (h : c'.pc = .exited) : ChildEffect p pr fd c' (.exit [])
  | goesOn (hclosed : c'.pc ≠ .closed) (hexited : c'.pc ≠ .exited) :
      ChildEffect p pr fd c' (.goOn (pr.goto (.processMain fd c')) [])

/-- The steps of a connection child are those of `childStep`. -/
theorem childStep_of_codeStep {s : Sys} {p : Pid} {pr : Process} {a : ChildAct} {eff : Effect}
    (h : codeStep s p pr (.child a) = some eff) :
    ∃ fd c c', pr.loc = .processMain fd c ∧ childStep pr.state.svr c a = some c' ∧
      ChildEffect p pr fd c' eff := by
  cases hloc : pr.loc with
  | processMain fd c =>
      simp only [codeStep, hloc] at h
      rcases Option.map_eq_some_iff.1 h with ⟨c', hstep, heff⟩
      refine ⟨fd, c, c', rfl, hstep, ?_⟩
      rw [← heff]
      split
      case h_1 hpc => exact .closes hpc
      case h_2 hpc => exact .exits hpc
      case h_3 hclosed hexited => exact .goesOn hclosed hexited
  | _ => simp [codeStep, hloc] at h

theorem sysStep_of_codeStep {s : Sys} {p : Pid} {pr : Process} {a : Act} {eff : Effect}
    (hp : s.procs.proc p = some pr) (hcode : codeStep s p pr a = some eff) :
    sysStep s (p, a) = some (s.apply p pr eff) := by
  simp only [sysStep, hp, Option.bind_some, hcode, Option.map_some]

/-- A step of the service is one of the code of a process. -/
theorem codeStep_of_sysStep {s s' : Sys} {p : Pid} {a : Act} (h : sysStep s (p, a) = some s') :
    ∃ (pr : Process) (eff : Effect),
      s.procs.proc p = some pr ∧ codeStep s p pr a = some eff ∧ s' = s.apply p pr eff := by
  rcases Option.bind_eq_some_iff.1 h with ⟨pr, hp, hmap⟩
  rcases Option.map_eq_some_iff.1 hmap with ⟨eff, hcode, happly⟩
  exact ⟨pr, eff, hp, hcode, happly.symm⟩

/-- A step of the service is a move of one of its processes, and what the kernel makes of it. -/
theorem sysStep_cases {s s' : Sys} {p : Pid} {a : Act} (h : sysStep s (p, a) = some s') :
    ∃ (pr : Process) (eff : Effect),
      s.procs.proc p = some pr ∧ Move s p pr a eff ∧ s' = s.apply p pr eff := by
  rcases Option.bind_eq_some_iff.1 h with ⟨pr, hp, hstep⟩
  rcases Option.map_eq_some_iff.1 hstep with ⟨eff, hcode, happly⟩
  exact ⟨pr, eff, hp, move_of_codeStep hcode, happly.symm⟩

/-! ## What holds of every process -/

/-- The property `P` of every live process. -/
def Sys.All (s : Sys) (P : Pid → Process → Prop) : Prop :=
  ∀ p pr, s.procs.proc p = some pr → P p pr

/-- The property `P` of the processes that move: the one that does the step, and its child. -/
def Effect.Leaves (s : Sys) (p : Pid) (pr : Process) (P : Pid → Process → Prop) : Effect → Prop
  | .goOn pr' _ => P p pr'
  | .fork _ here there =>
      P p (pr.goto here) ∧
        P s.procs.next (Procs.childOf p pr { pr.state with loc := there })
  | .reap _ => P p (pr.goto .reaped)
  | .exit _ => True

/-- What holds of every process holds after a step if it holds of the processes that moved, and is
still true of the others. -/
theorem Sys.all_apply {s : Sys} {p : Pid} {pr : Process} {P : Pid → Process → Prop} {eff : Effect}
    (hp : s.procs.proc p = some pr)
    (hothers : ∀ q prq, q ≠ p → s.procs.proc q = some prq → P q prq)
    (hmoved : eff.Leaves s p pr P) : (s.apply p pr eff).All P := by
  intro q prq hq
  cases eff with
  | goOn pr' events =>
      rcases Procs.live_modify hp hq with ⟨rfl, rfl⟩ | ⟨hne, hold⟩
      · exact hmoved
      · exact hothers q prq hne hold
  | fork handed here there =>
      -- The parent goes on after the child was made, with another number than its child.
      have hp' : (s.procs.fork p pr { pr.state with loc := there }).proc p = some pr := by
        rw [Procs.proc_fork_of_ne (Procs.ne_next hp), hp]
      rcases Procs.live_modify hp' hq with ⟨rfl, rfl⟩ | ⟨hne, hold⟩
      · exact hmoved.1
      · -- It is the child, or a third process.
        rcases Procs.live_fork hold with ⟨rfl, rfl⟩ | hold
        · exact hmoved.2
        · exact hothers q prq hne hold
  | reap z =>
      rcases Procs.live_modify (t := s.procs.reap z p) hp hq with ⟨rfl, rfl⟩ | ⟨hne, hold⟩
      · exact hmoved
      · exact hothers q prq hne hold
  | exit events =>
      rcases Procs.live_exit hq with ⟨hne, hold⟩
      exact hothers q prq hne hold

/-- The other processes are as they were, whether they live or not. -/
theorem Sys.proc_apply_of_ne {s : Sys} {p q : Pid} (pr : Process) (eff : Effect) (hne : q ≠ p)
    (hold : q < s.procs.next) : (s.apply p pr eff).procs.proc q = s.procs.proc q := by
  cases eff with
  | goOn pr' events => exact Procs.proc_modify_of_ne hne
  | fork handed here there =>
      calc
        (s.apply p pr (.fork handed here there)).procs.proc q
            = (s.procs.fork p pr { pr.state with loc := there }).proc q :=
              Procs.proc_modify_of_ne hne
        _ = s.procs.proc q := Procs.proc_fork_of_ne (Nat.ne_of_lt hold)
  | reap z => exact Procs.proc_modify_of_ne hne
  | exit events => exact Procs.proc_exit_of_ne hne

theorem Sys.live_apply_of_ne {s : Sys} {p q : Pid} (pr : Process) {prq : Process} (eff : Effect)
    (hne : q ≠ p) (hq : s.procs.proc q = some prq) :
    (s.apply p pr eff).procs.proc q = some prq :=
  (Sys.proc_apply_of_ne pr eff hne (Procs.lt_next hq)).trans hq

/-- A new process is a copy of its parent. -/
theorem Sys.proc_apply_fork {s : Sys} {p : Pid} {pr : Process} (hp : s.procs.proc p = some pr)
    (handed : Option Sock) (here there : Loc) :
    (s.apply p pr (.fork handed here there)).procs.proc s.procs.next =
      some (Procs.childOf p pr { pr.state with loc := there }) :=
  (Procs.proc_modify_of_ne (Ne.symm (Procs.ne_next hp))).trans Procs.proc_fork_self

/-! ## The history -/

/-- What a step adds to the history. -/
def Effect.events (s : Sys) (p : Pid) : Effect → List Event
  | .goOn _ events => events
  | .fork handed _ _ => [.forked p handed (some s.procs.next)]
  | .reap _ => []
  | .exit events => events

theorem Sys.log_apply (s : Sys) (p : Pid) (pr : Process) (eff : Effect) :
    (s.apply p pr eff).log = s.log ++ eff.events s p := by
  cases eff with
  | reap z => exact (List.append_nil _).symm
  | _ => rfl

theorem Sys.next_le_apply (s : Sys) (p : Pid) (pr : Process) (eff : Effect) :
    s.procs.next ≤ (s.apply p pr eff).procs.next := by
  cases eff with
  | fork handed here there => exact Nat.le_succ _
  | _ => exact Nat.le_refl _

end CommServer
