import CommServer.Service.Ownership

/-!
# Restart — when a dead server can be started again

A child of `fork_proc` inherits the listening socket of its server and never closes it.  When the server
dies, its port stays taken until the last of its children is gone.

* `free_iff`         : the port of a new server is free exactly when no child lives on that port;
* `restartable_iff`  : the runs in which every `tcp_listener` finds its port free;
* `orphan_keeps_port` : a run in which one does not.
-/

namespace CommServer

open Unix Transition

/-- Nobody but `p` holds a socket that listens on `port`. -/
def Sys.FreeFor (s : Sys) (p : Pid) (port : UInt16) : Prop :=
  ∀ (q : Pid) (prq : Process), q ≠ p → s.procs.proc q = some prq →
    prq.table.holds (.listening port) = false

/-- Whoever calls `tcp_listener` finds its port free, and `bind` and `listen` are not refused. -/
structure Sys.Restartable (s : Sys) : Prop where
  free : ∀ (p : Pid) (pr : Process), s.procs.proc p = some pr → pr.loc = .configured →
    s.FreeFor p pr.port
  unrefused : ∀ p port, .refused p port ∉ s.log

/-- No child of `fork_proc` lives whose server was configured with `port`. -/
def Sys.NoChildOn (s : Sys) (port : UInt16) : Prop :=
  s.All fun _ pr => pr.role = .child → pr.port ≠ port

/-- A server that calls `tcp_listener` is not preceded by a child that still lives on its port. -/
def NoOrphan (s : Sys) (a : Pid × Act) : Prop :=
  ∀ svr, a.2 = .config (some svr) → s.NoChildOn svr.commSvrPort

/-! ## Who holds a listening socket -/

section Holders

variable {s : Sys} {p q : Pid} {pr prq : Process} {port : UInt16}

/-- A child has the listening socket of its server, and in front of it the connection, which it may
have closed already. -/
theorem Owns.entries_of_child (h : Owns s) (hq : s.procs.proc q = some prq)
    (hrole : prq.role = .child) :
    ∃ fd c l, prq.table.entries = [(fd, .conn c), (l, .listening prq.port)] ∨
      prq.table.entries = [(l, .listening prq.port)] := by
  have hpl := h.placed q prq hq
  cases hloc : prq.loc with
  | processMain fd st =>
      simp only [Placed, hloc] at hpl
      rcases hpl with ⟨c, l, hentries | ⟨-, hentries⟩⟩
      · exact ⟨fd, c, l, Or.inl hentries⟩
      · exact ⟨fd, c, l, Or.inr hentries⟩
  | _ => simp [Process.role, hloc, Loc.role] at hrole

theorem Owns.child_holds (h : Owns s) (hq : s.procs.proc q = some prq) (hrole : prq.role = .child) :
    prq.table.holds (.listening prq.port) = true := by
  rw [FdTable.holds_iff]
  rcases h.entries_of_child hq hrole with ⟨fd, c, l, hentries | hentries⟩
  · exact ⟨l, by simp [hentries]⟩
  · exact ⟨l, by simp [hentries]⟩

/-- A child holds no other listening socket. -/
theorem Owns.port_of_child (h : Owns s) (hq : s.procs.proc q = some prq) (hrole : prq.role = .child)
    {fd : Fd} (hmem : (fd, .listening port) ∈ prq.table.entries) : prq.port = port := by
  rcases h.entries_of_child hq hrole with ⟨fd', c, l, hentries | hentries⟩
  · rw [hentries] at hmem
    rcases List.mem_cons.1 hmem with heq | hmem
    · cases heq
    · cases List.mem_singleton.1 hmem
      rfl
  · rw [hentries] at hmem
    cases List.mem_singleton.1 hmem
    rfl

/-- The supervisor holds nothing. -/
theorem Owns.entries_of_supervisor (h : Owns s) (hq : s.procs.proc q = some prq)
    (hrole : prq.role = .supervisor) : prq.table.entries = [] := by
  have hpl := h.placed q prq hq
  cases hloc : prq.loc with
  | started => simpa only [Placed, hloc] using hpl
  | polling => simpa only [Placed, hloc] using hpl
  | reaped => simpa only [Placed, hloc] using hpl
  | sleeping => simpa only [Placed, hloc] using hpl
  | _ => simp [Process.role, hloc, Loc.role] at hrole

/-- Besides the one server only children hold listening sockets. -/
theorem Owns.child_of_holds (h : Owns s) (hp : s.IsServer p) (hq : s.procs.proc q = some prq)
    (hne : q ≠ p) (hholds : prq.table.holds (.listening port) = true) :
    prq.role = .child ∧ prq.port = port := by
  rcases FdTable.holds_iff.1 hholds with ⟨fd, hmem⟩
  -- There is no server besides `p`, and the supervisor holds nothing.
  cases hrole : prq.role with
  | server => exact absurd (h.lineage.unique q p ⟨prq, hq, hrole⟩ hp) hne
  | supervisor =>
      rw [h.entries_of_supervisor hq hrole] at hmem
      cases hmem
  | child => exact ⟨rfl, h.port_of_child hq hrole hmem⟩

/-- The port of a server is free exactly when no child lives on it. -/
theorem free_iff (h : Owns s) (hp : s.IsServer p) : s.FreeFor p port ↔ s.NoChildOn port := by
  constructor
  · rintro hfree q prq hq hrole rfl
    have hne : q ≠ p := by
      rintro rfl
      rcases hp with ⟨pr, hp', hserver⟩
      have hsame : pr = prq := Option.some.inj (hp'.symm.trans hq)
      rw [hsame, hrole] at hserver
      cases hserver
    have hholds := h.child_holds hq hrole
    rw [hfree q prq hne hq] at hholds
    cases hholds
  · intro hnone q prq hne hq
    by_contra hholds
    rcases h.child_of_holds hp hq hne (by simpa using hholds) with ⟨hrole, hport⟩
    exact hnone q prq hq hrole hport

end Holders

/-! ## Runs without orphans -/

/-- The process is in `tcp_listener`. -/
def Process.inListener (pr : Process) : Bool :=
  match pr.loc with
  | .configured | .socketMade _ | .bound _ => true
  | _ => false

theorem role_of_inListener {pr : Process} (h : pr.inListener = true) : pr.role = .server := by
  unfold Process.inListener at h
  unfold Process.role
  cases hloc : pr.loc with
  | configured => rfl
  | socketMade fd => rfl
  | bound fd => rfl
  | _ => simp [hloc] at h

/-- The invariant of these runs: in `tcp_listener` the port is free. -/
structure Unhindered (s : Sys) : Prop where
  owns : Owns s
  free : s.All fun _ pr => pr.inListener = true → s.NoChildOn pr.port
  unrefused : ∀ p port, .refused p port ∉ s.log

section Step

variable {s : Sys} {p : Pid} {pr : Process} {a : Act} {eff : Effect}

/-- A child keeps the configuration it was forked with. -/
theorem Move.child_port {pr' : Process} {events : List Event} (h : Move s p pr a (.goOn pr' events))
    (hrole : pr.role = .child) : pr'.port = pr.port := by
  cases h with
  | child fd c c' a h => rfl
  | childCloses fd c c' a h => rfl
  | _ => simp [Process.role, Loc.role, *] at hrole

/-- Unless `fork_proc` makes one, there is no new child on a port. -/
theorem Move.noChildOn (h : Move s p pr a eff) (hp : s.procs.proc p = some pr) (port : UInt16)
    (hnone : s.NoChildOn port) (hloc : ∀ l fd, pr.loc ≠ .accepted l fd) :
    (s.apply p pr eff).NoChildOn port := by
  refine Sys.all_apply hp (fun q prq _ hq => hnone q prq hq) ?_
  have hself := hnone p pr hp
  have hrole := h.keepsRole
  cases eff with
  | goOn pr' events =>
      intro hchild
      have hchild' : pr.role = .child := hrole.1.symm.trans hchild
      rw [h.child_port hchild']
      exact hself hchild'
  | fork handed here there =>
      refine ⟨fun hchild => hself (hrole.1.symm.trans hchild), ?_⟩
      intro hchild
      cases h with
      | forkServer h => cases hchild
      | forkProc l fd h => exact absurd h (hloc l fd)
  | reap z =>
      intro hchild
      cases hchild
  | exit events => trivial

/-- `bind` and `listen` are refused only for the sake of a child. -/
theorem Unhindered.listeningOn (h : Unhindered s) (hp : s.procs.proc p = some pr)
    (hin : pr.inListener = true) (hself : pr.table.holds (.listening pr.port) = false) :
    s.listeningOn pr.port = false := by
  by_contra hport
  have hport' : s.listeningOn pr.port = true := by simpa using hport
  rcases Procs.any_iff.1 hport' with ⟨q, prq, hq, hholds⟩
  have hne : q ≠ p := by
    rintro rfl
    have hsame : pr = prq := Option.some.inj (hp.symm.trans hq)
    rw [← hsame, hself] at hholds
    cases hholds
  -- Whoever listens is not the server itself, so it is a child on its port.
  obtain ⟨hrole, hsame⟩ :=
    h.owns.child_of_holds ⟨pr, hp, role_of_inListener hin⟩ hq hne hholds
  exact h.free p pr hp hin q prq hq hrole hsame

/-- A refusal would have needed a child on the port. -/
theorem Unhindered.not_refused (h : Unhindered s) (hp : s.procs.proc p = some pr)
    (hmove : Move s p pr a eff) {q : Pid} {port : UInt16} : .refused q port ∉ eff.events s p := by
  intro he
  have hpl := h.owns.placed p pr hp
  cases hmove with
  | bindRefused fd hloc hport =>
      have hentries : pr.table.entries = [(fd, .stream)] := by simpa only [Placed, hloc] using hpl
      have hself : pr.table.holds (.listening pr.port) = false := by
        simp [FdTable.holds, hentries]
      rw [h.listeningOn hp (by simp [Process.inListener, hloc]) hself] at hport
      cases hport
  | listenRefused fd hloc hport =>
      have hentries : pr.table.entries = [(fd, .bound pr.port)] := by
        simpa only [Placed, hloc] using hpl
      have hself : pr.table.holds (.listening pr.port) = false := by
        simp [FdTable.holds, hentries]
      rw [h.listeningOn hp (by simp [Process.inListener, hloc]) hself] at hport
      cases hport
  | _ => simp [Effect.events] at he

/-- A process that moves into `tcp_listener` or within it finds no child on its port. -/
theorem Unhindered.free_moved (h : Unhindered s) (hp : s.procs.proc p = some pr)
    (hmove : Move s p pr a eff) (hC : NoOrphan s (p, a)) :
    eff.Leaves s p pr fun _ prq =>
      prq.inListener = true → (s.apply p pr eff).NoChildOn prq.port := by
  have hself := h.free p pr hp
  cases eff with
  | goOn pr' events =>
      intro hin
      have hkeep := hmove.noChildOn hp pr'.port
      -- `tcp_listener` is entered with the configuration, and left with the last of the three.
      cases hmove with
      | config svr hloc =>
          exact hkeep (hC svr rfl) (by simp [hloc])
      | socket fd hloc hfree =>
          exact hkeep (hself (by simp [Process.inListener, hloc])) (by simp [hloc])
      | bind fd hloc =>
          exact hkeep (hself (by simp [Process.inListener, hloc])) (by simp [hloc])
      | _ => cases hin
  | fork handed here there =>
      constructor
      · intro hin
        cases hmove with
        | forkServer hloc => cases hin
        | forkProc l fd hloc => cases hin
      · intro hin
        cases hmove with
        | forkServer hloc => cases hin
        | forkProc l fd hloc => cases hin
  | reap z =>
      intro hin
      cases hin
  | exit events => trivial

theorem unhindered_step {s' : Sys} {a : Pid × Act} (h : Unhindered s) (hC : NoOrphan s a)
    (hstep : sysStep s a = some s') : Unhindered s' := by
  have hown := owns_step h.owns hstep
  rcases a with ⟨p, act⟩
  rcases sysStep_cases hstep with ⟨pr, eff, hp, hmove, rfl⟩
  constructor
  · exact hown
  · refine Sys.all_apply hp ?_ (h.free_moved hp hmove hC)
    intro q prq hne hq hin
    refine hmove.noChildOn hp (Process.port prq) (h.free q prq hq hin) ?_
    -- The one server is in `tcp_listener`, so `fork_proc` is not called now.
    intro l fd hloc
    have hserver : s.IsServer p := ⟨pr, hp, congrArg Loc.role hloc⟩
    exact hne (h.owns.lineage.unique q p ⟨prq, hq, role_of_inListener hin⟩ hserver)
  · intro q port he
    rw [Sys.log_apply] at he
    rcases List.mem_append.1 he with hold | hnew
    · exact h.unrefused q port hold
    · exact h.not_refused hp hmove hnew

end Step

theorem unhindered_init : Unhindered Sys.init := by
  constructor
  · exact owns_init
  · intro p pr h hin
    rcases Procs.live_single h with ⟨-, rfl⟩
    cases hin
  · exact fun p port he => absurd he List.not_mem_nil

theorem Unhindered.restartable {s : Sys} (h : Unhindered s) : s.Restartable := by
  constructor
  · intro p pr hp hloc
    have hserver : s.IsServer p := ⟨pr, hp, congrArg Loc.role hloc⟩
    exact (free_iff h.owns hserver).2 (h.free p pr hp (by simp [Process.inListener, hloc]))
  · exact h.unrefused

/-- A step that calls `tcp_listener` on a free port meets no orphan. -/
theorem noOrphan_of_restartable {s s' : Sys} {a : Pid × Act} (h : Owns s)
    (hstep : sysStep s a = some s') (hfree : s'.Restartable) : NoOrphan s a := by
  have hown := owns_step h hstep
  rcases a with ⟨p, act⟩
  rcases sysStep_cases hstep with ⟨pr, eff, hp, hmove, rfl⟩
  intro svr hact
  have hconfig : act = .config (some svr) := hact
  subst hconfig
  -- The only step with a configuration is that of `do_process`.
  cases hmove with
  | config svr hloc =>
      let called : Process :=
        { pr with ignoresChild := true, state := { loc := .configured, svr := svr } }
      let s' : Sys := s.apply p pr (.goOn called [])
      have hp' : s'.procs.proc p = some called := Procs.proc_modify_self hp
      have hnone : s'.NoChildOn svr.commSvrPort :=
        (free_iff hown ⟨called, hp', rfl⟩).1 (hfree.free p called hp' rfl)
      -- The children are the same before the step.
      intro q prq hq hrole
      have hne : q ≠ p := by
        rintro rfl
        have hsame : pr = prq := Option.some.inj (hp.symm.trans hq)
        rw [← hsame, Process.role, hloc] at hrole
        cases hrole
      exact hnone q prq (Sys.live_apply_of_ne pr _ hne hq) hrole

/-- In a run every `tcp_listener` finds its port free, and is not refused it, exactly when no child
lives on the port of a server that calls it. -/
theorem restartable_iff {as : List (Pid × Act)} {s : Sys} (h : exec sysStep Sys.init as = some s) :
    Throughout sysStep Sys.Restartable Sys.init as ↔ Along sysStep NoOrphan Sys.init as := by
  constructor
  · intro hall
    -- `Owns` holds anyway, so a state with a free port tells about the step before it.
    exact along_of_throughout (fun _ _ _ hown hstep => owns_step hown hstep)
      (fun _ _ _ hown hstep hfree => noOrphan_of_restartable hown hstep hfree) owns_init hall h
  · intro hC
    -- The condition on each step carries the invariant through the run.
    have hall : Throughout sysStep Unhindered Sys.init as :=
      throughout_of_along (fun _ _ _ hun hC hstep => unhindered_step hun hC hstep) unhindered_init hC
    exact hall.mono fun _ hun => hun.restartable

/-- The server is started, serves a connection and dies, its child exits, and it is started again. -/
def restartedRun : List (Pid × Act) :=
  servedRun ++
    [(2, .die), (1, .die), (0, .waitpid (some 1)), (0, .fork true),
     (3, .config (some CommSvrSocket.shipped)), (3, .socket (some 3)), (3, .bind), (3, .listen)]

theorem restartable_sample :
    ∃ s, exec sysStep Sys.init restartedRun = some s ∧
      (Throughout sysStep Sys.Restartable Sys.init restartedRun ↔
        Along sysStep NoOrphan Sys.init restartedRun) :=
  ⟨_, rfl, restartable_iff (show exec sysStep Sys.init restartedRun = some _ from rfl)⟩

/-! ## An orphan -/

/-- The server is killed while a child of it still serves a connection. -/
def orphanRun : List (Pid × Act) :=
  servedRun ++
    [(1, .die), (0, .waitpid (some 1)), (0, .fork true),
     (3, .config (some CommSvrSocket.shipped)), (3, .socket (some 3)), (3, .bind)]

/-- The new server is refused its port. -/
theorem orphan_keeps_port :
    ¬ ∀ (as : List (Pid × Act)) (s : Sys), exec sysStep Sys.init as = some s →
      Throughout sysStep Sys.Restartable Sys.init as := by
  intro h
  have hlog : (exec sysStep Sys.init orphanRun).map Sys.log =
      some
        [.forked 0 none (some 1), .accepted 1 1, .forked 1 (some (.conn 1)) (some 2),
         .closed 1 (some (.conn 1)), .died 1 none, .forked 0 none (some 3), .refused 3 9999] := rfl
  -- The history ends with the refusal.
  rcases Option.map_eq_some_iff.1 hlog with ⟨s, hrun, hs⟩
  have hlast : s.Restartable := (h orphanRun s hrun).last hrun
  exact hlast.unrefused 3 9999 (by simp [hs])

end CommServer
