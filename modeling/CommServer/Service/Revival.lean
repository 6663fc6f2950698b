import CommServer.Service.Lineage
import CommServer.Transition.Fairness

/-!
# Revival — the supervisor keeps a server alive

A run here does not end.  If the supervisor is not killed and its forks succeed (`Spared`), then it is
about to fork a server, or a server lives, or there is a dead one that `waitpid` will return
(`Guarded`).  Its own steps take it nearer to the next `fork` (`Sys.toFork`).

* `guarded_step` : the invariant;
* `revival`      : a server lives again and again.
-/

namespace CommServer

open Unix Transition

/-- The supervisor is not killed, and its forks succeed. -/
def Spared (_ : Sys) (a : Pid × Act) : Prop :=
  a.1 = 0 → a.2 ≠ .die ∧ a.2 ≠ .fork false

/-- The supervisor lives and is told of its children, and it has a server, or reason to fork one. -/
structure Guarded (s : Sys) : Prop where
  lineage : Lineage s
  parent : s.All fun _ pr => pr.role = .server → pr.parent = some 0
  supervisor : ∃ pr : Process, s.procs.proc 0 = some pr ∧ pr.ignoresChild = false ∧
    (pr.loc.forking = true ∨ (∃ p, s.IsServer p) ∨ s.awaited ≠ [])

/-- How many steps of its own the supervisor may need to its next `fork`. -/
def Sys.toFork (s : Sys) : Nat :=
  match (s.procs.proc 0).map Process.loc with
  | some .sleeping => 3
  | some .polling => 2
  | _ => 1

section Step

variable {s : Sys} {p : Pid} {pr : Process} {a : Act} {eff : Effect}

/-- What the supervisor does when it is spared. -/
theorem supervisor_cases (h : codeStep s p pr a = some eff) (hrole : pr.role = .supervisor)
    (hdie : a ≠ .die) (hfork : a ≠ .fork false) :
    (pr.loc.forking = true ∧ eff = .fork none .polling .doProcess) ∨
      (pr.loc = .polling ∧ (∀ z ∈ s.procs.zombies, z.2 ≠ p) ∧
        eff = .goOn (pr.goto .sleeping) []) ∨
      (pr.loc = .polling ∧ ∃ q, eff = .reap q) ∨
      (pr.loc = .sleeping ∧ eff = .goOn (pr.goto .polling) []) := by
  cases move_of_codeStep h with
  | die => exact absurd rfl hdie
  | forkFails hloc => exact absurd rfl hfork
  | forkServer hloc =>
      left
      rcases hloc with hloc | hloc
      · exact ⟨by simp [hloc, Loc.forking], rfl⟩
      · exact ⟨by simp [hloc, Loc.forking], rfl⟩
  | nobodyDead hloc =>
      have hnone : ∀ z ∈ s.procs.zombies, z.2 ≠ p := by
        intro z hz hzp
        have hzombie : ∃ z ∈ s.procs.zombies, z.2 = p := ⟨z, hz, hzp⟩
        simp only [codeStep, hloc, if_pos hzombie] at h
        cases h
      exact Or.inr (Or.inl ⟨hloc, hnone, rfl⟩)
  | reap q hloc hq => exact Or.inr (Or.inr (Or.inl ⟨hloc, q, rfl⟩))
  | wake hloc => exact Or.inr (Or.inr (Or.inr ⟨hloc, rfl⟩))
  | _ => simp [Process.role, Loc.role, *] at hrole

/-- A fork in `main` makes a server. -/
theorem isServer_fork (hp : s.procs.proc p = some pr) (handed : Option Sock) (here : Loc) :
    (s.apply p pr (.fork handed here .doProcess)).IsServer s.procs.next :=
  ⟨_, Sys.proc_apply_fork hp handed here .doProcess, rfl⟩

theorem serverParent_step (h : Guarded s) (hp : s.procs.proc p = some pr)
    (hmove : eff.KeepsRole s p pr) :
    (s.apply p pr eff).All fun _ prq => prq.role = .server → prq.parent = some 0 := by
  refine Sys.all_apply hp (fun q prq _ hold => h.parent q prq hold) ?_
  cases eff with
  | goOn pr' events =>
      intro hserver
      exact hmove.2.1.trans (h.parent p pr hp (hmove.1 ▸ hserver))
  | fork handed here there =>
      rcases hmove with ⟨hhere, -, -, hthere⟩
      refine ⟨fun hserver => h.parent p pr hp (hhere.symm.trans hserver), ?_⟩
      intro hserver
      rcases hthere with ⟨hforking, -⟩ | ⟨-, hchild⟩
      · have hzero : p = 0 := (h.lineage.supervisor p pr hp).1 (Loc.role_of_forking hforking)
        exact congrArg some hzero
      · have hserver' : there.role = .server := hserver
        rw [hchild] at hserver'
        cases hserver'
  | reap z =>
      intro hserver
      cases hserver
  | exit events => trivial

/-- The end of a server is told to the supervisor. -/
theorem awaited_of_exit {sup : Process} (hsup : s.procs.proc 0 = some sup)
    (htold : sup.ignoresChild = false) (hparent : pr.parent = some 0) (events : List Event) :
    (s.apply p pr (.exit events)).awaited ≠ [] := by
  have hself : s.procs.toldOf pr = some 0 := by simp [Procs.toldOf, hparent, hsup, htold]
  have hmem : (p, 0) ∈ (s.apply p pr (.exit events)).awaited := by
    simp [Sys.awaited, Sys.apply, Procs.exit, hself]
  exact List.ne_nil_of_mem hmem

/-- A step of another process leaves the supervisor a server, or reason to fork one. -/
theorem reason_of_other (h : Guarded s) (hp : s.procs.proc p = some pr)
    (hmove : eff.KeepsRole s p pr) (hne : p ≠ 0) {sup : Process}
    (hsup : s.procs.proc 0 = some sup) (htold : sup.ignoresChild = false)
    (hreason : (∃ q, s.IsServer q) ∨ s.awaited ≠ []) :
    (∃ q, (s.apply p pr eff).IsServer q) ∨ (s.apply p pr eff).awaited ≠ [] := by
  rcases hreason with ⟨q, prq, hq, hrole⟩ | hawaited
  · by_cases hqp : q = p
    · subst hqp
      have hsame : pr = prq := Option.some.inj (hp.symm.trans hq)
      subst hsame
      -- The server goes on as a server, or its end is told.
      cases eff with
      | goOn pr' events =>
          exact Or.inl ⟨q, pr', Procs.proc_modify_self hp, hmove.1.trans hrole⟩
      | fork handed here there =>
          have hparent : (s.procs.fork q pr { pr.state with loc := there }).proc q = some pr :=
            (Procs.proc_fork_of_ne (Procs.ne_next hp)).trans hp
          exact Or.inl ⟨q, pr.goto here, Procs.proc_modify_self hparent, hmove.1.trans hrole⟩
      | reap z =>
          have hpolling : pr.role = .supervisor := congrArg Loc.role hmove.1
          rw [hrole] at hpolling
          cases hpolling
      | exit events =>
          exact Or.inr (awaited_of_exit hsup htold (h.parent q pr hp hrole) events)
    · exact Or.inl ⟨q, prq, Sys.live_apply_of_ne pr eff hqp hq, hrole⟩
  · right
    cases eff with
    | goOn pr' events => exact hawaited
    | fork handed here there => exact hawaited
    | reap z =>
        -- Only the supervisor waits.
        have hrole : pr.role = .supervisor := congrArg Loc.role hmove.1
        exact absurd ((h.lineage.supervisor p pr hp).1 hrole) hne
    | exit events =>
        rcases awaited_exit s p pr events with hsame | ⟨-, hmore⟩
        · rw [hsame]
          exact hawaited
        · rw [hmore]
          simp

/-- While the supervisor polls and sleeps nothing changes for the others. -/
theorem reason_of_self (hp : s.procs.proc p = some pr) (hrole : pr.role = .supervisor) (pr' : Process)
    (hreason : (∃ q, s.IsServer q) ∨ s.awaited ≠ []) :
    (∃ q, (s.apply p pr (.goOn pr' [])).IsServer q) ∨ (s.apply p pr (.goOn pr' [])).awaited ≠ [] := by
  rcases hreason with ⟨q, prq, hq, hserver⟩ | hawaited
  · have hne : q ≠ p := by
      rintro rfl
      have hsame : pr = prq := Option.some.inj (hp.symm.trans hq)
      rw [← hsame, hrole] at hserver
      cases hserver
    exact Or.inl ⟨q, prq, Sys.live_apply_of_ne pr _ hne hq, hserver⟩
  · exact Or.inr hawaited

end Step

theorem guarded_init : Guarded Sys.init := by
  refine ⟨lineage_init, ?_, ⟨_, rfl, rfl, Or.inl rfl⟩⟩
  intro p pr h hrole
  rcases Procs.live_single h with ⟨-, rfl⟩
  cases hrole

theorem guarded_step {s s' : Sys} {a : Pid × Act} (h : Guarded s) (hC : Spared s a)
    (hstep : sysStep s a = some s') : Guarded s' := by
  have hlineage := lineage_step h.lineage hstep
  rcases a with ⟨p, act⟩
  rcases codeStep_of_sysStep hstep with ⟨pr, eff, hp, hcode, rfl⟩
  have hmove := (move_of_codeStep hcode).keepsRole
  refine ⟨hlineage, serverParent_step h hp hmove, ?_⟩
  rcases h.supervisor with ⟨sup, hsup, htold, hreason⟩
  by_cases hzero : p = 0
  · subst hzero
    have hself : sup = pr := Option.some.inj (hsup.symm.trans hp)
    subst hself
    have hrole : sup.role = .supervisor := (h.lineage.supervisor 0 sup hp).2 rfl
    rcases hC rfl with ⟨hdie, hfork⟩
    rcases supervisor_cases hcode hrole hdie hfork with
      ⟨-, rfl⟩ | ⟨hloc, -, rfl⟩ | ⟨-, q, rfl⟩ | ⟨hloc, rfl⟩
    · have hparent : (s.procs.fork 0 sup { sup.state with loc := .doProcess }).proc 0 = some sup :=
        (Procs.proc_fork_of_ne (Procs.ne_next hp)).trans hp
      exact ⟨sup.goto .polling, Procs.proc_modify_self hparent, htold,
        Or.inr (Or.inl ⟨_, isServer_fork hp none .polling⟩)⟩
    · have hidle : (∃ q, s.IsServer q) ∨ s.awaited ≠ [] := by
        simpa [hloc, Loc.forking] using hreason
      exact ⟨sup.goto .sleeping, Procs.proc_modify_self hp, htold,
        Or.inr (reason_of_self hp hrole _ hidle)⟩
    · exact ⟨sup.goto .reaped, Procs.proc_modify_self (t := s.procs.reap q 0) hp, htold, Or.inl rfl⟩
    · have hidle : (∃ q, s.IsServer q) ∨ s.awaited ≠ [] := by
        simpa [hloc, Loc.forking] using hreason
      exact ⟨sup.goto .polling, Procs.proc_modify_self hp, htold,
        Or.inr (reason_of_self hp hrole _ hidle)⟩
  · refine ⟨sup, Sys.live_apply_of_ne pr eff (Ne.symm hzero) hsup, htold, ?_⟩
    rcases hreason with hforking | hreason
    · exact Or.inl hforking
    · exact Or.inr (reason_of_other h hp hmove hzero hsup htold hreason)

/-- As long as no server lives the supervisor comes nearer to a `fork` with each step of its own, and
nobody takes it away from there. -/
theorem toFork_step {s s' : Sys} {a : Pid × Act} (h : Guarded s) (hC : Spared s a)
    (hstep : sysStep s a = some s') (hs : ¬ ∃ p, s.IsServer p) (hs' : ¬ ∃ p, s'.IsServer p) :
    s'.toFork ≤ s.toFork ∧ (a.1 = 0 → s'.toFork < s.toFork) := by
  rcases a with ⟨p, act⟩
  rcases codeStep_of_sysStep hstep with ⟨pr, eff, hp, hcode, rfl⟩
  rcases h.supervisor with ⟨sup, hsup, -, hreason⟩
  by_cases hzero : p = 0
  · subst hzero
    have hself : sup = pr := Option.some.inj (hsup.symm.trans hp)
    subst hself
    have hrole : sup.role = .supervisor := (h.lineage.supervisor 0 sup hp).2 rfl
    rcases hC rfl with ⟨hdie, hfork⟩
    have hlt : (s.apply 0 sup eff).toFork < s.toFork := by
      rcases supervisor_cases hcode hrole hdie hfork with
        ⟨-, rfl⟩ | ⟨hloc, hnone, rfl⟩ | ⟨hloc, q, rfl⟩ | ⟨hloc, rfl⟩
      · exact absurd ⟨_, isServer_fork hp none .polling⟩ hs'
      · -- There is a dead server, and `waitpid` does not overlook it.
        have hawaited : s.awaited ≠ [] := by simpa [hloc, Loc.forking, hs] using hreason
        rcases List.exists_mem_of_ne_nil _ hawaited with ⟨z, hz⟩
        rcases List.mem_filter.1 hz with ⟨hmem, hparent⟩
        exact absurd (of_decide_eq_true hparent) (hnone z hmem)
      · have hnext : (s.apply 0 sup (.reap q)).procs.proc 0 = some (sup.goto .reaped) :=
          Procs.proc_modify_self (t := s.procs.reap q 0) hp
        simp [Sys.toFork, hnext, hp, hloc]
      · have hnext : (s.apply 0 sup (.goOn (sup.goto .polling) [])).procs.proc 0 =
            some (sup.goto .polling) := Procs.proc_modify_self hp
        simp [Sys.toFork, hnext, hp, hloc]
    exact ⟨Nat.le_of_lt hlt, fun _ => hlt⟩
  · have hsame : (s.apply p pr eff).toFork = s.toFork := by
      simp [Sys.toFork, Sys.live_apply_of_ne pr eff (Ne.symm hzero) hsup, hsup]
    exact ⟨Nat.le_of_eq hsame, fun h0 => absurd h0 hzero⟩

/-- If the supervisor goes on for ever, is not killed and can fork, then a server lives again and
again, whatever else happens to servers and children. -/
theorem revival {acts : Nat → Pid × Act} {run : Nat → Sys}
    (hrun : Forever sysStep Sys.init acts run) (hspared : ∀ n, Spared (run n) (acts n))
    (hturn : ∀ n, ∃ m, n ≤ m ∧ (acts m).1 = 0) (n : Nat) : ∃ m, n ≤ m ∧ ∃ p, (run m).IsServer p :=
  hrun.often (I := Guarded) (C := Spared)
    (hrun.invariant (C := Spared) guarded_init hspared fun _ _ _ => guarded_step) hspared
    (fun _ _ _ => toFork_step) (fun k _ => hturn k) n

/-- The supervisor forks a server, the server is killed, the supervisor waits for it: for ever. -/
def killedActs (n : Nat) : Pid × Act :=
  match n % 3 with
  | 0 => (0, .fork true)
  | 1 => (n / 3 + 1, .die)
  | _ => (0, .waitpid (some (n / 3 + 1)))

/-- The state of the service in that run. -/
def Killed (n : Nat) (s : Sys) : Prop :=
  ∃ pr : Process, s.procs.proc 0 = some pr ∧ pr.ignoresChild = false ∧
    match n % 3 with
    | 0 => (pr.loc = .started ∨ pr.loc = .reaped) ∧ s.procs.next = n / 3 + 1 ∧ s.procs.zombies = []
    | 1 =>
        pr.loc = .polling ∧ s.procs.next = n / 3 + 2 ∧ s.procs.zombies = [] ∧
          ∃ prs : Process, s.procs.proc (n / 3 + 1) = some prs ∧ prs.parent = some 0
    | _ => pr.loc = .polling ∧ s.procs.next = n / 3 + 2 ∧ s.procs.zombies = [(n / 3 + 1, 0)]

theorem killed_next (n : Nat) (s : Sys) (h : Killed n s) :
    ∃ s', sysStep s (killedActs n) = some s' ∧ Killed (n + 1) s' := by
  rcases h with ⟨pr, hp, htold, hrest⟩
  obtain ⟨k, hk⟩ : ∃ k, n = 3 * k ∨ n = 3 * k + 1 ∨ n = 3 * k + 2 := ⟨n / 3, by omega⟩
  rcases hk with rfl | rfl | rfl
  · have hmod : 3 * k % 3 = 0 := by omega
    have hdiv : 3 * k / 3 = k := by omega
    have hmod' : (3 * k + 1) % 3 = 1 := by omega
    have hdiv' : (3 * k + 1) / 3 = k := by omega
    simp only [hmod, hdiv] at hrest
    rcases hrest with ⟨hloc, hnext, hzombies⟩
    have hcode : codeStep s 0 pr (.fork true) = some (.fork none .polling .doProcess) := by
      rcases hloc with hloc | hloc <;> simp [codeStep, hloc]
    have hparent : (s.procs.fork 0 pr { pr.state with loc := .doProcess }).proc 0 = some pr :=
      (Procs.proc_fork_of_ne (Procs.ne_next hp)).trans hp
    refine ⟨s.apply 0 pr (.fork none .polling .doProcess), ?_, pr.goto .polling,
      Procs.proc_modify_self hparent, htold, ?_⟩
    · simp [sysStep, killedActs, hmod, hp, hcode]
    · simp only [hmod', hdiv']
      have hne : s.procs.next ≠ 0 := (Procs.ne_next hp).symm
      refine ⟨rfl, congrArg (· + 1) hnext, hzombies,
        Procs.childOf 0 pr { pr.state with loc := .doProcess }, ?_, rfl⟩
      exact hnext ▸ (Procs.proc_modify_of_ne hne).trans Procs.proc_fork_self
  · have hmod : (3 * k + 1) % 3 = 1 := by omega
    have hdiv : (3 * k + 1) / 3 = k := by omega
    have hmod' : (3 * k + 2) % 3 = 2 := by omega
    have hdiv' : (3 * k + 2) / 3 = k := by omega
    simp only [hmod, hdiv] at hrest
    rcases hrest with ⟨hloc, hnext, hzombies, prs, hprs, hparent⟩
    have hself : s.procs.toldOf prs = some 0 := by simp [Procs.toldOf, hparent, hp, htold]
    have hne : 0 ≠ k + 1 := (Nat.succ_ne_zero k).symm
    refine ⟨s.apply (k + 1) prs (.exit [.died (k + 1) prs.inHand]), ?_, pr,
      (Procs.proc_exit_of_ne hne).trans hp, htold, ?_⟩
    · simp [sysStep, killedActs, hmod, hdiv, hprs, codeStep]
    · simp only [hmod', hdiv']
      refine ⟨hloc, hnext, ?_⟩
      simp [Sys.apply, Procs.exit, hself, hzombies]
  · have hmod : (3 * k + 2) % 3 = 2 := by omega
    have hdiv : (3 * k + 2) / 3 = k := by omega
    have hmod' : (3 * k + 2 + 1) % 3 = 0 := by omega
    have hdiv' : (3 * k + 2 + 1) / 3 = k + 1 := by omega
    simp only [hmod, hdiv] at hrest
    rcases hrest with ⟨hloc, hnext, hzombies⟩
    refine ⟨s.apply 0 pr (.reap (k + 1)), ?_, pr.goto .reaped,
      Procs.proc_modify_self (t := s.procs.reap (k + 1) 0) hp, htold, ?_⟩
    · simp [sysStep, killedActs, hmod, hdiv, hp, codeStep, hloc, hzombies]
    · simp only [hmod', hdiv']
      refine ⟨Or.inr rfl, hnext, ?_⟩
      simp [Sys.apply, Procs.reap, Procs.modify, hzombies]

theorem revival_sample : ∃ run, Forever sysStep Sys.init killedActs run ∧
    ∀ n, ∃ m, n ≤ m ∧ ∃ p, (run m).IsServer p := by
  have hinit : Killed 0 Sys.init := ⟨_, rfl, rfl, Or.inl rfl, rfl, rfl⟩
  rcases exists_forever hinit killed_next with ⟨run, hrun, -⟩
  refine ⟨run, hrun, revival hrun ?_ ?_⟩
  · intro n
    unfold Spared killedActs
    split <;> simp
  · intro n
    refine ⟨3 * n, by omega, ?_⟩
    have hmod : 3 * n % 3 = 0 := by omega
    simp [killedActs, hmod]

end CommServer
