import CommServer.Service.HangUp
import CommServer.Service.Restart
import CommServer.Service.Revival

/-!
# Healing — a service whose server was killed serves again

The children of a dead server keep its port, and as long as they do, each new server is refused it and
dies.  But without a server in its loop there are no new children, so the old ones come to their ends one
after the other (`Sys.orphans`); then the next server is not refused any more (`Sys.toServe`).

* `orphans_step` : the first of these ranks;
* `toServe_step` : the second one;
* `healed`       : a server accepts connections in the end.
-/

namespace CommServer

open Unix Transition

/-! ## Serving -/

/-- Some server is in the loop of `parent_proc`. -/
def Sys.serving (s : Sys) : Bool :=
  s.procs.any Process.inLoop

/-- Some connection child lives. -/
def Sys.hasChild (s : Sys) : Bool :=
  s.procs.any fun pr => Process.role pr = .child

def Sys.hasServer (s : Sys) : Bool :=
  s.procs.any fun pr => Process.role pr = .server

/-- The process is killed, or misses what it needs to begin. -/
def Act.fails : Act → Bool
  | .die | .config none | .socket none => true
  | _ => false

/-- Servers are not killed, and find their configuration and a socket. -/
def Untroubled (s : Sys) (a : Pid × Act) : Prop :=
  s.IsServer a.1 → a.2.fails = false

/-- A connection child makes a step that is not idle. -/
def ChildGoes (s : Sys) (a : Pid × Act) : Prop :=
  (∃ pr : Process, s.procs.proc a.1 = some pr ∧ pr.role = .child) ∧ ¬ s.idle a

section Serving

variable {s : Sys} {p : Pid} {pr : Process}

theorem not_inLoop_of_serving (h : s.serving = false) (hp : s.procs.proc p = some pr) :
    pr.inLoop = false := by
  by_contra hloop
  have hserving : s.serving = true := Procs.any_iff.2 ⟨p, pr, hp, by simpa using hloop⟩
  rw [h] at hserving
  cases hserving

theorem not_child_of_hasChild (h : s.hasChild = false) (hp : s.procs.proc p = some pr) :
    pr.role ≠ .child := by
  intro hrole
  have hchild : s.hasChild = true := Procs.any_iff.2 ⟨p, pr, hp, decide_eq_true hrole⟩
  rw [h] at hchild
  cases hchild

theorem hasServer_iff : s.hasServer = true ↔ ∃ p, s.IsServer p := by
  constructor
  · intro h
    rcases Procs.any_iff.1 h with ⟨p, pr, hp, hrole⟩
    exact ⟨p, pr, hp, of_decide_eq_true hrole⟩
  · rintro ⟨p, pr, hp, hrole⟩
    exact Procs.any_iff.2 ⟨p, pr, hp, decide_eq_true hrole⟩

end Serving

/-! ## The children of a dead server -/

/-- How many steps a child has left at most. -/
def Process.lifetime (pr : Process) : Nat :=
  match pr.loc with
  | .processMain _ ch => 1 + ch.rank
  | _ => 0

def Sys.orphans (s : Sys) : Nat :=
  s.procs.total Process.lifetime

section Orphans

variable {s s' : Sys} {p : Pid} {pr : Process} {a : Act} {eff : Effect}

theorem lifetime_pos (h : pr.role = .child) : 0 < pr.lifetime := by
  unfold Process.lifetime
  split
  case h_1 fd ch hloc => omega
  case h_2 hloc =>
    cases hl : Process.loc pr with
    | processMain fd ch => exact absurd hl (hloc fd ch)
    | _ => simp [Process.role, hl, Loc.role] at h

/-- Outside the loop of `parent_proc` nobody makes a child. -/
theorem lifetime_of_not_child (hmove : Move s p pr a eff) (hloop : pr.inLoop = false)
    (hrole : pr.role ≠ .child) : eff.cost Process.lifetime p pr = 0 := by
  apply cost_eq_zero (s := s)
  cases hmove with
  | forkProc l fd hloc => simp [Process.inLoop, hloc] at hloop
  | child fd c c' act hloc => exact absurd (congrArg Loc.role hloc) hrole
  | childCloses fd c c' act hloc => exact absurd (congrArg Loc.role hloc) hrole
  | die => trivial
  | forkFails hloc => trivial
  | configFails hloc => trivial
  | socketFails hloc => trivial
  | bindRefused fd hloc hport => trivial
  | listenRefused fd hloc hport => trivial
  | childExits fd c act hloc => trivial
  | forkServer hloc => exact ⟨rfl, rfl⟩
  | _ => rfl

theorem lifetime_of_child (hp : s.procs.proc p = some pr) (hcode : codeStep s p pr a = some eff)
    (hrole : pr.role = .child) :
    eff.cost Process.lifetime p pr ≤ pr.lifetime ∧
      (¬ s.idle (p, a) → eff.cost Process.lifetime p pr < pr.lifetime) := by
  have hpos := lifetime_pos hrole
  by_cases hchild : ∃ act, a = .child act
  · rcases hchild with ⟨act, rfl⟩
    rcases childStep_of_codeStep hcode with ⟨fd, ch, ch', hloc, hone, heff⟩
    have hself : pr.lifetime = 1 + ch.rank := by simp only [Process.lifetime, hloc]
    rcases rank_step hone with ⟨hle, hlt⟩
    have hbusy : ¬ s.idle (p, .child act) → ch.idle pr.state.svr act = false := by
      intro hidle
      by_contra hrest
      exact hidle ⟨pr, fd, ch, act, hp, hloc, rfl, by simpa using hrest⟩
    -- Closing the connection is a step like the others here.
    have hgoes : 1 + ch'.rank ≤ Process.lifetime pr ∧
        (¬ s.idle (p, .child act) → 1 + ch'.rank < Process.lifetime pr) := by
      rw [hself]
      exact ⟨Nat.add_le_add_left hle 1, fun hidle => Nat.add_lt_add_left (hlt (hbusy hidle)) 1⟩
    cases heff with
    | closes hpc => exact hgoes
    | exits hpc => exact ⟨Nat.zero_le _, fun _ => hpos⟩
    | goesOn hclosed hexited => exact hgoes
  · cases hloc : Process.loc pr with
    | processMain fd ch =>
        rcases (move_of_codeStep hcode).exits_or_child hloc with ⟨-, events, rfl⟩ | hact
        · exact ⟨Nat.zero_le _, fun _ => hpos⟩
        · exact absurd hact hchild
    | _ => simp [Process.role, hloc, Loc.role] at hrole

/-- The step lemma of the first rank. -/
theorem orphans_step {a : Pid × Act} (hserving : s.serving = false) (hstep : sysStep s a = some s') :
    s'.orphans ≤ s.orphans ∧ (ChildGoes s a → s'.orphans < s.orphans) := by
  rcases a with ⟨p, act⟩
  rcases codeStep_of_sysStep hstep with ⟨pr, eff, hp, hcode, rfl⟩
  have hloop := not_inLoop_of_serving hserving hp
  have hsum : (s.apply p pr eff).orphans + Process.lifetime pr =
      s.orphans + eff.cost Process.lifetime p pr := total_apply hp _ eff
  by_cases hrole : Process.role pr = .child
  · rcases lifetime_of_child hp hcode hrole with ⟨hle, hlt⟩
    refine ⟨by omega, fun hgoes => ?_⟩
    have hfall := hlt hgoes.2
    omega
  · rw [lifetime_of_not_child (move_of_codeStep hcode) hloop hrole] at hsum
    refine ⟨by omega, ?_⟩
    rintro ⟨⟨prq, hq, hchild⟩, -⟩
    have hsame : pr = prq := Option.some.inj (hp.symm.trans hq)
    exact absurd (hsame ▸ hchild) hrole

/-- No child, and no server in its loop: then there is no child after the next step either. -/
theorem childless_step {a : Pid × Act} (hserving : s.serving = false) (hnone : s.hasChild = false)
    (hstep : sysStep s a = some s') : s'.hasChild = false := by
  rcases a with ⟨p, act⟩
  rcases sysStep_cases hstep with ⟨pr, eff, hp, hmove, rfl⟩
  have hloop := not_inLoop_of_serving hserving hp
  have hrole := not_child_of_hasChild hnone hp
  have hkeeps := hmove.keepsRole
  rw [Bool.eq_false_iff]
  intro hchild
  rcases Procs.any_iff.1 hchild with ⟨q, prq, hq, hprq⟩
  have hall : (s.apply p pr eff).All fun _ prq => prq.role ≠ .child := by
    refine Sys.all_apply hp (fun q prq _ hold => not_child_of_hasChild hnone hold) ?_
    cases eff with
    | goOn pr' events =>
        show pr'.role ≠ .child
        rw [hkeeps.1]
        exact hrole
    | fork handed here there =>
        refine ⟨?_, ?_⟩
        · show here.role ≠ .child
          rw [hkeeps.1]
          exact hrole
        · cases hmove with
          | forkServer hloc => simp [Process.role, Process.loc, Procs.childOf, Loc.role]
          | forkProc l fd hloc => simp [Process.inLoop, hloc] at hloop
    | reap z =>
        intro hreaped
        cases hreaped
    | exit events => trivial
  exact hall q prq hq (of_decide_eq_true hprq)

end Orphans

/-! ## The next server -/

/-- How many steps a server needs to its loop. -/
def Process.toLoop (pr : Process) : Nat :=
  match pr.loc with
  | .doProcess => 4
  | .configured => 3
  | .socketMade _ => 2
  | .bound _ => 1
  | _ => 0

/-- How many steps the server needs to its loop, or the supervisor and its next server. -/
def Sys.toServe (s : Sys) : Nat :=
  s.procs.total Process.toLoop + if s.hasServer then 0 else 4 + s.toFork

/-- It is the turn of the server if there is one, and else of the supervisor. -/
def OnTurn (s : Sys) (a : Pid × Act) : Prop :=
  s.IsServer a.1 ∨ (a.1 = 0 ∧ s.hasServer = false)

section Server

variable {s s' : Sys} {p : Pid} {pr : Process} {a : Act} {eff : Effect}

theorem toLoop_of_not_server (h : pr.role ≠ .server) : pr.toLoop = 0 := by
  unfold Process.toLoop
  split
  case h_1 hloc => exact absurd (congrArg Loc.role hloc) h
  case h_2 hloc => exact absurd (congrArg Loc.role hloc) h
  case h_3 hloc => exact absurd (congrArg Loc.role hloc) h
  case h_4 hloc => exact absurd (congrArg Loc.role hloc) h
  case h_5 => rfl

/-- Nobody listens on a port when there are no children and no server is in its loop. -/
theorem not_listeningOn (hown : Owns s) (hnone : s.hasChild = false)
    (hp : s.procs.proc p = some pr) (hserver : pr.role = .server) {port : UInt16}
    (hself : pr.table.holds (.listening port) = false) : s.listeningOn port = false := by
  rw [Bool.eq_false_iff]
  intro hport
  rcases Procs.any_iff.1 hport with ⟨q, prq, hq, hholds⟩
  have hne : q ≠ p := by
    rintro rfl
    have hsame : pr = prq := Option.some.inj (hp.symm.trans hq)
    rw [← hsame, hself] at hholds
    cases hholds
  exact not_child_of_hasChild hnone hq (hown.child_of_holds ⟨pr, hp, hserver⟩ hq hne hholds).1

/-- An untroubled server that nobody hinders comes nearer to its loop. -/
theorem toLoop_of_server (hown : Owns s) (hnone : s.hasChild = false)
    (hp : s.procs.proc p = some pr) (hmove : Move s p pr a eff) (hserver : pr.role = .server)
    (hloop : pr.inLoop = false) (hfails : a.fails = false) :
    ∃ pr' events, eff = .goOn pr' events ∧ pr'.role = .server ∧ pr'.toLoop < pr.toLoop := by
  have hpl := hown.placed p pr hp
  cases hmove with
  | config svr hloc =>
      have hself : pr.toLoop = 4 := by simp only [Process.toLoop, hloc]
      refine ⟨_, _, rfl, rfl, ?_⟩
      rw [hself]
      exact Nat.lt_succ_self 3
  | socket fd hloc hfree => exact ⟨_, _, rfl, rfl, by simp [Process.toLoop, hloc]⟩
  | bind fd hloc => exact ⟨_, _, rfl, rfl, by simp [Process.toLoop, hloc]⟩
  | listen fd hloc => exact ⟨_, _, rfl, rfl, by simp [Process.toLoop, hloc]⟩
  | bindRefused fd hloc hport =>
      have hentries : pr.table.entries = [(fd, .stream)] := by simpa only [Placed, hloc] using hpl
      rw [not_listeningOn hown hnone hp hserver (by simp [FdTable.holds, hentries])] at hport
      cases hport
  | listenRefused fd hloc hport =>
      have hentries : pr.table.entries = [(fd, .bound pr.port)] := by
        simpa only [Placed, hloc] using hpl
      rw [not_listeningOn hown hnone hp hserver (by simp [FdTable.holds, hentries])] at hport
      cases hport
  | die => cases hfails
  | configFails hloc => cases hfails
  | socketFails hloc => cases hfails
  | forkServer hloc => rcases hloc with hloc | hloc <;> simp [Process.role, hloc, Loc.role] at hserver
  | forkFails hloc => rcases hloc with hloc | hloc <;> simp [Process.role, hloc, Loc.role] at hserver
  | _ => simp [Process.role, Process.inLoop, Loc.role, *] at *

theorem toFork_pos (s : Sys) : 0 < s.toFork := by
  unfold Sys.toFork
  split <;> omega

theorem not_hasServer (h : ¬ ∃ p, s.IsServer p) : s.hasServer = false :=
  Bool.eq_false_iff.2 fun hserver => h (hasServer_iff.1 hserver)

/-- The supervisor, when it forks a server. -/
theorem toServe_fork (hguarded : Guarded s) (hp : s.procs.proc p = some pr)
    (hforking : pr.loc.forking = true) :
    (s.apply p pr (.fork none .polling .doProcess)).toServe < s.toServe := by
  have hnone : s.hasServer = false := by
    refine not_hasServer ?_
    rintro ⟨q, hq⟩
    exact (hguarded.lineage.vacant p pr hp hforking).2 q hq
  have hafter : (s.apply p pr (.fork none .polling .doProcess)).hasServer = true :=
    hasServer_iff.2 ⟨_, isServer_fork hp none .polling⟩
  have hself : pr.toLoop = 0 :=
    toLoop_of_not_server (by simp [Process.role, Loc.role_of_forking hforking])
  have hsum := total_apply hp Process.toLoop (.fork none .polling .doProcess)
  have hpos := toFork_pos s
  have hcost : (Effect.fork none .polling .doProcess).cost Process.toLoop p pr = 4 := rfl
  rw [hself, hcost] at hsum
  simp only [Sys.toServe, hnone, hafter, if_true, Bool.false_eq_true, if_false]
  omega

/-- The supervisor, when it waits or sleeps. -/
theorem toServe_wait (hguarded : Guarded s) (hspared : Spared s (p, a))
    (hp : s.procs.proc p = some pr) (hcode : codeStep s p pr a = some eff)
    (hrole : pr.role = .supervisor) (hforking : pr.loc.forking = false)
    (hcost : eff.cost Process.toLoop p pr = 0) :
    (s.apply p pr eff).toServe ≤ s.toServe ∧
      (OnTurn s (p, a) → (s.apply p pr eff).toServe < s.toServe) := by
  have hkeeps := (move_of_codeStep hcode).keepsRole
  have hsum := total_apply hp Process.toLoop eff
  have hself : pr.toLoop = 0 := toLoop_of_not_server (by simp [hrole])
  rw [hself, hcost] at hsum
  by_cases hserver : ∃ q, s.IsServer q
  · -- The server goes on, and it is its turn.
    rcases hserver with ⟨q, prq, hq, hprq⟩
    have hne : q ≠ p := by
      rintro rfl
      have hsame : pr = prq := Option.some.inj (hp.symm.trans hq)
      rw [← hsame, hrole] at hprq
      cases hprq
    have hbefore : s.hasServer = true := hasServer_iff.2 ⟨q, prq, hq, hprq⟩
    have hafter : (s.apply p pr eff).hasServer = true :=
      hasServer_iff.2 ⟨q, prq, Sys.live_apply_of_ne pr eff hne hq, hprq⟩
    simp only [Sys.toServe, hbefore, hafter, if_true]
    refine ⟨by omega, ?_⟩
    rintro (⟨prp, hp', hself'⟩ | ⟨-, hnone⟩)
    · have hsame : pr = prp := Option.some.inj (hp.symm.trans hp')
      rw [← hsame, hrole] at hself'
      cases hself'
    · rw [hbefore] at hnone
      cases hnone
  · have hlater : ¬ ∃ q, (s.apply p pr eff).IsServer q := by
      rintro ⟨q, hq⟩
      rcases isServer_apply hp hkeeps hq with hold | ⟨-, hfork⟩
      · exact hserver ⟨q, hold⟩
      · rw [hforking] at hfork
        cases hfork
    have hzero : p = 0 := (hguarded.lineage.supervisor p pr hp).1 hrole
    have hfall := (toFork_step hguarded hspared (sysStep_of_codeStep hp hcode) hserver hlater).2 hzero
    simp only [Sys.toServe, not_hasServer hserver, not_hasServer hlater, Bool.false_eq_true, if_false]
    exact ⟨by omega, fun _ => by omega⟩

/-- The step lemma of the second rank: no children, and no server in its loop. -/
theorem toServe_step {a : Pid × Act} (hown : Owns s) (hguarded : Guarded s) (hnone : s.hasChild = false)
    (hserving : s.serving = false) (hspared : Spared s a) (huntroubled : Untroubled s a)
    (hstep : sysStep s a = some s') :
    s'.toServe ≤ s.toServe ∧ (OnTurn s a → s'.toServe < s.toServe) := by
  rcases a with ⟨p, act⟩
  rcases codeStep_of_sysStep hstep with ⟨pr, eff, hp, hcode, rfl⟩
  have hmove := move_of_codeStep hcode
  have hsum : (s.apply p pr eff).procs.total Process.toLoop + Process.toLoop pr =
      s.procs.total Process.toLoop + eff.cost Process.toLoop p pr := total_apply hp _ eff
  cases hrole : Process.role pr with
  | child => exact absurd hrole (not_child_of_hasChild hnone hp)
  | server =>
      rcases toLoop_of_server hown hnone hp hmove hrole (not_inLoop_of_serving hserving hp)
        (huntroubled ⟨pr, hp, hrole⟩) with ⟨pr', events, rfl, hrole', hlt⟩
      have hbefore : s.hasServer = true := hasServer_iff.2 ⟨p, pr, hp, hrole⟩
      have hafter : (s.apply p pr (.goOn pr' events)).hasServer = true :=
        hasServer_iff.2 ⟨p, pr', Procs.proc_modify_self hp, hrole'⟩
      simp only [Sys.toServe, hbefore, hafter, if_true, Effect.cost] at hsum ⊢
      omega
  | supervisor =>
      have hzero : p = 0 := (hguarded.lineage.supervisor p pr hp).1 hrole
      rcases hspared hzero with ⟨hdie, hfork⟩
      rcases supervisor_cases hcode hrole hdie hfork with
        ⟨hforking, rfl⟩ | ⟨hloc, -, rfl⟩ | ⟨hloc, q, rfl⟩ | ⟨hloc, rfl⟩
      · have hfall := toServe_fork hguarded hp hforking
        exact ⟨Nat.le_of_lt hfall, fun _ => hfall⟩
      · exact toServe_wait hguarded hspared hp hcode hrole (by simp [hloc, Loc.forking]) rfl
      · exact toServe_wait hguarded hspared hp hcode hrole (by simp [hloc, Loc.forking]) rfl
      · exact toServe_wait hguarded hspared hp hcode hrole (by simp [hloc, Loc.forking]) rfl

end Server

/-! ## Healing -/

section Healing

variable {acts : Nat → Pid × Act} {run : Nat → Sys} {n : Nat}

/-- Without a server in its loop the last child comes to its end. -/
theorem childless_eventually (hrun : Forever sysStep Sys.init acts run)
    (hchildren : ∀ n, (run n).hasChild = true → ∃ m, n ≤ m ∧ ChildGoes (run m) (acts m))
    (hnever : ∀ k, n ≤ k → (run k).serving = false) :
    ∃ m, n ≤ m ∧ ∀ k, m ≤ k → (run k).hasChild = false := by
  have hfalls : ∀ k, n ≤ k → ¬ (run k).hasChild = false → ¬ (run (k + 1)).hasChild = false →
      (run (k + 1)).orphans ≤ (run k).orphans ∧
        (ChildGoes (run k) (acts k) → (run (k + 1)).orphans < (run k).orphans) :=
    fun k hk _ _ => orphans_step (hnever k hk) (hrun.next k)
  obtain ⟨m, hnm, hnone⟩ : ∃ m, n ≤ m ∧ (run m).hasChild = false :=
    Forever.eventually (fun s => s.hasChild = false) ChildGoes Sys.orphans hfalls
      fun k _ hchild => hchildren k (by simpa using hchild)
  refine ⟨m, hnm, fun k hk => ?_⟩
  induction hk with
  | refl => exact hnone
  | step hmk ih => exact childless_step (hnever _ (Nat.le_trans hnm hmk)) ih (hrun.next _)

/-- If the supervisor is spared and goes on, and from some point on no server is killed and servers and
children go on too, then a server serves again: whatever was killed before, and though every child that
is left keeps the port taken. -/
theorem healed (hrun : Forever sysStep Sys.init acts run) (hspared : ∀ n, Spared (run n) (acts n))
    (huntroubled : ∀ k, n ≤ k → Untroubled (run k) (acts k))
    (hsupervisor : ∀ n, ∃ m, n ≤ m ∧ (acts m).1 = 0)
    (hservers : ∀ n, (run n).hasServer = true → ∃ m, n ≤ m ∧ (run m).IsServer (acts m).1)
    (hchildren : ∀ n, (run n).hasChild = true → ∃ m, n ≤ m ∧ ChildGoes (run m) (acts m)) :
    ∃ m, n ≤ m ∧ (run m).serving = true := by
  by_contra hnot
  have hnever : ∀ k, n ≤ k → (run k).serving = false := by
    intro k hk
    by_contra hserving
    exact hnot ⟨k, hk, by simpa using hserving⟩
  have hown : ∀ k, Owns (run k) :=
    hrun.invariant (C := fun _ _ => True) owns_init (fun _ => trivial)
      fun _ _ _ h _ hstep => owns_step h hstep
  have hguarded : ∀ k, Guarded (run k) :=
    hrun.invariant (C := Spared) guarded_init hspared fun _ _ _ => guarded_step
  rcases childless_eventually hrun hchildren hnever with ⟨m, hnm, hnone⟩
  have hfalls : ∀ k, m ≤ k → ¬ (run k).serving = true → ¬ (run (k + 1)).serving = true →
      (run (k + 1)).toServe ≤ (run k).toServe ∧
        (OnTurn (run k) (acts k) → (run (k + 1)).toServe < (run k).toServe) := by
    intro k hk _ _
    have hnk := Nat.le_trans hnm hk
    exact toServe_step (hown k) (hguarded k) (hnone k hk) (hnever k hnk) (hspared k)
      (huntroubled k hnk) (hrun.next k)
  -- The supervisor may be late, but then there is a server, and it is its turn.
  have hturn : ∀ k, ∃ j, k ≤ j ∧ OnTurn (run j) (acts j) := by
    intro k
    have hserver : ∀ k, (run k).hasServer = true → ∃ j, k ≤ j ∧ OnTurn (run j) (acts j) := by
      intro k hk
      rcases hservers k hk with ⟨j, hkj, hj⟩
      exact ⟨j, hkj, Or.inl hj⟩
    rcases hsupervisor k with ⟨j, hkj, hj⟩
    by_cases hhas : (run j).hasServer = true
    · rcases hserver j hhas with ⟨i, hji, hi⟩
      exact ⟨i, Nat.le_trans hkj hji, hi⟩
    · exact ⟨j, hkj, Or.inr ⟨hj, by simpa using hhas⟩⟩
  rcases Forever.eventually (fun s => s.serving = true) OnTurn Sys.toServe hfalls
    (fun k _ _ => hturn k) with ⟨k, hk, hserving⟩
  exact hnot ⟨k, Nat.le_trans hnm hk, hserving⟩

end Healing

/-- The child of the killed server keeps the port from the next one; then it exits, and the one after
that is not refused. -/
def healedRun : List (Pid × Act) :=
  orphanRun ++
    [(2, .child (.localPort false)), (2, .child .go), (2, .child .go), (0, .waitpid (some 3)),
     (0, .fork true), (4, .config (some CommSvrSocket.shipped)), (4, .socket (some 3)), (4, .bind),
     (4, .listen)]

/-- Then it waits for connections, and the supervisor polls and sleeps. -/
def waitActs (n : Nat) : Pid × Act :=
  match n % 3 with
  | 0 => (0, .waitpid none)
  | 1 => (4, .select 0)
  | _ => (0, .wake)

theorem waitActs_cases (n : Nat) :
    waitActs n = (0, .waitpid none) ∨ waitActs n = (4, .select 0) ∨ waitActs n = (0, .wake) := by
  unfold waitActs
  split <;> simp

/-- The state of the service meanwhile. -/
structure Waiting (n : Nat) (s : Sys) : Prop where
  zombies : s.procs.zombies = []
  childless : s.All fun _ pr => pr.role ≠ .child
  server : ∃ (pr : Process) (l : Fd), s.procs.proc 4 = some pr ∧ pr.loc = .loopHead l
  supervisor : ∃ pr : Process, s.procs.proc 0 = some pr ∧
    pr.loc = if n % 3 = 0 then .polling else .sleeping

/-- A process that is no child goes on. -/
theorem childless_goOn {s : Sys} {p : Pid} {pr : Process} (hp : s.procs.proc p = some pr)
    (h : s.All fun _ pr => pr.role ≠ .child) {l : Loc} (hl : l.role ≠ .child) :
    (s.apply p pr (.goOn (pr.goto l) [])).All fun _ pr => pr.role ≠ .child :=
  Sys.all_apply hp (fun q prq _ hq => h q prq hq) hl

theorem waiting_next (n : Nat) (s : Sys) (h : Waiting n s) :
    ∃ s', sysStep s (waitActs n) = some s' ∧ Waiting (n + 1) s' := by
  rcases h with ⟨hzombies, hnone, ⟨prs, l, hs, hlocs⟩, prp, hp, hlocp⟩
  obtain ⟨k, hk⟩ : ∃ k, n = 3 * k ∨ n = 3 * k + 1 ∨ n = 3 * k + 2 := ⟨n / 3, by omega⟩
  rcases hk with rfl | rfl | rfl
  · have hmod : 3 * k % 3 = 0 := by omega
    have hmod' : (3 * k + 1) % 3 = 1 := by omega
    rw [hmod, if_pos rfl] at hlocp
    have hcode : codeStep s 0 prp (.waitpid none) = some (.goOn (prp.goto .sleeping) []) := by
      simp [codeStep, hlocp, hzombies]
    refine ⟨_, by rw [waitActs, hmod]; exact sysStep_of_codeStep hp hcode, ?_⟩
    exact
      { zombies := hzombies
        childless := childless_goOn hp hnone (by simp [Loc.role])
        server := ⟨prs, l, Sys.live_apply_of_ne prp _ (by decide) hs, hlocs⟩
        supervisor := ⟨prp.goto .sleeping, Procs.proc_modify_self hp, by simp [hmod']⟩ }
  · have hmod : (3 * k + 1) % 3 = 1 := by omega
    have hmod' : (3 * k + 2) % 3 = 2 := by omega
    rw [hmod, if_neg (by decide)] at hlocp
    have hcode : codeStep s 4 prs (.select 0) = some (.goOn (prs.goto (.loopHead l)) []) := by
      simp [codeStep, hlocs]
    refine ⟨_, by rw [waitActs, hmod]; exact sysStep_of_codeStep hs hcode, ?_⟩
    exact
      { zombies := hzombies
        childless := childless_goOn hs hnone (by simp [Loc.role])
        server := ⟨prs.goto (.loopHead l), l, Procs.proc_modify_self hs, rfl⟩
        supervisor := ⟨prp, Sys.live_apply_of_ne prs _ (by decide) hp, by simp [hmod', hlocp]⟩ }
  · have hmod : (3 * k + 2) % 3 = 2 := by omega
    have hmod' : (3 * k + 2 + 1) % 3 = 0 := by omega
    rw [hmod, if_neg (by decide)] at hlocp
    have hcode : codeStep s 0 prp .wake = some (.goOn (prp.goto .polling) []) := by
      simp [codeStep, hlocp]
    refine ⟨_, by rw [waitActs, hmod]; exact sysStep_of_codeStep hp hcode, ?_⟩
    exact
      { zombies := hzombies
        childless := childless_goOn hp hnone (by simp [Loc.role])
        server := ⟨prs, l, Sys.live_apply_of_ne prp _ (by decide) hs, hlocs⟩
        supervisor := ⟨prp.goto .polling, Procs.proc_modify_self hp, by simp [hmod']⟩ }

/-- The server is killed by the step 9. -/
theorem healed_sample : ∃ run, Forever sysStep Sys.init (after healedRun waitActs) run ∧
    ∃ m, 10 ≤ m ∧ (run m).serving = true := by
  have hend : (exec sysStep Sys.init healedRun).map (fun s =>
      (s.procs.zombies, s.hasChild, (s.procs.proc 4).map Process.loc,
        (s.procs.proc 0).map Process.loc)) = some ([], false, some (.loopHead 3), some .polling) := rfl
  rcases Option.map_eq_some_iff.1 hend with ⟨s, hfirst, hs⟩
  simp only [Prod.mk.injEq] at hs
  rcases hs with ⟨hzombies, hnone, hserver, hsupervisor⟩
  have hwaiting : Waiting 0 s :=
    { zombies := hzombies
      childless := fun _ _ hp => not_child_of_hasChild hnone hp
      server := by
        rcases Option.map_eq_some_iff.1 hserver with ⟨pr, hp, hloc⟩
        exact ⟨pr, 3, hp, hloc⟩
      supervisor := Option.map_eq_some_iff.1 hsupervisor }
  rcases exists_forever_after hfirst hwaiting waiting_next with ⟨run, hrun, hwait, hfront⟩
  have hlate : ∀ n, 24 ≤ n → Waiting (n - 24) (run n) := by
    intro n hn
    have hn' : healedRun.length + (n - 24) = n := Nat.add_sub_cancel' hn
    have hlast := hwait (n - 24)
    rwa [hn'] at hlast
  refine ⟨run, hrun, healed hrun ?_ ?_ ?_ ?_ ?_⟩
  · intro n
    rcases Nat.lt_or_ge n 24 with hn | hn
    · rw [after_of_lt hn]
      have hall : ∀ a ∈ healedRun, a.1 = 0 → a.2 ≠ .die ∧ a.2 ≠ .fork false := by
        simp [healedRun, orphanRun, servedRun]
      exact hall _ (List.getElem_mem hn)
    · rw [after_of_le hn]
      rcases waitActs_cases (n - healedRun.length) with hact | hact | hact <;> simp [Spared, hact]
  · intro n hn _
    rcases Nat.lt_or_ge n 24 with hlt | hge
    · have hall : ∀ n < 24, 10 ≤ n → (after healedRun waitActs n).2.fails = false := by decide
      exact hall n hlt hn
    · rw [after_of_le hge]
      rcases waitActs_cases (n - healedRun.length) with hact | hact | hact <;> rw [hact] <;> rfl
  · intro n
    refine ⟨24 + 3 * n, by omega, ?_⟩
    rw [after_of_le (show healedRun.length ≤ 24 + 3 * n from Nat.le_add_right 24 _)]
    have hmod : (24 + 3 * n - healedRun.length) % 3 = 0 := by
      show (24 + 3 * n - 24) % 3 = 0
      omega
    simp only [waitActs, hmod]
  · intro n _
    refine ⟨24 + (3 * n + 1), by omega, ?_⟩
    rw [after_of_le (show healedRun.length ≤ 24 + (3 * n + 1) from Nat.le_add_right 24 _)]
    have hmod : (24 + (3 * n + 1) - healedRun.length) % 3 = 1 := by
      show (24 + (3 * n + 1) - 24) % 3 = 1
      omega
    rcases (hlate (24 + (3 * n + 1)) (Nat.le_add_right 24 _)).server with ⟨pr, l, hp, hloc⟩
    simp only [waitActs, hmod]
    exact ⟨pr, hp, congrArg Loc.role hloc⟩
  · intro n hchild
    rcases Nat.lt_or_ge n 18 with hlt | hge
    · -- The child goes on, and its last step is the step 17.
      have hrole : (exec sysStep Sys.init (healedRun.take 17)).bind (fun s =>
          (s.procs.proc 2).map Process.role) = some .child := rfl
      rw [hfront 17 (by decide), Option.bind_some] at hrole
      refine ⟨17, Nat.le_of_lt_succ hlt, Option.map_eq_some_iff.1 hrole, ?_⟩
      rintro ⟨pr, fd, ch, act, -, -, hact, hidle⟩
      cases hact
      cases hidle
    · exfalso
      rcases Nat.lt_or_ge n 24 with hlt | hafter
      · have hall : ∀ n < 24, 18 ≤ n →
            (exec sysStep Sys.init (healedRun.take n)).map Sys.hasChild = some false := by
          decide +kernel
        have hgone := hall n hlt hge
        rw [hfront n (Nat.le_of_lt hlt), Option.map_some, hchild] at hgone
        cases hgone
      · rcases Procs.any_iff.1 hchild with ⟨p, pr, hp, hrole⟩
        exact (hlate n hafter).childless p pr hp (of_decide_eq_true hrole)

end CommServer
