import CommServer.Child.Lifetime
import CommServer.Service.Forwarding
import CommServer.Transition.Fairness
import CommServer.Unix.Totals

/-!
# HangUp — every connection is hung up

A connection is held by the server that has accepted it and by the child that it was handed to, and each
of them lets go of it after so many steps (`Process.toRelease`).  The sum over all processes
(`Sys.toHangUp`) falls at every step of one that holds the connection, but for the idle rounds of a child.

* `toHangUp_step` : one step;
* `hung_up`       : if whoever holds the connection goes on, then in the end nobody does any more.
-/

namespace CommServer

open Unix Transition

/-! ## What is left to do -/

/-- How many steps there are at most until the process, and a child that it has yet to make, have let go
of the connection. -/
def Process.toRelease (c : Nat) (pr : Process) : Nat :=
  if pr.table.holds (.conn c) then
    match pr.loc with
    | .accepted _ _ => 3 + Child.init.rank
    | .processMain _ ch => 1 + ch.rank
    | _ => 1
  else 0

def Sys.toHangUp (c : Nat) (s : Sys) : Nat :=
  s.procs.total (Process.toRelease c)

/-- The step is an idle one of a connection child. -/
def Sys.idle (s : Sys) (a : Pid × Act) : Prop :=
  ∃ (pr : Process) (fd : Fd) (ch : Child) (act : ChildAct), s.procs.proc a.1 = some pr ∧
    pr.loc = .processMain fd ch ∧ a.2 = .child act ∧ ch.idle pr.state.svr act = true

/-- A process that has the connection open makes a step that is not idle. -/
def Proceeds (c : Nat) (s : Sys) (a : Pid × Act) : Prop :=
  (∃ (pr : Process) (fd : Fd), s.procs.proc a.1 = some pr ∧ (fd, .conn c) ∈ pr.table.entries) ∧
    ¬ s.idle a

/-- What the processes count for that have moved. -/
def Effect.cost (w : Process → Nat) (p : Pid) (pr : Process) : Effect → Nat
  | .goOn pr' _ => w pr'
  | .fork _ here there =>
      w (pr.goto here) + w (Procs.childOf p pr { pr.state with loc := there })
  | .reap _ => w (pr.goto .reaped)
  | .exit _ => 0

section Step

variable {s s' : Sys} {p : Pid} {pr : Process} {a : Act} {eff : Effect} {c : Nat}

/-- A step changes the sum by what it changes for the processes that move. -/
theorem total_apply (hp : s.procs.proc p = some pr) (w : Process → Nat) (eff : Effect) :
    (s.apply p pr eff).procs.total w + w pr = s.procs.total w + eff.cost w p pr := by
  cases eff with
  | goOn pr' events => exact Procs.total_modify hp
  | fork handed here there =>
      have hparent : (s.procs.fork p pr { pr.state with loc := there }).proc p = some pr :=
        (Procs.proc_fork_of_ne (Procs.ne_next hp)).trans hp
      have hmodify := Procs.total_modify (w := w) (f := fun pr : Process => pr.goto here) hparent
      have hfork : (s.procs.fork p pr { pr.state with loc := there }).total w =
          s.procs.total w + w (Procs.childOf p pr { pr.state with loc := there }) :=
        Procs.total_fork
      rw [hfork] at hmodify
      refine hmodify.trans ?_
      rw [Effect.cost]
      ac_rfl
  | reap z => exact Procs.total_modify (t := s.procs.reap z p) hp
  | exit events => exact Procs.total_exit hp

theorem cost_eq_zero {w : Process → Nat} (h : eff.Leaves s p pr fun _ prq => w prq = 0) :
    eff.cost w p pr = 0 := by
  cases eff with
  | goOn pr' events => exact h
  | fork handed here there => simp only [Effect.cost, h.1, h.2]
  | reap z => exact h
  | exit events => rfl

theorem toRelease_eq_zero {c : Nat} (h : ∀ fd, (fd, .conn c) ∉ pr.table.entries) :
    pr.toRelease c = 0 := by
  have hholds : ¬ pr.table.holds (.conn c) = true := by
    intro hholds
    rcases FdTable.holds_iff.1 hholds with ⟨fd, hmem⟩
    exact h fd hmem
  exact if_neg hholds

theorem toRelease_of_mem {fd : Fd} (h : (fd, .conn c) ∈ pr.table.entries) :
    pr.toRelease c =
      match pr.loc with
      | .accepted _ _ => 3 + Child.init.rank
      | .processMain _ ch => 1 + ch.rank
      | _ => 1 :=
  if_pos (FdTable.holds_iff.2 ⟨fd, h⟩)

/-- A new connection gets a number that no other one had. -/
theorem not_accepted_again (hmove : Move s p pr a eff) (hc : c < s.log.length) :
    .accepted p c ∉ eff.events s p := by
  intro he
  cases hmove with
  | accept l fd hloc hfree =>
      cases List.mem_singleton.1 he
      exact Nat.lt_irrefl _ hc
  | _ => simp [Effect.events] at he

/-- Nobody gets a connection that was accepted before, but by a `fork` of someone who has it. -/
theorem cost_of_not_mem (hmove : Move s p pr a eff) (hc : c < s.log.length)
    (hnot : ∀ fd, (fd, .conn c) ∉ pr.table.entries) : eff.cost (Process.toRelease c) p pr = 0 := by
  have hnew := not_accepted_again hmove hc
  have hconns := hmove.conns
  have hnone : ∀ prq : Process, (∀ fd k, (fd, Sock.conn k) ∈ prq.table.entries →
      (fd, Sock.conn k) ∈ pr.table.entries ∨ .accepted p k ∈ eff.events s p) →
      prq.toRelease c = 0 := by
    intro prq h
    refine toRelease_eq_zero fun fd hmem => ?_
    rcases h fd c hmem with hold | he
    · exact hnot fd hold
    · exact hnew he
  apply cost_eq_zero (s := s)
  cases eff with
  | goOn pr' events => exact hnone pr' hconns
  | fork handed here there => exact ⟨hnone _ hconns.1, hnone _ hconns.2⟩
  | reap z => exact hnone _ hconns
  | exit events => trivial

/-- What has closed the descriptor in front has let go of its connection. -/
theorem toRelease_close {pr' : Process} {fd : Fd} {rest : List (Fd × Sock)}
    (hentries : pr.table.entries = (fd, .conn c) :: rest) (hrest : ∀ e ∈ rest, e.2 ≠ .conn c)
    (htable : pr'.table = pr.table.close fd) : pr'.toRelease c = 0 := by
  apply toRelease_eq_zero
  intro fd' hmem
  rw [htable, FdTable.entries_close_of_entries hentries] at hmem
  exact hrest _ hmem rfl

theorem toRelease_pos {fd : Fd} (h : (fd, .conn c) ∈ pr.table.entries) : 0 < pr.toRelease c := by
  rw [toRelease_of_mem h]
  split <;> omega

/-- Only a server between `tcp_accept` and `sock_close`, and a child, have a connection open. -/
theorem loc_of_mem {log : List Event} (hpl : Placed log p pr) {fd : Fd}
    (h : (fd, .conn c) ∈ pr.table.entries) :
    (∃ l fd', pr.loc = .accepted l fd') ∨ (∃ l fd', pr.loc = .forked l fd') ∨
      ∃ fd' ch, pr.loc = .processMain fd' ch := by
  cases hloc : Process.loc pr with
  | accepted l fd' => exact Or.inl ⟨l, fd', rfl⟩
  | forked l fd' => exact Or.inr (Or.inl ⟨l, fd', rfl⟩)
  | processMain fd' ch => exact Or.inr (Or.inr ⟨fd', ch, rfl⟩)
  | _ =>
      simp only [Placed, hloc] at hpl
      simp [hpl] at h

/-- A server passes the connection on or closes it, and a signal closes it in any process. -/
theorem cost_of_server (hpl : Placed s.log p pr) (hmove : Move s p pr a eff) {fd : Fd}
    (hmem : (fd, .conn c) ∈ pr.table.entries) (hnot : ∀ act, a ≠ .child act) :
    eff.cost (Process.toRelease c) p pr < pr.toRelease c := by
  have hpos := toRelease_pos hmem
  rcases loc_of_mem hpl hmem with ⟨l, fd', hloc⟩ | ⟨l, fd', hloc⟩ | ⟨fd', ch, hloc⟩
  · have hself : pr.toRelease c = 3 + Child.init.rank := by rw [toRelease_of_mem hmem, hloc]
    cases hmove with
    | die => exact hpos
    | forkProcFails l' fd'' h =>
        have hnext : (pr.goto (.forked l' fd'')).toRelease c = 1 := toRelease_of_mem hmem
        rw [Effect.cost, hnext, hself]
        omega
    | forkProc l' fd'' h =>
        have hnext : (pr.goto (.forked l' fd'')).toRelease c = 1 := toRelease_of_mem hmem
        have hchild : Process.toRelease c
            (Procs.childOf p pr { pr.state with loc := .processMain fd'' Child.init }) =
              1 + Child.init.rank := toRelease_of_mem hmem
        rw [Effect.cost, hnext, hchild, hself]
        omega
    | _ => simp [hloc] at *
  · cases hmove with
    | die => exact hpos
    | close l' fd'' h =>
        rcases placed_forked hpl h with ⟨k, r, hentries, -, -⟩
        have hk : k = c := by
          rw [hentries] at hmem
          exact (eq_of_mem_pair hmem).2.symm
        subst hk
        have hnext : ((pr.withTable (pr.table.close fd'')).goto (.loopHead l')).toRelease k = 0 :=
          toRelease_close hentries (by simp) rfl
        rw [Effect.cost, hnext]
        exact hpos
    | _ => simp [hloc] at *
  · rcases hmove.exits_or_child hloc with ⟨-, events, rfl⟩ | ⟨act, hact⟩
    · exact hpos
    · exact absurd hact (hnot act)

/-- A child lets go of it when it comes to its end. -/
theorem cost_of_child {act : ChildAct} (hpl : Placed s.log p pr)
    (hcode : codeStep s p pr (.child act) = some eff) {fd : Fd}
    (hmem : (fd, .conn c) ∈ pr.table.entries) :
    eff.cost (Process.toRelease c) p pr ≤ pr.toRelease c ∧
      ((∀ fd ch, pr.loc = .processMain fd ch → ch.idle pr.state.svr act = false) →
        eff.cost (Process.toRelease c) p pr < pr.toRelease c) := by
  have hpos := toRelease_pos hmem
  rcases childStep_of_codeStep hcode with ⟨fd', ch, ch', hloc, hone, heff⟩
  have hself : pr.toRelease c = 1 + ch.rank := by rw [toRelease_of_mem hmem, hloc]
  cases heff with
  | closes hpc =>
      have hentries : ∃ l, pr.table.entries = [(fd', .conn c), (l, .listening pr.port)] := by
        simp only [Placed, hloc] at hpl
        rcases hpl with ⟨k, l, hentries | ⟨-, hentries⟩⟩
        · rw [hentries] at hmem
          exact ⟨l, (eq_of_mem_pair hmem).2 ▸ hentries⟩
        · simp [hentries] at hmem
      rcases hentries with ⟨l, hentries⟩
      have hnext : ((pr.withTable (pr.table.close fd')).goto (.processMain fd' ch')).toRelease c = 0 :=
        toRelease_close hentries (by simp) rfl
      rw [Effect.cost, hnext]
      exact ⟨Nat.zero_le _, fun _ => hpos⟩
  | exits hpc => exact ⟨Nat.zero_le _, fun _ => hpos⟩
  | goesOn hclosed hexited =>
      have hnext : (pr.goto (.processMain fd' ch')).toRelease c = 1 + ch'.rank :=
        toRelease_of_mem hmem
      rcases rank_step hone with ⟨hle, hlt⟩
      rw [Effect.cost, hnext, hself]
      refine ⟨Nat.add_le_add_left hle 1, fun hbusy => ?_⟩
      exact Nat.add_lt_add_left (hlt (hbusy fd' ch hloc)) 1

end Step

/-- The step lemma: no step leads away from the end of a connection, and each that proceeds leads
nearer to it. -/
theorem toHangUp_step {s s' : Sys} {a : Pid × Act} {c : Nat} (hown : Owns s) (hheld : s.held c = true)
    (hstep : sysStep s a = some s') :
    s'.toHangUp c ≤ s.toHangUp c ∧ (Proceeds c s a → s'.toHangUp c < s.toHangUp c) := by
  rcases a with ⟨p, act⟩
  rcases codeStep_of_sysStep hstep with ⟨pr, eff, hp, hcode, rfl⟩
  have hmove := move_of_codeStep hcode
  have hpl := hown.placed p pr hp
  have hc : c < s.log.length := by
    rcases sys_held_iff.1 hheld with ⟨q, prq, fd, hq, hmem⟩
    rcases hown.accepted_of_mem hq hmem with ⟨r, he⟩
    exact hown.past _ he c rfl
  -- What it costs the process that moves is what it costs the whole.
  have hsum : (s.apply p pr eff).procs.total (Process.toRelease c) + Process.toRelease c pr =
      s.procs.total (Process.toRelease c) + eff.cost (Process.toRelease c) p pr :=
    total_apply hp _ eff
  suffices hcost : eff.cost (Process.toRelease c) p pr ≤ Process.toRelease c pr ∧
      (Proceeds c s (p, act) → eff.cost (Process.toRelease c) p pr < Process.toRelease c pr) by
    refine ⟨?_, fun hproceeds => ?_⟩
    · have hle := hcost.1
      simp only [Sys.toHangUp]
      omega
    · have hlt := hcost.2 hproceeds
      simp only [Sys.toHangUp]
      omega
  by_cases hmem : ∃ fd, (fd, .conn c) ∈ pr.table.entries
  · rcases hmem with ⟨fd, hmem⟩
    by_cases hchild : ∃ a, act = .child a
    · rcases hchild with ⟨a, rfl⟩
      refine (cost_of_child hpl hcode hmem).imp_right fun hlt hproceeds => hlt ?_
      intro fd' ch hloc
      by_contra hidle
      exact hproceeds.2 ⟨pr, fd', ch, a, hp, hloc, rfl, by simpa using hidle⟩
    · have hlt := cost_of_server hpl hmove hmem fun a hact => hchild ⟨a, hact⟩
      exact ⟨Nat.le_of_lt hlt, fun _ => hlt⟩
  · have hnot : ∀ fd, (fd, .conn c) ∉ pr.table.entries := fun fd h => hmem ⟨fd, h⟩
    rw [cost_of_not_mem hmove hc hnot]
    refine ⟨Nat.zero_le _, ?_⟩
    rintro ⟨⟨prq, fd, hq, hopen⟩, -⟩
    have hsame : pr = prq := Option.some.inj (hp.symm.trans hq)
    exact absurd (hsame ▸ hopen) (hnot fd)

/-! ## Runs that do not end -/

/-- A connection that was accepted and is not held is not accepted again, nor held. -/
theorem released_step {s s' : Sys} {a : Pid × Act} {c : Nat} (hc : c < s.log.length)
    (hfree : s.held c = false) (hstep : sysStep s a = some s') : s'.held c = false := by
  rcases a with ⟨p, act⟩
  rcases sysStep_cases hstep with ⟨pr, eff, hp, hmove, rfl⟩
  rw [Bool.eq_false_iff]
  intro hheld
  rcases held_apply hp hmove hheld with hold | he
  · rw [hfree] at hold
    cases hold
  · exact not_accepted_again hmove hc he

theorem length_log_le {s s' : Sys} {a : Pid × Act} (hstep : sysStep s a = some s') :
    s.log.length ≤ s'.log.length := by
  rcases a with ⟨p, act⟩
  rcases sysStep_cases hstep with ⟨pr, eff, -, -, rfl⟩
  rw [Sys.log_apply, List.length_append]
  exact Nat.le_add_right _ _

/-- Every connection that the service has accepted is hung up in the end, for good, if those who hold it
go on: whatever requests there are, and whatever becomes of Tuxedo, the alarms and the other processes. -/
theorem hung_up {acts : Nat → Pid × Act} {run : Nat → Sys} {c : Nat}
    (hrun : Forever sysStep Sys.init acts run)
    (hfair : ∀ n, (run n).held c = true → ∃ m, n ≤ m ∧ Proceeds c (run m) (acts m)) {n : Nat}
    {p : Pid} (haccepted : .accepted p c ∈ (run n).log) :
    ∃ m, n ≤ m ∧ ∀ k, m ≤ k → (run k).held c = false := by
  have hown : ∀ k, Owns (run k) :=
    hrun.invariant (C := fun _ _ => True) owns_init (fun _ => trivial)
      fun _ _ _ h _ hstep => owns_step h hstep
  have hrank : ∀ s a s', Owns s → True → sysStep s a = some s' → ¬ s.held c = false →
      ¬ s'.held c = false →
      s'.toHangUp c ≤ s.toHangUp c ∧ (Proceeds c s a → s'.toHangUp c < s.toHangUp c) :=
    fun s a s' h _ hstep hheld _ => toHangUp_step h (by simpa using hheld) hstep
  obtain ⟨m, hnm, hfree⟩ : ∃ m, n ≤ m ∧ (run m).held c = false :=
    hrun.often hown (fun _ => trivial) hrank (fun k hheld => hfair k (by simpa using hheld)) n
  refine ⟨m, hnm, fun k hk => ?_⟩
  have hpast : ∀ k, n ≤ k → c < (run k).log.length := by
    intro k hk
    induction hk with
    | refl => exact (hown n).past _ haccepted c rfl
    | step _ ih => exact Nat.lt_of_lt_of_le ih (length_log_le (hrun.next _))
  induction hk with
  | refl => exact hfree
  | step hmk ih => exact released_step (hpast _ (Nat.le_trans hnm hmk)) ih (hrun.next _)

/-- The child of `servedRun` cannot find its port, and closes the connection. -/
def releasedRun : List (Pid × Act) :=
  servedRun ++ [(2, .child (.localPort false)), (2, .child .go)]

/-- Then the supervisor polls and sleeps for ever. -/
def watchActs (n : Nat) : Pid × Act :=
  if n % 2 = 0 then (0, .waitpid none) else (0, .wake)

/-- The state of the service meanwhile. -/
def Watching (n : Nat) (s : Sys) : Prop :=
  s.procs.zombies = [] ∧ s.held 1 = false ∧ 1 < s.log.length ∧
    ∃ pr : Process, s.procs.proc 0 = some pr ∧ pr.loc = if n % 2 = 0 then .polling else .sleeping

theorem watching_next (n : Nat) (s : Sys) (h : Watching n s) :
    ∃ s', sysStep s (watchActs n) = some s' ∧ Watching (n + 1) s' := by
  rcases h with ⟨hzombies, hfree, hpast, pr, hp, hloc⟩
  rcases Nat.mod_two_eq_zero_or_one n with hn | hn
  · have hnext : (n + 1) % 2 = 1 := by omega
    rw [hn, if_pos rfl] at hloc
    have hstep : sysStep s (watchActs n) = some (s.apply 0 pr (.goOn (pr.goto .sleeping) [])) := by
      simp [sysStep, watchActs, hn, hp, codeStep, hloc, hzombies]
    refine ⟨_, hstep, hzombies, released_step hpast hfree hstep, by simpa [Sys.apply] using hpast, ?_⟩
    exact ⟨pr.goto .sleeping, Procs.proc_modify_self hp, by simp [hnext, Process.goto, Process.loc]⟩
  · have hnext : (n + 1) % 2 = 0 := by omega
    rw [hn, if_neg (by decide)] at hloc
    have hstep : sysStep s (watchActs n) = some (s.apply 0 pr (.goOn (pr.goto .polling) [])) := by
      simp [sysStep, watchActs, hn, hp, codeStep, hloc]
    refine ⟨_, hstep, hzombies, released_step hpast hfree hstep, by simpa [Sys.apply] using hpast, ?_⟩
    exact ⟨pr.goto .polling, Procs.proc_modify_self hp, by simp [hnext, Process.goto, Process.loc]⟩

theorem hung_up_sample : ∃ run, Forever sysStep Sys.init (after releasedRun watchActs) run ∧
    ∃ m, 11 ≤ m ∧ ∀ k, m ≤ k → (run k).held 1 = false := by
  have hfirst : exec sysStep Sys.init releasedRun = some _ := rfl
  rcases exists_forever_after hfirst (P := Watching) ⟨rfl, rfl, by decide, _, rfl, rfl⟩ watching_next with
    ⟨run, hrun, hwatching, hfront⟩
  -- The child holds the connection until its last step.
  have hlast : Proceeds 1 (run 10) (after releasedRun watchActs 10) := by
    have hstate : exec sysStep Sys.init (releasedRun.take 10) = some _ := rfl
    have heq := Option.some.inj (hstate.symm.trans (hfront 10 (by decide)))
    rw [← heq]
    refine ⟨⟨_, 4, rfl, List.mem_cons_self⟩, ?_⟩
    rintro ⟨pr, fd, ch, act, -, -, hact, hidle⟩
    cases hact
    cases hidle
  have hfair : ∀ n, (run n).held 1 = true →
      ∃ m, n ≤ m ∧ Proceeds 1 (run m) (after releasedRun watchActs m) := by
    intro n hheld
    by_cases hn : n ≤ 10
    · exact ⟨10, hn, hlast⟩
    · have hfree := (hwatching (n - 11)).2.1
      have hindex : releasedRun.length + (n - 11) = n := by
        show 11 + (n - 11) = n
        omega
      rw [hindex, hheld] at hfree
      cases hfree
  have haccepted : .accepted 1 1 ∈ (run 11).log := by
    have hlog : .accepted 1 1 ∈ ((exec sysStep Sys.init (releasedRun.take 11)).map Sys.log).getD [] := by
      decide
    rw [hfront 11 (by decide)] at hlog
    exact hlog
  exact ⟨run, hrun, hung_up hrun hfair haccepted⟩

end CommServer
