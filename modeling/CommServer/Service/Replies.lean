import CommServer.Child.Completion
import CommServer.Service.Answers
import CommServer.Service.Healing

/-!
# Replies — every client gets a whole response

A connection child that nothing impedes and that no signal ends comes to its exit, and by then it has put
one whole response on its connection.

* `replied_exec`    : a child that is gone has sent a whole response;
* `lifetime_step`   : a child that goes on comes nearer to its exit;
* `replied_forever` : in an infinite run every connection that was handed on carries a whole response in
  the end, and nothing comes behind it.
-/

namespace CommServer

open CLib Unix Transition

/-! ## Whole responses -/

/-- All of one response: the timeout response, or the answer to a message that a child with these steps
was sent, as its Tuxedo call came out. -/
def Replied (acts : List ChildAct) (sent : List Byte) : Prop :=
  sent = timeoutMessage.text ∨
    ∃ msg o, Told acts msg ∧ ChildAct.tux o ∈ acts ∧ sent = (answerTo msg o).text

theorem replied_of_complete {cfg : CommSvrSocket} {acts : List ChildAct} {ch : Child} {alarm : Prop}
    (h : exec (childStep cfg) Child.init acts = some ch) (hcomplete : ch.Complete alarm) :
    Replied acts ch.wire := by
  rcases hcomplete with ⟨-, hwire⟩ | ⟨resp, hnormal, hwire⟩
  · exact Or.inl hwire
  · rcases (record_exec h).origin.normal resp hnormal with ⟨msg, o, htold, hcall, hcarries⟩
    exact Or.inr ⟨msg, o, htold, hcall.2, hwire.trans hcarries.sendMsg⟩

/-- Nothing impedes the child of the connection. -/
def UnimpededOn (c : Nat) (s : Sys) (a : Pid × Act) : Prop :=
  Served s.log c a.1 → OnChildren Answerable s a

section Run

variable {as : List (Pid × Act)} {s s' : Sys} {a : Pid × Act} {c : Nat} {q : Pid}

theorem replied_exec (h : exec sysStep Sys.init as = some s)
    (hC : Along sysStep (UnimpededOn c) Sys.init as) (hq : Served s.log c q)
    (hspared : (q, .die) ∉ as) (hgone : s.procs.proc q = none) :
    Replied (childActs as q) (sentOn c Sys.init as) := by
  rcases (heard_exec_of_served h hC).served q hq with ⟨cfg, ch, hlife⟩
  have hexited : ch.pc = .exited := (hlife.gone hgone).resolve_left hspared
  rw [hlife.sent]
  exact replied_of_complete hlife.alone (complete_exec hlife.along hlife.alone (Or.inr hexited))

/-! ## What is gone -/

theorem Served.known (h : Served s.log c q) (hown : Owns s) : q < s.procs.next := by
  rcases h with ⟨p, he⟩
  exact hown.known _ he q rfl

theorem Served.step (h : Served s.log c q) (hstep : sysStep s a = some s') : Served s'.log c q := by
  rcases a with ⟨p, act⟩
  rcases sysStep_cases hstep with ⟨pr, eff, -, -, rfl⟩
  rw [Sys.log_apply]
  exact served_append.2 (Or.inl h)

/-- No process comes back. -/
theorem gone_step (hold : q < s.procs.next) (hgone : s.procs.proc q = none)
    (hstep : sysStep s a = some s') : q < s'.procs.next ∧ s'.procs.proc q = none := by
  rcases a with ⟨p, act⟩
  rcases sysStep_cases hstep with ⟨pr, eff, hp, -, rfl⟩
  have hne : q ≠ p := by
    rintro rfl
    rw [hgone] at hp
    cases hp
  exact ⟨Nat.lt_of_lt_of_le hold (Sys.next_le_apply s p pr eff),
    (Sys.proc_apply_of_ne pr eff hne hold).trans hgone⟩

/-- When its child is gone, nothing more is put on a connection. -/
theorem sentOn_gone (h : exec sysStep Sys.init as = some s) (hq : Served s.log c q)
    (hgone : s.procs.proc q = none) (hstep : sysStep s a = some s') :
    sentOn c Sys.init (as ++ [a]) = sentOn c Sys.init as := by
  rcases a with ⟨p, act⟩
  have hsilent : ¬ Served s.log c p := by
    intro hp
    rcases sysStep_cases hstep with ⟨pr, eff, hlive, -, -⟩
    rw [served_unique h hp hq, hgone] at hlive
    cases hlive
  rw [sentOn_concat h hstep, puts_of_not_served (owns_exec h) hsilent, List.append_nil]

/-! ## On the way to the exit -/

/-- How many steps the child has left at most. -/
def Sys.lifetime (q : Pid) (s : Sys) : Nat :=
  match s.procs.proc q with
  | none => 0
  | some pr => Process.lifetime pr

/-- The child makes a step that is not idle. -/
def GoesOn (q : Pid) (s : Sys) (a : Pid × Act) : Prop :=
  a.1 = q ∧ ¬ s.idle a

theorem lifetime_apply {p : Pid} {pr : Process} (hp : s.procs.proc p = some pr) (eff : Effect) :
    (s.apply p pr eff).lifetime p ≤ eff.cost Process.lifetime p pr := by
  have hself : ∀ pr', (s.apply p pr eff).procs.proc p = some pr' →
      Process.lifetime pr' ≤ eff.cost Process.lifetime p pr := by
    refine fun pr' hp' => Sys.all_apply (P := fun r prr => r = p →
      Process.lifetime prr ≤ eff.cost Process.lifetime p pr) hp ?_ ?_ p pr' hp' rfl
    · exact fun r prr hne _ heq => absurd heq hne
    · cases eff with
      | goOn pr' events => exact fun _ => Nat.le_refl _
      | fork handed here there =>
          exact ⟨fun _ => Nat.le_add_right _ _, fun _ => Nat.le_add_left _ _⟩
      | reap z => exact fun _ => Nat.le_refl _
      | exit events => trivial
  unfold Sys.lifetime
  split
  case h_1 => exact Nat.zero_le _
  case h_2 pr' hp' => exact hself pr' hp'

/-- The step lemma. -/
theorem lifetime_step (h : exec sysStep Sys.init as = some s) (hq : Served s.log c q)
    (hstep : sysStep s a = some s') :
    s'.lifetime q ≤ s.lifetime q ∧ (GoesOn q s a → s'.lifetime q < s.lifetime q) := by
  rcases a with ⟨p, act⟩
  rcases codeStep_of_sysStep hstep with ⟨pr, eff, hp, hcode, rfl⟩
  by_cases hself : p = q
  · subst hself
    have hhere : s.lifetime p = Process.lifetime pr := by simp only [Sys.lifetime, hp]
    have hrole : Process.role pr = .child := by
      have hheard : Heard (fun _ _ => True) as s c :=
        heard_exec h (along_of_forall_mem (fun _ _ _ _ _ _ _ _ _ _ => trivial) _) c
      rcases hheard.served p hq with ⟨cfg, ch, hlife⟩
      rcases (hlife.here pr hp).2 with ⟨fd, hloc⟩
      simp only [Process.role, hloc, Loc.role]
    have hcost := lifetime_apply hp eff
    rcases lifetime_of_child hp hcode hrole with ⟨hle, hlt⟩
    rw [hhere]
    exact ⟨Nat.le_trans hcost hle, fun hgoes => Nat.lt_of_le_of_lt hcost (hlt hgoes.2)⟩
  · -- Another process has moved.
    have hsame : (s.apply p pr eff).procs.proc q = s.procs.proc q :=
      Sys.proc_apply_of_ne pr eff (Ne.symm hself) (hq.known (owns_exec h))
    simp only [Sys.lifetime, hsame]
    exact ⟨Nat.le_refl _, fun hgoes => absurd hgoes.1 hself⟩

end Run

/-! ## Runs that do not end -/

section Runs

variable {acts : Nat → Pid × Act} {run : Nat → Sys} {c n m : Nat} {q : Pid}

theorem Served.later (h : Served (run n).log c q) (hrun : Forever sysStep Sys.init acts run)
    (hnm : n ≤ m) : Served (run m).log c q := by
  induction hnm with
  | refl => exact h
  | step _ ih => exact ih.step (hrun.next _)

/-- Once its child is gone, what is on a connection is settled. -/
theorem settled_of_gone (hrun : Forever sysStep Sys.init acts run) (hq : Served (run n).log c q)
    (hgone : (run n).procs.proc q = none) (hnm : n ≤ m) :
    (run m).procs.proc q = none ∧
      sentOn c Sys.init (front acts m) = sentOn c Sys.init (front acts n) := by
  induction hnm with
  | refl => exact ⟨hgone, rfl⟩
  | @step k hnk ih =>
      have hserved := hq.later hrun hnk
      have hreach := hrun.exec_front k
      refine ⟨(gone_step (hserved.known (owns_exec hreach)) ih.1 (hrun.next k)).2, ?_⟩
      rw [front_succ, sentOn_gone hreach hserved ih.1 (hrun.next k), ih.2]

/-- However the steps of the service are interleaved, a client whose child is neither killed nor impeded
has got one whole response in the end, and gets nothing after it. -/
theorem replied_forever (hrun : Forever sysStep Sys.init acts run)
    (hspared : ∀ k, acts k ≠ (q, .die)) (hC : ∀ k, UnimpededOn c (run k) (acts k))
    (hfair : ∀ k, (run k).procs.proc q ≠ none → ∃ m, k ≤ m ∧ GoesOn q (run m) (acts m))
    (hq : Served (run n).log c q) :
    ∃ m, n ≤ m ∧ ∃ sent, Replied (childActs (front acts m) q) sent ∧
      ∀ k, m ≤ k → sentOn c Sys.init (front acts k) = sent := by
  obtain ⟨m, hnm, hgone⟩ : ∃ m, n ≤ m ∧ (run m).procs.proc q = none := by
    refine Forever.eventually (fun s => s.procs.proc q = none) (GoesOn q) (Sys.lifetime q) ?_
      fun k _ => hfair k
    exact fun k hk _ _ => lifetime_step (hrun.exec_front k) (hq.later hrun hk) (hrun.next k)
  have hspared' : (q, Act.die) ∉ front acts m := by
    rw [mem_front]
    rintro ⟨k, -, hk⟩
    exact hspared k hk
  have hserved := hq.later hrun hnm
  refine ⟨m, hnm, _, replied_exec (hrun.exec_front m) (hrun.along_front hC m) hserved hspared' hgone, ?_⟩
  exact fun k hk => (settled_of_gone hrun hserved hgone hk).2

end Runs

/-- The child of `answeredRun` hangs up and exits. -/
def repliedRun : List (Pid × Act) :=
  answeredRun ++ [(2, .child .go), (2, .child .go), (2, .child .go), (2, .child .go)]

/-- Nothing in `repliedRun` impedes the child, and then the supervisor only polls and sleeps. -/
theorem answerable_repliedRun (k : Nat) {act : ChildAct}
    (h : (after repliedRun watchActs k).2 = .child act) (ch : Child) : Answerable ch act := by
  rcases Nat.lt_or_ge k repliedRun.length with hk | hk
  · rw [after_of_lt hk] at h
    have hall : ∀ a ∈ repliedRun, ∀ act, a.2 = .child act → Answerable ch act := by
      have hmeasured : 0 ≤ (TuxOutcome.returning 0 1 [0x42]).recvlen.toInt :=
        show 0 ≤ (1 : Int64).toInt by decide
      have hroom : 5 < maxbufLen := by decide
      simp [repliedRun, answeredRun, servedRun, Answerable, Unimpeded, Fits, hmeasured, hroom]
    exact hall _ (List.getElem_mem hk) act h
  · rw [after_of_le hk, watchActs] at h
    split at h <;> cases h

/-- The state of the service behind `repliedRun`. -/
def Parted (n : Nat) (s : Sys) : Prop :=
  Watching n s ∧ 2 < s.procs.next ∧ s.procs.proc 2 = none

theorem parted_next (n : Nat) (s : Sys) (h : Parted n s) :
    ∃ s', sysStep s (watchActs n) = some s' ∧ Parted (n + 1) s' := by
  rcases h with ⟨hwatching, hold, hgone⟩
  rcases watching_next n s hwatching with ⟨s', hstep, hwatching'⟩
  exact ⟨s', hstep, hwatching', gone_step hold hgone hstep⟩

theorem polling_of_toFork {s : Sys} (h : s.toFork = 2) :
    ∃ pr : Process, s.procs.proc 0 = some pr ∧ pr.loc = .polling := by
  unfold Sys.toFork at h
  split at h
  case h_1 => cases h
  case h_2 hloc => exact Option.map_eq_some_iff.1 hloc
  case h_3 => cases h

theorem exec_repliedRun : ∃ s, exec sysStep Sys.init repliedRun = some s ∧ Parted 0 s := by
  have hend : (exec sysStep Sys.init repliedRun).map (fun s =>
      (s.procs.zombies, s.held 1, s.log.length, s.procs.next, (s.procs.proc 2).isNone, s.toFork)) =
        some ([], false, 5, 3, true, 2) := by
    decide +kernel
  rcases Option.map_eq_some_iff.1 hend with ⟨s, hrun, hs⟩
  simp only [Prod.mk.injEq] at hs
  rcases hs with ⟨hzombies, hfree, hlog, hnext, hgone, hfork⟩
  refine ⟨s, hrun, ⟨hzombies, hfree, ?_, polling_of_toFork hfork⟩, ?_,
    Option.isNone_iff_eq_none.1 hgone⟩
  · rw [hlog]
    decide
  · rw [hnext]
    decide

/-- The last step of the child is the step 22. -/
theorem replied_forever_sample : ∃ run, Forever sysStep Sys.init (after repliedRun watchActs) run ∧
    ∃ m, 9 ≤ m ∧ ∃ sent, Replied (childActs (front (after repliedRun watchActs) m) 2) sent ∧
      ∀ k, m ≤ k → sentOn 1 Sys.init (front (after repliedRun watchActs) k) = sent := by
  rcases exec_repliedRun with ⟨s, hfirst, hs⟩
  rcases exists_forever_after hfirst hs parted_next with ⟨run, hrun, hparted, hfront⟩
  refine ⟨run, hrun, replied_forever hrun ?_ ?_ ?_ ?_⟩
  · intro k hdie
    rcases Nat.lt_or_ge k repliedRun.length with hk | hk
    · rw [after_of_lt hk] at hdie
      have hall : ∀ a ∈ repliedRun, a ≠ (2, .die) := by simp [repliedRun, answeredRun, servedRun]
      exact hall _ (List.getElem_mem hk) hdie
    · rw [after_of_le hk, watchActs] at hdie
      split at hdie <;> cases hdie
  · intro k _ pr fd ch act _ _ hact
    exact answerable_repliedRun k hact ch
  · intro k hlive
    by_cases hk : k ≤ 22
    · refine ⟨22, hk, rfl, ?_⟩
      rintro ⟨pr, fd, ch, act, -, -, hact, hidle⟩
      cases hact
      cases hidle
    · have hgone := (hparted (k - 23)).2.2
      have hindex : repliedRun.length + (k - 23) = k := by
        show 23 + (k - 23) = k
        omega
      rw [hindex] at hgone
      exact absurd hgone hlive
  · have hlog : .forked 1 (some (.conn 1)) (some 2) ∈
        ((exec sysStep Sys.init (repliedRun.take 9)).map Sys.log).getD [] := by
      decide
    rw [hfront 9 (by decide)] at hlog
    exact ⟨1, hlog⟩

end CommServer
