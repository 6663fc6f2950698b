import CommServer.Protocol.Forwarder
import CommServer.Service.Isolation
import CommServer.Transition.Refinement

/-!
# Forwarding — the service is a forwarder

Of a state of the service its clients see, for each connection, whether it was accepted, whether some
process still holds it, and what the run has put on it (`view`).  A connection that no process holds has
been hung up.

* `service_refines` : each step of the service is a step of a forwarder on one connection, or is not seen;
* `lines_settled`   : what follows for a client of the service.
-/

namespace CommServer

open CLib Unix Transition Protocol

/-! ## What clients see -/

def Event.accepts (c : Nat) : Event → Bool
  | .accepted _ k => k = c
  | _ => false

/-- Some live process has the connection `c` open. -/
def Sys.held (s : Sys) (c : Nat) : Bool :=
  s.procs.any fun pr => pr.table.holds (.conn c)

/-- The connection `c` after a run. -/
def view (as : List (Pid × Act)) (s : Sys) (c : Nat) : Line :=
  if s.log.any (Event.accepts c) then
    if s.held c then .talking (sentOn c Sys.init as) else .ended (sentOn c Sys.init as)
  else .unknown

section View

variable {as : List (Pid × Act)} {s : Sys} {c : Nat}

theorem accepts_iff {log : List Event} : log.any (Event.accepts c) = true ↔ ∃ p, .accepted p c ∈ log := by
  constructor
  · intro h
    rcases List.any_eq_true.1 h with ⟨e, he, hc⟩
    cases e with
    | accepted p k =>
        have hk : k = c := of_decide_eq_true hc
        exact ⟨p, hk ▸ he⟩
    | _ => cases hc
  · rintro ⟨p, he⟩
    exact List.any_eq_true.2 ⟨_, he, decide_eq_true rfl⟩

theorem sys_held_iff : s.held c = true ↔
    ∃ (p : Pid) (pr : Process) (fd : Fd), s.procs.proc p = some pr ∧ (fd, .conn c) ∈ pr.table.entries := by
  constructor
  · intro h
    rcases Procs.any_iff.1 h with ⟨p, pr, hp, hholds⟩
    rcases FdTable.holds_iff.1 hholds with ⟨fd, hmem⟩
    exact ⟨p, pr, fd, hp, hmem⟩
  · rintro ⟨p, pr, fd, hp, hmem⟩
    exact Procs.any_iff.2 ⟨p, pr, hp, FdTable.holds_iff.2 ⟨fd, hmem⟩⟩

/-- A connection that something was done with was accepted before. -/
theorem Owns.accepted_of_mem_trail (h : Owns s) {e : Event} (he : e ∈ trail s.log c) :
    ∃ p, .accepted p c ∈ s.log := by
  -- Whatever became of it, the acceptance comes first.
  rcases h.settled c with (hnil | ⟨p, r, htrail⟩ | ⟨p, rest, htrail, -, -⟩) | ⟨p, pr, hp, hhand⟩
  · rw [hnil] at he
    cases he
  · exact ⟨p, (mem_of_trail htrail).1⟩
  · exact ⟨p, (mem_of_trail htrail).1⟩
  · rcases trail_of_inHand (h.placed p pr hp) hhand with ⟨rest, htrail, -⟩
    exact ⟨p, (mem_of_trail htrail).1⟩

theorem Owns.accepted_of_served (h : Owns s) {q : Pid} (hq : Served s.log c q) :
    ∃ p, .accepted p c ∈ s.log := by
  rcases hq with ⟨p, he⟩
  exact h.accepted_of_mem_trail (List.mem_filter.2 ⟨he, by simp⟩)

/-- A connection that is open was accepted. -/
theorem Owns.accepted_of_mem (h : Owns s) {p : Pid} {pr : Process} {fd : Fd}
    (hp : s.procs.proc p = some pr) (hmem : (fd, .conn c) ∈ pr.table.entries) :
    ∃ p, .accepted p c ∈ s.log := by
  rcases h.handed hp hmem with hhand | ⟨r, he⟩
  · rcases trail_of_inHand (h.placed p pr hp) hhand with ⟨rest, htrail, -⟩
    exact ⟨p, (mem_of_trail htrail).1⟩
  · exact h.accepted_of_served ⟨r, he⟩

end View

/-! ## Steps -/

section Step

variable {as : List (Pid × Act)} {s : Sys} {p : Pid} {pr : Process} {a : Act} {eff : Effect} {c : Nat}

/-- Only `tcp_accept` opens a connection; `fork` copies what is open. -/
theorem Move.conns (h : Move s p pr a eff) :
    eff.Leaves s p pr fun _ prq => ∀ fd c, (fd, Sock.conn c) ∈ prq.table.entries →
      (fd, Sock.conn c) ∈ pr.table.entries ∨ .accepted p c ∈ eff.events s p := by
  -- A socket that is not a connection does not become one.
  have hset : ∀ fd o fd' c, (∀ k, o ≠ Sock.conn k) → (fd', Sock.conn c) ∈ (pr.table.set fd o).entries →
      (fd', Sock.conn c) ∈ pr.table.entries := by
    intro fd o fd' c ho hmem
    rcases List.mem_map.1 hmem with ⟨e, he, heq⟩
    split at heq
    · injection heq with _ hsock
      exact absurd hsock (ho c)
    · exact heq ▸ he
  cases h with
  | die => trivial
  | forkFails h => trivial
  | configFails h => trivial
  | socketFails h => trivial
  | bindRefused fd h hport => trivial
  | listenRefused fd h hport => trivial
  | childExits fd c a h => trivial
  | forkServer h => exact ⟨fun _ _ => Or.inl, fun _ _ => Or.inl⟩
  | forkProc l fd h => exact ⟨fun _ _ => Or.inl, fun _ _ => Or.inl⟩
  | socket fd h hfree =>
      intro fd' c hmem
      rcases List.mem_cons.1 hmem with heq | hmem
      · cases heq
      · exact Or.inl hmem
  | bind fd h => exact fun fd' c hmem => Or.inl (hset fd _ fd' c (by simp) hmem)
  | listen fd h => exact fun fd' c hmem => Or.inl (hset fd _ fd' c (by simp) hmem)
  | accept l fd h hfree =>
      intro fd' c hmem
      rcases List.mem_cons.1 hmem with heq | hmem
      · cases heq
        exact Or.inr (List.mem_singleton_self _)
      · exact Or.inl hmem
  | close l fd h => exact fun _ _ hmem => Or.inl (FdTable.mem_of_mem_close hmem)
  | childCloses fd c c' a h => exact fun _ _ hmem => Or.inl (FdTable.mem_of_mem_close hmem)
  | _ => exact fun _ _ => Or.inl

/-- A process has one connection at most. -/
theorem Owns.conn_unique (h : Owns s) (hp : s.procs.proc p = some pr) {fd fd' : Fd} {k k' : Nat}
    (hk : (fd, .conn k) ∈ pr.table.entries) (hk' : (fd', .conn k') ∈ pr.table.entries) : k = k' := by
  have hpl := h.placed p pr hp
  cases hloc : Process.loc pr with
  | accepted l fd =>
      rcases placed_accepted hpl hloc with ⟨c, hentries, -, -⟩
      rw [hentries] at hk hk'
      rw [(eq_of_mem_pair hk).2, (eq_of_mem_pair hk').2]
  | forked l fd =>
      rcases placed_forked hpl hloc with ⟨c, r, hentries, -, -⟩
      rw [hentries] at hk hk'
      rw [(eq_of_mem_pair hk).2, (eq_of_mem_pair hk').2]
  | processMain fd ch =>
      simp only [Placed, hloc] at hpl
      rcases hpl with ⟨c, l, hentries | ⟨-, hentries⟩⟩
      · rw [hentries] at hk hk'
        rw [(eq_of_mem_pair hk).2, (eq_of_mem_pair hk').2]
      · simp [hentries] at hk
  | _ =>
      simp only [Placed, hloc] at hpl
      simp [hpl] at hk

theorem held_apply (hp : s.procs.proc p = some pr) (hmove : Move s p pr a eff)
    (h : (s.apply p pr eff).held c = true) : s.held c = true ∨ .accepted p c ∈ eff.events s p := by
  rcases sys_held_iff.1 h with ⟨q, prq, fd, hq, hmem⟩
  have hall : (s.apply p pr eff).All fun _ prq => ∀ fd c, (fd, Sock.conn c) ∈ prq.table.entries →
      s.held c = true ∨ .accepted p c ∈ eff.events s p := by
    refine Sys.all_apply hp ?_ ?_
    · intro r prr _ hr fd c hmem
      exact Or.inl (sys_held_iff.2 ⟨r, prr, fd, hr, hmem⟩)
    · have hconns := hmove.conns
      have hmine : ∀ fd c, (fd, Sock.conn c) ∈ pr.table.entries ∨ .accepted p c ∈ eff.events s p →
          s.held c = true ∨ .accepted p c ∈ eff.events s p := by
        intro fd c hold
        exact hold.imp_left fun hmem => sys_held_iff.2 ⟨p, pr, fd, hp, hmem⟩
      cases eff with
      | goOn pr' events => exact fun fd c hmem => hmine fd c (hconns fd c hmem)
      | fork handed here there =>
          exact ⟨fun fd c hmem => hmine fd c (hconns.1 fd c hmem),
            fun fd c hmem => hmine fd c (hconns.2 fd c hmem)⟩
      | reap z => exact fun fd c hmem => hmine fd c (hconns fd c hmem)
      | exit events => trivial
  exact hall q prq hq fd c hmem

/-- What a process does not hold it cannot let go. -/
theorem held_of_not_mem (hnot : ∀ fd, (fd, .conn c) ∉ pr.table.entries) (h : s.held c = true)
    (hp : s.procs.proc p = some pr) : (s.apply p pr eff).held c = true := by
  rcases sys_held_iff.1 h with ⟨q, prq, fd, hq, hmem⟩
  have hne : q ≠ p := by
    rintro rfl
    have hsame : pr = prq := Option.some.inj (hp.symm.trans hq)
    exact hnot fd (hsame ▸ hmem)
  exact sys_held_iff.2 ⟨q, prq, fd, Sys.live_apply_of_ne pr eff hne hq, hmem⟩

/-- A process that puts something on a connection has it, and keeps it. -/
theorem held_of_puts (hp : s.procs.proc p = some pr) (hcode : codeStep s p pr a = some eff)
    (h : s.puts c (p, a) ≠ []) :
    (∃ fd, (fd, .conn c) ∈ pr.table.entries) ∧ (s.apply p pr eff).held c = true := by
  by_cases hchild : ∃ act, a = .child act
  · rcases hchild with ⟨act, rfl⟩
    rcases childStep_of_codeStep hcode with ⟨fd, ch, ch', hloc, hone, heff⟩
    have hputs : s.puts c (p, .child act) =
        if pr.table.get fd = some (.conn c) then ch'.wire.drop ch.wire.length else [] := by
      simp only [Sys.puts, hp, hloc, hone]
    rw [hputs] at h
    split at h
    case isTrue hget =>
      have hmem := FdTable.mem_of_get hget
      refine ⟨⟨fd, hmem⟩, ?_⟩
      rcases wire_of_childStep hone with hsame | ⟨-, hopen, -⟩
      · rw [hsame, List.drop_length] at h
        exact absurd rfl h
      · cases heff with
        | closes hpc =>
            rw [hpc] at hopen
            cases hopen
        | exits hpc =>
            rw [hpc] at hopen
            cases hopen
        | goesOn hclosed hexited =>
            exact sys_held_iff.2 ⟨p, _, fd, Procs.proc_modify_self hp, hmem⟩
    case isFalse => exact absurd rfl h
  · exact absurd (puts_of_not_child fun act hact => hchild ⟨act, hact⟩) h

/-- A connection that the process does not have, and does not accept, stays as it is. -/
theorem view_of_not_mem (hrun : exec sysStep Sys.init as = some s) (hp : s.procs.proc p = some pr)
    (hcode : codeStep s p pr a = some eff) (hnot : ∀ fd, (fd, .conn c) ∉ pr.table.entries)
    (hnew : ∀ q, .accepted q c ∉ eff.events s p) :
    view (as ++ [(p, a)]) (s.apply p pr eff) c = view as s c := by
  have hstep : sysStep s (p, a) = some (s.apply p pr eff) := sysStep_of_codeStep hp hcode
  have hputs : s.puts c (p, a) = [] := by
    by_contra hne
    rcases (held_of_puts hp hcode hne).1 with ⟨fd, hmem⟩
    exact hnot fd hmem
  have hsent : sentOn c Sys.init (as ++ [(p, a)]) = sentOn c Sys.init as := by
    rw [sentOn_concat hrun hstep, hputs, List.append_nil]
  have hlog : (s.apply p pr eff).log.any (Event.accepts c) = s.log.any (Event.accepts c) := by
    have hnone : ¬ (eff.events s p).any (Event.accepts c) = true := by
      intro hany
      rcases accepts_iff.1 hany with ⟨q, he⟩
      exact hnew q he
    rw [Sys.log_apply, List.any_append, Bool.eq_false_iff.2 hnone, Bool.or_false]
  have hheld : (s.apply p pr eff).held c = s.held c := by
    rw [Bool.eq_iff_iff]
    constructor
    · intro h
      exact (held_apply hp (move_of_codeStep hcode) h).resolve_right (hnew p)
    · intro h
      exact held_of_not_mem hnot h hp
  rw [view, view, hlog, hheld, hsent]

end Step

/-! ## The refinement -/

/-- A step on a connection that the process has. -/
theorem line_step_of_mem {as : List (Pid × Act)} {s : Sys} {p : Pid} {pr : Process} {a : Act}
    {eff : Effect} {c : Nat} {fd : Fd} (hrun : exec sysStep Sys.init as = some s)
    (hp : s.procs.proc p = some pr) (hcode : codeStep s p pr a = some eff)
    (hmem : (fd, .conn c) ∈ pr.table.entries) :
    Line.Step (view as s c) (view (as ++ [(p, a)]) (s.apply p pr eff) c) := by
  have hown := owns_exec hrun
  have hstep : sysStep s (p, a) = some (s.apply p pr eff) := sysStep_of_codeStep hp hcode
  have hbefore : view as s c = .talking (sentOn c Sys.init as) := by
    have haccepted := accepts_iff.2 (hown.accepted_of_mem hp hmem)
    have hheld : s.held c = true := sys_held_iff.2 ⟨p, pr, fd, hp, hmem⟩
    simp only [view, haccepted, hheld, if_true]
  have haccepted : (s.apply p pr eff).log.any (Event.accepts c) = true := by
    rw [Sys.log_apply, List.any_append, accepts_iff.2 (hown.accepted_of_mem hp hmem), Bool.true_or]
  rw [hbefore]
  by_cases hheld : (s.apply p pr eff).held c = true
  · have hafter : view (as ++ [(p, a)]) (s.apply p pr eff) c =
        .talking (sentOn c Sys.init as ++ s.puts c (p, a)) := by
      simp only [view, haccepted, hheld, if_true, sentOn_concat hrun hstep]
    rw [hafter]
    exact .put _ _
  · -- Whoever puts something on a connection keeps it.
    have hputs : s.puts c (p, a) = [] := by
      by_contra hne
      exact hheld (held_of_puts hp hcode hne).2
    have hafter : view (as ++ [(p, a)]) (s.apply p pr eff) c = .ended (sentOn c Sys.init as) := by
      simp only [view, haccepted, hheld, if_true, sentOn_concat hrun hstep, hputs, List.append_nil]
      rfl
    rw [hafter]
    exact .hangUp _

/-- The acceptance of a connection. -/
theorem line_step_of_accepted {as : List (Pid × Act)} {s : Sys} {p q : Pid} {pr : Process} {a : Act}
    {eff : Effect} {c : Nat} (hrun : exec sysStep Sys.init as = some s)
    (hp : s.procs.proc p = some pr) (hcode : codeStep s p pr a = some eff)
    (he : .accepted q c ∈ eff.events s p) :
    Line.Step (view as s c) (view (as ++ [(p, a)]) (s.apply p pr eff) c) ∧
      ∀ k, k ≠ c → (∀ r, .accepted r k ∉ eff.events s p) ∧ ∀ fd, (fd, .conn k) ∉ pr.table.entries := by
  have hown := owns_exec hrun
  have hstep : sysStep s (p, a) = some (s.apply p pr eff) := sysStep_of_codeStep hp hcode
  cases move_of_codeStep hcode with
  | accept l fd hloc hfree =>
      cases List.mem_singleton.1 he
      have hpl := hown.placed p pr hp
      have hentries : pr.table.entries = [(l, .listening pr.port)] := by
        simpa only [Placed, hloc] using hpl
      have hnone : ∀ q, .accepted q s.log.length ∉ s.log := by
        intro q hq
        exact Nat.lt_irrefl _ (hown.past _ hq _ rfl)
      have hserved : ∀ q, ¬ Served s.log s.log.length q := by
        rintro q ⟨r, hr⟩
        exact Nat.lt_irrefl _ (hown.past _ hr _ (by simp))
      have hbefore : view as s s.log.length = .unknown := by
        have hnot : ¬ s.log.any (Event.accepts s.log.length) = true := by
          intro hany
          rcases accepts_iff.1 hany with ⟨q, hq⟩
          exact hnone q hq
        simp only [view, hnot]
        rfl
      refine ⟨?_, ?_⟩
      · have haccepted : (s.log ++ [Event.accepted p s.log.length]).any (Event.accepts s.log.length) =
            true := accepts_iff.2 ⟨p, by simp⟩
        have hheld : (s.apply p pr (.goOn
            ((pr.withTable (pr.table.insert fd (.conn s.log.length) hfree)).goto (.accepted l fd))
            [.accepted p s.log.length])).held s.log.length = true :=
          sys_held_iff.2 ⟨p, _, fd, Procs.proc_modify_self hp, List.mem_cons_self⟩
        have hsent : sentOn s.log.length Sys.init (as ++ [(p, .accept (some fd))]) = [] := by
          rw [sentOn_concat hrun hstep, (isolation hrun).silent _ hserved]
          rfl
        rw [hbefore]
        simp only [view, Sys.log_apply, Effect.events, haccepted, hheld, hsent, if_true]
        exact .accept
      · intro k hk
        constructor
        · intro r hr
          cases List.mem_singleton.1 hr
          exact hk rfl
        · intro fd' hmem
          rw [hentries] at hmem
          cases List.mem_singleton.1 hmem
  | _ => simp [Effect.events] at he

/-- What the service does is what a forwarder does. -/
theorem service_refines : Refines sysStep Sys.init view Forwarder.Step := by
  rintro as s ⟨p, a⟩ s' hrun hstep
  rcases codeStep_of_sysStep hstep with ⟨pr, eff, hp, hcode, rfl⟩
  by_cases hnew : ∃ q c, .accepted q c ∈ eff.events s p
  · rcases hnew with ⟨q, c, he⟩
    rcases line_step_of_accepted hrun hp hcode he with ⟨hline, hothers⟩
    refine .single ⟨c, hline, fun k hk => ?_⟩
    exact view_of_not_mem hrun hp hcode (hothers k hk).2 (hothers k hk).1
  · have hnone : ∀ c q, .accepted q c ∉ eff.events s p := fun c q he => hnew ⟨q, c, he⟩
    by_cases hconn : ∃ c fd, (fd, .conn c) ∈ pr.table.entries
    · rcases hconn with ⟨c, fd, hmem⟩
      refine .single ⟨c, line_step_of_mem hrun hp hcode hmem, fun k hk => ?_⟩
      refine view_of_not_mem hrun hp hcode (fun fd' hmem' => ?_) (hnone k)
      exact hk ((owns_exec hrun).conn_unique hp hmem' hmem)
    · -- It has no connection, and nothing is seen of its step.
      have hsame : view (as ++ [(p, a)]) (s.apply p pr eff) = view as s := by
        funext c
        exact view_of_not_mem hrun hp hcode (fun fd hmem => hconn ⟨c, fd, hmem⟩) (hnone c)
      rw [hsame]

/-- What stands on a connection is not taken back, and a connection that was hung up stays so: nothing is
put on it any more, and nobody accepts it again. -/
theorem lines_settled {as bs : List (Pid × Act)} {s t : Sys} (hs : exec sysStep Sys.init as = some s)
    (ht : exec sysStep s bs = some t) (c : Nat) :
    (view as s c).sent <+: (view (as ++ bs) t c).sent ∧
      ∀ w, view as s c = .ended w → view (as ++ bs) t c = .ended w := by
  constructor
  · exact service_refines.invariant (P := fun f => (view as s c).sent <+: (f c).sent)
      (fun _ _ hf hstep => hstep.grows hf) hs ht (List.prefix_refl _)
  · intro w hw
    exact service_refines.invariant (P := fun f => f c = .ended w)
      (fun _ _ hf hstep => hstep.ended hf) hs ht hw

/-- The child of `servedRun` is killed when its server has closed the connection, and the server goes
on. -/
theorem lines_settled_sample :
    ∃ s t, exec sysStep Sys.init (servedRun ++ [(2, .die)]) = some s ∧
      exec sysStep s [(1, .select 1), (1, .accept (some 4))] = some t ∧
      view (servedRun ++ [(2, .die)] ++ [(1, .select 1), (1, .accept (some 4))]) t 1 = .ended [] := by
  obtain ⟨s, hs⟩ : ∃ s, some s = exec sysStep Sys.init (servedRun ++ [(2, .die)]) := ⟨_, rfl⟩
  obtain ⟨t, ht⟩ : ∃ t, some t = (exec sysStep Sys.init (servedRun ++ [(2, .die)])).bind
      (exec sysStep · [(1, .select 1), (1, .accept (some 4))]) := ⟨_, rfl⟩
  rw [← hs, Option.bind_some] at ht
  have hview : (exec sysStep Sys.init (servedRun ++ [(2, .die)])).map
      (view (servedRun ++ [(2, .die)]) · 1) = some (.ended []) := rfl
  rw [← hs] at hview
  exact ⟨s, t, hs.symm, ht.symm, (lines_settled hs.symm ht.symm 1).2 [] (Option.some.inj hview)⟩

end CommServer
