import CommServer.Service.Lineage

/-!
# Ownership — descriptors, connections and the children they are handed to

* `Placed`  : what a process holds open, and what has happened to the connection in its hand;
* `Born`    : by which `fork` a process was made, and which connection it was handed;
* `Settled` : every connection is in the hand of a server, or its iteration is over;
* `Owns`, `owns_step` : the invariant of which these are the parts, and its step lemma;
* `ownership` : what follows for every run.
-/

namespace CommServer

open Unix Transition

/-! ## Reading the history -/

namespace Event

/-- The child that a `fork` made. -/
def child : Event → Option Pid
  | .forked _ _ r => r
  | _ => none

/-- The connection that the server does something with. -/
def conn : Event → Option Nat
  | .accepted _ c => some c
  | .forked _ (some (.conn c)) _ => some c
  | .closed _ (some (.conn c)) => some c
  | .died _ (some (.conn c)) => some c
  | _ => none

@[simp] theorem conn_forked {p : Pid} {o : Option Sock} {r : Option Pid} {c : Nat} :
    (Event.forked p o r).conn = some c ↔ o = some (.conn c) := by
  cases o with
  | none => simp [conn]
  | some o => cases o <;> simp [conn]

@[simp] theorem conn_closed {p : Pid} {o : Option Sock} {c : Nat} :
    (Event.closed p o).conn = some c ↔ o = some (.conn c) := by
  cases o with
  | none => simp [conn]
  | some o => cases o <;> simp [conn]

@[simp] theorem conn_died {p : Pid} {o : Option Sock} {c : Nat} :
    (Event.died p o).conn = some c ↔ o = some (.conn c) := by
  cases o with
  | none => simp [conn]
  | some o => cases o <;> simp [conn]

end Event

/-- The forks that made `p`. -/
def births (log : List Event) (p : Pid) : List Event :=
  log.filter fun e => e.child = some p

/-- What servers have done with the connection `c`. -/
def trail (log : List Event) (c : Nat) : List Event :=
  log.filter fun e => e.conn = some c

theorem births_append_of_ne {log new : List Event} {p : Pid} (h : ∀ e ∈ new, e.child ≠ some p) :
    births (log ++ new) p = births log p := by
  have hnew : new.filter (fun e => e.child = some p) = [] := by
    simpa [List.filter_eq_nil_iff] using h
  rw [births, List.filter_append, hnew, List.append_nil]
  rfl

theorem trail_append_of_ne {log new : List Event} {c : Nat} (h : ∀ e ∈ new, e.conn ≠ some c) :
    trail (log ++ new) c = trail log c := by
  have hnew : new.filter (fun e => e.conn = some c) = [] := by
    simpa [List.filter_eq_nil_iff] using h
  rw [trail, List.filter_append, hnew, List.append_nil]
  rfl

theorem trail_append_self {log : List Event} {c : Nat} {e : Event} (h : e.conn = some c) :
    trail (log ++ [e]) c = trail log c ++ [e] := by
  simp [trail, List.filter_append, h]

theorem mem_of_trail {log : List Event} {c : Nat} {e : Event} {rest : List Event}
    (h : trail log c = e :: rest) : e ∈ log ∧ e.conn = some c := by
  have hmem : e ∈ trail log c := by simp [h]
  simpa [trail] using hmem

/-! ## The invariant -/

/-- What a process holds open where it is, and what has been done with the connection in its hand. -/
def Placed (log : List Event) (p : Pid) (pr : Process) : Prop :=
  match pr.loc with
  | .started | .polling | .reaped | .sleeping | .doProcess | .configured => pr.table.entries = []
  | .socketMade fd => pr.table.entries = [(fd, .stream)]
  | .bound fd => pr.table.entries = [(fd, .bound pr.port)]
  | .loopHead l | .selected l => pr.table.entries = [(l, .listening pr.port)]
  | .accepted l fd =>
      ∃ c, pr.table.entries = [(fd, .conn c), (l, .listening pr.port)] ∧
        trail log c = [.accepted p c]
  | .forked l fd =>
      ∃ c r, pr.table.entries = [(fd, .conn c), (l, .listening pr.port)] ∧
        trail log c = [.accepted p c, .forked p (some (.conn c)) r]
  -- A child keeps the listening socket that it inherited.
  | .processMain fd _ =>
      ∃ c l, pr.table.entries = [(fd, .conn c), (l, .listening pr.port)] ∨
        (l ≠ fd ∧ pr.table.entries = [(l, .listening pr.port)])

/-- By which `fork` a process was made, and which connection it was handed. -/
def Born (log : List Event) (p : Pid) (pr : Process) : Prop :=
  match pr.role with
  | .supervisor => births log p = []
  | .server => births log p = [.forked 0 none (some p)]
  | .child =>
      ∃ q c, births log p = [.forked q (some (.conn c)) (some p)] ∧
        ∀ fd k, (fd, .conn k) ∈ pr.table.entries → k = c

/-- Some live server has the connection `c` in its hand. -/
def Sys.Handles (s : Sys) (c : Nat) : Prop :=
  ∃ (p : Pid) (pr : Process), s.procs.proc p = some pr ∧ pr.inHand = some (.conn c)

/-- The connection `c` was never accepted, or its iteration is over. -/
def Over (log : List Event) (c : Nat) : Prop :=
  trail log c = [] ∨
    (∃ p r, trail log c =
      [.accepted p c, .forked p (some (.conn c)) r, .closed p (some (.conn c))]) ∨
    ∃ p rest, trail log c = .accepted p c :: rest ∧ (∀ q, .accepted q c ∉ rest) ∧
      .died p (some (.conn c)) ∈ rest

structure Owns (s : Sys) : Prop where
  lineage : Lineage s
  placed : s.All (Placed s.log)
  born : s.All (Born s.log)
  settled : ∀ c, Over s.log c ∨ s.Handles c
  /-- Process numbers in the history have been given away, -/
  known : ∀ e ∈ s.log, ∀ p, e.child = some p → p < s.procs.next
  /-- and so have the numbers of connections. -/
  past : ∀ e ∈ s.log, ∀ c, e.conn = some c → c < s.log.length

/-! ## What a move does to the connections -/

section Move

variable {s : Sys} {p : Pid} {pr : Process} {a : Act} {eff : Effect}

/-- Only servers have a connection in hand. -/
theorem role_of_inHand {o : Sock} (h : pr.inHand = some o) : pr.role = .server := by
  unfold Process.inHand at h
  split at h
  case h_1 hloc => simp [Process.role, hloc, Loc.role]
  case h_2 hloc => simp [Process.role, hloc, Loc.role]
  case h_3 => cases h

theorem inHand_of_accepted {l fd : Fd} (h : pr.loc = .accepted l fd) :
    pr.inHand = pr.table.get fd := by
  simp [Process.inHand, h]

theorem inHand_of_forked {l fd : Fd} (h : pr.loc = .forked l fd) :
    pr.inHand = pr.table.get fd := by
  simp [Process.inHand, h]

/-- A step that does something with a connection accepts it or has it in hand. -/
theorem Move.conn_events (h : Move s p pr a eff) {e : Event} (he : e ∈ eff.events s p) {c : Nat}
    (hc : e.conn = some c) :
    (c = s.log.length ∧ pr.role = .server) ∨ pr.inHand = some (.conn c) := by
  cases h with
  | die =>
      right
      simpa [List.mem_singleton.1 he] using hc
  -- A new connection has a number that the history does not know.
  | accept l fd h hfree =>
      left
      have hlast : s.log.length = c := by simpa [List.mem_singleton.1 he, Event.conn] using hc
      exact ⟨hlast.symm, congrArg Loc.role h⟩
  | forkProcFails l fd h =>
      right
      rw [inHand_of_accepted h]
      simpa [List.mem_singleton.1 he] using hc
  | forkProc l fd h =>
      right
      rw [inHand_of_accepted h]
      simpa [List.mem_singleton.1 he] using hc
  | close l fd h =>
      right
      rw [inHand_of_forked h]
      simpa [List.mem_singleton.1 he] using hc
  | forkServer h => simp [List.mem_singleton.1 he] at hc
  | bindRefused fd h hport => simp [List.mem_singleton.1 he, Event.conn] at hc
  | listenRefused fd h hport => simp [List.mem_singleton.1 he, Event.conn] at hc
  | childCloses fd c c' a h => simp [List.mem_singleton.1 he, Event.conn] at hc
  | _ => cases he

/-- The step of a server that has a connection in its hand does something with it. -/
theorem Move.events_of_inHand (h : Move s p pr a eff) {c : Nat} (hc : pr.inHand = some (.conn c)) :
    ∃ e ∈ eff.events s p, e.conn = some c := by
  cases h with
  | die => exact ⟨_, List.mem_singleton_self _, by simp [hc]⟩
  | forkProcFails l fd h =>
      rw [inHand_of_accepted h] at hc
      exact ⟨_, List.mem_singleton_self _, by simp [hc]⟩
  | forkProc l fd h =>
      rw [inHand_of_accepted h] at hc
      exact ⟨_, List.mem_singleton_self _, by simp [hc]⟩
  | close l fd h =>
      rw [inHand_of_forked h] at hc
      exact ⟨_, List.mem_singleton_self _, by simp [hc]⟩
  | forkFails h => rcases h with h | h <;> simp [Process.inHand, h] at hc
  | forkServer h => rcases h with h | h <;> simp [Process.inHand, h] at hc
  | _ => simp [Process.inHand, *] at hc

/-- Only a `fork` makes a process. -/
theorem Move.child_events (h : Move s p pr a eff) {e : Event} (he : e ∈ eff.events s p) {q : Pid}
    (hq : e.child = some q) : q = s.procs.next ∧ ∃ handed here there, eff = .fork handed here there := by
  cases eff with
  | fork handed here there =>
      have hnext : s.procs.next = q := by simpa [List.mem_singleton.1 he, Event.child] using hq
      exact ⟨hnext.symm, handed, here, there, rfl⟩
  | goOn pr' events =>
      cases h with
      | accept l fd h hfree => simp [List.mem_singleton.1 he, Event.child] at hq
      | forkProcFails l fd h => simp [List.mem_singleton.1 he, Event.child] at hq
      | close l fd h => simp [List.mem_singleton.1 he, Event.child] at hq
      | childCloses fd c c' a h => simp [List.mem_singleton.1 he, Event.child] at hq
      | _ => cases he
  | reap z => cases he
  | exit events =>
      cases h with
      | die => simp [List.mem_singleton.1 he, Event.child] at hq
      | bindRefused fd h hport => simp [List.mem_singleton.1 he, Event.child] at hq
      | listenRefused fd h hport => simp [List.mem_singleton.1 he, Event.child] at hq
      | _ => cases he

end Move

/-! ## Steps -/

section Step

variable {s : Sys} {p : Pid} {pr : Process} {a : Act} {eff : Effect}

/-- What other processes do with connections does not concern a process. -/
theorem placed_append {log new : List Event} {q : Pid} {prq : Process} (h : Placed log q prq)
    (hnew : prq.role = .server → ∀ e ∈ new, e.conn = none) : Placed (log ++ new) q prq := by
  cases hloc : prq.loc with
  | accepted l fd =>
      simp only [Placed, hloc] at h ⊢
      rcases h with ⟨c, hentries, htrail⟩
      refine ⟨c, hentries, ?_⟩
      rw [trail_append_of_ne, htrail]
      intro e he
      simp [hnew (congrArg Loc.role hloc) e he]
  | forked l fd =>
      simp only [Placed, hloc] at h ⊢
      rcases h with ⟨c, r, hentries, htrail⟩
      refine ⟨c, r, hentries, ?_⟩
      rw [trail_append_of_ne, htrail]
      intro e he
      simp [hnew (congrArg Loc.role hloc) e he]
  | _ => simpa only [Placed, hloc] using h

/-- The one connection of a process that has one. -/
theorem eq_of_mem_pair {fd fd' l : Fd} {c k : Nat} {port : UInt16}
    (h : (fd', Sock.conn k) ∈ [(fd, Sock.conn c), (l, .listening port)]) : fd' = fd ∧ k = c := by
  rcases List.mem_cons.1 h with heq | hmem
  · injection heq with hfd hsock
    injection hsock with hc
    exact ⟨hfd, hc⟩
  · cases List.mem_singleton.1 hmem

/-- A server that has accepted a connection has it in hand. -/
theorem placed_accepted {log : List Event} {l fd : Fd} (h : Placed log p pr)
    (hloc : pr.loc = .accepted l fd) :
    ∃ c, pr.table.entries = [(fd, .conn c), (l, .listening pr.port)] ∧
      pr.table.get fd = some (.conn c) ∧ trail log c = [.accepted p c] := by
  simp only [Placed, hloc] at h
  rcases h with ⟨c, hentries, htrail⟩
  exact ⟨c, hentries, FdTable.get_of_entries hentries, htrail⟩

theorem placed_forked {log : List Event} {l fd : Fd} (h : Placed log p pr)
    (hloc : pr.loc = .forked l fd) :
    ∃ c r, pr.table.entries = [(fd, .conn c), (l, .listening pr.port)] ∧
      pr.table.get fd = some (.conn c) ∧
      trail log c = [.accepted p c, .forked p (some (.conn c)) r] := by
  simp only [Placed, hloc] at h
  rcases h with ⟨c, r, hentries, htrail⟩
  exact ⟨c, r, hentries, FdTable.get_of_entries hentries, htrail⟩

/-- Before its acceptance nothing is done with a connection. -/
theorem trail_new (hpast : ∀ e ∈ s.log, ∀ c, e.conn = some c → c < s.log.length) :
    trail s.log s.log.length = [] := by
  apply List.filter_eq_nil_iff.2
  intro e he hc
  exact Nat.lt_irrefl _ (hpast e he _ (of_decide_eq_true hc))

/-- A process that moves is in its new place as it should be. -/
theorem Move.placed (h : Move s p pr a eff) (hpl : Placed s.log p pr)
    (hpast : ∀ e ∈ s.log, ∀ c, e.conn = some c → c < s.log.length) :
    eff.Leaves s p pr (Placed (s.log ++ eff.events s p)) := by
  cases h with
  | forkServer h =>
      have hempty : pr.table.entries = [] := by
        rcases h with h | h <;> simpa only [Placed, h] using hpl
      exact ⟨hempty, hempty⟩
  | nobodyDead h =>
      have hempty : pr.table.entries = [] := by simpa only [Placed, h] using hpl
      exact hempty
  | reap q h hq =>
      have hempty : pr.table.entries = [] := by simpa only [Placed, h] using hpl
      exact hempty
  | wake h =>
      have hempty : pr.table.entries = [] := by simpa only [Placed, h] using hpl
      exact hempty
  | config svr h =>
      have hempty : pr.table.entries = [] := by simpa only [Placed, h] using hpl
      exact hempty
  | socket fd h hfree =>
      have hempty : pr.table.entries = [] := by simpa only [Placed, h] using hpl
      show (fd, Sock.stream) :: pr.table.entries = [(fd, .stream)]
      rw [hempty]
  | bind fd h =>
      have hone : pr.table.entries = [(fd, .stream)] := by simpa only [Placed, h] using hpl
      exact FdTable.entries_set_of_singleton hone _
  | listen fd h =>
      have hone : pr.table.entries = [(fd, .bound pr.port)] := by simpa only [Placed, h] using hpl
      exact FdTable.entries_set_of_singleton hone _
  | idle rets l h =>
      have hone : pr.table.entries = [(l, .listening pr.port)] := by
        simpa only [Placed, h] using hpl
      exact hone
  | select rets l h =>
      have hone : pr.table.entries = [(l, .listening pr.port)] := by
        simpa only [Placed, h] using hpl
      exact hone
  | acceptFails l h =>
      have hone : pr.table.entries = [(l, .listening pr.port)] := by
        simpa only [Placed, h] using hpl
      exact hone
  | accept l fd h hfree =>
      have hone : pr.table.entries = [(l, .listening pr.port)] := by
        simpa only [Placed, h] using hpl
      refine ⟨s.log.length, ?_, ?_⟩
      · show (fd, Sock.conn s.log.length) :: pr.table.entries = _
        rw [hone]
        rfl
      · show trail (s.log ++ [_]) _ = _
        rw [trail_append_self rfl, trail_new hpast]
        rfl
  | forkProcFails l fd h =>
      rcases placed_accepted hpl h with ⟨c, hentries, hget, htrail⟩
      refine ⟨c, none, hentries, ?_⟩
      show trail (s.log ++ [_]) _ = _
      rw [trail_append_self (by simp [hget]), htrail, hget]
      rfl
  | forkProc l fd h =>
      rcases placed_accepted hpl h with ⟨c, hentries, hget, htrail⟩
      constructor
      · refine ⟨c, some s.procs.next, hentries, ?_⟩
        show trail (s.log ++ [_]) _ = _
        rw [trail_append_self (by simp [hget]), htrail, hget]
        rfl
      · exact ⟨c, l, Or.inl hentries⟩
  -- Only the listening socket is left.
  | close l fd h =>
      rcases placed_forked hpl h with ⟨c, r, hentries, -, -⟩
      exact FdTable.entries_close_of_entries hentries
  | child fd c c' a h =>
      have hheld := hpl
      simp only [Placed, h] at hheld
      exact hheld
  | childCloses fd c c' a h =>
      have hheld := hpl
      simp only [Placed, h] at hheld
      rcases hheld with ⟨k, l, hentries | ⟨hne, hentries⟩⟩
      · -- The first close gives the connection back, and the listening socket stays.
        have hne : l ≠ fd := by
          have hout := FdTable.not_mem_of_entries hentries
          exact fun heq => hout (by simp [heq])
        exact ⟨k, l, Or.inr ⟨hne, FdTable.entries_close_of_entries hentries⟩⟩
      · have hout : fd ∉ pr.table.fds := by
          simp [FdTable.fds, hentries, hne.symm]
        exact ⟨k, l, Or.inr ⟨hne, (FdTable.entries_close_of_not_mem hout).trans hentries⟩⟩
  | _ => trivial

/-- A step adds nothing to the birth of a process that lives already. -/
theorem Move.births (h : Move s p pr a eff) {q : Pid} (hq : q ≠ s.procs.next) :
    births (s.log ++ eff.events s p) q = births s.log q :=
  births_append_of_ne fun _ he hc => hq (h.child_events he hc).1

theorem births_new (hknown : ∀ e ∈ s.log, ∀ q, e.child = some q → q < s.procs.next)
    {e : Event} (he : e.child = some s.procs.next) :
    CommServer.births (s.log ++ [e]) s.procs.next = [e] := by
  have hnone : CommServer.births s.log s.procs.next = [] := by
    apply List.filter_eq_nil_iff.2
    intro e he hc
    exact Nat.lt_irrefl _ (hknown e he _ (of_decide_eq_true hc))
  calc
    CommServer.births (s.log ++ [e]) s.procs.next
        = CommServer.births s.log s.procs.next ++ [e].filter fun e => e.child = some s.procs.next :=
          List.filter_append _ _
    _ = [e] := by simp [hnone, he]

/-- A child gets no new descriptors. -/
theorem Move.child_table {pr' : Process} {events : List Event}
    (h : Move s p pr a (.goOn pr' events)) (hrole : pr.role = .child) :
    ∀ e ∈ pr'.table.entries, e ∈ pr.table.entries := by
  cases h with
  | child fd c c' a h => exact fun e he => he
  | childCloses fd c c' a h => exact fun e he => FdTable.mem_of_mem_close he
  | _ => simp [Process.role, Loc.role, *] at hrole

/-- A process keeps its birth as long as it keeps its role, and a child its one connection. -/
theorem Born.keeps {log log' : List Event} {pr' : Process} (h : Born log p pr)
    (hbirths : births log' p = births log p) (hrole : pr'.role = pr.role)
    (htable : pr.role = .child → ∀ e ∈ pr'.table.entries, e ∈ pr.table.entries) :
    Born log' p pr' := by
  unfold Born at h ⊢
  rw [hrole, hbirths]
  cases hpr : pr.role with
  | supervisor => simpa only [hpr] using h
  | server => simpa only [hpr] using h
  | child =>
      simp only [hpr] at h
      rcases h with ⟨q, c, hborn, hheld⟩
      exact ⟨q, c, hborn, fun fd k hk => hheld fd k (htable hpr _ hk)⟩

theorem Move.born (h : Move s p pr a eff) (hown : Owns s) (hp : s.procs.proc p = some pr) :
    eff.Leaves s p pr (Born (s.log ++ eff.events s p)) := by
  have hself := hown.born p pr hp
  have hbirths := h.births (Procs.ne_next hp)
  have hrole := h.keepsRole
  cases eff with
  | goOn pr' events => exact hself.keeps hbirths hrole.1 h.child_table
  | reap z =>
      have hsame : (pr.goto .reaped).role = pr.role := (congrArg Loc.role hrole.1).symm
      exact hself.keeps hbirths hsame (fun _ e he => he)
  | exit events => trivial
  | fork handed here there =>
      refine ⟨hself.keeps hbirths hrole.1 (fun _ e he => he), ?_⟩
      cases h with
      | forkServer h =>
          have hforking : pr.loc.forking = true := by
            rcases h with h | h <;> simp [h, Loc.forking]
          -- Only the supervisor forks servers.
          have hzero : p = 0 := (hown.lineage.supervisor p pr hp).1 (Loc.role_of_forking hforking)
          subst hzero
          exact births_new hown.known rfl
      | forkProc l fd h =>
          rcases placed_accepted (hown.placed p pr hp) h with ⟨c, hentries, hget, -⟩
          refine ⟨p, c, ?_, ?_⟩
          · rw [← hget]
            exact births_new hown.known rfl
          · intro fd' k hk
            -- The child has the descriptors of the server, and so its one connection.
            have hmem : (fd', Sock.conn k) ∈ pr.table.entries := hk
            rw [hentries] at hmem
            exact (eq_of_mem_pair hmem).2

/-- A connection that the step has nothing to do with. -/
theorem Move.settled_of_ne (h : Move s p pr a eff) (hp : s.procs.proc p = some pr) {c : Nat}
    (hc : ∀ e ∈ eff.events s p, e.conn ≠ some c) (hsettled : Over s.log c ∨ s.Handles c) :
    Over (s.log ++ eff.events s p) c ∨ (s.apply p pr eff).Handles c := by
  rcases hsettled with hover | ⟨q, prq, hq, hhand⟩
  · left
    unfold Over
    rw [trail_append_of_ne hc]
    exact hover
  · right
    have hne : q ≠ p := by
      rintro rfl
      have hsame : pr = prq := Option.some.inj (hp.symm.trans hq)
      rcases h.events_of_inHand (hsame ▸ hhand) with ⟨e, he, hec⟩
      exact hc e he hec
    exact ⟨q, prq, Sys.live_apply_of_ne pr eff hne hq, hhand⟩

/-- A connection in hand has been accepted, and perhaps forked for, by the process that has it. -/
theorem trail_of_inHand {log : List Event} (h : Placed log p pr) {c : Nat}
    (hc : pr.inHand = some (.conn c)) :
    ∃ rest, trail log c = .accepted p c :: rest ∧ ∀ q, .accepted q c ∉ rest := by
  cases hloc : pr.loc with
  | accepted l fd =>
      rcases placed_accepted h hloc with ⟨k, -, hget, htrail⟩
      have hk : k = c := by simpa [inHand_of_accepted hloc, hget] using hc
      subst hk
      exact ⟨[], htrail, by simp⟩
  | forked l fd =>
      rcases placed_forked h hloc with ⟨k, r, -, hget, htrail⟩
      have hk : k = c := by simpa [inHand_of_forked hloc, hget] using hc
      subst hk
      exact ⟨_, htrail, by simp⟩
  | _ => simp [Process.inHand, hloc] at hc

/-- A connection that the step does something with: it stays in hand, or its iteration ends. -/
theorem Move.settled_of_event (h : Move s p pr a eff) (hown : Owns s)
    (hp : s.procs.proc p = some pr) {e : Event} (he : e ∈ eff.events s p) {c : Nat}
    (hc : e.conn = some c) :
    Over (s.log ++ eff.events s p) c ∨ (s.apply p pr eff).Handles c := by
  have hpl := hown.placed p pr hp
  cases h with
  -- The connection is closed with its server, and its iteration never ends.
  | die =>
      have hhand : pr.inHand = some (.conn c) := by simpa [List.mem_singleton.1 he] using hc
      rcases trail_of_inHand hpl hhand with ⟨rest, htrail, hrest⟩
      left
      right
      right
      refine ⟨p, rest ++ [.died p (some (.conn c))], ?_, by simpa using hrest, by simp⟩
      show trail (s.log ++ [_]) _ = _
      rw [trail_append_self (by simp [hhand]), htrail, hhand]
      rfl
  | accept l fd h hfree =>
      have hlast : s.log.length = c := by simpa [List.mem_singleton.1 he, Event.conn] using hc
      right
      refine ⟨p, _, Procs.proc_modify_self hp, ?_⟩
      rw [inHand_of_accepted rfl, ← hlast]
      exact FdTable.get_of_entries rfl
  -- Whether `fork` succeeds or not, the server still has the connection.
  | forkProcFails l fd h =>
      have hget : pr.table.get fd = some (.conn c) := by simpa [List.mem_singleton.1 he] using hc
      right
      refine ⟨p, _, Procs.proc_modify_self hp, ?_⟩
      rw [inHand_of_forked rfl]
      exact hget
  | forkProc l fd h =>
      have hget : pr.table.get fd = some (.conn c) := by simpa [List.mem_singleton.1 he] using hc
      have hp' : (s.procs.fork p pr { pr.state with loc := .processMain fd Child.init }).proc p =
          some pr := (Procs.proc_fork_of_ne (Procs.ne_next hp)).trans hp
      right
      refine ⟨p, _, Procs.proc_modify_self hp', ?_⟩
      rw [inHand_of_forked rfl]
      exact hget
  -- `sock_close` ends the iteration.
  | close l fd h =>
      have hget : pr.table.get fd = some (.conn c) := by simpa [List.mem_singleton.1 he] using hc
      rcases placed_forked hpl h with ⟨k, r, -, hget', htrail⟩
      have hk : k = c := by simpa [hget'] using hget
      subst hk
      left
      right
      left
      refine ⟨p, r, ?_⟩
      show trail (s.log ++ [_]) _ = _
      rw [trail_append_self (by simp [hget]), htrail, hget]
      rfl
  | forkServer h => simp [List.mem_singleton.1 he] at hc
  | bindRefused fd h hport => simp [List.mem_singleton.1 he, Event.conn] at hc
  | listenRefused fd h hport => simp [List.mem_singleton.1 he, Event.conn] at hc
  | childCloses fd c c' a h => simp [List.mem_singleton.1 he, Event.conn] at hc
  | _ => cases he

theorem owns_step {s' : Sys} {a : Pid × Act} (h : Owns s) (hstep : sysStep s a = some s') :
    Owns s' := by
  have hlineage := lineage_step h.lineage hstep
  rcases a with ⟨p, act⟩
  rcases sysStep_cases hstep with ⟨pr, eff, hp, hmove, rfl⟩
  constructor
  · exact hlineage
  · -- The connections are in one server's hand, and no other server has a step to do.
    rw [Sys.log_apply]
    refine Sys.all_apply hp ?_ (hmove.placed (h.placed p pr hp) h.past)
    intro q prq hne hq
    refine placed_append (h.placed q prq hq) ?_
    intro hserver e he
    by_contra hsome
    rcases Option.ne_none_iff_exists'.1 hsome with ⟨c, hc⟩
    have hrole : pr.role = .server := by
      rcases hmove.conn_events he hc with ⟨-, hrole⟩ | hhand
      · exact hrole
      · exact role_of_inHand hhand
    exact hne (h.lineage.unique q p ⟨prq, hq, hserver⟩ ⟨pr, hp, hrole⟩)
  · rw [Sys.log_apply]
    refine Sys.all_apply hp ?_ (hmove.born h hp)
    intro q prq _ hq
    exact (h.born q prq hq).keeps (hmove.births (Procs.ne_next hq)) rfl (fun _ e he => he)
  · intro c
    rw [Sys.log_apply]
    by_cases hc : ∃ e ∈ eff.events s p, e.conn = some c
    · rcases hc with ⟨e, he, hec⟩
      exact hmove.settled_of_event h hp he hec
    · have hnone : ∀ e ∈ eff.events s p, e.conn ≠ some c := fun e he hec => hc ⟨e, he, hec⟩
      exact hmove.settled_of_ne hp hnone (h.settled c)
  · intro e he q hq
    rw [Sys.log_apply] at he
    -- An old process number, or that of the child just made.
    rcases List.mem_append.1 he with hold | hnew
    · exact Nat.lt_of_lt_of_le (h.known e hold q hq) (Sys.next_le_apply s p pr eff)
    · rcases hmove.child_events hnew hq with ⟨rfl, handed, here, there, rfl⟩
      exact Nat.lt_succ_self _
  · intro e he c hc
    rw [Sys.log_apply] at he ⊢
    rw [List.length_append]
    rcases List.mem_append.1 he with hold | hnew
    · exact Nat.lt_add_right _ (h.past e hold c hc)
    · -- The number is the next one, or that of a connection accepted before.
      rcases hmove.conn_events hnew hc with ⟨rfl, -⟩ | hhand
      · exact Nat.lt_add_of_pos_right (List.length_pos_of_mem hnew)
      · rcases trail_of_inHand (h.placed p pr hp) hhand with ⟨rest, htrail, -⟩
        rcases mem_of_trail htrail with ⟨hmem, hconn⟩
        exact Nat.lt_add_right _ (h.past _ hmem c hconn)

end Step

theorem owns_init : Owns Sys.init := by
  constructor
  · exact lineage_init
  · intro p pr h
    rcases Procs.live_single h with ⟨-, rfl⟩
    rfl
  · intro p pr h
    rcases Procs.live_single h with ⟨-, rfl⟩
    rfl
  · exact fun _ => Or.inl (Or.inl rfl)
  · exact fun e he => absurd he List.not_mem_nil
  · exact fun e he => absurd he List.not_mem_nil

theorem owns_exec {as : List (Pid × Act)} {s : Sys} (h : exec sysStep Sys.init as = some s) :
    Owns s :=
  exec_induct (I := Owns) (fun _ _ _ hown hstep => owns_step hown hstep) owns_init h

/-! ## Ownership -/

/-- The process executes the loop of `parent_proc`. -/
def Process.inLoop (pr : Process) : Bool :=
  match pr.loc with
  | .loopHead _ | .selected _ | .accepted _ _ | .forked _ _ => true
  | _ => false

theorem role_of_inLoop {pr : Process} (h : pr.inLoop = true) : pr.role = .server := by
  unfold Process.inLoop at h
  unfold Process.role
  cases hloc : pr.loc with
  | loopHead l => rfl
  | selected l => rfl
  | accepted l fd => rfl
  | forked l fd => rfl
  | _ => simp [hloc] at h

/-- Who runs which part of the program, and who owns which connection. -/
structure Sys.Owned (s : Sys) : Prop where
  /-- At most one live process executes the accept loop. -/
  oneLoop : ∀ (p q : Pid) (pr prq : Process), s.procs.proc p = some pr →
    s.procs.proc q = some prq → pr.inLoop = true → prq.inLoop = true → p = q
  /-- The child of a `fork_proc` is never in it. -/
  childOutside : ∀ (p q : Pid) (c : Nat) (prq : Process),
    .forked p (some (.conn c)) (some q) ∈ s.log → s.procs.proc q = some prq → prq.inLoop = false
  /-- The child of a `fork` in `main` is never in the loop of `main`. -/
  serverOutside : ∀ (p q : Pid) (prq : Process),
    .forked p none (some q) ∈ s.log → s.procs.proc q = some prq → prq.role ≠ .supervisor
  /-- At the head of the accept loop the listening socket is all that is open. -/
  loopHead : ∀ (p : Pid) (pr : Process) (listenFd : Fd), s.procs.proc p = some pr →
    pr.loc = .loopHead listenFd → pr.table.entries = [(listenFd, .listening pr.port)]
  /-- An accepted connection is still in the hand of its server, or the server died with it in its
  hand, or else one `fork_proc` and one `sock_close` is all that was done with it. -/
  accounted : ∀ (p : Pid) (c : Nat), .accepted p c ∈ s.log →
    (∃ pr : Process, s.procs.proc p = some pr ∧ pr.inHand = some (.conn c)) ∨
      .died p (some (.conn c)) ∈ s.log ∨
      ∃ r, trail s.log c =
        [.accepted p c, .forked p (some (.conn c)) r, .closed p (some (.conn c))]
  /-- Nobody else ever holds it but the child of that `fork_proc`, -/
  handed : ∀ (q : Pid) (prq : Process) (fd : Fd) (c : Nat), s.procs.proc q = some prq →
    (fd, .conn c) ∈ prq.table.entries →
    prq.inHand = some (.conn c) ∨ ∃ p, .forked p (some (.conn c)) (some q) ∈ s.log
  /-- which serves it and holds no other. -/
  served : ∀ (p q : Pid) (c : Nat) (prq : Process), .forked p (some (.conn c)) (some q) ∈ s.log →
    s.procs.proc q = some prq →
    ∃ fd st, prq.loc = .processMain fd st ∧
      ∀ fd' k, (fd', .conn k) ∈ prq.table.entries → fd' = fd ∧ k = c

section Owned

variable {s : Sys} {p q : Pid} {pr prq : Process} {c : Nat}

/-- A process has been made by one `fork` at most. -/
theorem eq_of_births {e e' : Event} (h : births s.log q = [e']) (he : e ∈ s.log)
    (hq : e.child = some q) : e = e' := by
  have hmem : e ∈ births s.log q := List.mem_filter.2 ⟨he, decide_eq_true hq⟩
  rw [h] at hmem
  exact List.mem_singleton.1 hmem

/-- The child of a `fork_proc` is what its birth says. -/
theorem Owns.child (h : Owns s) (he : .forked p (some (.conn c)) (some q) ∈ s.log)
    (hq : s.procs.proc q = some prq) :
    prq.role = .child ∧ ∀ fd k, (fd, .conn k) ∈ prq.table.entries → k = c := by
  have hborn := h.born q prq hq
  unfold Born at hborn
  -- A supervisor was made by no `fork`, and a server by one that handed on nothing.
  cases hrole : prq.role with
  | supervisor =>
      simp only [hrole] at hborn
      have hmem : .forked p (some (.conn c)) (some q) ∈ births s.log q :=
        List.mem_filter.2 ⟨he, by simp [Event.child]⟩
      rw [hborn] at hmem
      cases hmem
  | server =>
      simp only [hrole] at hborn
      have hsame := eq_of_births hborn he rfl
      cases hsame
  | child =>
      simp only [hrole] at hborn
      rcases hborn with ⟨p', c', hborn, hheld⟩
      have hsame := eq_of_births hborn he rfl
      have hc : c = c' := by
        injection hsame with _ hsock _
        simpa using hsock
      exact ⟨rfl, hc ▸ hheld⟩

theorem Owns.server (h : Owns s) (he : .forked p none (some q) ∈ s.log)
    (hq : s.procs.proc q = some prq) : prq.role = .server := by
  have hborn := h.born q prq hq
  unfold Born at hborn
  cases hrole : prq.role with
  | supervisor =>
      simp only [hrole] at hborn
      have hmem : .forked p none (some q) ∈ births s.log q :=
        List.mem_filter.2 ⟨he, by simp [Event.child]⟩
      rw [hborn] at hmem
      cases hmem
  | server => rfl
  | child =>
      simp only [hrole] at hborn
      rcases hborn with ⟨p', c', hborn, -⟩
      have hsame := eq_of_births hborn he rfl
      cases hsame

/-- A connection that was accepted by `p` was accepted by nobody else. -/
theorem eq_of_trail {rest : List Event} (htrail : trail s.log c = .accepted q c :: rest)
    (hrest : ∀ r, .accepted r c ∉ rest) (h : .accepted p c ∈ s.log) : p = q := by
  have hmem : .accepted p c ∈ trail s.log c := List.mem_filter.2 ⟨h, by simp [Event.conn]⟩
  rw [htrail] at hmem
  rcases List.mem_cons.1 hmem with heq | hmem
  · injection heq
  · exact absurd hmem (hrest p)

theorem Owns.accounted (h : Owns s) (ha : .accepted p c ∈ s.log) :
    (∃ pr : Process, s.procs.proc p = some pr ∧ pr.inHand = some (.conn c)) ∨
      .died p (some (.conn c)) ∈ s.log ∨
      ∃ r, trail s.log c =
        [.accepted p c, .forked p (some (.conn c)) r, .closed p (some (.conn c))] := by
  -- Its iteration is over, in one of the two ways, or it is still in a hand.
  rcases h.settled c with (hnil | ⟨q, r, htrail⟩ | ⟨q, rest, htrail, hrest, hdied⟩) |
      ⟨q, prq, hq, hhand⟩
  · have hmem : .accepted p c ∈ trail s.log c := List.mem_filter.2 ⟨ha, by simp [Event.conn]⟩
    rw [hnil] at hmem
    cases hmem
  · have hpq : p = q := eq_of_trail htrail (by simp) ha
    exact Or.inr (Or.inr ⟨r, hpq ▸ htrail⟩)
  · have hpq : p = q := eq_of_trail htrail hrest ha
    have hmem : .died q (some (.conn c)) ∈ trail s.log c := by
      rw [htrail]
      exact List.mem_cons_of_mem _ hdied
    exact Or.inr (Or.inl (hpq ▸ List.mem_of_mem_filter hmem))
  · rcases trail_of_inHand (h.placed q prq hq) hhand with ⟨rest, htrail, hrest⟩
    have hpq : p = q := eq_of_trail htrail hrest ha
    exact Or.inl ⟨prq, hpq ▸ hq, hhand⟩

/-- A connection is open in the server that has it in hand, and in the child it was handed to. -/
theorem Owns.handed (h : Owns s) (hq : s.procs.proc q = some prq) {fd : Fd}
    (hmem : (fd, .conn c) ∈ prq.table.entries) :
    prq.inHand = some (.conn c) ∨ ∃ p, .forked p (some (.conn c)) (some q) ∈ s.log := by
  have hpl := h.placed q prq hq
  cases hloc : prq.loc with
  | accepted l fd =>
      rcases placed_accepted hpl hloc with ⟨k, hentries, hget, -⟩
      rw [hentries] at hmem
      left
      rw [inHand_of_accepted hloc, hget, (eq_of_mem_pair hmem).2]
  | forked l fd =>
      rcases placed_forked hpl hloc with ⟨k, r, hentries, hget, -⟩
      rw [hentries] at hmem
      left
      rw [inHand_of_forked hloc, hget, (eq_of_mem_pair hmem).2]
  | processMain fd st =>
      have hrole : prq.role = .child := congrArg Loc.role hloc
      have hborn := h.born q prq hq
      simp only [Born, hrole] at hborn
      rcases hborn with ⟨p, k, hbirth, hheld⟩
      have hbirth' : .forked p (some (.conn k)) (some q) ∈ births s.log q := by simp [hbirth]
      right
      refine ⟨p, ?_⟩
      rw [hheld _ _ hmem]
      exact List.mem_of_mem_filter hbirth'
  | _ =>
      -- There is no connection anywhere else.
      simp only [Placed, hloc] at hpl
      simp [hpl] at hmem

end Owned

/-- In every run every process keeps to its part of the program, and every connection has one owner. -/
theorem ownership {as : List (Pid × Act)} {s : Sys} (h : exec sysStep Sys.init as = some s) :
    s.Owned := by
  have hown := owns_exec h
  constructor
  · intro p q pr prq hp hq hpr hprq
    exact hown.lineage.unique p q ⟨pr, hp, role_of_inLoop hpr⟩ ⟨prq, hq, role_of_inLoop hprq⟩
  · -- Only servers enter the loop, and this process is a child.
    intro p q c prq he hq
    have hrole := (hown.child he hq).1
    by_contra hloop
    have hserver : prq.role = .server := role_of_inLoop (by simpa using hloop)
    rw [hrole] at hserver
    cases hserver
  · intro p q prq he hq hsup
    rw [hown.server he hq] at hsup
    cases hsup
  · intro p pr l hp hloc
    have hpl := hown.placed p pr hp
    simpa only [Placed, hloc] using hpl
  · intro p c ha
    exact hown.accounted ha
  · intro q prq fd c hq hmem
    exact hown.handed hq hmem
  · intro p q c prq he hq
    rcases hown.child he hq with ⟨hrole, hheld⟩
    have hpl := hown.placed q prq hq
    cases hloc : prq.loc with
    | processMain fd st =>
        refine ⟨fd, st, rfl, ?_⟩
        intro fd' k hmem
        refine ⟨?_, hheld fd' k hmem⟩
        simp only [Placed, hloc] at hpl
        rcases hpl with ⟨c', l, hentries | ⟨-, hentries⟩⟩
        · rw [hentries] at hmem
          exact (eq_of_mem_pair hmem).1
        · rw [hentries] at hmem
          cases List.mem_singleton.1 hmem
    | _ => simp [Process.role, hloc, Loc.role] at hrole

/-- The supervisor starts a server, which accepts a connection and forks a child for it. -/
def servedRun : List (Pid × Act) :=
  [(0, .fork true), (1, .config (some CommSvrSocket.shipped)), (1, .socket (some 3)), (1, .bind),
   (1, .listen), (1, .select 1), (1, .accept (some 4)), (1, .fork true), (1, .close)]

theorem ownership_sample : ∃ s, exec sysStep Sys.init servedRun = some s ∧ s.Owned :=
  ⟨_, rfl, ownership (show exec sysStep Sys.init servedRun = some _ from rfl)⟩

end CommServer
