import CommServer.Service.Ownership

/-!
# Resources — zombies and descriptor numbers

The server ignores `SIGCHLD`, the supervisor waits.  A `socket` or an `accept` gets the lowest number
that is free.

* `Reared`, `reared_step`   : whoever has a child ignores it, or is the supervisor;
* `zombies_single`          : the zombies of every run are one at most, the last server;
* `Numbered`, `numbered_step` : which numbers the descriptors of a process have;
* `descriptors_bounded`     : no run leaks descriptors, and no `FD_SET` is out of range.
-/

namespace CommServer

open Unix Transition

/-! ## Who ignores its children -/

/-- A server that has set its signal handlers. -/
def Loc.deaf : Loc → Bool
  | .started | .polling | .reaped | .sleeping => false
  | .doProcess => false
  | .processMain _ _ => false
  | _ => true

@[simp] theorem Process.ignoresChild_goto (pr : Process) (l : Loc) :
    (pr.goto l).ignoresChild = pr.ignoresChild := rfl

@[simp] theorem Process.ignoresChild_withTable (pr : Process) (t : FdTable Sock) :
    (pr.withTable t).ignoresChild = pr.ignoresChild := rfl

/-- What a step does to the family of a process: it keeps its parent, it does not begin to wait for its
children, and who forks a child is the supervisor or ignores it. -/
def Effect.Rears (pr : Process) : Effect → Prop
  | .goOn pr' _ =>
      pr'.parent = pr.parent ∧ (pr'.ignoresChild = true ∨ pr'.ignoresChild = pr.ignoresChild) ∧
        (pr'.loc.deaf = true → pr'.ignoresChild = true ∨ pr.loc.deaf = true)
  | .fork _ here there =>
      (here.deaf = true → pr.loc.deaf = true) ∧ there.deaf = false ∧
        (pr.role = .supervisor ∨ pr.loc.deaf = true)
  | .reap _ => True
  | .exit _ => True

theorem Move.rears {s : Sys} {p : Pid} {pr : Process} {a : Act} {eff : Effect}
    (h : Move s p pr a eff) : eff.Rears pr := by
  cases h with
  | forkServer h =>
      rcases h with h | h
      · simp [Effect.Rears, Process.role, h, Loc.role, Loc.deaf]
      · simp [Effect.Rears, Process.role, h, Loc.role, Loc.deaf]
  | config svr h => exact ⟨rfl, Or.inl rfl, fun _ => Or.inl rfl⟩
  | reap q h hq => trivial
  | die => trivial
  | forkFails h => trivial
  | configFails h => trivial
  | socketFails h => trivial
  | bindRefused fd h hport => trivial
  | listenRefused fd h hport => trivial
  | childExits fd c a h => trivial
  | _ => simp [Effect.Rears, Loc.deaf, *]

/-- Whoever has a child ignores it, or is the supervisor, which has the number 0. -/
structure Reared (s : Sys) : Prop where
  owns : Owns s
  deaf : s.All fun _ pr => pr.loc.deaf = true → pr.ignoresChild = true
  /-- Parents have numbers that were given away. -/
  known : s.All fun _ pr => ∀ p, pr.parent = some p → p < s.procs.next
  ignores : s.All fun _ prq => ∀ (p : Pid) (pr : Process), prq.parent = some p →
    s.procs.proc p = some pr → p = 0 ∨ pr.ignoresChild = true
  /-- A zombie was a server of the supervisor. -/
  zombie : ∀ z ∈ s.procs.zombies, z.2 = 0 ∧ .forked 0 none (some z.1) ∈ s.log

section Step

variable {s : Sys} {p : Pid} {pr : Process} {a : Act} {eff : Effect}

/-- A process after a step, as it was before, or a child that was just forked. -/
theorem before_apply (hp : s.procs.proc p = some pr) (hmove : eff.Rears pr) :
    (s.apply p pr eff).All fun q prq' =>
      (∃ prq : Process, s.procs.proc q = some prq ∧ prq'.parent = prq.parent ∧
        (prq.ignoresChild = true → prq'.ignoresChild = true)) ∨
      (q = s.procs.next ∧ prq'.parent = some p ∧ (pr.role = .supervisor ∨ pr.loc.deaf = true)) := by
  refine Sys.all_apply hp (fun q prq _ hold => Or.inl ⟨prq, hold, rfl, id⟩) ?_
  cases eff with
  | goOn pr' events =>
      refine Or.inl ⟨pr, hp, hmove.1, ?_⟩
      intro hdeaf
      rcases hmove.2.1 with hset | hsame
      · exact hset
      · exact hsame.trans hdeaf
  | fork handed here there =>
      exact ⟨Or.inl ⟨pr, hp, rfl, id⟩, Or.inr ⟨rfl, rfl, hmove.2.2⟩⟩
  | reap z => exact Or.inl ⟨pr, hp, rfl, id⟩
  | exit events => trivial

theorem deaf_step (h : Reared s) (hp : s.procs.proc p = some pr) (hmove : eff.Rears pr) :
    (s.apply p pr eff).All fun _ prq => prq.loc.deaf = true → prq.ignoresChild = true := by
  refine Sys.all_apply hp (fun q prq _ hold => h.deaf q prq hold) ?_
  cases eff with
  | goOn pr' events =>
      intro hdeaf
      rcases hmove.2.2 hdeaf with hset | hbefore
      · exact hset
      · rcases hmove.2.1 with hset | hsame
        · exact hset
        · exact hsame.trans (h.deaf p pr hp hbefore)
  | fork handed here there =>
      refine ⟨fun hdeaf => h.deaf p pr hp (hmove.1 hdeaf), ?_⟩
      intro hdeaf
      have hnot : there.deaf = true := hdeaf
      rw [hmove.2.1] at hnot
      cases hnot
  | reap z =>
      intro hdeaf
      cases hdeaf
  | exit events => trivial

theorem known_step (h : Reared s) (hp : s.procs.proc p = some pr) (hmove : eff.Rears pr) :
    (s.apply p pr eff).All fun _ prq => ∀ r, prq.parent = some r → r < (s.apply p pr eff).procs.next := by
  have hle := Sys.next_le_apply s p pr eff
  intro q prq hq r hr
  rcases before_apply hp hmove q prq hq with ⟨old, hold, hsame, -⟩ | ⟨-, hforked, -⟩
  · exact Nat.lt_of_lt_of_le (h.known q old hold r (hsame ▸ hr)) hle
  · have heq : p = r := Option.some.inj (hforked.symm.trans hr)
    exact heq ▸ Nat.lt_of_lt_of_le (Procs.lt_next hp) hle

theorem ignores_step (h : Reared s) (hp : s.procs.proc p = some pr) (hmove : eff.Rears pr) :
    (s.apply p pr eff).All fun _ prq => ∀ (r : Pid) (prr : Process), prq.parent = some r →
      (s.apply p pr eff).procs.proc r = some prr → r = 0 ∨ prr.ignoresChild = true := by
  intro q prq hq r prr hparent hr
  rcases before_apply hp hmove q prq hq with ⟨old, hold, hsame, -⟩ | ⟨-, hforked, hears⟩
  · rcases before_apply hp hmove r prr hr with ⟨oldr, holdr, -, hkeeps⟩ | ⟨hnew, -⟩
    · rcases h.ignores q old hold r oldr (hsame ▸ hparent) holdr with hzero | hdeaf
      · exact Or.inl hzero
      · exact Or.inr (hkeeps hdeaf)
    · -- A process that was just forked has no children.
      have hlt := h.known q old hold r (hsame ▸ hparent)
      exact absurd hnew (Nat.ne_of_lt hlt)
  · have heq : p = r := Option.some.inj (hforked.symm.trans hparent)
    subst heq
    rcases before_apply hp hmove p prr hr with ⟨old, hold, -, hkeeps⟩ | ⟨hnew, -⟩
    · have hself : pr = old := Option.some.inj (hp.symm.trans hold)
      rcases hears with hsup | hdeaf
      · exact Or.inl ((h.owns.lineage.supervisor p pr hp).1 hsup)
      · exact Or.inr (hkeeps (hself ▸ h.deaf p pr hp hdeaf))
    · exact absurd hnew (Procs.ne_next hp)

/-- The end of a process leaves a zombie only if it was a server. -/
theorem zombie_step (h : Reared s) (hp : s.procs.proc p = some pr) :
    ∀ z ∈ (s.apply p pr eff).procs.zombies,
      z.2 = 0 ∧ .forked 0 none (some z.1) ∈ (s.apply p pr eff).log := by
  have hlog := Sys.log_apply s p pr eff
  have hold : ∀ z ∈ s.procs.zombies,
      z.2 = 0 ∧ .forked 0 none (some z.1) ∈ (s.apply p pr eff).log := by
    intro z hz
    exact ⟨(h.zombie z hz).1, hlog ▸ List.mem_append_left _ (h.zombie z hz).2⟩
  cases eff with
  | goOn pr' events => exact hold
  | fork handed here there => exact hold
  | reap q => exact fun z hz => hold z (List.mem_of_mem_erase hz)
  | exit events =>
      intro z hz
      cases htold : s.procs.toldOf pr with
      | none =>
          have hz' : z ∈ s.procs.zombies := by simpa [Sys.apply, Procs.exit, htold] using hz
          exact hold z hz'
      | some q =>
          have hz' : z ∈ s.procs.zombies ∨ z = (p, q) := by
            simpa [Sys.apply, Procs.exit, htold] using hz
          rcases hz' with hz' | rfl
          · exact hold z hz'
          · rcases Procs.listens_of_toldOf htold with ⟨prq, hparent, hq, hlistens⟩
            have hzero : q = 0 := by
              rcases h.ignores p pr hp q prq hparent hq with hzero | hdeaf
              · exact hzero
              · rw [hlistens] at hdeaf
                cases hdeaf
            subst hzero
            -- The child of the supervisor is a server, and its birth is in the history.
            have hrole : pr.role = .server := h.owns.lineage.parent p pr hp hparent
            have hborn := h.owns.born p pr hp
            simp only [Born, hrole] at hborn
            have hmem : .forked 0 none (some p) ∈ births s.log p := by simp [hborn]
            exact ⟨rfl, hlog ▸ List.mem_append_left _ (List.mem_of_mem_filter hmem)⟩

end Step

theorem reared_init : Reared Sys.init := by
  have hlive : ∀ (p : Pid) (pr : Process), Sys.init.procs.proc p = some pr →
      pr.loc = .started ∧ pr.parent = none := by
    intro p pr h
    rcases Procs.live_single h with ⟨-, rfl⟩
    exact ⟨rfl, rfl⟩
  constructor
  · exact owns_init
  · intro p pr h hdeaf
    rw [(hlive p pr h).1] at hdeaf
    cases hdeaf
  · intro p pr h q hparent
    rw [(hlive p pr h).2] at hparent
    cases hparent
  · intro q prq h p pr hparent
    rw [(hlive q prq h).2] at hparent
    cases hparent
  · intro z hz
    cases hz

theorem reared_step {s s' : Sys} {a : Pid × Act} (h : Reared s) (hstep : sysStep s a = some s') :
    Reared s' := by
  have hown := owns_step h.owns hstep
  rcases a with ⟨p, act⟩
  rcases sysStep_cases hstep with ⟨pr, eff, hp, hmove, rfl⟩
  have hrears := hmove.rears
  exact
    { owns := hown
      deaf := deaf_step h hp hrears
      known := known_step h hp hrears
      ignores := ignores_step h hp hrears
      zombie := zombie_step h hp }

/-- No run leaves more than one zombie: the last server, for which the supervisor has yet to wait, and
no server lives beside it. -/
theorem zombies_single {as : List (Pid × Act)} {s : Sys} (h : exec sysStep Sys.init as = some s) :
    s.procs.zombies.length ≤ 1 ∧
      ∀ z ∈ s.procs.zombies, z.2 = 0 ∧ .forked 0 none (some z.1) ∈ s.log ∧ ∀ p, ¬ s.IsServer p := by
  have hreared : Reared s := exec_induct (fun _ _ _ => reared_step) reared_init h
  have hall : s.awaited = s.procs.zombies :=
    List.filter_eq_self.2 fun z hz => decide_eq_true (hreared.zombie z hz).1
  constructor
  · rw [← hall]
    exact hreared.owns.lineage.single
  · intro z hz
    rcases hreared.zombie z hz with ⟨hparent, hborn⟩
    refine ⟨hparent, hborn, ?_⟩
    intro p hserver
    rw [← hall, hreared.owns.lineage.idle p hserver] at hz
    cases hz

/-- The server is killed, and the supervisor has not noticed yet. -/
theorem zombies_single_sample :
    ∃ s, exec sysStep Sys.init [(0, .fork true), (1, .die)] = some s ∧
      s.procs.zombies.length ≤ 1 ∧
        ∀ z ∈ s.procs.zombies,
          z.2 = 0 ∧ .forked 0 none (some z.1) ∈ s.log ∧ ∀ p, ¬ s.IsServer p :=
  ⟨_, rfl, zombies_single (show exec sysStep Sys.init [(0, .fork true), (1, .die)] = some _ from rfl)⟩

/-! ## The numbers of descriptors -/

/-- `FD_SETSIZE`. -/
def fdSetsize : Nat := 1024

/-- The lowest number that is neither inherited nor in use. -/
def Lowest (inherited : List Fd) (t : FdTable Sock) (fd : Fd) : Prop :=
  ∀ fd', fd' < fd → fd' ∈ inherited ∨ fd' ∈ t.fds

/-- New descriptors get the lowest free numbers. -/
def LowestFree (inherited : List Fd) (s : Sys) (a : Pid × Act) : Prop :=
  match s.procs.proc a.1, a.2 with
  | some pr, .socket (some fd) | some pr, .accept (some fd) => Lowest inherited pr.table fd
  | _, _ => True

theorem Lowest.le {inherited : List Fd} {t : FdTable Sock} {fd : Fd} (h : Lowest inherited t fd) :
    fd ≤ inherited.length + t.entries.length := by
  have hsub : List.range fd ⊆ inherited ++ t.fds := by
    intro fd' hfd'
    exact List.mem_append.2 (h fd' (List.mem_range.1 hfd'))
  have hlen := List.nodup_range.length_le_of_subset hsub
  simpa [FdTable.fds] using hlen

/-- The descriptor that the process puts into the set of its next `select`. -/
def Process.watched (pr : Process) : Option Fd :=
  match pr.loc with
  | .loopHead listenFd => some listenFd
  | .processMain connect c =>
      match c.pc with
      | .receiving _ _ => some connect
      | _ => none
  | _ => none

/-- Listening sockets are numbered from the `n` inherited descriptors on, and connections follow. -/
structure Numbered (n : Nat) (pr : Process) : Prop where
  conn : ∀ e ∈ pr.table.entries, e.1 ≤ n + 1
  listening : ∀ e ∈ pr.table.entries, (∀ c, e.2 ≠ .conn c) → e.1 ≤ n
  child : ∀ fd c, pr.loc = .processMain fd c → fd ≤ n + 1

namespace Numbered

variable {n : Nat} {pr pr' : Process}

/-- Fewer descriptors are numbered as well. -/
theorem of_subset (h : Numbered n pr) (htable : ∀ e ∈ pr'.table.entries, e ∈ pr.table.entries)
    (hchild : ∀ fd c, pr'.loc = .processMain fd c → fd ≤ n + 1) : Numbered n pr' where
  conn e he := h.conn e (htable e he)
  listening e he := h.listening e (htable e he)
  child := hchild

/-- So is a new descriptor that is not too high. -/
theorem of_entries {fd : Fd} {o : Sock} {rest : List (Fd × Sock)} (h : Numbered n pr)
    (htable : pr'.table.entries = (fd, o) :: rest) (hrest : ∀ e ∈ rest, e ∈ pr.table.entries)
    (hfd : fd ≤ n + 1) (hlow : (∀ c, o ≠ .conn c) → fd ≤ n)
    (hchild : ∀ fd c, pr'.loc = .processMain fd c → fd ≤ n + 1) : Numbered n pr' where
  conn := by
    intro e he
    rw [htable] at he
    rcases List.mem_cons.1 he with rfl | he
    · exact hfd
    · exact h.conn e (hrest e he)
  listening := by
    intro e he
    rw [htable] at he
    rcases List.mem_cons.1 he with rfl | he
    · exact hlow
    · exact h.listening e (hrest e he)
  child := hchild

end Numbered

theorem numbered_apply {s : Sys} {p : Pid} {pr : Process} {a : Act} {eff : Effect}
    {inherited : List Fd} (h : Numbered inherited.length pr) (hmove : Move s p pr a eff)
    (hpl : Placed s.log p pr)
    (hp : s.procs.proc p = some pr) (hlow : LowestFree inherited s (p, a)) :
    eff.Leaves s p pr fun _ => Numbered inherited.length := by
  cases hmove with
  | socket fd hloc hfree =>
      have hempty : pr.table.entries = [] := by simpa only [Placed, hloc] using hpl
      have hfd : fd ≤ inherited.length := by
        have hlowest : Lowest inherited pr.table fd := by simpa only [LowestFree, hp] using hlow
        have hle := hlowest.le
        simpa [hempty] using hle
      exact h.of_entries rfl (fun _ he => he) (Nat.le_succ_of_le hfd)
        (fun _ => hfd) (by simp)
  | bind fd hloc =>
      have hone : pr.table.entries = [(fd, .stream)] := by simpa only [Placed, hloc] using hpl
      have hfd : fd ≤ inherited.length :=
        h.listening (fd, .stream) (by simp [hone]) (by simp)
      exact h.of_entries (FdTable.entries_set_of_singleton hone _) (by simp)
        (Nat.le_succ_of_le hfd) (fun _ => hfd) (by simp)
  | listen fd hloc =>
      have hone : pr.table.entries = [(fd, .bound pr.port)] := by simpa only [Placed, hloc] using hpl
      have hfd : fd ≤ inherited.length :=
        h.listening (fd, .bound pr.port) (by simp [hone]) (by simp)
      exact h.of_entries (FdTable.entries_set_of_singleton hone _) (by simp)
        (Nat.le_succ_of_le hfd) (fun _ => hfd) (by simp)
  | accept l fd hloc hfree =>
      -- Beside the listening socket only the inherited descriptors are in use.
      have hone : pr.table.entries = [(l, .listening pr.port)] := by
        simpa only [Placed, hloc] using hpl
      have hfd : fd ≤ inherited.length + 1 := by
        have hlowest : Lowest inherited pr.table fd := by simpa only [LowestFree, hp] using hlow
        have hle := hlowest.le
        simpa [hone] using hle
      exact h.of_entries rfl (fun _ he => he) hfd
        (fun hnot => absurd rfl (hnot _)) (by simp)
  | forkServer hloc =>
      exact ⟨h.of_subset (fun _ he => he) (by simp),
        h.of_subset (fun _ he => he) (fun _ _ hd => by cases hd)⟩
  | forkProc l fd hloc =>
      rcases placed_accepted hpl hloc with ⟨c, hentries, -, -⟩
      have hfd : fd ≤ inherited.length + 1 := h.conn (fd, .conn c) (by simp [hentries])
      refine ⟨h.of_subset (fun _ he => he) (by simp), ?_⟩
      refine h.of_subset (fun _ he => he) ?_
      intro fd' d hd
      cases hd
      exact hfd
  | close l fd hloc =>
      exact h.of_subset (fun _ he => FdTable.mem_of_mem_close he) (by simp)
  | child fd c c' act hloc =>
      refine h.of_subset (fun _ he => he) ?_
      intro fd' d hd
      cases hd
      exact h.child fd c hloc
  | childCloses fd c c' act hloc =>
      refine h.of_subset (fun _ he => FdTable.mem_of_mem_close he) ?_
      intro fd' d hd
      cases hd
      exact h.child fd c hloc
  | die => trivial
  | forkFails hloc => trivial
  | configFails hloc => trivial
  | socketFails hloc => trivial
  | bindRefused fd hloc hport => trivial
  | listenRefused fd hloc hport => trivial
  | childExits fd c act hloc => trivial
  | _ => exact h.of_subset (fun _ he => he) (fun _ _ hd => by cases hd)

theorem numbered_step {s s' : Sys} {a : Pid × Act} {inherited : List Fd} (hown : Owns s)
    (h : s.All fun _ => Numbered inherited.length) (hlow : LowestFree inherited s a)
    (hstep : sysStep s a = some s') : s'.All fun _ => Numbered inherited.length := by
  rcases a with ⟨p, act⟩
  rcases sysStep_cases hstep with ⟨pr, eff, hp, hmove, rfl⟩
  refine Sys.all_apply hp (fun q prq _ hold => h q prq hold) ?_
  exact numbered_apply (h p pr hp) hmove (hown.placed p pr hp) hp hlow

/-- What the service needs of the numbers of its descriptors. -/
structure Bounded (n : Nat) (pr : Process) : Prop where
  few : pr.table.entries.length ≤ 2
  low : ∀ fd ∈ pr.table.fds, fd ≤ n + 1
  /-- `FD_SET` stays in its set. -/
  inSet : ∀ fd, pr.watched = some fd → fd < fdSetsize

theorem few_of_placed {log : List Event} {p : Pid} {pr : Process} (h : Placed log p pr) :
    pr.table.entries.length ≤ 2 := by
  cases hloc : pr.loc with
  | accepted l fd =>
      simp only [Placed, hloc] at h
      rcases h with ⟨c, hentries, -⟩
      simp [hentries]
  | forked l fd =>
      simp only [Placed, hloc] at h
      rcases h with ⟨c, r, hentries, -⟩
      simp [hentries]
  | processMain fd c =>
      simp only [Placed, hloc] at h
      rcases h with ⟨k, l, hentries | ⟨-, hentries⟩⟩
      · simp [hentries]
      · simp [hentries]
  | _ =>
      simp only [Placed, hloc] at h
      simp [h]

theorem Numbered.bounded {n : Nat} {log : List Event} {p : Pid} {pr : Process} (h : Numbered n pr)
    (hpl : Placed log p pr) (hn : n + 1 < fdSetsize) : Bounded n pr := by
  constructor
  · exact few_of_placed hpl
  · intro fd hfd
    rcases List.mem_map.1 hfd with ⟨e, he, rfl⟩
    exact h.conn e he
  · intro fd hfd
    have hle : fd ≤ n + 1 := by
      cases hloc : pr.loc with
      | loopHead l =>
          have hone : pr.table.entries = [(l, .listening pr.port)] := by
            simpa only [Placed, hloc] using hpl
          have hl : l = fd := by simpa [Process.watched, hloc] using hfd
          exact hl ▸ h.conn (l, .listening pr.port) (by simp [hone])
      | processMain connect c =>
          have hconnect : connect = fd := by
            simp only [Process.watched, hloc] at hfd
            split at hfd
            · exact Option.some.inj hfd
            · cases hfd
          exact hconnect ▸ h.child connect c hloc
      | _ => simp [Process.watched, hloc] at hfd
    exact Nat.lt_of_le_of_lt hle hn

/-- If new descriptors get the lowest free numbers, and two more than the inherited ones are within
`FD_SETSIZE`, then however many connections a run accepts, no process ever has more than two, numbered
next to the inherited ones, and every `FD_SET` stays in its set. -/
theorem descriptors_bounded {inherited : List Fd} {as : List (Pid × Act)}
    (hinherited : inherited.length + 1 < fdSetsize)
    (hlow : Along sysStep (LowestFree inherited) Sys.init as) :
    Throughout sysStep (fun s => s.All fun _ => Bounded inherited.length) Sys.init as := by
  let I : Sys → Prop := fun s => Owns s ∧ s.All fun _ => Numbered inherited.length
  have hinit : I Sys.init := by
    refine ⟨owns_init, ?_⟩
    intro p pr h
    rcases Procs.live_single h with ⟨-, rfl⟩
    exact ⟨fun _ he => (nomatch he), fun _ he => (nomatch he), fun _ _ hd => (nomatch hd)⟩
  have hall : Throughout sysStep I Sys.init as := by
    refine throughout_of_along ?_ hinit hlow
    intro s a s' hI hC hstep
    exact ⟨owns_step hI.1 hstep, numbered_step hI.1 hI.2 hC hstep⟩
  refine hall.mono fun s hI p pr hp => ?_
  exact (hI.2 p pr hp).bounded (hI.1.placed p pr hp) hinherited

/-- A server with the three standard descriptors accepts a connection. -/
theorem descriptors_bounded_sample :
    Throughout sysStep (fun s => s.All fun _ => Bounded [0, 1, 2].length) Sys.init
      [(0, .fork true), (1, .config (some CommSvrSocket.shipped)), (1, .socket (some 3)), (1, .bind),
        (1, .listen), (1, .select 1), (1, .accept (some 4))] :=
  descriptors_bounded (by decide)
    (along_cons_of_step trivial rfl <| along_cons_of_step trivial rfl <|
      along_cons_of_step (show Lowest [0, 1, 2] _ 3 by unfold Lowest; decide) rfl <|
        along_cons_of_step trivial rfl <| along_cons_of_step trivial rfl <|
          along_cons_of_step trivial rfl <|
            along_cons_of_step (show Lowest [0, 1, 2] _ 4 by unfold Lowest; decide) rfl trivial)

end CommServer
