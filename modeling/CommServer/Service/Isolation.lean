import CommServer.Child.OneResponse
import CommServer.Service.Ownership

/-!
# Isolation — the children of the service do not disturb each other

The steps of a run belong to many processes.  `childActs` picks out those of one connection child, and
`alone_exec` says that they lead it where they would lead a child that runs by itself.

`sentOn` is all that a run puts on a connection, by whatever process.  `heard_exec` : it is what the one
child that the connection was handed to puts on its wire.

* `isolation`            : both, for every run;
* `service_one_response` : what is proved of a child by itself holds of the connections of the service.
-/

namespace CommServer

open CLib Unix Transition Protocol

/-! ## Steps of children -/

/-- What a child has from its birth and keeps in its own steps, every child has. -/
theorem Sys.children_apply {s : Sys} {p : Pid} {pr : Process} {a : Act} {eff : Effect}
    {P : Pid → Process → Fd → Child → Prop} (hp : s.procs.proc p = some pr)
    (hcode : codeStep s p pr a = some eff)
    (hothers : ∀ (q : Pid) (prq : Process) (fd : Fd) (c : Child), q ≠ p →
      s.procs.proc q = some prq → prq.loc = .processMain fd c → P q prq fd c)
    (hborn : ∀ l fd, a = .fork true → pr.loc = .accepted l fd →
      P s.procs.next
        (Procs.childOf p pr { pr.state with loc := .processMain fd Child.init }) fd Child.init)
    (hkept : ∀ act fd c c' pr' events, a = .child act → pr.loc = .processMain fd c →
      childStep pr.state.svr c act = some c' → ChildEffect p pr fd c' (.goOn pr' events) →
      P p pr' fd c') :
    (s.apply p pr eff).All fun q prq => ∀ fd c, prq.loc = .processMain fd c → P q prq fd c := by
  refine Sys.all_apply hp (fun q prq hne hq fd c hloc => hothers q prq fd c hne hq hloc) ?_
  by_cases hchild : ∃ act, a = .child act
  · rcases hchild with ⟨act, rfl⟩
    rcases childStep_of_codeStep hcode with ⟨fd, c, c', hloc, hone, heff⟩
    cases heff with
    | closes hpc =>
        intro fd' d hd
        cases hd
        exact hkept act fd c c' _ _ rfl hloc hone (.closes hpc)
    | exits hpc => trivial
    | goesOn hclosed hexited =>
        intro fd' d hd
        cases hd
        exact hkept act fd c c' _ _ rfl hloc hone (.goesOn hclosed hexited)
  · have hnot : ∀ act, a ≠ .child act := fun act hact => hchild ⟨act, hact⟩
    -- Of the other steps only `fork_proc` leaves a process in `process_main`.
    cases move_of_codeStep hcode with
    | forkProc l fd hloc =>
        refine ⟨fun _ _ hd => (nomatch hd), ?_⟩
        intro fd' d hd
        cases hd
        exact hborn l fd rfl hloc
    | forkServer hloc => exact ⟨fun _ _ hd => (nomatch hd), fun _ _ hd => (nomatch hd)⟩
    | child fd c c' act hloc => exact absurd rfl (hnot act)
    | childCloses fd c c' act hloc => exact absurd rfl (hnot act)
    | childExits fd c act hloc => exact absurd rfl (hnot act)
    | die => trivial
    | forkFails hloc => trivial
    | configFails hloc => trivial
    | socketFails hloc => trivial
    | bindRefused fd hloc hport => trivial
    | listenRefused fd hloc hport => trivial
    | _ => exact fun _ _ hd => (nomatch hd)

/-- A child makes the steps of its own code, unless a signal ends it. -/
theorem Move.exits_or_child {s : Sys} {p : Pid} {pr : Process} {a : Act} {eff : Effect} {fd : Fd}
    {c : Child} (h : Move s p pr a eff) (hloc : pr.loc = .processMain fd c) :
    (a = .die ∧ ∃ events, eff = .exit events) ∨ ∃ act, a = .child act := by
  cases h with
  | die => exact Or.inl ⟨rfl, _, rfl⟩
  | child fd c c' act hloc => exact Or.inr ⟨act, rfl⟩
  | childCloses fd c c' act hloc => exact Or.inr ⟨act, rfl⟩
  | childExits fd c act hloc => exact Or.inr ⟨act, rfl⟩
  | forkFails h => rcases h with h | h <;> simp [hloc] at h
  | forkServer h => rcases h with h | h <;> simp [hloc] at h
  | _ => simp [hloc] at *

/-- A child that goes on has the connection open, unless it has just closed it. -/
theorem ChildEffect.get {p : Pid} {pr pr' : Process} {fd : Fd} {c' : Child} {events : List Event}
    (h : ChildEffect p pr fd c' (.goOn pr' events)) :
    pr'.state.svr = pr.state.svr ∧ (c'.pc ≠ .closed → pr'.table = pr.table) := by
  cases h with
  | closes hpc => exact ⟨rfl, fun hopen => absurd hpc hopen⟩
  | goesOn hclosed hexited => exact ⟨rfl, fun _ => rfl⟩

/-! ## One child in a run -/

/-- What the environment has decided for the child `q`, in order. -/
def childActs (as : List (Pid × Act)) (q : Pid) : List ChildAct :=
  as.filterMap fun
    | (p, .child a) => if p = q then some a else none
    | _ => none

section ChildActs

variable {as : List (Pid × Act)} {p q : Pid} {a : Act} {act : ChildAct}

theorem childActs_concat_of_ne (h : p ≠ q) : childActs (as ++ [(p, a)]) q = childActs as q := by
  cases a <;> simp [childActs, h]

theorem childActs_concat_self :
    childActs (as ++ [(q, .child act)]) q = childActs as q ++ [act] := by
  simp [childActs]

theorem childActs_concat_of_not_child (h : ∀ act, a ≠ .child act) :
    childActs (as ++ [(p, a)]) q = childActs as q := by
  cases a with
  | child act => exact absurd rfl (h act)
  | _ => simp [childActs]

theorem childActs_eq_nil (h : ∀ a ∈ as, a.1 ≠ q) : childActs as q = [] := by
  apply List.filterMap_eq_nil_iff.2
  rintro ⟨p, a⟩ ha
  have hne : p ≠ q := h _ ha
  cases a <;> simp [hne]

end ChildActs

/-- Whoever has made a step has a number that was given away. -/
theorem lt_next_of_mem {as : List (Pid × Act)} {s : Sys} (h : exec sysStep Sys.init as = some s) :
    ∀ a ∈ as, a.1 < s.procs.next := by
  refine exec_induct_run (I := fun as s => ∀ a ∈ as, a.1 < s.procs.next) ?_ ?_ h
  · simp
  · rintro as t ⟨p, a⟩ t' - hall hstep
    rcases sysStep_cases hstep with ⟨pr, eff, hp, -, rfl⟩
    have hle := Sys.next_le_apply t p pr eff
    intro b hb
    rcases List.mem_append.1 hb with hb | hb
    · exact Nat.lt_of_lt_of_le (hall b hb) hle
    · have heq : b = (p, a) := List.mem_singleton.1 hb
      exact heq ▸ Nat.lt_of_lt_of_le (Procs.lt_next hp) hle

theorem childActs_unborn {as : List (Pid × Act)} {s : Sys} {q : Pid}
    (h : exec sysStep Sys.init as = some s) (hq : s.procs.next ≤ q) : childActs as q = [] := by
  apply childActs_eq_nil
  intro a ha
  exact Nat.ne_of_lt (Nat.lt_of_lt_of_le (lt_next_of_mem h a ha) hq)

/-- A child is where its own actions alone have led it. -/
def Alone (as : List (Pid × Act)) (q : Pid) (pr : Process) : Prop :=
  ∀ fd c, pr.loc = .processMain fd c →
    exec (childStep pr.state.svr) Child.init (childActs as q) = some c

/-- A child that has made one more step by itself. -/
theorem exec_concat {cfg : CommSvrSocket} {acts : List ChildAct} {a : ChildAct} {c c' : Child}
    (h : exec (childStep cfg) Child.init acts = some c) (hstep : childStep cfg c a = some c') :
    exec (childStep cfg) Child.init (acts ++ [a]) = some c' := by
  rw [exec_append h, exec_cons hstep, exec_nil]

theorem alone_step {as : List (Pid × Act)} {s s' : Sys} {a : Pid × Act}
    (hrun : exec sysStep Sys.init as = some s) (h : s.All (Alone as))
    (hstep : sysStep s a = some s') : s'.All (Alone (as ++ [a])) := by
  rcases a with ⟨p, a⟩
  rcases codeStep_of_sysStep hstep with ⟨pr, eff, hp, hcode, rfl⟩
  refine Sys.children_apply hp hcode ?_ ?_ ?_
  · -- The others have made no step.
    intro q prq fd c hne hq hloc
    rw [childActs_concat_of_ne (Ne.symm hne)]
    exact h q prq hq fd c hloc
  · -- Nobody has made a step with a new number.
    rintro l fd rfl hloc
    rw [childActs_concat_of_not_child (by simp), childActs_unborn hrun (Nat.le_refl _)]
    rfl
  · rintro act fd c c' pr' events rfl hloc hone heff
    rw [heff.get.1, childActs_concat_self]
    exact exec_concat (h p pr hp fd c hloc) hone

theorem alone_exec {as : List (Pid × Act)} {s : Sys} (h : exec sysStep Sys.init as = some s) :
    s.All (Alone as) := by
  refine exec_induct_run (I := fun as s => s.All (Alone as)) ?_ ?_ h
  · intro p pr hp fd c hloc
    rcases Procs.live_single hp with ⟨-, rfl⟩
    cases hloc
  · intro as t a t' hrun hall hstep
    exact alone_step hrun hall hstep

/-! ## The child of a connection -/

/-- The connection `c` was handed to `q`. -/
def Served (log : List Event) (c : Nat) (q : Pid) : Prop :=
  ∃ p, .forked p (some (.conn c)) (some q) ∈ log

section Served

variable {s : Sys} {p q : Pid} {pr : Process} {a : Act} {eff : Effect} {c : Nat}

/-- A connection is handed on by `fork_proc`, which has just been called with it. -/
theorem Move.served (h : Move s p pr a eff) (hq : Served (eff.events s p) c q) :
    q = s.procs.next ∧ ∃ l fd, pr.loc = .accepted l fd ∧ pr.table.get fd = some (.conn c) ∧
      eff = .fork (pr.table.get fd) (.forked l fd) (.processMain fd Child.init) := by
  rcases hq with ⟨r, he⟩
  rcases h.child_events he rfl with ⟨hnext, handed, here, there, heff⟩
  refine ⟨hnext, ?_⟩
  cases h with
  | forkServer hloc =>
      cases List.mem_singleton.1 he
  | forkProc l fd hloc =>
      have hevent := List.mem_singleton.1 he
      injection hevent with _ hget _
      exact ⟨l, fd, hloc, hget.symm, rfl⟩
  | _ => cases heff

/-- A connection that was only accepted so far was handed to nobody. -/
theorem not_served_of_trail {log : List Event} (h : trail log c = [.accepted p c]) :
    ¬ Served log c q := by
  rintro ⟨r, he⟩
  have hmem : .forked r (some (.conn c)) (some q) ∈ trail log c :=
    List.mem_filter.2 ⟨he, by simp⟩
  rw [h] at hmem
  cases List.mem_singleton.1 hmem

theorem served_append {log new : List Event} :
    Served (log ++ new) c q ↔ Served log c q ∨ Served new c q := by
  simp only [Served, List.mem_append, exists_or]

/-- A child that has a connection open was handed it. -/
theorem Owns.served_of_get (h : Owns s) (hp : s.procs.proc p = some pr) {fd : Fd} {ch : Child}
    (hloc : pr.loc = .processMain fd ch) (hget : pr.table.get fd = some (.conn c)) :
    Served s.log c p := by
  rcases h.handed hp (FdTable.mem_of_get hget) with hhand | hserved
  · simp [Process.inHand, hloc] at hhand
  · exact hserved

/-- No connection is handed to two processes. -/
theorem served_unique {as : List (Pid × Act)} (h : exec sysStep Sys.init as = some s) {q' : Pid}
    (hq : Served s.log c q) (hq' : Served s.log c q') : q = q' := by
  refine exec_induct_run
    (I := fun _ s => ∀ c q q', Served s.log c q → Served s.log c q' → q = q') ?_ ?_ h c q q' hq hq'
  · rintro c q q' ⟨p, he⟩
    cases he
  · rintro as t ⟨p, a⟩ t' hrun huniq hstep c q q' hq hq'
    rcases sysStep_cases hstep with ⟨pr, eff, hp, hmove, rfl⟩
    rw [Sys.log_apply, served_append] at hq hq'
    -- When it is handed on now, it was only accepted before.
    have hfresh : ∀ r, Served (eff.events t p) c r → ∀ r', ¬ Served t.log c r' := by
      intro r hr r'
      rcases hmove.served hr with ⟨-, l, fd, hloc, hget, -⟩
      rcases placed_accepted ((owns_exec hrun).placed p pr hp) hloc with ⟨k, -, hget', htrail⟩
      have hk : k = c := by simpa [hget'] using hget
      exact not_served_of_trail (hk ▸ htrail)
    rcases hq with hq | hq
    · rcases hq' with hq' | hq'
      · exact huniq c q q' hq hq'
      · exact absurd hq (hfresh q' hq' q)
    · rcases hq' with hq' | hq'
      · exact absurd hq' (hfresh q hq q')
      · rw [(hmove.served hq).1, (hmove.served hq').1]

end Served

/-- A child that has not hung up has its connection open. -/
def Opened (_ : Pid) (pr : Process) : Prop :=
  ∀ fd ch, pr.loc = .processMain fd ch → ch.pc.hungUp = false →
    ∃ c, pr.table.get fd = some (.conn c)

theorem opened_step {s s' : Sys} {a : Pid × Act} (hown : Owns s) (h : s.All Opened)
    (hstep : sysStep s a = some s') : s'.All Opened := by
  rcases a with ⟨p, a⟩
  rcases codeStep_of_sysStep hstep with ⟨pr, eff, hp, hcode, rfl⟩
  refine Sys.children_apply hp hcode ?_ ?_ ?_
  · intro q prq fd c hne hq hloc
    exact h q prq hq fd c hloc
  · rintro l fd rfl hloc -
    rcases placed_accepted (hown.placed p pr hp) hloc with ⟨k, -, hget, -⟩
    exact ⟨k, hget⟩
  · rintro act fd c c' pr' events rfl hloc hone heff hopen
    -- What has not hung up after the step had not before it.
    have hbefore : c.pc.hungUp = false := by
      by_contra hhung
      rw [(hungUp_of_childStep hone (by simpa using hhung)).1] at hopen
      cases hopen
    have hclosed : c'.pc ≠ .closed := by
      rintro hpc
      rw [hpc] at hopen
      cases hopen
    rw [heff.get.2 hclosed]
    exact h p pr hp fd c hloc hbefore

theorem opened_exec {as : List (Pid × Act)} {s : Sys} (h : exec sysStep Sys.init as = some s) :
    s.All Opened := by
  refine (exec_induct (I := fun s => Owns s ∧ s.All Opened) ?_ ⟨owns_init, ?_⟩ h).2
  · rintro s a s' ⟨hown, hopen⟩ hstep
    exact ⟨owns_step hown hstep, opened_step hown hopen hstep⟩
  · intro p pr hp fd c hloc
    rcases Procs.live_single hp with ⟨-, rfl⟩
    cases hloc

/-! ## The bytes on a connection -/

/-- The bytes that a step puts on the connection `c`: what a child with that connection sends. -/
def Sys.puts (s : Sys) (c : Nat) : Pid × Act → List Byte
  | (p, .child a) =>
      match s.procs.proc p with
      | none => []
      | some pr =>
          match Process.loc pr with
          | .processMain fd ch =>
              if pr.table.get fd = some (.conn c) then
                match childStep pr.state.svr ch a with
                | none => []
                | some ch' => ch'.wire.drop ch.wire.length
              else []
          | _ => []
  | _ => []

/-- All that a run puts on the connection `c`. -/
def sentOn (c : Nat) (s : Sys) : List (Pid × Act) → List Byte
  | [] => []
  | a :: as =>
      match sysStep s a with
      | none => []
      | some s' => s.puts c a ++ sentOn c s' as

theorem sentOn_concat {c : Nat} {s t t' : Sys} {as : List (Pid × Act)} {a : Pid × Act}
    (h : exec sysStep s as = some t) (hstep : sysStep t a = some t') :
    sentOn c s (as ++ [a]) = sentOn c s as ++ t.puts c a := by
  induction as generalizing s with
  | nil =>
      have heq : s = t := Option.some.inj h
      subst heq
      simp [sentOn, hstep]
  | cons b as ih =>
      rcases exec_cons_eq_some h with ⟨u, hu, hrest⟩
      simp only [List.cons_append, sentOn, hu]
      rw [ih hrest, List.append_assoc]

section Puts

variable {s : Sys} {p q : Pid} {pr : Process} {c : Nat} {fd : Fd} {ch ch' : Child} {a : ChildAct}

theorem puts_of_not_child {act : Act} (h : ∀ a, act ≠ .child a) : s.puts c (p, act) = [] := by
  cases act with
  | child a => exact absurd rfl (h a)
  | _ => rfl

/-- Nobody but the child it was handed to puts anything on a connection. -/
theorem puts_of_not_served (hown : Owns s) {act : Act} (h : ¬ Served s.log c p) :
    s.puts c (p, act) = [] := by
  cases act with
  | child a =>
      cases hp : s.procs.proc p with
      | none => simp [Sys.puts, hp]
      | some pr =>
          cases hloc : Process.loc pr with
          | processMain fd ch =>
              have hget : pr.table.get fd ≠ some (.conn c) :=
                fun hget => h (hown.served_of_get hp hloc hget)
              simp [Sys.puts, hp, hloc, hget]
          | _ => simp [Sys.puts, hp, hloc]
  | _ => rfl

/-- That child puts on it what it puts on its wire. -/
theorem puts_of_served (hown : Owns s) (hopen : s.All Opened) (hp : s.procs.proc p = some pr)
    (hloc : pr.loc = .processMain fd ch) (hserved : Served s.log c p)
    (hstep : childStep pr.state.svr ch a = some ch') :
    ch'.wire = ch.wire ++ s.puts c (p, .child a) := by
  have hputs : s.puts c (p, .child a) =
      if pr.table.get fd = some (.conn c) then ch'.wire.drop ch.wire.length else [] := by
    simp only [Sys.puts, hp, hloc, hstep]
  rw [hputs]
  rcases wire_of_childStep hstep with hsame | ⟨hhung, -, x, hmore⟩
  · rw [hsame, List.drop_length, ite_self, List.append_nil]
  · -- It has not hung up, and the only connection it ever had is this one.
    rcases hopen p pr hp fd ch hloc hhung with ⟨k, hget⟩
    rcases hserved with ⟨r, he⟩
    have hk : k = c := (hown.child he hp).2 fd k (FdTable.mem_of_get hget)
    rw [hget, hk, if_pos rfl, hmore, List.drop_left]

end Puts

/-- A condition on the steps of children, in the service. -/
def OnChildren (D : Child → ChildAct → Prop) (s : Sys) (a : Pid × Act) : Prop :=
  ∀ (pr : Process) (fd : Fd) (c : Child) (act : ChildAct), s.procs.proc a.1 = some pr →
    pr.loc = .processMain fd c → a.2 = .child act → D c act

/-- A life that a child could have had by itself, with the steps that the process `q` has made: it meets
the condition `D`, and has put on its wire all that was put on the connection `c`. -/
structure Life (D : Child → ChildAct → Prop) (as : List (Pid × Act)) (s : Sys) (c : Nat) (q : Pid)
    (cfg : CommSvrSocket) (ch : Child) : Prop where
  alone : exec (childStep cfg) Child.init (childActs as q) = some ch
  along : Along (childStep cfg) D Child.init (childActs as q)
  sent : sentOn c Sys.init as = ch.wire
  /-- While the process lives, this is its configuration, and its state. -/
  here : ∀ pr : Process, s.procs.proc q = some pr → pr.state.svr = cfg ∧ ∃ fd, pr.loc = .processMain fd ch
  /-- When it does not, a signal has ended it or the child has come to its exit. -/
  gone : s.procs.proc q = none → (q, .die) ∈ as ∨ ch.pc = .exited

/-- What is put on a connection comes from the one child that it was handed to. -/
structure Heard (D : Child → ChildAct → Prop) (as : List (Pid × Act)) (s : Sys) (c : Nat) : Prop where
  silent : (∀ q, ¬ Served s.log c q) → sentOn c Sys.init as = []
  served : ∀ q, Served s.log c q → ∃ cfg ch, Life D as s c q cfg ch

section HeardStep

variable {D : Child → ChildAct → Prop} {as : List (Pid × Act)} {s : Sys} {p q : Pid} {pr : Process}
  {a : Act} {eff : Effect} {c : Nat} {cfg : CommSvrSocket} {ch : Child}

/-- A step of the child itself. -/
theorem Life.own (h : Life D as s c p cfg ch) (hrun : exec sysStep Sys.init as = some s)
    (hp : s.procs.proc p = some pr) (hcode : codeStep s p pr a = some eff)
    (hD : OnChildren D s (p, a)) (hserved : Served s.log c p) :
    ∃ ch', Life D (as ++ [(p, a)]) (s.apply p pr eff) c p cfg ch' := by
  have hown := owns_exec hrun
  have hstep : sysStep s (p, a) = some (s.apply p pr eff) := sysStep_of_codeStep hp hcode
  rcases h.here pr hp with ⟨rfl, fd, hloc⟩
  by_cases hchild : ∃ act, a = .child act
  · rcases hchild with ⟨act, rfl⟩
    rcases childStep_of_codeStep hcode with ⟨fd', ch₀, ch', hloc', hone, heff⟩
    have hsame : fd' = fd ∧ ch₀ = ch := by simpa [hloc'] using hloc
    rcases hsame with ⟨rfl, rfl⟩
    refine ⟨ch', ?_, ?_, ?_, ?_, ?_⟩
    · rw [childActs_concat_self]
      exact exec_concat h.alone hone
    · rw [childActs_concat_self]
      refine along_append h.along fun t ht => ?_
      have heq : ch₀ = t := Option.some.inj (h.alone.symm.trans ht)
      exact heq ▸ ⟨hD pr fd' ch₀ act hp hloc rfl, fun _ _ => trivial⟩
    · rw [sentOn_concat hrun hstep, h.sent,
        puts_of_served hown (opened_exec hrun) hp hloc hserved hone]
    · intro pr' hp'
      refine (Sys.all_apply (P := fun q prq => q = p →
        prq.state.svr = pr.state.svr ∧ ∃ fd, Process.loc prq = .processMain fd ch') hp ?_ ?_) p pr' hp' rfl
      · exact fun q prq hne _ hq => absurd hq hne
      · cases heff with
        | closes hpc => exact fun _ => ⟨rfl, fd', rfl⟩
        | exits hpc => trivial
        | goesOn hclosed hexited => exact fun _ => ⟨rfl, fd', rfl⟩
    · intro hgone
      cases heff with
      | exits hpc => exact Or.inr hpc
      | closes hpc => exact absurd hgone (by simp [Sys.apply, Procs.proc_modify_self hp])
      | goesOn hclosed hexited => exact absurd hgone (by simp [Sys.apply, Procs.proc_modify_self hp])
  · have hnot : ∀ act, a ≠ .child act := fun act hact => hchild ⟨act, hact⟩
    -- In `process_main` there is no other step than the end by a signal.
    obtain ⟨rfl, events, rfl⟩ : a = .die ∧ ∃ events, eff = .exit events :=
      ((move_of_codeStep hcode).exits_or_child hloc).resolve_right hchild
    refine ⟨ch, ?_, ?_, ?_, ?_, ?_⟩
    · rw [childActs_concat_of_not_child hnot]
      exact h.alone
    · rw [childActs_concat_of_not_child hnot]
      exact h.along
    · rw [sentOn_concat hrun hstep, puts_of_not_child hnot, List.append_nil, h.sent]
    · exact fun pr' hp' => absurd rfl (Procs.live_exit hp').1
    · exact fun _ => Or.inl (by simp)

/-- A step of another process. -/
theorem Life.other (h : Life D as s c q cfg ch) (hrun : exec sysStep Sys.init as = some s)
    (hp : s.procs.proc p = some pr) (hcode : codeStep s p pr a = some eff) (hne : p ≠ q)
    (hserved : Served s.log c q) : Life D (as ++ [(p, a)]) (s.apply p pr eff) c q cfg ch := by
  have hown := owns_exec hrun
  have hstep : sysStep s (p, a) = some (s.apply p pr eff) := sysStep_of_codeStep hp hcode
  have hsilent : ¬ Served s.log c p := fun hself => hne (served_unique hrun hself hserved)
  rcases hserved with ⟨r, he⟩
  have hq : (s.apply p pr eff).procs.proc q = s.procs.proc q :=
    Sys.proc_apply_of_ne pr eff (Ne.symm hne) (hown.known _ he q rfl)
  refine ⟨?_, ?_, ?_, ?_, ?_⟩
  · rw [childActs_concat_of_ne hne]
    exact h.alone
  · rw [childActs_concat_of_ne hne]
    exact h.along
  · rw [sentOn_concat hrun hstep, puts_of_not_served hown hsilent, List.append_nil, h.sent]
  · rw [hq]
    exact h.here
  · rw [hq]
    exact fun hgone => (h.gone hgone).imp_left (List.mem_append_left _)

/-- The step that hands the connection on. -/
theorem Life.born (hrun : exec sysStep Sys.init as = some s) (hp : s.procs.proc p = some pr)
    (hcode : codeStep s p pr a = some eff) (hsilent : sentOn c Sys.init as = [])
    (hnone : ∀ r, ¬ Served s.log c r) (hserved : Served (eff.events s p) c q) :
    Life D (as ++ [(p, a)]) (s.apply p pr eff) c q pr.state.svr Child.init := by
  have hown := owns_exec hrun
  have hstep : sysStep s (p, a) = some (s.apply p pr eff) := sysStep_of_codeStep hp hcode
  rcases (move_of_codeStep hcode).served hserved with ⟨rfl, l, fd, hloc, hget, heff⟩
  have hborn : (s.apply p pr eff).procs.proc s.procs.next =
      some (Procs.childOf p pr { pr.state with loc := .processMain fd Child.init }) :=
    heff ▸ Sys.proc_apply_fork hp _ _ _
  have hacts : childActs (as ++ [(p, a)]) s.procs.next = [] := by
    rw [childActs_concat_of_ne (Procs.ne_next hp), childActs_unborn hrun (Nat.le_refl _)]
  refine ⟨?_, ?_, ?_, ?_, ?_⟩
  · rw [hacts]
    rfl
  · rw [hacts]
    trivial
  · rw [sentOn_concat hrun hstep, puts_of_not_served hown (hnone p), hsilent]
    rfl
  · intro prq hq
    rw [hborn] at hq
    cases hq
    exact ⟨rfl, fd, rfl⟩
  · rw [hborn]
    intro hgone
    cases hgone

theorem heard_step (h : Heard D as s c) (hrun : exec sysStep Sys.init as = some s)
    (hp : s.procs.proc p = some pr) (hcode : codeStep s p pr a = some eff)
    (hD : Served s.log c p → OnChildren D s (p, a)) :
    Heard D (as ++ [(p, a)]) (s.apply p pr eff) c := by
  have hown := owns_exec hrun
  have hstep : sysStep s (p, a) = some (s.apply p pr eff) := sysStep_of_codeStep hp hcode
  constructor
  · intro hnone
    rw [Sys.log_apply] at hnone
    have hbefore : ∀ q, ¬ Served s.log c q := fun q hq => hnone q (served_append.2 (Or.inl hq))
    rw [sentOn_concat hrun hstep, h.silent hbefore, puts_of_not_served hown (hbefore p)]
    rfl
  · intro q hq
    rw [Sys.log_apply, served_append] at hq
    by_cases hold : Served s.log c q
    · rcases h.served q hold with ⟨cfg, ch, hlife⟩
      by_cases hne : p = q
      · subst hne
        rcases hlife.own hrun hp hcode (hD hold) hold with ⟨ch', hlife'⟩
        exact ⟨cfg, ch', hlife'⟩
      · exact ⟨cfg, ch, hlife.other hrun hp hcode hne hold⟩
    · -- It is handed on by this step, so it was not before.
      have hnew : Served (eff.events s p) c q := hq.resolve_left hold
      have hnone : ∀ r, ¬ Served s.log c r := by
        rcases (move_of_codeStep hcode).served hnew with ⟨-, l, fd, hloc, hget, -⟩
        rcases placed_accepted (hown.placed p pr hp) hloc with ⟨k, -, hget', htrail⟩
        have hk : k = c := by simpa [hget'] using hget
        exact fun r => not_served_of_trail (hk ▸ htrail)
      exact ⟨_, _, Life.born hrun hp hcode (h.silent hnone) hnone hnew⟩

end HeardStep

/-- The condition is asked of the child of the connection only. -/
theorem heard_exec_of_served {D : Child → ChildAct → Prop} {as : List (Pid × Act)} {s : Sys} {c : Nat}
    (h : exec sysStep Sys.init as = some s)
    (hD : Along sysStep (fun s a => Served s.log c a.1 → OnChildren D s a) Sys.init as) :
    Heard D as s c := by
  refine exec_induct_run (I := fun as s =>
    Along sysStep (fun s a => Served s.log c a.1 → OnChildren D s a) Sys.init as → Heard D as s c)
    ?_ ?_ h hD
  · intro _
    refine ⟨fun _ => rfl, ?_⟩
    rintro q ⟨p, he⟩
    cases he
  · rintro as t ⟨p, a⟩ t' hrun hheard hstep hD
    rcases along_concat hD hrun with ⟨hD, hlast⟩
    rcases codeStep_of_sysStep hstep with ⟨pr, eff, hp, hcode, rfl⟩
    exact heard_step (hheard hD) hrun hp hcode hlast

theorem heard_exec {D : Child → ChildAct → Prop} {as : List (Pid × Act)} {s : Sys}
    (h : exec sysStep Sys.init as = some s) (hD : Along sysStep (OnChildren D) Sys.init as) (c : Nat) :
    Heard D as s c :=
  heard_exec_of_served h (along_mono (fun _ _ hone _ => hone) hD)

/-! ## Isolation -/

/-- The children of a run, and what the run has put on each connection. -/
structure Isolated (as : List (Pid × Act)) (s : Sys) : Prop where
  /-- Each child is where its own actions alone lead a child with its configuration. -/
  alone : ∀ (q : Pid) (pr : Process) (fd : Fd) (ch : Child), s.procs.proc q = some pr →
    pr.loc = .processMain fd ch →
    exec (childStep pr.state.svr) Child.init (childActs as q) = some ch
  /-- What was put on a connection is what one child that it was handed to sends by itself, whether it
  lives or not, -/
  heard : ∀ c q, Served s.log c q → ∃ cfg ch,
    exec (childStep cfg) Child.init (childActs as q) = some ch ∧ sentOn c Sys.init as = ch.wire
  /-- of which there is not more than one; -/
  unique : ∀ c q q', Served s.log c q → Served s.log c q' → q = q'
  /-- and nothing is put on any other connection. -/
  silent : ∀ c, (∀ q, ¬ Served s.log c q) → sentOn c Sys.init as = []

/-- However the steps of the service are interleaved, its children do not disturb each other. -/
theorem isolation {as : List (Pid × Act)} {s : Sys} (h : exec sysStep Sys.init as = some s) :
    Isolated as s := by
  have hheard : ∀ c, Heard (fun _ _ => True) as s c :=
    heard_exec h (along_of_forall_mem (fun _ _ _ _ _ _ _ _ _ _ => trivial) _)
  constructor
  · intro q pr fd ch hq hloc
    exact alone_exec h q pr hq fd ch hloc
  · intro c q hq
    rcases (hheard c).served q hq with ⟨cfg, ch, hlife⟩
    exact ⟨cfg, ch, hlife.alone, hlife.sent⟩
  · intro c q q' hq hq'
    exact served_unique h hq hq'
  · exact fun c => (hheard c).silent

/-- Two clients at once: the request `1$A$b` of the first is answered with `B`, and the second sends
none. -/
def crossedRun : List (Pid × Act) :=
  servedRun ++
    [(1, .select 1), (1, .accept (some 4)), (1, .fork true),
     (2, .child (.localPort true)), (3, .child (.localPort true)), (2, .child .go), (3, .child .go),
     (3, .child (.enter .clear (.value 87380) [])),
     (2, .child (.enter .clear (.value 87380) [0x31, dollar, 0x41, dollar, 0x62])),
     (2, .child (.recv ⟨[.event true (.value 5)], .data 5⟩)), (3, .child .sigalrm), (3, .child .go),
     (2, .child (.recv ⟨[.expired], .data 0⟩)), (3, .child (.send (.accepted 2))), (2, .child .go),
     (2, .child (.tux (.returning 0 1 [0x42]))), (1, .close), (2, .child .go),
     (2, .child (.send (.accepted 3))), (3, .child (.send (.accepted 1))),
     (2, .child (.send (.accepted 3)))]

/-- Each client gets the bytes of its own child. -/
theorem isolation_sample : ∃ s, exec sysStep Sys.init crossedRun = some s ∧ Isolated crossedRun s ∧
    sentOn 1 Sys.init crossedRun = ascii "0$A$B" ∧
    sentOn 4 Sys.init crossedRun = timeoutMessage.text := by
  have hrun : (exec sysStep Sys.init crossedRun).isSome = true := by decide +kernel
  rcases Option.isSome_iff_exists.1 hrun with ⟨s, hs⟩
  exact ⟨s, hs, isolation hs, by decide +kernel, by decide +kernel⟩

/-- On no connection of the service are there bytes of two responses, as long as every alarm strikes a
child inside `process_main` that has sent nothing. -/
theorem service_one_response {as : List (Pid × Act)} {s : Sys}
    (h : exec sysStep Sys.init as = some s)
    (hC : Along sysStep (OnChildren BeforeOutput) Sys.init as) (c : Nat) :
    ∃ ch : Child, ch.OneResponse ∧ sentOn c Sys.init as = ch.wire ∧
      ∀ q, Served s.log c q → ∃ cfg, exec (childStep cfg) Child.init (childActs as q) = some ch := by
  have hheard := heard_exec h hC c
  by_cases hserved : ∃ q, Served s.log c q
  · rcases hserved with ⟨q, hq⟩
    rcases hheard.served q hq with ⟨cfg, ch, hlife⟩
    refine ⟨ch, one_response cfg hlife.along hlife.alone, hlife.sent, ?_⟩
    intro q' hq'
    rw [← served_unique h hq hq']
    exact ⟨cfg, hlife.alone⟩
  · have hnone : ∀ q, ¬ Served s.log c q := fun q hq => hserved ⟨q, hq⟩
    exact ⟨Child.init, oneResponse_of_nil rfl, hheard.silent hnone,
      fun q hq => absurd hq (hnone q)⟩

theorem beforeOutput_of_quiet {as : List (Pid × Act)} (h : ∀ a ∈ as, a.2 ≠ .child .sigalrm)
    (s : Sys) : Along sysStep (OnChildren BeforeOutput) s as := by
  refine along_of_forall_mem (fun a ha t pr fd ch act _ _ hact halarm => ?_) s
  exact absurd (halarm ▸ hact) (h a ha)

/-- The child of `servedRun` waits for its request. -/
def waitingRun : List (Pid × Act) :=
  servedRun ++
    [(2, .child (.localPort true)), (2, .child .go), (2, .child (.enter .clear (.value 87380) []))]

/-- The timeout response goes out in two parts. -/
def timeoutActs : List (Pid × Act) :=
  [(2, .child .go), (2, .child (.send (.accepted 2))), (2, .child (.send (.accepted 1)))]

/-- The alarm strikes while the child waits. -/
theorem service_one_response_sample :
    ∃ ch : Child, ch.OneResponse ∧ ch.wire = timeoutMessage.text ∧
      sentOn 1 Sys.init (waitingRun ++ (2, .child .sigalrm) :: timeoutActs) = ch.wire := by
  have hrun : (exec sysStep Sys.init (waitingRun ++ (2, .child .sigalrm) :: timeoutActs)).isSome =
      true := by
    decide +kernel
  have hbytes : sentOn 1 Sys.init (waitingRun ++ (2, .child .sigalrm) :: timeoutActs) =
      timeoutMessage.text := by
    decide +kernel
  have hC : Along sysStep (OnChildren BeforeOutput) Sys.init
      (waitingRun ++ (2, .child .sigalrm) :: timeoutActs) := by
    apply along_append
    · exact beforeOutput_of_quiet (by simp [waitingRun, servedRun]) _
    · intro t ht
      refine ⟨fun pr fd ch act hp hloc _ _ => ?_, fun t' _ => ?_⟩
      · have hstate := Option.some.inj ht
        subst hstate
        have hpr := Option.some.inj hp
        subst hpr
        cases hloc
        exact ⟨rfl, rfl⟩
      · exact beforeOutput_of_quiet (by simp [timeoutActs]) _
  rcases Option.isSome_iff_exists.1 hrun with ⟨s, hs⟩
  rcases service_one_response hs hC 1 with ⟨ch, hone, hsent, -⟩
  exact ⟨ch, hone, hsent.symm.trans hbytes, hsent⟩

end CommServer
