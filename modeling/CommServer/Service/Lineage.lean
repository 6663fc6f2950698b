import CommServer.Src.MainSpec

/-!
# Lineage — supervisor, server and children

A process stays in its part of the program (`Move.keepsRole`).  There is one supervisor, and never
more than one server: the supervisor forks one when it starts, and one more for each that it has
waited for.

* `Lineage`      : the invariant;
* `lineage_init` : the service begins in it;
* `lineage_step` : and no step leaves it.
-/

namespace CommServer

open Unix Transition

/-! ## Roles -/

/-- The three parts of the program. -/
inductive Role
  /-- `main`. -/
  | supervisor
  /-- `do_process` and `parent_proc`. -/
  | server
  /-- The child of `fork_proc`. -/
  | child
  deriving DecidableEq, Repr

def Loc.role : Loc → Role
  | .started | .polling | .reaped | .sleeping => .supervisor
  | .processMain _ _ => .child
  | _ => .server

/-- `main` is about to fork a server. -/
def Loc.forking : Loc → Bool
  | .started | .reaped => true
  | _ => false

theorem Loc.role_of_forking {l : Loc} (h : l.forking = true) : l.role = .supervisor := by
  cases l with
  | started => rfl
  | reaped => rfl
  | _ => cases h

namespace Process

def role (pr : Process) : Role :=
  pr.loc.role

@[simp] theorem loc_goto (pr : Process) (l : Loc) : (pr.goto l).loc = l := rfl
@[simp] theorem parent_goto (pr : Process) (l : Loc) : (pr.goto l).parent = pr.parent := rfl
@[simp] theorem parent_withTable (pr : Process) (t : FdTable Sock) :
    (pr.withTable t).parent = pr.parent := rfl

end Process

/-- What a step does to the roles: a process keeps its own, `main` forks a server, `parent_proc` forks
a child. -/
def Effect.KeepsRole (s : Sys) (p : Pid) (pr : Process) : Effect → Prop
  | .goOn pr' _ => pr'.role = pr.role ∧ pr'.parent = pr.parent ∧ pr'.loc.forking = false
  | .fork _ here there =>
      here.role = pr.role ∧ here.forking = false ∧ there.forking = false ∧
        ((pr.loc.forking = true ∧ there.role = .server) ∨
          (pr.role = .server ∧ there.role = .child))
  | .reap q => pr.loc = .polling ∧ (q, p) ∈ s.procs.zombies
  | .exit _ => True

theorem Move.keepsRole {s : Sys} {p : Pid} {pr : Process} {a : Act} {eff : Effect}
    (h : Move s p pr a eff) : eff.KeepsRole s p pr := by
  cases h with
  | forkServer h =>
      rcases h with h | h
      · simp [Effect.KeepsRole, Process.role, h, Loc.role, Loc.forking]
      · simp [Effect.KeepsRole, Process.role, h, Loc.role, Loc.forking]
  -- `do_process` keeps its place in the family, whatever the configuration says.
  | config svr h =>
      have hrole : pr.role = .server := congrArg Loc.role h
      exact ⟨hrole.symm, rfl, rfl⟩
  | reap q h hq => exact ⟨h, hq⟩
  | die => trivial
  | forkFails h => trivial
  | configFails h => trivial
  | socketFails h => trivial
  | bindRefused fd h => trivial
  | listenRefused fd h => trivial
  | childExits fd c a h => trivial
  | _ => simp [Effect.KeepsRole, Process.role, Loc.role, Loc.forking, *]

/-! ## The invariant -/

/-- The process `p` lives as a server. -/
def Sys.IsServer (s : Sys) (p : Pid) : Prop :=
  ∃ pr : Process, s.procs.proc p = some pr ∧ pr.role = .server

/-- The dead processes that the supervisor will wait for. -/
def Sys.awaited (s : Sys) : List (Pid × Pid) :=
  s.procs.zombies.filter fun z => z.2 = 0

structure Lineage (s : Sys) : Prop where
  supervisor : s.All fun p pr => pr.role = .supervisor ↔ p = 0
  /-- Only servers are children of the supervisor. -/
  parent : s.All fun _ pr => pr.parent = some 0 → pr.role = .server
  unique : ∀ p q, s.IsServer p → s.IsServer q → p = q
  /-- No server lives while the supervisor has one to wait for, -/
  idle : ∀ p, s.IsServer p → s.awaited = []
  single : s.awaited.length ≤ 1
  /-- or while it is about to fork one. -/
  vacant : s.All fun _ pr => pr.loc.forking = true → s.awaited = [] ∧ ∀ q, ¬ s.IsServer q

section Step

variable {s : Sys} {p : Pid} {pr : Process} {a : Act} {eff : Effect}

/-- Who is a server after a step: one that was, or the child of a `fork` in `main`. -/
theorem isServer_apply (hp : s.procs.proc p = some pr) (hmove : eff.KeepsRole s p pr) {q : Pid}
    (hq : (s.apply p pr eff).IsServer q) :
    s.IsServer q ∨ (q = s.procs.next ∧ pr.loc.forking = true) := by
  rcases hq with ⟨prq, hlive, hrole⟩
  have hall : (s.apply p pr eff).All fun q prq =>
      prq.role = .server → s.IsServer q ∨ (q = s.procs.next ∧ pr.loc.forking = true) := by
    refine Sys.all_apply hp ?_ ?_
    · intro q prq _ hold hserver
      exact Or.inl ⟨prq, hold, hserver⟩
    · cases eff with
      | goOn pr' events =>
          intro hserver
          exact Or.inl ⟨pr, hp, hmove.1 ▸ hserver⟩
      | fork handed here there =>
          rcases hmove with ⟨hhere, -, -, hthere⟩
          refine ⟨fun hserver => Or.inl ⟨pr, hp, hhere ▸ hserver⟩, ?_⟩
          intro hserver
          rcases hthere with ⟨hforking, -⟩ | ⟨-, hchild⟩
          · exact Or.inr ⟨rfl, hforking⟩
          · have hthere' : there.role = .server := hserver
            rw [hchild] at hthere'
            cases hthere'
      | reap z =>
          intro hserver
          cases hserver
      | exit events => trivial
  exact hall q prq hlive hrole

/-- A process that is about to fork a server after a step was so before, unless it has just waited for
one. -/
theorem forking_apply (hp : s.procs.proc p = some pr) (hmove : eff.KeepsRole s p pr)
    (hreap : ∀ z, eff ≠ .reap z) :
    (s.apply p pr eff).All fun q prq =>
      prq.loc.forking = true → q ≠ p ∧ s.procs.proc q = some prq := by
  refine Sys.all_apply hp ?_ ?_
  · intro q prq hne hold _
    exact ⟨hne, hold⟩
  · cases eff with
    | goOn pr' events =>
        intro hforking
        rw [hmove.2.2] at hforking
        cases hforking
    | fork handed here there =>
        rcases hmove with ⟨-, hhere, hthere, -⟩
        constructor
        · intro hforking
          have hforking' : here.forking = true := hforking
          rw [hhere] at hforking'
          cases hforking'
        · intro hforking
          have hforking' : there.forking = true := hforking
          rw [hthere] at hforking'
          cases hforking'
    | reap z => exact absurd rfl (hreap z)
    | exit events => trivial

/-- What the supervisor has to wait for after an exit: as before, or one server more. -/
theorem awaited_exit (s : Sys) (p : Pid) (pr : Process) (events : List Event) :
    (s.apply p pr (.exit events)).awaited = s.awaited ∨
      (pr.parent = some 0 ∧ (s.apply p pr (.exit events)).awaited = s.awaited ++ [(p, 0)]) := by
  cases htold : s.procs.toldOf pr with
  | none => exact Or.inl (by simp [Sys.awaited, Sys.apply, Procs.exit, htold])
  | some q =>
      -- Only a dead child of the supervisor, the process 0, is one more to wait for.
      by_cases hq : q = 0
      · subst hq
        right
        refine ⟨Procs.parent_of_toldOf htold, ?_⟩
        simp [Sys.awaited, Sys.apply, Procs.exit, htold]
      · left
        simp [Sys.awaited, Sys.apply, Procs.exit, htold, hq]

theorem awaited_reap (z : Pid) :
    (s.apply 0 pr (.reap z)).awaited = s.awaited.erase (z, 0) :=
  List.erase_filter.symm

theorem supervisor_step (h : Lineage s) (hp : s.procs.proc p = some pr) (hmove : eff.KeepsRole s p pr) :
    (s.apply p pr eff).All fun q prq => prq.role = .supervisor ↔ q = 0 := by
  refine Sys.all_apply hp (fun q prq _ hold => h.supervisor q prq hold) ?_
  have hself := h.supervisor p pr hp
  cases eff with
  | goOn pr' events =>
      have hsame : pr'.role = pr.role := hmove.1
      show pr'.role = .supervisor ↔ p = 0
      rw [hsame]
      exact hself
  | fork handed here there =>
      rcases hmove with ⟨hhere, -, -, hthere⟩
      have hself' : here.role = .supervisor ↔ p = 0 := by
        rw [hhere]
        exact hself
      refine ⟨hself', ?_⟩
      -- The child gets a new number, and the supervisor has the number 0.
      have hnext : s.procs.next ≠ 0 := Nat.ne_of_gt (Nat.zero_lt_of_lt (Procs.lt_next hp))
      have hrole : there.role ≠ .supervisor := by
        rcases hthere with ⟨-, hserver⟩ | ⟨-, hchild⟩
        · simp [hserver]
        · simp [hchild]
      exact ⟨fun hsup => absurd hsup hrole, fun hzero => absurd hzero hnext⟩
  | reap z =>
      have hrole : pr.role = .supervisor := congrArg Loc.role hmove.1
      exact ⟨fun _ => hself.1 hrole, fun _ => rfl⟩
  | exit events => trivial

theorem parent_step (h : Lineage s) (hp : s.procs.proc p = some pr) (hmove : eff.KeepsRole s p pr) :
    (s.apply p pr eff).All fun _ prq => prq.parent = some 0 → prq.role = .server := by
  refine Sys.all_apply hp (fun q prq _ hold => h.parent q prq hold) ?_
  have hself := h.parent p pr hp
  cases eff with
  | goOn pr' events =>
      intro hparent
      exact hmove.1.trans (hself (hmove.2.1 ▸ hparent))
  | fork handed here there =>
      rcases hmove with ⟨hhere, -, -, hthere⟩
      refine ⟨fun hparent => hhere.trans (hself hparent), ?_⟩
      intro hparent
      rcases hthere with ⟨-, hserver⟩ | ⟨hserver, -⟩
      · exact hserver
      · -- Only the supervisor is the process 0, and it does not call `fork_proc`.
        have hzero : p = 0 := Option.some.inj hparent
        have hsup := (h.supervisor p pr hp).2 hzero
        rw [hserver] at hsup
        cases hsup
  | reap z =>
      intro hparent
      have hsup : pr.role = .supervisor := congrArg Loc.role hmove.1
      have hserver := hself hparent
      rw [hsup] at hserver
      cases hserver
  | exit events => trivial

theorem unique_step (h : Lineage s) (hp : s.procs.proc p = some pr) (hmove : eff.KeepsRole s p pr)
    {q r : Pid} (hq : (s.apply p pr eff).IsServer q) (hr : (s.apply p pr eff).IsServer r) : q = r := by
  -- Two old servers are one; a new one is forked only when there is none.
  rcases isServer_apply hp hmove hq with hq | ⟨hq, hforking⟩
  · rcases isServer_apply hp hmove hr with hr | ⟨-, hforking⟩
    · exact h.unique q r hq hr
    · exact absurd hq ((h.vacant p pr hp hforking).2 q)
  · rcases isServer_apply hp hmove hr with hr | ⟨hr, -⟩
    · exact absurd hr ((h.vacant p pr hp hforking).2 r)
    · rw [hq, hr]

/-- While a server lives, or the supervisor is about to fork one, nobody is waited for. -/
theorem awaited_of_isServer (h : Lineage s) (hp : s.procs.proc p = some pr) {q : Pid}
    (hq : s.IsServer q ∨ (q = s.procs.next ∧ pr.loc.forking = true)) : s.awaited = [] := by
  rcases hq with hq | ⟨-, hforking⟩
  · exact h.idle q hq
  · exact (h.vacant p pr hp hforking).1

theorem idle_step (h : Lineage s) (hp : s.procs.proc p = some pr) (hmove : eff.KeepsRole s p pr)
    {q : Pid} (hq : (s.apply p pr eff).IsServer q) : (s.apply p pr eff).awaited = [] := by
  have hbefore := isServer_apply hp hmove hq
  have hnil := awaited_of_isServer h hp hbefore
  cases eff with
  | goOn pr' events => exact hnil
  | fork handed here there => exact hnil
  | reap z =>
      have hzero : p = 0 := (h.supervisor p pr hp).1 (congrArg Loc.role hmove.1)
      subst hzero
      rw [awaited_reap, hnil]
      rfl
  | exit events =>
      rcases awaited_exit s p pr events with hsame | ⟨hparent, -⟩
      · rw [hsame, hnil]
      · -- The process that ends would be the server, and not `q`.
        have hserver : s.IsServer p := ⟨pr, hp, h.parent p pr hp hparent⟩
        rcases hq with ⟨prq, hlive, -⟩
        have hne : q ≠ p := (Procs.live_exit hlive).1
        rcases hbefore with hold | ⟨-, hforking⟩
        · exact absurd (h.unique q p hold hserver) hne
        · exact absurd hserver ((h.vacant p pr hp hforking).2 p)

theorem single_step (h : Lineage s) (hp : s.procs.proc p = some pr) (hmove : eff.KeepsRole s p pr) :
    (s.apply p pr eff).awaited.length ≤ 1 := by
  cases eff with
  | goOn pr' events => exact h.single
  | fork handed here there => exact h.single
  | reap z =>
      have hzero : p = 0 := (h.supervisor p pr hp).1 (congrArg Loc.role hmove.1)
      subst hzero
      rw [awaited_reap]
      exact (List.erase_sublist.length_le).trans h.single
  | exit events =>
      rcases awaited_exit s p pr events with hsame | ⟨hparent, hmore⟩
      · rw [hsame]
        exact h.single
      · -- A server lived until now, so nobody was waited for yet.
        have hnil : s.awaited = [] := h.idle p ⟨pr, hp, h.parent p pr hp hparent⟩
        rw [hmore, hnil]
        exact Nat.le_refl 1

theorem vacant_reap (h : Lineage s) {z : Pid} (hp : s.procs.proc p = some pr)
    (hmove : (Effect.reap z).KeepsRole s p pr) :
    (s.apply p pr (.reap z)).awaited = [] ∧ ∀ q, ¬ (s.apply p pr (.reap z)).IsServer q := by
  have hloc := hmove.1
  have hzero : p = 0 := (h.supervisor p pr hp).1 (congrArg Loc.role hloc)
  subst hzero
  have hmem : (z, 0) ∈ s.awaited := List.mem_filter.2 ⟨hmove.2, by simp⟩
  constructor
  · rw [awaited_reap]
    apply List.eq_nil_of_length_eq_zero
    have hlen := List.length_erase_of_mem hmem
    have hsingle := h.single
    omega
  · intro q hq
    -- There was a dead server to wait for, so there is none that lives.
    rcases isServer_apply hp hmove hq with hold | ⟨-, hforking⟩
    · rw [h.idle q hold] at hmem
      cases hmem
    · rw [hloc] at hforking
      cases hforking

theorem vacant_step (h : Lineage s) (hp : s.procs.proc p = some pr) (hmove : eff.KeepsRole s p pr) :
    (s.apply p pr eff).All fun _ prq =>
      prq.loc.forking = true →
        (s.apply p pr eff).awaited = [] ∧ ∀ r, ¬ (s.apply p pr eff).IsServer r := by
  -- Only `waitpid` brings the supervisor to a `fork`; else it stood there before, and did not move.
  by_cases hreap : ∃ z, eff = .reap z
  · rcases hreap with ⟨z, rfl⟩
    intro q prq _ _
    exact vacant_reap h hp hmove
  · intro q prq hlive hforking
    have hnot : ∀ z, eff ≠ .reap z := fun z hz => hreap ⟨z, hz⟩
    rcases forking_apply hp hmove hnot q prq hlive hforking with ⟨hne, hold⟩
    rcases h.vacant q prq hold hforking with ⟨hnil, hnone⟩
    have hq : q = 0 := (h.supervisor q prq hold).1 (Loc.role_of_forking hforking)
    constructor
    · cases eff with
      | goOn pr' events => exact hnil
      | fork handed here there => exact hnil
      | reap z => exact absurd rfl (hnot z)
      | exit events =>
          rcases awaited_exit s p pr events with hsame | ⟨hparent, -⟩
          · rw [hsame, hnil]
          · exact absurd ⟨pr, hp, h.parent p pr hp hparent⟩ (hnone p)
    · intro r hr
      rcases isServer_apply hp hmove hr with hr | ⟨-, hforking'⟩
      · exact hnone r hr
      · -- There is only one supervisor.
        have hp0 : p = 0 := (h.supervisor p pr hp).1 (Loc.role_of_forking hforking')
        exact hne (hq.trans hp0.symm)

end Step

/-! ## Runs -/

theorem lineage_init : Lineage Sys.init := by
  have hlive : ∀ (p : Pid) (pr : Process), Sys.init.procs.proc p = some pr →
      p = 0 ∧ pr.role = .supervisor ∧ pr.parent = none := by
    intro p pr h
    rcases Procs.live_single h with ⟨rfl, rfl⟩
    exact ⟨rfl, rfl, rfl⟩
  have hnone : ∀ q, ¬ Sys.init.IsServer q := by
    rintro q ⟨pr, h, hrole⟩
    rw [(hlive q pr h).2.1] at hrole
    cases hrole
  constructor
  · intro p pr h
    exact ⟨fun _ => (hlive p pr h).1, fun _ => (hlive p pr h).2.1⟩
  · intro p pr h hparent
    rw [(hlive p pr h).2.2] at hparent
    cases hparent
  · intro p q hp _
    exact absurd hp (hnone p)
  · intro p hp
    exact absurd hp (hnone p)
  · exact Nat.zero_le 1
  · intro p pr _ _
    exact ⟨rfl, hnone⟩

theorem lineage_step {s s' : Sys} {a : Pid × Act} (h : Lineage s) (hstep : sysStep s a = some s') :
    Lineage s' := by
  rcases a with ⟨p, act⟩
  rcases sysStep_cases hstep with ⟨pr, eff, hp, hmove, rfl⟩
  have hrole := hmove.keepsRole
  exact
    { supervisor := supervisor_step h hp hrole
      parent := parent_step h hp hrole
      unique := fun _ _ => unique_step h hp hrole
      idle := fun _ => idle_step h hp hrole
      single := single_step h hp hrole
      vacant := vacant_step h hp hrole }

end CommServer
