import CommServer.Unix.Descriptors
import Mathlib.Logic.Function.Basic

/-!
# Processes — the process table of a Unix kernel

Processes with a program state of any type `L` and descriptors of any objects `O`: `fork` copies a
process with its descriptor table, an exit closes all its descriptors, and leaves a zombie behind if
the parent still lives and has not declared that it ignores its children.

Process numbers are not used again, and the numbers that are not used yet are known: both are part of
the type.

* `modify`, `fork`, `exit`, `reap` : the operations;
* `any`                            : whether some live process has a property, as a computation.
-/

namespace CommServer
namespace Unix

abbrev Pid := Nat

structure Proc (L O : Type) where
  parent : Option Pid
  /-- `SIGCHLD` is ignored. -/
  ignoresChild : Bool
  state : L
  table : FdTable O

structure Procs (L O : Type) where
  /-- The live processes. -/
  proc : Pid → Option (Proc L O)
  next : Pid
  fresh : ∀ p, next ≤ p → proc p = none
  /-- The dead processes that their parent has not waited for, each with its parent. -/
  zombies : List (Pid × Pid)

namespace Procs

variable {L O : Type}

/-- A single process, the number 0. -/
def single (pr : Proc L O) : Procs L O where
  proc p := if p = 0 then some pr else none
  next := 1
  fresh := by
    intro p hp
    have hne : p ≠ 0 := Nat.ne_of_gt (Nat.lt_of_succ_le hp)
    simp [hne]
  zombies := []

/-- A process goes on. -/
def modify (t : Procs L O) (p : Pid) (f : Proc L O → Proc L O) : Procs L O where
  proc q := if q = p then (t.proc q).map f else t.proc q
  next := t.next
  fresh := by
    intro q hq
    simp [t.fresh q hq]
  zombies := t.zombies

/-- The copy that `fork` makes of a process. -/
def childOf (p : Pid) (pr : Proc L O) (l : L) : Proc L O :=
  { pr with
    parent := some p
    state := l }

/-- `fork()` in a process `p`: its copy `pr` goes on in the state `l`. -/
def fork (t : Procs L O) (p : Pid) (pr : Proc L O) (l : L) : Procs L O where
  proc q := if q = t.next then some (childOf p pr l) else t.proc q
  next := t.next + 1
  fresh := by
    intro q hq
    have hne : q ≠ t.next := Nat.ne_of_gt (Nat.lt_of_succ_le hq)
    have hold : t.next ≤ q := Nat.le_of_succ_le hq
    simp [hne, t.fresh q hold]
  zombies := t.zombies

/-- The parent of a process that is to be told of its end. -/
def toldOf (t : Procs L O) (pr : Proc L O) : Option Pid :=
  match pr.parent with
  | none => none
  | some q =>
      match t.proc q with
      | none => none
      -- A parent that ignores `SIGCHLD` gets no zombies.
      | some parent => if parent.ignoresChild then none else some q

/-- The end of a process. -/
def exit (t : Procs L O) (p : Pid) (pr : Proc L O) : Procs L O where
  proc q := if q = p then none else t.proc q
  next := t.next
  fresh := by
    intro q hq
    simp [t.fresh q hq]
  zombies :=
    match t.toldOf pr with
    | none => t.zombies
    | some q => t.zombies ++ [(p, q)]

/-- `waitpid` returns the zombie `q` to its parent `p`. -/
def reap (t : Procs L O) (q p : Pid) : Procs L O :=
  { t with zombies := t.zombies.erase (q, p) }

/-- Some live process has the property `P`. -/
def any (t : Procs L O) (P : Proc L O → Bool) : Bool :=
  (List.range t.next).any fun p => ((t.proc p).map P).getD false

/-! ## Who lives after an operation -/

variable {t : Procs L O} {p q : Pid} {pr pr' : Proc L O} {l : L} {f : Proc L O → Proc L O}

theorem lt_next (h : t.proc p = some pr) : p < t.next := by
  by_contra hlt
  have hnone : t.proc p = none := t.fresh p (Nat.le_of_not_lt hlt)
  rw [hnone] at h
  cases h

theorem ne_next (h : t.proc p = some pr) : p ≠ t.next :=
  Nat.ne_of_lt (lt_next h)

theorem live_single (h : (single pr).proc q = some pr') : q = 0 ∧ pr' = pr := by
  by_cases hq : q = 0
  · subst hq
    exact ⟨rfl, (Option.some.inj h).symm⟩
  · simp [single, hq] at h

theorem proc_modify_self (h : t.proc p = some pr) : (t.modify p f).proc p = some (f pr) := by
  simp [modify, h]

theorem proc_modify_of_ne (h : q ≠ p) : (t.modify p f).proc q = t.proc q := by
  simp [modify, h]

/-- After a process has gone on: it, or another one as it was. -/
theorem live_modify (hp : t.proc p = some pr) (h : (t.modify p f).proc q = some pr') :
    (q = p ∧ pr' = f pr) ∨ (q ≠ p ∧ t.proc q = some pr') := by
  by_cases hq : q = p
  · subst hq
    rw [proc_modify_self hp] at h
    exact Or.inl ⟨rfl, (Option.some.inj h).symm⟩
  · rw [proc_modify_of_ne hq] at h
    exact Or.inr ⟨hq, h⟩

theorem proc_fork_self : (t.fork p pr l).proc t.next = some (childOf p pr l) := by
  simp [fork]

theorem proc_fork_of_ne (h : q ≠ t.next) : (t.fork p pr l).proc q = t.proc q := by
  simp [fork, h]

/-- After a fork: the child, or another process as it was. -/
theorem live_fork (h : (t.fork p pr l).proc q = some pr') :
    (q = t.next ∧ pr' = childOf p pr l) ∨ t.proc q = some pr' := by
  by_cases hq : q = t.next
  · subst hq
    rw [proc_fork_self] at h
    exact Or.inl ⟨rfl, (Option.some.inj h).symm⟩
  · rw [proc_fork_of_ne hq] at h
    exact Or.inr h

theorem proc_exit_of_ne (h : q ≠ p) : (t.exit p pr).proc q = t.proc q := by
  simp [exit, h]

/-- After an exit: another process as it was. -/
theorem live_exit (h : (t.exit p pr).proc q = some pr') : q ≠ p ∧ t.proc q = some pr' := by
  by_cases hq : q = p
  · simp [exit, hq] at h
  · simp only [exit, if_neg hq] at h
    exact ⟨hq, h⟩

/-- Only a parent is told of an end. -/
theorem parent_of_toldOf (h : t.toldOf pr = some q) : pr.parent = some q := by
  unfold toldOf at h
  split at h
  case h_1 => cases h
  case h_2 q' hparent =>
    split at h
    case h_1 => cases h
    case h_2 =>
      split at h
      · cases h
      · rw [hparent, Option.some.inj h]

/-- And only one that lives and does not ignore its children. -/
theorem listens_of_toldOf (h : t.toldOf pr = some q) :
    ∃ prq, pr.parent = some q ∧ t.proc q = some prq ∧ prq.ignoresChild = false := by
  unfold toldOf at h
  split at h
  case h_1 => cases h
  case h_2 q' hparent =>
    split at h
    case h_1 => cases h
    case h_2 prq hlive =>
      split at h
      case isTrue => cases h
      case isFalse hlistens =>
        cases h
        exact ⟨prq, hparent, hlive, by simpa using hlistens⟩

theorem any_iff {P : Proc L O → Bool} :
    t.any P = true ↔ ∃ p pr, t.proc p = some pr ∧ P pr = true := by
  constructor
  · intro h
    rcases List.any_eq_true.1 h with ⟨p, -, hP⟩
    cases hp : t.proc p with
    | none => simp [hp] at hP
    | some pr => exact ⟨p, pr, hp, by simpa [hp] using hP⟩
  · -- Every live process has a number that was given away.
    rintro ⟨p, pr, hp, hP⟩
    exact List.any_eq_true.2 ⟨p, List.mem_range.2 (lt_next hp), by simp [hp, hP]⟩

end Procs

end Unix
end CommServer
