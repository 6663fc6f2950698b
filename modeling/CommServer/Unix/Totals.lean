import CommServer.Unix.Processes
import Mathlib.Algebra.BigOperators.Group.Finset.Basic

/-!
# Totals — sums over the live processes

`total` adds up what each live process counts for.  An operation on the process table changes it by what
changes for the processes that take part.
-/

namespace CommServer
namespace Unix
namespace Procs

variable {L O : Type}

/-- What the process `p` counts for, if it lives. -/
def share (t : Procs L O) (w : Proc L O → Nat) (p : Pid) : Nat :=
  ((t.proc p).map w).getD 0

/-- What all live processes count for. -/
def total (t : Procs L O) (w : Proc L O → Nat) : Nat :=
  ∑ p ∈ Finset.range t.next, t.share w p

variable {t u : Procs L O} {w : Proc L O → Nat} {p : Pid} {pr : Proc L O} {l : L}
  {f : Proc L O → Proc L O}

theorem share_of_live (h : t.proc p = some pr) : t.share w p = w pr := by
  simp [share, h]

/-- One process has changed. -/
theorem total_of_ne (hnext : u.next = t.next) (hp : p < t.next)
    (hothers : ∀ q, q ≠ p → u.proc q = t.proc q) :
    u.total w + t.share w p = t.total w + u.share w p := by
  have hmem : p ∈ Finset.range t.next := Finset.mem_range.2 hp
  have hrest : ∑ q ∈ (Finset.range t.next).erase p, u.share w q =
      ∑ q ∈ (Finset.range t.next).erase p, t.share w q := by
    refine Finset.sum_congr rfl fun q hq => ?_
    rw [share, hothers q (Finset.ne_of_mem_erase hq), share]
  have hbefore := Finset.add_sum_erase (Finset.range t.next) (fun q => t.share w q) hmem
  have hafter := Finset.add_sum_erase (Finset.range t.next) (fun q => u.share w q) hmem
  simp only [total, hnext]
  omega

theorem total_modify (hp : t.proc p = some pr) :
    (t.modify p f).total w + w pr = t.total w + w (f pr) := by
  have hone := total_of_ne (t := t) (u := t.modify p f) (w := w) rfl (lt_next hp)
    fun q hq => proc_modify_of_ne hq
  rwa [share_of_live hp, share_of_live (proc_modify_self hp)] at hone

theorem total_exit (hp : t.proc p = some pr) : (t.exit p pr).total w + w pr = t.total w := by
  have hone := total_of_ne (t := t) (u := t.exit p pr) (w := w) rfl (lt_next hp)
    fun q hq => proc_exit_of_ne hq
  have hdead : (t.exit p pr).share w p = 0 := by simp [share, exit]
  rwa [share_of_live hp, hdead, Nat.add_zero] at hone

theorem total_fork : (t.fork p pr l).total w = t.total w + w (childOf p pr l) := by
  have hold : ∑ q ∈ Finset.range t.next, (t.fork p pr l).share w q =
      ∑ q ∈ Finset.range t.next, t.share w q := by
    refine Finset.sum_congr rfl fun q hq => ?_
    have hne : q ≠ t.next := Nat.ne_of_lt (Finset.mem_range.1 hq)
    rw [share, proc_fork_of_ne hne, share]
  have hnew : (t.fork p pr l).share w t.next = w (childOf p pr l) := share_of_live proc_fork_self
  calc
    (t.fork p pr l).total w
        = ∑ q ∈ Finset.range (t.next + 1), (t.fork p pr l).share w q := rfl
    _ = ∑ q ∈ Finset.range t.next, (t.fork p pr l).share w q + (t.fork p pr l).share w t.next :=
        Finset.sum_range_succ _ _
    _ = t.total w + w (childOf p pr l) := by rw [hold, hnew, total]

end Procs
end Unix
end CommServer
