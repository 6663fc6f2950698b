import Mathlib.Data.List.Basic

/-!
# Descriptors — the descriptor table of a process

A table maps small numbers to the open objects of the kernel, here of any type `O`.  No number occurs
twice, which is part of the type.

* `get`, `insert`, `set`, `close` : what the system calls do to a table;
* `holds`                         : some descriptor refers to an object.
-/

namespace CommServer
namespace Unix

abbrev Fd := Nat

structure FdTable (O : Type) where
  entries : List (Fd × O)
  nodup : (entries.map Prod.fst).Nodup

namespace FdTable

variable {O : Type}

def empty : FdTable O :=
  ⟨[], List.nodup_nil⟩

/-- The descriptors in use. -/
def fds (t : FdTable O) : List Fd :=
  t.entries.map Prod.fst

def get (t : FdTable O) (fd : Fd) : Option O :=
  t.entries.lookup fd

/-- A new descriptor. -/
def insert (t : FdTable O) (fd : Fd) (o : O) (h : fd ∉ t.fds) : FdTable O :=
  ⟨(fd, o) :: t.entries, List.nodup_cons.2 ⟨h, t.nodup⟩⟩

/-- The object behind a descriptor in use is another one now. -/
def set (t : FdTable O) (fd : Fd) (o : O) : FdTable O where
  entries := t.entries.map fun e => if e.1 = fd then (e.1, o) else e
  nodup := by
    -- The objects change, the numbers do not.
    have hfst : (Prod.fst ∘ fun e : Fd × O => if e.1 = fd then (e.1, o) else e) = Prod.fst := by
      funext e
      by_cases he : e.1 = fd <;> simp [he]
    rw [List.map_map, hfst]
    exact t.nodup

/-- `close(fd)`. -/
def close (t : FdTable O) (fd : Fd) : FdTable O where
  entries := t.entries.filter fun e => e.1 ≠ fd
  nodup := t.nodup.sublist (List.filter_sublist.map Prod.fst)

/-- Some descriptor refers to `o`. -/
def holds [DecidableEq O] (t : FdTable O) (o : O) : Bool :=
  t.entries.any fun e => e.2 = o

theorem holds_iff [DecidableEq O] {t : FdTable O} {o : O} :
    t.holds o = true ↔ ∃ fd, (fd, o) ∈ t.entries := by
  constructor
  · intro h
    rcases List.any_eq_true.1 h with ⟨⟨fd, o'⟩, hmem, ho⟩
    have heq : o' = o := of_decide_eq_true ho
    exact ⟨fd, heq ▸ hmem⟩
  · rintro ⟨fd, hmem⟩
    exact List.any_eq_true.2 ⟨(fd, o), hmem, decide_eq_true rfl⟩

/-- A descriptor in front is found. -/
theorem get_of_entries {t : FdTable O} {fd : Fd} {o : O} {rest : List (Fd × O)}
    (h : t.entries = (fd, o) :: rest) : t.get fd = some o := by
  simp [get, h]

theorem mem_of_get {t : FdTable O} {fd : Fd} {o : O} (h : t.get fd = some o) :
    (fd, o) ∈ t.entries := by
  rcases List.lookup_eq_some_iff.1 h with ⟨before, behind, hsplit, -⟩
  simp [hsplit]

/-- A descriptor in front of the others is not one of them. -/
theorem not_mem_of_entries {t : FdTable O} {fd : Fd} {o : O} {rest : List (Fd × O)}
    (h : t.entries = (fd, o) :: rest) : fd ∉ rest.map Prod.fst := by
  have hnodup := t.nodup
  rw [h] at hnodup
  exact (List.nodup_cons.1 hnodup).1

theorem entries_set_of_singleton {t : FdTable O} {fd : Fd} {o : O} (h : t.entries = [(fd, o)])
    (o' : O) : (t.set fd o').entries = [(fd, o')] := by
  simp [set, h]

/-- Closing the descriptor in front leaves the others. -/
theorem entries_close_of_entries {t : FdTable O} {fd : Fd} {o : O} {rest : List (Fd × O)}
    (h : t.entries = (fd, o) :: rest) : (t.close fd).entries = rest := by
  have hrest : ∀ e ∈ rest, (decide (e.1 ≠ fd)) = true := by
    intro e he
    have hmem : e.1 ∈ rest.map Prod.fst := List.mem_map_of_mem he
    exact decide_eq_true (ne_of_mem_of_not_mem hmem (not_mem_of_entries h))
  simp only [close, h]
  rw [List.filter_cons_of_neg (by simp), List.filter_eq_self.2 hrest]

theorem entries_close_of_not_mem {t : FdTable O} {fd : Fd} (h : fd ∉ t.fds) :
    (t.close fd).entries = t.entries := by
  apply List.filter_eq_self.2
  intro e he
  have hmem : e.1 ∈ t.fds := List.mem_map_of_mem he
  exact decide_eq_true (ne_of_mem_of_not_mem hmem h)

theorem mem_of_mem_close {t : FdTable O} {fd : Fd} {e : Fd × O} (h : e ∈ (t.close fd).entries) :
    e ∈ t.entries :=
  List.mem_of_mem_filter h

end FdTable

end Unix
end CommServer
