import CommServer.Transition.System

/-!
# Fairness — runs that do not end

* `Forever`            : an infinite run;
* `Forever.invariant`  : what every step preserves holds all along it;
* `Forever.eventually` : a goal is met, if a rank falls at each turn of whoever is to bring it about, and
  never rises before it is met;
* `Forever.often`      : the same again and again;
* `front`              : the actions of an infinite run up to one of its states;
* `exists_forever`     : a system that can always go on has an infinite run, also behind a finite one.
-/

namespace CommServer
namespace Transition

variable {σ α : Type}

/-- The system goes from `s₀` through the states `run`, by the actions `acts`, and does not end. -/
structure Forever (step : σ → α → Option σ) (s₀ : σ) (acts : Nat → α) (run : Nat → σ) : Prop where
  start : run 0 = s₀
  next : ∀ n, step (run n) (acts n) = some (run (n + 1))

variable {step : σ → α → Option σ} {s₀ : σ} {acts : Nat → α} {run : Nat → σ} {C : σ → α → Prop}

/-- The first `n` of infinitely many actions. -/
def front (acts : Nat → α) (n : Nat) : List α :=
  (List.range n).map acts

theorem front_succ (acts : Nat → α) (n : Nat) : front acts (n + 1) = front acts n ++ [acts n] := by
  simp [front, List.range_succ]

theorem mem_front {a : α} {n : Nat} : a ∈ front acts n ↔ ∃ k < n, acts k = a := by
  simp [front]

namespace Forever

/-- Every state of an infinite run is the end of a finite one. -/
theorem exec_front (h : Forever step s₀ acts run) (n : Nat) :
    exec step s₀ (front acts n) = some (run n) := by
  induction n with
  | zero => exact congrArg some h.start.symm
  | succ n ih =>
      rw [front_succ, exec_append ih, exec_cons (h.next n)]
      rfl

theorem along_front (h : Forever step s₀ acts run) (hC : ∀ n, C (run n) (acts n)) (n : Nat) :
    Along step C s₀ (front acts n) := by
  induction n with
  | zero => trivial
  | succ n ih =>
      rw [front_succ]
      refine along_append ih fun t ht => ?_
      have hsame : run n = t := Option.some.inj ((h.exec_front n).symm.trans ht)
      exact hsame ▸ ⟨hC n, fun _ _ => trivial⟩

theorem invariant {I : σ → Prop} (h : Forever step s₀ acts run) (hs : I s₀)
    (hC : ∀ n, C (run n) (acts n))
    (hstep : ∀ s a s', I s → C s a → step s a = some s' → I s') (n : Nat) : I (run n) := by
  induction n with
  | zero => exact h.start ▸ hs
  | succ n ih => exact hstep _ _ _ ih (hC n) (h.next n)

/-- As long as the goal is not met the rank does not rise. -/
theorem rank_le {goal : σ → Prop} {rank : σ → Nat} {n m : Nat} (hnm : n ≤ m)
    (hle : ∀ k, n ≤ k → ¬ goal (run k) → ¬ goal (run (k + 1)) → rank (run (k + 1)) ≤ rank (run k))
    (hno : ∀ k, n ≤ k → ¬ goal (run k)) : rank (run m) ≤ rank (run n) := by
  induction hnm with
  | refl => exact Nat.le_refl _
  | step hnm ih =>
      have hone := hle _ hnm (hno _ hnm) (hno _ (Nat.le_succ_of_le hnm))
      exact Nat.le_trans hone ih

/-- The goal is met, if from some point on a rank falls on the way to it. -/
theorem eventually (goal : σ → Prop) (turn : σ → α → Prop) (rank : σ → Nat) {n : Nat}
    (hfalls : ∀ k, n ≤ k → ¬ goal (run k) → ¬ goal (run (k + 1)) →
      rank (run (k + 1)) ≤ rank (run k) ∧
        (turn (run k) (acts k) → rank (run (k + 1)) < rank (run k)))
    (hturn : ∀ k, n ≤ k → ¬ goal (run k) → ∃ m, k ≤ m ∧ turn (run m) (acts m)) :
    ∃ m, n ≤ m ∧ goal (run m) := by
  -- By induction on the rank that is left.
  induction hr : rank (run n) using Nat.strongRecOn generalizing n with
  | ind r ih =>
      by_contra hnever
      have hno : ∀ k, n ≤ k → ¬ goal (run k) := fun k hk hgoal => hnever ⟨k, hk, hgoal⟩
      obtain ⟨m, hnm, hm⟩ := hturn n (Nat.le_refl n) (hno n (Nat.le_refl n))
      have hlower := (hfalls m hnm (hno m hnm) (hno (m + 1) (Nat.le_succ_of_le hnm))).2 hm
      have hbefore := rank_le hnm (fun k hk hgoal hgoal' => (hfalls k hk hgoal hgoal').1) hno
      have hlt : rank (run (m + 1)) < r := by omega
      obtain ⟨k, hk, hgoal⟩ := ih _ hlt (fun k hk => hfalls k (by omega))
        (fun k hk => hturn k (by omega)) rfl
      exact hno k (by omega) hgoal

/-- The goal is met again and again. -/
theorem often {I goal : σ → Prop} {turn : σ → α → Prop} {rank : σ → Nat}
    (h : Forever step s₀ acts run) (hI : ∀ n, I (run n)) (hC : ∀ n, C (run n) (acts n))
    (hrank : ∀ s a s', I s → C s a → step s a = some s' → ¬ goal s → ¬ goal s' →
      rank s' ≤ rank s ∧ (turn s a → rank s' < rank s))
    (hturn : ∀ n, ¬ goal (run n) → ∃ m, n ≤ m ∧ turn (run m) (acts m)) (n : Nat) :
    ∃ m, n ≤ m ∧ goal (run m) :=
  eventually goal turn rank (fun k _ => hrank _ _ _ (hI k) (hC k) (h.next k)) fun k _ => hturn k

end Forever

/-- A system that can always make its next action runs for ever. -/
theorem exists_forever {P : Nat → σ → Prop} (h₀ : P 0 s₀)
    (hnext : ∀ n s, P n s → ∃ s', step s (acts n) = some s' ∧ P (n + 1) s') :
    ∃ run, Forever step s₀ acts run ∧ ∀ n, P n (run n) := by
  choose next hstep hP using hnext
  let runs (n : Nat) : { s // P n s } :=
    Nat.rec ⟨s₀, h₀⟩ (fun n s => ⟨next n s.1 s.2, hP n s.1 s.2⟩) n
  exact ⟨fun n => (runs n).1, ⟨rfl, fun n => hstep n _ (runs n).2⟩, fun n => (runs n).2⟩

/-- Infinitely many actions behind finitely many. -/
def after (as : List α) (acts : Nat → α) (n : Nat) : α :=
  as[n]?.getD (acts (n - as.length))

theorem after_of_lt {as : List α} {acts : Nat → α} {n : Nat} (h : n < as.length) :
    after as acts n = as[n] := by
  simp [after, h]

theorem after_of_le {as : List α} {acts : Nat → α} {n : Nat} (h : as.length ≤ n) :
    after as acts n = acts (n - as.length) := by
  simp [after, h]

/-- A run can be followed by one that does not end. -/
theorem exists_forever_after {P : Nat → σ → Prop} {as : List α} {s : σ}
    (hfirst : exec step s as = some s₀) (h₀ : P 0 s₀)
    (hnext : ∀ n s, P n s → ∃ s', step s (acts n) = some s' ∧ P (n + 1) s') :
    ∃ run, Forever step s (after as acts) run ∧ (∀ n, P n (run (as.length + n))) ∧
      ∀ n, n ≤ as.length → exec step s (as.take n) = some (run n) := by
  induction as generalizing s with
  | nil =>
      have heq : s = s₀ := Option.some.inj hfirst
      subst heq
      rcases exists_forever h₀ hnext with ⟨run, hrun, hP⟩
      refine ⟨run, ⟨hrun.start, fun n => ?_⟩, fun n => ?_, fun n hn => ?_⟩
      · simpa [after] using hrun.next n
      · simpa using hP n
      · have hzero : n = 0 := Nat.le_zero.1 hn
        rw [hzero, hrun.start]
        rfl
  | cons a as ih =>
      rcases exec_cons_eq_some hfirst with ⟨t, ht, hrest⟩
      rcases ih hrest with ⟨run, hrun, hP, hfront⟩
      let run' (n : Nat) : σ := Nat.casesOn n s run
      refine ⟨run', ⟨rfl, ?_⟩, fun n => ?_, ?_⟩
      · intro n
        cases n with
        | zero =>
            show step s a = some (run 0)
            rw [hrun.start, ht]
        | succ n =>
            have hnext := hrun.next n
            have hact : after (a :: as) acts (n + 1) = after as acts n := by
              simp [after, Nat.succ_sub_succ]
            show step (run n) (after (a :: as) acts (n + 1)) = some (run (n + 1))
            rw [hact, hnext]
      · have hshift : (a :: as).length + n = (as.length + n) + 1 := by
          simp only [List.length_cons]
          omega
        rw [hshift]
        exact hP n
      · intro n hn
        cases n with
        | zero => rfl
        | succ n =>
            rw [List.take_succ_cons, exec_cons ht]
            exact hfront n (Nat.le_of_succ_le_succ hn)

end Transition
end CommServer
