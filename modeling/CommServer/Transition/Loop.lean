/-!
# Loop — `while` loops driven by the answers of an environment

A loop over a state `σ` makes, in each round, a few calls whose answers `ε` the environment decides,
and may leave with a result `ρ`.  A run is given by the list of answers it consumes; when the list
ends first, the loop is still waiting for its next answer.

* `EventLoop`  : loop condition and loop body;
* `run`        : the whole loop over a script of answers;
* `run_induct` : what every round preserves holds at the end, and what every exit establishes holds
  of the result;
* `run_ends`, `run_ends_of_eventually` : a loop whose rounds lower a rank ends, when only finitely
  many answers are idle.
-/

namespace CommServer
namespace Transition

/-- How one round of a loop body ends. -/
inductive Round (σ ρ : Type) where
  | again (s : σ)
  | done (s : σ) (r : ρ)
  | waiting (s : σ)

/-- A loop: `exit` is the result once the loop condition is false, `round` is the body. -/
structure EventLoop (σ ε ρ : Type) where
  exit : σ → Option ρ
  round : σ → ε → Round σ ρ

namespace EventLoop

variable {σ ε ρ : Type} (L : EventLoop σ ε ρ)

/-- Run the loop over a script.  The result is missing while the loop waits for an answer. -/
def run (s : σ) : List ε → σ × Option ρ
  | [] => (s, L.exit s)
  | e :: es =>
      match L.exit s with
      | some r => (s, some r)
      | none =>
          match L.round s e with
          | .again s' => run s' es
          | .done s' r => (s', some r)
          | .waiting s' => (s', none)

/-- The answers that a run leaves unused. -/
def rest (s : σ) : List ε → List ε
  | [] => []
  | e :: es =>
      match L.exit s with
      | some _ => e :: es
      | none =>
          match L.round s e with
          | .again s' => rest s' es
          | .done _ _ => es
          | .waiting _ => es

/-- The state in which the loop asks for its next answer, once it has used up the script. -/
def after (s : σ) : List ε → Option σ
  | [] => if (L.exit s).isSome then none else some s
  | e :: es =>
      match L.exit s with
      | some _ => none
      | none =>
          match L.round s e with
          | .again s' => after s' es
          | .done _ _ => none
          | .waiting _ => none

variable {L} {s s' : σ} {e : ε} {es fs : List ε} {r : ρ}

theorem run_of_exit (h : L.exit s = some r) : L.run s es = (s, some r) := by
  cases es <;> simp [run, h]

theorem run_nil (h : L.exit s = none) : L.run s [] = (s, none) := by
  simp [run, h]

theorem run_again (h : L.exit s = none) (hround : L.round s e = .again s') :
    L.run s (e :: es) = L.run s' es := by
  simp [run, h, hround]

theorem run_done (h : L.exit s = none) (hround : L.round s e = .done s' r) :
    L.run s (e :: es) = (s', some r) := by
  simp [run, h, hround]

theorem run_waiting (h : L.exit s = none) (hround : L.round s e = .waiting s') :
    L.run s (e :: es) = (s', none) := by
  simp [run, h, hround]

theorem rest_of_exit (h : L.exit s = some r) : L.rest s es = es := by
  cases es <;> simp [rest, h]

theorem rest_again (h : L.exit s = none) (hround : L.round s e = .again s') :
    L.rest s (e :: es) = L.rest s' es := by
  simp [rest, h, hround]

/-- A run uses its script from the front. -/
theorem rest_suffix (s : σ) (es : List ε) : L.rest s es <:+ es := by
  induction es generalizing s with
  | nil => exact List.suffix_rfl
  | cons e es ih =>
      cases hx : L.exit s with
      | some r => simp [rest_of_exit hx]
      | none =>
          cases hround : L.round s e with
          | again s' =>
              rw [rest_again hx hround]
              exact (ih s').trans (List.suffix_cons e es)
          | done s' r => simp [rest, hx, hround]
          | waiting s' => simp [rest, hx, hround]

theorem after_nil : L.after s ([] : List ε) = some s' ↔ L.exit s = none ∧ s = s' := by
  cases hx : L.exit s <;> simp [after, hx]

theorem after_cons : L.after s (e :: es) = some s' ↔
    ∃ t, L.exit s = none ∧ L.round s e = .again t ∧ L.after t es = some s' := by
  cases hx : L.exit s with
  | some r => simp [after, hx]
  | none => cases hround : L.round s e <;> simp [after, hx, hround]

theorem exit_of_after (h : L.after s es = some s') : L.exit s' = none := by
  induction es generalizing s with
  | nil =>
      rcases after_nil.1 h with ⟨hx, rfl⟩
      exact hx
  | cons e es ih =>
      rcases after_cons.1 h with ⟨t, -, -, hrest⟩
      exact ih hrest

/-- From where the loop asks for its next answer it goes on as from the start. -/
theorem run_after (h : L.after s es = some s') : L.run s (es ++ fs) = L.run s' fs := by
  induction es generalizing s with
  | nil =>
      rcases after_nil.1 h with ⟨-, rfl⟩
      rfl
  | cons e es ih =>
      rcases after_cons.1 h with ⟨t, hx, hround, hrest⟩
      rw [List.cons_append, run_again hx hround]
      exact ih hrest

/-- A loop that has ended looks at no more answers, and leaves them. -/
theorem run_append (h : (L.run s es).2 = some r) (fs : List ε) :
    L.run s (es ++ fs) = L.run s es ∧ L.rest s (es ++ fs) = L.rest s es ++ fs := by
  induction es generalizing s with
  | nil =>
      have hexit : L.exit s = some r := h
      rw [List.nil_append, run_of_exit hexit, rest_of_exit hexit, run_of_exit hexit]
      exact ⟨rfl, rfl⟩
  | cons e es ih =>
      rw [List.cons_append]
      cases hx : L.exit s with
      | some r' =>
          rw [run_of_exit hx, rest_of_exit hx, run_of_exit hx, rest_of_exit hx]
          exact ⟨rfl, rfl⟩
      | none =>
          cases hround : L.round s e with
          | again s' =>
              rw [run_again hx hround] at h
              rw [run_again hx hround, rest_again hx hround, run_again hx hround,
                rest_again hx hround]
              exact ih h
          | done s' r' => simp [run, rest, hx, hround]
          | waiting s' =>
              rw [run_waiting hx hround] at h
              cases h

theorem run_cons_of_some (h : (L.run s [e]).2 = some r) : (L.run s (e :: es)).2 = some r := by
  rw [← List.singleton_append, (run_append h es).1, h]

/-- What every round preserves holds wherever the loop asks. -/
theorem after_induct {I : σ → Prop}
    (hagain : ∀ s e s', I s → L.exit s = none → L.round s e = .again s' → I s')
    (hs : I s) (h : L.after s es = some s') : I s' := by
  induction es generalizing s with
  | nil =>
      rcases after_nil.1 h with ⟨-, rfl⟩
      exact hs
  | cons e es ih =>
      rcases after_cons.1 h with ⟨t, hx, hround, hrest⟩
      exact ih (hagain s e t hs hx hround) hrest

/-- The induction rule: an invariant kept by every round, and a postcondition that every way out
establishes. -/
theorem run_induct {I : σ → Prop} {Q : σ → ρ → Prop}
    (hexit : ∀ s r, I s → L.exit s = some r → Q s r)
    (hagain : ∀ s e s', I s → L.exit s = none → L.round s e = .again s' → I s')
    (hdone : ∀ s e s' r, I s → L.exit s = none → L.round s e = .done s' r → I s' ∧ Q s' r)
    (hwait : ∀ s e s', I s → L.exit s = none → L.round s e = .waiting s' → I s')
    (s : σ) (es : List ε) (hs : I s) :
    I (L.run s es).1 ∧ ∀ r, (L.run s es).2 = some r → Q (L.run s es).1 r := by
  -- On the script; the invariant says what is known of the state each round starts from.
  induction es generalizing s with
  | nil =>
      refine ⟨hs, ?_⟩
      intro r hr
      exact hexit s r hs hr
  | cons e es ih =>
      cases hx : L.exit s with
      | some r =>
          rw [run_of_exit hx]
          refine ⟨hs, ?_⟩
          intro r' hr'
          have hrr : r = r' := Option.some.inj hr'
          exact hrr ▸ hexit s r hs hx
      | none =>
          cases hround : L.round s e with
          | again s' =>
              rw [run_again hx hround]
              exact ih s' (hagain s e s' hs hx hround)
          | done s' r =>
              rw [run_done hx hround]
              have hpost := hdone s e s' r hs hx hround
              refine ⟨hpost.1, ?_⟩
              intro r' hr'
              have hrr : r = r' := Option.some.inj hr'
              exact hrr ▸ hpost.2
          | waiting s' =>
              rw [run_waiting hx hround]
              refine ⟨hwait s e s' hs hx hround, ?_⟩
              intro r' hr'
              cases hr'

/-- A loop that never waits inside a round is unfinished only at its loop condition. -/
theorem exit_of_run_none (hwait : ∀ s e s', L.round s e ≠ .waiting s') (s : σ) (es : List ε)
    (h : (L.run s es).2 = none) : L.exit (L.run s es).1 = none := by
  induction es generalizing s with
  | nil => exact h
  | cons e es ih =>
      cases hx : L.exit s with
      | some r =>
          rw [run_of_exit hx] at h
          cases h
      | none =>
          cases hround : L.round s e with
          | again s' =>
              rw [run_again hx hround] at h ⊢
              exact ih s' h
          | done s' r =>
              rw [run_done hx hround] at h
              cases h
          | waiting s' => exact absurd hround (hwait s e s')

/-! ## Termination -/

section Termination

variable {I : σ → Prop} {Good : ε → Prop} {idle : ε → Bool} {rank : σ → Nat}

/-- Every round but an idle one lowers the rank, so a script with enough answers that are not idle
takes the loop to its end. -/
theorem run_ends (hexit : ∀ s, I s → rank s = 0 → ∃ r, L.exit s = some r)
    (hround : ∀ s e, I s → L.exit s = none → Good e →
      (∃ s', L.round s e = .again s' ∧ I s' ∧ rank s' + (if idle e then 0 else 1) ≤ rank s) ∨
        ∃ s' r, L.round s e = .done s' r)
    (s : σ) (es : List ε) (hs : I s) (hgood : ∀ e ∈ es, Good e)
    (hlen : rank s + es.countP idle ≤ es.length) : ∃ r, (L.run s es).2 = some r := by
  induction es generalizing s with
  | nil =>
      have hzero : rank s = 0 := by simpa using hlen
      exact hexit s hs hzero
  | cons e es ih =>
      cases hx : L.exit s with
      | some r => exact ⟨r, by rw [run_of_exit hx]⟩
      | none =>
          rcases hround s e hs hx (hgood e List.mem_cons_self) with
            ⟨s', hagain, hs', hrank⟩ | ⟨s', r, hdone⟩
          · rw [run_again hx hagain]
            apply ih s' hs' (fun e' he' => hgood e' (List.mem_cons_of_mem _ he'))
            rw [List.countP_cons, List.length_cons] at hlen
            split at hrank
            · rename_i hidle
              simp only [hidle, if_true] at hlen
              omega
            · rename_i hidle
              simp only [hidle] at hlen
              omega
          · exact ⟨r, by rw [run_done hx hdone]⟩

/-- The first answers of an endless script. -/
def answers (ω : Nat → ε) (N : Nat) : List ε :=
  (List.range N).map ω

@[simp] theorem length_answers (ω : Nat → ε) (N : Nat) : (answers ω N).length = N := by
  simp [answers]

theorem countP_answers_le {ω : Nat → ε} {M : Nat} (h : ∀ i, M ≤ i → idle (ω i) = false) (N : Nat) :
    (answers ω N).countP idle ≤ M := by
  induction N with
  | zero => simp [answers]
  | succ N ih =>
      have hsucc : (answers ω (N + 1)).countP idle =
          (answers ω N).countP idle + if idle (ω N) then 1 else 0 := by
        simp [answers, List.range_succ]
      by_cases hN : M ≤ N
      · rw [hsucc, h N hN]
        simpa using ih
      · -- So far there are no more answers than idle ones to come.
        have hle := List.countP_le_length (p := idle) (l := answers ω (N + 1))
        rw [length_answers] at hle
        omega

/-- An endless script with finitely many idle answers takes the loop to its end. -/
theorem run_ends_of_eventually (hexit : ∀ s, I s → rank s = 0 → ∃ r, L.exit s = some r)
    (hround : ∀ s e, I s → L.exit s = none → Good e →
      (∃ s', L.round s e = .again s' ∧ I s' ∧ rank s' + (if idle e then 0 else 1) ≤ rank s) ∨
        ∃ s' r, L.round s e = .done s' r)
    (s : σ) (hs : I s) {ω : Nat → ε} (hgood : ∀ i, Good (ω i)) {M : Nat}
    (hidle : ∀ i, M ≤ i → idle (ω i) = false) : ∃ N r, (L.run s (answers ω N)).2 = some r := by
  refine ⟨rank s + M, run_ends hexit hround s _ hs ?_ ?_⟩
  · intro e he
    rcases List.mem_map.1 he with ⟨i, -, rfl⟩
    exact hgood i
  · rw [length_answers]
    exact Nat.add_le_add_left (countP_answers_le hidle _) _

end Termination

end EventLoop

end Transition
end CommServer
