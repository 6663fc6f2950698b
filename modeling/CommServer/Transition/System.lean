import CommServer.Transition.Loop
import Mathlib.Data.List.Induction

/-!
# System — runs of a transition system

A system is a partial step function: `step s a` is the state after action `a`, or `none` when `a` is
not possible in `s`.  A run is a list of actions.

* `exec`            : the state after a run;
* `Along step C`    : every step of a run meets a condition `C` on the state before it;
* `emitted step out` : what the steps of a run give out;
* `Throughout step P` : every state of a run is in `P`;
* `Reaches step P`  : one state is reached from another by actions that satisfy `P`;
* `exec_induct`     : what every step preserves holds after every run;
* `exec_induct_along` : the same for runs whose steps all meet a condition;
* `exec_induct_run` : the same for an invariant of the state and the run that led to it;
* `Reaches.of_run`  : a loop that a system goes round by round takes it where the whole loop leads.
-/

namespace CommServer
namespace Transition

variable {σ α : Type} (step : σ → α → Option σ)

/-! ## Runs -/

/-- The state after a run of actions. -/
def exec (s : σ) : List α → Option σ
  | [] => some s
  | a :: as => (step s a).bind fun s' => exec s' as

/-- Every step of the run meets `C`, a condition on the state before the step and the action. -/
def Along (C : σ → α → Prop) (s : σ) : List α → Prop
  | [] => True
  | a :: as => C s a ∧ ∀ s', step s a = some s' → Along C s' as

variable {step} {C : σ → α → Prop} {s s' : σ} {a : α} {as bs : List α}

@[simp] theorem exec_nil : exec step s [] = some s := rfl

theorem exec_cons (h : step s a = some s') : exec step s (a :: as) = exec step s' as := by
  simp [exec, h]

theorem exec_append (h : exec step s as = some s') :
    exec step s (as ++ bs) = exec step s' bs := by
  induction as generalizing s with
  | nil =>
      have hs : s = s' := Option.some.inj h
      rw [hs]
      rfl
  | cons a as ih =>
      cases ha : step s a with
      | none => simp [exec, ha] at h
      | some t =>
          rw [exec_cons ha] at h
          rw [List.cons_append, exec_cons ha]
          exact ih h

/-- A run ends in its first step's successor and the run from there. -/
theorem exec_cons_eq_some (h : exec step s (a :: as) = some s') :
    ∃ t, step s a = some t ∧ exec step t as = some s' := by
  cases ha : step s a with
  | none => simp [exec, ha] at h
  | some t => exact ⟨t, rfl, by rw [exec_cons ha] at h; exact h⟩

/-- The state after one more action. -/
theorem exec_concat_eq_some (h : exec step s (as ++ [a]) = some s') :
    ∃ t, exec step s as = some t ∧ step t a = some s' := by
  induction as generalizing s with
  | nil =>
      rcases exec_cons_eq_some h with ⟨t, ht, hrun⟩
      exact ⟨s, rfl, ht.trans hrun⟩
  | cons b as ih =>
      rcases exec_cons_eq_some h with ⟨t, ht, hrun⟩
      rcases ih hrun with ⟨u, hu, hlast⟩
      exact ⟨u, by rw [exec_cons ht, hu], hlast⟩

/-- A run passes through a state after each of its prefixes. -/
theorem exec_of_prefix (hpre : bs <+: as) (h : exec step s as = some s') :
    ∃ t, exec step s bs = some t := by
  induction bs generalizing s as with
  | nil => exact ⟨s, rfl⟩
  | cons b bs ih =>
      rcases hpre with ⟨cs, rfl⟩
      rcases exec_cons_eq_some h with ⟨t, ht, hrun⟩
      rcases ih ⟨cs, rfl⟩ hrun with ⟨u, hu⟩
      exact ⟨u, by rw [exec_cons ht, hu]⟩

/-- A condition holds along a run when it holds at the end of each prefix. -/
theorem along_iff_prefixes : Along step C s as ↔
    ∀ bs a t, bs ++ [a] <+: as → exec step s bs = some t → C t a := by
  induction as generalizing s with
  | nil =>
      constructor
      · intro _ bs a t hpre
        simp at hpre
      · intro _
        trivial
  | cons b as ih =>
      constructor
      · rintro ⟨hb, hrest⟩ bs a t hpre hrun
        cases bs with
        | nil =>
            have heq : a = b := by simpa using hpre
            have hst : s = t := Option.some.inj hrun
            exact heq ▸ hst ▸ hb
        | cons c cs =>
            have hcons : c = b ∧ cs ++ [a] <+: as := by simpa using hpre
            rcases exec_cons_eq_some hrun with ⟨u, hu, hrun'⟩
            rw [hcons.1] at hu
            exact ih.1 (hrest u hu) cs a t hcons.2 hrun'
      · intro h
        refine ⟨h [] b s (by simp) rfl, ?_⟩
        intro s' hs'
        refine ih.2 fun bs a t hpre hrun => ?_
        exact h (b :: bs) a t (by simpa using hpre) (by rw [exec_cons hs', hrun])

/-! ## Invariants -/

/-- An invariant that every step meeting `C` preserves holds after every run along `C`. -/
theorem exec_induct_along {I : σ → Prop}
    (hstep : ∀ s a s', I s → C s a → step s a = some s' → I s')
    (hs : I s) (hC : Along step C s as) (h : exec step s as = some s') : I s' := by
  induction as generalizing s with
  | nil =>
      have heq : s = s' := Option.some.inj h
      exact heq ▸ hs
  | cons a as ih =>
      rcases exec_cons_eq_some h with ⟨t, ht, hrun⟩
      exact ih (hstep s a t hs hC.1 ht) (hC.2 t ht) hrun

theorem along_of_forall_mem (hC : ∀ a ∈ as, ∀ s, C s a) (s : σ) : Along step C s as := by
  induction as generalizing s with
  | nil => trivial
  | cons a as ih =>
      refine ⟨hC a List.mem_cons_self s, ?_⟩
      intro s' _
      exact ih (fun b hb => hC b (List.mem_cons_of_mem a hb)) s'

theorem along_cons_of_step (hC : C s a) (h : step s a = some s') (hrest : Along step C s' as) :
    Along step C s (a :: as) := by
  refine ⟨hC, ?_⟩
  intro t ht
  have hsame : s' = t := Option.some.inj (h.symm.trans ht)
  exact hsame ▸ hrest

/-- A condition that can be computed can be checked along a run. -/
instance decidableAlong (step : σ → α → Option σ) (C : σ → α → Prop)
    [hdec : ∀ s a, Decidable (C s a)] : (s : σ) → (as : List α) → Decidable (Along step C s as)
  | _, [] => isTrue trivial
  | s, a :: as =>
      match hstep : step s a with
      | none =>
          decidable_of_iff (C s a)
            ⟨fun hC => ⟨hC, fun _ ht => nomatch hstep.symm.trans ht⟩, And.left⟩
      | some t =>
          have := decidableAlong step C t as
          decidable_of_iff (C s a ∧ Along step C t as)
            ⟨fun h => along_cons_of_step h.1 hstep h.2, fun h => ⟨h.1, h.2 t hstep⟩⟩

theorem along_mono {C' : σ → α → Prop} (hCC' : ∀ s a, C s a → C' s a) (hC : Along step C s as) :
    Along step C' s as := by
  induction as generalizing s with
  | nil => trivial
  | cons a as ih => exact ⟨hCC' s a hC.1, fun s' hs' => ih (hC.2 s' hs')⟩

theorem along_append (has : Along step C s as)
    (hbs : ∀ t, exec step s as = some t → Along step C t bs) : Along step C s (as ++ bs) := by
  induction as generalizing s with
  | nil => exact hbs s rfl
  | cons a as ih =>
      refine ⟨has.1, ?_⟩
      intro s' hs'
      apply ih (has.2 s' hs')
      intro t ht
      exact hbs t (by rw [exec_cons hs', ht])

/-- The last step of a run along `C` meets `C`, and the run before it is along `C` too. -/
theorem along_concat (hC : Along step C s (as ++ [a])) (h : exec step s as = some s') :
    Along step C s as ∧ C s' a := by
  rw [along_iff_prefixes] at hC
  refine ⟨along_iff_prefixes.2 fun bs b t hpre hrun => ?_, hC as a s' (List.prefix_refl _) h⟩
  exact hC bs b t (hpre.trans (List.prefix_append as [a])) hrun

/-- An invariant that every step preserves holds after every run. -/
theorem exec_induct {I : σ → Prop} (hstep : ∀ s a s', I s → step s a = some s' → I s')
    (hs : I s) (h : exec step s as = some s') : I s' :=
  exec_induct_along (C := fun _ _ => True) (fun s a s' hI _ => hstep s a s' hI) hs
    (along_of_forall_mem (fun _ _ _ => trivial) s) h

/-- The same for an invariant that looks back at the run. -/
theorem exec_induct_run {I : List α → σ → Prop} (h₀ : I [] s)
    (hstep : ∀ as t a t', exec step s as = some t → I as t → step t a = some t' → I (as ++ [a]) t')
    (h : exec step s as = some s') : I as s' := by
  induction as using List.reverseRecOn generalizing s' with
  | nil =>
      have heq : s = s' := Option.some.inj h
      exact heq ▸ h₀
  | append_singleton as a ih =>
      rcases exec_concat_eq_some h with ⟨t, hrun, ht⟩
      exact hstep as t a s' hrun (ih hrun) ht

/-! ## Outputs -/

/-- What the steps of a run give out, in order. -/
def emitted {β : Type} (step : σ → α → Option σ) (out : σ → α → List β) (s : σ) : List α → List β
  | [] => []
  | a :: as =>
      out s a ++
        match step s a with
        | none => []
        | some s' => emitted step out s' as

theorem emitted_concat {β : Type} {out : σ → α → List β} (h : exec step s as = some s') :
    emitted step out s (as ++ [a]) = emitted step out s as ++ out s' a := by
  induction as generalizing s with
  | nil =>
      have heq : s = s' := Option.some.inj h
      subst heq
      cases hstep : step s a with
      | none => simp [emitted, hstep]
      | some t => simp [emitted, hstep]
  | cons b as ih =>
      rcases exec_cons_eq_some h with ⟨t, ht, hrest⟩
      simp only [List.cons_append, emitted, ht]
      rw [ih hrest, List.append_assoc]

/-- If each step pays for its outputs with what it takes from a rank, a run gives out no more than the
rank there was at first. -/
theorem length_emitted_le {β : Type} {out : σ → α → List β} {rank : σ → Nat}
    (hpay : ∀ s a s', step s a = some s' → (out s a).length + rank s' ≤ rank s)
    (h : exec step s as = some s') : (emitted step out s as).length + rank s' ≤ rank s := by
  induction as generalizing s with
  | nil =>
      have heq : s = s' := Option.some.inj h
      simp [emitted, heq]
  | cons a as ih =>
      rcases exec_cons_eq_some h with ⟨t, ht, hrest⟩
      have hone := hpay s a t ht
      have hmore := ih hrest
      simp only [emitted, ht, List.length_append]
      omega

/-! ## Every state of a run -/

/-- `P` holds in every state of the run, the last one included. -/
def Throughout (step : σ → α → Option σ) (P : σ → Prop) (s : σ) : List α → Prop
  | [] => P s
  | a :: as => P s ∧ ∀ s', step s a = some s' → Throughout step P s' as

theorem Throughout.head {P : σ → Prop} (h : Throughout step P s as) : P s := by
  cases as with
  | nil => exact h
  | cons a as => exact h.1

theorem Throughout.mono {P Q : σ → Prop} (hPQ : ∀ s, P s → Q s) (h : Throughout step P s as) :
    Throughout step Q s as := by
  induction as generalizing s with
  | nil => exact hPQ s h
  | cons a as ih => exact ⟨hPQ s h.1, fun s' hs' => ih (h.2 s' hs')⟩

theorem Throughout.last {P : σ → Prop} (h : Throughout step P s as) (hrun : exec step s as = some s') :
    P s' := by
  induction as generalizing s with
  | nil =>
      have heq : s = s' := Option.some.inj hrun
      exact heq ▸ h
  | cons a as ih =>
      rcases exec_cons_eq_some hrun with ⟨t, ht, hrest⟩
      exact ih (h.2 t ht) hrest

/-- An invariant that every step meeting `C` preserves holds throughout every run along `C`. -/
theorem throughout_of_along {I : σ → Prop}
    (hstep : ∀ s a s', I s → C s a → step s a = some s' → I s') (hs : I s)
    (hC : Along step C s as) : Throughout step I s as := by
  induction as generalizing s with
  | nil => exact hs
  | cons a as ih =>
      refine ⟨hs, ?_⟩
      intro s' hs'
      exact ih (hstep s a s' hs hC.1 hs') (hC.2 s' hs')

/-- If a step cannot lead into `P` without meeting `C`, then a run that stays in `P` meets `C` all
along. -/
theorem along_of_throughout {I P : σ → Prop} (hstep : ∀ s a s', I s → step s a = some s' → I s')
    (hback : ∀ s a s', I s → step s a = some s' → P s' → C s a) (hs : I s)
    (hP : Throughout step P s as) (h : exec step s as = some s') : Along step C s as := by
  induction as generalizing s with
  | nil => trivial
  | cons a as ih =>
      rcases exec_cons_eq_some h with ⟨t, ht, hrun⟩
      refine ⟨hback s a t hs ht (hP.2 t ht).head, ?_⟩
      intro t' ht'
      -- The step function leaves one successor only.
      have hsame : t = t' := Option.some.inj (ht.symm.trans ht')
      subst hsame
      exact ih (hstep s a t hs ht) (hP.2 t ht) hrun

/-! ## Reachability -/

/-- Some run of actions that satisfy `P` leads from `s` to `t`. -/
def Reaches (step : σ → α → Option σ) (P : α → Prop) (s t : σ) : Prop :=
  ∃ as, (∀ a ∈ as, P a) ∧ exec step s as = some t

namespace Reaches

variable {P : α → Prop} {t u : σ}

theorem single (hP : P a) (h : step s a = some t) : Reaches step P s t :=
  ⟨[a], by simp [hP], by rw [exec_cons h, exec_nil]⟩

theorem trans (h₁ : Reaches step P s t) (h₂ : Reaches step P t u) : Reaches step P s u := by
  rcases h₁ with ⟨as, has, hrun⟩
  rcases h₂ with ⟨bs, hbs, hrun'⟩
  refine ⟨as ++ bs, ?_, by rw [exec_append hrun, hrun']⟩
  intro a ha
  rcases List.mem_append.1 ha with ha | ha
  · exact has a ha
  · exact hbs a ha

/-- If the system follows the loop round by round, in states `f` inside and `g` behind it, then it
gets to where the whole loop ends. -/
theorem of_run {τ ε ρ : Type} {L : EventLoop τ ε ρ} {f : τ → σ} {g : τ → ρ → σ}
    (hexit : ∀ x r, L.exit x = some r → Reaches step P (f x) (g x r))
    (hagain : ∀ x e x', L.exit x = none → L.round x e = .again x' → Reaches step P (f x) (f x'))
    (hdone : ∀ x e x' r, L.exit x = none → L.round x e = .done x' r →
      Reaches step P (f x) (g x' r))
    {x x' : τ} {es : List ε} {r : ρ} (hrun : L.run x es = (x', some r)) :
    Reaches step P (f x) (g x' r) := by
  induction es generalizing x with
  | nil =>
      have hpair : x = x' ∧ L.exit x = some r := by simpa [EventLoop.run] using hrun
      exact hpair.1 ▸ hexit x r hpair.2
  | cons e es ih =>
      cases hx : L.exit x with
      | some r' =>
          rw [EventLoop.run_of_exit hx] at hrun
          have hpair : x = x' ∧ r' = r := by simpa using hrun
          rw [← hpair.1, ← hpair.2]
          exact hexit x r' hx
      | none =>
          cases hround : L.round x e with
          | again y =>
              rw [EventLoop.run_again hx hround] at hrun
              exact (hagain x e y hx hround).trans (ih hrun)
          | done y r' =>
              rw [EventLoop.run_done hx hround] at hrun
              have hpair : y = x' ∧ r' = r := by simpa using hrun
              rw [← hpair.1, ← hpair.2]
              exact hdone x e y r' hx hround
          -- The loop would still wait, but it has a result.
          | waiting y =>
              rw [EventLoop.run_waiting hx hround] at hrun
              simp at hrun

end Reaches

end Transition
end CommServer
