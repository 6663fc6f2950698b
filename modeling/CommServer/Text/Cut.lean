import Mathlib.Tactic.Common

/-!
# Cut — splitting a text at the first occurrence of a letter

* `cut x s`    : the text before the first `x` and the text behind it, if there is an `x`;
* `cut_append` : a first part that is free of `x` is what is cut off;
* `eq_of_cut`  : and every answer is of that kind.
-/

namespace CommServer
namespace Text

variable {α : Type} [DecidableEq α]

/-- `s` split at its first `x`. -/
def cut (x : α) : List α → Option (List α × List α)
  | [] => none
  | a :: s =>
      if a = x then some ([], s)
      else (cut x s).map fun parts => (a :: parts.1, parts.2)

variable {x : α} {s l r : List α}

theorem cut_append (hl : x ∉ l) (r : List α) : cut x (l ++ x :: r) = some (l, r) := by
  induction l with
  | nil => simp [cut]
  | cons a l ih =>
      have ha : ¬ a = x := fun h => hl (h ▸ List.mem_cons_self)
      have hl' : x ∉ l := fun h => hl (List.mem_cons_of_mem _ h)
      simp [cut, ha, ih hl']

theorem eq_of_cut (h : cut x s = some (l, r)) : s = l ++ x :: r ∧ x ∉ l := by
  induction s generalizing l with
  | nil => simp [cut] at h
  | cons a s ih =>
      by_cases ha : a = x
      · have hparts : [] = l ∧ s = r := by simpa [cut, ha] using h
        rcases hparts with ⟨rfl, rfl⟩
        simp [ha]
      · cases hcut : cut x s with
        | none => simp [cut, ha, hcut] at h
        | some parts =>
            rcases parts with ⟨l', r'⟩
            have hparts : a :: l' = l ∧ r' = r := by simpa [cut, ha, hcut] using h
            rcases hparts with ⟨rfl, rfl⟩
            rcases ih hcut with ⟨hs, hl'⟩
            have hne : x ≠ a := fun heq => ha heq.symm
            exact ⟨by rw [hs, List.cons_append], by simp [hne, hl']⟩

end Text
end CommServer
