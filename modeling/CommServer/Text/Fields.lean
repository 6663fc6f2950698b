import Mathlib.Data.List.Infix
import Mathlib.Data.Nat.Find
import Mathlib.Tactic.Common

/-!
# Fields — splitting a text at a delimiter word

`fields d s` lists the components of `s` between the leftmost non-overlapping occurrences of the
word `d`.  Consecutive delimiters give empty components and a trailing delimiter gives a final
empty one, so there is always at least one component.

`Splits d s fs` says the same as a relation, and `splits_iff` that `fields` is its only solution.
For a one-letter delimiter this is `List.splitOn` (`fields_singleton`), whose lemmas are then used
as they are.
-/

namespace CommServer
namespace Text

/-! ## Definition -/

section Fields

variable {α : Type} [DecidableEq α]

/-- Components of a text whose first `k` letters still belong to the delimiter just seen. -/
def fieldsFrom (d : List α) : Nat → List α → List (List α)
  | _, [] => [[]]
  -- Still inside the delimiter.
  | k + 1, _ :: s => fieldsFrom d k s
  | 0, a :: s =>
      if d <+: a :: s then [] :: fieldsFrom d (d.length - 1) s
      else (fieldsFrom d 0 s).modifyHead (a :: ·)

/-- The components of `s` at the delimiter word `d`. -/
def fields (d s : List α) : List (List α) :=
  fieldsFrom d 0 s

/-- The `i`th component, counted from zero; empty when there are not that many. -/
def field (d s : List α) (i : Nat) : List α :=
  ((fields d s).drop i).headD []

/-! ## Unfolding -/

@[simp] theorem fields_nil (d : List α) : fields d [] = [[]] := rfl

theorem fieldsFrom_eq_drop (d s : List α) (k : Nat) : fieldsFrom d k s = fields d (s.drop k) := by
  induction k generalizing s with
  | zero => rfl
  | succ k ih =>
      cases s with
      | nil => rfl
      | cons a s => exact ih s

/-- At an occurrence of the delimiter the component ends and the delimiter is skipped whole. -/
theorem fields_at_word {d s : List α} (hd : d ≠ []) (h : d <+: s) :
    fields d s = [] :: fields d (s.drop d.length) := by
  cases s with
  | nil => exact absurd (List.prefix_nil.1 h) hd
  | cons a s =>
      have hlen : 0 < d.length := List.length_pos_iff.2 hd
      obtain ⟨n, hn⟩ : ∃ n, d.length = n + 1 := ⟨d.length - 1, by omega⟩
      have hstep : fields d (a :: s) = [] :: fieldsFrom d (d.length - 1) s := if_pos h
      rw [hstep, fieldsFrom_eq_drop, hn]
      rfl

/-- Elsewhere the letter belongs to the component. -/
theorem fields_off_word {d : List α} {a : α} {s : List α} (h : ¬ d <+: a :: s) :
    fields d (a :: s) = (fields d s).modifyHead (a :: ·) :=
  if_neg h

theorem fields_ne_nil (d s : List α) : fields d s ≠ [] := by
  induction s with
  | nil => simp
  | cons a s ih =>
      by_cases h : d <+: a :: s
      · have hstep : fields d (a :: s) = [] :: fieldsFrom d (d.length - 1) s := if_pos h
        simp [hstep]
      · rw [fields_off_word h]
        simpa using ih

/-- The first component of a text starts with its first letter, unless a delimiter stands there. -/
theorem headD_fields_cons {d : List α} {a : α} {s : List α} (h : ¬ d <+: a :: s) :
    (fields d (a :: s)).headD [] = a :: (fields d s).headD [] := by
  rw [fields_off_word h]
  cases hs : fields d s with
  | nil => exact absurd hs (fields_ne_nil d s)
  | cons f fs => rfl

/-- The later components do not depend on a letter of the first one. -/
theorem drop_succ_fields_cons {d : List α} {a : α} {s : List α} (h : ¬ d <+: a :: s) (n : Nat) :
    (fields d (a :: s)).drop (n + 1) = (fields d s).drop (n + 1) := by
  rw [fields_off_word h]
  cases hs : fields d s with
  | nil => exact absurd hs (fields_ne_nil d s)
  | cons f fs => rfl

@[simp] theorem field_nil (d : List α) (i : Nat) : field d [] i = [] := by
  cases i <;> simp [field]

theorem mem_of_mem_fieldsFrom {d s f : List α} {k : Nat} {a : α} (hf : f ∈ fieldsFrom d k s)
    (ha : a ∈ f) : a ∈ s := by
  induction s generalizing k f with
  | nil =>
      have hnil : f = [] := by simpa [fieldsFrom] using hf
      simp [hnil] at ha
  | cons b s ih =>
      -- Inside a delimiter letters are dropped; outside one goes to the first component.
      cases k with
      | succ k => exact List.mem_cons_of_mem _ (ih hf ha)
      | zero =>
          by_cases hpre : d <+: b :: s
          · have hf' : f ∈ [] :: fieldsFrom d (d.length - 1) s := by
              simpa [fieldsFrom, hpre] using hf
            rcases List.mem_cons.1 hf' with rfl | hmem
            · simp at ha
            · exact List.mem_cons_of_mem _ (ih hmem ha)
          · have hf' : f ∈ (fieldsFrom d 0 s).modifyHead (b :: ·) := by
              simpa [fieldsFrom, hpre] using hf
            cases hs : fieldsFrom d 0 s with
            | nil => simp [hs] at hf'
            | cons g gs =>
                rw [hs] at hf'
                rcases List.mem_cons.1 hf' with rfl | hmem
                · rcases List.mem_cons.1 ha with rfl | ha
                  · exact List.mem_cons_self
                  · exact List.mem_cons_of_mem _ (ih (hs ▸ List.mem_cons_self) ha)
                · exact List.mem_cons_of_mem _ (ih (hs ▸ List.mem_cons_of_mem _ hmem) ha)

/-- Every letter of a component is a letter of the text. -/
theorem mem_of_mem_field {d s : List α} {i : Nat} {a : α} (ha : a ∈ field d s i) : a ∈ s := by
  unfold field at ha
  cases hdrop : (fields d s).drop i with
  | nil => simp [hdrop] at ha
  | cons f fs =>
      rw [hdrop] at ha
      have hf : f ∈ fields d s := List.mem_of_mem_drop (hdrop ▸ List.mem_cons_self)
      exact mem_of_mem_fieldsFrom hf ha

end Fields

/-! ## The split as a relation -/

section Splits

variable {α : Type}

/-- In `f ++ d ++ s` the occurrence of `d` behind `f` is the leftmost one. -/
def FirstAt (d f s : List α) : Prop :=
  ∀ k < f.length, ¬ d <+: (f ++ d ++ s).drop k

/-- `fs` are the components of a text between the leftmost non-overlapping occurrences of `d`. -/
inductive Splits (d : List α) : List α → List (List α) → Prop
  | last {s : List α} (h : ¬ d <:+: s) : Splits d s [s]
  | next {f s : List α} {fs : List (List α)} (h : FirstAt d f s) (hs : Splits d s fs) :
      Splits d (f ++ d ++ s) (f :: fs)

theorem firstAt_nil (d s : List α) : FirstAt d [] s := by
  intro k hk
  simp at hk

theorem FirstAt.tail {d f s : List α} {a : α} (h : FirstAt d (a :: f) s) : FirstAt d f s := by
  intro k hk
  have hnot := h (k + 1) (by simpa using hk)
  simpa using hnot

theorem FirstAt.head {d f s : List α} {a : α} (h : FirstAt d (a :: f) s) :
    ¬ d <+: a :: (f ++ d ++ s) := by
  have hnot := h 0 (by simp)
  simpa using hnot

/-- A text with an occurrence of `d` is cut at the leftmost one. -/
theorem exists_firstAt {d s : List α} (h : d <:+: s) :
    ∃ f t, s = f ++ d ++ t ∧ FirstAt d f t := by
  classical
  have hex : ∃ k, d <+: s.drop k := by
    rcases h with ⟨f, t, rfl⟩
    exact ⟨f.length, t, by simp⟩
  rcases Nat.find_spec hex with ⟨t, ht⟩
  have hcut : s = s.take (Nat.find hex) ++ d ++ t := by
    rw [List.append_assoc, ht, List.take_append_drop]
  refine ⟨s.take (Nat.find hex), t, hcut, ?_⟩
  intro k hk
  rw [← hcut]
  have hlt : k < Nat.find hex := Nat.lt_of_lt_of_le hk (List.length_take_le _ _)
  exact Nat.find_min hex hlt

variable [DecidableEq α]

theorem fields_of_no_word {d s : List α} (h : ¬ d <:+: s) : fields d s = [s] := by
  induction s with
  | nil => rfl
  | cons a s ih =>
      have hpre : ¬ d <+: a :: s := fun hp => h hp.isInfix
      have hrest : ¬ d <:+: s := fun hi => h (List.infix_cons hi)
      rw [fields_off_word hpre, ih hrest]
      rfl

theorem fields_of_firstAt {d f s : List α} (hd : d ≠ []) (h : FirstAt d f s) :
    fields d (f ++ d ++ s) = f :: fields d s := by
  induction f with
  | nil =>
      have hpre : d <+: [] ++ d ++ s := ⟨s, by simp⟩
      rw [fields_at_word hd hpre]
      simp
  | cons a f ih =>
      have hoff : ¬ d <+: a :: (f ++ d ++ s) := h.head
      calc
        fields d (a :: f ++ d ++ s)
            = (fields d (f ++ d ++ s)).modifyHead (a :: ·) := fields_off_word hoff
        _ = (f :: fields d s).modifyHead (a :: ·) := by rw [ih h.tail]
        _ = (a :: f) :: fields d s := rfl

/-- `fields` computes the one split there is. -/
theorem splits_iff {d s : List α} {fs : List (List α)} (hd : d ≠ []) :
    Splits d s fs ↔ fields d s = fs := by
  constructor
  · intro h
    induction h with
    | last h => exact fields_of_no_word h
    | next h _ ih => rw [fields_of_firstAt hd h, ih]
  · rintro rfl
    -- Each occurrence shortens what is left to split.
    induction hn : s.length using Nat.strongRecOn generalizing s with
    | _ n ih =>
        by_cases hin : d <:+: s
        · rcases exists_firstAt hin with ⟨f, t, rfl, hfirst⟩
          have hlen : 0 < d.length := List.length_pos_iff.2 hd
          have hlt : t.length < n := by
            simp only [List.length_append] at hn
            omega
          rw [fields_of_firstAt hd hfirst]
          exact .next hfirst (ih t.length hlt rfl)
        · rw [fields_of_no_word hin]
          exact .last hin

theorem field_of_splits {d s : List α} {fs : List (List α)} (hd : d ≠ []) (h : Splits d s fs)
    (i : Nat) : field d s i = (fs[i]?).getD [] := by
  rw [field, (splits_iff hd).1 h, List.headD_eq_head?_getD, List.head?_drop]

end Splits

/-! ## One-letter delimiters -/

section Singleton

variable {α : Type} [DecidableEq α] {x : α}

omit [DecidableEq α] in
theorem singleton_prefix_cons {a : α} {s : List α} : [x] <+: a :: s ↔ a = x := by
  rw [List.cons_prefix_cons]
  constructor
  · rintro ⟨h, -⟩
    exact h.symm
  · rintro rfl
    exact ⟨rfl, List.nil_prefix⟩

/-- With one letter the components are those of `List.splitOn`. -/
theorem fields_singleton (s : List α) : fields [x] s = s.splitOn x := by
  induction s with
  | nil => rfl
  | cons a s ih =>
      by_cases ha : a = x
      · have hpre : [x] <+: a :: s := singleton_prefix_cons.2 ha
        rw [fields_at_word (List.cons_ne_nil x []) hpre, List.splitOn_cons_eq_if_modifyHead]
        simp [ha, ih]
      · have hpre : ¬ [x] <+: a :: s := fun h => ha (singleton_prefix_cons.1 h)
        rw [fields_off_word hpre, List.splitOn_cons_eq_if_modifyHead]
        simp [ha, ih]

theorem field_eq_getD (s : List α) (i : Nat) : field [x] s i = ((s.splitOn x)[i]?).getD [] := by
  rw [field, fields_singleton, List.headD_eq_head?_getD, List.head?_drop]

theorem field_eq_of_getElem? {s f : List α} {i : Nat} (h : (s.splitOn x)[i]? = some f) :
    field [x] s i = f := by
  rw [field_eq_getD, h, Option.getD_some]

/-- A delimiter at the end adds an empty component, which reads like an absent one. -/
theorem field_append_self (s : List α) (i : Nat) : field [x] (s ++ [x]) i = field [x] s i := by
  rw [field_eq_getD, field_eq_getD, List.splitOn_append_cons_self]
  -- Inside the text nothing changes; behind it both sides are empty.
  by_cases hi : i < (s.splitOn x).length
  · rw [List.getElem?_append_left hi]
  · have hle : (s.splitOn x).length ≤ i := Nat.le_of_not_lt hi
    rw [List.getElem?_append_right hle, List.getElem?_eq_none hle]
    cases i - (s.splitOn x).length <;> rfl

/-- No component contains the delimiter. -/
theorem not_mem_of_mem_splitOn {s f : List α} (hf : f ∈ s.splitOn x) : x ∉ f := by
  induction s generalizing f with
  | nil =>
      have hnil : f = [] := by simpa [List.splitOn] using hf
      simp [hnil]
  | cons a s ih =>
      rw [List.splitOn_cons_eq_if_modifyHead] at hf
      by_cases ha : a = x
      · rcases List.mem_cons.1 (by simpa [ha] using hf) with rfl | hf
        · simp
        · exact ih hf
      · cases hs : s.splitOn x with
        | nil => exact absurd hs (List.splitOn_ne_nil x s)
        | cons g gs =>
            rw [hs] at hf ih
            have hcons : f ∈ (a :: g) :: gs := by simpa [ha] using hf
            rcases List.mem_cons.1 hcons with rfl | hmem
            · have hg : x ∉ g := ih (by simp)
              have hne : x ≠ a := fun h => ha h.symm
              simp [hg, hne]
            · exact ih (List.mem_cons_of_mem _ hmem)

theorem not_mem_field (s : List α) (i : Nat) : x ∉ field [x] s i := by
  unfold field
  rw [fields_singleton]
  cases hdrop : (s.splitOn x).drop i with
  | nil => simp
  | cons f fs =>
      have hmem : f ∈ s.splitOn x := List.mem_of_mem_drop (hdrop ▸ List.mem_cons_self)
      exact not_mem_of_mem_splitOn hmem

/-- Skipping a component in front of a delimiter. -/
theorem field_succ {f : List α} (hf : x ∉ f) (s : List α) (i : Nat) :
    field [x] (f ++ x :: s) (i + 1) = field [x] s i := by
  simp [field, fields_singleton, List.splitOn_append_cons_self_of_not_mem hf]

theorem field_zero {f : List α} (hf : x ∉ f) (s : List α) :
    field [x] (f ++ x :: s) 0 = f := by
  simp [field, fields_singleton, List.splitOn_append_cons_self_of_not_mem hf]

/-- A text without the delimiter is its own first component. -/
theorem field_self {f : List α} (hf : x ∉ f) : field [x] f 0 = f := by
  simp [field, fields_singleton, List.splitOn_eq_singleton hf]

end Singleton

end Text
end CommServer
