import Mathlib.Data.List.DropRight
import Mathlib.Tactic.Common

/-!
# Trim — the core of a text between two runs of blanks

`trim p s` removes the longest prefix and the longest suffix of `s` whose letters satisfy `p`.
Blanks around a text do not change its core (`trim_append_blank`), and a cut text has the same core
exactly when only blanks are cut off (`trim_take_eq_iff`).  `isCore_iff` describes the core without
the functions that compute it.
-/

namespace CommServer
namespace Text

variable {α : Type} {p : α → Bool}

/-- `s` without its blank prefix and its blank suffix. -/
def trim (p : α → Bool) (s : List α) : List α :=
  (s.dropWhile p).rdropWhile p

theorem trim_eq_nil_iff {s : List α} : trim p s = [] ↔ ∀ a ∈ s, p a := by
  unfold trim
  rw [List.rdropWhile_eq_nil_iff]
  constructor
  · intro h a ha
    rw [← List.takeWhile_append_dropWhile (p := p) (l := s)] at ha
    rcases List.mem_append.1 ha with ha | ha
    · exact List.mem_takeWhile_imp ha
    · exact h a ha
  · intro h a ha
    exact h a ((List.dropWhile_sublist p).subset ha)

/-- A text is its core with blanks around it. -/
theorem exists_eq_append_trim (p : α → Bool) (s : List α) :
    ∃ l t, s = l ++ trim p s ++ t ∧ (∀ a ∈ l, p a) ∧ ∀ a ∈ t, p a := by
  refine ⟨s.takeWhile p, (s.dropWhile p).rtakeWhile p, ?_, ?_, ?_⟩
  · rw [trim, List.append_assoc, List.rdropWhile_append_rtakeWhile,
      List.takeWhile_append_dropWhile]
  · intro a ha
    exact List.mem_takeWhile_imp ha
  · intro a ha
    exact List.mem_rtakeWhile_imp ha

theorem dropWhile_append_of_blank {l s : List α} (hl : ∀ a ∈ l, p a) :
    (l ++ s).dropWhile p = s.dropWhile p :=
  List.dropWhile_append_of_pos hl

theorem rdropWhile_append_of_blank {s t : List α} (ht : ∀ a ∈ t, p a) :
    (s ++ t).rdropWhile p = s.rdropWhile p := by
  have hrev : ∀ a ∈ t.reverse, p a := fun a ha => ht a (List.mem_reverse.1 ha)
  simp only [List.rdropWhile, List.reverse_append, List.dropWhile_append_of_pos hrev]

/-- Blanks around a text do not change its core. -/
theorem trim_append_blank {l s t : List α} (hl : ∀ a ∈ l, p a) (ht : ∀ a ∈ t, p a) :
    trim p (l ++ s ++ t) = trim p s := by
  by_cases hs : ∀ a ∈ s, p a
  · have hall : ∀ a ∈ l ++ s ++ t, p a := by
      intro a ha
      rcases List.mem_append.1 ha with ha | ha
      · rcases List.mem_append.1 ha with ha | ha
        · exact hl a ha
        · exact hs a ha
      · exact ht a ha
    rw [trim_eq_nil_iff.2 hall, trim_eq_nil_iff.2 hs]
  · -- With a letter that is not blank in it, `s` ends the blank prefix and the blank suffix.
    have hne : s.dropWhile p ≠ [] := by
      intro hnil
      refine hs fun a ha => ?_
      rw [← List.takeWhile_append_dropWhile (p := p) (l := s), hnil, List.append_nil] at ha
      exact List.mem_takeWhile_imp ha
    have hdrop : (s ++ t).dropWhile p = s.dropWhile p ++ t := by
      rw [List.dropWhile_append]
      simp [hne]
    rw [trim, List.append_assoc, dropWhile_append_of_blank hl, hdrop,
      rdropWhile_append_of_blank ht, trim]

/-- The core starts with a letter that is not blank. -/
theorem not_of_trim_eq_cons {s r : List α} {a : α} (h : trim p s = a :: r) : ¬ p a := by
  have hpre : a :: r <+: s.dropWhile p := by
    rw [← h]
    exact List.rdropWhile_prefix p _
  rcases hpre with ⟨t, ht⟩
  -- The core begins where the text without its blank prefix begins.
  have hhead := List.head?_dropWhile_not p s
  rw [← ht] at hhead
  simpa using hhead

/-- A text that starts with a letter that is not blank has its core there. -/
theorem trim_cons_of_not {a : α} (ha : ¬ p a) (s : List α) : ∃ r, trim p (a :: s) = a :: r := by
  have hpre : trim p (a :: s) <+: a :: s := by
    rw [trim, List.dropWhile_cons_of_neg ha]
    exact List.rdropWhile_prefix p _
  cases hcore : trim p (a :: s) with
  | nil => exact absurd (trim_eq_nil_iff.1 hcore a List.mem_cons_self) ha
  | cons b r =>
      rw [hcore] at hpre
      exact ⟨r, by rw [(List.cons_prefix_cons.1 hpre).1]⟩

/-- Both trims commute. -/
theorem dropWhile_rdropWhile (s : List α) : (s.rdropWhile p).dropWhile p = trim p s := by
  rcases exists_eq_append_trim p s with ⟨l, t, hs, hl, ht⟩
  by_cases hnil : trim p s = []
  · have hall := trim_eq_nil_iff.1 hnil
    rw [hnil, List.rdropWhile_eq_nil_iff.2 hall]
    rfl
  · -- The core keeps its last letter, and so does what stands before it.
    have hlast : (trim p s).reverse.dropWhile p = (trim p s).reverse := by
      have hcore : (trim p s).rdropWhile p = trim p s := List.rdropWhile_idempotent p _
      rw [List.rdropWhile, List.reverse_eq_iff] at hcore
      exact hcore
    have hback : (l ++ trim p s).rdropWhile p = l ++ trim p s := by
      rw [List.rdropWhile, List.reverse_append, List.dropWhile_append, hlast]
      simp [hnil]
    have hfront : (trim p s).dropWhile p = trim p s := by
      cases hts : trim p s with
      | nil => rfl
      | cons a r => rw [List.dropWhile_cons_of_neg (not_of_trim_eq_cons hts)]
    calc
      (s.rdropWhile p).dropWhile p = ((l ++ trim p s ++ t).rdropWhile p).dropWhile p := by
        rw [← hs]
      _ = (l ++ trim p s).dropWhile p := by rw [rdropWhile_append_of_blank ht, hback]
      _ = trim p s := by rw [dropWhile_append_of_blank hl, hfront]

@[simp] theorem rdropWhile_trim (s : List α) : (trim p s).rdropWhile p = trim p s :=
  List.rdropWhile_idempotent p _

@[simp] theorem dropWhile_trim (s : List α) : (trim p s).dropWhile p = trim p s := by
  rw [← dropWhile_rdropWhile, List.dropWhile_idempotent]

/-- Where the core starts is where the blank prefix ends. -/
theorem takeWhile_of_core {l s t : List α} (hl : ∀ a ∈ l, p a) (hs : trim p s ≠ []) :
    (l ++ (trim p s ++ t)).takeWhile p = l := by
  cases hcore : trim p s with
  | nil => exact absurd hcore hs
  | cons a r =>
      have ha : ¬ p a := not_of_trim_eq_cons hcore
      rw [List.takeWhile_append_of_pos hl, List.cons_append, List.takeWhile_cons_of_neg ha,
        List.append_nil]

/-- Cutting a text keeps its core exactly when nothing but blanks is cut off. -/
theorem trim_take_eq_iff (s : List α) (n : Nat) :
    trim p (s.take n) = trim p s ∧ trim p s ≠ [] ↔ (∃ a ∈ s, ¬ p a) ∧ ∀ a ∈ s.drop n, p a := by
  have hne : trim p s ≠ [] ↔ ∃ a ∈ s, ¬ p a := by
    rw [ne_eq, trim_eq_nil_iff]
    push Not
    rfl
  rw [hne]
  constructor
  · rintro ⟨hcut, hcore⟩
    refine ⟨hcore, ?_⟩
    rcases exists_eq_append_trim p s with ⟨l, t, hs, hl, ht⟩
    rcases exists_eq_append_trim p (s.take n) with ⟨l', t', hs', hl', ht'⟩
    rw [hcut] at hs'
    -- Both decompositions have the same blank prefix, so the cut falls behind the core.
    have hwhole : s = l' ++ (trim p s ++ (t' ++ s.drop n)) := by
      calc
        s = s.take n ++ s.drop n := (List.take_append_drop n s).symm
        _ = l' ++ (trim p s ++ (t' ++ s.drop n)) := by
              rw [hs']
              simp only [List.append_assoc]
    have hll : l = l' := by
      rw [← takeWhile_of_core hl (hne.2 hcore) (t := t),
        ← takeWhile_of_core hl' (hne.2 hcore) (t := t' ++ s.drop n), ← hwhole,
        ← List.append_assoc, ← hs]
    have htail : t = t' ++ s.drop n := by
      have heq : l' ++ (trim p s ++ t) = l' ++ (trim p s ++ (t' ++ s.drop n)) := by
        rw [← hwhole, ← hll, ← List.append_assoc, ← hs]
      exact List.append_cancel_left (List.append_cancel_left heq)
    intro a ha
    exact ht a (htail ▸ List.mem_append_right t' ha)
  · rintro ⟨hcore, hblank⟩
    refine ⟨?_, hcore⟩
    -- What is cut off are blanks behind the rest.
    have hnil : ∀ a ∈ ([] : List α), p a := by simp
    have h := trim_append_blank (s := s.take n) hnil hblank
    rw [List.nil_append, List.take_append_drop] at h
    exact h.symm

/-! ## The core without its computation -/

/-- `l` is the longest prefix of `s` that is all blank. -/
def LongestPrefix (p : α → Bool) (s l : List α) : Prop :=
  l <+: s ∧ (∀ a ∈ l, p a) ∧ ∀ l', l' <+: s → (∀ a ∈ l', p a) → l'.length ≤ l.length

/-- `t` is the longest suffix of `s` that is all blank. -/
def LongestSuffix (p : α → Bool) (s t : List α) : Prop :=
  t <:+ s ∧ (∀ a ∈ t, p a) ∧ ∀ t', t' <:+ s → (∀ a ∈ t', p a) → t'.length ≤ t.length

/-- `c` is `s` without its longest blank prefix and its longest blank suffix, and empty when `s` is
all blank. -/
def IsCore (p : α → Bool) (s c : List α) : Prop :=
  if ∀ a ∈ s, p a then c = []
  else ∃ l t, LongestPrefix p s l ∧ LongestSuffix p s t ∧ s = l ++ c ++ t

theorem length_le_takeWhile {s l : List α} (hl : l <+: s) (hblank : ∀ a ∈ l, p a) :
    l.length ≤ (s.takeWhile p).length := by
  rcases hl with ⟨r, rfl⟩
  rw [List.takeWhile_append_of_pos hblank, List.length_append]
  exact Nat.le_add_right _ _

theorem longestPrefix_iff {s l : List α} : LongestPrefix p s l ↔ l = s.takeWhile p := by
  constructor
  · rintro ⟨hl, hblank, hlongest⟩
    have hle := hlongest _ (List.takeWhile_prefix p) fun _ => List.mem_takeWhile_imp
    have hpre : l <+: s.takeWhile p :=
      List.prefix_of_prefix_length_le hl (List.takeWhile_prefix p) (length_le_takeWhile hl hblank)
    exact hpre.eq_of_length_le hle
  · rintro rfl
    exact ⟨List.takeWhile_prefix p, fun _ => List.mem_takeWhile_imp, fun _ => length_le_takeWhile⟩

/-- A suffix is a prefix of the text read backwards. -/
theorem longestSuffix_iff_reverse {s t : List α} :
    LongestSuffix p s t ↔ LongestPrefix p s.reverse t.reverse := by
  constructor
  · rintro ⟨ht, hblank, hlongest⟩
    refine ⟨List.reverse_prefix.2 ht, fun a ha => hblank a (List.mem_reverse.1 ha), ?_⟩
    intro l' hl' hblank'
    have hsuf : l'.reverse <:+ s := List.reverse_prefix.1 (by rwa [List.reverse_reverse])
    have hle := hlongest _ hsuf fun a ha => hblank' a (List.mem_reverse.1 ha)
    rwa [List.length_reverse] at hle ⊢
  · rintro ⟨ht, hblank, hlongest⟩
    refine ⟨List.reverse_prefix.1 ht, fun a ha => hblank a (List.mem_reverse.2 ha), ?_⟩
    intro t' ht' hblank'
    have hle := hlongest _ (List.reverse_prefix.2 ht') fun a ha => hblank' a (List.mem_reverse.1 ha)
    rwa [List.length_reverse, List.length_reverse] at hle

theorem longestSuffix_iff {s t : List α} : LongestSuffix p s t ↔ t = s.rtakeWhile p := by
  rw [longestSuffix_iff_reverse, longestPrefix_iff, List.rtakeWhile, List.reverse_eq_iff]

/-- With a letter that is not blank, the two runs of blanks lie apart. -/
theorem takeWhile_append_trim {s : List α} (hs : ¬ ∀ a ∈ s, p a) :
    s = s.takeWhile p ++ trim p s ++ s.rtakeWhile p := by
  have hcore : trim p s ≠ [] := fun hnil => hs (trim_eq_nil_iff.1 hnil)
  have hfront : s = (s.rdropWhile p).takeWhile p ++ (trim p s ++ s.rtakeWhile p) := by
    rw [← dropWhile_rdropWhile, ← List.append_assoc, List.takeWhile_append_dropWhile,
      List.rdropWhile_append_rtakeWhile]
  have htake : s.takeWhile p = (s.rdropWhile p).takeWhile p := by
    calc
      s.takeWhile p
          = ((s.rdropWhile p).takeWhile p ++ (trim p s ++ s.rtakeWhile p)).takeWhile p :=
            congrArg _ hfront
      _ = (s.rdropWhile p).takeWhile p :=
            takeWhile_of_core (fun _ => List.mem_takeWhile_imp) hcore
  rw [htake, List.append_assoc]
  exact hfront

/-- Every text has one core, and it is the trimmed text. -/
theorem isCore_iff {s c : List α} : IsCore p s c ↔ c = trim p s := by
  unfold IsCore
  split
  · rename_i hblank
    rw [trim_eq_nil_iff.2 hblank]
  · rename_i hblank
    have hsplit := takeWhile_append_trim hblank
    constructor
    · rintro ⟨l, t, hl, ht, hs⟩
      rw [longestPrefix_iff.1 hl, longestSuffix_iff.1 ht] at hs
      exact List.append_cancel_left (List.append_cancel_right (hs.symm.trans hsplit))
    · rintro rfl
      exact ⟨_, _, longestPrefix_iff.2 rfl, longestSuffix_iff.2 rfl, hsplit⟩

end Text
end CommServer
