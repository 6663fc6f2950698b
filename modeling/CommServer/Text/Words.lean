import CommServer.Text.Trim

/-!
# Words — the maximal runs of letters between separators

`words p s` lists the non-empty pieces of `s` between the letters that satisfy `p`.

* `words_append_sep`  : a separator splits a text into two with their own words;
* `words_trim`        : trimming separators changes no word;
* `words_eq_cons`     : the first word is what a scan over separators and then letters finds.
-/

namespace CommServer
namespace Text

variable {α : Type} {p q : α → Bool}

/-- The non-empty pieces of `s` between its separators. -/
def words (p : α → Bool) (s : List α) : List (List α) :=
  (s.splitOnP p).filter fun w => !w.isEmpty

@[simp] theorem words_nil (p : α → Bool) : words p [] = [] := by
  simp [words]

theorem words_append_sep {a : α} (ha : p a) (s t : List α) :
    words p (s ++ a :: t) = words p s ++ words p t := by
  unfold words
  rw [List.splitOnP_append_cons s t ha, List.filter_append]

theorem words_cons_sep {a : α} (ha : p a) (s : List α) : words p (a :: s) = words p s := by
  simpa using words_append_sep ha [] s

/-- A text without separators is one word. -/
theorem words_of_letters {w : List α} (hne : w ≠ []) (hw : ∀ a ∈ w, p a = false) :
    words p w = [w] := by
  rw [words, List.splitOnP_eq_singleton hw]
  simp [hne]

theorem words_append_blank {t : List α} (ht : ∀ a ∈ t, p a) (s : List α) :
    words p (s ++ t) = words p s := by
  induction t generalizing s with
  | nil => rw [List.append_nil]
  | cons a t ih =>
      have hrest : words p t = [] := by
        simpa using ih (fun b hb => ht b (List.mem_cons_of_mem a hb)) []
      rw [words_append_sep (ht a List.mem_cons_self), hrest, List.append_nil]

theorem words_blank_append {t : List α} (ht : ∀ a ∈ t, p a) (s : List α) :
    words p (t ++ s) = words p s := by
  induction t with
  | nil => rfl
  | cons a t ih =>
      rw [List.cons_append, words_cons_sep (ht a List.mem_cons_self)]
      exact ih fun b hb => ht b (List.mem_cons_of_mem a hb)

theorem words_dropWhile (s : List α) : words p (s.dropWhile p) = words p s := by
  have hblank : ∀ a ∈ s.takeWhile p, p a := fun a ha => List.mem_takeWhile_imp ha
  calc
    words p (s.dropWhile p) = words p (s.takeWhile p ++ s.dropWhile p) :=
      (words_blank_append hblank _).symm
    _ = words p s := by rw [List.takeWhile_append_dropWhile]

/-- Trimming away separators, or some of them, leaves the words. -/
theorem words_trim (hqp : ∀ a, q a → p a) (s : List α) : words p (trim q s) = words p s := by
  rcases exists_eq_append_trim q s with ⟨l, t, hs, hl, ht⟩
  calc
    words p (trim q s) = words p (l ++ trim q s) :=
      (words_blank_append (fun a ha => hqp a (hl a ha)) _).symm
    _ = words p (l ++ trim q s ++ t) :=
      (words_append_blank (fun a ha => hqp a (ht a ha)) _).symm
    _ = words p s := by rw [← hs]

/-- The letters at the front of a text are its first word, if there are any. -/
theorem words_eq_cons {s : List α} (hne : s.takeWhile (fun a => !p a) ≠ []) :
    words p s = s.takeWhile (fun a => !p a) :: words p (s.dropWhile fun a => !p a) := by
  have hletters : ∀ a ∈ s.takeWhile (fun a => !p a), p a = false := by
    intro a ha
    simpa using List.mem_takeWhile_imp ha
  cases hrest : s.dropWhile (fun a => !p a) with
  | nil =>
      have hall : s.takeWhile (fun a => !p a) = s := by
        have hsplit := List.takeWhile_append_dropWhile (p := fun a => !p a) (l := s)
        rwa [hrest, List.append_nil] at hsplit
      rw [words_nil, hall]
      exact words_of_letters (hall ▸ hne) (hall ▸ hletters)
  | cons a t =>
      -- The run ends at a separator.
      have ha : p a := by
        have hhead := List.head?_dropWhile_not (fun a => !p a) s
        rw [hrest] at hhead
        simpa using hhead
      calc
        words p s = words p (s.takeWhile (fun a => !p a) ++ a :: t) := by
          rw [← hrest, List.takeWhile_append_dropWhile]
        _ = words p (s.takeWhile fun a => !p a) ++ words p t := words_append_sep ha _ _
        _ = s.takeWhile (fun a => !p a) :: words p (a :: t) := by
          rw [words_of_letters hne hletters, words_cons_sep ha]
          rfl

/-- A word is not empty, and has letters of the text in it but no separators. -/
theorem of_mem_words {s w : List α} (hw : w ∈ words p s) :
    w ≠ [] ∧ ∀ a ∈ w, p a = false ∧ a ∈ s := by
  rcases List.mem_filter.1 hw with ⟨hmem, hne⟩
  refine ⟨by simpa using hne, ?_⟩
  clear hne hw
  induction s generalizing w with
  | nil =>
      have hnil : w = [] := by simpa using hmem
      simp [hnil]
  | cons b s ih =>
      have hweak : ∀ {v : List α}, v ∈ s.splitOnP p → ∀ a ∈ v, p a = false ∧ a ∈ b :: s :=
        fun hv a ha => ⟨(ih hv a ha).1, List.mem_cons_of_mem b (ih hv a ha).2⟩
      rw [List.splitOnP_cons_eq_if_modifyHead] at hmem
      split at hmem
      · rcases List.mem_cons.1 hmem with rfl | hmem
        · simp
        · exact hweak hmem
      · rename_i hb
        cases hs : s.splitOnP p with
        | nil => exact absurd hs (List.splitOnP_ne_nil p s)
        | cons v vs =>
            rw [hs, List.modifyHead_cons] at hmem
            rcases List.mem_cons.1 hmem with rfl | hmem
            · -- The letter in front joins the first piece.
              intro a ha
              rcases List.mem_cons.1 ha with rfl | ha
              · exact ⟨by simpa using hb, List.mem_cons_self⟩
              · exact hweak (v := v) (by simp [hs]) a ha
            · exact hweak (by simp [hs, hmem])

end Text
end CommServer
