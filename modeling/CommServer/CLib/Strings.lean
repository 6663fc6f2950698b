import CommServer.CLib.Memory

/-!
# Strings — the `<string.h>` and `<stdio.h>` calls on byte memory

`strncmp`, `strncpy` and `snprintf` as the C library documents them: what they read, what they
write, and where they leave the objects they are given.
-/

namespace CommServer
namespace CLib

/-! ## Comparison -/

/-- `strncmp(s, t, n)`: it stops at the first difference, at a common NUL, or after `n` bytes. -/
def strncmp : List Byte → List Byte → Nat → Option Int
  | _, _, 0 => some 0
  | a :: s, b :: t, n + 1 =>
      if a ≠ b then some ((a.toNat : Int) - b.toNat)
      else if a = 0 then some 0
      else strncmp s t n
  | _, _, _ + 1 => none

/-- Comparing the text at a cursor with a whole NUL-free word never leaves the text's terminator,
and answers zero exactly when the word stands at the cursor. -/
theorem strncmp_word {d t : List Byte} (hd : (0 : Byte) ∉ d) (ht : (0 : Byte) ∉ t)
    (rest rest' : List Byte) :
    ∃ c, strncmp (t ++ 0 :: rest) (d ++ 0 :: rest') d.length = some c ∧ (c = 0 ↔ d <+: t) := by
  induction d generalizing t with
  | nil => exact ⟨0, by simp [strncmp], by simp⟩
  | cons b d ih =>
      have hb : b ≠ 0 := by
        rintro rfl
        simp at hd
      have hd' : (0 : Byte) ∉ d := fun h => hd (List.mem_cons_of_mem _ h)
      cases t with
      | nil =>
          -- The terminator of the text is the difference, and the comparison stops there.
          have hne : (0 : Byte) ≠ b := fun h => hb h.symm
          refine ⟨((0 : Byte).toNat : Int) - b.toNat, by simp [strncmp, hne], ?_⟩
          have hnat : b.toNat ≠ 0 := fun h => hb (UInt8.toNat_inj.1 (by simpa using h))
          simp [hnat]
      | cons a t =>
          have ht' : (0 : Byte) ∉ t := fun h => ht (List.mem_cons_of_mem _ h)
          -- Equal bytes are not NUL, so the comparison goes on behind them.
          by_cases hab : a = b
          · subst hab
            rcases ih hd' ht' with ⟨c, hc, hiff⟩
            refine ⟨c, by simpa [strncmp, hb] using hc, ?_⟩
            rw [hiff, List.cons_prefix_cons]
            simp
          · refine ⟨(a.toNat : Int) - b.toNat, by simp [strncmp, hab], ?_⟩
            have hnat : a.toNat ≠ b.toNat := fun h => hab (UInt8.toNat_inj.1 h)
            have hne : ¬ (a.toNat : Int) - b.toNat = 0 := by omega
            have hpre : ¬ (b :: d <+: a :: t) := by
              rw [List.cons_prefix_cons]
              exact fun h => hab h.1.symm
            simp only [hne, hpre]

/-! ## Bounded copy -/

/-- The `n` bytes that `strncpy(dst, src, n)` stores: the string, cut at `n`, then NUL padding. -/
def strncpyBytes (src : List Byte) (n : Nat) : List Byte :=
  (cstr src).take n ++ List.replicate (n - (cstr src).length) 0

@[simp] theorem length_strncpyBytes (src : List Byte) (n : Nat) :
    (strncpyBytes src n).length = n := by
  simp only [strncpyBytes, List.length_append, List.length_take, List.length_replicate]
  omega

/-- `strncpy(dst, src, n)`.  It stores exactly `n` bytes, so it fails when `n` exceeds the array,
and when `src` ends before a NUL or the `n`th byte is read. -/
def strncpy {k : Nat} (dst : Buf k) (src : List Byte) (n : Nat) : Option (Buf k) :=
  if h : n ≤ k ∧ (n ≤ src.length ∨ (0 : Byte) ∈ src) then
    some ⟨strncpyBytes src n ++ dst.bytes.drop n, by
      simp only [List.length_append, length_strncpyBytes, List.length_drop, dst.size]
      omega⟩
  else
    none

section Strncpy

variable {k : Nat}

theorem strncpy_eq_some_iff (dst dst' : Buf k) (src : List Byte) (n : Nat) :
    strncpy dst src n = some dst' ↔
      (n ≤ k ∧ (n ≤ src.length ∨ (0 : Byte) ∈ src)) ∧
        dst'.bytes = strncpyBytes src n ++ dst.bytes.drop n := by
  by_cases h : n ≤ k ∧ (n ≤ src.length ∨ (0 : Byte) ∈ src)
  · simp only [strncpy, h, dite_true, Option.some.injEq, true_and, and_self]
    constructor
    · rintro rfl
      rfl
    · intro hb
      exact Buf.ext hb.symm
  · simp [strncpy, h]

theorem strncpy_eq_none_iff (dst : Buf k) (src : List Byte) (n : Nat) :
    strncpy dst src n = none ↔ k < n ∨ (src.length < n ∧ (0 : Byte) ∉ src) := by
  by_cases h : n ≤ k ∧ (n ≤ src.length ∨ (0 : Byte) ∈ src)
  · have hfalse : ¬ (k < n ∨ (src.length < n ∧ (0 : Byte) ∉ src)) := by
      rintro (hk | ⟨hlt, hmem⟩)
      · omega
      · rcases h.2 with hle | hin
        · omega
        · exact hmem hin
    simp [strncpy, h, hfalse]
  · have htrue : k < n ∨ (src.length < n ∧ (0 : Byte) ∉ src) := by
      by_cases hk : n ≤ k
      · right
        refine ⟨?_, fun hin => h ⟨hk, Or.inr hin⟩⟩
        by_contra hlen
        exact h ⟨hk, Or.inl (by omega)⟩
      · left
        omega
    simp [strncpy, h, htrue]

/-- Copying into a zeroed array with room for a terminator leaves the string, cut at `n`. -/
theorem strncpy_zeroed {src : List Byte} {n : Nat} (hn : n < k)
    (hsrc : n ≤ src.length ∨ (0 : Byte) ∈ src) :
    ∃ dst, strncpy (Buf.zeroed k) src n = some dst ∧ dst.str = (cstr src).take n := by
  refine ⟨⟨strncpyBytes src n ++ (Buf.zeroed k).bytes.drop n, ?_⟩, ?_, ?_⟩
  · simp
    omega
  · exact (strncpy_eq_some_iff _ _ _ _).2 ⟨⟨by omega, hsrc⟩, rfl⟩
  · -- Behind the string there is padding, then what `memset` left: zeros in both.
    have hpad :
        strncpyBytes src n ++ (Buf.zeroed k).bytes.drop n =
          (cstr src).take n ++ List.replicate (n - (cstr src).length + (k - n)) 0 := by
      simp [strncpyBytes, List.append_assoc, List.replicate_append_replicate]
    have hcut : (0 : Byte) ∉ (cstr src).take n :=
      fun h => zero_not_mem_cstr src (List.mem_of_mem_take h)
    obtain ⟨j, hj⟩ : ∃ j, n - (cstr src).length + (k - n) = j + 1 :=
      ⟨n - (cstr src).length + (k - n) - 1, by omega⟩
    refine Buf.str_of_bytes hcut (List.replicate j 0) ?_
    simp only [hpad, hj, List.replicate_succ]

/-- Storing a terminator in the last byte of a zeroed array that was filled below it. -/
theorem str_set_last {b : Buf k} {s : List Byte} {i : Nat} (hb : b.str = s) (hs : s.length ≤ i)
    (hi : i < k) : (b.set i 0).str = s := by
  by_cases hmem : (0 : Byte) ∈ b.bytes
  · rcases eq_cstr_append_zero hmem with ⟨rest, hrest⟩
    have hsplit : b.bytes = s ++ 0 :: rest := by
      rw [← hb]
      exact hrest
    have hs0 : (0 : Byte) ∉ s := hb ▸ b.zero_not_mem_str
    -- The new terminator is the old one, or lies behind it.
    obtain ⟨j, rfl⟩ : ∃ j, i = s.length + j := ⟨i - s.length, by omega⟩
    cases j with
    | zero =>
        refine Buf.str_of_bytes hs0 rest ?_
        simp [hsplit]
    | succ j =>
        refine Buf.str_of_bytes hs0 (rest.set j 0) ?_
        simp [hsplit]
  · -- Without a NUL the string would fill the array, and `i` would be out of range.
    have hfull : b.str = b.bytes := cstr_eq_self hmem
    have hlen : s.length = k := by rw [← hb, hfull, b.size]
    omega

/-- Storing a terminator right behind known bytes. -/
theorem str_set_of_take {b : Buf k} {s : List Byte} {i : Nat} (hs : (0 : Byte) ∉ s) (hi : i < k)
    (h : b.bytes.take i = s) : (b.set i 0).str = s := by
  refine Buf.str_of_bytes hs (b.bytes.drop (i + 1)) ?_
  have hlt : i < b.bytes.length := by
    rw [b.size]
    exact hi
  rw [Buf.bytes_set, List.set_eq_take_append_cons_drop, if_pos hlt, h]

end Strncpy

/-! ## Concatenation -/

/-- `strcat(dst, src)`. -/
def strcat {k : Nat} (dst : Buf k) (src : List Byte) : Option (Buf k) := do
  let len ← strlen dst.bytes
  let _ ← strlen src
  dst.blit len (cstr src ++ [0])

/-- `strcat` stays inside the array exactly when both strings and a terminator fit it. -/
theorem strcat_spec {k : Nat} {dst : Buf k} {src : List Byte} (hdst : (0 : Byte) ∈ dst.bytes)
    (hsrc : (0 : Byte) ∈ src) :
    (dst.str.length + (cstr src).length < k →
      ∃ b, strcat dst src = some b ∧ b.str = dst.str ++ cstr src ∧ (0 : Byte) ∈ b.bytes) ∧
    (¬ dst.str.length + (cstr src).length < k → strcat dst src = none) := by
  have hstrcat : strcat dst src = dst.blit dst.str.length (cstr src ++ [0]) := by
    simp [strcat, strlen_of_mem hdst, strlen_of_mem hsrc, Buf.str]
  rw [hstrcat]
  constructor
  · intro hfit
    have hroom : dst.str.length + (cstr src ++ [0]).length ≤ k := by
      simp only [List.length_append, List.length_singleton]
      omega
    rcases dst.blit_of_le hroom with ⟨b, hb⟩
    have hbytes := ((Buf.blit_eq_some_iff _ _ _ _).1 hb).2
    -- The bytes in front of the copy are the old string.
    have hpre : cstr dst.bytes <+: dst.bytes := cstr_prefix _
    have hfront : dst.bytes.take dst.str.length = dst.str := (List.prefix_iff_eq_take.1 hpre).symm
    rw [hfront, ← List.append_assoc, List.append_assoc, List.singleton_append] at hbytes
    have hclean : (0 : Byte) ∉ dst.str ++ cstr src := by
      simp [dst.zero_not_mem_str, zero_not_mem_cstr src]
    exact ⟨b, hb, Buf.str_of_bytes hclean _ hbytes, by simp [hbytes]⟩
  · intro hover
    have hnot : ¬ dst.str.length + (cstr src ++ [0]).length ≤ k := by
      simp only [List.length_append, List.length_singleton]
      omega
    simp only [Buf.blit, hnot, dite_false]

/-! ## Formatted output -/

/-- `snprintf(dst, sizeof(dst), ...)` where `text` is what the format expands to: at most
`sizeof(dst) - 1` bytes are stored, then a terminator. -/
def snprintf {k : Nat} (dst : Buf k) (text : List Byte) : Buf k :=
  if h : 0 < k then
    ⟨text.take (k - 1) ++ 0 :: dst.bytes.drop (min (k - 1) text.length + 1), by
      simp only [List.length_append, List.length_take, List.length_cons, List.length_drop, dst.size]
      omega⟩
  else
    dst

theorem snprintf_str {k : Nat} (dst : Buf k) {text : List Byte} (hk : 0 < k)
    (htext : (0 : Byte) ∉ text) : (snprintf dst text).str = text.take (k - 1) := by
  have hcut : (0 : Byte) ∉ text.take (k - 1) := fun h => htext (List.mem_of_mem_take h)
  refine Buf.str_of_bytes hcut (dst.bytes.drop (min (k - 1) text.length + 1)) ?_
  simp [snprintf, hk]

/-- Text that fits is stored whole. -/
theorem snprintf_str_of_lt {k : Nat} (dst : Buf k) {text : List Byte} (hlen : text.length < k)
    (htext : (0 : Byte) ∉ text) : (snprintf dst text).str = text := by
  rw [snprintf_str dst (by omega) htext]
  exact List.take_of_length_le (by omega)

end CLib
end CommServer
